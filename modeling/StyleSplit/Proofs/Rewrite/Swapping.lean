import StyleSplit.Proofs.Parsing.Deriving
import StyleSplit.Proofs.Rewrite.Resplicing
import StyleSplit.Proofs.Rewrite.Writing

/-! Edits that replace parts of a derivation. Where no two of them overlap, each token is kept or
belongs to one part that is replaced, and the rewritten text has a derivation again if what
replaces each part follows from the same symbol. -/
namespace StyleSplit.Edit

open Script Script.Token

/-- An edit that replaces all tokens of a part of a derivation by others, behind a bracket. -/
structure Swaps (tree part : Tree) (w : List (Terminal × Text)) (e : Edit) : Prop where
  within : part.Within tree
  extent : Token.extent? part.word = some e.span
  closed : Closed e.text w
  opens : ∃ c t, e.text = c :: t ∧ c ∈ stops

/-- A token that stands where an edit does. -/
def holds (e : Edit) (t : Token) : Bool :=
  decide (e.span.start ≤ t.span.start) && decide (t.span.stop ≤ e.span.stop)

/-- What a token becomes: the first one at an edit becomes all that is put there. -/
def image (edits : List Edit) (new : Edit → List (Terminal × Text)) (t : Token) :
    List (Terminal × Text) :=
  match edits.find? (·.holds t) with
  | none => [t.bare]
  | some e => if t.span.start = e.span.start then new e else []

variable {tree : Tree} {edits : List Edit} {e : Edit} {t : Token} {part : Edit → Tree}
  {new : Edit → List (Terminal × Text)}

theorem holds_iff :
    e.holds t = true ↔ e.span.start ≤ t.span.start ∧ t.span.stop ≤ e.span.stop := by
  simp [holds]

theorem image_kept (filled : t.span.start < t.span.stop) (outside : ∀ e ∈ edits, e.Outside t) :
    image edits new t = [t.bare] := by
  have none : edits.find? (·.holds t) = none := by
    refine List.find?_eq_none.mpr fun e member inside => ?_
    have inside := holds_iff.mp inside
    rcases outside e member with before | behind <;> omega
  rw [image, none]

theorem image_held (filled : t.span.start < t.span.stop)
    (apart : edits.Pairwise fun a b => a.span.overlaps b.span = false) (member : e ∈ edits)
    (inside : e.holds t = true) :
    image edits new t = if t.span.start = e.span.start then new e else [] := by
  cases found : edits.find? (·.holds t) with
  | none => exact absurd inside (List.find?_eq_none.mp found e member)
  | some other =>
    have same : other = e := by
      by_contra different
      have symmetric : Std.Symm fun a b : Edit => a.span.overlaps b.span = false :=
        ⟨fun a b h => by rwa [Span.overlaps_comm]⟩
      have clear := apart.forall (List.mem_of_find?_eq_some found) member different
      have inside := holds_iff.mp inside
      have inside' := holds_iff.mp (List.find?_some (p := fun e : Edit => e.holds t) found)
      rcases Span.overlaps_eq_false.mp clear with before | behind <;> omega
    rw [image, found, same]

theorem mem_image {x : Terminal × Text} (member : x ∈ image edits new t) :
    x = t.bare ∨ ∃ e ∈ edits, x ∈ new e := by
  unfold image at member
  split at member
  · exact .inl (List.mem_singleton.mp member)
  · rename_i e found
    split at member
    · exact .inr ⟨e, List.mem_of_find?_eq_some found, member⟩
    · cases member

/-- The tokens of a part are those that stand where it does. -/
theorem Swaps.mem_word {part : Tree} {w : List (Terminal × Text)} (swaps : e.Swaps tree part w)
    (order : Token.InOrder tree.word) (member : t ∈ tree.word) :
    t ∈ part.word ↔ e.holds t = true := by
  obtain ⟨u, v, whole⟩ := swaps.within.leaves
  obtain ⟨a, b, first, last, same⟩ := Token.extent?_eq_some.mp swaps.extent
  have inner := order.sub swaps.within.leaves
  rw [holds_iff, same]
  constructor
  · exact fun among => ⟨inner.first first among, inner.last last among⟩
  · rintro ⟨behind, before⟩
    have filled := order.some t member
    rw [← whole] at order member
    have apart := Tree.before_of_append order
    rw [List.append_assoc] at order
    have apart' := Tree.before_of_append order
    rcases List.mem_append.mp member with member | late
    · rcases List.mem_append.mp member with early | among
      · have far := apart' t early a (by simp [List.mem_of_mem_head? first])
        simp only at behind
        omega
      · exact among
    · have far := apart b (by simp [List.mem_of_getLast? last]) t late
      simp only at before
      omega

/-- A part becomes what it is replaced by. -/
theorem Swaps.image_word (swaps : e.Swaps tree (part e) (new e))
    (order : Token.InOrder tree.word)
    (apart : edits.Pairwise fun a b => a.span.overlaps b.span = false) (member : e ∈ edits) :
    (part e).word.flatMap (image edits new) = new e := by
  obtain ⟨a, b, first, last, same⟩ := Token.extent?_eq_some.mp swaps.extent
  obtain ⟨more, word⟩ := List.head?_eq_some_iff.mp first
  have held {t : Token} (among : t ∈ (part e).word) :
      image edits new t = if t.span.start = e.span.start then new e else [] := by
    have listed := swaps.within.leaves.subset among
    exact image_held (order.some t listed) apart member ((swaps.mem_word order listed).mp among)
  have inner := order.sub swaps.within.leaves
  have start : e.span.start = a.span.start := by rw [same]
  rw [word, List.flatMap_cons, held (by simp [word]), if_pos start.symm]
  rw [word] at inner
  have nothing : more.flatMap (image edits new) = [] := by
    refine List.flatMap_eq_nil_iff.mpr fun t behind => ?_
    have far := List.rel_of_pairwise_cons inner.apart behind
    have filled := inner.some a (by simp)
    rw [held (by simp [word, behind]), if_neg (by omega)]
  rw [nothing, List.append_nil]

/-- The rewritten text splits into the tokens that are kept and those that are put there. -/
theorem lexes_image {s : StyleSplit.Script} {sorted : List Edit} {code : Text}
    (scans : Token.Scans 0 s.source tree.word []) (separate : Token.Separate tree.word)
    (apart : edits.Pairwise fun a b => a.span.overlaps b.span = false)
    (perm : sorted.Perm edits) (rewrites : Rewrites 0 s.source sorted code)
    (swaps : ∀ e ∈ edits, e.Swaps tree (part e) (new e)) :
    Token.Lexes code (tree.word.flatMap (image edits new)) [] := by
  have order := scans.inOrder
  refine rewrites.lexes scans separate (fun t member outside => ?_) fun e member => ?_
  · exact image_kept (order.some t member) fun e listed => outside e (perm.mem_iff.mpr listed)
  · have listed := perm.mem_iff.mp member
    obtain ⟨u, v, whole⟩ := (swaps e listed).within.leaves
    obtain ⟨c, t, text, stop⟩ := (swaps e listed).opens
    refine ⟨u, (part e).word, v, whole.symm, (swaps e listed).extent, by simp [text], ?_, ?_⟩
    · rw [text]
      exact stop_cons stop
    · rw [(swaps e listed).image_word order apart listed]
      exact (swaps e listed).closed

/-- If what each part is replaced by follows from the same symbol, so does the whole. -/
theorem derives_image (valid : tree.valid grammar = true) (order : Token.InOrder tree.word)
    (apart : edits.Pairwise fun a b => a.span.overlaps b.span = false)
    (swaps : ∀ e ∈ edits, e.Swaps tree (part e) (new e))
    (fits : ∀ e ∈ edits, grammar.Derives [(part e).symbol] ((new e).map Prod.fst)) :
    grammar.Derives [tree.symbol] ((tree.word.flatMap (image edits new)).map Prod.fst) := by
  have distinct : tree.word.Nodup := order.apart.imp_of_mem fun {a b} left _ before same => by
    have filled := order.some a left
    subst same
    omega
  have follows : ∀ c : Tree, c.Within tree → (∃ e ∈ edits, c = part e) →
      grammar.Derives [c.symbol] (c.word.flatMap fun t => (image edits new t).map Prod.fst) := by
    rintro _ - ⟨e, listed, rfl⟩
    rw [← List.map_flatMap, (swaps e listed).image_word order apart listed]
    exact fits e listed
  rw [List.map_flatMap]
  refine tree.exchange distinct .self valid follows (fun t member => ?_) fun c inside _ =>
    .inl inside
  · cases found : edits.find? (·.holds t) with
    | none => exact .inl (by rw [image, found]; rfl)
    | some e =>
      have listed := List.mem_of_find?_eq_some found
      have among := ((swaps e listed).mem_word order member).mpr
        (List.find?_some (p := fun e : Edit => e.holds t) found)
      exact .inr ⟨part e, (swaps e listed).within, ⟨e, listed, rfl⟩, among⟩

end StyleSplit.Edit
