import StyleSplit.Proofs.Rewrite.Splicing
import StyleSplit.Proofs.Script.Relexing

/-! The tokens of a text with edits. Where every edit replaces all of some tokens by text
that starts with a bracket and can be split into tokens on its own, the result splits into
the tokens that were kept and those of the new parts. -/
namespace StyleSplit.Edit

open Script

/-- An edit that replaces all of some tokens. `image` gives what each token becomes. -/
def Replaces (image : Token → List (Terminal × Text)) (tokens : List Token) (e : Edit) : Prop :=
  ∃ u part v, tokens = u ++ part ++ v ∧ Token.extent? part = some e.span ∧
    e.text ≠ [] ∧ Token.Stop e.text ∧
    ∀ z, Token.Lexes (e.text ++ z) (part.flatMap image) z

/-- An edit has nothing to do with a token outside its span. -/
def Outside (e : Edit) (t : Token) : Prop :=
  t.span.stop ≤ e.span.start ∨ e.span.stop ≤ t.span.start

variable {image : Token → List (Terminal × Text)} {tokens u v : List Token} {e : Edit}
  {edits : List Edit}

/-- What an edit behind some tokens replaces is among the others. -/
theorem Replaces.behind (replaces : Replaces image (u ++ v) e) (order : Token.InOrder (u ++ v))
    (after : ∀ t ∈ u, t.span.stop ≤ e.span.start) : Replaces image v e := by
  obtain ⟨x, part, y, whole, extent, some, stop, lexes⟩ := replaces
  obtain ⟨a, b, first, last, same⟩ := Token.extent?_eq_some.mp extent
  rw [List.append_assoc] at whole
  rcases List.append_eq_append_iff.mp whole with ⟨z, rfl, rfl⟩ | ⟨z, rfl, behind⟩
  · exact ⟨z, part, y, by rw [List.append_assoc], extent, some, stop, lexes⟩
  · cases z with
    | nil => exact ⟨[], part, y, behind.symm, extent, some, stop, lexes⟩
    | cons c z =>
      -- Otherwise the first token to replace is one of those ahead.
      obtain ⟨more, rfl⟩ := List.head?_eq_some_iff.mp first
      obtain rfl : a = c := (List.cons.inj behind).1
      have ahead := after a (by simp)
      have filled := order.some a (by simp)
      simp only [same] at ahead
      omega

theorem Rewrites.after {offset : Nat} {old new : Text} (rewrites : Rewrites offset old edits new) :
    ∀ e ∈ edits, offset ≤ e.span.start := by
  induction rewrites with
  | same => simp
  | @edit offset kept old rest new e edits span _ ih =>
    intro other member
    rcases List.mem_cons.mp member with rfl | member
    · rw [span]
      exact Nat.le_add_right _ _
    · have later := ih other member
      omega

/-- Where some tokens stand the text splits into what is read before them and behind them. -/
theorem scans_around {offset : Nat} {front old rest : Text} {part : List Token} {s : Span}
    (scans : Token.Scans offset (front ++ old ++ rest) (u ++ part ++ v) [])
    (extent : Token.extent? part = some s)
    (span : s = ⟨offset + front.length, offset + front.length + old.length⟩) :
    Token.Scans offset (front ++ (old ++ rest)) u (old ++ rest) ∧
      (Token.skipGap (old ++ rest) = none ∧ old ++ rest ≠ []) ∧
      Token.Scans s.stop rest v [] ∧ (∀ t ∈ u, t.span.stop ≤ s.start) ∧
      ∀ t ∈ u ++ part, t.span.stop ≤ s.stop := by
  obtain ⟨a, b, first, last, rfl⟩ := Token.extent?_eq_some.mp extent
  obtain ⟨more, rfl⟩ := List.head?_eq_some_iff.mp first
  obtain ⟨starts, ends⟩ := Span.mk.inj span
  have order := scans.inOrder
  have whole : u ++ a :: more ++ v = u ++ a :: (more ++ v) := List.append_assoc _ _ _
  obtain ⟨front', middle, split, start, stuck, filled, ahead, here⟩ := scans.before whole
  obtain ⟨old', rest', rfl, stop, -, behind⟩ := here.behind rfl last
  rw [List.append_assoc] at split
  obtain ⟨rfl, others⟩ := List.append_inj split (by omega)
  obtain ⟨rfl, rfl⟩ := List.append_inj others (by omega)
  refine ⟨List.append_assoc _ _ _ ▸ ahead, ⟨stuck, filled⟩, behind, fun t member => ?_, ?_⟩
  · rw [whole] at order
    exact (List.pairwise_append.mp order.apart).2.2 t member a (by simp)
  · have part := order.sub (List.prefix_append (u ++ a :: more) v).isInfix
    refine fun t member => part.last ?_ member
    rw [List.getLast?_append_of_ne_nil _ (by simp), last]

theorem flatMap_kept (kept : ∀ t ∈ u, image t = [t.bare]) : u.flatMap image = u.map Token.bare := by
  rw [List.map_eq_flatMap]
  exact List.flatMap_congr kept

/-- A text with edits splits into what its tokens become. -/
theorem Rewrites.lexes {offset : Nat} {old new : Text} (rewrites : Rewrites offset old edits new)
    (scans : Token.Scans offset old tokens []) (separate : Token.Separate tokens)
    (kept : ∀ t ∈ tokens, (∀ e ∈ edits, e.Outside t) → image t = [t.bare])
    (replaced : ∀ e ∈ edits, e.Replaces image tokens) :
    Token.Lexes new (tokens.flatMap image) [] := by
  induction rewrites generalizing tokens with
  | same =>
    rw [flatMap_kept fun t member => kept t member (by simp)]
    exact scans.lexes
  | @edit offset front old rest new e edits span rewrites ih =>
    obtain ⟨u, part, v, rfl, extent, some, stop, lexes⟩ := replaced e (by simp)
    obtain ⟨ahead, ⟨stuck, filled⟩, behind, apart, inner⟩ := scans_around scans extent span
    have order := scans.inOrder
    have later : ∀ other ∈ edits, e.span.stop ≤ other.span.start := by
      rw [span]
      exact rewrites.after
    have tail : Token.Lexes new (v.flatMap image) [] := by
      refine ih (by rwa [span] at behind) (separate.sub ⟨u ++ part, [], by simp⟩) ?_ ?_
      · intro t member outside
        refine kept t (by simp [member]) fun other listed => ?_
        rcases List.mem_cons.mp listed with rfl | listed
        · exact .inr (behind.within member).1
        · exact outside other listed
      · intro other listed
        refine (replaced other (by simp [listed])).behind order fun t member => ?_
        exact Nat.le_trans (inner t member) (later other listed)
    have same : u.flatMap image = u.map Token.bare := by
      refine flatMap_kept fun t member => kept t (by simp [member]) fun other listed => ?_
      rcases List.mem_cons.mp listed with rfl | listed
      · exact .inl (apart t member)
      · exact .inl (Nat.le_trans (inner t (by simp [member])) (later other listed))
    have opens : Token.Stop (e.text ++ new) := by
      intro c front
      rw [List.head?_append_of_ne_nil _ some] at front
      exact stop c front
    have head : Token.Lexes (front ++ (e.text ++ new)) (u.map Token.bare) (e.text ++ new) := by
      refine ahead.relocate opens (separate.sub ⟨[], part ++ v, by simp⟩) rfl fun line => ?_
      cases text : old ++ rest with
      | nil => exact absurd text filled
      | cons c t =>
        rw [text] at stuck line
        have blank := Token.head_of_stuck stuck
        rw [line c rfl] at blank
        cases blank
    rw [List.flatMap_append, List.flatMap_append, same, List.append_assoc, List.append_assoc]
    exact head.append ((lexes new).append tail)

end StyleSplit.Edit
