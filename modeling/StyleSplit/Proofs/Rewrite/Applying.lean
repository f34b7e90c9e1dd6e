import StyleSplit.Proofs.Rewrite.Splicing

/-! When edits can be applied. Splicing only looks at the end of the edit before, in the
order of edits; since an edit never ends before it starts, this is enough to find any two
edits that overlap. An empty span overlaps a span that it stands strictly inside of, and
none that it borders on. -/
namespace StyleSplit

namespace Edit

variable {source : Text} {edits : List Edit}

/-- Two edits at different places in the list have spans that overlap. -/
def Clash (edits : List Edit) : Prop :=
  ∃ (i j : Nat) (a b : Edit), i ≠ j ∧ edits[i]? = some a ∧ edits[j]? = some b ∧
    a.span.overlaps b.span = true

theorem clash_iff :
    Clash edits ↔ ¬ edits.Pairwise fun a b => a.span.overlaps b.span = false := by
  constructor
  · rintro ⟨i, j, a, b, distinct, first, second, overlap⟩ apart
    obtain ⟨i_lt, rfl⟩ := List.getElem?_eq_some_iff.mp first
    obtain ⟨j_lt, rfl⟩ := List.getElem?_eq_some_iff.mp second
    have clear := List.pairwise_iff_getElem.mp apart
    rcases Nat.lt_or_gt_of_ne distinct with less | more
    · exact absurd overlap (Bool.eq_false_iff.mp (clear _ _ i_lt j_lt less))
    · rw [Span.overlaps_comm] at overlap
      exact absurd overlap (Bool.eq_false_iff.mp (clear _ _ j_lt i_lt more))
  · intro together
    simp only [List.pairwise_iff_getElem, not_forall, Bool.not_eq_false] at together
    obtain ⟨i, j, i_lt, j_lt, less, overlap⟩ := together
    exact ⟨i, j, _, _, Nat.ne_of_lt less, List.getElem?_eq_getElem i_lt,
      List.getElem?_eq_getElem j_lt, overlap⟩

/-- Splicing gets through exactly when every edit starts where the one before it ends, or
after. -/
theorem splice_ok_iff {position : Nat} (within : ∀ e ∈ edits, e.span.Within source.length) :
    (∃ code, splice source position edits = .ok code) ↔
      (∀ e ∈ edits, position ≤ e.span.start) ∧ Consecutive edits := by
  constructor
  · intro spliced
    induction edits generalizing position with
    | nil => exact ⟨by simp, .nil⟩
    | cons e rest ih =>
      obtain ⟨code, spliced⟩ := spliced
      unfold splice at spliced
      split at spliced
      · cases spliced
      rename_i notEarly
      have next : ∃ code, splice source e.span.stop rest = .ok code := by
        cases next : splice source e.span.stop rest with
        | error offset =>
          rw [next] at spliced
          cases spliced
        | ok code => exact ⟨code, rfl⟩
      obtain ⟨after, consecutive⟩ :=
        ih (fun other h => within other (List.mem_cons_of_mem _ h)) next
      have room := (within e List.mem_cons_self).1
      refine ⟨List.forall_mem_cons.mpr ⟨by omega, fun other member => ?_⟩,
        List.pairwise_cons.mpr ⟨after, consecutive⟩⟩
      have := after other member
      omega
  · rintro ⟨after, consecutive⟩
    obtain ⟨code, spliced, -⟩ := splice_rewrites within after consecutive
    exact ⟨code, spliced⟩

/-- Edits can be applied exactly when no two of them overlap. -/
theorem apply_ok_iff (within : ∀ e ∈ edits, e.span.Within source.length) :
    (∃ code, apply source edits = .ok code) ↔ ¬ Clash edits := by
  have sorted (e : Edit) (member : e ∈ sort edits) := within e ((sort_perm edits).mem_iff.mp member)
  rw [clash_iff, not_not, sort_consecutive within]
  refine (splice_ok_iff sorted).trans ⟨And.right, fun consecutive => ⟨?_, consecutive⟩⟩
  exact fun _ _ => Nat.zero_le _

/-- What comes of edits whose spans are spans of the text, insertions included. Applying them
fails exactly when two of them overlap. Otherwise the result is the text with the part at
each span replaced, and everything else as it was. In both cases it does not matter in which
order the edits are given. -/
theorem apply_outcome (within : ∀ e ∈ edits, e.span.Within source.length) :
    ((∃ offset, apply source edits = .error offset) ↔ Clash edits) ∧
      (¬ Clash edits → ∃ code, apply source edits = .ok code ∧
        ∃ ordered, ordered.Perm edits ∧ Sorted ordered ∧ Rewrites 0 source ordered code) ∧
      ∀ others : List Edit, others.Perm edits → apply source others = apply source edits := by
  refine ⟨?_, fun clear => ?_, fun others perm => ?_⟩
  · rw [← not_iff_not, ← apply_ok_iff within]
    cases apply source edits with
    | error offset => simp
    | ok code => simp
  · obtain ⟨code, applied⟩ := (apply_ok_iff within).mpr clear
    have perm := sort_perm edits
    have consecutive := (sort_consecutive within).mp (not_not.mp (mt clash_iff.mpr clear))
    obtain ⟨spliced, same, rewrites⟩ := splice_rewrites
      (fun e member => within e (perm.mem_iff.mp member)) (fun _ _ => Nat.zero_le _) consecutive
    cases applied.symm.trans same
    exact ⟨code, applied, _, perm, sort_sorted edits, rewrites⟩
  · rw [apply, apply, sort_eq_of_perm perm]

/-- An insertion where another edit starts can be made, whichever is given first; one
strictly inside of another edit cannot. -/
theorem apply_outcome_insertion :
    (∃ code, apply (StyleSplit.text "abcd") [⟨⟨1, 3⟩, [120]⟩, ⟨⟨1, 1⟩, [45]⟩] = .ok code) ∧
      apply (StyleSplit.text "abcd") [⟨⟨1, 1⟩, [45]⟩, ⟨⟨1, 3⟩, [120]⟩] =
        apply (StyleSplit.text "abcd") [⟨⟨1, 3⟩, [120]⟩, ⟨⟨1, 1⟩, [45]⟩] ∧
      ∃ offset, apply (StyleSplit.text "abcd") [⟨⟨1, 3⟩, [120]⟩, ⟨⟨2, 2⟩, [45]⟩] =
        .error offset := by
  have bordering : ∀ e ∈ ([⟨⟨1, 3⟩, [120]⟩, ⟨⟨1, 1⟩, [45]⟩] : List Edit),
      e.span.Within (StyleSplit.text "abcd").length := by decide
  have strictly : ∀ e ∈ ([⟨⟨1, 3⟩, [120]⟩, ⟨⟨2, 2⟩, [45]⟩] : List Edit),
      e.span.Within (StyleSplit.text "abcd").length := by decide
  obtain ⟨-, applied, orders⟩ := apply_outcome bordering
  obtain ⟨failed, -⟩ := apply_outcome strictly
  refine ⟨?_, orders _ (by decide), failed.mpr ⟨0, 1, _, _, by decide, rfl, rfl, rfl⟩⟩
  obtain ⟨code, applied, -⟩ := applied fun clash => clash_iff.mp clash (by decide)
  exact ⟨code, applied⟩

end Edit

end StyleSplit
