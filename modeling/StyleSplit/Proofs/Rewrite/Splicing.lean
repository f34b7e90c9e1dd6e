import Mathlib.Data.List.Lex
import Mathlib.Data.Prod.Lex
import Mathlib.Tactic.Tauto
import StyleSplit.Rewrite.Edit

/-! Applying edits. Edits whose spans are not empty and do not overlap can always be
applied, in whatever order they are given, and the result is the text with the part at
each span replaced and everything else as it was. -/
namespace StyleSplit

namespace Span

/-- A span with text at it, inside a text of the given length. -/
def Inside (s : Span) (length : Nat) : Prop := s.start < s.stop ∧ s.stop ≤ length

/-- A span, with or without text at it, inside a text of the given length. -/
def Within (s : Span) (length : Nat) : Prop := s.start ≤ s.stop ∧ s.stop ≤ length

instance (s : Span) (length : Nat) : Decidable (s.Within length) :=
  inferInstanceAs (Decidable (_ ∧ _))

theorem Inside.within {s : Span} {length : Nat} (inside : s.Inside length) : s.Within length :=
  ⟨Nat.le_of_lt inside.1, inside.2⟩

theorem ext_iff {a b : Span} : a = b ↔ a.start = b.start ∧ a.stop = b.stop := by
  cases a
  cases b
  simp

theorem overlaps_eq_false {a b : Span} :
    a.overlaps b = false ↔ b.stop ≤ a.start ∨ a.stop ≤ b.start := by
  simp only [overlaps, Bool.and_eq_false_iff, decide_eq_false_iff_not, Nat.not_lt]

theorem overlaps_comm (a b : Span) : a.overlaps b = b.overlaps a := by
  simp [overlaps, Bool.and_comm]

end Span

/-- Texts are ordered as lists of numbers are. -/
theorem Text.before_iff {s t : Text} : Text.before s t = true ↔ s < t := by
  induction s generalizing t with
  | nil => cases t <;> simp [Text.before]
  | cons a s ih =>
    cases t with
    | nil => simp [Text.before]
    | cons b t => simp [Text.before, List.cons_lt_cons_iff, Nat.blt_eq, ih]

theorem Text.slice_append_drop {t : Text} {a b : Nat} (ordered : a ≤ b) :
    t.slice a b ++ t.drop b = t.drop a := by
  have within : t.slice a b = (t.drop a).take (b - a) := List.drop_take
  rw [within, ← Nat.add_sub_cancel' ordered, ← List.drop_drop, Nat.add_sub_cancel_left,
    List.take_append_drop]

namespace Edit

/-- Two texts that differ in the parts that edits in order replace: `Rewrites offset old
edits new` has the old text begin at `offset`. The text between the edits stands on both
sides. -/
inductive Rewrites : Nat → Text → List Edit → Text → Prop where
  | same {offset : Nat} {kept : Text} : Rewrites offset kept [] kept
  | edit {offset : Nat} {kept old rest new : Text} {e : Edit} {edits : List Edit} :
      e.span = ⟨offset + kept.length, offset + kept.length + old.length⟩ →
      Rewrites (offset + kept.length + old.length) rest edits new →
      Rewrites offset (kept ++ old ++ rest) (e :: edits) (kept ++ e.text ++ new)

theorem insert_perm (e : Edit) (edits : List Edit) : (insert e edits).Perm (e :: edits) := by
  induction edits with
  | nil => exact .refl _
  | cons first rest ih =>
    unfold insert
    split
    · exact .refl _
    · exact (ih.cons first).trans (.swap e first rest)

theorem sort_perm (edits : List Edit) : (sort edits).Perm edits := by
  have folded (sorted : List Edit) :
      (edits.foldl (fun sorted e => insert e sorted) sorted).Perm (sorted ++ edits) := by
    induction edits generalizing sorted with
    | nil => simp
    | cons e rest ih =>
      refine (ih (insert e sorted)).trans ?_
      have moved := (insert_perm e sorted).append_right rest
      exact moved.trans List.perm_middle.symm
  exact folded []

/-- What edits are ordered by: the start, the stop, and the new text. -/
def key (e : Edit) : Nat ×ₗ Nat ×ₗ List Nat := toLex (e.span.start, toLex (e.span.stop, e.text))

theorem key_injective : Function.Injective key := by
  rintro ⟨⟨start, stop⟩, text⟩ ⟨⟨start', stop'⟩, text'⟩ same
  obtain ⟨rfl, same⟩ := Prod.mk.inj (toLex.injective same)
  obtain ⟨rfl, rfl⟩ := Prod.mk.inj (toLex.injective same)
  rfl

theorem before_iff {a b : Edit} : a.before b = true ↔ a.key < b.key := by
  simp only [before, Span.before, key, Prod.Lex.toLex_lt_toLex, Bool.or_eq_true, Bool.and_eq_true,
    decide_eq_true_eq, beq_iff_eq, Span.ext_iff, Text.before_iff]
  tauto

/-- In the order of edits. -/
def Sorted (edits : List Edit) : Prop := edits.Pairwise fun a b => a.key ≤ b.key

theorem insert_sorted {e : Edit} {edits : List Edit} (sorted : Sorted edits) :
    Sorted (insert e edits) := by
  induction edits with
  | nil => exact List.pairwise_singleton _ _
  | cons first rest ih =>
    obtain ⟨least, sorted⟩ := List.pairwise_cons.mp sorted
    unfold insert
    split
    · rename_i before
      have less := (before_iff.mp before).le
      refine List.pairwise_cons.mpr ⟨?_, List.pairwise_cons.mpr ⟨least, sorted⟩⟩
      intro other member
      rcases List.mem_cons.mp member with rfl | member
      · exact less
      · exact less.trans (least other member)
    · rename_i notBefore
      refine List.pairwise_cons.mpr ⟨?_, ih sorted⟩
      intro other member
      rcases List.mem_cons.mp ((insert_perm e rest).mem_iff.mp member) with rfl | member
      · exact not_lt.mp fun less => notBefore (before_iff.mpr less)
      · exact least other member

theorem sort_sorted (edits : List Edit) : Sorted (sort edits) := by
  have folded (sorted : List Edit) (h : Sorted sorted) :
      Sorted (edits.foldl (fun sorted e => insert e sorted) sorted) := by
    induction edits generalizing sorted with
    | nil => exact h
    | cons e rest ih => exact ih _ (insert_sorted h)
  exact folded [] .nil

/-- The order in which edits are given is lost when they are sorted. -/
theorem sort_eq_of_perm {edits others : List Edit} (perm : edits.Perm others) :
    sort edits = sort others := by
  have sorted : (sort edits).Perm (sort others) :=
    (sort_perm edits).trans (perm.trans (sort_perm others).symm)
  exact sorted.eq_of_pairwise (fun _ _ _ _ less more => key_injective (less.antisymm more))
    (sort_sorted edits) (sort_sorted others)

/-- Edits in order have their spans in order. -/
theorem span_le_of_key_le {a b : Edit} (ordered : a.key ≤ b.key) :
    a.span.start < b.span.start ∨ a.span.start = b.span.start ∧ a.span.stop ≤ b.span.stop := by
  simp only [key, Prod.Lex.toLex_le_toLex] at ordered
  omega

/-- Each edit ends where the next one starts, or before. -/
def Consecutive (edits : List Edit) : Prop := edits.Pairwise fun a b => a.span.stop ≤ b.span.start

/-- Of two spans in order that do not overlap, the first ends where the second starts, or
before. -/
theorem stop_le_start {a b : Edit} (ordered : a.key ≤ b.key)
    (within : b.span.start ≤ b.span.stop) :
    a.span.overlaps b.span = false ↔ a.span.stop ≤ b.span.start := by
  have spans := span_le_of_key_le ordered
  rw [Span.overlaps_eq_false]
  omega

theorem sort_consecutive {edits : List Edit} {length : Nat}
    (within : ∀ e ∈ edits, e.span.Within length) :
    edits.Pairwise (fun a b => a.span.overlaps b.span = false) ↔ Consecutive (sort edits) := by
  have symmetric : ∀ {a b : Edit}, a.span.overlaps b.span = false →
      b.span.overlaps a.span = false :=
    fun h => by rwa [Span.overlaps_comm]
  have perm := sort_perm edits
  have within (e : Edit) (member : e ∈ sort edits) := within e (perm.mem_iff.mp member)
  have pairs : (sort edits).Pairwise fun a b => (a.span.overlaps b.span = false ↔
      a.span.stop ≤ b.span.start) := by
    refine (sort_sorted edits).imp_of_mem fun _ member ordered => ?_
    exact stop_le_start ordered (within _ member).1
  refine (perm.pairwise_iff symmetric).symm.trans ⟨fun apart => ?_, fun consecutive => ?_⟩
  · exact (pairs.and apart).imp fun ⟨pair, apart⟩ => pair.mp apart
  · exact (pairs.and consecutive).imp fun ⟨pair, ends⟩ => pair.mpr ends

theorem splice_rewrites {source : Text} {position : Nat} {edits : List Edit}
    (within : ∀ e ∈ edits, e.span.Within source.length)
    (after : ∀ e ∈ edits, position ≤ e.span.start) (consecutive : Consecutive edits) :
    ∃ code, splice source position edits = .ok code ∧
      Rewrites position (source.drop position) edits code := by
  induction edits generalizing position with
  | nil => exact ⟨_, rfl, .same⟩
  | cons e rest ih =>
    obtain ⟨next, consecutive⟩ := List.pairwise_cons.mp consecutive
    obtain ⟨code, spliced, rewrites⟩ :=
      ih (fun other h => within other (List.mem_cons_of_mem _ h)) next consecutive
    have room := within e List.mem_cons_self
    have start := after e List.mem_cons_self
    have notEarly : ¬ e.span.start < position := by omega
    refine ⟨source.slice position e.span.start ++ e.text ++ code, ?_, ?_⟩
    · simp [splice, notEarly, spliced, bind, Except.bind, pure, Except.pure]
    have keptLength : (source.slice position e.span.start).length = e.span.start - position := by
      have := room.1
      have := room.2
      simp only [Text.slice, List.length_drop, List.length_take]
      omega
    have oldLength : (e.span.of source).length = e.span.stop - e.span.start := by
      have := room.2
      simp only [Span.of, Text.slice, List.length_drop, List.length_take]
      omega
    have divided : source.drop position =
        source.slice position e.span.start ++ e.span.of source ++ source.drop e.span.stop := by
      rw [Span.of, List.append_assoc, Text.slice_append_drop room.1,
        Text.slice_append_drop start]
    rw [divided]
    have atStart : position + (source.slice position e.span.start).length = e.span.start := by omega
    have atStop : e.span.start + (e.span.of source).length = e.span.stop := by
      have := room.1
      omega
    refine .edit ?_ ?_
    · rw [atStart, atStop]
    · rwa [atStart, atStop]

end Edit

end StyleSplit
