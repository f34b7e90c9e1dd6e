import Mathlib.Data.List.Nodup
import StyleSplit.Proofs.Sheet.Allocating
import StyleSplit.Proofs.Text.Digits

/-! Why the standard class names never clash. A standard name ends in the number of its
allocation, and a number has no hyphen in it, so that the number can be read off the name
whatever the prefix and the selector are. No number comes twice in a run, whether the call
site that asked for it is rewritten in the end or not. -/
namespace StyleSplit

namespace Naming

/-- What stands behind the last hyphen of a standard name is the number of its allocation. -/
theorem standardName_tail (selector : Text) (context : CallContext) :
    (standardName selector context).reverse.takeWhile (· != CodePoint.hyphen) =
      (Text.ofNat context.sequence).reverse := by
  have digits : ∀ c ∈ (Text.ofNat context.sequence).reverse, (c != CodePoint.hyphen) = true := by
    intro c member
    have listed := List.mem_reverse.mp member
    exact bne_iff_ne.mpr fun same => Text.hyphen_notMem_ofNat _ (same ▸ listed)
  have hyphen : text "-" = [CodePoint.hyphen] := rfl
  rw [standardName, List.reverse_append, List.takeWhile_append_of_pos digits, hyphen,
    List.reverse_append]
  simp

theorem standardName_sequence {selector selector' : Text} {context context' : CallContext}
    (same : standardName selector context = standardName selector' context') :
    context.sequence = context'.sequence := by
  have tails := standardName_tail selector context
  rw [same, standardName_tail] at tails
  exact (Text.ofNat_injective (List.reverse_injective tails)).symm

theorem standardName_ne_nil (selector : Text) (context : CallContext) :
    standardName selector context ≠ [] := by
  simp [standardName, text]

end Naming

namespace Allocator

variable {a : Allocator}

/-- An allocator that was only ever asked for standard names: every name it gave out has
the number of an earlier allocation, and no name was given out twice. -/
structure Numbered (a : Allocator) : Prop where
  names : ∀ entry ∈ a.issued, ∃ selector context,
    context.sequence ≤ a.sequence ∧ entry.2 = Naming.standardName selector context
  distinct : (a.issued.map Prod.snd).Nodup

theorem Numbered.start : Allocator.start.Numbered where
  names := by simp [Allocator.start]
  distinct := List.nodup_nil

/-- A standard name with a number that is still to come was not given out. -/
theorem Numbered.unissued (numbered : a.Numbered) {selector : Text} {context : CallContext}
    (later : a.sequence < context.sequence) :
    Naming.standardName selector context ∉ a.issued.map Prod.snd := by
  intro member
  obtain ⟨entry, listed, name⟩ := List.mem_map.mp member
  obtain ⟨selector', context', earlier, name'⟩ := numbered.names entry listed
  have same := Naming.standardName_sequence (name.symm.trans name')
  omega

/-- Asking for a standard name never fails. -/
theorem Numbered.allocate (numbered : a.Numbered) (selector : Text) (context : CallContext) :
    ∃ identifier next, a.allocate Naming.standard selector context = (.ok identifier, next) ∧
      next.Numbered := by
  let place : CallContext := { context with sequence := a.sequence + 1 }
  let name := Naming.standardName selector place
  have fresh : name ∉ a.issued.map Prod.snd := numbered.unissued (Nat.lt_succ_self a.sequence)
  have free : name ∉ a.issuedTo context.callIndex := fun listed =>
    fresh (List.mem_map_of_mem (mem_issuedTo.mp listed))
  have usable : name? (Naming.standard selector place) = some name :=
    name?_eq_some.mpr ⟨rfl, Naming.standardName_ne_nil selector place⟩
  refine ⟨name, ⟨a.sequence + 1, a.issued ++ [(context.callIndex, name)]⟩, ?_, ?_, ?_⟩
  · rw [allocate_constant rfl, allocate_eq, usable]
    exact if_neg free
  · intro entry member
    rcases List.mem_append.mp member with earlier | here
    · obtain ⟨selector', context', bound, same⟩ := numbered.names entry earlier
      exact ⟨selector', context', Nat.le_succ_of_le bound, same⟩
    · rw [List.mem_singleton] at here
      exact ⟨selector, place, Nat.le_refl _, congrArg Prod.snd here⟩
  · rw [List.map_append, List.nodup_append]
    refine ⟨numbered.distinct, by simp, ?_⟩
    intro earlier known later here
    have same : later = name := by simpa using here
    exact fun equal => fresh (same ▸ equal ▸ known)

end Allocator

end StyleSplit
