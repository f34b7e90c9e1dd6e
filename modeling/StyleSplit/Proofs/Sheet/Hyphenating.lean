import StyleSplit.Proofs.Sheet.Collecting
import StyleSplit.Sheet.Plugin

/-! Hyphenated names that fall together. Properties under new names are collected again, and of
two that get the same name the later one takes the place of the earlier one. So all of them
stay, in order and with their values, exactly when no two names have the same hyphenated form;
otherwise declarations are lost, and what is left of them stands further in front. -/
namespace StyleSplit

namespace Plugin

/-- The properties under their hyphenated names, one by one. -/
def renamed (properties : Properties) : Properties :=
  properties.map fun property => (hyphenate property.1, property.2)

/-- Hyphenating keeps every property in its place with its value exactly when no two hyphenated
names are the same. In any case each hyphenated name stands once, where it first comes, with
the value that is given for it last. -/
theorem hyphenateNames_keeps_iff (selector : Text) (properties : Properties)
    (context : CallContext) :
    let processed := hyphenateNames.process selector properties context
    (processed = renamed properties ↔ (properties.map fun property => hyphenate property.1).Nodup) ∧
      processed.map Prod.fst = (properties.map fun property => hyphenate property.1).eraseDups ∧
      ∀ name value, (name, value) ∈ processed ↔ ∃ earlier original later,
        properties = earlier ++ (original, value) :: later ∧ hyphenate original = name ∧
          ∀ property ∈ later, hyphenate property.1 ≠ name := by
  intro processed
  have names : (renamed properties).map Prod.fst =
      properties.map fun property => hyphenate property.1 := by
    simp [renamed]
  refine ⟨?_, ?_, fun name value => ?_⟩
  · rw [← names]
    exact collectEntries_eq_self_iff
  · rw [← names]
    exact collectEntries_keys
  · refine mem_collectEntries_iff.trans ⟨?_, ?_⟩
    · rintro ⟨earlier, later, split, last⟩
      obtain ⟨front, rest, rfl, rfl, cut⟩ := List.map_eq_append_iff.mp split
      obtain ⟨⟨original, _⟩, back, rfl, same, rfl⟩ := List.map_eq_cons_iff.mp cut
      obtain ⟨rfl, rfl⟩ := Prod.mk.inj same
      refine ⟨front, original, back, rfl, rfl, fun property member equal => last ?_⟩
      rw [List.map_map]
      exact List.mem_map.mpr ⟨property, member, equal⟩
    · rintro ⟨earlier, original, later, rfl, rfl, last⟩
      refine ⟨renamed earlier, renamed later, by simp [renamed], fun member => ?_⟩
      rw [renamed, List.map_map] at member
      obtain ⟨property, listed, equal⟩ := List.mem_map.mp member
      exact last property listed equal

/-- A shorthand property between two declarations that have one hyphenated name. -/
def twiceDeclared : Properties :=
  [(text "margin-left", .scalar (.text (text "1px"))), (text "margin", .scalar (.text (text "0"))),
   (text "marginLeft", .scalar (.text (text "2px")))]

theorem hyphenateNames_merges :
    (twiceDeclared.map Prod.fst).Nodup ∧
      hyphenateNames.process (text "a") twiceDeclared ⟨0, 0, [], none⟩ =
        [(text "margin-left", .scalar (.text (text "2px"))),
         (text "margin", .scalar (.text (text "0")))] ∧
      hyphenateNames.process (text "a") twiceDeclared ⟨0, 0, [], none⟩ ≠ renamed twiceDeclared := by
  refine ⟨by decide, rfl, fun same => ?_⟩
  have lengths := congrArg List.length same
  exact absurd lengths (by decide)

end Plugin

end StyleSplit
