import StyleSplit.Proofs.Rewrite.Encodable
import StyleSplit.Proofs.Sheet.ClassNames
import StyleSplit.Proofs.Sheet.Writable

/-! Sheets without surrogates. The standard class names have none of their own, and the
built-in plugins bring none in; so a compiled sheet has one only if a selector, the name of a
property or a text among the static values of its rules has one. -/
namespace StyleSplit

open Script Text

/-- A value of which no text that could be written has a surrogate. -/
inductive Value.Encodable : Value → Prop where
  | scalar {value : Scalar} : (∀ t, value = .text t → t.Encodable) → Encodable (.scalar value)
  | list {items : List Value} : (∀ item ∈ items, item.Encodable) → Encodable (.list items)
  | record {entries : List (Text × Value)} : Encodable (.record entries)

/-- Properties without surrogates in their names and values. -/
def Properties.Encodable (properties : Properties) : Prop :=
  ∀ property ∈ properties, property.1.Encodable ∧ property.2.Encodable

/-- A sheet without surrogates in its text and in the selectors of its class map. -/
structure Sheet.Encodable (sheet : Sheet) : Prop where
  rawText : sheet.rawText.Encodable
  classes : ∀ selector ∈ sheet.classes.map Prod.fst, selector.Encodable

instance (sheet : Sheet) : Decidable sheet.Encodable :=
  decidable_of_iff (sheet.rawText.Encodable ∧
      ∀ selector ∈ sheet.classes.map Prod.fst, selector.Encodable)
    ⟨fun ⟨rawText, classes⟩ => ⟨rawText, classes⟩, fun ⟨rawText, classes⟩ => ⟨rawText, classes⟩⟩

namespace Value.Encodable

variable {value whole : Value} {t unit : Text}

theorem writeScalar (encodable : value.Encodable) (written : value.writeScalar = .ok t) :
    t.Encodable := by
  cases encodable with
  | @scalar s plain =>
    cases s with
    | text own =>
      cases written
      exact plain _ rfl
    | number n =>
      cases written
      exact n.encodable_written
    | bool | null => cases written
  | list | record => cases written

theorem writeItem (encodable : value.Encodable) (written : Value.writeItem whole value = .ok t) :
    t.Encodable := by
  have blank : Text.Encodable (text " ") := by decide
  cases encodable with
  | scalar plain => exact writeScalar (.scalar plain) written
  | @list items each =>
    cases items with
    | nil => cases written
    | cons item rest =>
      obtain ⟨texts, made, same⟩ := bind_eq_ok.mp written
      cases same
      refine (encodable_join blank).mpr fun t member => ?_
      obtain ⟨item, listed, written⟩ := mem_of_mapM made member
      exact (each item listed).writeScalar written
  | record => cases written

/-- Whatever is written for a value that has no surrogates has none. -/
theorem write (encodable : value.Encodable) (written : value.write = .ok t) : t.Encodable := by
  have comma : Text.Encodable (text ", ") := by decide
  cases encodable with
  | scalar plain => exact writeScalar (.scalar plain) written
  | @list items each =>
    cases items with
    | nil => cases written
    | cons item rest =>
      obtain ⟨texts, made, same⟩ := bind_eq_ok.mp written
      cases same
      refine (encodable_join comma).mpr fun t member => ?_
      obtain ⟨item, listed, written⟩ := mem_of_mapM made member
      exact (each item listed).writeItem written
  | record => cases written

theorem measured (encodable : value.Encodable) (plain : unit.Encodable) :
    (Plugin.measured unit value).Encodable := by
  induction encodable with
  | @scalar s own =>
    cases s with
    | number n =>
      refine .scalar fun t same => ?_
      cases same
      split
      · exact n.encodable_written
      · exact encodable_append.mpr ⟨n.encodable_written, plain⟩
    | text | bool | null => exact .scalar own
  | list each ih =>
    rw [Plugin.measured, Plugin.measuredItems_eq]
    refine .list fun item member => ?_
    obtain ⟨original, listed, rfl⟩ := List.mem_map.mp member
    exact ih original listed
  | record => exact .record

end Value.Encodable

theorem encodable_dashCapitals {t : Text} (encodable : t.Encodable) :
    (dashCapitals t).Encodable := by
  fun_induction dashCapitals t with
  | case1 => exact encodable
  | case2 c rest upper ih =>
    obtain ⟨-, rest⟩ := encodable_cons.mp encodable
    have letter : c ≤ 90 := by
      simp only [CodePoint.isUpper, Bool.and_eq_true, Nat.ble_eq] at upper
      exact upper.2
    have lower : c.toLower < 0xD800 := by
      rw [CodePoint.toLower, if_pos upper]
      exact Nat.lt_of_le_of_lt (Nat.add_le_add_right letter 32) (by decide)
    simp only [encodable_cons]
    exact ⟨rfl, CodePoint.isSurrogate_of_small lower, ih rest⟩
  | case3 c rest other ih =>
    obtain ⟨first, rest⟩ := encodable_cons.mp encodable
    exact encodable_cons.mpr ⟨first, ih rest⟩

theorem encodable_hyphenate {name : Text} (encodable : name.Encodable) :
    (hyphenate name).Encodable := by
  simp only [hyphenate]
  split
  · exact encodable_cons.mpr ⟨rfl, encodable_dashCapitals encodable⟩
  · exact encodable_dashCapitals encodable

namespace Plugin

variable {selector : Text} {properties : Properties} {context : CallContext}

theorem hyphenateNames_encodable (encodable : properties.Encodable) :
    Properties.Encodable (hyphenateNames.process selector properties context) := by
  intro property member
  obtain ⟨earlier, later, collected, -⟩ := mem_collectEntries_iff.mp member
  have listed := List.mem_append_right earlier (List.mem_cons_self (a := property) (l := later))
  rw [← collected] at listed
  obtain ⟨original, given, rfl⟩ := List.mem_map.mp listed
  obtain ⟨name, value⟩ := encodable original given
  exact ⟨encodable_hyphenate name, value⟩

theorem appendUnit_encodable {measuredNames : List Text} {unit : Text} (plain : unit.Encodable)
    (encodable : properties.Encodable) :
    Properties.Encodable ((appendUnit measuredNames unit).process selector properties context) := by
  intro property member
  obtain ⟨original, given, rfl⟩ := List.mem_map.mp member
  obtain ⟨name, value⟩ := encodable original given
  refine ⟨name, ?_⟩
  by_cases measures : measuredNames.contains original.1 = true
  · simpa only [if_pos measures] using value.measured plain
  · simpa only [if_neg measures] using value

/-- No chain of built-in plugins brings a surrogate in. -/
theorem applyAll_encodable {plugins : List Plugin}
    (standard : ∀ plugin ∈ plugins, plugin.IsBuiltin) (encodable : properties.Encodable) :
    Properties.Encodable (applyAll plugins selector properties context) := by
  unfold applyAll
  induction plugins generalizing properties with
  | nil => exact encodable
  | cons plugin rest ih =>
    apply ih (fun other member => standard other (List.mem_cons_of_mem _ member))
    obtain rfl | rfl := isBuiltin_cases (standard plugin List.mem_cons_self)
    · exact hyphenateNames_encodable encodable
    · exact appendUnit_encodable (by decide) encodable

end Plugin

/-- A written rule has no surrogates if its class name and its properties have none. -/
theorem encodable_writeRule {identifier block : Text} {properties : Properties}
    (name : identifier.Encodable) (encodable : properties.Encodable)
    (written : writeRule identifier properties = .ok block) : block.Encodable := by
  obtain ⟨declarations, made, same⟩ := bind_eq_ok.mp written
  cases same
  have newline : Encodable [CodePoint.newline] := by decide
  have dot : Encodable (text ".") := by decide
  have opening : Encodable (text " \x7b") := by decide
  have closing : Encodable (text "\x7d") := by decide
  have deeper : indentation.Encodable := by decide
  have lines : ∀ line ∈ declarations, Text.Encodable line := by
    intro line member
    obtain ⟨property, listed, written⟩ := mem_of_mapM made member
    obtain ⟨inner, writes, same⟩ := encodable_writeProperty written
    obtain ⟨own, value⟩ := encodable property listed
    exact same.mpr ⟨own, value.write writes⟩
  simpa [encodable_join newline, dot, opening, closing, deeper, name, or_imp, forall_and] using lines

namespace Naming

theorem encodable_of_isSafe {t : Text} (safe : ∀ c ∈ t, isSafe c = true) : t.Encodable := by
  refine encodable_of_small fun c member => ?_
  have safe := safe c member
  simp only [isSafe, CodePoint.isLetter, CodePoint.isUpper, CodePoint.isLower, CodePoint.isDigit,
    Bool.or_eq_true, Bool.and_eq_true, Nat.ble_eq, beq_iff_eq] at safe
  obtain (((⟨-, upper⟩ | ⟨-, lower⟩) | ⟨-, digit⟩) | rfl) | rfl := safe
  · exact Nat.lt_of_le_of_lt upper (by decide)
  · exact Nat.lt_of_le_of_lt lower (by decide)
  · exact Nat.lt_of_le_of_lt digit (by decide)
  · decide
  · decide

/-- A standard class name has no surrogates but those of the prefix. -/
theorem encodable_standardName {selector : Text} {context : CallContext}
    (plain : (context.classPrefix.getD []).Encodable) :
    (standardName selector context).Encodable := by
  obtain ⟨rest, safe, shape⟩ := stem_eq selector
  have stem : (stem selector).Encodable := by
    rw [shape]
    refine encodable_cons.mpr ⟨?_, encodable_of_isSafe safe⟩
    cases found : selector.find? isMark with
    | none => rfl
    | some c =>
      have mark : isMark c = true := List.find?_some found
      have single : Encodable [c] := encodable_of_isSafe fun d member => by
        rw [List.mem_singleton.mp member]
        exact (Bool.and_eq_true_iff.mp mark).1
      exact single c List.mem_cons_self
  have hyphen : Encodable (text "-") := by decide
  simp only [standardName, encodable_append]
  exact ⟨⟨⟨plain, stem⟩, hyphen⟩, encodable_ofNat _⟩

end Naming

namespace Compiler

variable {c : Compiler} {rules : Rules} {a a' : Allocator} {sheet : Sheet} {callIndex : Nat}

theorem Compiles.encodable_identifier {context : CallContext} {blocks : List Text}
    {classes : List (Text × Text)} {named : List NamedRule}
    (made : c.Compiles context rules blocks classes named sheet) (standard : c.Standard)
    (plain : (context.classPrefix.getD []).Encodable) :
    ∀ rule ∈ named, rule.identifier.Encodable := by
  intro rule member
  obtain ⟨n, name⟩ := made.made rule member
  rw [standard.naming] at name
  obtain ⟨answer, -⟩ := Allocator.name?_eq_some.mp name
  rw [← Answer.text.inj answer]
  exact @Naming.encodable_standardName rule.selector { context with sequence := n } plain

/-- The class names of a compiled sheet never have a surrogate. -/
theorem encodable_identifiers (standard : c.Standard) (plain : (c.classPrefix.getD []).Encodable)
    (compiled : c.compile rules callIndex a = (.ok sheet, a')) :
    ∀ entry ∈ sheet.classes, entry.2.Encodable := by
  intro entry member
  obtain ⟨named, made⟩ := compiles_of_compileRules compiled
  obtain ⟨rule, listed, rfl⟩ := made.named_of_mem member
  exact made.encodable_identifier standard plain rule listed

theorem mem_keys (compiled : c.compile rules callIndex a = (.ok sheet, a')) {selector : Text} :
    selector ∈ sheet.classes.map Prod.fst ↔ selector ∈ rules.map Prod.fst := by
  obtain ⟨named, made⟩ := compiles_of_compileRules compiled
  rw [made.keys, List.mem_eraseDups]

/-- Rules without surrogates are compiled to a sheet without surrogates. -/
theorem encodable_compile (standard : c.Standard) (plain : (c.classPrefix.getD []).Encodable)
    (encodable : ∀ rule ∈ rules, rule.1.Encodable ∧ Properties.Encodable rule.2)
    (compiled : c.compile rules callIndex a = (.ok sheet, a')) : sheet.Encodable := by
  have newline : Encodable [CodePoint.newline] := by decide
  refine ⟨?_, fun selector member => ?_⟩
  · obtain ⟨named, made⟩ := compiles_of_compileRules compiled
    obtain ⟨written, same, blocks⟩ := made.blocks
    rw [same, List.nil_append, joinRules, encodable_join newline]
    intro block member
    obtain ⟨rule, listed, writes⟩ := mem_of_forall₂ blocks member
    have listed := List.mem_of_mem_filter listed
    have properties : rule.properties.Encodable :=
      (encodable (rule.selector, rule.properties) (made.rules ▸ List.mem_map_of_mem listed)).2
    exact encodable_writeRule (made.encodable_identifier standard plain rule listed)
      (Plugin.applyAll_encodable standard.plugins properties) writes
  · obtain ⟨rule, listed, rfl⟩ := List.mem_map.mp ((mem_keys compiled).mp member)
    exact (encodable rule listed).1

end Compiler

end StyleSplit
