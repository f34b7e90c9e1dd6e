import StyleSplit.Proofs.Script.Extents
import StyleSplit.Proofs.Sheet.Issuing
import StyleSplit.Proofs.Sheet.Partition

/-! Why the standard tools always compile what a description calls static. A static value
has a text; the built-in plugins give properties new names, of which the last value
counts, or put a unit behind numbers, and neither takes the text from a value. The names
come from the standard naming function, which never fails either. -/
namespace StyleSplit

open Script

theorem mapM_ok_iff {ε α β : Type} {f : α → Except ε β} {xs : List α} :
    (∃ ys, xs.mapM f = .ok ys) ↔ ∀ x ∈ xs, ∃ y, f x = .ok y := by
  induction xs with
  | nil => simp [pure, Except.pure]
  | cons x rest ih =>
    simp only [List.mapM_cons, bind_eq_ok, List.forall_mem_cons, ← ih]
    constructor
    · rintro ⟨_, y, first, ys, others, -⟩
      exact ⟨⟨y, first⟩, ys, others⟩
    · rintro ⟨⟨y, first⟩, ys, others⟩
      exact ⟨y :: ys, y, first, ys, others, rfl⟩

theorem mem_of_mapM {ε α β : Type} {f : α → Except ε β} {xs : List α} {ys : List β}
    (made : xs.mapM f = .ok ys) {y : β} (member : y ∈ ys) : ∃ x ∈ xs, f x = .ok y := by
  induction xs generalizing ys with
  | nil =>
    cases made
    cases member
  | cons x rest ih =>
    rw [List.mapM_cons] at made
    obtain ⟨first, here, made⟩ := bind_eq_ok.mp made
    obtain ⟨others, behind, same⟩ := bind_eq_ok.mp made
    cases same
    rcases List.mem_cons.mp member with rfl | later
    · exact ⟨x, List.mem_cons_self, here⟩
    · obtain ⟨z, listed, there⟩ := ih behind later
      exact ⟨z, List.mem_cons_of_mem _ listed, there⟩

def Value.Writable (value : Value) : Prop := ∃ written, value.write = .ok written

namespace Plugin

variable {unit : Text}

theorem measuredItems_eq (items : List Value) :
    measuredItems unit items = items.map (measured unit) := by
  induction items with
  | nil => rfl
  | cons item rest ih => rw [measuredItems, ih, List.map_cons]

theorem writeScalar_measured {value : Value} (writes : ∃ written, value.writeScalar = .ok written) :
    ∃ written, (measured unit value).writeScalar = .ok written := by
  obtain ⟨written, writes⟩ := writes
  cases value with
  | scalar s =>
    cases s with
    | text | number => exact ⟨_, rfl⟩
    | bool | null => cases writes
  | list | record => cases writes

/-- A list whose items have texts under `f` still has items with texts after measuring. -/
theorem mapM_measured {f g : Value → Except Unwritable Text} {items : List Value}
    (each : ∀ item, (∃ written, f item = .ok written) →
      ∃ written, g (measured unit item) = .ok written)
    (writes : ∃ texts, items.mapM f = .ok texts) :
    ∃ texts, (measuredItems unit items).mapM g = .ok texts := by
  rw [mapM_ok_iff] at writes ⊢
  rw [measuredItems_eq]
  intro item member
  obtain ⟨original, listed, rfl⟩ := List.mem_map.mp member
  exact each original (writes original listed)

theorem writeItem_measured {whole whole' value : Value}
    (writes : ∃ written, Value.writeItem whole value = .ok written) :
    ∃ written, Value.writeItem whole' (measured unit value) = .ok written := by
  cases value with
  | scalar s =>
    have plain : ∃ written, (measured unit (.scalar s)).writeScalar = .ok written :=
      writeScalar_measured writes
    obtain ⟨written, plain⟩ := plain
    cases s <;> exact ⟨written, plain⟩
  | list items =>
    cases items with
    | nil =>
      obtain ⟨_, writes⟩ := writes
      cases writes
    | cons item rest =>
      obtain ⟨_, writes⟩ := writes
      obtain ⟨texts, parts, -⟩ := bind_eq_ok.mp writes
      obtain ⟨texts', parts'⟩ := mapM_measured (fun _ => writeScalar_measured) ⟨texts, parts⟩
      exact ⟨_, bind_eq_ok.mpr ⟨texts', parts', rfl⟩⟩
  | record entries =>
    obtain ⟨_, writes⟩ := writes
    cases writes

/-- A unit behind its numbers takes the text from no value. -/
theorem writable_measured {value : Value} (writable : value.Writable) :
    (measured unit value).Writable := by
  cases value with
  | scalar s =>
    have plain : ∃ written, (measured unit (.scalar s)).writeScalar = .ok written :=
      writeScalar_measured writable
    obtain ⟨written, plain⟩ := plain
    cases s <;> exact ⟨written, plain⟩
  | list items =>
    cases items with
    | nil =>
      obtain ⟨_, writes⟩ := writable
      cases writes
    | cons item rest =>
      obtain ⟨_, writes⟩ := writable
      obtain ⟨texts, parts, -⟩ := bind_eq_ok.mp writes
      obtain ⟨texts', parts'⟩ := mapM_measured (fun _ => writeItem_measured) ⟨texts, parts⟩
      exact ⟨_, bind_eq_ok.mpr ⟨texts', parts', rfl⟩⟩
  | record entries =>
    obtain ⟨_, writes⟩ := writable
    cases writes

end Plugin

/-- Properties of which every value has a text. -/
def Properties.Writable (properties : Properties) : Prop :=
  ∀ property ∈ properties, property.2.Writable

namespace Plugin

variable {selector : Text} {properties : Properties} {context : CallContext}

theorem hyphenateNames_writable (writable : properties.Writable) :
    Properties.Writable (hyphenateNames.process selector properties context) := by
  intro property member
  obtain ⟨earlier, later, collected, -⟩ := mem_collectEntries_iff.mp member
  have listed := List.mem_append_right earlier (List.mem_cons_self (a := property) (l := later))
  rw [← collected] at listed
  obtain ⟨original, given, rfl⟩ := List.mem_map.mp listed
  exact writable original given

theorem appendUnit_writable {measuredNames : List Text} {unit : Text}
    (writable : properties.Writable) :
    Properties.Writable ((appendUnit measuredNames unit).process selector properties context) := by
  intro property member
  obtain ⟨original, given, rfl⟩ := List.mem_map.mp member
  have kept := writable original given
  by_cases measures : measuredNames.contains original.1 = true
  · simpa only [if_pos measures] using writable_measured kept
  · simpa only [if_neg measures] using kept

/-- A plugin that can be asked for by name, with its default settings. -/
def IsBuiltin (plugin : Plugin) : Prop := ∃ name, builtin? name = some plugin

theorem isBuiltin_cases {plugin : Plugin} (standard : plugin.IsBuiltin) :
    plugin = hyphenateNames ∨ plugin = defaultUnit := by
  obtain ⟨name, known⟩ := standard
  unfold builtin? at known
  split at known
  · exact .inl (Option.some.inj known).symm
  · split at known
    · exact .inr (Option.some.inj known).symm
    · cases known

/-- No chain of built-in plugins takes the text from a value. -/
theorem applyAll_writable {plugins : List Plugin} (standard : ∀ plugin ∈ plugins, plugin.IsBuiltin)
    (writable : properties.Writable) :
    Properties.Writable (applyAll plugins selector properties context) := by
  unfold applyAll
  induction plugins generalizing properties with
  | nil => exact writable
  | cons plugin rest ih =>
    apply ih (fun other member => standard other (List.mem_cons_of_mem _ member))
    obtain rfl | rfl := isBuiltin_cases (standard plugin List.mem_cons_self)
    · exact hyphenateNames_writable writable
    · exact appendUnit_writable writable

end Plugin

theorem writeRule_ok (identifier : Text) {properties : Properties}
    (writable : properties.Writable) :
    ∃ block, writeRule identifier properties = .ok block := by
  have each : ∀ property ∈ properties, ∃ line, writeProperty property.1 property.2 = .ok line := by
    intro property member
    obtain ⟨written, writes⟩ := writable property member
    exact ⟨_, bind_eq_ok.mpr ⟨written, writes, rfl⟩⟩
  obtain ⟨lines, written⟩ := mapM_ok_iff.mpr each
  exact ⟨_, bind_eq_ok.mpr ⟨lines, written, rfl⟩⟩

namespace Compiler

/-- The standard naming function with built-in plugins, any of them any number of times,
and whatever prefix. -/
structure Standard (c : Compiler) : Prop where
  naming : c.naming = Naming.standard
  plugins : ∀ plugin ∈ c.plugins, plugin.IsBuiltin

variable {c : Compiler} {a : Allocator}

/-- Rules of which every value has a text are always compiled, and the names given out
stay distinct. -/
theorem Standard.compileRules (standard : c.Standard) (context : CallContext) {rules : Rules}
    (writable : ∀ rule ∈ rules, Properties.Writable rule.2) (numbered : a.Numbered)
    (blocks : List Text) (classes : List (Text × Text)) :
    ∃ sheet next, c.compileRules context rules blocks classes a = (.ok sheet, next) ∧
      next.Numbered := by
  induction rules generalizing blocks classes a with
  | nil => exact ⟨_, a, rfl, numbered⟩
  | cons rule rest ih =>
    obtain ⟨selector, properties⟩ := rule
    have others : ∀ rule ∈ rest, Properties.Writable rule.2 :=
      fun rule member => writable rule (List.mem_cons_of_mem _ member)
    obtain ⟨identifier, next, allocated, numbered⟩ := numbered.allocate selector context
    have processed : Properties.Writable (Plugin.applyAll c.plugins selector properties context) :=
      Plugin.applyAll_writable standard.plugins (writable _ List.mem_cons_self)
    obtain ⟨block, written⟩ := writeRule_ok identifier processed
    simp only [Compiler.compileRules, standard.naming, allocated, written]
    split
    · exact ih others numbered blocks _
    · exact ih others numbered _ _

end Compiler

/-- What a split takes for static has a text. -/
theorem Splits.writable {t : ScopeTable} {entries dynamic : List Entry} {static : Properties}
    (splits : Splits t entries static dynamic) : static.Writable := by
  induction splits with
  | nil => exact fun _ member => absurd member List.not_mem_nil
  | static known evaluated writes others ih =>
    intro property member
    rcases List.mem_cons.mp member with rfl | member
    · exact ⟨_, writes⟩
    · exact ih property member
  | dynamic plain kept others ih => exact ih

/-- All values in the static rules of a classified description have a text. -/
theorem Description.staticRules_writable {t : ScopeTable} {span : Span} {entries : List Entry}
    {d : Description} (classified : t.classify span entries = .ok d) :
    ∀ rule ∈ d.staticRules, Properties.Writable rule.2 := by
  intro rule member
  obtain ⟨_, -, -, _, _, _, -, splits⟩ := mem_staticRules classified member
  exact splits.writable

end StyleSplit
