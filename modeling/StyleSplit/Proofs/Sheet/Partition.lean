import Mathlib.Data.List.Forall2
import Mathlib.Data.List.Nodup
import Mathlib.Data.List.Pairwise
import StyleSplit.Proofs.Sheet.Collecting
import StyleSplit.Rewrite.Rewriter

/-! How a style description comes apart. Every selector of a classified description is
compiled, kept as written, or split between the two; the class map names exactly those
with a compiled part, and the properties of a split selector are an ordered interleaving
of compiled values and kept entries. The names of a description are distinct, which is
what keeps a selector that stays out of the class map. -/
namespace StyleSplit

open Script

/-- An ordered split of property entries: an entry with a known name and a value that has
a text gives that pair, and every other entry stays. -/
inductive Splits (t : ScopeTable) : List Entry → Properties → List Entry → Prop where
  | nil : Splits t [] [] []
  | static {entry : Entry} {name written : Text} {value : Value} {rest : List Entry}
      {static : Properties} {dynamic : List Entry} :
      t.keyName entry = some name → t.evaluate entry.value = some value →
      value.write = .ok written → Splits t rest static dynamic →
      Splits t (entry :: rest) ((name, value) :: static) dynamic
  | dynamic {entry : Entry} {rest : List Entry} {static : Properties} {dynamic : List Entry} :
      entry.isSpread = false →
      (∀ name value written, t.keyName entry = some name → t.evaluate entry.value = some value →
        value.write ≠ .ok written) →
      Splits t rest static dynamic → Splits t (entry :: rest) static (entry :: dynamic)

theorem Splits.dynamic_subset {t : ScopeTable} {entries dynamic : List Entry} {static : Properties}
    (splits : Splits t entries static dynamic) : dynamic ⊆ entries := by
  induction splits with
  | nil => exact List.nil_subset _
  | static _ _ _ _ ih => exact List.subset_cons_of_subset _ ih
  | dynamic _ _ _ ih => exact List.cons_subset_cons _ ih

/-- What becomes of a selector when its description is rewritten: its verdict, and the
entries that are kept of it. -/
inductive Selector.Fate (s : Script) (indent : Text) (classes : List (Text × Text))
    (selector : Selector) : Verdict → List Text → Prop where
  | static {name : Text} : selector.name = some name → name ∈ classes.map Prod.fst →
      selector.verbatim = false → selector.dynamic = [] →
      selector.Fate s indent classes .static []
  | dynamic : (selector.verbatim = true ∨ selector.static = [] ∧ selector.dynamic ≠ []) →
      (∀ name, selector.name = some name → name ∉ classes.map Prod.fst) →
      selector.Fate s indent classes .dynamic [s.textAt selector.entry.span]
  | mixed {name : Text} : selector.name = some name → name ∈ classes.map Prod.fst →
      selector.verbatim = false → selector.static ≠ [] → selector.dynamic ≠ [] →
      selector.Fate s indent classes .mixed
        [selector.keyText s ++ text ": " ++
          layoutMapping (selector.dynamic.map fun e => s.textAt e.span) (indent ++ indentation)]

namespace ScopeTable

variable {t : ScopeTable}

theorem staticValue?_eq_some {e : Expr} {value : Value} (h : t.staticValue? e = some value) :
    t.evaluate e = some value ∧ ∃ written, value.write = .ok written := by
  unfold staticValue? at h
  split at h
  · contradiction
  · rename_i known evaluated
    split at h
    · rename_i written writes
      cases h
      exact ⟨evaluated, written, writes⟩
    · contradiction

theorem staticValue?_eq_none {e : Expr} {value : Value} {written : Text}
    (h : t.staticValue? e = none) (evaluated : t.evaluate e = some value) :
    value.write ≠ .ok written := by
  intro writes
  simp [staticValue?, evaluated, writes] at h

/-- Splitting the properties of a selector loses no entry and writes none twice. The names
known so far cannot come again. -/
theorem splitProperties_spec {entries : List Entry} {seen : List Text} {static : Properties}
    {dynamic : List Entry} (h : t.splitProperties entries seen = some (static, dynamic)) :
    Splits t entries static dynamic ∧ (static.map Prod.fst).Nodup ∧
      ∀ name ∈ static.map Prod.fst, name ∉ seen := by
  induction entries generalizing seen static dynamic with
  | nil =>
    simp only [splitProperties, Option.some.injEq, Prod.mk.injEq] at h
    obtain ⟨rfl, rfl⟩ := h
    exact ⟨.nil, List.nodup_nil, by simp⟩
  | cons entry rest ih =>
    unfold splitProperties at h
    split at h
    · contradiction
    rename_i spread
    have notSpread : entry.isSpread = false := by simpa using spread
    split at h
    · rename_i unknown
      simp only [Option.bind_eq_bind, Option.bind_eq_some_iff, Option.pure_def,
        Option.some.injEq, Prod.mk.injEq] at h
      obtain ⟨⟨static', dynamic'⟩, split, rfl, rfl⟩ := h
      obtain ⟨splits, distinct, fresh⟩ := ih split
      exact ⟨.dynamic notSpread (by simp [unknown]) splits, distinct, fresh⟩
    rename_i name known
    split at h
    · contradiction
    rename_i unseen
    simp only [Option.bind_eq_bind, Option.bind_eq_some_iff] at h
    obtain ⟨⟨static', dynamic'⟩, split, h⟩ := h
    obtain ⟨splits, distinct, fresh⟩ := ih split
    split at h
    · rename_i value evaluates
      simp only [Option.pure_def, Option.some.injEq, Prod.mk.injEq] at h
      obtain ⟨rfl, rfl⟩ := h
      obtain ⟨evaluated, written, writes⟩ := staticValue?_eq_some evaluates
      refine ⟨.static known evaluated writes splits, ?_, ?_⟩
      · simp only [List.map_cons, List.nodup_cons]
        exact ⟨fun member => fresh name member List.mem_cons_self, distinct⟩
      · intro other member
        rcases List.mem_cons.mp member with rfl | member
        · simpa using unseen
        · exact fun earlier => fresh other member (List.mem_cons_of_mem _ earlier)
    · rename_i unwritten
      simp only [Option.pure_def, Option.some.injEq, Prod.mk.injEq] at h
      obtain ⟨rfl, rfl⟩ := h
      refine ⟨.dynamic notSpread ?_ splits, distinct, ?_⟩
      · intro _ _ _ _ evaluated
        exact staticValue?_eq_none unwritten evaluated
      · exact fun other member earlier => fresh other member (List.mem_cons_of_mem _ earlier)

theorem classifySelector_entry (name : Option Text) (entry : Entry) :
    (t.classifySelector name entry).entry = entry := by
  unfold classifySelector
  repeat' split
  all_goals rfl

theorem classifySelector_name (name : Option Text) (entry : Entry) :
    (t.classifySelector name entry).name = name := by
  unfold classifySelector
  repeat' split
  all_goals rfl

theorem isSpread_of_keyName {entry : Entry} {name : Text} (known : t.keyName entry = some name) :
    entry.isSpread = false := by
  cases spread : entry.isSpread with
  | false => rfl
  | true =>
    have none : entry.key = none := Option.isNone_iff_eq_none.mp spread
    simp [keyName, none] at known

/-- A selector that is split has a name and refers to an object literal; one that is not
keeps nothing but its entry. -/
theorem classifySelector_spec (name : Option Text) (entry : Entry) :
    let selector := t.classifySelector name entry
    (selector.verbatim = true ∧ selector.static = [] ∧ selector.dynamic = []) ∨
      (selector.verbatim = false ∧ (∃ known, name = some known) ∧
        ∃ span entries, t.resolve entry.value = .resolved (.mapping span entries) ∧
          Splits t entries selector.static selector.dynamic ∧
          (selector.static.map Prod.fst).Nodup) := by
  unfold classifySelector
  split
  · exact .inl ⟨rfl, rfl, rfl⟩
  rename_i known
  split
  · rename_i span entries resolved
    split
    · rename_i static dynamic split
      obtain ⟨splits, distinct, _⟩ := splitProperties_spec split
      exact .inr ⟨rfl, ⟨known, rfl⟩, span, entries, resolved, splits, distinct⟩
    · exact .inl ⟨rfl, rfl, rfl⟩
  · exact .inl ⟨rfl, rfl, rfl⟩

/-- Every entry gives one selector, in order, and no name comes twice. -/
theorem classifyEntries_spec {entries : List Entry} {seen : List Text}
    {selectors : List Selector} (h : t.classifyEntries entries seen = .ok selectors) :
    selectors = entries.map (fun entry => t.classifySelector (t.keyName entry) entry) ∧
      (selectors.filterMap Selector.name).Nodup ∧
      ∀ name ∈ selectors.filterMap Selector.name, name ∉ seen := by
  induction entries generalizing seen selectors with
  | nil =>
    cases h
    simp
  | cons entry rest ih =>
    unfold classifyEntries at h
    split at h
    · contradiction
    simp only at h
    split at h
    · contradiction
    split at h
    · rename_i unknown
      cases tail : t.classifyEntries rest seen with
      | error error => simp [tail, bind, Except.bind] at h
      | ok others =>
        simp only [tail, bind, Except.bind, pure, Except.pure, Except.ok.injEq] at h
        obtain ⟨same, distinct, fresh⟩ := ih tail
        subst h
        refine ⟨by rw [List.map_cons, unknown, same], ?_, ?_⟩
        · rwa [List.filterMap_cons_none (classifySelector_name ..)]
        · rwa [List.filterMap_cons_none (classifySelector_name ..)]
    · rename_i known named
      split at h
      · contradiction
      rename_i unseen
      cases tail : t.classifyEntries rest (known :: seen) with
      | error error => simp [tail, bind, Except.bind] at h
      | ok others =>
        simp only [tail, bind, Except.bind, pure, Except.pure, Except.ok.injEq] at h
        obtain ⟨same, distinct, fresh⟩ := ih tail
        subst h
        have head : (t.classifySelector (t.keyName entry) entry).name = some known :=
          (classifySelector_name ..).trans named
        rw [List.filterMap_cons_some head]
        refine ⟨by rw [List.map_cons, same], ?_, ?_⟩
        · exact List.nodup_cons.mpr ⟨fun member => fresh known member List.mem_cons_self, distinct⟩
        · intro name member
          rcases List.mem_cons.mp member with rfl | member
          · simpa using unseen
          · exact fun earlier => fresh name member (List.mem_cons_of_mem _ earlier)

end ScopeTable

namespace Compiler

/-- The class map lists the selectors of the rules in their order. -/
theorem compileRules_keys {c : Compiler} {context : CallContext} {rules : Rules}
    {blocks : List Text} {classes : List (Text × Text)} {a a' : Allocator} {sheet : Sheet}
    (h : c.compileRules context rules blocks classes a = (.ok sheet, a'))
    (distinct : (classes.map Prod.fst ++ rules.map Prod.fst).Nodup) :
    sheet.classes.map Prod.fst = classes.map Prod.fst ++ rules.map Prod.fst := by
  induction rules generalizing blocks classes a with
  | nil =>
    simp only [compileRules, Prod.mk.injEq, Except.ok.injEq] at h
    simp [← h.1]
  | cons rule rest ih =>
    obtain ⟨selector, properties⟩ := rule
    have fresh : selector ∉ classes.map Prod.fst := by
      intro member
      exact (List.nodup_append.mp distinct).2.2 _ member _ (by simp) rfl
    have extended (identifier : Text) :
        (insertEntry selector identifier classes).map Prod.fst =
          classes.map Prod.fst ++ [selector] := by
      simp [insertEntry_fresh fresh]
    have regrouped : classes.map Prod.fst ++ (selector :: rest.map Prod.fst) =
        (classes.map Prod.fst ++ [selector]) ++ rest.map Prod.fst := by simp
    simp only [List.map_cons, regrouped] at distinct ⊢
    unfold compileRules at h
    simp only at h
    split at h
    · simp at h
    rename_i identifier next _
    rw [← extended identifier] at distinct ⊢
    split at h
    · exact ih h distinct
    split at h
    · simp at h
    · exact ih h distinct

end Compiler

namespace Description

/-- The names of the static and mixed selectors, in order. -/
def compiledNames (d : Description) : List Text :=
  (d.selectors.filter Selector.hasStaticContent).filterMap Selector.name

theorem staticRules_keys (d : Description) : d.staticRules.map Prod.fst = d.compiledNames := by
  unfold staticRules compiledNames
  induction d.selectors with
  | nil => rfl
  | cons selector rest ih =>
    cases named : selector.name <;> cases content : selector.hasStaticContent <;>
      simp [Selector.rule?, named, content, ih]

theorem compiledNames_sublist (d : Description) :
    d.compiledNames.Sublist (d.selectors.filterMap Selector.name) :=
  List.filter_sublist.filterMap _

end Description

namespace Selector

variable {s : Script} {indent : Text} {classes : List (Text × Text)} {selector : Selector}

theorem static_of_verdict (dynamic : selector.verdict = .dynamic) : selector.static = [] := by
  unfold verdict at dynamic
  split at dynamic
  · cases dynamic
  split at dynamic
  · rename_i empty
    exact List.isEmpty_iff.mp empty
  · cases dynamic

theorem verdict_mixed (mixed : selector.verdict = .mixed) : selector.static ≠ [] := by
  rintro empty
  simp only [verdict, empty, List.isEmpty_nil, if_true] at mixed
  split at mixed <;> cases mixed

theorem rule?_eq_some {rule : Text × Properties} (contributes : selector.rule? = some rule) :
    selector.name = some rule.1 ∧ selector.static = rule.2 ∧ selector.hasStaticContent = true := by
  unfold rule? at contributes
  split at contributes
  · rename_i name named
    split at contributes
    · rename_i content
      cases contributes
      exact ⟨named, rfl, content⟩
    · cases contributes
  · cases contributes

/-- The three cases exclude each other. -/
theorem Fate.unique {v v' : Verdict} {kept kept' : List Text}
    (first : selector.Fate s indent classes v kept)
    (second : selector.Fate s indent classes v' kept') : v = v' ∧ kept = kept' := by
  cases first <;> cases second <;> simp_all

end Selector

namespace Description

variable {t : ScopeTable} {span : Span} {entries : List Entry} {d : Description}

theorem classify_selectors (h : t.classify span entries = .ok d) :
    d.selectors = entries.map (fun entry => t.classifySelector (t.keyName entry) entry) ∧
      (d.selectors.filterMap Selector.name).Nodup := by
  unfold ScopeTable.classify at h
  cases classified : t.classifyEntries entries [] with
  | error error => simp [classified, bind, Except.bind] at h
  | ok selectors =>
    simp only [classified, bind, Except.bind, pure, Except.pure, Except.ok.injEq] at h
    subst h
    obtain ⟨same, distinct, _⟩ := ScopeTable.classifyEntries_spec classified
    exact ⟨same, distinct⟩

/-- A static rule comes from an entry that refers to an object literal and is split. -/
theorem mem_staticRules (classified : t.classify span entries = .ok d) {rule : Text × Properties}
    (member : rule ∈ d.staticRules) :
    ∃ entry ∈ entries, t.keyName entry = some rule.1 ∧ ∃ place own dynamic,
      t.resolve entry.value = .resolved (.mapping place own) ∧ Splits t own rule.2 dynamic := by
  obtain ⟨selector, listed, contributes⟩ := List.mem_filterMap.mp member
  obtain ⟨named, same, content⟩ := Selector.rule?_eq_some contributes
  rw [(classify_selectors classified).1] at listed
  obtain ⟨entry, origin, rfl⟩ := List.mem_map.mp listed
  obtain ⟨whole, empty, -⟩ | ⟨-, -, place, own, refers, splits, -⟩ :=
    ScopeTable.classifySelector_spec (t := t) (t.keyName entry) entry
  · simp [Selector.hasStaticContent, Selector.verdict, whole, empty] at content
  · rw [ScopeTable.classifySelector_name] at named
    exact ⟨entry, origin, named, place, own, _, refers, same ▸ splits⟩

end Description

end StyleSplit
