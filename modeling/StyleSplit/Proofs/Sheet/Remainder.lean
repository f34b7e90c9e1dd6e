import StyleSplit.Proofs.Related
import StyleSplit.Proofs.Sheet.Partition

/-! What is left of a description after compiling. Splitting is settled by what it keeps: an
entry stayed because it is not known as a whole, which the entries around it have no part in,
so taking the others away makes nothing static. A description that is classified again after
its static parts were taken out is accepted, keeps what was kept, and gives no rule. Behind
the compiled text it is not accepted at all. -/
namespace StyleSplit

open Script

namespace Selector

/-- The entry that is left of a selector: none of a static one, its own of a dynamic one. A
mixed one leaves an object literal of its dynamic entries, behind the same key or, for a
computed key, the name that it stands for. What is new stands at `place`. -/
def remainder? (place : Span) (selector : Selector) : Option Entry :=
  match selector.verdict with
  | .static => none
  | .dynamic => some selector.entry
  | .mixed =>
    let key :=
      if selector.entry.computed then some (.literal place (.text (selector.name.getD [])))
      else selector.entry.key
    some (.mk place key (.mapping place selector.dynamic) false false)

/-- A selector comes out of a second classification as the first one left it: nothing but its
static properties is gone. -/
structure Settled (first second : Selector) : Prop where
  name : second.name = first.name
  verbatim : second.verbatim = first.verbatim
  dynamic : second.dynamic = first.dynamic
  static : second.static = []

variable {selector : Selector}

theorem remainder?_eq_none {place : Span} :
    selector.remainder? place = none ↔ selector.verdict = .static := by
  cases verdict : selector.verdict <;> simp [remainder?, verdict]

/-- A selector of which something was left holds nothing static any more. -/
theorem Settled.verdict {first second : Selector} (settled : first.Settled second)
    (left : first.verdict ≠ .static) : second.verdict = .dynamic := by
  unfold Selector.verdict at left ⊢
  rw [settled.verbatim, settled.dynamic, settled.static]
  split at left
  · exact absurd rfl left
  · rename_i kept
    rw [if_neg kept, List.isEmpty_nil, if_pos rfl]

end Selector

/-- The selectors of a description that are not static. -/
def Description.retained (d : Description) : List Selector :=
  d.selectors.filter fun selector => selector.verdict != .static

/-- The entries that are left of a description, in order. -/
def Description.remainder (d : Description) (place : Span) : List Entry :=
  d.selectors.filterMap (Selector.remainder? place)

namespace ScopeTable

variable {t : ScopeTable} {place : Span}

/-- An entry that a selector leaves has its name, and nothing static is found in it. -/
structure Leaves (t : ScopeTable) (selector : Selector) (left : Entry) : Prop where
  plain : left.isSpread = false
  name : t.keyName left = selector.name
  settled : selector.Settled (t.classifySelector (t.keyName left) left)

/-- The dynamic entries of a split are split once more into no properties and themselves. With
fewer entries in front, fewer names are known at each. -/
theorem splitProperties_dynamic {entries : List Entry} {seen seen' : List Text}
    {static : Properties} {dynamic : List Entry}
    (split : t.splitProperties entries seen = some (static, dynamic)) (fewer : seen' ⊆ seen) :
    t.splitProperties dynamic seen' = some ([], dynamic) := by
  induction entries generalizing seen seen' static dynamic with
  | nil =>
    simp only [splitProperties, Option.some.injEq, Prod.mk.injEq] at split
    obtain ⟨-, rfl⟩ := split
    rfl
  | cons entry rest ih =>
    unfold splitProperties at split
    split at split
    · contradiction
    rename_i plain
    split at split
    · rename_i unknown
      simp only [Option.bind_eq_bind, Option.bind_eq_some_iff, Option.pure_def,
        Option.some.injEq, Prod.mk.injEq] at split
      obtain ⟨⟨static', dynamic'⟩, others, -, rfl⟩ := split
      rw [splitProperties, if_neg plain, unknown, ih others fewer]
      rfl
    rename_i name known
    split at split
    · contradiction
    rename_i unseen
    simp only [Option.bind_eq_bind, Option.bind_eq_some_iff] at split
    obtain ⟨⟨static', dynamic'⟩, others, split⟩ := split
    split at split
    · simp only [Option.pure_def, Option.some.injEq, Prod.mk.injEq] at split
      obtain ⟨-, rfl⟩ := split
      exact ih others (List.subset_cons_of_subset _ fewer)
    · rename_i unwritten
      simp only [Option.pure_def, Option.some.injEq, Prod.mk.injEq] at split
      obtain ⟨-, rfl⟩ := split
      have unseen' : ¬seen'.contains name = true := by
        simp only [List.contains_iff_mem] at unseen ⊢
        exact fun member => unseen (fewer member)
      simp only [splitProperties, if_neg plain, known, if_neg unseen', unwritten,
        ih others (List.cons_subset_cons name fewer)]
      rfl

/-- A selector that is not kept as written was split under its name. -/
theorem classifySelector_split {name : Option Text} {entry : Entry}
    (divided : (t.classifySelector name entry).verbatim = false) :
    ∃ known span entries, name = some known ∧
      t.resolve entry.value = .resolved (.mapping span entries) ∧
      t.splitProperties entries [] =
        some ((t.classifySelector name entry).static, (t.classifySelector name entry).dynamic) := by
  unfold classifySelector at divided ⊢
  split at divided
  · cases divided
  rename_i known
  split at divided
  · rename_i span entries resolved
    split at divided
    · rename_i static dynamic split
      exact ⟨known, span, entries, rfl, resolved, by simp [split]⟩
    · cases divided
  · cases divided

theorem classifySelector_of_split {name : Text} {entry : Entry} {span : Span}
    {entries dynamic : List Entry} {static : Properties}
    (resolved : t.resolve entry.value = .resolved (.mapping span entries))
    (split : t.splitProperties entries [] = some (static, dynamic)) :
    t.classifySelector (some name) entry =
      { name := some name, entry, static, dynamic, verbatim := false } := by
  simp only [classifySelector, resolved, split]

/-- The key of what is left of a mixed selector names it as its own key does. -/
theorem keyName_remainder {entry : Entry} {name : Text} {value : Expr}
    (known : t.keyName entry = some name) :
    t.keyName (.mk place
      (if entry.computed then some (.literal place (.text name)) else entry.key)
      value false false) = some name := by
  obtain ⟨_, key, _, computed, _⟩ := entry
  cases computed with
  | true => rfl
  | false => exact known

theorem classifySelector_remainder {entry left : Entry} (plain : entry.isSpread = false)
    (leaves : (t.classifySelector (t.keyName entry) entry).remainder? place = some left) :
    t.Leaves (t.classifySelector (t.keyName entry) entry) left := by
  unfold Selector.remainder? at leaves
  split at leaves
  · cases leaves
  · rename_i dynamic
    rw [classifySelector_entry, Option.some.injEq] at leaves
    subst leaves
    exact ⟨plain, (classifySelector_name ..).symm, rfl, rfl, rfl,
      Selector.static_of_verdict dynamic⟩
  · rename_i mixed
    have divided : (t.classifySelector (t.keyName entry) entry).verbatim = false := by
      obtain ⟨-, empty, -⟩ | ⟨divided, -⟩ := classifySelector_spec (t := t) (t.keyName entry) entry
      · exact absurd empty (Selector.verdict_mixed mixed)
      · exact divided
    obtain ⟨known, span, entries, named, -, split⟩ := classifySelector_split divided
    have again := splitProperties_dynamic split (List.Subset.refl [])
    simp only [classifySelector_entry, classifySelector_name, named, Option.getD_some,
      Option.some.injEq] at leaves again
    have key : t.keyName left = some known := leaves ▸ keyName_remainder named
    refine ⟨?_, (key.trans named.symm).trans (classifySelector_name ..).symm, ?_⟩
    · exact isSpread_of_keyName key
    · have value : t.resolve left.value =
          .resolved (.mapping place (t.classifySelector (some known) entry).dynamic) :=
        leaves ▸ rfl
      rw [named] at divided ⊢
      rw [key, classifySelector_of_split value again]
      exact ⟨(classifySelector_name ..).symm, divided.symm, rfl, rfl⟩

theorem classifyEntries_cons_ok {entry : Entry} {rest : List Entry} {seen : List Text} :
    (∃ selectors, t.classifyEntries (entry :: rest) seen = .ok selectors) ↔
      (entry.isSpread = false ∧ t.keyName entry ≠ some rawKey) ∧
        (∀ name ∈ t.keyName entry, name ∉ seen) ∧
        ∃ others, t.classifyEntries rest ((t.keyName entry).toList ++ seen) = .ok others := by
  rw [classifyEntries]
  cases spread : entry.isSpread with
  | true => simp
  | false =>
    cases named : t.keyName entry with
    | none =>
      simp only [Option.toList_none, List.nil_append]
      cases t.classifyEntries rest seen <;> simp [bind, Except.bind, pure, Except.pure]
    | some known =>
      simp only [Option.toList_some, List.singleton_append]
      by_cases reserved : known = rawKey
      · simp [reserved]
      by_cases taken : known ∈ seen
      · simp [reserved, taken]
      cases t.classifyEntries rest (known :: seen) <;>
        simp [reserved, taken, bind, Except.bind, pure, Except.pure]

/-- A description is accepted exactly when no entry of it is a spread or has the reserved name,
and no known name comes twice. -/
theorem classifyEntries_ok_iff {entries : List Entry} {seen : List Text} :
    (∃ selectors, t.classifyEntries entries seen = .ok selectors) ↔
      (∀ entry ∈ entries, entry.isSpread = false ∧ t.keyName entry ≠ some rawKey) ∧
        (entries.filterMap t.keyName).Nodup ∧
        ∀ name ∈ entries.filterMap t.keyName, name ∉ seen := by
  induction entries generalizing seen with
  | nil => simp [classifyEntries]
  | cons entry rest ih =>
    rw [classifyEntries_cons_ok, ih, List.forall_mem_cons]
    cases named : t.keyName entry with
    | none =>
      rw [List.filterMap_cons_none named]
      simp
      tauto
    | some known =>
      rw [List.filterMap_cons_some named]
      simp
      grind

end ScopeTable

theorem leaves_names {t : ScopeTable} {selectors : List Selector} {left : List Entry}
    (leaves : List.Forall₂ t.Leaves selectors left) :
    left.filterMap t.keyName = selectors.filterMap Selector.name := by
  induction leaves with
  | nil => rfl
  | cons first _ ih => rw [List.filterMap_cons, List.filterMap_cons, first.name, ih]

namespace Description

variable {t : ScopeTable} {span around place : Span} {entries : List Entry} {d : Description}

theorem classify_ok_iff : (∃ d, t.classify span entries = .ok d) ↔
    (∀ entry ∈ entries, entry.isSpread = false ∧ t.keyName entry ≠ some rawKey) ∧
      (entries.filterMap t.keyName).Nodup := by
  have accepted : (∃ selectors, t.classifyEntries entries [] = .ok selectors) ↔ _ :=
    ScopeTable.classifyEntries_ok_iff
  unfold ScopeTable.classify
  cases classified : t.classifyEntries entries [] with
  | error error => simpa [classified, bind, Except.bind] using accepted
  | ok selectors => simpa [classified, bind, Except.bind, pure, Except.pure] using accepted

/-- An entry of the reserved name in front is what a description is refused for. -/
theorem classify_reserved {raw : Entry} (reserved : t.keyName raw = some rawKey) :
    t.classify span (raw :: entries) = .error (.reserved raw.span) := by
  have plain := ScopeTable.isSpread_of_keyName reserved
  rw [ScopeTable.classify, ScopeTable.classifyEntries, if_neg (by simp [plain]), reserved]
  rfl

theorem retained_eq (place : Span) :
    d.retained = d.selectors.filter fun selector => (selector.remainder? place).isSome := by
  refine List.filter_congr fun selector _ => Bool.eq_iff_iff.mpr ?_
  rw [bne_iff_ne, Option.isSome_iff_ne_none, ne_eq, ne_eq, Selector.remainder?_eq_none]

/-- Each entry that is left is left by one selector that is not static, in order. -/
theorem remainder_leaves (classified : t.classify span entries = .ok d) (place : Span) :
    List.Forall₂ t.Leaves d.retained (d.remainder place) := by
  obtain ⟨allowed, -⟩ := classify_ok_iff.mp ⟨d, classified⟩
  rw [retained_eq place]
  refine forall₂_filterMap fun selector member left leaves => ?_
  rw [(classify_selectors classified).1] at member
  obtain ⟨entry, listed, rfl⟩ := List.mem_map.mp member
  exact ScopeTable.classifySelector_remainder (allowed entry listed).1 leaves

/-- What is left is a description: its names are some of those that were accepted. -/
theorem remainder_accepted (classified : t.classify span entries = .ok d)
    (place around : Span) : ∃ d', t.classify around (d.remainder place) = .ok d' := by
  obtain ⟨allowed, -⟩ := classify_ok_iff.mp ⟨d, classified⟩
  obtain ⟨same, distinct⟩ := classify_selectors classified
  have leaves := remainder_leaves classified place
  refine classify_ok_iff.mpr ⟨fun left member => ?_, ?_⟩
  · obtain ⟨selector, kept, plain, name, -⟩ := mem_of_forall₂ leaves member
    have listed := List.mem_of_mem_filter kept
    rw [same] at listed
    obtain ⟨entry, written, rfl⟩ := List.mem_map.mp listed
    rw [name, ScopeTable.classifySelector_name]
    exact ⟨plain, (allowed entry written).2⟩
  · rw [leaves_names leaves]
    exact distinct.sublist (List.filter_sublist.filterMap _)

theorem remainder_settled {d' : Description} (classified : t.classify span entries = .ok d)
    (again : t.classify around (d.remainder place) = .ok d') :
    List.Forall₂ Selector.Settled d.retained d'.selectors := by
  rw [(classify_selectors again).1, List.forall₂_map_right_iff]
  exact (remainder_leaves classified place).imp fun _ _ leaves => leaves.settled

/-- A description of dynamic selectors leaves its entries. -/
theorem remainder_of_dynamic (dynamic : ∀ selector ∈ d.selectors, selector.verdict = .dynamic)
    (classified : t.classify span entries = .ok d) : d.remainder place = entries := by
  have own : ∀ selector ∈ d.selectors, selector.remainder? place = some selector.entry := by
    intro selector member
    rw [Selector.remainder?, dynamic selector member]
  calc d.remainder place
    _ = d.selectors.map Selector.entry := by
      rw [Description.remainder, List.filterMap_congr own, List.filterMap_eq_map']
    _ = entries := by
      simp [(classify_selectors classified).1, Function.comp_def, ScopeTable.classifySelector_entry]

/-- Entries with nothing more to compile. They are a description again, wherever it stands:
every selector that is not static is found there as it was left, none has a static part, and
what is left of them is themselves. Behind an entry of the reserved name they are refused. -/
structure Spent (t : ScopeTable) (d : Description) (left : List Entry) : Prop where
  accepted : ∀ around, ∃ d', t.classify around left = .ok d' ∧
    List.Forall₂ Selector.Settled d.retained d'.selectors ∧
    d'.hasStaticContent = false ∧ ∀ place, d'.remainder place = left
  refused : ∀ around raw, t.keyName raw = some rawKey →
    t.classify around (raw :: left) = .error (.reserved raw.span)

/-- What is left of a description is spent. -/
theorem classify_remainder (classified : t.classify span entries = .ok d) (place : Span) :
    d.Spent t (d.remainder place) := by
  refine ⟨fun around => ?_, fun around raw reserved => classify_reserved reserved⟩
  obtain ⟨d', again⟩ := remainder_accepted classified place around
  have settled := remainder_settled classified again
  have dynamic : ∀ selector ∈ d'.selectors, selector.verdict = .dynamic := by
    intro selector member
    obtain ⟨first, kept, settled⟩ := mem_of_forall₂ settled member
    exact settled.verdict (bne_iff_ne.mp (List.mem_filter.mp kept).2)
  have bare : d'.hasStaticContent = false := by
    refine List.any_eq_false.mpr fun selector member => ?_
    simp [Selector.hasStaticContent, dynamic selector member]
  exact ⟨d', again, settled, bare, fun _ => remainder_of_dynamic dynamic again⟩

/-- The entries of `{["a"]: {x: "1", y: true, [z]: "2"}, b: {x: "1"}, c: z}`. -/
def partlyStatic : List Entry :=
  let word (start stop : Nat) (value : String) : Expr :=
    .literal ⟨start, stop⟩ (.text (text value))
  let one (start : Nat) : Entry :=
    .mk ⟨start, start + 6⟩ (some (word start (start + 1) "x")) (word (start + 3) (start + 6) "1")
      false false
  [.mk ⟨1, 37⟩ (some (word 2 5 "a"))
     (.mapping ⟨8, 37⟩
       [one 9,
        .mk ⟨17, 24⟩ (some (word 17 18 "y")) (.literal ⟨20, 24⟩ (.bool true)) false false,
        .mk ⟨26, 36⟩ (some (.identifier ⟨27, 28⟩ (text "z"))) (word 31 34 "2") true false])
     true false,
   .mk ⟨39, 50⟩ (some (word 39 40 "b")) (.mapping ⟨42, 50⟩ [one 43]) false false,
   .mk ⟨52, 56⟩ (some (word 52 53 "c")) (.identifier ⟨55, 56⟩ (text "z")) false false]

theorem classify_remainder_computed :
    let t : ScopeTable := ⟨[⟨none, true, []⟩], [(⟨55, 56⟩, 0), (⟨27, 28⟩, 0)], 14⟩
    ∃ d, t.classify ⟨0, 57⟩ partlyStatic = .ok d ∧
      d.selectors.map Selector.verdict = [.mixed, .static, .dynamic] ∧
      (d.remainder ⟨0, 57⟩).length = 2 ∧ d.Spent t (d.remainder ⟨0, 57⟩) :=
  ⟨_, rfl, rfl, rfl, @classify_remainder _ ⟨0, 57⟩ partlyStatic _ rfl ⟨0, 57⟩⟩

end Description

end StyleSplit
