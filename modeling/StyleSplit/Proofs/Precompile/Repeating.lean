import StyleSplit.Precompile.Run
import StyleSplit.Proofs.Sheet.Collecting

/-! Built-in plugins listed twice. A hyphenated name has no capitals left and does not start
like a vendor name without its hyphen, and a value with its units is made of texts that get
none; so a second pass finds nothing to do. Properties that fell together under one name in
the first pass have different names in the second one. Listed twice in a row, a built-in plugin
leaves everything that is compiled as it is when listed once. -/
namespace StyleSplit

theorem CodePoint.isUpper_toLower {c : CodePoint} (upper : c.isUpper = true) :
    c.toLower.isUpper = false := by
  simp only [CodePoint.toLower, upper, if_true]
  simp only [CodePoint.isUpper, Bool.and_eq_true, Nat.ble_eq, Bool.and_eq_false_iff] at upper ⊢
  exact .inr (Bool.eq_false_iff.mpr fun low => by have := Nat.le_of_ble_eq_true low; omega)

/-- A text without capitals stays as it is. -/
theorem dashCapitals_dashCapitals (t : Text) : dashCapitals (dashCapitals t) = dashCapitals t := by
  induction t with
  | nil => rfl
  | cons c rest ih =>
    by_cases upper : c.isUpper = true
    · have hyphen : CodePoint.isUpper CodePoint.hyphen = false := rfl
      simp [dashCapitals, upper, hyphen, CodePoint.isUpper_toLower upper, ih]
    · simp [dashCapitals, upper, ih]

theorem hyphenate_hyphenate (name : Text) : hyphenate (hyphenate name) = hyphenate name := by
  have dashed := dashCapitals_dashCapitals name
  by_cases vendor : (text "ms-").isPrefixOf (dashCapitals name) = true
  · -- Behind the new hyphen nothing starts with `ms-` any more.
    have behind : dashCapitals (CodePoint.hyphen :: dashCapitals name) =
        CodePoint.hyphen :: dashCapitals name := by
      rw [dashCapitals, dashed]
      rfl
    have once : hyphenate name = CodePoint.hyphen :: dashCapitals name := if_pos vendor
    rw [once, hyphenate, behind]
    rfl
  · have once : hyphenate name = dashCapitals name := if_neg vendor
    rw [once, hyphenate, dashed]
    exact if_neg vendor

namespace Plugin

variable {unit : Text}

mutual

/-- What has its units gets no more of them. -/
theorem measured_measured : ∀ value : Value,
    measured unit (measured unit value) = measured unit value
  | .scalar (.number _) => rfl
  | .scalar (.text _) | .scalar (.bool _) | .scalar .null => rfl
  | .list items => congrArg Value.list (measuredItems_measuredItems items)
  | .record _ => rfl

theorem measuredItems_measuredItems : ∀ items : List Value,
    measuredItems unit (measuredItems unit items) = measuredItems unit items
  | [] => rfl
  | item :: rest =>
    congrArg₂ List.cons (measured_measured item) (measuredItems_measuredItems rest)

end

/-- A second pass of a plugin changes nothing: on the properties of any rule, in any chain of
plugins that has it twice in a row, in what is compiled with such a chain, and in what a run
with such a chain makes of a script. -/
structure Settles (plugin : Plugin) : Prop where
  again : ∀ selector properties context,
    applyAll [plugin, plugin] selector properties context =
      applyAll [plugin] selector properties context
  chained : ∀ earlier later selector properties context,
    applyAll (earlier ++ plugin :: plugin :: later) selector properties context =
      applyAll (earlier ++ plugin :: later) selector properties context
  compiled : ∀ (c : Compiler) earlier later rules callIndex a,
    { c with plugins := earlier ++ plugin :: plugin :: later }.compile rules callIndex a =
      { c with plugins := earlier ++ plugin :: later }.compile rules callIndex a
  precompiled : ∀ (settings : Settings) earlier later filename source,
    precompile { settings with plugins := earlier ++ plugin :: plugin :: later } filename source =
      precompile { settings with plugins := earlier ++ plugin :: later } filename source

end Plugin

namespace Compiler

variable {c d : Compiler}

/-- Compilers that name alike, and whose plugins make the same of all properties. -/
structure Alike (c d : Compiler) : Prop where
  naming : c.naming = d.naming
  context : ∀ callIndex, c.context callIndex = d.context callIndex
  plugins : ∀ selector properties context,
    Plugin.applyAll c.plugins selector properties context =
      Plugin.applyAll d.plugins selector properties context

theorem Alike.compileRules (alike : c.Alike d) (context : CallContext) (rules : Rules)
    (blocks : List Text) (classes : List (Text × Text)) (a : Allocator) :
    c.compileRules context rules blocks classes a =
      d.compileRules context rules blocks classes a := by
  induction rules generalizing blocks classes a with
  | nil => rfl
  | cons rule rest ih => simp only [Compiler.compileRules, alike.naming, alike.plugins, ih]

theorem Alike.compile (alike : c.Alike d) (rules : Rules) (callIndex : Nat) (a : Allocator) :
    c.compile rules callIndex a = d.compile rules callIndex a := by
  rw [Compiler.compile, alike.context, alike.compileRules]
  rfl

end Compiler

namespace Precompiler

variable {p : Precompiler} {c : Compiler}

/-- A run only depends on what its compiler makes of rules. -/
theorem result_alike (alike : p.compiler.Alike c) : { p with compiler := c }.result = p.result := by
  have calls (index : Nat) (call : Call) (r : RunState) :
      { p with compiler := c }.step index call r = p.step index call r := by
    simp only [step, treat, compileCall, alike.compile]
  have outcomes (index : Nat) (remaining : List Call) (r : RunState) :
      { p with compiler := c }.outcomesFrom index remaining r =
        p.outcomesFrom index remaining r := by
    induction remaining generalizing index r with
    | nil => rfl
    | cons call rest ih => simp only [outcomesFrom, calls, ih]
  have all : { p with compiler := c }.outcomes = p.outcomes := outcomes 0 p.calls .start
  rw [result, all]
  rfl

end Precompiler

namespace Plugin

variable {plugin : Plugin}

/-- All of it follows from what a second pass makes of the properties of a rule. -/
theorem settles_of_again (again : ∀ selector properties context,
    plugin.process selector (plugin.process selector properties context) context =
      plugin.process selector properties context) : plugin.Settles := by
  have chained (earlier later : List Plugin) (selector : Text) (properties : Properties)
      (context : CallContext) :
      applyAll (earlier ++ plugin :: plugin :: later) selector properties context =
        applyAll (earlier ++ plugin :: later) selector properties context := by
    simp only [applyAll, List.foldl_append, List.foldl_cons, again]
  refine ⟨again, chained, fun c earlier later => ?_, fun settings earlier later filename source => ?_⟩
  · exact Compiler.Alike.compile ⟨rfl, fun _ => rfl, chained earlier later⟩
  · refine congrArg (Script.parse source >>= ·) (funext fun script => ?_)
    let once : Settings := { settings with plugins := earlier ++ plugin :: later }
    exact congrArg Except.ok (Precompiler.result_alike (p := .ofScript once filename script)
      ⟨rfl, fun _ => rfl, fun _ _ _ => (chained earlier later _ _ _).symm⟩)

/-- Both built-in plugins settle, the second one with any properties and any unit. -/
theorem builtins_settle :
    hyphenateNames.Settles ∧ ∀ names unit, (appendUnit names unit).Settles := by
  constructor
  · refine settles_of_again fun selector properties context => ?_
    -- All names are hyphenated by now, and no two are the same.
    have names : ∀ property ∈ hyphenateNames.process selector properties context,
        hyphenate property.1 = property.1 := by
      intro property member
      obtain ⟨earlier, later, split, -⟩ := mem_collectEntries_iff.mp member
      have listed := List.mem_append_right earlier (List.mem_cons_self (a := property) (l := later))
      rw [← split] at listed
      obtain ⟨given, -, rfl⟩ := List.mem_map.mp listed
      exact hyphenate_hyphenate given.1
    have kept : (hyphenateNames.process selector properties context).map
        (fun property => (hyphenate property.1, property.2)) =
          hyphenateNames.process selector properties context := by
      refine (List.map_congr_left fun property member => ?_).trans (List.map_id _)
      exact Prod.ext (names property member) rfl
    exact (congrArg collectEntries kept).trans
      (collectEntries_eq_self_iff.mpr collectEntries_distinct)
  · intro names unit
    refine settles_of_again fun selector properties context => ?_
    refine List.map_map.trans (List.map_congr_left fun property _ => ?_)
    by_cases measures : names.contains property.1 = true
    · simp only [Function.comp_apply, if_pos measures, measured_measured]
    · simp only [Function.comp_apply, if_neg measures]

/-- Two names that fall together, one of a vendor, and a list with numbers of each kind. -/
example :
    let given : Properties :=
      [(text "msFlex", .scalar (.number (.int 1))), (text "ms-flex", .list [.scalar (.number (.int 0)),
        .list [.scalar (.number (.int 2)), .scalar (.bool true)]])]
    applyAll [hyphenateNames, hyphenateNames, appendUnit [text "-ms-flex"] (text "px")] (text "a")
        given ⟨0, 0, [], none⟩ =
      [(text "-ms-flex", .list [.scalar (.text (text "0")),
        .list [.scalar (.text (text "2px")), .scalar (.bool true)]])] := by
  rfl

end Plugin

end StyleSplit
