import StyleSplit.Proofs.Precompile.Safety
import StyleSplit.Proofs.Sheet.Partition

/-! Reports and runs agree. A report classifies the description of a call and goes no
further; a run compiles it, or takes what was compiled for an earlier call that refers to
the same declaration. What a run has noted of a declaration is what classifying it again
would give, so that a report tells which calls are passed over, which are skipped for their
description and why, and which are rewritten or skipped for another reason. -/
namespace StyleSplit

open Script

/-- The complaint about a description is never that there is none. -/
theorem Malformed.message_ne (error : Malformed) : error.message ≠ text "no style description" := by
  intro same
  cases error <;> simp [Malformed.message, text] at same

/-- What a report on a call tells of a run: how it edits the call and what it says of it. -/
structure CallReport.Foretells (report : CallReport) (edits : List Edit)
    (said : List Diagnostic) : Prop where
  idle : report.skipped? = some (text "no style description") → edits = [] ∧ said = []
  malformed : ∀ message, report.skipped? = some message → message ≠ text "no style description" →
    edits = [] ∧ said = [{ rule := text "malformed-style", severity := .warning, message,
                           line := some report.line, column := some report.column }]
  dynamic : ∀ description, report.description = .ok description →
    description.hasStaticContent = false → edits = [] ∧ said = []
  static : ∀ description, report.description = .ok description →
    description.hasStaticContent = true →
      edits ≠ [] ∧ said = [] ∨ edits = [] ∧ ∃ diagnostic, said = [diagnostic] ∧
        diagnostic.line = some report.line ∧ diagnostic.column = some report.column

namespace CallReport

variable {report : CallReport} {edits : List Edit} {said : List Diagnostic}

theorem Foretells.idle_of (absent : report.description = .error none) : report.Foretells [] [] := by
  have skipped : report.skipped? = some (text "no style description") := by
    rw [skipped?, absent]
  refine ⟨fun _ => ⟨rfl, rfl⟩, ?_, ?_, ?_⟩
  · intro message given other
    exact absurd (Option.some.inj (given.symm.trans skipped)) other
  · intro description described
    rw [absent] at described
    cases described
  · intro description described
    rw [absent] at described
    cases described

theorem Foretells.malformed_of {error : Malformed}
    (failed : report.description = .error (some error)) :
    report.Foretells [] [{ rule := text "malformed-style", severity := .warning,
                           message := error.message, line := some report.line,
                           column := some report.column }] := by
  have skipped : report.skipped? = some error.message := by
    rw [skipped?, failed]
  refine ⟨?_, ?_, ?_, ?_⟩
  · intro idle
    exact absurd (Option.some.inj (skipped.symm.trans idle)) error.message_ne
  · intro message given _
    obtain rfl := Option.some.inj (skipped.symm.trans given)
    exact ⟨rfl, rfl⟩
  · intro description described
    rw [failed] at described
    cases described
  · intro description described
    rw [failed] at described
    cases described

theorem Foretells.described_of {d : Description} (described : report.description = .ok d)
    (dynamic : d.hasStaticContent = false → edits = [] ∧ said = [])
    (static : d.hasStaticContent = true →
      edits ≠ [] ∧ said = [] ∨ edits = [] ∧ ∃ diagnostic, said = [diagnostic] ∧
        diagnostic.line = some report.line ∧ diagnostic.column = some report.column) :
    report.Foretells edits said := by
  have live : report.skipped? = none := by
    rw [skipped?, described]
  refine ⟨?_, ?_, ?_, ?_⟩
  · intro idle
    rw [live] at idle
    cases idle
  · intro message given
    rw [live] at given
    cases given
  · intro description same
    cases described.symm.trans same
    exact dynamic
  · intro description same
    cases described.symm.trans same
    exact static

end CallReport

namespace Description

variable {t : ScopeTable} {span : Span} {entries : List Entry} {d : Description}

/-- A selector with static content has a name, and so gives a rule. -/
theorem staticRules_ne_nil (classified : t.classify span entries = .ok d)
    (static : d.hasStaticContent = true) : d.staticRules ≠ [] := by
  obtain ⟨selector, member, content⟩ := List.any_eq_true.mp static
  obtain ⟨same, -⟩ := classify_selectors classified
  have origin := same ▸ member
  obtain ⟨entry, -, rfl⟩ := List.mem_map.mp origin
  have named : ∃ name, (t.classifySelector (t.keyName entry) entry).name = some name := by
    obtain ⟨whole, empty, -⟩ | ⟨-, ⟨name, known⟩, -⟩ :=
      ScopeTable.classifySelector_spec (t := t) (t.keyName entry) entry
    · simp [Selector.hasStaticContent, Selector.verdict, whole, empty] at content
    · exact ⟨name, (ScopeTable.classifySelector_name ..).trans known⟩
  obtain ⟨name, named⟩ := named
  intro none
  have rule := List.filterMap_eq_nil_iff.mp none _ member
  simp [Selector.rule?, named, content] at rule

/-- A compiled sheet has classes exactly when there is static content. -/
theorem compiled_isEmpty (classified : t.classify span entries = .ok d) {c : Compiler}
    {index : Nat} {a a' : Allocator} {sheet : Sheet}
    (compiled : c.compile d.staticRules index a = (.ok sheet, a')) :
    sheet.isEmpty = !d.hasStaticContent := by
  cases static : d.hasStaticContent with
  | false =>
    rw [staticRules_nil static] at compiled
    exact Precompiler.compile_nil compiled
  | true =>
    have distinct : (d.staticRules.map Prod.fst).Nodup := by
      rw [staticRules_keys]
      exact (classify_selectors classified).2.sublist d.compiledNames_sublist
    have keys := Compiler.compileRules_keys compiled (by simpa using distinct)
    have some : sheet.classes ≠ [] := by
      rintro none
      rw [none] at keys
      exact staticRules_ne_nil classified static (by simpa using keys.symm)
    simpa [Sheet.isEmpty] using some

end Description

namespace Precompiler

variable {p : Precompiler} {tree : Tree} {index k : Nat} {call : Call} {first : Expr}
  {more : List Expr} {r : RunState} {o : Outcome}

/-- Every sheet that is noted has classes. -/
theorem stateAt_noted : ∀ k ≤ p.calls.length,
    ∀ d ∈ (p.stateAt k).declared, d.sheet.isEmpty = false := by
  refine stateAt_induct (motive := fun _ r => ∀ d ∈ r.declared, d.sheet.isEmpty = false)
    (by simp [RunState.start]) ?_
  intro k call found noted
  obtain ⟨first, edits, declared, shared, a, rewrites⟩ | ⟨-, a, same⟩ :=
    step_cases p k call (p.stateAt k)
  · rw [step_of_rewrites rewrites]
    have some : declared.sheet.isEmpty = false := by
      obtain ⟨none, -⟩ | ⟨some, -⟩ := Call.rewrite_ok rewrites.rewritten
      · exact absurd none rewrites.some
      · exact some
    intro d member
    simp only [accept] at member
    split at member
    · exact noted d member
    · rcases List.mem_cons.mp member with rfl | member
      · exact some
      · exact noted d member
  · rw [same]
    exact noted

/-- A description that cannot be classified is the reason why its call is skipped. -/
theorem compileCall_malformed (reads : p.Reads tree) (safe : p.Safe tree r)
    (listed : call ∈ p.script.styleCalls p.names) (arguments : call.arguments = first :: more)
    {error : Malformed} (described : p.describe first = .error error) :
    (p.compileCall index first r).1 = .error (.malformed error) := by
  unfold compileCall
  unfold describe at described
  cases resolved : p.table.findMapping first with
  | error reason =>
    rw [resolved] at described
    cases described
    rfl
  | ok found =>
    rw [resolved] at described
    have failed : p.table.classify found.span found.entries = .error error := described
    have unknown : r.find? found.span = none := by
      cases known : r.find? found.span with
      | none => rfl
      | some declared =>
        obtain ⟨-, classified⟩ := safe.known reads (reads.found listed arguments resolved).1 known
        rw [failed] at classified
        cases classified
    simp [unknown, failed]

/-- A description that can be classified is the one a run goes on with, also where it takes
it from an earlier call; without static content its sheet has no classes. -/
theorem compileCall_described (index : Nat) (reads : p.Reads tree) (safe : p.Safe tree r)
    (noted : ∀ d ∈ r.declared, d.sheet.isEmpty = false)
    (listed : call ∈ p.script.styleCalls p.names) (arguments : call.arguments = first :: more)
    {description : Description} (described : p.describe first = .ok description) :
    (∃ sheet shared a, p.compileCall index first r = (.ok (⟨description, sheet⟩, shared), a) ∧
        sheet.isEmpty = !description.hasStaticContent) ∨
      description.hasStaticContent = true ∧
        ∃ reason, (p.compileCall index first r).1 = .error reason := by
  obtain ⟨found, resolved, classified⟩ := bind_eq_ok.mp described
  unfold compileCall
  simp only [resolved]
  cases known : r.find? found.span with
  | some declared =>
    obtain ⟨static, again⟩ := safe.known reads (reads.found listed arguments resolved).1 known
    obtain rfl : declared.description = description := Except.ok.inj (again.symm.trans classified)
    refine .inl ⟨declared.sheet, true, r.allocator, rfl, ?_⟩
    rw [static]
    exact noted declared (List.mem_of_find?_eq_some known)
  | none =>
    simp only [classified]
    cases compiled : p.compiler.compile description.staticRules index r.allocator with
    | mk answer a =>
      cases answer with
      | ok sheet =>
        exact .inl ⟨sheet, false, a, rfl, description.compiled_isEmpty classified compiled⟩
      | error reason =>
        refine .inr ⟨?_, ?_⟩
        · by_contra dynamic
          rw [Description.staticRules_nil (Bool.eq_false_iff.mpr dynamic)] at compiled
          cases compiled
        · cases reason with
          | naming => exact ⟨_, rfl⟩
          | unwritable => exact ⟨_, rfl⟩

/-- A description that is not compiled is the reason why its call is skipped. -/
theorem treat_error {reason : SkipReason}
    (failed : (p.compileCall index first r).1 = .error reason) :
    (p.treat index call first r).1 = .skipped reason := by
  unfold treat
  cases compiled : p.compileCall index first r with
  | mk answer a =>
    rw [compiled] at failed
    cases failed
    rfl

/-- A sheet without classes leaves its call as it is. -/
theorem treat_empty {sheet : Sheet} {description : Description} {shared : Bool} {a : Allocator}
    (compiled : p.compileCall index first r = (.ok (⟨description, sheet⟩, shared), a))
    (empty : sheet.isEmpty = true) : (p.treat index call first r).1 = .unchanged := by
  simp [treat, compiled, Call.rewrite, empty]

/-- A sheet with classes is written, or its call is skipped. -/
theorem treat_classes (arguments : call.arguments = first :: more) {sheet : Sheet}
    {description : Description} {shared : Bool} {a : Allocator}
    (compiled : p.compileCall index first r = (.ok (⟨description, sheet⟩, shared), a))
    (some : sheet.isEmpty = false) :
    (∃ edits, edits ≠ [] ∧ (p.treat index call first r).1 = .rewritten edits sheet) ∨
      ∃ reason, (p.treat index call first r).1 = .skipped reason := by
  unfold treat
  simp only [compiled]
  split
  · exact .inr ⟨_, rfl⟩
  · rename_i none
    obtain ⟨-, empty | idle⟩ | ⟨-, _, _, _, _, _, -, -, same, -⟩ := Call.rewrite_ok none
    · rw [some] at empty
      cases empty
    · rw [arguments] at idle
      cases idle
    · simp at same
  · rename_i edits filled rewritten
    split
    · exact .inr ⟨_, rfl⟩
    · exact .inl ⟨edits, filled, rfl⟩

theorem step_treat (live : call.isNoop = false) (arguments : call.arguments = first :: more) :
    p.step index call r = p.treat index call first r := by
  simp [step, live, arguments]

theorem report_described (live : call.isNoop = false) (arguments : call.arguments = first :: more)
    {description : Description} (described : p.describe first = .ok description) :
    (p.report call).description = .ok description := by
  simp [report, live, arguments, described]

theorem report_malformed (live : call.isNoop = false) (arguments : call.arguments = first :: more)
    {error : Malformed} (described : p.describe first = .error error) :
    (p.report call).description = .error (some error) := by
  simp [report, live, arguments, described]

/-- A call without a first argument, or with an absent one, is passed over. -/
theorem step_idle (index : Nat) (r : RunState) (idle : call.isNoop = true ∨ call.arguments = []) :
    (p.step index call r).1 = .noop ∧ (p.report call).description = .error none := by
  rcases idle with idle | idle
  · simp [step, report, idle]
  · simp [step, report, idle]

/-- The report on a call foretells what a run makes of it. -/
theorem step_foretold (reads : p.Reads tree) (safe : p.Safe tree r)
    (noted : ∀ d ∈ r.declared, d.sheet.isEmpty = false)
    (listed : call ∈ p.script.styleCalls p.names) :
    (p.report call).Foretells (p.step index call r).1.edits
      (p.diagnostic? call (p.step index call r).1).toList := by
  by_cases idle : call.isNoop = true ∨ call.arguments = []
  · obtain ⟨passed, absent⟩ := step_idle index r idle
    rw [passed]
    exact .idle_of absent
  rw [not_or, Bool.not_eq_true] at idle
  obtain ⟨live, given⟩ := idle
  obtain ⟨first, more, arguments⟩ := List.exists_cons_of_ne_nil given
  rw [step_treat live arguments]
  cases described : p.describe first with
  | error error =>
    rw [treat_error (compileCall_malformed reads safe listed arguments described)]
    exact .malformed_of (report_malformed live arguments described)
  | ok description =>
    have told := report_described live arguments described
    obtain ⟨sheet, shared, a, compiled, classes⟩ | ⟨static, reason, failed⟩ :=
      compileCall_described index reads safe noted listed arguments described
    · refine .described_of told ?_ ?_
      · intro dynamic
        rw [treat_empty compiled (by rw [classes, dynamic]; rfl)]
        exact ⟨rfl, rfl⟩
      · intro static
        obtain ⟨edits, filled, rewritten⟩ | ⟨reason, skipped⟩ :=
          treat_classes arguments compiled (by rw [classes, static]; rfl)
        · rw [rewritten]
          exact .inl ⟨filled, rfl⟩
        · rw [skipped]
          exact .inr ⟨rfl, _, rfl, rfl, rfl⟩
    · rw [treat_error failed]
      refine .described_of told ?_ fun _ => .inr ⟨rfl, _, rfl, rfl, rfl⟩
      intro dynamic
      rw [static] at dynamic
      cases dynamic

theorem Reads.foretold (reads : p.Reads tree) {outcome : Outcome}
    (found : p.calls[k]? = some call) (became : p.outcomes[k]? = some outcome) :
    (p.report call).Foretells outcome.edits (p.diagnostic? call outcome).toList := by
  rw [← outcome_eq found became]
  exact step_foretold reads (safeAt reads found)
    (stateAt_noted k (Nat.le_of_lt (List.getElem?_eq_some_iff.mp found).1)) (mem_calls found)

/-- A call counts as rewritten exactly when it is edited. -/
theorem isRewritten_iff {outcome : Outcome} (found : p.calls[k]? = some call)
    (became : p.outcomes[k]? = some outcome) : outcome.isRewritten = !outcome.edits.isEmpty := by
  have outcome := outcome_eq found became
  obtain ⟨first, edits, declared, shared, a, rewrites⟩ | ⟨kept, -⟩ :=
    step_cases p k call (p.stateAt k)
  · rw [← outcome, step_of_rewrites rewrites]
    simpa [Outcome.isRewritten, Outcome.edits] using rewrites.some
  · rw [← outcome, kept, edits_of_kept kept]
    rfl

/-- A report for every call, and an outcome for every report. -/
theorem Reads.reports_foretell (reads : p.Reads tree) :
    List.Forall₂ (fun report outcome => report.Foretells outcome.edits
      (p.diagnostic? report.call outcome).toList) p.reports p.outcomes := by
  rw [reports, List.forall₂_map_left_iff, List.forall₂_iff_get]
  refine ⟨outcomes_length.symm, fun k called ended => ?_⟩
  exact reads.foretold (List.getElem?_eq_getElem called) (List.getElem?_eq_getElem ended)

end Precompiler

/-- Reports and runs agree call by call, for all settings: each report foretells what
becomes of its call, the diagnostics of a run are those of its calls in their order, and
exactly the calls that are edited count as rewritten. -/
theorem precompile_foretold {settings : Settings} {filename source : Text} {script : Script}
    (parsed : Script.parse source = .ok script) :
    let p := Precompiler.ofScript settings filename script
    analyze settings source = .ok p.reports ∧
      precompile settings filename source = .ok p.result ∧
      p.reports.map CallReport.call = p.calls ∧
      List.Forall₂ (fun report outcome => report.Foretells outcome.edits
        (p.diagnostic? report.call outcome).toList) p.reports p.outcomes ∧
      p.result.diagnostics = (List.zipWith (fun call outcome =>
        (p.diagnostic? call outcome).toList) p.calls p.outcomes).flatten ∧
      p.result.rewritten = p.outcomes.countP (fun outcome => !outcome.edits.isEmpty) ∧
      Edit.apply source (p.outcomes.flatMap Outcome.edits) = .ok p.result.code := by
  intro p
  obtain ⟨tree, reads⟩ := reads_ofScript settings filename parsed
  obtain ⟨same, -⟩ := Script.parse_derived parsed
  refine ⟨bind_eq_ok.mpr ⟨script, parsed, rfl⟩, bind_eq_ok.mpr ⟨script, parsed, rfl⟩, ?_,
    reads.reports_foretell, ?_, ?_, ?_⟩
  · simp [Precompiler.reports, Precompiler.report, Function.comp_def]
  · simp only [Precompiler.result, List.filterMap_eq_flatMap_toList, List.flatMap_def,
      List.map_zip_eq_zipWith]
    rfl
  · simp only [Precompiler.result]
    refine List.countP_congr fun outcome member => ?_
    obtain ⟨k, became⟩ := List.mem_iff_getElem?.mp member
    obtain ⟨bound, -⟩ := List.getElem?_eq_some_iff.mp became
    have found := List.getElem?_eq_getElem (p.outcomes_length ▸ bound)
    rw [Precompiler.isRewritten_iff found became]
  · exact same ▸ reads.safeRun.applied.1

/-- The script `let s={a:{}};f(s);f(s,f(s));f();f(x);f({})`, with calls of every kind. -/
def mixedSource : Text := text "let s=\x7ba:\x7b\x7d\x7d;f(s);f(s,f(s));f();f(x);f(\x7b\x7d)"

theorem precompile_foretold_mixed : ∃ script, Script.parse mixedSource = .ok script ∧
    let p := Precompiler.ofScript shortSettings [] script
    p.outcomes.map (fun outcome => outcome.edits.length) = [2, 1, 0, 0, 0, 0] ∧
      p.result.diagnostics.map Diagnostic.rule =
        [text "overlapping-rewrite", text "malformed-style"] ∧
      List.Forall₂ (fun report outcome => report.Foretells outcome.edits
        (p.diagnostic? report.call outcome).toList) p.reports p.outcomes := by
  have checked : (Script.parse mixedSource).toOption.any (fun script =>
      let p := Precompiler.ofScript shortSettings [] script
      p.outcomes.map (fun outcome => outcome.edits.length) == [2, 1, 0, 0, 0, 0] &&
        p.result.diagnostics.map Diagnostic.rule ==
          [text "overlapping-rewrite", text "malformed-style"]) = true := by
    decide +kernel
  obtain ⟨script, parsed, run⟩ := Script.exists_of_any checked
  obtain ⟨edited, said⟩ := Bool.and_eq_true_iff.mp run
  exact ⟨script, parsed, eq_of_beq edited, eq_of_beq said,
    (precompile_foretold parsed).2.2.2.1⟩

end StyleSplit
