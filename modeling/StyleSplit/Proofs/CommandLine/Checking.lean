import StyleSplit.Proofs.CommandLine.Running
import StyleSplit.Proofs.Script.Grounding

/-! Checking a file against writing it in place. When checking finds nothing to rewrite, the
result is the text as it was read, and writing in place stores that text. Line ends were made
alike in reading it, so the bytes stay only where no carriage return was. -/
namespace StyleSplit

/-- Without an edit the result is the source. -/
theorem Precompiler.code_of_unchanged {p : Precompiler} (unchanged : p.result.changed = false) :
    p.result.code = p.script.source := by
  have none : p.outcomes.countP Outcome.isRewritten = 0 := by
    simpa [Result.changed, Precompiler.result] using unchanged
  have unedited : p.outcomes.flatMap Outcome.edits = [] := by
    refine List.flatMap_eq_nil_iff.mpr fun outcome member => ?_
    have kept := List.countP_eq_zero.mp none outcome member
    cases outcome with
    | rewritten edits sheet => exact absurd rfl kept
    | noop | skipped | unchanged => rfl
  rw [Precompiler.result, unedited]
  rfl

namespace CommandLine

variable {a b c w : Arguments} {option switch : OptionSpec} {files : Files}
  {checking writing : List Text}

namespace Arguments

theorem has_eq_false : a.has option = false ↔ ∀ given ∈ a.options, given.option ≠ option := by
  rw [has, List.any_eq_false]
  simp

theorem value?_eq_none (absent : a.has option = false) : a.value? option = none := by
  have empty : a.options.filter (·.option == option) = [] := by
    refine List.filter_eq_nil_iff.mpr fun given member same => ?_
    exact has_eq_false.mp absent given member (eq_of_beq same)
  rw [value?, values, empty]
  rfl

/-- Leaving out a switch does not change the values of another option. -/
theorem filter_values (other : option ≠ switch) :
    (a.options.filter (·.option != switch)).filter (·.option == option) =
      a.options.filter (·.option == option) := by
  rw [List.filter_filter]
  refine List.filter_congr fun given _ => ?_
  rcases Decidable.em (given.option = option) with same | different
  · simp [same, other]
  · simp [different]

end Arguments

/-- The options that choose what is precompiled and how. -/
def choiceOptions : List OptionSpec := [identifierOption, prefixOption, pluginOption]

/-- Where there are only choices besides a switch, no other option is given. -/
theorem Arguments.lacks
    (chosen : ∀ given ∈ a.options.filter (·.option != switch), given.option ∈ choiceOptions)
    (other : option ≠ switch) (foreign : option ∉ choiceOptions) : a.has option = false := by
  refine has_eq_false.mpr fun given member same => foreign ?_
  rw [← same]
  exact chosen given (List.mem_filter.mpr ⟨member, by simpa [same] using other⟩)

/-- The same operands and choices, once for checking and once for writing in place. The
switches may stand anywhere between them. -/
structure Paired (c w : Arguments) : Prop where
  operands : c.operands = w.operands
  checks : c.has checkOption = true
  writes : w.has inPlaceOption = true
  same : c.options.filter (·.option != checkOption) = w.options.filter (·.option != inPlaceOption)
  choices : ∀ given ∈ w.options.filter (·.option != inPlaceOption), given.option ∈ choiceOptions

namespace Paired

theorem values (paired : Paired c w) (unchecked : option ≠ checkOption)
    (unwritten : option ≠ inPlaceOption) : c.values option = w.values option := by
  rw [Arguments.values, Arguments.values, ← Arguments.filter_values unchecked, paired.same,
    Arguments.filter_values unwritten]

theorem settings (paired : Paired c w) : settingsOf c = settingsOf w := by
  rw [settingsOf, settingsOf, Arguments.value?, Arguments.value?,
    paired.values (by decide) (by decide), paired.values (by decide) (by decide),
    paired.values (by decide) (by decide)]

/-- Arguments that are accepted for checking are accepted for writing in place. -/
theorem accepts {operand : Operand} {settings : Settings} (paired : Paired c w)
    (read : Arguments.ofList transformOptions true writing = .ok w)
    (accepted : Accepts checking files c operand settings) :
    Accepts writing files w operand settings := by
  have unaided : w.has helpOption = false :=
    Arguments.lacks paired.choices (by decide) (by decide)
  have unnamed : w.value? outputOption = none :=
    Arguments.value?_eq_none (Arguments.lacks paired.choices (by decide) (by decide))
  have operands := onlyOperand_eq_ok.mp accepted.operands
  rw [paired.operands] at operands
  refine ⟨read, unaided, ?_, onlyOperand_eq_ok.mpr operands, ?_, ?_⟩
  · rw [checkOutput, unnamed]
  · rw [hasOutput, unnamed]
    rfl
  · rw [← paired.settings]
    exact accepted.settings

end Paired

/-- A check that ends with code zero accepted its arguments and found nothing to rewrite. -/
theorem clean_check (read : Arguments.ofList transformOptions true checking = .ok c)
    (checks : c.has checkOption = true) (unaided : c.has helpOption = false)
    (clean : (run (transformName :: checking) files).exitCode = 0) :
    ∃ operand settings source script, Accepts checking files c operand settings ∧
      Files.readText operand.contents = .ok source ∧ Script.parse source = .ok script ∧
        (resultFor settings operand script).changed = false := by
  rcases accepts_or checking files with
    ⟨a, operand, settings, accepted⟩ | ⟨a, again, aided, -⟩ | ⟨error, complained⟩
  · cases read.symm.trans accepted.read
    rw [accepted.run] at clean
    cases loaded : load operand with
    | rejected source error =>
      rw [loaded] at clean
      cases clean
    | fault fault =>
      rw [loaded] at clean
      cases clean
    | script script =>
      obtain ⟨source, read, parsed⟩ := load_eq_script.mp loaded
      obtain ⟨stderr, checked⟩ := transformScript_checked settings operand files script checks
      refine ⟨operand, settings, source, script, accepted, read, parsed, ?_⟩
      rw [loaded, performed, checked] at clean
      cases changed : (resultFor settings operand script).changed with
      | false => rfl
      | true =>
        rw [changed] at clean
        cases clean
  · cases read.symm.trans again
    cases unaided.symm.trans aided
  · rw [complained] at clean
    cases clean

/-- When checking ends with code zero, writing in place stores a file that is read as the
same text, and it keeps the bytes exactly when no carriage return is among them. -/
theorem clean_check_keeps_bytes_iff
    (readChecking : Arguments.ofList transformOptions true checking = .ok c)
    (readWriting : Arguments.ofList transformOptions true writing = .ok w) (paired : Paired c w)
    (clean : (run (transformName :: checking) files).exitCode = 0) :
    ∃ path contents kept, c.operands = [path] ∧ files.find path = .file contents ∧
      (run (transformName :: writing) files).files.find path = .file kept ∧
        Files.readText kept = Files.readText contents ∧ (kept = contents ↔ 13 ∉ contents) := by
  have unaided : c.has helpOption = false :=
    Arguments.lacks (paired.same ▸ paired.choices) (by decide) (by decide)
  obtain ⟨operand, settings, source, script, accepted, read, parsed, unchanged⟩ :=
    clean_check readChecking paired.checks unaided clean
  obtain ⟨single, there⟩ := onlyOperand_eq_ok.mp accepted.operands
  obtain ⟨p, leads, fits, -⟩ := Files.destination_of_find there
  obtain ⟨kept, encoded, again, bytes⟩ := Files.readText_ok read
  have opens : Opens writing files p source := by
    refine ⟨w, operand, settings, source, script, operand.path,
      paired.accepts readWriting accepted, read, parsed,
      Arguments.lacks paired.choices (by decide) (by decide), if_pos paired.writes, leads, ?_, ?_⟩
    · rw [fits]
      exact Files.Found.noConfusion
    · rw [resultFor, Precompiler.code_of_unchanged unchanged]
      exact (Script.parse_derived parsed).1
  refine ⟨operand.path, operand.contents, kept, single, there, ?_, ?_, bytes⟩
  · rw [(opens.written encoded).1]
    exact Files.find_write there leads
  · rw [again, read]

/-- A directory with the file `s.js`, which holds `a;` and ends the line with a carriage
return and a line feed. -/
def returnFiles : Files := ⟨[(text "s.js", [97, 59, 13, 10])], []⟩

/-- The arguments for checking the file, and for writing it in place. -/
def returnChecking : List Text := [text "--check", text "s.js"]

def returnWriting : List Text := [text "--in-place", text "s.js"]

theorem run_return : (run (transformName :: returnChecking) returnFiles).exitCode = 0 ∧
    (run (transformName :: returnWriting) returnFiles).files =
      ⟨[(text "s.js", [97, 59, 10])], []⟩ := by
  decide +kernel

theorem return_paired : Paired ⟨[⟨checkOption, []⟩], [text "s.js"]⟩
    ⟨[⟨inPlaceOption, []⟩], [text "s.js"]⟩ where
  operands := rfl
  checks := by decide
  writes := by decide
  same := by decide
  choices := by decide

theorem clean_check_keeps_bytes_iff_return :
    (run (transformName :: returnChecking) returnFiles).exitCode = 0 ∧
      ∃ path contents kept, [text "s.js"] = [path] ∧ returnFiles.find path = .file contents ∧
        (run (transformName :: returnWriting) returnFiles).files.find path = .file kept ∧
          Files.readText kept = Files.readText contents ∧ (kept = contents ↔ 13 ∉ contents) := by
  have readChecking : Arguments.ofList transformOptions true returnChecking =
      .ok ⟨[⟨checkOption, []⟩], [text "s.js"]⟩ := by decide +kernel
  have readWriting : Arguments.ofList transformOptions true returnWriting =
      .ok ⟨[⟨inPlaceOption, []⟩], [text "s.js"]⟩ := by decide +kernel
  exact ⟨run_return.1,
    clean_check_keeps_bytes_iff readChecking readWriting return_paired run_return.1⟩

/-- Checking finds nothing to rewrite, and still writing in place changes the file. -/
theorem clean_check_changes_bytes :
    (run (transformName :: returnChecking) returnFiles).exitCode = 0 ∧
      (run (transformName :: returnWriting) returnFiles).files.find (text "s.js") ≠
        returnFiles.find (text "s.js") := by
  refine ⟨run_return.1, ?_⟩
  rw [run_return.2]
  decide +kernel

end CommandLine

end StyleSplit
