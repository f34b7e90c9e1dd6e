import StyleSplit.CommandLine.Program
import StyleSplit.Proofs.CommandLine.Storing
import StyleSplit.Proofs.Script.Extents

/-! Runs of the command that precompiles a file. Its arguments are refused, or they name a
file and settings; then everything depends on what the file holds. Files change only when a
run comes as far as opening one for its result, and then that file alone. -/
namespace StyleSplit.CommandLine

open Script

variable {arguments : List Text} {files : Files} {a b : Arguments} {operand other : Operand}
  {settings : Settings} {completed : Completed} {path t : Text} {p q : Place}

theorem run_transform (arguments : List Text) (files : Files) :
    run (transformName :: arguments) files =
      runCommand transformHelp transformOptions runTransform arguments files := rfl

/-- Arguments that are accepted: they can be read, none of them asks for help, and they
name no directory for output, one script file, one target and settings without mistakes. -/
structure Accepts (arguments : List Text) (files : Files) (a : Arguments) (operand : Operand)
    (settings : Settings) : Prop where
  read : Arguments.ofList transformOptions true arguments = .ok a
  unaided : a.has helpOption = false
  outputs : checkOutput files a = .ok ()
  operands : onlyOperand files a = .ok operand
  target : (hasOutput a && a.has inPlaceOption) = false
  settings : settingsOf a = .ok settings

/-- What accepted arguments come to, by what the operand holds. -/
def performed (a : Arguments) (settings : Settings) (operand : Operand) (files : Files) :
    Loaded → Completed
  | .script script => transformScript a settings operand files script
  | .rejected source error => rejection source error files
  | .fault fault => { ending := .fault fault, stdout := [], stderr := [], files }

theorem runTransform_eq_ok : runTransform a files = .ok completed ↔
    ∃ operand settings, checkOutput files a = .ok () ∧ onlyOperand files a = .ok operand ∧
      (hasOutput a && a.has inPlaceOption) = false ∧ settingsOf a = .ok settings ∧
        completed = performed a settings operand files (load operand) := by
  have last (operand : Operand) (settings : Settings) :
      (match load operand with
        | .script script => transformScript a settings operand files script
        | .rejected source error => rejection source error files
        | .fault fault => { ending := .fault fault, stdout := [], stderr := [], files }) =
      performed a settings operand files (load operand) := by
    cases load operand <;> rfl
  constructor
  · intro ran
    obtain ⟨⟨⟩, outputs, ran⟩ := bind_eq_ok.mp ran
    obtain ⟨operand, operands, ran⟩ := bind_eq_ok.mp ran
    dsimp only at ran
    split at ran
    · cases ran
    · rename_i single
      obtain ⟨settings, chosen, ran⟩ := bind_eq_ok.mp ran
      cases ran
      exact ⟨operand, settings, outputs, operands, by simpa using single, chosen, last ..⟩
  · rintro ⟨operand, settings, outputs, operands, single, chosen, rfl⟩
    rw [runTransform, outputs, operands, chosen, single, ← last]
    rfl

/-- The run of accepted arguments. -/
theorem Accepts.run (accepted : Accepts arguments files a operand settings) :
    run (transformName :: arguments) files =
      performed a settings operand files (load operand) := by
  have ran := runTransform_eq_ok.mpr ⟨operand, settings, accepted.outputs, accepted.operands,
    accepted.target, accepted.settings, rfl⟩
  rw [run_transform, runCommand, accepted.read]
  simp only [bind, Except.bind, accepted.unaided, Bool.false_eq_true, if_false, ran]

/-- Arguments are accepted, or the run shows help or complains. -/
theorem accepts_or (arguments : List Text) (files : Files) :
    (∃ a operand settings, Accepts arguments files a operand settings) ∨
      (∃ a, Arguments.ofList transformOptions true arguments = .ok a ∧ a.has helpOption = true ∧
        run (transformName :: arguments) files = say transformHelp.shown files) ∨
          ∃ error, run (transformName :: arguments) files =
            complain transformHelp error files := by
  rw [run_transform, runCommand]
  cases read : Arguments.ofList transformOptions true arguments with
  | error error => exact .inr (.inr ⟨error, rfl⟩)
  | ok a =>
    cases aided : a.has helpOption with
    | true =>
      simp only [bind, Except.bind, aided, if_true]
      exact .inr (.inl ⟨a, rfl, aided, rfl⟩)
    | false =>
      simp only [bind, Except.bind, aided, Bool.false_eq_true, if_false]
      cases ran : runTransform a files with
      | error error => exact .inr (.inr ⟨error, rfl⟩)
      | ok completed =>
        obtain ⟨operand, settings, outputs, operands, target, chosen, -⟩ :=
          runTransform_eq_ok.mp ran
        exact .inl ⟨a, operand, settings, read, aided, outputs, operands, target, chosen⟩

/-- Arguments are accepted in one way. -/
theorem Accepts.unique {others : Settings} (accepted : Accepts arguments files a operand settings)
    (again : Accepts arguments files b other others) :
    a = b ∧ operand = other ∧ settings = others := by
  cases accepted.read.symm.trans again.read
  cases accepted.operands.symm.trans again.operands
  cases accepted.settings.symm.trans again.settings
  exact ⟨rfl, rfl, rfl⟩

theorem onlyOperand_eq_ok : onlyOperand files a = .ok operand ↔
    a.operands = [operand.path] ∧ files.find operand.path = .file operand.contents := by
  rw [onlyOperand]
  split
  · rename_i none
    simp [none]
  · rename_i path more given
    rw [given, bind_eq_ok]
    constructor
    · rintro ⟨found, here, single⟩
      rw [findOperand] at here
      split at here
      · rename_i contents there
        cases here
        split at single
        · rename_i alone
          cases single
          rw [List.isEmpty_iff.mp alone]
          exact ⟨rfl, there⟩
        · cases single
      · cases here
      · cases here
    · rintro ⟨single, there⟩
      cases single
      exact ⟨operand, by rw [findOperand, there], rfl⟩

theorem load_eq_script {operand : Operand} {s : Script} : load operand = .script s ↔
    ∃ source, Files.readText operand.contents = .ok source ∧ Script.parse source = .ok s := by
  rw [load]
  split
  · rename_i fault unread
    simp [unread]
  · rename_i source read
    rw [read]
    cases parsed : Script.parse source <;> simp [parsed]

/-- The result for a script file under the name of its operand. -/
def resultFor (settings : Settings) (operand : Operand) (script : Script) : Result :=
  (Precompiler.ofScript settings (Path.lastName operand.path) script).result

/-- Checking leaves all files alone and tells by its code whether the result differs. -/
theorem transformScript_checked (settings : Settings) (operand : Operand) (files : Files)
    (script : Script) (checks : a.has checkOption = true) :
    ∃ stderr, transformScript a settings operand files script =
      { ending := .exit (if (resultFor settings operand script).changed then 1 else 0),
        stdout := [], stderr, files } := by
  rw [transformScript, if_pos checks]
  cases changed : (resultFor settings operand script).changed with
  | true => exact ⟨_, if_pos changed⟩
  | false => exact ⟨_, if_neg (Bool.eq_false_iff.mp changed)⟩

theorem transformScript_unchecked (settings : Settings) (operand : Operand) (files : Files)
    (script : Script) (unchecked : a.has checkOption = false) :
    ∃ stderr, transformScript a settings operand files script =
      deliver (targetOf a operand) (resultFor settings operand script) stderr files := by
  rw [transformScript, if_neg (by simp [unchecked])]
  exact ⟨_, rfl⟩

/-- A run that comes as far as opening a file: the place of the file, and the text for it. -/
def Opens (arguments : List Text) (files : Files) (p : Place) (t : Text) : Prop :=
  ∃ a operand settings source script path, Accepts arguments files a operand settings ∧
    Files.readText operand.contents = .ok source ∧ Script.parse source = .ok script ∧
      a.has checkOption = false ∧ targetOf a operand = .file path ∧
        files.destination path = .ok p ∧ files.foundAt p ≠ .directory ∧
          (resultFor settings operand script).code = t

/-- The run of accepted arguments is a delivery when nothing but the delivery is left. -/
theorem Opens.delivers (opens : Opens arguments files p t) :
    ∃ path r stderr, run (transformName :: arguments) files = deliver (.file path) r stderr files ∧
      files.destination path = .ok p ∧ files.foundAt p ≠ .directory ∧ r.code = t := by
  obtain ⟨a, operand, settings, source, script, path, accepted, read, parsed, unchecked, target,
    leads, fits, same⟩ := opens
  obtain ⟨stderr, delivered⟩ := transformScript_unchecked settings operand files script unchecked
  refine ⟨path, resultFor settings operand script, stderr, ?_, leads, fits, same⟩
  rw [accepted.run, load_eq_script.mpr ⟨source, read, parsed⟩, performed, delivered, target]

/-- A text with a UTF-8 form is all that a run writes. -/
theorem Opens.written {contents : Bytes} (opens : Opens arguments files p t)
    (encoded : t.encode? = some contents) :
    (run (transformName :: arguments) files).files = files.write p contents ∧
      ∃ code, (run (transformName :: arguments) files).ending = .exit code := by
  obtain ⟨path, r, stderr, ran, leads, fits, rfl⟩ := opens.delivers
  rw [ran, deliver, Files.writeText_encoded leads fits encoded]
  exact ⟨rfl, _, rfl⟩

/-- For a text without a UTF-8 form a run empties the file that it opened. -/
theorem Opens.lost (opens : Opens arguments files p t) (unencodable : t.encode? = none) :
    (run (transformName :: arguments) files).files = files.write p [] ∧
      (run (transformName :: arguments) files).ending = .fault .unencodable := by
  obtain ⟨path, r, stderr, ran, leads, fits, rfl⟩ := opens.delivers
  rw [ran, deliver, Files.writeText_unencodable leads fits unencodable]
  exact ⟨rfl, rfl⟩

/-- A run opens one file, for one text. -/
theorem Opens.unique {u : Text} (opens : Opens arguments files p t)
    (again : Opens arguments files q u) : p = q ∧ t = u := by
  obtain ⟨a, operand, settings, source, script, path, accepted, read, parsed, -, target, leads, -,
    rfl⟩ := opens
  obtain ⟨b, other, others, text, found, way, agreed, reread, reparsed, -, aimed, led, -, rfl⟩ :=
    again
  obtain ⟨rfl, rfl, rfl⟩ := accepted.unique agreed
  cases read.symm.trans reread
  cases parsed.symm.trans reparsed
  cases target.symm.trans aimed
  cases leads.symm.trans led
  exact ⟨rfl, rfl⟩

/-- A run that opens no file leaves all files alone. -/
theorem files_kept (closed : ∀ p t, ¬Opens arguments files p t) :
    (run (transformName :: arguments) files).files = files := by
  rcases accepts_or arguments files with
    ⟨a, operand, settings, accepted⟩ | ⟨a, -, -, helped⟩ | ⟨error, complained⟩
  · rw [accepted.run]
    cases loaded : load operand with
    | rejected _ _ => rfl
    | fault fault => rfl
    | script script =>
      obtain ⟨source, read, parsed⟩ := load_eq_script.mp loaded
      rw [performed]
      cases checks : a.has checkOption with
      | true =>
        obtain ⟨stderr, checked⟩ := transformScript_checked settings operand files script checks
        rw [checked]
      | false =>
        obtain ⟨stderr, delivered⟩ := transformScript_unchecked settings operand files script checks
        rw [delivered]
        cases target : targetOf a operand with
        | stdout =>
          rw [deliver]
          split <;> rfl
        | file path =>
          have shut : ∀ p, files.destination path = .ok p → files.foundAt p = .directory := by
            intro p leads
            refine Decidable.byContradiction fun fits =>
              closed p (resultFor settings operand script).code ?_
            exact ⟨a, operand, settings, source, script, path, accepted, read, parsed, checks,
              target, leads, fits, rfl⟩
          obtain ⟨fault, kept⟩ :=
            Files.writeText_kept (t := (resultFor settings operand script).code) shut
          rw [deliver, kept]
  · rw [helped]
    rfl
  · rw [complained]
    rfl

end StyleSplit.CommandLine
