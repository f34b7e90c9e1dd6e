import StyleSplit.Proofs.CommandLine.Running

/-! What a failing run leaves behind. A run fails with a complaint about its arguments, with
a fault of a file or of the output, or because the file holds no script. All of this but one
is known before a file is opened: whether the result has a UTF-8 form shows only when it is
written, and by then the file is empty. -/
namespace StyleSplit.CommandLine

variable {arguments : List Text} {files : Files}

/-- Runs that fail. A diagnostic about a call is no failure: the result is written. -/
inductive Fails (arguments : List Text) (files : Files) : Prop where
  | usage (error : UsageError)
      (ended : (run (transformName :: arguments) files).ending = .usage error)
  | fault (fault : Files.Fault)
      (ended : (run (transformName :: arguments) files).ending = .fault fault)
  | parse (a : Arguments) (operand : Operand) (settings : Settings) (source : Text)
      (error : ParseError) (accepted : Accepts arguments files a operand settings)
      (read : Files.readText operand.contents = .ok source)
      (rejected : Script.parse source = .error error)

/-- A run that opened a file fails only when the text for it has no UTF-8 form. -/
theorem Fails.unencodable {p : Place} {t : Text} (fails : Fails arguments files)
    (opens : Opens arguments files p t) : t.encode? = none := by
  cases encoded : t.encode? with
  | none => rfl
  | some contents =>
    obtain ⟨-, code, exits⟩ := opens.written encoded
    cases fails with
    | usage error ended => cases exits.symm.trans ended
    | fault fault ended => cases exits.symm.trans ended
    | parse a operand settings source error accepted read rejected =>
      obtain ⟨b, other, others, again, script, path, agreed, reread, parsed, -⟩ := opens
      obtain ⟨-, rfl, -⟩ := accepted.unique agreed
      cases read.symm.trans reread
      cases rejected.symm.trans parsed

/-- A failing run leaves all files as they were exactly when it opens none or an empty one.
The text for an opened file then has no UTF-8 form, and the file is left empty. -/
theorem failing_run_keeps_files_iff (fails : Fails arguments files) :
    ((run (transformName :: arguments) files).files = files ↔
      ∀ p t, Opens arguments files p t → files.foundAt p = .file []) ∧
    ∀ p t, Opens arguments files p t → t.encode? = none ∧
      (run (transformName :: arguments) files).files = files.write p [] := by
  have emptied (p : Place) (t : Text) (opens : Opens arguments files p t) : t.encode? = none ∧
      (run (transformName :: arguments) files).files = files.write p [] :=
    ⟨fails.unencodable opens, (opens.lost (fails.unencodable opens)).1⟩
  refine ⟨⟨?_, ?_⟩, emptied⟩
  · intro kept p t opens
    exact Files.write_eq_self.mp ((emptied p t opens).2.symm.trans kept)
  · intro idle
    rcases Classical.em (∃ p t, Opens arguments files p t) with ⟨p, t, opens⟩ | closed
    · rw [(emptied p t opens).2]
      exact Files.write_eq_self.mpr (idle p t opens)
    · exact files_kept fun p t opens => closed ⟨p, t, opens⟩

/-- A directory with the file `s.js`, which holds `f({a:{b:'\ud800'}})`: half of a
surrogate pair stands for the value. -/
def surrogateFiles : Files :=
  ⟨[(text "s.js", (text "f(\x7ba:\x7bb:'\\ud800'\x7d\x7d)").map UInt8.ofNat)], []⟩

/-- Precompiling the file in place. -/
def surrogateArguments : List Text :=
  [text "--in-place", text "-i", text "f", text "s.js"]

theorem run_surrogate : run (transformName :: surrogateArguments) surrogateFiles =
    { ending := .fault .unencodable, stdout := [], stderr := [],
      files := ⟨[(text "s.js", [])], []⟩ } := by
  decide +kernel

theorem failing_run_keeps_files_iff_surrogate : Fails surrogateArguments surrogateFiles ∧
    ((run (transformName :: surrogateArguments) surrogateFiles).files = surrogateFiles ↔
      ∀ p t, Opens surrogateArguments surrogateFiles p t →
        surrogateFiles.foundAt p = .file []) := by
  have fails : Fails surrogateArguments surrogateFiles :=
    .fault .unencodable (by rw [run_surrogate])
  exact ⟨fails, (failing_run_keeps_files_iff fails).1⟩

/-- A failing run that destroys the file. -/
theorem failing_run_empties_file : Fails surrogateArguments surrogateFiles ∧
    (run (transformName :: surrogateArguments) surrogateFiles).files ≠ surrogateFiles := by
  refine ⟨.fault .unencodable (by rw [run_surrogate]), ?_⟩
  rw [run_surrogate]
  decide

end StyleSplit.CommandLine
