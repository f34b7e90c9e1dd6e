import StyleSplit.Proofs.Precompile.Safety
import StyleSplit.Proofs.Sheet.Writable

/-! Runs with the standard tools. With the standard naming function and built-in plugins no
call is skipped because of its names or its values: the values that a description calls
static have texts and keep them, and the class names of a run are all different, also those
made for calls that are skipped later on. -/
namespace StyleSplit

open Script

/-- The standard naming function with built-in plugins, any of them any number of times and
in any order; the names to look for and the prefix are free. -/
structure Settings.Standard (s : Settings) : Prop where
  naming : s.naming = Naming.standard
  plugins : ∀ plugin ∈ s.plugins, plugin.IsBuiltin

namespace Precompiler

variable {p : Precompiler} {index k : Nat} {call : Call} {first : Expr} {r : RunState}

/-- Compiling the description of a call fails only for what the description is. -/
theorem compileCall_standard (index : Nat) (first : Expr) (standard : p.compiler.Standard)
    (numbered : r.allocator.Numbered) : (p.compileCall index first r).2.Numbered ∧
      ∀ reason, (p.compileCall index first r).1 = .error reason →
        ∃ error, reason = .malformed error := by
  unfold compileCall
  split
  · exact ⟨numbered, fun reason failed => ⟨_, (Except.error.inj failed).symm⟩⟩
  rename_i found resolved
  split
  · exact ⟨numbered, by simp⟩
  split
  · exact ⟨numbered, fun reason failed => ⟨_, (Except.error.inj failed).symm⟩⟩
  rename_i description classified
  obtain ⟨sheet, next, compiled, numbered⟩ := standard.compileRules (p.compiler.context index)
    (Description.staticRules_writable classified) numbered [] []
  have compiled : p.compiler.compile description.staticRules index r.allocator =
    (.ok sheet, next) := compiled
  simp only [compiled]
  exact ⟨numbered, by simp⟩

/-- A call gets new names or none, and is skipped only for its description, for its options
or for an overlap. -/
theorem step_standard (standard : p.compiler.Standard) (numbered : r.allocator.Numbered) :
    (p.step index call r).2.allocator.Numbered ∧
      ∀ reason, (p.step index call r).1 = .skipped reason →
        (∃ error, reason = .malformed error) ∨ reason = .overlap := by
  unfold step
  split
  · exact ⟨numbered, by simp⟩
  split
  · exact ⟨numbered, by simp⟩
  rename_i first more arguments
  obtain ⟨issued, malformed⟩ := compileCall_standard index first standard numbered
  unfold treat
  split
  · rename_i reason a compiled
    rw [compiled] at issued malformed
    refine ⟨issued, fun reason' skipped => .inl ?_⟩
    exact Outcome.skipped.inj skipped ▸ malformed reason rfl
  rename_i declared shared a compiled
  rw [compiled] at issued
  simp only
  split
  · exact ⟨issued, fun reason skipped => .inl ⟨_, (Outcome.skipped.inj skipped).symm⟩⟩
  · exact ⟨issued, by simp⟩
  · split
    · exact ⟨issued, fun reason skipped => .inr (Outcome.skipped.inj skipped).symm⟩
    · exact ⟨issued, by simp⟩

/-- Before every call the names given out so far are numbered, and so all different. -/
theorem stateAt_numbered (standard : p.compiler.Standard) :
    ∀ k ≤ p.calls.length, (p.stateAt k).allocator.Numbered :=
  stateAt_induct (motive := fun _ r => r.allocator.Numbered) .start
    fun _ _ _ numbered => (step_standard standard numbered).1

/-- The diagnostics of a run come from skipped calls. -/
theorem mem_diagnostics {d : Diagnostic} (member : d ∈ p.result.diagnostics) :
    ∃ (k : Nat) (call : Call) (reason : SkipReason), p.calls[k]? = some call ∧
      (p.step k call (p.stateAt k)).1 = .skipped reason ∧ d.rule = reason.rule := by
  obtain ⟨⟨call, outcome⟩, listed, told⟩ := List.mem_filterMap.mp member
  obtain ⟨k, bound, pair⟩ := List.getElem_of_mem listed
  have calls : p.calls[k]? = some call := by
    have place := congrArg Prod.fst pair
    rw [List.getElem_zip] at place
    exact List.getElem?_eq_some_iff.mpr ⟨_, place⟩
  have became : p.outcomes[k]? = some outcome := by
    have place := congrArg Prod.snd pair
    rw [List.getElem_zip] at place
    exact List.getElem?_eq_some_iff.mpr ⟨_, place⟩
  cases outcome with
  | skipped reason =>
    exact ⟨k, call, reason, calls, outcome_eq calls became,
      (congrArg Diagnostic.rule (Option.some.inj told)).symm⟩
  | noop | unchanged | rewritten => cases told

end Precompiler

/-- With the standard tools a run says nothing but that a style description is malformed or
that a call overlaps one that was rewritten, and its class names are all different. -/
theorem precompile_standard {settings : Settings} {filename source : Text} {script : Script}
    (standard : settings.Standard) (parsed : Script.parse source = .ok script) :
    let p := Precompiler.ofScript settings filename script
    precompile settings filename source = .ok p.result ∧
      (∀ d ∈ p.result.diagnostics,
        d.rule = text "malformed-style" ∨ d.rule = text "overlapping-rewrite") ∧
      ((p.stateAt p.calls.length).allocator.issued.map Prod.snd).Nodup := by
  intro p
  have tools : p.compiler.Standard := ⟨standard.naming, standard.plugins⟩
  have numbered := p.stateAt_numbered tools
  refine ⟨bind_eq_ok.mpr ⟨script, parsed, rfl⟩, ?_, (numbered _ (Nat.le_refl _)).distinct⟩
  intro d member
  obtain ⟨k, call, reason, found, skipped, same⟩ := Precompiler.mem_diagnostics member
  have before := numbered k (Nat.le_of_lt (List.getElem?_eq_some_iff.mp found).1)
  rw [same]
  obtain ⟨error, rfl⟩ | rfl := (Precompiler.step_standard tools before).2 reason skipped
  · exact .inl rfl
  · exact .inr rfl

/-- Both built-in plugins, one of them twice, behind a prefix with a hyphen. -/
def hyphenatedSettings : Settings where
  names := [text "f"]
  naming := Naming.standard
  plugins := [.hyphenateNames, .defaultUnit, .hyphenateNames]
  classPrefix := some (text "a-")

theorem hyphenatedSettings_standard : hyphenatedSettings.Standard where
  naming := rfl
  plugins := by
    intro plugin member
    simp only [hyphenatedSettings, List.mem_cons, List.not_mem_nil, or_false] at member
    obtain rfl | rfl | rfl := member
    · exact ⟨text "hyphenate", rfl⟩
    · exact ⟨text "default-unit", rfl⟩
    · exact ⟨text "hyphenate", rfl⟩

/-- The script `f({a:{b:1}});f({a:{b:1}});f({a:{b:1}},{classes:1})`, whose last call is
skipped after a class name was made for it. -/
def skippingSource : Text :=
  text "f(\x7ba:\x7bb:1\x7d\x7d);f(\x7ba:\x7bb:1\x7d\x7d);f(\x7ba:\x7bb:1\x7d\x7d,\x7bclasses:1\x7d)"

theorem precompile_standard_skipping : ∃ script, Script.parse skippingSource = .ok script ∧
    let p := Precompiler.ofScript hyphenatedSettings [] script
    p.result.rewritten = 2 ∧ p.result.diagnostics.length = 1 ∧
      (p.stateAt p.calls.length).allocator.issued.length = 3 ∧
      precompile hyphenatedSettings [] skippingSource = .ok p.result ∧
      (∀ d ∈ p.result.diagnostics,
        d.rule = text "malformed-style" ∨ d.rule = text "overlapping-rewrite") ∧
      ((p.stateAt p.calls.length).allocator.issued.map Prod.snd).Nodup := by
  have checked : (Script.parse skippingSource).toOption.any (fun script =>
      let p := Precompiler.ofScript hyphenatedSettings [] script
      p.result.rewritten == 2 && p.result.diagnostics.length == 1 &&
        (p.stateAt p.calls.length).allocator.issued.length == 3) = true := by
    decide +kernel
  obtain ⟨script, parsed, counts⟩ := Script.exists_of_any checked
  simp only [Bool.and_eq_true, beq_iff_eq] at counts
  obtain ⟨⟨rewritten, told⟩, issued⟩ := counts
  exact ⟨script, parsed, rewritten, told, issued,
    precompile_standard hyphenatedSettings_standard parsed⟩

end StyleSplit
