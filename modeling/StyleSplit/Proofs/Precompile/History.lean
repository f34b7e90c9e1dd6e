import StyleSplit.Precompile.Run

/-! The history of a run: the state before every call, and what one call can do to it.
A call is rewritten, with its edits accepted, or it changes nothing but the allocator. -/
namespace StyleSplit

open Script

namespace Precompiler

/-- The state behind some calls, the first of them at the place `index`. -/
def after (p : Precompiler) : Nat → List Call → RunState → RunState
  | _, [], r => r
  | index, call :: rest, r => after p (index + 1) rest (p.step index call r).2

/-- The state before the call at a place. -/
def stateAt (p : Precompiler) (k : Nat) : RunState := p.after 0 (p.calls.take k) .start

variable {p : Precompiler} {index k : Nat} {call : Call} {first : Expr} {r : RunState}

theorem after_append (front back : List Call) :
    p.after index (front ++ back) r = p.after (index + front.length) back (p.after index front r) := by
  induction front generalizing index r with
  | nil => rfl
  | cons call rest ih => simp only [List.cons_append, after, ih, List.length_cons]; congr 1; omega

theorem stateAt_succ (found : p.calls[k]? = some call) :
    p.stateAt (k + 1) = (p.step k call (p.stateAt k)).2 := by
  obtain ⟨bound, _⟩ := List.getElem?_eq_some_iff.mp found
  have length : (p.calls.take k).length = k := by simp; omega
  rw [stateAt, List.take_add_one, found, after_append, length, Nat.zero_add]
  rfl

theorem outcomesFrom_getElem? (calls : List Call) (index k : Nat) (r : RunState) :
    (p.outcomesFrom index calls r)[k]? = (calls[k]?).map fun call =>
      (p.step (index + k) call (p.after index (calls.take k) r)).1 := by
  induction calls generalizing index k r with
  | nil => rfl
  | cons call rest ih =>
    cases k with
    | zero => rfl
    | succ k =>
      simp only [outcomesFrom, List.getElem?_cons_succ, ih, List.take_succ_cons, after]
      rw [Nat.add_right_comm, Nat.add_assoc]

theorem outcomesFrom_length (calls : List Call) (index : Nat) (r : RunState) :
    (p.outcomesFrom index calls r).length = calls.length := by
  induction calls generalizing index r with
  | nil => rfl
  | cons call rest ih => simp [outcomesFrom, ih]

theorem outcomes_length : p.outcomes.length = p.calls.length := outcomesFrom_length _ _ _

/-- What becomes of a call is decided in the state before it. -/
theorem outcomes_getElem? :
    p.outcomes[k]? = (p.calls[k]?).map fun call => (p.step k call (p.stateAt k)).1 := by
  have all := p.outcomesFrom_getElem? p.calls 0 k .start
  rwa [Nat.zero_add] at all

/-- What holds at first and is kept by every step holds before every call. -/
theorem stateAt_induct {motive : Nat → RunState → Prop} (start : motive 0 .start)
    (step : ∀ k call, p.calls[k]? = some call → motive k (p.stateAt k) →
      motive (k + 1) (p.step k call (p.stateAt k)).2) :
    ∀ k ≤ p.calls.length, motive k (p.stateAt k) := by
  intro k bound
  induction k with
  | zero => exact start
  | succ k ih =>
    have found : p.calls[k]? = some p.calls[k] := List.getElem?_eq_getElem bound
    rw [stateAt_succ found]
    exact step k _ found (ih (by omega))

/-- How a call comes to be rewritten: the description of its first argument is compiled,
or was compiled for an earlier call that refers to the same declaration, and its edits
overlap no accepted one. -/
structure Rewrites (p : Precompiler) (index : Nat) (call : Call) (r : RunState)
    (first : Expr) (edits : List Edit) (declared : Declared) (shared : Bool) (a : Allocator) :
    Prop where
  live : call.isNoop = false
  arguments : ∃ more, call.arguments = first :: more
  compiled : p.compileCall index first r = (.ok (declared, shared), a)
  rewritten : call.rewrite p.script declared.description declared.sheet (!shared) = .ok edits
  some : edits ≠ []
  apart : r.overlaps edits = false

/-- The state behind a call that is rewritten. -/
def accept (r : RunState) (first : Expr) (edits : List Edit) (declared : Declared)
    (a : Allocator) : RunState :=
  { allocator := a
    accepted := r.accepted ++ edits
    declared := if Call.isInline first then r.declared else declared :: r.declared }

theorem step_of_rewrites {edits : List Edit} {declared : Declared} {shared : Bool}
    {a : Allocator} (rewrites : Rewrites p index call r first edits declared shared a) :
    p.step index call r = (.rewritten edits declared.sheet, accept r first edits declared a) := by
  obtain ⟨live, ⟨more, arguments⟩, compiled, rewritten, some, apart⟩ := rewrites
  have clear : RunState.overlaps { r with allocator := a } edits = false := apart
  cases edits with
  | nil => contradiction
  | cons e rest => simp [step, live, arguments, treat, compiled, rewritten, clear, accept]

/-- A call is rewritten or changes nothing but the allocator. -/
theorem step_cases (p : Precompiler) (index : Nat) (call : Call) (r : RunState) :
    (∃ first edits declared shared a, Rewrites p index call r first edits declared shared a) ∨
      (p.step index call r).1.isRewritten = false ∧
        ∃ a, (p.step index call r).2 = { r with allocator := a } := by
  unfold step
  split
  · exact .inr ⟨rfl, r.allocator, rfl⟩
  rename_i live
  split
  · exact .inr ⟨rfl, r.allocator, rfl⟩
  rename_i first more arguments
  unfold treat
  split
  · exact .inr ⟨rfl, _, rfl⟩
  rename_i declared shared a compiled
  simp only
  split
  · exact .inr ⟨rfl, _, rfl⟩
  · exact .inr ⟨rfl, _, rfl⟩
  · rename_i edits some rewritten
    split
    · exact .inr ⟨rfl, _, rfl⟩
    · rename_i apart
      exact .inl ⟨first, edits, declared, shared, a, by simpa using live, ⟨more, arguments⟩,
        compiled, rewritten, some, Bool.eq_false_iff.mpr apart⟩

/-- The description behind a reference is compiled once. -/
theorem compileCall_ok {declared : Declared} {shared : Bool} {a : Allocator}
    (compiled : p.compileCall index first r = (.ok (declared, shared), a)) :
    ∃ found, p.table.findMapping first = .ok found ∧
      (shared = true ∧ r.find? found.span = some declared ∨
        shared = false ∧ r.find? found.span = none ∧
          p.table.classify found.span found.entries = .ok declared.description ∧
          p.compiler.compile declared.description.staticRules index r.allocator =
            (.ok declared.sheet, a)) := by
  unfold compileCall at compiled
  split at compiled
  · cases compiled
  rename_i found resolved
  refine ⟨found, resolved, ?_⟩
  split at compiled
  · rename_i earlier
    cases compiled
    exact .inl ⟨rfl, earlier⟩
  rename_i earlier
  split at compiled
  · cases compiled
  rename_i description classified
  split at compiled
  · cases compiled
  · cases compiled
  · rename_i sheet a' made
    cases compiled
    exact .inr ⟨rfl, earlier, classified, made⟩

end Precompiler

namespace Call

variable {s : Script} {c : Call} {description : Description} {sheet : Sheet}
  {edits : List Edit} {rewriteDeclaration : Bool}

/-- The rewritten arguments of a call: the first one, the options, and the others. -/
def argumentsText (first options : Text) (rest : List Text) : Text :=
  text "(" ++ Text.join (text ", ") (first :: options :: rest) ++ text ")"

/-- A call without classes is left as it is; any other one gets new arguments and, the
first time, a new declaration of what its first argument refers to. -/
theorem rewrite_ok (rewritten : c.rewrite s description sheet rewriteDeclaration = .ok edits) :
    edits = [] ∧ (sheet.isEmpty = true ∨ c.arguments = []) ∨
      sheet.isEmpty = false ∧ ∃ first more firstText options declaration,
        c.arguments = first :: more ∧
        optionsText s more.head? sheet (s.source.lineIndent c.argumentsSpan.start) = .ok options ∧
        edits = declaration ++ [⟨c.argumentsSpan, argumentsText firstText options
          (more.tail.map fun e => s.textAt e.span)⟩] ∧
        (isInline first = true ∨ rewriteDeclaration = false → declaration = []) ∧
        (isInline first = false → rewriteDeclaration = true →
          ∃ text, declaration = [⟨description.span, text⟩]) := by
  unfold rewrite at rewritten
  split at rewritten
  · rename_i empty
    cases rewritten
    exact .inl ⟨rfl, .inl empty⟩
  rename_i some
  split at rewritten
  · rename_i none
    cases rewritten
    exact .inl ⟨rfl, .inr none⟩
  rename_i first more arguments
  cases made : optionsText s more.head? sheet (s.source.lineIndent c.argumentsSpan.start) with
  | error e =>
    simp only [made] at rewritten
    cases rewritten
  | ok options =>
    simp only [made] at rewritten
    cases rewritten
    refine .inr ⟨by simpa using some, first, more, _, options, _, arguments, made, rfl, ?_, ?_⟩
    · intro inline
      have skip : (isInline first || !rewriteDeclaration) = true := by simpa using inline
      simp [skip]
    · intro reference declare
      have rewrite : (isInline first || !rewriteDeclaration) = false := by simp [reference, declare]
      simp [rewrite]

/-- A call that shares a declaration only gets new arguments. -/
theorem rewrite_shared {first : Expr} {more : List Expr} {options : Text}
    (description : Description) (some : sheet.isEmpty = false) (arguments : c.arguments = first :: more)
    (made : optionsText s more.head? sheet (s.source.lineIndent c.argumentsSpan.start) =
      .ok options) :
    ∃ firstText, c.rewrite s description sheet false =
      .ok [⟨c.argumentsSpan, argumentsText firstText options
        (more.tail.map fun e => s.textAt e.span)⟩] := by
  simp only [rewrite, some, arguments, made, Bool.not_false, Bool.or_true]
  exact ⟨_, rfl⟩

end Call

end StyleSplit
