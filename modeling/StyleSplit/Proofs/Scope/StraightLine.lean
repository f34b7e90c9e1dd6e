import StyleSplit.Proofs.Scope.Declaring
import StyleSplit.Proofs.Script.Laying
import StyleSplit.Scope.Folding

/-! Straight-line scripts and what running them gives. Such a script gives one name after
the other a value, made of literals, names, arrays and objects, and ends in a call with one
argument. A run goes through the statements in order with the values of the names so far; it
knows nothing of names that have no value yet. -/
namespace StyleSplit

namespace Script

mutual

/-- An expression made of literals, names, arrays and objects without spreads. -/
def Expr.isPlain : Expr → Bool
  | .literal .. | .identifier .. => true
  | .list _ items => plainItems items
  | .mapping _ entries => plainEntries entries
  | .function .. | .call .. | .other .. => false

/-- An entry with a plain value behind a literal or a plain expression in brackets. -/
def Entry.isPlain : Entry → Bool
  | .mk _ (some key) value true _ => key.isPlain && value.isPlain
  | .mk _ (some (.literal ..)) value false _ => value.isPlain
  | _ => false

def plainItems : List Expr → Bool
  | [] => true
  | e :: rest => e.isPlain && plainItems rest

def plainEntries : List Entry → Bool
  | [] => true
  | e :: rest => e.isPlain && plainEntries rest

end

end Script

open Script

/-- Why a run does not know a value: a name has none yet, a key in brackets is neither a
text nor a number, or the expression is not of a straight line. -/
inductive Unknown where
  | unbound (name : Text)
  | key (value : Value)
  | foreign

/-- The values of names in a run, the latest first. -/
abbrev Environment := List (Text × Except Unknown Value)

namespace Environment

def get (env : Environment) (name : Text) : Except Unknown Value :=
  match env.find? (·.1 == name) with
  | some (_, value) => value
  | none => .error (.unbound name)

/-- The name that a value gives as a key. -/
def keyOf : Value → Except Unknown Text
  | .scalar (.text name) => .ok name
  | .scalar (.number n) => .ok n.written
  | value => .error (.key value)

mutual

def value (env : Environment) : Expr → Except Unknown Value
  | .literal _ value => .ok (.scalar value)
  | .identifier _ name => env.get name
  | .list _ items => do return .list (← values env items)
  | .mapping _ entries => do return .record (collectEntries (← pairs env entries))
  | .function .. | .call .. | .other .. => .error .foreign

def pair (env : Environment) : Entry → Except Unknown (Text × Value)
  | .mk _ (some key) e _ _ => do
    let name ← keyOf (← value env key)
    return (name, ← value env e)
  | .mk _ none _ _ _ => .error .foreign

def values (env : Environment) : List Expr → Except Unknown (List Value)
  | [] => .ok []
  | e :: rest => do return (← value env e) :: (← values env rest)

def pairs (env : Environment) : List Entry → Except Unknown Properties
  | [] => .ok []
  | e :: rest => do return (← pair env e) :: (← pairs env rest)

end

end Environment

/-- A statement of a straight line: the declaration of a name, or an assignment to one. -/
inductive Step where
  | declare (kind : VariableKind) (place : Span) (name : Text) (init : Expr)
  | assign (name : Text) (value : Expr)

namespace Step

def name : Step → Text
  | declare _ _ name _ | assign name _ => name

def value : Step → Expr
  | declare _ _ _ init => init
  | assign _ value => value

def binding? : Step → Option Binding
  | declare kind place name init =>
    some { name, kind := ScopeDraft.bindingKind kind, init := some init, span := place }
  | assign .. => none

def assigned? : Step → Option Text
  | declare .. => none
  | assign name _ => some name

/-- The values of names behind a step. -/
def run (env : Environment) (step : Step) : Environment :=
  (step.name, env.value step.value) :: env

theorem get_run (env : Environment) (step : Step) (name : Text) : (step.run env).get name =
    if step.name = name then env.value step.value else env.get name := by
  by_cases same : step.name = name <;> simp [run, Environment.get, same]

/-- What a statement does, if it is one of a straight line. -/
def ofStmt? : Stmt → Option Step
  | .declaration _ kind [.mk place [name] (some init) false] =>
    if kind != .parameter && init.isPlain then some (.declare kind place name init) else none
  | .expression _ (.other _ [.expr (.identifier _ name), .expr e] [target] none) =>
    if name == target && e.isPlain then some (.assign name e) else none
  | _ => none

theorem ofStmt?_eq_some {s : Stmt} {step : Step} (reads : ofStmt? s = some step) :
    step.value.isPlain = true ∧
      ((∃ span kind place name init, kind ≠ .parameter ∧ step = .declare kind place name init ∧
          s = .declaration span kind [.mk place [name] (some init) false]) ∨
        ∃ span place target name e, step = .assign name e ∧
          s = .expression span
            (.other place [.expr (.identifier target name), .expr e] [name] none)) := by
  unfold ofStmt? at reads
  split at reads
  · split at reads
    · rename_i shape
      simp only [Bool.and_eq_true, bne_iff_ne] at shape
      cases reads
      exact ⟨shape.2, .inl ⟨_, _, _, _, _, shape.1, rfl, rfl⟩⟩
    · cases reads
  · split at reads
    · rename_i shape
      simp only [Bool.and_eq_true, beq_iff_eq] at shape
      obtain ⟨rfl, plain⟩ := shape
      cases reads
      exact ⟨plain, .inr ⟨_, _, _, _, _, rfl, rfl⟩⟩
    · cases reads
  · cases reads

end Step

/-- A straight-line script: its statements, and the argument of the call at its end. -/
structure StraightLine where
  steps : List Step
  argument : Expr

namespace StraightLine

/-- The argument of a call of a function by its name. -/
def argument? : Stmt → Option Expr
  | .expression _ (.call _ (.identifier ..) [e] _ _) => if e.isPlain then some e else none
  | _ => none

theorem argument?_eq_some {s : Stmt} {e : Expr} (reads : argument? s = some e) :
    e.isPlain = true ∧ ∃ span place at_ name argumentsSpan calleeName,
      s = .expression span (.call place (.identifier at_ name) [e] argumentsSpan calleeName) := by
  unfold argument? at reads
  split at reads
  · split at reads
    · rename_i plain
      cases reads
      exact ⟨plain, _, _, _, _, _, _, rfl⟩
    · cases reads
  · cases reads

/-- Reads the statements of a script as a straight line. -/
def ofBody? : List Stmt → Option StraightLine
  | [] => none
  | [last] => do return ⟨[], ← argument? last⟩
  | first :: rest => do
    let step ← Step.ofStmt? first
    let line ← ofBody? rest
    return { line with steps := step :: line.steps }

/-- The values of names behind some steps. -/
def environment (steps : List Step) : Environment := steps.foldl Step.run []

/-- What a run gives the call at the end. -/
def run (line : StraightLine) : Except Unknown Value :=
  (environment line.steps).value line.argument

/-- No name is declared twice or assigned to. -/
def Clean (line : StraightLine) : Prop :=
  (line.steps.map Step.name).Nodup ∧ ∀ step ∈ line.steps, step.assigned? = none

instance (line : StraightLine) : Decidable line.Clean := inferInstanceAs (Decidable (_ ∧ _))

theorem ofBody?_eq_some {body : List Stmt} {line : StraightLine}
    (reads : ofBody? body = some line) :
    ∃ front last, body = front ++ [last] ∧
      List.Forall₂ (fun s step => Step.ofStmt? s = some step) front line.steps ∧
      argument? last = some line.argument := by
  induction body generalizing line with
  | nil => cases reads
  | cons first rest ih =>
    cases rest with
    | nil =>
      obtain ⟨e, last, same⟩ := Option.bind_eq_some_iff.mp reads
      cases same
      exact ⟨[], first, rfl, .nil, last⟩
    | cons second rest =>
      obtain ⟨step, head, reads⟩ := Option.bind_eq_some_iff.mp reads
      obtain ⟨line', tail, same⟩ := Option.bind_eq_some_iff.mp reads
      cases same
      obtain ⟨front, last, split, steps, argument⟩ := ih tail
      exact ⟨first :: front, last, by rw [split]; rfl, .cons head steps, argument⟩

/-- A name keeps its value behind steps for other names. -/
theorem get_foldl {steps : List Step} {name : Text} (absent : ∀ step ∈ steps, step.name ≠ name)
    (env : Environment) : (steps.foldl Step.run env).get name = env.get name := by
  induction steps generalizing env with
  | nil => rfl
  | cons step rest ih =>
    rw [List.foldl_cons, ih fun other member => absent other (List.mem_cons_of_mem _ member),
      Step.get_run, if_neg (absent step List.mem_cons_self)]

/-- A name without a step has no value. -/
theorem get_unbound {steps : List Step} {name : Text} (absent : ∀ step ∈ steps, step.name ≠ name) :
    (environment steps).get name = .error (.unbound name) :=
  get_foldl absent []

/-- A name has the value of its last step. -/
theorem get_bound {front back : List Step} {step : Step}
    (last : ∀ other ∈ back, other.name ≠ step.name) :
    (environment (front ++ step :: back)).get step.name = (environment front).value step.value := by
  rw [environment, List.foldl_append, List.foldl_cons, get_foldl last, Step.get_run, if_pos rfl]
  rfl

end StraightLine

end StyleSplit
