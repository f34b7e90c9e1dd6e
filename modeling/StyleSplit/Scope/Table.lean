import StyleSplit.Script.Walk

/-! The scopes of a script: what is declared in each of them, and in which one every
identifier stands. -/
namespace StyleSplit

open Script

inductive BindingKind where
  | const | let_ | var | function | class_ | import_ | parameter
deriving DecidableEq, Repr, Inhabited

/-- A declared name with its initial value, which for a function is the function. It
counts as reassigned when its value may be another one later. -/
structure Binding where
  name : Text
  kind : BindingKind
  init : Option Expr
  span : Span
  reassigned : Bool := false

/-- A scope: its parent, whether `var` declarations inside it belong to it, and the
names declared in it, in order. -/
structure Scope where
  parent : Option Nat
  isFunction : Bool
  bindings : List Binding

/-- The scopes of a script by number, a parent before its children, the scope of the
script first. Every identifier is known by its span; `uses` has the last one first. -/
structure ScopeTable where
  scopes : List Scope
  uses : List (Span × Nat)
  /-- The number of nodes of the script. -/
  size : Nat

namespace Scope

/-- Declares a name. A second declaration makes the value depend on the order of
execution, so the first one stays and counts as reassigned. -/
def declare (s : Scope) (b : Binding) : Scope :=
  { s with bindings := add s.bindings }
where
  add : List Binding → List Binding
    | [] => [b]
    | old :: rest =>
      if old.name == b.name then { old with reassigned := true } :: rest
      else old :: add rest

/-- The declaration of a name in this scope alone. -/
def find? (s : Scope) (name : Text) : Option Binding := s.bindings.find? (·.name == name)

def reassign (s : Scope) (name : Text) : Scope :=
  { s with bindings := s.bindings.map fun b =>
      if b.name == name then { b with reassigned := true } else b }

/-- Among scopes by number, the innermost one from `id` outwards that satisfies a test.
A parent has a smaller number than its children, so `id + 1` steps are enough. -/
def innermost? (scopes : List Scope) (test : Scope → Bool) : Nat → Nat → Option Nat
  | 0, _ => none
  | fuel + 1, id =>
    match scopes[id]? with
    | none => none
    | some s =>
      if test s then some id
      else match s.parent with
        | none => none
        | some parent => innermost? scopes test fuel parent

end Scope

namespace ScopeTable

/-- The number of the scope that declares a name, as seen from the scope `id`. -/
def declaring? (scopes : List Scope) (id : Nat) (name : Text) : Option Nat :=
  Scope.innermost? scopes (fun s => (s.find? name).isSome) (id + 1) id

def lookupFrom (scopes : List Scope) (id : Nat) (name : Text) : Option Binding := do
  let declaring ← declaring? scopes id name
  (← scopes[declaring]?).find? name

/-- The declaration that the identifier at a span refers to. -/
def lookup (t : ScopeTable) (span : Span) (name : Text) : Option Binding := do
  let (_, id) ← t.uses.find? (·.1 == span)
  lookupFrom t.scopes id name

def root (t : ScopeTable) : Scope := t.scopes.headD ⟨none, true, []⟩

end ScopeTable

/-- The scopes found so far, with the identifiers and the assignments met in them. -/
structure ScopeDraft where
  scopes : List Scope
  uses : List (Span × Nat)
  assignments : List (Text × Nat)

namespace ScopeDraft

/-- Opens a scope inside another one; the result has its number. -/
def enter (d : ScopeDraft) (parent : Nat) (isFunction : Bool) : Nat × ScopeDraft :=
  (d.scopes.length, { d with scopes := d.scopes ++ [⟨some parent, isFunction, []⟩] })

def declare (d : ScopeDraft) (id : Nat) (b : Binding) : ScopeDraft :=
  { d with scopes := d.scopes.modify id (·.declare b) }

def declareAll (d : ScopeDraft) (id : Nat) (names : List Text) (kind : BindingKind)
    (init : Option Expr) (span : Span) : ScopeDraft :=
  names.foldl (fun d name => d.declare id { name, kind, init, span }) d

/-- The scope to which a `var` declaration in the scope `id` belongs. -/
def functionScope (d : ScopeDraft) (id : Nat) : Nat :=
  (Scope.innermost? d.scopes (fun s => s.isFunction || s.parent.isNone) (id + 1) id).getD id

def use (d : ScopeDraft) (id : Nat) (span : Span) : ScopeDraft :=
  { d with uses := (span, id) :: d.uses }

def assign (d : ScopeDraft) (id : Nat) (names : List Text) : ScopeDraft :=
  { d with assignments := d.assignments ++ names.map (·, id) }

def bindingKind : VariableKind → BindingKind
  | .const => .const
  | .let_ => .let_
  | .var => .var
  | .parameter => .parameter

/-- Declares the names of a declarator. A name taken out of a value has no initial value
of its own. -/
def declareTarget (d : ScopeDraft) (id : Nat) (kind : VariableKind) : Declarator → ScopeDraft
  | .mk span names init pattern =>
    let target := match kind with
      | .var => d.functionScope id
      | _ => id
    if pattern then d.declareAll target names .parameter none span
    else d.declareAll target names (bindingKind kind) init span

mutual

/-- Adds what an expression in the scope `id` declares, uses and assigns to. -/
def addExpr (id : Nat) : Expr → ScopeDraft → ScopeDraft
  | .literal .., d => d
  | .identifier span _, d => d.use id span
  | .list _ items, d => addItems id items d
  | .mapping _ entries, d => addEntries id entries d
  | .function span name parameters body, d =>
    let (inner, d) := d.enter id true
    let own := Expr.function span name parameters body
    let d := d.declareAll inner name.toList .function (some own) span
    let d := d.declareAll inner parameters .parameter none span
    addBody inner body d
  | .call _ callee arguments _ _, d => addItems id arguments (addExpr id callee d)
  | .other _ children assigns _, d => addParts id children (d.assign id assigns)

/-- Adds an entry: its key if it is computed, and its value. -/
def addEntry (id : Nat) : Entry → ScopeDraft → ScopeDraft
  | .mk _ (some key) value true _, d => addExpr id value (addExpr id key d)
  | .mk _ _ value _ _, d => addExpr id value d

def addPart (id : Nat) : Part → ScopeDraft → ScopeDraft
  | .expr e, d => addExpr id e d
  | .stmt s, d => addStmt id s d

def addInit (id : Nat) : Declarator → ScopeDraft → ScopeDraft
  | .mk _ _ (some init) _, d => addExpr id init d
  | .mk _ _ none _, d => d

def addStmt (id : Nat) : Stmt → ScopeDraft → ScopeDraft
  | .declaration _ kind declarators, d => addDeclarators id kind declarators d
  | .function span name definition, d =>
    addExpr id definition (d.declare id { name, kind := .function, init := some definition, span })
  | .class_ span name body, d =>
    addExpr id body (d.declare id { name, kind := .class_, init := none, span })
  | .imports span names, d => d.declareAll id names .import_ none span
  | .expression _ e, d => addExpr id e d
  | .block _ body, d =>
    let (inner, d) := d.enter id false
    addBody inner body d
  | .control _ children, d =>
    let (inner, d) := d.enter id false
    addParts inner children d

def addItems (id : Nat) : List Expr → ScopeDraft → ScopeDraft
  | [], d => d
  | e :: rest, d => addItems id rest (addExpr id e d)

def addEntries (id : Nat) : List Entry → ScopeDraft → ScopeDraft
  | [], d => d
  | e :: rest, d => addEntries id rest (addEntry id e d)

def addParts (id : Nat) : List Part → ScopeDraft → ScopeDraft
  | [], d => d
  | p :: rest, d => addParts id rest (addPart id p d)

/-- Adds the targets of a variable declaration, each before its initial value. -/
def addDeclarators (id : Nat) (kind : VariableKind) : List Declarator → ScopeDraft → ScopeDraft
  | [], d => d
  | t :: rest, d => addDeclarators id kind rest (addInit id t (d.declareTarget id kind t))

def addBody (id : Nat) : List Stmt → ScopeDraft → ScopeDraft
  | [], d => d
  | s :: rest, d => addBody id rest (addStmt id s d)

end

/-- Marks what an assignment in the scope of the given number reassigns. -/
def applyAssignment (scopes : List Scope) (assignment : Text × Nat) : List Scope :=
  match ScopeTable.declaring? scopes assignment.2 assignment.1 with
  | some declaring => scopes.modify declaring (·.reassign assignment.1)
  | none => scopes

end ScopeDraft

/-- The scopes of a script. Assignments count only once all declarations are known. -/
def Script.scopeTable (s : Script) : ScopeTable :=
  let d := ScopeDraft.addBody 0 s.body ⟨[⟨none, true, []⟩], [], []⟩
  { scopes := d.assignments.foldl ScopeDraft.applyAssignment d.scopes
    uses := d.uses
    size := s.size }

end StyleSplit
