import StyleSplit.Precompile.Diagnostic
import StyleSplit.Precompile.Settings
import StyleSplit.Rewrite.Rewriter
import StyleSplit.Script.Parse

/-! Precompiling a script: every recognized call in turn is skipped with a diagnostic,
left as it is, or rewritten. A call is rewritten completely or not at all. -/
namespace StyleSplit

open Script

inductive SkipReason where
  | malformed (error : Malformed)
  | naming (error : NamingError)
  | unwritable (error : Unwritable)
  | overlap

namespace SkipReason

def rule : SkipReason → Text
  | malformed _ => text "malformed-style"
  | naming _ => text "naming"
  | unwritable _ => text "serialization"
  | overlap => text "overlapping-rewrite"

/-- A failing naming function is an error, everything else a warning. -/
def severity : SkipReason → Severity
  | naming _ => .error
  | _ => .warning

def message : SkipReason → Text
  | malformed error => error.message
  | naming error => error.message
  | unwritable error => text "Plugin output has no text form: " ++ error.message
  | overlap => text "Call overlaps a call that was already rewritten"

end SkipReason

/-- What became of a recognized call: it has no style description; it was skipped; it
has no static content; or it was rewritten. -/
inductive Outcome where
  | noop
  | skipped (reason : SkipReason)
  | unchanged
  | rewritten (edits : List Edit) (sheet : Sheet)

namespace Outcome

def edits : Outcome → List Edit
  | rewritten edits _ => edits
  | _ => []

def isRewritten : Outcome → Bool
  | rewritten .. => true
  | _ => false

end Outcome

/-- A description found at a call: its span, and what the object literal holds. -/
structure FoundMapping where
  span : Span
  entries : List Entry

/-- The object literal that the first argument of a call stands for. -/
def ScopeTable.findMapping (t : ScopeTable) (first : Expr) : Except Malformed FoundMapping :=
  match t.resolve first with
  | .unresolved name reason => .error (.unresolvable name reason first.span)
  | .resolved (.mapping span entries) => .ok ⟨span, entries⟩
  | .resolved _ => .error (.notMapping first.span)

/-- A declared description that a call has rewritten, with what it was compiled to. -/
structure Declared where
  description : Description
  sheet : Sheet

/-- What a run carries from one call to the next: the allocator, the edits accepted so
far, and the declared descriptions rewritten so far, the last one first. -/
structure RunState where
  allocator : Allocator
  accepted : List Edit
  declared : List Declared

namespace RunState

def start : RunState := { allocator := .start, accepted := [], declared := [] }

def find? (r : RunState) (span : Span) : Option Declared :=
  r.declared.find? (·.description.span == span)

def overlaps (r : RunState) (edits : List Edit) : Bool :=
  edits.any fun e => r.accepted.any fun a => e.span.overlaps a.span

end RunState

/-- A script to precompile: its scopes and how to compile its calls. -/
structure Precompiler where
  script : Script
  table : ScopeTable
  compiler : Compiler
  names : List Text

namespace Precompiler

def ofScript (settings : Settings) (filename : Text) (script : Script) : Precompiler :=
  { script
    table := script.scopeTable
    compiler :=
      { naming := settings.naming, plugins := settings.plugins,
        classPrefix := settings.classPrefix, filename }
    names := settings.names }

def calls (p : Precompiler) : List Call := p.script.styleCalls p.names

def describe (p : Precompiler) (first : Expr) : Except Malformed Description := do
  let found ← p.table.findMapping first
  p.table.classify found.span found.entries

/-- Compiles the description of a call, unless that was done for an earlier call that
refers to the same declaration. -/
def compileCall (p : Precompiler) (index : Nat) (first : Expr) (r : RunState) :
    Except SkipReason (Declared × Bool) × Allocator :=
  match p.table.findMapping first with
  | .error error => (.error (.malformed error), r.allocator)
  | .ok found =>
    match r.find? found.span with
    | some declared => (.ok (declared, true), r.allocator)
    | none =>
      match p.table.classify found.span found.entries with
      | .error error => (.error (.malformed error), r.allocator)
      | .ok description =>
        match p.compiler.compile description.staticRules index r.allocator with
        | (.error (.naming error), a) => (.error (.naming error), a)
        | (.error (.unwritable error), a) => (.error (.unwritable error), a)
        | (.ok sheet, a) => (.ok (⟨description, sheet⟩, false), a)

def treat (p : Precompiler) (index : Nat) (call : Call) (first : Expr) (r : RunState) :
    Outcome × RunState :=
  match p.compileCall index first r with
  | (.error reason, allocator) => (.skipped reason, { r with allocator })
  | (.ok (declared, shared), allocator) =>
    let r := { r with allocator }
    match call.rewrite p.script declared.description declared.sheet (!shared) with
    | .error error => (.skipped (.malformed error), r)
    | .ok [] => (.unchanged, r)
    | .ok edits =>
      if r.overlaps edits then (.skipped .overlap, r)
      else
        (.rewritten edits declared.sheet,
          { r with
            accepted := r.accepted ++ edits
            declared := if Call.isInline first then r.declared else declared :: r.declared })

/-- What becomes of a recognized call; `index` is its place among them. -/
def step (p : Precompiler) (index : Nat) (call : Call) (r : RunState) : Outcome × RunState :=
  if call.isNoop then (.noop, r)
  else match call.arguments with
    | [] => (.noop, r)
    | first :: _ => p.treat index call first r

/-- What becomes of the recognized calls from the place `index` on. -/
def outcomesFrom (p : Precompiler) : Nat → List Call → RunState → List Outcome
  | _, [], _ => []
  | index, call :: rest, r =>
    let (outcome, r) := p.step index call r
    outcome :: outcomesFrom p (index + 1) rest r

def outcomes (p : Precompiler) : List Outcome := p.outcomesFrom 0 p.calls .start

def diagnostic? (p : Precompiler) (call : Call) : Outcome → Option Diagnostic
  | .skipped reason =>
    let (line, column) := p.script.source.position call.span.start
    some { rule := reason.rule, severity := reason.severity, message := reason.message,
           line := some line, column := some column }
  | _ => none

end Precompiler

/-- The result of precompiling a script: its new text, the number of calls rewritten,
and one diagnostic for each call skipped. -/
structure Result where
  code : Text
  rewritten : Nat
  diagnostics : List Diagnostic

/-- A text changes with the first call that is rewritten. -/
def Result.changed (r : Result) : Bool := r.rewritten != 0

namespace Precompiler

/-- The result of a run. Accepted edits never overlap, so they can be applied. -/
def result (p : Precompiler) : Result :=
  let outcomes := p.outcomes
  let source := p.script.source
  { code := match Edit.apply source (outcomes.flatMap Outcome.edits) with
      | .ok code => code
      | .error _ => source
    rewritten := outcomes.countP Outcome.isRewritten
    diagnostics := (p.calls.zip outcomes).filterMap fun (call, o) => p.diagnostic? call o }

end Precompiler

def precompile (settings : Settings) (filename source : Text) : Except ParseError Result := do
  return (Precompiler.ofScript settings filename (← Script.parse source)).result

namespace Precompiler

/-- What becomes of a call when every call is rewritten on its own: nothing is known of
declarations that were rewritten before, and overlaps do not matter. -/
def treatAlone (p : Precompiler) (rewriteDeclaration : Bool) (index : Nat) (call : Call)
    (first : Expr) (a : Allocator) : Outcome × Allocator :=
  match p.compileCall index first { RunState.start with allocator := a } with
  | (.error reason, a) => (.skipped reason, a)
  | (.ok (made, _), a) =>
    match call.rewrite p.script made.description made.sheet rewriteDeclaration with
    | .error error => (.skipped (.malformed error), a)
    | .ok edits => (.rewritten edits made.sheet, a)

/-- What becomes of the recognized calls from the place `index` on, each on its own. -/
def outcomesAlone (p : Precompiler) (rewriteDeclaration : Bool) :
    Nat → List Call → Allocator → List Outcome
  | _, [], _ => []
  | index, call :: rest, a =>
    let (outcome, a) :=
      if call.isNoop then (.noop, a)
      else match call.arguments with
        | [] => (.noop, a)
        | first :: _ => p.treatAlone rewriteDeclaration index call first a
    outcome :: outcomesAlone p rewriteDeclaration (index + 1) rest a

/-- Whether a rule is compiled when a call is rewritten on its own. -/
def compilesRule (p : Precompiler) (call : Call) : Bool :=
  if call.isNoop then false
  else match call.arguments with
    | [] => false
    | first :: _ =>
      match p.describe first with
      | .ok description => !description.staticRules.isEmpty
      | .error _ => false

end Precompiler

/-- What becomes of the recognized calls of a script, each on its own, with settings that
nobody has checked. The first rule that is compiled shows a misuse. -/
def GivenSettings.outcomesAlone (g : GivenSettings) (filename : Text) (script : Script)
    (rewriteDeclaration : Bool) : Except Misuse (List Outcome) :=
  let p := Precompiler.ofScript g.usable filename script
  match g.tools.ruleMisuse?, p.calls.any p.compilesRule with
  | some misuse, true => .error misuse
  | _, _ => .ok (p.outcomesAlone rewriteDeclaration 0 p.calls .start)

/-- What was found at a recognized call: its place, and its description or why there is
none. -/
structure CallReport where
  call : Call
  line : Nat
  column : Nat
  description : Except (Option Malformed) Description

namespace CallReport

def skipped? (r : CallReport) : Option Text :=
  match r.description with
  | .ok _ => none
  | .error none => some (text "no style description")
  | .error (some error) => some error.message

end CallReport

namespace Precompiler

/-- Classifies a recognized call without compiling it. -/
def report (p : Precompiler) (call : Call) : CallReport :=
  let (line, column) := p.script.source.position call.span.start
  let description :=
    if call.isNoop then .error none
    else match call.arguments with
      | [] => .error none
      | first :: _ =>
        match p.describe first with
        | .ok description => .ok description
        | .error error => .error (some error)
  { call, line, column, description }

def reports (p : Precompiler) : List CallReport := p.calls.map p.report

end Precompiler

def analyze (settings : Settings) (source : Text) : Except ParseError (List CallReport) := do
  return (Precompiler.ofScript settings [] (← Script.parse source)).reports

end StyleSplit
