import StyleSplit.Precompile.Run

/-! What a run shows while it goes on: notices to watching plugins, and a log. Both
follow the run call by call and change nothing in it. -/
namespace StyleSplit

open Script

inductive LogLevel where
  | debug | info | warning
deriving DecidableEq, Repr, Inhabited

def LogLevel.shown : LogLevel → Text
  | debug => text "DEBUG"
  | info => text "INFO"
  | warning => text "WARNING"

inductive LogSource where
  | resolver | classifier | compiler | transform
deriving DecidableEq, Repr, Inhabited

def LogSource.shown : LogSource → Text
  | resolver => text "stylefold.resolver"
  | classifier => text "stylefold.classifier"
  | compiler => text "stylefold.compiler.pipeline"
  | transform => text "stylefold.transform"

structure LogLine where
  level : LogLevel
  source : LogSource
  message : Text
deriving DecidableEq, Inhabited

def LogLine.shown (l : LogLine) : Text :=
  l.level.shown ++ text ":" ++ l.source.shown ++ text ":" ++ l.message

namespace ScopeTable

/-- A reference that cannot be followed is logged. -/
def resolveLog (t : ScopeTable) (e : Expr) : List LogLine :=
  match t.resolve e with
  | .resolved _ => []
  | .unresolved name reason =>
    [⟨.debug, .resolver, text "Unresolved reference " ++ name.quoted ++ text ": " ++
      reason.message⟩]

/-- A computed key is resolved to find its name. -/
def keyLog (t : ScopeTable) (entry : Entry) : List LogLine :=
  match entry.key with
  | some key => if entry.computed then t.resolveLog key else []
  | none => []

/-- The log of one part after the other, up to the first that is not known. -/
def logUntil {α : Type} (known : α → Bool) (log : α → List LogLine) : List α → List LogLine
  | [] => []
  | a :: rest => log a ++ (if known a then logUntil known log rest else [])

/-- The log of folding an expression, which ends at the first part without a value. -/
def foldLog (t : ScopeTable) : Nat → Expr → List LogLine
  | 0, _ => []
  | fuel + 1, e =>
    t.resolveLog e ++
      match t.resolve e with
      | .resolved (.list _ items) =>
        logUntil (fun item => (t.evaluate item).isSome) (foldLog t fuel) items
      | .resolved (.mapping _ entries) =>
        logUntil
          (fun entry => (t.keyName entry).isSome && (t.evaluate entry.value).isSome)
          (fun entry => t.keyLog entry ++
            if (t.keyName entry).isSome then foldLog t fuel entry.value else [])
          entries
      | _ => []

/-- A property whose value has no text is logged. -/
def propertyLog (t : ScopeTable) (selector name : Text) (entry : Entry) : List LogLine :=
  t.foldLog (t.size + 1) entry.value ++
    match t.evaluate entry.value, t.staticValue? entry.value with
    | some _, none =>
      [⟨.debug, .classifier, text "Property " ++ name.quoted ++ text " of selector " ++
        selector.quoted ++ text " has no text form; keeping it dynamic"⟩]
    | _, _ => []

def splitLog (t : ScopeTable) (selector : Text) : List Entry → List Text → List LogLine
  | [], _ => []
  | entry :: rest, seen =>
    if entry.isSpread then []
    else t.keyLog entry ++
      match t.keyName entry with
      | none => splitLog t selector rest seen
      | some name =>
        if seen.contains name then []
        else t.propertyLog selector name entry ++ splitLog t selector rest (name :: seen)

def selectorLog (t : ScopeTable) (name : Option Text) (entry : Entry) : List LogLine :=
  match name with
  | none => []
  | some name =>
    t.resolveLog entry.value ++
      match t.resolve entry.value with
      | .resolved (.mapping _ entries) => t.splitLog name entries []
      | _ => []

def classifyLog (t : ScopeTable) : List Entry → List Text → List LogLine
  | [], _ => []
  | entry :: rest, seen =>
    if entry.isSpread then []
    else
      let name := t.keyName entry
      let taken := match name with
        | some known => known == rawKey || seen.contains known
        | none => false
      t.keyLog entry ++
        if taken then []
        else t.selectorLog name entry ++ classifyLog t rest (name.toList ++ seen)

end ScopeTable

namespace Precompiler

/-- The compilation that a call asks for: its rules, unless its description is malformed
or was compiled before. -/
def freshRules? (p : Precompiler) (first : Expr) (r : RunState) : Option Rules :=
  match p.table.findMapping first with
  | .error _ => none
  | .ok found =>
    if (r.find? found.span).isSome then none
    else match p.table.classify found.span found.entries with
      | .ok description => some description.staticRules
      | .error _ => none

def compileLog (p : Precompiler) (index : Nat) (first : Expr) (r : RunState) : List LogLine :=
  match p.freshRules? first r with
  | none => []
  | some rules =>
    match (p.compiler.compile rules index r.allocator).1 with
    | .error _ => []
    | .ok sheet =>
      [⟨.debug, .compiler, text "Compiled call " ++ Text.ofNat index ++ text ": " ++
        Text.ofNat sheet.classes.length ++ text " rule(s), " ++
        Text.ofNat sheet.rawText.length ++ text " character(s)"⟩]

def descriptionLog (p : Precompiler) (index : Nat) (first : Expr) (r : RunState) :
    List LogLine :=
  t.resolveLog first ++
    match t.findMapping first with
    | .error _ => []
    | .ok found =>
      if (r.find? found.span).isSome then []
      else t.classifyLog found.entries [] ++ p.compileLog index first r
where
  t := p.table

def outcomeLog (p : Precompiler) (call : Call) (o : Outcome) : List LogLine :=
  let (line, column) := p.script.source.position call.span.start
  let place := p.compiler.filename ++ text ":" ++ Text.ofNat line ++ text ": "
  match o with
  | .noop => []
  | .skipped reason =>
    [⟨.warning, .transform, text "Skipping call at line " ++ Text.ofNat line ++
      text ", column " ++ Text.ofNat column ++ text ": " ++ reason.message⟩]
  | .unchanged =>
    [⟨.debug, .transform, place ++ text "no static content, call left unchanged"⟩]
  | .rewritten _ sheet =>
    [⟨.info, .transform, place ++ text "precompiled " ++ Text.ofNat sheet.classes.length ++
      text " selector(s) of " ++ call.calleeName.getD [] ++ text "()"⟩]

def logFrom (p : Precompiler) : Nat → List Call → RunState → List LogLine
  | _, [], _ => []
  | index, call :: rest, r =>
    let (outcome, next) := p.step index call r
    let before :=
      if call.isNoop then []
      else match call.arguments with
        | [] => []
        | first :: _ => p.descriptionLog index first r
    before ++ p.outcomeLog call outcome ++ logFrom p (index + 1) rest next

def log (p : Precompiler) : List LogLine := p.logFrom 0 p.calls .start

/-- What watching plugins are shown at the recognized calls from the place `index` on. -/
def noticesFrom (p : Precompiler) : Nat → List Call → RunState → List Notice
  | _, [], _ => []
  | index, call :: rest, r =>
    let here :=
      if call.isNoop then []
      else match call.arguments with
        | [] => []
        | first :: _ =>
          match p.freshRules? first r with
          | some rules => p.compiler.watched rules index r.allocator
          | none => []
    here ++ noticesFrom p (index + 1) rest (p.step index call r).2

def notices (p : Precompiler) : List Notice := p.noticesFrom 0 p.calls .start

end Precompiler

end StyleSplit
