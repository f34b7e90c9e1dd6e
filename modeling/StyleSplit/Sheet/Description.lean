import StyleSplit.Scope.Folding
import StyleSplit.Sheet.Compile

/-! Style descriptions: how the selectors of an object literal split into properties
that are known before the script runs and entries that have to stay in it. -/
namespace StyleSplit

open Script

/-- The selector that carries compiled text in a rewritten description. -/
def rawKey : Text := text "@raw"

/-- The option that maps selectors to class names. -/
def classesKey : Text := text "classes"

inductive Malformed where
  | unresolvable (name : Text) (reason : UnresolvedReason) (span : Span)
  | notMapping (span : Span)
  | spread (span : Span)
  | reserved (span : Span)
  | duplicate (selector : Text) (span : Span)
  | classesTaken (span : Span)
deriving DecidableEq, Inhabited

namespace Malformed

def span : Malformed → Span
  | unresolvable _ _ span | notMapping span | spread span | reserved span
  | duplicate _ span | classesTaken span => span

def message : Malformed → Text
  | unresolvable name reason _ =>
    text "Style description " ++ name.quoted ++ text " cannot be resolved: " ++ reason.message
  | notMapping _ => text "Style description is not an object literal"
  | spread _ => text "Spread entries in a style description cannot be precompiled"
  | reserved _ => text "Selector name " ++ rawKey.quoted ++ text " is reserved"
  | duplicate selector _ => text "Duplicate selector " ++ selector.quoted
  | classesTaken _ => text "Options argument already defines " ++ classesKey.quoted

end Malformed

inductive Verdict where
  | static | mixed | dynamic
deriving DecidableEq, Repr, Inhabited

def Verdict.shown : Verdict → Text
  | static => text "static"
  | mixed => text "mixed"
  | dynamic => text "dynamic"

/-- How a selector splits: its name if that is known, its entry in the description, the
static properties and the dynamic entries. A selector that could not be split at all is
kept as written. -/
structure Selector where
  name : Option Text
  entry : Entry
  static : Properties
  dynamic : List Entry
  verbatim : Bool

namespace Selector

def asWritten (name : Option Text) (entry : Entry) : Selector :=
  { name, entry, static := [], dynamic := [], verbatim := true }

/-- A selector that could be split is static when no entry of it stays, mixed when both
parts hold something, and dynamic otherwise. -/
def verdict (s : Selector) : Verdict :=
  if !s.verbatim && s.dynamic.isEmpty then .static
  else if s.static.isEmpty then .dynamic
  else .mixed

def hasStaticContent (s : Selector) : Bool := s.verdict != .dynamic

def rule? (s : Selector) : Option (Text × Properties) :=
  match s.name with
  | some name => if s.hasStaticContent then some (name, s.static) else none
  | none => none

end Selector

/-- A classified style description: the span of its object literal and its selectors. -/
structure Description where
  span : Span
  selectors : List Selector

namespace Description

def hasStaticContent (d : Description) : Bool := d.selectors.any (·.hasStaticContent)

def staticRules (d : Description) : Rules := d.selectors.filterMap Selector.rule?

end Description

namespace ScopeTable

/-- The value of a property, if it is known and has a text. -/
def staticValue? (t : ScopeTable) (e : Expr) : Option Value :=
  match t.evaluate e with
  | none => none
  | some value =>
    match value.write with
    | .ok _ => some value
    | .error _ => none

/-- Splits the properties of a selector. It cannot be split when an entry is a spread or
a known name comes again; `seen` are the names so far. -/
def splitProperties (t : ScopeTable) :
    List Entry → List Text → Option (Properties × List Entry)
  | [], _ => some ([], [])
  | entry :: rest, seen =>
    if entry.isSpread then none
    else match t.keyName entry with
      | none => do
        let (static, dynamic) ← splitProperties t rest seen
        return (static, entry :: dynamic)
      | some name =>
        if seen.contains name then none
        else do
          let (static, dynamic) ← splitProperties t rest (name :: seen)
          match t.staticValue? entry.value with
          | some value => return ((name, value) :: static, dynamic)
          | none => return (static, entry :: dynamic)

def classifySelector (t : ScopeTable) (name : Option Text) (entry : Entry) : Selector :=
  match name with
  | none => .asWritten none entry
  | some name =>
    match t.resolve entry.value with
    | .resolved (.mapping _ entries) =>
      match t.splitProperties entries [] with
      | some (static, dynamic) =>
        { name := some name, entry, static, dynamic, verbatim := false }
      | none => .asWritten (some name) entry
    | _ => .asWritten (some name) entry

/-- The selectors of the entries of a description; `seen` are the names so far. -/
def classifyEntries (t : ScopeTable) :
    List Entry → List Text → Except Malformed (List Selector)
  | [], _ => .ok []
  | entry :: rest, seen =>
    if entry.isSpread then .error (.spread entry.span)
    else
      let name := t.keyName entry
      if name == some rawKey then .error (.reserved entry.span)
      else match name with
        | none => do return t.classifySelector none entry :: (← classifyEntries t rest seen)
        | some known =>
          if seen.contains known then .error (.duplicate known entry.span)
          else do
            return t.classifySelector name entry :: (← classifyEntries t rest (known :: seen))

def classify (t : ScopeTable) (span : Span) (entries : List Entry) :
    Except Malformed Description := do
  return { span, selectors := ← t.classifyEntries entries [] }

end ScopeTable

end StyleSplit
