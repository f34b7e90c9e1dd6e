import StyleSplit.Sheet.Plugin
import StyleSplit.Sheet.Written

/-! Compiling the static rules of a call site to the text of a style sheet and a map
from selectors to class names. -/
namespace StyleSplit

/-- The rules of a call site: selectors with their static properties. -/
abbrev Rules := List (Text × Properties)

/-- A compiled sheet: its text, and the class name of every selector, in order. -/
structure Sheet where
  rawText : Text
  classes : List (Text × Text)
deriving DecidableEq, Inhabited

/-- A sheet without classes has nothing to tell. -/
def Sheet.isEmpty (s : Sheet) : Bool := s.classes.isEmpty

inductive CompileError where
  | naming (error : NamingError)
  | unwritable (error : Unwritable)

inductive Notice where
  | properties (selector : Text) (names : List Text) (context : CallContext)
  | sheet (sheet : Sheet) (context : CallContext)

/-- How to compile: naming function, plugins, prefix for class names, and the name of
the script. -/
structure Compiler where
  naming : Naming
  plugins : List Plugin
  classPrefix : Option Text
  filename : Text

namespace Compiler

def context (c : Compiler) (callIndex : Nat) : CallContext :=
  { callIndex, sequence := 0, filename := c.filename, classPrefix := c.classPrefix }

/-- What watching plugins are shown of one rule: the properties as they come to each. -/
def notices (plugins : List Plugin) (selector : Text) (properties : Properties)
    (context : CallContext) : List Notice :=
  match plugins with
  | [] => []
  | plugin :: rest =>
    let behind := notices rest selector (plugin.process selector properties context) context
    if plugin.watches then
      .properties selector (properties.map (·.1)) context :: behind
    else behind

def sheetNotices (plugins : List Plugin) (sheet : Sheet) (context : CallContext) :
    List Notice :=
  (plugins.filter (·.watches)).map fun _ => .sheet sheet context

/-- The rules still to come, added to the blocks and classes so far. A selector without
properties gets a class name and no text. -/
def compileRules (c : Compiler) (context : CallContext) :
    Rules → List Text → List (Text × Text) → Allocator → Except CompileError Sheet × Allocator
  | [], blocks, classes, a => (.ok ⟨joinRules blocks, classes⟩, a)
  | (selector, properties) :: rest, blocks, classes, a =>
    let processed := Plugin.applyAll c.plugins selector properties context
    match a.allocate c.naming selector context with
    | (.error error, a) => (.error (.naming error), a)
    | (.ok identifier, a) =>
      let classes := insertEntry selector identifier classes
      if processed.isEmpty then compileRules c context rest blocks classes a
      else match writeRule identifier processed with
        | .error error => (.error (.unwritable error), a)
        | .ok block => compileRules c context rest (blocks ++ [block]) classes a

/-- Compiles the rules of a call site. The allocator keeps what a failing compilation
has taken from it. -/
def compile (c : Compiler) (rules : Rules) (callIndex : Nat) (a : Allocator) :
    Except CompileError Sheet × Allocator :=
  c.compileRules (c.context callIndex) rules [] [] a

/-- What watching plugins are shown while a call site is compiled: its rules up to the
one that fails, and the sheet if none does. -/
def watched (c : Compiler) (rules : Rules) (callIndex : Nat) (a : Allocator) : List Notice :=
  let context := c.context callIndex
  go context rules a ++
    match (c.compile rules callIndex a).1 with
    | .ok sheet => sheetNotices c.plugins sheet context
    | .error _ => []
where
  go (context : CallContext) : Rules → Allocator → List Notice
    | [], _ => []
    | (selector, properties) :: rest, a =>
      notices c.plugins selector properties context ++
        match c.compileRules context [(selector, properties)] [] [] a with
        | (.ok _, a) => go context rest a
        | (.error _, _) => []

end Compiler

end StyleSplit
