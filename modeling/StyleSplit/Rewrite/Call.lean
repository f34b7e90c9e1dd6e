import StyleSplit.Script.Walk

/-! Calls that make style sheets, found by the name of what is called. -/
namespace StyleSplit

open Script

structure Call where
  span : Span
  arguments : List Expr
  argumentsSpan : Span
  calleeName : Option Text

/-- An expression that stands for no argument at all. -/
def Script.Expr.isAbsent : Expr → Bool
  | .literal _ .null => true
  | .identifier _ name => name == text "undefined"
  | _ => false

namespace Call

def ofNode? : Node → Option Call
  | .expr (.call span _ arguments argumentsSpan calleeName) =>
    some { span, arguments, argumentsSpan, calleeName }
  | _ => none

def callsOneOf (c : Call) (names : List Text) : Bool :=
  match c.calleeName with
  | some name => names.contains name
  | none => false

/-- A call without a style description. -/
def isNoop (c : Call) : Bool :=
  match c.arguments with
  | [] => true
  | first :: _ => first.isAbsent

end Call

/-- The calls of one of some names, each before the calls inside it, in the order of the
text. -/
def Script.styleCalls (s : Script) (names : List Text) : List Call :=
  (s.walk.filterMap Call.ofNode?).filter (·.callsOneOf names)

end StyleSplit
