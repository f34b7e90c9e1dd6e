import StyleSplit.Text.Quoted

/-! Class names. A naming function makes them; the allocator numbers its calls and
refuses what is not a name, or is a name given out before for the same call site. -/
namespace StyleSplit

/-- What a naming function and the plugins know about the call site at hand: its place
among the recognized calls, the number of the allocation, the name of the script, and
the prefix for class names if one is set. -/
structure CallContext where
  callIndex : Nat
  sequence : Nat
  filename : Text
  classPrefix : Option Text

/-- What a naming function answers: a text, or by mistake any other object. Of such an
object only its form in messages is of use. -/
inductive Answer where
  | text (name : Text)
  | other (shown : Text)
deriving DecidableEq, Inhabited

def Answer.shown : Answer → Text
  | text name => name.quoted
  | other shown => shown

abbrev Naming := Text → CallContext → Answer

namespace Naming

/-- Code points that need no change in a class name. -/
def isSafe (c : CodePoint) : Bool :=
  c.isLetter || c.isDigit || c == CodePoint.underscore || c == CodePoint.hyphen

/-- Every run of other code points as one hyphen. -/
def dashed : Text → Text
  | [] => []
  | c :: rest =>
    if isSafe c then c :: dashed rest
    else match rest with
      | d :: _ => if isSafe d then CodePoint.hyphen :: dashed rest else dashed rest
      | [] => [CodePoint.hyphen]

/-- The text without the hyphens at both ends. -/
def stripped (t : Text) : Text :=
  ((t.dropWhile (· == CodePoint.hyphen)).reverse.dropWhile (· == CodePoint.hyphen)).reverse

/-- The part of a class name that comes from the selector. -/
def stem (selector : Text) : Text :=
  let safe := stripped (dashed selector)
  if safe.isEmpty then text "rule" else safe

/-- The prefix, the selector in safe form and the number of the allocation. -/
def standardName (selector : Text) (context : CallContext) : Text :=
  context.classPrefix.getD [] ++ stem selector ++ text "-" ++ Text.ofNat context.sequence

def standard : Naming := fun selector context => .text (standardName selector context)

def suffixed (ending : Text) : Naming := fun selector _ => .text (selector ++ ending)

def constant (answer : Answer) : Naming := fun _ _ => answer

/-- All that is known, separated by underscores. -/
def descriptive : Naming := fun selector context =>
  .text <| Text.join [CodePoint.underscore]
    [selector, Text.ofNat context.callIndex, Text.ofNat context.sequence, context.filename,
     context.classPrefix.getD []]

def initial : Naming := fun selector _ => .text (selector.take 1)

end Naming

/-- Why no class name was given out: the naming function did not answer a name, or the
name is in use at this call site. -/
inductive NamingError where
  | unusable (answer : Answer) (selector : Text)
  | taken (identifier selector : Text)
deriving DecidableEq, Inhabited

namespace NamingError

def selector : NamingError → Text
  | unusable _ selector | taken _ selector => selector

def message : NamingError → Text
  | unusable answer selector =>
    text "Naming function returned " ++ answer.shown ++ text " for selector " ++
      selector.quoted
  | taken identifier selector =>
    text "Generated identifier " ++ identifier.quoted ++ text " for selector " ++
      selector.quoted ++ text " is already used in this call"

end NamingError

/-- The number of allocations so far, and the names given out, each with its call site. -/
structure Allocator where
  sequence : Nat
  issued : List (Nat × Text)
deriving Inhabited

namespace Allocator

def start : Allocator := { sequence := 0, issued := [] }

/-- The usable name in the answer of a naming function. -/
def name? : Answer → Option Text
  | .text (c :: rest) => some (c :: rest)
  | _ => none

/-- Asks a naming function, whatever effects it has, for a class name. A failing request
still counts in the sequence. -/
def allocateM {m : Type → Type} [Monad m] (a : Allocator)
    (naming : Text → CallContext → m Answer) (selector : Text) (context : CallContext) :
    m (Except NamingError Text × Allocator) := do
  let a := { a with sequence := a.sequence + 1 }
  let answer ← naming selector { context with sequence := a.sequence }
  return match name? answer with
    | none => (.error (.unusable answer selector), a)
    | some identifier =>
      if a.issued.contains (context.callIndex, identifier) then
        (.error (.taken identifier selector), a)
      else (.ok identifier, { a with issued := a.issued ++ [(context.callIndex, identifier)] })

/-- Asks a naming function without effects for a class name. -/
def allocate (a : Allocator) (naming : Naming) (selector : Text) (context : CallContext) :
    Except NamingError Text × Allocator :=
  Id.run <| a.allocateM (fun selector context => pure (naming selector context)) selector context

end Allocator

end StyleSplit
