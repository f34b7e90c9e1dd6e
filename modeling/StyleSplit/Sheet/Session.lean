import StyleSplit.Sheet.Compile
import StyleSplit.Sheet.Given

/-! Sessions: requests to one compiler, answered in turn. They share the class names given
out so far, and a request that fails keeps what it has taken. -/
namespace StyleSplit

/-- A request for one call site: a class name, or the sheet of some rules. -/
inductive Request where
  | allocate (selector : Text) (callIndex : Nat)
  | compile (rules : Rules) (callIndex : Nat)

/-- The answer to a request. With a sheet come the notices to watching plugins. -/
inductive Reply where
  | identifier (answer : Except NamingError Text)
  | sheet (answer : Except CompileError Sheet) (notices : List Notice)

namespace Compiler

def reply (c : Compiler) (a : Allocator) : Request → Reply × Allocator
  | .allocate selector callIndex =>
    let (answer, a) := a.allocate c.naming selector (c.context callIndex)
    (.identifier answer, a)
  | .compile rules callIndex =>
    let (answer, after) := c.compile rules callIndex a
    (.sheet answer (c.watched rules callIndex a), after)

def replies (c : Compiler) (a : Allocator) : List Request → List Reply
  | [] => []
  | request :: rest =>
    let (reply, a) := c.reply a request
    reply :: c.replies a rest

end Compiler

namespace GivenTools

/-- What shows when a request is answered. Rules that are not there need nothing. -/
def requestMisuse? (g : GivenTools) : Request → Option Misuse
  | .allocate _ _ => g.naming.misuse?
  | .compile [] _ => none
  | .compile (_ :: _) _ => g.ruleMisuse?

/-- Answers requests in turn, unless one of them shows a misuse. -/
def replies (g : GivenTools) (classPrefix : Option Text) (filename : Text)
    (requests : List Request) : Except Misuse (List Reply) :=
  match requests.findSome? g.requestMisuse? with
  | some misuse => .error misuse
  | none =>
    let compiler : Compiler :=
      { naming := g.naming.usable, plugins := g.usablePlugins, classPrefix, filename }
    .ok (compiler.replies .start requests)

end GivenTools

end StyleSplit
