import StyleSplit.Span
import StyleSplit.Value

/-! The tree of a script. Expressions and statements form closed sets of kinds; what
the analysis of style descriptions does not look into is kept as `other` expressions
and `control` statements, reduced to their parts. Every node knows the span it was read
from, so that text can be replaced without writing the rest of the script anew. -/
namespace StyleSplit.Script

inductive VariableKind where
  | const | let_ | var | parameter
deriving DecidableEq, Repr, Inhabited

mutual

inductive Expr where
  /-- A value without parts. -/
  | literal (span : Span) (value : Scalar)
  | identifier (span : Span) (name : Text)
  /-- An array literal. -/
  | list (span : Span) (items : List Expr)
  /-- An object literal. -/
  | mapping (span : Span) (entries : List Entry)
  /-- A function, arrow function or method. -/
  | function (span : Span) (name : Option Text) (parameters : List Text) (body : List Stmt)
  /-- A call. The second span covers the parentheses and all between them; the last name
  is that of the callee, if it is an identifier or a member. -/
  | call (span : Span) (callee : Expr) (arguments : List Expr) (argumentsSpan : Span)
      (calleeName : Option Text)
  /-- Any other expression, with the names it writes to, and its own name if it is the
  member of that name. -/
  | other (span : Span) (children : List Part) (assigns : List Text) (name : Option Text)

/-- An entry of an object literal. A spread entry has no key; a computed key is any
expression and a plain one a literal. -/
inductive Entry where
  | mk (span : Span) (key : Option Expr) (value : Expr) (computed shorthand : Bool)

inductive Part where
  | expr (e : Expr)
  | stmt (s : Stmt)

/-- A target of a variable declaration: the names it binds, its initial value, and
whether it takes a value apart instead of naming it. -/
inductive Declarator where
  | mk (span : Span) (names : List Text) (init : Option Expr) (pattern : Bool)

inductive Stmt where
  | declaration (span : Span) (kind : VariableKind) (declarators : List Declarator)
  | function (span : Span) (name : Text) (definition : Expr)
  | class_ (span : Span) (name : Text) (body : Expr)
  | imports (span : Span) (names : List Text)
  | expression (span : Span) (e : Expr)
  | block (span : Span) (body : List Stmt)
  /-- A statement that governs others, or leaves a function or a loop. -/
  | control (span : Span) (children : List Part)

end

instance : Inhabited Expr := ⟨.literal ⟨0, 0⟩ .null⟩

namespace Expr

def span : Expr → Span
  | literal span .. | identifier span .. | list span .. | mapping span ..
  | function span .. | call span .. | other span .. => span

end Expr

namespace Entry

def span : Entry → Span
  | mk span .. => span

/-- The key, unless the entry is a spread. -/
def key : Entry → Option Expr
  | mk _ key .. => key

/-- The value, or what is spread. -/
def value : Entry → Expr
  | mk _ _ value .. => value

/-- Whether the key stands in brackets. -/
def computed : Entry → Bool
  | mk _ _ _ computed _ => computed

/-- Whether one name is both key and value. -/
def shorthand : Entry → Bool
  | mk _ _ _ _ shorthand => shorthand

def isSpread (e : Entry) : Bool := e.key.isNone

end Entry

namespace Declarator

def span : Declarator → Span
  | mk span .. => span

def names : Declarator → List Text
  | mk _ names .. => names

def init : Declarator → Option Expr
  | mk _ _ init _ => init

def pattern : Declarator → Bool
  | mk _ _ _ pattern => pattern

end Declarator

namespace Stmt

def span : Stmt → Span
  | declaration span .. | function span .. | class_ span .. | imports span ..
  | expression span .. | block span .. | control span .. => span

end Stmt

/-- Any part of a script that a walk comes by. -/
inductive Node where
  | expr (e : Expr)
  | entry (e : Entry)
  | stmt (s : Stmt)

def Part.toNode : Part → Node
  | .expr e => .expr e
  | .stmt s => .stmt s

namespace Node

def span : Node → Span
  | expr e => e.span
  | entry e => e.span
  | stmt s => s.span

def ofExpr : Expr → List Node
  | .literal .. | .identifier .. => []
  | .list _ items => items.map .expr
  | .mapping _ entries => entries.map .entry
  | .function _ _ _ body => body.map .stmt
  | .call _ callee arguments _ _ => .expr callee :: arguments.map .expr
  | .other _ children _ _ => children.map Part.toNode

/-- The nodes directly inside an entry: a plain key is not one. -/
def ofEntry : Entry → List Node
  | .mk _ (some key) value true _ => [.expr key, .expr value]
  | .mk _ _ value _ _ => [.expr value]

def ofStmt : Stmt → List Node
  | .declaration _ _ declarators => declarators.filterMap fun d => d.init.map .expr
  | .function _ _ definition => [.expr definition]
  | .class_ _ _ body => [.expr body]
  | .imports .. => []
  | .expression _ e => [.expr e]
  | .block _ body => body.map .stmt
  | .control _ children => children.map Part.toNode

/-- The nodes directly inside a node, in the order of the text. -/
def children : Node → List Node
  | expr e => ofExpr e
  | entry e => ofEntry e
  | stmt s => ofStmt s

end Node

end StyleSplit.Script

namespace StyleSplit

/-- A script: its text and its statements. -/
structure Script where
  source : Text
  body : List Script.Stmt

end StyleSplit
