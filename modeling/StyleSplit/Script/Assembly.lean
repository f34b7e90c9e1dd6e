import StyleSplit.Script.Derivation
import StyleSplit.Script.Literal
import StyleSplit.Script.Node

/-! The tree of a script from its derivation. Every production takes the fragments that
its body contributes and makes its own of them; the span of a fragment is that of all
tokens of its production, so parentheses around an expression do not belong to it, but
to what stands around them. -/
namespace StyleSplit.Script

mutual

/-- The names that an expression binds when it is taken as a pattern, in order. -/
def Expr.boundNames : Expr → List Text
  | .identifier _ name => [name]
  | .list _ items => boundNamesOfItems items
  | .mapping _ entries => boundNamesOfEntries entries
  | .other _ children _ _ => boundNamesOfParts children
  | .literal .. | .function .. | .call .. => []

def boundNamesOfItems : List Expr → List Text
  | [] => []
  | e :: rest => e.boundNames ++ boundNamesOfItems rest

def boundNamesOfEntries : List Entry → List Text
  | [] => []
  | .mk _ _ value _ _ :: rest => value.boundNames ++ boundNamesOfEntries rest

def boundNamesOfParts : List Part → List Text
  | [] => []
  | .expr e :: rest => e.boundNames ++ boundNamesOfParts rest
  | .stmt _ :: rest => boundNamesOfParts rest

end

/-- The names whose values change when an expression is assigned to. Writing to a member
changes the object that has it. -/
def Expr.assignedNames : Expr → List Text
  | .other _ (.expr e :: _) _ _ => e.assignedNames
  | .other _ (.stmt _ :: _) _ _ => []
  | e => e.boundNames

/-- What a part of a derivation contributes to the part around it. -/
inductive Fragment where
  | token (t : Token)
  | word (spelling : Text)
  | names (names : List Text)
  | expr (e : Expr)
  | entry (e : Entry)
  | stmt (s : Stmt)
  | declarator (d : Declarator)
  | arguments (span : Span) (items : List Expr)
  | body (statements : List Stmt)

namespace Fragment

def name? : Fragment → Option Text
  | token t => some t.text
  | word spelling => some spelling
  | _ => none

def expr? : Fragment → Option Expr
  | expr e => some e
  | _ => none

def stmt? : Fragment → Option Stmt
  | stmt s => some s
  | _ => none

def part? : Fragment → Option Part
  | expr e => some (.expr e)
  | stmt s => some (.stmt s)
  | _ => none

def entry? : Fragment → Option Entry
  | entry e => some e
  | _ => none

def declarator? : Fragment → Option Declarator
  | declarator d => some d
  | _ => none

def boundNames : Fragment → List Text
  | .names ns => ns
  | .expr e => e.boundNames
  | _ => []

def importedNames : Fragment → List Text
  | .names ns => ns
  | _ => []

/-- A member of a class: the value of a method, or the initial value of a field. -/
def member? : Fragment → Option Part
  | entry e => some (.expr e.value)
  | expr e => some (.expr e)
  | _ => none

def isToken : Fragment → Bool
  | token _ => true
  | _ => false

def variableKind (spelling : Text) : VariableKind :=
  if spelling == Keyword.const.spelling then .const
  else if spelling == Keyword.let_.spelling then .let_
  else .var

end Fragment

namespace Expr

/-- The name by which a callee is known: its own if it is an identifier, or that of the
member it is. -/
def calleeName? : Expr → Option Text
  | identifier _ name => some name
  | other _ _ _ name => name
  | _ => none

/-- The negative of a number, or an expression made of the operand. -/
def negated (span : Span) : Expr → Expr
  | literal _ (.number n) => literal span (.number n.neg)
  | operand => other span [.expr operand] [] none

/-- A text without substitutions is a literal; the substitutions of another one are not
looked into. -/
def ofTemplate (span : Span) (raw : Text) : Except LiteralError Expr :=
  if Text.containsText (text "$\x7b") raw then .ok (other span [] [] none)
  else return literal span (.text (← Literal.decodeText raw))

def members : Expr → List Part
  | other _ children _ _ => children
  | _ => []

end Expr

namespace Action

/-- A target that is not a plain name takes its value apart. -/
def isPattern : Expr → Bool
  | .identifier .. => false
  | _ => true

/-- Expressions without parts of their own, and property keys, from the token that they
consist of. -/
def applyToken (action : Action) (span : Span) (t : Token) :
    Except LiteralError (List Fragment) :=
  match action with
  | .identifier => .ok [.expr (.identifier span t.text)]
  | .number | .numberKey => do
    return [.expr (.literal span (.number (← Literal.decodeNumber t.text)))]
  | .string | .stringKey => do
    return [.expr (.literal span (.text (← Literal.decodeText t.text)))]
  | .template => do return [.expr (← Expr.ofTemplate span t.text)]
  | .word => .ok [.word t.text]
  | .shorthandEntry =>
    let key := .literal t.span (.text t.text)
    .ok [.entry (.mk span (some key) (.identifier t.span t.text) false true)]
  | _ => .ok []

def applyExpr (action : Action) (span : Span) (e : Expr) : List Fragment :=
  match action with
  | .spreadEntry => [.entry (.mk span none e false false)]
  | .update | .forBinding => [.expr (.other span [.expr e] e.assignedNames none)]
  | .negation => [.expr (e.negated span)]
  | .construction => [.expr (.other span [.expr e] [] none)]
  | .declarator => [.declarator (.mk span e.boundNames none (isPattern e))]
  | .expressionStatement => [.stmt (.expression span e)]
  | _ => []

def applyPair (action : Action) (span : Span) (a b : Expr) : List Fragment :=
  match action with
  | .keyedEntry => [.entry (.mk span (some a) b false false)]
  | .computedEntry => [.entry (.mk span (some a) b true false)]
  | .assignment => [.expr (.other span [.expr a, .expr b] a.assignedNames none)]
  | .declarator => [.declarator (.mk span a.boundNames (some b) (isPattern a))]
  | .field => [.expr b]
  | _ => []

def applyFunction (action : Action) (span : Span) (name : Option Token)
    (parameters : List Text) (body : List Stmt) : List Fragment :=
  let definition := .function span (name.map Token.text) parameters body
  match action, name with
  | .functionDeclaration, some t => [.stmt (.function span t.text definition)]
  | .functionDeclaration, none => []
  | _, _ => [.expr definition]

/-- A declaration of a class. What it extends belongs to the class as much as its
members do. -/
def classDefinition (span : Span) (t : Token) (heritage : Option Expr) (body : Expr) : Stmt :=
  match heritage with
  | none => .class_ span t.text body
  | some e => .class_ span t.text (.other body.span (.expr e :: body.members) [] none)

/-- What a production with this action makes of the fragments of its body, given the
span of its tokens. Fragments that no production of the grammar offers give nothing. -/
def apply (action : Action) (span : Span) (fragments : List Fragment) :
    Except LiteralError (List Fragment) :=
  let exprs := fragments.filterMap Fragment.expr?
  let parts := fragments.filterMap Fragment.part?
  match action with
  | .splice => .ok fragments
  | .discard => .ok []
  | .identifier | .number | .string | .template | .word | .stringKey | .numberKey
  | .shorthandEntry =>
    match fragments with
    | .token t :: _ => applyToken action span t
    | _ => .ok []
  | .nameKey =>
    match fragments with
    | [.word spelling] => .ok [.expr (.literal span (.text spelling))]
    | _ => .ok []
  | .true_ => .ok [.expr (.literal span (.bool true))]
  | .false_ => .ok [.expr (.literal span (.bool false))]
  | .null => .ok [.expr (.literal span .null)]
  | .compound => .ok [.expr (.other span parts [] none)]
  | .list => .ok [.expr (.list span exprs)]
  | .mapping => .ok [.expr (.mapping span (fragments.filterMap Fragment.entry?))]
  | .spreadEntry | .update | .negation | .expressionStatement =>
    match fragments with
    | [.expr e] => .ok (applyExpr action span e)
    | _ => .ok []
  | .keyedEntry | .computedEntry | .assignment | .field =>
    match fragments with
    | [.expr a, .expr b] => .ok (applyPair action span a b)
    | _ => .ok []
  | .method =>
    match fragments.filter (!·.isToken) with
    | [.expr key, .names formals, .body statements] =>
      .ok [.entry (.mk span (some key) (.function span none formals statements) false false)]
    | _ => .ok []
  | .parameters => .ok [.names (fragments.flatMap Fragment.boundNames)]
  | .boundNames =>
    match fragments with
    | first :: _ => .ok [.names first.boundNames]
    | [] => .ok []
  | .lastName => .ok [.names (fragments.filterMap Fragment.name?).getLast?.toList]
  | .body => .ok [.body (fragments.filterMap Fragment.stmt?)]
  | .function | .functionDeclaration =>
    match fragments with
    | [.token t, .names formals, .body statements] =>
      .ok (applyFunction action span (some t) formals statements)
    | [.names formals, .body statements] =>
      .ok (applyFunction action span none formals statements)
    | _ => .ok []
  | .arrow =>
    match fragments with
    | [.names formals, .body statements] =>
      .ok [.expr (.function span none formals statements)]
    | [.names formals, .expr e] =>
      .ok [.expr (.function span none formals [.expression e.span e])]
    | _ => .ok []
  | .classBody => .ok [.expr (.other span (fragments.filterMap Fragment.member?) [] none)]
  | .member =>
    match fragments with
    | [.expr e, .word name] => .ok [.expr (.other span [.expr e] [] (some name))]
    | _ => .ok []
  | .arguments => .ok [.arguments span exprs]
  | .call =>
    match fragments with
    | [.expr callee, .arguments argumentsSpan items] =>
      .ok [.expr (.call span callee items argumentsSpan callee.calleeName?)]
    | _ => .ok []
  | .construction =>
    match fragments with
    | [.expr callee, .arguments _ items] =>
      .ok [.expr (.other span (.expr callee :: items.map .expr) [] none)]
    | [.expr callee] => .ok (applyExpr action span callee)
    | _ => .ok []
  | .declarator =>
    match fragments with
    | [.expr target] => .ok (applyExpr action span target)
    | [.expr target, .expr init] => .ok (applyPair action span target init)
    | _ => .ok []
  | .declaration =>
    match fragments with
    | .word kind :: declarators =>
      .ok [.stmt (.declaration span (Fragment.variableKind kind)
        (declarators.filterMap Fragment.declarator?))]
    | _ => .ok []
  | .classDeclaration =>
    match fragments with
    | [.token t, .expr members] => .ok [.stmt (classDefinition span t none members)]
    | [.token t, .expr heritage, .expr members] =>
      .ok [.stmt (classDefinition span t (some heritage) members)]
    | _ => .ok []
  | .imports => .ok [.stmt (.imports span (fragments.flatMap Fragment.importedNames))]
  | .exported =>
    match fragments.filter (!·.isToken) with
    | .stmt s :: _ => .ok [.stmt s]
    | .expr e :: _ => .ok [.stmt (.expression span e)]
    | _ => .ok [.stmt (.control span [])]
  | .block => .ok [.stmt (.block span (fragments.filterMap Fragment.stmt?))]
  | .control => .ok [.stmt (.control span parts)]
  | .forBinding =>
    match fragments with
    | [.word kind, .expr target] =>
      .ok [.stmt (.declaration span (Fragment.variableKind kind)
        [.mk target.span target.boundNames none true])]
    | [.expr target] => .ok (applyExpr action span target)
    | _ => .ok []
  | .catchClause =>
    match fragments with
    | [.stmt s] => .ok [.stmt s]
    | [.expr target, .stmt (.block _ statements)] =>
      .ok [.stmt (.block span (.declaration target.span .parameter
        [.mk target.span target.boundNames none true] :: statements))]
    | _ => .ok []

/-- Whether the words and marks of a production count among its fragments. -/
def keepsMarks : Action → Bool
  | word => true
  | _ => false

end Action

/-- The span of all tokens of a part, if it has any, and what it contributes. -/
structure Assembled where
  span : Option Span
  fragments : List Fragment

namespace Assembled

def extent : List Assembled → Option Span
  | [] => none
  | part :: rest =>
    match part.span, extent rest with
    | some first, some last => some ⟨first.start, last.stop⟩
    | some only, none | none, some only => some only
    | none, none => none

def counts (action : Action) : Fragment → Bool
  | .token t => t.terminal.isOpen || action.keepsMarks
  | _ => true

end Assembled

mutual

/-- What a derivation contributes. The first literal without a value decides. -/
def Tree.assemble : Tree → Except LiteralError Assembled
  | .leaf t => .ok ⟨some t.span, [.token t]⟩
  | .node production children => do
    let parts ← Tree.assembleAll children
    let span := Assembled.extent parts
    let fragments := (parts.flatMap (·.fragments)).filter (Assembled.counts production.action)
    return ⟨span, ← production.action.apply (span.getD ⟨0, 0⟩) fragments⟩

def Tree.assembleAll : List Tree → Except LiteralError (List Assembled)
  | [] => .ok []
  | tree :: rest => do return (← tree.assemble) :: (← Tree.assembleAll rest)

end

def Tree.statements (tree : Tree) : Except LiteralError (List Stmt) := do
  return (← tree.assemble).fragments.filterMap Fragment.stmt?

end StyleSplit.Script
