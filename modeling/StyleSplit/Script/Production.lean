import StyleSplit.Script.Terminal

/-! The form of the script grammar: nonterminals, productions, and what each
production contributes to the tree of a script. -/
namespace StyleSplit.Script

/-- The nonterminal symbols. Names that start with `more` are repeated parts, one or
more times. -/
inductive Nonterminal where
  | program | statements | statement | openStatement | simpleStatement | semicolon
  | variableDeclaration | variableKind | declarator | moreDeclarators | pattern
  | functionDeclaration | classDeclaration | parameters | parameter | moreParameters
  | functionBody | heritage | classBody | member | moreMembers | field
  | importDeclaration | importClause | importDefault | importNamespace | namedImports
  | importSpecifier | moreImportSpecifiers
  | exportDeclaration | exportClause | exportSpecifier | moreExportSpecifiers
  | returnStatement | throwStatement | jumpStatement | ifStatement | whileStatement
  | doStatement | forStatement | forInit | forInStatement | forBinding | tryStatement
  | catchClause | finallyClause | block | expressionStatement | emptyStatement
  | expression | assignment | assignOperator | conditional | binary | binaryOperator
  | unary | unaryOperator | updateOperator | suffixUpdate | callMember | construction
  | bareConstruction | constructor | arguments | element | moreElements | spread | primary
  | arrayLiteral | objectLiteral | property | moreProperties | method | modifier
  | moreModifiers | propertyKey | propertyName | functionExpression | classExpression
  | arrowFunction | arrowParameters | arrowBody
deriving DecidableEq, Repr, Inhabited

def Nonterminal.all : List Nonterminal :=
  [.program, .statements, .statement, .openStatement, .simpleStatement, .semicolon,
   .variableDeclaration, .variableKind, .declarator, .moreDeclarators, .pattern,
   .functionDeclaration, .classDeclaration, .parameters, .parameter, .moreParameters,
   .functionBody, .heritage, .classBody, .member, .moreMembers, .field, .importDeclaration,
   .importClause, .importDefault, .importNamespace, .namedImports, .importSpecifier,
   .moreImportSpecifiers, .exportDeclaration, .exportClause, .exportSpecifier,
   .moreExportSpecifiers, .returnStatement, .throwStatement, .jumpStatement, .ifStatement,
   .whileStatement, .doStatement, .forStatement, .forInit, .forInStatement, .forBinding,
   .tryStatement, .catchClause, .finallyClause, .block, .expressionStatement, .emptyStatement,
   .expression, .assignment, .assignOperator, .conditional, .binary, .binaryOperator, .unary,
   .unaryOperator, .updateOperator, .suffixUpdate, .callMember, .construction, .bareConstruction,
   .constructor, .arguments, .element, .moreElements, .spread, .primary, .arrayLiteral,
   .objectLiteral, .property, .moreProperties, .method, .modifier, .moreModifiers, .propertyKey,
   .propertyName, .functionExpression, .classExpression, .arrowFunction, .arrowParameters,
   .arrowBody]

/-- A set of nonterminals: the bits of a number. -/
structure NonterminalSet where
  bits : Nat
deriving DecidableEq, Repr, Inhabited

namespace NonterminalSet

def empty : NonterminalSet := ⟨0⟩

def contains (s : NonterminalSet) (n : Nonterminal) : Bool := Nat.testBit s.bits n.ctorIdx

def insert (s : NonterminalSet) (n : Nonterminal) : NonterminalSet :=
  ⟨Nat.lor s.bits (Nat.shiftLeft 1 n.ctorIdx)⟩

/-- Adds nonterminals to a set. The first part of the result are those that were not in
it, in order. -/
def addAll (s : NonterminalSet) : List Nonterminal → List Nonterminal × NonterminalSet
  | [] => ([], s)
  | n :: rest =>
    if s.contains n then addAll s rest
    else
      let (fresh, s) := addAll (s.insert n) rest
      (n :: fresh, s)

end NonterminalSet

inductive Symbol where
  | terminal (t : Terminal)
  | nonterminal (n : Nonterminal)
deriving DecidableEq, Repr, Inhabited

/-- What a production makes of the parts it is given. `splice` hands them on, `discard`
drops them; the others make one part of them, as `Action.apply` says. -/
inductive Action where
  | splice | discard
  | identifier | number | string | template | true_ | false_ | null | compound
  | list | mapping | keyedEntry | computedEntry | shorthandEntry | spreadEntry | method
  | word | nameKey | stringKey | numberKey
  | parameters | boundNames | lastName | body | function | arrow | classBody | field
  | assignment | update | negation | member | arguments | call | construction
  | declarator | declaration | functionDeclaration | classDeclaration | imports | exported
  | expressionStatement | block | control | forBinding | catchClause
deriving DecidableEq, Repr, Inhabited

/-- A production: its head, its place among the productions of that head, its body, a
priority, and its action. -/
structure Production where
  head : Nonterminal
  order : Nat
  body : List Symbol
  priority : Int
  action : Action
deriving DecidableEq, Repr, Inhabited

/-- A grammar: a start symbol and the productions of every nonterminal, in order. -/
structure Grammar where
  start : Nonterminal
  productions : Nonterminal → List Production

namespace Grammar

def fronts (productions : List Production) : List Nonterminal :=
  productions.filterMap fun p =>
    match p.body with
    | .nonterminal n :: _ => some n
    | _ => none

/-- The nonterminals of `queue`, each followed in turn, breadth first, by the nonterminals
at the front of its bodies that are not yet in the set `seen`. -/
def reach (g : Grammar) : Nat → NonterminalSet → List Nonterminal → List Nonterminal
  | 0, _, _ => []
  | _ + 1, _, [] => []
  | fuel + 1, seen, n :: queue =>
    let (fresh, seen) := seen.addAll (fronts (g.productions n))
    n :: reach g fuel seen (queue ++ fresh)

/-- The nonterminals with which a text derived from `n` may start, breadth first. -/
def corners (g : Grammar) (n : Nonterminal) : List Nonterminal :=
  g.reach 100 (NonterminalSet.empty.insert n) [n]

/-- The number of places in bodies, the ends included: how many items can start at one
token. -/
def places (g : Grammar) : Nat :=
  (Nonterminal.all.flatMap g.productions).foldl (fun total p => total + p.body.length + 1) 0

end Grammar

end StyleSplit.Script
