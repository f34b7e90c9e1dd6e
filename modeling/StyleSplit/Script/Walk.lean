import StyleSplit.Script.Node

/-! The walk through a script: every node once, each before the nodes inside it, in the
order of the text. The walk keeps a stack of the nodes still to come by. -/
namespace StyleSplit

namespace Script

mutual

/-- The number of nodes of an expression, itself included. -/
def Expr.size : Expr → Nat
  | .literal .. | .identifier .. => 1
  | .list _ items => sizeOfItems items + 1
  | .mapping _ entries => sizeOfEntries entries + 1
  | .function _ _ _ body => sizeOfBody body + 1
  | .call _ callee arguments _ _ => callee.size + sizeOfItems arguments + 1
  | .other _ children _ _ => sizeOfParts children + 1

/-- The number of nodes of an entry, itself included; a plain key does not count. -/
def Entry.size : Entry → Nat
  | .mk _ (some key) value true _ => key.size + value.size + 1
  | .mk _ _ value _ _ => value.size + 1

def Part.size : Part → Nat
  | .expr e => e.size
  | .stmt s => s.size

def Declarator.size : Declarator → Nat
  | .mk _ _ (some init) _ => init.size
  | .mk _ _ none _ => 0

def Stmt.size : Stmt → Nat
  | .declaration _ _ declarators => sizeOfDeclarators declarators + 1
  | .function _ _ definition => definition.size + 1
  | .class_ _ _ body => body.size + 1
  | .imports .. => 1
  | .expression _ e => e.size + 1
  | .block _ body => sizeOfBody body + 1
  | .control _ children => sizeOfParts children + 1

def sizeOfItems : List Expr → Nat
  | [] => 0
  | e :: rest => e.size + sizeOfItems rest

def sizeOfEntries : List Entry → Nat
  | [] => 0
  | e :: rest => e.size + sizeOfEntries rest

def sizeOfParts : List Part → Nat
  | [] => 0
  | p :: rest => p.size + sizeOfParts rest

def sizeOfDeclarators : List Declarator → Nat
  | [] => 0
  | d :: rest => d.size + sizeOfDeclarators rest

def sizeOfBody : List Stmt → Nat
  | [] => 0
  | s :: rest => s.size + sizeOfBody rest

end

/-- The nodes on a stack, the first one next, each followed by the nodes inside it. -/
def visit : Nat → List Node → List Node
  | 0, _ => []
  | _ + 1, [] => []
  | fuel + 1, n :: stack => n :: visit fuel (n.children ++ stack)

def size (s : Script) : Nat := sizeOfBody s.body

/-- Every node of a script. Each step comes by one, so their number is enough fuel. -/
def walk (s : Script) : List Node := visit s.size (s.body.map .stmt)

def textAt (s : Script) (span : Span) : Text := span.of s.source

end Script

end StyleSplit
