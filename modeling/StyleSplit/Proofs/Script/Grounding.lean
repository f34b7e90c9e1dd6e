import StyleSplit.Proofs.Script.Everywhere

/-! What the nodes of a script keep of its derivation. Every object literal and every call
is made by a part of the derivation, the initial value of a declarator lies inside it, and
what a function declaration declares is a function. -/
namespace StyleSplit.Script

/-- What a derivation says about a node on its own. -/
def Node.Grounded (whole : Tree) : Node → Prop
  | .expr (.mapping span entries) => whole.Makes (.mapping span entries)
  | .expr (.call span callee items argumentsSpan name) =>
    whole.Makes (.call span callee items argumentsSpan name)
  | .stmt (.declaration _ _ declarators) =>
    ∀ d ∈ declarators, ∀ e, d.init = some e → d.Contains e
  | .stmt (.function _ _ definition) =>
    ∃ span name parameters body, definition = .function span name parameters body
  | _ => True

abbrev Expr.Grounded (whole : Tree) (e : Expr) : Prop :=
  Node.Everywhere (Node.Grounded whole) (.expr e)

abbrev Stmt.Grounded (whole : Tree) (s : Stmt) : Prop :=
  Node.Everywhere (Node.Grounded whole) (.stmt s)

namespace Fragment

def Grounded (whole : Tree) : Fragment → Prop
  | expr e => e.Grounded whole
  | entry e => Node.Everywhere (Node.Grounded whole) (.entry e)
  | stmt s => s.Grounded whole
  | declarator d => ∀ e, d.init = some e →
      e.Grounded whole ∧ d.Contains e
  | arguments _ items => ∀ e ∈ items, e.Grounded whole
  | body statements => ∀ s ∈ statements, s.Grounded whole
  | token _ | word _ | names _ => True

theorem Every.grounded {whole : Tree} {f : Fragment} (every : f.Every (Node.Grounded whole)) :
    f.Grounded whole := by
  cases f <;> exact every

end Fragment

namespace Tree

variable {whole tree : Tree} {a : Assembled}

theorem inherent_grounded : Node.Inherent (Node.Grounded whole) where
  plain n plain := by
    cases n with
    | expr e => cases e <;> trivial
    | entry e => trivial
    | stmt s => cases s <;> trivial
  declaration _ _ _ contains := contains
  function _ _ _ place own parameters body same := ⟨place, own, parameters, body, same⟩

theorem roots_grounded : whole.Roots (Node.Grounded whole) where
  token _ _ := trivial
  mapping _ _ makes := makes
  call _ _ _ _ _ makes := makes

/-- All that a derivation contributes is grounded in it. -/
theorem assemble_grounded (within : Within tree whole)
    (valid : whole.valid grammar = true) (order : Token.InOrder whole.word)
    (made : tree.assemble = .ok a) : ∀ f ∈ a.fragments, f.Grounded whole := by
  intro f member
  exact (assemble_every inherent_grounded roots_grounded valid order within made f member).grounded

end Tree

/-- What reading a script leaves known of its derivation. -/
structure Derived (s : StyleSplit.Script) (tree : Tree) : Prop where
  valid : tree.valid grammar = true
  symbol : tree.symbol = .nonterminal .program
  scans : Token.Scans 0 s.source tree.word []
  grounded : ∀ statement ∈ s.body, statement.Grounded tree

theorem parse_derived {source : Text} {s : StyleSplit.Script} (parsed : parse source = .ok s) :
    s.source = source ∧ ∃ tree, Derived s tree := by
  obtain ⟨same, tree, valid, symbol, scans, every⟩ := parse_every parsed
  exact ⟨same, tree, valid, symbol, scans, every _ Tree.inherent_grounded Tree.roots_grounded⟩

theorem Derived.inOrder {s : StyleSplit.Script} {tree : Tree} (derived : Derived s tree) :
    Token.InOrder tree.word :=
  derived.scans.inOrder

end StyleSplit.Script
