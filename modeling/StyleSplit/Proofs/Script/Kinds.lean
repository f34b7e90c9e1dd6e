import StyleSplit.Proofs.Script.Roles

/-! Kinds of fragments. Most nonterminals contribute fragments of a fixed number and
kind; which ones follows from their forms. -/
namespace StyleSplit.Script

/-- What kind of thing a fragment is. -/
inductive Kind where
  | token | word | names | expr | entry | stmt | declarator | arguments | body
deriving DecidableEq, Repr

def Fragment.kind : Fragment → Kind
  | token _ => .token
  | word _ => .word
  | names _ => .names
  | expr _ => .expr
  | entry _ => .entry
  | stmt _ => .stmt
  | declarator _ => .declarator
  | arguments .. => .arguments
  | body _ => .body

theorem Fragment.kind_eq_expr {f : Fragment} : f.kind = .expr ↔ ∃ e, f = .expr e := by
  cases f <;> simp [kind]

/-- What the fragments of a nonterminal may be, where that is one of a few lists. None of
them has a bare token. -/
def Nonterminal.kinds : Nonterminal → Option (List (List Kind))
  | .expression | .assignment | .conditional | .binary | .unary | .suffixUpdate | .callMember
  | .construction | .bareConstruction | .constructor | .element | .spread | .primary
  | .arrayLiteral | .objectLiteral | .functionExpression | .classExpression | .arrowFunction
  | .pattern | .propertyKey => some [[.expr]]
  | .assignOperator | .binaryOperator | .unaryOperator | .updateOperator => some [[]]
  | .propertyName => some [[.word]]
  | .parameters | .arrowParameters => some [[.names]]
  | .functionBody => some [[.body]]
  | .arrowBody => some [[.body], [.expr]]
  | .arguments => some [[.arguments]]
  | _ => none

def Role.kind : Role → Kind
  | token => .token
  | word => .word
  | names => .names
  | key | members | expr => .expr
  | method | entry => .entry
  | stmt | block => .stmt
  | declarator => .declarator
  | arguments => .arguments
  | body => .body

theorem Role.Fits.kind {role : Role} {f : Fragment} (fits : role.Fits f) : f.kind = role.kind := by
  cases fits <;> rfl

namespace Form

def kinds? : Form → Option (List Kind)
  | [] => some []
  | .one role :: rest => (kinds? rest).map (role.kind :: ·)
  | .many _ :: _ => none

theorem Fits.kinds {form : Form} {fs : List Fragment} (fits : Fits form fs) {kinds : List Kind}
    (single : form.kinds? = some kinds) : fs.map Fragment.kind = kinds := by
  induction fits generalizing kinds with
  | nil =>
    cases single
    rfl
  | one here _ ih =>
    obtain ⟨others, behind, rfl⟩ := Option.map_eq_some_iff.mp single
    rw [List.map_cons, here.kind, ih behind]
  | many => cases single

end Form

/-- Whether all forms of a nonterminal are rows of the kinds that it is said to contribute. -/
def Nonterminal.kindly (n : Nonterminal) : Bool :=
  n.kinds.all fun known => n.forms.all fun form => form.kinds?.any known.contains

namespace Tree

variable {tree : Tree} {a : Assembled}

/-- A part of a derivation contributes what its symbol is said to. -/
theorem assemble_contributes (valid : tree.valid grammar = true)
    (made : tree.assemble = .ok a) (n : Nonterminal) (known : List (List Kind))
    (head : tree.symbol = .nonterminal n) (some : n.kinds = some known) :
    a.fragments.map Fragment.kind ∈ known := by
  obtain ⟨form, member, fits⟩ := assemble_formed valid made n head
  have each : n.kindly = true := by cases n <;> rfl
  rw [Nonterminal.kindly, some, Option.all_some] at each
  obtain ⟨kinds, single, listed⟩ :=
    (Option.any_eq_true _ _).mp (List.all_eq_true.mp each form member)
  rw [fits.kinds single]
  exact List.contains_iff_mem.mp listed

/-- An expression contributes itself. -/
theorem assemble_expr {n : Nonterminal} (valid : tree.valid grammar = true)
    (head : tree.symbol = .nonterminal n) (kinds : n.kinds = some [[.expr]])
    (made : tree.assemble = .ok a) : ∃ e, a.fragments = [.expr e] := by
  have only := List.mem_singleton.mp (assemble_contributes valid made n _ head kinds)
  obtain ⟨f, same, kind⟩ := List.map_eq_singleton_iff.mp only
  obtain ⟨e, rfl⟩ := Fragment.kind_eq_expr.mp kind
  exact ⟨e, same⟩

end Tree

end StyleSplit.Script
