import StyleSplit.Proofs.Scope.Standing
import StyleSplit.Proofs.Script.Keeping
import StyleSplit.Proofs.Script.Listing

/-! The own names of function and class expressions. A function declares its own name before
anything else in the scope that it opens, so a reference to the name inside stands for the
function unless something nearer declares the name. A class expression opens no scope and its
name is not in the tree: the name inside is looked up as if it stood around the class. -/
namespace StyleSplit

open Script Script.Node

namespace Script

/-- The name of a function expression or of a class expression: the word behind `function` or
`class` that is not a keyword. -/
def Tree.expressionName? : Tree → Option Text
  | .leaf _ => none
  | .node p children =>
    match p.head with
    | .functionExpression | .classExpression => children.findSome? ownWord?
    | _ => none
where
  ownWord? : Tree → Option Text
    | .leaf t => if t.terminal.isOpen then some t.text else none
    | .node .. => none

/-- The expression that a part of a derivation makes. -/
def Tree.expr? (part : Tree) : Option Expr :=
  match part.assemble with
  | .ok ⟨_, [.expr e]⟩ => some e
  | _ => none

/-- What function expressions and class expressions are made by. -/
def Production.selfNaming (p : Production) : Bool :=
  match p.head with
  | .functionExpression => p.action == .function
  | .classExpression => p.action == .compound
  | _ => true

theorem productions_selfNaming : ∀ n, ∀ p ∈ grammar.productions n, p.selfNaming = true :=
  productions_all (by decide)

namespace Tree

variable {part : Tree} {name : Text} {e : Expr}

theorem expr?_eq_some : part.expr? = some e ↔
    ∃ extent, part.assemble = .ok ⟨extent, [.expr e]⟩ := by
  unfold expr?
  split
  · rename_i made
    simp [made]
  · rename_i other
    simpa using fun extent => other extent e

/-- A function expression becomes a function with its name. -/
theorem function_named (valid : part.valid grammar = true)
    (symbol : part.symbol = .nonterminal .functionExpression)
    (named : part.expressionName? = some name)
    (made : part.expr? = some e) :
    ∃ span formals body, e = .function span (some name) formals body := by
  cases part with
  | leaf t => cases symbol
  | node p children =>
    have head : p.head = .functionExpression := Symbol.nonterminal.inj symbol
    obtain ⟨member, -, -⟩ := valid_node.mp valid
    have action := productions_selfNaming p.head p member
    simp only [Production.selfNaming, head, beq_iff_eq] at action
    obtain ⟨extent, made⟩ := expr?_eq_some.mp made
    obtain ⟨parts, parted, applied⟩ := assemble_applies valid made
    rw [action] at applied
    simp only [expressionName?, head] at named
    obtain ⟨child, listed, word⟩ := List.exists_of_findSome?_eq_some named
    cases child with
    | node => cases word
    | leaf t =>
      obtain ⟨isOpen, spelled⟩ := Option.ite_none_right_eq_some.mp word
      obtain rfl := Option.some.inj spelled
      obtain ⟨a, known, contributed⟩ := mem_of_forall₂ parted.flip listed
      cases contributed
      have given : Fragment.token t ∈ given .function parts :=
        List.mem_filter.mpr ⟨List.mem_flatMap.mpr ⟨_, known, List.mem_singleton_self _⟩,
          by simp [Assembled.counts, isOpen]⟩
      generalize Tree.given .function parts = fragments at applied given
      cases applied with
      | function own formals statements =>
        cases own with
        | none => simp at given
        | some t' =>
          obtain rfl : t = t' := by simpa using given
          exact ⟨_, formals, statements, rfl⟩

/-- A class expression becomes an expression that knows no name. -/
theorem class_unnamed (valid : part.valid grammar = true)
    (symbol : part.symbol = .nonterminal .classExpression)
    (made : part.expr? = some e) :
    ∃ span children, e = .other span children [] none := by
  cases part with
  | leaf t => cases symbol
  | node p children =>
    have head : p.head = .classExpression := Symbol.nonterminal.inj symbol
    obtain ⟨member, -, -⟩ := valid_node.mp valid
    have action := productions_selfNaming p.head p member
    simp only [Production.selfNaming, head, beq_iff_eq] at action
    obtain ⟨extent, made⟩ := expr?_eq_some.mp made
    obtain ⟨parts, -, applied⟩ := assemble_applies valid made
    rw [action] at applied
    cases applied
    exact ⟨_, _, rfl⟩

theorem expressionName?_cases (named : part.expressionName? = some name) :
    part.symbol = .nonterminal .functionExpression ∨
      part.symbol = .nonterminal .classExpression := by
  cases part with
  | leaf t => cases named
  | node p children =>
    simp only [expressionName?] at named
    split at named
    · rename_i head
      exact .inl (congrArg Symbol.nonterminal head)
    · rename_i head
      exact .inr (congrArg Symbol.nonterminal head)
    · cases named

theorem exists_expr? (valid : part.valid grammar = true)
    (named : part.expressionName? = some name) (made : ∃ a, part.assemble = .ok a) :
    ∃ e, part.expr? = some e := by
  obtain ⟨a, made⟩ := made
  have single : ∃ e, a.fragments = [.expr e] := by
    rcases expressionName?_cases named with symbol | symbol
    all_goals exact assemble_expr valid symbol rfl made
  obtain ⟨e, only⟩ := single
  exact ⟨e, expr?_eq_some.mpr ⟨a.span, assemble_only made only⟩⟩

end Tree

variable {source : Text} {s : StyleSplit.Script} {whole part : Tree} {p : Place} {use : Span}
  {name : Text} {k : Nat} {e : Expr}

/-- An identifier has one place. -/
theorem stands_unique (parsed : parse source = .ok s) {j : Nat}
    (stands : s.Stands (.expr (.identifier use name)) k)
    (stands' : s.Stands (.expr (.identifier use name)) j) : k = j :=
  congrArg Prod.snd
    (Option.some.inj ((find_use parsed stands).symm.trans (find_use parsed stands')))

/-- What stands inside a node has around it the scope in which the nodes inside that one stand. -/
theorem inner_around (parsed : parse source = .ok s) (place : p ∈ s.places)
    (stands : s.Stands (.expr (.identifier use name)) k)
    (inside : Holds p.node (.expr (.identifier use name)))
    (other : p.node ≠ .expr (.identifier use name)) : p.inner ∈ s.scopeTable.around k := by
  rcases holds_iff.mp inside with same | ⟨c, child, held⟩
  · exact absurd same other
  · obtain ⟨q, known, rfl, outer⟩ := stands_child place child
    obtain ⟨j, stands', around⟩ := stands_held known held
    rw [stands_unique parsed stands stands', ← outer]
    exact around

/-- A name that nothing inside a node declares is looked up from inside the node. -/
theorem lookup_from_inner (parsed : parse source = .ok s) (place : p ∈ s.places)
    (stands : s.Stands (.expr (.identifier use name)) k)
    (inside : Holds p.node (.expr (.identifier use name)))
    (other : p.node ≠ .expr (.identifier use name))
    (nearest : ∀ j ∈ s.scopeTable.around k, s.scopeTable.declares name j = true →
      j ∈ s.scopeTable.around p.inner) :
    s.scopeTable.lookup use name =
        ScopeTable.lookupFrom s.scopeTable.scopes p.inner name ∧
      s.scopeTable.declaringAt? use name =
        ScopeTable.declaring? s.scopeTable.scopes p.inner name := by
  have around := inner_around parsed place stands inside other
  have ordered : s.scopeTable.Ordered := s.descending_scopeTable
  have same : ScopeTable.declaring? s.scopeTable.scopes k name =
      ScopeTable.declaring? s.scopeTable.scopes p.inner name := by
    refine (ScopeTable.declaring?_same_iff ordered k p.inner name).mpr fun j declares => ?_
    exact ⟨fun here => nearest j here declares,
      fun there => (ScopeTable.around_suffix ordered around).subset there⟩
  obtain ⟨found, declaring⟩ := lookup_eq parsed stands
  exact ⟨by rw [found, ScopeTable.lookupFrom, ScopeTable.lookupFrom, same], declaring.trans same⟩

/-- The own name of a function, inside it, is declared by the function. -/
theorem lookup_function (parsed : parse source = .ok s) (place : p ∈ s.places)
    {span : Span} {formals : List Text} {body : List Stmt}
    (node : p.node = .expr (.function span (some name) formals body))
    (stands : s.Stands (.expr (.identifier use name)) k)
    (inside : Holds p.node (.expr (.identifier use name)))
    (nearest : ∀ j ∈ s.scopeTable.around k, s.scopeTable.declares name j = true →
      j ∈ s.scopeTable.around p.inner) :
    s.scopeTable.declaringAt? use name = some p.inner ∧
      ∃ b, s.scopeTable.lookup use name = some b ∧ b.kind = .function ∧
        b.init = some (.function span (some name) formals body) := by
  have own : p.node.ownName? = some name := by rw [node]; rfl
  obtain ⟨b, found, kind, init⟩ := calls_of_place place own
  obtain ⟨scope, known, declared⟩ := Option.bind_eq_some_iff.mp found
  have bound : p.inner < s.scopeTable.scopes.length := (List.getElem?_eq_some_iff.mp known).1
  obtain ⟨rest, around⟩ := ScopeTable.around_self bound
  have declares : s.scopeTable.declares name p.inner = true := by
    simp [ScopeTable.declares, known, declared]
  have declaring : ScopeTable.declaring? s.scopeTable.scopes p.inner name = some p.inner := by
    rw [ScopeTable.declaring?_eq, around, List.find?_cons_of_pos declares]
  have other : p.node ≠ .expr (.identifier use name) := by simp [node]
  obtain ⟨looked, seen⟩ := lookup_from_inner parsed place stands inside other nearest
  refine ⟨seen.trans declaring, b, ?_, kind, ?_⟩
  · rw [looked, ScopeTable.lookupFrom, declaring]
    exact found
  · rw [node] at init
    obtain ⟨f, same, called⟩ := Option.map_eq_some_iff.mp init
    rw [same, Node.expr.inj called]

/-- The own name of a function or class expression, inside it and where nothing nearer declares
the name. In a function it is declared by the function, and the reference stands for the function
unless the name is reassigned. In a class it is looked up as if it stood around the class. So it
never stands for anything else than the expression exactly if the expression is a function, or no
declaration of the name is seen from where the class stands, apart from one that has the class as
its value. -/
theorem own_name_hidden_iff (parsed : parse source = .ok s) (derived : derive source = .ok whole)
    (within : Tree.Within part whole) (named : part.expressionName? = some name) :
    ∃ e, part.expr? = some e ∧ ∀ p ∈ s.places, p.node = .expr e → ∀ use k,
      s.Stands (.expr (.identifier use name)) k →
      Holds (.expr e) (.expr (.identifier use name)) →
      (∀ j ∈ s.scopeTable.around k, s.scopeTable.declares name j = true →
        j ∈ s.scopeTable.around p.inner) →
      (part.symbol = .nonterminal .functionExpression →
        s.scopeTable.declaringAt? use name = some p.inner ∧
          ∃ b, s.scopeTable.lookup use name = some b ∧ b.kind = .function ∧ b.init = some e ∧
            s.scopeTable.resolve (.identifier use name) =
              if b.reassigned then .unresolved name .reassigned else .resolved e) ∧
      (part.symbol = .nonterminal .classExpression →
        s.scopeTable.lookup use name = ScopeTable.lookupFrom s.scopeTable.scopes p.outer name) ∧
      ((∀ b, s.scopeTable.lookup use name = some b → b.init = some e) ↔
        part.symbol = .nonterminal .functionExpression ∨
          ∀ b, ScopeTable.lookupFrom s.scopeTable.scopes p.outer name = some b →
            b.init = some e) := by
  have valid := within.valid (derive_ok derived).1
  obtain ⟨a, assembled, -⟩ := parse_assembled parsed derived
  obtain ⟨e, made⟩ := Tree.exists_expr? valid named (within.made assembled)
  refine ⟨e, made, fun p place node use k stands inside nearest => ?_⟩
  rcases Tree.expressionName?_cases named with function | class_
  · obtain ⟨span, formals, body, rfl⟩ := Tree.function_named valid function named made
    obtain ⟨declaring, b, found, kind, init⟩ :=
      lookup_function parsed place node stands (node ▸ inside) nearest
    refine ⟨fun _ => ⟨declaring, b, found, kind, init, ?_⟩, ?_, ?_⟩
    · have stepped : s.scopeTable.step use name = if b.reassigned then .error .reassigned
          else .ok (.function span (some name) formals body) := by
        simp [ScopeTable.step, found, kind, init]
      simp only [ScopeTable.resolve, ScopeTable.follow, stepped]
      cases b.reassigned <;> simp [ScopeTable.follow]
    · intro class_
      rw [function] at class_
      cases class_
    · refine iff_of_true (fun other known => ?_) (.inl function)
      rw [found] at known
      exact Option.some.inj known ▸ init
  · obtain ⟨span, children, rfl⟩ := Tree.class_unnamed valid class_ made
    have shut : p.inner = p.outer := by
      rcases inner_of_place place with ⟨-, same⟩ | ⟨opens, -⟩
      · exact same
      · rw [node] at opens
        cases opens
    have other : p.node ≠ .expr (.identifier use name) := by simp [node]
    have looked := (lookup_from_inner parsed place stands (node ▸ inside) other nearest).1
    rw [shut] at looked
    refine ⟨fun function => ?_, fun _ => looked, ?_⟩
    · rw [class_] at function
      cases function
    · rw [looked, class_, or_iff_right (by simp)]

/-- Whether a node is the identifier of a name at a span. -/
def isUse (use : Span) (name : Text) : Node → Bool
  | .expr (.identifier span other) => span == use && other == name
  | _ => false

theorem eq_of_isUse {n : Node} (same : isUse use name n = true) :
    n = .expr (.identifier use name) := by
  unfold isUse at same
  split at same
  · simp only [Bool.and_eq_true, beq_iff_eq] at same
    obtain ⟨rfl, rfl⟩ := same
    rfl
  · cases same

/-- The script `(function f(){f})`. -/
def selfCallSource : Text := text "(function f()\x7bf\x7d)"

/-- The function in it. -/
def selfCall : Expr :=
  .function ⟨1, 16⟩ (some (text "f")) []
    [.expression ⟨14, 15⟩ (.identifier ⟨14, 15⟩ (text "f"))]

/-- Whether a node is this function. -/
def isSelfCall : Node → Bool
  | .expr (.function span name [] [.expression place e]) =>
    span == ⟨1, 16⟩ && name == some (text "f") && place == ⟨14, 15⟩ &&
      isUse ⟨14, 15⟩ (text "f") (.expr e)
  | _ => false

theorem eq_of_isSelfCall {n : Node} (same : isSelfCall n = true) : n = .expr selfCall := by
  unfold isSelfCall at same
  split at same
  · simp only [Bool.and_eq_true, beq_iff_eq] at same
    obtain ⟨⟨⟨rfl, rfl⟩, rfl⟩, use⟩ := same
    rw [Node.expr.inj (eq_of_isUse use)]
    rfl
  · cases same

theorem own_name_hidden_iff_function : ∃ s whole part,
    parse selfCallSource = .ok s ∧ derive selfCallSource = .ok whole ∧
      Tree.Within part whole ∧ part.symbol = .nonterminal .functionExpression ∧
      part.expressionName? = some (text "f") ∧ part.expr? = some selfCall ∧
      ∀ b, s.scopeTable.lookup ⟨14, 15⟩ (text "f") = some b → b.init = some selfCall := by
  have checked : reads selfCallSource (fun whole s =>
      ((whole.parts .functionExpression).any fun part =>
        part.expressionName? == some (text "f") && part.expr?.any fun e => isSelfCall (.expr e)) &&
      s.places.any fun p => isSelfCall p.node && s.places.any fun q =>
        isUse ⟨14, 15⟩ (text "f") q.node && (s.scopeTable.around q.outer).all fun j =>
          !s.scopeTable.declares (text "f") j || (s.scopeTable.around p.inner).contains j) =
      true := by decide +kernel
  obtain ⟨s, whole, parsed, derived, found⟩ := exists_of_reads checked
  simp only [Bool.and_eq_true, List.any_eq_true, Option.any_eq_true, beq_iff_eq] at found
  obtain ⟨⟨part, listed, named, e, made, function⟩, p, place, node, q, known, use, near⟩ := found
  obtain ⟨symbol, within⟩ := Tree.mem_parts listed
  obtain rfl := Node.expr.inj (eq_of_isSelfCall function)
  have inside : Holds (.expr selfCall) (.expr (.identifier ⟨14, 15⟩ (text "f"))) :=
    .inside (List.mem_singleton_self _) (.inside (List.mem_singleton_self _) .self)
  have nearest : ∀ j ∈ s.scopeTable.around q.outer,
      s.scopeTable.declares (text "f") j = true → j ∈ s.scopeTable.around p.inner := by
    intro j around declares
    simpa [declares] using List.all_eq_true.mp near j around
  obtain ⟨e, made', hidden⟩ := own_name_hidden_iff parsed derived within named
  obtain rfl := Option.some.inj (made.symm.trans made')
  obtain ⟨-, -, never⟩ := hidden p place (eq_of_isSelfCall node) _ _
    ⟨q, known, eq_of_isUse use, rfl⟩ inside nearest
  exact ⟨s, whole, part, parsed, derived, within, symbol, named, made, never.mpr (.inl symbol)⟩

/-- The script `let B=1;(class B{m(){B}})`. -/
def classSource : Text := text "let B=1;(class B\x7bm()\x7bB\x7d\x7d)"

/-- The node in the only method of a class that has nothing else. -/
def soleUse? : Expr → Option Node
  | .other _ [.expr (.other _ [.expr (.function _ _ _ [.expression _ e])] _ _)] _ _ =>
    some (.expr e)
  | _ => none

theorem holds_of_soleUse? {n : Node} (sole : soleUse? e = some n) : Holds (.expr e) n := by
  unfold soleUse? at sole
  split at sole
  · cases sole
    exact .inside (List.mem_singleton_self _) (.inside (List.mem_singleton_self _)
      (.inside (List.mem_singleton_self _) (.inside (List.mem_singleton_self _) .self)))
  · cases sole

/-- The name of a class is seen through: inside `class B{m(){B}}` it is the variable `B` of the
script, and stands for the value of that. -/
theorem class_name_seen_through : ∃ s whole part e r,
    parse classSource = .ok s ∧ derive classSource = .ok whole ∧
      Tree.Within part whole ∧ part.symbol = .nonterminal .classExpression ∧
      part.expressionName? = some (text "B") ∧ part.expr? = some e ∧
      Holds (.expr e) (.expr (.identifier ⟨21, 22⟩ (text "B"))) ∧
      s.scopeTable.declaringAt? ⟨21, 22⟩ (text "B") = some 0 ∧
      s.scopeTable.resolve (.identifier ⟨21, 22⟩ (text "B")) = .resolved r ∧ r.span = ⟨6, 7⟩ := by
  have checked : reads classSource (fun whole s =>
      ((whole.parts .classExpression).any fun part =>
        part.expressionName? == some (text "B") && part.expr?.any fun e =>
          (soleUse? e).any (isUse ⟨21, 22⟩ (text "B"))) &&
        s.scopeTable.declaringAt? ⟨21, 22⟩ (text "B") == some 0 &&
        (s.scopeTable.resolve (.identifier ⟨21, 22⟩ (text "B"))).expr?.any fun r =>
          r.span == ⟨6, 7⟩) = true := by decide +kernel
  obtain ⟨s, whole, parsed, derived, found⟩ := exists_of_reads checked
  simp only [Bool.and_eq_true, List.any_eq_true, Option.any_eq_true, beq_iff_eq] at found
  obtain ⟨⟨⟨part, listed, named, e, made, n, sole, use⟩, seen⟩, r, resolved, place⟩ := found
  obtain ⟨symbol, within⟩ := Tree.mem_parts listed
  exact ⟨s, whole, part, e, r, parsed, derived, within, symbol, named, made,
    eq_of_isUse use ▸ holds_of_soleUse? sole, seen, Resolution.expr?_eq_some.mp resolved, place⟩

end Script

end StyleSplit
