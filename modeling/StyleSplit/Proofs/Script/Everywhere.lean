import StyleSplit.Proofs.Script.Cores
import StyleSplit.Proofs.Script.Edges
import StyleSplit.Proofs.Script.Reading
import StyleSplit.Script.Walk

/-! Properties of all nodes of a script. Most nodes have such a property whatever they are
made of; identifiers have it from the tokens of the derivation, object literals and calls
from the part of it that makes them. One pass through what the productions make carries
any property of this kind from the derivation to every node that a walk comes by. -/
namespace StyleSplit.Script

namespace Node

/-- A node is another one or stands somewhere inside it. -/
inductive Holds : Node → Node → Prop where
  | self {n : Node} : Holds n n
  | inside {n c inner : Node} : c ∈ n.children → Holds c inner → Holds n inner

theorem Holds.trans {outer middle inner : Node} (first : Holds outer middle)
    (last : Holds middle inner) : Holds outer inner := by
  induction first with
  | self => exact last
  | inside member _ ih => exact .inside member (ih last)

/-- A node and all nodes inside it have a property. -/
def Everywhere (P : Node → Prop) (n : Node) : Prop := ∀ inner, Holds n inner → P inner

variable {P : Node → Prop} {n : Node}

theorem everywhere_iff : Everywhere P n ↔ P n ∧ ∀ c ∈ n.children, Everywhere P c := by
  constructor
  · intro all
    exact ⟨all n .self, fun c member inner holds => all inner (.inside member holds)⟩
  · rintro ⟨here, inside⟩ inner holds
    cases holds with
    | self => exact here
    | inside member holds => exact inside _ member inner holds

theorem Everywhere.child (all : Everywhere P n) {c : Node} (member : c ∈ n.children) :
    Everywhere P c :=
  (everywhere_iff.mp all).2 c member

theorem everywhere_leaf (here : P n) (none : n.children = []) : Everywhere P n :=
  everywhere_iff.mpr ⟨here, by simp [none]⟩

theorem everywhere_single {c : Node} (here : P n) (only : n.children = [c])
    (inside : Everywhere P c) : Everywhere P n :=
  everywhere_iff.mpr ⟨here, by simpa [only] using inside⟩

theorem everywhere_map {α : Type} {xs : List α} {make : α → Node} (here : P n)
    (made : n.children = xs.map make) (each : ∀ x ∈ xs, Everywhere P (make x)) :
    Everywhere P n :=
  everywhere_iff.mpr ⟨here, by simpa [made] using each⟩

theorem mem_visit {fuel : Nat} {stack : List Node} (member : n ∈ visit fuel stack) :
    ∃ top ∈ stack, Holds top n := by
  induction fuel generalizing stack with
  | zero => simp [visit] at member
  | succ fuel ih =>
    cases stack with
    | nil => simp [visit] at member
    | cons first rest =>
      rcases List.mem_cons.mp member with rfl | member
      · exact ⟨n, by simp, .self⟩
      · obtain ⟨top, listed, holds⟩ := ih member
        rcases List.mem_append.mp listed with child | other
        · exact ⟨first, by simp, .inside child holds⟩
        · exact ⟨top, List.mem_cons_of_mem _ other, holds⟩

end Node

theorem Entry.value_mem_children (e : Entry) : .expr e.value ∈ (Node.entry e).children := by
  obtain ⟨_, key, value, computed, _⟩ := e
  cases key <;> cases computed <;> simp [Node.children, Node.ofEntry, Entry.value]

/-- The walk comes by nothing but the statements and what is inside them. -/
theorem mem_walk {s : StyleSplit.Script} {n : Node} (member : n ∈ s.walk) :
    ∃ statement ∈ s.body, Node.Holds (.stmt statement) n := by
  obtain ⟨top, listed, holds⟩ := Node.mem_visit member
  obtain ⟨statement, known, rfl⟩ := List.mem_map.mp listed
  exact ⟨statement, known, holds⟩

namespace Tree

variable {tree : Tree} {p : Production} {children : List Tree} {a : Assembled} {e : Expr}

/-- A production that makes anything but names has tokens at which it stands. -/
theorem extent_of_fresh (valid : (node p children).valid grammar = true)
    (made : (node p children).assemble = .ok a) {f : Fragment} (member : f ∈ a.fragments)
    (other : f.kind ≠ .names) (splice : p.action ≠ .splice) : ∃ span, a.span = some span := by
  by_cases empty : (node p children).word = []
  · have mayBe : (Symbol.nonterminal p.head).mayBeEmpty = true := by
      by_contra filled
      exact word_ne_nil valid (Bool.eq_false_iff.mpr filled) empty
    have has := productions_haveTokens p.head p (valid_node.mp valid).1
    simp only [Production.hasTokens, mayBe, if_true, Bool.or_eq_true, beq_iff_eq, splice,
      false_or] at has
    obtain ⟨parts, out, -, applied, rfl⟩ := assemble_node.mp made
    rw [has] at applied
    cases applied
    exact absurd (congrArg Fragment.kind (List.mem_singleton.mp member)) other
  · have front := List.head?_eq_some_head empty
    have back := List.getLast?_eq_some_getLast empty
    exact ⟨_, (assemble_span made).trans (Token.extent?_eq_some.mpr ⟨_, _, front, back, rfl⟩)⟩

/-- An expression stands at all tokens of the part of a derivation that made it. -/
theorem expr_made (valid : (node p children).valid grammar = true)
    (made : (node p children).assemble = .ok a) (member : .expr e ∈ a.fragments)
    (splice : p.action ≠ .splice) (field : p.action ≠ .field) :
    a.span = some e.span ∧ ∃ fs, Action.Fresh p.action e.span fs e := by
  obtain ⟨span, extent⟩ := extent_of_fresh valid made member (by simp [Fragment.kind]) splice
  obtain ⟨parts, out, parted, applied, rfl⟩ := assemble_node.mp made
  have fresh := (given_applies valid parted applied).fresh member splice field
  have extent : Assembled.extent parts = some span := extent
  rw [extent, Option.getD_some] at fresh
  obtain rfl := fresh.span_eq
  exact ⟨extent, _, fresh⟩

/-- The expressions that a part of a derivation contributes are not empty and stand at its
tokens. -/
theorem assemble_covers (valid : tree.valid grammar = true) (order : Token.InOrder tree.word)
    (made : tree.assemble = .ok a) (member : .expr e ∈ a.fragments) :
    ∃ span, a.span = some span ∧ span.Covers e.span ∧ e.span.start < e.span.stop := by
  induction tree using Tree.induct generalizing a with
  | leaf t =>
    cases made
    simp at member
  | node p children ih =>
    have place := assemble_span made
    by_cases hands : p.action = .splice ∨ p.action = .field
    · obtain ⟨parts, parted, applied⟩ := assemble_applies valid made
      obtain ⟨part, listed, found⟩ := mem_given (applied.handed member hands)
      obtain ⟨c, child, inner⟩ := mem_of_forall₂ parted listed
      have below := word_infix_words child
      obtain ⟨span, extent, covers, some⟩ :=
        ih c child ((valid_node.mp valid).2.2 c child) (order.sub below) inner found
      rw [assemble_span inner] at extent
      obtain ⟨outer, extent', covers'⟩ := order.covers below extent
      exact ⟨outer, place.trans extent', covers'.trans covers, some⟩
    · obtain ⟨splice, field⟩ := not_or.mp hands
      obtain ⟨extent, -⟩ := expr_made valid made member splice field
      exact ⟨e.span, extent, .refl _, order.extent (place.symm.trans extent)⟩

/-- An object literal or a call comes out of a part of the derivation. -/
def Makes (whole : Tree) (e : Expr) : Prop :=
  ∃ p children span, Within (.node p children) whole ∧
    (p.action = .mapping ∨ p.action = .call) ∧
    (node p children).assemble = .ok ⟨span, [.expr e]⟩

/-- What a derivation is known to have of a property: for identifiers from its tokens, for
object literals and calls from its parts. -/
structure Roots (whole : Tree) (P : Node → Prop) : Prop where
  token : ∀ t ∈ whole.word, P (.expr (.identifier t.span t.text))
  mapping : ∀ span entries, whole.Makes (.mapping span entries) → P (.expr (.mapping span entries))
  call : ∀ span callee items place name, whole.Makes (.call span callee items place name) →
    P (.expr (.call span callee items place name))

end Tree

/-- A declarator's initial value lies inside it. -/
def Declarator.Contains (d : Declarator) (e : Expr) : Prop :=
  d.span.Covers e.span ∧ e.span.start < e.span.stop

/-- Nodes of which nothing is known but what is inside them. -/
def Node.isPlain : Node → Bool
  | .expr (.identifier ..) | .expr (.mapping ..) | .expr (.call ..) => false
  | .stmt (.declaration ..) | .stmt (.function ..) => false
  | _ => true

/-- What all nodes have however they are made, but for identifiers, object literals and
calls. Declarators hold their initial values, and function declarations a function. -/
structure Node.Inherent (P : Node → Prop) : Prop where
  plain : ∀ n : Node, n.isPlain = true → P n
  declaration : ∀ span kind (declarators : List Declarator),
    (∀ d ∈ declarators, ∀ e, d.init = some e → d.Contains e) →
      P (.stmt (.declaration span kind declarators))
  function : ∀ span name definition place own parameters body,
    definition = .function place own parameters body → P (.stmt (.function span name definition))

abbrev Expr.Every (P : Node → Prop) (e : Expr) : Prop := Node.Everywhere P (.expr e)

abbrev Stmt.Every (P : Node → Prop) (s : Stmt) : Prop := Node.Everywhere P (.stmt s)

namespace Fragment

/-- All nodes of a fragment have a property, and so has the identifier that a token gives. -/
def Every (P : Node → Prop) : Fragment → Prop
  | token t => P (.expr (.identifier t.span t.text))
  | expr e => e.Every P
  | entry e => Node.Everywhere P (.entry e)
  | stmt s => s.Every P
  | declarator d => ∀ e, d.init = some e → e.Every P ∧ d.Contains e
  | arguments _ items => ∀ e ∈ items, e.Every P
  | body statements => ∀ s ∈ statements, s.Every P
  | word _ | names _ => True

variable {P : Node → Prop} {fs : List Fragment}

theorem every_parts (each : ∀ f ∈ fs, f.Every P) :
    ∀ part ∈ fs.filterMap part?, Node.Everywhere P part.toNode := by
  intro part member
  obtain ⟨f, listed, same⟩ := List.mem_filterMap.mp member
  cases f <;> cases same <;> exact each _ listed

theorem every_members (each : ∀ f ∈ fs, f.Every P) :
    ∀ part ∈ fs.filterMap member?, Node.Everywhere P part.toNode := by
  intro part member
  obtain ⟨f, listed, same⟩ := List.mem_filterMap.mp member
  cases f <;> cases same
  case entry e =>
    exact (each (.entry e) listed).child e.value_mem_children
  case expr e =>
    exact each (.expr e) listed

end Fragment

namespace Action

variable {P : Node → Prop} {action : Action} {span : Span} {fs out : List Fragment} {e : Expr}

theorem identifier_every {name : Text} (good : P (.expr (.identifier span name))) :
    Expr.Every P (.identifier span name) :=
  Node.everywhere_leaf good rfl

theorem value_every {entry : Entry} (every : Node.Everywhere P (.entry entry)) :
    entry.value.Every P :=
  every.child (Entry.value_mem_children entry)

theorem parts_every {parts : List Part} {names : List Text} {name : Option Text}
    (good : Expr.Every P (.other span parts names name)) :
    ∀ part ∈ parts, Node.Everywhere P part.toNode :=
  fun _ member => good.child (List.mem_map_of_mem member)

theorem statements_every {statements : List Stmt} (good : Stmt.Every P (.block span statements)) :
    ∀ s ∈ statements, s.Every P :=
  fun _ member => good.child (List.mem_map_of_mem member)

section

variable (inherent : Node.Inherent P)

include inherent

theorem literal_every (value : Scalar) : Expr.Every P (.literal span value) :=
  Node.everywhere_leaf (inherent.plain _ rfl) rfl

theorem other_every {parts : List Part} {names : List Text} {name : Option Text}
    (each : ∀ part ∈ parts, Node.Everywhere P part.toNode) :
    Expr.Every P (.other span parts names name) :=
  Node.everywhere_map (inherent.plain _ rfl) rfl each

theorem operand_every {names : List Text} {name : Option Text} (good : e.Every P) :
    Expr.Every P (.other span [.expr e] names name) :=
  Node.everywhere_single (inherent.plain _ rfl) rfl good

theorem negated_every (good : e.Every P) : (e.negated span).Every P := by
  unfold Expr.negated
  split
  · exact literal_every inherent _
  · exact operand_every inherent good

theorem function_every {name : Option Text} {names : List Text} {statements : List Stmt}
    (each : ∀ s ∈ statements, s.Every P) :
    Expr.Every P (.function span name names statements) :=
  Node.everywhere_map (inherent.plain _ rfl) rfl each

theorem expression_every (good : e.Every P) :
    Stmt.Every P (.expression span e) :=
  Node.everywhere_single (inherent.plain _ rfl) rfl good

theorem entry_every {key : Option Expr} {shorthand : Bool} (good : e.Every P) :
    Node.Everywhere P (.entry (.mk span key e false shorthand)) :=
  Node.everywhere_single (inherent.plain _ rfl) (by cases key <;> rfl) good

theorem computed_every {key : Expr} (keyed : key.Every P) (good : e.Every P) :
    Node.Everywhere P (.entry (.mk span (some key) e true false)) := by
  refine Node.everywhere_iff.mpr ⟨inherent.plain _ rfl, fun c member => ?_⟩
  rcases List.mem_pair.mp member with rfl | rfl
  · exact keyed
  · exact good

theorem block_every {statements : List Stmt} (each : ∀ s ∈ statements, s.Every P) :
    Stmt.Every P (.block span statements) :=
  Node.everywhere_map (inherent.plain _ rfl) rfl each

theorem declaration_every {kind : VariableKind} {declarators : List Declarator}
    (each : ∀ d ∈ declarators, ∀ e, d.init = some e → e.Every P ∧ d.Contains e) :
    Stmt.Every P (.declaration span kind declarators) := by
  refine Node.everywhere_iff.mpr ⟨inherent.declaration _ _ _ ?_, fun c member => ?_⟩
  · exact fun d listed e init => (each d listed e init).2
  obtain ⟨d, listed, same⟩ := List.mem_filterMap.mp member
  obtain ⟨e, init, rfl⟩ := Option.map_eq_some_iff.mp same
  exact (each d listed e init).1

theorem binding_every {place : Span} {kind : VariableKind} {names : List Text} {pattern : Bool} :
    Stmt.Every P (.declaration span kind [.mk place names none pattern]) := by
  refine declaration_every inherent fun d member e init => ?_
  rw [List.mem_singleton.mp member] at init
  cases init

/-- What an action makes of fragments whose nodes have a property has it as well, if that
holds of the object literal or the call that it makes. -/
theorem Applies.every (applied : Applies span action fs out) (each : ∀ f ∈ fs, f.Every P)
    (inside : ∀ e, .expr e ∈ fs → span.Covers e.span ∧ e.span.start < e.span.stop)
    (single : action = .identifier → ∀ t, fs = [.token t] → span = t.span)
    (mapping : action = .mapping → ∀ entries, out = [.expr (.mapping span entries)] →
      P (.expr (.mapping span entries)))
    (call : action = .call → ∀ callee items place name,
      out = [.expr (.call span callee items place name)] →
        P (.expr (.call span callee items place name))) :
    ∀ f ∈ out, f.Every P := by
  have expr (e : Expr) (member : .expr e ∈ fs) : e.Every P := each (.expr e) member
  have stmt (s : Stmt) (member : .stmt s ∈ fs) : s.Every P := each (.stmt s) member
  have body (statements : List Stmt) (member : .body statements ∈ fs) :
      ∀ s ∈ statements, s.Every P := each (.body statements) member
  have items (place : Span) (items : List Expr) (member : .arguments place items ∈ fs) :
      ∀ e ∈ items, e.Every P := each (.arguments place items) member
  have only {f : Fragment} (good : f.Every P) : ∀ g ∈ [f], g.Every P :=
    fun g member => List.mem_singleton.mp member ▸ good
  cases applied with
  | splice => exact each
  | discard | bareField => simp
  | word | parameters | boundNames | lastName => exact only trivial
  | identifier t =>
    refine only (identifier_every ?_)
    rw [single rfl t rfl]
    exact each (.token t) (by simp)
  | number | string | stringKey | numberKey | nameKey | template | true_ | false_ | null =>
    exact only (literal_every inherent _)
  | substituted => exact only (other_every inherent (by simp))
  | shorthandEntry t rest =>
    exact only (entry_every inherent (identifier_every (each (.token t) (by simp))))
  | compound => exact only (other_every inherent (Fragment.every_parts each))
  | list es =>
    refine only (Node.everywhere_map (inherent.plain _ rfl) rfl fun e listed => ?_)
    exact expr e (List.mem_map_of_mem listed)
  | mapping entries =>
    refine only (Node.everywhere_map (mapping rfl entries rfl) rfl fun e listed => ?_)
    exact each (.entry e) (List.mem_map_of_mem listed)
  | spreadEntry e => exact only (entry_every inherent (expr e (by simp)))
  | keyedEntry place key value => exact only (entry_every inherent (expr value (by simp)))
  | computedEntry key value =>
    exact only (computed_every inherent (expr key (by simp)) (expr value (by simp)))
  | method tokens place key formals statements =>
    exact only (entry_every inherent (function_every inherent (body statements (by simp))))
  | body statements => exact only fun s listed => stmt s (List.mem_map_of_mem listed)
  | function name formals statements =>
    exact only (function_every inherent (body statements (by simp)))
  | functionDeclaration t formals statements =>
    have definition : Expr.Every P (.function span (some t.text) formals statements) :=
      function_every inherent (body statements (by simp))
    exact only (Node.everywhere_single (inherent.function _ _ _ _ _ _ _ rfl) rfl definition)
  | arrow formals statements =>
    exact only (function_every inherent (body statements (by simp)))
  | arrowValue formals e =>
    refine only (function_every inherent fun s member => ?_)
    rw [List.mem_singleton.mp member]
    exact expression_every inherent (expr e (by simp))
  | classBody => exact only (other_every inherent (Fragment.every_members each))
  | field place key value => exact only (expr value (by simp))
  | assignment target value =>
    refine only (other_every inherent fun part listed => ?_)
    rcases List.mem_pair.mp listed with rfl | rfl
    · exact expr target (by simp)
    · exact expr value (by simp)
  | update e | forTarget e | member e | bareConstruction e =>
    exact only (operand_every inherent (expr e (by simp)))
  | negation e => exact only (negated_every inherent (expr e (by simp)))
  | arguments es => exact only fun e listed => expr e (List.mem_map_of_mem listed)
  | call callee place es =>
    refine only (Node.everywhere_iff.mpr ⟨call rfl _ _ _ _ rfl, fun c member => ?_⟩)
    rcases List.mem_cons.mp member with rfl | member
    · exact expr callee (by simp)
    · obtain ⟨e, listed, rfl⟩ := List.mem_map.mp member
      exact items place es (by simp) e listed
  | construction callee place es =>
    refine only (other_every inherent fun part member => ?_)
    rcases List.mem_cons.mp member with rfl | member
    · exact expr callee (by simp)
    · obtain ⟨e, listed, rfl⟩ := List.mem_map.mp member
      exact items place es (by simp) e listed
  | declarator target init =>
    refine only fun e same => ?_
    cases same
    exact ⟨expr init (by simp), inside init (by simp)⟩
  | bareDeclarator target =>
    refine only fun e same => ?_
    cases same
  | declaration kind declarators =>
    refine only (declaration_every inherent fun d listed => ?_)
    exact each (.declarator d) (List.mem_cons_of_mem _ (List.mem_map_of_mem listed))
  | classDeclaration t place members =>
    have good := expr (.other place members [] none) (by simp)
    exact only (Node.everywhere_single (inherent.plain _ rfl) rfl good)
  | extending t heritage place members =>
    have good := expr (.other place members [] none) (by simp)
    refine only (Node.everywhere_single (inherent.plain _ rfl) rfl ?_)
    refine other_every inherent fun part listed => ?_
    rcases List.mem_cons.mp listed with rfl | listed
    · exact expr heritage (by simp)
    · exact parts_every good part listed
  | imports => exact only (Node.everywhere_leaf (inherent.plain _ rfl) rfl)
  | exportedStmt s => exact only (stmt s (by simp))
  | exportedExpr e | expressionStatement e =>
    exact only (expression_every inherent (expr e (by simp)))
  | exportedNames => exact only (Node.everywhere_leaf (inherent.plain _ rfl) rfl)
  | block statements =>
    refine only (block_every inherent fun s listed => ?_)
    exact stmt s (List.mem_map_of_mem listed)
  | control =>
    exact only (Node.everywhere_map (inherent.plain _ rfl) rfl (Fragment.every_parts each))
  | forDeclaration => exact only (binding_every inherent)
  | catchAll place statements => exact only (stmt (.block place statements) (by simp))
  | catchClause target place statements =>
    have inner := statements_every (stmt (.block place statements) (by simp))
    refine only (block_every inherent fun s member => ?_)
    rcases List.mem_cons.mp member with rfl | member
    · exact binding_every inherent
    · exact inner s member

end

end Action

namespace Tree

variable {whole : Tree} {P : Node → Prop}

/-- What is contributed by a production for identifiers stands at the one token that it is
given. -/
theorem identifier_single (valid : (node p children).valid grammar = true)
    (action : p.action = .identifier) {parts : List Assembled}
    (parted : List.Forall₂ (fun t a => t.assemble = .ok a) children parts) {t : Token}
    (only : given .identifier parts = [.token t]) : Assembled.extent parts = some t.span := by
  obtain ⟨name, rfl, terminal⟩ := identifier_leaf valid action
  cases parted with
  | cons read none =>
    cases none
    cases read
    rw [given_cons] at only
    obtain rfl : name = t := by
      simpa [Assembled.counts, terminal, Terminal.isOpen] using only
    rfl

/-- All nodes that a derivation contributes have a property of which it has the roots. -/
theorem assemble_every (inherent : Node.Inherent P) (roots : whole.Roots P)
    (valid : whole.valid grammar = true) (order : Token.InOrder whole.word)
    (within : Within tree whole) (made : tree.assemble = .ok a) :
    ∀ f ∈ a.fragments, f.Every P := by
  induction tree using Tree.induct generalizing a with
  | leaf t =>
    cases made
    have member : t ∈ whole.word := within.leaves.subset (by simp [word])
    exact fun f listed => List.mem_singleton.mp listed ▸ roots.token t member
  | node p children ih =>
    obtain ⟨parts, out, parted, applied, rfl⟩ := assemble_node.mp made
    have ordered := order.sub within.leaves
    have here := within.valid valid
    refine (given_applies here parted applied).every inherent ?_ ?_ ?_ ?_ ?_
    · intro f member
      obtain ⟨part, listed, found⟩ := mem_given member
      obtain ⟨c, child, inner⟩ := mem_of_forall₂ parted listed
      exact ih c child (within.descend child) inner f found
    · intro e member
      obtain ⟨part, listed, found⟩ := mem_given member
      obtain ⟨c, child, inner⟩ := mem_of_forall₂ parted listed
      have below := word_infix_words child
      obtain ⟨span, extent, covers, some⟩ := assemble_covers
        ((within.descend child).valid valid) (ordered.sub below) inner found
      obtain ⟨outer, extent', covers'⟩ :=
        ordered.covers below ((assemble_span inner).symm.trans extent)
      have place : Assembled.extent parts = .some outer :=
        (assemble_span made).trans extent'
      rw [place, Option.getD_some]
      exact ⟨covers'.trans covers, some⟩
    · intro action t only
      rw [action] at only
      rw [identifier_single here action parted only, Option.getD_some]
    · rintro action entries rfl
      exact roots.mapping _ entries ⟨p, children, _, within, .inl action, made⟩
    · rintro action callee items place name rfl
      exact roots.call _ callee items place name ⟨p, children, _, within, .inr action, made⟩

end Tree

/-- Reading a script gives a derivation of its text from which every property of this kind
is carried to all of its nodes. -/
theorem parse_every {source : Text} {s : StyleSplit.Script} (parsed : parse source = .ok s) :
    s.source = source ∧ ∃ tree : Tree, tree.valid grammar = true ∧
      tree.symbol = .nonterminal .program ∧ Token.Scans 0 s.source tree.word [] ∧
      ∀ P : Node → Prop, Node.Inherent P → tree.Roots P →
        ∀ statement ∈ s.body, statement.Every P := by
  obtain ⟨tree, derived, -⟩ := bind_eq_ok.mp parsed
  obtain ⟨a, assembled, rfl⟩ := parse_assembled parsed derived
  obtain ⟨valid, symbol, scanned⟩ := derive_ok derived
  have scans := Token.ofText_sound scanned
  refine ⟨rfl, tree, valid, symbol, scans, fun P inherent roots statement member => ?_⟩
  obtain ⟨f, listed, same⟩ := List.mem_filterMap.mp member
  cases f <;> cases same
  exact Tree.assemble_every inherent roots valid scans.inOrder .self assembled _ listed

end StyleSplit.Script
