import Mathlib.Data.List.Forall2
import Mathlib.Data.List.Nodup
import StyleSplit.Proofs.Scope.Around
import StyleSplit.Proofs.Scope.Backward
import StyleSplit.Proofs.Script.Laying

/-! The identifiers of a script stand one after the other, so the span of one of them is
enough to find the scope in which it stands. That scope is inside those around the nodes
that hold the identifier. -/
namespace StyleSplit

open Script Script.Node

namespace Span

variable {outer s : Span} {inner rest : List Span}

/-- The first of some spans in a row gives way to others inside it. -/
theorem Row.refine_first (row : outer.Row (s :: rest)) (inside : s.Row inner) :
    outer.Row (inner ++ rest) := by
  obtain ⟨first, last, before⟩ := row_cons.mp row
  refine row_append.mpr ⟨inside.mono (first.covers s (by simp)), last, fun a member b later => ?_⟩
  exact Nat.le_trans (inside.covers a member).2 (before b later)

/-- What follows the first of some spans in a row stands behind it. -/
theorem Row.behind (row : outer.Row (s :: rest)) : (⟨s.stop, outer.stop⟩ : Span).Row rest := by
  obtain ⟨-, last, before⟩ := row_cons.mp row
  exact ⟨fun b later => ⟨before b later, (last.covers b later).2⟩, last.filled, last.apart⟩

theorem Row.cons_behind (row : outer.Row (s :: rest))
    (later : (⟨s.stop, outer.stop⟩ : Span).Row inner) :
    outer.Row (s :: inner) := by
  obtain ⟨first, -, -⟩ := row_cons.mp row
  have covers := first.covers s (by simp)
  have filled := first.filled s (by simp)
  have wider : outer.Covers ⟨s.stop, outer.stop⟩ :=
    ⟨Nat.le_trans covers.1 (Nat.le_of_lt filled), Nat.le_refl _⟩
  exact row_cons.mpr ⟨first, later.mono wider, fun b member => (later.covers b member).1⟩

theorem Row.nodup {parts : List Span} (row : outer.Row parts) : parts.Nodup := by
  refine row.apart.imp_of_mem fun {a b} member _ apart same => ?_
  have filled := row.filled a member
  rw [same] at filled apart
  omega

end Span

namespace Script

/-- A node and the text that it takes up: its span, apart from the body of a class, which
has what the class extends before it. -/
inductive Node.TakesUp : Node → Span → Prop where
  | usual {n : Node} : n.Laid → n.TakesUp n.span
  | extending {span body : Span} {heritage : Expr} {members : List Part} :
      span.Row [heritage.span, body] → body.Row (members.map fun m => m.toNode.span) →
      (.expr heritage : Node).Laid → (∀ m ∈ members, m.toNode.Laid) →
      (.expr (.other body (.expr heritage :: members) [] none) : Node).TakesUp span

namespace Node

variable {n : Node} {span : Span}

/-- Whether a node is a certain identifier. -/
def isIdentifier (span : Span) (name : Text) : Node → Bool
  | expr (.identifier place own) => place == span && own == name
  | _ => false

theorem isIdentifier_iff {name : Text} :
    n.isIdentifier span name = true ↔ n = .expr (.identifier span name) := by
  cases n with
  | expr e => cases e <;> simp [isIdentifier]
  | entry | stmt => simp [isIdentifier]

theorem takeUp_all {ns : List Node} (laid : ∀ n ∈ ns, n.Laid) :
    List.Forall₂ TakesUp ns (ns.map Node.span) := by
  rw [List.forall₂_map_right_iff, List.forall₂_same]
  exact fun n member => .usual (laid n member)

/-- The nodes directly inside a node take up text in a row inside its own. -/
theorem TakesUp.children (takes : n.TakesUp span) :
    ∃ spans, List.Forall₂ TakesUp n.children spans ∧ span.Row spans := by
  cases takes with
  | usual laid =>
    cases laid with
    | usual _ row each => exact ⟨_, takeUp_all each, row.children each⟩
    | @extending span body name heritage members row inBody good each =>
      have laid : Node.Laid
          (.stmt (.class_ span name (.other body (.expr heritage :: members) [] none))) :=
        .extending row inBody good each
      exact ⟨[span], .cons (.extending row inBody good each) .nil, .self laid.filled⟩
  | @extending span body heritage members row inBody good each =>
    have laid : ∀ c ∈ (Node.expr (.other body (.expr heritage :: members) [] none)).children,
        c.Laid := by
      intro c member
      rcases List.mem_cons.mp member with rfl | member
      · exact good
      · obtain ⟨m, listed, rfl⟩ := List.mem_map.mp member
        exact each m listed
    have spans :
        (Node.expr (.other body (.expr heritage :: members) [] none)).children.map Node.span =
          heritage.span :: members.map fun m => m.toNode.span := by
      simp [Node.children, Node.ofExpr, Function.comp_def, Part.toNode, Node.span]
    exact ⟨_, spans ▸ takeUp_all laid, row.refine_last inBody⟩

end Node

/-- The identifiers that a walk comes by stand one after the other. -/
theorem row_uses {fuel next : Nat} {stack : List (Node × Nat)} {spans : List Span} {outer : Span}
    (takes : List.Forall₂ Node.TakesUp (stack.map Prod.fst) spans) (row : outer.Row spans) :
    outer.Row (((placesFrom fuel next stack).filterMap Place.use?).map Prod.fst) := by
  induction fuel generalizing next stack spans outer with
  | zero => exact .nil
  | succ fuel ih =>
    obtain _ | ⟨⟨n, id⟩, rest⟩ := stack
    · exact .nil
    obtain _ | ⟨first, others⟩ := takes
    by_cases identifier : ∃ place name, n = .expr (.identifier place name)
    · obtain ⟨place, name, rfl⟩ := identifier
      cases first with
      | usual => exact row.cons_behind (ih others row.behind)
    · obtain ⟨spans, inside, within⟩ := first.children
      have other : ∀ inner, Place.use? ⟨n, id, inner⟩ = none := by
        intro inner
        unfold Place.use?
        split
        · rename_i same
          cases same
          exact absurd ⟨_, _, rfl⟩ identifier
        · rfl
      rw [placesFrom, List.filterMap_cons_none (other _)]
      refine ih ?_ (row.refine_first within)
      have nodes : (n.children.map (·, if n.opens then next else id) ++ rest).map Prod.fst =
          n.children ++ rest.map Prod.fst := by simp [Function.comp_def]
      exact nodes ▸ List.rel_append inside others

/-- The statements of a script take up text in a row. -/
theorem takeUp_body {source : Text} {s : StyleSplit.Script} (parsed : parse source = .ok s) :
    Span.Row ⟨0, source.length⟩ (s.body.map Stmt.span) ∧
      List.Forall₂ Node.TakesUp (s.body.map .stmt) (s.body.map Stmt.span) := by
  obtain ⟨row, laid⟩ := parse_laid parsed
  have spans : (s.body.map Node.stmt).map Node.span = s.body.map Stmt.span := by
    simp [Function.comp_def, Node.span]
  refine ⟨row, spans ▸ Node.takeUp_all fun n member => ?_⟩
  obtain ⟨statement, listed, rfl⟩ := List.mem_map.mp member
  exact laid statement listed

/-- The identifiers of a script stand one after the other. -/
theorem row_places {source : Text} {s : StyleSplit.Script} (parsed : parse source = .ok s) :
    Span.Row ⟨0, source.length⟩ ((s.places.filterMap Place.use?).map Prod.fst) := by
  obtain ⟨row, takes⟩ := takeUp_body parsed
  have nodes : (s.body.map fun statement => (Node.stmt statement, 0)).map Prod.fst =
      s.body.map Node.stmt := by simp [Function.comp_def]
  exact row_uses (nodes ▸ takes) row

variable {s : StyleSplit.Script} {source : Text} {p : Place} {span : Span} {name : Text} {id : Nat}

/-- An identifier is looked up from the scope in which it stands. -/
theorem find_use (parsed : parse source = .ok s)
    (stands : s.Stands (.expr (.identifier span name)) id) :
    s.scopeTable.uses.find? (·.1 == span) = some (span, id) := by
  obtain ⟨p, member, node, outer⟩ := stands
  have used : (span, id) ∈ s.places.filterMap Place.use? := by
    refine List.mem_filterMap.mpr ⟨p, member, ?_⟩
    obtain ⟨n, k, inner⟩ := p
    cases node
    cases outer
    rfl
  rw [uses_scopeTable]
  cases found : (s.places.filterMap Place.use?).reverse.find? (·.1 == span) with
  | none => simpa using List.find?_eq_none.mp found _ (List.mem_reverse.mpr used)
  | some use =>
    have known := List.mem_reverse.mp (List.mem_of_find?_eq_some found)
    have same : use.1 = span := by simpa using List.find?_some found
    rw [List.inj_on_of_nodup_map (row_places parsed).nodup known used same]

theorem lookup_eq (parsed : parse source = .ok s)
    (stands : s.Stands (.expr (.identifier span name)) id) :
    s.scopeTable.lookup span name = ScopeTable.lookupFrom s.scopeTable.scopes id name ∧
      s.scopeTable.declaringAt? span name = ScopeTable.declaring? s.scopeTable.scopes id name := by
  rw [ScopeTable.lookup, ScopeTable.declaringAt?, find_use parsed stands]
  exact ⟨rfl, rfl⟩

/-- A node stands somewhere inside the scopes around the nodes that hold it. -/
theorem stands_held (member : p ∈ s.places) {n : Node} (held : Holds p.node n) :
    ∃ id, s.Stands n id ∧ p.outer ∈ s.scopeTable.around id := by
  generalize outermost : p.node = outer at held
  induction held generalizing p with
  | self =>
    obtain ⟨rest, around⟩ := ScopeTable.around_self (outer_of_place member)
    exact ⟨p.outer, ⟨p, member, outermost, rfl⟩, by simp [around]⟩
  | @inside n c inner child _ ih =>
    subst outermost
    obtain ⟨q, known, rfl, here⟩ := stands_child member child
    obtain ⟨id, stands, around⟩ := ih known rfl
    have inside : p.outer ∈ s.scopeTable.around q.outer := by
      obtain ⟨rest, self⟩ := ScopeTable.around_self (outer_of_place member)
      rcases inner_of_place member with ⟨-, same⟩ | ⟨-, opened⟩
      · simp [here, same, self]
      · rw [here, ScopeTable.around_child s.descending_scopeTable opened]
        exact List.mem_cons_of_mem _ (by simp [self])
    exact ⟨id, stands, (ScopeTable.around_suffix s.descending_scopeTable around).subset inside⟩

/-- The value of an entry stands in the same scope as the entry. -/
theorem Stands.value {e : Entry} (stands : s.Stands (.entry e) id) :
    s.Stands (.expr e.value) id := by
  obtain ⟨p, member, node, rfl⟩ := stands
  have child : Node.expr e.value ∈ p.node.children := node ▸ e.value_mem_children
  rcases inner_of_place member with ⟨-, same⟩ | ⟨opens, -⟩
  · exact same ▸ stands_child member child
  · rw [node] at opens
    cases opens

theorem Stands.entry {entries : List Entry} (stands : s.Stands (.expr (.mapping span entries)) id)
    {e : Entry} (member : e ∈ entries) : ∃ id, s.Stands (.entry e) id := by
  obtain ⟨p, place, node, -⟩ := stands
  have child : Node.entry e ∈ p.node.children := node ▸ List.mem_map_of_mem member
  exact ⟨p.inner, stands_child place child⟩

/-- What a node declares with an initial value has it at or inside the node. -/
theorem Node.declares_held {n : Node} {b : Binding} (member : b ∈ n.declares) {e : Expr}
    (init : b.init = some e) : Holds n (.expr e) := by
  obtain ⟨-, ⟨_, _, _, _, rfl, rfl⟩ | ⟨_, _, rfl⟩⟩ |
    ⟨_, _, declarators, t, rfl, listed, same, -⟩ := declares_cases member init
  · exact .self
  · exact .inside List.mem_cons_self .self
  · exact .inside (List.mem_filterMap.mpr ⟨t, listed, congrArg (Option.map Node.expr) same⟩) .self

/-- The initial value of whatever a script declares is part of the script. -/
theorem stands_init {scope : Scope} (known : scope ∈ s.scopeTable.scopes) {b : Binding}
    (declared : b ∈ scope.bindings) {e : Expr} (init : b.init = some e) :
    ∃ id, s.Stands (.expr e) id := by
  have each : Scope.Each (fun b => ∀ e, b.init = some e → ∃ id, s.Stands (.expr e) id)
      s.scopeTable.scopes := by
    refine each_scopeTable ?_ fun p place b member e init => ?_
    · intro b old held init _ _
      rwa [init]
    · obtain ⟨id, stands, -⟩ := stands_held place (Node.declares_held member init)
      exact ⟨id, stands⟩
  exact each scope known b declared e init

/-- What a reference stands for is part of the script. -/
theorem stands_resolved {e r : Expr} (stands : s.Stands (.expr e) id)
    (resolved : s.scopeTable.resolve e = .resolved r) : ∃ id, s.Stands (.expr r) id := by
  refine ScopeTable.follow_induct (motive := fun e => ∃ id, s.Stands (.expr e) id) resolved
    ⟨id, stands⟩ fun span name init stepped => ?_
  obtain ⟨b, found, -, same, -⟩ := ScopeTable.step_ok stepped
  obtain ⟨_, -, found⟩ := Option.bind_eq_some_iff.mp found
  obtain ⟨scope, known, declared⟩ := ScopeTable.mem_of_lookupFrom found
  exact stands_init known declared same

end Script

end StyleSplit
