import StyleSplit.Proofs.Scope.Declaring

/-! Where the nodes of a script stand. A function, a block and a control statement open a
scope for the nodes inside them; scopes are numbered as the walk through the script comes by
what opens them. The scope table is what such a walk collects: it opens the same scopes,
records every identifier where it stands, and declares what the nodes declare; and the scope
of a function that has a name of its own knows it by that name. -/
namespace StyleSplit

open Script

namespace Script

namespace Node

/-- Whether the nodes inside a node stand in a scope of their own. -/
def opens : Node → Bool
  | .expr (.function ..) | .stmt (.block ..) | .stmt (.control ..) => true
  | _ => false

/-- What a node declares, wherever that belongs. -/
def declares : Node → List Binding
  | .expr (.function span name parameters body) =>
    name.toList.map (⟨·, .function, some (.function span name parameters body), span, false⟩) ++
      parameters.map (⟨·, .parameter, none, span, false⟩)
  | .stmt (.declaration _ kind declarators) => declarators.flatMap (ofDeclarator kind)
  | .stmt (.function span name definition) => [⟨name, .function, some definition, span, false⟩]
  | .stmt (.class_ span name _) => [⟨name, .class_, none, span, false⟩]
  | .stmt (.imports span names) => names.map (⟨·, .import_, none, span, false⟩)
  | _ => []
where
  ofDeclarator (kind : VariableKind) : Declarator → List Binding
    | .mk span names init pattern => names.map fun name =>
      if pattern then ⟨name, .parameter, none, span, false⟩
      else ⟨name, ScopeDraft.bindingKind kind, init, span, false⟩

/-- The name by which a function calls itself. -/
def ownName? : Node → Option Text
  | .expr (.function _ name _ _) => name
  | _ => none

theorem inits_cons (t : Declarator) (rest : List Declarator) :
    (t :: rest).filterMap (fun t => t.init.map Node.expr) =
      (t.init.map Node.expr).toList ++ rest.filterMap fun t => t.init.map .expr := by
  rw [List.filterMap_cons]
  cases t.init <;> rfl

theorem ownName?_of_shut {n : Node} (shut : n.opens = false) : n.ownName? = none := by
  unfold ownName?
  split
  · cases shut
  · rfl

/-- What has an initial value is a function, declared by it or by a statement, or a variable
with the span and the initial value of a declarator. -/
theorem declares_cases {n : Node} {b : Binding} (member : b ∈ n.declares) {e : Expr}
    (init : b.init = some e) :
    b.kind = .function ∧
        ((∃ span name parameters body, e = .function span name parameters body ∧ n = .expr e) ∨
          ∃ span name, n = .stmt (.function span name e)) ∨
      ∃ span kind declarators t, n = .stmt (.declaration span kind declarators) ∧
        t ∈ declarators ∧ t.init = some e ∧ b.span = t.span ∧ b.kind ≠ .function := by
  cases n with
  | entry => cases member
  | expr f =>
    cases f with
    | function =>
      rcases List.mem_append.mp member with member | member
      · obtain ⟨_, -, rfl⟩ := List.mem_map.mp member
        cases init
        exact .inl ⟨rfl, .inl ⟨_, _, _, _, rfl, rfl⟩⟩
      · obtain ⟨_, -, rfl⟩ := List.mem_map.mp member
        cases init
    | literal | identifier | list | mapping | call | other => cases member
  | stmt st =>
    cases st with
    | declaration span kind declarators =>
      obtain ⟨⟨place, names, value, pattern⟩, listed, member⟩ := List.mem_flatMap.mp member
      obtain ⟨name, -, rfl⟩ := List.mem_map.mp member
      cases pattern with
      | true => cases init
      | false =>
        refine .inr ⟨span, kind, declarators, _, rfl, listed, init, rfl, ?_⟩
        cases kind <;> simp [ScopeDraft.bindingKind]
    | function =>
      obtain rfl := List.mem_singleton.mp member
      cases init
      exact .inl ⟨rfl, .inr ⟨_, _, rfl⟩⟩
    | class_ =>
      obtain rfl := List.mem_singleton.mp member
      cases init
    | imports =>
      obtain ⟨_, -, rfl⟩ := List.mem_map.mp member
      cases init
    | expression | block | control => cases member

end Node

/-- A node with the number of the scope in which it stands and of that in which the nodes
inside it stand. -/
structure Place where
  node : Node
  outer : Nat
  inner : Nat

namespace Place

/-- An identifier with the scope in which it stands. -/
def use? : Place → Option (Span × Nat)
  | ⟨.expr (.identifier span _), outer, _⟩ => some (span, outer)
  | _ => none

/-- The names that a node assigns to, with the scope in which it stands. -/
def assigned : Place → List (Text × Nat)
  | ⟨.expr (.other _ _ assigns _), outer, _⟩ => assigns.map (·, outer)
  | _ => []

/-- The parent of the scope that a node opens. -/
def opened? (p : Place) : Option (Option Nat) := if p.node.opens then some (some p.outer) else none

end Place

/-- The places of the nodes on a stack and of those inside them, with the number of the next
scope. -/
def placesFrom : Nat → Nat → List (Node × Nat) → List Place
  | 0, _, _ => []
  | _ + 1, _, [] => []
  | fuel + 1, next, (n, id) :: stack =>
    let inner := if n.opens then next else id
    ⟨n, id, inner⟩ ::
      placesFrom fuel (if n.opens then next + 1 else next) (n.children.map (·, inner) ++ stack)

/-- The place of every node of a script. The scope of the script itself has the number 0. -/
def places (s : StyleSplit.Script) : List Place := placesFrom s.size 1 (s.body.map (.stmt ·, 0))

/-- A node of a script stands in the scope of some number. -/
def Stands (s : StyleSplit.Script) (n : Node) (id : Nat) : Prop :=
  ∃ p ∈ s.places, p.node = n ∧ p.outer = id

end Script

/-- A property that a declaration has whatever its name is, assigned to or not. -/
def Binding.Stable (P : Binding → Prop) : Prop :=
  ∀ b old, P old → b.init = old.init → b.kind = old.kind → b.span = old.span → P b

namespace Scope

variable {P : Binding → Prop} {bindings : List Binding} {scopes : List Scope}

/-- All declarations in some scopes have a property. -/
def Each (P : Binding → Prop) (scopes : List Scope) : Prop := ∀ s ∈ scopes, ∀ b ∈ s.bindings, P b

theorem mem_add {b old : Binding} (member : old ∈ declare.add b bindings) :
    old = b ∨ ∃ first ∈ bindings, old.init = first.init ∧ old.kind = first.kind ∧
      old.span = first.span := by
  induction bindings with
  | nil => exact .inl (List.mem_singleton.mp member)
  | cons first rest ih =>
    unfold declare.add at member
    split at member
    · rcases List.mem_cons.mp member with rfl | member
      · exact .inr ⟨first, by simp, rfl, rfl, rfl⟩
      · exact .inr ⟨old, List.mem_cons_of_mem _ member, rfl, rfl, rfl⟩
    · rcases List.mem_cons.mp member with rfl | member
      · exact .inr ⟨old, by simp, rfl, rfl, rfl⟩
      · rcases ih member with same | ⟨other, known, same⟩
        · exact .inl same
        · exact .inr ⟨other, List.mem_cons_of_mem _ known, same⟩

theorem Each.modify (each : Each P scopes) {change : Scope → Scope} (id : Nat)
    (keeps : ∀ s ∈ scopes, ∀ b ∈ (change s).bindings, P b) : Each P (scopes.modify id change) := by
  intro s member b declared
  obtain ⟨k, bound, rfl⟩ := List.mem_iff_getElem.mp member
  rw [List.getElem_modify] at declared
  have bound' : k < scopes.length := by simpa using bound
  split at declared
  · exact keeps _ (List.getElem_mem bound') b declared
  · exact each _ (List.getElem_mem bound') b declared

theorem Each.declare (each : Each P scopes) (stable : Binding.Stable P) (id : Nat) {b : Binding}
    (fresh : P b) : Each P (scopes.modify id (·.declare b)) := by
  refine each.modify id fun s member old declared => ?_
  rcases mem_add declared with rfl | ⟨first, known, init, kind, span⟩
  · exact fresh
  · exact stable old first (each s member first known) init kind span

theorem Each.reassign (each : Each P scopes) (stable : Binding.Stable P) (id : Nat) (name : Text) :
    Each P (scopes.modify id (·.reassign name)) := by
  refine each.modify id fun s member b declared => ?_
  obtain ⟨old, known, rfl⟩ := List.mem_map.mp declared
  have good := each s member old known
  split
  · exact stable _ old good rfl rfl rfl
  · exact good

/-- Among scopes by number, that of `id` declares a name for a function: whatever else the scope
declares under the name comes later. -/
def Calls (scopes : List Scope) (id : Nat) (name : Text) (f : Node) : Prop :=
  ∃ b, (scopes[id]?).bind (·.find? name) = some b ∧ b.kind = .function ∧
    b.init.map .expr = some f

section

variable {id : Nat} {name : Text} {f : Node}

theorem Calls.modify (calls : Calls scopes id name f) {target : Nat} {change : Scope → Scope}
    (keeps : ∀ s b, s.find? name = some b →
      ∃ b', (change s).find? name = some b' ∧ b'.kind = b.kind ∧ b'.init = b.init) :
    Calls (scopes.modify target change) id name f := by
  obtain ⟨b, found, kind, init⟩ := calls
  obtain ⟨s, known, found⟩ := Option.bind_eq_some_iff.mp found
  by_cases here : target = id
  · obtain ⟨b', found', kind', init'⟩ := keeps s b found
    exact ⟨b', by simpa [here, known] using found', kind'.trans kind, by rwa [init']⟩
  · exact ⟨b, by simpa [here, known] using found, kind, init⟩

theorem Calls.declare (calls : Calls scopes id name f) (target : Nat) (b : Binding) :
    Calls (scopes.modify target (·.declare b)) id name f := by
  refine calls.modify fun s old found => ?_
  rw [find?_declare, found]
  split
  · exact ⟨_, rfl, rfl, rfl⟩
  · exact ⟨old, rfl, rfl, rfl⟩

theorem Calls.reassign (calls : Calls scopes id name f) (target : Nat) (assigned : Text) :
    Calls (scopes.modify target (·.reassign assigned)) id name f := by
  refine calls.modify fun s old found => ?_
  rw [find?_reassign, found]
  exact ⟨_, rfl, rfl, rfl⟩

theorem Calls.append (calls : Calls scopes id name f) (new : Scope) :
    Calls (scopes ++ [new]) id name f := by
  obtain ⟨b, found, kind, init⟩ := calls
  obtain ⟨s, known, found⟩ := Option.bind_eq_some_iff.mp found
  have bound : id < scopes.length := (List.getElem?_eq_some_iff.mp known).1
  refine ⟨b, ?_, kind, init⟩
  rwa [List.getElem?_append_left bound, known]

end

/-- The parents of some scopes by number. -/
def parents (scopes : List Scope) : List (Option Nat) := scopes.map Scope.parent

theorem parents_modify (change : Scope → Scope) (same : ∀ s, (change s).parent = s.parent)
    (id : Nat) : parents (scopes.modify id change) = parents scopes := by
  apply List.ext_getElem
  · simp [parents]
  · intro k here there
    simp only [parents, List.getElem_map, List.getElem_modify]
    split
    · exact same _
    · rfl

/-- A parent has a smaller number. -/
def Descending (parents : List (Option Nat)) : Prop :=
  ∀ k parent : Nat, parents[k]? = some (some parent) → parent < k

theorem Descending.concat {parents : List (Option Nat)} (descending : Descending parents)
    {last : Nat} (known : last < parents.length) : Descending (parents ++ [some last]) := by
  intro k parent found
  by_cases old : k < parents.length
  · rw [List.getElem?_append_left old] at found
    exact descending k parent found
  · rw [List.getElem?_append_right (Nat.le_of_not_lt old)] at found
    obtain ⟨bound, same⟩ := List.getElem?_eq_some_iff.mp found
    rw [List.getElem_singleton, Option.some.injEq] at same
    omega

end Scope

namespace ScopeDraft

variable {d d' d'' : ScopeDraft} {id size size' : Nat} {ns ns' : List Node}
  {own own' : List Binding}

/-- A draft with the same scopes, apart from what is declared there, and the same uses and
assignments. What is declared in addition is among `own`. -/
structure Declares (own : List Binding) (d d' : ScopeDraft) : Prop where
  parents : Scope.parents d'.scopes = Scope.parents d.scopes
  uses : d'.uses = d.uses
  assignments : d'.assignments = d.assignments
  each : ∀ P, Binding.Stable P → (∀ b ∈ own, P b) → Scope.Each P d.scopes → Scope.Each P d'.scopes
  keeps : ∀ id name f, Scope.Calls d.scopes id name f → Scope.Calls d'.scopes id name f

theorem Declares.none : Declares own d d where
  parents := rfl
  uses := rfl
  assignments := rfl
  each _ _ _ each := each
  keeps _ _ _ calls := calls

theorem Declares.trans (first : Declares own d d') (last : Declares own' d' d'') :
    Declares (own ++ own') d d'' where
  parents := last.parents.trans first.parents
  uses := last.uses.trans first.uses
  assignments := last.assignments.trans first.assignments
  each P stable all each :=
    last.each P stable (fun b member => all b (List.mem_append_right _ member))
      (first.each P stable (fun b member => all b (List.mem_append_left _ member)) each)
  keeps id name f calls := last.keeps id name f (first.keeps id name f calls)

theorem declares_declare (d : ScopeDraft) (id : Nat) (b : Binding) :
    Declares [b] d (d.declare id b) where
  parents := Scope.parents_modify (·.declare b) (fun _ => rfl) id
  uses := rfl
  assignments := rfl
  each _ stable all each := each.declare stable id (all b List.mem_cons_self)
  keeps _ _ _ calls := calls.declare id b

theorem declares_all (d : ScopeDraft) (id : Nat) (names : List Text) (kind : BindingKind)
    (init : Option Expr) (span : Span) :
    Declares (names.map (⟨·, kind, init, span, false⟩)) d
      (d.declareAll id names kind init span) := by
  induction names generalizing d with
  | nil => exact .none
  | cons name rest ih => exact (declares_declare d id _).trans (ih _)

theorem declares_target (d : ScopeDraft) (id : Nat) (kind : VariableKind) (t : Declarator) :
    Declares (Node.declares.ofDeclarator kind t) d (d.declareTarget id kind t) := by
  obtain ⟨span, names, init, pattern⟩ := t
  cases pattern with
  | true => exact declares_all d _ names .parameter none span
  | false => exact declares_all d _ names _ init span

theorem length_parents (scopes : List Scope) : (Scope.parents scopes).length = scopes.length := by
  simp [Scope.parents]

/-- What the walk through some nodes in the scope `id` makes of a draft: the places that it
comes by, and what they add. What surrounds the nodes declares `own` in addition. -/
structure Stretch (size : Nat) (own : List Binding) (ns : List Node) (id : Nat)
    (d d' : ScopeDraft) (front : List Place) : Prop where
  visits : ∀ fuel stack, placesFrom (size + fuel) d.scopes.length (ns.map (·, id) ++ stack) =
    front ++ placesFrom fuel d'.scopes.length stack
  parents : Scope.parents d'.scopes = Scope.parents d.scopes ++ front.filterMap Place.opened?
  uses : d'.uses = (front.filterMap Place.use?).reverse ++ d.uses
  assignments : d'.assignments = d.assignments ++ front.flatMap Place.assigned
  each : ∀ P, Binding.Stable P → (∀ b ∈ own, P b) → (∀ p ∈ front, ∀ b ∈ p.node.declares, P b) →
    Scope.Each P d.scopes → Scope.Each P d'.scopes
  heads : ∀ n ∈ ns, ∃ p ∈ front, p.node = n ∧ p.outer = id
  closed : ∀ p ∈ front, ∀ c ∈ p.node.children, ∃ q ∈ front, q.node = c ∧ q.outer = p.inner
  inner : ∀ p ∈ front, p.node.opens = false ∧ p.inner = p.outer ∨
    p.node.opens = true ∧ (Scope.parents d'.scopes)[p.inner]? = some (some p.outer)
  descending : id < d.scopes.length → Scope.Descending (Scope.parents d.scopes) →
    Scope.Descending (Scope.parents d'.scopes) ∧ ∀ p ∈ front, p.outer < d'.scopes.length
  keeps : ∀ id name f, Scope.Calls d.scopes id name f → Scope.Calls d'.scopes id name f
  named : ∀ p ∈ front, ∀ name, p.node.ownName? = some name →
    Scope.Calls d'.scopes p.inner name p.node

variable {front front' : List Place}

theorem Stretch.none : Stretch 0 [] [] id d d [] where
  visits fuel stack := by simp
  parents := by simp
  uses := rfl
  assignments := by simp
  each _ _ _ _ each := each
  heads := by simp
  closed := by simp
  inner := by simp
  descending _ descending := ⟨descending, by simp⟩
  keeps _ _ _ calls := calls
  named := by simp

/-- What is declared on the way to some nodes is declared with them. -/
theorem Stretch.declare (walked : Stretch size own' ns id d' d'' front)
    (declares : Declares own d d') :
    Stretch size (own ++ own') ns id d d'' front where
  visits := by
    have same : d'.scopes.length = d.scopes.length := by
      rw [← length_parents, declares.parents, length_parents]
    exact same ▸ walked.visits
  parents := by rw [walked.parents, declares.parents]
  uses := by rw [walked.uses, declares.uses]
  assignments := by rw [walked.assignments, declares.assignments]
  each P stable all places each :=
    walked.each P stable (fun b member => all b (List.mem_append_right _ member)) places
      (declares.each P stable (fun b member => all b (List.mem_append_left _ member)) each)
  heads := walked.heads
  closed := walked.closed
  inner := walked.inner
  descending known descending := by
    rw [← length_parents, ← declares.parents, length_parents] at known
    exact walked.descending known (declares.parents ▸ descending)
  keeps id name f calls := walked.keeps id name f (declares.keeps id name f calls)
  named := walked.named

theorem Stretch.length_le (walked : Stretch size own ns id d d' front) :
    d.scopes.length ≤ d'.scopes.length := by
  rw [← length_parents, ← length_parents, walked.parents, List.length_append]
  exact Nat.le_add_right _ _

theorem Stretch.append (first : Stretch size own ns id d d' front)
    (last : Stretch size' own' ns' id d' d'' front') :
    Stretch (size + size') (own ++ own') (ns ++ ns') id d d'' (front ++ front') where
  visits fuel stack := by
    rw [Nat.add_assoc, List.map_append, List.append_assoc, first.visits, last.visits,
      List.append_assoc]
  parents := by rw [last.parents, first.parents, List.filterMap_append, List.append_assoc]
  uses := by
    rw [last.uses, first.uses, List.filterMap_append, List.reverse_append, List.append_assoc]
  assignments := by
    rw [last.assignments, first.assignments, List.flatMap_append, List.append_assoc]
  each P stable all places each :=
    last.each P stable (fun b member => all b (List.mem_append_right _ member))
      (fun p member => places p (List.mem_append_right _ member))
      (first.each P stable (fun b member => all b (List.mem_append_left _ member))
        (fun p member => places p (List.mem_append_left _ member)) each)
  heads n member := by
    rcases List.mem_append.mp member with member | member
    · obtain ⟨p, known, here⟩ := first.heads n member
      exact ⟨p, List.mem_append_left _ known, here⟩
    · obtain ⟨p, known, here⟩ := last.heads n member
      exact ⟨p, List.mem_append_right _ known, here⟩
  closed p member c child := by
    rcases List.mem_append.mp member with member | member
    · obtain ⟨q, known, here⟩ := first.closed p member c child
      exact ⟨q, List.mem_append_left _ known, here⟩
    · obtain ⟨q, known, here⟩ := last.closed p member c child
      exact ⟨q, List.mem_append_right _ known, here⟩
  inner p member := by
    rcases List.mem_append.mp member with member | member
    · refine (first.inner p member).imp_right fun ⟨opens, opened⟩ => ⟨opens, ?_⟩
      obtain ⟨bound, -⟩ := List.getElem?_eq_some_iff.mp opened
      rw [last.parents, List.getElem?_append_left bound, opened]
    · exact last.inner p member
  descending known descending := by
    obtain ⟨between, here⟩ := first.descending known descending
    obtain ⟨whole, there⟩ := last.descending (Nat.lt_of_lt_of_le known first.length_le) between
    refine ⟨whole, fun p member => ?_⟩
    rcases List.mem_append.mp member with member | member
    · exact Nat.lt_of_lt_of_le (here p member) last.length_le
    · exact there p member
  keeps id name f calls := last.keeps id name f (first.keeps id name f calls)
  named p member name own := by
    rcases List.mem_append.mp member with member | member
    · exact last.keeps _ _ _ (first.named p member name own)
    · exact last.named p member name own

/-- What a walk does to a draft as it comes by a node, before it turns to those inside it. -/
structure Enters (n : Node) (id : Nat) (d : ScopeDraft) (inner : Nat) (d' : ScopeDraft) : Prop where
  numbered : inner = if n.opens then d.scopes.length else id
  parents : Scope.parents d'.scopes =
    Scope.parents d.scopes ++ (Place.opened? ⟨n, id, inner⟩).toList
  uses : d'.uses = (Place.use? ⟨n, id, inner⟩).toList ++ d.uses
  assignments : d'.assignments = d.assignments ++ Place.assigned ⟨n, id, inner⟩
  each : ∀ P, Binding.Stable P → (∀ b ∈ n.declares, P b) → Scope.Each P d.scopes →
    Scope.Each P d'.scopes
  keeps : ∀ id name f, Scope.Calls d.scopes id name f → Scope.Calls d'.scopes id name f
  named : ∀ name, n.ownName? = some name → Scope.Calls d'.scopes inner name n

theorem Enters.of_declares {n : Node} (shut : n.opens = false)
    (other : Place.use? ⟨n, id, id⟩ = none) (idle : Place.assigned ⟨n, id, id⟩ = [])
    (declares : Declares n.declares d d') : Enters n id d id d' where
  numbered := by simp [shut]
  parents := by simp [Place.opened?, shut, declares.parents]
  uses := by simp [other, declares.uses]
  assignments := by simp [idle, declares.assignments]
  each := declares.each
  keeps := declares.keeps
  named name own := by simp [Node.ownName?_of_shut shut] at own

theorem Enters.opening {n : Node} (opens : n.opens = true)
    (other : Place.use? ⟨n, id, d.scopes.length⟩ = none)
    (idle : Place.assigned ⟨n, id, d.scopes.length⟩ = []) {isFunction : Bool}
    (declares : Declares n.declares (d.enter id isFunction).2 d')
    (named : ∀ name, n.ownName? = some name → Scope.Calls d'.scopes d.scopes.length name n) :
    Enters n id d d.scopes.length d' where
  numbered := by simp [opens]
  parents := by
    rw [declares.parents, Place.opened?, if_pos opens]
    simp [ScopeDraft.enter, Scope.parents]
  uses := by simp [other, declares.uses, ScopeDraft.enter]
  assignments := by simp [idle, declares.assignments, ScopeDraft.enter]
  each P stable all each := by
    refine declares.each P stable all fun s member b declared => ?_
    rcases List.mem_append.mp member with member | member
    · exact each s member b declared
    · rw [List.mem_singleton.mp member] at declared
      cases declared
  keeps id name f calls := declares.keeps id name f (calls.append _)
  named := named

theorem enters_identifier (id : Nat) (span : Span) (name : Text) (d : ScopeDraft) :
    Enters (.expr (.identifier span name)) id d id (d.use id span) where
  numbered := rfl
  parents := by simp [Place.opened?, Node.opens, ScopeDraft.use]
  uses := rfl
  assignments := by simp [Place.assigned, ScopeDraft.use]
  each _ _ _ each := each
  keeps _ _ _ calls := calls
  named := nofun

theorem enters_other (id : Nat) (span : Span) (children : List Part) (assigns : List Text)
    (own : Option Text) (d : ScopeDraft) :
    Enters (.expr (.other span children assigns own)) id d id (d.assign id assigns) where
  numbered := rfl
  parents := by simp [Place.opened?, Node.opens, ScopeDraft.assign]
  uses := rfl
  assignments := rfl
  each _ _ _ each := each
  keeps _ _ _ calls := calls
  named := nofun

/-- A function is called by its own name in the scope that opens for it, before anything else is
declared there. -/
theorem calls_enter (id : Nat) (span : Span) (own : Option Text) (parameters : List Text)
    (body : List Stmt) (d : ScopeDraft) (name : Text)
    (named : (Node.expr (.function span own parameters body)).ownName? = some name) :
    Scope.Calls ((d.enter id true).2.declareAll d.scopes.length own.toList .function
        (some (.function span own parameters body)) span).scopes d.scopes.length name
      (.expr (.function span own parameters body)) := by
  obtain rfl : own = some name := named
  exact ⟨⟨name, .function, some (.function span (some name) parameters body), span, false⟩,
    by simp [declareAll, declare, enter, Scope.find?, Scope.declare, Scope.declare.add], rfl, rfl⟩

theorem Enters.stretch {n : Node} {inner : Nat} (enters : Enters n id d inner d')
    (inside : Stretch size own n.children inner d' d'' front) (within : own ⊆ n.declares) :
    Stretch (size + 1) [] [n] id d d'' (⟨n, id, inner⟩ :: front) := by
  have length : d'.scopes.length = if n.opens then d.scopes.length + 1 else d.scopes.length := by
    rw [← length_parents, enters.parents, List.length_append, length_parents]
    unfold Place.opened?
    cases n.opens <;> rfl
  have lower : d.scopes.length ≤ d'.scopes.length := by
    rw [length]
    split <;> omega
  exact {
    visits fuel stack := by
      have more : size + 1 + fuel = size + fuel + 1 := by omega
      rw [more, List.map_cons, List.map_nil, List.singleton_append, placesFrom, ← enters.numbered,
        ← length, inside.visits, List.cons_append]
    parents := by
      rw [inside.parents, enters.parents, List.append_assoc, List.filterMap_cons]
      cases Place.opened? ⟨n, id, inner⟩ <;> rfl
    uses := by
      rw [inside.uses, enters.uses, ← List.append_assoc, List.filterMap_cons]
      cases Place.use? ⟨n, id, inner⟩ <;> simp
    assignments := by
      rw [inside.assignments, enters.assignments, List.flatMap_cons, List.append_assoc]
    each P stable _ places each := by
      have here := places _ List.mem_cons_self
      exact inside.each P stable (fun b member => here b (within member))
        (fun p member => places p (List.mem_cons_of_mem _ member)) (enters.each P stable here each)
    heads m member := by
      obtain rfl := List.mem_singleton.mp member
      exact ⟨_, List.mem_cons_self, rfl, rfl⟩
    closed p member c child := by
      rcases List.mem_cons.mp member with rfl | member
      · obtain ⟨q, known, here⟩ := inside.heads c child
        exact ⟨q, List.mem_cons_of_mem _ known, here⟩
      · obtain ⟨q, known, here⟩ := inside.closed p member c child
        exact ⟨q, List.mem_cons_of_mem _ known, here⟩
    inner p member := by
      rcases List.mem_cons.mp member with rfl | member
      · by_cases opens : n.opens = true
        · have place : inner = (Scope.parents d.scopes).length := by
            rw [enters.numbered, if_pos opens, length_parents]
          refine .inr ⟨opens, ?_⟩
          simp [inside.parents, enters.parents, Place.opened?, opens, place]
        · have shut : n.opens = false := by simpa using opens
          exact .inl ⟨shut, by simpa [shut] using enters.numbered⟩
      · exact inside.inner p member
    descending known descending := by
      have bound : inner < d'.scopes.length := by
        rw [enters.numbered, length]
        split <;> omega
      have between : Scope.Descending (Scope.parents d'.scopes) := by
        rw [enters.parents]
        unfold Place.opened?
        split
        · exact descending.concat (by rwa [length_parents])
        · rwa [Option.toList_none, List.append_nil]
      obtain ⟨whole, places⟩ := inside.descending bound between
      refine ⟨whole, fun p member => ?_⟩
      rcases List.mem_cons.mp member with rfl | member
      · exact Nat.lt_of_lt_of_le known (Nat.le_trans lower inside.length_le)
      · exact places p member
    keeps id name f calls := inside.keeps id name f (enters.keeps id name f calls)
    named p member name own := by
      rcases List.mem_cons.mp member with rfl | member
      · exact inside.keeps _ _ _ (enters.named name own)
      · exact inside.named p member name own }

/-- The walk through some nodes makes one draft of another. -/
def Walks (size : Nat) (own : List Binding) (ns : List Node) (id : Nat) (d d' : ScopeDraft) :
    Prop :=
  ∃ front, Stretch size own ns id d d' front

theorem walks_none : Walks 0 [] [] id d d := ⟨[], .none⟩

theorem Walks.append (first : Walks size own ns id d d') (last : Walks size' own' ns' id d' d'') :
    Walks (size + size') (own ++ own') (ns ++ ns') id d d'' := by
  obtain ⟨front, first⟩ := first
  obtain ⟨front', last⟩ := last
  exact ⟨_, first.append last⟩

theorem Walks.around {n : Node} {inner : Nat} (inside : Walks size own n.children inner d' d'')
    (enters : Enters n id d inner d') (within : own ⊆ n.declares) :
    Walks (size + 1) [] [n] id d d'' := by
  obtain ⟨front, inside⟩ := inside
  exact ⟨_, enters.stretch inside within⟩

theorem Walks.node {n : Node} {inner : Nat} (inside : Walks size [] n.children inner d' d'')
    (enters : Enters n id d inner d') : Walks (size + 1) [] [n] id d d'' :=
  inside.around enters (List.nil_subset _)

theorem Walks.declare (walked : Walks size own' ns id d' d'') (declares : Declares own d d') :
    Walks size (own ++ own') ns id d d'' := by
  obtain ⟨front, walked⟩ := walked
  exact ⟨front, walked.declare declares⟩

mutual

theorem addExpr_walks (id : Nat) : ∀ (e : Expr) (d : ScopeDraft),
    Walks e.size [] [.expr e] id d (addExpr id e d)
  | .literal .., _ => walks_none.node (.of_declares rfl rfl rfl .none)
  | .identifier span name, d => walks_none.node (enters_identifier id span name d)
  | .list _ items, d => (addItems_walks id items d).node (.of_declares rfl rfl rfl .none)
  | .mapping _ entries, d => (addEntries_walks id entries d).node (.of_declares rfl rfl rfl .none)
  | .function span name parameters body, d =>
    have parametric := declares_all _ _ parameters _ _ _
    (addBody_walks d.scopes.length body _).node (.opening rfl rfl rfl
      ((declares_all _ _ name.toList _ _ _).trans parametric)
      fun _ own => parametric.keeps _ _ _ (calls_enter id span name parameters body d _ own))
  | .call _ callee arguments _ _, d =>
    ((addExpr_walks id callee d).append (addItems_walks id arguments _)).node
      (.of_declares rfl rfl rfl .none)
  | .other span children assigns own, d =>
    (addParts_walks id children _).node (enters_other id span children assigns own d)

theorem addEntry_walks (id : Nat) : ∀ (e : Entry) (d : ScopeDraft),
    Walks e.size [] [.entry e] id d (addEntry id e d)
  | .mk _ (some key) value true _, d =>
    ((addExpr_walks id key d).append (addExpr_walks id value _)).node
      (.of_declares rfl rfl rfl .none)
  | .mk _ (some _) value false _, d | .mk _ none value _ _, d =>
    (addExpr_walks id value d).node (.of_declares rfl rfl rfl .none)

theorem addPart_walks (id : Nat) : ∀ (p : Part) (d : ScopeDraft),
    Walks p.size [] [p.toNode] id d (addPart id p d)
  | .expr e, d => addExpr_walks id e d
  | .stmt s, d => addStmt_walks id s d

theorem addInit_walks (id : Nat) : ∀ (t : Declarator) (d : ScopeDraft),
    Walks t.size [] (t.init.map Node.expr).toList id d (addInit id t d)
  | .mk _ _ (some init) _, d => addExpr_walks id init d
  | .mk _ _ none _, _ => walks_none

theorem addStmt_walks (id : Nat) : ∀ (s : Stmt) (d : ScopeDraft),
    Walks s.size [] [.stmt s] id d (addStmt id s d)
  | .declaration _ kind declarators, d =>
    (addDeclarators_walks id kind declarators d).around (.of_declares rfl rfl rfl .none)
      (List.Subset.refl _)
  | .function _ _ definition, d =>
    (addExpr_walks id definition _).node (.of_declares rfl rfl rfl (declares_declare d id _))
  | .class_ _ _ body, d =>
    (addExpr_walks id body _).node (.of_declares rfl rfl rfl (declares_declare d id _))
  | .imports _ names, d =>
    walks_none.node (.of_declares rfl rfl rfl (declares_all d id names _ _ _))
  | .expression _ e, d => (addExpr_walks id e d).node (.of_declares rfl rfl rfl .none)
  | .block _ body, d =>
    (addBody_walks d.scopes.length body _).node (.opening rfl rfl rfl .none nofun)
  | .control _ children, d =>
    (addParts_walks d.scopes.length children _).node (.opening rfl rfl rfl .none nofun)

theorem addItems_walks (id : Nat) : ∀ (items : List Expr) (d : ScopeDraft),
    Walks (sizeOfItems items) [] (items.map .expr) id d (addItems id items d)
  | [], _ => walks_none
  | e :: rest, d => (addExpr_walks id e d).append (addItems_walks id rest _)

theorem addEntries_walks (id : Nat) : ∀ (entries : List Entry) (d : ScopeDraft),
    Walks (sizeOfEntries entries) [] (entries.map .entry) id d (addEntries id entries d)
  | [], _ => walks_none
  | e :: rest, d => (addEntry_walks id e d).append (addEntries_walks id rest _)

theorem addParts_walks (id : Nat) : ∀ (parts : List Part) (d : ScopeDraft),
    Walks (sizeOfParts parts) [] (parts.map Part.toNode) id d (addParts id parts d)
  | [], _ => walks_none
  | p :: rest, d => (addPart_walks id p d).append (addParts_walks id rest _)

theorem addDeclarators_walks (id : Nat) (kind : VariableKind) :
    ∀ (declarators : List Declarator) (d : ScopeDraft),
    Walks (sizeOfDeclarators declarators) (declarators.flatMap (Node.declares.ofDeclarator kind))
      (declarators.filterMap fun t => t.init.map .expr) id d (addDeclarators id kind declarators d)
  | [], _ => walks_none
  | t :: rest, d => by
    have first := (addInit_walks id t _).declare (declares_target d id kind t)
    rw [List.append_nil] at first
    rw [Node.inits_cons]
    exact first.append (addDeclarators_walks id kind rest _)

theorem addBody_walks (id : Nat) : ∀ (body : List Stmt) (d : ScopeDraft),
    Walks (sizeOfBody body) [] (body.map .stmt) id d (addBody id body d)
  | [], _ => walks_none
  | s :: rest, d => (addStmt_walks id s d).append (addBody_walks id rest _)

end

theorem parents_applyAssignment (scopes : List Scope) (assignment : Text × Nat) :
    Scope.parents (applyAssignment scopes assignment) = Scope.parents scopes := by
  unfold applyAssignment
  split
  · exact Scope.parents_modify (·.reassign assignment.1) (fun _ => rfl) _
  · rfl

theorem each_applyAssignment {P : Binding → Prop} (stable : Binding.Stable P) {scopes : List Scope}
    (each : Scope.Each P scopes) (assignment : Text × Nat) :
    Scope.Each P (applyAssignment scopes assignment) := by
  unfold applyAssignment
  split
  · exact each.reassign stable _ _
  · exact each

theorem calls_applyAssignment {scopes : List Scope} {id : Nat} {name : Text} {f : Node}
    (calls : Scope.Calls scopes id name f) (assignment : Text × Nat) :
    Scope.Calls (applyAssignment scopes assignment) id name f := by
  unfold applyAssignment
  split
  · exact calls.reassign _ _
  · exact calls

end ScopeDraft

namespace Script

variable {s : StyleSplit.Script} {p : Place}

theorem placesFrom_visit (fuel next : Nat) (stack : List (Node × Nat)) :
    (placesFrom fuel next stack).map Place.node = visit fuel (stack.map Prod.fst) := by
  induction fuel generalizing next stack with
  | zero => rfl
  | succ fuel ih =>
    cases stack with
    | nil => rfl
    | cons first rest => simp [placesFrom, visit, ih, Function.comp_def]

/-- There is one place for every node that a walk comes by. -/
theorem places_walk (s : StyleSplit.Script) : s.places.map Place.node = s.walk := by
  simp [places, walk, placesFrom_visit, Function.comp_def]

/-- The draft with which a walk through a script starts. -/
def firstDraft : ScopeDraft := ⟨[⟨none, true, []⟩], [], []⟩

/-- The walk through a script comes by its places. -/
theorem stretch_places (s : StyleSplit.Script) : ScopeDraft.Stretch s.size [] (s.body.map .stmt) 0
    firstDraft (ScopeDraft.addBody 0 s.body firstDraft) s.places := by
  obtain ⟨front, walked⟩ := ScopeDraft.addBody_walks 0 s.body firstDraft
  have same : s.places = front := by
    have visits := walked.visits 0 []
    rw [List.append_nil, placesFrom, List.append_nil, List.map_map] at visits
    exact visits
  exact same ▸ walked

theorem uses_scopeTable (s : StyleSplit.Script) :
    s.scopeTable.uses = (s.places.filterMap Place.use?).reverse := by
  have uses := s.stretch_places.uses
  rwa [firstDraft, List.append_nil] at uses

/-- The assignments of a script are those of its nodes. -/
theorem assignments_places (s : StyleSplit.Script) :
    (ScopeDraft.addBody 0 s.body firstDraft).assignments = s.places.flatMap Place.assigned := by
  have assignments := s.stretch_places.assignments
  rwa [firstDraft, List.nil_append] at assignments

/-- Assignments leave the parents of the scopes alone. -/
theorem parents_scopeTable (s : StyleSplit.Script) : Scope.parents s.scopeTable.scopes =
    Scope.parents (ScopeDraft.addBody 0 s.body firstDraft).scopes := by
  have folded (assignments : List (Text × Nat)) (scopes : List Scope) :
      Scope.parents (assignments.foldl ScopeDraft.applyAssignment scopes) =
        Scope.parents scopes := by
    induction assignments generalizing scopes with
    | nil => rfl
    | cons assignment rest ih =>
      exact (ih _).trans (ScopeDraft.parents_applyAssignment scopes assignment)
  exact folded _ _

theorem descending_firstDraft : Scope.Descending (Scope.parents firstDraft.scopes) := by
  intro k parent found
  obtain ⟨bound, same⟩ := List.getElem?_eq_some_iff.mp found
  simp [firstDraft, Scope.parents] at same

theorem descending_scopeTable (s : StyleSplit.Script) :
    Scope.Descending (Scope.parents s.scopeTable.scopes) := by
  rw [parents_scopeTable]
  exact (s.stretch_places.descending Nat.one_pos descending_firstDraft).1

theorem each_scopeTable {P : Binding → Prop} (stable : Binding.Stable P)
    (places : ∀ p ∈ s.places, ∀ b ∈ p.node.declares, P b) : Scope.Each P s.scopeTable.scopes := by
  have body : Scope.Each P (ScopeDraft.addBody 0 s.body firstDraft).scopes := by
    refine s.stretch_places.each P stable (by simp) places fun scope member b declared => ?_
    rw [List.mem_singleton.mp member] at declared
    cases declared
  have folded (assignments : List (Text × Nat)) {scopes : List Scope} (each : Scope.Each P scopes) :
      Scope.Each P (assignments.foldl ScopeDraft.applyAssignment scopes) := by
    induction assignments generalizing scopes with
    | nil => exact each
    | cons assignment rest ih => exact ih (ScopeDraft.each_applyAssignment stable each assignment)
  exact folded _ body

theorem stands_statement {statement : Stmt} (member : statement ∈ s.body) :
    s.Stands (.stmt statement) 0 :=
  s.stretch_places.heads _ (List.mem_map_of_mem member)

theorem stands_child (member : p ∈ s.places) {c : Node} (child : c ∈ p.node.children) :
    s.Stands c p.inner :=
  s.stretch_places.closed p member c child

theorem inner_of_place (member : p ∈ s.places) : p.node.opens = false ∧ p.inner = p.outer ∨
    p.node.opens = true ∧
      (Scope.parents s.scopeTable.scopes)[p.inner]? = some (some p.outer) := by
  rw [parents_scopeTable]
  exact s.stretch_places.inner p member

/-- In the scope that a function opens, its own name is that of the function. -/
theorem calls_of_place (member : p ∈ s.places) {name : Text}
    (own : p.node.ownName? = some name) :
    Scope.Calls s.scopeTable.scopes p.inner name p.node := by
  have folded (assignments : List (Text × Nat)) {scopes : List Scope}
      (calls : Scope.Calls scopes p.inner name p.node) :
      Scope.Calls (assignments.foldl ScopeDraft.applyAssignment scopes) p.inner name p.node := by
    induction assignments generalizing scopes with
    | nil => exact calls
    | cons assignment rest ih => exact ih (ScopeDraft.calls_applyAssignment calls assignment)
  exact folded _ (s.stretch_places.named p member name own)

theorem outer_of_place (member : p ∈ s.places) : p.outer < s.scopeTable.scopes.length := by
  rw [← ScopeDraft.length_parents, parents_scopeTable, ScopeDraft.length_parents]
  exact (s.stretch_places.descending Nat.one_pos descending_firstDraft).2 p member

end Script

end StyleSplit
