import Mathlib.Data.List.Find
import StyleSplit.Proofs.Scope.Frames
import StyleSplit.Proofs.Scope.Reassigning

/-! What a name of a script refers to. A `var` belongs to the innermost function around it, or
to the script, and everything else that a node declares to the innermost frame. A name refers
to what the innermost of the frames around it declares under that name, before or after it. -/
namespace StyleSplit

open Script Script.Node

namespace Script

/-- Whether what a node declares belongs to a function or to the script. -/
def Node.hoists : Node → Bool
  | .stmt (.declaration _ kind _) => kind == .var
  | _ => false

/-- The number of the scope to which a declaration belongs where some scopes are open. -/
def Event.Open.owner (o : Event.Open) (hoisted : Bool) : Nat := if hoisted then o.home else o.id

/-- What a node declares, hoisted or not. -/
def Node.declared (n : Node) : List (Bool × Binding) := n.declares.map (n.hoists, ·)

/-- A declaration made where some scopes are open belongs to one of them. -/
def Event.Open.Owns (o : Event.Open) (own : List (Bool × Binding)) (x : Nat × Declaration) : Prop :=
  ∃ b ∈ own, x.1 = o.owner b.1 ∧ x.2.binding = b.2

/-- A declaration is one of the node of a site. -/
def Site.Declares (v : Site) (x : Nat × Declaration) : Prop := v.inside.Owns v.node.declared x

/-- The events of a traversal of some nodes side by side tell what their sites declare, and
`own`, which is declared on the way to them. -/
def Traces (size : Nat) (own : List (Bool × Binding)) (ns : List Node) (events : List Event) :
    Prop :=
  ∀ (next : Nat) (p : Position) (i : Nat) (here : Event.Open), ∃ (front : List Site) (next' : Nat),
    (∀ fuel stack, sitesFrom (size + fuel) next (abreast p i here ns ++ stack) =
      front ++ sitesFrom fuel next' stack) ∧
    ∀ around rest x, x ∈ Event.declared next here around (events ++ rest) ↔
      (here.Owns own x ∨ ∃ v ∈ front, v.Declares x) ∨ x ∈ Event.declared next' here around rest

variable {size size' : Nat} {own own' : List (Bool × Binding)} {n : Node} {ns ns' : List Node}
  {events events' : List Event} {o : Event.Open} {x : Nat × Declaration}

theorem Event.Open.owns_append :
    o.Owns (own ++ own') x ↔ o.Owns own x ∨ o.Owns own' x := by
  simp [Owns, or_and_right, exists_or]

theorem traces_none : Traces 0 [] [] [] := by
  intro next p i here
  refine ⟨[], next, fun fuel stack => by simp [abreast], fun around rest x => ?_⟩
  simp [Event.Open.Owns]

theorem Traces.append (first : Traces size own ns events) (last : Traces size' own' ns' events') :
    Traces (size + size') (own ++ own') (ns ++ ns') (events ++ events') := by
  intro next p i here
  obtain ⟨front, between, visits, declares⟩ := first next p i here
  obtain ⟨front', next', visits', declares'⟩ := last between p (i + ns.length) here
  refine ⟨front ++ front', next', fun fuel stack => ?_, fun around rest x => ?_⟩
  · have beside : abreast p i here (ns ++ ns') =
        abreast p i here ns ++ abreast p (i + ns.length) here ns' := by
      simp [abreast, List.zipIdx_append]
    rw [beside, Nat.add_assoc, List.append_assoc, visits, visits', List.append_assoc]
  · rw [List.append_assoc, declares, declares', Event.Open.owns_append]
    simp only [List.mem_append, or_and_right, exists_or]
    grind

/-- The events of names that are declared alike. -/
theorem declared_declareAll (next : Nat) (here : Event.Open) (around : List Event.Open)
    (hoisted : Bool) (names : List Text) (kind : BindingKind) (init : Option Expr) (span : Span)
    (rest : List Event) :
    Event.declared next here around (Event.declareAll hoisted names kind init span ++ rest) =
      names.map (fun name => (here.owner hoisted, ⟨name, kind, init, span⟩)) ++
        Event.declared next here around rest := by
  induction names with
  | nil => rfl
  | cons name more ih => exact congrArg _ ih

theorem Traces.declareAll (walked : Traces size own ns events) (hoisted : Bool)
    (names : List Text) (kind : BindingKind) (init : Option Expr) (span : Span) :
    Traces size ((names.map (⟨·, kind, init, span, false⟩)).map (hoisted, ·) ++ own) ns
      (Event.declareAll hoisted names kind init span ++ events) := by
  intro next p i here
  obtain ⟨front, next', visits, declares⟩ := walked next p i here
  refine ⟨front, next', visits, fun around rest x => ?_⟩
  have alike : here.Owns ((names.map (⟨·, kind, init, span, false⟩)).map (hoisted, ·)) x ↔
      x ∈ names.map fun name => (here.owner hoisted, (⟨name, kind, init, span⟩ : Declaration)) := by
    obtain ⟨k, d⟩ := x
    obtain ⟨name, kind', init', span'⟩ := d
    simp [Event.Open.Owns, Declaration.binding]
    grind
  rw [List.append_assoc, declared_declareAll, List.mem_append, declares, Event.Open.owns_append,
    alike, or_assoc, or_assoc, or_assoc]

/-- A node without a scope of its own declares where it stands. -/
theorem Traces.shut (inside : Traces size n.declared n.children events) (shut : n.opens = false) :
    Traces (size + 1) [] [n] events := by
  intro next p i here
  obtain ⟨front, next', visits, declares⟩ := inside next (p ++ [i]) 0 here
  refine ⟨⟨p ++ [i], n, here, here⟩ :: front, next', fun fuel stack => ?_, fun around rest x => ?_⟩
  · have more : size + 1 + fuel = size + fuel + 1 := by omega
    rw [more]
    simp [abreast, sitesFrom, Event.Open.into, shut, ← visits]
  · rw [declares]
    simp [Event.Open.Owns, Site.Declares]

/-- A node with a scope of its own declares in there. -/
theorem Traces.framed (inside : Traces size n.declared n.children events) (opens : n.opens = true) :
    Traces (size + 1) [] [n] (Event.framed n.isFunction events) := by
  intro next p i here
  obtain ⟨front, next', visits, declares⟩ :=
    inside (next + 1) (p ++ [i]) 0 (here.into next n)
  refine ⟨⟨p ++ [i], n, here, here.into next n⟩ :: front, next', fun fuel stack => ?_,
    fun around rest x => ?_⟩
  · have more : size + 1 + fuel = size + fuel + 1 := by omega
    rw [more]
    simp [abreast, sitesFrom, opens, ← visits]
  · have enters : Event.declared next here around (Event.framed n.isFunction events ++ rest) =
        Event.declared (next + 1) (here.into next n) (here :: around)
          (events ++ (.leave :: rest)) := by
      rw [Event.framed, List.cons_append, List.append_assoc, List.singleton_append,
        Event.Open.into, if_pos opens]
      rfl
    rw [enters, declares]
    simp [Event.Open.Owns, Site.Declares, Event.declared]

theorem Traces.target (walked : Traces size own ns events) (kind : VariableKind) (t : Declarator) :
    Traces size ((Node.declares.ofDeclarator kind t).map (kind == .var, ·) ++ own) ns
      (Event.ofTarget kind t ++ events) := by
  obtain ⟨span, names, init, pattern⟩ := t
  cases pattern with
  | true => exact walked.declareAll (kind == .var) names .parameter none span
  | false => exact walked.declareAll (kind == .var) names _ init span

theorem Traces.function {body : List Stmt} (inside : Traces size [] (body.map .stmt) events)
    (span : Span) (name : Option Text) (parameters : List Text) :
    Traces (size + 1) [] [.expr (.function span name parameters body)]
      (Event.framed true (Event.declareAll false name.toList .function
        (some (.function span name parameters body)) span ++
          Event.declareAll false parameters .parameter none span ++ events)) := by
  have inner := (inside.declareAll false parameters .parameter none span).declareAll false
    name.toList .function (some (.function span name parameters body)) span
  refine Traces.framed (n := .expr (.function span name parameters body)) ?_ rfl
  rw [List.append_nil, ← List.map_append, ← List.append_assoc] at inner
  exact inner

mutual

theorem ofExpr_traces : ∀ e : Expr, Traces e.size [] [.expr e] (Event.ofExpr e)
  | .literal .. | .identifier .. => traces_none.shut rfl
  | .list _ items => (ofItems_traces items).shut rfl
  | .mapping _ entries => (ofEntries_traces entries).shut rfl
  | .function span name parameters body => (ofBody_traces body).function span name parameters
  | .call _ callee arguments _ _ =>
    ((ofExpr_traces callee).append (ofItems_traces arguments)).shut rfl
  | .other _ children _ _ => (ofParts_traces children).shut rfl

theorem ofEntry_traces : ∀ e : Entry, Traces e.size [] [.entry e] (Event.ofEntry e)
  | .mk _ (some key) value true _ => ((ofExpr_traces key).append (ofExpr_traces value)).shut rfl
  | .mk _ (some _) value false _ | .mk _ none value _ _ => (ofExpr_traces value).shut rfl

theorem ofPart_traces : ∀ p : Part, Traces p.size [] [p.toNode] (Event.ofPart p)
  | .expr e => ofExpr_traces e
  | .stmt s => ofStmt_traces s

theorem ofInit_traces : ∀ t : Declarator,
    Traces t.size [] (t.init.map Node.expr).toList (Event.ofInit t)
  | .mk _ _ (some init) _ => ofExpr_traces init
  | .mk _ _ none _ => traces_none

theorem ofStmt_traces : ∀ s : Stmt, Traces s.size [] [.stmt s] (Event.ofStmt s)
  | .declaration _ kind declarators => (ofDeclarators_traces kind declarators).shut rfl
  | .function span name definition =>
    ((ofExpr_traces definition).declareAll false [name] .function (some definition) span).shut rfl
  | .class_ span name body =>
    ((ofExpr_traces body).declareAll false [name] .class_ none span).shut rfl
  | .imports span names => by
    have declared := traces_none.declareAll false names .import_ none span
    rw [List.append_nil, List.append_nil] at declared
    exact Traces.shut (n := .stmt (.imports span names)) declared rfl
  | .expression _ e => (ofExpr_traces e).shut rfl
  | .block _ body => (ofBody_traces body).framed rfl
  | .control _ children => (ofParts_traces children).framed rfl

theorem ofItems_traces : ∀ items : List Expr,
    Traces (sizeOfItems items) [] (items.map .expr) (Event.ofItems items)
  | [] => traces_none
  | e :: rest => (ofExpr_traces e).append (ofItems_traces rest)

theorem ofEntries_traces : ∀ entries : List Entry,
    Traces (sizeOfEntries entries) [] (entries.map .entry) (Event.ofEntries entries)
  | [] => traces_none
  | e :: rest => (ofEntry_traces e).append (ofEntries_traces rest)

theorem ofParts_traces : ∀ parts : List Part,
    Traces (sizeOfParts parts) [] (parts.map Part.toNode) (Event.ofParts parts)
  | [] => traces_none
  | p :: rest => (ofPart_traces p).append (ofParts_traces rest)

theorem ofDeclarators_traces (kind : VariableKind) : ∀ declarators : List Declarator,
    Traces (sizeOfDeclarators declarators)
      ((declarators.flatMap (Node.declares.ofDeclarator kind)).map (kind == .var, ·))
      (declarators.filterMap fun t => t.init.map .expr) (Event.ofDeclarators kind declarators)
  | [] => traces_none
  | t :: rest => by
    rw [Node.inits_cons, List.flatMap_cons, List.map_append]
    exact ((ofInit_traces t).append (ofDeclarators_traces kind rest)).target kind t

theorem ofBody_traces : ∀ body : List Stmt,
    Traces (sizeOfBody body) [] (body.map .stmt) (Event.ofBody body)
  | [] => traces_none
  | s :: rest => (ofStmt_traces s).append (ofBody_traces rest)

end

variable {s : StyleSplit.Script}

/-- A script declares what the nodes at its sites declare. -/
theorem mem_declarations : x ∈ s.declarations ↔ ∃ v ∈ s.sites, v.Declares x := by
  obtain ⟨front, next, visits, declares⟩ := ofBody_traces s.body 1 [] 0 ⟨0, 0⟩
  have same : s.sites = front := by
    have whole := visits 0 []
    rw [List.append_nil, sitesFrom, List.append_nil] at whole
    exact whole
  have all := declares [] [] x
  rw [List.append_nil] at all
  rw [declarations, all, same]
  simp [Event.Open.Owns, Event.declared]

/-- The frame to which what the node at a position declares belongs. -/
def ownerFrame? (s : StyleSplit.Script) (p : Position) (n : Node) : Option Position :=
  if n.hoists then (s.enclosing p).find? s.isHome else (s.enclosing p).head?

/-- What the nodes of a script declare that belongs to a frame. -/
def declaredIn (s : StyleSplit.Script) (frame : Position) : List Binding :=
  s.positions.flatMap fun p =>
    ((s.nodeAt p).filter fun n => s.ownerFrame? p n == some frame).elim [] Node.declares

/-- Whether a frame declares a name, wherever in it. -/
def declaresIn (s : StyleSplit.Script) (name : Text) (frame : Position) : Bool :=
  (s.declaredIn frame).any (·.name == name)

variable {frame : Position} {d : Declaration} {b : Binding} {name : Text}

/-- What belongs to a frame belongs to its scope. -/
theorem number_ownerFrame {v : Site} (member : v ∈ s.sites) :
    (s.ownerFrame? v.position v.node).map s.number = some (v.inside.owner v.node.hoists) := by
  have faces := faces_site member
  rw [ownerFrame?, Event.Open.owner]
  split
  · exact faces.home
  · have filled : s.scopeTable.around v.inside.id ≠ [] := by
      obtain ⟨frame, found, -⟩ := Option.map_eq_some_iff.mp faces.home
      rw [faces.around]
      exact List.ne_nil_of_mem (List.mem_map_of_mem (List.mem_of_find?_eq_some found))
    rw [← List.head?_map, ← faces.around]
    obtain none | only | ⟨outer, child⟩ := s.scopeTable.around_cases v.inside.id
    · exact absurd none filled
    · rw [only]
      rfl
    · rw [ScopeTable.around_child s.descending_scopeTable child]
      rfl

theorem mem_declaredIn (known : frame ∈ s.frames) : b ∈ s.declaredIn frame ↔
    ∃ v ∈ s.sites, b ∈ v.node.declares ∧ v.inside.owner v.node.hoists = s.number frame := by
  have belongs {v : Site} (member : v ∈ s.sites) :
      s.ownerFrame? v.position v.node = some frame ↔
        v.inside.owner v.node.hoists = s.number frame := by
    have owner := number_ownerFrame member
    constructor
    · intro same
      rw [same, Option.map_some, Option.some.injEq] at owner
      exact owner.symm
    · intro same
      obtain ⟨q, found, numbered⟩ := Option.map_eq_some_iff.mp owner
      rw [found, (number_inj known).mp (same.symm.trans numbered.symm)]
  rw [declaredIn, ← sites_positions, List.mem_flatMap]
  constructor
  · rintro ⟨p, listed, member⟩
    obtain ⟨v, known, rfl⟩ := List.mem_map.mp listed
    rw [nodeAt_site known, Option.filter_some] at member
    split at member
    · rename_i same
      exact ⟨v, known, member, (belongs known).mp (eq_of_beq same)⟩
    · cases member
  · rintro ⟨v, known, member, same⟩
    refine ⟨v.position, List.mem_map_of_mem known, ?_⟩
    rw [nodeAt_site known, Option.filter_some, (belongs known).mpr same, beq_self_eq_true]
    exact member

/-- What belongs to the scope of a frame is what the nodes declare that belongs to the frame. -/
theorem mem_belonging (known : frame ∈ s.frames) :
    d ∈ Event.belonging (s.number frame) s.declarations ↔ d.binding ∈ s.declaredIn frame := by
  have listed : d ∈ Event.belonging (s.number frame) s.declarations ↔
      (s.number frame, d) ∈ s.declarations := by
    simp [Event.belonging]
  rw [listed, mem_declarations, mem_declaredIn known]
  refine exists_congr fun v => and_congr_right fun _ => ?_
  constructor
  · rintro ⟨_, member, owner, same⟩
    obtain ⟨b, declares, rfl⟩ := List.mem_map.mp member
    exact ⟨same ▸ declares, owner.symm⟩
  · rintro ⟨declares, owner⟩
    exact ⟨_, List.mem_map_of_mem declares, owner.symm, rfl⟩

/-- A node declares names that are not reassigned yet. -/
theorem Node.eq_binding_of_declares (member : b ∈ n.declares) :
    ∃ d : Declaration, d.binding = b := by
  have fresh : b.reassigned = false := by
    cases n with
    | entry => cases member
    | expr e =>
      cases e with
      | function =>
        rcases List.mem_append.mp member with member | member <;>
          obtain ⟨_, -, rfl⟩ := List.mem_map.mp member <;> rfl
      | literal | identifier | list | mapping | call | other => cases member
    | stmt st =>
      cases st with
      | declaration =>
        obtain ⟨⟨_, names, _, pattern⟩, -, member⟩ := List.mem_flatMap.mp member
        obtain ⟨_, -, rfl⟩ := List.mem_map.mp member
        cases pattern <;> rfl
      | function | class_ =>
        obtain rfl := List.mem_singleton.mp member
        rfl
      | imports =>
        obtain ⟨_, -, rfl⟩ := List.mem_map.mp member
        rfl
      | expression | block | control => cases member
  exact ⟨⟨b.name, b.kind, b.init, b.span⟩, by rw [Declaration.binding, ← fresh]⟩

/-- The scope of a frame holds a name if something in the frame declares it, and holds what one
of these declarations says, apart from whether the name is reassigned. -/
theorem scope_of_frame (known : frame ∈ s.frames) (name : Text) :
    ∃ scope, s.scopeTable.scopes[s.number frame]? = some scope ∧
      (scope.find? name).isSome = s.declaresIn name frame ∧
      ∀ b, scope.find? name = some b → ∃ d ∈ s.declaredIn frame, d.name = name ∧
        b = { d with reassigned := b.reassigned } := by
  have bound : s.number frame < s.scopeTable.scopes.length := by
    rw [← length_frames]
    exact List.idxOf_lt_length_of_mem known
  have found := List.getElem?_eq_getElem bound
  obtain ⟨empty, names, none, -, same⟩ := scopes_scopeTable found
  refine ⟨_, found, ?_⟩
  rw [same, Scope.find?_reassignAll, Scope.find?_declarations none]
  cases declared : (Event.belonging (s.number frame) s.declarations).filter (·.name == name) with
  | nil =>
    refine ⟨(Bool.eq_false_iff.mpr fun declares => ?_).symm, nofun⟩
    obtain ⟨b, member, named⟩ := List.any_eq_true.mp declares
    obtain ⟨v, -, declares, -⟩ := (mem_declaredIn known).mp member
    obtain ⟨d, rfl⟩ := Node.eq_binding_of_declares declares
    exact List.filter_eq_nil_iff.mp declared d ((mem_belonging known).mpr member) named
  | cons first others =>
    have listed := declared ▸ List.mem_cons_self (a := first) (l := others)
    obtain ⟨member, named⟩ := List.mem_filter.mp listed
    have member := (mem_belonging known).mp member
    refine ⟨(List.any_eq_true.mpr ⟨first.binding, member, named⟩).symm, fun b held => ?_⟩
    cases held
    exact ⟨first.binding, member, eq_of_beq named, rfl⟩

theorem declares_number (known : frame ∈ s.frames) (name : Text) :
    s.scopeTable.declares name (s.number frame) = s.declaresIn name frame := by
  obtain ⟨scope, found, same, -⟩ := scope_of_frame known name
  rw [ScopeTable.declares, found, Option.any_some, same]

/-- A lookup asks the innermost of the frames around a place that declares the name. -/
theorem lookup_enclosing {id : Nat} {span : Span} {p : Position}
    (recorded : s.scopeTable.uses.find? (·.1 == span) = some (span, id))
    (around : s.scopeTable.around id = (s.enclosing p).map s.number) (name : Text) :
    s.scopeTable.lookup span name =
      ((s.enclosing p).find? (s.declaresIn name)).bind fun frame =>
        (s.scopeTable.scopes[s.number frame]?).bind (·.find? name) := by
  have seen : s.scopeTable.declaringAt? span name =
      ScopeTable.declaring? s.scopeTable.scopes id name := by
    rw [ScopeTable.declaringAt?, recorded]
    rfl
  have declaring : ScopeTable.declaring? s.scopeTable.scopes id name =
      ((s.enclosing p).find? (s.declaresIn name)).map s.number := by
    rw [ScopeTable.declaring?_eq, around, List.find?_map]
    congr 1
    exact List.find?_congr fun frame inside => declares_number (mem_frames_of_enclosing inside) name
  rw [ScopeTable.lookup_eq_declaring, seen, declaring, Option.bind_map]
  rfl

/-- The table has the spans of the identifiers. -/
theorem mem_uses_iff {span : Span} : span ∈ s.scopeTable.uses.map Prod.fst ↔
    ∃ name, .expr (.identifier span name) ∈ s.walk := by
  rw [uses_scopeTable, ← places_walk]
  constructor
  · intro member
    obtain ⟨use, listed, rfl⟩ := List.mem_map.mp member
    obtain ⟨p, place, used⟩ := List.mem_filterMap.mp (List.mem_reverse.mp listed)
    unfold Place.use? at used
    split at used
    · cases used
      exact ⟨_, List.mem_map_of_mem place⟩
    · cases used
  · rintro ⟨name, member⟩
    obtain ⟨⟨_, outer, inner⟩, place, rfl⟩ := List.mem_map.mp member
    exact List.mem_map_of_mem
      (List.mem_reverse.mpr (List.mem_filterMap.mpr ⟨_, place, rfl⟩) : (span, outer) ∈ _)

/-- The scope of an identifier has around it the scopes of the frames around the identifier. -/
theorem find_enclosing {source : Text} (parsed : parse source = .ok s) {p : Position} {span : Span}
    {used : Text} (found : s.nodeAt p = some (.expr (.identifier span used))) :
    ∃ id, s.scopeTable.uses.find? (·.1 == span) = some (span, id) ∧
      s.scopeTable.around id = (s.enclosing p).map s.number := by
  obtain ⟨v, member, rfl, node⟩ := exists_site found
  have place := place_of_site member
  have inner : v.inside.id = v.here.id := by
    rcases inner_of_place place with ⟨-, same⟩ | ⟨opens, -⟩
    · exact same
    · rw [Site.place, node] at opens
      cases opens
  exact ⟨v.here.id, find_use parsed ⟨v.place, place, node, rfl⟩, inner ▸ (faces_site member).around⟩

/-- The table of a script has a scope for every identifier and for nothing else, and one scope
for every frame. The scope of an identifier and those around it are the scopes of the frames
around the identifier, up to that of the script. A name looked up from there is what the
innermost one of these frames that declares it anywhere declares it to be, and it is unknown
only if none does. -/
theorem lookup_innermost {source : Text} (parsed : parse source = .ok s) :
    (∀ span, span ∈ s.scopeTable.uses.map Prod.fst ↔
      ∃ name, .expr (.identifier span name) ∈ s.walk) ∧
    (s.frames.Nodup ∧ (∀ p, p ∈ s.frames ↔ s.isFrame p = true) ∧
      s.frames.length = s.scopeTable.scopes.length) ∧
    ∀ p span used, s.nodeAt p = some (.expr (.identifier span used)) →
      (∃ id, s.scopeTable.uses.find? (·.1 == span) = some (span, id) ∧
        s.scopeTable.around id = (s.enclosing p).map s.number) ∧
      ∀ name,
        match (s.enclosing p).find? (s.declaresIn name) with
        | none => s.scopeTable.lookup span name = none
        | some frame => ∃ scope b, s.scopeTable.scopes[s.number frame]? = some scope ∧
            scope.find? name = some b ∧ s.scopeTable.lookup span name = some b ∧
            ∃ d ∈ s.declaredIn frame, d.name = name ∧
              b = { d with reassigned := b.reassigned } := by
  refine ⟨fun span => mem_uses_iff, ⟨s.frames_nodup, fun p => mem_frames, s.length_frames⟩,
    fun p span used found => ?_⟩
  obtain ⟨id, recorded, around⟩ := find_enclosing parsed found
  refine ⟨⟨id, recorded, around⟩, fun name => ?_⟩
  have looked := lookup_enclosing recorded around name
  cases innermost : (s.enclosing p).find? (s.declaresIn name) with
  | none => rw [looked, innermost, Option.bind_none]
  | some frame =>
    have known := mem_frames_of_enclosing (List.mem_of_find?_eq_some innermost)
    obtain ⟨scope, numbered, declares, held⟩ := scope_of_frame known name
    obtain ⟨b, found⟩ := Option.isSome_iff_exists.mp (declares.trans (List.find?_some innermost))
    refine ⟨scope, b, numbered, found, ?_, held b found⟩
    rw [looked, innermost, Option.bind_some, numbered, Option.bind_some, found]

/-- The script `let b;()=>{b;{var b}}`. -/
def hoistingSource : Text := text "let b;()=>\x7bb;\x7bvar b\x7d\x7d"

/-- The `b` in the function is the `var` of the block behind it, as this belongs to the function,
not that of the script. -/
theorem lookup_innermost_hoisted : ∃ s b, parse hoistingSource = .ok s ∧
    s.nodeAt [1, 0, 0, 0] = some (.expr (.identifier ⟨11, 12⟩ (text "b"))) ∧
    s.enclosing [1, 0, 0, 0] = [[1, 0], []] ∧
    s.scopeTable.lookup ⟨11, 12⟩ (text "b") = some b ∧ b.kind = .var := by
  have checked : (parse hoistingSource).toOption.any (fun s =>
      (s.nodeAt [1, 0, 0, 0]).any (isIdentifier ⟨11, 12⟩ (text "b")) &&
      s.enclosing [1, 0, 0, 0] == [[1, 0], []] && s.declaresIn (text "b") [1, 0] &&
      (s.declaredIn [1, 0]).all (·.kind == .var)) = true := by
    decide +kernel
  obtain ⟨s, parsed, run⟩ := exists_of_any checked
  simp only [Bool.and_eq_true, beq_iff_eq, List.all_eq_true, Option.any_eq_true] at run
  obtain ⟨⟨⟨⟨n, found, identifier⟩, enclosing⟩, declares⟩, each⟩ := run
  obtain rfl := isIdentifier_iff.mp identifier
  have looked := ((lookup_innermost parsed).2.2 _ _ _ found).2 (text "b")
  rw [enclosing, List.find?_cons, declares] at looked
  obtain ⟨_, b, -, -, lookup, d, member, -, same⟩ := looked
  refine ⟨s, b, parsed, found, enclosing, lookup, ?_⟩
  rw [same]
  exact each d member

end Script

end StyleSplit
