import StyleSplit.Proofs.Scope.Traversal
import StyleSplit.Proofs.Script.Occurrences

/-! The frames of a script: the script itself, and the functions, blocks and control statements
in it. Every frame has one scope, numbered in the order of the walk, and the scopes around a
place are those of the frames around it. -/
namespace StyleSplit

open Script Script.Node

namespace Script

/-- Whether a node is a function with its parameters and its body. -/
def Node.isFunction : Node → Bool
  | .expr (.function ..) => true
  | _ => false

/-- Whether a position is that of a node with a scope of its own, or of the script itself. -/
def isFrame (s : StyleSplit.Script) (p : Position) : Bool := p.isEmpty || (s.nodeAt p).any opens

/-- Whether a position is that of a function, or of the script itself. -/
def isHome (s : StyleSplit.Script) (p : Position) : Bool :=
  p.isEmpty || (s.nodeAt p).any Node.isFunction

/-- The frames around what is inside the node at a position, from the inside out. -/
def enclosing (s : StyleSplit.Script) (p : Position) : List Position :=
  p.inits.reverse.filter s.isFrame

/-- The frames of a script, in the order of the walk. -/
def frames (s : StyleSplit.Script) : List Position :=
  [] :: s.positions.filter fun p => (s.nodeAt p).any opens

/-- The number of a frame, and of its scope. -/
def number (s : StyleSplit.Script) (frame : Position) : Nat := s.frames.idxOf frame

variable {s : StyleSplit.Script} {p q : Position} {n : Node} {i id next : Nat}

theorem enclosing_concat (s : StyleSplit.Script) (q : Position) (i : Nat) :
    s.enclosing (q ++ [i]) =
      if (s.nodeAt (q ++ [i])).any opens then (q ++ [i]) :: s.enclosing q else s.enclosing q := by
  have longer : (q ++ [i]).inits.reverse = (q ++ [i]) :: q.inits.reverse := by
    rw [List.inits_append, List.reverse_append]
    rfl
  have same : s.isFrame (q ++ [i]) = (s.nodeAt (q ++ [i])).any opens := by simp [isFrame]
  rw [enclosing, longer, List.filter_cons, same]
  rfl

theorem mem_frames : p ∈ s.frames ↔ s.isFrame p = true := by
  rw [frames, List.mem_cons, List.mem_filter, mem_positions_iff, isFrame, Bool.or_eq_true,
    List.isEmpty_iff]
  refine or_congr_right (and_iff_right_of_imp fun opened => ?_)
  cases found : s.nodeAt p with
  | none => simp [found] at opened
  | some => rfl

theorem mem_frames_of_enclosing (inside : q ∈ s.enclosing p) : q ∈ s.frames :=
  mem_frames.mpr (List.mem_filter.mp inside).2

theorem frames_nodup (s : StyleSplit.Script) : s.frames.Nodup := by
  refine List.nodup_cons.mpr ⟨fun member => ?_, s.positions_nodup.filter _⟩
  obtain ⟨_, opened⟩ := List.mem_filter.mp member
  cases opened

theorem number_of_getElem? (found : s.frames[i]? = some p) : s.number p = i := by
  obtain ⟨bound, rfl⟩ := List.getElem?_eq_some_iff.mp found
  exact s.frames_nodup.idxOf_getElem i bound

theorem number_inj (member : p ∈ s.frames) : s.number p = s.number q ↔ p = q :=
  List.idxOf_inj member

/-- A node that the walk comes by: its position, the scopes open where it stands, and those
open for the nodes inside it. -/
structure Site where
  position : Position
  node : Node
  here : Event.Open
  inside : Event.Open

/-- The place of a site, which knows the scopes by their numbers alone. -/
def Site.place (v : Site) : Place := ⟨v.node, v.here.id, v.inside.id⟩

/-- The scopes open for the nodes inside a node that stands where others are open. -/
def Event.Open.into (here : Event.Open) (next : Nat) (n : Node) : Event.Open :=
  if n.opens then ⟨next, if n.isFunction then next else here.home⟩ else here

theorem Event.Open.into_shut (here : Event.Open) (next : Nat) (shut : n.opens = false) :
    here.into next n = here := by
  simp [into, shut]

/-- Nodes side by side below a position, the first one with the number `i`. -/
def abreast (p : Position) (i : Nat) (here : Event.Open) (ns : List Node) :
    List (Position × Node × Event.Open) :=
  (ns.zipIdx i).map fun c => (p ++ [c.2], c.1, here)

/-- Nodes side by side stand where the same scopes are open. -/
theorem map_abreast {α : Type} (f : Node × Event.Open → α) (p : Position) (i : Nat)
    (here : Event.Open) (ns : List Node) :
    (abreast p i here ns).map (fun x => f x.2) = ns.map fun n => f (n, here) := by
  conv_rhs => rw [← List.zipIdx_map_fst i ns]
  rw [abreast, List.map_map, List.map_map]
  rfl

/-- The sites of the nodes on a stack and of those inside them, with the number of the next
scope. -/
def sitesFrom : Nat → Nat → List (Position × Node × Event.Open) → List Site
  | 0, _, _ => []
  | _ + 1, _, [] => []
  | fuel + 1, next, (p, n, here) :: stack =>
    ⟨p, n, here, here.into next n⟩ ::
      sitesFrom fuel (if n.opens then next + 1 else next)
        (abreast p 0 (here.into next n) n.children ++ stack)

/-- The sites of a script. -/
def sites (s : StyleSplit.Script) : List Site :=
  sitesFrom s.size 1 (abreast [] 0 ⟨0, 0⟩ (s.body.map .stmt))

theorem sitesFrom_place (fuel next : Nat) (stack : List (Position × Node × Event.Open)) :
    (sitesFrom fuel next stack).map Site.place =
      placesFrom fuel next (stack.map fun x => (x.2.1, x.2.2.id)) := by
  induction fuel generalizing next stack with
  | zero => rfl
  | succ fuel ih =>
    obtain _ | ⟨⟨p, n, here⟩, stack⟩ := stack
    · rfl
    have inner : (here.into next n).id = if n.opens then next else here.id := by
      unfold Event.Open.into
      split <;> rfl
    rw [sitesFrom, List.map_cons, ih, List.map_append, map_abreast fun x => (x.1, x.2.id)]
    simp [placesFrom, Site.place, inner]

theorem sites_places (s : StyleSplit.Script) : s.sites.map Site.place = s.places := by
  rw [sites, sitesFrom_place, map_abreast fun x => (x.1, x.2.id), List.map_map]
  rfl

/-- The positions below which the nodes on a stack stand come first in those of the sites. -/
theorem sitesFrom_position {fuel : Nat} {stack : List (Position × Node × Event.Open)}
    (enough : (stack.map fun x => x.2.1.size).sum ≤ fuel) :
    (sitesFrom fuel next stack).map Site.position =
      stack.flatMap fun x => x.2.1.positions.map (x.1 ++ ·) := by
  induction fuel generalizing next stack with
  | zero =>
    obtain _ | ⟨⟨p, n, here⟩, stack⟩ := stack
    · rfl
    rw [List.map_cons, List.sum_cons, Node.size_eq] at enough
    omega
  | succ fuel ih =>
    obtain _ | ⟨⟨p, n, here⟩, stack⟩ := stack
    · rfl
    have below (o : Event.Open) :
        (abreast p 0 o n.children).flatMap (fun x => x.2.1.positions.map (x.1 ++ ·)) =
          (positionsOf n.children).map (p ++ ·) := by
      simp [abreast, positionsOf, List.flatMap_map, List.map_flatMap, Function.comp_def]
    rw [sitesFrom, List.map_cons, ih, List.flatMap_append, below, List.flatMap_cons,
      positions_eq, List.map_cons, List.append_nil, List.cons_append]
    rw [List.map_cons, List.sum_cons, Node.size_eq] at enough
    have sizes (o : Event.Open) : (abreast p 0 o n.children).map (fun x => x.2.1.size) =
        n.children.map Node.size := map_abreast (fun x => x.1.size) p 0 o n.children
    rw [List.map_append, sizes, List.sum_append]
    simp only at enough
    omega

theorem sites_positions (s : StyleSplit.Script) : s.sites.map Site.position = s.positions := by
  rw [sites, sitesFrom_position, positions, positionsOf]
  · simp [abreast, List.flatMap_map]
  · rw [map_abreast fun x => x.1.size]
    exact Nat.le_of_eq (sizeOfBody_eq s.body).symm

/-- The node of a site is the one at its position. -/
theorem nodeAt_site {v : Site} (member : v ∈ s.sites) : s.nodeAt v.position = some v.node := by
  have same : s.sites.map (fun v => s.nodeAt v.position) = s.sites.map fun v => some v.node := by
    have nodes : s.sites.map Site.node = s.walk := by
      rw [← places_walk, ← sites_places, List.map_map]
      rfl
    have found := s.map_nodeAt
    rw [← sites_positions, ← nodes, List.map_map, List.map_map] at found
    exact found
  exact List.map_inj_left.mp same v member

/-- There is a site for every node. -/
theorem exists_site (found : s.nodeAt p = some n) : ∃ v ∈ s.sites, v.position = p ∧ v.node = n := by
  have listed : p ∈ s.sites.map Site.position := by
    rw [sites_positions, mem_positions_iff, found]
    rfl
  obtain ⟨v, member, rfl⟩ := List.mem_map.mp listed
  exact ⟨v, member, rfl, Option.some.inj ((nodeAt_site member).symm.trans found)⟩

theorem place_of_site {v : Site} (member : v ∈ s.sites) : v.place ∈ s.places :=
  sites_places s ▸ List.mem_map_of_mem member

/-- The frames are those of the sites where a scope begins, in the same order. -/
theorem frames_sites (s : StyleSplit.Script) :
    s.frames = [] :: (s.sites.filter (·.node.opens)).map Site.position := by
  rw [frames, ← sites_positions, List.filter_map]
  congr 2
  refine List.filter_congr fun v member => ?_
  rw [Function.comp_apply, nodeAt_site member, Option.any_some]

/-- There are as many scopes as frames. -/
theorem length_frames (s : StyleSplit.Script) :
    s.frames.length = s.scopeTable.scopes.length := by
  have opened : (s.sites.filterMap fun v => v.place.opened?).length =
      (s.sites.filter (·.node.opens)).length := by
    induction s.sites with
    | nil => rfl
    | cons v rest ih =>
      rw [List.filterMap_cons, List.filter_cons, Place.opened?, Site.place]
      cases v.node.opens <;> simp [ih]
  have parents := s.stretch_places.parents
  rw [← sites_places, List.filterMap_map] at parents
  rw [← ScopeDraft.length_parents, parents_scopeTable, parents, List.length_append,
    frames_sites, List.length_cons, List.length_map, ← opened, Nat.add_comm]
  rfl

/-- Open scopes are those of some frames: the innermost one with those around it, and the one
to which a `var` belongs. -/
structure Faces (s : StyleSplit.Script) (o : Event.Open) (chain : List Position) : Prop where
  around : s.scopeTable.around o.id = chain.map s.number
  home : (chain.find? s.isHome).map s.number = some o.home

theorem faces_script (s : StyleSplit.Script) : s.Faces ⟨0, 0⟩ [[]] where
  around := by
    have parents := s.stretch_places.parents
    rw [← parents_scopeTable] at parents
    have outermost : (Scope.parents s.scopeTable.scopes)[0]? = some none := by
      rw [parents]
      rfl
    obtain ⟨scope, found, parent⟩ :=
      Option.map_eq_some_iff.mp (List.getElem?_map .. ▸ outermost)
    rw [ScopeTable.around, Scope.around, found]
    simp [parent, number, frames]
  home := by simp [isHome, number, frames]

/-- Inside a frame its own scope is the innermost one. -/
theorem Faces.into {here : Event.Open} {chain : List Position} (faces : s.Faces here chain)
    (found : s.nodeAt p = some n) (opens : n.opens = true) (filled : p ≠ [])
    (known : s.frames[next]? = some p)
    (child : (Scope.parents s.scopeTable.scopes)[next]? = some (some here.id)) :
    s.Faces (here.into next n) (p :: chain) where
  around := by
    rw [Event.Open.into, if_pos opens, ScopeTable.around_child s.descending_scopeTable child,
      faces.around, List.map_cons, number_of_getElem? known]
  home := by
    have home : s.isHome p = n.isFunction := by simp [isHome, found, filled]
    rw [Event.Open.into, if_pos opens, List.find?_cons, home]
    cases n.isFunction with
    | true => simp [number_of_getElem? known]
    | false => simpa using faces.home

/-- What the nodes on a stack face is faced by all nodes inside them, with the frames between.
The frames from the next one on are those still to come. -/
theorem sitesFrom_faces {fuel : Nat} {stack : List (Position × Node × Event.Open)}
    (frames : s.frames.drop next =
      ((sitesFrom fuel next stack).filter (·.node.opens)).map Site.position)
    (nodes : ∀ v ∈ sitesFrom fuel next stack, s.nodeAt v.position = some v.node)
    (parents : ∀ v ∈ sitesFrom fuel next stack, v.node.opens = true →
      (Scope.parents s.scopeTable.scopes)[v.inside.id]? = some (some v.here.id))
    (stacked : ∀ x ∈ stack, ∃ q i, x.1 = q ++ [i] ∧ s.Faces x.2.2 (s.enclosing q)) :
    ∀ v ∈ sitesFrom fuel next stack, s.Faces v.inside (s.enclosing v.position) := by
  induction fuel generalizing next stack with
  | zero => nofun
  | succ fuel ih =>
    obtain _ | ⟨⟨p, n, here⟩, stack⟩ := stack
    · nofun
    rw [sitesFrom] at frames nodes parents ⊢
    obtain ⟨q, i, rfl, outside⟩ := stacked _ List.mem_cons_self
    have found := nodes _ List.mem_cons_self
    have self : s.Faces (here.into next n) (s.enclosing (q ++ [i])) := by
      rw [enclosing_concat, found, Option.any_some]
      split
      · rename_i opens
        have known : s.frames[next]? = some (q ++ [i]) := by
          rw [← List.head?_drop, frames, List.filter_cons_of_pos (by exact opens)]
          rfl
        have child := parents _ List.mem_cons_self opens
        rw [Event.Open.into, if_pos opens] at child
        exact outside.into found opens (by simp) known child
      · rename_i shut
        rw [here.into_shut next (by simpa using shut)]
        exact outside
    have rest : s.frames.drop (if n.opens then next + 1 else next) =
        ((sitesFrom fuel (if n.opens then next + 1 else next)
          (abreast (q ++ [i]) 0 (here.into next n) n.children ++ stack)).filter
            (·.node.opens)).map Site.position := by
      cases opens : n.opens with
      | true =>
        rw [List.filter_cons_of_pos (by exact opens)] at frames
        rw [if_pos rfl, ← List.drop_drop, frames]
        simp [opens]
      | false =>
        rw [List.filter_cons_of_neg (by simp [opens])] at frames
        simpa [opens] using frames
    intro v member
    rcases List.mem_cons.mp member with rfl | member
    · exact self
    · refine ih rest (fun v later => nodes v (List.mem_cons_of_mem _ later))
        (fun v later => parents v (List.mem_cons_of_mem _ later)) (fun x listed => ?_) v member
      rcases List.mem_append.mp listed with child | later
      · obtain ⟨⟨c, k⟩, -, rfl⟩ := List.mem_map.mp child
        exact ⟨q ++ [i], k, rfl, self⟩
      · exact stacked x (List.mem_cons_of_mem _ later)

/-- The scopes open inside of a node are those of the frames around what is inside it. -/
theorem faces_site {v : Site} (member : v ∈ s.sites) :
    s.Faces v.inside (s.enclosing v.position) := by
  refine sitesFrom_faces ?_ (fun v => nodeAt_site) (fun v member opens => ?_) ?_ v member
  · rw [frames_sites]
    rfl
  · rcases inner_of_place (place_of_site member) with ⟨shut, -⟩ | ⟨-, child⟩
    · cases shut.symm.trans opens
    · exact child
  · intro x listed
    obtain ⟨⟨c, k⟩, -, rfl⟩ := List.mem_map.mp listed
    exact ⟨[], k, rfl, s.faces_script⟩

end Script

end StyleSplit
