import Mathlib.Algebra.Order.BigOperators.Group.List
import Mathlib.Algebra.Order.Ring.Nat
import StyleSplit.Proofs.Scope.Standing
import StyleSplit.Rewrite.Call

/-! The order in which a walk comes by a script. The position of a node is the way down to it:
the number of a statement, then that of a node directly inside it, and so on. In the order of
positions a node comes before those inside it, and these come one after the other. The walk
keeps a stack, but it comes by the nodes in this order, every position once; so do the calls
that it picks, and they start one after the other in the text. -/
namespace StyleSplit

open Script Script.Node

namespace Script

/-- The way down to a node, by the numbers of the nodes on it. -/
abbrev Position := List Nat

namespace Node

variable {n c : Node}

/-- The number of nodes at and inside a node. -/
def size : Node → Nat
  | .expr e => e.size
  | .entry e => e.size
  | .stmt s => s.size

theorem sizeOfItems_eq (items : List Expr) :
    sizeOfItems items = ((items.map Node.expr).map size).sum := by
  induction items with
  | nil => rfl
  | cons e rest ih => simp [sizeOfItems, ih, size]

theorem sizeOfEntries_eq (entries : List Entry) :
    sizeOfEntries entries = ((entries.map Node.entry).map size).sum := by
  induction entries with
  | nil => rfl
  | cons e rest ih => simp [sizeOfEntries, ih, size]

theorem sizeOfParts_eq (parts : List Part) :
    sizeOfParts parts = ((parts.map Part.toNode).map size).sum := by
  induction parts with
  | nil => rfl
  | cons p rest ih => cases p <;> simp [sizeOfParts, Part.size, Part.toNode, ih, size]

theorem sizeOfDeclarators_eq (declarators : List Declarator) : sizeOfDeclarators declarators =
    ((declarators.filterMap fun d => d.init.map Node.expr).map size).sum := by
  induction declarators with
  | nil => rfl
  | cons d rest ih =>
    obtain ⟨span, names, init, pattern⟩ := d
    cases init <;> simp [sizeOfDeclarators, Declarator.size, Declarator.init, ih, size]

theorem sizeOfBody_eq (body : List Stmt) :
    sizeOfBody body = ((body.map Node.stmt).map size).sum := by
  induction body with
  | nil => rfl
  | cons s rest ih => simp [sizeOfBody, ih, size]

/-- A node is one more than what is directly inside it. -/
theorem size_eq (n : Node) : n.size = (n.children.map size).sum + 1 := by
  cases n with
  | expr e =>
    cases e with
    | literal | identifier => rfl
    | list _ items => exact congrArg (· + 1) (sizeOfItems_eq items)
    | mapping _ entries => exact congrArg (· + 1) (sizeOfEntries_eq entries)
    | function _ _ _ body => exact congrArg (· + 1) (sizeOfBody_eq body)
    | call _ callee arguments => simp [size, Expr.size, children, ofExpr, sizeOfItems_eq]
    | other _ parts => exact congrArg (· + 1) (sizeOfParts_eq parts)
  | entry e =>
    obtain ⟨_, key, value, computed, _⟩ := e
    cases key <;> cases computed <;> simp [size, Entry.size, children, ofEntry]
  | stmt s =>
    cases s with
    | declaration _ _ declarators => exact congrArg (· + 1) (sizeOfDeclarators_eq declarators)
    | function | class_ | expression => simp [size, Stmt.size, children, ofStmt]
    | imports => rfl
    | block _ body => exact congrArg (· + 1) (sizeOfBody_eq body)
    | control _ parts => exact congrArg (· + 1) (sizeOfParts_eq parts)

theorem size_child (child : c ∈ n.children) : c.size < n.size := by
  have below := List.le_sum_of_mem (List.mem_map_of_mem (f := size) child)
  rw [size_eq n]
  omega

/-- A node, and then everything inside it, child by child. -/
def preorder (n : Node) : List Node := n :: n.children.attach.flatMap fun c => preorder c.1
termination_by n.size
decreasing_by exact size_child c.2

theorem preorder_eq (n : Node) : n.preorder = n :: n.children.flatMap preorder := by
  rw [preorder]
  simp [List.flatMap_subtype]

/-- The node at a position inside a node. -/
def at? : Node → Position → Option Node
  | n, [] => some n
  | n, i :: rest => (n.children[i]?).bind (at? · rest)

/-- The positions inside a node, its own first. -/
def positions (n : Node) : List Position :=
  [] :: n.children.attach.zipIdx.flatMap fun c => (positions c.1.1).map (c.2 :: ·)
termination_by n.size
decreasing_by exact size_child c.1.2

/-- The positions inside several nodes that stand side by side. -/
def positionsOf (ns : List Node) : List Position :=
  ns.zipIdx.flatMap fun c => c.1.positions.map (c.2 :: ·)

theorem positions_eq (n : Node) : n.positions = [] :: positionsOf n.children := by
  have same : n.children.zipIdx =
      n.children.attach.zipIdx.map (Prod.map Subtype.val id) := by
    rw [← List.zipIdx_map, List.attach_map_subtype_val]
  rw [positions, positionsOf, same, List.flatMap_map]
  rfl

theorem mem_positionsOf {ns : List Node} {p : Position} : p ∈ positionsOf ns ↔
    ∃ i c rest, ns[i]? = some c ∧ rest ∈ c.positions ∧ p = i :: rest := by
  unfold positionsOf
  constructor
  · intro member
    obtain ⟨⟨c, i⟩, listed, member⟩ := List.mem_flatMap.mp member
    obtain ⟨rest, inside, rfl⟩ := List.mem_map.mp member
    exact ⟨i, c, rest, List.mem_zipIdx_iff_getElem?.mp listed, inside, rfl⟩
  · rintro ⟨i, c, rest, found, inside, rfl⟩
    exact List.mem_flatMap.mpr ⟨(c, i), List.mem_zipIdx_iff_getElem?.mpr found,
      List.mem_map_of_mem inside⟩

/-- A node has the positions at which something is found. -/
theorem mem_positions {p : Position} : p ∈ n.positions ↔ (n.at? p).isSome := by
  induction p generalizing n with
  | nil => simp [positions_eq, at?]
  | cons i rest ih =>
    rw [positions_eq, List.mem_cons, mem_positionsOf, at?]
    constructor
    · rintro (same | ⟨j, c, more, found, inside, same⟩)
      · cases same
      · cases same
        rw [found]
        exact ih.mp inside
    · intro some
      cases found : n.children[i]? with
      | none => simp [found] at some
      | some c =>
        rw [found] at some
        exact .inr ⟨i, c, rest, found, ih.mpr some, rfl⟩

/-- Positions side by side are in order if those of each node are. -/
theorem positionsOf_sorted {ns : List Node}
    (each : ∀ n ∈ ns, n.positions.Pairwise (· < ·)) : (positionsOf ns).Pairwise (· < ·) := by
  have numbered : ns.zipIdx.Pairwise fun a b => a.2 < b.2 := by
    have range : (List.range' 0 ns.length).Pairwise (· < ·) := List.pairwise_lt_range'
    rw [← List.zipIdx_map_snd 0 ns] at range
    exact List.pairwise_map.mp range
  refine List.pairwise_flatMap.mpr ⟨fun c listed => ?_, numbered.imp fun {a b} lower => ?_⟩
  · have sorted := each c.1 (List.fst_mem_of_mem_zipIdx listed)
    exact List.pairwise_map.mpr
      (sorted.imp fun before => List.cons_lt_cons_iff.mpr (.inr ⟨rfl, before⟩))
  · intro p here q there
    obtain ⟨_, -, rfl⟩ := List.mem_map.mp here
    obtain ⟨_, -, rfl⟩ := List.mem_map.mp there
    exact List.cons_lt_cons_iff.mpr (.inl lower)

theorem positions_sorted (n : Node) : n.positions.Pairwise (· < ·) := by
  rw [positions_eq]
  refine List.pairwise_cons.mpr ⟨fun p member => ?_,
    positionsOf_sorted fun c child => positions_sorted c⟩
  obtain ⟨_, _, _, -, -, rfl⟩ := mem_positionsOf.mp member
  exact List.nil_lt_cons _ _
termination_by n.size
decreasing_by exact size_child child

/-- What is found at the positions side by side is what is at and inside each node. -/
theorem map_positionsOf {ns : List Node} {look : Position → Option Node}
    (looks : ∀ i c rest, ns[i]? = some c → look (i :: rest) = c.at? rest)
    (each : ∀ n ∈ ns, n.positions.map n.at? = n.preorder.map some) :
    (positionsOf ns).map look = (ns.flatMap preorder).map some := by
  have nodes : ns.flatMap preorder = ns.zipIdx.flatMap fun c => c.1.preorder := by
    conv_lhs => rw [← List.zipIdx_map_fst 0 ns, List.flatMap_map]
  rw [nodes, positionsOf, List.map_flatMap, List.map_flatMap]
  refine List.flatMap_congr fun c listed => ?_
  rw [← each c.1 (List.fst_mem_of_mem_zipIdx listed), List.map_map]
  exact List.map_congr_left fun rest _ => looks _ _ rest (List.mem_zipIdx_iff_getElem?.mp listed)

theorem map_positions (n : Node) : n.positions.map n.at? = n.preorder.map some := by
  rw [positions_eq, preorder_eq, List.map_cons, List.map_cons]
  congr 1
  exact map_positionsOf (fun i c rest found => by rw [at?, found, Option.bind_some])
    fun c child => map_positions c
termination_by n.size
decreasing_by exact size_child child

/-- With as much fuel as there are nodes, the stack is gone through node by node. -/
theorem visit_eq {fuel : Nat} {stack : List Node} (enough : (stack.map size).sum ≤ fuel) :
    visit fuel stack = stack.flatMap preorder := by
  induction fuel generalizing stack with
  | zero =>
    cases stack with
    | nil => rfl
    | cons n rest =>
      rw [List.map_cons, List.sum_cons, size_eq] at enough
      omega
  | succ fuel ih =>
    cases stack with
    | nil => rfl
    | cons n rest =>
      rw [List.map_cons, List.sum_cons, size_eq] at enough
      rw [visit, ih, List.flatMap_append, List.flatMap_cons, preorder_eq n, List.cons_append]
      rw [List.map_append, List.sum_append]
      omega

end Node

variable {s : StyleSplit.Script}

/-- The node at a position. -/
def nodeAt (s : StyleSplit.Script) : Position → Option Node
  | [] => none
  | i :: rest => ((s.body.map Node.stmt)[i]?).bind (·.at? rest)

/-- The positions of a script. -/
def positions (s : StyleSplit.Script) : List Position := positionsOf (s.body.map .stmt)

theorem mem_positions_iff {p : Position} : p ∈ s.positions ↔ (s.nodeAt p).isSome := by
  rw [positions, mem_positionsOf]
  constructor
  · rintro ⟨i, c, rest, found, inside, rfl⟩
    rw [nodeAt, found]
    exact mem_positions.mp inside
  · intro some
    cases p with
    | nil => cases some
    | cons i rest =>
      rw [nodeAt] at some
      cases found : (s.body.map Node.stmt)[i]? with
      | none => simp [found] at some
      | some c =>
        rw [found] at some
        exact ⟨i, c, rest, found, mem_positions.mpr some, rfl⟩

theorem walk_eq (s : StyleSplit.Script) :
    s.walk = (s.body.map Node.stmt).flatMap preorder :=
  visit_eq (Nat.le_of_eq (sizeOfBody_eq s.body).symm)

theorem positions_nodup (s : StyleSplit.Script) : s.positions.Nodup :=
  (positionsOf_sorted fun n _ => n.positions_sorted).imp fun before same => by
    subst same
    exact List.lt_irrefl _ before

/-- The walk comes by what is at the positions. -/
theorem map_nodeAt (s : StyleSplit.Script) : s.positions.map s.nodeAt = s.walk.map some := by
  rw [walk_eq]
  exact map_positionsOf (fun i c rest found => by rw [nodeAt, found, Option.bind_some])
    fun n _ => n.map_positions

/-- What is found at some positions is listed: every position comes once, after those that
enclose it and in the order of positions. -/
def Enumerates {α : Type} (look : Position → Option α) (items : List α) : Prop :=
  ∃ ps : List Position, ps.Pairwise (fun p q => p < q ∧ ¬ q <+: p) ∧
    (∀ p, p ∈ ps ↔ (look p).isSome) ∧ ps.map look = items.map some

theorem enumerates_walk (s : StyleSplit.Script) : Enumerates s.nodeAt s.walk := by
  refine ⟨s.positions, ?_, fun p => mem_positions_iff, s.map_nodeAt⟩
  refine (positionsOf_sorted fun n _ => n.positions_sorted).imp fun {p q} before => ?_
  refine ⟨before, ?_⟩
  rintro ⟨rest, rfl⟩
  exact List.le_append_left before

/-- What is picked of listed things is listed. -/
theorem Enumerates.pick {α β : Type} {look : Position → Option α} {items : List α}
    (listed : Enumerates look items) (choose : α → Option β) :
    Enumerates (fun p => (look p).bind choose) (items.filterMap choose) := by
  obtain ⟨ps, sorted, each, same⟩ := listed
  refine ⟨ps.filter fun p => ((look p).bind choose).isSome, sorted.filter _, fun p => ?_, ?_⟩
  · rw [List.mem_filter, each]
    cases found : look p <;> simp [found]
  · clear sorted each
    induction ps generalizing items with
    | nil =>
      obtain rfl : items = [] := by simpa using same.symm
      rfl
    | cons p rest ih =>
      cases items with
      | nil => cases same
      | cons a items =>
        obtain ⟨here, there⟩ := List.cons_eq_cons.mp same
        rw [List.filter_cons, List.filterMap_cons]
        cases chosen : choose a <;> simp [here, chosen, ih there]

/-- The call of one of some names at a position. -/
def styleCallAt (s : StyleSplit.Script) (names : List Text) (p : Position) : Option Call :=
  (s.nodeAt p).bind fun n => (Call.ofNode? n).filter (·.callsOneOf names)

theorem styleCalls_eq (s : StyleSplit.Script) (names : List Text) : s.styleCalls names =
    s.walk.filterMap fun n => (Call.ofNode? n).filter (·.callsOneOf names) := by
  rw [styleCalls, List.filter_filterMap]

/-- The calls that a walk comes by start one after the other, where the nodes on its stack
do. -/
theorem calls_start {fuel low : Nat} {stack : List Node} {spans : List Span} {outer : Span}
    (takes : List.Forall₂ TakesUp stack spans) (row : outer.Row spans)
    (behind : ∀ s ∈ spans, low ≤ s.start) :
    (∀ c ∈ (visit fuel stack).filterMap Call.ofNode?, low ≤ c.span.start) ∧
      ((visit fuel stack).filterMap Call.ofNode?).Pairwise fun a b =>
        a.span.start ≤ b.span.start := by
  induction fuel generalizing stack spans outer low with
  | zero => simp [visit]
  | succ fuel ih =>
    cases takes with
    | nil => simp [visit]
    | @cons n span rest others first later =>
      obtain ⟨inner, inside, within⟩ := first.children
      have here := behind span List.mem_cons_self
      have next : ∀ s ∈ inner ++ others, span.start ≤ s.start := by
        intro s member
        rcases List.mem_append.mp member with member | member
        · exact (within.covers s member).1
        · have filled := row.filled span List.mem_cons_self
          have after := (Span.row_cons.mp row).2.2 s member
          omega
      obtain ⟨lower, ordered⟩ := ih (List.rel_append inside later) (row.refine_first within) next
      have lower' := fun c member => Nat.le_trans here (lower c member)
      rw [visit, List.filterMap_cons]
      cases called : Call.ofNode? n with
      | none => exact ⟨lower', ordered⟩
      | some c =>
        have start : c.span = span := by
          unfold Call.ofNode? at called
          split at called
          · cases called
            cases first with
            | usual => rfl
          · cases called
        refine ⟨List.forall_mem_cons.mpr ⟨start ▸ here, lower'⟩, ordered.cons fun b member => ?_⟩
        exact start ▸ lower b member

theorem calls_walk {source : Text} (parsed : parse source = .ok s) :
    (s.walk.filterMap Call.ofNode?).Pairwise fun a b => a.span.start ≤ b.span.start := by
  obtain ⟨row, takes⟩ := takeUp_body parsed
  exact (calls_start takes row fun _ _ => Nat.zero_le _).2

/-- The walk through a script comes by its nodes as a recursion from each node to its children
does: by what is at each position once, in the order of positions. So the calls of some names
are those at its positions, each once, one before the calls inside it, and they start one after
the other in the text. -/
theorem walk_in_order {source : Text} (parsed : parse source = .ok s) (names : List Text) :
    s.walk = (s.body.map Node.stmt).flatMap preorder ∧ Enumerates s.nodeAt s.walk ∧
      Enumerates (s.styleCallAt names) (s.styleCalls names) ∧
      (s.styleCalls names).Pairwise fun a b => a.span.start ≤ b.span.start := by
  refine ⟨s.walk_eq, s.enumerates_walk, ?_, (calls_walk parsed).filter _⟩
  rw [styleCalls_eq]
  exact s.enumerates_walk.pick _

/-- The script `class A extends f(g()){}f()`. -/
def callingSource : Text := text "class A extends f(g())\x7b\x7df()"

/-- What a class extends stands before the body that holds it, and its calls come first. -/
theorem walk_in_order_extending : ∃ s, parse callingSource = .ok s ∧ s.walk.length = 9 ∧
    (s.styleCalls [text "f", text "g"]).map (fun c => c.span.start) = [16, 18, 24] ∧
    s.walk = (s.body.map Node.stmt).flatMap preorder ∧ Enumerates s.nodeAt s.walk ∧
      Enumerates (s.styleCallAt [text "f", text "g"]) (s.styleCalls [text "f", text "g"]) ∧
      (s.styleCalls [text "f", text "g"]).Pairwise fun a b => a.span.start ≤ b.span.start := by
  have checked : (parse callingSource).toOption.any (fun s => s.walk.length == 9 &&
      (s.styleCalls [text "f", text "g"]).map (fun c => c.span.start) == [16, 18, 24]) = true := by
    decide +kernel
  obtain ⟨s, parsed, run⟩ := exists_of_any checked
  obtain ⟨size, starts⟩ := Bool.and_eq_true_iff.mp run
  exact ⟨s, parsed, eq_of_beq size, eq_of_beq starts, walk_in_order parsed _⟩

end Script

end StyleSplit
