import StyleSplit.Proofs.Script.Grounding

/-! How the nodes of a script are laid out. Every node stands at some text, the nodes
directly inside it stand inside its span, one after the other, and so do declarators and
the arguments of calls. What a class declaration extends is the one exception: it belongs
to the body of the class and stands before it. -/
namespace StyleSplit

/-- Spans inside another one, each of them filled, one after the other. -/
structure Span.Row (outer : Span) (parts : List Span) : Prop where
  covers : ∀ s ∈ parts, outer.Covers s
  filled : ∀ s ∈ parts, s.start < s.stop
  apart : parts.Pairwise fun a b => a.stop ≤ b.start

namespace Span

variable {outer middle inner s : Span} {parts front back : List Span}

theorem Row.nil : outer.Row [] where
  covers := by simp
  filled := by simp
  apart := .nil

theorem Row.single (covers : outer.Covers s) (filled : s.start < s.stop) : outer.Row [s] where
  covers := by simpa using covers
  filled := by simpa using filled
  apart := List.pairwise_singleton _ _

theorem Row.self (filled : s.start < s.stop) : s.Row [s] := .single (.refl s) filled

theorem Row.mono (wider : outer.Covers middle) (row : middle.Row parts) : outer.Row parts where
  covers s member := wider.trans (row.covers s member)
  filled := row.filled
  apart := row.apart

theorem Row.sublist (row : outer.Row parts) (sub : front.Sublist parts) : outer.Row front where
  covers s member := row.covers s (sub.subset member)
  filled s member := row.filled s (sub.subset member)
  apart := row.apart.sublist sub

theorem row_append : outer.Row (front ++ back) ↔
    outer.Row front ∧ outer.Row back ∧ ∀ a ∈ front, ∀ b ∈ back, a.stop ≤ b.start := by
  constructor
  · intro row
    exact ⟨row.sublist (List.sublist_append_left front back),
      row.sublist (List.sublist_append_right front back), (List.pairwise_append.mp row.apart).2.2⟩
  · rintro ⟨left, right, between⟩
    refine ⟨?_, ?_, List.pairwise_append.mpr ⟨left.apart, right.apart, between⟩⟩
    · exact fun s member => (List.mem_append.mp member).elim (left.covers s) (right.covers s)
    · exact fun s member => (List.mem_append.mp member).elim (left.filled s) (right.filled s)

theorem row_cons : outer.Row (s :: parts) ↔
    outer.Row [s] ∧ outer.Row parts ∧ ∀ b ∈ parts, s.stop ≤ b.start := by
  rw [← List.singleton_append, row_append]
  simp

/-- The second of two spans gives way to others inside it. -/
theorem Row.refine_last {a : Span} (row : outer.Row [a, s]) (inside : s.Row parts) :
    outer.Row (a :: parts) := by
  obtain ⟨first, last, before⟩ := row_cons.mp row
  refine row_cons.mpr ⟨first, inside.mono (last.covers s (by simp)), fun b later => ?_⟩
  exact Nat.le_trans (before s (by simp)) (inside.covers b later).1

/-- What is picked from things in a row, each inside the one it is picked from, is in a
row. -/
theorem Row.pick {α β : Type} {xs : List α} {spans : α → List Span} {choose : α → Option β}
    {place : β → Span} (row : outer.Row (xs.flatMap spans))
    (each : ∀ x ∈ xs, ∀ y, choose x = some y → ∃ s ∈ spans x, s.Row [place y]) :
    outer.Row ((xs.filterMap choose).map place) := by
  induction xs with
  | nil => exact .nil
  | cons x rest ih =>
    obtain ⟨first, others, before⟩ := row_append.mp row
    have later := fun other member => each other (List.mem_cons_of_mem x member)
    cases chosen : choose x with
    | none => simpa [List.filterMap_cons, chosen] using ih others later
    | some y =>
      obtain ⟨s, own, here⟩ := each x (by simp) y chosen
      rw [List.filterMap_cons_some chosen, List.map_cons]
      refine row_cons.mpr ⟨here.mono (first.covers s own), ih others later, fun b member => ?_⟩
      obtain ⟨y', listed, rfl⟩ := List.mem_map.mp member
      obtain ⟨other, known, chosen'⟩ := List.mem_filterMap.mp listed
      obtain ⟨s', own', there⟩ := later other known y' chosen'
      have apart := before s own s' (List.mem_flatMap.mpr ⟨other, known, own'⟩)
      have ends := here.covers (place y) (by simp)
      have starts := there.covers (place y') (by simp)
      exact Nat.le_trans ends.2 (Nat.le_trans apart starts.1)

end Span

namespace Script

namespace Node

/-- What stands inside a node, one after the other: declarators around their initial values,
the callee and the arguments of a call, and otherwise the nodes directly inside it. -/
def InRow : Node → Prop
  | .stmt (.declaration span _ declarators) =>
    span.Row (declarators.map Declarator.span) ∧
      ∀ d ∈ declarators, ∀ e, d.init = some e → d.span.Covers e.span
  | .expr (.call span callee items argumentsSpan _) =>
    span.Row [callee.span, argumentsSpan] ∧ argumentsSpan.Row (items.map Expr.span)
  | n => n.span.Row (n.children.map Node.span)

/-- Nodes that are laid out as they should be. -/
inductive Laid : Node → Prop where
  | usual {n : Node} : n.span.start < n.span.stop → n.InRow → (∀ c ∈ n.children, c.Laid) → n.Laid
  | extending {span body : Span} {name : Text} {heritage : Expr} {members : List Part} :
      span.Row [heritage.span, body] → body.Row (members.map fun m => m.toNode.span) →
      (.expr heritage : Node).Laid → (∀ m ∈ members, m.toNode.Laid) →
      (.stmt (.class_ span name (.other body (.expr heritage :: members) [] none)) : Node).Laid

variable {n inner : Node}

theorem Laid.filled (laid : n.Laid) : n.span.start < n.span.stop := by
  cases laid with
  | usual filled => exact filled
  | @extending span body name heritage members row =>
    have first := row.covers heritage.span (by simp)
    have some := row.filled heritage.span (by simp)
    have start : Node.span
        (.stmt (.class_ span name (.other body (.expr heritage :: members) [] none))) = span := rfl
    rw [start]
    exact Nat.lt_of_le_of_lt first.1 (Nat.lt_of_lt_of_le some first.2)

/-- A node that others are made into, one after the other. -/
theorem Laid.of_map {α : Type} {xs : List α} {make : α → Node}
    (filled : n.span.start < n.span.stop) (made : n.children = xs.map make)
    (usual : n.InRow = n.span.Row (n.children.map Node.span))
    (row : n.span.Row (xs.map fun x => (make x).span)) (each : ∀ x ∈ xs, (make x).Laid) :
    n.Laid := by
  refine .usual filled ?_ (by simpa [made] using each)
  rw [usual, made, List.map_map]
  exact row

/-- A node around a single other one. -/
theorem Laid.around {c : Node} (filled : n.span.start < n.span.stop) (only : n.children = [c])
    (usual : n.InRow = n.span.Row (n.children.map Node.span)) (row : n.span.Row [c.span])
    (laid : c.Laid) : n.Laid := by
  refine .usual filled ?_ (by simpa [only] using laid)
  rw [usual, only]
  exact row

/-- A node without anything inside it. -/
theorem Laid.leaf (filled : n.span.start < n.span.stop) (row : n.InRow) (none : n.children = []) :
    n.Laid :=
  .usual filled row (by simp [none])

/-- The nodes directly inside a node are laid out as well, those of a class apart. -/
theorem Laid.child (laid : n.Laid) (usual : ∀ span name body, n ≠ .stmt (.class_ span name body))
    {c : Node} (member : c ∈ n.children) : c.Laid := by
  cases laid with
  | usual _ _ each => exact each c member
  | extending => exact absurd rfl (usual _ _ _)

/-- The nodes directly inside a node are a row as well. -/
theorem InRow.children (row : n.InRow) (each : ∀ c ∈ n.children, c.Laid) :
    n.span.Row (n.children.map Node.span) := by
  unfold InRow at row
  split at row
  · rename_i span kind declarators
    obtain ⟨row, contains⟩ := row
    rw [List.map_eq_flatMap] at row
    refine row.pick fun d member c chosen => ?_
    obtain ⟨e, init, rfl⟩ := Option.map_eq_some_iff.mp chosen
    have good := each (.expr e) (List.mem_filterMap.mpr ⟨d, member, chosen⟩)
    exact ⟨d.span, by simp, .single (contains d member e init) good.filled⟩
  · rename_i span callee items argumentsSpan name
    have refined : span.Row (callee.span :: items.map Expr.span) := row.1.refine_last row.2
    have same : (Node.expr (.call span callee items argumentsSpan name)).children.map Node.span =
        callee.span :: items.map Expr.span := by
      simp [Node.children, ofExpr, Node.span, Function.comp_def]
    rw [same]
    exact refined
  · exact row

/-- Whatever stands somewhere inside a node stands inside its span. -/
theorem Laid.holds (laid : n.Laid) (held : Holds n inner) :
    n.span.Covers inner.span ∧ inner.span.start < inner.span.stop := by
  induction laid with
  | @usual n filled row each ih =>
    cases held with
    | self => exact ⟨.refl _, filled⟩
    | @inside _ c _ member held =>
      obtain ⟨covers, some⟩ := ih c member held
      exact ⟨((row.children each).covers _ (List.mem_map_of_mem member)).trans covers, some⟩
  | @extending span body name heritage members row inBody good each ihHeritage ihMembers =>
    have outer := row.covers
    cases held with
    | self =>
      have laid : Node.Laid (.stmt (.class_ span name _)) := .extending row inBody good each
      exact ⟨.refl _, laid.filled⟩
    | inside member held =>
      obtain rfl := List.mem_singleton.mp member
      have around : span.Covers body := outer body (by simp)
      cases held with
      | self => exact ⟨around, row.filled body (by simp)⟩
      | inside member held =>
        rcases List.mem_cons.mp member with rfl | member
        · obtain ⟨covers, some⟩ := ihHeritage held
          exact ⟨(outer heritage.span (by simp)).trans covers, some⟩
        · obtain ⟨m, listed, rfl⟩ := List.mem_map.mp member
          obtain ⟨covers, some⟩ := ihMembers m listed held
          have place := inBody.covers _ (List.mem_map_of_mem (f := fun m => m.toNode.span) listed)
          exact ⟨around.trans (place.trans covers), some⟩

end Node

namespace Fragment

/-- Where a fragment stands, as far as anything is kept of that. -/
def spans : Fragment → List Span
  | token t => [t.span]
  | word _ | names _ => []
  | expr e => [e.span]
  | entry e => [e.span]
  | stmt s => [s.span]
  | declarator d => [d.span]
  | arguments span _ => [span]
  | body statements => statements.map Stmt.span

/-- What a fragment holds is laid out as it should be. -/
def Laid : Fragment → Prop
  | token _ | word _ | names _ => True
  | expr e => Node.Laid (.expr e)
  | entry e => Node.Laid (.entry e)
  | stmt s => Node.Laid (.stmt s)
  | declarator d => ∀ e, d.init = some e → d.span.Covers e.span ∧ Node.Laid (.expr e)
  | arguments span items => span.Row (items.map Expr.span) ∧ ∀ e ∈ items, Node.Laid (.expr e)
  | body statements => ∀ s ∈ statements, Node.Laid (.stmt s)

/-- Where several fragments stand. -/
def allSpans (fs : List Fragment) : List Span := fs.flatMap spans

variable {fs : List Fragment} {outer : Span}

theorem mem_allSpans {f : Fragment} {s : Span} (member : f ∈ fs) (own : s ∈ f.spans) :
    s ∈ allSpans fs :=
  List.mem_flatMap.mpr ⟨f, member, own⟩

theorem allSpans_filter (test : Fragment → Bool) :
    (allSpans (fs.filter test)).Sublist (allSpans fs) := by
  unfold allSpans
  induction fs with
  | nil => exact .refl _
  | cons f rest ih =>
    rw [List.filter_cons]
    split
    · exact (List.Sublist.refl f.spans).append ih
    · exact ih.trans (List.sublist_append_right f.spans _)

/-- What is picked from fragments in a row is in a row, where each keeps its place. -/
theorem row_pick {α : Type} {choose : Fragment → Option α} {place : α → Span}
    (row : outer.Row (allSpans fs)) (own : ∀ f x, choose f = some x → place x ∈ f.spans) :
    outer.Row ((fs.filterMap choose).map place) := by
  refine row.pick fun f member x chosen => ⟨place x, own f x chosen, .self ?_⟩
  exact row.filled _ (mem_allSpans member (own f x chosen))

theorem allSpans_map {α : Type} {make : α → Fragment} {place : α → Span} (xs : List α)
    (own : ∀ x, (make x).spans = [place x]) : allSpans (xs.map make) = xs.map place := by
  rw [allSpans, List.flatMap_map, List.map_eq_flatMap]
  simp only [own]

/-- The statements of a body stand where the body does. -/
theorem row_body {statements : List Stmt} (row : outer.Row (allSpans fs))
    (member : .body statements ∈ fs) : outer.Row (statements.map Stmt.span) := by
  refine row.sublist ?_
  rw [allSpans, List.flatMap_def]
  exact List.sublist_flatten_of_mem (List.mem_map_of_mem (f := spans) member)

theorem row_stmts (row : outer.Row (allSpans fs)) :
    outer.Row ((fs.filterMap stmt?).map Stmt.span) := by
  refine row_pick row fun f s picked => ?_
  cases f <;> cases picked
  exact List.mem_singleton.mpr rfl

theorem row_parts (row : outer.Row (allSpans fs)) :
    outer.Row ((fs.filterMap part?).map fun part => part.toNode.span) := by
  refine row_pick row fun f part picked => ?_
  cases f <;> cases picked <;> exact List.mem_singleton.mpr rfl

/-- The members of a class stand in a row: a method is the value of its entry. -/
theorem row_members (row : outer.Row (allSpans fs)) (each : ∀ f ∈ fs, f.Laid) :
    outer.Row ((fs.filterMap member?).map fun part => part.toNode.span) := by
  refine row.pick fun f member part picked => ?_
  cases f <;> cases picked
  case expr e =>
    exact ⟨e.span, List.mem_singleton.mpr rfl,
      .self (row.filled e.span (mem_allSpans member (List.mem_singleton.mpr rfl)))⟩
  case entry e =>
    have laid : Node.Laid (.entry e) := each _ member
    obtain ⟨covers, filled⟩ := laid.holds (.inside (Entry.value_mem_children e) .self)
    exact ⟨e.span, List.mem_singleton.mpr rfl, .single covers filled⟩

theorem laid_stmts (each : ∀ f ∈ fs, f.Laid) : ∀ s ∈ fs.filterMap stmt?, Node.Laid (.stmt s) := by
  intro s member
  obtain ⟨f, listed, same⟩ := List.mem_filterMap.mp member
  cases f <;> cases same
  exact each _ listed

theorem laid_parts (each : ∀ f ∈ fs, f.Laid) : ∀ part ∈ fs.filterMap part?, part.toNode.Laid := by
  intro part member
  obtain ⟨f, listed, same⟩ := List.mem_filterMap.mp member
  cases f <;> cases same <;> exact each _ listed

theorem laid_members (each : ∀ f ∈ fs, f.Laid) :
    ∀ part ∈ fs.filterMap member?, part.toNode.Laid := by
  intro part member
  obtain ⟨f, listed, same⟩ := List.mem_filterMap.mp member
  cases f <;> cases same
  case entry e =>
    cases each (.entry e) listed with
    | usual _ _ each => exact each _ e.value_mem_children
  case expr e =>
    exact each (.expr e) listed

end Fragment

namespace Action

open StyleSplit.Span

variable {action : Action} {span : Span} {fs out : List Fragment} {e : Expr}

/-- Fragments that stand in a row inside a span, and what they hold is laid out. -/
def Placed (span : Span) (fs : List Fragment) : Prop :=
  span.Row (Fragment.allSpans fs) ∧ ∀ f ∈ fs, f.Laid

theorem Placed.nil : Placed span [] := ⟨.nil, by simp⟩

theorem Placed.one {f : Fragment} (row : span.Row f.spans) (laid : f.Laid) : Placed span [f] :=
  ⟨by simpa [Fragment.allSpans] using row, by simpa using laid⟩

theorem Placed.expr (filled : span.start < span.stop) (same : e.span = span)
    (laid : Node.Laid (.expr e)) : Placed span [.expr e] :=
  .one (by rw [Fragment.spans, same]; exact .self filled) laid

theorem laid_literal (filled : span.start < span.stop) (value : Scalar) :
    Node.Laid (.expr (.literal span value)) :=
  .leaf filled Row.nil rfl

theorem laid_identifier (filled : span.start < span.stop) (name : Text) :
    Node.Laid (.expr (.identifier span name)) :=
  .leaf filled Row.nil rfl

theorem laid_other (filled : span.start < span.stop) {parts : List Part} {names : List Text}
    {name : Option Text} (row : span.Row (parts.map fun part => part.toNode.span))
    (each : ∀ part ∈ parts, part.toNode.Laid) :
    Node.Laid (.expr (.other span parts names name)) :=
  .of_map filled rfl rfl row each

theorem laid_operand (filled : span.start < span.stop) (row : span.Row [e.span])
    (laid : Node.Laid (.expr e)) {names : List Text} {name : Option Text} :
    Node.Laid (.expr (.other span [.expr e] names name)) :=
  .around filled rfl rfl row laid

theorem laid_negated (filled : span.start < span.stop) (row : span.Row [e.span])
    (laid : Node.Laid (.expr e)) : Node.Laid (.expr (e.negated span)) := by
  unfold Expr.negated
  split
  · exact laid_literal filled _
  · exact laid_operand filled row laid

theorem laid_function (filled : span.start < span.stop) {name : Option Text} {names : List Text}
    {statements : List Stmt} (row : span.Row (statements.map Stmt.span))
    (each : ∀ s ∈ statements, Node.Laid (.stmt s)) :
    Node.Laid (.expr (.function span name names statements)) :=
  .of_map filled rfl rfl row each

theorem laid_expression (filled : span.start < span.stop) (row : span.Row [e.span])
    (laid : Node.Laid (.expr e)) : Node.Laid (.stmt (.expression span e)) :=
  .around filled rfl rfl row laid

/-- The plain key of an entry is not a node inside it. -/
theorem laid_entry (filled : span.start < span.stop) {key : Option Expr} {shorthand : Bool}
    (row : span.Row [e.span]) (laid : Node.Laid (.expr e)) :
    Node.Laid (.entry (.mk span key e false shorthand)) :=
  .around (c := .expr e) filled (by cases key <;> rfl) rfl row laid

theorem laid_computed (filled : span.start < span.stop) {key : Expr}
    (row : span.Row [key.span, e.span]) (keyed : Node.Laid (.expr key))
    (laid : Node.Laid (.expr e)) : Node.Laid (.entry (.mk span (some key) e true false)) := by
  refine .usual filled row fun c member => ?_
  rcases List.mem_pair.mp member with rfl | rfl
  · exact keyed
  · exact laid

theorem laid_declaration (filled : span.start < span.stop) {kind : VariableKind}
    {declarators : List Declarator} (row : span.Row (declarators.map Declarator.span))
    (each : ∀ d ∈ declarators, (Fragment.declarator d).Laid) :
    Node.Laid (.stmt (.declaration span kind declarators)) := by
  refine .usual filled ⟨row, fun d member e init => (each d member e init).1⟩ fun c member => ?_
  obtain ⟨d, listed, same⟩ := List.mem_filterMap.mp member
  obtain ⟨e, init, rfl⟩ := Option.map_eq_some_iff.mp same
  exact (each d listed e init).2

theorem laid_binding (filled : span.start < span.stop) {kind : VariableKind} {names : List Text}
    {place : Span} (row : span.Row [place]) :
    Node.Laid (.stmt (.declaration span kind [.mk place names none true])) := by
  refine laid_declaration filled row fun d member e init => ?_
  rw [List.mem_singleton.mp member] at init
  cases init

theorem laid_block (filled : span.start < span.stop) {statements : List Stmt}
    (row : span.Row (statements.map Stmt.span)) (each : ∀ s ∈ statements, Node.Laid (.stmt s)) :
    Node.Laid (.stmt (.block span statements)) :=
  .of_map filled rfl rfl row each

/-- What is inside the body of a class, as an expression that is laid out. -/
theorem parts_laid {parts : List Part} {names : List Text} {name : Option Text}
    (laid : Node.Laid (.expr (.other span parts names name))) :
    span.Row (parts.map fun m => m.toNode.span) ∧ ∀ m ∈ parts, m.toNode.Laid := by
  cases laid with
  | usual _ row each =>
    refine ⟨?_, fun m member => each _ (List.mem_map_of_mem member)⟩
    change span.Row ((parts.map Part.toNode).map Node.span) at row
    simpa [Function.comp_def] using row

theorem block_laid {statements : List Stmt} (laid : Node.Laid (.stmt (.block span statements))) :
    span.Row (statements.map Stmt.span) ∧ ∀ s ∈ statements, Node.Laid (.stmt s) := by
  cases laid with
  | usual _ row each =>
    refine ⟨?_, fun s member => each _ (List.mem_map_of_mem member)⟩
    change span.Row ((statements.map Node.stmt).map Node.span) at row
    simpa [Function.comp_def, Node.span] using row

/-- What an action makes of fragments in a row is in a row again. -/
theorem Applies.placed (applied : Applies span action fs out) (filled : span.start < span.stop)
    (placed : Placed span fs) : Placed span out := by
  obtain ⟨row, each⟩ := placed
  have expr (e : Expr) (member : .expr e ∈ fs) : Node.Laid (.expr e) := each (.expr e) member
  have stmt (s : Stmt) (member : .stmt s ∈ fs) : Node.Laid (.stmt s) := each (.stmt s) member
  have function (statements : List Stmt) (member : .body statements ∈ fs) (formals : List Text)
      (name : Option Text) : Node.Laid (.expr (.function span name formals statements)) :=
    laid_function filled (Fragment.row_body row member) (each (.body statements) member)
  cases applied with
  | splice => exact ⟨row, each⟩
  | discard | bareField => exact .nil
  | word | parameters | boundNames | lastName => exact .one .nil trivial
  | identifier => exact .expr filled rfl (laid_identifier filled _)
  | number | string | stringKey | numberKey | nameKey | template | true_ | false_ | null =>
    exact .expr filled rfl (laid_literal filled _)
  | substituted => exact .expr filled rfl (laid_other filled .nil (by simp))
  | shorthandEntry t rest =>
    have first : span.Row [t.span] := (row_append.mp row).1
    have name := laid_identifier (first.filled t.span (by simp)) t.text
    exact .one (.self filled) (laid_entry filled first name)
  | compound =>
    exact .expr filled rfl (laid_other filled (Fragment.row_parts row) (Fragment.laid_parts each))
  | list items =>
    rw [Fragment.allSpans_map items fun _ => rfl] at row
    refine .expr filled rfl (.of_map filled rfl rfl row fun e listed => ?_)
    exact expr e (List.mem_map_of_mem listed)
  | mapping entries =>
    rw [Fragment.allSpans_map entries fun _ => rfl] at row
    refine .expr filled rfl (.of_map filled rfl rfl row fun e listed => ?_)
    exact each (.entry e) (List.mem_map_of_mem listed)
  | spreadEntry e => exact .one (.self filled) (laid_entry filled row (expr e (by simp)))
  | keyedEntry place key value =>
    have behind : span.Row [value.span] := (row_cons.mp row).2.1
    exact .one (.self filled) (laid_entry filled behind (expr value (by simp)))
  | computedEntry key value =>
    exact .one (.self filled)
      (laid_computed filled row (expr key (by simp)) (expr value (by simp)))
  | method tokens place key formals statements =>
    have value := function statements (by simp) formals none
    exact .one (.self filled) (laid_entry filled (.self filled) value)
  | body statements =>
    rw [Fragment.allSpans_map statements fun _ => rfl] at row
    exact .one row fun s listed => stmt s (List.mem_map_of_mem listed)
  | function name formals statements =>
    exact .expr filled rfl (function statements (by simp) formals _)
  | functionDeclaration t formals statements =>
    have definition := function statements (by simp) formals (some t.text)
    exact .one (.self filled) (.around filled rfl rfl (.self filled) definition)
  | arrow formals statements =>
    exact .expr filled rfl (function statements (by simp) formals none)
  | arrowValue formals e =>
    have place : span.Row [e.span] := row
    have some := place.filled e.span (by simp)
    refine .expr filled rfl (laid_function filled place fun s member => ?_)
    rw [List.mem_singleton.mp member]
    exact laid_expression some (.self some) (expr e (by simp))
  | classBody =>
    exact .expr filled rfl
      (laid_other filled (Fragment.row_members row each) (Fragment.laid_members each))
  | field place key value => exact .one (row_cons.mp row).2.1 (expr value (by simp))
  | assignment target value =>
    refine .expr filled rfl (laid_other filled row fun part listed => ?_)
    rcases List.mem_pair.mp listed with rfl | rfl
    · exact expr target (by simp)
    · exact expr value (by simp)
  | update e | forTarget e | member e | bareConstruction e =>
    exact .expr filled rfl (laid_operand filled row (expr e (by simp)))
  | negation e =>
    have place : (e.negated span).span = span := by
      unfold Expr.negated
      split <;> rfl
    exact .expr filled place (laid_negated filled row (expr e (by simp)))
  | arguments items =>
    rw [Fragment.allSpans_map items fun _ => rfl] at row
    exact .one (.self filled) ⟨row, fun e listed => expr e (List.mem_map_of_mem listed)⟩
  | call callee place items =>
    obtain ⟨inside, laid⟩ := each (.arguments place items) (by simp)
    refine .expr filled rfl (.usual filled ⟨row, inside⟩ fun c member => ?_)
    rcases List.mem_cons.mp member with rfl | member
    · exact expr callee (by simp)
    · obtain ⟨e, listed, rfl⟩ := List.mem_map.mp member
      exact laid e listed
  | construction callee place items =>
    obtain ⟨inside, laid⟩ := each (.arguments place items) (by simp)
    have refined : span.Row (callee.span :: items.map Expr.span) := row.refine_last inside
    refine .expr filled rfl (laid_other filled ?_ fun part member => ?_)
    · simpa [Function.comp_def, Part.toNode, Node.span] using refined
    · rcases List.mem_cons.mp member with rfl | member
      · exact expr callee (by simp)
      · obtain ⟨e, listed, rfl⟩ := List.mem_map.mp member
        exact laid e listed
  | declarator target init =>
    have behind : span.Row [init.span] := (row_cons.mp row).2.1
    refine .one (.self filled) fun e same => ?_
    cases same
    exact ⟨behind.covers init.span (by simp), expr init (by simp)⟩
  | bareDeclarator =>
    refine .one (.self filled) fun e same => ?_
    cases same
  | declaration kind declarators =>
    have inner : span.Row (Fragment.allSpans (declarators.map .declarator)) := row
    rw [Fragment.allSpans_map declarators fun _ => rfl] at inner
    refine .one (.self filled) (laid_declaration filled inner fun d listed => ?_)
    exact each (.declarator d) (List.mem_cons_of_mem _ (List.mem_map_of_mem listed))
  | classDeclaration t place members =>
    have behind : span.Row [place] := (row_cons.mp row).2.1
    have members := expr (.other place members [] none) (by simp)
    exact .one (.self filled) (.around filled rfl rfl behind members)
  | extending t heritage place members =>
    have behind : span.Row [heritage.span, place] := (row_cons.mp row).2.1
    obtain ⟨inBody, laid⟩ := parts_laid (expr (.other place members [] none) (by simp))
    exact .one (.self filled) (.extending behind inBody (expr heritage (by simp)) laid)
  | imports | exportedNames => exact .one (.self filled) (.leaf filled Row.nil rfl)
  | exportedStmt s => exact .one row (stmt s (by simp))
  | exportedExpr e | expressionStatement e =>
    exact .one (.self filled) (laid_expression filled row (expr e (by simp)))
  | block statements =>
    rw [Fragment.allSpans_map statements fun _ => rfl] at row
    refine .one (.self filled) (laid_block filled row fun s listed => ?_)
    exact stmt s (List.mem_map_of_mem listed)
  | control =>
    exact .one (.self filled)
      (.of_map filled rfl rfl (Fragment.row_parts row) (Fragment.laid_parts each))
  | forDeclaration => exact .one (.self filled) (laid_binding filled row)
  | catchAll place statements => exact .one row (stmt (.block place statements) (by simp))
  | catchClause target place statements =>
    have first : target.span.start < target.span.stop :=
      row.filled target.span (by simp [Fragment.allSpans, Fragment.spans])
    obtain ⟨inside, laid⟩ := block_laid (stmt (.block place statements) (by simp))
    have refined : span.Row (target.span :: statements.map Stmt.span) := row.refine_last inside
    refine .one (.self filled) (laid_block filled refined fun s member => ?_)
    rcases List.mem_cons.mp member with rfl | member
    · exact laid_binding first (.self first)
    · exact laid s member

end Action

namespace Tree

open StyleSplit.Script.Action

variable {tree : Tree} {u v : List Token} {fs gs : List Fragment} {a : Assembled}

/-- Fragments that stand at some tokens; where there are none nothing is left of them. -/
def Stands : Option Span → List Fragment → Prop
  | some span, fs => Placed span fs
  | none, fs => Fragment.allSpans fs = [] ∧ ∀ f ∈ fs, f.Laid

theorem Stands.laid {span : Option Span} (stands : Stands span fs) : ∀ f ∈ fs, f.Laid := by
  cases span with
  | none => exact stands.2
  | some span => exact stands.2

theorem Stands.append (order : Token.InOrder (u ++ v)) (first : Stands (Token.extent? u) fs)
    (last : Stands (Token.extent? v) gs) : Stands (Token.extent? (u ++ v)) (fs ++ gs) := by
  have laid : ∀ f ∈ fs ++ gs, f.Laid := fun f member =>
    (List.mem_append.mp member).elim (first.laid f) (last.laid f)
  have spans : Fragment.allSpans (fs ++ gs) = Fragment.allSpans fs ++ Fragment.allSpans gs :=
    List.flatMap_append
  rw [Token.extent?_append]
  cases front : Token.extent? u with
  | none =>
    rw [front] at first
    rw [first.1, List.nil_append] at spans
    cases back : Token.extent? v with
    | none =>
      rw [back] at last
      exact ⟨spans.trans last.1, laid⟩
    | some t =>
      rw [back] at last
      exact ⟨spans ▸ last.1, laid⟩
  | some s =>
    rw [front] at first
    cases back : Token.extent? v with
    | none =>
      rw [back] at last
      rw [last.1, List.append_nil] at spans
      exact ⟨spans ▸ first.1, laid⟩
    | some t =>
      rw [back] at last
      have filled := (order.sub (List.prefix_append u v).isInfix).extent front
      have filled' := (order.sub (List.suffix_append u v).isInfix).extent back
      have apart : s.stop ≤ t.start := by
        obtain ⟨_, b, -, ends, rfl⟩ := Token.extent?_eq_some.mp front
        obtain ⟨a, _, begins, -, rfl⟩ := Token.extent?_eq_some.mp back
        exact before_of_append order b (List.mem_of_getLast? ends) a (List.mem_of_head? begins)
      refine ⟨?_, laid⟩
      have left : Span.Covers ⟨s.start, t.stop⟩ s :=
        ⟨Nat.le_refl _, Nat.le_trans apart (Nat.le_of_lt filled')⟩
      have right : Span.Covers ⟨s.start, t.stop⟩ t :=
        ⟨Nat.le_trans (Nat.le_of_lt filled) apart, Nat.le_refl _⟩
      rw [spans]
      refine Span.row_append.mpr ⟨first.1.mono left, last.1.mono right, fun x left y right => ?_⟩
      · exact Nat.le_trans (first.1.covers x left).2
          (Nat.le_trans apart (last.1.covers y right).1)

theorem stands_words {children : List Tree} {parts : List Assembled}
    (order : Token.InOrder (words children))
    (each : List.Forall₂ (fun t a => Stands (Token.extent? t.word) a.fragments) children parts) :
    Stands (Token.extent? (words children)) (parts.flatMap (·.fragments)) := by
  induction each with
  | nil => exact ⟨rfl, by simp⟩
  | @cons t a rest others head _ ih =>
    exact head.append order (ih (order.sub (List.suffix_append t.word _).isInfix))

/-- What a derivation contributes stands at its tokens in a row. -/
theorem assemble_stands (valid : tree.valid grammar = true) (order : Token.InOrder tree.word)
    (made : tree.assemble = .ok a) : Stands (Token.extent? tree.word) a.fragments := by
  induction tree using Tree.induct generalizing a with
  | leaf t =>
    cases made
    exact .one (.self (order.some t (by simp [word]))) trivial
  | node p children ih =>
    obtain ⟨parts, out, parted, applied, rfl⟩ := assemble_node.mp made
    obtain ⟨member, body, each⟩ := valid_node.mp valid
    have parted' := forall₂_of_mem (fun c child part inner =>
      ih c child (each c child) (order.sub (word_infix_words child)) inner) parted
    have whole := stands_words order parted'
    have extent : Assembled.extent parts = Token.extent? (words children) := assemble_span made
    have sub : (Fragment.allSpans (given p.action parts)).Sublist
        (Fragment.allSpans (parts.flatMap (·.fragments))) := Fragment.allSpans_filter _
    have laid : ∀ f ∈ given p.action parts, f.Laid :=
      fun f member => whole.laid f (List.mem_of_mem_filter member)
    change Stands (Token.extent? (words children)) out
    rw [extent] at applied
    cases place : Token.extent? (words children) with
    | some span =>
      rw [place] at applied whole
      have applies := given_applies valid parted applied
      exact applies.placed (order.extent place) ⟨whole.1.sublist sub, laid⟩
    | none =>
      rw [place] at whole
      have empty : (node p children).word = [] := by
        by_contra some
        have front := List.head?_eq_some_head some
        have back := List.getLast?_eq_some_getLast some
        have found := Token.extent?_eq_some.mpr ⟨_, _, front, back, rfl⟩
        exact absurd (place.symm.trans found) (by simp)
      have mayBe : (Symbol.nonterminal p.head).mayBeEmpty = true := by
        by_contra filled
        exact word_ne_nil valid (Bool.eq_false_iff.mpr filled) empty
      have has := productions_haveTokens p.head p member
      simp only [Production.hasTokens, mayBe, if_true, Bool.or_eq_true, beq_iff_eq] at has
      rcases has with splice | parameters
      · rw [splice] at applied sub laid
        obtain rfl : given .splice parts = out := Except.ok.inj applied
        exact ⟨List.sublist_nil.mp (whole.1 ▸ sub), laid⟩
      · rw [parameters] at applied
        cases applied
        exact ⟨rfl, by simp [Fragment.Laid]⟩

end Tree

/-- The statements of a script stand in its text one after the other, each laid out as it
should be. -/
theorem parse_laid {source : Text} {s : StyleSplit.Script} (parsed : parse source = .ok s) :
    Span.Row ⟨0, source.length⟩ (s.body.map Stmt.span) ∧
      ∀ statement ∈ s.body, Node.Laid (.stmt statement) := by
  obtain ⟨tree, derived, -⟩ := bind_eq_ok.mp parsed
  obtain ⟨a, assembled, rfl⟩ := parse_assembled parsed derived
  obtain ⟨valid, -, scanned⟩ := derive_ok derived
  have scans := Token.ofText_sound scanned
  have stands := Tree.assemble_stands valid scans.inOrder assembled
  refine ⟨?_, Fragment.laid_stmts stands.laid⟩
  cases extent : Token.extent? tree.word with
  | none =>
    rw [extent] at stands
    refine Fragment.row_stmts ?_
    rw [stands.1]
    exact .nil
  | some span =>
    rw [extent] at stands
    obtain ⟨first, last, -, ends, rfl⟩ := Token.extent?_eq_some.mp extent
    have bound := (scans.within (List.mem_of_getLast? ends)).2
    have covers : Span.Covers ⟨0, source.length⟩ ⟨first.span.start, last.span.stop⟩ :=
      ⟨Nat.zero_le _, by simpa using bound⟩
    exact (Fragment.row_stmts stands.1).mono covers

end Script

end StyleSplit
