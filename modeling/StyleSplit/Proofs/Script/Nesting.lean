import StyleSplit.Proofs.Precompile.Safety
import StyleSplit.Proofs.Scope.Standing
import StyleSplit.Proofs.Script.Lookahead

/-! How the spans of a script are nested. Every node that a walk comes by stands at some of
the text, what it holds stands inside it in the order of the text, and its text begins and
ends as its kind says: an identifier is its name, an object literal stands in braces, and
arguments stand in parentheses. Only what a class extends is put into the body of the class
while it stands before that body. No two identifiers stand at the same place. -/
namespace StyleSplit

open Script

namespace Span

variable {front x behind : Text} {s : Span}

/-- A span that starts where a part of a text does begins with that part. -/
theorem of_starts (start : s.start = front.length) (bound : front.length + x.length ≤ s.stop) :
    x <+: s.of (front ++ (x ++ behind)) := by
  obtain ⟨more, stop⟩ := Nat.exists_eq_add_of_le bound
  refine ⟨behind.take more, ?_⟩
  rw [Span.of, Text.slice, start, stop, Nat.add_assoc, List.take_length_add_append,
    List.take_length_add_append, List.drop_left]

/-- A span that stops where a part of a text does ends with that part. -/
theorem of_ends (bound : s.start ≤ front.length) (stop : s.stop = front.length + x.length) :
    x <:+ s.of (front ++ (x ++ behind)) := by
  refine ⟨front.drop s.start, ?_⟩
  rw [Span.of, Text.slice, stop, List.take_length_add_append, List.take_left,
    List.drop_append_of_le_length bound]

end Span

namespace Script

namespace Token

variable {offset : Nat} {t rest : Text} {tokens : List Token} {a : Token}

/-- Each token stands in the text where its span says. -/
theorem Scans.placed (scans : Scans offset t tokens rest) (member : a ∈ tokens) :
    ∃ front behind, t = front ++ (a.text ++ behind) ∧ a.span.start = offset + front.length ∧
      a.span.stop = offset + (front.length + a.text.length) := by
  induction scans with
  | done => cases member
  | @gap offset gap behind rest tokens _ _ ih =>
    obtain ⟨front, behind, rfl, start, stop⟩ := ih member
    refine ⟨gap ++ front, behind, (List.append_assoc _ _ _).symm, ?_, ?_⟩
    · rw [start, List.length_append, Nat.add_assoc]
    · rw [stop, List.length_append, Nat.add_assoc, Nat.add_assoc]
  | @token offset terminal lexeme behind rest tokens _ _ _ ih =>
    rcases List.mem_cons.mp member with rfl | member
    · exact ⟨[], behind, rfl, rfl, by simp⟩
    · obtain ⟨front, behind, rfl, start, stop⟩ := ih member
      refine ⟨lexeme ++ front, behind, (List.append_assoc _ _ _).symm, ?_, ?_⟩
      · rw [start, List.length_append, Nat.add_assoc]
      · rw [stop, List.length_append, Nat.add_assoc, Nat.add_assoc]

/-- The text of a punctuator is its spelling. -/
theorem Scans.spelled (scans : Scans offset t tokens rest) (member : a ∈ tokens)
    {mark : Punctuator} (spelled : a.terminal = .punctuator mark) : a.text = mark.spelling := by
  obtain ⟨behind, read⟩ := scans.read member
  have stands := readTerminal_iff.mp read
  rw [spelled] at stands
  generalize a.text = lexeme at stands
  cases stands
  rfl

end Token

/-- Whether the object literals and the arguments that a production makes have their marks
around them. -/
def Production.bracketed (p : Production) : Bool :=
  let within (first last : Punctuator) := p.body.head? == some (.terminal (.punctuator first)) &&
    p.body.getLast? == some (.terminal (.punctuator last))
  match p.action with
  | .mapping => within .openBrace .closeBrace
  | .arguments => within .openParen .closeParen
  | _ => true

theorem productions_bracketed : ∀ n, ∀ p ∈ grammar.productions n, p.bracketed = true :=
  productions_all (by decide)

/-- What stands between two marks starts with the one and ends with the other. -/
theorem Tree.node_between {p : Production} {children : List Tree} {first last : Terminal}
    (valid : (node p children).valid grammar = true)
    (head : p.body.head? = some (.terminal first))
    (tail : p.body.getLast? = some (.terminal last)) :
    ∃ a b, (node p children).word.head? = some a ∧ (node p children).word.getLast? = some b ∧
      a.terminal = first ∧ b.terminal = last := by
  obtain ⟨-, body, -⟩ := valid_node.mp valid
  rw [← body, List.head?_map, Option.map_eq_some_iff] at head
  rw [← body, List.getLast?_map, Option.map_eq_some_iff] at tail
  obtain ⟨c, begins, symbol⟩ := head
  obtain ⟨d, ends, symbol'⟩ := tail
  obtain ⟨a, rfl, opens⟩ := leaf_of_symbol symbol
  obtain ⟨b, rfl, closes⟩ := leaf_of_symbol symbol'
  refine ⟨a, b, ?_, ?_, opens, closes⟩
  · obtain ⟨more, rfl⟩ := List.head?_eq_some_iff.mp begins
    rfl
  · obtain ⟨front, rfl⟩ := List.getLast?_eq_some_iff.mp ends
    simp [word, words]

variable {s : StyleSplit.Script} {tree : Tree} {span : Span}

namespace Derived

/-- A part of a script that a production puts between two marks has them around its text. -/
theorem between (derived : Derived s tree) {p : Production} {children : List Tree}
    (within : (Tree.node p children).Within tree)
    (extent : Token.extent? (Tree.node p children).word = some span) {first last : Punctuator}
    (head : p.body.head? = some (.terminal (.punctuator first)))
    (tail : p.body.getLast? = some (.terminal (.punctuator last))) :
    first.spelling <+: s.textAt span ∧ last.spelling <:+ s.textAt span := by
  obtain ⟨a, b, begins, ends, opens, closes⟩ :=
    Tree.node_between (within.valid derived.valid) head tail
  have order := derived.inOrder.sub within.leaves
  have opening := within.leaves.subset (List.mem_of_head? begins)
  have closing := within.leaves.subset (List.mem_of_getLast? ends)
  obtain ⟨a', b', begins', ends', rfl⟩ := Token.extent?_eq_some.mp extent
  obtain rfl := Option.some.inj (begins.symm.trans begins')
  obtain rfl := Option.some.inj (ends.symm.trans ends')
  have reach := order.last ends (List.mem_of_head? begins)
  have reach' := order.first begins (List.mem_of_getLast? ends)
  constructor
  · obtain ⟨front, behind, source, start, stop⟩ := derived.scans.placed opening
    rw [← derived.scans.spelled opening opens, textAt, source]
    exact Span.of_starts (by simpa using start) (by simp only; omega)
  · obtain ⟨front, behind, source, start, stop⟩ := derived.scans.placed closing
    rw [← derived.scans.spelled closing closes, textAt, source]
    exact Span.of_ends (by simp only; omega) (by simpa using stop)

theorem mapping_between (derived : Derived s tree) {entries : List Entry}
    (makes : tree.Makes (.mapping span entries)) :
    text "\x7b" <+: s.textAt span ∧ text "\x7d" <:+ s.textAt span := by
  obtain ⟨p, children, within, extent, -, action, -⟩ := derived.makes makes
  have known := (Tree.valid_node.mp (within.valid derived.valid)).1
  have bracketed := productions_bracketed p.head p known
  simp only [Production.bracketed, action ⟨_, _, rfl⟩, Bool.and_eq_true, beq_iff_eq] at bracketed
  exact derived.between within extent bracketed.1 bracketed.2

theorem arguments_between (derived : Derived s tree) {callee : Expr} {items : List Expr}
    {place : Span} {name : Option Text} (makes : tree.Makes (.call span callee items place name)) :
    text "(" <+: s.textAt place ∧ text ")" <:+ s.textAt place := by
  obtain ⟨args, extent, below, head, inner⟩ := derived.arguments_derived makes
  have valid := below.valid derived.valid
  have place := Tree.arguments_span valid head inner
  cases args with
  | leaf t => cases head
  | node q inside =>
    have known := (Tree.valid_node.mp valid).1
    have bracketed := productions_bracketed q.head q known
    simp only [Production.bracketed, Tree.arguments_action valid head, Bool.and_eq_true, beq_iff_eq] at bracketed
    exact derived.between below place bracketed.1 bracketed.2

/-- The text of a token is what stands at its span. -/
theorem token_text (derived : Derived s tree) {t : Token} (member : t ∈ tree.word) :
    s.textAt t.span = t.text := by
  obtain ⟨front, behind, source, start, stop⟩ := derived.scans.placed member
  rw [Nat.zero_add] at start stop
  have starts : t.text <+: t.span.of (front ++ (t.text ++ behind)) :=
    Span.of_starts start (by omega)
  rw [← source] at starts
  refine (starts.eq_of_length ?_).symm
  have bound := derived.scans.within member
  rw [Span.of, Text.slice, List.length_drop, List.length_take]
  simp only [List.length_nil] at bound
  omega

end Derived

/-- An identifier is a token of the derivation. -/
def Node.Spelled (whole : Tree) : Node → Prop
  | .expr (.identifier span name) => ∃ t ∈ whole.word, t.span = span ∧ t.text = name
  | _ => True

theorem inherent_spelled : Node.Inherent (Node.Spelled tree) where
  plain n plain := by
    cases n with
    | expr e => cases e <;> trivial
    | entry e => trivial
    | stmt s => cases s <;> trivial
  declaration _ _ _ _ := trivial
  function _ _ _ _ _ _ _ _ := trivial

theorem roots_spelled : tree.Roots (Node.Spelled tree) where
  token t member := ⟨t, member, rfl, rfl⟩
  mapping _ _ _ := trivial
  call _ _ _ _ _ _ := trivial

/-- A script has a derivation that its identifiers are tokens of. -/
theorem parse_spelled {source : Text} (parsed : parse source = .ok s) :
    ∃ tree, Derived s tree ∧ ∀ n ∈ s.walk, n.Grounded tree ∧ n.Spelled tree := by
  obtain ⟨-, tree, valid, symbol, scans, every⟩ := parse_every parsed
  have grounded := every _ Tree.inherent_grounded Tree.roots_grounded
  have spelled := every _ inherent_spelled roots_spelled
  refine ⟨tree, ⟨valid, symbol, scans, grounded⟩, fun n walked => ?_⟩
  obtain ⟨statement, listed, held⟩ := mem_walk walked
  exact ⟨grounded statement listed n held, spelled statement listed n held⟩

theorem walk_statement {statement : Stmt} (listed : statement ∈ s.body) :
    .stmt statement ∈ s.walk := by
  obtain ⟨p, member, node, -⟩ := stands_statement listed
  rw [← places_walk, ← node]
  exact List.mem_map_of_mem member

theorem walk_child {n c : Node} (walked : n ∈ s.walk) (child : c ∈ n.children) : c ∈ s.walk := by
  rw [← places_walk] at walked ⊢
  obtain ⟨p, member, rfl⟩ := List.mem_map.mp walked
  obtain ⟨q, member, node, -⟩ := stands_child member child
  exact node ▸ List.mem_map_of_mem member

/-- What holds of the statements of a script, and of whatever is directly inside a node of
which it holds, holds of all nodes that a walk comes by. -/
theorem walk_induct {motive : Node → Prop} (body : ∀ statement ∈ s.body, motive (.stmt statement))
    (inside : ∀ n ∈ s.walk, motive n → ∀ c ∈ n.children, motive c) :
    ∀ n ∈ s.walk, motive n := by
  intro n walked
  obtain ⟨statement, listed, held⟩ := mem_walk walked
  have top := walk_statement listed
  have good := body statement listed
  generalize Node.stmt statement = outer at held top good
  clear walked
  induction held with
  | self => exact good
  | inside child _ ih => exact ih (walk_child top child) (inside _ top good _ child)

/-- In the body of a class the expression that the class extends comes first. It stands in
the class, before the body. -/
def Extends (s : StyleSplit.Script) (body heritage : Node) : Prop :=
  ∃ span name place e members,
    .stmt (.class_ span name (.other place (.expr e :: members) [] none)) ∈ s.walk ∧
      body = .expr (.other place (.expr e :: members) [] none) ∧ heritage = .expr e ∧
      span.Covers e.span ∧ e.span.stop ≤ place.start

/-- How a node of a script stands in the text and around what it holds. -/
structure Node.Nested (s : StyleSplit.Script) (n : Node) : Prop where
  inside : n.span.Inside s.source.length
  children : ∀ c ∈ n.children, n.span.Covers c.span ∨ s.Extends n c
  ordered : (n.children.map Node.span).Pairwise fun a b => a.stop ≤ b.start
  identifier : ∀ span name, n = .expr (.identifier span name) → s.textAt span = name
  mapping : ∀ span entries, n = .expr (.mapping span entries) →
    text "\x7b" <+: s.textAt span ∧ text "\x7d" <:+ s.textAt span
  call : ∀ span callee items place name, n = .expr (.call span callee items place name) →
    span.Covers place ∧ callee.span.stop ≤ place.start ∧
      text "(" <+: s.textAt place ∧ text ")" <:+ s.textAt place ∧
      ∀ e ∈ items, place.Covers e.span
  declarators : ∀ span kind declarators, n = .stmt (.declaration span kind declarators) →
    ∀ d ∈ declarators, ∀ e, d.init = some e → d.span.Covers e.span

/-- A node is laid out as it should be, or it is the body of a class that is. -/
def Node.Settled (s : StyleSplit.Script) (n : Node) : Prop :=
  n.Laid ∨ ∃ span name body, .stmt (.class_ span name body) ∈ s.walk ∧
    Node.Laid (.stmt (.class_ span name body)) ∧ n = .expr body

namespace Node

variable {n c : Node}

/-- What is settled is laid out, but for the body of a class that extends something. -/
theorem Settled.cases (settled : n.Settled s) : n.Laid ∨
    ∃ span name place e members,
      .stmt (.class_ span name (.other place (.expr e :: members) [] none)) ∈ s.walk ∧
        n = .expr (.other place (.expr e :: members) [] none) ∧ span.Row [e.span, place] ∧
        place.Row (members.map fun m => m.toNode.span) ∧ (.expr e : Node).Laid ∧
        ∀ m ∈ members, m.toNode.Laid := by
  rcases settled with laid | ⟨span, name, body, walked, laid, rfl⟩
  · exact .inl laid
  cases laid with
  | usual _ _ each => exact .inl (each _ (List.mem_singleton.mpr rfl))
  | extending row inBody good each =>
    exact .inr ⟨span, name, _, _, _, walked, rfl, row, inBody, good, each⟩

theorem Settled.laid (settled : n.Settled s) (other : ∀ place e members,
    n ≠ .expr (.other place (.expr e :: members) [] none)) : n.Laid := by
  obtain laid | ⟨_, _, place, e, members, -, same, -⟩ := settled.cases
  · exact laid
  · exact absurd same (other place e members)

theorem Settled.child (settled : n.Settled s) (walked : n ∈ s.walk) (child : c ∈ n.children) :
    c.Settled s := by
  obtain laid | ⟨_, _, place, e, members, -, rfl, -, -, good, each⟩ := settled.cases
  · cases laid with
    | usual _ _ each => exact .inl (each c child)
    | extending row inBody good each =>
      exact .inr ⟨_, _, _, walked, .extending row inBody good each, List.mem_singleton.mp child⟩
  · rcases List.mem_cons.mp child with rfl | child
    · exact .inl good
    · obtain ⟨m, listed, rfl⟩ := List.mem_map.mp child
      exact .inl (each m listed)

/-- The nodes directly inside a settled node stand one after the other, inside it unless a
class extends one of them. -/
theorem Settled.row (settled : n.Settled s) :
    (∀ c ∈ n.children, n.span.Covers c.span ∨ s.Extends n c) ∧
      (n.children.map Node.span).Pairwise fun a b => a.stop ≤ b.start := by
  obtain laid | ⟨span, name, place, e, members, walked, rfl, row, inBody, good, each⟩ :=
    settled.cases
  · cases laid with
    | usual _ row each =>
      have row := row.children each
      exact ⟨fun c child => .inl (row.covers _ (List.mem_map_of_mem child)), row.apart⟩
    | @extending span body _ _ _ row _ _ _ =>
      refine ⟨fun c child => ?_, List.pairwise_singleton _ _⟩
      rw [List.mem_singleton.mp child]
      exact .inl (row.covers body (by simp))
  · have spans : (Node.expr (.other place (.expr e :: members) [] none)).children.map Node.span =
        e.span :: members.map fun m => m.toNode.span := by
      simp [Node.children, ofExpr, Function.comp_def, Part.toNode, Node.span]
    have refined := row.refine_last inBody
    refine ⟨fun c child => ?_, spans ▸ refined.apart⟩
    rcases List.mem_cons.mp child with rfl | child
    · have before := (Span.row_cons.mp row).2.2 place (by simp)
      exact .inr ⟨span, name, place, e, members, walked, rfl, rfl, row.covers _ (by simp), before⟩
    · obtain ⟨m, listed, rfl⟩ := List.mem_map.mp child
      exact .inl (inBody.covers _ (List.mem_map_of_mem (f := fun m => m.toNode.span) listed))

theorem Settled.declarators {kind : VariableKind} {declarators : List Declarator}
    (settled : (Node.stmt (.declaration span kind declarators)).Settled s) :
    ∀ d ∈ declarators, ∀ e, d.init = some e → d.span.Covers e.span := by
  cases settled.laid (by simp) with
  | usual _ row _ => exact row.2

theorem Settled.call {callee : Expr} {items : List Expr} {place : Span} {name : Option Text}
    (settled : (Node.expr (.call span callee items place name)).Settled s) :
    span.Covers place ∧ callee.span.stop ≤ place.start ∧ ∀ e ∈ items, place.Covers e.span := by
  cases settled.laid (by simp) with
  | usual _ row _ =>
    obtain ⟨outer, inner⟩ := row
    have before := (Span.row_cons.mp outer).2.2 place (by simp)
    exact ⟨outer.covers place (by simp), before, fun e listed =>
      inner.covers _ (List.mem_map_of_mem listed)⟩

end Node

/-- The place of an identifier. -/
def Node.identifierSpan? : Node → Option Span
  | .expr (.identifier span _) => some span
  | _ => none

/-- No two identifiers that a walk comes by stand at the same place. -/
theorem walk_identifiers {source : Text} (parsed : parse source = .ok s) :
    (s.walk.filterMap Node.identifierSpan?).Nodup := by
  have row := (row_places parsed).nodup
  have same : (s.places.filterMap Place.use?).map Prod.fst =
      s.walk.filterMap Node.identifierSpan? := by
    rw [← places_walk, List.filterMap_map, List.map_filterMap]
    refine List.filterMap_congr fun p _ => ?_
    obtain ⟨n, outer, inner⟩ := p
    cases n with
    | expr e => cases e <;> rfl
    | entry | stmt => rfl
  exact same ▸ row

theorem walk_settled {source : Text} (parsed : parse source = .ok s) :
    ∀ n ∈ s.walk, n.Settled s := by
  obtain ⟨-, laid⟩ := parse_laid parsed
  exact walk_induct (fun statement listed => .inl (laid statement listed))
    fun n walked settled c child => settled.child walked child

/-- What a walk comes by stands at some of the text. -/
theorem walk_inside {source : Text} (parsed : parse source = .ok s) {n : Node}
    (walked : n ∈ s.walk) : n.span.Inside source.length := by
  obtain ⟨row, laid⟩ := parse_laid parsed
  obtain ⟨statement, listed, held⟩ := mem_walk walked
  obtain ⟨covers, filled⟩ := (laid statement listed).holds held
  exact ⟨filled, Nat.le_trans covers.2 (row.covers _ (List.mem_map_of_mem listed)).2⟩

end Script

/-- The spans of a script are nested, whatever its text is: every node that a walk comes by
stands in the text and around what it holds, and identifiers stand apart. -/
theorem parse_nested {source : Text} {s : Script} (parsed : Script.parse source = .ok s) :
    s.source = source ∧ (∀ n ∈ s.walk, n.Nested s) ∧
      (s.walk.filterMap Node.identifierSpan?).Nodup := by
  obtain ⟨same, -⟩ := parse_derived parsed
  obtain ⟨tree, derived, known⟩ := parse_spelled parsed
  refine ⟨same, fun n walked => ?_, walk_identifiers parsed⟩
  obtain ⟨grounded, spelled⟩ := known n walked
  have settled := walk_settled parsed n walked
  obtain ⟨children, ordered⟩ := settled.row
  refine ⟨same ▸ walk_inside parsed walked, children, ordered, ?_, ?_, ?_, ?_⟩
  · rintro span name rfl
    obtain ⟨t, member, rfl, rfl⟩ := spelled
    exact derived.token_text member
  · rintro span entries rfl
    exact derived.mapping_between grounded
  · rintro span callee items place name rfl
    obtain ⟨covers, before, within⟩ := settled.call
    obtain ⟨opens, closes⟩ := derived.arguments_between grounded
    exact ⟨covers, before, opens, closes, within⟩
  · rintro span kind declarators rfl
    exact settled.declarators

/-- The script `class A extends B{}let y=f({a})`. -/
def extendingSource : Text := text "class A extends B\x7b\x7dlet y=f(\x7ba\x7d)"

theorem parse_nested_extending : ∃ s, Script.parse extendingSource = .ok s ∧
    s.walk.length = 9 ∧
    s.walk.filterMap Node.identifierSpan? = [⟨16, 17⟩, ⟨25, 26⟩, ⟨28, 29⟩] ∧
    s.source = extendingSource ∧ (∀ n ∈ s.walk, n.Nested s) ∧
      (s.walk.filterMap Node.identifierSpan?).Nodup := by
  have checked : (Script.parse extendingSource).toOption.any (fun s =>
      s.walk.length == 9 &&
        s.walk.filterMap Node.identifierSpan? == [⟨16, 17⟩, ⟨25, 26⟩, ⟨28, 29⟩]) = true := by
    decide +kernel
  obtain ⟨s, parsed, run⟩ := Script.exists_of_any checked
  obtain ⟨size, identifiers⟩ := Bool.and_eq_true_iff.mp run
  exact ⟨s, parsed, eq_of_beq size, eq_of_beq identifiers, parse_nested parsed⟩

end StyleSplit
