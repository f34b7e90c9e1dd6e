import StyleSplit.Proofs.Precompile.Placement
import StyleSplit.Proofs.Script.Adjacency
import StyleSplit.Proofs.Script.Listing

/-! The parts of a script that are copied: arguments, entries and their keys. Each stands
at all tokens of a part of the derivation, so it gives the same tokens wherever it is put,
and their brackets match. -/
namespace StyleSplit

open Script

namespace Script

namespace Action

variable {action : Action} {span : Span} {fs out : List Fragment} {e : Entry}

/-- An entry stands at all tokens of what makes it, and its plain key is an expression that
it is made of, or the name that comes first. -/
def MakesEntry (action : Action) (span : Span) (fs : List Fragment) (e : Entry) : Prop :=
  e.span = span ∧ ∀ key, e.key = some key → e.computed = false →
    .expr key ∈ fs ∨ action = .shorthandEntry ∧
      ∃ t, fs.head? = some (.token t) ∧ key.span = t.span

theorem Applies.makesEntry (applied : Applies span action fs out) (member : .entry e ∈ out)
    (splice : action ≠ .splice) : MakesEntry action span fs e := by
  cases applied with
  | splice => contradiction
  | shorthandEntry t =>
    cases List.mem_singleton.mp member
    refine ⟨rfl, fun key same _ => .inr ⟨rfl, t, rfl, ?_⟩⟩
    rw [← Option.some.inj same]
    rfl
  | spreadEntry =>
    cases List.mem_singleton.mp member
    exact ⟨rfl, fun _ same _ => by cases same⟩
  | computedEntry =>
    cases List.mem_singleton.mp member
    exact ⟨rfl, fun _ _ plain => by cases plain⟩
  | keyedEntry | method =>
    cases List.mem_singleton.mp member
    refine ⟨rfl, fun key same _ => .inl ?_⟩
    rw [← Option.some.inj same]
    simp
  | _ => simp at member

end Action

/-- Whether a production for a name that is both key and value starts with that name. -/
def Production.startsWithName (p : Production) : Bool :=
  p.action != .shorthandEntry || p.body.head? == some (.terminal .name)

theorem productions_startWithName :
    ∀ n, ∀ p ∈ grammar.productions n, p.startsWithName = true :=
  productions_all (by decide)

namespace Tree

variable {whole tree : Tree} {span : Span} {u : List (Terminal × Text)} {a : Assembled}

/-- At a span stand all tokens of some part of a derivation, with brackets that match. -/
def Spans (whole : Tree) (span : Span) (u : List (Terminal × Text)) : Prop :=
  ∃ part, Within part whole ∧ part.bare = u ∧ Token.extent? part.word = some span ∧
    Balanced (u.map Prod.fst)

theorem spans_node (valid : whole.valid grammar = true) {p : Production} {children : List Tree}
    (within : Within (node p children) whole)
    (extent : Token.extent? (node p children).word = some span) :
    whole.Spans span (node p children).bare := by
  refine ⟨_, within, rfl, extent, ?_⟩
  rw [bare_terminals]
  exact (Grammar.Derives.of_tree (within.valid valid)).balanced

theorem spans_name {t : Token} (within : Within (leaf t) whole) (name : t.terminal = .name) :
    whole.Spans t.span [t.bare] := by
  refine ⟨_, within, rfl, rfl, Single.balanced ?_⟩
  change nesting 0 [t.terminal] = some 0
  rw [name]
  rfl

/-- An expression that a part of a derivation contributes stands at all tokens of what made
it. An identifier is one token. -/
theorem spans_expr {e : Expr} (valid : whole.valid grammar = true) (within : Within tree whole)
    (made : tree.assemble = .ok a) (member : .expr e ∈ a.fragments) :
    ∃ u, whole.Spans e.span u ∧
      (Call.isInline e = false → u.map Prod.fst = [.name]) := by
  induction tree using Tree.induct generalizing a with
  | leaf t =>
    cases made
    simp at member
  | node p children ih =>
    by_cases hands : p.action = .splice ∨ p.action = .field
    · obtain ⟨parts, parted, applied⟩ := assemble_applies (within.valid valid) made
      obtain ⟨part, listed, found⟩ := mem_given (applied.handed member hands)
      obtain ⟨c, child, inner⟩ := mem_of_forall₂ parted listed
      exact ih c child (within.descend child) inner found
    obtain ⟨splice, field⟩ := not_or.mp hands
    obtain ⟨extent, fs, fresh⟩ := expr_made (within.valid valid) made member splice field
    have place := (assemble_span made).symm.trans extent
    refine ⟨_, spans_node valid within place, fun reference => ?_⟩
    cases e with
    | identifier =>
      obtain ⟨t, rfl, terminal⟩ := identifier_leaf (within.valid valid) fresh.1
      simp [bare_node, bare_leaf, Token.bare, terminal]
    | literal | list | mapping | function | call | other => cases reference

/-- The name that is both key and value is a token of its own. -/
theorem shorthand_leaf {p : Production} {children : List Tree} {parts : List Assembled} {t : Token}
    (valid : (node p children).valid grammar = true) (action : p.action = .shorthandEntry)
    (parted : List.Forall₂ (fun t a => t.assemble = .ok a) children parts)
    (first : (given p.action parts).head? = some (.token t)) :
    leaf t ∈ children ∧ t.terminal = .name := by
  obtain ⟨known, body, -⟩ := valid_node.mp valid
  have starts := productions_startWithName p.head p known
  simp only [Production.startsWithName, action, bne_self_eq_false, Bool.false_or, beq_iff_eq,
    ← body, List.head?_map, Option.map_eq_some_iff] at starts
  obtain ⟨c, head, symbol⟩ := starts
  obtain ⟨rest, rfl⟩ := List.head?_eq_some_iff.mp head
  obtain ⟨name, rfl, terminal⟩ := leaf_of_symbol symbol
  cases parted with
  | cons read _ =>
    cases read
    rw [given_cons, action] at first
    obtain rfl : name = t := by
      simpa [Assembled.counts, terminal, Terminal.isOpen] using first
    exact ⟨List.mem_cons_self, terminal⟩

/-- What makes an entry makes it of what it is given, and all its tokens stand there. -/
theorem entry_made {p : Production} {children : List Tree} {parts : List Assembled}
    {out : List Fragment} {e : Entry} (valid : (node p children).valid grammar = true)
    (made : (node p children).assemble = .ok ⟨Assembled.extent parts, out⟩)
    (parted : List.Forall₂ (fun t a => t.assemble = .ok a) children parts)
    (applied : p.action.apply ((Assembled.extent parts).getD ⟨0, 0⟩) (given p.action parts) = .ok out)
    (member : .entry e ∈ out) (splice : p.action ≠ .splice) :
    Token.extent? (node p children).word = some e.span ∧
      Action.MakesEntry p.action e.span (given p.action parts) e := by
  obtain ⟨span, extent⟩ := extent_of_fresh valid made member (by simp [Fragment.kind]) splice
  have makes := (given_applies valid parted applied).makesEntry member splice
  have extent : Assembled.extent parts = some span := extent
  rw [extent, Option.getD_some] at makes
  obtain rfl := makes.1
  exact ⟨(assemble_span made).symm.trans extent, makes⟩

/-- An entry stands at all tokens of what made it, and so does its plain key. -/
theorem spans_entry {e : Entry} (valid : whole.valid grammar = true) (within : Within tree whole)
    (made : tree.assemble = .ok a) (member : .entry e ∈ a.fragments) :
    (∃ u, whole.Spans e.span u) ∧
      ∀ key, e.key = some key → e.computed = false → ∃ u, whole.Spans key.span u := by
  induction tree using Tree.induct generalizing a with
  | leaf t =>
    cases made
    simp at member
  | node p children ih =>
    obtain ⟨parts, out, parted, applied, rfl⟩ := assemble_node.mp made
    by_cases splice : p.action = .splice
    · rw [splice] at applied
      obtain rfl : given .splice parts = out := Except.ok.inj applied
      obtain ⟨part, listed, found⟩ := mem_given member
      obtain ⟨c, child, inner⟩ := mem_of_forall₂ parted listed
      exact ih c child (within.descend child) inner found
    obtain ⟨place, -, keyed⟩ := entry_made (within.valid valid) made parted applied member splice
    refine ⟨⟨_, spans_node valid within place⟩, fun key same plain => ?_⟩
    rcases keyed key same plain with given | ⟨action, t, first, same⟩
    · obtain ⟨part, listed, found⟩ := mem_given given
      obtain ⟨c, child, inner⟩ := mem_of_forall₂ parted listed
      obtain ⟨u, spans, -⟩ := spans_expr valid (within.descend child) inner found
      exact ⟨u, spans⟩
    · obtain ⟨child, terminal⟩ := shorthand_leaf (within.valid valid) action parted first
      exact ⟨_, same ▸ spans_name (within.descend child) terminal⟩

/-- What the items of arguments are made of stands in the arguments. -/
theorem spans_item {e : Expr} {items : List Expr} {extent : Option Span}
    (valid : whole.valid grammar = true) (within : Within tree whole)
    (head : tree.symbol = .nonterminal .arguments)
    (made : tree.assemble = .ok ⟨extent, [.arguments span items]⟩) (member : e ∈ items) :
    ∃ u, whole.Spans e.span u ∧ (Call.isInline e = false → u.map Prod.fst = [.name]) := by
  cases tree with
  | leaf t => cases head
  | node p children =>
    obtain ⟨parts, out, parted, applied, same⟩ := assemble_node.mp made
    obtain ⟨rfl, rfl⟩ := Assembled.mk.inj same
    rw [arguments_action (within.valid valid) head] at applied
    obtain ⟨-, rfl⟩ := Fragment.arguments.inj (List.singleton_inj.mp (Except.ok.inj applied))
    obtain ⟨f, given, same⟩ := List.mem_filterMap.mp member
    cases f <;> cases same
    obtain ⟨part, listed, found⟩ := mem_given given
    obtain ⟨c, child, inner⟩ := mem_of_forall₂ parted listed
    exact spans_expr valid (within.descend child) inner found

end Tree

/-- The text at a span gives some tokens wherever it is put, and their brackets match. -/
structure Slice (s : Script) (span : Span) (u : List (Terminal × Text)) : Prop where
  piece : Token.Piece (s.textAt span) u
  filled : u ≠ []
  balanced : Balanced (u.map Prod.fst)

namespace Derived

variable {s : Script} {tree : Tree} {span : Span} {u : List (Terminal × Text)}

theorem slice (derived : Derived s tree) (spans : tree.Spans span u) : s.Slice span u := by
  obtain ⟨part, within, rfl, extent, balanced⟩ := spans
  refine ⟨derived.scans.piece (Tree.separate derived.valid derived.scans) within.leaves extent, ?_,
    balanced⟩
  obtain ⟨first, _, front, -⟩ := Token.extent?_eq_some.mp extent
  obtain ⟨rest, same⟩ := List.head?_eq_some_iff.mp front
  simp [Tree.bare, same]

theorem slice_entry (derived : Derived s tree) {entries : List Entry}
    (makes : tree.Makes (.mapping span entries)) {e : Entry} (member : e ∈ entries) :
    (∃ u, s.Slice e.span u) ∧
      ∀ key, e.key = some key → e.computed = false → ∃ u, s.Slice key.span u := by
  obtain ⟨p, children, within, -, made, action, -⟩ := derived.makes makes
  have action := action ⟨_, _, rfl⟩
  obtain ⟨parts, out, parted, applied, same⟩ := Tree.assemble_node.mp made
  obtain ⟨-, rfl⟩ := Assembled.mk.inj same
  rw [action] at applied
  obtain ⟨-, rfl⟩ := Expr.mapping.inj (Fragment.expr.inj
    (List.singleton_inj.mp (Except.ok.inj applied)))
  obtain ⟨f, given, same⟩ := List.mem_filterMap.mp member
  cases f <;> cases same
  obtain ⟨part, listed, found⟩ := Tree.mem_given given
  obtain ⟨c, child, inner⟩ := mem_of_forall₂ parted listed
  obtain ⟨⟨u, here⟩, keyed⟩ := Tree.spans_entry derived.valid (within.descend child) inner found
  refine ⟨⟨u, derived.slice here⟩, fun key same plain => ?_⟩
  obtain ⟨u, there⟩ := keyed key same plain
  exact ⟨u, derived.slice there⟩

theorem slice_argument (derived : Derived s tree) {names : List Text} {c : Call}
    (listed : c ∈ s.styleCalls names) {e : Expr} (argument : e ∈ c.arguments) :
    ∃ u, s.Slice e.span u ∧ (Call.isInline e = false → u.map Prod.fst = [.name]) := by
  obtain ⟨callee, makes, -⟩ := derived.styleCall listed
  obtain ⟨args, extent, within, head, inner⟩ := derived.arguments_derived makes
  obtain ⟨u, spans, name⟩ := Tree.spans_item derived.valid within head inner argument
  exact ⟨u, derived.slice spans, name⟩

/-- What an object literal of a script holds is grounded. -/
theorem grounded_of_makes (derived : Derived s tree) {e : Expr} (makes : tree.Makes e) :
    e.Grounded tree := by
  obtain ⟨p, children, extent, within, -, made⟩ := makes
  exact Tree.assemble_grounded within derived.valid derived.inOrder made _
    (List.mem_singleton.mpr rfl)

end Derived

end Script

end StyleSplit
