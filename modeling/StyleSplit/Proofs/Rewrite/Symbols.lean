import StyleSplit.Proofs.Precompile.Entries

/-! What the copied parts of a script stand for. An argument is an expression or a spread,
without the parentheses that stood around it; an entry is a property, and the plain key of one
with a value is a property key. -/
namespace StyleSplit

open Script

namespace Script

/-- What arguments are handed on from. -/
def argumentParts : List Nonterminal :=
  [.element, .moreElements, .spread, .expression, .assignment, .conditional, .arrowFunction,
   .binary, .unary, .suffixUpdate, .callMember, .construction, .bareConstruction, .primary,
   .arrayLiteral, .objectLiteral, .functionExpression, .classExpression]

/-- What entries are handed on from. -/
def entryParts : List Nonterminal := [.property, .moreProperties, .method]

/-- Whether a production of some nonterminals makes something of its own, or hands on what
others of them make. -/
def Production.handsWithin (set : List Nonterminal) (p : Production) : Bool :=
  !set.contains p.head || p.action != .field && (p.action != .splice ||
    p.body.all fun
      | .nonterminal n => set.contains n
      | .terminal _ => true)

theorem arguments_handed :
    ∀ n, ∀ p ∈ grammar.productions n, p.handsWithin argumentParts = true :=
  productions_all (by decide)

theorem entries_handed : ∀ n, ∀ p ∈ grammar.productions n, p.handsWithin entryParts = true :=
  productions_all (by decide)

/-- What stands for all that a nonterminal does, and more. -/
def Nonterminal.wider : Nonterminal → Nonterminal
  | .arrayLiteral | .objectLiteral | .functionExpression | .classExpression => .primary
  | .primary | .construction | .bareConstruction => .callMember
  | .callMember => .suffixUpdate
  | .suffixUpdate => .unary
  | .unary => .binary
  | .binary => .conditional
  | .conditional | .arrowFunction => .assignment
  | .assignment => .expression
  | .method => .property
  | n => n

theorem Nonterminal.wider_unit (n : Nonterminal) : n.wider = n ∨
    (grammar.productions n.wider).any
      (fun p => p.head == n.wider && p.body == [.nonterminal n]) = true := by
  cases n <;> first | exact .inl rfl | exact .inr rfl

/-- Whether what a production makes of its own is, in the end, of one of some kinds. -/
def Production.makesOf (set kinds : List Nonterminal) (p : Production) : Bool :=
  !set.contains p.head || p.action == .splice || kinds.contains (Nonterminal.wider^[8] p.head)

theorem arguments_made : ∀ n, ∀ p ∈ grammar.productions n,
    p.makesOf argumentParts [.expression, .spread] = true :=
  productions_all (by decide)

theorem entries_made : ∀ n, ∀ p ∈ grammar.productions n,
    p.makesOf entryParts [.property] = true :=
  productions_all (by decide)

/-- Property keys are made by productions of their own. -/
theorem keys_handed : ∀ n, ∀ p ∈ grammar.productions n, p.handsWithin [.propertyKey] = true :=
  productions_all (by decide)

theorem keys_made : ∀ n, ∀ p ∈ grammar.productions n,
    p.makesOf [.propertyKey] [.propertyKey] = true :=
  productions_all (by decide)

/-- Whether a production for an entry with a colon has its key in front. -/
def Production.keysEntry (p : Production) : Bool :=
  p.action != .keyedEntry || p.body == [.nonterminal .propertyKey, .terminal (.punctuator .colon),
    .nonterminal .assignment]

theorem productions_keyEntry : ∀ n, ∀ p ∈ grammar.productions n, p.keysEntry = true :=
  productions_all (by decide)

namespace Action

variable {action : Action} {span : Span} {fs out : List Fragment} {e : Entry} {key : Expr}

/-- A plain key is what comes first: in front of a value, or alone as a name. -/
def MakesKey (action : Action) (fs : List Fragment) (key : Expr) : Prop :=
  (action = .keyedEntry ∧ ∃ value, fs = [.expr key, .expr value]) ∨
    action = .shorthandEntry ∧ ∃ t, fs.head? = some (.token t) ∧ key.span = t.span

/-- Only a method has its key elsewhere, behind its modifiers. -/
theorem Applies.makesKey (applied : Applies span action fs out) (member : .entry e ∈ out)
    (splice : action ≠ .splice) (keyed : e.key = some key) (plain : e.computed = false)
    (value : ∀ span name formals body, e.value ≠ .function span name formals body) :
    MakesKey action fs key := by
  cases applied with
  | splice => contradiction
  | shorthandEntry t =>
    cases List.mem_singleton.mp member
    exact .inr ⟨rfl, t, rfl, Option.some.inj keyed ▸ rfl⟩
  | keyedEntry place own operand =>
    cases List.mem_singleton.mp member
    exact .inl ⟨rfl, operand, Option.some.inj keyed ▸ rfl⟩
  | spreadEntry =>
    cases List.mem_singleton.mp member
    cases keyed
  | computedEntry =>
    cases List.mem_singleton.mp member
    cases plain
  | method =>
    cases List.mem_singleton.mp member
    exact absurd rfl (value _ _ _ _)
  | _ => simp at member

end Action

variable {n : Nonterminal} {ts : List Terminal}

theorem derives_widest (k : Nat) (derives : grammar.Derives [.nonterminal n] ts) :
    grammar.Derives [.nonterminal (Nonterminal.wider^[k] n)] ts := by
  induction k with
  | zero => exact derives
  | succ k ih =>
    rw [Function.iterate_succ_apply']
    rcases Nonterminal.wider_unit (Nonterminal.wider^[k] n) with same | known
    · rwa [same]
    · exact derives_body ih known

namespace Tree

variable {whole tree : Tree} {span : Span} {a : Assembled} {f : Fragment}
  {set kinds : List Nonterminal}

/-- All tokens of a part of a derivation stand at a span, and a nonterminal stands for them. -/
def StandsFor (whole : Tree) (n : Nonterminal) (span : Span) : Prop :=
  ∃ part, Within part whole ∧ Token.extent? part.word = some span ∧
    grammar.Derives [.nonterminal n] (part.bare.map Prod.fst)

/-- What is handed on was made by some production of its own. -/
theorem maker (handed : ∀ n, ∀ p ∈ grammar.productions n, p.handsWithin set = true)
    (valid : tree.valid grammar = true) (symbol : tree.symbol = .nonterminal n) (known : n ∈ set)
    (made : tree.assemble = .ok a) (member : f ∈ a.fragments) (kind : f.isToken = false) :
    ∃ p children b, Within (.node p children) tree ∧ p.head ∈ set ∧ p.action ≠ .splice ∧
      p.action ≠ .field ∧ (node p children).assemble = .ok b ∧ f ∈ b.fragments := by
  induction tree using Tree.induct generalizing n a with
  | leaf t => cases symbol
  | node p children ih =>
    obtain ⟨listed, body, each⟩ := valid_node.mp valid
    obtain rfl := Symbol.nonterminal.inj symbol
    have hands := handed p.head p listed
    simp only [Production.handsWithin, List.contains_iff_mem.mpr known, Bool.not_true,
      Bool.false_or, Bool.and_eq_true, bne_iff_ne, Bool.or_eq_true] at hands
    obtain ⟨field, hands⟩ := hands
    by_cases splice : p.action = .splice
    · obtain ⟨parts, out, parted, applied, rfl⟩ := assemble_node.mp made
      rw [splice] at applied
      obtain rfl : given .splice parts = out := Except.ok.inj applied
      obtain ⟨part, among, found⟩ := mem_given member
      obtain ⟨c, child, inner⟩ := mem_of_forall₂ parted among
      cases c with
      | leaf t =>
        cases inner
        obtain rfl := List.mem_singleton.mp found
        cases kind
      | node q below =>
        have inside : q.head ∈ set := by
          have all := hands.resolve_left (by simp [splice])
          rw [← body] at all
          have here := List.all_eq_true.mp all _ (List.mem_map_of_mem child)
          exact List.contains_iff_mem.mp here
        obtain ⟨q', below', b, within, rest⟩ := ih _ child (each _ child) rfl inside inner found
        exact ⟨q', below', b, .child child within, rest⟩
    · exact ⟨p, children, a, .self, known, splice, field, made, member⟩

/-- What was made stands where all tokens of its maker do. -/
theorem stands_made (made' : ∀ n, ∀ p ∈ grammar.productions n, p.makesOf set kinds = true)
    {p : Production} {children : List Tree} (valid : (node p children).valid grammar = true)
    (within : Within (node p children) whole) (known : p.head ∈ set) (splice : p.action ≠ .splice)
    (extent : Token.extent? (node p children).word = some span) :
    ∃ kind ∈ kinds, whole.StandsFor kind span := by
  have makes := made' p.head p (valid_node.mp valid).1
  simp only [Production.makesOf, List.contains_iff_mem.mpr known, Bool.not_true, Bool.false_or,
    Bool.or_eq_true, beq_iff_eq, splice, false_or, List.contains_iff_mem] at makes
  refine ⟨_, makes, _, within, extent, derives_widest 8 ?_⟩
  rw [bare_terminals]
  exact .of_tree valid

theorem stands_expr (handed : ∀ n, ∀ p ∈ grammar.productions n, p.handsWithin set = true)
    (made' : ∀ n, ∀ p ∈ grammar.productions n, p.makesOf set kinds = true) {e : Expr}
    (valid : whole.valid grammar = true) (within : Within tree whole)
    (symbol : tree.symbol = .nonterminal n) (known : n ∈ set)
    (made : tree.assemble = .ok a) (member : .expr e ∈ a.fragments) :
    ∃ kind ∈ kinds, whole.StandsFor kind e.span := by
  obtain ⟨p, children, b, inner, known, splice, field, made, member⟩ :=
    maker handed (within.valid valid) symbol known made member rfl
  have inside := inner.trans within
  obtain ⟨extent, -⟩ := expr_made (inside.valid valid) made member splice field
  have place := (assemble_span made).symm.trans extent
  exact stands_made made' (inside.valid valid) inside known splice place

theorem stands_entry {e : Entry} (valid : whole.valid grammar = true) (within : Within tree whole)
    (symbol : tree.symbol = .nonterminal n) (known : n ∈ entryParts)
    (made : tree.assemble = .ok a) (member : .entry e ∈ a.fragments) :
    whole.StandsFor .property e.span := by
  obtain ⟨p, children, b, inner, known, splice, -, made, member⟩ :=
    maker entries_handed (within.valid valid) symbol known made member rfl
  have inside := inner.trans within
  obtain ⟨parts, out, parted, applied, rfl⟩ := assemble_node.mp made
  obtain ⟨place, -⟩ := entry_made (inside.valid valid) made parted applied member splice
  obtain ⟨_, only, stands⟩ :=
    stands_made entries_made (inside.valid valid) inside known splice place
  rwa [List.mem_singleton.mp only] at stands

/-- The key in front of a colon stands for a property key. -/
theorem stands_keyed {p : Production} {children : List Tree} {key value : Expr}
    {parts : List Assembled} (valid : whole.valid grammar = true)
    (within : Within (node p children) whole)
    (shape : p.body = [.nonterminal .propertyKey, .terminal (.punctuator .colon),
      .nonterminal .assignment])
    (parted : List.Forall₂ (fun t a => t.assemble = .ok a) children parts)
    (given' : given p.action parts = [.expr key, .expr value]) :
    whole.StandsFor .propertyKey key.span := by
  obtain ⟨-, body, each⟩ := valid_node.mp (within.valid valid)
  rw [shape] at body
  obtain ⟨name, _, rfl, kind, body⟩ := List.map_eq_cons_iff.mp body
  obtain ⟨mark, _, rfl, point, body⟩ := List.map_eq_cons_iff.mp body
  obtain ⟨operand, rfl, -⟩ := List.map_eq_singleton_iff.mp body
  obtain ⟨point, rfl, separates⟩ := leaf_of_symbol point
  rcases parted with _ | ⟨first, -⟩
  obtain ⟨own, only⟩ := assemble_expr (each name (by simp)) kind rfl first
  rw [given_cons, only] at given'
  obtain rfl : own = key := by simpa using (List.cons.inj given').1
  obtain ⟨_, same, stands⟩ := stands_expr keys_handed keys_made valid
    (within.descend (c := name) (by simp)) kind (List.mem_singleton.mpr rfl) first
    (only ▸ List.mem_singleton.mpr rfl)
  rwa [List.mem_singleton.mp same] at stands

theorem stands_key {key : Expr} {e : Entry} (valid : whole.valid grammar = true)
    (within : Within tree whole) (symbol : tree.symbol = .nonterminal n) (known : n ∈ entryParts)
    (made : tree.assemble = .ok a) (member : .entry e ∈ a.fragments) (keyed : e.key = some key)
    (plain : e.computed = false)
    (value : ∀ span name formals body, e.value ≠ .function span name formals body) :
    whole.StandsFor .propertyKey key.span := by
  obtain ⟨p, children, b, inner, known, splice, -, made, member⟩ :=
    maker entries_handed (within.valid valid) symbol known made member rfl
  have inside := inner.trans within
  obtain ⟨parts, out, parted, applied, rfl⟩ := assemble_node.mp made
  have applies := given_applies (inside.valid valid) parted applied
  obtain ⟨action, other, pair⟩ | ⟨action, t, first, same⟩ :=
    applies.makesKey member splice keyed plain value
  · have shape := productions_keyEntry p.head p (valid_node.mp (inside.valid valid)).1
    simp only [Production.keysEntry, action, bne_self_eq_false, Bool.false_or, beq_iff_eq] at shape
    exact stands_keyed valid inside shape parted pair
  · obtain ⟨child, terminal⟩ := shorthand_leaf (inside.valid valid) action parted first
    refine ⟨_, inside.descend child, same ▸ rfl, ?_⟩
    rw [bare_leaf, List.map_singleton, Token.bare, terminal]
    have word : grammar.Derives [.nonterminal .propertyName] [.name] :=
      derives_body (.terminal .name) rfl
    exact derives_body word rfl

/-- Only object literals are put together as such. -/
theorem mapping_head {p : Production} {children : List Tree}
    (valid : (node p children).valid grammar = true) (action : p.action = .mapping) :
    (node p children).symbol = .nonterminal .objectLiteral := by
  have usual := productions_usual p.head p (valid_node.mp valid).1
  simp only [Production.usual, action, Bool.and_eq_true, beq_iff_eq] at usual
  exact congrArg Symbol.nonterminal usual.2.1

theorem mem_offers {α : Type} {pick : Fragment → Option α} {x : α}
    (member : x ∈ tree.offers pick) :
    ∃ a, tree.assemble = .ok a ∧ ∃ f ∈ a.fragments, pick f = some x := by
  unfold offers at member
  split at member
  · rename_i a made
    exact ⟨a, made, List.mem_filterMap.mp member⟩
  · cases member

end Tree

namespace Derived

variable {s : Script} {tree : Tree} {span : Span}

/-- An argument stands where an expression does, or a spread, though perhaps inside
parentheses. -/
theorem argument_stands (derived : Derived s tree) {names : List Text} {c : Call}
    (listed : c ∈ s.styleCalls names) {e : Expr} (argument : e ∈ c.arguments) :
    tree.StandsFor .expression e.span ∨ tree.StandsFor .spread e.span := by
  obtain ⟨callee, makes, -⟩ := derived.styleCall listed
  obtain ⟨args, extent, below, head, inner⟩ := derived.arguments_derived makes
  obtain ⟨_, same⟩ := Tree.arguments_items (below.valid derived.valid) head inner
  obtain ⟨-, items⟩ := Fragment.arguments.inj (List.singleton_inj.mp same)
  rw [items] at argument
  obtain ⟨element, part, member⟩ := List.mem_flatMap.mp argument
  obtain ⟨kind, within⟩ := Tree.mem_parts part
  obtain ⟨a, made, f, among, picked⟩ := Tree.mem_offers member
  cases f <;> cases picked
  obtain ⟨kind, either, stands⟩ := Tree.stands_expr arguments_handed arguments_made derived.valid
    (within.trans below) kind (by decide) made among
  simp only [List.mem_cons, List.not_mem_nil, or_false] at either
  rcases either with rfl | rfl
  · exact .inl stands
  · exact .inr stands

/-- An entry of an object literal comes out of one of its properties. -/
theorem entry_maker (derived : Derived s tree) {entries : List Entry}
    (makes : tree.Makes (.mapping span entries)) {e : Entry} (member : e ∈ entries) :
    ∃ part a, Tree.Within part tree ∧ part.symbol = .nonterminal .property ∧
      part.assemble = .ok a ∧ .entry e ∈ a.fragments := by
  obtain ⟨p, children, within, -, made, action, -⟩ := derived.makes makes
  have head := Tree.mapping_head (within.valid derived.valid) (action ⟨_, _, rfl⟩)
  obtain ⟨_, same⟩ := Tree.literal_entries (within.valid derived.valid) head made
  obtain ⟨-, rfl⟩ := Expr.mapping.inj (Fragment.expr.inj (List.singleton_inj.mp same))
  obtain ⟨property, part, member⟩ := List.mem_flatMap.mp member
  obtain ⟨kind, inner⟩ := Tree.mem_parts part
  obtain ⟨a, made, f, among, picked⟩ := Tree.mem_offers member
  cases f <;> cases picked
  exact ⟨property, a, inner.trans within, kind, made, among⟩

theorem entry_stands (derived : Derived s tree) {entries : List Entry}
    (makes : tree.Makes (.mapping span entries)) {e : Entry} (member : e ∈ entries) :
    tree.StandsFor .property e.span := by
  obtain ⟨part, a, within, kind, made, among⟩ := derived.entry_maker makes member
  exact Tree.stands_entry derived.valid within kind (by decide) made among

theorem key_stands (derived : Derived s tree) {entries : List Entry}
    (makes : tree.Makes (.mapping span entries)) {e : Entry} (member : e ∈ entries) {key : Expr}
    (keyed : e.key = some key) (plain : e.computed = false)
    (value : ∀ span name formals body, e.value ≠ .function span name formals body) :
    tree.StandsFor .propertyKey key.span := by
  obtain ⟨part, a, within, kind, made, among⟩ := derived.entry_maker makes member
  exact Tree.stands_key derived.valid within kind (by decide) made among keyed plain value

end Derived

end Script

end StyleSplit
