import StyleSplit.Proofs.Script.Listing

/-! What lists contribute. Arguments are the expressions that their elements contribute, and an
object literal has the entries that its properties do, however the items are repeated. -/
namespace StyleSplit.Script

namespace Tree

variable {α : Type} {pick : Fragment → Option α} {tree : Tree} {n : Nonterminal}
  {children : List Tree} {a : Assembled}

/-- What a derivation contributes of one kind. -/
def offers (pick : Fragment → Option α) (tree : Tree) : List α :=
  match tree.assemble with
  | .ok a => a.fragments.filterMap pick
  | .error _ => []

theorem offers_eq (made : tree.assemble = .ok a) :
    tree.offers pick = a.fragments.filterMap pick := by
  rw [offers, made]

theorem partsOfAll_eq (n : Nonterminal) (trees : List Tree) :
    partsOfAll n trees = trees.flatMap (parts n) := by
  induction trees with
  | nil => rfl
  | cons c rest ih => rw [partsOfAll, ih, List.flatMap_cons]

theorem Within.made {part : Tree} (within : Within part tree) (made : tree.assemble = .ok a) :
    ∃ b, part.assemble = .ok b := by
  induction within generalizing a with
  | self => exact ⟨a, made⟩
  | child member _ ih =>
    obtain ⟨parts, out, parted, -⟩ := assemble_node.mp made
    obtain ⟨b, -, inner⟩ := mem_of_forall₂ parted.flip member
    exact ih inner

theorem given_offers {action : Action} {parts : List Assembled}
    (marks : ∀ t, pick (.token t) = none)
    (parted : List.Forall₂ (fun t a => t.assemble = .ok a) children parts) :
    (given action parts).filterMap pick = children.flatMap (offers pick) := by
  induction parted with
  | nil => rfl
  | @cons c part _ _ made _ ih =>
    rw [given_cons, List.filterMap_append, ih, List.flatMap_cons, offers_eq made,
      List.filterMap_filter]
    congr 1
    refine List.filterMap_congr fun f _ => ?_
    cases f <;> simp [marks, Assembled.counts]

end Tree

namespace Listing

open Script.Tree

variable {α : Type} {pick : Fragment → Option α} {l : Listing} {tree : Tree} {a : Assembled}
  {p : Production} {children : List Tree} {action : Action}

/-- A list is put together by one action, from whatever its items contribute. -/
structure Hands (l : Listing) (action : Action) : Prop where
  head : ∀ p ∈ grammar.productions l.head, p.action = action
  more : ∀ p ∈ grammar.productions l.more, p.action = .splice

theorem arguments_hands : arguments.Hands .arguments := ⟨by decide +kernel, by decide +kernel⟩

theorem objectLiteral_hands : objectLiteral.Hands .mapping :=
  ⟨by decide +kernel, by decide +kernel⟩

/-- What the bodies for a list are made of. -/
def Holds (l : Listing) (s : Symbol) : Prop :=
  (∃ t, s = .terminal t) ∨ s = .nonterminal l.item ∨ s = .nonterminal l.more

theorem holds_body (member : p ∈ grammar.productions p.head)
    (head : p.head = l.head ∨ p.head = l.more) : ∀ s ∈ p.body, l.Holds s := by
  have ends {ending : List Symbol} (known : ending ∈ endings l.last) : ∀ s ∈ ending, l.Holds s := by
    simp only [endings, List.mem_cons, List.not_mem_nil, or_false] at known
    rcases known with rfl | rfl <;> simp [Holds]
  rcases head with head | head
  · rcases l.bodies p (head ▸ member) with shape | ⟨ending, known, shape | shape⟩ <;> rw [shape]
    · simp [Holds]
    · simpa [Holds] using ends known
    · simpa [Holds] using ends known
  · rcases l.rests p (head ▸ member) with shape | shape <;> simp [shape, Holds]

theorem offers_children (valid : (node p children).valid grammar = true)
    (head : p.head = l.head ∨ p.head = l.more)
    (each : ∀ c ∈ children, l.Holds c.symbol →
      c.offers pick = (c.parts l.item).flatMap (offers pick)) :
    children.flatMap (offers pick) = ((node p children).parts l.item).flatMap (offers pick) := by
  obtain ⟨member, body, -⟩ := valid_node.mp valid
  have other : p.head ≠ l.item := by
    rcases head with head | head <;> rw [head]
    · exact l.apart.1
    · exact l.apart.2
  rw [parts_node other, partsOfAll_eq, List.flatMap_assoc]
  refine List.flatMap_congr fun c child => each c child (holds_body member head _ ?_)
  exact body ▸ List.mem_map_of_mem child

/-- A part of a list contributes what the items in it do. -/
theorem offers_part (hands : l.Hands action) (marks : ∀ t, pick (.token t) = none)
    (valid : tree.valid grammar = true) (holds : l.Holds tree.symbol)
    (made : tree.assemble = .ok a) :
    tree.offers pick = (tree.parts l.item).flatMap (offers pick) := by
  induction tree using Tree.induct generalizing a with
  | leaf t => simp [offers_eq made, parts, Except.ok.inj made.symm, marks]
  | node p children ih =>
    by_cases item : p.head = l.item
    · have symbol : (node p children).symbol = .nonterminal l.item := congrArg _ item
      rw [parts_self symbol, List.flatMap_singleton]
    have more : p.head = l.more := by
      rcases holds with ⟨_, ⟨⟩⟩ | same | same
      · exact absurd (Symbol.nonterminal.inj same) item
      · exact Symbol.nonterminal.inj same
    obtain ⟨member, -, each⟩ := valid_node.mp valid
    obtain ⟨parts, out, parted, applied, rfl⟩ := assemble_node.mp made
    rw [hands.more p (more ▸ member)] at applied
    obtain rfl : given .splice parts = out := Except.ok.inj applied
    rw [offers_eq made, given_offers marks parted]
    refine offers_children valid (.inr more) fun c child holds => ?_
    obtain ⟨b, -, inner⟩ := mem_of_forall₂ parted.flip child
    exact ih c child (each c child) holds inner

/-- What the action for a list is given is what its items contribute. -/
theorem given_items (hands : l.Hands action) (marks : ∀ t, pick (.token t) = none)
    (valid : (node p children).valid grammar = true) (head : p.head = l.head)
    {parts : List Assembled}
    (parted : List.Forall₂ (fun t a => t.assemble = .ok a) children parts) :
    p.action = action ∧ (given p.action parts).filterMap pick =
      ((node p children).parts l.item).flatMap (offers pick) := by
  obtain ⟨member, -, each⟩ := valid_node.mp valid
  refine ⟨hands.head p (head ▸ member), ?_⟩
  rw [given_offers marks parted]
  refine offers_children valid (.inl head) fun c child holds => ?_
  obtain ⟨b, -, inner⟩ := mem_of_forall₂ parted.flip child
  exact offers_part hands marks (each c child) holds inner

end Listing

namespace Tree

variable {tree : Tree} {a : Assembled}

theorem offers_expr {n : Nonterminal} (valid : tree.valid grammar = true)
    (symbol : tree.symbol = .nonterminal n) (kinds : n.kinds = some [[.expr]])
    (made : tree.assemble = .ok a) :
    ∃ e, a.fragments = [.expr e] ∧ tree.offers Fragment.expr? = [e] := by
  obtain ⟨e, only⟩ := assemble_expr valid symbol kinds made
  exact ⟨e, only, by rw [offers_eq made, only]; rfl⟩

/-- Arguments are the expressions that their elements contribute. -/
theorem arguments_items (valid : tree.valid grammar = true)
    (symbol : tree.symbol = .nonterminal .arguments) (made : tree.assemble = .ok a) :
    ∃ span, a.fragments =
      [.arguments span ((tree.parts .element).flatMap (offers Fragment.expr?))] := by
  cases tree with
  | leaf t => cases symbol
  | node p children =>
    obtain ⟨parts, out, parted, applied, rfl⟩ := assemble_node.mp made
    have marks (t : Token) : Fragment.expr? (.token t) = none := rfl
    obtain ⟨action, items⟩ := Listing.given_items Listing.arguments_hands marks valid
      (Symbol.nonterminal.inj symbol) parted
    rw [action] at applied items
    exact ⟨_, (Except.ok.inj applied).symm.trans (by rw [items]; rfl)⟩

/-- An object literal has the entries that its properties contribute. -/
theorem literal_entries (valid : tree.valid grammar = true)
    (symbol : tree.symbol = .nonterminal .objectLiteral) (made : tree.assemble = .ok a) :
    ∃ span, a.fragments =
      [.expr (.mapping span ((tree.parts .property).flatMap (offers Fragment.entry?)))] := by
  cases tree with
  | leaf t => cases symbol
  | node p children =>
    obtain ⟨parts, out, parted, applied, rfl⟩ := assemble_node.mp made
    have marks (t : Token) : Fragment.entry? (.token t) = none := rfl
    obtain ⟨action, entries⟩ := Listing.given_items Listing.objectLiteral_hands marks valid
      (Symbol.nonterminal.inj symbol) parted
    rw [action] at applied entries
    exact ⟨_, (Except.ok.inj applied).symm.trans (by rw [entries]; rfl)⟩

/-- Arguments have as many items as there are elements in their derivation. -/
theorem items_length {place : Option Span} {span : Span} {items : List Expr}
    (valid : tree.valid grammar = true) (symbol : tree.symbol = .nonterminal .arguments)
    (made : tree.assemble = .ok ⟨place, [.arguments span items]⟩) :
    items.length = (tree.parts .element).length := by
  obtain ⟨_, same⟩ := arguments_items valid symbol made
  obtain ⟨-, rfl⟩ := Fragment.arguments.inj (List.singleton_inj.mp same)
  rw [List.length_flatMap]
  refine (congrArg List.sum (List.map_congr_left (g := fun _ => 1) fun element listed => ?_)).trans
    (by simp)
  obtain ⟨kind, within⟩ := mem_parts listed
  obtain ⟨b, inner⟩ := within.made made
  obtain ⟨e, -, one⟩ := offers_expr (within.valid valid) kind rfl inner
  rw [one, List.length_singleton]

end Tree

end StyleSplit.Script
