import StyleSplit.Proofs.Related
import StyleSplit.Script.Chart
import StyleSplit.Script.Rules

/-! Items of the chart and what they stand for. A sound item holds valid derivations of
the symbols before its dot, whose tokens are those from its start up to its column. Items
that stand for the same thing agree in everything that decides how they go on. -/
namespace StyleSplit.Script

/-- Productions stand under their heads, and the place of a production tells it from the
others of its head. -/
structure Grammar.Ordered (g : Grammar) : Prop where
  head {n : Nonterminal} {p : Production} : p ∈ g.productions n → p.head = n
  order {n : Nonterminal} {p q : Production} :
    p ∈ g.productions n → q ∈ g.productions n → p.order = q.order → p = q

theorem grammar_ordered : grammar.Ordered where
  head {n p} member := by
    simp only [grammar, Rules.productions, List.mem_map, Prod.exists] at member
    obtain ⟨_, _, _, _, rfl⟩ := member
    rfl
  order {n p q} first second same := by
    simp only [grammar, Rules.productions, List.mem_map, Prod.exists] at first second
    obtain ⟨action, body, i, left, rfl⟩ := first
    obtain ⟨action', body', j, right, rfl⟩ := second
    obtain rfl : i = j := same
    rw [List.mem_zipIdx_iff_getElem?] at left right
    obtain ⟨rfl, rfl⟩ := Prod.mk.inj (Option.some.inj (left.symm.trans right))
    rfl

theorem Nonterminal.mem_all (n : Nonterminal) : n ∈ all := by
  cases n <;> decide

/-- What can be checked of each production holds of all of them. -/
theorem productions_all {check : Production → Bool}
    (each : Nonterminal.all.all (fun n => (grammar.productions n).all check) = true) :
    ∀ n, ∀ p ∈ grammar.productions n, check p = true :=
  fun n => List.all_eq_true.mp (List.all_eq_true.mp each n n.mem_all)

/-- The tokens from one place up to another. -/
def segment (w : List Token) (a b : Nat) : List Token := (w.take b).drop a

theorem segment_append {w : List Token} {a b c : Nat} (first : a ≤ b) (last : b ≤ c) :
    segment w a b ++ segment w b c = segment w a c := by
  have shorter : w.take b = (w.take c).take b := by rw [List.take_take, Nat.min_eq_left last]
  unfold segment
  rw [shorter, List.drop_take]
  obtain ⟨d, rfl⟩ := Nat.exists_eq_add_of_le first
  rw [Nat.add_sub_cancel_left, ← List.drop_drop, List.take_append_drop]

@[simp] theorem segment_self (w : List Token) (a : Nat) : segment w a a = [] :=
  List.drop_eq_nil_of_le (List.length_take_le _ _)

theorem segment_next {w : List Token} {k : Nat} {t : Token} (h : w[k]? = some t) :
    segment w k (k + 1) = [t] := by
  obtain ⟨bound, same⟩ := List.getElem?_eq_some_iff.mp h
  rw [segment, List.take_add_one, h, List.drop_append_of_le_length (by simp; omega)]
  simp [List.drop_eq_nil_of_le (List.length_take_le _ _)]

theorem segment_all (w : List Token) : segment w 0 w.length = w := by simp [segment]

namespace Tree

/-- Induction on the depth of a derivation. -/
theorem induct {motive : Tree → Prop} (leaf : ∀ t, motive (.leaf t))
    (node : ∀ p children, (∀ c ∈ children, motive c) → motive (.node p children)) :
    ∀ tree, motive tree
  | .leaf t => leaf t
  | .node p children => node p children fun c _ => induct leaf node c

theorem leaf_of_symbol {tree : Tree} {t : Terminal} (symbol : tree.symbol = .terminal t) :
    ∃ token, tree = .leaf token ∧ token.terminal = t := by
  cases tree with
  | leaf token => exact ⟨token, rfl, Symbol.terminal.inj symbol⟩
  | node => cases symbol

@[simp] theorem words_append (first last : List Tree) :
    words (first ++ last) = words first ++ words last := by
  induction first with
  | nil => rfl
  | cons tree rest ih => simp [words, ih]

theorem words_eq_flatMap (trees : List Tree) : words trees = trees.flatMap word := by
  induction trees with
  | nil => rfl
  | cons tree rest ih => simp [words, ih]

theorem allValid_iff {g : Grammar} {trees : List Tree} :
    allValid g trees = true ↔ ∀ tree ∈ trees, tree.valid g = true := by
  induction trees with
  | nil => simp [allValid]
  | cons tree rest ih => simp [allValid, ih]

theorem valid_node {g : Grammar} {p : Production} {children : List Tree} :
    (node p children).valid g = true ↔
      p ∈ g.productions p.head ∧ children.map symbol = p.body ∧
        ∀ tree ∈ children, tree.valid g = true := by
  simp only [valid, Bool.and_eq_true, List.contains_iff_mem, beq_iff_eq, allValid_iff, and_assoc]

end Tree

namespace Item

/-- What an item in the column `here` claims about the tokens. -/
structure Sound (g : Grammar) (w : List Token) (here : Nat) (i : Item) : Prop where
  member : i.production ∈ g.productions i.production.head
  body : i.found.reverse.map Tree.symbol ++ i.rest = i.production.body
  valid : ∀ tree ∈ i.found, tree.valid g = true
  dot : i.dot = i.found.length
  start : i.start ≤ here
  word : Tree.words i.found.reverse = segment w i.start here

/-- Items that stand for the same thing: of what is finished only the head matters. -/
def Alike (a b : Item) : Prop :=
  a.start = b.start ∧ a.production.head = b.production.head ∧
    (a.rest = [] ∧ b.rest = [] ∨ a.rest ≠ [] ∧ b.rest ≠ [] ∧ a.dot = b.dot ∧
      a.production.order = b.production.order)

variable {g : Grammar} {w : List Token} {here : Nat} {a b c i : Item}

theorem same_iff : a.same b = true ↔ a.Alike b := by
  unfold same Alike
  cases left : a.rest <;> cases right : b.rest <;>
    simp [Bool.and_eq_true, Nat.beq_eq, and_assoc]

theorem Alike.refl (a : Item) : a.Alike a := by
  unfold Alike
  by_cases h : a.rest = [] <;> simp [h]

theorem Alike.symm (h : a.Alike b) : b.Alike a := by
  obtain ⟨start, head, rest⟩ := h
  refine ⟨start.symm, head.symm, ?_⟩
  rcases rest with ⟨left, right⟩ | ⟨left, right, dot, order⟩
  · exact .inl ⟨right, left⟩
  · exact .inr ⟨right, left, dot.symm, order.symm⟩

theorem Alike.trans (first : a.Alike b) (last : b.Alike c) : a.Alike c := by
  obtain ⟨start, head, rest⟩ := first
  obtain ⟨start', head', rest'⟩ := last
  refine ⟨start.trans start', head.trans head', ?_⟩
  rcases rest with ⟨left, right⟩ | ⟨left, right, dot, order⟩ <;>
    rcases rest' with ⟨left', right'⟩ | ⟨left', right', dot', order'⟩
  · exact .inl ⟨left, right'⟩
  · exact absurd right left'
  · exact absurd left' right
  · exact .inr ⟨left, right', dot.trans dot', order.trans order'⟩

/-- An item stands at a place of one of the productions. -/
structure Placed (g : Grammar) (i : Item) : Prop where
  member : i.production ∈ g.productions i.production.head
  rest : i.rest = i.production.body.drop i.dot

theorem Sound.placed (sound : i.Sound g w here) : i.Placed g where
  member := sound.member
  rest := by rw [← sound.body, sound.dot, List.drop_left' (by simp)]

/-- An item under way is known by its class up to the derivations it holds. -/
theorem Alike.under_way (ordered : g.Ordered) (alike : a.Alike b) (first : a.Placed g)
    (second : b.Placed g) (more : a.rest ≠ []) :
    a.production = b.production ∧ a.dot = b.dot ∧ a.rest = b.rest := by
  obtain ⟨_, head, ⟨done, _⟩ | ⟨_, _, dot, order⟩⟩ := alike
  · exact absurd done more
  · have same : a.production = b.production :=
      ordered.order first.member (head ▸ second.member) order
    exact ⟨same, dot, by rw [first.rest, second.rest, same, dot]⟩

theorem begin_sound (ordered : g.Ordered) {n : Nonterminal} {p : Production}
    (member : p ∈ g.productions n) : (Item.begin here p).Sound g w here where
  member := by rw [Item.begin, ordered.head member]; exact member
  body := rfl
  valid := by simp [Item.begin]
  dot := rfl
  start := Nat.le_refl _
  word := (segment_self w here).symm

/-- An item goes on over a derivation of its next symbol. -/
theorem Sound.advance {middle : Nat} (sound : i.Sound g w middle) {t : Tree}
    {beyond : List Symbol} (next : i.rest = t.symbol :: beyond) (valid : t.valid g = true)
    (ahead : middle ≤ here) (word : t.word = segment w middle here) (priority : Int) :
    (i.advance t priority).Sound g w here where
  member := sound.member
  body := by
    have body := sound.body
    rw [next] at body
    simpa [Item.advance, next] using body
  valid := by
    intro tree member
    rcases List.mem_cons.mp member with rfl | member
    · exact valid
    · exact sound.valid tree member
  dot := by simp [Item.advance, sound.dot]
  start := Nat.le_trans sound.start ahead
  word := by
    simp only [Item.advance, List.reverse_cons, Tree.words_append, Tree.words, List.append_nil,
      sound.word, word]
    exact segment_append sound.start ahead

theorem Sound.tree_valid (sound : i.Sound g w here) (done : i.rest = []) :
    i.tree.valid g = true := by
  refine Tree.valid_node.mpr ⟨sound.member, ?_, fun tree member => ?_⟩
  · rw [← sound.body, done, List.append_nil]
  · exact sound.valid tree (List.mem_reverse.mp member)

theorem Sound.tree_word (sound : i.Sound g w here) : i.tree.word = segment w i.start here :=
  sound.word

/-- How an item goes on depends on its class only. -/
theorem Alike.advance (ordered : g.Ordered) (alike : a.Alike b) (first : a.Placed g)
    (second : b.Placed g) (more : a.rest ≠ []) (t u : Tree) (priority priority' : Int) :
    (a.advance t priority).Alike (b.advance u priority') := by
  obtain ⟨production, dot, rest⟩ := alike.under_way ordered first second more
  refine ⟨alike.1, alike.2.1, ?_⟩
  simp only [Item.advance, rest, production, dot, and_true]
  by_cases done : b.rest.tail = []
  · exact .inl ⟨done, done⟩
  · exact .inr ⟨done, done⟩

end Item

namespace Step

/-- What a step to the column `here` claims: the item before it waits for what it found. -/
def Sound (g : Grammar) (w : List Token) (here : Nat) (s : Step) : Prop :=
  match s.right with
  | .token t => ∃ before, here = before + 1 ∧ w[before]? = some t ∧
      s.left.Sound g w before ∧ ∃ rest, s.left.rest = .terminal t.terminal :: rest
  | .whole i => i.Sound g w here ∧ i.rest = [] ∧ s.left.Sound g w i.start ∧
      ∃ rest, s.left.rest = .nonterminal i.production.head :: rest

variable {g : Grammar} {w : List Token} {here : Nat} {s : Step}

theorem Sound.item (sound : s.Sound g w here) : s.item.Sound g w here := by
  obtain ⟨left, right⟩ := s
  cases right with
  | token t =>
    obtain ⟨before, rfl, read, sound, rest, next⟩ := sound
    exact sound.advance (t := .leaf t) next rfl (Nat.le_succ _) (segment_next read).symm 0
  | whole i =>
    obtain ⟨whole, done, sound, rest, next⟩ := sound
    exact sound.advance (t := i.tree) next (whole.tree_valid done) whole.start whole.tree_word _

end Step

end StyleSplit.Script
