import StyleSplit.Proofs.Parsing.Items

/-! Productions under way, without a chart: what can have been found of a production after
some of the tokens. Along a derivation of all tokens every production gets from its start to
its end, and before each token one of them waits for it. -/
namespace StyleSplit.Script

/-- The first `dot` symbols of a production, begun at `start`, are found by `here`. -/
inductive Grammar.UnderWay (g : Grammar) (w : List Token) : Nat → Production → Nat → Nat → Prop
  | start {p : Production} : p ∈ g.productions g.start → UnderWay g w 0 p 0 0
  | predict {start dot here : Nat} {p q : Production} {n : Nonterminal} :
      UnderWay g w start p dot here → p.body[dot]? = some (.nonterminal n) →
      q ∈ g.productions n → UnderWay g w here q 0 here
  | read {start dot here : Nat} {p : Production} {t : Token} :
      UnderWay g w start p dot here → p.body[dot]? = some (.terminal t.terminal) →
      w[here]? = some t → UnderWay g w start p (dot + 1) (here + 1)
  | finish {start dot middle here : Nat} {p q : Production} :
      UnderWay g w start p dot middle → p.body[dot]? = some (.nonterminal q.head) →
      UnderWay g w middle q q.body.length here → UnderWay g w start p (dot + 1) here

namespace Grammar

variable {g : Grammar} {w : List Token} {start dot here : Nat} {p : Production}

/-- A production waits for the token at a place. -/
def Readable (g : Grammar) (w : List Token) (here : Nat) : Prop :=
  ∃ t start p dot, w[here]? = some t ∧ g.UnderWay w start p dot here ∧
    p.body[dot]? = some (.terminal t.terminal)

/-- What a derivation of the next symbols adds to a production under way. -/
def Passes (g : Grammar) (w : List Token) (trees : List Tree) : Prop :=
  ∀ (start dot here : Nat) (p : Production) (rest : List Token) (more : List Symbol),
    g.UnderWay w start p dot here → p.body.drop dot = trees.map Tree.symbol ++ more →
    w.drop here = Tree.words trees ++ rest →
    g.UnderWay w start p (dot + trees.length) (here + (Tree.words trees).length) ∧
      ∀ i < (Tree.words trees).length, g.Readable w (here + i)

theorem passes_cons {tree : Tree} {trees : List Tree} (first : g.Passes w [tree])
    (others : g.Passes w trees) : g.Passes w (tree :: trees) := by
  intro start dot here p rest more way next ahead
  have joined : Tree.words [tree] ++ Tree.words trees = Tree.words (tree :: trees) := by
    simp [Tree.words]
  rw [← joined, List.append_assoc] at ahead
  obtain ⟨past, readable⟩ := first start dot here p _ _ way next ahead
  have next' : p.body.drop (dot + 1) = trees.map Tree.symbol ++ more := by
    rw [← List.drop_drop, next]
    rfl
  have ahead' : w.drop (here + (Tree.words [tree]).length) = Tree.words trees ++ rest := by
    rw [← List.drop_drop, ahead, List.drop_left]
  obtain ⟨past', readable'⟩ := others start _ _ p rest more past next' ahead'
  rw [← joined, List.length_append]
  constructor
  · simpa only [List.length_cons, Nat.add_assoc, Nat.add_comm 1, List.length_nil] using past'
  · intro i bound
    by_cases early : i < (Tree.words [tree]).length
    · exact readable i early
    · have late := readable' (i - (Tree.words [tree]).length) (by omega)
      rwa [Nat.add_assoc, Nat.add_sub_of_le (Nat.le_of_not_lt early)] at late

theorem passes_leaf (t : Token) : g.Passes w [.leaf t] := by
  intro start dot here p rest more way next ahead
  have next : p.body[dot]? = some (.terminal t.terminal) := by
    rw [← List.head?_drop, next]
    rfl
  have token : w[here]? = some t := by
    rw [← List.head?_drop, ahead]
    rfl
  refine ⟨.read way next token, fun i bound => ?_⟩
  obtain rfl : i = 0 := by simpa [Tree.words, Tree.word] using bound
  exact ⟨t, start, p, dot, token, way, next⟩

theorem passes_node {q : Production} {children : List Tree}
    (valid : (Tree.node q children).valid g = true) (below : g.Passes w children) :
    g.Passes w [.node q children] := by
  intro start dot here p rest more way next ahead
  obtain ⟨member, body, -⟩ := Tree.valid_node.mp valid
  have next : p.body[dot]? = some (.nonterminal q.head) := by
    rw [← List.head?_drop, next]
    rfl
  have word : Tree.words [.node q children] = Tree.words children := by
    simp [Tree.words, Tree.word]
  rw [word] at ahead ⊢
  obtain ⟨done, readable⟩ := below here 0 here q rest [] (.predict way next member)
    (by simp [body]) ahead
  have length : 0 + children.length = q.body.length := by simp [← body]
  rw [length] at done
  exact ⟨.finish way next done, readable⟩

theorem passes_all {trees : List Tree} (each : ∀ tree ∈ trees, g.Passes w [tree]) :
    g.Passes w trees := by
  induction trees with
  | nil =>
    intro start dot here p rest more way _ _
    exact ⟨way, by simp [Tree.words]⟩
  | cons tree trees ih =>
    refine passes_cons (each tree (by simp)) (ih ?_)
    intro other member
    exact each other (by simp [member])

theorem passes_tree {tree : Tree} (valid : tree.valid g = true) : g.Passes w [tree] := by
  induction tree using Tree.induct with
  | leaf t => exact passes_leaf t
  | node q children ih =>
    refine passes_node valid (passes_all ?_)
    intro child member
    exact ih child member ((Tree.valid_node.mp valid).2.2 child member)

/-- A derivation of all tokens from the start symbol. -/
theorem underWay_of_tree {q : Production} {children : List Tree}
    (valid : (Tree.node q children).valid g = true) (head : q.head = g.start)
    (word : Tree.words children = w) :
    q ∈ g.productions g.start ∧ g.UnderWay w 0 q q.body.length w.length ∧
      ∀ i < w.length, g.Readable w i := by
  obtain ⟨member, body, each⟩ := Tree.valid_node.mp valid
  rw [head] at member
  have below : g.Passes w children := passes_all fun child known => passes_tree (each child known)
  obtain ⟨done, readable⟩ := below 0 0 0 q [] [] (.start member) (by simp [body]) (by simp [word])
  have length : children.length = q.body.length := by simp [← body]
  simp only [Nat.zero_add, word, length] at done readable
  exact ⟨member, done, readable⟩

end Grammar

end StyleSplit.Script
