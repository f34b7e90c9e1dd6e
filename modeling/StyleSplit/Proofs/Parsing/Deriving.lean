import Mathlib.Data.List.Nodup
import Mathlib.Data.List.Pairwise
import StyleSplit.Proofs.Parsing.Items
import StyleSplit.Proofs.Script.Extents

/-! Which terminals follow from some symbols, whatever tokens stand for them. Parts of a
derivation can be exchanged for anything else that follows from the same symbols. -/
namespace StyleSplit.Script

/-- The terminals follow from the symbols by the productions of a grammar. -/
def Grammar.Derives (g : Grammar) (symbols : List Symbol) (ts : List Terminal) : Prop :=
  ∃ trees : List Tree, trees.map Tree.symbol = symbols ∧ (∀ tree ∈ trees, tree.valid g = true) ∧
    (Tree.words trees).map Token.terminal = ts

variable {g : Grammar} {a b : List Symbol} {u v ts : List Terminal}

namespace Grammar.Derives

theorem nil : g.Derives [] [] := ⟨[], rfl, by simp, rfl⟩

theorem terminal (t : Terminal) : g.Derives [.terminal t] [t] :=
  ⟨[.leaf ⟨t, [], ⟨0, 0⟩⟩], rfl, by simp [Tree.valid], rfl⟩

theorem append (first : g.Derives a u) (last : g.Derives b v) : g.Derives (a ++ b) (u ++ v) := by
  obtain ⟨trees, rfl, valid, rfl⟩ := first
  obtain ⟨trees', rfl, valid', rfl⟩ := last
  refine ⟨trees ++ trees', by simp, ?_, by simp⟩
  intro tree member
  rcases List.mem_append.mp member with left | right
  · exact valid tree left
  · exact valid' tree right

theorem cons {s : Symbol} (first : g.Derives [s] u) (last : g.Derives b v) :
    g.Derives (s :: b) (u ++ v) :=
  first.append last

theorem node {p : Production} (member : p ∈ g.productions p.head) (body : g.Derives p.body ts) :
    g.Derives [.nonterminal p.head] ts := by
  obtain ⟨trees, symbols, valid, rfl⟩ := body
  refine ⟨[.node p trees], rfl, ?_, by simp [Tree.words, Tree.word]⟩
  intro tree only
  obtain rfl := List.mem_singleton.mp only
  exact Tree.valid_node.mpr ⟨member, symbols, valid⟩

theorem of_tree {tree : Tree} (valid : tree.valid g = true) :
    g.Derives [tree.symbol] (tree.word.map Token.terminal) :=
  ⟨[tree], rfl, by simpa using valid, by simp [Tree.words]⟩

theorem tree {s : Symbol} (derives : g.Derives [s] ts) :
    ∃ tree : Tree, tree.symbol = s ∧ tree.valid g = true ∧ tree.word.map Token.terminal = ts := by
  obtain ⟨trees, symbols, valid, rfl⟩ := derives
  obtain ⟨tree, rest, rfl, rfl, none⟩ := List.map_eq_cons_iff.mp symbols
  obtain rfl := List.map_eq_nil_iff.mp none
  exact ⟨tree, rfl, valid tree (by simp), by simp [Tree.words]⟩

end Grammar.Derives

namespace Tree

theorem words_cut {trees : List Tree} (w : List Token)
    (same : (words trees).map Token.terminal = w.map Token.terminal)
    (each : ∀ tree ∈ trees, ∀ v : List Token,
      tree.word.map Token.terminal = v.map Token.terminal →
      ∃ tree' : Tree, tree'.symbol = tree.symbol ∧ tree'.valid g = true ∧ tree'.word = v) :
    ∃ trees' : List Tree, trees'.map symbol = trees.map symbol ∧
      (∀ tree ∈ trees', tree.valid g = true) ∧ words trees' = w := by
  induction trees generalizing w with
  | nil =>
    obtain rfl := List.map_eq_nil_iff.mp same.symm
    exact ⟨[], rfl, by simp, rfl⟩
  | cons tree rest ih =>
    rw [words, List.map_append] at same
    obtain ⟨v, x, rfl, first, last⟩ := List.map_eq_append_iff.mp same.symm
    obtain ⟨tree', symbol', valid', rfl⟩ := each tree (by simp) v first.symm
    obtain ⟨rest', symbols, valid, rfl⟩ := ih x last.symm fun tree member =>
      each tree (by simp [member])
    refine ⟨tree' :: rest', by simp [symbol', symbols], ?_, rfl⟩
    intro other member
    rcases List.mem_cons.mp member with rfl | member
    · exact valid'
    · exact valid other member

/-- A derivation fits any tokens with the same terminals. -/
theorem retoken {tree : Tree} (valid : tree.valid g = true) (w : List Token)
    (same : tree.word.map Token.terminal = w.map Token.terminal) :
    ∃ tree' : Tree, tree'.symbol = tree.symbol ∧ tree'.valid g = true ∧ tree'.word = w := by
  induction tree using Tree.induct generalizing w with
  | leaf t =>
    obtain ⟨t', rest, rfl, terminal, none⟩ := List.map_eq_cons_iff.mp same.symm
    obtain rfl := List.map_eq_nil_iff.mp none
    exact ⟨.leaf t', congrArg Symbol.terminal terminal, rfl, rfl⟩
  | node p children ih =>
    obtain ⟨member, body, each⟩ := valid_node.mp valid
    obtain ⟨children', symbols, valid', rfl⟩ := words_cut w same fun tree member v =>
      ih tree member (each tree member) v
    exact ⟨.node p children', rfl, valid_node.mpr ⟨member, symbols.trans body, valid'⟩, rfl⟩

end Tree

theorem Grammar.Derives.retoken {s : Symbol} {w : List Token}
    (derives : g.Derives [s] (w.map Token.terminal)) :
    ∃ tree : Tree, tree.symbol = s ∧ tree.valid g = true ∧ tree.word = w := by
  obtain ⟨tree, rfl, valid, same⟩ := derives.tree
  exact Tree.retoken valid w same

namespace Tree

variable {whole tree : Tree}

theorem Within.trans {part middle : Tree} (inner : Within part middle)
    (outer : Within middle whole) : Within part whole := by
  induction outer with
  | self => exact inner
  | child member _ ih => exact .child member ih

theorem disjoint_children {children : List Tree} (distinct : (words children).Nodup)
    {c d : Tree} (left : c ∈ children) (right : d ∈ children) (other : c ≠ d) :
    c.word.Disjoint d.word := by
  rw [words_eq_flatMap, List.nodup_flatMap] at distinct
  have symmetric : Std.Symm (Function.onFun List.Disjoint word) :=
    ⟨fun _ _ apart _ left right => apart right left⟩
  exact distinct.2.forall left right other

/-- Where some parts of a derivation are replaced by what follows from the same symbols,
and all other tokens are kept, the same symbol derives the result. -/
theorem exchange {replaced : Tree → Prop} {image : Token → List Terminal}
    (distinct : whole.word.Nodup) (within : Within tree whole) (valid : tree.valid g = true)
    (new : ∀ part, Within part whole → replaced part →
      g.Derives [part.symbol] (part.word.flatMap image))
    (kept : ∀ t ∈ whole.word, image t = [t.terminal] ∨
      ∃ part, Within part whole ∧ replaced part ∧ t ∈ part.word)
    (clear : ∀ part, Within part whole → replaced part →
      Within part tree ∨ part.word.Disjoint tree.word) :
    g.Derives [tree.symbol] (tree.word.flatMap image) := by
  induction tree using Tree.induct with
  | leaf t =>
    by_cases own : replaced (.leaf t)
    · exact new _ within own
    have member : t ∈ whole.word := within.leaves.subset (by simp [word])
    rcases kept t member with same | ⟨part, inside, listed, inner⟩
    · simpa [symbol, word, same] using Grammar.Derives.terminal t.terminal
    · rcases clear part inside listed with within | apart
      · cases within
        exact absurd listed own
      · exact absurd (by simp [word]) (apart inner)
  | node p children ih =>
    by_cases own : replaced (.node p children)
    · exact new _ within own
    obtain ⟨member, body, each⟩ := valid_node.mp valid
    have nodup : (words children).Nodup := distinct.sublist within.leaves.sublist
    have parts : ∀ c ∈ children, g.Derives [c.symbol] (c.word.flatMap image) := by
      intro c child
      refine ih c child (within.descend child) (each c child) fun part inside listed => ?_
      rcases clear part inside listed with within' | apart
      · cases within' with
        | self => exact absurd listed own
        | @child d _ _ other inner =>
          by_cases same : d = c
          · exact .inl (same ▸ inner)
          · refine .inr fun t left right => ?_
            exact disjoint_children nodup other child same (inner.leaves.subset left) right
      · refine .inr fun t left right => apart left ?_
        exact (word_infix_words child).subset right
    refine Grammar.Derives.node (p := p) member ?_
    rw [← body, word]
    clear ih clear own within valid body each nodup
    induction children with
    | nil => exact .nil
    | cons c rest ih =>
      rw [words, List.flatMap_append, List.map_cons]
      exact (parts c (by simp)).cons (ih fun d member => parts d (by simp [member]))

end Tree

end StyleSplit.Script
