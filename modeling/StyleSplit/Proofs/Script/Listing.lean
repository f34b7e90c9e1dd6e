import StyleSplit.Proofs.Script.Brackets
import StyleSplit.Proofs.Script.Cores
import StyleSplit.Proofs.Script.Edges
import StyleSplit.Proofs.Script.Relexing

/-! Lists of items between brackets. The commas outside of the brackets of the items end
them, so whichever derivation a list has, its items are made of the same tokens. -/
namespace StyleSplit.Script

namespace Tree

mutual

/-- The outermost parts of a derivation that stand for a nonterminal, from left to right. -/
def parts (n : Nonterminal) : Tree → List Tree
  | leaf _ => []
  | node p children => if p.head = n then [node p children] else partsOfAll n children

def partsOfAll (n : Nonterminal) : List Tree → List Tree
  | [] => []
  | tree :: rest => tree.parts n ++ partsOfAll n rest

end

/-- The tokens of a derivation, wherever they stand. -/
def bare (tree : Tree) : List (Terminal × Text) := tree.word.map Token.bare

variable {tree : Tree} {n : Nonterminal} {p : Production} {children : List Tree}

theorem parts_self (symbol : tree.symbol = .nonterminal n) : tree.parts n = [tree] := by
  cases tree with
  | leaf t => cases symbol
  | node p children => rw [parts, if_pos (Symbol.nonterminal.inj symbol)]

theorem parts_node (other : p.head ≠ n) : (node p children).parts n = partsOfAll n children := by
  rw [parts, if_neg other]

theorem bare_node : (node p children).bare = children.flatMap bare := by
  rw [bare, word, words_eq_flatMap, List.map_flatMap]
  rfl

theorem bare_leaf (t : Token) : (leaf t).bare = [t.bare] := rfl

theorem bare_terminals : tree.bare.map Prod.fst = tree.word.map Token.terminal := by
  rw [bare, List.map_map]
  rfl

theorem head_of_bare {t : Terminal × Text} {u : List (Terminal × Text)}
    (same : tree.bare = t :: u) :
    ∃ token, tree.word.head? = some token ∧ token.terminal = t.1 := by
  obtain ⟨token, rest, word, rfl, -⟩ := List.map_eq_cons_iff.mp same
  exact ⟨token, by rw [word]; rfl, rfl⟩

theorem mem_parts {part : Tree} (member : part ∈ tree.parts n) :
    part.symbol = .nonterminal n ∧ Within part tree := by
  induction tree using Tree.induct with
  | leaf t => cases member
  | node p children ih =>
    by_cases head : p.head = n
    · have symbol : (node p children).symbol = .nonterminal n := congrArg Symbol.nonterminal head
      rw [parts_self symbol, List.mem_singleton] at member
      subst member
      exact ⟨symbol, .self⟩
    · rw [parts_node head] at member
      have all : ∀ trees, part ∈ partsOfAll n trees → ∃ c ∈ trees, part ∈ c.parts n := by
        intro trees
        induction trees with
        | nil => simp [partsOfAll]
        | cons c rest inner =>
          intro member
          rcases List.mem_append.mp member with here | there
          · exact ⟨c, by simp, here⟩
          · obtain ⟨d, listed, found⟩ := inner there
            exact ⟨d, by simp [listed], found⟩
      obtain ⟨c, listed, found⟩ := all children member
      obtain ⟨symbol, within⟩ := ih c listed found
      exact ⟨symbol, .child listed within⟩

end Tree

/-- What follows the first item of a list: the other items, each behind a comma, and the
closing bracket. -/
inductive Following (last : Punctuator) :
    List (List (Terminal × Text)) → List (Terminal × Text) → Prop where
  | close {t : Terminal × Text} : t.1 = .punctuator last → Following last [] [t]
  | comma {t : Terminal × Text} {item w : List (Terminal × Text)}
      {items : List (List (Terminal × Text))} : t.1 = .punctuator .comma →
      Following last items w → Following last (item :: items) (t :: (item ++ w))

theorem Single.not_past {v x : List (Terminal × Text)} {a : Terminal × Text}
    (single : Single (v.map Prod.fst)) (stop : a.1.nest 0 = none) :
    ¬Single ((v ++ a :: x).map Prod.fst) := by
  intro whole
  rw [Single, List.map_append, nesting_append, show nesting 0 (v.map Prod.fst) = some 0 from single,
    List.map_cons, Option.bind_some, nesting_cons, stop] at whole
  cases whole

/-- An item ends at the first comma or closing bracket outside of its own brackets. -/
theorem Single.end_unique {v w x y : List (Terminal × Text)} {a b : Terminal × Text}
    (first : Single (v.map Prod.fst)) (last : Single (w.map Prod.fst))
    (stop : a.1.nest 0 = none) (stop' : b.1.nest 0 = none) (same : v ++ a :: x = w ++ b :: y) :
    v = w ∧ a = b ∧ x = y := by
  rcases List.append_eq_append_iff.mp same with ⟨z, rfl, rest⟩ | ⟨z, rfl, rest⟩
  · cases z with
    | nil =>
      obtain ⟨rfl, rfl⟩ := List.cons.inj rest
      exact ⟨(List.append_nil v).symm, rfl, rfl⟩
    | cons c z =>
      obtain ⟨rfl, -⟩ := List.cons.inj rest
      exact absurd last (first.not_past stop)
  · cases z with
    | nil =>
      obtain ⟨rfl, rfl⟩ := List.cons.inj rest
      exact ⟨List.append_nil w, rfl, rfl⟩
    | cons c z =>
      obtain ⟨rfl, -⟩ := List.cons.inj rest
      exact absurd first (last.not_past stop')

/-- Tokens are split into the items of a list in one way only. -/
theorem Following.unique {last : Punctuator}
    (closes : (Terminal.punctuator last).nest 0 = none ∧ last ≠ .comma)
    {items items' : List (List (Terminal × Text))} {item item' w w' x y : List (Terminal × Text)}
    (first : Following last items w) (second : Following last items' w')
    (each : ∀ i ∈ item :: items, Single (i.map Prod.fst))
    (each' : ∀ i ∈ item' :: items', Single (i.map Prod.fst))
    (same : item ++ (w ++ x) = item' ++ (w' ++ y)) :
    item :: items = item' :: items' ∧ x = y := by
  induction first generalizing item item' items' w' with
  | @close t closed =>
    have stop : t.1.nest 0 = none := closed ▸ closes.1
    cases second with
    | @close t' closed' =>
      obtain ⟨rfl, -, rfl⟩ := Single.end_unique (each item (by simp)) (each' item' (by simp)) stop
        (closed' ▸ closes.1) same
      exact ⟨rfl, rfl⟩
    | @comma t' _ _ _ comma _ =>
      obtain ⟨-, rfl, -⟩ := Single.end_unique (each item (by simp)) (each' item' (by simp)) stop
        (comma ▸ rfl) same
      exact absurd (Terminal.punctuator.inj (closed.symm.trans comma)) closes.2
  | @comma t next w items comma _ ih =>
    have stop : t.1.nest 0 = none := comma ▸ rfl
    cases second with
    | @close t' closed' =>
      obtain ⟨-, rfl, -⟩ := Single.end_unique (each item (by simp)) (each' item' (by simp)) stop
        (closed' ▸ closes.1) same
      exact absurd (Terminal.punctuator.inj (closed'.symm.trans comma)) closes.2
    | @comma t' next' w' items' comma' following =>
      obtain ⟨rfl, -, others⟩ := Single.end_unique (each item (by simp)) (each' item' (by simp))
        stop (comma' ▸ rfl) same
      have others : next ++ (w ++ x) = next' ++ (w' ++ y) := by simpa using others
      obtain ⟨tail, rfl⟩ := ih following (fun i member => each i (List.mem_cons_of_mem _ member))
        (fun i member => each' i (List.mem_cons_of_mem _ member)) others
      exact ⟨by rw [tail], rfl⟩

/-- What stands between two brackets ends at the closing one. -/
theorem Balanced.end_unique {v w x y : List (Terminal × Text)} {a b : Terminal × Text}
    (first : Balanced (v.map Prod.fst)) (last : Balanced (w.map Prod.fst))
    (closes : a.1.nest 1 = some 0) (closes' : b.1.nest 1 = some 0)
    (same : v ++ a :: x = w ++ b :: y) :
    v = w ∧ x = y := by
  have past {v z : List (Terminal × Text)} {a : Terminal × Text}
      (inner : Balanced (v.map Prod.fst)) (closes : a.1.nest 1 = some 0)
      (whole : Balanced ((v ++ a :: z).map Prod.fst)) : False := by
    have front : (v ++ [a]).map Prod.fst <+: (v ++ a :: z).map Prod.fst :=
      List.IsPrefix.map _ ⟨z, by simp⟩
    obtain ⟨k, stays⟩ := whole.inside _ front
    rw [List.map_append, nesting_append, inner.whole, List.map_singleton, Option.bind_some,
      nesting_cons, closes] at stays
    cases stays
  rcases List.append_eq_append_iff.mp same with ⟨z, rfl, rest⟩ | ⟨z, rfl, rest⟩
  · cases z with
    | nil => exact ⟨(List.append_nil v).symm, (List.cons.inj rest).2⟩
    | cons c z =>
      obtain ⟨rfl, -⟩ := List.cons.inj rest
      exact (past first closes last).elim
  · cases z with
    | nil => exact ⟨List.append_nil w, (List.cons.inj rest).2.symm⟩
    | cons c z =>
      obtain ⟨rfl, -⟩ := List.cons.inj rest
      exact (past last closes' first).elim

/-- What the items of a list may stand behind: nothing, or a comma. -/
def Ahead (z : List (Terminal × Text)) : Prop :=
  z = [] ∨ ∃ y c, z = y ++ [c] ∧ c.1 = .punctuator .comma

/-- No comma outside of brackets stands in an item. -/
theorem Ahead.nothing {w x z : List (Terminal × Text)} (ahead : Ahead (x ++ z))
    (single : Single ((z ++ w).map Prod.fst)) (last : Single (w.map Prod.fst)) : z = [] := by
  rcases List.eq_nil_or_concat z with rfl | ⟨y, c, rfl⟩
  · rfl
  have comma : c.1 = .punctuator .comma := by
    rcases ahead with none | ⟨_, d, same, comma⟩
    · simp at none
    · rw [List.concat_eq_append, ← List.append_assoc] at same
      obtain rfl := List.singleton_inj.mp (List.append_inj' same rfl).2
      exact comma
  rw [List.concat_eq_append, List.append_assoc, Single, List.map_append, nesting_append] at single
  obtain ⟨depth, -, behind⟩ := Option.bind_eq_some_iff.mp single
  rw [List.singleton_append, List.map_cons, nesting_cons, comma] at behind
  obtain ⟨inner, inside, behind⟩ := Option.bind_eq_some_iff.mp behind
  have raised := nesting_add (show nesting 0 (w.map Prod.fst) = some 0 from last) inner
  rw [Nat.zero_add, behind] at raised
  obtain rfl := Option.some.inj raised
  cases depth <;> cases inside

/-- An item starts behind the last comma outside of its own brackets. -/
theorem Single.start_unique {v w x y : List (Terminal × Text)} (first : Single (v.map Prod.fst))
    (last : Single (w.map Prod.fst)) (ahead : Ahead x) (ahead' : Ahead y)
    (same : x ++ v = y ++ w) : v = w := by
  rcases List.append_eq_append_iff.mp same with ⟨z, rfl, rfl⟩ | ⟨z, rfl, rfl⟩
  · rw [ahead'.nothing first last, List.nil_append]
  · rw [ahead.nothing last first, List.nil_append]

theorem balanced_comma : Balanced [.punctuator .comma] where
  whole := rfl
  inside us front := by
    rcases List.prefix_cons_iff.mp front with rfl | ⟨vs, rfl, behind⟩
    · exact ⟨0, rfl⟩
    · rw [List.prefix_nil.mp behind]
      exact ⟨0, rfl⟩

theorem Following.balanced {last : Punctuator} {items : List (List (Terminal × Text))}
    {item w : List (Terminal × Text)} (following : Following last items w)
    (each : ∀ i ∈ item :: items, Balanced (i.map Prod.fst)) : ∃ inner closing,
      item ++ w = inner ++ [closing] ∧ closing.1 = .punctuator last ∧
        Balanced (inner.map Prod.fst) := by
  induction following generalizing item with
  | @close t closed => exact ⟨item, t, rfl, closed, each item (by simp)⟩
  | @comma t next w items comma _ ih =>
    obtain ⟨inner, closing, same, closed, balanced⟩ :=
      @ih next fun i member => each i (by simp [member])
    refine ⟨item ++ t :: inner, closing, by simp [same], closed, ?_⟩
    have front : Balanced [t.1] := comma ▸ balanced_comma
    rw [List.map_append]
    exact (each item (by simp)).append (front.append balanced)

/-- The first item of a list ends where anything like it ends. -/
theorem Following.front {last : Punctuator} (closes : (Terminal.punctuator last).nest 0 = none)
    {items : List (List (Terminal × Text))} {item v w x : List (Terminal × Text)}
    {stop : Terminal × Text} (following : Following last items w) (own : Single (item.map Prod.fst))
    (single : Single (v.map Prod.fst)) (stops : stop.1.nest 0 = none)
    (same : item ++ w = v ++ stop :: x) : item = v ∧ w = stop :: x := by
  have ended : ∃ t y, w = t :: y ∧ t.1.nest 0 = none := by
    cases following with
    | close closed => exact ⟨_, _, rfl, closed ▸ closes⟩
    | comma comma _ => exact ⟨_, _, rfl, comma ▸ rfl⟩
  obtain ⟨t, y, rfl, ends⟩ := ended
  obtain ⟨rfl, rfl, rfl⟩ := Single.end_unique own single ends stops same
  exact ⟨rfl, rfl⟩

/-- The last item of a list stands behind nothing or a comma, and before the closing
bracket. -/
theorem Following.getLast {last : Punctuator} {items : List (List (Terminal × Text))}
    {w : List (Terminal × Text)} (following : Following last items w)
    (item : List (Terminal × Text)) : ∃ front i z closing,
      item :: items = front ++ [i] ∧ item ++ w = z ++ i ++ [closing] ∧ Ahead z := by
  induction following generalizing item with
  | @close t _ => exact ⟨[], item, [], t, rfl, rfl, .inl rfl⟩
  | @comma t next w items comma _ ih =>
    obtain ⟨front, i, z, closing, listed, same, ahead⟩ := ih next
    refine ⟨item :: front, i, item ++ t :: z, closing, by rw [listed]; rfl, by simp [same], .inr ?_⟩
    rcases ahead with rfl | ⟨y, c, rfl, comma'⟩
    · exact ⟨item, t, rfl, comma⟩
    · exact ⟨item ++ t :: y, c, by simp, comma'⟩

namespace Listing

variable {l : Listing} {tree : Tree} {items : List (List (Terminal × Text))}
  {w : List (Terminal × Text)}

theorem following_more (valid : tree.valid grammar = true)
    (symbol : tree.symbol = .nonterminal l.more) (following : Following l.last items w) :
    Following l.last ((tree.parts l.item).map Tree.bare ++ items) (tree.bare ++ w) := by
  induction tree using Tree.induct generalizing items w with
  | leaf t => cases symbol
  | node p children ih =>
    obtain ⟨member, body, valid⟩ := Tree.valid_node.mp valid
    have head : p.head = l.more := Symbol.nonterminal.inj symbol
    have other : p.head ≠ l.item := head ▸ l.apart.2
    rw [Tree.parts_node other, Tree.bare_node]
    rcases l.rests p (head ▸ member) with shape | shape <;> rw [shape] at body
    · obtain ⟨first, _, rfl, comma, body⟩ := List.map_eq_cons_iff.mp body
      obtain ⟨item, rfl, kind⟩ := List.map_eq_singleton_iff.mp body
      obtain ⟨t, rfl, terminal⟩ := Tree.leaf_of_symbol comma
      have next : Following l.last (item.bare :: items) (t.bare :: (item.bare ++ w)) :=
        .comma terminal following
      simpa [Tree.partsOfAll, Tree.parts, Tree.parts_self kind, Tree.bare_leaf] using next
    · obtain ⟨front, _, rfl, more, body⟩ := List.map_eq_cons_iff.mp body
      obtain ⟨first, _, rfl, comma, body⟩ := List.map_eq_cons_iff.mp body
      obtain ⟨item, rfl, kind⟩ := List.map_eq_singleton_iff.mp body
      obtain ⟨t, rfl, terminal⟩ := Tree.leaf_of_symbol comma
      have next : Following l.last (item.bare :: items) (t.bare :: (item.bare ++ w)) :=
        .comma terminal following
      have all := ih front (by simp) (valid front (by simp)) more next
      simpa [Tree.partsOfAll, Tree.parts, Tree.parts_self kind, Tree.bare_leaf] using all

theorem following_ending {rest : List Tree} (symbols : rest.map Tree.symbol ∈ endings l.last) :
    ∃ items, Following l.last items (rest.flatMap Tree.bare) ∧
      Tree.partsOfAll l.item rest = [] ∧ (items = [] ∨ items = [[]]) := by
  simp only [endings, List.mem_cons, List.not_mem_nil, or_false] at symbols
  rcases symbols with symbols | symbols
  · obtain ⟨c, rfl, closes⟩ := List.map_eq_singleton_iff.mp symbols
    obtain ⟨t, rfl, closed⟩ := Tree.leaf_of_symbol closes
    exact ⟨[], .close closed, rfl, .inl rfl⟩
  · obtain ⟨c, _, rfl, comma, symbols⟩ := List.map_eq_cons_iff.mp symbols
    obtain ⟨d, rfl, closes⟩ := List.map_eq_singleton_iff.mp symbols
    obtain ⟨mark, rfl, separates⟩ := Tree.leaf_of_symbol comma
    obtain ⟨t, rfl, closed⟩ := Tree.leaf_of_symbol closes
    exact ⟨[[]], .comma separates (.close closed), rfl, .inr rfl⟩

/-- A list is an opening bracket, its items, and a closing bracket, perhaps with a comma
before it. That comma looks like one more item without tokens. -/
theorem following (valid : tree.valid grammar = true)
    (symbol : tree.symbol = .nonterminal l.head) :
    ∃ opening item items w, tree.bare = opening :: (item ++ w) ∧ Following l.last items w ∧
      (item :: items = (tree.parts l.item).map Tree.bare ∨
        item :: items = (tree.parts l.item).map Tree.bare ++ [[]]) := by
  cases tree with
  | leaf t => cases symbol
  | node p children =>
    obtain ⟨member, body, valid⟩ := Tree.valid_node.mp valid
    have head : p.head = l.head := Symbol.nonterminal.inj symbol
    rw [Tree.parts_node (head ▸ l.apart.1), Tree.bare_node]
    obtain shape | ⟨ending, ends, shape | shape⟩ := l.bodies p (head ▸ member) <;>
      rw [shape] at body <;>
      obtain ⟨first, _, rfl, opens, body⟩ := List.map_eq_cons_iff.mp body
    · obtain ⟨last, rfl, closes⟩ := List.map_eq_singleton_iff.mp body
      obtain ⟨opening, rfl, -⟩ := Tree.leaf_of_symbol opens
      obtain ⟨t, rfl, closed⟩ := Tree.leaf_of_symbol closes
      exact ⟨opening.bare, [], [], [t.bare], rfl, .close closed, .inr rfl⟩
    · obtain ⟨item, rest, rfl, kind, rfl⟩ := List.map_eq_cons_iff.mp body
      obtain ⟨opening, rfl, -⟩ := Tree.leaf_of_symbol opens
      obtain ⟨items, following, none, rfl | rfl⟩ := following_ending ends
      · refine ⟨opening.bare, item.bare, _, _, rfl, following, .inl ?_⟩
        simp [Tree.partsOfAll, Tree.parts, Tree.parts_self kind, none]
      · refine ⟨opening.bare, item.bare, _, _, rfl, following, .inr ?_⟩
        simp [Tree.partsOfAll, Tree.parts, Tree.parts_self kind, none]
    · obtain ⟨item, _, rfl, kind, body⟩ := List.map_eq_cons_iff.mp body
      obtain ⟨front, rest, rfl, more, rfl⟩ := List.map_eq_cons_iff.mp body
      obtain ⟨opening, rfl, -⟩ := Tree.leaf_of_symbol opens
      obtain ⟨items, following, none, rfl | rfl⟩ := following_ending ends
      · have all := following_more (valid front (by simp)) more following
        refine ⟨opening.bare, item.bare, _, _, rfl, all, .inl ?_⟩
        simp [Tree.partsOfAll, Tree.parts, Tree.parts_self kind, none]
      · have all := following_more (valid front (by simp)) more following
        refine ⟨opening.bare, item.bare, _, _, rfl, all, .inr ?_⟩
        simp [Tree.partsOfAll, Tree.parts, Tree.parts_self kind, none]

theorem parts_single (valid : tree.valid grammar = true) {part : Tree}
    (member : part ∈ tree.parts l.item) : Single (part.bare.map Prod.fst) := by
  obtain ⟨symbol, within⟩ := Tree.mem_parts member
  have derives := Grammar.Derives.of_tree (within.valid valid)
  rw [symbol] at derives
  rw [Tree.bare_terminals]
  exact derives.single l.single

/-- The items of a list, the empty one at the end included, have no comma outside of their
brackets. -/
theorem following_single (valid : tree.valid grammar = true)
    (symbol : tree.symbol = .nonterminal l.head) :
    ∃ opening item items w, tree.bare = opening :: (item ++ w) ∧ Following l.last items w ∧
      (∀ i ∈ item :: items, Single (i.map Prod.fst)) ∧
      (item :: items = (tree.parts l.item).map Tree.bare ∨
        item :: items = (tree.parts l.item).map Tree.bare ++ [[]]) := by
  obtain ⟨opening, item, items, w, whole, following, listed⟩ := l.following valid symbol
  refine ⟨opening, item, items, w, whole, following, ?_, listed⟩
  have own : ∀ i ∈ (tree.parts l.item).map Tree.bare, Single (i.map Prod.fst) := by
    intro i member
    obtain ⟨part, listed, rfl⟩ := List.mem_map.mp member
    exact parts_single valid listed
  intro i member
  rcases listed with listed | listed <;> rw [listed] at member
  · exact own i member
  · rcases List.mem_append.mp member with member | member
    · exact own i member
    · rw [List.mem_singleton.mp member]
      exact .nil

/-- However a list is derived, its items are made of the tokens between the commas. -/
theorem parts_eq (valid : tree.valid grammar = true) (symbol : tree.symbol = .nonterminal l.head)
    {opening : Terminal × Text} {item x : List (Terminal × Text)}
    (following : Following l.last items w)
    (each : ∀ i ∈ item :: items, i ≠ [] ∧ Single (i.map Prod.fst))
    (same : tree.bare ++ x = opening :: (item ++ w)) :
    (tree.parts l.item).map Tree.bare = item :: items ∧ x = [] := by
  obtain ⟨opening', item', items', w', whole, following', each', listed⟩ :=
    l.following_single valid symbol
  rw [whole, List.cons_append, List.append_assoc] at same
  obtain ⟨tail, rfl⟩ := Following.unique (y := []) l.closes following' following each'
    (fun i member => (each i member).2) (by simpa using (List.cons.inj same).2)
  rw [tail] at listed
  refine ⟨?_, rfl⟩
  rcases listed with listed | listed
  · exact listed.symm
  · -- A comma at the end would make an item without tokens.
    have empty : [] ∈ item :: items := by simp [listed]
    exact absurd rfl (each [] empty).1

/-- Between brackets that follow one another there are no items. -/
theorem parts_none (valid : tree.valid grammar = true) (symbol : tree.symbol = .nonterminal l.head)
    (filled : (Symbol.nonterminal l.item).mayBeEmpty = false) {opening closing : Terminal × Text}
    (same : tree.bare = [opening, closing]) : tree.parts l.item = [] := by
  obtain ⟨opening', item, items, w, whole, following, -, listed⟩ := l.following_single valid symbol
  have only : item ++ w = [closing] := (List.cons.inj (whole.symm.trans same)).2
  obtain rfl : items = [] := by
    cases following with
    | close => rfl
    | comma _ more => cases more <;> simp [List.append_eq_singleton_iff] at only
  cases parts : tree.parts l.item with
  | nil => rfl
  | cons part rest =>
    have member : part ∈ tree.parts l.item := parts ▸ List.mem_cons_self
    obtain ⟨kind, within⟩ := Tree.mem_parts member
    have some : part.bare ≠ [] := fun none =>
      Tree.word_ne_nil (within.valid valid) (kind ▸ filled) (List.map_eq_nil_iff.mp none)
    have empty : item = [] := by
      cases following
      exact (List.append_eq_singleton_iff.mp only).elim And.left (by simp)
    rcases listed with listed | listed <;> simp_all

/-- What stands between the brackets of a list closes no bracket but its own. -/
theorem enclosed (valid : tree.valid grammar = true) (symbol : tree.symbol = .nonterminal l.head) :
    ∃ opening inner closing, tree.bare = opening :: (inner ++ [closing]) ∧
      closing.1 = .punctuator l.last ∧ Balanced (inner.map Prod.fst) := by
  obtain ⟨opening, item, items, w, whole, following, each, -⟩ := l.following_single valid symbol
  obtain ⟨inner, closing, same, closed, balanced⟩ :=
    following.balanced fun i member => (each i member).balanced
  exact ⟨opening, inner, closing, by rw [whole, same], closed, balanced⟩

variable {first second v x z : List (Terminal × Text)} {opening stop closing : Terminal × Text}

/-- The first item of a list is made of the tokens up to where one item ends. -/
theorem first_part (valid : tree.valid grammar = true) (symbol : tree.symbol = .nonterminal l.head)
    (same : tree.bare = opening :: (first ++ stop :: x)) (filled : first ≠ [])
    (single : Single (first.map Prod.fst)) (stops : stop.1.nest 0 = none) :
    ∃ part rest, tree.parts l.item = part :: rest ∧ part.bare = first := by
  obtain ⟨opening', item, items, w, whole, following, each, listed⟩ :=
    l.following_single valid symbol
  rw [whole] at same
  obtain ⟨rfl, -⟩ := following.front l.closes.1 (each item (by simp)) single stops
    (List.cons.inj same).2
  cases parts : tree.parts l.item with
  | nil => simp [parts, filled] at listed
  | cons part rest =>
    rw [parts] at listed
    exact ⟨part, rest, rfl, by rcases listed with listed | listed <;> simp_all⟩

/-- The second item of a list is made of the tokens between the first comma and where one
more item ends. -/
theorem second_part (valid : tree.valid grammar = true) (symbol : tree.symbol = .nonterminal l.head)
    {comma : Terminal × Text}
    (same : tree.bare = opening :: (first ++ comma :: (second ++ stop :: x)))
    (separates : comma.1 = .punctuator .comma) (filled : second ≠ [])
    (single : Single (first.map Prod.fst)) (single' : Single (second.map Prod.fst))
    (stops : stop.1.nest 0 = none) :
    ∃ part part' rest, tree.parts l.item = part :: part' :: rest ∧ part'.bare = second := by
  obtain ⟨opening', item, items, w, whole, following, each, listed⟩ :=
    l.following_single valid symbol
  rw [whole] at same
  obtain ⟨rfl, behind⟩ := following.front l.closes.1 (each item (by simp)) single
    (separates ▸ rfl) (List.cons.inj same).2
  cases following with
  | close closed =>
    obtain ⟨rfl, -⟩ := List.cons.inj behind
    exact absurd (Terminal.punctuator.inj (closed.symm.trans separates)) l.closes.2
  | @comma t next w items _ following =>
    obtain ⟨rfl, -⟩ := following.front l.closes.1 (each next (by simp)) single' stops
      (List.cons.inj behind).2
    rcases parts : tree.parts l.item with _ | ⟨part, _ | ⟨part', rest⟩⟩
    · simp [parts] at listed
    · simp [parts, filled] at listed
    · rw [parts] at listed
      exact ⟨part, part', rest, rfl, by rcases listed with listed | listed <;> simp_all⟩

/-- The last item of a list is made of the tokens in front of the closing bracket. -/
theorem last_part (valid : tree.valid grammar = true) (symbol : tree.symbol = .nonterminal l.head)
    (same : tree.bare = opening :: (z ++ v ++ [closing])) (ahead : Ahead z) (filled : v ≠ [])
    (single : Single (v.map Prod.fst)) :
    ∃ front part, tree.parts l.item = front ++ [part] ∧ part.bare = v := by
  obtain ⟨opening', item, items, w, whole, following, each, listed⟩ :=
    l.following_single valid symbol
  obtain ⟨front, i, z', closing', items, ends, ahead'⟩ := following.getLast item
  rw [whole, ends] at same
  have last : i = v := by
    refine Single.start_unique (each i (by simp [items])) single ahead' ahead ?_
    exact (List.append_inj' (List.cons.inj same).2 rfl).1
  rw [items, last] at listed
  rcases listed with listed | listed
  · obtain ⟨front', behind, parts, -, tail⟩ := List.append_eq_map_iff.mp listed
    obtain ⟨part, rfl, here⟩ := List.map_eq_singleton_iff.mp tail
    exact ⟨front', part, parts, here⟩
  · exact absurd (List.singleton_inj.mp (List.append_inj' listed rfl).2) filled

end Listing

end StyleSplit.Script
