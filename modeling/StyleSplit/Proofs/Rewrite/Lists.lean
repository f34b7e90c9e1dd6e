import StyleSplit.Proofs.Precompile.Entries

/-! Lists that are put together from parts of other lists. Expressions and spreads may always
follow among arguments. Entries may follow among those of an object literal if they could stand
alone between its braces. -/
namespace StyleSplit.Script

variable {n : Nonterminal} {ts : List Terminal} {u v : List (Terminal × Text)}
  {parts : List (List (Terminal × Text))}

theorem following_eq (last : Punctuator) (parts : List (List (Terminal × Text))) :
    following last parts = parts.flatMap (Punctuator.comma.bare :: ·) ++ [last.bare] := by
  induction parts with
  | nil => rfl
  | cons part rest ih => rw [following, ih, List.flatMap_cons]; simp

theorem expression_bodies : ∀ p ∈ grammar.productions .expression,
    p.body = [.nonterminal .assignment] ∨ p.body =
      [.nonterminal .expression, .terminal (.punctuator .comma), .nonterminal .assignment] := by
  decide +kernel

theorem derives_more_element (front : grammar.Derives [.nonterminal .moreElements] ts)
    {us : List Terminal} (element : grammar.Derives [.nonterminal .element] us) :
    grammar.Derives [.nonterminal .moreElements] (ts ++ .punctuator .comma :: us) :=
  derives_body (front.append ((Grammar.Derives.terminal (.punctuator .comma)).append element)) rfl

/-- An expression may follow among arguments. The parts between its commas are then arguments
of their own. -/
theorem derives_more_expression (front : grammar.Derives [.nonterminal .moreElements] ts)
    {tree : Tree} (valid : tree.valid grammar = true)
    (symbol : tree.symbol = .nonterminal .expression) :
    grammar.Derives [.nonterminal .moreElements]
      (ts ++ .punctuator .comma :: tree.word.map Token.terminal) := by
  induction tree using Tree.induct with
  | leaf t => cases symbol
  | node p children ih =>
    obtain ⟨member, body, each⟩ := Tree.valid_node.mp valid
    obtain shape | shape := expression_bodies p (Symbol.nonterminal.inj symbol ▸ member) <;>
      rw [shape] at body
    · obtain ⟨only, rfl, kind⟩ := List.map_eq_singleton_iff.mp body
      have operand := Grammar.Derives.of_tree (each only (by simp))
      rw [kind] at operand
      simpa [Tree.word, Tree.words] using derives_more_element front (derives_body operand rfl)
    · obtain ⟨first, _, rfl, kind, body⟩ := List.map_eq_cons_iff.mp body
      obtain ⟨mark, _, rfl, point, body⟩ := List.map_eq_cons_iff.mp body
      obtain ⟨last, rfl, operand⟩ := List.map_eq_singleton_iff.mp body
      obtain ⟨mark, rfl, separates⟩ := Tree.leaf_of_symbol point
      have before := ih first (by simp) (each first (by simp)) kind
      have behind := Grammar.Derives.of_tree (each last (by simp))
      rw [operand] at behind
      simpa [Tree.word, Tree.words, separates] using
        derives_more_element before (derives_body behind rfl)

/-- Tokens that an argument may be copied from. -/
def Argument (ts : List Terminal) : Prop :=
  grammar.Derives [.nonterminal .expression] ts ∨ grammar.Derives [.nonterminal .spread] ts

theorem derives_more (front : grammar.Derives [.nonterminal .moreElements] ts) {us : List Terminal}
    (argument : Argument us) :
    grammar.Derives [.nonterminal .moreElements] (ts ++ .punctuator .comma :: us) := by
  rcases argument with expression | spread
  · obtain ⟨tree, symbol, valid, rfl⟩ := expression.tree
    exact derives_more_expression front valid symbol
  · exact derives_more_element front (derives_body spread rfl)

theorem derives_others (front : grammar.Derives [.nonterminal .moreElements] ts)
    (each : ∀ part ∈ parts, Argument (part.map Prod.fst)) :
    grammar.Derives [.nonterminal .moreElements]
      (ts ++ (parts.flatMap (Punctuator.comma.bare :: ·)).map Prod.fst) := by
  induction parts generalizing ts with
  | nil => simpa using front
  | cons part rest ih =>
    have next := derives_more front (each part (by simp))
    have all := ih next fun part member => each part (by simp [member])
    simpa [Punctuator.bare] using all

/-- Arguments may be copied behind two object literals. -/
theorem derives_arguments (first : grammar.Derives [.nonterminal .assignment] (u.map Prod.fst))
    (second : grammar.Derives [.nonterminal .assignment] (v.map Prod.fst))
    (each : ∀ part ∈ parts, Argument (part.map Prod.fst)) :
    grammar.Derives [.nonterminal .arguments]
      ((listing .openParen .closeParen (u :: v :: parts)).map Prod.fst) := by
  have opens := Grammar.Derives.terminal (g := grammar) (.punctuator .openParen)
  have closes := Grammar.Derives.terminal (g := grammar) (.punctuator .closeParen)
  have comma := Grammar.Derives.terminal (g := grammar) (.punctuator .comma)
  have description : grammar.Derives [.nonterminal .element] _ := derives_body first rfl
  have options : grammar.Derives [.nonterminal .element] _ := derives_body second rfl
  have front : grammar.Derives [.nonterminal .moreElements] _ :=
    derives_body (comma.append options) rfl
  have whole : grammar.Derives [.nonterminal .arguments] _ :=
    derives_body (opens.append (description.append ((derives_others front each).append closes))) rfl
  simpa [listing, following, following_eq, Punctuator.bare] using whole

/-- Only parameters may end with a comma. -/
def commaEnds : List Symbol := [.terminal (.punctuator .comma), .nonterminal .parameters]

theorem getLast?_ne_comma (derives : grammar.Derives [.nonterminal n] ts)
    (other : n ≠ .parameters) : ts.getLast? ≠ some (.punctuator .comma) := by
  obtain ⟨tree, symbol, valid, rfl⟩ := derives.tree
  intro comma
  rw [List.getLast?_map, Option.map_eq_some_iff] at comma
  obtain ⟨t, last, comma⟩ := comma
  have closes : ∀ n, ∀ p ∈ grammar.productions n, p.closes commaEnds = true :=
    productions_all (by decide)
  have among := Tree.last_mem closes valid last (by rw [comma]; decide)
  simp only [symbol, commaEnds, List.mem_cons, List.not_mem_nil, or_false, reduceCtorEq, false_or,
    Symbol.nonterminal.injEq] at among
  exact other among

theorem exists_tree (derives : grammar.Derives [.nonterminal n] (u.map Prod.fst)) :
    ∃ tree : Tree, tree.valid grammar = true ∧ tree.symbol = .nonterminal n ∧ tree.bare = u := by
  have same : (u.map fun piece => (⟨piece.1, piece.2, ⟨0, 0⟩⟩ : Token)).map Token.bare = u := by
    simp [Function.comp_def, Token.bare]
  rw [← same, map_bare] at derives
  obtain ⟨tree, symbol, valid, word⟩ := derives.retoken
  exact ⟨tree, valid, symbol, by rw [Tree.bare, word, same]⟩

theorem Following.terminals {last : Punctuator} {items : List (List (Terminal × Text))}
    {w : List (Terminal × Text)} (following : Following last items w) :
    w.map Prod.fst = (items.flatMap (Punctuator.comma.bare :: ·)).map Prod.fst ++
      [.punctuator last] := by
  induction following with
  | close closed => simp [closed]
  | comma comma _ ih => simp [comma, ih, Punctuator.bare]

variable {x c : List (Terminal × Text)}

/-- Tokens that are entries with commas between them, and none at the end. -/
def Entries (x : List (Terminal × Text)) : Prop :=
  ∃ item items,
    (∀ i ∈ item :: items, grammar.Derives [.nonterminal .property] (i.map Prod.fst)) ∧
      x.map Prod.fst = (item ++ items.flatMap (Punctuator.comma.bare :: ·)).map Prod.fst

theorem Entries.literal (entries : Entries x) : grammar.Derives [.nonterminal .objectLiteral]
    ((Punctuator.openBrace.bare :: (x ++ [Punctuator.closeBrace.bare])).map Prod.fst) := by
  obtain ⟨item, items, each, same⟩ := entries
  have literal := derives_literal each
  rw [listing, following_eq] at literal
  simpa [same] using literal

theorem Entries.append (entries : Entries x)
    (last : grammar.Derives [.nonterminal .property] (c.map Prod.fst)) :
    Entries (x ++ Punctuator.comma.bare :: c) := by
  obtain ⟨item, items, each, same⟩ := entries
  refine ⟨item, items ++ [c], fun i member => ?_, by simp [same]⟩
  rw [← List.cons_append, List.mem_append, List.mem_singleton] at member
  rcases member with member | rfl
  · exact each i member
  · exact last

theorem property_parts {tree : Tree} (valid : tree.valid grammar = true)
    {i : List (Terminal × Text)} (member : i ∈ (tree.parts .property).map Tree.bare) :
    grammar.Derives [.nonterminal .property] (i.map Prod.fst) := by
  obtain ⟨part, listed, rfl⟩ := List.mem_map.mp member
  obtain ⟨kind, within⟩ := Tree.mem_parts listed
  rw [Tree.bare_terminals, ← kind]
  exact .of_tree (within.valid valid)

/-- What stands between the braces of an object literal are its entries, unless there is
nothing, or a comma at the end. -/
theorem entries_of_literal (derives : grammar.Derives [.nonterminal .objectLiteral]
      ((Punctuator.openBrace.bare :: (x ++ [Punctuator.closeBrace.bare])).map Prod.fst))
    (some : x ≠ []) (ends : (x.map Prod.fst).getLast? ≠ .some (.punctuator .comma)) :
    Entries x := by
  obtain ⟨tree, valid, symbol, bare⟩ := exists_tree derives
  obtain ⟨opening, item, items, w, whole, following, -, listed⟩ :=
    Listing.objectLiteral.following_single valid symbol
  have inner := congrArg (List.map Prod.fst) (List.cons.inj (bare.symm.trans whole)).2
  rw [List.map_append, List.map_append, following.terminals, ← List.append_assoc] at inner
  have same := (List.append_inj' inner rfl).1
  rcases listed with listed | listed
  · refine ⟨item, items, fun i member => property_parts valid ?_, by rw [List.map_append, same]⟩
    exact listed ▸ member
  · cases parts : (tree.parts .property).map Tree.bare with
    | nil =>
      rw [show Listing.objectLiteral.item = .property from rfl, parts] at listed
      obtain ⟨rfl, rfl⟩ := List.cons.inj listed
      exact absurd (by simpa using same) some
    | cons first rest =>
      rw [show Listing.objectLiteral.item = .property from rfl, parts] at listed
      obtain ⟨rfl, rfl⟩ := List.cons.inj listed
      refine absurd ?_ ends
      rw [same]
      simp [Punctuator.bare]

/-- The entries in front of the last one. -/
theorem entries_in_front (derives : grammar.Derives [.nonterminal .objectLiteral]
      ((Punctuator.openBrace.bare :: (x ++ Punctuator.comma.bare ::
        (c ++ [Punctuator.closeBrace.bare]))).map Prod.fst))
    (filled : c ≠ []) (single : Single (c.map Prod.fst)) : Entries x := by
  obtain ⟨tree, valid, symbol, bare⟩ := exists_tree derives
  obtain ⟨opening, item, items, w, whole, following, each, listed⟩ :=
    Listing.objectLiteral.following_single valid symbol
  obtain ⟨front, i, z, closing, parts, ends, ahead⟩ := following.getLast item
  have inner := (List.cons.inj (bare.symm.trans whole)).2
  have split : x ++ [Punctuator.comma.bare] ++ c ++ [Punctuator.closeBrace.bare] =
      z ++ i ++ [closing] := by
    rw [← ends, ← inner]
    simp
  have same := (List.append_inj' split rfl).1
  obtain rfl : c = i := single.start_unique (each i (by simp [parts]))
    (.inr ⟨x, _, rfl, rfl⟩) ahead same
  have items' : item :: items = (tree.parts .property).map Tree.bare := by
    refine listed.resolve_right fun extra => ?_
    exact filled (List.singleton_inj.mp (List.append_inj' (parts.symm.trans extra) rfl).2)
  have terminals := congrArg (List.map Prod.fst) inner
  simp only [List.map_append, following.terminals] at terminals
  cases front with
  | nil =>
    obtain ⟨rfl, rfl⟩ := List.cons.inj parts
    have lengths := congrArg List.length terminals
    simp only [List.length_append, List.length_map, List.length_cons, List.length_nil,
      List.flatMap_nil, List.map_nil] at lengths
    omega
  | cons first rest =>
    obtain ⟨rfl, rfl⟩ := List.cons.inj parts
    refine ⟨item, rest, fun i member => property_parts valid (items' ▸ ?_), ?_⟩
    · rcases List.mem_cons.mp member with rfl | member
      · exact List.mem_cons_self
      · exact List.mem_cons_of_mem _ (List.mem_append_left _ member)
    · refine (List.append_left_inj (.punctuator .comma :: (c.map Prod.fst ++
        [.punctuator .closeBrace]))).mp ?_
      simpa [Punctuator.bare, Listing.objectLiteral] using terminals

end StyleSplit.Script
