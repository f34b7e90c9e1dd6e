import StyleSplit.Proofs.Script.Extents

/-! The first and the last tokens of the parts of a script. Nothing that may be empty stands
at an end of a body, so what a part may start or end with is found by following the ends of
the productions. -/
namespace StyleSplit.Script

/-- Only a whole script and the parameters of a function may have no tokens. -/
def Symbol.mayBeEmpty : Symbol → Bool
  | .nonterminal .program | .nonterminal .parameters => true
  | _ => false

/-- Whether a production that makes an expression has something in its body that is not
empty. -/
def Production.hasTokens (p : Production) : Bool :=
  if (Symbol.nonterminal p.head).mayBeEmpty then p.action == .splice || p.action == .parameters
  else p.body.any (!·.mayBeEmpty)

theorem productions_haveTokens : ∀ n, ∀ p ∈ grammar.productions n, p.hasTokens = true :=
  productions_all (by decide)

/-- No symbol that may be empty stands at an end of a body. -/
def Production.filledEnds (p : Production) : Bool :=
  p.body.head?.all (!·.mayBeEmpty) && p.body.getLast?.all (!·.mayBeEmpty)

theorem productions_filledEnds : ∀ n, ∀ p ∈ grammar.productions n, p.filledEnds = true :=
  productions_all (by decide)

/-- A symbol of a set that comes first brings the head into the set. -/
def Production.opens (set : List Symbol) (p : Production) : Bool :=
  p.body.head?.all fun s => !set.contains s || set.contains (.nonterminal p.head)

/-- A symbol of a set that comes last brings the head into the set. -/
def Production.closes (set : List Symbol) (p : Production) : Bool :=
  p.body.getLast?.all fun s => !set.contains s || set.contains (.nonterminal p.head)

namespace Tree

variable {tree : Tree}

theorem word_ne_nil (valid : tree.valid grammar = true) (some : tree.symbol.mayBeEmpty = false) :
    tree.word ≠ [] := by
  induction tree using Tree.induct with
  | leaf t => simp [Tree.word]
  | node p children ih =>
    obtain ⟨member, body, valid⟩ := valid_node.mp valid
    have has := productions_haveTokens p.head p member
    simp only [Tree.symbol] at some
    simp only [Production.hasTokens, some, Bool.false_eq_true, if_false, List.any_eq_true] at has
    obtain ⟨x, listed, filled⟩ := has
    rw [← body] at listed
    obtain ⟨c, child, rfl⟩ := List.mem_map.mp listed
    have filled := ih c child (valid c child) (by simpa using filled)
    intro empty
    exact filled (List.eq_nil_of_infix_nil (empty ▸ word_infix_words child))

/-- What starts with a token of a set is in the set. -/
theorem first_mem {set : List Symbol}
    (closed : ∀ n, ∀ p ∈ grammar.productions n, p.opens set = true)
    (valid : tree.valid grammar = true) {t : Token} (first : tree.word.head? = some t)
    (member : .terminal t.terminal ∈ set) : tree.symbol ∈ set := by
  induction tree using Tree.induct with
  | leaf u =>
    obtain rfl := Option.some.inj first
    exact member
  | node p children ih =>
    obtain ⟨known, body, valid⟩ := valid_node.mp valid
    have opens := closed p.head p known
    have filled := (Bool.and_eq_true_iff.mp (productions_filledEnds p.head p known)).1
    cases children with
    | nil => cases first
    | cons c rest =>
      simp only [Production.opens, ← body, List.map_cons, List.head?_cons, Option.all_some,
        Bool.not_eq_true'] at opens filled
      have some := word_ne_nil (valid c (by simp)) filled
      have front : c.word.head? = Option.some t := by
        rw [← first, word, words, List.head?_append_of_ne_nil _ some]
      have inside := ih c (by simp) (valid c (by simp)) front
      change Symbol.nonterminal p.head ∈ set
      simpa [inside] using opens

/-- What ends with a token of a set is in the set. -/
theorem last_mem {set : List Symbol}
    (closed : ∀ n, ∀ p ∈ grammar.productions n, p.closes set = true)
    (valid : tree.valid grammar = true) {t : Token} (last : tree.word.getLast? = some t)
    (member : .terminal t.terminal ∈ set) : tree.symbol ∈ set := by
  induction tree using Tree.induct with
  | leaf u =>
    obtain rfl := Option.some.inj last
    exact member
  | node p children ih =>
    obtain ⟨known, body, valid⟩ := valid_node.mp valid
    have closes := closed p.head p known
    have filled := (Bool.and_eq_true_iff.mp (productions_filledEnds p.head p known)).2
    obtain rfl | ⟨front, c, rfl⟩ := List.eq_nil_or_concat children
    · cases last
    · simp only [Production.closes, ← body, List.concat_eq_append, List.map_append, List.map_cons,
        List.map_nil, List.getLast?_append, List.getLast?_singleton, Option.some_or, Option.all_some,
        Bool.not_eq_true'] at closes filled
      have child : c ∈ front.concat c := by simp
      have some := word_ne_nil (valid c child) filled
      have back : c.word.getLast? = Option.some t := by
        rw [← last, word, List.concat_eq_append, words_append, words, words, List.append_nil,
          List.getLast?_append_of_ne_nil _ some]
      have inside := ih c child (valid c child) back
      change Symbol.nonterminal p.head ∈ set
      simpa [inside] using closes

end Tree

end StyleSplit.Script
