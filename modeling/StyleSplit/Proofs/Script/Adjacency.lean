import StyleSplit.Proofs.Script.Edges
import StyleSplit.Proofs.Script.Relexing

/-! Neighbouring tokens of a derivation. Between any two of them there is a production with
one part that ends and another one that starts there, so what never stands side by side in
the productions never does in a script. -/
namespace StyleSplit.Script

/-- What may come next in a body: its first symbol, and those behind symbols that may be
empty. -/
def nexts : List Symbol → List Symbol
  | [] => []
  | x :: rest => x :: if x.mayBeEmpty then nexts rest else []

/-- Whether all neighbours in a body pass a check. -/
def neighbours (check : Symbol → Symbol → Bool) : List Symbol → Bool
  | [] => true
  | x :: rest => (nexts rest).all (check x) && neighbours check rest

theorem mem_nexts {middle back : List Symbol} {y : Symbol}
    (empty : ∀ s ∈ middle, s.mayBeEmpty = true) : y ∈ nexts (middle ++ y :: back) := by
  induction middle with
  | nil => simp [nexts]
  | cons s middle ih =>
    have tail := ih fun t member => empty t (by simp [member])
    simp [nexts, empty s (by simp), tail]

theorem neighbours_check {check : Symbol → Symbol → Bool} {front middle back : List Symbol}
    {x y : Symbol} (all : neighbours check (front ++ x :: (middle ++ y :: back)) = true)
    (empty : ∀ s ∈ middle, s.mayBeEmpty = true) : check x y = true := by
  induction front with
  | nil =>
    rw [List.nil_append, neighbours, Bool.and_eq_true] at all
    exact List.all_eq_true.mp all.1 y (mem_nexts empty)
  | cons s front ih =>
    rw [List.cons_append, neighbours, Bool.and_eq_true] at all
    exact ih all.2

namespace Tree

variable {tree : Tree} {x y : List Token}

theorem first_filled {trees : List Tree} (some : words trees ≠ []) : ∃ middle c back,
    trees = middle ++ c :: back ∧ words middle = [] ∧ c.word ≠ [] := by
  induction trees with
  | nil => exact absurd rfl some
  | cons c rest ih =>
    by_cases empty : c.word = []
    · rw [words, empty, List.nil_append] at some
      obtain ⟨middle, d, back, rfl, none, filled⟩ := ih some
      exact ⟨c :: middle, d, back, rfl, by rw [words, empty, none]; rfl, filled⟩
    · exact ⟨[], c, rest, rfl, rfl, empty⟩

/-- A place between the tokens of some parts is inside one of them or between two. -/
theorem words_cut_at {trees : List Tree} (whole : words trees = x ++ y) (left : x ≠ [])
    (right : y ≠ []) :
    (∃ front c back x' y', trees = front ++ c :: back ∧ c.word = x' ++ y' ∧ x' ≠ [] ∧ y' ≠ [] ∧
      x = words front ++ x' ∧ y = y' ++ words back) ∨
    ∃ front c middle d back, trees = front ++ c :: (middle ++ d :: back) ∧ words middle = [] ∧
      c.word ≠ [] ∧ d.word ≠ [] ∧ x = words front ++ c.word ∧ y = d.word ++ words back := by
  induction trees generalizing x with
  | nil =>
    obtain ⟨none, -⟩ := List.append_eq_nil_iff.mp whole.symm
    exact absurd none left
  | cons c rest ih =>
    have between (same : c.word = x) (behind : words rest = y) :
        ∃ front e middle d back, c :: rest = front ++ e :: (middle ++ d :: back) ∧
          words middle = [] ∧ e.word ≠ [] ∧ d.word ≠ [] ∧ x = words front ++ e.word ∧
            y = d.word ++ words back := by
      obtain ⟨middle, d, back, rfl, none, filled⟩ := first_filled (behind ▸ right)
      refine ⟨[], c, middle, d, back, rfl, none, same ▸ left, filled, same.symm, ?_⟩
      rw [← behind, words_append, none]
      rfl
    rw [words] at whole
    rcases List.append_eq_append_iff.mp whole with ⟨z, rfl, behind⟩ | ⟨z, inner, rfl⟩
    · by_cases none : z = []
      · subst none
        exact .inr (between (List.append_nil _).symm behind)
      · rcases ih behind none with ⟨front, d, back, x', y', rfl, word, some, some', rfl, rfl⟩ |
          ⟨front, d, middle, e, back, rfl, none', some, some', rfl, rfl⟩
        · exact .inl ⟨c :: front, d, back, x', y', rfl, word, some, some',
            (List.append_assoc _ _ _).symm, rfl⟩
        · exact .inr ⟨c :: front, d, middle, e, back, rfl, none', some, some',
            (List.append_assoc _ _ _).symm, rfl⟩
    · by_cases none : z = []
      · subst none
        exact .inr (between (by simpa using inner) rfl)
      · exact .inl ⟨[], c, rest, x, z, rfl, inner, left, none, rfl, rfl⟩

/-- Each place between tokens is between two parts of one node. -/
theorem cut_at (word : tree.word = x ++ y) (left : x ≠ []) (right : y ≠ []) :
    ∃ p front c middle d back before behind,
      Within (.node p (front ++ c :: (middle ++ d :: back))) tree ∧ words middle = [] ∧
      c.word ≠ [] ∧ d.word ≠ [] ∧ x = before ++ words front ++ c.word ∧
      y = d.word ++ words back ++ behind := by
  induction tree using Tree.induct generalizing x y with
  | leaf t =>
    have lengths := congrArg List.length word
    have first := List.length_pos_iff.mpr left
    have last := List.length_pos_iff.mpr right
    simp only [Tree.word, List.length_append, List.length_singleton] at lengths
    omega
  | node p children ih =>
    rcases words_cut_at word left right with
      ⟨front, c, back, x', y', rfl, inner, some, some', rfl, rfl⟩ |
      ⟨front, c, middle, d, back, rfl, none, some, some', rfl, rfl⟩
    · obtain ⟨q, front', e, middle, d, back', before, behind, within, none, filled, filled', rfl,
        rfl⟩ := ih c (by simp) inner some some'
      refine ⟨q, front', e, middle, d, back', words front ++ before, behind ++ words back,
        .child (by simp) within, none, filled, filled', ?_, ?_⟩
      · simp only [List.append_assoc]
      · simp only [List.append_assoc]
    · exact ⟨p, front, c, middle, d, back, [], [], .self, none, some, some', rfl, by simp⟩

theorem mayBeEmpty_of_words {trees : List Tree} (valid : ∀ c ∈ trees, c.valid grammar = true)
    (none : words trees = []) : ∀ s ∈ trees.map symbol, s.mayBeEmpty = true := by
  intro s member
  obtain ⟨c, child, rfl⟩ := List.mem_map.mp member
  by_contra filled
  refine word_ne_nil (valid c child) (by simpa using filled) ?_
  exact List.eq_nil_of_infix_nil (none ▸ word_infix_words child)

/-- Parts of a node with nothing between them are neighbours in its production. -/
theorem check_beside {p : Production} {front middle back : List Tree} {c d : Tree}
    {check : Symbol → Symbol → Bool}
    (valid : (node p (front ++ c :: (middle ++ d :: back))).valid grammar = true)
    (none : words middle = []) (checked : neighbours check p.body = true) :
    check c.symbol d.symbol = true := by
  obtain ⟨-, body, each⟩ := valid_node.mp valid
  rw [← body, List.map_append, List.map_cons, List.map_append, List.map_cons] at checked
  refine neighbours_check checked (mayBeEmpty_of_words (fun e inner => each e ?_) none)
  simp [inner]

/-- A place between two tokens is between two parts of a node that have them at their ends. -/
theorem beside_at {a b : Token} {v : List Token} (valid : tree.valid grammar = true)
    (word : tree.word = x ++ a :: b :: v) :
    ∃ p front c middle d back before behind,
      Within (.node p (front ++ c :: (middle ++ d :: back))) tree ∧ words middle = [] ∧
      c.word.getLast? = some a ∧ d.word.head? = some b ∧
      x ++ [a] = before ++ words front ++ c.word ∧ b :: v = d.word ++ words back ++ behind ∧
      c.valid grammar = true ∧ d.valid grammar = true := by
  have word' : tree.word = (x ++ [a]) ++ b :: v := by rw [word, List.append_assoc]; rfl
  obtain ⟨p, front, c, middle, d, back, before, behind, within, none, some, some', left, right⟩ :=
    cut_at word' (by simp) (by simp)
  obtain ⟨-, -, each⟩ := valid_node.mp (within.valid valid)
  refine ⟨p, front, c, middle, d, back, before, behind, within, none, ?_, ?_, left, right,
    each c (by simp), each d (by simp)⟩
  · have last := congrArg List.getLast? left
    rw [List.getLast?_append_of_ne_nil _ some] at last
    simpa using last.symm
  · have first := congrArg List.head? right
    rw [List.append_assoc, List.head?_append_of_ne_nil _ some'] at first
    exact first.symm

/-- What never ends right before what starts with something else is never before it. -/
theorem not_beside (first last : List Symbol) {a b : Token} {v : List Token}
    (valid : tree.valid grammar = true)
    (closes : ∀ n, ∀ p ∈ grammar.productions n, p.closes first = true)
    (opens : ∀ n, ∀ p ∈ grammar.productions n, p.opens last = true)
    (checked : ∀ n, ∀ p ∈ grammar.productions n,
      neighbours (fun c d => !(first.contains c && last.contains d)) p.body = true)
    (word : tree.word = x ++ a :: b :: v) (left : .terminal a.terminal ∈ first)
    (right : .terminal b.terminal ∈ last) : False := by
  obtain ⟨p, front, c, middle, d, back, before, behind, within, none, ends, starts, -, -, inner,
    inner'⟩ := beside_at valid word
  have node := within.valid valid
  have apart := check_beside node none (checked p.head p (valid_node.mp node).1)
  have inside := last_mem closes inner ends left
  have inside' := first_mem opens inner' starts right
  simp [inside, inside'] at apart

end Tree

/-- What may end with a slash. -/
def slashes : List Symbol := [.terminal (.punctuator .slash), .nonterminal .binaryOperator]

/-- What may start with a star. -/
def stars : List Symbol :=
  [.terminal (.punctuator .star), .terminal (.punctuator .starAssign), .terminal (.punctuator .power),
   .terminal (.punctuator .powerAssign), .nonterminal .importNamespace, .nonterminal .assignOperator,
   .nonterminal .binaryOperator, .nonterminal .modifier, .nonterminal .importClause,
   .nonterminal .moreModifiers, .nonterminal .method, .nonterminal .member, .nonterminal .property,
   .nonterminal .moreMembers]

/-- In a script no slash and star can come to look like the start of a comment. -/
theorem Tree.separate {tree : Tree} {offset : Nat} {t rest : Text}
    (valid : tree.valid grammar = true) (scans : Token.Scans offset t tree.word rest) :
    Token.Separate tree.word := by
  intro a b pair slash star
  obtain ⟨u, v, word⟩ := pair
  rw [List.append_assoc] at word
  have member : b ∈ tree.word := by simp [← word]
  obtain ⟨behind, read⟩ := scans.read member
  obtain ⟨l, text⟩ := List.head?_eq_some_iff.mp star
  rw [text] at read
  obtain ⟨mark, listed, spelled⟩ := Token.star_of_head read
  refine not_beside slashes stars valid
    (productions_all (by decide)) (productions_all (by decide))
    (productions_all (by decide)) word.symm ?_ ?_
  · rw [slash]
    decide
  · rw [spelled]
    simp only [List.mem_cons, List.not_mem_nil, or_false] at listed
    rcases listed with rfl | rfl | rfl | rfl <;> decide

end StyleSplit.Script
