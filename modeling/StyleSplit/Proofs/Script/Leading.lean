import StyleSplit.Proofs.Script.Adjacency
import StyleSplit.Proofs.Script.Listing

/-! What a first token says. An operand that starts with an opening brace starts with an
object literal, and a property that starts with three points is a spread. Three points right
behind a brace are in an object literal. -/
namespace StyleSplit.Script

/-- The nonterminals that an argument may start with. -/
def operands : List Nonterminal :=
  [.element, .assignment, .spread, .conditional, .binary, .unary, .unaryOperator, .updateOperator,
   .suffixUpdate, .callMember, .construction, .bareConstruction, .primary, .arrayLiteral,
   .objectLiteral, .functionExpression, .classExpression, .arrowFunction, .arrowParameters]

/-- Whether a production for an operand starts with a brace only if it is an object literal. -/
def Production.leads (p : Production) : Bool :=
  !operands.contains p.head || p.head == .objectLiteral ||
    match p.body.head? with
    | some (.terminal t) => t != .punctuator .openBrace
    | some (.nonterminal n) => operands.contains n
    | none => false

theorem productions_lead : ∀ n, ∀ p ∈ grammar.productions n, p.leads = true :=
  productions_all (by decide)

/-- What may start with three points. -/
def dotted : List Symbol :=
  [.terminal (.punctuator .ellipsis), .nonterminal .spread, .nonterminal .element,
   .nonterminal .parameter, .nonterminal .parameters, .nonterminal .property]

theorem productions_dotted : ∀ n, ∀ p ∈ grammar.productions n, p.opens dotted = true :=
  productions_all (by decide)

/-- Whether a production is not a property with points in front, or is a spread. -/
def Production.spreads (p : Production) : Bool :=
  p.head != .property || !p.body.head?.any dotted.contains ||
    p.action == .spreadEntry &&
      p.body == [.terminal (.punctuator .ellipsis), .nonterminal .assignment]

theorem productions_spread : ∀ n, ∀ p ∈ grammar.productions n, p.spreads = true :=
  productions_all (by decide)

/-- Whether a production with points behind a brace is for object literals, and has the
brace in front. -/
def Production.opensSpread (p : Production) : Bool :=
  neighbours (fun c d => !(c == .terminal (.punctuator .openBrace) && dotted.contains d)) p.body ||
    p.head == .objectLiteral && !p.body.tail.contains (.terminal (.punctuator .openBrace))

theorem productions_openSpread : ∀ n, ∀ p ∈ grammar.productions n, p.opensSpread = true :=
  productions_all (by decide)

namespace Tree

/-- A part of a derivation at its front. -/
inductive Leads (front : Tree) : Tree → Prop where
  | self : Leads front front
  | first {p : Production} {c : Tree} {rest : List Tree} : Leads front c →
      Leads front (.node p (c :: rest))

variable {tree front : Tree}

theorem Leads.within (leads : Leads front tree) : Within front tree := by
  induction leads with
  | self => exact .self
  | first _ ih => exact .child List.mem_cons_self ih

theorem Leads.word (leads : Leads front tree) : ∃ behind, tree.word = front.word ++ behind := by
  induction leads with
  | self => exact ⟨[], (List.append_nil _).symm⟩
  | @first p c rest _ ih =>
    obtain ⟨behind, same⟩ := ih
    exact ⟨behind ++ words rest, by rw [Tree.word, words, same, List.append_assoc]⟩

theorem rest_nil {p : Production} {c : Tree} {rest : List Tree}
    (valid : (node p (c :: rest)).valid grammar = true) (none : words rest = []) : rest = [] := by
  obtain ⟨member, body, valid⟩ := valid_node.mp valid
  obtain rfl | ⟨ahead, last, rfl⟩ := List.eq_nil_or_concat rest
  · rfl
  · have filled := (Bool.and_eq_true_iff.mp (productions_filledEnds p.head p member)).2
    rw [← body, List.getLast?_map, List.concat_eq_append, ← List.cons_append,
      List.getLast?_concat] at filled
    have some := word_ne_nil (valid last (by simp)) (by simpa using filled)
    rw [List.concat_eq_append, words_append, words, words, List.append_nil] at none
    exact absurd (List.append_eq_nil_iff.mp none).2 some

theorem Leads.alone {p : Production} {c : Tree} {rest : List Tree} (leads : Leads front c)
    (valid : (node p (c :: rest)).valid grammar = true)
    (same : (node p (c :: rest)).word = front.word) : rest = [] ∧ c.word = front.word := by
  obtain ⟨behind, inner⟩ := leads.word
  rw [Tree.word, words, inner, List.append_assoc] at same
  have nothing := List.append_cancel_left (same.trans (List.append_nil _).symm)
  obtain ⟨none, others⟩ := List.append_eq_nil_iff.mp nothing
  exact ⟨rest_nil valid others, by rw [inner, none, List.append_nil]⟩

/-- A part that has all the tokens stands alone. -/
theorem Leads.wraps (leads : Leads front tree) (valid : tree.valid grammar = true)
    (same : tree.word = front.word) : Wraps front tree := by
  induction leads with
  | self => exact .self
  | @first p c rest leads ih =>
    obtain ⟨rfl, word⟩ := leads.alone valid same
    exact .unit (ih ((valid_node.mp valid).2.2 c List.mem_cons_self) word)

/-- What a production for an operand starts with, if a token is known to come first. -/
theorem first_child {p : Production} {children : List Tree} {t : Token}
    (valid : (node p children).valid grammar = true)
    (first : (node p children).word.head? = some t) :
    ∃ c rest, children = c :: rest ∧ c.valid grammar = true ∧ c.word.head? = some t ∧
      p.body.head? = some c.symbol := by
  obtain ⟨member, body, valid⟩ := valid_node.mp valid
  have filled := (Bool.and_eq_true_iff.mp (productions_filledEnds p.head p member)).1
  cases children with
  | nil => cases first
  | cons c rest =>
    rw [← body, List.map_cons, List.head?_cons] at filled
    have some := word_ne_nil (valid c (by simp)) (by simpa using filled)
    refine ⟨c, rest, rfl, valid c (by simp), ?_, by rw [← body]; rfl⟩
    rw [← first, word, words, List.head?_append_of_ne_nil _ some]

theorem literal_of_brace {n : Nonterminal} (valid : tree.valid grammar = true)
    (symbol : tree.symbol = .nonterminal n) (operand : n ∈ operands) {t : Token}
    (first : tree.word.head? = some t) (brace : t.terminal = .punctuator .openBrace) :
    ∃ o, Leads o tree ∧ o.symbol = .nonterminal .objectLiteral := by
  induction tree using Tree.induct generalizing n with
  | leaf u => cases symbol
  | node p children ih =>
    have member := (valid_node.mp valid).1
    obtain rfl : p.head = n := Symbol.nonterminal.inj symbol
    have leads := productions_lead p.head p member
    by_cases literal : p.head = .objectLiteral
    · exact ⟨_, .self, congrArg Symbol.nonterminal literal⟩
    obtain ⟨c, rest, rfl, valid, front, head⟩ := first_child valid first
    have listed : operands.contains p.head = true := List.contains_iff_mem.mpr operand
    simp only [Production.leads, listed, head, Bool.not_true, Bool.false_or, Bool.or_eq_true,
      beq_iff_eq, literal, false_or] at leads
    cases c with
    | leaf u =>
      obtain rfl := Option.some.inj front
      simp [Tree.symbol, brace] at leads
    | node q inner =>
      obtain ⟨o, inside, same⟩ := ih (node q inner) (by simp) valid rfl
        (List.contains_iff_mem.mp leads) front
      exact ⟨o, .first inside, same⟩

theorem spread_of_dots (valid : tree.valid grammar = true)
    (symbol : tree.symbol = .nonterminal .property) {t : Token}
    (first : tree.word.head? = some t) (dots : t.terminal = .punctuator .ellipsis) :
    ∃ p spread, tree = .node p [.leaf t, spread] ∧ p.action = .spreadEntry ∧
      spread.symbol = .nonterminal .assignment := by
  cases tree with
  | leaf u => cases symbol
  | node p children =>
    obtain ⟨member, body, -⟩ := valid_node.mp valid
    have head : p.head = .property := Symbol.nonterminal.inj symbol
    obtain ⟨c, rest, rfl, valid, front, leading⟩ := first_child valid first
    have inside := first_mem productions_dotted valid front (by rw [dots]; decide)
    have spreads := productions_spread p.head p member
    simp only [Production.spreads, head, bne_self_eq_false, leading, Option.any_some,
      List.contains_iff_mem.mpr inside, Bool.not_true, Bool.false_or, Bool.and_eq_true,
      beq_iff_eq] at spreads
    obtain ⟨action, shape⟩ := spreads
    rw [shape] at body
    obtain ⟨_, _, same, points, body⟩ := List.map_eq_cons_iff.mp body
    obtain ⟨spread, rfl, kind⟩ := List.map_eq_singleton_iff.mp body
    obtain ⟨rfl, rfl⟩ := List.cons.inj same
    obtain ⟨u, rfl, -⟩ := leaf_of_symbol points
    obtain rfl := Option.some.inj front
    exact ⟨p, spread, rfl, action, kind⟩

/-- A brace with three points behind it opens an object literal. -/
theorem literal_at {a b : Token} {x v : List Token} (valid : tree.valid grammar = true)
    (word : tree.word = x ++ a :: b :: v) (brace : a.terminal = .punctuator .openBrace)
    (dots : b.terminal = .punctuator .ellipsis) : ∃ (literal : Tree) (behind : List Token),
      literal.valid grammar = true ∧ literal.symbol = .nonterminal .objectLiteral ∧
        literal.word ++ behind = a :: b :: v := by
  obtain ⟨p, front, c, middle, d, back, before, behind, within, none, ends, starts, -, right,
    inner, inner'⟩ := beside_at valid word
  have node := within.valid valid
  obtain ⟨member, body, -⟩ := valid_node.mp node
  have opening : c.symbol = .terminal (.punctuator .openBrace) := by
    refine List.mem_singleton.mp (last_mem (productions_all (by decide)) inner ends ?_)
    rw [brace]
    exact List.mem_singleton_self _
  have points := first_mem productions_dotted inner' starts (by rw [dots]; decide)
  have opens := productions_openSpread p.head p member
  simp only [Production.opensSpread, Bool.or_eq_true, Bool.and_eq_true, beq_iff_eq,
    Bool.not_eq_true'] at opens
  rcases opens with apart | ⟨head, only⟩
  · have apart := check_beside node none apart
    simp [opening, points] at apart
  obtain ⟨t, rfl, -⟩ := leaf_of_symbol opening
  obtain rfl := Option.some.inj ends
  cases front with
  | nil =>
    refine ⟨_, behind, node, congrArg Symbol.nonterminal head, ?_⟩
    rw [right]
    simp [Tree.word, words, words_append, none]
  | cons e front =>
    rw [← body, List.cons_append, List.map_cons, List.tail_cons, List.map_append, List.map_cons,
      opening] at only
    simp at only

end Tree

end StyleSplit.Script
