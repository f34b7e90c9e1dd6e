import StyleSplit.Proofs.Script.Contents
import StyleSplit.Proofs.Script.Leading
import StyleSplit.Proofs.Script.Literals

/-! Entries with a quoted key. Whichever way the tokens of such an entry are derived, its key
is the text that the quotes stand for, and a quoted text or an object literal that is its value
stands alone there. -/
namespace StyleSplit.Script

/-- An operand made of one other part hands on what that part contributes, and a quoted text is
made an operand by one production. -/
def Production.handsLone (p : Production) : Bool :=
  !operands.contains p.head ||
    match p.body with
    | [.nonterminal n] =>
      p.action == .splice && n.kinds == some [[.expr]] && operands.contains n
    | [.terminal t] => t != .string || p.head == .primary
    | _ => true

theorem productions_handLone : ∀ n, ∀ p ∈ grammar.productions n, p.handsLone = true :=
  productions_all (by decide)

/-- What no quoted text may start. -/
def unquoted : List Nonterminal := [.propertyName, .modifier, .moreModifiers]

/-- What a quoted text may start, and more. -/
def quotable : List Symbol :=
  .terminal .string :: (Nonterminal.all.filter (!unquoted.contains ·)).map .nonterminal

theorem productions_quotable : ∀ n, ∀ p ∈ grammar.productions n, p.opens quotable = true :=
  productions_all (by decide)

/-- The shape of the productions for entries and their keys. -/
def Production.keys (p : Production) : Bool :=
  match p.head with
  | .property =>
    p.action == .keyedEntry && p.body == [.nonterminal .propertyKey,
        .terminal (.punctuator .colon), .nonterminal .assignment] ||
      p.body == [.nonterminal .method] || p.body.head?.any (!quotable.contains ·)
  | .method =>
    p.body.take 2 == [.nonterminal .propertyKey, .terminal (.punctuator .openParen)] ||
      p.body.head?.any (!quotable.contains ·)
  | .propertyKey =>
    match p.body with
    | [.terminal _] => true
    | body => body.head?.any (!quotable.contains ·)
  | _ => true

theorem productions_key : ∀ n, ∀ p ∈ grammar.productions n, p.keys = true :=
  productions_all (by decide)

theorem Action.applyToken_string {action : Action} {span : Span} {t : Token}
    {out : List Fragment} (reads : action.literal? = some .string)
    (made : action.applyToken span t = .ok out) :
    ∃ value, Literal.decodeText t.text = .ok value ∧
      out = [.expr (.literal span (.text value))] := by
  cases action <;> cases reads
  all_goals
    obtain ⟨value, decoded, same⟩ := bind_eq_ok.mp made
    exact ⟨value, decoded, (Except.ok.inj same).symm⟩

namespace Tree

variable {tree front c : Tree} {p : Production} {n : Nonterminal} {a : Assembled} {rest : List Tree}

theorem lone_child (valid : (node p [c]).valid grammar = true) (operand : p.head ∈ operands)
    (symbol : c.symbol = .nonterminal n) (made : (node p [c]).assemble = .ok a) :
    n ∈ operands ∧ n.kinds = some [[.expr]] ∧
      ∃ b, c.assemble = .ok b ∧ b.fragments = a.fragments := by
  obtain ⟨member, body, valid⟩ := valid_node.mp valid
  obtain ⟨parts, out, parted, applied, rfl⟩ := assemble_node.mp made
  have hands := productions_handLone p.head p member
  simp only [Production.handsLone, List.contains_iff_mem.mpr operand, ← body, List.map_singleton,
    symbol, Bool.not_true, Bool.false_or, Bool.and_eq_true, beq_iff_eq,
    List.contains_iff_mem] at hands
  obtain ⟨⟨splice, kinds⟩, inner⟩ := hands
  rcases parted with _ | ⟨below, ⟨⟩⟩
  obtain ⟨e, only⟩ := assemble_expr (valid c (by simp)) symbol kinds below
  rw [splice] at applied
  refine ⟨inner, kinds, _, below, ?_⟩
  rw [← Except.ok.inj applied, given_cons, only]
  rfl

/-- What stands alone in an operand is what the operand contributes. -/
theorem Leads.hands (leads : Leads front tree) (valid : tree.valid grammar = true)
    (same : tree.word = front.word) (symbol : tree.symbol = .nonterminal n)
    (operand : n ∈ operands) (inner : ∃ m, front.symbol = .nonterminal m)
    (made : tree.assemble = .ok a) :
    ∃ b, front.assemble = .ok b ∧ b.fragments = a.fragments := by
  induction leads generalizing n a with
  | self => exact ⟨a, made, rfl⟩
  | @first p c rest leads ih =>
    obtain ⟨rfl, word⟩ := leads.alone valid same
    obtain rfl := Symbol.nonterminal.inj symbol
    cases c with
    | leaf t =>
      cases leads
      obtain ⟨m, ⟨⟩⟩ := inner
    | node q below =>
      obtain ⟨operand, -, b, made, fragments⟩ := lone_child valid operand rfl made
      obtain ⟨b', inside, fragments'⟩ :=
        ih ((valid_node.mp valid).2.2 _ (by simp)) word rfl operand made
      exact ⟨b', inside, fragments'.trans fragments⟩

variable {t : Token} {raw : Text} {v : List (Terminal × Text)}

/-- A production is all that there is around a single quoted text. -/
theorem string_leaf (valid : (node p [leaf t]).valid grammar = true) (string : t.terminal = .string)
    (stands : p.head ∈ [.primary, .propertyKey]) (made : (node p [leaf t]).assemble = .ok a) :
    ∃ value, Literal.decodeText t.text = .ok value ∧
      a.fragments = [.expr (.literal t.span (.text value))] := by
  obtain ⟨member, body, -⟩ := valid_node.mp valid
  have reads : p.action.literal? = some .string := by
    refine (Production.literal_iff member).mpr ⟨by decide, ?_, stands⟩
    rw [← body, List.map_singleton, symbol, string]
  obtain ⟨out, applied, rfl⟩ := (assemble_literal_iff (string ▸ reads)).mp made
  exact Action.applyToken_string reads applied

/-- A quoted text that is all of an operand is its value. -/
theorem string_alone (valid : tree.valid grammar = true) (symbol : tree.symbol = .nonterminal n)
    (operand : n ∈ operands) (bare : tree.bare = [(.string, raw)])
    (made : tree.assemble = .ok a) :
    ∃ span value, Literal.decodeText raw = .ok value ∧
      a.fragments = [.expr (.literal span (.text value))] := by
  induction tree using Tree.induct generalizing n a with
  | leaf t => cases symbol
  | node p children ih =>
    obtain rfl := Symbol.nonterminal.inj symbol
    obtain ⟨t, word, same⟩ := List.map_eq_singleton_iff.mp bare
    obtain ⟨c, rest, rfl, inner, first, -⟩ := first_child valid (t := t) (by rw [word]; rfl)
    obtain ⟨behind, here⟩ := List.head?_eq_some_iff.mp first
    have none : behind = [] ∧ words rest = [] := by
      rw [Tree.word, words, here, List.cons_append] at word
      exact List.append_eq_nil_iff.mp (List.cons.inj word).2
    obtain rfl := rest_nil valid none.2
    have alone : c.bare = [(.string, raw)] := by
      rw [Tree.bare, here, none.1, List.map_singleton, same]
    cases c with
    | node q below =>
      obtain ⟨operand, -, b, made, fragments⟩ := lone_child valid operand rfl made
      rw [← fragments]
      exact ih _ (by simp) inner rfl operand alone made
    | leaf u =>
      obtain ⟨string, rfl⟩ := Prod.mk.inj (List.singleton_inj.mp alone)
      obtain ⟨member, body, -⟩ := valid_node.mp valid
      have hands := productions_handLone p.head p member
      simp only [Production.handsLone, List.contains_iff_mem.mpr operand, ← body,
        List.map_singleton, Tree.symbol, string, bne_self_eq_false, Bool.not_true, Bool.false_or,
        beq_iff_eq] at hands
      exact ⟨_, string_leaf valid string (by simp [hands]) made⟩

/-- A quoted text in front of a property key is all of it. -/
theorem string_key (valid : tree.valid grammar = true)
    (symbol : tree.symbol = .nonterminal .propertyKey) (first : tree.word.head? = some t)
    (string : t.terminal = .string) : ∃ p, tree = .node p [.leaf t] := by
  cases tree with
  | leaf u => cases symbol
  | node p children =>
    obtain ⟨member, body, -⟩ := valid_node.mp valid
    obtain ⟨c, rest, rfl, inner, front, head⟩ := first_child valid first
    have starts := first_mem productions_quotable inner front (by rw [string]; decide)
    have keys := productions_key p.head p member
    simp only [Production.keys, Symbol.nonterminal.inj symbol] at keys
    split at keys
    · rename_i u only
      rw [only, List.map_cons, List.cons.injEq, List.map_eq_nil_iff] at body
      obtain ⟨known, rfl⟩ := body
      obtain ⟨token, rfl, -⟩ := leaf_of_symbol known
      obtain rfl := Option.some.inj front
      exact ⟨p, rfl⟩
    · simp [head, starts] at keys

/-- A method starts with a modifier or a parenthesis behind its key. -/
theorem method_bare {colon : Terminal × Text} (valid : tree.valid grammar = true)
    (symbol : tree.symbol = .nonterminal .method)
    (bare : tree.bare = (.string, raw) :: colon :: v) : colon.1 = .punctuator .openParen := by
  cases tree with
  | leaf u => cases symbol
  | node p children =>
    obtain ⟨member, body, each⟩ := valid_node.mp valid
    obtain ⟨t, _, word, same, -⟩ := List.map_eq_cons_iff.mp bare
    have string : t.terminal = .string := congrArg Prod.fst same
    obtain ⟨c, rest, rfl, inner, front, head⟩ := first_child valid (t := t) (by rw [word]; rfl)
    have starts := first_mem productions_quotable inner front (by rw [string]; decide)
    have keys := productions_key p.head p member
    simp only [Production.keys, Symbol.nonterminal.inj symbol, Bool.or_eq_true, beq_iff_eq, head,
      Option.any_some, List.contains_iff_mem.mpr starts, Bool.not_true, Bool.false_eq_true,
      or_false] at keys
    rw [← body, List.map_cons, List.take_succ_cons, ← List.map_take] at keys
    obtain ⟨key, taken⟩ := List.cons.inj keys
    obtain ⟨q, rfl⟩ := string_key inner key front string
    obtain ⟨mark, taken, opens⟩ := List.map_eq_singleton_iff.mp taken
    obtain ⟨paren, rfl, opened⟩ := leaf_of_symbol opens
    obtain ⟨others, rfl⟩ : ∃ others, rest = .leaf paren :: others :=
      ⟨rest.drop 1, by rw [← List.take_append_drop 1 rest, taken]; rfl⟩
    rw [bare_node] at bare
    obtain ⟨-, rfl, -⟩ : _ ∧ paren.bare = colon ∧ _ := by simpa [bare_leaf, bare_node] using bare
    exact opened

/-- An entry that starts with a quoted text and a colon has the text as its key. What is behind
the colon is its value. -/
theorem entry_of_string {colon : Terminal × Text} (valid : tree.valid grammar = true)
    (symbol : tree.symbol = .nonterminal .property)
    (bare : tree.bare = (.string, raw) :: colon :: v) (colons : colon.1 = .punctuator .colon)
    (made : tree.assemble = .ok a) : ∃ span place key e, ∃ (value : Tree) (b : Assembled),
      Literal.decodeText raw = .ok key ∧
      a.fragments = [.entry (.mk span (some (.literal place (.text key))) e false false)] ∧
      value.valid grammar = true ∧ value.symbol = .nonterminal .assignment ∧ value.bare = v ∧
      value.assemble = .ok b ∧ b.fragments = [.expr e] := by
  cases tree with
  | leaf u => cases symbol
  | node p children =>
    obtain ⟨member, body, each⟩ := valid_node.mp valid
    obtain ⟨t, _, word, same, -⟩ := List.map_eq_cons_iff.mp bare
    obtain ⟨string, rfl⟩ := Prod.mk.inj same
    obtain ⟨c, rest, rfl, inner, front, head⟩ := first_child valid (t := t) (by rw [word]; rfl)
    have starts := first_mem productions_quotable inner front (by rw [string]; decide)
    have keys := productions_key p.head p member
    simp only [Production.keys, Symbol.nonterminal.inj symbol, Bool.or_eq_true, Bool.and_eq_true,
      beq_iff_eq, head, Option.any_some, List.contains_iff_mem.mpr starts, Bool.not_true,
      Bool.false_eq_true, or_false] at keys
    rcases keys with ⟨action, shape⟩ | shape
    · rw [shape] at body
      obtain ⟨key, body⟩ := List.cons.inj body
      obtain ⟨mark, _, rfl, point, body⟩ := List.map_eq_cons_iff.mp body
      obtain ⟨value, rfl, kind⟩ := List.map_eq_singleton_iff.mp body
      obtain ⟨q, rfl⟩ := string_key inner key front string
      obtain ⟨point, rfl, separates⟩ := leaf_of_symbol point
      obtain ⟨parts, out, parted, applied, rfl⟩ := assemble_node.mp made
      rcases parted with _ | ⟨first, _ | ⟨second, _ | ⟨third, ⟨⟩⟩⟩⟩
      cases second
      obtain ⟨text, decoded, literal⟩ := string_leaf inner string
        (by simp [Symbol.nonterminal.inj key]) first
      obtain ⟨e, only⟩ := assemble_expr (each value (by simp)) kind rfl third
      have marks := counts_mark separates .keyedEntry rfl
      rw [action, given_cons, given_cons, given_cons, given_nil, literal, only] at applied
      simp only [List.filter_cons, List.filter_nil, counts_expr, marks, if_true, Bool.false_eq_true,
        if_false, List.nil_append, List.append_nil, List.cons_append] at applied
      refine ⟨_, _, text, e, value, _, decoded, (Except.ok.inj applied).symm,
        each value (by simp), kind, ?_, third, only⟩
      rw [bare_node] at bare
      obtain ⟨-, -, behind⟩ : _ ∧ _ ∧ value.bare = v := by simpa [bare_leaf, bare_node] using bare
      exact behind
    · rw [shape] at body
      obtain ⟨kind, none⟩ := List.cons.inj body
      obtain rfl := List.map_eq_nil_iff.mp none
      rw [bare_node, List.flatMap_singleton] at bare
      have paren := method_bare inner kind bare
      exact absurd (Terminal.punctuator.inj (paren.symm.trans colons)) (by decide)

/-- An operand that is all between a brace and the one that closes it is an object literal. -/
theorem literal_alone {opening closing : Terminal × Text} {inner : List (Terminal × Text)}
    (valid : tree.valid grammar = true) (symbol : tree.symbol = .nonterminal n)
    (operand : n ∈ operands) (bare : tree.bare = opening :: (inner ++ [closing]))
    (opens : opening.1 = .punctuator .openBrace) (closes : closing.1 = .punctuator .closeBrace)
    (balanced : Balanced (inner.map Prod.fst)) (made : tree.assemble = .ok a) :
    ∃ (literal : Tree) (b : Assembled), literal.valid grammar = true ∧
      literal.symbol = .nonterminal .objectLiteral ∧ literal.bare = tree.bare ∧
      literal.assemble = .ok b ∧ b.fragments = a.fragments := by
  obtain ⟨brace, first, same⟩ := head_of_bare bare
  obtain ⟨literal, leads, head⟩ := literal_of_brace valid symbol operand first (same.trans opens)
  obtain ⟨behind, word⟩ := leads.word
  have inside := leads.within.valid valid
  obtain ⟨opening', inner', closing', here, closes', balanced'⟩ :=
    Listing.objectLiteral.enclosed inside head
  have whole : opening :: (inner ++ [closing]) =
      opening' :: (inner' ++ closing' :: behind.map Token.bare) := by
    rw [← bare, Tree.bare, word, List.map_append]
    change literal.bare ++ _ = _
    rw [here]
    simp
  have nothing := (Balanced.end_unique balanced balanced' (closes ▸ rfl) (closes' ▸ rfl)
    (List.cons.inj whole).2).2
  obtain rfl := List.map_eq_nil_iff.mp nothing.symm
  have same : tree.word = literal.word := by rw [word, List.append_nil]
  obtain ⟨b, inner, fragments⟩ := leads.hands valid same symbol operand ⟨_, head⟩ made
  exact ⟨literal, b, inside, head, by rw [Tree.bare, Tree.bare, same], inner, fragments⟩

end Tree

end StyleSplit.Script
