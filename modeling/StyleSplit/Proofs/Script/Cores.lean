import StyleSplit.Proofs.Script.Kinds

/-! Where expressions come from. An expression is made by one production and handed on,
possibly through parentheses, by those above it; only then does it stand at all tokens of
the production that made it. -/
namespace StyleSplit.Script

namespace Action

variable {action : Action} {span : Span} {fs out : List Fragment} {e : Expr}

/-- What an action makes an expression of, where it makes one. -/
def Fresh (action : Action) (span : Span) (fs : List Fragment) : Expr → Prop
  | .identifier s _ => action = .identifier ∧ s = span ∧ ∃ t rest, fs = .token t :: rest
  | .mapping s entries =>
    action = .mapping ∧ s = span ∧ entries = fs.filterMap Fragment.entry?
  | .call s callee items argumentsSpan name =>
    action = .call ∧ s = span ∧ fs = [.expr callee, .arguments argumentsSpan items] ∧
      name = callee.calleeName?
  | e => e.span = span

theorem Fresh.span_eq (fresh : Fresh action span fs e) : e.span = span := by
  cases e with
  | identifier | mapping | call => exact fresh.2.1
  | literal | list | function | other => exact fresh

/-- Splices and fields hand on expressions that others have made. -/
theorem Applies.handed (applied : Applies span action fs out) (member : .expr e ∈ out)
    (hands : action = .splice ∨ action = .field) : .expr e ∈ fs := by
  cases applied with
  | splice => exact member
  | field place key value =>
    cases List.mem_singleton.mp member
    simp
  | bareField => cases member
  | _ => simp at hands

/-- No other action does. -/
theorem Applies.fresh (applied : Applies span action fs out) (member : .expr e ∈ out)
    (splice : action ≠ .splice) (field : action ≠ .field) : Fresh action span fs e := by
  cases applied with
  | splice | field | bareField => contradiction
  | identifier t =>
    cases List.mem_singleton.mp member
    exact ⟨rfl, rfl, t, [], rfl⟩
  | mapping entries =>
    cases List.mem_singleton.mp member
    exact ⟨rfl, rfl, (Fragment.filterMap_entry? entries).symm⟩
  | call =>
    cases List.mem_singleton.mp member
    exact ⟨rfl, rfl, rfl, rfl⟩
  | negation =>
    cases List.mem_singleton.mp member
    unfold Expr.negated
    split <;> rfl
  | number | string | stringKey | numberKey | template | substituted | true_ | false_ | null
  | nameKey | compound | list | function | arrow | arrowValue | classBody | assignment | update
  | member | construction | bareConstruction | forTarget =>
    cases List.mem_singleton.mp member
    rfl
  | _ => simp at member

end Action

/-- Whether a production for expressions either makes one or hands one on, in parentheses
or as it is. -/
def Production.handsOn (p : Production) : Bool :=
  p.head.kinds != some [[.expr]] ||
    p.action != .field && (p.action != .splice ||
      match p.body with
      | [.nonterminal n] => n.kinds == some [[.expr]]
      | body => body == [.terminal (.punctuator .openParen), .nonterminal .expression,
          .terminal (.punctuator .closeParen)])

theorem productions_handOn : ∀ n, ∀ p ∈ grammar.productions n, p.handsOn = true :=
  productions_all (by decide)

namespace Tree

/-- A part of a derivation with nothing around it but parentheses. -/
inductive Wraps (core : Tree) : Tree → Prop where
  | self : Wraps core core
  | unit {p : Production} {c : Tree} : Wraps core c → Wraps core (.node p [c])
  | parens {p : Production} {c : Tree} {before behind : Token} :
      before.terminal = .punctuator .openParen → behind.terminal = .punctuator .closeParen →
      Wraps core c → Wraps core (.node p [.leaf before, c, .leaf behind])

variable {core tree : Tree} {n : Nonterminal} {a : Assembled} {e : Expr}

theorem Wraps.within (wraps : Wraps core tree) : Within core tree := by
  induction wraps with
  | self => exact .self
  | unit _ ih => exact .child (by simp) ih
  | parens _ _ _ ih => exact .child (by simp) ih

theorem Wraps.word (wraps : Wraps core tree) : ∃ before behind,
    tree.word = before ++ core.word ++ behind ∧
      (∀ t ∈ before, t.terminal = .punctuator .openParen) ∧
      ∀ t ∈ behind, t.terminal = .punctuator .closeParen := by
  induction wraps with
  | self => exact ⟨[], [], by simp, by simp, by simp⟩
  | unit _ ih =>
    obtain ⟨before, behind, same, opens, closes⟩ := ih
    exact ⟨before, behind, by simp [Tree.word, words, same], opens, closes⟩
  | @parens p c first last opened closed _ ih =>
    obtain ⟨before, behind, same, opens, closes⟩ := ih
    refine ⟨first :: before, behind ++ [last], by simp [Tree.word, words, same], ?_, ?_⟩
    · intro t member
      rcases List.mem_cons.mp member with rfl | member
      · exact opened
      · exact opens t member
    · intro t member
      rcases List.mem_append.mp member with member | member
      · exact closes t member
      · rw [List.mem_singleton.mp member]
        exact closed

/-- Behind the splices and the parentheses around an expression stands what made it. -/
theorem core_of_expr (valid : tree.valid grammar = true) (head : tree.symbol = .nonterminal n)
    (kinds : n.kinds = some [[.expr]]) (made : tree.assemble = .ok a)
    (only : a.fragments = [.expr e]) :
    ∃ p children, Wraps (.node p children) tree ∧ p.head.kinds = some [[.expr]] ∧
      p.action ≠ .splice ∧ p.action ≠ .field ∧
      ∃ span, (node p children).assemble = .ok ⟨span, [.expr e]⟩ := by
  induction tree using Tree.induct generalizing n a with
  | leaf t => cases head
  | node p children ih =>
    obtain ⟨member, body, valid⟩ := valid_node.mp valid
    obtain ⟨parts, out, parted, applied, rfl⟩ := assemble_node.mp made
    obtain rfl : p.head = n := Symbol.nonterminal.inj head
    obtain rfl : out = [.expr e] := only
    have hands := productions_handOn p.head p member
    simp only [Production.handsOn, kinds, bne_self_eq_false, Bool.false_or, Bool.and_eq_true,
      bne_iff_ne, Bool.or_eq_true] at hands
    obtain ⟨field, splice | handed⟩ := hands
    · exact ⟨p, children, .self, kinds, splice, field, _, made⟩
    by_cases splice : p.action = .splice
    swap
    · exact ⟨p, children, .self, kinds, splice, field, _, made⟩
    rw [splice] at applied
    have given : given .splice parts = [.expr e] := Except.ok.inj applied
    split at handed
    · rename_i m only
      rw [only] at body
      obtain ⟨c, rfl, symbol⟩ := List.map_eq_singleton_iff.mp body
      obtain ⟨part, rfl, inner⟩ : ∃ part, parts = [part] ∧ c.assemble = .ok part := by
        cases parted with
        | cons head tail =>
          cases tail
          exact ⟨_, rfl, head⟩
      obtain ⟨e', same⟩ := assemble_expr (valid c (by simp)) symbol (by simpa using handed) inner
      obtain rfl : e' = e := by
        simpa [Tree.given, same, List.filter_cons] using given
      obtain ⟨p', children', wraps, rest⟩ :=
        ih c (by simp) (valid c (by simp)) symbol (by simpa using handed) inner same
      exact ⟨p', children', .unit wraps, rest⟩
    · have shape := beq_iff_eq.mp handed
      rw [shape] at body
      obtain ⟨first, _, rfl, opened, body⟩ := List.map_eq_cons_iff.mp body
      obtain ⟨c, _, rfl, symbol, body⟩ := List.map_eq_cons_iff.mp body
      obtain ⟨last, rfl, closed⟩ := List.map_eq_singleton_iff.mp body
      obtain ⟨before, rfl, opens⟩ := leaf_of_symbol opened
      obtain ⟨behind, rfl, closes⟩ := leaf_of_symbol closed
      obtain ⟨part, rfl, inner⟩ : ∃ part, parts = [⟨some before.span, [.token before]⟩, part,
          ⟨some behind.span, [.token behind]⟩] ∧ c.assemble = .ok part := by
        cases parted with
        | cons head tail =>
          cases tail with
          | cons middle tail =>
            cases tail with
            | cons last tail =>
              cases tail
              cases head
              cases last
              exact ⟨_, rfl, middle⟩
      obtain ⟨e', same⟩ := assemble_expr (valid c (by simp)) symbol rfl inner
      obtain rfl : e' = e := by
        simpa [Tree.given, same, List.filter_cons, counts_mark opens .splice rfl,
          counts_mark closes .splice rfl] using given
      obtain ⟨p', children', wraps, rest⟩ :=
        ih c (by simp) (valid c (by simp)) symbol rfl inner same
      exact ⟨p', children', .parens opens closes wraps, rest⟩

end Tree

/-- Whether a production that makes an identifier, an object literal, a call or arguments has
the body that one expects. -/
def Production.usual (p : Production) : Bool :=
  (p.action == .arguments) == (p.head == .arguments) &&
  match p.action with
  | .identifier => p.body == [.terminal .name]
  | .mapping =>
    p.head == .objectLiteral && p.body.getLast? == some (.terminal (.punctuator .closeBrace))
  | .call =>
    p.body == [.nonterminal .callMember, .nonterminal .arguments] ||
      p.body == [.nonterminal .callMember, .terminal (.punctuator .optionalDot),
        .nonterminal .arguments]
  | .arguments =>
    p.body == [.terminal (.punctuator .openParen), .terminal (.punctuator .closeParen)] ||
      p.body.take 2 == [.terminal (.punctuator .openParen), .nonterminal .element]
  | _ => true

theorem productions_usual : ∀ n, ∀ p ∈ grammar.productions n, p.usual = true :=
  productions_all (by decide)

namespace Tree

variable {tree : Tree} {n : Nonterminal} {p : Production} {children : List Tree} {a : Assembled}
  {e : Expr}

theorem identifier_leaf (valid : (node p children).valid grammar = true)
    (action : p.action = .identifier) : ∃ t, children = [.leaf t] ∧ t.terminal = .name := by
  obtain ⟨member, body, -⟩ := valid_node.mp valid
  have usual := productions_usual p.head p member
  simp only [Production.usual, action, Bool.and_eq_true, beq_iff_eq] at usual
  rw [usual.2] at body
  obtain ⟨c, rfl, symbol⟩ := List.map_eq_singleton_iff.mp body
  obtain ⟨t, rfl, terminal⟩ := leaf_of_symbol symbol
  exact ⟨t, rfl, terminal⟩

theorem arguments_action (valid : (node p children).valid grammar = true)
    (head : (node p children).symbol = .nonterminal .arguments) : p.action = .arguments := by
  have usual := productions_usual p.head p (valid_node.mp valid).1
  simp only [Production.usual, Symbol.nonterminal.inj head, Bool.and_eq_true, beq_iff_eq] at usual
  simpa using usual.1

/-- An identifier is one token behind nothing but opening parentheses. -/
theorem identifier_word {span : Span} {name : Text} (valid : tree.valid grammar = true)
    (head : tree.symbol = .nonterminal n) (kinds : n.kinds = some [[.expr]])
    (made : tree.assemble = .ok a) (only : a.fragments = [.expr (.identifier span name)]) :
    ∃ before t behind, tree.word = before ++ t :: behind ∧ t.span = span ∧
      ∀ u ∈ before, u.terminal = .punctuator .openParen := by
  obtain ⟨p, children, wraps, -, splice, field, _, made⟩ :=
    core_of_expr valid head kinds made only
  have valid := wraps.within.valid valid
  obtain ⟨parts, out, parted, applied, same⟩ := assemble_node.mp made
  obtain ⟨rfl, rfl⟩ := Assembled.mk.inj same
  have applies := given_applies valid parted applied
  obtain ⟨action, placed, t, rest, given⟩ :=
    applies.fresh (List.mem_singleton.mpr rfl) splice field
  obtain ⟨token, rfl, -⟩ := identifier_leaf valid action
  obtain ⟨before, behind, word, opens, _⟩ := wraps.word
  refine ⟨before, token, behind, ?_, ?_, opens⟩
  · rw [word]
    simp [Tree.word, words]
  · cases parted with
    | cons head tail =>
      cases tail
      cases head
      exact placed.symm

/-- An object literal ends with its closing brace. -/
theorem mapping_children (valid : (node p children).valid grammar = true)
    (action : p.action = .mapping) : ∃ front last,
      children = front ++ [.leaf last] ∧ last.terminal = .punctuator .closeBrace := by
  obtain ⟨member, body, -⟩ := valid_node.mp valid
  have usual := productions_usual p.head p member
  simp only [Production.usual, action, Bool.and_eq_true, beq_iff_eq] at usual
  obtain ⟨-, -, last⟩ := usual
  rw [← body, List.getLast?_map, Option.map_eq_some_iff] at last
  obtain ⟨c, last, symbol⟩ := last
  obtain ⟨front, rfl⟩ := List.getLast?_eq_some_iff.mp last
  obtain ⟨token, rfl, closes⟩ := leaf_of_symbol symbol
  exact ⟨front, token, rfl, closes⟩

theorem mem_given {action : Action} {parts : List Assembled} {f : Fragment}
    (member : f ∈ given action parts) : ∃ part ∈ parts, f ∈ part.fragments :=
  List.mem_flatMap.mp (List.mem_filter.mp member).1

/-- A call is made of its callee and of its arguments, which stand in it. -/
theorem call_arguments {span argumentsSpan : Span} {callee : Expr} {items : List Expr}
    {name : Option Text} (valid : (node p children).valid grammar = true)
    (action : p.action = .call) (made : (node p children).assemble = .ok a)
    (only : a.fragments = [.expr (.call span callee items argumentsSpan name)]) :
    ∃ args ∈ children, args.symbol = .nonterminal .arguments ∧
      ∃ extent, args.assemble = .ok ⟨extent, [.arguments argumentsSpan items]⟩ := by
  obtain ⟨parts, parted, applied⟩ := assemble_applies valid made
  obtain ⟨member, body, valid⟩ := valid_node.mp valid
  rw [only] at applied
  obtain ⟨-, -, shape, -⟩ := applied.fresh (List.mem_singleton.mpr rfl)
    (by simp [action]) (by simp [action])
  have found : Fragment.arguments argumentsSpan items ∈ given p.action parts := by simp [shape]
  obtain ⟨part, listed, found⟩ := mem_given found
  obtain ⟨args, child, inner⟩ := mem_of_forall₂ parted listed
  have contributes := assemble_contributes (valid args child) inner
  have symbol : args.symbol ∈ p.body := body ▸ List.mem_map_of_mem child
  have kind := List.mem_map_of_mem (f := Fragment.kind) found
  have usual := productions_usual p.head p member
  simp only [Production.usual, action, Bool.and_eq_true, Bool.or_eq_true, beq_iff_eq] at usual
  have known : args.symbol = .nonterminal .callMember ∨
      args.symbol = .terminal (.punctuator .optionalDot) ∨
      args.symbol = .nonterminal .arguments := by
    rcases usual.2 with usual | usual <;> rw [usual] at symbol <;> simp at symbol <;> tauto
  rcases known with symbol | symbol | symbol
  · have only := List.mem_singleton.mp (contributes _ _ symbol rfl)
    simp [only, Fragment.kind] at kind
  · obtain ⟨token, rfl, _⟩ := leaf_of_symbol symbol
    cases inner
    simp at found
  · refine ⟨args, child, symbol, part.span, ?_⟩
    have only := List.mem_singleton.mp (contributes _ _ symbol rfl)
    obtain ⟨f, same, _⟩ := List.map_eq_singleton_iff.mp only
    rw [same, List.mem_singleton] at found
    rw [inner, found, ← same]

/-- Arguments stand at all tokens between their parentheses. The first of them, if there
is one, comes right behind the opening one. -/
theorem arguments_first {extent : Option Span} {span : Span} {first : Expr} {more : List Expr}
    (valid : tree.valid grammar = true) (head : tree.symbol = .nonterminal .arguments)
    (made : tree.assemble = .ok ⟨extent, [.arguments span (first :: more)]⟩) :
    ∃ (opening : Token) (element : Tree) (behind : List Token),
      tree.word = opening :: (element.word ++ behind) ∧
      opening.terminal = .punctuator .openParen ∧ element.symbol = .nonterminal .element ∧
      element.valid grammar = true ∧
      ∃ place, element.assemble = .ok ⟨place, [.expr first]⟩ := by
  cases tree with
  | leaf t => cases head
  | node p children =>
    have action := arguments_action valid head
    obtain ⟨member, body, valid⟩ := valid_node.mp valid
    obtain ⟨parts, out, parted, applied, same⟩ := assemble_node.mp made
    obtain ⟨rfl, rfl⟩ := Assembled.mk.inj same
    have usual := productions_usual p.head p member
    simp only [Production.usual, action, Bool.and_eq_true, Bool.or_eq_true, beq_iff_eq] at usual
    rw [action] at applied
    obtain ⟨-, items⟩ := Fragment.arguments.inj (List.singleton_inj.mp (Except.ok.inj applied))
    rcases usual.2 with usual | usual
    · rw [usual] at body
      obtain ⟨left, _, rfl, opens, body⟩ := List.map_eq_cons_iff.mp body
      obtain ⟨right, rfl, closes⟩ := List.map_eq_singleton_iff.mp body
      obtain ⟨before, rfl, opened⟩ := leaf_of_symbol opens
      obtain ⟨behind, rfl, closed⟩ := leaf_of_symbol closes
      have none : given .arguments parts = [] := by
        cases parted with
        | cons first tail =>
          cases tail with
          | cons last tail =>
            cases tail
            cases first
            cases last
            simp [given_cons, counts_mark opened .arguments rfl, counts_mark closed .arguments rfl]
      rw [none] at items
      contradiction
    · have front := congrArg (List.take 2) body
      rw [usual, ← List.map_take] at front
      obtain ⟨left, _, taken, opens, front⟩ := List.map_eq_cons_iff.mp front
      obtain ⟨element, rfl, symbol⟩ := List.map_eq_singleton_iff.mp front
      obtain ⟨opening, rfl, opened⟩ := leaf_of_symbol opens
      obtain ⟨rest, rfl⟩ : ∃ rest, children = .leaf opening :: element :: rest :=
        ⟨children.drop 2, by rw [← List.take_append_drop 2 children, taken]; rfl⟩
      refine ⟨opening, element, words rest, by simp [Tree.word, words], opened, symbol,
        valid element (by simp), ?_⟩
      cases parted with
      | cons head tail =>
        cases tail with
        | @cons _ part _ parts inner tail =>
          cases head
          obtain ⟨e, only⟩ := assemble_expr (valid element (by simp)) symbol rfl inner
          have items : e :: (given .arguments parts).filterMap Fragment.expr? = first :: more := by
            simpa [given_cons, only, List.filter_cons, counts_mark opened .arguments rfl,
              Fragment.expr?] using items
          obtain rfl : e = first := (List.cons.inj items).1
          exact ⟨part.span, by rw [inner, ← only]⟩

end Tree

end StyleSplit.Script
