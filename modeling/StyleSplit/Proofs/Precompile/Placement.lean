import StyleSplit.Precompile.Run
import StyleSplit.Proofs.Rewrite.Splicing
import StyleSplit.Proofs.Scope.Backward

/-! Where the edits of a call stand. Its arguments and the object literal that its first
argument stands for are parts of the script, and when the first argument is a reference,
that literal ends before the arguments start. -/
namespace StyleSplit

open Script

variable {s : Script} {tree : Tree}

namespace Script

theorem Tree.arguments_span {extent : Option Span} {span : Span} {items : List Expr}
    {args : Tree} (valid : args.valid grammar = true)
    (head : args.symbol = .nonterminal .arguments)
    (made : args.assemble = .ok ⟨extent, [.arguments span items]⟩) :
    Token.extent? args.word = some span := by
  have place := Tree.assemble_span made
  have word := Tree.word_ne_nil valid (by rw [head]; rfl)
  have extent' := Token.extent?_eq_some.mpr
    ⟨_, _, List.head?_eq_some_head word, List.getLast?_eq_some_getLast word, rfl⟩
  simp only at place
  cases args with
  | leaf t => cases head
  | node p children =>
    obtain ⟨parts, out, parted, applied, same⟩ := Tree.assemble_node.mp made
    obtain ⟨rfl, rfl⟩ := Assembled.mk.inj same
    rw [Tree.arguments_action valid head, place, extent'] at applied
    obtain ⟨same, -⟩ := Fragment.arguments.inj (List.singleton_inj.mp (Except.ok.inj applied))
    rw [extent', ← same]
    rfl

/-- The tokens of a derivation stand inside its text. -/
theorem Derived.inside (derived : Derived s tree) {part : Tree} (within : part.Within tree)
    {span : Span} (extent : Token.extent? part.word = some span) :
    span.Inside s.source.length := by
  have order := derived.inOrder.sub within.leaves
  refine ⟨order.extent extent, ?_⟩
  obtain ⟨first, last, -, ends, rfl⟩ := Token.extent?_eq_some.mp extent
  have bound := (derived.scans.within (within.leaves.subset (List.mem_of_getLast? ends))).2
  simpa using bound

/-- What makes an object literal or a call stands where that does. -/
theorem Derived.makes (derived : Derived s tree) {e : Expr} (makes : tree.Makes e) :
    ∃ p children, Tree.Within (.node p children) tree ∧
      Token.extent? (Tree.node p children).word = some e.span ∧
      (Tree.node p children).assemble = .ok ⟨some e.span, [.expr e]⟩ ∧
      ((∃ span entries, e = .mapping span entries) → p.action = .mapping) ∧
      ((∃ span callee items place name, e = .call span callee items place name) →
        p.action = .call) := by
  obtain ⟨p, children, extent, within, action, made⟩ := makes
  have splice : p.action ≠ .splice := by rcases action with h | h <;> simp [h]
  have field : p.action ≠ .field := by rcases action with h | h <;> simp [h]
  obtain ⟨rfl, fs, fresh⟩ := Tree.expr_made (within.valid derived.valid) made
    (List.mem_singleton.mpr rfl) splice field
  refine ⟨p, children, within, (Tree.assemble_span made).symm, made, ?_, ?_⟩
  · rintro ⟨_, _, rfl⟩
    exact fresh.1
  · rintro ⟨_, _, _, _, _, rfl⟩
    exact fresh.1

theorem Derived.mapping_inner (derived : Derived s tree) {p p' : Production}
    {children children' : List Tree} (within : Tree.Within (.node p children) tree)
    (inner : Tree.Within (.node p' children') (.node p children)) (action : p.action = .mapping)
    {span : Span} (extent : Token.extent? (Tree.node p children).word = some span)
    (same : Token.extent? (Tree.node p' children').word = Token.extent? (Tree.node p children).word) :
    Tree.node p' children' = Tree.node p children := by
  obtain ⟨front, last, rfl, -⟩ := Tree.mapping_children (within.valid derived.valid) action
  cases inner with
  | self => rfl
  | @child c _ _ child inner =>
    have word : (Tree.node p (front ++ [.leaf last])).word = Tree.words front ++ [last] := by
      simp [Tree.word, Tree.words]
    have order := derived.inOrder.sub within.leaves
    have some := order.some last (by simp [word])
    obtain ⟨_, last', -, ends, rfl⟩ := Token.extent?_eq_some.mp (same.trans extent)
    obtain ⟨_, end', -, ends', place⟩ := Token.extent?_eq_some.mp extent
    rw [word, List.getLast?_append] at ends'
    obtain rfl : last = end' := by simpa using ends'
    have stop := (Span.mk.inj place).2
    have member := List.mem_of_getLast? ends
    rcases List.mem_append.mp child with earlier | only
    · have front' := inner.leaves.trans (Tree.word_infix_words earlier)
      have before := Tree.before_of_append (word ▸ order) last' (front'.subset member) last (by simp)
      omega
    · rw [List.mem_singleton.mp only] at inner
      cases inner

/-- An object literal of a script stands inside it and ends with a brace. -/
theorem Derived.mapping (derived : Derived s tree) {span : Span} {entries : List Entry}
    (makes : tree.Makes (.mapping span entries)) : span.Inside s.source.length ∧
      ∃ brace ∈ tree.word, brace.terminal = .punctuator .closeBrace ∧
        brace.span.stop = span.stop := by
  obtain ⟨p, children, within, extent, -, action, -⟩ := derived.makes makes
  obtain ⟨front, last, rfl, closes⟩ :=
    Tree.mapping_children (within.valid derived.valid) (action ⟨_, _, rfl⟩)
  have word : (Tree.node p (front ++ [.leaf last])).word = Tree.words front ++ [last] := by
    simp [Tree.word, Tree.words]
  refine ⟨derived.inside within extent, last, within.leaves.subset (by simp [word]), closes, ?_⟩
  obtain ⟨_, last', -, ends, place⟩ := Token.extent?_eq_some.mp extent
  rw [word, List.getLast?_append] at ends
  obtain rfl : last = last' := by simpa using ends
  exact (congrArg Span.stop place).symm

/-- There is no more than one object literal at a place. -/
theorem Derived.mapping_unique (derived : Derived s tree) {span : Span}
    {entries entries' : List Entry} (makes : tree.Makes (.mapping span entries))
    (makes' : tree.Makes (.mapping span entries')) : entries = entries' := by
  obtain ⟨p, children, within, extent, made, action, -⟩ := derived.makes makes
  obtain ⟨p', children', within', extent', made', action', -⟩ := derived.makes makes'
  have apart {u v : List Token} (place : Token.extent? u = some span)
      (place' : Token.extent? v = some span) (order : Token.InOrder u) : ¬Tree.Before u v := by
    intro before
    have filled := order.extent place
    obtain ⟨_, last, -, ends, rfl⟩ := Token.extent?_eq_some.mp place
    obtain ⟨first, _, starts, -, same⟩ := Token.extent?_eq_some.mp place'
    have start := congrArg Span.start same
    have far := before last (List.mem_of_getLast? ends) first (List.mem_of_head? starts)
    simp only at start filled
    omega
  have same : Tree.node p children = Tree.node p' children' := by
    rcases Tree.Within.nested_or_apart derived.inOrder within within' with
      inner | inner | before | before
    · exact derived.mapping_inner within' inner (action' ⟨_, _, rfl⟩) extent'
        (extent.trans extent'.symm)
    · exact (derived.mapping_inner within inner (action ⟨_, _, rfl⟩) extent
        (extent'.trans extent.symm)).symm
    · exact absurd before (apart extent extent' (derived.inOrder.sub within.leaves))
    · exact absurd before (apart extent' extent (derived.inOrder.sub within'.leaves))
  rw [same, made'] at made
  injection made with made
  simp only [Assembled.mk.injEq, List.cons.injEq, Fragment.expr.injEq, Expr.mapping.injEq,
    true_and, and_true] at made
  exact made.2.symm

/-- The arguments of a call come out of a part of the derivation of their own. -/
theorem Derived.arguments_derived (derived : Derived s tree) {span argumentsSpan : Span}
    {callee : Expr} {items : List Expr} {name : Option Text}
    (makes : tree.Makes (.call span callee items argumentsSpan name)) :
    ∃ args extent, Tree.Within args tree ∧ args.symbol = .nonterminal .arguments ∧
      args.assemble = .ok ⟨extent, [.arguments argumentsSpan items]⟩ := by
  obtain ⟨p, children, within, -, made, -, action⟩ := derived.makes makes
  obtain ⟨args, child, head, extent, inner⟩ :=
    Tree.call_arguments (within.valid derived.valid) (action ⟨_, _, _, _, _, rfl⟩) made rfl
  exact ⟨args, extent, within.descend child, head, inner⟩

/-- The arguments of a call stand inside the script. Between their start and an identifier
that comes first there is nothing but opening parentheses. -/
theorem Derived.call (derived : Derived s tree) {span argumentsSpan : Span} {callee : Expr}
    {items : List Expr} {name : Option Text}
    (makes : tree.Makes (.call span callee items argumentsSpan name)) :
    argumentsSpan.Inside s.source.length ∧
      ∀ place spelling more, items = .identifier place spelling :: more →
        ∃ (opening t : Token) (before behind : List Token),
          opening :: before ++ t :: behind <:+: tree.word ∧
          opening.span.start = argumentsSpan.start ∧ t.span = place ∧
          ∀ u ∈ opening :: before, u.terminal = .punctuator .openParen := by
  obtain ⟨args, extent, below, head, inner⟩ := derived.arguments_derived makes
  have valid := below.valid derived.valid
  have place := Tree.arguments_span valid head inner
  refine ⟨derived.inside below place, ?_⟩
  rintro first spelling more rfl
  obtain ⟨opening, element, rest, word, opens, symbol, valid, _, only⟩ :=
    Tree.arguments_first valid head inner
  obtain ⟨before, t, behind, word', same, parens⟩ :=
    Tree.identifier_word valid symbol rfl only rfl
  refine ⟨opening, t, before, behind ++ rest, ?_, ?_, same, ?_⟩
  · have whole : args.word = opening :: before ++ t :: (behind ++ rest) := by
      rw [word, word']
      simp
    exact whole ▸ below.leaves
  · obtain ⟨first', _, starts, -, rfl⟩ := Token.extent?_eq_some.mp place
    rw [word] at starts
    obtain rfl : opening = first' := by simpa using starts
    rfl
  · intro u member
    rcases List.mem_cons.mp member with rfl | member
    · exact opens
    · exact parens u member

/-- The first argument of a call lies inside the arguments. -/
theorem Derived.first_covered (derived : Derived s tree) {span argumentsSpan : Span}
    {callee first : Expr} {more : List Expr} {name : Option Text}
    (makes : tree.Makes (.call span callee (first :: more) argumentsSpan name)) :
    argumentsSpan.Covers first.span := by
  obtain ⟨args, extent, below, head, inner⟩ := derived.arguments_derived makes
  have valid := below.valid derived.valid
  obtain ⟨opening, element, rest, word, -, -, valid', place, only⟩ :=
    Tree.arguments_first valid head inner
  have part : element.word <:+: args.word := ⟨[opening], rest, by simp [word]⟩
  have order := derived.inOrder.sub below.leaves
  obtain ⟨middle, extent', covers, -⟩ :=
    Tree.assemble_covers valid' (order.sub part) only (List.mem_singleton.mpr rfl)
  obtain ⟨outer, whole, covers'⟩ :=
    order.covers part ((Tree.assemble_span only).symm.trans extent')
  obtain rfl := Option.some.inj (whole.symm.trans (Tree.arguments_span valid head inner))
  exact covers'.trans covers

/-- A closing brace that ends before an identifier starts also ends before the
parentheses around that identifier. -/
theorem brace_before {tokens before behind : List Token} {opening t brace : Token}
    (order : Token.InOrder tokens) (part : opening :: before ++ t :: behind <:+: tokens)
    (parens : ∀ u ∈ opening :: before, u.terminal = .punctuator .openParen)
    (member : brace ∈ tokens) (closes : brace.terminal = .punctuator .closeBrace)
    (ends : brace.span.stop ≤ t.span.start) : brace.span.stop ≤ opening.span.start := by
  obtain ⟨front, back, rfl⟩ := part
  have some := order.some brace member
  have apart := order.apart
  simp only [List.append_assoc, List.pairwise_append] at apart
  simp only [List.append_assoc, List.mem_append] at member
  rcases member with member | member | member
  · exact apart.2.2 brace member opening (by simp)
  · rw [parens brace member] at closes
    cases closes
  · have rest : t :: (behind ++ back) <:+: front ++ (opening :: before ++ t :: behind) ++ back :=
      ⟨front ++ (opening :: before), [], by simp⟩
    have start := (order.sub rest).first rfl (List.mem_cons.mpr (by simpa [or_assoc] using member))
    omega

end Script

/-- The calls that a script is searched for are calls in it. -/
theorem Script.Derived.styleCall (derived : Derived s tree) {names : List Text} {c : Call}
    (member : c ∈ s.styleCalls names) : ∃ callee,
      tree.Makes (.call c.span callee c.arguments c.argumentsSpan c.calleeName) ∧
      ∀ e ∈ c.arguments, e.Grounded tree := by
  obtain ⟨n, walked, same⟩ := List.mem_filterMap.mp (List.mem_filter.mp member).1
  obtain ⟨statement, listed, holds⟩ := mem_walk walked
  have grounded (inner : Node) (below : Node.Holds n inner) : Node.Grounded tree inner :=
    derived.grounded statement listed inner (holds.trans below)
  unfold Call.ofNode? at same
  split at same
  · rename_i callee arguments argumentsSpan calleeName
    cases same
    refine ⟨callee, grounded _ .self, fun e listed inner below => grounded inner ?_⟩
    exact .inside (List.mem_cons_of_mem _ (List.mem_map_of_mem listed)) below
  · contradiction

/-- The arguments of a call stand inside the script. -/
theorem Script.Derived.argumentsSpan (derived : Derived s tree) {names : List Text} {c : Call}
    (member : c ∈ s.styleCalls names) : c.argumentsSpan.Inside s.source.length := by
  obtain ⟨callee, makes, -⟩ := derived.styleCall member
  exact (derived.call makes).1

theorem ScopeTable.resolve_of_findMapping {t : ScopeTable} {first : Expr} {found : FoundMapping}
    (resolved : t.findMapping first = .ok found) :
    t.resolve first = .resolved (.mapping found.span found.entries) := by
  unfold findMapping at resolved
  split at resolved
  · cases resolved
  · rename_i same
    cases resolved
    exact same
  · cases resolved

theorem Script.Derived.resolved (derived : Derived s tree) {e : Expr} (grounded : e.Grounded tree)
    {found : FoundMapping} (resolved : s.scopeTable.findMapping e = .ok found) :
    tree.Makes (.mapping found.span found.entries) ∧
      (∀ place name, e = .identifier place name → found.span.stop ≤ place.start) := by
  have followed := ScopeTable.resolve_of_findMapping resolved
  have sound := Script.scopeTable_sound derived
  have good := ScopeTable.follow_grounded sound grounded followed
  have behind := ScopeTable.follow_backward (ScopeTable.backward_of_sound sound) followed
  refine ⟨(Node.everywhere_iff.mp good).1, ?_⟩
  rintro place name rfl
  rcases behind with ⟨other, -⟩ | ⟨_, _, _, _, same⟩ | before
  · exact absurd rfl (other place name)
  · cases same
  · exact before

/-- The object literal that the first argument of a call stands for is inside the script,
and before the arguments unless it stands in the call. -/
theorem Script.Derived.foundMapping (derived : Derived s tree) {names : List Text} {c : Call}
    (member : c ∈ s.styleCalls names) {first : Expr} {more : List Expr}
    (arguments : c.arguments = first :: more) {found : FoundMapping}
    (resolved : s.scopeTable.findMapping first = .ok found) :
    tree.Makes (.mapping found.span found.entries) ∧ found.span.Inside s.source.length ∧
      (Call.isInline first = false → found.span.stop ≤ c.argumentsSpan.start) := by
  obtain ⟨callee, makes, grounded⟩ := derived.styleCall member
  obtain ⟨literal, before⟩ :=
    derived.resolved (grounded first (arguments ▸ List.mem_cons_self)) resolved
  obtain ⟨inside, brace, listed, closes, ends⟩ := derived.mapping literal
  refine ⟨literal, inside, fun reference => ?_⟩
  cases first with
  | identifier place name =>
    obtain ⟨opening, t, front, back, part, starts, same, parens⟩ :=
      (derived.call makes).2 place name more arguments
    have start : t.span.start = place.start := congrArg Span.start same
    have stop := before place name rfl
    have outside := brace_before derived.inOrder part parens listed closes (by omega)
    omega
  | literal | list | mapping | function | call | other => cases reference

end StyleSplit
