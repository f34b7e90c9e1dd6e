import StyleSplit.Proofs.Precompile.Sharing
import StyleSplit.Proofs.Rewrite.Glueing
import StyleSplit.Proofs.Script.Contents
import StyleSplit.Proofs.Script.Leading

/-! What the rewritten arguments of a call are read as. Arguments are copied without the
parentheses around them, so one that has a comma of its own falls apart; all others stay
what they are, in whichever way the new list is derived. -/
namespace StyleSplit

open Script Script.Token

namespace Script

/-- The tokens of a derivation are those of a text. -/
def Tree.Spells (tree : Tree) (t : Text) : Prop := Token.Lexes t tree.bare []

/-- An argument that is an object literal of two entries: one that spreads what a text is
read as, and one that is made of the tokens of another text. -/
def Tree.SpreadsInto (argument : Tree) (options entry : Text) : Prop :=
  ∃ literal first second, Wraps literal argument ∧ literal.symbol = .nonterminal .objectLiteral ∧
    literal.parts .property = [first, second] ∧ second.Spells entry ∧
    ∃ p dots value, first = .node p [.leaf dots, value] ∧ p.action = .spreadEntry ∧
      value.symbol = .nonterminal .assignment ∧ value.Spells options

variable {s : Script} {tree : Tree} {span : Span} {u : List (Terminal × Text)} {n : Nonterminal}

theorem Tree.Spells.readsAs {t : Text} (spells : tree.Spells t) (valid : tree.valid grammar = true)
    (symbol : tree.symbol = .nonterminal n) : ReadsAs n t := by
  have derives := Grammar.Derives.of_tree valid
  rw [symbol, ← Tree.bare_terminals] at derives
  exact ⟨_, spells, derives⟩

theorem Slice.spells (slice : s.Slice span u) : tree.Spells (s.textAt span) ↔ tree.bare = u := by
  have lexes := slice.piece [] Token.stop_nil
  rw [List.append_nil] at lexes
  refine ⟨fun spells => spells.unique lexes, fun same => ?_⟩
  rw [Tree.Spells, same]
  exact lexes

theorem Slice.readsAs (slice : s.Slice span u) :
    ReadsAs n (s.textAt span) ↔ grammar.Derives [.nonterminal n] (u.map Prod.fst) := by
  have lexes := slice.piece [] Token.stop_nil
  rw [List.append_nil] at lexes
  refine ⟨?_, fun derives => ⟨u, lexes, derives⟩⟩
  rintro ⟨v, other, derives⟩
  exact other.unique lexes ▸ derives

end Script

namespace Call

/-- What is written for the first argument of a call. -/
def firstText (s : Script) (description : Description) (sheet : Sheet) (indent : Text)
    (first : Expr) : Text :=
  if isInline first then descriptionText s description sheet indent else s.textAt first.span

/-- The edits of a call that is rewritten: of the declaration that its first argument refers
to, unless that has been seen to, and of its arguments. -/
theorem rewrite_edits {s : Script} {c : Call} {description : Description} {sheet : Sheet}
    {edits : List Edit} {rewriteDeclaration : Bool}
    (rewritten : c.rewrite s description sheet rewriteDeclaration = .ok edits)
    (some : edits ≠ []) :
    ∃ first more options, c.arguments = first :: more ∧
      optionsText s more.head? sheet (s.source.lineIndent c.argumentsSpan.start) = .ok options ∧
      edits = (if isInline first || !rewriteDeclaration then [] else
          [⟨description.span, descriptionText s description sheet
            (s.source.lineIndent description.span.start)⟩]) ++
        [⟨c.argumentsSpan, argumentsText
          (firstText s description sheet (s.source.lineIndent c.argumentsSpan.start) first) options
          (more.tail.map fun e => s.textAt e.span)⟩] := by
  unfold rewrite at rewritten
  split at rewritten
  · cases rewritten
    contradiction
  split at rewritten
  · cases rewritten
    contradiction
  rename_i first more arguments
  obtain ⟨options, made, same⟩ := bind_eq_ok.mp rewritten
  exact ⟨first, more, options, arguments, made, (Except.ok.inj same).symm⟩

theorem rewrite_arguments {s : Script} {c : Call} {description : Description} {sheet : Sheet}
    {edits : List Edit} {rewriteDeclaration : Bool} {emitted : Text} {first : Expr}
    {more : List Expr} (arguments : c.arguments = first :: more)
    (rewritten : c.rewrite s description sheet rewriteDeclaration = .ok edits)
    (member : ⟨c.argumentsSpan, emitted⟩ ∈ edits)
    (apart : isInline first = false → description.span ≠ c.argumentsSpan) :
    ∃ options, optionsText s more.head? sheet (s.source.lineIndent c.argumentsSpan.start) =
        .ok options ∧
      emitted = argumentsText
        (firstText s description sheet (s.source.lineIndent c.argumentsSpan.start) first) options
        (more.tail.map fun e => s.textAt e.span) := by
  obtain ⟨_, _, options, given, made, rfl⟩ :=
    rewrite_edits rewritten (List.ne_nil_of_mem member)
  rw [arguments] at given
  obtain ⟨rfl, rfl⟩ := List.cons.inj given
  refine ⟨options, made, ?_⟩
  rcases List.mem_append.mp member with declaration | only
  · split at declaration
    · cases declaration
    · rename_i reference
      have reference : isInline first = false ∧ rewriteDeclaration = true := by
        simpa using reference
      have span := congrArg Edit.span (List.mem_singleton.mp declaration)
      exact absurd span.symm (apart reference.1)
  · exact congrArg Edit.text (List.mem_singleton.mp only)

/-- What does not replace the arguments of a call replaces a declaration by its description. -/
theorem declaration_text {s : Script} {c : Call} {description : Description} {sheet : Sheet}
    {edits : List Edit} {rewriteDeclaration : Bool}
    (rewritten : c.rewrite s description sheet rewriteDeclaration = .ok edits)
    {edit : Edit} (member : edit ∈ edits) (other : edit.span ≠ c.argumentsSpan) :
    edit.text = descriptionText s description sheet
      (s.source.lineIndent description.span.start) := by
  obtain ⟨_, _, _, -, -, rfl⟩ := rewrite_edits rewritten (List.ne_nil_of_mem member)
  rcases List.mem_append.mp member with declaration | only
  · split at declaration
    · cases declaration
    · rw [List.mem_singleton.mp declaration]
  · exact absurd (congrArg Edit.span (List.mem_singleton.mp only)) other

/-- The tokens that rewritten arguments are made of: those of the description, of the
options, and of the other arguments. -/
structure Tokens (s : Script) (c : Call) (sheet : Sheet) (first second : List (Terminal × Text))
    (others : List (List (Terminal × Text))) : Prop where
  description : first ≠ [] ∧ Single (first.map Prod.fst)
  raw : ∀ e, c.arguments.head? = some e → isInline e = true → RawFirst sheet first
  options : ClassesLast sheet second
  spread : ∀ e, c.spreadOptions? = some e → ∃ u, s.Slice e.span u ∧
    second = listing .openBrace .closeBrace [Punctuator.ellipsis.bare :: u, classesTokens sheet]
  others : List.Forall₂ (fun e u => s.Slice e.span u) (c.arguments.drop 2) others

/-- The arguments of a rewritten call are kept by a derivation of what is written for them:
there are as many, with one more if there were no options; the third and all further ones
are made of the tokens of the arguments that they were; and options that are spread are
spread as a whole, in front of the class names. -/
structure Kept (s : Script) (c : Call) (sheet : Sheet) (emitted : Tree) : Prop where
  count : (emitted.parts .element).length = max c.arguments.length 2
  items : ∀ place span items, emitted.assemble = .ok ⟨place, [.arguments span items]⟩ →
    items.length = max c.arguments.length 2
  others : List.Forall₂ (fun e argument => argument.Spells (s.textAt e.span))
    (c.arguments.drop 2) ((emitted.parts .element).drop 2)
  options : ∀ e, c.spreadOptions? = some e →
    ∃ argument, (emitted.parts .element)[1]? = some argument ∧
      argument.SpreadsInto (s.textAt e.span)
        (classesText sheet (s.source.lineIndent c.argumentsSpan.start))

end Call

theorem Script.listing_ne_nil {first last : Punctuator} {parts : List (List (Terminal × Text))} :
    listing first last parts ≠ [] := by
  cases parts <;> simp [listing]

/-- Options that read as one operand are spread as a whole. -/
theorem Script.Tree.spreadsInto {argument : Tree} {u classes : List (Terminal × Text)}
    {options entry : Text} (valid : argument.valid grammar = true)
    (symbol : argument.symbol = .nonterminal .element)
    (same : argument.bare = listing .openBrace .closeBrace [Punctuator.ellipsis.bare :: u, classes])
    (lexes : Token.Lexes options u []) (single : Single (u.map Prod.fst))
    (lexes' : Token.Lexes entry classes []) (filled : classes ≠ [])
    (single' : Single (classes.map Prod.fst)) : argument.SpreadsInto options entry := by
  obtain ⟨brace, first, opens⟩ := head_of_bare same
  obtain ⟨literal, leads, head⟩ := literal_of_brace valid symbol (by decide) first opens
  obtain ⟨behind, word⟩ := leads.word
  have inner := leads.within.valid valid
  have whole : literal.bare ++ behind.map Token.bare = Punctuator.openBrace.bare ::
      ((Punctuator.ellipsis.bare :: u) ++ following .closeBrace [classes]) := by
    change literal.word.map Token.bare ++ behind.map Token.bare = _
    rw [← List.map_append, ← word]
    exact same
  have each : ∀ i ∈ [Punctuator.ellipsis.bare :: u, classes],
      i ≠ [] ∧ Single (i.map Prod.fst) := by
    simp only [List.mem_cons, List.not_mem_nil, or_false, forall_eq_or_imp, forall_eq]
    exact ⟨⟨by simp, single⟩, filled, single'⟩
  obtain ⟨properties, none⟩ := Listing.objectLiteral.parts_eq inner head following_ok each whole
  obtain rfl := List.map_eq_nil_iff.mp none
  have wraps := leads.wraps valid (by rw [word, List.append_nil])
  obtain ⟨one, _, parts, spread, tail⟩ := List.map_eq_cons_iff.mp properties
  obtain ⟨two, rfl, rfl⟩ := List.map_eq_singleton_iff.mp tail
  have listed : one ∈ literal.parts .property := parts ▸ List.mem_cons_self
  obtain ⟨kind, within⟩ := mem_parts listed
  obtain ⟨dots, front, points⟩ := head_of_bare spread
  obtain ⟨p, value, rfl, action, operand⟩ :=
    spread_of_dots (within.valid inner) kind front points
  refine ⟨literal, _, two, wraps, head, parts, lexes', p, dots, value, rfl, action, operand, ?_⟩
  rw [bare_node] at spread
  have same : value.bare = u := by simpa [bare_leaf] using (List.cons.inj spread).2
  rw [Tree.Spells, same]
  exact lexes

theorem Call.Tokens.kept {s : Script} {c : Call} {sheet : Sheet}
    {first second : List (Terminal × Text)} {others : List (List (Terminal × Text))}
    (tokens : c.Tokens s sheet first second others) (some : c.arguments ≠ []) {tree : Tree}
    (valid : tree.valid grammar = true) (symbol : tree.symbol = .nonterminal .arguments)
    (same : tree.bare = listing .openParen .closeParen (first :: second :: others))
    (plain : ∀ e ∈ c.arguments.drop 2, ReadsAs .element (s.textAt e.span))
    (operand : ∀ e, c.spreadOptions? = .some e → ReadsAs .assignment (s.textAt e.span)) :
    c.Kept s sheet tree := by
  have each : ∀ i ∈ first :: second :: others, i ≠ [] ∧ Single (i.map Prod.fst) := by
    intro i member
    rcases List.mem_cons.mp member with rfl | member
    · exact tokens.description
    rcases List.mem_cons.mp member with rfl | member
    · obtain ⟨_, rfl, -⟩ := tokens.options
      exact ⟨listing_ne_nil, tokens.options.single⟩
    · obtain ⟨e, listed, slice⟩ := mem_of_forall₂ tokens.others member
      exact ⟨slice.filled, (slice.readsAs.mp (plain e listed)).single rfl⟩
  obtain ⟨parts, -⟩ := Listing.arguments.parts_eq (x := []) valid symbol following_ok each
    (by rw [List.append_nil]; exact same)
  have parts : (tree.parts .element).map Tree.bare = first :: second :: others := parts
  have length := congrArg List.length parts
  have behind := tokens.others.length_eq
  rw [List.length_drop] at behind
  simp only [List.length_map, List.length_cons] at length
  have count : (tree.parts .element).length = max c.arguments.length 2 := by
    have filled := List.length_pos_iff.mpr some
    omega
  refine ⟨count, fun place span items made => ?_, ?_, fun e spread => ?_⟩
  · rw [Tree.items_length valid symbol made, count]
  · have rest : ((tree.parts .element).drop 2).map Tree.bare = others := by
      rw [List.map_drop, parts]
      rfl
    have slices := tokens.others
    rw [← rest, List.forall₂_map_right_iff] at slices
    exact slices.imp fun _ _ slice => slice.spells.mpr rfl
  · obtain ⟨u, slice, options⟩ := tokens.spread e spread
    have found := congrArg (·[1]?) parts
    simp only [List.getElem?_map, List.getElem?_cons_succ, List.getElem?_cons_zero,
      Option.map_eq_some_iff] at found
    obtain ⟨argument, found, here⟩ := found
    obtain ⟨kind, within⟩ := Tree.mem_parts (List.mem_of_getElem? found)
    have lexes := slice.piece [] Token.stop_nil
    have blank := Text.lineIndent_blank s.source c.argumentsSpan.start
    have lexes' := classesText_closed sheet blank []
    rw [List.append_nil] at lexes lexes'
    exact ⟨argument, found, Tree.spreadsInto (within.valid valid) kind (here.trans options) lexes
      ((slice.readsAs.mp (operand e spread)).single rfl) lexes' (List.cons_ne_nil _ _)
      (single_classes sheet)⟩

namespace Precompiler

variable {p : Precompiler} {tree : Tree} {k : Nat} {call : Call} {sheet : Sheet} {emitted : Text}
  {edits : List Edit}

/-- The arguments of a call that is rewritten are replaced. -/
theorem exists_emitted (found : p.calls[k]? = some call)
    (became : p.outcomes[k]? = some (.rewritten edits sheet)) :
    ∃ emitted, ⟨call.argumentsSpan, emitted⟩ ∈ edits := by
  obtain ⟨_, _, _, _, rewrites, -⟩ := rewrites_of_outcome found became
  obtain ⟨emitted, only | ⟨-, -, _, both⟩⟩ := rewrites.shape
  · exact ⟨emitted, by simp [only]⟩
  · exact ⟨emitted, by simp [both]⟩

/-- What stays of a divided selector stood in an object literal of the script. -/
theorem Reads.dynamic_made (reads : p.Reads tree) {found : FoundMapping}
    (makes : tree.Makes (.mapping found.span found.entries)) {entry e : Entry}
    (listed : entry ∈ found.entries)
    (stays : e ∈ (p.table.classifySelector (p.table.keyName entry) entry).dynamic) :
    ∃ span entries, tree.Makes (.mapping span entries) ∧ e ∈ entries := by
  obtain ⟨-, -, none⟩ | ⟨-, -, span, entries, refers, splits, -⟩ :=
    p.table.classifySelector_spec (p.table.keyName entry) entry
  · rw [none] at stays
    cases stays
  · have grounded := reads.derived.grounded_of_makes makes
    have value := Action.value_every (grounded.child (List.mem_map_of_mem listed))
    have resolved : p.script.scopeTable.findMapping entry.value = .ok ⟨span, entries⟩ := by
      rw [reads.table] at refers
      simp only [ScopeTable.findMapping, refers]
    obtain ⟨other, -⟩ := reads.derived.resolved value resolved
    exact ⟨span, entries, other, splits.dynamic_subset stays⟩

/-- The selectors of a description of the script copy nothing but parts of the script. -/
theorem Reads.copied (reads : p.Reads tree) {found : FoundMapping}
    (makes : tree.Makes (.mapping found.span found.entries)) {description : Description}
    (classified : p.table.classify found.span found.entries = .ok description) :
    ∀ selector ∈ description.selectors, selector.Copied p.script := by
  intro selector member
  rw [(Description.classify_selectors classified).1] at member
  obtain ⟨entry, listed, rfl⟩ := List.mem_map.mp member
  obtain ⟨here, key⟩ := reads.derived.slice_entry makes listed
  refine ⟨?_, ?_, fun e stays => ?_⟩
  · rwa [ScopeTable.classifySelector_entry]
  · rwa [ScopeTable.classifySelector_entry]
  · obtain ⟨span, entries, other, member⟩ := reads.dynamic_made makes listed stays
    exact (reads.derived.slice_entry other member).1

/-- What is written for the first argument is one item. -/
theorem Reads.first_tokens (reads : p.Reads tree) (listed : call ∈ p.script.styleCalls p.names)
    {first : Expr} (argument : first ∈ call.arguments) {description : Description}
    (copied : ∀ selector ∈ description.selectors, selector.Copied p.script) (sheet : Sheet)
    {indent : Text} (blank : ∀ c ∈ indent, isBlank c = true) :
    ∃ w, Token.Piece (Call.firstText p.script description sheet indent first) w ∧
      (w ≠ [] ∧ Single (w.map Prod.fst)) ∧
        (Call.isInline first = true → Call.RawFirst sheet w) := by
  unfold Call.firstText
  split
  · obtain ⟨w, closed, raw⟩ := Call.descriptionText_closed copied blank
    have filled : w ≠ [] := by
      obtain ⟨_, rfl, -⟩ := raw
      exact listing_ne_nil
    exact ⟨w, closed.piece, ⟨filled, raw.single⟩, fun _ => raw⟩
  · rename_i reference
    obtain ⟨u, slice, name⟩ := reads.derived.slice_argument listed argument
    refine ⟨u, slice.piece, ⟨slice.filled, ?_⟩, fun inline => absurd inline reference⟩
    rw [name (Bool.eq_false_iff.mpr reference)]
    rfl

/-- What is written for the options is one item, a spread where they are spread. -/
theorem Reads.options_tokens (reads : p.Reads tree) (listed : call ∈ p.script.styleCalls p.names)
    {options indent : Text} (blank : ∀ c ∈ indent, isBlank c = true)
    (made : Call.optionsText p.script (call.arguments[1]?) sheet indent = .ok options) :
    ∃ v, Closed options v ∧ Call.ClassesLast sheet v ∧
      ∀ e, call.spreadOptions? = some e → ∃ u, p.script.Slice e.span u ∧
        v = listing .openBrace .closeBrace
          [Punctuator.ellipsis.bare :: u, Call.classesTokens sheet] := by
  have sliced (e : Expr) (second : call.arguments[1]? = some e) : ∃ u, p.script.Slice e.span u := by
    obtain ⟨u, slice, -⟩ := reads.derived.slice_argument listed (List.mem_of_getElem? second)
    exact ⟨u, slice⟩
  cases spread : call.spreadOptions? with
  | none =>
    have entries (span : Span) (entries : List Entry)
        (second : call.arguments[1]? = some (.mapping span entries)) (e : Entry)
        (member : e ∈ entries) : ∃ u, p.script.Slice e.span u := by
      obtain ⟨callee, -, grounded⟩ := reads.derived.styleCall listed
      have makes := (Node.everywhere_iff.mp (grounded _ (List.mem_of_getElem? second))).1
      exact (reads.derived.slice_entry makes member).1
    obtain ⟨v, closed, last⟩ := Call.optionsText_closed sliced entries blank made
    exact ⟨v, closed, last, by simp⟩
  | some e =>
    obtain ⟨second, given⟩ := Option.filter_eq_some_iff.mp spread
    obtain ⟨u, slice⟩ := sliced e second
    have closed := Call.classesText_closed sheet blank
    rw [second, Call.optionsText_spread given] at made
    obtain rfl := Except.ok.inj made
    have dots := (closed_mark (m := .ellipsis) (by decide)).behind slice.piece
    have balanced : Balanced [Punctuator.ellipsis.bare.1] := Single.balanced rfl
    refine ⟨_, closed_layoutMapping blank (.cons dots (.cons closed.piece .nil)),
      ⟨[Punctuator.ellipsis.bare :: u], rfl, ?_⟩, ?_⟩
    · rintro _ (_ | ⟨_, ⟨⟩⟩)
      exact balanced.append slice.balanced
    · intro other same
      obtain rfl := Option.some.inj same
      exact ⟨u, slice, rfl⟩

/-- A declaration that a call refers to does not stand where its arguments do. -/
theorem Rewrites.declared_apart {index : Nat} {r : RunState} {first : Expr} {declared : Declared}
    {shared : Bool} {a : Allocator}
    (rewrites : Rewrites p index call r first edits declared shared a) (reads : p.Reads tree)
    (safe : p.Safe tree r) (listed : call ∈ p.script.styleCalls p.names)
    (reference : Call.isInline first = false) :
    declared.description.span ≠ call.argumentsSpan := by
  obtain ⟨more, arguments⟩ := rewrites.arguments
  obtain ⟨-, mapping, resolved, span, -⟩ := rewrites.description reads safe listed
  obtain ⟨-, inside, before⟩ := reads.found listed arguments resolved
  intro same
  have before := before reference
  rw [← span, same] at before inside
  have filled := inside.1
  omega

/-- New arguments are written from the old ones and from an object literal of the script. -/
theorem Reads.arguments_text (reads : p.Reads tree) (found : p.calls[k]? = some call)
    (became : p.outcomes[k]? = some (.rewritten edits sheet))
    (member : ⟨call.argumentsSpan, emitted⟩ ∈ edits) :
    let indent := p.script.source.lineIndent call.argumentsSpan.start
    ∃ first more options, ∃ (mapping : FoundMapping) (description : Description),
      call.arguments = first :: more ∧
      tree.Makes (.mapping mapping.span mapping.entries) ∧
      p.table.classify mapping.span mapping.entries = .ok description ∧
      Call.optionsText p.script (call.arguments[1]?) sheet indent = .ok options ∧
      emitted = Call.argumentsText (Call.firstText p.script description sheet indent first) options
        (more.tail.map fun e => p.script.textAt e.span) := by
  obtain ⟨first, declared, shared, a, rewrites, rfl⟩ := rewrites_of_outcome found became
  have listed := mem_calls found
  obtain ⟨more, arguments⟩ := rewrites.arguments
  obtain ⟨-, mapping, -, -, makes, classified⟩ :=
    rewrites.description reads (safeAt reads found) listed
  obtain ⟨options, made, same⟩ := Call.rewrite_arguments arguments rewrites.rewritten member
    (rewrites.declared_apart reads (safeAt reads found) listed)
  have second : call.arguments[1]? = more.head? := by rw [arguments]; cases more <;> rfl
  exact ⟨first, more, options, mapping, declared.description, arguments, makes, classified,
    second ▸ made, same⟩

theorem emitted_tokens (reads : p.Reads tree) (found : p.calls[k]? = some call)
    (became : p.outcomes[k]? = some (.rewritten edits sheet))
    (member : ⟨call.argumentsSpan, emitted⟩ ∈ edits) :
    call.arguments ≠ [] ∧ ∃ first second others, call.Tokens p.script sheet first second others ∧
      Closed emitted (listing .openParen .closeParen (first :: second :: others)) := by
  obtain ⟨first, more, options, mapping, description, arguments, makes, classified, made, rfl⟩ :=
    reads.arguments_text found became member
  have listed := mem_calls found
  have blank := Text.lineIndent_blank p.script.source call.argumentsSpan.start
  have behind : call.arguments.drop 2 = more.tail := by rw [arguments]; cases more <;> rfl
  obtain ⟨w, piece, description, raw⟩ := reads.first_tokens listed
    (arguments ▸ List.mem_cons_self) (reads.copied makes classified) sheet blank
  obtain ⟨v, closed, last, spread⟩ := reads.options_tokens listed blank made
  have raw : ∀ e, call.arguments.head? = some e → Call.isInline e = true →
      Call.RawFirst sheet w := by
    rw [arguments]
    rintro _ ⟨⟩
    exact raw
  have each : ∀ e ∈ more.tail, ∃ u, p.script.Slice e.span u := by
    intro e member
    have argument : e ∈ call.arguments := by simp [arguments, List.mem_of_mem_tail member]
    obtain ⟨u, slice, -⟩ := reads.derived.slice_argument listed argument
    exact ⟨u, slice⟩
  obtain ⟨others, slices⟩ := exists_forall₂ each
  have pieces : List.Forall₂ Token.Piece (more.tail.map fun e => p.script.textAt e.span) others :=
    List.forall₂_map_left_iff.mpr (slices.imp fun _ _ slice => slice.piece)
  exact ⟨by simp [arguments], w, v, others,
    ⟨description, raw, last, spread, behind ▸ slices⟩,
    Call.argumentsText_closed piece closed pieces⟩

end Precompiler

/-- A call that is rewritten gets new arguments. However these are derived, they are the old
ones, with the options spread as a whole, exactly if each argument that is copied reads as
one argument without the parentheses around it. -/
theorem emitted_arguments_kept_iff {settings : Settings} {filename source : Text} {script : Script}
    (parsed : Script.parse source = .ok script) {k : Nat} {call : Call} {edits : List Edit}
    {sheet : Sheet}
    (found : (Precompiler.ofScript settings filename script).calls[k]? = some call)
    (became : (Precompiler.ofScript settings filename script).outcomes[k]? =
      some (.rewritten edits sheet)) :
    (∃ emitted, ⟨call.argumentsSpan, emitted⟩ ∈ edits) ∧
    ∀ emitted, ⟨call.argumentsSpan, emitted⟩ ∈ edits → ∀ tree : Tree,
      tree.valid grammar = true → tree.symbol = .nonterminal .arguments → tree.Spells emitted →
      (call.Kept script sheet tree ↔
        (∀ e ∈ call.arguments.drop 2, ReadsAs .element (script.textAt e.span)) ∧
          ∀ e, call.spreadOptions? = some e → ReadsAs .assignment (script.textAt e.span)) := by
  refine ⟨Precompiler.exists_emitted found became, fun emitted member tree valid symbol spells =>
    ⟨fun kept => ⟨fun e listed => ?_, fun e spread => ?_⟩, ?_⟩⟩
  · obtain ⟨argument, listed, spells⟩ := mem_of_forall₂ kept.others.flip listed
    obtain ⟨kind, within⟩ := Tree.mem_parts (List.mem_of_mem_drop listed)
    exact Tree.Spells.readsAs spells (within.valid valid) kind
  · obtain ⟨argument, found, literal, first, second, wraps, -, parts, -, p, dots, value, rfl, -,
      kind, spells⟩ := kept.options e spread
    obtain ⟨-, within⟩ := Tree.mem_parts (List.mem_of_getElem? found)
    obtain ⟨-, inner⟩ := Tree.mem_parts (parts ▸ List.mem_cons_self)
    have valid := inner.valid (wraps.within.valid (within.valid valid))
    exact spells.readsAs ((Tree.valid_node.mp valid).2.2 value (by simp)) kind
  · rintro ⟨plain, operand⟩
    obtain ⟨tree', reads⟩ := reads_ofScript settings filename parsed
    obtain ⟨some, first, second, others, tokens, closed⟩ :=
      Precompiler.emitted_tokens reads found became member
    have lexes := closed []
    rw [List.append_nil] at lexes
    exact tokens.kept some valid symbol (spells.unique lexes) plain operand

/-- What becomes of the first call of a script, and a derivation of its new arguments. -/
def firstArguments? (script : Script) : Option (Call × Outcome × Edit × Tree) := do
  let p := Precompiler.ofScript shortSettings [] script
  let call ← p.calls[0]?
  let outcome ← p.outcomes[0]?
  let edit ← outcome.edits.head?
  let arguments : Grammar := ⟨.arguments, grammar.productions⟩
  let tree ← (arguments.parse (Token.ofText edit.text).1).toOption
  return (call, outcome, edit, tree)

/-- The derivation is one of the arguments that the call is rewritten to. -/
def isFirstArguments : Call × Outcome × Edit × Tree → Bool
  | (call, outcome, edit, tree) => outcome.isRewritten && edit.span == call.argumentsSpan &&
    tree.valid grammar && tree.symbol == .nonterminal .arguments &&
    Token.ofText edit.text == (tree.word, none)

theorem exists_firstArguments {script : Script} (check : Call → Tree → Bool)
    (checked : (firstArguments? script).any (fun run => isFirstArguments run &&
      check run.1 run.2.2.2) = true) :
    let p := Precompiler.ofScript shortSettings [] script
    ∃ call edits sheet emitted, ∃ tree : Tree, p.calls[0]? = some call ∧
      p.outcomes[0]? = some (.rewritten edits sheet) ∧ ⟨call.argumentsSpan, emitted⟩ ∈ edits ∧
      tree.valid grammar = true ∧ tree.symbol = .nonterminal .arguments ∧
      tree.Spells emitted ∧ check call tree = true := by
  obtain ⟨run, first, checked⟩ := (Option.any_eq_true _ _).mp checked
  obtain ⟨call, found, first⟩ := Option.bind_eq_some_iff.mp first
  obtain ⟨outcome, became, first⟩ := Option.bind_eq_some_iff.mp first
  obtain ⟨edit, head, first⟩ := Option.bind_eq_some_iff.mp first
  obtain ⟨tree, -, first⟩ := Option.bind_eq_some_iff.mp first
  obtain rfl := Option.some.inj first
  simp only [isFirstArguments, Bool.and_eq_true] at checked
  obtain ⟨⟨⟨⟨⟨rewritten, span⟩, valid⟩, symbol⟩, scanned⟩, checked⟩ := checked
  obtain ⟨edits, sheet, rfl⟩ : ∃ edits sheet, outcome = .rewritten edits sheet := by
    cases outcome with
    | rewritten edits sheet => exact ⟨edits, sheet, rfl⟩
    | noop | unchanged | skipped => cases rewritten
  have member : ⟨call.argumentsSpan, edit.text⟩ ∈ edits :=
    eq_of_beq span ▸ List.mem_of_mem_head? head
  exact ⟨call, edits, sheet, edit.text, tree, found, became, member, valid, eq_of_beq symbol,
    (Token.ofText_sound (eq_of_beq scanned)).lexes, checked⟩

/-- The script `f({a:{b:1}},o,(x,y))`. -/
def sequenceSource : Text := text "f(\x7ba:\x7bb:1\x7d\x7d,o,(x,y))"

theorem sequenceSource_run : ∃ script, Script.parse sequenceSource = .ok script ∧
    let p := Precompiler.ofScript shortSettings [] script
    ∃ call edits sheet emitted, ∃ tree : Tree, p.calls[0]? = some call ∧
      p.outcomes[0]? = some (.rewritten edits sheet) ∧ ⟨call.argumentsSpan, emitted⟩ ∈ edits ∧
      tree.valid grammar = true ∧ tree.symbol = .nonterminal .arguments ∧
      tree.Spells emitted ∧ call.arguments.length = 3 ∧ (tree.parts .element).length = 4 := by
  have checked : (Script.parse sequenceSource).toOption.any (fun script =>
      (firstArguments? script).any fun run => isFirstArguments run &&
        (run.1.arguments.length == 3 && (run.2.2.2.parts .element).length == 4)) = true := by
    decide +kernel
  obtain ⟨script, parsed, run⟩ := Script.exists_of_any checked
  obtain ⟨call, edits, sheet, emitted, tree, found, became, member, valid, symbol, spells,
    counts⟩ := exists_firstArguments (fun call tree =>
      call.arguments.length == 3 && (tree.parts .element).length == 4) run
  obtain ⟨three, four⟩ := Bool.and_eq_true_iff.mp counts
  exact ⟨script, parsed, call, edits, sheet, emitted, tree, found, became, member, valid, symbol,
    spells, eq_of_beq three, eq_of_beq four⟩

/-- A sequence in parentheses becomes as many arguments as it has parts. -/
theorem emitted_arguments_split : ∃ script, Script.parse sequenceSource = .ok script ∧
    let p := Precompiler.ofScript shortSettings [] script
    ∃ call edits sheet emitted, ∃ tree : Tree, p.calls[0]? = some call ∧
      p.outcomes[0]? = some (.rewritten edits sheet) ∧ ⟨call.argumentsSpan, emitted⟩ ∈ edits ∧
      tree.valid grammar = true ∧ tree.symbol = .nonterminal .arguments ∧
      tree.Spells emitted ∧ call.arguments.length = 3 ∧ (tree.parts .element).length = 4 ∧
      ¬call.Kept script sheet tree := by
  obtain ⟨script, parsed, call, edits, sheet, emitted, tree, found, became, member, valid, symbol,
    spells, three, four⟩ := sequenceSource_run
  refine ⟨script, parsed, call, edits, sheet, emitted, tree, found, became, member, valid, symbol,
    spells, three, four, fun kept => ?_⟩
  have count := kept.count
  omega

theorem emitted_arguments_kept_iff_sequence :
    ∃ script, Script.parse sequenceSource = .ok script ∧
    let p := Precompiler.ofScript shortSettings [] script
    ∃ call edits sheet, p.calls[0]? = some call ∧
      p.outcomes[0]? = some (.rewritten edits sheet) ∧
      (∃ emitted, ⟨call.argumentsSpan, emitted⟩ ∈ edits) ∧
      ∀ emitted, ⟨call.argumentsSpan, emitted⟩ ∈ edits → ∀ tree : Tree,
        tree.valid grammar = true → tree.symbol = .nonterminal .arguments → tree.Spells emitted →
        (call.Kept script sheet tree ↔
          (∀ e ∈ call.arguments.drop 2, ReadsAs .element (script.textAt e.span)) ∧
            ∀ e, call.spreadOptions? = some e → ReadsAs .assignment (script.textAt e.span)) := by
  obtain ⟨script, parsed, call, edits, sheet, _, _, found, became, -⟩ := sequenceSource_run
  exact ⟨script, parsed, call, edits, sheet, found, became,
    emitted_arguments_kept_iff parsed found became⟩

end StyleSplit
