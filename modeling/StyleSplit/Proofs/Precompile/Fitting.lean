import StyleSplit.Proofs.Rewrite.Lists
import StyleSplit.Proofs.Rewrite.Symbols

/-! What is written fits where it is put. New arguments are arguments and a new declaration is
an object literal, with one exception: options that are spread lose their parentheses, and only
if they are entries without them may they stand in an object literal. -/
namespace StyleSplit

open Script Script.Token

namespace Script

variable {s : Script} {tree : Tree} {span : Span} {n : Nonterminal}
  {source u v : List (Terminal × Text)} {t : Text}

theorem Token.Piece.unique (first : Token.Piece t u) (last : Token.Piece t v) : u = v := by
  have lexes := first [] Token.stop_nil
  have lexes' := last [] Token.stop_nil
  rw [List.append_nil] at lexes lexes'
  exact lexes.unique lexes'

/-- What a part of a script stands for is written where it is copied. -/
theorem Derived.gives (derived : Derived s tree) (stands : tree.StandsFor n span) :
    Gives (Written tree.bare n) (s.textAt span) := by
  obtain ⟨part, within, extent, derives⟩ := stands
  have slice := derived.slice ⟨part, within, rfl, extent, derives.balanced⟩
  exact ⟨part.bare, slice.piece, derives, fun t member _ =>
    .inl ((within.leaves.map Token.bare).subset member)⟩

/-- A property key with an object literal behind it is a property. -/
theorem Written.keyed (key : Written source .propertyKey u)
    (literal : Written source .objectLiteral v) :
    Written source .property (u ++ Punctuator.colon.bare :: v) := by
  have colon := Grammar.Derives.terminal (g := grammar) (.punctuator .colon)
  refine ⟨?_, known_append key.known (known_mark .colon literal.known)⟩
  rw [List.map_append, List.map_cons]
  exact derives_body (key.derives.append (colon.append literal.operand.derives)) rfl

theorem Written.name (only : u.map Prod.fst = [.name]) : Written source .assignment u := by
  refine ⟨only ▸ derives_assignment (derives_body (.terminal .name) rfl), fun t member known => ?_⟩
  have name : t.1 = .name := by simpa [only] using List.mem_map_of_mem (f := Prod.fst) member
  rw [name] at known
  simp [Terminal.literals] at known

/-- Options that may be spread: with three points in front they can stand between braces. -/
def Spreadable (s : Script) (e : Expr) : Prop :=
  ReadsAs .objectLiteral (text "\x7b..." ++ s.textAt e.span ++ text "\x7d")

theorem spreadable_iff {e : Expr} (piece : Token.Piece (s.textAt e.span) u) :
    s.Spreadable e ↔ grammar.Derives [.nonterminal .objectLiteral]
      ((Punctuator.openBrace.bare :: (Punctuator.ellipsis.bare :: u ++
        [Punctuator.closeBrace.bare])).map Prod.fst) := by
  have opens := closed_mark (m := .openBrace) (by decide)
  have dots := closed_mark (m := .ellipsis) (by decide)
  have closes := closed_mark (m := .closeBrace) (by decide)
  have whole : Token.Lexes (text "\x7b..." ++ s.textAt e.span ++ text "\x7d")
      (Punctuator.openBrace.bare :: (Punctuator.ellipsis.bare :: u ++
        [Punctuator.closeBrace.bare])) [] := by
    have all := ((opens.append dots).behind piece).append
      (fun z => stop_cons (c := 125) (by decide)) closes []
    rwa [List.append_nil] at all
  constructor
  · rintro ⟨v, lexes, derives⟩
    exact lexes.unique whole ▸ derives
  · exact fun derives => ⟨_, whole, derives⟩

end Script

namespace ScopeTable

variable {t : ScopeTable} {entry : Entry}

/-- A selector that is divided has a key and refers to an object literal. -/
theorem classifySelector_mixed
    (mixed : (t.classifySelector (t.keyName entry) entry).verdict = .mixed) :
    (∃ key, entry.key = some key) ∧
      ∀ span name formals body, entry.value ≠ .function span name formals body := by
  obtain ⟨-, empty, -⟩ | ⟨-, ⟨name, known⟩, span, entries, refers, -⟩ :=
    t.classifySelector_spec (t.keyName entry) entry
  · exact absurd empty (Selector.verdict_mixed mixed)
  · refine ⟨Option.isSome_iff_exists.mp ?_, fun place name formals body same => ?_⟩
    · have plain := isSpread_of_keyName known
      cases key : entry.key with
      | none => simp [Entry.isSpread, key] at plain
      | some key => rfl
    · rw [same, resolve, follow_other (by simp)] at refers
      cases refers

end ScopeTable

namespace Precompiler

variable {p : Precompiler} {tree : Tree} {k : Nat} {call : Call} {sheet : Sheet} {emitted : Text}
  {edits : List Edit} {description : Description} {found : FoundMapping} {indent : Text}

/-- What is left of a selector is a property. -/
theorem Reads.residue_gives (reads : p.Reads tree)
    (makes : tree.Makes (.mapping found.span found.entries))
    (classified : p.table.classify found.span found.entries = .ok description)
    (blank : ∀ c ∈ indent, isBlank c = true) : ∀ selector ∈ description.selectors, ∀ t,
      selector.residue? p.script indent = some t → Gives (Written tree.bare .property) t := by
  intro selector member t left
  rw [(Description.classify_selectors classified).1] at member
  obtain ⟨entry, listed, rfl⟩ := List.mem_map.mp member
  let selector := p.table.classifySelector (p.table.keyName entry) entry
  have named (mixed : selector.verdict = .mixed) :
      Gives (Written tree.bare .propertyKey) (selector.keyText p.script) := by
    obtain ⟨⟨key, keyed⟩, value⟩ := ScopeTable.classifySelector_mixed mixed
    unfold Selector.keyText
    rw [ScopeTable.classifySelector_entry, keyed]
    split
    · exact ⟨_, (closed_stringLiteral _).piece, derives_body (.terminal .string) rfl,
        known_quoted _⟩
    · rename_i plain
      exact reads.derived.gives
        (reads.derived.key_stands makes listed keyed (Bool.eq_false_iff.mpr plain) value)
  refine Selector.residue_gives blank ?_ named (fun e stays => ?_)
    (fun key all => key.keyed (written_listing all)) left
  · rw [ScopeTable.classifySelector_entry]
    exact reads.derived.gives (reads.derived.entry_stands makes listed)
  · obtain ⟨span, entries, other, member⟩ := reads.dynamic_made makes listed stays
    exact reads.derived.gives (reads.derived.entry_stands other member)

/-- A rewritten description is an object literal. -/
theorem Reads.description_gives (reads : p.Reads tree)
    (makes : tree.Makes (.mapping found.span found.entries))
    (classified : p.table.classify found.span found.entries = .ok description)
    (sheet : Sheet) (blank : ∀ c ∈ indent, isBlank c = true) : ∃ w,
      Closed (Call.descriptionText p.script description sheet indent) w ∧
        Written tree.bare .objectLiteral w := by
  obtain ⟨parts, closed, all, -⟩ := Call.descriptionText_pieces blank
    (written_text sheet.rawText).entry (reads.residue_gives makes classified blank)
  exact ⟨_, closed, written_listing all⟩

/-- What is written for the first argument is an operand. -/
theorem Reads.first_gives (reads : p.Reads tree) (listed : call ∈ p.script.styleCalls p.names)
    {first : Expr} (argument : first ∈ call.arguments)
    (makes : tree.Makes (.mapping found.span found.entries))
    (classified : p.table.classify found.span found.entries = .ok description)
    (sheet : Sheet) (blank : ∀ c ∈ indent, isBlank c = true) :
    Gives (Written tree.bare .assignment)
      (Call.firstText p.script description sheet indent first) := by
  unfold Call.firstText
  split
  · obtain ⟨w, closed, literal⟩ := reads.description_gives makes classified sheet blank
    exact ⟨w, closed.piece, literal.operand⟩
  · rename_i reference
    obtain ⟨u, slice, name⟩ := reads.derived.slice_argument listed argument
    exact ⟨u, slice.piece, .name (name (Bool.eq_false_iff.mpr reference))⟩

/-- An argument that is copied may stand among arguments. -/
theorem Reads.argument_gives (reads : p.Reads tree)
    (listed : call ∈ p.script.styleCalls p.names) {e : Expr} (argument : e ∈ call.arguments) :
    Gives (fun u => Argument (u.map Prod.fst) ∧ Known tree.bare u) (p.script.textAt e.span) := by
  rcases reads.derived.argument_stands listed argument with stands | stands
  · obtain ⟨u, piece, derives, known⟩ := reads.derived.gives stands
    exact ⟨u, piece, .inl derives, known⟩
  · obtain ⟨u, piece, derives, known⟩ := reads.derived.gives stands
    exact ⟨u, piece, .inr derives, known⟩

/-- The rewritten options are an object literal, if what is spread into it may be. -/
theorem Reads.options_gives (reads : p.Reads tree) (listed : call ∈ p.script.styleCalls p.names)
    {options : Text} (blank : ∀ c ∈ indent, isBlank c = true)
    (made : Call.optionsText p.script (call.arguments[1]?) sheet indent = .ok options)
    (spreads : ∀ e, call.spreadOptions? = some e → p.script.Spreadable e) :
    ∃ w, Closed options w ∧ Written tree.bare .objectLiteral w := by
  have classes : Written tree.bare .property (Call.classesTokens sheet) :=
    (written_pairs sheet.classes).entry
  cases spread : call.spreadOptions? with
  | none =>
    have entries (span : Span) (entries : List Entry)
        (second : call.arguments[1]? = some (.mapping span entries)) (e : Entry)
        (member : e ∈ entries) : Gives (Written tree.bare .property) (p.script.textAt e.span) := by
      obtain ⟨callee, -, grounded⟩ := reads.derived.styleCall listed
      have makes := (Node.everywhere_iff.mp (grounded _ (List.mem_of_getElem? second))).1
      exact reads.derived.gives (reads.derived.entry_stands makes member)
    obtain ⟨parts, closed, all⟩ := Call.optionsText_pieces blank entries
      (fun e given => by cases spread.symm.trans given) made
    refine ⟨_, closed, written_listing fun part member => ?_⟩
    rcases List.mem_append.mp member with member | member
    · exact all part member
    · exact List.mem_singleton.mp member ▸ classes
  | some e =>
    obtain ⟨w, closed, -, spread'⟩ := reads.options_tokens listed blank made
    obtain ⟨u, slice, rfl⟩ := spread' e spread
    obtain ⟨second, -⟩ := Option.filter_eq_some_iff.mp spread
    obtain ⟨u', piece, argument, known⟩ :=
      reads.argument_gives listed (List.mem_of_getElem? second)
    obtain rfl := piece.unique slice.piece
    refine ⟨_, closed, ?_, ?_⟩
    · have literal := (spreadable_iff piece).mp (spreads e spread)
      have ends : ((Punctuator.ellipsis.bare :: u').map Prod.fst).getLast? ≠
          some (.punctuator .comma) := by
        have filled : u'.map Prod.fst ≠ [] := by simpa using slice.filled
        rw [List.map_cons, List.getLast?_cons_of_ne_nil filled]
        rcases argument with derives | derives
        · exact getLast?_ne_comma derives (by decide)
        · exact getLast?_ne_comma derives (by decide)
      have entries := entries_of_literal literal (List.cons_ne_nil _ _) ends
      simpa [listing, following] using (entries.append classes.derives).literal
    · refine known_listing fun part member => ?_
      simp only [List.mem_cons, List.not_mem_nil, or_false] at member
      rcases member with rfl | rfl
      · exact known_mark .ellipsis known
      · exact classes.known

/-- The new arguments of a call are arguments, if what is spread among them may be. -/
theorem Reads.arguments_gives (reads : p.Reads tree) (found : p.calls[k]? = some call)
    (became : p.outcomes[k]? = some (.rewritten edits sheet))
    (member : ⟨call.argumentsSpan, emitted⟩ ∈ edits)
    (spreads : ∀ e, call.spreadOptions? = some e → p.script.Spreadable e) :
    ∃ w, Closed emitted w ∧ Written tree.bare .arguments w := by
  obtain ⟨first, more, options, mapping, description, arguments, makes, classified, made, rfl⟩ :=
    reads.arguments_text found became member
  have listed := mem_calls found
  have blank := Text.lineIndent_blank p.script.source call.argumentsSpan.start
  obtain ⟨u, piece, operand⟩ := reads.first_gives listed (arguments ▸ List.mem_cons_self) makes
    classified sheet blank
  obtain ⟨v, closed, literal⟩ := reads.options_gives listed blank made spreads
  obtain ⟨others, pieces, all⟩ := gives_all (more.tail.map fun e => p.script.textAt e.span)
    fun t member => by
      obtain ⟨e, further, rfl⟩ := List.mem_map.mp member
      exact reads.argument_gives listed (by simp [arguments, List.mem_of_mem_tail further])
  refine ⟨_, Call.argumentsText_closed piece closed pieces, ?_, known_listing ?_⟩
  · exact derives_arguments operand.derives literal.operand.derives fun part member =>
      (all part member).1
  · simp only [List.forall_mem_cons]
    exact ⟨operand.known, literal.known, fun part member => (all part member).2⟩

/-- A new declaration is an object literal. -/
theorem Reads.declaration_gives (reads : p.Reads tree) (found : p.calls[k]? = some call)
    (became : p.outcomes[k]? = some (.rewritten edits sheet)) {edit : Edit} (member : edit ∈ edits)
    (other : edit.span ≠ call.argumentsSpan) :
    ∃ w, Closed edit.text w ∧ Written tree.bare .objectLiteral w := by
  obtain ⟨_, declared, _, _, rewrites, rfl⟩ := rewrites_of_outcome found became
  obtain ⟨-, mapping, -, -, makes, classified⟩ :=
    rewrites.description reads (safeAt reads found) (mem_calls found)
  rw [Call.declaration_text rewrites.rewritten member other]
  exact reads.description_gives makes classified declared.sheet
    (Text.lineIndent_blank p.script.source declared.description.span.start)

end Precompiler

end StyleSplit
