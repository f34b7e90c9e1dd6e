import StyleSplit.Proofs.Precompile.Entries

/-! Compiled text is read back. The compiled text and the class names stand in a rewritten
script as quoted texts. In whichever way the object literals around them are derived, they
are entries there, with the keys and values that were compiled. -/
namespace StyleSplit

open Script Script.Token

/-- An object literal with the compiled text of a sheet, if there is any, as its first entry. -/
def Sheet.RawIn (sheet : Sheet) (e : Expr) : Prop :=
  ∃ span entries, e = .mapping span entries ∧ (sheet.rawText ≠ [] →
    ∃ first rest, entries = first :: rest ∧ first.Maps rawKey sheet.rawText)

/-- An object literal with the class names of a sheet, in order, as its last entry. -/
def Sheet.ClassesIn (sheet : Sheet) (e : Expr) : Prop :=
  ∃ span front last, e = .mapping span (front ++ [last]) ∧ last.MapsAll classesKey sheet.classes

/-- The class names in the second argument, and the compiled text in the first one if that is
where the styles of a call are. -/
def Call.ReadBack (c : Call) (sheet : Sheet) (fragments : List Fragment) : Prop :=
  ∃ span first options rest, fragments = [.arguments span (first :: options :: rest)] ∧
    sheet.ClassesIn options ∧
    ∀ e, c.arguments.head? = some e → Call.isInline e = true → sheet.RawIn first

namespace Script.Tree

variable {tree : Tree} {n : Nonterminal} {a : Assembled} {sheet : Sheet}

/-- The compiled text is the first entry of a rewritten description. -/
theorem raw_read (valid : tree.valid grammar = true) (symbol : tree.symbol = .nonterminal n)
    (operand : n ∈ operands) (first : Call.RawFirst sheet tree.bare)
    (made : tree.assemble = .ok a) : ∃ e, a.fragments = [.expr e] ∧ sheet.RawIn e := by
  obtain ⟨parts, bare, each, front⟩ := first
  obtain ⟨literal, b, span, inside, head, bare, made, fragments⟩ :=
    listing_read each valid symbol operand bare made
  refine ⟨_, fragments, span, _, rfl, fun some => ?_⟩
  obtain ⟨rest, rfl⟩ := List.head?_eq_some_iff.mp (front some)
  obtain ⟨stop, x, ends, stops⟩ := following_stop .closeBrace rfl rest
  rw [listing, ends] at bare
  obtain ⟨part, others, listed, here⟩ := Listing.objectLiteral.first_part inside head bare
    (List.cons_ne_nil _ _) (Call.single_pair _ _) stops
  have listed : literal.parts .property = part :: others := listed
  obtain ⟨e, only, maps⟩ := property_read inside made (listed ▸ List.mem_cons_self)
    fun valid symbol => pair_read valid symbol here
  exact ⟨e, _, by rw [listed, List.flatMap_cons, only]; rfl, maps⟩

/-- The class names are the last entry of rewritten options. -/
theorem classes_read (valid : tree.valid grammar = true) (symbol : tree.symbol = .nonterminal n)
    (operand : n ∈ operands) (last : Call.ClassesLast sheet tree.bare)
    (made : tree.assemble = .ok a) : ∃ e, a.fragments = [.expr e] ∧ sheet.ClassesIn e := by
  obtain ⟨parts, bare, each⟩ := last
  obtain ⟨literal, b, span, inside, head, bare, made, fragments⟩ :=
    listing_read (Call.balanced_with_classes each sheet) valid symbol operand bare made
  obtain ⟨z, closing, ends, ahead⟩ := listing_getLast .openBrace .closeBrace parts
    (Call.classesTokens sheet)
  obtain ⟨front, part, listed, here⟩ := Listing.objectLiteral.last_part inside head
    (bare.trans ends) ahead (List.cons_ne_nil _ _) (Call.single_classes sheet)
  have listed : literal.parts .property = front ++ [part] := listed
  obtain ⟨e, only, maps⟩ := property_read inside made (listed ▸ List.mem_concat_self)
    fun valid symbol => entry_read valid symbol here
  refine ⟨_, fragments, span, front.flatMap (offers Fragment.entry?), e, ?_, maps⟩
  rw [listed, List.flatMap_append, List.flatMap_singleton, only]

end Script.Tree

namespace Precompiler

variable {p : Precompiler} {tree whole : Tree} {k : Nat} {call : Call} {sheet : Sheet}
  {emitted : Text} {edits : List Edit}

theorem arguments_read (reads : p.Reads whole) (found : p.calls[k]? = some call)
    (became : p.outcomes[k]? = some (.rewritten edits sheet))
    (member : ⟨call.argumentsSpan, emitted⟩ ∈ edits) (valid : tree.valid grammar = true)
    (symbol : tree.symbol = .nonterminal .arguments) (spells : tree.Spells emitted)
    {a : Assembled} (made : tree.assemble = .ok a) : call.ReadBack sheet a.fragments := by
  obtain ⟨_, declared, _, _, rewrites, rfl⟩ := rewrites_of_outcome found became
  obtain ⟨-, first, second, others, tokens, closed⟩ := emitted_tokens reads found became member
  have lexes := closed []
  rw [List.append_nil] at lexes
  obtain ⟨stop, x, ends, stops⟩ := following_stop .closeParen rfl others
  have bare : tree.bare = Punctuator.openParen.bare ::
      (first ++ Punctuator.comma.bare :: (second ++ stop :: x)) := by
    rw [spells.unique lexes, listing, following, ends]
  have filled : second ≠ [] := by
    obtain ⟨_, rfl, -⟩ := tokens.options
    exact listing_ne_nil
  obtain ⟨part, rest, listed, front⟩ := Listing.arguments.first_part valid symbol bare
    tokens.description.1 tokens.description.2 rfl
  obtain ⟨part', part'', rest', listed', behind⟩ := Listing.arguments.second_part valid symbol bare
    rfl filled tokens.description.2 tokens.options.single stops
  obtain ⟨rfl, rfl⟩ := List.cons.inj (listed.symm.trans listed')
  have listed : tree.parts .element = part :: part'' :: rest' := listed
  obtain ⟨kind, within⟩ := Tree.mem_parts (n := .element) (listed ▸ List.mem_cons_self)
  obtain ⟨kind', within'⟩ := Tree.mem_parts (n := .element)
    (listed ▸ List.mem_cons_of_mem part List.mem_cons_self)
  obtain ⟨b, made'⟩ := within.made made
  obtain ⟨c, made''⟩ := within'.made made
  obtain ⟨span, items⟩ := Tree.arguments_items valid symbol made
  obtain ⟨options, only, classes⟩ := Tree.classes_read (within'.valid valid) kind' (by decide)
    (behind ▸ tokens.options) made''
  obtain ⟨e, only', offered⟩ := Tree.offers_expr (within.valid valid) kind rfl made'
  refine ⟨span, e, options, rest'.flatMap (Tree.offers Fragment.expr?), ?_, classes, ?_⟩
  · rw [items, listed, List.flatMap_cons, List.flatMap_cons, offered, Tree.offers_eq made'', only]
    rfl
  · intro argument head inline
    obtain ⟨e', same, raw⟩ := Tree.raw_read (within.valid valid) kind (by decide)
      (front ▸ tokens.raw argument head inline) made'
    obtain rfl := Fragment.expr.inj (List.singleton_inj.mp (only'.symm.trans same))
    exact raw

theorem declaration_read (reads : p.Reads whole) (found : p.calls[k]? = some call)
    (became : p.outcomes[k]? = some (.rewritten edits sheet)) {edit : Edit} (member : edit ∈ edits)
    (other : edit.span ≠ call.argumentsSpan) (valid : tree.valid grammar = true)
    (symbol : tree.symbol = .nonterminal .assignment) (spells : tree.Spells edit.text)
    {a : Assembled} (made : tree.assemble = .ok a) :
    ∃ e, a.fragments = [.expr e] ∧ sheet.RawIn e := by
  obtain ⟨_, declared, _, _, rewrites, rfl⟩ := rewrites_of_outcome found became
  obtain ⟨-, mapping, -, -, makes, classified⟩ :=
    rewrites.description reads (safeAt reads found) (mem_calls found)
  have text := Call.declaration_text rewrites.rewritten member other
  obtain ⟨u, closed, first⟩ := Call.descriptionText_closed (reads.copied makes classified)
    (Text.lineIndent_blank p.script.source declared.description.span.start)
  have lexes := closed []
  rw [List.append_nil, ← text] at lexes
  exact Tree.raw_read valid symbol (by decide) (spells.unique lexes ▸ first) made

end Precompiler

/-- Generated texts are read back as what they were generated from. A quoted text, whatever
code points it has, is one token, and the token stands for the text. An entry for quoted texts
can be read, and an object literal of them too; however that is done, the texts are back. So
they are in any derivation of what a call is rewritten to: the class names in its options, and
the compiled text in its description, which is an argument of the call or a declaration. -/
theorem generated_texts_read_back :
    (∀ t : Text, Token.Splits (stringLiteral t) [(.string, stringLiteral t)] ∧
      Literal.decodeText (stringLiteral t) = .ok t) ∧
    (∀ key value : Text,
      ReadsEntry (layoutEntry key (stringLiteral value)) (·.Maps key value)) ∧
    (∀ (sheet : Sheet) (indent : Text), (∀ c ∈ indent, isBlank c = true) →
      ReadsEntry (Call.classesText sheet indent) (·.MapsAll classesKey sheet.classes)) ∧
    ∀ (settings : Settings) (filename source : Text) (script : Script),
      Script.parse source = .ok script →
      let p := Precompiler.ofScript settings filename script
      ∀ (k : Nat) (call : Call) (edits : List Edit) (sheet : Sheet),
        p.calls[k]? = some call → p.outcomes[k]? = some (.rewritten edits sheet) →
        (∃ emitted, ⟨call.argumentsSpan, emitted⟩ ∈ edits) ∧
        ∀ edit ∈ edits, ∀ (tree : Tree) (a : Assembled), tree.valid grammar = true →
          tree.Spells edit.text → tree.assemble = .ok a →
            (edit.span = call.argumentsSpan → tree.symbol = .nonterminal .arguments →
              call.ReadBack sheet a.fragments) ∧
            (edit.span ≠ call.argumentsSpan → tree.symbol = .nonterminal .assignment →
              ∃ e, a.fragments = [.expr e] ∧ sheet.RawIn e) := by
  refine ⟨fun t => ⟨splits_stringLiteral t, Literal.decodeText_stringLiteral t⟩, pair_readsEntry,
    fun sheet _ => classes_readsEntry sheet, ?_⟩
  intro settings filename source script parsed p k call edits sheet found became
  obtain ⟨whole, reads⟩ := reads_ofScript settings filename parsed
  refine ⟨Precompiler.exists_emitted found became, fun edit member tree a valid spells made =>
    ⟨fun arguments symbol => ?_, fun other symbol => ?_⟩⟩
  · have member : ⟨call.argumentsSpan, edit.text⟩ ∈ edits := arguments ▸ member
    exact Precompiler.arguments_read reads found became member valid symbol spells made
  · exact Precompiler.declaration_read reads found became member other valid symbol spells made

/-- The script `f({a:{b:'"'}})`. -/
def quoteSource : Text := text "f(\x7ba:\x7bb:'\"'\x7d\x7d)"

theorem generated_texts_read_back_quote : ∃ script, Script.parse quoteSource = .ok script ∧
    let p := Precompiler.ofScript shortSettings [] script
    ∃ call edits sheet emitted, ∃ (tree : Tree) (a : Assembled), p.calls[0]? = some call ∧
      p.outcomes[0]? = some (.rewritten edits sheet) ∧ ⟨call.argumentsSpan, emitted⟩ ∈ edits ∧
      tree.valid grammar = true ∧ tree.symbol = .nonterminal .arguments ∧
      tree.Spells emitted ∧ tree.assemble = .ok a ∧ call.ReadBack sheet a.fragments := by
  have checked : (Script.parse quoteSource).toOption.any (fun script =>
      (firstArguments? script).any fun run => isFirstArguments run &&
        run.2.2.2.assemble.isOk) = true := by
    decide +kernel
  obtain ⟨script, parsed, run⟩ := Script.exists_of_any checked
  obtain ⟨call, edits, sheet, emitted, tree, found, became, member, valid, symbol, spells, ok⟩ :=
    exists_firstArguments (fun _ tree => tree.assemble.isOk) run
  cases made : tree.assemble with
  | error e =>
    rw [made] at ok
    cases ok
  | ok a =>
    have read := generated_texts_read_back.2.2.2 shortSettings [] quoteSource script parsed 0 call
      edits sheet found became
    exact ⟨script, parsed, call, edits, sheet, emitted, tree, a, found, became, member, valid,
      symbol, spells, made, (read.2 _ member tree a valid spells made).1 rfl symbol⟩

end StyleSplit
