import StyleSplit.Proofs.Precompile.Copying
import StyleSplit.Proofs.Precompile.Emitting
import StyleSplit.Proofs.Precompile.Standard
import StyleSplit.Proofs.Scope.Noticing
import StyleSplit.Proofs.Sheet.Encodable

/-! Whether the new text of a script has surrogates. A script without any can come to have
some: a literal spells them with escapes, and its text is written between quotes as it is. That
is the only way. What is copied was in the script before, and the new text has a surrogate
exactly if the sheet of a call that is rewritten has one; a sheet has one only if a literal or
a key of the script stands for a text that has one. -/
namespace StyleSplit

open Script Text

/-- The texts that a node spells: that of a literal, or that of the key of an entry. -/
def Script.Node.spelled : Node → List Text
  | .expr (.literal _ (.text t)) => [t]
  | .entry (.mk _ (some (.literal _ (.text t))) _ _ _) => [t]
  | _ => []

/-- A script in which no literal and no key stands for a text with a surrogate. -/
def Script.SpellsEncodable (s : Script) : Prop :=
  ∀ n ∈ s.walk, ∀ t ∈ n.spelled, t.Encodable

instance (s : Script) : Decidable s.SpellsEncodable :=
  inferInstanceAs (Decidable (∀ n ∈ s.walk, ∀ t ∈ n.spelled, t.Encodable))

namespace Script

variable {s : Script} {id : Nat}

/-- A computed key stands in the same scope as its entry. -/
theorem Stands.key {e : Entry} {key : Expr} (stands : s.Stands (.entry e) id)
    (computed : e.computed = true) (keyed : e.key = some key) : s.Stands (.expr key) id := by
  obtain ⟨p, member, node, rfl⟩ := stands
  have child : Node.expr key ∈ p.node.children := by
    rw [node]
    obtain ⟨span, own, value, _, shorthand⟩ := e
    cases computed
    cases keyed
    exact List.mem_cons_self
  rcases inner_of_place member with ⟨-, same⟩ | ⟨opens, -⟩
  · exact same ▸ stands_child member child
  · rw [node] at opens
    cases opens

namespace SpellsEncodable

theorem literal (plain : s.SpellsEncodable) {span : Span} {t : Text}
    (stands : s.Stands (.expr (.literal span (.text t))) id) : t.Encodable :=
  plain _ (walk_of_stands stands) t List.mem_cons_self

/-- The name that a scalar gives as a key. -/
theorem keyOfScalar {value : Scalar} {name : Text} (known : ScopeTable.keyOfScalar value = some name)
    (own : ∀ t, value = .text t → t.Encodable) : name.Encodable := by
  cases value with
  | text t =>
    cases known
    exact own _ rfl
  | number n =>
    cases known
    exact n.encodable_written
  | bool | null => cases known

theorem keyName (plain : s.SpellsEncodable) {entry : Entry} {name : Text}
    (stands : s.Stands (.entry entry) id) (known : s.scopeTable.keyName entry = some name) :
    name.Encodable := by
  unfold ScopeTable.keyName at known
  split at known
  · cases known
  rename_i key keyed
  cases computed : entry.computed with
  | true =>
    simp only [computed, if_true] at known
    split at known
    · rename_i span value resolved
      obtain ⟨_, stands⟩ := stands_resolved (stands.key computed keyed) resolved
      exact keyOfScalar known fun t same => plain.literal (same ▸ stands)
    · cases known
  | false =>
    simp only [computed, Bool.false_eq_true, if_false] at known
    split at known
    · rename_i span value same
      cases same
      refine keyOfScalar known ?_
      rintro t rfl
      refine plain _ (walk_of_stands stands) t ?_
      obtain ⟨_, own, _, _, _⟩ := entry
      cases keyed
      exact List.mem_cons_self
    · cases known

/-- Folding makes no surrogates. -/
theorem fold (plain : s.SpellsEncodable) {fuel : Nat} {e : Expr} {value : Value}
    (stands : s.Stands (.expr e) id) (folded : s.scopeTable.fold fuel e = .ok value) :
    value.Encodable := by
  induction fuel generalizing e value id with
  | zero => cases folded
  | succ fuel ih =>
    unfold ScopeTable.fold at folded
    split at folded
    · cases folded
    · rename_i span own resolved
      obtain ⟨_, stands⟩ := stands_resolved stands resolved
      cases folded
      exact .scalar fun t same => plain.literal (same ▸ stands)
    · rename_i span items resolved
      obtain ⟨_, p, place, node, -⟩ := stands_resolved stands resolved
      obtain ⟨values, made, same⟩ := bind_eq_ok.mp folded
      cases same
      refine .list fun value member => ?_
      obtain ⟨item, listed, made⟩ := mem_of_mapM made member
      have child : Node.expr item ∈ p.node.children := node ▸ List.mem_map_of_mem listed
      exact ih (stands_child place child) made
    · obtain ⟨pairs, -, same⟩ := bind_eq_ok.mp folded
      cases same
      exact .record
    · cases folded

theorem evaluate (plain : s.SpellsEncodable) {e : Expr} {value : Value}
    (stands : s.Stands (.expr e) id) (evaluated : s.scopeTable.evaluate e = some value) :
    value.Encodable := by
  unfold ScopeTable.evaluate at evaluated
  split at evaluated
  · rename_i folded
    cases evaluated
    exact plain.fold stands folded
  · cases evaluated

theorem static (plain : s.SpellsEncodable) {entries dynamic : List Entry} {static : Properties}
    (splits : Splits s.scopeTable entries static dynamic)
    (stands : ∀ e ∈ entries, ∃ id, s.Stands (.entry e) id) : static.Encodable := by
  induction splits with
  | nil => exact fun _ member => absurd member List.not_mem_nil
  | @static entry name written value rest static dynamic known evaluated _ _ ih =>
    obtain ⟨⟨_, here⟩, behind⟩ := List.forall_mem_cons.mp stands
    refine List.forall_mem_cons.mpr ⟨⟨plain.keyName here known, ?_⟩, ih behind⟩
    exact plain.evaluate here.value evaluated
  | dynamic _ _ _ ih => exact ih (List.forall_mem_cons.mp stands).2

end SpellsEncodable

end Script

/-- The static rules of a description of a script have no surrogates if its literals have
none. -/
theorem Script.SpellsEncodable.staticRules {s : Script} {id : Nat} (plain : s.SpellsEncodable)
    {span : Span} {entries : List Entry} {d : Description}
    (stands : s.Stands (.expr (.mapping span entries)) id)
    (classified : s.scopeTable.classify span entries = .ok d) :
    ∀ rule ∈ d.staticRules, rule.1.Encodable ∧ Properties.Encodable rule.2 := by
  intro rule member
  obtain ⟨entry, listed, named, _, _, _, refers, splits⟩ :=
    Description.mem_staticRules classified member
  obtain ⟨_, here⟩ := stands.entry listed
  obtain ⟨_, there⟩ := stands_resolved here.value refers
  exact ⟨plain.keyName here named, plain.static splits fun e member => there.entry member⟩

/-- Applied edits bring surrogates in exactly if one of their texts has some. -/
theorem Edit.Rewrites.encodable_iff {offset : Nat} {old new : Text} {edits : List Edit}
    (rewrites : Edit.Rewrites offset old edits new) (plain : old.Encodable) :
    new.Encodable ↔ ∀ e ∈ edits, e.text.Encodable := by
  induction rewrites with
  | same => simpa using plain
  | @edit offset kept old rest new e edits _ _ ih =>
    simp only [encodable_append] at plain ⊢
    rw [ih plain.2, List.forall_mem_cons, and_iff_right plain.1.1]

namespace Call

variable {s : Script} {c : Call} {description : Description} {sheet : Sheet} {indent : Text}

theorem encodable_argumentsText {first options : Text} {rest : List Text} :
    (argumentsText first options rest).Encodable ↔
      first.Encodable ∧ options.Encodable ∧ ∀ t ∈ rest, t.Encodable := by
  have opening : Encodable (text "(") := by decide
  have closing : Encodable (text ")") := by decide
  have comma : Encodable (text ", ") := by decide
  simp [argumentsText, encodable_join comma, opening, closing]

theorem encodable_textAt (plain : s.source.Encodable) (span : Span) :
    (s.textAt span).Encodable :=
  plain.slice span.start span.stop

/-- The class map in the options has the surrogates of the selectors. -/
theorem encodable_classesText (blank : indent.Encodable)
    (identifiers : ∀ entry ∈ sheet.classes, entry.2.Encodable) :
    (classesText sheet indent).Encodable ↔
      ∀ selector ∈ sheet.classes.map Prod.fst, selector.Encodable := by
  have deeper : indentation.Encodable := by decide
  have key : classesKey.Encodable := by decide
  rw [classesText, encodable_layoutEntry, encodable_layoutMapping
    (encodable_append.mpr ⟨blank, deeper⟩), and_iff_right key, List.forall_mem_map,
    List.forall_mem_map]
  refine forall₂_congr fun entry member => ?_
  rw [encodable_layoutEntry, encodable_stringLiteral, and_iff_left (identifiers entry member)]

theorem encodable_optionsText (plain : s.source.Encodable) (blank : indent.Encodable)
    {second : Option Expr} {options : Text}
    (made : optionsText s second sheet indent = .ok options) :
    options.Encodable ↔ (classesText sheet indent).Encodable := by
  have dots : Encodable (text "...") := by decide
  have only : (layoutMapping [classesText sheet indent] indent).Encodable ↔
      (classesText sheet indent).Encodable := by
    simp [encodable_layoutMapping blank]
  unfold optionsText at made
  split at made
  · cases made
    exact only
  split at made
  · cases made
    exact only
  split at made
  · split at made
    · cases made
    · cases made
      simp [encodable_layoutMapping blank, or_imp, forall_and, encodable_textAt plain]
  · cases made
    simp [encodable_layoutMapping blank, dots, encodable_textAt plain]

/-- What is left of a selector has no surrogates but those of a computed name. -/
theorem encodable_residue (plain : s.source.Encodable) (blank : indent.Encodable)
    {selector : Selector} (named : selector.verdict = .mixed → ∀ name, selector.name = some name →
      name.Encodable) {left : Text} (stays : selector.residue? s indent = some left) :
    left.Encodable := by
  unfold Selector.residue? at stays
  split at stays
  · cases stays
  · cases stays
    exact encodable_textAt plain _
  · rename_i mixed
    cases stays
    have colon : Encodable (text ": ") := by decide
    have deeper : indentation.Encodable := by decide
    have key : (selector.keyText s).Encodable := by
      unfold Selector.keyText
      split
      · rw [encodable_stringLiteral]
        cases name : selector.name with
        | none => exact encodable_nil
        | some name => exact named mixed _ ‹_›
      split
      · exact encodable_textAt plain _
      · exact encodable_nil
    simp [encodable_layoutMapping (encodable_append.mpr ⟨blank, deeper⟩), colon, key,
      encodable_textAt plain]

/-- A rewritten description has a surrogate if the compiled text or the name of a selector that
is split has one. -/
theorem encodable_descriptionText (plain : s.source.Encodable) (blank : indent.Encodable)
    (named : ∀ selector ∈ description.selectors, selector.verdict = .mixed →
      ∀ name, selector.name = some name → name.Encodable) :
    (descriptionText s description sheet indent).Encodable ↔ sheet.rawText.Encodable := by
  have key : rawKey.Encodable := by decide
  have left : ∀ t ∈ description.selectors.filterMap (Selector.residue? s indent), t.Encodable := by
    intro t member
    obtain ⟨selector, listed, stays⟩ := List.mem_filterMap.mp member
    exact encodable_residue plain blank (named selector listed) stays
  simp only [descriptionText, encodable_layoutMapping blank, List.forall_mem_append]
  rw [and_iff_left left]
  split
  · rename_i empty
    simp [List.isEmpty_iff.mp empty]
  · simp [key]

end Call

namespace Precompiler

variable {p : Precompiler} {tree : Tree} {k : Nat} {call : Call} {first : Expr} {r : RunState}
  {sheet : Sheet} {accepted edits : List Edit} {declared : Declared} {shared : Bool} {a : Allocator}

/-- A description that is rewritten: its static rules were compiled, and what it is rewritten
to is written. -/
structure Recorded (p : Precompiler) (accepted : List Edit) (d : Declared) : Prop where
  compiled : ∃ index a a', p.compiler.compile d.description.staticRules index a = (.ok d.sheet, a')
  written : ∃ e ∈ accepted, ∃ offset,
    Call.descriptionText p.script d.description d.sheet
      (p.script.source.lineIndent offset) <:+: e.text

theorem Recorded.mono (recorded : p.Recorded accepted declared) (edits : List Edit) :
    p.Recorded (accepted ++ edits) declared := by
  obtain ⟨compiled, e, member, written⟩ := recorded
  exact ⟨compiled, e, List.mem_append_left _ member, written⟩

theorem Rewrites.edits_eq (rewrites : Rewrites p k call r first edits declared shared a) :
    ∃ (more : List Expr) (options : Text), Call.optionsText p.script more.head? declared.sheet
        (p.script.source.lineIndent call.argumentsSpan.start) = .ok options ∧
      edits = (if Call.isInline first || shared then [] else
          [⟨declared.description.span, Call.descriptionText p.script declared.description
            declared.sheet (p.script.source.lineIndent declared.description.span.start)⟩]) ++
        [⟨call.argumentsSpan, Call.argumentsText
          (Call.firstText p.script declared.description declared.sheet
            (p.script.source.lineIndent call.argumentsSpan.start) first) options
          (more.tail.map fun e => p.script.textAt e.span)⟩] := by
  obtain ⟨_, arguments⟩ := rewrites.arguments
  obtain ⟨_, more, options, given, made, same⟩ :=
    Call.rewrite_edits rewrites.rewritten rewrites.some
  rw [arguments] at given
  obtain ⟨rfl, rfl⟩ := List.cons.inj given
  rw [Bool.not_not] at same
  exact ⟨_, options, made, same⟩

/-- The description of a call that is rewritten is written by the call, or was written by the
one that it shares its declaration with. -/
theorem Rewrites.recorded (rewrites : Rewrites p k call r first edits declared shared a)
    (earlier : ∀ d ∈ r.declared, p.Recorded r.accepted d) :
    p.Recorded (r.accepted ++ edits) declared := by
  obtain ⟨more, options, -, same⟩ := rewrites.edits_eq
  obtain ⟨found, -, ⟨rfl, known⟩ | ⟨rfl, -, -, compiled⟩⟩ := compileCall_ok rewrites.compiled
  · exact (earlier declared (List.mem_of_find?_eq_some known)).mono edits
  refine ⟨⟨_, _, _, compiled⟩, ?_⟩
  cases inline : Call.isInline first with
  | true =>
    refine ⟨⟨call.argumentsSpan, _⟩, List.mem_append_right _ (same ▸ List.mem_append_right _
      List.mem_cons_self), call.argumentsSpan.start, ?_⟩
    rw [Call.firstText, if_pos inline, Call.argumentsText]
    exact (prefix_join _ _ _).isInfix.trans (List.infix_append _ _ _)
  | false =>
    have declaration : ⟨declared.description.span, Call.descriptionText p.script
        declared.description declared.sheet
        (p.script.source.lineIndent declared.description.span.start)⟩ ∈ edits := by
      rw [same, inline]
      exact List.mem_append_left _ List.mem_cons_self
    exact ⟨_, List.mem_append_right _ declaration, _, List.infix_rfl⟩

theorem stateAt_recorded : ∀ k ≤ p.calls.length,
    ∀ d ∈ (p.stateAt k).declared, p.Recorded (p.stateAt k).accepted d := by
  refine stateAt_induct (motive := fun _ r => ∀ d ∈ r.declared, p.Recorded r.accepted d)
    (by simp [RunState.start]) ?_
  intro k call found earlier
  obtain ⟨first, edits, declared, shared, a, rewrites⟩ | ⟨-, a, same⟩ :=
    step_cases p k call (p.stateAt k)
  · rw [step_of_rewrites rewrites]
    intro d member
    simp only [accept] at member ⊢
    split at member
    · exact (earlier d member).mono edits
    · rcases List.mem_cons.mp member with rfl | member
      · exact rewrites.recorded earlier
      · exact (earlier d member).mono edits
  · rw [same]
    exact earlier

/-- The name of a selector that is split is in the class map. -/
theorem Recorded.named (recorded : p.Recorded accepted declared) {selector : Selector}
    (member : selector ∈ declared.description.selectors) (mixed : selector.verdict = .mixed)
    {name : Text} (known : selector.name = some name) :
    name ∈ declared.sheet.classes.map Prod.fst := by
  obtain ⟨⟨_, _, _, compiled⟩, -⟩ := recorded
  rw [Compiler.mem_keys compiled, Description.staticRules_keys]
  refine List.mem_filterMap.mpr ⟨selector, List.mem_filter.mpr ⟨member, ?_⟩, known⟩
  rw [Selector.hasStaticContent, mixed]
  rfl

/-- What holds of all that a run uses: the standard tools, a prefix without surrogates, and a
script that has none. -/
structure Clean (p : Precompiler) : Prop where
  standard : p.compiler.Standard
  classPrefix : (p.compiler.classPrefix.getD []).Encodable
  source : p.script.source.Encodable

/-- The edits of a call without surrogates in its sheet have none. -/
theorem Clean.encodable_edits (clean : p.Clean)
    (rewrites : Rewrites p k call r first edits declared shared a)
    (recorded : p.Recorded (r.accepted ++ edits) declared)
    (encodable : declared.sheet.Encodable) : ∀ e ∈ edits, e.text.Encodable := by
  obtain ⟨more, options, made, rfl⟩ := rewrites.edits_eq
  obtain ⟨_, _, _, compiled⟩ := recorded.compiled
  have blank (offset : Nat) := clean.source.lineIndent offset
  have description (offset : Nat) : (Call.descriptionText p.script declared.description
      declared.sheet (p.script.source.lineIndent offset)).Encodable :=
    (Call.encodable_descriptionText clean.source (blank offset)
      fun selector member mixed name known =>
        encodable.classes name (recorded.named member mixed known)).mpr encodable.rawText
  have identifiers := Compiler.encodable_identifiers clean.standard clean.classPrefix compiled
  intro e member
  rcases List.mem_append.mp member with declaration | only
  · split at declaration
    · cases declaration
    · rw [List.mem_singleton.mp declaration]
      exact description _
  · rw [List.mem_singleton.mp only]
    refine Call.encodable_argumentsText.mpr ⟨?_, ?_, ?_⟩
    · unfold Call.firstText
      split
      · exact description _
      · exact Call.encodable_textAt clean.source _
    · exact ((Call.encodable_optionsText clean.source (blank _) made).trans
        (Call.encodable_classesText (blank _) identifiers)).mpr encodable.classes
    · exact List.forall_mem_map.mpr fun e _ => Call.encodable_textAt clean.source e.span

/-- A sheet has no surrogates if nothing has any that is written up to its call. -/
theorem Clean.encodable_sheet (clean : p.Clean)
    (rewrites : Rewrites p k call r first edits declared shared a)
    (recorded : p.Recorded (r.accepted ++ edits) declared)
    (encodable : ∀ e ∈ r.accepted ++ edits, e.text.Encodable) : declared.sheet.Encodable := by
  obtain ⟨more, options, made, same⟩ := rewrites.edits_eq
  obtain ⟨_, _, _, compiled⟩ := recorded.compiled
  have blank (offset : Nat) := clean.source.lineIndent offset
  have identifiers := Compiler.encodable_identifiers clean.standard clean.classPrefix compiled
  have emitted := encodable ⟨call.argumentsSpan, _⟩ (List.mem_append_right _
    (same ▸ List.mem_append_right _ List.mem_cons_self))
  have classes : ∀ selector ∈ declared.sheet.classes.map Prod.fst, selector.Encodable :=
    ((Call.encodable_optionsText clean.source (blank _) made).trans
      (Call.encodable_classesText (blank _) identifiers)).mp
      (Call.encodable_argumentsText.mp emitted).2.1
  obtain ⟨e, member, offset, inside⟩ := recorded.written
  refine ⟨?_, classes⟩
  exact (Call.encodable_descriptionText clean.source (blank offset)
    fun selector member mixed name known => classes name (recorded.named member mixed known)).mp
    ((encodable e member).mono inside.subset)

/-- What is recorded of the description of a call that is rewritten. -/
theorem recorded_of_outcome (became : p.outcomes[k]? = some (.rewritten edits sheet)) :
    ∃ call first declared shared a, p.calls[k]? = some call ∧ declared.sheet = sheet ∧
      Rewrites p k call (p.stateAt k) first edits declared shared a ∧
      p.Recorded ((p.stateAt k).accepted ++ edits) declared := by
  obtain ⟨bound, -⟩ := List.getElem?_eq_some_iff.mp became
  have bound := outcomes_length ▸ bound
  have found : p.calls[k]? = some p.calls[k] := List.getElem?_eq_getElem bound
  obtain ⟨first, declared, shared, a, rewrites, same⟩ := rewrites_of_outcome found became
  exact ⟨_, first, declared, shared, a, found, same, rewrites,
    rewrites.recorded (p.stateAt_recorded k (Nat.le_of_lt bound))⟩

/-- What is accepted up to a call that is rewritten stays so. -/
theorem Rewrites.accepted_subset (found : p.calls[k]? = Option.some call)
    (rewrites : Rewrites p k call (p.stateAt k) first edits declared shared a) :
    (p.stateAt k).accepted ++ edits ⊆ p.allEdits := by
  intro e member
  have accepted := p.accepted_before (k + 1) (List.getElem?_eq_some_iff.mp found).1
  rw [stateAt_succ found, step_of_rewrites rewrites] at accepted
  have member : e ∈ (p.outcomes.take (k + 1)).flatMap Outcome.edits := by
    rw [← accepted]
    exact member
  obtain ⟨outcome, listed, inside⟩ := List.mem_flatMap.mp member
  exact List.mem_flatMap.mpr ⟨outcome, List.mem_of_mem_take listed, inside⟩

/-- The edits of a run have no surrogates exactly if no sheet of a rewritten call has any. -/
theorem Clean.allEdits_iff (clean : p.Clean) : (∀ e ∈ p.allEdits, e.text.Encodable) ↔
    ∀ (k : Nat) (edits : List Edit) (sheet : Sheet),
      p.outcomes[k]? = some (.rewritten edits sheet) → sheet.Encodable := by
  constructor
  · intro encodable k edits sheet became
    obtain ⟨call, first, declared, shared, a, found, rfl, rewrites, recorded⟩ :=
      recorded_of_outcome became
    exact clean.encodable_sheet rewrites recorded
      fun e member => encodable e (rewrites.accepted_subset found member)
  · intro encodable e member
    obtain ⟨k, -, edits, sheet, -, became, member⟩ := mem_allEdits.mp member
    obtain ⟨call, first, declared, shared, a, -, rfl, rewrites, recorded⟩ :=
      recorded_of_outcome became
    exact clean.encodable_edits rewrites recorded (encodable k edits _ became) e member

/-- Literals and keys without surrogates make sheets without surrogates. -/
theorem Clean.encodable_spelled (clean : p.Clean) (reads : p.Reads tree)
    (plain : p.script.SpellsEncodable)
    (became : p.outcomes[k]? = some (.rewritten edits sheet)) : sheet.Encodable := by
  obtain ⟨call, first, declared, shared, a, found, rfl, rewrites, recorded⟩ :=
    recorded_of_outcome became
  obtain ⟨_, _, _, compiled⟩ := recorded.compiled
  obtain ⟨-, literal, resolved, -, -, classified⟩ :=
    rewrites.description reads (safeAt reads found) (mem_calls found)
  obtain ⟨more, arguments⟩ := rewrites.arguments
  obtain ⟨_, stands⟩ :=
    Script.stands_argument (mem_calls found) (e := first) (arguments ▸ List.mem_cons_self)
  rw [reads.table] at resolved classified
  obtain ⟨_, stands⟩ := Script.stands_resolved stands (ScopeTable.resolve_of_findMapping resolved)
  exact Compiler.encodable_compile clean.standard clean.classPrefix
    (plain.staticRules stands classified) compiled

end Precompiler

/-- With the standard tools and a prefix without surrogates, precompiling a script that has no
surrogates gives a text without any exactly if the sheets of the calls that are rewritten have
none, in their text and their class map. They have none if no literal and no key of the script
stands for a text that has one. -/
theorem precompile_encodable_iff {settings : Settings} {filename source : Text} {script : Script}
    (standard : settings.Standard) (classPrefix : (settings.classPrefix.getD []).Encodable)
    (encodable : source.Encodable) (parsed : Script.parse source = .ok script) :
    let p := Precompiler.ofScript settings filename script
    precompile settings filename source = .ok p.result ∧
      (p.result.code.Encodable ↔ ∀ (k : Nat) (edits : List Edit) (sheet : Sheet),
        p.outcomes[k]? = some (.rewritten edits sheet) → sheet.Encodable) ∧
      (script.SpellsEncodable → p.result.code.Encodable) := by
  intro p
  obtain ⟨tree, reads⟩ := reads_ofScript settings filename parsed
  obtain ⟨run, same, safe⟩ : precompile settings filename source = .ok p.result ∧
    script.source = source ∧ p.SafeRun := precompile_safe parsed
  have clean : p.Clean := ⟨⟨standard.naming, standard.plugins⟩, classPrefix, same ▸ encodable⟩
  obtain ⟨-, sorted, permuted, rewrites⟩ := safe.applied
  have code : p.result.code.Encodable ↔ ∀ (k : Nat) (edits : List Edit) (sheet : Sheet),
      p.outcomes[k]? = some (.rewritten edits sheet) → sheet.Encodable := by
    rw [rewrites.encodable_iff clean.source, ← clean.allEdits_iff]
    exact forall_congr' fun e => by rw [permuted.mem_iff]
  exact ⟨run, code, fun plain => code.mpr fun _ _ _ became =>
    clean.encodable_spelled reads plain became⟩

/-- The script `f({a:{b:'\ud800'}})`: an escape spells half of a surrogate pair. -/
def escapingSource : Text := text "f(\x7ba:\x7bb:'\\ud800'\x7d\x7d)"

theorem shortSettings_standard : shortSettings.Standard where
  naming := rfl
  plugins := fun _ member => absurd member List.not_mem_nil

/-- A script without surrogates is precompiled to a text that has one and so has no form in
bytes. -/
theorem precompile_not_encodable : shortSettings.Standard ∧
    (shortSettings.classPrefix.getD []).Encodable ∧ escapingSource.Encodable ∧
    ∃ result, precompile shortSettings [] escapingSource = .ok result ∧
      ¬result.code.Encodable ∧ result.code.encode? = none := by
  have checked : (precompile shortSettings [] escapingSource).toOption.any (fun result =>
      result.code.any CodePoint.isSurrogate) = true := by
    decide +kernel
  obtain ⟨result, run, surrogate⟩ := exists_ok_of_any checked
  obtain ⟨c, member, surrogate⟩ := List.any_eq_true.mp surrogate
  have broken : ¬result.code.Encodable := fun encodable => by
    rw [encodable c member] at surrogate
    cases surrogate
  refine ⟨shortSettings_standard, by decide, by decide, result, run, broken, ?_⟩
  exact Option.eq_none_iff_forall_ne_some.mpr fun _ encoded => broken (encodable_of_encode encoded)

theorem precompile_encodable_iff_declaring :
    ∃ script, Script.parse declaringSource = .ok script ∧ script.SpellsEncodable ∧
      let p := Precompiler.ofScript shortSettings [] script
      p.result.rewritten = 1 ∧ p.result.code.Encodable ∧
      (p.result.code.Encodable ↔ ∀ (k : Nat) (edits : List Edit) (sheet : Sheet),
        p.outcomes[k]? = some (.rewritten edits sheet) → sheet.Encodable) := by
  have checked : (Script.parse declaringSource).toOption.any (fun script =>
      decide script.SpellsEncodable &&
        (Precompiler.ofScript shortSettings [] script).result.rewritten == 1) = true := by
    decide +kernel
  obtain ⟨script, parsed, run⟩ := Script.exists_of_any checked
  obtain ⟨plain, rewritten⟩ := Bool.and_eq_true_iff.mp run
  have plain := of_decide_eq_true plain
  obtain ⟨-, code, spelled⟩ := @precompile_encodable_iff shortSettings [] _ script
    shortSettings_standard encodable_nil (by decide) parsed
  exact ⟨script, parsed, plain, eq_of_beq rewritten, spelled plain, code⟩

end StyleSplit
