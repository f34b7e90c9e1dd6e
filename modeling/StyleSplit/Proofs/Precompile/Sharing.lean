import StyleSplit.Proofs.Precompile.Safety

/-! Calls that share a declaration. The first call that rewrites a declared style
description decides what it is compiled to; a later call that refers to the declaration
gets the same classes if it can be rewritten at all. A call before that one, or a later
one that is skipped, is left with a description from which the static part is gone. -/
namespace StyleSplit

open Script

/-- Options that have no classes yet: none, or an object literal without that key, or
anything that can be spread. -/
def Call.takesClasses (c : Call) : Bool :=
  match c.arguments.tail.head? with
  | some (.mapping _ entries) => !entries.any setsClasses
  | _ => true

theorem Call.optionsText_ok {s : Script} {sheet : Sheet} {indent options : Text}
    {second : Option Expr} (made : optionsText s second sheet indent = .ok options) :
    ∃ entries, options = layoutMapping (entries ++ [classesText sheet indent]) indent := by
  unfold optionsText at made
  split at made
  · exact ⟨[], (Except.ok.inj made).symm⟩
  split at made
  · exact ⟨[], (Except.ok.inj made).symm⟩
  split at made
  · split at made
    · cases made
    · exact ⟨_, (Except.ok.inj made).symm⟩
  · exact ⟨[_], (Except.ok.inj made).symm⟩

theorem Call.takesClasses_iff {s : Script} {c : Call} {first : Expr} {more : List Expr}
    (arguments : c.arguments = first :: more) (sheet : Sheet) (indent : Text) :
    c.takesClasses = true ↔ ∃ options, optionsText s more.head? sheet indent = .ok options := by
  unfold takesClasses optionsText
  rw [arguments, List.tail_cons]
  cases more.head? with
  | none => simp
  | some e =>
    cases e with
    | mapping span entries =>
      simp only [Expr.isAbsent, Bool.false_eq_true, if_false, Bool.not_eq_true']
      cases taken : entries.find? setsClasses with
      | none =>
        have free := List.find?_eq_none.mp taken
        have none : entries.any setsClasses = false := by simpa using free
        simp [none]
      | some entry =>
        have some : entries.any setsClasses = true :=
          List.any_eq_true.mpr ⟨entry, List.mem_of_find?_eq_some taken, List.find?_some taken⟩
        simp [some]
    | literal | identifier | list | function | call | other =>
      simp only [true_iff]
      split <;> exact ⟨_, rfl⟩

namespace Precompiler

variable {p : Precompiler} {tree : Tree} {j k : Nat} {call : Call} {first : Expr}
  {r : RunState} {span : Span} {sheet : Sheet}

/-- A recognized call with a style description that is the object literal at a span. -/
def Refers (p : Precompiler) (span : Span) (call : Call) : Prop :=
  call.isNoop = false ∧ ∃ first more found, call.arguments = first :: more ∧
    p.table.findMapping first = .ok found ∧ found.span = span

instance (p : Precompiler) (span : Span) (call : Call) : Decidable (p.Refers span call) :=
  decidable_of_iff (call.isNoop = false ∧ call.arguments.head?.bind (fun first =>
      (p.table.findMapping first).toOption.map FoundMapping.span) = some span) <| by
    refine and_congr_right fun _ => ?_
    cases call.arguments with
    | nil => simp
    | cons first more =>
      cases resolved : p.table.findMapping first <;> simp [resolved, Except.toOption]

/-- The call at a place is rewritten, and its options get the classes of a sheet. -/
def Carries (p : Precompiler) (sheet : Sheet) (j : Nat) (call : Call) : Prop :=
  ∃ edits first entries rest, p.outcomes[j]? = some (.rewritten edits sheet) ∧
    let indent := p.script.source.lineIndent call.argumentsSpan.start
    let options := layoutMapping (entries ++ [Call.classesText sheet indent]) indent
    ⟨call.argumentsSpan, Call.argumentsText first options rest⟩ ∈ edits

/-- The call at a place rewrites the declared object literal at a span. -/
def RewritesDeclaration (p : Precompiler) (span : Span) (sheet : Sheet) (k : Nat) : Prop :=
  ∃ call edits, p.calls[k]? = some call ∧ p.outcomes[k]? = some (.rewritten edits sheet) ∧
    ∃ e ∈ edits, e.span = span ∧ e.span ≠ call.argumentsSpan

/-- No edit of an earlier call overlaps the arguments of a call. -/
def Apart (p : Precompiler) (j : Nat) (call : Call) : Prop :=
  ∀ i < j, ∀ outcome, p.outcomes[i]? = some outcome → ∀ e ∈ outcome.edits,
    e.span.overlaps call.argumentsSpan = false

theorem rewrites_of_outcome {edits : List Edit} (found : p.calls[k]? = some call)
    (became : p.outcomes[k]? = some (.rewritten edits sheet)) :
    ∃ first declared shared a,
      Rewrites p k call (p.stateAt k) first edits declared shared a ∧ declared.sheet = sheet := by
  have outcome := outcome_eq found became
  obtain ⟨first, edits', declared, shared, a, rewrites⟩ | ⟨kept, -⟩ :=
    step_cases p k call (p.stateAt k)
  · rw [step_of_rewrites rewrites] at outcome
    obtain ⟨rfl, same⟩ := Outcome.rewritten.inj outcome
    exact ⟨first, declared, shared, a, rewrites, same⟩
  · rw [outcome] at kept
    cases kept

/-- A declaration is rewritten through a reference to it, for the first time. -/
theorem RewritesDeclaration.fresh
    (declares : p.RewritesDeclaration span sheet k) :
    ∃ call first edits declared a, p.calls[k]? = some call ∧
      Rewrites p k call (p.stateAt k) first edits declared false a ∧
      Call.isInline first = false ∧ declared.description.span = span ∧
      declared.sheet = sheet ∧ (p.stateAt k).find? span = none ∧ ∃ e ∈ edits, e.span = span := by
  obtain ⟨call, edits, found, became, e, member, rfl, other⟩ := declares
  obtain ⟨first, declared, shared, a, rewrites, same⟩ := rewrites_of_outcome found became
  obtain ⟨text, rfl | ⟨reference, rfl, declaration, rfl⟩⟩ := rewrites.shape
  · exact absurd (congrArg Edit.span (List.mem_singleton.mp member)) other
  have place : e.span = declared.description.span := by
    rcases List.mem_cons.mp member with rfl | member
    · rfl
    · exact absurd (congrArg Edit.span (List.mem_singleton.mp member)) other
  obtain ⟨literal, resolved, ⟨shared, -⟩ | ⟨-, unknown, classified, -⟩⟩ :=
    compileCall_ok rewrites.compiled
  · cases shared
  have span := ScopeTable.classify_span classified
  refine ⟨call, first, _, declared, a, found, rewrites, reference, place.symm, same, ?_, e, member, rfl⟩
  rw [place, span]
  exact unknown

/-- A call with two edits rewrites a declaration. -/
theorem declares_of_two (reads : p.Reads tree) {outcome : Outcome} {declaration arguments : Edit}
    (became : p.outcomes[k]? = some outcome) (two : outcome.edits = [declaration, arguments]) :
    ∃ sheet, p.RewritesDeclaration declaration.span sheet k := by
  cases outcome with
  | noop | skipped | unchanged => cases two
  | rewritten edits sheet =>
    cases two
    have bound : k < p.calls.length := by
      rw [← outcomes_length]
      exact (List.getElem?_eq_some_iff.mp became).1
    have found : p.calls[k]? = some p.calls[k] := List.getElem?_eq_getElem bound
    obtain ⟨first, declared, shared, a, rewrites, same⟩ := rewrites_of_outcome found became
    obtain ⟨inside, apart⟩ := rewrites.edits_safe reads (safeAt reads found) (mem_calls found)
    refine ⟨sheet, _, _, found, became, declaration, List.mem_cons_self, rfl, ?_⟩
    obtain ⟨text, one | ⟨-, -, text', both⟩⟩ := rewrites.shape
    · cases one
    cases both
    intro overlap
    have filled := (inside _ List.mem_cons_self).1
    have clear := (List.pairwise_cons.mp apart).1 _ (List.mem_singleton.mpr rfl)
    simp only [Span.overlaps_eq_false] at clear overlap filled
    rw [overlap] at clear filled
    omega

/-- What a declaration was compiled to stays known. -/
theorem find_step {d : Declared} (known : r.find? span = some d) :
    (p.step j call r).2.find? span = some d := by
  obtain ⟨first, edits, declared, shared, a, rewrites⟩ | ⟨-, a, same⟩ := step_cases p j call r
  · rw [step_of_rewrites rewrites]
    unfold RunState.find? accept
    simp only
    split
    · exact known
    rw [List.find?_cons]
    split
    · rename_i here
      have here : declared.description.span = span := by simpa using here
      obtain ⟨literal, -, ⟨-, earlier⟩ | ⟨-, unknown, classified, -⟩⟩ :=
        compileCall_ok rewrites.compiled
      · have place : declared.description.span = literal.span := by
          simpa using List.find?_some earlier
        rw [← place, here, known] at earlier
        exact earlier.symm
      · rw [← ScopeTable.classify_span classified, here, known] at unknown
        cases unknown
    · exact known
  · rw [same]
    exact known

theorem find_persists {m : Nat} {d : Declared} (known : (p.stateAt m).find? span = some d)
    (later : m ≤ j) (bound : j ≤ p.calls.length) : (p.stateAt j).find? span = some d := by
  induction later with
  | refl => exact known
  | @step j _ ih =>
    have found : p.calls[j]? = some p.calls[j] := List.getElem?_eq_getElem bound
    rw [stateAt_succ found]
    exact find_step (ih (by omega))

/-- A declaration that a call has rewritten through a reference is known from then on. -/
theorem find_after {edits : List Edit} {declared : Declared} {shared : Bool} {a : Allocator}
    (found : p.calls[k]? = some call)
    (rewrites : Rewrites p k call (p.stateAt k) first edits declared shared a)
    (reference : Call.isInline first = false) (later : k < j) (bound : j ≤ p.calls.length) :
    (p.stateAt j).find? declared.description.span = some declared := by
  refine find_persists ?_ later bound
  rw [stateAt_succ found, step_of_rewrites rewrites]
  simp [RunState.find?, accept, reference]

/-- A call that is rewritten gets the classes of its sheet. -/
theorem Rewrites.carries {edits : List Edit} {declared : Declared} {shared : Bool}
    {a : Allocator} (found : p.calls[j]? = Option.some call)
    (rewrites : Rewrites p j call (p.stateAt j) first edits declared shared a) :
    p.Carries declared.sheet j call := by
  obtain ⟨none, -⟩ | ⟨-, first', more, firstText, options, declaration, -, made, same, -⟩ :=
    Call.rewrite_ok rewrites.rewritten
  · exact absurd none rewrites.some
  obtain ⟨entries, rfl⟩ := Call.optionsText_ok made
  refine ⟨edits, firstText, entries, _, ?_, same ▸ List.mem_append_right _ (List.mem_singleton.mpr rfl)⟩
  rw [outcomes_getElem?, found, Option.map_some, step_of_rewrites rewrites]

/-- The description of a call that is rewritten stands where its first argument refers to. -/
theorem Rewrites.span_eq {edits : List Edit} {declared : Declared} {shared : Bool}
    {a : Allocator} (rewrites : Rewrites p j call r first edits declared shared a)
    (refers : p.Refers span call) : declared.description.span = span := by
  obtain ⟨-, first', more', found, arguments', resolved', rfl⟩ := refers
  obtain ⟨more, arguments⟩ := rewrites.arguments
  rw [arguments] at arguments'
  obtain ⟨rfl, -⟩ := List.cons.inj arguments'
  obtain ⟨literal, resolved, ⟨-, earlier⟩ | ⟨-, -, classified, -⟩⟩ :=
    compileCall_ok rewrites.compiled
  · cases resolved.symm.trans resolved'
    simpa using List.find?_some earlier
  · cases resolved.symm.trans resolved'
    exact ScopeTable.classify_span classified

/-- An object literal that is itself the first argument of a call lies inside the
arguments. -/
theorem Reads.inline_covered (reads : p.Reads tree)
    (listed : call ∈ p.script.styleCalls p.names) {more : List Expr}
    (arguments : call.arguments = first :: more) (inline : Call.isInline first = true)
    {found : FoundMapping} (resolved : p.table.findMapping first = .ok found) :
    call.argumentsSpan.Covers found.span := by
  obtain ⟨callee, makes, -⟩ := reads.derived.styleCall listed
  rw [arguments] at makes
  have covered := reads.derived.first_covered makes
  have other : ∀ place name, first ≠ .identifier place name := by
    rintro place name rfl
    cases inline
  unfold ScopeTable.findMapping ScopeTable.resolve at resolved
  rw [ScopeTable.follow_other other] at resolved
  cases first with
  | mapping place entries =>
    cases resolved
    exact covered
  | identifier | literal | list | function | call | other => cases resolved

/-- A call before the one that rewrites a declaration is not rewritten. -/
theorem RewritesDeclaration.not_before (reads : p.Reads tree)
    (declares : p.RewritesDeclaration span sheet k) {edits : List Edit} {declared : Declared}
    {shared : Bool} {a : Allocator} (found : p.calls[j]? = some call)
    (refers : p.Refers span call)
    (rewrites : Rewrites p j call (p.stateAt j) first edits declared shared a) : k ≤ j := by
  obtain ⟨call', first', edits', declared', a', found', rewrites', -, -, -, unknown, e, member,
    rfl⟩ := declares.fresh
  by_contra earlier
  have bound := Nat.le_of_lt (List.getElem?_eq_some_iff.mp found').1
  cases inline : Call.isInline first with
  | false =>
    have known := find_after found rewrites inline (Nat.lt_of_not_le earlier) bound
    rw [rewrites.span_eq refers, unknown] at known
    cases known
  | true =>
    obtain ⟨-, _, _, literal, arguments', resolved, place⟩ := refers
    obtain ⟨more, arguments⟩ := rewrites.arguments
    rw [arguments] at arguments'
    obtain ⟨rfl, -⟩ := List.cons.inj arguments'
    have covers := reads.inline_covered (mem_calls found) arguments inline resolved
    obtain ⟨text, same | ⟨reference, -⟩⟩ := rewrites.shape
    swap
    · rw [inline] at reference
      cases reference
    have accepted : (⟨call.argumentsSpan, text⟩ : Edit) ∈ (p.stateAt k).accepted := by
      rw [accepted_before k bound]
      refine List.mem_flatMap.mpr ⟨.rewritten edits declared.sheet, ?_, ?_⟩
      · refine List.mem_of_getElem? (i := j) ?_
        rw [List.getElem?_take_of_lt (Nat.lt_of_not_le earlier), outcomes_getElem?, found,
          Option.map_some, step_of_rewrites rewrites]
      · exact same ▸ List.mem_singleton.mpr rfl
    have checked := List.any_eq_false.mp rewrites'.apart e member
    have apart := List.any_eq_false.mp (Bool.eq_false_iff.mpr checked) _ accepted
    obtain ⟨start, stop⟩ := covers
    have room := (rewrites'.edits_safe reads (safeAt reads found') (mem_calls found')).1 e member
    obtain ⟨filled, -⟩ := room
    rw [place] at start stop
    simp only [Span.overlaps, Bool.and_eq_true, decide_eq_true_eq, not_and, Nat.not_lt] at apart
    omega

/-- Arguments are apart from what is accepted before their call exactly when they are
apart from the edits of every earlier call. -/
theorem apart_iff (bound : j ≤ p.calls.length) {e : Edit} (same : e.span = call.argumentsSpan) :
    (p.stateAt j).overlaps [e] = false ↔ p.Apart j call := by
  simp only [RunState.overlaps, List.any_cons, List.any_nil, Bool.or_false, List.any_eq_false,
    Bool.not_eq_true, accepted_before j bound, List.mem_flatMap, same]
  constructor
  · intro clear i earlier outcome became a member
    rw [Span.overlaps_comm]
    refine clear a ⟨outcome, List.mem_of_getElem? (i := i) ?_, member⟩
    rw [List.getElem?_take_of_lt earlier, became]
  · rintro apart a ⟨outcome, listed, member⟩
    obtain ⟨i, before⟩ := List.mem_iff_getElem?.mp listed
    rw [List.getElem?_take] at before
    split at before
    · rename_i earlier
      rw [Span.overlaps_comm]
      exact apart i earlier outcome before a member
    · cases before

/-- What a rewritten declaration was compiled to is used for a later call. -/
theorem compileCall_shared {found : FoundMapping} {d : Declared} (index : Nat)
    (resolved : p.table.findMapping first = .ok found)
    (known : r.find? found.span = some d) :
    p.compileCall index first r = (.ok (d, true), r.allocator) := by
  simp [compileCall, resolved, known]

/-- A call that shares a rewritten declaration gets its classes exactly when it comes after
the call that rewrote it, its options have none yet, and no accepted edit is in its way. -/
theorem carries_iff (reads : p.Reads tree) (declares : p.RewritesDeclaration span sheet k)
    (found : p.calls[j]? = some call) (refers : p.Refers span call) (other : j ≠ k) :
    p.Carries sheet j call ↔ k < j ∧ call.takesClasses = true ∧ p.Apart j call := by
  obtain ⟨call', first', edits', declared, a', found', rewrites', reference, place, same,
    -, -⟩ := declares.fresh
  have bound := Nat.le_of_lt (List.getElem?_eq_some_iff.mp found).1
  have known (later : k < j) : (p.stateAt j).find? span = some declared :=
    place ▸ find_after found' rewrites' reference later bound
  constructor
  · rintro ⟨edits, _, _, _, became, -⟩
    obtain ⟨first, declared', shared, a, rewrites, -⟩ := rewrites_of_outcome found became
    have later : k < j := by
      have := declares.not_before reads found refers rewrites
      omega
    have span := rewrites.span_eq refers
    obtain ⟨more, arguments⟩ := rewrites.arguments
    obtain ⟨literal, -, ⟨rfl, earlier⟩ | ⟨-, unknown, classified, -⟩⟩ :=
      compileCall_ok rewrites.compiled
    swap
    · rw [← ScopeTable.classify_span classified, span, known later] at unknown
      cases unknown
    obtain ⟨none, -⟩ | ⟨-, first₁, more₁, firstText, options, declaration, arguments₁, made, rfl,
      skip, -⟩ := Call.rewrite_ok rewrites.rewritten
    · exact absurd none rewrites.some
    refine ⟨later, (Call.takesClasses_iff arguments₁ _ _).mpr ⟨options, made⟩, ?_⟩
    have apart := rewrites.apart
    rw [skip (.inr rfl), List.nil_append] at apart
    exact (apart_iff bound rfl).mp apart
  · rintro ⟨later, takes, apart⟩
    obtain ⟨live, first, more, literal, arguments, resolved, rfl⟩ := refers
    have compiled := compileCall_shared j resolved (known later)
    have some : declared.sheet.isEmpty = false := by
      obtain ⟨none, -⟩ | ⟨some, -⟩ := Call.rewrite_ok rewrites'.rewritten
      · exact absurd none rewrites'.some
      · exact some
    obtain ⟨options, made⟩ := (Call.takesClasses_iff (s := p.script) arguments declared.sheet
      (p.script.source.lineIndent call.argumentsSpan.start)).mp takes
    obtain ⟨firstText, rewritten⟩ :=
      Call.rewrite_shared declared.description some arguments made
    have rewrites : Rewrites p j call (p.stateAt j) first _ declared true _ :=
      ⟨live, ⟨more, arguments⟩, compiled, rewritten, by simp, (apart_iff bound rfl).mpr apart⟩
    exact same ▸ rewrites.carries found

end Precompiler

/-- When a call rewrites a declared style description, all calls that refer to it get its
classes exactly when none of them comes before, and none behind has options with classes
already or arguments that an accepted edit overlaps. -/
theorem shared_classes_iff {settings : Settings} {filename source : Text} {script : Script}
    (parsed : Script.parse source = .ok script) {span : Span} {sheet : Sheet} {k : Nat}
    (declares :
      (Precompiler.ofScript settings filename script).RewritesDeclaration span sheet k) :
    let p := Precompiler.ofScript settings filename script
    (∀ j call, p.calls[j]? = some call → p.Refers span call → p.Carries sheet j call) ↔
      ∀ j call, p.calls[j]? = some call → p.Refers span call → j ≠ k →
        k < j ∧ call.takesClasses = true ∧ p.Apart j call := by
  obtain ⟨tree, reads⟩ := reads_ofScript settings filename parsed
  constructor
  · intro all j call found refers other
    exact (Precompiler.carries_iff reads declares found refers other).mp (all j call found refers)
  · intro free j call found refers
    by_cases other : j = k
    · subst other
      obtain ⟨call', _, _, declared, _, found', rewrites, -, -, same, -⟩ := declares.fresh
      cases found.symm.trans found'
      exact same ▸ rewrites.carries found
    · exact (Precompiler.carries_iff reads declares found refers other).mpr
        (free j call found refers other)

/-- The script `const s={a:{b:1}};f(s,{classes:0});f(s)`. Its first call has options with
classes already. -/
def takenSource : Text := text "const s=\x7ba:\x7bb:1\x7d\x7d;f(s,\x7bclasses:0\x7d);f(s)"

theorem takenSource_run : ∃ script, Script.parse takenSource = .ok script ∧
    let p := Precompiler.ofScript shortSettings [] script
    ∃ span sheet, p.RewritesDeclaration span sheet 1 ∧ ∃ call, p.calls[0]? = some call ∧
      p.Refers span call ∧ ∃ outcome, p.outcomes[0]? = some outcome ∧ outcome.edits = [] := by
  have checked : (Script.parse takenSource).toOption.any (fun script =>
      let p := Precompiler.ofScript shortSettings [] script
      let edits := p.outcomes.map Outcome.edits
      edits.map List.length == [0, 2] && p.calls.head?.any fun call =>
        edits.flatten.head?.any fun e => decide (p.Refers e.span call)) = true := by
    decide +kernel
  obtain ⟨script, parsed, run⟩ := Script.exists_of_any checked
  obtain ⟨tree, reads⟩ := reads_ofScript shortSettings [] parsed
  refine ⟨script, parsed, ?_⟩
  intro p
  change (((p.outcomes.map Outcome.edits).map List.length == [0, 2]) && p.calls.head?.any _) = _ at run
  generalize outcomes : p.outcomes = os at run
  generalize calls : p.calls = cs at run
  obtain ⟨lengths, refers⟩ := Bool.and_eq_true_iff.mp run
  obtain _ | ⟨a, _ | ⟨b, _ | ⟨c, rest⟩⟩⟩ := os
  · simp at lengths
  · simp at lengths
  · obtain _ | ⟨call, others⟩ := cs
    · simp at refers
    have lengths : a.edits = [] ∧ b.edits.length = 2 := by simpa using lengths
    obtain ⟨declaration, arguments, two⟩ := List.length_eq_two.mp lengths.2
    have refers : p.Refers declaration.span call := by simpa [lengths.1, two] using refers
    obtain ⟨sheet, declares⟩ := p.declares_of_two reads (k := 1) (by rw [outcomes]; rfl) two
    exact ⟨declaration.span, sheet, declares, call, rfl, refers, a, rfl,
      lengths.1⟩
  · simp at lengths

theorem shared_classes_iff_taken : ∃ script, Script.parse takenSource = .ok script ∧
    let p := Precompiler.ofScript shortSettings [] script
    ∃ span sheet, p.RewritesDeclaration span sheet 1 ∧
      ((∀ j call, p.calls[j]? = some call → p.Refers span call → p.Carries sheet j call) ↔
        ∀ j call, p.calls[j]? = some call → p.Refers span call → j ≠ 1 →
          1 < j ∧ call.takesClasses = true ∧ p.Apart j call) := by
  obtain ⟨script, parsed, span, sheet, declares, -⟩ := takenSource_run
  exact ⟨script, parsed, span, sheet, declares, shared_classes_iff parsed declares⟩

/-- A call that is skipped may be left with a description that a later one rewrites. -/
theorem shared_classes_lost : ∃ script, Script.parse takenSource = .ok script ∧
    let p := Precompiler.ofScript shortSettings [] script
    ∃ span sheet, p.RewritesDeclaration span sheet 1 ∧
      ∃ call, p.calls[0]? = some call ∧ p.Refers span call ∧ ¬p.Carries sheet 0 call := by
  obtain ⟨script, parsed, span, sheet, declares, call, found, refers, outcome, became, none⟩ :=
    takenSource_run
  refine ⟨script, parsed, span, sheet, declares, call, found, refers, ?_⟩
  rintro ⟨edits, first, entries, rest, rewritten, member⟩
  cases became.symm.trans rewritten
  rw [Outcome.edits] at none
  rw [none] at member
  cases member

end StyleSplit
