import StyleSplit.Proofs.Precompile.History
import StyleSplit.Proofs.Precompile.Placement

/-! The edits of a run are safe. However many calls share declarations or stand inside each
other, accepted edits have text to replace, stay inside the script and never overlap. The
check of a run compares new edits with earlier ones only; that the two edits of one call
do not overlap either holds because references go backwards. -/
namespace StyleSplit

open Script

theorem ScopeTable.classify_span {t : ScopeTable} {span : Span} {entries : List Entry}
    {d : Description} (classified : t.classify span entries = .ok d) : d.span = span := by
  obtain ⟨_, -, same⟩ := bind_eq_ok.mp classified
  cases same
  rfl

theorem Description.staticRules_nil {d : Description} (none : d.hasStaticContent = false) :
    d.staticRules = [] := by
  refine List.filterMap_eq_nil_iff.mpr fun selector member => ?_
  have dynamic := List.any_eq_false.mp none selector member
  unfold Selector.rule?
  split <;> simp [dynamic]

namespace Precompiler

/-- Without rules there are no classes. -/
theorem compile_nil {c : Compiler} {index : Nat} {a a' : Allocator} {sheet : Sheet}
    (made : c.compile [] index a = (.ok sheet, a')) : sheet.isEmpty = true := by
  cases made
  rfl

/-- What a run has accepted and noted so far is safe. -/
structure Safe (p : Precompiler) (tree : Tree) (r : RunState) : Prop where
  inside : ∀ e ∈ r.accepted, e.span.Inside p.script.source.length
  apart : r.accepted.Pairwise fun a b => a.span.overlaps b.span = false
  declared : ∀ d ∈ r.declared, d.description.hasStaticContent = true ∧
    ∃ found : FoundMapping, tree.Makes (.mapping found.span found.entries) ∧
      p.table.classify found.span found.entries = .ok d.description

variable {p : Precompiler} {tree : Tree} {index k : Nat} {call : Call} {first : Expr}
  {r : RunState} {edits : List Edit} {declared : Declared} {shared : Bool} {a : Allocator}

/-- A script is precompiled with its own scopes and a derivation of its text. -/
structure Reads (p : Precompiler) (tree : Tree) : Prop where
  derived : Derived p.script tree
  table : p.table = p.script.scopeTable

theorem mem_calls (found : p.calls[k]? = some call) : call ∈ p.script.styleCalls p.names :=
  List.mem_of_getElem? found

/-- What the first argument of a call stands for is an object literal of the script. -/
theorem Reads.found (reads : p.Reads tree) (listed : call ∈ p.script.styleCalls p.names)
    {more : List Expr} (arguments : call.arguments = first :: more) {found : FoundMapping}
    (resolved : p.table.findMapping first = .ok found) :
    tree.Makes (.mapping found.span found.entries) ∧ found.span.Inside p.script.source.length ∧
      (Call.isInline first = false → found.span.stop ≤ call.argumentsSpan.start) :=
  reads.derived.foundMapping listed arguments (reads.table ▸ resolved)

/-- What is noted of a rewritten declaration is what classifying it again would give. -/
theorem Safe.known (safe : p.Safe tree r) (reads : p.Reads tree) {found : FoundMapping}
    (makes : tree.Makes (.mapping found.span found.entries))
    (known : r.find? found.span = some declared) :
    declared.description.hasStaticContent = true ∧
      p.table.classify found.span found.entries = .ok declared.description := by
  obtain ⟨static, other, makes', classified⟩ :=
    safe.declared declared (List.mem_of_find?_eq_some known)
  have span := ScopeTable.classify_span classified
  have same : declared.description.span = found.span := by
    simpa using List.find?_some known
  obtain ⟨place, entries⟩ := other
  obtain rfl : place = found.span := span.symm.trans same
  obtain rfl := reads.derived.mapping_unique makes' makes
  exact ⟨static, classified⟩

/-- A call that is rewritten has the description of what its first argument stands for, and
that has static content. -/
theorem Rewrites.description (rewrites : Rewrites p index call r first edits declared shared a)
    (reads : p.Reads tree) (safe : p.Safe tree r)
    (listed : call ∈ p.script.styleCalls p.names) :
    declared.description.hasStaticContent = true ∧
      ∃ found, p.table.findMapping first = .ok found ∧ declared.description.span = found.span ∧
        tree.Makes (.mapping found.span found.entries) ∧
        p.table.classify found.span found.entries = .ok declared.description := by
  obtain ⟨more, arguments⟩ := rewrites.arguments
  obtain ⟨found, resolved, earlier | fresh⟩ := compileCall_ok rewrites.compiled
  · obtain ⟨-, known⟩ := earlier
    have makes := (reads.found listed arguments resolved).1
    obtain ⟨static, classified⟩ := safe.known reads makes known
    exact ⟨static, found, resolved, ScopeTable.classify_span classified, makes, classified⟩
  · obtain ⟨-, -, classified, compiled⟩ := fresh
    refine ⟨?_, found, resolved, ScopeTable.classify_span classified,
      (reads.found listed arguments resolved).1, classified⟩
    by_contra dynamic
    rw [Description.staticRules_nil (Bool.eq_false_iff.mpr dynamic)] at compiled
    have empty := compile_nil compiled
    have rewritten := rewrites.rewritten
    unfold Call.rewrite at rewritten
    rw [if_pos empty] at rewritten
    exact rewrites.some (Except.ok.inj rewritten).symm

/-- The edits of a call: of its arguments, and before them perhaps of a declaration. -/
theorem Rewrites.shape (rewrites : Rewrites p index call r first edits declared shared a) :
    ∃ arguments, edits = [⟨call.argumentsSpan, arguments⟩] ∨
      Call.isInline first = false ∧ shared = false ∧
        ∃ declaration, edits = [⟨declared.description.span, declaration⟩,
          ⟨call.argumentsSpan, arguments⟩] := by
  obtain ⟨more, given⟩ := rewrites.arguments
  obtain ⟨none, -⟩ | ⟨-, first', more', firstText, options, declaration, given', -, same, skip,
    declare⟩ := Call.rewrite_ok rewrites.rewritten
  · exact absurd none rewrites.some
  rw [given] at given'
  obtain ⟨rfl, rfl⟩ := List.cons.inj given'
  refine ⟨Call.argumentsText firstText options (more.tail.map fun e => p.script.textAt e.span), ?_⟩
  cases inline : Call.isInline first with
  | true =>
    rw [skip (.inl inline)] at same
    exact .inl same
  | false =>
    cases shared with
    | true =>
      rw [skip (.inr rfl)] at same
      exact .inl same
    | false =>
      obtain ⟨text, rfl⟩ := declare inline rfl
      exact .inr ⟨rfl, rfl, text, same⟩

/-- The edits of one call are inside the script and do not overlap each other. -/
theorem Rewrites.edits_safe (rewrites : Rewrites p index call r first edits declared shared a)
    (reads : p.Reads tree) (safe : p.Safe tree r)
    (listed : call ∈ p.script.styleCalls p.names) :
    (∀ e ∈ edits, e.span.Inside p.script.source.length) ∧
      edits.Pairwise (fun a b => a.span.overlaps b.span = false) := by
  obtain ⟨more, arguments⟩ := rewrites.arguments
  obtain ⟨-, found, resolved, span, -, -⟩ := rewrites.description reads safe listed
  obtain ⟨-, inside, before⟩ := reads.found listed arguments resolved
  have here := reads.derived.argumentsSpan listed
  obtain ⟨text, rfl | ⟨reference, -, declaration, rfl⟩⟩ := rewrites.shape
  · simpa using here
  · refine ⟨by simpa [span] using ⟨inside, here⟩, ?_⟩
    have apart := Span.overlaps_eq_false.mpr (.inr (before reference))
    simpa [span] using apart

theorem Safe.accept (safe : p.Safe tree r) (reads : p.Reads tree)
    (listed : call ∈ p.script.styleCalls p.names)
    (rewrites : Rewrites p index call r first edits declared shared a) :
    p.Safe tree (accept r first edits declared a) := by
  obtain ⟨inside, apart⟩ := rewrites.edits_safe reads safe listed
  obtain ⟨static, found, -, -, makes, classified⟩ := rewrites.description reads safe listed
  refine ⟨?_, ?_, ?_⟩
  · intro e member
    rcases List.mem_append.mp member with earlier | fresh
    · exact safe.inside e earlier
    · exact inside e fresh
  · refine List.pairwise_append.mpr ⟨safe.apart, apart, fun earlier known fresh member => ?_⟩
    have checked := List.any_eq_false.mp rewrites.apart fresh member
    have clear := List.any_eq_false.mp (Bool.eq_false_iff.mpr checked) earlier known
    rw [Span.overlaps_comm]
    exact Bool.eq_false_iff.mpr clear
  · intro d member
    simp only [Precompiler.accept] at member
    split at member
    · exact safe.declared d member
    · rcases List.mem_cons.mp member with rfl | member
      · exact ⟨static, found, makes, classified⟩
      · exact safe.declared d member

/-- Every call keeps a run safe. -/
theorem Safe.step (safe : p.Safe tree r) (reads : p.Reads tree)
    (listed : call ∈ p.script.styleCalls p.names) : p.Safe tree (p.step index call r).2 := by
  obtain ⟨first, edits, declared, shared, a, rewrites⟩ | ⟨-, a, same⟩ := step_cases p index call r
  · rw [step_of_rewrites rewrites]
    exact safe.accept reads listed rewrites
  · rw [same]
    exact ⟨safe.inside, safe.apart, safe.declared⟩

theorem stateAt_safe (reads : p.Reads tree) : ∀ k ≤ p.calls.length, p.Safe tree (p.stateAt k) := by
  refine stateAt_induct ⟨by simp [RunState.start], .nil, by simp [RunState.start]⟩ ?_
  exact fun k call found safe => safe.step reads (mem_calls found)

/-- All edits of a run, in the order in which they are accepted. -/
def allEdits (p : Precompiler) : List Edit := p.outcomes.flatMap Outcome.edits

theorem step_accepted (p : Precompiler) (index : Nat) (call : Call) (r : RunState) :
    (p.step index call r).2.accepted = r.accepted ++ (p.step index call r).1.edits := by
  obtain ⟨first, edits, declared, shared, a, rewrites⟩ | ⟨kept, a, same⟩ :=
    step_cases p index call r
  · rw [step_of_rewrites rewrites]
    rfl
  · rw [same]
    cases outcome : (p.step index call r).1 with
    | rewritten => simp [outcome, Outcome.isRewritten] at kept
    | noop | skipped | unchanged => simp [Outcome.edits]

/-- What a run has accepted before a call are the edits of the calls before it. -/
theorem accepted_before : ∀ k ≤ p.calls.length,
    (p.stateAt k).accepted = (p.outcomes.take k).flatMap Outcome.edits := by
  refine stateAt_induct
    (motive := fun k r => r.accepted = (p.outcomes.take k).flatMap Outcome.edits) rfl ?_
  intro k call found ih
  have outcome := p.outcomes_getElem? (k := k)
  rw [found, Option.map_some] at outcome
  rw [step_accepted, ih, List.take_add_one, outcome]
  simp

/-- What a run has accepted in the end are its edits. -/
theorem accepted_eq : (p.stateAt p.calls.length).accepted = p.allEdits := by
  rw [accepted_before _ (Nat.le_refl _), ← outcomes_length, List.take_length]
  rfl

theorem mem_allEdits {e : Edit} : e ∈ p.allEdits ↔
    ∃ (k : Nat) (call : Call) (edits : List Edit) (sheet : Sheet), p.calls[k]? = some call ∧
      p.outcomes[k]? = some (.rewritten edits sheet) ∧ e ∈ edits := by
  constructor
  · intro member
    obtain ⟨outcome, listed, member⟩ := List.mem_flatMap.mp member
    obtain ⟨k, became⟩ := List.mem_iff_getElem?.mp listed
    cases outcome with
    | noop | skipped | unchanged => cases member
    | rewritten edits sheet =>
      have bound := (List.getElem?_eq_some_iff.mp became).1
      rw [outcomes_length] at bound
      exact ⟨k, _, edits, sheet, List.getElem?_eq_getElem bound, became, member⟩
  · rintro ⟨k, call, edits, sheet, -, became, member⟩
    exact List.mem_flatMap.mpr ⟨_, List.mem_of_getElem? became, member⟩

/-- What a run does to a script. -/
structure SafeRun (p : Precompiler) : Prop where
  /-- Every edit replaces some text of the script. -/
  inside : ∀ e ∈ p.allEdits, e.span.Inside p.script.source.length
  /-- No two edits overlap. -/
  apart : p.allEdits.Pairwise fun a b => a.span.overlaps b.span = false
  /-- The edits can be applied, and nothing else changes. -/
  applied : Edit.apply p.script.source p.allEdits = .ok p.result.code ∧
    ∃ sorted, sorted.Perm p.allEdits ∧
      Edit.Rewrites 0 p.script.source sorted p.result.code
  /-- Edits come from calls that are rewritten: of their arguments, or of the object literal
  that the first of them stands for. -/
  origin : ∀ (k : Nat) (call : Call) (outcome : Outcome), p.calls[k]? = some call →
    p.outcomes[k]? = some outcome → ∀ e ∈ outcome.edits, outcome.isRewritten = true ∧
      (e.span = call.argumentsSpan ∨ ∃ first more found, call.arguments = first :: more ∧
        p.table.findMapping first = .ok found ∧ e.span = found.span)
  /-- A call without a style description, or without static content, or one that is
  skipped has no edits. -/
  none : ∀ (k : Nat) (call : Call) (outcome : Outcome), p.calls[k]? = some call →
    p.outcomes[k]? = some outcome →
      (call.isNoop = true ∨ (∃ reason, outcome = .skipped reason) ∨
        ∃ first more description, call.arguments = first :: more ∧
          p.describe first = .ok description ∧ description.hasStaticContent = false) →
      outcome.edits = []

theorem edits_of_kept {o : Outcome} (kept : o.isRewritten = false) : o.edits = [] := by
  cases o with
  | rewritten => cases kept
  | noop | skipped | unchanged => rfl

theorem outcome_eq {outcome : Outcome} (found : p.calls[k]? = some call)
    (became : p.outcomes[k]? = some outcome) : (p.step k call (p.stateAt k)).1 = outcome := by
  rw [outcomes_getElem?, found] at became
  exact Option.some.inj became

theorem safeAt (reads : p.Reads tree) (found : p.calls[k]? = some call) :
    p.Safe tree (p.stateAt k) :=
  stateAt_safe reads k (Nat.le_of_lt (List.getElem?_eq_some_iff.mp found).1)

/-- The edits of a call are those of its arguments and of what its first one stands for. -/
theorem Reads.origin (reads : p.Reads tree) {outcome : Outcome} (found : p.calls[k]? = some call)
    (became : p.outcomes[k]? = some outcome) {e : Edit} (member : e ∈ outcome.edits) :
    outcome.isRewritten = true ∧
      (e.span = call.argumentsSpan ∨ ∃ first more found, call.arguments = first :: more ∧
        p.table.findMapping first = .ok found ∧ e.span = found.span) := by
  have outcome := outcome_eq found became
  obtain ⟨first, edits, declared, shared, a, rewrites⟩ | ⟨kept, -⟩ :=
    step_cases p k call (p.stateAt k)
  · rw [step_of_rewrites rewrites] at outcome
    subst outcome
    obtain ⟨more, arguments⟩ := rewrites.arguments
    obtain ⟨-, literal, resolved, span, -⟩ :=
      rewrites.description reads (safeAt reads found) (mem_calls found)
    refine ⟨rfl, ?_⟩
    have declaration : e.span = declared.description.span → ∃ first more found,
        call.arguments = first :: more ∧ p.table.findMapping first = .ok found ∧
          e.span = found.span :=
      fun same => ⟨first, more, literal, arguments, resolved, same.trans span⟩
    obtain ⟨text, rfl | ⟨-, -, _, rfl⟩⟩ := rewrites.shape
    · exact .inl (congrArg Edit.span (List.mem_singleton.mp member))
    · rcases List.mem_cons.mp member with rfl | member
      · exact .inr (declaration rfl)
      · exact .inl (congrArg Edit.span (List.mem_singleton.mp member))
  · rw [outcome] at kept
    rw [edits_of_kept kept] at member
    contradiction

/-- A call without static content is not rewritten. -/
theorem Reads.none (reads : p.Reads tree) {outcome : Outcome} (found : p.calls[k]? = some call)
    (became : p.outcomes[k]? = some outcome)
    (idle : call.isNoop = true ∨ (∃ reason, outcome = .skipped reason) ∨
      ∃ first more description, call.arguments = first :: more ∧
        p.describe first = .ok description ∧ description.hasStaticContent = false) :
    outcome.edits = [] := by
  have outcome := outcome_eq found became
  obtain ⟨first, edits, declared, shared, a, rewrites⟩ | ⟨kept, -⟩ :=
    step_cases p k call (p.stateAt k)
  · rw [step_of_rewrites rewrites] at outcome
    rcases idle with noop | ⟨reason, rfl⟩ | ⟨first', more', description, arguments', described, dynamic⟩
    · rw [rewrites.live] at noop
      cases noop
    · cases outcome
    · obtain ⟨more, arguments⟩ := rewrites.arguments
      rw [arguments] at arguments'
      obtain ⟨rfl, -⟩ := List.cons.inj arguments'
      obtain ⟨static, literal, resolved, -, -, classified⟩ :=
        rewrites.description reads (safeAt reads found) (mem_calls found)
      obtain ⟨literal', resolved', classified'⟩ := bind_eq_ok.mp described
      cases resolved.symm.trans resolved'
      cases classified.symm.trans classified'
      rw [static] at dynamic
      cases dynamic
  · rw [outcome] at kept
    exact edits_of_kept kept

theorem Reads.safeRun (reads : p.Reads tree) : p.SafeRun := by
  have safe := stateAt_safe reads p.calls.length (Nat.le_refl _)
  have inside := p.accepted_eq ▸ safe.inside
  have apart := p.accepted_eq ▸ safe.apart
  have sorted := Edit.sort_perm p.allEdits
  have within (e : Edit) (member : e ∈ p.allEdits) := (inside e member).within
  obtain ⟨code, spliced, rewrites⟩ := Edit.splice_rewrites
    (fun e member => within e (sorted.mem_iff.mp member)) (fun _ _ => Nat.zero_le _)
    ((Edit.sort_consecutive within).mp apart)
  have applied : Edit.apply p.script.source p.allEdits = .ok code := spliced
  have answer : p.result.code = code := by
    have applied : Edit.apply p.script.source (p.outcomes.flatMap Outcome.edits) = .ok code := applied
    simp only [result, applied]
  refine ⟨inside, apart, ?_, ?_, ?_⟩
  · rw [answer]
    exact ⟨applied, _, sorted, rewrites⟩
  · exact fun k call outcome found became e member => reads.origin found became member
  · exact fun k call outcome found became idle => reads.none found became idle

end Precompiler

/-- Reading a script is enough to precompile it safely, whatever the settings are. -/
theorem reads_ofScript (settings : Settings) (filename : Text) {source : Text} {script : Script}
    (parsed : Script.parse source = .ok script) :
    ∃ tree, (Precompiler.ofScript settings filename script).Reads tree := by
  obtain ⟨-, tree, derived⟩ := Script.parse_derived parsed
  exact ⟨tree, derived, rfl⟩

/-- Precompiling a script only replaces the arguments of calls and the object literals
that they refer to, and its edits can always be applied. -/
theorem precompile_safe {settings : Settings} {filename source : Text} {script : Script}
    (parsed : Script.parse source = .ok script) :
    precompile settings filename source =
        .ok (Precompiler.ofScript settings filename script).result ∧
      script.source = source ∧ (Precompiler.ofScript settings filename script).SafeRun := by
  obtain ⟨tree, reads⟩ := reads_ofScript settings filename parsed
  refine ⟨?_, (Script.parse_derived parsed).1, reads.safeRun⟩
  exact bind_eq_ok.mpr ⟨script, parsed, rfl⟩

/-- Settings that look for one short name. -/
def shortSettings : Settings where
  names := [text "f"]
  naming := Naming.standard
  plugins := []
  classPrefix := none

/-- The script `const s={a:{b:1}};f(s)`, whose call is rewritten together with the
declaration that it refers to. -/
def declaringSource : Text := text "const s=\x7ba:\x7bb:1\x7d\x7d;f(s)"

theorem precompile_safe_declaring : ∃ script, Script.parse declaringSource = .ok script ∧
    (Precompiler.ofScript shortSettings [] script).result.rewritten = 1 ∧
    precompile shortSettings [] declaringSource =
      .ok (Precompiler.ofScript shortSettings [] script).result ∧
    script.source = declaringSource ∧ (Precompiler.ofScript shortSettings [] script).SafeRun := by
  have checked : (Script.parse declaringSource).toOption.any (fun script =>
      (Precompiler.ofScript shortSettings [] script).result.rewritten == 1) = true := by
    decide +kernel
  obtain ⟨script, parsed, rewritten⟩ := Script.exists_of_any checked
  exact ⟨script, parsed, eq_of_beq rewritten, precompile_safe parsed⟩

end StyleSplit
