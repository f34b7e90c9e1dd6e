import StyleSplit.Proofs.Precompile.Safety
import StyleSplit.Proofs.Scope.Standing
import StyleSplit.Proofs.Sheet.Partition

/-! What copied entries refer to. A selector that refers to an object literal elsewhere is
rewritten to an object literal of its own, with the entries that stay copied from there; the
names in them are then looked up from where the selector stands. They keep what they refer
to exactly if no scope around only one of the two places declares them. -/
namespace StyleSplit

open Script Script.Node

namespace ScopeTable

/-- Looked up from the scope `here`, a name has the declaration that the identifier at a span
has, or neither has any. -/
def SeesSame (t : ScopeTable) (here : Nat) (span : Span) (name : Text) : Prop :=
  declaring? t.scopes here name = t.declaringAt? span name

theorem SeesSame.lookup {t : ScopeTable} {here : Nat} {span : Span} {name : Text}
    (same : t.SeesSame here span name) : lookupFrom t.scopes here name = t.lookup span name := by
  rw [lookup_eq_declaring, ← same]
  rfl

end ScopeTable

/-- An identifier in an entry that is not declared inside it: the scope that declares it, if
any, is around the whole entry. -/
structure Script.Free (s : Script) (entry : Entry) (span : Span) (name : Text) : Prop where
  held : Holds (.entry entry) (.expr (.identifier span name))
  outside : ∀ id declaring, s.Stands (.entry entry) id →
    s.scopeTable.declaringAt? span name = some declaring → declaring ∈ s.scopeTable.around id

/-- The call of some number is rewritten and an entry is copied into its description: the
entry stays of a mixed selector that refers to an object literal elsewhere. -/
structure Precompiler.Copies (p : Precompiler) (k : Nat) (selector : Selector) (entry : Entry) :
    Prop where
  rewritten : ∃ call edits sheet first more description, p.calls[k]? = some call ∧
    p.outcomes[k]? = some (.rewritten edits sheet) ∧ call.arguments = first :: more ∧
    p.describe first = .ok description ∧ selector ∈ description.selectors
  mixed : selector.verdict = .mixed
  reference : ∃ span name, selector.entry.value = .identifier span name
  stays : entry ∈ selector.dynamic

namespace Script

variable {s : Script} {source : Text} {entry : Entry} {span : Span} {name : Text}

/-- A free identifier of an entry keeps its declaration in another place exactly if every
scope that declares its name is around both places or around neither. -/
theorem Free.seesSame_iff (free : s.Free entry span name) (parsed : parse source = .ok s)
    {there : Nat} (stands : s.Stands (.entry entry) there) (here : Nat) :
    s.scopeTable.SeesSame here span name ↔ ∀ k, s.scopeTable.declares name k = true →
      (k ∈ s.scopeTable.around here ↔ k ∈ s.scopeTable.around there) := by
  have ordered := s.descending_scopeTable
  obtain ⟨p, member, node, rfl⟩ := stands
  obtain ⟨own, stands, around⟩ := stands_held member (node ▸ free.held)
  have inside := (ScopeTable.around_suffix ordered around).subset
  have declaring := (lookup_eq parsed stands).2
  -- Seen from its own place the name is declared outside the entry, as seen from the entry.
  have same : s.scopeTable.declaringAt? span name =
      ScopeTable.declaring? s.scopeTable.scopes p.outer name := by
    rw [declaring, ScopeTable.declaring?_same_iff ordered]
    refine fun k declares => ⟨fun member' => ?_, fun member' => inside member'⟩
    obtain ⟨outer, found⟩ := ScopeTable.exists_declaring member' declares
    have listed := free.outside p.outer outer ⟨p, member, node, rfl⟩ (declaring.trans found)
    exact (ScopeTable.around_suffix ordered listed).subset
      (ScopeTable.mem_around_declaring ordered found member' declares)
  rw [ScopeTable.SeesSame, same, ScopeTable.declaring?_same_iff ordered]

end Script

/-- The arguments of the calls that a script is searched for are part of it. -/
theorem Script.stands_argument {s : Script} {names : List Text} {c : Call}
    (listed : c ∈ s.styleCalls names) {e : Expr} (argument : e ∈ c.arguments) :
    ∃ id, s.Stands (.expr e) id := by
  obtain ⟨n, walked, same⟩ := List.mem_filterMap.mp (List.mem_filter.mp listed).1
  rw [← s.places_walk] at walked
  obtain ⟨p, place, rfl⟩ := List.mem_map.mp walked
  refine ⟨p.inner, stands_child place ?_⟩
  unfold Call.ofNode? at same
  split at same
  · rename_i call
    cases same
    rw [call]
    exact List.mem_cons_of_mem _ (List.mem_map_of_mem argument)
  · contradiction

namespace Precompiler

variable {p : Precompiler} {k : Nat} {selector : Selector} {entry : Entry}

/-- The selector and the copied entry are part of the script. -/
theorem Copies.stands (copies : p.Copies k selector entry) (table : p.table = p.script.scopeTable) :
    (∃ here, p.script.Stands (.entry selector.entry) here) ∧
      ∃ there, p.script.Stands (.entry entry) there := by
  obtain ⟨call, _, _, first, more, description, found, -, arguments, described, member⟩ :=
    copies.rewritten
  obtain ⟨literal, mapping, classified⟩ := bind_eq_ok.mp described
  have resolved := table ▸ ScopeTable.resolve_of_findMapping mapping
  rw [(Description.classify_selectors classified).1] at member
  obtain ⟨own, listed, rfl⟩ := List.mem_map.mp member
  obtain ⟨_, stands⟩ :=
    Script.stands_argument (mem_calls found) (e := first) (arguments ▸ List.mem_cons_self)
  obtain ⟨_, stands⟩ := Script.stands_resolved stands resolved
  obtain ⟨here, stands⟩ := stands.entry listed
  refine ⟨⟨here, by rwa [ScopeTable.classifySelector_entry]⟩, ?_⟩
  obtain ⟨-, -, none⟩ | ⟨-, -, _, entries, refers, splits, -⟩ :=
    p.table.classifySelector_spec (p.table.keyName own) own
  · have stays := copies.stays
    rw [none] at stays
    cases stays
  · obtain ⟨_, stands⟩ := Script.stands_resolved stands.value (table ▸ refers)
    exact stands.entry (splits.dynamic_subset copies.stays)

end Precompiler

/-- A free identifier of a copied entry keeps its declaration, or is declared in neither
place, exactly if every scope that declares its name is around both the selector, where it
comes to stand, and the entry, where it stood, or around neither. -/
theorem copied_name_kept_iff {settings : Settings} {filename source : Text} {script : Script}
    (parsed : Script.parse source = .ok script) {k : Nat} {selector : Selector} {entry : Entry}
    (copies : (Precompiler.ofScript settings filename script).Copies k selector entry) :
    let t := script.scopeTable
    (∃ here, script.Stands (.entry selector.entry) here) ∧
    (∃ there, script.Stands (.entry entry) there) ∧
    ∀ here there, script.Stands (.entry selector.entry) here → script.Stands (.entry entry) there →
      ∀ span name, script.Free entry span name →
        (t.SeesSame here span name ↔ ∀ k, t.declares name k = true →
          (k ∈ t.around here ↔ k ∈ t.around there)) ∧
        (t.SeesSame here span name →
          ScopeTable.lookupFrom t.scopes here name = t.lookup span name) := by
  obtain ⟨selected, copied⟩ := copies.stands rfl
  refine ⟨selected, copied, fun here there _ stands span name free => ?_⟩
  exact ⟨free.seesSame_iff parsed stands here, fun same => same.lookup⟩

def Script.Expr.identifier? : Expr → Option (Span × Text)
  | .identifier span name => some (span, name)
  | _ => none

theorem Script.Expr.identifier?_eq_some {e : Expr} {use : Span × Text}
    (same : e.identifier? = some use) : e = .identifier use.1 use.2 := by
  cases e with
  | identifier =>
    cases same
    rfl
  | literal | list | mapping | function | call | other => cases same

/-- The script `const b={c:1,d:x};x=>f({a:b})`. The name that is copied is not declared where
it stood. -/
def capturingSource : Text := text "const b=\x7bc:1,d:x\x7d;x=>f(\x7ba:b\x7d)"

theorem capturingSource_run : ∃ script, Script.parse capturingSource = .ok script ∧
    ∃ selector entry, (Precompiler.ofScript shortSettings [] script).Copies 0 selector entry ∧
      ∃ span name, script.Free entry span name ∧
        ∀ here, script.Stands (.entry selector.entry) here →
          ScopeTable.lookupFrom script.scopeTable.scopes here name ≠
            script.scopeTable.lookup span name := by
  have checked : (Script.parse capturingSource).toOption.any (fun script =>
      let p := Precompiler.ofScript shortSettings [] script
      (do
        let call ← p.calls[0]?
        let outcome ← p.outcomes[0]?
        let first ← call.arguments.head?
        let description ← (p.describe first).toOption
        let selector ← description.selectors.head?
        let entry ← selector.dynamic.head?
        let reference ← selector.entry.value.identifier?
        let copied ← entry.value.identifier?
        return outcome.isRewritten && selector.verdict == .mixed &&
          (p.table.lookup reference.1 copied.2).isSome &&
          (p.table.declaringAt? copied.1 copied.2).isNone) == some true) = true := by
    decide +kernel
  obtain ⟨script, parsed, run⟩ := Script.exists_of_any checked
  obtain ⟨call, found, run⟩ := Option.bind_eq_some_iff.mp (eq_of_beq run)
  obtain ⟨outcome, became, run⟩ := Option.bind_eq_some_iff.mp run
  obtain ⟨first, head, run⟩ := Option.bind_eq_some_iff.mp run
  obtain ⟨description, described, run⟩ := Option.bind_eq_some_iff.mp run
  obtain ⟨selector, chosen, run⟩ := Option.bind_eq_some_iff.mp run
  obtain ⟨entry, stays, run⟩ := Option.bind_eq_some_iff.mp run
  obtain ⟨⟨place, other⟩, reference, run⟩ := Option.bind_eq_some_iff.mp run
  obtain ⟨⟨span, name⟩, value, run⟩ := Option.bind_eq_some_iff.mp run
  have reference := Expr.identifier?_eq_some reference
  have value := Expr.identifier?_eq_some value
  simp only [Option.pure_def, Option.some.injEq, Bool.and_eq_true] at run
  obtain ⟨⟨⟨rewritten, mixed⟩, known⟩, unknown⟩ := run
  have unknown := Option.isNone_iff_eq_none.mp unknown
  obtain ⟨more, arguments⟩ := List.head?_eq_some_iff.mp head
  obtain ⟨edits, sheet, rfl⟩ : ∃ edits sheet, outcome = .rewritten edits sheet := by
    cases outcome with
    | rewritten edits sheet => exact ⟨edits, sheet, rfl⟩
    | noop | unchanged | skipped => cases rewritten
  have described : (Precompiler.ofScript shortSettings [] script).describe first =
      .ok description := by
    cases made : (Precompiler.ofScript shortSettings [] script).describe first with
    | error e =>
      rw [made] at described
      cases described
    | ok d =>
      rw [made] at described
      cases described
      rfl
  refine ⟨script, parsed, selector, entry, ⟨⟨call, edits, sheet, first, more, description, found,
    became, arguments, described, List.mem_of_mem_head? chosen⟩, eq_of_beq mixed,
    ⟨_, _, reference⟩, List.mem_of_mem_head? stays⟩, span, name, ⟨?_, ?_⟩,
    fun here stands same => ?_⟩
  · exact .inside entry.value_mem_children (value ▸ .self)
  · intro _ declaring _ declared
    cases unknown.symm.trans declared
  · -- The reference stands where the selector does, and the name is declared there.
    have stands : script.Stands (.expr (.identifier place other)) here := reference ▸ stands.value
    have missing : script.scopeTable.lookup span name = none := by
      rw [ScopeTable.lookup_eq_declaring]
      exact congrArg (Option.bind · _) unknown
    have seen : script.scopeTable.lookup place name =
        ScopeTable.lookupFrom script.scopeTable.scopes here name := by
      rw [ScopeTable.lookup, Script.find_use parsed stands]
      rfl
    have known : (script.scopeTable.lookup place name).isSome = true := known
    rw [seen, same, missing] at known
    cases known

/-- The copied name is declared where it comes to stand, and not where it stood. -/
theorem copied_name_captured : ∃ script, Script.parse capturingSource = .ok script ∧
    ∃ selector entry here span name,
      (Precompiler.ofScript shortSettings [] script).Copies 0 selector entry ∧
      script.Stands (.entry selector.entry) here ∧ script.Free entry span name ∧
      ScopeTable.lookupFrom script.scopeTable.scopes here name ≠
        script.scopeTable.lookup span name := by
  obtain ⟨script, parsed, selector, entry, copies, span, name, free, differs⟩ := capturingSource_run
  obtain ⟨⟨here, stands⟩, -⟩ := copies.stands rfl
  exact ⟨script, parsed, selector, entry, here, span, name, copies, stands, free,
    differs here stands⟩

theorem copied_name_kept_iff_capturing : ∃ script, Script.parse capturingSource = .ok script ∧
    ∃ selector entry, (Precompiler.ofScript shortSettings [] script).Copies 0 selector entry ∧
      let t := script.scopeTable
      (∃ here, script.Stands (.entry selector.entry) here) ∧
      (∃ there, script.Stands (.entry entry) there) ∧
      ∀ here there, script.Stands (.entry selector.entry) here →
        script.Stands (.entry entry) there → ∀ span name, script.Free entry span name →
          (t.SeesSame here span name ↔ ∀ k, t.declares name k = true →
            (k ∈ t.around here ↔ k ∈ t.around there)) ∧
          (t.SeesSame here span name →
            ScopeTable.lookupFrom t.scopes here name = t.lookup span name) := by
  obtain ⟨script, parsed, selector, entry, copies, -⟩ := capturingSource_run
  exact ⟨script, parsed, selector, entry, copies, copied_name_kept_iff parsed copies⟩

end StyleSplit
