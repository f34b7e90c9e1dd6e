import StyleSplit.Proofs.Scope.Following
import StyleSplit.Proofs.Script.Nesting

/-! References in any script with nested spans, wherever it comes from. A step along a
reference leads to a function, and there the chain ends, or to an initial value that ends
before the reference starts; so no chain comes back to where it was, and an object literal
that a reference stands for ends before the reference. -/
namespace StyleSplit

open Script

/-- A script whose nodes stand at some text and around what they hold, but for the class body
that has what the class extends. Declarators stand around their initial values, and what a
function declaration declares is a function. -/
structure Script.WellNested (s : Script) : Prop where
  filled : ∀ n ∈ s.walk, n.span.start < n.span.stop
  children : ∀ n ∈ s.walk, ∀ c ∈ n.children, n.span.Covers c.span ∨ s.Extends n c
  declarators : ∀ span kind declarators, .stmt (.declaration span kind declarators) ∈ s.walk →
    ∀ d ∈ declarators, ∀ e, d.init = some e → d.span.Covers e.span
  functions : ∀ span name definition, .stmt (.function span name definition) ∈ s.walk →
    ∃ place own parameters body, definition = .function place own parameters body

/-- Reading a text gives a script with nested spans. -/
theorem Script.parse_wellNested {source : Text} {s : Script} (parsed : parse source = .ok s) :
    s.WellNested where
  filled _ walked := (walk_inside parsed walked).1
  children n walked := (walk_settled parsed n walked).row.1
  declarators _ _ _ walked := (walk_settled parsed _ walked).declarators
  functions _ _ _ walked := by
    obtain ⟨_, -, known⟩ := parse_spelled parsed
    exact (known _ walked).1

/-- The initial value of a function is a function, and that of any other name stands inside
the declaration. -/
def Binding.Enclosing (b : Binding) : Prop :=
  ∀ e, b.init = some e →
    (b.kind = .function → ∃ span name parameters body, e = .function span name parameters body) ∧
      (b.kind ≠ .function → b.span.Covers e.span ∧ e.span.start < e.span.stop)

namespace Script.WellNested

variable {s : Script} {span : Span} {name : Text} {b : Binding} {init : Expr}

/-- What a node of such a script declares stands around its initial value. -/
theorem declares_enclosing (nested : s.WellNested) {n : Node} (walked : n ∈ s.walk)
    (member : b ∈ n.declares) : b.Enclosing := by
  intro e same
  obtain ⟨kind, ⟨_, _, _, _, rfl, rfl⟩ | ⟨_, _, rfl⟩⟩ |
    ⟨whole, sort, declarators, t, rfl, listed, held, place, kind⟩ :=
      Node.declares_cases member same
  · exact ⟨fun _ => ⟨_, _, _, _, rfl⟩, fun other => absurd kind other⟩
  · exact ⟨fun _ => nested.functions _ _ _ walked, fun other => absurd kind other⟩
  · have covers := nested.declarators _ _ _ walked t listed e held
    have child : Node.expr e ∈ (Node.stmt (.declaration whole sort declarators)).children :=
      List.mem_filterMap.mpr ⟨t, listed, congrArg (Option.map Node.expr) held⟩
    have filled := nested.filled _ (walk_child walked child)
    exact ⟨fun function => absurd function kind, fun _ => ⟨place ▸ covers, filled⟩⟩

theorem each_enclosing (nested : s.WellNested) :
    Scope.Each Binding.Enclosing s.scopeTable.scopes := by
  refine each_scopeTable ?_ fun p place b member => ?_
  · intro b old enclosing init kind span
    unfold Binding.Enclosing
    rwa [init, kind, span]
  · exact nested.declares_enclosing (s.places_walk ▸ List.mem_map_of_mem place) member

/-- A step along a reference leads to a function if the name is that of one, and otherwise to
something before the reference. -/
theorem step_cases (nested : s.WellNested) (found : s.scopeTable.lookup span name = some b)
    (stepped : s.scopeTable.step span name = .ok init) :
    (b.kind = .function → ∃ place own parameters body,
        init = .function place own parameters body) ∧
      (b.kind ≠ .function → init.span.start < init.span.stop ∧ init.span.stop ≤ span.start) := by
  obtain ⟨_, found', -, same, late⟩ := ScopeTable.step_ok stepped
  obtain rfl := Option.some.inj (found.symm.trans found')
  obtain ⟨_, -, declared⟩ := Option.bind_eq_some_iff.mp found
  obtain ⟨scope, known, member⟩ := ScopeTable.mem_of_lookupFrom declared
  obtain ⟨function, other⟩ := nested.each_enclosing scope known b member init same
  refine ⟨function, fun kind => ?_⟩
  obtain ⟨covers, filled⟩ := other kind
  exact ⟨filled, Nat.le_trans covers.2 (late.resolve_left kind)⟩

theorem backward (nested : s.WellNested) : s.scopeTable.Backward := by
  intro span name init stepped
  obtain ⟨b, found, -⟩ := ScopeTable.step_ok stepped
  obtain ⟨function, other⟩ := nested.step_cases found stepped
  by_cases kind : b.kind = .function
  · exact .inl (function kind)
  · exact .inr (other kind)

end Script.WellNested

/-- References go backwards in every script with nested spans. A step that is not through the
name of a function leads to something that ends before the reference starts, one through the
name of a function ends the chain at that function, no reference is circular, and an object
literal that a reference stands for ends before the reference starts. -/
theorem references_go_backward {s : Script} (nested : s.WellNested) :
    (∀ span name b init, s.scopeTable.lookup span name = some b →
      s.scopeTable.step span name = .ok init →
        if b.kind = .function then ∃ place own parameters body,
          init = .function place own parameters body
        else init.span.stop ≤ span.start) ∧
      (∀ e name, s.scopeTable.resolve e ≠ .unresolved name .circular) ∧
      ∀ span name place entries,
        s.scopeTable.resolve (.identifier span name) = .resolved (.mapping place entries) →
          place.stop ≤ span.start := by
  refine ⟨fun span name b init found stepped => ?_,
    ScopeTable.resolve_ne_circular nested.backward, fun span name place entries resolved => ?_⟩
  · obtain ⟨function, other⟩ := nested.step_cases found stepped
    split
    · rename_i kind
      exact function kind
    · rename_i kind
      exact (other kind).2
  · obtain ⟨other, -⟩ | ⟨_, _, _, _, same⟩ | before :=
      ScopeTable.follow_backward nested.backward resolved
    · exact absurd rfl (other span name)
    · cases same
    · exact before

/-- The script `const a={b:1};var c=a,d=d;f(c,d)`, in which `d` refers to itself. -/
def chainedSource : Text := text "const a=\x7bb:1\x7d;var c=a,d=d;f(c,d)"

/-- Where an object literal stands. -/
def Script.Expr.mappingSpan? : Expr → Option Span
  | mapping span _ => some span
  | _ => none

theorem Script.Expr.mappingSpan?_eq_some {e : Expr} {span : Span} :
    e.mappingSpan? = some span ↔ ∃ entries, e = .mapping span entries := by
  cases e <;> simp [mappingSpan?]

theorem references_go_backward_chained : ∃ s b init entries, Script.parse chainedSource = .ok s ∧
    s.WellNested ∧ s.scopeTable.lookup ⟨28, 29⟩ (text "c") = some b ∧ b.kind = .var ∧
    s.scopeTable.step ⟨28, 29⟩ (text "c") = .ok init ∧ init.span.stop ≤ 28 ∧
    s.scopeTable.resolve (.identifier ⟨28, 29⟩ (text "c")) = .resolved (.mapping ⟨8, 13⟩ entries) ∧
    (⟨8, 13⟩ : Span).stop ≤ 28 ∧
    ∀ name, s.scopeTable.resolve (.identifier ⟨24, 25⟩ (text "d")) ≠
      .unresolved name .circular := by
  have checked : (Script.parse chainedSource).toOption.any (fun s =>
      (s.scopeTable.lookup ⟨28, 29⟩ (text "c")).any (·.kind == .var) &&
        (s.scopeTable.step ⟨28, 29⟩ (text "c")).toOption.any (fun _ => true) &&
        (s.scopeTable.resolve (.identifier ⟨28, 29⟩ (text "c"))).expr?.any
          (·.mappingSpan? == some ⟨8, 13⟩)) = true := by
    decide +kernel
  obtain ⟨s, parsed, run⟩ := Script.exists_of_any checked
  simp only [Bool.and_eq_true] at run
  obtain ⟨⟨looked, steps⟩, resolves⟩ := run
  obtain ⟨b, found, kind⟩ := (Option.any_eq_true _ _).mp looked
  obtain ⟨init, stepped, -⟩ := Script.exists_ok_of_any steps
  obtain ⟨e, known, place⟩ := (Option.any_eq_true _ _).mp resolves
  obtain ⟨entries, rfl⟩ := Script.Expr.mappingSpan?_eq_some.mp (eq_of_beq place)
  have resolved := Resolution.expr?_eq_some.mp known
  have kind : b.kind = .var := eq_of_beq kind
  have nested := Script.parse_wellNested parsed
  obtain ⟨back, uncircular, mapping⟩ := references_go_backward nested
  have before := back _ _ _ _ found stepped
  rw [kind, if_neg (by decide)] at before
  exact ⟨s, b, init, entries, parsed, nested, found, kind, stepped, before, resolved,
    mapping _ _ _ _ resolved, uncircular _⟩

end StyleSplit
