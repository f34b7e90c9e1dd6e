import StyleSplit.Proofs.Scope.Places
import StyleSplit.Proofs.Script.Grounding
import StyleSplit.Scope.Resolution

/-! Following references goes backwards in the text. A name other than that of a function
has its initial value inside its declaration, and may not be used before that ends; so
what an identifier stands for, unless it is a function, ends before the identifier starts. -/
namespace StyleSplit

open Script

/-- The initial value of a function is a function; any other one is grounded in the
derivation of the script and lies inside the declaration. -/
def Binding.Sound (whole : Tree) (b : Binding) : Prop :=
  ∀ e, b.init = some e → e.Grounded whole ∧
    ((∃ span name parameters body, e = .function span name parameters body) ∨
      b.kind ≠ .function ∧ b.span.Covers e.span ∧ e.span.start < e.span.stop)

/-- All names declared in some scopes are sound. -/
def Scope.AllSound (whole : Tree) (scopes : List Scope) : Prop :=
  ∀ s ∈ scopes, ∀ b ∈ s.bindings, b.Sound whole

variable {whole : Tree} {s : Script}

theorem Binding.sound_stable (whole : Tree) : Binding.Stable (Binding.Sound whole) := by
  intro b old sound init kind span
  unfold Binding.Sound
  rwa [init, kind, span]

/-- What a grounded node declares is sound. -/
theorem Script.Node.declares_sound {n : Node} (grounded : n.Everywhere (Node.Grounded whole)) :
    ∀ b ∈ n.declares, b.Sound whole := by
  intro b member e init
  obtain ⟨-, ⟨_, _, _, _, rfl, rfl⟩ | ⟨_, _, rfl⟩⟩ |
    ⟨_, _, declarators, t, rfl, listed, same, span, kind⟩ := declares_cases member init
  · exact ⟨grounded, .inl ⟨_, _, _, _, rfl⟩⟩
  · exact ⟨grounded.child List.mem_cons_self, .inl (Node.everywhere_iff.mp grounded).1⟩
  · have held : Node.expr e ∈ declarators.filterMap fun t => t.init.map Node.expr :=
      List.mem_filterMap.mpr ⟨t, listed, congrArg (Option.map Node.expr) same⟩
    obtain ⟨covers, some⟩ := (Node.everywhere_iff.mp grounded).1 t listed e same
    exact ⟨grounded.child held, .inr ⟨kind, span ▸ covers, some⟩⟩

/-- Every name that a script declares is sound. -/
theorem Script.scopeTable_sound (derived : Derived s whole) :
    Scope.AllSound whole s.scopeTable.scopes := by
  refine each_scopeTable (Binding.sound_stable whole) fun p place => Node.declares_sound ?_
  obtain ⟨statement, known, held⟩ := mem_walk (s.places_walk ▸ List.mem_map_of_mem place)
  exact fun inner inside => derived.grounded statement known inner (held.trans inside)

/-- The expression that a reference stands for, if it is known. -/
def Resolution.expr? : Resolution → Option Expr
  | resolved e => some e
  | unresolved .. => none

theorem Resolution.expr?_eq_some {r : Resolution} {e : Expr} :
    r.expr? = some e ↔ r = .resolved e := by
  cases r <;> simp [expr?]

namespace ScopeTable

variable {t : ScopeTable}

/-- Every step along a reference leads to a function or to something before the reference. -/
def Backward (t : ScopeTable) : Prop :=
  ∀ span name init, t.step span name = .ok init →
    (∃ place own parameters body, init = .function place own parameters body) ∨
      init.span.start < init.span.stop ∧ init.span.stop ≤ span.start

theorem mem_of_lookupFrom {scopes : List Scope} {id : Nat} {name : Text} {b : Binding}
    (found : lookupFrom scopes id name = some b) : ∃ scope ∈ scopes, b ∈ scope.bindings := by
  obtain ⟨_, -, found⟩ := Option.bind_eq_some_iff.mp found
  obtain ⟨scope, known, found⟩ := Option.bind_eq_some_iff.mp found
  exact ⟨scope, List.mem_of_getElem? known, List.mem_of_find?_eq_some found⟩

/-- A step along a reference that gives an expression. -/
theorem step_ok {span : Span} {name : Text} {init : Expr} (stepped : t.step span name = .ok init) :
    ∃ b, t.lookup span name = some b ∧ b.reassigned = false ∧ b.init = some init ∧
      (b.kind = .function ∨ b.span.stop ≤ span.start) := by
  unfold step at stepped
  split at stepped
  · contradiction
  rename_i b found
  refine ⟨b, found, ?_⟩
  cases kind : b.kind with
  | import_ | parameter | class_ =>
    rw [kind] at stepped
    contradiction
  | const | let_ | var | function =>
    simp only [kind] at stepped
    split at stepped
    · contradiction
    rename_i kept
    split at stepped
    · contradiction
    rename_i e same
    split at stepped
    · contradiction
    rename_i late
    obtain rfl := Except.ok.inj stepped
    refine ⟨by simpa using kept, same, ?_⟩
    rw [Bool.and_eq_true, not_and, bne_iff_ne, decide_eq_true_eq, Nat.not_lt] at late
    exact or_iff_not_imp_left.mpr late

/-- One step along a reference leads to a function or to something before it. -/
theorem step_backward (sound : Scope.AllSound whole t.scopes) {span : Span} {name : Text}
    {init : Expr} (stepped : t.step span name = .ok init) : init.Grounded whole ∧
      ((∃ span name parameters body, init = .function span name parameters body) ∨
        init.span.start < init.span.stop ∧ init.span.stop ≤ span.start) := by
  obtain ⟨b, found, -, same, late⟩ := step_ok stepped
  obtain ⟨_, use, found⟩ := Option.bind_eq_some_iff.mp found
  obtain ⟨scope, known, declared⟩ := mem_of_lookupFrom found
  obtain ⟨grounded, function | ⟨kind, covers, some⟩⟩ := sound scope known b declared init same
  · exact ⟨grounded, .inl function⟩
  · obtain function | late := late
    · exact absurd function kind
    · exact ⟨grounded, .inr ⟨some, Nat.le_trans covers.2 late⟩⟩

theorem backward_of_sound (sound : Scope.AllSound whole t.scopes) : t.Backward :=
  fun _ _ _ stepped => (step_backward sound stepped).2

theorem follow_other {fuel : Nat} {seen : List Span} {e : Expr}
    (other : ∀ span name, e ≠ .identifier span name) : t.follow fuel seen e = .resolved e := by
  cases e with
  | identifier span name => exact absurd rfl (other span name)
  | literal | list | mapping | function | call | other => unfold follow; rfl

/-- An expression leads to another one by steps along references. -/
inductive Leads (t : ScopeTable) : Expr → Expr → Prop where
  | itself {e : Expr} : (∀ span name, e ≠ .identifier span name) → Leads t e e
  | step {span : Span} {name : Text} {init r : Expr} :
      t.step span name = .ok init → Leads t init r → Leads t (.identifier span name) r

theorem leads_of_follow {fuel : Nat} {seen : List Span} {e r : Expr}
    (followed : t.follow fuel seen e = .resolved r) : t.Leads e r := by
  induction fuel generalizing seen e with
  | zero =>
    cases e with
    | identifier => simp [follow] at followed
    | literal | list | mapping | function | call | other =>
      rw [follow_other (by simp)] at followed
      cases followed
      exact .itself (by simp)
  | succ fuel ih =>
    cases e with
    | identifier span name =>
      simp only [follow] at followed
      split at followed
      · contradiction
      split at followed
      · rename_i init stepped
        exact .step stepped (ih followed)
      · contradiction
    | literal | list | mapping | function | call | other =>
      rw [follow_other (by simp)] at followed
      cases followed
      exact .itself (by simp)

/-- What each step along a reference keeps is kept by following it. -/
theorem follow_induct {motive : Expr → Prop} {fuel : Nat} {seen : List Span} {e r : Expr}
    (followed : t.follow fuel seen e = .resolved r) (start : motive e)
    (step : ∀ span name init, t.step span name = .ok init → motive init) : motive r := by
  have leads := leads_of_follow followed
  clear followed
  induction leads with
  | itself => exact start
  | step stepped _ ih => exact ih (step _ _ _ stepped)

/-- What an expression stands for is grounded, if the expression is. -/
theorem follow_grounded (sound : Scope.AllSound whole t.scopes) {fuel : Nat} {seen : List Span}
    {e r : Expr} (grounded : e.Grounded whole) (followed : t.follow fuel seen e = .resolved r) :
    r.Grounded whole :=
  follow_induct followed grounded fun _ _ _ stepped => (step_backward sound stepped).1

/-- An expression stands for itself, for a function, or for something before it. -/
theorem follow_backward (backward : t.Backward) {fuel : Nat} {seen : List Span} {e r : Expr}
    (followed : t.follow fuel seen e = .resolved r) :
    (∀ span name, e ≠ .identifier span name) ∧ r = e ∨
      (∃ span name parameters body, r = .function span name parameters body) ∨
      r.span.stop ≤ e.span.start := by
  have leads := leads_of_follow followed
  clear followed
  induction leads with
  | itself other => exact .inl ⟨other, rfl⟩
  | @step span name init r stepped rest ih =>
    have before := backward span name init stepped
    obtain ⟨-, rfl⟩ | function | behind := ih
    · exact .inr (before.imp_right And.right)
    · exact .inr (.inl function)
    · rcases before with ⟨_, _, _, _, rfl⟩ | ⟨some, before⟩
      · cases rest
        exact .inr (.inl ⟨_, _, _, _, rfl⟩)
      · have start : (Expr.identifier span name).span.start = span.start := rfl
        exact .inr (.inr (by omega))

end ScopeTable

end StyleSplit
