import StyleSplit.Proofs.Scope.Backward
import StyleSplit.Scope.Folding

/-! Chains of references are never cut short. A step along a reference leads to an
identifier that starts earlier, so no identifier comes twice and there are fewer steps than
recorded identifiers; what an identifier stands for is what one step leads to stands for. -/
namespace StyleSplit

open Script

namespace ScopeTable

variable {t : ScopeTable} {fuel fuel' : Nat} {seen seen' : List Span}
  {span : Span} {name : Text} {e init : Expr}

/-- A variable that is not marked stands for its initial value behind its declaration. -/
theorem step_variable {b : Binding} (found : t.lookup span name = some b)
    (kind : b.kind = .const ∨ b.kind = .let_ ∨ b.kind = .var) (unmarked : b.reassigned = false)
    (initial : b.init = some init) (late : b.span.stop ≤ span.start) :
    t.step span name = .ok init := by
  have start : ¬span.start < b.span.stop := by omega
  rcases kind with kind | kind | kind <;> simp [step, found, kind, unmarked, initial, start]

/-- How many of the recorded identifiers start no later than an identifier. -/
def rank (t : ScopeTable) : Expr → Nat
  | .identifier span _ => t.uses.countP fun use => use.1.start ≤ span.start
  | _ => 0

/-- An identifier that stands before all that was seen. -/
def Clear (seen : List Span) (e : Expr) : Prop :=
  ∀ span name, e = .identifier span name → ∀ s ∈ seen, span.start < s.start

theorem mem_uses_of_step (stepped : t.step span name = .ok init) : ∃ id, (span, id) ∈ t.uses := by
  obtain ⟨b, found, -⟩ := step_ok stepped
  obtain ⟨⟨place, id⟩, use, -⟩ := Option.bind_eq_some_iff.mp found
  obtain rfl : place = span := by simpa using List.find?_some use
  exact ⟨id, List.mem_of_find?_eq_some use⟩

theorem step_identifier (backward : t.Backward) {place : Span} {other : Text}
    (stepped : t.step span name = .ok (.identifier place other)) : place.start < span.start := by
  obtain ⟨_, _, _, _, same⟩ | ⟨some, before⟩ := backward _ _ _ stepped
  · cases same
  · exact Nat.lt_of_lt_of_le some before

/-- What is counted grows by what is counted in addition. -/
theorem countP_lt {α : Type} {p q : α → Bool} {l : List α} {a : α}
    (wider : ∀ x, p x = true → q x = true) (member : a ∈ l) (out : p a = false)
    (inside : q a = true) : l.countP p < l.countP q := by
  obtain ⟨front, back, rfl⟩ := List.append_of_mem member
  have front' := List.countP_mono_left (l := front) fun x _ => wider x
  have back' := List.countP_mono_left (l := back) fun x _ => wider x
  simp only [List.countP_append, List.countP_cons, out, inside]
  simp
  omega

/-- A step leads to something of lower rank. -/
theorem rank_step (backward : t.Backward) (stepped : t.step span name = .ok init) :
    t.rank init < t.rank (.identifier span name) := by
  obtain ⟨id, recorded⟩ := mem_uses_of_step stepped
  cases init with
  | identifier place other =>
    have earlier := step_identifier backward stepped
    refine countP_lt (fun use start => ?_) recorded (by simpa using earlier) (by simp)
    simp only [decide_eq_true_eq] at start ⊢
    omega
  | literal | list | mapping | function | call | other =>
    exact List.countP_pos_iff.mpr ⟨_, recorded, by simp⟩

theorem rank_le (t : ScopeTable) (e : Expr) : t.rank e ≤ t.uses.length := by
  cases e with
  | identifier => exact List.countP_le_length
  | literal | list | mapping | function | call | other => exact Nat.zero_le _

theorem Clear.nil (e : Expr) : Clear [] e := fun _ _ _ _ member => by cases member

theorem Clear.unseen (clear : Clear seen (.identifier span name)) :
    seen.contains span = false := by
  rw [List.contains_eq_mem, decide_eq_false_iff_not]
  intro member
  have before := clear span name rfl span member
  omega

/-- What a step leads to stands before all that was seen, the identifier included. -/
theorem Clear.step (clear : Clear seen (.identifier span name)) (backward : t.Backward)
    (stepped : t.step span name = .ok init) : Clear (span :: seen) init := by
  rintro place other rfl s member
  have earlier := step_identifier backward stepped
  rcases List.mem_cons.mp member with rfl | member
  · exact earlier
  · exact Nat.lt_trans earlier (clear span name rfl s member)

/-- Enough fuel is enough, whatever was seen behind. -/
theorem follow_eq (backward : t.Backward) (enough : t.rank e < fuel) (enough' : t.rank e < fuel')
    (clear : Clear seen e) (clear' : Clear seen' e) :
    t.follow fuel seen e = t.follow fuel' seen' e := by
  induction fuel generalizing fuel' seen seen' e with
  | zero => omega
  | succ fuel ih =>
    obtain ⟨fuel', rfl⟩ : ∃ f, fuel' = f + 1 := ⟨fuel' - 1, by omega⟩
    cases e with
    | identifier span name =>
      simp only [follow, clear.unseen, clear'.unseen]
      cases stepped : t.step span name with
      | error reason => rfl
      | ok init =>
        have lower := rank_step backward stepped
        exact ih (by omega) (by omega) (clear.step backward stepped) (clear'.step backward stepped)
    | literal | list | mapping | function | call | other =>
      rw [follow_other (by simp), follow_other (by simp)]

/-- An identifier stands for what one step leads to. -/
theorem resolve_identifier (backward : t.Backward) (span : Span) (name : Text) :
    t.resolve (.identifier span name) =
      match t.step span name with
      | .ok init => t.resolve init
      | .error reason => .unresolved name reason := by
  have none : ([] : List Span).contains span = false := rfl
  unfold resolve
  rw [follow]
  simp only [none]
  cases stepped : t.step span name with
  | error reason => rfl
  | ok init =>
    have lower := rank_step backward stepped
    have bound := t.rank_le (.identifier span name)
    exact follow_eq backward (by omega) (by omega) ((Clear.nil _).step backward stepped)
      (Clear.nil init)

theorem step_ne_circular : t.step span name ≠ .error .circular := by
  unfold step
  split
  · simp
  split
  · simp
  · simp
  · simp
  all_goals
    split
    · simp
    split
    · simp
    split <;> simp

/-- No chain of references is circular. -/
theorem resolve_ne_circular (backward : t.Backward) (e : Expr) (name : Text) :
    t.resolve e ≠ .unresolved name .circular := by
  have along (fuel : Nat) (seen : List Span) (e : Expr) (enough : t.rank e < fuel)
      (clear : Clear seen e) : t.follow fuel seen e ≠ .unresolved name .circular := by
    induction fuel generalizing seen e with
    | zero => omega
    | succ fuel ih =>
      cases e with
      | identifier span other =>
        simp only [follow, clear.unseen]
        cases stepped : t.step span other with
        | error reason =>
          intro same
          obtain ⟨-, rfl⟩ := Resolution.unresolved.inj same
          exact step_ne_circular stepped
        | ok init =>
          have lower := rank_step backward stepped
          exact ih _ init (by omega) (clear.step backward stepped)
      | literal | list | mapping | function | call | other =>
        rw [follow_other (by simp)]
        simp
  exact along _ [] e (Nat.lt_succ_of_le (t.rank_le e)) (Clear.nil e)

theorem resolve_other (other : ∀ span name, e ≠ .identifier span name) :
    t.resolve e = .resolved e :=
  follow_other other

theorem fold_step (backward : t.Backward) (stepped : t.step span name = .ok init) :
    t.fold fuel (.identifier span name) = t.fold fuel init := by
  cases fuel with
  | zero => rfl
  | succ fuel => rw [fold, fold, resolve_identifier backward, stepped]

theorem fold_unresolved (backward : t.Backward) {reason : UnresolvedReason}
    (stepped : t.step span name = .error reason) :
    t.fold (fuel + 1) (.identifier span name) = .error .dynamic := by
  rw [fold, resolve_identifier backward, stepped]

/-- Only a literal has a value without parts. -/
theorem fold_scalar {value : Scalar} :
    t.fold (fuel + 1) e = .ok (.scalar value) ↔
      ∃ place, t.resolve e = .resolved (.literal place value) := by
  constructor
  · intro folded
    rw [fold] at folded
    split at folded
    · cases folded
    · rename_i place value' resolved
      cases folded
      exact ⟨place, resolved⟩
    · obtain ⟨_, -, same⟩ := bind_eq_ok.mp folded
      cases same
    · obtain ⟨_, -, same⟩ := bind_eq_ok.mp folded
      cases same
    · cases folded
  · rintro ⟨place, resolved⟩
    rw [fold, resolved]

end ScopeTable

end StyleSplit
