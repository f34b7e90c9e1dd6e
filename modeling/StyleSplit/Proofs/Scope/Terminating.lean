import StyleSplit.Proofs.Scope.Retreating
import StyleSplit.Scope.Folding

/-! Folding ends in any script with nested spans. It goes from an expression to the parts of
what the expression stands for, and these end earlier in the text, or end at the same place
and are smaller. So no expression comes twice on the way down, however declarations refer to
themselves and to each other, and there are no more steps than the script has nodes. -/
namespace StyleSplit

open Script

/-- Two runs that differ in their fuel have the same result, and it is not that there was too
little of it. -/
def Finished {α : Type} (run run' : Except Unfolded α) : Prop :=
  run ≠ .error .exhausted ∧ run' = run

namespace Finished

variable {α β : Type} {run run' : Except Unfolded α} {next next' : α → Except Unfolded β}

theorem ok (a : α) : Finished (.ok a) (.ok a) := ⟨by simp, rfl⟩

theorem dynamic : Finished (.error .dynamic : Except Unfolded α) (.error .dynamic) :=
  ⟨by simp, rfl⟩

theorem bind (first : Finished run run') (then_ : ∀ a, Finished (next a) (next' a)) :
    Finished (run >>= next) (run' >>= next') := by
  obtain ⟨enough, rfl⟩ := first
  cases run' with
  | error reason => exact ⟨fun same => enough (by cases same; rfl), rfl⟩
  | ok a => exact then_ a

theorem mapM {items : List α} (each : ∀ a ∈ items, Finished (next a) (next' a)) :
    Finished (items.mapM next) (items.mapM next') := by
  induction items with
  | nil => exact .ok []
  | cons a rest ih =>
    rw [List.mapM_cons, List.mapM_cons]
    refine (each a List.mem_cons_self).bind fun b => ?_
    exact (ih fun c member => each c (List.mem_cons_of_mem _ member)).bind fun bs => .ok _

end Finished

namespace Script

theorem size_le_sizeOfItems {e : Expr} {items : List Expr} (member : e ∈ items) :
    e.size ≤ sizeOfItems items := by
  induction items with
  | nil => cases member
  | cons first rest ih =>
    rw [sizeOfItems]
    rcases List.mem_cons.mp member with rfl | member
    · omega
    · have below := ih member
      omega

theorem size_le_sizeOfEntries {e : Entry} {entries : List Entry} (member : e ∈ entries) :
    e.size ≤ sizeOfEntries entries := by
  induction entries with
  | nil => cases member
  | cons first rest ih =>
    rw [sizeOfEntries]
    rcases List.mem_cons.mp member with rfl | member
    · omega
    · have below := ih member
      omega

theorem Entry.size_value_lt (e : Entry) : e.value.size < e.size := by
  obtain ⟨_, key, value, computed, _⟩ := e
  cases key <;> cases computed <;> simp only [Entry.size, Entry.value] <;> omega

/-- An expression that ends earlier in the text than another one, or at the same place and is
smaller. -/
def Expr.Below (a b : Expr) : Prop :=
  a.span.stop < b.span.stop ∨ a.span.stop = b.span.stop ∧ a.size < b.size

instance (a b : Expr) : Decidable (a.Below b) :=
  inferInstanceAs (Decidable (_ ∨ _))

variable {s : StyleSplit.Script} {e c r : Expr} {span : Span}

/-- How many expressions of a script another one is not below: no others can come up while it
is folded. -/
def rank (s : StyleSplit.Script) (e : Expr) : Nat :=
  s.walk.countP fun
    | .expr other => !decide (e.Below other)
    | _ => false

theorem rank_lt (walked : .expr e ∈ s.walk) (below : c.Below e) : s.rank c < s.rank e := by
  have itself : ¬e.Below e := by
    unfold Expr.Below
    omega
  refine ScopeTable.countP_lt (fun n counted => ?_) walked (by simpa using below)
    (by simpa using itself)
  cases n with
  | expr other =>
    simp only [Bool.not_eq_true', decide_eq_false_iff_not] at counted ⊢
    intro above
    refine counted ?_
    unfold Expr.Below at below above ⊢
    omega
  | entry | stmt => cases counted

theorem rank_le (s : StyleSplit.Script) (e : Expr) : s.rank e ≤ s.size := by
  have visited (fuel : Nat) (stack : List Node) : (visit fuel stack).length ≤ fuel := by
    induction fuel generalizing stack with
    | zero => exact Nat.le_refl _
    | succ fuel ih =>
      cases stack with
      | nil => exact Nat.zero_le _
      | cons n rest => exact Nat.succ_le_succ (ih _)
  exact Nat.le_trans List.countP_le_length (visited s.size _)

namespace WellNested

/-- What stands for an expression is part of the script and ranks no higher, unless it is a
function. -/
theorem resolved (nested : s.WellNested) (walked : .expr e ∈ s.walk)
    (resolved : s.scopeTable.resolve e = .resolved r) :
    .expr r ∈ s.walk ∧ (s.rank r ≤ s.rank e ∨
      ∃ span name parameters body, r = .function span name parameters body) := by
  constructor
  · rw [← places_walk] at walked ⊢
    obtain ⟨p, place, node⟩ := List.mem_map.mp walked
    obtain ⟨id, q, place', node', -⟩ := stands_resolved ⟨p, place, node, rfl⟩ resolved
    exact node' ▸ List.mem_map_of_mem place'
  · obtain ⟨-, rfl⟩ | function | before := ScopeTable.follow_backward nested.backward resolved
    · exact .inl (Nat.le_refl _)
    · exact .inr function
    · have filled : e.span.start < e.span.stop := nested.filled _ walked
      exact .inl (Nat.le_of_lt (rank_lt walked (.inl (by omega))))

/-- What a node other than one of an opaque expression holds stands inside it. -/
theorem covers (nested : s.WellNested) {n child : Node} (walked : n ∈ s.walk)
    (member : child ∈ n.children)
    (other : ∀ place parts, n ≠ .expr (.other place parts [] none)) :
    n.span.Covers child.span := by
  obtain covers | ⟨_, _, place, e, members, -, same, -⟩ := nested.children n walked child member
  · exact covers
  · exact absurd same (other place _)

theorem item_below (nested : s.WellNested) {items : List Expr}
    (walked : .expr (.list span items) ∈ s.walk) (member : c ∈ items) :
    .expr c ∈ s.walk ∧ c.Below (.list span items) := by
  have child : Node.expr c ∈ (Node.expr (.list span items)).children := List.mem_map_of_mem member
  have covers : span.Covers c.span := nested.covers walked child (by simp)
  have size := size_le_sizeOfItems member
  refine ⟨walk_child walked child, ?_⟩
  have whole : (Expr.list span items).size = sizeOfItems items + 1 := rfl
  have place : (Expr.list span items).span = span := rfl
  unfold Expr.Below
  rw [whole, place]
  have stop := covers.2
  omega

theorem value_below (nested : s.WellNested) {entries : List Entry}
    (walked : .expr (.mapping span entries) ∈ s.walk) {entry : Entry} (member : entry ∈ entries) :
    .expr entry.value ∈ s.walk ∧ entry.value.Below (.mapping span entries) := by
  have child : Node.entry entry ∈ (Node.expr (.mapping span entries)).children :=
    List.mem_map_of_mem member
  have walked' := walk_child walked child
  have outer : span.Covers entry.span := nested.covers walked child (by simp)
  have inner : entry.span.Covers entry.value.span :=
    nested.covers walked' entry.value_mem_children (by simp)
  have size := size_le_sizeOfEntries member
  have less := entry.size_value_lt
  refine ⟨walk_child walked' entry.value_mem_children, ?_⟩
  have whole : (Expr.mapping span entries).size = sizeOfEntries entries + 1 := rfl
  have place : (Expr.mapping span entries).span = span := rfl
  unfold Expr.Below
  rw [whole, place]
  have stop := inner.2
  have stop' := outer.2
  omega

/-- Fuel above the rank of an expression is enough to fold it, and more does not matter. -/
theorem fold_finished (nested : s.WellNested) (walked : .expr e ∈ s.walk) {fuel fuel' : Nat}
    (enough : s.rank e < fuel) (enough' : s.rank e < fuel') :
    Finished (s.scopeTable.fold fuel e) (s.scopeTable.fold fuel' e) := by
  induction fuel generalizing e fuel' with
  | zero => omega
  | succ fuel ih =>
    obtain ⟨fuel', rfl⟩ : ∃ f, fuel' = f + 1 := ⟨fuel' - 1, by omega⟩
    rw [ScopeTable.fold, ScopeTable.fold]
    cases followed : s.scopeTable.resolve e with
    | unresolved => exact .dynamic
    | resolved r =>
      obtain ⟨walked', lower⟩ := nested.resolved walked followed
      cases r with
      | literal => exact .ok _
      | identifier | function | call | other => exact .dynamic
      | list span items =>
        have lower := lower.resolve_right (by simp)
        refine Finished.bind (.mapM fun c member => ?_) fun _ => .ok _
        obtain ⟨walked, below⟩ := nested.item_below walked' member
        have less := rank_lt walked' below
        exact ih walked (by omega) (by omega)
      | mapping span entries =>
        have lower := lower.resolve_right (by simp)
        refine Finished.bind (.mapM fun entry member => ?_) fun _ => .ok _
        obtain ⟨walked, below⟩ := nested.value_below walked' member
        have less := rank_lt walked' below
        split
        · exact .dynamic
        · exact Finished.bind (ih walked (by omega) (by omega)) fun _ => .ok _

end WellNested

end Script

/-- Folding ends in every script with nested spans, whatever its declarations refer to: fuel
above the number of nodes never runs out, and more fuel does not change the value that is found
for an expression. -/
theorem fold_terminates {s : Script} (nested : s.WellNested) {e : Expr}
    (walked : .expr e ∈ s.walk) {fuel : Nat} (enough : s.size < fuel) :
    s.scopeTable.fold fuel e ≠ .error .exhausted ∧
      s.scopeTable.evaluate e = (s.scopeTable.fold fuel e).toOption := by
  have below : s.rank e < s.size + 1 := Nat.lt_succ_of_le (s.rank_le e)
  have lower : s.rank e < fuel := Nat.lt_of_le_of_lt (s.rank_le e) enough
  obtain ⟨finished, same⟩ := nested.fold_finished walked lower below
  refine ⟨finished, ?_⟩
  have size : s.scopeTable.size = s.size := rfl
  unfold ScopeTable.evaluate
  rw [size, same]
  cases s.scopeTable.fold fuel e <;> rfl

/-- The script `var b={k:[a,1]},a=[b,a];f(a)`, in which two declarations refer to each other and
one of them to itself. -/
def knottedSource : Text := text "var b=\x7bk:[a,1]\x7d,a=[b,a];f(a)"

theorem fold_terminates_knotted : ∃ s, Script.parse knottedSource = .ok s ∧ s.WellNested ∧
    s.size = 13 ∧ .expr (.identifier ⟨26, 27⟩ (text "a")) ∈ s.walk ∧ s.size < 14 ∧
    s.scopeTable.fold 14 (.identifier ⟨26, 27⟩ (text "a")) ≠ .error .exhausted ∧
    s.scopeTable.evaluate (.identifier ⟨26, 27⟩ (text "a")) =
      (s.scopeTable.fold 14 (.identifier ⟨26, 27⟩ (text "a"))).toOption := by
  have checked : (Script.parse knottedSource).toOption.any (fun s =>
      s.size == 13 && s.walk.any (Node.isIdentifier ⟨26, 27⟩ (text "a"))) = true := by
    decide +kernel
  obtain ⟨s, parsed, run⟩ := Script.exists_of_any checked
  obtain ⟨size, found⟩ := Bool.and_eq_true_iff.mp run
  obtain ⟨n, walked, here⟩ := List.any_eq_true.mp found
  obtain rfl := Node.isIdentifier_iff.mp here
  have size := eq_of_beq size
  have nested := Script.parse_wellNested parsed
  have enough : s.size < 14 := by omega
  exact ⟨s, parsed, nested, size, walked, enough, fold_terminates nested walked enough⟩

end StyleSplit
