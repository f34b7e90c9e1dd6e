import Mathlib.Data.List.Induction
import StyleSplit.Scope.Table

/-! What a scope knows of a name. The first declaration of a name stays, every other one
and every assignment only marks it; so a name that is not marked was declared once and never
assigned to. -/
namespace StyleSplit

namespace Scope

variable {s : Scope} {b : Binding} {name : Text}

/-- A new declaration is found, unless there is an older one to mark. -/
theorem find?_declare (s : Scope) (b : Binding) (name : Text) : (s.declare b).find? name =
    if b.name = name then
      some (match s.find? name with
        | some old => { old with reassigned := true }
        | none => b)
    else s.find? name := by
  unfold find? declare
  induction s.bindings with
  | nil => by_cases same : b.name = name <;> simp [declare.add, same]
  | cons old rest ih =>
    simp only [declare.add]
    by_cases here : old.name = name
    · subst here
      by_cases known : b.name = old.name
      · simp [known]
      · have other : ¬old.name = b.name := fun h => known h.symm
        simp [known, other]
    · by_cases known : old.name = b.name
      · have other : ¬b.name = name := fun h => here (known.trans h)
        simp [known, other]
      · simpa [known, here] using ih

theorem find?_reassign (s : Scope) (assigned name : Text) : (s.reassign assigned).find? name =
    (s.find? name).map fun b =>
      { b with reassigned := b.reassigned || decide (assigned = name) } := by
  unfold find? reassign
  simp only
  induction s.bindings with
  | nil => rfl
  | cons b rest ih =>
    rw [List.map_cons, List.find?_cons, List.find?_cons, ih]
    by_cases here : b.name = name
    · subst here
      by_cases same : b.name = assigned
      · simp [same]
      · have other : ¬assigned = b.name := fun h => same h.symm
        simp [same, other]
    · by_cases same : b.name = assigned
      · have other : (assigned == name) = false := beq_false_of_ne fun h => here (same.trans h)
        simp [same, other]
      · have other : (b.name == name) = false := beq_false_of_ne here
        simp [same, other]

/-- After some declarations in an empty scope the first one of a name is found, marked if
there is another one. -/
theorem find?_declareAll (bs : List Binding) {name : Text} (none : s.find? name = none) :
    match (bs.foldl Scope.declare s).find? name with
    | .none => ∀ b ∈ bs, b.name ≠ name
    | some b => ∃ front first back, bs = front ++ first :: back ∧ first.name = name ∧
        (∀ other ∈ front, other.name ≠ name) ∧
        b = { first with reassigned := first.reassigned || back.any (·.name == name) } := by
  induction bs using List.reverseRecOn with
  | nil => simp [none]
  | append_singleton bs last ih =>
    rw [List.foldl_append, List.foldl_cons, List.foldl_nil, find?_declare]
    cases found : (bs.foldl Scope.declare s).find? name with
    | none =>
      rw [found] at ih
      by_cases same : last.name = name
      · rw [if_pos same]
        exact ⟨bs, last, [], rfl, same, ih, by simp⟩
      · rw [if_neg same]
        intro b member
        rcases List.mem_append.mp member with member | member
        · exact ih b member
        · exact List.mem_singleton.mp member ▸ same
    | some b =>
      rw [found] at ih
      obtain ⟨front, first, back, rfl, named, others, rfl⟩ := ih
      by_cases same : last.name = name
      · rw [if_pos same]
        exact ⟨front, first, back ++ [last], by simp, named, others, by simp [same]⟩
      · rw [if_neg same]
        have other : (last.name == name) = false := beq_false_of_ne same
        exact ⟨front, first, back ++ [last], by simp, named, others, by simp [other]⟩

/-- After some assignments exactly the names assigned to are marked in addition. -/
theorem find?_reassignAll (names : List Text) (name : Text) :
    (names.foldl Scope.reassign s).find? name = (s.find? name).map fun b =>
      { b with reassigned := b.reassigned || names.contains name } := by
  induction names generalizing s with
  | nil =>
    rw [List.foldl_nil]
    cases s.find? name <;> simp
  | cons first rest ih =>
    rw [List.foldl_cons, ih, find?_reassign]
    cases s.find? name with
    | none => rfl
    | some b =>
      have turned : decide (first = name) = (name == first) := by
        rw [Bool.eq_iff_iff, decide_eq_true_eq, beq_iff_eq]
        exact eq_comm
      simp only [Option.map_some, List.contains_cons, turned, Bool.or_assoc]

/-- An assignment to a name that a scope does not declare leaves it alone. -/
theorem reassign_undeclared (none : s.find? name = none) : s.reassign name = s := by
  have absent : ∀ b ∈ s.bindings, (b.name == name) = false := fun b member =>
    Bool.eq_false_iff.mpr (List.find?_eq_none.mp none b member)
  unfold reassign
  have same : s.bindings.map (fun b => if b.name == name then { b with reassigned := true } else b)
      = s.bindings := by
    refine (List.map_congr_left fun b member => ?_).trans (List.map_id s.bindings)
    rw [absent b member]
    rfl
  rw [same]

end Scope

end StyleSplit
