import Mathlib.Data.List.Forall2

/-! Lists that are related item by item. What stands on one side has its counterpart on the
other, and the relation is kept when the lists are cut or one is made from the other. -/
namespace StyleSplit

variable {α β γ : Type} {R S : α → β → Prop} {xs xs' : List α} {ys : List β}

theorem mem_of_forall₂ (related : List.Forall₂ R xs ys) {y : β} (member : y ∈ ys) :
    ∃ x ∈ xs, R x y := by
  induction related with
  | nil => contradiction
  | cons h _ ih =>
    rcases List.mem_cons.mp member with rfl | member
    · exact ⟨_, by simp, h⟩
    · obtain ⟨x, known, h⟩ := ih member
      exact ⟨x, List.mem_cons_of_mem _ known, h⟩

theorem forall₂_of_mem (each : ∀ x ∈ xs, ∀ y, R x y → S x y) (related : List.Forall₂ R xs ys) :
    List.Forall₂ S xs ys := by
  induction related with
  | nil => exact .nil
  | cons head _ ih =>
    exact .cons (each _ (by simp) _ head)
      (ih fun x member => each x (List.mem_cons_of_mem _ member))

theorem exists_forall₂ (each : ∀ x ∈ xs, ∃ y, R x y) : ∃ ys, List.Forall₂ R xs ys := by
  induction xs with
  | nil => exact ⟨[], .nil⟩
  | cons x rest ih =>
    obtain ⟨y, head⟩ := each x (by simp)
    obtain ⟨ys, tail⟩ := ih fun x member => each x (List.mem_cons_of_mem _ member)
    exact ⟨y :: ys, .cons head tail⟩

theorem forall₂_append_left (related : List.Forall₂ R (xs ++ xs') ys) :
    ∃ front back, ys = front ++ back ∧ List.Forall₂ R xs front ∧ List.Forall₂ R xs' back := by
  induction xs generalizing ys with
  | nil => exact ⟨[], ys, rfl, .nil, related⟩
  | cons x rest ih =>
    rcases related with _ | ⟨head, tail⟩
    obtain ⟨front, back, rfl, ahead, behind⟩ := ih tail
    exact ⟨_ :: front, back, rfl, .cons head ahead, behind⟩

theorem forall₂_flatMap {f : γ → List α} {zs : List γ}
    (each : List.Forall₂ (fun z y => ∃ x, f z = [x] ∧ R x y) zs ys) :
    List.Forall₂ R (zs.flatMap f) ys := by
  induction each with
  | nil => exact .nil
  | cons one _ ih =>
    obtain ⟨x, only, related⟩ := one
    rw [List.flatMap_cons, only]
    exact .cons related ih

theorem forall₂_filterMap {f : α → Option β} (each : ∀ x ∈ xs, ∀ y, f x = some y → R x y) :
    List.Forall₂ R (xs.filter fun x => (f x).isSome) (xs.filterMap f) := by
  induction xs with
  | nil => exact .nil
  | cons x rest ih =>
    have others := ih fun x member => each x (List.mem_cons_of_mem _ member)
    cases made : f x with
    | none => simpa [made] using others
    | some y => simpa [made] using List.Forall₂.cons (each x List.mem_cons_self y made) others

end StyleSplit
