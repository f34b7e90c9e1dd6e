import StyleSplit.Proofs.Scope.Places

/-! The scopes around a place. Looking a name up goes through them from the inside out, so
two places see the same declaration of a name exactly if no scope around only one of them
declares it. Every identifier of a script has one place, and what a reference stands for has
one too. -/
namespace StyleSplit

open Script Script.Node

namespace Scope

/-- The scopes around a place in the scope `id`, that one first. -/
def around (scopes : List Scope) : Nat → Nat → List Nat
  | 0, _ => []
  | fuel + 1, id =>
    match scopes[id]? with
    | none => []
    | some s => id :: match s.parent with
      | none => []
      | some parent => around scopes fuel parent

theorem innermost?_eq (scopes : List Scope) (test : Scope → Bool) (fuel id : Nat) :
    innermost? scopes test fuel id =
      (around scopes fuel id).find? fun k => (scopes[k]?).any test := by
  induction fuel generalizing id with
  | zero => rfl
  | succ fuel ih =>
    unfold innermost? around
    cases found : scopes[id]? with
    | none => rfl
    | some s =>
      simp only [List.find?_cons, found, Option.any_some]
      cases test s with
      | true => rfl
      | false =>
        cases s.parent with
        | none => rfl
        | some parent => exact ih parent

variable {scopes : List Scope} {fuel fuel' id : Nat}

/-- Scopes have no more scopes around them than their number says. -/
theorem around_fuel (descending : Descending (parents scopes)) (enough : id < fuel)
    (enough' : id < fuel') : around scopes fuel id = around scopes fuel' id := by
  induction fuel generalizing fuel' id with
  | zero => omega
  | succ fuel ih =>
    obtain ⟨fuel', rfl⟩ : ∃ k, fuel' = k + 1 := ⟨fuel' - 1, by omega⟩
    unfold around
    cases found : scopes[id]? with
    | none => rfl
    | some s =>
      cases parent : s.parent with
      | none => simp only [parent]
      | some outer =>
        have lower : outer < id := descending id outer (by simp [parents, found, parent])
        have same : around scopes fuel outer = around scopes fuel' outer := ih (by omega) (by omega)
        simp only [parent, same]

end Scope

namespace ScopeTable

variable {t : ScopeTable} {id k inner outer : Nat} {name : Text}

/-- The numbers of the scopes around a place in the scope `id`, from the inside out. -/
def around (t : ScopeTable) (id : Nat) : List Nat := Scope.around t.scopes (id + 1) id

/-- Whether the scope of a number declares a name. -/
def declares (t : ScopeTable) (name : Text) (id : Nat) : Bool :=
  (t.scopes[id]?).any fun s => (s.find? name).isSome

/-- The number of the scope that declares the identifier at a span. -/
def declaringAt? (t : ScopeTable) (span : Span) (name : Text) : Option Nat := do
  let (_, id) ← t.uses.find? (·.1 == span)
  declaring? t.scopes id name

theorem lookup_eq_declaring (t : ScopeTable) (span : Span) (name : Text) : t.lookup span name =
    (t.declaringAt? span name).bind fun declaring =>
      (t.scopes[declaring]?).bind fun scope => scope.find? name := by
  unfold lookup declaringAt?
  cases t.uses.find? (·.1 == span) <;> rfl

theorem declaring?_eq (t : ScopeTable) (id : Nat) (name : Text) :
    declaring? t.scopes id name = (t.around id).find? (t.declares name) :=
  Scope.innermost?_eq t.scopes _ (id + 1) id

/-- Parents come before their children. -/
def Ordered (t : ScopeTable) : Prop := Scope.Descending (Scope.parents t.scopes)

theorem around_self (known : id < t.scopes.length) : ∃ rest, t.around id = id :: rest := by
  unfold around Scope.around
  rw [List.getElem?_eq_getElem known]
  exact ⟨_, rfl⟩

theorem around_child (ordered : t.Ordered)
    (child : (Scope.parents t.scopes)[inner]? = some (some outer)) :
    t.around inner = inner :: t.around outer := by
  have lower := ordered inner outer child
  obtain ⟨s, found, parent⟩ := List.getElem?_map .. ▸ child |> Option.map_eq_some_iff.mp
  have same : Scope.around t.scopes inner outer = t.around outer :=
    Scope.around_fuel ordered lower (Nat.lt_succ_self _)
  rw [← same, around, Scope.around, found]
  simp only [parent]

/-- A place has no scope around it, only that of the script, or one inside another. -/
theorem around_cases (t : ScopeTable) (id : Nat) : t.around id = [] ∨ t.around id = [id] ∨
    ∃ outer, (Scope.parents t.scopes)[id]? = some (some outer) := by
  unfold around Scope.around
  cases found : t.scopes[id]? with
  | none => exact .inl rfl
  | some s =>
    cases parent : s.parent with
    | none => exact .inr (.inl (by simp [parent]))
    | some outer => exact .inr (.inr ⟨outer, by simp [Scope.parents, found, parent]⟩)

/-- The scopes around a scope around a place are the outer ones of those around the place. -/
theorem around_suffix (ordered : t.Ordered) (member : k ∈ t.around id) :
    t.around k <:+ t.around id := by
  induction id using Nat.strongRecOn with
  | ind id ih =>
    obtain none | only | ⟨outer, child⟩ := t.around_cases id
    · simp [none] at member
    · obtain rfl := List.mem_singleton.mp (only ▸ member)
      exact List.suffix_refl _
    · rw [around_child ordered child] at member
      rcases List.mem_cons.mp member with rfl | member
      · exact List.suffix_refl _
      · rw [around_child ordered child]
        exact (ih outer (ordered id outer child) member).trans (List.suffix_cons id _)

/-- Scopes further out have smaller numbers. -/
theorem around_le (ordered : t.Ordered) (member : k ∈ t.around id) : k ≤ id := by
  induction id using Nat.strongRecOn with
  | ind id ih =>
    obtain none | only | ⟨outer, child⟩ := t.around_cases id
    · simp [none] at member
    · rw [only] at member
      exact Nat.le_of_eq (List.mem_singleton.mp member)
    · have lower := ordered id outer child
      rw [around_child ordered child] at member
      rcases List.mem_cons.mp member with rfl | member
      · exact Nat.le_refl _
      · exact Nat.le_trans (ih outer lower member) (Nat.le_of_lt lower)

/-- The scope that declares a name is inside all others around a place that declare it. -/
theorem mem_around_declaring {declaring : Nat} (ordered : t.Ordered)
    (found : declaring? t.scopes id name = some declaring) (member : k ∈ t.around id)
    (declares : t.declares name k = true) : k ∈ t.around declaring := by
  rw [declaring?_eq] at found
  induction id using Nat.strongRecOn with
  | ind id ih =>
    obtain none | only | ⟨outer, child⟩ := t.around_cases id
    · simp [none] at member
    · rw [only] at member found
      obtain rfl := List.mem_singleton.mp member
      obtain rfl := List.mem_singleton.mp (List.mem_of_find?_eq_some found)
      simp [only]
    · rw [around_child ordered child] at found
      rw [List.find?_cons] at found
      split at found
      · cases found
        exact member
      · rename_i other
        rw [around_child ordered child] at member
        rcases List.mem_cons.mp member with rfl | member
        · rw [declares] at other
          cases other
        · exact ih outer (ordered id outer child) found member

theorem declaring?_eq_some {declaring : Nat}
    (found : declaring? t.scopes id name = some declaring) :
    declaring ∈ t.around id ∧ t.declares name declaring = true := by
  rw [declaring?_eq] at found
  exact ⟨List.mem_of_find?_eq_some found, List.find?_some found⟩

theorem exists_declaring (member : k ∈ t.around id) (declares : t.declares name k = true) :
    ∃ declaring, declaring? t.scopes id name = some declaring := by
  rw [declaring?_eq, ← Option.isSome_iff_exists, List.find?_isSome]
  exact ⟨k, member, declares⟩

/-- Two places see the same declaration of a name, or none, exactly if every scope that
declares the name is around both of them or around neither. -/
theorem declaring?_same_iff (ordered : t.Ordered) (here there : Nat) (name : Text) :
    declaring? t.scopes here name = declaring? t.scopes there name ↔
      ∀ k, t.declares name k = true → (k ∈ t.around here ↔ k ∈ t.around there) := by
  have kept {one other : Nat} (same : declaring? t.scopes one name = declaring? t.scopes other name)
      {k : Nat} (declares : t.declares name k = true) (member : k ∈ t.around one) :
      k ∈ t.around other := by
    obtain ⟨declaring, found⟩ := exists_declaring member declares
    have outer := mem_around_declaring ordered found member declares
    exact (around_suffix ordered (declaring?_eq_some (same ▸ found)).1).subset outer
  constructor
  · exact fun same k declares => ⟨kept same declares, kept same.symm declares⟩
  · intro both
    cases found : declaring? t.scopes here name with
    | none =>
      cases found' : declaring? t.scopes there name with
      | none => rfl
      | some other =>
        obtain ⟨member, declares⟩ := declaring?_eq_some found'
        obtain ⟨_, found''⟩ := exists_declaring ((both other declares).mpr member) declares
        cases found.symm.trans found''
    | some declaring =>
      obtain ⟨member, declares⟩ := declaring?_eq_some found
      have member' := (both declaring declares).mp member
      obtain ⟨other, found'⟩ := exists_declaring member' declares
      obtain ⟨listed, declares'⟩ := declaring?_eq_some found'
      -- Each of the two is around the other one.
      have lower := around_le ordered (mem_around_declaring ordered found' member' declares)
      have upper := around_le ordered
        (mem_around_declaring ordered found ((both other declares').mpr listed) declares')
      rw [found', Nat.le_antisymm lower upper]

end ScopeTable

end StyleSplit
