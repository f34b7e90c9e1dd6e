import Mathlib.Data.List.Nodup
import StyleSplit.Proofs.Scope.Declaring
import StyleSplit.Proofs.Scope.Traversal

/-! Which names of a script are reassigned. A name is, if its scope declares it more than
once, or if something assigns to it from where this declaration is seen. Assignments count
once all declarations are known, so it does not matter which of them comes first. -/
namespace StyleSplit

open Script

namespace Scope

variable {s : Scope} {b : Binding} {name : Text}

/-- No name is declared twice. -/
def Distinct (s : Scope) : Prop := (s.bindings.map Binding.name).Nodup

theorem names_add (b : Binding) (bindings : List Binding) :
    (declare.add b bindings).map Binding.name =
      if b.name ∈ bindings.map Binding.name then bindings.map Binding.name
      else bindings.map Binding.name ++ [b.name] := by
  induction bindings with
  | nil => rfl
  | cons old rest ih =>
    unfold declare.add
    by_cases here : old.name = b.name
    · simp [here]
    · have other : ¬b.name = old.name := fun same => here same.symm
      by_cases later : b.name ∈ rest.map Binding.name
      · simp_all
      · simp_all

theorem Distinct.declare (distinct : s.Distinct) (b : Binding) : (s.declare b).Distinct := by
  unfold Distinct Scope.declare
  rw [names_add]
  split
  · exact distinct
  · rename_i fresh
    exact List.nodup_append.mpr ⟨distinct, List.nodup_singleton _, by simp_all⟩

theorem Distinct.reassign (distinct : s.Distinct) (name : Text) : (s.reassign name).Distinct := by
  have names : (s.reassign name).bindings.map Binding.name = s.bindings.map Binding.name := by
    rw [Scope.reassign, List.map_map]
    refine List.map_congr_left fun b _ => ?_
    rw [Function.comp_apply]
    split <;> rfl
  rwa [Distinct, names]

theorem reassign_parent (s : Scope) (name : Text) : (s.reassign name).parent = s.parent := rfl

/-- A scope holds what it finds. -/
theorem Distinct.mem_iff (distinct : s.Distinct) : b ∈ s.bindings ↔ s.find? b.name = some b := by
  constructor
  · intro member
    cases found : s.find? b.name with
    | none => exact absurd (List.find?_eq_none.mp found b member) (by simp)
    | some other =>
      have same : other.name = b.name := by simpa using List.find?_some found
      rw [List.inj_on_of_nodup_map distinct (List.mem_of_find?_eq_some found) member same]
  · exact List.mem_of_find?_eq_some

theorem distinct_declareAll {empty : Scope} (none : empty.bindings = []) (bs : List Binding) :
    (bs.foldl Scope.declare empty).Distinct := by
  induction bs using List.reverseRecOn with
  | nil => simp [Distinct, none]
  | append_singleton bs last ih =>
    rw [List.foldl_append]
    exact ih.declare last

theorem Distinct.reassignAll (distinct : s.Distinct) (names : List Text) :
    (names.foldl Scope.reassign s).Distinct := by
  induction names generalizing s with
  | nil => exact distinct
  | cons name rest ih => exact ih (distinct.reassign name)

/-- After some declarations in an empty scope the first one of a name is found, marked if
there are others. -/
theorem find?_declarations {empty : Scope} (none : empty.bindings = []) (all : List Declaration)
    (name : Text) : ((all.map Declaration.binding).foldl Scope.declare empty).find? name =
      match all.filter (·.name == name) with
      | [] => .none
      | first :: others => some { first.binding with reassigned := !others.isEmpty } := by
  have absent : empty.find? name = .none := by
    rw [find?, none]
    rfl
  have declared := find?_declareAll (all.map Declaration.binding) absent
  cases found : ((all.map Declaration.binding).foldl Scope.declare empty).find? name with
  | none =>
    rw [found] at declared
    have absent : all.filter (·.name == name) = [] := by
      refine List.filter_eq_nil_iff.mpr fun d member => ?_
      simpa using declared d.binding (List.mem_map_of_mem member)
    rw [absent]
  | some b =>
    rw [found] at declared
    obtain ⟨front, first, back, divided, named, others, rfl⟩ := declared
    obtain ⟨before, rest, rfl, rfl, later⟩ := List.map_eq_append_iff.mp divided
    obtain ⟨d, after, rfl, rfl, rfl⟩ := List.map_eq_cons_iff.mp later
    have absent : before.filter (·.name == name) = [] := by
      refine List.filter_eq_nil_iff.mpr fun other member => ?_
      simpa using others other.binding (List.mem_map_of_mem member)
    have here : (d.name == name) = true := by simpa using named
    rw [List.filter_append, absent, List.nil_append]
    have marked : ((after.map Declaration.binding).any fun b => b.name == name) =
        !(after.filter (·.name == name)).isEmpty := by
      rw [List.any_map, Bool.eq_iff_iff]
      simp [List.filter_eq_nil_iff]
    simp only [List.filter_cons, here, if_true, marked, Declaration.binding_reassigned,
      Bool.false_or]

end Scope

namespace ScopeDraft

open ScopeTable

/-- Assignments do not change which scope declares a name. -/
theorem declaring?_applyAssignment (scopes : List Scope) (assignment : Text × Nat) (id : Nat)
    (name : Text) :
    declaring? (applyAssignment scopes assignment) id name = declaring? scopes id name := by
  refine (Scope.innermost?_congr (fun _ => True) trivial (fun _ _ _ _ => trivial)
    fun k _ => ?_).symm
  unfold applyAssignment
  split
  · rw [List.getElem?_modify]
    cases scopes[k]? with
    | none => rfl
    | some s =>
      rename_i target _
      have kept : ((s.reassign assignment.1).find? name).isSome = (s.find? name).isSome := by
        rw [Scope.find?_reassign, Option.isSome_map]
      by_cases here : target = k
      · subst here
        simp [kept, Scope.reassign_parent]
      · simp [here]
  · rfl

/-- In a scope those names are reassigned that are assigned to from where its declaration of
them is seen. -/
theorem getElem?_applyAssignments (assignments : List (Text × Nat)) (scopes : List Scope)
    (id : Nat) : (assignments.foldl applyAssignment scopes)[id]? = (scopes[id]?).map fun s =>
      ((assignments.filter fun a => declaring? scopes a.2 a.1 == some id).map Prod.fst).foldl
        Scope.reassign s := by
  induction assignments generalizing scopes with
  | nil => simp
  | cons a rest ih =>
    rw [List.foldl_cons, ih]
    simp only [declaring?_applyAssignment]
    unfold applyAssignment
    cases seen : declaring? scopes a.2 a.1 with
    | none => simp [seen]
    | some target =>
      by_cases here : target = id
      · subst here
        simp [seen, Function.comp_def]
      · simp [seen, here]

theorem declaring?_applyAssignments (assignments : List (Text × Nat)) (scopes : List Scope)
    (id : Nat) (name : Text) :
    declaring? (assignments.foldl applyAssignment scopes) id name = declaring? scopes id name := by
  induction assignments generalizing scopes with
  | nil => rfl
  | cons a rest ih => exact (ih _).trans (declaring?_applyAssignment scopes a id name)

end ScopeDraft

namespace Script

variable {s : StyleSplit.Script} {id : Nat} {name : Text}

/-- What the scope of a number declares under a name, in the order of the traversal. -/
def declarationsOf (s : StyleSplit.Script) (id : Nat) (name : Text) : List Declaration :=
  (Event.belonging id s.declarations).filter (·.name == name)

/-- Something in the script assigns to a name from where the declaration of the name that is
seen is that of the scope of a number. -/
def Assigns (s : StyleSplit.Script) (id : Nat) (name : Text) : Prop :=
  ∃ (span : Span) (children : List Part) (assigns : List Text) (own : Option Text) (k : Nat),
    s.Stands (.expr (.other span children assigns own)) k ∧ name ∈ assigns ∧
      ScopeTable.declaring? s.scopeTable.scopes k name = some id

theorem mem_assigned {p : Place} {k : Nat} : (name, k) ∈ p.assigned ↔
    ∃ span children assigns own, p.node = .expr (.other span children assigns own) ∧
      name ∈ assigns ∧ p.outer = k := by
  obtain ⟨n, outer, inner⟩ := p
  constructor
  · intro member
    unfold Place.assigned at member
    split at member
    · rename_i same
      cases same
      obtain ⟨_, listed, same⟩ := List.mem_map.mp member
      cases same
      exact ⟨_, _, _, _, rfl, listed, rfl⟩
    · cases member
  · rintro ⟨span, children, assigns, own, rfl, listed, rfl⟩
    exact List.mem_map_of_mem listed

/-- The assignments that a draft of a script notes, as those of its nodes. -/
theorem assigns_iff : s.Assigns id name ↔
    ∃ k, (name, k) ∈ (ScopeDraft.addBody 0 s.body firstDraft).assignments ∧
      ScopeTable.declaring? (ScopeDraft.addBody 0 s.body firstDraft).scopes k name = some id := by
  have seen (k : Nat) : ScopeTable.declaring? s.scopeTable.scopes k name =
      ScopeTable.declaring? (ScopeDraft.addBody 0 s.body firstDraft).scopes k name :=
    ScopeDraft.declaring?_applyAssignments _ _ k name
  rw [assignments_places]
  constructor
  · rintro ⟨span, children, assigns, own, k, ⟨p, place, node, outer⟩, listed, here⟩
    refine ⟨k, List.mem_flatMap.mpr ⟨p, place, mem_assigned.mpr ?_⟩, (seen k).symm.trans here⟩
    exact ⟨span, children, assigns, own, node, listed, outer⟩
  · rintro ⟨k, member, here⟩
    obtain ⟨p, place, member⟩ := List.mem_flatMap.mp member
    obtain ⟨span, children, assigns, own, node, listed, outer⟩ := mem_assigned.mp member
    exact ⟨span, children, assigns, own, k, ⟨p, place, node, outer⟩, listed, (seen k).trans here⟩

/-- A scope of the finished table declares what belongs to it, and then marks what is assigned
to. -/
theorem scopes_scopeTable {scope : Scope} (found : s.scopeTable.scopes[id]? = some scope) :
    ∃ (empty : Scope) (names : List Text), empty.bindings = [] ∧
      (∀ name, name ∈ names ↔ s.Assigns id name) ∧
      scope = names.foldl Scope.reassign
        (((Event.belonging id s.declarations).map Declaration.binding).foldl
          Scope.declare empty) := by
  have applied : ((ScopeDraft.addBody 0 s.body firstDraft).assignments.foldl
      ScopeDraft.applyAssignment (ScopeDraft.addBody 0 s.body firstDraft).scopes)[id]? =
        some scope := found
  rw [ScopeDraft.getElem?_applyAssignments] at applied
  obtain ⟨before, drafted, rfl⟩ := Option.map_eq_some_iff.mp applied
  obtain ⟨empty, none, rfl⟩ := s.scopes_addBody drafted
  refine ⟨empty, _, none, fun name => ?_, rfl⟩
  rw [assigns_iff]
  simp

/-- What the scope of a number holds in the finished table. It holds one binding for every name
that is declared in it. The binding has the kind, the initial value and the span of the first
declaration of the name, and it counts as reassigned exactly if there is another declaration
of the name or something assigns to the name from where this binding is seen. -/
theorem mem_bindings_iff {scope : Scope} (found : s.scopeTable.scopes[id]? = some scope)
    (b : Binding) : b ∈ scope.bindings ↔
      ∃ first others, s.declarationsOf id b.name = first :: others ∧ b.kind = first.kind ∧
        b.init = first.init ∧ b.span = first.span ∧
        (b.reassigned = true ↔ others ≠ [] ∨ s.Assigns id b.name) := by
  obtain ⟨empty, names, none, assigned, rfl⟩ := scopes_scopeTable found
  have distinct := Scope.distinct_declareAll none
    ((Event.belonging id s.declarations).map Declaration.binding)
  rw [(distinct.reassignAll names).mem_iff, Scope.find?_reassignAll,
    Scope.find?_declarations none, ← assigned, declarationsOf]
  cases declared : (Event.belonging id s.declarations).filter (·.name == b.name) with
  | nil => simp
  | cons first others =>
    have named : first.name = b.name := by
      have member := declared ▸ List.mem_cons_self (a := first) (l := others)
      simpa using (List.mem_filter.mp member).2
    refine Option.some_inj.trans (Declaration.binding_eq_iff.trans ?_)
    constructor
    · rintro ⟨-, kind, init, span, marked⟩
      exact ⟨first, others, rfl, kind, init, span, by simp [marked]⟩
    · rintro ⟨_, _, same, kind, init, span, marked⟩
      cases same
      refine ⟨named, kind, init, span, ?_⟩
      rw [Bool.eq_iff_iff, marked]
      simp

/-- In `x = true; { var x = false }` the `var` belongs to the script, and the assignment
before it reassigns it. -/
theorem mem_bindings_iff_hoisted :
    let value : Expr := .literal ⟨20, 25⟩ (.bool false)
    let s : StyleSplit.Script := ⟨text "x = true; \x7b var x = false \x7d",
      [.expression ⟨0, 9⟩ (.other ⟨0, 8⟩ [.expr (.literal ⟨4, 8⟩ (.bool true))] [text "x"] none),
        .block ⟨10, 27⟩ [.declaration ⟨12, 25⟩ .var [.mk ⟨16, 25⟩ [text "x"] (some value) false]]]⟩
    ∃ scope, s.scopeTable.scopes[0]? = some scope ∧
      ⟨text "x", .var, some value, ⟨16, 25⟩, true⟩ ∈ scope.bindings := by
  intro value s
  have declared : s.declarationsOf 0 (text "x") = [⟨text "x", .var, some value, ⟨16, 25⟩⟩] := rfl
  have assigned : s.Assigns 0 (text "x") :=
    ⟨⟨0, 8⟩, _, _, none, 0, ⟨_, List.mem_of_getElem? (i := 1) rfl, rfl, rfl⟩,
      List.mem_singleton.mpr rfl, rfl⟩
  refine ⟨_, rfl, (mem_bindings_iff rfl _).mpr ⟨_, [], declared, rfl, rfl, rfl, ?_⟩⟩
  exact iff_of_true rfl (.inr assigned)

end Script

end StyleSplit
