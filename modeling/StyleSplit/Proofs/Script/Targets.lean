import StyleSplit.Proofs.Script.Patterns

/-! What is written to. An assignment, an update or a loop may have a pattern for its target, in
which parentheses may stand and members of objects among the names. What it writes to is said
here of its derivation, and all of it is known to the expression that it contributes. -/
namespace StyleSplit.Script

/-- The names that an expression writes to. -/
def Expr.assigns : Expr → List Text
  | .other _ _ assigns _ => assigns
  | _ => []

/-- Whether an action is there to write to something. -/
def Action.writes : Action → Bool
  | assignment | update | forBinding => true
  | _ => false

namespace Tree

mutual

/-- The names that a part of a derivation is given a value for when something is assigned to
it. What stands in an element behind an equals sign is a value itself. -/
def written : Tree → List Text
  | .leaf _ => []
  | .node p children =>
    match p.action, children with
    | .identifier, [.leaf t] | .shorthandEntry, .leaf t :: _ => [t.text]
    | .assignment, [element, _, _] => element.written
    | .keyedEntry, [_, _, value] | .computedEntry, [_, _, _, _, value] => value.written
    | .spreadEntry, [_, rest] => rest.written
    | .compound, [.leaf t, rest] =>
      if t.terminal == .punctuator .ellipsis then rest.written else []
    | .splice, children | .list, children | .mapping, children => writtenAll children
    | _, _ => []

def writtenAll : List Tree → List Text
  | [] => []
  | tree :: rest => tree.written ++ writtenAll rest

end

/-- The names that a part of a derivation gives values to: those of the target of an assignment,
of the operand of an update, or of a loop that declares nothing. -/
def overwritten : Tree → List Text
  | .leaf _ => []
  | .node p children =>
    match p.action, children with
    | .assignment, target :: _ | .forBinding, [target] => target.written
    | .update, children => writtenAll children
    | _, _ => []

theorem mem_writtenAll {name : Text} {trees : List Tree} :
    name ∈ writtenAll trees ↔ ∃ c ∈ trees, name ∈ c.written := by
  induction trees with
  | nil => simp [writtenAll]
  | cons c rest ih => simp [writtenAll, ih]

end Tree

/-- The names that a fragment is taken to assign to where it stands in a target. -/
def Fragment.assigned : Fragment → List Text
  | expr e => e.assignedNames
  | entry e => e.value.boundNames
  | _ => []

namespace Action

/-- Whether what an action makes is assigned to as it is bound. -/
def isLevel : Action → Bool
  | identifier | shorthandEntry | keyedEntry | computedEntry | spreadEntry | list | mapping => true
  | _ => false

theorem Applies.assigned_eq {action : Action} {span : Span} {fs out : List Fragment}
    (applied : Applies span action fs out) (level : action.isLevel = true) :
    ∀ f ∈ out, f.assigned = f.taken := by
  cases applied with
  | identifier | shorthandEntry | spreadEntry | keyedEntry | computedEntry | list | mapping =>
    simp [Fragment.assigned, Fragment.taken, Expr.assignedNames]
  | _ => cases level

end Action

namespace Tree

variable {tree : Tree} {p : Production} {children : List Tree} {a : Assembled} {name : Text}

theorem mem_given_of (action : Action) {parts : List Assembled} {b : Assembled} {f : Fragment}
    (part : b ∈ parts) (inside : f ∈ b.fragments) (assigned : name ∈ f.assigned) :
    f ∈ given action parts := by
  have counts : Assembled.counts action f = true := by
    cases f <;> first | rfl | cases assigned
  exact List.mem_filter.mpr ⟨List.mem_flatMap.mpr ⟨b, part, inside⟩, counts⟩

theorem written_mentioned (valid : tree.valid grammar = true) (made : tree.assemble = .ok a)
    (written : name ∈ tree.written) : name ∈ tree.mentioned := by
  induction tree using Tree.induct generalizing a with
  | leaf t => simp [Tree.written] at written
  | node p children ih =>
    have each : ∀ c ∈ children, name ∈ c.written → name ∈ c.mentioned := by
      intro c member written
      obtain ⟨parts, out, parted, -⟩ := assemble_node.mp made
      obtain ⟨b, -, inner⟩ := mem_of_forall₂ parted.flip member
      exact ih c member ((valid_node.mp valid).2.2 c member) inner written
    have several (action : p.action = .splice ∨ p.action = .list ∨ p.action = .mapping)
        (written : name ∈ writtenAll children) : name ∈ (node p children).mentioned := by
      obtain ⟨c, member, found⟩ := mem_writtenAll.mp written
      rw [mentioned_several valid made action]
      exact List.mem_flatMap.mpr ⟨c, member, each c member found⟩
    unfold Tree.written at written
    split at written
    case h_1 u action => rwa [mentioned_name valid made (.inl action)]
    case h_2 u rest action => rwa [mentioned_name valid made (.inr action)]
    case h_3 element operator value action =>
      rw [mentioned_default valid made action]
      exact List.mem_append_left _ (each element (by simp) written)
    case h_4 key colon value action =>
      rw [mentioned_keyed valid made action]
      exact each value (by simp) written
    case h_5 opening key closing colon value action =>
      rw [mentioned_computed valid made action]
      exact each value (by simp) written
    case h_6 dots rest action =>
      rw [mentioned_rest valid made (.inl action)]
      exact each rest (by simp) written
    case h_7 u rest action =>
      split at written
      · rename_i dots
        have spelled : (leaf u).symbol = .terminal (.punctuator .ellipsis) :=
          congrArg Symbol.terminal (beq_iff_eq.mp dots)
        rw [mentioned_rest valid made (.inr ⟨action, spelled⟩)]
        exact each rest (by simp) written
      · cases written
    case h_8 action => exact several (.inl action) written
    case h_9 action => exact several (.inr (.inl action)) written
    case h_10 action => exact several (.inr (.inr action)) written
    case h_11 => cases written

/-- What is given values by an assignment to a part of a derivation is known of what it
contributes. -/
theorem written_assigned (valid : tree.valid grammar = true) (made : tree.assemble = .ok a)
    (written : name ∈ tree.written) : ∃ f ∈ a.fragments, name ∈ f.assigned := by
  induction tree using Tree.induct generalizing a with
  | leaf t => simp [Tree.written] at written
  | node p children ih =>
    have each : ∀ c ∈ children, ∀ b, c.assemble = .ok b → name ∈ c.written →
        ∃ f ∈ b.fragments, name ∈ f.assigned := fun c member b inner written =>
      ih c member ((valid_node.mp valid).2.2 c member) inner written
    have known := written_mentioned valid made written
    rw [mentioned_eq made] at known
    obtain ⟨f, listed, taken⟩ := List.mem_flatMap.mp known
    obtain ⟨parts, parted, applied⟩ := assemble_applies valid made
    have alike (level : p.action.isLevel = true) : ∃ f ∈ a.fragments, name ∈ f.assigned :=
      ⟨f, listed, applied.assigned_eq level f listed ▸ taken⟩
    unfold Tree.written at written
    split at written
    case h_1 action | h_2 action | h_4 action | h_5 action | h_6 action | h_9 action
      | h_10 action =>
      exact alike (by rw [action]; rfl)
    case h_3 element operator value action =>
      obtain ⟨_, _, _, target, d, first, -, only⟩ := assignment_made valid made action
      obtain ⟨f, inside, assigned⟩ := each element (by simp) _ first written
      rw [List.mem_singleton.mp inside] at assigned
      rw [only]
      exact ⟨_, List.mem_singleton.mpr rfl, assigned⟩
    case h_7 u rest action =>
      split at written
      · rename_i dots
        have spelled : (leaf u).symbol = .terminal (.punctuator .ellipsis) :=
          congrArg Symbol.terminal (beq_iff_eq.mp dots)
        obtain ⟨_, _, e, inner, only | only⟩ := rest_made valid made (.inr ⟨action, spelled⟩)
        · rw [only] at listed ⊢
          rw [List.mem_singleton.mp listed] at taken
          exact ⟨_, List.mem_singleton.mpr rfl, taken⟩
        · obtain ⟨f, inside, assigned⟩ := each rest (by simp) _ inner written
          rw [List.mem_singleton.mp inside] at assigned
          rw [only]
          exact ⟨_, List.mem_singleton.mpr rfl, assigned⟩
      · cases written
    case h_8 action =>
      obtain ⟨c, member, found⟩ := mem_writtenAll.mp written
      obtain ⟨b, part, inner⟩ := mem_of_forall₂ parted.flip member
      obtain ⟨f, inside, assigned⟩ := each c member b inner found
      have handed := mem_given_of p.action part inside assigned
      generalize given p.action parts = fs at applied handed
      generalize a.fragments = out at applied ⊢
      rw [action] at applied
      cases applied
      exact ⟨f, handed, assigned⟩
    case h_11 => cases written

/-- A part of a derivation that gives values to names becomes an expression that knows them. -/
theorem overwritten_assigns (valid : (node p children).valid grammar = true)
    (made : (node p children).assemble = .ok a)
    (overwritten : name ∈ (node p children).overwritten) :
    p.action.writes = true ∧ ∃ w, a.fragments = [.expr w] ∧ name ∈ w.assigns := by
  obtain ⟨member, body, each⟩ := valid_node.mp valid
  have binding := productions_binding p.head p member
  simp only [Tree.overwritten] at overwritten
  split at overwritten
  case h_1 target rest action =>
    refine ⟨by rw [action]; rfl, ?_⟩
    simp only [Production.binding, action, beq_iff_eq] at binding
    obtain ⟨operator, value, rfl⟩ : ∃ operator value, rest = [operator, value] := by
      have length := congrArg List.length (body.trans binding)
      exact List.length_eq_two.mp (by simpa using length)
    obtain ⟨_, _, _, e, d, first, -, only⟩ := assignment_made valid made action
    obtain ⟨f, inside, assigned⟩ := written_assigned (each target (by simp)) first overwritten
    rw [List.mem_singleton.mp inside] at assigned
    exact ⟨_, only, assigned⟩
  case h_2 target action =>
    refine ⟨by rw [action]; rfl, ?_⟩
    simp only [Production.binding, action, ← body] at binding
    have symbol : target.symbol = .nonterminal .callMember := by simpa using binding
    obtain ⟨parts, parted, applied⟩ := assemble_applies valid made
    rcases parted with _ | ⟨first, ⟨⟩⟩
    obtain ⟨e, only⟩ := assemble_expr (each target (by simp)) symbol rfl first
    obtain ⟨f, inside, assigned⟩ := written_assigned (each target (by simp)) first overwritten
    rw [only, List.mem_singleton] at inside
    rw [inside] at assigned
    rw [action, given_cons_expr only, given_nil] at applied
    generalize a.fragments = out at applied ⊢
    cases applied
    exact ⟨_, rfl, assigned⟩
  case h_3 action =>
    refine ⟨by rw [action]; rfl, ?_⟩
    obtain ⟨c, child, found⟩ := mem_writtenAll.mp overwritten
    obtain ⟨parts, parted, applied⟩ := assemble_applies valid made
    obtain ⟨b, part, inner⟩ := mem_of_forall₂ parted.flip child
    obtain ⟨f, inside, assigned⟩ := written_assigned (each c child) inner found
    have handed := mem_given_of p.action part inside assigned
    rw [action] at applied handed
    generalize given .update parts = fs at applied handed
    generalize a.fragments = out at applied ⊢
    cases applied
    rw [List.mem_singleton.mp handed] at assigned
    exact ⟨_, rfl, assigned⟩
  case h_4 => cases overwritten

end Tree

end StyleSplit.Script
