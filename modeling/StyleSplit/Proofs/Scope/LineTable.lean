import StyleSplit.Proofs.Scope.Following
import StyleSplit.Proofs.Scope.StraightLine

/-! What is known of a straight line. Its scope table has one scope; a name that is not
marked there has exactly one step, and a name may be used exactly behind the declaration it
refers to. So a step along a reference leads to the last step in front of it that has its
name, and there is none only where no step in front has that name. -/
namespace StyleSplit

open Script Script.Node

namespace ScopeDraft

variable {d : ScopeDraft} {root : Scope} {assigned : List Text}

/-- A draft with no scope but that of the script. -/
structure Flat (d : ScopeDraft) (root : Scope) (assigned : List Text) : Prop where
  scopes : d.scopes = [root]
  outer : root.parent = none
  function : root.isFunction = true
  uses : ∀ use ∈ d.uses, use.2 = 0
  assignments : d.assignments = assigned.map (·, 0)

/-- What only records the identifiers of some nodes in the scope of the script. -/
def Records (add : ScopeDraft → ScopeDraft) (nodes : List Node) : Prop :=
  ∀ (d : ScopeDraft) (root : Scope) (assigned : List Text), d.Flat root assigned →
    (add d).Flat root assigned ∧ d.uses ⊆ (add d).uses ∧
      ∀ n ∈ nodes, ∀ span name, Holds n (.expr (.identifier span name)) →
        (span, 0) ∈ (add d).uses

theorem Records.none : Records id [] :=
  fun _ _ _ flat => ⟨flat, List.Subset.refl _, fun _ member => by cases member⟩

theorem Records.comp {f g : ScopeDraft → ScopeDraft} {ms ns : List Node} (first : Records f ms)
    (last : Records g ns) : Records (fun d => g (f d)) (ms ++ ns) := by
  intro d root assigned flat
  obtain ⟨flat', kept, recorded⟩ := first d root assigned flat
  obtain ⟨flat'', kept', recorded'⟩ := last _ root assigned flat'
  refine ⟨flat'', List.Subset.trans kept kept', fun n member span name held => ?_⟩
  rcases List.mem_append.mp member with member | member
  · exact kept' (recorded n member span name held)
  · exact recorded' n member span name held

/-- A node that is no identifier holds the identifiers of the nodes directly inside it. -/
theorem Records.whole {add : ScopeDraft → ScopeDraft} {n : Node} (inside : Records add n.children)
    (other : ∀ span name, n ≠ .expr (.identifier span name)) : Records add [n] := by
  intro d root assigned flat
  obtain ⟨flat', kept, recorded⟩ := inside d root assigned flat
  refine ⟨flat', kept, fun m member span name held => ?_⟩
  obtain rfl := List.mem_singleton.mp member
  cases held with
  | self => exact absurd rfl (other span name)
  | inside child held => exact recorded _ child span name held

theorem records_use (span : Span) (name : Text) :
    Records (fun d => d.use 0 span) [.expr (.identifier span name)] := by
  intro d root assigned flat
  refine ⟨⟨flat.scopes, flat.outer, flat.function, ?_, flat.assignments⟩,
    List.subset_cons_self _ _, fun n member place other held => ?_⟩
  · intro use member
    rcases List.mem_cons.mp member with rfl | member
    · rfl
    · exact flat.uses use member
  · obtain rfl := List.mem_singleton.mp member
    cases held with
    | self => exact List.mem_cons_self
    | inside child => cases child

mutual

theorem addExpr_records : ∀ e : Expr, e.isPlain = true → Records (addExpr 0 e) [.expr e]
  | .literal .., _ => Records.whole Records.none (by simp)
  | .identifier span name, _ => records_use span name
  | .list _ items, plain => (addItems_records items plain).whole (by simp)
  | .mapping _ entries, plain => (addEntries_records entries plain).whole (by simp)
  | .function .., plain | .call .., plain | .other .., plain => by cases plain

theorem addEntry_records : ∀ e : Entry, e.isPlain = true → Records (addEntry 0 e) [.entry e]
  | .mk _ (some key) value true _, plain => by
    obtain ⟨keyed, valued⟩ := Bool.and_eq_true_iff.mp plain
    exact ((addExpr_records key keyed).comp (addExpr_records value valued)).whole (by simp)
  | .mk _ (some (.literal ..)) value false _, plain => (addExpr_records value plain).whole (by simp)
  | .mk _ (some (.identifier ..)) _ false _, plain | .mk _ (some (.list ..)) _ false _, plain
  | .mk _ (some (.mapping ..)) _ false _, plain | .mk _ (some (.function ..)) _ false _, plain
  | .mk _ (some (.call ..)) _ false _, plain | .mk _ (some (.other ..)) _ false _, plain
  | .mk _ none _ _ _, plain => by cases plain

theorem addItems_records : ∀ items : List Expr, plainItems items = true →
    Records (addItems 0 items) (items.map .expr)
  | [], _ => Records.none
  | e :: rest, plain => by
    obtain ⟨first, others⟩ := Bool.and_eq_true_iff.mp plain
    exact (addExpr_records e first).comp (addItems_records rest others)

theorem addEntries_records : ∀ entries : List Entry, plainEntries entries = true →
    Records (addEntries 0 entries) (entries.map .entry)
  | [], _ => Records.none
  | e :: rest, plain => by
    obtain ⟨first, others⟩ := Bool.and_eq_true_iff.mp plain
    exact (addEntry_records e first).comp (addEntries_records rest others)

end

theorem Flat.functionScope (flat : d.Flat root assigned) : d.functionScope 0 = 0 := by
  simp [ScopeDraft.functionScope, Scope.innermost?, flat.scopes, flat.function]

theorem Flat.declare (flat : d.Flat root assigned) (b : Binding) :
    (d.declare 0 b).Flat (root.declare b) assigned where
  scopes := by simp [ScopeDraft.declare, flat.scopes]
  outer := flat.outer
  function := flat.function
  uses := flat.uses
  assignments := flat.assignments

/-- A step declares its name or notes the assignment, and records its identifiers. -/
theorem Flat.step {s : Stmt} {step : Step} (reads : Step.ofStmt? s = some step)
    (flat : d.Flat root assigned) :
    (addStmt 0 s d).Flat (step.binding?.toList.foldl Scope.declare root)
        (assigned ++ step.assigned?.toList) ∧
      d.uses ⊆ (addStmt 0 s d).uses ∧
      ∀ span name, Holds (.expr step.value) (.expr (.identifier span name)) →
        (span, 0) ∈ (addStmt 0 s d).uses := by
  obtain ⟨plain, shape⟩ := Step.ofStmt?_eq_some reads
  obtain ⟨span, kind, place, name, init, -, rfl, rfl⟩ |
    ⟨span, place, target, name, e, rfl, rfl⟩ := shape
  · have declared : d.declareTarget 0 kind (.mk place [name] (some init) false) =
        d.declare 0 ⟨name, bindingKind kind, some init, place, false⟩ := by
      cases kind <;> simp [declareTarget, declareAll, flat.functionScope]
    obtain ⟨flat', kept, recorded⟩ := addExpr_records init plain _ _ _ (flat.declare _)
    simp only [addStmt, addDeclarators, addInit, declared]
    exact ⟨by simpa [Step.binding?, Step.assigned?] using flat', kept,
      recorded _ (List.mem_singleton.mpr rfl)⟩
  · have noted : (d.assign 0 [name]).Flat root (assigned ++ [name]) :=
      ⟨flat.scopes, flat.outer, flat.function, flat.uses, by
        simp [ScopeDraft.assign, flat.assignments]⟩
    obtain ⟨flat', kept, recorded⟩ :=
      (records_use target name).comp (addExpr_records e plain) _ _ _ noted
    exact ⟨flat', kept, recorded _ (by simp [Step.value])⟩

/-- What the steps of a straight line leave behind: their declarations in one scope, their
assignments, and the identifiers in their values. -/
theorem Flat.steps {front : List Stmt} {steps : List Step}
    (reads : List.Forall₂ (fun s step => Step.ofStmt? s = some step) front steps)
    (flat : d.Flat root assigned) (rest : List Stmt) :
    ∃ d', addBody 0 (front ++ rest) d = addBody 0 rest d' ∧
      d'.Flat ((steps.filterMap Step.binding?).foldl Scope.declare root)
        (assigned ++ steps.filterMap Step.assigned?) ∧
      d.uses ⊆ d'.uses ∧ ∀ step ∈ steps, ∀ span name,
        Holds (.expr step.value) (.expr (.identifier span name)) → (span, 0) ∈ d'.uses := by
  induction reads generalizing d root assigned with
  | nil => exact ⟨d, rfl, by simpa using flat, List.Subset.refl _, by simp⟩
  | @cons s step front steps head _ ih =>
    obtain ⟨flat', kept, recorded⟩ := flat.step head
    obtain ⟨d', same, flat'', kept', recorded'⟩ := ih flat'
    have declared : (step :: steps).filterMap Step.binding? =
        step.binding?.toList ++ steps.filterMap Step.binding? := by
      rw [List.filterMap_cons]
      cases step.binding? <;> rfl
    have noted : (step :: steps).filterMap Step.assigned? =
        step.assigned?.toList ++ steps.filterMap Step.assigned? := by
      rw [List.filterMap_cons]
      cases step.assigned? <;> rfl
    refine ⟨d', same, ?_, List.Subset.trans kept kept', fun other member span name held => ?_⟩
    · rwa [declared, noted, List.foldl_append, ← List.append_assoc]
    · rcases List.mem_cons.mp member with rfl | member
      · exact kept' (recorded span name held)
      · exact recorded' other member span name held

theorem applyAssignment_flat (outer : root.parent = none) (name : Text) :
    applyAssignment [root] (name, 0) = [root.reassign name] := by
  unfold applyAssignment ScopeTable.declaring?
  cases found : root.find? name with
  | none =>
    rw [Scope.reassign_undeclared found]
    simp [Scope.innermost?, found, outer]
  | some b => simp [Scope.innermost?, found]

theorem applyAssignments_flat (outer : root.parent = none) (names : List Text) :
    (names.map (·, 0)).foldl applyAssignment [root] = [names.foldl Scope.reassign root] := by
  induction names generalizing root with
  | nil => rfl
  | cons name rest ih =>
    rw [List.map_cons, List.foldl_cons, applyAssignment_flat outer, List.foldl_cons]
    exact ih outer

end ScopeDraft

/-- The scope of a straight line: its declarations, marked by its assignments. -/
def StraightLine.scope (line : StraightLine) : Scope :=
  (line.steps.filterMap Step.assigned?).foldl Scope.reassign
    ((line.steps.filterMap Step.binding?).foldl Scope.declare ⟨none, true, []⟩)

/-- The table of a straight line knows that scope alone, and all identifiers in it. -/
structure StraightLine.Tabled (line : StraightLine) (t : ScopeTable) : Prop where
  scopes : t.scopes = [line.scope]
  outer : line.scope.parent = none
  kinds : ∀ step ∈ line.steps, ∀ b, step.binding? = some b →
    b.kind = .const ∨ b.kind = .let_ ∨ b.kind = .var
  uses : ∀ use ∈ t.uses, use.2 = 0
  steps : ∀ step ∈ line.steps, ∀ span name,
    Holds (.expr step.value) (.expr (.identifier span name)) → (span, 0) ∈ t.uses
  argument : ∀ span name, Holds (.expr line.argument) (.expr (.identifier span name)) →
    (span, 0) ∈ t.uses

theorem Scope.parent_reassign {s : Scope} (names : List Text) :
    (names.foldl Scope.reassign s).parent = s.parent := by
  induction names generalizing s with
  | nil => rfl
  | cons name rest ih => exact ih

theorem StraightLine.tabled {s : Script} {line : StraightLine}
    (reads : StraightLine.ofBody? s.body = some line) : line.Tabled s.scopeTable := by
  obtain ⟨front, last, body, steps, argument⟩ := StraightLine.ofBody?_eq_some reads
  obtain ⟨plain, span, place, at_, name, argumentsSpan, calleeName, rfl⟩ :=
    StraightLine.argument?_eq_some argument
  have start : ScopeDraft.Flat ⟨[⟨none, true, []⟩], [], []⟩ ⟨none, true, []⟩ [] :=
    ⟨rfl, rfl, rfl, by simp, rfl⟩
  obtain ⟨d, same, flat, -, recorded⟩ := start.steps steps
    [.expression span (.call place (.identifier at_ name) [line.argument] argumentsSpan calleeName)]
  obtain ⟨flat', kept, recorded'⟩ := (ScopeDraft.records_use at_ name).comp
    (ScopeDraft.addExpr_records line.argument plain) d _ _ flat
  have draft : ScopeDraft.addBody 0 s.body ⟨[⟨none, true, []⟩], [], []⟩ =
      ScopeDraft.addExpr 0 line.argument (d.use 0 at_) := by
    rw [body, same]
    rfl
  have outer : line.scope.parent = none := (Scope.parent_reassign _).trans flat.outer
  refine ⟨?_, outer, fun step member b declares => ?_, ?_, ?_, ?_⟩
  · change (ScopeDraft.assignments _).foldl ScopeDraft.applyAssignment (ScopeDraft.scopes _) = _
    rw [draft, flat'.scopes, flat'.assignments, List.nil_append]
    exact ScopeDraft.applyAssignments_flat flat'.outer _
  · obtain ⟨s, -, read⟩ := mem_of_forall₂ steps member
    obtain ⟨-, ⟨_, kind, _, _, _, usual, rfl, -⟩ | ⟨_, _, _, _, _, rfl, -⟩⟩ :=
      Step.ofStmt?_eq_some read
    · cases declares
      cases kind with
      | const | let_ | var => simp [ScopeDraft.bindingKind]
      | parameter => exact absurd rfl usual
    · cases declares
  · change ∀ use ∈ ScopeDraft.uses _, use.2 = 0
    rw [draft]
    exact flat'.uses
  · intro step member place name held
    change (place, 0) ∈ ScopeDraft.uses _
    rw [draft]
    exact kept (recorded step member place name held)
  · intro place name held
    change (place, 0) ∈ ScopeDraft.uses _
    rw [draft]
    exact recorded' _ (by simp) place name held

namespace StraightLine

variable {line : StraightLine} {t : ScopeTable}

/-- A recorded identifier refers to what the one scope knows of its name. -/
theorem Tabled.lookup (tabled : line.Tabled t) {span : Span} (recorded : (span, 0) ∈ t.uses)
    (name : Text) : t.lookup span name = line.scope.find? name := by
  have seen : ScopeTable.lookupFrom t.scopes 0 name = line.scope.find? name := by
    unfold ScopeTable.lookupFrom ScopeTable.declaring?
    rw [tabled.scopes]
    cases found : line.scope.find? name with
    | none => simp [Scope.innermost?, found, tabled.outer]
    | some b => simp [Scope.innermost?, found]
  unfold ScopeTable.lookup
  cases used : t.uses.find? (·.1 == span) with
  | none =>
    have absent := List.find?_eq_none.mp used _ recorded
    simp at absent
  | some use =>
    have place := tabled.uses use (List.mem_of_find?_eq_some used)
    obtain ⟨_, id⟩ := use
    obtain rfl : id = 0 := place
    exact seen

/-- What the scope knows of a name: nothing if no step declares it, and otherwise its first
declaration, marked if there is another one or an assignment. -/
theorem scope_find? (line : StraightLine) (name : Text) :
    match line.scope.find? name with
    | none => ∀ b ∈ line.steps.filterMap Step.binding?, b.name ≠ name
    | some b => ∃ front step back first, line.steps = front ++ step :: back ∧
        step.binding? = some first ∧ first.name = name ∧
        (∀ other ∈ front.filterMap Step.binding?, other.name ≠ name) ∧
        b = { first with reassigned := (back.filterMap Step.binding?).any (·.name == name) ||
          (line.steps.filterMap Step.assigned?).contains name } := by
  have empty : Scope.find? ⟨none, true, []⟩ name = none := rfl
  have declared := Scope.find?_declareAll (line.steps.filterMap Step.binding?) empty
  rw [scope, Scope.find?_reassignAll]
  cases found : ((line.steps.filterMap Step.binding?).foldl Scope.declare ⟨none, true, []⟩).find?
      name with
  | none => simpa [found] using declared
  | some b =>
    rw [found] at declared
    obtain ⟨fronts, first, backs, split, named, others, rfl⟩ := declared
    obtain ⟨front, rest, whole, rfl, behind⟩ := List.filterMap_eq_append_iff.mp split
    obtain ⟨skipped, step, back, rfl, none, here, rfl⟩ := List.filterMap_eq_cons_iff.mp behind
    have unmarked : first.reassigned = false := by
      cases step with
      | declare => exact (congrArg Binding.reassigned (Option.some.inj here)).symm
      | assign => cases here
    refine ⟨front ++ skipped, step, back, first, by simp [whole], here, named, ?_, ?_⟩
    · intro other member
      rw [List.filterMap_append, List.filterMap_eq_nil_iff.mpr none, List.append_nil] at member
      exact others other member
    · simp [unmarked]

theorem Step.of_binding {step : Step} {b : Binding} (declares : step.binding? = some b) :
    step.name = b.name ∧ b.init = some step.value ∧ b.kind ≠ .function := by
  cases step with
  | declare kind place name init =>
    cases declares
    exact ⟨rfl, rfl, by cases kind <;> simp [ScopeDraft.bindingKind]⟩
  | assign => cases declares

theorem Step.binding_of_unassigned {step : Step} (none : step.assigned? = none) :
    ∃ b, step.binding? = some b := by
  cases step with
  | declare => exact ⟨_, rfl⟩
  | assign => cases none

/-- A name that the scope knows without a mark has exactly one step. -/
theorem scope_unmarked {name : Text} {b : Binding} (found : line.scope.find? name = some b)
    (unmarked : b.reassigned = false) : ∃ front step back, line.steps = front ++ step :: back ∧
      step.binding? = some b ∧ step.name = name ∧ ∀ other ∈ front ++ back, other.name ≠ name := by
  have known := line.scope_find? name
  rw [found] at known
  obtain ⟨front, step, back, first, whole, here, named, earlier, rfl⟩ := known
  obtain ⟨once, unassigned⟩ := Bool.or_eq_false_iff.mp unmarked
  have first' : first.reassigned = false := by
    cases step <;> cases here
    rfl
  have whole' : step.binding? = some { first with reassigned := false } := by
    rw [here, ← first']
  rw [once, unassigned]
  have same : step.name = name := (Step.of_binding here).1.trans named
  refine ⟨front, step, back, whole, whole', same, fun other member same => ?_⟩
  have listed : other ∈ line.steps := by
    rw [whole]
    rcases List.mem_append.mp member with member | member <;> simp [member]
  cases other with
  | declare kind place name' init =>
    obtain rfl : name' = name := same
    have declares {steps : List Step} (member : .declare kind place name' init ∈ steps) :
        ∃ b ∈ steps.filterMap Step.binding?, b.name = name' :=
      ⟨_, List.mem_filterMap.mpr ⟨_, member, rfl⟩, rfl⟩
    rcases List.mem_append.mp member with member | member
    · obtain ⟨b, declared, same⟩ := declares member
      exact earlier b declared same
    · obtain ⟨b, declared, same⟩ := declares member
      simpa [same] using List.any_eq_false.mp once b declared
  | assign name' value =>
    obtain rfl : name' = name := same
    have assigned : name' ∈ line.steps.filterMap Step.assigned? :=
      List.mem_filterMap.mpr ⟨_, listed, rfl⟩
    simp [List.contains_eq_mem, assigned] at unassigned

/-- In a clean line nothing is marked. -/
theorem Clean.unmarked (clean : line.Clean) {name : Text} {b : Binding}
    (found : line.scope.find? name = some b) : b.reassigned = false := by
  have known := line.scope_find? name
  rw [found] at known
  obtain ⟨front, step, back, first, whole, here, named, -, rfl⟩ := known
  refine Bool.or_eq_false_iff.mpr ⟨List.any_eq_false.mpr fun b declared => ?_, ?_⟩
  · obtain ⟨later, member, declares⟩ := List.mem_filterMap.mp declared
    have distinct := clean.1
    rw [whole, List.map_append, List.map_cons] at distinct
    have apart := (List.nodup_cons.mp (List.nodup_append.mp distinct).2.1).1
    intro same
    refine apart (List.mem_map.mpr ⟨later, member, ?_⟩)
    rw [(Step.of_binding declares).1, (Step.of_binding here).1, named]
    exact beq_iff_eq.mp same
  · have none : line.steps.filterMap Step.assigned? = [] := List.filterMap_eq_nil_iff.mpr clean.2
    rw [none]
    rfl

/-- Of two steps the first one is over before the second one starts. -/
def Step.Apart (step step' : Step) : Prop :=
  (∀ b, step.binding? = some b → b.span.stop ≤ step'.value.span.start) ∧
    ∀ b, step'.binding? = some b → step.value.span.stop ≤ b.span.stop

/-- Where the steps of a line stand: one after the other and before the argument, each value
inside the declaration that it belongs to. -/
structure Placed (line : StraightLine) : Prop where
  apart : line.steps.Pairwise Step.Apart
  own : ∀ step ∈ line.steps, ∀ b, step.binding? = some b → step.value.span.stop ≤ b.span.stop
  behind : ∀ step ∈ line.steps, ∀ b, step.binding? = some b →
    b.span.stop ≤ line.argument.span.start
  laid : ∀ step ∈ line.steps, Node.Laid (.expr step.value)
  last : Node.Laid (.expr line.argument)

theorem Step.placed {s : Stmt} {step : Step} (reads : Step.ofStmt? s = some step)
    (laid : Node.Laid (.stmt s)) : Node.Laid (.expr step.value) ∧
      s.span.Covers step.value.span ∧ ∀ b, step.binding? = some b →
        s.span.Covers b.span ∧ b.span.Covers step.value.span := by
  obtain ⟨-, ⟨span, kind, place, name, init, -, rfl, rfl⟩ |
    ⟨span, place, target, name, e, rfl, rfl⟩⟩ :=
    Step.ofStmt?_eq_some reads
  · cases laid with
    | usual _ row each =>
      obtain ⟨inside, contains⟩ := row
      have outer := inside.covers place (by simp [Declarator.span])
      have inner : place.Covers init.span := contains _ (List.mem_singleton.mpr rfl) init rfl
      refine ⟨each _ (List.mem_singleton.mpr rfl), outer.trans inner, fun b declares => ?_⟩
      cases declares
      exact ⟨outer, inner⟩
  · have outer : Node.Laid
        (.expr (.other place [.expr (.identifier target name), .expr e] [name] none)) :=
      laid.child (by simp) (List.mem_singleton.mpr rfl)
    have second : Node.expr e ∈ (Node.expr
        (.other place [.expr (.identifier target name), .expr e] [name] none)).children := by
      simp [children, ofExpr, Part.toNode]
    refine ⟨outer.child (by simp) second, ?_, fun b declares => by cases declares⟩
    exact (laid.holds (.inside (List.mem_singleton.mpr rfl) (.inside second .self))).1

theorem Step.pairwise_apart {front : List Stmt} {steps : List Step}
    (reads : List.Forall₂ (fun s step => Step.ofStmt? s = some step) front steps)
    (apart : front.Pairwise fun s s' => s.span.stop ≤ s'.span.start)
    (laid : ∀ s ∈ front, Node.Laid (.stmt s)) : steps.Pairwise Step.Apart := by
  induction reads with
  | nil => exact .nil
  | @cons s step front steps read reads ih =>
    obtain ⟨first, others⟩ := List.pairwise_cons.mp apart
    refine List.pairwise_cons.mpr ⟨fun step' member => ?_,
      ih others fun s member => laid s (List.mem_cons_of_mem _ member)⟩
    obtain ⟨s', listed, read'⟩ := mem_of_forall₂ reads member
    obtain ⟨-, inside, contains⟩ := Step.placed read (laid s List.mem_cons_self)
    obtain ⟨good', inside', contains'⟩ :=
      Step.placed read' (laid s' (List.mem_cons_of_mem _ listed))
    have between := first s' listed
    refine ⟨fun b declares => ?_, fun b declares => ?_⟩
    · exact Nat.le_trans (contains b declares).1.2 (Nat.le_trans between inside'.1)
    · have filled : step'.value.span.start < step'.value.span.stop := good'.filled
      calc step.value.span.stop ≤ s.span.stop := inside.2
        _ ≤ s'.span.start := between
        _ ≤ step'.value.span.start := inside'.1
        _ ≤ step'.value.span.stop := Nat.le_of_lt filled
        _ ≤ b.span.stop := (contains' b declares).2.2

theorem placed {source : Text} {s : Script} (parsed : Script.parse source = .ok s)
    (reads : StraightLine.ofBody? s.body = some line) : line.Placed := by
  obtain ⟨row, laid⟩ := Script.parse_laid parsed
  obtain ⟨front, last, body, steps, argument⟩ := StraightLine.ofBody?_eq_some reads
  rw [body] at row laid
  rw [List.map_append] at row
  obtain ⟨fronts, -, before⟩ := Span.row_append.mp row
  have ends : last.span.Covers line.argument.span ∧ Node.Laid (.expr line.argument) := by
    have good := laid last (by simp)
    obtain ⟨-, span, place, at_, name, argumentsSpan, calleeName, rfl⟩ :=
      StraightLine.argument?_eq_some argument
    have call : Node.Laid (.expr (.call place (.identifier at_ name) [line.argument] argumentsSpan
        calleeName)) := good.child (by simp) (List.mem_singleton.mpr rfl)
    have second : Node.expr line.argument ∈ (Node.expr (.call place (.identifier at_ name)
        [line.argument] argumentsSpan calleeName)).children := by
      simp [children, ofExpr]
    refine ⟨?_, call.child (by simp) second⟩
    exact (good.holds (.inside (List.mem_singleton.mpr rfl) (.inside second .self))).1
  have place {step : Step} (member : step ∈ line.steps) : ∃ s ∈ front,
      Node.Laid (.expr step.value) ∧ s.span.Covers step.value.span ∧
        ∀ b, step.binding? = some b → s.span.Covers b.span ∧ b.span.Covers step.value.span := by
    obtain ⟨s, listed, read⟩ := mem_of_forall₂ steps member
    exact ⟨s, listed, Step.placed read (laid s (by simp [listed]))⟩
  refine ⟨?_, ?_, ?_, fun step member => ?_, ends.2⟩
  · exact Step.pairwise_apart steps (List.pairwise_map.mp fronts.apart)
      fun s member => laid s (by simp [member])
  · intro step member b declares
    obtain ⟨s, listed, -, -, contains⟩ := place member
    exact (contains b declares).2.2
  · intro step member b declares
    obtain ⟨s, listed, -, -, contains⟩ := place member
    have apart := before s.span (List.mem_map_of_mem listed) last.span (by simp)
    exact Nat.le_trans (contains b declares).1.2 (Nat.le_trans apart ends.1.1)
  · obtain ⟨s, listed, good, -⟩ := place member
    exact good

/-- An expression between two lists of steps: behind all declarations of the first list, and
before the end of every declaration of the second one. -/
structure Between (front back : List Step) (e : Expr) : Prop where
  behind : ∀ step ∈ front, ∀ b, step.binding? = some b → b.span.stop ≤ e.span.start
  ahead : ∀ step ∈ back, ∀ b, step.binding? = some b → e.span.stop ≤ b.span.stop

theorem Placed.between (placed : line.Placed) {front back : List Step} {step : Step}
    (split : line.steps = front ++ step :: back) : Between front (step :: back) step.value := by
  have apart := placed.apart
  rw [split] at apart
  obtain ⟨-, behind, before⟩ := List.pairwise_append.mp apart
  refine ⟨fun other member b declares => (before other member step (by simp)).1 b declares, ?_⟩
  intro other member b declares
  rcases List.mem_cons.mp member with rfl | member
  · exact placed.own other (by simp [split]) b declares
  · exact ((List.pairwise_cons.mp behind).1 other member).2 b declares

/-- A step along an identifier between steps leads to the only step with its name, which is
one of those in front. -/
theorem step_found {front back : List Step} {e : Expr} (tabled : line.Tabled t)
    (split : line.steps = front ++ back) (between : Between front back e)
    (laid : Node.Laid (.expr e)) {span : Span} {name : Text}
    (held : Holds (.expr e) (.expr (.identifier span name))) (recorded : (span, 0) ∈ t.uses)
    {init : Expr} (stepped : t.step span name = .ok init) :
    ∃ before step behind, front = before ++ step :: behind ∧ step.name = name ∧
      step.value = init ∧ ∀ other ∈ behind, other.name ≠ name := by
  obtain ⟨b, found, unmarked, initial, late⟩ := ScopeTable.step_ok stepped
  rw [tabled.lookup recorded] at found
  obtain ⟨before, step, behind, whole, declares, named, others⟩ := scope_unmarked found unmarked
  obtain ⟨-, valued, kind⟩ := Step.of_binding declares
  have value : step.value = init := Option.some.inj (valued.symm.trans initial)
  have inside := laid.holds held
  have notAhead : step ∉ back := by
    intro member
    have ahead : e.span.stop ≤ b.span.stop := between.ahead step member b declares
    have late : b.span.stop ≤ span.start := late.resolve_left kind
    have covers : span.stop ≤ e.span.stop := inside.1.2
    have filled : span.start < span.stop := inside.2
    omega
  rcases List.append_eq_append_iff.mp (split.symm.trans whole) with
    ⟨more, -, rfl⟩ | ⟨more, rfl, rest⟩
  · exact absurd (by simp) notAhead
  · cases more with
    | nil => exact absurd (by simp [← show step :: behind = back from rest]) notAhead
    | cons first more =>
      obtain ⟨rfl, rfl⟩ := List.cons.inj rest
      exact ⟨before, step, more, rfl, named, value, fun other member =>
        others other (by simp [member])⟩

/-- In a clean line there is no step along an identifier only if no step in front of it has
its name. -/
theorem step_missed {front back : List Step} {e : Expr} (tabled : line.Tabled t)
    (split : line.steps = front ++ back) (between : Between front back e)
    (laid : Node.Laid (.expr e)) {span : Span} {name : Text}
    (held : Holds (.expr e) (.expr (.identifier span name))) (recorded : (span, 0) ∈ t.uses)
    (clean : line.Clean) {reason : UnresolvedReason} (stepped : t.step span name = .error reason) :
    ∀ step ∈ front, step.name ≠ name := by
  intro step member same
  have listed : step ∈ line.steps := by simp [split, member]
  obtain ⟨b, declares⟩ := Step.binding_of_unassigned (clean.2 step listed)
  have known := line.scope_find? name
  cases found : line.scope.find? name with
  | none =>
    rw [found] at known
    refine known b (List.mem_filterMap.mpr ⟨step, listed, declares⟩) ?_
    exact (Step.of_binding declares).1.symm.trans same
  | some b' =>
    have unmarked := clean.unmarked found
    obtain ⟨before, step', behind, whole, declares', -, others⟩ := scope_unmarked found unmarked
    have only : step = step' := by
      by_contra other
      refine others step ?_ same
      simpa [whole, other] using listed
    rw [only, declares'] at declares
    obtain rfl := Option.some.inj declares
    have past : b'.span.stop ≤ e.span.start := between.behind step member b' (only ▸ declares')
    have inside : e.span.start ≤ span.start := (laid.holds held).1.1
    have reached := ScopeTable.step_variable ((tabled.lookup recorded name).trans found)
      (tabled.kinds step listed b' (only ▸ declares')) unmarked (Step.of_binding declares').2.1
      (Nat.le_trans past inside)
    rw [stepped] at reached
    cases reached

end StraightLine

end StyleSplit
