import Mathlib.Data.List.Basic
import StyleSplit.Sheet.Naming

/-! What an allocator gives out over a whole run. Every inquiry is one question to the naming
function, with the next number, whether a name comes of it or not; what comes of it is decided
by the answer and by the names that the same call site got before. The naming function may
keep a memory of what it was asked, so that a question too many or out of turn would show. -/
namespace StyleSplit

/-- A class name that is asked for: for which selector, and what is known about the call site. -/
structure Inquiry where
  selector : Text
  context : CallContext

/-- An inquiry with its number, as it is put to the naming function. -/
def Inquiry.numbered (q : Inquiry) (n : Nat) : Inquiry :=
  { q with context := { q.context with sequence := n } }

/-- A naming function with a memory: a question can change it, and so the answers to later
ones. -/
abbrev Namer (σ : Type) := Inquiry → StateM σ Answer

namespace Allocator

/-- The names given out for a call site, in order. -/
def issuedTo (a : Allocator) (callIndex : Nat) : List Text :=
  (a.issued.filter (·.1 == callIndex)).map Prod.snd

/-- The allocator behind a question that led to no name. -/
def counted (a : Allocator) : Allocator := { a with sequence := a.sequence + 1 }

/-- The allocator behind a question that led to a name. -/
def issue (a : Allocator) (callIndex : Nat) (identifier : Text) : Allocator :=
  { sequence := a.sequence + 1, issued := a.issued ++ [(callIndex, identifier)] }

variable {a : Allocator} {naming : Naming} {selector identifier : Text} {context : CallContext}
  {callIndex i : Nat} {answer : Answer}

@[simp] theorem issuedTo_start : start.issuedTo i = [] := rfl

@[simp] theorem issuedTo_counted : a.counted.issuedTo i = a.issuedTo i := rfl

@[simp] theorem issuedTo_issue : (a.issue callIndex identifier).issuedTo i =
    a.issuedTo i ++ if callIndex = i then [identifier] else [] := by
  by_cases own : callIndex = i <;> simp [issuedTo, issue, own]

theorem mem_issuedTo : identifier ∈ a.issuedTo i ↔ (i, identifier) ∈ a.issued := by
  simp [issuedTo]

theorem name?_eq_some : name? answer = some identifier ↔
    answer = .text identifier ∧ identifier ≠ [] := by
  unfold name?
  split
  · rename_i c rest
    constructor
    · rintro ⟨⟩
      exact ⟨rfl, List.cons_ne_nil c rest⟩
    · rintro ⟨⟨⟩, -⟩
      rfl
  · rename_i other
    constructor
    · rintro ⟨⟩
    · rintro ⟨rfl, some⟩
      obtain ⟨c, rest, rfl⟩ := List.exists_cons_of_ne_nil some
      exact absurd rfl (other c rest)

/-- The naming function has one question to answer: only its answer there matters. -/
theorem allocate_constant
    (same : naming selector { context with sequence := a.sequence + 1 } = answer) :
    a.allocate naming selector context = a.allocate (.constant answer) selector context := by
  subst same
  rfl

/-- An allocation as a function of the answer and of the names of its call site. -/
theorem allocate_eq (a : Allocator) (answer : Answer) (selector : Text) (context : CallContext) :
    a.allocate (.constant answer) selector context =
      match name? answer with
      | none => (.error (.unusable answer selector), a.counted)
      | some identifier =>
        if identifier ∈ a.issuedTo context.callIndex then
          (.error (.taken identifier selector), a.counted)
        else (.ok identifier, a.issue context.callIndex identifier) := by
  simp only [mem_issuedTo]
  simp only [← List.contains_iff_mem]
  rfl

/-- All that can come of an inquiry: the answer is no name, the name is in use at the call
site, or it is given out. -/
theorem allocate_cases (a : Allocator) (answer : Answer) (selector : Text)
    (context : CallContext) :
    (name? answer = none ∧ a.allocate (.constant answer) selector context =
        (.error (.unusable answer selector), a.counted)) ∨
      ∃ identifier, name? answer = some identifier ∧
        (identifier ∈ a.issuedTo context.callIndex ∧
            a.allocate (.constant answer) selector context =
              (.error (.taken identifier selector), a.counted) ∨
          identifier ∉ a.issuedTo context.callIndex ∧
            a.allocate (.constant answer) selector context =
              (.ok identifier, a.issue context.callIndex identifier)) := by
  rw [allocate_eq]
  cases name? answer with
  | none => exact .inl ⟨rfl, rfl⟩
  | some identifier =>
    refine .inr ⟨identifier, rfl, ?_⟩
    by_cases taken : identifier ∈ a.issuedTo context.callIndex
    · exact .inl ⟨taken, if_pos taken⟩
    · exact .inr ⟨taken, if_neg taken⟩

/-- With effects or without, there is one question, with the next number, and the rest is the
same. -/
theorem allocateM_eq {m : Type → Type} [Monad m] (a : Allocator)
    (naming : Text → CallContext → m Answer) (selector : Text) (context : CallContext) :
    a.allocateM naming selector context = (do
      let answer ← naming selector { context with sequence := a.sequence + 1 }
      return a.allocate (.constant answer) selector context) := rfl

theorem allocate_sequence :
    (a.allocate (.constant answer) selector context).2.sequence = a.sequence + 1 := by
  obtain ⟨-, made⟩ | ⟨_, -, ⟨-, made⟩ | ⟨-, made⟩⟩ := a.allocate_cases answer selector context
  all_goals rw [made]; rfl

/-- A call site has the names it had before, and the one that is given out for it. -/
theorem mem_issuedTo_allocate :
    identifier ∈ (a.allocate (.constant answer) selector context).2.issuedTo i ↔
      identifier ∈ a.issuedTo i ∨ context.callIndex = i ∧
        (a.allocate (.constant answer) selector context).1 = .ok identifier := by
  obtain ⟨-, made⟩ | ⟨_, -, ⟨-, made⟩ | ⟨-, made⟩⟩ := a.allocate_cases answer selector context
  · simp [made]
  · simp [made]
  · by_cases own : context.callIndex = i <;> simp [made, own, eq_comm]

/-- A name is given out exactly when the answer is one that the call site does not have. -/
theorem allocate_ok_iff : (a.allocate (.constant answer) selector context).1 = .ok identifier ↔
    answer = .text identifier ∧ identifier ≠ [] ∧ identifier ∉ a.issuedTo context.callIndex := by
  rw [← and_assoc, ← name?_eq_some]
  obtain ⟨name, made⟩ | ⟨known, name, ⟨taken, made⟩ | ⟨free, made⟩⟩ :=
    a.allocate_cases answer selector context
  · simp [made, name]
  · rw [made, name]
    refine iff_of_false (by simp) ?_
    rintro ⟨⟨⟩, free⟩
    exact free taken
  · rw [made, name]
    constructor
    · rintro ⟨⟩
      exact ⟨rfl, free⟩
    · rintro ⟨⟨⟩, -⟩
      rfl

/-- It fails exactly when the answer is no name or one that the call site has. -/
theorem allocate_error_iff {error : NamingError} :
    (a.allocate (.constant answer) selector context).1 = .error error ↔
      (error = .unusable answer selector ∧
          ∀ identifier, answer = .text identifier → identifier = []) ∨
        ∃ identifier, error = .taken identifier selector ∧ answer = .text identifier ∧
          identifier ≠ [] ∧ identifier ∈ a.issuedTo context.callIndex := by
  obtain ⟨name, made⟩ | ⟨known, name, ⟨taken, made⟩ | ⟨free, made⟩⟩ :=
    a.allocate_cases answer selector context
  · have unnamed : ∀ identifier, answer = .text identifier → identifier = [] := by
      intro identifier same
      by_contra some
      exact absurd (name?_eq_some.mpr ⟨same, some⟩) (by simp [name])
    rw [made]
    constructor
    · rintro ⟨⟩
      exact .inl ⟨rfl, unnamed⟩
    · rintro (⟨rfl, -⟩ | ⟨identifier, -, same, some, -⟩)
      · rfl
      · exact absurd (unnamed identifier same) some
  · obtain ⟨rfl, some⟩ := name?_eq_some.mp name
    rw [made]
    constructor
    · rintro ⟨⟩
      exact .inr ⟨known, rfl, rfl, some, taken⟩
    · rintro (⟨-, unnamed⟩ | ⟨_, rfl, ⟨⟩, -⟩)
      · exact absurd (unnamed known rfl) some
      · rfl
  · obtain ⟨rfl, some⟩ := name?_eq_some.mp name
    rw [made]
    refine iff_of_false (by simp) ?_
    rintro (⟨-, unnamed⟩ | ⟨_, -, ⟨⟩, -, taken⟩)
    · exact some (unnamed known rfl)
    · exact free taken

/-- A failure takes no name and gives none back. -/
theorem allocate_error_issuedTo {error : NamingError}
    (failed : (a.allocate (.constant answer) selector context).1 = .error error) :
    (a.allocate (.constant answer) selector context).2.issuedTo i = a.issuedTo i := by
  obtain ⟨-, made⟩ | ⟨_, -, ⟨-, made⟩ | ⟨-, made⟩⟩ := a.allocate_cases answer selector context
  · rw [made, issuedTo_counted]
  · rw [made, issuedTo_counted]
  · rw [made] at failed
    cases failed

end Allocator

/-- One allocation of a run: the inquiry, the allocator before it, what came of it, and the
allocator behind it. -/
structure Allocation where
  inquiry : Inquiry
  before : Allocator
  outcome : Except NamingError Text
  after : Allocator

/-- The allocations that inquiries lead to in turn, and the memory of the naming function
behind the last one. -/
def Allocator.allocations {σ : Type} (ask : Namer σ) :
    List Inquiry → Allocator → σ → List Allocation × σ
  | [], _, memory => ([], memory)
  | q :: rest, a, memory =>
    let made := (a.allocateM (fun selector context => ask ⟨selector, context⟩) q.selector
      q.context).run memory
    let others := allocations ask rest made.1.2 made.2
    (⟨q, a, made.1.1, made.1.2⟩ :: others.1, others.2)

namespace Allocation

/-- The answer of the naming function, as it shows in what came of it. -/
def answer (step : Allocation) : Answer :=
  match step.outcome with
  | .ok identifier | .error (.taken identifier _) => .text identifier
  | .error (.unusable answer _) => answer

def Gave (step : Allocation) (callIndex : Nat) (identifier : Text) : Prop :=
  step.inquiry.context.callIndex = callIndex ∧ step.outcome = .ok identifier

/-- How an allocation goes on from earlier ones, of which the first found the allocator `a`. -/
structure Follows (a : Allocator) (earlier : List Allocation) (step : Allocation) : Prop where
  sequence : step.before.sequence = a.sequence + earlier.length
  issued : ∀ i identifier, identifier ∈ step.before.issuedTo i ↔
    identifier ∈ a.issuedTo i ∨ ∃ e ∈ earlier, e.Gave i identifier
  made : step.before.allocate (.constant step.answer) step.inquiry.selector step.inquiry.context =
    (step.outcome, step.after)

end Allocation

namespace Allocator

variable {σ : Type} {ask : Namer σ} {a : Allocator} {memory : σ} {q : Inquiry}
  {inquiries rest : List Inquiry}

/-- One question is asked for an inquiry, and the memory behind it is what the others find. -/
theorem allocations_cons : allocations ask (q :: rest) a memory =
    let answer := (ask (q.numbered (a.sequence + 1))).run memory
    let made := a.allocate (.constant answer.1) q.selector q.context
    let others := allocations ask rest made.2 answer.2
    (⟨q, a, made.1, made.2⟩ :: others.1, others.2) := by
  rw [allocations, allocateM_eq]
  rfl

theorem answer_allocate {answer : Answer} : Allocation.answer
    ⟨q, a, (a.allocate (.constant answer) q.selector q.context).1,
      (a.allocate (.constant answer) q.selector q.context).2⟩ = answer := by
  obtain ⟨-, made⟩ | ⟨_, name, ⟨-, made⟩ | ⟨-, made⟩⟩ :=
    a.allocate_cases answer q.selector q.context
  · rw [made]
    rfl
  all_goals
    rw [made, (name?_eq_some.mp name).1]
    rfl

theorem allocations_inquiry :
    (allocations ask inquiries a memory).1.map Allocation.inquiry = inquiries := by
  induction inquiries generalizing a memory with
  | nil => rfl
  | cons q rest ih => simp only [allocations_cons, List.map_cons, ih]

/-- One question for every inquiry, in order, and each with its number. -/
theorem allocations_asked :
    ((inquiries.mapIdx fun k q => q.numbered (a.sequence + k + 1)).mapM ask).run memory =
      ((allocations ask inquiries a memory).1.map Allocation.answer,
        (allocations ask inquiries a memory).2) := by
  induction inquiries generalizing a memory with
  | nil => rfl
  | cons q rest ih =>
    let answer := (ask (q.numbered (a.sequence + 1))).run memory
    let made := a.allocate (.constant answer.1) q.selector q.context
    have number : made.2.sequence = a.sequence + 1 := allocate_sequence
    have counted : (fun k (q : Inquiry) => q.numbered (a.sequence + (k + 1) + 1)) =
        fun k q => q.numbered (made.2.sequence + k + 1) := by
      funext k q
      rw [number, Nat.add_right_comm a.sequence 1 k, Nat.add_assoc a.sequence k 1]
    simp only [List.mapIdx_cons, List.mapM_cons, StateT.run_bind, counted, allocations_cons,
      List.map_cons, answer_allocate]
    exact congrArg (fun others : List Answer × σ => (answer.1 :: others.1, others.2)) ih

/-- Every allocation goes on from those before it in the run. -/
theorem allocations_follow {earlier later : List Allocation} {step : Allocation}
    (split : (allocations ask inquiries a memory).1 = earlier ++ step :: later) :
    step.Follows a earlier := by
  induction inquiries generalizing a memory earlier with
  | nil => simp [allocations] at split
  | cons q rest ih =>
    rw [allocations_cons] at split
    cases earlier with
    | nil =>
      obtain ⟨rfl, -⟩ := List.cons.inj split
      exact ⟨rfl, by simp, by rw [answer_allocate]⟩
    | cons first earlier =>
      obtain ⟨rfl, others⟩ := List.cons.inj split
      obtain ⟨sequence, issued, made⟩ := ih others
      refine ⟨?_, fun i identifier => ?_, made⟩
      · rw [sequence, allocate_sequence, List.length_cons]
        omega
      · rw [issued, mem_issuedTo_allocate, or_assoc, List.exists_mem_cons_iff]
        exact Iff.rfl

/-- A name that a call site has is not given out for it again. -/
theorem allocations_unissued {step : Allocation}
    (member : step ∈ (allocations ask inquiries a memory).1) {i : Nat} {identifier : Text}
    (gave : step.Gave i identifier) : identifier ∉ a.issuedTo i := by
  obtain ⟨earlier, later, split⟩ := List.append_of_mem member
  obtain ⟨-, issued, made⟩ := allocations_follow split
  obtain ⟨rfl, granted⟩ := gave
  have fresh := (allocate_ok_iff.mp ((congrArg Prod.fst made).trans granted)).2.2
  exact fun known => fresh ((issued ..).mpr (.inl known))

/-- No name is given out twice for one call site. -/
theorem allocations_distinct : (allocations ask inquiries a memory).1.Pairwise
    fun first second => ∀ i identifier, first.Gave i identifier → ¬second.Gave i identifier := by
  induction inquiries generalizing a memory with
  | nil => exact .nil
  | cons q rest ih =>
    rw [allocations_cons]
    refine .cons (fun second member i identifier gave again => ?_) ih
    exact allocations_unissued member again (mem_issuedTo_allocate.mpr (.inr gave))

end Allocator

namespace Allocation

/-- What holds of an allocation behind `earlier` ones of a run. -/
structure Accounted (earlier : List Allocation) (step : Allocation) : Prop where
  /-- Whatever naming function gives this answer to the next question, this comes of it. -/
  made : ∀ naming : Naming,
    naming step.inquiry.selector
        { step.inquiry.context with sequence := earlier.length + 1 } = step.answer →
      step.before.allocate naming step.inquiry.selector step.inquiry.context =
        (step.outcome, step.after)
  /-- The names that a call site has are those that were given out for it. -/
  issued : ∀ i identifier, identifier ∈ step.before.issuedTo i ↔
    ∃ e ∈ earlier, e.Gave i identifier
  granted_iff : ∀ identifier, step.outcome = .ok identifier ↔
    step.answer = .text identifier ∧ identifier ≠ [] ∧
      ∀ e ∈ earlier, ¬e.Gave step.inquiry.context.callIndex identifier
  refused_iff : ∀ error, step.outcome = .error error ↔
    (error = .unusable step.answer step.inquiry.selector ∧
        ∀ identifier, step.answer = .text identifier → identifier = []) ∨
      ∃ identifier, error = .taken identifier step.inquiry.selector ∧
        step.answer = .text identifier ∧ identifier ≠ [] ∧
        ∃ e ∈ earlier, e.Gave step.inquiry.context.callIndex identifier
  kept : ∀ error, step.outcome = .error error →
    ∀ i, step.after.issuedTo i = step.before.issuedTo i

variable {earlier : List Allocation} {step : Allocation}

theorem Follows.accounted (follows : step.Follows .start earlier) : step.Accounted earlier := by
  obtain ⟨number, issued, made⟩ := follows
  simp only [Allocator.issuedTo_start, List.not_mem_nil, false_or] at issued
  have number : step.before.sequence = earlier.length := by simpa [Allocator.start] using number
  have named (naming : Naming)
      (same : naming step.inquiry.selector
        { step.inquiry.context with sequence := earlier.length + 1 } = step.answer) :
      step.before.allocate naming step.inquiry.selector step.inquiry.context =
        (step.outcome, step.after) :=
    (Allocator.allocate_constant (number ▸ same)).trans made
  have outcome := congrArg Prod.fst made
  have after := congrArg Prod.snd made
  simp only at outcome after
  refine ⟨named, issued, fun identifier => ?_, fun error => ?_, fun error failed i => ?_⟩
  · rw [← outcome, Allocator.allocate_ok_iff, issued]
    simp only [not_exists, not_and]
  · rw [← outcome, Allocator.allocate_error_iff]
    simp only [issued]
  · rw [← outcome] at failed
    rw [← after]
    exact Allocator.allocate_error_issuedTo failed

end Allocation

namespace Allocator

/-- Every allocator keeps account of every run, whatever the naming function is. -/
theorem allocations_accounted {σ : Type} (ask : Namer σ) (memory : σ) (inquiries : List Inquiry) :
    let run := allocations ask inquiries .start memory
    run.1.map Allocation.inquiry = inquiries ∧
      ((inquiries.mapIdx fun k q => q.numbered (k + 1)).mapM ask).run memory =
        (run.1.map Allocation.answer, run.2) ∧
      (∀ earlier step later, run.1 = earlier ++ step :: later → step.Accounted earlier) ∧
      run.1.Pairwise fun first second =>
        ∀ i identifier, first.Gave i identifier → ¬second.Gave i identifier := by
  intro run
  have asked := @allocations_asked σ ask .start memory inquiries
  have first : start.sequence = 0 := rfl
  simp only [first, Nat.zero_add] at asked
  exact ⟨allocations_inquiry, asked, fun _ _ _ split => (allocations_follow split).accounted,
    allocations_distinct⟩

/-- One name for everything is refused where it is in use, and the refused question counts. -/
example :
    let same : Namer (List Nat) := fun q => do
      modify fun asked => asked ++ [q.context.sequence]
      return .text (text "a")
    let inquiry (callIndex : Nat) : Inquiry := ⟨text "b", ⟨callIndex, 0, [], none⟩⟩
    let run := allocations same [inquiry 0, inquiry 0, inquiry 1] .start []
    run.1.map Allocation.outcome =
        [.ok (text "a"), .error (.taken (text "a") (text "b")), .ok (text "a")] ∧
      run.2 = [1, 2, 3] :=
  ⟨rfl, rfl⟩

end Allocator

end StyleSplit
