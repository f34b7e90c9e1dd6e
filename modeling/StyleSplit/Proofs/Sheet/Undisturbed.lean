import StyleSplit.Proofs.Sheet.Allocating
import StyleSplit.Sheet.Session

/-! Call sites do not disturb each other. All that one request leaves for another is the number
of allocations and the names given out. The names of other call sites are never looked at, and
the number is seen by the naming function alone; when that does not read it, two allocators
that gave the same names to a call site cannot be told apart there, and they stay so. -/
namespace StyleSplit

/-- Answers do not depend on the number of the allocation. -/
def Naming.Numberless (naming : Naming) : Prop :=
  ∀ selector (context : CallContext) n,
    naming selector { context with sequence := n } = naming selector context

def Request.callIndex : Request → Nat
  | .allocate _ callIndex | .compile _ callIndex => callIndex

namespace Allocator

variable {a b : Allocator} {naming : Naming} {selector : Text} {context : CallContext} {i : Nat}

/-- What comes of an inquiry depends on the names of its call site only, and so do the names
that it has afterwards. -/
theorem allocate_agree (answer : Answer) (selector : Text)
    (agree : a.issuedTo context.callIndex = b.issuedTo context.callIndex) :
    (a.allocate (.constant answer) selector context).1 =
        (b.allocate (.constant answer) selector context).1 ∧
      (a.allocate (.constant answer) selector context).2.issuedTo context.callIndex =
        (b.allocate (.constant answer) selector context).2.issuedTo context.callIndex := by
  rw [allocate_eq, allocate_eq, agree]
  cases name? answer with
  | none => exact ⟨rfl, agree⟩
  | some identifier =>
    simp only
    split
    · exact ⟨rfl, agree⟩
    · exact ⟨rfl, by rw [issuedTo_issue, issuedTo_issue, agree]⟩

/-- An inquiry for one call site gives no name to another. -/
theorem allocate_elsewhere (other : context.callIndex ≠ i) :
    (a.allocate naming selector context).2.issuedTo i = a.issuedTo i := by
  rw [allocate_constant rfl, allocate_eq]
  split
  · rfl
  split
  · rfl
  · simp [other]

/-- A naming function that does not read numbers gives the same answer to every allocator. -/
theorem allocate_numberless (numberless : naming.Numberless) :
    a.allocate naming selector context =
      a.allocate (.constant (naming selector context)) selector context :=
  allocate_constant (numberless ..)

end Allocator

namespace Compiler

variable {c : Compiler} {a b : Allocator} {context : CallContext} {rules : Rules}
  {blocks : List Text} {classes : List (Text × Text)} {i : Nat}

/-- Rules are compiled alike by allocators that agree on the call site, and these agree on it
afterwards, also when the compilation fails. -/
theorem compileRules_agree (numberless : c.naming.Numberless) (rules : Rules)
    (blocks : List Text) (classes : List (Text × Text))
    (agree : a.issuedTo context.callIndex = b.issuedTo context.callIndex) :
    (c.compileRules context rules blocks classes a).1 =
        (c.compileRules context rules blocks classes b).1 ∧
      (c.compileRules context rules blocks classes a).2.issuedTo context.callIndex =
        (c.compileRules context rules blocks classes b).2.issuedTo context.callIndex := by
  induction rules generalizing blocks classes a b with
  | nil => exact ⟨rfl, agree⟩
  | cons rule rest ih =>
    obtain ⟨selector, properties⟩ := rule
    obtain ⟨outcome, next⟩ :=
      Allocator.allocate_agree (c.naming selector context) selector agree
    simp only [compileRules, Allocator.allocate_numberless numberless]
    generalize a.allocate (.constant (c.naming selector context)) selector context = made at *
    generalize b.allocate (.constant (c.naming selector context)) selector context = made' at *
    obtain ⟨made, a'⟩ := made
    obtain ⟨_, b'⟩ := made'
    obtain rfl := outcome
    cases made with
    | error error => exact ⟨rfl, next⟩
    | ok identifier =>
      simp only
      split
      · exact ih _ _ next
      split
      · exact ⟨rfl, next⟩
      · exact ih _ _ next

/-- Compiling the rules of one call site gives no name to another. -/
theorem compileRules_elsewhere (other : context.callIndex ≠ i) :
    (c.compileRules context rules blocks classes a).2.issuedTo i = a.issuedTo i := by
  induction rules generalizing blocks classes a with
  | nil => rfl
  | cons rule rest ih =>
    obtain ⟨selector, properties⟩ := rule
    have next : (a.allocate c.naming selector context).2.issuedTo i = a.issuedTo i :=
      Allocator.allocate_elsewhere other
    unfold compileRules
    generalize a.allocate c.naming selector context = made at *
    obtain ⟨_ | identifier, a'⟩ := made
    · exact next
    simp only
    split
    · exact ih.trans next
    split
    · exact next
    · exact ih.trans next

/-- Watching plugins are shown the same rules. -/
theorem watched_go_agree (numberless : c.naming.Numberless) (rules : Rules)
    (agree : a.issuedTo context.callIndex = b.issuedTo context.callIndex) :
    watched.go c context rules a = watched.go c context rules b := by
  induction rules generalizing a b with
  | nil => rfl
  | cons rule rest ih =>
    obtain ⟨selector, properties⟩ := rule
    obtain ⟨outcome, next⟩ :=
      compileRules_agree numberless [(selector, properties)] [] [] agree
    simp only [watched.go]
    generalize c.compileRules context [(selector, properties)] [] [] a = made at *
    generalize c.compileRules context [(selector, properties)] [] [] b = made' at *
    obtain ⟨made, a'⟩ := made
    obtain ⟨_, b'⟩ := made'
    obtain rfl := outcome
    cases made with
    | error error => rfl
    | ok sheet => simp only [ih next]

/-- A request is answered alike by allocators that agree on its call site. -/
theorem reply_agree (numberless : c.naming.Numberless) (request : Request)
    (agree : a.issuedTo request.callIndex = b.issuedTo request.callIndex) :
    (c.reply a request).1 = (c.reply b request).1 := by
  cases request with
  | allocate selector callIndex =>
    have agree : a.issuedTo (c.context callIndex).callIndex =
      b.issuedTo (c.context callIndex).callIndex := agree
    have same :=
      (Allocator.allocate_agree (c.naming selector (c.context callIndex)) selector agree).1
    simp only [reply, Allocator.allocate_numberless numberless, same]
  | compile rules callIndex =>
    have agree : a.issuedTo (c.context callIndex).callIndex =
      b.issuedTo (c.context callIndex).callIndex := agree
    have same := (compileRules_agree numberless rules [] [] agree).1
    simp only [reply, compile, watched, same, watched_go_agree numberless rules agree]

/-- A request for one call site gives no name to another. -/
theorem reply_elsewhere {request : Request} (other : request.callIndex ≠ i) :
    (c.reply a request).2.issuedTo i = a.issuedTo i := by
  cases request with
  | allocate selector callIndex => exact Allocator.allocate_elsewhere other
  | compile rules callIndex => exact compileRules_elsewhere other

/-- The allocator behind requests answered in turn. -/
def after (c : Compiler) (a : Allocator) (requests : List Request) : Allocator :=
  requests.foldl (fun a request => (c.reply a request).2) a

/-- A history of requests for other call sites gives no name to a call site. -/
theorem after_elsewhere {history : List Request}
    (others : ∀ request ∈ history, request.callIndex ≠ i) :
    (c.after a history).issuedTo i = a.issuedTo i := by
  induction history generalizing a with
  | nil => rfl
  | cons request rest ih =>
    obtain ⟨other, others⟩ := List.forall_mem_cons.mp others
    exact (ih others).trans (reply_elsewhere other)

/-- Requests for different call sites are answered as if each were the only one. -/
theorem replies_eq_map (numberless : c.naming.Numberless) {requests : List Request}
    (distinct : (requests.map Request.callIndex).Nodup) :
    c.replies a requests = requests.map fun request => (c.reply a request).1 := by
  induction requests generalizing a with
  | nil => rfl
  | cons request rest ih =>
    obtain ⟨apart, distinct⟩ := List.nodup_cons.mp distinct
    rw [replies, List.map_cons]
    simp only [ih distinct]
    congr 1
    refine List.map_congr_left fun later member => reply_agree numberless later ?_
    exact reply_elsewhere fun same => apart (same ▸ List.mem_map_of_mem member)

/-- With a naming function that does not read numbers, a call site is compiled as by a fresh
compiler after any history of requests for other call sites, those that failed included; and
requests for different call sites are each answered as if it were the only one, in whatever
order they come. -/
theorem requests_undisturbed (numberless : c.naming.Numberless) :
    (∀ history callIndex, (∀ request ∈ history, request.callIndex ≠ callIndex) → ∀ rules,
        (c.compile rules callIndex (c.after .start history)).1 =
          (c.compile rules callIndex .start).1) ∧
      ∀ requests, (requests.map Request.callIndex).Nodup →
        c.replies .start requests = requests.map (fun request => (c.reply .start request).1) ∧
        ∀ reordered : List Request, requests.Perm reordered →
          (requests.zip (c.replies .start requests)).Perm
            (reordered.zip (c.replies .start reordered)) := by
  refine ⟨fun history callIndex others rules => ?_, fun requests distinct => ?_⟩
  · exact (compileRules_agree numberless rules [] [] (after_elsewhere others)).1
  · refine ⟨replies_eq_map numberless distinct, fun reordered perm => ?_⟩
    have distinct' := (perm.map Request.callIndex).nodup_iff.mp distinct
    rw [replies_eq_map numberless distinct, replies_eq_map numberless distinct']
    rw [← List.map_prod_left_eq_zip, ← List.map_prod_left_eq_zip]
    exact perm.map _

/-- First letters as class names, under which a second selector with one letter fails. -/
def initials : Compiler :=
  { naming := .initial, plugins := [], classPrefix := none, filename := [] }

theorem initials_numberless : initials.naming.Numberless := fun _ _ _ => rfl

theorem requests_undisturbed_failing :
    let failing : Request := .compile [(text "ab", []), (text "ac", [])] 0
    let request : Request := .compile [(text "ad", [])] 1
    initials.naming.Numberless ∧
      (initials.compile [(text "ab", []), (text "ac", [])] 0 .start).1 =
        .error (.naming (.taken (text "a") (text "ac"))) ∧
      (initials.after .start [failing]).issued = [(0, text "a")] ∧
      (initials.compile [(text "ad", [])] 1 (initials.after .start [failing])).1 =
        (initials.compile [(text "ad", [])] 1 .start).1 ∧
      ([failing, request].zip (initials.replies .start [failing, request])).Perm
        ([request, failing].zip (initials.replies .start [request, failing])) := by
  intro failing request
  obtain ⟨after, together⟩ := requests_undisturbed initials_numberless
  have apart : ∀ earlier ∈ [failing], earlier.callIndex ≠ 1 := by simp [failing, Request.callIndex]
  have distinct : ([failing, request].map Request.callIndex).Nodup := by decide
  exact ⟨initials_numberless, rfl, rfl, after [failing] 1 apart _,
    (together [failing, request] distinct).2 [request, failing] (.swap ..)⟩

end Compiler

end StyleSplit
