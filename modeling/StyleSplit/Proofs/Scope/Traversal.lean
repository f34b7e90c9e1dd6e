import StyleSplit.Proofs.Scope.Around

/-! The order in which a script declares names. A traversal comes by the beginnings and ends
of scopes and by declarations, every declarator before its initial value; a `var` belongs to
the innermost function around it, or to the script. The scopes of a script hold what is
declared in them in that order. -/
namespace StyleSplit

open Script

namespace Script

/-- The declaration of a name, wherever it belongs. -/
structure Declaration where
  name : Text
  kind : BindingKind
  init : Option Expr
  span : Span

/-- What a scope that has no such name makes of a declaration. -/
def Declaration.binding (d : Declaration) : Binding := ⟨d.name, d.kind, d.init, d.span, false⟩

@[simp] theorem Declaration.binding_name (d : Declaration) : d.binding.name = d.name := rfl

@[simp] theorem Declaration.binding_reassigned (d : Declaration) : d.binding.reassigned = false :=
  rfl

theorem Declaration.binding_eq_iff {d : Declaration} {b : Binding} {marked : Bool} :
    { d.binding with reassigned := marked } = b ↔ d.name = b.name ∧ b.kind = d.kind ∧
      b.init = d.init ∧ b.span = d.span ∧ b.reassigned = marked := by
  cases b
  simp [binding, eq_comm]

/-- What a traversal comes by, as far as declarations go. -/
inductive Event where
  /-- A scope begins, of a function or inside of one. -/
  | enter (isFunction : Bool)
  /-- A name is declared, for the function around if it is hoisted. -/
  | declare (hoisted : Bool) (d : Declaration)
  /-- The scope ends. -/
  | leave

namespace Event

def declareAll (hoisted : Bool) (names : List Text) (kind : BindingKind) (init : Option Expr)
    (span : Span) : List Event :=
  names.map fun name => .declare hoisted ⟨name, kind, init, span⟩

def framed (isFunction : Bool) (inside : List Event) : List Event :=
  .enter isFunction :: (inside ++ [.leave])

/-- The names of a declarator, those of a pattern without a value. -/
def ofTarget (kind : VariableKind) : Declarator → List Event
  | .mk span names init pattern =>
    if pattern then declareAll (kind == .var) names .parameter none span
    else declareAll (kind == .var) names (ScopeDraft.bindingKind kind) init span

mutual

def ofExpr : Expr → List Event
  | .literal .. | .identifier .. => []
  | .list _ items => ofItems items
  | .mapping _ entries => ofEntries entries
  | .function span name parameters body =>
    let own := Expr.function span name parameters body
    framed true (declareAll false name.toList .function (some own) span ++
      declareAll false parameters .parameter none span ++ ofBody body)
  | .call _ callee arguments _ _ => ofExpr callee ++ ofItems arguments
  | .other _ children _ _ => ofParts children

def ofEntry : Entry → List Event
  | .mk _ (some key) value true _ => ofExpr key ++ ofExpr value
  | .mk _ _ value _ _ => ofExpr value

def ofPart : Part → List Event
  | .expr e => ofExpr e
  | .stmt s => ofStmt s

def ofInit : Declarator → List Event
  | .mk _ _ (some init) _ => ofExpr init
  | .mk _ _ none _ => []

def ofStmt : Stmt → List Event
  | .declaration _ kind declarators => ofDeclarators kind declarators
  | .function span name definition =>
    .declare false ⟨name, .function, some definition, span⟩ :: ofExpr definition
  | .class_ span name body => .declare false ⟨name, .class_, none, span⟩ :: ofExpr body
  | .imports span names => declareAll false names .import_ none span
  | .expression _ e => ofExpr e
  | .block _ body => framed false (ofBody body)
  | .control _ children => framed false (ofParts children)

def ofItems : List Expr → List Event
  | [] => []
  | e :: rest => ofExpr e ++ ofItems rest

def ofEntries : List Entry → List Event
  | [] => []
  | e :: rest => ofEntry e ++ ofEntries rest

def ofParts : List Part → List Event
  | [] => []
  | p :: rest => ofPart p ++ ofParts rest

/-- The traversal of declarators, each before its initial value. -/
def ofDeclarators (kind : VariableKind) : List Declarator → List Event
  | [] => []
  | t :: rest => ofTarget kind t ++ (ofInit t ++ ofDeclarators kind rest)

def ofBody : List Stmt → List Event
  | [] => []
  | s :: rest => ofStmt s ++ ofBody rest

end

/-- An open scope: its number, and that of the scope to which a `var` in it belongs. -/
structure Open where
  id : Nat
  home : Nat

/-- The declarations of a traversal with the scopes to which they belong. Scopes are numbered
as they begin; the traversal goes on in the scope `here`, with the scopes `around` it open. -/
def declared (next : Nat) (here : Open) (around : List Open) :
    List Event → List (Nat × Declaration)
  | [] => []
  | .enter isFunction :: rest =>
    declared (next + 1) ⟨next, if isFunction then next else here.home⟩ (here :: around) rest
  | .declare hoisted d :: rest =>
    (if hoisted then here.home else here.id, d) :: declared next here around rest
  | .leave :: rest =>
    match around with
    | [] => []
    | outer :: more => declared next outer more rest

end Event

/-- All declarations of a script in the order of its traversal, with the number of the scope
to which each belongs. The scope of the script itself has the number 0. -/
def declarations (s : StyleSplit.Script) : List (Nat × Declaration) :=
  Event.declared 1 ⟨0, 0⟩ [] (Event.ofBody s.body)

end Script

namespace Scope

variable {scopes scopes' : List Scope} {test : Scope → Bool} {fuel id k : Nat}

/-- The scope to which a `var` in the scope `id` belongs. -/
def home (scopes : List Scope) (id : Nat) : Nat :=
  (innermost? scopes (fun s => s.isFunction || s.parent.isNone) (id + 1) id).getD id

/-- Only the parents of scopes that a search comes by matter to it, and whether they satisfy
the test. -/
theorem innermost?_congr (inside : Nat → Prop) (here : inside id)
    (outside : ∀ k outer, inside k → (parents scopes)[k]? = some (some outer) → inside outer)
    (same : ∀ k, inside k → (scopes[k]?).map (fun s => (s.parent, test s)) =
      (scopes'[k]?).map fun s => (s.parent, test s)) :
    innermost? scopes test fuel id = innermost? scopes' test fuel id := by
  induction fuel generalizing id with
  | zero => rfl
  | succ fuel ih =>
    have first := same id here
    unfold innermost?
    cases found : scopes[id]? with
    | none =>
      rw [found, Option.map_none, eq_comm, Option.map_eq_none_iff] at first
      rw [first]
    | some s =>
      rw [found, Option.map_some, eq_comm, Option.map_eq_some_iff] at first
      obtain ⟨s', found', first⟩ := first
      obtain ⟨parent, tested⟩ := Prod.mk.inj first
      rw [found']
      simp only [parent, tested]
      split
      · rfl
      · cases within : s.parent with
        | none => rfl
        | some outer => exact ih (outside id outer here (by simp [parents, found, within]))

/-- The scope to which a `var` belongs is not further in. -/
theorem exists_home (descending : Descending (parents scopes)) (known : id < scopes.length)
    (enough : id < fuel) :
    ∃ h ≤ id, innermost? scopes (fun s => s.isFunction || s.parent.isNone) fuel id = some h := by
  induction fuel generalizing id with
  | zero => omega
  | succ fuel ih =>
    have found := List.getElem?_eq_getElem known
    unfold innermost?
    rw [found]
    simp only
    split
    · exact ⟨id, Nat.le_refl _, rfl⟩
    · rename_i inside
      cases within : scopes[id].parent with
      | none => simp [within] at inside
      | some outer =>
        have lower : outer < id := descending id outer (by simp [parents, found, within])
        obtain ⟨h, below, same⟩ := @ih outer (by omega) (by omega)
        exact ⟨h, by omega, same⟩

theorem home_le (descending : Descending (parents scopes)) (known : id < scopes.length) :
    home scopes id ≤ id := by
  obtain ⟨h, below, found⟩ := exists_home descending known (Nat.lt_succ_self id)
  rw [home, found]
  exact below

/-- A declaration does not change where other ones belong. -/
theorem home_modify (scopes : List Scope) (target : Nat) (b : Binding) (id : Nat) :
    home (scopes.modify target (·.declare b)) id = home scopes id := by
  refine congrArg (Option.getD · id) (innermost?_congr (fun _ => True) trivial
    (fun _ _ _ _ => trivial) fun k _ => ?_).symm
  rw [List.getElem?_modify]
  cases scopes[k]? with
  | none => rfl
  | some s => by_cases here : target = k <;> simp [here, Scope.declare]

/-- New scopes do not change where a declaration in an old one belongs. -/
theorem home_append (descending : Descending (parents scopes)) (known : id < scopes.length)
    (new : Scope) : home (scopes ++ [new]) id = home scopes id := by
  refine congrArg (Option.getD · id) (innermost?_congr (· < scopes.length) known
    (fun k outer bound parent => Nat.lt_trans (descending k outer parent) bound)
    fun k bound => ?_).symm
  rw [List.getElem?_append_left bound]

theorem descending_enter (descending : Descending (parents scopes)) (known : id < scopes.length)
    (isFunction : Bool) : Descending (parents (scopes ++ [⟨some id, isFunction, []⟩])) := by
  have bound : id < (parents scopes).length := by simpa [parents] using known
  simpa [parents] using descending.concat bound

/-- In a new scope a `var` belongs to that scope, if it is one of a function, or belongs where
it does around that scope. -/
theorem home_enter (descending : Descending (parents scopes)) (known : id < scopes.length)
    (isFunction : Bool) : home (scopes ++ [⟨some id, isFunction, []⟩]) scopes.length =
      if isFunction then scopes.length else home scopes id := by
  have whole := descending_enter descending known isFunction
  rw [← home_append descending known ⟨some id, isFunction, []⟩]
  have longer : id < (scopes ++ [(⟨some id, isFunction, []⟩ : Scope)]).length := by
    rw [List.length_append]
    omega
  obtain ⟨h, -, found⟩ := exists_home whole longer known
  obtain ⟨h', -, found'⟩ := exists_home whole longer (Nat.lt_succ_self id)
  have same : h = h' := by
    rw [innermost?_eq, around_fuel whole known (Nat.lt_succ_self id), ← innermost?_eq] at found
    exact Option.some.inj (found.symm.trans found')
  rw [home, home, innermost?, List.getElem?_concat_length, found', same.symm]
  cases isFunction with
  | true => simp
  | false => simp [found]

end Scope

namespace Script.Event

open ScopeDraft

/-- What a traversal makes of some scopes, in the scope `id` with those `around` it open. -/
def play (scopes : List Scope) (id : Nat) (around : List Nat) : List Event → List Scope
  | [] => scopes
  | .enter isFunction :: rest =>
    play (scopes ++ [⟨some id, isFunction, []⟩]) scopes.length (id :: around) rest
  | .declare hoisted d :: rest =>
    let target := if hoisted then Scope.home scopes id else id
    play (scopes.modify target (·.declare d.binding)) id around rest
  | .leave :: rest =>
    match around with
    | [] => scopes
    | outer :: more => play scopes outer more rest

variable (d : ScopeDraft) (id : Nat) (around : List Nat) (rest : List Event)

theorem play_framed (isFunction : Bool) (inside : List Event) :
    play d.scopes id around (framed isFunction inside ++ rest) =
      play (d.enter id isFunction).2.scopes d.scopes.length (id :: around)
        (inside ++ (.leave :: rest)) := by
  rw [framed, List.cons_append, List.append_assoc, List.singleton_append]
  rfl

theorem play_declareAll (names : List Text) (kind : BindingKind) (init : Option Expr)
    (span : Span) : play d.scopes id around (declareAll false names kind init span ++ rest) =
      play (d.declareAll id names kind init span).scopes id around rest := by
  induction names generalizing d with
  | nil => rfl
  | cons name more ih => exact ih (d.declare id _)

/-- Names that are hoisted together belong to the same scope. -/
theorem play_hoistAll (names : List Text) (kind : BindingKind) (init : Option Expr) (span : Span) :
    play d.scopes id around (declareAll true names kind init span ++ rest) =
      play (d.declareAll (d.functionScope id) names kind init span).scopes id around rest := by
  have same (names : List Text) (d' : ScopeDraft)
      (home : Scope.home d'.scopes id = d.functionScope id) :
      play d'.scopes id around (declareAll true names kind init span ++ rest) =
        play (d'.declareAll (d.functionScope id) names kind init span).scopes id around rest := by
    induction names generalizing d' with
    | nil => rfl
    | cons name more ih =>
      have next := ih (d'.declare (d.functionScope id) ⟨name, kind, init, span, false⟩)
        (by rw [ScopeDraft.declare, Scope.home_modify, home])
      rw [declareAll, List.map_cons, List.cons_append, play, home]
      exact next
  exact same names d rfl

theorem play_ofTarget (kind : VariableKind) (t : Declarator) :
    play d.scopes id around (ofTarget kind t ++ rest) =
      play (d.declareTarget id kind t).scopes id around rest := by
  obtain ⟨span, names, init, pattern⟩ := t
  cases kind <;> cases pattern <;>
    first | exact play_declareAll d id around rest .. | exact play_hoistAll d id around rest ..

mutual

theorem play_ofExpr (id : Nat) (around : List Nat) (rest : List Event) :
    ∀ (e : Expr) (d : ScopeDraft),
      play d.scopes id around (ofExpr e ++ rest) = play (addExpr id e d).scopes id around rest
  | .literal .., _ | .identifier .., _ => rfl
  | .list _ items, d => play_ofItems id around rest items d
  | .mapping _ entries, d => play_ofEntries id around rest entries d
  | .function _ _ parameters body, d => by
    rw [ofExpr, play_framed, List.append_assoc, List.append_assoc, play_declareAll,
      play_declareAll, play_ofBody, play]
    rfl
  | .call _ callee arguments _ _, d => by
    rw [ofExpr, List.append_assoc, play_ofExpr, play_ofItems]
    rfl
  | .other _ children assigns _, d => play_ofParts id around rest children (d.assign id assigns)

theorem play_ofEntry (id : Nat) (around : List Nat) (rest : List Event) :
    ∀ (e : Entry) (d : ScopeDraft),
      play d.scopes id around (ofEntry e ++ rest) = play (addEntry id e d).scopes id around rest
  | .mk _ (some key) value true _, d => by
    rw [ofEntry, List.append_assoc, play_ofExpr, play_ofExpr]
    rfl
  | .mk _ (some _) value false _, d | .mk _ none value _ _, d => play_ofExpr id around rest value d

theorem play_ofPart (id : Nat) (around : List Nat) (rest : List Event) :
    ∀ (p : Part) (d : ScopeDraft),
      play d.scopes id around (ofPart p ++ rest) = play (addPart id p d).scopes id around rest
  | .expr e, d => play_ofExpr id around rest e d
  | .stmt s, d => play_ofStmt id around rest s d

theorem play_ofInit (id : Nat) (around : List Nat) (rest : List Event) :
    ∀ (t : Declarator) (d : ScopeDraft),
      play d.scopes id around (ofInit t ++ rest) = play (addInit id t d).scopes id around rest
  | .mk _ _ (some init) _, d => play_ofExpr id around rest init d
  | .mk _ _ none _, _ => rfl

theorem play_ofStmt (id : Nat) (around : List Nat) (rest : List Event) :
    ∀ (s : Stmt) (d : ScopeDraft),
      play d.scopes id around (ofStmt s ++ rest) = play (addStmt id s d).scopes id around rest
  | .declaration _ kind declarators, d => play_ofDeclarators id around rest kind declarators d
  | .function _ _ definition, d => play_ofExpr id around rest definition (d.declare id _)
  | .class_ _ _ body, d => play_ofExpr id around rest body (d.declare id _)
  | .imports _ names, d => play_declareAll d id around rest names _ _ _
  | .expression _ e, d => play_ofExpr id around rest e d
  | .block _ body, d => by
    rw [ofStmt, play_framed, play_ofBody, play]
    rfl
  | .control _ children, d => by
    rw [ofStmt, play_framed, play_ofParts, play]
    rfl

theorem play_ofItems (id : Nat) (around : List Nat) (rest : List Event) :
    ∀ (items : List Expr) (d : ScopeDraft),
      play d.scopes id around (ofItems items ++ rest) =
        play (addItems id items d).scopes id around rest
  | [], _ => rfl
  | e :: more, d => by
    rw [ofItems, List.append_assoc, play_ofExpr, play_ofItems]
    rfl

theorem play_ofEntries (id : Nat) (around : List Nat) (rest : List Event) :
    ∀ (entries : List Entry) (d : ScopeDraft),
      play d.scopes id around (ofEntries entries ++ rest) =
        play (addEntries id entries d).scopes id around rest
  | [], _ => rfl
  | e :: more, d => by
    rw [ofEntries, List.append_assoc, play_ofEntry, play_ofEntries]
    rfl

theorem play_ofParts (id : Nat) (around : List Nat) (rest : List Event) :
    ∀ (parts : List Part) (d : ScopeDraft),
      play d.scopes id around (ofParts parts ++ rest) =
        play (addParts id parts d).scopes id around rest
  | [], _ => rfl
  | p :: more, d => by
    rw [ofParts, List.append_assoc, play_ofPart, play_ofParts]
    rfl

theorem play_ofDeclarators (id : Nat) (around : List Nat) (rest : List Event)
    (kind : VariableKind) : ∀ (declarators : List Declarator) (d : ScopeDraft),
      play d.scopes id around (ofDeclarators kind declarators ++ rest) =
        play (addDeclarators id kind declarators d).scopes id around rest
  | [], _ => rfl
  | t :: more, d => by
    rw [ofDeclarators, List.append_assoc, List.append_assoc, play_ofTarget, play_ofInit,
      play_ofDeclarators]
    rfl

theorem play_ofBody (id : Nat) (around : List Nat) (rest : List Event) :
    ∀ (body : List Stmt) (d : ScopeDraft),
      play d.scopes id around (ofBody body ++ rest) = play (addBody id body d).scopes id around rest
  | [], _ => rfl
  | s :: more, d => by
    rw [ofBody, List.append_assoc, play_ofStmt, play_ofBody]
    rfl

end

/-- The declarations among some that belong to the scope of a number. -/
def belonging (id : Nat) (all : List (Nat × Declaration)) : List Declaration :=
  (all.filter (·.1 == id)).map Prod.snd

/-- Some scopes with declarations added to them in order, and new scopes of which nothing else
is declared. -/
def Grown (scopes : List Scope) (all : List (Nat × Declaration)) (scopes' : List Scope) : Prop :=
  ∀ id s', scopes'[id]? = some s' →
    ∃ s, (scopes[id]? = some s ∨ scopes.length ≤ id ∧ s.bindings = []) ∧
      s' = ((belonging id all).map Declaration.binding).foldl Scope.declare s

variable {scopes scopes' : List Scope} {all : List (Nat × Declaration)}

theorem Grown.enter (new : Scope) (empty : new.bindings = [])
    (grown : Grown (scopes ++ [new]) all scopes') : Grown scopes all scopes' := by
  intro id s' found
  obtain ⟨s, before, same⟩ := grown id s' found
  refine ⟨s, ?_, same⟩
  rcases before with known | ⟨later, none⟩
  · rw [List.getElem?_append] at known
    split at known
    · exact .inl known
    · rename_i bound
      obtain rfl := List.mem_singleton.mp (List.mem_of_getElem? known)
      exact .inr ⟨Nat.le_of_not_lt bound, empty⟩
  · rw [List.length_append] at later
    exact .inr ⟨by omega, none⟩

theorem Grown.declare {target : Nat} (known : target < scopes.length) {d : Declaration}
    (grown : Grown (scopes.modify target (·.declare d.binding)) all scopes') :
    Grown scopes ((target, d) :: all) scopes' := by
  intro id s' found
  obtain ⟨s, before, rfl⟩ := grown id s' found
  rw [List.getElem?_modify, List.length_modify] at before
  unfold belonging
  by_cases here : target = id
  · subst here
    rw [List.filter_cons_of_pos (by simp)]
    rcases before with declared | ⟨later, -⟩
    · obtain ⟨old, first, rfl⟩ := Option.map_eq_some_iff.mp declared
      exact ⟨old, .inl first, by simp⟩
    · omega
  · rw [List.filter_cons_of_neg (by simpa using here)]
    exact ⟨s, by simpa [here] using before, rfl⟩

/-- An open scope is one of some scopes, with its home among them. -/
def Open.Known (scopes : List Scope) (o : Open) : Prop :=
  o.id < scopes.length ∧ Scope.home scopes o.id = o.home

/-- A traversal adds to the scopes what it declares, each declaration to the scope to which it
belongs. -/
theorem grown_play (events : List Event) (scopes : List Scope) (here : Open) (around : List Open)
    (descending : Scope.Descending (Scope.parents scopes))
    (known : ∀ o ∈ here :: around, o.Known scopes) :
    Grown scopes (declared scopes.length here around events)
      (play scopes here.id (around.map Open.id) events) := by
  induction events generalizing scopes here around with
  | nil => exact fun id s found => ⟨s, .inl found, rfl⟩
  | cons event rest ih =>
    obtain ⟨bound, home⟩ := known here List.mem_cons_self
    cases event with
    | enter isFunction =>
      refine Grown.enter ⟨some here.id, isFunction, []⟩ rfl ?_
      have grown := ih (scopes ++ [⟨some here.id, isFunction, []⟩])
        ⟨scopes.length, if isFunction then scopes.length else here.home⟩ (here :: around)
        (Scope.descending_enter descending bound isFunction) ?_
      · rwa [List.length_append] at grown
      intro o member
      rcases List.mem_cons.mp member with rfl | member
      · refine ⟨by simp, ?_⟩
        rw [Scope.home_enter descending bound, home]
      · obtain ⟨bound, home⟩ := known o member
        refine ⟨by rw [List.length_append]; omega, ?_⟩
        rw [Scope.home_append descending bound, home]
    | declare hoisted d =>
      have target : (if hoisted then here.home else here.id) < scopes.length := by
        have below := Scope.home_le descending bound
        split <;> omega
      rw [play, home]
      refine Grown.declare target ?_
      have grown := ih
        (scopes.modify (if hoisted then here.home else here.id) (·.declare d.binding)) here around
        (by rwa [Scope.parents_modify (·.declare _) (fun _ => rfl)]) fun o member => ?_
      · rwa [List.length_modify] at grown
      · obtain ⟨bound, home⟩ := known o member
        exact ⟨by rwa [List.length_modify], by rwa [Scope.home_modify]⟩
    | leave =>
      cases around with
      | nil => exact fun id s found => ⟨s, .inl found, rfl⟩
      | cons outer more =>
        exact ih scopes outer more descending fun o member =>
          known o (List.mem_cons_of_mem _ member)

end Script.Event

namespace Script

/-- Before assignments are looked at, a scope holds what belongs to it, declared in the order
of the traversal. -/
theorem scopes_addBody (s : StyleSplit.Script) {id : Nat} {scope : Scope}
    (found : (ScopeDraft.addBody 0 s.body firstDraft).scopes[id]? = some scope) :
    ∃ empty : Scope, empty.bindings = [] ∧
      scope = ((Event.belonging id s.declarations).map Declaration.binding).foldl
        Scope.declare empty := by
  have played := Event.play_ofBody 0 [] [] s.body firstDraft
  rw [List.append_nil] at played
  have home : Scope.home firstDraft.scopes 0 = 0 := rfl
  have grown := Event.grown_play (Event.ofBody s.body) firstDraft.scopes ⟨0, 0⟩ []
    descending_firstDraft fun o member => by
      obtain rfl := List.mem_singleton.mp member
      exact ⟨Nat.one_pos, home⟩
  obtain ⟨empty, start, rfl⟩ := grown id scope ((congrArg (·[id]?) played).trans found)
  refine ⟨empty, ?_, rfl⟩
  rcases start with first | ⟨-, none⟩
  · rw [List.mem_singleton.mp (List.mem_of_getElem? first)]
  · exact none

end Script

end StyleSplit
