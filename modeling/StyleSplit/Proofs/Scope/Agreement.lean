import StyleSplit.Proofs.Precompile.Safety
import StyleSplit.Proofs.Scope.LineTable

/-! Folding agrees with running. Following a reference backwards in a straight line leads to
the expression from which the name has its value at that point of a run. The induction is on
the steps in front of an expression, and inside it on the expression; the sizes of what
stands in front bound the fuel. -/
namespace StyleSplit

open Script Script.Node

/-- What may keep a run from knowing a value in a straight line: a name without one, or a key
that is neither a text nor a number. -/
def Unknown.Genuine : Unknown → Prop
  | unbound _ => True
  | key value => (∀ t, value ≠ .scalar (.text t)) ∧ ∀ n, value ≠ .scalar (.number n)
  | foreign => False

/-- A folded value is that of a run. Where folding gives up a run does not know the value
either, if nothing is declared twice or assigned to; the fuel never runs out. -/
def Agree (clean : Prop) {α : Type} (folded : Except Unfolded α) (run : Except Unknown α) : Prop :=
  match folded with
  | .ok v => run = .ok v
  | .error .dynamic => clean → ∃ cause, run = .error cause ∧ cause.Genuine
  | .error .exhausted => False

namespace Agree

variable {clean : Prop} {α β : Type}

theorem bind {folded : Except Unfolded α} {run : Except Unknown α} {f : α → Except Unfolded β}
    {g : α → Except Unknown β} (first : Agree clean folded run)
    (then_ : ∀ v, Agree clean (f v) (g v)) : Agree clean (folded >>= f) (run >>= g) := by
  cases folded with
  | ok v =>
    obtain rfl : run = .ok v := first
    exact then_ v
  | error reason =>
    cases reason with
    | exhausted => exact first.elim
    | dynamic =>
      intro tidy
      obtain ⟨cause, rfl, genuine⟩ := first tidy
      exact ⟨cause, rfl, genuine⟩

end Agree

namespace Environment

variable {t : ScopeTable} {env : Environment} {clean : Prop} {fuel width : Nat}

/-- References inside a node agree, as soon as there is more fuel than `width`. -/
def References (t : ScopeTable) (env : Environment) (clean : Prop) (width : Nat) (n : Node) :
    Prop :=
  ∀ span name fuel, Holds n (.expr (.identifier span name)) → width < fuel →
    Agree clean (t.fold fuel (.identifier span name)) (env.get name)

theorem References.child {n c : Node} (refs : References t env clean width n)
    (member : c ∈ n.children) : References t env clean width c :=
  fun span name fuel held => refs span name fuel (.inside member held)

/-- The folded name of an entry, as folding takes it. -/
def foldedKey (t : ScopeTable) (entry : Entry) : Except Unfolded Text :=
  match t.keyName entry with
  | none => .error .dynamic
  | some name => .ok name

/-- The folded name and value of an entry. -/
def foldedPair (t : ScopeTable) (fuel : Nat) (entry : Entry) : Except Unfolded (Text × Value) := do
  let name ← foldedKey t entry
  return (name, ← t.fold fuel entry.value)

theorem fold_mapping (span : Span) (entries : List Entry) :
    t.fold (fuel + 1) (.mapping span entries) = (do
      return .record (collectEntries (← entries.mapM (foldedPair t fuel)))) := by
  have same : foldedPair t fuel = fun entry =>
      match t.keyName entry with
      | none => .error .dynamic
      | some name => do return (name, ← t.fold fuel entry.value) := by
    funext entry
    unfold foldedPair foldedKey
    cases t.keyName entry <;> rfl
  have resolved : t.resolve (.mapping span entries) = .resolved (.mapping span entries) :=
    ScopeTable.resolve_other (by simp)
  unfold ScopeTable.fold
  simp only [resolved]
  exact congrArg (fun pair : Entry → Except Unfolded (Text × Value) => do
    return Value.record (collectEntries (← entries.mapM pair))) same.symm

theorem keyOf_scalar (value : Scalar) :
    Agree clean (match ScopeTable.keyOfScalar value with
      | none => .error .dynamic
      | some name => .ok name) (keyOf (.scalar value)) := by
  cases value with
  | text | number => rfl
  | bool | null => exact fun _ => ⟨_, rfl, by simp [Unknown.Genuine]⟩

/-- A key in brackets agrees if its expression does: only a literal gives a name. -/
theorem key_agrees (span : Span) {key : Expr} (value : Expr) (shorthand : Bool)
    (agrees : Agree clean (t.fold (fuel + 1) key) (env.value key)) :
    Agree clean (foldedKey t (.mk span (some key) value true shorthand))
      (env.value key >>= keyOf) := by
  by_cases literal : ∃ place v, t.resolve key = .resolved (.literal place v)
  · obtain ⟨place, v, resolved⟩ := literal
    rw [ScopeTable.fold_scalar.mpr ⟨place, resolved⟩] at agrees
    rw [show env.value key = .ok (.scalar v) from agrees]
    have name : t.keyName (.mk span (some key) value true shorthand) =
        ScopeTable.keyOfScalar v := by
      simp [ScopeTable.keyName, Entry.key, Entry.computed, resolved]
    rw [foldedKey, name]
    exact keyOf_scalar v
  · have name : t.keyName (.mk span (some key) value true shorthand) = none := by
      unfold ScopeTable.keyName
      simp only [Entry.key, Entry.computed, if_true]
      split
      · rename_i place v resolved
        exact absurd ⟨place, v, resolved⟩ literal
      · rfl
    rw [foldedKey, name]
    intro tidy
    cases folded : t.fold (fuel + 1) key with
    | error reason =>
      rw [folded] at agrees
      cases reason with
      | exhausted => exact agrees.elim
      | dynamic =>
        obtain ⟨cause, unknown, genuine⟩ := agrees tidy
        exact ⟨cause, by rw [unknown]; rfl, genuine⟩
    | ok v =>
      rw [folded] at agrees
      rw [show env.value key = .ok v from agrees]
      cases v with
      | scalar v =>
        obtain ⟨place, resolved⟩ := ScopeTable.fold_scalar.mp folded
        exact absurd ⟨place, v, resolved⟩ literal
      | list | record => exact ⟨_, rfl, by simp [Unknown.Genuine]⟩

mutual

/-- A plain expression agrees if the references in it do. -/
theorem expr_agrees : ∀ (e : Expr) (fuel : Nat), e.isPlain = true →
    References t env clean width (.expr e) → width + e.size ≤ fuel →
    Agree clean (t.fold fuel e) (env.value e)
  | .literal .., 0, _, _, enough | .list .., 0, _, _, enough | .mapping .., 0, _, _, enough => by
    simp [Expr.size] at enough
  | .literal _ value, fuel + 1, _, _, _ => by
    rw [ScopeTable.fold, ScopeTable.resolve_other (by simp)]
    rfl
  | .identifier span name, fuel, _, refs, enough =>
    refs span name fuel .self (by simp only [Expr.size] at enough; omega)
  | .list _ items, fuel + 1, plain, refs, enough => by
    rw [ScopeTable.fold, ScopeTable.resolve_other (by simp)]
    refine Agree.bind (items_agree items fuel plain (fun e member => refs.child ?_) ?_) fun _ => rfl
    · exact List.mem_map_of_mem member
    · simp only [Expr.size] at enough
      omega
  | .mapping span entries, fuel + 1, plain, refs, enough => by
    rw [fold_mapping]
    refine Agree.bind (entries_agree entries fuel plain (fun e member => refs.child ?_) ?_)
      fun _ => rfl
    · exact List.mem_map_of_mem member
    · simp only [Expr.size] at enough
      omega
  | .function .., _, plain, _, _ | .call .., _, plain, _, _ | .other .., _, plain, _, _ => by
    cases plain

theorem entry_agrees : ∀ (e : Entry) (fuel : Nat), e.isPlain = true →
    References t env clean width (.entry e) → width + e.size ≤ fuel →
    Agree clean (foldedPair t fuel e) (env.pair e)
  | .mk span (some key) value true shorthand, 0, _, _, enough => by simp [Entry.size] at enough
  | .mk span (some key) value true shorthand, fuel + 1, plain, refs, enough => by
    simp only [Entry.size] at enough
    obtain ⟨keyed, valued⟩ := Bool.and_eq_true_iff.mp plain
    have name := key_agrees span value shorthand
      (expr_agrees key (fuel + 1) keyed (refs.child (by simp [children, ofEntry])) (by omega))
    rw [pair, ← bind_assoc]
    refine name.bind fun name => ?_
    exact Agree.bind (expr_agrees value (fuel + 1) valued
      (refs.child (by simp [children, ofEntry])) (by omega)) fun _ => rfl
  | .mk span (some (.literal place v)) value false shorthand, fuel, plain, refs, enough => by
    simp only [Entry.size] at enough
    have name : Agree clean (foldedKey t (.mk span (some (.literal place v)) value false shorthand))
        (keyOf (.scalar v)) := keyOf_scalar v
    exact name.bind fun name => Agree.bind (expr_agrees value fuel plain
      (refs.child (by simp [children, ofEntry])) (by omega)) fun _ => rfl
  | .mk _ (some (.identifier ..)) _ false _, _, plain, _, _
  | .mk _ (some (.list ..)) _ false _, _, plain, _, _
  | .mk _ (some (.mapping ..)) _ false _, _, plain, _, _
  | .mk _ (some (.function ..)) _ false _, _, plain, _, _
  | .mk _ (some (.call ..)) _ false _, _, plain, _, _
  | .mk _ (some (.other ..)) _ false _, _, plain, _, _
  | .mk _ none _ _ _, _, plain, _, _ => by cases plain

theorem items_agree : ∀ (items : List Expr) (fuel : Nat), plainItems items = true →
    (∀ e ∈ items, References t env clean width (.expr e)) → width + sizeOfItems items ≤ fuel →
    Agree clean (items.mapM (t.fold fuel)) (env.values items)
  | [], _, _, _, _ => rfl
  | e :: rest, fuel, plain, refs, enough => by
    simp only [sizeOfItems] at enough
    obtain ⟨first, others⟩ := Bool.and_eq_true_iff.mp plain
    rw [List.mapM_cons, values]
    refine Agree.bind (expr_agrees e fuel first (refs e List.mem_cons_self) (by omega)) fun v => ?_
    exact Agree.bind (items_agree rest fuel others
      (fun other member => refs other (List.mem_cons_of_mem _ member)) (by omega)) fun _ => rfl

theorem entries_agree : ∀ (entries : List Entry) (fuel : Nat), plainEntries entries = true →
    (∀ e ∈ entries, References t env clean width (.entry e)) →
    width + sizeOfEntries entries ≤ fuel →
    Agree clean (entries.mapM (foldedPair t fuel)) (env.pairs entries)
  | [], _, _, _, _ => rfl
  | e :: rest, fuel, plain, refs, enough => by
    simp only [sizeOfEntries] at enough
    obtain ⟨first, others⟩ := Bool.and_eq_true_iff.mp plain
    rw [List.mapM_cons, pairs]
    refine Agree.bind (entry_agrees e fuel first (refs e List.mem_cons_self) (by omega)) fun v => ?_
    exact Agree.bind (entries_agree rest fuel others
      (fun other member => refs other (List.mem_cons_of_mem _ member)) (by omega)) fun _ => rfl

end

end Environment

namespace StraightLine

variable {line : StraightLine} {t : ScopeTable} {whole : Tree}

/-- The number of nodes in the values of some steps. -/
def weight : List Step → Nat
  | [] => 0
  | step :: rest => step.value.size + weight rest

theorem weight_append (front back : List Step) :
    weight (front ++ back) = weight front + weight back := by
  induction front with
  | nil => simp [weight]
  | cons step rest ih => simp only [List.cons_append, weight, ih]; omega

/-- A line of which all parts are known: its table, its places, and that it is plain. -/
structure Known (line : StraightLine) (t : ScopeTable) : Prop where
  tabled : line.Tabled t
  placed : line.Placed
  plain : ∀ step ∈ line.steps, step.value.isPlain = true

/-- Between any two steps folding agrees with a run up to that point. -/
theorem Known.agrees (known : line.Known t) (sound : Scope.AllSound whole t.scopes)
    {front back : List Step} (split : line.steps = front ++ back) {e : Expr}
    (between : Between front back e) (laid : Node.Laid (.expr e)) (plain : e.isPlain = true)
    (recorded : ∀ span name, Holds (.expr e) (.expr (.identifier span name)) → (span, 0) ∈ t.uses)
    {fuel : Nat} (enough : weight front + e.size ≤ fuel) :
    Agree line.Clean (t.fold fuel e) ((environment front).value e) := by
  have backward := ScopeTable.backward_of_sound sound
  -- The value behind a reference is that of a step further in front.
  induction length : front.length using Nat.strong_induction_on generalizing front back e fuel with
  | _ n ih =>
    subst length
    refine Environment.expr_agrees e fuel plain (fun span name fuel held more => ?_) enough
    cases stepped : t.step span name with
    | error reason =>
      obtain ⟨fuel, rfl⟩ : ∃ f, fuel = f + 1 := ⟨fuel - 1, by omega⟩
      rw [ScopeTable.fold_unresolved backward stepped]
      intro clean
      have missed := step_missed known.tabled split between laid held (recorded span name held)
        clean stepped
      exact ⟨_, get_unbound missed, trivial⟩
    | ok init =>
      obtain ⟨before, step, behind, rfl, rfl, rfl, last⟩ :=
        step_found known.tabled split between laid held (recorded span name held) stepped
      have listed : step ∈ line.steps := by simp [split]
      have split' : line.steps = before ++ step :: (behind ++ back) := by simp [split]
      have lighter : weight before + step.value.size ≤ fuel := by
        simp only [weight_append, weight] at more
        omega
      rw [ScopeTable.fold_step backward stepped, get_bound last]
      exact ih before.length (by simp) split' (known.placed.between split')
        (known.placed.laid step listed) (known.plain step listed)
        (known.tabled.steps step listed) lighter rfl

theorem weight_le {front : List Stmt} {steps : List Step}
    (reads : List.Forall₂ (fun s step => Step.ofStmt? s = some step) front steps) :
    weight steps ≤ sizeOfBody front := by
  induction reads with
  | nil => exact Nat.le_refl _
  | @cons s step front steps read _ ih =>
    have bound : step.value.size ≤ s.size := by
      obtain ⟨-, ⟨_, _, _, _, _, -, rfl, rfl⟩ | ⟨_, _, _, _, _, rfl, rfl⟩⟩ :=
        Step.ofStmt?_eq_some read
      · simp only [Step.value, Stmt.size, sizeOfDeclarators, Declarator.size]
        omega
      · simp only [Step.value, Stmt.size, Expr.size, sizeOfParts, Part.size]
        omega
    have total : weight (step :: steps) = step.value.size + weight steps := rfl
    rw [total, sizeOfBody]
    omega

theorem sizeOfBody_append (front back : List Stmt) :
    sizeOfBody (front ++ back) = sizeOfBody front + sizeOfBody back := by
  induction front with
  | nil => simp [sizeOfBody]
  | cons s rest ih => simp only [List.cons_append, sizeOfBody, ih, Nat.add_assoc]

/-- Folding the argument of the call at the end of a straight-line script agrees with running
the script: a value that is found is the value in the run, and in a script where no name is
declared twice or assigned to none is found only if the run does not know it either. -/
theorem evaluate_agrees {source : Text} {s : Script} {line : StraightLine}
    (parsed : Script.parse source = .ok s) (reads : ofBody? s.body = some line) :
    (∀ value, s.scopeTable.evaluate line.argument = some value → line.run = .ok value) ∧
      (line.Clean → s.scopeTable.evaluate line.argument = none →
        ∃ cause, line.run = .error cause ∧ cause.Genuine) := by
  obtain ⟨-, tree, derived⟩ := Script.parse_derived parsed
  obtain ⟨front, last, body, steps, argument⟩ := ofBody?_eq_some reads
  have placed := StraightLine.placed parsed reads
  have known : line.Known s.scopeTable := by
    refine ⟨StraightLine.tabled reads, placed, fun step member => ?_⟩
    obtain ⟨statement, -, read⟩ := mem_of_forall₂ steps member
    exact (Step.ofStmt?_eq_some read).1
  obtain ⟨plain, _, _, _, _, _, _, rfl⟩ := argument?_eq_some argument
  have between : Between line.steps [] line.argument := ⟨placed.behind, by simp⟩
  have enough : weight line.steps + line.argument.size ≤ s.scopeTable.size + 1 := by
    have light := weight_le steps
    change _ ≤ sizeOfBody s.body + 1
    rw [body, sizeOfBody_append]
    simp only [sizeOfBody, Stmt.size, Expr.size, sizeOfItems]
    omega
  have agrees := known.agrees (Script.scopeTable_sound derived) (List.append_nil _).symm between
    placed.last plain known.tabled.argument enough
  unfold ScopeTable.evaluate
  cases folded : s.scopeTable.fold (s.scopeTable.size + 1) line.argument with
  | ok value =>
    rw [folded] at agrees
    refine ⟨fun value' same => ?_, fun _ none => (by cases none)⟩
    cases same
    exact agrees
  | error reason =>
    rw [folded] at agrees
    cases reason with
    | exhausted => exact agrees.elim
    | dynamic => exact ⟨fun _ none => (by cases none), fun clean _ => agrees clean⟩

/-- The script `let a="k";const b={[a]:1,k:2};f([b,a])`, in which a key comes again. -/
def foldingSource : Text := text "let a=\"k\";const b=\x7b[a]:1,k:2\x7d;f([b,a])"

/-- The script `var a=[b];f(a)`, which uses a name that nothing declares. -/
def missingSource : Text := text "var a=[b];f(a)"

theorem evaluate_agrees_folding :
    (∃ s line value, Script.parse foldingSource = .ok s ∧ ofBody? s.body = some line ∧
      s.scopeTable.evaluate line.argument = some value ∧ line.run = .ok value) ∧
      ∃ s line, Script.parse missingSource = .ok s ∧ ofBody? s.body = some line ∧ line.Clean ∧
        s.scopeTable.evaluate line.argument = none ∧
        ∃ cause, line.run = .error cause ∧ cause.Genuine := by
  have folds : (Script.parse foldingSource).toOption.any (fun s =>
      (ofBody? s.body).any fun line => (s.scopeTable.evaluate line.argument).isSome) = true := by
    decide +kernel
  have misses : (Script.parse missingSource).toOption.any (fun s => (ofBody? s.body).any fun line =>
      decide line.Clean && (s.scopeTable.evaluate line.argument).isNone) = true := by
    decide +kernel
  constructor
  · obtain ⟨s, parsed, checked⟩ := Script.exists_of_any folds
    obtain ⟨line, reads, checked⟩ := (Option.any_eq_true _ _).mp checked
    obtain ⟨value, found⟩ := Option.isSome_iff_exists.mp checked
    exact ⟨s, line, value, parsed, reads, found, (evaluate_agrees parsed reads).1 value found⟩
  · obtain ⟨s, parsed, checked⟩ := Script.exists_of_any misses
    obtain ⟨line, reads, checked⟩ := (Option.any_eq_true _ _).mp checked
    obtain ⟨clean, none⟩ := Bool.and_eq_true_iff.mp checked
    have clean := of_decide_eq_true clean
    have none := Option.isNone_iff_eq_none.mp none
    exact ⟨s, line, parsed, reads, clean, none, (evaluate_agrees parsed reads).2 clean none⟩

end StraightLine

end StyleSplit
