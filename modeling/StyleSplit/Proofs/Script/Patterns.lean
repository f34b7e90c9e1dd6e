import StyleSplit.Proofs.Script.Contents
import StyleSplit.Proofs.Script.Reading

/-! The names that destructuring patterns bind. A pattern is derived as an expression, so a
default value in it looks like an assignment. What a pattern binds is said here of its
derivation, where a default value can be told from what it stands behind; the names that are
declared for it are read off the expression that it contributes. -/
namespace StyleSplit.Script

/-- A name stands in an expression outside of calls, functions, statements and computed keys. -/
inductive Expr.Mentions (name : Text) : Expr → Prop where
  | identifier (span : Span) : Mentions name (.identifier span name)
  | item {span : Span} {items : List Expr} {e : Expr} :
      e ∈ items → Mentions name e → Mentions name (.list span items)
  | value {span : Span} {entries : List Entry} {e : Entry} :
      e ∈ entries → Mentions name e.value → Mentions name (.mapping span entries)
  | part {span : Span} {children : List Part} {assigns : List Text} {own : Option Text} {e : Expr} :
      .expr e ∈ children → Mentions name e → Mentions name (.other span children assigns own)

section

variable {name : Text}

mutual

theorem Expr.mem_boundNames : ∀ {e : Expr}, name ∈ e.boundNames ↔ e.Mentions name
  | .identifier span own => by
    rw [Expr.boundNames, List.mem_singleton]
    constructor
    · rintro rfl
      exact .identifier span
    · rintro ⟨⟩
      rfl
  | .list _ items => by
    rw [Expr.boundNames, mem_boundNamesOfItems]
    constructor
    · rintro ⟨e, member, mentions⟩
      exact .item member mentions
    · rintro (_ | ⟨member, mentions⟩)
      exact ⟨_, member, mentions⟩
  | .mapping _ entries => by
    rw [Expr.boundNames, mem_boundNamesOfEntries]
    constructor
    · rintro ⟨e, member, mentions⟩
      exact .value member mentions
    · rintro (_ | _ | ⟨member, mentions⟩)
      exact ⟨_, member, mentions⟩
  | .other _ children _ _ => by
    rw [Expr.boundNames, mem_boundNamesOfParts]
    constructor
    · rintro ⟨e, member, mentions⟩
      exact .part member mentions
    · rintro (_ | _ | _ | ⟨member, mentions⟩)
      exact ⟨_, member, mentions⟩
  | .literal .. | .function .. | .call .. => by
    rw [Expr.boundNames]
    constructor
    · simp
    · rintro ⟨⟩

theorem mem_boundNamesOfItems : ∀ {items : List Expr},
    name ∈ boundNamesOfItems items ↔ ∃ e ∈ items, e.Mentions name
  | [] => by simp [boundNamesOfItems]
  | e :: rest => by
    rw [boundNamesOfItems, List.mem_append, Expr.mem_boundNames, mem_boundNamesOfItems]
    simp

theorem mem_boundNamesOfEntries : ∀ {entries : List Entry},
    name ∈ boundNamesOfEntries entries ↔ ∃ e ∈ entries, e.value.Mentions name
  | [] => by simp [boundNamesOfEntries]
  | .mk _ _ value _ _ :: rest => by
    rw [boundNamesOfEntries, List.mem_append, Expr.mem_boundNames, mem_boundNamesOfEntries]
    simp [Entry.value]

theorem mem_boundNamesOfParts : ∀ {parts : List Part},
    name ∈ boundNamesOfParts parts ↔ ∃ e, .expr e ∈ parts ∧ e.Mentions name
  | [] => by simp [boundNamesOfParts]
  | .expr e :: rest => by
    rw [boundNamesOfParts, List.mem_append, Expr.mem_boundNames, mem_boundNamesOfParts]
    simp [or_and_right, exists_or]
  | .stmt s :: rest => by
    rw [boundNamesOfParts, mem_boundNamesOfParts]
    simp

end

end

theorem boundNamesOfItems_eq (items : List Expr) :
    boundNamesOfItems items = items.flatMap Expr.boundNames := by
  induction items with
  | nil => rfl
  | cons e rest ih => rw [boundNamesOfItems, ih, List.flatMap_cons]

theorem boundNamesOfEntries_eq (entries : List Entry) :
    boundNamesOfEntries entries = entries.flatMap fun e => e.value.boundNames := by
  induction entries with
  | nil => rfl
  | cons e rest ih =>
    obtain ⟨_, _, value, _, _⟩ := e
    rw [boundNamesOfEntries, ih, List.flatMap_cons]
    rfl

/-- What a pattern binds: its names, in order, and the default values in it. -/
structure Target where
  names : List Text
  defaults : List Tree

namespace Target

def none : Target := ⟨[], []⟩

def append (first last : Target) : Target :=
  ⟨first.names ++ last.names, first.defaults ++ last.defaults⟩

/-- What is behind a default value. -/
def withDefault (t : Target) (value : Tree) : Target := ⟨t.names, t.defaults ++ [value]⟩

end Target

namespace Tree

/-- Whether a part of a derivation is a single mark. -/
def isMark (mark : Punctuator) (tree : Tree) : Bool :=
  tree.word.map Token.terminal == [.punctuator mark]

mutual

/-- What a part of a derivation binds where a pattern is declared. An element of an array and
the value of an entry may have a default value, which an equals sign stands before; three dots
take the rest. There are no parentheses in such a pattern, and nothing else binds names. -/
def target? : Tree → Option Target
  | .leaf t => if t.terminal.isOpen then none else some .none
  | .node p children =>
    match p.action, children with
    | .identifier, [.leaf t] | .shorthandEntry, .leaf t :: _ => some ⟨[t.text], []⟩
    | .assignment, [element, operator, value] =>
      if operator.isMark .assign then element.target?.map (·.withDefault value) else none
    | .keyedEntry, [_, _, value] | .computedEntry, [_, _, _, _, value] => value.target?
    | .spreadEntry, [_, rest] => rest.target?
    | .compound, [.leaf t, rest] =>
      if t.terminal == .punctuator .ellipsis then rest.target? else none
    | .splice, children =>
      if p.body.contains (.terminal (.punctuator .openParen)) then none else targets? children
    | .list, children | .mapping, children => targets? children
    | _, _ => none

def targets? : List Tree → Option Target
  | [] => some .none
  | tree :: rest => do return (← tree.target?).append (← targets? rest)

end

end Tree

namespace Fragment

/-- The names that a pattern is taken to bind by a fragment of it. -/
def taken : Fragment → List Text
  | expr e => e.boundNames
  | entry e => e.value.boundNames
  | _ => []

theorem taken_counting (action : Action) (fs : List Fragment) :
    (fs.filter (Assembled.counts action)).flatMap taken = fs.flatMap taken := by
  induction fs with
  | nil => rfl
  | cons f rest ih =>
    rw [List.filter_cons]
    split
    · rw [List.flatMap_cons, ih, List.flatMap_cons]
    · rename_i out
      cases f with
      | token t => rw [ih, List.flatMap_cons]; rfl
      | _ => exact absurd rfl out

end Fragment

/-- A name stands in the expression that a part of a derivation contributes. -/
def Tree.Mentions (tree : Tree) (name : Text) : Prop :=
  ∃ place e, tree.assemble = .ok ⟨place, [.expr e]⟩ ∧ e.Mentions name

/-- The names that are read off a part of a derivation, however it is used. -/
def Tree.mentioned (tree : Tree) : List Text :=
  match tree.assemble with
  | .ok a => a.fragments.flatMap Fragment.taken
  | .error _ => []

/-- Names that are read off a pattern: those that it binds, with what stands in default values
between them. -/
structure Target.Reads (t : Target) (names : List Text) : Prop where
  sub : t.names.Sublist names
  length : names.length = t.names.length + (t.defaults.flatMap Tree.mentioned).length
  values : ∀ d ∈ t.defaults, ∃ place e, d.assemble = .ok ⟨place, [.expr e]⟩

namespace Target.Reads

variable {t t' : Target} {names names' : List Text}

theorem exact (t : Text) : (Target.mk [t] []).Reads [t] := ⟨.refl _, rfl, by simp⟩

theorem none : Target.none.Reads [] := ⟨.slnil, rfl, by simp [Target.none]⟩

theorem append (first : t.Reads names) (last : t'.Reads names') :
    (t.append t').Reads (names ++ names') where
  sub := first.sub.append last.sub
  length := by
    have here := first.length
    have there := last.length
    simp only [Target.append, List.length_append, List.flatMap_append]
    omega
  values d member := (List.mem_append.mp member).elim (first.values d) (last.values d)

theorem withDefault (reads : t.Reads names) {value : Tree} {place : Option Span} {e : Expr}
    (made : value.assemble = .ok ⟨place, [.expr e]⟩) :
    (t.withDefault value).Reads (names ++ value.mentioned) where
  sub := reads.sub.trans (List.sublist_append_left _ _)
  length := by
    have length := reads.length
    simp only [Target.withDefault, List.length_append, List.flatMap_append, List.flatMap_singleton]
    omega
  values d member := by
    rcases List.mem_append.mp member with member | member
    · exact reads.values d member
    · exact ⟨place, e, List.mem_singleton.mp member ▸ made⟩

/-- Nothing but the names that a pattern binds is read off it if its default values have no
names in them. -/
theorem eq_iff (reads : t.Reads names) :
    names = t.names ↔ ∀ d ∈ t.defaults, ∀ name, ¬d.Mentions name := by
  have whole : names = t.names ↔ names.length = t.names.length := by
    refine ⟨congrArg _, fun same => ?_⟩
    exact (reads.sub.eq_of_length same.symm).symm
  have none : names.length = t.names.length ↔ ∀ d ∈ t.defaults, d.mentioned = [] := by
    rw [reads.length, Nat.add_eq_left, List.length_eq_zero_iff, List.flatMap_eq_nil_iff]
  rw [whole, none]
  refine forall₂_congr fun d member => ?_
  obtain ⟨place, e, made⟩ := reads.values d member
  have known : d.mentioned = e.boundNames := by simp [Tree.mentioned, made, Fragment.taken]
  have only (name : Text) : d.Mentions name ↔ name ∈ e.boundNames := by
    rw [Expr.mem_boundNames]
    constructor
    · rintro ⟨place', e', made', mentions⟩
      obtain ⟨-, same⟩ := Assembled.mk.inj (Except.ok.inj (made'.symm.trans made))
      cases same
      exact mentions
    · exact fun mentions => ⟨place, e, made, mentions⟩
  rw [known, List.eq_nil_iff_forall_not_mem]
  exact forall_congr' fun name => not_congr (only name).symm

end Target.Reads

/-- The bodies of the productions that a pattern can be made of, and that of a loop's target. -/
def Production.binding (p : Production) : Bool :=
  let mark (m : Punctuator) : Symbol := .terminal (.punctuator m)
  match p.action with
  | .identifier | .shorthandEntry => p.body.head? == some (.terminal .name)
  | .assignment =>
    p.body == [.nonterminal .callMember, .nonterminal .assignOperator, .nonterminal .assignment]
  | .keyedEntry => p.body == [.nonterminal .propertyKey, mark .colon, .nonterminal .assignment]
  | .computedEntry =>
    p.body == [mark .openBracket, .nonterminal .assignment, mark .closeBracket, mark .colon,
      .nonterminal .assignment]
  | .spreadEntry => p.body == [mark .ellipsis, .nonterminal .assignment]
  | .forBinding => p.body.length != 1 || p.body == [.nonterminal .callMember]
  | .compound =>
    p.body.head? != some (mark .ellipsis) ||
      p.body == [mark .ellipsis, .nonterminal .assignment]
  | _ => true

theorem productions_binding : ∀ n, ∀ p ∈ grammar.productions n, p.binding = true :=
  productions_all (by decide)

namespace Tree

variable {tree : Tree} {p : Production} {children : List Tree} {a : Assembled} {t : Target}
  {e : Expr} {parts : List Assembled}

theorem mentioned_eq (made : tree.assemble = .ok a) :
    tree.mentioned = a.fragments.flatMap Fragment.taken := by
  rw [mentioned, made]

theorem assemble_only {fs : List Fragment} (made : tree.assemble = .ok a)
    (only : a.fragments = fs) : tree.assemble = .ok ⟨a.span, fs⟩ := by
  rw [made, ← only]

theorem mentioned_expr (made : tree.assemble = .ok a) (only : a.fragments = [.expr e]) :
    tree.mentioned = e.boundNames := by
  simp [mentioned_eq made, only, Fragment.taken]

theorem mentioned_given (action : Action)
    (parted : List.Forall₂ (fun t a => t.assemble = .ok a) children parts) :
    (given action parts).flatMap Fragment.taken = children.flatMap mentioned := by
  rw [given, Fragment.taken_counting]
  induction parted with
  | nil => rfl
  | cons head _ ih =>
    rw [List.flatMap_cons, List.flatMap_append, ih, List.flatMap_cons, mentioned_eq head]

theorem given_cons_expr {action : Action} (only : a.fragments = [.expr e]) :
    given action (a :: parts) = .expr e :: given action parts := by
  rw [given_cons, only]
  rfl

theorem given_cons_mark {action : Action} {c : Tree} {mark : Punctuator}
    (symbol : c.symbol = .terminal (.punctuator mark)) (keeps : action.keepsMarks = false)
    (made : c.assemble = .ok a) : given action (a :: parts) = given action parts := by
  obtain ⟨u, rfl, spelled⟩ := leaf_of_symbol symbol
  cases made
  rw [given_cons, List.filter_cons_of_neg (by simp [counts_mark spelled action keeps])]
  rfl

/-- A name is read off its token. -/
theorem mentioned_name {u : Token} {rest : List Tree}
    (valid : (node p (leaf u :: rest)).valid grammar = true)
    (made : (node p (leaf u :: rest)).assemble = .ok a)
    (names : p.action = .identifier ∨ p.action = .shorthandEntry) :
    (node p (leaf u :: rest)).mentioned = [u.text] := by
  obtain ⟨member, body, -⟩ := valid_node.mp valid
  have binding := productions_binding p.head p member
  have name : u.terminal = .name := by
    rcases names with action | action <;>
      simpa [Production.binding, action, ← body, Tree.symbol] using binding
  obtain ⟨parts, parted, applied⟩ := assemble_applies valid made
  rcases parted with _ | ⟨⟨⟩, others⟩
  have counts : Assembled.counts p.action (.token u) = true := by
    simp [Assembled.counts, name, Terminal.isOpen]
  rw [given_cons, List.filter_cons_of_pos counts] at applied
  rw [mentioned_eq made]
  generalize given p.action _ = behind at applied
  generalize a.fragments = out at applied ⊢
  rcases names with action | action <;> rw [action] at applied <;> cases applied <;>
    simp [Fragment.taken, Entry.value, Expr.boundNames]

/-- An assignment is made of what is assigned to and of a value. -/
theorem assignment_made {element operator value : Tree}
    (valid : (node p [element, operator, value]).valid grammar = true)
    (made : (node p [element, operator, value]).assemble = .ok a)
    (action : p.action = .assignment) : ∃ span first last target d,
      element.assemble = .ok ⟨first, [.expr target]⟩ ∧ value.assemble = .ok ⟨last, [.expr d]⟩ ∧
        a.fragments =
          [.expr (.other span [.expr target, .expr d] target.assignedNames none)] := by
  obtain ⟨member, body, each⟩ := valid_node.mp valid
  have binding := productions_binding p.head p member
  simp only [Production.binding, action, beq_iff_eq] at binding
  obtain ⟨left, middle, right⟩ :
      element.symbol = .nonterminal .callMember ∧
        operator.symbol = .nonterminal .assignOperator ∧
        value.symbol = .nonterminal .assignment := by simpa [binding] using body
  obtain ⟨parts, parted, applied⟩ := assemble_applies valid made
  rcases parted with _ | ⟨first, _ | ⟨second, _ | ⟨third, ⟨⟩⟩⟩⟩
  obtain ⟨e, only⟩ := assemble_expr (each element (by simp)) left rfl first
  obtain ⟨d, last⟩ := assemble_expr (each value (by simp)) right rfl third
  have nothing := assemble_contributes (each operator (by simp)) second _ _ middle rfl
  have nothing := List.map_eq_nil_iff.mp (List.mem_singleton.mp nothing)
  rw [action, given_cons_expr only, given_cons, nothing, List.filter_nil, List.nil_append,
    given_cons_expr last, given_nil] at applied
  generalize a.fragments = out at applied
  cases applied
  exact ⟨_, _, _, e, d, assemble_only first only, assemble_only third last, rfl⟩

/-- All names of a default value are read off an element that has it. -/
theorem mentioned_default {element operator value : Tree}
    (valid : (node p [element, operator, value]).valid grammar = true)
    (made : (node p [element, operator, value]).assemble = .ok a)
    (action : p.action = .assignment) :
    (node p [element, operator, value]).mentioned = element.mentioned ++ value.mentioned := by
  obtain ⟨_, _, _, target, d, first, last, only⟩ := assignment_made valid made action
  rw [mentioned_expr made only, mentioned_expr first rfl, mentioned_expr last rfl]
  simp [Expr.boundNames, boundNamesOfParts]

/-- What is read off an entry is read off its value. -/
theorem mentioned_keyed {key colon value : Tree}
    (valid : (node p [key, colon, value]).valid grammar = true)
    (made : (node p [key, colon, value]).assemble = .ok a) (action : p.action = .keyedEntry) :
    (node p [key, colon, value]).mentioned = value.mentioned := by
  obtain ⟨member, body, each⟩ := valid_node.mp valid
  have binding := productions_binding p.head p member
  simp only [Production.binding, action, beq_iff_eq] at binding
  obtain ⟨left, middle, right⟩ :
      key.symbol = .nonterminal .propertyKey ∧ colon.symbol = .terminal (.punctuator .colon) ∧
        value.symbol = .nonterminal .assignment := by simpa [binding] using body
  obtain ⟨parts, parted, applied⟩ := assemble_applies valid made
  rcases parted with _ | ⟨first, _ | ⟨second, _ | ⟨third, ⟨⟩⟩⟩⟩
  obtain ⟨k, only⟩ := assemble_expr (each key (by simp)) left rfl first
  obtain ⟨e, last⟩ := assemble_expr (each value (by simp)) right rfl third
  rw [action, given_cons_expr only, given_cons_mark middle rfl second, given_cons_expr last,
    given_nil] at applied
  rw [mentioned_eq made, mentioned_expr third last]
  generalize a.fragments = out at applied ⊢
  cases applied
  simp [Fragment.taken, Entry.value]

theorem mentioned_computed {opening key closing colon value : Tree}
    (valid : (node p [opening, key, closing, colon, value]).valid grammar = true)
    (made : (node p [opening, key, closing, colon, value]).assemble = .ok a)
    (action : p.action = .computedEntry) :
    (node p [opening, key, closing, colon, value]).mentioned = value.mentioned := by
  obtain ⟨member, body, each⟩ := valid_node.mp valid
  have binding := productions_binding p.head p member
  simp only [Production.binding, action, beq_iff_eq] at binding
  obtain ⟨opens, left, closes, middle, right⟩ :
      opening.symbol = .terminal (.punctuator .openBracket) ∧
        key.symbol = .nonterminal .assignment ∧
        closing.symbol = .terminal (.punctuator .closeBracket) ∧
        colon.symbol = .terminal (.punctuator .colon) ∧
        value.symbol = .nonterminal .assignment := by simpa [binding] using body
  obtain ⟨parts, parted, applied⟩ := assemble_applies valid made
  rcases parted with _ | ⟨zeroth, _ | ⟨first, _ | ⟨second, _ | ⟨third, _ | ⟨fourth, ⟨⟩⟩⟩⟩⟩⟩
  obtain ⟨k, only⟩ := assemble_expr (each key (by simp)) left rfl first
  obtain ⟨e, last⟩ := assemble_expr (each value (by simp)) right rfl fourth
  rw [action, given_cons_mark opens rfl zeroth, given_cons_expr only,
    given_cons_mark closes rfl second, given_cons_mark middle rfl third, given_cons_expr last,
    given_nil] at applied
  rw [mentioned_eq made, mentioned_expr fourth last]
  generalize a.fragments = out at applied ⊢
  cases applied
  simp [Fragment.taken, Entry.value]

/-- Three dots are made of what they take the rest into. -/
theorem rest_made {dots rest : Tree} (valid : (node p [dots, rest]).valid grammar = true)
    (made : (node p [dots, rest]).assemble = .ok a)
    (action : p.action = .spreadEntry ∨
      p.action = .compound ∧ dots.symbol = .terminal (.punctuator .ellipsis)) :
    ∃ span place e, rest.assemble = .ok ⟨place, [.expr e]⟩ ∧
      (a.fragments = [.entry (.mk span none e false false)] ∨
        a.fragments = [.expr (.other span [.expr e] [] none)]) := by
  obtain ⟨member, body, each⟩ := valid_node.mp valid
  have binding := productions_binding p.head p member
  obtain ⟨left, right⟩ : dots.symbol = .terminal (.punctuator .ellipsis) ∧
      rest.symbol = .nonterminal .assignment := by
    rcases action with action | ⟨action, left⟩
    · simp only [Production.binding, action, beq_iff_eq] at binding
      simpa [binding] using body
    · simp only [Production.binding, action] at binding
      simpa [← body, left] using binding
  obtain ⟨parts, parted, applied⟩ := assemble_applies valid made
  rcases parted with _ | ⟨first, _ | ⟨second, ⟨⟩⟩⟩
  obtain ⟨e, last⟩ := assemble_expr (each rest (by simp)) right rfl second
  have keeps : p.action.keepsMarks = false := by
    rcases action with action | ⟨action, -⟩ <;> rw [action] <;> rfl
  rw [given_cons_mark left keeps first, given_cons_expr last, given_nil] at applied
  generalize (Assembled.extent _).getD _ = span at applied
  refine ⟨span, _, e, assemble_only second last, ?_⟩
  generalize a.fragments = out at applied ⊢
  rcases action with action | ⟨action, -⟩ <;> rw [action] at applied <;> cases applied
  · exact .inl rfl
  · exact .inr rfl

/-- What is read off three dots is read off what they take the rest into. -/
theorem mentioned_rest {dots rest : Tree} (valid : (node p [dots, rest]).valid grammar = true)
    (made : (node p [dots, rest]).assemble = .ok a)
    (action : p.action = .spreadEntry ∨
      p.action = .compound ∧ dots.symbol = .terminal (.punctuator .ellipsis)) :
    (node p [dots, rest]).mentioned = rest.mentioned := by
  obtain ⟨_, _, e, inner, only⟩ := rest_made valid made action
  rw [mentioned_eq made, mentioned_expr inner rfl]
  rcases only with only | only <;>
    simp [only, Fragment.taken, Entry.value, Expr.boundNames, boundNamesOfParts]

/-- What is read off several parts together is read off each of them. -/
theorem mentioned_several (valid : (node p children).valid grammar = true)
    (made : (node p children).assemble = .ok a)
    (action : p.action = .splice ∨ p.action = .list ∨ p.action = .mapping) :
    (node p children).mentioned = children.flatMap mentioned := by
  obtain ⟨parts, parted, applied⟩ := assemble_applies valid made
  rw [mentioned_eq made, ← mentioned_given p.action parted]
  generalize given p.action parts = fs at applied ⊢
  generalize a.fragments = out at applied ⊢
  rcases action with action | action | action <;> rw [action] at applied <;> cases applied
  · rfl
  · simp [Fragment.taken, Expr.boundNames, boundNamesOfItems_eq, List.flatMap_map]
  · simp [Fragment.taken, Expr.boundNames, boundNamesOfEntries_eq, List.flatMap_map]

theorem targets_read
    (each : ∀ c ∈ children, ∀ t, c.target? = some t → t.Reads c.mentioned)
    (binds : targets? children = some t) : t.Reads (children.flatMap mentioned) := by
  induction children generalizing t with
  | nil =>
    cases binds
    exact .none
  | cons c rest ih =>
    obtain ⟨first, here, binds⟩ := Option.bind_eq_some_iff.mp binds
    obtain ⟨others, there, same⟩ := Option.bind_eq_some_iff.mp binds
    cases same
    rw [List.flatMap_cons]
    exact (each c (by simp) first here).append (ih (fun c member => each c (by simp [member])) there)

/-- A pattern is read as binding what it binds, and what stands in default values. -/
theorem target_reads (valid : tree.valid grammar = true) (made : tree.assemble = .ok a)
    (binds : tree.target? = some t) : t.Reads tree.mentioned := by
  induction tree using Tree.induct generalizing a t with
  | leaf u =>
    rw [target?] at binds
    split at binds
    · cases binds
    · cases binds
      exact .none
  | node p children ih =>
    have each : ∀ c ∈ children, ∀ t, c.target? = some t → t.Reads c.mentioned := by
      intro c member t binds
      obtain ⟨parts, out, parted, -⟩ := assemble_node.mp made
      obtain ⟨b, -, inner⟩ := mem_of_forall₂ parted.flip member
      exact ih c member ((valid_node.mp valid).2.2 c member) inner binds
    unfold target? at binds
    split at binds
    case h_1 u action =>
      cases binds
      rw [mentioned_name valid made (.inl action)]
      exact .exact u.text
    case h_2 u rest action =>
      cases binds
      rw [mentioned_name valid made (.inr action)]
      exact .exact u.text
    case h_3 element operator value action =>
      split at binds
      · obtain ⟨inner, here, rfl⟩ := Option.map_eq_some_iff.mp binds
        obtain ⟨_, _, _, _, _, -, value, -⟩ := assignment_made valid made action
        rw [mentioned_default valid made action]
        exact (each element (by simp) inner here).withDefault value
      · cases binds
    case h_4 key colon value action =>
      rw [mentioned_keyed valid made action]
      exact each value (by simp) t binds
    case h_5 opening key closing colon value action =>
      rw [mentioned_computed valid made action]
      exact each value (by simp) t binds
    case h_6 dots rest action =>
      rw [mentioned_rest valid made (.inl action)]
      exact each rest (by simp) t binds
    case h_7 u rest action =>
      split at binds
      · rename_i dots
        have spelled : (leaf u).symbol = .terminal (.punctuator .ellipsis) :=
          congrArg Symbol.terminal (beq_iff_eq.mp dots)
        rw [mentioned_rest valid made (.inr ⟨action, spelled⟩)]
        exact each rest (by simp) t binds
      · cases binds
    case h_8 action =>
      split at binds
      · cases binds
      · rw [mentioned_several valid made (.inl action)]
        exact targets_read each binds
    case h_9 action =>
      rw [mentioned_several valid made (.inr (.inl action))]
      exact targets_read each binds
    case h_10 action =>
      rw [mentioned_several valid made (.inr (.inr action))]
      exact targets_read each binds
    case h_11 => cases binds

end Tree

/-- Whether a symbol stands for nothing but marks and words. -/
def Symbol.isClosed : Symbol → Bool
  | .terminal t => !t.isOpen
  | .nonterminal n => n == .variableKind

/-- A pattern stands in few productions, once, and behind nothing but marks and words. -/
def Production.patterned (p : Production) : Bool :=
  !p.body.contains (.nonterminal .pattern) ||
    ([.declarator, .boundNames, .forBinding, .catchClause].contains p.action ||
      p.action == .splice && p.head == .parameter) &&
      (p.body.takeWhile (· != .nonterminal .pattern)).all Symbol.isClosed &&
      p.body.count (.nonterminal .pattern) ≤ 1

theorem productions_patterned : ∀ n, ∀ p ∈ grammar.productions n, p.patterned = true :=
  productions_all (by decide)

/-- The names that what stands around a pattern declares. -/
def Fragment.declared : Fragment → List Text
  | names ns => ns
  | expr e => e.boundNames
  | declarator d => d.names
  | stmt (.declaration _ _ declarators) => declarators.flatMap Declarator.names
  | stmt (.block _ (.declaration _ .parameter declarators :: _)) =>
    declarators.flatMap Declarator.names
  | _ => []

namespace Tree

variable {tree pattern c : Tree} {p : Production} {children : List Tree} {a : Assembled}
  {parts : List Assembled} {action : Action} {e : Expr} {fs : List Fragment}

theorem given_append (front back : List Assembled) :
    given action (front ++ back) = given action front ++ given action back := by
  simp [given]

/-- Parts of a derivation with a pattern among them, which contributes an expression. Nothing
but words counts before it. -/
inductive Around (action : Action) (pattern : Tree) (e : Expr) :
    List Tree → List Assembled → Prop where
  | mk {before after : List Tree} {front back : List Assembled} {part : Assembled} :
      (∀ c ∈ before ++ after, c.symbol ≠ .nonterminal .pattern) →
      List.Forall₂ (fun t a => t.assemble = .ok a) before front →
      (∀ f ∈ given action front, ∃ w, f = .word w) →
      pattern.assemble = .ok part → part.fragments = [.expr e] →
      List.Forall₂ (fun t a => t.assemble = .ok a) after back →
      Around action pattern e (before ++ pattern :: after) (front ++ part :: back)

theorem given_closed (valid : c.valid grammar = true) (closed : c.symbol.isClosed = true)
    (keeps : action.keepsMarks = false) (made : c.assemble = .ok a) {f : Fragment}
    (member : f ∈ a.fragments) (counts : Assembled.counts action f = true) :
    ∃ w, f = .word w := by
  cases c with
  | leaf t =>
    cases made
    rw [List.mem_singleton.mp member] at counts
    simp only [Symbol.isClosed, Tree.symbol, Bool.not_eq_true'] at closed
    simp [Assembled.counts, closed, keeps] at counts
  | node p children =>
    obtain ⟨form, listed, fits⟩ := assemble_formed valid made p.head rfl
    simp only [Symbol.isClosed, Tree.symbol, beq_iff_eq] at closed
    rw [closed, Nonterminal.forms, List.mem_singleton] at listed
    subst listed
    generalize a.fragments = fs at fits member
    rcases fits with _ | ⟨⟨⟩, ⟨⟩⟩
    exact ⟨_, List.mem_singleton.mp member⟩

/-- The few productions that a pattern stands in. -/
theorem pattern_cases (valid : (node p children).valid grammar = true)
    (child : pattern ∈ children) (symbol : pattern.symbol = .nonterminal .pattern) :
    (p.action = .declarator ∨ p.action = .boundNames ∨ p.action = .forBinding ∨
        p.action = .catchClause ∨ p.action = .splice ∧ p.head = .parameter) ∧
      (p.body.takeWhile (· != .nonterminal .pattern)).all Symbol.isClosed = true ∧
      p.body.count (.nonterminal .pattern) ≤ 1 := by
  obtain ⟨member, body, -⟩ := valid_node.mp valid
  have inBody : Symbol.nonterminal .pattern ∈ p.body := body ▸ symbol ▸ List.mem_map_of_mem child
  simpa [Production.patterned, inBody, or_assoc, and_assoc] using
    productions_patterned p.head p member

theorem around_pattern (valid : (node p children).valid grammar = true)
    (child : pattern ∈ children) (symbol : pattern.symbol = .nonterminal .pattern)
    (parted : List.Forall₂ (fun t a => t.assemble = .ok a) children parts) :
    ∃ e, Around p.action pattern e children parts := by
  obtain ⟨member, body, each⟩ := valid_node.mp valid
  obtain ⟨actions, closed, once⟩ := pattern_cases valid child symbol
  have keeps : p.action.keepsMarks = false := by
    rcases actions with action | action | action | action | ⟨action, -⟩ <;> rw [action] <;> rfl
  obtain ⟨before, after, rfl⟩ := List.append_of_mem child
  rw [← body, List.map_append, List.map_cons, symbol] at closed once
  have apart : Symbol.nonterminal .pattern ∉ before.map Tree.symbol ∧
      Symbol.nonterminal .pattern ∉ after.map Tree.symbol := by
    rw [List.count_append, List.count_cons_self] at once
    exact ⟨List.count_eq_zero.mp (by omega), List.count_eq_zero.mp (by omega)⟩
  rw [List.takeWhile_append_of_pos, List.takeWhile_cons_of_neg (by simp), List.append_nil] at closed
  · obtain ⟨front, rest, rfl, ahead, parted⟩ := forall₂_append_left parted
    rcases parted with _ | ⟨made, behind⟩
    obtain ⟨e, only⟩ := assemble_expr (each pattern (by simp)) symbol rfl made
    refine ⟨e, .mk ?_ ahead ?_ made only behind⟩
    · intro c listed same
      rcases List.mem_append.mp listed with listed | listed
      · exact apart.1 (same ▸ List.mem_map_of_mem listed)
      · exact apart.2 (same ▸ List.mem_map_of_mem listed)
    · intro f listed
      obtain ⟨listed, counts⟩ := List.mem_filter.mp listed
      obtain ⟨part, known, found⟩ := List.mem_flatMap.mp listed
      obtain ⟨c, child, inner⟩ := mem_of_forall₂ ahead known
      have shut := List.all_eq_true.mp closed _ (List.mem_map_of_mem child)
      exact given_closed (each c (by simp [child])) shut keeps inner found counts
  · intro s listed
    exact bne_iff_ne.mpr fun same => apart.1 (same ▸ listed)

/-- The first expression behind words is the only place where an expression can be. -/
theorem words_cons {front back rest : List Fragment} {target : Expr}
    (words : ∀ f ∈ front, ∃ w, f = .word w)
    (same : front ++ .expr e :: back = .expr target :: rest) :
    front = [] ∧ e = target ∧ back = rest := by
  cases front with
  | nil => simpa using same
  | cons f front =>
    obtain ⟨w, rfl⟩ := words f (by simp)
    cases same

/-- What stands around a pattern declares the names that are read off the pattern. -/
theorem declared_around (valid : (node p children).valid grammar = true)
    (made : (node p children).assemble = .ok a) (child : pattern ∈ children)
    (symbol : pattern.symbol = .nonterminal .pattern) :
    ∃ f, a.fragments = [f] ∧ f.declared = pattern.mentioned := by
  obtain ⟨actions, -⟩ := pattern_cases valid child symbol
  obtain ⟨parts, parted, applied⟩ := assemble_applies valid made
  have formed := assemble_formed valid made p.head rfl
  obtain ⟨e, around⟩ := around_pattern valid child symbol parted
  cases around with
  | @mk before after front back part _ _ words inner only _ =>
    rw [mentioned_expr inner only]
    have shape : given p.action (front ++ part :: back) =
        given p.action front ++ .expr e :: given p.action back := by
      rw [given_append, given_cons_expr only]
    generalize given p.action (front ++ part :: back) = fs at shape applied
    generalize given p.action front = ahead at shape words
    generalize a.fragments = out at applied formed ⊢
    rcases actions with action | action | action | action | ⟨action, head⟩ <;>
      rw [action] at applied <;> cases applied
    case declarator =>
      obtain ⟨-, rfl, -⟩ := words_cons words shape.symm
      exact ⟨_, rfl, rfl⟩
    case bareDeclarator =>
      obtain ⟨-, rfl, -⟩ := words_cons words shape.symm
      exact ⟨_, rfl, rfl⟩
    case boundNames =>
      obtain ⟨-, rfl, -⟩ := words_cons words shape.symm
      exact ⟨_, rfl, rfl⟩
    case forDeclaration kind target =>
      obtain _ | ⟨f, ahead⟩ := ahead
      · cases shape
      · obtain ⟨-, shape⟩ := List.cons.inj shape
        obtain ⟨-, rfl, -⟩ := words_cons (fun f listed => words f (by simp [listed])) shape.symm
        exact ⟨_, rfl, by simp [Fragment.declared, Declarator.names]⟩
    case forTarget target =>
      obtain ⟨-, rfl, -⟩ := words_cons words shape.symm
      exact ⟨_, rfl, by simp [Fragment.declared, Expr.boundNames, boundNamesOfParts]⟩
    case catchAll =>
      obtain _ | ⟨f, ahead⟩ := ahead <;> simp at shape
    case catchClause =>
      obtain ⟨-, rfl, -⟩ := words_cons words shape.symm
      exact ⟨_, rfl, by simp [Fragment.declared, Declarator.names]⟩
    case splice =>
      obtain ⟨form, listed, fits⟩ := formed
      simp only [head, Nonterminal.forms, List.mem_cons, List.not_mem_nil, or_false] at listed
      obtain ⟨f, rfl⟩ : ∃ f, fs = [f] := by
        rcases listed with rfl | rfl <;> rcases fits with _ | ⟨_, ⟨⟩⟩ <;> exact ⟨_, rfl⟩
      obtain _ | ⟨_, ahead⟩ := ahead
      · obtain ⟨rfl, -⟩ := List.cons.inj shape
        exact ⟨_, rfl, rfl⟩
      · simp at shape

end Tree

/-- What is declared for a pattern. Whatever stands in a script around a pattern of a
declaration, a parameter, a loop or a `catch` declares all names that the pattern binds, in
order. It declares nothing else if and only if no default value of an element or of an entry in
the pattern has a name in it outside of calls, functions, statements and computed keys. -/
theorem declared_names_iff {source : Text} {s : StyleSplit.Script} {whole : Tree}
    (parsed : parse source = .ok s) (derived : derive source = .ok whole) {p : Production}
    {children : List Tree} (within : Tree.Within (.node p children) whole) {pattern : Tree}
    (child : pattern ∈ children) (symbol : pattern.symbol = .nonterminal .pattern) {t : Target}
    (binds : pattern.target? = some t) :
    ∃ place f, (Tree.node p children).assemble = .ok ⟨place, [f]⟩ ∧ t.names.Sublist f.declared ∧
      (f.declared = t.names ↔ ∀ d ∈ t.defaults, ∀ name, ¬d.Mentions name) := by
  obtain ⟨valid, -⟩ := derive_ok derived
  obtain ⟨a, assembled, -⟩ := parse_assembled parsed derived
  obtain ⟨b, made⟩ := within.made assembled
  obtain ⟨c, inner⟩ := (within.descend child).made assembled
  obtain ⟨f, only, names⟩ := Tree.declared_around (within.valid valid) made child symbol
  have reads := Tree.target_reads ((within.descend child).valid valid) inner binds
  exact ⟨_, f, Tree.assemble_only made only, names ▸ reads.sub, names ▸ reads.eq_iff⟩

/-- The declarators of a derivation whose pattern binds some names and which declare others. -/
def Tree.declaring (names declared : List Text) (whole : Tree) : Bool :=
  (whole.parts .declarator).any fun
    | .node p (pattern :: rest) =>
      pattern.symbol == .nonterminal .pattern && pattern.target?.any (·.names == names) &&
        match (Tree.node p (pattern :: rest)).assemble with
        | .ok ⟨_, [f]⟩ => f.declared == declared
        | _ => false
    | _ => false

theorem Tree.exists_declarator {names declared : List Text} {whole : Tree}
    (found : whole.declaring names declared = true) : ∃ p pattern rest t place f,
      Within (.node p (pattern :: rest)) whole ∧ pattern.symbol = .nonterminal .pattern ∧
        pattern.target? = some t ∧ t.names = names ∧
        (node p (pattern :: rest)).assemble = .ok ⟨place, [f]⟩ ∧ f.declared = declared := by
  obtain ⟨part, listed, found⟩ := List.any_eq_true.mp found
  obtain ⟨-, within⟩ := mem_parts listed
  split at found
  · rename_i p pattern rest
    simp only [Bool.and_eq_true, beq_iff_eq] at found
    obtain ⟨⟨symbol, binds⟩, found⟩ := found
    obtain ⟨t, binds, names⟩ := (Option.any_eq_true _ _).mp binds
    split at found
    · rename_i place f made
      exact ⟨p, pattern, rest, t, place, f, within, symbol, binds, beq_iff_eq.mp names, made,
        beq_iff_eq.mp found⟩
    · cases found
  · cases found

/-- The script `let{a:[b=1],...c}=d`. -/
def takenApartSource : Text := text "let\x7ba:[b=1],...c\x7d=d"

theorem declared_names_iff_taken : ∃ s whole p pattern rest t place f,
    parse takenApartSource = .ok s ∧ derive takenApartSource = .ok whole ∧
      Tree.Within (.node p (pattern :: rest)) whole ∧ pattern ∈ pattern :: rest ∧
      pattern.symbol = .nonterminal .pattern ∧ pattern.target? = some t ∧
      t.names = [text "b", text "c"] ∧
      (Tree.node p (pattern :: rest)).assemble = .ok ⟨place, [f]⟩ ∧
      ∀ d ∈ t.defaults, ∀ name, ¬d.Mentions name := by
  have checked : reads takenApartSource (fun whole _ =>
      whole.declaring [text "b", text "c"] [text "b", text "c"]) = true := by decide +kernel
  obtain ⟨s, whole, parsed, derived, found⟩ := exists_of_reads checked
  obtain ⟨p, pattern, rest, t, place, f, within, symbol, binds, names, made, declared⟩ :=
    Tree.exists_declarator found
  obtain ⟨place', f', made', -, exactly⟩ :=
    declared_names_iff parsed derived within List.mem_cons_self symbol binds
  obtain ⟨-, same⟩ := Assembled.mk.inj (Except.ok.inj (made.symm.trans made'))
  cases same
  exact ⟨s, whole, p, pattern, rest, t, place, f, parsed, derived, within, List.mem_cons_self,
    symbol, binds, names, made, exactly.mp (declared.trans names.symm)⟩

/-- The script `const[a=b]=c`. -/
def defaultSource : Text := text "const[a=b]=c"

/-- The pattern `[a=b]` binds `a`, and `b` is declared with it. -/
theorem default_declared : ∃ s whole p pattern rest t place f,
    parse defaultSource = .ok s ∧ derive defaultSource = .ok whole ∧
      Tree.Within (.node p (pattern :: rest)) whole ∧
      pattern.symbol = .nonterminal .pattern ∧ pattern.target? = some t ∧
      t.names = [text "a"] ∧ (Tree.node p (pattern :: rest)).assemble = .ok ⟨place, [f]⟩ ∧
      f.declared = [text "a", text "b"] := by
  have checked : reads defaultSource (fun whole _ =>
      whole.declaring [text "a"] [text "a", text "b"]) = true := by decide +kernel
  obtain ⟨s, whole, parsed, derived, found⟩ := exists_of_reads checked
  obtain ⟨p, pattern, rest, t, place, f, found⟩ := Tree.exists_declarator found
  exact ⟨s, whole, p, pattern, rest, t, place, f, parsed, derived, found⟩

end StyleSplit.Script
