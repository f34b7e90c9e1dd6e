import StyleSplit.Proofs.Script.Everywhere
import StyleSplit.Proofs.Script.Targets

/-! Which writes of a script its tree shows. Something that is assigned to becomes an expression
that knows the names it writes to. Most productions keep all that they are given, but a list of
parameters, a shorthand entry and what stands around a pattern make names of it. The tree shows
a write if and only if it stands in nothing that is made into names. -/
namespace StyleSplit.Script

namespace Node

variable {n inner : Node} {e w : Expr} {span : Span}

theorem holds_iff : Holds n inner ↔ n = inner ∨ ∃ c ∈ n.children, Holds c inner := by
  constructor
  · rintro (_ | ⟨child, held⟩)
    · exact .inl rfl
    · exact .inr ⟨_, child, held⟩
  · rintro (rfl | ⟨c, child, held⟩)
    · exact .self
    · exact .inside child held

theorem holds_stmt {s : Stmt} :
    Holds (.stmt s) (.expr w) ↔ ∃ c ∈ ofStmt s, Holds c (.expr w) := by
  rw [holds_iff, or_iff_right (by simp)]
  rfl

@[simp] theorem holds_declaration {kind : VariableKind} {declarators : List Declarator} :
    Holds (.stmt (.declaration span kind declarators)) (.expr w) ↔
      ∃ d ∈ declarators, ∃ e, d.init = some e ∧ Holds (.expr e) (.expr w) := by
  simp [holds_stmt, ofStmt, and_assoc]

@[simp] theorem holds_definition {name : Text} :
    Holds (.stmt (.function span name e)) (.expr w) ↔ Holds (.expr e) (.expr w) := by
  simp [holds_stmt, ofStmt]

@[simp] theorem holds_class {name : Text} :
    Holds (.stmt (.class_ span name e)) (.expr w) ↔ Holds (.expr e) (.expr w) := by
  simp [holds_stmt, ofStmt]

@[simp] theorem holds_imports {names : List Text} :
    ¬Holds (.stmt (.imports span names)) (.expr w) := by
  simp [holds_stmt, ofStmt]

@[simp] theorem holds_expression :
    Holds (.stmt (.expression span e)) (.expr w) ↔ Holds (.expr e) (.expr w) := by
  simp [holds_stmt, ofStmt]

@[simp] theorem holds_block {body : List Stmt} :
    Holds (.stmt (.block span body)) (.expr w) ↔ ∃ s ∈ body, Holds (.stmt s) (.expr w) := by
  simp [holds_stmt, ofStmt]

@[simp] theorem holds_control {parts : List Part} :
    Holds (.stmt (.control span parts)) (.expr w) ↔
      ∃ part ∈ parts, Holds part.toNode (.expr w) := by
  simp [holds_stmt, ofStmt]

theorem holds_entry {entry : Entry} :
    Holds (.entry entry) (.expr w) ↔ ∃ c ∈ ofEntry entry, Holds c (.expr w) := by
  rw [holds_iff, or_iff_right (by simp)]
  rfl

@[simp] theorem holds_spread {shorthand : Bool} :
    Holds (.entry (.mk span none e false shorthand)) (.expr w) ↔ Holds (.expr e) (.expr w) := by
  simp [holds_entry, ofEntry]

@[simp] theorem holds_keyed {key : Expr} {shorthand : Bool} :
    Holds (.entry (.mk span (some key) e false shorthand)) (.expr w) ↔
      Holds (.expr e) (.expr w) := by
  simp [holds_entry, ofEntry]

@[simp] theorem holds_computed {key : Expr} {shorthand : Bool} :
    Holds (.entry (.mk span (some key) e true shorthand)) (.expr w) ↔
      Holds (.expr key) (.expr w) ∨ Holds (.expr e) (.expr w) := by
  simp [holds_entry, ofEntry]

/-- What writes to something holds its parts besides. -/
theorem holds_other {parts : List Part} {assigns : List Text} {own : Option Text} :
    Holds (.expr (.other span parts assigns own)) (.expr w) ↔
      .other span parts assigns own = w ∨ ∃ part ∈ parts, Holds part.toNode (.expr w) := by
  rw [holds_iff]
  simp [children, ofExpr]

section

variable (writes : w.assigns ≠ [])

include writes

/-- What writes to nothing holds a write only if something inside it does. -/
theorem holds_silent (silent : e.assigns = []) :
    Holds (.expr e) (.expr w) ↔ ∃ c ∈ ofExpr e, Holds c (.expr w) := by
  rw [holds_iff, or_iff_right]
  · rfl
  · rintro ⟨⟩
    exact writes silent

theorem holds_literal {value : Scalar} : ¬Holds (.expr (.literal span value)) (.expr w) := by
  rw [holds_silent writes (by rfl)]
  simp [ofExpr]

theorem holds_identifier {name : Text} : ¬Holds (.expr (.identifier span name)) (.expr w) := by
  rw [holds_silent writes (by rfl)]
  simp [ofExpr]

theorem holds_list {items : List Expr} :
    Holds (.expr (.list span items)) (.expr w) ↔ ∃ e ∈ items, Holds (.expr e) (.expr w) := by
  rw [holds_silent writes (by rfl)]
  simp [ofExpr]

theorem holds_mapping {entries : List Entry} :
    Holds (.expr (.mapping span entries)) (.expr w) ↔
      ∃ e ∈ entries, Holds (.entry e) (.expr w) := by
  rw [holds_silent writes (by rfl)]
  simp [ofExpr]

theorem holds_function {name : Option Text} {formals : List Text} {body : List Stmt} :
    Holds (.expr (.function span name formals body)) (.expr w) ↔
      ∃ s ∈ body, Holds (.stmt s) (.expr w) := by
  rw [holds_silent writes (by rfl)]
  simp [ofExpr]

theorem holds_call {callee : Expr} {items : List Expr} {place : Span} {name : Option Text} :
    Holds (.expr (.call span callee items place name)) (.expr w) ↔
      Holds (.expr callee) (.expr w) ∨ ∃ e ∈ items, Holds (.expr e) (.expr w) := by
  rw [holds_silent writes (by rfl)]
  simp [ofExpr]

theorem holds_parts {parts : List Part} {own : Option Text} :
    Holds (.expr (.other span parts [] own)) (.expr w) ↔
      ∃ part ∈ parts, Holds part.toNode (.expr w) := by
  rw [holds_silent writes (by rfl)]
  simp [ofExpr]

theorem holds_negated : Holds (.expr (e.negated span)) (.expr w) ↔ Holds (.expr e) (.expr w) := by
  unfold Expr.negated
  split
  · exact iff_of_false (holds_literal writes) (holds_literal writes)
  · simp [holds_parts writes, Part.toNode]

end

end Node

namespace Fragment

/-- An expression stands at or inside what a fragment puts into the tree of a script. -/
def Shows (w : Expr) : Fragment → Prop
  | expr e => Node.Holds (.expr e) (.expr w)
  | entry e => Node.Holds (.entry e) (.expr w)
  | stmt s => Node.Holds (.stmt s) (.expr w)
  | declarator d => ∃ e, d.init = some e ∧ Node.Holds (.expr e) (.expr w)
  | arguments _ items => ∃ e ∈ items, Node.Holds (.expr e) (.expr w)
  | body statements => ∃ s ∈ statements, Node.Holds (.stmt s) (.expr w)
  | token _ | word _ | names _ => False

variable {w : Expr} {fs : List Fragment}

@[simp] theorem shows_expr {e : Expr} :
    (expr e).Shows w ↔ Node.Holds (.expr e) (.expr w) := Iff.rfl

@[simp] theorem shows_entry {e : Entry} :
    (entry e).Shows w ↔ Node.Holds (.entry e) (.expr w) := Iff.rfl

@[simp] theorem shows_stmt {s : Stmt} :
    (stmt s).Shows w ↔ Node.Holds (.stmt s) (.expr w) := Iff.rfl

@[simp] theorem shows_declarator {d : Declarator} :
    (declarator d).Shows w ↔ ∃ e, d.init = some e ∧ Node.Holds (.expr e) (.expr w) := Iff.rfl

@[simp] theorem shows_arguments {span : Span} {items : List Expr} :
    (arguments span items).Shows w ↔ ∃ e ∈ items, Node.Holds (.expr e) (.expr w) := Iff.rfl

@[simp] theorem shows_body {statements : List Stmt} :
    (body statements).Shows w ↔ ∃ s ∈ statements, Node.Holds (.stmt s) (.expr w) := Iff.rfl

@[simp] theorem shows_token {t : Token} : ¬(token t).Shows w := id

@[simp] theorem shows_word {spelling : Text} : ¬(word spelling).Shows w := id

@[simp] theorem shows_names {ns : List Text} : ¬(names ns).Shows w := id

/-- Tokens, words and names show nothing. -/
theorem shows_nothing (each : ∀ f ∈ fs, ∃ role ∈ [Role.token, .word, .names], role.Fits f) :
    ¬∃ f ∈ fs, f.Shows w := by
  rintro ⟨f, listed, shows⟩
  obtain ⟨role, known, fits⟩ := each f listed
  cases fits <;> first | exact shows | simp at known

theorem shows_parts (each : ∀ f ∈ fs, ∃ role ∈ [Role.token, .expr, .stmt], role.Fits f) :
    (∃ part ∈ fs.filterMap part?, Node.Holds part.toNode (.expr w)) ↔ ∃ f ∈ fs, f.Shows w := by
  constructor
  · rintro ⟨part, member, held⟩
    obtain ⟨f, listed, same⟩ := List.mem_filterMap.mp member
    refine ⟨f, listed, ?_⟩
    cases f <;> cases same <;> exact held
  · rintro ⟨f, listed, shows⟩
    obtain ⟨role, known, fits⟩ := each f listed
    cases fits with
    | token => cases shows
    | expr e => exact ⟨.expr e, List.mem_filterMap.mpr ⟨_, listed, rfl⟩, shows⟩
    | stmt s => exact ⟨.stmt s, List.mem_filterMap.mpr ⟨_, listed, rfl⟩, shows⟩
    | _ => simp at known

theorem shows_members (each : ∀ f ∈ fs, ∃ role ∈ [Role.method, .expr], role.Fits f) :
    (∃ part ∈ fs.filterMap member?, Node.Holds part.toNode (.expr w)) ↔ ∃ f ∈ fs, f.Shows w := by
  constructor
  · rintro ⟨part, member, held⟩
    obtain ⟨f, listed, same⟩ := List.mem_filterMap.mp member
    refine ⟨f, listed, ?_⟩
    obtain ⟨role, known, fits⟩ := each f listed
    cases fits with
    | method =>
      cases same
      exact Node.holds_keyed.mpr held
    | expr =>
      cases same
      exact held
    | _ => simp at known
  · rintro ⟨f, listed, shows⟩
    obtain ⟨role, known, fits⟩ := each f listed
    cases fits with
    | method span place key value =>
      exact ⟨.expr value, List.mem_filterMap.mpr ⟨_, listed, rfl⟩, Node.holds_keyed.mp shows⟩
    | expr e => exact ⟨.expr e, List.mem_filterMap.mpr ⟨_, listed, rfl⟩, shows⟩
    | _ => simp at known

end Fragment

namespace Action

/-- What an action keeps of a row of fragments, apart from the names that it makes of it. -/
def keeps : Action → List Fragment → List Fragment
  | .parameters, _ | .boundNames, _ | .shorthandEntry, _ => []
  | .declarator, _ :: init => init
  | .forBinding, [.word _, .expr _] => []
  | .catchClause, [.expr _, last] => [last]
  | _, fs => fs

variable {action : Action} {span : Span} {fs out : List Fragment} {w : Expr}

open Node

/-- The tree shows what an action keeps, and what it writes to something itself. -/
theorem Applies.shows (applied : Applies span action fs out) (writes : w.assigns ≠ []) :
    (∃ f ∈ out, f.Shows w) ↔
      (∃ f ∈ action.keeps fs, f.Shows w) ∨ action.writes = true ∧ out = [.expr w] := by
  cases applied with
  | discard each | lastName each | imports each | exportedNames each =>
    have nothing : ¬∃ f ∈ fs, f.Shows w := by
      refine Fragment.shows_nothing fun f listed => ?_
      obtain ⟨role, known, fits⟩ := each f listed
      exact ⟨role, by rcases List.mem_pair.mp known with rfl | rfl <;> decide, fits⟩
    simp [Action.keeps, Action.writes, nothing]
  | compound each =>
    have parts := Fragment.shows_parts (w := w) fun f listed => by
      obtain ⟨role, known, fits⟩ := each f listed
      exact ⟨role, List.mem_append_left [Role.stmt] known, fits⟩
    simp [Action.keeps, Action.writes, holds_parts writes, ← parts]
  | control each => simp [Action.keeps, Action.writes, ← Fragment.shows_parts each]
  | classBody each =>
    simp [Action.keeps, Action.writes, holds_parts writes, ← Fragment.shows_members each]
  | assignment | update | forTarget =>
    simp [Action.keeps, Action.writes, holds_other, Part.toNode, or_comm]
  | negation e => simp [Action.keeps, Action.writes, holds_negated writes]
  | method | function =>
    simp [Action.keeps, Action.writes, holds_function writes, holds_literal writes,
      or_and_right, exists_or]
  | _ =>
    simp [Action.keeps, Action.writes, holds_literal writes, holds_identifier writes,
      holds_list writes, holds_mapping writes, holds_function writes, holds_call writes,
      holds_parts writes, Part.toNode, Declarator.init]

end Action

/-- Whether a production makes nothing but names of the parts of a derivation for a symbol. -/
def Production.drops (p : Production) (s : Symbol) : Bool :=
  match p.action with
  | .parameters | .boundNames | .shorthandEntry => true
  | .splice => false
  | _ => s == .nonterminal .pattern

/-- A production drops everything, nothing, or the pattern that it stands around. -/
theorem Production.drops_cases (p : Production) :
    (∀ fs, p.action.keeps fs = []) ∧ (∀ s, p.drops s = true) ∨
      (∀ fs, p.action.keeps fs = fs) ∧ (∀ s, p.drops s = false) ∨
      ∀ s, p.drops s = (s == .nonterminal .pattern) := by
  unfold drops
  split
  case h_1 action | h_2 action | h_3 action => simp [action, Action.keeps]
  case h_4 action => simp [action, Action.keeps]
  case h_5 => exact .inr (.inr fun _ => rfl)

/-- What a declarator, a loop and a `catch` are given where they stand around a pattern, and
where they do not. -/
def Production.sorted (p : Production) : Bool :=
  let taking := p.body.contains (.nonterminal .pattern)
  (p.action.allOffered p.body).all fun form =>
    match p.action with
    | .declarator => taking && form.head? == some (.one .expr)
    | .forBinding => form == if taking then [.one .word, .one .expr] else [.one .expr]
    | .catchClause => form == if taking then [.one .expr, .one .block] else [.one .block]
    | _ => true

theorem productions_sorted : ∀ n, ∀ p ∈ grammar.productions n, p.sorted = true :=
  productions_all (by decide)

namespace Tree

variable {tree part whole pattern : Tree} {p : Production} {children : List Tree}
  {a : Assembled} {parts : List Assembled} {e w : Expr}

/-- A part of a derivation that is not made into names, nor stands in anything that is. -/
inductive Kept (part : Tree) : Tree → Prop where
  | self : Kept part part
  | child {p : Production} {children : List Tree} {c : Tree} :
      c ∈ children → p.drops c.symbol = false → Kept part c → Kept part (.node p children)

/-- A part of a derivation writes to something, as an expression of the tree says. -/
def Yields (part : Tree) (w : Expr) : Prop :=
  ∃ p children place, part = .node p children ∧ p.action.writes = true ∧
    part.assemble = .ok ⟨place, [.expr w]⟩ ∧ w.assigns ≠ []

/-- An expression stands at or inside what a part of a derivation contributes. -/
def Shows (w : Expr) (tree : Tree) : Prop :=
  ∃ a, tree.assemble = .ok a ∧ ∃ f ∈ a.fragments, f.Shows w

theorem Kept.within (kept : part.Kept whole) : Within part whole := by
  induction kept with
  | self => exact .self
  | child member _ _ ih => exact .child member ih

theorem shows_iff_made (made : tree.assemble = .ok a) :
    tree.Shows w ↔ ∃ f ∈ a.fragments, f.Shows w := by
  constructor
  · rintro ⟨b, made', shows⟩
    exact Except.ok.inj (made.symm.trans made') ▸ shows
  · exact fun shows => ⟨a, made, shows⟩

theorem given_shows (action : Action)
    (parted : List.Forall₂ (fun t a => t.assemble = .ok a) children parts) :
    (∃ f ∈ given action parts, f.Shows w) ↔ ∃ c ∈ children, c.Shows w := by
  constructor
  · rintro ⟨f, listed, shows⟩
    obtain ⟨part, known, found⟩ := mem_given listed
    obtain ⟨c, child, made⟩ := mem_of_forall₂ parted known
    exact ⟨c, child, part, made, f, found, shows⟩
  · rintro ⟨c, child, b, made, f, found, shows⟩
    obtain ⟨part, known, made'⟩ := mem_of_forall₂ parted.flip child
    obtain rfl := Except.ok.inj (made.symm.trans made')
    have counts : Assembled.counts action f = true := by
      cases f <;> first | rfl | cases shows
    exact ⟨f, List.mem_filter.mpr ⟨List.mem_flatMap.mpr ⟨b, known, found⟩, counts⟩, shows⟩

/-- Where no pattern stands, everything is kept. -/
theorem keeps_all (valid : (node p children).valid grammar = true)
    (parted : List.Forall₂ (fun t a => t.assemble = .ok a) children parts)
    (absent : ∀ c ∈ children, c.symbol ≠ .nonterminal .pattern)
    (dropped : ∀ s, p.drops s = (s == .nonterminal .pattern)) :
    p.action.keeps (given p.action parts) = given p.action parts := by
  obtain ⟨member, body, -⟩ := valid_node.mp valid
  have free : Symbol.nonterminal .pattern ∉ p.body := by
    rintro listed
    obtain ⟨c, child, symbol⟩ := List.mem_map.mp (body ▸ listed)
    exact absent c child symbol
  have sorted := productions_sorted p.head p member
  obtain ⟨form, offered, fits⟩ := given_formed valid parted
  have here := List.all_eq_true.mp sorted form offered
  generalize given p.action parts = fs at fits ⊢
  unfold Action.keeps
  split
  case h_1 action | h_2 action | h_3 action =>
    simpa [Production.drops, action] using dropped (.nonterminal .program)
  case h_4 action => simp [action, free] at here
  case h_5 action =>
    simp only [action, List.contains_iff_mem, free, if_false, beq_iff_eq] at here
    subst here
    rcases fits with _ | ⟨_, ⟨⟩⟩
  case h_6 action =>
    simp only [action, List.contains_iff_mem, free, if_false, beq_iff_eq] at here
    subst here
    rcases fits with _ | ⟨_, ⟨⟩⟩
  case h_7 => rfl

/-- Around a pattern, what stands behind it is kept. -/
theorem keeps_around (valid : (node p children).valid grammar = true)
    (parted : List.Forall₂ (fun t a => t.assemble = .ok a) children parts)
    (child : pattern ∈ children) (symbol : pattern.symbol = .nonterminal .pattern)
    (dropped : ∀ s, p.drops s = (s == .nonterminal .pattern)) :
    (∃ f ∈ p.action.keeps (given p.action parts), f.Shows w) ↔
      ∃ c ∈ children, p.drops c.symbol = false ∧ c.Shows w := by
  obtain ⟨member, body, -⟩ := valid_node.mp valid
  obtain ⟨actions, -⟩ := pattern_cases valid child symbol
  have taking : p.body.contains (.nonterminal .pattern) = true :=
    List.contains_iff_mem.mpr (body ▸ symbol ▸ List.mem_map_of_mem child)
  have sorted := productions_sorted p.head p member
  obtain ⟨form, offered, fits⟩ := given_formed valid parted
  have here := List.all_eq_true.mp sorted form offered
  obtain ⟨e, around⟩ := around_pattern valid child symbol parted
  cases around with
  | @mk before after front back part others ahead words inner only behind =>
    have kept : p.action.keeps (given p.action (front ++ part :: back)) = given p.action back := by
      have shape : given p.action (front ++ part :: back) =
          given p.action front ++ .expr e :: given p.action back := by
        rw [given_append, given_cons_expr only]
      generalize given p.action (front ++ part :: back) = fs at fits shape ⊢
      generalize given p.action front = first at words shape
      generalize given p.action back = last at shape ⊢
      rcases actions with action | action | action | action | ⟨action, -⟩
      · simp only [action, taking, Bool.true_and, beq_iff_eq, List.head?_eq_some_iff] at here
        obtain ⟨_, rfl⟩ := here
        rcases fits with _ | ⟨⟨⟩, _⟩
        obtain ⟨-, -, rest⟩ := words_cons words shape.symm
        simp [action, Action.keeps, rest]
      · simpa [Production.drops, action] using dropped (.nonterminal .program)
      -- The kind of the variables stands before the pattern of a loop, and nothing behind it.
      · simp only [action, taking, if_true, beq_iff_eq] at here
        subst here
        rcases fits with _ | ⟨⟨⟩, _ | ⟨⟨⟩, ⟨⟩⟩⟩
        obtain _ | ⟨f, first⟩ := first
        · cases shape
        · obtain ⟨-, -, rest⟩ := words_cons (fun f listed => words f (by simp [listed]))
            (List.cons.inj shape).2.symm
          simp [action, Action.keeps, rest]
      · simp only [action, taking, if_true, beq_iff_eq] at here
        subst here
        rcases fits with _ | ⟨⟨⟩, _ | ⟨⟨⟩, ⟨⟩⟩⟩
        obtain ⟨-, -, rest⟩ := words_cons words shape.symm
        simp [action, Action.keeps, rest]
      · simpa [Production.drops, action] using dropped (.nonterminal .pattern)
    -- Only words stand before the pattern, so whatever shows stands behind it.
    rw [kept, given_shows p.action behind]
    have silent : ¬∃ c ∈ before, c.Shows w := by
      rw [← given_shows p.action ahead]
      rintro ⟨f, listed, shows⟩
      obtain ⟨_, rfl⟩ := words f listed
      exact shows
    constructor
    · rintro ⟨c, listed, shows⟩
      refine ⟨c, by simp [listed], ?_, shows⟩
      simpa [dropped] using others c (by simp [listed])
    · rintro ⟨c, listed, keeps, shows⟩
      rcases List.mem_append.mp listed with listed | listed
      · exact absurd ⟨c, listed, shows⟩ silent
      · rcases List.mem_cons.mp listed with rfl | listed
        · simp [dropped, symbol] at keeps
        · exact ⟨c, listed, shows⟩

/-- The tree shows what the parts show that are not made into names. -/
theorem keeps_shows (valid : (node p children).valid grammar = true)
    (parted : List.Forall₂ (fun t a => t.assemble = .ok a) children parts) :
    (∃ f ∈ p.action.keeps (given p.action parts), f.Shows w) ↔
      ∃ c ∈ children, p.drops c.symbol = false ∧ c.Shows w := by
  rcases p.drops_cases with ⟨none, all⟩ | ⟨all, none⟩ | dropped
  · simp [none, all]
  · rw [all, given_shows p.action parted]
    simp [none]
  by_cases around : ∃ c ∈ children, c.symbol = .nonterminal .pattern
  · obtain ⟨pattern, child, symbol⟩ := around
    exact keeps_around valid parted child symbol dropped
  · have absent : ∀ c ∈ children, c.symbol ≠ .nonterminal .pattern := by simpa using around
    rw [keeps_all valid parted absent dropped, given_shows p.action parted]
    exact exists_congr fun c => and_congr_right fun child => by simp [dropped, absent c child]

theorem node_shows (valid : (node p children).valid grammar = true)
    (made : (node p children).assemble = .ok a) (writes : w.assigns ≠ []) :
    (node p children).Shows w ↔
      (node p children).Yields w ∨ ∃ c ∈ children, p.drops c.symbol = false ∧ c.Shows w := by
  obtain ⟨parts, parted, applied⟩ := assemble_applies valid made
  rw [shows_iff_made made, applied.shows writes, keeps_shows valid parted, or_comm]
  refine or_congr_left ?_
  constructor
  · rintro ⟨action, only⟩
    exact ⟨p, children, a.span, rfl, action, assemble_only made only, writes⟩
  · rintro ⟨_, _, place, ⟨⟩, action, made', -⟩
    obtain rfl := Except.ok.inj (made.symm.trans made')
    exact ⟨action, rfl⟩

/-- The tree shows a write if and only if some part writes so that is not made into names. -/
theorem shows_iff_kept (valid : tree.valid grammar = true) (made : tree.assemble = .ok a)
    (writes : w.assigns ≠ []) :
    tree.Shows w ↔ ∃ part : Tree, part.Kept tree ∧ part.Yields w := by
  induction tree using Tree.induct generalizing a with
  | leaf t =>
    cases made
    constructor
    · rintro ⟨_, ⟨⟩, f, listed, shows⟩
      rw [List.mem_singleton.mp listed] at shows
      cases shows
    · rintro ⟨_, ⟨⟩, _, _, _, ⟨⟩, _⟩
  | node p children ih =>
    obtain ⟨parts, out, parted, -⟩ := assemble_node.mp made
    have below (c : Tree) (child : c ∈ children) :
        c.Shows w ↔ ∃ part : Tree, part.Kept c ∧ part.Yields w := by
      obtain ⟨b, -, inner⟩ := mem_of_forall₂ parted.flip child
      exact ih c child ((valid_node.mp valid).2.2 c child) inner
    rw [node_shows valid made writes]
    constructor
    · rintro (yields | ⟨c, child, keeps, shows⟩)
      · exact ⟨_, .self, yields⟩
      · obtain ⟨part, kept, yields⟩ := (below c child).mp shows
        exact ⟨part, .child child keeps kept, yields⟩
    · rintro ⟨part, _ | ⟨child, keeps, kept⟩, yields⟩
      · exact .inl yields
      · exact .inr ⟨_, child, keeps, (below _ child).mpr ⟨part, kept, yields⟩⟩

/-- What gives values to names writes to something, and the tree knows the names. -/
theorem yields_of_overwritten (valid : tree.valid grammar = true) (made : tree.assemble = .ok a)
    {name : Text} (overwritten : name ∈ tree.overwritten) :
    ∃ w, tree.Yields w ∧ name ∈ w.assigns := by
  cases tree with
  | leaf t => simp [Tree.overwritten] at overwritten
  | node p children =>
    obtain ⟨writes, w, only, known⟩ := overwritten_assigns valid made overwritten
    exact ⟨w, ⟨p, children, a.span, rfl, writes, assemble_only made only,
      List.ne_nil_of_mem known⟩, known⟩

end Tree

end StyleSplit.Script
