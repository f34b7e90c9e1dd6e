import Mathlib.Data.Set.List
import StyleSplit.Proofs.Script.Extents

/-! What productions are given and what they make of it. Every nonterminal contributes
fragments in known roles, a fixed few or any number of them, so no production is ever given
fragments that its action has no use for. What a production makes can then be told apart by
its action, without the cases that the grammar does not offer. -/
namespace StyleSplit.Script

/-- What a fragment is used as. A key is an expression that is a literal, the members of a class
are one that writes to nothing, a method is an entry, and a block is a statement. -/
inductive Role where
  | token | word | names | key | members | expr | method | entry | stmt | block | declarator
  | arguments | body
deriving DecidableEq

namespace Role

/-- A fragment can be used in a role. -/
inductive Fits : Role → Fragment → Prop where
  | token (t : Token) : Fits .token (.token t)
  | word (spelling : Text) : Fits .word (.word spelling)
  | names (names : List Text) : Fits .names (.names names)
  | key (span : Span) (value : Scalar) : Fits .key (.expr (.literal span value))
  | members (span : Span) (parts : List Part) : Fits .members (.expr (.other span parts [] none))
  | expr (e : Expr) : Fits .expr (.expr e)
  | method (span place : Span) (key : Scalar) (value : Expr) :
      Fits .method (.entry (.mk span (some (.literal place key)) value false false))
  | entry (e : Entry) : Fits .entry (.entry e)
  | stmt (s : Stmt) : Fits .stmt (.stmt s)
  | block (span : Span) (body : List Stmt) : Fits .block (.stmt (.block span body))
  | declarator (d : Declarator) : Fits .declarator (.declarator d)
  | arguments (span : Span) (items : List Expr) : Fits .arguments (.arguments span items)
  | body (statements : List Stmt) : Fits .body (.body statements)

/-- What has one role can be used in another one. -/
def serves (role other : Role) : Bool :=
  role == other || (role == .key || role == .members) && other == .expr ||
    role == .method && other == .entry || role == .block && other == .stmt

theorem Fits.serves {role other : Role} {f : Fragment} (fits : Fits role f)
    (serves : role.serves other = true) : Fits other f := by
  simp only [Role.serves, Bool.or_eq_true, Bool.and_eq_true, beq_iff_eq] at serves
  rcases serves with ((rfl | ⟨rfl | rfl, rfl⟩) | ⟨rfl, rfl⟩) | ⟨rfl, rfl⟩
  · exact fits
  · cases fits
    exact .expr _
  · cases fits
    exact .expr _
  · cases fits
    exact .entry _
  · cases fits
    exact .stmt _

end Role

/-- A part of a row of fragments: a single one in a role, or any number of them, each in one of
some roles. -/
inductive Segment where
  | one (role : Role)
  | many (roles : List Role)
deriving DecidableEq

/-- The form of a row of fragments. -/
abbrev Form := List Segment

namespace Form

/-- A row of fragments has a form. -/
inductive Fits : Form → List Fragment → Prop where
  | nil : Fits [] []
  | one {role : Role} {form : Form} {f : Fragment} {fs : List Fragment} :
      role.Fits f → Fits form fs → Fits (.one role :: form) (f :: fs)
  | many {roles : List Role} {form : Form} {front fs : List Fragment} :
      (∀ f ∈ front, ∃ role ∈ roles, role.Fits f) → Fits form fs →
        Fits (.many roles :: form) (front ++ fs)

def roles : Segment → List Role
  | .one role => [role]
  | .many roles => roles

/-- Whether all parts of a form can be used in some roles. -/
def among (allowed : List Role) (form : Form) : Bool :=
  form.all fun segment => (roles segment).all fun role => allowed.any role.serves

/-- Whether what has a form has another one: the same, or one that has any number of
fragments in some roles. -/
def suits (form : Form) : Form → Bool
  | [.many allowed] => form.among allowed
  | [.one other] =>
    match form with
    | [.one role] => role.serves other
    | _ => false
  | other => form == other

/-- Whether no part of a form is a single token. -/
def tokenless (form : Form) : Bool := !form.contains (.one .token)

variable {form other : Form} {fs : List Fragment} {allowed : List Role}

theorem Fits.append {fs' : List Fragment} (first : Fits form fs) (last : Fits other fs') :
    Fits (form ++ other) (fs ++ fs') := by
  induction first with
  | nil => exact last
  | one fits _ ih => exact .one fits ih
  | many each _ ih =>
    rw [List.append_assoc]
    exact .many each ih

theorem Fits.single {role : Role} {f : Fragment} (fits : role.Fits f) : Fits [.one role] [f] :=
  .one fits .nil

theorem Fits.among (fits : Fits form fs) (among : form.among allowed = true) :
    ∀ f ∈ fs, ∃ role ∈ allowed, role.Fits f := by
  have one {segment : Segment} {rest : Form} (all : Form.among allowed (segment :: rest) = true)
      {role : Role} (member : role ∈ roles segment) {f : Fragment} (fits : role.Fits f) :
      ∃ role ∈ allowed, role.Fits f := by
    have here := List.all_eq_true.mp (List.all_eq_true.mp all segment (by simp)) role member
    obtain ⟨other, listed, serves⟩ := List.any_eq_true.mp here
    exact ⟨other, listed, fits.serves serves⟩
  have tail {segment : Segment} {rest : Form} (all : Form.among allowed (segment :: rest) = true) :
      Form.among allowed rest = true := (Bool.and_eq_true_iff.mp all).2
  induction fits with
  | nil => simp
  | one fits _ ih =>
    intro f member
    rcases List.mem_cons.mp member with rfl | member
    · exact one among (List.mem_singleton.mpr rfl) fits
    · exact ih (tail among) f member
  | many each _ ih =>
    intro f member
    rcases List.mem_append.mp member with member | member
    · obtain ⟨role, listed, fits⟩ := each f member
      exact one among listed fits
    · exact ih (tail among) f member

theorem Fits.suits (fits : Fits form fs) (suits : form.suits other = true) : Fits other fs := by
  unfold Form.suits at suits
  split at suits
  · rw [← List.append_nil fs]
    exact .many (fits.among suits) .nil
  · split at suits
    · cases fits with
      | one fits none =>
        cases none
        exact .single (fits.serves suits)
    · contradiction
  · exact beq_iff_eq.mp suits ▸ fits

/-- Only single tokens can be left out of a row without changing its form. -/
theorem Fits.counting (fits : Fits form fs) (tokenless : form.tokenless = true)
    (action : Action) : Fits form (fs.filter (Assembled.counts action)) := by
  have tail {segment : Segment} {rest : Form} (none : Form.tokenless (segment :: rest) = true) :
      Form.tokenless rest = true := by
    simp only [Form.tokenless, List.contains_cons, Bool.not_eq_true', Bool.or_eq_false_iff]
      at none ⊢
    exact none.2
  induction fits with
  | nil => exact .nil
  | @one role _ f _ fits _ ih =>
    have counts : Assembled.counts action f = true := by
      cases fits with
      | token => simp [Form.tokenless] at tokenless
      | _ => rfl
    rw [List.filter_cons_of_pos counts]
    exact .one fits (ih (tail tokenless))
  | many each _ ih =>
    rw [List.filter_append]
    exact .many (fun f member => each f (List.mem_filter.mp member).1) (ih (tail tokenless))

end Form

/-- The forms of what a nonterminal contributes. -/
def Nonterminal.forms : Nonterminal → List Form
  | .program | .statements | .statement => [[.many [.stmt]]]
  | .openStatement | .simpleStatement | .variableDeclaration | .functionDeclaration
  | .classDeclaration | .importDeclaration | .exportDeclaration | .returnStatement
  | .throwStatement | .jumpStatement | .ifStatement | .whileStatement | .doStatement
  | .forStatement | .forInStatement | .tryStatement | .expressionStatement => [[.one .stmt]]
  | .block | .catchClause | .finallyClause => [[.one .block]]
  | .semicolon | .emptyStatement | .exportClause | .exportSpecifier | .moreExportSpecifiers
  | .assignOperator | .binaryOperator | .unaryOperator | .updateOperator => [[]]
  | .variableKind | .propertyName => [[.one .word]]
  | .declarator => [[.one .declarator]]
  | .moreDeclarators => [[.many [.declarator]]]
  | .parameters | .importDefault | .importNamespace | .importSpecifier | .arrowParameters =>
    [[.one .names]]
  | .importClause | .namedImports | .moreImportSpecifiers => [[.many [.names]]]
  | .parameter => [[.one .expr], [.one .names]]
  | .moreParameters => [[.many [.expr, .names]]]
  | .functionBody => [[.one .body]]
  | .arrowBody => [[.one .body], [.one .expr]]
  | .member | .moreMembers => [[.many [.method, .expr]]]
  | .field => [[], [.one .expr]]
  | .forInit | .forBinding => [[.one .stmt], [.one .expr]]
  | .arguments => [[.one .arguments]]
  | .moreElements => [[.many [.expr]]]
  | .property => [[.one .entry]]
  | .method => [[.one .method]]
  | .moreProperties => [[.many [.entry]]]
  | .modifier | .moreModifiers => [[.many [.token]]]
  | .propertyKey => [[.one .key]]
  | .classBody => [[.one .members]]
  | .pattern | .heritage | .expression | .assignment | .conditional | .binary
  | .unary | .suffixUpdate | .callMember | .construction | .bareConstruction | .constructor
  | .element | .spread | .primary | .arrayLiteral | .objectLiteral | .functionExpression
  | .classExpression | .arrowFunction => [[.one .expr]]

namespace Action

/-- The forms of what a production is given by a symbol of its body. A bare word or mark does
not count. -/
def offered (action : Action) : Symbol → List Form
  | .terminal t => [if t.isOpen || action.keepsMarks then [.one .token] else []]
  | .nonterminal n => n.forms

/-- The forms of what a production is given by its body. -/
def allOffered (action : Action) : List Symbol → List Form
  | [] => [[]]
  | x :: rest => (action.offered x).flatMap fun front => (action.allOffered rest).map (front ++ ·)

/-- Whether an action has a use for a row of fragments. -/
def takes (action : Action) (form : Form) : Bool :=
  match action, form with
  | .splice, _ | .true_, [] | .false_, [] | .null, [] => true
  | .identifier, [.one .token] | .number, [.one .token] | .string, [.one .token]
  | .template, [.one .token] | .word, [.one .token] | .stringKey, [.one .token]
  | .numberKey, [.one .token] | .shorthandEntry, .one .token :: _ => true
  | .nameKey, [.one .word] | .spreadEntry, [.one .expr] | .update, [.one .expr]
  | .negation, [.one .expr] | .expressionStatement, [.one .expr] => true
  | .keyedEntry, [.one .key, .one .expr] | .computedEntry, [.one .expr, .one .expr]
  | .assignment, [.one .expr, .one .expr] | .field, [.one .key] | .field, [.one .key, .one .expr]
  | .method, [.one .key, .one .names, .one .body]
  | .method, [.many [.token], .one .key, .one .names, .one .body] => true
  | .boundNames, .one .expr :: _ => true
  | .function, [.one .token, .one .names, .one .body] | .function, [.one .names, .one .body]
  | .functionDeclaration, [.one .token, .one .names, .one .body]
  | .arrow, [.one .names, .one .body] | .arrow, [.one .names, .one .expr] => true
  | .member, [.one .expr, .one .word] | .call, [.one .expr, .one .arguments]
  | .construction, [.one .expr, .one .arguments] | .construction, [.one .expr]
  | .declarator, [.one .expr] | .declarator, [.one .expr, .one .expr]
  | .classDeclaration, [.one .token, .one .members]
  | .classDeclaration, [.one .token, .one .expr, .one .members]
  | .exported, [.one .stmt] | .exported, [.one .expr]
  | .forBinding, [.one .word, .one .expr] | .forBinding, [.one .expr]
  | .catchClause, [.one .block] | .catchClause, [.one .expr, .one .block] => true
  | .declaration, .one .word :: rest => Form.among [.declarator] rest
  | .discard, form | .lastName, form | .exported, form => form.among [.token, .word]
  | .compound, form => form.among [.token, .expr]
  | .list, form | .arguments, form => form.among [.expr]
  | .mapping, form => form.among [.entry]
  | .parameters, form => form.among [.expr, .names]
  | .body, form | .block, form => form.among [.stmt]
  | .classBody, form => form.among [.method, .expr]
  | .imports, form => form.among [.token, .names]
  | .control, form => form.among [.token, .expr, .stmt]
  | _, _ => false

/-- The forms of what an action makes of a row of fragments. -/
def gives (action : Action) (form : Form) : List Form :=
  match action with
  | .splice => [form]
  | .discard => [[]]
  | .field => [[], [.one .expr]]
  | .word => [[.one .word]]
  | .nameKey | .stringKey | .numberKey => [[.one .key]]
  | .classBody => [[.one .members]]
  | .method => [[.one .method]]
  | .shorthandEntry | .spreadEntry | .keyedEntry | .computedEntry => [[.one .entry]]
  | .parameters | .boundNames | .lastName => [[.one .names]]
  | .body => [[.one .body]]
  | .arguments => [[.one .arguments]]
  | .declarator => [[.one .declarator]]
  | .forBinding => [[.one .stmt], [.one .expr]]
  | .declaration | .functionDeclaration | .classDeclaration | .imports | .exported
  | .expressionStatement | .control => [[.one .stmt]]
  | .block | .catchClause => [[.one .block]]
  | _ => [[.one .expr]]

end Action

/-- Whether a production can only be given what its action has a use for, and what it then makes
has one of the forms of its head. -/
def Production.formed (p : Production) : Bool :=
  (p.action.allOffered p.body).all fun form =>
    p.action.takes form && (p.action.gives form).all fun made => p.head.forms.any made.suits

theorem productions_formed : ∀ n, ∀ p ∈ grammar.productions n, p.formed = true :=
  productions_all (by decide)

namespace Fragment

variable {fs : List Fragment} {role : Role} {α : Type} {make : α → Fragment}

/-- Fragments in one role are made of things of one type. -/
theorem exists_map (only : ∀ f, role.Fits f → ∃ a, make a = f)
    (each : ∀ f ∈ fs, ∃ other ∈ [role], other.Fits f) : ∃ as : List α, fs = as.map make := by
  have all : fs ∈ Set.range (List.map make) := by
    rw [Set.range_list_map]
    intro f member
    obtain ⟨other, listed, fits⟩ := each f member
    exact only f (List.mem_singleton.mp listed ▸ fits)
  obtain ⟨as, rfl⟩ := all
  exact ⟨as, rfl⟩

theorem exists_exprs (each : ∀ f ∈ fs, ∃ role ∈ [Role.expr], role.Fits f) :
    ∃ items : List Expr, fs = items.map .expr :=
  exists_map (fun _ fits => by cases fits; exact ⟨_, rfl⟩) each

theorem exists_entries (each : ∀ f ∈ fs, ∃ role ∈ [Role.entry], role.Fits f) :
    ∃ entries : List Entry, fs = entries.map .entry :=
  exists_map (fun _ fits => by cases fits; exact ⟨_, rfl⟩) each

theorem exists_stmts (each : ∀ f ∈ fs, ∃ role ∈ [Role.stmt], role.Fits f) :
    ∃ statements : List Stmt, fs = statements.map .stmt :=
  exists_map (fun _ fits => by cases fits; exact ⟨_, rfl⟩) each

theorem exists_declarators (each : ∀ f ∈ fs, ∃ role ∈ [Role.declarator], role.Fits f) :
    ∃ declarators : List Declarator, fs = declarators.map .declarator :=
  exists_map (fun _ fits => by cases fits; exact ⟨_, rfl⟩) each

theorem exists_tokens (each : ∀ f ∈ fs, ∃ role ∈ [Role.token], role.Fits f) :
    ∃ tokens : List Token, fs = tokens.map .token :=
  exists_map (fun _ fits => by cases fits; exact ⟨_, rfl⟩) each

@[simp] theorem filterMap_expr? (items : List Expr) :
    (items.map Fragment.expr).filterMap expr? = items := by
  simp [List.filterMap_map, Function.comp_def, expr?]

@[simp] theorem filterMap_entry? (entries : List Entry) :
    (entries.map Fragment.entry).filterMap entry? = entries := by
  simp [List.filterMap_map, Function.comp_def, entry?]

@[simp] theorem filterMap_stmt? (statements : List Stmt) :
    (statements.map Fragment.stmt).filterMap stmt? = statements := by
  simp [List.filterMap_map, Function.comp_def, stmt?]

@[simp] theorem filterMap_declarator? (declarators : List Declarator) :
    (declarators.map Fragment.declarator).filterMap declarator? = declarators := by
  simp [List.filterMap_map, Function.comp_def, declarator?]

@[simp] theorem filter_tokens (tokens : List Token) :
    (tokens.map Fragment.token).filter (!·.isToken) = [] := by
  simp [isToken]

end Fragment

namespace Action

/-- What an action makes of the fragments that the grammar offers to it. -/
inductive Applies (span : Span) : Action → List Fragment → List Fragment → Prop where
  | splice (fs : List Fragment) : Applies span .splice fs fs
  | discard {fs : List Fragment} : (∀ f ∈ fs, ∃ role ∈ [Role.token, .word], role.Fits f) →
      Applies span .discard fs []
  | identifier (t : Token) : Applies span .identifier [.token t] [.expr (.identifier span t.text)]
  | number (t : Token) (value : Scalar) :
      Applies span .number [.token t] [.expr (.literal span value)]
  | string (t : Token) (value : Scalar) :
      Applies span .string [.token t] [.expr (.literal span value)]
  | stringKey (t : Token) (value : Scalar) :
      Applies span .stringKey [.token t] [.expr (.literal span value)]
  | numberKey (t : Token) (value : Scalar) :
      Applies span .numberKey [.token t] [.expr (.literal span value)]
  | template (t : Token) (value : Scalar) :
      Applies span .template [.token t] [.expr (.literal span value)]
  | substituted (t : Token) : Applies span .template [.token t] [.expr (.other span [] [] none)]
  | true_ : Applies span .true_ [] [.expr (.literal span (.bool true))]
  | false_ : Applies span .false_ [] [.expr (.literal span (.bool false))]
  | null : Applies span .null [] [.expr (.literal span .null)]
  | word (t : Token) : Applies span .word [.token t] [.word t.text]
  | nameKey (spelling : Text) :
      Applies span .nameKey [.word spelling] [.expr (.literal span (.text spelling))]
  | shorthandEntry (t : Token) (rest : List Fragment) :
      Applies span .shorthandEntry (.token t :: rest)
        [.entry (.mk span (some (.literal t.span (.text t.text))) (.identifier t.span t.text)
          false true)]
  | compound {fs : List Fragment} : (∀ f ∈ fs, ∃ role ∈ [Role.token, .expr], role.Fits f) →
      Applies span .compound fs [.expr (.other span (fs.filterMap Fragment.part?) [] none)]
  | list (items : List Expr) :
      Applies span .list (items.map .expr) [.expr (.list span items)]
  | mapping (entries : List Entry) :
      Applies span .mapping (entries.map .entry) [.expr (.mapping span entries)]
  | spreadEntry (e : Expr) :
      Applies span .spreadEntry [.expr e] [.entry (.mk span none e false false)]
  | keyedEntry (place : Span) (key : Scalar) (value : Expr) :
      Applies span .keyedEntry [.expr (.literal place key), .expr value]
        [.entry (.mk span (some (.literal place key)) value false false)]
  | computedEntry (key value : Expr) :
      Applies span .computedEntry [.expr key, .expr value]
        [.entry (.mk span (some key) value true false)]
  | method (tokens : List Token) (place : Span) (key : Scalar) (formals : List Text)
      (statements : List Stmt) :
      Applies span .method
        (tokens.map .token ++ [.expr (.literal place key), .names formals, .body statements])
        [.entry (.mk span (some (.literal place key)) (.function span none formals statements)
          false false)]
  | parameters {fs : List Fragment} : (∀ f ∈ fs, ∃ role ∈ [Role.expr, .names], role.Fits f) →
      Applies span .parameters fs [.names (fs.flatMap Fragment.boundNames)]
  | boundNames (e : Expr) (rest : List Fragment) :
      Applies span .boundNames (.expr e :: rest) [.names e.boundNames]
  | lastName {fs : List Fragment} : (∀ f ∈ fs, ∃ role ∈ [Role.token, .word], role.Fits f) →
      Applies span .lastName fs [.names (fs.filterMap Fragment.name?).getLast?.toList]
  | body (statements : List Stmt) : Applies span .body (statements.map .stmt) [.body statements]
  | function (name : Option Token) (formals : List Text) (statements : List Stmt) :
      Applies span .function ((name.map .token).toList ++ [.names formals, .body statements])
        [.expr (.function span (name.map Token.text) formals statements)]
  | functionDeclaration (t : Token) (formals : List Text) (statements : List Stmt) :
      Applies span .functionDeclaration [.token t, .names formals, .body statements]
        [.stmt (.function span t.text (.function span (some t.text) formals statements))]
  | arrow (formals : List Text) (statements : List Stmt) :
      Applies span .arrow [.names formals, .body statements]
        [.expr (.function span none formals statements)]
  | arrowValue (formals : List Text) (e : Expr) :
      Applies span .arrow [.names formals, .expr e]
        [.expr (.function span none formals [.expression e.span e])]
  | classBody {fs : List Fragment} : (∀ f ∈ fs, ∃ role ∈ [Role.method, .expr], role.Fits f) →
      Applies span .classBody fs [.expr (.other span (fs.filterMap Fragment.member?) [] none)]
  | field (place : Span) (key : Scalar) (value : Expr) :
      Applies span .field [.expr (.literal place key), .expr value] [.expr value]
  | bareField (place : Span) (key : Scalar) :
      Applies span .field [.expr (.literal place key)] []
  | assignment (target value : Expr) :
      Applies span .assignment [.expr target, .expr value]
        [.expr (.other span [.expr target, .expr value] target.assignedNames none)]
  | update (target : Expr) :
      Applies span .update [.expr target]
        [.expr (.other span [.expr target] target.assignedNames none)]
  | negation (e : Expr) : Applies span .negation [.expr e] [.expr (e.negated span)]
  | member (e : Expr) (name : Text) :
      Applies span .member [.expr e, .word name] [.expr (.other span [.expr e] [] (some name))]
  | arguments (items : List Expr) :
      Applies span .arguments (items.map .expr) [.arguments span items]
  | call (callee : Expr) (place : Span) (items : List Expr) :
      Applies span .call [.expr callee, .arguments place items]
        [.expr (.call span callee items place callee.calleeName?)]
  | construction (callee : Expr) (place : Span) (items : List Expr) :
      Applies span .construction [.expr callee, .arguments place items]
        [.expr (.other span (.expr callee :: items.map .expr) [] none)]
  | bareConstruction (callee : Expr) :
      Applies span .construction [.expr callee] [.expr (.other span [.expr callee] [] none)]
  | declarator (target init : Expr) :
      Applies span .declarator [.expr target, .expr init]
        [.declarator (.mk span target.boundNames (some init) (isPattern target))]
  | bareDeclarator (target : Expr) :
      Applies span .declarator [.expr target]
        [.declarator (.mk span target.boundNames none (isPattern target))]
  | declaration (kind : Text) (declarators : List Declarator) :
      Applies span .declaration (.word kind :: declarators.map .declarator)
        [.stmt (.declaration span (Fragment.variableKind kind) declarators)]
  | classDeclaration (t : Token) (place : Span) (members : List Part) :
      Applies span .classDeclaration [.token t, .expr (.other place members [] none)]
        [.stmt (.class_ span t.text (.other place members [] none))]
  | extending (t : Token) (heritage : Expr) (place : Span) (members : List Part) :
      Applies span .classDeclaration
        [.token t, .expr heritage, .expr (.other place members [] none)]
        [.stmt (.class_ span t.text (.other place (.expr heritage :: members) [] none))]
  | imports {fs : List Fragment} : (∀ f ∈ fs, ∃ role ∈ [Role.token, .names], role.Fits f) →
      Applies span .imports fs [.stmt (.imports span (fs.flatMap Fragment.importedNames))]
  | exportedStmt (s : Stmt) : Applies span .exported [.stmt s] [.stmt s]
  | exportedExpr (e : Expr) : Applies span .exported [.expr e] [.stmt (.expression span e)]
  | exportedNames {fs : List Fragment} : (∀ f ∈ fs, ∃ role ∈ [Role.token, .word], role.Fits f) →
      Applies span .exported fs [.stmt (.control span [])]
  | expressionStatement (e : Expr) :
      Applies span .expressionStatement [.expr e] [.stmt (.expression span e)]
  | block (statements : List Stmt) :
      Applies span .block (statements.map .stmt) [.stmt (.block span statements)]
  | control {fs : List Fragment} :
      (∀ f ∈ fs, ∃ role ∈ [Role.token, .expr, .stmt], role.Fits f) →
        Applies span .control fs [.stmt (.control span (fs.filterMap Fragment.part?))]
  | forDeclaration (kind : Text) (target : Expr) :
      Applies span .forBinding [.word kind, .expr target]
        [.stmt (.declaration span (Fragment.variableKind kind)
          [.mk target.span target.boundNames none true])]
  | forTarget (target : Expr) :
      Applies span .forBinding [.expr target]
        [.expr (.other span [.expr target] target.assignedNames none)]
  | catchAll (place : Span) (statements : List Stmt) :
      Applies span .catchClause [.stmt (.block place statements)] [.stmt (.block place statements)]
  | catchClause (target : Expr) (place : Span) (statements : List Stmt) :
      Applies span .catchClause [.expr target, .stmt (.block place statements)]
        [.stmt (.block span (.declaration target.span .parameter
          [.mk target.span target.boundNames none true] :: statements))]

variable {action : Action} {span : Span} {fs out : List Fragment} {form : Form}

/-- What an action makes of a row of fragments that it has a use for. -/
theorem applies_of_takes (takes : action.takes form = true) (fits : Form.Fits form fs)
    (made : action.apply span fs = .ok out) : Applies span action fs out := by
  unfold Action.takes at takes
  split at takes
  case h_1 =>
    cases made
    exact .splice fs
  case h_2 | h_3 | h_4 =>
    cases fits
    cases made
    constructor
  case h_5 =>
    rcases fits with _ | ⟨⟨t⟩, ⟨⟩⟩
    cases made
    exact .identifier t
  case h_6 | h_7 | h_10 | h_11 =>
    rcases fits with _ | ⟨⟨t⟩, ⟨⟩⟩
    obtain ⟨value, -, same⟩ := bind_eq_ok.mp made
    cases same
    constructor
  case h_8 =>
    rcases fits with _ | ⟨⟨t⟩, ⟨⟩⟩
    obtain ⟨e, template, same⟩ := bind_eq_ok.mp made
    cases same
    unfold Expr.ofTemplate at template
    split at template
    · cases template
      exact .substituted t
    · obtain ⟨value, -, same⟩ := bind_eq_ok.mp template
      cases same
      exact .template t _
  case h_9 =>
    rcases fits with _ | ⟨⟨t⟩, ⟨⟩⟩
    cases made
    exact .word t
  case h_12 =>
    rcases fits with _ | ⟨⟨t⟩, _⟩
    cases made
    exact .shorthandEntry t _
  case h_13 =>
    rcases fits with _ | ⟨⟨⟩, ⟨⟩⟩
    cases made
    exact .nameKey _
  case h_14 | h_15 | h_16 | h_17 | h_34 | h_35 | h_40 | h_42 =>
    rcases fits with _ | ⟨⟨⟩, ⟨⟩⟩
    cases made
    constructor
  case h_18 | h_22 =>
    rcases fits with _ | ⟨⟨⟩, _ | ⟨⟨⟩, ⟨⟩⟩⟩
    cases made
    constructor
  case h_19 | h_20 | h_36 =>
    rcases fits with _ | ⟨⟨⟩, _ | ⟨⟨⟩, ⟨⟩⟩⟩
    cases made
    constructor
  case h_21 =>
    rcases fits with _ | ⟨⟨⟩, ⟨⟩⟩
    cases made
    exact .bareField _ _
  case h_23 =>
    rcases fits with _ | ⟨⟨⟩, _ | ⟨⟨⟩, _ | ⟨⟨⟩, ⟨⟩⟩⟩⟩
    cases made
    exact .method [] _ _ _ _
  case h_24 =>
    rcases fits with _ | _ | ⟨each, _ | ⟨⟨⟩, _ | ⟨⟨⟩, _ | ⟨⟨⟩, ⟨⟩⟩⟩⟩⟩
    obtain ⟨tokens, rfl⟩ := Fragment.exists_tokens each
    rw [apply, List.filter_append, Fragment.filter_tokens] at made
    cases made
    exact .method tokens _ _ _ _
  case h_25 =>
    rcases fits with _ | ⟨⟨⟩, _⟩
    cases made
    exact .boundNames _ _
  case h_26 =>
    rcases fits with _ | ⟨⟨t⟩, _ | ⟨⟨⟩, _ | ⟨⟨⟩, ⟨⟩⟩⟩⟩
    cases made
    exact .function (some t) _ _
  case h_27 =>
    rcases fits with _ | ⟨⟨⟩, _ | ⟨⟨⟩, ⟨⟩⟩⟩
    cases made
    exact .function none _ _
  case h_28 =>
    rcases fits with _ | ⟨⟨t⟩, _ | ⟨⟨⟩, _ | ⟨⟨⟩, ⟨⟩⟩⟩⟩
    cases made
    exact .functionDeclaration t _ _
  case h_29 | h_30 | h_31 | h_32 | h_33 | h_37 | h_41 | h_44 =>
    rcases fits with _ | ⟨⟨⟩, _ | ⟨⟨⟩, ⟨⟩⟩⟩
    cases made
    constructor
  case h_38 =>
    rcases fits with _ | ⟨⟨t⟩, _ | ⟨⟨⟩, _ | ⟨⟨⟩, ⟨⟩⟩⟩⟩
    cases made
    exact .extending t _ _ _
  case h_39 =>
    rcases fits with _ | ⟨⟨⟩, ⟨⟩⟩
    cases made
    exact .exportedStmt _
  case h_43 =>
    rcases fits with _ | ⟨⟨⟩, ⟨⟩⟩
    cases made
    exact .catchAll _ _
  case h_45 =>
    rcases fits with _ | ⟨⟨⟩, others⟩
    obtain ⟨declarators, rfl⟩ := Fragment.exists_declarators (others.among takes)
    rw [apply, Fragment.filterMap_declarator?] at made
    cases made
    exact .declaration _ declarators
  case h_46 =>
    cases made
    exact .discard (fits.among takes)
  case h_47 =>
    cases made
    exact .lastName (fits.among takes)
  case h_48 =>
    have names := fits.among takes
    have words : ∀ f ∈ fs.filter (!·.isToken), ∃ spelling, f = .word spelling := by
      intro f member
      obtain ⟨member, other⟩ := List.mem_filter.mp member
      obtain ⟨role, listed, fits⟩ := names f member
      cases fits with
      | token => cases other
      | word spelling => exact ⟨spelling, rfl⟩
      | _ => simp at listed
    rw [apply] at made
    split at made
    · rename_i shape
      obtain ⟨_, same⟩ := words _ (shape ▸ List.mem_cons_self)
      cases same
    · rename_i shape
      obtain ⟨_, same⟩ := words _ (shape ▸ List.mem_cons_self)
      cases same
    · cases made
      exact .exportedNames names
  case h_49 =>
    cases made
    exact .compound (fits.among takes)
  case h_50 | h_51 =>
    obtain ⟨items, rfl⟩ := Fragment.exists_exprs (fits.among takes)
    rw [apply, Fragment.filterMap_expr?] at made
    cases made
    constructor
  case h_52 =>
    obtain ⟨entries, rfl⟩ := Fragment.exists_entries (fits.among takes)
    rw [apply, Fragment.filterMap_entry?] at made
    cases made
    exact .mapping entries
  case h_53 =>
    cases made
    exact .parameters (fits.among takes)
  case h_54 | h_55 =>
    obtain ⟨statements, rfl⟩ := Fragment.exists_stmts (fits.among takes)
    rw [apply, Fragment.filterMap_stmt?] at made
    cases made
    constructor
  case h_56 =>
    cases made
    exact .classBody (fits.among takes)
  case h_57 =>
    cases made
    exact .imports (fits.among takes)
  case h_58 =>
    cases made
    exact .control (fits.among takes)
  case h_59 => contradiction

theorem Applies.gives (applied : Applies span action fs out) (fits : form.Fits fs) :
    ∃ made ∈ action.gives form, Form.Fits made out := by
  cases applied with
  | splice => exact ⟨form, by simp [Action.gives], fits⟩
  | discard => exact ⟨[], by simp [Action.gives], .nil⟩
  | bareField => exact ⟨[], by simp [Action.gives], .nil⟩
  | forTarget => exact ⟨[.one .expr], by simp [Action.gives], .single (.expr _)⟩
  | field => exact ⟨[.one .expr], by simp [Action.gives], .single (.expr _)⟩
  | forDeclaration => exact ⟨[.one .stmt], by simp [Action.gives], .single (.stmt _)⟩
  | _ => exact ⟨_, List.mem_singleton.mpr rfl, .single (by constructor)⟩

end Action

namespace Tree

variable {tree : Tree} {p : Production} {children : List Tree} {a : Assembled}

/-- A part of a derivation contributes fragments in one of the forms of its symbol. -/
def Formed (tree : Tree) (a : Assembled) : Prop :=
  ∀ n, tree.symbol = .nonterminal n → ∃ form ∈ n.forms, Form.Fits form a.fragments

theorem tokenless_forms (n : Nonterminal) : ∀ form ∈ n.forms, form.tokenless = true := by
  cases n <;> decide

theorem offered_part (action : Action) (formed : tree.Formed a) (made : tree.assemble = .ok a) :
    ∃ form ∈ action.offered tree.symbol,
      Form.Fits form (a.fragments.filter (Assembled.counts action)) := by
  cases tree with
  | leaf t =>
    cases made
    refine ⟨_, List.mem_singleton.mpr rfl, ?_⟩
    by_cases counts : (t.terminal.isOpen || action.keepsMarks) = true
    · simpa [Assembled.counts, counts] using .single (.token t)
    · simpa [Assembled.counts, counts] using .nil
  | node p children =>
    obtain ⟨form, member, fits⟩ := formed p.head rfl
    exact ⟨form, member, fits.counting (tokenless_forms p.head form member) action⟩

theorem offered_parts (action : Action) {parts : List Assembled}
    (each : List.Forall₂ (fun t a => t.assemble = .ok a ∧ t.Formed a) children parts) :
    ∃ form ∈ action.allOffered (children.map symbol), Form.Fits form (given action parts) := by
  induction each with
  | nil => exact ⟨[], List.mem_singleton.mpr rfl, .nil⟩
  | cons head _ ih =>
    obtain ⟨front, here, fits⟩ := offered_part action head.2 head.1
    obtain ⟨behind, there, others⟩ := ih
    rw [given_cons]
    refine ⟨front ++ behind, ?_, fits.append others⟩
    exact List.mem_flatMap.mpr ⟨front, here, List.mem_map_of_mem there⟩

theorem node_formed {parts : List Assembled} {span : Span} {out : List Fragment}
    (valid : (node p children).valid grammar = true)
    (each : List.Forall₂ (fun t a => t.assemble = .ok a ∧ t.Formed a) children parts)
    (made : p.action.apply span (given p.action parts) = .ok out) :
    Action.Applies span p.action (given p.action parts) out ∧
      ∃ form ∈ p.head.forms, Form.Fits form out := by
  obtain ⟨member, body, -⟩ := valid_node.mp valid
  obtain ⟨form, offered, fits⟩ := offered_parts p.action each
  have formed := productions_formed p.head p member
  simp only [Production.formed, List.all_eq_true, Bool.and_eq_true] at formed
  obtain ⟨takes, suits⟩ := formed form (body ▸ offered)
  have applied := Action.applies_of_takes takes fits made
  obtain ⟨result, given, fits⟩ := applied.gives fits
  obtain ⟨expected, known, suits⟩ := List.any_eq_true.mp (suits result given)
  exact ⟨applied, expected, known, fits.suits suits⟩

theorem assemble_formed (valid : tree.valid grammar = true) (made : tree.assemble = .ok a) :
    tree.Formed a := by
  induction tree using Tree.induct generalizing a with
  | leaf t =>
    intro n head
    cases head
  | node p children ih =>
    intro n head
    obtain rfl : p.head = n := Symbol.nonterminal.inj head
    obtain ⟨parts, out, parted, applied, rfl⟩ := assemble_node.mp made
    have each : List.Forall₂ (fun t a => t.assemble = .ok a ∧ t.Formed a) children parts :=
      forall₂_of_mem (fun c member _ made =>
        And.intro made (ih c member ((valid_node.mp valid).2.2 c member) made)) parted
    exact (node_formed valid each applied).2

theorem parts_formed {parts : List Assembled}
    (valid : (node p children).valid grammar = true)
    (parted : List.Forall₂ (fun t a => t.assemble = .ok a) children parts) :
    List.Forall₂ (fun t a => t.assemble = .ok a ∧ t.Formed a) children parts :=
  forall₂_of_mem (fun c member _ made =>
    And.intro made (assemble_formed ((valid_node.mp valid).2.2 c member) made)) parted

/-- A production is given fragments in one of the forms that its body offers. -/
theorem given_formed {parts : List Assembled} (valid : (node p children).valid grammar = true)
    (parted : List.Forall₂ (fun t a => t.assemble = .ok a) children parts) :
    ∃ form ∈ p.action.allOffered p.body, Form.Fits form (given p.action parts) := by
  obtain ⟨-, body, -⟩ := valid_node.mp valid
  exact body ▸ offered_parts p.action (parts_formed valid parted)

/-- What a production makes of fragments is made of what the grammar offers to its action. -/
theorem given_applies {parts : List Assembled} {span : Span} {out : List Fragment}
    (valid : (node p children).valid grammar = true)
    (parted : List.Forall₂ (fun t a => t.assemble = .ok a) children parts)
    (made : p.action.apply span (given p.action parts) = .ok out) :
    Action.Applies span p.action (given p.action parts) out :=
  (node_formed valid (parts_formed valid parted) made).1

/-- A part of a derivation is made of what its children contribute by the action of its
production. -/
theorem assemble_applies (valid : (node p children).valid grammar = true)
    (made : (node p children).assemble = .ok a) : ∃ parts,
      List.Forall₂ (fun t a => t.assemble = .ok a) children parts ∧
        Action.Applies ((Assembled.extent parts).getD ⟨0, 0⟩) p.action (given p.action parts)
          a.fragments := by
  obtain ⟨parts, out, parted, applied, rfl⟩ := assemble_node.mp made
  exact ⟨parts, parted, given_applies valid parted applied⟩

end Tree

end StyleSplit.Script
