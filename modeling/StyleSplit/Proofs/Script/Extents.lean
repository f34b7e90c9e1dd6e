import Mathlib.Data.List.Infix
import StyleSplit.Proofs.Parsing.Items
import StyleSplit.Proofs.Script.Scanning
import StyleSplit.Script.Assembly

/-! Parts of a derivation and where they stand. What a part of a derivation contributes
lies at the tokens of that part, from the start of the first one to the end of the last
one. -/
namespace StyleSplit

/-- A span that holds another one. -/
def Span.Covers (outer inner : Span) : Prop :=
  outer.start ≤ inner.start ∧ inner.stop ≤ outer.stop

theorem Span.Covers.refl (s : Span) : s.Covers s := ⟨Nat.le_refl _, Nat.le_refl _⟩

theorem Span.Covers.trans {outer middle inner : Span} (first : outer.Covers middle)
    (last : middle.Covers inner) : outer.Covers inner :=
  ⟨Nat.le_trans first.1 last.1, Nat.le_trans last.2 first.2⟩

namespace Script

theorem bind_eq_ok {ε α β : Type} {x : Except ε α} {f : α → Except ε β} {b : β} :
    x >>= f = .ok b ↔ ∃ a, x = .ok a ∧ f a = .ok b := by
  cases x with
  | error e => simp [bind, Except.bind]
  | ok a => simp [bind, Except.bind]

namespace Tree

/-- The parts of a derivation, itself included. -/
inductive Within : Tree → Tree → Prop where
  | self {tree : Tree} : Within tree tree
  | child {part c : Tree} {p : Production} {children : List Tree} :
      c ∈ children → Within part c → Within part (.node p children)

variable {g : Grammar} {part whole tree : Tree} {p : Production} {children : List Tree}

theorem Within.descend {c : Tree} (within : Within (.node p children) whole)
    (member : c ∈ children) : Within c whole := by
  generalize source : Tree.node p children = part at within
  induction within with
  | self => exact source ▸ .child member .self
  | child known _ ih => exact .child known ih

theorem Within.valid (within : Within part whole) (valid : whole.valid g = true) :
    part.valid g = true := by
  induction within with
  | self => exact valid
  | child member _ ih => exact ih ((valid_node.mp valid).2.2 _ member)

theorem word_infix_words {trees : List Tree} (member : tree ∈ trees) :
    tree.word <:+: words trees := by
  obtain ⟨before, behind, rfl⟩ := List.append_of_mem member
  exact ⟨words before, words behind, by simp [words]⟩

theorem Within.leaves (within : Within part whole) : part.word <:+: whole.word := by
  induction within with
  | self => exact List.infix_refl _
  | child member _ ih => exact ih.trans (word_infix_words member)

theorem assembleAll_iff {trees : List Tree} {parts : List Assembled} :
    assembleAll trees = .ok parts ↔
      List.Forall₂ (fun t a => t.assemble = .ok a) trees parts := by
  induction trees generalizing parts with
  | nil =>
    rw [List.forall₂_nil_left_iff, assembleAll, Except.ok.injEq, eq_comm]
  | cons t rest ih =>
    simp only [assembleAll, bind_eq_ok, ih, List.forall₂_cons_left_iff]
    constructor
    · rintro ⟨a, first, as, others, same⟩
      exact ⟨a, as, first, others, (Except.ok.inj same).symm⟩
    · rintro ⟨a, as, first, others, rfl⟩
      exact ⟨a, first, as, others, rfl⟩

/-- What a production is given: the fragments of its parts that count for its action. -/
def given (action : Action) (parts : List Assembled) : List Fragment :=
  (parts.flatMap (·.fragments)).filter (Assembled.counts action)

@[simp] theorem counts_expr (action : Action) (e : Expr) :
    Assembled.counts action (.expr e) = true := rfl

theorem counts_mark {t : Token} {mark : Punctuator} (spelled : t.terminal = .punctuator mark)
    (action : Action) (keeps : action.keepsMarks = false) :
    Assembled.counts action (.token t) = false := by
  simp [Assembled.counts, spelled, keeps, Terminal.isOpen]

@[simp] theorem given_nil (action : Action) : given action [] = [] := rfl

theorem given_cons (action : Action) (part : Assembled) (rest : List Assembled) :
    given action (part :: rest) =
      part.fragments.filter (Assembled.counts action) ++ given action rest := by
  simp [given]

theorem assemble_node {a : Assembled} : (node p children).assemble = .ok a ↔
    ∃ parts out, List.Forall₂ (fun t a => t.assemble = .ok a) children parts ∧
      p.action.apply ((Assembled.extent parts).getD ⟨0, 0⟩) (given p.action parts) = .ok out ∧
      a = ⟨Assembled.extent parts, out⟩ := by
  simp only [assemble, bind_eq_ok, assembleAll_iff]
  constructor
  · rintro ⟨parts, parted, out, applied, same⟩
    exact ⟨parts, out, parted, applied, (Except.ok.inj same).symm⟩
  · rintro ⟨parts, out, parted, applied, rfl⟩
    exact ⟨parts, parted, out, applied, rfl⟩

end Tree

namespace Token

/-- The span from the first token to the last one. -/
def extent? (word : List Token) : Option Span := do
  return ⟨(← word.head?).span.start, (← word.getLast?).span.stop⟩

variable {u v w : List Token} {s : Span} {t : Token}

theorem extent?_eq_some : extent? w = some s ↔
    ∃ first last, w.head? = some first ∧ w.getLast? = some last ∧
      s = ⟨first.span.start, last.span.stop⟩ := by
  cases first : w.head? <;> cases last : w.getLast? <;>
    simp [extent?, first, last, eq_comm]

theorem extent?_nil : extent? [] = none := rfl

@[simp] theorem extent?_singleton (t : Token) : extent? [t] = some t.span := rfl

theorem extent?_append : extent? (u ++ v) =
    match extent? u, extent? v with
    | some first, some last => some ⟨first.start, last.stop⟩
    | some only, none | none, some only => some only
    | none, none => none := by
  cases u with
  | nil =>
    rw [List.nil_append, extent?_nil]
    cases extent? v <;> rfl
  | cons a u =>
    cases v with
    | nil => rw [List.append_nil]; rfl
    | cons c v =>
      have first := List.getLast?_eq_some_getLast (List.cons_ne_nil a u)
      have last := List.getLast?_eq_some_getLast (List.cons_ne_nil c v)
      have whole : (a :: u ++ c :: v).getLast? = (c :: v).getLast? := by
        rw [List.getLast?_append, last]
        rfl
      have head : (a :: u ++ c :: v).head? = some a := rfl
      simp only [extent?, head, whole, first, last, List.head?_cons, Option.pure_def,
        Option.bind_eq_bind, Option.bind_some]

theorem InOrder.sub (order : InOrder w) (part : v <:+: w) : InOrder v where
  some t member := order.some t (part.subset member)
  apart := order.apart.sublist part.sublist

theorem InOrder.first (order : InOrder w) {a : Token} (first : w.head? = .some a)
    (member : t ∈ w) : a.span.start ≤ t.span.start := by
  obtain ⟨rest, rfl⟩ := List.head?_eq_some_iff.mp first
  rcases List.mem_cons.mp member with rfl | behind
  · exact Nat.le_refl _
  · have some := order.some a (by simp)
    have apart := List.rel_of_pairwise_cons order.apart behind
    omega

theorem InOrder.last (order : InOrder w) {b : Token} (last : w.getLast? = .some b)
    (member : t ∈ w) : t.span.stop ≤ b.span.stop := by
  obtain ⟨before, rfl⟩ := List.getLast?_eq_some_iff.mp last
  rcases List.mem_append.mp member with ahead | only
  · have some := order.some b (by simp)
    have apart := (List.pairwise_append.mp order.apart).2.2 t ahead b (by simp)
    omega
  · obtain rfl := List.mem_singleton.mp only
    exact Nat.le_refl _

theorem InOrder.extent (order : InOrder w) (extent : extent? w = .some s) :
    s.start < s.stop := by
  obtain ⟨a, b, first, last, rfl⟩ := extent?_eq_some.mp extent
  have some := order.some a (List.mem_of_head? first)
  have behind := order.last last (List.mem_of_head? first)
  simp only
  omega

theorem InOrder.covers (order : InOrder w) (part : v <:+: w) (inner : extent? v = .some s) :
    ∃ outer, extent? w = .some outer ∧ outer.Covers s := by
  obtain ⟨a, b, first, last, rfl⟩ := extent?_eq_some.mp inner
  have begins := part.subset (List.mem_of_head? first)
  have ends := part.subset (List.mem_of_getLast? last)
  cases front : w.head? with
  | none => simp [List.head?_eq_none_iff.mp front] at begins
  | some c =>
    cases back : w.getLast? with
    | none => simp [List.getLast?_eq_none_iff.mp back] at begins
    | some d =>
      refine ⟨_, extent?_eq_some.mpr ⟨c, d, front, back, rfl⟩, ?_⟩
      exact ⟨order.first front begins, order.last back ends⟩

end Token

namespace Tree

theorem extent_words {children : List Tree} {parts : List Assembled}
    (each : List.Forall₂ (fun t a => a.span = Token.extent? t.word) children parts) :
    Assembled.extent parts = Token.extent? (words children) := by
  induction each with
  | nil => rfl
  | @cons t a rest others same _ ih =>
    rw [words, Token.extent?_append, ← same, ← ih]
    rfl

/-- What a derivation contributes is said to stand where its tokens do. -/
theorem assemble_span {tree : Tree} {a : Assembled} (made : tree.assemble = .ok a) :
    a.span = Token.extent? tree.word := by
  induction tree using Tree.induct generalizing a with
  | leaf t =>
    cases made
    rfl
  | node p children ih =>
    obtain ⟨parts, out, parted, _, rfl⟩ := assemble_node.mp made
    exact extent_words (forall₂_of_mem (fun c member _ made => ih c member made) parted)

variable {a b whole : Tree}

/-- Tokens that all stand before others. -/
def Before (u v : List Token) : Prop := ∀ t ∈ u, ∀ t' ∈ v, t.span.stop ≤ t'.span.start

theorem Before.sub {u u' v v' : List Token} (before : Before u v) (left : u' <:+: u)
    (right : v' <:+: v) : Before u' v' :=
  fun t member t' member' => before t (left.subset member) t' (right.subset member')

theorem before_of_append {u v : List Token} (order : Token.InOrder (u ++ v)) : Before u v :=
  (List.pairwise_append.mp order.apart).2.2

/-- Of two parts of a derivation one is a part of the other, or one stands before the
other. -/
theorem Within.nested_or_apart (order : Token.InOrder whole.word) (first : Within a whole)
    (second : Within b whole) :
    Within a b ∨ Within b a ∨ Before a.word b.word ∨ Before b.word a.word := by
  induction first with
  | self => exact .inr (.inl second)
  | @child c p children member inner ih =>
    cases second with
    | self => exact .inl (.child member inner)
    | @child c' _ _ member' inner' =>
      by_cases same : c' = c
      · subst same
        exact ih (order.sub (word_infix_words member)) inner'
      obtain ⟨front, back, rfl⟩ := List.append_of_mem member
      have split : (node p (front ++ c :: back)).word = words front ++ (c.word ++ words back) := by
        simp [Tree.word, words]
      rw [split] at order
      have behind := order.sub (List.suffix_append (words front) _).isInfix
      rcases List.mem_append.mp member' with earlier | later
      · have before := (before_of_append order).sub (word_infix_words earlier)
          (List.prefix_append c.word (words back)).isInfix
        exact .inr (.inr (.inr (before.sub inner'.leaves inner.leaves)))
      · have later : c' ∈ back := by simpa [same] using later
        have before := (before_of_append behind).sub (List.infix_refl _) (word_infix_words later)
        exact .inr (.inr (.inl (before.sub inner.leaves inner'.leaves)))

end Tree

end Script

end StyleSplit
