import Mathlib.Data.List.Infix
import StyleSplit.Proofs.Parsing.Deriving

/-! Brackets. Whatever follows from a nonterminal closes the brackets that it opens and no
others, and for most nonterminals every comma in it stands between brackets. The commas
outside of all brackets therefore show where the items of a list end. A list is a nonterminal
whose bodies are such items between two brackets. -/
namespace StyleSplit.Script

/-- The number of open brackets behind a terminal. A closing bracket needs one to close, and
outside of all brackets there is no comma. -/
def Terminal.nest (depth : Nat) : Terminal → Option Nat
  | .punctuator .openParen | .punctuator .openBrace | .punctuator .openBracket => some (depth + 1)
  | .punctuator .closeParen | .punctuator .closeBrace | .punctuator .closeBracket =>
    if depth = 0 then none else some (depth - 1)
  | .punctuator .comma => if depth = 0 then none else some depth
  | _ => some depth

/-- The number of open brackets behind some terminals. -/
def nesting (depth : Nat) (ts : List Terminal) : Option Nat := ts.foldlM Terminal.nest depth

/-- Whether a nonterminal may have commas outside of all brackets. -/
def Nonterminal.hasCommas : Nonterminal → Bool
  | .program | .statements | .statement | .openStatement | .simpleStatement
  | .variableDeclaration | .moreDeclarators | .parameters | .moreParameters
  | .importDeclaration | .importClause | .moreImportSpecifiers | .exportDeclaration
  | .moreExportSpecifiers | .returnStatement | .throwStatement | .ifStatement
  | .whileStatement | .doStatement | .forStatement | .forInit | .forInStatement
  | .expressionStatement | .expression | .moreElements | .moreProperties => true
  | _ => false

/-- The number of open brackets behind what follows from a symbol. -/
def Symbol.nest (depth : Nat) : Symbol → Option Nat
  | .terminal t => t.nest depth
  | .nonterminal n => if depth = 0 ∧ n.hasCommas = true then none else some depth

/-- Whether a production keeps its brackets together, and outside of them has no commas that
its head is not said to have. -/
def Production.nests (p : Production) : Bool :=
  (p.head.hasCommas || p.body.foldlM Symbol.nest 0 == some 0) &&
    p.body.foldlM Symbol.nest 1 == some 1

theorem productions_nest : ∀ n, ∀ p ∈ grammar.productions n, p.nests = true :=
  productions_all (by decide)

/-- No production closes a bracket that it did not open. -/
theorem productions_inside : ∀ n, ∀ p ∈ grammar.productions n,
    (p.body.inits.all fun front => (front.foldlM Symbol.nest 1).any (0 < ·)) = true :=
  productions_all (by decide)

variable {d e : Nat} {ts us : List Terminal}

/-- Inside more brackets everything goes as inside fewer. -/
theorem Terminal.nest_add {t : Terminal} (some : t.nest d = .some e) (k : Nat) :
    t.nest (d + k) = .some (e + k) := by
  unfold nest at some ⊢
  split at some
  case h_1 | h_2 | h_3 =>
    cases some
    exact congrArg Option.some (Nat.add_right_comm d k 1)
  case h_8 =>
    cases some
    rfl
  case h_4 | h_5 | h_6 =>
    split at some
    · cases some
    · rename_i inside
      cases some
      exact (if_neg (by omega)).trans (congrArg Option.some (by omega))
  case h_7 =>
    split at some
    · cases some
    · rename_i inside
      cases some
      exact if_neg (by omega)

theorem Symbol.nest_add {s : Symbol} (some : s.nest d = .some e) (k : Nat) :
    s.nest (d + k) = .some (e + k) := by
  cases s with
  | terminal t => exact Terminal.nest_add some k
  | nonterminal n =>
    simp only [nest] at some ⊢
    split at some
    · cases some
    · rename_i free
      cases some
      rw [if_neg fun within => free ⟨by omega, within.2⟩]

theorem foldlM_add {α : Type} {step : Nat → α → Option Nat} {xs : List α}
    (each : ∀ x d e k, step d x = some e → step (d + k) x = some (e + k))
    (some : xs.foldlM step d = .some e) (k : Nat) : xs.foldlM step (d + k) = .some (e + k) := by
  induction xs generalizing d with
  | nil =>
    cases some
    rfl
  | cons x rest ih =>
    rw [List.foldlM_cons] at some ⊢
    obtain ⟨next, first, others⟩ := Option.bind_eq_some_iff.mp some
    exact Option.bind_eq_some_iff.mpr ⟨next + k, each x d next k first, ih others⟩

theorem nesting_add (some : nesting d ts = .some e) (k : Nat) :
    nesting (d + k) ts = .some (e + k) :=
  foldlM_add (fun _ _ _ k some => Terminal.nest_add some k) some k

theorem nesting_append : nesting d (ts ++ us) = (nesting d ts).bind (nesting · us) :=
  List.foldlM_append

theorem prefix_append_cases {α : Type} {xs ys zs : List α} (front : xs <+: ys ++ zs) :
    xs <+: ys ∨ ∃ ws, xs = ys ++ ws ∧ ws <+: zs := by
  rcases List.prefix_or_prefix_of_prefix front (List.prefix_append ys zs) with before | ⟨ws, rfl⟩
  · exact .inl before
  · exact .inr ⟨ws, rfl, (List.prefix_append_right_inj ys).mp front⟩

theorem nesting_cons {t : Terminal} : nesting d (t :: ts) = (t.nest d).bind (nesting · ts) :=
  List.foldlM_cons

namespace Tree

variable {tree : Tree}

theorem nesting_words {children : List Tree}
    (each : ∀ c ∈ children, ∀ d e, c.symbol.nest d = some e →
      nesting d (c.word.map Token.terminal) = some e)
    (some : (children.map symbol).foldlM Symbol.nest d = .some e) :
    nesting d ((words children).map Token.terminal) = .some e := by
  induction children generalizing d with
  | nil =>
    cases some
    rfl
  | cons c rest ih =>
    rw [List.map_cons, List.foldlM_cons] at some
    obtain ⟨next, first, others⟩ := Option.bind_eq_some_iff.mp some
    rw [words, List.map_append, nesting_append, each c (by simp) d next first]
    exact ih (fun c member => each c (by simp [member])) others

/-- A derivation leaves as many brackets open as there were, and has commas outside of all
brackets only if its symbol may. -/
theorem nesting_word (valid : tree.valid grammar = true) (some : tree.symbol.nest d = .some e) :
    nesting d (tree.word.map Token.terminal) = .some e := by
  induction tree using Tree.induct generalizing d e with
  | leaf t =>
    change (t.terminal.nest d).bind _ = _
    rw [show t.terminal.nest d = .some e from some]
    rfl
  | node p children ih =>
    obtain ⟨member, body, valid⟩ := valid_node.mp valid
    have nests := productions_nest p.head p member
    simp only [Production.nests, Bool.and_eq_true, Bool.or_eq_true, beq_iff_eq] at nests
    obtain ⟨outside, inside⟩ := nests
    simp only [symbol, Symbol.nest] at some
    split at some
    · cases some
    rename_i free
    cases some
    refine nesting_words (fun c listed d e => ih c listed (valid c listed)) ?_
    rw [body]
    cases d with
    | zero => exact outside.resolve_left fun commas => free ⟨rfl, commas⟩
    | succ k =>
      rw [Nat.add_comm]
      exact foldlM_add (fun _ _ _ k some => Symbol.nest_add some k) inside k

theorem inside_words {children : List Tree}
    (nests : ∀ c ∈ children, ∀ d e, c.symbol.nest d = some e →
      nesting d (c.word.map Token.terminal) = some e)
    (each : ∀ c ∈ children, ∀ us, us <+: c.word.map Token.terminal →
      us = c.word.map Token.terminal ∨ ∃ k, nesting 1 us = some (k + 1))
    (fronts : ∀ front, front <+: children.map symbol →
      ∃ k, front.foldlM Symbol.nest (d + 1) = some (k + 1)) {us : List Terminal}
    (front : us <+: (words children).map Token.terminal) :
    ∃ k, nesting (d + 1) us = some (k + 1) := by
  induction children generalizing d us with
  | nil =>
    rw [words, List.map_nil, List.prefix_nil] at front
    exact ⟨d, by rw [front]; rfl⟩
  | cons c rest ih =>
    obtain ⟨k, first⟩ := fronts [c.symbol] ⟨rest.map symbol, rfl⟩
    rw [List.foldlM_cons] at first
    obtain ⟨_, first, same⟩ := Option.bind_eq_some_iff.mp first
    obtain rfl := Option.some.inj same
    have whole := nests c (by simp) _ _ first
    have behind {vs : List Terminal} (front : vs <+: (words rest).map Token.terminal) :
        ∃ k, nesting (d + 1) (c.word.map Token.terminal ++ vs) = some (k + 1) := by
      rw [nesting_append, whole]
      refine ih (fun c member => nests c (by simp [member])) (fun c member => each c (by simp [member]))
        (fun others front => ?_) front
      obtain ⟨k, all⟩ := fronts (c.symbol :: others) (List.cons_prefix_cons.mpr ⟨rfl, front⟩)
      rw [List.foldlM_cons, first] at all
      exact ⟨k, all⟩
    rw [words, List.map_append] at front
    rcases prefix_append_cases front with inner | ⟨vs, rfl, behind'⟩
    · rcases each c (by simp) us inner with rfl | ⟨k, inside⟩
      · simpa using behind List.nil_prefix
      · exact ⟨k + d, by rw [Nat.add_comm d 1, nesting_add inside d]; congr 1; omega⟩
    · exact behind behind'

/-- On the way through a derivation no bracket is closed but its own. -/
theorem inside_word (valid : tree.valid grammar = true) {us : List Terminal}
    (front : us <+: tree.word.map Token.terminal) :
    us = tree.word.map Token.terminal ∨ ∃ k, nesting 1 us = some (k + 1) := by
  induction tree using Tree.induct generalizing us with
  | leaf t =>
    change us <+: [t.terminal] at front
    rcases List.prefix_cons_iff.mp front with rfl | ⟨vs, rfl, behind⟩
    · exact .inr ⟨0, rfl⟩
    · rw [List.prefix_nil.mp behind]
      exact .inl rfl
  | node p children ih =>
    obtain ⟨member, body, valid⟩ := valid_node.mp valid
    have inside := List.all_eq_true.mp (productions_inside p.head p member)
    refine .inr (inside_words (d := 0) (fun c listed d e => nesting_word (valid c listed))
      (fun c listed us => ih c listed (valid c listed)) (fun front before => ?_) front)
    have floor := inside front ((List.mem_inits _ _).mpr (body ▸ before))
    cases made : front.foldlM Symbol.nest 1 with
    | none => simp [made] at floor
    | some k =>
      rw [made, Option.any_some, decide_eq_true_eq] at floor
      exact ⟨k - 1, congrArg Option.some (Nat.sub_add_cancel floor).symm⟩

end Tree

/-- Terminals that close the brackets that they open and no others. -/
structure Balanced (ts : List Terminal) : Prop where
  whole : nesting 1 ts = some 1
  inside : ∀ us, us <+: ts → ∃ k, nesting 1 us = some (k + 1)

/-- Terminals that are balanced and have no comma outside of their brackets. -/
def Single (ts : List Terminal) : Prop := nesting 0 ts = some 0

theorem Single.balanced (single : Single ts) : Balanced ts where
  whole := nesting_add single 1
  inside us front := by
    obtain ⟨vs, rfl⟩ := front
    rw [Single, nesting_append] at single
    obtain ⟨k, first, -⟩ := Option.bind_eq_some_iff.mp single
    exact ⟨k, nesting_add first 1⟩

theorem Single.nil : Single [] := rfl

theorem Single.append (first : Single ts) (last : Single us) : Single (ts ++ us) := by
  rw [Single, nesting_append, show nesting 0 ts = some 0 from first]
  exact last

theorem Balanced.append (first : Balanced ts) (last : Balanced us) : Balanced (ts ++ us) where
  whole := by
    rw [nesting_append, first.whole]
    exact last.whole
  inside vs front := by
    rcases prefix_append_cases front with front | ⟨ws, rfl, behind⟩
    · exact first.inside vs front
    · rw [nesting_append, first.whole]
      exact last.inside ws behind

/-- What follows from any symbol but a bracket is balanced. -/
theorem Grammar.Derives.balanced {n : Nonterminal} (derives : grammar.Derives [.nonterminal n] ts) :
    Balanced ts := by
  obtain ⟨tree, symbol, valid, rfl⟩ := derives.tree
  have whole : nesting 1 (tree.word.map Token.terminal) = some 1 := by
    refine tree.nesting_word valid ?_
    rw [symbol]
    simp [Symbol.nest]
  refine ⟨whole, fun us front => ?_⟩
  rcases tree.inside_word valid front with rfl | inside
  · exact ⟨0, whole⟩
  · exact inside

theorem Grammar.Derives.single {n : Nonterminal} (derives : grammar.Derives [.nonterminal n] ts)
    (free : n.hasCommas = false) : Single ts := by
  obtain ⟨tree, symbol, valid, rfl⟩ := derives.tree
  refine tree.nesting_word valid ?_
  rw [symbol]
  simp [Symbol.nest, free]

/-- How a list may end: with its closing bracket, perhaps behind a comma. -/
def endings (last : Punctuator) : List (List Symbol) :=
  [[.terminal (.punctuator last)],
    [.terminal (.punctuator .comma), .terminal (.punctuator last)]]

/-- The nonterminals for lists: items between two brackets, with a nonterminal for those
behind the first one. -/
structure Listing where
  head : Nonterminal
  item : Nonterminal
  more : Nonterminal
  first : Punctuator
  last : Punctuator
  bodies : ∀ p ∈ grammar.productions head,
    p.body = [.terminal (.punctuator first), .terminal (.punctuator last)] ∨
      ∃ ending ∈ endings last,
        p.body = .terminal (.punctuator first) :: .nonterminal item :: ending ∨
        p.body = .terminal (.punctuator first) :: .nonterminal item :: .nonterminal more :: ending
  rests : ∀ p ∈ grammar.productions more,
    p.body = [.terminal (.punctuator .comma), .nonterminal item] ∨
      p.body = [.nonterminal more, .terminal (.punctuator .comma), .nonterminal item]
  apart : head ≠ item ∧ more ≠ item
  single : item.hasCommas = false
  closes : (Terminal.punctuator last).nest 0 = none ∧ last ≠ .comma

namespace Listing

/-- The arguments of a call. -/
def arguments : Listing where
  head := .arguments
  item := .element
  more := .moreElements
  first := .openParen
  last := .closeParen
  bodies := by decide +kernel
  rests := by decide +kernel
  apart := by decide
  single := rfl
  closes := by decide

/-- The properties of an object literal. -/
def objectLiteral : Listing where
  head := .objectLiteral
  item := .property
  more := .moreProperties
  first := .openBrace
  last := .closeBrace
  bodies := by decide +kernel
  rests := by decide +kernel
  apart := by decide
  single := rfl
  closes := by decide

end Listing

end StyleSplit.Script
