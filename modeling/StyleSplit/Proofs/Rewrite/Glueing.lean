import StyleSplit.Proofs.Precompile.Safety
import StyleSplit.Proofs.Rewrite.Slices
import StyleSplit.Proofs.Rewrite.Writing
import StyleSplit.Proofs.Sheet.Partition

/-! The tokens of rewritten arguments. Whatever the arguments of a call are, the rewritten
description and the rewritten options are object literals of their own; the tokens of what
is copied into them come out between their commas. -/
namespace StyleSplit

open Script Script.Token

/-- The rewriting of a selector copies nothing but parts of the script. -/
structure Selector.Copied (s : Script) (selector : Selector) : Prop where
  entry : ∃ u, s.Slice selector.entry.span u
  key : ∀ key, selector.entry.key = some key → selector.entry.computed = false →
    ∃ u, s.Slice key.span u
  dynamic : ∀ e ∈ selector.dynamic, ∃ u, s.Slice e.span u

/-- A text that gives good tokens wherever it is put. -/
def Script.Gives (good : List (Terminal × Text) → Prop) (t : Text) : Prop :=
  ∃ u, Token.Piece t u ∧ good u

/-- Tokens whose brackets match. -/
def Script.Matched (u : List (Terminal × Text)) : Prop := Balanced (u.map Prod.fst)

theorem Script.Slice.gives {s : Script} {span : Span} {u : List (Terminal × Text)}
    (slice : s.Slice span u) : Gives Matched (s.textAt span) :=
  ⟨u, slice.piece, slice.balanced⟩

theorem Script.gives_all {good : List (Terminal × Text) → Prop} (texts : List Text)
    (each : ∀ t ∈ texts, Gives good t) :
    ∃ parts, List.Forall₂ Token.Piece texts parts ∧ ∀ part ∈ parts, good part := by
  obtain ⟨parts, all⟩ := exists_forall₂ each
  refine ⟨parts, all.imp fun _ _ both => both.1, fun part member => ?_⟩
  obtain ⟨_, -, -, fine⟩ := mem_of_forall₂ all member
  exact fine

theorem Text.lineIndent_blank (t : Text) (offset : Nat) :
    ∀ c ∈ t.lineIndent offset, isBlank c = true := by
  intro c member
  have blank := List.all_eq_true.mp List.all_takeWhile c member
  unfold isBlank
  rcases Bool.or_eq_true_iff.mp blank with blank | blank <;> simp [blank]

namespace Selector

variable {s : Script} {indent t : Text} {selector : Selector}

/-- What is left of a selector is good if all that is copied for it is, and if a good key
with good entries makes a good entry. -/
theorem residue_gives {good key : List (Terminal × Text) → Prop}
    (blank : ∀ c ∈ indent, isBlank c = true) (entry : Gives good (s.textAt selector.entry.span))
    (named : selector.verdict = .mixed → Gives key (selector.keyText s))
    (dynamic : ∀ e ∈ selector.dynamic, Gives good (s.textAt e.span))
    (made : ∀ {u parts}, key u → (∀ part ∈ parts, good part) →
      good (u ++ Punctuator.colon.bare :: listing .openBrace .closeBrace parts))
    (left : selector.residue? s indent = some t) : Gives good t := by
  unfold residue? at left
  split at left
  · cases left
  · cases left
    exact entry
  · rename_i mixed
    cases left
    obtain ⟨u, first, fine⟩ := named mixed
    obtain ⟨parts, pieces, all⟩ := gives_all
      (selector.dynamic.map fun e => s.textAt e.span) fun t member => by
        obtain ⟨e, listed, rfl⟩ := List.mem_map.mp member
        exact dynamic e listed
    have value := closed_layoutMapping (blank_append blank blank_indentation) pieces
    exact ⟨_, (closed_entry first value).piece, made fine all⟩

theorem keyText_matched (copied : selector.Copied s) : Gives Matched (selector.keyText s) := by
  unfold keyText
  split
  · exact ⟨_, (closed_stringLiteral _).piece, Single.balanced rfl⟩
  · rename_i plain
    split
    · rename_i key same
      obtain ⟨u, slice⟩ := copied.key key same (Bool.eq_false_iff.mpr plain)
      exact slice.gives
    · exact ⟨[], fun _ _ => .done, Single.nil.balanced⟩

/-- What is left of a selector may stand in an object literal. -/
theorem residue_matched (copied : selector.Copied s) (blank : ∀ c ∈ indent, isBlank c = true)
    (left : selector.residue? s indent = some t) : Gives Matched t := by
  obtain ⟨u, slice⟩ := copied.entry
  refine residue_gives blank slice.gives (fun _ => keyText_matched copied) (fun e stays => ?_)
    (fun {u parts} balanced all => ?_) left
  · obtain ⟨u, slice⟩ := copied.dynamic e stays
    exact slice.gives
  · have colon : Balanced [Punctuator.colon.bare.1] := Single.balanced rfl
    rw [Matched, List.map_append, List.map_cons]
    exact balanced.append (colon.append (single_listing all).balanced)

end Selector

namespace Call

variable {s : Script} {sheet : Sheet} {indent : Text} {description : Description}

/-- The tokens of an object literal that maps texts to texts. -/
def pairsTokens (pairs : List (Text × Text)) : List (Terminal × Text) :=
  listing .openBrace .closeBrace (pairs.map fun pair => entryTokens pair.1 [quotedToken pair.2])

/-- The tokens of the entry for the compiled text. -/
def rawTokens (sheet : Sheet) : List (Terminal × Text) :=
  entryTokens rawKey [quotedToken sheet.rawText]

/-- The tokens of the entry that maps selectors to class names. -/
def classesTokens (sheet : Sheet) : List (Terminal × Text) :=
  entryTokens classesKey (pairsTokens sheet.classes)

/-- Tokens of an object literal with the compiled text, if there is any, in front. -/
def RawFirst (sheet : Sheet) (u : List (Terminal × Text)) : Prop :=
  ∃ parts, u = listing .openBrace .closeBrace parts ∧
    (∀ part ∈ parts, Balanced (part.map Prod.fst)) ∧
    (sheet.rawText ≠ [] → parts.head? = some (rawTokens sheet))

/-- Tokens of an object literal with the class names at the end. -/
def ClassesLast (sheet : Sheet) (u : List (Terminal × Text)) : Prop :=
  ∃ parts, u = listing .openBrace .closeBrace (parts ++ [classesTokens sheet]) ∧
    ∀ part ∈ parts, Balanced (part.map Prod.fst)

theorem single_pair (key value : Text) :
    Single ((entryTokens key [quotedToken value]).map Prod.fst) := single_entryTokens rfl

/-- The rewritten description is an object literal of what is left of its selectors, behind
the compiled text if there is any. -/
theorem descriptionText_pieces {good : List (Terminal × Text) → Prop}
    (blank : ∀ c ∈ indent, isBlank c = true) (raw : good (rawTokens sheet))
    (left : ∀ selector ∈ description.selectors, ∀ t,
      selector.residue? s indent = some t → Gives good t) :
    ∃ parts, Closed (descriptionText s description sheet indent)
        (listing .openBrace .closeBrace parts) ∧ (∀ part ∈ parts, good part) ∧
      (sheet.rawText ≠ [] → parts.head? = some (rawTokens sheet)) := by
  obtain ⟨parts, pieces, all⟩ := gives_all
    (description.selectors.filterMap (Selector.residue? s indent)) fun t member => by
      obtain ⟨selector, listed, same⟩ := List.mem_filterMap.mp member
      exact left selector listed t same
  unfold descriptionText
  cases text : sheet.rawText with
  | nil => exact ⟨parts, closed_layoutMapping blank pieces, all, fun some => absurd rfl some⟩
  | cons c rest =>
    have entry : Closed (layoutEntry rawKey (stringLiteral (c :: rest))) (rawTokens sheet) := by
      rw [rawTokens, text]
      exact closed_layoutEntry (closed_stringLiteral _)
    exact ⟨_, closed_layoutMapping blank (.cons entry.piece pieces),
      List.forall_mem_cons.mpr ⟨raw, all⟩, fun _ => rfl⟩

/-- The rewritten description is an object literal with the compiled text in front. -/
theorem descriptionText_closed (copied : ∀ selector ∈ description.selectors, selector.Copied s)
    (blank : ∀ c ∈ indent, isBlank c = true) :
    ∃ u, Closed (descriptionText s description sheet indent) u ∧ RawFirst sheet u := by
  have raw : Matched (rawTokens sheet) := (single_pair _ _).balanced
  obtain ⟨parts, closed, all, first⟩ := descriptionText_pieces blank raw
    fun selector listed t left => Selector.residue_matched (copied selector listed) blank left
  exact ⟨_, closed, parts, rfl, all, first⟩

/-- The entry that maps selectors to class names is one entry. -/
theorem classesText_closed (sheet : Sheet) (blank : ∀ c ∈ indent, isBlank c = true) :
    Closed (classesText sheet indent) (classesTokens sheet) := by
  refine closed_layoutEntry (closed_layoutMapping (blank_append blank blank_indentation) ?_)
  rw [List.forall₂_map_left_iff, List.forall₂_map_right_iff, List.forall₂_same]
  exact fun e _ => (closed_layoutEntry (closed_stringLiteral _)).piece

theorem single_classes (sheet : Sheet) : Single ((classesTokens sheet).map Prod.fst) := by
  refine single_entryTokens (single_listing fun part member => ?_)
  obtain ⟨e, -, rfl⟩ := List.mem_map.mp member
  exact (single_pair _ _).balanced

theorem balanced_with_classes {parts : List (List (Terminal × Text))}
    (each : ∀ part ∈ parts, Balanced (part.map Prod.fst)) (sheet : Sheet) :
    ∀ part ∈ parts ++ [classesTokens sheet], Balanced (part.map Prod.fst) := by
  intro part member
  rcases List.mem_append.mp member with member | member
  · exact each part member
  · exact List.mem_singleton.mp member ▸ (single_classes sheet).balanced

theorem RawFirst.single {u : List (Terminal × Text)} (first : RawFirst sheet u) :
    Single (u.map Prod.fst) := by
  obtain ⟨parts, rfl, all, -⟩ := first
  exact single_listing all

theorem ClassesLast.single {u : List (Terminal × Text)} (last : ClassesLast sheet u) :
    Single (u.map Prod.fst) := by
  obtain ⟨parts, rfl, all⟩ := last
  exact single_listing (balanced_with_classes all sheet)

/-- Options that are spread into an object literal. -/
def isSpread : Expr → Bool
  | .mapping .. => false
  | e => !e.isAbsent

/-- The options of a call, where they are spread. -/
def spreadOptions? (c : Call) : Option Expr := (c.arguments[1]?).filter isSpread

theorem optionsText_spread {e : Expr} (spread : isSpread e = true) :
    optionsText s (some e) sheet indent =
      .ok (layoutMapping [text "..." ++ s.textAt e.span, classesText sheet indent] indent) := by
  cases e with
  | mapping => cases spread
  | literal | identifier | list | function | call | other =>
    simp only [isSpread, Bool.not_eq_true'] at spread
    simp only [optionsText, spread, Bool.false_eq_true, if_false]

/-- The rewritten options are an object literal of the entries that are copied or spread, and
the class names at the end. -/
theorem optionsText_pieces {good : List (Terminal × Text) → Prop} {options : Text}
    {second : Option Expr} (blank : ∀ c ∈ indent, isBlank c = true)
    (entries : ∀ span entries, second = some (.mapping span entries) →
      ∀ e ∈ entries, Gives good (s.textAt e.span))
    (spread : ∀ e, second.filter isSpread = some e → Gives good (text "..." ++ s.textAt e.span))
    (made : optionsText s second sheet indent = .ok options) :
    ∃ parts, Closed options (listing .openBrace .closeBrace (parts ++ [classesTokens sheet])) ∧
      ∀ part ∈ parts, good part := by
  have classes := (classesText_closed sheet blank).piece
  suffices ∃ texts, options = layoutMapping (texts ++ [classesText sheet indent]) indent ∧
      ∀ t ∈ texts, Gives good t by
    obtain ⟨texts, rfl, each⟩ := this
    obtain ⟨parts, pieces, all⟩ := gives_all _ each
    have pieces := List.rel_append pieces (.cons classes .nil)
    exact ⟨parts, closed_layoutMapping blank pieces, all⟩
  unfold optionsText at made
  split at made
  · exact ⟨[], (Except.ok.inj made).symm, by simp⟩
  rename_i e
  split at made
  · exact ⟨[], (Except.ok.inj made).symm, by simp⟩
  rename_i present
  split at made
  · rename_i span listed
    split at made
    · cases made
    · refine ⟨_, (Except.ok.inj made).symm, fun t member => ?_⟩
      obtain ⟨entry, known, rfl⟩ := List.mem_map.mp member
      exact entries span listed rfl entry known
  · rename_i other
    have spreads : isSpread e = true := by
      cases e with
      | mapping => exact absurd rfl (other _ _)
      | literal | identifier | list | function | call | other => simpa [isSpread] using present
    refine ⟨[text "..." ++ s.textAt e.span], (Except.ok.inj made).symm, fun t member => ?_⟩
    rw [List.mem_singleton.mp member]
    exact spread e (by simp [spreads])

/-- The rewritten options are an object literal with the class names at the end. -/
theorem optionsText_closed {options : Text} {second : Option Expr}
    (sliced : ∀ e, second = some e → ∃ u, s.Slice e.span u)
    (entries : ∀ span entries, second = some (.mapping span entries) →
      ∀ e ∈ entries, ∃ u, s.Slice e.span u)
    (blank : ∀ c ∈ indent, isBlank c = true)
    (made : optionsText s second sheet indent = .ok options) :
    ∃ u, Closed options u ∧ ClassesLast sheet u := by
  have spread (e : Expr) (given : second.filter isSpread = some e) :
      Gives Matched (text "..." ++ s.textAt e.span) := by
    obtain ⟨u, slice⟩ := sliced e (Option.filter_eq_some_iff.mp given).1
    have dots : Balanced [Punctuator.ellipsis.bare.1] := Single.balanced rfl
    exact ⟨_, (closed_mark (m := .ellipsis) (by decide)).behind slice.piece,
      dots.append slice.balanced⟩
  obtain ⟨parts, closed, all⟩ := optionsText_pieces blank (fun span listed same e member => by
    obtain ⟨u, slice⟩ := entries span listed same e member
    exact slice.gives) spread made
  exact ⟨_, closed, parts, rfl, all⟩

/-- Rewritten arguments give their parentheses, the tokens of each, and commas. -/
theorem argumentsText_closed {first options : Text} {rest : List Text}
    {description entries : List (Terminal × Text)} {others : List (List (Terminal × Text))}
    (piece : Token.Piece first description) (closed : Closed options entries)
    (pieces : List.Forall₂ Token.Piece rest others) :
    Closed (argumentsText first options rest)
      (listing .openParen .closeParen (description :: entries :: others)) := by
  have separates : Closed (text ", ") [Punctuator.comma.bare] :=
    (closed_mark (m := .comma) (by decide)).append (closed_blanks (t := [32]) (by decide))
  have all := closed_join separates (fun z => stop_cons (c := 44) (by decide))
    (closed_mark (m := .closeParen) (by decide)) (fun z => stop_cons (c := 41) (by decide))
    (.cons closed.piece pieces) piece
  rw [argumentsText, List.append_assoc]
  exact (closed_mark (m := .openParen) (by decide)).append all

end Call

end StyleSplit
