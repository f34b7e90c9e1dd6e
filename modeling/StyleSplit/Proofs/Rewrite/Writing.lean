import StyleSplit.Proofs.Script.Listing
import StyleSplit.Rewrite.Rewriter

/-! The tokens of generated text. Quoted text is one token, and a generated list is made of
its brackets, the tokens of its parts, and the commas between them, whatever follows. -/
namespace StyleSplit

open Script Script.Token

namespace Script

/-- A punctuator as it is written. -/
def Punctuator.bare (m : Punctuator) : Terminal × Text := (.punctuator m, m.spelling)

namespace Token

/-- A text that gives the same tokens whatever follows. -/
def Closed (t : Text) (u : List (Terminal × Text)) : Prop := ∀ z, Lexes (t ++ z) u z

variable {a b t : Text} {u v : List (Terminal × Text)}

theorem Closed.piece (closed : Closed t u) : Piece t u := fun z _ => closed z

theorem Closed.append (first : Closed a u) (last : Closed b v) : Closed (a ++ b) (u ++ v) := by
  intro z
  rw [List.append_assoc]
  exact (first _).append (last z)

theorem Closed.behind (first : Closed a u) (last : Piece b v) : Piece (a ++ b) (u ++ v) := by
  intro z stop
  rw [List.append_assoc]
  exact (first _).append (last z stop)

/-- A piece may be followed by any text that starts with a stop. -/
theorem Piece.append (first : Piece a u) (stops : ∀ z, Stop (b ++ z)) (last : Closed b v) :
    Closed (a ++ b) (u ++ v) := by
  intro z
  rw [List.append_assoc]
  exact (first _ (stops z)).append (last z)

theorem closed_blanks (blank : ∀ c ∈ t, isBlank c = true) : Closed t [] :=
  fun _ => Lexes.done.blanks blank

/-- The marks that are generated. -/
def marks : List Punctuator :=
  [.openParen, .closeParen, .openBrace, .closeBrace, .comma, .colon, .ellipsis]

theorem closed_mark {m : Punctuator} (listed : m ∈ marks) : Closed m.spelling [m.bare] := by
  intro z
  simp only [marks, List.mem_cons, List.not_mem_nil, or_false] at listed
  rcases listed with rfl | rfl | rfl | rfl | rfl | rfl | rfl <;> exact .token rfl rfl .done

/-- A text that stands inside double quotes without ending them. -/
def Inside (t : Text) : Prop := ∀ z,
  readQuotedRest CodePoint.doubleQuote false (t ++ z) =
    (readQuotedRest CodePoint.doubleQuote false z).map fun (body, rest) => (t ++ body, rest)

theorem Inside.nil : Inside [] := by
  intro z
  simp

theorem Inside.append (first : Inside a) (last : Inside b) : Inside (a ++ b) := by
  intro z
  rw [List.append_assoc, first, last, Option.map_map]
  congr 1
  funext p
  exact congrArg (·, p.2) (List.append_assoc a b p.1).symm

theorem inside_plain {c : CodePoint} (quote : c ≠ CodePoint.doubleQuote)
    (line : c ≠ CodePoint.newline) (escape : c ≠ CodePoint.backslash) : Inside [c] := by
  intro z
  rw [List.singleton_append, readQuotedRest.eq_def]
  simp [quote, line, escape]

theorem inside_escaped (c : CodePoint) : Inside [CodePoint.backslash, c] := by
  intro z
  change readQuotedRest CodePoint.doubleQuote false (CodePoint.backslash :: c :: z) = _
  rw [readQuotedRest.eq_def]
  rfl

theorem hexDigit_plain (n : Nat) : 48 ≤ Text.hexDigit n ∧ Text.hexDigit n ≠ CodePoint.backslash := by
  unfold Text.hexDigit
  split
  · rename_i small
    have bound := Nat.le_of_ble_eq_true small
    refine ⟨Nat.le_add_left 48 n, fun same => ?_⟩
    have same : n + 48 = 92 := same
    omega
  · rename_i large
    have bound : ¬n ≤ 9 := fun le => large (Nat.ble_eq_true_of_le le)
    refine ⟨Nat.le_add_left_of_le (by decide), fun same => ?_⟩
    have same : n + 87 = 92 := same
    omega

theorem inside_hexDigits (width n : Nat) : Inside (Text.hexDigits width n) := by
  induction width generalizing n with
  | zero => exact .nil
  | succ width ih =>
    obtain ⟨digit, escape⟩ := hexDigit_plain (n % 16)
    refine (ih _).append (inside_plain ?_ ?_ escape) <;>
    · intro same
      rw [same] at digit
      revert digit
      decide

theorem inside_stringPoint (c : CodePoint) : Inside (stringPoint c) := by
  unfold stringPoint
  split
  · exact inside_escaped _
  · rename_i plain
    split
    · exact (inside_escaped 117).append (inside_hexDigits 4 c)
    · refine inside_plain ?_ ?_ ?_ <;>
      · rintro rfl
        revert plain
        decide

/-- Quoted text is one token. -/
theorem closed_stringLiteral (t : Text) : Closed (stringLiteral t) [(.string, stringLiteral t)] := by
  intro z
  have inside : Inside (t.flatMap stringPoint) := by
    induction t with
    | nil => exact .nil
    | cons c t ih => exact (inside_stringPoint c).append ih
  have rest := inside (CodePoint.doubleQuote :: z)
  have quote : readQuotedRest CodePoint.doubleQuote false (CodePoint.doubleQuote :: z) =
      some ([CodePoint.doubleQuote], z) := by
    rw [readQuotedRest.eq_def]
    rfl
  rw [quote] at rest
  have read : readQuoted CodePoint.doubleQuote false (stringLiteral t ++ z) =
      some (stringLiteral t, z) := by
    simp only [stringLiteral, List.cons_append, List.append_assoc, List.nil_append, readQuoted,
      beq_self_eq_true, if_true, rest]
    rfl
  exact .token rfl (readTerminal_iff.mpr (.double read)) .done

end Token

/-- The tokens behind the first part of a generated list. -/
def following (last : Punctuator) :
    List (List (Terminal × Text)) → List (Terminal × Text)
  | [] => [last.bare]
  | part :: rest => Punctuator.comma.bare :: (part ++ following last rest)

/-- The tokens of a generated list. -/
def listing (first last : Punctuator) :
    List (List (Terminal × Text)) → List (Terminal × Text)
  | [] => [first.bare, last.bare]
  | part :: rest => first.bare :: (part ++ following last rest)

variable {first last : Punctuator} {parts : List (List (Terminal × Text))}

theorem following_ok : Following last parts (following last parts) := by
  induction parts with
  | nil => exact .close rfl
  | cons part rest ih => exact .comma rfl ih

theorem listing_enclosed (each : ∀ part ∈ parts, Balanced (part.map Prod.fst)) : ∃ inner closing,
      listing first last parts = first.bare :: (inner ++ [closing]) ∧
        closing.1 = .punctuator last ∧ Balanced (inner.map Prod.fst) := by
  cases parts with
  | nil => exact ⟨[], last.bare, rfl, rfl, Single.nil.balanced⟩
  | cons part rest =>
    obtain ⟨inner, closing, same, closes, balanced⟩ := following_ok.balanced each
    exact ⟨inner, closing, congrArg (first.bare :: ·) same, closes, balanced⟩

theorem following_stop (last : Punctuator) (closes : (Terminal.punctuator last).nest 0 = none)
    (parts : List (List (Terminal × Text))) :
    ∃ stop x, following last parts = stop :: x ∧ stop.1.nest 0 = none := by
  cases parts with
  | nil => exact ⟨_, _, rfl, closes⟩
  | cons part rest => exact ⟨_, _, rfl, rfl⟩

theorem listing_getLast (first last : Punctuator) (parts : List (List (Terminal × Text)))
    (v : List (Terminal × Text)) : ∃ z closing,
      listing first last (parts ++ [v]) = first.bare :: (z ++ v ++ [closing]) ∧ Ahead z := by
  have some : parts ++ [v] ≠ [] := by simp
  obtain ⟨item, items, same⟩ := List.exists_cons_of_ne_nil some
  have following : Following last items (following last items) := following_ok
  obtain ⟨front, i, z, closing, listed, ends, ahead⟩ := following.getLast item
  rw [same]
  refine ⟨z, closing, ?_, ahead⟩
  obtain rfl := List.singleton_inj.mp (List.append_inj' (same.trans listed) rfl).2
  exact congrArg (first.bare :: ·) ends

theorem nesting_following (closes : (Terminal.punctuator last).nest 1 = some 0)
    (each : ∀ part ∈ parts, Balanced (part.map Prod.fst)) :
    nesting 1 ((following last parts).map Prod.fst) = some 0 := by
  induction parts with
  | nil =>
    change ((Terminal.punctuator last).nest 1).bind _ = _
    rw [closes]
    rfl
  | cons part rest ih =>
    have here := (each part (by simp)).whole
    change nesting 1 ((part ++ following last rest).map Prod.fst) = some 0
    rw [List.map_append, nesting_append, here]
    exact ih fun part member => each part (by simp [member])

/-- A generated object literal has no comma outside of its braces. -/
theorem single_listing (each : ∀ part ∈ parts, Balanced (part.map Prod.fst)) :
    Single ((listing .openBrace .closeBrace parts).map Prod.fst) := by
  cases parts with
  | nil => rfl
  | cons part rest =>
    have here := (each part (by simp)).whole
    change nesting 1 ((part ++ following .closeBrace rest).map Prod.fst) = some 0
    rw [List.map_append, nesting_append, here]
    exact nesting_following rfl fun part member => each part (by simp [member])

namespace Token

/-- Texts joined by commas, and what closes them. -/
theorem closed_join {separator closing : Text} {texts : List Text}
    (separates : Closed separator [Punctuator.comma.bare]) (stops : ∀ z, Stop (separator ++ z))
    (closes : Closed closing [last.bare]) (stops' : ∀ z, Stop (closing ++ z))
    (pieces : List.Forall₂ Piece texts parts) {t : Text} {part : List (Terminal × Text)}
    (piece : Piece t part) :
    Closed (Text.join separator (t :: texts) ++ closing) (part ++ following last parts) := by
  induction pieces generalizing t part with
  | nil => exact piece.append stops' closes
  | @cons next w texts parts head _ ih =>
    have rest := separates.append (ih head)
    have all := piece.append (fun z => by rw [List.append_assoc]; exact stops _) rest
    have same : Text.join separator (t :: next :: texts) ++ closing =
        t ++ (separator ++ (Text.join separator (next :: texts) ++ closing)) := by
      simp [Text.join]
    rw [same]
    exact all

theorem blank_append {a b : Text} (first : ∀ c ∈ a, isBlank c = true)
    (last : ∀ c ∈ b, isBlank c = true) : ∀ c ∈ a ++ b, isBlank c = true := by
  intro c member
  rcases List.mem_append.mp member with member | member
  · exact first c member
  · exact last c member

theorem blank_indentation : ∀ c ∈ indentation, isBlank c = true := by decide

/-- A generated object literal gives its braces, the tokens of its entries, and commas. -/
theorem closed_layoutMapping {entries : List Text} {indent : Text}
    (blank : ∀ c ∈ indent, isBlank c = true) (pieces : List.Forall₂ Piece entries parts) :
    Closed (layoutMapping entries indent) (listing .openBrace .closeBrace parts) := by
  have opens := closed_mark (m := .openBrace) (by decide)
  have closes := closed_mark (m := .closeBrace) (by decide)
  unfold layoutMapping
  cases pieces with
  | nil => exact opens.append closes
  | @cons t part entries parts piece pieces =>
    have inner := blank_append blank blank_indentation
    have indented {t : Text} {w : List (Terminal × Text)} (piece : Piece t w) :
        Piece (indent ++ indentation ++ t) w := (closed_blanks inner).behind piece
    have separates : Closed (StyleSplit.text ",\n") [Punctuator.comma.bare] :=
      (closed_mark (m := .comma) (by decide)).append (closed_blanks (t := [10]) (by decide))
    have ending : Closed (StyleSplit.text "\n" ++ indent ++ StyleSplit.text "\x7d")
        [Punctuator.closeBrace.bare] :=
      (closed_blanks (blank_append (a := [10]) (by decide) blank)).append closes
    have others : List.Forall₂ Piece (entries.map (indent ++ indentation ++ ·)) parts :=
      List.forall₂_map_left_iff.mpr (pieces.imp fun _ _ => indented)
    have rest := closed_join separates (fun z => stop_cons (c := 44) (by decide)) ending
      (fun z => stop_cons (c := 10) (by decide)) others (indented piece)
    have opened : Closed (StyleSplit.text "\x7b\n") [Punctuator.openBrace.bare] :=
      opens.append (closed_blanks (t := [10]) (by decide))
    have all := opened.append rest
    simp only [List.isEmpty_cons, Bool.false_eq_true, if_false, List.map_cons,
      List.append_assoc] at all ⊢
    exact all

/-- A generated entry: its key, a colon, and its value. -/
theorem closed_entry {key value : Text} {u v : List (Terminal × Text)} (first : Piece key u)
    (last : Closed value v) :
    Closed (key ++ StyleSplit.text ": " ++ value) (u ++ Punctuator.colon.bare :: v) := by
  have colon : Closed (StyleSplit.text ": ") [Punctuator.colon.bare] :=
    (closed_mark (m := .colon) (by decide)).append (closed_blanks (t := [32]) (by decide))
  rw [List.append_assoc]
  exact first.append (fun z => stop_cons (c := 58) (by decide)) (colon.append last)

end Token

/-- The token of a quoted text. -/
def quotedToken (t : Text) : Terminal × Text := (.string, stringLiteral t)

/-- The tokens of an entry with a quoted key. -/
def entryTokens (key : Text) (value : List (Terminal × Text)) : List (Terminal × Text) :=
  quotedToken key :: Punctuator.colon.bare :: value

variable {key value : Text} {u : List (Terminal × Text)}

theorem closed_layoutEntry (last : Token.Closed value u) :
    Token.Closed (layoutEntry key value) (entryTokens key u) :=
  Token.closed_entry (Token.closed_stringLiteral key).piece last

theorem single_entryTokens (single : Single (u.map Prod.fst)) :
    Single ((entryTokens key u).map Prod.fst) := by
  have front : Single [Terminal.string, Punctuator.colon.bare.1] := rfl
  exact front.append single

end Script

end StyleSplit
