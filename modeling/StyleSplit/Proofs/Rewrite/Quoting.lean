import StyleSplit.Proofs.Rewrite.Writing
import StyleSplit.Proofs.Script.Munching

/-! Generated quoted text. Each code point is written so that the reader of escapes takes
exactly what was written for it, whatever comes behind; so a quoted text is decoded to the
text that was quoted. -/
namespace StyleSplit.Script

namespace Literal

variable {c letter : CodePoint} {digits rest : Text} {width fuel : Nat}

theorem escape_letter (escaped : letterEscape? c = some letter) (rest : Text) :
    escape letter rest = .ok ([c], rest) := by
  unfold letterEscape? at escaped
  split at escaped
  · rename_i plain
    cases escaped
    rcases Bool.or_eq_true_iff.mp plain with same | same <;> rw [eq_of_beq same] <;> rfl
  repeat
    split at escaped
    · rename_i same
      cases escaped
      rw [eq_of_beq same]
      rfl
  cases escaped

theorem takeHex?_append (length : digits.length = width)
    (each : digits.all CodePoint.isHexDigit = true) (rest : Text) :
    takeHex? width (digits ++ rest) = some (digits, rest) := by
  subst length
  simp [takeHex?, each]

/-- Four digits behind the letter of a numbered escape are all that belongs to it. -/
theorem escape_control (control : c < 32) (rest : Text) :
    escape 117 (Text.hexDigits 4 c ++ rest) = .ok ([c], rest) := by
  have digits : ∀ c < 32, (Text.hexDigits 4 c).length = 4 ∧
      (Text.hexDigits 4 c).all CodePoint.isHexDigit = true ∧
      hexNumber (Text.hexDigits 4 c) = c ∧
      (Text.hexDigits 4 c).head? ≠ some CodePoint.openBrace := by
    decide +kernel
  obtain ⟨length, each, number, head⟩ := digits c control
  have taken := takeHex?_append length each rest
  have numeric : numericEscape? 117 (Text.hexDigits 4 c ++ rest) =
      some (Text.hexDigits 4 c, rest) := by
    cases spelled : Text.hexDigits 4 c with
    | nil => simp [spelled] at length
    | cons d more =>
      rw [spelled] at taken head
      have plain : d ≠ CodePoint.openBrace := fun same => head (congrArg some same)
      simpa [numericEscape?, plain] using taken
  have small : c < 0x110000 := Nat.lt_trans control (by decide)
  simp only [escape, numeric, number, codePoint, if_pos small]
  rfl

theorem unescape_escape {d : CodePoint} {behind : Text}
    (escaped : escape d rest = .ok ([c], behind)) (fuel : Nat) :
    unescape (fuel + 1) (CodePoint.backslash :: d :: rest) = (c :: ·) <$> unescape fuel behind := by
  rw [unescape, if_pos (by decide), escaped]
  rfl

/-- What is written for a code point is read in one step. -/
theorem unescape_stringPoint (fuel : Nat) (c : CodePoint) (rest : Text) :
    unescape (fuel + 1) (stringPoint c ++ rest) = (c :: ·) <$> unescape fuel rest := by
  unfold stringPoint
  split
  · rename_i escaped
    exact unescape_escape (escape_letter escaped rest) fuel
  · rename_i unnamed
    split
    · rename_i control
      exact unescape_escape (escape_control control rest) fuel
    · have plain : ¬(c == CodePoint.backslash) = true := by
        intro same
        rw [eq_of_beq same] at unnamed
        cases unnamed
      rw [List.singleton_append, unescape.eq_def]
      exact if_neg plain

theorem unescape_points {t : Text} (enough : t.length ≤ fuel) :
    unescape fuel (t.flatMap stringPoint) = .ok t := by
  induction t generalizing fuel with
  | nil => cases fuel <;> rfl
  | cons c t ih =>
    obtain ⟨fuel, rfl⟩ : ∃ n, fuel = n + 1 := ⟨fuel - 1, by simp at enough; omega⟩
    rw [List.flatMap_cons, unescape_stringPoint, ih (by simpa using enough)]
    rfl

theorem length_points (t : Text) : t.length ≤ (t.flatMap stringPoint).length := by
  have some (c : CodePoint) : 1 ≤ (stringPoint c).length := by
    unfold stringPoint
    split
    · simp
    · split <;> simp [StyleSplit.text]
  induction t with
  | nil => exact Nat.le_refl _
  | cons c t ih =>
    have := some c
    simp only [List.flatMap_cons, List.length_append, List.length_cons]
    omega

/-- A quoted text stands for the text that was quoted. -/
theorem decodeText_stringLiteral (t : Text) : decodeText (stringLiteral t) = .ok t := by
  have body : ((stringLiteral t).drop 1).dropLast = t.flatMap stringPoint := by
    simp [stringLiteral]
  rw [decodeText, body]
  exact unescape_points (length_points t)

end Literal

/-- A quoted text is split into one token. -/
theorem splits_stringLiteral (t : Text) :
    Token.Splits (stringLiteral t) [(.string, stringLiteral t)] := by
  have lexes := Token.closed_stringLiteral t []
  rw [List.append_nil] at lexes
  exact Token.splits_iff.mpr lexes

end StyleSplit.Script
