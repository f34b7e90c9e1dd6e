import StyleSplit.Proofs.Script.Numerals
import StyleSplit.Proofs.Text.Digits

/-! The limit on decimal digits. Its two sides agree: an integer is read back from its digits
exactly when it can be written, and whatever is read without a mark can be written. Only the
digits behind a mark stand for integers that are too long to be written. -/
namespace StyleSplit

open Script Script.Literal Lexicon

variable {n : Nat} {raw t : Text}

theorem writable_int {value : Int} : (Number.int value).writable = true ↔
    (Text.ofNat value.natAbs).length ≤ Number.digitLimit := decide_eq_true_iff

theorem readDigits?_ofNat (n : Nat) : readDigits? 10 (Text.ofNat n) = some n := by
  have each : ∀ c ∈ Nat.toDigits 10 n, digitValue? c.toNat = some (c.toNat - '0'.toNat) ∧
      c.toNat - '0'.toNat < 10 := by
    intro c member
    have digit := Text.isDigit_of_mem_ofNat (List.mem_map_of_mem member)
    obtain ⟨v, small, same, value⟩ := CodePoint.decimalValue?_of_isDigit digit
    obtain rfl : c.toNat - '0'.toNat = v := same ▸ Nat.add_sub_cancel_left 48 v
    exact ⟨by rw [digitValue?, value]; rfl, small⟩
  have read : (Text.ofNat n).map digitValue? =
      ((Nat.toDigits 10 n).map fun c => c.toNat - '0'.toNat).map some := by
    rw [Text.ofNat, List.map_map, List.map_map]
    exact List.map_congr_left fun c member => (each c member).1
  have small : ∀ v ∈ (Nat.toDigits 10 n).map fun c => c.toNat - '0'.toNat, v < 10 :=
    List.forall_mem_map.mpr fun c member => (each c member).2
  rw [readDigits?, if_neg (by simpa using Text.ofNat_ne_nil n), foldlM_appendDigit? read small,
    List.foldl_map]
  exact congrArg some Nat.ofDigitChars_ten_toDigits

/-- An integer is written, and its digits are read back, or there are too many digits for
either. -/
theorem write_decodeNumber (n : Nat) :
    (Number.int n).write = .ok (Text.ofNat n) ∧ decodeNumber (Text.ofNat n) = .ok (.int n) ∨
      (Number.int n).write = .error ⟨none⟩ ∧
        decodeNumber (Text.ofNat n) = .error (.oversized ⟨some (Text.ofNat n).length⟩) := by
  have each : ∀ c ∈ Text.ofNat n, c.isDecimal = true := fun _ => Text.isDecimal_of_mem_ofNat
  obtain ⟨m, denotes, decoded⟩ := decodeNumber_digits (Text.ofNat_ne_nil n) each
  have read := readDigits?_eq (denotes.congr fun c member => digitValue?_of_isDecimal (each c member))
  obtain rfl : n = m := Option.some.inj ((readDigits?_ofNat n).symm.trans read)
  have fits : (Number.int n).writable = true ↔ (Text.ofNat n).length ≤ Number.digitLimit :=
    writable_int
  rw [decoded, Number.write, Number.written, Text.ofInt_natCast]
  by_cases many : Number.digitLimit < (Text.ofNat n).length
  · exact .inr ⟨if_neg (fits.not.mpr (Nat.not_le.mpr many)), if_pos many⟩
  · exact .inl ⟨if_pos (fits.mpr (Nat.not_lt.mp many)), if_neg many⟩

/-- A number of so many digits needs no more than these to be written. -/
theorem length_ofNat_of_denotes {value? : CodePoint → Option Nat}
    (denotes : Denotes 10 value? t n) : (Text.ofNat n).length ≤ t.length := by
  obtain ⟨filled, values, read, small, rfl⟩ := denotes
  have length : values.reverse.length = t.length := by
    simpa using (congrArg List.length read).symm
  refine Text.length_ofNat_le (List.length_pos_iff.mpr filled) ?_
  rw [← length]
  exact Nat.ofDigits_lt_base_pow_length (by decide) fun v member =>
    small v (List.mem_reverse.mp member)

/-- A number that is read without a mark can be written. -/
theorem write_of_decodeNumber (member : raw ∈ lexemes .number)
    (unmarked : ¬Marked (significant raw)) {number : Number}
    (decoded : decodeNumber raw = .ok number) : number.write = .ok number.written := by
  refine if_pos ?_
  obtain ⟨mark, base, digits, known, same, -⟩ | decimal := number_cases member
  · exact absurd ⟨mark, digits, base, same, known⟩ unmarked
  obtain ⟨-, whole, pointed⟩ := decodeNumber_decimal decimal
  by_cases plain : Whole (significant raw)
  · obtain ⟨n, denotes, read⟩ := whole plain
    rw [decoded] at read
    split at read
    · cases read
    · rename_i few
      cases read
      exact writable_int.mpr (Nat.le_trans (length_ofNat_of_denotes denotes) (Nat.not_lt.mp few))
  · obtain ⟨x, -, read⟩ := pointed plain
    cases decoded.symm.trans read
    rfl

end StyleSplit
