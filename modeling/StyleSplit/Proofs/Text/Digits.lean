import Mathlib.Data.List.Basic
import Mathlib.Data.Nat.Digits.Defs
import StyleSplit.Text.Digit

/-! The digits of a number in base ten. They are European ones, there is at least one, and
together they determine the number. -/
namespace StyleSplit

namespace CodePoint

theorem decimalValue?_digit : ∀ v < 10, decimalValue? (48 + v) = some v := by decide

theorem decimalValue?_of_isDigit {c : CodePoint} (digit : c.isDigit = true) :
    ∃ v < 10, c = 48 + v ∧ c.decimalValue? = some v := by
  rw [isDigit, Bool.and_eq_true, Nat.ble_eq, Nat.ble_eq] at digit
  obtain ⟨v, rfl⟩ := Nat.exists_eq_add_of_le digit.1
  have small : v < 10 := Nat.lt_of_add_lt_add_left (Nat.lt_succ_of_le digit.2)
  exact ⟨v, small, rfl, decimalValue?_digit v small⟩

end CodePoint

namespace Text

theorem ofNat_injective : Function.Injective Text.ofNat := by
  intro m n same
  have digits : Nat.toDigits 10 m = Nat.toDigits 10 n :=
    List.map_injective_iff.mpr (fun _ _ => Char.toNat_inj.mp) same
  rw [← Nat.ofDigitChars_ten_toDigits (n := m), digits, Nat.ofDigitChars_ten_toDigits]

theorem isDigit_of_mem_ofNat {n : Nat} {c : CodePoint} (member : c ∈ Text.ofNat n) :
    c.isDigit = true := by
  obtain ⟨digit, listed, rfl⟩ := List.mem_map.mp member
  have bounds := Nat.isDigit_of_mem_toDigits (by decide) (by decide) listed
  simp only [Char.isDigit, Bool.and_eq_true, decide_eq_true_eq] at bounds
  refine Bool.and_eq_true_iff.mpr ⟨?_, ?_⟩
  · exact Nat.ble_eq.mpr (UInt32.le_iff_toNat_le.mp bounds.1)
  · exact Nat.ble_eq.mpr (UInt32.le_iff_toNat_le.mp bounds.2)

theorem hyphen_notMem_ofNat (n : Nat) : CodePoint.hyphen ∉ Text.ofNat n :=
  fun member => absurd (isDigit_of_mem_ofNat member) (by decide)

theorem ofNat_ne_nil (n : Nat) : ofNat n ≠ [] := by
  simp [ofNat, Nat.toDigits_ne_nil]

theorem ofInt_natCast (n : Nat) : ofInt n = ofNat n :=
  if_neg (Int.not_lt.mpr (Int.natCast_nonneg n))

theorem isDecimal_of_mem_ofNat {n : Nat} {c : CodePoint} (member : c ∈ ofNat n) :
    c.isDecimal = true := by
  obtain ⟨v, -, -, value⟩ := CodePoint.decimalValue?_of_isDigit (isDigit_of_mem_ofNat member)
  rw [CodePoint.isDecimal, value]
  rfl

/-- As many digits are enough as the power of ten has that bounds the number. -/
theorem length_ofNat_le {n k : Nat} (some : 0 < k) (bound : n < 10 ^ k) : (ofNat n).length ≤ k := by
  rw [ofNat, List.length_map]
  exact Nat.toDigits_length 10 n k some bound

end Text

end StyleSplit
