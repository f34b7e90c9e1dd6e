import Mathlib.Data.List.TakeWhile
import Mathlib.Data.Nat.Digits.Defs
import Mathlib.Tactic.FinCases
import StyleSplit.Proofs.Script.Lexicon
import StyleSplit.Script.Literal

/-! What the numbers of a script stand for. Behind a mark, or without a point and an exponent,
a number is the integer that its digits stand for in positional notation; every other one is a
floating-point number. A mark without digits stands for nothing, nor do more decimal digits
than the limit. -/
namespace StyleSplit

namespace CodePoint

variable {c : CodePoint}

/-- The value of a decimal digit is how far it is from the zero of its script. -/
theorem decimalValue?_eq_some {v : Nat} (digit : c.decimalValue? = some v) :
    ∃ first ∈ digitZeros, c = first + v ∧ v < 10 := by
  obtain ⟨first, found, value⟩ := Option.map_eq_some_iff.mp digit
  have near := List.find?_some found
  rw [Bool.and_eq_true, Nat.ble_eq, Nat.blt_eq] at near
  obtain rfl : c - first = v := value
  exact ⟨first, List.mem_of_find?_eq_some found, (Nat.add_sub_of_le near.1).symm,
    Nat.sub_lt_left_of_lt_add near.1 near.2⟩

theorem digits_not_blank : ∀ first ∈ digitZeros, ∀ v < 10, isBlank (first + v) = false := by
  decide +kernel

theorem isBlank_of_isDecimal (digit : c.isDecimal = true) : c.isBlank = false := by
  obtain ⟨v, digit⟩ := Option.isSome_iff_exists.mp digit
  obtain ⟨first, known, rfl, small⟩ := decimalValue?_eq_some digit
  exact digits_not_blank first known v small

theorem hexDigit_lt (digit : c.isHexDigit = true) : c < 128 := by
  by_contra large
  have out (low high : Nat) (bound : high < 128) : (Nat.ble low c && Nat.ble c high) = false := by
    rw [Bool.eq_false_iff, ne_eq, Bool.and_eq_true, Nat.ble_eq, Nat.ble_eq]
    exact fun between => large (Nat.lt_of_le_of_lt between.2 bound)
  simp [isHexDigit, hexValue?, isDigit, out] at digit

/-- A hexadecimal digit is no blank, and has the same value in any base. -/
theorem hexDigits_read : ∀ c < 128, isHexDigit c = true →
    isBlank c = false ∧ Script.Literal.digitValue? c = hexValue? c := by
  decide +kernel

end CodePoint

namespace Script.Literal

open Lexicon

/-- The marks behind a leading zero, with their bases. -/
def radixMarks : List (CodePoint × Nat) :=
  [(120, 16), (88, 16), (98, 2), (66, 2), (111, 8), (79, 8)]

/-- Digits, at least one, stand for a number in positional notation. -/
def Denotes (base : Nat) (value? : CodePoint → Option Nat) (digits : Text) (n : Nat) : Prop :=
  digits ≠ [] ∧ ∃ values : List Nat, digits.map value? = values.map some ∧
    (∀ v ∈ values, v < base) ∧ n = Nat.ofDigits base values.reverse

variable {base n : Nat} {value? : CodePoint → Option Nat} {digits t : Text}

/-- Digits stand for a number if each of them has a value below the base. -/
theorem exists_denotes (filled : digits ≠ [])
    (each : ∀ c ∈ digits, ∃ v, value? c = some v ∧ v < base) :
    ∃ n, Denotes base value? digits n := by
  refine ⟨_, filled, digits.map fun c => (value? c).getD 0, ?_, ?_, rfl⟩
  · rw [List.map_map]
    refine List.map_congr_left fun c member => ?_
    obtain ⟨v, value, -⟩ := each c member
    simp [value]
  · intro v member
    obtain ⟨c, listed, rfl⟩ := List.mem_map.mp member
    obtain ⟨v, value, small⟩ := each c listed
    simpa [value] using small

/-- Digits are read one by one, each behind those before it. -/
theorem foldlM_appendDigit? {values : List Nat} (read : digits.map digitValue? = values.map some)
    (small : ∀ v ∈ values, v < base) (start : Nat) :
    digits.foldlM (appendDigit? base) start =
      some (values.foldl (fun value digit => base * value + digit) start) := by
  induction digits generalizing values start with
  | nil =>
    obtain rfl : values = [] := by simpa using read.symm
    rfl
  | cons c rest ih =>
    cases values with
    | nil => cases read
    | cons v values =>
      obtain ⟨here, there⟩ := List.cons_eq_cons.mp read
      have first : appendDigit? base start c = some (base * start + v) := by
        simp [appendDigit?, here, small v List.mem_cons_self]
      rw [List.foldlM_cons, first]
      exact ih there (fun w member => small w (List.mem_cons_of_mem _ member)) _

theorem readDigits?_eq (denotes : Denotes base digitValue? digits n) :
    readDigits? base digits = some n := by
  obtain ⟨filled, values, read, small, rfl⟩ := denotes
  have positional : values.foldl (fun value digit => base * value + digit) 0 =
      Nat.ofDigits base values.reverse := by
    rw [Nat.ofDigits_eq_foldr, List.foldr_reverse]
    simp [Nat.add_comm]
  rw [readDigits?, foldlM_appendDigit? read small, positional]
  simpa using filled

theorem Denotes.congr {value' : CodePoint → Option Nat} (denotes : Denotes base value? digits n)
    (same : ∀ c ∈ digits, value' c = value? c) : Denotes base value' digits n := by
  obtain ⟨filled, values, read, rest⟩ := denotes
  exact ⟨filled, values, (List.map_congr_left same).trans read, rest⟩

theorem digitValue?_of_isDecimal {c : CodePoint} (digit : c.isDecimal = true) :
    digitValue? c = c.decimalValue? := by
  obtain ⟨v, digit⟩ := Option.isSome_iff_exists.mp digit
  rw [digitValue?, digit]
  rfl

/-- Decimal digits of any script stand for a number. -/
theorem readDigits?_decimal (filled : digits ≠ []) (each : ∀ c ∈ digits, c.isDecimal = true) :
    ∃ n, Denotes 10 CodePoint.decimalValue? digits n ∧ readDigits? 10 digits = some n := by
  have below : ∀ c ∈ digits, ∃ v, c.decimalValue? = some v ∧ v < 10 := by
    intro c member
    obtain ⟨v, digit⟩ := Option.isSome_iff_exists.mp (each c member)
    obtain ⟨_, -, -, small⟩ := CodePoint.decimalValue?_eq_some digit
    exact ⟨v, digit, small⟩
  obtain ⟨n, denotes⟩ := exists_denotes filled below
  refine ⟨n, denotes, readDigits?_eq (denotes.congr fun c member => ?_)⟩
  exact digitValue?_of_isDecimal (each c member)

/-- Nothing is trimmed where there are no blanks. -/
theorem trimEnd_eq (solid : ∀ c ∈ t, c.isBlank = false) : trimEnd t = t := by
  have none : t.reverse.dropWhile CodePoint.isBlank = t.reverse := by
    cases shape : t.reverse with
    | nil => rfl
    | cons c rest =>
      have member : c ∈ t := List.mem_reverse.mp (shape ▸ List.mem_cons_self)
      exact List.dropWhile_cons_of_neg (by simp [solid c member])
  rw [trimEnd, none, List.reverse_reverse]

theorem trim_eq (solid : ∀ c ∈ t, c.isBlank = false) : trim t = t := by
  have none : t.dropWhile CodePoint.isBlank = t := by
    cases t with
    | nil => rfl
    | cons c rest => exact List.dropWhile_cons_of_neg (by simp [solid c List.mem_cons_self])
  rw [trim, none, trimEnd_eq solid]

/-- A number without underscores and without its suffix. -/
theorem significant_eq {raw front back : Text}
    (parted : raw.filter (· != CodePoint.underscore) = front ++ back) (last : back ∈ suffix)
    (clean : 110 ∉ front) : significant raw = front := by
  rw [significant, parted]
  rcases mem_optional.mp last with rfl | ⟨c, mark, rfl⟩
  · rw [List.append_nil, if_neg]
    rw [beq_iff_eq]
    exact fun ends => clean (List.mem_of_getLast? ends)
  · obtain rfl : c = 110 := by simpa using mark
    rw [List.getLast?_concat, List.dropLast_concat]
    rfl

theorem suffix_clean {back : Text} (last : back ∈ suffix) :
    back.filter (· != CodePoint.underscore) = back := by
  rcases mem_optional.mp last with rfl | ⟨c, mark, rfl⟩
  · rfl
  · obtain rfl : c = 110 := by simpa using mark
    rfl

theorem filter_digits {p : CodePoint → Bool}
    (each : ∀ c ∈ digits, (p c || c == CodePoint.underscore) = true) :
    ∀ c ∈ digits.filter (· != CodePoint.underscore), p c = true := by
  intro c member
  obtain ⟨listed, other⟩ := List.mem_filter.mp member
  simpa [bne_iff_ne.mp other] using each c listed

theorem filter_eq_self {p : CodePoint → Bool} (other : p CodePoint.underscore = false)
    (each : ∀ c ∈ t, p c = true) : t.filter (· != CodePoint.underscore) = t := by
  refine List.filter_eq_self.mpr fun c member => bne_iff_ne.mpr ?_
  rintro rfl
  rw [each _ member] at other
  cases other

/-- A zero and a mark, with the digits of the base that the mark stands for. -/
theorem radix_shape {marks : List CodePoint} {isDigit : CodePoint → Bool} {raw : Text}
    (member : raw ∈ radix marks isDigit) (plain : isDigit 110 = false)
    (check : CodePoint.underscore ∉ marks ∧ 110 ∉ marks) :
    ∃ mark ∈ marks, ∃ digits, significant raw = 48 :: mark :: digits ∧
      ∀ c ∈ digits, isDigit c = true := by
  obtain ⟨_, _, rfl, digit, behind⟩ := mem_one_mul.mp member
  obtain rfl := eq_of_beq digit
  obtain ⟨mark, _, rfl, marked, behind⟩ := mem_one_mul.mp behind
  obtain ⟨digits, inside, back, last, rfl⟩ := Language.mem_mul.mp behind
  have marked : mark ∈ marks := List.contains_iff_mem.mp marked
  have each := filter_digits (mem_several.mp inside).2
  refine ⟨mark, marked, digits.filter (· != CodePoint.underscore), ?_, each⟩
  refine significant_eq ?_ last ?_
  · have other : (mark != CodePoint.underscore) = true := by
      rw [bne_iff_ne]
      rintro rfl
      exact check.1 marked
    have zero : ((48 : CodePoint) != CodePoint.underscore) = true := rfl
    simp only [List.filter_cons, zero, other, if_true, List.filter_append, suffix_clean last,
      List.cons_append]
  · intro listed
    rcases List.mem_cons.mp listed with same | listed
    · cases same
    rcases List.mem_cons.mp listed with rfl | listed
    · exact check.2 marked
    · rw [each 110 listed] at plain
      cases plain

/-- What stands in a decimal number without underscores and without its suffix. -/
def isNumeral (c : CodePoint) : Bool := c.isDecimal || [46, 101, 69, 43, 45].contains c

theorem isNumeral_solid {c : CodePoint} (numeral : isNumeral c = true) : c.isBlank = false := by
  rcases Bool.or_eq_true_iff.mp numeral with digit | mark
  · exact CodePoint.isBlank_of_isDecimal digit
  · have mark : c ∈ [46, 101, 69, 43, 45] := List.contains_iff_mem.mp mark
    fin_cases mark <;> rfl

theorem fraction_numeral (member : t ∈ fraction) : ∀ c ∈ t, isNumeral c = true := by
  rcases mem_optional.mp member with rfl | member
  · simp
  · obtain ⟨c, digits, rfl, point, each⟩ := mem_one_mul.mp member
    obtain rfl := eq_of_beq point
    refine List.forall_mem_cons.mpr ⟨rfl, fun c listed => ?_⟩
    simp [isNumeral, each c listed]

theorem exponent_numeral (member : t ∈ exponent) : ∀ c ∈ t, isNumeral c = true := by
  rcases mem_optional.mp member with rfl | member
  · simp
  · obtain ⟨c, _, rfl, letter, member⟩ := mem_one_mul.mp member
    obtain ⟨sign, signs, digits, several, rfl⟩ := Language.mem_mul.mp member
    refine List.forall_mem_cons.mpr ⟨?_, fun d listed => ?_⟩
    · rw [Bool.or_eq_true, beq_iff_eq, beq_iff_eq] at letter
      rcases letter with rfl | rfl <;> rfl
    · rcases List.mem_append.mp listed with listed | listed
      · rcases mem_optional.mp signs with rfl | ⟨e, known, rfl⟩
        · cases listed
        · obtain rfl := List.mem_singleton.mp listed
          have known : d ∈ [43, 45] := List.contains_iff_mem.mp known
          fin_cases known <;> rfl
      · simp [isNumeral, (mem_several.mp several).2 d listed]

/-- The digits before the point, the fraction and the exponent of a decimal number. There are
digits before or behind the point. -/
structure Parts (whole behind power : Text) : Prop where
  digits : ∀ c ∈ whole, c.isDecimal = true
  fraction : behind ∈ Lexicon.fraction
  exponent : power ∈ Lexicon.exponent
  filled : whole ≠ [] ∨ ∃ c rest, behind = CodePoint.point :: c :: rest

variable {whole behind power : Text}

theorem Parts.numeral (parts : Parts whole behind power) :
    ∀ c ∈ whole ++ (behind ++ power), isNumeral c = true := by
  intro c member
  rcases List.mem_append.mp member with member | member
  · simp [isNumeral, parts.digits c member]
  rcases List.mem_append.mp member with member | member
  · exact fraction_numeral parts.fraction c member
  · exact exponent_numeral parts.exponent c member

theorem decimal_shape {raw : Text} (member : raw ∈ decimal) :
    ∃ whole behind power, Parts whole behind power ∧
      significant raw = whole ++ (behind ++ power) := by
  obtain ⟨x, digits, y, tail, rfl⟩ := Language.mem_mul.mp member
  obtain ⟨power, exponent, back, last, rfl⟩ := Language.mem_mul.mp tail
  have found : ∃ whole behind, Parts whole behind power ∧
      x.filter (· != CodePoint.underscore) = whole ++ behind := by
    rcases digits with digits | digits
    · obtain ⟨c, _, rfl, digit, within⟩ := mem_one_mul.mp digits
      obtain ⟨middle, each, behind, fraction, rfl⟩ := Language.mem_mul.mp within
      have every := filter_digits each
      refine ⟨c :: middle.filter (· != CodePoint.underscore), behind,
        ⟨List.forall_mem_cons.mpr ⟨digit, every⟩, fraction, exponent, .inl (by simp)⟩, ?_⟩
      have first : (c != CodePoint.underscore) = true := by
        rw [bne_iff_ne]
        rintro rfl
        cases digit
      rw [List.filter_cons, if_pos first, List.filter_append,
        filter_eq_self (p := isNumeral) rfl (fraction_numeral fraction), List.cons_append]
    · obtain ⟨c, ds, rfl, point, several⟩ := mem_one_mul.mp digits
      obtain rfl := eq_of_beq point
      obtain ⟨filled, each⟩ := mem_several.mp several
      have fraction : CodePoint.point :: ds ∈ fraction :=
        mem_optional.mpr (.inr (mem_one_mul.mpr ⟨_, _, rfl, rfl, each⟩))
      obtain ⟨d, rest, rfl⟩ := List.exists_cons_of_ne_nil filled
      refine ⟨[], _, ⟨by simp, fraction, exponent, .inr ⟨d, rest, rfl⟩⟩, ?_⟩
      exact filter_eq_self (p := isNumeral) rfl (fraction_numeral fraction)
  obtain ⟨whole, behind, parts, same⟩ := found
  refine ⟨whole, behind, power, parts, significant_eq ?_ last ?_⟩
  · rw [List.filter_append, List.filter_append, same, suffix_clean last,
      filter_eq_self (p := isNumeral) rfl (exponent_numeral exponent)]
    simp only [List.append_assoc]
  · intro listed
    cases parts.numeral 110 listed

/-- A text starts with no sign if it does not start with one of the two. -/
theorem takeSign_eq (unsigned : ∀ c ∈ t.head?, c ∉ [45, 43]) : takeSign t = (false, t) := by
  unfold takeSign
  split
  · exact absurd (by simp) (unsigned 45 rfl)
  · exact absurd (by simp) (unsigned 43 rfl)
  · rfl

theorem takeSign_decimal (each : ∀ c ∈ t, c.isDecimal = true) : takeSign t = (false, t) := by
  refine takeSign_eq fun c front sign => ?_
  have digit := each c (List.mem_of_head? front)
  fin_cases sign <;> cases digit

/-- Digits alone are counted, and read if the limit allows it. -/
theorem readInteger_eq (filled : t ≠ []) (each : ∀ c ∈ t, c.isDecimal = true) :
    ∃ n, Denotes 10 CodePoint.decimalValue? t n ∧ readInteger t =
      if Number.digitLimit < t.length then .error (.oversized ⟨some t.length⟩)
      else .ok (n : Int) := by
  obtain ⟨n, denotes, read⟩ := readDigits?_decimal filled each
  have all : t.takeWhile CodePoint.isDecimal = t := List.takeWhile_eq_self_iff.mpr each
  refine ⟨n, denotes, ?_⟩
  rw [readInteger, trim_eq fun c member => CodePoint.isBlank_of_isDecimal (each c member),
    takeSign_decimal each]
  simp only [all, read, Bool.false_eq_true, if_false]

theorem exponent_head (member : power ∈ exponent) : ∀ c ∈ power.head?, c ∈ [101, 69] := by
  rcases mem_optional.mp member with rfl | member
  · simp
  · obtain ⟨c, _, rfl, letter, -⟩ := mem_one_mul.mp member
    simpa using letter

theorem readExponent?_some (member : power ∈ exponent) : ∃ n, readExponent? power = some n := by
  rcases mem_optional.mp member with rfl | member
  · exact ⟨0, rfl⟩
  · obtain ⟨c, _, rfl, letter, member⟩ := mem_one_mul.mp member
    obtain ⟨sign, signs, digits, several, rfl⟩ := Language.mem_mul.mp member
    obtain ⟨filled, each⟩ := mem_several.mp several
    obtain ⟨n, -, read⟩ := readDigits?_decimal filled each
    have signed : ∃ negative, takeSign (sign ++ digits) = (negative, digits) := by
      rcases mem_optional.mp signs with rfl | ⟨d, known, rfl⟩
      · exact ⟨false, takeSign_decimal each⟩
      · have known : d ∈ [43, 45] := List.contains_iff_mem.mp known
        fin_cases known
        · exact ⟨false, rfl⟩
        · exact ⟨true, rfl⟩
    obtain ⟨negative, signed⟩ := signed
    rw [readExponent?, if_pos letter, signed]
    simp [read]

/-- The digits of a fraction, if a text starts with one, and the text behind it. -/
def splitFraction (t : Text) : Text × Text :=
  match t with
  | 46 :: rest => (rest.takeWhile CodePoint.isDecimal, rest.dropWhile CodePoint.isDecimal)
  | _ => ([], t)

/-- Without blanks and a sign a decimal is its digits, a fraction and an exponent. -/
theorem readDecimal?_unsigned (solid : ∀ c ∈ t, c.isBlank = false)
    (unsigned : takeSign t = (false, t)) : readDecimal? t = (do
      let parts := splitFraction (t.dropWhile CodePoint.isDecimal)
      let digits ← readDigits? 10 (t.takeWhile CodePoint.isDecimal ++ parts.1)
      let scale ← readExponent? parts.2
      return nearest digits (scale - parts.1.length)) := by
  unfold readDecimal?
  simp only [trim_eq solid, unsigned]
  rfl

/-- What stands behind the point of a decimal, if it has one, and its exponent. -/
theorem Parts.splitFraction (parts : Parts whole behind power) :
    ∃ digits, splitFraction (behind ++ power) = (digits, power) ∧
      (∀ c ∈ whole ++ digits, c.isDecimal = true) ∧ whole ++ digits ≠ [] := by
  have letters := exponent_head parts.exponent
  rcases mem_optional.mp parts.fraction with rfl | fraction
  · refine ⟨[], ?_, by simpa using parts.digits, ?_⟩
    · rw [List.nil_append]
      unfold Literal.splitFraction
      split
      · have letter := letters 46 rfl
        contradiction
      · rfl
    · obtain filled | ⟨_, _, same⟩ := parts.filled
      · simpa using filled
      · cases same
  · obtain ⟨c, digits, rfl, point, each⟩ := mem_one_mul.mp fraction
    obtain rfl := eq_of_beq point
    have stop : ∀ c ∈ power.head?, c.isDecimal = false := by
      intro c front
      have letter := letters c front
      fin_cases letter <;> rfl
    obtain ⟨none, all⟩ := Token.takeWhile_none stop
    refine ⟨digits, ?_, ?_, ?_⟩
    · simp only [Literal.splitFraction, List.cons_append, CodePoint.point,
        List.takeWhile_append_of_pos each, List.dropWhile_append_of_pos each, none, all,
        List.append_nil]
    · intro c member
      exact (List.mem_append.mp member).elim (parts.digits c) (each c)
    · obtain filled | ⟨d, rest, same⟩ := parts.filled
      · simp [filled]
      · cases same
        simp

/-- A decimal does not start with a sign, nor does its fraction or exponent with a digit. -/
theorem Parts.fronts (parts : Parts whole behind power) :
    takeSign (whole ++ (behind ++ power)) = (false, whole ++ (behind ++ power)) ∧
      ∀ c ∈ (behind ++ power).head?, c.isDecimal = false := by
  have stops : ∀ c ∈ (behind ++ power).head?, c ∈ [46, 101, 69] := by
    intro c front
    rcases mem_optional.mp parts.fraction with rfl | fraction
    · exact List.mem_cons_of_mem _ (exponent_head parts.exponent c front)
    · obtain ⟨_, _, rfl, point, -⟩ := mem_one_mul.mp fraction
      obtain rfl := eq_of_beq point
      obtain rfl := Option.some.inj front
      exact List.mem_cons_self
  constructor
  · refine takeSign_eq fun c front sign => ?_
    cases whole with
    | cons d rest =>
      obtain rfl : d = c := Option.some.inj front
      have digit := parts.digits d List.mem_cons_self
      fin_cases sign <;> cases digit
    | nil =>
      have stop := stops c front
      fin_cases sign <;> contradiction
  · intro c front
    have stop := stops c front
    fin_cases stop <;> rfl

/-- A decimal number is read whole, whatever stands in front of its point or behind it. -/
theorem readDecimal?_some (parts : Parts whole behind power) :
    ∃ x, readDecimal? (whole ++ (behind ++ power)) = some x := by
  obtain ⟨unsigned, stops⟩ := parts.fronts
  obtain ⟨taken, left⟩ := Token.takeWhile_none stops
  obtain ⟨digits, cut, each, filled⟩ := parts.splitFraction
  obtain ⟨n, -, read⟩ := readDigits?_decimal filled each
  obtain ⟨scale, exponent⟩ := readExponent?_some parts.exponent
  rw [readDecimal?_unsigned (fun c member => isNumeral_solid (parts.numeral c member)) unsigned]
  simp [List.takeWhile_append_of_pos parts.digits, List.dropWhile_append_of_pos parts.digits,
    taken, left, cut, read, exponent]

/-- A mark behind a zero, with its base. -/
theorem markedBase?_eq_some : markedBase? t = some base ↔
    ∃ mark digits, t = 48 :: mark :: digits ∧ (mark, base) ∈ radixMarks := by
  constructor
  · intro marked
    unfold markedBase? at marked
    split at marked
    · rename_i mark digits
      refine ⟨mark, digits, rfl, ?_⟩
      split at marked <;> cases marked <;> decide
    · cases marked
  · rintro ⟨mark, digits, rfl, known⟩
    fin_cases known <;> rfl

/-- A text has a mark behind its leading zero. -/
def Marked (t : Text) : Prop :=
  ∃ mark digits base, t = 48 :: mark :: digits ∧ (mark, base) ∈ radixMarks

/-- A text has neither a point nor the letter of an exponent. -/
def Whole (t : Text) : Prop := ∀ c ∈ t, c ∉ [CodePoint.point, 101, 69]

theorem markedBase?_numeral (each : ∀ c ∈ t, isNumeral c = true) : markedBase? t = none := by
  cases marked : markedBase? t with
  | none => rfl
  | some base =>
    obtain ⟨mark, digits, rfl, known⟩ := markedBase?_eq_some.mp marked
    have numeral := each mark (by simp)
    fin_cases known <;> cases numeral

theorem whole_iff : Whole t ↔
    t.any (fun c => c == CodePoint.point || c == 101 || c == 69) = false := by
  simp [Whole, List.any_eq_false, or_assoc]

/-- A decimal number is an integer unless it has a fraction or an exponent, and an integer is
refused if it has more digits than the limit. -/
theorem decodeNumber_decimal {raw : Text} (member : raw ∈ decimal) :
    ¬ Marked (significant raw) ∧
    (Whole (significant raw) → ∃ n, Denotes 10 CodePoint.decimalValue? (significant raw) n ∧
      decodeNumber raw =
        if Number.digitLimit < (significant raw).length then
          .error (.oversized ⟨some (significant raw).length⟩)
        else .ok (.int n)) ∧
    (¬ Whole (significant raw) → ∃ x, readDecimal? (significant raw) = some x ∧
      decodeNumber raw = .ok (.float x)) := by
  obtain ⟨whole, behind, power, parts, same⟩ := decimal_shape member
  have unmarked := markedBase?_numeral parts.numeral
  rw [decodeNumber, same, unmarked]
  refine ⟨?_, fun plain => ?_, fun pointed => ?_⟩
  · rintro ⟨mark, digits, base, text, known⟩
    rw [markedBase?_eq_some.mpr ⟨mark, digits, text, known⟩] at unmarked
    cases unmarked
  · have absent : ∀ c ∈ behind ++ power, c ∉ [CodePoint.point, 101, 69] :=
      fun c listed => plain c (List.mem_append_right _ listed)
    obtain rfl : behind = [] := by
      rcases mem_optional.mp parts.fraction with rfl | fraction
      · rfl
      · obtain ⟨c, rest, rfl, point, -⟩ := mem_one_mul.mp fraction
        obtain rfl := eq_of_beq point
        exact absurd (by simp) (absent CodePoint.point (by simp))
    obtain rfl : power = [] := by
      cases shape : power with
      | nil => rfl
      | cons c rest =>
        have letter := exponent_head parts.exponent c (by simp [shape])
        exact absurd (List.mem_cons_of_mem _ letter) (absent c (by simp [shape]))
    have filled : whole ≠ [] := by
      obtain filled | ⟨_, _, same⟩ := parts.filled
      · exact filled
      · cases same
    rw [List.nil_append, List.append_nil] at plain ⊢
    obtain ⟨n, denotes, read⟩ := readInteger_eq filled parts.digits
    refine ⟨n, denotes, ?_⟩
    simp only [whole_iff.mp plain, Bool.false_eq_true, if_false, read]
    split <;> rfl
  · obtain ⟨x, read⟩ := readDecimal?_some parts
    rw [whole_iff, Bool.not_eq_false] at pointed
    exact ⟨x, read, by simp only [pointed, if_true, read]⟩

theorem decimal_of_digits (filled : t ≠ []) (each : ∀ c ∈ t, c.isDecimal = true) :
    t ∈ decimal := by
  obtain ⟨c, rest, rfl⟩ := List.exists_cons_of_ne_nil filled
  have nothing {l : Language CodePoint} : [] ∈ optional l := mem_optional.mpr (.inl rfl)
  have within : rest ∈ many (fun c => c.isDecimal || c == CodePoint.underscore) := by
    intro d member
    simp [each d (List.mem_cons_of_mem _ member)]
  refine Language.mem_mul.mpr ⟨c :: rest, .inl (mem_one_mul.mpr ⟨c, rest, rfl, ?_, ?_⟩), [], ?_, ?_⟩
  · exact each c List.mem_cons_self
  · exact Language.mem_mul.mpr ⟨rest, within, [], nothing, List.append_nil rest⟩
  · exact Language.mem_mul.mpr ⟨[], nothing, [], nothing, rfl⟩
  · exact List.append_nil _

/-- Digits alone are an integer, if the limit allows it. -/
theorem decodeNumber_digits (filled : t ≠ []) (each : ∀ c ∈ t, c.isDecimal = true) :
    ∃ n, Denotes 10 CodePoint.decimalValue? t n ∧ decodeNumber t =
      if Number.digitLimit < t.length then .error (.oversized ⟨some t.length⟩)
      else .ok (.int n) := by
  have same : significant t = t := by
    refine significant_eq ?_ (mem_optional.mpr (.inl rfl)) fun listed => ?_
    · rw [List.append_nil, filter_eq_self (p := CodePoint.isDecimal) rfl each]
    · cases each 110 listed
  have plain : Whole t := by
    intro c listed mark
    have digit := each c listed
    fin_cases mark <;> cases digit
  obtain ⟨-, whole, -⟩ := decodeNumber_decimal (decimal_of_digits filled each)
  rw [same] at whole
  exact whole plain

/-- A number behind a mark of a base is an integer, if it has digits. -/
def ReadsRadix (raw : Text) : Prop :=
  ∃ mark base digits, (mark, base) ∈ radixMarks ∧ significant raw = 48 :: mark :: digits ∧
    (digits = [] → ∃ e, decodeNumber raw = .error e) ∧
    (digits ≠ [] → ∃ n, Denotes base CodePoint.hexValue? digits n ∧
      decodeNumber raw = .ok (.int n))

theorem decodeNumber_radix (base : Nat) {marks : List CodePoint} {isDigit : CodePoint → Bool}
    {raw : Text} (member : raw ∈ radix marks isDigit) (plain : isDigit 110 = false)
    (known : ∀ mark ∈ marks, (mark, base) ∈ radixMarks)
    (valued : ∀ c, isDigit c = true → ∃ v, c.hexValue? = some v ∧ v < base) :
    ReadsRadix raw := by
  have check : CodePoint.underscore ∉ marks ∧ 110 ∉ marks := by
    constructor <;> intro listed <;> simpa [radixMarks, CodePoint.underscore] using known _ listed
  obtain ⟨mark, listed, digits, same, each⟩ := radix_shape member plain check
  have hex : ∀ c ∈ digits, c.isBlank = false ∧ digitValue? c = c.hexValue? := by
    intro c listed
    obtain ⟨v, value, -⟩ := valued c (each c listed)
    have digit : c.isHexDigit = true := Option.isSome_iff_exists.mpr ⟨v, value⟩
    exact CodePoint.hexDigits_read c (CodePoint.hexDigit_lt digit) digit
  have marked := markedBase?_eq_some.mpr ⟨mark, digits, rfl, known mark listed⟩
  have trimmed : trimEnd ((48 :: mark :: digits).drop 2) = digits :=
    trimEnd_eq fun c listed => (hex c listed).1
  refine ⟨mark, base, digits, known mark listed, same, ?_, fun filled => ?_⟩
  · rintro rfl
    refine ⟨.notInteger 0 [48, mark], ?_⟩
    simp only [decodeNumber, same, marked, trimmed]
    rfl
  · obtain ⟨n, denotes⟩ := exists_denotes filled fun c listed => valued c (each c listed)
    have read := readDigits?_eq (denotes.congr fun c listed => (hex c listed).2)
    exact ⟨n, denotes, by simp only [decodeNumber, same, marked, trimmed, read]⟩

/-- The values of the digits of each base are below it. -/
theorem digit_values : ∀ c < 128,
    (CodePoint.isHexDigit c = true → ∃ v < 16, CodePoint.hexValue? c = some v) ∧
    ((c == 48 || c == 49) = true → ∃ v < 2, CodePoint.hexValue? c = some v) ∧
    ((Nat.ble 48 c && Nat.ble c 55) = true → ∃ v < 8, CodePoint.hexValue? c = some v) := by
  decide +kernel

/-- A number has a mark of a base or is a decimal number. -/
theorem number_cases {raw : Text} (member : raw ∈ number) : ReadsRadix raw ∨ raw ∈ decimal := by
  rcases member with hexadecimal | binary | octal | decimal
  · refine .inl (decodeNumber_radix 16 hexadecimal rfl (by decide) fun c digit => ?_)
    obtain ⟨v, small, value⟩ := (digit_values c (CodePoint.hexDigit_lt digit)).1 digit
    exact ⟨v, value, small⟩
  · refine .inl (decodeNumber_radix 2 binary rfl (by decide) fun c digit => ?_)
    have bound : c < 128 := by
      rw [Bool.or_eq_true, beq_iff_eq, beq_iff_eq] at digit
      rcases digit with rfl | rfl <;> decide
    obtain ⟨v, small, value⟩ := (digit_values c bound).2.1 digit
    exact ⟨v, value, small⟩
  · refine .inl (decodeNumber_radix 8 octal rfl (by decide) fun c digit => ?_)
    have bound : c < 128 := by
      rw [Bool.and_eq_true, Nat.ble_eq, Nat.ble_eq] at digit
      exact Nat.lt_of_le_of_lt digit.2 (by decide)
    obtain ⟨v, small, value⟩ := (digit_values c bound).2.2 digit
    exact ⟨v, value, small⟩
  · exact .inr decimal

/-- One text is another one without its underscores and without a final `n`. -/
def Strips (raw t : Text) : Prop :=
  raw.filter (· != CodePoint.underscore) = t ++ [110] ∨
    raw.filter (· != CodePoint.underscore) = t ∧ t.getLast? ≠ some 110

theorem strips_significant (raw : Text) : Strips raw (significant raw) := by
  rw [significant]
  split
  · rename_i ends
    rw [beq_iff_eq] at ends
    obtain ⟨front, shape⟩ := List.getLast?_eq_some_iff.mp ends
    rw [Strips, shape, List.dropLast_concat]
    exact .inl rfl
  · rename_i other
    exact .inr ⟨rfl, fun ends => other (beq_iff_eq.mpr ends)⟩

theorem radixMarks_functional : ∀ a ∈ radixMarks, ∀ b ∈ radixMarks, a.1 = b.1 → a.2 = b.2 := by
  decide

/-- What a text of the terminal for numbers stands for. Without its underscores and its suffix it
may be nothing but a zero and a mark, or more decimal digits than the limit; only then it stands
for nothing. With digits behind the mark, however many, it is the integer that they stand for in
the base of the mark. Without a mark it is the integer that its decimal digits stand for, unless
it has a point or an exponent; then it is the floating-point number that the text is read as. -/
theorem decodeNumber_denotes {raw : Text} (member : raw ∈ lexemes .number) :
    ∃ t, Strips raw t ∧
      ((∃ e, decodeNumber raw = .error e) ↔
        (∃ mark base, (mark, base) ∈ radixMarks ∧ t = [48, mark]) ∨
          ¬ Marked t ∧ Whole t ∧ Number.digitLimit < t.length) ∧
      (∀ mark base digits, (mark, base) ∈ radixMarks → t = 48 :: mark :: digits → digits ≠ [] →
        ∃ n, Denotes base CodePoint.hexValue? digits n ∧ decodeNumber raw = .ok (.int n)) ∧
      (¬ Marked t → Whole t → t.length ≤ Number.digitLimit →
        ∃ n, Denotes 10 CodePoint.decimalValue? t n ∧ decodeNumber raw = .ok (.int n)) ∧
      (¬ Marked t → ¬ Whole t →
        ∃ x, readDecimal? t = some x ∧ decodeNumber raw = .ok (.float x)) := by
  refine ⟨significant raw, strips_significant raw, ?_⟩
  rcases number_cases member with ⟨mark, base, digits, known, same, bare, filled⟩ | decimal
  · have marked : Marked (significant raw) := ⟨mark, digits, base, same, known⟩
    refine ⟨⟨?_, ?_⟩, ?_, fun unmarked => absurd marked unmarked,
      fun unmarked => absurd marked unmarked⟩
    · rintro ⟨e, failed⟩
      cases digits with
      | nil => exact .inl ⟨mark, base, known, same⟩
      | cons c rest =>
        obtain ⟨n, -, decoded⟩ := filled (by simp)
        cases failed.symm.trans decoded
    · rintro (⟨other, _, -, short⟩ | ⟨unmarked, -⟩)
      · rw [same] at short
        cases short
        exact bare rfl
      · exact absurd marked unmarked
    · intro mark' base' digits' known' same' filled'
      rw [same] at same'
      cases same'
      obtain rfl : base = base' := radixMarks_functional _ known _ known' rfl
      exact filled filled'
  · obtain ⟨unmarked, whole, pointed⟩ := decodeNumber_decimal decimal
    refine ⟨⟨?_, ?_⟩, ?_, fun _ plain few => ?_, fun _ => pointed⟩
    · rintro ⟨e, failed⟩
      by_cases plain : Whole (significant raw)
      · obtain ⟨n, -, decoded⟩ := whole plain
        refine .inr ⟨unmarked, plain, Nat.lt_of_not_le fun few => ?_⟩
        rw [if_neg (Nat.not_lt.mpr few)] at decoded
        cases failed.symm.trans decoded
      · obtain ⟨x, -, decoded⟩ := pointed plain
        cases failed.symm.trans decoded
    · rintro (⟨mark, base, known, short⟩ | ⟨-, plain, many⟩)
      · exact absurd ⟨mark, [], base, short, known⟩ unmarked
      · obtain ⟨n, -, decoded⟩ := whole plain
        exact ⟨_, decoded.trans (if_pos many)⟩
    · intro mark base digits known same _
      exact absurd ⟨mark, digits, base, same, known⟩ unmarked
    · obtain ⟨n, denotes, decoded⟩ := whole plain
      exact ⟨n, denotes, decoded.trans (if_neg (Nat.not_lt.mpr few))⟩

/-- In `0x_e1n` the letter `e` is a digit, behind an underscore and in front of the suffix. -/
theorem decodeNumber_denotes_hexadecimal : text "0x_e1n" ∈ lexemes .number ∧
    decodeNumber (text "0x_e1n") = .ok (.int 225) := by
  have read : Token.readNumber (text "0x_e1n") = some (text "0x_e1n", []) := by decide
  have member : text "0x_e1n" ∈ lexemes .number := Token.readNumber_munches.member read
  obtain ⟨t, strips, -, radix, -⟩ := decodeNumber_denotes member
  have stripped : t = text "0xe1" := by
    rcases strips with strips | ⟨strips, ends⟩
    · have strips : text "0xe1" ++ [110] = t ++ [110] := strips
      exact (List.append_cancel_right strips).symm
    · subst strips
      exact absurd (by decide) ends
  obtain ⟨n, ⟨-, values, read, -, rfl⟩, decoded⟩ :=
    radix 120 16 (text "e1") (by decide) stripped (by decide)
  have read : values.map some = [14, 1].map some := read.symm
  obtain rfl : values = [14, 1] := List.map_injective_iff.mpr (Option.some_injective Nat) read
  exact ⟨member, decoded⟩

/-- Without its underscores and its suffix a text of digits is as it was. -/
theorem Strips.eq_of_digits (each : ∀ c ∈ digits, c.isDecimal = true) (strips : Strips digits t) :
    t = digits := by
  rw [Strips, filter_eq_self (p := CodePoint.isDecimal) rfl each] at strips
  rcases strips with rfl | ⟨rfl, -⟩
  · cases each 110 (by simp)
  · rfl

/-- One digit more than the limit is too many: there is no mark, and yet nothing is read. -/
theorem decodeNumber_ones : List.replicate 4301 49 ∈ lexemes .number ∧
    decodeNumber (List.replicate 4301 49) = .error (.oversized ⟨some 4301⟩) ∧
    ∀ t, Strips (List.replicate 4301 49) t →
      ¬∃ mark base, (mark, base) ∈ radixMarks ∧ t = [48, mark] := by
  have each : ∀ c ∈ List.replicate 4301 49, CodePoint.isDecimal c = true := fun c member =>
    List.eq_of_mem_replicate member ▸ rfl
  have length : (List.replicate 4301 49).length = 4301 := List.length_replicate
  have filled : List.replicate 4301 49 ≠ [] := List.length_pos_iff.mp (by rw [length]; decide)
  obtain ⟨n, -, decoded⟩ := decodeNumber_digits filled each
  have many : Number.digitLimit < 4301 := by decide
  rw [length, if_pos many] at decoded
  refine ⟨.inr (.inr (.inr (decimal_of_digits filled each))), decoded, fun t strips => ?_⟩
  rintro ⟨mark, base, -, short⟩
  have two := congrArg List.length ((strips.eq_of_digits each).symm.trans short)
  rw [length] at two
  cases two

end Script.Literal

end StyleSplit
