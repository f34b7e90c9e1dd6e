import StyleSplit.Text.Basic

/-! Decimal digits and blanks in the sense of the Unicode character database,
version 14. Every script's digits stand in a run of ten, from zero to nine. -/
namespace StyleSplit.CodePoint

/-- The digits zero of the scripts that have decimal digits. -/
def digitZeros : List CodePoint :=
  [48, 1632, 1776, 1984, 2406, 2534, 2662, 2790, 2918, 3046, 3174, 3302, 3430, 3558, 3664,
   3792, 3872, 4160, 4240, 6112, 6160, 6470, 6608, 6784, 6800, 6992, 7088, 7232, 7248, 42528,
   43216, 43264, 43472, 43504, 43600, 44016, 65296, 66720, 68912, 69734, 69872, 69942, 70096,
   70384, 70736, 70864, 71248, 71360, 71472, 71904, 72016, 72784, 73040, 73120, 92768, 92864,
   93008, 120782, 120792, 120802, 120812, 120822, 123200, 123632, 125264, 130032]

/-- The value of a decimal digit of any script. -/
def decimalValue? (c : CodePoint) : Option Nat :=
  (digitZeros.find? fun first => Nat.ble first c && Nat.blt c (first + 10)).map (c - ·)

def isDecimal (c : CodePoint) : Bool := (decimalValue? c).isSome

/-- A blank that may surround a number: the six blanks of the basic Latin block and
the blanks of all other blocks. -/
def isBlank (c : CodePoint) : Bool :=
  (Nat.ble 9 c && Nat.ble c 13) || (Nat.ble 8192 c && Nat.ble c 8202) ||
    [32, 133, 160, 5760, 8232, 8233, 8239, 8287, 12288].contains c

end StyleSplit.CodePoint
