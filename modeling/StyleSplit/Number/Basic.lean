import StyleSplit.Number.Shortest

/-! Numbers: unbounded integers and binary floating-point numbers, the two forms in
which they are written, and the limit up to which an integer is read and written in
decimal digits. -/
namespace StyleSplit

inductive Number where
  | int (value : Int)
  | float (value : Float)
deriving DecidableEq, Inhabited

namespace Decimal

/-- The exponents of ten that are written without an exponent part. -/
def positional (exponent : Int) : Bool := -4 ≤ exponent && exponent < 16

/-- An exponent part has a sign and at least two digits. -/
def exponentPart (exponent : Int) : Text :=
  let digits := Text.ofNat exponent.natAbs
  text (if exponent < 0 then "e-" else "e+") ++ (if digits.length < 2 then text "0" else [])
    ++ digits

/-- Digits that stand for `digits * 10 ^ scale`: with a point and a digit behind it, or
with an exponent part behind at least one digit. -/
def layout (digits : Nat) (scale : Int) : Text :=
  let ds := Text.ofNat digits
  let point := ds.length + scale
  if positional (point - 1) then
    if point ≤ 0 then text "0." ++ List.replicate (-point).toNat 48 ++ ds
    else if point < ds.length then ds.take point.toNat ++ text "." ++ ds.drop point.toNat
    else ds ++ List.replicate scale.toNat 48 ++ text ".0"
  else
    match ds with
    | d :: e :: rest => d :: CodePoint.point :: e :: rest ++ exponentPart (point - 1)
    | _ => ds ++ exponentPart (point - 1)

/-- The shortest form that reads back, always with a point or an exponent. -/
def ofFloat (x : Float) : Text :=
  match parts x with
  | .notANumber => text "nan"
  | .infinite negative => text (if negative then "-inf" else "inf")
  | .finite negative mantissa exponent =>
    let magnitude :=
      if mantissa == 0 then text "0.0"
      else let (digits, scale) := shortest mantissa exponent; layout digits scale
    if negative then CodePoint.hyphen :: magnitude else magnitude

/-- The integer that a floating-point number is, if it is one. -/
def integer? (x : Float) : Option Int :=
  match parts x with
  | .finite negative mantissa exponent =>
    let unit := twoTo (-exponent).toNat
    if mantissa % unit == 0 then
      let magnitude : Int := (mantissa / unit * twoTo exponent.toNat : Nat)
      some (if negative then -magnitude else magnitude)
    else none
  | _ => none

end Decimal

namespace Number

/-- An integer with more decimal digits than this is refused, by its reader and by its
writer. Digits of another base than ten are read without a limit. -/
def digitLimit : Nat := 4300

/-- An integer beyond the limit. A reader has counted its digits, a writer has not. -/
structure Oversized where
  counted : Option Nat
deriving DecidableEq, Inhabited

def Oversized.message (o : Oversized) : Text :=
  let found := match o.counted with
    | some count => text ": value has " ++ Text.ofNat count ++ text " digits"
    | none => []
  text "Exceeds the limit (" ++ Text.ofNat digitLimit ++
    text " digits) for integer string conversion" ++ found ++
    text "; use sys.set_int_max_str_digits() to increase the limit"

/-- The form in messages, which tells a floating-point number from an integer. -/
def shown : Number → Text
  | int value => Text.ofInt value
  | float value => Decimal.ofFloat value

/-- The form in style sheets and in keys: a floating-point number that is an integer
below `10 ^ 21` is written as one. The digits are those of any integer; that there are
not too many of them is for `write` to say. -/
def written : Number → Text
  | int value => Text.ofInt value
  | float value =>
    match Decimal.integer? value with
    | some whole =>
      if whole.natAbs < Decimal.tenTo 21 then Text.ofInt whole else Decimal.ofFloat value
    | none => Decimal.ofFloat value

/-- Whether a number is within the limit. The digits of a floating-point number always
are. -/
def writable : Number → Bool
  | int value => (Text.ofNat value.natAbs).length ≤ digitLimit
  | float _ => true

/-- The written form of a number within the limit. -/
def write (n : Number) : Except Oversized Text :=
  if n.writable then .ok n.written else .error ⟨none⟩

/-- The negative. A floating-point zero changes its sign, an integer zero has none. -/
def neg : Number → Number
  | int value => int (-value)
  | float value => float (-value)

def isZero : Number → Bool
  | int value => value == 0
  | float value => value == 0.0

end Number

end StyleSplit
