import StyleSplit.Text.Basic

/-! The shortest decimal that reads back as a given binary floating-point number. A
finite number is `mantissa * 2 ^ exponent`; the reals that round to it form an
interval, and the decimal is taken from the coarsest decimal grid that meets the
interval. Of two points on that grid the nearer is taken, and of two equally near the
even one. -/
namespace StyleSplit.Decimal

def twoTo (n : Nat) : Nat := Nat.pow 2 n

def tenTo (n : Nat) : Nat := Nat.pow 10 n

inductive Parts where
  | notANumber
  | infinite (negative : Bool)
  | finite (negative : Bool) (mantissa : Nat) (exponent : Int)
deriving DecidableEq, Repr

/-- Sign, exponent and fraction of the binary form. -/
def parts (x : Float) : Parts :=
  let bits := x.toBits.toNat
  let negative := bits / twoTo 63 == 1
  let biased : Nat := bits / twoTo 52 % 2048
  let fraction := bits % twoTo 52
  if biased == 2047 then
    if fraction == 0 then .infinite negative else .notANumber
  else if biased == 0 then .finite negative fraction (-1074)
  else .finite negative (fraction + twoTo 52) ((biased : Int) - 1075)

/-- The reals that round to a number, as fractions with one denominator. -/
structure Interval where
  low : Nat
  value : Nat
  high : Nat
  denominator : Nat
  closed : Bool

/-- The neighbours of a number are one unit of its last place away, the lower one of a
power of two half a unit. The borders belong to the interval when the mantissa is
even. -/
def interval (mantissa : Nat) (exponent : Int) : Interval :=
  let low := if mantissa == twoTo 52 && exponent != -1074 then 4 * mantissa - 1
    else 4 * mantissa - 2
  let scale := twoTo (exponent - 2).toNat
  { low := low * scale, value := 4 * mantissa * scale, high := (4 * mantissa + 2) * scale,
    denominator := twoTo (2 - exponent).toNat, closed := mantissa % 2 == 0 }

/-- Whether `digits * 10 ^ scale` lies in the interval. -/
def Interval.contains (i : Interval) (digits : Nat) (scale : Int) : Bool :=
  let point := digits * tenTo scale.toNat * i.denominator
  let low := i.low * tenTo (-scale).toNat
  let high := i.high * tenTo (-scale).toNat
  if i.closed then Nat.ble low point && Nat.ble point high
  else Nat.blt low point && Nat.blt point high

/-- The last grid point at or below the value. -/
def Interval.floor (i : Interval) (scale : Int) : Nat :=
  i.value * tenTo (-scale).toNat / (tenTo scale.toNat * i.denominator)

/-- Twice the rest above the grid point `floor`, against one step of the grid. -/
def Interval.roundsUp (i : Interval) (scale : Int) : Bool :=
  let step := tenTo scale.toNat * i.denominator
  let value := i.value * tenTo (-scale).toNat
  let rest := 2 * (value % step)
  Nat.blt step rest || (rest == step && value / step % 2 == 1)

/-- How many tenfold steps lift a fraction below one to one or more. -/
def tenfoldSteps : Nat → Nat → Nat → Nat
  | 0, _, _ => 0
  | fuel + 1, numerator, denominator =>
    if denominator ≤ numerator then 0
    else tenfoldSteps fuel (10 * numerator) denominator + 1

/-- The number of digits before the decimal point; not positive for a value below one
tenth, where it counts the zeros behind the point. -/
def magnitude (numerator denominator : Nat) : Int :=
  if denominator ≤ numerator then (Nat.toDigits 10 (numerator / denominator)).length
  else 1 - (tenfoldSteps 400 numerator denominator : Int)

/-- The point of a grid that stands for the value, if the grid has one. -/
def Interval.pick? (i : Interval) (scale : Int) : Option Nat :=
  let below := i.floor scale
  let lowFits := i.contains below scale
  let highFits := i.contains (below + 1) scale
  if lowFits && highFits then some (if i.roundsUp scale then below + 1 else below)
  else if lowFits then some below
  else if highFits then some (below + 1)
  else none

/-- The first hit on grids of ever smaller steps, from `scale` on. -/
def Interval.search (i : Interval) : Nat → Int → Nat × Int
  | 0, scale => (i.floor scale, scale)
  | fuel + 1, scale =>
    match i.pick? scale with
    | some digits => (digits, scale)
    | none => i.search fuel (scale - 1)

/-- Digits without zeros at the end, and the power of ten they are multiplied by. -/
def dropZeros : Nat → Nat → Int → Nat × Int
  | 0, digits, scale => (digits, scale)
  | fuel + 1, digits, scale =>
    if digits % 10 == 0 && digits != 0 then dropZeros fuel (digits / 10) (scale + 1)
    else (digits, scale)

/-- The shortest decimal `digits * 10 ^ scale` of a positive number. Seventeen digits
always suffice. -/
def shortest (mantissa : Nat) (exponent : Int) : Nat × Int :=
  let i := interval mantissa exponent
  let (digits, scale) := i.search 17 (magnitude i.value i.denominator - 1)
  dropZeros 18 digits scale

end StyleSplit.Decimal
