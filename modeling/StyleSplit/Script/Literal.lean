import StyleSplit.Value
import StyleSplit.Text.Digit

/-! What the text of a literal stands for: the decoding of quoted texts and of
numbers, and the ways in which a literal can have no value. -/
namespace StyleSplit.Script

inductive LiteralError where
  | codePointRange
  | codePointOverflow
  | notInteger (base : Nat) (digits : Text)
  | notDecimal (digits : Text)
  | oversized (excess : Number.Oversized)
deriving DecidableEq, Inhabited

/-- An integer is quoted in a message up to this many code points. -/
def LiteralError.quotedLimit : Nat := 200

def LiteralError.message : LiteralError → Text
  | codePointRange => text "chr() arg not in range(0x110000)"
  | codePointOverflow => text "Python int too large to convert to C int"
  | notInteger base digits =>
    text "invalid literal for int() with base " ++ Text.ofNat base ++ text ": " ++
      digits.quoted.take quotedLimit
  | notDecimal digits => text "could not convert string to float: " ++ digits.quoted
  | oversized excess => excess.message

namespace Literal

def hexNumber (digits : Text) : Nat :=
  digits.foldl (fun value c => 16 * value + c.hexValue?.getD 0) 0

def codePoint (n : Nat) : Except LiteralError CodePoint :=
  if n < 0x110000 then .ok n
  else if n < 0x80000000 then .error .codePointRange
  else .error .codePointOverflow

/-- Escapes of one letter that do not stand for that letter. -/
def namedEscape? (c : CodePoint) : Option Text :=
  match c with
  | 110 => some [10]
  | 116 => some [9]
  | 114 => some [13]
  | 98 => some [8]
  | 102 => some [12]
  | 118 => some [11]
  | 48 => some [0]
  | 10 => some []
  | _ => none

/-- `width` hexadecimal digits at the front, and the rest. -/
def takeHex? (width : Nat) (t : Text) : Option (Text × Text) :=
  let digits := t.take width
  if digits.length == width && digits.all CodePoint.isHexDigit then
    some (digits, t.drop width)
  else none

/-- Hexadecimal digits, at least one, up to a closing brace, and the rest behind it. -/
def takeBraced? (t : Text) : Option (Text × Text) :=
  let digits := t.takeWhile CodePoint.isHexDigit
  match t.dropWhile CodePoint.isHexDigit with
  | c :: rest =>
    if c == CodePoint.closeBrace && !digits.isEmpty then some (digits, rest) else none
  | [] => none

/-- The number of a code point behind `\u` or `\x`, and the rest behind it. -/
def numericEscape? (c : CodePoint) (rest : Text) : Option (Text × Text) :=
  if c == 117 then
    match rest with
    | [] => none
    | d :: rest' => if d == CodePoint.openBrace then takeBraced? rest' else takeHex? 4 rest
  else if c == 120 then takeHex? 2 rest
  else none

/-- What an escape stands for when the code point behind its backslash is `c`, and the
text behind the escape. A line end behind a backslash stands for nothing, and a code
point without a meaning of its own for itself. -/
def escape (c : CodePoint) (rest : Text) : Except LiteralError (Text × Text) :=
  match numericEscape? c rest with
  | some (digits, behind) => do return ([← codePoint (hexNumber digits)], behind)
  | none =>
    match c, rest with
    | 13, 10 :: behind => .ok ([], behind)
    | _, _ => .ok ((namedEscape? c).getD [c], rest)

/-- The text between the quotes with its escapes decoded. Every step takes at least one
code point, so the length of the text is enough fuel. -/
def unescape : Nat → Text → Except LiteralError Text
  | 0, _ => .ok []
  | _ + 1, [] => .ok []
  | fuel + 1, c :: rest =>
    if c == CodePoint.backslash then
      match rest with
      | [] => .ok [c]
      | d :: rest' => do
        let (decoded, behind) ← escape d rest'
        return decoded ++ (← unescape fuel behind)
    else do return c :: (← unescape fuel rest)

/-- The text that a quoted text stands for. The first and the last code point are its
quotes. -/
def decodeText (raw : Text) : Except LiteralError Text :=
  let body := (raw.drop 1).dropLast
  unescape body.length body

/-- The value of a digit in any base, letters in either case. -/
def digitValue? (c : CodePoint) : Option Nat := c.decimalValue? <|> c.hexValue?

/-- The number whose digits are those of `value` and `c` behind them. -/
def appendDigit? (base value : Nat) (c : CodePoint) : Option Nat := do
  let digit ← digitValue? c
  if digit < base then return base * value + digit else none

/-- The number that digits of a base stand for; at least one is needed. -/
def readDigits? (base : Nat) (digits : Text) : Option Nat :=
  if digits.isEmpty then none else digits.foldlM (appendDigit? base) 0

def trimEnd (t : Text) : Text := (t.reverse.dropWhile CodePoint.isBlank).reverse

def trim (t : Text) : Text := trimEnd (t.dropWhile CodePoint.isBlank)

/-- A sign if one is next: whether it is negative, and the rest. -/
def takeSign : Text → Bool × Text
  | 45 :: rest => (true, rest)
  | 43 :: rest => (false, rest)
  | t => (false, t)

/-- An integer in base ten with an optional sign, between blanks. The digits in front are
counted before anything is said of what stands behind them. -/
def readInteger (t : Text) : Except LiteralError Int :=
  let (negative, digits) := takeSign (trim t)
  let count := (digits.takeWhile CodePoint.isDecimal).length
  if Number.digitLimit < count then .error (.oversized ⟨some count⟩)
  else
    match readDigits? 10 digits with
    | some value => .ok (if negative then -(value : Int) else value)
    | none => .error (.notInteger 10 t)

/-- The nearest floating-point number to `digits * 10 ^ scale`. Far outside the range
of the type the powers need not be computed. -/
def nearest (digits : Nat) (scale : Int) : Float :=
  let size := (Nat.toDigits 10 digits).length + scale
  if digits == 0 || size < -400 then 0.0
  else if 400 < size then 1.0 / 0.0
  else if scale < 0 then Float.ofScientific digits true scale.natAbs
  else Float.ofScientific digits false scale.natAbs

def readExponent? : Text → Option Int
  | [] => some 0
  | c :: rest =>
    if c == 101 || c == 69 then
      let (negative, digits) := takeSign rest
      (readDigits? 10 digits).map fun value => if negative then -(value : Int) else value
    else none

/-- A decimal with an optional sign, fraction and exponent, between blanks. A digit
before or behind the point is needed. -/
def readDecimal? (t : Text) : Option Float :=
  let (negative, unsigned) := takeSign (trim t)
  let whole := unsigned.takeWhile CodePoint.isDecimal
  let behind := unsigned.dropWhile CodePoint.isDecimal
  let (fraction, exponent) := match behind with
    | 46 :: rest => (rest.takeWhile CodePoint.isDecimal, rest.dropWhile CodePoint.isDecimal)
    | _ => ([], behind)
  do
    let digits ← readDigits? 10 (whole ++ fraction)
    let scale ← readExponent? exponent
    let magnitude := nearest digits (scale - fraction.length)
    return if negative then -magnitude else magnitude

/-- The base that a mark behind a leading zero stands for. -/
def markedBase? : Text → Option Nat
  | 48 :: mark :: _ =>
    match mark with
    | 120 | 88 => some 16
    | 98 | 66 => some 2
    | 111 | 79 => some 8
    | _ => none
  | _ => none

/-- The digits of a number without underscores and without the suffix of an integer of
any size. -/
def significant (raw : Text) : Text :=
  let digits := raw.filter (· != CodePoint.underscore)
  if digits.getLast? == some 110 then digits.dropLast else digits

/-- The number that the text of a number stands for: an integer unless a decimal has a
point or an exponent. -/
def decodeNumber (raw : Text) : Except LiteralError Number :=
  let digits := significant raw
  match markedBase? digits with
  | some base =>
    match readDigits? base (trimEnd (digits.drop 2)) with
    | some value => .ok (.int value)
    | none => .error (.notInteger 0 digits)
  | none =>
    if digits.any (fun c => c == CodePoint.point || c == 101 || c == 69) then
      match readDecimal? digits with
      | some value => .ok (.float value)
      | none => .error (.notDecimal digits)
    else (readInteger digits).map .int

end Literal

end StyleSplit.Script
