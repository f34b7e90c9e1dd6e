/-! Text as the list of its code points. Offsets count code points, and a
surrogate is a code point like any other, so a half of a surrogate pair can stand
alone; `Char` could not hold it. -/
namespace StyleSplit

/-- A Unicode code point, surrogates included. -/
abbrev CodePoint := Nat

abbrev Text := List CodePoint

def text (s : String) : Text := s.toList.map Char.toNat

namespace CodePoint

def tab : CodePoint := 9
def newline : CodePoint := 10
def carriageReturn : CodePoint := 13
def space : CodePoint := 32
def doubleQuote : CodePoint := 34
def singleQuote : CodePoint := 39
def hyphen : CodePoint := 45
def point : CodePoint := 46
def slash : CodePoint := 47
def backslash : CodePoint := 92
def underscore : CodePoint := 95
def backtick : CodePoint := 96
def openBrace : CodePoint := 123
def closeBrace : CodePoint := 125

/-- A capital letter of the basic Latin alphabet. -/
def isUpper (c : CodePoint) : Bool := Nat.ble 65 c && Nat.ble c 90

/-- A small letter of the basic Latin alphabet. -/
def isLower (c : CodePoint) : Bool := Nat.ble 97 c && Nat.ble c 122

def isLetter (c : CodePoint) : Bool := isUpper c || isLower c

/-- One of the ten European digits. -/
def isDigit (c : CodePoint) : Bool := Nat.ble 48 c && Nat.ble c 57

/-- The value of a hexadecimal digit, in either case. -/
def hexValue? (c : CodePoint) : Option Nat :=
  if isDigit c then some (c - 48)
  else if Nat.ble 65 c && Nat.ble c 70 then some (c - 55)
  else if Nat.ble 97 c && Nat.ble c 102 then some (c - 87)
  else none

def isHexDigit (c : CodePoint) : Bool := (hexValue? c).isSome

/-- Half of a surrogate pair: a code point that no encoding of text may hold. -/
def isSurrogate (c : CodePoint) : Bool := Nat.ble 0xD800 c && Nat.ble c 0xDFFF

/-- The lower-case form of a basic Latin letter; everything else is unchanged. -/
def toLower (c : CodePoint) : CodePoint := if isUpper c then c + 32 else c

end CodePoint

namespace Text

/-- The code points at offsets `start` up to `stop`, as many of them as there are. -/
def slice (t : Text) (start stop : Nat) : Text := (t.take stop).drop start

/-- The order of texts by their first difference; a text comes before its continuations. -/
def before : Text → Text → Bool
  | [], [] => false
  | [], _ :: _ => true
  | _ :: _, [] => false
  | a :: s, b :: t => Nat.blt a b || (a == b && before s t)

def containsText (needle : Text) : Text → Bool
  | [] => needle.isEmpty
  | c :: rest => needle.isPrefixOf (c :: rest) || containsText needle rest

/-- The offset at which the line holding `offset` starts. -/
def lineStart (t : Text) (offset : Nat) : Nat :=
  let before := t.take offset
  before.length - (before.reverse.takeWhile (· != CodePoint.newline)).length

/-- The line and the column of an offset, both counted from one. Only a line feed
ends a line. -/
def position (t : Text) (offset : Nat) : Nat × Nat :=
  ((t.take offset).count CodePoint.newline + 1, offset - lineStart t offset + 1)

/-- The blanks and tabs with which the line holding `offset` starts. -/
def lineIndent (t : Text) (offset : Nat) : Text :=
  (t.drop (lineStart t offset)).takeWhile
    fun c => c == CodePoint.space || c == CodePoint.tab

def ofNat (n : Nat) : Text := (Nat.toDigits 10 n).map Char.toNat

/-- The decimal digits of an integer, behind a hyphen when it is negative. -/
def ofInt (n : Int) : Text :=
  if n < 0 then CodePoint.hyphen :: ofNat n.natAbs else ofNat n.natAbs

/-- A hexadecimal digit in lower case, for values below sixteen. -/
def hexDigit (n : Nat) : CodePoint := if Nat.ble n 9 then n + 48 else n + 87

/-- The last `width` hexadecimal digits of a number, leading zeros included. -/
def hexDigits : Nat → Nat → Text
  | 0, _ => []
  | width + 1, n => hexDigits width (n / 16) ++ [hexDigit (n % 16)]

/-- The texts in order with `separator` between neighbours. -/
def join (separator : Text) : List Text → Text
  | [] => []
  | [t] => t
  | t :: rest => t ++ separator ++ join separator rest

end Text

end StyleSplit
