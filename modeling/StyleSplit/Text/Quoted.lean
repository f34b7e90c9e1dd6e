import StyleSplit.Text.Printable

/-! The quoted form of a text in messages. The quotes are single unless the text
holds a single quote and no double one; the closing quote, the backslash and
everything unprintable are escaped, so the form is one line of printable text. -/
namespace StyleSplit.Text

/-- The quote that encloses the quoted form of a text. -/
def enclosingQuote (t : Text) : CodePoint :=
  if t.contains CodePoint.singleQuote && !t.contains CodePoint.doubleQuote then
    CodePoint.doubleQuote
  else CodePoint.singleQuote

/-- One code point between the quotes `quote`. An escape by number has as few of the
widths two, four and eight as the code point allows. -/
def quotedPoint (quote c : CodePoint) : Text :=
  if c == quote || c == CodePoint.backslash then [CodePoint.backslash, c]
  else if c == CodePoint.newline then text "\\n"
  else if c == CodePoint.carriageReturn then text "\\r"
  else if c == CodePoint.tab then text "\\t"
  else if c.isPrintable then [c]
  else if Nat.ble c 0xFF then text "\\x" ++ hexDigits 2 c
  else if Nat.ble c 0xFFFF then text "\\u" ++ hexDigits 4 c
  else text "\\U" ++ hexDigits 8 c

/-- The text in quotes, as messages show it. -/
def quoted (t : Text) : Text :=
  let quote := enclosingQuote t
  [quote] ++ t.flatMap (quotedPoint quote) ++ [quote]

end StyleSplit.Text
