import StyleSplit.Sheet.Written

/-! The text of generated object literals: quoted keys, one entry on each line, and the
closing brace below the line on which the literal starts. -/
namespace StyleSplit

def letterEscape? (c : CodePoint) : Option CodePoint :=
  if c == CodePoint.doubleQuote || c == CodePoint.backslash then some c
  else if c == CodePoint.newline then some 110
  else if c == CodePoint.carriageReturn then some 114
  else if c == CodePoint.tab then some 116
  else if c == 8 then some 98
  else if c == 12 then some 102
  else none

/-- One code point between double quotes. Control characters are escaped, by their
number unless there is a letter for them. -/
def stringPoint (c : CodePoint) : Text :=
  match letterEscape? c with
  | some letter => [CodePoint.backslash, letter]
  | none => if c < 32 then text "\\u" ++ Text.hexDigits 4 c else [c]

def stringLiteral (t : Text) : Text :=
  [CodePoint.doubleQuote] ++ t.flatMap stringPoint ++ [CodePoint.doubleQuote]

/-- An object literal of entries that have been written already, on a line indented by
`indent`. -/
def layoutMapping (entries : List Text) (indent : Text) : Text :=
  if entries.isEmpty then text "\x7b\x7d"
  else
    text "\x7b\n" ++ Text.join (text ",\n") (entries.map (indent ++ indentation ++ ·)) ++
      text "\n" ++ indent ++ text "\x7d"

/-- An entry with a quoted key and a value that has been written already. -/
def layoutEntry (key value : Text) : Text := stringLiteral key ++ text ": " ++ value

end StyleSplit
