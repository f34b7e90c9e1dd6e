import StyleSplit.Script.Terminal
import StyleSplit.Span
import StyleSplit.Text.Digit

/-! Tokens: the split of a script into terminals, with blanks and comments left out.
Which terminal comes next does not depend on the grammar. Of the open classes at most
one fits a place; a name that spells a reserved word is that word, and a number may be
followed by a name without a gap. -/
namespace StyleSplit.Script

/-- A terminal together with the text it was read from and the place of that text. -/
structure Token where
  terminal : Terminal
  text : Text
  span : Span
deriving DecidableEq, Inhabited

namespace Token

def isNameStart (c : CodePoint) : Bool :=
  c.isLetter || c == CodePoint.underscore || c == 36

def isNamePart (c : CodePoint) : Bool := isNameStart c || c.isDigit

def isBlank (c : CodePoint) : Bool :=
  c == CodePoint.space || c == CodePoint.tab || c == 12 || c == CodePoint.carriageReturn ||
    c == CodePoint.newline

/-- A reader takes its text from the front; it answers that text and the rest. -/
abbrev Reader := Text → Option (Text × Text)

/-- Letters, digits, underscores and dollar signs, the first one not a digit. -/
def readName : Reader
  | [] => none
  | c :: rest =>
    if isNameStart c then some (c :: rest.takeWhile isNamePart, rest.dropWhile isNamePart)
    else none

/-- A letter from `letters` if it is next. -/
def takeOne (letters : List CodePoint) : Text → Text × Text
  | [] => ([], [])
  | c :: rest => if letters.contains c then ([c], rest) else ([], c :: rest)

/-- The letters that may follow a number: the suffix of an integer of any size. -/
def takeSuffix (t : Text) : Text × Text := takeOne [110] t

/-- The digits of a number with one of the marks `marks` behind a zero, at least one of
them; underscores count as digits. -/
def readRadix (marks : List CodePoint) (isDigit : CodePoint → Bool) : Reader
  | 48 :: mark :: rest =>
    let part := fun c => isDigit c || c == CodePoint.underscore
    let digits := rest.takeWhile part
    if marks.contains mark && !digits.isEmpty then
      let (suffix, rest) := takeSuffix (rest.dropWhile part)
      some (48 :: mark :: digits ++ suffix, rest)
    else none
  | _ => none

/-- The exponent of a number: a letter, a sign or none, and at least one digit. -/
def takeExponent : Text → Text × Text
  | [] => ([], [])
  | c :: rest =>
    if c == 101 || c == 69 then
      let (sign, digits) := takeOne [43, 45] rest
      if (digits.takeWhile CodePoint.isDecimal).isEmpty then ([], c :: rest)
      else (c :: sign ++ digits.takeWhile CodePoint.isDecimal,
        digits.dropWhile CodePoint.isDecimal)
    else ([], c :: rest)

/-- The fraction of a number: a point and digits, which may be missing. -/
def takeFraction : Text → Text × Text
  | [] => ([], [])
  | c :: rest =>
    if c == CodePoint.point then
      (c :: rest.takeWhile CodePoint.isDecimal, rest.dropWhile CodePoint.isDecimal)
    else ([], c :: rest)

def finishDecimal (digits rest : Text) : Text × Text :=
  let (exponent, rest) := takeExponent rest
  let (suffix, rest) := takeSuffix rest
  (digits ++ exponent ++ suffix, rest)

/-- A decimal number, with digits before the point or behind it. -/
def readDecimal : Reader
  | [] => none
  | c :: rest =>
    if c.isDecimal then
      let part := fun d => d.isDecimal || d == CodePoint.underscore
      let (fraction, behind) := takeFraction (rest.dropWhile part)
      some (finishDecimal (c :: rest.takeWhile part ++ fraction) behind)
    else if c == CodePoint.point && !(rest.takeWhile CodePoint.isDecimal).isEmpty then
      some (finishDecimal (c :: rest.takeWhile CodePoint.isDecimal)
        (rest.dropWhile CodePoint.isDecimal))
    else none

/-- A number: hexadecimal, binary or octal behind its mark, or else decimal. -/
def readNumber (t : Text) : Option (Text × Text) :=
  readRadix [120, 88] CodePoint.isHexDigit t <|>
  readRadix [98, 66] (fun c => c == 48 || c == 49) t <|>
  readRadix [111, 79] (fun c => Nat.ble 48 c && Nat.ble c 55) t <|>
  readDecimal t

/-- The rest of a quoted text up to its closing quote. A backslash takes the code point
behind it along; a line feed alone ends the text only where `multiline` allows it. -/
def readQuotedRest (quote : CodePoint) (multiline : Bool) : Reader
  | [] => none
  | c :: rest =>
    if c == quote then some ([c], rest)
    else if c == CodePoint.newline && !multiline then none
    else if c == CodePoint.backslash then
      match rest with
      | [] => none
      | d :: rest' =>
        (readQuotedRest quote multiline rest').map fun (body, rest) => (c :: d :: body, rest)
    else (readQuotedRest quote multiline rest).map fun (body, rest) => (c :: body, rest)

def readQuoted (quote : CodePoint) (multiline : Bool) : Reader
  | [] => none
  | c :: rest =>
    if c == quote then
      (readQuotedRest quote multiline rest).map fun (body, rest) => (c :: body, rest)
    else none

def readPunctuator : List Punctuator → Text → Option (Punctuator × Text)
  | [], _ => none
  | mark :: marks, t =>
    match mark.spelling.isPrefixOf? t with
    | some rest => some (mark, rest)
    | none => readPunctuator marks t

/-- The rest of a comment behind its end. -/
def skipBlock : Text → Option Text
  | [] => none
  | c :: rest =>
    match c, rest with
    | 42, 47 :: rest' => some rest'
    | _, _ => skipBlock rest

/-- What stands before the next token, if anything does: blanks or one comment. The
result is the text behind it. -/
def skipGap : Text → Option Text
  | [] => none
  | c :: rest =>
    if isBlank c then some (rest.dropWhile isBlank)
    else if c == CodePoint.slash then
      match rest with
      | 47 :: line => some (line.dropWhile (· != CodePoint.newline))
      | 42 :: block => skipBlock block
      | _ => none
    else none

def readTerminal (t : Text) : Option (Terminal × Text × Text) :=
  match readQuoted CodePoint.doubleQuote false t <|>
      readQuoted CodePoint.singleQuote false t with
  | some (lexeme, rest) => some (.string, lexeme, rest)
  | none =>
  match readQuoted CodePoint.backtick true t with
  | some (lexeme, rest) => some (.template, lexeme, rest)
  | none =>
  match readNumber t with
  | some (lexeme, rest) => some (.number, lexeme, rest)
  | none =>
  match readName t with
  | some (lexeme, rest) =>
    match Keyword.ofSpelling? lexeme with
    | some word => some (.keyword word, lexeme, rest)
    | none => some (.name, lexeme, rest)
  | none =>
  match readPunctuator Punctuator.byLength t with
  | some (mark, rest) => some (.punctuator mark, mark.spelling, rest)
  | none => none

/-- The tokens of the text that stands at `offset`, up to the first place where none
fits; that place is `none` when the tokens reach the end of the text. Every step takes
at least one code point, so the length of the text is enough fuel. -/
def scan : Nat → Nat → Text → List Token × Option Nat
  | 0, _, _ => ([], none)
  | _ + 1, _, [] => ([], none)
  | fuel + 1, offset, c :: rest =>
    let t := c :: rest
    match skipGap t with
    | some behind => scan fuel (offset + (t.length - behind.length)) behind
    | none =>
      match readTerminal t with
      | none => ([], some offset)
      | some (terminal, lexeme, behind) =>
        let stop := offset + lexeme.length
        let (tokens, failure) := scan fuel stop behind
        ({ terminal, text := lexeme, span := ⟨offset, stop⟩ } :: tokens, failure)

/-- The tokens of a script, and the offset at which no further token fits. -/
def ofText (source : Text) : List Token × Option Nat := scan source.length 0 source

end Token

end StyleSplit.Script
