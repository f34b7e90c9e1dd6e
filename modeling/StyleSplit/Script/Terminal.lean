import StyleSplit.Text.Basic

/-! The terminal symbols of the script grammar: four open classes, the reserved words
and the punctuators, with their spellings. -/
namespace StyleSplit.Script

/-- The reserved words. None of them is a name. -/
inductive Keyword where
  | async | await | break_ | catch_ | class_ | const | continue_ | default | delete | do_
  | else_ | export_ | extends_ | false_ | finally_ | for_ | function | if_ | import_ | in_
  | instanceOf | let_ | new | null | return_ | static | super | this | throw | true_ | try_
  | typeOf | var | void | while_
deriving DecidableEq, Repr, Inhabited

namespace Keyword

def all : List Keyword :=
  [async, await, break_, catch_, class_, const, continue_, default, delete, do_, else_,
   export_, extends_, false_, finally_, for_, function, if_, import_, in_, instanceOf, let_,
   new, null, return_, static, super, this, throw, true_, try_, typeOf, var, void, while_]

def spelling : Keyword → Text
  | async => text "async"
  | await => text "await"
  | break_ => text "break"
  | catch_ => text "catch"
  | class_ => text "class"
  | const => text "const"
  | continue_ => text "continue"
  | default => text "default"
  | delete => text "delete"
  | do_ => text "do"
  | else_ => text "else"
  | export_ => text "export"
  | extends_ => text "extends"
  | false_ => text "false"
  | finally_ => text "finally"
  | for_ => text "for"
  | function => text "function"
  | if_ => text "if"
  | import_ => text "import"
  | in_ => text "in"
  | instanceOf => text "instanceof"
  | let_ => text "let"
  | new => text "new"
  | null => text "null"
  | return_ => text "return"
  | static => text "static"
  | super => text "super"
  | this => text "this"
  | throw => text "throw"
  | true_ => text "true"
  | try_ => text "try"
  | typeOf => text "typeof"
  | var => text "var"
  | void => text "void"
  | while_ => text "while"

def ofSpelling? (word : Text) : Option Keyword := all.find? (·.spelling == word)

end Keyword

inductive Punctuator where
  | semicolon | comma | openParen | closeParen | openBrace | closeBrace | openBracket
  | closeBracket | dot | optionalDot | ellipsis | question | colon | arrow
  | assign | plusAssign | minusAssign | starAssign | slashAssign | percentAssign
  | powerAssign | leftAssign | rightAssign | unsignedAssign | andAssign | orAssign
  | xorAssign | bothAssign | eitherAssign | nullishAssign
  | plus | minus | star | slash | percent | power | equal | notEqual | same | notSame
  | less | greater | lessEqual | greaterEqual | left | right | unsigned | bitAnd | bitOr
  | bitXor | both | either | nullish
  | bang | tilde | increment | decrement
deriving DecidableEq, Repr, Inhabited

namespace Punctuator

def spelling : Punctuator → Text
  | semicolon => text ";"
  | comma => text ","
  | openParen => text "("
  | closeParen => text ")"
  | openBrace => text "\x7b"
  | closeBrace => text "\x7d"
  | openBracket => text "["
  | closeBracket => text "]"
  | dot => text "."
  | optionalDot => text "?."
  | ellipsis => text "..."
  | question => text "?"
  | colon => text ":"
  | arrow => text "=>"
  | assign => text "="
  | plusAssign => text "+="
  | minusAssign => text "-="
  | starAssign => text "*="
  | slashAssign => text "/="
  | percentAssign => text "%="
  | powerAssign => text "**="
  | leftAssign => text "<<="
  | rightAssign => text ">>="
  | unsignedAssign => text ">>>="
  | andAssign => text "&="
  | orAssign => text "|="
  | xorAssign => text "^="
  | bothAssign => text "&&="
  | eitherAssign => text "||="
  | nullishAssign => text "??="
  | plus => text "+"
  | minus => text "-"
  | star => text "*"
  | slash => text "/"
  | percent => text "%"
  | power => text "**"
  | equal => text "=="
  | notEqual => text "!="
  | same => text "==="
  | notSame => text "!=="
  | less => text "<"
  | greater => text ">"
  | lessEqual => text "<="
  | greaterEqual => text ">="
  | left => text "<<"
  | right => text ">>"
  | unsigned => text ">>>"
  | bitAnd => text "&"
  | bitOr => text "|"
  | bitXor => text "^"
  | both => text "&&"
  | either => text "||"
  | nullish => text "??"
  | bang => text "!"
  | tilde => text "~"
  | increment => text "++"
  | decrement => text "--"

/-- Every punctuator, longer spellings first, so that the first one to stand at a
place in the text is the longest that does. -/
def byLength : List Punctuator :=
  [unsignedAssign,
   ellipsis, powerAssign, leftAssign, rightAssign, bothAssign, eitherAssign, nullishAssign,
   same, notSame, unsigned,
   optionalDot, arrow, plusAssign, minusAssign, starAssign, slashAssign, percentAssign,
   andAssign, orAssign, xorAssign, power, equal, notEqual, lessEqual, greaterEqual, left,
   right, both, either, nullish, increment, decrement,
   semicolon, comma, openParen, closeParen, openBrace, closeBrace, openBracket, closeBracket,
   dot, question, colon, assign, plus, minus, star, slash, percent, less, greater, bitAnd,
   bitOr, bitXor, bang, tilde]

end Punctuator

inductive Terminal where
  | name
  | number
  | string
  | template
  | keyword (word : Keyword)
  | punctuator (mark : Punctuator)
deriving DecidableEq, Repr, Inhabited

/-- Terminals of an open class: their text is not known from the terminal. -/
def Terminal.isOpen : Terminal → Bool
  | name | number | string | template => true
  | keyword _ | punctuator _ => false

end StyleSplit.Script
