import StyleSplit.Script.Assembly
import StyleSplit.Script.Chart
import StyleSplit.Script.Rules

/-! Reading a script from its text. -/
namespace StyleSplit

/-- Why a text is not a script: at an offset no token fits; a token cannot follow those
before it; the text ends too early; or a literal has no value. -/
inductive ParseError where
  | noToken (offset : Nat)
  | unexpected (offset : Nat)
  | unfinished
  | literal (error : Script.LiteralError)
deriving DecidableEq, Inhabited

namespace ParseError

def place (source : Text) (offset : Nat) : Text :=
  let (line, column) := source.position offset
  text " at line " ++ Text.ofNat line ++ text ", column " ++ Text.ofNat column

/-- The error in words. Of a text that the grammar does not derive they tell the kind of
the mistake and its place. -/
def message (source : Text) : ParseError → Text
  | noToken offset => text "No terminal matches" ++ place source offset
  | unexpected offset => text "Unexpected token" ++ place source offset
  | unfinished => text "Unexpected end of input"
  | literal error => error.message

end ParseError

namespace Script

/-- The derivation of a text. Tokens are read one at a time, so of a place without a
token and an unexpected token the one that comes first counts. -/
def derive (source : Text) : Except ParseError Tree :=
  let (tokens, failure) := Token.ofText source
  match grammar.parse tokens, failure with
  | .error (.token t), _ => .error (.unexpected t.span.start)
  | _, some offset => .error (.noToken offset)
  | .error .ending, none => .error .unfinished
  | .ok tree, none => .ok tree

def parse (source : Text) : Except ParseError Script := do
  let tree ← derive source
  match tree.statements with
  | .ok body => return { source, body }
  | .error error => .error (.literal error)

end Script

end StyleSplit
