import StyleSplit.Value

/-! The text of style sheets. A text stands for itself and a number is written in
decimal; items of a list are separated by commas, and by blanks one level deeper. A
rule is a class selector with one declaration on each line between braces. Truth
values, null, records, empty lists and deeper lists have no text. -/
namespace StyleSplit

structure Unwritable where
  value : Value

def Unwritable.message (u : Unwritable) : Text :=
  text "Cannot serialize value " ++ u.value.shown

def indentation : Text := text "  "

namespace Value

def writeScalar : Value → Except Unwritable Text
  | .scalar (.text value) => .ok value
  | .scalar (.number value) => .ok value.written
  | value => .error ⟨value⟩

/-- The text of an item of a list; `whole` is that list. -/
def writeItem (whole : Value) : Value → Except Unwritable Text
  | .list [] => .error ⟨whole⟩
  | .list items => do return Text.join (text " ") (← items.mapM writeScalar)
  | item => item.writeScalar

def write : Value → Except Unwritable Text
  | .list [] => .error ⟨.list []⟩
  | .list items => do return Text.join (text ", ") (← items.mapM (writeItem (.list items)))
  | value => value.writeScalar

end Value

def writeProperty (name : Text) (value : Value) : Except Unwritable Text := do
  return name ++ text ": " ++ (← value.write) ++ text ";"

def writeRule (identifier : Text) (properties : Properties) : Except Unwritable Text := do
  let declarations ← properties.mapM fun (name, value) => writeProperty name value
  let lines := [text "." ++ identifier ++ text " \x7b"] ++
    declarations.map (indentation ++ ·) ++ [text "\x7d"]
  return Text.join [CodePoint.newline] lines

def joinRules (rules : List Text) : Text := Text.join [CodePoint.newline] rules

end StyleSplit
