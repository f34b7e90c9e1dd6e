import StyleSplit.Number.Basic
import StyleSplit.Text.Quoted

/-! Static values: what an expression stands for when that is known before the script
runs, and the form of such values in messages. -/
namespace StyleSplit

inductive Scalar where
  | text (value : Text)
  | number (value : Number)
  | bool (value : Bool)
  | null
deriving DecidableEq, Inhabited

/-- A value known before the script runs. A record keeps its entries in the order in
which their names first appeared. -/
inductive Value where
  | scalar (value : Scalar)
  | list (items : List Value)
  | record (entries : List (Text × Value))
deriving Inhabited

/-- Properties in order; a name stands at most once. -/
abbrev Properties := List (Text × Value)

/-- Sets the value of a name: in place when the name is there, else at the end. -/
def insertEntry {α : Type} (name : Text) (value : α) : List (Text × α) → List (Text × α)
  | [] => [(name, value)]
  | (key, old) :: rest =>
    if key == name then (key, value) :: rest
    else (key, old) :: insertEntry name value rest

/-- The entries of a list of pairs, taken one after the other. -/
def collectEntries {α : Type} (pairs : List (Text × α)) : List (Text × α) :=
  pairs.foldl (fun entries pair => insertEntry pair.1 pair.2 entries) []

namespace Scalar

def shown : Scalar → Text
  | text value => value.quoted
  | number value => value.shown
  | bool true => StyleSplit.text "True"
  | bool false => StyleSplit.text "False"
  | null => StyleSplit.text "None"

end Scalar

namespace Value

mutual

def shown : Value → Text
  | scalar value => value.shown
  | list items => text "[" ++ Text.join (text ", ") (shownItems items) ++ text "]"
  | record entries =>
    text "\x7b" ++ Text.join (text ", ") (shownEntries entries) ++ text "\x7d"

def shownItems : List Value → List Text
  | [] => []
  | item :: rest => item.shown :: shownItems rest

def shownEntries : List (Text × Value) → List Text
  | [] => []
  | (name, value) :: rest => (name.quoted ++ text ": " ++ value.shown) :: shownEntries rest

end

end Value

end StyleSplit
