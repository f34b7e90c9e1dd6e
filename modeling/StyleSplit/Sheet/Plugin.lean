import StyleSplit.Sheet.Naming
import StyleSplit.Value

/-! Plugins: functions on the properties of a rule that run before its text is written. -/
namespace StyleSplit

/-- A plugin, and whether it watches: a watching plugin is shown every rule it gets and
every sheet that is made. What it does with a sheet is taken as an observation: a sheet
cannot be changed once it is made, so a hook has a place in the log and nowhere else. -/
structure Plugin where
  process : Text → Properties → CallContext → Properties
  watches : Bool := false

/-- Every capital letter as a hyphen and its small form. -/
def dashCapitals : Text → Text
  | [] => []
  | c :: rest =>
    if c.isUpper then CodePoint.hyphen :: c.toLower :: dashCapitals rest
    else c :: dashCapitals rest

/-- A property name in hyphenated form. A vendor name that starts with `ms-` also gets
the hyphen that other vendor names have. -/
def hyphenate (name : Text) : Text :=
  let dashed := dashCapitals name
  if (text "ms-").isPrefixOf dashed then CodePoint.hyphen :: dashed else dashed

namespace Plugin

def hyphenateNames : Plugin where
  process := fun _ properties _ =>
    collectEntries (properties.map fun (name, value) => (hyphenate name, value))

/-- The properties whose numbers get a unit unless others are given. -/
def measuredProperties : List Text :=
  [text "width", text "height", text "margin", text "padding", text "top", text "right",
   text "bottom", text "left", text "font-size"]

mutual

/-- A value with the unit behind every number except zero, inside lists too. -/
def measured (unit : Text) : Value → Value
  | .scalar (.number n) =>
    .scalar (.text (if n.isZero then n.written else n.written ++ unit))
  | .scalar s => .scalar s
  | .list items => .list (measuredItems unit items)
  | .record entries => .record entries

def measuredItems (unit : Text) : List Value → List Value
  | [] => []
  | item :: rest => measured unit item :: measuredItems unit rest

end

def appendUnit (properties : List Text) (unit : Text) : Plugin where
  process := fun _ given _ =>
    given.map fun (name, value) =>
      (name, if properties.contains name then measured unit value else value)

def defaultUnit : Plugin := appendUnit measuredProperties (text "px")

/-- Whether a plugin for one selector, or for all of them, applies. -/
def applies (only : Option Text) (selector : Text) : Bool :=
  match only with
  | none => true
  | some wanted => wanted == selector

def set (only : Option Text) (name : Text) (value : Value) : Plugin where
  process := fun selector properties _ =>
    if applies only selector then insertEntry name value properties else properties

def drop (only : Option Text) : Plugin where
  process := fun selector properties _ => if applies only selector then [] else properties

def watch : Plugin where
  process := fun _ properties _ => properties
  watches := true

/-- The names of the built-in plugins, in alphabetical order. -/
def builtinNames : List Text := [text "default-unit", text "hyphenate"]

def builtin? (name : Text) : Option Plugin :=
  if name == text "hyphenate" then some hyphenateNames
  else if name == text "default-unit" then some defaultUnit
  else none

/-- The properties of a rule after all plugins, in turn. -/
def applyAll (plugins : List Plugin) (selector : Text) (properties : Properties)
    (context : CallContext) : Properties :=
  plugins.foldl (fun properties plugin => plugin.process selector properties context) properties

end Plugin

end StyleSplit
