import StyleSplit.Sheet.Given

/-! Settings: which calls to look for and how to name and process what is compiled. -/
namespace StyleSplit

structure Settings where
  names : List Text
  naming : Naming
  plugins : List Plugin
  classPrefix : Option Text

/-- The name of a call to look for as it was given, which may be no text. -/
abbrev GivenName := Scalar

structure GivenSettings where
  names : List GivenName
  tools : GivenTools
  classPrefix : Option Text

inductive SettingsError where
  | namingNotCallable (value : Text)
  | noNames
  | invalidName (name : GivenName)
  | unusablePlugin (shown : Text)
  | unknownPlugin (name : Text)
deriving DecidableEq, Inhabited

def SettingsError.message : SettingsError → Text
  | namingNotCallable value => text "naming_function must be callable, got " ++ value.quoted
  | noNames => text "At least one recognized call name is required"
  | invalidName name => text "Invalid recognized call name: " ++ name.shown
  | unusablePlugin shown =>
    text "Plugin " ++ shown ++ text " does not define process_properties()"
  | unknownPlugin name =>
    text "Unknown plugin " ++ name.quoted ++ text " (available: " ++
      Text.join (text ", ") Plugin.builtinNames ++ text ")"

namespace Settings

/-- The calls that are looked for unless others are given. -/
def standardNames : List Text := [text "createStyleSheet"]

/-- A name is a text that is not empty. -/
def checkName : GivenName → Except SettingsError Text
  | .text (c :: rest) => .ok (c :: rest)
  | name => .error (.invalidName name)

def checkNaming : GivenNaming → Except SettingsError Naming
  | .function naming => .ok naming
  | .word value => .error (.namingNotCallable value)

def checkPlugin : GivenPlugin → Except SettingsError Plugin
  | .plugin plugin => .ok plugin
  | .unusable shown => .error (.unusablePlugin shown)

def name? : GivenName → Option Text
  | .text name => some name
  | _ => none

def builtin (name : Text) : Except SettingsError Plugin :=
  match Plugin.builtin? name with
  | some plugin => .ok plugin
  | none => .error (.unknownPlugin name)

/-- A prefix counts when it is not empty. -/
def givenPrefix (t : Text) : Option Text := if t.isEmpty then none else some t

end Settings

namespace GivenSettings

/-- Checks settings: the naming function, then the names, then the plugins. -/
def check (g : GivenSettings) : Except SettingsError Settings := do
  let naming ← Settings.checkNaming g.tools.naming
  if g.names.isEmpty then throw .noNames
  let names ← g.names.mapM Settings.checkName
  let plugins ← g.tools.plugins.mapM Settings.checkPlugin
  return { names, naming, plugins, classPrefix := g.classPrefix }

/-- What can be used of settings that nobody has checked. -/
def usable (g : GivenSettings) : Settings where
  names := g.names.filterMap Settings.name?
  naming := g.tools.naming.usable
  plugins := g.tools.usablePlugins
  classPrefix := g.classPrefix

/-- Settings from plain texts, as a command line gives them. Without names the standard
ones are meant. -/
def ofOptions (names : List Text) (classPrefix : Text) (pluginNames : List Text) :
    Except SettingsError GivenSettings := do
  let plugins ← pluginNames.mapM Settings.builtin
  let names := if names.isEmpty then Settings.standardNames else names
  return { names := names.map .text
           tools := { naming := .function Naming.standard, plugins := plugins.map .plugin }
           classPrefix := Settings.givenPrefix classPrefix }

end GivenSettings

def Settings.ofOptions (names : List Text) (classPrefix : Text) (pluginNames : List Text) :
    Except SettingsError Settings := do
  (← GivenSettings.ofOptions names classPrefix pluginNames).check

end StyleSplit
