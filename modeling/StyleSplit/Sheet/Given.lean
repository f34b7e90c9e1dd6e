import StyleSplit.Sheet.Plugin

/-! Naming functions and plugins as they are given, usable or not. What is not usable does
no harm until a rule needs it: its properties are processed before it gets a name. -/
namespace StyleSplit

/-- What was given for the naming function: one, or a text, which cannot be called. -/
inductive GivenNaming where
  | function (naming : Naming)
  | word (value : Text)

/-- What was given for a plugin: one, or something else, known by its form in messages. -/
inductive GivenPlugin where
  | plugin (plugin : Plugin)
  | unusable (shown : Text)

/-- What shows when something is used as what it is not: a text was called, or something
that is no plugin was asked to process properties. -/
inductive Misuse where
  | notCallable (value : Text)
  | notProcessing (shown : Text)
deriving DecidableEq, Inhabited

def Misuse.message : Misuse → Text
  | notCallable _ => text "'str' object is not callable"
  | notProcessing shown =>
    text "'" ++ shown ++ text "' object has no attribute 'process_properties'"

namespace GivenNaming

/-- What shows when a name is asked for. -/
def misuse? : GivenNaming → Option Misuse
  | function _ => none
  | word value => some (.notCallable value)

/-- The naming function; the standard one in place of a text. -/
def usable : GivenNaming → Naming
  | function naming => naming
  | word _ => Naming.standard

end GivenNaming

namespace GivenPlugin

def misuse? : GivenPlugin → Option Misuse
  | plugin _ => none
  | unusable shown => some (.notProcessing shown)

def usable? : GivenPlugin → Option Plugin
  | plugin given => some given
  | unusable _ => none

end GivenPlugin

structure GivenTools where
  naming : GivenNaming
  plugins : List GivenPlugin

namespace GivenTools

/-- What shows when the plugins are asked in turn. -/
def pluginMisuse? (g : GivenTools) : Option Misuse := g.plugins.findSome? GivenPlugin.misuse?

/-- What shows when a rule is compiled. -/
def ruleMisuse? (g : GivenTools) : Option Misuse := g.pluginMisuse?.or g.naming.misuse?

def usablePlugins (g : GivenTools) : List Plugin := g.plugins.filterMap GivenPlugin.usable?

def process (g : GivenTools) (selector : Text) (properties : Properties)
    (context : CallContext) : Except Misuse Properties :=
  match g.pluginMisuse? with
  | some misuse => .error misuse
  | none => .ok (Plugin.applyAll g.usablePlugins selector properties context)

end GivenTools

end StyleSplit
