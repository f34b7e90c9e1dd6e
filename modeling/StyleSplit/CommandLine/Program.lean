import StyleSplit.CommandLine.Arguments
import StyleSplit.CommandLine.Files
import StyleSplit.Precompile.Trace
import StyleSplit.Text.ControlSequence

/-! The command-line program as a function: from the arguments and the files of the
present directory to what is printed, how the program ends, and the files afterwards. -/
namespace StyleSplit.CommandLine

/-- How the program ends: with an exit code, with a complaint about its arguments, or
because a file or the output cannot take what is written. -/
inductive Ending where
  | exit (code : Nat)
  | usage (error : UsageError)
  | fault (fault : Files.Fault)
deriving DecidableEq, Inhabited

structure Completed where
  ending : Ending
  stdout : Text
  stderr : Text
  files : Files
deriving DecidableEq, Inhabited

namespace Completed

/-- Complaints about arguments have a code of their own. -/
def exitCode (c : Completed) : Nat :=
  match c.ending with
  | .exit code => code
  | .usage _ => 2
  | .fault _ => 1

end Completed

def helpOption : OptionSpec := ⟨[], [text "--help"], false⟩
def versionOption : OptionSpec := ⟨[], [text "--version"], false⟩
def outputOption : OptionSpec := ⟨[text "-o"], [text "--output"], true⟩
def inPlaceOption : OptionSpec := ⟨[], [text "--in-place"], false⟩
def identifierOption : OptionSpec := ⟨[text "-i"], [text "--identifier"], true⟩
def prefixOption : OptionSpec := ⟨[], [text "--prefix"], true⟩
def pluginOption : OptionSpec := ⟨[], [text "--plugin"], true⟩
def checkOption : OptionSpec := ⟨[], [text "--check"], false⟩
def verboseOption : OptionSpec := ⟨[text "-v"], [text "--verbose"], false⟩

def programOptions : List OptionSpec := [versionOption, helpOption]

def transformOptions : List OptionSpec :=
  [outputOption, inPlaceOption, identifierOption, prefixOption, pluginOption, checkOption,
   verboseOption, helpOption]

def inspectOptions : List OptionSpec := [identifierOption, helpOption]

def operandName : Text := text "JSFILE"

def unlines (lines : List Text) : Text := lines.flatMap (· ++ [CodePoint.newline])

/-- A file as a command reads it: its path, the name it goes by, and its contents. -/
structure Operand where
  path : Text
  contents : Bytes

/-- A script file that must be there. -/
def findOperand (files : Files) (path : Text) : Except UsageError Operand :=
  match files.find path with
  | .file contents => .ok ⟨path, contents⟩
  | .directory => .error (.isDirectory (text "'" ++ operandName ++ text "'") path)
  | .nothing => .error (.noSuchFile (text "'" ++ operandName ++ text "'") path)

/-- The paths for output are checked before the operand: none may be a directory. -/
def checkOutput (files : Files) (a : Arguments) : Except UsageError Unit :=
  match a.value? outputOption with
  | some path =>
    match files.find path with
    | .directory => .error (.isDirectory (text "'-o' / '--output'") path)
    | _ => .ok ()
  | none => .ok ()

def onlyOperand (files : Files) (a : Arguments) : Except UsageError Operand :=
  match a.operands with
  | [] => .error (.missingOperand operandName)
  | path :: more => do
    let operand ← findOperand files path
    if more.isEmpty then return operand else throw (.extraOperands more)

def settingsOf (a : Arguments) : Except UsageError Settings :=
  match Settings.ofOptions (a.values identifierOption) ((a.value? prefixOption).getD [])
      (a.values pluginOption) with
  | .ok settings => .ok settings
  | .error error => .error (.settings error.message)

inductive Loaded where
  | script (s : Script)
  | rejected (source : Text) (error : ParseError)
  | fault (fault : Files.Fault)

def load (operand : Operand) : Loaded :=
  match Files.readText operand.contents with
  | .error fault => .fault fault
  | .ok source =>
    match Script.parse source with
    | .ok script => .script script
    | .error error => .rejected source error

/-- A text without a script. -/
def rejection (source : Text) (error : ParseError) (files : Files) : Completed :=
  { ending := .exit 1, stdout := [],
    stderr := unlines [(text "Parse error: " ++ error.message source).plain], files }

/-- Prints a text without its control sequences, all of it or, if it has no UTF-8 form,
none. -/
def printTo (stdout t : Text) : Except Text Text :=
  match t.plain.encode? with
  | some _ => .ok (stdout ++ t.plain)
  | none => .error stdout

/-- Prints lines up to the first that has no UTF-8 form. -/
def printLines (lines : List Text) : Except Text Text :=
  lines.foldlM (fun stdout line => printTo stdout (line ++ [CodePoint.newline])) []

inductive Target where
  | stdout
  | file (path : Text)
deriving DecidableEq, Inhabited

/-- An empty path for output is none. -/
def targetOf (a : Arguments) (operand : Operand) : Target :=
  if a.has inPlaceOption then .file operand.path
  else match a.value? outputOption with
    | some (c :: rest) => .file (c :: rest)
    | _ => .stdout

def finalCode (r : Result) : Nat := if r.diagnostics.any (·.isError) then 1 else 0

def deliver (target : Target) (r : Result) (stderr : Text) (files : Files) : Completed :=
  match target with
  | .stdout =>
    match printTo [] r.code with
    | .ok stdout => { ending := .exit (finalCode r), stdout, stderr, files }
    | .error stdout => { ending := .fault .unencodable, stdout, stderr, files }
  | .file path =>
    match files.writeText path r.code with
    | (files, none) => { ending := .exit (finalCode r), stdout := [], stderr, files }
    | (files, some fault) => { ending := .fault fault, stdout := [], stderr, files }

/-- What checking says of a file that would change. -/
def pendingLine (name : Text) (r : Result) : Text :=
  name ++ text ": " ++ Text.ofNat r.rewritten ++ text " call(s) would be rewritten"

/-- Precompiles a script file. Diagnostics, behind the log if it is asked for, go to the
error output. Control sequences stay in the log. -/
def transformScript (a : Arguments) (settings : Settings) (operand : Operand) (files : Files)
    (script : Script) : Completed :=
  let name := Path.lastName operand.path
  let p := Precompiler.ofScript settings name script
  let r := p.result
  let log := if a.has verboseOption then p.log.map LogLine.shown else []
  let lines := log ++ r.diagnostics.map fun d => (name ++ text ": " ++ d.shown).plain
  if a.has checkOption then
    if r.changed then
      { ending := .exit 1, stdout := [],
        stderr := unlines (lines ++ [(pendingLine name r).plain]), files }
    else { ending := .exit 0, stdout := [], stderr := unlines lines, files }
  else deliver (targetOf a operand) r (unlines lines) files

/-- Whether a path for output was given. An empty one does not count. -/
def hasOutput (a : Arguments) : Bool :=
  match a.value? outputOption with
  | some (_ :: _) => true
  | _ => false

def runTransform (a : Arguments) (files : Files) : Except UsageError Completed := do
  checkOutput files a
  let operand ← onlyOperand files a
  if hasOutput a && a.has inPlaceOption then throw .conflict
  let settings ← settingsOf a
  return match load operand with
    | .script script => transformScript a settings operand files script
    | .rejected source error => rejection source error files
    | .fault fault => { ending := .fault fault, stdout := [], stderr := [], files }

def keyShown (s : Script) (e : Script.Entry) : Text :=
  match e.key with
  | some key => s.textAt key.span
  | none => text "..."

def selectorLine (s : Script) (x : Selector) : Text :=
  let static := if x.static.isEmpty then []
    else [text "static=" ++ Text.join (text ",") (x.static.map (·.1))]
  let dynamic := if x.dynamic.isEmpty then []
    else [text "dynamic=" ++ Text.join (text ",") (x.dynamic.map (keyShown s))]
  let verbatim := if x.verbatim then [text "(kept as written)"] else []
  Text.join (text "  ") <|
    [text "  " ++ x.name.getD (text "<computed>"), x.verdict.shown] ++ static ++ dynamic ++
      verbatim

/-- What was found at a call, behind an empty line. -/
def reportLines (s : Script) (r : CallReport) : List Text :=
  let heading := r.call.calleeName.getD [] ++ text "() at line " ++ Text.ofNat r.line ++
    text ", column " ++ Text.ofNat r.column
  [[], heading] ++
    match r.description, r.skipped? with
    | .ok d, _ => d.selectors.map (selectorLine s)
    | .error _, some reason => [text "  skipped: " ++ reason]
    | .error _, none => []

def inspectionLines (name : Text) (p : Precompiler) : List Text :=
  [text "Module: " ++ name, text "Calls:  " ++ Text.ofNat p.reports.length] ++
    p.reports.flatMap (reportLines p.script)

def runInspect (a : Arguments) (files : Files) : Except UsageError Completed := do
  let operand ← onlyOperand files a
  let settings ← settingsOf a
  return match load operand with
    | .script script =>
      let name := Path.lastName operand.path
      match printLines (inspectionLines name (.ofScript settings name script)) with
      | .ok stdout => { ending := .exit 0, stdout, stderr := [], files }
      | .error stdout => { ending := .fault .unencodable, stdout, stderr := [], files }
    | .rejected source error => rejection source error files
    | .fault fault => { ending := .fault fault, stdout := [], stderr := [], files }

def transformName : Text := text "transform"

def inspectName : Text := text "inspect"

/-- What help says of a program or a command: the words that call it, the arguments
behind them, and the lines that describe it. -/
structure Help where
  caller : Text
  arguments : Text
  description : List Text

namespace Help

def synopsis (h : Help) : Text := text "Usage: " ++ h.caller ++ text " " ++ h.arguments

def shown (h : Help) : Text := unlines ([h.synopsis, []] ++ h.description)

/-- What stands before a complaint. -/
def reminder (h : Help) : Text :=
  unlines [h.synopsis, text "Try '" ++ h.caller ++ text " --help' for help.", []]

end Help

def programHelp : Help where
  caller := text "stylefold"
  arguments := text "[OPTIONS] COMMAND [ARGS]..."
  description :=
    [text "  stylefold - precompile static JSS style sheets in JavaScript modules.", [],
     text "Options:",
     text "  --version  Show the version and exit.",
     text "  --help     Show this message and exit.", [],
     text "Commands:",
     text "  inspect    Parse a JavaScript file and display every recognized call.",
     text "  transform  Precompile the static parts of style-sheet calls in a..."]

def transformHelp : Help where
  caller := text "stylefold transform"
  arguments := text "[OPTIONS] JSFILE"
  description :=
    [text "  Precompile the static parts of style-sheet calls in a JavaScript file.", [],
     text "  The transformed module goes to stdout (or --output / --in-place); diagnostics",
     text "  about skipped calls go to stderr.", [],
     text "Options:",
     text "  -o, --output FILE      Write the transformed module here instead of stdout.",
     text "  --in-place             Overwrite JSFILE with the result.",
     text "  -i, --identifier TEXT  Call name to precompile (repeatable; default:",
     text "                         createStyleSheet).",
     text "  --prefix TEXT          Prefix for generated class names.",
     text "  --plugin TEXT          Built-in compiler plugin to run (repeatable, in order).",
     text "  --check                Write nothing; exit 1 if the module would change.",
     text "  -v, --verbose          Enable debug logging.",
     text "  --help                 Show this message and exit."]

def inspectHelp : Help where
  caller := text "stylefold inspect"
  arguments := text "[OPTIONS] JSFILE"
  description :=
    [text "  Parse a JavaScript file and display every recognized call.", [],
     text "  Shows each selector's verdict (static, mixed, dynamic) with its static and",
     text "  dynamic properties.  Nothing is compiled or written.", [],
     text "Options:",
     text "  -i, --identifier TEXT  Call name to look for (repeatable; default:",
     text "                         createStyleSheet).",
     text "  --help                 Show this message and exit."]

def versionText : Text := text "stylefold, version 0.1.0\n"

def say (t : Text) (files : Files) : Completed :=
  { ending := .exit 0, stdout := t, stderr := [], files }

def answerOption (given : Given) (files : Files) : Completed :=
  say (if given.option == versionOption then versionText else programHelp.shown) files

def complain (help : Help) (error : UsageError) (files : Files) : Completed :=
  { ending := .usage error, stdout := [],
    stderr := help.reminder ++ (text "Error: " ++ error.message).plain ++ [CodePoint.newline],
    files }

/-- Runs a command: its arguments are read, and help wins over everything else they say. -/
def runCommand (help : Help) (specs : List OptionSpec)
    (command : Arguments → Files → Except UsageError Completed) (arguments : List Text)
    (files : Files) : Completed :=
  let outcome : Except UsageError Completed := do
    let a ← Arguments.ofList specs true arguments
    if a.has helpOption then return say help.shown files else command a files
  match outcome with
  | .ok completed => completed
  | .error error => complain help error files

/-- Complains about a name that no command has. Behind two hyphens the name may still be
spelled like options; then these are followed. -/
def refuse (name : Text) (rest : List Text) (files : Files) : Completed :=
  match Arguments.ofList programOptions false (name :: rest) with
  | .error error => complain programHelp error files
  | .ok a =>
    match a.options with
    | given :: _ => answerOption given files
    | [] =>
      let similar := Text.similarTo name [inspectName, transformName]
      complain programHelp (.noSuchCommand name similar) files

def dispatch (name : Text) (arguments : List Text) (files : Files) : Completed :=
  if name == transformName then
    runCommand transformHelp transformOptions runTransform arguments files
  else if name == inspectName then
    runCommand inspectHelp inspectOptions runInspect arguments files
  else refuse name arguments files

/-- Runs the program. Called without any argument it complains by showing its help. -/
def run (arguments : List Text) (files : Files) : Completed :=
  if arguments.isEmpty then
    { ending := .usage .missingCommand, stdout := [], stderr := programHelp.shown, files }
  else match Arguments.ofList programOptions false arguments with
    | .error error => complain programHelp error files
    | .ok a =>
      match a.options, a.operands with
      | given :: _, _ => answerOption given files
      | [], [] => complain programHelp .missingCommand files
      | [], name :: rest => dispatch name rest files

end StyleSplit.CommandLine
