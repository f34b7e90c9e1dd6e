import StyleSplit.Text.Quoted
import StyleSplit.Text.Similarity

/-! The arguments of a command: options, which have a value or are switches, and
operands, in any order. A single hyphen may stand before several switches of one
letter; the value of an option may follow it directly or be the next argument; two
hyphens alone end the options. -/
namespace StyleSplit.CommandLine

/-- An option: its spellings of one letter and its long ones, hyphens included. -/
structure OptionSpec where
  letters : List Text
  words : List Text
  takesValue : Bool
deriving DecidableEq, Inhabited

/-- Why arguments do not fit a command. With an unknown option or command come those it
may have been meant to be. -/
inductive UsageError where
  | noSuchOption (spelling : Text) (similar : List Text)
  | missingValue (spelling : Text)
  | unexpectedValue (spelling : Text)
  | noSuchCommand (name : Text) (similar : List Text)
  | missingCommand
  | missingOperand (name : Text)
  | extraOperands (operands : List Text)
  | noSuchFile (parameter path : Text)
  | isDirectory (parameter path : Text)
  | conflict
  | settings (message : Text)
deriving DecidableEq, Inhabited

namespace UsageError

/-- What is offered in place of something unknown. -/
def offer : List Text → Text
  | [] => []
  | [choice] => text " Did you mean " ++ choice.quoted ++ text "?"
  | choices =>
    text " (Did you mean one of: " ++ Text.join (text ", ") (choices.map Text.quoted) ++
      text "?)"

def message : UsageError → Text
  | noSuchOption spelling similar =>
    text "No such option " ++ spelling.quoted ++ text "." ++ offer similar
  | missingValue spelling => text "Option " ++ spelling.quoted ++ text " requires an argument."
  | unexpectedValue spelling =>
    text "Option " ++ spelling.quoted ++ text " does not take a value."
  | noSuchCommand name similar =>
    text "No such command " ++ name.quoted ++ text "." ++ offer similar
  | missingCommand => text "Missing command."
  | missingOperand name => text "Missing argument '" ++ name ++ text "'."
  | extraOperands operands =>
    text (if operands.length == 1 then "Got unexpected extra argument ("
      else "Got unexpected extra arguments (") ++ Text.join (text " ") operands ++ text ")"
  | noSuchFile parameter path =>
    text "Invalid value for " ++ parameter ++ text ": File " ++ path.quoted ++
      text " does not exist."
  | isDirectory parameter path =>
    text "Invalid value for " ++ parameter ++ text ": File " ++ path.quoted ++
      text " is a directory."
  | conflict => text "--output and --in-place are mutually exclusive"
  | settings message => message

end UsageError

structure Given where
  option : OptionSpec
  value : Text
deriving DecidableEq, Inhabited

/-- The options and operands of a command, each in the order in which they were given. -/
structure Arguments where
  options : List Given
  operands : List Text
deriving DecidableEq, Inhabited

namespace Arguments

/-- The text before the first equals sign and the text behind it. -/
def splitValue (argument : Text) : Text × Option Text :=
  let word := argument.takeWhile (· != 61)
  match argument.dropWhile (· != 61) with
  | [] => (word, none)
  | _ :: value => (word, some value)

/-- Takes the value of an option from the arguments behind it. -/
def takeValue (spelling : Text) : List Text → Except UsageError (Text × List Text)
  | [] => .error (.missingValue spelling)
  | value :: rest => .ok (value, rest)

/-- The options of one letter in an argument, and the arguments left behind them. The
letters after an option with a value are its value. -/
def readLetters (specs : List OptionSpec) :
    Text → List Text → Except UsageError (List Given × List Text)
  | [], rest => .ok ([], rest)
  | letter :: letters, rest =>
    let spelling := [CodePoint.hyphen, letter]
    match specs.find? (·.letters.contains spelling) with
    | none => .error (.noSuchOption spelling [])
    | some option =>
      if option.takesValue then do
        let (value, rest) ← takeValue spelling (if letters.isEmpty then rest else letters :: rest)
        return ([⟨option, value⟩], rest)
      else do
        let (given, rest) ← readLetters specs letters rest
        return (⟨option, []⟩ :: given, rest)

/-- The options in an argument that starts with a hyphen. -/
def readOption (specs : List OptionSpec) (argument : Text) (rest : List Text) :
    Except UsageError (List Given × List Text) :=
  let (word, value) := splitValue argument
  match specs.find? (·.words.contains word) with
  | none =>
    if (text "--").isPrefixOf argument then
      .error (.noSuchOption word (Text.similarTo word (specs.flatMap (·.words))))
    else readLetters specs (argument.drop 1) rest
  | some option =>
    match option.takesValue, value with
    | true, some value => .ok ([⟨option, value⟩], rest)
    | true, none => do
      let (value, rest) ← takeValue word rest
      return ([⟨option, value⟩], rest)
    | false, some _ => .error (.unexpectedValue word)
    | false, none => .ok ([⟨option, []⟩], rest)

/-- Whether an argument holds options. A hyphen alone does not. -/
def isOption (argument : Text) : Bool :=
  match argument with
  | 45 :: _ :: _ => true
  | _ => false

/-- Reads arguments. Unless `mixed` is set, the first operand ends the options. Every
step takes at least one argument, so their number is enough fuel. -/
def read (specs : List OptionSpec) (mixed : Bool) :
    Nat → List Text → Except UsageError Arguments
  | 0, arguments => .ok ⟨[], arguments⟩
  | _ + 1, [] => .ok ⟨[], []⟩
  | fuel + 1, argument :: rest =>
    if argument == text "--" then .ok ⟨[], rest⟩
    else if isOption argument then do
      let (given, rest) ← readOption specs argument rest
      let more ← read specs mixed fuel rest
      return { more with options := given ++ more.options }
    else if mixed then do
      let more ← read specs mixed fuel rest
      return { more with operands := argument :: more.operands }
    else .ok ⟨[], argument :: rest⟩

def ofList (specs : List OptionSpec) (mixed : Bool) (arguments : List Text) :
    Except UsageError Arguments :=
  read specs mixed arguments.length arguments

def has (a : Arguments) (option : OptionSpec) : Bool := a.options.any (·.option == option)

def values (a : Arguments) (option : OptionSpec) : List Text :=
  (a.options.filter (·.option == option)).map (·.value)

/-- The value of an option, the last one if it was given more than once. -/
def value? (a : Arguments) (option : OptionSpec) : Option Text := (a.values option).getLast?

end Arguments

end StyleSplit.CommandLine
