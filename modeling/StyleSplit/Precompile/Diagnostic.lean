import StyleSplit.Text.Basic

/-! Diagnostics: what is said about a call that was skipped. -/
namespace StyleSplit

inductive Severity where
  | error | warning | info
deriving DecidableEq, Repr, Inhabited

def Severity.shown : Severity → Text
  | error => text "ERROR"
  | warning => text "WARNING"
  | info => text "INFO"

/-- A finding about one call: the condition behind it, how serious it is, and where the
call stands if that is known. -/
structure Diagnostic where
  rule : Text
  severity : Severity
  message : Text
  line : Option Nat
  column : Option Nat
deriving DecidableEq, Inhabited

namespace Diagnostic

def isError (d : Diagnostic) : Bool := d.severity == .error

def isWarning (d : Diagnostic) : Bool := d.severity == .warning

def place (d : Diagnostic) : Text :=
  match d.line with
  | none => []
  | some line =>
    let column := match d.column with
      | some column => Text.ofNat column
      | none => text "None"
    text " [line " ++ Text.ofNat line ++ text ", column " ++ column ++ text "]"

def shown (d : Diagnostic) : Text := d.severity.shown ++ d.place ++ text ": " ++ d.message

end Diagnostic

end StyleSplit
