import StyleSplit.Rewrite.Call
import StyleSplit.Rewrite.Edit
import StyleSplit.Rewrite.Layout
import StyleSplit.Sheet.Description

/-! Rewriting a call: the static part of its style description is replaced by compiled
text, and the class names go into the options, its second argument. -/
namespace StyleSplit

open Script

namespace Selector

/-- The key of a selector in the rewritten description. A computed key is written as the
name it stands for. -/
def keyText (s : Script) (selector : Selector) : Text :=
  if selector.entry.computed then stringLiteral (selector.name.getD [])
  else match selector.entry.key with
    | some key => s.textAt key.span
    | none => []

/-- The entry that is left of a selector in the rewritten description. -/
def residue? (s : Script) (indent : Text) (selector : Selector) : Option Text :=
  match selector.verdict with
  | .static => none
  | .dynamic => some (s.textAt selector.entry.span)
  | .mixed =>
    some (selector.keyText s ++ text ": " ++
      layoutMapping (selector.dynamic.map fun e => s.textAt e.span) (indent ++ indentation))

end Selector

namespace Call

/-- The rewritten style description: the compiled text, if any, and what is left. -/
def descriptionText (s : Script) (description : Description) (sheet : Sheet) (indent : Text) :
    Text :=
  let raw := if sheet.rawText.isEmpty then []
    else [layoutEntry rawKey (stringLiteral sheet.rawText)]
  layoutMapping (raw ++ description.selectors.filterMap (Selector.residue? s indent)) indent

/-- Whether an entry sets the class names. Computed keys are not looked into. -/
def setsClasses (e : Entry) : Bool :=
  !e.computed &&
    match e.key with
    | some (.literal _ (.text key)) => key == classesKey
    | _ => false

def classesText (sheet : Sheet) (indent : Text) : Text :=
  layoutEntry classesKey <|
    layoutMapping (sheet.classes.map fun (name, identifier) =>
      layoutEntry name (stringLiteral identifier)) (indent ++ indentation)

/-- The rewritten options. The entries of an object literal stay; anything else is
spread. -/
def optionsText (s : Script) (options : Option Expr) (sheet : Sheet) (indent : Text) :
    Except Malformed Text :=
  let classes := classesText sheet indent
  match options with
  | none => .ok (layoutMapping [classes] indent)
  | some e =>
    if e.isAbsent then .ok (layoutMapping [classes] indent)
    else match e with
      | .mapping _ entries =>
        match entries.find? setsClasses with
        | some taken => .error (.classesTaken taken.span)
        | none => .ok (layoutMapping (entries.map (fun e => s.textAt e.span) ++ [classes]) indent)
      | e => .ok (layoutMapping [text "..." ++ s.textAt e.span, classes] indent)

/-- A description that is not a reference stands in the call itself. -/
def isInline : Expr → Bool
  | .identifier .. => false
  | _ => true

/-- The edits that rewrite a call: of the object literal that its first argument refers
to, unless an earlier call has seen to that, and of its arguments. Without classes there
is nothing to rewrite. -/
def rewrite (s : Script) (c : Call) (description : Description) (sheet : Sheet)
    (rewriteDeclaration : Bool) : Except Malformed (List Edit) :=
  if sheet.isEmpty then .ok []
  else match c.arguments with
    | [] => .ok []
    | first :: more => do
      let indent := s.source.lineIndent c.argumentsSpan.start
      let declared := s.source.lineIndent description.span.start
      let declaration :=
        if isInline first || !rewriteDeclaration then []
        else [⟨description.span, descriptionText s description sheet declared⟩]
      let firstText :=
        if isInline first then descriptionText s description sheet indent
        else s.textAt first.span
      let options ← optionsText s more.head? sheet indent
      let rest := more.tail.map fun e => s.textAt e.span
      let arguments := text "(" ++ Text.join (text ", ") (firstText :: options :: rest) ++ text ")"
      return declaration ++ [⟨c.argumentsSpan, arguments⟩]

end Call

end StyleSplit
