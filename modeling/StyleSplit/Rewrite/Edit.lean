import StyleSplit.Span

/-! Edits: replacements of spans of a text, applied together. -/
namespace StyleSplit

/-- The replacement of the text at a span. -/
structure Edit where
  span : Span
  text : Text
deriving DecidableEq, Inhabited

namespace Edit

/-- The order by span, then by the new text. -/
def before (a b : Edit) : Bool :=
  a.span.before b.span || (a.span == b.span && Text.before a.text b.text)

/-- Puts an edit behind those in sorted order that are not after it. -/
def insert (e : Edit) : List Edit → List Edit
  | [] => [e]
  | first :: rest => if e.before first then e :: first :: rest else first :: insert e rest

def sort (edits : List Edit) : List Edit := edits.foldl (fun sorted e => insert e sorted) []

/-- The text from `position` on, with edits in order applied. An edit that starts before
the end of the one before it cannot be applied; the result is then its start. -/
def splice (source : Text) : Nat → List Edit → Except Nat Text
  | position, [] => .ok (source.drop position)
  | position, e :: rest =>
    if e.span.start < position then .error e.span.start
    else do
      return source.slice position e.span.start ++ e.text ++
        (← splice source e.span.stop rest)

/-- The text with all edits applied, in whatever order they are given. -/
def apply (source : Text) (edits : List Edit) : Except Nat Text := splice source 0 (sort edits)

def overlapMessage (offset : Nat) : Text :=
  StyleSplit.text "Overlapping edit at offset " ++ Text.ofNat offset

end Edit

end StyleSplit
