import StyleSplit.Text.Basic

/-! Control sequences of terminals: an escape character and an opening bracket, then
parameters, then intermediate characters, then one final character. Where output does not
go to a terminal they are left out. -/
namespace StyleSplit

namespace CodePoint

/-- Parameters of a control sequence: digits and some marks. -/
def isParameter (c : CodePoint) : Bool := Nat.ble 0x30 c && Nat.ble c 0x3F

/-- What may stand between the parameters and the final character. -/
def isIntermediate (c : CodePoint) : Bool := Nat.ble 0x20 c && Nat.ble c 0x2F

/-- What ends a control sequence. -/
def isFinal (c : CodePoint) : Bool := Nat.ble 0x40 c && Nat.ble c 0x7E

end CodePoint

namespace Text

/-- The text behind a control sequence whose opening bracket has been read. The classes of
characters are disjoint, so there is only one way to read it. -/
def behindSequence? (t : Text) : Option Text :=
  match (t.dropWhile CodePoint.isParameter).dropWhile CodePoint.isIntermediate with
  | c :: rest => if c.isFinal then some rest else none
  | [] => none

/-- The text behind the control sequence at its front, if there is one. -/
def skipSequence? : Text → Option Text
  | 0x1B :: 0x5B :: rest => behindSequence? rest
  | _ => none

/-- Leaves out the control sequences, read from left to right. Each step takes at least one
code point, so the length of the text is enough fuel. -/
def plainWithin : Nat → Text → Text
  | 0, t => t
  | _ + 1, [] => []
  | fuel + 1, c :: rest =>
    match skipSequence? (c :: rest) with
    | some behind => plainWithin fuel behind
    | none => c :: plainWithin fuel rest

def plain (t : Text) : Text := plainWithin t.length t

end Text

end StyleSplit
