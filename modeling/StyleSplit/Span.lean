import StyleSplit.Text.Basic

/-! Spans: the half-open ranges of offsets at which the parts of a text stand. -/
namespace StyleSplit

/-- The offsets from `start` up to, and without, `stop`. -/
structure Span where
  start : Nat
  stop : Nat
deriving DecidableEq, Repr, Inhabited

namespace Span

/-- Each span starts before the other one stops. -/
def overlaps (a b : Span) : Bool := a.start < b.stop && b.start < a.stop

/-- The order by start, then by stop. -/
def before (a b : Span) : Bool := a.start < b.start || (a.start == b.start && a.stop < b.stop)

def of (s : Span) (t : Text) : Text := t.slice s.start s.stop

end Span

end StyleSplit
