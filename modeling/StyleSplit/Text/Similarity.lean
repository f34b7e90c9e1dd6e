import StyleSplit.Text.Basic

/-! How alike two texts are. Their longest common block is matched first, then what
stands before it on both sides and what stands behind it, and so on. Two texts are
similar when at least three fifths of their code points belong to matched blocks. -/
namespace StyleSplit.Text

/-- The length of the common start of two texts. -/
def commonStart : Text → Text → Nat
  | c :: s, d :: t => if c == d then commonStart s t + 1 else 0
  | _, _ => 0

/-- A block that two texts have in common: where it starts in each, and its length. -/
structure Block where
  left : Nat
  right : Nat
  length : Nat
deriving DecidableEq, Repr, Inhabited

namespace Block

/-- Of two blocks the longer one, the first if they are equally long. -/
def longer (a b : Block) : Block := if a.length < b.length then b else a

/-- The longest block at the start of `s`, which stands at `left`, and anywhere in `t`,
which stands at `right`; the first one if there are several. -/
def atStart (left : Nat) (s : Text) : Nat → Text → Block
  | right, [] => ⟨left, right, 0⟩
  | right, d :: t =>
    longer ⟨left, right, commonStart s (d :: t)⟩ (atStart left s (right + 1) t)

/-- The longest block of `s`, which stands at `left`, and `t`; of several the one that
starts first in `s`, then in `t`. -/
def longest (t : Text) : Nat → Text → Block
  | left, [] => ⟨left, 0, 0⟩
  | left, c :: s => longer (atStart left (c :: s) 0 t) (longest t (left + 1) s)

end Block

/-- The number of matched code points of two texts. Each block makes the rest of the first
text shorter, so its length is enough fuel. -/
def matchedWithin : Nat → Text → Text → Nat
  | 0, _, _ => 0
  | fuel + 1, s, t =>
    let b := Block.longest t 0 s
    if b.length == 0 then 0
    else
      matchedWithin fuel (s.take b.left) (t.take b.right) + b.length +
        matchedWithin fuel (s.drop (b.left + b.length)) (t.drop (b.right + b.length))

def matched (s t : Text) : Nat := matchedWithin s.length s t

/-- A text that was compared with a word, and how much of both was matched: twice the
matched code points out of all. -/
structure Likeness where
  text : Text
  matched : Nat
  total : Nat

namespace Likeness

def ofPair (word t : Text) : Likeness :=
  { text := t, matched := 2 * Text.matched t word, total := t.length + word.length }

/-- Whether at least three fifths are matched. -/
def isClose (a : Likeness) : Bool := Nat.ble (3 * a.total) (5 * a.matched)

/-- The order by likeness, greatest first; of texts equally alike the last one in the
order of texts comes first. -/
def before (a b : Likeness) : Bool :=
  Nat.blt (b.matched * a.total) (a.matched * b.total) ||
    (a.matched * b.total == b.matched * a.total && Text.before b.text a.text)

end Likeness

/-- Puts an element into a sorted list, behind those that are not after it. -/
def insertSorted {α : Type} (before : α → α → Bool) (a : α) : List α → List α
  | [] => [a]
  | b :: rest => if before a b then a :: b :: rest else b :: insertSorted before a rest

def sorted {α : Type} (before : α → α → Bool) (as : List α) : List α :=
  as.foldl (fun done a => insertSorted before a done) []

/-- At most this many similar texts are offered. -/
def offerLimit : Nat := 3

/-- The texts most similar to a word, in the order of texts. -/
def similarTo (word : Text) (choices : List Text) : List Text :=
  let close := (choices.map (Likeness.ofPair word)).filter (·.isClose)
  let best := (sorted Likeness.before close).take offerLimit
  sorted Text.before (best.map (·.text))

end StyleSplit.Text
