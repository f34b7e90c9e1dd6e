import StyleSplit.Script.Derivation

/-! A chart parser for any grammar, ambiguous and left recursive ones included. Column
`i` of the chart holds the productions that may be under way, or done, after `i`
tokens. Each item carries a derivation of what it has found. When several are found,
the one whose priorities have the greatest sum is kept; then the production that comes
first in the grammar; then the derivation that was found first, where the item last
found is followed up first. -/
namespace StyleSplit.Script

/-- A production of which the symbols before `rest` have been found, from token `start`
on. The trees found are kept last first, with the sum of their priorities. -/
structure Item where
  production : Production
  dot : Nat
  rest : List Symbol
  start : Nat
  found : List Tree
  priority : Int
deriving Inhabited

namespace Item

/-- Items of one column that stand for the same thing. Of finished productions only the
head matters. -/
def same (a b : Item) : Bool :=
  Nat.beq a.start b.start && a.production.head == b.production.head &&
    match a.rest, b.rest with
    | [], [] => true
    | _ :: _, _ :: _ => Nat.beq a.dot b.dot && Nat.beq a.production.order b.production.order
    | _, _ => false

def awaits (i : Item) (n : Nonterminal) : Bool :=
  match i.rest with
  | .nonterminal m :: _ => m == n
  | _ => false

def reads (i : Item) (t : Terminal) : Bool :=
  match i.rest with
  | .terminal u :: _ => u == t
  | _ => false

def tree (i : Item) : Tree := .node i.production i.found.reverse

def begin (start : Nat) (p : Production) : Item :=
  { production := p, dot := 0, rest := p.body, start, found := [],
    priority := if p.body.isEmpty then p.priority else 0 }

def advance (i : Item) (t : Tree) (priority : Int) : Item :=
  let rest := i.rest.tail
  let sum := i.priority + priority
  { i with
    dot := i.dot + 1
    rest
    found := t :: i.found
    priority := if rest.isEmpty then sum + i.production.priority else sum }

end Item

/-- What an item has found last: a token, or the finished item of a production. -/
inductive Piece where
  | token (t : Token)
  | whole (i : Item)

/-- One way to come to an item: the item before its last step and what that step found. -/
structure Step where
  left : Item
  right : Piece

namespace Step

/-- Two ways to the same item differ in the production or in where the last part
starts. -/
def same (a b : Step) : Bool :=
  a.left.production.order == b.left.production.order &&
    match a.right, b.right with
    | .token _, .token _ => true
    | .whole a, .whole b => a.start == b.start
    | _, _ => false

def item (s : Step) : Item :=
  match s.right with
  | .token t => s.left.advance (.leaf t) 0
  | .whole i => s.left.advance i.tree i.priority

end Step

/-- An item that has found something, and the ways to come to it in the order in which
they were found. -/
structure Ways where
  item : Item
  steps : List Step

/-- A finished column: the items that wait for a nonterminal and those that wait for a
terminal, each in the order in which they were found. -/
structure Column where
  active : List Item
  waiting : List Item
deriving Inhabited

/-- A column under construction: the items still to follow up, the last found first; the
items that wait, last found first; the items that have found something; the nonterminals
looked for here; and the items that are finished without a token. -/
structure Draft where
  agenda : List Item
  active : List Item
  waiting : List Item
  ways : List Ways
  predicted : NonterminalSet
  empty : List Item

namespace Draft

def start : Draft :=
  { agenda := [], active := [], waiting := [], ways := [], predicted := .empty, empty := [] }

/-- Notes a new item by the symbol it waits for. -/
def push (d : Draft) (i : Item) : Draft :=
  match i.rest with
  | .terminal _ :: _ => { d with waiting := i :: d.waiting }
  | .nonterminal _ :: _ => { d with active := i :: d.active, agenda := i :: d.agenda }
  | [] => { d with agenda := i :: d.agenda }

/-- Adds a way to the item it leads to, if that item is there. -/
def addStep (item : Item) (s : Step) : List Ways → Option (List Ways)
  | [] => none
  | w :: rest =>
    if w.item.same item then
      if w.steps.any s.same then some (w :: rest)
      else some ({ w with steps := w.steps ++ [s] } :: rest)
    else (addStep item s rest).map (w :: ·)

/-- Takes a step: notes the way, and the item when it is new. -/
def take (d : Draft) (s : Step) : Draft :=
  let item := s.item
  match addStep item s d.ways with
  | some ways => { d with ways }
  | none => { d with ways := { item, steps := [s] } :: d.ways }.push item

/-- Looks for nonterminals at a place: notes their productions, unless those have been
looked for here. -/
def predict (g : Grammar) (here : Nat) (d : Draft) (heads : List Nonterminal) : Draft :=
  let (fresh, predicted) := d.predicted.addAll heads
  let productions := fresh.flatMap g.productions
  (productions.map (Item.begin here)).foldl push { d with predicted }

/-- Follows up a finished item: every item that waits for it where it starts makes a
step. -/
def complete (columns : Array Column) (here : Nat) (d : Draft) (i : Item) : Draft :=
  let waiting :=
    if i.start == here then d.active.reverse
    else match columns[i.start]? with
      | some column => column.active
      | none => []
  let fitting := waiting.filter (·.awaits i.production.head)
  let d := if i.start == here then { d with empty := i :: d.empty } else d
  (fitting.map fun w => { left := w, right := .whole i }).foldl take d

/-- Follows up an item that waits for a nonterminal. When that nonterminal has been
finished without a token, the item makes its step at once. -/
def look (g : Grammar) (here : Nat) (d : Draft) (i : Item) (n : Nonterminal) : Draft :=
  let d := if d.predicted.contains n then d else d.predict g here (g.corners n)
  match d.empty.find? (·.production.head == n) with
  | some e => d.take { left := i, right := .whole e }
  | none => d

def close (g : Grammar) (columns : Array Column) (here : Nat) : Nat → Draft → Draft
  | 0, d => d
  | fuel + 1, d =>
    match d.agenda with
    | [] => d
    | i :: agenda =>
      let d := { d with agenda }
      close g columns here fuel <|
        match i.rest with
        | [] => d.complete columns here i
        | .nonterminal n :: _ => d.look g here i n
        | .terminal _ :: _ => d

def better (a b : Item) : Bool :=
  b.priority < a.priority ||
    (a.priority == b.priority && a.production.order < b.production.order)

/-- The better of two derivations, the first one if neither is better. -/
def choose : Option Item → Item → Option Item
  | none, i => some i
  | some best, i => if better i best then some i else some best

/-- The item with the best of the derivations that the column `here` holds for it, and
the items settled so far with it. A step by something without a token stays in the
column, and so does the item before it. Should the ways run in a circle, the derivation
that was found first ends it. -/
def settle (here : Nat) (ways : List Ways) : Nat → Item → List Item → Item × List Item
  | 0, i, settled => (i, settled)
  | fuel + 1, i, settled =>
    match settled.find? i.same with
    | some best => (best, settled)
    | none =>
      match ways.find? (·.item.same i) with
      | none => (i, settled)
      | some w =>
        let (best, settled) := w.steps.foldl
          (fun (best, settled) s =>
            match s.right with
            | .token _ => (choose best s.item, settled)
            | .whole right =>
              let (left, settled) :=
                if right.start == here then settle here ways fuel s.left settled
                else (s.left, settled)
              let (right, settled) := settle here ways fuel right settled
              (choose best { left, right := .whole right : Step }.item, settled))
          (none, settled)
        let best := best.getD i
        (best, best :: settled)

/-- Settles items in turn. An item that has found nothing has nothing to choose from. -/
def settleAll (here : Nat) (ways : List Ways) (items : List Item) (settled : List Item) :
    List Item × List Item :=
  match items with
  | [] => ([], settled)
  | i :: rest =>
    if i.found.isEmpty then
      let (done, settled) := settleAll here ways rest settled
      (i :: done, settled)
    else
      let (best, settled) := settle here ways (ways.length + 1) i settled
      let (done, settled) := settleAll here ways rest settled
      (best :: done, settled)

def column (d : Draft) (here : Nat) : Column :=
  let (active, settled) := settleAll here d.ways d.active.reverse []
  let (waiting, _) := settleAll here d.ways d.waiting.reverse settled
  { active, waiting }

/-- The derivation of a nonterminal from all tokens so far, if the draft has one. -/
def whole? (d : Draft) (here : Nat) (n : Nonterminal) : Option Tree :=
  let wanted := fun i : Item => i.rest.isEmpty && i.production.head == n && i.start == 0
  match (d.ways.map Ways.item ++ d.empty).find? wanted with
  | some i => some (settle here d.ways (d.ways.length + 1) i []).1.tree
  | none => none

end Draft

/-- The steps over a token by the items that wait for it. -/
def Column.read (c : Column) (t : Token) : Draft :=
  let fitting := c.waiting.filter (·.reads t.terminal)
  (fitting.map fun i => { left := i, right := .token t : Step }).foldl Draft.take Draft.start

/-- Why a list of tokens has no derivation: the first token that cannot follow those
before it, or the end of the list. -/
inductive Rejection where
  | token (t : Token)
  | ending
deriving Inhabited

namespace Grammar

/-- Reads tokens from column `here` on, given the columns before it. -/
def derive (g : Grammar) (places : Nat) :
    Array Column → Nat → Draft → List Token → Except Rejection Tree
  | columns, here, d, tokens =>
    let d := d.close g columns here (places * (here + 1))
    match tokens with
    | [] =>
      match d.whole? here g.start with
      | some tree => .ok tree
      | none => .error .ending
    | t :: rest =>
      let column := d.column here
      let next := column.read t
      if next.ways.isEmpty then .error (.token t)
      else derive g places (columns.push column) (here + 1) next rest

def parse (g : Grammar) (tokens : List Token) : Except Rejection Tree :=
  g.derive g.places #[] 0 (Draft.start.predict g 0 (g.corners g.start)) tokens

end Grammar

end StyleSplit.Script
