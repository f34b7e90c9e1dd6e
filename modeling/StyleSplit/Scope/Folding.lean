import StyleSplit.Scope.Resolution

/-! Folding of expressions to static values. A value is known when every part of it is a
literal, an array or an object of known values, or refers to one; any function, call or
other expression in it leaves it unknown. -/
namespace StyleSplit

open Script

/-- Why an expression was not folded: its value is not known, or the fuel ran out. -/
inductive Unfolded where
  | dynamic
  | exhausted
deriving DecidableEq, Repr, Inhabited

namespace ScopeTable

/-- The name that a literal gives as a key: a text its own, a number its written form. -/
def keyOfScalar : Scalar → Option Text
  | .text value => some value
  | .number value => some value.written
  | .bool _ | .null => none

def keyName (t : ScopeTable) (entry : Entry) : Option Text :=
  match entry.key with
  | none => none
  | some key =>
    let target := if entry.computed then t.resolve key else .resolved key
    match target with
    | .resolved (.literal _ value) => keyOfScalar value
    | _ => none

/-- The value of an expression, with a bound on how deep arrays, objects and references
nest. A key that comes again keeps its first place and takes the last value. -/
def fold (t : ScopeTable) : Nat → Expr → Except Unfolded Value
  | 0, _ => .error .exhausted
  | fuel + 1, e =>
    match t.resolve e with
    | .unresolved .. => .error .dynamic
    | .resolved (.literal _ value) => .ok (.scalar value)
    | .resolved (.list _ items) => do return .list (← items.mapM (fold t fuel))
    | .resolved (.mapping _ entries) => do
      let pairs ← entries.mapM fun entry =>
        match t.keyName entry with
        | none => .error .dynamic
        | some name => do return (name, ← fold t fuel entry.value)
      return .record (collectEntries pairs)
    | .resolved _ => .error .dynamic

/-- The value of an expression if it is known. Nothing nests deeper than the script has
nodes. -/
def evaluate (t : ScopeTable) (e : Expr) : Option Value :=
  match t.fold (t.size + 1) e with
  | .ok value => some value
  | .error _ => none

end ScopeTable

end StyleSplit
