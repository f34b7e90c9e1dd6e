import StyleSplit.Scope.Table

/-! Following references: the expression that an identifier stands for, found through
the declarations of one script, or the reason why it is not known from that script
alone. -/
namespace StyleSplit

open Script

inductive UnresolvedReason where
  | circular | undeclared | imported | bound | class_ | reassigned | uninitialized | early
deriving DecidableEq, Repr, Inhabited

def UnresolvedReason.message : UnresolvedReason → Text
  | circular => text "circular reference"
  | undeclared => text "not declared in this module"
  | imported => text "imported from another module"
  | bound => text "bound by a parameter or destructuring pattern"
  | class_ => text "a class"
  | reassigned => text "reassigned"
  | uninitialized => text "declared without an initializer"
  | early => text "used before its declaration"

inductive Resolution where
  | resolved (e : Expr)
  | unresolved (name : Text) (reason : UnresolvedReason)

namespace ScopeTable

/-- One step along a reference: the initial value of the declaration behind an
identifier. Only a function may be used before its declaration ends. -/
def step (t : ScopeTable) (span : Span) (name : Text) : Except UnresolvedReason Expr :=
  match t.lookup span name with
  | none => .error .undeclared
  | some b =>
    match b.kind with
    | .import_ => .error .imported
    | .parameter => .error .bound
    | .class_ => .error .class_
    | .const | .let_ | .var | .function =>
      if b.reassigned then .error .reassigned
      else match b.init with
        | none => .error .uninitialized
        | some init =>
          if b.kind != .function && span.start < b.span.stop then .error .early
          else .ok init

/-- Follows identifiers that have not been `seen` on the way. -/
def follow (t : ScopeTable) : Nat → List Span → Expr → Resolution
  | fuel, seen, .identifier span name =>
    match fuel with
    | 0 => .unresolved name .circular
    | fuel + 1 =>
      if seen.contains span then .unresolved name .circular
      else match t.step span name with
        | .ok init => follow t fuel (span :: seen) init
        | .error reason => .unresolved name reason
  | _, _, e => .resolved e

/-- The expression that another one stands for: itself unless it is an identifier. An
identifier whose use is not recorded is not declared, so a chain is no longer than the
number of uses. -/
def resolve (t : ScopeTable) (e : Expr) : Resolution := t.follow (t.uses.length + 1) [] e

end ScopeTable

end StyleSplit
