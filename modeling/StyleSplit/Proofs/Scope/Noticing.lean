import StyleSplit.Proofs.Scope.Reassigning
import StyleSplit.Proofs.Script.Keeping
import StyleSplit.Proofs.Script.Nesting

/-! Which writes to a variable are noticed. The scopes of a script are made from its tree, so a
write counts if and only if the tree shows it: whatever gives a value to a name and is not made
into names itself stands in some scope, and if the variable is seen from there, no reference to
the variable has a value. A write that only stands in a default value of a parameter, of a
shorthand entry or of a pattern is lost. -/
namespace StyleSplit

open Script

namespace ScopeTable

variable {t : ScopeTable} {place : Span} {name : Text} {b : Binding}

/-- A reference to something reassigned has no value. -/
theorem resolve_reassigned (found : t.lookup place name = some b) (marked : b.reassigned = true) :
    ∃ reason, t.resolve (.identifier place name) = .unresolved name reason := by
  obtain ⟨reason, stopped⟩ : ∃ reason, t.step place name = .error reason := by
    simp only [step, found, marked, if_true]
    split <;> exact ⟨_, rfl⟩
  exact ⟨reason, by simp [resolve, follow, stopped]⟩

end ScopeTable

namespace Script

variable {source : Text} {s : StyleSplit.Script} {whole : Tree} {w : Expr} {id : Nat} {name : Text}

/-- What stands inside something that a walk comes by is come by as well. -/
theorem walk_held {n inner : Node} (held : n.Holds inner) (walked : n ∈ s.walk) :
    inner ∈ s.walk := by
  induction held with
  | self => exact walked
  | inside child _ ih => exact ih (walk_child walked child)

/-- A script's tree holds a write if and only if some part of the derivation writes so that is
not made into names. -/
theorem mem_walk_iff_kept (parsed : parse source = .ok s) (derived : derive source = .ok whole)
    (writes : w.assigns ≠ []) :
    .expr w ∈ s.walk ↔ ∃ part : Tree, part.Kept whole ∧ part.Yields w := by
  obtain ⟨valid, symbol, -⟩ := derive_ok derived
  obtain ⟨a, made, rfl⟩ := parse_assembled parsed derived
  rw [← Tree.shows_iff_kept valid made writes, Tree.shows_iff_made made]
  constructor
  · intro walked
    obtain ⟨statement, listed, held⟩ := mem_walk walked
    obtain ⟨f, known, same⟩ := List.mem_filterMap.mp listed
    cases f <;> cases same
    exact ⟨_, known, held⟩
  · rintro ⟨f, known, shows⟩
    obtain ⟨form, member, fits⟩ := Tree.assemble_formed valid made _ symbol
    obtain rfl := List.mem_singleton.mp member
    have only : Form.among [.stmt] [.many [.stmt]] = true := rfl
    obtain ⟨role, listed, fits⟩ := fits.among only f known
    obtain rfl := List.mem_singleton.mp listed
    cases fits with
    | stmt statement =>
      exact walk_held shows (walk_statement (List.mem_filterMap.mpr ⟨_, known, rfl⟩))

/-- Something that is not made into names writes to a variable: to the name that the scope of a
number declares, from where this declaration of it is seen. -/
def Overwritten (s : StyleSplit.Script) (whole : Tree) (id : Nat) (name : Text) : Prop :=
  ∃ (part : Tree) (w : Expr) (k : Nat), part.Kept whole ∧ part.Yields w ∧ name ∈ w.assigns ∧
    s.Stands (.expr w) k ∧ ScopeTable.declaring? s.scopeTable.scopes k name = some id

theorem stands_of_walk {n : Node} (walked : n ∈ s.walk) : ∃ k, s.Stands n k := by
  rw [← places_walk] at walked
  obtain ⟨p, member, node⟩ := List.mem_map.mp walked
  exact ⟨p.outer, p, member, node, rfl⟩

theorem walk_of_stands {n : Node} {k : Nat} (stands : s.Stands n k) : n ∈ s.walk := by
  obtain ⟨p, member, node, -⟩ := stands
  rw [← places_walk]
  exact node ▸ List.mem_map_of_mem member

theorem assigns_iff_overwritten (parsed : parse source = .ok s)
    (derived : derive source = .ok whole) : s.Assigns id name ↔ s.Overwritten whole id name := by
  constructor
  · rintro ⟨span, children, assigns, own, k, stands, listed, seen⟩
    have writes : (Expr.other span children assigns own).assigns ≠ [] := List.ne_nil_of_mem listed
    obtain ⟨part, kept, yields⟩ :=
      (mem_walk_iff_kept parsed derived writes).mp (walk_of_stands stands)
    exact ⟨part, _, k, kept, yields, listed, stands, seen⟩
  · rintro ⟨part, w, k, -, -, listed, stands, seen⟩
    cases w with
    | other => exact ⟨_, _, _, _, k, stands, listed, seen⟩
    | _ => cases listed

/-- A variable that is declared once is marked if and only if something assigns to it. -/
theorem reassigned_iff_assigns {place : Span} {d : Declaration}
    (seen : s.scopeTable.declaringAt? place name = some id)
    (once : s.declarationsOf id name = [d]) :
    ∃ b, s.scopeTable.lookup place name = some b ∧ (b.reassigned = true ↔ s.Assigns id name) := by
  obtain ⟨⟨_, k⟩, -, declared⟩ := Option.bind_eq_some_iff.mp seen
  have declared := (ScopeTable.declaring?_eq s.scopeTable k name).symm.trans declared
  have declares : s.scopeTable.declares name id = true := List.find?_some declared
  obtain ⟨scope, found, -⟩ := (Option.any_eq_true _ _).mp declares
  rw [ScopeTable.lookup_eq_declaring, seen, Option.bind_some, found, Option.bind_some]
  obtain ⟨empty, names, none, assigned, rfl⟩ := scopes_scopeTable found
  rw [declarationsOf] at once
  rw [Scope.find?_reassignAll, Scope.find?_declarations none, once, ← assigned]
  exact ⟨_, rfl, by simp⟩

/-- Which writes are noticed. Whatever gives a value to a name, and stands in nothing that is made
into names, writes to it from some scope of the script. A variable that is declared once counts
as reassigned if and only if such a write sees its declaration, and then no reference to the
variable has a value. -/
theorem kept_writes_noticed (parsed : parse source = .ok s) (derived : derive source = .ok whole)
    {d : Declaration} (once : s.declarationsOf id name = [d]) :
    (∀ part : Tree, part.Kept whole → name ∈ part.overwritten →
      ∃ w k, part.Yields w ∧ name ∈ w.assigns ∧ s.Stands (.expr w) k) ∧
    ∀ place, s.scopeTable.declaringAt? place name = some id →
      ∃ b, s.scopeTable.lookup place name = some b ∧
        (b.reassigned = true ↔ s.Overwritten whole id name) ∧
        (s.Overwritten whole id name →
          ∃ reason, s.scopeTable.resolve (.identifier place name) = .unresolved name reason) := by
  obtain ⟨valid, -⟩ := derive_ok derived
  obtain ⟨a, assembled, -⟩ := parse_assembled parsed derived
  constructor
  · intro part kept overwritten
    obtain ⟨b, made⟩ := kept.within.made assembled
    obtain ⟨w, yields, known⟩ :=
      Tree.yields_of_overwritten (kept.within.valid valid) made overwritten
    obtain ⟨k, stands⟩ := stands_of_walk
      ((mem_walk_iff_kept parsed derived (List.ne_nil_of_mem known)).mpr ⟨part, kept, yields⟩)
    exact ⟨w, k, yields, known, stands⟩
  · intro place seen
    obtain ⟨b, found, marked⟩ := reassigned_iff_assigns seen once
    rw [assigns_iff_overwritten parsed derived] at marked
    exact ⟨b, found, marked, fun written =>
      ScopeTable.resolve_reassigned found (marked.mpr written)⟩

/-- The script `let a=1;a=2;g(a)`. -/
def changedSource : Text := text "let a=1;a=2;g(a)"

theorem kept_writes_noticed_changed : ∃ s whole d,
    parse changedSource = .ok s ∧ derive changedSource = .ok whole ∧
      s.declarationsOf 0 (text "a") = [d] ∧
      s.scopeTable.declaringAt? ⟨14, 15⟩ (text "a") = some 0 ∧
      s.Overwritten whole 0 (text "a") ∧
      ∃ reason, s.scopeTable.resolve (.identifier ⟨14, 15⟩ (text "a")) =
        .unresolved (text "a") reason := by
  have checked : reads changedSource (fun _ s =>
      (s.declarationsOf 0 (text "a")).length == 1 &&
        s.scopeTable.declaringAt? ⟨14, 15⟩ (text "a") == some 0 &&
        (s.scopeTable.lookup ⟨14, 15⟩ (text "a")).any (·.reassigned)) = true := by decide +kernel
  obtain ⟨s, whole, parsed, derived, found⟩ := exists_of_reads checked
  simp only [Bool.and_eq_true, beq_iff_eq] at found
  obtain ⟨⟨once, seen⟩, marked⟩ := found
  obtain ⟨d, once⟩ := List.length_eq_one_iff.mp once
  obtain ⟨b, looked, reassigned, lost⟩ := (kept_writes_noticed parsed derived once).2 _ seen
  rw [looked, Option.any_some] at marked
  have written := reassigned.mp marked
  exact ⟨s, whole, d, parsed, derived, once, seen, written, lost written⟩

/-- The script `let a=1;function f(p=(a=2)){}g(a)`. -/
def defaultedSource : Text := text "let a=1;function f(p=(a=2))\x7b\x7dg(a)"

/-- A write in the default value of a parameter is lost: `a` is declared once and `a=2` writes to
it, but the reference to it has a value. -/
theorem default_write_lost : ∃ s whole part d e,
    parse defaultedSource = .ok s ∧ derive defaultedSource = .ok whole ∧
      Tree.Within part whole ∧ text "a" ∈ part.overwritten ∧
      s.declarations.filter (·.2.name == text "a") = [(0, d)] ∧
      s.scopeTable.declaringAt? ⟨31, 32⟩ (text "a") = some 0 ∧
      s.scopeTable.resolve (.identifier ⟨31, 32⟩ (text "a")) = .resolved e := by
  have checked : reads defaultedSource (fun whole s =>
      (((whole.parts .expression).flatMap (Tree.parts .assignment)).any fun part =>
          part.overwritten.contains (text "a")) &&
        (s.declarations.filter (·.2.name == text "a")).map Prod.fst == [0] &&
        s.scopeTable.declaringAt? ⟨31, 32⟩ (text "a") == some 0 &&
        (s.scopeTable.resolve (.identifier ⟨31, 32⟩ (text "a"))).expr?.isSome) = true := by
    decide +kernel
  obtain ⟨s, whole, parsed, derived, found⟩ := exists_of_reads checked
  simp only [Bool.and_eq_true, beq_iff_eq] at found
  obtain ⟨⟨⟨writes, once⟩, seen⟩, valued⟩ := found
  obtain ⟨part, listed, overwritten⟩ := List.any_eq_true.mp writes
  obtain ⟨around, outside, inside⟩ := List.mem_flatMap.mp listed
  have within := (Tree.mem_parts inside).2.trans (Tree.mem_parts outside).2
  obtain ⟨⟨_, d⟩, once, rfl⟩ := List.map_eq_singleton_iff.mp once
  obtain ⟨e, valued⟩ := Option.isSome_iff_exists.mp valued
  exact ⟨s, whole, part, d, e, parsed, derived, within, List.contains_iff_mem.mp overwritten,
    once, seen, Resolution.expr?_eq_some.mp valued⟩

end Script

end StyleSplit
