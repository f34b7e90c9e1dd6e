import StyleSplit.Proofs.Parsing.Completeness
import StyleSplit.Proofs.Parsing.Deriving
import StyleSplit.Proofs.Script.Relexing
import StyleSplit.Script.Parse

/-! Which texts have a derivation: those that split into tokens whose terminals follow from
the start of the grammar. Neither the fuel of the parser nor its choice among derivations
matters for that. -/
namespace StyleSplit.Script

theorem grammar_distinct (n : Nonterminal) : (grammar.productions n).Nodup := by
  have each : Nonterminal.all.all (fun n => decide (grammar.productions n).Nodup) = true := by
    decide
  exact of_decide_eq_true (List.all_eq_true.mp each n n.mem_all)

theorem derive_ok {source : Text} {tree : Tree} (derived : derive source = .ok tree) :
    tree.valid grammar = true ∧ tree.symbol = .nonterminal .program ∧
      Token.ofText source = (tree.word, none) := by
  cases scanned : Token.ofText source with
  | mk tokens failure =>
    simp only [derive, scanned] at derived
    split at derived
    · contradiction
    · contradiction
    · contradiction
    · rename_i found
      rw [Except.ok.inj derived] at found
      obtain ⟨valid, symbol, rfl⟩ := Grammar.parse_sound grammar_ordered found
      exact ⟨valid, symbol, rfl⟩

/-- A text with a derivation is parsed, though perhaps with another derivation. -/
theorem derive_complete {source : Text} {tree : Tree} (valid : tree.valid grammar = true)
    (symbol : tree.symbol = .nonterminal .program)
    (scanned : Token.ofText source = (tree.word, none)) :
    ∃ tree', derive source = .ok tree' ∧ tree'.word = tree.word := by
  obtain ⟨tree', parsed⟩ := grammar.parse_complete grammar_ordered grammar_distinct valid symbol
  refine ⟨tree', by simp only [derive, scanned, parsed], ?_⟩
  exact (Grammar.parse_sound grammar_ordered parsed).2.2

/-- Whether a text is read as what a nonterminal stands for. -/
def ReadsAs (n : Nonterminal) (t : Text) : Prop :=
  ∃ u, Token.Lexes t u [] ∧ grammar.Derives [.nonterminal n] (u.map Prod.fst)

theorem map_bare (tokens : List Token) :
    (tokens.map Token.bare).map Prod.fst = tokens.map Token.terminal := by
  rw [List.map_map]
  rfl

theorem readsAs_iff {n : Nonterminal} {t : Text} : ReadsAs n t ↔ ∃ tree : Tree,
    tree.valid grammar = true ∧ tree.symbol = .nonterminal n ∧
      Token.ofText t = (tree.word, none) := by
  constructor
  · rintro ⟨u, lexes, derives⟩
    obtain ⟨tokens, scanned, rfl⟩ := Token.ofText_iff.mpr lexes
    rw [map_bare] at derives
    obtain ⟨tree, symbol, valid, rfl⟩ := derives.retoken
    exact ⟨tree, valid, symbol, scanned⟩
  · rintro ⟨tree, valid, symbol, scanned⟩
    refine ⟨_, Token.ofText_iff.mp ⟨_, scanned, rfl⟩, ?_⟩
    rw [map_bare, ← symbol]
    exact .of_tree valid

/-- A text has a derivation if and only if it is read as a script. -/
theorem derive_iff {source : Text} :
    (∃ tree, derive source = .ok tree) ↔ ReadsAs .program source := by
  rw [readsAs_iff]
  constructor
  · rintro ⟨tree, derived⟩
    exact ⟨tree, derive_ok derived⟩
  · rintro ⟨tree, valid, symbol, scanned⟩
    obtain ⟨tree', derived, -⟩ := derive_complete valid symbol scanned
    exact ⟨tree', derived⟩

/-- A script is what the derivation of its text contributes. -/
theorem parse_assembled {source : Text} {s : StyleSplit.Script} {whole : Tree}
    (parsed : parse source = .ok s) (derived : derive source = .ok whole) :
    ∃ a, whole.assemble = .ok a ∧ s = ⟨source, a.fragments.filterMap Fragment.stmt?⟩ := by
  obtain ⟨tree, derived', done⟩ := bind_eq_ok.mp parsed
  obtain rfl := Except.ok.inj (derived.symm.trans derived')
  cases made : whole.statements with
  | error e =>
    rw [made] at done
    cases done
  | ok body =>
    rw [made] at done
    cases done
    obtain ⟨a, assembled, same⟩ := bind_eq_ok.mp made
    exact ⟨a, assembled, by rw [← Except.ok.inj same]⟩

/-- What a computation was found to give, with what was computed of it. -/
theorem exists_ok_of_any {ε α : Type} {x : Except ε α} {check : α → Bool}
    (checked : x.toOption.any check = true) : ∃ a, x = .ok a ∧ check a = true := by
  cases x with
  | error e => cases checked
  | ok a => exact ⟨a, rfl, checked⟩

/-- A script that a text was found to give, with what was computed of it. -/
theorem exists_of_any {source : Text} {check : Script → Bool}
    (checked : (parse source).toOption.any check = true) :
    ∃ script, parse source = .ok script ∧ check script = true :=
  exists_ok_of_any checked

/-- Whether a text has a derivation that stands for a script, and both pass a check. -/
def reads (source : Text) (check : Tree → StyleSplit.Script → Bool) : Bool :=
  (derive source).toOption.any fun tree =>
    tree.statements.toOption.any fun body => check tree ⟨source, body⟩

theorem exists_of_reads {source : Text} {check : Tree → StyleSplit.Script → Bool}
    (checked : reads source check = true) :
    ∃ s whole, parse source = .ok s ∧ derive source = .ok whole ∧ check whole s = true := by
  obtain ⟨whole, derived, found⟩ := exists_ok_of_any checked
  obtain ⟨body, made, found⟩ := exists_ok_of_any found
  refine ⟨⟨source, body⟩, whole, ?_, derived, found⟩
  rw [parse, derived]
  simp only [bind, Except.bind, made]
  rfl

end StyleSplit.Script
