import StyleSplit.Proofs.Script.Literals
import StyleSplit.Proofs.Script.Munching
import StyleSplit.Proofs.Script.Reading

/-! Which texts are scripts. A text is parsed exactly if the lexicon splits it into tokens
that follow from the start of the grammar and the literals of the derivation have a meaning.
A module name or a template behind a tag need not have one. -/
namespace StyleSplit.Script

/-- The lexicon splits a text into tokens that follow from the start of the grammar. -/
def Grammatical (source : Text) : Prop :=
  ∃ u, Token.Splits source u ∧ grammar.Derives [.nonterminal .program] (u.map Prod.fst)

/-- What the derivation of a text says about its literals. -/
def Meaningful (source : Text) : Prop :=
  ∀ tree, derive source = .ok tree → ∀ t, tree.Literal t → t.Decodable

variable {source : Text} {tree : Tree}

theorem grammatical_iff : Grammatical source ↔ ∃ tree, derive source = .ok tree := by
  rw [derive_iff]
  unfold Grammatical ReadsAs
  simp only [Token.splits_iff]

theorem parse_of_derive (derived : derive source = .ok tree) :
    (∃ script, parse source = .ok script) ↔ ∃ a, tree.assemble = .ok a := by
  cases made : tree.assemble <;> simp [parse, derived, Tree.statements, made, bind, Except.bind,
    pure, Except.pure]

theorem parse_meaningful :
    (∃ script, parse source = .ok script) ↔ Grammatical source ∧ Meaningful source := by
  rw [grammatical_iff]
  unfold Meaningful
  cases derived : derive source with
  | error e =>
    refine iff_of_false ?_ (by rintro ⟨⟨_, ⟨⟩⟩, -⟩)
    rintro ⟨script, parsed⟩
    simp [parse, derived, bind, Except.bind] at parsed
  | ok tree =>
    obtain ⟨valid, -⟩ := derive_ok derived
    rw [parse_of_derive derived, Tree.assemble_ok_iff valid]
    constructor
    · rintro decodable
      refine ⟨⟨tree, rfl⟩, ?_⟩
      rintro _ ⟨⟩
      exact decodable
    · rintro ⟨-, decodable⟩
      exact decodable tree rfl

theorem parse_error_iff :
    (∃ e, parse source = .error e) ↔ ¬ ∃ script, parse source = .ok script := by
  cases parse source <;> simp

/-- A text is parsed if and only if the lexicon splits it into tokens that follow from the start
of the grammar and every literal of its derivation has a meaning. All numbers, texts and templates
are literals, but for module names and templates behind a tag. -/
theorem parse_accepts (source : Text) :
    ((∃ script, parse source = .ok script) ↔ Grammatical source ∧ Meaningful source) ∧
      ((∃ e, parse source = .error e) ↔ ¬ (Grammatical source ∧ Meaningful source)) ∧
      ∀ tree, derive source = .ok tree → ∀ t ∈ tree.word, t.terminal ∈ Terminal.literals →
        tree.Literal t ∨ tree.Unread t := by
  refine ⟨parse_meaningful, parse_error_iff.trans (not_congr parse_meaningful), ?_⟩
  intro tree derived t among known
  obtain ⟨valid, symbol, -⟩ := derive_ok derived
  exact Tree.literal_or_unread valid symbol among known

/-- An import, an export, a tagged template and one with a substitution, each with a code point
that there is not. -/
def unreadSource : Text :=
  text ("import \"\\u\x7b110000\x7d\"; export * from \"\\u\x7b110000\x7d\";" ++
    "f`\\u\x7b110000\x7d`; `$\x7b0\x7d\\u\x7b110000\x7d`;")

/-- A script may hold tokens that stand for no text, where they are not read. -/
theorem parse_unread : (∃ script, parse unreadSource = .ok script) ∧
    ∃ u, Token.Splits unreadSource u ∧
      grammar.Derives [.nonterminal .program] (u.map Prod.fst) ∧
      (u.filter (Terminal.literals.contains ·.1)).map
          (fun piece => (piece.1, Literal.decodeText piece.2)) =
        [(.string, .error .codePointRange), (.string, .error .codePointRange),
          (.template, .error .codePointRange), (.template, .error .codePointRange)] := by
  have accepted : (parse unreadSource).toOption.any (fun _ => true) = true := by decide +kernel
  have found : (((Token.ofText unreadSource).1.map Token.bare).filter
      (Terminal.literals.contains ·.1)).map
        (fun piece => (piece.1, Literal.decodeText piece.2)) =
      [(.string, .error .codePointRange), (.string, .error .codePointRange),
        (.template, .error .codePointRange), (.template, .error .codePointRange)] := by
    decide +kernel
  obtain ⟨script, parsed, -⟩ := exists_of_any accepted
  obtain ⟨u, splits, derives⟩ := (parse_meaningful.mp ⟨script, parsed⟩).1
  obtain ⟨tokens, scanned, rfl⟩ := Token.ofText_iff.mpr (Token.splits_iff.mp splits)
  rw [scanned] at found
  exact ⟨⟨script, parsed⟩, _, splits, derives, found⟩

end StyleSplit.Script
