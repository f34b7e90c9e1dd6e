import StyleSplit.Proofs.Precompile.Fitting
import StyleSplit.Proofs.Rewrite.Swapping
import StyleSplit.Proofs.Script.Accepting

/-! Whether a precompiled script is a script again. The tokens of the new text follow from the
start of the grammar because each part that was replaced became one of the same kind. Options
that are spread without their parentheses are the only exception, and where they do not fit,
no other derivation of the new text can save it: three points behind a brace are in an object
literal, and its braces show where that ends. -/
namespace StyleSplit

open Script Script.Token

namespace Script

variable {s : Script} {tree : Tree} {span : Span} {u : List (Terminal × Text)}
  {parts : List (List (Terminal × Text))}

theorem Token.decodable_bare {t u : Token} (alike : t.bare = u.bare) :
    t.Decodable ↔ u.Decodable := by
  obtain ⟨terminal, text⟩ := Prod.mk.inj alike
  rw [Decodable, Decodable, terminal, text]

/-- An object literal ends where one that was laid out from the same place does. -/
theorem Tree.literal_aligned {x y : List (Terminal × Text)} (valid : tree.valid grammar = true)
    (symbol : tree.symbol = .nonterminal .objectLiteral)
    (each : ∀ part ∈ parts, Balanced (part.map Prod.fst))
    (same : tree.bare ++ x = listing .openBrace .closeBrace parts ++ y) :
    tree.bare = listing .openBrace .closeBrace parts := by
  obtain ⟨opening, inner, closing, bare, closes, balanced⟩ :=
    Listing.objectLiteral.enclosed valid symbol
  obtain ⟨inner', closing', laid, closes', balanced'⟩ :
      ∃ inner closing, listing .openBrace .closeBrace parts =
        Punctuator.openBrace.bare :: (inner ++ [closing]) ∧
      closing.1 = .punctuator .closeBrace ∧ Balanced (inner.map Prod.fst) := listing_enclosed each
  rw [bare, laid] at same ⊢
  simp only [List.cons_append, List.append_assoc, List.nil_append] at same
  obtain ⟨rfl, behind⟩ := List.cons.inj same
  obtain ⟨rfl, rfl⟩ := balanced.end_unique balanced' (by rw [closes]; rfl) (by rw [closes']; rfl)
    behind
  obtain ⟨rfl, -⟩ := List.cons.inj (List.append_cancel_left behind)
  rfl

/-- What was laid out as an object literal with a spread in front is one in each derivation. -/
theorem Tree.derives_listing_at (valid : tree.valid grammar = true)
    (each : ∀ part ∈ (Punctuator.ellipsis.bare :: u) :: parts, Balanced (part.map Prod.fst))
    (stands : listing .openBrace .closeBrace ((Punctuator.ellipsis.bare :: u) :: parts) <:+:
      tree.bare) :
    grammar.Derives [.nonterminal .objectLiteral]
      ((listing .openBrace .closeBrace ((Punctuator.ellipsis.bare :: u) :: parts)).map
        Prod.fst) := by
  obtain ⟨x, y, whole⟩ := stands
  rw [List.append_assoc] at whole
  obtain ⟨front, rest, word, -, here⟩ := List.map_eq_append_iff.mp whole.symm
  obtain ⟨a, more, rfl, brace, behind⟩ := List.map_eq_cons_iff.mp here
  obtain ⟨b, more, rfl, dots, -⟩ := List.map_eq_cons_iff.mp behind
  obtain ⟨literal, others, inside, symbol, same⟩ := literal_at valid word
    (congrArg Prod.fst brace) (congrArg Prod.fst dots)
  have aligned : literal.bare ++ others.map Token.bare =
      listing .openBrace .closeBrace ((Punctuator.ellipsis.bare :: u) :: parts) ++ y := by
    rw [Tree.bare, ← List.map_append, same]
    exact here
  rw [← literal_aligned inside symbol each aligned, Tree.bare_terminals, ← symbol]
  exact .of_tree inside

theorem second_infix {first second : List (Terminal × Text)} :
    second <:+: listing .openParen .closeParen (first :: second :: parts) :=
  ⟨Punctuator.openParen.bare :: first ++ [Punctuator.comma.bare], following .closeParen parts,
    by simp [listing, following]⟩

/-- Options whose tokens were spread in front of class names may be spread. -/
theorem spreadable_of_tree {e : Expr} {sheet : Sheet} (valid : tree.valid grammar = true)
    (slice : s.Slice e.span u)
    (stands : listing .openBrace .closeBrace
      [Punctuator.ellipsis.bare :: u, Call.classesTokens sheet] <:+: tree.bare) :
    s.Spreadable e := by
  have classes := Call.single_classes sheet
  have points : Balanced [Punctuator.ellipsis.bare.1] := Single.balanced rfl
  have derives := tree.derives_listing_at valid (fun part member => ?_) stands
  · have entries : Entries (Punctuator.ellipsis.bare :: u) :=
      entries_in_front derives (List.cons_ne_nil _ _) classes
    exact (spreadable_iff slice.piece).mpr entries.literal
  · simp only [List.mem_cons, List.not_mem_nil, or_false] at member
    rcases member with rfl | rfl
    · exact points.append slice.balanced
    · exact classes.balanced

theorem Derived.arguments_part (derived : Derived s tree) {names : List Text} {c : Call}
    (listed : c ∈ s.styleCalls names) : ∃ part : Tree, part.Within tree ∧
      part.symbol = .nonterminal .arguments ∧
        Token.extent? part.word = some c.argumentsSpan := by
  obtain ⟨callee, makes, -⟩ := derived.styleCall listed
  obtain ⟨args, extent, below, head, inner⟩ := derived.arguments_derived makes
  exact ⟨args, below, head, Tree.arguments_span (below.valid derived.valid) head inner⟩

theorem Derived.mapping_part (derived : Derived s tree) {entries : List Entry}
    (makes : tree.Makes (.mapping span entries)) : ∃ part : Tree, part.Within tree ∧
      part.symbol = .nonterminal .objectLiteral ∧ Token.extent? part.word = some span := by
  obtain ⟨p, children, within, extent, -, action, -⟩ := derived.makes makes
  exact ⟨_, within, Tree.mapping_head (within.valid derived.valid) (action ⟨_, _, rfl⟩), extent⟩

end Script

theorem layoutMapping_opens (entries : List Text) (indent : Text) :
    ∃ t, layoutMapping entries indent = 123 :: t := by
  unfold layoutMapping
  split <;> exact ⟨_, rfl⟩

namespace Precompiler

/-- All options that a run spreads into new arguments may be spread. -/
def SpreadsFit (p : Precompiler) : Prop :=
  ∀ (k : Nat) (call : Call) (edits : List Edit) (sheet : Sheet), p.calls[k]? = some call →
    p.outcomes[k]? = some (.rewritten edits sheet) →
      ∀ e, call.spreadOptions? = some e → p.script.Spreadable e

/-- The parts of a derivation that a run replaces, and what it replaces them by. -/
structure Replaces (p : Precompiler) (tree : Tree) (part : Edit → Tree)
    (new : Edit → List (Terminal × Text)) : Prop where
  swaps : ∀ e ∈ p.allEdits, e.Swaps tree (part e) (new e)
  written : p.SpreadsFit → ∀ e ∈ p.allEdits,
    ∃ n, (part e).symbol = .nonterminal n ∧ Written tree.bare n (new e)

variable {p : Precompiler} {tree : Tree} {k : Nat} {call : Call} {sheet : Sheet} {emitted : Text}
  {edits : List Edit} {part : Edit → Tree} {new : Edit → List (Terminal × Text)}

/-- New arguments replace arguments. -/
theorem Reads.arguments_swap (reads : p.Reads tree) (found : p.calls[k]? = some call)
    (became : p.outcomes[k]? = some (.rewritten edits sheet))
    (member : ⟨call.argumentsSpan, emitted⟩ ∈ edits) : ∃ part w,
      Edit.Swaps tree part w ⟨call.argumentsSpan, emitted⟩ ∧
        (p.SpreadsFit → ∃ n, part.symbol = .nonterminal n ∧ Written tree.bare n w) := by
  obtain ⟨part, within, symbol, extent⟩ := reads.derived.arguments_part (mem_calls found)
  obtain ⟨-, first, second, others, -, closed⟩ := emitted_tokens reads found became member
  obtain ⟨_, _, _, _, _, -, -, -, -, same⟩ := reads.arguments_text found became member
  refine ⟨part, _, ⟨within, extent, closed, 40, _, same, by decide⟩, fun fit => ⟨_, symbol, ?_⟩⟩
  obtain ⟨w, closed', written⟩ := reads.arguments_gives found became member
    (fit k call edits sheet found became)
  rwa [closed.piece.unique closed'.piece]

/-- A new declaration replaces an object literal. -/
theorem Reads.declaration_swap (reads : p.Reads tree) (found : p.calls[k]? = some call)
    (became : p.outcomes[k]? = some (.rewritten edits sheet)) {e : Edit} (member : e ∈ edits)
    (other : e.span ≠ call.argumentsSpan) : ∃ part w, e.Swaps tree part w ∧
      ∃ n, part.symbol = .nonterminal n ∧ Written tree.bare n w := by
  obtain ⟨w, closed, written⟩ := reads.declaration_gives found became member other
  obtain ⟨_, declared, _, _, rewrites, rfl⟩ := rewrites_of_outcome found became
  obtain ⟨-, mapping, -, span, makes, -⟩ :=
    rewrites.description reads (safeAt reads found) (mem_calls found)
  obtain ⟨part, within, symbol, extent⟩ := reads.derived.mapping_part makes
  have place : e.span = mapping.span := by
    obtain ⟨text, rfl | ⟨-, -, declaration, rfl⟩⟩ := rewrites.shape
    · exact absurd (congrArg Edit.span (List.mem_singleton.mp member)) other
    · rcases List.mem_cons.mp member with rfl | member
      · exact span
      · exact absurd (congrArg Edit.span (List.mem_singleton.mp member)) other
  obtain ⟨t, opens⟩ := layoutMapping_opens _ _
  refine ⟨part, w, ⟨within, place ▸ extent, closed, 123, t, ?_, by decide⟩, _, symbol, written⟩
  rw [Call.declaration_text rewrites.rewritten member other]
  exact opens

/-- Every edit of a run replaces a part of the script by one of the same kind. -/
theorem Reads.replaces (reads : p.Reads tree) : ∃ part new, p.Replaces tree part new := by
  have each (e : Edit) (member : e ∈ p.allEdits) : ∃ part w, e.Swaps tree part w ∧
      (p.SpreadsFit → ∃ n, part.symbol = .nonterminal n ∧ Written tree.bare n w) := by
    obtain ⟨k, call, edits, sheet, found, became, member⟩ := mem_allEdits.mp member
    obtain ⟨span, text⟩ := e
    by_cases here : span = call.argumentsSpan
    · subst here
      exact reads.arguments_swap found became member
    · obtain ⟨part, w, swaps, kind⟩ := reads.declaration_swap found became member here
      exact ⟨part, w, swaps, fun _ => kind⟩
  have : Nonempty Tree := ⟨tree⟩
  choose! part new swaps written using each
  exact ⟨part, new, swaps, fun fit e member => written e member fit⟩

/-- The new text splits into the tokens that are kept and those that are put there. -/
theorem Replaces.lexes (replaces : p.Replaces tree part new) (reads : p.Reads tree) :
    Token.Lexes p.result.code (tree.word.flatMap (Edit.image p.allEdits new)) [] := by
  have run := reads.safeRun
  obtain ⟨-, sorted, perm, rewrites⟩ := run.applied
  have separate := Tree.separate reads.derived.valid reads.derived.scans
  exact Edit.lexes_image reads.derived.scans separate run.apart perm rewrites replaces.swaps

/-- If what is spread fits, the new tokens follow from the start of the grammar. -/
theorem Replaces.derives (replaces : p.Replaces tree part new) (reads : p.Reads tree)
    (fit : p.SpreadsFit) : grammar.Derives [.nonterminal .program]
      ((tree.word.flatMap (Edit.image p.allEdits new)).map Prod.fst) := by
  rw [← reads.derived.symbol]
  refine Edit.derives_image reads.derived.valid reads.derived.inOrder reads.safeRun.apart
    replaces.swaps fun e member => ?_
  obtain ⟨n, symbol, written⟩ := replaces.written fit e member
  exact symbol ▸ written.derives

/-- If what is spread fits, all literals of the new text are those of the script or quoted. -/
theorem Replaces.known (replaces : p.Replaces tree part new) (fit : p.SpreadsFit) :
    Known tree.bare (tree.word.flatMap (Edit.image p.allEdits new)) := by
  intro t member literal
  obtain ⟨token, among, member⟩ := List.mem_flatMap.mp member
  rcases Edit.mem_image member with rfl | ⟨e, listed, member⟩
  · exact .inl (List.mem_map_of_mem among)
  · obtain ⟨n, -, written⟩ := replaces.written fit e listed
    exact written.known t member literal

/-- Options that are spread into the new text fit if that has a derivation. -/
theorem Replaces.fit (replaces : p.Replaces tree part new) (reads : p.Reads tree) {whole : Tree}
    (valid : whole.valid grammar = true)
    (tokens : whole.bare = tree.word.flatMap (Edit.image p.allEdits new)) : p.SpreadsFit := by
  intro k call edits sheet found became e spread
  obtain ⟨emitted, member⟩ := exists_emitted found became
  obtain ⟨-, first, second, others, written, closed⟩ := emitted_tokens reads found became member
  obtain ⟨u, slice, rfl⟩ := written.spread e spread
  have listed := mem_allEdits.mpr ⟨k, call, edits, sheet, found, became, member⟩
  have swaps := replaces.swaps _ listed
  obtain ⟨front, back, word⟩ := swaps.within.leaves
  have image := swaps.image_word reads.derived.inOrder reads.safeRun.apart listed
  rw [swaps.closed.piece.unique closed.piece] at image
  rw [← word, List.flatMap_append, List.flatMap_append, image] at tokens
  have inside := second_infix.trans (tokens ▸ List.infix_append _ _ _)
  exact spreadable_of_tree valid slice inside

/-- The new text has a derivation exactly if what is spread fits. -/
theorem Reads.grammatical_iff (reads : p.Reads tree) :
    Grammatical p.result.code ↔ p.SpreadsFit := by
  obtain ⟨part, new, replaces⟩ := reads.replaces
  have lexes := replaces.lexes reads
  constructor
  · rintro ⟨u, splits, derives⟩
    obtain rfl := (Token.splits_iff.mp splits).unique lexes
    obtain ⟨whole, valid, -, tokens⟩ := exists_tree derives
    exact replaces.fit reads valid tokens
  · exact fun fit => ⟨_, Token.splits_iff.mpr lexes, replaces.derives reads fit⟩

/-- If all literals of a script have a meaning, so have those of the new text. -/
theorem Reads.meaningful (reads : p.Reads tree) (fit : p.SpreadsFit)
    (meant : ∀ t : Token, t.bare ∈ tree.bare → t.Decodable) : Meaningful p.result.code := by
  obtain ⟨part, new, replaces⟩ := reads.replaces
  rintro whole derived t ⟨q, within, -⟩
  obtain ⟨-, -, scanned⟩ := derive_ok derived
  have among : t ∈ whole.word := within.leaves.subset (by simp [Tree.word, Tree.words])
  have tokens := (Token.ofText_sound scanned).lexes.unique (replaces.lexes reads)
  exact (replaces.known fit).decodable (tokens ▸ List.mem_map_of_mem among) meant

end Precompiler

/-- A precompiled script is one again exactly if all options that are spread, and are written
without the parentheses that stood around them, may be spread. -/
theorem precompiled_parses_iff {settings : Settings} {filename source : Text} {script : Script}
    (parsed : Script.parse source = .ok script) :
    let p := Precompiler.ofScript settings filename script
    precompile settings filename source = .ok p.result ∧
      (Grammatical p.result.code ↔ p.SpreadsFit) ∧
      ((∀ t ∈ (Token.ofText source).1, t.Decodable) →
        ((∃ s, Script.parse p.result.code = .ok s) ↔ p.SpreadsFit)) := by
  intro p
  obtain ⟨ran, same, -⟩ := precompile_safe parsed
  obtain ⟨tree, reads⟩ := reads_ofScript settings filename parsed
  refine ⟨ran, reads.grammatical_iff, fun meant => ?_⟩
  rw [parse_meaningful, reads.grammatical_iff]
  refine and_iff_left_of_imp fun fit => reads.meaningful fit fun t member => ?_
  obtain ⟨tokens, scanned, bare⟩ := Token.ofText_iff.mpr reads.derived.scans.lexes
  rw [Tree.bare, ← bare] at member
  obtain ⟨other, listed, alike⟩ := List.mem_map.mp member
  have listed : other ∈ (Token.ofText source).1 := by
    rw [← same]
    exact congrArg Prod.fst scanned ▸ listed
  exact (Token.decodable_bare alike).mp (meant other listed)

/-- The script `f({a:{b:1}},o)`. -/
def oneOptionSource : Text := text "f(\x7ba:\x7bb:1\x7d\x7d,o)"

theorem oneOptionSource_decodable : ∀ t ∈ (Token.ofText oneOptionSource).1, t.Decodable := by
  have literals : (Token.ofText oneOptionSource).1.all (fun t =>
      !Terminal.literals.contains t.terminal || t.bare == (.number, text "1")) = true := by
    decide +kernel
  intro t member
  have literal := List.all_eq_true.mp literals t member
  simp only [Bool.or_eq_true, Bool.not_eq_true', List.contains_eq_mem, decide_eq_false_iff_not,
    beq_iff_eq] at literal
  rcases literal with plain | number
  · exact Token.decodable_of_plain plain
  · obtain ⟨terminal, spelled⟩ := Prod.mk.inj number
    rw [Token.Decodable, terminal, spelled]
    exact ⟨_, rfl⟩

theorem precompiled_parses_iff_option : ∃ script, Script.parse oneOptionSource = .ok script ∧
    (∀ t ∈ (Token.ofText oneOptionSource).1, t.Decodable) ∧
    let p := Precompiler.ofScript shortSettings [] script
    p.result.rewritten = 1 ∧ (∃ s, Script.parse p.result.code = .ok s) ∧
      precompile shortSettings [] oneOptionSource = .ok p.result ∧
      (Grammatical p.result.code ↔ p.SpreadsFit) ∧
      ((∃ s, Script.parse p.result.code = .ok s) ↔ p.SpreadsFit) := by
  have checked : (Script.parse oneOptionSource).toOption.any (fun script =>
      let p := Precompiler.ofScript shortSettings [] script
      p.result.rewritten == 1 && (Script.parse p.result.code).toOption.any fun _ => true) =
        true := by
    decide +kernel
  obtain ⟨script, parsed, run⟩ := Script.exists_of_any checked
  obtain ⟨rewritten, again⟩ := Bool.and_eq_true_iff.mp run
  obtain ⟨s, reparsed, -⟩ := Script.exists_of_any again
  obtain ⟨ran, grammatical, parses⟩ := precompiled_parses_iff parsed
  exact ⟨script, parsed, oneOptionSource_decodable, eq_of_beq rewritten, ⟨s, reparsed⟩, ran,
    grammatical, parses oneOptionSource_decodable⟩

/-- The script `f({a:{b:1}},(x,y.z))`. -/
def twoOptionsSource : Text := text "f(\x7ba:\x7bb:1\x7d\x7d,(x,y.z))"

/-- Without its parentheses a sequence is spread in parts, and one of them is no entry. -/
theorem precompiled_unparsed : ∃ script, Script.parse twoOptionsSource = .ok script ∧
    let p := Precompiler.ofScript shortSettings [] script
    p.result.rewritten = 1 ∧ precompile shortSettings [] twoOptionsSource = .ok p.result ∧
      ¬∃ s, Script.parse p.result.code = .ok s := by
  have checked : (Script.parse twoOptionsSource).toOption.any (fun script =>
      let p := Precompiler.ofScript shortSettings [] script
      p.result.rewritten == 1 && (Script.parse p.result.code).toOption.isNone) = true := by
    decide +kernel
  obtain ⟨script, parsed, run⟩ := Script.exists_of_any checked
  obtain ⟨rewritten, failed⟩ := Bool.and_eq_true_iff.mp run
  refine ⟨script, parsed, eq_of_beq rewritten, (precompile_safe parsed).1, ?_⟩
  rintro ⟨s, again⟩
  simp [again, Except.toOption] at failed

end StyleSplit
