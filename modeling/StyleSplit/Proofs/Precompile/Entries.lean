import StyleSplit.Proofs.Precompile.Emitting
import StyleSplit.Proofs.Rewrite.Quoting
import StyleSplit.Proofs.Script.Pairs

/-! Generated entries. An entry that was generated from texts can be read, and however it is
read, its keys and values are the texts that it was generated from. -/
namespace StyleSplit

open Script Script.Token

namespace Script

/-- An entry with a plain key and a value that are both known texts. -/
def Entry.Maps (e : Entry) (key value : Text) : Prop :=
  ∃ span place here, e =
    .mk span (some (.literal place (.text key))) (.literal here (.text value)) false false

/-- An entry with a plain key for an object literal that maps texts to texts, in order. -/
def Entry.MapsAll (e : Entry) (key : Text) (pairs : List (Text × Text)) : Prop :=
  ∃ span place here entries, e =
    .mk span (some (.literal place (.text key))) (.mapping here entries) false false ∧
      List.Forall₂ (fun e pair => e.Maps pair.1 pair.2) entries pairs

/-- A text that can be read as an entry, and however it is, gives an entry of some kind. -/
def ReadsEntry (t : Text) (kind : Entry → Prop) : Prop :=
  (∃ (tree : Tree) (a : Assembled), tree.valid grammar = true ∧
      tree.symbol = .nonterminal .property ∧ tree.Spells t ∧ tree.assemble = .ok a) ∧
    ∀ (tree : Tree) (a : Assembled), tree.valid grammar = true →
      tree.symbol = .nonterminal .property → tree.Spells t → tree.assemble = .ok a →
        ∃ e, a.fragments = [.entry e] ∧ kind e

variable {n : Nonterminal} {ts : List Terminal} {body : List Symbol} {t key value : Text}
  {u : List (Terminal × Text)} {parts : List (List (Terminal × Text))}
  {pairs : List (Text × Text)}

theorem derives_body (derives : grammar.Derives body ts)
    (known : (grammar.productions n).any (fun p => p.head == n && p.body == body) = true) :
    grammar.Derives [.nonterminal n] ts := by
  obtain ⟨p, member, same⟩ := List.any_eq_true.mp known
  obtain ⟨head, body⟩ := Bool.and_eq_true_iff.mp same
  obtain rfl := eq_of_beq head
  exact .node member (eq_of_beq body ▸ derives)

theorem derives_assignment (derives : grammar.Derives [.nonterminal .primary] ts) :
    grammar.Derives [.nonterminal .assignment] ts := by
  have member : grammar.Derives [.nonterminal .callMember] ts := derives_body derives rfl
  have suffix : grammar.Derives [.nonterminal .suffixUpdate] ts := derives_body member rfl
  have unary : grammar.Derives [.nonterminal .unary] ts := derives_body suffix rfl
  have binary : grammar.Derives [.nonterminal .binary] ts := derives_body unary rfl
  have conditional : grammar.Derives [.nonterminal .conditional] ts := derives_body binary rfl
  exact derives_body conditional rfl

theorem derives_text : grammar.Derives [.nonterminal .assignment] [.string] :=
  derives_assignment (derives_body (.terminal .string) rfl)

theorem derives_entry (value : grammar.Derives [.nonterminal .assignment] (u.map Prod.fst)) :
    grammar.Derives [.nonterminal .property] ((entryTokens key u).map Prod.fst) := by
  have key : grammar.Derives [.nonterminal .propertyKey] [.string] :=
    derives_body (.terminal .string) rfl
  exact derives_body (key.append ((Grammar.Derives.terminal (.punctuator .colon)).append value)) rfl

theorem derives_following
    (each : ∀ part ∈ parts, grammar.Derives [.nonterminal .property] (part.map Prod.fst))
    (front : grammar.Derives [.nonterminal .moreProperties] ts) :
    grammar.Derives [.nonterminal .moreProperties, .terminal (.punctuator .closeBrace)]
      (ts ++ (following .closeBrace parts).map Prod.fst) := by
  induction parts generalizing ts with
  | nil => exact front.append (.terminal _)
  | cons part rest ih =>
    have comma := Grammar.Derives.terminal (g := grammar) (.punctuator .comma)
    have longer : grammar.Derives [.nonterminal .moreProperties] _ :=
      derives_body (front.append (comma.append (each part (by simp)))) rfl
    have all := ih (fun part member => each part (by simp [member])) longer
    simpa [following, Punctuator.bare] using all

/-- Entries between braces are an object literal. -/
theorem derives_literal
    (each : ∀ part ∈ parts, grammar.Derives [.nonterminal .property] (part.map Prod.fst)) :
    grammar.Derives [.nonterminal .objectLiteral]
      ((listing .openBrace .closeBrace parts).map Prod.fst) := by
  have opens := Grammar.Derives.terminal (g := grammar) (.punctuator .openBrace)
  have closes := Grammar.Derives.terminal (g := grammar) (.punctuator .closeBrace)
  rcases parts with _ | ⟨part, _ | ⟨next, rest⟩⟩
  · exact derives_body (opens.append closes) rfl
  · simpa [listing, following, Punctuator.bare] using
      derives_body (n := .objectLiteral) (opens.append ((each part (by simp)).append closes)) rfl
  · have comma := Grammar.Derives.terminal (g := grammar) (.punctuator .comma)
    have front : grammar.Derives [.nonterminal .moreProperties] _ :=
      derives_body (comma.append (each next (by simp))) rfl
    have others : ∀ part ∈ rest, grammar.Derives [.nonterminal .property] (part.map Prod.fst) :=
      fun part member => each part (by simp [member])
    have behind := derives_following others front
    simpa [listing, following, Punctuator.bare] using
      derives_body (n := .objectLiteral) (opens.append ((each part (by simp)).append behind)) rfl

/-- Tokens whose literals are quoted texts or stand among those of a source. -/
def Known (source u : List (Terminal × Text)) : Prop :=
  ∀ t ∈ u, t.1 ∈ Terminal.literals → t ∈ source ∨ ∃ x, t = quotedToken x

variable {source : List (Terminal × Text)}

theorem known_mark (m : Punctuator) (known : Known source u) : Known source (m.bare :: u) := by
  intro t member literal
  rcases List.mem_cons.mp member with rfl | member
  · simp [Punctuator.bare, Terminal.literals] at literal
  · exact known t member literal

theorem known_append {v : List (Terminal × Text)} (first : Known source u)
    (last : Known source v) : Known source (u ++ v) := by
  intro t member literal
  rcases List.mem_append.mp member with member | member
  · exact first t member literal
  · exact last t member literal

theorem known_quoted (t : Text) : Known source [quotedToken t] :=
  fun _ member _ => .inr ⟨t, List.mem_singleton.mp member⟩

theorem known_following {last : Punctuator} (each : ∀ part ∈ parts, Known source part) :
    Known source (following last parts) := by
  induction parts with
  | nil => exact known_mark last fun _ member => (List.not_mem_nil member).elim
  | cons part rest ih =>
    have here := ih fun part member => each part (by simp [member])
    exact known_mark .comma (known_append (each part (by simp)) here)

theorem known_listing {first last : Punctuator} (each : ∀ part ∈ parts, Known source part) :
    Known source (listing first last parts) := by
  cases parts with
  | nil => exact known_mark first (known_following each)
  | cons part rest =>
    have others : Known source (following last rest) :=
      known_following fun part member => each part (List.mem_cons_of_mem _ member)
    exact known_mark first (known_append (each part (by simp)) others)

/-- Quoted texts have a meaning, and the literals of the source may be known to. -/
theorem Known.decodable (known : Known source u) {t : Token} (among : t.bare ∈ u)
    (meant : ∀ v : Token, v.bare ∈ source → v.Decodable) : t.Decodable := by
  by_cases literal : t.terminal ∈ Terminal.literals
  · rcases known _ among literal with copied | ⟨x, same⟩
    · exact meant t copied
    · obtain ⟨string, text⟩ := Prod.mk.inj same
      rw [Token.Decodable, string]
      exact ⟨x, text ▸ Literal.decodeText_stringLiteral x⟩
  · exact Token.decodable_of_plain literal

/-- Tokens that a nonterminal stands for, and that were generated or stand in a source. -/
structure Written (source : List (Terminal × Text)) (n : Nonterminal)
    (u : List (Terminal × Text)) : Prop where
  derives : grammar.Derives [.nonterminal n] (u.map Prod.fst)
  known : Known source u

theorem written_text (t : Text) : Written source .assignment [quotedToken t] :=
  ⟨derives_text, known_quoted t⟩

theorem Written.entry (value : Written source .assignment u) :
    Written source .property (entryTokens key u) :=
  ⟨derives_entry value.derives, known_append (known_quoted key) (known_mark .colon value.known)⟩

/-- Entries between braces are an object literal, and that is an operand. -/
theorem written_listing (each : ∀ part ∈ parts, Written source .property part) :
    Written source .objectLiteral (listing .openBrace .closeBrace parts) :=
  ⟨derives_literal fun part member => (each part member).derives,
    known_listing fun part member => (each part member).known⟩

theorem Written.operand (literal : Written source .objectLiteral u) :
    Written source .assignment u :=
  ⟨derives_assignment (derives_body literal.derives rfl), literal.known⟩

theorem written_pairs (pairs : List (Text × Text)) :
    Written source .assignment (Call.pairsTokens pairs) := by
  refine (written_listing fun part member => ?_).operand
  obtain ⟨pair, -, rfl⟩ := List.mem_map.mp member
  exact (written_text _).entry

theorem exists_reading (lexes : Token.Lexes t u []) (written : Written [] n u) :
    ∃ (tree : Tree) (a : Assembled), tree.valid grammar = true ∧ tree.symbol = .nonterminal n ∧
      tree.Spells t ∧ tree.assemble = .ok a := by
  obtain ⟨derives, known⟩ := written
  obtain ⟨tokens, scanned, rfl⟩ := Token.ofText_iff.mpr lexes
  rw [map_bare] at derives
  obtain ⟨tree, symbol, valid, rfl⟩ := derives.retoken
  have made : ∃ a, tree.assemble = .ok a := by
    refine (Tree.assemble_ok_iff valid).mpr fun token ⟨p, within, _⟩ => ?_
    have among : token ∈ tree.word := within.leaves.subset (by simp [Tree.word, Tree.words])
    exact known.decodable (List.mem_map_of_mem among) fun _ none => (List.not_mem_nil none).elim
  obtain ⟨a, made⟩ := made
  exact ⟨tree, a, valid, symbol, lexes, made⟩

namespace Tree

variable {tree : Tree} {a : Assembled}

/-- A generated entry for two texts maps the one to the other. -/
theorem pair_read (valid : tree.valid grammar = true)
    (symbol : tree.symbol = .nonterminal .property)
    (bare : tree.bare = entryTokens key [quotedToken value]) (made : tree.assemble = .ok a) :
    ∃ e, a.fragments = [.entry e] ∧ e.Maps key value := by
  obtain ⟨span, place, key', e, operand, b, decoded, only, inner, kind, rest, made', fragments⟩ :=
    entry_of_string valid symbol bare rfl made
  obtain ⟨here, value', decoded', only'⟩ := string_alone inner kind (by decide) rest made'
  rw [Literal.decodeText_stringLiteral] at decoded decoded'
  obtain rfl := Except.ok.inj decoded
  obtain rfl := Except.ok.inj decoded'
  obtain rfl := Fragment.expr.inj (List.singleton_inj.mp (fragments.symm.trans only'))
  exact ⟨_, only, span, place, here, rfl⟩

/-- An operand that was laid out as an object literal is one, with the entries that its
properties contribute. -/
theorem listing_read (each : ∀ part ∈ parts, Balanced (part.map Prod.fst))
    (valid : tree.valid grammar = true) (symbol : tree.symbol = .nonterminal n)
    (operand : n ∈ operands) (bare : tree.bare = listing .openBrace .closeBrace parts)
    (made : tree.assemble = .ok a) : ∃ (literal : Tree) (b : Assembled) (span : Span),
      literal.valid grammar = true ∧ literal.symbol = .nonterminal .objectLiteral ∧
      literal.bare = listing .openBrace .closeBrace parts ∧ literal.assemble = .ok b ∧
      a.fragments =
        [.expr (.mapping span ((literal.parts .property).flatMap (offers Fragment.entry?)))] := by
  obtain ⟨inner, closing, same, closes, balanced⟩ := listing_enclosed each
  obtain ⟨literal, b, inside, head, alone, made', fragments⟩ :=
    literal_alone valid symbol operand (bare.trans same) rfl closes balanced made
  obtain ⟨span, entries⟩ := literal_entries inside head made'
  exact ⟨literal, b, span, inside, head, alone.trans bare, made', fragments.symm.trans entries⟩

/-- What a property of an object literal is read as is what it contributes. -/
theorem property_read {part : Tree} {kind : Entry → Prop} (valid : tree.valid grammar = true)
    (made : tree.assemble = .ok a) (member : part ∈ tree.parts .property)
    (read : ∀ {c : Assembled}, part.valid grammar = true → part.symbol = .nonterminal .property →
      part.assemble = .ok c → ∃ e, c.fragments = [.entry e] ∧ kind e) :
    ∃ e, part.offers Fragment.entry? = [e] ∧ kind e := by
  obtain ⟨symbol, within⟩ := mem_parts member
  obtain ⟨c, made⟩ := within.made made
  obtain ⟨e, only, good⟩ := read (within.valid valid) symbol made
  exact ⟨e, by rw [offers_eq made, only]; rfl, good⟩

/-- However an object literal is derived, its entries are the ones that it was laid out with. -/
theorem parts_listing (valid : tree.valid grammar = true)
    (symbol : tree.symbol = .nonterminal .objectLiteral)
    (each : ∀ part ∈ parts, part ≠ [] ∧ Single (part.map Prod.fst))
    (bare : tree.bare = listing .openBrace .closeBrace parts) :
    (tree.parts .property).map Tree.bare = parts := by
  cases parts with
  | nil => exact List.map_eq_nil_iff.mpr (Listing.objectLiteral.parts_none valid symbol rfl bare)
  | cons part rest =>
    exact (Listing.objectLiteral.parts_eq (x := []) valid symbol following_ok each
      ((List.append_nil _).trans bare)).1

/-- An object literal that was generated from pairs of texts has an entry for each. -/
theorem pairs_read (valid : tree.valid grammar = true) (symbol : tree.symbol = .nonterminal n)
    (operand : n ∈ operands) (bare : tree.bare = Call.pairsTokens pairs)
    (made : tree.assemble = .ok a) : ∃ span entries, a.fragments = [.expr (.mapping span entries)] ∧
      List.Forall₂ (fun e pair => e.Maps pair.1 pair.2) entries pairs := by
  have each : ∀ part ∈ pairs.map fun pair => entryTokens pair.1 [quotedToken pair.2],
      part ≠ [] ∧ Single (part.map Prod.fst) := by
    intro part member
    obtain ⟨pair, -, rfl⟩ := List.mem_map.mp member
    exact ⟨List.cons_ne_nil _ _, Call.single_pair _ _⟩
  obtain ⟨literal, b, span, inside, head, bare, made, fragments⟩ :=
    listing_read (fun part member => (each part member).2.balanced) valid symbol operand bare made
  refine ⟨span, _, fragments, forall₂_flatMap ?_⟩
  have parts := parts_listing inside head each bare
  rw [← List.forall₂_eq_eq_eq, List.forall₂_map_left_iff, List.forall₂_map_right_iff] at parts
  refine forall₂_of_mem (fun part member pair here => ?_) parts
  exact property_read inside made member fun valid symbol => pair_read valid symbol here

/-- A generated entry for pairs of texts holds each of them. -/
theorem entry_read (valid : tree.valid grammar = true)
    (symbol : tree.symbol = .nonterminal .property)
    (bare : tree.bare = entryTokens key (Call.pairsTokens pairs)) (made : tree.assemble = .ok a) :
    ∃ e, a.fragments = [.entry e] ∧ e.MapsAll key pairs := by
  obtain ⟨span, place, key', e, value, b, decoded, only, inner, kind, rest, made', fragments⟩ :=
    entry_of_string valid symbol bare rfl made
  rw [Literal.decodeText_stringLiteral] at decoded
  obtain rfl := Except.ok.inj decoded
  obtain ⟨here, entries, only', maps⟩ := pairs_read inner kind (by decide) rest made'
  obtain rfl := Fragment.expr.inj (List.singleton_inj.mp (fragments.symm.trans only'))
  exact ⟨_, only, span, place, here, entries, rfl, maps⟩

end Tree

/-- A text is read as an entry if it can be, in whichever way that is done. -/
theorem readsEntry {kind : Entry → Prop} (closed : Closed t u) (written : Written [] .property u)
    (read : ∀ {tree : Tree} {a : Assembled}, tree.valid grammar = true →
      tree.symbol = .nonterminal .property → tree.bare = u → tree.assemble = .ok a →
        ∃ e, a.fragments = [.entry e] ∧ kind e) : ReadsEntry t kind := by
  have lexes := closed []
  rw [List.append_nil] at lexes
  exact ⟨exists_reading lexes written, fun tree a valid symbol spells made =>
    read valid symbol (spells.unique lexes) made⟩

/-- A generated entry for two texts is read as one. -/
theorem pair_readsEntry (key value : Text) :
    ReadsEntry (layoutEntry key (stringLiteral value)) (·.Maps key value) :=
  readsEntry (closed_layoutEntry (closed_stringLiteral value)) (written_text value).entry
    Tree.pair_read

/-- The entry for the class names is read as one. -/
theorem classes_readsEntry (sheet : Sheet) {indent : Text}
    (blank : ∀ c ∈ indent, isBlank c = true) :
    ReadsEntry (Call.classesText sheet indent) (·.MapsAll classesKey sheet.classes) :=
  readsEntry (Call.classesText_closed sheet blank) (written_pairs sheet.classes).entry
    Tree.entry_read

end Script

end StyleSplit
