import StyleSplit.Proofs.Script.Extents

/-! The literals of a derivation: the numbers, texts and templates that stand as an expression
or as a property key. Nothing else in a derivation can keep a script from being put
together. -/
namespace StyleSplit.Script

/-- The terminals whose texts stand for a value. -/
def Terminal.literals : List Terminal := [.number, .string, .template]

/-- What the text of a literal stands for is known. A template with substitutions is not looked
into, and a word always has a meaning. -/
def Token.Decodable (t : Token) : Prop :=
  match t.terminal with
  | .number => ∃ n, Literal.decodeNumber t.text = .ok n
  | .string => ∃ s, Literal.decodeText t.text = .ok s
  | .template =>
    Text.containsText (StyleSplit.text "$\x7b") t.text = true ∨
      ∃ s, Literal.decodeText t.text = .ok s
  | _ => True

namespace Tree

/-- A token that is an expression or a property key on its own. -/
def Literal (tree : Tree) (t : Token) : Prop :=
  ∃ p, Within (.node p [.leaf t]) tree ∧ p.head ∈ [.primary, .propertyKey]

/-- Tokens that are not read as literals: module names, and templates behind a tag. -/
def unread : List (Nonterminal × Terminal) :=
  [(.importDeclaration, .string), (.exportDeclaration, .string), (.callMember, .template)]

/-- A token that is not read, at its place in a derivation. -/
def Unread (tree : Tree) (t : Token) : Prop :=
  ∃ p children, Within (.node p children) tree ∧ .leaf t ∈ children ∧
    (p.head, t.terminal) ∈ unread

end Tree

namespace Action

/-- The terminal of the literals that a production reads. -/
def literal? : Action → Option Terminal
  | .number | .numberKey => some .number
  | .string | .stringKey => some .string
  | .template => some .template
  | _ => none

variable {action : Action} {span : Span} {fs : List Fragment}

/-- Only a production that reads a literal can fail. -/
theorem apply_plain (plain : action.literal? = none) (e : LiteralError) :
    action.apply span fs ≠ .error e := by
  revert plain
  fun_cases apply action span fs <;> intro plain failed <;> contradiction

theorem exists_map_ok {ε α β : Type} {x : Except ε α} {f : α → β} :
    (∃ b, f <$> x = .ok b) ↔ ∃ a, x = .ok a := by
  cases x <;> simp

theorem applyToken_literal (span : Span) {t : Token} (reads : action.literal? = some t.terminal) :
    (∃ out, action.applyToken span t = .ok out) ↔ t.Decodable := by
  obtain ⟨terminal, raw, place⟩ := t
  unfold Token.Decodable
  cases action <;> cases reads
  case template =>
    simp only [applyToken, bind_pure_comp, exists_map_ok, Expr.ofTemplate]
    cases Text.containsText (StyleSplit.text "$\x7b") raw with
    | true => simp
    | false => simp [exists_map_ok]
  all_goals
    simp only [applyToken, bind_pure_comp]
    exact exists_map_ok

theorem literal?_known {terminal : Terminal} (reads : action.literal? = some terminal) :
    terminal ∈ Terminal.literals := by
  cases action <;> cases reads <;> decide

theorem apply_literal {terminal : Terminal} (reads : action.literal? = some terminal)
    (t : Token) : action.apply span [.token t] = action.applyToken span t := by
  cases action <;> first | rfl | contradiction

theorem counts_literal {t : Token} (reads : action.literal? = some t.terminal) :
    Assembled.counts action (.token t) = true := by
  have isOpen : t.terminal.isOpen = true := by
    have known := literal?_known reads
    revert known
    cases t.terminal <;> simp [Terminal.literals, Terminal.isOpen]
  simp [Assembled.counts, isOpen]

end Action

theorem productions_literal : ∀ n, ∀ p ∈ grammar.productions n,
    (Terminal.literals.all fun t => (p.action.literal? == some t) ==
      (p.body == [.terminal t] && [.primary, .propertyKey].contains p.head)) = true :=
  productions_all (by decide)

/-- A production reads a literal exactly if the literal alone makes an expression or a property
key of it. -/
theorem Production.literal_iff {p : Production} {terminal : Terminal}
    (member : p ∈ grammar.productions p.head) : p.action.literal? = some terminal ↔
      terminal ∈ Terminal.literals ∧ p.body = [.terminal terminal] ∧
        p.head ∈ [.primary, .propertyKey] := by
  have check := List.all_eq_true.mp (productions_literal p.head p member) terminal
  by_cases known : terminal ∈ Terminal.literals
  · have same := eq_of_beq (check known)
    rw [← beq_iff_eq, same, Bool.and_eq_true, beq_iff_eq, List.contains_iff_mem]
    exact ⟨fun both => ⟨known, both⟩, And.right⟩
  · refine iff_of_false (fun reads => known ?_) fun both => known both.1
    exact Action.literal?_known reads

theorem Token.decodable_of_plain {t : Token} (plain : t.terminal ∉ Terminal.literals) :
    t.Decodable := by
  unfold Token.Decodable
  split <;> simp_all [Terminal.literals]

namespace Tree

variable {tree : Tree} {p : Production} {children : List Tree} {t : Token}

theorem literal_child {c : Tree} (member : c ∈ children) (literal : c.Literal t) :
    (node p children).Literal t := by
  obtain ⟨q, within, head⟩ := literal
  exact ⟨q, .child member within, head⟩

theorem literal_node (literal : (node p children).Literal t) :
    (children = [.leaf t] ∧ p.head ∈ [.primary, .propertyKey]) ∨ ∃ c ∈ children, c.Literal t := by
  obtain ⟨q, within, head⟩ := literal
  cases within with
  | self => exact .inl ⟨rfl, head⟩
  | child member within => exact .inr ⟨_, member, q, within, head⟩

theorem assemble_plain (plain : p.action.literal? = none) :
    (∃ a, (node p children).assemble = .ok a) ↔ ∀ c ∈ children, ∃ a, c.assemble = .ok a := by
  constructor
  · rintro ⟨a, made⟩ c among
    obtain ⟨parts, _, parted, -⟩ := assemble_node.mp made
    obtain ⟨a, -, made⟩ := mem_of_forall₂ parted.flip among
    exact ⟨a, made⟩
  · intro each
    obtain ⟨parts, parted⟩ := exists_forall₂ each
    cases applied : p.action.apply ((Assembled.extent parts).getD ⟨0, 0⟩)
        (given p.action parts) with
    | ok out => exact ⟨_, assemble_node.mpr ⟨parts, out, parted, applied, rfl⟩⟩
    | error e => exact absurd applied (Action.apply_plain plain e)

theorem assemble_literal_iff (reads : p.action.literal? = some t.terminal) {a : Assembled} :
    (node p [leaf t]).assemble = .ok a ↔
      ∃ out, p.action.applyToken t.span t = .ok out ∧ a = ⟨some t.span, out⟩ := by
  let part : Assembled := ⟨some t.span, [.token t]⟩
  have parted : List.Forall₂ (fun c a => c.assemble = .ok a) [leaf t] [part] :=
    .cons rfl .nil
  have counts : given p.action [part] = [.token t] := by
    simp [given, part, Action.counts_literal reads]
  constructor
  · intro made
    obtain ⟨parts, out, parted', applied, rfl⟩ := assemble_node.mp made
    obtain rfl : parts = [part] := by
      rcases parted' with _ | ⟨first, rest⟩
      cases first
      cases rest
      rfl
    rw [counts, Action.apply_literal reads] at applied
    exact ⟨out, applied, rfl⟩
  · rintro ⟨out, applied, rfl⟩
    refine assemble_node.mpr ⟨_, out, parted, ?_, rfl⟩
    rw [counts, Action.apply_literal reads]
    exact applied

theorem assemble_literal (reads : p.action.literal? = some t.terminal) :
    (∃ a, (node p [leaf t]).assemble = .ok a) ↔ t.Decodable := by
  rw [← Action.applyToken_literal t.span reads]
  constructor
  · rintro ⟨a, made⟩
    obtain ⟨out, applied, -⟩ := (assemble_literal_iff reads).mp made
    exact ⟨out, applied⟩
  · rintro ⟨out, applied⟩
    exact ⟨_, (assemble_literal_iff reads).mpr ⟨out, applied, rfl⟩⟩

theorem literal_leaf (literal : (leaf t).Literal u) : False := by
  obtain ⟨q, within, -⟩ := literal
  cases within

/-- A derivation can be put together exactly if all its literals have a meaning. -/
theorem assemble_ok_iff (valid : tree.valid grammar = true) :
    (∃ a, tree.assemble = .ok a) ↔ ∀ t, tree.Literal t → t.Decodable := by
  induction tree using Tree.induct with
  | leaf t => exact iff_of_true ⟨_, rfl⟩ fun u literal => (literal_leaf literal).elim
  | node p children ih =>
    obtain ⟨member, body, each⟩ := valid_node.mp valid
    cases reads : p.action.literal? with
    | none =>
      rw [assemble_plain reads]
      constructor
      · intro made u literal
        rcases literal_node literal with ⟨rfl, stands⟩ | ⟨c, among, inner⟩
        · refine Token.decodable_of_plain fun known => ?_
          have reads' := (Production.literal_iff member).mpr ⟨known, body.symm, stands⟩
          exact absurd (reads.symm.trans reads') (by simp)
        · exact (ih c among (each c among)).mp (made c among) u inner
      · intro decodable c among
        exact (ih c among (each c among)).mpr fun u literal =>
          decodable u (literal_child among literal)
    | some terminal =>
      obtain ⟨-, single, stands⟩ := (Production.literal_iff member).mp reads
      rw [single, List.map_eq_singleton_iff] at body
      obtain ⟨c, rfl, symbol⟩ := body
      obtain ⟨t, rfl, rfl⟩ := leaf_of_symbol symbol
      rw [assemble_literal reads]
      constructor
      · intro decodable u literal
        rcases literal_node literal with ⟨same, -⟩ | ⟨c, among, inner⟩
        · cases same
          exact decodable
        · cases List.mem_singleton.mp among
          exact (literal_leaf inner).elim
      · intro decodable
        exact decodable t ⟨p, .self, stands⟩

theorem productions_unread : ∀ n, ∀ p ∈ grammar.productions n,
    (Terminal.literals.all fun t => !p.body.contains (.terminal t) ||
      p.body == [.terminal t] && [.primary, .propertyKey].contains p.head ||
      unread.contains (p.head, t)) = true :=
  productions_all (by decide)

/-- Every number, string and template of a derivation is a literal of it or is not read. -/
theorem literal_or_unread {n : Nonterminal} (valid : tree.valid grammar = true)
    (symbol : tree.symbol = .nonterminal n) (among : t ∈ tree.word)
    (known : t.terminal ∈ Terminal.literals) : tree.Literal t ∨ tree.Unread t := by
  induction tree using Tree.induct generalizing n with
  | leaf u => cases symbol
  | node p children ih =>
    obtain ⟨member, body, each⟩ := valid_node.mp valid
    rw [word, words_eq_flatMap, List.mem_flatMap] at among
    obtain ⟨c, child, inside⟩ := among
    cases c with
    | node q below =>
      rcases ih _ child (each _ child) rfl inside with literal | ⟨q, inner, within, rest⟩
      · exact .inl (literal_child child literal)
      · exact .inr ⟨q, inner, .child child within, rest⟩
    | leaf u =>
      obtain rfl := List.mem_singleton.mp inside
      have check := List.all_eq_true.mp (productions_unread p.head p member) t.terminal known
      have stands : p.body.contains (.terminal t.terminal) = true := by
        rw [List.contains_iff_mem, ← body]
        exact List.mem_map.mpr ⟨_, child, rfl⟩
      rw [stands, Bool.not_true, Bool.false_or, Bool.or_eq_true, Bool.and_eq_true, beq_iff_eq,
        List.contains_iff_mem, List.contains_iff_mem] at check
      rcases check with ⟨single, head⟩ | unread
      · rw [single, List.map_eq_singleton_iff] at body
        obtain ⟨c, rfl, -⟩ := body
        rw [← List.mem_singleton.mp child]
        exact .inl ⟨p, .self, head⟩
      · exact .inr ⟨p, children, .self, child, unread⟩

end Tree

end StyleSplit.Script
