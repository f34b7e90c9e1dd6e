import Mathlib.Data.List.DropRight
import StyleSplit.Proofs.Related
import StyleSplit.Proofs.Sheet.Allocating
import StyleSplit.Proofs.Sheet.Collecting
import StyleSplit.Proofs.Sheet.Issuing
import StyleSplit.Sheet.Compile

/-! Which standard class names are names in a style sheet. A standard name without a prefix
is made of letters, digits, underscores and hyphens, and does not start with a hyphen; but it
starts with a digit whenever the first mark of its selector is one, and a selector of a style
sheet must not. The word that stands for a selector without any mark is safe. -/
namespace StyleSplit

/-- What a name in a style sheet may start with. -/
def CodePoint.startsName (c : CodePoint) : Bool := c.isLetter || c == CodePoint.underscore

/-- A name in a style sheet: it starts with a letter or an underscore, behind a hyphen if it
is a vendor's name, or with two hyphens if it is a custom one. -/
inductive ClassName : Text → Prop where
  | plain {c : CodePoint} {rest : Text} : c.startsName = true →
      (∀ d ∈ rest, Naming.isSafe d = true) → ClassName (c :: rest)
  | vendor {c : CodePoint} {rest : Text} : c.startsName = true →
      (∀ d ∈ rest, Naming.isSafe d = true) → ClassName (CodePoint.hyphen :: c :: rest)
  | custom {rest : Text} : (∀ d ∈ rest, Naming.isSafe d = true) →
      ClassName (CodePoint.hyphen :: CodePoint.hyphen :: rest)

theorem className_cons_iff {c : CodePoint} {rest : Text} (front : c ≠ CodePoint.hyphen)
    (safe : ∀ d ∈ rest, Naming.isSafe d = true) : ClassName (c :: rest) ↔ c.startsName = true := by
  constructor
  · intro name
    cases name with
    | plain starts _ => exact starts
    | vendor _ _ => exact absurd rfl front
    | custom _ => exact absurd rfl front
  · exact fun starts => .plain starts safe

namespace Naming

/-- A letter, a digit or an underscore: what a standard class name shows of a selector,
whatever stands around it. -/
def isMark (c : CodePoint) : Bool := isSafe c && c != CodePoint.hyphen

/-- The first letter, digit or underscore of the selector is a digit. -/
def leadsWithDigit (selector : Text) : Bool := (selector.find? isMark).any CodePoint.isDigit

theorem isSafe_hyphen : isSafe CodePoint.hyphen = true := rfl

theorem isSafe_of_isDigit {c : CodePoint} (digit : c.isDigit = true) : isSafe c = true := by
  simp [isSafe, digit]

theorem isSafe_ofNat {n : Nat} {c : CodePoint} (member : c ∈ Text.ofNat n) : isSafe c = true :=
  isSafe_of_isDigit (Text.isDigit_of_mem_ofNat member)

theorem startsName_of_isDigit {c : CodePoint} (digit : c.isDigit = true) :
    c.startsName = false := by
  simp only [CodePoint.isDigit, Bool.and_eq_true, Nat.ble_eq] at digit
  rw [Bool.eq_false_iff]
  simp only [CodePoint.startsName, CodePoint.isLetter, CodePoint.isUpper, CodePoint.isLower,
    Bool.or_eq_true, Bool.and_eq_true, Nat.ble_eq, beq_iff_eq, ne_eq]
  rintro ((⟨low, -⟩ | ⟨low, -⟩) | rfl)
  · omega
  · omega
  · exact absurd digit (by decide)

/-- A mark is a digit, or a name can start with it. -/
theorem startsName_of_isMark {c : CodePoint} (mark : isMark c = true) :
    c.startsName = true ↔ c.isDigit = false := by
  constructor
  · intro starts
    by_contra digit
    rw [Bool.not_eq_false] at digit
    exact absurd starts (by simp [startsName_of_isDigit digit])
  · intro digit
    simp only [isMark, isSafe, digit, Bool.or_false, Bool.and_eq_true, Bool.or_eq_true,
      bne_iff_ne, beq_iff_eq] at mark
    obtain ⟨(letter | underscore) | hyphen, other⟩ := mark
    · simp [CodePoint.startsName, letter]
    · simp [CodePoint.startsName, underscore]
    · exact absurd hyphen other

theorem isSafe_dashed {t : Text} {c : CodePoint} (member : c ∈ dashed t) : isSafe c = true := by
  fun_induction dashed t with
  | case1 => cases member
  | case2 d rest safe ih =>
    rcases List.mem_cons.mp member with rfl | later
    · exact safe
    · exact ih later
  | case3 _ d rest _ _ ih =>
    rcases List.mem_cons.mp member with rfl | later
    · exact isSafe_hyphen
    · exact ih later
  | case4 _ _ _ _ _ ih => exact ih member
  | case5 => exact List.mem_singleton.mp member ▸ isSafe_hyphen

/-- Behind the hyphens at its front, a selector in safe form starts with its first mark. -/
theorem head_dashed (t : Text) :
    ((dashed t).dropWhile (· == CodePoint.hyphen)).head? = t.find? isMark := by
  have skip (rest : Text) : (CodePoint.hyphen :: rest).dropWhile (· == CodePoint.hyphen) =
      rest.dropWhile (· == CodePoint.hyphen) := List.dropWhile_cons_of_pos (beq_self_eq_true _)
  have unsafely {c : CodePoint} (other : ¬isSafe c = true) (rest : Text) :
      (c :: rest).find? isMark = rest.find? isMark := by
    exact List.find?_cons_of_neg (by simp [isMark, other])
  fun_induction dashed t with
  | case1 => rfl
  | case2 c rest safe ih =>
    by_cases hyphen : c = CodePoint.hyphen
    · subst hyphen
      rw [skip, ih, List.find?_cons_of_neg (by simp [isMark])]
    · rw [List.dropWhile_cons_of_neg (by simpa using hyphen), List.head?_cons,
        List.find?_cons_of_pos (by simp [isMark, safe, hyphen])]
  | case3 _ other _ _ _ ih => rw [skip, ih, unsafely other]
  | case4 _ other _ _ _ ih => rw [ih, unsafely other]
  | case5 c other => rw [unsafely other]; rfl

/-- The part of a class name that comes from the selector starts with the first mark of the
selector, or with the first letter of the word that is used when there is none. -/
theorem stem_eq (selector : Text) : ∃ rest, (∀ d ∈ rest, isSafe d = true) ∧
    stem selector = (selector.find? isMark).getD 114 :: rest := by
  let hyphen : CodePoint → Bool := (· == CodePoint.hyphen)
  let front := (dashed selector).dropWhile hyphen
  have safe : ∀ d ∈ front, isSafe d = true :=
    fun d member => isSafe_dashed ((List.dropWhile_suffix _).subset member)
  have head : front.head? = selector.find? isMark := head_dashed selector
  have whole : stripped (dashed selector) = front.rdropWhile hyphen := rfl
  rw [← head, stem, whole]
  cases shape : front with
  | nil => exact ⟨text "ule", by decide, rfl⟩
  | cons c rest =>
    have other : ¬hyphen c = true := by
      have marked := List.find?_some (head.symm.trans (by rw [shape, List.head?_cons]))
      simp only [isMark, Bool.and_eq_true, bne_iff_ne] at marked
      simpa [hyphen] using marked.2
    -- The mark at the front keeps the text from being stripped away from the back.
    obtain ⟨behind, back⟩ := List.rdropWhile_prefix hyphen (l := c :: rest)
    cases kept : (c :: rest).rdropWhile hyphen with
    | nil => exact absurd (List.rdropWhile_eq_nil_iff.mp kept c List.mem_cons_self) other
    | cons d kept' =>
      rw [kept] at back
      obtain ⟨rfl, rfl⟩ := List.cons.inj back
      exact ⟨kept', fun e member => safe e (by simp [shape, member]), rfl⟩

/-- Without a prefix, a standard name is a class name unless the first mark of the selector
is a digit. -/
theorem className_standardName {selector : Text} {context : CallContext}
    (bare : context.classPrefix.getD [] = []) :
    ClassName (standardName selector context) ↔ leadsWithDigit selector = false := by
  obtain ⟨rest, safe, stem⟩ := stem_eq selector
  have whole : standardName selector context = (selector.find? isMark).getD 114 ::
      (rest ++ text "-" ++ Text.ofNat context.sequence) := by
    rw [standardName, bare, stem]
    rfl
  have behind : ∀ d ∈ rest ++ text "-" ++ Text.ofNat context.sequence, isSafe d = true := by
    intro d member
    rcases List.mem_append.mp member with front | digits
    · rcases List.mem_append.mp front with stem | hyphen
      · exact safe d stem
      · exact List.mem_singleton.mp hyphen ▸ isSafe_hyphen
    · exact isSafe_ofNat digits
  have mark : isMark ((selector.find? isMark).getD 114) = true := by
    cases found : selector.find? isMark with
    | none => rfl
    | some c => exact List.find?_some found
  have front : (selector.find? isMark).getD 114 ≠ CodePoint.hyphen := by
    simp only [isMark, Bool.and_eq_true, bne_iff_ne] at mark
    exact mark.2
  rw [whole, className_cons_iff front behind, startsName_of_isMark mark, leadsWithDigit]
  cases selector.find? isMark with
  | none => exact iff_of_true rfl rfl
  | some c => rfl

end Naming

namespace Compiler

variable {c : Compiler} {context : CallContext} {rules : Rules} {a a' : Allocator} {sheet : Sheet}

/-- A rule, and the class name that the naming function made for its selector. -/
structure NamedRule where
  selector : Text
  properties : Properties
  identifier : Text

/-- The properties of a rule behind the plugins. -/
def NamedRule.processed (c : Compiler) (context : CallContext) (rule : NamedRule) : Properties :=
  Plugin.applyAll c.plugins rule.selector rule.properties context

/-- What a compiled sheet is made of: every rule has a name, the last name of a selector is
the one in the class map, and the rules with properties left are the blocks of the text. -/
structure Compiles (c : Compiler) (context : CallContext) (rules : Rules)
    (blocks : List Text) (classes : List (Text × Text)) (named : List NamedRule)
    (sheet : Sheet) : Prop where
  rules : named.map (fun rule => (rule.selector, rule.properties)) = rules
  made : ∀ rule ∈ named, ∃ n,
    Allocator.name? (c.naming rule.selector { context with sequence := n }) = some rule.identifier
  classes : sheet.classes = (named.map fun rule => (rule.selector, rule.identifier)).foldl
    (fun entries pair => insertEntry pair.1 pair.2 entries) classes
  blocks : ∃ written, sheet.rawText = joinRules (blocks ++ written) ∧
    List.Forall₂ (fun rule block => writeRule rule.identifier (rule.processed c context) = .ok block)
      (named.filter fun rule => !(rule.processed c context).isEmpty) written

/-- A name that is given out was made by the naming function. -/
theorem name?_of_allocate {naming : Naming} {selector identifier : Text}
    (given : a.allocate naming selector context = (.ok identifier, a')) :
    Allocator.name? (naming selector { context with sequence := a.sequence + 1 }) =
      some identifier := by
  rw [Allocator.allocate_constant rfl] at given
  obtain ⟨answer, named, -⟩ := Allocator.allocate_ok_iff.mp (congrArg Prod.fst given)
  exact Allocator.name?_eq_some.mpr ⟨answer, named⟩

theorem compiles_of_compileRules {blocks : List Text} {classes : List (Text × Text)}
    (compiled : c.compileRules context rules blocks classes a = (.ok sheet, a')) :
    ∃ named, c.Compiles context rules blocks classes named sheet := by
  induction rules generalizing blocks classes a with
  | nil =>
    simp only [compileRules, Prod.mk.injEq, Except.ok.injEq] at compiled
    obtain ⟨rfl, -⟩ := compiled
    exact ⟨[], rfl, by simp, rfl, [], by simp, .nil⟩
  | cons rule rest ih =>
    obtain ⟨selector, properties⟩ := rule
    simp only [compileRules] at compiled
    split at compiled
    · cases compiled
    rename_i identifier next given
    have name := name?_of_allocate given
    let first : NamedRule := ⟨selector, properties, identifier⟩
    split at compiled
    · rename_i empty
      obtain ⟨named, rules, made, map, written, text, blocks⟩ := ih compiled
      refine ⟨first :: named, by simp [first, rules], ?_, map, written, text, ?_⟩
      · exact List.forall_mem_cons.mpr ⟨⟨_, name⟩, made⟩
      · rwa [List.filter_cons_of_neg (by simpa [NamedRule.processed, first] using empty)]
    · rename_i some
      split at compiled
      · cases compiled
      rename_i block writes
      obtain ⟨named, rules, made, map, written, text, blocks⟩ := ih compiled
      refine ⟨first :: named, by simp [first, rules], ?_, map, block :: written, ?_, ?_⟩
      · exact List.forall_mem_cons.mpr ⟨⟨_, name⟩, made⟩
      · rw [text, List.append_assoc, List.singleton_append]
      · rw [List.filter_cons_of_pos (by simpa [NamedRule.processed, first] using some)]
        exact .cons writes blocks

namespace Compiles

variable {named : List NamedRule} {rule : NamedRule}

/-- Every selector is in the class map once, where it first comes. -/
theorem keys (made : c.Compiles context rules [] [] named sheet) :
    sheet.classes.map Prod.fst = (rules.map Prod.fst).eraseDups := by
  have whole : sheet.classes = collectEntries (named.map fun rule =>
      (rule.selector, rule.identifier)) := made.classes
  rw [whole, collectEntries_keys, ← made.rules, List.map_map, List.map_map]
  rfl

theorem named_of_mem (made : c.Compiles context rules [] [] named sheet)
    {entry : Text × Text} (member : entry ∈ sheet.classes) :
    ∃ rule ∈ named, (rule.selector, rule.identifier) = entry := by
  have whole : sheet.classes = collectEntries (named.map fun rule =>
      (rule.selector, rule.identifier)) := made.classes
  rw [whole] at member
  obtain ⟨earlier, later, split, -⟩ := mem_collectEntries_iff.mp member
  exact List.mem_map.mp (split ▸ List.mem_append_right _ List.mem_cons_self)

/-- A standard name of a rule is a class name unless the first mark of the selector is a
digit. -/
theorem className_iff {blocks : List Text} {classes : List (Text × Text)}
    (made : c.Compiles context rules blocks classes named sheet)
    (standard : c.naming = Naming.standard) (bare : context.classPrefix.getD [] = [])
    (member : rule ∈ named) :
    ClassName rule.identifier ↔ Naming.leadsWithDigit rule.selector = false := by
  obtain ⟨n, name⟩ := made.made rule member
  rw [standard] at name
  obtain ⟨answer, -⟩ := Allocator.name?_eq_some.mp name
  rw [← Answer.text.inj answer]
  exact @Naming.className_standardName rule.selector { context with sequence := n } bare

end Compiles

/-- What a written rule starts with. -/
theorem writeRule_header {identifier block : Text} {properties : Properties}
    (written : writeRule identifier properties = .ok block) :
    ∃ body, block = text "." ++ identifier ++ text " \x7b" ++ CodePoint.newline :: body := by
  simp only [writeRule, bind, Except.bind, pure, Except.pure] at written
  split at written
  · cases written
  · rename_i declarations _
    cases written
    cases declarations with
    | nil => exact ⟨_, by simp [Text.join]; rfl⟩
    | cons first rest => exact ⟨_, by simp [Text.join]; rfl⟩

/-- In a sheet that is compiled with the standard naming function and without a prefix, a
selector has a class name that is valid exactly when the first letter, digit or underscore of
the selector is not a digit; so all class names are valid exactly when no selector has a digit
there. The blocks of the text are the rules with properties left behind the plugins, in order,
and each is headed by a class selector under the same condition. -/
theorem standard_classNames (standard : c.naming = Naming.standard)
    (bare : c.classPrefix.getD [] = []) {callIndex : Nat}
    (compiled : c.compile rules callIndex a = (.ok sheet, a')) :
    sheet.classes.map Prod.fst = (rules.map Prod.fst).eraseDups ∧
      (∀ entry ∈ sheet.classes, ClassName entry.2 ↔ Naming.leadsWithDigit entry.1 = false) ∧
      ((∀ entry ∈ sheet.classes, ClassName entry.2) ↔
        ∀ rule ∈ rules, Naming.leadsWithDigit rule.1 = false) ∧
      ∃ blocks, sheet.rawText = joinRules blocks ∧
        List.Forall₂ (fun rule block => ∃ identifier body,
            block = text "." ++ identifier ++ text " \x7b" ++ CodePoint.newline :: body ∧
              (ClassName identifier ↔ Naming.leadsWithDigit rule.1 = false))
          (rules.filter fun rule =>
            !(Plugin.applyAll c.plugins rule.1 rule.2 (c.context callIndex)).isEmpty) blocks := by
  obtain ⟨named, made⟩ := compiles_of_compileRules compiled
  have valid : ∀ entry ∈ sheet.classes,
      (ClassName entry.2 ↔ Naming.leadsWithDigit entry.1 = false) := by
    intro entry member
    obtain ⟨rule, listed, rfl⟩ := made.named_of_mem member
    exact made.className_iff standard bare listed
  have keys {selector : Text} : selector ∈ sheet.classes.map Prod.fst ↔
      selector ∈ rules.map Prod.fst := by
    rw [made.keys, List.mem_eraseDups]
  refine ⟨made.keys, valid, ?_, ?_⟩
  · constructor
    · intro all rule member
      obtain ⟨entry, listed, same⟩ := List.mem_map.mp (keys.mpr (List.mem_map_of_mem member))
      exact same ▸ (valid entry listed).mp (all entry listed)
    · intro none entry listed
      obtain ⟨rule, member, same⟩ := List.mem_map.mp (keys.mp (List.mem_map_of_mem listed))
      exact (valid entry listed).mpr (same ▸ none rule member)
  · obtain ⟨blocks, text, headed⟩ := made.blocks
    refine ⟨blocks, text, ?_⟩
    rw [← made.rules, List.filter_map, List.forall₂_map_left_iff]
    refine forall₂_of_mem (fun rule member block writes => ?_) headed
    obtain ⟨body, header⟩ := writeRule_header writes
    exact ⟨rule.identifier, body, header,
      made.className_iff standard bare (List.mem_filter.mp member).1⟩

/-- The rules of `{box: {color: "red"}, "2col": {color: "red"}}`. -/
def twoRules : Rules :=
  [(text "box", [(text "color", .scalar (.text (text "red")))]),
   (text "2col", [(text "color", .scalar (.text (text "red")))])]

/-- Standard names without a prefix and without plugins. -/
def plainest : Compiler :=
  { naming := .standard, plugins := [], classPrefix := none, filename := [] }

theorem standard_classNames_two : ∃ sheet a',
    plainest.compile twoRules 0 .start = (.ok sheet, a') ∧
      sheet.classes = [(text "box", text "box-1"), (text "2col", text "2col-2")] ∧
      ((∀ entry ∈ sheet.classes, ClassName entry.2) ↔
        ∀ rule ∈ twoRules, Naming.leadsWithDigit rule.1 = false) := by
  obtain ⟨sheet, a', compiled, classes⟩ : ∃ sheet a',
      plainest.compile twoRules 0 .start = (.ok sheet, a') ∧
        sheet.classes = [(text "box", text "box-1"), (text "2col", text "2col-2")] :=
    ⟨_, _, rfl, by decide +kernel⟩
  exact ⟨sheet, a', compiled, classes, (standard_classNames rfl rfl compiled).2.2.1⟩

/-- Not every class name is valid: the selector `1` gets the class name `1-1`. -/
theorem standard_className_invalid : ∃ sheet a',
    plainest.compile [(text "1", [(text "color", .scalar (.text (text "red")))])] 0 .start =
        (.ok sheet, a') ∧
      sheet.classes = [(text "1", text "1-1")] ∧ ¬ClassName (text "1-1") ∧
      sheet.rawText = text ".1-1 \x7b\n  color: red;\n\x7d" := by
  have invalid : ¬ClassName (text "1-1") := by
    intro name
    have starts := (className_cons_iff (by decide) (by decide)).mp name
    exact absurd starts (by decide)
  exact ⟨_, _, rfl, by decide +kernel, invalid, by decide +kernel⟩

end Compiler

end StyleSplit
