import StyleSplit.Proofs.Script.Lexicon
import StyleSplit.Proofs.Script.Relexing

/-! Maximal munch. A text splits into gaps and texts of terminals, each of them the longest
that stands at its place, and no place has two terminals with the same text. So the lexicon
alone says what the tokens of a text are, and reading finds them. -/
namespace StyleSplit.Script

namespace Keyword

theorem ofSpelling?_spelling (word : Keyword) : ofSpelling? word.spelling = some word := by
  cases word <;> decide +kernel

theorem eq_spelling {word : Keyword} {t : Text} (found : ofSpelling? t = some word) :
    t = word.spelling := by
  unfold ofSpelling? at found
  have same := List.find?_some found
  exact (eq_of_beq same).symm

theorem spelling_name (word : Keyword) : word.spelling ∈ Lexicon.name := by
  have check : (word.spelling.head?.any Token.isNameStart &&
      word.spelling.tail.all Token.isNamePart) = true := by
    cases word <;> decide +kernel
  cases spelled : word.spelling with
  | nil => simp [spelled] at check
  | cons c rest =>
    rw [spelled] at check
    obtain ⟨start, each⟩ := Bool.and_eq_true_iff.mp check
    exact Lexicon.mem_one_mul.mpr ⟨c, rest, rfl, start, List.all_eq_true.mp each⟩

end Keyword

namespace Token

open Lexicon

variable {t x more rest : Text} {terminal : Terminal} {u : List (Terminal × Text)}

/-- What may be taken from the front of a text: a gap, or a text of a terminal. -/
def Fronts (t x : Text) : Prop := x <+: t ∧ (x ∈ gap ∨ ∃ terminal, x ∈ lexemes terminal)

/-- Nothing longer may be taken from the front of a text. -/
def Longest (t x : Text) : Prop := ∀ y, Fronts t y → y.length ≤ x.length

/-- The split of a text into the longest gaps and texts of terminals, gaps left out. -/
inductive Splits : Text → List (Terminal × Text) → Prop where
  | done : Splits [] []
  | gap {x rest : Text} {u : List (Terminal × Text)} : x ∈ gap → Longest (x ++ rest) x →
      Splits rest u → Splits (x ++ rest) u
  | token {terminal : Terminal} {x rest : Text} {u : List (Terminal × Text)} :
      x ∈ lexemes terminal → Longest (x ++ rest) x → Splits rest u →
      Splits (x ++ rest) ((terminal, x) :: u)

theorem readTerminal_member (read : readTerminal t = some (terminal, x, rest)) :
    x ∈ lexemes terminal := by
  cases readTerminal_iff.mp read with
  | double found => exact .inl (readQuoted_member found)
  | single found => exact .inr (readQuoted_member found)
  | template found => exact readQuoted_member found
  | number found => exact readNumber_munches.member found
  | keyword _ spelled => exact Keyword.eq_spelling spelled
  | name found plain =>
    refine ⟨readName_munches.member found, ?_⟩
    rintro word rfl
    rw [Keyword.ofSpelling?_spelling] at plain
    cases plain
  | punctuator => exact rfl

theorem spelling_injective {mark mark' : Punctuator} (same : mark.spelling = mark'.spelling) :
    mark = mark' := by
  have listed (m : Punctuator) : m ∈ Punctuator.byLength := by cases m <;> decide
  have distinct : (Punctuator.byLength.map Punctuator.spelling).Nodup := by decide +kernel
  exact List.inj_on_of_nodup_map distinct (listed mark) (listed mark') same

/-- In a list with the longer punctuators first the longest one is found. -/
theorem readPunctuator_longest {marks : List Punctuator} {mark : Punctuator}
    (ordered : marks.Pairwise fun a b => b.spelling.length ≤ a.spelling.length)
    (member : mark ∈ marks) (more : Text) :
    ∃ mark' rest, readPunctuator marks (mark.spelling ++ more) = some (mark', rest) ∧
      mark.spelling.length ≤ mark'.spelling.length := by
  induction marks with
  | nil => cases member
  | cons first others ih =>
    obtain ⟨longer, ordered⟩ := List.pairwise_cons.mp ordered
    unfold readPunctuator
    cases found : first.spelling.isPrefixOf? (mark.spelling ++ more) with
    | some rest =>
      refine ⟨first, rest, rfl, ?_⟩
      rcases List.mem_cons.mp member with rfl | member
      · exact Nat.le_refl _
      · exact longer mark member
    | none =>
      rcases List.mem_cons.mp member with rfl | member
      · rw [List.isPrefixOf?_eq_some_iff_append_eq.mpr rfl] at found
        cases found
      · exact ih ordered member

/-- A number that starts with a point goes on with a digit. -/
theorem number_point (member : CodePoint.point :: x ∈ number) :
    ∃ d rest, x = d :: rest ∧ d.isDecimal = true := by
  rcases member with radix | radix | radix | decimal
  · obtain ⟨_, _, same, zero, -⟩ := mem_one_mul.mp radix
    cases same
    cases zero
  · obtain ⟨_, _, same, zero, -⟩ := mem_one_mul.mp radix
    cases same
    cases zero
  · obtain ⟨_, _, same, zero, -⟩ := mem_one_mul.mp radix
    cases same
    cases zero
  · rw [Lexicon.decimal, add_mul, mul_assoc, mul_assoc, mul_assoc] at decimal
    rcases decimal with whole | part
    · obtain ⟨_, _, same, digit, -⟩ := mem_one_mul.mp whole
      cases same
      exact absurd digit (by decide)
    · obtain ⟨_, _, same, -, behind⟩ := mem_one_mul.mp part
      cases same
      rw [several, mul_assoc] at behind
      obtain ⟨d, rest, rfl, digit, -⟩ := mem_one_mul.mp behind
      exact ⟨d, rest, rfl, digit⟩

theorem number_head (member : x ∈ number) :
    ∃ c rest, x = c :: rest ∧ (c.isDecimal = true ∨ c = CodePoint.point) := by
  obtain ⟨lexeme, rest, read, longer⟩ := readNumber_munches.longest x member []
  rw [List.append_nil] at read
  exact readNumber_head read

/-- Where a number and a punctuator stand, the number is longer. -/
theorem spelling_lt_number (mark : Punctuator) {lexeme rest : Text}
    (read : readNumber (mark.spelling ++ more) = some (lexeme, rest)) :
    mark.spelling.length < lexeme.length := by
  have member := readNumber_munches.member read
  have whole := (readNumber_exact read).1
  obtain ⟨c, l, rfl, digit⟩ := number_head member
  have heads : mark.spelling.head?.all (fun c => !CodePoint.isDecimal c &&
      (c != CodePoint.point || mark.spelling == [46] || mark.spelling == [46, 46, 46])) = true := by
    cases mark <;> decide +kernel
  cases spelled : mark.spelling with
  | nil => exact absurd spelled (spelling_ne_nil mark)
  | cons d tail =>
    rw [spelled] at whole heads
    obtain ⟨rfl, behind⟩ := List.cons.inj whole
    simp only [List.head?_cons, Option.all_some, Bool.and_eq_true, Bool.not_eq_true'] at heads
    obtain ⟨plain, point⟩ := heads
    rcases digit with digit | rfl
    · rw [digit] at plain
      cases plain
    · obtain ⟨e, l, rfl, digit⟩ := number_point member
      simp only [bne_self_eq_false, Bool.false_or, Bool.or_eq_true, beq_iff_eq] at point
      rcases point with dot | dots
      · simp [(List.cons.inj dot).2]
      · obtain ⟨-, rfl⟩ := List.cons.inj dots
        obtain ⟨rfl, -⟩ := List.cons.inj behind
        exact absurd digit (by decide)

theorem readName_longest (member : x ∈ name) (more : Text) :
    ∃ lexeme rest, readName (x ++ more) = some (lexeme, rest) ∧
      (x.length < lexeme.length ∨ x = lexeme) := by
  obtain ⟨lexeme, rest, read, longer⟩ := readName_munches.longest x member more
  refine ⟨lexeme, rest, read, (Nat.lt_or_eq_of_le longer).imp_right fun same => ?_⟩
  exact (List.append_inj (readName_exact read).1 same).1

/-- A mark is read as far as it goes, unless a number or a longer mark starts there. -/
theorem readMark_longest (mark : Punctuator) (more : Text) :
    ∃ terminal' lexeme rest, Stands (mark.spelling ++ more) terminal' lexeme rest ∧
      (mark.spelling.length < lexeme.length ∨
        mark.spelling.length = lexeme.length ∧ terminal' = .punctuator mark) := by
  cases number : readNumber (mark.spelling ++ more) with
  | some r => exact ⟨_, r.1, r.2, .number number, .inl (spelling_lt_number mark number)⟩
  | none =>
    have ordered : Punctuator.byLength.Pairwise
        fun a b => b.spelling.length ≤ a.spelling.length := by decide +kernel
    have listed : mark ∈ Punctuator.byLength := by cases mark <;> decide
    obtain ⟨mark', rest, read, longer⟩ := readPunctuator_longest ordered listed more
    refine ⟨_, mark'.spelling, rest, .punctuator number read, ?_⟩
    refine (Nat.lt_or_eq_of_le longer).imp_right fun same => ⟨same, ?_⟩
    have spellings := (List.append_inj (readPunctuator_exact read) same).1
    rw [spelling_injective spellings]

/-- What is read of a text in front of which a text of a terminal stands: something longer, or
that text as that terminal. -/
theorem readTerminal_longest (member : x ∈ lexemes terminal) (more : Text) :
    ∃ terminal' lexeme rest, readTerminal (x ++ more) = some (terminal', lexeme, rest) ∧
      (x.length < lexeme.length ∨ x.length = lexeme.length ∧ terminal' = terminal) := by
  simp only [readTerminal_iff]
  cases terminal with
  | string =>
    rcases member with member | member
    · exact ⟨_, x, more, .double (readQuoted_longest (by decide) member more), .inr ⟨rfl, rfl⟩⟩
    · exact ⟨_, x, more, .single (readQuoted_longest (by decide) member more), .inr ⟨rfl, rfl⟩⟩
  | template =>
    exact ⟨_, x, more, .template (readQuoted_longest (by decide) member more), .inr ⟨rfl, rfl⟩⟩
  | number =>
    obtain ⟨lexeme, rest, read, longer⟩ := readNumber_munches.longest x member more
    exact ⟨_, lexeme, rest, .number read, (Nat.lt_or_eq_of_le longer).imp_right (⟨·, rfl⟩)⟩
  | name =>
    obtain ⟨member, free⟩ := member
    obtain ⟨lexeme, rest, read, longer⟩ := readName_longest member more
    cases spelled : Keyword.ofSpelling? lexeme with
    | none =>
      exact ⟨_, lexeme, rest, .name read spelled, longer.imp_right fun same => by simp [same]⟩
    | some word =>
      refine ⟨_, lexeme, rest, .keyword read spelled, .inl (longer.resolve_right ?_)⟩
      rintro rfl
      exact free word (Keyword.eq_spelling spelled)
  | keyword word =>
    obtain rfl : x = word.spelling := member
    obtain ⟨lexeme, rest, read, longer⟩ := readName_longest word.spelling_name more
    cases spelled : Keyword.ofSpelling? lexeme with
    | none =>
      refine ⟨_, lexeme, rest, .name read spelled, .inl (longer.resolve_right ?_)⟩
      rintro rfl
      rw [Keyword.ofSpelling?_spelling] at spelled
      cases spelled
    | some word' =>
      refine ⟨_, lexeme, rest, .keyword read spelled, longer.imp_right ?_⟩
      rintro rfl
      rw [Keyword.ofSpelling?_spelling] at spelled
      cases spelled
      exact ⟨rfl, rfl⟩
  | punctuator mark =>
    obtain rfl : x = mark.spelling := member
    exact readMark_longest mark more

/-- A comment is skipped up to the first end mark. -/
theorem skipBlock_iff {behind : Text} : skipBlock t = some behind ↔
    ∃ body, t = body ++ 42 :: 47 :: behind ∧ ¬[42, 47] <:+: body ++ [42] := by
  induction t using skipBlock.induct with
  | case1 => simp [skipBlock]
  | case2 cs =>
    rw [skipBlock, Option.some.injEq]
    constructor
    · rintro rfl
      exact ⟨[], rfl, by decide⟩
    · rintro ⟨body, same, early⟩
      rcases body with _ | ⟨a, _ | ⟨b, body⟩⟩
      · exact (List.cons.inj (List.cons.inj same).2).2
      · cases (List.cons.inj (List.cons.inj same).2).1
      · obtain ⟨rfl, behind⟩ := List.cons.inj same
        obtain ⟨rfl, -⟩ := List.cons.inj behind
        exact absurd ⟨[], body ++ [42], by simp⟩ early
  | case3 c cs other ih =>
    rw [skipBlock, ih]
    · constructor
      · rintro ⟨body, rfl, early⟩
        refine ⟨c :: body, rfl, fun infix_ => ?_⟩
        rcases List.infix_cons_iff.mp infix_ with ⟨more, front⟩ | later
        · obtain ⟨rfl, behind⟩ := List.cons.inj front
          cases body with
          | nil => cases (List.cons.inj behind).1
          | cons d body =>
            obtain ⟨rfl, -⟩ := List.cons.inj behind
            exact other _ rfl rfl
        · exact early later
      · rintro ⟨body, same, early⟩
        cases body with
        | nil =>
          obtain ⟨rfl, rfl⟩ := List.cons.inj same
          exact absurd rfl (other _ rfl)
        | cons d body =>
          obtain ⟨rfl, rfl⟩ := List.cons.inj same
          exact ⟨body, rfl, fun later => early (List.infix_cons_iff.mpr (.inr later))⟩
    · exact other

theorem skipGap_member {behind : Text} (skipped : skipGap t = some behind) :
    ∃ x ∈ gap, t = x ++ behind := by
  obtain ⟨b, rfl, filled, blank⟩ | ⟨line, rfl, each, -⟩ | ⟨block, rfl, skips⟩ :=
    skipGap_cases skipped
  · exact ⟨b, .inl (.inl (mem_several.mpr ⟨filled, blank⟩)), rfl⟩
  · have inside : ∀ c ∈ line, (c != CodePoint.newline) = true :=
      fun c member => bne_iff_ne.mpr (each c member)
    exact ⟨47 :: 47 :: line, .inl (.inr (Language.mem_mul.mpr ⟨[47, 47], rfl, line, inside, rfl⟩)),
      rfl⟩
  · obtain ⟨body, same, early⟩ := skipBlock_iff.mp (skips [])
    rw [List.append_nil] at same
    exact ⟨47 :: 42 :: block, .inr ⟨body, by rw [same]; rfl, early⟩, rfl⟩

theorem skipGap_longest (member : x ∈ gap) (more : Text) :
    ∃ behind, skipGap (x ++ more) = some behind ∧ behind.length ≤ more.length := by
  rcases member with (blank | line) | ⟨body, rfl, early⟩
  · obtain ⟨c, rest, rfl, first, each⟩ := mem_one_mul.mp blank
    refine ⟨_, skipGap_blank first (rest ++ more), ?_⟩
    rw [List.dropWhile_append_of_pos each]
    exact (List.dropWhile_suffix _).length_le
  · obtain ⟨_, rfl, body, each, rfl⟩ := Language.mem_mul.mp line
    have inside : ∀ c ∈ body, (c != 10) = true := each
    refine ⟨_, skipGap_slash (body ++ more), ?_⟩
    rw [List.dropWhile_append_of_pos inside]
    exact (List.dropWhile_suffix _).length_le
  · have skipped : skipGap (47 :: 42 :: (body ++ 42 :: 47 :: more)) = some more :=
      skipBlock_iff.mpr ⟨body, rfl, early⟩
    exact ⟨more, by simpa using skipped, Nat.le_refl _⟩

theorem blank_plain {c : CodePoint} (blank : isBlank c = true) :
    isNameStart c = false ∧ c.isDecimal = false ∧ c ∉ [34, 39, 96, 46, 47] := by
  simp only [isBlank, Bool.or_eq_true, beq_iff_eq] at blank
  rcases blank with (((rfl | rfl) | rfl) | rfl) | rfl <;> decide

/-- No text of a terminal starts with a blank, and only a slash and what assigns a quotient
start with a slash. -/
theorem lexeme_head (member : x ∈ lexemes terminal) :
    ∃ c rest, x = c :: rest ∧ isBlank c = false ∧ (c = 47 → rest = [] ∨ rest = [61]) := by
  have quotes {quote : CodePoint} {multiline : Bool} (plain : isBlank quote = false)
      (slash : quote ≠ 47) (member : x ∈ quoted quote multiline) :
      ∃ c rest, x = c :: rest ∧ isBlank c = false ∧ (c = 47 → rest = [] ∨ rest = [61]) := by
    obtain ⟨c, rest, rfl, same, -⟩ := mem_one_mul.mp member
    obtain rfl := eq_of_beq same
    exact ⟨c, rest, rfl, plain, fun here => absurd here slash⟩
  have names (member : x ∈ name) :
      ∃ c rest, x = c :: rest ∧ isBlank c = false ∧ (c = 47 → rest = [] ∨ rest = [61]) := by
    obtain ⟨c, rest, rfl, start, -⟩ := mem_one_mul.mp member
    refine ⟨c, rest, rfl, ?_, ?_⟩
    · by_contra blank
      rw [(blank_plain (by simpa using blank)).1] at start
      cases start
    · rintro rfl
      exact absurd start (by decide)
  cases terminal with
  | string => exact member.elim (quotes (by decide) (by decide)) (quotes (by decide) (by decide))
  | template => exact quotes (by decide) (by decide) member
  | name => exact names member.1
  | keyword word => exact names (Eq.subst (Eq.symm member) word.spelling_name)
  | number =>
    obtain ⟨c, rest, rfl, digit | rfl⟩ := number_head member
    · refine ⟨c, rest, rfl, ?_, ?_⟩
      · by_contra blank
        rw [(blank_plain (by simpa using blank)).2.1] at digit
        cases digit
      · rintro rfl
        exact absurd digit (by decide)
    · exact ⟨_, rest, rfl, by decide, fun here => absurd here (by decide)⟩
  | punctuator mark =>
    obtain rfl : x = mark.spelling := member
    cases mark <;> exact ⟨_, _, rfl, by decide, by decide⟩

/-- Where a gap stands, every text of a terminal is shorter than the gap. -/
theorem lexeme_lt_gap {behind : Text} (skipped : skipGap t = some behind)
    (member : x ∈ lexemes terminal) (front : x <+: t) : x.length + behind.length < t.length := by
  obtain ⟨c, rest, rfl, plain, slash⟩ := lexeme_head member
  obtain ⟨more, rfl⟩ := front
  have comment {d : CodePoint} {body : Text} (other : d ≠ 61)
      (same : c :: rest ++ more = 47 :: d :: body ++ behind) :
      (c :: rest).length + behind.length < (c :: rest ++ more).length := by
    rw [same]
    obtain ⟨rfl, behind⟩ := List.cons.inj same
    rcases slash rfl with rfl | rfl
    · simp
      omega
    · exact absurd (List.cons.inj behind).1.symm other
  obtain ⟨b, same, filled, blank⟩ | ⟨line, same, -⟩ | ⟨block, same, -⟩ := skipGap_cases skipped
  · obtain ⟨d, b, rfl⟩ := List.exists_cons_of_ne_nil filled
    obtain rfl := (List.cons.inj same).1
    rw [blank c List.mem_cons_self] at plain
    cases plain
  · exact comment (by decide) same
  · exact comment (by decide) same

theorem Splits.lexes (splits : Splits t u) : Lexes t u [] := by
  induction splits with
  | done => exact .done
  | @gap x rest u member longest _ ih =>
    obtain ⟨behind, skipped, shorter⟩ := skipGap_longest member rest
    obtain ⟨y, taken, same⟩ := skipGap_member skipped
    have limit := longest y ⟨⟨behind, same.symm⟩, .inl taken⟩
    have lengths := congrArg List.length same
    rw [List.length_append, List.length_append] at lengths
    obtain ⟨rfl, rfl⟩ := List.append_inj same (by omega)
    exact .gap skipped ih
  | @token terminal x rest u member longest _ ih =>
    have stuck : skipGap (x ++ rest) = none := by
      cases skipped : skipGap (x ++ rest) with
      | none => rfl
      | some behind =>
        obtain ⟨y, taken, same⟩ := skipGap_member skipped
        have limit := longest y ⟨⟨behind, same.symm⟩, .inl taken⟩
        have shorter := lexeme_lt_gap skipped member (List.prefix_append x rest)
        have lengths := congrArg List.length same
        rw [List.length_append, List.length_append] at lengths
        rw [List.length_append] at shorter
        omega
    obtain ⟨terminal', lexeme, behind, read, longer⟩ := readTerminal_longest member rest
    have same := (readTerminal_exact read).1
    have limit := longest lexeme ⟨⟨behind, same.symm⟩, .inr ⟨terminal', readTerminal_member read⟩⟩
    obtain ⟨length, rfl⟩ := longer.resolve_left (Nat.not_lt.mpr limit)
    obtain ⟨rfl, rfl⟩ := List.append_inj same length
    exact .token stuck read ih

theorem longest_gap (skipped : skipGap (x ++ rest) = some rest) : Longest (x ++ rest) x := by
  rintro y ⟨front, member | ⟨terminal, member⟩⟩
  · obtain ⟨more, same⟩ := front
    obtain ⟨behind, skipped', shorter⟩ := skipGap_longest member more
    rw [same, skipped] at skipped'
    cases skipped'
    have lengths := congrArg List.length same
    rw [List.length_append, List.length_append] at lengths
    omega
  · have shorter := lexeme_lt_gap skipped member front
    rw [List.length_append] at shorter
    omega

theorem longest_lexeme (stuck : skipGap (x ++ rest) = none)
    (read : readTerminal (x ++ rest) = some (terminal, x, rest)) : Longest (x ++ rest) x := by
  rintro y ⟨⟨more, same⟩, member | ⟨terminal', member⟩⟩
  · obtain ⟨behind, skipped, -⟩ := skipGap_longest member more
    rw [same, stuck] at skipped
    cases skipped
  · obtain ⟨_, lexeme, behind, read', longer⟩ := readTerminal_longest member more
    rw [same, read] at read'
    cases read'
    exact longer.elim Nat.le_of_lt fun same => Nat.le_of_eq same.1

theorem Scans.splits {offset : Nat} {tokens : List Token} (scans : Scans offset t tokens []) :
    Splits t (tokens.map bare) := by
  generalize nothing : ([] : Text) = z at scans
  induction scans with
  | done => exact nothing ▸ .done
  | @gap _ x rest _ _ skipped _ ih =>
    obtain ⟨y, member, same⟩ := skipGap_member skipped
    obtain rfl := List.append_cancel_right same
    exact .gap member (longest_gap skipped) (ih nothing)
  | token stuck read _ ih =>
    exact .token (readTerminal_member read) (longest_lexeme stuck read) (ih nothing)

/-- The tokens that are read from a text are those into which the lexicon splits it. -/
theorem splits_iff : Splits t u ↔ Lexes t u [] := by
  refine ⟨Splits.lexes, fun lexes => ?_⟩
  obtain ⟨tokens, scanned, rfl⟩ := ofText_iff.mpr lexes
  exact (ofText_sound scanned).splits

end Token

end StyleSplit.Script
