import Mathlib.Computability.Language
import StyleSplit.Proofs.Script.Lookahead

/-! The lexicon of scripts: which texts each terminal has, and which ones stand between
terminals. The languages are put together as the patterns of the grammar are, with no regard
to how they are read. Every reader takes the longest text of its language. -/
namespace StyleSplit.Script

open scoped Computability

namespace Lexicon

/-- One code point of a class. -/
def one (p : CodePoint → Bool) : Language CodePoint := {t | ∃ c, p c = true ∧ t = [c]}

/-- Any number of code points of a class. -/
def many (p : CodePoint → Bool) : Language CodePoint := {t | ∀ c ∈ t, p c = true}

/-- At least one code point of a class. -/
def several (p : CodePoint → Bool) : Language CodePoint := one p * many p

def optional (l : Language CodePoint) : Language CodePoint := 1 + l

def name : Language CodePoint := one Token.isNameStart * many Token.isNamePart

/-- The mark of an integer of any size. -/
def suffix : Language CodePoint := optional (one [110].contains)

/-- A zero, a mark, and digits with underscores. -/
def radix (marks : List CodePoint) (isDigit : CodePoint → Bool) : Language CodePoint :=
  one (· == 48) * (one marks.contains * (several (fun c => isDigit c || c == CodePoint.underscore) *
    suffix))

def fraction : Language CodePoint :=
  optional (one (· == CodePoint.point) * many CodePoint.isDecimal)

def exponent : Language CodePoint :=
  optional (one (fun c => c == 101 || c == 69) *
    (optional (one [43, 45].contains) * several CodePoint.isDecimal))

/-- Digits with or without a fraction, or a fraction alone. -/
def decimal : Language CodePoint :=
  (one CodePoint.isDecimal * (many (fun c => c.isDecimal || c == CodePoint.underscore) * fraction) +
    one (· == CodePoint.point) * several CodePoint.isDecimal) * (exponent * suffix)

def number : Language CodePoint :=
  radix [120, 88] CodePoint.isHexDigit + (radix [98, 66] (fun c => c == 48 || c == 49) +
    (radix [111, 79] (fun c => Nat.ble 48 c && Nat.ble c 55) + decimal))

/-- What may stand for itself between two quotes. -/
def plain (quote : CodePoint) (multiline : Bool) (c : CodePoint) : Bool :=
  c != quote && c != CodePoint.backslash && (c != CodePoint.newline || multiline)

/-- What stands behind an opening quote, to the closing one. A backslash takes any code point
along. -/
def quotedRest (quote : CodePoint) (multiline : Bool) : Language CodePoint :=
  (one (plain quote multiline) + one (· == CodePoint.backslash) * one fun _ => true)∗ *
    one (· == quote)

def quoted (quote : CodePoint) (multiline : Bool) : Language CodePoint :=
  one (· == quote) * quotedRest quote multiline

def blanks : Language CodePoint := several Token.isBlank

def lineComment : Language CodePoint := {[47, 47]} * many (· != CodePoint.newline)

/-- A comment up to the first end mark behind its begin mark. -/
def blockComment : Language CodePoint :=
  {t | ∃ body, t = 47 :: 42 :: body ++ [42, 47] ∧ ¬[42, 47] <:+: body ++ [42]}

/-- What stands between terminals. -/
def gap : Language CodePoint := blanks + lineComment + blockComment

/-- The texts of a terminal. A reserved word is not a name. -/
def lexemes : Terminal → Language CodePoint
  | .name => {t | t ∈ name ∧ ∀ word : Keyword, t ≠ word.spelling}
  | .number => number
  | .string => quoted CodePoint.doubleQuote false + quoted CodePoint.singleQuote false
  | .template => quoted CodePoint.backtick true
  | .keyword word => {word.spelling}
  | .punctuator mark => {mark.spelling}

theorem mem_one_mul {p : CodePoint → Bool} {l : Language CodePoint} {t : Text} :
    t ∈ one p * l ↔ ∃ c rest, t = c :: rest ∧ p c = true ∧ rest ∈ l := by
  rw [Language.mem_mul]
  constructor
  · rintro ⟨_, ⟨c, first, rfl⟩, rest, last, rfl⟩
    exact ⟨c, rest, rfl, first, last⟩
  · rintro ⟨c, rest, rfl, first, last⟩
    exact ⟨[c], ⟨c, first, rfl⟩, rest, last, rfl⟩

theorem mem_several {p : CodePoint → Bool} {t : Text} :
    t ∈ several p ↔ t ≠ [] ∧ ∀ c ∈ t, p c = true := by
  rw [several, mem_one_mul]
  constructor
  · rintro ⟨c, rest, rfl, first, last⟩
    exact ⟨by simp, List.forall_mem_cons.mpr ⟨first, last⟩⟩
  · rintro ⟨filled, each⟩
    obtain ⟨c, rest, rfl⟩ := List.exists_cons_of_ne_nil filled
    exact ⟨c, rest, rfl, List.forall_mem_cons.mp each⟩

theorem mem_optional {l : Language CodePoint} {t : Text} :
    t ∈ optional l ↔ t = [] ∨ t ∈ l := by
  rw [optional, Language.mem_add, Language.mem_one]

theorem head_of_several {p : CodePoint → Bool} {t more : Text} (member : t ∈ several p) :
    (t ++ more).head?.any p = true := by
  obtain ⟨c, rest, rfl, first, -⟩ := mem_one_mul.mp member
  exact first

end Lexicon

open Lexicon

namespace Token

/-- A reader that takes the longest text of a language. Where it takes more than some text of
the language, that text is followed by a code point that continues it. -/
structure Greedy (take : Text → Text × Text) (l : Language CodePoint)
    (continues : CodePoint → Bool) : Prop where
  exact_ : ∀ t, (take t).1 ++ (take t).2 = t
  member : ∀ t, (take t).1 ∈ l
  longest : ∀ x ∈ l, ∀ more, (take (x ++ more)).1 = x ∨
    x.length < (take (x ++ more)).1.length ∧ ∃ c ∈ more.head?, continues c = true

variable {first last : Text → Text × Text} {l l' : Language CodePoint}
  {p q : CodePoint → Bool}

theorem Greedy.le (greedy : Greedy first l p) {x : Text} (member : x ∈ l) (more : Text) :
    x.length ≤ (first (x ++ more)).1.length := by
  rcases greedy.longest x member more with same | ⟨longer, -⟩
  · rw [same]
  · exact Nat.le_of_lt longer

/-- One reader behind another is greedy if nothing that the second one takes continues what
the first one does. -/
theorem Greedy.andThen (early : Greedy first l p) (late : Greedy last l' q)
    (apart : ∀ x ∈ l', ∀ c ∈ x.head?, p c = false) :
    Greedy (andThen first last) (l * l') (fun c => p c || q c) where
  exact_ := andThen_append early.exact_ late.exact_
  member t := Language.mem_mul.mpr ⟨_, early.member t, _, late.member _, rfl⟩
  longest := by
    intro w member more
    obtain ⟨x, front, y, back, rfl⟩ := Language.mem_mul.mp member
    have whole := early.exact_ (x ++ (y ++ more))
    rw [List.append_assoc, Token.andThen]
    rcases early.longest x front (y ++ more) with same | ⟨longer, c, next, continues⟩
    · rw [same] at whole ⊢
      rw [List.append_cancel_left whole]
      rcases late.longest y back more with same | ⟨longer, c, next, continues⟩
      · exact .inl (by rw [same])
      · exact .inr ⟨by simpa using longer, c, next, by simp [continues]⟩
    · cases y with
      | nil =>
        rw [List.nil_append] at longer next
        refine .inr ⟨?_, c, next, by simp [continues]⟩
        rw [List.append_nil, List.nil_append, List.length_append]
        exact Nat.lt_of_lt_of_le longer (Nat.le_add_right _ _)
      | cons d y =>
        obtain rfl : d = c := Option.some.inj next
        rw [apart _ back d rfl] at continues
        cases continues

theorem takeAll_greedy (p : CodePoint → Bool) : Greedy (takeAll p) (many p) p where
  exact_ := takeAll_append p
  member t c member := List.all_eq_true.mp List.all_takeWhile c member
  longest x each more := by
    rw [takeAll, List.takeWhile_append_of_pos each]
    cases more with
    | nil => exact .inl (List.append_nil x)
    | cons c more =>
      by_cases continues : p c = true
      · exact .inr ⟨by simp [continues], c, rfl, continues⟩
      · exact .inl (by simp [continues])

theorem takeOne_greedy (letters : List CodePoint) :
    Greedy (takeOne letters) (optional (one letters.contains)) letters.contains where
  exact_ := takeOne_append letters
  member t := by
    unfold takeOne
    split
    · exact mem_optional.mpr (.inl rfl)
    · split
      · rename_i c _ listed
        exact mem_optional.mpr (.inr ⟨c, listed, rfl⟩)
      · exact mem_optional.mpr (.inl rfl)
  longest x member more := by
    rcases mem_optional.mp member with rfl | ⟨c, listed, rfl⟩
    · cases more with
      | nil => exact .inl rfl
      | cons c more =>
        by_cases listed : letters.contains c = true
        · exact .inr ⟨by simp_all [takeOne], c, rfl, listed⟩
        · exact .inl (by simp_all [takeOne])
    · exact .inl (by simp_all [takeOne])

theorem takeFraction_greedy : Greedy takeFraction fraction
    (fun c => c == CodePoint.point || c.isDecimal) where
  exact_ := takeFraction_append
  member t := by
    cases t with
    | nil => exact mem_optional.mpr (.inl rfl)
    | cons c rest =>
      rw [takeFraction]
      split
      · rename_i point
        refine mem_optional.mpr (.inr (mem_one_mul.mpr ⟨c, _, rfl, point, ?_⟩))
        exact (takeAll_greedy CodePoint.isDecimal).member rest
      · exact mem_optional.mpr (.inl rfl)
  longest x member more := by
    rcases mem_optional.mp member with rfl | point
    · cases more with
      | nil => exact .inl rfl
      | cons c more =>
        by_cases point : (c == CodePoint.point) = true
        · exact .inr ⟨by simp [takeFraction, point], c, rfl, by simp [point]⟩
        · exact .inl (by simp [takeFraction, point])
    · obtain ⟨c, digits, rfl, point, each⟩ := mem_one_mul.mp point
      have taken : (takeFraction (c :: digits ++ more)).1 =
          c :: (takeAll CodePoint.isDecimal (digits ++ more)).1 := by
        simp [takeFraction, point, takeAll]
      rw [taken]
      rcases (takeAll_greedy CodePoint.isDecimal).longest digits each more with
        same | ⟨longer, d, next, continues⟩
      · exact .inl (by rw [same])
      · exact .inr ⟨by simpa using longer, d, next, by simp [continues]⟩

theorem takeExponent_cons (c : CodePoint) (rest : Text) : takeExponent (c :: rest) =
    if c == 101 || c == 69 then
      if ((takeOne [43, 45] rest).2.takeWhile CodePoint.isDecimal).isEmpty then ([], c :: rest)
      else (c :: (takeOne [43, 45] rest).1 ++
          (takeOne [43, 45] rest).2.takeWhile CodePoint.isDecimal,
        (takeOne [43, 45] rest).2.dropWhile CodePoint.isDecimal)
    else ([], c :: rest) :=
  rfl

/-- No sign is left in front of digits. -/
theorem takeOne_sign {sign digits : Text} (signs : sign ∈ optional (one [43, 45].contains))
    (filled : digits ≠ []) (each : ∀ c ∈ digits, CodePoint.isDecimal c = true) (more : Text) :
    takeOne [43, 45] (sign ++ (digits ++ more)) = (sign, digits ++ more) := by
  have whole := takeOne_append [43, 45] (sign ++ (digits ++ more))
  rcases (takeOne_greedy [43, 45]).longest sign signs (digits ++ more) with
    same | ⟨-, d, next, mark⟩
  · rw [same] at whole
    exact Prod.ext same (List.append_cancel_left whole)
  · obtain ⟨d', digits, rfl⟩ := List.exists_cons_of_ne_nil filled
    obtain rfl : d' = d := Option.some.inj next
    have digit := each d' List.mem_cons_self
    rcases List.mem_cons.mp (List.contains_iff_mem.mp mark) with rfl | member
    · exact absurd digit (by decide)
    · rw [List.mem_singleton.mp member] at digit
      exact absurd digit (by decide)

theorem takeExponent_greedy : Greedy takeExponent exponent
    (fun c => c == 101 || c == 69 || c.isDecimal) where
  exact_ := takeExponent_append
  member t := by
    cases t with
    | nil => exact mem_optional.mpr (.inl rfl)
    | cons c rest =>
      rw [takeExponent_cons]
      split
      · rename_i letter
        split
        · exact mem_optional.mpr (.inl rfl)
        · rename_i filled
          refine mem_optional.mpr (.inr (mem_one_mul.mpr ⟨c, _, rfl, letter, ?_⟩))
          refine Language.mem_mul.mpr ⟨_, (takeOne_greedy [43, 45]).member rest, _, ?_, rfl⟩
          refine mem_several.mpr ⟨by simpa using filled, ?_⟩
          exact (takeAll_greedy CodePoint.isDecimal).member _
      · exact mem_optional.mpr (.inl rfl)
  longest x member more := by
    rcases mem_optional.mp member with rfl | marked
    · cases more with
      | nil => exact .inl rfl
      | cons c more =>
        rw [List.nil_append, takeExponent_cons]
        split
        · rename_i letter
          split
          · exact .inl rfl
          · exact .inr ⟨by simp, c, rfl, by simp [letter]⟩
        · exact .inl rfl
    · obtain ⟨c, _, rfl, letter, rest⟩ := mem_one_mul.mp marked
      obtain ⟨sign, signs, digits, several, rfl⟩ := Language.mem_mul.mp rest
      obtain ⟨filled, each⟩ := mem_several.mp several
      have signed := takeOne_sign signs filled each more
      have taken : (takeExponent (c :: (sign ++ digits) ++ more)).1 =
          c :: (sign ++ (takeAll CodePoint.isDecimal (digits ++ more)).1) := by
        obtain ⟨d, digits, rfl⟩ := List.exists_cons_of_ne_nil filled
        rw [List.cons_append, List.append_assoc, takeExponent_cons, if_pos letter, signed]
        simp [each d, takeAll]
      rw [taken]
      rcases (takeAll_greedy CodePoint.isDecimal).longest digits each more with
        same | ⟨longer, d, next, continues⟩
      · exact .inl (by rw [same])
      · exact .inr ⟨by simpa using longer, d, next, by simp [continues]⟩

theorem takeSuffix_greedy : Greedy takeSuffix suffix [110].contains := takeOne_greedy [110]

theorem head_suffix {x : Text} (member : x ∈ suffix) : ∀ c ∈ x.head?, c ∈ [110] := by
  rcases mem_optional.mp member with rfl | ⟨d, mark, rfl⟩
  · simp
  · simpa using mark

theorem head_exponent {x : Text} (member : x ∈ exponent * suffix) :
    ∀ c ∈ x.head?, c ∈ [101, 69, 110] := by
  obtain ⟨y, front, z, back, rfl⟩ := Language.mem_mul.mp member
  rcases mem_optional.mp front with rfl | front
  · intro c here
    simp [head_suffix back c here]
  · obtain ⟨d, rest, rfl, letter, -⟩ := mem_one_mul.mp front
    rw [Bool.or_eq_true, beq_iff_eq, beq_iff_eq] at letter
    rcases letter with rfl | rfl <;> simp

theorem head_fraction {x : Text} (member : x ∈ fraction * (exponent * suffix)) :
    ∀ c ∈ x.head?, c ∈ [46, 101, 69, 110] := by
  obtain ⟨y, front, z, back, rfl⟩ := Language.mem_mul.mp member
  rcases mem_optional.mp front with rfl | front
  · intro c here
    exact List.mem_cons_of_mem _ (head_exponent back c here)
  · obtain ⟨d, rest, rfl, point, -⟩ := mem_one_mul.mp front
    simp [eq_of_beq point, CodePoint.point]

theorem apart_of_heads {x : Text} {heads : List CodePoint} (listed : ∀ c ∈ x.head?, c ∈ heads)
    (check : heads.all (fun c => !p c) = true) : ∀ c ∈ x.head?, p c = false := by
  intro c here
  simpa using List.all_eq_true.mp check c (listed c here)

theorem exponent_greedy : ∃ p, Greedy (andThen takeExponent takeSuffix) (exponent * suffix) p :=
  ⟨_, takeExponent_greedy.andThen takeSuffix_greedy fun _ member =>
    apart_of_heads (head_suffix member) (by decide)⟩

theorem decimalTail_greedy : ∃ p, Greedy decimalTail
    (many (fun c => c.isDecimal || c == CodePoint.underscore) *
      (fraction * (exponent * suffix))) p := by
  obtain ⟨_, exponents⟩ := exponent_greedy
  refine ⟨_, (takeAll_greedy _).andThen (takeFraction_greedy.andThen exponents ?_) ?_⟩
  · exact fun x member => apart_of_heads (head_exponent member) (by decide)
  · exact fun x member => apart_of_heads (head_fraction member) (by decide)

theorem pointTail_greedy : ∃ p, Greedy pointTail
    (many CodePoint.isDecimal * (exponent * suffix)) p := by
  obtain ⟨_, exponents⟩ := exponent_greedy
  exact ⟨_, (takeAll_greedy _).andThen exponents fun x member =>
    apart_of_heads (head_exponent member) (by decide)⟩

/-- A reader that succeeds in front of every text of a language, and then takes the longest
one. -/
structure Munches (read : Reader) (l : Language CodePoint) : Prop where
  member : ∀ {t lexeme rest : Text}, read t = some (lexeme, rest) → lexeme ∈ l
  longest : ∀ x ∈ l, ∀ more, ∃ lexeme rest, read (x ++ more) = some (lexeme, rest) ∧
    x.length ≤ lexeme.length

theorem readName_munches : Munches readName name where
  member {t} _ _ read := by
    cases t with
    | nil => cases read
    | cons c t =>
      rw [readName, Option.ite_none_right_eq_some] at read
      obtain ⟨start, same⟩ := read
      cases same
      exact mem_one_mul.mpr ⟨c, _, rfl, start, (takeAll_greedy isNamePart).member t⟩
  longest x member more := by
    obtain ⟨c, rest, rfl, start, each⟩ := mem_one_mul.mp member
    refine ⟨_, _, if_pos start, ?_⟩
    exact Nat.succ_le_succ ((takeAll_greedy isNamePart).le each more)

variable {quote : CodePoint} {multiline : Bool} {x : Text}

theorem quotedRest_piece (piece : Text) (member : x ∈ quotedRest quote multiline)
    (next : piece ∈ one (plain quote multiline) +
      one (· == CodePoint.backslash) * one fun _ => true) :
    piece ++ x ∈ quotedRest quote multiline := by
  obtain ⟨_, starred, z, last, rfl⟩ := Language.mem_mul.mp member
  obtain ⟨pieces, rfl, each⟩ := Language.mem_kstar.mp starred
  refine Language.mem_mul.mpr ⟨piece ++ pieces.flatten, ?_, z, last, List.append_assoc ..⟩
  exact Language.mem_kstar.mpr ⟨piece :: pieces, rfl, List.forall_mem_cons.mpr ⟨next, each⟩⟩

theorem readQuotedRest_member {t lexeme rest : Text}
    (read : readQuotedRest quote multiline t = some (lexeme, rest)) :
    lexeme ∈ quotedRest quote multiline := by
  induction t using readQuotedRest.induct quote multiline generalizing lexeme rest with
  | case1 => simp [readQuotedRest] at read
  | case2 c cs ends =>
    rw [readQuotedRest.eq_def] at read
    simp only [if_pos ends] at read
    cases read
    exact Language.mem_mul.mpr ⟨[], Language.nil_mem_kstar _, [c], ⟨c, ends, rfl⟩, rfl⟩
  | case3 c cs other ends =>
    rw [readQuotedRest.eq_def] at read
    simp only [if_neg other, if_pos ends, reduceCtorEq] at read
  | case4 c other line escape =>
    simp [readQuotedRest, other, line, escape] at read
  | case5 c other line escape d cs ih =>
    rw [readQuotedRest, if_neg other, if_neg line, if_pos escape] at read
    obtain ⟨⟨body, behind⟩, inner, same⟩ := Option.map_eq_some_iff.mp read
    cases same
    refine quotedRest_piece [c, d] (ih inner) (.inr ?_)
    exact mem_one_mul.mpr ⟨c, [d], rfl, escape, d, rfl, rfl⟩
  | case6 c cs other line escape ih =>
    rw [readQuotedRest.eq_def] at read
    simp only [if_neg other, if_neg line, if_neg escape] at read
    obtain ⟨⟨body, behind⟩, inner, same⟩ := Option.map_eq_some_iff.mp read
    cases same
    refine quotedRest_piece [c] (ih inner) (.inl ⟨c, ?_, rfl⟩)
    unfold plain
    cases multiline <;> simp_all

theorem readQuotedRest_plain {c : CodePoint} {t lexeme rest : Text}
    (usual : plain quote multiline c = true)
    (read : readQuotedRest quote multiline t = some (lexeme, rest)) :
    readQuotedRest quote multiline (c :: t) = some (c :: lexeme, rest) := by
  unfold plain at usual
  rw [readQuotedRest.eq_def]
  cases multiline <;> simp_all

theorem readQuotedRest_escape {c : CodePoint} {t lexeme rest : Text}
    (escapes : CodePoint.backslash ≠ quote)
    (read : readQuotedRest quote multiline t = some (lexeme, rest)) :
    readQuotedRest quote multiline (CodePoint.backslash :: c :: t) =
      some (CodePoint.backslash :: c :: lexeme, rest) := by
  have line : (CodePoint.backslash == CodePoint.newline && !multiline) = false := by
    cases multiline <;> rfl
  rw [readQuotedRest, if_neg (by simpa using escapes), if_neg (Bool.eq_false_iff.mp line),
    if_pos (beq_self_eq_true _), read]
  rfl

theorem readQuotedRest_longest (escapes : CodePoint.backslash ≠ quote)
    (member : x ∈ quotedRest quote multiline) (more : Text) :
    readQuotedRest quote multiline (x ++ more) = some (x, more) := by
  obtain ⟨_, starred, _, ⟨c, last, rfl⟩, rfl⟩ := Language.mem_mul.mp member
  obtain ⟨pieces, rfl, each⟩ := Language.mem_kstar.mp starred
  clear member starred
  induction pieces with
  | nil =>
    change readQuotedRest quote multiline (c :: more) = some ([c], more)
    rw [readQuotedRest.eq_def]
    simp only [if_pos last]
  | cons piece pieces ih =>
    obtain ⟨first, others⟩ := List.forall_mem_cons.mp each
    rcases first with ⟨d, usual, rfl⟩ | pair
    · exact readQuotedRest_plain usual (ih others)
    · obtain ⟨b, _, rfl, escape, d, -, rfl⟩ := mem_one_mul.mp pair
      obtain rfl := eq_of_beq escape
      exact readQuotedRest_escape escapes (ih others)

theorem readQuoted_member {t lexeme rest : Text}
    (read : readQuoted quote multiline t = some (lexeme, rest)) :
    lexeme ∈ quoted quote multiline := by
  cases t with
  | nil => cases read
  | cons c t =>
    rw [readQuoted, Option.ite_none_right_eq_some] at read
    obtain ⟨opens, read⟩ := read
    obtain ⟨⟨body, behind⟩, inner, same⟩ := Option.map_eq_some_iff.mp read
    cases same
    exact mem_one_mul.mpr ⟨c, body, rfl, opens, readQuotedRest_member inner⟩

/-- A quoted text is read to its closing quote, whatever follows. -/
theorem readQuoted_longest (escapes : CodePoint.backslash ≠ quote)
    (member : x ∈ quoted quote multiline) (more : Text) :
    readQuoted quote multiline (x ++ more) = some (x, more) := by
  obtain ⟨c, rest, rfl, opens, inner⟩ := mem_one_mul.mp member
  rw [List.cons_append, readQuoted, if_pos opens, readQuotedRest_longest escapes inner]
  rfl

theorem head_any_several {p : CodePoint → Bool} {t : Text} :
    t.head?.any p = true ↔ (takeAll p t).1 ∈ several p := by
  rw [mem_several]
  cases t with
  | nil => simp [takeAll]
  | cons c t =>
    by_cases here : p c = true
    · simp only [List.head?_cons, Option.any_some, here, true_iff]
      exact ⟨by simp [takeAll, here], (takeAll_greedy p).member _⟩
    · simp [takeAll, here]

section radix

variable {marks : List CodePoint} {isDigit : CodePoint → Bool}

theorem readRadix_munches
    (ends : (isDigit 110 || (110 : CodePoint) == CodePoint.underscore) = false) :
    Munches (readRadix marks isDigit) (radix marks isDigit) where
  member {t _ _} read := by
    by_cases shape : ∃ mark rest, t = 48 :: mark :: rest
    · obtain ⟨mark, rest, rfl⟩ := shape
      rw [readRadix_cons, Option.ite_none_right_eq_some] at read
      obtain ⟨check, same⟩ := read
      cases same
      obtain ⟨marked, digit⟩ := Bool.and_eq_true_iff.mp check
      refine mem_one_mul.mpr ⟨48, _, rfl, rfl, mem_one_mul.mpr ⟨mark, _, rfl, marked, ?_⟩⟩
      exact Language.mem_mul.mpr
        ⟨_, head_any_several.mp digit, _, takeSuffix_greedy.member _, rfl⟩
    · rw [readRadix_other fun mark rest same => shape ⟨mark, rest, same⟩] at read
      cases read
  longest x member more := by
    have tail := (takeAll_greedy fun c => isDigit c || c == CodePoint.underscore).andThen
      takeSuffix_greedy fun x member => apart_of_heads (head_suffix member) (by simpa using ends)
    obtain ⟨_, _, rfl, first, rest⟩ := mem_one_mul.mp member
    obtain ⟨mark, _, rfl, marked, rest⟩ := mem_one_mul.mp rest
    obtain ⟨digits, filled, last, ending, rfl⟩ := Language.mem_mul.mp rest
    obtain rfl := eq_of_beq first
    have digit : (digits ++ last ++ more).head?.any
        (fun c => isDigit c || c == CodePoint.underscore) = true := by
      rw [List.append_assoc]
      exact head_of_several filled
    have inside : digits ++ last ∈
        many (fun c => isDigit c || c == CodePoint.underscore) * suffix :=
      Language.mem_mul.mpr ⟨digits, (mem_several.mp filled).2, last, ending, rfl⟩
    have read := @readRadix_cons marks isDigit mark (digits ++ last ++ more)
    rw [marked, digit, Bool.and_self, if_pos rfl] at read
    exact ⟨_, _, read, Nat.succ_le_succ (Nat.succ_le_succ (tail.le inside more))⟩

end radix

theorem readDecimal_munches : Munches readDecimal decimal where
  member {t _ _} read := by
    obtain ⟨_, digits⟩ := decimalTail_greedy
    obtain ⟨_, points⟩ := exponent_greedy
    cases t with
    | nil => cases read
    | cons c rest =>
      rw [readDecimal_cons] at read
      rw [decimal, add_mul, mul_assoc, mul_assoc, mul_assoc]
      split at read
      · rename_i digit
        cases read
        exact .inl (mem_one_mul.mpr ⟨c, _, rfl, digit, digits.member rest⟩)
      · rw [Option.ite_none_right_eq_some] at read
        obtain ⟨check, same⟩ := read
        cases same
        obtain ⟨point, digit⟩ := Bool.and_eq_true_iff.mp check
        refine .inr (mem_one_mul.mpr ⟨c, _, rfl, point, ?_⟩)
        exact Language.mem_mul.mpr ⟨_, head_any_several.mp digit, _, points.member _, rfl⟩
  longest x member more := by
    obtain ⟨_, digits⟩ := decimalTail_greedy
    obtain ⟨_, points⟩ := pointTail_greedy
    rw [decimal, add_mul, mul_assoc, mul_assoc, mul_assoc] at member
    rcases member with whole | part
    · obtain ⟨c, rest, rfl, digit, inside⟩ := mem_one_mul.mp whole
      have read := readDecimal_cons c (rest ++ more)
      rw [if_pos digit] at read
      exact ⟨_, _, read, Nat.succ_le_succ (digits.le inside more)⟩
    · obtain ⟨c, _, rfl, point, inside⟩ := mem_one_mul.mp part
      obtain ⟨fraction, filled, last, ending, rfl⟩ := Language.mem_mul.mp inside
      have digit : (fraction ++ last ++ more).head?.any CodePoint.isDecimal = true := by
        rw [List.append_assoc]
        exact head_of_several filled
      have all : fraction ++ last ∈ many CodePoint.isDecimal * (exponent * suffix) :=
        Language.mem_mul.mpr ⟨fraction, (mem_several.mp filled).2, last, ending, rfl⟩
      have other : ¬CodePoint.isDecimal c = true := by
        rw [eq_of_beq point]
        decide
      have read := readDecimal_cons c (fraction ++ last ++ more)
      rw [if_neg other, point, digit, Bool.and_self, if_pos rfl] at read
      exact ⟨_, _, read, Nat.succ_le_succ (points.le all more)⟩

/-- Where a reader succeeds in front of a text of a language, it takes at least that. -/
def Dominates (read : Reader) (l : Language CodePoint) : Prop :=
  ∀ x ∈ l, ∀ more lexeme rest, read (x ++ more) = some (lexeme, rest) → x.length ≤ lexeme.length

theorem Dominates.add {read : Reader} (front : Dominates read l) (back : Dominates read l') :
    Dominates read (l + l') := by
  rintro x (member | member)
  · exact front x member
  · exact back x member

theorem Munches.orElse {read read' : Reader} (early : Munches read l) (late : Munches read' l')
    (dominates : Dominates read l') : Munches (fun t => read t <|> read' t) (l + l') where
  member found := by
    simp only [Option.orElse_eq_orElse, Option.orElse_eq_or, Option.or_eq_some_iff] at found
    rcases found with found | ⟨-, found⟩
    · exact .inl (early.member found)
    · exact .inr (late.member found)
  longest x member more := by
    simp only [Option.orElse_eq_orElse, Option.orElse_eq_or, Option.or_eq_some_iff]
    rcases member with member | member
    · obtain ⟨lexeme, rest, found, longer⟩ := early.longest x member more
      exact ⟨lexeme, rest, .inl found, longer⟩
    · cases found : read (x ++ more) with
      | some r => exact ⟨r.1, r.2, .inl rfl, dominates x member more r.1 r.2 found⟩
      | none =>
        obtain ⟨lexeme, rest, found', longer⟩ := late.longest x member more
        exact ⟨lexeme, rest, .inr ⟨rfl, found'⟩, longer⟩

theorem readRadix_eq_some {marks : List CodePoint} {isDigit : CodePoint → Bool}
    {t lexeme rest : Text} (read : readRadix marks isDigit t = some (lexeme, rest)) :
    ∃ mark more, t = 48 :: mark :: more ∧ marks.contains mark = true ∧ 2 ≤ lexeme.length := by
  by_cases shape : ∃ mark more, t = 48 :: mark :: more
  · obtain ⟨mark, more, rfl⟩ := shape
    rw [readRadix_cons, Option.ite_none_right_eq_some] at read
    obtain ⟨check, same⟩ := read
    cases same
    exact ⟨mark, more, rfl, (Bool.and_eq_true_iff.mp check).1, by simp⟩
  · rw [readRadix_other fun mark more same => shape ⟨mark, more, same⟩] at read
    cases read

theorem radix_dominates_radix {marks marks' : List CodePoint} {isDigit isDigit' : CodePoint → Bool}
    (others : marks.all (fun c => !marks'.contains c) = true) :
    Dominates (readRadix marks isDigit) (radix marks' isDigit') := by
  intro x member more lexeme rest read
  obtain ⟨_, _, rfl, -, marked⟩ := mem_one_mul.mp member
  obtain ⟨mark, _, rfl, listed, -⟩ := mem_one_mul.mp marked
  obtain ⟨mark', _, same, listed', -⟩ := readRadix_eq_some read
  obtain rfl : mark = mark' := (List.cons.inj (List.cons.inj same).2).1
  have other := List.all_eq_true.mp others mark (List.contains_iff_mem.mp listed')
  rw [listed] at other
  cases other

/-- Behind a zero and a mark no decimal number goes on. -/
theorem radix_dominates_decimal {marks : List CodePoint} {isDigit : CodePoint → Bool}
    (others : marks.all (fun c => !(c.isDecimal || c == CodePoint.underscore) &&
      !([46, 101, 69, 110].contains c)) = true) :
    Dominates (readRadix marks isDigit) decimal := by
  intro x member more lexeme rest read
  obtain ⟨mark, behind, same, listed, long⟩ := readRadix_eq_some read
  match x, member with
  | [], _ | [_], _ => exact Nat.le_trans (by simp) long
  | a :: b :: x, member =>
    obtain ⟨rfl, front⟩ := List.cons.inj same
    obtain rfl := (List.cons.inj front).1
    have other := List.all_eq_true.mp others b (List.contains_iff_mem.mp listed)
    obtain ⟨plain, head⟩ := Bool.and_eq_true_iff.mp other
    rw [decimal, add_mul, mul_assoc, mul_assoc, mul_assoc] at member
    rcases member with whole | part
    · obtain ⟨_, _, same, -, inside⟩ := mem_one_mul.mp whole
      cases same
      obtain ⟨digits, each, last, ending, same⟩ := Language.mem_mul.mp inside
      cases digits with
      | nil =>
        rw [List.nil_append] at same
        have listed := head_fraction ending b (by rw [same]; rfl)
        rw [List.contains_iff_mem.mpr listed] at head
        cases head
      | cons d digits =>
        obtain rfl : d = b := (List.cons.inj same).1
        have digit : (d.isDecimal || d == CodePoint.underscore) = true :=
          each d List.mem_cons_self
        rw [digit] at plain
        cases plain
    · obtain ⟨_, _, same, point, -⟩ := mem_one_mul.mp part
      cases same
      cases point

theorem readNumber_munches : Munches readNumber number :=
  (readRadix_munches (by decide)).orElse
    ((readRadix_munches (by decide)).orElse
      ((readRadix_munches (by decide)).orElse readDecimal_munches
        (radix_dominates_decimal (by decide)))
      ((radix_dominates_radix (by decide)).add (radix_dominates_decimal (by decide))))
    ((radix_dominates_radix (by decide)).add
      ((radix_dominates_radix (by decide)).add (radix_dominates_decimal (by decide))))

end Token

end StyleSplit.Script
