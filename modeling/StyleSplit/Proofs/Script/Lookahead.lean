import StyleSplit.Proofs.Script.Scanning

/-! What a token is read from. A reader looks ahead for longer tokens, but never past a
bracket, a comma, a colon or a line end. So the text of a token is read as that token again
when what follows changes behind such a place. -/
namespace StyleSplit.Script.Token

/-- The code points behind which no token goes on. -/
def stops : List CodePoint := [10, 40, 41, 44, 58, 123, 125]

/-- A text that is empty or starts with such a code point. -/
def Stop (t : Text) : Prop := ∀ c ∈ t.head?, c ∈ stops

theorem stop_nil : Stop [] := by simp [Stop]

theorem stop_cons {c : CodePoint} {t : Text} (member : c ∈ stops) : Stop (c :: t) := by
  simpa [Stop] using member

theorem stops_plain {p : CodePoint → Bool} (check : stops.all (fun c => !p c) = true) {t : Text}
    (stop : Stop t) : ∀ c ∈ t.head?, p c = false := by
  intro c front
  simpa using List.all_eq_true.mp check c (stop c front)

variable {lexeme y z z' : Text}

/-- A reader that takes the same text again when what follows changes behind a stop. -/
def Local (read : Text → Text × Text) : Prop :=
  ∀ {lexeme y z z' : Text}, read (lexeme ++ (y ++ z)) = (lexeme, y ++ z) → Stop z' →
    read (lexeme ++ (y ++ z')) = (lexeme, y ++ z')

theorem takeWhile_none {p : CodePoint → Bool} {t : Text} (front : ∀ c ∈ t.head?, p c = false) :
    t.takeWhile p = [] ∧ t.dropWhile p = t := by
  cases t with
  | nil => simp
  | cons c rest => simp [front c (by simp)]

/-- The code points at the front that satisfy a predicate, and the rest. -/
def takeAll (p : CodePoint → Bool) (t : Text) : Text × Text := (t.takeWhile p, t.dropWhile p)

theorem takeAll_local {p : CodePoint → Bool} (check : stops.all (fun c => !p c) = true) :
    Local (takeAll p) := by
  intro lexeme y z z' read stop
  obtain ⟨taken, left⟩ := Prod.mk.inj read
  have each : ∀ c ∈ lexeme, p c = true := by
    intro c member
    rw [← taken] at member
    exact List.all_eq_true.mp List.all_takeWhile c member
  have behind : ∀ c ∈ (y ++ z).head?, p c = false := by
    intro c front
    rw [← left] at front
    have := List.head?_dropWhile_not p (lexeme ++ (y ++ z))
    rw [front] at this
    simpa using this
  have next : ∀ c ∈ (y ++ z').head?, p c = false := by
    cases y with
    | nil => exact stops_plain check stop
    | cons a y => exact behind
  obtain ⟨none, all⟩ := takeWhile_none next
  rw [takeAll, List.takeWhile_append_of_pos each, List.dropWhile_append_of_pos each, none, all,
    List.append_nil]

theorem takeWhile_isEmpty {p : CodePoint → Bool} (t : Text) :
    (t.takeWhile p).isEmpty = !t.head?.any p := by
  cases t with
  | nil => rfl
  | cons c rest => cases first : p c <;> simp [first]

/-- Whether the first code point satisfies a predicate does not change either. -/
theorem head_any {p : CodePoint → Bool} (check : stops.all (fun c => !p c) = true)
    (none : (y ++ z).head?.any p = false) (stop : Stop z') : (y ++ z').head?.any p = false := by
  cases y with
  | nil =>
    cases z' with
    | nil => rfl
    | cons c rest => exact stops_plain check stop c rfl
  | cons a y => exact none

/-- A reader that has taken what satisfies a predicate finds it in front again. -/
theorem head_taken {p : CodePoint → Bool} {l x more : Text} (front : (l ++ x).head?.any p = true)
    (taken : (l ++ x).takeWhile p ++ more = l) (x' : Text) : (l ++ x').head?.any p = true := by
  cases l with
  | nil =>
    have none := (List.append_eq_nil_iff.mp taken).1
    have empty := takeWhile_isEmpty (p := p) ([] ++ x)
    rw [none, front] at empty
    cases empty
  | cons d l => exact front

theorem takeOne_none {letters : List CodePoint} {t : Text}
    (none : t.head?.any letters.contains = false) : takeOne letters t = ([], t) := by
  cases t with
  | nil => rfl
  | cons c rest =>
    have none : letters.contains c = false := none
    rw [takeOne, none]
    rfl

theorem takeOne_local {letters : List CodePoint} (check : stops.all (fun c => !letters.contains c) = true) :
    Local (takeOne letters) := by
  intro lexeme y z z' read stop
  cases lexeme with
  | nil =>
    cases y with
    | nil => exact takeOne_none (head_any (y := []) (z := []) check rfl stop)
    | cons a y =>
      simp only [List.nil_append, List.cons_append, takeOne] at read ⊢
      split at read
      · cases read
      · rename_i other
        rw [if_neg other]
  | cons a lexeme =>
    simp only [List.cons_append, takeOne] at read ⊢
    split at read
    · rename_i member
      obtain ⟨same, left⟩ := Prod.mk.inj read
      obtain ⟨-, rfl⟩ := List.cons.inj same
      rw [if_pos member]
      rfl
    · cases read

/-- One reader behind another. -/
def andThen (first last : Text → Text × Text) (t : Text) : Text × Text :=
  ((first t).1 ++ (last (first t).2).1, (last (first t).2).2)

theorem andThen_local {first last : Text → Text × Text} (localFirst : Local first)
    (localLast : Local last) (exact_ : ∀ t, (first t).1 ++ (first t).2 = t)
    (exact' : ∀ t, (last t).1 ++ (last t).2 = t) : Local (andThen first last) := by
  intro lexeme y z z' read stop
  have whole := exact_ (lexeme ++ (y ++ z))
  have behind := exact' (first (lexeme ++ (y ++ z))).2
  obtain ⟨taken, left⟩ := Prod.mk.inj read
  generalize result : first (lexeme ++ (y ++ z)) = r at whole behind taken left
  obtain ⟨a, r⟩ := r
  generalize result' : last r = s at behind taken left
  obtain ⟨b, s⟩ := s
  simp only at whole behind taken left
  subst left taken behind
  have early : first (a ++ ((b ++ y) ++ z')) = (a, (b ++ y) ++ z') :=
    localFirst (by simpa using result) stop
  have late : last (b ++ (y ++ z')) = (b, y ++ z') := localLast result' stop
  rw [andThen, List.append_assoc]
  simp only [List.append_assoc] at early
  rw [early]
  simp [late]

theorem takeExponent_local : Local takeExponent := by
  intro lexeme y z z' read stop
  have decimal : stops.all (fun c => !CodePoint.isDecimal c) = true := by decide
  have sign : stops.all (fun c => !([43, 45] : List CodePoint).contains c) = true := by decide
  cases lexeme with
  | nil =>
    cases y with
    | nil =>
      cases z' with
      | nil => rfl
      | cons c rest =>
        have plain := stops_plain (p := fun c => c == 101 || c == 69) (by decide) stop c rfl
        rw [List.nil_append, List.nil_append, takeExponent, plain]
        rfl
    | cons a y =>
      simp only [List.nil_append, List.cons_append, takeExponent] at read ⊢
      split at read
      · rename_i letter
        rw [if_pos letter]
        have none : ((takeOne [43, 45] (y ++ z')).2.takeWhile CodePoint.isDecimal).isEmpty = true := by
          split at read
          · rename_i none
            rw [takeWhile_isEmpty, Bool.not_eq_true'] at none ⊢
            cases y with
            | nil =>
              rw [takeOne_none (head_any (y := []) (z := []) sign rfl stop)]
              exact head_any (y := []) (z := []) decimal rfl stop
            | cons b y =>
              simp only [List.cons_append, takeOne] at none ⊢
              split at none
              · rename_i signed
                rw [if_pos signed]
                exact head_any decimal none stop
              · rename_i plain
                rw [if_neg plain]
                exact none
          · simp at read
        rw [if_pos none]
      · rename_i other
        rw [if_neg other]
  | cons a lexeme =>
    simp only [List.cons_append, takeExponent] at read ⊢
    split at read
    swap
    · simp at read
    rename_i letter
    rw [if_pos letter]
    split at read
    · simp at read
    rename_i some
    obtain ⟨taken, left⟩ := Prod.mk.inj read
    have whole := takeOne_append [43, 45] (lexeme ++ (y ++ z))
    generalize first : takeOne [43, 45] (lexeme ++ (y ++ z)) = r at some taken left whole
    obtain ⟨sign', digits⟩ := r
    simp only at some taken left whole
    have split := List.takeWhile_append_dropWhile (p := CodePoint.isDecimal) (l := digits)
    rw [left] at split
    rw [List.cons.injEq] at taken
    generalize found : digits.takeWhile CodePoint.isDecimal = ds at some taken split
    obtain ⟨-, rfl⟩ := taken
    subst split
    have early : takeOne [43, 45] (sign' ++ ((ds ++ y) ++ z')) = (sign', (ds ++ y) ++ z') :=
      takeOne_local sign (by simpa using first) stop
    have late := takeAll_local decimal (Prod.ext found left) stop
    obtain ⟨found', left'⟩ := Prod.mk.inj late
    simp only [List.append_assoc] at early
    rw [List.append_assoc, early]
    simp only [found', left']
    rw [if_neg some]

theorem takeFraction_local : Local takeFraction := by
  intro lexeme y z z' read stop
  have decimal : stops.all (fun c => !CodePoint.isDecimal c) = true := by decide
  cases lexeme with
  | nil =>
    cases y with
    | nil =>
      cases z' with
      | nil => rfl
      | cons c rest =>
        have plain := stops_plain (p := (· == CodePoint.point)) (by decide) stop c rfl
        rw [List.nil_append, List.nil_append, takeFraction, plain]
        rfl
    | cons a y =>
      simp only [List.nil_append, List.cons_append, takeFraction] at read ⊢
      split at read
      · simp at read
      · rename_i other
        rw [if_neg other]
  | cons a lexeme =>
    simp only [List.cons_append, takeFraction] at read ⊢
    split at read
    · rename_i letter
      obtain ⟨taken, left⟩ := Prod.mk.inj read
      obtain ⟨-, taken⟩ := List.cons.inj taken
      have late := takeAll_local decimal (Prod.ext taken left) stop
      obtain ⟨found', left'⟩ := Prod.mk.inj late
      rw [if_pos letter, found', left']
    · simp at read

theorem takeAll_append (p : CodePoint → Bool) (t : Text) : (takeAll p t).1 ++ (takeAll p t).2 = t :=
  List.takeWhile_append_dropWhile

theorem andThen_append {first last : Text → Text × Text} (exact_ : ∀ t, (first t).1 ++ (first t).2 = t)
    (exact' : ∀ t, (last t).1 ++ (last t).2 = t) (t : Text) :
    (andThen first last t).1 ++ (andThen first last t).2 = t := by
  rw [andThen, List.append_assoc, exact', exact_]

/-- A reader that reads the same token again when what follows changes behind a stop. -/
def LocalReader (read : Reader) : Prop :=
  ∀ {lexeme y z z' : Text}, read (lexeme ++ (y ++ z)) = some (lexeme, y ++ z) → Stop z' →
    read (lexeme ++ (y ++ z')) = some (lexeme, y ++ z')

/-- A reader that finds nothing, and still finds nothing when what follows changes. -/
def LocalMiss (read : Reader) : Prop :=
  ∀ {a z z' : Text}, a ≠ [] → read (a ++ z) = none → Stop z' → read (a ++ z') = none

theorem readName_local : LocalReader readName := by
  intro lexeme y z z' read stop
  cases lexeme with
  | nil => exact absurd rfl (readName_exact read).2
  | cons c l =>
    simp only [List.cons_append, readName, Option.ite_none_right_eq_some, Option.some.injEq,
      Prod.mk.injEq, List.cons.injEq, true_and] at read ⊢
    obtain ⟨letter, taken, left⟩ := read
    have late := takeAll_local (p := isNamePart) (by decide) (Prod.ext taken left) stop
    exact ⟨letter, Prod.mk.inj late⟩

/-- What is read of a decimal number behind its first digit. -/
def decimalTail : Text → Text × Text :=
  andThen (takeAll fun d => d.isDecimal || d == CodePoint.underscore)
    (andThen takeFraction (andThen takeExponent takeSuffix))

/-- What is read of a decimal number behind a point. -/
def pointTail : Text → Text × Text :=
  andThen (takeAll CodePoint.isDecimal) (andThen takeExponent takeSuffix)

theorem takeSuffix_local : Local takeSuffix := takeOne_local (by decide)

theorem exponent_local : Local (andThen takeExponent takeSuffix) :=
  andThen_local takeExponent_local takeSuffix_local takeExponent_append (takeOne_append _)

theorem exponent_append : ∀ t, (andThen takeExponent takeSuffix t).1 ++
    (andThen takeExponent takeSuffix t).2 = t :=
  andThen_append takeExponent_append (takeOne_append _)

theorem decimalTail_local : Local decimalTail :=
  andThen_local (takeAll_local (by decide))
    (andThen_local takeFraction_local exponent_local takeFraction_append exponent_append)
    (takeAll_append _) (andThen_append takeFraction_append exponent_append)

theorem pointTail_local : Local pointTail :=
  andThen_local (takeAll_local (by decide)) exponent_local (takeAll_append _) exponent_append

theorem readDecimal_cons (c : CodePoint) (rest : Text) : readDecimal (c :: rest) =
    if c.isDecimal then some (c :: (decimalTail rest).1, (decimalTail rest).2)
    else if c == CodePoint.point && rest.head?.any CodePoint.isDecimal then
      some (c :: (pointTail rest).1, (pointTail rest).2)
    else none := by
  simp only [readDecimal, takeWhile_isEmpty, Bool.not_not, finishDecimal, decimalTail, pointTail,
    andThen, takeAll, List.cons_append, List.append_assoc]

theorem readDecimal_local : LocalReader readDecimal := by
  intro lexeme y z z' read stop
  cases lexeme with
  | nil => exact absurd rfl (readDecimal_exact read).2
  | cons c l =>
    rw [List.cons_append, readDecimal_cons] at read ⊢
    split at read
    · rename_i digit
      obtain ⟨taken, left⟩ := Prod.mk.inj (Option.some.inj read)
      have late := decimalTail_local (Prod.ext (List.cons.inj taken).2 left) stop
      rw [if_pos digit, late]
    · rename_i other
      split at read
      · rename_i point
        obtain ⟨taken, left⟩ := Prod.mk.inj (Option.some.inj read)
        obtain ⟨-, taken⟩ := List.cons.inj taken
        have late := pointTail_local (Prod.ext taken left) stop
        obtain ⟨mark, digit⟩ := Bool.and_eq_true_iff.mp point
        have digit' := head_taken digit taken (y ++ z')
        rw [if_neg other, mark, digit', Bool.and_true, if_pos rfl, late]
      · cases read

theorem readDecimal_miss : LocalMiss readDecimal := by
  intro a z z' some none stop
  cases a with
  | nil => exact absurd rfl some
  | cons c a =>
    rw [List.cons_append, readDecimal_cons] at none ⊢
    split at none
    · cases none
    rename_i other
    split at none
    · cases none
    rename_i miss
    have miss' : (c == CodePoint.point && (a ++ z').head?.any CodePoint.isDecimal) = false := by
      rw [Bool.not_eq_true, Bool.and_eq_false_iff] at miss
      rcases miss with mark | digit
      · rw [mark, Bool.false_and]
      · rw [head_any (by decide) digit stop, Bool.and_false]
    rw [if_neg other, miss']
    rfl

section radix

variable {marks : List CodePoint} {isDigit : CodePoint → Bool}

theorem readRadix_cons (mark : CodePoint) (rest : Text) : readRadix marks isDigit (48 :: mark :: rest) =
    if marks.contains mark && rest.head?.any (fun c => isDigit c || c == CodePoint.underscore) then
      some (48 :: mark :: (andThen (takeAll fun c => isDigit c || c == CodePoint.underscore)
          takeSuffix rest).1,
        (andThen (takeAll fun c => isDigit c || c == CodePoint.underscore) takeSuffix rest).2)
    else none := by
  simp only [readRadix, takeWhile_isEmpty, Bool.not_not, andThen, takeAll, List.cons_append]

theorem readRadix_other {t : Text} (other : ∀ mark rest, t ≠ 48 :: mark :: rest) :
    readRadix marks isDigit t = none := by
  unfold readRadix
  split
  · rename_i mark rest
    exact absurd rfl (other mark rest)
  · rfl

theorem readRadix_local
    (check : stops.all (fun c => !(isDigit c || c == CodePoint.underscore)) = true) :
    LocalReader (readRadix marks isDigit) := by
  intro lexeme y z z' read stop
  have form : ∃ mark rest, lexeme ++ (y ++ z) = 48 :: mark :: rest := by
    by_contra other
    rw [readRadix_other (fun mark rest same => other ⟨mark, rest, same⟩)] at read
    cases read
  obtain ⟨mark, rest, form⟩ := form
  rw [form, readRadix_cons] at read
  split at read
  swap
  · cases read
  rename_i digits
  obtain ⟨taken, left⟩ := Prod.mk.inj (Option.some.inj read)
  obtain ⟨l, rfl⟩ : ∃ l, lexeme = 48 :: mark :: l := ⟨_, taken.symm⟩
  obtain rfl : l ++ (y ++ z) = rest := by simpa using form
  have tail : Local (andThen (takeAll fun c => isDigit c || c == CodePoint.underscore) takeSuffix) :=
    andThen_local (takeAll_local check) takeSuffix_local (takeAll_append _) (takeOne_append _)
  have taken := (List.cons.inj (List.cons.inj taken).2).2
  have late := tail (Prod.ext taken left) stop
  obtain ⟨known, digit⟩ := Bool.and_eq_true_iff.mp digits
  have digit' := head_taken digit taken (y ++ z')
  change readRadix marks isDigit (48 :: mark :: (l ++ (y ++ z'))) = _
  rw [readRadix_cons, known, digit', Bool.and_true, if_pos rfl, late]

theorem readRadix_miss (check : stops.all (fun c => !(isDigit c || c == CodePoint.underscore)) = true)
    (plain : stops.all (fun c => !marks.contains c) = true) : LocalMiss (readRadix marks isDigit) := by
  intro a z z' some none stop
  by_cases form : ∃ mark rest, a ++ z' = 48 :: mark :: rest
  swap
  · exact readRadix_other fun mark rest same => form ⟨mark, rest, same⟩
  obtain ⟨mark, rest, form⟩ := form
  rw [form, readRadix_cons, if_neg]
  intro digits
  obtain ⟨known, digit⟩ := Bool.and_eq_true_iff.mp digits
  cases a with
  | nil => exact some rfl
  | cons c a =>
    obtain ⟨first, form⟩ := List.cons.inj form
    cases a with
    | nil =>
      have front : z' = mark :: rest := form
      have miss := stops_plain plain stop mark (by rw [front]; rfl)
      rw [miss] at known
      cases known
    | cons d a =>
      obtain ⟨same, front⟩ := List.cons.inj form
      have front : a ++ z' = rest := front
      rw [first, same] at none
      rw [← front] at digit
      change readRadix marks isDigit (48 :: mark :: (a ++ z)) = Option.none at none
      rw [readRadix_cons, known, Bool.true_and] at none
      split at none
      · cases none
      · rename_i miss
        rw [head_any check (Bool.eq_false_iff.mpr miss) stop] at digit
        cases digit

end radix

theorem hex_miss : LocalMiss (readRadix [120, 88] CodePoint.isHexDigit) :=
  readRadix_miss (by decide) (by decide)

theorem binary_miss : LocalMiss (readRadix [98, 66] fun c => c == 48 || c == 49) :=
  readRadix_miss (by decide) (by decide)

theorem octal_miss : LocalMiss (readRadix [111, 79] fun c => Nat.ble 48 c && Nat.ble c 55) :=
  readRadix_miss (by decide) (by decide)

theorem readNumber_local : LocalReader readNumber := by
  intro lexeme y z z' read stop
  have some : lexeme ++ y ≠ [] := by simp [(readNumber_exact read).2]
  simp only [readNumber, Option.orElse_eq_orElse, Option.orElse_eq_or, Option.or_eq_some_iff]
    at read ⊢
  simp only [← List.append_assoc lexeme] at read ⊢
  rcases read with read | ⟨hex, read | ⟨binary, read | ⟨octal, read⟩⟩⟩
  · rw [List.append_assoc] at read ⊢
    exact .inl (readRadix_local (by decide) read stop)
  · refine .inr ⟨hex_miss some hex stop, .inl ?_⟩
    rw [List.append_assoc] at read ⊢
    exact readRadix_local (by decide) read stop
  · refine .inr ⟨hex_miss some hex stop, .inr ⟨binary_miss some binary stop, .inl ?_⟩⟩
    rw [List.append_assoc] at read ⊢
    exact readRadix_local (by decide) read stop
  · refine .inr ⟨hex_miss some hex stop, .inr ⟨binary_miss some binary stop,
      .inr ⟨octal_miss some octal stop, ?_⟩⟩⟩
    rw [List.append_assoc] at read ⊢
    exact readDecimal_local read stop

theorem readNumber_miss : LocalMiss readNumber := by
  intro a z z' some none stop
  simp only [readNumber, Option.orElse_eq_orElse, Option.orElse_eq_or, Option.or_eq_none_iff]
    at none ⊢
  obtain ⟨hex, binary, octal, decimal⟩ := none
  exact ⟨hex_miss some hex stop, binary_miss some binary stop, octal_miss some octal stop,
    readDecimal_miss some decimal stop⟩

/-- Behind its first code point no punctuator has one that stops tokens. -/
theorem spelling_tail (mark : Punctuator) : mark.spelling.tail.all (!stops.contains ·) = true := by
  cases mark <;> decide

theorem isPrefixOf?_local {mark : Punctuator} {a : Text} (filled : a ≠ []) (stop : Stop z')
    (miss : mark.spelling.isPrefixOf? (a ++ z) = none) :
    mark.spelling.isPrefixOf? (a ++ z') = none := by
  cases found : mark.spelling.isPrefixOf? (a ++ z') with
  | none => rfl
  | some rest =>
    have whole := List.isPrefixOf?_eq_some_iff_append_eq.mp found
    rcases List.append_eq_append_iff.mp whole with ⟨b, same, -⟩ | ⟨b, same, behind⟩
    · have again : mark.spelling.isPrefixOf? (a ++ z) = some (b ++ z) :=
        List.isPrefixOf?_eq_some_iff_append_eq.mpr (by rw [same, List.append_assoc])
      rw [again] at miss
      cases miss
    · cases b with
      | nil =>
        rw [List.append_nil] at same
        have again : mark.spelling.isPrefixOf? (a ++ z) = some z :=
          List.isPrefixOf?_eq_some_iff_append_eq.mpr (by rw [same])
        rw [again] at miss
        cases miss
      | cons c b =>
        have member := stop c (by rw [behind]; rfl)
        have plain := List.all_eq_true.mp (spelling_tail mark) c (by
          cases a with
          | nil => exact absurd rfl filled
          | cons d a => simp [same])
        simp [member] at plain

theorem readPunctuator_local {marks : List Punctuator} {mark : Punctuator} (stop : Stop z')
    (read : readPunctuator marks (mark.spelling ++ (y ++ z)) = some (mark, y ++ z)) :
    readPunctuator marks (mark.spelling ++ (y ++ z')) = some (mark, y ++ z') := by
  induction marks with
  | nil => cases read
  | cons first others ih =>
    rw [readPunctuator] at read ⊢
    split at read
    · obtain ⟨rfl, -⟩ := Prod.mk.inj (Option.some.inj read)
      have again : first.spelling.isPrefixOf? (first.spelling ++ (y ++ z')) = some (y ++ z') :=
        List.isPrefixOf?_eq_some_iff_append_eq.mpr rfl
      rw [again]
    · rename_i miss
      have some : mark.spelling ++ y ≠ [] := by simp [spelling_ne_nil]
      rw [← List.append_assoc] at miss
      have miss := isPrefixOf?_local some stop miss
      rw [List.append_assoc] at miss
      rw [miss]
      exact ih read

theorem readQuoted_other {quote c : CodePoint} (other : c ≠ quote) (multiline : Bool) (t : Text) :
    readQuoted quote multiline (c :: t) = none := by
  simp [readQuoted, other]

/-- A quoted text is read to its closing quote and no further. -/
theorem readQuotedRest_append {quote : CodePoint} {multiline : Bool} {t lexeme rest : Text}
    (read : readQuotedRest quote multiline t = some (lexeme, rest)) (z : Text) :
    readQuotedRest quote multiline (lexeme ++ z) = some (lexeme, z) := by
  induction t using readQuotedRest.induct quote multiline generalizing lexeme rest with
  | case1 => simp [readQuotedRest] at read
  | case2 c cs ends =>
    rw [readQuotedRest.eq_def] at read
    simp only [if_pos ends] at read
    obtain ⟨rfl, rfl⟩ := Prod.mk.inj (Option.some.inj read)
    rw [List.cons_append, readQuotedRest.eq_def]
    simp only [if_pos ends, List.nil_append]
  | case3 c cs other ends =>
    rw [readQuotedRest.eq_def] at read
    simp only [if_neg other, if_pos ends, reduceCtorEq] at read
  | case4 c other line escape =>
    simp [readQuotedRest, other, line, escape] at read
  | case5 c other line escape d cs ih =>
    rw [readQuotedRest, if_neg other, if_neg line, if_pos escape] at read
    obtain ⟨⟨body, behind⟩, inner, same⟩ := Option.map_eq_some_iff.mp read
    obtain ⟨rfl, rfl⟩ := Prod.mk.inj same
    rw [List.cons_append, List.cons_append, readQuotedRest, if_neg other, if_neg line,
      if_pos escape, ih inner]
    rfl
  | case6 c cs other line escape ih =>
    rw [readQuotedRest.eq_def] at read
    simp only [if_neg other, if_neg line, if_neg escape] at read
    obtain ⟨⟨body, behind⟩, inner, same⟩ := Option.map_eq_some_iff.mp read
    obtain ⟨rfl, rfl⟩ := Prod.mk.inj same
    rw [List.cons_append, readQuotedRest.eq_def]
    simp only [if_neg other, if_neg line, if_neg escape, ih inner]
    rfl

theorem readQuoted_append {quote : CodePoint} {multiline : Bool} {t lexeme rest : Text}
    (read : readQuoted quote multiline t = some (lexeme, rest)) (z : Text) :
    readQuoted quote multiline (lexeme ++ z) = some (lexeme, z) ∧
      lexeme.head? = some quote := by
  cases t with
  | nil => simp [readQuoted] at read
  | cons c cs =>
    simp only [readQuoted, Option.ite_none_right_eq_some, Option.map_eq_some_iff,
      Prod.mk.injEq, Prod.exists] at read
    obtain ⟨opens, body, behind, inner, rfl, rfl⟩ := read
    have again := readQuotedRest_append inner z
    refine ⟨?_, by simpa using opens⟩
    rw [List.cons_append, readQuoted, if_pos opens, again]
    rfl

/-- What a token starts with, by its class. -/
theorem readNumber_head {t lexeme rest : Text} (read : readNumber t = some (lexeme, rest)) :
    ∃ c l, t = c :: l ∧ (c.isDecimal = true ∨ c = CodePoint.point) := by
  have radix {marks : List CodePoint} {isDigit : CodePoint → Bool}
      (read : readRadix marks isDigit t = some (lexeme, rest)) :
      ∃ c l, t = c :: l ∧ (c.isDecimal = true ∨ c = CodePoint.point) := by
    by_contra other
    rw [readRadix_other] at read
    · cases read
    · rintro mark more rfl
      exact other ⟨48, _, rfl, .inl (by decide)⟩
  simp only [readNumber, Option.orElse_eq_orElse, Option.orElse_eq_or, Option.or_eq_some_iff]
    at read
  rcases read with read | ⟨-, read | ⟨-, read | ⟨-, read⟩⟩⟩
  · exact radix read
  · exact radix read
  · exact radix read
  · cases t with
    | nil => cases read
    | cons c l =>
      refine ⟨c, l, rfl, ?_⟩
      rw [readDecimal_cons] at read
      split at read
      · rename_i digit
        exact .inl digit
      split at read
      · rename_i point
        exact .inr (eq_of_beq (Bool.and_eq_true_iff.mp point).1)
      · cases read

theorem readName_head {t lexeme rest : Text} (read : readName t = some (lexeme, rest)) :
    ∃ c l, t = c :: l ∧ isNameStart c = true := by
  cases t with
  | nil => cases read
  | cons c l =>
    rw [readName, Option.ite_none_right_eq_some] at read
    exact ⟨c, l, rfl, read.1⟩

theorem readNumber_none {c : CodePoint} {t : Text} (digit : c.isDecimal = false)
    (point : c ≠ CodePoint.point) : readNumber (c :: t) = none := by
  cases read : readNumber (c :: t) with
  | none => rfl
  | some r =>
    obtain ⟨lexeme, rest⟩ := r
    obtain ⟨d, l, same, digit' | rfl⟩ := readNumber_head read
    · obtain ⟨rfl, -⟩ := List.cons.inj same
      rw [digit] at digit'
      cases digit'
    · exact absurd (List.cons.inj same).1 point

theorem isNameStart_plain {c : CodePoint} (start : isNameStart c = true) :
    c.isDecimal = false ∧ c ≠ CodePoint.point ∧ c ≠ CodePoint.doubleQuote ∧
      c ≠ CodePoint.singleQuote ∧ c ≠ CodePoint.backtick := by
  have small : c ∈ List.range 123 := by
    rw [List.mem_range]
    simp only [isNameStart, CodePoint.isLetter, CodePoint.isUpper, CodePoint.isLower,
      Bool.or_eq_true, Bool.and_eq_true, Nat.ble_eq, beq_iff_eq, CodePoint.underscore] at start
    rcases start with ((⟨-, most⟩ | ⟨-, most⟩) | rfl) | rfl
    · exact Nat.lt_of_le_of_lt most (by decide)
    · exact Nat.lt_of_le_of_lt most (by decide)
    · decide
    · decide
  have each : (List.range 123).all (fun c => !isNameStart c || (!CodePoint.isDecimal c &&
      c != CodePoint.point && c != CodePoint.doubleQuote && c != CodePoint.singleQuote &&
        c != CodePoint.backtick)) = true := by decide
  have here := List.all_eq_true.mp each c small
  simpa [start, and_assoc] using here

theorem isDecimal_plain {c : CodePoint} (digit : c.isDecimal = true) :
    c ≠ CodePoint.doubleQuote ∧ c ≠ CodePoint.singleQuote ∧ c ≠ CodePoint.backtick := by
  refine ⟨?_, ?_, ?_⟩ <;> rintro rfl <;> revert digit <;> decide

/-- No punctuator starts like a quoted text or a name. -/
theorem spelling_head (mark : Punctuator) : mark.spelling.head?.all (fun c =>
    !isNameStart c && c != CodePoint.doubleQuote && c != CodePoint.singleQuote &&
      c != CodePoint.backtick) = true := by
  cases mark <;> decide

/-- How a terminal stands in front of a text. -/
inductive Stands (t : Text) : Terminal → Text → Text → Prop where
  | double {lexeme rest : Text} : readQuoted CodePoint.doubleQuote false t = some (lexeme, rest) →
      Stands t .string lexeme rest
  | single {lexeme rest : Text} : readQuoted CodePoint.singleQuote false t = some (lexeme, rest) →
      Stands t .string lexeme rest
  | template {lexeme rest : Text} : readQuoted CodePoint.backtick true t = some (lexeme, rest) →
      Stands t .template lexeme rest
  | number {lexeme rest : Text} : readNumber t = some (lexeme, rest) →
      Stands t .number lexeme rest
  | keyword {lexeme rest : Text} {word : Keyword} : readName t = some (lexeme, rest) →
      Keyword.ofSpelling? lexeme = some word → Stands t (.keyword word) lexeme rest
  | name {lexeme rest : Text} : readName t = some (lexeme, rest) →
      Keyword.ofSpelling? lexeme = none → Stands t .name lexeme rest
  | punctuator {mark : Punctuator} {rest : Text} : readNumber t = none →
      readPunctuator Punctuator.byLength t = some (mark, rest) →
      Stands t (.punctuator mark) mark.spelling rest

theorem readQuoted_head {quote : CodePoint} {multiline : Bool} {t lexeme rest : Text}
    (read : readQuoted quote multiline t = some (lexeme, rest)) : ∃ body, t = quote :: body := by
  cases t with
  | nil => cases read
  | cons c body =>
    by_cases same : c = quote
    · exact ⟨body, by rw [same]⟩
    · rw [readQuoted_other same] at read
      cases read

theorem readTerminal_iff {t lexeme rest : Text} {terminal : Terminal} :
    readTerminal t = some (terminal, lexeme, rest) ↔ Stands t terminal lexeme rest := by
  constructor
  · intro read
    simp only [readTerminal] at read
    split at read
    · rename_i found
      obtain ⟨rfl, rfl, rfl⟩ : _ ∧ _ ∧ _ := by simpa using read
      simp only [Option.orElse_eq_orElse, Option.orElse_eq_or, Option.or_eq_some_iff] at found
      rcases found with found | ⟨-, found⟩
      · exact .double found
      · exact .single found
    split at read
    · rename_i found
      obtain ⟨rfl, rfl, rfl⟩ : _ ∧ _ ∧ _ := by simpa using read
      exact .template found
    split at read
    · rename_i found
      obtain ⟨rfl, rfl, rfl⟩ : _ ∧ _ ∧ _ := by simpa using read
      exact .number found
    rename_i noNumber
    split at read
    · rename_i found
      split at read
      · rename_i word
        obtain ⟨rfl, rfl, rfl⟩ : _ ∧ _ ∧ _ := by simpa using read
        exact .keyword found word
      · rename_i none
        obtain ⟨rfl, rfl, rfl⟩ : _ ∧ _ ∧ _ := by simpa using read
        exact .name found none
    split at read
    · rename_i found
      obtain ⟨rfl, rfl, rfl⟩ : _ ∧ _ ∧ _ := by simpa using read
      exact .punctuator noNumber found
    · contradiction
  · intro stands
    unfold readTerminal
    cases stands with
    | double read => simp [read]
    | single read =>
      obtain ⟨body, rfl⟩ := readQuoted_head read
      rw [readQuoted_other (by decide), read]
      rfl
    | template read =>
      obtain ⟨body, rfl⟩ := readQuoted_head read
      rw [readQuoted_other (by decide), readQuoted_other (by decide), read]
      rfl
    | number read =>
      obtain ⟨c, l, rfl, digit | rfl⟩ := readNumber_head read
      · obtain ⟨double, single, backtick⟩ := isDecimal_plain digit
        rw [readQuoted_other double, readQuoted_other single, readQuoted_other backtick, read]
        rfl
      · rw [readQuoted_other (by decide), readQuoted_other (by decide),
          readQuoted_other (by decide), read]
        rfl
    | keyword read word =>
      obtain ⟨c, l, rfl, start⟩ := readName_head read
      obtain ⟨digit, point, double, single, backtick⟩ := isNameStart_plain start
      rw [readQuoted_other double, readQuoted_other single, readQuoted_other backtick,
        readNumber_none digit point, read]
      simp [word]
    | name read none =>
      obtain ⟨c, l, rfl, start⟩ := readName_head read
      obtain ⟨digit, point, double, single, backtick⟩ := isNameStart_plain start
      rw [readQuoted_other double, readQuoted_other single, readQuoted_other backtick,
        readNumber_none digit point, read]
      simp [none]
    | @punctuator mark rest noNumber read =>
      have whole := readPunctuator_exact read
      have head := spelling_head mark
      cases spelled : mark.spelling with
      | nil => exact absurd spelled (spelling_ne_nil mark)
      | cons c l =>
        rw [spelled] at whole head
        subst whole
        simp only [List.head?_cons, Option.all_some, Bool.and_eq_true, Bool.not_eq_true', bne_iff_ne,
          and_assoc] at head
        obtain ⟨start, double, single, backtick⟩ := head
        have noName : readName (c :: (l ++ rest)) = none := if_neg (Bool.eq_false_iff.mp start)
        rw [List.cons_append] at noNumber read ⊢
        rw [readQuoted_other double, readQuoted_other single, readQuoted_other backtick, noNumber,
          noName, read]
        simp [spelled]

theorem readTerminal_local {terminal : Terminal} (stop : Stop z')
    (read : readTerminal (lexeme ++ (y ++ z)) = some (terminal, lexeme, y ++ z)) :
    readTerminal (lexeme ++ (y ++ z')) = some (terminal, lexeme, y ++ z') := by
  obtain ⟨-, filled⟩ := readTerminal_exact read
  rw [readTerminal_iff] at read ⊢
  generalize behind : y ++ z = rest at read
  cases read with
  | double read => exact .double (readQuoted_append read _).1
  | single read => exact .single (readQuoted_append read _).1
  | template read => exact .template (readQuoted_append read _).1
  | number read =>
    subst behind
    exact .number (readNumber_local read stop)
  | keyword read word =>
    subst behind
    exact .keyword (readName_local read stop) word
  | name read none =>
    subst behind
    exact .name (readName_local read stop) none
  | @punctuator mark _ none read =>
    subst behind
    refine .punctuator ?_ (readPunctuator_local stop read)
    have some : mark.spelling ++ y ≠ [] := by simp [filled]
    rw [← List.append_assoc] at none ⊢
    exact readNumber_miss some none stop

end StyleSplit.Script.Token
