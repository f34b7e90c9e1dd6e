import StyleSplit.Proofs.Script.Lookahead
import StyleSplit.Proofs.Script.Extents

/-! Reading a part of a script again in another place. The judgement `Lexes` leaves out
where tokens stand. A part that begins and ends with a token gives the same tokens wherever
it is put, as long as what follows starts with a bracket, a comma, a colon or a line end. -/
namespace StyleSplit.Script.Token

/-- What a token is, wherever it stands. -/
def bare (t : Token) : Terminal × Text := (t.terminal, t.text)

/-- The tokens at the front of a text without their places, and what remains. -/
inductive Lexes : Text → List (Terminal × Text) → Text → Prop where
  | done {rest : Text} : Lexes rest [] rest
  | blank {c : CodePoint} {t rest : Text} {u : List (Terminal × Text)} : isBlank c = true →
      Lexes t u rest → Lexes (c :: t) u rest
  | gap {gap behind rest : Text} {u : List (Terminal × Text)} :
      skipGap (gap ++ behind) = some behind → Lexes behind u rest → Lexes (gap ++ behind) u rest
  | token {terminal : Terminal} {lexeme behind rest : Text} {u : List (Terminal × Text)} :
      skipGap (lexeme ++ behind) = none →
      readTerminal (lexeme ++ behind) = some (terminal, lexeme, behind) →
      Lexes behind u rest → Lexes (lexeme ++ behind) ((terminal, lexeme) :: u) rest

variable {t middle rest z z' : Text} {u v : List (Terminal × Text)}

theorem Lexes.append (first : Lexes t u middle) (last : Lexes middle v rest) :
    Lexes t (u ++ v) rest := by
  induction first with
  | done => exact last
  | blank plain _ ih => exact .blank plain (ih last)
  | gap skipped _ ih => exact .gap skipped (ih last)
  | token stuck read _ ih => exact .token stuck read (ih last)

theorem Lexes.blanks {b : Text} (plain : ∀ c ∈ b, isBlank c = true) (lexes : Lexes t u rest) :
    Lexes (b ++ t) u rest := by
  induction b with
  | nil => exact lexes
  | cons c b ih => exact .blank (plain c (by simp)) (ih fun d member => plain d (by simp [member]))

theorem skipGap_blank {c : CodePoint} (blank : isBlank c = true) (t : Text) :
    skipGap (c :: t) = some (t.dropWhile isBlank) :=
  if_pos blank

theorem skipGap_slash (t : Text) : skipGap (47 :: 47 :: t) = some (t.dropWhile (· != 10)) := rfl

theorem head_of_stuck {c : CodePoint} (stuck : skipGap (c :: t) = none) : isBlank c = false := by
  by_contra blank
  rw [skipGap_blank (by simpa using blank)] at stuck
  cases stuck

theorem skipBlock_local {behind : Text} (skipped : skipBlock t = some behind) :
    ∃ block, t = block ++ behind ∧ ∀ z, skipBlock (block ++ z) = some z := by
  induction t using skipBlock.induct with
  | case1 => cases skipped
  | case2 cs =>
    obtain rfl : cs = behind := by simpa [skipBlock] using skipped
    exact ⟨[42, 47], rfl, fun z => by simp [skipBlock]⟩
  | case3 c cs other ih =>
    rw [skipBlock] at skipped
    · obtain ⟨block, rfl, again⟩ := ih skipped
      refine ⟨c :: block, rfl, fun z => ?_⟩
      cases block with
      | nil =>
        have none := again []
        cases none
      | cons d block =>
        rw [List.cons_append, skipBlock]
        · exact again z
        · rintro rest star same
          exact other (block ++ behind) star (by rw [List.cons_append, (List.cons.inj same).1])
    · exact other

/-- What a gap may be. -/
theorem skipGap_cases {behind : Text} (skipped : skipGap t = some behind) :
    (∃ b, t = b ++ behind ∧ b ≠ [] ∧ ∀ c ∈ b, isBlank c = true) ∨
      (∃ line, t = 47 :: 47 :: line ++ behind ∧ (∀ c ∈ line, c ≠ 10) ∧ ∀ c ∈ behind.head?, c = 10) ∨
      ∃ block, t = 47 :: 42 :: block ++ behind ∧ ∀ z, skipBlock (block ++ z) = some z := by
  cases t with
  | nil => cases skipped
  | cons c t =>
    by_cases blank : isBlank c = true
    · rw [skipGap_blank blank] at skipped
      obtain rfl := Option.some.inj skipped
      refine .inl ⟨c :: t.takeWhile isBlank, by simp, by simp, ?_⟩
      intro d member
      rcases List.mem_cons.mp member with rfl | member
      · exact blank
      · exact List.all_eq_true.mp List.all_takeWhile d member
    · simp only [skipGap, if_neg blank] at skipped
      split at skipped
      · rename_i slash
        obtain rfl := eq_of_beq slash
        split at skipped
        · rename_i line
          obtain rfl := Option.some.inj skipped
          refine .inr (.inl ⟨line.takeWhile (· != 10), ?_, ?_, ?_⟩)
          · exact congrArg (fun t => 47 :: 47 :: t) List.takeWhile_append_dropWhile.symm
          · intro d member
            simpa using List.all_eq_true.mp List.all_takeWhile d member
          · intro d front
            have stops := List.head?_dropWhile_not (· != 10) line
            simp only [show (CodePoint.newline : Nat) = 10 from rfl] at front
            rw [front] at stops
            simpa using stops
        · rename_i block
          obtain ⟨block, rfl, again⟩ := skipBlock_local skipped
          exact .inr (.inr ⟨block, rfl, again⟩)
        · cases skipped
      · cases skipped

/-- Where a gap may not start, none does when what follows changes. -/
theorem skipGap_none_local {a : Text} (some : a ≠ []) (plain : ∀ l, a ≠ 47 :: 42 :: l)
    (stuck : skipGap (a ++ z) = none) (stop : Stop z') : skipGap (a ++ z') = none := by
  cases a with
  | nil => exact absurd rfl some
  | cons c a =>
    have blank := head_of_stuck stuck
    rw [List.cons_append] at stuck ⊢
    unfold skipGap at stuck ⊢
    simp only [blank, Bool.false_eq_true, if_false] at stuck ⊢
    by_cases slash : (c == CodePoint.slash) = true
    · rw [if_pos slash] at stuck ⊢
      obtain rfl := eq_of_beq slash
      cases a with
      | nil =>
        cases z' with
        | nil => rfl
        | cons d z' =>
          have member := stop d rfl
          have other : ∀ d ∈ stops, d ≠ 47 ∧ d ≠ 42 := by decide
          obtain ⟨line, block⟩ := other d member
          split
          · rename_i same
            exact absurd (List.cons.inj same).1 line
          · rename_i same
            exact absurd (List.cons.inj same).1 block
          · rfl
      | cons d a =>
        split
        · rename_i same
          obtain ⟨rfl, -⟩ := List.cons.inj same
          cases stuck
        · rename_i same
          obtain ⟨rfl, -⟩ := List.cons.inj same
          exact absurd rfl (plain a)
        · rfl
    · rw [if_neg slash]

/-- No slash comes right before something that starts with a star. -/
def Separate (tokens : List Token) : Prop :=
  ∀ a b : Token, [a, b] <:+: tokens → a.terminal = .punctuator .slash → b.text.head? ≠ some 42

theorem Separate.sub {tokens part : List Token} (separate : Separate tokens)
    (inner : part <:+: tokens) : Separate part :=
  fun a b pair => separate a b (pair.trans inner)

variable {offset : Nat} {tokens : List Token}

theorem Scans.suffix (scans : Scans offset t tokens rest) : ∃ y, t = y ++ rest := by
  induction scans with
  | done => exact ⟨[], rfl⟩
  | @gap _ gap _ _ _ _ _ ih =>
    obtain ⟨y, rfl⟩ := ih
    exact ⟨gap ++ y, (List.append_assoc _ _ _).symm⟩
  | @token _ _ lexeme _ _ _ _ _ _ ih =>
    obtain ⟨y, rfl⟩ := ih
    exact ⟨lexeme ++ y, (List.append_assoc _ _ _).symm⟩

/-- Where no gap starts, the next token does. -/
theorem Scans.next {c : CodePoint} {y : Text} (scans : Scans offset (c :: y ++ rest) tokens rest)
    (stuck : skipGap (c :: y ++ rest) = none) :
    ∃ b more, tokens = b :: more ∧ b.text.head? = some c := by
  generalize whole : c :: y ++ rest = t at scans stuck
  cases scans with
  | done =>
    have lengths := congrArg List.length whole
    simp only [List.length_append, List.length_cons] at lengths
    omega
  | gap skipped _ => rw [stuck] at skipped; cases skipped
  | @token _ terminal lexeme behind _ more _ read _ =>
    refine ⟨_, more, rfl, ?_⟩
    have filled := (readTerminal_exact read).2
    cases lexeme with
    | nil => exact absurd rfl filled
    | cons d l => exact congrArg some (List.cons.inj whole).1.symm

/-- A token that starts with a slash or a star is a punctuator. -/
theorem mark_of_head {c : CodePoint} {terminal : Terminal} {l behind : Text}
    (start : c = 47 ∨ c = 42)
    (read : readTerminal (c :: l ++ behind) = some (terminal, c :: l, behind)) :
    ∃ mark, terminal = .punctuator mark ∧ mark.spelling = c :: l := by
  have stands := readTerminal_iff.mp read
  have head {d : CodePoint} {more : Text} (split : c :: l ++ behind = d :: more) : d = c :=
    (List.cons.inj split).1.symm
  generalize c :: l ++ behind = t at stands head
  generalize same : (c :: l : Text) = lexeme at stands
  cases stands with
  | double read | single read | template read =>
    obtain ⟨body, split⟩ := readQuoted_head read
    obtain rfl := head split
    exact absurd start (by decide)
  | number read =>
    obtain ⟨d, more, split, first⟩ := readNumber_head read
    obtain rfl := head split
    rcases start with rfl | rfl <;> exact absurd first (by decide)
  | keyword read | name read =>
    obtain ⟨d, more, split, first⟩ := readName_head read
    obtain rfl := head split
    rcases start with rfl | rfl <;> exact absurd first (by decide)
  | @punctuator mark _ _ _ => exact ⟨mark, rfl, rfl⟩

theorem slash_of_head {terminal : Terminal} {l behind : Text}
    (read : readTerminal (47 :: l ++ behind) = some (terminal, 47 :: l, behind)) :
    terminal = .punctuator .slash ∧ l = [] ∨ l = [61] := by
  obtain ⟨mark, rfl, spelled⟩ := mark_of_head (.inl rfl) read
  have known : mark = .slash ∨ mark = .slashAssign := by
    have head : mark.spelling.head? = some 47 := by rw [spelled]; rfl
    revert head
    cases mark <;> decide
  rcases known with rfl | rfl
  · exact .inl ⟨rfl, (List.cons.inj spelled).2.symm⟩
  · exact .inr (List.cons.inj spelled).2.symm

theorem star_of_head {terminal : Terminal} {l behind : Text}
    (read : readTerminal (42 :: l ++ behind) = some (terminal, 42 :: l, behind)) :
    ∃ mark ∈ [Punctuator.star, .starAssign, .power, .powerAssign], terminal = .punctuator mark := by
  obtain ⟨mark, rfl, spelled⟩ := mark_of_head (.inr rfl) read
  refine ⟨mark, ?_, rfl⟩
  have head : mark.spelling.head? = some 42 := by rw [spelled]; rfl
  revert head
  cases mark <;> decide

/-- Each token is read from its text. -/
theorem Scans.read (scans : Scans offset t tokens rest) {b : Token} (member : b ∈ tokens) :
    ∃ behind, readTerminal (b.text ++ behind) = some (b.terminal, b.text, behind) := by
  induction scans with
  | done => cases member
  | gap _ _ ih => exact ih member
  | @token _ _ _ behind _ _ _ read _ ih =>
    rcases List.mem_cons.mp member with rfl | member
    · exact ⟨behind, read⟩
    · exact ih member

/-- The tokens of a text do not change when what follows them does, if they end where the
text does. A comment would not end in the same place. -/
theorem Scans.relocate (scans : Scans offset t tokens z) (stop : Stop z')
    (separate : Separate tokens) {y : Text} (whole : t = y ++ z)
    (ends : (∀ c ∈ z.head?, c = 10) → y = [] ∨
      ∃ b, tokens.getLast? = some b ∧ b.span.stop = offset + y.length) :
    Lexes (y ++ z') (tokens.map bare) z' := by
  induction scans generalizing y with
  | done =>
    obtain rfl : y = [] := by simpa using whole
    exact .done
  | @gap offset gap behind z tokens skipped scans ih =>
    obtain ⟨y', rfl⟩ := scans.suffix
    rw [← List.append_assoc] at whole
    obtain rfl := List.append_cancel_right whole
    obtain ⟨gap', same, some⟩ := skipGap_exact skipped
    obtain rfl := List.append_cancel_right same
    have ends' (line : ∀ c ∈ z.head?, c = 10) : y' = [] ∨
        ∃ b, tokens.getLast? = Option.some b ∧ b.span.stop = offset + gap.length + y'.length := by
      rcases ends line with none | ⟨b, last, stop⟩
      · exact .inl (List.append_eq_nil_iff.mp none).2
      · rw [List.length_append] at stop
        exact .inr ⟨b, last, by omega⟩
    have next := ih separate rfl ends'
    rw [List.append_assoc]
    rcases skipGap_cases skipped with ⟨b, same, -, plain⟩ | ⟨line, same, long, front⟩ |
      ⟨block, same, again⟩
    · obtain rfl := List.append_cancel_right same
      exact next.blanks plain
    · obtain rfl := List.append_cancel_right same
      have front' : ∀ c ∈ (y' ++ z').head?, c = 10 := by
        cases y' with
        | cons a y' => exact front
        | nil =>
          rcases ends front with none | ⟨b, last, stop⟩
          · cases none
          · have inside := scans.within (List.mem_of_getLast? last)
            have filled := scans.inOrder.some b (List.mem_of_getLast? last)
            rw [List.append_nil] at stop
            simp only [List.nil_append] at inside
            omega
      refine .gap ?_ next
      rw [List.cons_append, List.cons_append, skipGap_slash]
      have plain : ∀ c ∈ line, (c != 10) = true := fun c member => by simpa using long c member
      rw [List.dropWhile_append_of_pos plain, (takeWhile_none ?_).2]
      intro c head
      simpa using front' c head
    · obtain rfl := List.append_cancel_right same
      exact .gap (again _) next
  | @token offset terminal lexeme behind z tokens stuck read scans ih =>
    obtain ⟨y', rfl⟩ := scans.suffix
    rw [← List.append_assoc] at whole
    obtain rfl := List.append_cancel_right whole
    have filled := (readTerminal_exact read).2
    have next : Lexes (y' ++ z') (tokens.map bare) z' := by
      refine ih (separate.sub (List.suffix_cons _ _).isInfix) rfl fun line => ?_
      rcases ends line with none | ⟨b, last, stop⟩
      · exact absurd (List.append_eq_nil_iff.mp none).1 filled
      · rw [List.length_append] at stop
        cases tokens with
        | nil =>
          obtain rfl := Option.some.inj last
          exact .inl (List.length_eq_zero_iff.mp (by simpa using stop))
        | cons a more => exact .inr ⟨b, last, by omega⟩
    rw [List.append_assoc]
    refine .token ?_ (readTerminal_local stop read) next
    rw [← List.append_assoc] at stuck ⊢
    refine skipGap_none_local (by simp [filled]) ?_ stuck stop
    intro l same
    -- A slash before a star would open a comment if its end came later.
    cases lexeme with
    | nil => exact absurd rfl filled
    | cons c l' =>
      obtain ⟨rfl, same⟩ := List.cons.inj same
      rcases slash_of_head read with ⟨rfl, rfl⟩ | rfl
      · obtain rfl : y' = 42 :: l := by simpa using same
        obtain ⟨b, more, rfl, head⟩ := scans.next rfl
        exact separate _ b ⟨[], more, rfl⟩ rfl head
      · cases same

/-- A text that gives the same tokens before any stop. -/
def Piece (t : Text) (u : List (Terminal × Text)) : Prop := ∀ z, Stop z → Lexes (t ++ z) u z

theorem Scans.lexes (scans : Scans offset t tokens rest) : Lexes t (tokens.map bare) rest := by
  induction scans with
  | done => exact .done
  | gap skipped _ ih => exact .gap skipped ih
  | token stuck read _ ih => exact .token stuck read ih

/-- Before each token the tokens ahead of it are read, and no gap is left. -/
theorem Scans.before {v : List Token} {a : Token} (scans : Scans offset t tokens rest)
    {u : List Token} (whole : tokens = u ++ a :: v) : ∃ front middle, t = front ++ middle ∧
      a.span.start = offset + front.length ∧ skipGap middle = none ∧ middle ≠ [] ∧
      Scans offset t u middle ∧ Scans a.span.start middle (a :: v) rest := by
  induction scans generalizing u with
  | done => simp at whole
  | @gap offset gap _ _ _ skipped _ ih =>
    obtain ⟨front, middle, rfl, start, stuck, filled, first, last⟩ := ih whole
    refine ⟨gap ++ front, middle, (List.append_assoc _ _ _).symm, ?_, stuck, filled,
      .gap skipped first, last⟩
    rw [List.length_append]
    omega
  | @token offset terminal lexeme behind _ _ stuck read scans ih =>
    cases u with
    | nil =>
      obtain ⟨rfl, rfl⟩ := List.cons.inj whole
      exact ⟨[], lexeme ++ behind, rfl, rfl, stuck, by simp [(readTerminal_exact read).2], .done,
        .token stuck read scans⟩
    | cons b u =>
      obtain ⟨rfl, others⟩ := List.cons.inj whole
      obtain ⟨front, middle, rfl, start, stuck', filled, first, last⟩ := ih others
      refine ⟨lexeme ++ front, middle, (List.append_assoc _ _ _).symm, ?_, stuck', filled,
        .token stuck read first, last⟩
      rw [List.length_append]
      omega

/-- Behind each token the tokens that follow it are read. -/
theorem Scans.behind {v : List Token} {b : Token} (scans : Scans offset t tokens rest)
    {u : List Token} (whole : tokens = u ++ v) (last : u.getLast? = some b) :
    ∃ y middle, t = y ++ middle ∧ b.span.stop = offset + y.length ∧
      Scans offset t u middle ∧ Scans b.span.stop middle v rest := by
  induction scans generalizing u with
  | done =>
    obtain ⟨rfl, -⟩ := List.append_eq_nil_iff.mp whole.symm
    cases last
  | @gap offset gap _ _ _ skipped _ ih =>
    obtain ⟨y, middle, rfl, stop, first, others⟩ := ih whole last
    refine ⟨gap ++ y, middle, (List.append_assoc _ _ _).symm, ?_, .gap skipped first, others⟩
    rw [List.length_append]
    omega
  | @token offset terminal lexeme behind _ _ stuck read scans ih =>
    cases u with
    | nil => cases last
    | cons a u =>
      obtain ⟨rfl, others⟩ := List.cons.inj whole
      cases u with
      | nil =>
        obtain rfl := Option.some.inj last
        subst others
        exact ⟨lexeme, behind, rfl, rfl, .token stuck read .done, scans⟩
      | cons c u =>
        obtain ⟨y, middle, rfl, stop, first, after⟩ := ih others last
        refine ⟨lexeme ++ y, middle, (List.append_assoc _ _ _).symm, ?_, .token stuck read first,
          after⟩
        rw [List.length_append]
        omega

/-- The text at some tokens gives them wherever it is put. -/
theorem Scans.piece {w part : List Token} {span : Span} (scans : Scans 0 t w [])
    (separate : Separate w) (inner : part <:+: w) (extent : extent? part = some span) :
    Piece (span.of t) (part.map bare) := by
  intro z' stop
  obtain ⟨a, b, first, last, rfl⟩ := extent?_eq_some.mp extent
  obtain ⟨more, rfl⟩ := List.head?_eq_some_iff.mp first
  obtain ⟨u, v, rfl⟩ := inner
  have whole : u ++ a :: more ++ v = u ++ a :: (more ++ v) := List.append_assoc _ _ _
  obtain ⟨front, middle, rfl, start, -, -, -, here⟩ := scans.before whole
  obtain ⟨y, z, rfl, ends, part, -⟩ := here.behind rfl last
  have same : Span.of ⟨a.span.start, b.span.stop⟩ (front ++ (y ++ z)) = y := by
    rw [Span.of, Text.slice, ends, start, Nat.zero_add, ← List.append_assoc, List.take_left' (by simp),
      List.drop_left]
  rw [same]
  exact part.relocate stop (separate.sub ⟨u, v, rfl⟩) rfl fun _ => .inr ⟨b, last, ends⟩

theorem Lexes.dropBlanks (lexes : Lexes t u []) : Lexes (t.dropWhile isBlank) u [] := by
  generalize nothing : ([] : Text) = rest at lexes
  induction lexes with
  | done =>
    subst nothing
    exact .done
  | blank plain _ ih =>
    rw [List.dropWhile_cons, if_pos plain]
    exact ih nothing
  | @gap gap behind _ _ skipped lexes ih =>
    obtain ⟨gap', same, some⟩ := skipGap_exact skipped
    obtain rfl := List.append_cancel_right same
    cases gap with
    | nil => exact absurd rfl some
    | cons c gap =>
      by_cases blank : isBlank c = true
      · rw [List.cons_append, skipGap_blank blank] at skipped
        rw [List.cons_append, List.dropWhile_cons, if_pos blank, Option.some.inj skipped]
        exact lexes
      · rw [List.cons_append, List.dropWhile_cons, if_neg blank]
        exact .gap skipped lexes
  | @token _ lexeme _ _ _ stuck read lexes _ =>
    cases lexeme with
    | nil => exact absurd rfl (readTerminal_exact read).2
    | cons c l =>
      have blank := head_of_stuck stuck
      rw [List.cons_append, List.dropWhile_cons, blank]
      exact .token stuck read lexes

theorem Lexes.skip {behind : Text} (lexes : Lexes t u []) (skipped : skipGap t = some behind) :
    Lexes behind u [] := by
  cases lexes with
  | done => cases skipped
  | blank plain lexes =>
    rw [skipGap_blank plain] at skipped
    exact Option.some.inj skipped ▸ lexes.dropBlanks
  | gap skipped' lexes =>
    obtain rfl := Option.some.inj (skipped.symm.trans skipped')
    exact lexes
  | token stuck _ _ => exact absurd (stuck.symm.trans skipped) (by simp)

theorem Lexes.of_nil (lexes : Lexes [] u rest) : u = [] := by
  generalize left : ([] : Text) = t at lexes
  cases lexes with
  | done => rfl
  | blank => cases left
  | gap skipped _ =>
    rw [← left] at skipped
    cases skipped
  | token _ read _ =>
    obtain ⟨none, -⟩ := List.append_eq_nil_iff.mp left.symm
    exact absurd none (readTerminal_exact read).2

theorem Lexes.of_stuck (lexes : Lexes t u []) (filled : t ≠ []) (stuck : skipGap t = none) :
    ∃ terminal lexeme behind more, u = (terminal, lexeme) :: more ∧
      readTerminal t = some (terminal, lexeme, behind) ∧ Lexes behind more [] := by
  cases lexes with
  | done => exact absurd rfl filled
  | blank plain _ =>
    rw [head_of_stuck stuck] at plain
    cases plain
  | gap skipped _ =>
    rw [stuck] at skipped
    cases skipped
  | token _ read lexes => exact ⟨_, _, _, _, rfl, read, lexes⟩

/-- A text that can be split into tokens is split into them. -/
theorem Lexes.scan {fuel : Nat} (lexes : Lexes t u []) (enough : t.length ≤ fuel) :
    ∃ tokens, scan fuel offset t = (tokens, none) ∧ tokens.map bare = u := by
  induction fuel generalizing t u offset with
  | zero =>
    obtain rfl := List.length_eq_zero_iff.mp (Nat.le_zero.mp enough)
    exact ⟨[], rfl, lexes.of_nil.symm⟩
  | succ fuel ih =>
    cases t with
    | nil => exact ⟨[], rfl, lexes.of_nil.symm⟩
    | cons c cs =>
      simp only [Token.scan]
      generalize whole : c :: cs = t at lexes enough
      have filled : t ≠ [] := by simp [← whole]
      cases stuck : skipGap t with
      | some behind =>
        obtain ⟨gap, rfl, some⟩ := skipGap_exact stuck
        have shorter := List.length_pos_iff.mpr some
        rw [List.length_append] at enough
        exact ih (lexes.skip stuck) (by omega)
      | none =>
        obtain ⟨terminal, lexeme, behind, more, rfl, read, left⟩ := lexes.of_stuck filled stuck
        obtain ⟨rfl, some⟩ := readTerminal_exact read
        have shorter := List.length_pos_iff.mpr some
        rw [List.length_append] at enough
        simp only [read]
        have later : ∃ tokens, Token.scan fuel (offset + lexeme.length) behind = (tokens, none) ∧
            tokens.map bare = more := ih left (by omega)
        obtain ⟨tokens, scanned, rfl⟩ := later
        exact ⟨_, by rw [scanned], rfl⟩

/-- What a script splits into does not depend on where its tokens stand. -/
theorem ofText_iff : (∃ tokens, ofText t = (tokens, none) ∧ tokens.map bare = u) ↔
    Lexes t u [] := by
  constructor
  · rintro ⟨tokens, scanned, rfl⟩
    exact (ofText_sound scanned).lexes
  · exact fun lexes => lexes.scan (Nat.le_refl _)

theorem Lexes.unique (first : Lexes t u []) (last : Lexes t v []) : u = v := by
  obtain ⟨tokens, scanned, rfl⟩ := ofText_iff.mpr first
  obtain ⟨tokens', scanned', rfl⟩ := ofText_iff.mpr last
  rw [scanned] at scanned'
  rw [(Prod.mk.inj scanned').1]

end StyleSplit.Script.Token
