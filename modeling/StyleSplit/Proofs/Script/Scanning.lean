import Mathlib.Data.List.Basic
import StyleSplit.Script.Token

/-! Scanning as a judgment with the text that remains. Every reader takes its text from
the front and at least one code point of it, so the tokens of a text stand in it one
behind the other. -/
namespace StyleSplit.Script.Token

/-- A reader that answers a part of the text, not empty, and all that is behind it. -/
def Exact (read : Reader) : Prop :=
  ∀ {t lexeme rest : Text}, read t = some (lexeme, rest) → t = lexeme ++ rest ∧ lexeme ≠ []

theorem readName_exact : Exact readName := by
  intro t lexeme rest read
  cases t with
  | nil => simp [readName] at read
  | cons c cs =>
    simp only [readName, Option.ite_none_right_eq_some, Option.some.injEq, Prod.mk.injEq] at read
    obtain ⟨_, rfl, rfl⟩ := read
    simp

theorem takeOne_append (letters : List CodePoint) (t : Text) :
    (takeOne letters t).1 ++ (takeOne letters t).2 = t := by
  unfold takeOne
  split
  · rfl
  · split <;> rfl

theorem takeExponent_append (t : Text) : (takeExponent t).1 ++ (takeExponent t).2 = t := by
  cases t with
  | nil => rfl
  | cons c cs =>
    simp only [takeExponent]
    split
    · have sign := takeOne_append [43, 45] cs
      split
      · rfl
      · simp only [List.cons_append, List.append_assoc, List.takeWhile_append_dropWhile, sign]
    · rfl

theorem takeFraction_append (t : Text) : (takeFraction t).1 ++ (takeFraction t).2 = t := by
  cases t with
  | nil => rfl
  | cons c cs =>
    simp only [takeFraction]
    split
    · simp
    · rfl

theorem finishDecimal_append (digits rest : Text) :
    (finishDecimal digits rest).1 ++ (finishDecimal digits rest).2 = digits ++ rest := by
  have exponent := takeExponent_append rest
  have suffix := takeOne_append [110] (takeExponent rest).2
  simp only [finishDecimal, takeSuffix, List.append_assoc, suffix, exponent]

theorem readDecimal_exact : Exact readDecimal := by
  intro t lexeme rest read
  cases t with
  | nil => simp [readDecimal] at read
  | cons c cs =>
    simp only [readDecimal] at read
    split at read
    · generalize (fun d => CodePoint.isDecimal d || d == CodePoint.underscore) = part at read
      have fraction := takeFraction_append (cs.dropWhile part)
      have finished := finishDecimal_append
        (c :: cs.takeWhile part ++ (takeFraction (cs.dropWhile part)).1)
        (takeFraction (cs.dropWhile part)).2
      simp only [Option.some.injEq] at read
      rw [read] at finished
      simp only [List.append_assoc, fraction, List.cons_append,
        List.takeWhile_append_dropWhile] at finished
      refine ⟨finished.symm, ?_⟩
      rintro rfl
      simp [finishDecimal] at read
    · simp only [Option.ite_none_right_eq_some, Option.some.injEq] at read
      obtain ⟨_, read⟩ := read
      have finished := finishDecimal_append (c :: cs.takeWhile CodePoint.isDecimal)
        (cs.dropWhile CodePoint.isDecimal)
      rw [read] at finished
      simp only [List.cons_append, List.takeWhile_append_dropWhile] at finished
      refine ⟨finished.symm, ?_⟩
      rintro rfl
      simp [finishDecimal] at read

theorem readRadix_exact (marks : List CodePoint) (isDigit : CodePoint → Bool) :
    Exact (readRadix marks isDigit) := by
  intro t lexeme rest read
  unfold readRadix at read
  split at read
  · rename_i mark cs
    simp only [Option.ite_none_right_eq_some, Option.some.injEq, Prod.mk.injEq] at read
    obtain ⟨_, rfl, rfl⟩ := read
    have suffix := takeOne_append [110]
      (cs.dropWhile fun c => isDigit c || c == CodePoint.underscore)
    simp [takeSuffix, suffix]
  · contradiction

theorem readNumber_exact : Exact readNumber := by
  intro t lexeme rest read
  simp only [readNumber, Option.orElse_eq_orElse, Option.orElse_eq_or, Option.or_eq_some_iff]
    at read
  rcases read with read | ⟨_, read | ⟨_, read | ⟨_, read⟩⟩⟩
  · exact readRadix_exact _ _ read
  · exact readRadix_exact _ _ read
  · exact readRadix_exact _ _ read
  · exact readDecimal_exact read

theorem readQuotedRest_exact (quote : CodePoint) (multiline : Bool) :
    Exact (readQuotedRest quote multiline) := by
  intro t
  induction t using readQuotedRest.induct quote multiline with
  | case1 => intro lexeme rest read; simp [readQuotedRest] at read
  | case2 c cs ends =>
    intro lexeme rest read
    rw [readQuotedRest.eq_def] at read
    simp only [if_pos ends] at read
    obtain ⟨rfl, rfl⟩ := Prod.mk.inj (Option.some.inj read)
    simp
  | case3 c cs other ends =>
    intro lexeme rest read
    rw [readQuotedRest.eq_def] at read
    simp only [if_neg other, if_pos ends, reduceCtorEq] at read
  | case4 c other line escape =>
    intro lexeme rest read
    simp [readQuotedRest, other, line, escape] at read
  | case5 c other line escape d cs ih =>
    intro lexeme rest read
    rw [readQuotedRest, if_neg other, if_neg line, if_pos escape] at read
    obtain ⟨⟨body, _⟩, inner, same⟩ := Option.map_eq_some_iff.mp read
    obtain ⟨rfl, rfl⟩ := Prod.mk.inj same
    simp [(ih inner).1]
  | case6 c cs other line escape ih =>
    intro lexeme rest read
    rw [readQuotedRest.eq_def] at read
    simp only [if_neg other, if_neg line, if_neg escape] at read
    obtain ⟨⟨body, _⟩, inner, same⟩ := Option.map_eq_some_iff.mp read
    obtain ⟨rfl, rfl⟩ := Prod.mk.inj same
    simp [(ih inner).1]

theorem readQuoted_exact (quote : CodePoint) (multiline : Bool) :
    Exact (readQuoted quote multiline) := by
  intro t lexeme rest read
  cases t with
  | nil => simp [readQuoted] at read
  | cons c cs =>
    simp only [readQuoted, Option.ite_none_right_eq_some, Option.map_eq_some_iff,
      Prod.mk.injEq, Prod.exists] at read
    obtain ⟨_, body, _, inner, rfl, rfl⟩ := read
    simp [(readQuotedRest_exact quote multiline inner).1]

theorem readPunctuator_exact {marks : List Punctuator} {t rest : Text} {mark : Punctuator}
    (read : readPunctuator marks t = some (mark, rest)) : t = mark.spelling ++ rest := by
  induction marks with
  | nil => simp [readPunctuator] at read
  | cons first others ih =>
    simp only [readPunctuator] at read
    split at read
    · rename_i found
      obtain ⟨rfl, rfl⟩ := Prod.mk.inj (Option.some.inj read)
      exact (List.isPrefixOf?_eq_some_iff_append_eq.mp found).symm
    · exact ih read

theorem skipBlock_suffix {t behind : Text} (skipped : skipBlock t = some behind) :
    ∃ comment, t = comment ++ behind := by
  induction t using skipBlock.induct with
  | case1 => simp [skipBlock] at skipped
  | case2 cs =>
    simp only [skipBlock, Option.some.injEq] at skipped
    exact ⟨[42, 47], by rw [skipped]; rfl⟩
  | case3 c cs other ih =>
    simp only [skipBlock] at skipped
    obtain ⟨comment, same⟩ := ih skipped
    exact ⟨c :: comment, by rw [same]; rfl⟩

/-- A gap takes at least one code point. -/
theorem skipGap_exact {t behind : Text} (skipped : skipGap t = some behind) :
    ∃ gap, t = gap ++ behind ∧ gap ≠ [] := by
  cases t with
  | nil => simp [skipGap] at skipped
  | cons c cs =>
    simp only [skipGap] at skipped
    split at skipped
    · refine ⟨c :: cs.takeWhile isBlank, ?_, by simp⟩
      rw [← Option.some.inj skipped, List.cons_append, List.takeWhile_append_dropWhile]
    · simp only [Option.ite_none_right_eq_some] at skipped
      obtain ⟨_, skipped⟩ := skipped
      split at skipped
      · rename_i line
        refine ⟨c :: 47 :: line.takeWhile (· != CodePoint.newline), ?_, by simp⟩
        rw [← Option.some.inj skipped]
        simp only [List.cons_append, List.takeWhile_append_dropWhile]
      · obtain ⟨comment, rfl⟩ := skipBlock_suffix skipped
        exact ⟨c :: 42 :: comment, rfl, by simp⟩
      · contradiction

theorem spelling_ne_nil (mark : Punctuator) : mark.spelling ≠ [] := by
  cases mark <;> decide

/-- The next terminal is read from the front of the text. -/
theorem readTerminal_exact {t lexeme rest : Text} {terminal : Terminal}
    (read : readTerminal t = some (terminal, lexeme, rest)) :
    t = lexeme ++ rest ∧ lexeme ≠ [] := by
  simp only [readTerminal] at read
  split at read
  · rename_i found
    obtain ⟨-, rfl, rfl⟩ : _ ∧ _ ∧ _ := by simpa using read
    simp only [Option.orElse_eq_orElse, Option.orElse_eq_or, Option.or_eq_some_iff] at found
    rcases found with found | ⟨_, found⟩
    · exact readQuoted_exact _ _ found
    · exact readQuoted_exact _ _ found
  split at read
  · rename_i found
    obtain ⟨-, rfl, rfl⟩ : _ ∧ _ ∧ _ := by simpa using read
    exact readQuoted_exact _ _ found
  split at read
  · rename_i found
    obtain ⟨-, rfl, rfl⟩ : _ ∧ _ ∧ _ := by simpa using read
    exact readNumber_exact found
  split at read
  · rename_i found
    split at read
    · obtain ⟨-, rfl, rfl⟩ : _ ∧ _ ∧ _ := by simpa using read
      exact readName_exact found
    · obtain ⟨-, rfl, rfl⟩ : _ ∧ _ ∧ _ := by simpa using read
      exact readName_exact found
  split at read
  · rename_i mark _ found
    obtain ⟨-, rfl, rfl⟩ : _ ∧ _ ∧ _ := by simpa using read
    exact ⟨readPunctuator_exact found, spelling_ne_nil mark⟩
  · contradiction

/-- The tokens at the front of the text that stands at an offset, and what remains. A
gap or a token is read with all that is behind it. -/
inductive Scans : Nat → Text → List Token → Text → Prop where
  | done {offset : Nat} {rest : Text} : Scans offset rest [] rest
  | gap {offset : Nat} {gap behind rest : Text} {tokens : List Token} :
      skipGap (gap ++ behind) = some behind → Scans (offset + gap.length) behind tokens rest →
      Scans offset (gap ++ behind) tokens rest
  | token {offset : Nat} {terminal : Terminal} {lexeme behind rest : Text}
      {tokens : List Token} : skipGap (lexeme ++ behind) = none →
      readTerminal (lexeme ++ behind) = some (terminal, lexeme, behind) →
      Scans (offset + lexeme.length) behind tokens rest →
      Scans offset (lexeme ++ behind)
        (⟨terminal, lexeme, ⟨offset, offset + lexeme.length⟩⟩ :: tokens) rest

theorem scan_sound {fuel offset : Nat} {t : Text} {tokens : List Token}
    (enough : t.length ≤ fuel) (scanned : scan fuel offset t = (tokens, none)) :
    Scans offset t tokens [] := by
  induction fuel generalizing offset t tokens with
  | zero =>
    obtain rfl : t = [] := List.length_eq_zero_iff.mp (Nat.le_zero.mp enough)
    obtain ⟨rfl, -⟩ : [] = tokens ∧ _ := Prod.mk.inj scanned
    exact .done
  | succ fuel ih =>
    cases t with
    | nil =>
      obtain ⟨rfl, -⟩ : [] = tokens ∧ _ := Prod.mk.inj scanned
      exact .done
    | cons c cs =>
      simp only [scan] at scanned
      generalize c :: cs = t at enough scanned
      split at scanned
      · rename_i behind skipped
        obtain ⟨gap, rfl, some⟩ := skipGap_exact skipped
        have shorter := List.length_pos_iff.mpr some
        rw [List.length_append, Nat.add_sub_cancel] at scanned
        rw [List.length_append] at enough
        exact .gap skipped (ih (by omega) scanned)
      · rename_i stuck
        split at scanned
        · simp at scanned
        · rename_i terminal lexeme behind read
          obtain ⟨rfl, some⟩ := readTerminal_exact read
          have shorter := List.length_pos_iff.mpr some
          rw [List.length_append] at enough
          obtain ⟨rfl, failure⟩ := Prod.mk.inj scanned
          exact .token stuck read (ih (by omega) (Prod.ext rfl failure))

theorem ofText_sound {source : Text} {tokens : List Token}
    (scanned : ofText source = (tokens, none)) : Scans 0 source tokens [] :=
  scan_sound (Nat.le_refl _) scanned

/-- Tokens that are not empty, each behind the ones before it. -/
structure InOrder (tokens : List Token) : Prop where
  some : ∀ t ∈ tokens, t.span.start < t.span.stop
  apart : tokens.Pairwise fun a b => a.span.stop ≤ b.span.start

theorem Scans.rest_length {offset : Nat} {t rest : Text} {tokens : List Token}
    (scans : Scans offset t tokens rest) : rest.length ≤ t.length := by
  induction scans with
  | done => exact Nat.le_refl _
  | gap _ _ ih => rw [List.length_append]; omega
  | token _ _ _ ih => rw [List.length_append]; omega

theorem Scans.within {offset : Nat} {t rest : Text} {tokens : List Token}
    (scans : Scans offset t tokens rest) {a : Token} (member : a ∈ tokens) :
    offset ≤ a.span.start ∧ a.span.stop + rest.length ≤ offset + t.length := by
  induction scans with
  | done => contradiction
  | gap _ _ ih =>
    have behind := ih member
    rw [List.length_append]
    omega
  | @token offset _ lexeme behind rest tokens _ _ scans ih =>
    have left := scans.rest_length
    rw [List.length_append]
    rcases List.mem_cons.mp member with rfl | member
    · simp only
      omega
    · have behind := ih member
      omega

theorem Scans.inOrder {offset : Nat} {t rest : Text} {tokens : List Token}
    (scans : Scans offset t tokens rest) : InOrder tokens := by
  induction scans with
  | done => exact ⟨by simp, .nil⟩
  | gap _ _ ih => exact ih
  | token _ read behind ih =>
    have some := List.length_pos_iff.mpr (readTerminal_exact read).2
    refine ⟨?_, .cons (fun b member => (behind.within member).1) ih.apart⟩
    intro a member
    rcases List.mem_cons.mp member with rfl | member
    · simp only
      omega
    · exact ih.some a member

end StyleSplit.Script.Token
