import StyleSplit.Proofs.Text.Digits
import StyleSplit.Rewrite.Layout
import StyleSplit.Text.Utf8

/-! Texts without surrogates. A half of a surrogate pair has no form in bytes, and whatever
is written on purpose (digits, punctuation, escapes and names) has none. A written text has
one exactly if something that it was put together from has one: quoting does not help, since
it escapes nothing above the basic Latin block. -/
namespace StyleSplit

namespace CodePoint

theorem isSurrogate_of_small {c : CodePoint} (small : c < 0xD800) : c.isSurrogate = false := by
  have below : Nat.ble 0xD800 c = false := Bool.eq_false_iff.mpr fun high =>
    Nat.not_le.mpr small (Nat.le_of_ble_eq_true high)
  rw [isSurrogate, below, Bool.false_and]

end CodePoint

namespace Text

variable {t u sep indent : Text} {ts entries : List Text} {α : Type}

/-- A text without surrogates. -/
def Encodable (t : Text) : Prop := ∀ c ∈ t, c.isSurrogate = false

instance (t : Text) : Decidable t.Encodable :=
  inferInstanceAs (Decidable (∀ c ∈ t, c.isSurrogate = false))

@[simp] theorem encodable_nil : Encodable [] := fun _ member => absurd member List.not_mem_nil

@[simp] theorem encodable_cons {c : CodePoint} :
    Encodable (c :: t) ↔ c.isSurrogate = false ∧ t.Encodable := List.forall_mem_cons

@[simp] theorem encodable_append : Encodable (t ++ u) ↔ t.Encodable ∧ u.Encodable :=
  List.forall_mem_append

theorem Encodable.mono (encodable : t.Encodable) (subset : u ⊆ t) : u.Encodable :=
  fun c member => encodable c (subset member)

theorem encodable_of_small (small : ∀ c ∈ t, c < 0xD800) : t.Encodable :=
  fun c member => CodePoint.isSurrogate_of_small (small c member)

/-- What has a form in bytes is without surrogates. -/
theorem encodable_of_encode {bytes : Bytes} (encoded : t.encode? = some bytes) : t.Encodable := by
  induction t generalizing bytes with
  | nil => exact encodable_nil
  | cons c rest ih =>
    obtain ⟨first, point, encoded⟩ := Option.bind_eq_some_iff.mp encoded
    obtain ⟨others, behind, -⟩ := Option.bind_eq_some_iff.mp encoded
    refine encodable_cons.mpr ⟨?_, ih behind⟩
    unfold encodePoint? at point
    split at point
    · rename_i small
      exact CodePoint.isSurrogate_of_small (Nat.lt_trans small (by decide))
    split at point
    · rename_i small
      exact CodePoint.isSurrogate_of_small (Nat.lt_trans small (by decide))
    split at point
    · cases point
    · rename_i plain
      exact Bool.eq_false_iff.mpr plain

theorem encodable_flatMap {f : α → Text} {xs : List α} :
    Encodable (xs.flatMap f) ↔ ∀ x ∈ xs, (f x).Encodable := by
  simp only [Encodable, List.mem_flatMap, forall_exists_index, and_imp]
  exact ⟨fun all x member c inside => all c x member inside,
    fun all c x member inside => all x member c inside⟩

/-- Texts put side by side have a surrogate if one of them has. -/
theorem encodable_join (plain : sep.Encodable) :
    (join sep ts).Encodable ↔ ∀ t ∈ ts, t.Encodable := by
  fun_induction join sep ts with
  | case1 => simp
  | case2 t => simp
  | case3 t rest some ih => simp [ih, plain]

theorem prefix_join (sep first : Text) (rest : List Text) : first <+: join sep (first :: rest) := by
  cases rest with
  | nil => exact List.prefix_rfl
  | cons second rest => exact (List.prefix_append first sep).trans (List.prefix_append _ _)

theorem Encodable.slice (encodable : t.Encodable) (start stop : Nat) :
    (t.slice start stop).Encodable :=
  encodable.mono ((List.drop_sublist start _).trans (List.take_sublist stop t)).subset

theorem Encodable.lineIndent (encodable : t.Encodable) (offset : Nat) :
    (t.lineIndent offset).Encodable :=
  encodable.mono ((List.takeWhile_sublist _).trans (List.drop_sublist _ t)).subset

theorem encodable_ofNat (n : Nat) : (ofNat n).Encodable := by
  refine encodable_of_small fun c member => ?_
  have digit := Text.isDigit_of_mem_ofNat member
  simp only [CodePoint.isDigit, Bool.and_eq_true, Nat.ble_eq] at digit
  exact Nat.lt_of_le_of_lt digit.2 (by decide)

theorem encodable_ofInt (n : Int) : (ofInt n).Encodable := by
  unfold ofInt
  split
  · exact encodable_cons.mpr ⟨rfl, encodable_ofNat _⟩
  · exact encodable_ofNat _

theorem encodable_hexDigits (width n : Nat) : (hexDigits width n).Encodable := by
  induction width generalizing n with
  | zero => exact encodable_nil
  | succ width ih =>
    have digit : hexDigit (n % 16) < 0xD800 := by
      have bound : n % 16 < 16 := Nat.mod_lt n (by decide)
      have value : ∀ d < 16, hexDigit d < 0xD800 := by decide
      exact value _ bound
    exact encodable_append.mpr ⟨ih _, by simp [CodePoint.isSurrogate_of_small digit]⟩

end Text

open Text

namespace Decimal

theorem encodable_exponentPart (exponent : Int) : (exponentPart exponent).Encodable := by
  have sign : (text (if exponent < 0 then "e-" else "e+")).Encodable := by split <;> decide
  have padding : (if (ofNat exponent.natAbs).length < 2 then text "0" else []).Encodable := by
    split <;> decide
  simp only [exponentPart, encodable_append]
  exact ⟨⟨sign, padding⟩, encodable_ofNat _⟩

theorem encodable_layout (digits : Nat) (scale : Int) : (layout digits scale).Encodable := by
  have plain := encodable_ofNat digits
  have zeros (n : Nat) : Encodable (List.replicate n 48) :=
    encodable_of_small fun c member => by
      rw [List.eq_of_mem_replicate member]
      decide
  have point : (text ".").Encodable := by decide
  simp only [layout]
  split
  · split
    · exact encodable_append.mpr ⟨encodable_append.mpr ⟨by decide, zeros _⟩, plain⟩
    split
    · exact encodable_append.mpr ⟨encodable_append.mpr
        ⟨plain.mono (List.take_sublist _ _).subset, point⟩,
        plain.mono (List.drop_sublist _ _).subset⟩
    · exact encodable_append.mpr ⟨encodable_append.mpr ⟨plain, zeros _⟩, by decide⟩
  · split
    · rename_i d e rest shape
      rw [shape] at plain
      simp only [encodable_cons] at plain
      refine encodable_append.mpr ⟨?_, encodable_exponentPart _⟩
      simp only [encodable_cons]
      exact ⟨plain.1, rfl, plain.2⟩
    · exact encodable_append.mpr ⟨plain, encodable_exponentPart _⟩

theorem encodable_ofFloat (x : Float) : (ofFloat x).Encodable := by
  unfold ofFloat
  cases parts x with
  | notANumber => decide
  | infinite negative => cases negative <;> decide
  | finite negative mantissa exponent =>
    have magnitude : Encodable (if mantissa == 0 then text "0.0" else
        layout (shortest mantissa exponent).1 (shortest mantissa exponent).2) := by
      split
      · decide
      · exact encodable_layout _ _
    cases negative with
    | true => exact encodable_cons.mpr ⟨rfl, magnitude⟩
    | false => exact magnitude

end Decimal

theorem Number.encodable_written (n : Number) : n.written.Encodable := by
  cases n with
  | int value => exact encodable_ofInt value
  | float value =>
    simp only [written]
    split
    · split
      · exact encodable_ofInt _
      · exact Decimal.encodable_ofFloat value
    · exact Decimal.encodable_ofFloat value

/-- Between quotes a surrogate stays what it is. -/
theorem encodable_stringPoint {c : CodePoint} :
    (stringPoint c).Encodable ↔ c.isSurrogate = false := by
  unfold stringPoint
  split
  · rename_i letter escaped
    have small : c < 0xD800 ∧ letter < 0xD800 := by
      unfold letterEscape? at escaped
      grind [CodePoint.doubleQuote, CodePoint.backslash, CodePoint.newline,
        CodePoint.carriageReturn, CodePoint.tab]
    refine iff_of_true ?_ (CodePoint.isSurrogate_of_small small.1)
    simp only [encodable_cons, encodable_nil, and_true]
    exact ⟨rfl, CodePoint.isSurrogate_of_small small.2⟩
  · split
    · rename_i control
      refine iff_of_true (encodable_append.mpr ⟨by decide, encodable_hexDigits 4 c⟩) ?_
      exact CodePoint.isSurrogate_of_small (Nat.lt_trans control (by decide))
    · simp

variable {t key value indent : Text} {entries : List Text}

@[simp] theorem encodable_stringLiteral : (stringLiteral t).Encodable ↔ t.Encodable := by
  have quote : Encodable [CodePoint.doubleQuote] := by decide
  rw [stringLiteral, encodable_append, encodable_append, encodable_flatMap, and_iff_right quote,
    and_iff_left quote]
  exact forall₂_congr fun c _ => encodable_stringPoint

@[simp] theorem encodable_layoutEntry :
    (layoutEntry key value).Encodable ↔ key.Encodable ∧ value.Encodable := by
  have colon : (text ": ").Encodable := by decide
  simp [layoutEntry, colon]

theorem encodable_layoutMapping (plain : indent.Encodable) :
    (layoutMapping entries indent).Encodable ↔ ∀ e ∈ entries, e.Encodable := by
  have opening : (text "\x7b\n").Encodable := by decide
  have closing : (text "\x7d").Encodable := by decide
  have separator : (text ",\n").Encodable := by decide
  have newline : (text "\n").Encodable := by decide
  have deeper : indentation.Encodable := by decide
  unfold layoutMapping
  split
  · rename_i none
    rw [List.isEmpty_iff.mp none]
    exact iff_of_true (by decide) (by simp)
  · simp [encodable_join separator, opening, closing, newline, plain, deeper]

/-- A written property has a surrogate if its name or the text of its value has one. -/
theorem encodable_writeProperty {name line : Text} {v : Value}
    (written : writeProperty name v = .ok line) :
    ∃ text, v.write = .ok text ∧ (line.Encodable ↔ name.Encodable ∧ text.Encodable) := by
  unfold writeProperty at written
  cases writes : v.write with
  | error e =>
    rw [writes] at written
    cases written
  | ok inner =>
    rw [writes] at written
    cases written
    have colon : (text ": ").Encodable := by decide
    have semicolon : (text ";").Encodable := by decide
    exact ⟨inner, rfl, by simp [colon, semicolon]⟩

end StyleSplit
