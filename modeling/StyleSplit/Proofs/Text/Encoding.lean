import Mathlib.Data.List.Basic
import StyleSplit.Text.Utf8

/-! Text files hold what they were written with. Encoding and decoding undo each other, so
a text and its UTF-8 form determine one another; a text is left as it is by the reading of
line ends exactly when it has no carriage return, and that is seen in the bytes as well. -/
namespace StyleSplit.Text

variable {t u : Text} {b bs rest : Bytes}

/-- The bytes of a code point, by their payloads of six bits and that of the first byte. -/
inductive Form : Nat → Bytes → Prop where
  | one {x : Nat} : x < 0x80 → Form x [x.toUInt8]
  | two {x y : Nat} : 2 ≤ x → x < 32 → y < 64 →
      Form (x * 64 + y) [(0xC0 + x).toUInt8, (0x80 + y).toUInt8]
  | three {x y z : Nat} : x < 16 → y < 64 → z < 64 → 0x800 ≤ x * 4096 + (y * 64 + z) →
      CodePoint.isSurrogate (x * 4096 + (y * 64 + z)) = false →
      Form (x * 4096 + (y * 64 + z)) [(0xE0 + x).toUInt8, (0x80 + y).toUInt8, (0x80 + z).toUInt8]
  | four {x y z w : Nat} : y < 64 → z < 64 → w < 64 →
      0x10000 ≤ x * 262144 + ((y * 64 + z) * 64 + w) →
      x * 262144 + ((y * 64 + z) * 64 + w) < 0x110000 →
      Form (x * 262144 + ((y * 64 + z) * 64 + w))
        [(0xF0 + x).toUInt8, (0x80 + y).toUInt8, (0x80 + z).toUInt8, (0x80 + w).toUInt8]

/-- Encoding a code point, as a matter of numbers. -/
theorem encodePoint?_eq (c : Nat) : encodePoint? c =
    if c < 0x80 then some [c.toUInt8]
    else if c < 0x800 then some [(0xC0 + c / 64).toUInt8, (0x80 + c % 64).toUInt8]
    else if CodePoint.isSurrogate c then none
    else if c < 0x10000 then
      some [(0xE0 + c / 4096).toUInt8, (0x80 + c / 64 % 64).toUInt8, (0x80 + c % 64).toUInt8]
    else if c < 0x110000 then
      some [(0xF0 + c / 262144).toUInt8, (0x80 + c / 4096 % 64).toUInt8,
        (0x80 + c / 64 % 64).toUInt8, (0x80 + c % 64).toUInt8]
    else none :=
  rfl

theorem isSurrogate_iff (c : Nat) :
    CodePoint.isSurrogate c = true ↔ 0xD800 ≤ c ∧ c ≤ 0xDFFF := by
  rw [CodePoint.isSurrogate, Bool.and_eq_true, Nat.ble_eq, Nat.ble_eq]

theorem Form.encode {c : Nat} (form : Form c bs) : encodePoint? c = some bs := by
  rw [encodePoint?_eq]
  cases form with
  | one bound => exact if_pos bound
  | @two x y low high bound =>
    rw [if_neg (by omega), if_pos (by omega)]
    have first : (x * 64 + y) / 64 = x := by omega
    have last : (x * 64 + y) % 64 = y := by omega
    rw [first, last]
  | @three x y z high bound bound' low plain =>
    rw [if_neg (by omega), if_neg (by omega), if_neg (by simp [plain]), if_pos (by omega)]
    have first : (x * 4096 + (y * 64 + z)) / 4096 = x := by omega
    have middle : (x * 4096 + (y * 64 + z)) / 64 % 64 = y := by omega
    have last : (x * 4096 + (y * 64 + z)) % 64 = z := by omega
    rw [first, middle, last]
  | @four x y z w bound bound' bound'' low high =>
    have plain : ¬CodePoint.isSurrogate (x * 262144 + ((y * 64 + z) * 64 + w)) = true := by
      rw [isSurrogate_iff]
      omega
    rw [if_neg (by omega), if_neg (by omega), if_neg plain, if_neg (by omega), if_pos (by omega)]
    have first : (x * 262144 + ((y * 64 + z) * 64 + w)) / 262144 = x := by omega
    have second : (x * 262144 + ((y * 64 + z) * 64 + w)) / 4096 % 64 = y := by omega
    have third : (x * 262144 + ((y * 64 + z) * 64 + w)) / 64 % 64 = z := by omega
    have last : (x * 262144 + ((y * 64 + z) * 64 + w)) % 64 = w := by omega
    rw [first, second, third, last]

theorem form_of_encode {c : Nat} (encoded : encodePoint? c = some bs) : Form c bs := by
  rw [encodePoint?_eq] at encoded
  split at encoded
  · rename_i one
    obtain rfl := Option.some.inj encoded
    exact .one one
  split at encoded
  · obtain rfl := Option.some.inj encoded
    have form := Form.two (x := c / 64) (y := c % 64) (by omega) (by omega) (by omega)
    have whole : c / 64 * 64 + c % 64 = c := by omega
    rwa [whole] at form
  split at encoded
  · cases encoded
  rename_i plain
  split at encoded
  · obtain rfl := Option.some.inj encoded
    have whole : c / 4096 * 4096 + (c / 64 % 64 * 64 + c % 64) = c := by omega
    have form := Form.three (x := c / 4096) (y := c / 64 % 64) (z := c % 64) (by omega) (by omega)
      (by omega) (by omega) (by rw [whole]; simpa using plain)
    rwa [whole] at form
  split at encoded
  · obtain rfl := Option.some.inj encoded
    have whole : c / 262144 * 262144 + ((c / 4096 % 64 * 64 + c / 64 % 64) * 64 + c % 64) = c := by
      omega
    have form := Form.four (x := c / 262144) (y := c / 4096 % 64) (z := c / 64 % 64)
      (w := c % 64) (by omega) (by omega) (by omega) (by omega) (by omega)
    rwa [whole] at form
  · cases encoded

/-- The byte with a given number. -/
theorem byte_toNat {n : Nat} (bound : n < 256) : n.toUInt8.toNat = n :=
  UInt8.toNat_ofNat_of_lt bound

theorem byte_eq {n : Nat} {a : UInt8} (same : n = a.toNat) : n.toUInt8 = a := by
  rw [same]
  exact UInt8.ofNat_toNat

/-- A byte continues a code point with its last six bits. -/
theorem continuation?_eq_some {a : UInt8} {n : Nat} :
    continuation? a = some n ↔ n < 64 ∧ a = (0x80 + n).toUInt8 := by
  unfold continuation?
  constructor
  · intro continues
    split at continues
    · rename_i high
      rw [beq_iff_eq] at high
      obtain rfl := Option.some.inj continues
      exact ⟨by omega, (byte_eq (by omega)).symm⟩
    · cases continues
  · rintro ⟨bound, rfl⟩
    have number : (0x80 + n).toUInt8.toNat = 0x80 + n := byte_toNat (by omega)
    rw [number, if_pos (by rw [beq_iff_eq]; omega)]
    exact congrArg some (by omega)

/-- The form of a code point is read back, whatever follows it. -/
theorem Form.decode {c : Nat} (form : Form c bs) :
    decode? (bs ++ rest) = (decode? rest).map (c :: ·) := by
  cases form with
  | one bound =>
    have first : c.toUInt8.toNat = c := byte_toNat (by omega)
    rw [List.singleton_append, decode?.eq_def]
    simp only [first, if_pos bound]
  | @two x y low high bound =>
    have first : (0xC0 + x).toUInt8.toNat = 0xC0 + x := byte_toNat (by omega)
    have last := continuation?_eq_some.mpr ⟨bound, rfl⟩
    have lead : (decide (0xC2 ≤ 0xC0 + x) && decide (0xC0 + x < 0xE0)) = true := by
      simp only [Bool.and_eq_true, decide_eq_true_eq]
      omega
    rw [List.cons_append, List.singleton_append, decode?.eq_def]
    simp only [first, last, Option.bind_eq_bind, Option.bind_some]
    rw [if_neg (by omega), if_pos lead, Nat.add_sub_cancel_left]
  | @three x y z high bound bound' low plain =>
    have first : (0xE0 + x).toUInt8.toNat = 0xE0 + x := byte_toNat (by omega)
    have middle := continuation?_eq_some.mpr ⟨bound, rfl⟩
    have last := continuation?_eq_some.mpr ⟨bound', rfl⟩
    have two : ¬(decide (0xC2 ≤ 0xE0 + x) && decide (0xE0 + x < 0xE0)) = true := by
      simp only [Bool.and_eq_true, decide_eq_true_eq]
      omega
    have lead : (decide (0xE0 ≤ 0xE0 + x) && decide (0xE0 + x < 0xF0)) = true := by
      simp only [Bool.and_eq_true, decide_eq_true_eq]
      omega
    have good : ¬(decide (x * 4096 + (y * 64 + z) < 0x800) ||
        CodePoint.isSurrogate (x * 4096 + (y * 64 + z))) = true := by
      simp only [plain, Bool.or_false, decide_eq_true_eq]
      omega
    rw [List.cons_append, List.cons_append, List.singleton_append, decode?.eq_def]
    simp only [first, middle, last, Option.bind_eq_bind, Option.bind_some]
    rw [if_neg (by omega), if_neg two, if_pos lead, Nat.add_sub_cancel_left, if_neg good]
  | @four x y z w bound bound' bound'' low high =>
    have first : (0xF0 + x).toUInt8.toNat = 0xF0 + x := byte_toNat (by omega)
    have second := continuation?_eq_some.mpr ⟨bound, rfl⟩
    have third := continuation?_eq_some.mpr ⟨bound', rfl⟩
    have last := continuation?_eq_some.mpr ⟨bound'', rfl⟩
    have two : ¬(decide (0xC2 ≤ 0xF0 + x) && decide (0xF0 + x < 0xE0)) = true := by
      simp only [Bool.and_eq_true, decide_eq_true_eq]
      omega
    have three : ¬(decide (0xE0 ≤ 0xF0 + x) && decide (0xF0 + x < 0xF0)) = true := by
      simp only [Bool.and_eq_true, decide_eq_true_eq]
      omega
    have lead : (decide (0xF0 ≤ 0xF0 + x) && decide (0xF0 + x < 0xF5)) = true := by
      simp only [Bool.and_eq_true, decide_eq_true_eq]
      omega
    have good : ¬(decide (x * 262144 + ((y * 64 + z) * 64 + w) < 0x10000) ||
        decide (0x110000 ≤ x * 262144 + ((y * 64 + z) * 64 + w))) = true := by
      simp only [Bool.or_eq_true, decide_eq_true_eq]
      omega
    rw [List.cons_append, List.cons_append, List.cons_append, List.singleton_append,
      decode?.eq_def]
    simp only [first, second, third, last, Option.bind_eq_bind, Option.bind_some]
    rw [if_neg (by omega), if_neg two, if_neg three, if_pos lead, Nat.add_sub_cancel_left,
      if_neg good]

/-- Whatever is decoded starts with the form of a code point. -/
theorem decode?_cons {a : UInt8} (decoded : decode? (a :: b) = some t) :
    ∃ (c : Nat) (bs rest : Bytes) (u : Text),
      a :: b = bs ++ rest ∧ t = c :: u ∧ Form c bs ∧ decode? rest = some u := by
  rw [decode?.eq_def] at decoded
  simp only at decoded
  split at decoded
  · rename_i one
    obtain ⟨u, inner, rfl⟩ := Option.map_eq_some_iff.mp decoded
    have form := Form.one one
    rw [byte_eq rfl] at form
    exact ⟨a.toNat, [a], b, u, rfl, rfl, form, inner⟩
  rename_i many
  split at decoded
  · cases decoded
  rename_i second b
  obtain ⟨y, continues, more⟩ := Option.bind_eq_some_iff.mp decoded
  obtain ⟨bound, rfl⟩ := continuation?_eq_some.mp continues
  split at more
  · rename_i lead
    simp only [Bool.and_eq_true, decide_eq_true_eq] at lead
    obtain ⟨u, inner, rfl⟩ := Option.map_eq_some_iff.mp more
    have form := Form.two (x := a.toNat - 0xC0) (y := y) (by omega) (by omega) bound
    rw [byte_eq (a := a) (by omega)] at form
    exact ⟨_, _, b, u, rfl, rfl, form, inner⟩
  rename_i two
  split at more
  · cases more
  rename_i third b
  obtain ⟨z, continues', more'⟩ := Option.bind_eq_some_iff.mp more
  obtain ⟨bound', rfl⟩ := continuation?_eq_some.mp continues'
  split at more'
  · rename_i lead
    simp only [Bool.and_eq_true, decide_eq_true_eq] at lead
    split at more'
    · cases more'
    rename_i good
    simp only [Bool.or_eq_true, decide_eq_true_eq, not_or, Bool.not_eq_true] at good
    obtain ⟨u, inner, rfl⟩ := Option.map_eq_some_iff.mp more'
    have form := Form.three (x := a.toNat - 0xE0) (by omega) bound bound' (by omega) good.2
    rw [byte_eq (a := a) (by omega)] at form
    exact ⟨_, _, b, u, rfl, rfl, form, inner⟩
  split at more'
  · cases more'
  rename_i fourth b
  obtain ⟨w, continues'', more''⟩ := Option.bind_eq_some_iff.mp more'
  obtain ⟨bound'', rfl⟩ := continuation?_eq_some.mp continues''
  split at more''
  · rename_i lead
    simp only [Bool.and_eq_true, decide_eq_true_eq] at lead
    split at more''
    · cases more''
    rename_i good
    simp only [Bool.or_eq_true, decide_eq_true_eq, not_or] at good
    obtain ⟨u, inner, rfl⟩ := Option.map_eq_some_iff.mp more''
    have form := Form.four (x := a.toNat - 0xF0) bound bound' bound'' (by omega) (by omega)
    rw [byte_eq (a := a) (by omega)] at form
    exact ⟨_, _, b, u, rfl, rfl, form, inner⟩
  · cases more''

theorem encode?_cons {c : CodePoint} : encode? (c :: t) = some b ↔
    ∃ bs rest, encodePoint? c = some bs ∧ t.encode? = some rest ∧ b = bs ++ rest := by
  constructor
  · intro encoded
    obtain ⟨bs, point, encoded⟩ := Option.bind_eq_some_iff.mp encoded
    obtain ⟨rest, others, same⟩ := Option.bind_eq_some_iff.mp encoded
    exact ⟨bs, rest, point, others, (Option.some.inj same).symm⟩
  · rintro ⟨bs, rest, point, others, rfl⟩
    rw [encode?, point, others]
    rfl

/-- Decoding undoes encoding. -/
theorem decode?_of_encode? (encoded : t.encode? = some b) : decode? b = some t := by
  induction t generalizing b with
  | nil =>
    cases encoded
    rfl
  | cons c t ih =>
    obtain ⟨bs, rest, point, others, rfl⟩ := encode?_cons.mp encoded
    rw [(form_of_encode point).decode, ih others, Option.map_some]

/-- Encoding undoes decoding. -/
theorem encode?_of_decode? (decoded : decode? b = some t) : t.encode? = some b := by
  induction size : b.length using Nat.strongRecOn generalizing b t with
  | _ size ih =>
    subst size
    cases b with
    | nil =>
      cases decoded
      rfl
    | cons a b =>
      obtain ⟨c, bs, rest, u, whole, rfl, form, decoded⟩ := decode?_cons decoded
      have shorter : rest.length < (a :: b).length := by
        rw [whole, List.length_append]
        cases form <;> simp
      exact encode?_cons.mpr ⟨bs, rest, form.encode, ih _ shorter decoded rfl, whole⟩

/-- A text has a UTF-8 form if each of its code points has one. -/
theorem encode?_iff : (∃ b, t.encode? = some b) ↔ ∀ c ∈ t, ∃ bs, encodePoint? c = some bs := by
  induction t with
  | nil => simp [encode?]
  | cons c t ih =>
    rw [List.forall_mem_cons, ← ih]
    constructor
    · rintro ⟨b, encoded⟩
      obtain ⟨bs, rest, point, others, -⟩ := encode?_cons.mp encoded
      exact ⟨⟨bs, point⟩, rest, others⟩
    · rintro ⟨⟨bs, point⟩, rest, others⟩
      exact ⟨_, encode?_cons.mpr ⟨bs, rest, point, others, rfl⟩⟩

/-- A byte below 0x80 is a code point of its own and part of no other one. -/
theorem Form.mem_byte {c : Nat} {a : UInt8} (form : Form c bs) (low : a.toNat < 0x80) :
    a ∈ bs ↔ c = a.toNat := by
  have high {n : Nat} (bound : n < 256) (many : 0x80 ≤ n) : a ≠ n.toUInt8 := by
    rintro rfl
    rw [byte_toNat bound] at low
    omega
  cases form with
  | one bound =>
    rw [List.mem_singleton]
    constructor
    · rintro rfl
      exact (byte_toNat (by omega)).symm
    · exact fun same => (byte_eq same).symm
  | two | three | four =>
    constructor
    · intro member
      simp only [List.mem_cons, List.not_mem_nil, or_false] at member
      grind
    · intro same
      omega

/-- Such a byte is in a file exactly when its code point is in the text. -/
theorem mem_encode? {a : UInt8} (encoded : t.encode? = some b) (low : a.toNat < 0x80) :
    a ∈ b ↔ a.toNat ∈ t := by
  induction t generalizing b with
  | nil =>
    cases encoded
    simp
  | cons c t ih =>
    obtain ⟨bs, rest, point, others, rfl⟩ := encode?_cons.mp encoded
    rw [List.mem_append, List.mem_cons, ih others, (form_of_encode point).mem_byte low, eq_comm]

/-- Lines are read without carriage returns, and nothing but line feeds is new. -/
theorem mem_normalizeLines {c : CodePoint} (member : c ∈ t.normalizeLines) :
    c ≠ CodePoint.carriageReturn ∧ (c = CodePoint.newline ∨ c ∈ t) := by
  have feed : CodePoint.newline ≠ CodePoint.carriageReturn := by decide
  induction t using normalizeLines.induct with
  | case1 => cases member
  | case2 d ends =>
    rw [normalizeLines, if_pos ends, List.mem_singleton] at member
    rw [member]
    exact ⟨feed, .inl rfl⟩
  | case3 d ends e rest feeds ih =>
    simp only [normalizeLines, if_pos ends, if_pos feeds, List.mem_cons] at member
    rcases member with rfl | member
    · exact ⟨feed, .inl rfl⟩
    · exact (ih member).imp_right (.imp_right fun behind => by simp [behind])
  | case4 d ends e rest other ih =>
    rw [normalizeLines] at member
    simp only [if_pos ends, if_neg other, List.mem_cons (b := CodePoint.newline)] at member
    rcases member with rfl | member
    · exact ⟨feed, .inl rfl⟩
    · exact (ih member).imp_right (.imp_right fun behind => List.mem_cons_of_mem d behind)
  | case5 d rest other ih =>
    rw [normalizeLines.eq_def] at member
    simp only [if_neg other, List.mem_cons] at member
    rcases member with rfl | member
    · exact ⟨by simpa using other, .inr List.mem_cons_self⟩
    · exact (ih member).imp_right (.imp_right fun behind => List.mem_cons_of_mem d behind)

/-- Reading line ends leaves a text alone exactly when it has no carriage return. -/
theorem normalizeLines_eq_self : t.normalizeLines = t ↔ CodePoint.carriageReturn ∉ t := by
  constructor
  · intro same member
    rw [← same] at member
    exact (mem_normalizeLines member).1 rfl
  · intro none
    induction t with
    | nil => rfl
    | cons c t ih =>
      rw [List.mem_cons, not_or] at none
      have other : ¬(c == CodePoint.carriageReturn) = true := by simpa using Ne.symm none.1
      rw [normalizeLines.eq_def]
      simp only [if_neg other, ih none.2]

theorem encode?_normalizeLines (encoded : t.encode? = some b) :
    ∃ written, t.normalizeLines.encode? = some written := by
  refine encode?_iff.mpr fun c member => ?_
  rcases (mem_normalizeLines member).2 with rfl | member
  · exact ⟨_, rfl⟩
  · exact encode?_iff.mp ⟨b, encoded⟩ c member

end StyleSplit.Text
