import WebKit.Lib.Drain
import WebKit.WTF.UTF8

/-!
# Sequences of UTF-8 and UTF-16

The well-formed sequences by their tables of ranges (`utf8Table`, `utf16Table`), the sequences that the code takes for
UTF-8 besides (`laxTable`), and what a scalar value is written as in the two forms (`encodeUTF8`, `encodeUTF16`).

- the sequences of the tables are what scalar values are written as (`fits_encodeUTF8`, `encodeUTF8_sequenceValue`,
  `fits_utf16Table_iff`);
- `isLegalUTF8` accepts exactly the sequences of `utf8Table` and `laxTable` (`isLegalUTF8_eq`), and `readUTF8Sequence`
  reads their value (`readUTF8Sequence_eq`).
-/

namespace WebKit.WTF.Unicode

open WebKit.Lib

/-! ## Tables -/

/-- The well-formed sequences of UTF-8. -/
def utf8Table : List (List (UInt8 × UInt8)) :=
  [[(0x00, 0x7F)],
   [(0xC2, 0xDF), (0x80, 0xBF)],
   [(0xE0, 0xE0), (0xA0, 0xBF), (0x80, 0xBF)],
   [(0xE1, 0xEC), (0x80, 0xBF), (0x80, 0xBF)],
   [(0xED, 0xED), (0x80, 0x9F), (0x80, 0xBF)],
   [(0xEE, 0xEF), (0x80, 0xBF), (0x80, 0xBF)],
   [(0xF0, 0xF0), (0x90, 0xBF), (0x80, 0xBF), (0x80, 0xBF)],
   [(0xF1, 0xF3), (0x80, 0xBF), (0x80, 0xBF), (0x80, 0xBF)],
   [(0xF4, 0xF4), (0x80, 0x8F), (0x80, 0xBF), (0x80, 0xBF)]]

/-- The sequences whose second byte has no lower bound in the code. -/
def laxTable : List (List (UInt8 × UInt8)) :=
  [[(0xED, 0xED), (0x00, 0x7F), (0x80, 0xBF)],
   [(0xF4, 0xF4), (0x00, 0x7F), (0x80, 0xBF), (0x80, 0xBF)]]

/-- The well-formed sequences of UTF-16: a unit that is not a surrogate, or a surrogate pair. -/
def utf16Table : List (List (UChar × UChar)) :=
  [[(0x0000, 0xD7FF)],
   [(0xE000, 0xFFFF)],
   [(0xD800, 0xDBFF), (0xDC00, 0xDFFF)]]

/-! ## Scalar values -/

/-- A code point that is not a surrogate. -/
def IsScalar (c : Nat) : Prop := c < 0xD800 ∨ 0xE000 ≤ c ∧ c < 0x110000

/-- The trailing bytes of a character, six bits each. -/
def trailingBytes : Nat → Nat → List UInt8
  | 0, _ => []
  | n + 1, c => trailingBytes n (c / 64) ++ [UInt8.ofNat (0x80 + c % 64)]

def encodeUTF8 (c : Nat) : List UInt8 :=
  if c < 0x80 then [UInt8.ofNat c]
  else if c < 0x800 then UInt8.ofNat (0xC0 + c / 64) :: trailingBytes 1 c
  else if c < 0x10000 then UInt8.ofNat (0xE0 + c / 4096) :: trailingBytes 2 c
  else UInt8.ofNat (0xF0 + c / 262144) :: trailingBytes 3 c

def encodeUTF16 (c : Nat) : List UChar :=
  if c < 0x10000 then [UInt16.ofNat c]
  else [UInt16.ofNat (0xD800 + (c - 0x10000) / 0x400), UInt16.ofNat (0xDC00 + c % 0x400)]

/-- The bytes of a sequence added up and shifted. -/
def sumBytes : Nat → List UInt8 → Nat
  | sum, [] => sum
  | sum, [b] => sum + b.toNat
  | sum, b :: c :: q => sumBytes ((sum + b.toNat) * 64) (c :: q)

/-- What the marks of a sequence of one to four bytes add up to. -/
def sequenceOffsets : List Nat := [0, 0x3080, 0xE2080, 0x3C82080]

/-- The value of a sequence of one to four bytes. -/
def sequenceValue (q : List UInt8) : Nat := sumBytes 0 q - sequenceOffsets.getD (q.length - 1) 0

@[simp] theorem length_trailingBytes (n c : Nat) : (trailingBytes n c).length = n := by
  induction n generalizing c with
  | zero => rfl
  | succ n ih => simp [trailingBytes, ih]

theorem length_encodeUTF16_pos (c : Nat) : 0 < (encodeUTF16 c).length := by
  unfold encodeUTF16
  split_ifs <;> simp

theorem encodeUTF8_ne_nil (c : Nat) : encodeUTF8 c ≠ [] := by
  unfold encodeUTF8
  split_ifs <;> simp

theorem fits_utf8Table_iff (q : List UInt8) : MatchesRow utf8Table q ↔
    (∃ a, q = [a] ∧ a.toNat ≤ 0x7F) ∨
    (∃ a b, q = [a, b] ∧ (0xC2 ≤ a.toNat ∧ a.toNat ≤ 0xDF) ∧ 0x80 ≤ b.toNat ∧ b.toNat ≤ 0xBF) ∨
    (∃ a b c, q = [a, b, c] ∧ (0xE0 ≤ a.toNat ∧ a.toNat ≤ 0xEF) ∧ (0x80 ≤ b.toNat ∧ b.toNat ≤ 0xBF) ∧
      (0x80 ≤ c.toNat ∧ c.toNat ≤ 0xBF) ∧ (a.toNat = 0xE0 → 0xA0 ≤ b.toNat) ∧ (a.toNat = 0xED → b.toNat ≤ 0x9F)) ∨
    (∃ a b c d, q = [a, b, c, d] ∧ (0xF0 ≤ a.toNat ∧ a.toNat ≤ 0xF4) ∧ (0x80 ≤ b.toNat ∧ b.toNat ≤ 0xBF) ∧
      (0x80 ≤ c.toNat ∧ c.toNat ≤ 0xBF) ∧ (0x80 ≤ d.toNat ∧ d.toNat ≤ 0xBF) ∧
      (a.toNat = 0xF0 → 0x90 ≤ b.toNat) ∧ (a.toNat = 0xF4 → b.toNat ≤ 0x8F)) := by
  match q with
  | [] => simp [MatchesRow, utf8Table]
  | [a] =>
    simp [MatchesRow, utf8Table, UInt8.le_iff_toNat_le]
  | [a, b] =>
    simp [MatchesRow, utf8Table, UInt8.le_iff_toNat_le]
  | [a, b, c] =>
    simp [MatchesRow, utf8Table, UInt8.le_iff_toNat_le]
    omega
  | [a, b, c, d] =>
    simp [MatchesRow, utf8Table, UInt8.le_iff_toNat_le]
    omega
  | a :: b :: c :: d :: e :: q => simp [MatchesRow, utf8Table]

theorem fits_laxTable_iff (q : List UInt8) : MatchesRow laxTable q ↔
    (∃ a b c, q = [a, b, c] ∧ a.toNat = 0xED ∧ b.toNat ≤ 0x7F ∧ 0x80 ≤ c.toNat ∧ c.toNat ≤ 0xBF) ∨
    (∃ a b c d, q = [a, b, c, d] ∧ a.toNat = 0xF4 ∧ b.toNat ≤ 0x7F ∧ (0x80 ≤ c.toNat ∧ c.toNat ≤ 0xBF) ∧
      0x80 ≤ d.toNat ∧ d.toNat ≤ 0xBF) := by
  match q with
  | [] => simp [MatchesRow, laxTable]
  | [a] => simp [MatchesRow, laxTable]
  | [a, b] => simp [MatchesRow, laxTable]
  | [a, b, c] =>
    simp [MatchesRow, laxTable, UInt8.le_iff_toNat_le]
    omega
  | [a, b, c, d] =>
    simp [MatchesRow, laxTable, UInt8.le_iff_toNat_le]
    omega
  | a :: b :: c :: d :: e :: q => simp [MatchesRow, laxTable]

/-- The sequences that the code takes for one character. -/
def Accepted (q : List UInt8) : Prop := MatchesRow utf8Table q ∨ MatchesRow laxTable q

theorem inlineUTF8SequenceLength_eq (b0 : UInt8) : inlineUTF8SequenceLength b0 =
    if b0.toNat < 0x80 then 1 else if b0.toNat < 0xC0 then 0 else if b0.toNat < 0xE0 then 2
    else if b0.toNat < 0xF0 then 3 else if b0.toNat < 0xF8 then 4 else 0 := by
  revert b0
  exact forall_uint8 (by decide +kernel)

/-! ## What is accepted -/

/-- What is demanded of the first byte. -/
def FirstByte (a : UInt8) : Prop := a.toNat < 0x80 ∨ 0xC2 ≤ a.toNat ∧ a.toNat ≤ 0xF4

/-- What is demanded of the first two bytes. -/
def SecondByte (a b : UInt8) : Prop :=
  b.toNat ≤ 0xBF ∧ (a.toNat = 0xE0 → 0xA0 ≤ b.toNat) ∧ (a.toNat = 0xED → b.toNat ≤ 0x9F) ∧
    (a.toNat = 0xF0 → 0x90 ≤ b.toNat) ∧ (a.toNat = 0xF4 → b.toNat ≤ 0x8F) ∧
    (b.toNat < 0x80 → a.toNat = 0xE0 ∨ a.toNat = 0xED ∨ a.toNat = 0xF0 ∨ a.toNat = 0xF4) ∧ FirstByte a

section

variable (source : List UInt8) {a b c d : UInt8}

theorem case1_iff (ha : source[0]? = some a) :
    ∃ legal, isLegalUTF8.case1 source = some legal ∧ (legal = true ↔ FirstByte a) := by
  unfold isLegalUTF8.case1 FirstByte
  simp only [ha, Option.bind_eq_bind, Option.bind_some, UInt8.lt_iff_toNat_lt, UInt8.le_iff_toNat_le, GE.ge, GT.gt,
    Option.pure_def, UInt8.reduceToNat]
  split_ifs
  all_goals
    refine ⟨_, rfl, ?_⟩
    simp only [Bool.false_eq_true, false_iff, true_iff]
    omega

theorem case2_iff (ha : source[0]? = some a) (hb : source[1]? = some b) :
    ∃ legal, isLegalUTF8.case2 source = some legal ∧ (legal = true ↔ SecondByte a b) := by
  obtain ⟨legal, hcase1, hlegal⟩ := case1_iff source ha
  unfold isLegalUTF8.case2 SecondByte
  unfold FirstByte at hlegal ⊢
  simp only [ha, hb, Option.bind_eq_bind, Option.bind_some, UInt8.lt_iff_toNat_lt, ← UInt8.toNat_inj, GT.gt,
    Option.pure_def, hcase1, UInt8.reduceToNat]
  split_ifs
  all_goals
    refine ⟨_, rfl, ?_⟩
    simp only [Bool.false_eq_true, false_iff, hlegal]
    omega

theorem case3_iff (ha : source[0]? = some a) (hb : source[1]? = some b) (hc : source[2]? = some c) :
    ∃ legal, isLegalUTF8.case3 source = some legal ∧
      (legal = true ↔ (0x80 ≤ c.toNat ∧ c.toNat ≤ 0xBF) ∧ SecondByte a b) := by
  obtain ⟨legal, hcase2, hlegal⟩ := case2_iff source ha hb
  unfold isLegalUTF8.case3
  unfold SecondByte FirstByte at hlegal ⊢
  simp only [hc, Option.bind_eq_bind, Option.bind_some, UInt8.lt_iff_toNat_lt, GT.gt, Option.pure_def, hcase2,
    UInt8.reduceToNat]
  split_ifs
  all_goals
    refine ⟨_, rfl, ?_⟩
    simp only [Bool.false_eq_true, false_iff, hlegal]
    omega

theorem case4_iff (ha : source[0]? = some a) (hb : source[1]? = some b) (hc : source[2]? = some c)
    (hd : source[3]? = some d) : ∃ legal, isLegalUTF8.case4 source = some legal ∧
      (legal = true ↔ (0x80 ≤ d.toNat ∧ d.toNat ≤ 0xBF) ∧ (0x80 ≤ c.toNat ∧ c.toNat ≤ 0xBF) ∧ SecondByte a b) := by
  obtain ⟨legal, hcase3, hlegal⟩ := case3_iff source ha hb hc
  unfold isLegalUTF8.case4
  unfold SecondByte FirstByte at hlegal ⊢
  simp only [hd, Option.bind_eq_bind, Option.bind_some, UInt8.lt_iff_toNat_lt, GT.gt, Option.pure_def, hcase3,
    UInt8.reduceToNat]
  split_ifs
  all_goals
    refine ⟨_, rfl, ?_⟩
    simp only [Bool.false_eq_true, false_iff, hlegal]
    omega

end

/-- **The sequences of the table and the lax ones are accepted**, and no others. -/
theorem isLegalUTF8_eq {q : List UInt8} (rest : List UInt8) {a : UInt8} (ha : q.head? = some a)
    (hlen : q.length = inlineUTF8SequenceLength a) :
    ∃ legal, isLegalUTF8 (q ++ rest) q.length = some legal ∧ (legal = true ↔ Accepted q) := by
  rw [inlineUTF8SequenceLength_eq] at hlen
  unfold Accepted
  rw [fits_utf8Table_iff, fits_laxTable_iff]
  match q with
  | [] => cases ha
  | [a] => 
    cases ha
    obtain ⟨legal, hcase, hlegal⟩ := case1_iff ([a] ++ rest) rfl
    refine ⟨legal, hcase, ?_⟩
    rw [hlegal, FirstByte]
    simp only [List.length_singleton] at hlen
    simp
    split_ifs at hlen <;> omega
  | [a, b] =>
    cases ha
    obtain ⟨legal, hcase, hlegal⟩ := case2_iff ([a, b] ++ rest) rfl rfl
    refine ⟨legal, hcase, ?_⟩
    rw [hlegal, SecondByte, FirstByte]
    simp only [List.length_cons, List.length_nil] at hlen
    simp
    split_ifs at hlen <;> omega
  | [a, b, c] =>
    cases ha
    obtain ⟨legal, hcase, hlegal⟩ := case3_iff ([a, b, c] ++ rest) rfl rfl rfl
    refine ⟨legal, hcase, ?_⟩
    rw [hlegal, SecondByte, FirstByte]
    simp only [List.length_cons, List.length_nil] at hlen
    simp
    split_ifs at hlen <;> omega
  | [a, b, c, d] =>
    cases ha
    obtain ⟨legal, hcase, hlegal⟩ := case4_iff ([a, b, c, d] ++ rest) rfl rfl rfl rfl
    refine ⟨legal, hcase, ?_⟩
    rw [hlegal, SecondByte, FirstByte]
    simp only [List.length_cons, List.length_nil] at hlen
    simp
    split_ifs at hlen <;> omega
  | a :: b :: c :: d :: e :: q =>
    simp only [List.length_cons] at hlen
    split_ifs at hlen <;> omega

/-! ## Values -/

theorem sequenceValue_one (a : UInt8) : sequenceValue [a] = a.toNat := by
  simp [sequenceValue, sumBytes, sequenceOffsets]

theorem sequenceValue_two (a b : UInt8) : sequenceValue [a, b] = a.toNat * 64 + b.toNat - 0x3080 := by
  simp [sequenceValue, sumBytes, sequenceOffsets]

theorem sequenceValue_three (a b c : UInt8) :
    sequenceValue [a, b, c] = (a.toNat * 64 + b.toNat) * 64 + c.toNat - 0xE2080 := by
  simp [sequenceValue, sumBytes, sequenceOffsets]

theorem sequenceValue_four (a b c d : UInt8) :
    sequenceValue [a, b, c, d] = ((a.toNat * 64 + b.toNat) * 64 + c.toNat) * 64 + d.toNat - 0x3C82080 := by
  simp [sequenceValue, sumBytes, sequenceOffsets]

theorem isScalar_sequenceValue {q : List UInt8} (h : Accepted q) : IsScalar (sequenceValue q) := by
  unfold Accepted at h
  rw [fits_utf8Table_iff, fits_laxTable_iff] at h
  unfold IsScalar
  obtain (⟨a, rfl, h⟩ | ⟨a, b, rfl, h⟩ | ⟨a, b, c, rfl, h⟩ | ⟨a, b, c, d, rfl, h⟩) |
    (⟨a, b, c, rfl, h⟩ | ⟨a, b, c, d, rfl, h⟩) := h
  all_goals
    simp only [sequenceValue_one, sequenceValue_two, sequenceValue_three, sequenceValue_four]
    omega

theorem ofNat_shiftLeft_six (n : Nat) : UInt32.ofNat n <<< 6 = UInt32.ofNat (n * 64) := by
  apply UInt32.toNat.inj
  rw [UInt32.toNat_shiftLeft, UInt32.toNat_ofNat', UInt32.toNat_ofNat']
  show (n % 2 ^ 32) <<< 6 % 2 ^ 32 = _
  rw [Nat.shiftLeft_eq]
  omega

theorem ofNat_add_byte (n : Nat) (b : UInt8) : UInt32.ofNat n + b.toUInt32 = UInt32.ofNat (n + b.toNat) := by
  apply UInt32.toNat.inj
  rw [UInt32.toNat_add, UInt8.toNat_toUInt32, UInt32.toNat_ofNat', UInt32.toNat_ofNat']
  omega

theorem sumSequence_eq {q : List UInt8} (hq : q ≠ []) (sum : Nat) (rest : List UInt8) :
    UTF8ToUTF16.sumSequence q.length (UInt32.ofNat sum) (q ++ rest) = some (UInt32.ofNat (sumBytes sum q), rest) := by
  fun_induction sumBytes sum q with
  | case1 => exact absurd rfl hq
  | case2 sum b =>
    show some (UInt32.ofNat sum + b.toUInt32, rest) = _
    rw [ofNat_add_byte]
  | case3 sum b c q ih =>
    show UTF8ToUTF16.sumSequence (c :: q).length ((UInt32.ofNat sum + b.toUInt32) <<< 6) (c :: q ++ rest) = _
    rw [ofNat_add_byte, ofNat_shiftLeft_six]
    exact ih (by simp)

theorem ofNat_sub_ofNat {m n : Nat} (h : n ≤ m) : UInt32.ofNat m - UInt32.ofNat n = UInt32.ofNat (m - n) := by
  have hsum : UInt32.ofNat m = UInt32.ofNat (m - n) + UInt32.ofNat n := by
    rw [← UInt32.ofNat_add, Nat.sub_add_cancel h]
  rw [hsum, UInt32.add_sub_cancel]

theorem offsetsFromUTF8_eq : ∀ n < 4, offsetsFromUTF8[n]? = some (UInt32.ofNat (sequenceOffsets.getD n 0)) := by decide

/-- **The value of an accepted sequence is read.** -/
theorem readUTF8Sequence_eq {q : List UInt8} (h : Accepted q) (rest : List UInt8) :
    UTF8ToUTF16.readUTF8Sequence (q ++ rest) q.length = some (UInt32.ofNat (sequenceValue q), rest) := by
  unfold Accepted at h
  rw [fits_utf8Table_iff, fits_laxTable_iff] at h
  have hle : sequenceOffsets.getD (q.length - 1) 0 ≤ sumBytes 0 q := by
    obtain (⟨a, rfl, h⟩ | ⟨a, b, rfl, h⟩ | ⟨a, b, c, rfl, h⟩ | ⟨a, b, c, d, rfl, h⟩) |
      (⟨a, b, c, rfl, h⟩ | ⟨a, b, c, d, rfl, h⟩) := h
    all_goals
      simp [sumBytes, sequenceOffsets]
    all_goals omega
  obtain ⟨n, hlen, hlt⟩ : ∃ n, q.length = n + 1 ∧ n < 4 := by
    obtain (⟨a, rfl, -⟩ | ⟨a, b, rfl, -⟩ | ⟨a, b, c, rfl, -⟩ | ⟨a, b, c, d, rfl, -⟩) |
      (⟨a, b, c, rfl, -⟩ | ⟨a, b, c, d, rfl, -⟩) := h
    · exact ⟨0, rfl, by decide⟩
    · exact ⟨1, rfl, by decide⟩
    · exact ⟨2, rfl, by decide⟩
    · exact ⟨3, rfl, by decide⟩
    · exact ⟨2, rfl, by decide⟩
    · exact ⟨3, rfl, by decide⟩
  have hq : q ≠ [] := by
    rintro rfl
    cases hlen
  have hoffset := offsetsFromUTF8_eq n hlt
  have hsum := sumSequence_eq hq 0 rest
  rw [hlen] at hsum ⊢
  rw [hlen, Nat.add_sub_cancel] at hle
  unfold UTF8ToUTF16.readUTF8Sequence sequenceValue
  rw [hlen, Nat.add_sub_cancel, ← ofNat_sub_ofNat hle]
  simp only [Option.bind_eq_bind, Option.pure_def]
  rw [show (0 : UInt32) = UInt32.ofNat 0 from rfl, hsum, Option.bind_some, hoffset]
  rfl

/-! ## What scalar values are written as -/

/-- A scalar value is written as a well-formed sequence. -/
theorem fits_encodeUTF8 {c : Nat} (h : IsScalar c) : MatchesRow utf8Table (encodeUTF8 c) := by
  rw [fits_utf8Table_iff]
  unfold IsScalar at h
  unfold encodeUTF8
  split_ifs with h₁ h₂ h₃
  · refine .inl ⟨_, rfl, ?_⟩
    rw [UInt8.toNat_ofNat']
    omega
  · refine .inr (.inl ⟨_, _, rfl, ?_⟩)
    simp only [UInt8.toNat_ofNat']
    omega
  · refine .inr (.inr (.inl ⟨_, _, _, rfl, ?_⟩))
    simp only [UInt8.toNat_ofNat']
    omega
  · refine .inr (.inr (.inr ⟨_, _, _, _, rfl, ?_⟩))
    simp only [UInt8.toNat_ofNat']
    omega

theorem sequenceValue_encodeUTF8 {c : Nat} (h : IsScalar c) : sequenceValue (encodeUTF8 c) = c := by
  unfold IsScalar at h
  unfold encodeUTF8
  split_ifs with h₁ h₂ h₃
  all_goals
    simp only [trailingBytes, List.nil_append, List.cons_append, sequenceValue_one, sequenceValue_two, sequenceValue_three, sequenceValue_four,
      UInt8.toNat_ofNat']
    omega

theorem encodeUTF8_sequenceValue {q : List UInt8} (h : MatchesRow utf8Table q) : encodeUTF8 (sequenceValue q) = q := by
  rw [fits_utf8Table_iff] at h
  obtain ⟨a, rfl, h⟩ | ⟨a, b, rfl, h⟩ | ⟨a, b, c, rfl, h⟩ | ⟨a, b, c, d, rfl, h⟩ := h
  all_goals
    simp only [sequenceValue_one, sequenceValue_two, sequenceValue_three, sequenceValue_four]
    unfold encodeUTF8
    split_ifs <;> try omega
  · rw [ofNat_eq_byte rfl]
  · simp only [trailingBytes, List.nil_append]
    rw [ofNat_eq_byte (b := a) (by omega), ofNat_eq_byte (b := b) (by omega)]
  · simp only [trailingBytes, List.nil_append, List.cons_append]
    rw [ofNat_eq_byte (b := a) (by omega), ofNat_eq_byte (b := b) (by omega), ofNat_eq_byte (b := c) (by omega)]
  · simp only [trailingBytes, List.nil_append, List.cons_append]
    rw [ofNat_eq_byte (b := a) (by omega), ofNat_eq_byte (b := b) (by omega), ofNat_eq_byte (b := c) (by omega),
      ofNat_eq_byte (b := d) (by omega)]

theorem fits_utf16Table_iff (q : List UChar) : MatchesRow utf16Table q ↔ ∃ c, IsScalar c ∧ q = encodeUTF16 c := by
  constructor
  · intro h
    match q with
    | [] => simp [MatchesRow, utf16Table] at h
    | [u] =>
      simp [MatchesRow, utf16Table, UInt16.le_iff_toNat_le] at h
      have hu := u.toNat_lt
      refine ⟨u.toNat, ?_, ?_⟩
      · unfold IsScalar
        omega
      · rw [encodeUTF16, if_pos (by omega), UInt16.ofNat_toNat]
    | [u, v] =>
      simp [MatchesRow, utf16Table, UInt16.le_iff_toNat_le] at h
      refine ⟨0x10000 + (u.toNat - 0xD800) * 0x400 + (v.toNat - 0xDC00), ?_, ?_⟩
      · unfold IsScalar
        omega
      · have hu : 0xD800 + (0x10000 + (u.toNat - 0xD800) * 0x400 + (v.toNat - 0xDC00) - 0x10000) / 0x400 = u.toNat := by
          omega
        have hv : 0xDC00 + (0x10000 + (u.toNat - 0xD800) * 0x400 + (v.toNat - 0xDC00)) % 0x400 = v.toNat := by omega
        rw [encodeUTF16, if_neg (by omega), hu, hv, UInt16.ofNat_toNat, UInt16.ofNat_toNat]
    | u :: v :: w :: q => simp [MatchesRow, utf16Table] at h
  · rintro ⟨c, hc, rfl⟩
    unfold IsScalar at hc
    unfold encodeUTF16
    split_ifs
    · simp [MatchesRow, utf16Table, UInt16.le_iff_toNat_le]
      omega
    · simp [MatchesRow, utf16Table, UInt16.le_iff_toNat_le]
      omega

end WebKit.WTF.Unicode
