import WebKit.JSC.URICoding

/-!
# The escapes of a URI

`decodeUTF8Sequence` takes exactly the well-formed sequences (`decodeUTF8Sequence_eq`), and `readCharacter` finds at a `%`
exactly the escapes of the bytes of a character (`readCharacter_spec`): an escape is a `%` and two hexadecimal digits of
either case (`Escaped`).
-/

namespace WebKit.WTF

open WebKit.Lib

namespace Unicode

theorem and_C0_eq (b : UInt8) : b &&& 0xC0 = 0x80 ↔ 0x80 ≤ b.toNat ∧ b.toNat ≤ 0xBF := by
  revert b
  exact forall_uint8 (by decide +kernel)

theorem and_07 (x : Nat) : x &&& 7 = x % 8 := Nat.and_two_pow_sub_one_eq_mod x 3
theorem and_0F (x : Nat) : x &&& 15 = x % 16 := Nat.and_two_pow_sub_one_eq_mod x 4
theorem and_1F (x : Nat) : x &&& 31 = x % 32 := Nat.and_two_pow_sub_one_eq_mod x 5
theorem and_3F (x : Nat) : x &&& 63 = x % 64 := Nat.and_two_pow_sub_one_eq_mod x 6

theorem or_two {x y : Nat} (hy : y < 64) : (x <<< 6) ||| y = x * 64 + y := by
  rw [← Nat.shiftLeft_add_eq_or_of_lt (show y < 2 ^ 6 from hy), Nat.shiftLeft_eq]

theorem or_three {x y z : Nat} (hy : y < 64) (hz : z < 64) :
    ((x <<< 12) ||| (y <<< 6)) ||| z = (x * 64 + y) * 64 + z := by
  rw [Nat.or_assoc, or_two hz, ← Nat.shiftLeft_add_eq_or_of_lt (show y * 64 + z < 2 ^ 12 by omega), Nat.shiftLeft_eq]
  omega

theorem or_four {w x y z : Nat} (hx : x < 64) (hy : y < 64) (hz : z < 64) :
    (((w <<< 18) ||| (x <<< 12)) ||| (y <<< 6)) ||| z = ((w * 64 + x) * 64 + y) * 64 + z := by
  rw [Nat.or_assoc, Nat.or_assoc, ← Nat.or_assoc (x <<< 12), or_three hy hz,
    ← Nat.shiftLeft_add_eq_or_of_lt (show (x * 64 + y) * 64 + z < 2 ^ 18 by omega), Nat.shiftLeft_eq]
  omega

/-- What `decodeUTF8Sequence` gives for a sequence is its value or -1. -/
def IsDecoded (q : List UInt8) (result : Option Int) : Prop :=
  (MatchesRow utf8Table q ∧ result = some (sequenceValue q : Int)) ∨ (¬ MatchesRow utf8Table q ∧ result = some (-1))

theorem isDecoded_of_matches {q : List UInt8} {value : Nat} (h : MatchesRow utf8Table q) (hvalue : value = sequenceValue q) :
    IsDecoded q (some value) := .inl ⟨h, by rw [hvalue]⟩

theorem isDecoded_of_not {q : List UInt8} (h : ¬ MatchesRow utf8Table q) : IsDecoded q (some (-1)) := .inr ⟨h, rfl⟩

variable {a b c d : UInt8}

theorem decodeUTF8Sequence_one (hlength : inlineUTF8SequenceLength a = 1) :
    IsDecoded [a] (decodeUTF8Sequence ([a] ++ [0])) := by
  have ha : a.toNat < 0x80 := by
    rw [inlineUTF8SequenceLength_eq] at hlength
    split_ifs at hlength <;> omega
  refine .inl ⟨(fits_utf8Table_iff _).2 (.inl ⟨a, rfl, by omega⟩), ?_⟩
  rw [sequenceValue_one]
  simp [decodeUTF8Sequence, hlength]

theorem decodeUTF8Sequence_eq_two (hlength : inlineUTF8SequenceLength a = 2) : decodeUTF8Sequence [a, b, 0] =
    if b &&& 0xC0 = 0x80 then
      if ((a.toNat &&& 31) <<< 6) ||| (b.toNat &&& 63) < 0x80 then some (-1)
      else some (((a.toNat &&& 31) <<< 6) ||| (b.toNat &&& 63) : Nat)
    else some (-1) := by
  simp only [decodeUTF8Sequence, hlength, List.getElem?_cons_zero, List.getElem?_cons_succ, Option.bind_eq_bind,
    Option.bind_some, Option.pure_def, ne_eq, ite_not, if_false, if_true, OfNat.ofNat_ne_zero, OfNat.ofNat_ne_one,
    UInt8.toNat_and]
  rfl

theorem decodeUTF8Sequence_eq_three (hlength : inlineUTF8SequenceLength a = 3) : decodeUTF8Sequence [a, b, c, 0] =
    if b &&& 0xC0 = 0x80 then
      if c &&& 0xC0 = 0x80 then
        if (((a.toNat &&& 15) <<< 12) ||| ((b.toNat &&& 63) <<< 6)) ||| (c.toNat &&& 63) < 0x800 then some (-1)
        else if (((a.toNat &&& 15) <<< 12) ||| ((b.toNat &&& 63) <<< 6)) ||| (c.toNat &&& 63) ≥ 0xD800 ∧
          (((a.toNat &&& 15) <<< 12) ||| ((b.toNat &&& 63) <<< 6)) ||| (c.toNat &&& 63) ≤ 0xDFFF then some (-1)
        else some ((((a.toNat &&& 15) <<< 12) ||| ((b.toNat &&& 63) <<< 6)) ||| (c.toNat &&& 63) : Nat)
      else some (-1)
    else some (-1) := by
  simp only [decodeUTF8Sequence, hlength, List.getElem?_cons_zero, List.getElem?_cons_succ, Option.bind_eq_bind,
    Option.bind_some, Option.pure_def, ne_eq, ite_not, if_false, if_true, OfNat.ofNat_ne_zero, OfNat.ofNat_ne_one,
    UInt8.toNat_and, Nat.reduceEqDiff]
  rfl

theorem decodeUTF8Sequence_eq_four (hlength : inlineUTF8SequenceLength a = 4) :
    decodeUTF8Sequence [a, b, c, d, 0] =
    if b &&& 0xC0 = 0x80 then
      if c &&& 0xC0 = 0x80 then
        if d &&& 0xC0 = 0x80 then
          if ((((a.toNat &&& 7) <<< 18) ||| ((b.toNat &&& 63) <<< 12)) ||| ((c.toNat &&& 63) <<< 6)) |||
              (d.toNat &&& 63) < 0x10000 ∨
            ((((a.toNat &&& 7) <<< 18) ||| ((b.toNat &&& 63) <<< 12)) ||| ((c.toNat &&& 63) <<< 6)) |||
              (d.toNat &&& 63) > 0x10FFFF then some (-1)
          else some (((((a.toNat &&& 7) <<< 18) ||| ((b.toNat &&& 63) <<< 12)) ||| ((c.toNat &&& 63) <<< 6)) |||
              (d.toNat &&& 63) : Nat)
        else some (-1)
      else some (-1)
    else some (-1) := by
  simp only [decodeUTF8Sequence, hlength, List.getElem?_cons_zero, List.getElem?_cons_succ, Option.bind_eq_bind,
    Option.bind_some, Option.pure_def, ne_eq, ite_not, if_false, if_true, OfNat.ofNat_ne_zero, OfNat.ofNat_ne_one,
    UInt8.toNat_and, Nat.reduceEqDiff]
  rfl

theorem decodeUTF8Sequence_two (hlength : inlineUTF8SequenceLength a = 2) :
    IsDecoded [a, b] (decodeUTF8Sequence ([a, b] ++ [0])) := by
  have ha : 0xC0 ≤ a.toNat ∧ a.toNat < 0xE0 := by
    rw [inlineUTF8SequenceLength_eq] at hlength
    split_ifs at hlength <;> omega
  have hfits : MatchesRow utf8Table [a, b] ↔ 0xC2 ≤ a.toNat ∧ 0x80 ≤ b.toNat ∧ b.toNat ≤ 0xBF := by
    simp [MatchesRow, utf8Table, UInt8.le_iff_toNat_le]
    omega
  have hvalue : ((a.toNat &&& 31) <<< 6) ||| (b.toNat &&& 63) = a.toNat % 32 * 64 + b.toNat % 64 := by
    rw [and_1F, and_3F, or_two (Nat.mod_lt _ (by decide))]
  rw [List.cons_append, List.cons_append, List.nil_append, decodeUTF8Sequence_eq_two hlength, hvalue]
  split_ifs with hb hsmall
  · rw [and_C0_eq] at hb
    exact isDecoded_of_not (by rw [hfits]; omega)
  · rw [and_C0_eq] at hb
    exact isDecoded_of_matches (by rw [hfits]; omega) (by rw [sequenceValue_two]; omega)
  · rw [and_C0_eq] at hb
    exact isDecoded_of_not (by rw [hfits]; omega)

theorem decodeUTF8Sequence_three (hlength : inlineUTF8SequenceLength a = 3) :
    IsDecoded [a, b, c] (decodeUTF8Sequence ([a, b, c] ++ [0])) := by
  have ha : 0xE0 ≤ a.toNat ∧ a.toNat < 0xF0 := by
    rw [inlineUTF8SequenceLength_eq] at hlength
    split_ifs at hlength <;> omega
  have hfits : MatchesRow utf8Table [a, b, c] ↔ (0x80 ≤ b.toNat ∧ b.toNat ≤ 0xBF) ∧ (0x80 ≤ c.toNat ∧ c.toNat ≤ 0xBF) ∧
      (a.toNat = 0xE0 → 0xA0 ≤ b.toNat) ∧ (a.toNat = 0xED → b.toNat ≤ 0x9F) := by
    simp [MatchesRow, utf8Table, UInt8.le_iff_toNat_le]
    omega
  have hvalue : (((a.toNat &&& 15) <<< 12) ||| ((b.toNat &&& 63) <<< 6)) ||| (c.toNat &&& 63) =
      (a.toNat % 16 * 64 + b.toNat % 64) * 64 + c.toNat % 64 := by
    rw [and_0F, and_3F, and_3F, or_three (Nat.mod_lt _ (by decide)) (Nat.mod_lt _ (by decide))]
  rw [List.cons_append, List.cons_append, List.cons_append, List.nil_append, decodeUTF8Sequence_eq_three hlength, hvalue]
  split_ifs with hb hc hsmall hsurrogate
  · rw [and_C0_eq] at hb hc
    exact isDecoded_of_not (by rw [hfits]; omega)
  · rw [and_C0_eq] at hb hc
    exact isDecoded_of_not (by rw [hfits]; omega)
  · rw [and_C0_eq] at hb hc
    exact isDecoded_of_matches (by rw [hfits]; omega) (by rw [sequenceValue_three]; omega)
  · rw [and_C0_eq] at hc
    exact isDecoded_of_not (by rw [hfits]; omega)
  · rw [and_C0_eq] at hb
    exact isDecoded_of_not (by rw [hfits]; omega)

theorem decodeUTF8Sequence_four (hlength : inlineUTF8SequenceLength a = 4) :
    IsDecoded [a, b, c, d] (decodeUTF8Sequence ([a, b, c, d] ++ [0])) := by
  have ha : 0xF0 ≤ a.toNat ∧ a.toNat < 0xF8 := by
    rw [inlineUTF8SequenceLength_eq] at hlength
    split_ifs at hlength <;> omega
  have hfits : MatchesRow utf8Table [a, b, c, d] ↔ a.toNat ≤ 0xF4 ∧ (0x80 ≤ b.toNat ∧ b.toNat ≤ 0xBF) ∧
      (0x80 ≤ c.toNat ∧ c.toNat ≤ 0xBF) ∧ (0x80 ≤ d.toNat ∧ d.toNat ≤ 0xBF) ∧
      (a.toNat = 0xF0 → 0x90 ≤ b.toNat) ∧ (a.toNat = 0xF4 → b.toNat ≤ 0x8F) := by
    simp [MatchesRow, utf8Table, UInt8.le_iff_toNat_le]
    omega
  have hvalue : ((((a.toNat &&& 7) <<< 18) ||| ((b.toNat &&& 63) <<< 12)) ||| ((c.toNat &&& 63) <<< 6)) |||
      (d.toNat &&& 63) = ((a.toNat % 8 * 64 + b.toNat % 64) * 64 + c.toNat % 64) * 64 + d.toNat % 64 := by
    rw [and_07, and_3F, and_3F, and_3F,
      or_four (Nat.mod_lt _ (by decide)) (Nat.mod_lt _ (by decide)) (Nat.mod_lt _ (by decide))]
  rw [List.cons_append, List.cons_append, List.cons_append, List.cons_append, List.nil_append,
    decodeUTF8Sequence_eq_four hlength, hvalue]
  split_ifs with hb hc hd hrange
  · rw [and_C0_eq] at hb hc hd
    exact isDecoded_of_not (by rw [hfits]; omega)
  · rw [and_C0_eq] at hb hc hd
    exact isDecoded_of_matches (by rw [hfits]; omega) (by rw [sequenceValue_four]; omega)
  · rw [and_C0_eq] at hd
    exact isDecoded_of_not (by rw [hfits]; omega)
  · rw [and_C0_eq] at hc
    exact isDecoded_of_not (by rw [hfits]; omega)
  · rw [and_C0_eq] at hb
    exact isDecoded_of_not (by rw [hfits]; omega)

/-- **`decodeUTF8Sequence` takes the well-formed sequences**, of those that are as long as the first byte says. -/
theorem decodeUTF8Sequence_eq {a : UInt8} {q : List UInt8} (hlength : inlineUTF8SequenceLength a = q.length + 1) :
    IsDecoded (a :: q) (decodeUTF8Sequence (a :: q ++ [0])) := by
  match q with
  | [] => exact decodeUTF8Sequence_one hlength
  | [b] => exact decodeUTF8Sequence_two hlength
  | [b, c] => exact decodeUTF8Sequence_three hlength
  | [b, c, d] => exact decodeUTF8Sequence_four hlength
  | b :: c :: d :: e :: q =>
    rw [inlineUTF8SequenceLength_eq, List.length_cons, List.length_cons, List.length_cons, List.length_cons] at hlength
    split_ifs at hlength <;> omega

/-- A well-formed sequence is as long as its first byte says. -/
theorem inlineUTF8SequenceLength_of_matches {a : UInt8} {q : List UInt8} (h : MatchesRow utf8Table (a :: q)) :
    inlineUTF8SequenceLength a = q.length + 1 := by
  rw [fits_utf8Table_iff] at h
  rw [inlineUTF8SequenceLength_eq]
  obtain ⟨x, hq, h⟩ | ⟨x, y, hq, h⟩ | ⟨x, y, z, hq, h⟩ | ⟨x, y, z, w, hq, h⟩ := h
  all_goals
    obtain ⟨rfl, rfl⟩ := List.cons.inj hq
    simp only [List.length_cons, List.length_nil]
    split_ifs <;> omega

end Unicode

/-! ## Hexadecimal digits -/

/-- `c` is a digit of the value `v`. -/
def HexValue (c : UChar) (v : Nat) : Prop :=
  (0x30 ≤ c.toNat ∧ c.toNat ≤ 0x39 ∧ c.toNat = 0x30 + v) ∨ (0x41 ≤ c.toNat ∧ c.toNat ≤ 0x46 ∧ c.toNat = 0x37 + v) ∨
    (0x61 ≤ c.toNat ∧ c.toNat ≤ 0x66 ∧ c.toNat = 0x57 + v)

theorem HexValue.lt {c : UChar} {v : Nat} (h : HexValue c v) : v < 16 := by
  unfold HexValue at h
  omega

theorem isASCIIHexDigit_ascii : ∀ i : Fin 128, isASCIIHexDigit (UInt16.ofNat i) =
    decide ((0x30 ≤ i.val ∧ i.val ≤ 0x39) ∨ (0x41 ≤ i.val ∧ i.val ≤ 0x46) ∨ (0x61 ≤ i.val ∧ i.val ≤ 0x66)) := by
  decide +kernel

theorem toASCIIHexValue_ascii : ∀ i : Fin 128, (0x30 ≤ i.val ∧ i.val ≤ 0x39) ∨ (0x41 ≤ i.val ∧ i.val ≤ 0x46) ∨
    (0x61 ≤ i.val ∧ i.val ≤ 0x66) → (toASCIIHexValue (UInt16.ofNat i)).toNat =
      if i.val ≤ 0x39 then i.val - 0x30 else if i.val ≤ 0x46 then i.val - 0x37 else i.val - 0x57 := by
  decide +kernel

theorem hexValue_iff {c : UChar} {v : Nat} :
    HexValue c v ↔ isASCIIHexDigit c = true ∧ (toASCIIHexValue c).toNat = v := by
  by_cases hc : c.toNat < 128
  · have hdigit := isASCIIHexDigit_ascii ⟨c.toNat, hc⟩
    have hvalue := toASCIIHexValue_ascii ⟨c.toNat, hc⟩
    simp only [UInt16.ofNat_toNat] at hdigit hvalue
    rw [hdigit, decide_eq_true_iff]
    unfold HexValue
    constructor
    · intro h
      refine ⟨by omega, ?_⟩
      rw [hvalue (by omega)]
      split_ifs <;> omega
    · rintro ⟨h, rfl⟩
      rw [hvalue h]
      split_ifs <;> omega
  · have hnot : isASCIIHexDigit c = false := by
      have hor : c.toNat ≤ (c ||| 0x20).toNat := by
        rw [UInt16.toNat_or]
        exact Nat.left_le_or
      have hdigit : isASCIIDigit c = false := by
        simp [isASCIIDigit, UInt16.le_iff_toNat_le]
        omega
      simp [isASCIIHexDigit, hdigit, UInt16.le_iff_toNat_le]
      simp at hor
      omega
    rw [hnot]
    unfold HexValue
    constructor
    · omega
    · rintro ⟨h, -⟩
      cases h

end WebKit.WTF

namespace WebKit.JSC

open WTF WTF.Unicode WebKit.Lib

/-- **The value of two digits.** -/
theorem convertHex_eq {x y : UChar} {v w : Nat} (hx : HexValue x v) (hy : HexValue y w) :
    Lexer.convertHex x y = UInt8.ofNat (16 * v + w) := by
  have hv := hx.lt
  have hw := hy.lt
  obtain ⟨-, hvx⟩ := hexValue_iff.1 hx
  obtain ⟨-, hwy⟩ := hexValue_iff.1 hy
  apply UInt8.toNat.inj
  have hor : (v <<< 4) ||| w = 16 * v + w := by
    rw [← Nat.shiftLeft_add_eq_or_of_lt (show w < 2 ^ 4 from hw), Nat.shiftLeft_eq]
    omega
  have hshift : v <<< ((4 : UInt16).toNat % 16) % 2 ^ 16 = v <<< 4 :=
    Nat.mod_eq_of_lt (show v <<< 4 < 2 ^ 16 by rw [Nat.shiftLeft_eq]; omega)
  rw [Lexer.convertHex, UInt16.toNat_toUInt8, UInt16.toNat_or, UInt16.toNat_shiftLeft, hvx, hwy, hshift, hor,
    UInt8.toNat_ofNat']

/-! ## Escapes -/

inductive Escaped : List UChar → List UInt8 → Prop
  | nil : Escaped [] []
  | cons {x y : UChar} {v w : Nat} {text : List UChar} {bytes : List UInt8} (hx : HexValue x v) (hy : HexValue y w)
      (h : Escaped text bytes) : Escaped (0x25 :: x :: y :: text) (UInt8.ofNat (16 * v + w) :: bytes)

theorem Escaped.length_eq {text : List UChar} {bytes : List UInt8} (h : Escaped text bytes) :
    text.length = 3 * bytes.length := by
  induction h with
  | nil => rfl
  | cons _ _ _ ih =>
    simp only [List.length_cons, ih]
    omega

/-- The `text` starts with the escapes of the bytes. -/
def StartsWith (text : List UChar) (bytes : List UInt8) : Prop :=
  ∃ escaped back, text = escaped ++ back ∧ Escaped escaped bytes

theorem startsWith_nil (text : List UChar) : StartsWith text [] := ⟨[], text, rfl, .nil⟩

theorem startsWith_cons_iff {x y c : UChar} {text : List UChar} {byte : UInt8} {bytes : List UInt8} :
    StartsWith (c :: x :: y :: text) (byte :: bytes) ↔
      c = 0x25 ∧ (isASCIIHexDigit x = true ∧ isASCIIHexDigit y = true) ∧ byte = Lexer.convertHex x y ∧
        StartsWith text bytes := by
  constructor
  · rintro ⟨escaped, back, htext, hescaped⟩
    cases hescaped with
    | cons hx hy h =>
      rw [List.cons_append, List.cons_append, List.cons_append] at htext
      simp only [List.cons.injEq] at htext
      obtain ⟨rfl, rfl, rfl, htext⟩ := htext
      exact ⟨rfl, ⟨(hexValue_iff.1 hx).1, (hexValue_iff.1 hy).1⟩, (convertHex_eq hx hy).symm, _, back, htext, h⟩
  · rintro ⟨rfl, ⟨hx, hy⟩, rfl, escaped, back, rfl, h⟩
    have hx' := hexValue_iff.2 ⟨hx, rfl⟩
    have hy' := hexValue_iff.2 ⟨hy, rfl⟩
    refine ⟨0x25 :: x :: y :: escaped, back, rfl, ?_⟩
    rw [convertHex_eq hx' hy']
    exact .cons hx' hy' h

theorem StartsWith.length_le {text : List UChar} {bytes : List UInt8} (h : StartsWith text bytes) :
    3 * bytes.length ≤ text.length := by
  obtain ⟨escaped, back, rfl, h⟩ := h
  rw [List.length_append, h.length_eq]
  omega

theorem exists_three (characters : List UChar) (q : Nat) (h : q + 3 ≤ characters.length) :
    ∃ c x y, characters.drop q = c :: x :: y :: characters.drop (q + 3) ∧ characters[q]? = some c ∧
      characters[q + 1]? = some x ∧ characters[q + 2]? = some y := by
  refine ⟨characters[q], characters[q + 1], characters[q + 2], ?_, ?_, ?_, ?_⟩
  · rw [List.drop_eq_getElem_cons, List.drop_eq_getElem_cons, List.drop_eq_getElem_cons]
  all_goals exact List.getElem?_eq_getElem _

/-- **`readEscapes` reads the escapes of `n` bytes**, where they are. -/
theorem readEscapes_spec (characters : List UChar) (k : Nat) (n : Nat) : ∀ i, k + (i + n) * 3 ≤ characters.length →
    ∃ result, readEscapes characters k i n = some result ∧
      ∀ bytes, result = some bytes ↔ bytes.length = n ∧ StartsWith (characters.drop (k + i * 3)) bytes := by
  induction n with
  | zero =>
    intro i _
    refine ⟨some [], rfl, ?_⟩
    intro bytes
    rw [List.length_eq_zero_iff, Option.some.injEq]
    constructor
    · rintro rfl
      exact ⟨rfl, startsWith_nil _⟩
    · rintro ⟨rfl, -⟩
      rfl
  | succ n ih =>
    intro i hlength
    obtain ⟨result, hresult, hiff⟩ := ih (i + 1) (by omega)
    obtain ⟨c, x, y, hdrop, hc, hx, hy⟩ := exists_three characters (k + i * 3) (by omega)
    have hnext : k + (i + 1) * 3 = k + i * 3 + 3 := by omega
    rw [hnext] at hiff
    rw [hdrop]
    simp only [readEscapes, hc, hx, hy, hresult, Option.bind_eq_bind, Option.bind_some, Option.pure_def]
    have hcons : ∀ bytes : List UInt8,
        (bytes.length = n + 1 ∧ StartsWith (c :: x :: y :: characters.drop (k + i * 3 + 3)) bytes) ↔
          (c = 0x25 ∧ isASCIIHexDigit x = true ∧ isASCIIHexDigit y = true) ∧
            result.map (Lexer.convertHex x y :: ·) = some bytes := by
      intro bytes
      cases bytes with
      | nil => simp
      | cons byte bytes =>
        rw [startsWith_cons_iff, List.length_cons, Nat.add_right_cancel_iff, Option.map_eq_some_iff]
        constructor
        · rintro ⟨hbytes, rfl, hdigits, rfl, hstarts⟩
          exact ⟨⟨rfl, hdigits⟩, bytes, (hiff bytes).2 ⟨hbytes, hstarts⟩, rfl⟩
        · rintro ⟨⟨rfl, hdigits⟩, bytes', hbytes', hcons⟩
          obtain ⟨rfl, rfl⟩ := List.cons.inj hcons
          obtain ⟨hbytes, hstarts⟩ := (hiff bytes').1 hbytes'
          exact ⟨hbytes, rfl, hdigits, rfl, hstarts⟩
    by_cases hescape : c = 0x25 ∧ isASCIIHexDigit x = true ∧ isASCIIHexDigit y = true
    · obtain ⟨rfl, hx', hy'⟩ := hescape
      refine ⟨result.map (Lexer.convertHex x y :: ·), by simp [hx', hy'], fun bytes => ?_⟩
      rw [hcons]
      simp [hx', hy']
    · refine ⟨none, ?_, fun bytes => ?_⟩
      · by_cases hpercent : c = 0x25
        · by_cases hx' : isASCIIHexDigit x = true
          · have hy' : ¬ isASCIIHexDigit y = true := fun hy' => hescape ⟨hpercent, hx', hy'⟩
            simp [hpercent, hx', hy']
          · simp [hpercent, hx']
        · simp [hpercent]
      · rw [hcons]
        constructor
        · intro h
          cases h
        · rintro ⟨h, -⟩
          exact absurd h hescape

/-- The character at a `%` and the length of its escapes. -/
def IsCharacterAt (text : List UChar) (character charLen : Nat) : Prop :=
  IsScalar character ∧ charLen = 3 * (encodeUTF8 character).length ∧ StartsWith text (encodeUTF8 character)

/-- The first escape of a character tells how many there are. -/
theorem IsCharacterAt.of_cons {x y c : UChar} {text : List UChar} {character charLen : Nat}
    (h : IsCharacterAt (c :: x :: y :: text) character charLen) :
    (isASCIIHexDigit x = true ∧ isASCIIHexDigit y = true) ∧ ∃ bytes,
      encodeUTF8 character = Lexer.convertHex x y :: bytes ∧
      inlineUTF8SequenceLength (Lexer.convertHex x y) = bytes.length + 1 ∧ StartsWith text bytes := by
  obtain ⟨hscalar, -, hstarts⟩ := h
  have hfits := fits_encodeUTF8 hscalar
  obtain ⟨byte, bytes, hencode⟩ := List.exists_cons_of_ne_nil (encodeUTF8_ne_nil character)
  rw [hencode] at hfits hstarts
  obtain ⟨-, hdigits, rfl, htext⟩ := startsWith_cons_iff.1 hstarts
  exact ⟨hdigits, bytes, hencode, inlineUTF8SequenceLength_of_matches hfits, htext⟩

/-- **`readCharacter` finds the character whose escapes are there**, and reads no further than the string goes. -/
theorem readCharacter_spec {characters : List UChar} {k : Nat} (hpercent : characters[k]? = some 0x25) :
    ∃ result, readCharacter characters characters.length k = some result ∧
      ∀ character charLen, result = some (character, charLen) ↔
        IsCharacterAt (characters.drop k) character charLen := by
  by_cases hthree : k + 3 ≤ characters.length
  swap
  · refine ⟨none, ?_, fun character charLen => ⟨nofun, fun h => ?_⟩⟩
    · rw [readCharacter, if_pos (by omega)]
      rfl
    · have hle := h.2.2.length_le
      have hpos := List.length_pos_of_ne_nil (encodeUTF8_ne_nil character)
      rw [List.length_drop] at hle
      omega
  obtain ⟨c, x, y, hdrop, hc, hx, hy⟩ := exists_three characters k hthree
  obtain rfl : c = 0x25 := Option.some.inj (hc.symm.trans hpercent)
  rw [hdrop]
  by_cases hx' : isASCIIHexDigit x = true
  swap
  · exact ⟨none, by simp [readCharacter, hx, hx'], fun character charLen => ⟨nofun, fun h => absurd h.of_cons.1.1 hx'⟩⟩
  by_cases hy' : isASCIIHexDigit y = true
  swap
  · exact ⟨none, by simp [readCharacter, hx, hy, hy'],
      fun character charLen => ⟨nofun, fun h => absurd h.of_cons.1.2 hy'⟩⟩
  have hreadSequence : readCharacter characters characters.length k =
      readSequence characters characters.length k (Lexer.convertHex x y) := by
    rw [readCharacter, if_neg (by omega)]
    simp [hx, hy, hx', hy']
  rw [hreadSequence]
  unfold readSequence
  by_cases hroom : inlineUTF8SequenceLength (Lexer.convertHex x y) ≠ 0 ∧
      k + inlineUTF8SequenceLength (Lexer.convertHex x y) * 3 ≤ characters.length
  swap
  · refine ⟨none, ?_, fun character charLen => ⟨nofun, fun h => ?_⟩⟩
    · by_cases hzero : inlineUTF8SequenceLength (Lexer.convertHex x y) = 0
      · simp [hzero]
      · simp only [if_neg hzero]
        rw [if_pos (by omega)]
        rfl
    · obtain ⟨-, bytes, -, hlength, hstarts⟩ := h.of_cons
      have hle := hstarts.length_le
      rw [List.length_drop] at hle
      omega
  obtain ⟨hzero, hroom⟩ := hroom
  obtain ⟨result, hresult, hiff⟩ := readEscapes_spec characters k
    (inlineUTF8SequenceLength (Lexer.convertHex x y) - 1) 1 (by omega)
  simp only [if_neg hzero, hresult, Option.bind_eq_bind, Option.bind_some]
  rw [if_neg (by omega)]
  cases result with
  | none =>
    refine ⟨none, rfl, fun character charLen => ⟨nofun, fun h => ?_⟩⟩
    obtain ⟨-, bytes, -, hlength, hstarts⟩ := h.of_cons
    exact nomatch (hiff bytes).2 ⟨by omega, hstarts⟩
  | some sequence =>
    obtain ⟨hsequence, hstarts⟩ := (hiff sequence).1 rfl
    -- the bytes of a character that is there are those that were read
    have hencode : ∀ {character charLen : Nat}, IsCharacterAt (0x25 :: x :: y :: characters.drop (k + 3)) character charLen →
        encodeUTF8 character = Lexer.convertHex x y :: sequence := by
      intro character charLen h
      obtain ⟨-, bytes, hencode, hlength, hbytes⟩ := h.of_cons
      have hsome := (hiff bytes).2 ⟨by omega, hbytes⟩
      rw [hencode, Option.some.inj hsome]
    have hlength : inlineUTF8SequenceLength (Lexer.convertHex x y) = sequence.length + 1 := by omega
    obtain ⟨hfits, hdecode⟩ | ⟨hfits, hdecode⟩ := decodeUTF8Sequence_eq hlength
    · have hscalar := isScalar_sequenceValue (.inl hfits)
      have hlt : sequenceValue (Lexer.convertHex x y :: sequence) < 0x110000 := by
        unfold IsScalar at hscalar
        omega
      have hback := encodeUTF8_sequenceValue hfits
      refine ⟨some (sequenceValue (Lexer.convertHex x y :: sequence),
        inlineUTF8SequenceLength (Lexer.convertHex x y) * 3), ?_, fun character charLen => ⟨?_, fun h => ?_⟩⟩
      · simp only [hdecode, Option.bind_some]
        rw [if_neg (by omega)]
        rfl
      · intro h
        obtain ⟨rfl, rfl⟩ := Prod.mk.inj (Option.some.inj h)
        refine ⟨hscalar, ?_, ?_⟩
        · rw [hback, List.length_cons, hlength]
          omega
        · rw [hback]
          exact startsWith_cons_iff.2 ⟨rfl, ⟨hx', hy'⟩, rfl, hstarts⟩
      · have hcharacter : sequenceValue (Lexer.convertHex x y :: sequence) = character := by
          rw [← hencode h, sequenceValue_encodeUTF8 h.1]
        rw [hcharacter, h.2.1, hencode h, List.length_cons, hlength, Nat.mul_comm]
    · refine ⟨none, ?_, fun character charLen => ⟨nofun, fun h => ?_⟩⟩
      · simp only [hdecode, Option.bind_some]
        rfl
      · exact absurd (hencode h ▸ fits_encodeUTF8 h.1) hfits

end WebKit.JSC
