import WebKit.Lib.PackedBits
import WebKit.WTF.BitVector

/-!
# The operations on a bit vector

`contents` are the words of a vector without the flag. A vector of at most 2 ^ 32 - 64 bits (`WellFormed`) shows the bits
of its contents (`get_spec`), and each operation leads to a vector whose bits are those of the operands: one bit changed
(`set_spec`, `clear_spec`), fewer bits (`resize_spec`), or the same bits (`ensureSize_spec`, `copy_spec`, `swap_spec`).
-/

namespace WebKit.WTF.BitVector

open WebKit.Lib

/-- The words without the flag. -/
def contents : BitVector → List UInt64
  | inlineBits bits => [cleanseInlineBits bits]
  | outOfLine words => words

/-- What every operation keeps: the flag is set, and the number of words is one that `create` can allocate. -/
def WellFormed : BitVector → Prop
  | inlineBits bits => bits.toNat.testBit 63 = true
  | outOfLine words => 0 < words.length ∧ words.length < 2 ^ 26

/-- Bit `i` of the vector. -/
abbrev bit (v : BitVector) (i : Nat) : Bool := bitAt v.contents i

/-! ## Words -/

theorem testBit_inlineFlag (j : Nat) : inlineFlag.toNat.testBit j = decide (63 = j) := testBit_mask (by decide) j

theorem testBit_cleanseInlineBits (bits : UInt64) (j : Nat) :
    (cleanseInlineBits bits).toNat.testBit j = (bits.toNat.testBit j && !decide (63 = j)) := by
  rw [cleanseInlineBits, testBit_and_not, testBit_inlineFlag]

theorem testBit_makeInlineBits (bits : UInt64) (j : Nat) :
    (makeInlineBits bits).toNat.testBit j = (bits.toNat.testBit j || decide (63 = j)) := by
  rw [makeInlineBits, testBit_or, testBit_inlineFlag]

theorem bit_inlineBits (bits : UInt64) (i : Nat) :
    (inlineBits bits).bit i = (bits.toNat.testBit i && !decide (63 = i)) := by
  rw [bit, contents, bitAt_singleton, testBit_cleanseInlineBits]

theorem bit_inlineBits_of_lt (bits : UInt64) {i : Nat} (hi : i < 63) : (inlineBits bits).bit i = bits.toNat.testBit i := by
  rw [bit_inlineBits, decide_eq_false (by omega), Bool.not_false, Bool.and_true]

theorem bit_outOfLine_cons (word : UInt64) (rest : List UInt64) {i : Nat} (hi : i < 64) :
    (outOfLine (word :: rest)).bit i = word.toNat.testBit i := by
  rw [bit, contents, bitAt, Nat.div_eq_of_lt hi, Nat.mod_eq_of_lt hi, List.getD_cons_zero]

theorem mask_eq (i : Nat) : mask i = (1 : UInt64) <<< UInt64.ofNat (i % 64) := by
  rw [mask, show bitsInPointer - 1 = 2 ^ 6 - 1 from rfl, Nat.and_two_pow_sub_one_eq_mod]

theorem testBit_mask_eq (i j : Nat) : (mask i).toNat.testBit j = decide (i % 64 = j) := by
  rw [mask_eq, testBit_mask (Nat.mod_lt i (by decide))]

variable {v w : BitVector}

theorem size_le (h : v.WellFormed) : v.size ≤ 2 ^ 32 - 64 := by
  cases v with
  | inlineBits bits => exact (by decide : 63 ≤ 2 ^ 32 - 64)
  | outOfLine words =>
    rw [size, bitsInPointer]
    have := h.2
    omega

theorem bit_eq_false {i : Nat} (hi : v.size ≤ i) : v.bit i = false := by
  cases v with
  | inlineBits bits =>
    rw [bit_inlineBits]
    by_cases h63 : 63 = i
    · rw [decide_eq_true h63, Bool.not_true, Bool.and_false]
    · have hle : 63 ≤ i := hi
      rw [testBit_eq_false_of_le bits (by omega), Bool.false_and]
  | outOfLine words => exact bitAt_eq_false hi

theorem word_spec (h : v.WellFormed) {b : Nat} (hb : b < v.size) :
    ∃ word, v.readWord (b / bitsInPointer) = some word ∧ word.toNat.testBit (b % 64) = v.bit b ∧
      ∀ (word' : UInt64) (value : Bool),
        (∀ j, word'.toNat.testBit j = if b % 64 = j then value else word.toNat.testBit j) →
        ∃ v' : BitVector, v.writeWord (b / bitsInPointer) word' = some v' ∧ v'.WellFormed ∧ v'.size = v.size ∧
          ∀ i, v'.bit i = if b = i then value else v.bit i := by
  cases v with
  | inlineBits bits =>
    have hb63 : b < 63 := hb
    have hdiv : b / bitsInPointer = 0 := Nat.div_eq_of_lt (by rw [bitsInPointer]; omega)
    have hmod : b % 64 = b := Nat.mod_eq_of_lt (by omega)
    refine ⟨bits, ?_, ?_, ?_⟩
    · rw [hdiv, readWord, if_pos rfl]
    · rw [bit_inlineBits, hmod, decide_eq_false (by omega), Bool.not_false, Bool.and_true]
    · intro word' value hword'
      refine ⟨inlineBits word', ?_, ?_, rfl, ?_⟩
      · rw [hdiv, writeWord, if_pos rfl]
      · rw [WellFormed, hword', hmod, if_neg (by omega)]
        exact h
      · intro i
        rw [bit_inlineBits, bit_inlineBits, hword', hmod]
        split_ifs with hbi
        · rw [decide_eq_false (by omega), Bool.not_false, Bool.and_true]
        · rfl
  | outOfLine words =>
    have hlt : b / 64 < words.length := by
      rw [size, bitsInPointer] at hb
      omega
    refine ⟨words[b / 64], ?_, ?_, ?_⟩
    · exact List.getElem?_eq_getElem hlt
    · rw [bit, contents, bitAt, List.getD_eq_getElem _ _ hlt]
    · intro word' value hword'
      refine ⟨outOfLine (words.set (b / 64) word'), ?_, ?_, ?_, ?_⟩
      · exact if_pos hlt
      · rw [WellFormed, List.length_set]
        exact h
      · rw [size, size, List.length_set]
      · intro i
        rw [bit, contents, bitAt_set hlt]
        by_cases hdiv : b / 64 = i / 64
        · rw [if_pos hdiv, hword', bit, contents, bitAt, ← hdiv, List.getD_eq_getElem _ _ hlt]
          by_cases hmod : b % 64 = i % 64
          · rw [if_pos hmod, if_pos (by omega)]
          · rw [if_neg hmod, if_neg (by omega)]
        · rw [if_neg hdiv, if_neg (by rintro rfl; exact hdiv rfl)]
          rfl

theorem decide_mask (word : UInt64) (i : Nat) : decide (word &&& mask i ≠ 0) = word.toNat.testBit (i % 64) := by
  rw [mask_eq, Bool.decide_congr (and_mask_ne_zero (Nat.mod_lt i (by decide)) word), Bool.decide_eq_true]

/-- **A vector shows the bits of its contents.** -/
theorem get_spec (h : v.WellFormed) (i : Nat) : v.get i = some (v.bit i) := by
  rw [get]
  split_ifs with hi
  · rw [bit_eq_false hi]
  · obtain ⟨word, hread, hbit, -⟩ := word_spec h (Nat.lt_of_not_le hi)
    rw [quickGet, hread, ← hbit, ← decide_mask]
    rfl

theorem quickSet_spec (h : v.WellFormed) {b : Nat} (hb : b < v.size) :
    ∃ v' : BitVector, v.quickSet b = some (v', v.bit b) ∧ v'.WellFormed ∧ v'.size = v.size ∧
      ∀ i, v'.bit i = if b = i then true else v.bit i := by
  obtain ⟨word, hread, hbit, hwrite⟩ := word_spec h hb
  obtain ⟨v', hv', hrest⟩ := hwrite (word ||| mask b) true (by
    intro j
    rw [testBit_or, testBit_mask_eq]
    split_ifs with hj
    · rw [decide_eq_true hj, Bool.or_true]
    · rw [decide_eq_false hj, Bool.or_false])
  refine ⟨v', ?_, hrest⟩
  rw [← hbit, ← decide_mask]
  simp only [quickSet, hread, Option.bind_eq_bind, Option.bind_some, hv']
  rfl

theorem quickClear_spec (h : v.WellFormed) {b : Nat} (hb : b < v.size) :
    ∃ v' : BitVector, v.quickClear b = some (v', v.bit b) ∧ v'.WellFormed ∧ v'.size = v.size ∧
      ∀ i, v'.bit i = if b = i then false else v.bit i := by
  obtain ⟨word, hread, hbit, hwrite⟩ := word_spec h hb
  obtain ⟨v', hv', hrest⟩ := hwrite (word &&& ~~~mask b) false (by
    intro j
    rw [testBit_and_not, testBit_mask_eq]
    split_ifs with hj
    · rw [decide_eq_true hj, Bool.not_true, Bool.and_false]
    · rw [decide_eq_false hj, Bool.not_false, Bool.and_true])
  refine ⟨v', ?_, hrest⟩
  rw [← hbit, ← decide_mask]
  simp only [quickClear, hread, Option.bind_eq_bind, Option.bind_some, hv']
  rfl

/-! ## Sizes -/

theorem numWordsFor_eq {n : Nat} (hn : n ≤ 2 ^ 32 - 64) : numWordsFor n = (n + 63) / 64 := by
  have hmod : (n + 63) % 2 ^ 64 = n + 63 := Nat.mod_eq_of_lt (by omega)
  have hlt : (n + 63) / 2 ^ 6 < 2 ^ 26 := by omega
  have hsub : n + 64 - 1 = n + 63 := by omega
  have hmask : (2 ^ 32 - 1 - (2 ^ 6 - 1)) / 2 ^ 6 = 2 ^ 26 - 1 := by decide
  rw [numWordsFor, bitsInPointer, hsub, hmod, show (64 : Nat) = 2 ^ 6 from rfl, Nat.and_div_two_pow, hmask,
    Nat.and_two_pow_sub_one_eq_mod, Nat.mod_eq_of_lt hlt]

theorem allocate_eq {n : Nat} {written : List UInt64} (h : written.length = n) :
    allocate n written = some (outOfLine written) := if_pos h

theorem getD_append_replicate (words : List UInt64) (n k : Nat) :
    (words ++ List.replicate n 0).getD k 0 = words.getD k 0 := by
  rw [List.getD_eq_getElem?_getD, List.getD_eq_getElem?_getD, List.getElem?_append]
  split_ifs with hk
  · rfl
  · rw [List.getElem?_eq_none (Nat.le_of_not_lt hk), List.getElem?_replicate]
    split_ifs <;> rfl

theorem resizeOutOfLine_spec (h : v.WellFormed) {n : Nat} (hsize : 63 < n) (hn : n ≤ 2 ^ 32 - 64) :
    ∃ words, v.resizeOutOfLine n = some (outOfLine words) ∧ words.length = (n + 63) / 64 ∧
      ∀ i < 64 * ((n + 63) / 64), bitAt words i = v.bit i := by
  rw [resizeOutOfLine.eq_def, numWordsFor_eq hn]
  generalize hnew : (n + 63) / 64 = new
  cases v with
  | inlineBits bits =>
    have hlength : (cleanseInlineBits bits :: List.replicate (new - 1) 0).length = new := by
      rw [List.length_cons, List.length_replicate]
      omega
    refine ⟨_, allocate_eq hlength, hlength, ?_⟩
    intro i _
    have happend : cleanseInlineBits bits :: List.replicate (new - 1) 0 =
        [cleanseInlineBits bits] ++ List.replicate (new - 1) 0 := rfl
    rw [happend, bitAt, getD_append_replicate]
    rfl
  | outOfLine words =>
    by_cases hgrow : 64 * words.length < n
    · have hlength : (words ++ List.replicate (new - words.length) 0).length = new := by
        rw [List.length_append, List.length_replicate]
        omega
      refine ⟨_, (if_pos hgrow).trans (allocate_eq hlength), hlength, ?_⟩
      intro i _
      rw [bitAt, getD_append_replicate]
      rfl
    · have hlength : (words.take new).length = new := by
        rw [List.length_take]
        omega
      refine ⟨_, (if_neg hgrow).trans (allocate_eq hlength), hlength, ?_⟩
      intro i hi
      rw [bitAt, List.getD_eq_getElem?_getD, List.getElem?_take, if_pos (by omega), ← List.getD_eq_getElem?_getD]
      rfl

/-- The bits are kept when the vector does not get smaller. -/
theorem grow_spec (h : v.WellFormed) {n : Nat} (hsize : v.size < n) (hn : n ≤ 2 ^ 32 - 64) :
    ∃ words, v.resizeOutOfLine n = some (outOfLine words) ∧ words.length = (n + 63) / 64 ∧
      ∀ i, bitAt words i = v.bit i := by
  have h63 : 63 ≤ v.size := by
    cases v with
    | inlineBits bits => exact Nat.le_refl 63
    | outOfLine words =>
      have := h.1
      rw [size, bitsInPointer]
      omega
  obtain ⟨words, hresize, hlength, hbits⟩ := resizeOutOfLine_spec h (by omega) hn
  refine ⟨words, hresize, hlength, ?_⟩
  intro i
  by_cases hi : i < 64 * ((n + 63) / 64)
  · exact hbits i hi
  · rw [bitAt_eq_false (by omega), bit_eq_false (by omega)]

theorem wellFormed_outOfLine {words : List UInt64} {n : Nat} (hlength : words.length = (n + 63) / 64) (hpos : 0 < n)
    (hn : n ≤ 2 ^ 32 - 64) : (outOfLine words).WellFormed := by
  rw [WellFormed]
  omega

theorem ensureSize_spec (h : v.WellFormed) {n : Nat} (hn : n ≤ 2 ^ 32 - 64) :
    ∃ v' : BitVector, v.ensureSize n = some v' ∧ v'.WellFormed ∧ n ≤ v'.size ∧ ∀ i, v'.bit i = v.bit i := by
  rw [ensureSize]
  split_ifs with hle
  · exact ⟨v, rfl, h, hle, fun _ => rfl⟩
  · obtain ⟨words, hresize, hlength, hbits⟩ := grow_spec h (Nat.lt_of_not_le hle) hn
    refine ⟨outOfLine words, hresize, wellFormed_outOfLine hlength (by omega) hn, ?_, hbits⟩
    rw [size, bitsInPointer]
    omega

/-- The size that `resize` leads to. -/
def roundedSize (numBits : Nat) : Nat := if numBits ≤ 63 then 63 else 64 * ((numBits + 63) / 64)

/-- **What is kept are the bits below the new size.** -/
theorem resize_spec (h : v.WellFormed) {n : Nat} (hn : n ≤ 2 ^ 32 - 64) :
    ∃ v' : BitVector, v.resize n = some v' ∧ v'.WellFormed ∧ v'.size = roundedSize n ∧
      ∀ i, v'.bit i = (decide (i < roundedSize n) && v.bit i) := by
  rw [resize.eq_def, roundedSize]
  by_cases hsmall : n ≤ 63
  · rw [if_pos (show n ≤ maxInlineBits from hsmall), if_pos hsmall]
    cases v with
    | inlineBits bits =>
      refine ⟨inlineBits bits, rfl, h, rfl, ?_⟩
      intro i
      by_cases hi : i < 63
      · rw [decide_eq_true hi, Bool.true_and]
      · rw [bit_eq_false (Nat.le_of_not_lt hi), Bool.and_false]
    | outOfLine words =>
      obtain ⟨word, rest, rfl⟩ := List.exists_cons_of_length_pos h.1
      refine ⟨inlineBits (makeInlineBits word), rfl, ?_, rfl, ?_⟩
      · rw [WellFormed, testBit_makeInlineBits, decide_eq_true rfl, Bool.or_true]
      · intro i
        by_cases hi : i < 63
        · rw [bit_inlineBits_of_lt _ hi, testBit_makeInlineBits, bit_outOfLine_cons word rest (by omega),
            decide_eq_true hi, decide_eq_false (by omega), Bool.or_false, Bool.true_and]
        · rw [decide_eq_false hi, Bool.false_and]
          exact bit_eq_false (Nat.le_of_not_lt hi)
  · rw [if_neg (show ¬ n ≤ maxInlineBits from hsmall), if_neg hsmall]
    obtain ⟨words, hresize, hlength, hbits⟩ := resizeOutOfLine_spec h (Nat.lt_of_not_le hsmall) hn
    refine ⟨outOfLine words, hresize, wellFormed_outOfLine hlength (by omega) hn, ?_, ?_⟩
    · rw [size, bitsInPointer, hlength]
    · intro i
      by_cases hi : i < 64 * ((n + 63) / 64)
      · rw [decide_eq_true hi, Bool.true_and]
        exact hbits i hi
      · rw [decide_eq_false hi, Bool.false_and]
        exact bit_eq_false (by rw [size, bitsInPointer, hlength]; exact Nat.le_of_not_lt hi)

/-! ## Bits -/

theorem wellFormed_empty : (inlineBits (makeInlineBits 0)).WellFormed := by
  rw [WellFormed, testBit_makeInlineBits, decide_eq_true rfl, Bool.or_true]

theorem bit_empty (i : Nat) : (inlineBits (makeInlineBits 0)).bit i = false := by
  rw [bit_inlineBits, testBit_makeInlineBits, UInt64.toNat_zero, Nat.zero_testBit, Bool.false_or, Bool.and_not_self]

theorem create_spec {n : Nat} (hn : n ≤ 2 ^ 32 - 64) :
    ∃ v' : BitVector, create n = some v' ∧ v'.WellFormed ∧ n ≤ v'.size ∧ ∀ i, v'.bit i = false := by
  obtain ⟨v', hv', hwf, hle, hbits⟩ := ensureSize_spec wellFormed_empty hn
  exact ⟨v', hv', hwf, hle, fun i => (hbits i).trans (bit_empty i)⟩

theorem set_spec (h : v.WellFormed) {b : Nat} (hb : b + 1 ≤ 2 ^ 32 - 64) :
    ∃ v' : BitVector, v.set b = some (v', v.bit b) ∧ v'.WellFormed ∧ ∀ i, v'.bit i = if b = i then true else v.bit i := by
  have hmod : (b + 1) % 2 ^ 64 = b + 1 := Nat.mod_eq_of_lt (by omega)
  obtain ⟨u, hu, hwf, hle, hbits⟩ := ensureSize_spec h hb
  obtain ⟨v', hv', hwf', -, hbits'⟩ := quickSet_spec hwf hle
  refine ⟨v', ?_, hwf', ?_⟩
  · rw [set, hmod, hu, ← hbits]
    exact hv'
  · intro i
    rw [hbits', hbits]

theorem clear_spec (h : v.WellFormed) (b : Nat) :
    ∃ v' : BitVector, v.clear b = some (v', v.bit b) ∧ v'.WellFormed ∧
      ∀ i, v'.bit i = if b = i then false else v.bit i := by
  rw [clear]
  split_ifs with hb
  · refine ⟨v, by rw [bit_eq_false hb], h, ?_⟩
    intro i
    split_ifs with hi
    · subst hi
      exact bit_eq_false hb
    · rfl
  · obtain ⟨v', hv', hwf, -, hbits⟩ := quickClear_spec h (Nat.lt_of_not_le hb)
    exact ⟨v', hv', hwf, hbits⟩

theorem setValue_spec (h : v.WellFormed) {b : Nat} {value : Bool} (hb : value = true → b + 1 ≤ 2 ^ 32 - 64) :
    ∃ v' : BitVector, v.setValue b value = some (v', v.bit b) ∧ v'.WellFormed ∧
      ∀ i, v'.bit i = if b = i then value else v.bit i := by
  cases value with
  | true => exact set_spec h (hb rfl)
  | false => exact clear_spec h b

theorem clearAll_spec (h : v.WellFormed) : v.clearAll.WellFormed ∧ ∀ i, v.clearAll.bit i = false := by
  cases v with
  | inlineBits bits => exact ⟨wellFormed_empty, bit_empty⟩
  | outOfLine words =>
    refine ⟨?_, ?_⟩
    · rw [clearAll, WellFormed, List.length_replicate]
      exact h
    · intro i
      have hnil : (List.replicate words.length (0 : UInt64)).getD (i / 64) 0 = 0 :=
        getD_append_replicate [] words.length (i / 64)
      rw [bit, clearAll, contents, bitAt, hnil]
      exact Nat.zero_testBit _

/-! ## Copies -/

theorem setSlow_spec (h : v.WellFormed) : v.setSlow = some v := by
  cases v with
  | inlineBits bits => rfl
  | outOfLine words =>
    have hlt := h.2
    have hwords : numWordsFor (64 * words.length) = words.length := by
      rw [numWordsFor_eq (by omega)]
      omega
    exact allocate_eq hwords.symm

theorem assign_spec (v : BitVector) (h : w.WellFormed) : v.assign w = some w := by
  cases v with
  | inlineBits bits =>
    cases w with
    | inlineBits otherBits => rfl
    | outOfLine words => exact setSlow_spec h
  | outOfLine words => exact setSlow_spec h

theorem copy_spec (h : v.WellFormed) : v.copy = some v := assign_spec _ h

theorem swap_spec (hv : v.WellFormed) (hw : w.WellFormed) : v.swap w = some (w, v) := by
  simp only [swap, copy_spec hv, assign_spec v hw, assign_spec w hv, Option.bind_eq_bind, Option.bind_some]
  rfl

end WebKit.WTF.BitVector
