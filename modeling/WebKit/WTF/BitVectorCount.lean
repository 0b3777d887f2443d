import WebKit.WTF.BitVectorSteps

/-!
# Counting, comparing and hashing bit vectors

The loops that read the words: the number of bits (`bitCount_spec`) is that of the contents, and equality and the hash
depend on the bits alone (`equals_spec`, `hash_eq`), whatever the sizes and the representations of the vectors are.
-/

namespace WebKit.WTF.BitVector

open WebKit.Lib

variable {v w : BitVector}

theorem readLoop_eq {α : Type} (f : α → UInt64 → α) (words : List UInt64) {n : Nat} (hn : n ≤ words.length)
    (result : α) : readLoop f words n result = some ((words.take n).foldr (fun word result => f result word) result) := by
  induction n generalizing result with
  | zero => rfl
  | succ n ih =>
    have htake : words.take (n + 1) = words.take n ++ [words[n]] := List.take_succ_eq_append_getElem hn
    rw [readLoop, List.getElem?_eq_getElem hn, Option.bind_eq_bind, Option.bind_some, ih (Nat.le_of_succ_le hn), htake,
      List.foldr_append]
    rfl

theorem readLoop_all {α : Type} (f : α → UInt64 → α) {words : List UInt64} (h : (outOfLine words).WellFormed)
    (result : α) : readLoop f words (words.length % 2 ^ 32) result =
      some (words.foldr (fun word result => f result word) result) := by
  have hlt : words.length < 2 ^ 26 := h.2
  rw [Nat.mod_eq_of_lt (by omega), readLoop_eq f words (Nat.le_refl _), List.take_length]

/-! ## The number of bits -/

theorem toNat_pairs (bits : UInt32) : (bits - (bits >>> 1 &&& (0x55555555 : UInt32))).toNat = pairs 4 bits.toNat := by
  have hand : (bits >>> 1 &&& (0x55555555 : UInt32)).toNat = (bits.toNat / 2 &&& repeated 0x55 4) := by
    rw [UInt32.toNat_and, UInt32.toNat_shiftRight, Nat.shiftRight_eq_div_pow]
    rfl
  have hle : (bits >>> 1 &&& (0x55555555 : UInt32)) ≤ bits := by
    rw [UInt32.le_iff_toNat_le, hand]
    exact Nat.and_le_left.trans (Nat.div_le_self _ _)
  rw [UInt32.toNat_sub_of_le _ _ hle, hand]
  rfl

/-- Those of the groups of four bits, which are added without a carry. -/
theorem toNat_nibbles (x : UInt32) :
    ((x &&& (0x33333333 : UInt32)) + (x >>> 2 &&& (0x33333333 : UInt32)) : UInt32).toNat = nibbles 4 x.toNat ∧
      nibbles 4 x.toNat ≤ 0x66666666 := by
  have hlow : (x &&& 0x33333333).toNat ≤ 0x33333333 := by
    rw [UInt32.toNat_and]
    exact Nat.and_le_right
  have hhigh : (x >>> 2 &&& (0x33333333 : UInt32)).toNat ≤ 0x33333333 := by
    rw [UInt32.toNat_and]
    exact Nat.and_le_right
  have hsum : nibbles 4 x.toNat = (x &&& 0x33333333).toNat + (x >>> 2 &&& (0x33333333 : UInt32)).toNat := by
    rw [UInt32.toNat_and, UInt32.toNat_and, UInt32.toNat_shiftRight, Nat.shiftRight_eq_div_pow]
    rfl
  rw [UInt32.toNat_add, hsum]
  omega

theorem toNat_bytes {x : UInt32} (hx : x.toNat ≤ 0x66666666) :
    ((x + x >>> 4) &&& (0xF0F0F0F : UInt32)).toNat = bytes 4 x.toNat := by
  have hshift : (x >>> 4).toNat = x.toNat / 16 := by
    rw [UInt32.toNat_shiftRight, Nat.shiftRight_eq_div_pow]
    rfl
  rw [UInt32.toNat_and, UInt32.toNat_add, hshift, Nat.mod_eq_of_lt (by omega)]
  rfl

theorem bitCount32_eq (bits : UInt32) : (bitCount32 bits).toNat = popCount 32 bits.toNat := by
  obtain ⟨heq, hle⟩ := toNat_nibbles (bits - (bits >>> 1 &&& (0x55555555 : UInt32)))
  rw [← heq] at hle
  rw [← popCount_eq_swar, ← toNat_pairs, ← heq, ← toNat_bytes hle, bitCount32, UInt32.toNat_shiftRight,
    UInt32.toNat_mul, Nat.shiftRight_eq_div_pow]
  rfl

theorem bitCount64_eq (bits : UInt64) : bitCount64 bits = popCount 64 bits.toNat := by
  have hlow : bits.toUInt32.toNat = bits.toNat % 2 ^ 32 := UInt64.toNat_toUInt32 bits
  have hhigh : (bits >>> 32).toUInt32.toNat = bits.toNat / 2 ^ 32 % 2 ^ 32 := by
    rw [UInt64.toNat_toUInt32, UInt64.toNat_shiftRight, Nat.shiftRight_eq_div_pow]
    rfl
  rw [bitCount64, bitCount32_eq, bitCount32_eq, hlow, hhigh, popCount_mod, popCount_mod]
  exact (popCount_add 32 32 bits.toNat).symm

/-- **`bitCount` is the number of the bits.** -/
theorem bitCount_spec (h : v.WellFormed) : v.bitCount = some (countBits v.contents) := by
  cases v with
  | inlineBits bits => rw [bitCount, bitCount64_eq, contents, countBits, List.map_singleton, List.sum_singleton]
  | outOfLine words =>
    rw [bitCount, readLoop_all _ h]
    apply congrArg some
    rw [contents]
    clear h
    induction words with
    | nil => rfl
    | cons word words ih =>
      rw [List.foldr_cons, ih, bitCount64_eq, Nat.add_comm]
      rfl

/-! ## Equality and hash -/

theorem equalsLoop_spec (hv : v.WellFormed) (hw : w.WellFormed) (n : Nat) :
    equalsLoop v w n = some (decide (∀ i < n, v.bit i = w.bit i)) := by
  induction n with
  | zero =>
    rw [equalsLoop, decide_eq_true]
    intro i hi
    exact absurd hi (Nat.not_lt_zero i)
  | succ n ih =>
    simp only [equalsLoop, get_spec hv, get_spec hw, Option.bind_eq_bind, Option.bind_some, ih]
    by_cases hn : v.bit n = w.bit n
    · rw [if_neg (not_not_intro hn)]
      apply congrArg some
      apply Bool.decide_congr
      constructor
      · intro h i hi
        by_cases hin : i = n
        · exact hin ▸ hn
        · exact h i (by omega)
      · exact fun h i hi => h i (by omega)
    · rw [if_pos hn, decide_eq_false]
      exact fun h => hn (h n (Nat.lt_succ_self n))

/-- **`operator==` compares the bits**, whatever the sizes are. -/
theorem equals_spec (hv : v.WellFormed) (hw : w.WellFormed) :
    ∃ result, v.equals w = some result ∧ (result = true ↔ ∀ i, v.bit i = w.bit i) := by
  have hloop : ∃ result, equalsLoop v w (max v.size w.size % 2 ^ 32) = some result ∧
      (result = true ↔ ∀ i, v.bit i = w.bit i) := by
    have hsize := size_le hv
    have hsize' := size_le hw
    rw [Nat.mod_eq_of_lt (by omega), equalsLoop_spec hv hw]
    refine ⟨_, rfl, ?_⟩
    rw [decide_eq_true_iff]
    constructor
    · intro h i
      by_cases hi : i < max v.size w.size
      · exact h i hi
      · rw [bit_eq_false (v := v) (by omega), bit_eq_false (v := w) (by omega)]
    · exact fun h i _ => h i
  cases v with
  | inlineBits bits =>
    cases w with
    | inlineBits otherBits =>
      refine ⟨_, rfl, ?_⟩
      rw [decide_eq_true_iff]
      constructor
      · rintro rfl i
        rfl
      · intro h
        apply eq_of_testBit
        intro k hk
        by_cases hk63 : k < 63
        · rw [← bit_inlineBits_of_lt bits hk63, ← bit_inlineBits_of_lt otherBits hk63, h]
        · obtain rfl : k = 63 := by omega
          exact Eq.trans hv (Eq.symm hw)
    | outOfLine words => exact hloop
  | outOfLine words => exact hloop

/-- **The hash depends on the bits alone.** -/
theorem hash_spec (h : v.WellFormed) : v.hash = some (intHash (xorWords v.contents)) := by
  cases v with
  | inlineBits bits => rw [hash, contents, xorWords, List.foldr_cons, List.foldr_nil, UInt64.xor_zero]
  | outOfLine words =>
    have hxor : words.foldr (fun word result => result ^^^ word) 0 = xorWords words := by
      rw [xorWords]
      apply congrArg (fun f => List.foldr f 0 words)
      funext x y
      exact UInt64.xor_comm y x
    rw [hash, readLoop_all _ h, hxor]
    rfl

theorem hash_eq (hv : v.WellFormed) (hw : w.WellFormed) (h : ∀ i, v.bit i = w.bit i) :
    ∃ value, v.hash = some value ∧ w.hash = some value := by
  refine ⟨_, hash_spec hv, ?_⟩
  rw [hash_spec hw, xorWords_eq h]

end WebKit.WTF.BitVector
