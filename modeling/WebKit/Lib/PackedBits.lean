import Mathlib.Algebra.BigOperators.Group.Finset.Basic
import Mathlib.Data.Nat.Bitwise
import Mathlib.Order.Interval.Finset.Nat
import Mathlib.Tactic.Ring

/-!
# Bits packed into words

`popCount n v` is the number of bits of `v` below `n` (`card_filter_testBit`). The bits of a word can be counted in
groups of two, four and eight (`pairs`, `nibbles`, `bytes`), and the counts of the bytes added by a multiplication
(`popCount_eq_swar`).

`bitAt words i` is bit `i` of a list of 64-bit words, `false` behind the last word. The bits of the operations on words
(`testBit_or`, `testBit_and`, `testBit_and_not`, `testBit_mask`), the number of bits that are set
(`card_eq_countBits`), and words whose bits agree: they have the same exclusive or (`xorWords_eq`).
-/

namespace WebKit.Lib

/-! ## Counting bits in parallel -/

section

/-- The number of bits of `v` below `n`. -/
@[grind =] def popCount : Nat → Nat → Nat
  | 0, _ => 0
  | n + 1, v => v % 2 + popCount n (v / 2)

theorem popCount_succ_last (n v : Nat) : popCount (n + 1) v = popCount n v + (v.testBit n).toNat := by
  induction n generalizing v with
  | zero =>
    rw [popCount, popCount, Nat.testBit_zero]
    cases Nat.mod_two_eq_zero_or_one v with
    | inl h => simp [h, popCount]
    | inr h => simp [h, popCount]
  | succ n ih => rw [popCount, ih, popCount, Nat.testBit_succ, Nat.add_assoc]

/-- **The count is the cardinality of the set of bits.** -/
theorem card_filter_testBit (n v : Nat) : ((Finset.range n).filter fun i => v.testBit i = true).card = popCount n v := by
  induction n with
  | zero => rfl
  | succ n ih =>
    rw [Finset.range_add_one, Finset.filter_insert, popCount_succ_last, ← ih]
    cases h : v.testBit n with
    | false => simp
    | true => rw [if_pos rfl, Finset.card_insert_of_notMem (by simp)]; rfl

theorem popCount_add (m n v : Nat) : popCount (m + n) v = popCount m v + popCount n (v / 2 ^ m) := by
  induction m generalizing v with
  | zero => simp [popCount]
  | succ m ih =>
    rw [Nat.succ_add, popCount, ih, popCount, Nat.div_div_eq_div_mul, ← Nat.pow_succ', Nat.add_assoc]

theorem popCount_mod (n v : Nat) : popCount n (v % 2 ^ n) = popCount n v := by
  induction n generalizing v with
  | zero => rfl
  | succ n ih =>
    have hlow : v % 2 ^ (n + 1) % 2 = v % 2 := Nat.mod_mod_of_dvd v (Dvd.intro_left (2 ^ n) rfl)
    have hhigh : v % 2 ^ (n + 1) / 2 = v / 2 % 2 ^ n := by rw [Nat.pow_succ', Nat.mod_mul_right_div_self]
    rw [popCount, popCount, hlow, hhigh, ih]

/-! ## Groups of bits -/

/-- The byte `m`, `k` times. -/
@[grind =] def repeated (m : Nat) : Nat → Nat
  | 0 => 0
  | k + 1 => m + 256 * repeated m k

theorem and_bytes {a c : Nat} (ha : a < 256) (hc : c < 256) (b d : Nat) :
    (a + 256 * b) &&& (c + 256 * d) = (a &&& c) + 256 * (b &&& d) := by
  have hmod : ((a + 256 * b) &&& (c + 256 * d)) % 2 ^ 8 = a &&& c := by
    rw [Nat.and_mod_two_pow, Nat.add_mul_mod_self_left, Nat.add_mul_mod_self_left, Nat.mod_eq_of_lt ha,
      Nat.mod_eq_of_lt hc]
  have hdiv : ((a + 256 * b) &&& (c + 256 * d)) / 2 ^ 8 = b &&& d := by
    rw [Nat.and_div_two_pow]
    congr 1 <;> omega
  rw [← Nat.mod_add_div ((a + 256 * b) &&& (c + 256 * d)) (2 ^ 8), hmod, hdiv]
  rfl

/-- Counts in groups of two bits. -/
def pairs (k v : Nat) : Nat := v - (v / 2 &&& repeated 0x55 k)

/-- Counts in groups of four bits. -/
def nibbles (k v : Nat) : Nat := (v &&& repeated 0x33 k) + (v / 4 &&& repeated 0x33 k)

/-- Counts in bytes. -/
def bytes (k v : Nat) : Nat := v + v / 16 &&& repeated 0x0F k

theorem byte_facts : ∀ a < 256, (∀ e < 2, (a / 2 + 128 * e &&& 0x55) = a / 2 &&& 0x55) ∧
    (∀ e < 4, (pairs 1 a / 4 + 64 * e &&& 0x33) = pairs 1 a / 4 &&& 0x33) ∧ pairs 1 a < 256 ∧
    nibbles 1 (pairs 1 a) ≤ 0x44 ∧ nibbles 1 (pairs 1 a) % 16 ≤ 4 ∧
    bytes 1 (nibbles 1 (pairs 1 a)) = popCount 8 a ∧ popCount 8 a ≤ 8 := by
  decide +kernel

theorem pairs_succ {a : Nat} (ha : a < 256) (k w : Nat) : pairs (k + 1) (a + 256 * w) = pairs 1 a + 256 * pairs k w := by
  obtain ⟨hcarry, -⟩ := byte_facts a ha
  have hhalf : (a + 256 * w) / 2 = (a / 2 + 128 * (w % 2)) + 256 * (w / 2) := by omega
  have hlow := hcarry (w % 2) (Nat.mod_lt w (by decide))
  have hle : a / 2 &&& 0x55 ≤ a := Nat.and_le_left.trans (Nat.div_le_self a 2)
  have hle' : w / 2 &&& repeated 0x55 k ≤ w := Nat.and_le_left.trans (Nat.div_le_self w 2)
  rw [pairs, pairs, pairs, hhalf, repeated, and_bytes (by omega) (by decide), hlow]
  simp only [repeated, Nat.mul_zero, Nat.add_zero]
  omega

theorem nibbles_succ {a : Nat} (ha : a < 256) (k w : Nat) :
    nibbles (k + 1) (pairs 1 a + 256 * w) = nibbles 1 (pairs 1 a) + 256 * nibbles k w := by
  obtain ⟨-, hcarry, hlt, -⟩ := byte_facts a ha
  generalize pairs 1 a = p at hcarry hlt ⊢
  have hquarter : (p + 256 * w) / 4 = (p / 4 + 64 * (w % 4)) + 256 * (w / 4) := by omega
  have hlow := hcarry (w % 4) (Nat.mod_lt w (by decide))
  rw [nibbles, nibbles, nibbles, hquarter, repeated, and_bytes hlt (by decide), and_bytes (by omega) (by decide), hlow]
  simp only [repeated, Nat.mul_zero, Nat.add_zero]
  ring

theorem bytes_succ {p : Nat} (hp : p ≤ 0x44) (hlow : p % 16 ≤ 4) (k : Nat) {w : Nat} (hw : w % 16 ≤ 4) :
    bytes (k + 1) (p + 256 * w) = bytes 1 p + 256 * bytes k w := by
  have hsum : p + 256 * w + (p + 256 * w) / 16 = (p + p / 16 + 16 * (w % 16)) + 256 * (w + w / 16) := by omega
  have hmask : ∀ x, x &&& 0x0F = x % 16 := fun x => Nat.and_two_pow_sub_one_eq_mod x 4
  rw [bytes, bytes, bytes, hsum, repeated, and_bytes (by omega) (by decide)]
  simp only [repeated, Nat.mul_zero, Nat.add_zero]
  rw [hmask, hmask]
  omega

/-- The counts of the bytes, one in each byte. -/
@[grind =] def packed : Nat → Nat → Nat
  | 0, _ => 0
  | k + 1, v => popCount 8 (v % 256) + 256 * packed k (v / 256)

theorem nibbles_mod (k v : Nat) : nibbles k (pairs k v) % 16 ≤ 4 := by
  cases k with
  | zero => simp [nibbles, repeated]
  | succ k =>
    have ha : v % 256 < 256 := Nat.mod_lt v (by decide)
    obtain ⟨-, -, -, -, hlow, -⟩ := byte_facts (v % 256) ha
    rw [← Nat.mod_add_div v 256, pairs_succ ha, nibbles_succ ha]
    omega

theorem bytes_eq_packed (k v : Nat) : bytes k (nibbles k (pairs k v)) = packed k v := by
  induction k generalizing v with
  | zero => simp [bytes, repeated, packed]
  | succ k ih =>
    have ha : v % 256 < 256 := Nat.mod_lt v (by decide)
    obtain ⟨-, -, -, hle, hlow, hcount, -⟩ := byte_facts (v % 256) ha
    rw [packed, ← hcount, ← ih]
    conv_lhs => rw [← Nat.mod_add_div v 256]
    rw [pairs_succ ha, nibbles_succ ha, bytes_succ hle hlow k (nibbles_mod k (v / 256))]

theorem popCount_byte_le (v : Nat) : popCount 8 (v % 256) ≤ 8 :=
  (byte_facts (v % 256) (Nat.mod_lt v (by decide))).2.2.2.2.2.2

theorem sum_of_bytes {c0 c1 c2 c3 : Nat} (h0 : c0 ≤ 8) (h1 : c1 ≤ 8) (h2 : c2 ≤ 8) (h3 : c3 ≤ 8) :
    (c0 + 256 * (c1 + 256 * (c2 + 256 * (c3 + 256 * 0)))) * 0x1010101 % 2 ^ 32 / 2 ^ 24 = c0 + (c1 + (c2 + c3)) := by
  have hsplit : (c0 + 256 * (c1 + 256 * (c2 + 256 * (c3 + 256 * 0)))) * 0x1010101 =
      (c0 + 256 * (c0 + c1) + 65536 * (c0 + c1 + c2)) + 2 ^ 24 * (c0 + (c1 + (c2 + c3))) +
        2 ^ 32 * (c1 + c2 + c3 + 256 * (c2 + c3) + 65536 * c3) := by ring
  rw [hsplit, Nat.add_mul_mod_self_left, Nat.mod_eq_of_lt (by omega), Nat.add_mul_div_left _ _ (by decide)]
  omega

/-- **The counts of four bytes are added by a multiplication.** -/
theorem popCount_eq_swar (v : Nat) :
    bytes 4 (nibbles 4 (pairs 4 v)) * 0x1010101 % 2 ^ 32 / 2 ^ 24 = popCount 32 v := by
  have hsplit : popCount 32 v = popCount 8 (v % 256) + (popCount 8 (v / 256 % 256) +
      (popCount 8 (v / 256 / 256 % 256) + popCount 8 (v / 256 / 256 / 256 % 256))) := by
    have hbyte : ∀ x, popCount 8 (x % 256) = popCount 8 x := popCount_mod 8
    rw [hbyte, hbyte, hbyte, hbyte, show (32 : Nat) = 8 + (8 + (8 + 8)) from rfl, popCount_add 8, popCount_add 8,
      popCount_add 8]
    rfl
  rw [bytes_eq_packed, hsplit]
  exact sum_of_bytes (popCount_byte_le _) (popCount_byte_le _) (popCount_byte_le _) (popCount_byte_le _)

end

/-! ## Bits packed into words -/

section

/-! ## One word -/

theorem testBit_eq_false_of_le (w : UInt64) {k : Nat} (hk : 64 ≤ k) : w.toNat.testBit k = false :=
  Nat.testBit_lt_two_pow (w.toNat_lt.trans_le (Nat.pow_le_pow_right (by decide) hk))

theorem testBit_or (a b : UInt64) (k : Nat) : (a ||| b).toNat.testBit k = (a.toNat.testBit k || b.toNat.testBit k) := by
  rw [UInt64.toNat_or, Nat.testBit_or]

theorem testBit_and (a b : UInt64) (k : Nat) :
    (a &&& b).toNat.testBit k = (a.toNat.testBit k && b.toNat.testBit k) := by
  rw [UInt64.toNat_and, Nat.testBit_and]

theorem testBit_not (a : UInt64) {k : Nat} (hk : k < 64) : (~~~a).toNat.testBit k = !a.toNat.testBit k := by
  have hnot : (~~~a).toNat = 2 ^ 64 - (a.toNat + 1) := by
    rw [UInt64.toNat_not, Nat.sub_sub, Nat.add_comm 1]
    rfl
  rw [hnot, Nat.testBit_two_pow_sub_succ a.toNat_lt, decide_eq_true hk, Bool.true_and]

theorem testBit_and_not (a b : UInt64) (k : Nat) :
    (a &&& ~~~b).toNat.testBit k = (a.toNat.testBit k && !b.toNat.testBit k) := by
  rw [testBit_and]
  by_cases hk : k < 64
  · rw [testBit_not b hk]
  · rw [testBit_eq_false_of_le a (Nat.le_of_not_lt hk), Bool.false_and, Bool.false_and]

theorem testBit_mask {k : Nat} (hk : k < 64) (j : Nat) :
    ((1 : UInt64) <<< UInt64.ofNat k).toNat.testBit j = decide (k = j) := by
  have hmask : ((1 : UInt64) <<< UInt64.ofNat k).toNat = 2 ^ k := by
    have hlt : 2 ^ k < 2 ^ 64 := Nat.pow_lt_pow_right (by decide) hk
    rw [UInt64.toNat_shiftLeft, UInt64.toNat_ofNat_of_lt' (hk.trans (by decide)), Nat.mod_eq_of_lt hk, UInt64.toNat_one,
      Nat.one_shiftLeft, Nat.mod_eq_of_lt hlt]
  rw [hmask, Nat.testBit_two_pow]

theorem and_mask_ne_zero {k : Nat} (hk : k < 64) (w : UInt64) :
    (w &&& (1 : UInt64) <<< UInt64.ofNat k ≠ 0) ↔ w.toNat.testBit k = true := by
  constructor
  · intro hne
    by_contra hbit
    apply hne
    apply UInt64.toNat.inj
    apply Nat.eq_of_testBit_eq
    intro j
    rw [testBit_and, testBit_mask hk, UInt64.toNat_zero, Nat.zero_testBit]
    by_cases hj : k = j
    · subst hj
      rw [Bool.eq_false_of_not_eq_true hbit, Bool.false_and]
    · simp [hj]
  · intro hbit hzero
    have hk' : (w &&& (1 : UInt64) <<< UInt64.ofNat k).toNat.testBit k = true := by
      rw [testBit_and, testBit_mask hk, hbit, decide_eq_true rfl, Bool.and_true]
    rw [hzero] at hk'
    simp at hk'

theorem eq_of_testBit {a b : UInt64} (h : ∀ k < 64, a.toNat.testBit k = b.toNat.testBit k) : a = b := by
  apply UInt64.toNat.inj
  apply Nat.eq_of_testBit_eq
  intro k
  by_cases hk : k < 64
  · exact h k hk
  · rw [testBit_eq_false_of_le a (Nat.le_of_not_lt hk), testBit_eq_false_of_le b (Nat.le_of_not_lt hk)]

/-! ## Many words -/

/-- Bit `i` of the words. -/
def bitAt (words : List UInt64) (i : Nat) : Bool := (words.getD (i / 64) 0).toNat.testBit (i % 64)

theorem bitAt_eq_false {words : List UInt64} {i : Nat} (h : 64 * words.length ≤ i) : bitAt words i = false := by
  rw [bitAt, List.getD_eq_default _ _ (by omega)]
  exact Nat.zero_testBit _

theorem bitAt_singleton (w : UInt64) (i : Nat) : bitAt [w] i = w.toNat.testBit i := by
  by_cases hi : i < 64
  · rw [bitAt, Nat.div_eq_of_lt hi, Nat.mod_eq_of_lt hi, List.getD_cons_zero]
  · rw [bitAt_eq_false (Nat.le_of_not_lt hi), testBit_eq_false_of_le w (Nat.le_of_not_lt hi)]

theorem getD_eq_of_bitAt {words words' : List UInt64} (h : ∀ i, bitAt words i = bitAt words' i) (k : Nat) :
    words.getD k 0 = words'.getD k 0 := by
  apply eq_of_testBit
  intro j hj
  have hbit := h (64 * k + j)
  have hdiv : (64 * k + j) / 64 = k := by omega
  have hmod : (64 * k + j) % 64 = j := by omega
  rw [bitAt, bitAt, hdiv, hmod] at hbit
  exact hbit

theorem getD_set {words : List UInt64} {k : Nat} (hk : k < words.length) (w : UInt64) (j : Nat) :
    (words.set k w).getD j 0 = if k = j then w else words.getD j 0 := by
  rw [List.getD_eq_getElem?_getD, List.getElem?_set]
  split_ifs with h
  · rfl
  · rw [List.getD_eq_getElem?_getD]

theorem bitAt_set {words : List UInt64} {k : Nat} (hk : k < words.length) (w : UInt64) (i : Nat) :
    bitAt (words.set k w) i = if k = i / 64 then w.toNat.testBit (i % 64) else bitAt words i := by
  rw [bitAt, getD_set hk]
  split_ifs
  · rfl
  · rfl

/-! ## The number of bits -/

/-- The number whose digits are the words. -/
def ofWords : List UInt64 → Nat
  | [] => 0
  | w :: words => 2 ^ 64 * ofWords words + w.toNat

theorem testBit_ofWords (words : List UInt64) (i : Nat) : (ofWords words).testBit i = bitAt words i := by
  induction words generalizing i with
  | nil => rw [bitAt_eq_false (Nat.zero_le i), ofWords, Nat.zero_testBit]
  | cons w words ih =>
    rw [ofWords, Nat.testBit_two_pow_mul_add _ w.toNat_lt]
    split_ifs with hi
    · rw [bitAt, Nat.div_eq_of_lt hi, Nat.mod_eq_of_lt hi, List.getD_cons_zero]
    · have hdiv : i / 64 = (i - 64) / 64 + 1 := by omega
      have hmod : i % 64 = (i - 64) % 64 := by omega
      rw [ih, bitAt, bitAt, hdiv, hmod, List.getD_cons_succ]

/-- How many bits of the words are set. -/
def countBits (words : List UInt64) : Nat := (words.map fun w => popCount 64 w.toNat).sum

theorem popCount_ofWords (words : List UInt64) : popCount (64 * words.length) (ofWords words) = countBits words := by
  induction words with
  | nil => rfl
  | cons w words ih =>
    have hdiv : ofWords (w :: words) / 2 ^ 64 = ofWords words := by
      rw [ofWords, Nat.mul_add_div (by decide), Nat.div_eq_of_lt w.toNat_lt, Nat.add_zero]
    have hmod : ofWords (w :: words) % 2 ^ 64 = w.toNat := by
      rw [ofWords, Nat.mul_add_mod, Nat.mod_eq_of_lt w.toNat_lt]
    rw [List.length_cons, Nat.mul_add_one, Nat.add_comm, popCount_add, hdiv, ih, ← popCount_mod 64, hmod]
    rfl

/-- **The number of the bits is the cardinality of their set.** -/
theorem card_eq_countBits {words : List UInt64} {s : Finset Nat} (h : ∀ i, i ∈ s ↔ bitAt words i = true) :
    s.card = countBits words := by
  have hs : s = (Finset.range (64 * words.length)).filter fun i => (ofWords words).testBit i = true := by
    ext i
    rw [Finset.mem_filter, Finset.mem_range, testBit_ofWords, h]
    constructor
    · intro hi
      refine ⟨?_, hi⟩
      by_contra hlt
      rw [bitAt_eq_false (Nat.le_of_not_lt hlt)] at hi
      cases hi
    · exact And.right
  rw [hs, card_filter_testBit, popCount_ofWords]

/-! ## The exclusive or -/

/-- The exclusive or of the words. -/
def xorWords (words : List UInt64) : UInt64 := words.foldr (· ^^^ ·) 0

theorem xorWords_eq_zero {words : List UInt64} (h : ∀ k, words.getD k 0 = 0) : xorWords words = 0 := by
  induction words with
  | nil => rfl
  | cons w words ih =>
    have hw : w = 0 := h 0
    have hwords : xorWords words = 0 := ih fun k => h (k + 1)
    rw [xorWords, List.foldr_cons, ← xorWords, hw, hwords]
    rfl

/-- **Words whose bits agree have the same exclusive or**, also when there are more of the ones than of the others. -/
theorem xorWords_eq {words words' : List UInt64} (h : ∀ i, bitAt words i = bitAt words' i) :
    xorWords words = xorWords words' := by
  have hget := getD_eq_of_bitAt h
  clear h
  induction words generalizing words' with
  | nil => rw [xorWords_eq_zero fun k => (hget k).symm, xorWords, List.foldr_nil]
  | cons w words ih =>
    cases words' with
    | nil => rw [xorWords_eq_zero hget, xorWords, List.foldr_nil]
    | cons w' words' =>
      have hw : w = w' := hget 0
      have hwords : xorWords words = xorWords words' := ih fun k => hget (k + 1)
      rw [xorWords, xorWords, List.foldr_cons, List.foldr_cons, ← xorWords, ← xorWords, hw, hwords]

end

end WebKit.Lib
