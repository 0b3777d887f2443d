import WebKit.WTF.BitVectorSteps

/-!
# Union, intersection and difference of bit vectors

Union, intersection and difference go bit by bit (`merge_spec`, `filter_spec`, `exclude_spec`): the union where its loop
stays inside the words of the other vector (`mergeFits`), the intersection with an inline vector where there is nothing
behind the first word (`filterFits`).
-/

namespace WebKit.WTF.BitVector

open WebKit.Lib

variable {v w : BitVector} {a b : List UInt64}

/-! ## Loops that write -/

theorem zipLoop_spec (f : UInt64 → UInt64 → UInt64) (b : List UInt64) {n : Nat} (hb : n ≤ b.length) :
    ∀ {a : List UInt64}, n ≤ a.length → ∃ words, zipLoop f b n a = some words ∧ words.length = a.length ∧
      ∀ k, words.getD k 0 = if k < n then f (a.getD k 0) (b.getD k 0) else a.getD k 0 := by
  induction n with
  | zero =>
    intro a _
    exact ⟨a, rfl, rfl, fun k => by rw [if_neg (Nat.not_lt_zero k)]⟩
  | succ n ih =>
    intro a ha
    have hx : a[n]? = some (a.getD n 0) := by
      rw [List.getD_eq_getElem _ _ ha]
      exact List.getElem?_eq_getElem ha
    have hy : b[n]? = some (b.getD n 0) := by
      rw [List.getD_eq_getElem _ _ hb]
      exact List.getElem?_eq_getElem hb
    obtain ⟨words, hwords, hlength, hget⟩ := ih (Nat.le_of_succ_le hb)
      (show n ≤ (a.set n (f (a.getD n 0) (b.getD n 0))).length by rw [List.length_set]; omega)
    refine ⟨words, ?_, by rw [hlength, List.length_set], ?_⟩
    · simp only [zipLoop, hx, hy, Option.bind_eq_bind, Option.bind_some]
      exact hwords
    · intro k
      rw [hget, getD_set ha]
      by_cases hk : k < n
      · rw [if_pos hk, if_neg (by omega), if_pos (by omega)]
      · rw [if_neg hk]
        by_cases heq : n = k
        · subst heq
          rw [if_pos rfl, if_pos (Nat.lt_succ_self n)]
        · rw [if_neg heq, if_neg (by omega)]

theorem bitAt_zipLoop {f : UInt64 → UInt64 → UInt64} {g : Bool → Bool → Bool}
    (hf : ∀ x y j, (f x y).toNat.testBit j = g (x.toNat.testBit j) (y.toNat.testBit j)) {n : Nat}
    (ha : n ≤ a.length) (hb : n ≤ b.length) :
    ∃ words, zipLoop f b n a = some words ∧ words.length = a.length ∧
      ∀ i, bitAt words i = if i / 64 < n then g (bitAt a i) (bitAt b i) else bitAt a i := by
  obtain ⟨words, hwords, hlength, hget⟩ := zipLoop_spec f b hb ha
  refine ⟨words, hwords, hlength, ?_⟩
  intro i
  rw [bitAt, hget]
  split_ifs
  · exact hf _ _ _
  · rfl

theorem zeroLoop_spec {n i : Nat} (hfuel : a.length ≤ n + i) (ha : a.length < 2 ^ 32) :
    ∃ words, zeroLoop (n + 1) i a = some words ∧ words.length = a.length ∧
      ∀ k, words.getD k 0 = if k < i then a.getD k 0 else 0 := by
  induction n generalizing i a with
  | zero =>
    refine ⟨a, by rw [zeroLoop, if_neg (by omega)], rfl, ?_⟩
    intro k
    split_ifs with hk
    · rfl
    · exact List.getD_eq_default _ _ (by omega)
  | succ n ih =>
    rw [zeroLoop]
    split_ifs with hi
    · have hmod : (i + 1) % 2 ^ 32 = i + 1 := Nat.mod_eq_of_lt (by omega)
      have hlength : (a.set i 0).length = a.length := List.length_set
      obtain ⟨words, hwords, hlength', hget⟩ := ih (i := i + 1) (a := a.set i 0) (by omega) (by omega)
      refine ⟨words, by rw [hmod, hwords], by rw [hlength', hlength], ?_⟩
      intro k
      rw [hget, getD_set hi]
      by_cases hk : k < i
      · rw [if_pos (by omega), if_neg (by omega), if_pos hk]
      · rw [if_neg hk]
        split_ifs
        · rfl
        · omega
        · rfl
    · refine ⟨a, rfl, rfl, ?_⟩
      intro k
      split_ifs with hk
      · rfl
      · exact List.getD_eq_default _ _ (by omega)

theorem updateFirst_spec (h : (outOfLine a).WellFormed) (bits : UInt64) {f : UInt64 → UInt64} {g : Bool → Bool → Bool}
    (hf : ∀ x j, (f x).toNat.testBit j = g (x.toNat.testBit j) ((cleanseInlineBits bits).toNat.testBit j)) :
    ∃ v' : BitVector, (outOfLine a).updateFirst f = some v' ∧ v'.WellFormed ∧
      ∀ i, v'.bit i = if i / 64 = 0 then g ((outOfLine a).bit i) ((inlineBits bits).bit i) else (outOfLine a).bit i := by
  have hx : a[0]? = some (a.getD 0 0) := by
    rw [List.getD_eq_getElem _ _ h.1]
    exact List.getElem?_eq_getElem h.1
  refine ⟨outOfLine (a.set 0 (f (a.getD 0 0))), ?_, ?_, ?_⟩
  · simp only [updateFirst, readWord, writeWord, hx, Option.bind_eq_bind, Option.bind_some, if_pos h.1]
  · rw [WellFormed, List.length_set]
    exact h
  · intro i
    rw [bit, contents, bitAt_set h.1]
    by_cases hi : i / 64 = 0
    · have hmod : i % 64 = i := by omega
      have hbit : (outOfLine a).bit i = (a.getD 0 0).toNat.testBit i := by
        rw [bit, contents, bitAt, hi, hmod]
      rw [if_pos hi.symm, if_pos hi, hmod, hf, hbit, bit, contents, bitAt_singleton]
    · rw [if_neg (Ne.symm hi), if_neg hi]
      rfl

/-! ## Union, intersection and difference -/

/-- The loop of `mergeSlow` stays inside the words of the other vector. -/
def mergeFits (v other : BitVector) : Bool := other.isInline || decide (v.size ≤ other.size)

/-- `filterSlow` leaves nothing behind the first word. -/
def filterFits (v other : BitVector) : Bool :=
  match v, other with
  | outOfLine a, inlineBits _ => (a.drop 1).all (· = 0)
  | _, _ => true

theorem inlineBits_bit_eq_false (bits : UInt64) {i : Nat} (hi : i / 64 ≠ 0) : (inlineBits bits).bit i = false :=
  bit_eq_false (show 63 ≤ i by omega)

/-- **`merge` is the union.** -/
theorem merge_spec (hv : v.WellFormed) (hw : w.WellFormed) (hfits : mergeFits v w = true) :
    ∃ v' : BitVector, v.merge w = some v' ∧ v'.WellFormed ∧ ∀ i, v'.bit i = (v.bit i || w.bit i) := by
  cases w with
  | inlineBits otherBits =>
    cases v with
    | inlineBits bits =>
      refine ⟨inlineBits (bits ||| otherBits), rfl, ?_, ?_⟩
      · have hv63 : bits.toNat.testBit 63 = true := hv
        rw [WellFormed, testBit_or, hv63, Bool.true_or]
      · intro i
        rw [bit_inlineBits, bit_inlineBits, bit_inlineBits, testBit_or, Bool.and_or_distrib_right]
    | outOfLine a =>
      obtain ⟨v', hv', hwf, hbits⟩ := updateFirst_spec (g := fun x y => x || y) hv otherBits
        (f := (· ||| cleanseInlineBits otherBits)) fun x j => testBit_or x _ j
      refine ⟨v', hv', hwf, ?_⟩
      intro i
      rw [hbits]
      split_ifs with hi
      · rfl
      · rw [inlineBits_bit_eq_false otherBits hi, Bool.or_false]
  | outOfLine b =>
    have hle : v.size ≤ 64 * b.length := of_decide_eq_true hfits
    have hmax : 64 * b.length ≤ 2 ^ 32 - 64 := size_le hw
    -- both arrays are of the same length
    have hgrow : ∃ a, v.ensureSize (64 * b.length) = some (outOfLine a) ∧ a.length = b.length ∧
        ∀ i, bitAt a i = v.bit i := by
      rw [ensureSize]
      split_ifs with hsize
      · cases v with
        | inlineBits bits =>
          have hone := hw.1
          have h63 : 64 * b.length ≤ 63 := hsize
          omega
        | outOfLine a =>
          rw [size, bitsInPointer] at hle hsize
          exact ⟨a, rfl, by omega, fun _ => rfl⟩
      · obtain ⟨a, ha, hlength, hbits⟩ := grow_spec hv (Nat.lt_of_not_le hsize) hmax
        exact ⟨a, ha, by omega, hbits⟩
    obtain ⟨a, ha, hlength, hbits⟩ := hgrow
    have hlt : a.length < 2 ^ 26 := hlength ▸ hw.2
    have hmod : a.length % 2 ^ 32 = a.length := Nat.mod_eq_of_lt (by omega)
    obtain ⟨words, hwords, hlength', hbits'⟩ := bitAt_zipLoop (g := fun x y => x || y) (a := a) (b := b)
      testBit_or (Nat.le_refl a.length) (Nat.le_of_eq hlength)
    refine ⟨outOfLine words, ?_, ?_, ?_⟩
    · have hmerge : v.merge (outOfLine b) = v.mergeSlow (outOfLine b) := by cases v <;> rfl
      rw [hmerge, mergeSlow]
      simp only [size, bitsInPointer, ha, Option.bind_eq_bind, Option.bind_some, hmod, hwords]
      rfl
    · rw [WellFormed, hlength', hlength]
      exact hw
    · intro i
      rw [bit, contents, hbits', hbits]
      split_ifs with hi
      · rfl
      · have hb : (outOfLine b).bit i = false := bit_eq_false (show 64 * b.length ≤ i by omega)
        rw [hb, Bool.or_false]

theorem inline_spec (bits : UInt64) {result : UInt64} {g : Bool → Bool → Bool}
    (hflag : result.toNat.testBit 63 = true)
    (hresult : ∀ i < 63, result.toNat.testBit i = g (bits.toNat.testBit i) (w.bit i))
    (hbehind : ∀ y, g false y = false) :
    (inlineBits result).WellFormed ∧ ∀ i, (inlineBits result).bit i = g ((inlineBits bits).bit i) (w.bit i) := by
  refine ⟨hflag, ?_⟩
  intro i
  by_cases hi : i < 63
  · rw [bit_inlineBits_of_lt _ hi, bit_inlineBits_of_lt _ hi, hresult i hi]
  · rw [bit_eq_false (Nat.le_of_not_lt hi), bit_eq_false (v := inlineBits bits) (Nat.le_of_not_lt hi), hbehind]

/-- **`filter` is the intersection.** -/
theorem filter_spec (hv : v.WellFormed) (hw : w.WellFormed) (hfits : filterFits v w = true) :
    ∃ v' : BitVector, v.filter w = some v' ∧ v'.WellFormed ∧ ∀ i, v'.bit i = (v.bit i && w.bit i) := by
  cases v with
  | inlineBits bits =>
    cases w with
    | inlineBits otherBits =>
      have hv63 : bits.toNat.testBit 63 = true := hv
      have hw63 : otherBits.toNat.testBit 63 = true := hw
      refine ⟨_, rfl, inline_spec bits ?_ ?_ Bool.false_and⟩
      · rw [testBit_and, hv63, hw63, Bool.and_true]
      · intro i hi
        rw [testBit_and, bit_inlineBits_of_lt _ hi]
    | outOfLine b =>
      obtain ⟨word, rest, rfl⟩ := List.exists_cons_of_length_pos hw.1
      refine ⟨_, rfl, inline_spec bits ?_ ?_ Bool.false_and⟩
      · rw [testBit_or, testBit_inlineFlag, decide_eq_true rfl, Bool.or_true]
      · intro i hi
        rw [testBit_or, testBit_and, testBit_inlineFlag, decide_eq_false (by omega), Bool.or_false,
          bit_outOfLine_cons word rest (by omega)]
  | outOfLine a =>
    cases w with
    | inlineBits otherBits =>
      obtain ⟨v', hv', hwf, hbits⟩ := updateFirst_spec (g := fun x y => x && y) hv otherBits
        (f := (· &&& cleanseInlineBits otherBits)) fun x j => testBit_and x _ j
      refine ⟨v', hv', hwf, ?_⟩
      intro i
      rw [hbits]
      split_ifs with hi
      · rfl
      · -- there is nothing behind the first word
        obtain ⟨word, rest, rfl⟩ := List.exists_cons_of_length_pos hv.1
        have hzero : ∀ x ∈ rest, x = 0 := fun x hx => of_decide_eq_true (List.all_eq_true.1 hfits x hx)
        have hword : rest.getD (i / 64 - 1) 0 = 0 := by
          rw [List.getD_eq_getElem?_getD]
          cases hget : rest[i / 64 - 1]? with
          | none => rfl
          | some x => exact hzero x (List.mem_of_getElem? hget)
        have hdiv : i / 64 = i / 64 - 1 + 1 := by omega
        rw [inlineBits_bit_eq_false otherBits hi, Bool.and_false, bit, contents, bitAt, hdiv, List.getD_cons_succ, hword]
        exact Nat.zero_testBit _
    | outOfLine b =>
      have ha : a.length < 2 ^ 26 := hv.2
      have hb : b.length < 2 ^ 26 := hw.2
      have hmin : min a.length b.length % 2 ^ 32 = min a.length b.length := Nat.mod_eq_of_lt (by omega)
      have hmod : b.length % 2 ^ 32 = b.length := Nat.mod_eq_of_lt (by omega)
      obtain ⟨words, hwords, hlength, hbits⟩ := bitAt_zipLoop (g := fun x y => x && y) (a := a) (b := b)
        testBit_and (Nat.min_le_left a.length b.length) (Nat.min_le_right a.length b.length)
      obtain ⟨words', hwords', hlength', hget⟩ := zeroLoop_spec (a := words) (n := words.length) (i := b.length)
        (by omega) (by omega)
      refine ⟨outOfLine words', ?_, ?_, ?_⟩
      · simp only [filter, filterSlow, hmin, hwords, hmod, hwords', Option.bind_eq_bind, Option.bind_some]
        rfl
      · rw [WellFormed, hlength', hlength]
        exact hv
      · intro i
        have hword : (outOfLine words').bit i = if i / 64 < b.length then bitAt words i else false := by
          rw [bit, contents, bitAt, hget]
          split_ifs
          · rfl
          · exact Nat.zero_testBit _
        rw [hword]
        split_ifs with hi
        · rw [hbits]
          split_ifs with hmin'
          · rfl
          · have hfalse : (outOfLine a).bit i = false := bit_eq_false (show 64 * a.length ≤ i by omega)
            rw [hfalse, Bool.false_and]
            exact hfalse
        · rw [bit_eq_false (v := outOfLine b) (show 64 * b.length ≤ i by omega), Bool.and_false]

/-- **`exclude` is the difference.** -/
theorem exclude_spec (hv : v.WellFormed) (hw : w.WellFormed) :
    ∃ v' : BitVector, v.exclude w = some v' ∧ v'.WellFormed ∧ ∀ i, v'.bit i = (v.bit i && !w.bit i) := by
  cases v with
  | inlineBits bits =>
    cases w with
    | inlineBits otherBits =>
      refine ⟨_, rfl, inline_spec (g := fun x y => x && !y) bits ?_ ?_ fun y => Bool.false_and !y⟩
      · rw [testBit_or, testBit_inlineFlag, decide_eq_true rfl, Bool.or_true]
      · intro i hi
        rw [testBit_or, testBit_and_not, testBit_inlineFlag, decide_eq_false (by omega), Bool.or_false,
          bit_inlineBits_of_lt _ hi]
    | outOfLine b =>
      obtain ⟨word, rest, rfl⟩ := List.exists_cons_of_length_pos hw.1
      refine ⟨_, rfl, inline_spec (g := fun x y => x && !y) bits ?_ ?_ fun y => Bool.false_and !y⟩
      · rw [testBit_or, testBit_inlineFlag, decide_eq_true rfl, Bool.or_true]
      · intro i hi
        rw [testBit_or, testBit_and_not, testBit_inlineFlag, decide_eq_false (by omega), Bool.or_false,
          bit_outOfLine_cons word rest (by omega)]
  | outOfLine a =>
    cases w with
    | inlineBits otherBits =>
      obtain ⟨v', hv', hwf, hbits⟩ := updateFirst_spec (g := fun x y => x && !y) hv otherBits
        (f := (· &&& ~~~cleanseInlineBits otherBits)) fun x j => testBit_and_not x _ j
      refine ⟨v', hv', hwf, ?_⟩
      intro i
      rw [hbits]
      split_ifs with hi
      · rfl
      · rw [inlineBits_bit_eq_false otherBits hi, Bool.not_false, Bool.and_true]
    | outOfLine b =>
      have ha : a.length < 2 ^ 26 := hv.2
      have hmin : min a.length b.length % 2 ^ 32 = min a.length b.length := Nat.mod_eq_of_lt (by omega)
      obtain ⟨words, hwords, hlength, hbits⟩ := bitAt_zipLoop (g := fun x y => x && !y) (a := a) (b := b)
        testBit_and_not (Nat.min_le_left a.length b.length) (Nat.min_le_right a.length b.length)
      refine ⟨outOfLine words, ?_, ?_, ?_⟩
      · simp only [exclude, excludeSlow, hmin, hwords, Option.bind_eq_bind, Option.bind_some]
        rfl
      · rw [WellFormed, hlength]
        exact hv
      · intro i
        rw [bit, contents, hbits]
        split_ifs with hi
        · rfl
        · by_cases hia : i / 64 < a.length
          · rw [bit_eq_false (v := outOfLine b) (show 64 * b.length ≤ i by omega), Bool.not_false, Bool.and_true]
            rfl
          · have hfalse : (outOfLine a).bit i = false := bit_eq_false (show 64 * a.length ≤ i by omega)
            rw [hfalse, Bool.false_and]
            exact hfalse

end WebKit.WTF.BitVector
