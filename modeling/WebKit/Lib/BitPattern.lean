import Mathlib.Tactic.IntervalCases
import Mathlib.Tactic.Ring

/-!
# Repeated elements of rotated ones

Flipping low bits subtracts (`xor_ones`), and the highest bit moves with a shift (`log2_div_two_pow`).

A bit pattern of `2 ^ n` bits is an element of `2 ^ k` bits repeated, where the element is a run of ones, neither empty
nor full, rotated (`IsPattern`). Such an element is a band of ones or what a band of ones leaves (`isRotatedRun_iff`, by
`rotateRight_of_le` and `rotateRight_of_ge`), and a pattern is an element or two equal halves (`isPattern_succ`).
`decodeBitMasks` is the architecture's rule for the fields of such an immediate (`decodeBitMasks_field`).
-/

namespace WebKit.Lib.BitPattern

/-! ## Bits -/

/-- Flipping the low bits. -/
theorem xor_ones {x n : Nat} (h : x < 2 ^ n) : x ^^^ (2 ^ n - 1) = 2 ^ n - 1 - x := by
  have hsub : 2 ^ n - 1 - x = 2 ^ n - (x + 1) := by omega
  apply Nat.eq_of_testBit_eq
  intro i
  rw [Nat.testBit_xor, Nat.testBit_two_pow_sub_one, hsub, Nat.testBit_two_pow_sub_succ h]
  by_cases hi : i < n
  · simp [hi]
  · have hpow : 2 ^ n ≤ 2 ^ i := Nat.pow_le_pow_right (by decide) (by omega)
    simp [hi, Nat.testBit_lt_two_pow (Nat.lt_of_lt_of_le h hpow)]

theorem log2_div_two_pow {x n : Nat} (h : 2 ^ n ≤ x) : n + (x / 2 ^ n).log2 = x.log2 := by
  have hpos := Nat.two_pow_pos n
  have hx : x ≠ 0 := by omega
  have hdiv : x / 2 ^ n ≠ 0 := by
    have := Nat.div_pos h hpos
    omega
  symm
  rw [Nat.log2_eq_iff hx]
  have hlow := Nat.log2_self_le hdiv
  have hhigh := Nat.lt_log2_self (n := x / 2 ^ n)
  constructor
  · rw [Nat.pow_add, Nat.mul_comm]
    exact (Nat.le_div_iff_mul_le hpos).1 hlow
  · rw [Nat.add_assoc, Nat.pow_add, Nat.mul_comm]
    exact (Nat.div_lt_iff_lt_mul hpos).1 hhigh

/-! ## Rotation -/

/-- The low `w` bits rotated right by `r`. -/
def rotateRight (w x r : Nat) : Nat := x / 2 ^ r + x % 2 ^ r * 2 ^ (w - r)

/-- The `w` bits of an element, `count` times. -/
def replicate (w : Nat) : Nat → Nat → Nat
  | 0, _ => 0
  | count + 1, x => replicate w count x * 2 ^ w + x

/-- A run of ones of the `w` bits, neither empty nor full, rotated. -/
def IsRotatedRun (w v : Nat) : Prop :=
  ∃ length r, 0 < length ∧ length < w ∧ r < w ∧ v = rotateRight w (2 ^ length - 1) r

/-- The ones from bit `l` to bit `h`, below the top bit. -/
def IsBand (w v : Nat) : Prop := ∃ h l, l ≤ h ∧ h + 1 < w ∧ v = 2 ^ (h + 1) - 2 ^ l

variable {w : Nat}

/-- A run that moves as a whole. -/
theorem rotateRight_of_le {length r : Nat} (h : length ≤ r) :
    rotateRight w (2 ^ length - 1) r = 2 ^ (w - r + length) - 2 ^ (w - r) := by
  have hpow : 2 ^ length ≤ 2 ^ r := Nat.pow_le_pow_right (by decide) h
  have hpos := Nat.two_pow_pos length
  have hlt : 2 ^ length - 1 < 2 ^ r := by omega
  rw [rotateRight, Nat.div_eq_of_lt hlt, Nat.mod_eq_of_lt hlt, Nat.zero_add, Nat.sub_mul, Nat.one_mul, ← Nat.pow_add,
    Nat.add_comm]

/-- A run that goes around. -/
theorem rotateRight_of_ge {length r : Nat} (h : r ≤ length) (hw : r ≤ w) :
    rotateRight w (2 ^ length - 1) r = 2 ^ (length - r) - 1 + (2 ^ w - 2 ^ (w - r)) := by
  have hsplit : 2 ^ length = 2 ^ r * 2 ^ (length - r) := by rw [← Nat.pow_add, Nat.add_sub_cancel' h]
  have hpos := Nat.two_pow_pos r
  have hpos' := Nat.two_pow_pos (length - r)
  have hsum : 2 ^ length - 1 = 2 ^ r - 1 + 2 ^ r * (2 ^ (length - r) - 1) := by
    have hle : 2 ^ r ≤ 2 ^ r * 2 ^ (length - r) := Nat.le_mul_of_pos_right _ hpos'
    rw [hsplit, Nat.mul_sub, Nat.mul_one]
    omega
  have hdiv : (2 ^ length - 1) / 2 ^ r = 2 ^ (length - r) - 1 := by
    rw [hsum, Nat.add_mul_div_left _ _ hpos, Nat.div_eq_of_lt (by omega), Nat.zero_add]
  have hmod : (2 ^ length - 1) % 2 ^ r = 2 ^ r - 1 := by
    rw [hsum, Nat.add_mul_mod_self_left, Nat.mod_eq_of_lt (by omega)]
  rw [rotateRight, hdiv, hmod, Nat.sub_mul, Nat.one_mul, ← Nat.pow_add, Nat.add_sub_cancel' hw]

theorem IsBand.lt {v : Nat} (h : IsBand w v) : v < 2 ^ (w - 1) := by
  obtain ⟨h, l, -, hw, rfl⟩ := h
  have hpow : 2 ^ (h + 1) ≤ 2 ^ (w - 1) := Nat.pow_le_pow_right (by decide) (by omega)
  exact Nat.lt_of_lt_of_le (Nat.sub_lt (Nat.two_pow_pos _) (Nat.two_pow_pos l)) hpow

theorem rotateRight_band {h l : Nat} (hle : l ≤ h) (hw : h + 1 < w) :
    rotateRight w (2 ^ (h - l + 1) - 1) ((w - l) % w) = 2 ^ (h + 1) - 2 ^ l := by
  rcases Nat.eq_zero_or_pos l with rfl | hl
  · rw [Nat.sub_zero, Nat.sub_zero, Nat.mod_self, rotateRight_of_ge (Nat.zero_le _) (Nat.zero_le _)]
    simp
  · have hsub : w - (w - l) = l := by omega
    have hsum : l + (h - l + 1) = h + 1 := by omega
    rw [Nat.mod_eq_of_lt (by omega), rotateRight_of_le (by omega), hsub, hsum]

/-- The run whose rotation leaves a band. -/
theorem rotateRight_inverted {h l : Nat} (hle : l ≤ h) (hw : h + 1 < w) :
    rotateRight w (2 ^ (w - (h - l + 1)) - 1) (w - 1 - h) = 2 ^ w - 1 - (2 ^ (h + 1) - 2 ^ l) := by
  have hsub : w - (h - l + 1) - (w - 1 - h) = l := by omega
  have hsub' : w - (w - 1 - h) = h + 1 := by omega
  have hpow : 2 ^ (h + 1) < 2 ^ w := Nat.pow_lt_pow_right (by decide) hw
  have hpow' : 2 ^ l ≤ 2 ^ (h + 1) := Nat.pow_le_pow_right (by decide) (by omega)
  have hpos := Nat.two_pow_pos l
  rw [rotateRight_of_ge (by omega) (by omega), hsub, hsub']
  omega

/-- **A rotated run is a band of ones, or what is left of all ones without one.** -/
theorem isRotatedRun_iff {v : Nat} :
    IsRotatedRun w v ↔ IsBand w v ∨ ∃ u, IsBand w u ∧ v = 2 ^ w - 1 - u := by
  constructor
  · rintro ⟨length, r, hpos, hlt, hr, rfl⟩
    have hone : 2 ^ 0 = 1 := rfl
    rcases Nat.lt_or_ge length r with hlength | hlength
    · refine Or.inl ⟨w - r + length - 1, w - r, by omega, by omega, ?_⟩
      have hsucc : w - r + length - 1 + 1 = w - r + length := by omega
      rw [rotateRight_of_le hlength.le, hsucc]
    · rw [rotateRight_of_ge hlength hr.le]
      rcases Nat.eq_zero_or_pos r with rfl | hr'
      · refine Or.inl ⟨length - 1, 0, by omega, by omega, ?_⟩
        have hsucc : length - 1 + 1 = length := by omega
        rw [hsucc, Nat.sub_zero, Nat.sub_zero, Nat.sub_self, hone, Nat.add_zero]
      · refine Or.inr ⟨2 ^ (w - r) - 2 ^ (length - r), ⟨w - r - 1, length - r, by omega, by omega, ?_⟩, ?_⟩
        · have hsucc : w - r - 1 + 1 = w - r := by omega
          rw [hsucc]
        · have hpow : 2 ^ (w - r) < 2 ^ w := Nat.pow_lt_pow_right (by decide) (by omega)
          have hpow' : 2 ^ (length - r) ≤ 2 ^ (w - r) := Nat.pow_le_pow_right (by decide) (by omega)
          have hpos' := Nat.two_pow_pos (length - r)
          omega
  · rintro (⟨h, l, hle, hw, rfl⟩ | ⟨u, ⟨h, l, hle, hw, rfl⟩, rfl⟩)
    · exact ⟨h - l + 1, (w - l) % w, by omega, by omega, Nat.mod_lt _ (by omega), (rotateRight_band hle hw).symm⟩
    · exact ⟨w - (h - l + 1), w - 1 - h, by omega, by omega, by omega, (rotateRight_inverted hle hw).symm⟩

theorem IsRotatedRun.lt {v : Nat} (h : IsRotatedRun w v) : v < 2 ^ w := by
  have hpos := Nat.two_pow_pos w
  rcases isRotatedRun_iff.1 h with h | ⟨u, -, rfl⟩
  · exact Nat.lt_of_lt_of_le h.lt (Nat.pow_le_pow_right (by decide) (Nat.sub_le w 1))
  · omega

/-! ## Repetition -/

theorem replicate_add (w a b x : Nat) : replicate w (a + b) x = replicate w a x * 2 ^ (w * b) + replicate w b x := by
  induction b with
  | zero => simp [replicate]
  | succ b ih =>
    have hpow : 2 ^ (w * (b + 1)) = 2 ^ (w * b) * 2 ^ w := by rw [← Nat.pow_add, Nat.mul_succ]
    rw [← Nat.add_assoc, replicate, ih, replicate, hpow]
    ring

/-- A repeated element that is repeated. -/
theorem replicate_replicate (w m count x : Nat) :
    replicate (w * m) count (replicate w m x) = replicate w (count * m) x := by
  induction count with
  | zero => simp [replicate]
  | succ count ih => rw [replicate, ih, Nat.succ_mul, replicate_add]

theorem replicate_one (w x : Nat) : replicate w 1 x = x := by simp [replicate]

theorem replicate_lt {x : Nat} (h : x < 2 ^ w) (count : Nat) : replicate w count x < 2 ^ (w * count) := by
  induction count with
  | zero => simp [replicate]
  | succ count ih =>
    have hpow : 2 ^ (w * (count + 1)) = 2 ^ (w * count) * 2 ^ w := by rw [← Nat.pow_add, Nat.mul_succ]
    have hmul : (replicate w count x + 1) * 2 ^ w ≤ 2 ^ (w * count) * 2 ^ w := Nat.mul_le_mul_right _ ih
    rw [replicate, hpow]
    rw [Nat.succ_mul] at hmul
    omega

/-! ## Patterns -/

/-- The `2 ^ n` bits are an element of `2 ^ k` bits, a rotated run of ones, repeated. -/
def IsPattern (n v : Nat) : Prop :=
  ∃ k, 1 ≤ k ∧ k ≤ n ∧ ∃ element, IsRotatedRun (2 ^ k) element ∧ v = replicate (2 ^ k) (2 ^ (n - k)) element

variable {n v : Nat}

theorem IsPattern.lt (h : IsPattern n v) : v < 2 ^ 2 ^ n := by
  obtain ⟨k, -, hk, element, helement, rfl⟩ := h
  have hlt := replicate_lt helement.lt (2 ^ (n - k))
  rwa [← Nat.pow_add, Nat.add_sub_cancel' hk] at hlt

theorem isPattern_one : IsPattern 1 v ↔ IsRotatedRun 2 v := by
  constructor
  · rintro ⟨k, hk, hk', element, helement, rfl⟩
    obtain rfl : k = 1 := by omega
    rwa [Nat.sub_self, Nat.pow_zero, replicate_one]
  · intro h
    exact ⟨1, Nat.le_refl 1, Nat.le_refl 1, v, h, (replicate_one _ v).symm⟩

/-- **A pattern is an element or has two equal halves that are a pattern.** -/
theorem isPattern_succ (hn : 1 ≤ n) :
    IsPattern (n + 1) v ↔ IsRotatedRun (2 ^ (n + 1)) v ∨ ∃ u, IsPattern n u ∧ v = replicate (2 ^ n) 2 u := by
  have hhalves : ∀ k, k ≤ n → ∀ element,
      replicate (2 ^ n) 2 (replicate (2 ^ k) (2 ^ (n - k)) element) = replicate (2 ^ k) (2 ^ (n + 1 - k)) element := by
    intro k hk element
    have hwidth : 2 ^ n = 2 ^ k * 2 ^ (n - k) := by rw [← Nat.pow_add, Nat.add_sub_cancel' hk]
    have hcount : 2 ^ (n + 1 - k) = 2 * 2 ^ (n - k) := by rw [Nat.succ_sub hk, Nat.pow_succ, Nat.mul_comm]
    rw [hcount, hwidth, replicate_replicate]
  constructor
  · rintro ⟨k, hk, hk', element, helement, rfl⟩
    rcases Nat.eq_or_lt_of_le hk' with rfl | hlt
    · rw [Nat.sub_self, Nat.pow_zero, replicate_one]
      exact Or.inl helement
    · refine Or.inr ⟨_, ⟨k, hk, by omega, element, helement, rfl⟩, ?_⟩
      rw [hhalves k (by omega)]
  · rintro (h | ⟨u, ⟨k, hk, hk', element, helement, rfl⟩, rfl⟩)
    · exact ⟨n + 1, by omega, Nat.le_refl _, v, h, by rw [Nat.sub_self, Nat.pow_zero, replicate_one]⟩
    · exact ⟨k, hk, by omega, element, helement, hhalves k hk' element⟩

/-! ## Some ones, some zeros -/

/-- The `w` bits are neither all zeros nor all ones. -/
def Mixed (w v : Nat) : Prop := 0 < v ∧ v + 1 < 2 ^ w

theorem IsBand.mixed {w : Nat} (h : IsBand w v) : Mixed w v := by
  obtain ⟨h, l, hle, hw, rfl⟩ := h
  have hpow : 2 ^ (h + 1 + 1) ≤ 2 ^ w := Nat.pow_le_pow_right (by decide) hw
  have hpow' : 2 ^ l < 2 ^ (h + 1) := Nat.pow_lt_pow_right (by decide) (by omega)
  have hpos := Nat.two_pow_pos l
  rw [Nat.pow_succ] at hpow
  constructor <;> omega

theorem IsRotatedRun.mixed {w : Nat} (h : IsRotatedRun w v) : Mixed w v := by
  rcases isRotatedRun_iff.1 h with h | ⟨u, hu, rfl⟩
  · exact h.mixed
  · obtain ⟨hpos, hlt⟩ := hu.mixed
    constructor <;> omega

theorem replicate_two (w u : Nat) : replicate w 2 u = u * 2 ^ w + u := by simp [replicate]

theorem mixed_replicate_two_iff {w u : Nat} (hu : u < 2 ^ w) : Mixed (2 * w) (replicate w 2 u) ↔ Mixed w u := by
  have hpow : 2 ^ (2 * w) = 2 ^ w * 2 ^ w := by rw [Nat.two_mul, Nat.pow_add]
  have hsum : u * 2 ^ w + u + (2 ^ w - 1 - u) * (2 ^ w + 1) = 2 ^ w * 2 ^ w - 1 := by
    have hmul : u * 2 ^ w + u = u * (2 ^ w + 1) := by ring
    have hwhole : u + (2 ^ w - 1 - u) = 2 ^ w - 1 := by omega
    have hpos := Nat.two_pow_pos w
    rw [hmul, ← Nat.add_mul, hwhole, Nat.sub_mul, Nat.mul_add]
    omega
  rw [Mixed, Mixed, replicate_two, hpow]
  constructor
  · rintro ⟨hpos, hlt⟩
    constructor
    · by_contra hzero
      obtain rfl : u = 0 := by omega
      simp at hpos
    · by_contra hfull
      have hrest : 2 ^ w - 1 - u = 0 := by omega
      rw [hrest, Nat.zero_mul] at hsum
      omega
  · rintro ⟨hpos, hlt⟩
    have hrest : 1 * (2 ^ w + 1) ≤ (2 ^ w - 1 - u) * (2 ^ w + 1) := Nat.mul_le_mul_right _ (by omega)
    constructor <;> omega

theorem IsPattern.mixed (hn : 1 ≤ n) (h : IsPattern n v) : Mixed (2 ^ n) v := by
  induction n, hn using Nat.le_induction generalizing v with
  | base => exact (isPattern_one.1 h).mixed
  | succ n hn ih =>
    rcases (isPattern_succ hn).1 h with h | ⟨u, hu, rfl⟩
    · exact h.mixed
    · have hpow : 2 ^ (n + 1) = 2 * 2 ^ n := by rw [Nat.pow_succ, Nat.mul_comm]
      rw [hpow, mixed_replicate_two_iff hu.lt]
      exact ih hu

/-! ## The fields of an immediate -/

/-- The value of `datasize` bits that the fields `immN:immr:imms` stand for. -/
def decodeBitMasks (datasize field : Nat) : Option Nat :=
  let immN := field / 2 ^ 12 % 2
  let immr := field / 2 ^ 6 % 2 ^ 6
  let imms := field % 2 ^ 6
  let len := (immN * 2 ^ 6 + (2 ^ 6 - 1 - imms)).log2
  let esize := 2 ^ len
  let S := imms % esize
  let R := immr % esize
  if len < 1 ∨ datasize < esize ∨ S = esize - 1 then none
  else some (replicate esize (datasize / esize) (rotateRight esize (2 ^ (S + 1) - 1) R))

/-- The fields for an element of `2 ^ k` bits with `S + 1` ones that is rotated by `R`. -/
def field (k S R : Nat) : Nat := (if k = 6 then 2 ^ 12 else 2 ^ 6 - 2 * 2 ^ k) + R * 2 ^ 6 + S

theorem decodeBitMasks_field {k S R count : Nat} (hk : 1 ≤ k) (hk' : k ≤ 6) (hS : S + 1 < 2 ^ k) (hR : R < 2 ^ k)
    (hcount : 0 < count) :
    decodeBitMasks (2 ^ k * count) (field k S R) =
      some (replicate (2 ^ k) count (rotateRight (2 ^ k) (2 ^ (S + 1) - 1) R)) := by
  have hfields : field k S R / 2 ^ 12 % 2 * 2 ^ 6 + (2 ^ 6 - 1 - field k S R % 2 ^ 6) = 2 * 2 ^ k - 1 - S := by
    interval_cases k <;> simp only [field, Nat.reduceEqDiff, reduceIte] <;> omega
  have hS' : field k S R % 2 ^ 6 % 2 ^ k = S := by
    interval_cases k <;> simp only [field, Nat.reduceEqDiff, reduceIte] <;> omega
  have hR' : field k S R / 2 ^ 6 % 2 ^ 6 % 2 ^ k = R := by
    interval_cases k <;> simp only [field, Nat.reduceEqDiff, reduceIte] <;> omega
  have hlen : (2 * 2 ^ k - 1 - S).log2 = k := by
    rw [Nat.log2_eq_iff (by omega), Nat.pow_succ]
    omega
  have hle : 2 ^ k ≤ 2 ^ k * count := Nat.le_mul_of_pos_right _ hcount
  simp only [decodeBitMasks, hfields, hlen, hS', hR']
  rw [if_neg (by omega), Nat.mul_div_cancel_left _ (Nat.two_pow_pos k)]

end WebKit.Lib.BitPattern
