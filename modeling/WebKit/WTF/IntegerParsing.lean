import Mathlib.Data.List.TakeWhile
import Mathlib.Tactic.Linarith
import Mathlib.Tactic.Ring
import WebKit.WTF.WTFString

/-!
# Integers in text

`toIntegralType`, which reads a text as an integer of one of four types. The characters are `UChar`s: the code is one
template, and `LChar`s behave as the `UChar`s of their values. `isWhiteSpaceNeutral` stands for the Unicode property
that `isSpaceOrNewline` asks for beyond ASCII. An overflow of a signed type wraps.

A `Numeral` is a text in the form that is asked for, with its value. The loop accepts its digits if and only if what is
read, wrapped to the type, leaves room for each (`digitsLoop_of_room`, `digitsLoop_of_not_room`), and only the texts of
numerals are accepted (`exists_numeral`). There is room for the digits of the numbers within `magnitudeLimit`
(`roomForAll_iff`). Behind a minus sign that goes wrong at the least number: the bases that divide it refuse it
(`Numeral.not_room_of_dvd`), and in the others any digit may follow it, as its value is negative before the sign is
applied (`Numeral.not_check_iff`). `toIntegralType_iff` is the result.
-/

namespace WebKit.WTF

/-! ## The code -/

def isASCIIAlpha (c : UChar) : Bool := (c ||| 0x20) ≥ 0x61 && (c ||| 0x20) ≤ 0x7A

def isCharacterAllowedInBase (c : UChar) (base : Nat) : Bool :=
  if c > 0x7F then false
  else if isASCIIDigit c then decide ((c.toNat : Int) - 0x30 < base)
  else if isASCIIAlpha c then
    let base : Int := if base > 36 then 36 else base
    (c ≥ 0x61 && decide ((c.toNat : Int) < 0x61 + base - 10)) ||
      (c ≥ 0x41 && decide ((c.toNat : Int) < 0x41 + base - 10))
  else false

/-- The types that integers are read as. -/
inductive IntegralType
  | int
  | unsigned
  | int64_t
  | uint64_t
  deriving DecidableEq

namespace IntegralType

def bits : IntegralType → Nat
  | int | unsigned => 32
  | int64_t | uint64_t => 64

def isSigned : IntegralType → Bool
  | int | int64_t => true
  | unsigned | uint64_t => false

/-- `std::numeric_limits<IntegralType>::max()` -/
def integralMax (t : IntegralType) : Nat := if t.isSigned then 2 ^ (t.bits - 1) - 1 else 2 ^ t.bits - 1

/-- The number of the type that the result of an operation becomes. -/
def wrap (t : IntegralType) (x : Int) : Int := if t.isSigned then x.bmod (2 ^ t.bits) else x % 2 ^ t.bits

/-- The integer is one of the type. -/
def Represents (t : IntegralType) (x : Int) : Prop :=
  (if t.isSigned then -(t.integralMax : Int) - 1 else 0) ≤ x ∧ x ≤ t.integralMax

end IntegralType

def digitValue (c : UChar) : Nat :=
  if isASCIIDigit c then c.toNat - 0x30 else if c ≥ 0x61 then c.toNat - 0x61 + 10 else c.toNat - 0x41 + 10

section

variable (isWhiteSpaceNeutral : UChar → Bool) (t : IntegralType) (base : Nat)

/-- The loop over the digits: the value and what is left, or nothing if the value becomes too large. -/
def digitsLoop (isNegative : Bool) (value : Int) : List UChar → Option (Int × List UChar)
  | [] => some (value, [])
  | c :: data =>
    if isCharacterAllowedInBase c base then
      let maxMultiplier : Int := t.integralMax / base
      if value > maxMultiplier ∨
          value = maxMultiplier ∧ digitValue c > t.integralMax % base + isNegative.toNat then none
      else digitsLoop isNegative (t.wrap (base * value + digitValue c)) data
    else some (value, c :: data)

/-- The sign, and what is left. -/
def skipSign : List UChar → Bool × List UChar
  | c :: data =>
    if t.isSigned && c == 0x2D then (true, data)
    else if c == 0x2B then (false, data)
    else (false, c :: data)
  | [] => (false, [])

/-- The value, and `ok`; `data` is `none` for a null pointer. -/
def toIntegralType (data : Option (List UChar)) : Int × Bool :=
  match data with
  | none => (0, false)
  | some data =>
    let data := data.dropWhile (isSpaceOrNewline isWhiteSpaceNeutral)
    let (isNegative, data) := skipSign t data
    match data with
    | [] => (0, false)
    | c :: data =>
      if isCharacterAllowedInBase c base then
        match digitsLoop t base isNegative 0 (c :: data) with
        | none => (0, false)
        | some (value, data) =>
          let value := if isNegative then t.wrap (-value) else value
          let data := data.dropWhile (isSpaceOrNewline isWhiteSpaceNeutral)
          if data = [] then (value, true) else (0, false)
      else (0, false)

/-- The number of characters that make up an integer with what is in front of it. -/
def lengthOfCharactersAsInteger (data : List UChar) : UInt32 :=
  let spaces := (data.takeWhile (isSpaceOrNewline isWhiteSpaceNeutral)).length
  let data := data.drop spaces
  let sign := match data with
    | c :: _ => if c == 0x2B || c == 0x2D then 1 else 0
    | [] => 0
  let data := data.drop sign
  UInt32.ofNat (spaces + sign + (data.takeWhile isASCIIDigit).length)

/-- The characters that `charactersToInt` and its like hand over. -/
def integerPrefix (data : List UChar) : List UChar :=
  data.take (lengthOfCharactersAsInteger isWhiteSpaceNeutral data).toNat

/-- `charactersToInt`, `charactersToUInt`, `charactersToInt64` and `charactersToUInt64`. -/
def charactersToIntegralType (data : Option (List UChar)) : Int × Bool :=
  toIntegralType isWhiteSpaceNeutral t 10 (data.map (integerPrefix isWhiteSpaceNeutral))

end

/-! ## Numerals -/

inductive Sign
  | none
  | plus
  | minus
  deriving DecidableEq

def Sign.characters : Sign → List UChar
  | none => []
  | plus => [0x2B]
  | minus => [0x2D]

/-- The number that digits denote behind `m`. -/
def magnitudeFrom (base : Nat) (m : Nat) (digits : List UChar) : Nat :=
  digits.foldl (fun m c => base * m + digitValue c) m

/-- A text that denotes an integer, with its parts. -/
structure Numeral (isWhiteSpaceNeutral : UChar → Bool) (t : IntegralType) (base : Nat) where
  before : List UChar
  sign : Sign
  digits : List UChar
  after : List UChar
  before_space : ∀ c ∈ before, isSpaceOrNewline isWhiteSpaceNeutral c = true
  signed : sign = .minus → t.isSigned = true
  digits_ne_nil : digits ≠ []
  digits_allowed : ∀ c ∈ digits, isCharacterAllowedInBase c base = true
  after_space : ∀ c ∈ after, isSpaceOrNewline isWhiteSpaceNeutral c = true

namespace Numeral

variable {isWhiteSpaceNeutral : UChar → Bool} {t : IntegralType} {base : Nat}

def text (n : Numeral isWhiteSpaceNeutral t base) : List UChar := n.before ++ n.sign.characters ++ n.digits ++ n.after

def value (n : Numeral isWhiteSpaceNeutral t base) : Int :=
  if n.sign = .minus then -(magnitudeFrom base 0 n.digits : Int) else magnitudeFrom base 0 n.digits

end Numeral

/-! ## Room for a digit -/

section

variable (t : IntegralType) (base : Nat) (isNegative : Bool)

/-- The loop's check: the value leaves room for the digit. -/
def RoomFor (value : Int) (c : UChar) : Prop :=
  ¬(value > (t.integralMax : Int) / base ∨
    value = (t.integralMax : Int) / base ∧ digitValue c > t.integralMax % base + isNegative.toNat)

/-- There is room for each of the digits behind `m`, of which the code has what it wraps to. -/
def RoomForAll (m : Nat) : List UChar → Prop
  | [] => True
  | c :: digits => RoomFor t base isNegative (t.wrap m) c ∧ RoomForAll (base * m + digitValue c) digits

end

variable {isWhiteSpaceNeutral : UChar → Bool} {t : IntegralType} {base : Nat} {isNegative : Bool} {m : Nat}
  {digits rest : List UChar} {c : UChar}

theorem magnitudeFrom_cons :
    magnitudeFrom base m (c :: digits) = magnitudeFrom base (base * m + digitValue c) digits := by
  rw [magnitudeFrom, List.foldl_cons, ← magnitudeFrom]

theorem digitValue_lt (hbase : 2 ≤ base) (h : isCharacterAllowedInBase c base = true) : digitValue c < base := by
  unfold isCharacterAllowedInBase at h
  unfold digitValue
  by_cases hdigit : isASCIIDigit c = true
  · rw [if_pos hdigit] at h ⊢
    split_ifs at h
    have := of_decide_eq_true h
    omega
  · rw [if_neg hdigit] at h ⊢
    split_ifs at h with hascii halpha hlarge
    all_goals
      simp only [Bool.or_eq_true, Bool.and_eq_true, decide_eq_true_eq, ge_iff_le, UInt16.le_iff_toNat_le] at h ⊢
      rw [show (0x61 : UInt16).toNat = 97 from rfl, show (0x41 : UInt16).toNat = 65 from rfl] at h
      rw [show (0x61 : UInt16).toNat = 97 from rfl]
      split_ifs <;> omega

/-! ## Arithmetic of the types -/

theorem wrap_of_represents {x : Int} (h : t.Represents x) : t.wrap x = x := by
  cases t with
  | int =>
    change (-2147483648 : Int) ≤ x ∧ x ≤ 2147483647 at h
    exact Int.bmod_eq_of_le (m := 4294967296) (by omega) (by omega)
  | unsigned =>
    change (0 : Int) ≤ x ∧ x ≤ 4294967295 at h
    exact Int.emod_eq_of_lt (b := 4294967296) h.1 (by omega)
  | int64_t =>
    change (-9223372036854775808 : Int) ≤ x ∧ x ≤ 9223372036854775807 at h
    exact Int.bmod_eq_of_le (m := 18446744073709551616) (by omega) (by omega)
  | uint64_t =>
    change (0 : Int) ≤ x ∧ x ≤ 18446744073709551615 at h
    exact Int.emod_eq_of_lt (b := 18446744073709551616) h.1 (by omega)

theorem wrap_sub_mul (x k : Int) : t.wrap (x - (2 ^ t.bits : Nat) * k) = t.wrap x := by
  unfold IntegralType.wrap
  split_ifs
  · rw [Int.sub_mul_bmod_self_left]
  · push_cast
    rw [Int.sub_mul_emod_self_left]

theorem exists_wrap_eq (t : IntegralType) (x : Int) : ∃ k : Int, t.wrap x = x - (2 ^ t.bits : Nat) * k := by
  unfold IntegralType.wrap
  split_ifs
  · exact ⟨x.bdiv (2 ^ t.bits), Int.bmod_eq_self_sub_mul_bdiv x _⟩
  · refine ⟨x / 2 ^ t.bits, ?_⟩
    push_cast
    exact Int.emod_def x _

theorem wrap_step (x d : Int) : t.wrap (base * t.wrap x + d) = t.wrap (base * x + d) := by
  obtain ⟨k, hk⟩ := exists_wrap_eq t x
  rw [hk, show (base : Int) * (x - (2 ^ t.bits : Nat) * k) + d = base * x + d - (2 ^ t.bits : Nat) * (base * k) by ring,
    wrap_sub_mul]

theorem wrap_neg_wrap (x : Int) : t.wrap (-t.wrap x) = t.wrap (-x) := by
  obtain ⟨k, hk⟩ := exists_wrap_eq t x
  rw [hk, show -(x - (2 ^ t.bits : Nat) * k) = -x - (2 ^ t.bits : Nat) * -k by ring, wrap_sub_mul]

theorem wrap_integralMax_add_one (h : t.isSigned = true) : t.wrap (t.integralMax + 1) = -(t.integralMax + 1) := by
  cases t <;> first | rfl | exact absurd h (by decide)

theorem represents_natCast : t.Represents (m : Int) ↔ m ≤ t.integralMax := by
  unfold IntegralType.Represents
  split_ifs <;> omega

theorem represents_neg (h : t.isSigned = true) : t.Represents (-(m : Int)) ↔ m ≤ t.integralMax + 1 := by
  unfold IntegralType.Represents
  rw [if_pos h]
  omega

/-! ## Which digits there is room for -/

theorem room_iff {M d : Nat} (hd : d < base) : ¬(M / base < m ∨ m = M / base ∧ M % base < d) ↔ base * m + d ≤ M := by
  have hM := Nat.div_add_mod M base
  have hmod : M % base < base := Nat.mod_lt M (by omega)
  rcases lt_trichotomy m (M / base) with h | h | h
  · have := Nat.mul_le_mul_left base (Nat.succ_le_of_lt h)
    rw [Nat.mul_succ] at this
    omega
  · subst h
    omega
  · have := Nat.mul_le_mul_left base (Nat.succ_le_of_lt h)
    rw [Nat.mul_succ] at this
    omega

/-- The code's test for a negative number is the test for the number after the largest one in the bases that do not
divide it. In the others no digit follows `M / base`. -/
theorem room_negative_iff {M d : Nat} (hd : d < base) :
    ¬(M / base < m ∨ m = M / base ∧ M % base + 1 < d) ↔ base * m + d ≤ if base ∣ M + 1 then M else M + 1 := by
  have hsucc : (M + 1) / base = M / base + if base ∣ M + 1 then 1 else 0 := Nat.succ_div
  have hM := Nat.div_add_mod M base
  have hM1 := Nat.div_add_mod (M + 1) base
  split_ifs at hsucc ⊢ with hdvd
  · rw [← room_iff hd]
    rw [hsucc, Nat.mul_add] at hM1
    have := Nat.mod_eq_zero_of_dvd hdvd
    omega
  · rw [← room_iff hd]
    rw [hsucc, Nat.add_zero] at hM1 ⊢
    omega

/-- The largest magnitude that the code accepts. -/
def magnitudeLimit (t : IntegralType) (base : Nat) (isNegative : Bool) : Nat :=
  if isNegative && !decide (base ∣ t.integralMax + 1) then t.integralMax + 1 else t.integralMax

theorem roomFor_iff (hd : digitValue c < base) :
    RoomFor t base isNegative m c ↔ base * m + digitValue c ≤ magnitudeLimit t base isNegative := by
  unfold RoomFor magnitudeLimit
  rw [← Int.natCast_ediv, gt_iff_lt, Int.ofNat_lt, Int.natCast_inj]
  cases isNegative with
  | false => exact room_iff hd
  | true =>
    refine (room_negative_iff hd).trans ?_
    by_cases h : base ∣ t.integralMax + 1
    · simp only [h, if_true, decide_true, Bool.not_true, Bool.and_false, Bool.false_eq_true, if_false]
    · simp only [h, if_true, decide_false, Bool.not_false, Bool.and_self, if_false]

theorem le_magnitudeFrom (hbase : 2 ≤ base) (digits : List UChar) : m ≤ magnitudeFrom base m digits := by
  induction digits generalizing m with
  | nil => exact le_refl m
  | cons c digits ih =>
    rw [magnitudeFrom_cons]
    have := Nat.mul_le_mul_right m hbase
    exact (by omega : m ≤ base * m + digitValue c).trans ih

theorem lt_magnitudeFrom (hbase : 2 ≤ base) (hm : 0 < m) (hdigits : digits ≠ []) : m < magnitudeFrom base m digits := by
  cases digits with
  | nil => exact absurd rfl hdigits
  | cons c digits =>
    rw [magnitudeFrom_cons]
    have := Nat.mul_le_mul_right m hbase
    exact (by omega : m < base * m + digitValue c).trans_le (le_magnitudeFrom hbase digits)

/-- The digits go on behind the number after the largest one. -/
def GoesOnBehind (t : IntegralType) (base m : Nat) (digits : List UChar) : Prop :=
  ∃ front back, digits = front ++ back ∧ back ≠ [] ∧ magnitudeFrom base m front = t.integralMax + 1 ∧
    RoomForAll t base true (t.integralMax + 1) back

theorem goesOnBehind_cons (hm : m ≤ t.integralMax) :
    GoesOnBehind t base m (c :: digits) ↔ GoesOnBehind t base (base * m + digitValue c) digits := by
  constructor
  · rintro ⟨front, back, hdigits, hback, hfront, hroom⟩
    cases front with
    | nil =>
      have : m = t.integralMax + 1 := hfront
      omega
    | cons c' front =>
      obtain ⟨rfl, rfl⟩ := List.cons.inj hdigits
      exact ⟨front, back, rfl, hback, magnitudeFrom_cons.symm.trans hfront, hroom⟩
  · rintro ⟨front, back, rfl, hback, hfront, hroom⟩
    exact ⟨c :: front, back, rfl, hback, magnitudeFrom_cons.trans hfront, hroom⟩

theorem goesOnBehind_of_lt (hbase : 2 ≤ base) (hm : t.integralMax < m) :
    GoesOnBehind t base m digits ↔
      m = t.integralMax + 1 ∧ digits ≠ [] ∧ RoomForAll t base true (t.integralMax + 1) digits := by
  constructor
  · rintro ⟨front, back, rfl, hback, hfront, hroom⟩
    have hnil : front = [] := by
      by_contra hne
      have := lt_magnitudeFrom hbase (by omega) hne (m := m)
      omega
    subst hnil
    exact ⟨hfront, hback, hroom⟩
  · rintro ⟨rfl, hne, hroom⟩
    exact ⟨[], digits, rfl, hne, rfl, hroom⟩

theorem magnitudeLimit_of_dvd (h : base ∣ t.integralMax + 1) : magnitudeLimit t base isNegative = t.integralMax := by
  unfold magnitudeLimit
  rw [decide_eq_true h, Bool.not_true, Bool.and_false, if_neg Bool.false_ne_true]

theorem magnitudeLimit_of_not_dvd (h : ¬base ∣ t.integralMax + 1) :
    magnitudeLimit t base true = t.integralMax + 1 := by
  unfold magnitudeLimit
  rw [decide_eq_false h, Bool.not_false, Bool.and_self, if_pos rfl]

theorem integralMax_le_magnitudeLimit : t.integralMax ≤ magnitudeLimit t base isNegative := by
  unfold magnitudeLimit
  split_ifs <;> omega

theorem roomForAll_iff (hbase : 2 ≤ base) (hm : m ≤ t.integralMax)
    (hdigits : ∀ c ∈ digits, isCharacterAllowedInBase c base = true) :
    RoomForAll t base isNegative m digits ↔ magnitudeFrom base m digits ≤ magnitudeLimit t base isNegative ∨
      isNegative = true ∧ ¬base ∣ t.integralMax + 1 ∧ GoesOnBehind t base m digits := by
  induction digits generalizing m with
  | nil => exact iff_of_true trivial (.inl (hm.trans integralMax_le_magnitudeLimit))
  | cons c digits ih =>
    obtain ⟨hc, hdigits⟩ := List.forall_mem_cons.mp hdigits
    rw [RoomForAll, wrap_of_represents (represents_natCast.mpr hm), roomFor_iff (digitValue_lt hbase hc),
      magnitudeFrom_cons, goesOnBehind_cons hm]
    rcases Nat.lt_or_ge t.integralMax (base * m + digitValue c) with hlt | hle
    · rw [goesOnBehind_of_lt hbase hlt]
      have hmono := le_magnitudeFrom hbase digits (m := base * m + digitValue c)
      by_cases hover : isNegative = true ∧ ¬base ∣ t.integralMax + 1
      · -- The digit may reach the number after the largest one.
        obtain ⟨rfl, hdvd⟩ := hover
        rw [magnitudeLimit_of_not_dvd hdvd]
        by_cases heq : base * m + digitValue c = t.integralMax + 1
        · rw [heq] at hmono ⊢
          by_cases hnil : digits = []
          · subst hnil
            exact iff_of_true ⟨le_refl _, trivial⟩ (.inl (le_refl _))
          · have hgt := lt_magnitudeFrom hbase (by omega : 0 < t.integralMax + 1) hnil
            constructor
            · exact fun h => .inr ⟨rfl, hdvd, rfl, hnil, h.2⟩
            · rintro (h | h)
              · omega
              · exact ⟨le_refl _, h.2.2.2.2⟩
        · exact iff_of_false (fun h => by omega) (by rintro (h | h) <;> omega)
      · have hlimit : magnitudeLimit t base isNegative = t.integralMax := by
          unfold magnitudeLimit
          rw [if_neg (by simpa using hover)]
        rw [hlimit]
        exact iff_of_false (fun h => by omega) (by rintro (h | h) <;> [omega; exact hover ⟨h.1, h.2.1⟩])
    · rw [← ih hle hdigits]
      exact and_iff_right (hle.trans integralMax_le_magnitudeLimit)

/-! ## What the code reads -/

theorem digitsLoop_of_room (hdigits : ∀ c ∈ digits, isCharacterAllowedInBase c base = true)
    (hrest : ∀ c ∈ rest.head?, isCharacterAllowedInBase c base = false)
    (hroom : RoomForAll t base isNegative m digits) :
    digitsLoop t base isNegative (t.wrap m) (digits ++ rest) = some (t.wrap (magnitudeFrom base m digits), rest) := by
  induction digits generalizing m with
  | nil =>
    cases rest with
    | nil => rfl
    | cons c rest =>
      rw [List.nil_append, digitsLoop, if_neg (by rw [hrest c rfl]; exact Bool.false_ne_true)]
      rfl
  | cons c digits ih =>
    obtain ⟨hc, hdigits⟩ := List.forall_mem_cons.mp hdigits
    rw [List.cons_append, digitsLoop, if_pos hc]
    simp only
    rw [if_neg hroom.1, wrap_step, magnitudeFrom_cons, ← Nat.cast_mul, ← Nat.cast_add, ih hdigits hroom.2]

theorem digitsLoop_of_not_room (hdigits : ∀ c ∈ digits, isCharacterAllowedInBase c base = true)
    (hroom : ¬RoomForAll t base isNegative m digits) :
    digitsLoop t base isNegative (t.wrap m) (digits ++ rest) = none := by
  induction digits generalizing m with
  | nil => exact absurd trivial hroom
  | cons c digits ih =>
    obtain ⟨hc, hdigits⟩ := List.forall_mem_cons.mp hdigits
    rw [List.cons_append, digitsLoop, if_pos hc]
    simp only
    by_cases hfor : RoomFor t base isNegative (t.wrap m) c
    · rw [if_neg hfor, wrap_step, ← Nat.cast_mul, ← Nat.cast_add, ih hdigits fun h => hroom ⟨hfor, h⟩]
    · rw [if_pos (not_not.mp hfor)]

/-- The loop starts with nothing read. -/
theorem wrap_natCast_zero : t.wrap ((0 : Nat) : Int) = 0 := wrap_of_represents (represents_natCast.mpr (Nat.zero_le _))

theorem ascii_of_allowed (h : isCharacterAllowedInBase c base = true) : c ≤ 0x7F ∧ 0x30 ≤ c := by
  unfold isCharacterAllowedInBase at h
  split_ifs at h with hascii hdigit
  · exact ⟨UInt16.not_lt.mp hascii, of_decide_eq_true (Bool.and_eq_true_iff.mp hdigit).1⟩
  all_goals
    refine ⟨UInt16.not_lt.mp hascii, ?_⟩
    simp only [Bool.or_eq_true, Bool.and_eq_true, decide_eq_true_eq] at h
    rcases h with h | h
    · exact UInt16.le_trans (by decide) h.1
    · exact UInt16.le_trans (by decide) h.1

theorem not_space_of_allowed (h : isCharacterAllowedInBase c base = true) :
    isSpaceOrNewline isWhiteSpaceNeutral c = false := by
  obtain ⟨hascii, hge⟩ := ascii_of_allowed h
  unfold isSpaceOrNewline
  rw [if_pos hascii]
  exact decide_eq_false fun hspace => absurd (UInt16.le_trans hge hspace.1) (by decide)

theorem not_sign_of_allowed (h : isCharacterAllowedInBase c base = true) : c ≠ 0x2D ∧ c ≠ 0x2B := by
  constructor
  · rintro rfl
    exact absurd h (by simp [isCharacterAllowedInBase, isASCIIDigit, isASCIIAlpha])
  · rintro rfl
    exact absurd h (by simp [isCharacterAllowedInBase, isASCIIDigit, isASCIIAlpha])

theorem isSpaceOrNewline_sign {sign : Sign} (h : c ∈ sign.characters) :
    isSpaceOrNewline isWhiteSpaceNeutral c = false := by
  cases sign with
  | none => exact absurd h List.not_mem_nil
  | plus =>
    rw [List.mem_singleton.mp h]
    rfl
  | minus =>
    rw [List.mem_singleton.mp h]
    rfl

theorem dropWhile_append_of_forall {p : UChar → Bool} {front back : List UChar} (hfront : ∀ c ∈ front, p c = true)
    (hback : ∀ c ∈ back.head?, p c = false) : (front ++ back).dropWhile p = back := by
  rw [List.dropWhile_append_of_pos hfront]
  cases back with
  | nil => rfl
  | cons c back => rw [List.dropWhile_cons_of_neg (by rw [hback c rfl]; exact Bool.false_ne_true)]

namespace Numeral

variable (n : Numeral isWhiteSpaceNeutral t base)

/-- The flag that the code reads from the sign. -/
def negative : Bool := decide (n.sign = .minus)

theorem dropWhile_text :
    n.text.dropWhile (isSpaceOrNewline isWhiteSpaceNeutral) = n.sign.characters ++ (n.digits ++ n.after) := by
  unfold text
  rw [List.append_assoc, List.append_assoc]
  refine dropWhile_append_of_forall n.before_space fun c hc => ?_
  cases hsign : n.sign.characters with
  | nil =>
    rw [hsign, List.nil_append, List.head?_append_of_ne_nil _ n.digits_ne_nil] at hc
    exact not_space_of_allowed (n.digits_allowed c (List.mem_of_mem_head? hc))
  | cons c' sign =>
    rw [hsign] at hc
    obtain rfl := Option.some.inj hc
    exact isSpaceOrNewline_sign (hsign ▸ List.mem_cons_self)

theorem skipSign_text :
    skipSign t (n.sign.characters ++ (n.digits ++ n.after)) = (n.negative, n.digits ++ n.after) := by
  obtain ⟨c, digits, hdigits⟩ := List.exists_cons_of_ne_nil n.digits_ne_nil
  unfold negative
  cases hsign : n.sign with
  | none =>
    have hc := not_sign_of_allowed (n.digits_allowed c (by rw [hdigits]; exact List.mem_cons_self))
    rw [hdigits]
    simp only [Sign.characters, List.nil_append, List.cons_append, skipSign, beq_iff_eq, hc.1, hc.2, Bool.and_eq_true,
      and_false, if_false]
    rfl
  | plus =>
    change (if t.isSigned && false then _ else _) = _
    rw [Bool.and_false]
    rfl
  | minus =>
    change (if t.isSigned && true then _ else _) = _
    rw [n.signed hsign]
    rfl

theorem digitsLoop_of_room (h : RoomForAll t base n.negative 0 n.digits) :
    digitsLoop t base n.negative 0 (n.digits ++ n.after) = some (t.wrap (magnitudeFrom base 0 n.digits), n.after) := by
  have hafter : ∀ c ∈ n.after.head?, isCharacterAllowedInBase c base = false := by
    intro c hc
    by_contra hallowed
    have hspace := n.after_space c (List.mem_of_mem_head? hc)
    rw [not_space_of_allowed (Bool.not_eq_false _ ▸ hallowed)] at hspace
    exact Bool.false_ne_true hspace
  have hloop := WTF.digitsLoop_of_room n.digits_allowed hafter h
  rwa [wrap_natCast_zero] at hloop

theorem digitsLoop_of_not_room (h : ¬RoomForAll t base n.negative 0 n.digits) :
    digitsLoop t base n.negative 0 (n.digits ++ n.after) = none := by
  rw [← wrap_natCast_zero (t := t)]
  exact WTF.digitsLoop_of_not_room n.digits_allowed h

theorem wrap_value :
    (if n.negative then t.wrap (-t.wrap (magnitudeFrom base 0 n.digits)) else t.wrap (magnitudeFrom base 0 n.digits)) =
      t.wrap n.value := by
  unfold negative value
  by_cases h : n.sign = .minus
  · rw [decide_eq_true h, if_pos rfl, if_pos h, wrap_neg_wrap]
  · rw [decide_eq_false h, if_neg Bool.false_ne_true, if_neg h]

theorem toIntegralType_text : toIntegralType isWhiteSpaceNeutral t base (some n.text) =
    match digitsLoop t base n.negative 0 (n.digits ++ n.after) with
    | none => (0, false)
    | some (value, data) =>
      if data.dropWhile (isSpaceOrNewline isWhiteSpaceNeutral) = [] then
        (if n.negative then t.wrap (-value) else value, true)
      else (0, false) := by
  obtain ⟨c, digits, hdigits⟩ := List.exists_cons_of_ne_nil n.digits_ne_nil
  have hc := n.digits_allowed c (by rw [hdigits]; exact List.mem_cons_self)
  unfold toIntegralType
  simp only [dropWhile_text, skipSign_text]
  rw [hdigits, List.cons_append]
  simp only [if_pos hc]

/-- **The text of a numeral is accepted if there is room for its digits, with its value in the type.** -/
theorem toIntegralType_of_room (h : RoomForAll t base n.negative 0 n.digits) :
    toIntegralType isWhiteSpaceNeutral t base (some n.text) = (t.wrap n.value, true) := by
  rw [toIntegralType_text, n.digitsLoop_of_room h]
  simp only
  rw [if_pos (List.dropWhile_eq_nil_iff.mpr n.after_space), wrap_value]

theorem toIntegralType_of_not_room (h : ¬RoomForAll t base n.negative 0 n.digits) :
    toIntegralType isWhiteSpaceNeutral t base (some n.text) = (0, false) := by
  rw [toIntegralType_text, n.digitsLoop_of_not_room h]

theorem room_iff_ok :
    RoomForAll t base n.negative 0 n.digits ↔ (toIntegralType isWhiteSpaceNeutral t base (some n.text)).2 = true := by
  refine ⟨fun h => by rw [n.toIntegralType_of_room h], fun h => ?_⟩
  by_contra hroom
  rw [n.toIntegralType_of_not_room hroom] at h
  exact Bool.false_ne_true h

end Numeral

/-! ## What is accepted -/

theorem skipSign_spec (t : IntegralType) (data : List UChar) : ∃ sign : Sign,
    (sign = .minus → t.isSigned = true) ∧ data = sign.characters ++ (skipSign t data).2 := by
  cases data with
  | nil => exact ⟨.none, Sign.noConfusion, rfl⟩
  | cons c data =>
    rw [skipSign]
    split_ifs with hminus hplus
    · obtain ⟨hsigned, hc⟩ := Bool.and_eq_true_iff.mp hminus
      exact ⟨.minus, fun _ => hsigned, by rw [beq_iff_eq.mp hc]; rfl⟩
    · exact ⟨.plus, Sign.noConfusion, by rw [beq_iff_eq.mp hplus]; rfl⟩
    · exact ⟨.none, Sign.noConfusion, rfl⟩

theorem digitsLoop_eq_some {value value' : Int} {data : List UChar}
    (h : digitsLoop t base isNegative value data = some (value', rest)) :
    ∃ digits, data = digits ++ rest ∧ (∀ c ∈ digits, isCharacterAllowedInBase c base = true) ∧
      ∀ c ∈ rest.head?, isCharacterAllowedInBase c base = false := by
  induction data generalizing value with
  | nil =>
    obtain ⟨-, rfl⟩ := Prod.mk.inj (Option.some.inj h)
    exact ⟨[], rfl, fun _ hc => absurd hc List.not_mem_nil, fun _ hc => absurd hc (by simp)⟩
  | cons c data ih =>
    rw [digitsLoop] at h
    simp only at h
    split_ifs at h with hc hroom
    · obtain ⟨digits, rfl, hdigits, hrest⟩ := ih h
      exact ⟨c :: digits, rfl, List.forall_mem_cons.mpr ⟨hc, hdigits⟩, hrest⟩
    · obtain ⟨-, rfl⟩ := Prod.mk.inj (Option.some.inj h)
      refine ⟨[], rfl, fun _ hc => absurd hc List.not_mem_nil, fun c' hc' => ?_⟩
      obtain rfl := Option.some.inj hc'
      exact Bool.not_eq_true _ ▸ hc

/-- **Only the texts of numerals are accepted.** -/
theorem exists_numeral {data : List UChar} (h : (toIntegralType isWhiteSpaceNeutral t base (some data)).2 = true) :
    ∃ n : Numeral isWhiteSpaceNeutral t base, n.text = data := by
  unfold toIntegralType at h
  simp only at h
  obtain ⟨sign, hsigned, hsign⟩ := skipSign_spec t (data.dropWhile (isSpaceOrNewline isWhiteSpaceNeutral))
  split at h
  · exact absurd h Bool.false_ne_true
  · rename_i c rest hrest
    rw [hrest] at hsign
    by_cases hc : isCharacterAllowedInBase c base = true
    · rw [if_pos hc] at h
      split at h
      · exact absurd h Bool.false_ne_true
      · rename_i value after hloop
        by_cases hafter : after.dropWhile (isSpaceOrNewline isWhiteSpaceNeutral) = []
        · obtain ⟨digits, hdigits, hallowed, hhead⟩ := digitsLoop_eq_some hloop
          refine ⟨⟨data.takeWhile (isSpaceOrNewline isWhiteSpaceNeutral), sign, digits, after,
            fun _ => List.mem_takeWhile_imp, hsigned, ?_, hallowed, List.dropWhile_eq_nil_iff.mp hafter⟩, ?_⟩
          · rintro rfl
            rw [List.nil_append] at hdigits
            rw [← hdigits] at hhead
            exact absurd hc (by rw [hhead c rfl]; exact Bool.false_ne_true)
          · unfold Numeral.text
            rw [List.append_assoc, List.append_assoc, ← hdigits, ← hsign, List.takeWhile_append_dropWhile]
        · rw [if_neg hafter] at h
          exact absurd h Bool.false_ne_true
    · rw [if_neg hc] at h
      exact absurd h Bool.false_ne_true

/-! ## The result -/

section

variable (t base)

/-- The digits behind a minus sign for which the check fails: those of the least number in a base that divides it, and
in another base those that have more digits behind those of the least number. -/
def Overruns (digits : List UChar) : Prop :=
  base ∣ t.integralMax + 1 ∧ magnitudeFrom base 0 digits = t.integralMax + 1 ∨
    ¬base ∣ t.integralMax + 1 ∧
      ∃ front back, digits = front ++ back ∧ back ≠ [] ∧ magnitudeFrom base 0 front = t.integralMax + 1

/-- The result is `ok` for the texts of the numerals that the type represents only, and is then their value. The check
of a digit is the one of what the digits in front of it denote. -/
structure ReadsNumerals (isWhiteSpaceNeutral : UChar → Bool) (data : Option (List UChar)) (result : Int × Bool) :
    Prop where
  ok_iff : result.2 = true ↔ ∃ n : Numeral isWhiteSpaceNeutral t base, data = some n.text ∧ t.Represents n.value
  value_eq : ∀ n : Numeral isWhiteSpaceNeutral t base, data = some n.text → result.2 = true → result.1 = n.value
  check_iff : ∀ n : Numeral isWhiteSpaceNeutral t base, data = some n.text → ∀ front c back value,
    n.digits = front ++ c :: back → digitsLoop t base n.negative 0 front = some (value, []) →
      (RoomFor t base n.negative value c ↔ RoomFor t base n.negative (magnitudeFrom base 0 front) c)

end

namespace Numeral

variable (n : Numeral isWhiteSpaceNeutral t base)

theorem represents_value_iff :
    t.Represents n.value ↔ magnitudeFrom base 0 n.digits ≤ t.integralMax + n.negative.toNat := by
  unfold value negative
  by_cases h : n.sign = .minus
  · rw [if_pos h, represents_neg (n.signed h), decide_eq_true h]
    rfl
  · rw [if_neg h, represents_natCast, decide_eq_false h]
    rfl

theorem room_iff_represents (hbase : 2 ≤ base) (h : n.sign = .minus → ¬Overruns t base n.digits) :
    RoomForAll t base n.negative 0 n.digits ↔ t.Represents n.value := by
  rw [roomForAll_iff hbase (Nat.zero_le _) n.digits_allowed, n.represents_value_iff]
  unfold negative
  by_cases hminus : n.sign = .minus
  · have hover := not_or.mp (h hminus)
    rw [decide_eq_true hminus]
    by_cases hdvd : base ∣ t.integralMax + 1
    · have hne := fun heq => hover.1 ⟨hdvd, heq⟩
      rw [magnitudeLimit_of_dvd hdvd]
      refine (or_iff_left fun h => h.2.1 hdvd).trans ?_
      change _ ↔ _ ≤ t.integralMax + 1
      omega
    · rw [magnitudeLimit_of_not_dvd hdvd]
      refine or_iff_left fun h => hover.2 ⟨hdvd, ?_⟩
      obtain ⟨front, back, hdigits, hback, hfront, -⟩ := h.2.2
      exact ⟨front, back, hdigits, hback, hfront⟩
  · rw [decide_eq_false hminus]
    exact or_iff_left fun h => Bool.false_ne_true h.1

theorem not_room_of_dvd (hbase : 2 ≤ base) (hdvd : base ∣ t.integralMax + 1)
    (h : magnitudeFrom base 0 n.digits = t.integralMax + 1) : ¬RoomForAll t base n.negative 0 n.digits := by
  rw [roomForAll_iff hbase (Nat.zero_le _) n.digits_allowed, magnitudeLimit_of_dvd hdvd, h]
  rintro (h | h)
  · omega
  · exact h.2.1 hdvd

theorem front_allowed {front back : List UChar} (hdigits : n.digits = front ++ back) :
    ∀ c ∈ front, isCharacterAllowedInBase c base = true :=
  fun c hc => n.digits_allowed c (by rw [hdigits]; exact List.mem_append_left _ hc)

theorem digitsLoop_front {front back : List UChar} (hdigits : n.digits = front ++ back)
    (hroom : RoomForAll t base n.negative 0 front) :
    digitsLoop t base n.negative 0 front = some (t.wrap (magnitudeFrom base 0 front), []) := by
  have hnil : ∀ c ∈ ([] : List UChar).head?, isCharacterAllowedInBase c base = false :=
    fun _ hc => absurd hc.symm (Option.some_ne_none _)
  have hloop := WTF.digitsLoop_of_room (n.front_allowed hdigits) hnil hroom
  rwa [wrap_natCast_zero, List.append_nil] at hloop

theorem room_of_digitsLoop_front {front back : List UChar} {value : Int} (hdigits : n.digits = front ++ back)
    (hloop : digitsLoop t base n.negative 0 front = some (value, [])) : RoomForAll t base n.negative 0 front := by
  by_contra hroom
  have hnone : digitsLoop t base n.negative (t.wrap (0 : Nat)) (front ++ []) = none :=
    WTF.digitsLoop_of_not_room (n.front_allowed hdigits) hroom
  rw [wrap_natCast_zero, List.append_nil, hloop] at hnone
  exact Option.some_ne_none _ hnone

theorem front_le (hbase : 2 ≤ base) (h : n.sign = .minus → ¬Overruns t base n.digits) {front back : List UChar}
    (hdigits : n.digits = front ++ back) (hback : back ≠ []) (hroom : RoomForAll t base n.negative 0 front) :
    magnitudeFrom base 0 front ≤ t.integralMax := by
  rcases (roomForAll_iff hbase (Nat.zero_le _) (n.front_allowed hdigits)).mp hroom with
    hle | ⟨hnegative, hdvd, front', back', rfl, hback', hfront, -⟩
  · by_contra hgt
    unfold magnitudeLimit at hle
    split_ifs at hle with hnegative
    · simp only [Bool.and_eq_true, Bool.not_eq_true', decide_eq_false_iff_not] at hnegative
      exact h (of_decide_eq_true hnegative.1) (.inr ⟨hnegative.2, front, back, hdigits, hback, by omega⟩)
    · exact hgt hle
  · rw [List.append_assoc] at hdigits
    exact absurd (.inr ⟨hdvd, front', back' ++ back, hdigits, List.append_ne_nil_of_right_ne_nil _ hback, hfront⟩)
      (h (of_decide_eq_true hnegative))

theorem check_iff (hbase : 2 ≤ base) (h : n.sign = .minus → ¬Overruns t base n.digits) {front back : List UChar}
    {value : Int} (hdigits : n.digits = front ++ c :: back)
    (hloop : digitsLoop t base n.negative 0 front = some (value, [])) :
    RoomFor t base n.negative value c ↔ RoomFor t base n.negative (magnitudeFrom base 0 front) c := by
  have hroom := n.room_of_digitsLoop_front hdigits hloop
  have hle := n.front_le hbase h hdigits (List.cons_ne_nil _ _) hroom
  obtain ⟨hvalue, -⟩ := Prod.mk.inj (Option.some.inj (hloop.symm.trans (n.digitsLoop_front hdigits hroom)))
  rw [hvalue, wrap_of_represents (represents_natCast.mpr hle)]

theorem not_check_iff (hbase : 2 ≤ base) (hminus : n.sign = .minus) (hdvd : ¬base ∣ t.integralMax + 1)
    {front back : List UChar} (hdigits : n.digits = front ++ c :: back)
    (hfront : magnitudeFrom base 0 front = t.integralMax + 1) :
    ∃ value, digitsLoop t base n.negative 0 front = some (value, []) ∧
      ¬(RoomFor t base n.negative value c ↔ RoomFor t base n.negative (magnitudeFrom base 0 front) c) := by
  have hnegative : n.negative = true := decide_eq_true hminus
  have hroom : RoomForAll t base n.negative 0 front := by
    rw [hnegative, roomForAll_iff hbase (Nat.zero_le _) (n.front_allowed hdigits), magnitudeLimit_of_not_dvd hdvd]
    exact .inl hfront.le
  refine ⟨_, n.digitsLoop_front hdigits hroom, fun hiff => ?_⟩
  have hdigit : digitValue c < base := by
    refine digitValue_lt hbase (n.digits_allowed c ?_)
    rw [hdigits]
    exact List.mem_append_right _ List.mem_cons_self
  rw [hfront, Nat.cast_add, Nat.cast_one, wrap_integralMax_add_one (n.signed hminus), ← Nat.cast_one (R := Int),
    ← Nat.cast_add, hnegative, roomFor_iff hdigit, magnitudeLimit_of_not_dvd hdvd] at hiff
  have hcheck : RoomFor t base true (-((t.integralMax + 1 : Nat) : Int)) c := by
    have : (0 : Int) ≤ (t.integralMax : Int) / base := Int.ediv_nonneg (Int.natCast_nonneg _) (Int.natCast_nonneg _)
    unfold RoomFor
    omega
  have hle := hiff.mp hcheck
  have := Nat.mul_le_mul_right (t.integralMax + 1) hbase
  omega

end Numeral

theorem toIntegralType_meets_iff (hbase : 2 ≤ base) (data : Option (List UChar)) :
    ReadsNumerals t base isWhiteSpaceNeutral data (toIntegralType isWhiteSpaceNeutral t base data) ↔
      ¬∃ n : Numeral isWhiteSpaceNeutral t base, data = some n.text ∧ n.sign = .minus ∧ Overruns t base n.digits := by
  constructor
  · rintro ⟨hok, hvalue, hcheck⟩ ⟨n, rfl, hminus, hover⟩
    rcases hover with ⟨hdvd, hmagnitude⟩ | ⟨hdvd, front, back, hdigits, hback, hfront⟩
    · refine n.not_room_of_dvd hbase hdvd hmagnitude (n.room_iff_ok.mpr (hok.mpr ⟨n, rfl, ?_⟩))
      rw [n.represents_value_iff, hmagnitude]
      exact Nat.add_le_add_left (by rw [Numeral.negative, decide_eq_true hminus]; exact le_refl _) _
    · obtain ⟨c, back, rfl⟩ := List.exists_cons_of_ne_nil hback
      obtain ⟨value, hloop, hnot⟩ := n.not_check_iff hbase hminus hdvd hdigits hfront
      exact hnot (hcheck n rfl front c back value hdigits hloop)
  · intro hnot
    have hover : ∀ n : Numeral isWhiteSpaceNeutral t base, data = some n.text →
        n.sign = .minus → ¬Overruns t base n.digits := fun n hn hminus h => hnot ⟨n, hn, hminus, h⟩
    refine ⟨⟨fun hok => ?_, ?_⟩, ?_, fun n hn front c back value => n.check_iff hbase (hover n hn)⟩
    · cases data with
      | none => exact absurd hok Bool.false_ne_true
      | some data =>
        obtain ⟨n, rfl⟩ := exists_numeral hok
        exact ⟨n, rfl, (n.room_iff_represents hbase (hover n rfl)).mp (n.room_iff_ok.mpr hok)⟩
    · rintro ⟨n, rfl, hrep⟩
      exact n.room_iff_ok.mp ((n.room_iff_represents hbase (hover n rfl)).mpr hrep)
    · rintro n rfl hok
      have hroom := n.room_iff_ok.mpr hok
      rw [n.toIntegralType_of_room hroom, wrap_of_represents ((n.room_iff_represents hbase (hover n rfl)).mp hroom)]

/-- **Integers are read as their type represents them if and only if no numeral overruns**, behind `charactersToInt` and
its like the numeral that they hand over. -/
theorem toIntegralType_iff (hbase : 2 ≤ base) (data : Option (List UChar)) :
    (ReadsNumerals t base isWhiteSpaceNeutral data (toIntegralType isWhiteSpaceNeutral t base data) ↔
      ¬∃ n : Numeral isWhiteSpaceNeutral t base, data = some n.text ∧ n.sign = .minus ∧ Overruns t base n.digits) ∧
    (ReadsNumerals t 10 isWhiteSpaceNeutral (data.map (integerPrefix isWhiteSpaceNeutral))
        (charactersToIntegralType isWhiteSpaceNeutral t data) ↔
      ¬∃ n : Numeral isWhiteSpaceNeutral t 10, data.map (integerPrefix isWhiteSpaceNeutral) = some n.text ∧
        n.sign = .minus ∧ Overruns t 10 n.digits) :=
  ⟨toIntegralType_meets_iff hbase data, toIntegralType_meets_iff (by decide) _⟩

theorem minus_mem_text (n : Numeral isWhiteSpaceNeutral t base) (h : n.sign = .minus) : 0x2D ∈ n.text := by
  unfold Numeral.text
  rw [h, List.append_assoc, List.append_assoc]
  exact List.mem_append_right _ List.mem_cons_self

/-- `" 7f"` is no overrun in base 16, nor is what `charactersToInt` takes of it. -/
theorem toIntegralType_seven_f :
    ReadsNumerals .int 16 (fun _ => false) (some [0x20, 0x37, 0x66])
      (toIntegralType (fun _ => false) .int 16 (some [0x20, 0x37, 0x66])) ∧
    ReadsNumerals .int 10 (fun _ => false) (some [0x20, 0x37])
      (charactersToIntegralType (fun _ => false) .int (some [0x20, 0x37, 0x66])) := by
  constructor
  · refine (toIntegralType_iff (by decide) _).1.mpr ?_
    rintro ⟨n, htext, hminus, -⟩
    have hmem := minus_mem_text n hminus
    rw [← Option.some.inj htext] at hmem
    exact absurd hmem (by decide)
  · refine (toIntegralType_iff (by decide : 2 ≤ 10) (some [0x20, 0x37, 0x66])).2.mpr ?_
    rintro ⟨n, htext, hminus, -⟩
    have hmem := minus_mem_text n hminus
    rw [← Option.some.inj htext] at hmem
    exact absurd hmem (by decide)

/-- The numeral `"-21474836480"`. -/
def tenTimesTheLeast : Numeral (fun _ => false) .int 10 where
  before := []
  sign := .minus
  digits := [0x32, 0x31, 0x34, 0x37, 0x34, 0x38, 0x33, 0x36, 0x34, 0x38, 0x30]
  after := []
  before_space := by decide
  signed := fun _ => rfl
  digits_ne_nil := by decide
  digits_allowed := by decide
  after_space := by decide

/-- `"-21474836480"` is accepted as 0. -/
theorem toIntegralType_accepts_overrun : ¬∀ (t : IntegralType) (base : Nat) (data : Option (List UChar)),
    2 ≤ base → base ≤ 36 →
      ReadsNumerals t base (fun _ => false) data (toIntegralType (fun _ => false) t base data) := by
  intro h
  have hmeets := h .int 10 (some tenTimesTheLeast.text) (by decide) (by decide)
  have hvalue := hmeets.value_eq tenTimesTheLeast rfl (by decide)
  exact absurd hvalue (by decide)

end WebKit.WTF
