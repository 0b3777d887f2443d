import WebKit.Yarr.YarrParserRuns

/-!
# The numbers of a pattern

`consumeNumber` stops in front of a digit that makes the number less, so it consumes a run of digits up to the first
place where the values of the prefixes descend modulo `2^32` (`consumeDigits_rest_iff`), and what it returns is the value
modulo `2^32` (`consumeDigits_value`). A run that is too large but never descends is consumed as a wrapped number. So the
number is never wrapped if and only if the run fits or descends (`neverWraps_iff`), and the bounds of a quantifier and
the number of a back reference are those that are written if and only if these fit (`numbers_exact`).
-/

namespace WebKit.Yarr

open WebKit.WTF

/-! ## Runs of digits -/

/-- The digits that come first. -/
def digitRun (rest : List UChar) : List UChar := rest.takeWhile isASCIIDigit

def digitValue (c : UChar) : Nat := c.toNat - 48

/-- The decimal value of digits behind the number `value`. -/
def decimalValueFrom (value : Nat) (run : List UChar) : Nat := run.foldl (fun value c => value * 10 + digitValue c) value

/-- The decimal value of a run of digits. -/
def decimalValue (run : List UChar) : Nat := decimalValueFrom 0 run

/-- The values of the prefixes descend somewhere modulo `2^32`. -/
def DescendsFrom (value : Nat) (run : List UChar) : Prop :=
  ∃ k, decimalValueFrom value (run.take (k + 1)) % 2 ^ 32 < decimalValueFrom value (run.take k) % 2 ^ 32

/-- The values of the prefixes of the run descend somewhere modulo `2^32`. -/
def Descends (run : List UChar) : Prop := DescendsFrom 0 run

/-- If the whole run of digits is consumed its value is returned, and otherwise it is too large. -/
def NeverWraps (rest : List UChar) : Prop :=
  ((consumeNumber rest).2 = afterDigits rest → (consumeNumber rest).1.toNat = decimalValue (digitRun rest)) ∧
    ((consumeNumber rest).2 ≠ afterDigits rest → 2 ^ 32 - 1 < decimalValue (digitRun rest))

variable {c : UChar} {rest run : List UChar} {n : UInt32} {value : Nat}

theorem digitRun_cons (h : isASCIIDigit c = true) : digitRun (c :: rest) = c :: digitRun rest :=
  List.takeWhile_cons_of_pos h

theorem digitRun_cons_of_not (h : ¬isASCIIDigit c = true) : digitRun (c :: rest) = [] := List.takeWhile_cons_of_neg h

theorem afterDigits_cons_of_not (h : ¬isASCIIDigit c = true) : afterDigits (c :: rest) = c :: rest :=
  List.dropWhile_cons_of_neg h

theorem decimalValueFrom_cons :
    decimalValueFrom value (c :: run) = decimalValueFrom (value * 10 + digitValue c) run := by
  unfold decimalValueFrom
  rw [List.foldl_cons]

/-- Digits make a number larger. -/
theorem le_decimalValueFrom : value ≤ decimalValueFrom value run := by
  induction run generalizing value with
  | nil => exact Nat.le_refl _
  | cons c run ih =>
    rw [decimalValueFrom_cons]
    have h : value * 10 + digitValue c ≤ _ := ih
    omega

theorem decimalValueFrom_append (run' : List UChar) :
    decimalValueFrom value (run ++ run') = decimalValueFrom (decimalValueFrom value run) run' := List.foldl_append

/-- The values of the prefixes are not above each other. -/
theorem decimalValueFrom_take_le (value : Nat) (run : List UChar) (k : Nat) : decimalValueFrom value (run.take k) ≤ decimalValueFrom value run := by
  conv_rhs => rw [← List.take_append_drop k run, decimalValueFrom_append]
  exact le_decimalValueFrom

theorem not_descendsFrom_nil : ¬DescendsFrom value [] := by
  rintro ⟨k, hk⟩
  rw [List.take_nil, List.take_nil] at hk
  exact absurd hk (Nat.lt_irrefl _)

theorem descendsFrom_cons : DescendsFrom value (c :: run) ↔
    (value * 10 + digitValue c) % 2 ^ 32 < value % 2 ^ 32 ∨ DescendsFrom (value * 10 + digitValue c) run := by
  constructor
  · rintro ⟨k, hk⟩
    cases k with
    | zero => exact .inl hk
    | succ k => exact .inr ⟨k, hk⟩
  · rintro (h | ⟨k, hk⟩)
    · exact ⟨0, h⟩
    · exact ⟨k + 1, hk⟩

theorem too_large_of_descends (h : DescendsFrom value run) : 2 ^ 32 ≤ decimalValueFrom value run := by
  obtain ⟨k, hk⟩ := h
  by_contra hlt
  have hle := decimalValueFrom_take_le value run (k + 1)
  have hstep : decimalValueFrom value (run.take k) ≤ decimalValueFrom value (run.take (k + 1)) := by
    have htake : run.take k = (run.take (k + 1)).take k := by rw [List.take_take, Nat.min_eq_left (Nat.le_succ k)]
    rw [htake]
    exact decimalValueFrom_take_le value _ k
  rw [Nat.mod_eq_of_lt (by omega), Nat.mod_eq_of_lt (by omega)] at hk
  omega

/-! ## `consumeNumber` -/

theorem digit_toNat (h : isASCIIDigit c = true) : (digit c).toNat = digitValue c ∧ digitValue c < 10 := by
  obtain ⟨m, hm, rfl⟩ := digit_eq h
  have hall : ∀ m < 10, (digit (UInt16.ofNat (48 + m))).toNat = digitValue (UInt16.ofNat (48 + m)) ∧
      digitValue (UInt16.ofNat (48 + m)) < 10 := by decide
  exact hall m hm

theorem next_toNat (hn : n.toNat = value % 2 ^ 32) (h : isASCIIDigit c = true) :
    (n * 10 + digit c).toNat = (value * 10 + digitValue c) % 2 ^ 32 := by
  rw [UInt32.toNat_add, UInt32.toNat_mul, (digit_toNat h).1, hn]
  have hten : (10 : UInt32).toNat = 10 := rfl
  rw [hten]
  omega

theorem consumeDigits_rest (n : UInt32) (rest : List UChar) : (consumeDigits n rest).2 = afterDigits rest ∨
    ∃ d left, (consumeDigits n rest).2 = d :: left ∧ isASCIIDigit d = true := by
  induction rest generalizing n with
  | nil => exact .inl rfl
  | cons c rest ih =>
    by_cases hdigit : isASCIIDigit c = true
    · rw [consumeDigits, afterDigits_cons hdigit]
      split
      · exact ih _
      · exact .inr ⟨c, rest, rfl, hdigit⟩
    · left
      rw [consumeDigits, if_neg (fun h => hdigit h.1), afterDigits_cons_of_not hdigit]

theorem afterDigits_ne_cons {d : UChar} {left : List UChar} (hd : isASCIIDigit d = true) : afterDigits rest ≠ d :: left := by
  intro h
  have hne : rest.dropWhile isASCIIDigit ≠ [] := by
    unfold afterDigits at h
    rw [h]
    exact List.cons_ne_nil _ _
  have hhead := List.head_dropWhile_not isASCIIDigit hne
  unfold afterDigits at h
  simp only [h, List.head_cons, hd] at hhead
  exact Bool.noConfusion hhead

/-- **Where `consumeNumber` stops**: the whole run is consumed if and only if it does not descend. -/
theorem consumeDigits_rest_iff (hn : n.toNat = value % 2 ^ 32) :
    (consumeDigits n rest).2 = afterDigits rest ↔ ¬DescendsFrom value (digitRun rest) := by
  induction rest generalizing n value with
  | nil => exact iff_of_true rfl not_descendsFrom_nil
  | cons c rest ih =>
    by_cases hdigit : isASCIIDigit c = true
    · have hnext := next_toNat hn hdigit
      rw [consumeDigits, digitRun_cons hdigit, descendsFrom_cons, not_or, ← hnext, ← hn, ← UInt32.lt_iff_toNat_lt,
        UInt32.not_lt]
      by_cases hle : n ≤ n * 10 + digit c
      · rw [if_pos ⟨hdigit, hle⟩, afterDigits_cons hdigit, ih hnext]
        exact (and_iff_right hle).symm
      · rw [if_neg (fun h => hle h.2)]
        exact iff_of_false (fun h => afterDigits_ne_cons hdigit h.symm) (fun h => hle h.1)
    · rw [consumeDigits, if_neg (fun h => hdigit h.1), afterDigits_cons_of_not hdigit, digitRun_cons_of_not hdigit]
      exact iff_of_true rfl not_descendsFrom_nil

/-- **What `consumeNumber` returns** for a whole run: the value modulo `2^32`. -/
theorem consumeDigits_value (hn : n.toNat = value % 2 ^ 32) (h : (consumeDigits n rest).2 = afterDigits rest) :
    (consumeDigits n rest).1.toNat = decimalValueFrom value (digitRun rest) % 2 ^ 32 := by
  induction rest generalizing n value with
  | nil => exact hn
  | cons c rest ih =>
    by_cases hdigit : isASCIIDigit c = true
    · rw [consumeDigits] at h ⊢
      split at h
      · rename_i hstep
        rw [if_pos hstep, digitRun_cons hdigit, decimalValueFrom_cons]
        rw [afterDigits_cons hdigit] at h
        exact ih (next_toNat hn hdigit) h
      · exact absurd h.symm (afterDigits_ne_cons hdigit)
    · rw [consumeDigits, if_neg (fun h => hdigit h.1), digitRun_cons_of_not hdigit]
      exact hn

section Number

variable (h : peekIsDigit rest = true)

include h

theorem exists_consumeDigits : ∃ c left, rest = c :: left ∧ isASCIIDigit c = true ∧
    consumeNumber rest = consumeDigits (digit c) left ∧ afterDigits rest = afterDigits left ∧
    (Descends (digitRun rest) ↔ DescendsFrom (digitValue c) (digitRun left)) ∧
    decimalValue (digitRun rest) = decimalValueFrom (digitValue c) (digitRun left) ∧
    (digit c).toNat = digitValue c % 2 ^ 32 := by
  cases rest with
  | nil => exact Bool.noConfusion h
  | cons c left =>
    obtain ⟨hvalue, hlt⟩ := digit_toNat h
    refine ⟨c, left, rfl, h, rfl, afterDigits_cons h left, ?_, ?_, ?_⟩
    · unfold Descends
      rw [digitRun_cons h, descendsFrom_cons, Nat.zero_mul, Nat.zero_add, Nat.zero_mod,
        or_iff_right (Nat.not_lt_zero _)]
    · unfold decimalValue
      rw [digitRun_cons h, decimalValueFrom_cons, Nat.zero_mul, Nat.zero_add]
    · rw [hvalue, Nat.mod_eq_of_lt (by omega)]

theorem consumeNumber_rest_iff : (consumeNumber rest).2 = afterDigits rest ↔ ¬Descends (digitRun rest) := by
  obtain ⟨c, left, -, -, hnumber, hafter, hdescends, -, hdigit⟩ := exists_consumeDigits h
  rw [hnumber, hafter, hdescends]
  exact consumeDigits_rest_iff hdigit

theorem consumeNumber_value (hrest : (consumeNumber rest).2 = afterDigits rest) :
    (consumeNumber rest).1.toNat = decimalValue (digitRun rest) % 2 ^ 32 := by
  obtain ⟨c, left, -, -, hnumber, hafter, -, hvalue, hdigit⟩ := exists_consumeDigits h
  rw [hnumber, hafter] at hrest
  rw [hnumber, hvalue]
  exact consumeDigits_value hdigit hrest

theorem consumeNumber_value_iff (hrest : (consumeNumber rest).2 = afterDigits rest) :
    (consumeNumber rest).1.toNat = decimalValue (digitRun rest) ↔ decimalValue (digitRun rest) < 2 ^ 32 := by
  rw [consumeNumber_value h hrest]
  constructor
  · intro heq
    rw [← heq]
    exact Nat.mod_lt _ (by decide)
  · exact Nat.mod_eq_of_lt

/-- **`consumeNumber` never yields a wrapped number if and only if the run fits or descends.** -/
theorem neverWraps_iff :
    NeverWraps rest ↔ decimalValue (digitRun rest) < 2 ^ 32 ∨ Descends (digitRun rest) := by
  unfold NeverWraps
  by_cases hrest : (consumeNumber rest).2 = afterDigits rest
  · have hnot := (consumeNumber_rest_iff h).1 hrest
    rw [or_iff_left hnot, ← consumeNumber_value_iff h hrest]
    exact ⟨fun hwraps => hwraps.1 hrest, fun heq => ⟨fun _ => heq, fun hne => absurd hrest hne⟩⟩
  · have hdescends := not_not.1 fun hn => hrest ((consumeNumber_rest_iff h).2 hn)
    have hlarge : 2 ^ 32 ≤ decimalValue (digitRun rest) := too_large_of_descends hdescends
    exact iff_of_true ⟨fun heq => absurd heq hrest, fun _ => by omega⟩ (.inr hdescends)

end Number

/-! ## Quantifiers -/

/-- The bounds that are written behind a brace; `none` is a maximum that is left out behind the comma. -/
def writtenBounds (rest : List UChar) : Nat × Option Nat :=
  (decimalValue (digitRun rest),
    match tryConsume (ascii ',') (afterDigits rest) with
    | (false, _) => some (decimalValue (digitRun rest))
    | (true, rest) => if peekIsDigit rest then some (decimalValue (digitRun rest)) else none)

/-- The bounds are those that are written. -/
def BoundsAreWritten (rest : List UChar) (min max : UInt32) : Prop :=
  min.toNat = (writtenBounds rest).1 ∧
    match (writtenBounds rest).2 with
    | some written => max.toNat = written
    | none => max = quantifyInfinite

def WrittenBoundsFit (rest : List UChar) : Prop :=
  (writtenBounds rest).1 < 2 ^ 32 ∧ ∀ written, (writtenBounds rest).2 = some written → written < 2 ^ 32

theorem tryConsume_digit {ch d : UChar} {left : List UChar} (hd : isASCIIDigit d = true)
    (hch : ¬isASCIIDigit ch = true) : tryConsume ch (d :: left) = (false, d :: left) := by
  rw [tryConsume, if_neg]
  rintro rfl
  exact hch hd

theorem consumeNumber_digit (h : peekIsDigit rest = true) (hrest : (consumeNumber rest).2 ≠ afterDigits rest) :
    ∃ d left, (consumeNumber rest).2 = d :: left ∧ isASCIIDigit d = true := by
  obtain ⟨c, left, -, -, hnumber, hafter, -⟩ := exists_consumeDigits h
  rw [hnumber, hafter] at hrest
  rw [hnumber]
  exact (consumeDigits_rest _ _).resolve_left hrest

/-- **The bounds of a quantifier** are those that are written if and only if these fit: a quantifier is complete only if
its numbers are consumed whole. -/
theorem boundsAreWritten_iff {min max : UInt32} {left : List UChar} (h : parseBounds rest = some (min, max, left)) :
    BoundsAreWritten rest min max ↔ WrittenBoundsFit rest := by
  rw [parseBounds] at h
  split at h
  · rename_i hdigit
    simp only at h
    by_cases hrest : (consumeNumber rest).2 = afterDigits rest
    · have hmin := consumeNumber_value_iff hdigit hrest
      rw [hrest] at h
      unfold BoundsAreWritten WrittenBoundsFit writtenBounds
      cases hcomma : tryConsume (ascii ',') (afterDigits rest) with
      | mk comma more =>
        cases comma with
        | false =>
          simp only [parseMaximum, hcomma] at h
          split at h
          · cases h
            simp only [hmin, Option.some.injEq, forall_eq']
          · exact absurd h (by simp)
        | true =>
          simp only [parseMaximum, hcomma] at h
          by_cases hmore : peekIsDigit more = true
          · rw [if_pos hmore] at h
            by_cases hmax : (consumeNumber more).2 = afterDigits more
            · have hvalue := consumeNumber_value_iff hmore hmax
              split at h
              · cases h
                simp only [hmin, if_pos hmore, hvalue, Option.some.injEq, forall_eq']
              · exact absurd h (by simp)
            · obtain ⟨d, left', heq, hd⟩ := consumeNumber_digit hmore hmax
              rw [heq, tryConsume_digit hd (by decide)] at h
              exact absurd h (by simp)
          · rw [if_neg hmore] at h
            split at h
            · cases h
              simp [hmin, if_neg hmore]
            · exact absurd h (by simp)
    · obtain ⟨d, left', heq, hd⟩ := consumeNumber_digit hdigit hrest
      rw [heq, parseMaximum, tryConsume_digit hd (by decide)] at h
      simp only [tryConsume_digit hd (show ¬isASCIIDigit (ascii '\x7d') = true by decide)] at h
      exact absurd h (by simp)
  · exact absurd h (by simp)

theorem parseBrace_quantifier {depth : Nat} {atom greedy : Bool} {min max : UInt32} {state : ParserState}
    (h : parseBrace depth atom c rest = ⟨[.quantifyAtom min max greedy], .ok state⟩) :
    ∃ left, parseBounds rest = some (min, max, left) := by
  rw [parseBrace] at h
  split at h
  · rename_i hbounds
    split at h
    · rw [parseQuantifier] at h
      split at h
      · exact absurd h (by simp)
      · split at h
        · simp only [Parsed.mk.injEq, List.cons.injEq, Token.quantifyAtom.injEq] at h
          obtain ⟨⟨⟨rfl, rfl, -⟩, -⟩, -⟩ := h
          exact ⟨_, hbounds⟩
        · exact absurd h (by simp)
    · exact absurd h (by simp)
  · exact absurd h (by simp)

/-! ## Back references -/

theorem letterEscape_ne_backReference (inCharacterClass : Bool) (c : UChar) (n : UInt32) :
    letterEscape inCharacterClass c ≠ some (.atomBackReference n) := by
  have hif : ∀ (p : Prop) [Decidable p] (a b x : Option Escape), a ≠ x → b ≠ x → (if p then a else b) ≠ x := by
    intro p _ a b x ha hb
    split <;> assumption
  rw [letterEscape]
  cases inCharacterClass <;> (repeat' apply hif) <;> simp

theorem parseEscape_backReference {limit : UInt32} {left : List UChar}
    (h : parseEscape false limit rest = some (.atomBackReference n, left)) :
    peekIsDigit rest = true ∧ consumeNumber rest = (n, left) ∧ n ≤ limit := by
  cases rest with
  | nil => exact absurd h (by simp [parseEscape])
  | cons c rest =>
    rw [parseEscape, Option.some.injEq] at h
    split at h
    · rename_i hletter
      cases h
      exact absurd hletter (letterEscape_ne_backReference false c n)
    · split at h
      · rename_i hdigit
        rw [parseDecimalEscape] at h
        simp only at h
        split at h
        · rename_i hlimit
          simp only [Prod.mk.injEq, Escape.atomBackReference.injEq] at h
          obtain ⟨rfl, rfl⟩ := h
          refine ⟨?_, rfl, hlimit.2⟩
          rw [peekIsDigit, isASCIIDigit, decide_eq_true_eq]
          exact ⟨UInt16.le_trans (by decide) hdigit.1, hdigit.2⟩
        · split at h <;> exact absurd h (by simp)
      · have hhex : ∀ letter count, parseHexEscape letter count rest ≠ (.atomBackReference n, left) := by
          intro letter count
          rw [parseHexEscape]
          split <;> simp
        have hcontrol : parseControlLetter false rest ≠ (.atomBackReference n, left) := by
          cases rest with
          | nil => simp [parseControlLetter]
          | cons control rest =>
            rw [parseControlLetter]
            split <;> simp
        split at h
        · exact absurd h (by simp)
        · split at h
          · exact absurd h hcontrol
          · split at h
            · exact absurd h (hhex _ _)
            · split at h
              · exact absurd h (hhex _ _)
              · exact absurd h (by simp)

/-- **The number of a back reference** is the one that is written if and only if that fits. -/
theorem backReference_iff {limit : UInt32} {left : List UChar}
    (h : parseEscape false limit rest = some (.atomBackReference n, left)) :
    n.toNat = decimalValue (digitRun rest) ↔ decimalValue (digitRun rest) < 2 ^ 32 := by
  obtain ⟨hdigit, hnumber, -⟩ := parseEscape_backReference h
  by_cases hrest : (consumeNumber rest).2 = afterDigits rest
  · have hvalue := consumeNumber_value_iff hdigit hrest
    rwa [hnumber] at hvalue
  · have hlarge : 2 ^ 32 ≤ decimalValue (digitRun rest) :=
      too_large_of_descends (not_not.1 fun hn => hrest ((consumeNumber_rest_iff hdigit).2 hn))
    have hlt := n.toNat_lt
    omega

/-- **The numbers of a pattern**: `consumeNumber` never yields a wrapped number if and only if the run of digits fits or
descends, and the quantifiers and the back references that parse have the numbers that are written if and only if these
fit. -/
theorem numbers_exact (rest : List UChar) :
    (peekIsDigit rest = true →
      (NeverWraps rest ↔ decimalValue (digitRun rest) < 2 ^ 32 ∨ Descends (digitRun rest))) ∧
    (∀ depth atom c min max greedy state,
      parseBrace depth atom c rest = ⟨[.quantifyAtom min max greedy], .ok state⟩ →
        (BoundsAreWritten rest min max ↔ WrittenBoundsFit rest)) ∧
    ∀ limit n left, parseEscape false limit rest = some (.atomBackReference n, left) →
      (n.toNat = decimalValue (digitRun rest) ↔ decimalValue (digitRun rest) < 2 ^ 32) := by
  refine ⟨neverWraps_iff, fun depth atom c min max greedy state h => ?_, fun limit n left h => backReference_iff h⟩
  obtain ⟨left, hbounds⟩ := parseBrace_quantifier h
  exact boundsAreWritten_iff hbounds

def charactersOf (s : String) : List UChar := s.toList.map ascii

/-- A number that fits. -/
theorem numbers_exact_fits : NeverWraps (charactersOf "4294967295") :=
  ((numbers_exact _).1 (by decide)).2 (.inl (by decide))

/-- The digits of `5000000000` never descend, and a quantifier with this number repeats `705032704` times. -/
theorem consumeNumber_wraps :
    ¬NeverWraps (charactersOf "5000000000") ∧
      (parseBrace 0 true (ascii '\x7b') (charactersOf "5000000000\x7d")).tokens =
        [.quantifyAtom 705032704 705032704 true] := by
  refine ⟨fun h => ?_, by decide⟩
  have hvalue := h.1 (by decide)
  revert hvalue
  decide

end WebKit.Yarr
