import WebKit.WTF.UTF8Interning

/-!
# Interning UTF-8 is exact, but for two defects

Both equality functions and the hash take an iteration for each sequence of UTF-8 (`EqualUTF16.body_accepted`,
`EqualLatin1.body_wellFormed`, `Hashing.body_accepted`), so that their results are read off the sequences. They agree
with decoding (`interning_exact`) where

- no lax sequence is taken for a character (`HasLax`);
- no character is cut down to its low byte by `equalLatin1WithUTF8` (`Truncates`);
- the number of bytes fits into 32 bits.
-/

namespace WebKit.WTF.Unicode

open WebKit.Lib

/-! ## Bytes -/

theorem isASCII_eq (c : UInt32) : isASCII c = decide (c.toNat < 0x80) := by
  have hand : (c &&& ~~~0x7F).toNat = c.toNat / 2 ^ 7 * 2 ^ 7 := and_high c.toNat_lt (by decide : 7 ≤ 32)
  unfold isASCII
  rw [decide_eq_decide, ← UInt32.toNat_inj, hand, UInt32.toNat_zero]
  omega

@[simp] theorem isASCII_byte (b : UInt8) : isASCII b.toUInt32 = decide (b.toNat < 0x80) := by
  rw [isASCII_eq, UInt8.toNat_toUInt32]

@[simp] theorem isASCII_unit (u : UChar) : isASCII u.toUInt32 = decide (u.toNat < 0x80) := by
  rw [isASCII_eq, UInt16.toNat_toUInt32]

theorem inlineUTF8SequenceLengthNonASCII_eq : ∀ b0 : UInt8, ¬ b0.toNat < 0x80 →
    inlineUTF8SequenceLengthNonASCII b0 = inlineUTF8SequenceLength b0 :=
  forall_uint8 (by decide +kernel)

theorem leadOfTwo_iff (b : UInt8) : b &&& 0xE0 = 0xC0 ↔ 0xC0 ≤ b.toNat ∧ b.toNat < 0xE0 := by
  revert b
  exact forall_uint8 (by decide +kernel)

theorem trailing_iff (b : UInt8) : b &&& 0xC0 = 0x80 ↔ 0x80 ≤ b.toNat ∧ b.toNat < 0xC0 := by
  revert b
  exact forall_uint8 (by decide +kernel)

/-- The two bytes put together, as far as they fit into one. -/
theorem latin1Character_eq {first second : UInt8} (hfirst : 0xC0 ≤ first.toNat ∧ first.toNat < 0xE0)
    (hsecond : 0x80 ≤ second.toNat ∧ second.toNat < 0xC0) :
    (((first.toUInt32 &&& 0x1F) <<< 6) ||| (second.toUInt32 &&& 0x3F)).toUInt8 =
      UInt8.ofNat (sequenceValue [first, second]) := by
  have hhigh : first.toNat &&& (2 ^ 5 - 1) = first.toNat - 0xC0 := by
    rw [Nat.and_two_pow_sub_one_eq_mod]
    omega
  have hlow : second.toNat &&& (2 ^ 6 - 1) = second.toNat - 0x80 := by
    rw [Nat.and_two_pow_sub_one_eq_mod]
    omega
  have hsum : ((first.toNat - 0xC0) <<< 6) ||| (second.toNat - 0x80) = sequenceValue [first, second] := by
    rw [← Nat.shiftLeft_add_eq_or_of_lt (show second.toNat - 0x80 < 2 ^ 6 by omega), Nat.shiftLeft_eq,
      sequenceValue_two]
    omega
  apply UInt8.toNat.inj
  rw [UInt32.toNat_toUInt8, UInt32.toNat_or, UInt32.toNat_shiftLeft, UInt32.toNat_and, UInt32.toNat_and,
    UInt8.toNat_toUInt32, UInt8.toNat_toUInt32, UInt8.toNat_ofNat']
  show ((first.toNat &&& (2 ^ 5 - 1)) <<< 6 % 2 ^ 32 ||| second.toNat &&& (2 ^ 6 - 1)) % 2 ^ 8 = _
  have hsmall : (first.toNat - 0xC0) <<< 6 < 2 ^ 32 := by
    rw [Nat.shiftLeft_eq]
    omega
  rw [hhigh, hlow, Nat.mod_eq_of_lt hsmall, hsum]

/-! ## Sequences -/

theorem Accepted.nonASCII {q : List UInt8} (h : Accepted q) {first : UInt8} (hfirst : q.head? = some first)
    (hascii : ¬ first.toNat < 0x80) : 0x80 ≤ sequenceValue q := by
  unfold Accepted at h
  rw [fits_utf8Table_iff, fits_laxTable_iff] at h
  obtain (⟨a, rfl, h⟩ | ⟨a, b, rfl, h⟩ | ⟨a, b, c, rfl, h⟩ | ⟨a, b, c, d, rfl, h⟩) |
    (⟨a, b, c, rfl, h⟩ | ⟨a, b, c, d, rfl, h⟩) := h
  all_goals
    cases hfirst
    simp only [sequenceValue_one, sequenceValue_two, sequenceValue_three, sequenceValue_four]
    omega

theorem Accepted.ascii {q : List UInt8} (h : Accepted q) {first : UInt8} (hfirst : q.head? = some first)
    (hascii : first.toNat < 0x80) : q = [first] := by
  have hlen := (h.length []).2
  obtain ⟨hne, -⟩ := h.length []
  cases q with
  | nil => cases hfirst
  | cons a q =>
    cases hfirst
    rw [List.cons_append, List.headD_cons, inlineUTF8SequenceLength_eq, if_pos hascii, List.length_cons] at hlen
    rw [List.eq_nil_of_length_eq_zero (by omega : q.length = 0)]

theorem accepted_singleton {first : UInt8} (hascii : first.toNat < 0x80) : Accepted [first] :=
  .inl ((fits_utf8Table_iff _).2 (.inl ⟨first, rfl, by omega⟩))

theorem encodeUTF16_ascii {first : UInt8} (hascii : first.toNat < 0x80) :
    encodeUTF16 (sequenceValue [first]) = [first.toUInt16] := by
  rw [sequenceValue_one, encodeUTF16, if_pos (by omega)]
  congr 1
  apply UInt16.toNat.inj
  rw [UInt16.toNat_ofNat', UInt8.toNat_toUInt16]
  omega

theorem head_encodeUTF16 {c : Nat} (hc : 0x80 ≤ c) (hlt : c < 0x110000) :
    ∃ unit units, encodeUTF16 c = unit :: units ∧ 0x80 ≤ unit.toNat := by
  unfold encodeUTF16
  split_ifs with hbmp
  · refine ⟨_, _, rfl, ?_⟩
    rw [UInt16.toNat_ofNat']
    omega
  · refine ⟨_, _, rfl, ?_⟩
    rw [UInt16.toNat_ofNat']
    omega

section

variable (more : List UInt8) {first : UInt8}

theorem checks_accepted {q : List UInt8} (hq : Accepted q) (hfirst : q.head? = some first)
    (hascii : ¬ first.toNat < 0x80) :
    inlineUTF8SequenceLengthNonASCII first = q.length ∧ isLegalUTF8 (q ++ more) q.length = some true ∧
      UTF8ToUTF16.readUTF8Sequence (q ++ more) q.length = some (UInt32.ofNat (sequenceValue q), more) := by
  obtain ⟨hne, hlen⟩ := hq.length more
  have hhead : (q ++ more).headD 0 = first := by
    rw [head?_eq_of_headD more hne] at hfirst
    exact Option.some.inj hfirst
  rw [hhead] at hlen
  obtain ⟨legal, hlegal, hiff⟩ := isLegalUTF8_eq more hfirst hlen.symm
  rw [hiff.2 hq] at hlegal
  rw [inlineUTF8SequenceLengthNonASCII_eq first hascii]
  exact ⟨hlen, hlegal, readUTF8Sequence_eq hq more⟩

theorem checks_rejected {b : List UInt8} (hb : ∀ q rest, b = q ++ rest → ¬ Accepted q) (hfirst : b.head? = some first)
    (hascii : ¬ first.toNat < 0x80) : b.length < inlineUTF8SequenceLengthNonASCII first ∨
      isLegalUTF8 (b ++ more) (inlineUTF8SequenceLengthNonASCII first) = some false := by
  rw [inlineUTF8SequenceLengthNonASCII_eq first hascii]
  by_cases hshort : b.length < inlineUTF8SequenceLength first
  · exact .inl hshort
  · right
    generalize hn : inlineUTF8SequenceLength first = n at *
    cases n with
    | zero => rfl
    | succ n =>
      have hlen : (b.take (n + 1)).length = n + 1 := by
        rw [List.length_take]
        omega
      have hhead : (b.take (n + 1)).head? = some first := by
        cases b with
        | nil => cases hfirst
        | cons x b => exact hfirst
      obtain ⟨legal, hlegal, hiff⟩ := isLegalUTF8_eq (b.drop (n + 1) ++ more) hhead (by rw [hlen, hn])
      rw [← List.append_assoc, List.take_append_drop, hlen] at hlegal
      rw [hlegal]
      cases legal with
      | false => rfl
      | true => exact absurd (hiff.1 rfl) (hb _ _ (List.take_append_drop (n + 1) b).symm)

end

/-! ## A comparison as a comparison of sequences -/

/-- Units read one by one: what is left behind them, or nothing where one of them differs. -/
@[grind =] def readUnits {α : Type} [DecidableEq α] : List α → List α → Option (Option (List α))
  | [], a => some (some a)
  | _ :: _, [] => none
  | unit :: units, x :: a => if x = unit then readUnits units a else some none

section

variable {α : Type} [DecidableEq α]

theorem readUnits_append (units a : List α) : readUnits units (units ++ a) = some (some a) := by
  induction units with
  | nil => rfl
  | cons unit units ih => simpa [readUnits] using ih

theorem append_of_readUnits {units a left : List α} (h : readUnits units a = some (some left)) : a = units ++ left := by
  fun_induction readUnits units a with
  | case1 a =>
    cases h
    rfl
  | case2 => cases h
  | case3 units unit a ih => rw [List.cons_append, ← ih h]
  | case4 => cases h

theorem exists_readUnits {units a : List α} (h : units.length ≤ a.length) :
    ∃ result, readUnits units a = some result := by
  fun_induction readUnits units a with
  | case1 a => exact ⟨_, rfl⟩
  | case2 => simp at h
  | case3 units unit a ih => exact ih (by simpa using h)
  | case4 => exact ⟨_, rfl⟩

/-- An iteration compares the units that are expected for a sequence. There are none where it never compares equal. -/
structure Compares (body : List α → List UInt8 → Option (Option (List α × List UInt8)))
    (IsSequence : List UInt8 → Prop) (expected : List UInt8 → Option (List α)) : Prop where
  accepted : ∀ q, IsSequence q → Accepted q
  fits : ∀ q units, IsSequence q → expected q = some units → units.length ≤ (encodeUTF16 (sequenceValue q)).length
  compare : ∀ q units unit a rest, IsSequence q → expected q = some units →
    body (unit :: a) (q ++ rest) = (readUnits units (unit :: a)).map (·.map (·, rest))
  differ : ∀ q unit a rest, IsSequence q → expected q = none → body (unit :: a) (q ++ rest) = some none
  reject : ∀ unit a b, b ≠ [] → (∀ q rest, b = q ++ rest → ¬ IsSequence q) → body (unit :: a) b = some none
  empty : ∀ b, b ≠ [] → body [] b = none

variable {body : List α → List UInt8 → Option (Option (List α × List UInt8))} {IsSequence : List UInt8 → Prop}
  {expected : List UInt8 → Option (List α)}

/-- **Equal strings are equal sequence by sequence.** -/
theorem Compares.sequences_of_true (h : Compares body IsSequence expected) {fuel : Nat} {a : List α} {b : List UInt8}
    (htrue : whileEqual body fuel a b = some true) :
    ∃ (sequences : List (List UInt8)) (units : List (List α)), b = sequences.flatten ∧
      (∀ q ∈ sequences, IsSequence q) ∧ List.Forall₂ (fun q u => expected q = some u) sequences units ∧
      units.flatten <+: a := by
  induction fuel generalizing a b with
  | zero =>
    rw [whileEqual] at htrue
    split_ifs at htrue with hnil
    exact ⟨[], [], hnil, by simp, .nil, List.nil_prefix⟩
  | succ fuel ih =>
    rw [whileEqual] at htrue
    split_ifs at htrue with hnil
    · exact ⟨[], [], hnil, by simp, .nil, List.nil_prefix⟩
    · cases a with
      | nil =>
        rw [h.empty b hnil] at htrue
        cases htrue
      | cons unit a =>
        by_cases hsequence : ∃ q rest, b = q ++ rest ∧ IsSequence q
        · obtain ⟨q, rest, rfl, hq⟩ := hsequence
          cases hexpected : expected q with
          | none =>
            rw [h.differ q unit a rest hq hexpected] at htrue
            cases htrue
          | some units =>
            rw [h.compare q units unit a rest hq hexpected] at htrue
            rcases hread : readUnits units (unit :: a) with _ | _ | left
            · rw [hread] at htrue
              cases htrue
            · rw [hread] at htrue
              cases htrue
            · rw [hread] at htrue
              obtain ⟨sequences, unitss, rfl, hsequences, hunits, hpref⟩ := ih htrue
              refine ⟨q :: sequences, units :: unitss, rfl, ?_, .cons hexpected hunits, ?_⟩
              · exact List.forall_mem_cons.2 ⟨hq, hsequences⟩
              · rw [append_of_readUnits hread, List.flatten_cons]
                exact (List.prefix_append_right_inj units).2 hpref
        · rw [h.reject unit a b hnil fun q rest hb hq => hsequence ⟨q, rest, hb, hq⟩] at htrue
          cases htrue

/-- **The comparison of sequences** with a string that is not shorter. -/
theorem Compares.result (h : Compares body IsSequence expected) {sequences : List (List UInt8)}
    (hsequences : ∀ q ∈ sequences, IsSequence q) {fuel : Nat} (hfuel : sequences.flatten.length ≤ fuel) {a : List α}
    (hlen : (sequences.flatMap fun q => encodeUTF16 (sequenceValue q)).length ≤ a.length) :
    ∃ result, whileEqual body fuel a sequences.flatten = some result ∧ (result = true ↔
      ∃ units : List (List α), List.Forall₂ (fun q u => expected q = some u) sequences units ∧
        units.flatten <+: a) := by
  induction sequences generalizing fuel a with
  | nil =>
    refine ⟨true, ?_, fun _ => ⟨[], .nil, List.nil_prefix⟩, fun _ => rfl⟩
    unfold whileEqual
    exact if_pos rfl
  | cons q sequences ih =>
    have hq := hsequences q List.mem_cons_self
    have hne := ((h.accepted q hq).length []).1
    have hqpos := List.length_pos_iff.2 hne
    have hpos := length_encodeUTF16_pos (sequenceValue q)
    rw [List.flatMap_cons, List.length_append] at hlen
    rw [List.flatten_cons] at hfuel ⊢
    have hnil : ¬ q ++ sequences.flatten = [] := by simp [hne]
    obtain ⟨fuel, rfl⟩ : ∃ n, fuel = n + 1 := by
      rw [List.length_append] at hfuel
      exact ⟨fuel - 1, by omega⟩
    obtain ⟨unit, a, rfl⟩ : ∃ unit a', a = unit :: a' := List.exists_cons_of_length_pos (by omega)
    rw [whileEqual, if_neg hnil]
    cases hexpected : expected q with
    | none =>
      refine ⟨false, by rw [h.differ q unit a _ hq hexpected], by simp, ?_⟩
      rintro ⟨units, hunits, -⟩
      cases hunits with
      | cons hunit _ => cases hexpected.symm.trans hunit
    | some units =>
      have hfits := h.fits q units hq hexpected
      obtain ⟨result, hread⟩ := exists_readUnits (show units.length ≤ (unit :: a).length by omega)
      rw [h.compare q units unit a _ hq hexpected, hread]
      cases result with
      | none =>
        refine ⟨false, rfl, by simp, ?_⟩
        rintro ⟨unitss, hunits, left, hpref⟩
        cases hunits with
        | cons hunit _ =>
          cases hexpected.symm.trans hunit
          rw [← hpref, List.flatten_cons, List.append_assoc, readUnits_append] at hread
          cases hread
      | some left =>
        have ha := append_of_readUnits hread
        have hshort : (sequences.flatMap fun q => encodeUTF16 (sequenceValue q)).length ≤ left.length := by
          have := congrArg List.length ha
          rw [List.length_append] at this
          omega
        have hfuel' : sequences.flatten.length ≤ fuel := by
          rw [List.length_append] at hfuel
          omega
        obtain ⟨result, hresult, hiff⟩ := ih (fun q hq => hsequences q (List.mem_cons_of_mem _ hq)) hfuel' hshort
        refine ⟨result, hresult, hiff.trans ⟨?_, ?_⟩⟩
        · rintro ⟨unitss, hunits, hpref⟩
          refine ⟨units :: unitss, .cons hexpected hunits, ?_⟩
          rw [ha, List.flatten_cons]
          exact (List.prefix_append_right_inj units).2 hpref
        · rintro ⟨unitss, hunits, hpref⟩
          cases hunits with
          | cons hunit hunits =>
            cases hexpected.symm.trans hunit
            rw [ha, List.flatten_cons] at hpref
            exact ⟨_, hunits, (List.prefix_append_right_inj units).1 hpref⟩

end

/-! ## UTF-16 -/

namespace EqualUTF16

open UTF8ToUTF16

theorem toUInt32_ne_iff (u v : UInt16) : u.toUInt32 ≠ v.toUInt32 ↔ u ≠ v := by
  rw [Ne, Ne, ← UInt32.toNat_inj, UInt16.toNat_toUInt32, UInt16.toNat_toUInt32, UInt16.toNat_inj]

theorem body_accepted {q : List UInt8} (hq : Accepted q) (unit : UChar) (a : List UChar) (rest : List UInt8) :
    body (unit :: a) (q ++ rest) =
      (readUnits (encodeUTF16 (sequenceValue q)) (unit :: a)).map (·.map (·, rest)) := by
  obtain ⟨first, q', rfl⟩ := List.exists_cons_of_ne_nil (hq.length rest).1
  by_cases hascii : first.toNat < 0x80
  · rw [hq.ascii rfl hascii, encodeUTF16_ascii hascii]
    have hsame : unit.toUInt32 = first.toUInt32 ↔ unit = first.toUInt16 := by
      rw [← UInt32.toNat_inj, ← UInt16.toNat_inj, UInt16.toNat_toUInt32, UInt8.toNat_toUInt32, UInt8.toNat_toUInt16]
    by_cases hunit : unit = first.toUInt16 <;> simp [body, readUnits, hascii, hsame, hunit]
  · have hvalue := hq.nonASCII rfl hascii
    have hscalar := isScalar_sequenceValue hq
    obtain ⟨hlen, hlegal, hread⟩ := checks_accepted rest hq rfl hascii
    have hlong : ¬ (first :: q' ++ rest).length < (first :: q').length := by
      rw [List.length_append]
      omega
    generalize sequenceValue (first :: q') = c at *
    have hbound : c < 0x110000 := by
      unfold IsScalar at hscalar
      omega
    by_cases hunit : unit.toNat < 0x80
    · obtain ⟨unit₀, units, hunits, hle⟩ := head_encodeUTF16 hvalue hbound
      have hne : unit ≠ unit₀ := by
        rintro rfl
        omega
      have hdiffer : unit.toUInt32 ≠ first.toUInt32 := by
        rw [Ne, ← UInt32.toNat_inj, UInt16.toNat_toUInt32, UInt8.toNat_toUInt32]
        omega
      rw [hunits]
      simp [body, readUnits, hunit, hne, hdiffer]
    · unfold body
      simp only [List.head?_cons, List.cons_append, Option.bind_eq_bind, Option.bind_some, isASCII_unit, isASCII_byte,
        hunit, hascii, decide_false, Bool.or_false, Bool.false_eq_true, if_false, hlen]
      rw [← List.cons_append, if_neg hlong, hlegal]
      simp only [Option.bind_some, Bool.not_true, Bool.false_eq_true, if_false, hread, isBMP_ofNat hbound]
      by_cases hbmp : c < 0x10000
      · have hunits : encodeUTF16 c = [UInt16.ofNat c] := if_pos hbmp
        have hcharacter : UInt32.ofNat c = (UInt16.ofNat c).toUInt32 := by
          apply UInt32.toNat.inj
          rw [UInt16.toNat_toUInt32, UInt32.toNat_ofNat_of_lt' (show c < 2 ^ 32 by omega),
            UInt16.toNat_ofNat_of_lt' (show c < 2 ^ 16 from hbmp)]
        have hsurrogate := isSurrogate_ofNat hbmp hscalar
        rw [hcharacter] at hsurrogate
        simp only [hbmp, decide_true, if_true, hunits, hcharacter, hsurrogate, Bool.false_eq_true, if_false,
          toUInt32_ne_iff]
        by_cases hsame : unit = UInt16.ofNat c <;> simp [readUnits, hsame]
      · have hhigh := Nat.not_lt.1 hbmp
        have hunits : encodeUTF16 c = [lead (UInt32.ofNat c), trail (UInt32.ofNat c)] := by
          rw [lead_ofNat hhigh hbound, trail_ofNat hbound]
          exact if_neg hbmp
        simp only [hbmp, decide_false, Bool.false_eq_true, if_false, isSupplementary_ofNat hhigh hbound, if_true,
          hunits]
        by_cases hlead : unit = lead (UInt32.ofNat c)
        · cases a with
          | nil => simp [readUnits, hlead]
          | cons unit₂ a => by_cases htrail : unit₂ = trail (UInt32.ofNat c) <;> simp [readUnits, hlead, htrail]
        · simp [readUnits, hlead]

theorem body_rejected (unit : UChar) (a : List UChar) {b : List UInt8} (hne : b ≠ [])
    (hb : ∀ q rest, b = q ++ rest → ¬ Accepted q) : body (unit :: a) b = some none := by
  obtain ⟨first, b, rfl⟩ := List.exists_cons_of_ne_nil hne
  have hascii : ¬ first.toNat < 0x80 := fun hascii => hb [first] b rfl (accepted_singleton hascii)
  by_cases hunit : unit.toNat < 0x80
  · have hdiffer : unit.toUInt32 ≠ first.toUInt32 := by
      rw [Ne, ← UInt32.toNat_inj, UInt16.toNat_toUInt32, UInt8.toNat_toUInt32]
      omega
    simp [body, hunit, hdiffer]
  · unfold body
    simp only [List.head?_cons, Option.bind_eq_bind, Option.bind_some, isASCII_unit, isASCII_byte, hunit, hascii,
      decide_false, Bool.or_false, Bool.false_eq_true, if_false]
    by_cases hshort : (first :: b).length < inlineUTF8SequenceLengthNonASCII first
    · rw [if_pos hshort]
      rfl
    · have hlegal := (checks_rejected [] hb rfl hascii).resolve_left hshort
      rw [List.append_nil] at hlegal
      rw [if_neg hshort, hlegal]
      rfl

/-- **`equalUTF16WithUTF8` compares the units of accepted sequences.** -/
theorem compares : Compares body Accepted fun q => some (encodeUTF16 (sequenceValue q)) where
  accepted _ hq := hq
  fits q units _ hunits := by
    cases hunits
    exact Nat.le_refl _
  compare q units unit a rest hq hunits := by
    cases hunits
    exact body_accepted hq unit a rest
  differ _ _ _ _ _ hnone := by cases hnone
  reject unit a _ hne hb := body_rejected unit a hne hb
  empty b hne := rfl

end EqualUTF16

/-! ## Latin-1 -/

namespace EqualLatin1

/-- The characters of at most two bytes whose low byte is ASCII only if they are. -/
def IsNarrow (c : Nat) : Prop := c < 0x80 ∨ c < 0x800 ∧ 0x80 ≤ c % 0x100

instance : DecidablePred IsNarrow := fun c => inferInstanceAs (Decidable (c < 0x80 ∨ c < 0x800 ∧ 0x80 ≤ c % 0x100))

/-- The byte that a character is compared with. -/
def narrowed (c : Nat) : Option UInt8 := if IsNarrow c then some (UInt8.ofNat c) else none

theorem narrowed_eq_some {c : Nat} {x : UInt8} : narrowed c = some x ↔ IsNarrow c ∧ UInt8.ofNat c = x := by
  unfold narrowed
  split_ifs with hc <;> simp [hc]

section

variable (unit : UInt8) (a : List UInt8)

theorem body_ascii {first : UInt8} (hascii : first.toNat < 0x80) (rest : List UInt8) :
    body (unit :: a) (first :: rest) = some (if unit = first then some (a, rest) else none) := by
  by_cases hsame : unit = first <;> simp [body, hascii, hsame]

theorem body_two {first second : UInt8} (hfirst : 0xC0 ≤ first.toNat ∧ first.toNat < 0xE0)
    (hsecond : 0x80 ≤ second.toNat ∧ second.toNat < 0xC0) (rest : List UInt8) :
    body (unit :: a) (first :: second :: rest) =
      some (if 0x80 ≤ unit.toNat ∧ unit = UInt8.ofNat (sequenceValue [first, second]) then some (a, rest)
        else none) := by
  have hascii : ¬ first.toNat < 0x80 := by omega
  by_cases hunit : unit.toNat < 0x80
  · have hdiffer : unit ≠ first := by
      rintro rfl
      exact hascii hunit
    have hlow : ¬ 0x80 ≤ unit.toNat := by omega
    simp [body, hunit, hdiffer, hlow]
  · have hle : 0x80 ≤ unit.toNat := Nat.not_lt.1 hunit
    unfold body
    simp only [List.head?_cons, Option.bind_eq_bind, Option.bind_some, isASCII_byte, hunit, hascii, decide_false,
      Bool.or_false, Bool.false_eq_true, if_false, List.length_cons, List.getElem?_cons_succ, List.getElem?_cons_zero,
      (leadOfTwo_iff first).2 hfirst, (trailing_iff second).2 hsecond, ne_eq, not_true_eq_false, decide_false,
      latin1Character_eq hfirst hsecond, hle, true_and]
    rw [if_neg (by omega)]
    by_cases hsame : unit = UInt8.ofNat (sequenceValue [first, second])
    · rw [if_neg (not_not_intro hsame), if_pos hsame]
      rfl
    · rw [if_pos hsame, if_neg hsame]
      rfl

/-- Every other start of a string that is not ASCII differs. -/
theorem body_other {first : UInt8} (hascii : ¬ first.toNat < 0x80) {b : List UInt8}
    (hb : ∀ second rest, b = second :: rest →
      ¬ ((0xC0 ≤ first.toNat ∧ first.toNat < 0xE0) ∧ 0x80 ≤ second.toNat ∧ second.toNat < 0xC0)) :
    body (unit :: a) (first :: b) = some none := by
  by_cases hunit : unit.toNat < 0x80
  · have hdiffer : unit ≠ first := by
      rintro rfl
      exact hascii hunit
    simp [body, hunit, hdiffer]
  · cases b with
    | nil => simp [body, hunit, hascii]
    | cons second rest =>
      have hmarks := hb second rest rfl
      rw [← leadOfTwo_iff, ← trailing_iff, Decidable.not_and_iff_or_not] at hmarks
      simp [body, hunit, hascii, hmarks]

end

/-- **`equalLatin1WithUTF8` compares the low bytes of well-formed sequences.** -/
theorem compares :
    Compares body (MatchesRow utf8Table) fun q => (narrowed (sequenceValue q)).map fun x => [x] where
  accepted _ hq := .inl hq
  fits q units _ hunits := by
    obtain ⟨x, -, rfl⟩ := Option.map_eq_some_iff.1 hunits
    exact length_encodeUTF16_pos _
  compare q units unit a rest hq hunits := by
    obtain ⟨x, hx, rfl⟩ := Option.map_eq_some_iff.1 hunits
    obtain ⟨hc, rfl⟩ := narrowed_eq_some.1 hx
    unfold IsNarrow at hc
    rw [fits_utf8Table_iff] at hq
    obtain ⟨first, rfl, hq⟩ | ⟨first, second, rfl, hq⟩ | ⟨a, b, c, rfl, hq⟩ | ⟨a, b, c, d, rfl, hq⟩ := hq
    · rw [List.singleton_append, body_ascii unit a (by omega), sequenceValue_one, UInt8.ofNat_toNat]
      by_cases hsame : unit = first <;> simp [readUnits, hsame]
    · have hvalue := sequenceValue_two first second
      rw [List.cons_append, List.singleton_append, body_two unit a (by omega) (by omega)]
      have hlow : (UInt8.ofNat (sequenceValue [first, second])).toNat = sequenceValue [first, second] % 0x100 :=
        UInt8.toNat_ofNat'
      by_cases hsame : unit = UInt8.ofNat (sequenceValue [first, second])
      · have hle : 0x80 ≤ unit.toNat := by
          rw [hsame, hlow]
          omega
        rw [if_pos ⟨hle, hsame⟩]
        simp [readUnits, hsame]
      · rw [if_neg fun h => hsame h.2]
        simp [readUnits, hsame]
    · rw [sequenceValue_three] at hc
      omega
    · rw [sequenceValue_four] at hc
      omega
  differ q unit a rest hq hnone := by
    have hc : ¬ IsNarrow (sequenceValue q) := fun hc => by simp [narrowed, hc] at hnone
    unfold IsNarrow at hc
    rw [fits_utf8Table_iff] at hq
    obtain ⟨first, rfl, hq⟩ | ⟨first, second, rfl, hq⟩ | ⟨x, b, c, rfl, hq⟩ | ⟨x, b, c, d, rfl, hq⟩ := hq
    · rw [sequenceValue_one] at hc
      omega
    · have hvalue := sequenceValue_two first second
      have hlow : (UInt8.ofNat (sequenceValue [first, second])).toNat = sequenceValue [first, second] % 0x100 :=
        UInt8.toNat_ofNat'
      rw [List.cons_append, List.singleton_append, body_two unit a (by omega) (by omega), if_neg]
      rintro ⟨hle, rfl⟩
      omega
    · exact body_other unit a (by omega) fun second rest hb => by
        cases hb
        omega
    · exact body_other unit a (by omega) fun second rest hb => by
        cases hb
        omega
  reject unit a b hne hb := by
    obtain ⟨first, b, rfl⟩ := List.exists_cons_of_ne_nil hne
    have hascii : ¬ first.toNat < 0x80 := fun hascii =>
      hb [first] b rfl ((fits_utf8Table_iff _).2 (.inl ⟨first, rfl, by omega⟩))
    by_cases htwo : ∃ second rest, b = second :: rest ∧
        (0xC0 ≤ first.toNat ∧ first.toNat < 0xE0) ∧ 0x80 ≤ second.toNat ∧ second.toNat < 0xC0
    · obtain ⟨second, rest, rfl, hfirst, hsecond⟩ := htwo
      -- C0 and C1 would have to stand for an ASCII character
      have hoverlong : first.toNat < 0xC2 := Nat.not_le.1 fun hle =>
        hb [first, second] rest rfl ((fits_utf8Table_iff _).2 (.inr (.inl ⟨first, second, rfl, by omega, by omega⟩)))
      have hvalue := sequenceValue_two first second
      have hlow : (UInt8.ofNat (sequenceValue [first, second])).toNat = sequenceValue [first, second] % 0x100 :=
        UInt8.toNat_ofNat'
      rw [body_two unit a hfirst hsecond, if_neg]
      rintro ⟨hle, rfl⟩
      omega
    · exact body_other unit a hascii fun second rest hb hmarks => htwo ⟨second, rest, hb, hmarks⟩
  empty b hne := rfl

end EqualLatin1

/-! ## Hashing -/

namespace Hashing

open UTF8ToUTF16

/-- The data that stand for a string in the two forms. -/
inductive Holds : Bool → List UInt8 → List UInt8 → Prop
  | bounded (b : List UInt8) : Holds true b b
  | terminated (b more : List UInt8) : 0 ∉ b → Holds false b (b ++ 0 :: more)

variable {isBounded : Bool} {b data q : List UInt8}

theorem Holds.exists_more (h : Holds isBounded b data) : ∃ more, data = b ++ more := by
  cases h with
  | bounded => exact ⟨[], (List.append_nil b).symm⟩
  | terminated _ more => exact ⟨0 :: more, rfl⟩

theorem Holds.drop (h : Holds isBounded (q ++ b) data) : ∃ data', data = q ++ data' ∧ Holds isBounded b data' := by
  cases h with
  | bounded => exact ⟨b, rfl, .bounded b⟩
  | terminated _ more hzero =>
    refine ⟨b ++ 0 :: more, List.append_assoc .., .terminated b more ?_⟩
    exact fun hmem => hzero (List.mem_append_right q hmem)

theorem hasMore_eq (h : Holds isBounded b data) : hasMore isBounded data = some (decide (b ≠ [])) := by
  cases h with
  | bounded => rfl
  | terminated _ more hzero =>
    cases b with
    | nil => rfl
    | cons first b =>
      have hne : first ≠ 0 := fun heq => hzero (heq ▸ List.mem_cons_self)
      simp [hasMore, hne]

theorem nonzero_eq (n : Nat) (more : List UInt8) (hzero : 0 ∉ b) :
    nonzero n (b ++ 0 :: more) = some (decide (n ≤ b.length)) := by
  induction n generalizing b with
  | zero => simp [nonzero]
  | succ n ih =>
    cases b with
    | nil => simp [nonzero]
    | cons byte b =>
      rw [List.mem_cons, not_or] at hzero
      rw [List.cons_append, nonzero, if_neg (Ne.symm hzero.1), ih hzero.2]
      simp

theorem isComplete_eq (h : Holds isBounded b data) (hne : b ≠ []) (n : Nat) :
    isComplete isBounded data n = some (decide (n ≤ b.length)) := by
  cases h with
  | bounded => rfl
  | terminated _ more hzero =>
    obtain ⟨first, b, rfl⟩ := List.exists_cons_of_ne_nil hne
    have hrest := nonzero_eq (n - 1) more fun hmem => hzero (List.mem_cons_of_mem first hmem)
    have hle : (n - 1 ≤ b.length) ↔ n ≤ (first :: b).length := by
      rw [List.length_cons]
      omega
    rw [decide_eq_decide.2 hle] at hrest
    exact hrest

/-- The variables after a sequence. -/
def addSequence (state : Hashing) (q : List UInt8) : Hashing where
  stringHasher := (encodeUTF16 (sequenceValue q)).foldl StringHasher.addCharacter state.stringHasher
  dataLength := state.dataLength + UInt32.ofNat q.length
  utf16Length := state.utf16Length + UInt32.ofNat (encodeUTF16 (sequenceValue q)).length

theorem body_accepted (hq : Accepted q) (h : Holds isBounded (q ++ b) (q ++ data)) (state : Hashing) :
    body isBounded (q ++ data) state = some (.ok (data, state.addSequence q)) := by
  have hcomplete := isComplete_eq h (by simp [(hq.length b).1]) q.length
  obtain ⟨first, q', rfl⟩ := List.exists_cons_of_ne_nil (hq.length b).1
  by_cases hascii : first.toNat < 0x80
  · have hsingle := hq.ascii rfl hascii
    obtain rfl : q' = [] := by simpa using hsingle
    simp [body, hascii, addSequence, encodeUTF16_ascii hascii]
  · have hscalar := isScalar_sequenceValue hq
    obtain ⟨hlen, hlegal, hread⟩ := checks_accepted data hq rfl hascii
    rw [List.length_append, decide_eq_true (Nat.le_add_right _ _)] at hcomplete
    unfold body addSequence
    generalize sequenceValue (first :: q') = c at *
    have hbound : c < 0x110000 := by
      unfold IsScalar at hscalar
      omega
    simp only [List.head?_cons, List.cons_append, Option.bind_eq_bind, Option.bind_some, isASCII_byte, hascii,
      decide_false, Bool.false_eq_true, if_false, hlen]
    rw [← List.cons_append, hcomplete, Option.bind_some, hlegal]
    simp only [Option.bind_some, Bool.not_true, Bool.false_eq_true, if_false, hread, isBMP_ofNat hbound]
    by_cases hbmp : c < 0x10000
    · have hunits : encodeUTF16 c = [UInt16.ofNat c] := if_pos hbmp
      simp only [hbmp, decide_true, if_true, isSurrogate_ofNat hbmp hscalar, Bool.false_eq_true, if_false, hunits,
        toUInt16_ofNat]
      rfl
    · have hhigh := Nat.not_lt.1 hbmp
      have hunits : encodeUTF16 c = [lead (UInt32.ofNat c), trail (UInt32.ofNat c)] := by
        rw [lead_ofNat hhigh hbound, trail_ofNat hbound]
        exact if_neg hbmp
      simp only [hbmp, decide_false, Bool.false_eq_true, if_false, isSupplementary_ofNat hhigh hbound, if_true, hunits,
        StringHasher.addCharacters_eq]
      rfl

/-- Where there is none, an iteration returns 0 with the same lengths in both forms. -/
theorem body_rejected (hne : b ≠ []) (hb : ∀ q rest, b = q ++ rest → ¬ Accepted q) (state : Hashing) :
    ∃ state', ∀ isBounded data, Holds isBounded b data → body isBounded data state = some (.error state') := by
  obtain ⟨first, b, rfl⟩ := List.exists_cons_of_ne_nil hne
  have hascii : ¬ first.toNat < 0x80 := fun hascii => hb [first] b rfl (accepted_singleton hascii)
  refine ⟨{ state with
    dataLength := state.dataLength + UInt32.ofNat (inlineUTF8SequenceLengthNonASCII first) }, ?_⟩
  intro isBounded data h
  have hcomplete := isComplete_eq h hne (inlineUTF8SequenceLengthNonASCII first)
  obtain ⟨more, rfl⟩ := h.exists_more
  unfold body
  simp only [List.cons_append, List.head?_cons, Option.bind_eq_bind, Option.bind_some, isASCII_byte, hascii,
    decide_false, Bool.false_eq_true, if_false]
  rw [← List.cons_append, hcomplete]
  by_cases hshort : (first :: b).length < inlineUTF8SequenceLengthNonASCII first
  · rw [decide_eq_false (Nat.not_le.2 hshort)]
    rfl
  · have hlegal := (checks_rejected more hb rfl hascii).resolve_left hshort
    rw [decide_eq_true (Nat.not_lt.1 hshort), hlegal]
    rfl

/-- **Accepted sequences are hashed** in both forms. -/
theorem loop_accepted {sequences : List (List UInt8)} (hsequences : ∀ q ∈ sequences, Accepted q)
    (h : Holds isBounded sequences.flatten data) {fuel : Nat} (hfuel : sequences.flatten.length ≤ fuel)
    (state : Hashing) : loop isBounded fuel data state = some (.ok (sequences.foldl addSequence state)) := by
  induction sequences generalizing data fuel state with
  | nil =>
    unfold loop
    rw [hasMore_eq h]
    rfl
  | cons q sequences ih =>
    have hq := hsequences q List.mem_cons_self
    have hne := (hq.length []).1
    have hpos := List.length_pos_iff.2 hne
    rw [List.flatten_cons] at h
    obtain ⟨data, rfl, hrest⟩ := h.drop
    rw [List.flatten_cons, List.length_append] at hfuel
    obtain ⟨fuel, rfl⟩ : ∃ n, fuel = n + 1 := ⟨fuel - 1, by omega⟩
    rw [loop, hasMore_eq h, decide_eq_true (by simp [hne]), body_accepted hq h]
    exact ih (fun q hq => hsequences q (List.mem_cons_of_mem _ hq)) hrest (by omega) _

/-- **The hash of a string is the same in both forms**, and 0 unless the string is made of accepted sequences. -/
theorem exists_loop (b : List UInt8) (state : Hashing) :
    ∃ result, (∀ isBounded data fuel, Holds isBounded b data → b.length ≤ fuel →
        loop isBounded fuel data state = some result) ∧
      ∀ state', result = .ok state' → ∃ sequences : List (List UInt8), b = sequences.flatten ∧
        ∀ q ∈ sequences, Accepted q := by
  induction hn : b.length using Nat.strongRecOn generalizing b state with
  | ind n ih =>
    by_cases hne : b = []
    · subst hne
      refine ⟨.ok state, fun isBounded data fuel h _ => ?_, fun _ _ => ⟨[], rfl, by simp⟩⟩
      unfold loop
      rw [hasMore_eq h]
      rfl
    · have hpos := List.length_pos_iff.2 hne
      by_cases haccepted : ∃ q rest, b = q ++ rest ∧ Accepted q
      · obtain ⟨q, rest, rfl, hq⟩ := haccepted
        have hqpos := List.length_pos_iff.2 (hq.length []).1
        rw [List.length_append] at hn
        obtain ⟨result, hresult, hok⟩ := ih rest.length (by omega) rest (state.addSequence q) rfl
        refine ⟨result, fun isBounded data fuel h hfuel => ?_, fun state' heq => ?_⟩
        · obtain ⟨data, rfl, hrest⟩ := h.drop
          obtain ⟨fuel, rfl⟩ : ∃ n, fuel = n + 1 := ⟨fuel - 1, by omega⟩
          rw [loop, hasMore_eq h, decide_eq_true hne, body_accepted hq h]
          exact hresult isBounded data fuel hrest (by omega)
        · obtain ⟨sequences, rfl, hsequences⟩ := hok state' heq
          exact ⟨q :: sequences, rfl, List.forall_mem_cons.2 ⟨hq, hsequences⟩⟩
      · obtain ⟨state', hbody⟩ := body_rejected hne (fun q rest hb hq => haccepted ⟨q, rest, hb, hq⟩) state
        refine ⟨.error state', fun isBounded data fuel h hfuel => ?_, fun _ hok => by cases hok⟩
        obtain ⟨fuel, rfl⟩ : ∃ n, fuel = n + 1 := ⟨fuel - 1, by omega⟩
        rw [loop, hasMore_eq h, decide_eq_true hne, hbody isBounded data h]

theorem foldl_addSequence (sequences : List (List UInt8)) (state : Hashing) :
    sequences.foldl addSequence state =
      { stringHasher := (sequences.flatMap fun q => encodeUTF16 (sequenceValue q)).foldl StringHasher.addCharacter
          state.stringHasher
        dataLength := state.dataLength + UInt32.ofNat sequences.flatten.length
        utf16Length := state.utf16Length +
          UInt32.ofNat (sequences.flatMap fun q => encodeUTF16 (sequenceValue q)).length } := by
  induction sequences generalizing state with
  | nil => simp
  | cons q sequences ih =>
    rw [List.foldl_cons, ih, List.flatMap_cons, List.flatten_cons, List.foldl_append, List.length_append,
      List.length_append, UInt32.ofNat_add, UInt32.ofNat_add, ← UInt32.add_assoc, ← UInt32.add_assoc]
    rfl

end Hashing

/-! ## Agreement with decoding -/

/-- The bytes are well-formed UTF-8, and the units are what they stand for. -/
def DecodesTo (b : List UInt8) (text : List UChar) : Prop :=
  ∃ cs : List Nat, (∀ c ∈ cs, IsScalar c) ∧ b = cs.flatMap encodeUTF8 ∧ text = cs.flatMap encodeUTF16

/-- A comparison is true exactly for the string that the bytes stand for: among the strings of its length, and among
all of them where the bytes are ill-formed. -/
def EqualAgrees (result : Option Bool) (a : List UChar) (b : List UInt8) : Prop :=
  (∀ text, DecodesTo b text → a.length = text.length → result = some (decide (a = text))) ∧
    ((¬ ∃ text, DecodesTo b text) → result ≠ some true)

/-- The hash and the lengths are those of the string that the bytes stand for, the hash is 0 where the bytes are
ill-formed, and bytes in front of a byte 0 have the hash and the lengths of the range. -/
def HashAgrees (b : List UInt8) : Prop :=
  ∀ dataLength utf16Length,
    (∀ text, DecodesTo b text → ∃ result,
      calculateStringHashAndLengthFromUTF8MaskingTop8Bits (some b) true dataLength utf16Length = some result ∧
      result.hash = StringHasher.computeHashAndMaskTop8Bits text ∧
      result.dataLength.toNat = b.length ∧ result.utf16Length.toNat = text.length) ∧
    ((¬ ∃ text, DecodesTo b text) → ∃ result,
      calculateStringHashAndLengthFromUTF8MaskingTop8Bits (some b) true dataLength utf16Length = some result ∧
      result.hash = 0) ∧
    (0 ∉ b → ∀ more,
      calculateStringHashAndLengthFromUTF8MaskingTop8Bits (some (b ++ 0 :: more)) false dataLength utf16Length =
        calculateStringHashAndLengthFromUTF8MaskingTop8Bits (some b) true dataLength utf16Length)

/-- The Latin-1 string has the low bytes of the characters that the bytes stand for, and one of them is cut down: a
character from U+0100 to U+07FF whose low byte is not ASCII. -/
def Truncates (a b : List UInt8) : Prop :=
  ∃ cs : List Nat, b = cs.flatMap encodeUTF8 ∧ a = cs.map UInt8.ofNat ∧ (∀ c ∈ cs, EqualLatin1.IsNarrow c) ∧
    ∃ c ∈ cs, 0x100 ≤ c

theorem decodesTo_iff {b : List UInt8} {text : List UChar} : DecodesTo b text ↔
    ∃ sequences : List (List UInt8), b = sequences.flatten ∧ (∀ q ∈ sequences, MatchesRow utf8Table q) ∧
      text = sequences.flatMap fun q => encodeUTF16 (sequenceValue q) := by
  constructor
  · rintro ⟨cs, hcs, rfl, rfl⟩
    refine ⟨cs.map encodeUTF8, List.flatMap_def .., ?_, (flatMap_encodeUTF16 cs hcs).symm⟩
    intro q hq
    obtain ⟨c, hc, rfl⟩ := List.mem_map.1 hq
    exact fits_encodeUTF8 (hcs c hc)
  · rintro ⟨sequences, rfl, hsequences, rfl⟩
    refine ⟨sequences.map sequenceValue, ?_, (flatMap_encodeUTF8 hsequences).symm, (List.flatMap_map ..).symm⟩
    intro c hc
    obtain ⟨q, hq, rfl⟩ := List.mem_map.1 hc
    exact isScalar_sequenceValue (.inl (hsequences q hq))

theorem decodesTo_of_not_lax {sequences : List (List UInt8)} (hsequences : ∀ q ∈ sequences, Accepted q)
    (hlax : ¬ HasLax sequences.flatten) :
    DecodesTo sequences.flatten (sequences.flatMap fun q => encodeUTF16 (sequenceValue q)) := by
  refine decodesTo_iff.2 ⟨sequences, rfl, fun q hq => (hsequences q hq).resolve_right fun h => ?_, rfl⟩
  exact hlax ⟨sequences, rfl, hsequences, q, hq, h⟩

theorem HasLax.not_decodesTo {b : List UInt8} (h : HasLax b) : ¬ ∃ text, DecodesTo b text := by
  rintro ⟨text, htext⟩
  obtain ⟨wellFormed, hb, hwellFormed, -⟩ := decodesTo_iff.1 htext
  obtain ⟨sequences, hb', hsequences, q, hq, hlax⟩ := h
  obtain rfl := accepted_unique hsequences (fun q hq => .inl (hwellFormed q hq)) (hb'.symm.trans hb)
  exact not_lax_of_fits (hwellFormed q hq) hlax

/-- **`equalUTF16WithUTF8` agrees with decoding** where no lax sequence is taken for a character. -/
theorem equalUTF16WithUTF8_agrees (a : List UChar) {b : List UInt8} (hlax : ¬ HasLax b) :
    EqualAgrees (equalUTF16WithUTF8 a b) a b := by
  constructor
  · intro text htext hlength
    obtain ⟨sequences, rfl, hsequences, rfl⟩ := decodesTo_iff.1 htext
    obtain ⟨result, hresult, hiff⟩ := EqualUTF16.compares.result (fun q hq => .inl (hsequences q hq))
      (Nat.le_refl sequences.flatten.length) hlength.ge
    have hunits (units : List (List UChar)) :
        List.Forall₂ (fun q u => some (encodeUTF16 (sequenceValue q)) = some u) sequences units ↔
          units = sequences.map fun q => encodeUTF16 (sequenceValue q) := by
      simp only [Option.some.injEq]
      rw [← List.forall₂_map_left_iff (R := fun u v => u = v), List.forall₂_eq_eq_eq, eq_comm]
    simp only [hunits, exists_eq_left, ← List.flatMap_def] at hiff
    have hpref : (sequences.flatMap fun q => encodeUTF16 (sequenceValue q)) <+: a ↔
        a = sequences.flatMap fun q => encodeUTF16 (sequenceValue q) :=
      ⟨fun h => (h.eq_of_length hlength.symm).symm, fun h => h ▸ List.prefix_refl _⟩
    rw [hpref] at hiff
    rw [equalUTF16WithUTF8, hresult, (Bool.eq_iff_iff.2 (hiff.trans decide_eq_true_iff.symm) : result = _)]
  · intro hill htrue
    obtain ⟨sequences, units, rfl, hsequences, -⟩ := EqualUTF16.compares.sequences_of_true htrue
    exact hill ⟨_, decodesTo_of_not_lax hsequences hlax⟩

theorem flatMap_encodeUTF16_narrow {cs : List Nat} (h : ∀ c ∈ cs, EqualLatin1.IsNarrow c) :
    cs.flatMap encodeUTF16 = cs.map UInt16.ofNat := by
  rw [List.map_eq_flatMap]
  refine List.flatMap_congr fun c hc => if_pos ?_
  have hnarrow := h c hc
  unfold EqualLatin1.IsNarrow at hnarrow
  omega

/-- The bytes that are expected for characters are their low bytes. -/
theorem narrow_of_units {cs : List Nat} (hcs : ∀ c ∈ cs, IsScalar c) {units : List (List UInt8)}
    (h : List.Forall₂ (fun q u => (EqualLatin1.narrowed (sequenceValue q)).map (fun x => [x]) = some u)
      (cs.map encodeUTF8) units) :
    (∀ c ∈ cs, EqualLatin1.IsNarrow c) ∧ units.flatten = cs.map UInt8.ofNat := by
  induction cs generalizing units with
  | nil =>
    cases h
    exact ⟨by simp, rfl⟩
  | cons c cs ih =>
    cases h with
    | cons hunit hunits =>
      obtain ⟨hc, hcs⟩ := List.forall_mem_cons.1 hcs
      rw [sequenceValue_encodeUTF8 hc] at hunit
      obtain ⟨x, hx, rfl⟩ := Option.map_eq_some_iff.1 hunit
      obtain ⟨hnarrow, rfl⟩ := EqualLatin1.narrowed_eq_some.1 hx
      obtain ⟨hrest, heq⟩ := ih hcs hunits
      exact ⟨List.forall_mem_cons.2 ⟨hnarrow, hrest⟩, by rw [List.flatten_cons, heq]; rfl⟩

theorem exists_equalLatin1WithUTF8 {cs : List Nat} (hcs : ∀ c ∈ cs, IsScalar c) {a : List UInt8}
    (hlength : a.length = (cs.flatMap encodeUTF16).length) :
    ∃ result, equalLatin1WithUTF8 a (cs.flatMap encodeUTF8) = some result ∧
      (result = true ↔ (∀ c ∈ cs, EqualLatin1.IsNarrow c) ∧ a = cs.map UInt8.ofNat) := by
  have hsequences : ∀ q ∈ cs.map encodeUTF8, MatchesRow utf8Table q := by
    intro q hq
    obtain ⟨c, hc, rfl⟩ := List.mem_map.1 hq
    exact fits_encodeUTF8 (hcs c hc)
  obtain ⟨result, hresult, hiff⟩ := EqualLatin1.compares.result hsequences (Nat.le_refl _) (a := a)
    (by rw [flatMap_encodeUTF16 cs hcs]; exact hlength.ge)
  rw [← List.flatMap_def] at hresult
  refine ⟨result, hresult, hiff.trans ⟨?_, ?_⟩⟩
  · rintro ⟨units, hunits, hpref⟩
    obtain ⟨hnarrow, hunits⟩ := narrow_of_units hcs hunits
    rw [hunits] at hpref
    rw [flatMap_encodeUTF16_narrow hnarrow, List.length_map] at hlength
    exact ⟨hnarrow, (hpref.eq_of_length (by rw [List.length_map, hlength])).symm⟩
  · rintro ⟨hnarrow, rfl⟩
    refine ⟨cs.map fun c => [UInt8.ofNat c], ?_, ?_⟩
    · rw [List.forall₂_map_left_iff, List.forall₂_map_right_iff, List.forall₂_same]
      intro c hc
      rw [sequenceValue_encodeUTF8 (hcs c hc), EqualLatin1.narrowed_eq_some.2 ⟨hnarrow c hc, rfl⟩]
      rfl
    · rw [← List.flatMap_def, List.map_eq_flatMap]

theorem toUInt16_ofNat_byte {c : Nat} (h : c < 0x100) : (UInt8.ofNat c).toUInt16 = UInt16.ofNat c := by
  apply UInt16.toNat.inj
  rw [UInt8.toNat_toUInt16, UInt8.toNat_ofNat', UInt16.toNat_ofNat']
  omega

/-- Only characters below U+0100 are written as units below it. -/
theorem lt_of_byte_mem_encodeUTF16 {c : Nat} (hc : IsScalar c) (h : ∀ u ∈ encodeUTF16 c, u.toNat < 0x100) :
    c < 0x100 := by
  unfold IsScalar at hc
  unfold encodeUTF16 at h
  split_ifs at h
  · have := h _ List.mem_cons_self
    rw [UInt16.toNat_ofNat'] at this
    omega
  · have := h _ List.mem_cons_self
    rw [UInt16.toNat_ofNat'] at this
    omega

/-- The Latin-1 string is what the bytes stand for exactly if it has their low bytes and none of them is cut down. -/
theorem map_toUInt16_eq_iff {cs : List Nat} (hcs : ∀ c ∈ cs, IsScalar c) (a : List UInt8) :
    a.map UInt8.toUInt16 = cs.flatMap encodeUTF16 ↔ (∀ c ∈ cs, c < 0x100) ∧ a = cs.map UInt8.ofNat := by
  have hbytes (h : ∀ c ∈ cs, c < 0x100) : (cs.map UInt8.ofNat).map UInt8.toUInt16 = cs.flatMap encodeUTF16 := by
    rw [List.map_map, List.map_eq_flatMap]
    refine List.flatMap_congr fun c hc => ?_
    rw [encodeUTF16, if_pos (Nat.lt_trans (h c hc) (by decide)), Function.comp_apply, toUInt16_ofNat_byte (h c hc)]
  constructor
  · intro heq
    have hlt : ∀ c ∈ cs, c < 0x100 := fun c hc => lt_of_byte_mem_encodeUTF16 (hcs c hc) fun u hu => by
      have hmem : u ∈ a.map UInt8.toUInt16 := heq ▸ List.mem_flatMap_of_mem hc hu
      obtain ⟨x, -, rfl⟩ := List.mem_map.1 hmem
      rw [UInt8.toNat_toUInt16]
      exact x.toNat_lt
    rw [← hbytes hlt] at heq
    have hinjective : Function.Injective UInt8.toUInt16 := fun x y hxy => UInt8.toNat.inj (by
      simpa using congrArg UInt16.toNat hxy)
    exact ⟨hlt, List.map_injective_iff.2 hinjective heq⟩
  · rintro ⟨hlt, rfl⟩
    exact hbytes hlt

/-- **`equalLatin1WithUTF8` agrees with decoding exactly where no character is cut down.** -/
theorem equalLatin1WithUTF8_agrees_iff (a b : List UInt8) :
    EqualAgrees (equalLatin1WithUTF8 a b) (a.map UInt8.toUInt16) b ↔ ¬ Truncates a b := by
  constructor
  · rintro ⟨hagrees, -⟩ ⟨cs, rfl, rfl, hnarrow, c, hc, hlarge⟩
    have hcs : ∀ c ∈ cs, IsScalar c := fun c hc => by
      have := hnarrow c hc
      unfold EqualLatin1.IsNarrow at this
      unfold IsScalar
      omega
    have hlength : (cs.map UInt8.ofNat).length = (cs.flatMap encodeUTF16).length := by
      rw [flatMap_encodeUTF16_narrow hnarrow, List.length_map, List.length_map]
    obtain ⟨result, hresult, hiff⟩ := exists_equalLatin1WithUTF8 hcs hlength
    have hdecided := hagrees _ ⟨cs, hcs, rfl, rfl⟩ (by rw [List.length_map, hlength])
    rw [hresult, hiff.2 ⟨hnarrow, rfl⟩] at hdecided
    have heq := of_decide_eq_true (Option.some.inj hdecided).symm
    exact absurd (((map_toUInt16_eq_iff hcs _).1 heq).1 c hc) (Nat.not_lt.2 hlarge)
  · intro hnot
    constructor
    · rintro text ⟨cs, hcs, rfl, rfl⟩ hlength
      rw [List.length_map] at hlength
      obtain ⟨result, hresult, hiff⟩ := exists_equalLatin1WithUTF8 hcs hlength
      have hdecide : result = true ↔ a.map UInt8.toUInt16 = cs.flatMap encodeUTF16 := by
        rw [hiff, map_toUInt16_eq_iff hcs]
        constructor
        · rintro ⟨hnarrow, rfl⟩
          refine ⟨fun c hc => Nat.not_le.1 fun hlarge => hnot ⟨cs, rfl, rfl, hnarrow, c, hc, hlarge⟩, rfl⟩
        · rintro ⟨hlt, rfl⟩
          refine ⟨fun c hc => ?_, rfl⟩
          have := hlt c hc
          unfold EqualLatin1.IsNarrow
          omega
      rw [hresult, (Bool.eq_iff_iff.2 (hdecide.trans decide_eq_true_iff.symm) : result = _)]
    · intro hill htrue
      obtain ⟨sequences, -, rfl, hsequences, -⟩ := EqualLatin1.compares.sequences_of_true htrue
      exact hill ⟨_, decodesTo_iff.2 ⟨sequences, rfl, hsequences, rfl⟩⟩

/-- **The hash agrees with decoding exactly where no lax sequence is taken for a character** and well-formed bytes are
few enough to be counted. -/
theorem hash_agrees_iff (b : List UInt8) :
    HashAgrees b ↔ ¬ HasLax b ∧ ((∃ text, DecodesTo b text) → b.length < 2 ^ 32) := by
  obtain ⟨result, hloop, hok⟩ := Hashing.exists_loop b {}
  have hrange := hloop true b b.length (.bounded b) (Nat.le_refl _)
  have hsequences {sequences : List (List UInt8)} (h : ∀ q ∈ sequences, Accepted q) (hb : b = sequences.flatten) :
      result = .ok (sequences.foldl Hashing.addSequence {}) := by
    subst hb
    rw [Hashing.loop_accepted h (.bounded _) (Nat.le_refl _)] at hrange
    exact (Option.some.inj hrange).symm
  constructor
  · intro hagrees
    obtain ⟨hdecodes, hill, -⟩ := hagrees 0 0
    constructor
    · intro hlax
      obtain ⟨hashed, hcall, hzero⟩ := hill hlax.not_decodesTo
      obtain ⟨sequences, hb, haccepted, -⟩ := hlax
      unfold calculateStringHashAndLengthFromUTF8MaskingTop8Bits at hcall
      simp only [hrange, hsequences haccepted hb, Option.some.injEq] at hcall
      subst hcall
      exact StringHasher.hashWithTop8BitsMasked_ne_zero _ hzero
    · rintro ⟨text, htext⟩
      obtain ⟨hashed, -, -, hlength, -⟩ := hdecodes text htext
      rw [← hlength]
      exact hashed.dataLength.toNat_lt
  · rintro ⟨hlax, hcount⟩ dataLength utf16Length
    refine ⟨?_, ?_, ?_⟩
    · intro text htext
      have hlt := hcount ⟨text, htext⟩
      obtain ⟨sequences, rfl, hwellFormed, rfl⟩ := decodesTo_iff.1 htext
      have haccepted : ∀ q ∈ sequences, Accepted q := fun q hq => .inl (hwellFormed q hq)
      have hunits := length_flatMap_encodeUTF16_le haccepted
      refine ⟨_, by
        unfold calculateStringHashAndLengthFromUTF8MaskingTop8Bits
        simp only [hrange, hsequences haccepted rfl, Hashing.foldl_addSequence]
        rfl, ?_, ?_, ?_⟩
      · exact (StringHasher.computeHashAndMaskTop8Bits_eq _).symm
      · show (0 + UInt32.ofNat _).toNat = _
        rw [UInt32.zero_add, UInt32.toNat_ofNat_of_lt' hlt]
      · show (0 + UInt32.ofNat _).toNat = _
        rw [UInt32.zero_add, UInt32.toNat_ofNat_of_lt' (Nat.lt_of_le_of_lt hunits hlt)]
    · intro hill
      cases result with
      | ok state =>
        obtain ⟨sequences, rfl, haccepted⟩ := hok state rfl
        exact absurd ⟨_, decodesTo_of_not_lax haccepted hlax⟩ hill
      | error state =>
        refine ⟨_, by
          unfold calculateStringHashAndLengthFromUTF8MaskingTop8Bits
          simp only [hrange]
          rfl, rfl⟩
    · intro hzero more
      have hterminated := hloop false (b ++ 0 :: more) (b ++ 0 :: more).length (.terminated b more hzero)
        (by rw [List.length_append]; omega)
      unfold calculateStringHashAndLengthFromUTF8MaskingTop8Bits
      simp only [hrange, hterminated]

/-- **The interning helpers agree with decoding** exactly where no lax sequence is taken for a character, no character
is cut down to its low byte, and well-formed bytes are few enough to be counted. -/
theorem interning_exact (a : List UChar) (latin1 b : List UInt8) :
    EqualAgrees (equalUTF16WithUTF8 a b) a b ∧
        EqualAgrees (equalLatin1WithUTF8 latin1 b) (latin1.map UInt8.toUInt16) b ∧ HashAgrees b ↔
      ¬ HasLax b ∧ ¬ Truncates latin1 b ∧ ((∃ text, DecodesTo b text) → b.length < 2 ^ 32) := by
  rw [equalLatin1WithUTF8_agrees_iff, hash_agrees_iff]
  constructor
  · rintro ⟨-, htruncates, hlax, hcount⟩
    exact ⟨hlax, htruncates, hcount⟩
  · rintro ⟨hlax, htruncates, hcount⟩
    exact ⟨equalUTF16WithUTF8_agrees a hlax, htruncates, hlax, hcount⟩

/-- The Latin-1 string A9 is taken for C6 A9, which is U+01A9. -/
theorem interning_truncates :
    ¬ EqualAgrees (equalLatin1WithUTF8 [0xA9] [0xC6, 0xA9]) ([0xA9].map UInt8.toUInt16) [0xC6, 0xA9] := by
  rintro ⟨hagrees, -⟩
  have hdecided := hagrees [0x01A9] ⟨[0x1A9], by simp [IsScalar], by decide, by decide⟩ rfl
  revert hdecided
  decide

end WebKit.WTF.Unicode
