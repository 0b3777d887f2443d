import WebKit.WTF.UTF8Sequences

/-!
# The conversion loops

Both loops convert character by character: `nextUTF8` and `nextUTF16` say what the next character becomes when there is
room, and `Implements` that an iteration of a loop does just that (`implements_nextUTF8`, `implements_nextUTF16`), so
that a whole conversion is a `Drains` (`whileSource_drains`).
-/

namespace WebKit.WTF.Unicode

open WebKit.Lib

/-! ## Writing to a target -/

namespace Target

variable {β : Type}

/-- The target after a piece is written. -/
def write (target : Target β) (piece : List β) : Target β where
  cells := target.cells.take target.position ++ piece ++ target.cells.drop (target.position + piece.length)
  position := target.position + piece.length

def written (target : Target β) : List β := target.cells.take target.position

variable {target : Target β}

@[simp] theorem write_nil (target : Target β) : target.write [] = target := by simp [write]

@[simp] theorem position_write (target : Target β) (piece : List β) :
    (target.write piece).position = target.position + piece.length := rfl

theorem length_write {piece : List β} (h : target.position + piece.length ≤ target.cells.length) :
    (target.write piece).cells.length = target.cells.length := by
  simp only [write, List.length_append, List.length_take, List.length_drop]
  omega

theorem write_write (target : Target β) (piece piece' : List β)
    (h : target.position + piece.length + piece'.length ≤ target.cells.length) :
    (target.write piece).write piece' = target.write (piece ++ piece') := by
  have htake : (target.cells.take target.position ++ piece).length = target.position + piece.length := by
    rw [List.length_append, List.length_take]
    omega
  simp only [write, mk.injEq]
  constructor
  · rw [List.take_left' htake, List.drop_append, htake, List.drop_eq_nil_of_le (by omega), List.nil_append, List.drop_drop,
      List.length_append]
    rw [Nat.add_sub_cancel_left, Nat.add_assoc target.position, List.append_assoc (List.take _ _)]
  · rw [List.length_append, Nat.add_assoc]

theorem written_write {piece : List β} (h : target.position ≤ target.cells.length) :
    (target.write piece).written = target.written ++ piece := by
  have htake : (target.cells.take target.position ++ piece).length = target.position + piece.length := by
    rw [List.length_append, List.length_take]
    omega
  exact List.take_left' htake

theorem put_eq (target : Target β) (value : β) (h : target.position < target.cells.length) :
    target.put value = some (target.write [value]) := by
  unfold put write
  rw [if_pos h, List.set_eq_take_append_cons_drop, if_pos h]
  simp

theorem putBefore_eq (front back : List β) (x value : β) :
    putBefore { cells := front ++ x :: back, position := front.length + 1 } value =
      some { cells := front ++ value :: back, position := front.length } := by
  unfold putBefore
  rw [if_pos ⟨Nat.succ_pos _, by simp⟩]
  simp

end Target

/-! ## A loop as a conversion of pieces -/

variable {α β γ : Type}

/-- An iteration of the loop converts what `next` reads, if it fits into the target. -/
def Implements (body : State α β γ → Option (Iteration (State α β γ)))
    (next : List α → Except ConversionResult (List β × List α)) : Prop :=
  ∀ state : State α β γ, state.source ≠ [] → state.target.position ≤ state.target.cells.length →
    (∀ result, next state.source = .error result → body state = some (.leave result state)) ∧
    ∀ piece rest, next state.source = .ok (piece, rest) → rest.length < state.source.length ∧
      (state.target.position + piece.length ≤ state.target.cells.length →
        ∃ data, body state = some (.next ⟨rest, state.target.write piece, data⟩)) ∧
      (state.target.cells.length < state.target.position + piece.length →
        body state = some (.leave .targetExhausted state))

def resultOf : Ending ConversionResult → ConversionResult
  | .done => .conversionOK
  | .stopped result => result
  | .exhausted => .targetExhausted

/-- **A loop is a conversion of pieces.** -/
theorem whileSource_drains {body : State α β γ → Option (Iteration (State α β γ))}
    {next : List α → Except ConversionResult (List β × List α)} (h : Implements body next) {fuel : Nat}
    (state : State α β γ) (hfuel : state.source.length ≤ fuel)
    (hroom : state.target.position ≤ state.target.cells.length) :
    ∃ out rest ending data,
      Drains next state.source (state.target.cells.length - state.target.position) out rest ending ∧
      whileSource body fuel state = some (resultOf ending, ⟨rest, state.target.write out, data⟩) := by
  induction fuel generalizing state with
  | zero =>
    have hnil : state.source = [] := List.eq_nil_of_length_eq_zero (by omega)
    refine ⟨[], [], .done, state.data, by rw [hnil]; exact .done _, ?_⟩
    rw [whileSource, if_pos hnil, Target.write_nil, ← hnil]
    rfl
  | succ fuel ih =>
    by_cases hnil : state.source = []
    · refine ⟨[], [], .done, state.data, by rw [hnil]; exact .done _, ?_⟩
      rw [whileSource, if_pos hnil, Target.write_nil, ← hnil]
      rfl
    · obtain ⟨herror, hok⟩ := h state hnil hroom
      rw [whileSource, if_neg hnil]
      cases hnext : next state.source with
      | error result =>
        refine ⟨[], _, _, state.data, .stop hnil hnext, ?_⟩
        simp only [herror result hnext, Target.write_nil]
        rfl
      | ok p =>
        obtain ⟨piece, rest⟩ := p
        obtain ⟨hlt, hfits, hfull⟩ := hok piece rest hnext
        by_cases hle : state.target.position + piece.length ≤ state.target.cells.length
        · obtain ⟨data, hbody⟩ := hfits hle
          have hlen := Target.length_write hle
          obtain ⟨out, left, ending, data', hdrains, hwhile⟩ :=
            ih ⟨rest, state.target.write piece, data⟩ (show rest.length ≤ fuel by omega)
              (by rw [hlen]; exact hle)
          have hout := hdrains.length_le
          simp only [hlen, Target.position_write] at hdrains hout
          refine ⟨piece ++ out, left, ending, data', .step hnil hnext (by omega) ?_, ?_⟩
          · rwa [Nat.sub_sub]
          · simp only [hbody, hwhile, Target.write_write state.target piece out (by omega)]
        · refine ⟨[], _, _, state.data, .exhaust hnil hnext (by omega), ?_⟩
          simp only [hfull (by omega), Target.write_nil]
          rfl

/-! ## Characters of UTF-8 -/

/-- What the next character of UTF-8 becomes in UTF-16. -/
def nextUTF8 (source : List UInt8) : Except ConversionResult (List UChar × List UInt8) :=
  let length := inlineUTF8SequenceLength (source.headD 0)
  if source.length < length then .error .sourceExhausted
  else if isLegalUTF8 source length = some true then
    .ok (encodeUTF16 (sequenceValue (source.take length)), source.drop length)
  else .error .sourceIllegal

theorem Accepted.length {q : List UInt8} (h : Accepted q) (rest : List UInt8) :
    q ≠ [] ∧ inlineUTF8SequenceLength ((q ++ rest).headD 0) = q.length := by
  unfold Accepted at h
  rw [fits_utf8Table_iff, fits_laxTable_iff] at h
  obtain (⟨a, rfl, h⟩ | ⟨a, b, rfl, h⟩ | ⟨a, b, c, rfl, h⟩ | ⟨a, b, c, d, rfl, h⟩) |
    (⟨a, b, c, rfl, h⟩ | ⟨a, b, c, d, rfl, h⟩) := h
  all_goals
    refine ⟨by simp, ?_⟩
    simp only [List.cons_append, List.headD_cons, inlineUTF8SequenceLength_eq, List.length_cons, List.length_nil]
    split_ifs <;> omega

theorem head?_eq_of_headD {q : List UInt8} (rest : List UInt8) (h : q ≠ []) : q.head? = some ((q ++ rest).headD 0) := by
  cases q with
  | nil => exact absurd rfl h
  | cons a q => rfl

theorem nextUTF8_append {q : List UInt8} (h : Accepted q) (rest : List UInt8) :
    nextUTF8 (q ++ rest) = .ok (encodeUTF16 (sequenceValue q), rest) := by
  obtain ⟨hne, hlen⟩ := h.length rest
  obtain ⟨legal, hlegal, hiff⟩ := isLegalUTF8_eq rest (head?_eq_of_headD rest hne) hlen.symm
  rw [hiff.2 h] at hlegal
  unfold nextUTF8
  simp only [hlen, hlegal, List.take_left, List.drop_left, if_true]
  exact if_neg (by simp)

theorem exists_isLegalUTF8 {source : List UInt8}
    (hlong : inlineUTF8SequenceLength (source.headD 0) ≤ source.length) :
    ∃ legal, isLegalUTF8 source (inlineUTF8SequenceLength (source.headD 0)) = some legal := by
  generalize hn : inlineUTF8SequenceLength (source.headD 0) = n at *
  cases n with
  | zero => exact ⟨false, rfl⟩
  | succ n =>
    have hlen : (source.take (n + 1)).length = n + 1 := by
      rw [List.length_take]
      omega
    have hne : source.take (n + 1) ≠ [] := by
      rw [← List.length_pos_iff, hlen]
      exact Nat.succ_pos n
    have hhead := head?_eq_of_headD (source.drop (n + 1)) hne
    obtain ⟨legal, hlegal, -⟩ := isLegalUTF8_eq (source.drop (n + 1)) hhead
      (by rw [hlen, List.take_append_drop, hn])
    rw [List.take_append_drop, hlen] at hlegal
    exact ⟨legal, hlegal⟩

theorem accepted_of_nextUTF8 {source rest : List UInt8} {piece : List UChar} (h : nextUTF8 source = .ok (piece, rest)) :
    ∃ q, source = q ++ rest ∧ Accepted q ∧ piece = encodeUTF16 (sequenceValue q) := by
  unfold nextUTF8 at h
  simp only at h
  split_ifs at h with hshort hlegal
  cases h
  generalize hn : inlineUTF8SequenceLength (source.headD 0) = n at *
  refine ⟨source.take n, (List.take_append_drop n source).symm, ?_, rfl⟩
  have hlen : (source.take n).length = n := by
    rw [List.length_take]
    omega
  have hne : source.take n ≠ [] := by
    intro hnil
    rw [hnil] at hlen
    subst hlen
    cases hlegal
  have hhead : (source.take n).head? = some (source.headD 0) := by
    have := head?_eq_of_headD (source.drop n) hne
    rwa [List.take_append_drop] at this
  obtain ⟨legal, hlegal', hiff⟩ := isLegalUTF8_eq (source.drop n) hhead (by rw [hlen, hn])
  rw [List.take_append_drop, hlen, hlegal] at hlegal'
  cases hlegal'
  exact hiff.1 rfl

section

variable {c : Nat}

theorem isBMP_ofNat (h : c < 0x110000) : UTF8ToUTF16.isBMP (UInt32.ofNat c) = decide (c < 0x10000) := by
  have hiff : UInt32.ofNat c ≤ 0xffff ↔ c < 0x10000 := by
    rw [UInt32.le_iff_toNat_le, UInt32.toNat_ofNat_of_lt' (show c < 2 ^ 32 by omega)]
    exact Nat.lt_succ_iff.symm
  exact decide_eq_decide.2 hiff

theorem isSupplementary_ofNat (h : 0x10000 ≤ c) (h' : c < 0x110000) :
    UTF8ToUTF16.isSupplementary (UInt32.ofNat c) = true := by
  have hle : UInt32.ofNat c - UInt32.ofNat 0x10000 ≤ 0xfffff := by
    rw [ofNat_sub_ofNat h, UInt32.le_iff_toNat_le, UInt32.toNat_ofNat_of_lt' (show c - 0x10000 < 2 ^ 32 by omega)]
    show _ ≤ 0xfffff
    omega
  exact decide_eq_true hle

/-- The mask of the surrogates has bit 13, which tells what is above them. -/
theorem isSurrogate_ofNat (h : c < 0x10000) (hc : IsScalar c) : UTF8ToUTF16.isSurrogate (UInt32.ofNat c) = false := by
  refine decide_eq_false fun heq => ?_
  have hand : c &&& 0xfffff800 = 0xd800 := by
    have := congrArg UInt32.toNat heq
    rwa [UInt32.toNat_and, UInt32.toNat_ofNat_of_lt' (show c < 2 ^ 32 by omega)] at this
  have hle : c &&& 0xfffff800 ≤ c := Nat.and_le_left
  have hhigh : 0xE000 ≤ c := by
    unfold IsScalar at hc
    omega
  have hbit : (c &&& 0xfffff800).testBit 13 = true := by
    rw [Nat.testBit_and, Nat.testBit_eq_decide_div_mod_eq, Bool.and_eq_true, decide_eq_true_iff]
    exact ⟨by omega, by decide⟩
  rw [hand] at hbit
  revert hbit
  decide

theorem lead_ofNat (h : 0x10000 ≤ c) (h' : c < 0x110000) :
    UTF8ToUTF16.lead (UInt32.ofNat c) = UInt16.ofNat (0xD800 + (c - 0x10000) / 0x400) := by
  apply UInt16.toNat.inj
  unfold UTF8ToUTF16.lead
  rw [UInt32.toNat_toUInt16, UInt32.toNat_add, UInt32.toNat_shiftRight, UInt32.toNat_ofNat_of_lt' (show c < 2 ^ 32 by omega),
    UInt16.toNat_ofNat']
  show (c >>> 10 + 0xd7c0) % 2 ^ 32 % 2 ^ 16 = _
  rw [Nat.shiftRight_eq_div_pow]
  omega

theorem trail_ofNat (h' : c < 0x110000) : UTF8ToUTF16.trail (UInt32.ofNat c) = UInt16.ofNat (0xDC00 + c % 0x400) := by
  apply UInt16.toNat.inj
  unfold UTF8ToUTF16.trail
  rw [UInt32.toNat_toUInt16, UInt32.toNat_or, UInt32.toNat_and, UInt32.toNat_ofNat_of_lt' (show c < 2 ^ 32 by omega),
    UInt16.toNat_ofNat']
  show (c &&& (2 ^ 10 - 1) ||| 2 ^ 10 * 55) % 2 ^ 16 = _
  rw [Nat.and_two_pow_sub_one_eq_mod, Nat.or_comm, ← Nat.two_pow_add_eq_or_of_lt (Nat.mod_lt _ (by decide))]

theorem toUInt16_ofNat (c : Nat) : (UInt32.ofNat c).toUInt16 = UInt16.ofNat c := by
  apply UInt16.toNat.inj
  rw [UInt32.toNat_toUInt16, UInt32.toNat_ofNat', UInt16.toNat_ofNat']
  omega

end

/-- **An iteration of `convertUTF8ToUTF16` converts one character.** -/
theorem implements_nextUTF8 (strict : Bool) : Implements (UTF8ToUTF16.body strict) nextUTF8 := by
  intro state hne hroom
  have hhead : state.source.head? = some (state.source.headD 0) := by
    have := head?_eq_of_headD [] hne
    rwa [List.append_nil] at this
  constructor
  · intro result hnext
    unfold nextUTF8 at hnext
    unfold UTF8ToUTF16.body
    simp only [hhead, Option.bind_eq_bind, Option.bind_some]
    simp only at hnext
    split_ifs at hnext with hshort hlegal
    · cases hnext
      rw [if_pos hshort]
      rfl
    · cases hnext
      obtain ⟨legal, hlegal'⟩ := exists_isLegalUTF8 (Nat.not_lt.1 hshort)
      have hfalse : legal = false := by
        cases legal with
        | false => rfl
        | true => exact absurd hlegal' hlegal
      rw [if_neg hshort, hlegal', hfalse]
      rfl
  · intro piece rest hnext
    obtain ⟨q, hsource, hq, rfl⟩ := accepted_of_nextUTF8 hnext
    obtain ⟨hqne, hlen⟩ := hq.length rest
    obtain ⟨legal, hlegal, hiff⟩ := isLegalUTF8_eq rest (head?_eq_of_headD rest hqne) hlen.symm
    rw [hiff.2 hq] at hlegal
    have hread := readUTF8Sequence_eq hq rest
    have hscalar := isScalar_sequenceValue hq
    rw [← hsource] at hlen hlegal hread
    have hlong : q.length ≤ state.source.length := by
      rw [hsource, List.length_append]
      exact Nat.le_add_right _ _
    have hbound : sequenceValue q < 0x110000 := by
      unfold IsScalar at hscalar
      omega
    generalize sequenceValue q = c at hread hscalar hbound
    refine ⟨?_, ?_, ?_⟩
    · have := List.length_pos_iff.2 hqne
      rw [hsource, List.length_append]
      omega
    · intro hfits
      have hpos := length_encodeUTF16_pos c
      unfold UTF8ToUTF16.body
      simp only [hhead, Option.bind_eq_bind, Option.bind_some, hlen, hlegal, hread, isBMP_ofNat hbound]
      rw [if_neg (by omega), if_neg (by simp), if_neg (by omega)]
      by_cases hbmp : c < 0x10000
      · have hput := Target.put_eq state.target (UInt16.ofNat c) (by omega)
        simp only [hbmp, decide_true, if_true, isSurrogate_ofNat hbmp hscalar, toUInt16_ofNat, hput]
        rw [encodeUTF16, if_pos hbmp]
        exact ⟨_, rfl⟩
      · rw [encodeUTF16, if_neg hbmp] at hfits ⊢
        simp only [List.length_cons, List.length_nil] at hfits
        have hsupplementary := isSupplementary_ofNat (Nat.not_lt.1 hbmp) hbound
        have hlead := Target.put_eq state.target (UTF8ToUTF16.lead (UInt32.ofNat c)) (by omega)
        have htrail := Target.put_eq (state.target.write [UTF8ToUTF16.lead (UInt32.ofNat c)])
          (UTF8ToUTF16.trail (UInt32.ofNat c)) (by
            rw [Target.length_write (by simp; omega), Target.position_write, List.length_singleton]
            omega)
        rw [Target.write_write _ _ _ (by simp; omega)] at htrail
        simp only [hbmp, decide_false, Bool.false_eq_true, if_false, hsupplementary, if_true]
        rw [if_neg (by omega), hlead]
        rw [lead_ofNat (Nat.not_lt.1 hbmp) hbound, trail_ofNat hbound] at htrail ⊢
        simp only [Option.bind_some, htrail]
        exact ⟨_, rfl⟩
    · intro hfull
      unfold UTF8ToUTF16.body
      simp only [hhead, Option.bind_eq_bind, Option.bind_some, hlen, hlegal, hread, isBMP_ofNat hbound]
      rw [if_neg (by omega), if_neg (by simp)]
      by_cases hposition : state.target.position ≥ state.target.cells.length
      · rw [if_pos hposition]
        rfl
      · by_cases hbmp : c < 0x10000
        · rw [encodeUTF16, if_pos hbmp, List.length_singleton] at hfull
          omega
        · rw [encodeUTF16, if_neg hbmp] at hfull
          simp only [List.length_cons, List.length_nil] at hfull
          have hsupplementary := isSupplementary_ofNat (Nat.not_lt.1 hbmp) hbound
          rw [if_neg hposition]
          simp only [hbmp, decide_false, Bool.false_eq_true, if_false, hsupplementary, if_true]
          rw [if_pos (by omega)]
          rfl

/-! ## Characters of UTF-16 -/

/-- What the next character of UTF-16 becomes in UTF-8. -/
def nextUTF16 (strict : Bool) (source : List UChar) : Except ConversionResult (List UInt8 × List UChar) :=
  match UTF16ToUTF8.read strict source with
  | some (.ok (ch, rest)) => .ok (encodeUTF8 ch.toNat, rest)
  | some (.error result) => .error result
  | none => .error .sourceExhausted

/-- The units of one character: those of a scalar value, or, where the conversion is lenient, a lone surrogate. -/
def IsCharacter (strict : Bool) (units : List UChar) (c : Nat) : Prop :=
  IsScalar c ∧ units = encodeUTF16 c ∨
    strict = false ∧ (0xD800 ≤ c ∧ c < 0xE000) ∧ units = [UInt16.ofNat c]

theorem toUInt32_le_iff {u : UChar} {n : UInt32} : u.toUInt32 ≤ n ↔ u.toNat ≤ n.toNat := by
  rw [UInt32.le_iff_toNat_le, UInt16.toNat_toUInt32]

theorem le_toUInt32_iff {u : UChar} {n : UInt32} : n ≤ u.toUInt32 ↔ n.toNat ≤ u.toNat := by
  rw [UInt32.le_iff_toNat_le, UInt16.toNat_toUInt32]

theorem toNat_pair {u v : UChar} (hu : 0xD800 ≤ u.toNat ∧ u.toNat ≤ 0xDBFF) (hv : 0xDC00 ≤ v.toNat ∧ v.toNat ≤ 0xDFFF) :
    (((u.toUInt32 - 0xD800) <<< 10) + (v.toUInt32 - 0xDC00) + 0x0010000).toNat =
      0x10000 + (u.toNat - 0xD800) * 0x400 + (v.toNat - 0xDC00) := by
  have hhigh : (u.toUInt32 - 0xD800).toNat = u.toNat - 0xD800 :=
    UInt32.toNat_sub_of_le _ _ (le_toUInt32_iff.2 hu.1)
  have hlow : (v.toUInt32 - 0xDC00).toNat = v.toNat - 0xDC00 :=
    UInt32.toNat_sub_of_le _ _ (le_toUInt32_iff.2 hv.1)
  rw [UInt32.toNat_add, UInt32.toNat_add, UInt32.toNat_shiftLeft, hhigh, hlow]
  show (((u.toNat - 0xD800) <<< 10 % 2 ^ 32 + (v.toNat - 0xDC00)) % 2 ^ 32 + 0x10000) % 2 ^ 32 = _
  rw [Nat.shiftLeft_eq]
  omega

theorem high_iff {u : UChar} : (u.toUInt32 ≥ 0xD800 ∧ u.toUInt32 ≤ 0xDBFF) ↔ 0xD800 ≤ u.toNat ∧ u.toNat ≤ 0xDBFF :=
  and_congr le_toUInt32_iff toUInt32_le_iff

theorem low_iff {u : UChar} : (u.toUInt32 ≥ 0xDC00 ∧ u.toUInt32 ≤ 0xDFFF) ↔ 0xDC00 ≤ u.toNat ∧ u.toNat ≤ 0xDFFF :=
  and_congr le_toUInt32_iff toUInt32_le_iff

section

variable (strict : Bool) {u v : UChar} (source : List UChar)

theorem read_pair (hu : 0xD800 ≤ u.toNat ∧ u.toNat ≤ 0xDBFF) (hv : 0xDC00 ≤ v.toNat ∧ v.toNat ≤ 0xDFFF) :
    UTF16ToUTF8.read strict (u :: v :: source) =
      some (.ok (((u.toUInt32 - 0xD800) <<< 10) + (v.toUInt32 - 0xDC00) + 0x0010000, source)) := by
  unfold UTF16ToUTF8.read
  simp only
  rw [if_pos (high_iff.2 hu), if_pos (low_iff.2 hv)]

theorem read_high (hu : 0xD800 ≤ u.toNat ∧ u.toNat ≤ 0xDBFF) (hv : ¬ (0xDC00 ≤ v.toNat ∧ v.toNat ≤ 0xDFFF)) :
    UTF16ToUTF8.read strict (u :: v :: source) =
      some (if strict then .error .sourceIllegal else .ok (u.toUInt32, v :: source)) := by
  unfold UTF16ToUTF8.read
  simp only
  rw [if_pos (high_iff.2 hu), if_neg fun h => hv (low_iff.1 h), apply_ite some]

theorem read_high_end (hu : 0xD800 ≤ u.toNat ∧ u.toNat ≤ 0xDBFF) :
    UTF16ToUTF8.read strict [u] = some (.error .sourceExhausted) := by
  unfold UTF16ToUTF8.read
  simp only
  rw [if_pos (high_iff.2 hu)]

theorem read_unit (hu : ¬ (0xD800 ≤ u.toNat ∧ u.toNat ≤ 0xDBFF)) :
    UTF16ToUTF8.read strict (u :: source) =
      some (if strict = true ∧ 0xDC00 ≤ u.toNat ∧ u.toNat ≤ 0xDFFF then .error .sourceIllegal
        else .ok (u.toUInt32, source)) := by
  unfold UTF16ToUTF8.read
  simp only [low_iff]
  rw [if_neg fun h => hu (high_iff.1 h), apply_ite some]

end

theorem isCharacter_unit {strict : Bool} {u : UChar} (h : strict = true → ¬ (0xD800 ≤ u.toNat ∧ u.toNat < 0xE000)) :
    IsCharacter strict [u] u.toUInt32.toNat := by
  have hu := u.toNat_lt
  rw [UInt16.toNat_toUInt32]
  by_cases hsurrogate : 0xD800 ≤ u.toNat ∧ u.toNat < 0xE000
  · refine .inr ⟨?_, hsurrogate, by rw [UInt16.ofNat_toNat]⟩
    exact Bool.eq_false_iff.2 fun hstrict => h hstrict hsurrogate
  · refine .inl ⟨?_, ?_⟩
    · unfold IsScalar
      omega
    · rw [encodeUTF16, if_pos (by omega), UInt16.ofNat_toNat]

theorem isCharacter_pair {strict : Bool} {u v : UChar} (hu : 0xD800 ≤ u.toNat ∧ u.toNat ≤ 0xDBFF)
    (hv : 0xDC00 ≤ v.toNat ∧ v.toNat ≤ 0xDFFF) :
    IsCharacter strict [u, v] (0x10000 + (u.toNat - 0xD800) * 0x400 + (v.toNat - 0xDC00)) := by
  refine .inl ⟨?_, ?_⟩
  · unfold IsScalar
    omega
  · have hhigh : 0xD800 + (0x10000 + (u.toNat - 0xD800) * 0x400 + (v.toNat - 0xDC00) - 0x10000) / 0x400 = u.toNat := by
      omega
    have hlow : 0xDC00 + (0x10000 + (u.toNat - 0xD800) * 0x400 + (v.toNat - 0xDC00)) % 0x400 = v.toNat := by omega
    rw [encodeUTF16, if_neg (by omega), hhigh, hlow, UInt16.ofNat_toNat, UInt16.ofNat_toNat]

theorem isCharacter_of_read {strict : Bool} {source rest : List UChar} {ch : UInt32}
    (h : UTF16ToUTF8.read strict source = some (.ok (ch, rest))) :
    ch.toNat < 0x110000 ∧ ∃ units, source = units ++ rest ∧ IsCharacter strict units ch.toNat := by
  match source with
  | [] => cases h
  | u :: source =>
    have hu := u.toNat_lt
    have hsmall : u.toUInt32.toNat < 0x110000 := by
      rw [UInt16.toNat_toUInt32]
      omega
    by_cases hhigh : 0xD800 ≤ u.toNat ∧ u.toNat ≤ 0xDBFF
    · match source with
      | [] =>
        rw [read_high_end strict hhigh] at h
        cases h
      | v :: source =>
        by_cases hlow : 0xDC00 ≤ v.toNat ∧ v.toNat ≤ 0xDFFF
        · rw [read_pair strict source hhigh hlow] at h
          simp only [Option.some.injEq, Except.ok.injEq, Prod.mk.injEq] at h
          obtain ⟨rfl, rfl⟩ := h
          rw [toNat_pair hhigh hlow]
          exact ⟨by omega, [u, v], rfl, isCharacter_pair hhigh hlow⟩
        · rw [read_high strict source hhigh hlow] at h
          split_ifs at h with hstrict
          · cases h
          · cases h
            exact ⟨hsmall, [u], rfl, isCharacter_unit fun hs => absurd hs hstrict⟩
    · rw [read_unit strict source hhigh] at h
      split_ifs at h with hlow
      · cases h
      · cases h
        exact ⟨hsmall, [u], rfl, isCharacter_unit fun hs hsurrogate => hlow ⟨hs, by omega, by omega⟩⟩

theorem read_encodeUTF16 (strict : Bool) {c : Nat} (hc : IsScalar c) (rest : List UChar) :
    UTF16ToUTF8.read strict (encodeUTF16 c ++ rest) = some (.ok (UInt32.ofNat c, rest)) := by
  unfold IsScalar at hc
  unfold encodeUTF16
  split_ifs with hbmp
  · have hunit : (UInt16.ofNat c).toNat = c := UInt16.toNat_ofNat_of_lt' (show c < 2 ^ 16 by omega)
    have hch : (UInt16.ofNat c).toUInt32 = UInt32.ofNat c := by
      apply UInt32.toNat.inj
      rw [UInt16.toNat_toUInt32, hunit, UInt32.toNat_ofNat_of_lt' (show c < 2 ^ 32 by omega)]
    rw [List.singleton_append, read_unit strict rest (by rw [hunit]; omega), if_neg (by rw [hunit]; omega), hch]
  · have hhigh : (UInt16.ofNat (0xD800 + (c - 0x10000) / 0x400)).toNat = 0xD800 + (c - 0x10000) / 0x400 :=
      UInt16.toNat_ofNat_of_lt' (show _ < 2 ^ 16 by omega)
    have hlow : (UInt16.ofNat (0xDC00 + c % 0x400)).toNat = 0xDC00 + c % 0x400 :=
      UInt16.toNat_ofNat_of_lt' (show _ < 2 ^ 16 by omega)
    rw [List.cons_append, List.singleton_append, read_pair strict rest (by rw [hhigh]; omega) (by rw [hlow]; omega)]
    have hpair := toNat_pair (u := UInt16.ofNat (0xD800 + (c - 0x10000) / 0x400)) (v := UInt16.ofNat (0xDC00 + c % 0x400))
      (by rw [hhigh]; omega) (by rw [hlow]; omega)
    rw [hhigh, hlow] at hpair
    refine congrArg some (congrArg Except.ok (Prod.ext (UInt32.toNat.inj ?_) rfl))
    rw [hpair, UInt32.toNat_ofNat_of_lt' (show c < 2 ^ 32 by omega)]
    omega

theorem exists_read (strict : Bool) {source : List UChar} (h : source ≠ []) :
    ∃ result, UTF16ToUTF8.read strict source = some result := by
  match source with
  | [] => exact absurd rfl h
  | [u] =>
    by_cases hhigh : 0xD800 ≤ u.toNat ∧ u.toNat ≤ 0xDBFF
    · exact ⟨_, read_high_end strict hhigh⟩
    · exact ⟨_, read_unit strict [] hhigh⟩
  | u :: v :: source =>
    by_cases hhigh : 0xD800 ≤ u.toNat ∧ u.toNat ≤ 0xDBFF
    · by_cases hlow : 0xDC00 ≤ v.toNat ∧ v.toNat ≤ 0xDFFF
      · exact ⟨_, read_pair strict source hhigh hlow⟩
      · exact ⟨_, read_high strict source hhigh hlow⟩
    · exact ⟨_, read_unit strict (v :: source) hhigh⟩

theorem IsCharacter.ne_nil {strict : Bool} {units : List UChar} {c : Nat} (h : IsCharacter strict units c) :
    units ≠ [] := by
  obtain ⟨-, rfl⟩ | ⟨-, -, rfl⟩ := h
  · exact List.length_pos_iff.1 (length_encodeUTF16_pos c)
  · simp

/-! ## Writing a character -/

theorem trailing_byte (x : UInt8) : (x ||| 0x80) &&& 0xBF = UInt8.ofNat (0x80 + x.toNat % 64) := by
  revert x
  exact forall_uint8 (by decide +kernel)

theorem trailing_eq (ch : UInt32) :
    ((ch ||| UTF16ToUTF8.byteMark) &&& UTF16ToUTF8.byteMask).toUInt8 = UInt8.ofNat (0x80 + ch.toNat % 64) := by
  have hbyte : ((ch ||| UTF16ToUTF8.byteMark) &&& UTF16ToUTF8.byteMask).toUInt8 = (ch.toUInt8 ||| 0x80) &&& 0xBF := by
    rw [UInt32.toUInt8_and, UInt32.toUInt8_or]
    rfl
  have hmod : ch.toUInt8.toNat % 64 = ch.toNat % 64 := by
    rw [UInt32.toNat_toUInt8]
    omega
  rw [hbyte, trailing_byte, hmod]

theorem writeTrailing_eq {n : Nat} (ch : UInt32) (front : List UInt8) {mid : List UInt8} (back : List UInt8)
    (hmid : mid.length = n) :
    UTF16ToUTF8.writeTrailing n ch { cells := front ++ mid ++ back, position := front.length + n } =
      some (UInt32.ofNat (ch.toNat / 64 ^ n),
        { cells := front ++ trailingBytes n ch.toNat ++ back, position := front.length }) := by
  induction n generalizing ch mid back with
  | zero =>
    rw [List.eq_nil_of_length_eq_zero hmid, Nat.pow_zero, Nat.div_one, UInt32.ofNat_toNat]
    rfl
  | succ n ih =>
    obtain rfl | ⟨mid, x, rfl⟩ := List.eq_nil_or_concat mid
    · cases hmid
    · have hlen : mid.length = n := by simpa using hmid
      have hshift : (ch >>> 6).toNat = ch.toNat / 64 := by
        rw [UInt32.toNat_shiftRight]
        exact Nat.shiftRight_eq_div_pow _ 6
      have hput := Target.putBefore_eq (front ++ mid) back x (UInt8.ofNat (0x80 + ch.toNat % 64))
      rw [List.length_append, hlen] at hput
      have hrest := ih (ch >>> 6) (UInt8.ofNat (0x80 + ch.toNat % 64) :: back) hlen
      rw [hshift, Nat.div_div_eq_div_mul, ← Nat.pow_succ'] at hrest
      have hcells : front ++ (mid ++ [x]) ++ back = front ++ mid ++ x :: back := by simp
      rw [UTF16ToUTF8.writeTrailing, trailing_eq, List.concat_eq_append, hcells, ← Nat.add_assoc, hput]
      simp only [Option.bind_eq_bind, Option.bind_some, hrest]
      rw [trailingBytes, List.append_assoc, List.append_assoc, List.append_assoc, List.singleton_append]

theorem mark_two (x : UInt8) (h : x.toNat < 32) : x ||| 0xC0 = UInt8.ofNat (0xC0 + x.toNat) := by
  have hor := or_eq_add 6 (show x.toNat < 2 ^ 5 from h)
  rw [UInt8.ofNat_toNat] at hor
  exact hor

theorem mark_three (x : UInt8) (h : x.toNat < 16) : x ||| 0xE0 = UInt8.ofNat (0xE0 + x.toNat) := by
  have hor := or_eq_add 14 (show x.toNat < 2 ^ 4 from h)
  rw [UInt8.ofNat_toNat] at hor
  exact hor

theorem mark_four (x : UInt8) (h : x.toNat < 8) : x ||| 0xF0 = UInt8.ofNat (0xF0 + x.toNat) := by
  have hor := or_eq_add 30 (show x.toNat < 2 ^ 3 from h)
  rw [UInt8.ofNat_toNat] at hor
  exact hor

theorem bytesToWrite_eq {ch : UInt32} (h : ch.toNat < 0x110000) :
    ∃ n mark, UTF16ToUTF8.bytesToWrite ch = (n + 1, ch) ∧ firstByteMark[n + 1]? = some mark ∧
      encodeUTF8 ch.toNat = (UInt32.ofNat (ch.toNat / 64 ^ n) ||| mark.toUInt32).toUInt8 :: trailingBytes n ch.toNat := by
  have hfirst (n : Nat) (mark : UInt8) : (UInt32.ofNat n ||| mark.toUInt32).toUInt8 = UInt8.ofNat n ||| mark := by
    rw [UInt32.toUInt8_or, UInt8.toUInt8_toUInt32, UInt32.toUInt8_ofNat']
  unfold UTF16ToUTF8.bytesToWrite encodeUTF8
  simp only [UInt32.lt_iff_toNat_lt, UInt32.reduceToNat]
  split_ifs with h₁ h₂ h₃
  · refine ⟨0, 0, rfl, rfl, ?_⟩
    rw [hfirst]
    simp [trailingBytes]
  · refine ⟨1, 0xC0, rfl, rfl, ?_⟩
    have hbits : (UInt8.ofNat (ch.toNat / 64)).toNat = ch.toNat / 64 := UInt8.toNat_ofNat_of_lt' (show _ < 2 ^ 8 by omega)
    rw [hfirst, Nat.pow_one, mark_two _ (by omega), hbits]
  · refine ⟨2, 0xE0, rfl, rfl, ?_⟩
    have hbits : (UInt8.ofNat (ch.toNat / 4096)).toNat = ch.toNat / 4096 :=
      UInt8.toNat_ofNat_of_lt' (show _ < 2 ^ 8 by omega)
    rw [hfirst, show 64 ^ 2 = 4096 from rfl, mark_three _ (by omega), hbits]
  · refine ⟨3, 0xF0, rfl, rfl, ?_⟩
    have hbits : (UInt8.ofNat (ch.toNat / 262144)).toNat = ch.toNat / 262144 :=
      UInt8.toNat_ofNat_of_lt' (show _ < 2 ^ 8 by omega)
    rw [hfirst, show 64 ^ 3 = 262144 from rfl, mark_four _ (by omega), hbits]

theorem write_character {target : Target UInt8} (c : UInt32) {n : Nat} (first : UInt8)
    (hroom : target.position + (n + 1) ≤ target.cells.length) :
    ∃ middle : Target UInt8,
      UTF16ToUTF8.writeTrailing n c { target with position := target.position + (n + 1) } =
        some (UInt32.ofNat (c.toNat / 64 ^ n), middle) ∧
      ∃ last, middle.putBefore first = some last ∧
        { last with position := last.position + (n + 1) } = target.write (first :: trailingBytes n c.toNat) := by
  obtain ⟨cells, position⟩ := target
  simp only at hroom ⊢
  obtain ⟨x, mid, hdrop⟩ : ∃ x mid, (cells.drop position).take (n + 1) = x :: mid := by
    apply List.exists_cons_of_length_pos
    rw [List.length_take, List.length_drop]
    omega
  have hmid : mid.length = n := by
    have := congrArg List.length hdrop
    rw [List.length_take, List.length_drop, List.length_cons] at this
    omega
  have hcells : cells = cells.take position ++ [x] ++ mid ++ cells.drop (position + (n + 1)) := by
    rw [List.append_assoc _ [x], List.singleton_append, ← hdrop, List.append_assoc, ← List.drop_drop,
      List.take_append_drop, List.take_append_drop]
  have hfront : (cells.take position ++ [x]).length = position + 1 := by
    rw [List.length_append, List.length_take, List.length_singleton]
    omega
  have htrailing := writeTrailing_eq c (cells.take position ++ [x]) (cells.drop (position + (n + 1))) hmid
  rw [← hcells, hfront, Nat.add_assoc, Nat.add_comm 1 n] at htrailing
  refine ⟨_, htrailing, ?_⟩
  have hput := Target.putBefore_eq (cells.take position) (trailingBytes n c.toNat ++ cells.drop (position + (n + 1))) x first
  have hlen : (cells.take position).length = position := by
    rw [List.length_take]
    omega
  rw [hlen] at hput
  refine ⟨_, by rw [List.append_assoc, List.append_assoc, List.singleton_append]; exact hput, ?_⟩
  simp [Target.write]

/-- **An iteration of `convertUTF16ToUTF8` converts one character.** -/
theorem implements_nextUTF16 (strict : Bool) : Implements (UTF16ToUTF8.body strict) (nextUTF16 strict) := by
  intro state hne hroom
  obtain ⟨read, hread⟩ := exists_read strict hne
  unfold nextUTF16 UTF16ToUTF8.body
  rw [hread]
  cases read with
  | error result =>
    constructor
    · intro result' hnext
      cases hnext
      rfl
    · intro piece rest hnext
      cases hnext
  | ok p =>
    obtain ⟨ch, source⟩ := p
    constructor
    · intro result hnext
      cases hnext
    · intro piece rest hnext
      simp only [Except.ok.injEq, Prod.mk.injEq] at hnext
      obtain ⟨rfl, rfl⟩ := hnext
      obtain ⟨hbound, units, hsource, hunits⟩ := isCharacter_of_read hread
      obtain ⟨n, mark, hbytes, hmark, hencode⟩ := bytesToWrite_eq hbound
      have hlen : (encodeUTF8 ch.toNat).length = n + 1 := by
        rw [hencode, List.length_cons, length_trailingBytes]
      refine ⟨?_, ?_, ?_⟩
      · have := List.length_pos_iff.2 hunits.ne_nil
        rw [hsource, List.length_append]
        omega
      · intro hfits
        rw [hlen] at hfits
        obtain ⟨middle, htrailing, last, hput, hwrite⟩ :=
          write_character ch (UInt32.ofNat (ch.toNat / 64 ^ n) ||| mark.toUInt32).toUInt8 hfits
        refine ⟨(), ?_⟩
        simp only [Option.bind_eq_bind, Option.bind_some, hbytes, Nat.add_sub_cancel]
        rw [if_neg (by omega), htrailing]
        simp only [Option.bind_some, hmark, hput, hwrite, ← hencode]
        rfl
      · intro hfull
        rw [hlen] at hfull
        simp only [Option.bind_eq_bind, Option.bind_some, hbytes]
        rw [if_pos hfull]
        rfl

end WebKit.WTF.Unicode
