import WebKit.WTF.Base64Decoding

/-!
# What is encoded is decoded

An `Alphabet` is a pair of maps that fit together: `base64Alphabet` and `base64URLAlphabet`. The decoder undoes the
encoder, and a string that it accepts is decoded as without its white space and padding
(`base64_round_trip`).
-/

namespace WebKit.WTF

open WebKit.Lib Base64

/-- An encoding map and the decoding map that undoes it. -/
structure Alphabet where
  encodeMap : List UInt8
  decodeMap : List UInt8
  length_encodeMap : encodeMap.length = 64
  length_decodeMap : decodeMap.length = 128
  decodeMap_lt : ∀ v ∈ decodeMap, v = nonAlphabet ∨ v.toNat < 64
  value_character : ∀ s : UInt8, s.toNat < 64 → alphabetValue decodeMap (character encodeMap s).toUInt16 = some s
  value_padding : alphabetValue decodeMap 0x3D = none
  value_space : ∀ c : UInt8, c ≤ 0x20 → alphabetValue decodeMap c.toUInt16 = none

theorem base64_maps : ∀ maps ∈ [(base64EncMap, base64DecMap), (base64URLEncMap, base64URLDecMap)],
    (∀ v ∈ maps.2, v = nonAlphabet ∨ v.toNat < 64) ∧
      ∀ i : Fin 256, ((UInt8.ofNat i).toNat < 64 →
          alphabetValue maps.2 (character maps.1 (UInt8.ofNat i)).toUInt16 = some (UInt8.ofNat i)) ∧
        (UInt8.ofNat i ≤ 0x20 → alphabetValue maps.2 (UInt8.ofNat i).toUInt16 = none) := by
  decide +kernel

def base64Alphabet : Alphabet where
  encodeMap := base64EncMap
  decodeMap := base64DecMap
  length_encodeMap := rfl
  length_decodeMap := rfl
  decodeMap_lt := (base64_maps (base64EncMap, base64DecMap) (by simp)).1
  value_character := forall_uint8 fun i => ((base64_maps (base64EncMap, base64DecMap) (by simp)).2 i).1
  value_padding := rfl
  value_space := forall_uint8 fun i => ((base64_maps (base64EncMap, base64DecMap) (by simp)).2 i).2

def base64URLAlphabet : Alphabet where
  encodeMap := base64URLEncMap
  decodeMap := base64URLDecMap
  length_encodeMap := rfl
  length_decodeMap := rfl
  decodeMap_lt := (base64_maps (base64URLEncMap, base64URLDecMap) (by simp)).1
  value_character := forall_uint8 fun i => ((base64_maps (base64URLEncMap, base64URLDecMap) (by simp)).2 i).1
  value_padding := rfl
  value_space := forall_uint8 fun i => ((base64_maps (base64URLEncMap, base64URLDecMap) (by simp)).2 i).2

namespace Base64

section

variable (isWhiteSpaceNeutral : UChar → Bool) (policy : Base64DecodePolicy) (alphabet : Alphabet)

theorem value_isSpaceOrNewline {ch : UChar} (h : isSpaceOrNewline isWhiteSpaceNeutral ch) :
    alphabetValue alphabet.decodeMap ch = none := by
  unfold isSpaceOrNewline at h
  split_ifs at h with hascii
  · have hle : ch ≤ 0x20 := by
      have hspace := of_decide_eq_true h
      exact hspace.1
    have hlt : ch.toNat < 256 := lt_of_le_of_lt (UInt16.le_iff_toNat_le.1 hle) (by decide)
    have hch : ch = ch.toUInt8.toUInt16 := by
      apply UInt16.toNat.inj
      rw [UInt8.toNat_toUInt16, UInt16.toNat_toUInt8, Nat.mod_eq_of_lt hlt]
    rw [hch]
    apply alphabet.value_space
    rw [UInt8.le_iff_toNat_le, UInt16.toNat_toUInt8, Nat.mod_eq_of_lt hlt]
    exact UInt16.le_iff_toNat_le.1 hle
  · have hge : alphabet.decodeMap.length ≤ ch.toNat := by
      rw [alphabet.length_decodeMap]
      exact Nat.lt_of_not_le (fun hle => hascii (UInt16.le_iff_toNat_le.2 hle))
    rw [alphabetValue, List.getD_eq_default _ _ hge]
    rfl

/-- A string without its white space and padding. -/
def stripped (data : List UChar) : List UChar :=
  data.filter fun ch => !isSpaceOrNewline isWhiteSpaceNeutral ch && ch ≠ 0x3D

theorem values_stripped (data : List UChar) :
    values alphabet.decodeMap (stripped isWhiteSpaceNeutral data) = values alphabet.decodeMap data := by
  unfold values stripped
  rw [List.filterMap_filter]
  apply List.filterMap_congr
  intro ch _
  by_cases hspace : isSpaceOrNewline isWhiteSpaceNeutral ch
  · simp [hspace, value_isSpaceOrNewline isWhiteSpaceNeutral alphabet hspace]
  · by_cases hpadding : ch = 0x3D
    · simp [hpadding, alphabet.value_padding]
    · simp [hspace, hpadding]

theorem accepts_stripped {length equalsSignCount : Nat} (length' : Nat) {data : List UChar}
    (h : accepts isWhiteSpaceNeutral policy alphabet.decodeMap length equalsSignCount data) :
    accepts isWhiteSpaceNeutral policy alphabet.decodeMap length' 0 (stripped isWhiteSpaceNeutral data) := by
  induction data generalizing equalsSignCount with
  | nil => rfl
  | cons ch data ih =>
    unfold accepts at h
    by_cases hpadding : ch = 0x3D
    · have hstripped : stripped isWhiteSpaceNeutral (ch :: data) = stripped isWhiteSpaceNeutral data :=
        List.filter_cons_of_neg (by simp [hpadding])
      rw [if_pos hpadding, Bool.and_eq_true] at h
      rw [hstripped]
      exact ih h.2
    · rw [if_neg hpadding] at h
      have hrest : accepts isWhiteSpaceNeutral policy alphabet.decodeMap length equalsSignCount data := by
        split_ifs at h
        · exact (Bool.and_eq_true _ _ ▸ h).2
        · exact (Bool.and_eq_true _ _ ▸ h).2
      by_cases hspace : isSpaceOrNewline isWhiteSpaceNeutral ch
      · have hstripped : stripped isWhiteSpaceNeutral (ch :: data) = stripped isWhiteSpaceNeutral data :=
          List.filter_cons_of_neg (by simp [hspace])
        rw [hstripped]
        exact ih hrest
      · have hstripped : stripped isWhiteSpaceNeutral (ch :: data) = ch :: stripped isWhiteSpaceNeutral data :=
          List.filter_cons_of_pos (by simp [hspace, hpadding])
        rw [hstripped]
        unfold accepts
        rw [if_neg hpadding]
        split_ifs at h ⊢
        · simpa using ih hrest
        · rw [Bool.and_eq_true] at h ⊢
          exact ⟨h.1, ih hrest⟩

theorem accepts_append {length : Nat} {text : List UChar} (rest : List UChar)
    (h : ∀ ch ∈ text, ch ≠ 0x3D ∧
      ((alphabetValue alphabet.decodeMap ch).isSome ∨ !rejects isWhiteSpaceNeutral policy ch)) :
    accepts isWhiteSpaceNeutral policy alphabet.decodeMap length 0 (text ++ rest) =
      accepts isWhiteSpaceNeutral policy alphabet.decodeMap length 0 rest := by
  induction text with
  | nil => rfl
  | cons ch text ih =>
    rw [List.forall_mem_cons] at h
    obtain ⟨⟨hpadding, hch⟩, htext⟩ := h
    rw [List.cons_append, accepts, if_neg hpadding, ih htext]
    split_ifs with hsome
    · simp
    · rw [hch.resolve_left hsome, Bool.true_and]

theorem accepts_padding {length : Nat} (n equalsSignCount : Nat)
    (hlength : policy = .Base64FailOnInvalidCharacterOrExcessPadding → n ≠ 0 → length % 4 = 0)
    (hn : equalsSignCount + n ≤ 2) :
    accepts isWhiteSpaceNeutral policy alphabet.decodeMap length equalsSignCount (List.replicate n 0x3D) := by
  induction n generalizing equalsSignCount with
  | zero => rfl
  | succ n ih =>
    have hexcess : ¬ (policy = .Base64FailOnInvalidCharacterOrExcessPadding ∧
        (length % 4 ≠ 0 ∨ equalsSignCount + 1 > 2)) := by
      rintro ⟨hpolicy, hmod | hmany⟩
      · exact hmod (hlength hpolicy (Nat.succ_ne_zero n))
      · omega
    rw [List.replicate_succ, accepts, if_pos rfl, ih (equalsSignCount + 1) (fun hpolicy _ => hlength hpolicy (Nat.succ_ne_zero n))
      (by omega)]
    rw [decide_eq_false hexcess]
    rfl

theorem length_encoded (encodePolicy : Base64EncodePolicy) {data : List UInt8} (hmax : data.length ≤ maxInputBufferSize) :
    (encoded encodePolicy alphabet.encodeMap data).length =
      outLength encodePolicy data.length - if encodePolicy = .Base64URLPolicy then (3 - data.length % 3) % 3 else 0 := by
  have hle := length_text_le encodePolicy alphabet.encodeMap hmax
  rw [encoded]
  split_ifs with hurl
  · have hfeeds : insertsLFs encodePolicy data.length = false := by simp [insertsLFs, hurl]
    rw [length_encodedText_zero, outLength_eq hmax, hfeeds]
    simp only [Bool.false_eq_true, if_false]
    omega
  · rw [List.length_append, List.length_replicate]
    omega

theorem map_encoded (encodePolicy : Base64EncodePolicy) {data : List UInt8} (hmax : data.length ≤ maxInputBufferSize) :
    ∃ n, n ≤ 2 ∧ (encodePolicy = .Base64URLPolicy → n = 0) ∧
      (encoded encodePolicy alphabet.encodeMap data).map UInt8.toUInt16 =
        (encodedText alphabet.encodeMap (insertsLFs encodePolicy data.length) 0 data).map UInt8.toUInt16 ++
          List.replicate n 0x3D := by
  rw [encoded]
  split_ifs with hurl
  · exact ⟨0, Nat.zero_le 2, fun _ => rfl, (List.append_nil _).symm⟩
  · refine ⟨outLength encodePolicy data.length -
      (encodedText alphabet.encodeMap (insertsLFs encodePolicy data.length) 0 data).length, ?_, fun h => absurd h hurl, ?_⟩
    · rw [length_encodedText_zero, outLength_eq hmax]
      omega
    · rw [List.map_append, List.map_replicate]
      rfl

theorem values_encoded (encodePolicy : Base64EncodePolicy) {data : List UInt8}
    (hmax : data.length ≤ maxInputBufferSize) :
    values alphabet.decodeMap ((encoded encodePolicy alphabet.encodeMap data).map UInt8.toUInt16) = sextets data := by
  have hfeed : alphabetValue alphabet.decodeMap (0x0A : UInt8).toUInt16 = none := alphabet.value_space 0x0A (by decide)
  have htext := encodedText_sextets (fun c => alphabetValue alphabet.decodeMap c.toUInt16) hfeed
    alphabet.value_character (insertsLFs encodePolicy data.length) 0 data
  obtain ⟨n, -, -, heq⟩ := map_encoded alphabet encodePolicy hmax
  rw [heq, values, List.filterMap_append, List.filterMap_map, List.filterMap_replicate_of_none alphabet.value_padding,
    List.append_nil]
  exact htext

theorem accepts_encoded {encodePolicy : Base64EncodePolicy} {data : List UInt8} (hmax : data.length ≤ maxInputBufferSize)
    (hpolicy : insertsLFs encodePolicy data.length →
      policy = .Base64IgnoreWhitespace ∨ policy = .Base64IgnoreInvalidCharacters) :
    accepts isWhiteSpaceNeutral policy alphabet.decodeMap
      ((encoded encodePolicy alphabet.encodeMap data).map UInt8.toUInt16).length 0
      ((encoded encodePolicy alphabet.encodeMap data).map UInt8.toUInt16) := by
  have hlength := length_encoded alphabet encodePolicy hmax
  obtain ⟨n, hn, hurl, heq⟩ := map_encoded alphabet encodePolicy hmax
  rw [List.length_map, hlength, heq, accepts_append]
  · apply accepts_padding
    · intro hexcess hpos
      have hfeeds : ¬ insertsLFs encodePolicy data.length := by
        intro h
        have hignore := hpolicy h
        rw [hexcess] at hignore
        exact absurd hignore (by decide)
      rw [if_neg (fun h => hpos (hurl h)), outLength_eq hmax, if_neg hfeeds]
      omega
    · rw [Nat.zero_add]
      exact hn
  · intro ch hch
    obtain ⟨c, hc, rfl⟩ := List.mem_map.1 hch
    clear hch
    revert c
    apply forall_encodedText
    · intro h
      refine ⟨by decide, Or.inr ?_⟩
      obtain hignore | hignore := hpolicy h <;> simp [rejects, hignore, isSpaceOrNewline]
    · intro s hs
      have hvalue := alphabet.value_character s hs
      refine ⟨?_, Or.inl ?_⟩
      · intro hpadding
        rw [hpadding, alphabet.value_padding] at hvalue
        exact absurd hvalue (by simp)
      · rw [hvalue]
        rfl

end

end Base64

/-- **What is encoded is decoded**, and what is decoded does not depend on white space and padding. -/
theorem base64_round_trip (alphabet : Alphabet) (isWhiteSpaceNeutral : UChar → Bool) :
    (∀ (policy : Base64EncodePolicy) (decodePolicy : Base64DecodePolicy) (data : List UInt8),
      data.length ≤ maxInputBufferSize → (insertsLFs policy data.length → data.length < 1610612736) →
      (insertsLFs policy data.length →
        decodePolicy = .Base64IgnoreWhitespace ∨ decodePolicy = .Base64IgnoreInvalidCharacters) →
      ∃ text : List UInt8, base64EncodeInternal data policy alphabet.encodeMap = some (text.map some) ∧
        text.length = outLength policy data.length -
          (if policy = .Base64URLPolicy then (3 - data.length % 3) % 3 else 0) ∧
        base64DecodeInternal isWhiteSpaceNeutral (text.map UInt8.toUInt16) decodePolicy alphabet.decodeMap =
          some (some (data.map some))) ∧
    ∀ (policy : Base64DecodePolicy) (string : List UChar), string.length + 3 < 2 ^ 32 →
      ∃ result, base64DecodeInternal isWhiteSpaceNeutral string policy alphabet.decodeMap = some result ∧
        ∀ out, result = some out →
          (string = [] ∨ ∃ ch ∈ string, ch = 0x3D ∨ (alphabetValue alphabet.decodeMap ch).isSome) →
          (∃ bytes : List UInt8, out = bytes.map some ∧
            bytes.length = 6 * string.countP (fun ch => (alphabetValue alphabet.decodeMap ch).isSome) / 8) ∧
          base64DecodeInternal isWhiteSpaceNeutral (stripped isWhiteSpaceNeutral string) policy alphabet.decodeMap =
            some (some out) := by
  refine ⟨?_, ?_⟩
  · intro policy decodePolicy data hmax hcount hpolicy
    have hintMax : Base64.intMax = 2147483647 := rfl
    refine ⟨encoded policy alphabet.encodeMap data, ?_, length_encoded alphabet policy hmax, ?_⟩
    · apply base64EncodeInternal_eq alphabet.length_encodeMap hmax
      intro h
      have hlt := hcount h
      omega
    · have hsize : ((encoded policy alphabet.encodeMap data).map UInt8.toUInt16).length + 3 < 2 ^ 32 := by
        have hmaxInput : maxInputBufferSize = 3179391370 := rfl
        rw [List.length_map, length_encoded alphabet policy hmax, outLength_eq hmax, feeds_zero]
        split_ifs <;> omega
      rw [base64DecodeInternal_eq isWhiteSpaceNeutral decodePolicy alphabet.value_padding alphabet.decodeMap_lt hsize,
        decoded, if_pos (accepts_encoded isWhiteSpaceNeutral decodePolicy alphabet hmax hpolicy),
        values_encoded alphabet policy hmax, octets_sextets]
      by_cases hnil : sextets data = []
      · have hlength := length_sextets data
        rw [hnil, List.length_nil] at hlength
        obtain rfl : data = [] := List.length_eq_zero_iff.1 (by omega)
        simp [hnil, encoded, encodedText, outLength, paddedLength, insertsLFs]
      · have hone : ¬ (sextets data).length % 4 = 1 := by
          rw [length_sextets]
          omega
        rw [if_neg hnil, if_neg hone]
  · intro policy string hsize
    refine ⟨_, base64DecodeInternal_eq isWhiteSpaceNeutral policy alphabet.value_padding alphabet.decodeMap_lt hsize, ?_⟩
    intro out hout hnontrivial
    have hle : (stripped isWhiteSpaceNeutral string).length ≤ string.length := List.length_filter_le _ _
    have hcount : (values alphabet.decodeMap string).length =
        string.countP (fun ch => (alphabetValue alphabet.decodeMap ch).isSome) := List.length_filterMap_eq_countP
    rw [base64DecodeInternal_eq isWhiteSpaceNeutral policy alphabet.value_padding alphabet.decodeMap_lt (by omega)]
    unfold decoded at hout ⊢
    rw [values_stripped]
    simp only at hout ⊢
    split_ifs at hout with haccepts hnil hpadding hone
    · obtain hempty : string = [] := by
        obtain hempty | ⟨ch, hch, heq | hsome⟩ := hnontrivial
        · exact hempty
        · exact absurd (heq ▸ hch) (List.count_eq_zero.1 hpadding)
        · obtain ⟨v, hv⟩ := Option.isSome_iff_exists.1 hsome
          have hmem : v ∈ values alphabet.decodeMap string := List.mem_filterMap.2 ⟨ch, hch, hv⟩
          rw [hnil] at hmem
          exact absurd hmem List.not_mem_nil
      obtain rfl := Option.some.inj hout
      subst hempty
      exact ⟨⟨[], rfl, by simp⟩, rfl⟩
    · obtain rfl := Option.some.inj hout
      refine ⟨⟨octets (values alphabet.decodeMap string), rfl, ?_⟩, ?_⟩
      · rw [length_octets, hcount]
      · rw [if_pos (accepts_stripped isWhiteSpaceNeutral policy alphabet _ haccepts), if_neg hnil, if_neg hone]

/-- A byte, and a string with white space and padding. -/
theorem base64_round_trip_byte :
    (∃ text : List UInt8, base64Encode [0x41] .Base64DoNotInsertLFs = some (text.map some) ∧ text.length = 4 ∧
      base64Decode (fun _ => false) (text.map UInt8.toUInt16) .Base64FailOnInvalidCharacter = some (some [some 0x41])) ∧
    (∃ text : List UInt8, base64URLEncode [0x41] = some (text.map some) ∧ text.length = 2 ∧
      base64URLDecode (fun _ => false) (text.map UInt8.toUInt16) = some (some [some 0x41])) ∧
    base64Decode (fun _ => false) [0x51, 0x51] .Base64IgnoreWhitespace = some (some [some 0x41]) := by
  obtain ⟨hencode, hdecode⟩ := base64_round_trip base64Alphabet (fun _ => false)
  obtain ⟨hencodeURL, -⟩ := base64_round_trip base64URLAlphabet (fun _ => false)
  refine ⟨?_, ?_, ?_⟩
  · exact hencode .Base64DoNotInsertLFs .Base64FailOnInvalidCharacter [0x41] (by decide) (by decide) (by decide)
  · exact hencodeURL .Base64URLPolicy .Base64FailOnInvalidCharacter [0x41] (by decide) (by decide) (by decide)
  · obtain ⟨result, hresult, hstripped⟩ :=
      hdecode .Base64IgnoreWhitespace [0x51, 0x20, 0x51, 0x3D, 0x3D] (by decide)
    have heq : result = some [some 0x41] := by
      have hrun : base64DecodeInternal (fun _ => false) [0x51, 0x20, 0x51, 0x3D, 0x3D] .Base64IgnoreWhitespace
          base64DecMap = some (some [some 0x41]) := by decide +kernel
      exact Option.some.inj (hresult.symm.trans hrun)
    exact (hstripped _ heq (Or.inr ⟨0x51, by decide, Or.inr (by decide)⟩)).2

/-- Without padding the encoder writes fewer bytes than it computed. -/
theorem base64URLEncode_short : ¬ ∀ (data : List UInt8) (out : CharVector), base64URLEncode data = some out →
    out.length = outLength .Base64URLPolicy data.length := by
  intro h
  have hrun : base64URLEncode [0x41] = some [some 0x51, some 0x51] := by decide +kernel
  exact absurd (h [0x41] _ hrun) (by decide)

end WebKit.WTF
