import WebKit.JSC.URICodingExact

/-!
# Round trips of URI coding

What `encode` writes is a text that `decode` reads back (`decodes_encoded`), because a byte that is not escaped is a
character below 128 other than `%`, and a reserved character is never escaped. `encode` fails for unpaired surrogates, and
also for strings that are too long for `utf8`; up to there URI coding is exact (`uri_coding_exact`).
-/

namespace WebKit.JSC

open WTF WTF.Unicode WebKit.Lib

/-! ## What `encode` writes -/

instance (c : UChar) (v : Nat) : Decidable (HexValue c v) := inferInstanceAs (Decidable (_ ∨ _ ∨ _))

theorem hexValue_upperHexDigit (n : UInt8) : n < 16 → HexValue (upperHexDigit n).toUInt16 n.toNat := by
  revert n
  exact forall_uint8 (by decide +kernel)

variable (doNotEscape : List UInt8)

/-- What `encode` appends for bytes. -/
def encoded (bytes : List UInt8) : List UChar := (bytes.flatMap (encodeByte doNotEscape)).map (·.toUInt16)

variable {doNotEscape}

theorem encoded_append (bytes bytes' : List UInt8) :
    encoded doNotEscape (bytes ++ bytes') = encoded doNotEscape bytes ++ encoded doNotEscape bytes' := by
  rw [encoded, List.flatMap_append, List.map_append]
  rfl

theorem escaped_encoded {bytes : List UInt8} (h : ∀ byte ∈ bytes, ¬ (byte ≠ 0 ∧ byte ∈ doNotEscape)) :
    Escaped (encoded doNotEscape bytes) bytes := by
  induction bytes with
  | nil => exact .nil
  | cons byte bytes ih =>
    obtain ⟨hbyte, hbytes⟩ := List.forall_mem_cons.1 h
    have hlt := byte.toNat_lt
    have hhigh : (byte / 16).toNat = byte.toNat / 16 := UInt8.toNat_div _ _
    have hlow : (byte % 16).toNat = byte.toNat % 16 := UInt8.toNat_mod _ _
    have hx := hexValue_upperHexDigit (byte / 16) (UInt8.lt_iff_toNat_lt.2 (show (byte / 16).toNat < 16 by omega))
    have hy := hexValue_upperHexDigit (byte % 16) (UInt8.lt_iff_toNat_lt.2 (show (byte % 16).toNat < 16 by omega))
    have hescaped := Escaped.cons hx hy (ih hbytes)
    rw [hhigh, hlow, Nat.div_add_mod, UInt8.ofNat_toNat] at hescaped
    rw [encoded, List.flatMap_cons, encodeByte, if_neg hbyte]
    exact hescaped

/-- The bytes of a character from 128 on are not below 128. -/
theorem le_of_mem_encodeUTF8 {c : Nat} (hscalar : IsScalar c) (hc : 128 ≤ c) : ∀ byte ∈ encodeUTF8 c, 128 ≤ byte.toNat := by
  unfold IsScalar at hscalar
  rw [encodeUTF8, if_neg (by omega)]
  split_ifs
  all_goals
    simp only [trailingBytes, List.nil_append, List.cons_append, List.mem_cons, List.not_mem_nil, or_false, forall_eq_or_imp,
      forall_eq, UInt8.toNat_ofNat']
    omega

variable {doNotUnescape : List UChar}

/-- **What is encoded is read back.** -/
theorem decodes_encoded (hescape : ∀ byte ∈ doNotEscape, byte.toNat < 128 ∧ byte ≠ 0x25)
    (hreserved : ∀ u ∈ doNotUnescape, u ≠ 0 ∧ u.toNat < 128 ∧ u.toUInt8 ∈ doNotEscape) (cs : List Nat)
    (hcs : ∀ c ∈ cs, IsScalar c) :
    Decodes doNotUnescape (encoded doNotEscape (cs.flatMap encodeUTF8)) (cs.flatMap encodeUTF16) := by
  induction cs with
  | nil => exact .nil
  | cons c cs ih =>
    obtain ⟨hc, hcs⟩ := List.forall_mem_cons.1 hcs
    rw [List.flatMap_cons, List.flatMap_cons, encoded_append]
    have hencode : c < 128 → encodeUTF8 c = [UInt8.ofNat c] := fun h => by rw [encodeUTF8, if_pos h]
    by_cases hplain : c < 128 ∧ UInt8.ofNat c ≠ 0 ∧ UInt8.ofNat c ∈ doNotEscape
    · obtain ⟨hsmall, hplain⟩ := hplain
      have hunit : (UInt8.ofNat c).toUInt16 = UInt16.ofNat c := by
        apply UInt16.toNat.inj
        rw [UInt8.toNat_toUInt16, UInt8.toNat_ofNat_of_lt' (show c < 256 by omega),
          UInt16.toNat_ofNat_of_lt' (show c < 65536 by omega)]
      have hpercent : UInt16.ofNat c ≠ 0x25 := by
        intro h
        refine (hescape _ hplain.2).2 (UInt8.toNat.inj ?_)
        have hvalue : (UInt16.ofNat c).toNat = 0x25 := by rw [h]; rfl
        rw [UInt16.toNat_ofNat_of_lt' (show c < 65536 by omega)] at hvalue
        rw [hvalue]
        rfl
      rw [hencode hsmall, encodeUTF16, if_pos (by omega)]
      have htext : encoded doNotEscape [UInt8.ofNat c] = [UInt16.ofNat c] := by
        rw [encoded, List.flatMap_singleton, encodeByte, if_pos hplain, List.map_singleton, hunit]
      rw [htext]
      exact .unit hpercent (ih hcs)
    · have hbytes : ∀ byte ∈ encodeUTF8 c, ¬ (byte ≠ 0 ∧ byte ∈ doNotEscape) := by
        intro byte hbyte hkeep
        by_cases hsmall : c < 128
        · rw [hencode hsmall, List.mem_singleton] at hbyte
          subst hbyte
          exact hplain ⟨hsmall, hkeep⟩
        · have hle := le_of_mem_encodeUTF8 hc (Nat.le_of_not_lt hsmall) byte hbyte
          have hlt := (hescape byte hkeep.2).1
          omega
      have hescaped := escaped_encoded hbytes
      have hfree : ¬ Reserved doNotUnescape c := by
        rintro ⟨u, hu, rfl⟩
        obtain ⟨hne, hlt, hmem⟩ := hreserved u hu
        refine hplain ⟨hlt, fun hzero => hne (UInt16.toNat.inj ?_), hmem⟩
        have hvalue := congrArg UInt8.toNat hzero
        rwa [UInt8.toNat_ofNat_of_lt' (show u.toNat < 256 by omega)] at hvalue
      have hat : IsCharacterAt (encoded doNotEscape (encodeUTF8 c) ++ encoded doNotEscape (cs.flatMap encodeUTF8)) c
          (encoded doNotEscape (encodeUTF8 c)).length := ⟨hc, hescaped.length_eq, _, _, rfl, hescaped⟩
      refine .escape hat hfree ?_
      rw [List.drop_left]
      exact ih hcs

/-! ## The functions -/

/-- **`decode` reads the text, or finds it malformed.** -/
theorem decode_spec (hset : ∀ u ∈ doNotUnescape, u ≠ 0 ∧ u.toNat < 128) (string : StringImpl)
    (hlength : string.characters.length < 2 ^ 31) : ∃ result, decode string doNotUnescape true = some result ∧
      ((∃ decoded, result = .ok decoded ∧ Decodes doNotUnescape string.characters decoded.characters) ∨
        (result = .error ⟨"URI error"⟩ ∧ Malformed string.characters)) := by
  have hbmod : (string.characters.length : Int).bmod (2 ^ 32) = string.characters.length :=
    Int.bmod_eq_of_le (by omega) (by omega)
  obtain ⟨result, hresult, houtcome⟩ :=
    decodeLoop_spec hset (string.characters.length + 1) 0 (.buffer8 []) (Nat.zero_le _) (Nat.lt_succ_self _)
  refine ⟨result.map JSStringBuilder.build, ?_, ?_⟩
  · simp only [decode, hbmod, hresult, Option.bind_eq_bind, Option.bind_some]
    rfl
  · obtain ⟨out, final, rfl, hfinal, h⟩ | ⟨rfl, h⟩ := houtcome
    · refine .inl ⟨final.build, rfl, ?_⟩
      rw [hfinal]
      exact h
    · exact .inr ⟨rfl, h⟩

/-- **`encode` encodes the characters, or finds a surrogate that is not paired.** -/
theorem encode_spec (doNotEscape : List UInt8) (string : StringImpl)
    (hlength : string.characters.length ≤ (2 ^ 32 - 1) / 3) : ∃ result, encode string doNotEscape = some result ∧
      ((∃ (cs : List Nat) (written : StringImpl), (∀ c ∈ cs, IsScalar c) ∧ string.characters = cs.flatMap encodeUTF16 ∧ result = .ok written ∧
          written.characters = encoded doNotEscape (cs.flatMap encodeUTF8)) ∨
        (∃ error, result = .error error ∧ HasUnpairedSurrogate string.characters)) := by
  by_cases hpaired : HasUnpairedSurrogate string.characters
  · have hnull := StringImpl.utf8_of_not_splits fun h => (splits_utf16Table_iff_paired _).1 h hpaired
    exact ⟨_, by rw [encode, hnull]; rfl, .inr ⟨_, rfl, hpaired⟩⟩
  · obtain ⟨cs, hcs, hstring⟩ := (splits_utf16Table_iff _).1 (splits_of_paired hpaired)
    have hutf8 := StringImpl.utf8_of_scalars hcs hstring hlength
    refine ⟨_, by rw [encode, hutf8]; rfl, .inl ⟨cs, _, hcs, hstring, rfl, ?_⟩⟩
    rw [JSStringBuilder.characters_foldl_append]
    rfl

/-- The encoding fails for unpaired surrogates only, and is undone by the decoding where that can have the length. -/
def EncodesURI (encode decode : StringImpl → Option (Except URIError StringImpl)) : Prop :=
  ∀ string : StringImpl, string.characters.length ≤ 1431655765 → ∃ result, encode string = some result ∧
    ((∃ error, result = .error error) ↔ HasUnpairedSurrogate string.characters) ∧
    ∀ written, result = .ok written → written.characters.length < 2 ^ 31 →
      ∃ decoded, decode written = some (.ok decoded) ∧ decoded.characters = string.characters

/-- The decoding gives the reading of a text, and fails where it is malformed. -/
def DecodesURI (decode : StringImpl → Option (Except URIError StringImpl)) (reserved : List UChar) : Prop :=
  ∀ string : StringImpl, string.characters.length < 2 ^ 31 → ∃ result, decode string = some result ∧
    ((∃ error, result = .error error) ↔ Malformed string.characters) ∧
    ∀ out, (∃ decoded, result = .ok decoded ∧ decoded.characters = out) ↔ Decodes reserved string.characters out

theorem decodesURI_decode (hset : ∀ u ∈ doNotUnescape, u ≠ 0 ∧ u.toNat < 128) :
    DecodesURI (fun string => decode string doNotUnescape true) doNotUnescape := by
  intro string hlength
  obtain ⟨result, hresult, ⟨decoded, rfl, h⟩ | ⟨rfl, h⟩⟩ := decode_spec hset string hlength
  · refine ⟨_, hresult, ⟨fun ⟨error, herror⟩ => (nomatch herror), fun hbad => absurd hbad h.not_malformed⟩, fun out => ?_⟩
    constructor
    · rintro ⟨decoded', heq, rfl⟩
      obtain rfl := Except.ok.inj heq
      exact h
    · intro h'
      exact ⟨decoded, rfl, h.unique h'⟩
  · refine ⟨_, hresult, ⟨fun _ => h, fun _ => ⟨_, rfl⟩⟩, fun out => ⟨fun ⟨decoded, heq, _⟩ => (nomatch heq), fun h' => ?_⟩⟩
    exact absurd h h'.not_malformed

theorem encodesURI_encode (hescape : ∀ byte ∈ doNotEscape, byte.toNat < 128 ∧ byte ≠ 0x25)
    (hreserved : ∀ u ∈ doNotUnescape, u ≠ 0 ∧ u.toNat < 128 ∧ u.toUInt8 ∈ doNotEscape) :
    EncodesURI (fun string => encode string doNotEscape) (fun string => decode string doNotUnescape true) := by
  intro string hlength
  obtain ⟨result, hresult, ⟨cs, written, hcs, hstring, rfl, hwritten⟩ | ⟨error, rfl, h⟩⟩ :=
    encode_spec doNotEscape string hlength
  · have hpaired := (splits_utf16Table_iff_paired _).1 ((splits_utf16Table_iff _).2 ⟨cs, hcs, hstring⟩)
    refine ⟨_, hresult, ⟨fun ⟨error, herror⟩ => (nomatch herror), fun h => absurd h hpaired⟩, ?_⟩
    rintro written' heq hshort
    obtain rfl := Except.ok.inj heq
    have hread := decodes_encoded hescape hreserved cs hcs
    rw [← hwritten] at hread
    have hset : ∀ u ∈ doNotUnescape, u ≠ 0 ∧ u.toNat < 128 := fun u hu => ⟨(hreserved u hu).1, (hreserved u hu).2.1⟩
    obtain ⟨result, hdecode, ⟨decoded, rfl, h⟩ | ⟨-, h⟩⟩ := decode_spec hset written hshort
    · exact ⟨decoded, hdecode, by rw [hstring, h.unique hread]⟩
    · exact absurd h hread.not_malformed
  · exact ⟨_, hresult, ⟨fun _ => h, fun _ => ⟨error, rfl⟩⟩, fun written heq => nomatch heq⟩

/-- A property of the members of a list of code units, checked for each of them. -/
theorem forall_mem_of_all {l : List UChar} {p : UChar → Prop} [DecidablePred p] (h : l.all (fun u => decide (p u)) = true) :
    ∀ u ∈ l, p u := fun u hu => of_decide_eq_true (List.all_eq_true.1 h u hu)

theorem do_not_unescape_ascii : ∀ u ∈ do_not_unescape_when_decoding_URI, u ≠ 0 ∧ u.toNat < 128 :=
  forall_mem_of_all (by decide)

/-- **URI coding is exact** for strings up to the length that `utf8` takes, and texts whose length is an `int`. -/
theorem uri_coding_exact :
    EncodesURI globalFuncEncodeURI globalFuncDecodeURI ∧
    EncodesURI globalFuncEncodeURIComponent globalFuncDecodeURIComponent ∧
    DecodesURI globalFuncDecodeURI do_not_unescape_when_decoding_URI ∧
    DecodesURI globalFuncDecodeURIComponent [] := by
  refine ⟨encodesURI_encode ?_ ?_, encodesURI_encode ?_ ?_, decodesURI_decode do_not_unescape_ascii,
    decodesURI_decode (List.forall_mem_nil _)⟩
  · decide +kernel
  · exact forall_mem_of_all (by decide +kernel)
  · decide +kernel
  · exact List.forall_mem_nil _

theorem encode_long {string : StringImpl} (h : (2 ^ 32 - 1) / 3 < string.characters.length) (doNotEscape : List UInt8) :
    encode string doNotEscape = some (.error ⟨"String contained an illegal UTF-16 sequence."⟩) := by
  have hnull : string.utf8 true = some none := by
    rw [StringImpl.utf8.eq_def, if_neg (by omega), if_pos h]
  rw [encode, hnull]
  rfl

/-- 1431655766 times `a`. -/
theorem uri_coding_long :
    let string := StringImpl.latin1 (List.replicate 1431655766 0x61)
    globalFuncEncodeURIComponent string = some (.error ⟨"String contained an illegal UTF-16 sequence."⟩) ∧
      ¬ HasUnpairedSurrogate string.characters := by
  intro string
  have hcharacters : string.characters = List.replicate 1431655766 0x61 := List.map_replicate
  refine ⟨encode_long ?_ _, ?_⟩
  · rw [hcharacters, List.length_replicate]
    norm_num
  · rw [← splits_utf16Table_iff_paired, splits_utf16Table_iff]
    obtain ⟨hscalars, heq⟩ := StringImpl.characters_latin1 (List.replicate 1431655766 0x61)
    exact ⟨_, hscalars, heq⟩

end WebKit.JSC
