import WebKit.WTF.UTF8RoundTrip

/-!
# The UTF-8 of a string

`StringImpl::utf8`, which goes through `convertLatin1ToUTF8` for 8-bit strings and through `convertUTF16ToUTF8` for 16-bit
strings. In strict mode the UTF-8 of a string is that of its scalar values (`utf8_of_splits`), and it is null where there
is a surrogate that is not part of a pair (`utf8_of_not_splits`) or the string has more than (2 ^ 32 - 1) / 3 characters.
-/

namespace WebKit.WTF

open Unicode WebKit.Lib

namespace Unicode

namespace Latin1ToUTF8

def body (state : State UInt8 UInt8 Unit) : Option (Iteration (State UInt8 UInt8 Unit)) := do
  match state.source with
  | [] => none
  | unit :: source =>
    let ch := unit.toUInt32
    let n := if ch < 0x80 then 1 else 2
    let target := { state.target with position := state.target.position + n }
    if target.position > target.cells.length then return .leave .targetExhausted state
    let (ch, target) ← UTF16ToUTF8.writeTrailing (n - 1) ch target
    let mark ← firstByteMark[n]?
    let target ← target.putBefore (ch ||| mark.toUInt32).toUInt8
    return .next { source, target := { target with position := target.position + n }, data := () }

end Latin1ToUTF8

def convertLatin1ToUTF8 (source : List UInt8) (cells : List UInt8) :
    Option (ConversionResult × State UInt8 UInt8 Unit) :=
  whileSource Latin1ToUTF8.body source.length { source, target := { cells, position := 0 }, data := () }

/-- What the next character of an 8-bit string becomes in UTF-8. -/
def nextLatin1 : List UInt8 → Except ConversionResult (List UInt8 × List UInt8)
  | [] => .error .sourceExhausted
  | unit :: source => .ok (encodeUTF8 unit.toNat, source)

/-- **An iteration of `convertLatin1ToUTF8` converts one character.** -/
theorem implements_nextLatin1 : Implements Latin1ToUTF8.body nextLatin1 := by
  intro state hne hroom
  obtain ⟨unit, source, hsource⟩ := List.exists_cons_of_ne_nil hne
  unfold nextLatin1 Latin1ToUTF8.body
  rw [hsource]
  constructor
  · intro result hnext
    cases hnext
  · intro piece rest hnext
    obtain ⟨rfl, rfl⟩ := Prod.mk.inj (Except.ok.inj hnext)
    have hunit : unit.toUInt32.toNat = unit.toNat := UInt8.toNat_toUInt32 unit
    have hlt := unit.toNat_lt
    have hlt80 : unit.toUInt32 < 0x80 ↔ unit.toNat < 0x80 := by
      rw [UInt32.lt_iff_toNat_lt, hunit]
      rfl
    obtain ⟨n, mark, hbytes, hmark, hencode⟩ := @bytesToWrite_eq unit.toUInt32 (by omega)
    have hn : (if unit.toUInt32 < 0x80 then 1 else 2) = n + 1 := by
      have hlt800 : unit.toUInt32 < 0x800 := by
        rw [UInt32.lt_iff_toNat_lt, hunit]
        exact hlt.trans (by decide)
      unfold UTF16ToUTF8.bytesToWrite at hbytes
      split_ifs at hbytes with h
      · rw [if_pos h]
        exact congrArg Prod.fst hbytes
      · rw [if_neg h]
        exact congrArg Prod.fst hbytes
    rw [hunit] at hencode
    have hlen : (encodeUTF8 unit.toNat).length = n + 1 := by
      rw [hencode, List.length_cons, length_trailingBytes]
    refine ⟨by simp, ?_, ?_⟩
    · intro hfits
      rw [hlen] at hfits
      obtain ⟨middle, htrailing, last, hput, hwrite⟩ :=
        write_character unit.toUInt32 (UInt32.ofNat (unit.toNat / 64 ^ n) ||| mark.toUInt32).toUInt8 hfits
      rw [hunit] at htrailing hwrite
      refine ⟨(), ?_⟩
      simp only [hn, Nat.add_sub_cancel, Option.bind_eq_bind]
      rw [if_neg (by omega), htrailing]
      simp only [Option.bind_some, hmark, hput, hwrite, ← hencode]
      rfl
    · intro hfull
      rw [hlen] at hfull
      simp only [hn]
      rw [if_pos hfull]
      rfl

theorem converts_Latin1 : Converts convertLatin1ToUTF8 nextLatin1 :=
  fun source cells => whileSource_drains implements_nextLatin1 ⟨source, ⟨cells, 0⟩, ()⟩ (Nat.le_refl _) (Nat.zero_le _)

end Unicode

namespace StringImpl

/-- `utf8Impl`, with the bytes that are put into the buffer, or nothing for `false`. -/
def utf8Impl (characters : List UChar) (strict : Bool) : Option (Option (List UInt8)) := do
  let (result, state) ← convertUTF16ToUTF8 characters (List.replicate (characters.length * 3) 0) strict
  match result with
  | .sourceIllegal => return none
  | .sourceExhausted =>
    if strict then return none
    -- the unpaired high surrogate at the end is encoded as it is
    let c ← state.source.head?
    let first := c >>> 12 &&& 0x0F
    let second := c >>> 6 &&& 0x3F
    let third := c &&& 0x3F
    let bytes := [(first ||| 0xE0).toUInt8, (second ||| 0x80).toUInt8, (third ||| 0x80).toUInt8]
    if state.target.position + 3 ≤ state.target.cells.length then
      return some (state.target.cells.take state.target.position ++ bytes)
    else none
  | _ => return some (state.target.cells.take state.target.position)

/-- `utf8`, with nothing for the null `CString`. -/
def utf8 (string : StringImpl) (strict : Bool) : Option (Option (List UInt8)) :=
  if string.characters.length = 0 then some (some [])
  else if string.characters.length > (2 ^ 32 - 1) / 3 then some none
  else
    match string with
    | latin1 characters8 => do
      let (_, state) ← convertLatin1ToUTF8 characters8 (List.replicate (characters8.length * 3) 0)
      return some (state.target.cells.take state.target.position)
    | utf16 characters16 => utf8Impl characters16 strict

/-! ## The strict mode -/

theorem toUInt16_eq_encodeUTF16 (unit : UInt8) : [unit.toUInt16] = encodeUTF16 unit.toNat := by
  have hlt := unit.toNat_lt
  rw [encodeUTF16, if_pos (by omega)]
  apply congrArg (fun u => [u])
  apply UInt16.toNat.inj
  rw [UInt8.toNat_toUInt16, UInt16.toNat_ofNat_of_lt' (show _ < 2 ^ 16 by omega)]

/-- An 8-bit string has no surrogates. -/
theorem characters_latin1 (characters8 : List UInt8) :
    (∀ c ∈ characters8.map UInt8.toNat, IsScalar c) ∧
      (latin1 characters8).characters = (characters8.map UInt8.toNat).flatMap encodeUTF16 := by
  constructor
  · intro c hc
    obtain ⟨unit, -, rfl⟩ := List.mem_map.1 hc
    have hlt := unit.toNat_lt
    exact .inl (by omega)
  · rw [characters, List.flatMap_map]
    induction characters8 with
    | nil => rfl
    | cons unit characters8 ih => rw [List.map_cons, List.flatMap_cons, ih, ← toUInt16_eq_encodeUTF16]; rfl

theorem flatMap_encodeUTF8_eq {cs cs' : List Nat} (hcs : ∀ c ∈ cs, IsScalar c) (hcs' : ∀ c ∈ cs', IsScalar c)
    (h : cs.flatMap encodeUTF16 = cs'.flatMap encodeUTF16) : cs.flatMap encodeUTF8 = cs'.flatMap encodeUTF8 := by
  have hdrains := drains_nextUTF16 true (3 * (cs.flatMap encodeUTF16).length) hcs (length_flatMap_encodeUTF8_le cs hcs)
  have hdrains' := drains_nextUTF16 true (3 * (cs.flatMap encodeUTF16).length) hcs'
    (h ▸ length_flatMap_encodeUTF8_le cs' hcs')
  rw [h] at hdrains hdrains'
  exact (hdrains'.unique hdrains).1

/-- **The UTF-8 of well-formed characters.** -/
theorem utf8_of_scalars {string : StringImpl} {cs : List Nat} (hcs : ∀ c ∈ cs, IsScalar c)
    (h : string.characters = cs.flatMap encodeUTF16) (hlength : string.characters.length ≤ (2 ^ 32 - 1) / 3) :
    string.utf8 true = some (some (cs.flatMap encodeUTF8)) := by
  rw [utf8.eq_def]
  by_cases hempty : string.characters.length = 0
  · have hnil : cs.flatMap encodeUTF16 = ([] : List Nat).flatMap encodeUTF16 := by
      rw [← h]
      exact List.eq_nil_of_length_eq_zero hempty
    rw [if_pos hempty, flatMap_encodeUTF8_eq hcs (List.forall_mem_nil _) hnil]
    rfl
  · rw [if_neg hempty, if_neg (Nat.not_lt_of_le hlength)]
    cases string with
    | latin1 characters8 =>
      obtain ⟨hscalars, heq⟩ := characters_latin1 characters8
      have hout := flatMap_encodeUTF8_eq hcs hscalars (h.symm.trans heq)
      have hfits := length_flatMap_encodeUTF8_le _ hscalars
      have hdrains : Drains nextLatin1 (characters8.flatMap fun unit => [unit])
          (List.replicate (characters8.length * 3) (0 : UInt8)).length
          (characters8.flatMap fun unit => encodeUTF8 unit.toNat) [] .done := by
        refine drains_flatMap (fun unit _ => List.cons_ne_nil unit []) (fun unit _ rest => rfl) ?_
        rw [← heq, characters, List.length_map, List.flatMap_map] at hfits
        rw [List.length_replicate]
        omega
      have hsource : (characters8.flatMap fun unit => [unit]) = characters8 := List.flatMap_singleton' characters8
      rw [hsource] at hdrains
      obtain ⟨state, hrun, hwritten⟩ := converts_done converts_Latin1 (List.replicate (characters8.length * 3) 0) hdrains
      rw [Target.written] at hwritten
      simp only [hrun, Option.bind_eq_bind, Option.bind_some, hwritten]
      rw [hout, List.flatMap_map]
      rfl
    | utf16 characters16 =>
      have heq : characters16 = cs.flatMap encodeUTF16 := h
      have hfits := length_flatMap_encodeUTF8_le cs hcs
      have hdrains := drains_nextUTF16 true (List.replicate (characters16.length * 3) (0 : UInt8)).length hcs
        (by rw [List.length_replicate, heq]; omega)
      rw [← heq] at hdrains
      obtain ⟨state, hrun, hwritten⟩ := converts_done (converts_UTF16 true) (List.replicate (characters16.length * 3) 0)
        hdrains
      rw [Target.written] at hwritten
      simp only [utf8Impl, hrun, Option.bind_eq_bind, Option.bind_some, hwritten]
      rfl

/-- Characters that are taken in strict mode are well-formed. -/
theorem splits_of_conversionOK {characters16 : List UChar} {cells : List UInt8} {state : State UChar UInt8 Unit}
    (h : convertUTF16ToUTF8 characters16 cells true = some (.conversionOK, state)) : Splits utf16Table characters16 := by
  obtain ⟨out, rest, ending, data, hdrains, hrun⟩ := converts_UTF16 true characters16 cells
  obtain ⟨hresult, -⟩ := Prod.mk.inj (Option.some.inj (h.symm.trans hrun))
  obtain rfl := (resultOf_eq_conversionOK (stopsAlone_nextUTF16 true) hdrains).1 hresult.symm
  have hrest : rest = [] := hdrains.rest_of_done rfl
  obtain ⟨pieces, hsource, -, hpieces⟩ := hdrains.pieces fun source piece rest h => isCharacter_of_nextUTF16 h
  refine ⟨pieces.map Prod.fst, by rw [hsource, hrest, List.append_nil], ?_⟩
  intro q hq
  obtain ⟨p, hp, rfl⟩ := List.mem_map.1 hq
  obtain ⟨c, ⟨hc, hunits⟩ | ⟨hfalse, -⟩, -⟩ := hpieces p hp
  · exact (fits_utf16Table_iff _).2 ⟨c, hc, hunits⟩
  · cases hfalse

/-- **Null, where the characters are not well-formed.** -/
theorem utf8_of_not_splits {string : StringImpl} (h : ¬ Splits utf16Table string.characters) :
    string.utf8 true = some none := by
  have hempty : string.characters.length ≠ 0 := by
    intro hempty
    apply h
    rw [List.eq_nil_of_length_eq_zero hempty]
    exact ⟨[], rfl, List.forall_mem_nil _⟩
  rw [utf8.eq_def, if_neg hempty]
  split_ifs with hlength
  · rfl
  · cases string with
    | latin1 characters8 =>
      obtain ⟨hscalars, heq⟩ := characters_latin1 characters8
      exact absurd ((splits_utf16Table_iff _).2 ⟨_, hscalars, heq⟩) h
    | utf16 characters16 =>
      obtain ⟨result, state, hrun, -, -, hroom, -⟩ :=
        resumable_UTF16 true characters16 (List.replicate (characters16.length * 3) 0)
      have hexhausted := hroom (by rw [List.length_replicate]; omega)
      have hok : result ≠ .conversionOK := by
        rintro rfl
        exact h (splits_of_conversionOK hrun)
      simp only [utf8Impl, hrun, Option.bind_eq_bind, Option.bind_some]
      cases result with
      | conversionOK => exact absurd rfl hok
      | sourceExhausted => rfl
      | targetExhausted => exact absurd rfl hexhausted
      | sourceIllegal => rfl

end StringImpl

end WebKit.WTF
