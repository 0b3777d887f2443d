import WebKit.WTF.Base64Encoding

/-!
# What the decoder accepts and returns

`accepts` is the decision of the loop over the characters, and `values` are the sextets that it writes
(`decodeLoop_eq`). The second loop joins the sextets in place: it writes behind what it still has to read
(`Joining`, `joinLoop_eq`), and what it leaves are the bytes of the sextets. So the decoder never reads a cell that is
not written or outside its vector, and what it returns is `decoded` (`base64DecodeInternal_eq`).
-/

namespace WebKit.WTF.Base64

open WebKit.Lib

/-! ## The characters -/

/-- The value of a character of the alphabet. -/
def alphabetValue (decodeMap : List UInt8) (ch : UChar) : Option UInt8 :=
  let value := decodeMap.getD ch.toNat nonAlphabet
  if value ≠ nonAlphabet then some value else none

/-- The sextets of a string. -/
def values (decodeMap : List UInt8) (data : List UChar) : List UInt8 := data.filterMap (alphabetValue decodeMap)

section

variable (isWhiteSpaceNeutral : UChar → Bool) (policy : Base64DecodePolicy) (decodeMap : List UInt8)

/-- Whether the loop reaches the end of a string of `length` characters, of which `data` is left. -/
def accepts (length : Nat) : Nat → List UChar → Bool
  | _, [] => true
  | equalsSignCount, ch :: data =>
    if ch = 0x3D then
      !(policy = .Base64FailOnInvalidCharacterOrExcessPadding ∧ (length % 4 ≠ 0 ∨ equalsSignCount + 1 > 2)) &&
        accepts length (equalsSignCount + 1) data
    else if (alphabetValue decodeMap ch).isSome then equalsSignCount = 0 && accepts length equalsSignCount data
    else !rejects isWhiteSpaceNeutral policy ch && accepts length equalsSignCount data

theorem decodedCharacter_eq (ch : UChar) :
    decodedCharacter decodeMap ch = some (decodeMap.getD ch.toNat nonAlphabet) := by
  unfold decodedCharacter
  split_ifs with h
  · rw [List.getD_eq_getElem?_getD, List.getElem?_eq_getElem h]
    rfl
  · rw [List.getD_eq_default _ _ (Nat.not_lt.1 h)]

/-- **The loop over the characters writes their values**, one behind the other. -/
theorem decodeLoop_eq {decodeMap : List UInt8} (hpadding : alphabetValue decodeMap 0x3D = none) (length : Nat)
    (size : Nat) (data : List UChar) (written : List UInt8) (equalsSignCount : Nat)
    (h : written.length + data.length ≤ size) :
    decodeLoop isWhiteSpaceNeutral policy decodeMap length data
        { equalsSignCount, outLength := written.length, out := (filled written size).out } =
      some (if accepts isWhiteSpaceNeutral policy decodeMap length equalsSignCount data then
        some { equalsSignCount := equalsSignCount + data.count 0x3D,
               outLength := (written ++ values decodeMap data).length,
               out := (filled (written ++ values decodeMap data) size).out }
      else none) := by
  induction data generalizing written equalsSignCount with
  | nil => simp [decodeLoop, accepts, values]
  | cons ch data ih =>
    rw [List.length_cons] at h
    unfold decodeLoop accepts
    by_cases heq : ch = 0x3D
    · have hvalues : values decodeMap (ch :: data) = values decodeMap data := by
        rw [values, List.filterMap_cons_none (heq ▸ hpadding)]
        rfl
      have hcount : (ch :: data).count 0x3D = data.count 0x3D + 1 := by rw [heq, List.count_cons_self]
      rw [if_pos heq, if_pos heq, hvalues, hcount]
      by_cases hexcess : policy = .Base64FailOnInvalidCharacterOrExcessPadding ∧
          (length % 4 ≠ 0 ∨ equalsSignCount + 1 > 2)
      · rw [if_pos hexcess, decide_eq_true hexcess]
        rfl
      · rw [if_neg hexcess, ih written (equalsSignCount + 1) (by omega)]
        simp only [hexcess, decide_false, Bool.not_false, Bool.true_and]
        rw [Nat.add_assoc, Nat.add_comm 1]
    · have hcount : (ch :: data).count 0x3D = data.count 0x3D := List.count_cons_of_ne heq
      rw [if_neg heq, if_neg heq, hcount, decodedCharacter_eq]
      simp only [Option.bind_eq_bind, Option.bind_some]
      generalize hvalue : decodeMap.getD ch.toNat nonAlphabet = value
      by_cases hnone : value = nonAlphabet
      · have halphabet : alphabetValue decodeMap ch = none := by
          rw [alphabetValue, hvalue]
          exact if_neg (not_not.2 hnone)
        have hvalues : values decodeMap (ch :: data) = values decodeMap data := by
          rw [values, List.filterMap_cons_none halphabet]
          rfl
        rw [if_neg (not_not.2 hnone), halphabet, hvalues, ih written equalsSignCount (by omega)]
        by_cases hreject : rejects isWhiteSpaceNeutral policy ch <;> simp [hreject]
      · have halphabet : alphabetValue decodeMap ch = some value := by
          rw [alphabetValue, hvalue]
          exact if_pos hnone
        have hvalues : values decodeMap (ch :: data) = value :: values decodeMap data := by
          rw [values, List.filterMap_cons_some halphabet]
          rfl
        rw [if_pos hnone, halphabet, hvalues]
        by_cases hzero : equalsSignCount = 0
        · have hnext := ih (written ++ [value]) equalsSignCount (by rw [List.length_append, List.length_singleton]; omega)
          rw [List.append_assoc, List.singleton_append, List.length_append, List.length_singleton] at hnext
          rw [put_filled (by omega)]
          simp only [hzero, Option.bind_some] at hnext ⊢
          simpa using hnext
        · simp [hzero]

end

/-! ## Joining the sextets -/

theorem shift2_eq (s : UInt8) : (s <<< 2) &&& 255 = UInt8.ofNat (s.toNat % 64 * 4) := by
  have h := shiftLeft_and s (show 2 < 8 by decide) (show 8 ≤ 8 by decide)
  rw [show s.toNat * 2 ^ 2 % 2 ^ 8 = s.toNat % 64 * 4 by omega] at h
  exact h

theorem shift4_eq (t : UInt8) : (t <<< 4) &&& 255 = UInt8.ofNat (t.toNat % 16 * 16) := by
  have h := shiftLeft_and t (show 4 < 8 by decide) (show 8 ≤ 8 by decide)
  rw [show t.toNat * 2 ^ 4 % 2 ^ 8 = t.toNat % 16 * 16 by omega] at h
  exact h

theorem shift6_eq (u : UInt8) : (u <<< 6) &&& 255 = UInt8.ofNat (u.toNat % 4 * 64) := by
  have h := shiftLeft_and u (show 6 < 8 by decide) (show 8 ≤ 8 by decide)
  rw [show u.toNat * 2 ^ 6 % 2 ^ 8 = u.toNat % 4 * 64 by omega] at h
  exact h

theorem middle2_eq (t : UInt8) : (t >>> 4) &&& 0o03 = UInt8.ofNat (t.toNat % 64 / 16) := by
  have h := shiftRight_and t (show 4 < 8 by decide) (show 2 ≤ 8 by decide)
  rw [show t.toNat / 2 ^ 4 % 2 ^ 2 = t.toNat % 64 / 16 by omega] at h
  exact h

theorem middle4_eq (u : UInt8) : (u >>> 2) &&& 0o17 = UInt8.ofNat (u.toNat % 64 / 4) := by
  have h := shiftRight_and u (show 2 < 8 by decide) (show 4 ≤ 8 by decide)
  rw [show u.toNat / 2 ^ 2 % 2 ^ 4 = u.toNat % 64 / 4 by omega] at h
  exact h

section

variable {s t u v : UInt8}

theorem byte0_eq (hs : s.toNat < 64) (ht : t.toNat < 64) : byte0 s t = UInt8.ofNat (s.toNat * 4 + t.toNat / 16) := by
  have hor := or_eq_add s.toNat (show t.toNat / 16 < 2 ^ 2 by omega)
  rw [byte0, shift2_eq, middle2_eq, Nat.mod_eq_of_lt hs, Nat.mod_eq_of_lt ht, UInt8.or_comm]
  exact hor

theorem byte1_eq (hu : u.toNat < 64) : byte1 t u = UInt8.ofNat (t.toNat % 16 * 16 + u.toNat / 4) := by
  have hor := or_eq_add (t.toNat % 16) (show u.toNat / 4 < 2 ^ 4 by omega)
  rw [byte1, shift4_eq, middle4_eq, Nat.mod_eq_of_lt hu, UInt8.or_comm]
  exact hor

theorem byte2_eq (hv : v.toNat < 64) : byte2 u v = UInt8.ofNat (u.toNat % 4 * 64 + v.toNat) := by
  have hor := or_eq_add (u.toNat % 4) (show v.toNat < 2 ^ 6 by omega)
  have hlow : v &&& 0o77 = UInt8.ofNat v.toNat := by
    have hsextet := sextet3_eq v
    rw [Nat.mod_eq_of_lt hv] at hsextet
    exact hsextet
  rw [byte2, shift6_eq, hlow, UInt8.or_comm]
  exact hor

end

/-- In the course of the second loop: the bytes that are written stand at the front of the vector, the sextets that are
not read at `sidx`, and the next byte is not written behind the next sextet. -/
structure Joining (out : CharVector) (sidx : Nat) (bytes rest : List UInt8) : Prop where
  bytes_eq : ∀ j, j < bytes.length → get out j = bytes[j]?
  rest_eq : ∀ j, j < rest.length → get out (sidx + j) = rest[j]?
  le_sidx : bytes.length ≤ sidx
  fits : sidx + rest.length ≤ out.length

theorem get_put {out : CharVector} {index : Nat} (h : index < out.length) (value : UInt8) :
    ∃ out', put out index value = some out' ∧ out'.length = out.length ∧ get out' index = some value ∧
      ∀ j, j ≠ index → get out' j = get out j := by
  refine ⟨out.set index (some value), if_pos h, List.length_set, ?_, ?_⟩
  · rw [get, List.getElem?_set_self h]
    rfl
  · intro j hj
    rw [get, List.getElem?_set_ne hj.symm, get]

/-- A byte is written over a sextet that is read. -/
theorem Joining.put {out : CharVector} {sidx : Nat} {bytes rest : List UInt8} {s : UInt8}
    (h : Joining out sidx bytes (s :: rest)) (value : UInt8) :
    ∃ out', Base64.put out bytes.length value = some out' ∧ out'.length = out.length ∧
      Joining out' (sidx + 1) (bytes ++ [value]) rest := by
  have hle := h.le_sidx
  have hfits := h.fits
  rw [List.length_cons] at hfits
  obtain ⟨out', hput, hlen, hself, hother⟩ := get_put (show bytes.length < out.length by omega) value
  refine ⟨out', hput, hlen, ⟨?_, ?_, ?_, ?_⟩⟩
  · intro j hj
    rw [List.length_append, List.length_singleton] at hj
    by_cases heq : j = bytes.length
    · rw [heq, hself, List.getElem?_concat_length]
    · rw [hother j heq, h.bytes_eq j (by omega), List.getElem?_append_left (by omega)]
  · intro j hj
    have hnext := h.rest_eq (j + 1) (Nat.succ_lt_succ hj)
    rw [hother _ (by omega), Nat.add_assoc, Nat.add_comm 1, hnext, List.getElem?_cons_succ]
  · rw [List.length_append, List.length_singleton]
    omega
  · rw [hlen]
    omega

/-- A sextet is passed over. -/
theorem Joining.skip {out : CharVector} {sidx : Nat} {bytes rest : List UInt8} {s : UInt8}
    (h : Joining out sidx bytes (s :: rest)) : Joining out (sidx + 1) bytes rest := by
  have hle := h.le_sidx
  have hfits := h.fits
  rw [List.length_cons] at hfits
  refine ⟨h.bytes_eq, ?_, by omega, by omega⟩
  intro j hj
  have hnext := h.rest_eq (j + 1) (Nat.succ_lt_succ hj)
  rw [Nat.add_assoc, Nat.add_comm 1, hnext, List.getElem?_cons_succ]

/-- The sextets that are read next. -/
theorem Joining.get_zero {out : CharVector} {sidx : Nat} {bytes rest : List UInt8} {s : UInt8}
    (h : Joining out sidx bytes (s :: rest)) : get out sidx = some s := h.rest_eq 0 (Nat.succ_pos _)

theorem Joining.get_one {out : CharVector} {sidx : Nat} {bytes rest : List UInt8} {s t : UInt8}
    (h : Joining out sidx bytes (s :: t :: rest)) : get out (sidx + 1) = some t := h.skip.get_zero

theorem joinLoop_step {outLength sidx : Nat} (fuel : Nat) {out : CharVector} {bytes rest : List UInt8}
    {s t u v : UInt8} (h : Joining out sidx bytes (s :: t :: u :: v :: rest)) (hlt : bytes.length < outLength - 2) :
    ∃ out', joinLoop outLength (fuel + 1) sidx bytes.length out =
        joinLoop outLength fuel (sidx + 4) (bytes ++ [byte0 s t, byte1 t u, byte2 u v]).length out' ∧
      out'.length = out.length ∧ Joining out' (sidx + 4) (bytes ++ [byte0 s t, byte1 t u, byte2 u v]) rest := by
  obtain ⟨out₁, hput₁, hlen₁, h₁⟩ := h.put (byte0 s t)
  obtain ⟨out₂, hput₂, hlen₂, h₂⟩ := h₁.put (byte1 t u)
  obtain ⟨out₃, hput₃, hlen₃, h₃⟩ := h₂.put (byte2 u v)
  have hbytes : bytes ++ [byte0 s t] ++ [byte1 t u] ++ [byte2 u v] = bytes ++ [byte0 s t, byte1 t u, byte2 u v] := by
    simp only [List.append_assoc, List.cons_append, List.nil_append]
  rw [hbytes] at h₃
  rw [List.length_append, List.length_singleton] at hput₂
  rw [List.length_append, List.length_append, List.length_singleton, List.length_singleton] at hput₃
  refine ⟨out₃, ?_, by omega, h₃.skip⟩
  rw [joinLoop, if_pos hlt]
  simp only [h.get_zero, h.get_one, hput₁, h₁.get_zero, h₁.get_one, hput₂, h₂.get_zero, h₂.get_one, hput₃,
    Option.bind_eq_bind, Option.bind_some]
  rw [List.length_append]
  rfl

theorem joinLoop_stop {outLength fuel sidx didx : Nat} {out : CharVector} (h : ¬ didx < outLength - 2) :
    joinLoop outLength fuel sidx didx out = some (sidx, didx, out) := by
  cases fuel <;> simp [joinLoop, h]

/-- **The second loop and what follows it leave the bytes of the sextets.** -/
theorem joinLoop_eq {outLength : Nat} (rest : List UInt8) (bytes : List UInt8) (fuel sidx : Nat) (out : CharVector)
    (h : Joining out sidx bytes rest) (hlt : ∀ s ∈ rest, s.toNat < 64) (hfuel : (octets rest).length ≤ fuel)
    (hlength : outLength = bytes.length + (octets rest).length) :
    ∃ sidx' didx' out₁ out₂, joinLoop outLength fuel sidx bytes.length out = some (sidx', didx', out₁) ∧
      joinTail outLength sidx' didx' out₁ = some out₂ ∧ out₂.length = out.length ∧
      ∀ j, j < outLength → get out₂ j = (bytes ++ octets rest)[j]? := by
  induction rest using octets.induct generalizing bytes fuel sidx out with
  | case1 s t u v rest ih =>
    simp only [List.forall_mem_cons] at hlt
    obtain ⟨hs, ht, hu, hv, hrest⟩ := hlt
    rw [octets, ← byte0_eq hs ht, ← byte1_eq hu, ← byte2_eq hv] at hlength hfuel ⊢
    simp only [List.length_cons] at hlength hfuel
    obtain ⟨fuel, rfl⟩ : ∃ n, fuel = n + 1 := ⟨fuel - 1, by omega⟩
    obtain ⟨out', hloop, hlen, hnext⟩ := joinLoop_step fuel h (show bytes.length < outLength - 2 by omega)
    obtain ⟨sidx', didx', out₁, out₂, heq, htail, hlen₂, hget⟩ := ih _ fuel (sidx + 4) out' hnext hrest (by omega)
      (by rw [List.length_append]; simp only [List.length_cons, List.length_nil]; omega)
    refine ⟨sidx', didx', out₁, out₂, hloop.trans heq, htail, hlen₂.trans hlen, ?_⟩
    intro j hj
    rw [hget j hj, List.append_assoc]
    rfl
  | case2 s t u =>
    simp only [List.forall_mem_cons] at hlt
    obtain ⟨hs, ht, hu, -⟩ := hlt
    rw [octets, ← byte0_eq hs ht, ← byte1_eq hu] at hlength ⊢
    simp only [List.length_cons, List.length_nil] at hlength
    obtain ⟨out₁, hput₁, hlen₁, h₁⟩ := h.put (byte0 s t)
    obtain ⟨out₂, hput₂, hlen₂, h₂⟩ := h₁.put (byte1 t u)
    rw [List.length_append, List.length_singleton] at hput₂
    refine ⟨sidx, bytes.length, out, out₂, joinLoop_stop (by omega), ?_, by omega, ?_⟩
    · have hfirst : bytes.length < outLength := by omega
      have hsecond : bytes.length + 1 < outLength := by omega
      rw [joinTail]
      simp only [hfirst, hsecond, if_true, h.get_zero, h.get_one, hput₁, h₁.get_zero, h₁.get_one, hput₂,
        Option.bind_eq_bind, Option.bind_some]
    · intro j hj
      rw [h₂.bytes_eq j (by simp only [List.length_append, List.length_singleton]; omega), List.append_assoc]
      rfl
  | case3 s t =>
    simp only [List.forall_mem_cons] at hlt
    obtain ⟨hs, ht, -⟩ := hlt
    rw [octets, ← byte0_eq hs ht] at hlength ⊢
    simp only [List.length_cons, List.length_nil] at hlength
    obtain ⟨out₁, hput₁, hlen₁, h₁⟩ := h.put (byte0 s t)
    refine ⟨sidx, bytes.length, out, out₁, joinLoop_stop (by omega), ?_, hlen₁, ?_⟩
    · have hfirst : bytes.length < outLength := by omega
      have hsecond : ¬ bytes.length + 1 < outLength := by omega
      rw [joinTail]
      simp only [hfirst, hsecond, if_true, if_false, h.get_zero, h.get_one, hput₁, Option.bind_eq_bind, Option.bind_some]
    · intro j hj
      exact h₁.bytes_eq j (by rw [List.length_append, List.length_singleton]; omega)
  | case4 rest h₁ h₂ h₃ =>
    have hnil : octets rest = [] := octets.eq_4 rest h₁ h₂ h₃
    rw [hnil] at hlength ⊢
    simp only [List.length_nil, Nat.add_zero] at hlength
    refine ⟨sidx, bytes.length, out, out, joinLoop_stop (by omega), ?_, rfl, ?_⟩
    · have hfirst : ¬ bytes.length < outLength := by omega
      have hsecond : ¬ bytes.length + 1 < outLength := by omega
      rw [joinTail]
      simp only [hfirst, hsecond, if_false, Option.bind_eq_bind, Option.bind_some]
    · intro j hj
      rw [List.append_nil, h.bytes_eq j (by omega)]

/-! ## The decoder -/

section

variable (isWhiteSpaceNeutral : UChar → Bool) (policy : Base64DecodePolicy) (decodeMap : List UInt8)

/-- What the decoder returns: the cells of the vector where there is no character of the alphabet and no padding are
not written. -/
def decoded (data : List UChar) : Option CharVector :=
  let sextets := values decodeMap data
  if accepts isWhiteSpaceNeutral policy decodeMap data.length 0 data then
    if sextets = [] then if data.count 0x3D = 0 then some (List.replicate data.length none) else none
    else if sextets.length % 4 = 1 then none
    else some ((octets sextets).map some)
  else none

theorem length_values_le (data : List UChar) : (values decodeMap data).length ≤ data.length :=
  List.length_filterMap_le _ _

variable {decodeMap}

theorem values_lt (hmap : ∀ v ∈ decodeMap, v = nonAlphabet ∨ v.toNat < 64) (data : List UChar) :
    ∀ v ∈ values decodeMap data, v.toNat < 64 := by
  intro v hv
  obtain ⟨ch, -, hch⟩ := List.mem_filterMap.1 hv
  unfold alphabetValue at hch
  simp only at hch
  split_ifs at hch with hne
  obtain rfl := Option.some.inj hch
  by_cases hlt : ch.toNat < decodeMap.length
  · rw [List.getD_eq_getElem _ _ hlt] at hne ⊢
    exact (hmap _ (List.getElem_mem hlt)).resolve_left hne
  · exact absurd (List.getD_eq_default _ _ (Nat.not_lt.1 hlt)) hne

theorem joining_filled (sextets : List UInt8) (size : Nat) : Joining (filled sextets size).out 0 [] sextets := by
  refine ⟨?_, ?_, le_rfl, ?_⟩
  · intro j hj
    exact absurd hj (Nat.not_lt_zero j)
  · intro j hj
    have hlt : j < (sextets.map some).length := by rwa [List.length_map]
    rw [Nat.zero_add, get, filled, List.getElem?_append_left hlt, List.getElem?_map, List.getElem?_eq_getElem hj]
    rfl
  · simp only [filled, List.length_append, List.length_map, List.length_replicate]
    omega

theorem take_eq_of_get {out : CharVector} {bytes : List UInt8}
    (h : ∀ j, j < bytes.length → get out j = bytes[j]?) : out.take bytes.length = bytes.map some := by
  apply List.ext_getElem?
  intro j
  by_cases hj : j < bytes.length
  · have hget := h j hj
    rw [List.getElem?_eq_getElem hj] at hget
    rw [List.getElem?_take_of_lt hj, List.getElem?_map, List.getElem?_eq_getElem hj, Option.map_some]
    exact Option.join_eq_some_iff.1 hget
  · rw [List.getElem?_eq_none (by rw [List.length_take]; omega), List.getElem?_eq_none (by rw [List.length_map]; omega)]

/-- **The decoder computes `decoded`**: every cell that it reads is written, and inside the vector. -/
theorem base64DecodeInternal_eq (hpadding : alphabetValue decodeMap 0x3D = none)
    (hmap : ∀ v ∈ decodeMap, v = nonAlphabet ∨ v.toNat < 64) {data : List UChar} (hsize : data.length + 3 < 2 ^ 32) :
    base64DecodeInternal isWhiteSpaceNeutral data policy decodeMap =
      some (decoded isWhiteSpaceNeutral policy decodeMap data) := by
  by_cases hzero : data.length = 0
  · obtain rfl := List.length_eq_zero_iff.1 hzero
    simp [base64DecodeInternal, decoded, accepts, values]
  have hloop := decodeLoop_eq isWhiteSpaceNeutral policy hpadding data.length data.length data [] 0
    (by rw [List.length_nil]; omega)
  have hlt := values_lt hmap data
  have hle := length_values_le decodeMap data
  have hempty : (filled [] data.length).out = List.replicate data.length none := rfl
  rw [hempty] at hloop
  rw [base64DecodeInternal, if_neg hzero, decoded]
  simp only [List.length_nil, List.nil_append, Nat.zero_add] at hloop
  simp only [hloop, Option.bind_eq_bind, Option.bind_some]
  generalize values decodeMap data = sextets at hlt hle ⊢
  by_cases haccepts : accepts isWhiteSpaceNeutral policy decodeMap data.length 0 data
  · simp only [haccepts, if_true]
    by_cases hnil : sextets = []
    · simp [hnil, hempty]
    have hpos : sextets.length ≠ 0 := fun h => hnil (List.length_eq_zero_iff.1 h)
    rw [if_neg hpos, if_neg hnil]
    by_cases hone : sextets.length % 4 = 1
    · simp [hone]
    have hlength : sextets.length - (sextets.length + 3) % 2 ^ 32 / 4 = (octets sextets).length := by
      rw [length_octets]
      omega
    have hjoined : (octets sextets).length ≠ 0 := by
      rw [length_octets]
      omega
    obtain ⟨sidx, didx, out₁, out₂, hjoin, htail, hlen, hget⟩ := joinLoop_eq sextets [] _ 0 _
      (joining_filled sextets data.length) hlt (le_refl (octets sextets).length) (Nat.zero_add _).symm
    simp only [List.length_nil] at hjoin
    have hwhole : (if (octets sextets).length > 1 then
        joinLoop (octets sextets).length (octets sextets).length 0 0 (filled sextets data.length).out
        else some (0, 0, (filled sextets data.length).out)) = some (sidx, didx, out₁) := by
      split_ifs with hlong
      · exact hjoin
      · rw [← hjoin, joinLoop_stop (by omega)]
    have hshrink : (octets sextets).length < out₂.length := by
      have hfilled : (filled sextets data.length).out.length = data.length := by
        simp only [filled, List.length_append, List.length_map, List.length_replicate]
        omega
      rw [length_octets]
      omega
    have htake := take_eq_of_get hget
    rw [if_neg hone, hlength, if_neg hjoined, hwhole]
    simp only [Option.bind_some, htail, hshrink, hone, if_true, if_false, htake, pure]
  · simp [haccepts]

end

end WebKit.WTF.Base64
