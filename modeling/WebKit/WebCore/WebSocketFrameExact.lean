import WebKit.WebCore.WebSocketFrame

/-!
# WebSocket frames are read back, one at a time

A buffer with a whole length field is described by its parts (`Header`). `parseFrame` follows the length they encode
(`parseFrame_header`), and waits if they are not all there (`parseFrame_short`). The payload is unmasked where it is
(`unmask_spec`), and nothing else changes. So a frame that was made is read back from the front of any buffer
(`parseFrame_makeFrameData`), no prefix of it is read or changed (`parseFrame_prefix`), and errors are the lengths that
are not minimal or too large (`webSocketFrame_exact`).
-/

namespace WebKit.WebCore.WebSocketFrame

open WebKit.Lib

theorem toNat_shift_or {value : UInt64} (h : value.toNat < 2 ^ 56) (byte : UInt8) :
    (value <<< 8 ||| byte.toUInt64).toNat = value.toNat * 256 + byte.toNat := by
  have height : (8 : UInt64).toNat % 64 = 8 := rfl
  have hbyte := byte.toNat_lt
  have hor := Nat.two_pow_add_eq_or_of_lt (i := 8) hbyte value.toNat
  rw [UInt64.toNat_or, UInt64.toNat_shiftLeft, height, UInt8.toNat_toUInt64, Nat.shiftLeft_eq, Nat.mul_comm,
    Nat.mod_eq_of_lt (by omega), ← hor]

theorem readLength_spec (front read field rest : List UInt8) {value : UInt64}
    (hvalue : value.toNat = ofBigEndian read) (hlength : read.length + field.length ≤ 8) :
    ∃ value', readLength (front ++ (field ++ rest)) value front.length field.length = some value' ∧
      value'.toNat = ofBigEndian (read ++ field) := by
  induction field generalizing front read value with
  | nil => exact ⟨value, rfl, by rw [List.append_nil, hvalue]⟩
  | cons byte field ih =>
    have hlt : value.toNat < 2 ^ 56 := by
      have hpow : 256 ^ read.length ≤ 256 ^ 7 := Nat.pow_le_pow_right (by decide) (by simp at hlength; omega)
      have := ofBigEndian_lt read
      omega
    have hnext : (value <<< 8 ||| byte.toUInt64).toNat = ofBigEndian (read ++ [byte]) := by
      rw [toNat_shift_or hlt, ofBigEndian_concat, hvalue]
    obtain ⟨value', hread, hvalue'⟩ := ih (front ++ [byte]) (read ++ [byte]) hnext (by simp at hlength ⊢; omega)
    refine ⟨value', ?_, by rw [hvalue', List.append_assoc, List.singleton_append]⟩
    have hbyte : (front ++ (byte :: field ++ rest))[front.length]? = some byte := by simp
    rw [List.length_cons, readLength, hbyte, Option.bind_eq_bind, Option.bind_some]
    simpa using hread

/-! ## The payload -/

/-- The payload with the masking key over it, from index `i` on. -/
def maskBytes (key : List UInt8) (i : Nat) (payload : List UInt8) : List UInt8 :=
  payload.mapIdx fun j byte => byte ^^^ key.getD ((i + j) % 4) 0

theorem maskBytes_cons (key : List UInt8) (i : Nat) (byte : UInt8) (payload : List UInt8) :
    maskBytes key i (byte :: payload) = (byte ^^^ key.getD (i % 4) 0) :: maskBytes key (i + 1) payload := by
  simp only [maskBytes, List.mapIdx_cons, Nat.add_zero]
  congr 2
  funext j byte
  rw [Nat.add_assoc, Nat.add_comm 1 j]

theorem length_maskBytes (key : List UInt8) (i : Nat) (payload : List UInt8) :
    (maskBytes key i payload).length = payload.length := List.length_mapIdx

theorem maskBytes_maskBytes (key : List UInt8) (i : Nat) (payload : List UInt8) :
    maskBytes key i (maskBytes key i payload) = payload := by
  induction payload generalizing i with
  | nil => rfl
  | cons byte payload ih => rw [maskBytes_cons, maskBytes_cons, ih, UInt8.xor_assoc, UInt8.xor_self, UInt8.xor_zero]

/-- **The payload is unmasked where it is.** -/
theorem unmask_spec (front done payload rest : List UInt8) {key : List UInt8} (hkey : key.length = 4) :
    unmask front.length (front.length + 4) done.length payload.length (front ++ (key ++ (done ++ (payload ++ rest)))) =
      some (front ++ (key ++ (done ++ (maskBytes key done.length payload ++ rest)))) := by
  induction payload generalizing done with
  | nil => rfl
  | cons byte payload ih =>
    have hmod : done.length % 4 < key.length := by rw [hkey]; exact Nat.mod_lt _ (by decide)
    have hbyte : (front ++ (key ++ (done ++ (byte :: payload ++ rest))))[front.length + 4 + done.length]? =
        some byte := by
      rw [← hkey, Nat.add_assoc]
      simp
    have hread : (front ++ (key ++ (done ++ (byte :: payload ++ rest))))[front.length + done.length % 4]? =
        some (key.getD (done.length % 4) 0) := by
      rw [List.getElem?_append_right (Nat.le_add_right _ _), Nat.add_sub_cancel_left, List.getElem?_append_left hmod,
        List.getElem?_eq_getElem hmod, List.getD_eq_getElem _ _ hmod]
    have hwrite : ∀ byte', writeSlot (front ++ (key ++ (done ++ (byte :: payload ++ rest))))
        (front.length + 4 + done.length) byte' = some (front ++ (key ++ ((done ++ [byte']) ++ (payload ++ rest)))) := by
      intro byte'
      have hslot := writeSlot_append (front ++ (key ++ done)) (payload ++ rest) byte byte'
      simpa [hkey, Nat.add_assoc] using hslot
    rw [List.length_cons, unmask, hbyte, Option.bind_eq_bind, Option.bind_some]
    simp only [maskingKeyWidthInBytes, hread, hwrite, Option.bind_eq_bind, Option.bind_some]
    have hnext := ih (done ++ [byte ^^^ key.getD (done.length % 4) 0])
    rw [List.length_append, List.length_singleton] at hnext
    rw [hnext, maskBytes_cons]
    simp

/-! ## Behind the length -/

/-- The second byte says that the payload is masked. -/
def isMasked (secondByte : UInt8) : Bool := secondByte &&& maskBit ≠ 0

def keyLength (secondByte : UInt8) : Nat := if isMasked secondByte then 4 else 0

/-- The length is more than the protocol or the address space allows. -/
def TooLarge (size : AddressSize) (secondByte : UInt8) (length : Nat) : Prop :=
  2 ^ 63 ≤ length ∨ 2 ^ size.bits ≤ length + keyLength secondByte

/-- The payload as it was before masking. -/
def unmasked (secondByte : UInt8) (key payload : List UInt8) : List UInt8 :=
  if isMasked secondByte then maskBytes key 0 payload else payload

/-- The frame that is read from the first two bytes. -/
def frameOf (firstByte secondByte : UInt8) (payload payloadLength : Nat) : WebSocketFrame Nat where
  opCode := firstByte &&& opCodeMask
  final := firstByte &&& finalBit ≠ 0
  compress := firstByte &&& compressBit ≠ 0
  reserved2 := firstByte &&& reserved2Bit ≠ 0
  reserved3 := firstByte &&& reserved3Bit ≠ 0
  masked := isMasked secondByte
  payload := payload
  payloadLength := payloadLength

section

variable {size : AddressSize} {front body : List UInt8} {firstByte secondByte : UInt8} {value : UInt64}

theorem keyLength_le (secondByte : UInt8) : keyLength secondByte ≤ 4 := by
  unfold keyLength
  split <;> omega

/-- The sum in the check does not wrap. -/
theorem tooLarge_iff : value > 0x7FFFFFFFFFFFFFFF ∨
    value + UInt64.ofNat (keyLength secondByte) > UInt64.ofNat (2 ^ size.bits - 1) ↔
      TooLarge size secondByte value.toNat := by
  have hkey := keyLength_le secondByte
  have hlimit : (0x7FFFFFFFFFFFFFFF : UInt64).toNat = 2 ^ 63 - 1 := rfl
  have hmax : (UInt64.ofNat (2 ^ size.bits - 1)).toNat = 2 ^ size.bits - 1 := by cases size <;> rfl
  have hbits : 2 ^ size.bits ≤ 2 ^ 64 ∧ 0 < 2 ^ size.bits := by cases size <;> decide
  rw [gt_iff_lt, gt_iff_lt, UInt64.lt_iff_toNat_lt, UInt64.lt_iff_toNat_lt, hlimit, hmax, UInt64.toNat_add,
    UInt64.toNat_ofNat', Nat.mod_eq_of_lt (show keyLength secondByte < 2 ^ 64 by omega), TooLarge]
  by_cases hlarge : 2 ^ 63 ≤ value.toNat
  · constructor
    · exact fun _ => Or.inl hlarge
    · exact fun _ => Or.inl (by omega)
  · rw [Nat.mod_eq_of_lt (by omega)]
    omega

theorem parsePayload_def (data : List UInt8) (p : Nat) : parsePayload size data firstByte secondByte value p =
    if value > 0x7FFFFFFFFFFFFFFF ∨ value + UInt64.ofNat (keyLength secondByte) > UInt64.ofNat (2 ^ size.bits - 1) then
      some (.FrameError (lengthTooLarge value), data)
    else if (data.length - p) % 2 ^ size.bits <
        (keyLength secondByte + value.toNat % 2 ^ size.bits) % 2 ^ size.bits then some (.FrameIncomplete, data)
    else (if isMasked secondByte then unmask p (p + 4) 0 (value.toNat % 2 ^ size.bits) data else some data).map
      fun data => (.FrameOK (frameOf firstByte secondByte (p + keyLength secondByte) (value.toNat % 2 ^ size.bits))
        (p + keyLength secondByte + value.toNat % 2 ^ size.bits), data) := rfl

theorem parsePayload_tooLarge {data : List UInt8} {p : Nat} (h : TooLarge size secondByte value.toNat) :
    parsePayload size data firstByte secondByte value p = some (.FrameError (lengthTooLarge value), data) := by
  rw [parsePayload_def, if_pos (tooLarge_iff.2 h)]

/-- The lengths do not wrap in a buffer that fits into the address space. -/
theorem parsePayload_eq (h : ¬ TooLarge size secondByte value.toNat)
    (hfits : (front ++ body).length < 2 ^ (size.bits - 1)) :
    parsePayload size (front ++ body) firstByte secondByte value front.length =
      if body.length < keyLength secondByte + value.toNat then some (.FrameIncomplete, front ++ body)
      else (if isMasked secondByte then unmask front.length (front.length + 4) 0 value.toNat (front ++ body)
        else some (front ++ body)).map fun data =>
          (.FrameOK (frameOf firstByte secondByte (front.length + keyLength secondByte) value.toNat)
            (front.length + keyLength secondByte + value.toNat), data) := by
  have hcheck := mt tooLarge_iff.1 h
  rw [TooLarge] at h
  have hpow : 2 ^ (size.bits - 1) ≤ 2 ^ size.bits := Nat.pow_le_pow_right (by decide) (Nat.sub_le _ _)
  have hlength : value.toNat % 2 ^ size.bits = value.toNat := Nat.mod_eq_of_lt (by omega)
  have hsum : (keyLength secondByte + value.toNat) % 2 ^ size.bits = keyLength secondByte + value.toNat :=
    Nat.mod_eq_of_lt (by omega)
  have hleft : ((front ++ body).length - front.length) % 2 ^ size.bits = body.length := by
    rw [List.length_append] at hfits ⊢
    rw [Nat.add_sub_cancel_left, Nat.mod_eq_of_lt (by omega)]
  rw [parsePayload_def, if_neg hcheck, hlength, hsum, hleft]

/-- **A payload that is all there is read, and unmasked where it is.** -/
theorem parsePayload_ok {key payload rest : List UInt8} (hkey : key.length = keyLength secondByte)
    (hpayload : payload.length = value.toNat) (h : ¬ TooLarge size secondByte value.toNat)
    (hfits : (front ++ (key ++ (payload ++ rest))).length < 2 ^ (size.bits - 1)) :
    parsePayload size (front ++ (key ++ (payload ++ rest))) firstByte secondByte value front.length =
      some (.FrameOK (frameOf firstByte secondByte (front.length + key.length) payload.length)
        (front.length + key.length + payload.length), front ++ (key ++ (unmasked secondByte key payload ++ rest))) := by
  have hroom : ¬ (key ++ (payload ++ rest)).length < keyLength secondByte + value.toNat := by
    simp only [List.length_append]
    omega
  rw [parsePayload_eq h hfits, if_neg hroom, ← hkey, ← hpayload, unmasked]
  cases hmasked : isMasked secondByte with
  | true =>
    have hfour : key.length = 4 := by rw [hkey, keyLength, hmasked]; rfl
    have hunmask := unmask_spec front [] payload rest hfour
    simp only [List.nil_append, List.length_nil] at hunmask
    simp only [if_true, hunmask, Option.map_some]
  | false => rfl

end

/-! ## Headers -/

/-- The number in the second byte. -/
def shortLength (secondByte : UInt8) : Nat := (secondByte &&& payloadLengthMask).toNat

/-- The size of the extended length field. -/
def extendedSize (secondByte : UInt8) : Nat :=
  if shortLength secondByte ≤ 125 then 0 else if shortLength secondByte = 126 then 2 else 8

/-- The length that a header encodes. -/
def encodedLength (secondByte : UInt8) (field : List UInt8) : Nat :=
  if shortLength secondByte ≤ 125 then shortLength secondByte else ofBigEndian field

/-- The extended length field is longer than the length needs. -/
def NotMinimal (secondByte : UInt8) (field : List UInt8) : Prop :=
  (extendedSize secondByte = 2 ∧ ofBigEndian field ≤ 125) ∨ (extendedSize secondByte = 8 ∧ ofBigEndian field ≤ 0xFFFF)

/-- The buffer starts with the two bytes and the whole extended length field. -/
structure Header (data : List UInt8) (firstByte secondByte : UInt8) (field body : List UInt8) : Prop where
  eq : data = firstByte :: secondByte :: (field ++ body)
  length_field : field.length = extendedSize secondByte

section

variable {size : AddressSize} {data field body : List UInt8} {firstByte secondByte : UInt8}

theorem parseFrame_cons (rest : List UInt8) : parseFrame size (firstByte :: secondByte :: rest) =
    if shortLength secondByte > 125 then
      if rest.length < extendedSize secondByte then some (.FrameIncomplete, firstByte :: secondByte :: rest)
      else (readLength (firstByte :: secondByte :: rest) 0 2 (extendedSize secondByte)).bind fun value =>
        if extendedSize secondByte = 2 ∧ value.toNat ≤ 125 then
          some (.FrameError lengthTooSmall, firstByte :: secondByte :: rest)
        else if extendedSize secondByte = 8 ∧ value ≤ 0xFFFF then
          some (.FrameError lengthTooSmall, firstByte :: secondByte :: rest)
        else
          parsePayload size (firstByte :: secondByte :: rest) firstByte secondByte value (2 + extendedSize secondByte)
    else parsePayload size (firstByte :: secondByte :: rest) firstByte secondByte
      (secondByte &&& payloadLengthMask).toUInt64 2 := by
  have hshort : (secondByte &&& payloadLengthMask).toUInt64.toNat = shortLength secondByte := UInt8.toNat_toUInt64 _
  have hlength : ¬ (firstByte :: secondByte :: rest).length < 2 := by simp
  have hrest : (firstByte :: secondByte :: rest).length - 2 = rest.length := by simp
  rw [parseFrame, if_neg hlength]
  simp only [List.getElem?_cons_zero, List.getElem?_cons_succ, Option.bind_eq_bind, Option.bind_some, hshort, hrest,
    maxPayloadLengthWithoutExtendedLengthField, payloadLengthWithTwoByteExtendedLengthField]
  by_cases hlong : shortLength secondByte > 125
  · have hsize : extendedSize secondByte = if shortLength secondByte = 126 then 2 else 8 := by
      rw [extendedSize, if_neg (by omega)]
    rw [if_pos hlong, if_pos hlong, ← hsize]
    rfl
  · rw [if_neg hlong, if_neg hlong]

/-- **The buffer ends in front of the end of the length field.** -/
theorem parseFrame_short (h : data.length < 2 ∨ ∃ firstByte secondByte rest, data = firstByte :: secondByte :: rest ∧
    rest.length < extendedSize secondByte) : parseFrame size data = some (.FrameIncomplete, data) := by
  rcases h with h | ⟨firstByte, secondByte, rest, rfl, hrest⟩
  · exact if_pos h
  · have hlong : shortLength secondByte > 125 := by
      by_contra hshort
      rw [extendedSize, if_pos (by omega)] at hrest
      exact Nat.not_lt_zero _ hrest
    rw [parseFrame_cons, if_pos hlong, if_pos hrest]

/-- **The header decides.** -/
theorem parseFrame_header (h : Header data firstByte secondByte field body) :
    (NotMinimal secondByte field → parseFrame size data = some (.FrameError lengthTooSmall, data)) ∧
      (¬ NotMinimal secondByte field → ∃ value : UInt64, value.toNat = encodedLength secondByte field ∧
        parseFrame size data = parsePayload size data firstByte secondByte value (2 + field.length)) := by
  obtain ⟨rfl, hfield⟩ := h
  rw [parseFrame_cons, encodedLength, NotMinimal]
  by_cases hlong : shortLength secondByte > 125
  · have hle : extendedSize secondByte ≤ 8 := by
      unfold extendedSize
      split_ifs <;> omega
    obtain ⟨value, hread, hvalue⟩ := readLength_spec [firstByte, secondByte] [] field body
      (show (0 : UInt64).toNat = ofBigEndian [] from rfl) (by simp; omega)
    have hroom : ¬ (field ++ body).length < extendedSize secondByte := by
      rw [List.length_append]
      omega
    have hlimit : value ≤ 0xFFFF ↔ value.toNat ≤ 0xFFFF := UInt64.le_iff_toNat_le
    rw [hfield] at hread
    rw [List.nil_append] at hvalue
    have hread' : readLength (firstByte :: secondByte :: (field ++ body)) 0 2 (extendedSize secondByte) = some value :=
      hread
    rw [if_pos hlong, if_neg hroom, hread', Option.bind_some, if_neg (show ¬ shortLength secondByte ≤ 125 by omega)]
    simp only [hlimit, hvalue, hfield]
    constructor
    · rintro (hsmall | hsmall)
      · rw [if_pos hsmall]
      · rw [if_neg (by omega), if_pos hsmall]
    · intro hminimal
      refine ⟨value, hvalue, ?_⟩
      rw [if_neg fun h => hminimal (Or.inl h), if_neg fun h => hminimal (Or.inr h)]
  · have hzero : extendedSize secondByte = 0 := if_pos (by omega)
    obtain rfl := List.eq_nil_of_length_eq_zero (hfield.trans hzero)
    rw [if_neg hlong, hzero]
    constructor
    · rintro (⟨hsmall, -⟩ | ⟨hsmall, -⟩) <;> omega
    · intro _
      exact ⟨_, by rw [if_pos (by omega)]; exact UInt8.toNat_toUInt64 _, rfl⟩

theorem short_or_header (data : List UInt8) :
    (data.length < 2 ∨ ∃ firstByte secondByte rest, data = firstByte :: secondByte :: rest ∧
      rest.length < extendedSize secondByte) ∨
    ∃ firstByte secondByte field body, Header data firstByte secondByte field body := by
  rcases data with _ | ⟨firstByte, _ | ⟨secondByte, rest⟩⟩
  · exact Or.inl (Or.inl (by simp))
  · exact Or.inl (Or.inl (by simp))
  · rcases Nat.lt_or_ge rest.length (extendedSize secondByte) with hlt | hge
    · exact Or.inl (Or.inr ⟨firstByte, secondByte, rest, rfl, hlt⟩)
    · refine Or.inr ⟨firstByte, secondByte, rest.take (extendedSize secondByte),
        rest.drop (extendedSize secondByte), ?_, ?_⟩
      · rw [List.take_append_drop]
      · rw [List.length_take, Nat.min_eq_left hge]

theorem Header.unique {firstByte' secondByte' : UInt8} {field' body' : List UInt8}
    (h : Header data firstByte secondByte field body) (h' : Header data firstByte' secondByte' field' body') :
    firstByte = firstByte' ∧ secondByte = secondByte' ∧ field = field' ∧ body = body' := by
  obtain ⟨rfl, hfield⟩ := h
  obtain ⟨heq, hfield'⟩ := h'
  simp only [List.cons.injEq] at heq
  obtain ⟨rfl, rfl, heq⟩ := heq
  obtain ⟨rfl, rfl⟩ := List.append_inj heq (hfield.trans hfield'.symm)
  exact ⟨rfl, rfl, rfl, rfl⟩

/-- The buffer has a header of which the length is not minimal or too large. -/
def Rejected (size : AddressSize) (data : List UInt8) : Prop :=
  ∃ firstByte secondByte field body, Header data firstByte secondByte field body ∧
    (NotMinimal secondByte field ∨ TooLarge size secondByte (encodedLength secondByte field))

theorem Header.rejected_iff (h : Header data firstByte secondByte field body) :
    Rejected size data ↔ NotMinimal secondByte field ∨ TooLarge size secondByte (encodedLength secondByte field) := by
  constructor
  · rintro ⟨firstByte', secondByte', field', body', h', hrejected⟩
    obtain ⟨rfl, rfl, rfl, rfl⟩ := h.unique h'
    exact hrejected
  · intro hrejected
    exact ⟨firstByte, secondByte, field, body, h, hrejected⟩

/-! ## Any buffer -/

/-- The frame at the start of `data` is read, its payload is unmasked in `data'`, and nothing else changes. -/
def Reads (data : List UInt8) (frame : WebSocketFrame Nat) (frameEnd : Nat) (data' : List UInt8) : Prop :=
  ∃ firstByte secondByte field key payload rest,
    Header data firstByte secondByte field (key ++ (payload ++ rest)) ∧ key.length = keyLength secondByte ∧
      payload.length = encodedLength secondByte field ∧
      frame = frameOf firstByte secondByte (2 + field.length + key.length) payload.length ∧
      frameEnd = 2 + field.length + key.length + payload.length ∧
      data' = firstByte :: secondByte :: (field ++ (key ++ (unmasked secondByte key payload ++ rest)))

/-- What may come of a buffer. -/
def Outcome (size : AddressSize) (data : List UInt8) : ParseFrameResult → List UInt8 → Prop
  | .FrameOK frame frameEnd, data' => ¬ Rejected size data ∧ Reads data frame frameEnd data'
  | .FrameIncomplete, data' => ¬ Rejected size data ∧ data' = data
  | .FrameError _, data' => Rejected size data ∧ data' = data

theorem header_front (h : Header data firstByte secondByte field body) :
    data = (firstByte :: secondByte :: field) ++ body ∧
      (firstByte :: secondByte :: field).length = 2 + field.length := by
  refine ⟨h.eq, ?_⟩
  simp
  omega

theorem parseFrame_waits (h : Header data firstByte secondByte field body) (hfits : data.length < 2 ^ (size.bits - 1))
    (haccepted : ¬ Rejected size data) (hshort : body.length < keyLength secondByte + encodedLength secondByte field) :
    parseFrame size data = some (.FrameIncomplete, data) := by
  rw [h.rejected_iff, not_or] at haccepted
  obtain ⟨hminimal, hsmall⟩ := haccepted
  obtain ⟨value, hvalue, hparse⟩ := (parseFrame_header h).2 hminimal
  obtain ⟨heq, hfront⟩ := header_front h
  rw [hparse, ← hfront, heq, parsePayload_eq (by rwa [hvalue]) (by rwa [← heq]), if_pos (by rwa [hvalue])]

theorem parseFrame_reads {key payload rest : List UInt8}
    (h : Header data firstByte secondByte field (key ++ (payload ++ rest))) (hfits : data.length < 2 ^ (size.bits - 1))
    (haccepted : ¬ Rejected size data) (hkey : key.length = keyLength secondByte)
    (hpayload : payload.length = encodedLength secondByte field) :
    parseFrame size data =
      some (.FrameOK (frameOf firstByte secondByte (2 + field.length + key.length) payload.length)
        (2 + field.length + key.length + payload.length),
        firstByte :: secondByte :: (field ++ (key ++ (unmasked secondByte key payload ++ rest)))) := by
  rw [h.rejected_iff, not_or] at haccepted
  obtain ⟨hminimal, hsmall⟩ := haccepted
  obtain ⟨value, hvalue, hparse⟩ := (parseFrame_header h).2 hminimal
  obtain ⟨heq, hfront⟩ := header_front h
  rw [hparse, ← hfront, heq, parsePayload_ok hkey (by rw [hpayload, hvalue]) (by rwa [hvalue]) (by rwa [← heq])]
  rfl

/-- **Any buffer is read in its bounds**, and only lengths that are not minimal or too large are errors. -/
theorem parseFrame_outcome (hfits : data.length < 2 ^ (size.bits - 1)) :
    ∃ result data', parseFrame size data = some (result, data') ∧ Outcome size data result data' := by
  rcases short_or_header data with hshort | ⟨firstByte, secondByte, field, body, h⟩
  · refine ⟨_, _, parseFrame_short hshort, ?_, rfl⟩
    rintro ⟨firstByte, secondByte, field, body, ⟨rfl, hfield⟩, -⟩
    rcases hshort with hshort | ⟨_, _, rest, heq, hrest⟩
    · rw [List.length_cons, List.length_cons] at hshort
      omega
    · simp only [List.cons.injEq] at heq
      obtain ⟨-, rfl, rfl⟩ := heq
      rw [List.length_append] at hrest
      omega
  · by_cases hminimal : NotMinimal secondByte field
    · exact ⟨_, _, (parseFrame_header h).1 hminimal, h.rejected_iff.2 (Or.inl hminimal), rfl⟩
    · obtain ⟨value, hvalue, hparse⟩ := (parseFrame_header h).2 hminimal
      by_cases hlarge : TooLarge size secondByte (encodedLength secondByte field)
      · refine ⟨_, _, hparse.trans (parsePayload_tooLarge (by rwa [hvalue])), h.rejected_iff.2 (Or.inr hlarge), rfl⟩
      · have haccepted : ¬ Rejected size data := by
          rw [h.rejected_iff, not_or]
          exact ⟨hminimal, hlarge⟩
        rcases Nat.lt_or_ge body.length (keyLength secondByte + encodedLength secondByte field) with hshort | hroom
        · exact ⟨_, _, parseFrame_waits h hfits haccepted hshort, haccepted, rfl⟩
        · have hsplit : body = body.take (keyLength secondByte) ++
              ((body.drop (keyLength secondByte)).take (encodedLength secondByte field) ++
                (body.drop (keyLength secondByte)).drop (encodedLength secondByte field)) := by
            rw [List.take_append_drop, List.take_append_drop]
          have hkey : (body.take (keyLength secondByte)).length = keyLength secondByte := by
            rw [List.length_take, Nat.min_eq_left (by omega)]
          have hpayload : ((body.drop (keyLength secondByte)).take (encodedLength secondByte field)).length =
              encodedLength secondByte field := by
            rw [List.length_take, List.length_drop, Nat.min_eq_left (by omega)]
          rw [hsplit] at h
          exact ⟨_, _, parseFrame_reads h hfits haccepted hkey hpayload, haccepted, firstByte, secondByte, field, _, _,
            _, h, hkey, hpayload, rfl, rfl, rfl⟩

end

/-! ## Frames that are made -/

theorem secondByte_spec (masked : Bool) {n : Nat} (h : n < 128) :
    isMasked ((if masked then maskBit else 0) ||| UInt8.ofNat n) = masked ∧
      shortLength ((if masked then maskBit else 0) ||| UInt8.ofNat n) = n := by
  have hall : ∀ (masked : Bool) (i : Fin 128), isMasked ((if masked then maskBit else 0) ||| UInt8.ofNat i) = masked ∧
      shortLength ((if masked then maskBit else 0) ||| UInt8.ofNat i) = i := by decide
  exact hall masked ⟨n, h⟩

theorem frameOf_firstByte {opCode : UInt8} (h : opCode < 16) (final compress : Bool) {secondByte : UInt8}
    (place n : Nat) :
    frameOf ((if final then finalBit else 0) ||| (if compress then compressBit else 0) ||| opCode) secondByte place n =
      construct opCode final compress (isMasked secondByte) place n := by
  have hall : ∀ (final compress : Bool) (i : Fin 16),
      let firstByte := (if final then finalBit else 0) ||| (if compress then compressBit else 0) ||| UInt8.ofNat i
      firstByte &&& opCodeMask = UInt8.ofNat i ∧ decide (firstByte &&& finalBit ≠ 0) = final ∧
        decide (firstByte &&& compressBit ≠ 0) = compress ∧ decide (firstByte &&& reserved2Bit ≠ 0) = false ∧
          decide (firstByte &&& reserved3Bit ≠ 0) = false := by decide
  have hlt : opCode.toNat < 16 := h
  obtain ⟨hopCode, hfinal, hcompress, hreserved2, hreserved3⟩ := hall final compress ⟨opCode.toNat, hlt⟩
  simp only [UInt8.ofNat_toNat] at hopCode hfinal hcompress hreserved2 hreserved3
  rw [frameOf, construct, hopCode, hfinal, hcompress, hreserved2, hreserved3]

theorem twoBytes_eq {n : Nat} (h : n ≤ 0xFFFF) :
    [UInt8.ofNat ((n &&& 0xFF00) >>> 8), UInt8.ofNat (n &&& 0xFF)] = bigEndian 2 n := by
  have hhigh : n &&& 0xFF00 = n / 2 ^ 8 * 2 ^ 8 := and_high (n := 16) (k := 8) (by omega) (by decide)
  have hlow : n &&& 0xFF = n % 2 ^ 8 := Nat.and_two_pow_sub_one_eq_mod n 8
  have hbyte : UInt8.ofNat (n % 2 ^ 8) = UInt8.ofNat n := by
    apply UInt8.toNat.inj
    rw [UInt8.toNat_ofNat', UInt8.toNat_ofNat', Nat.mod_mod]
  rw [hhigh, hlow, Nat.shiftRight_eq_div_pow, Nat.mul_div_cancel _ (by decide), hbyte, bigEndian_succ, bigEndian_succ]
  simp [bigEndian, littleEndian]

theorem eightBytes_eq (n : Nat) (h : 0 + 8 ≤ 8) :
    (storeBigEndian 0 8 n h (.replicate 8 0)).toList = bigEndian 8 n := by
  rw [toList_storeBigEndian]
  simp

/-- The bytes of the masking key, and the payload under it. -/
def keyBytes (masked : Bool) (maskingKey : Vector UInt8 4) : List UInt8 := if masked then maskingKey.toList else []

theorem maskPayload_eq (maskingKey : Vector UInt8 4) (payload : List UInt8) :
    maskPayload maskingKey payload = maskBytes maskingKey.toList 0 payload := by
  unfold maskPayload maskBytes
  congr 1
  funext i byte
  have hlt : i % 4 < maskingKey.toList.length := by
    rw [Vector.length_toList]
    exact Nat.mod_lt i (by decide)
  rw [Nat.zero_add, List.getD_eq_getElem _ _ hlt]
  simp only [maskingKeyWidthInBytes, Vector.getElem_toList]
  rfl

/-- The bytes of a frame. -/
def frameData (opCode : UInt8) (final compress masked : Bool) (payload : List UInt8) (maskingKey : Vector UInt8 4) :
    List UInt8 :=
  makeFrameData (construct opCode final compress masked payload payload.length) maskingKey

section

variable (opCode : UInt8) (final compress masked : Bool) {payload : List UInt8} (maskingKey : Vector UInt8 4)

theorem makeFrameData_eq (hlength : payload.length < 2 ^ 63) :
    ∃ secondByte field, frameData opCode final compress masked payload maskingKey =
        ((if final then finalBit else 0) ||| (if compress then compressBit else 0) ||| opCode) :: secondByte ::
          (field ++ (keyBytes masked maskingKey ++
            if masked then maskBytes maskingKey.toList 0 payload else payload)) ∧
      isMasked secondByte = masked ∧ field.length = extendedSize secondByte ∧
      encodedLength secondByte field = payload.length ∧ ¬ NotMinimal secondByte field := by
  have happend : ∀ header : List UInt8,
      appendFramePayload (construct opCode final compress masked payload payload.length) maskingKey header =
        header ++ (keyBytes masked maskingKey ++
          if masked then maskBytes maskingKey.toList 0 payload else payload) := by
    intro header
    cases masked with
    | true => simp [appendFramePayload, construct, keyBytes, maskPayload_eq]
    | false => simp [appendFramePayload, construct, keyBytes]
  have hneeds : ¬ (construct opCode final compress masked payload payload.length).payloadLength ≤
      maxPayloadLengthWithoutExtendedLengthField ↔ 125 < payload.length := Nat.not_le
  have hmany : ¬ (construct opCode final compress masked payload payload.length).payloadLength ≤ 0xFFFF ↔
      0xFFFF < payload.length := Nat.not_le
  rcases Nat.lt_or_ge 125 payload.length with hlong | hshort
  · rcases Nat.lt_or_ge 0xFFFF payload.length with hlonger | hmiddle
    · obtain ⟨hmasked, hshort⟩ := secondByte_spec masked (show 127 < 128 by decide)
      refine ⟨_, bigEndian 8 payload.length, ?_, hmasked, ?_⟩
      · rw [frameData, makeFrameData, happend]
        rw [if_neg (hneeds.2 hlong), if_neg (hmany.2 hlonger), ← eightBytes_eq _ (by omega)]
        rfl
      · have hsize : extendedSize ((if masked then maskBit else 0) ||| UInt8.ofNat 127) = 8 := by
          rw [extendedSize, hshort]
          rfl
        have hread := ofBigEndian_bigEndian (show payload.length < 256 ^ 8 by omega)
        rw [hsize, encodedLength, hshort, NotMinimal, hsize, hread, length_bigEndian]
        exact ⟨rfl, rfl, by omega⟩
    · obtain ⟨hmasked, hshort⟩ := secondByte_spec masked (show 126 < 128 by decide)
      refine ⟨_, bigEndian 2 payload.length, ?_, hmasked, ?_⟩
      · rw [frameData, makeFrameData, happend]
        rw [if_neg (hneeds.2 hlong), if_pos (not_not.1 (mt hmany.1 (Nat.not_lt.2 hmiddle))), ← twoBytes_eq hmiddle]
        rfl
      · have hsize : extendedSize ((if masked then maskBit else 0) ||| UInt8.ofNat 126) = 2 := by
          rw [extendedSize, hshort]
          rfl
        have hread := ofBigEndian_bigEndian (show payload.length < 256 ^ 2 by omega)
        rw [hsize, encodedLength, hshort, NotMinimal, hsize, hread, length_bigEndian]
        exact ⟨rfl, rfl, by omega⟩
  · obtain ⟨hmasked, hlength⟩ := secondByte_spec masked (show payload.length < 128 by omega)
    refine ⟨_, [], ?_, hmasked, ?_⟩
    · rw [frameData, makeFrameData, happend]
      rw [if_pos (not_not.1 (mt hneeds.1 (Nat.not_lt.2 hshort)))]
      rfl
    · have hsize : extendedSize ((if masked then maskBit else 0) ||| UInt8.ofNat payload.length) = 0 := by
        rw [extendedSize, hlength, if_pos hshort]
      rw [hsize, encodedLength, hlength, if_pos hshort, NotMinimal, hsize]
      exact ⟨rfl, rfl, by omega⟩

theorem makeFrameData_header (hlength : payload.length < 2 ^ 63) (rest : List UInt8) :
    ∃ firstByte secondByte field key sent,
      frameData opCode final compress masked payload maskingKey =
        firstByte :: secondByte :: (field ++ (key ++ sent)) ∧
      Header (frameData opCode final compress masked payload maskingKey ++ rest)
        firstByte secondByte field (key ++ (sent ++ rest)) ∧
      firstByte = (if final then finalBit else 0) ||| (if compress then compressBit else 0) ||| opCode ∧
      isMasked secondByte = masked ∧ ¬ NotMinimal secondByte field ∧ key.length = keyLength secondByte ∧
      sent.length = encodedLength secondByte field ∧ encodedLength secondByte field = payload.length ∧
      unmasked secondByte key sent = payload := by
  obtain ⟨secondByte, field, heq, hmasked, hfield, hencoded, hminimal⟩ :=
    makeFrameData_eq opCode final compress masked maskingKey hlength
  refine ⟨_, secondByte, field, _, _, heq, ⟨by rw [heq]; simp, hfield⟩, rfl, hmasked, hminimal, ?_, ?_, hencoded, ?_⟩
  · rw [keyLength, hmasked, keyBytes]
    cases masked <;> simp
  · rw [hencoded]
    cases masked <;> simp [length_maskBytes]
  · rw [unmasked, hmasked, keyBytes]
    cases masked <;> simp [maskBytes_maskBytes]

theorem length_le_makeFrameData (payload : List UInt8) (maskingKey : Vector UInt8 4) :
    payload.length ≤
      (frameData opCode final compress masked payload maskingKey).length := by
  rw [frameData, makeFrameData, appendFramePayload]
  cases masked with
  | true =>
    show payload.length ≤ (_ ++ maskPayload maskingKey payload).length
    rw [List.length_append, maskPayload_eq, length_maskBytes]
    exact Nat.le_add_left _ _
  | false =>
    show payload.length ≤ (_ ++ payload).length
    rw [List.length_append]
    exact Nat.le_add_left _ _

theorem not_rejected_of_fits (size : AddressSize) {data field body : List UInt8} {firstByte secondByte : UInt8}
    (h : Header data firstByte secondByte field body) (hminimal : ¬ NotMinimal secondByte field)
    (hfits : keyLength secondByte + encodedLength secondByte field < 2 ^ (size.bits - 1)) : ¬ Rejected size data := by
  have hpow : 2 ^ (size.bits - 1) ≤ 2 ^ 63 ∧ 2 ^ (size.bits - 1) ≤ 2 ^ size.bits := by cases size <;> decide
  rw [h.rejected_iff, TooLarge]
  rintro (hsmall | hlarge)
  · exact hminimal hsmall
  · omega

variable {opCode final compress masked maskingKey} {size : AddressSize}

/-- **A frame is read back from the front of a buffer.** -/
theorem parseFrame_makeFrameData (hopCode : opCode < 16) {rest : List UInt8}
    (hfits : (frameData opCode final compress masked payload maskingKey ++ rest).length < 2 ^ (size.bits - 1)) :
    ∃ place data', parseFrame size (frameData opCode final compress masked payload maskingKey ++ rest) =
        some (.FrameOK (construct opCode final compress masked place payload.length)
          (frameData opCode final compress masked payload maskingKey).length, data') ∧
      (data'.drop place).take payload.length = payload ∧
      data'.drop (frameData opCode final compress masked payload maskingKey).length = rest := by
  have hle := length_le_makeFrameData opCode final compress masked payload maskingKey
  have hpow : 2 ^ (size.bits - 1) ≤ 2 ^ 63 := by cases size <;> decide
  have hfits' := hfits
  rw [List.length_append] at hfits'
  obtain ⟨firstByte, secondByte, field, key, sent, heq, hheader, hfirst, hmasked, hminimal, hkey, hsent, hencoded,
    hunmasked⟩ :=
    makeFrameData_header opCode final compress masked maskingKey (show payload.length < 2 ^ 63 by omega) rest
  have hlength := congrArg List.length heq
  simp only [List.length_cons, List.length_append] at hlength
  have haccepted := not_rejected_of_fits size hheader hminimal (by omega)
  have hparse := parseFrame_reads hheader hfits haccepted hkey hsent
  have hend : 2 + field.length + key.length + sent.length =
      (frameData opCode final compress masked payload maskingKey).length := by omega
  rw [hunmasked, hfirst, frameOf_firstByte hopCode, hmasked, hend] at hparse
  rw [hsent, hencoded] at hparse
  refine ⟨_, _, hparse, ?_, ?_⟩
  · have hplace : ((firstByte :: secondByte :: field) ++ key).length = 2 + field.length + key.length := by
      simp only [List.length_append, List.length_cons]
      omega
    have hsplit : firstByte :: secondByte :: (field ++ (key ++ (payload ++ rest))) =
        ((firstByte :: secondByte :: field) ++ key) ++ (payload ++ rest) := by simp
    rw [← hfirst, hsplit, List.drop_left' hplace, List.take_left' rfl]
  · have hplace : ((firstByte :: secondByte :: field) ++ key ++ payload).length =
        (frameData opCode final compress masked payload maskingKey).length := by
      simp only [List.length_append, List.length_cons]
      omega
    have hsplit : firstByte :: secondByte :: (field ++ (key ++ (payload ++ rest))) =
        ((firstByte :: secondByte :: field) ++ key ++ payload) ++ rest := by simp
    rw [← hfirst, hsplit, List.drop_left' hplace]

/-- **No proper prefix of a frame is read or changed.** -/
theorem parseFrame_prefix
    (hfits : (frameData opCode final compress masked payload maskingKey).length < 2 ^ (size.bits - 1))
    {start : List UInt8}
    (hstart : start <+: frameData opCode final compress masked payload maskingKey)
    (hne : start ≠ frameData opCode final compress masked payload maskingKey) :
    parseFrame size start = some (.FrameIncomplete, start) := by
  have hle := length_le_makeFrameData opCode final compress masked payload maskingKey
  have hpow : 2 ^ (size.bits - 1) ≤ 2 ^ 63 := by cases size <;> decide
  obtain ⟨firstByte, secondByte, field, key, sent, heq, hheader, -, -, hminimal, hkey, hsent, -, -⟩ :=
    makeFrameData_header opCode final compress masked maskingKey (show payload.length < 2 ^ 63 by omega) []
  have hfield := hheader.length_field
  have hlength := congrArg List.length heq
  simp only [List.length_cons, List.length_append] at hlength
  have hshorter := hstart.length_le
  rw [heq] at hstart hne
  rcases start with _ | ⟨first, _ | ⟨second, start⟩⟩
  · exact parseFrame_short (Or.inl (by simp))
  · exact parseFrame_short (Or.inl (by simp))
  · simp only [List.cons_prefix_cons] at hstart
    obtain ⟨rfl, rfl, hstart⟩ := hstart
    rcases Nat.lt_or_ge start.length (extendedSize second) with hshort | hroom
    · exact parseFrame_short (Or.inr ⟨first, second, start, rfl, hshort⟩)
    · obtain ⟨body, rfl⟩ := List.prefix_of_prefix_length_le (List.prefix_append field _) hstart (by omega)
      have hbody := (List.prefix_append_right_inj field).1 hstart
      have hlt : body.length < (key ++ sent).length := by
        rcases Nat.lt_or_ge body.length (key ++ sent).length with hlt | hge
        · exact hlt
        · exact absurd (by rw [hbody.eq_of_length_le hge]) hne
      rw [List.length_append, hkey, hsent] at hlt
      have hheader' : Header (first :: second :: (field ++ body)) first second field body := ⟨rfl, hfield⟩
      have haccepted := not_rejected_of_fits size hheader' hminimal (by omega)
      exact parseFrame_waits hheader' (by omega) haccepted hlt

/-- **Frames round-trip, one at a time, and any other buffer is read in its bounds and rejected for its length only.**
Every buffer is less than half of the address space. -/
theorem webSocketFrame_exact (size : AddressSize) :
    (∀ (opCode : UInt8) (final compress masked : Bool) (payload : List UInt8) (maskingKey : Vector UInt8 4),
      opCode < 16 → (frameData opCode final compress masked payload maskingKey).length < 2 ^ (size.bits - 1) →
        (∀ rest, (frameData opCode final compress masked payload maskingKey ++ rest).length < 2 ^ (size.bits - 1) →
          ∃ place data', parseFrame size (frameData opCode final compress masked payload maskingKey ++ rest) =
              some (.FrameOK (construct opCode final compress masked place payload.length)
                (frameData opCode final compress masked payload maskingKey).length, data') ∧
            (data'.drop place).take payload.length = payload ∧
            data'.drop (frameData opCode final compress masked payload maskingKey).length = rest) ∧
        ∀ start, start <+: frameData opCode final compress masked payload maskingKey →
          start ≠ frameData opCode final compress masked payload maskingKey →
          parseFrame size start = some (.FrameIncomplete, start)) ∧
    ∀ data : List UInt8, data.length < 2 ^ (size.bits - 1) →
      ∃ result data', parseFrame size data = some (result, data') ∧ Outcome size data result data' := by
  refine ⟨?_, fun data hfits => parseFrame_outcome hfits⟩
  intro opCode final compress masked payload maskingKey hopCode hfits
  exact ⟨fun rest hfits' => parseFrame_makeFrameData hopCode hfits',
    fun start hstart hne => parseFrame_prefix hfits hstart hne⟩

end

end WebKit.WebCore.WebSocketFrame
