import WebKit.Lib.Outcome
import WebKit.WebCore.IDBLevelDBIndexKeys

/-!
# Decoding arbitrary bytes

The decode functions of IndexedDB once more, with the faults of a run: a shift by 64 bits or more, a read behind the
buffer, a position outside of it, a vector for a negative length. Pointers have 64 bits, so that `p + n` may wrap around
before it is compared with `limit`. A position is the bytes from there on; `limit` is an address. Memory is taken to
suffice for what is in the buffer.

Without a fault they are the decode functions (`Agrees`), which go forward and stay in the buffer (`GoesOn`). There is a
fault exactly where a number has more than ten bytes or a length wraps around: `decoders_in_bounds`.
-/

namespace WebKit.WebCore.IDBLevelDBCoding

open WebKit.Lib WebKit.WTF

inductive DecodeFault
  | shift
  | outOfBounds
  | position
  | negativeLength
  | endless
  deriving DecidableEq

namespace Checked

/-! ## Pointers -/

/-- `*p++`. -/
def readByte : Bytes → Except DecodeFault (UInt8 × Bytes)
  | [] => .error .outOfBounds
  | c :: p => .ok (c, p)

/-- The loop that copies `n` bytes. -/
def readBytes : Nat → Bytes → Except DecodeFault (Bytes × Bytes)
  | 0, p => .ok ([], p)
  | n + 1, p => do
    let (c, p) ← readByte p
    let (bytes, p) ← readBytes n p
    return (c :: bytes, p)

section

variable (limit : Nat)

/-- The address of a position. -/
def address (p : Bytes) : Nat := limit - p.length

/-- `p + n > limit`. -/
def exceeds (p : Bytes) (n : Nat) : Bool := (address limit p + n) % 2 ^ 64 > limit

/-- `p += n`, to a position that is not behind `limit`. -/
def advance (p : Bytes) (n : Nat) : Except DecodeFault Bytes :=
  if address limit p + n < 2 ^ 64 then .ok (p.drop n) else .error .position

end

/-! ## Numbers, strings and doubles -/

/-- The loop of `decodeInt`, over `n` bytes. -/
def decodeIntFrom (ret : UInt64) (shift : Nat) : Nat → Bytes → Except DecodeFault Int64
  | 0, _ => .ok ret.toInt64
  | n + 1, begin => do
    let (c, begin) ← readByte begin
    if 64 ≤ shift then .error .shift
    else decodeIntFrom (ret ||| (c.toUInt64 <<< UInt64.ofNat shift)) (shift + 8) n begin

/-- `decodeInt(begin, begin + n)`: the loop is left at once if the end is in front of the beginning. -/
def decodeInt (limit : Nat) (begin : Bytes) (n : Nat) : Except DecodeFault Int64 :=
  if address limit begin + n < 2 ^ 64 then decodeIntFrom 0 0 n begin else .ok 0

/-- The loop of `decodeVarInt`. -/
def decodeVarIntFrom (foundInt : UInt64) (shift : Nat) : Bytes → Except DecodeFault (Option (Int64 × Bytes))
  | [] => .ok none
  | c :: p =>
    if 64 ≤ shift then .error .shift
    else
      let foundInt := foundInt ||| ((c &&& 0x7F).toUInt64 <<< UInt64.ofNat shift)
      if c &&& 0x80 ≠ 0 then decodeVarIntFrom foundInt (shift + 7) p else .ok (some (foundInt.toInt64, p))

def decodeVarInt (p : Bytes) : Except DecodeFault (Option (Int64 × Bytes)) := decodeVarIntFrom 0 0 p

section

variable (limit : Nat)

/-- `decodeString(start, start + n)`. -/
def decodeString (start : Bytes) (n : Nat) : Except DecodeFault (List UChar) :=
  if address limit start + n < 2 ^ 64 then (readBytes n start).map fun (bytes, _) => IDBLevelDBCoding.decodeString bytes
  else .error .negativeLength

def decodeStringWithLength (p : Bytes) : Except DecodeFault (Option (List UChar × Bytes)) := do
  match ← decodeVarInt p with
  | none => return none
  | some (len, p) =>
    if len < 0 ∨ exceeds limit p (len.toInt.toNat * 2) then return none
    else
      let foundString ← decodeString limit p (len.toInt.toNat * 2)
      let p ← advance limit p (len.toInt.toNat * 2)
      return some (foundString, p)

def decodeDouble (p : Bytes) : Except DecodeFault (Option (Double × Bytes)) :=
  if exceeds limit p 8 then .ok none
  else do
    let (bytes, p) ← readBytes 8 p
    return some (⟨UInt64.ofNat (ofLittleEndian bytes)⟩, p)

/-! ## Keys -/

/-- The loop over the items of an array. -/
def decodeItems (decodeItem : Bytes → Except DecodeFault (Option (IDBKey × Bytes))) :
    Nat → Bytes → Except DecodeFault (Option (List IDBKey × Bytes))
  | 0, p => .ok (some ([], p))
  | length + 1, p => do
    match ← decodeItem p with
    | none => return none
    | some (key, p) =>
      match ← decodeItems decodeItem length p with
      | none => return none
      | some (array, p) => return some (key :: array, p)

/-- `decodeIDBKey`, with a bound on the depth of nesting. -/
def decodeIDBKeyWithin : Nat → Bytes → Except DecodeFault (Option (IDBKey × Bytes))
  | 0, _ => .error .endless
  | _ + 1, [] => .ok none
  | depth + 1, type :: p =>
    if type = IDBKeyNullTypeByte then .ok (some (.invalid, p))
    else if type = IDBKeyArrayTypeByte then do
      match ← decodeVarInt p with
      | none => return none
      | some (length, p) =>
        if length < 0 then return none
        else
          match ← decodeItems (decodeIDBKeyWithin depth) length.toInt.toNat p with
          | none => return none
          | some (array, p) => return some (.array array, p)
    else if type = IDBKeyStringTypeByte then
      (decodeStringWithLength limit p).map fun r => r.map fun (s, p) => (.string s, p)
    else if type = IDBKeyDateTypeByte then (decodeDouble limit p).map fun r => r.map fun (d, p) => (.date d, p)
    else if type = IDBKeyNumberTypeByte then (decodeDouble limit p).map fun r => r.map fun (d, p) => (.number d, p)
    else .ok none

def decodeIDBKey (p : Bytes) : Except DecodeFault (Option (IDBKey × Bytes)) := decodeIDBKeyWithin limit (p.length + 1) p

/-- The loop over the items of an array that are not decoded. -/
def skipItems (skipItem : Bytes → Except DecodeFault (Option Bytes)) : Nat → Bytes → Except DecodeFault (Option Bytes)
  | 0, p => .ok (some p)
  | length + 1, p => do
    match ← skipItem p with
    | none => return none
    | some p => skipItems skipItem length p

/-- `extractEncodedIDBKey` without a result. -/
def skipIDBKeyWithin : Nat → Bytes → Except DecodeFault (Option Bytes)
  | 0, _ => .error .endless
  | _ + 1, [] => .ok none
  | depth + 1, type :: p =>
    if type = IDBKeyNullTypeByte ∨ type = IDBKeyMinKeyTypeByte then .ok (some p)
    else if type = IDBKeyArrayTypeByte then do
      match ← decodeVarInt p with
      | none => return none
      | some (length, p) =>
        if length < 0 then return none else skipItems (skipIDBKeyWithin depth) length.toInt.toNat p
    else if type = IDBKeyStringTypeByte then do
      match ← decodeVarInt p with
      | none => return none
      | some (length, p) =>
        if length < 0 ∨ exceeds limit p (length.toInt.toNat * 2) then return none
        else (advance limit p (length.toInt.toNat * 2)).map some
    else if type = IDBKeyDateTypeByte ∨ type = IDBKeyNumberTypeByte then
      if exceeds limit p 8 then .ok none else (advance limit p 8).map some
    else .ok (some p)

/-- `extractEncodedIDBKey`, whose result is the bytes up to the position it returns. -/
def extractEncodedIDBKey (start : Bytes) : Except DecodeFault (Option (Bytes × Bytes)) :=
  (skipIDBKeyWithin limit (start.length + 1) start).map fun r =>
    r.map fun p => (start.take (start.length - p.length), p)

/-- `KeyPrefix::decode`. -/
def decodeKeyPrefix : Bytes → Except DecodeFault (Option (KeyPrefix × Bytes))
  | [] => .ok none
  | firstByte :: start => do
    let databaseIdBytes := (firstByte >>> 5 &&& 0x7).toNat + 1
    let objectStoreIdBytes := (firstByte >>> 2 &&& 0x7).toNat + 1
    let indexIdBytes := (firstByte &&& 0x3).toNat + 1
    if exceeds limit start (databaseIdBytes + objectStoreIdBytes + indexIdBytes) then return none
    let databaseId ← decodeInt limit start databaseIdBytes
    let start ← advance limit start databaseIdBytes
    let objectStoreId ← decodeInt limit start objectStoreIdBytes
    let start ← advance limit start objectStoreIdBytes
    let indexId ← decodeInt limit start indexIdBytes
    let start ← advance limit start indexIdBytes
    return some (⟨databaseId, objectStoreId, indexId⟩, start)

end

/-! ## Agreement -/

/-- The checked run is the result if `fits`, and a fault if not. -/
def Agrees {α : Type} (fits : Prop) (checked : Except DecodeFault α) (result : α) : Prop :=
  (fits → checked = .ok result) ∧ (¬fits → ∃ fault, checked = .error fault)

section

variable {α β : Type} {fits fits' : Prop} {checked : Except DecodeFault α} {result : α}

theorem agrees_ok (h : fits) : Agrees fits (.ok result) result := ⟨fun _ => rfl, fun hnot => absurd h hnot⟩

theorem agrees_error (h : ¬fits) (fault : DecodeFault) : Agrees fits (.error fault) result :=
  ⟨fun hfits => absurd hfits h, fun _ => ⟨fault, rfl⟩⟩

theorem Agrees.congr (h : Agrees fits checked result) (hiff : fits' ↔ fits) : Agrees fits' checked result :=
  ⟨fun hfits => h.1 (hiff.1 hfits), fun hnot => h.2 fun hfits => hnot (hiff.2 hfits)⟩

theorem Agrees.map (h : Agrees fits checked result) (f : α → β) : Agrees fits (checked.map f) (f result) := by
  refine ⟨fun hfits => by rw [h.1 hfits]; rfl, fun hnot => ?_⟩
  obtain ⟨fault, hfault⟩ := h.2 hnot
  exact ⟨fault, by rw [hfault]; rfl⟩

theorem Agrees.andThen {f : α → Except DecodeFault β} {result' : β} (h : Agrees fits checked result)
    (h' : f result = .ok result') : Agrees fits (checked >>= f) result' := by
  refine ⟨fun hfits => by rw [h.1 hfits]; exact h', fun hnot => ?_⟩
  obtain ⟨fault, hfault⟩ := h.2 hnot
  exact ⟨fault, by rw [hfault]; rfl⟩

theorem Agrees.bind {f : α → Except DecodeFault β} {result' : β} (h : Agrees fits checked result)
    (h' : Agrees fits' (f result) result') : Agrees (fits ∧ fits') (checked >>= f) result' := by
  by_cases hfits : fits
  · rw [h.1 hfits]
    exact h'.congr ⟨And.right, fun h => ⟨hfits, h⟩⟩
  · obtain ⟨fault, hfault⟩ := h.2 hfits
    rw [hfault]
    exact agrees_error (fun h => hfits h.1) fault

end

/-! ## Numbers -/

/-- At most `n` bytes are read for a number, or there are no more. -/
def VarIntFitsIn (n : Nat) (p : Bytes) : Prop := (p.takeWhile fun c => 128 ≤ c.toNat).length < n ∨ p.length ≤ n

/-- A number has at most ten bytes, or the buffer ends. -/
def VarIntFits (p : Bytes) : Prop := VarIntFitsIn 10 p

theorem and_7F_toNat (c : UInt8) : (c &&& 0x7F).toNat = c.toNat % 128 := by
  rw [UInt8.toNat_and]
  exact Nat.and_two_pow_sub_one_eq_mod c.toNat 7

theorem and_80_ne_zero (c : UInt8) : c &&& 0x80 ≠ 0 ↔ 128 ≤ c.toNat := by
  revert c
  exact forall_uint8 (by decide +kernel)

/-- New bits above the old ones. -/
theorem or_shiftLeft {f x s : Nat} (hf : f < 2 ^ s) (hx : x < 2 ^ 64) (hs : s < 64) :
    UInt64.ofNat f ||| (UInt64.ofNat x <<< UInt64.ofNat s) = UInt64.ofNat (f + x * 2 ^ s) := by
  have hpow : 2 ^ 64 = 2 ^ (64 - s) * 2 ^ s := by
    rw [← Nat.pow_add, Nat.sub_add_cancel (Nat.le_of_lt hs)]
  have hle : 2 ^ s ≤ 2 ^ 64 := Nat.pow_le_pow_right (by decide) (Nat.le_of_lt hs)
  have hmul : x * 2 ^ s % 2 ^ 64 = (x % 2 ^ (64 - s)) <<< s := by
    rw [Nat.shiftLeft_eq, hpow, Nat.mul_mod_mul_right]
  have hlt : (x % 2 ^ (64 - s)) * 2 ^ s + f < 2 ^ 64 := by
    have hx' : x % 2 ^ (64 - s) + 1 ≤ 2 ^ (64 - s) := Nat.mod_lt _ (Nat.two_pow_pos _)
    have := Nat.mul_le_mul_right (2 ^ s) hx'
    rw [Nat.add_mul, Nat.one_mul, ← hpow] at this
    omega
  have hshift : (UInt64.ofNat s).toNat % 64 = s := by
    rw [UInt64.toNat_ofNat', Nat.mod_eq_of_lt (Nat.lt_trans hs (by decide)), Nat.mod_eq_of_lt hs]
  apply UInt64.toNat.inj
  rw [UInt64.toNat_or, UInt64.toNat_shiftLeft, hshift, UInt64.toNat_ofNat', UInt64.toNat_ofNat', UInt64.toNat_ofNat',
    Nat.mod_eq_of_lt (Nat.lt_of_lt_of_le hf hle), Nat.mod_eq_of_lt hx, Nat.shiftLeft_eq, hmul, Nat.or_comm,
    ← Nat.shiftLeft_add_eq_or_of_lt hf, Nat.add_mod, hmul, Nat.mod_eq_of_lt (Nat.lt_of_lt_of_le hf hle),
    Nat.shiftLeft_eq, Nat.add_comm f, Nat.mod_eq_of_lt hlt]

/-- The number a loop ends with, in 64 bits. -/
def toFound (r : Option (Nat × Bytes)) : Option (Int64 × Bytes) :=
  r.map fun (foundInt, rest) => ((UInt64.ofNat foundInt).toInt64, rest)

/-- **The loop over a number**, with `n` bytes to go. -/
theorem decodeVarIntFrom_agrees (p : Bytes) (n f : Nat) (hn : n ≤ 10) (hf : f < 2 ^ (7 * (10 - n))) :
    Agrees (VarIntFitsIn n p) (decodeVarIntFrom (UInt64.ofNat f) (7 * (10 - n)) p)
      (toFound (IDBLevelDBCoding.decodeVarIntFrom f (7 * (10 - n)) p)) := by
  induction p generalizing n f with
  | nil => exact agrees_ok (.inr (Nat.zero_le n))
  | cons c p ih =>
    unfold decodeVarIntFrom IDBLevelDBCoding.decodeVarIntFrom
    cases n with
    | zero =>
      rw [if_pos (by decide)]
      refine agrees_error ?_ _
      rintro (h | h)
      · exact Nat.not_lt_zero _ h
      · exact Nat.not_succ_le_zero _ h
    | succ n =>
      have hshift : 7 * (10 - (n + 1)) < 64 := by omega
      have hbits := or_shiftLeft hf (show c.toNat % 128 < 2 ^ 64 by omega) hshift
      have hbyte : (c &&& 0x7F).toUInt64 = UInt64.ofNat (c.toNat % 128) := by
        rw [← and_7F_toNat]
        exact (UInt64.ofNat_uInt8ToNat _).symm
      rw [if_neg (Nat.not_le.2 hshift)]
      simp only [hbyte, hbits]
      by_cases hlast : c.toNat < 128
      · rw [if_neg (fun h => absurd ((and_80_ne_zero c).1 h) (Nat.not_le.2 hlast)), if_pos hlast]
        refine agrees_ok (.inl ?_)
        rw [List.takeWhile_cons_of_neg (by simpa using hlast)]
        exact Nat.succ_pos n
      · have hmore := Nat.not_lt.1 hlast
        rw [if_pos ((and_80_ne_zero c).2 hmore), if_neg hlast]
        have hnext : 7 * (10 - (n + 1)) + 7 = 7 * (10 - n) := by omega
        rw [hnext]
        refine (ih n _ (by omega) ?_).congr ?_
        · have hlt : c.toNat % 128 + 1 ≤ 2 ^ 7 := Nat.mod_lt _ (by decide)
          have hmul := Nat.mul_le_mul_right (2 ^ (7 * (10 - (n + 1)))) hlt
          rw [← Nat.pow_add, Nat.add_mul, Nat.one_mul, Nat.add_comm 7, hnext] at hmul
          omega
        · unfold VarIntFitsIn
          rw [List.takeWhile_cons_of_pos (by simpa using hmore), List.length_cons, List.length_cons]
          omega

theorem decodeVarInt_agrees (p : Bytes) : Agrees (VarIntFits p) (decodeVarInt p) (IDBLevelDBCoding.decodeVarInt p) :=
  decodeVarIntFrom_agrees p 10 0 (Nat.le_refl _) (by decide)

/-! ## Positions -/

/-- `q` is a position behind `p`, up to the end of the buffer. -/
structure GoesOn (p q : Bytes) : Prop where
  suffix : q <:+ p
  length_lt : q.length < p.length

theorem goesOn_append {front q : Bytes} (h : front ≠ []) : GoesOn (front ++ q) q :=
  ⟨List.suffix_append _ _, by
    have := List.length_pos_of_ne_nil h
    rw [List.length_append]
    omega⟩

theorem goesOn_decodeVarInt {p q : Bytes} {len : Int64} (h : IDBLevelDBCoding.decodeVarInt p = some (len, q)) :
    GoesOn p q := by
  obtain ⟨code, rfl, hcode⟩ := decodeVarInt_frame h
  refine goesOn_append fun hnil => ?_
  have hempty := hcode []
  rw [hnil] at hempty
  cases hempty

section

variable {limit : Nat} {p start : Bytes} {n : Nat}

theorem readBytes_eq (h : n ≤ p.length) : readBytes n p = .ok (p.take n, p.drop n) := by
  induction n generalizing p with
  | zero => rfl
  | succ n ih =>
    cases p with
    | nil => cases h
    | cons c p =>
      rw [readBytes, readByte, bind_ok]
      simp only [ih (Nat.le_of_succ_le_succ h), bind_ok]
      rfl

theorem readBytes_error (h : p.length < n) : readBytes n p = .error .outOfBounds := by
  induction n generalizing p with
  | zero => cases h
  | succ n ih =>
    cases p with
    | nil => rfl
    | cons c p =>
      rw [readBytes, readByte, bind_ok]
      simp only [ih (Nat.lt_of_succ_lt_succ h)]
      rfl

/-- The comparison is right unless the pointer wraps around. -/
theorem exceeds_iff (hp : p.length ≤ limit) (hfits : address limit p + n < 2 ^ 64) :
    exceeds limit p n = true ↔ p.length < n := by
  unfold exceeds address at *
  rw [Nat.mod_eq_of_lt hfits, decide_eq_true_iff]
  omega

/-- A pointer that wraps around is in front of where it was. -/
theorem exceeds_wrapped (hp : p.length ≤ limit) (hlimit : limit < 2 ^ 64) (hn : n < 2 ^ 64)
    (hwrapped : ¬address limit p + n < 2 ^ 64) : exceeds limit p n = false := by
  unfold exceeds address at *
  rw [decide_eq_false_iff_not]
  omega

/-- **A test and a move** are right unless the pointer wraps around. -/
theorem advance_agrees (hp : p.length ≤ limit) (hlimit : limit < 2 ^ 64) (hn : n < 2 ^ 64) :
    Agrees (address limit p + n < 2 ^ 64)
      (if exceeds limit p n then .ok none else (advance limit p n).map some)
      (if p.length < n then none else some (p.drop n)) := by
  by_cases hfits : address limit p + n < 2 ^ 64
  · simp only [exceeds_iff hp hfits]
    split
    · exact agrees_ok hfits
    · unfold advance
      rw [if_pos hfits]
      exact agrees_ok hfits
  · rw [exceeds_wrapped hp hlimit hn hfits, if_neg Bool.false_ne_true]
    unfold advance
    rw [if_neg hfits]
    exact agrees_error hfits _

/-! ## Strings, doubles and prefixes -/

/-- The number in front is a length in characters that does not wrap the pointer around. -/
def LengthFits (limit : Nat) (p : Bytes) : Prop :=
  ∀ len q, IDBLevelDBCoding.decodeVarInt p = some (len, q) → ¬len < 0 →
    address limit q + len.toInt.toNat * 2 < 2 ^ 64

def StringFits (limit : Nat) (p : Bytes) : Prop := VarIntFits p ∧ LengthFits limit p

theorem lengthFits_none (h : IDBLevelDBCoding.decodeVarInt p = none) : LengthFits limit p := by
  intro len q hlen
  rw [h] at hlen
  cases hlen

theorem lengthFits_some {len : Int64} {q : Bytes} (h : IDBLevelDBCoding.decodeVarInt p = some (len, q)) :
    LengthFits limit p ↔ len < 0 ∨ address limit q + len.toInt.toNat * 2 < 2 ^ 64 := by
  constructor
  · intro hfits
    by_cases hneg : len < 0
    · exact .inl hneg
    · exact .inr (hfits len q h hneg)
  · rintro hor len' q' h' hneg
    cases h.symm.trans h'
    exact hor.resolve_left hneg

theorem length_lt (len : Int64) : len.toInt.toNat * 2 < 2 ^ 64 := by
  have := len.toInt_lt
  omega

theorem decodeString_eq (hfits : address limit p + n < 2 ^ 64) (hn : n ≤ p.length) :
    decodeString limit p n = .ok (IDBLevelDBCoding.decodeString (p.take n)) := by
  unfold decodeString
  rw [if_pos hfits, readBytes_eq hn]
  rfl

/-- **Strings.** -/
theorem decodeStringWithLength_agrees (hp : p.length ≤ limit) (hlimit : limit < 2 ^ 64) :
    Agrees (StringFits limit p) (decodeStringWithLength limit p) (IDBLevelDBCoding.decodeStringWithLength p) := by
  refine (decodeVarInt_agrees p).bind ?_
  unfold IDBLevelDBCoding.decodeStringWithLength
  cases h : IDBLevelDBCoding.decodeVarInt p with
  | none => exact agrees_ok (lengthFits_none h)
  | some r =>
    obtain ⟨len, q⟩ := r
    have hq : q.length ≤ limit := Nat.le_trans (Nat.le_of_lt (goesOn_decodeVarInt h).length_lt) hp
    refine Agrees.congr ?_ (lengthFits_some h)
    simp only [Option.bind_eq_bind, Option.bind_some]
    by_cases hneg : len < 0
    · rw [if_pos (.inl hneg), if_pos (.inl hneg)]
      exact agrees_ok (.inl hneg)
    by_cases hfits : address limit q + len.toInt.toNat * 2 < 2 ^ 64
    · simp only [hneg, false_or, exceeds_iff hq hfits]
      by_cases hshort : q.length < len.toInt.toNat * 2
      · rw [if_pos hshort, if_pos hshort]
        exact agrees_ok hfits
      · rw [if_neg hshort, if_neg hshort, decodeString_eq hfits (Nat.not_lt.1 hshort)]
        unfold advance
        rw [bind_ok, if_pos hfits]
        exact agrees_ok hfits
    · simp only [hneg, false_or, exceeds_wrapped hq hlimit (length_lt len) hfits, Bool.false_eq_true, if_false]
      unfold decodeString
      rw [if_neg hfits]
      exact agrees_error hfits _

/-- Nothing that wraps around is there. -/
theorem length_lt_of_wrapped (hp : p.length ≤ limit) (hlimit : limit < 2 ^ 64)
    (hwrapped : ¬address limit p + n < 2 ^ 64) : p.length < n := by
  unfold address at hwrapped
  omega

/-- **Doubles.** -/
theorem decodeDouble_agrees (hp : p.length ≤ limit) (hlimit : limit < 2 ^ 64) :
    Agrees (address limit p + 8 < 2 ^ 64) (decodeDouble limit p) (IDBLevelDBCoding.decodeDouble p) := by
  unfold decodeDouble IDBLevelDBCoding.decodeDouble
  by_cases hfits : address limit p + 8 < 2 ^ 64
  · simp only [exceeds_iff hp hfits]
    by_cases hshort : p.length < 8
    · rw [if_pos hshort, if_pos hshort]
      exact agrees_ok hfits
    · rw [if_neg hshort, if_neg hshort, readBytes_eq (Nat.not_lt.1 hshort)]
      exact agrees_ok hfits
  · rw [exceeds_wrapped hp hlimit (by decide) hfits, if_neg Bool.false_ne_true]
    rw [readBytes_error (length_lt_of_wrapped hp hlimit hfits)]
    exact agrees_error hfits _

theorem decodeIntFrom_eq (f k : Nat) (hf : f < 2 ^ (8 * k)) (hk : k + n ≤ 8) (hn : n ≤ p.length) :
    decodeIntFrom (UInt64.ofNat f) (8 * k) n p =
      .ok (UInt64.ofNat (f + ofLittleEndian (p.take n) * 2 ^ (8 * k))).toInt64 := by
  induction n generalizing p f k with
  | zero =>
    rw [List.take_zero, ofLittleEndian, Nat.zero_mul, Nat.add_zero]
    rfl
  | succ n ih =>
    cases p with
    | nil => cases hn
    | cons c p =>
      have hshift : 8 * k < 64 := by omega
      have hc := c.toNat_lt
      have hnext : 8 * k + 8 = 8 * (k + 1) := by omega
      have hlt : f + c.toNat * 2 ^ (8 * k) < 2 ^ (8 * (k + 1)) := by
        have hmul := Nat.mul_le_mul_right (2 ^ (8 * k)) (show c.toNat + 1 ≤ 2 ^ 8 from hc)
        rw [← Nat.pow_add, Nat.add_mul, Nat.one_mul, Nat.add_comm 8, hnext] at hmul
        omega
      rw [decodeIntFrom, readByte, bind_ok]
      simp only [if_neg (Nat.not_le.2 hshift)]
      rw [← UInt64.ofNat_uInt8ToNat c, or_shiftLeft hf (by omega) hshift, hnext,
        ih _ (k + 1) hlt (by omega) (Nat.le_of_succ_le_succ hn), List.take_succ_cons, ofLittleEndian, ← hnext,
        Nat.pow_add]
      congr 3
      ring

theorem decodeIntFrom_error (ret : UInt64) (k : Nat) (hk : k + n ≤ 8) (hn : p.length < n) :
    decodeIntFrom ret (8 * k) n p = .error .outOfBounds := by
  induction n generalizing p ret k with
  | zero => cases hn
  | succ n ih =>
    cases p with
    | nil => rfl
    | cons c p =>
      rw [decodeIntFrom, readByte, bind_ok]
      simp only [if_neg (Nat.not_le.2 (show 8 * k < 64 by omega))]
      exact ih _ (k + 1) (by omega) (Nat.lt_of_succ_lt_succ hn)

section

variable {α : Type} {next : Int64 → Bytes → Except DecodeFault α}

/-- An integer that is there, and what follows it. -/
theorem decodeField_eq (hp : p.length ≤ limit) (hlimit : limit < 2 ^ 64) (hwidth : n ≤ 8) (hn : n ≤ p.length) :
    (decodeInt limit p n >>= fun value => advance limit p n >>= next value) =
      next (IDBLevelDBCoding.decodeInt (p.take n)) (p.drop n) := by
  have hfits : address limit p + n < 2 ^ 64 := by
    unfold address
    omega
  have hloop := decodeIntFrom_eq (p := p) (n := n) 0 0 (by decide) (by omega) hn
  rw [Nat.zero_add, Nat.mul_zero, Nat.pow_zero, Nat.mul_one] at hloop
  unfold decodeInt advance
  rw [if_pos hfits, if_pos hfits]
  change (decodeIntFrom 0 0 n p >>= _) = _
  rw [show (0 : UInt64) = UInt64.ofNat 0 from rfl, hloop, bind_ok, bind_ok]
  rfl

/-- An integer that is not there. -/
theorem decodeField_error (hwidth : n ≤ 8) (hn : p.length < n) :
    ∃ fault, (decodeInt limit p n >>= fun value => advance limit p n >>= next value) = .error fault := by
  unfold decodeInt advance
  by_cases hfits : address limit p + n < 2 ^ 64
  · rw [if_pos hfits, show decodeIntFrom 0 0 n p = _ from decodeIntFrom_error 0 0 (by omega) hn]
    exact ⟨_, rfl⟩
  · rw [if_neg hfits, if_neg hfits]
    exact ⟨_, rfl⟩

end

/-- The ids do not wrap the pointer around. -/
def PrefixFits (limit : Nat) : Bytes → Prop
  | [] => True
  | firstByte :: start => address limit start + (((firstByte >>> 5 &&& 0x7).toNat + 1) +
      ((firstByte >>> 2 &&& 0x7).toNat + 1) + ((firstByte &&& 0x3).toNat + 1)) < 2 ^ 64

theorem sizes_le (firstByte : UInt8) : (firstByte >>> 5 &&& 0x7).toNat + 1 ≤ 8 ∧
    (firstByte >>> 2 &&& 0x7).toNat + 1 ≤ 8 ∧ (firstByte &&& 0x3).toNat + 1 ≤ 8 := by
  revert firstByte
  exact forall_uint8 (by decide +kernel)

/-- Three integers, whose sizes are known. -/
theorem decodeFields_agrees {a b c : Nat} (hp : p.length ≤ limit) (hlimit : limit < 2 ^ 64) (ha : a ≤ 8) (hb : b ≤ 8)
    (hc : c ≤ 8) :
    Agrees (address limit p + (a + b + c) < 2 ^ 64)
      (if exceeds limit p (a + b + c) = true then .ok none
        else decodeInt limit p a >>= fun databaseId => advance limit p a >>= fun q =>
          decodeInt limit q b >>= fun objectStoreId => advance limit q b >>= fun r =>
          decodeInt limit r c >>= fun indexId => advance limit r c >>= fun rest =>
            .ok (some ((⟨databaseId, objectStoreId, indexId⟩ : KeyPrefix), rest)))
      (if p.length < a + b + c then none
        else some (⟨IDBLevelDBCoding.decodeInt (p.take a), IDBLevelDBCoding.decodeInt ((p.drop a).take b),
          IDBLevelDBCoding.decodeInt (((p.drop a).drop b).take c)⟩, ((p.drop a).drop b).drop c)) := by
  have hq : (p.drop a).length = p.length - a := List.length_drop
  have hr : ((p.drop a).drop b).length = p.length - a - b := by rw [List.length_drop, hq]
  by_cases hfits : address limit p + (a + b + c) < 2 ^ 64
  · simp only [exceeds_iff hp hfits]
    by_cases hshort : p.length < a + b + c
    · rw [if_pos hshort, if_pos hshort]
      exact agrees_ok hfits
    · rw [if_neg hshort, if_neg hshort, decodeField_eq hp hlimit ha (by omega),
        decodeField_eq (by omega) hlimit hb (by omega), decodeField_eq (by omega) hlimit hc (by omega)]
      exact agrees_ok hfits
  · have hshort := length_lt_of_wrapped hp hlimit hfits
    refine ⟨fun h => absurd h hfits, fun _ => ?_⟩
    rw [exceeds_wrapped hp hlimit (by omega) hfits, if_neg Bool.false_ne_true]
    by_cases hla : p.length < a
    · exact decodeField_error ha hla
    rw [decodeField_eq hp hlimit ha (by omega)]
    by_cases hlb : (p.drop a).length < b
    · exact decodeField_error hb hlb
    rw [decodeField_eq (by omega) hlimit hb (by omega)]
    exact decodeField_error hc (by omega)

/-- **Prefixes.** -/
theorem decodeKeyPrefix_agrees (hp : p.length ≤ limit) (hlimit : limit < 2 ^ 64) :
    Agrees (PrefixFits limit p) (decodeKeyPrefix limit p) (KeyPrefix.decode p) := by
  cases p with
  | nil => exact agrees_ok trivial
  | cons firstByte start =>
    obtain ⟨ha, hb, hc⟩ := sizes_le firstByte
    exact decodeFields_agrees (Nat.le_trans (Nat.le_succ _) hp) hlimit ha hb hc

/-! ## Going on -/

theorem GoesOn.trans {q r : Bytes} (h : GoesOn p q) (h' : r <:+ q) : GoesOn p r :=
  ⟨h'.trans h.suffix, Nat.lt_of_le_of_lt h'.length_le h.length_lt⟩

theorem goesOn_cons {c : UInt8} {q : Bytes} (h : q <:+ p) : GoesOn (c :: p) q :=
  ⟨h.trans (List.suffix_cons c p), Nat.lt_succ_of_le h.length_le⟩

theorem goesOn_decodeStringWithLength {s : List UChar} {q : Bytes}
    (h : IDBLevelDBCoding.decodeStringWithLength p = some (s, q)) : GoesOn p q := by
  obtain ⟨⟨len, r⟩, hlen, h⟩ := Option.bind_eq_some_iff.1 h
  simp only at h
  split at h
  · cases h
  · cases h
    exact (goesOn_decodeVarInt hlen).trans (List.drop_suffix _ _)

theorem goesOn_decodeDouble {d : Double} {q : Bytes} (h : IDBLevelDBCoding.decodeDouble p = some (d, q)) :
    GoesOn p q := by
  unfold IDBLevelDBCoding.decodeDouble at h
  split at h
  · cases h
  · rename_i hlength
    cases h
    refine ⟨List.drop_suffix _ _, ?_⟩
    rw [List.length_drop]
    omega

theorem goesOn_decodeKeyPrefix {keyPrefix : KeyPrefix} {q : Bytes} (h : KeyPrefix.decode p = some (keyPrefix, q)) :
    GoesOn p q := by
  cases p with
  | nil => cases h
  | cons firstByte start =>
    unfold KeyPrefix.decode at h
    simp only at h
    split at h
    · cases h
    · cases h
      exact goesOn_cons (((List.drop_suffix _ _).trans (List.drop_suffix _ _)).trans (List.drop_suffix _ _))

theorem suffix_decodeItems {decodeItem : Bytes → Option (IDBKey × Bytes)} {array : List IDBKey} {q : Bytes}
    (hitem : ∀ p key q, decodeItem p = some (key, q) → GoesOn p q)
    (h : IDBLevelDBCoding.decodeItems decodeItem n p = some (array, q)) : q <:+ p := by
  induction n generalizing p array with
  | zero =>
    cases h
    exact List.suffix_rfl
  | succ n ih =>
    obtain ⟨⟨key, r⟩, hkey, h⟩ := Option.bind_eq_some_iff.1 h
    obtain ⟨⟨more, t⟩, hmore, h⟩ := Option.bind_eq_some_iff.1 h
    cases h
    exact (ih hmore).trans (hitem _ _ _ hkey).suffix

theorem goesOn_decodeIDBKeyWithin {depth : Nat} {key : IDBKey} {q : Bytes}
    (h : IDBLevelDBCoding.decodeIDBKeyWithin depth p = some (key, q)) : GoesOn p q := by
  induction depth generalizing p key q with
  | zero => cases h
  | succ depth ih =>
    cases p with
    | nil => cases h
    | cons type p =>
      unfold IDBLevelDBCoding.decodeIDBKeyWithin at h
      split at h
      · cases h
        exact goesOn_cons List.suffix_rfl
      split at h
      · obtain ⟨⟨len, r⟩, hlen, h⟩ := Option.bind_eq_some_iff.1 h
        simp only at h
        split at h
        · cases h
        · obtain ⟨⟨array, t⟩, hitems, h⟩ := Option.bind_eq_some_iff.1 h
          cases h
          have hsuffix := suffix_decodeItems (fun _ _ _ => ih) hitems
          exact goesOn_cons (hsuffix.trans (goesOn_decodeVarInt hlen).suffix)
      split at h
      · obtain ⟨⟨s, r⟩, hs, h⟩ := Option.map_eq_some_iff.1 h
        cases h
        exact goesOn_cons (goesOn_decodeStringWithLength hs).suffix
      split at h
      · obtain ⟨⟨d, r⟩, hd, h⟩ := Option.map_eq_some_iff.1 h
        cases h
        exact goesOn_cons (goesOn_decodeDouble hd).suffix
      split at h
      · obtain ⟨⟨d, r⟩, hd, h⟩ := Option.map_eq_some_iff.1 h
        cases h
        exact goesOn_cons (goesOn_decodeDouble hd).suffix
      · cases h

theorem goesOn_skipIDBKeyWithin {depth : Nat} {q : Bytes} (h : IDBLevelDBCoding.skipIDBKeyWithin depth p = some q) :
    GoesOn p q := by
  obtain ⟨key, hkey, rfl⟩ := skip_rawKey h
  refine goesOn_append fun hnil => ?_
  subst hnil
  cases hkey

theorem goesOn_extractEncodedIDBKey {key q : Bytes} (h : IDBLevelDBCoding.extractEncodedIDBKey p = some (key, q)) :
    GoesOn p q := by
  obtain ⟨r, hskip, heq⟩ := Option.map_eq_some_iff.1 h
  cases heq
  exact goesOn_skipIDBKeyWithin hskip

/-! ## Keys -/

/-- The items that are reached. -/
def ItemsFit (fits : Bytes → Prop) (next : Bytes → Option Bytes) : Nat → Bytes → Prop
  | 0, _ => True
  | n + 1, p => fits p ∧ ∀ q, next p = some q → ItemsFit fits next n q

/-- The numbers and lengths of a key, with the position behind each of its items. -/
def KeyFits (next : Nat → Bytes → Option Bytes) (limit : Nat) : Nat → Bytes → Prop
  | 0, _ => True
  | _ + 1, [] => True
  | depth + 1, type :: p =>
    (type = IDBKeyArrayTypeByte → VarIntFits p ∧ ∀ len q, IDBLevelDBCoding.decodeVarInt p = some (len, q) → ¬len < 0 →
      ItemsFit (KeyFits next limit depth) (next depth) len.toInt.toNat q) ∧
    (type = IDBKeyStringTypeByte → StringFits limit p) ∧
    (type = IDBKeyDateTypeByte ∨ type = IDBKeyNumberTypeByte → address limit p + 8 < 2 ^ 64)

theorem decodeItems_agrees {fits : Bytes → Prop} {checked : Bytes → Except DecodeFault (Option (IDBKey × Bytes))}
    {decodeItem : Bytes → Option (IDBKey × Bytes)} (depth : Nat)
    (hitem : ∀ q, q.length ≤ depth → Agrees (fits q) (checked q) (decodeItem q))
    (hgoes : ∀ p key q, decodeItem p = some (key, q) → GoesOn p q) (hp : p.length ≤ depth) :
    Agrees (ItemsFit fits (fun q => (decodeItem q).map Prod.snd) n p) (decodeItems checked n p)
      (IDBLevelDBCoding.decodeItems decodeItem n p) := by
  induction n generalizing p with
  | zero => exact agrees_ok trivial
  | succ n ih =>
    unfold decodeItems IDBLevelDBCoding.decodeItems
    refine (hitem p hp).bind ?_
    cases h : decodeItem p with
    | none =>
      refine agrees_ok fun q hq => ?_
      simp only [h] at hq
      cases hq
    | some r =>
      obtain ⟨key, q⟩ := r
      have hq := ih (Nat.le_trans (Nat.le_of_lt (hgoes p key q h).length_lt) hp)
      refine (hq.andThen ?_).congr ⟨fun hfits => hfits q (by simp [h]), fun hfits r hr => ?_⟩
      · simp only [Option.bind_eq_bind, Option.bind_some]
        cases IDBLevelDBCoding.decodeItems decodeItem n q <;> rfl
      · simp only [h] at hr
        cases hr
        exact hfits

theorem skipItems_agrees {fits : Bytes → Prop} {checked : Bytes → Except DecodeFault (Option Bytes)}
    {skipItem : Bytes → Option Bytes} (depth : Nat)
    (hitem : ∀ q, q.length ≤ depth → Agrees (fits q) (checked q) (skipItem q))
    (hgoes : ∀ p q, skipItem p = some q → GoesOn p q) (hp : p.length ≤ depth) :
    Agrees (ItemsFit fits skipItem n p) (skipItems checked n p) (IDBLevelDBCoding.skipItems skipItem n p) := by
  induction n generalizing p with
  | zero => exact agrees_ok trivial
  | succ n ih =>
    unfold skipItems IDBLevelDBCoding.skipItems
    refine (hitem p hp).bind ?_
    cases h : skipItem p with
    | none =>
      refine agrees_ok fun q hq => ?_
      cases hq
    | some q =>
      have hq := ih (Nat.le_trans (Nat.le_of_lt (hgoes p q h).length_lt) hp)
      refine hq.congr ⟨fun hfits => hfits q rfl, fun hfits r hr => ?_⟩
      cases hr
      exact hfits

/-- **A number and what is done with it.** -/
theorem bindVarInt_agrees {α : Type} (fits : Int64 → Bytes → Prop) {f : Option (Int64 × Bytes) → Except DecodeFault α}
    {result : α}
    (hnone : IDBLevelDBCoding.decodeVarInt p = none → f none = .ok result)
    (hsome : ∀ len q, IDBLevelDBCoding.decodeVarInt p = some (len, q) →
      Agrees (fits len q) (f (some (len, q))) result) :
    Agrees (VarIntFits p ∧ ∀ len q, IDBLevelDBCoding.decodeVarInt p = some (len, q) → fits len q)
      (decodeVarInt p >>= f) result := by
  refine (decodeVarInt_agrees p).bind ?_
  cases h : IDBLevelDBCoding.decodeVarInt p with
  | none =>
    rw [hnone h]
    refine agrees_ok fun len q hlen => ?_
    cases hlen
  | some r =>
    obtain ⟨len, q⟩ := r
    refine (hsome len q h).congr ⟨fun hfits => hfits len q rfl, fun hfits len' q' hlen => ?_⟩
    cases hlen
    exact hfits

section

variable {next : Nat → Bytes → Option Bytes} {depth : Nat}

/-- The items of an array whose length is in front. -/
def ArrayFits (next : Nat → Bytes → Option Bytes) (limit depth : Nat) (len : Int64) (q : Bytes) : Prop :=
  ¬len < 0 → ItemsFit (KeyFits next limit depth) (next depth) len.toInt.toNat q

theorem keyFits_array : KeyFits next limit (depth + 1) (IDBKeyArrayTypeByte :: p) ↔
    VarIntFits p ∧ ∀ len q, IDBLevelDBCoding.decodeVarInt p = some (len, q) → ArrayFits next limit depth len q :=
  ⟨fun h => h.1 rfl, fun h => ⟨fun _ => h, fun heq => absurd heq (by decide), fun heq => absurd heq (by decide)⟩⟩

theorem keyFits_string : KeyFits next limit (depth + 1) (IDBKeyStringTypeByte :: p) ↔ StringFits limit p :=
  ⟨fun h => h.2.1 rfl, fun h => ⟨fun heq => absurd heq (by decide), fun _ => h, fun heq => absurd heq (by decide)⟩⟩

theorem keyFits_double {type : UInt8} (htype : type = IDBKeyDateTypeByte ∨ type = IDBKeyNumberTypeByte) :
    KeyFits next limit (depth + 1) (type :: p) ↔ address limit p + 8 < 2 ^ 64 := by
  refine ⟨fun h => h.2.2 htype, fun h => ⟨fun heq => ?_, fun heq => ?_, fun _ => h⟩⟩
  · rw [heq] at htype
    exact absurd htype (by decide)
  · rw [heq] at htype
    exact absurd htype (by decide)

theorem keyFits_leaf {type : UInt8} (harray : type ≠ IDBKeyArrayTypeByte) (hstring : type ≠ IDBKeyStringTypeByte)
    (hdouble : ¬(type = IDBKeyDateTypeByte ∨ type = IDBKeyNumberTypeByte)) :
    KeyFits next limit (depth + 1) (type :: p) :=
  ⟨fun heq => absurd heq harray, fun heq => absurd heq hstring, fun heq => absurd heq hdouble⟩

end

/-- The position behind a key that is decoded. -/
def behindDecoded (depth : Nat) (p : Bytes) : Option Bytes := (IDBLevelDBCoding.decodeIDBKeyWithin depth p).map Prod.snd

/-- **Keys that are decoded**, by induction on the depth. -/
theorem decodeIDBKeyWithin_agrees (hlimit : limit < 2 ^ 64) (depth : Nat) (hp : p.length ≤ limit)
    (hdepth : p.length ≤ depth) :
    Agrees (KeyFits behindDecoded limit depth p) (decodeIDBKeyWithin limit (depth + 1) p)
      (IDBLevelDBCoding.decodeIDBKeyWithin depth p) := by
  induction depth generalizing p with
  | zero =>
    rw [List.length_eq_zero_iff.1 (Nat.le_zero.1 hdepth)]
    exact agrees_ok trivial
  | succ depth ih =>
    cases p with
    | nil => exact agrees_ok trivial
    | cons type p =>
      have hp' : p.length ≤ limit := Nat.le_trans (Nat.le_succ _) hp
      have hdepth' : p.length ≤ depth := Nat.le_of_succ_le_succ hdepth
      unfold decodeIDBKeyWithin IDBLevelDBCoding.decodeIDBKeyWithin
      by_cases hnull : type = IDBKeyNullTypeByte
      · rw [if_pos hnull, if_pos hnull, hnull]
        exact agrees_ok (keyFits_leaf (by decide) (by decide) (by decide))
      rw [if_neg hnull, if_neg hnull]
      by_cases harray : type = IDBKeyArrayTypeByte
      · rw [if_pos harray, if_pos harray, harray]
        refine (bindVarInt_agrees (ArrayFits behindDecoded limit depth) (fun h => ?_) fun len q h => ?_).congr
          keyFits_array
        · rw [h]
          rfl
        · have hq := (goesOn_decodeVarInt h).length_lt
          simp only [h, Option.bind_eq_bind, Option.bind_some]
          by_cases hneg : len < 0
          · rw [if_pos hneg, if_pos hneg]
            exact agrees_ok fun hnot => absurd hneg hnot
          · rw [if_neg hneg, if_neg hneg]
            have hitems := decodeItems_agrees (n := len.toInt.toNat) (p := q) q.length
              (fun r hr => ih (by omega) (by omega)) (fun _ _ _ => goesOn_decodeIDBKeyWithin) (Nat.le_refl _)
            refine (hitems.andThen ?_).congr ⟨fun hfits => hfits hneg, fun hfits _ => hfits⟩
            cases IDBLevelDBCoding.decodeItems (IDBLevelDBCoding.decodeIDBKeyWithin depth) len.toInt.toNat q <;> rfl
      rw [if_neg harray, if_neg harray]
      by_cases hstring : type = IDBKeyStringTypeByte
      · rw [if_pos hstring, if_pos hstring, hstring]
        exact ((decodeStringWithLength_agrees hp' hlimit).map _).congr keyFits_string
      rw [if_neg hstring, if_neg hstring]
      by_cases hdate : type = IDBKeyDateTypeByte
      · rw [if_pos hdate, if_pos hdate]
        exact ((decodeDouble_agrees hp' hlimit).map _).congr (keyFits_double (.inl hdate))
      rw [if_neg hdate, if_neg hdate]
      by_cases hnumber : type = IDBKeyNumberTypeByte
      · rw [if_pos hnumber, if_pos hnumber]
        exact ((decodeDouble_agrees hp' hlimit).map _).congr (keyFits_double (.inr hnumber))
      · rw [if_neg hnumber, if_neg hnumber]
        exact agrees_ok (keyFits_leaf harray hstring (not_or.2 ⟨hdate, hnumber⟩))

/-- **Keys that are skipped**, by induction on the depth. -/
theorem skipIDBKeyWithin_agrees (hlimit : limit < 2 ^ 64) (depth : Nat) (hp : p.length ≤ limit)
    (hdepth : p.length ≤ depth) :
    Agrees (KeyFits IDBLevelDBCoding.skipIDBKeyWithin limit depth p) (skipIDBKeyWithin limit (depth + 1) p)
      (IDBLevelDBCoding.skipIDBKeyWithin depth p) := by
  induction depth generalizing p with
  | zero =>
    rw [List.length_eq_zero_iff.1 (Nat.le_zero.1 hdepth)]
    exact agrees_ok trivial
  | succ depth ih =>
    cases p with
    | nil => exact agrees_ok trivial
    | cons type p =>
      have hp' : p.length ≤ limit := Nat.le_trans (Nat.le_succ _) hp
      have hdepth' : p.length ≤ depth := Nat.le_of_succ_le_succ hdepth
      unfold skipIDBKeyWithin IDBLevelDBCoding.skipIDBKeyWithin
      by_cases hleaf : type = IDBKeyNullTypeByte ∨ type = IDBKeyMinKeyTypeByte
      · rw [if_pos hleaf, if_pos hleaf]
        rcases hleaf with rfl | rfl
        · exact agrees_ok (keyFits_leaf (by decide) (by decide) (by decide))
        · exact agrees_ok (keyFits_leaf (by decide) (by decide) (by decide))
      rw [if_neg hleaf, if_neg hleaf]
      by_cases harray : type = IDBKeyArrayTypeByte
      · rw [if_pos harray, if_pos harray, harray]
        refine (bindVarInt_agrees (ArrayFits IDBLevelDBCoding.skipIDBKeyWithin limit depth) (fun h => ?_)
          fun len q h => ?_).congr keyFits_array
        · rw [h]
          rfl
        · have hq := (goesOn_decodeVarInt h).length_lt
          simp only [h, Option.bind_eq_bind, Option.bind_some]
          by_cases hneg : len < 0
          · rw [if_pos hneg, if_pos hneg]
            exact agrees_ok fun hnot => absurd hneg hnot
          · rw [if_neg hneg, if_neg hneg]
            have hitems := skipItems_agrees (n := len.toInt.toNat) (p := q) q.length
              (fun r hr => ih (by omega) (by omega)) (fun _ _ => goesOn_skipIDBKeyWithin) (Nat.le_refl _)
            exact hitems.congr ⟨fun hfits => hfits hneg, fun hfits _ => hfits⟩
      rw [if_neg harray, if_neg harray]
      by_cases hstring : type = IDBKeyStringTypeByte
      · rw [if_pos hstring, if_pos hstring, hstring]
        refine (bindVarInt_agrees (fun len q => ¬len < 0 → address limit q + len.toInt.toNat * 2 < 2 ^ 64) (fun h => ?_)
          fun len q h => ?_).congr keyFits_string
        · rw [h]
          rfl
        · have hq := (goesOn_decodeVarInt h).length_lt
          simp only [h, Option.bind_eq_bind, Option.bind_some]
          by_cases hneg : len < 0
          · rw [if_pos (.inl hneg), if_pos (.inl hneg)]
            exact agrees_ok fun hnot => absurd hneg hnot
          · simp only [hneg, false_or]
            exact (advance_agrees (by omega) hlimit (length_lt len)).congr
              ⟨fun hfits => hfits not_false, fun hfits _ => hfits⟩
      rw [if_neg hstring, if_neg hstring]
      by_cases hdouble : type = IDBKeyDateTypeByte ∨ type = IDBKeyNumberTypeByte
      · rw [if_pos hdouble, if_pos hdouble]
        exact (advance_agrees hp' hlimit (by decide)).congr (keyFits_double hdouble)
      · rw [if_neg hdouble, if_neg hdouble]
        exact agrees_ok (keyFits_leaf harray hstring hdouble)

end

/-! ## Staying in the buffer -/

/-- The run has no fault and returns 0 or a position behind `p`, up to the end of the buffer. -/
def InBounds {α : Type} (p : Bytes) (r : Except DecodeFault (Option (α × Bytes))) : Prop :=
  r = .ok none ∨ ∃ value q, r = .ok (some (value, q)) ∧ GoesOn p q

theorem inBounds_iff {α : Type} {p : Bytes} {fits : Prop} {checked : Except DecodeFault (Option (α × Bytes))}
    {result : Option (α × Bytes)} (h : Agrees fits checked result)
    (hgoes : ∀ value q, result = some (value, q) → GoesOn p q) : InBounds p checked ↔ fits := by
  constructor
  · intro hbounds
    by_contra hnot
    obtain ⟨fault, hfault⟩ := h.2 hnot
    rw [hfault] at hbounds
    obtain hbounds | ⟨value, q, hbounds, -⟩ := hbounds <;> cases hbounds
  · intro hfits
    rw [h.1 hfits]
    cases result with
    | none => exact .inl rfl
    | some r => exact .inr ⟨r.1, r.2, rfl, hgoes r.1 r.2 rfl⟩

/-- The bytes from a pointer on, and the address of their end. -/
structure Buffer where
  bytes : Bytes
  limit : Nat
  length_le : bytes.length ≤ limit
  limit_lt : limit < 2 ^ 64

/-- **The decode functions stay in their buffer** exactly if every number they read has at most ten bytes and no length
wraps a pointer around. -/
theorem decoders_in_bounds (b : Buffer) :
    (InBounds b.bytes (decodeVarInt b.bytes) ↔ VarIntFits b.bytes) ∧
    (InBounds b.bytes (decodeStringWithLength b.limit b.bytes) ↔ StringFits b.limit b.bytes) ∧
    (InBounds b.bytes (decodeDouble b.limit b.bytes) ↔ address b.limit b.bytes + 8 < 2 ^ 64) ∧
    (InBounds b.bytes (extractEncodedIDBKey b.limit b.bytes) ↔
      KeyFits IDBLevelDBCoding.skipIDBKeyWithin b.limit b.bytes.length b.bytes) ∧
    (InBounds b.bytes (decodeIDBKey b.limit b.bytes) ↔ KeyFits behindDecoded b.limit b.bytes.length b.bytes) ∧
    (InBounds b.bytes (decodeKeyPrefix b.limit b.bytes) ↔ PrefixFits b.limit b.bytes) := by
  obtain ⟨p, limit, hp, hlimit⟩ := b
  refine ⟨?_, ?_, ?_, ?_, ?_, ?_⟩
  · exact inBounds_iff (decodeVarInt_agrees p) fun _ _ => goesOn_decodeVarInt
  · exact inBounds_iff (decodeStringWithLength_agrees hp hlimit) fun _ _ => goesOn_decodeStringWithLength
  · exact inBounds_iff (decodeDouble_agrees hp hlimit) fun _ _ => goesOn_decodeDouble
  · exact inBounds_iff ((skipIDBKeyWithin_agrees hlimit p.length hp (Nat.le_refl _)).map _)
      fun _ _ => goesOn_extractEncodedIDBKey
  · exact inBounds_iff (decodeIDBKeyWithin_agrees hlimit p.length hp (Nat.le_refl _))
      fun _ _ => goesOn_decodeIDBKeyWithin
  · exact inBounds_iff (decodeKeyPrefix_agrees hp hlimit) fun _ _ => goesOn_decodeKeyPrefix

/-- A number of eleven bytes. -/
def elevenBytes : Bytes := [0x80, 0x80, 0x80, 0x80, 0x80, 0x80, 0x80, 0x80, 0x80, 0x80, 0]

/-- A string of `2 ^ 63 - 6` characters, which ends two bytes in front of its type byte. -/
def wrappedString : Bytes := [1, 0xFA, 0xFF, 0xFF, 0xFF, 0xFF, 0xFF, 0xFF, 0xFF, 0x7F]

/-- **The decode functions leave their buffer**, or shift by 70 bits. -/
theorem decoders_out_of_bounds :
    ¬InBounds elevenBytes (decodeVarInt elevenBytes) ∧
      ¬InBounds wrappedString (extractEncodedIDBKey 4096 wrappedString) := by
  have hshift : decodeVarInt elevenBytes = .error .shift := rfl
  have hposition : extractEncodedIDBKey 4096 wrappedString = .error .position := rfl
  rw [hshift, hposition]
  constructor
  · rintro (h | ⟨value, q, h, -⟩) <;> cases h
  · rintro (h | ⟨value, q, h, -⟩) <;> cases h

end Checked

end WebKit.WebCore.IDBLevelDBCoding
