import WebKit.Lib.Bytes
import WebKit.WebCore.IDBKey

/-!
# The LevelDB coding of IndexedDB

A decode function gets the bytes from `p` to `limit` and returns, unless it fails (a null pointer), what it decoded and
the bytes that follow. `encodeIDBKey` is read back by `decodeIDBKey`, and its extent is found without decoding by
`extractEncodedIDBKey`.

- `decodeInt_encodeInt`, `decodeVarInt_encodeVarInt`: the two codings of integers, each exact on all numbers that are
  not negative;
- `decodeStringWithLength_encode`, `decodeDouble_encode`;
- `decodeIDBKey_encode` and `extractEncodedIDBKey_encode`, for keys nested to any depth.
-/

namespace WebKit.WebCore.IDBLevelDBCoding

open WebKit.Lib WebKit.WTF

/-- The contents of a `Vector<char>`, or the bytes between two pointers. -/
abbrev Bytes := List UInt8

def IDBKeyNullTypeByte : UInt8 := 0
def IDBKeyStringTypeByte : UInt8 := 1
def IDBKeyDateTypeByte : UInt8 := 2
def IDBKeyNumberTypeByte : UInt8 := 3
def IDBKeyArrayTypeByte : UInt8 := 4
def IDBKeyMinKeyTypeByte : UInt8 := 5

/-! ## Bytes and integers -/

def encodeByte (c : UInt8) : Bytes := [c]

def decodeByte : Bytes → Option (UInt8 × Bytes)
  | [] => none
  | foundChar :: rest => some (foundChar, rest)

def maxIDBKey : Bytes := encodeByte IDBKeyNullTypeByte

def minIDBKey : Bytes := encodeByte IDBKeyMinKeyTypeByte

/-- The loop of `encodeInt`: at least one byte, eight bits in each, the lowest first. -/
@[grind =] def intBytes (n : Nat) : Bytes :=
  if n / 256 = 0 then [UInt8.ofNat n] else UInt8.ofNat n :: intBytes (n / 256)

def encodeInt (n : Int64) : Bytes := intBytes n.toUInt64.toNat

def decodeInt (bytes : Bytes) : Int64 := (UInt64.ofNat (ofLittleEndian bytes)).toInt64

def compareInts (a b : Int64) : Int :=
  let diff := a - b
  if diff < 0 then -1 else if diff > 0 then 1 else 0

theorem compareInts_eq_zero {m n : Int64} : compareInts m n = 0 ↔ m = n := by
  unfold compareInts
  constructor
  · intro h
    simp only at h
    split_ifs at h with h₁ h₂
    · exact absurd h (by decide)
    · rw [Int64.lt_iff_toInt_lt, Int64.toInt_zero] at h₁
      rw [gt_iff_lt, Int64.lt_iff_toInt_lt, Int64.toInt_zero] at h₂
      have hzero : m - n = 0 := Int64.toInt_inj.1 (by rw [Int64.toInt_zero]; omega)
      rw [← Int64.sub_add_cancel m n, hzero, Int64.zero_add]
  · rintro rfl
    simp [Int64.sub_self]

/-- The loop of `encodeVarInt`: at least one byte, seven bits in each, the lowest first. -/
@[grind =] def varIntBytes (n : Nat) : Bytes :=
  if n / 128 = 0 then [UInt8.ofNat (n % 128)] else UInt8.ofNat (n % 128 + 128) :: varIntBytes (n / 128)

def encodeVarInt (n : Int64) : Bytes := varIntBytes n.toUInt64.toNat

/-- The loop of `decodeVarInt`, with the bits found so far. The new bits are above them, so `|=` is a sum. -/
@[grind =] def decodeVarIntFrom (foundInt shift : Nat) : Bytes → Option (Nat × Bytes)
  | [] => none
  | c :: rest =>
    let foundInt := foundInt + c.toNat % 128 * 2 ^ shift
    if c.toNat < 128 then some (foundInt, rest) else decodeVarIntFrom foundInt (shift + 7) rest

def decodeVarInt (p : Bytes) : Option (Int64 × Bytes) :=
  (decodeVarIntFrom 0 0 p).map fun (foundInt, rest) => ((UInt64.ofNat foundInt).toInt64, rest)

theorem ofLittleEndian_intBytes (n : Nat) : ofLittleEndian (intBytes n) = n := by
  fun_induction intBytes n with
  | case1 n h =>
    simp only [ofLittleEndian, UInt8.toNat_ofNat']
    omega
  | case2 n h ih =>
    rw [ofLittleEndian, ih, UInt8.toNat_ofNat']
    omega

theorem length_intBytes_pos (n : Nat) : 0 < (intBytes n).length := by
  rw [intBytes]
  split <;> simp

theorem length_intBytes_le {n width : Nat} (h : n < 256 ^ (width + 1)) : (intBytes n).length ≤ width + 1 := by
  induction width generalizing n with
  | zero =>
    have hzero : n / 256 = 0 := by omega
    rw [intBytes, if_pos hzero]
    exact Nat.le_refl _
  | succ width ih =>
    rw [intBytes]
    split
    · simp
    · have hdiv : n / 256 < 256 ^ (width + 1) := by
        rw [Nat.div_lt_iff_lt_mul (by omega)]
        exact h
      have := ih hdiv
      simp only [List.length_cons]
      omega

/-- An integer is read back from all bytes of its encoding. -/
theorem decodeInt_encodeInt (n : Int64) : decodeInt (encodeInt n) = n := by
  rw [decodeInt, encodeInt, ofLittleEndian_intBytes, UInt64.ofNat_toNat, Int64.toInt64_toUInt64]

theorem decodeVarIntFrom_varIntBytes (n foundInt shift : Nat) (rest : Bytes) :
    decodeVarIntFrom foundInt shift (varIntBytes n ++ rest) = some (foundInt + n * 2 ^ shift, rest) := by
  fun_induction varIntBytes n generalizing foundInt shift with
  | case1 n h =>
    have hlt : n < 128 := by omega
    have hbyte : (UInt8.ofNat n).toNat = n := by
      rw [UInt8.toNat_ofNat']
      omega
    rw [List.cons_append, List.nil_append, decodeVarIntFrom, Nat.mod_eq_of_lt hlt]
    simp only [hbyte, if_pos hlt, Nat.mod_eq_of_lt hlt]
  | case2 n h ih =>
    have hbyte : (UInt8.ofNat (n % 128 + 128)).toNat = n % 128 + 128 := by
      rw [UInt8.toNat_ofNat']
      omega
    have hge : ¬ n % 128 + 128 < 128 := by omega
    have hmod : (n % 128 + 128) % 128 = n % 128 := by omega
    have hsplit : n * 2 ^ shift = n % 128 * 2 ^ shift + n / 128 * 2 ^ (shift + 7) := by
      have := Nat.mod_add_div n 128
      calc n * 2 ^ shift = (n % 128 + 128 * (n / 128)) * 2 ^ shift := by rw [this]
        _ = n % 128 * 2 ^ shift + n / 128 * 2 ^ (shift + 7) := by ring
    rw [List.cons_append, decodeVarIntFrom]
    simp only [hbyte, if_neg hge, hmod, ih]
    rw [hsplit, Nat.add_assoc]

/-- A variable-length integer is read back, whatever follows. -/
theorem decodeVarInt_encodeVarInt (n : Int64) (rest : Bytes) : decodeVarInt (encodeVarInt n ++ rest) = some (n, rest) := by
  rw [decodeVarInt, encodeVarInt, decodeVarIntFrom_varIntBytes, Option.map_some]
  simp only [Nat.zero_add, Nat.pow_zero, Nat.mul_one, UInt64.ofNat_toNat, Int64.toInt64_toUInt64]

/-! ## Strings and doubles -/

/-- UTF-16BE: `htons` puts the high byte of a character first. -/
def encodeString (s : List UChar) : Bytes := s.flatMap fun c : UChar => [UInt8.ofNat (c.toNat / 256), UInt8.ofNat c.toNat]

@[grind =] def decodeString : Bytes → List UChar
  | high :: low :: rest => UInt16.ofNat (high.toNat * 256 + low.toNat) :: decodeString rest
  | _ => []

def encodeStringWithLength (s : List UChar) : Bytes := encodeVarInt (Int64.ofNat s.length) ++ encodeString s

def decodeStringWithLength (p : Bytes) : Option (List UChar × Bytes) := do
  let (len, p) ← decodeVarInt p
  if len < 0 ∨ p.length < len.toInt.toNat * 2 then none
  else some (decodeString (p.take (len.toInt.toNat * 2)), p.drop (len.toInt.toNat * 2))

/-- The bytes of the representation in memory. -/
def encodeDouble (x : Double) : Bytes := littleEndian 8 x.bits.toNat

def decodeDouble (p : Bytes) : Option (Double × Bytes) :=
  if p.length < 8 then none else some (⟨UInt64.ofNat (ofLittleEndian (p.take 8))⟩, p.drop 8)

theorem length_encodeString (s : List UChar) : (encodeString s).length = s.length * 2 := by
  have htwo : ∀ c : UChar, [UInt8.ofNat (c.toNat / 256), UInt8.ofNat c.toNat].length = 2 := fun _ => rfl
  exact length_flatMap_const htwo s

theorem decodeString_encodeString (s : List UChar) : decodeString (encodeString s) = s := by
  induction s with
  | nil => rfl
  | cons c s ih =>
    have hlt := c.toNat_lt
    have hhigh : (UInt8.ofNat (c.toNat / 256)).toNat = c.toNat / 256 := by
      rw [UInt8.toNat_ofNat']
      omega
    have hlow : (UInt8.ofNat c.toNat).toNat = c.toNat % 256 := UInt8.toNat_ofNat'
    have hvalue : c.toNat / 256 * 256 + c.toNat % 256 = c.toNat := by omega
    show UInt16.ofNat ((UInt8.ofNat (c.toNat / 256)).toNat * 256 + (UInt8.ofNat c.toNat).toNat) ::
      decodeString (encodeString s) = c :: s
    rw [hhigh, hlow, hvalue, UInt16.ofNat_toNat, ih]

theorem decodeStringWithLength_encode {s : List UChar} (h : s.length < 2 ^ 32) (rest : Bytes) :
    decodeStringWithLength (encodeStringWithLength s ++ rest) = some (s, rest) := by
  have hlen : (Int64.ofNat s.length).toInt = s.length := Int64.toInt_ofNat_of_lt (by omega)
  have hlen' : (Int64.ofNat s.length).toInt.toNat * 2 = (encodeString s).length := by
    rw [hlen, Int.toNat_natCast, length_encodeString]
  have hnonneg : ¬ Int64.ofNat s.length < 0 := by
    rw [Int64.lt_iff_toInt_lt, hlen, Int64.toInt_zero]
    omega
  have hfits : ¬ (encodeString s ++ rest).length < (encodeString s).length := by
    rw [List.length_append]
    omega
  rw [decodeStringWithLength, encodeStringWithLength, List.append_assoc, decodeVarInt_encodeVarInt]
  simp only [Option.bind_eq_bind, Option.bind_some, hlen', hnonneg, hfits, or_self, if_false, List.take_left,
    List.drop_left, decodeString_encodeString]

theorem length_encodeDouble (x : Double) : (encodeDouble x).length = 8 := length_littleEndian 8 x.bits.toNat

theorem decodeDouble_encode (x : Double) (rest : Bytes) : decodeDouble (encodeDouble x ++ rest) = some (x, rest) := by
  have hlength := length_encodeDouble x
  have hfits : ¬ (encodeDouble x ++ rest).length < 8 := by
    rw [List.length_append]
    omega
  have hbits : ofLittleEndian (encodeDouble x) = x.bits.toNat := ofLittleEndian_littleEndian x.bits.toNat_lt
  rw [decodeDouble, if_neg hfits, List.take_left' hlength, List.drop_left' hlength, hbits, UInt64.ofNat_toNat]

/-! ## Keys -/

mutual

@[grind =] def encodeIDBKey : IDBKey → Bytes
  | .invalid => encodeByte IDBKeyNullTypeByte
  | .array items =>
    encodeByte IDBKeyArrayTypeByte ++ encodeVarInt (Int64.ofNat items.length) ++ encodeItems items
  | .string text => encodeByte IDBKeyStringTypeByte ++ encodeStringWithLength text
  | .date time => encodeByte IDBKeyDateTypeByte ++ encodeDouble time
  | .number value => encodeByte IDBKeyNumberTypeByte ++ encodeDouble value

@[grind =] def encodeItems : List IDBKey → Bytes
  | [] => []
  | item :: items => encodeIDBKey item ++ encodeItems items

end

/-- The loop over the items of an array. -/
@[grind =] def decodeItems (decodeItem : Bytes → Option (IDBKey × Bytes)) : Nat → Bytes → Option (List IDBKey × Bytes)
  | 0, p => some ([], p)
  | length + 1, p => do
    let (key, p) ← decodeItem p
    let (array, p) ← decodeItems decodeItem length p
    return (key :: array, p)

/-- `decodeIDBKey` with a bound on the depth of nesting. -/
@[grind =] def decodeIDBKeyWithin : Nat → Bytes → Option (IDBKey × Bytes)
  | 0, _ => none
  | _ + 1, [] => none
  | depth + 1, type :: p =>
    if type = IDBKeyNullTypeByte then some (.invalid, p)
    else if type = IDBKeyArrayTypeByte then do
      let (length, p) ← decodeVarInt p
      if length < 0 then none
      else
        let (array, p) ← decodeItems (decodeIDBKeyWithin depth) length.toInt.toNat p
        return (.array array, p)
    else if type = IDBKeyStringTypeByte then (decodeStringWithLength p).map fun (s, p) => (.string s, p)
    else if type = IDBKeyDateTypeByte then (decodeDouble p).map fun (d, p) => (.date d, p)
    else if type = IDBKeyNumberTypeByte then (decodeDouble p).map fun (d, p) => (.number d, p)
    else none

/-- `decodeIDBKey`: each level takes a byte, so the number of bytes bounds the depth. -/
def decodeIDBKey (p : Bytes) : Option (IDBKey × Bytes) := decodeIDBKeyWithin p.length p

/-- The loop over the items of an array that are not decoded. -/
@[grind =] def skipItems (skipItem : Bytes → Option Bytes) : Nat → Bytes → Option Bytes
  | 0, p => some p
  | length + 1, p => do
    let p ← skipItem p
    skipItems skipItem length p

/-- `extractEncodedIDBKey` without a result: the bytes behind the key. -/
@[grind =] def skipIDBKeyWithin : Nat → Bytes → Option Bytes
  | 0, _ => none
  | _ + 1, [] => none
  | depth + 1, type :: p =>
    if type = IDBKeyNullTypeByte ∨ type = IDBKeyMinKeyTypeByte then some p
    else if type = IDBKeyArrayTypeByte then do
      let (length, p) ← decodeVarInt p
      if length < 0 then none
      else skipItems (skipIDBKeyWithin depth) length.toInt.toNat p
    else if type = IDBKeyStringTypeByte then do
      let (length, p) ← decodeVarInt p
      if length < 0 ∨ p.length < length.toInt.toNat * 2 then none
      else some (p.drop (length.toInt.toNat * 2))
    else if type = IDBKeyDateTypeByte ∨ type = IDBKeyNumberTypeByte then
      if p.length < 8 then none else some (p.drop 8)
    else some p

/-- `extractEncodedIDBKey`: the bytes of the key, and those behind it. -/
def extractEncodedIDBKey (start : Bytes) : Option (Bytes × Bytes) :=
  (skipIDBKeyWithin start.length start).map fun p => (start.take (start.length - p.length), p)

/-! ## Keys are read back -/

theorem length_decoded {n : Nat} (h : n < 2 ^ 32) : ¬ Int64.ofNat n < 0 ∧ (Int64.ofNat n).toInt.toNat = n := by
  have hn : (Int64.ofNat n).toInt = n := Int64.toInt_ofNat_of_lt (by omega)
  constructor
  · rw [Int64.lt_iff_toInt_lt, hn, Int64.toInt_zero]
    omega
  · rw [hn, Int.toNat_natCast]

/-- The items of an array are read back, given that each of them is. -/
theorem decodeItems_encode {decodeItem : Bytes → Option (IDBKey × Bytes)} {items : List IDBKey} {depth : Nat}
    (h : ∀ item ∈ items, ∀ rest, (encodeIDBKey item ++ rest).length ≤ depth →
      decodeItem (encodeIDBKey item ++ rest) = some (item, rest))
    (rest : Bytes) (hdepth : (encodeItems items ++ rest).length ≤ depth) :
    decodeItems decodeItem items.length (encodeItems items ++ rest) = some (items, rest) := by
  induction items with
  | nil => rfl
  | cons item items ih =>
    rw [encodeItems, List.append_assoc] at hdepth ⊢
    have htail : (encodeItems items ++ rest).length ≤ depth := by
      rw [List.length_append] at hdepth
      omega
    have hitem := h item List.mem_cons_self (encodeItems items ++ rest) hdepth
    have hitems := ih (fun x hx => h x (List.mem_cons_of_mem _ hx)) htail
    rw [List.length_cons, decodeItems, hitem]
    simp only [Option.bind_eq_bind, Option.bind_some, hitems]
    rfl

/-- The extent of the items of an array is found, given that of each of them is. -/
theorem skipItems_encode {skipItem : Bytes → Option Bytes} {items : List IDBKey} {depth : Nat}
    (h : ∀ item ∈ items, ∀ rest, (encodeIDBKey item ++ rest).length ≤ depth →
      skipItem (encodeIDBKey item ++ rest) = some rest)
    (rest : Bytes) (hdepth : (encodeItems items ++ rest).length ≤ depth) :
    skipItems skipItem items.length (encodeItems items ++ rest) = some rest := by
  induction items with
  | nil => rfl
  | cons item items ih =>
    rw [encodeItems, List.append_assoc] at hdepth ⊢
    have htail : (encodeItems items ++ rest).length ≤ depth := by
      rw [List.length_append] at hdepth
      omega
    have hitem := h item List.mem_cons_self (encodeItems items ++ rest) hdepth
    have hitems := ih (fun x hx => h x (List.mem_cons_of_mem _ hx)) htail
    rw [List.length_cons, skipItems, hitem]
    exact hitems

section

open IDBKey

theorem encode_array_append (items : List IDBKey) (rest : Bytes) : encodeIDBKey (.array items) ++ rest =
    IDBKeyArrayTypeByte :: (encodeVarInt (Int64.ofNat items.length) ++ (encodeItems items ++ rest)) := by
  simp [encodeIDBKey, encodeByte]

theorem encode_string_append (text : List UChar) (rest : Bytes) :
    encodeIDBKey (.string text) ++ rest = IDBKeyStringTypeByte :: (encodeStringWithLength text ++ rest) := by
  simp [encodeIDBKey, encodeByte]

theorem encode_date_append (time : Double) (rest : Bytes) :
    encodeIDBKey (.date time) ++ rest = IDBKeyDateTypeByte :: (encodeDouble time ++ rest) := by
  simp [encodeIDBKey, encodeByte]

theorem encode_number_append (value : Double) (rest : Bytes) :
    encodeIDBKey (.number value) ++ rest = IDBKeyNumberTypeByte :: (encodeDouble value ++ rest) := by
  simp [encodeIDBKey, encodeByte]

/-- By induction on the key; the depth that is left suffices for the items of an array. -/
theorem decodeIDBKeyWithin_encode (key : IDBKey) (hvalid : key.isValid = true) (hfits : Every LengthFits key)
    (rest : Bytes) (depth : Nat) (hdepth : (encodeIDBKey key ++ rest).length ≤ depth) :
    decodeIDBKeyWithin depth (encodeIDBKey key ++ rest) = some (key, rest) := by
  induction key using IDBKey.induct generalizing rest depth with
  | invalid => exact absurd hvalid (by decide)
  | array items ih =>
    rw [encode_array_append] at hdepth ⊢
    obtain ⟨hlength, hitemsFit⟩ := every_array.mp hfits
    obtain ⟨hnonneg, hcount⟩ := length_decoded hlength
    cases depth with
    | zero => exact absurd hdepth (by simp)
    | succ depth =>
      have hleft : (encodeItems items ++ rest).length ≤ depth := by
        rw [List.length_cons, List.length_append] at hdepth
        omega
      have hitems := decodeItems_encode (fun item hitem rest' hrest =>
        ih item hitem (isValid_array.mp hvalid item hitem) (hitemsFit item hitem) rest' depth hrest) rest hleft
      rw [decodeIDBKeyWithin, if_neg (by decide), if_pos rfl, decodeVarInt_encodeVarInt]
      simp only [Option.bind_eq_bind, Option.bind_some, if_neg hnonneg, hcount, hitems]
      rfl
  | string text =>
    rw [encode_string_append] at hdepth ⊢
    cases depth with
    | zero => exact absurd hdepth (by simp)
    | succ depth =>
      rw [decodeIDBKeyWithin, if_neg (by decide), if_neg (by decide), if_pos rfl,
        decodeStringWithLength_encode hfits, Option.map_some]
  | date time =>
    rw [encode_date_append] at hdepth ⊢
    cases depth with
    | zero => exact absurd hdepth (by simp)
    | succ depth =>
      rw [decodeIDBKeyWithin, if_neg (by decide), if_neg (by decide), if_neg (by decide), if_pos rfl,
        decodeDouble_encode, Option.map_some]
  | number value =>
    rw [encode_number_append] at hdepth ⊢
    cases depth with
    | zero => exact absurd hdepth (by simp)
    | succ depth =>
      rw [decodeIDBKeyWithin, if_neg (by decide), if_neg (by decide), if_neg (by decide), if_neg (by decide),
        if_pos rfl, decodeDouble_encode, Option.map_some]

/-- **Encoded keys are read back**, whatever follows them. -/
theorem decodeIDBKey_encode {key : IDBKey} (hvalid : key.isValid = true) (hfits : Every LengthFits key) (rest : Bytes) :
    decodeIDBKey (encodeIDBKey key ++ rest) = some (key, rest) :=
  decodeIDBKeyWithin_encode key hvalid hfits rest _ (Nat.le_refl _)

theorem skipDouble_encode (x : Double) (rest : Bytes) :
    (if (encodeDouble x ++ rest).length < 8 then none else some ((encodeDouble x ++ rest).drop 8)) = some rest := by
  have hlength := length_encodeDouble x
  have hfits : ¬ (encodeDouble x ++ rest).length < 8 := by
    rw [List.length_append]
    omega
  rw [if_neg hfits, List.drop_left' hlength]

theorem skipIDBKeyWithin_encode (key : IDBKey) (hvalid : key.isValid = true) (hfits : Every LengthFits key)
    (rest : Bytes) (depth : Nat) (hdepth : (encodeIDBKey key ++ rest).length ≤ depth) :
    skipIDBKeyWithin depth (encodeIDBKey key ++ rest) = some rest := by
  induction key using IDBKey.induct generalizing rest depth with
  | invalid => exact absurd hvalid (by decide)
  | array items ih =>
    rw [encode_array_append] at hdepth ⊢
    obtain ⟨hlength, hitemsFit⟩ := every_array.mp hfits
    obtain ⟨hnonneg, hcount⟩ := length_decoded hlength
    cases depth with
    | zero => exact absurd hdepth (by simp)
    | succ depth =>
      have hleft : (encodeItems items ++ rest).length ≤ depth := by
        rw [List.length_cons, List.length_append] at hdepth
        omega
      have hitems := skipItems_encode (fun item hitem rest' hrest =>
        ih item hitem (isValid_array.mp hvalid item hitem) (hitemsFit item hitem) rest' depth hrest) rest hleft
      rw [skipIDBKeyWithin, if_neg (by decide), if_pos rfl, decodeVarInt_encodeVarInt]
      simp only [Option.bind_eq_bind, Option.bind_some, if_neg hnonneg, hcount, hitems]
  | string text =>
    rw [encode_string_append] at hdepth ⊢
    obtain ⟨hnonneg, hcount⟩ := length_decoded hfits
    cases depth with
    | zero => exact absurd hdepth (by simp)
    | succ depth =>
      have hlength : (Int64.ofNat text.length).toInt.toNat * 2 = (encodeString text).length := by
        rw [hcount, length_encodeString]
      have henough : ¬ (encodeString text ++ rest).length < (encodeString text).length := by
        rw [List.length_append]
        omega
      rw [skipIDBKeyWithin, if_neg (by decide), if_neg (by decide), if_pos rfl, encodeStringWithLength,
        List.append_assoc, decodeVarInt_encodeVarInt]
      simp only [Option.bind_eq_bind, Option.bind_some, hlength, hnonneg, henough, or_self, if_false, List.drop_left]
  | date time =>
    rw [encode_date_append] at hdepth ⊢
    cases depth with
    | zero => exact absurd hdepth (by simp)
    | succ depth =>
      rw [skipIDBKeyWithin, if_neg (by decide), if_neg (by decide), if_neg (by decide), if_pos (by decide),
        skipDouble_encode]
  | number value =>
    rw [encode_number_append] at hdepth ⊢
    cases depth with
    | zero => exact absurd hdepth (by simp)
    | succ depth =>
      rw [skipIDBKeyWithin, if_neg (by decide), if_neg (by decide), if_neg (by decide), if_pos (by decide),
        skipDouble_encode]

theorem extractEncodedIDBKey_of_skip {key rest : Bytes}
    (h : skipIDBKeyWithin (key ++ rest).length (key ++ rest) = some rest) :
    extractEncodedIDBKey (key ++ rest) = some (key, rest) := by
  have hlength : (key ++ rest).length - rest.length = key.length := by
    rw [List.length_append]
    omega
  rw [extractEncodedIDBKey, h, Option.map_some, hlength, List.take_left]

/-- **The extent of an encoded key is found** without decoding it, whatever follows. -/
theorem extractEncodedIDBKey_encode {key : IDBKey} (hvalid : key.isValid = true) (hfits : Every LengthFits key)
    (rest : Bytes) : extractEncodedIDBKey (encodeIDBKey key ++ rest) = some (encodeIDBKey key, rest) :=
  extractEncodedIDBKey_of_skip (skipIDBKeyWithin_encode key hvalid hfits rest _ (Nat.le_refl _))

end

end WebKit.WebCore.IDBLevelDBCoding
