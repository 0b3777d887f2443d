import WebKit.WebCore.IDBLevelDBCoding

/-!
# The key classes of the LevelDB backing store

Each class has the fields that its `decode` finds, and the `encode` of the source. All keys begin with a `KeyPrefix`,
whose first byte tells how many bytes each of the three ids takes. In `decode` the tests for `p == limit` are left out
where the function called next makes them, and so are the assertions on the prefix and on the type byte.

`idb_keys_round_trip` collects what is proved for each class: it is decoded to the fields it was encoded from, and what
follows it is left.
-/

namespace WebKit.WebCore.IDBLevelDBCoding

open WebKit.Lib WebKit.WTF

def MinimumIndexId : Int64 := 30

def ObjectStoreDataIndexId : Int64 := 1
def ExistsEntryIndexId : Int64 := 2

def SchemaVersionTypeByte : UInt8 := 0
def MaxDatabaseIdTypeByte : UInt8 := 1
def DataVersionTypeByte : UInt8 := 2
def MaxSimpleGlobalMetaDataTypeByte : UInt8 := 3
def DatabaseFreeListTypeByte : UInt8 := 100
def DatabaseNameTypeByte : UInt8 := 201

def ObjectStoreMetaDataTypeByte : UInt8 := 50
def IndexMetaDataTypeByte : UInt8 := 100
def ObjectStoreFreeListTypeByte : UInt8 := 150
def IndexFreeListTypeByte : UInt8 := 151
def ObjectStoreNamesTypeByte : UInt8 := 200
def IndexNamesKeyTypeByte : UInt8 := 201

/-! ## The prefix -/

structure KeyPrefix where
  databaseId : Int64
  objectStoreId : Int64
  indexId : Int64
  deriving DecidableEq

namespace KeyPrefix

def kMaxDatabaseId : Int64 := 2 ^ 63 - 1
def kMaxObjectStoreId : Int64 := 2 ^ 63 - 1
def kMaxIndexId : Int64 := 2 ^ 31 - 1

def isValidDatabaseId (databaseId : Int64) : Bool := decide (databaseId > 0) && decide (databaseId < kMaxDatabaseId)

def isValidObjectStoreId (objectStoreId : Int64) : Bool :=
  decide (objectStoreId > 0) && decide (objectStoreId < kMaxObjectStoreId)

def isValidIndexId (indexId : Int64) : Bool :=
  decide (indexId ≥ MinimumIndexId) && decide (indexId < kMaxIndexId)

/-- `kMaxObjectStoreIdSizeBits + kMaxIndexIdSizeBits` and `kMaxIndexIdSizeBits` are the shifts. -/
def firstByte (databaseIdSize objectStoreIdSize indexIdSize : Nat) : UInt8 :=
  UInt8.ofNat ((databaseIdSize - 1) <<< 5 ||| (objectStoreIdSize - 1) <<< 2 ||| (indexIdSize - 1))

/-- `encodeInternal`. -/
def encode (keyPrefix : KeyPrefix) : Bytes :=
  let databaseIdString := encodeInt keyPrefix.databaseId
  let objectStoreIdString := encodeInt keyPrefix.objectStoreId
  let indexIdString := encodeInt keyPrefix.indexId
  firstByte databaseIdString.length objectStoreIdString.length indexIdString.length ::
    (databaseIdString ++ (objectStoreIdString ++ indexIdString))

def encodeEmpty : Bytes := [0, 0, 0, 0]

def decode : Bytes → Option (KeyPrefix × Bytes)
  | [] => none
  | firstByte :: start =>
    let databaseIdBytes := (firstByte >>> 5 &&& 0x7).toNat + 1
    let objectStoreIdBytes := (firstByte >>> 2 &&& 0x7).toNat + 1
    let indexIdBytes := (firstByte &&& 0x3).toNat + 1
    if start.length < databaseIdBytes + objectStoreIdBytes + indexIdBytes then none
    else
      let afterDatabaseId := start.drop databaseIdBytes
      let afterObjectStoreId := afterDatabaseId.drop objectStoreIdBytes
      some ({
        databaseId := decodeInt (start.take databaseIdBytes)
        objectStoreId := decodeInt (afterDatabaseId.take objectStoreIdBytes)
        indexId := decodeInt (afterObjectStoreId.take indexIdBytes) }, afterObjectStoreId.drop indexIdBytes)

/-- The ids `encodeInternal` asserts: not negative, and an index id of 31 bits. -/
structure Encodable (keyPrefix : KeyPrefix) : Prop where
  databaseId_nonneg : 0 ≤ keyPrefix.databaseId
  objectStoreId_nonneg : 0 ≤ keyPrefix.objectStoreId
  indexId_nonneg : 0 ≤ keyPrefix.indexId
  indexId_le : keyPrefix.indexId ≤ kMaxIndexId

theorem firstByte_sizes {databaseIdSize objectStoreIdSize indexIdSize : Nat} (h₁ : databaseIdSize < 8)
    (h₂ : objectStoreIdSize < 8) (h₃ : indexIdSize < 4) :
    (firstByte (databaseIdSize + 1) (objectStoreIdSize + 1) (indexIdSize + 1) >>> 5 &&& 0x7).toNat = databaseIdSize ∧
    (firstByte (databaseIdSize + 1) (objectStoreIdSize + 1) (indexIdSize + 1) >>> 2 &&& 0x7).toNat =
      objectStoreIdSize ∧
    (firstByte (databaseIdSize + 1) (objectStoreIdSize + 1) (indexIdSize + 1) &&& 0x3).toNat = indexIdSize := by
  have hall : ∀ a < 8, ∀ b < 8, ∀ c < 4, (firstByte (a + 1) (b + 1) (c + 1) >>> 5 &&& 0x7).toNat = a ∧
      (firstByte (a + 1) (b + 1) (c + 1) >>> 2 &&& 0x7).toNat = b ∧
      (firstByte (a + 1) (b + 1) (c + 1) &&& 0x3).toNat = c := by decide
  exact hall _ h₁ _ h₂ _ h₃

theorem length_encodeInt (n : Int64) : ∃ size < 8, (encodeInt n).length = size + 1 := by
  have hpos := length_intBytes_pos n.toUInt64.toNat
  have hle : (intBytes n.toUInt64.toNat).length ≤ 7 + 1 := length_intBytes_le n.toUInt64.toNat_lt
  refine ⟨(encodeInt n).length - 1, ?_, ?_⟩
  · rw [encodeInt]
    omega
  · rw [encodeInt]
    omega

theorem length_encodeInt_index {n : Int64} (h : 0 ≤ n) (hle : n ≤ kMaxIndexId) :
    ∃ size < 4, (encodeInt n).length = size + 1 := by
  have hmax : kMaxIndexId.toInt = 2 ^ 31 - 1 := by decide
  rw [Int64.le_iff_toInt_le, hmax] at hle
  rw [Int64.le_iff_toInt_le, Int64.toInt_zero] at h
  have hn : n.toUInt64.toNat < 256 ^ (3 + 1) := by
    rw [Int64.toNat_toUInt64_of_le (by rw [Int64.le_iff_toInt_le]; exact h), Int64.toNatClampNeg]
    omega
  have hpos := length_intBytes_pos n.toUInt64.toNat
  have hlength := length_intBytes_le hn
  refine ⟨(encodeInt n).length - 1, ?_, ?_⟩
  · rw [encodeInt]
    omega
  · rw [encodeInt]
    omega

theorem decode_encode {keyPrefix : KeyPrefix} (h : keyPrefix.Encodable) (rest : Bytes) :
    decode (keyPrefix.encode ++ rest) = some (keyPrefix, rest) := by
  obtain ⟨databaseIdSize, h₁, hdatabaseId⟩ := length_encodeInt keyPrefix.databaseId
  obtain ⟨objectStoreIdSize, h₂, hobjectStoreId⟩ := length_encodeInt keyPrefix.objectStoreId
  obtain ⟨indexIdSize, h₃, hindexId⟩ := length_encodeInt_index h.indexId_nonneg h.indexId_le
  obtain ⟨hsize₁, hsize₂, hsize₃⟩ := firstByte_sizes h₁ h₂ h₃
  have henough : ¬ (encodeInt keyPrefix.databaseId ++ (encodeInt keyPrefix.objectStoreId ++
      (encodeInt keyPrefix.indexId ++ rest))).length < databaseIdSize + 1 + (objectStoreIdSize + 1) + (indexIdSize + 1) := by
    simp only [List.length_append]
    omega
  rw [encode]
  simp only [hdatabaseId, hobjectStoreId, hindexId, List.cons_append, List.append_assoc]
  rw [decode]
  simp only [hsize₁, hsize₂, hsize₃, if_neg henough, List.take_left' hdatabaseId, List.drop_left' hdatabaseId,
    List.take_left' hobjectStoreId, List.drop_left' hobjectStoreId, List.take_left' hindexId,
    List.drop_left' hindexId, decodeInt_encodeInt]

theorem encodeEmpty_eq : encodeEmpty = encode ⟨0, 0, 0⟩ := by
  have hzero : encodeInt 0 = [0] := by
    rw [encodeInt, intBytes]
    rfl
  rw [encode]
  simp only [hzero]
  rfl

end KeyPrefix

/-! ## Keys of global meta-data -/

def SchemaVersionKey.encode : Bytes := KeyPrefix.encodeEmpty ++ encodeByte SchemaVersionTypeByte

def MaxDatabaseIdKey.encode : Bytes := KeyPrefix.encodeEmpty ++ encodeByte MaxDatabaseIdTypeByte

def DataVersionKey.encode : Bytes := KeyPrefix.encodeEmpty ++ encodeByte DataVersionTypeByte

structure DatabaseFreeListKey where
  databaseId : Int64

namespace DatabaseFreeListKey

def encode (databaseId : Int64) : Bytes :=
  KeyPrefix.encodeEmpty ++ encodeByte DatabaseFreeListTypeByte ++ encodeVarInt databaseId

def decode (start : Bytes) : Option (DatabaseFreeListKey × Bytes) := do
  let (_, p) ← KeyPrefix.decode start
  let (_, p) ← decodeByte p
  let (databaseId, p) ← decodeVarInt p
  return ({ databaseId }, p)

end DatabaseFreeListKey

structure DatabaseNameKey where
  origin : List UChar
  databaseName : List UChar

namespace DatabaseNameKey

def encode (origin databaseName : List UChar) : Bytes :=
  KeyPrefix.encodeEmpty ++ encodeByte DatabaseNameTypeByte ++ encodeStringWithLength origin ++
    encodeStringWithLength databaseName

def decode (start : Bytes) : Option (DatabaseNameKey × Bytes) := do
  let (_, p) ← KeyPrefix.decode start
  let (_, p) ← decodeByte p
  let (origin, p) ← decodeStringWithLength p
  let (databaseName, p) ← decodeStringWithLength p
  return ({ origin, databaseName }, p)

end DatabaseNameKey

/-! ## Keys of database meta-data -/

namespace DatabaseMetaDataKey

inductive MetaDataType
  | originName
  | databaseName
  | userVersion
  | maxObjectStoreId
  | userIntVersion
  | maxSimpleMetaDataType
  deriving DecidableEq

def MetaDataType.code : MetaDataType → UInt8
  | originName => 0
  | databaseName => 1
  | userVersion => 2
  | maxObjectStoreId => 3
  | userIntVersion => 4
  | maxSimpleMetaDataType => 5

def encode (databaseId : Int64) (metaDataType : MetaDataType) : Bytes :=
  (KeyPrefix.encode ⟨databaseId, 0, 0⟩) ++ encodeByte metaDataType.code

end DatabaseMetaDataKey

structure ObjectStoreMetaDataKey where
  objectStoreId : Int64
  metaDataType : UInt8

namespace ObjectStoreMetaDataKey

def encode (databaseId objectStoreId : Int64) (metaDataType : UInt8) : Bytes :=
  (KeyPrefix.encode ⟨databaseId, 0, 0⟩) ++ encodeByte ObjectStoreMetaDataTypeByte ++ encodeVarInt objectStoreId ++
    encodeByte metaDataType

def decode (start : Bytes) : Option (ObjectStoreMetaDataKey × Bytes) := do
  let (_, p) ← KeyPrefix.decode start
  let (_, p) ← decodeByte p
  let (objectStoreId, p) ← decodeVarInt p
  let (metaDataType, p) ← decodeByte p
  return ({ objectStoreId, metaDataType }, p)

end ObjectStoreMetaDataKey

structure IndexMetaDataKey where
  objectStoreId : Int64
  indexId : Int64
  metaDataType : UInt8

namespace IndexMetaDataKey

def encode (databaseId objectStoreId indexId : Int64) (metaDataType : UInt8) : Bytes :=
  (KeyPrefix.encode ⟨databaseId, 0, 0⟩) ++ encodeByte IndexMetaDataTypeByte ++ encodeVarInt objectStoreId ++
    encodeVarInt indexId ++ encodeByte metaDataType

def decode (start : Bytes) : Option (IndexMetaDataKey × Bytes) := do
  let (_, p) ← KeyPrefix.decode start
  let (_, p) ← decodeByte p
  let (objectStoreId, p) ← decodeVarInt p
  let (indexId, p) ← decodeVarInt p
  let (metaDataType, p) ← decodeByte p
  return ({ objectStoreId, indexId, metaDataType }, p)

end IndexMetaDataKey

structure ObjectStoreFreeListKey where
  objectStoreId : Int64

namespace ObjectStoreFreeListKey

def encode (databaseId objectStoreId : Int64) : Bytes :=
  (KeyPrefix.encode ⟨databaseId, 0, 0⟩) ++ encodeByte ObjectStoreFreeListTypeByte ++ encodeVarInt objectStoreId

def decode (start : Bytes) : Option (ObjectStoreFreeListKey × Bytes) := do
  let (_, p) ← KeyPrefix.decode start
  let (_, p) ← decodeByte p
  let (objectStoreId, p) ← decodeVarInt p
  return ({ objectStoreId }, p)

end ObjectStoreFreeListKey

structure IndexFreeListKey where
  objectStoreId : Int64
  indexId : Int64

namespace IndexFreeListKey

def encode (databaseId objectStoreId indexId : Int64) : Bytes :=
  (KeyPrefix.encode ⟨databaseId, 0, 0⟩) ++ encodeByte IndexFreeListTypeByte ++ encodeVarInt objectStoreId ++
    encodeVarInt indexId

def decode (start : Bytes) : Option (IndexFreeListKey × Bytes) := do
  let (_, p) ← KeyPrefix.decode start
  let (_, p) ← decodeByte p
  let (objectStoreId, p) ← decodeVarInt p
  let (indexId, p) ← decodeVarInt p
  return ({ objectStoreId, indexId }, p)

end IndexFreeListKey

structure ObjectStoreNamesKey where
  objectStoreName : List UChar

namespace ObjectStoreNamesKey

def encode (databaseId : Int64) (objectStoreName : List UChar) : Bytes :=
  (KeyPrefix.encode ⟨databaseId, 0, 0⟩) ++ encodeByte ObjectStoreNamesTypeByte ++
    encodeStringWithLength objectStoreName

def decode (start : Bytes) : Option (ObjectStoreNamesKey × Bytes) := do
  let (_, p) ← KeyPrefix.decode start
  let (_, p) ← decodeByte p
  let (objectStoreName, p) ← decodeStringWithLength p
  return ({ objectStoreName }, p)

end ObjectStoreNamesKey

structure IndexNamesKey where
  objectStoreId : Int64
  indexName : List UChar

namespace IndexNamesKey

def encode (databaseId objectStoreId : Int64) (indexName : List UChar) : Bytes :=
  (KeyPrefix.encode ⟨databaseId, 0, 0⟩) ++ encodeByte IndexNamesKeyTypeByte ++ encodeVarInt objectStoreId ++
    encodeStringWithLength indexName

def decode (start : Bytes) : Option (IndexNamesKey × Bytes) := do
  let (_, p) ← KeyPrefix.decode start
  let (_, p) ← decodeByte p
  let (objectStoreId, p) ← decodeVarInt p
  let (indexName, p) ← decodeStringWithLength p
  return ({ objectStoreId, indexName }, p)

end IndexNamesKey

/-! ## Keys of object store and index data -/

structure ObjectStoreDataKey where
  encodedUserKey : Bytes

namespace ObjectStoreDataKey

def SpecialIndexNumber : Int64 := ObjectStoreDataIndexId

def encode (databaseId objectStoreId : Int64) (encodedUserKey : Bytes) : Bytes :=
  (KeyPrefix.encode ⟨databaseId, objectStoreId, SpecialIndexNumber⟩) ++ encodedUserKey

def decode (start : Bytes) : Option (ObjectStoreDataKey × Bytes) := do
  let (_, p) ← KeyPrefix.decode start
  let (encodedUserKey, p) ← extractEncodedIDBKey p
  return ({ encodedUserKey }, p)

end ObjectStoreDataKey

structure ExistsEntryKey where
  encodedUserKey : Bytes

namespace ExistsEntryKey

def SpecialIndexNumber : Int64 := ExistsEntryIndexId

def encode (databaseId objectStoreId : Int64) (encodedKey : Bytes) : Bytes :=
  (KeyPrefix.encode ⟨databaseId, objectStoreId, SpecialIndexNumber⟩) ++ encodedKey

def decode (start : Bytes) : Option (ExistsEntryKey × Bytes) := do
  let (_, p) ← KeyPrefix.decode start
  let (encodedUserKey, p) ← extractEncodedIDBKey p
  return ({ encodedUserKey }, p)

end ExistsEntryKey

structure IndexDataKey where
  databaseId : Int64
  objectStoreId : Int64
  indexId : Int64
  encodedUserKey : Bytes
  encodedPrimaryKey : Bytes
  sequenceNumber : Int64

namespace IndexDataKey

def encode (databaseId objectStoreId indexId : Int64) (encodedUserKey encodedPrimaryKey : Bytes)
    (sequenceNumber : Int64) : Bytes :=
  (KeyPrefix.encode ⟨databaseId, objectStoreId, indexId⟩) ++ encodedUserKey ++ encodeVarInt sequenceNumber ++
    encodedPrimaryKey

/-- The sequence number and the primary key are optional. -/
def decode (start : Bytes) : Option (IndexDataKey × Bytes) := do
  let (keyPrefix, p) ← KeyPrefix.decode start
  let (encodedUserKey, p) ← extractEncodedIDBKey p
  let key : IndexDataKey := {
    databaseId := keyPrefix.databaseId
    objectStoreId := keyPrefix.objectStoreId
    indexId := keyPrefix.indexId
    encodedUserKey
    encodedPrimaryKey := minIDBKey
    sequenceNumber := -1 }
  if p.isEmpty then return (key, p)
  else
    let (sequenceNumber, p) ← decodeVarInt p
    if p.isEmpty then return ({ key with sequenceNumber }, p)
    else
      let (encodedPrimaryKey, p) ← extractEncodedIDBKey p
      return ({ key with sequenceNumber, encodedPrimaryKey }, p)

end IndexDataKey

/-! ## Encoded keys in keys -/

/-- What the callers pass as an encoded user key or primary key: an encoded key or one of the two bounds. -/
inductive EncodedKey
  | minKey
  | idbKey (key : IDBKey)
  | maxKey

namespace EncodedKey

def encode : EncodedKey → Bytes
  | minKey => minIDBKey
  | idbKey key => encodeIDBKey key
  | maxKey => maxIDBKey

def Valid : EncodedKey → Prop
  | idbKey key => key.isValid = true ∧ key.Every IDBKey.LengthFits
  | _ => True

theorem encode_ne_nil (encodedKey : EncodedKey) : encodedKey.encode ≠ [] := by
  cases encodedKey with
  | minKey => simp [encode, minIDBKey, encodeByte]
  | maxKey => simp [encode, maxIDBKey, encodeByte]
  | idbKey key => cases key <;> simp [encode, encodeIDBKey, encodeByte]

theorem extract_encode {encodedKey : EncodedKey} (h : encodedKey.Valid) (rest : Bytes) :
    extractEncodedIDBKey (encodedKey.encode ++ rest) = some (encodedKey.encode, rest) := by
  cases encodedKey with
  | minKey =>
    refine extractEncodedIDBKey_of_skip ?_
    rw [encode, minIDBKey, encodeByte, List.cons_append, List.length_cons, skipIDBKeyWithin, if_pos (by decide)]
    rfl
  | maxKey =>
    refine extractEncodedIDBKey_of_skip ?_
    rw [encode, maxIDBKey, encodeByte, List.cons_append, List.length_cons, skipIDBKeyWithin, if_pos (by decide)]
    rfl
  | idbKey key => exact extractEncodedIDBKey_encode h.1 h.2 rest

end EncodedKey

/-! ## Keys are decoded to their fields -/

/-- `code` is decoded as `value`, whatever follows it. -/
def Decodes {α : Type} (decode : Bytes → Option (α × Bytes)) (code : Bytes) (value : α) : Prop :=
  ∀ rest, decode (code ++ rest) = some (value, rest)

theorem decodeByte_encodeByte (c : UInt8) (rest : Bytes) : decodeByte (encodeByte c ++ rest) = some (c, rest) := rfl

theorem KeyPrefix.encodable_global : KeyPrefix.Encodable ⟨0, 0, 0⟩ := by
  constructor <;> decide

theorem KeyPrefix.encodable_database {databaseId : Int64} (h : 0 ≤ databaseId) :
    KeyPrefix.Encodable ⟨databaseId, 0, 0⟩ where
  databaseId_nonneg := h
  objectStoreId_nonneg := (show (0 : Int64) ≤ 0 by decide)
  indexId_nonneg := (show (0 : Int64) ≤ 0 by decide)
  indexId_le := (show 0 ≤ KeyPrefix.kMaxIndexId by decide)

theorem KeyPrefix.encodable_special {databaseId objectStoreId indexId : Int64} (h : 0 ≤ databaseId)
    (h' : 0 ≤ objectStoreId) (hindex : indexId = ObjectStoreDataIndexId ∨ indexId = ExistsEntryIndexId) :
    KeyPrefix.Encodable ⟨databaseId, objectStoreId, indexId⟩ := by
  have hbounds : 0 ≤ indexId ∧ indexId ≤ KeyPrefix.kMaxIndexId := by
    rcases hindex with rfl | rfl <;> decide
  exact ⟨h, h', hbounds.1, hbounds.2⟩

theorem decode_encodeEmpty (rest : Bytes) : KeyPrefix.decode (KeyPrefix.encodeEmpty ++ rest) = some (⟨0, 0, 0⟩, rest) := by
  rw [KeyPrefix.encodeEmpty_eq]
  exact KeyPrefix.decode_encode KeyPrefix.encodable_global rest

theorem DatabaseFreeListKey.decodes (databaseId : Int64) :
    Decodes DatabaseFreeListKey.decode (DatabaseFreeListKey.encode databaseId) ⟨databaseId⟩ := by
  intro rest
  simp only [DatabaseFreeListKey.decode, DatabaseFreeListKey.encode, List.append_assoc, decode_encodeEmpty,
    decodeByte_encodeByte, decodeVarInt_encodeVarInt, Option.bind_eq_bind, Option.bind_some]
  rfl

theorem DatabaseNameKey.decodes {origin databaseName : List UChar} (h : origin.length < 2 ^ 32)
    (h' : databaseName.length < 2 ^ 32) :
    Decodes DatabaseNameKey.decode (DatabaseNameKey.encode origin databaseName) ⟨origin, databaseName⟩ := by
  intro rest
  simp only [DatabaseNameKey.decode, DatabaseNameKey.encode, List.append_assoc, decode_encodeEmpty,
    decodeByte_encodeByte, decodeStringWithLength_encode h, decodeStringWithLength_encode h', Option.bind_eq_bind,
    Option.bind_some]
  rfl

section

variable {databaseId : Int64} (h : 0 ≤ databaseId)
include h

theorem ObjectStoreMetaDataKey.decodes (objectStoreId : Int64) (metaDataType : UInt8) :
    Decodes ObjectStoreMetaDataKey.decode (ObjectStoreMetaDataKey.encode databaseId objectStoreId metaDataType)
      ⟨objectStoreId, metaDataType⟩ := by
  intro rest
  simp only [ObjectStoreMetaDataKey.decode, ObjectStoreMetaDataKey.encode, List.append_assoc,
    KeyPrefix.decode_encode (KeyPrefix.encodable_database h), decodeByte_encodeByte, decodeVarInt_encodeVarInt,
    Option.bind_eq_bind, Option.bind_some]
  rfl

theorem IndexMetaDataKey.decodes (objectStoreId indexId : Int64) (metaDataType : UInt8) :
    Decodes IndexMetaDataKey.decode (IndexMetaDataKey.encode databaseId objectStoreId indexId metaDataType)
      ⟨objectStoreId, indexId, metaDataType⟩ := by
  intro rest
  simp only [IndexMetaDataKey.decode, IndexMetaDataKey.encode, List.append_assoc,
    KeyPrefix.decode_encode (KeyPrefix.encodable_database h), decodeByte_encodeByte, decodeVarInt_encodeVarInt,
    Option.bind_eq_bind, Option.bind_some]
  rfl

theorem ObjectStoreFreeListKey.decodes (objectStoreId : Int64) :
    Decodes ObjectStoreFreeListKey.decode (ObjectStoreFreeListKey.encode databaseId objectStoreId)
      ⟨objectStoreId⟩ := by
  intro rest
  simp only [ObjectStoreFreeListKey.decode, ObjectStoreFreeListKey.encode, List.append_assoc,
    KeyPrefix.decode_encode (KeyPrefix.encodable_database h), decodeByte_encodeByte, decodeVarInt_encodeVarInt,
    Option.bind_eq_bind, Option.bind_some]
  rfl

theorem IndexFreeListKey.decodes (objectStoreId indexId : Int64) :
    Decodes IndexFreeListKey.decode (IndexFreeListKey.encode databaseId objectStoreId indexId)
      ⟨objectStoreId, indexId⟩ := by
  intro rest
  simp only [IndexFreeListKey.decode, IndexFreeListKey.encode, List.append_assoc,
    KeyPrefix.decode_encode (KeyPrefix.encodable_database h), decodeByte_encodeByte, decodeVarInt_encodeVarInt,
    Option.bind_eq_bind, Option.bind_some]
  rfl

theorem ObjectStoreNamesKey.decodes {objectStoreName : List UChar} (hname : objectStoreName.length < 2 ^ 32) :
    Decodes ObjectStoreNamesKey.decode (ObjectStoreNamesKey.encode databaseId objectStoreName) ⟨objectStoreName⟩ := by
  intro rest
  simp only [ObjectStoreNamesKey.decode, ObjectStoreNamesKey.encode, List.append_assoc,
    KeyPrefix.decode_encode (KeyPrefix.encodable_database h), decodeByte_encodeByte,
    decodeStringWithLength_encode hname, Option.bind_eq_bind, Option.bind_some]
  rfl

theorem IndexNamesKey.decodes (objectStoreId : Int64) {indexName : List UChar} (hname : indexName.length < 2 ^ 32) :
    Decodes IndexNamesKey.decode (IndexNamesKey.encode databaseId objectStoreId indexName)
      ⟨objectStoreId, indexName⟩ := by
  intro rest
  simp only [IndexNamesKey.decode, IndexNamesKey.encode, List.append_assoc,
    KeyPrefix.decode_encode (KeyPrefix.encodable_database h), decodeByte_encodeByte, decodeVarInt_encodeVarInt,
    decodeStringWithLength_encode hname, Option.bind_eq_bind, Option.bind_some]
  rfl

variable {objectStoreId : Int64} (h' : 0 ≤ objectStoreId) {userKey : EncodedKey} (huser : userKey.Valid)
include h' huser

theorem ObjectStoreDataKey.decodes :
    Decodes ObjectStoreDataKey.decode (ObjectStoreDataKey.encode databaseId objectStoreId userKey.encode)
      ⟨userKey.encode⟩ := by
  intro rest
  have hids := KeyPrefix.encodable_special h h' (Or.inl rfl)
  simp only [ObjectStoreDataKey.decode, ObjectStoreDataKey.encode, ObjectStoreDataKey.SpecialIndexNumber,
    List.append_assoc, KeyPrefix.decode_encode hids, EncodedKey.extract_encode huser, Option.bind_eq_bind,
    Option.bind_some]
  rfl

theorem ExistsEntryKey.decodes :
    Decodes ExistsEntryKey.decode (ExistsEntryKey.encode databaseId objectStoreId userKey.encode)
      ⟨userKey.encode⟩ := by
  intro rest
  have hids := KeyPrefix.encodable_special h h' (Or.inr rfl)
  simp only [ExistsEntryKey.decode, ExistsEntryKey.encode, ExistsEntryKey.SpecialIndexNumber,
    List.append_assoc, KeyPrefix.decode_encode hids, EncodedKey.extract_encode huser, Option.bind_eq_bind,
    Option.bind_some]
  rfl

end

theorem varIntBytes_ne_nil (n : Nat) : varIntBytes n ≠ [] := by
  rw [varIntBytes]
  split <;> simp

theorem isEmpty_append_left {code : Bytes} (h : code ≠ []) (rest : Bytes) : (code ++ rest).isEmpty = false := by
  cases code with
  | nil => exact absurd rfl h
  | cons c code => rfl

theorem IndexDataKey.decodes {keyPrefix : KeyPrefix} (h : keyPrefix.Encodable) {userKey primaryKey : EncodedKey}
    (huser : userKey.Valid) (hprimary : primaryKey.Valid) (sequenceNumber : Int64) :
    Decodes IndexDataKey.decode
      (IndexDataKey.encode keyPrefix.databaseId keyPrefix.objectStoreId keyPrefix.indexId userKey.encode
        primaryKey.encode sequenceNumber)
      ⟨keyPrefix.databaseId, keyPrefix.objectStoreId, keyPrefix.indexId, userKey.encode, primaryKey.encode,
        sequenceNumber⟩ := by
  intro rest
  have hsequence := isEmpty_append_left (varIntBytes_ne_nil sequenceNumber.toUInt64.toNat) (primaryKey.encode ++ rest)
  have hprimaryNe := isEmpty_append_left primaryKey.encode_ne_nil rest
  rw [← encodeVarInt] at hsequence
  simp only [IndexDataKey.decode, IndexDataKey.encode, List.append_assoc, KeyPrefix.decode_encode h,
    EncodedKey.extract_encode huser, EncodedKey.extract_encode hprimary, decodeVarInt_encodeVarInt, hsequence,
    hprimaryNe, Option.bind_eq_bind, Option.bind_some]
  rfl

theorem encodeIDBKey_decodes {key : IDBKey} (hvalid : key.isValid = true) (hfits : key.Every IDBKey.LengthFits) :
    Decodes decodeIDBKey (encodeIDBKey key) key ∧ Decodes extractEncodedIDBKey (encodeIDBKey key) (encodeIDBKey key) :=
  ⟨fun rest => decodeIDBKey_encode hvalid hfits rest, fun rest => extractEncodedIDBKey_encode hvalid hfits rest⟩

/-- **LevelDB keys round-trip**: a valid `IDBKey` and the key of each class are decoded as what was encoded, whatever
follows, and the extent of an encoded `IDBKey` is found exactly. -/
theorem idb_keys_round_trip :
    (∀ key : IDBKey, key.isValid = true → key.Every IDBKey.LengthFits →
      Decodes decodeIDBKey (encodeIDBKey key) key ∧
      Decodes extractEncodedIDBKey (encodeIDBKey key) (encodeIDBKey key)) ∧
    (∀ keyPrefix : KeyPrefix, keyPrefix.Encodable → Decodes KeyPrefix.decode keyPrefix.encode keyPrefix) ∧
    (∀ databaseId, Decodes DatabaseFreeListKey.decode (DatabaseFreeListKey.encode databaseId) ⟨databaseId⟩) ∧
    (∀ origin databaseName : List UChar, origin.length < 2 ^ 32 → databaseName.length < 2 ^ 32 →
      Decodes DatabaseNameKey.decode (DatabaseNameKey.encode origin databaseName) ⟨origin, databaseName⟩) ∧
    (∀ databaseId : Int64, 0 ≤ databaseId →
      (∀ objectStoreId metaDataType, Decodes ObjectStoreMetaDataKey.decode
        (ObjectStoreMetaDataKey.encode databaseId objectStoreId metaDataType) ⟨objectStoreId, metaDataType⟩) ∧
      (∀ objectStoreId indexId metaDataType, Decodes IndexMetaDataKey.decode
        (IndexMetaDataKey.encode databaseId objectStoreId indexId metaDataType)
        ⟨objectStoreId, indexId, metaDataType⟩) ∧
      (∀ objectStoreId, Decodes ObjectStoreFreeListKey.decode
        (ObjectStoreFreeListKey.encode databaseId objectStoreId) ⟨objectStoreId⟩) ∧
      (∀ objectStoreId indexId, Decodes IndexFreeListKey.decode
        (IndexFreeListKey.encode databaseId objectStoreId indexId) ⟨objectStoreId, indexId⟩) ∧
      (∀ objectStoreName : List UChar, objectStoreName.length < 2 ^ 32 → Decodes ObjectStoreNamesKey.decode
        (ObjectStoreNamesKey.encode databaseId objectStoreName) ⟨objectStoreName⟩) ∧
      (∀ objectStoreId, ∀ indexName : List UChar, indexName.length < 2 ^ 32 → Decodes IndexNamesKey.decode
        (IndexNamesKey.encode databaseId objectStoreId indexName) ⟨objectStoreId, indexName⟩) ∧
      ∀ objectStoreId : Int64, 0 ≤ objectStoreId → ∀ userKey : EncodedKey, userKey.Valid →
        Decodes ObjectStoreDataKey.decode (ObjectStoreDataKey.encode databaseId objectStoreId userKey.encode)
          ⟨userKey.encode⟩ ∧
        Decodes ExistsEntryKey.decode (ExistsEntryKey.encode databaseId objectStoreId userKey.encode)
          ⟨userKey.encode⟩) ∧
    ∀ keyPrefix : KeyPrefix, keyPrefix.Encodable → ∀ userKey primaryKey : EncodedKey, userKey.Valid →
      primaryKey.Valid → ∀ sequenceNumber, Decodes IndexDataKey.decode
        (IndexDataKey.encode keyPrefix.databaseId keyPrefix.objectStoreId keyPrefix.indexId userKey.encode
          primaryKey.encode sequenceNumber)
        ⟨keyPrefix.databaseId, keyPrefix.objectStoreId, keyPrefix.indexId, userKey.encode, primaryKey.encode,
          sequenceNumber⟩ := by
  refine ⟨fun key => encodeIDBKey_decodes, fun keyPrefix h => KeyPrefix.decode_encode h,
    DatabaseFreeListKey.decodes, fun origin databaseName => DatabaseNameKey.decodes, ?_, ?_⟩
  · intro databaseId h
    refine ⟨ObjectStoreMetaDataKey.decodes h, IndexMetaDataKey.decodes h, ObjectStoreFreeListKey.decodes h,
      IndexFreeListKey.decodes h, fun objectStoreName => ObjectStoreNamesKey.decodes h,
      fun objectStoreId indexName => IndexNamesKey.decodes h objectStoreId, ?_⟩
    intro objectStoreId h' userKey huser
    exact ⟨ObjectStoreDataKey.decodes h h' huser, ExistsEntryKey.decodes h h' huser⟩
  · intro keyPrefix h userKey primaryKey huser hprimary sequenceNumber
    exact IndexDataKey.decodes h huser hprimary sequenceNumber

/-- An index entry with the array `["a", 0.0]` as its key, under the largest ids. -/
theorem idb_keys_round_trip_index_entry :
    Decodes decodeIDBKey (encodeIDBKey (.array [.string [97], .number ⟨0⟩])) (.array [.string [97], .number ⟨0⟩]) ∧
    Decodes IndexDataKey.decode
      (IndexDataKey.encode KeyPrefix.kMaxDatabaseId KeyPrefix.kMaxObjectStoreId KeyPrefix.kMaxIndexId
        (encodeIDBKey (.array [.string [97], .number ⟨0⟩])) minIDBKey 0)
      ⟨KeyPrefix.kMaxDatabaseId, KeyPrefix.kMaxObjectStoreId, KeyPrefix.kMaxIndexId,
        encodeIDBKey (.array [.string [97], .number ⟨0⟩]), minIDBKey, 0⟩ := by
  have hvalid : IDBKey.isValid (.array [.string [97], .number ⟨0⟩]) = true := by decide
  have hfits : IDBKey.Every IDBKey.LengthFits (.array [.string [97], .number ⟨0⟩]) := by
    simp [IDBKey.Every, IDBKey.EveryItem, IDBKey.LengthFits]
  have hids : KeyPrefix.Encodable ⟨KeyPrefix.kMaxDatabaseId, KeyPrefix.kMaxObjectStoreId, KeyPrefix.kMaxIndexId⟩ := by
    constructor <;> decide +kernel
  have h := idb_keys_round_trip
  exact ⟨(h.1 _ hvalid hfits).1, h.2.2.2.2.2 _ hids (.idbKey _) .minKey ⟨hvalid, hfits⟩ trivial 0⟩

end WebKit.WebCore.IDBLevelDBCoding
