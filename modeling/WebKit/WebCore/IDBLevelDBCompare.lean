import WebKit.WebCore.IDBLevelDBKeys

/-!
# The comparator of the LevelDB backing store

`compareEncodedIDBKeys` compares encoded keys without decoding them and returns how far it got; `compare` dispatches on
the prefix and the type byte to the classes of keys. A comparison fails when the source clears `ok`, and it is out of
bounds when the source would read behind the end of a key.
-/

namespace WebKit.WebCore.IDBLevelDBCoding

open WebKit.Lib WebKit.WTF

inductive Failure
  | notOk
  | outOfBounds
  deriving DecidableEq

/-! ## Encoded keys -/

/-- `memcmp` of blocks of one size. -/
def memcmp : Bytes → Bytes → Int
  | x :: p, y :: q => if x = y then memcmp p q else x.toNat - y.toNat
  | _, _ => 0

def compareEncodedStringsWithLength (p q : Bytes) : Except Failure (Int × Bytes × Bytes) :=
  match decodeVarInt p, decodeVarInt q with
  | some (lenP, p), some (lenQ, q) =>
    if lenP < 0 ∨ lenQ < 0 then .error .notOk
    else if p.length < lenP.toInt.toNat * 2 ∨ q.length < lenQ.toInt.toNat * 2 then .error .notOk
    else
      let lmin := (if lenP < lenQ then lenP else lenQ).toInt.toNat
      let x := memcmp (p.take (lmin * 2)) (q.take (lmin * 2))
      let result := if x ≠ 0 then x else if lenP = lenQ then 0 else if lenP > lenQ then 1 else -1
      .ok (result, p.drop (lenP.toInt.toNat * 2), q.drop (lenQ.toInt.toNat * 2))
  | _, _ => .error .notOk

def keyTypeByteToKeyType (type : UInt8) : IDBKey.KeyType :=
  if type = IDBKeyNullTypeByte then .invalidType
  else if type = IDBKeyArrayTypeByte then .arrayType
  else if type = IDBKeyStringTypeByte then .stringType
  else if type = IDBKeyDateTypeByte then .dateType
  else if type = IDBKeyNumberTypeByte then .numberType
  else if type = IDBKeyMinKeyTypeByte then .minType
  else .invalidType

/-- The loop over the items of two arrays, with the numbers of items that are left. -/
def compareEncodedItems (compareItem : Bytes → Bytes → Except Failure (Int × Bytes × Bytes)) :
    Nat → Nat → Bytes → Bytes → Except Failure (Int × Bytes × Bytes)
  | lengthA + 1, lengthB + 1, ptrA, ptrB =>
    match compareItem ptrA ptrB with
    | .error failure => .error failure
    | .ok (result, ptrA, ptrB) =>
      if result ≠ 0 then .ok (result, ptrA, ptrB) else compareEncodedItems compareItem lengthA lengthB ptrA ptrB
  | 0, _ + 1, ptrA, ptrB => .ok (-1, ptrA, ptrB)
  | _ + 1, 0, ptrA, ptrB => .ok (1, ptrA, ptrB)
  | 0, 0, ptrA, ptrB => .ok (0, ptrA, ptrB)

/-- `compareEncodedIDBKeys` on pointers, with a bound on the depth of nesting. -/
def compareEncodedIDBKeysWithin : Nat → Bytes → Bytes → Except Failure (Int × Bytes × Bytes)
  | depth + 1, typeA :: ptrA, typeB :: ptrB =>
    let x := IDBKey.compareTypes (keyTypeByteToKeyType typeA) (keyTypeByteToKeyType typeB)
    if x ≠ 0 then .ok (x, ptrA, ptrB)
    -- Null type or max type; no payload to compare.
    else if typeA = IDBKeyNullTypeByte ∨ typeA = IDBKeyMinKeyTypeByte then .ok (0, ptrA, ptrB)
    else if typeA = IDBKeyArrayTypeByte then
      match decodeVarInt ptrA, decodeVarInt ptrB with
      | some (lengthA, ptrA), some (lengthB, ptrB) =>
        if lengthA < 0 ∨ lengthB < 0 then .error .notOk
        else
          compareEncodedItems (compareEncodedIDBKeysWithin depth) lengthA.toInt.toNat lengthB.toInt.toNat ptrA ptrB
      | _, _ => .error .notOk
    else if typeA = IDBKeyStringTypeByte then compareEncodedStringsWithLength ptrA ptrB
    else if typeA = IDBKeyDateTypeByte ∨ typeA = IDBKeyNumberTypeByte then
      match decodeDouble ptrA, decodeDouble ptrB with
      | some (d, ptrA), some (e, ptrB) => .ok (IDBKey.compareNumbers d e, ptrA, ptrB)
      | _, _ => .error .notOk
    else .ok (0, ptrA, ptrB)
  | _, _, _ => .error .outOfBounds

/-- `compareEncodedIDBKeys`: each level takes a byte, so the number of bytes bounds the depth. -/
def compareEncodedIDBKeys (ptrA ptrB : Bytes) : Except Failure (Int × Bytes × Bytes) :=
  compareEncodedIDBKeysWithin ptrA.length ptrA ptrB

/-! ## The classes of keys -/

def KeyPrefix.compare (keyPrefix other : KeyPrefix) : Int :=
  if keyPrefix.databaseId ≠ other.databaseId then compareInts keyPrefix.databaseId other.databaseId
  else if keyPrefix.objectStoreId ≠ other.objectStoreId then
    compareInts keyPrefix.objectStoreId other.objectStoreId
  else if keyPrefix.indexId ≠ other.indexId then compareInts keyPrefix.indexId other.indexId
  else 0

inductive KeyPrefix.PrefixType
  | globalMetaData
  | databaseMetaData
  | objectStoreData
  | existsEntry
  | indexData
  | invalidType
  deriving DecidableEq

def KeyPrefix.type (keyPrefix : KeyPrefix) : PrefixType :=
  if keyPrefix.databaseId = 0 then .globalMetaData
  else if keyPrefix.objectStoreId = 0 then .databaseMetaData
  else if keyPrefix.indexId = ObjectStoreDataIndexId then .objectStoreData
  else if keyPrefix.indexId = ExistsEntryIndexId then .existsEntry
  else if keyPrefix.indexId ≥ MinimumIndexId then .indexData
  else .invalidType

def DatabaseFreeListKey.compare (key other : DatabaseFreeListKey) : Int := compareInts key.databaseId other.databaseId

def DatabaseNameKey.compare (key other : DatabaseNameKey) : Int :=
  let x := codePointCompare key.origin other.origin
  if x ≠ 0 then x else codePointCompare key.databaseName other.databaseName

def ObjectStoreMetaDataKey.compare (key other : ObjectStoreMetaDataKey) : Int :=
  let x := compareInts key.objectStoreId other.objectStoreId
  if x ≠ 0 then x
  else
    let result : Int := key.metaDataType.toNat - other.metaDataType.toNat
    if result < 0 then -1 else if result > 0 then 1 else result

def IndexMetaDataKey.compare (key other : IndexMetaDataKey) : Int :=
  let x := compareInts key.objectStoreId other.objectStoreId
  if x ≠ 0 then x
  else
    let x := compareInts key.indexId other.indexId
    if x ≠ 0 then x else key.metaDataType.toNat - other.metaDataType.toNat

def ObjectStoreFreeListKey.compare (key other : ObjectStoreFreeListKey) : Int :=
  compareInts key.objectStoreId other.objectStoreId

def IndexFreeListKey.compare (key other : IndexFreeListKey) : Int :=
  let x := compareInts key.objectStoreId other.objectStoreId
  if x ≠ 0 then x else compareInts key.indexId other.indexId

def ObjectStoreNamesKey.compare (key other : ObjectStoreNamesKey) : Int :=
  codePointCompare key.objectStoreName other.objectStoreName

def IndexNamesKey.compare (key other : IndexNamesKey) : Int :=
  let x := compareInts key.objectStoreId other.objectStoreId
  if x ≠ 0 then x else codePointCompare key.indexName other.indexName

/-! ## Comparing keys -/

/-- `compare<KeyType>` for the classes whose keys are decoded. -/
def compareDecoded {α : Type} (decode : Bytes → Option (α × Bytes)) (compareKeys : α → α → Int) (a b : Bytes) :
    Except Failure Int :=
  match decode a, decode b with
  | some (keyA, _), some (keyB, _) => .ok (compareKeys keyA keyB)
  | _, _ => .error .notOk

/-- `compare<ExistsEntryKey>` and `compare<ObjectStoreDataKey>`, which do the same. -/
def compareUserKeys (a b : Bytes) : Except Failure Int :=
  match KeyPrefix.decode a, KeyPrefix.decode b with
  | some (_, ptrA), some (_, ptrB) => (compareEncodedIDBKeys ptrA ptrB).map Prod.fst
  | _, _ => .error .outOfBounds

/-- The optional sequence number: -1 at the end of the key. -/
def optionalSequenceNumber (ptr : Bytes) : Option (Int64 × Bytes) :=
  if ptr.isEmpty then some (-1, ptr) else decodeVarInt ptr

/-- What `compare<IndexDataKey>` does behind equal index keys. -/
def comparePrimaryKeys (ptrA ptrB : Bytes) : Except Failure Int :=
  match optionalSequenceNumber ptrA, optionalSequenceNumber ptrB with
  | some (sequenceNumberA, ptrA), some (sequenceNumberB, ptrB) =>
    if ptrA.isEmpty ∧ ptrB.isEmpty then .ok 0
    else if ptrA.isEmpty then .ok (-1)
    else if ptrB.isEmpty then .ok 1
    else
      (compareEncodedIDBKeys ptrA ptrB).map fun (result, _, _) =>
        if result ≠ 0 then result else compareInts sequenceNumberA sequenceNumberB
  | _, _ => .ok 0

/-- `compare<IndexDataKey>`. -/
def compareIndexDataKeys (a b : Bytes) (ignoreDuplicates : Bool) : Except Failure Int :=
  match KeyPrefix.decode a, KeyPrefix.decode b with
  | some (_, ptrA), some (_, ptrB) =>
    match compareEncodedIDBKeys ptrA ptrB with
    | .error failure => .error failure
    | .ok (result, ptrA, ptrB) =>
      if result ≠ 0 then .ok result else if ignoreDuplicates then .ok 0 else comparePrimaryKeys ptrA ptrB
  | _, _ => .error .outOfBounds

/-- The branch of `compare` for global meta-data. -/
def compareGlobalMetaData (a b ptrA ptrB : Bytes) : Except Failure Int :=
  match ptrA, ptrB with
  | typeByteA :: _, typeByteB :: _ =>
    let x : Int := typeByteA.toNat - typeByteB.toNat
    if x ≠ 0 then .ok x
    else if typeByteA < MaxSimpleGlobalMetaDataTypeByte then .ok 0
    else if typeByteA = DatabaseFreeListTypeByte then
      compareDecoded DatabaseFreeListKey.decode DatabaseFreeListKey.compare a b
    else if typeByteA = DatabaseNameTypeByte then compareDecoded DatabaseNameKey.decode DatabaseNameKey.compare a b
    else .error .notOk
  | _, _ => .error .outOfBounds

/-- The branch of `compare` for database meta-data. -/
def compareDatabaseMetaData (a b ptrA ptrB : Bytes) : Except Failure Int :=
  match ptrA, ptrB with
  | typeByteA :: _, typeByteB :: _ =>
    let x : Int := typeByteA.toNat - typeByteB.toNat
    if x ≠ 0 then .ok x
    else if typeByteA < DatabaseMetaDataKey.MetaDataType.maxSimpleMetaDataType.code then .ok 0
    else if typeByteA = ObjectStoreMetaDataTypeByte then
      compareDecoded ObjectStoreMetaDataKey.decode ObjectStoreMetaDataKey.compare a b
    else if typeByteA = IndexMetaDataTypeByte then
      compareDecoded IndexMetaDataKey.decode IndexMetaDataKey.compare a b
    else if typeByteA = ObjectStoreFreeListTypeByte then
      compareDecoded ObjectStoreFreeListKey.decode ObjectStoreFreeListKey.compare a b
    else if typeByteA = IndexFreeListTypeByte then
      compareDecoded IndexFreeListKey.decode IndexFreeListKey.compare a b
    else if typeByteA = ObjectStoreNamesTypeByte then
      compareDecoded ObjectStoreNamesKey.decode ObjectStoreNamesKey.compare a b
    else if typeByteA = IndexNamesKeyTypeByte then compareDecoded IndexNamesKey.decode IndexNamesKey.compare a b
    else .error .notOk
  | _, _ => .error .outOfBounds

/-- The branches of `compare` for keys whose user key may be missing. -/
def compareOptionalUserKeys (ptrA ptrB : Bytes) (compareKeys : Except Failure Int) : Except Failure Int :=
  if ptrA.isEmpty ∧ ptrB.isEmpty then .ok 0
  else if ptrA.isEmpty then .ok (-1)
  else if ptrB.isEmpty then .ok 1
  else compareKeys

/-- `compare` with the flag `ok`. -/
def compareSlices (a b : Bytes) (indexKeys : Bool) : Except Failure Int :=
  match KeyPrefix.decode a, KeyPrefix.decode b with
  | some (prefixA, ptrA), some (prefixB, ptrB) =>
    let x := prefixA.compare prefixB
    if x ≠ 0 then .ok x
    else
      match prefixA.type with
      | .globalMetaData => compareGlobalMetaData a b ptrA ptrB
      | .databaseMetaData => compareDatabaseMetaData a b ptrA ptrB
      | .objectStoreData => compareOptionalUserKeys ptrA ptrB (compareUserKeys a b)
      | .existsEntry => compareOptionalUserKeys ptrA ptrB (compareUserKeys a b)
      | .indexData => compareOptionalUserKeys ptrA ptrB (compareIndexDataKeys a b indexKeys)
      | .invalidType => .error .notOk
  | _, _ => .error .notOk

/-- `compare`: 0 when the flag is not set, and nothing when a key is left. -/
def compare (a b : Bytes) (indexKeys : Bool) : Option Int :=
  match compareSlices a b indexKeys with
  | .ok result => some result
  | .error .notOk => some 0
  | .error .outOfBounds => none

end WebKit.WebCore.IDBLevelDBCoding
