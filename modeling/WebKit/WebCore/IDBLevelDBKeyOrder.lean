import WebKit.WebCore.IDBLevelDBOrder

/-!
# The order of keys

`Key` has the keys of all classes that the backing store writes or compares with. `rank` extends the abstract order of
`IDBKey` to them: the three ids of the prefix, the type byte, and then the fields. `compare_encode` shows that the
comparator realises this order, one class at a time.
-/

namespace WebKit.WebCore.IDBLevelDBCoding

open WebKit.Lib WebKit.WTF

/-! ## Keys -/

/-- The keys of global meta-data. -/
inductive GlobalKey
  | schemaVersion
  | maxDatabaseId
  | dataVersion
  | databaseFreeList (databaseId : Int64)
  | databaseName (origin name : List UChar)

inductive DatabaseKey
  | metaData (metaDataType : DatabaseMetaDataKey.MetaDataType)
  | objectStoreMetaData (objectStoreId : Int64) (metaDataType : UInt8)
  | indexMetaData (objectStoreId indexId : Int64) (metaDataType : UInt8)
  | objectStoreFreeList (objectStoreId : Int64)
  | indexFreeList (objectStoreId indexId : Int64)
  | objectStoreNames (objectStoreName : List UChar)
  | indexNames (objectStoreId : Int64) (indexName : List UChar)

/-- A user key, a primary key and the sequence number between them. -/
structure IndexEntry where
  userKey : EncodedKey
  primaryKey : EncodedKey
  sequenceNumber : Int64

/-- A key; without a user key it is the prefix alone, as `objectStore` always is. -/
inductive Key
  | globalMetaData (key : GlobalKey)
  | databaseMetaData (databaseId : Int64) (key : DatabaseKey)
  | objectStore (databaseId objectStoreId : Int64)
  | objectStoreData (databaseId objectStoreId : Int64) (userKey : Option EncodedKey)
  | existsEntry (databaseId objectStoreId : Int64) (userKey : Option EncodedKey)
  | indexData (databaseId objectStoreId indexId : Int64) (entry : Option IndexEntry)

/-! ### What their classes encode -/

def GlobalKey.encode : GlobalKey → Bytes
  | schemaVersion => SchemaVersionKey.encode
  | maxDatabaseId => MaxDatabaseIdKey.encode
  | dataVersion => DataVersionKey.encode
  | databaseFreeList databaseId => DatabaseFreeListKey.encode databaseId
  | databaseName origin name => DatabaseNameKey.encode origin name

def DatabaseKey.encode (databaseId : Int64) : DatabaseKey → Bytes
  | metaData metaDataType => DatabaseMetaDataKey.encode databaseId metaDataType
  | objectStoreMetaData objectStoreId metaDataType =>
    ObjectStoreMetaDataKey.encode databaseId objectStoreId metaDataType
  | indexMetaData objectStoreId indexId metaDataType =>
    IndexMetaDataKey.encode databaseId objectStoreId indexId metaDataType
  | objectStoreFreeList objectStoreId => ObjectStoreFreeListKey.encode databaseId objectStoreId
  | indexFreeList objectStoreId indexId => IndexFreeListKey.encode databaseId objectStoreId indexId
  | objectStoreNames objectStoreName => ObjectStoreNamesKey.encode databaseId objectStoreName
  | indexNames objectStoreId indexName => IndexNamesKey.encode databaseId objectStoreId indexName

namespace Key

/-- The ids, as `KeyPrefix` and `createWithSpecialIndex` get them. -/
def keyPrefix : Key → KeyPrefix
  | globalMetaData _ => ⟨0, 0, 0⟩
  | databaseMetaData databaseId _ => ⟨databaseId, 0, 0⟩
  | objectStore databaseId objectStoreId => ⟨databaseId, objectStoreId, 0⟩
  | objectStoreData databaseId objectStoreId _ => ⟨databaseId, objectStoreId, ObjectStoreDataIndexId⟩
  | existsEntry databaseId objectStoreId _ => ⟨databaseId, objectStoreId, ExistsEntryIndexId⟩
  | indexData databaseId objectStoreId indexId _ => ⟨databaseId, objectStoreId, indexId⟩

def encode : Key → Bytes
  | globalMetaData key => key.encode
  | databaseMetaData databaseId key => key.encode databaseId
  | objectStoreData databaseId objectStoreId (some userKey) =>
    ObjectStoreDataKey.encode databaseId objectStoreId userKey.encode
  | existsEntry databaseId objectStoreId (some userKey) =>
    ExistsEntryKey.encode databaseId objectStoreId userKey.encode
  | indexData databaseId objectStoreId indexId (some entry) =>
    IndexDataKey.encode databaseId objectStoreId indexId entry.userKey.encode entry.primaryKey.encode
      entry.sequenceNumber
  | key => key.keyPrefix.encode

end Key

/-! ### Keys that can be encoded -/

/-- A user key or primary key that can be encoded and ordered. -/
structure EncodedKey.Comparable (a : EncodedKey) : Prop where
  valid : a.Valid
  notNaN : a.NotNaN

def GlobalKey.Valid : GlobalKey → Prop
  | databaseFreeList databaseId => 0 ≤ databaseId
  | databaseName origin name => origin.length < 2 ^ 32 ∧ name.length < 2 ^ 32
  | _ => True

def DatabaseKey.Valid : DatabaseKey → Prop
  | metaData _ => True
  | objectStoreMetaData objectStoreId _ => 0 ≤ objectStoreId
  | indexMetaData objectStoreId indexId _ => 0 ≤ objectStoreId ∧ 0 ≤ indexId
  | objectStoreFreeList objectStoreId => 0 ≤ objectStoreId
  | indexFreeList objectStoreId indexId => 0 ≤ objectStoreId ∧ 0 ≤ indexId
  | objectStoreNames objectStoreName => objectStoreName.length < 2 ^ 32
  | indexNames objectStoreId indexName => 0 ≤ objectStoreId ∧ indexName.length < 2 ^ 32

structure IndexEntry.Valid (entry : IndexEntry) : Prop where
  userKey : entry.userKey.Comparable
  primaryKey : entry.primaryKey.Comparable
  sequenceNumber : 0 ≤ entry.sequenceNumber

/-- The ids the constructors of `KeyPrefix` assert, and fields that can be encoded. -/
def Key.Valid : Key → Prop
  | globalMetaData key => key.Valid
  | databaseMetaData databaseId key => KeyPrefix.isValidDatabaseId databaseId = true ∧ key.Valid
  | objectStore databaseId objectStoreId =>
    KeyPrefix.isValidDatabaseId databaseId = true ∧ KeyPrefix.isValidObjectStoreId objectStoreId = true
  | objectStoreData databaseId objectStoreId userKey =>
    KeyPrefix.isValidDatabaseId databaseId = true ∧ KeyPrefix.isValidObjectStoreId objectStoreId = true ∧
      ∀ key ∈ userKey, key.Comparable
  | existsEntry databaseId objectStoreId userKey =>
    KeyPrefix.isValidDatabaseId databaseId = true ∧ KeyPrefix.isValidObjectStoreId objectStoreId = true ∧
      ∀ key ∈ userKey, key.Comparable
  | indexData databaseId objectStoreId indexId entry =>
    KeyPrefix.isValidDatabaseId databaseId = true ∧ KeyPrefix.isValidObjectStoreId objectStoreId = true ∧
      KeyPrefix.isValidIndexId indexId = true ∧ ∀ fields ∈ entry, fields.Valid

/-! ### Ranks -/

def GlobalKey.typeByte : GlobalKey → UInt8
  | schemaVersion => SchemaVersionTypeByte
  | maxDatabaseId => MaxDatabaseIdTypeByte
  | dataVersion => DataVersionTypeByte
  | databaseFreeList _ => DatabaseFreeListTypeByte
  | databaseName _ _ => DatabaseNameTypeByte

def DatabaseKey.typeByte : DatabaseKey → UInt8
  | metaData metaDataType => metaDataType.code
  | objectStoreMetaData _ _ => ObjectStoreMetaDataTypeByte
  | indexMetaData _ _ _ => IndexMetaDataTypeByte
  | objectStoreFreeList _ => ObjectStoreFreeListTypeByte
  | indexFreeList _ _ => IndexFreeListTypeByte
  | objectStoreNames _ => ObjectStoreNamesTypeByte
  | indexNames _ _ => IndexNamesKeyTypeByte

def GlobalKey.fieldsRank : GlobalKey → List Int
  | databaseFreeList databaseId => [databaseId.toInt]
  | databaseName origin name => IDBKey.rankText origin ++ IDBKey.rankText name
  | _ => []

def DatabaseKey.fieldsRank : DatabaseKey → List Int
  | metaData _ => []
  | objectStoreMetaData objectStoreId metaDataType => [objectStoreId.toInt] ++ [(metaDataType.toNat : Int)]
  | indexMetaData objectStoreId indexId metaDataType =>
    [objectStoreId.toInt] ++ ([indexId.toInt] ++ [(metaDataType.toNat : Int)])
  | objectStoreFreeList objectStoreId => [objectStoreId.toInt]
  | indexFreeList objectStoreId indexId => [objectStoreId.toInt] ++ [indexId.toInt]
  | objectStoreNames objectStoreName => IDBKey.rankText objectStoreName
  | indexNames objectStoreId indexName => [objectStoreId.toInt] ++ IDBKey.rankText indexName

def IndexEntry.rank (entry : IndexEntry) : List Int :=
  entry.userKey.rank ++ (entry.primaryKey.rank ++ [entry.sequenceNumber.toInt])

def KeyPrefix.rank (keyPrefix : KeyPrefix) : List Int :=
  [keyPrefix.databaseId.toInt] ++ ([keyPrefix.objectStoreId.toInt] ++ [keyPrefix.indexId.toInt])

namespace Key

/-- The rank of what follows the prefix. A key without a user key comes before all keys that have one. -/
def fieldsRank : Key → List Int
  | globalMetaData key => (key.typeByte.toNat : Int) :: key.fieldsRank
  | databaseMetaData _ key => (key.typeByte.toNat : Int) :: key.fieldsRank
  | objectStore _ _ => []
  | objectStoreData _ _ userKey => userKey.elim [] EncodedKey.rank
  | existsEntry _ _ userKey => userKey.elim [] EncodedKey.rank
  | indexData _ _ _ entry => entry.elim [] IndexEntry.rank

def rank (key : Key) : List Int := key.keyPrefix.rank ++ key.fieldsRank

end Key

/-! ## Fields -/

/-- The difference of two ids does not overflow. -/
theorem decides_compareInts {a b : Int64} (hA : 0 ≤ a) (hB : 0 ≤ b) :
    Decides (compareInts a b) [a.toInt] [b.toInt] := by
  apply decides_of_compare
  have hlt := a.toInt_lt
  have hlt' := b.toInt_lt
  rw [Int64.le_iff_toInt_le, Int64.toInt_zero] at hA hB
  have hdiff : (a - b).toInt = a.toInt - b.toInt := by
    rw [Int64.toInt_sub]
    exact Int.bmod_eq_of_le (by omega) (by omega)
  rw [compareInts, ← orderingOf_ifLess]
  congr 1
  simp only [gt_iff_lt, Int64.lt_iff_toInt_lt, hdiff, Int64.toInt_zero]
  congr 1
  · exact propext (by omega)
  · congr 1
    exact propext (by omega)

theorem DatabaseNameKey.decides_compare (key other : DatabaseNameKey) :
    Decides (key.compare other) (IDBKey.rankText key.origin ++ IDBKey.rankText key.databaseName)
      (IDBKey.rankText other.origin ++ IDBKey.rankText other.databaseName) :=
  (IDBKey.decides_rankText key.origin other.origin).append
    (IDBKey.decides_rankText key.databaseName other.databaseName)

theorem ObjectStoreMetaDataKey.decides_compare {key other : ObjectStoreMetaDataKey} (h : 0 ≤ key.objectStoreId)
    (h' : 0 ≤ other.objectStoreId) : Decides (key.compare other)
      ([key.objectStoreId.toInt] ++ [(key.metaDataType.toNat : Int)])
      ([other.objectStoreId.toInt] ++ [(other.metaDataType.toNat : Int)]) := by
  apply (decides_compareInts h h').append
  apply (decides_sub (key.metaDataType.toNat : Int) other.metaDataType.toNat).congr
  rcases lt_trichotomy ((key.metaDataType.toNat : Int) - other.metaDataType.toNat) 0 with hlt | heq | hgt
  · rw [if_pos hlt, orderingOf_eq_lt.mpr hlt, orderingOf_neg_one]
  · rw [heq]
    rfl
  · rw [if_neg (by omega), if_pos hgt, orderingOf_eq_gt.mpr hgt, orderingOf_one]

theorem IndexMetaDataKey.decides_compare {key other : IndexMetaDataKey} (h : 0 ≤ key.objectStoreId)
    (hindex : 0 ≤ key.indexId) (h' : 0 ≤ other.objectStoreId) (hindex' : 0 ≤ other.indexId) :
    Decides (key.compare other)
      ([key.objectStoreId.toInt] ++ ([key.indexId.toInt] ++ [(key.metaDataType.toNat : Int)]))
      ([other.objectStoreId.toInt] ++ ([other.indexId.toInt] ++ [(other.metaDataType.toNat : Int)])) :=
  (decides_compareInts h h').append
    ((decides_compareInts hindex hindex').append (decides_sub (key.metaDataType.toNat : Int) other.metaDataType.toNat))

theorem IndexFreeListKey.decides_compare {key other : IndexFreeListKey} (h : 0 ≤ key.objectStoreId)
    (hindex : 0 ≤ key.indexId) (h' : 0 ≤ other.objectStoreId) (hindex' : 0 ≤ other.indexId) :
    Decides (key.compare other) ([key.objectStoreId.toInt] ++ [key.indexId.toInt])
      ([other.objectStoreId.toInt] ++ [other.indexId.toInt]) :=
  (decides_compareInts h h').append (decides_compareInts hindex hindex')

theorem IndexNamesKey.decides_compare {key other : IndexNamesKey} (h : 0 ≤ key.objectStoreId)
    (h' : 0 ≤ other.objectStoreId) : Decides (key.compare other)
      ([key.objectStoreId.toInt] ++ IDBKey.rankText key.indexName)
      ([other.objectStoreId.toInt] ++ IDBKey.rankText other.indexName) :=
  (decides_compareInts h h').append (IDBKey.decides_rankText key.indexName other.indexName)

theorem KeyPrefix.decides_compare {keyPrefix other : KeyPrefix} (h : keyPrefix.Encodable) (h' : other.Encodable) :
    Decides (keyPrefix.compare other) keyPrefix.rank other.rank := by
  have hdatabase := decides_compareInts h.databaseId_nonneg h'.databaseId_nonneg
  have hobjectStore := decides_compareInts h.objectStoreId_nonneg h'.objectStoreId_nonneg
  have hindex := decides_compareInts h.indexId_nonneg h'.indexId_nonneg
  have hzero := @compareInts_eq_zero keyPrefix.databaseId other.databaseId
  have hzero' := @compareInts_eq_zero keyPrefix.objectStoreId other.objectStoreId
  have hzero'' := @compareInts_eq_zero keyPrefix.indexId other.indexId
  rw [KeyPrefix.compare, KeyPrefix.rank, KeyPrefix.rank]
  by_cases heq : keyPrefix.databaseId = other.databaseId
  · rw [if_neg (not_not.mpr heq)]
    apply hdatabase.append_of_eq (hzero.mpr heq)
    by_cases heq' : keyPrefix.objectStoreId = other.objectStoreId
    · rw [if_neg (not_not.mpr heq')]
      apply hobjectStore.append_of_eq (hzero'.mpr heq')
      by_cases heq'' : keyPrefix.indexId = other.indexId
      · rw [if_neg (not_not.mpr heq''), ← hzero''.mpr heq'']
        exact hindex
      · rw [if_pos heq'']
        exact hindex
    · rw [if_pos heq']
      exact hobjectStore.append_of_ne (fun h0 => heq' (hzero'.mp h0)) _ _
  · rw [if_pos heq]
    exact hdatabase.append_of_ne (fun h0 => heq (hzero.mp h0)) _ _

theorem KeyPrefix.eq_of_rank {keyPrefix other : KeyPrefix} (h : lexOrder keyPrefix.rank other.rank = .eq) :
    keyPrefix = other := by
  have hrank := lexOrder_eq.mp h
  simp only [KeyPrefix.rank, List.cons_append, List.nil_append, List.cons.injEq, Int64.toInt_inj, and_true] at hrank
  obtain ⟨hdatabase, hobjectStore, hindex⟩ := hrank
  cases keyPrefix
  cases other
  rw [KeyPrefix.mk.injEq]
  exact ⟨hdatabase, hobjectStore, hindex⟩

theorem KeyPrefix.compare_eq_zero {keyPrefix other : KeyPrefix} (h : keyPrefix.Encodable) (h' : other.Encodable)
    (hzero : keyPrefix.compare other = 0) : keyPrefix = other := by
  have horder := (KeyPrefix.decides_compare h h').orderingOf_eq
  rw [hzero, orderingOf_zero] at horder
  exact KeyPrefix.eq_of_rank horder.symm

/-! ## What follows the prefix -/

def GlobalKey.payload : GlobalKey → Bytes
  | databaseFreeList databaseId => encodeVarInt databaseId
  | databaseName origin name => encodeStringWithLength origin ++ encodeStringWithLength name
  | _ => []

def DatabaseKey.payload : DatabaseKey → Bytes
  | metaData _ => []
  | objectStoreMetaData objectStoreId metaDataType => encodeVarInt objectStoreId ++ encodeByte metaDataType
  | indexMetaData objectStoreId indexId metaDataType =>
    encodeVarInt objectStoreId ++ (encodeVarInt indexId ++ encodeByte metaDataType)
  | objectStoreFreeList objectStoreId => encodeVarInt objectStoreId
  | indexFreeList objectStoreId indexId => encodeVarInt objectStoreId ++ encodeVarInt indexId
  | objectStoreNames objectStoreName => encodeStringWithLength objectStoreName
  | indexNames objectStoreId indexName => encodeVarInt objectStoreId ++ encodeStringWithLength indexName

def IndexEntry.encode (entry : IndexEntry) : Bytes :=
  entry.userKey.encode ++ (encodeVarInt entry.sequenceNumber ++ entry.primaryKey.encode)

theorem GlobalKey.encode_eq (key : GlobalKey) : key.encode = KeyPrefix.encodeEmpty ++ key.typeByte :: key.payload := by
  cases key with
  | databaseFreeList databaseId => simp [encode, DatabaseFreeListKey.encode, encodeByte, typeByte, payload]
  | databaseName origin name => simp [encode, DatabaseNameKey.encode, encodeByte, typeByte, payload]
  | _ => rfl

theorem DatabaseKey.encode_eq (databaseId : Int64) (key : DatabaseKey) :
    key.encode databaseId = KeyPrefix.encode ⟨databaseId, 0, 0⟩ ++ key.typeByte :: key.payload := by
  cases key with
  | metaData metaDataType => rfl
  | objectStoreMetaData objectStoreId metaDataType =>
    simp [encode, ObjectStoreMetaDataKey.encode, encodeByte, typeByte, payload]
  | indexMetaData objectStoreId indexId metaDataType =>
    simp [encode, IndexMetaDataKey.encode, encodeByte, typeByte, payload]
  | objectStoreFreeList objectStoreId => simp [encode, ObjectStoreFreeListKey.encode, encodeByte, typeByte, payload]
  | indexFreeList objectStoreId indexId => simp [encode, IndexFreeListKey.encode, encodeByte, typeByte, payload]
  | objectStoreNames objectStoreName => simp [encode, ObjectStoreNamesKey.encode, encodeByte, typeByte, payload]
  | indexNames objectStoreId indexName => simp [encode, IndexNamesKey.encode, encodeByte, typeByte, payload]

namespace Key

/-- The bytes behind the prefix. -/
def body : Key → Bytes
  | globalMetaData key => key.typeByte :: key.payload
  | databaseMetaData _ key => key.typeByte :: key.payload
  | objectStore _ _ => []
  | objectStoreData _ _ userKey => userKey.elim [] EncodedKey.encode
  | existsEntry _ _ userKey => userKey.elim [] EncodedKey.encode
  | indexData _ _ _ entry => entry.elim [] IndexEntry.encode

theorem encode_eq (key : Key) : key.encode = key.keyPrefix.encode ++ key.body := by
  cases key with
  | globalMetaData key =>
    show key.encode = KeyPrefix.encode ⟨0, 0, 0⟩ ++ key.typeByte :: key.payload
    rw [key.encode_eq, KeyPrefix.encodeEmpty_eq]
  | databaseMetaData databaseId key => exact key.encode_eq databaseId
  | objectStore databaseId objectStoreId => exact (List.append_nil _).symm
  | objectStoreData databaseId objectStoreId userKey =>
    cases userKey with
    | none => exact (List.append_nil _).symm
    | some userKey => rfl
  | existsEntry databaseId objectStoreId userKey =>
    cases userKey with
    | none => exact (List.append_nil _).symm
    | some userKey => rfl
  | indexData databaseId objectStoreId indexId entry =>
    cases entry with
    | none => exact (List.append_nil _).symm
    | some entry =>
      show IndexDataKey.encode _ _ _ _ _ _ = _
      rw [IndexDataKey.encode, List.append_assoc, List.append_assoc]
      rfl

end Key

theorem KeyPrefix.databaseId_pos {databaseId : Int64} (h : KeyPrefix.isValidDatabaseId databaseId = true) :
    0 < databaseId := by
  rw [KeyPrefix.isValidDatabaseId, Bool.and_eq_true] at h
  exact of_decide_eq_true h.1

theorem KeyPrefix.objectStoreId_pos {objectStoreId : Int64} (h : KeyPrefix.isValidObjectStoreId objectStoreId = true) :
    0 < objectStoreId := by
  rw [KeyPrefix.isValidObjectStoreId, Bool.and_eq_true] at h
  exact of_decide_eq_true h.1

theorem KeyPrefix.indexId_ge {indexId : Int64} (h : KeyPrefix.isValidIndexId indexId = true) :
    MinimumIndexId ≤ indexId ∧ indexId ≤ kMaxIndexId := by
  rw [KeyPrefix.isValidIndexId, Bool.and_eq_true] at h
  exact ⟨of_decide_eq_true h.1, Int64.le_of_lt (of_decide_eq_true h.2)⟩

theorem Key.Valid.encodable {key : Key} (h : key.Valid) : key.keyPrefix.Encodable := by
  cases key with
  | globalMetaData key => exact KeyPrefix.encodable_global
  | databaseMetaData databaseId key =>
    exact KeyPrefix.encodable_database (Int64.le_of_lt (KeyPrefix.databaseId_pos h.1))
  | objectStore databaseId objectStoreId =>
    exact ⟨Int64.le_of_lt (KeyPrefix.databaseId_pos h.1), Int64.le_of_lt (KeyPrefix.objectStoreId_pos h.2),
      (show (0 : Int64) ≤ 0 by decide), (show 0 ≤ KeyPrefix.kMaxIndexId by decide)⟩
  | objectStoreData databaseId objectStoreId userKey =>
    exact KeyPrefix.encodable_special (Int64.le_of_lt (KeyPrefix.databaseId_pos h.1))
      (Int64.le_of_lt (KeyPrefix.objectStoreId_pos h.2.1)) (Or.inl rfl)
  | existsEntry databaseId objectStoreId userKey =>
    exact KeyPrefix.encodable_special (Int64.le_of_lt (KeyPrefix.databaseId_pos h.1))
      (Int64.le_of_lt (KeyPrefix.objectStoreId_pos h.2.1)) (Or.inr rfl)
  | indexData databaseId objectStoreId indexId entry =>
    have hindex := KeyPrefix.indexId_ge h.2.2.1
    exact ⟨Int64.le_of_lt (KeyPrefix.databaseId_pos h.1), Int64.le_of_lt (KeyPrefix.objectStoreId_pos h.2.1),
      Int64.le_trans (show 0 ≤ MinimumIndexId by decide) hindex.1, hindex.2⟩

/-! ## The classes -/

/-- The comparison returns the order of two ranks; when the flag is not set, 0 is returned. -/
def Yields (outcome : Except Failure Int) (rankA rankB : List Int) : Prop :=
  ∃ x, (outcome = .ok x ∨ outcome = .error .notOk ∧ x = 0) ∧ orderingOf x = lexOrder rankA rankB

theorem yields_ok {x : Int} {rankA rankB : List Int} (h : Decides x rankA rankB) : Yields (.ok x) rankA rankB :=
  ⟨x, Or.inl rfl, h.orderingOf_eq⟩

theorem Yields.cons {outcome : Except Failure Int} {rankA rankB : List Int} (h : Yields outcome rankA rankB) (type : Int) :
    Yields outcome (type :: rankA) (type :: rankB) := by
  obtain ⟨x, hx, horder⟩ := h
  refine ⟨x, hx, ?_⟩
  rw [lexOrder_cons_self]
  exact horder

theorem yields_typeBytes {typeA typeB : UInt8} (h : ((typeA.toNat : Int) - typeB.toNat) ≠ 0) (rankA rankB : List Int) :
    Yields (.ok ((typeA.toNat : Int) - typeB.toNat)) ((typeA.toNat : Int) :: rankA) ((typeB.toNat : Int) :: rankB) :=
  yields_ok ((decides_sub (typeA.toNat : Int) typeB.toNat).append_of_ne h rankA rankB)

theorem compareDecoded_encode {α : Type} {decode : Bytes → Option (α × Bytes)} {codeA codeB : Bytes} {keyA keyB : α}
    (hA : Decodes decode codeA keyA) (hB : Decodes decode codeB keyB) (compareKeys : α → α → Int) :
    compareDecoded decode compareKeys codeA codeB = .ok (compareKeys keyA keyB) := by
  have hA' := hA []
  have hB' := hB []
  rw [List.append_nil] at hA' hB'
  rw [compareDecoded, hA', hB']

@[elab_as_elim]
theorem GlobalKey.sameClass {P : ∀ a b : GlobalKey, a.typeByte = b.typeByte → Prop}
    (schemaVersion : P .schemaVersion .schemaVersion rfl) (maxDatabaseId : P .maxDatabaseId .maxDatabaseId rfl)
    (dataVersion : P .dataVersion .dataVersion rfl)
    (databaseFreeList : ∀ databaseId databaseId', P (.databaseFreeList databaseId) (.databaseFreeList databaseId') rfl)
    (databaseName : ∀ origin name origin' name', P (.databaseName origin name) (.databaseName origin' name') rfl)
    (a b : GlobalKey) (h : a.typeByte = b.typeByte) : P a b h := by
  cases a with
  | schemaVersion =>
    cases b with
    | schemaVersion => exact schemaVersion
    | _ => exact absurd h (by simp only [GlobalKey.typeByte]; decide)
  | maxDatabaseId =>
    cases b with
    | maxDatabaseId => exact maxDatabaseId
    | _ => exact absurd h (by simp only [GlobalKey.typeByte]; decide)
  | dataVersion =>
    cases b with
    | dataVersion => exact dataVersion
    | _ => exact absurd h (by simp only [GlobalKey.typeByte]; decide)
  | databaseFreeList databaseId =>
    cases b with
    | databaseFreeList databaseId' => exact databaseFreeList databaseId databaseId'
    | _ => exact absurd h (by simp only [GlobalKey.typeByte]; decide)
  | databaseName origin name =>
    cases b with
    | databaseName origin' name' => exact databaseName origin name origin' name'
    | _ => exact absurd h (by simp only [GlobalKey.typeByte]; decide)

theorem compareGlobalMetaData_encode {a b : GlobalKey} (hA : a.Valid) (hB : b.Valid) :
    Yields (compareGlobalMetaData a.encode b.encode (a.typeByte :: a.payload) (b.typeByte :: b.payload))
      ((a.typeByte.toNat : Int) :: a.fieldsRank) ((b.typeByte.toNat : Int) :: b.fieldsRank) := by
  rw [compareGlobalMetaData]
  by_cases hne : ((a.typeByte.toNat : Int) - b.typeByte.toNat) ≠ 0
  · simp only [if_pos hne]
    exact yields_typeBytes hne _ _
  · simp only [if_neg hne]
    have htype : a.typeByte = b.typeByte := UInt8.toNat_inj.mp (by omega)
    rw [← htype]
    apply Yields.cons
    induction a, b, htype using GlobalKey.sameClass with
    | schemaVersion => exact yields_ok decides_nil
    | maxDatabaseId => exact yields_ok decides_nil
    | dataVersion => exact yields_ok decides_nil
    | databaseFreeList databaseId databaseId' =>
      have hcompare := compareDecoded_encode (DatabaseFreeListKey.decodes databaseId)
        (DatabaseFreeListKey.decodes databaseId') DatabaseFreeListKey.compare
      exact hcompare ▸ yields_ok (decides_compareInts hA hB)
    | databaseName origin name origin' name' =>
      have hcompare := compareDecoded_encode (DatabaseNameKey.decodes hA.1 hA.2)
        (DatabaseNameKey.decodes hB.1 hB.2) DatabaseNameKey.compare
      exact hcompare ▸ yields_ok (DatabaseNameKey.decides_compare ⟨origin, name⟩ ⟨origin', name'⟩)

theorem DatabaseMetaDataKey.code_injective {a b : MetaDataType} (h : a.code = b.code) : a = b := by
  cases a <;> cases b <;> first | rfl | exact absurd h (by decide)

theorem DatabaseKey.metaData_typeByte_ne (metaDataType : DatabaseMetaDataKey.MetaDataType) {other : DatabaseKey}
    (h : ∀ metaDataType', other ≠ metaData metaDataType') : (metaData metaDataType).typeByte ≠ other.typeByte := by
  cases other with
  | metaData metaDataType' => exact absurd rfl (h metaDataType')
  | _ => cases metaDataType <;> (simp only [DatabaseKey.typeByte]; decide)

@[elab_as_elim]
theorem DatabaseKey.sameClass {P : ∀ a b : DatabaseKey, a.typeByte = b.typeByte → Prop}
    (metaData : ∀ metaDataType, P (.metaData metaDataType) (.metaData metaDataType) rfl)
    (objectStoreMetaData : ∀ id type id' type', P (.objectStoreMetaData id type) (.objectStoreMetaData id' type') rfl)
    (indexMetaData : ∀ id indexId type id' indexId' type',
      P (.indexMetaData id indexId type) (.indexMetaData id' indexId' type') rfl)
    (objectStoreFreeList : ∀ id id', P (.objectStoreFreeList id) (.objectStoreFreeList id') rfl)
    (indexFreeList : ∀ id indexId id' indexId', P (.indexFreeList id indexId) (.indexFreeList id' indexId') rfl)
    (objectStoreNames : ∀ name name', P (.objectStoreNames name) (.objectStoreNames name') rfl)
    (indexNames : ∀ id name id' name', P (.indexNames id name) (.indexNames id' name') rfl)
    (a b : DatabaseKey) (h : a.typeByte = b.typeByte) : P a b h := by
  cases a with
  | metaData metaDataType =>
    cases b with
    | metaData metaDataType' =>
      obtain rfl := DatabaseMetaDataKey.code_injective h
      exact metaData metaDataType
    | _ => exact absurd h (DatabaseKey.metaData_typeByte_ne metaDataType (by simp))
  | objectStoreMetaData id type =>
    cases b with
    | metaData metaDataType' => exact absurd h.symm (DatabaseKey.metaData_typeByte_ne metaDataType' (by simp))
    | objectStoreMetaData id' type' => exact objectStoreMetaData id type id' type'
    | _ => exact absurd h (by simp only [DatabaseKey.typeByte]; decide)
  | indexMetaData id indexId type =>
    cases b with
    | metaData metaDataType' => exact absurd h.symm (DatabaseKey.metaData_typeByte_ne metaDataType' (by simp))
    | indexMetaData id' indexId' type' => exact indexMetaData id indexId type id' indexId' type'
    | _ => exact absurd h (by simp only [DatabaseKey.typeByte]; decide)
  | objectStoreFreeList id =>
    cases b with
    | metaData metaDataType' => exact absurd h.symm (DatabaseKey.metaData_typeByte_ne metaDataType' (by simp))
    | objectStoreFreeList id' => exact objectStoreFreeList id id'
    | _ => exact absurd h (by simp only [DatabaseKey.typeByte]; decide)
  | indexFreeList id indexId =>
    cases b with
    | metaData metaDataType' => exact absurd h.symm (DatabaseKey.metaData_typeByte_ne metaDataType' (by simp))
    | indexFreeList id' indexId' => exact indexFreeList id indexId id' indexId'
    | _ => exact absurd h (by simp only [DatabaseKey.typeByte]; decide)
  | objectStoreNames name =>
    cases b with
    | metaData metaDataType' => exact absurd h.symm (DatabaseKey.metaData_typeByte_ne metaDataType' (by simp))
    | objectStoreNames name' => exact objectStoreNames name name'
    | _ => exact absurd h (by simp only [DatabaseKey.typeByte]; decide)
  | indexNames id name =>
    cases b with
    | metaData metaDataType' => exact absurd h.symm (DatabaseKey.metaData_typeByte_ne metaDataType' (by simp))
    | indexNames id' name' => exact indexNames id name id' name'
    | _ => exact absurd h (by simp only [DatabaseKey.typeByte]; decide)

theorem compareDatabaseMetaData_encode {databaseId : Int64} (h : 0 ≤ databaseId) {a b : DatabaseKey} (hA : a.Valid)
    (hB : b.Valid) :
    Yields (compareDatabaseMetaData (a.encode databaseId) (b.encode databaseId) (a.typeByte :: a.payload)
      (b.typeByte :: b.payload)) ((a.typeByte.toNat : Int) :: a.fieldsRank)
      ((b.typeByte.toNat : Int) :: b.fieldsRank) := by
  rw [compareDatabaseMetaData]
  by_cases hne : ((a.typeByte.toNat : Int) - b.typeByte.toNat) ≠ 0
  · simp only [if_pos hne]
    exact yields_typeBytes hne _ _
  · simp only [if_neg hne]
    have htype : a.typeByte = b.typeByte := UInt8.toNat_inj.mp (by omega)
    rw [← htype]
    apply Yields.cons
    induction a, b, htype using DatabaseKey.sameClass with
    | metaData metaDataType =>
      cases metaDataType with
      | maxSimpleMetaDataType => exact ⟨0, Or.inr ⟨rfl, rfl⟩, rfl⟩
      | _ => exact yields_ok decides_nil
    | objectStoreMetaData id type id' type' =>
      have hcompare := compareDecoded_encode (ObjectStoreMetaDataKey.decodes h id type)
        (ObjectStoreMetaDataKey.decodes h id' type') ObjectStoreMetaDataKey.compare
      exact hcompare ▸ yields_ok (ObjectStoreMetaDataKey.decides_compare hA hB)
    | indexMetaData id indexId type id' indexId' type' =>
      have hcompare := compareDecoded_encode (IndexMetaDataKey.decodes h id indexId type)
        (IndexMetaDataKey.decodes h id' indexId' type') IndexMetaDataKey.compare
      exact hcompare ▸ yields_ok (IndexMetaDataKey.decides_compare hA.1 hA.2 hB.1 hB.2)
    | objectStoreFreeList id id' =>
      have hcompare := compareDecoded_encode (ObjectStoreFreeListKey.decodes h id)
        (ObjectStoreFreeListKey.decodes h id') ObjectStoreFreeListKey.compare
      exact hcompare ▸ yields_ok (decides_compareInts hA hB)
    | indexFreeList id indexId id' indexId' =>
      have hcompare := compareDecoded_encode (IndexFreeListKey.decodes h id indexId)
        (IndexFreeListKey.decodes h id' indexId') IndexFreeListKey.compare
      exact hcompare ▸ yields_ok (IndexFreeListKey.decides_compare hA.1 hA.2 hB.1 hB.2)
    | objectStoreNames name name' =>
      have hcompare := compareDecoded_encode (ObjectStoreNamesKey.decodes h hA) (ObjectStoreNamesKey.decodes h hB)
        ObjectStoreNamesKey.compare
      exact hcompare ▸ yields_ok (IDBKey.decides_rankText name name')
    | indexNames id name id' name' =>
      have hcompare := compareDecoded_encode (IndexNamesKey.decodes h id hA.2) (IndexNamesKey.decodes h id' hB.2)
        IndexNamesKey.compare
      exact hcompare ▸ yields_ok (IndexNamesKey.decides_compare hA.1 hB.1)

theorem EncodedKey.rank_ne_nil (a : EncodedKey) : a.rank ≠ [] := by
  obtain ⟨tail, h⟩ := a.rank_eq_cons
  rw [h]
  exact List.cons_ne_nil _ _

theorem lexOrder_nil_of_ne {ranks : List Int} (h : ranks ≠ []) : lexOrder [] ranks = .lt := by
  cases ranks with
  | nil => exact absurd rfl h
  | cons x ranks => rfl

theorem lexOrder_of_ne_nil {ranks : List Int} (h : ranks ≠ []) : lexOrder ranks [] = .gt := by
  cases ranks with
  | nil => exact absurd rfl h
  | cons x ranks => rfl

theorem compareOptionalUserKeys_encode {α : Type} {code : α → Bytes} {rank : α → List Int}
    {compareKeys : Except Failure Int} (hcode : ∀ key, code key ≠ []) (hrank : ∀ key, rank key ≠ []) (a b : Option α)
    (h : ∀ keyA ∈ a, ∀ keyB ∈ b, Yields compareKeys (rank keyA) (rank keyB)) :
    Yields (compareOptionalUserKeys (a.elim [] code) (b.elim [] code) compareKeys) (a.elim [] rank)
      (b.elim [] rank) := by
  have hempty : ∀ key, ¬ (code key).isEmpty = true := fun key he => hcode key (List.isEmpty_iff.mp he)
  cases a with
  | none =>
    cases b with
    | none => exact yields_ok decides_nil
    | some keyB =>
      refine ⟨-1, Or.inl ?_, orderingOf_neg_one.trans (lexOrder_nil_of_ne (hrank keyB)).symm⟩
      simp [compareOptionalUserKeys, hempty]
  | some keyA =>
    cases b with
    | none =>
      refine ⟨1, Or.inl ?_, (lexOrder_of_ne_nil (hrank keyA)).symm⟩
      simp [compareOptionalUserKeys, hempty]
    | some keyB =>
      have hkeys := h keyA rfl keyB rfl
      simp only [Option.elim_some, compareOptionalUserKeys, hempty]
      exact hkeys

theorem compareUserKeys_encode {keyPrefix : KeyPrefix} (h : keyPrefix.Encodable) {a b : EncodedKey} (hA : a.Comparable)
    (hB : b.Comparable) :
    Yields (compareUserKeys (keyPrefix.encode ++ a.encode) (keyPrefix.encode ++ b.encode)) a.rank b.rank := by
  obtain ⟨x, ptrA, ptrB, hx, hdecides, _⟩ := orders_encode hA.valid hB.valid hA.notNaN hB.notNaN [] []
  rw [List.append_nil, List.append_nil] at hx
  rw [compareUserKeys, KeyPrefix.decode_encode h, KeyPrefix.decode_encode h]
  show Yields ((compareEncodedIDBKeys a.encode b.encode).map Prod.fst) a.rank b.rank
  rw [hx]
  exact yields_ok hdecides

theorem optionalSequenceNumber_encode (sequenceNumber : Int64) (rest : Bytes) :
    optionalSequenceNumber (encodeVarInt sequenceNumber ++ rest) = some (sequenceNumber, rest) := by
  have hempty := isEmpty_append_left (varIntBytes_ne_nil sequenceNumber.toUInt64.toNat) rest
  rw [← encodeVarInt] at hempty
  rw [optionalSequenceNumber, hempty, decodeVarInt_encodeVarInt]
  rfl

theorem comparePrimaryKeys_encode {a b : EncodedKey} (hA : a.Comparable) (hB : b.Comparable)
    {sequenceNumberA sequenceNumberB : Int64} (hseqA : 0 ≤ sequenceNumberA) (hseqB : 0 ≤ sequenceNumberB) :
    ∃ x, comparePrimaryKeys (encodeVarInt sequenceNumberA ++ a.encode) (encodeVarInt sequenceNumberB ++ b.encode) =
      .ok x ∧ Decides x (a.rank ++ [sequenceNumberA.toInt]) (b.rank ++ [sequenceNumberB.toInt]) := by
  obtain ⟨x, ptrA, ptrB, hx, hdecides, _⟩ := orders_encode hA.valid hB.valid hA.notNaN hB.notNaN [] []
  have hemptyA := isEmpty_append_left a.encode_ne_nil []
  have hemptyB := isEmpty_append_left b.encode_ne_nil []
  rw [List.append_nil] at hemptyA hemptyB
  rw [List.append_nil, List.append_nil] at hx
  refine ⟨_, ?_, hdecides.append (decides_compareInts hseqA hseqB)⟩
  rw [comparePrimaryKeys, optionalSequenceNumber_encode, optionalSequenceNumber_encode]
  simp only [hemptyA, hemptyB, Bool.false_eq_true, false_and, if_false, hx]
  rfl

theorem compareIndexDataKeys_encode {keyPrefix : KeyPrefix} (h : keyPrefix.Encodable) {a b : IndexEntry}
    (hA : a.Valid) (hB : b.Valid) :
    Yields (compareIndexDataKeys (keyPrefix.encode ++ a.encode) (keyPrefix.encode ++ b.encode) false) a.rank b.rank := by
  obtain ⟨x, ptrA, ptrB, hx, hdecides, hrest⟩ := orders_encode hA.userKey.valid hB.userKey.valid hA.userKey.notNaN
    hB.userKey.notNaN (encodeVarInt a.sequenceNumber ++ a.primaryKey.encode)
    (encodeVarInt b.sequenceNumber ++ b.primaryKey.encode)
  rw [compareIndexDataKeys, KeyPrefix.decode_encode h, KeyPrefix.decode_encode h, IndexEntry.encode, IndexEntry.encode]
  simp only [hx]
  by_cases hzero : x = 0
  · obtain ⟨rfl, rfl⟩ := hrest hzero
    obtain ⟨y, hy, hdecides'⟩ := comparePrimaryKeys_encode hA.primaryKey hB.primaryKey hA.sequenceNumber hB.sequenceNumber
    rw [if_neg (not_not.mpr hzero), if_neg (by decide), hy]
    exact yields_ok (hdecides.append_of_eq hzero hdecides')
  · rw [if_pos hzero]
    exact yields_ok (hdecides.append_of_ne hzero _ _)

theorem IndexEntry.encode_ne_nil (entry : IndexEntry) : entry.encode ≠ [] := by
  rw [IndexEntry.encode]
  exact List.append_ne_nil_of_left_ne_nil entry.userKey.encode_ne_nil _

theorem IndexEntry.rank_ne_nil (entry : IndexEntry) : entry.rank ≠ [] := by
  rw [IndexEntry.rank]
  exact List.append_ne_nil_of_left_ne_nil entry.userKey.rank_ne_nil _

/-! ## All keys -/

namespace Key

/-- The class of a key; a prefix without an index is in none. -/
def type : Key → KeyPrefix.PrefixType
  | globalMetaData _ => .globalMetaData
  | databaseMetaData _ _ => .databaseMetaData
  | objectStore _ _ => .invalidType
  | objectStoreData _ _ _ => .objectStoreData
  | existsEntry _ _ _ => .existsEntry
  | indexData _ _ _ _ => .indexData

theorem type_keyPrefix {key : Key} (h : key.Valid) : key.keyPrefix.type = key.type := by
  have hne : ∀ {n : Int64}, 0 < n → n ≠ 0 := fun hpos heq => absurd (heq ▸ hpos) (by decide)
  cases key with
  | globalMetaData key => rfl
  | databaseMetaData databaseId key =>
    rw [keyPrefix, KeyPrefix.type, if_neg (hne (KeyPrefix.databaseId_pos h.1)), if_pos rfl]
    rfl
  | objectStore databaseId objectStoreId =>
    rw [keyPrefix, KeyPrefix.type, if_neg (hne (KeyPrefix.databaseId_pos h.1)),
      if_neg (hne (KeyPrefix.objectStoreId_pos h.2))]
    rfl
  | objectStoreData databaseId objectStoreId userKey =>
    rw [keyPrefix, KeyPrefix.type, if_neg (hne (KeyPrefix.databaseId_pos h.1)),
      if_neg (hne (KeyPrefix.objectStoreId_pos h.2.1))]
    rfl
  | existsEntry databaseId objectStoreId userKey =>
    rw [keyPrefix, KeyPrefix.type, if_neg (hne (KeyPrefix.databaseId_pos h.1)),
      if_neg (hne (KeyPrefix.objectStoreId_pos h.2.1))]
    rfl
  | indexData databaseId objectStoreId indexId entry =>
    have hge := (KeyPrefix.indexId_ge h.2.2.1).1
    have hone : indexId ≠ ObjectStoreDataIndexId := fun heq => absurd (heq ▸ hge) (by decide)
    have htwo : indexId ≠ ExistsEntryIndexId := fun heq => absurd (heq ▸ hge) (by decide)
    rw [keyPrefix, KeyPrefix.type, if_neg (hne (KeyPrefix.databaseId_pos h.1)),
      if_neg (hne (KeyPrefix.objectStoreId_pos h.2.1)), if_neg hone, if_neg htwo, if_pos hge]
    rfl

end Key

section

variable {keyPrefix : KeyPrefix} (h : keyPrefix.Encodable)
include h

theorem yields_optionalUserKeys {a b : Option EncodedKey} (hA : ∀ key ∈ a, key.Comparable)
    (hB : ∀ key ∈ b, key.Comparable) :
    Yields (compareOptionalUserKeys (a.elim [] EncodedKey.encode) (b.elim [] EncodedKey.encode)
      (compareUserKeys (keyPrefix.encode ++ a.elim [] EncodedKey.encode)
        (keyPrefix.encode ++ b.elim [] EncodedKey.encode))) (a.elim [] EncodedKey.rank) (b.elim [] EncodedKey.rank) := by
  apply compareOptionalUserKeys_encode EncodedKey.encode_ne_nil EncodedKey.rank_ne_nil
  intro keyA hmemA keyB hmemB
  have hkeys := compareUserKeys_encode h (hA keyA hmemA) (hB keyB hmemB)
  rw [Option.mem_def.mp hmemA, Option.mem_def.mp hmemB]
  exact hkeys

theorem yields_optionalEntries {a b : Option IndexEntry} (hA : ∀ entry ∈ a, entry.Valid)
    (hB : ∀ entry ∈ b, entry.Valid) :
    Yields (compareOptionalUserKeys (a.elim [] IndexEntry.encode) (b.elim [] IndexEntry.encode)
      (compareIndexDataKeys (keyPrefix.encode ++ a.elim [] IndexEntry.encode)
        (keyPrefix.encode ++ b.elim [] IndexEntry.encode) false))
      (a.elim [] IndexEntry.rank) (b.elim [] IndexEntry.rank) := by
  apply compareOptionalUserKeys_encode IndexEntry.encode_ne_nil IndexEntry.rank_ne_nil
  intro entryA hmemA entryB hmemB
  have hentries := compareIndexDataKeys_encode h (hA entryA hmemA) (hB entryB hmemB)
  rw [Option.mem_def.mp hmemA, Option.mem_def.mp hmemB]
  exact hentries

end

@[elab_as_elim]
theorem Key.sameClass {P : ∀ a b : Key, a.type = b.type → Prop}
    (globalMetaData : ∀ a b, P (.globalMetaData a) (.globalMetaData b) rfl)
    (databaseMetaData : ∀ id a id' b, P (.databaseMetaData id a) (.databaseMetaData id' b) rfl)
    (objectStore : ∀ id storeId id' storeId', P (.objectStore id storeId) (.objectStore id' storeId') rfl)
    (objectStoreData : ∀ id storeId a id' storeId' b,
      P (.objectStoreData id storeId a) (.objectStoreData id' storeId' b) rfl)
    (existsEntry : ∀ id storeId a id' storeId' b, P (.existsEntry id storeId a) (.existsEntry id' storeId' b) rfl)
    (indexData : ∀ id storeId indexId a id' storeId' indexId' b,
      P (.indexData id storeId indexId a) (.indexData id' storeId' indexId' b) rfl)
    (a b : Key) (h : a.type = b.type) : P a b h := by
  cases a with
  | globalMetaData a =>
    cases b with
    | globalMetaData b => exact globalMetaData a b
    | _ => exact absurd h (by simp [Key.type])
  | databaseMetaData id a =>
    cases b with
    | databaseMetaData id' b => exact databaseMetaData id a id' b
    | _ => exact absurd h (by simp [Key.type])
  | objectStore id storeId =>
    cases b with
    | objectStore id' storeId' => exact objectStore id storeId id' storeId'
    | _ => exact absurd h (by simp [Key.type])
  | objectStoreData id storeId a =>
    cases b with
    | objectStoreData id' storeId' b => exact objectStoreData id storeId a id' storeId' b
    | _ => exact absurd h (by simp [Key.type])
  | existsEntry id storeId a =>
    cases b with
    | existsEntry id' storeId' b => exact existsEntry id storeId a id' storeId' b
    | _ => exact absurd h (by simp [Key.type])
  | indexData id storeId indexId a =>
    cases b with
    | indexData id' storeId' indexId' b => exact indexData id storeId indexId a id' storeId' indexId' b
    | _ => exact absurd h (by simp [Key.type])

theorem Key.type_eq {a b : Key} (hA : a.Valid) (hB : b.Valid) (h : a.keyPrefix = b.keyPrefix) : a.type = b.type := by
  rw [← Key.type_keyPrefix hA, ← Key.type_keyPrefix hB, h]

theorem compareSlices_same_prefix {a b : Key} (hA : a.Valid) (hB : b.Valid) (h : a.keyPrefix = b.keyPrefix) :
    Yields (compareSlices a.encode b.encode false) a.fieldsRank b.fieldsRank := by
  have hencodable := hA.encodable
  have htypeA := Key.type_keyPrefix hA
  have htype := Key.type_eq hA hB h
  have hzero : a.keyPrefix.compare a.keyPrefix = 0 := by simp [KeyPrefix.compare]
  have hencodeA := a.encode_eq
  have hencodeB := b.encode_eq
  rw [← h] at hencodeB
  have hdecodeA : KeyPrefix.decode a.encode = some (a.keyPrefix, a.body) := by
    rw [hencodeA, KeyPrefix.decode_encode hencodable]
  have hdecodeB : KeyPrefix.decode b.encode = some (a.keyPrefix, b.body) := by
    rw [hencodeB, KeyPrefix.decode_encode hencodable]
  rw [compareSlices]
  simp only [hdecodeA, hdecodeB, hzero, htypeA, ne_eq, not_true_eq_false, if_false]
  induction a, b, htype using Key.sameClass with
  | globalMetaData a b => exact compareGlobalMetaData_encode hA hB
  | databaseMetaData id a id' b =>
    have heq : id = id' := congrArg KeyPrefix.databaseId h
    rw [← heq]
    exact compareDatabaseMetaData_encode (Int64.le_of_lt (KeyPrefix.databaseId_pos hA.1)) hA.2 hB.2
  | objectStore id storeId id' storeId' => exact ⟨0, Or.inr ⟨rfl, rfl⟩, rfl⟩
  | objectStoreData id storeId a id' storeId' b =>
    rw [hencodeA, hencodeB]
    exact yields_optionalUserKeys hencodable hA.2.2 hB.2.2
  | existsEntry id storeId a id' storeId' b =>
    rw [hencodeA, hencodeB]
    exact yields_optionalUserKeys hencodable hA.2.2 hB.2.2
  | indexData id storeId indexId a id' storeId' indexId' b =>
    rw [hencodeA, hencodeB]
    exact yields_optionalEntries hencodable hA.2.2.2 hB.2.2.2

/-- **The comparator realises the order of the ranks** on all keys. -/
theorem compare_encode {a b : Key} (hA : a.Valid) (hB : b.Valid) :
    ∃ x, compare a.encode b.encode false = some x ∧ orderingOf x = lexOrder a.rank b.rank := by
  have hids := KeyPrefix.decides_compare hA.encodable hB.encodable
  by_cases hzero : a.keyPrefix.compare b.keyPrefix = 0
  · have heq := KeyPrefix.compare_eq_zero hA.encodable hB.encodable hzero
    obtain ⟨x, hx, horder⟩ := compareSlices_same_prefix hA hB heq
    refine ⟨x, ?_, ?_⟩
    · rcases hx with hx | ⟨hx, rfl⟩
      · rw [compare, hx]
      · rw [compare, hx]
    · rw [Key.rank, Key.rank, hids, hzero, horder]
      rfl
  · refine ⟨a.keyPrefix.compare b.keyPrefix, ?_, (hids.append_of_ne hzero _ _).orderingOf_eq⟩
    rw [compare, compareSlices, a.encode_eq, b.encode_eq, KeyPrefix.decode_encode hA.encodable,
      KeyPrefix.decode_encode hB.encodable]
    simp only [ne_eq, hzero, not_false_eq_true, if_true]

end WebKit.WebCore.IDBLevelDBCoding
