import WebKit.WebCore.IDBLevelDBKeyOrder

/-!
# The comparator is a total order

Keys with equal ranks have equal fields (`Key.sameFields_of_rank`), and ranks are ordered lexicographically, so the
comparator is a total order of the keys (`Key.comparator`) in which the keys under one prefix stay together
(`Key.keyPrefix_between`). `idb_comparator_is_total_order` collects this.
-/

namespace WebKit.WebCore.IDBLevelDBCoding

open WebKit.Lib WebKit.WTF

/-! ## Ties -/

def EncodedKey.Same : EncodedKey → EncodedKey → Prop
  | minKey, minKey => True
  | idbKey key, idbKey key' => key.Same key'
  | maxKey, maxKey => True
  | _, _ => False

structure IndexEntry.Same (a b : IndexEntry) : Prop where
  userKey : a.userKey.Same b.userKey
  primaryKey : a.primaryKey.Same b.primaryKey
  sequenceNumber : a.sequenceNumber = b.sequenceNumber

/-- Keys of one class with equal fields; user keys and primary keys are the same as keys. -/
def Key.SameFields : Key → Key → Prop
  | globalMetaData a, globalMetaData b => a = b
  | databaseMetaData id a, databaseMetaData id' b => id = id' ∧ a = b
  | objectStore id storeId, objectStore id' storeId' => id = id' ∧ storeId = storeId'
  | objectStoreData id storeId a, objectStoreData id' storeId' b =>
    id = id' ∧ storeId = storeId' ∧ Option.Rel EncodedKey.Same a b
  | existsEntry id storeId a, existsEntry id' storeId' b =>
    id = id' ∧ storeId = storeId' ∧ Option.Rel EncodedKey.Same a b
  | indexData id storeId indexId a, indexData id' storeId' indexId' b =>
    id = id' ∧ storeId = storeId' ∧ indexId = indexId' ∧ Option.Rel IndexEntry.Same a b
  | _, _ => False

theorem EncodedKey.same_of_rank {a b : EncodedKey} (hA : a.Comparable) (hB : b.Comparable) {rest rest' : List Int}
    (h : a.rank ++ rest = b.rank ++ rest') : a.Same b ∧ rest = rest' := by
  have htype : a.type = b.type := by
    obtain ⟨tailA, hrankA⟩ := a.rank_eq_cons
    obtain ⟨tailB, hrankB⟩ := b.rank_eq_cons
    rw [hrankA, hrankB, List.cons_append, List.cons_append, List.cons.injEq] at h
    exact IDBKey.code_injective (neg_inj.mp h.1)
  cases a with
  | minKey =>
    cases b with
    | minKey => exact ⟨trivial, List.append_cancel_left h⟩
    | idbKey key => exact absurd htype.symm (EncodedKey.type_idbKey_ne hB.valid).1
    | maxKey => exact absurd htype (by decide)
  | idbKey key =>
    cases b with
    | minKey => exact absurd htype (EncodedKey.type_idbKey_ne hA.valid).1
    | idbKey key' =>
      obtain ⟨hzero, hrest⟩ := (IDBKey.decides_rank hA.notNaN hB.notNaN).of_append_eq h
      exact ⟨IDBKey.same_of_compare hA.notNaN hB.notNaN hzero, hrest⟩
    | maxKey => exact absurd htype (EncodedKey.type_idbKey_ne hA.valid).2
  | maxKey =>
    cases b with
    | minKey => exact absurd htype (by decide)
    | idbKey key => exact absurd htype.symm (EncodedKey.type_idbKey_ne hB.valid).2
    | maxKey => exact ⟨trivial, List.append_cancel_left h⟩

theorem IndexEntry.same_of_rank {a b : IndexEntry} (hA : a.Valid) (hB : b.Valid) (h : a.rank = b.rank) : a.Same b := by
  rw [IndexEntry.rank, IndexEntry.rank] at h
  obtain ⟨huser, hrest⟩ := EncodedKey.same_of_rank hA.userKey hB.userKey h
  obtain ⟨hprimary, hsequence⟩ := EncodedKey.same_of_rank hA.primaryKey hB.primaryKey hrest
  rw [List.cons.injEq, Int64.toInt_inj] at hsequence
  exact ⟨huser, hprimary, hsequence.1⟩

theorem optionRel_of_rank {α : Type} {rank : α → List Int} {same : α → α → Prop} (hrank : ∀ a, rank a ≠ [])
    {a b : Option α} (hsame : ∀ x ∈ a, ∀ y ∈ b, rank x = rank y → same x y) (h : a.elim [] rank = b.elim [] rank) :
    Option.Rel same a b := by
  cases a with
  | none =>
    cases b with
    | none => exact Option.Rel.none
    | some y => exact absurd h.symm (hrank y)
  | some x =>
    cases b with
    | none => exact absurd h (hrank x)
    | some y => exact Option.Rel.some (hsame x rfl y rfl h)

theorem rankText_append_inj {s t : List UChar} {rest rest' : List Int}
    (h : IDBKey.rankText s ++ rest = IDBKey.rankText t ++ rest') : s = t ∧ rest = rest' := by
  obtain ⟨hzero, hrest⟩ := (IDBKey.decides_rankText s t).of_append_eq h
  exact ⟨IDBKey.codePointCompare_eq_zero hzero, hrest⟩

theorem rankText_inj {s t : List UChar} (h : IDBKey.rankText s = IDBKey.rankText t) : s = t :=
  (rankText_append_inj (congrArg (· ++ []) h)).1

theorem GlobalKey.eq_of_rank {a b : GlobalKey} (htype : a.typeByte = b.typeByte) (h : a.fieldsRank = b.fieldsRank) :
    a = b := by
  induction a, b, htype using GlobalKey.sameClass with
  | schemaVersion => rfl
  | maxDatabaseId => rfl
  | dataVersion => rfl
  | databaseFreeList databaseId databaseId' =>
    rw [fieldsRank, fieldsRank, List.cons.injEq, Int64.toInt_inj] at h
    rw [h.1]
  | databaseName origin name origin' name' =>
    obtain ⟨horigin, hname⟩ := rankText_append_inj h
    rw [horigin, rankText_inj hname]

theorem DatabaseKey.eq_of_rank {a b : DatabaseKey} (htype : a.typeByte = b.typeByte)
    (h : a.fieldsRank = b.fieldsRank) : a = b := by
  induction a, b, htype using DatabaseKey.sameClass with
  | metaData metaDataType => rfl
  | objectStoreMetaData id type id' type' =>
    simp only [fieldsRank, List.cons_append, List.nil_append, List.cons.injEq, Int64.toInt_inj, and_true,
      Int.natCast_inj, UInt8.toNat_inj] at h
    rw [h.1, h.2]
  | indexMetaData id indexId type id' indexId' type' =>
    simp only [fieldsRank, List.cons_append, List.nil_append, List.cons.injEq, Int64.toInt_inj, and_true,
      Int.natCast_inj, UInt8.toNat_inj] at h
    rw [h.1, h.2.1, h.2.2]
  | objectStoreFreeList id id' =>
    simp only [fieldsRank, List.cons.injEq, Int64.toInt_inj, and_true] at h
    rw [h]
  | indexFreeList id indexId id' indexId' =>
    simp only [fieldsRank, List.cons_append, List.nil_append, List.cons.injEq, Int64.toInt_inj, and_true] at h
    rw [h.1, h.2]
  | objectStoreNames name name' => rw [rankText_inj h]
  | indexNames id name id' name' =>
    rw [fieldsRank, fieldsRank, List.cons_append, List.cons_append, List.cons.injEq, Int64.toInt_inj] at h
    rw [h.1, rankText_inj h.2]

theorem Key.sameFields_of_rank {a b : Key} (hA : a.Valid) (hB : b.Valid) (h : a.rank = b.rank) : a.SameFields b := by
  obtain ⟨hzero, hfields⟩ := (KeyPrefix.decides_compare hA.encodable hB.encodable).of_append_eq h
  have hids := KeyPrefix.compare_eq_zero hA.encodable hB.encodable hzero
  induction a, b, Key.type_eq hA hB hids using Key.sameClass with
  | globalMetaData a b =>
    rw [fieldsRank, fieldsRank, List.cons.injEq, Int.natCast_inj, UInt8.toNat_inj] at hfields
    exact GlobalKey.eq_of_rank hfields.1 hfields.2
  | databaseMetaData id a id' b =>
    rw [fieldsRank, fieldsRank, List.cons.injEq, Int.natCast_inj, UInt8.toNat_inj] at hfields
    exact ⟨congrArg KeyPrefix.databaseId hids, DatabaseKey.eq_of_rank hfields.1 hfields.2⟩
  | objectStore id storeId id' storeId' =>
    exact ⟨congrArg KeyPrefix.databaseId hids, congrArg KeyPrefix.objectStoreId hids⟩
  | objectStoreData id storeId a id' storeId' b =>
    refine ⟨congrArg KeyPrefix.databaseId hids, congrArg KeyPrefix.objectStoreId hids, ?_⟩
    refine optionRel_of_rank EncodedKey.rank_ne_nil (fun x hx y hy hrank => ?_) hfields
    exact (EncodedKey.same_of_rank (hA.2.2 x hx) (hB.2.2 y hy) (congrArg (· ++ []) hrank)).1
  | existsEntry id storeId a id' storeId' b =>
    refine ⟨congrArg KeyPrefix.databaseId hids, congrArg KeyPrefix.objectStoreId hids, ?_⟩
    refine optionRel_of_rank EncodedKey.rank_ne_nil (fun x hx y hy hrank => ?_) hfields
    exact (EncodedKey.same_of_rank (hA.2.2 x hx) (hB.2.2 y hy) (congrArg (· ++ []) hrank)).1
  | indexData id storeId indexId a id' storeId' indexId' b =>
    refine ⟨congrArg KeyPrefix.databaseId hids, congrArg KeyPrefix.objectStoreId hids,
      congrArg KeyPrefix.indexId hids, ?_⟩
    exact optionRel_of_rank IndexEntry.rank_ne_nil
      (fun x hx y hy hrank => IndexEntry.same_of_rank (hA.2.2.2 x hx) (hB.2.2.2 y hy) hrank) hfields

/-! ## The order -/

/-- `compare(a, b, false)` of two keys. -/
def Key.compare (a b : Key) : Int := (IDBLevelDBCoding.compare a.encode b.encode false).getD 0

theorem Key.compare_encode {a b : Key} (hA : a.Valid) (hB : b.Valid) :
    IDBLevelDBCoding.compare a.encode b.encode false = some (a.compare b) ∧
    orderingOf (a.compare b) = lexOrder a.rank b.rank := by
  obtain ⟨x, hx, horder⟩ := IDBLevelDBCoding.compare_encode hA hB
  rw [Key.compare, hx]
  exact ⟨rfl, horder⟩

/-- Of two keys under different prefixes the one under the lesser prefix comes first. -/
theorem Key.compare_neg_of_prefix {a b : Key} (hA : a.Valid) (hB : b.Valid)
    (h : lexOrder a.keyPrefix.rank b.keyPrefix.rank = .lt) : a.compare b < 0 := by
  have hids := KeyPrefix.decides_compare hA.encodable hB.encodable
  have hlt : orderingOf (a.keyPrefix.compare b.keyPrefix) = .lt := by rw [hids.orderingOf_eq, h]
  rw [← orderingOf_eq_lt, (Key.compare_encode hA hB).2, Key.rank, Key.rank, hids, hlt]
  rfl

theorem Key.comparator : Comparator Key.Valid Key.compare :=
  Comparator.ofRank Key.rank fun _ _ hA hB => (Key.compare_encode hA hB).2

theorem Key.keyPrefix_between {a b c : Key} (hA : a.Valid) (hB : b.Valid) (hC : c.Valid)
    (h : a.keyPrefix = c.keyPrefix) (hab : a.compare b ≤ 0) (hbc : b.compare c ≤ 0) : b.keyPrefix = a.keyPrefix := by
  cases horder : lexOrder b.keyPrefix.rank a.keyPrefix.rank with
  | lt =>
    have hba := Key.compare_neg_of_prefix hB hA horder
    have hswap := Key.comparator.antisymm a b hA hB
    rw [orderingOf_eq_lt.mpr hba] at hswap
    exact absurd (orderingOf_eq_gt.mp hswap) (Int.not_lt.mpr hab)
  | eq => exact KeyPrefix.eq_of_rank horder
  | gt =>
    have hlt : lexOrder c.keyPrefix.rank b.keyPrefix.rank = (lexOrder b.keyPrefix.rank c.keyPrefix.rank).swap :=
      Std.OrientedCmp.eq_swap
    rw [← h, horder] at hlt
    have hcb := Key.compare_neg_of_prefix hC hB (h ▸ hlt)
    have hswap := Key.comparator.antisymm b c hB hC
    rw [orderingOf_eq_lt.mpr hcb] at hswap
    exact absurd (orderingOf_eq_gt.mp hswap) (Int.not_lt.mpr hbc)

theorem Key.sameFields_of_compare {a b : Key} (hA : a.Valid) (hB : b.Valid) (h : a.compare b = 0) :
    a.SameFields b := by
  have horder := (Key.compare_encode hA hB).2
  rw [h, orderingOf_zero] at horder
  exact Key.sameFields_of_rank hA hB (lexOrder_eq.mp horder.symm)

theorem compareEncodedIDBKeys_encode {a b : EncodedKey} (hA : a.Comparable) (hB : b.Comparable) :
    ∃ x ptrA ptrB, compareEncodedIDBKeys a.encode b.encode = .ok (x, ptrA, ptrB) ∧
      orderingOf x = lexOrder a.rank b.rank := by
  obtain ⟨x, ptrA, ptrB, hx, hdecides, _⟩ := orders_encode hA.valid hB.valid hA.notNaN hB.notNaN [] []
  rw [List.append_nil, List.append_nil] at hx
  exact ⟨x, ptrA, ptrB, hx, hdecides.orderingOf_eq⟩

theorem code_between {type : IDBKey.KeyType} (hmin : type ≠ .minType) (hinvalid : type ≠ .invalidType) :
    -IDBKey.KeyType.minType.code < -type.code ∧ -type.code < -IDBKey.KeyType.invalidType.code := by
  cases type with
  | invalidType => exact absurd rfl hinvalid
  | minType => exact absurd rfl hmin
  | _ => decide

theorem lexOrder_bounds {key : IDBKey} (h : (EncodedKey.idbKey key).Valid) :
    lexOrder EncodedKey.minKey.rank key.rank = .lt ∧ lexOrder key.rank EncodedKey.maxKey.rank = .lt := by
  obtain ⟨tail, hrank⟩ := IDBKey.rank_eq_cons key
  obtain ⟨hmin, hinvalid⟩ := EncodedKey.type_idbKey_ne h
  obtain ⟨hlow, hhigh⟩ := code_between hmin hinvalid
  rw [hrank]
  exact ⟨lexOrder_cons_of_lt hlow _ _, lexOrder_cons_of_lt hhigh _ _⟩

/-- A key that can be stored and ordered: its strings and arrays have lengths, and its numbers are numbers. -/
structure IDBKey.Storable (key : IDBKey) : Prop where
  isValid : key.isValid = true
  fits : key.Every IDBKey.LengthFits
  notNaN : key.Every IDBKey.NotNaN

theorem IDBKey.Storable.comparable {key : IDBKey} (h : IDBKey.Storable key) : (EncodedKey.idbKey key).Comparable :=
  ⟨⟨h.isValid, h.fits⟩, h.notNaN⟩

/-- **The LevelDB comparator is a total order that realises the order of `IDBKey`.** Encoded keys are compared as
`IDBKey::compare` compares the keys, between the two bounds. The keys of all classes are totally ordered, those under
one prefix stay together, in the order of the ids, and only keys with equal fields tie. -/
theorem idb_comparator_is_total_order :
    (∀ a b : IDBKey, IDBKey.Storable a → IDBKey.Storable b → ∃ x ptrA ptrB,
      compareEncodedIDBKeys (encodeIDBKey a) (encodeIDBKey b) = .ok (x, ptrA, ptrB) ∧
      orderingOf x = orderingOf (a.compare b)) ∧
    (∀ a : IDBKey, IDBKey.Storable a →
      (∃ x ptrA ptrB, compareEncodedIDBKeys minIDBKey (encodeIDBKey a) = .ok (x, ptrA, ptrB) ∧ x < 0) ∧
      (∃ x ptrA ptrB, compareEncodedIDBKeys (encodeIDBKey a) minIDBKey = .ok (x, ptrA, ptrB) ∧ 0 < x) ∧
      (∃ x ptrA ptrB, compareEncodedIDBKeys (encodeIDBKey a) maxIDBKey = .ok (x, ptrA, ptrB) ∧ x < 0) ∧
      ∃ x ptrA ptrB, compareEncodedIDBKeys maxIDBKey (encodeIDBKey a) = .ok (x, ptrA, ptrB) ∧ 0 < x) ∧
    (∀ a b : Key, a.Valid → b.Valid → compare a.encode b.encode false = some (a.compare b)) ∧
    Comparator Key.Valid Key.compare ∧
    (∀ a b : Key, a.Valid → b.Valid → lexOrder a.keyPrefix.rank b.keyPrefix.rank = .lt → a.compare b < 0) ∧
    (∀ a b c : Key, a.Valid → b.Valid → c.Valid → a.keyPrefix = c.keyPrefix → a.compare b ≤ 0 → b.compare c ≤ 0 →
      b.keyPrefix = a.keyPrefix) ∧
    ∀ a b : Key, a.Valid → b.Valid → a.compare b = 0 → a.SameFields b := by
  refine ⟨?_, ?_, fun a b hA hB => (Key.compare_encode hA hB).1, Key.comparator,
    fun a b hA hB => Key.compare_neg_of_prefix hA hB, fun a b c hA hB hC => Key.keyPrefix_between hA hB hC,
    fun a b hA hB => Key.sameFields_of_compare hA hB⟩
  · intro a b hA hB
    obtain ⟨x, ptrA, ptrB, hx, horder⟩ := compareEncodedIDBKeys_encode hA.comparable hB.comparable
    refine ⟨x, ptrA, ptrB, hx, ?_⟩
    rw [horder, (IDBKey.decides_rank hA.notNaN hB.notNaN).orderingOf_eq]
    rfl
  · intro a hA
    have hbound : ∀ bound : EncodedKey, bound = .minKey ∨ bound = .maxKey → bound.Comparable := by
      rintro bound (rfl | rfl)
      · exact ⟨trivial, trivial⟩
      · exact ⟨trivial, trivial⟩
    obtain ⟨hlow, hhigh⟩ := lexOrder_bounds hA.comparable.valid
    have hlow' : lexOrder a.rank EncodedKey.minKey.rank = (lexOrder EncodedKey.minKey.rank a.rank).swap :=
      Std.OrientedCmp.eq_swap
    have hhigh' : lexOrder EncodedKey.maxKey.rank a.rank = (lexOrder a.rank EncodedKey.maxKey.rank).swap :=
      Std.OrientedCmp.eq_swap
    rw [hlow] at hlow'
    rw [hhigh] at hhigh'
    refine ⟨?_, ?_, ?_, ?_⟩
    · obtain ⟨x, ptrA, ptrB, hx, horder⟩ := compareEncodedIDBKeys_encode (hbound .minKey (Or.inl rfl)) hA.comparable
      exact ⟨x, ptrA, ptrB, hx, orderingOf_eq_lt.mp (horder.trans hlow)⟩
    · obtain ⟨x, ptrA, ptrB, hx, horder⟩ := compareEncodedIDBKeys_encode hA.comparable (hbound .minKey (Or.inl rfl))
      exact ⟨x, ptrA, ptrB, hx, orderingOf_eq_gt.mp (horder.trans hlow')⟩
    · obtain ⟨x, ptrA, ptrB, hx, horder⟩ := compareEncodedIDBKeys_encode hA.comparable (hbound .maxKey (Or.inr rfl))
      exact ⟨x, ptrA, ptrB, hx, orderingOf_eq_lt.mp (horder.trans hhigh)⟩
    · obtain ⟨x, ptrA, ptrB, hx, horder⟩ := compareEncodedIDBKeys_encode (hbound .maxKey (Or.inr rfl)) hA.comparable
      exact ⟨x, ptrA, ptrB, hx, orderingOf_eq_gt.mp (horder.trans hhigh')⟩

/-- The index entry with the array `["a", 0.0]` as its key comes behind the names of the indexes of its database. -/
theorem idb_comparator_is_total_order_index_entry :
    (∃ x ptrA ptrB, compareEncodedIDBKeys minIDBKey (encodeIDBKey (.array [.string [97], .number ⟨0⟩])) =
      .ok (x, ptrA, ptrB) ∧ x < 0) ∧
    Key.compare (.databaseMetaData 1 (.indexNames 1 [97]))
      (.indexData 1 1 30 (some ⟨.idbKey (.array [.string [97], .number ⟨0⟩]), .minKey, 0⟩)) < 0 := by
  have hkey : IDBKey.Storable (.array [.string [97], .number ⟨0⟩]) := by
    constructor
    · decide
    · simp [IDBKey.Every, IDBKey.EveryItem, IDBKey.LengthFits]
    · simp [IDBKey.Every, IDBKey.EveryItem, IDBKey.NotNaN]
      decide
  have hname : Key.Valid (.databaseMetaData 1 (.indexNames 1 [97])) := by
    refine ⟨by decide +kernel, (show (0 : Int64) ≤ 1 by decide), (show [97].length < 2 ^ 32 by decide)⟩
  have hentry : Key.Valid (.indexData 1 1 30 (some ⟨.idbKey (.array [.string [97], .number ⟨0⟩]), .minKey, 0⟩)) := by
    refine ⟨by decide +kernel, by decide +kernel, by decide +kernel, ?_⟩
    rintro entry ⟨⟩
    exact ⟨hkey.comparable, ⟨trivial, trivial⟩, (show (0 : Int64) ≤ 0 by decide)⟩
  have h := idb_comparator_is_total_order
  exact ⟨(h.2.1 _ hkey).1, h.2.2.2.2.1 _ _ hname hentry (by decide)⟩

end WebKit.WebCore.IDBLevelDBCoding
