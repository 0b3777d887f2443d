import WebKit.WTF.HashTableSearch

/-!
# What holds of a hash table

`Filled T t table`: the buckets of `t` are `table`, they are indexed, and the counters are the numbers of live and of
deleted buckets. `Inv T t` adds the bounds on the load: less than half of the buckets are in use, and a table of more than
the least size has a value for every six buckets. It is what `checkTableConsistency` looks for (`Inv.consistent`).

Rehashing keeps the values and drops the deleted buckets (`rehash_spec`). From it we obtain what the two ends of an
operation do to the load: `expandIfNeeded_spec` and `shrinkIfNeeded_spec`.
-/

namespace WebKit.WTF

namespace HashTable

variable {Key Value : Type} (T : HashTraits Key Value)

/-- The buckets of `t`. -/
structure Filled (t : HashTable Value) (table : List (Bucket Value)) : Prop where
  table_eq : t.table = some table
  tableSize_eq : t.tableSize = table.length
  tableSizeMask_eq : t.tableSizeMask = table.length - 1
  keyCount_eq : t.keyCount = table.countP Bucket.isLive
  deletedCount_eq : t.deletedCount = table.countP Bucket.isDeletedBucket
  indexed : Indexed T table
  minimumTableSize_le : T.minimumTableSize ≤ table.length

/-- Fewer buckets are in use than would make the table expand, more hold a value than would make it shrink, and the
load is an `int`. -/
structure Loaded (table : List (Bucket Value)) : Prop where
  sparse : (table.countP Bucket.isLive + table.countP Bucket.isDeletedBucket) * 2 < table.length
  dense : table.length ≤ T.minimumTableSize ∨ table.length ≤ table.countP Bucket.isLive * 6
  load_lt : table.countP Bucket.isLive * 6 < 2 ^ 31

/-- There are no buckets, or the counters and the load are right. -/
inductive Inv (t : HashTable Value) : Prop
  | null (table_eq : t.table = none) (tableSize_eq : t.tableSize = 0) (keyCount_eq : t.keyCount = 0)
  | filled (table : List (Bucket Value)) (filled : Filled T t table) (loaded : Loaded T table)

/-- No two of the values have the same key. -/
def Distinct (table : List (Bucket Value)) : Prop :=
  table.Pairwise fun a b => ∀ v w, a = .live v → b = .live w → T.extract v ≠ T.extract w

variable {T} {t : HashTable Value} {table : List (Bucket Value)}

theorem asInt_eq {x : Int} (hlower : -2 ^ 31 ≤ x) (hupper : x < 2 ^ 31) : asInt x = .ok x := if_pos ⟨hlower, hupper⟩

theorem asInt_error {x : Int} (h : 2 ^ 31 ≤ x) : asInt x = .error .overflow := if_neg fun h' => absurd h'.2 (by omega)

theorem length_le (h : Indexed T table) : table.length ≤ 2 ^ 30 := by
  obtain ⟨n, -, hn, hlength⟩ := h.length_eq
  rw [hlength]
  exact Nat.pow_le_pow_right (by decide) hn

/-- The size is a power of two. -/
theorem length_le_of_lt (h : Indexed T table) (hlt : table.length < 2 ^ 30) : table.length ≤ 2 ^ 29 := by
  obtain ⟨n, -, hn, hlength⟩ := h.length_eq
  rw [hlength] at hlt ⊢
  have hlt := (Nat.pow_lt_pow_iff_right (by decide)).1 hlt
  exact Nat.pow_le_pow_right (by decide) (by omega)

theorem even_length (h : Indexed T table) : ∃ half, table.length = 2 * half := by
  obtain ⟨n, hn, -, hlength⟩ := h.length_eq
  obtain ⟨m, rfl⟩ := Nat.exists_eq_succ_of_ne_zero (by omega : n ≠ 0)
  exact ⟨2 ^ m, hlength.trans Nat.pow_succ'⟩

theorem distinct (h : Indexed T table) : Distinct T table := by
  rw [Distinct, List.pairwise_iff_getElem]
  intro i j hi hj hij v w hv hw heq
  have := h.position_unique (by rw [List.getElem?_eq_getElem hi, hv]) (by rw [List.getElem?_eq_getElem hj, hw]) heq
  omega

/-! ## The load -/

theorem Filled.shouldExpand_eq (h : Filled T t table) :
    t.shouldExpand = .ok (decide (table.length ≤
      (table.countP Bucket.isLive + table.countP Bucket.isDeletedBucket) * 2)) := by
  have hlength := length_le h.indexed
  have hroom := h.indexed.room
  rw [shouldExpand, h.keyCount_eq, h.deletedCount_eq, h.tableSize_eq, asInt_eq (by omega) (by omega), ok_bind, maxLoad,
    asInt_eq (by omega) (by omega), ok_bind]
  refine congrArg Except.ok (decide_eq_decide.2 ?_)
  omega

theorem Filled.shouldShrink_eq (h : Filled T t table) (hload : table.countP Bucket.isLive * 6 < 2 ^ 31) :
    t.shouldShrink T = .ok (decide (table.countP Bucket.isLive * 6 < table.length ∧
      T.minimumTableSize < table.length)) := by
  rw [shouldShrink, h.keyCount_eq, h.tableSize_eq, minLoad, asInt_eq (by omega) (by omega), ok_bind]
  refine congrArg Except.ok ?_
  rw [← Bool.decide_and]
  refine decide_eq_decide.2 ?_
  omega

theorem Filled.shouldShrink_error (h : Filled T t table) (hload : 2 ^ 31 ≤ table.countP Bucket.isLive * 6) :
    t.shouldShrink T = .error .overflow := by
  rw [shouldShrink, h.keyCount_eq, minLoad, asInt_error (by omega)]
  rfl

theorem Filled.mustRehashInPlace_eq (h : Filled T t table) (hlength : table.length < 2 ^ 30)
    (hload : table.countP Bucket.isLive * 2 ≤ table.length) :
    t.mustRehashInPlace = .ok (decide (table.countP Bucket.isLive * 6 < table.length * 2)) := by
  have hle := length_le_of_lt h.indexed hlength
  rw [mustRehashInPlace, h.keyCount_eq, h.tableSize_eq, minLoad, asInt_eq (by omega) (by omega), ok_bind,
    asInt_eq (by omega) (by omega), ok_bind]
  refine congrArg Except.ok (decide_eq_decide.2 ?_)
  omega

/-- A table of 2 ^ 30 buckets does not expand: twice its size is not an `int`. -/
theorem Filled.mustRehashInPlace_error (h : Filled T t table) (hlength : table.length = 2 ^ 30) :
    t.mustRehashInPlace = .error .overflow := by
  rw [mustRehashInPlace, h.keyCount_eq, h.tableSize_eq, minLoad]
  by_cases hload : table.countP Bucket.isLive * 6 < 2 ^ 31
  · rw [asInt_eq (by omega) (by omega), ok_bind, asInt_error (by omega)]
    rfl
  · rw [asInt_error (by omega)]
    rfl

variable [DecidableEq Key]

/-! ## The check -/

theorem Filled.consistentExceptSize (h : Filled T t table) : t.ConsistentExceptSize T table := by
  obtain ⟨n, hn, -, hlength⟩ := h.indexed.length_eq
  have hfour : 2 ^ 2 ≤ 2 ^ n := Nat.pow_le_pow_right (by decide) hn
  refine ⟨fun j value hlive => find_of_live h.indexed h.table_eq h.tableSizeMask_eq hlive, h.keyCount_eq,
    h.deletedCount_eq, h.tableSize_eq, h.tableSize_eq ▸ h.minimumTableSize_le, ?_, ?_⟩
  · rw [h.tableSizeMask_eq]
    omega
  · rw [h.tableSize_eq, h.tableSizeMask_eq]
    omega

theorem Filled.consistent_iff (h : Filled T t table) : t.Consistent T ↔ Loaded T table := by
  constructor
  · rintro ⟨-, hexpand, hshrink⟩
    have hsome : t.table.isSome = true := by rw [h.table_eq]; rfl
    have hexpand := hexpand hsome
    rw [h.shouldExpand_eq, Except.ok.injEq, decide_eq_false_iff_not] at hexpand
    by_cases hload : table.countP Bucket.isLive * 6 < 2 ^ 31
    · rw [h.shouldShrink_eq hload, Except.ok.injEq, decide_eq_false_iff_not] at hshrink
      exact ⟨by omega, by omega, hload⟩
    · rw [h.shouldShrink_error (by omega)] at hshrink
      cases hshrink
  · rintro ⟨hsparse, hdense, hload⟩
    refine ⟨?_, ?_, ?_⟩
    · intro table' htable'
      obtain rfl := Option.some.inj (htable'.symm.trans h.table_eq)
      exact h.consistentExceptSize
    · rintro -
      rw [h.shouldExpand_eq, Except.ok.injEq, decide_eq_false_iff_not]
      omega
    · rw [h.shouldShrink_eq hload, Except.ok.injEq, decide_eq_false_iff_not]
      omega

/-- **The invariant is what is checked.** -/
theorem Inv.consistent (h : Inv T t) : t.Consistent T := by
  cases h with
  | null htable hsize hkeys =>
    refine ⟨fun table ht => ?_, fun hsome => ?_, ?_⟩
    · rw [htable] at ht
      cases ht
    · rw [htable] at hsome
      cases hsome
    · rw [shouldShrink, hkeys, hsize]
      rfl
  | filled table hfilled hloaded => exact hfilled.consistent_iff.2 hloaded

/-! ## Rehashing -/

theorem writeBucket_eq (ht : t.table = some table) {p : Nat} (hp : p < table.length) (bucket : Bucket Value) :
    t.writeBucket p bucket = .ok { t with table := some (table.set p bucket) } := by
  rw [writeBucket, buckets_eq ht, ok_bind, if_pos hp]
  rfl

omit [DecidableEq Key] in
theorem indexed_allocateTable {n : Nat} (htwo : 2 ≤ n) (hle : n ≤ 30) :
    Indexed T (allocateTable (2 ^ n) : List (Bucket Value)) := by
  have hlive : (allocateTable (2 ^ n) : List (Bucket Value)).countP Bucket.isLive = 0 := by
    rw [allocateTable, List.countP_replicate]
    rfl
  have hdeleted : (allocateTable (2 ^ n) : List (Bucket Value)).countP Bucket.isDeletedBucket = 0 := by
    rw [allocateTable, List.countP_replicate]
    rfl
  have hlength : (allocateTable (2 ^ n) : List (Bucket Value)).length = 2 ^ n := List.length_replicate
  refine ⟨⟨n, htwo, hle, hlength⟩, ?_, ?_⟩
  · rw [hlive, hdeleted, hlength]
    exact Nat.two_pow_pos n
  · intro p value h
    have := List.eq_of_mem_replicate (List.mem_of_getElem? h)
    cases this

theorem reinsert_spec (ht : t.table = some table) (hmask : t.tableSizeMask = table.length - 1) (h : Indexed T table)
    (hdeleted : table.countP Bucket.isDeletedBucket = 0) {value : Value} (habsent : Absent T table (T.extract value))
    (hroom : table.countP Bucket.isLive + 1 < table.length) :
    ∃ p, table[p]? = some .empty ∧ Indexed T (table.set p (.live value)) ∧
      t.reinsert T value = .ok ({ t with table := some (table.set p (.live value)) }, p) := by
  obtain ⟨p, v, deletedEntry, hlive, hkey, -⟩ | ⟨-, n, deletedEntry, hn, hpass, hempty, hpassed, hsearch⟩ :=
    search_spec h ht hmask (T.extract value)
  · exact absurd hkey (habsent p v hlive)
  · obtain rfl : deletedEntry = none := by
      refine Option.eq_none_iff_forall_not_mem.2 fun d hd => ?_
      have hpos := List.countP_pos_iff.2 ⟨_, List.mem_of_getElem? (hpassed d hd).1, isDeletedBucket_iff.2 rfl⟩
      omega
    have hlive := countP_set Bucket.isLive hempty (.live value)
    have hdel := countP_set Bucket.isDeletedBucket hempty (.live value)
    simp only [Bucket.isLive, Bucket.isDeletedBucket, if_true, Bool.false_eq_true, if_false, Nat.add_zero] at hlive hdel
    refine ⟨_, hempty, h.fill habsent hpass le_rfl hn hempty rfl (by omega), ?_⟩
    rw [reinsert, lookupForWriting, hsearch]
    simp only [ok_bind, Bool.false_eq_true, if_false, Option.getD_none, pure_bind]
    rw [writeBucket_eq ht (h.position_lt _ _)]
    rfl

/-- **The loop of `rehash`**: the values that are left are added to those of the new table. -/
theorem rehashLoop_spec (t : HashTable Value) (table : List (Bucket Value)) (entry : Option Nat)
    (oldTable : List (Bucket Value)) (i : Nat) (newEntry : Option Nat)
    (ht : t.table = some table) (hmask : t.tableSizeMask = table.length - 1) (h : Indexed T table)
    (hdeleted : table.countP Bucket.isDeletedBucket = 0) (hdistinct : Distinct T oldTable)
    (habsent : ∀ value, .live value ∈ oldTable → Absent T table (T.extract value))
    (hroom : table.countP Bucket.isLive + oldTable.countP Bucket.isLive < table.length) :
    ∃ table' newEntry', rehashLoop T entry oldTable i t newEntry = .ok ({ t with table := some table' }, newEntry') ∧
      table'.length = table.length ∧ Indexed T table' ∧ table'.countP Bucket.isDeletedBucket = 0 ∧
      table'.countP Bucket.isLive = table.countP Bucket.isLive + oldTable.countP Bucket.isLive := by
  induction oldTable generalizing t table i newEntry with
  | nil => exact ⟨table, newEntry, by rw [rehashLoop, ← ht], rfl, h, hdeleted, rfl⟩
  | cons bucket oldTable ih =>
    obtain ⟨hhead, htail⟩ := List.pairwise_cons.1 hdistinct
    have hrest : ∀ value, .live value ∈ oldTable → Absent T table (T.extract value) :=
      fun value hvalue => habsent value (List.mem_cons_of_mem _ hvalue)
    rw [List.countP_cons] at hroom ⊢
    cases bucket with
    | empty => exact ih t table (i + 1) newEntry ht hmask h hdeleted htail hrest hroom
    | deleted => exact ih t table (i + 1) newEntry ht hmask h hdeleted htail hrest hroom
    | live value =>
      have hone : (if (Bucket.live value).isLive = true then 1 else 0) = 1 := rfl
      rw [hone] at hroom ⊢
      obtain ⟨p, hempty, hindexed, hreinsert⟩ := reinsert_spec ht hmask h hdeleted
        (habsent value List.mem_cons_self) (by omega)
      have hlive := countP_set Bucket.isLive hempty (.live value)
      have hdel := countP_set Bucket.isDeletedBucket hempty (.live value)
      simp only [Bucket.isLive, Bucket.isDeletedBucket, if_true, Bool.false_eq_true, if_false, Nat.add_zero]
        at hlive hdel
      have hrest' : ∀ w, .live w ∈ oldTable → Absent T (table.set p (.live value)) (T.extract w) := by
        intro w hw q v hv
        by_cases hq : q = p
        · subst hq
          rw [getElem?_set_self (List.getElem?_eq_some_iff.1 hempty).1] at hv
          cases hv
          exact hhead _ hw value w rfl rfl
        · rw [getElem?_set_ne hq] at hv
          exact hrest w hw q v hv
      obtain ⟨table', newEntry', heq, hlength, hindexed', hdeleted', hlive'⟩ :=
        ih { t with table := some (table.set p (.live value)) } (table.set p (.live value)) (i + 1)
          (if entry = some i then some p else newEntry) rfl (by rw [List.length_set]; exact hmask) hindexed
          (by omega) htail hrest' (by rw [List.length_set]; omega)
      refine ⟨table', newEntry', ?_, by rw [hlength, List.length_set], hindexed', hdeleted', by omega⟩
      rw [rehashLoop, hreinsert, ok_bind]
      exact heq

/-- **Rehashing** keeps the values and drops the deleted buckets. -/
theorem rehash_spec (entry : Option Nat) {n : Nat} (htwo : 2 ≤ n) (hle : n ≤ 30)
    (hdistinct : Distinct T (t.table.getD [])) (hroom : (t.table.getD []).countP Bucket.isLive < 2 ^ n) :
    ∃ table' newEntry, t.rehash T (2 ^ n) entry =
        .ok ({ t with table := some table', tableSize := 2 ^ n, tableSizeMask := 2 ^ n - 1, deletedCount := 0 }, newEntry) ∧
      table'.length = 2 ^ n ∧ Indexed T table' ∧ table'.countP Bucket.isDeletedBucket = 0 ∧
      table'.countP Bucket.isLive = (t.table.getD []).countP Bucket.isLive := by
  have hlive : (allocateTable (2 ^ n) : List (Bucket Value)).countP Bucket.isLive = 0 := by
    rw [allocateTable, List.countP_replicate]
    rfl
  have hdeleted : (allocateTable (2 ^ n) : List (Bucket Value)).countP Bucket.isDeletedBucket = 0 := by
    rw [allocateTable, List.countP_replicate]
    rfl
  have hlength : (allocateTable (2 ^ n) : List (Bucket Value)).length = 2 ^ n := List.length_replicate
  have habsent : ∀ value, .live value ∈ t.table.getD [] →
      Absent T (allocateTable (2 ^ n) : List (Bucket Value)) (T.extract value) := by
    intro value _ p w hw
    have := List.eq_of_mem_replicate (List.mem_of_getElem? hw)
    cases this
  obtain ⟨table', newEntry, heq, hlength', hindexed, hdeleted', hlive'⟩ := rehashLoop_spec
    { t with tableSize := 2 ^ n, tableSizeMask := 2 ^ n - 1, table := some (allocateTable (2 ^ n)) }
    (allocateTable (2 ^ n)) entry (t.table.getD []) 0 none rfl (by rw [hlength])
    (indexed_allocateTable htwo hle) hdeleted hdistinct habsent (by omega)
  refine ⟨table', newEntry, ?_, hlength'.trans hlength, hindexed, hdeleted', by omega⟩
  rw [rehash, heq, ok_bind]
  rfl

end HashTable

end WebKit.WTF
