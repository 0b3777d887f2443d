import WebKit.Lib.Run
import WebKit.WTF.HashTableInv

/-!
# Runs of a hash table

Every operation makes at most one rehash. For `add` and for `remove` one is enough. `removeIf` can leave so few values
that half of the size is still too large; then the table fails its own check. `StepOk` says when an operation leaves a
table that passes: `removeIf` keeps a value for every twelve buckets, or the table has at most twice the least size, and
the products of the load bounds are `int`s.

- `expandIfNeeded_settles` and `shrinkIfNeeded_settles`: one rehash;
- `step_settles`: one operation;
- `inv_of_run`: runs.
-/

namespace WebKit.WTF

open Transition

namespace HashTable

variable {Key Value : Type} (T : HashTraits Key Value) {t : HashTable Value} {table : List (Bucket Value)}

def isKept (functor : Value → Bool) (bucket : Bucket Value) : Bool := bucket.holds fun value => !functor value

section

variable [DecidableEq Key]

/-- **Where `P` holds the result keeps the invariant; where it does not, there is none, or it fails the check.** -/
def Settles {β : Type} (result : β → HashTable Value) (r : Except TableFault β) (P : Prop) : Prop :=
  match r with
  | .ok b => (P → Inv T (result b)) ∧ (¬ P → ¬ (result b).Consistent T)
  | .error _ => ¬ P

variable {T}

theorem settles_ok {β : Type} {result : β → HashTable Value} {b : β} {P : Prop} (h : Filled T (result b) table)
    (hP : P ↔ Loaded T table) : Settles T result (.ok b) P :=
  ⟨fun hp => .filled table h (hP.1 hp), fun hp hc => hp (hP.2 (h.consistent_iff.1 hc))⟩

theorem settles_inv {β : Type} {result : β → HashTable Value} {b : β} {P : Prop} (h : Inv T (result b)) (hP : P) :
    Settles T result (.ok b) P :=
  ⟨fun _ => h, fun hp => absurd hP hp⟩

theorem Settles.map {β γ : Type} {result : β → HashTable Value} {result' : γ → HashTable Value}
    {r : Except TableFault β} {P : Prop} (h : Settles T result r P) {f : β → Except TableFault γ}
    (hf : ∀ b, ∃ c, f b = .ok c ∧ result' c = result b) : Settles T result' (r >>= f) P := by
  cases r with
  | error e => exact h
  | ok b =>
    obtain ⟨c, hc, hresult⟩ := hf b
    rw [ok_bind, hc]
    rw [Settles, hresult]
    exact h

theorem Settles.iff {β : Type} {result : β → HashTable Value} {r : Except TableFault β} {P Q : Prop}
    (h : Settles T result r P) (hPQ : Q ↔ P) : Settles T result r Q := by
  cases r with
  | error e => exact fun hq => h (hPQ.1 hq)
  | ok b => exact ⟨fun hq => h.1 (hPQ.1 hq), fun hq => h.2 fun hp => hq (hPQ.2 hp)⟩

/-! ## One rehash -/

theorem Filled.rehash (h : Filled T t table) (entry : Option Nat) {n : Nat} (htwo : 2 ≤ n) (hle : n ≤ 30)
    (hmin : T.minimumTableSize ≤ 2 ^ n) (hroom : table.countP Bucket.isLive < 2 ^ n) :
    ∃ t' table' newEntry, t.rehash T (2 ^ n) entry = .ok (t', newEntry) ∧ Filled T t' table' ∧ table'.length = 2 ^ n ∧
      table'.countP Bucket.isDeletedBucket = 0 ∧ table'.countP Bucket.isLive = table.countP Bucket.isLive := by
  have hold : t.table.getD [] = table := by rw [h.table_eq]; rfl
  obtain ⟨table', newEntry, heq, hlength, hindexed, hdeleted, hlive⟩ := rehash_spec (T := T) (t := t) entry htwo hle
    (by rw [hold]; exact distinct h.indexed) (by rw [hold]; exact hroom)
  rw [hold] at hlive
  exact ⟨_, table', newEntry, heq, ⟨rfl, hlength.symm, by rw [hlength], by rw [hlive]; exact h.keyCount_eq,
    by rw [hdeleted]; rfl, hindexed, hmin.trans_eq hlength.symm⟩, hlength, hdeleted, hlive⟩

/-- **One expansion is enough**, unless the table has 2 ^ 30 buckets. -/
theorem expandIfNeeded_settles (h : Filled T t table) (entry : Nat)
    (hused : (table.countP Bucket.isLive + table.countP Bucket.isDeletedBucket) * 2 ≤ table.length)
    (hdense : table.length ≤ T.minimumTableSize ∨ table.length ≤ table.countP Bucket.isLive * 6) :
    Settles T Prod.fst (expandIfNeeded T t entry) (table.countP Bucket.isLive * 6 < 2 ^ 31 ∧
      ((table.countP Bucket.isLive + table.countP Bucket.isDeletedBucket) * 2 < table.length ∨
        table.length < 2 ^ 30)) := by
  have hmin := h.minimumTableSize_le
  rw [expandIfNeeded, h.shouldExpand_eq, ok_bind]
  by_cases hfull : table.length ≤ (table.countP Bucket.isLive + table.countP Bucket.isDeletedBucket) * 2
  · rw [decide_eq_true hfull, if_pos rfl, expand]
    have hpos : t.tableSize ≠ 0 := by
      have := h.indexed.length_pos
      rw [h.tableSize_eq]
      omega
    rw [if_neg hpos]
    obtain ⟨n, htwo, hle, hlength⟩ := h.indexed.length_eq
    by_cases hlt : table.length < 2 ^ 30
    · have hle' := length_le_of_lt h.indexed hlt
      rw [h.mustRehashInPlace_eq hlt (by omega), ok_bind]
      by_cases hplace : table.countP Bucket.isLive * 6 < table.length * 2
      · obtain ⟨t', table', newEntry, heq, hfilled, hlength', hdeleted, hlive⟩ :=
          h.rehash (some entry) htwo hle (hlength ▸ hmin) (by omega)
        rw [decide_eq_true hplace, if_pos rfl, h.tableSize_eq, hlength, heq]
        refine settles_ok hfilled (iff_of_true ⟨by omega, by omega⟩ ⟨?_, ?_, ?_⟩) <;>
          rw [hlive] <;> omega
      · have hn : n ≤ 29 := by
          rw [hlength] at hlt
          have := (Nat.pow_lt_pow_iff_right (by decide)).1 hlt
          omega
        have hdouble : 2 ^ (n + 1) = table.length * 2 := by rw [hlength, Nat.pow_succ]
        have hmin' : T.minimumTableSize ≤ 2 ^ (n + 1) := by rw [hdouble]; omega
        have hpos' := h.indexed.length_pos
        obtain ⟨t', table', newEntry, heq, hfilled, hlength', hdeleted, hlive⟩ :=
          h.rehash (some entry) (n := n + 1) (by omega) (by omega) hmin' (by rw [hdouble]; omega)
        have hsize : ((t.tableSize : Int) * 2).toNat = 2 ^ (n + 1) := by
          rw [h.tableSize_eq]
          omega
        have hint : asInt ((t.tableSize : Int) * 2) = .ok ((t.tableSize : Int) * 2) := by
          rw [h.tableSize_eq]
          exact asInt_eq (by omega) (by omega)
        rw [decide_eq_false hplace, if_neg Bool.false_ne_true, hint, ok_bind, hsize, heq]
        refine settles_ok hfilled (iff_of_true ⟨by omega, by omega⟩ ⟨?_, ?_, ?_⟩) <;>
          rw [hlive] <;> omega
    · have hlength' := length_le h.indexed
      rw [h.mustRehashInPlace_error (by omega)]
      show ¬ _
      omega
  · rw [decide_eq_false hfull, if_neg Bool.false_ne_true]
    refine settles_ok h ⟨fun hP => ⟨by omega, hdense, hP.1⟩, fun hloaded => ⟨hloaded.load_lt, by omega⟩⟩

/-- **One time halving the size is enough** if and only if there is a value for every twelve buckets, or half of the size
is not more than the least size. -/
theorem shrinkIfNeeded_settles (h : Filled T t table)
    (hsparse : (table.countP Bucket.isLive + table.countP Bucket.isDeletedBucket) * 2 < table.length)
    (hload : table.countP Bucket.isLive * 6 < 2 ^ 31) :
    Settles T id (t.shrinkIfNeeded T) (table.length ≤ T.minimumTableSize * 2 ∨
      table.length ≤ table.countP Bucket.isLive * 12) := by
  rw [shrinkIfNeeded, h.shouldShrink_eq hload, ok_bind]
  by_cases hshrink : table.countP Bucket.isLive * 6 < table.length ∧ T.minimumTableSize < table.length
  · obtain ⟨n, htwo, hle, hlength⟩ := h.indexed.length_eq
    obtain ⟨k, hk, -, hmin⟩ := T.minimumTableSize_eq
    have hlt : k < n := by
      rw [hlength, hmin] at hshrink
      exact (Nat.pow_lt_pow_iff_right (by decide)).1 hshrink.2
    obtain ⟨m, rfl⟩ := Nat.exists_eq_succ_of_ne_zero (Nat.ne_of_gt (Nat.zero_lt_of_lt hlt))
    have hhalf : table.length = 2 ^ m * 2 := hlength.trans (Nat.pow_succ ..)
    have hle' : T.minimumTableSize ≤ 2 ^ m := by
      rw [hmin]
      exact Nat.pow_le_pow_right (by decide) (by omega)
    obtain ⟨t', table', newEntry, heq, hfilled, hlength', hdeleted, hlive⟩ :=
      h.rehash none (n := m) (by omega) (by omega) hle' (by omega)
    have hsize : t.tableSize / 2 = 2 ^ m := by
      rw [h.tableSize_eq, hhalf]
      omega
    rw [decide_eq_true hshrink, if_pos rfl, shrink, hsize, heq, ok_bind]
    refine settles_ok hfilled ⟨fun hP => ⟨?_, ?_, ?_⟩, fun hloaded => ?_⟩
    · rw [hlive]
      omega
    · rw [hlive]
      omega
    · rw [hlive]
      omega
    · have hdense := hloaded.dense
      rw [hlive] at hdense
      omega
  · rw [decide_eq_false hshrink, if_neg Bool.false_ne_true]
    exact settles_ok h (iff_of_true (by omega) ⟨hsparse, by omega, hload⟩)

/-! ## Adding -/

/-- The value has a bucket, and the table is not a full one of 2 ^ 30 buckets. -/
def AddOk (T : HashTraits Key Value) (t : HashTable Value) (key : Key) : Prop :=
  (∃ p, t.lookupForWriting T key = .ok (p, true)) ∨
    (t.keyCount + 1) * 6 < 2 ^ 31 ∧
      (t.tableSize < 2 ^ 30 ∨ (t.keyCount + t.deletedCount + 1) * 2 < t.tableSize ∨
        ∃ p table, t.lookupForWriting T key = .ok (p, false) ∧ t.table = some table ∧ table[p]? = some .deleted)

theorem ensureTable_spec (h : Inv T t) :
    ∃ t' table, t.ensureTable T = .ok t' ∧ Filled T t' table ∧ Loaded T table ∧
      (t' = t ∨ t.table = none ∧ t.tableSize = 0 ∧ t.keyCount = 0 ∧ table.countP Bucket.isLive = 0 ∧
        table.countP Bucket.isDeletedBucket = 0) := by
  cases h with
  | null htable hsize hkeys =>
    obtain ⟨k, htwo, hle, hmin⟩ := T.minimumTableSize_eq
    have hfour : 2 ^ 2 ≤ 2 ^ k := Nat.pow_le_pow_right (by decide) htwo
    have hold : t.table.getD [] = [] := by rw [htable]; rfl
    obtain ⟨table, newEntry, heq, hlength, hindexed, hdeleted, hlive⟩ := rehash_spec (T := T) (t := t) none htwo hle
      (by rw [hold]; exact List.Pairwise.nil) (by rw [hold]; exact Nat.two_pow_pos k)
    rw [hold, List.countP_nil] at hlive
    have hensure : t.ensureTable T = .ok { t with
        table := some table, tableSize := 2 ^ k, tableSizeMask := 2 ^ k - 1, deletedCount := 0 } := by
      rw [ensureTable, htable, expand, if_pos hsize, hmin, heq]
      rfl
    refine ⟨_, table, hensure, ⟨rfl, hlength.symm, by rw [hlength], ?_, by rw [hdeleted]; rfl, hindexed, ?_⟩,
      ⟨?_, ?_, ?_⟩, Or.inr ⟨htable, hsize, hkeys, hlive, hdeleted⟩⟩
    · rw [hlive]
      exact hkeys
    · rw [hlength, hmin]
    · omega
    · omega
    · omega
  | filled table hfilled hloaded =>
    refine ⟨t, table, ?_, hfilled, hloaded, Or.inl rfl⟩
    rw [ensureTable, hfilled.table_eq]
    rfl

omit [DecidableEq Key] in
/-- **A new value** takes a deleted bucket that the search has passed, or else the empty one. -/
theorem exists_insert (h : Filled T t table) (hloaded : Loaded T table) {value : Value} {n : Nat}
    {deletedEntry : Option Nat} (habsent : Absent T table (T.extract value)) (hn : n < table.length)
    (hpass : Passes T table (T.extract value) n)
    (hempty : table[position T table (T.extract value) n]? = some .empty)
    (hpassed : PassedDeleted T table (T.extract value) n deletedEntry) {p : Nat}
    (hp : p = deletedEntry.getD (position T table (T.extract value) n)) :
    p < table.length ∧ Indexed T (table.set p (.live value)) ∧
      (table.set p (.live value)).countP Bucket.isLive = table.countP Bucket.isLive + 1 ∧
      (table.set p (.live value)).countP Bucket.isDeletedBucket + (if deletedEntry.isSome then 1 else 0) =
        table.countP Bucket.isDeletedBucket ∧
      (deletedEntry.isSome = true ↔ table[p]? = some .deleted) := by
  have hsparse := hloaded.sparse
  have hmin := h.minimumTableSize_le
  obtain ⟨k, htwo, -, hmin'⟩ := T.minimumTableSize_eq
  have hfour : 2 ^ 2 ≤ 2 ^ k := Nat.pow_le_pow_right (by decide) htwo
  cases deletedEntry with
  | none =>
    obtain rfl : p = position T table (T.extract value) n := hp
    have hlive := countP_set Bucket.isLive hempty (.live value)
    have hdel := countP_set Bucket.isDeletedBucket hempty (.live value)
    simp only [Bucket.isLive, Bucket.isDeletedBucket, if_true, Bool.false_eq_true, if_false, Nat.add_zero] at hlive hdel
    refine ⟨h.indexed.position_lt _ _, h.indexed.fill habsent hpass le_rfl hn hempty rfl (by omega), hlive, hdel, ?_⟩
    rw [hempty]
    simp
  | some d =>
    obtain rfl : p = d := hp
    obtain ⟨hdeleted, m, hm, rfl⟩ := hpassed p rfl
    have hlive := countP_set Bucket.isLive hdeleted (.live value)
    have hdel := countP_set Bucket.isDeletedBucket hdeleted (.live value)
    simp only [Bucket.isLive, Bucket.isDeletedBucket, if_true, Bool.false_eq_true, if_false, Nat.add_zero] at hlive hdel
    refine ⟨h.indexed.position_lt _ _, h.indexed.fill habsent hpass (Nat.le_of_lt hm) hn hdeleted rfl (by omega), hlive,
      hdel, ?_⟩
    rw [hdeleted]
    simp

/-- **`add`** -/
theorem add_settles (h : Inv T t) (value : Value) :
    Settles T Prod.fst (t.add T value) (AddOk T t (T.extract value)) := by
  obtain ⟨t₁, table, hensure, hfilled, hloaded, hsame⟩ := ensureTable_spec h
  have hsparse := hloaded.sparse
  have hdense := hloaded.dense
  have hcount := hfilled.keyCount_eq
  have hcount' := hfilled.deletedCount_eq
  rw [add, hensure, ok_bind]
  obtain ⟨p, v, deletedEntry, hlive, hkey, hsearch⟩ | ⟨habsent, n, deletedEntry, hn, hpass, hempty, hpassed, hsearch⟩ :=
    search_spec hfilled.indexed hfilled.table_eq hfilled.tableSizeMask_eq (T.extract value)
  · rw [hsearch]
    show Settles T Prod.fst (.ok (t₁, some p, false)) _
    refine settles_inv (.filled table hfilled hloaded) (Or.inl ⟨p, ?_⟩)
    obtain rfl | ⟨-, -, -, hnone, -⟩ := hsame
    · rw [lookupForWriting, hsearch]
      rfl
    · have hpos : 0 < table.countP Bucket.isLive := List.countP_pos_iff.2 ⟨_, List.mem_of_getElem? hlive, rfl⟩
      omega
  · obtain ⟨hp, hindexed, hlive, hdel, hreuse⟩ := exists_insert hfilled hloaded habsent hn hpass hempty hpassed rfl
    have hlookup : t₁.lookupForWriting T (T.extract value) =
        .ok (deletedEntry.getD (position T table (T.extract value) n), false) := by
      rw [lookupForWriting, hsearch]
      rfl
    have hok : AddOk T t (T.extract value) ↔
        (table.countP Bucket.isLive + 1) * 6 < 2 ^ 31 ∧ (table.length < 2 ^ 30 ∨
          (table.countP Bucket.isLive + table.countP Bucket.isDeletedBucket + 1) * 2 < table.length ∨
          deletedEntry.isSome = true) := by
      obtain rfl | ⟨hnull, hsize, hkeys, hlive₀, hdel₀⟩ := hsame
      · rw [AddOk, hlookup, hfilled.tableSize_eq, hcount, hcount', hreuse, hfilled.table_eq]
        simp only [Except.ok.injEq, Prod.mk.injEq, Bool.false_eq_true, and_false, exists_false, false_or, and_true,
          Option.some.injEq, ← and_assoc]
        refine and_congr (by omega) (or_congr Iff.rfl (or_congr (by omega) ?_))
        constructor
        · rintro ⟨p, table', ⟨rfl, rfl⟩, hdeleted⟩
          exact hdeleted
        · intro hdeleted
          exact ⟨_, _, ⟨rfl, rfl⟩, hdeleted⟩
      · obtain ⟨k, htwo, -, hmin⟩ := T.minimumTableSize_eq
        have hfour : 2 ^ 2 ≤ 2 ^ k := Nat.pow_le_pow_right (by decide) htwo
        have hle := hfilled.minimumTableSize_le
        refine iff_of_true (Or.inr ⟨by omega, Or.inl (by omega)⟩) ⟨by omega, Or.inr (Or.inl (by omega))⟩
    set p := deletedEntry.getD (position T table (T.extract value) n) with hpdef
    have hafter : ∀ d, d = t₁.deletedCount - (if deletedEntry.isSome then 1 else 0) → Filled T { t₁ with
        table := some (table.set p (.live value)), keyCount := t₁.keyCount + 1, deletedCount := d }
        (table.set p (.live value)) := by
      rintro d rfl
      refine ⟨rfl, by rw [List.length_set]; exact hfilled.tableSize_eq,
        by rw [List.length_set]; exact hfilled.tableSizeMask_eq, ?_, ?_, hindexed,
        by rw [List.length_set]; exact hfilled.minimumTableSize_le⟩
      · show t₁.keyCount + 1 = _
        omega
      · show t₁.deletedCount - _ = _
        split_ifs at hdel ⊢ <;> omega
    have hrest : ∀ d, d = t₁.deletedCount - (if deletedEntry.isSome then 1 else 0) → Settles T Prod.fst
        (expandIfNeeded T { t₁ with
          table := some (table.set p (.live value)), keyCount := t₁.keyCount + 1, deletedCount := d } p >>=
            fun result => .ok (result.1, result.2, true)) (AddOk T t (T.extract value)) := by
      intro d hd
      obtain ⟨half, heven⟩ := even_length hfilled.indexed
      have hexpand := expandIfNeeded_settles (hafter d hd) p
        (by rw [List.length_set]; split_ifs at hdel <;> omega) (by rw [List.length_set]; omega)
      refine (hexpand.iff ?_).map fun result => ⟨_, rfl, rfl⟩
      rw [hok, hlive, List.length_set]
      refine and_congr Iff.rfl ?_
      split_ifs at hdel with hsome
      · exact iff_of_true (Or.inr (Or.inr hsome)) (Or.inl (by omega))
      · constructor
        · rintro (hlt | hlt | hsome')
          · exact Or.inr hlt
          · exact Or.inl (by omega)
          · exact absurd hsome' hsome
        · rintro (hlt | hlt)
          · exact Or.inr (Or.inl (by omega))
          · exact Or.inl hlt
    rw [hsearch]
    cases deletedEntry with
    | none =>
      have hwrite := writeBucket_eq hfilled.table_eq hp (.live value)
      show Settles T Prod.fst (t₁.writeBucket p (.live value) >>= fun t => expandIfNeeded T
        { t with keyCount := t.keyCount + 1 } p >>= fun result => .ok (result.1, result.2, true)) _
      rw [hwrite, ok_bind]
      exact hrest _ (Int.sub_zero _).symm
    | some d =>
      have hwrite := writeBucket_eq hfilled.table_eq hp .empty
      have hlength : p < (table.set p (Bucket.empty : Bucket Value)).length := by rw [List.length_set]; exact hp
      show Settles T Prod.fst (t₁.writeBucket p .empty >>= fun t =>
        HashTable.writeBucket { t with deletedCount := t.deletedCount - 1 } p (.live value) >>= fun t =>
          expandIfNeeded T { t with keyCount := t.keyCount + 1 } p >>= fun result => .ok (result.1, result.2, true)) _
      rw [hwrite, ok_bind, writeBucket_eq (rfl : _ = some (table.set p .empty)) hlength, ok_bind, List.set_set]
      exact hrest _ rfl

/-- **`addPassingHashCode`** does what `add` does. -/
theorem addPassingHashCode_eq (h : Inv T t) (value : Value) : t.addPassingHashCode T value = t.add T value := by
  obtain ⟨t₁, table, hensure, hfilled, -, -⟩ := ensureTable_spec h
  rw [addPassingHashCode, add, hensure, ok_bind, ok_bind, fullLookupForWriting, lookupForWriting]
  obtain ⟨p, v, deletedEntry, hlive, hkey, hsearch⟩ | ⟨-, n, deletedEntry, hn, hpass, hempty, hpassed, hsearch⟩ :=
    search_spec hfilled.indexed hfilled.table_eq hfilled.tableSizeMask_eq (T.extract value)
  · rw [hsearch]
    rfl
  · rw [hsearch]
    cases deletedEntry with
    | none =>
      simp only [ok_bind, pure_bind, Option.getD_none, Bool.false_eq_true, if_false, buckets_eq hfilled.table_eq,
        readBucket_eq hempty, Bucket.isDeletedBucket]
    | some d =>
      simp only [ok_bind, pure_bind, Option.getD_some, Bool.false_eq_true, if_false, buckets_eq hfilled.table_eq,
        readBucket_eq (hpassed d rfl).1, Bucket.isDeletedBucket, if_true, bind_assoc]

/-! ## Removing -/

theorem deleteBucket_spec (h : Filled T t table)
    (hsparse : (table.countP Bucket.isLive + table.countP Bucket.isDeletedBucket) * 2 < table.length) {p : Nat}
    {value : Value} (hlive : table[p]? = some (.live value)) :
    ∃ t', t.deleteBucket p = .ok t' ∧ Filled T t' (table.set p .deleted) ∧
      (table.set p .deleted).countP Bucket.isLive + 1 = table.countP Bucket.isLive ∧
      (table.set p .deleted).countP Bucket.isDeletedBucket = table.countP Bucket.isDeletedBucket + 1 := by
  have hp := (List.getElem?_eq_some_iff.1 hlive).1
  have hcount := countP_set Bucket.isLive hlive .deleted
  have hcount' := countP_set Bucket.isDeletedBucket hlive .deleted
  simp only [Bucket.isLive, Bucket.isDeletedBucket, if_true, Bool.false_eq_true, if_false, Nat.add_zero] at hcount hcount'
  have hdeleted : t.deleteBucket p = .ok { t with
      table := some (table.set p .deleted), deletedCount := t.deletedCount + 1, keyCount := t.keyCount - 1 } := by
    rw [deleteBucket, writeBucket_eq h.table_eq hp]
    rfl
  have hkeys := h.keyCount_eq
  have hdel := h.deletedCount_eq
  refine ⟨_, hdeleted, ⟨rfl, by rw [List.length_set]; exact h.tableSize_eq,
    by rw [List.length_set]; exact h.tableSizeMask_eq, ?_, ?_, h.indexed.delete hp (by omega),
    by rw [List.length_set]; exact h.minimumTableSize_le⟩, hcount, hcount'⟩
  · show t.keyCount - 1 = _
    omega
  · show t.deletedCount + 1 = _
    omega

/-- **`remove`** of a value: one time halving the size is enough. -/
theorem removeBucket_settles (h : Filled T t table) (hloaded : Loaded T table) {p : Nat} {value : Value}
    (hlive : table[p]? = some (.live value)) : Settles T id (t.removeBucket T p) True := by
  obtain ⟨t', hdelete, hfilled, hcount, hcount'⟩ := deleteBucket_spec h hloaded.sparse hlive
  have hsparse := hloaded.sparse
  have hload := hloaded.load_lt
  rw [removeBucket, hdelete, ok_bind]
  refine (shrinkIfNeeded_settles hfilled (by rw [List.length_set]; omega) (by omega)).iff (iff_of_true trivial ?_)
  obtain ⟨k, htwo, -, hmin⟩ := T.minimumTableSize_eq
  have hfour : 2 ^ 2 ≤ 2 ^ k := Nat.pow_le_pow_right (by decide) htwo
  rw [List.length_set]
  obtain hle | hle := hloaded.dense
  · exact Or.inl (by omega)
  · by_cases hone : table.countP Bucket.isLive = 1
    · exact Or.inl (by omega)
    · exact Or.inr (by omega)

/-- The loop of `removeIf` below `i`: the values that are kept are all there, and no other one from `i` on. -/
theorem removeIfLoop_spec (functor : Value → Bool) (i : Nat) (h : Filled T t table)
    (hsparse : (table.countP Bucket.isLive + table.countP Bucket.isDeletedBucket) * 2 < table.length)
    (hi : i ≤ table.length) (hdone : ∀ bucket ∈ table.drop i, bucket.isLive = isKept functor bucket) :
    ∃ t' table', removeIfLoop functor i t = .ok t' ∧ Filled T t' table' ∧ table'.length = table.length ∧
      table'.countP Bucket.isLive + table'.countP Bucket.isDeletedBucket =
        table.countP Bucket.isLive + table.countP Bucket.isDeletedBucket ∧
      table'.countP Bucket.isLive = table.countP (isKept functor) := by
  induction i generalizing t table with
  | zero =>
    refine ⟨t, table, rfl, h, rfl, rfl, List.countP_congr fun bucket hbucket => ?_⟩
    rw [hdone bucket (by rwa [List.drop_zero])]
  | succ i ih =>
    have hlt : i < table.length := hi
    have hbucket : table[i]? = some table[i] := List.getElem?_eq_getElem hlt
    rw [removeIfLoop, buckets_eq h.table_eq, ok_bind, readBucket_eq hbucket, ok_bind]
    by_cases hholds : table[i].holds functor = true
    · obtain ⟨value, hlive, hvalue⟩ : ∃ value, table[i] = .live value ∧ functor value = true := by
        cases hcase : table[i] with
        | live value =>
          rw [hcase] at hholds
          exact ⟨value, rfl, hholds⟩
        | empty =>
          rw [hcase] at hholds
          cases hholds
        | deleted =>
          rw [hcase] at hholds
          cases hholds
      rw [hlive] at hbucket
      obtain ⟨t', hdelete, hfilled, hcount, hcount'⟩ := deleteBucket_spec h hsparse hbucket
      have hkept := countP_set (isKept functor) hbucket .deleted
      simp only [isKept, Bucket.holds, hvalue, Bool.not_true, Bool.false_eq_true, if_false, Nat.add_zero] at hkept
      obtain ⟨t'', table', heq, hfilled', hlength, hused, hlive'⟩ := ih hfilled (by rw [List.length_set]; omega)
        (by rw [List.length_set]; omega) (by
          intro bucket hmem
          rw [List.drop_set, if_neg (Nat.lt_irrefl i), Nat.sub_self, List.drop_eq_getElem_cons hlt,
            List.set_cons_zero, List.mem_cons] at hmem
          obtain rfl | hmem := hmem
          · rfl
          · exact hdone bucket hmem)
      rw [if_pos hholds, hdelete, ok_bind]
      refine ⟨t'', table', heq, hfilled', by rw [hlength, List.length_set], by omega, ?_⟩
      rw [hlive']
      exact hkept
    · rw [if_neg hholds, pure_bind]
      refine ih h hsparse (Nat.le_of_lt hlt) ?_
      intro bucket hmem
      rw [List.drop_eq_getElem_cons hlt, List.mem_cons] at hmem
      obtain rfl | hmem := hmem
      · cases hcase : table[i] with
        | live value =>
          rw [hcase] at hholds
          have hvalue : functor value = false := by simpa [Bucket.holds] using hholds
          simp [Bucket.isLive, isKept, Bucket.holds, hvalue]
        | empty => rfl
        | deleted => rfl
      · exact hdone bucket hmem

/-- **`removeIf`**, which halves the size at most once. -/
theorem removeIf_settles (h : Inv T t) (functor : Value → Bool) :
    Settles T id (t.removeIf T functor) (t.tableSize ≤ T.minimumTableSize * 2 ∨
      t.tableSize ≤ (t.table.getD []).countP (isKept functor) * 12) := by
  cases h with
  | null htable hsize hkeys =>
    rw [removeIf, hsize, removeIfLoop, ok_bind, shrinkIfNeeded, shouldShrink, hkeys, hsize]
    exact settles_inv (.null htable hsize hkeys) (Or.inl (Nat.zero_le _))
  | filled table hfilled hloaded =>
    have hsparse := hloaded.sparse
    have hload := hloaded.load_lt
    obtain ⟨t', table', heq, hfilled', hlength, hused, hlive⟩ := removeIfLoop_spec functor table.length hfilled hsparse
      le_rfl (by simp)
    have hle : table'.countP Bucket.isLive ≤ table.countP Bucket.isLive := by
      rw [hlive]
      refine List.countP_mono_left fun bucket _ hkept => ?_
      cases bucket with
      | live value => rfl
      | empty => cases hkept
      | deleted => cases hkept
    rw [removeIf, hfilled.tableSize_eq, heq, ok_bind, hfilled.table_eq, Option.getD_some, ← hlive, ← hlength]
    exact shrinkIfNeeded_settles hfilled' (by omega) (by omega)

end

/-! ## Runs -/

inductive Operation (Key Value : Type)
  | add (value : Value)
  | addPassingHashCode (value : Value)
  | remove (key : Key)
  | removeIterator (it : Option Nat)
  | removeIf (functor : Value → Bool)
  | clear

/-- An iterator is at a value, or at the end. -/
def valid (t : HashTable Value) : Operation Key Value → Bool
  | .removeIterator (some p) => (t.table.getD [])[p]?.any Bucket.isLive
  | _ => true

variable [DecidableEq Key]

/-- What an operation leaves of the table. -/
def step (t : HashTable Value) : Operation Key Value → Except TableFault (HashTable Value)
  | .add value => do
    let (t, _) ← t.add T value
    return t
  | .addPassingHashCode value => do
    let (t, _) ← t.addPassingHashCode T value
    return t
  | .remove key => t.remove T key
  | .removeIterator it => t.removeIterator T it
  | .removeIf functor => t.removeIf T functor
  | .clear => return t.clear

def next (t : HashTable Value) (operation : Operation Key Value) : Option (HashTable Value) :=
  (t.step T operation).toOption

/-- When an operation leaves a table that passes its check. -/
def StepOk (t : HashTable Value) : Operation Key Value → Prop
  | .add value => AddOk T t (T.extract value)
  | .addPassingHashCode value => AddOk T t (T.extract value)
  | .removeIf functor => t.tableSize ≤ T.minimumTableSize * 2 ∨
      t.tableSize ≤ (t.table.getD []).countP (isKept functor) * 12
  | _ => True

variable {T}

/-- **One operation** leaves a consistent table if and only if `StepOk` holds. -/
theorem step_settles (h : Inv T t) (operation : Operation Key Value) (hvalid : valid t operation = true) :
    Settles T id (t.step T operation) (StepOk T t operation) := by
  cases operation with
  | add value => exact (add_settles h value).map fun result => ⟨_, rfl, rfl⟩
  | addPassingHashCode value =>
    rw [step, addPassingHashCode_eq h]
    exact (add_settles h value).map fun result => ⟨_, rfl, rfl⟩
  | remove key =>
    rw [step, remove, find]
    cases h with
    | null htable hsize hkeys =>
      rw [htable]
      exact settles_inv (.null htable hsize hkeys) trivial
    | filled table hfilled hloaded =>
      have hsome : t.table.isNone = false := by rw [hfilled.table_eq]; rfl
      rw [hsome, if_neg Bool.false_ne_true]
      obtain ⟨p, value, hlive, -, hlookup⟩ | ⟨-, hlookup⟩ :=
        lookup_spec hfilled.indexed hfilled.table_eq hfilled.tableSizeMask_eq key
      · rw [hlookup, ok_bind]
        exact removeBucket_settles hfilled hloaded hlive
      · rw [hlookup, ok_bind]
        exact settles_inv (.filled table hfilled hloaded) trivial
  | removeIterator it =>
    cases it with
    | none => exact settles_inv h trivial
    | some p =>
      cases h with
      | null htable hsize hkeys =>
        rw [valid, htable] at hvalid
        cases hvalid
      | filled table hfilled hloaded =>
        rw [valid, hfilled.table_eq, Option.getD_some, Option.any_eq_true_iff_get] at hvalid
        obtain ⟨hsome, hlive⟩ := hvalid
        obtain ⟨bucket, hbucket⟩ := Option.isSome_iff_exists.1 hsome
        simp only [hbucket, Option.get_some] at hlive
        cases bucket with
        | live value => exact removeBucket_settles hfilled hloaded hbucket
        | empty => cases hlive
        | deleted => cases hlive
  | removeIf functor => exact removeIf_settles h functor
  | clear =>
    refine settles_inv ?_ trivial
    show Inv T t.clear
    cases h with
    | null htable hsize hkeys =>
      rw [clear, htable]
      exact .null htable hsize hkeys
    | filled table hfilled hloaded =>
      have hsome : t.table.isNone = false := by rw [hfilled.table_eq]; rfl
      rw [clear, hsome, if_neg Bool.false_ne_true]
      exact .null rfl rfl rfl

/-- A run of operations that leave consistent tables. -/
def Runs (T : HashTraits Key Value) : HashTable Value → List (Operation Key Value) → HashTable Value → Prop :=
  Run (Guarded (fun t operation => valid t operation = true ∧ StepOk T t operation) (Via (next T)))

theorem inv_of_run {operations : List (Operation Key Value)} (h : Runs T new operations t) : Inv T t := by
  have hstart : Inv T new := .null rfl rfl rfl
  refine Run.invariant ?_ h hstart
  rintro t operation t' hinv ⟨⟨hvalid, hok⟩, hnext⟩
  have hsettles := step_settles hinv operation hvalid
  have hstep : t.step T operation = .ok t' := by
    cases hcase : t.step T operation with
    | ok t'' =>
      rw [Via, next, hcase] at hnext
      exact congrArg Except.ok (Option.some.inj hnext)
    | error e =>
      rw [Via, next, hcase] at hnext
      cases hnext
  rw [hstep] at hsettles
  exact hsettles.1 hok

/-- Numbers that are their own keys and their own hashes. -/
def numberTraits : HashTraits UInt32 UInt32 :=
  { extract := id, hash := id, minimumTableSize := 8, minimumTableSize_eq := ⟨3, by decide, by decide, rfl⟩ }

end HashTable

end WebKit.WTF
