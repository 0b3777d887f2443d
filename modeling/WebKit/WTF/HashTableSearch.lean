import Mathlib.Data.Nat.Prime.Basic
import WebKit.Lib.Probing
import WebKit.WTF.HashTable

/-!
# Searching a hash table

`Indexed T table`: the size is a power of two, there is an empty bucket, and every value is reached by the search for its
key. Such a search looks at every bucket before it looks at one twice, so it ends (`search_spec`), and it finds the value
of a key if there is one (`lookup_spec`). A bucket that is deleted, or that is filled where a search has ended, leaves
the other values reachable (`Indexed.delete`, `Indexed.fill`).
-/

namespace WebKit.WTF

open WebKit.Lib

namespace HashTable

variable {Key Value : Type} (T : HashTraits Key Value) (table : List (Bucket Value))

theorem ok_bind {α β : Type} (a : α) (f : α → Except TableFault β) : (Except.ok a >>= f) = f a := rfl

/-- The position that is looked at behind `n` other ones. -/
def position (key : Key) (n : Nat) : Nat :=
  probe table.length (T.hash key).toNat (1 ||| doubleHash (T.hash key)).toNat n

/-- A search for the key ends here. -/
def StopsAt (key : Key) (p : Nat) : Prop :=
  table[p]? = some .empty ∨ ∃ value, table[p]? = some (.live value) ∧ T.extract value = key

/-- The search for the key passes the first `n` positions. -/
def Passes (key : Key) (n : Nat) : Prop := ∀ m < n, ¬ StopsAt T table key (position T table key m)

/-- Every value is reached by the search for its key, which ends. -/
structure Indexed : Prop where
  length_eq : ∃ n, 2 ≤ n ∧ n ≤ 30 ∧ table.length = 2 ^ n
  room : table.countP Bucket.isLive + table.countP Bucket.isDeletedBucket < table.length
  reachable : ∀ p value, table[p]? = some (.live value) →
    ∃ n, Passes T table (T.extract value) n ∧ position T table (T.extract value) n = p

def Absent (key : Key) : Prop := ∀ (p : Nat) (value : Value), table[p]? = some (.live value) → T.extract value ≠ key

variable {T table}

/-! ## Positions -/

theorem Indexed.length_pos (h : Indexed T table) : 0 < table.length := by
  obtain ⟨n, -, -, hn⟩ := h.length_eq
  rw [hn]
  exact Nat.two_pow_pos n

theorem step_mod_two (hash : UInt32) : (1 ||| doubleHash hash).toNat % 2 = 1 := by
  rw [UInt32.toNat_or]
  exact Nat.or_mod_two_eq_one.2 (Or.inl rfl)

/-- The steps lead to every bucket. -/
theorem Indexed.coprime (h : Indexed T table) (hash : UInt32) :
    Nat.Coprime table.length (1 ||| doubleHash hash).toNat := by
  obtain ⟨n, -, -, hn⟩ := h.length_eq
  rw [hn]
  exact Nat.Coprime.pow_left n (Nat.coprime_two_left.2 (Nat.odd_iff.2 (step_mod_two hash)))

theorem Indexed.position_lt (h : Indexed T table) (key : Key) (n : Nat) : position T table key n < table.length :=
  probe_lt h.length_pos n

theorem Indexed.position_inj (h : Indexed T table) (key : Key) {m n : Nat} (hm : m < table.length)
    (hn : n < table.length) (heq : position T table key m = position T table key n) : m = n :=
  probe_inj (h.coprime _) hm hn heq

theorem toNat_and_sizeMask {n : Nat} (hn : n ≤ 30) (hash : UInt32) :
    (hash &&& UInt32.ofNat (2 ^ n - 1)).toNat = hash.toNat % 2 ^ n := by
  have hle : 2 ^ n ≤ 2 ^ 30 := Nat.pow_le_pow_right (by decide) hn
  rw [UInt32.toNat_and, UInt32.toNat_ofNat', Nat.mod_eq_of_lt (by omega), Nat.and_two_pow_sub_one_eq_mod]

theorem toNat_next {n : Nat} (hn : n ≤ 30) (hlength : table.length = 2 ^ n) {i : UInt32} {key : Key} {m : Nat}
    (hi : i.toNat = position T table key m) :
    ((i + (1 ||| doubleHash (T.hash key))) &&& UInt32.ofNat (2 ^ n - 1)).toNat = position T table key (m + 1) := by
  have hdvd : 2 ^ n ∣ 2 ^ 32 := Nat.pow_dvd_pow 2 (by omega)
  rw [toNat_and_sizeMask hn, UInt32.toNat_add, Nat.mod_mod_of_dvd _ hdvd, hi, position, position, ← probe_succ,
    ← hlength, Nat.add_mod_mod]

/-! ## Buckets -/

theorem isEmptyBucket_iff {bucket : Bucket Value} : bucket.isEmptyBucket = true ↔ bucket = .empty := by
  cases bucket <;> simp [Bucket.isEmptyBucket]

theorem isDeletedBucket_iff {bucket : Bucket Value} : bucket.isDeletedBucket = true ↔ bucket = .deleted := by
  cases bucket <;> simp [Bucket.isDeletedBucket]

theorem hasKey_iff [DecidableEq Key] {key : Key} {bucket : Bucket Value} :
    hasKey T key bucket = true ↔ ∃ value, bucket = .live value ∧ T.extract value = key := by
  cases bucket <;> simp [hasKey, Bucket.holds]

theorem readBucket_eq {p : Nat} {bucket : Bucket Value} (h : table[p]? = some bucket) :
    readBucket table p = .ok bucket := by
  unfold readBucket
  rw [h]

theorem exists_empty (h : table.countP Bucket.isLive + table.countP Bucket.isDeletedBucket < table.length) :
    ∃ p, p < table.length ∧ table[p]? = some .empty := by
  induction table with
  | nil => exact absurd h (Nat.not_lt_zero _)
  | cons bucket table ih =>
    rw [List.countP_cons, List.countP_cons, List.length_cons] at h
    cases bucket with
    | empty => exact ⟨0, Nat.zero_lt_succ _, rfl⟩
    | deleted =>
      have hlt : table.countP Bucket.isLive + table.countP Bucket.isDeletedBucket < table.length := by
        simp [Bucket.isLive, Bucket.isDeletedBucket] at h
        omega
      obtain ⟨p, hp, hempty⟩ := ih hlt
      exact ⟨p + 1, Nat.succ_lt_succ hp, hempty⟩
    | live value =>
      have hlt : table.countP Bucket.isLive + table.countP Bucket.isDeletedBucket < table.length := by
        simp [Bucket.isLive, Bucket.isDeletedBucket] at h
        omega
      obtain ⟨p, hp, hempty⟩ := ih hlt
      exact ⟨p + 1, Nat.succ_lt_succ hp, hempty⟩

/-- Every search ends, before it looks at a bucket twice. -/
theorem Indexed.exists_stop (h : Indexed T table) (key : Key) :
    ∃ n < table.length, StopsAt T table key (position T table key n) ∧ Passes T table key n := by
  classical
  obtain ⟨p, hp, hempty⟩ := exists_empty h.room
  exact exists_first_free (T.hash key).toNat (h.coprime (T.hash key)) (StopsAt T table key) hp (Or.inl hempty)

/-- **A key has one value.** -/
theorem Indexed.position_unique (h : Indexed T table) {p q : Nat} {v w : Value} (hp : table[p]? = some (.live v))
    (hq : table[q]? = some (.live w)) (heq : T.extract v = T.extract w) : p = q := by
  obtain ⟨m, hm, rfl⟩ := h.reachable p v hp
  obtain ⟨n, hn, rfl⟩ := h.reachable q w hq
  rw [heq] at hm hp ⊢
  obtain hlt | rfl | hgt := Nat.lt_trichotomy m n
  · exact absurd (Or.inr ⟨v, hp, heq⟩) (hn m hlt)
  · rfl
  · exact absurd (Or.inr ⟨w, hq, rfl⟩) (hm n hgt)

/-! ## The loops -/

theorem Indexed.toNat_first (h : Indexed T table) (key : Key) :
    (T.hash key &&& UInt32.ofNat (table.length - 1)).toNat = position T table key 0 := by
  obtain ⟨e, -, he, hlength⟩ := h.length_eq
  rw [hlength, toNat_and_sizeMask he, position, hlength, probe, Nat.zero_mul, Nat.add_zero]

theorem Indexed.absent (h : Indexed T table) {key : Key} {n : Nat} (hpass : Passes T table key n)
    (hempty : table[position T table key n]? = some .empty) : Absent T table key := by
  rintro p value hlive rfl
  obtain ⟨m, hm, rfl⟩ := h.reachable p value hlive
  obtain hlt | rfl | hgt := Nat.lt_trichotomy m n
  · exact hpass m hlt (Or.inr ⟨value, hlive, rfl⟩)
  · rw [hempty] at hlive
    cases hlive
  · exact hm n hgt (Or.inl hempty)

section

variable [DecidableEq Key]

theorem exists_bucket (h : Indexed T table) (key : Key) {m : Nat}
    (hpass : ¬ StopsAt T table key (position T table key m)) :
    ∃ bucket, table[position T table key m]? = some bucket ∧ bucket.isEmptyBucket = false ∧
      hasKey T key bucket = false := by
  refine ⟨_, List.getElem?_eq_getElem (h.position_lt key m), ?_, ?_⟩
  · rw [Bool.eq_false_iff]
    intro hempty
    exact hpass (Or.inl ((List.getElem?_eq_getElem (h.position_lt key m)).trans
      (congrArg some (isEmptyBucket_iff.1 hempty))))
  · rw [Bool.eq_false_iff]
    intro hkey
    obtain ⟨value, hlive, heq⟩ := hasKey_iff.1 hkey
    exact hpass (Or.inr ⟨value, (List.getElem?_eq_getElem (h.position_lt key m)).trans (congrArg some hlive), heq⟩)

theorem nextStep_eq {k : UInt32} {hash : UInt32} {m : Nat} (hk : k = if m = 0 then 0 else 1 ||| doubleHash hash) :
    (if k = 0 then 1 ||| doubleHash hash else k) = 1 ||| doubleHash hash := by
  by_cases hm : m = 0
  · rw [hk, if_pos hm, if_pos rfl]
  · rw [hk, if_neg hm]
    split_ifs <;> rfl

/-- A deleted bucket that the search for a key has passed. -/
def PassedDeleted (T : HashTraits Key Value) (table : List (Bucket Value)) (key : Key) (n : Nat)
    (deletedEntry : Option Nat) : Prop :=
  ∀ d, deletedEntry = some d → table[d]? = some .deleted ∧ ∃ m < n, position T table key m = d

/-- **The search of `add` returns at the first position where it can end.** -/
theorem searchLoop_eq (h : Indexed T table) {key : Key} {n : Nat}
    (hstop : StopsAt T table key (position T table key n)) (hpass : Passes T table key n) (fuel : Nat) (i k : UInt32)
    (deletedEntry : Option Nat) (m : Nat) (hm : m ≤ n) (hfuel : n < m + fuel) (hi : i.toNat = position T table key m)
    (hk : k = if m = 0 then 0 else 1 ||| doubleHash (T.hash key))
    (hdeleted : PassedDeleted T table key m deletedEntry) :
    ∃ deletedEntry' bucket, PassedDeleted T table key n deletedEntry' ∧
      table[position T table key n]? = some bucket ∧
      searchLoop T table (UInt32.ofNat (table.length - 1)) key fuel i k deletedEntry =
        .ok (position T table key n, deletedEntry', !bucket.isEmptyBucket) := by
  obtain ⟨e, -, he, hlength⟩ := h.length_eq
  induction fuel generalizing i k deletedEntry m with
  | zero => omega
  | succ fuel ih =>
    rw [searchLoop, hi]
    obtain rfl | hlt := Nat.eq_or_lt_of_le hm
    · obtain hempty | ⟨value, hlive, hkey⟩ := hstop
      · refine ⟨deletedEntry, _, hdeleted, hempty, ?_⟩
        rw [readBucket_eq hempty, ok_bind]
        rfl
      · refine ⟨deletedEntry, _, hdeleted, hlive, ?_⟩
        rw [readBucket_eq hlive, ok_bind, hasKey_iff.2 ⟨value, rfl, hkey⟩]
        rfl
    · obtain ⟨bucket, hbucket, hempty, hkey⟩ := exists_bucket h key (hpass m hlt)
      rw [readBucket_eq hbucket, ok_bind]
      simp only [hempty, hkey, Bool.false_eq_true, if_false, nextStep_eq hk]
      refine ih _ _ _ (m + 1) hlt (by omega) ?_ (if_neg (Nat.succ_ne_zero m)).symm ?_
      · rw [hlength]
        exact toNat_next he hlength hi
      · intro d hd
        by_cases hdel : bucket.isDeletedBucket = true
        · rw [if_pos hdel] at hd
          obtain rfl := Option.some.inj hd
          exact ⟨by rw [hbucket, isDeletedBucket_iff.1 hdel], m, Nat.lt_succ_self m, rfl⟩
        · rw [if_neg hdel] at hd
          obtain ⟨hd, m', hm', hposition⟩ := hdeleted d hd
          exact ⟨hd, m', Nat.lt_succ_of_lt hm', hposition⟩

/-! ## What a search returns -/

variable {t : HashTable Value}

theorem buckets_eq (ht : t.table = some table) : t.buckets = .ok table := by
  unfold buckets
  rw [ht]

/-- **What the search of `add` returns**: the position of the key, or where a value of it can be written. -/
theorem search_spec (h : Indexed T table) (ht : t.table = some table) (hmask : t.tableSizeMask = table.length - 1)
    (key : Key) :
    (∃ p value deletedEntry, table[p]? = some (.live value) ∧ T.extract value = key ∧
      t.search T key = .ok (p, deletedEntry, true)) ∨
      Absent T table key ∧ ∃ n deletedEntry, n < table.length ∧ Passes T table key n ∧
        table[position T table key n]? = some .empty ∧ PassedDeleted T table key n deletedEntry ∧
        t.search T key = .ok (position T table key n, deletedEntry, false) := by
  obtain ⟨n, hn, hstop, hpass⟩ := h.exists_stop key
  obtain ⟨deletedEntry, bucket, hdeleted, hbucket, heq⟩ := searchLoop_eq h hstop hpass (table.length + 1) _ 0 none 0
    (Nat.zero_le n) (by omega) (h.toNat_first key) rfl (fun d hd => by cases hd)
  have hsearch : t.search T key = .ok (position T table key n, deletedEntry, !bucket.isEmptyBucket) := by
    rw [search, buckets_eq ht, ok_bind, hmask, heq]
  obtain hempty | ⟨value, hlive, hkey⟩ := hstop
  · obtain rfl := Option.some.inj (hbucket.symm.trans hempty)
    exact Or.inr ⟨h.absent hpass hempty, n, deletedEntry, hn, hpass, hempty, hdeleted, hsearch⟩
  · obtain rfl := Option.some.inj (hbucket.symm.trans hlive)
    exact Or.inl ⟨_, value, deletedEntry, hlive, hkey, hsearch⟩

/-- The loop of `lookup` is that of `add` without the deleted entry, by induction on the turns. -/
theorem lookupLoop_eq (sizeMask : UInt32) (key : Key) (fuel : Nat) (i k : UInt32) (deletedEntry : Option Nat) :
    lookupLoop T table sizeMask key fuel i k = (searchLoop T table sizeMask key fuel i k deletedEntry).map
      fun result => if result.2.2 then some result.1 else none := by
  induction fuel generalizing i k deletedEntry with
  | zero => rfl
  | succ fuel ih =>
    rw [lookupLoop, searchLoop]
    cases readBucket table i.toNat with
    | error fault => rfl
    | ok bucket =>
      rw [ok_bind, ok_bind]
      by_cases hempty : bucket.isEmptyBucket = true
      · rw [if_pos hempty, if_pos hempty]
        rfl
      rw [if_neg hempty, if_neg hempty]
      by_cases hkey : hasKey T key bucket = true
      · rw [if_pos hkey, if_pos hkey]
        rfl
      · rw [if_neg hkey, if_neg hkey]
        exact ih _ _ _

/-- **What `lookup` returns**: the position of the key, or none if there is no value of it. -/
theorem lookup_spec (h : Indexed T table) (ht : t.table = some table) (hmask : t.tableSizeMask = table.length - 1)
    (key : Key) :
    (∃ p value, table[p]? = some (.live value) ∧ T.extract value = key ∧ t.lookup T key = .ok (some p)) ∨
      Absent T table key ∧ t.lookup T key = .ok none := by
  have hlookup : t.lookup T key = (t.search T key).map fun result => if result.2.2 then some result.1 else none := by
    rw [lookup, search, buckets_eq ht]
    exact lookupLoop_eq _ key _ _ 0 none
  obtain ⟨p, value, _, hlive, hkey, hsearch⟩ | ⟨habsent, _, _, -, -, -, -, hsearch⟩ := search_spec h ht hmask key
  · exact Or.inl ⟨p, value, hlive, hkey, by rw [hlookup, hsearch]; rfl⟩
  · exact Or.inr ⟨habsent, by rw [hlookup, hsearch]; rfl⟩

theorem find_of_live (h : Indexed T table) (ht : t.table = some table) (hmask : t.tableSizeMask = table.length - 1)
    {p : Nat} {value : Value} (hlive : table[p]? = some (.live value)) : t.find T (T.extract value) = .ok (some p) := by
  have hfind : t.find T (T.extract value) = t.lookup T (T.extract value) := by
    rw [find, ht]
    rfl
  obtain ⟨q, w, hw, hkey, hlookup⟩ | ⟨habsent, -⟩ := lookup_spec h ht hmask (T.extract value)
  · rw [hfind, hlookup, h.position_unique hw hlive hkey]
  · exact absurd rfl (habsent p value hlive)

end

/-! ## A bucket is written -/

@[simp] theorem position_set (key : Key) (n p : Nat) (bucket : Bucket Value) :
    position T (table.set p bucket) key n = position T table key n := by
  rw [position, position, List.length_set]

theorem getElem?_set_self {p : Nat} (hp : p < table.length) (bucket : Bucket Value) :
    (table.set p bucket)[p]? = some bucket := by
  rw [List.getElem?_set, if_pos rfl, if_pos hp]

theorem getElem?_set_ne {p q : Nat} (hne : q ≠ p) (bucket : Bucket Value) : (table.set p bucket)[q]? = table[q]? := by
  rw [List.getElem?_set, if_neg fun h => hne h.symm]

theorem stopsAt_set_ne {p q : Nat} (hne : q ≠ p) {bucket : Bucket Value} {key : Key} :
    StopsAt T (table.set p bucket) key q ↔ StopsAt T table key q := by
  rw [StopsAt, StopsAt, getElem?_set_ne hne]

theorem Passes.set {key : Key} {n p : Nat} {bucket : Bucket Value} (h : Passes T table key n)
    (hnot : ∀ m < n, position T table key m = p → ¬ StopsAt T (table.set p bucket) key p) :
    Passes T (table.set p bucket) key n := by
  intro m hm hstop
  rw [position_set] at hstop
  by_cases hp : position T table key m = p
  · exact hnot m hm hp (hp ▸ hstop)
  · exact h m hm ((stopsAt_set_ne hp).1 hstop)

/-- **A deleted bucket** leaves the other values reachable. -/
theorem Indexed.delete (h : Indexed T table) {p : Nat} (hp : p < table.length)
    (hroom : (table.set p .deleted).countP Bucket.isLive + (table.set p .deleted).countP Bucket.isDeletedBucket <
      table.length) : Indexed T (table.set p .deleted) := by
  have hself : (table.set p .deleted)[p]? = some .deleted := getElem?_set_self hp _
  refine ⟨by rw [List.length_set]; exact h.length_eq, by rw [List.length_set]; exact hroom, ?_⟩
  intro q value hlive
  have hne : q ≠ p := by
    rintro rfl
    rw [hself] at hlive
    cases hlive
  rw [getElem?_set_ne hne] at hlive
  obtain ⟨n, hpass, hposition⟩ := h.reachable q value hlive
  refine ⟨n, hpass.set ?_, by rw [position_set, hposition]⟩
  rintro m - -
  rw [StopsAt, hself]
  simp

/-- **A bucket that is filled** on the way of the search for the new value leaves all values reachable. -/
theorem Indexed.fill (h : Indexed T table) {value : Value} {m n : Nat} {bucket : Bucket Value}
    (habsent : Absent T table (T.extract value)) (hpass : Passes T table (T.extract value) n) (hmn : m ≤ n)
    (hn : n < table.length) (hbucket : table[position T table (T.extract value) m]? = some bucket)
    (hfree : bucket.isLive = false)
    (hroom : (table.set (position T table (T.extract value) m) (.live value)).countP Bucket.isLive +
      (table.set (position T table (T.extract value) m) (.live value)).countP Bucket.isDeletedBucket < table.length) :
    Indexed T (table.set (position T table (T.extract value) m) (.live value)) := by
  have hself := getElem?_set_self (h.position_lt (T.extract value) m) (.live value)
  refine ⟨by rw [List.length_set]; exact h.length_eq, by rw [List.length_set]; exact hroom, ?_⟩
  intro q w hlive
  by_cases hq : q = position T table (T.extract value) m
  · -- the new value: the search for its key has passed what is in front of the bucket
    subst hq
    rw [hself] at hlive
    cases hlive
    refine ⟨m, Passes.set (fun m' hm' => hpass m' (by omega)) ?_, position_set ..⟩
    intro m' hm' heq
    have := h.position_inj (T.extract value) (by omega) (by omega) heq
    omega
  · -- another value: the bucket was passed as a deleted one, and the new value has another key
    rw [getElem?_set_ne hq] at hlive
    obtain ⟨k, hk, hposition⟩ := h.reachable q w hlive
    refine ⟨k, hk.set ?_, by rw [position_set, hposition]⟩
    intro m' hm' heq hstop
    rw [StopsAt, hself] at hstop
    obtain hstop | ⟨v, hv, hkey⟩ := hstop
    · cases hstop
    · cases hv
      exact habsent q w hlive hkey.symm

theorem countP_set (q : Bucket Value → Bool) {p : Nat} {bucket : Bucket Value} (h : table[p]? = some bucket)
    (bucket' : Bucket Value) :
    (table.set p bucket').countP q + (if q bucket then 1 else 0) = table.countP q + if q bucket' then 1 else 0 := by
  obtain ⟨hp, rfl⟩ := List.getElem?_eq_some_iff.1 h
  have hle : (if q table[p] then 1 else 0) ≤ table.countP q := by
    split_ifs with hq
    · exact List.countP_pos_iff.2 ⟨_, List.getElem_mem hp, hq⟩
    · exact Nat.zero_le _
  rw [List.countP_set hp]
  omega

end HashTable

end WebKit.WTF
