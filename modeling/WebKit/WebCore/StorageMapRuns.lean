import Mathlib.Data.List.NodupEquivFin
import WebKit.WebCore.StorageMap

/-!
# The length and the quota of storage maps over runs

The length a map keeps is exact (`LengthExact`) if every call that is not held to a quota leaves fewer than `2 ^ 32` code
units, items are imported under new keys and no value in the way is null (`MeetsLength`). A map keeps its quota unless
`setItemIgnoringQuota` is called on a shared map: the copy is made while the quota is off (`MeetsQuota`). In every run of
such calls the lengths are exact, a reference keeps its quota, and `setItem` holds its map to it
(`storage_maps_keep_quota`); `setItemIgnoringQuota` on a shared map leaves a map that accepts everything
(`storage_map_loses_quota`).
-/

namespace WebKit.WebCore

open WTF Transition FiniteMap

/-- The length of a key and its value together. -/
def itemSize (key : WTFString) (value : MaybeString) : Nat := key.characters.length + size value

namespace StorageMap

/-- The sum of the lengths of the keys and values. -/
def total (m : StorageMap) : Nat := weight itemSize m.map

/-- The length a map keeps is the sum of the lengths of its keys and values. -/
def LengthExact (m : StorageMap) : Prop := m.currentLength.toNat = m.total

variable {m : StorageMap} {key : WTFString} {value : MaybeString} {refCount : Nat}

/-! ## One map -/

theorem lengthExact_create {quota : UInt32} : (create quota).LengthExact := by
  simp [LengthExact, create, total]

theorem weightAt_eq (hn : m.map.lookup key ≠ some none) :
    weightAt itemSize m.map key = (if m.getItem key = none then 0 else key.characters.length) + size (m.getItem key) := by
  unfold getItem
  cases h : m.map.lookup key with
  | none =>
    rw [weightAt_of_not_mem (Finmap.lookup_eq_none.1 h)]
    rfl
  | some old =>
    rw [weightAt_of_lookup h]
    cases old with
    | none => exact absurd h hn
    | some old => rfl

/-- **The new length** is the sum of the lengths with the new value, modulo `2 ^ 32`, and the sum itself if no step
wrapped. -/
theorem lengthWith_spec (value : MaybeString) (h : m.LengthExact) (hn : m.map.lookup key ≠ some none) :
    (m.lengthWith key value).1.toNat = weight itemSize (m.map.insert key value) % 2 ^ 32 ∧
      ((m.lengthWith key value).2 = false → weight itemSize (m.map.insert key value) < 2 ^ 32) := by
  have hinsert := weight_insert_add (f := itemSize) (m := m.map) (k := key) (v := value)
  rw [weightAt_eq hn] at hinsert
  have hexact : m.currentLength.toNat = weight itemSize m.map := h
  have hvalue := toNat_length value
  have hold := toNat_length (m.getItem key)
  have hkey := key.toNat_length
  have hitem : itemSize key value = key.characters.length + size value := rfl
  unfold lengthWith
  simp only [Bool.or_eq_false_iff, decide_eq_false_iff_not, gt_iff_lt, UInt32.lt_iff_toNat_lt, UInt32.toNat_add,
    UInt32.toNat_sub]
  have := m.currentLength.toNat_lt
  have := (length value).toNat_lt
  have := (length (m.getItem key)).toNat_lt
  have := key.length.toNat_lt
  split at hinsert
  · rename_i hnone
    rw [if_pos hnone]
    omega
  · rename_i hsome
    rw [if_neg hsome]
    have := UInt32.toNat_zero
    omega

/-- The sum of the lengths with `value` under `key`. -/
def totalWith (m : StorageMap) (key : WTFString) (value : MaybeString) : Nat := weight itemSize (m.map.insert key value)

theorem setItemInPlace_spec (m : StorageMap) (key : WTFString) (value : MaybeString) :
    ((m.setItemInPlace key value).quotaException = true ∧ (m.setItemInPlace key value).self = m) ∨
      ((m.setItemInPlace key value).quotaException = false ∧
        (m.setItemInPlace key value).self =
          { m with map := m.map.insert key value, currentLength := (m.lengthWith key value).1 } ∧
        (m.quotaSize ≠ noQuota → (m.lengthWith key value).2 = false ∧
          (m.lengthWith key value).1 ≤ m.quotaSize / 2)) := by
  unfold setItemInPlace
  simp only
  split
  · exact .inl ⟨rfl, rfl⟩
  · rename_i hquota
    refine .inr ⟨rfl, rfl, fun hne => ?_⟩
    simpa [hne] using hquota

theorem setItemInPlace_returned : (m.setItemInPlace key value).returned = none := by
  unfold setItemInPlace
  simp only
  split <;> rfl

theorem setItemInPlace_lengthExact (h : m.LengthExact) (hn : m.map.lookup key ≠ some none)
    (hfit : m.quotaSize = noQuota → m.totalWith key value < 2 ^ 32) :
    (m.setItemInPlace key value).self.LengthExact := by
  obtain ⟨-, hself⟩ | ⟨-, hself, hquota⟩ := setItemInPlace_spec m key value
  · rwa [hself]
  · obtain ⟨hlength, hoverflow⟩ := lengthWith_spec value h hn
    rw [hself]
    have hlt : m.totalWith key value < 2 ^ 32 := by
      by_cases hq : m.quotaSize = noQuota
      · exact hfit hq
      · exact hoverflow (hquota hq).1
    exact hlength.trans (Nat.mod_eq_of_lt hlt)

theorem removeItemInPlace_lengthExact (h : m.LengthExact) (hn : m.map.lookup key ≠ some none) :
    (m.removeItemInPlace key).LengthExact := by
  have herase := weight_erase_add (f := itemSize) (m := m.map) (k := key)
  rw [weightAt_eq hn] at herase
  have hexact : m.currentLength.toNat = weight itemSize m.map := h
  have hold := toNat_length (m.getItem key)
  have hkey := key.toNat_length
  have := m.currentLength.toNat_lt
  have := (length (m.getItem key)).toNat_lt
  have := key.length.toNat_lt
  change (m.removeItemInPlace key).currentLength.toNat = weight itemSize (m.map.erase key)
  unfold removeItemInPlace
  simp only [UInt32.toNat_sub]
  split at herase
  · rename_i hnone
    rw [if_pos hnone]
    have := UInt32.toNat_zero
    omega
  · rename_i hsome
    rw [if_neg hsome]
    omega

theorem importItem_lengthExact {item : WTFString × MaybeString} (h : m.LengthExact) (hnew : item.1 ∉ m.map)
    (hfit : m.total + itemSize item.1 item.2 < 2 ^ 32) :
    (m.importItem item).LengthExact ∧ (m.importItem item).total = m.total + itemSize item.1 item.2 := by
  have hinsert := weight_insert_of_not_mem (f := itemSize) (v := item.2) hnew
  have hexact : m.currentLength.toNat = m.total := h
  have htotal : (m.importItem item).total = m.total + itemSize item.1 item.2 := by
    unfold total importItem
    simp only [if_neg hnew]
    rw [hinsert, Nat.add_comm]
  refine ⟨?_, htotal⟩
  have hvalue := toNat_length item.2
  have hkey := item.1.toNat_length
  unfold LengthExact
  rw [htotal]
  unfold itemSize at *
  simp only [importItem, UInt32.toNat_add]
  omega

/-- What the items of a list weigh together. -/
def sizeOfItems (items : List (WTFString × MaybeString)) : Nat := (items.map fun item => itemSize item.1 item.2).sum

theorem importItems_lengthExact {items : List (WTFString × MaybeString)} (h : m.LengthExact)
    (hnodup : (items.map Prod.fst).Nodup) (hnew : ∀ item ∈ items, item.1 ∉ m.map)
    (hfit : m.total + sizeOfItems items < 2 ^ 32) : (m.importItems items).LengthExact := by
  induction items generalizing m with
  | nil => exact h
  | cons item items ih =>
    simp only [sizeOfItems, List.map_cons, List.sum_cons, List.nodup_cons] at hnodup hfit
    obtain ⟨hexact, htotal⟩ := importItem_lengthExact h (hnew item (List.mem_cons_self ..)) (by omega)
    refine ih hexact hnodup.2 (fun other hmem => ?_) (by rw [htotal, sizeOfItems]; omega)
    have hother := hnew other (List.mem_cons_of_mem _ hmem)
    have hne : other.1 ≠ item.1 := fun he => hnodup.1 (he ▸ List.mem_map_of_mem hmem)
    simp only [importItem]
    rw [if_neg (hnew item (List.mem_cons_self ..)), Finmap.mem_insert]
    exact not_or.2 ⟨hne, hother⟩

end StorageMap

namespace StorageMaps

variable {s t : StorageMaps} {i j a b : Nat} {m m' : StorageMap} {call : Nat → StorageMap → Mutation} {result : Mutation}

/-! ## One call through a reference -/

theorem mapOf_eq_some : s.mapOf i = some m ↔ ∃ a, s.addressOf i = some a ∧ s.maps[a]? = some m := by
  unfold mapOf
  exact Option.bind_eq_some_iff

theorem addressOf_eq_some : s.addressOf i = some a ↔ s.refs[i]? = some (some a) := by
  unfold addressOf
  rw [Option.join_eq_some_iff]

theorem mutate_eq_some (h : s.mutate i call = some t) :
    ∃ a m, s.addressOf i = some a ∧ s.maps[a]? = some m ∧ t = s.assign i a (call (s.refCount a) m) := by
  unfold mutate at h
  simp only [Option.bind_eq_bind, Option.bind_eq_some_iff, Option.pure_def, Option.some.injEq] at h
  obtain ⟨a, ha, m, hm, rfl⟩ := h
  exact ⟨a, m, ha, hm, rfl⟩

theorem mapOf_assign (ha : s.addressOf i = some a) (hm : s.maps[a]? = some m) :
    (s.assign i a result).mapOf i = some (result.returned.getD result.self) := by
  obtain ⟨hlt, -⟩ := List.getElem?_eq_some_iff.1 hm
  obtain ⟨hi, -⟩ := List.getElem?_eq_some_iff.1 (addressOf_eq_some.1 ha)
  rw [mapOf_eq_some]
  unfold assign
  cases hr : result.returned with
  | none =>
    refine ⟨a, addressOf_eq_some.2 (addressOf_eq_some.1 ha), ?_⟩
    rw [List.getElem?_set_self hlt, Option.getD_none]
  | some copied =>
    refine ⟨(s.maps.set a result.self).length, addressOf_eq_some.2 (List.getElem?_set_self hi), ?_⟩
    rw [List.getElem?_concat_length, Option.getD_some]

/-- Another reference refers to the same address, whose map changes only if it is the object of the call. -/
theorem mapOf_assign_of_ne (hj : j ≠ i) (hb : s.addressOf j = some b) (hm : s.maps[b]? = some m) :
    (s.assign i a result).mapOf j = some (if b = a then result.self else m) := by
  obtain ⟨hlt, -⟩ := List.getElem?_eq_some_iff.1 hm
  have hset : (s.maps.set a result.self)[b]? = some (if b = a then result.self else m) := by
    by_cases hba : b = a
    · rw [if_pos hba, ← hba, List.getElem?_set_self hlt]
    · rw [if_neg hba, List.getElem?_set_ne (Ne.symm hba), hm]
  rw [mapOf_eq_some]
  unfold assign
  cases result.returned with
  | none => exact ⟨b, addressOf_eq_some.2 (addressOf_eq_some.1 hb), hset⟩
  | some copied =>
    refine ⟨b, addressOf_eq_some.2 ?_, ?_⟩
    · rw [List.getElem?_set_ne (Ne.symm hj)]
      exact addressOf_eq_some.1 hb
    · rw [List.getElem?_append_left (by rwa [List.length_set])]
      exact hset

theorem mem_maps_assign (h : m ∈ (s.assign i a result).maps) :
    m ∈ s.maps ∨ m = result.self ∨ result.returned = some m := by
  unfold assign at h
  cases hr : result.returned with
  | none =>
    rw [hr] at h
    exact (List.mem_or_eq_of_mem_set h).imp id .inl
  | some copied =>
    rw [hr] at h
    rcases List.mem_append.1 h with h | h
    · exact (List.mem_or_eq_of_mem_set h).imp id .inl
    · exact .inr (.inr (congrArg some (List.mem_singleton.1 h).symm))

/-- A reference that is alone with its map is the only one. -/
theorem eq_of_refCount_le_one (ha : s.addressOf i = some a) (hb : s.addressOf j = some a) (h : s.refCount a ≤ 1) : j = i := by
  by_contra hne
  have hi := addressOf_eq_some.1 ha
  have hj := addressOf_eq_some.1 hb
  have hdup : List.Duplicate (some a) s.refs := by
    rw [List.duplicate_iff_exists_distinct_get]
    obtain ⟨hil, hi⟩ := List.getElem?_eq_some_iff.1 hi
    obtain ⟨hjl, hj⟩ := List.getElem?_eq_some_iff.1 hj
    rcases Nat.lt_or_gt_of_ne hne with hlt | hlt
    · exact ⟨⟨j, hjl⟩, ⟨i, hil⟩, hlt, hj.symm, hi.symm⟩
    · exact ⟨⟨i, hil⟩, ⟨j, hjl⟩, hlt, hi.symm, hj.symm⟩
  have htwo : 2 ≤ s.refCount a := by
    have hcount := (List.duplicate_iff_sublist.1 hdup).count_le (some a)
    rwa [List.count_cons_self, List.count_cons_self, List.count_nil] at hcount
  omega

/-! ## What the steps of a run have to meet -/

/-- The calls that keep lengths exact: no null value is in the way, and a call that is not held to a quota leaves fewer
than `2 ^ 32` code units. -/
def MeetsLength (s : StorageMaps) : StorageMapOp → Prop
  | .setItem i key value => ∀ m ∈ s.mapOf i,
    m.map.lookup key ≠ some none ∧ (m.quotaSize = noQuota → m.totalWith key value < 2 ^ 32)
  | .setItemIgnoringQuota i key value => ∀ m ∈ s.mapOf i,
    m.map.lookup key ≠ some none ∧ m.totalWith key value < 2 ^ 32
  | .removeItem i key => ∀ m ∈ s.mapOf i, m.map.lookup key ≠ some none
  | .importItems i items => ∀ m ∈ s.mapOf i, (items.map Prod.fst).Nodup ∧ (∀ item ∈ items, item.1 ∉ m.map) ∧
    m.total + StorageMap.sizeOfItems items < 2 ^ 32
  | _ => True

/-- The calls that keep quotas: a shared map with a quota is not changed by `setItemIgnoringQuota`. -/
def MeetsQuota (s : StorageMaps) : StorageMapOp → Prop
  | .setItemIgnoringQuota i _ _ => ∀ a ∈ s.addressOf i, 1 < s.refCount a → ∀ m ∈ s.maps[a]?, m.quotaSize = noQuota
  | _ => True

instance : ∀ op, Decidable (MeetsLength s op)
  | .setItem i key value => inferInstanceAs (Decidable (∀ m ∈ s.mapOf i,
      m.map.lookup key ≠ some none ∧ (m.quotaSize = noQuota → m.totalWith key value < 2 ^ 32)))
  | .setItemIgnoringQuota i key value => inferInstanceAs (Decidable (∀ m ∈ s.mapOf i,
      m.map.lookup key ≠ some none ∧ m.totalWith key value < 2 ^ 32))
  | .removeItem i key => inferInstanceAs (Decidable (∀ m ∈ s.mapOf i, m.map.lookup key ≠ some none))
  | .importItems i items => inferInstanceAs (Decidable (∀ m ∈ s.mapOf i, (items.map Prod.fst).Nodup ∧
      (∀ item ∈ items, item.1 ∉ m.map) ∧ m.total + StorageMap.sizeOfItems items < 2 ^ 32))
  | .create _ | .ref _ | .deref _ => inferInstanceAs (Decidable True)

instance : ∀ op, Decidable (MeetsQuota s op)
  | .setItemIgnoringQuota i _ _ => inferInstanceAs (Decidable
      (∀ a ∈ s.addressOf i, 1 < s.refCount a → ∀ m ∈ s.maps[a]?, m.quotaSize = noQuota))
  | .create _ | .ref _ | .deref _ | .setItem .. | .removeItem .. | .importItems .. => inferInstanceAs (Decidable True)

/-- Every map keeps its exact length. -/
def LengthsExact (s : StorageMaps) : Prop := ∀ m ∈ s.maps, m.LengthExact

/-- Every reference refers to a map with the quota it had before. -/
def KeepsQuotas (s t : StorageMaps) : Prop :=
  ∀ i m m', s.mapOf i = some m → t.mapOf i = some m' → m'.quotaSize = m.quotaSize

end StorageMaps

namespace Mutation

/-- What holds of the object of a call and of the map it returns. -/
def All (P : StorageMap → Prop) (result : Mutation) : Prop := P result.self ∧ ∀ copied ∈ result.returned, P copied

end Mutation

namespace StorageMap

variable {m : StorageMap} {key : WTFString} {value : MaybeString} {refCount : Nat} {P : StorageMap → Prop}

/-- A call that copies a shared map leaves the object as it is and returns what the call makes of it. -/
theorem setItem_all (refCount : Nat) (hm : P m) (h : P (m.setItemInPlace key value).self) : (m.setItem refCount key value).All P := by
  unfold setItem
  split
  · exact ⟨hm, fun copied hc => Option.some.inj hc ▸ h⟩
  · refine ⟨h, fun copied hc => ?_⟩
    rw [setItemInPlace_returned] at hc
    cases hc

theorem setItem_map : (m.setItem refCount key value).returned.getD (m.setItem refCount key value).self =
    (m.setItemInPlace key value).self := by
  unfold setItem
  split
  · rfl
  · rw [setItemInPlace_returned, Option.getD_none]

theorem setItem_quotaException :
    (m.setItem refCount key value).quotaException = (m.setItemInPlace key value).quotaException := by
  unfold setItem
  split <;> rfl

theorem removeItem_all (hm : P m) (h : P (m.removeItemInPlace key)) : (m.removeItem refCount key).All P := by
  unfold removeItem
  split
  · exact ⟨hm, fun copied hc => Option.some.inj hc ▸ h⟩
  · exact ⟨h, fun copied hc => by cases hc⟩

theorem setItemInPlace_quotaSize : (m.setItemInPlace key value).self.quotaSize = m.quotaSize := by
  obtain ⟨-, hself⟩ | ⟨-, hself, -⟩ := setItemInPlace_spec m key value <;> rw [hself]

theorem lengthExact_quota {quota : UInt32} (h : m.LengthExact) : LengthExact { m with quotaSize := quota } := h

theorem setItemIgnoringQuota_lengthExact (h : m.LengthExact) (hn : m.map.lookup key ≠ some none)
    (hfit : m.totalWith key value < 2 ^ 32) : (m.setItemIgnoringQuota refCount key value).All LengthExact := by
  have hoff : LengthExact { m with quotaSize := noQuota } := h
  have hall := setItem_all refCount hoff (setItemInPlace_lengthExact hoff hn fun _ => hfit)
  exact ⟨lengthExact_quota hall.1, hall.2⟩

theorem setItemIgnoringQuota_quotaSize (h : 1 < refCount → m.quotaSize = noQuota) :
    (m.setItemIgnoringQuota refCount key value).All fun m' => m'.quotaSize = m.quotaSize := by
  refine ⟨rfl, fun copied hc => ?_⟩
  have hall : (setItem refCount { m with quotaSize := noQuota } key value).All fun m' => m'.quotaSize = noQuota :=
    setItem_all refCount rfl setItemInPlace_quotaSize
  by_cases hr : 1 < refCount
  · exact (hall.2 copied hc).trans (h hr).symm
  · have hnone : (setItem refCount { m with quotaSize := noQuota } key value).returned = none := by
      unfold setItem
      rw [if_neg hr, setItemInPlace_returned]
    rw [show (m.setItemIgnoringQuota refCount key value).returned = none from hnone] at hc
    cases hc

theorem importItems_quotaSize {items : List (WTFString × MaybeString)} :
    (m.importItems items).quotaSize = m.quotaSize := by
  induction items generalizing m with
  | nil => rfl
  | cons item items ih => exact ih

end StorageMap

namespace StorageMaps

variable {s t : StorageMaps} {i : Nat} {m : StorageMap} {call : Nat → StorageMap → Mutation} {op : StorageMapOp}

/-! ## Every step -/

section

variable (hs : s.mutate i call = some t)
include hs

theorem mutate_lengthsExact (h : LengthsExact s)
    (hcall : ∀ a, s.addressOf i = some a → ∀ m, s.maps[a]? = some m → (call (s.refCount a) m).All StorageMap.LengthExact) :
    LengthsExact t := by
  obtain ⟨a, m, ha, hm, rfl⟩ := mutate_eq_some hs
  obtain ⟨hself, hcopied⟩ := hcall a ha m hm
  intro m' hm'
  rcases mem_maps_assign hm' with hm' | rfl | hm'
  · exact h m' hm'
  · exact hself
  · exact hcopied m' hm'

theorem mutate_keepsQuotas
    (hcall : ∀ a, s.addressOf i = some a → ∀ m, s.maps[a]? = some m →
      (call (s.refCount a) m).All fun m' => m'.quotaSize = m.quotaSize) : KeepsQuotas s t := by
  obtain ⟨a, m, ha, hm, rfl⟩ := mutate_eq_some hs
  obtain ⟨hself, hcopied⟩ := hcall a ha m hm
  intro j n n' hn hn'
  obtain ⟨b, hb, hnb⟩ := mapOf_eq_some.1 hn
  by_cases hj : j = i
  · subst hj
    obtain rfl : a = b := Option.some.inj (ha.symm.trans hb)
    obtain rfl : m = n := Option.some.inj (hm.symm.trans hnb)
    rw [mapOf_assign ha hm, Option.some.injEq] at hn'
    subst hn'
    cases hr : (call (s.refCount a) m).returned with
    | none => exact hself
    | some copied => exact hcopied copied hr
  · rw [mapOf_assign_of_ne hj hb hnb, Option.some.injEq] at hn'
    subst hn'
    split
    · rename_i hba
      subst hba
      obtain rfl : m = n := Option.some.inj (hm.symm.trans hnb)
      exact hself
    · rfl

end

/-- **A step keeps the lengths exact.** -/
theorem step_lengthsExact (h : LengthsExact s) (hop : MeetsLength s op) (hs : s.step op = some t) : LengthsExact t := by
  have hmem : ∀ {i a m}, s.addressOf i = some a → s.maps[a]? = some m → s.mapOf i = some m ∧ m.LengthExact :=
    fun ha hm => ⟨mapOf_eq_some.2 ⟨_, ha, hm⟩, h _ (List.mem_of_getElem? hm)⟩
  cases op with
  | create quota =>
    cases hs
    intro m hm
    rcases List.mem_append.1 hm with hm | hm
    · exact h m hm
    · exact List.mem_singleton.1 hm ▸ StorageMap.lengthExact_create
  | ref i =>
    obtain ⟨a, -, ha⟩ := Option.bind_eq_some_iff.1 hs
    cases ha
    exact h
  | deref i =>
    cases hs
    exact h
  | setItem i key value =>
    rw [step] at hs
    refine mutate_lengthsExact hs h fun a ha m hm => ?_
    obtain ⟨hm, hexact⟩ := hmem ha hm
    obtain ⟨hnull, hfit⟩ := hop m hm
    exact StorageMap.setItem_all _ hexact (StorageMap.setItemInPlace_lengthExact hexact hnull hfit)
  | setItemIgnoringQuota i key value =>
    rw [step] at hs
    refine mutate_lengthsExact hs h fun a ha m hm => ?_
    obtain ⟨hm, hexact⟩ := hmem ha hm
    exact StorageMap.setItemIgnoringQuota_lengthExact hexact (hop m hm).1 (hop m hm).2
  | removeItem i key =>
    rw [step] at hs
    refine mutate_lengthsExact hs h fun a ha m hm => ?_
    obtain ⟨hm, hexact⟩ := hmem ha hm
    exact StorageMap.removeItem_all hexact (StorageMap.removeItemInPlace_lengthExact hexact (hop m hm))
  | importItems i items =>
    rw [step] at hs
    refine mutate_lengthsExact hs h fun a ha m hm => ⟨?_, fun copied hc => ?_⟩
    swap
    · cases hc
    obtain ⟨hm, hexact⟩ := hmem ha hm
    obtain ⟨hnodup, hnew, hfit⟩ := hop m hm
    exact StorageMap.importItems_lengthExact hexact hnodup hnew hfit

theorem keepsQuotas_append {maps : List StorageMap} {refs : List (Option Nat)} :
    KeepsQuotas s ⟨s.maps ++ maps, s.refs ++ refs⟩ := by
  intro j n n' hn hn'
  obtain ⟨b, hb, hnb⟩ := mapOf_eq_some.1 hn
  obtain ⟨c, hc, hnc⟩ := mapOf_eq_some.1 hn'
  obtain ⟨hjlt, -⟩ := List.getElem?_eq_some_iff.1 (addressOf_eq_some.1 hb)
  obtain ⟨hblt, -⟩ := List.getElem?_eq_some_iff.1 hnb
  have hc' := addressOf_eq_some.1 hc
  rw [List.getElem?_append_left hjlt, addressOf_eq_some.1 hb] at hc'
  cases hc'
  rw [List.getElem?_append_left hblt, hnb] at hnc
  cases hnc
  rfl

/-- **A step keeps the quotas.** -/
theorem step_keepsQuotas (hop : MeetsQuota s op) (hs : s.step op = some t) : KeepsQuotas s t := by
  cases op with
  | create quota =>
    cases hs
    exact keepsQuotas_append
  | ref i =>
    obtain ⟨a, -, ha⟩ := Option.bind_eq_some_iff.1 hs
    cases ha
    have happend : KeepsQuotas s ⟨s.maps ++ [], s.refs ++ [some a]⟩ := keepsQuotas_append
    rwa [List.append_nil] at happend
  | deref i =>
    cases hs
    intro j n n' hn hn'
    obtain ⟨b, hb, hnb⟩ := mapOf_eq_some.1 hn
    obtain ⟨c, hc, hnc⟩ := mapOf_eq_some.1 hn'
    have hc' := addressOf_eq_some.1 hc
    by_cases hij : i = j
    · subst hij
      obtain ⟨hlt, -⟩ := List.getElem?_eq_some_iff.1 (addressOf_eq_some.1 hb)
      rw [List.getElem?_set_self hlt] at hc'
      cases hc'
    · rw [List.getElem?_set_ne hij, addressOf_eq_some.1 hb] at hc'
      cases hc'
      rw [hnb] at hnc
      cases hnc
      rfl
  | setItem i key value =>
    rw [step] at hs
    refine mutate_keepsQuotas hs fun a _ m _ => ?_
    exact StorageMap.setItem_all (P := fun m' => m'.quotaSize = m.quotaSize) _ rfl StorageMap.setItemInPlace_quotaSize
  | setItemIgnoringQuota i key value =>
    rw [step] at hs
    refine mutate_keepsQuotas hs fun a ha m hm => ?_
    exact StorageMap.setItemIgnoringQuota_quotaSize fun hshared => hop a ha hshared m hm
  | removeItem i key =>
    rw [step] at hs
    refine mutate_keepsQuotas hs fun a _ m _ => ?_
    exact StorageMap.removeItem_all (P := fun m' => m'.quotaSize = m.quotaSize) rfl rfl
  | importItems i items =>
    rw [step] at hs
    refine mutate_keepsQuotas hs fun a _ m _ => ⟨StorageMap.importItems_quotaSize, fun copied hc => ?_⟩
    cases hc

/-- **`setItem` meets the quota**: with an exception the map is as it was, and without one it is within its quota. -/
theorem step_setItem {a : Nat} {key : WTFString} {value : MaybeString} (hs : s.step (.setItem i key value) = some t)
    (ha : s.addressOf i = some a) (hm : s.maps[a]? = some m) :
    ((m.setItem (s.refCount a) key value).quotaException = true → t.mapOf i = some m) ∧
      ((m.setItem (s.refCount a) key value).quotaException = false → m.quotaSize ≠ noQuota →
        ∃ m', t.mapOf i = some m' ∧ m'.currentLength.toNat * 2 ≤ m'.quotaSize.toNat) := by
  rw [step] at hs
  obtain ⟨b, n, hb, hn, rfl⟩ := mutate_eq_some hs
  obtain rfl : a = b := Option.some.inj (ha.symm.trans hb)
  obtain rfl : m = n := Option.some.inj (hm.symm.trans hn)
  rw [StorageMap.setItem_quotaException, mapOf_assign ha hm, StorageMap.setItem_map]
  obtain ⟨hquota, hself⟩ | ⟨hquota, hself, hfit⟩ := StorageMap.setItemInPlace_spec m key value
  · rw [hquota, hself]
    exact ⟨fun _ => rfl, fun h => absurd h (by decide)⟩
  · rw [hquota, hself]
    refine ⟨fun h => absurd h (by decide), fun _ hne => ⟨_, rfl, ?_⟩⟩
    have hle := UInt32.le_iff_toNat_le.1 (hfit hne).2
    rw [UInt32.toNat_div, show (2 : UInt32).toNat = 2 from rfl] at hle
    simp only
    omega

/-! ## Runs -/

/-- **Storage maps keep their lengths and their quotas** in every run whose calls meet `MeetsLength` and `MeetsQuota`. -/
theorem storage_maps_keep_quota {ops : List StorageMapOp} {s : StorageMaps}
    (hr : Run (Guarded (fun s op => MeetsLength s op ∧ MeetsQuota s op) (Via step)) init ops s) :
    LengthsExact s ∧ ∀ op t, Guarded (fun s op => MeetsLength s op ∧ MeetsQuota s op) (Via step) s op t →
      KeepsQuotas s t ∧ ∀ i key value a m, op = .setItem i key value → s.addressOf i = some a → s.maps[a]? = some m →
        ((m.setItem (s.refCount a) key value).quotaException = true → t.mapOf i = some m) ∧
          ((m.setItem (s.refCount a) key value).quotaException = false → m.quotaSize ≠ noQuota →
            ∃ m', t.mapOf i = some m' ∧ m'.currentLength.toNat * 2 ≤ m'.quotaSize.toNat) := by
  have hstep : ∀ s op t, LengthsExact s →
      Guarded (fun s op => MeetsLength s op ∧ MeetsQuota s op) (Via step) s op t → LengthsExact t :=
    fun s op t h hs => step_lengthsExact h hs.1.1 hs.2
  have hinit : LengthsExact init := fun m hm => by cases hm
  refine ⟨hr.invariant hstep hinit, fun op t hs => ?_⟩
  refine ⟨step_keepsQuotas hs.1.2 hs.2, fun i key value a m hop ha hm => ?_⟩
  subst hop
  exact step_setItem hs.2 ha hm

/-- Two references to one map, one of which sets an item in a copy. -/
theorem storage_maps_keep_quota_shared :
    let a : WTFString := ⟨[97], by decide⟩
    ∃ s, runFn (guardFn (fun s op => MeetsLength s op ∧ MeetsQuota s op) step) init
        [.create 8, .ref 0, .setItem 0 a (some a), .removeItem 1 a] = some s ∧
      s.maps.map StorageMap.currentLength = [0, 2] ∧ LengthsExact s := by
  intro a
  have hr : (runFn (guardFn (fun s op => MeetsLength s op ∧ MeetsQuota s op) step) init
      [.create 8, .ref 0, .setItem 0 a (some a), .removeItem 1 a]).map
        (fun s => s.maps.map StorageMap.currentLength) = some [0, 2] := by decide +kernel
  obtain ⟨s, hs, hlengths⟩ := Option.map_eq_some_iff.1 hr
  exact ⟨s, hs, hlengths, (storage_maps_keep_quota (run_of_runFn_guardFn hs)).1⟩

/-- **A map loses its quota**: a shared map with a quota of 8 bytes is copied by `setItemIgnoringQuota`, and the copy
accepts 11 characters. -/
theorem storage_map_loses_quota :
    let a : WTFString := ⟨[97], by decide⟩
    let long : WTFString := ⟨[97, 98, 99, 100, 101, 102, 103, 104, 105], by decide⟩
    (runFn step init [.create 8, .ref 0]).bind (fun s => (s.mapOf 0).map StorageMap.quotaSize) = some 8 ∧
      (runFn step init [.create 8, .ref 0, .setItemIgnoringQuota 0 a (some a)]).bind
        (fun s => (s.mapOf 0).map StorageMap.quotaSize) = some noQuota ∧
      (runFn step init [.create 8, .ref 0, .setItemIgnoringQuota 0 a (some a), .setItem 0 a (some long)]).bind
        (fun s => (s.mapOf 0).map StorageMap.currentLength) = some 10 := by
  decide +kernel

end StorageMaps

end WebKit.WebCore
