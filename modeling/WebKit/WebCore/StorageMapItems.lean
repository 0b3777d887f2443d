import WebKit.WebCore.StorageMapRuns

/-!
# The items of a storage map

What the calls on a map with one reference do to its items, as seen through `getItem`. A map without null values
(`NonNull`) is determined by what `getItem` returns (`map_eq_of_getItem`).
-/

namespace WebKit.WebCore

open WTF FiniteMap

namespace StorageMap

variable {m m' : StorageMap} {key k : WTFString} {value : MaybeString} {v : WTFString}

/-- No value of the map is the null string. -/
def NonNull (m : StorageMap) : Prop := ∀ k, m.map.lookup k ≠ some none

theorem lookup_eq_some_some (h : m.NonNull) : m.map.lookup k = (m.getItem k).map some := by
  unfold getItem
  cases hl : m.map.lookup k with
  | none => rfl
  | some value =>
    cases value with
    | none => exact absurd hl (h k)
    | some v => rfl

/-- **The items are what `getItem` returns.** -/
theorem map_eq_of_getItem (h : m.NonNull) (h' : m'.NonNull) (heq : ∀ k, m.getItem k = m'.getItem k) :
    m.map = m'.map := by
  refine Finmap.ext_lookup fun k => ?_
  rw [lookup_eq_some_some h, lookup_eq_some_some h', heq k]

theorem getItem_create {quota : UInt32} : (create quota).getItem k = none := by
  unfold getItem create
  rw [Finmap.lookup_empty]
  rfl

theorem nonNull_create {quota : UInt32} : (create quota).NonNull := fun k => by
  unfold create
  rw [Finmap.lookup_empty]
  simp

theorem getItem_of_insert (h : m'.map = m.map.insert key value) :
    m'.getItem k = if k = key then value else m.getItem k := by
  unfold getItem
  rw [h]
  split
  · rename_i hk
    rw [hk, Finmap.lookup_insert]
    rfl
  · rename_i hk
    rw [Finmap.lookup_insert_of_ne _ hk]

theorem nonNull_of_insert (hm : m.NonNull) (h : m'.map = m.map.insert key (some v)) : m'.NonNull := by
  intro k
  rw [h]
  by_cases hk : k = key
  · rw [hk, Finmap.lookup_insert]
    simp
  · rw [Finmap.lookup_insert_of_ne _ hk]
    exact hm k

theorem getItem_of_erase (h : m'.map = m.map.erase key) : m'.getItem k = if k = key then none else m.getItem k := by
  unfold getItem
  rw [h]
  split
  · rename_i hk
    rw [hk, Finmap.lookup_erase]
    rfl
  · rename_i hk
    rw [Finmap.lookup_erase_ne hk]

theorem nonNull_of_erase (hm : m.NonNull) (h : m'.map = m.map.erase key) : m'.NonNull := by
  intro k
  rw [h]
  by_cases hk : k = key
  · rw [hk, Finmap.lookup_erase]
    simp
  · rw [Finmap.lookup_erase_ne hk]
    exact hm k

theorem setItem_map_one (m : StorageMap) (key : WTFString) (value : MaybeString) :
    ((m.setItem 1 key value).quotaException = true ∧ (m.setItem 1 key value).self = m) ∨
      ((m.setItem 1 key value).quotaException = false ∧ (m.setItem 1 key value).self.map = m.map.insert key value) := by
  rw [show m.setItem 1 key value = m.setItemInPlace key value from rfl]
  obtain ⟨he, hself⟩ | ⟨he, hself, -⟩ := setItemInPlace_spec m key value
  · exact .inl ⟨he, hself⟩
  · exact .inr ⟨he, by rw [hself]⟩

theorem setItem_oldValue : (m.setItem 1 key value).oldValue = m.getItem key := by
  rw [show m.setItem 1 key value = m.setItemInPlace key value from rfl]
  unfold setItemInPlace
  simp only
  split <;> rfl

theorem setItemIgnoringQuota_map_one : (m.setItemIgnoringQuota 1 key value).self.map = m.map.insert key value := by
  change (setItemInPlace { m with quotaSize := noQuota } key value).self.map = m.map.insert key value
  unfold setItemInPlace
  simp only [ne_eq, not_true_eq_false, false_and, if_false]

theorem removeItem_map_one (m : StorageMap) (key : WTFString) : (m.removeItem 1 key).self.map = m.map.erase key := rfl

/-! ## Imported items -/

theorem lookup_importItems_of_not_mem {items : List (WTFString × MaybeString)} (h : k ∉ items.map Prod.fst) :
    (m.importItems items).map.lookup k = m.map.lookup k := by
  induction items generalizing m with
  | nil => rfl
  | cons item items ih =>
    rw [List.map_cons, List.mem_cons, not_or] at h
    refine (ih h.2).trans ?_
    unfold importItem
    simp only
    split
    · rfl
    · rw [Finmap.lookup_insert_of_ne _ h.1]

theorem lookup_importItems {items : List (WTFString × MaybeString)} (hn : (items.map Prod.fst).Nodup)
    (h : (k, value) ∈ items) (hk : k ∉ m.map) : (m.importItems items).map.lookup k = some value := by
  induction items generalizing m with
  | nil => cases h
  | cons item items ih =>
    rw [List.map_cons, List.nodup_cons] at hn
    rcases List.mem_cons.1 h with rfl | h
    · refine (lookup_importItems_of_not_mem hn.1).trans ?_
      simp only [importItem, if_neg hk, Finmap.lookup_insert]
    · have hne : k ≠ item.1 := fun he => hn.1 (he ▸ List.mem_map_of_mem h)
      refine ih hn.2 h fun hmem => hk ?_
      unfold importItem at hmem
      simp only at hmem
      split at hmem
      · exact hmem
      · exact (Finmap.mem_insert.1 hmem).resolve_left hne

/-- **An empty map that imports every item of a map** has the items of the map. -/
theorem map_importItems_create {items : Items} {values : List (WTFString × MaybeString)} {quota : UInt32}
    (h : Iterates items items.keys.card values) : ((create quota).importItems values).map = items := by
  refine Finmap.ext_lookup fun k => ?_
  cases hl : items.lookup k with
  | some value => exact lookup_importItems h.nodup (h.complete (le_refl _) hl) Finmap.notMem_empty
  | none =>
    rw [lookup_importItems_of_not_mem]
    · exact Finmap.lookup_empty k
    · intro hk
      obtain ⟨item, hitem, rfl⟩ := List.mem_map.1 hk
      rw [h.mem item hitem] at hl
      cases hl

theorem nonNull_importItems {items : List (WTFString × WTFString)} (hm : m.NonNull) :
    (m.importItems (items.map fun item => (item.1, some item.2))).NonNull := by
  induction items generalizing m with
  | nil => exact hm
  | cons item items ih =>
    refine ih ?_
    by_cases hk : item.1 ∈ m.map
    · intro k
      simp only [importItem, if_pos hk]
      exact hm k
    · have hmap : (m.importItem (item.1, some item.2)).map = m.map.insert item.1 (some item.2) := if_neg hk
      exact nonNull_of_insert hm hmap

end StorageMap

end WebKit.WebCore
