import WebKit.WebKit2.StorageAreaMapInv

/-!
# Events of other processes

What a change from another process does to the map of a process that has values and no clear to be answered. A clear is to
keep the pending keys with their values (`KeepsPending`), a change of one key is to leave the others alone (`ChangesKey`).
`lookup_mapAfterClear` is what the loop of `applyChange` stores, and `applyChange_applies_remote` says when that is what
it is to store.
-/

namespace WebKit.WebKit2

open WTF WebCore

namespace StorageAreaMap

variable {a a' : StorageAreaMap} {m m' : StorageMap} {key k : WTFString} {newValue : MaybeString}

/-- `a'` has of the map `m` of `a` what there is under pending keys, and the same changes pending. -/
structure KeepsPending (a : StorageAreaMap) (m : StorageMap) (a' : StorageAreaMap) : Prop where
  pending : a'.pendingValueChanges = a.pendingValueChanges
  map : ∃ m', a'.storageMap = some m' ∧ (∀ k, m'.contains k ↔ k ∈ a.pendingValueChanges ∧ m.contains k) ∧
    ∀ k, m'.contains k → m'.map.lookup k = m.map.lookup k

/-- `a'` differs from `a`, whose map is `m`, by `newValue` under `key`, and only if no change of `key` is pending. -/
structure ChangesKey (a : StorageAreaMap) (m : StorageMap) (key : WTFString) (newValue : MaybeString)
    (a' : StorageAreaMap) : Prop where
  pending : a'.pendingValueChanges = a.pendingValueChanges
  map : ∃ m', a'.storageMap = some m' ∧ (∀ k, k ≠ key → m'.map.lookup k = m.map.lookup k) ∧
    (key ∈ a.pendingValueChanges → m'.map.lookup key = m.map.lookup key) ∧
    (key ∉ a.pendingValueChanges → a.hasPendingGetValues = false → m'.map.lookup key = newValue.map some)

/-- Both, for every change from another process. -/
def AppliesRemote (a : StorageAreaMap) (m : StorageMap) : Prop :=
  (∀ newValue, a.KeepsPending m (a.applyChange none newValue)) ∧
    ∀ key newValue, a.ChangesKey m key newValue (a.applyChange (some key) newValue)

/-- Where no answer to the request for values is pending, no pending key is in the map; else every key in it is
pending. -/
def ClearSpares (a : StorageAreaMap) (m : StorageMap) : Prop :=
  if a.hasPendingGetValues then ∀ k, m.contains k → k ∈ a.pendingValueChanges
  else ∀ k ∈ a.pendingValueChanges, ¬m.contains k

/-! ## A clear -/

theorem lookup_setNull (map : StorageMap) :
    (if a.getItem key = none then map else (map.setItemIgnoringQuota 1 key none).self).map.lookup k =
      if k = key ∧ a.getItem key ≠ none then some none else map.map.lookup k := by
  by_cases hvalue : a.getItem key = none
  · rw [if_pos hvalue, if_neg fun h => h.2 hvalue]
  · rw [if_neg hvalue, StorageMap.setItemIgnoringQuota_map_one]
    by_cases hk : k = key
    · rw [if_pos ⟨hk, hvalue⟩, hk, Finmap.lookup_insert]
    · rw [if_neg fun h => hk h.1, Finmap.lookup_insert_of_ne _ hk]

/-- The loop stores a null value under every key that it visits and that has a value. -/
theorem lookup_clearLoop (keys : List WTFString) (map : StorageMap) :
    (keys.foldl (fun newStorageMap key => if a.getItem key = none then newStorageMap
        else (newStorageMap.setItemIgnoringQuota 1 key none).self) map).map.lookup k =
      if k ∈ keys ∧ a.getItem k ≠ none then some none else map.map.lookup k := by
  induction keys generalizing map with
  | nil => simp
  | cons key keys ih =>
    rw [List.foldl_cons, ih, lookup_setNull]
    by_cases hk : k = key
    · subst hk
      by_cases hvalue : a.getItem k = none <;> simp [hvalue]
    · simp [hk]

theorem lookup_mapAfterClear :
    a.mapAfterClear.map.lookup k = if k ∈ a.pendingValueChanges ∧ a.getItem k ≠ none then some none else none := by
  unfold mapAfterClear
  rw [lookup_clearLoop]
  simp [StorageMap.create]

theorem applyChange_clear (hclear : a.hasPendingClear = false) (hvalues : a.hasPendingGetValues = false) :
    a.applyChange none newValue = { a with storageMap := some a.mapAfterClear } := by
  have hidle : ¬(a.hasPendingClear = true ∨ a.hasPendingGetValues = true) := by simp [hclear, hvalues]
  unfold applyChange
  rw [if_neg hidle]

theorem applyChange_waiting {key : MaybeString} (hvalues : a.hasPendingGetValues = true) :
    a.applyChange key newValue = a := if_pos (.inr hvalues)

theorem keepsPending_of_spared (hclear : a.hasPendingClear = false) (hvalues : a.hasPendingGetValues = false)
    (hm : a.storageMap = some m) (h : ∀ k ∈ a.pendingValueChanges, ¬m.contains k) :
    a.KeepsPending m (a.applyChange none newValue) := by
  have hempty : ∀ k, a.mapAfterClear.map.lookup k = none := by
    intro k
    rw [lookup_mapAfterClear]
    refine if_neg fun hk => hk.2 ?_
    rw [getItem_of_map hm]
    unfold StorageMap.getItem
    rw [Finmap.lookup_eq_none.2 (h k hk.1)]
    rfl
  have hnot : ∀ k, ¬a.mapAfterClear.contains k := fun k => Finmap.lookup_eq_none.1 (hempty k)
  rw [applyChange_clear hclear hvalues]
  exact ⟨rfl, _, rfl, fun k => ⟨fun hk => absurd hk (hnot k), fun hk => absurd hk.2 (h k hk.1)⟩,
    fun k hk => absurd hk (hnot k)⟩

theorem spared_of_keepsPending (hclear : a.hasPendingClear = false) (hvalues : a.hasPendingGetValues = false)
    (hm : a.storageMap = some m) (h : a.KeepsPending m (a.applyChange none newValue)) :
    ∀ k ∈ a.pendingValueChanges, ¬m.contains k := by
  intro k hpending hk
  rw [applyChange_clear hclear hvalues] at h
  obtain ⟨m', hm', hkeys, hlookup⟩ := h.map
  cases hm'
  have hk' := (hkeys k).2 ⟨hpending, hk⟩
  have heq := hlookup k hk'
  rw [lookup_mapAfterClear, getItem_of_map hm] at heq
  unfold StorageMap.getItem at heq
  obtain ⟨value, hvalue⟩ := Finmap.mem_iff.1 hk
  rw [hvalue] at heq
  cases value <;> simp [hpending] at heq

theorem keepsPending_waiting_iff (hm : a.storageMap = some m) :
    a.KeepsPending m a ↔ ∀ k, m.contains k → k ∈ a.pendingValueChanges := by
  constructor
  · intro h k hk
    obtain ⟨m', hm', hkeys, -⟩ := h.map
    cases hm.symm.trans hm'
    exact ((hkeys k).1 hk).1
  · exact fun h => ⟨rfl, m, hm, fun k => ⟨fun hk => ⟨h k hk, hk⟩, And.right⟩, fun _ _ => rfl⟩

/-! ## A change of one key -/

theorem changesKey_same (hm : a.storageMap = some m)
    (h : key ∈ a.pendingValueChanges ∨ a.hasPendingGetValues = true) : a.ChangesKey m key newValue a := by
  refine ⟨rfl, m, hm, fun _ _ => rfl, fun _ => rfl, fun hkey hvalues => ?_⟩
  obtain h | h := h
  · exact absurd h hkey
  · rw [hvalues] at h
    cases h

/-- The map with `newValue` under `key`, or without `key` if that is null. -/
theorem lookup_change : (if newValue = none then (m.removeItem 1 key).self
      else (m.setItemIgnoringQuota 1 key newValue).self).map.lookup k =
    if k = key then newValue.map some else m.map.lookup k := by
  cases newValue with
  | none =>
    rw [if_pos rfl, StorageMap.removeItem_map_one]
    split
    · rename_i hk
      rw [hk, Finmap.lookup_erase]
      rfl
    · rename_i hk
      exact Finmap.lookup_erase_ne hk
  | some value =>
    rw [if_neg (Option.some_ne_none value), StorageMap.setItemIgnoringQuota_map_one]
    split
    · rename_i hk
      rw [hk, Finmap.lookup_insert]
      rfl
    · rename_i hk
      exact Finmap.lookup_insert_of_ne _ hk

/-- **A change of one key** leaves the others alone, and the key too if a change of it is pending. -/
theorem applyChange_changesKey (hm : a.storageMap = some m) (hclear : a.hasPendingClear = false) :
    a.ChangesKey m key newValue (a.applyChange (some key) newValue) := by
  cases hvalues : a.hasPendingGetValues with
  | true =>
    rw [applyChange_waiting hvalues]
    exact changesKey_same hm (.inr hvalues)
  | false =>
    rw [applyChange_some hm hclear hvalues]
    by_cases hkey : key ∈ a.pendingValueChanges
    · rw [if_pos hkey]
      exact changesKey_same hm (.inl hkey)
    · rw [if_neg hkey]
      refine ⟨rfl, _, rfl, fun k hk => ?_, fun h => absurd h hkey, fun _ _ => ?_⟩
      · rw [lookup_change, if_neg hk]
      · rw [lookup_change, if_pos rfl]

/-! ## Every change -/

/-- **What another process changes** is applied as it is to be exactly if a clear finds no pending key in the map. -/
theorem applyChange_applies_remote (hm : a.storageMap = some m) (hclear : a.hasPendingClear = false) :
    a.AppliesRemote m ↔ a.ClearSpares m := by
  have hkeys : ∀ key newValue, a.ChangesKey m key newValue (a.applyChange (some key) newValue) :=
    fun _ _ => applyChange_changesKey hm hclear
  unfold AppliesRemote ClearSpares
  cases hvalues : a.hasPendingGetValues with
  | true =>
    rw [if_pos rfl, ← keepsPending_waiting_iff hm]
    simp only [applyChange_waiting hvalues, forall_const]
    exact ⟨And.left, fun h => ⟨h, fun key newValue => changesKey_same hm (.inr hvalues)⟩⟩
  | false =>
    rw [if_neg Bool.false_ne_true]
    exact ⟨fun h => spared_of_keepsPending hclear hvalues hm (h.1 none),
      fun h => ⟨fun _ => keepsPending_of_spared hclear hvalues hm h, hkeys⟩⟩

/-- A map with one item, and a change of `other` to be answered. -/
def withItem (key other : WTFString) : StorageAreaMap :=
  { create 100 with
    storageMap := some ((StorageMap.create 100).setItem 1 key (some key)).self
    pendingValueChanges := [other] }

theorem applyChange_applies_remote_absent :
    (withItem ⟨[97], by decide⟩ ⟨[98], by decide⟩).AppliesRemote
        ((StorageMap.create 100).setItem 1 ⟨[97], by decide⟩ (some ⟨[97], by decide⟩)).self := by
  refine (applyChange_applies_remote rfl rfl).2 ?_
  intro k hk
  rw [List.mem_singleton.1 hk, StorageMap.contains]
  decide

/-- **A clear loses a value whose change is pending.** -/
theorem applyChange_loses_value :
    ¬(withItem ⟨[97], by decide⟩ ⟨[97], by decide⟩).KeepsPending
        ((StorageMap.create 100).setItem 1 ⟨[97], by decide⟩ (some ⟨[97], by decide⟩)).self
        ((withItem ⟨[97], by decide⟩ ⟨[97], by decide⟩).applyChange none none) := by
  intro h
  refine spared_of_keepsPending rfl rfl rfl h ⟨[97], by decide⟩ (List.mem_singleton.2 rfl) ?_
  rw [StorageMap.contains]
  decide

end StorageAreaMap

end WebKit.WebKit2
