import WebKit.WebCore.StorageMapItems

/-!
# Sharing and enumerating storage maps

The iterator that `StorageMap::key` keeps, over the maps of `StorageMaps`. The order in which a table is iterated is not
known: each call that changes a table comes with the order that the changed table has. An iterator is good for one
generation of its table, and there is no result when one of another generation is moved or read.

In every run whose calls meet `MeetsEnumeration`, what a call through one reference changes is not seen through another,
and `key` returns the keys in the order of the table, in whatever order it is asked (`storage_maps_enumerate`).
`importItems` neither copies a shared map nor forgets the iterator (`import_into_shared_map`).
-/

namespace WebKit.WebCore

open WTF Transition

/-- The keys of a map in the order of an iteration. The size of a table is an `int`. -/
def IsOrder (order : List WTFString) (items : Items) : Prop :=
  order.Nodup ∧ order.toFinset = items.keys ∧ order.length < 2 ^ 31

instance (order : List WTFString) (items : Items) : Decidable (IsOrder order items) :=
  inferInstanceAs (Decidable (_ ∧ _ ∧ _))

/-- An iterator: the generation of the table it was made for, and how many entries are in front of it. -/
structure StorageIterator where
  generation : Nat
  position : Nat
  deriving DecidableEq

/-- `m_iteratorIndex` of a map without a cached iterator. -/
def noIndex : UInt32 := 0xFFFFFFFF

/-- The table of a map, and the iterator that is cached for it. -/
structure StorageTable where
  order : List WTFString
  generation : Nat
  iterator : StorageIterator
  iteratorIndex : UInt32
  deriving DecidableEq

namespace StorageTable

def first (t : StorageTable) : StorageIterator := ⟨t.generation, 0⟩

def last (t : StorageTable) : StorageIterator := ⟨t.generation, t.order.length⟩

def length (t : StorageTable) : UInt32 := UInt32.ofNat t.order.length

def create : StorageTable := ⟨[], 0, ⟨0, 0⟩, noIndex⟩

/-- The table of a copy, assigned to an empty map. -/
def copied (order : List WTFString) : StorageTable := { create with order, generation := 1 }

/-- A table that has got or lost entries. -/
def change (t : StorageTable) (order : List WTFString) : StorageTable :=
  { t with order, generation := t.generation + 1 }

def invalidateIterator (t : StorageTable) : StorageTable := { t with iterator := t.last, iteratorIndex := noIndex }

/-- `while (m_iteratorIndex < index)`, for at most `fuel` iterations. -/
def advance (index : UInt32) : Nat → StorageTable → Option StorageTable
  | fuel, t =>
    if t.iteratorIndex < index then
      match fuel with
      | 0 => none
      | fuel + 1 =>
        if t.iterator.generation = t.generation ∧ t.iterator.position < t.order.length then
          advance index fuel
            { t with
              iteratorIndex := t.iteratorIndex + 1
              iterator := ⟨t.generation, t.iterator.position + 1⟩ }
        else none
    else some t

def setIteratorToIndex (t : StorageTable) (index : UInt32) : Option StorageTable :=
  if t.iteratorIndex = index then some t
  else
    let t := if index < t.iteratorIndex then { t with iteratorIndex := 0, iterator := t.first } else t
    advance index index.toNat t

/-- `m_iterator->key`. -/
def keyAtIterator (t : StorageTable) : Option WTFString :=
  if t.iterator.generation = t.generation then t.order[t.iterator.position]? else none

/-- `key`: the null string past the end. -/
def key (t : StorageTable) (index : UInt32) : Option (MaybeString × StorageTable) :=
  if index ≥ t.length then some (none, t)
  else do
    let t ← t.setIteratorToIndex index
    let key ← t.keyAtIterator
    return (some key, t)

/-- What a call does to the table of the map that it changes. -/
def mutate (t : StorageTable) (m : StorageMap) (order : List WTFString) : StorageMapOp → StorageTable
  | .setItem _ key value =>
    if (m.setItemInPlace key value).quotaException then t
    else (if key ∈ m.map then t else t.change order).invalidateIterator
  | .setItemIgnoringQuota _ key _ => (if key ∈ m.map then t else t.change order).invalidateIterator
  | .removeItem _ key =>
    let t := if key ∈ m.map then t.change order else t
    if m.getItem key ≠ none then t.invalidateIterator else t
  | .importItems _ items => if ∀ item ∈ items, item.1 ∈ m.map then t else t.change order
  | _ => t

end StorageTable

namespace StorageMapOp

/-- The reference that a call goes through. -/
def index? : StorageMapOp → Option Nat
  | .create _ | .ref _ => none
  | .deref i | .setItem i .. | .setItemIgnoringQuota i .. | .removeItem i .. | .importItems i .. => some i

/-- The calls that copy a shared map. -/
def copies : StorageMapOp → Bool
  | .setItem .. | .setItemIgnoringQuota .. | .removeItem .. => true
  | _ => false

end StorageMapOp

/-- The maps with their tables. -/
structure EnumeratedMaps extends StorageMaps where
  tables : List StorageTable
  deriving DecidableEq

/-- A call, with the order of the table it leaves, or `key` through the reference with a given index. -/
inductive EnumeratedOp
  | call (op : StorageMapOp) (order : List WTFString)
  | key (index : Nat) (position : UInt32)

namespace EnumeratedMaps

def init : EnumeratedMaps := ⟨StorageMaps.init, []⟩

/-- A call on the map of a reference. -/
def mutate (s : EnumeratedMaps) (i : Nat) (op : StorageMapOp) (order : List WTFString) : Option EnumeratedMaps := do
  let a ← s.addressOf i
  let m ← s.maps[a]?
  let t ← s.tables[a]?
  let storage ← s.toStorageMaps.step op
  let changed ← storage.mapOf i
  let tables :=
    if op.copies ∧ 1 < s.refCount a then s.tables ++ [(StorageTable.copied order).mutate m order op]
    else s.tables.set a (t.mutate m order op)
  if IsOrder order changed.map then some ⟨storage, tables⟩ else none

/-- `key` through a reference. -/
def key (s : EnumeratedMaps) (i : Nat) (position : UInt32) : Option (MaybeString × EnumeratedMaps) := do
  let a ← s.addressOf i
  let t ← s.tables[a]?
  let (answer, t) ← t.key position
  return (answer, { s with tables := s.tables.set a t })

def step (s : EnumeratedMaps) : EnumeratedOp → Option EnumeratedMaps
  | .call (.create quota) _ => do
    let storage ← s.toStorageMaps.step (.create quota)
    return ⟨storage, s.tables ++ [.create]⟩
  | .call (.ref i) _ => do
    let storage ← s.toStorageMaps.step (.ref i)
    return ⟨storage, s.tables⟩
  | .call (.deref i) _ => do
    let storage ← s.toStorageMaps.step (.deref i)
    return ⟨storage, s.tables⟩
  | .call (.setItem i key value) order => s.mutate i (.setItem i key value) order
  | .call (.setItemIgnoringQuota i key value) order => s.mutate i (.setItemIgnoringQuota i key value) order
  | .call (.removeItem i key) order => s.mutate i (.removeItem i key) order
  | .call (.importItems i items) order => s.mutate i (.importItems i items) order
  | .key i position => (s.key i position).map Prod.snd

end EnumeratedMaps

/-! ## One table -/

/-- The table has the keys of the items, and the iterator that is cached is at its index. -/
structure TableOk (t : StorageTable) (items : Items) : Prop where
  order : IsOrder t.order items
  cached : t.iteratorIndex ≠ noIndex →
    t.iteratorIndex.toNat < t.order.length ∧ t.iterator = ⟨t.generation, t.iteratorIndex.toNat⟩

/-- The items that a call leaves in the map that it changes. -/
def StorageMap.itemsAfter (m : StorageMap) : StorageMapOp → Items
  | .setItem _ key value => (m.setItemInPlace key value).self.map
  | .setItemIgnoringQuota _ key value => m.map.insert key value
  | .removeItem _ key => m.map.erase key
  | .importItems _ items => (m.importItems items).map
  | _ => m.map

/-- The calls that leave the iterator usable: where items are removed or imported without forgetting it, none is
cached. -/
def KeepsIterator (m : StorageMap) (t : StorageTable) : StorageMapOp → Prop
  | .removeItem _ key => m.map.lookup key = some none → t.iteratorIndex = noIndex
  | .importItems _ items => (∃ item ∈ items, item.1 ∉ m.map) → t.iteratorIndex = noIndex
  | _ => True

theorem importItems_of_mem {m : StorageMap} {items : List (WTFString × MaybeString)}
    (h : ∀ item ∈ items, item.1 ∈ m.map) :
    (m.importItems items).map = m.map := by
  induction items generalizing m with
  | nil => rfl
  | cons item items ih =>
    obtain ⟨hitem, hitems⟩ := List.forall_mem_cons.1 h
    have hmap : (m.importItem item).map = m.map := if_pos hitem
    refine (ih fun other hother => ?_).trans hmap
    rw [hmap]
    exact hitems other hother

theorem keys_insert_of_mem {items : Items} {key : WTFString} (value : MaybeString) (h : key ∈ items) :
    (items.insert key value).keys = items.keys := by
  ext k
  rw [Finmap.mem_keys, Finmap.mem_keys, Finmap.mem_insert]
  exact ⟨fun hk => hk.elim (fun heq => heq ▸ h) id, .inr⟩

namespace StorageTable

variable {t : StorageTable} {items items' : Items} {m : StorageMap} {order : List WTFString} {op : StorageMapOp}

@[simp] theorem invalidateIterator_order : t.invalidateIterator.order = t.order := rfl

@[simp] theorem invalidateIterator_iteratorIndex : t.invalidateIterator.iteratorIndex = noIndex := rfl

@[simp] theorem change_order : (t.change order).order = order := rfl

@[simp] theorem change_iteratorIndex : (t.change order).iteratorIndex = t.iteratorIndex := rfl

section

variable {i : Nat} {key : WTFString} {value : MaybeString} {imported : List (WTFString × MaybeString)}

theorem mutate_setItem : t.mutate m order (.setItem i key value) = if (m.setItemInPlace key value).quotaException then t
    else (if key ∈ m.map then t else t.change order).invalidateIterator := rfl

theorem mutate_removeItem : t.mutate m order (.removeItem i key) =
    if m.getItem key ≠ none then (if key ∈ m.map then t.change order else t).invalidateIterator
    else if key ∈ m.map then t.change order else t := rfl

theorem mutate_importItems : t.mutate m order (.importItems i imported) =
    if ∀ item ∈ imported, item.1 ∈ m.map then t else t.change order := rfl

end

theorem tableOk_of_noIndex (horder : IsOrder t.order items) (hindex : t.iteratorIndex = noIndex) : TableOk t items :=
  ⟨horder, fun h => absurd hindex h⟩

/-- The keys of the map after a call are those of the table it leaves, or the given ones. -/
theorem mutate_order (horder : IsOrder t.order m.map) (hafter : IsOrder order (m.itemsAfter op)) :
    IsOrder (t.mutate m order op).order (m.itemsAfter op) := by
  have hinsert (key : WTFString) (value : MaybeString) (h : IsOrder order (m.map.insert key value)) :
      IsOrder (if key ∈ m.map then t else t.change order).order (m.map.insert key value) := by
    split_ifs with hkey
    · unfold IsOrder
      rw [keys_insert_of_mem value hkey]
      exact horder
    · exact h
  cases op with
  | create | ref | deref => exact horder
  | setItem _ key value =>
    unfold StorageMap.itemsAfter at hafter ⊢
    rw [mutate_setItem]
    obtain ⟨he, hself⟩ | ⟨he, hself, -⟩ := StorageMap.setItemInPlace_spec m key value
    · simp only [he, hself, if_true]
      exact horder
    · simp only [he, hself, Bool.false_eq_true, if_false, invalidateIterator_order] at hafter ⊢
      exact hinsert key value hafter
  | setItemIgnoringQuota _ key value => exact hinsert key value hafter
  | removeItem _ key =>
    have herase : IsOrder (if key ∈ m.map then t.change order else t).order (m.map.erase key) := by
      split_ifs with hkey
      · exact hafter
      · rw [FiniteMap.erase_of_not_mem hkey]
        exact horder
    rw [mutate_removeItem]
    split_ifs at herase ⊢ <;> exact herase
  | importItems _ imported =>
    show IsOrder _ (m.importItems imported).map
    rw [mutate_importItems]
    split_ifs with hold
    · rw [importItems_of_mem hold]
      exact horder
    · exact hafter

theorem mutate_order_self (h : t.order = order) : (t.mutate m order op).order = order := by
  cases op with
  | create | ref | deref => exact h
  | setItem _ key value =>
    rw [mutate_setItem]
    split_ifs <;> first | exact h | rfl
  | setItemIgnoringQuota _ key value =>
    show (if key ∈ m.map then t else t.change order).order = order
    split_ifs <;> first | exact h | rfl
  | removeItem _ key =>
    rw [mutate_removeItem]
    split_ifs <;> first | exact h | rfl
  | importItems _ imported =>
    rw [mutate_importItems]
    split_ifs <;> first | exact h | rfl

/-- A table without a cached iterator gets none. -/
theorem mutate_noIndex (h : t.iteratorIndex = noIndex) : (t.mutate m order op).iteratorIndex = noIndex := by
  cases op with
  | create | ref | deref => exact h
  | setItem _ key value =>
    rw [mutate_setItem]
    split_ifs
    · exact h
    · rfl
    · rfl
  | setItemIgnoringQuota _ key value => rfl
  | removeItem _ key =>
    rw [mutate_removeItem]
    split_ifs <;> first | exact h | rfl
  | importItems _ imported =>
    rw [mutate_importItems]
    split_ifs
    · exact h
    · exact h

/-- **A call leaves the table of the map as it should be.** -/
theorem mutate_ok (h : TableOk t m.map) (hkeeps : KeepsIterator m t op) (hafter : IsOrder order (m.itemsAfter op)) :
    TableOk (t.mutate m order op) (m.itemsAfter op) := by
  refine ⟨mutate_order h.order hafter, fun hcached => ?_⟩
  have hindex : t.iteratorIndex ≠ noIndex := fun hnone => hcached (mutate_noIndex hnone)
  cases op with
  | create | ref | deref => exact h.cached hindex
  | setItem _ key value =>
    rw [mutate_setItem] at hcached ⊢
    split_ifs at hcached ⊢
    · exact h.cached hindex
    · exact absurd rfl hcached
    · exact absurd rfl hcached
  | setItemIgnoringQuota _ key value => exact absurd rfl hcached
  | removeItem _ key =>
    rw [mutate_removeItem] at hcached ⊢
    split_ifs at hcached ⊢ with hvalue hkey hkey
    · exact absurd rfl hcached
    · exact absurd rfl hcached
    · obtain ⟨value, hlookup⟩ := Option.isSome_iff_exists.1 (Finmap.lookup_isSome.2 hkey)
      have hnull : value = none := by
        unfold StorageMap.getItem at hvalue
        rw [hlookup] at hvalue
        exact not_not.1 hvalue
      exact absurd (hkeeps (hlookup.trans (congrArg some hnull))) hindex
    · exact h.cached hindex
  | importItems _ imported =>
    rw [mutate_importItems] at hcached ⊢
    split_ifs at hcached ⊢ with hold
    · exact h.cached hindex
    · push Not at hold
      exact absurd (hkeeps hold) hindex

theorem advance_spec {index : UInt32} {fuel : Nat} (hindex : index.toNat < t.order.length)
    (hiterator : t.iterator = ⟨t.generation, t.iteratorIndex.toNat⟩) (hle : t.iteratorIndex.toNat ≤ index.toNat)
    (hfuel : index.toNat - t.iteratorIndex.toNat ≤ fuel) :
    advance index fuel t = some { t with iterator := ⟨t.generation, index.toNat⟩, iteratorIndex := index } := by
  induction fuel generalizing t with
  | zero =>
    have heq : t.iteratorIndex = index := UInt32.toNat.inj (by omega)
    have hnot : ¬ t.iteratorIndex < index := by
      rw [heq]
      exact UInt32.lt_irrefl _
    rw [advance, if_neg hnot, ← heq, ← hiterator]
  | succ fuel ih =>
    by_cases hlt : t.iteratorIndex < index
    · have hnat := UInt32.lt_iff_toNat_lt.1 hlt
      have hnext : (t.iteratorIndex + 1).toNat = t.iteratorIndex.toNat + 1 := by
        rw [UInt32.toNat_add]
        exact Nat.mod_eq_of_lt (Nat.lt_of_le_of_lt hnat index.toNat_lt)
      have hvalid : t.iterator.generation = t.generation ∧ t.iterator.position < t.order.length := by
        rw [hiterator]
        exact ⟨rfl, Nat.lt_trans hnat hindex⟩
      rw [advance, if_pos hlt]
      simp only [hvalid, and_self, if_true]
      rw [ih (by simpa using hindex) (by simp [hiterator, hnext]) (by simp only [hnext]; omega)
        (by simp only [hnext]; omega)]
    · have hge : ¬ t.iteratorIndex.toNat < index.toNat := fun h => hlt (UInt32.lt_iff_toNat_lt.2 h)
      have heq : t.iteratorIndex = index := UInt32.toNat.inj (by omega)
      rw [advance, if_neg hlt, ← heq, ← hiterator]

/-- **`key` returns the keys in the order of the table**, wherever the last query left the iterator. -/
theorem key_spec (h : TableOk t items) (index : UInt32) :
    ∃ t', t.key index = some (t.order[index.toNat]?, t') ∧ t'.order = t.order ∧ TableOk t' items := by
  have hlen : t.length.toNat = t.order.length :=
    UInt32.toNat_ofNat_of_lt' (Nat.lt_trans h.order.2.2 (by decide))
  unfold key
  by_cases hrange : index ≥ t.length
  · have hnone : t.order[index.toNat]? = none := List.getElem?_eq_none (hlen ▸ UInt32.le_iff_toNat_le.1 hrange)
    rw [if_pos hrange, hnone]
    exact ⟨t, rfl, rfl, h⟩
  · have hindex : index.toNat < t.order.length := by
      rw [← hlen]
      exact Nat.lt_of_not_le fun hle => hrange (UInt32.le_iff_toNat_le.2 hle)
    have hsmall : index ≠ noIndex := by
      rintro rfl
      have := h.order.2.2
      have : noIndex.toNat = 4294967295 := rfl
      omega
    have hset : t.setIteratorToIndex index =
        some { t with iterator := ⟨t.generation, index.toNat⟩, iteratorIndex := index } := by
      unfold setIteratorToIndex
      by_cases hsame : t.iteratorIndex = index
      · obtain ⟨-, hiterator⟩ := h.cached (hsame ▸ hsmall)
        rw [if_pos hsame, ← hsame, ← hiterator]
      · rw [if_neg hsame]
        simp only
        by_cases hback : index < t.iteratorIndex
        · rw [if_pos hback]
          exact advance_spec hindex rfl (Nat.zero_le _) (Nat.le_refl _)
        · have hle : t.iteratorIndex.toNat ≤ index.toNat :=
            Nat.le_of_not_lt fun hlt => hback (UInt32.lt_iff_toNat_lt.2 hlt)
          have hcached : t.iteratorIndex ≠ noIndex := by
            intro hnone
            have : noIndex.toNat = 4294967295 := rfl
            have := h.order.2.2
            rw [hnone] at hle
            omega
          rw [if_neg hback]
          exact advance_spec hindex (h.cached hcached).2 hle (Nat.sub_le _ _)
    rw [if_neg hrange, hset]
    refine ⟨{ t with iterator := ⟨t.generation, index.toNat⟩, iteratorIndex := index }, ?_, rfl, h.order, ?_⟩
    · simp [keyAtIterator, List.getElem?_eq_getElem hindex]
    · exact fun _ => ⟨hindex, rfl⟩

end StorageTable

/-! ## The maps and the references to them -/

namespace StorageMaps

variable {s : StorageMaps} {storage : StorageMaps} {i j a b : Nat} {m : StorageMap} {result : Mutation}
  {op : StorageMapOp}

theorem addressOf_assign (hj : j ≠ i) : (s.assign i a result).addressOf j = s.addressOf j := by
  unfold assign addressOf
  cases result.returned with
  | none => rfl
  | some copied => rw [List.getElem?_set_ne (Ne.symm hj)]

/-- What a call does that changes a map: it returns a changed copy, or it changes the map. -/
def Changes (op : StorageMapOp) (refCount : Nat) (m : StorageMap) (result : Mutation) : Prop :=
  ((op.copies = true ∧ 1 < refCount) ∧ result.self = m ∧
      ∃ copied, result.returned = some copied ∧ copied.map = m.itemsAfter op) ∨
    (¬ (op.copies = true ∧ 1 < refCount) ∧ result.returned = none ∧ result.self.map = m.itemsAfter op)

theorem step_changes (hs : s.step op = some storage) (hi : op.index? = some i) (hop : op ≠ .deref i) :
    ∃ a m result, s.addressOf i = some a ∧ s.maps[a]? = some m ∧ storage = s.assign i a result ∧
      Changes op (s.refCount a) m result := by
  cases op with
  | create | ref => cases hi
  | deref =>
    cases hi
    exact absurd rfl hop
  | setItem _ key value =>
    cases hi
    rw [step] at hs
    obtain ⟨a, m, ha, hm, rfl⟩ := mutate_eq_some hs
    refine ⟨a, m, _, ha, hm, rfl, ?_⟩
    unfold StorageMap.setItem
    by_cases hshared : 1 < s.refCount a
    · rw [if_pos hshared]
      exact .inl ⟨⟨rfl, hshared⟩, rfl, _, rfl, rfl⟩
    · rw [if_neg hshared]
      exact .inr ⟨fun h => hshared h.2, StorageMap.setItemInPlace_returned, rfl⟩
  | setItemIgnoringQuota _ key value =>
    cases hi
    rw [step] at hs
    obtain ⟨a, m, ha, hm, rfl⟩ := mutate_eq_some hs
    refine ⟨a, m, _, ha, hm, rfl, ?_⟩
    have hmap : (StorageMap.setItemInPlace { m with quotaSize := noQuota } key value).self.map =
        m.map.insert key value :=
      StorageMap.setItemIgnoringQuota_map_one
    unfold StorageMap.setItemIgnoringQuota StorageMap.setItem
    by_cases hshared : 1 < s.refCount a
    · rw [if_pos hshared]
      exact .inl ⟨⟨rfl, hshared⟩, rfl, _, rfl, hmap⟩
    · rw [if_neg hshared]
      exact .inr ⟨fun h => hshared h.2, StorageMap.setItemInPlace_returned, hmap⟩
  | removeItem _ key =>
    cases hi
    rw [step] at hs
    obtain ⟨a, m, ha, hm, rfl⟩ := mutate_eq_some hs
    refine ⟨a, m, _, ha, hm, rfl, ?_⟩
    unfold StorageMap.removeItem
    by_cases hshared : 1 < s.refCount a
    · rw [if_pos hshared]
      exact .inl ⟨⟨rfl, hshared⟩, rfl, _, rfl, rfl⟩
    · rw [if_neg hshared]
      exact .inr ⟨fun h => hshared h.2, rfl, rfl⟩
  | importItems _ items =>
    cases hi
    rw [step] at hs
    obtain ⟨a, m, ha, hm, rfl⟩ := mutate_eq_some hs
    exact ⟨a, m, _, ha, hm, rfl, .inr ⟨fun h => Bool.noConfusion h.1, rfl, rfl⟩⟩

end StorageMaps

namespace EnumeratedMaps

open StorageMaps

/-- What a reference gives to read: the items of its map, and the order in which their keys are enumerated. -/
def view (s : EnumeratedMaps) (i : Nat) : Option (Items × List WTFString) := do
  let a ← s.addressOf i
  let m ← s.maps[a]?
  let t ← s.tables[a]?
  return (m.map, t.order)

/-- The calls that copy or forget what they have to: an item with a null value is removed, and new items are imported,
only where no iterator is cached, and new items only into a map that is not shared. -/
def MeetsEnumeration (s : EnumeratedMaps) : EnumeratedOp → Prop
  | .call (.removeItem i key) _ => ∀ a ∈ s.addressOf i, s.refCount a ≤ 1 → ∀ m ∈ s.maps[a]?, ∀ t ∈ s.tables[a]?,
    m.map.lookup key = some none → t.iteratorIndex = noIndex
  | .call (.importItems i items) _ => ∀ a ∈ s.addressOf i, ∀ m ∈ s.maps[a]?, ∀ t ∈ s.tables[a]?,
    (∃ item ∈ items, item.1 ∉ m.map) → s.refCount a ≤ 1 ∧ t.iteratorIndex = noIndex
  | _ => True

instance (s : EnumeratedMaps) : ∀ op, Decidable (s.MeetsEnumeration op)
  | .call (.removeItem i key) _ => inferInstanceAs (Decidable (∀ a ∈ s.addressOf i, s.refCount a ≤ 1 →
      ∀ m ∈ s.maps[a]?, ∀ t ∈ s.tables[a]?, m.map.lookup key = some none → t.iteratorIndex = noIndex))
  | .call (.importItems i items) _ => inferInstanceAs (Decidable (∀ a ∈ s.addressOf i, ∀ m ∈ s.maps[a]?,
      ∀ t ∈ s.tables[a]?, (∃ item ∈ items, item.1 ∉ m.map) → s.refCount a ≤ 1 ∧ t.iteratorIndex = noIndex))
  | .call (.create _) _ | .call (.ref _) _ | .call (.deref _) _ | .call (.setItem ..) _
  | .call (.setItemIgnoringQuota ..) _ | .key .. => inferInstanceAs (Decidable True)

/-- Every map has its table. -/
structure Inv (s : EnumeratedMaps) : Prop where
  length : s.tables.length = s.maps.length
  ok : ∀ (a : Nat) (t : StorageTable) (m : StorageMap), s.tables[a]? = some t → s.maps[a]? = some m → TableOk t m.map

variable {s t : EnumeratedMaps} {i j a : Nat} {m : StorageMap} {op : StorageMapOp} {order : List WTFString}

theorem view_eq_some {items : Items} : s.view j = some (items, order) ↔
    ∃ (a : Nat) (m : StorageMap) (t : StorageTable), s.addressOf j = some a ∧ s.maps[a]? = some m ∧
      s.tables[a]? = some t ∧ m.map = items ∧ t.order = order := by
  simp [view, Option.bind_eq_some_iff]

theorem Inv.exists_table (h : s.Inv) (hm : s.maps[a]? = some m) : ∃ t, s.tables[a]? = some t ∧ TableOk t m.map := by
  obtain ⟨hlt, -⟩ := List.getElem?_eq_some_iff.1 hm
  have ht := List.getElem?_eq_getElem (h.length.symm ▸ hlt)
  exact ⟨_, ht, h.ok a _ m ht hm⟩

theorem inv_init : init.Inv := ⟨rfl, fun a t m ht => by cases ht⟩

theorem mutate_eq_some (hs : s.mutate i op order = some t) (hi : op.index? = some i) (hop : op ≠ .deref i) :
    ∃ a m tab result, s.addressOf i = some a ∧ s.maps[a]? = some m ∧ s.tables[a]? = some tab ∧
      Changes op (s.refCount a) m result ∧ IsOrder order (m.itemsAfter op) ∧
      t = ⟨s.assign i a result, if op.copies ∧ 1 < s.refCount a
        then s.tables ++ [(StorageTable.copied order).mutate m order op]
        else s.tables.set a (tab.mutate m order op)⟩ := by
  unfold mutate at hs
  simp only [Option.bind_eq_bind, Option.bind_eq_some_iff] at hs
  obtain ⟨a, ha, m, hm, tab, htab, storage, hstorage, changed, hchanged, hs⟩ := hs
  obtain ⟨horder, ht⟩ := Option.ite_none_right_eq_some.1 hs
  obtain ⟨a', m', result, ha', hm', rfl, hchanges⟩ := step_changes hstorage hi hop
  cases ha.symm.trans ha'
  cases hm.symm.trans hm'
  rw [mapOf_assign ha hm, Option.some.injEq] at hchanged
  have hitems : changed.map = m.itemsAfter op := by
    rw [← hchanged]
    obtain ⟨-, -, copied, hreturned, hcopied⟩ | ⟨-, hreturned, hself⟩ := hchanges
    · rw [hreturned, Option.getD_some, hcopied]
    · rw [hreturned, Option.getD_none, hself]
  rw [hitems] at horder
  exact ⟨a, m, tab, result, ha, hm, htab, hchanges, horder, (Option.some.inj ht).symm⟩

theorem mutate_inv (h : s.Inv) (hs : s.mutate i op order = some t) (hi : op.index? = some i) (hop : op ≠ .deref i)
    (hkeeps : ∀ a m tab, s.addressOf i = some a → s.maps[a]? = some m → s.tables[a]? = some tab →
      ¬ (op.copies = true ∧ 1 < s.refCount a) → KeepsIterator m tab op) : t.Inv := by
  obtain ⟨a, m, tab, result, ha, hm, htab, hchanges, horder, rfl⟩ := mutate_eq_some hs hi hop
  obtain ⟨hshared, hself, copied, hreturned, hcopied⟩ | ⟨hown, hreturned, hself⟩ := hchanges
  · have hmaps : (s.assign i a result).maps = s.maps ++ [copied] := by
      unfold assign
      rw [hreturned, hself]
      obtain ⟨hlt, rfl⟩ := List.getElem?_eq_some_iff.1 hm
      simp
    rw [if_pos hshared]
    have hnone : ((StorageTable.copied order).mutate m order op).iteratorIndex = noIndex :=
      StorageTable.mutate_noIndex rfl
    have hsame : ((StorageTable.copied order).mutate m order op).order = order :=
      StorageTable.mutate_order_self rfl
    have hnew : TableOk ((StorageTable.copied order).mutate m order op) copied.map :=
      StorageTable.tableOk_of_noIndex (by rw [hsame, hcopied]; exact horder) hnone
    constructor
    · show (s.tables ++ _).length = (s.assign i a result).maps.length
      rw [hmaps, List.length_append, List.length_append, h.length]
      rfl
    · intro b t' m' ht' hm'
      rw [hmaps] at hm'
      by_cases hb : b < s.maps.length
      · rw [List.getElem?_append_left (h.length.symm ▸ hb)] at ht'
        rw [List.getElem?_append_left hb] at hm'
        exact h.ok b t' m' ht' hm'
      · have hlen := h.length
        rw [List.getElem?_append_right (by omega)] at ht' hm'
        obtain ⟨hb', rfl⟩ := List.getElem?_eq_some_iff.1 hm'
        simp only [List.length_singleton] at hb'
        have hzero : b - s.maps.length = 0 := by omega
        simp only [hlen, hzero, List.getElem?_cons_zero, Option.some.injEq, List.getElem_cons_zero] at ht' ⊢
        exact ht' ▸ hnew
  · have hmaps : (s.assign i a result).maps = s.maps.set a result.self := by
      unfold assign
      rw [hreturned]
    rw [if_neg hown]
    have hnew := StorageTable.mutate_ok (h.ok a tab m htab hm) (hkeeps a m tab ha hm htab hown) horder
    constructor
    · show (s.tables.set a _).length = (s.assign i a result).maps.length
      rw [hmaps, List.length_set, List.length_set, h.length]
    · intro b t' m' ht' hm'
      rw [hmaps] at hm'
      obtain ⟨hlt, -⟩ := List.getElem?_eq_some_iff.1 hm
      by_cases hb : b = a
      · subst hb
        rw [List.getElem?_set_self (h.length.symm ▸ hlt)] at ht'
        rw [List.getElem?_set_self hlt] at hm'
        cases ht'
        cases hm'
        rw [hself]
        exact hnew
      · rw [List.getElem?_set_ne (Ne.symm hb)] at ht' hm'
        exact h.ok b t' m' ht' hm'

/-- **A call is not seen through another reference.** -/
theorem mutate_view (hs : s.mutate i op order = some t) (hi : op.index? = some i) (hop : op ≠ .deref i) (hj : j ≠ i)
    {v : Items × List WTFString} (hv : s.view j = some v)
    (hsame : ∀ a m tab, s.addressOf i = some a → s.maps[a]? = some m → s.tables[a]? = some tab → 1 < s.refCount a →
      op.copies = false → m.itemsAfter op = m.map ∧ tab.mutate m order op = tab) : t.view j = some v := by
  obtain ⟨items, keys⟩ := v
  obtain ⟨b, n, tab', hb, hn, htab', rfl, rfl⟩ := view_eq_some.1 hv
  obtain ⟨a, m, tab, result, ha, hm, htab, hchanges, -, rfl⟩ := mutate_eq_some hs hi hop
  obtain ⟨hlt, -⟩ := List.getElem?_eq_some_iff.1 hn
  obtain ⟨hlt', -⟩ := List.getElem?_eq_some_iff.1 htab'
  rw [view_eq_some]
  obtain ⟨hshared, hself, copied, hreturned, -⟩ | ⟨hown, hreturned, hself⟩ := hchanges
  · rw [if_pos hshared]
    refine ⟨b, n, tab', (addressOf_assign hj).trans hb, ?_, ?_, rfl, rfl⟩
    · unfold assign
      rw [hreturned, hself]
      obtain ⟨-, rfl⟩ := List.getElem?_eq_some_iff.1 hm
      simp only [List.set_getElem_self]
      rw [List.getElem?_append_left hlt, hn]
    · show (s.tables ++ _)[b]? = _
      rw [List.getElem?_append_left hlt', htab']
  · rw [if_neg hown]
    have hmaps : (s.assign i a result).maps = s.maps.set a result.self := by
      unfold assign
      rw [hreturned]
    by_cases hba : b = a
    · subst hba
      cases hn.symm.trans hm
      cases htab'.symm.trans htab
      have hshared : 1 < s.refCount b := Nat.lt_of_not_le fun hle => hj (eq_of_refCount_le_one ha hb hle)
      have hcopies : op.copies = false := Bool.eq_false_iff.2 fun h => hown ⟨h, hshared⟩
      obtain ⟨hitems, htable⟩ := hsame b n tab' ha hn htab' hshared hcopies
      refine ⟨b, result.self, tab', (addressOf_assign hj).trans hb, ?_, ?_, hself.trans hitems, rfl⟩
      · rw [hmaps, List.getElem?_set_self hlt]
      · show (s.tables.set b _)[b]? = _
        rw [List.getElem?_set_self hlt', htable]
    · refine ⟨b, n, tab', (addressOf_assign hj).trans hb, ?_, ?_, rfl, rfl⟩
      · rw [hmaps, List.getElem?_set_ne (Ne.symm hba), hn]
      · show (s.tables.set a _)[b]? = _
        rw [List.getElem?_set_ne (Ne.symm hba), htab']

/-- **`key` through a reference** returns a key of its enumeration, and changes no enumeration. -/
theorem key_spec (h : s.Inv) (hm : s.mapOf i = some m) (position : UInt32) :
    ∃ keys t, s.view i = some (m.map, keys) ∧ s.key i position = some (keys[position.toNat]?, t) ∧ t.Inv ∧
      t.toStorageMaps = s.toStorageMaps ∧ ∀ j, t.view j = s.view j := by
  obtain ⟨a, ha, hma⟩ := mapOf_eq_some.1 hm
  obtain ⟨tab, htab, hok⟩ := h.exists_table hma
  obtain ⟨tab', hkey, hsame, hok'⟩ := StorageTable.key_spec hok position
  obtain ⟨hlt, -⟩ := List.getElem?_eq_some_iff.1 htab
  refine ⟨tab.order, { s with tables := s.tables.set a tab' }, view_eq_some.2 ⟨a, m, tab, ha, hma, htab, rfl, rfl⟩,
    ?_, ⟨?_, ?_⟩, rfl, fun j => ?_⟩
  · simp [key, ha, htab, hkey]
  · exact (List.length_set ..).trans h.length
  · intro b t' m' ht' hm'
    by_cases hb : b = a
    · subst hb
      rw [List.getElem?_set_self hlt] at ht'
      cases ht'
      cases hma.symm.trans hm'
      exact hok'
    · rw [List.getElem?_set_ne (Ne.symm hb)] at ht'
      exact h.ok b t' m' ht' hm'
  · have htables (b : Nat) :
        ((s.tables.set a tab')[b]?).map StorageTable.order = s.tables[b]?.map StorageTable.order := by
      by_cases hb : b = a
      · rw [hb, List.getElem?_set_self hlt, htab, Option.map_some, Option.map_some, hsame]
      · rw [List.getElem?_set_ne (Ne.symm hb)]
    have hview (u : EnumeratedMaps) : u.view j = (u.addressOf j).bind fun b => (u.maps[b]?).bind fun m =>
        (u.tables[b]?.map StorageTable.order).map fun order => (m.map, order) := by
      simp [view, Option.map_eq_bind, Option.bind_assoc]
    rw [hview, hview]
    simp only [htables]

theorem view_append {maps : List StorageMap} {refs : List (Option Nat)} {tables : List StorageTable}
    {v : Items × List WTFString} (hv : s.view j = some v) :
    view ⟨⟨s.maps ++ maps, s.refs ++ refs⟩, s.tables ++ tables⟩ j = some v := by
  obtain ⟨items, keys⟩ := v
  obtain ⟨a, m, tab, ha, hm, htab, hitems, hkeys⟩ := view_eq_some.1 hv
  have happend {γ : Type} {xs ys : List γ} {b : Nat} {x : γ} (hx : xs[b]? = some x) : (xs ++ ys)[b]? = some x := by
    obtain ⟨hlt, -⟩ := List.getElem?_eq_some_iff.1 hx
    rw [List.getElem?_append_left hlt, hx]
  exact view_eq_some.2 ⟨a, m, tab, addressOf_eq_some.2 (happend (addressOf_eq_some.1 ha)), happend hm, happend htab,
    hitems, hkeys⟩

/-- **A step leaves every map with its table.** -/
theorem step_inv {op : EnumeratedOp} (h : s.Inv) (hmeets : s.MeetsEnumeration op) (hs : s.step op = some t) :
    t.Inv := by
  match op with
  | .call (.create quota) _ =>
    cases hs
    constructor
    · show (s.tables ++ _).length = (s.maps ++ _).length
      rw [List.length_append, List.length_append, h.length]
      rfl
    · intro a t m ht hm
      by_cases ha : a < s.maps.length
      · rw [List.getElem?_append_left (h.length.symm ▸ ha)] at ht
        rw [List.getElem?_append_left ha] at hm
        exact h.ok a t m ht hm
      · rw [List.getElem?_append_right (h.length.symm ▸ Nat.not_lt.1 ha)] at ht
        rw [List.getElem?_append_right (Nat.not_lt.1 ha)] at hm
        obtain rfl := List.mem_singleton.1 (List.mem_of_getElem? ht)
        obtain rfl := List.mem_singleton.1 (List.mem_of_getElem? hm)
        exact ⟨⟨List.nodup_nil, rfl, by decide⟩, fun hcached => absurd rfl hcached⟩
  | .call (.ref i) _ =>
    unfold step StorageMaps.step at hs
    simp only [Option.bind_eq_bind, Option.pure_def, Option.bind_eq_some_iff, Option.some.injEq] at hs
    obtain ⟨storage, ⟨a, -, rfl⟩, rfl⟩ := hs
    exact ⟨h.length, h.ok⟩
  | .call (.deref i) _ =>
    cases hs
    exact ⟨h.length, h.ok⟩
  | .call (.setItem i key value) order =>
    exact mutate_inv h (show s.mutate i (.setItem i key value) order = some t from hs) rfl (by simp)
      fun _ _ _ _ _ _ _ => trivial
  | .call (.setItemIgnoringQuota i key value) order =>
    exact mutate_inv h (show s.mutate i (.setItemIgnoringQuota i key value) order = some t from hs) rfl (by simp)
      fun _ _ _ _ _ _ _ => trivial
  | .call (.removeItem i key) order =>
    refine mutate_inv h (show s.mutate i (.removeItem i key) order = some t from hs) rfl (by simp)
      fun a m tab ha hm htab hown => ?_
    exact hmeets a ha (Nat.le_of_not_lt fun hshared => hown ⟨rfl, hshared⟩) m hm tab htab
  | .call (.importItems i items) order =>
    refine mutate_inv h (show s.mutate i (.importItems i items) order = some t from hs) rfl (by simp)
      fun a m tab ha hm htab _ hnew => ?_
    exact (hmeets a ha m hm tab htab hnew).2
  | .key i position =>
    obtain ⟨p, hp, rfl⟩ := Option.map_eq_some_iff.1 (show (s.key i position).map Prod.snd = some t from hs)
    have hkey := hp
    unfold key at hkey
    simp only [Option.bind_eq_bind, Option.bind_eq_some_iff] at hkey
    obtain ⟨a, ha, tab, htab, -⟩ := hkey
    obtain ⟨hlt, -⟩ := List.getElem?_eq_some_iff.1 htab
    have hm := List.getElem?_eq_getElem (h.length ▸ hlt)
    obtain ⟨keys, u, -, hu, hinv, -⟩ := key_spec h (mapOf_eq_some.2 ⟨a, ha, hm⟩) position
    cases hp.symm.trans hu
    exact hinv

/-- **A step is not seen through another reference.** -/
theorem step_view {op : EnumeratedOp} (h : s.Inv) (hmeets : s.MeetsEnumeration op) (hs : s.step op = some t)
    (hj : ∀ call order, op = .call call order → call.index? ≠ some j) {v : Items × List WTFString}
    (hv : s.view j = some v) : t.view j = some v := by
  match op with
  | .call (.create quota) _ =>
    cases hs
    exact view_append hv
  | .call (.ref i) _ =>
    unfold step StorageMaps.step at hs
    simp only [Option.bind_eq_bind, Option.pure_def, Option.bind_eq_some_iff, Option.some.injEq] at hs
    obtain ⟨storage, ⟨a, -, rfl⟩, rfl⟩ := hs
    have happend : view ⟨⟨s.maps ++ [], s.refs ++ [some a]⟩, s.tables ++ []⟩ j = some v := view_append hv
    simpa using happend
  | .call (.deref i) _ =>
    cases hs
    have hne : j ≠ i := fun heq => hj _ _ rfl (congrArg some heq.symm)
    obtain ⟨items, keys⟩ := v
    obtain ⟨a, m, tab, ha, hm, htab, hitems, hkeys⟩ := view_eq_some.1 hv
    refine view_eq_some.2 ⟨a, m, tab, addressOf_eq_some.2 ?_, hm, htab, hitems, hkeys⟩
    show (s.refs.set i none)[j]? = _
    rw [List.getElem?_set_ne (Ne.symm hne)]
    exact addressOf_eq_some.1 ha
  | .call (.setItem i key value) order =>
    have hne : j ≠ i := fun heq => hj _ _ rfl (congrArg some heq.symm)
    refine mutate_view (show s.mutate i (.setItem i key value) order = some t from hs) rfl (by simp) hne hv ?_
    exact fun _ _ _ _ _ _ _ hcopies => Bool.noConfusion hcopies
  | .call (.setItemIgnoringQuota i key value) order =>
    have hne : j ≠ i := fun heq => hj _ _ rfl (congrArg some heq.symm)
    refine mutate_view (show s.mutate i (.setItemIgnoringQuota i key value) order = some t from hs) rfl (by simp)
      hne hv ?_
    exact fun _ _ _ _ _ _ _ hcopies => Bool.noConfusion hcopies
  | .call (.removeItem i key) order =>
    have hne : j ≠ i := fun heq => hj _ _ rfl (congrArg some heq.symm)
    refine mutate_view (show s.mutate i (.removeItem i key) order = some t from hs) rfl (by simp) hne hv ?_
    exact fun _ _ _ _ _ _ _ hcopies => Bool.noConfusion hcopies
  | .call (.importItems i items) order =>
    have hne : j ≠ i := fun heq => hj _ _ rfl (congrArg some heq.symm)
    refine mutate_view (show s.mutate i (.importItems i items) order = some t from hs) rfl (by simp) hne hv ?_
    intro a m tab ha hm htab hshared _
    have hold : ∀ item ∈ items, item.1 ∈ m.map := fun item hitem => by
      by_contra hnew
      exact Nat.not_le.2 hshared (hmeets a ha m hm tab htab ⟨item, hitem, hnew⟩).1
    exact ⟨importItems_of_mem hold, if_pos hold⟩
  | .key i position =>
    obtain ⟨p, hp, rfl⟩ := Option.map_eq_some_iff.1 (show (s.key i position).map Prod.snd = some t from hs)
    have hkey := hp
    unfold key at hkey
    simp only [Option.bind_eq_bind, Option.bind_eq_some_iff] at hkey
    obtain ⟨a, ha, tab, htab, -⟩ := hkey
    obtain ⟨hlt, -⟩ := List.getElem?_eq_some_iff.1 htab
    have hm := List.getElem?_eq_getElem (h.length ▸ hlt)
    obtain ⟨keys, u, -, hu, -, -, hviews⟩ := key_spec h (mapOf_eq_some.2 ⟨a, ha, hm⟩) position
    cases hp.symm.trans hu
    rw [hviews, hv]

/-! ## Queries -/

/-- What is read through a reference between two changes. -/
inductive Query
  | key (index : Nat) (position : UInt32)
  | getItem (index : Nat) (key : WTFString)

def Query.index : Query → Nat
  | .key i _ | .getItem i _ => i

def ask (s : EnumeratedMaps) : Query → Option (MaybeString × EnumeratedMaps)
  | .key i position => s.key i position
  | .getItem i key => (s.mapOf i).map fun m => (m.getItem key, s)

/-- Queries one after the other. -/
def askAll (s : EnumeratedMaps) : List Query → Option (List MaybeString × EnumeratedMaps)
  | [] => some ([], s)
  | query :: queries => do
    let (answer, t) ← s.ask query
    let (answers, u) ← t.askAll queries
    return (answer :: answers, u)

/-- The answer that is read off the view of a reference. -/
def answer (s : EnumeratedMaps) (query : Query) : MaybeString := do
  let (items, keys) ← s.view query.index
  match query with
  | .key _ position => keys[position.toNat]?
  | .getItem _ key => (items.lookup key).join

/-- **Queries are answered from the views**, whatever has been asked before. -/
theorem askAll_eq (h : s.Inv) (queries : List Query) (hqueries : ∀ q ∈ queries, (s.mapOf q.index).isSome) :
    ∃ t, s.askAll queries = some (queries.map s.answer, t) ∧ ∀ j, t.view j = s.view j := by
  induction queries generalizing s with
  | nil => exact ⟨s, rfl, fun _ => rfl⟩
  | cons query queries ih =>
    obtain ⟨hquery, hqueries⟩ := List.forall_mem_cons.1 hqueries
    obtain ⟨m, hm⟩ := Option.isSome_iff_exists.1 hquery
    obtain ⟨t, hask, hinv, hstorage, hviews⟩ : ∃ t, s.ask query = some (s.answer query, t) ∧ t.Inv ∧
        t.toStorageMaps = s.toStorageMaps ∧ ∀ j, t.view j = s.view j := by
      cases query with
      | key i position =>
        obtain ⟨keys, t, hview, hkey, hspec⟩ := key_spec h hm position
        refine ⟨t, ?_, hspec⟩
        have hanswer : s.answer (.key i position) = keys[position.toNat]? := by
          simp only [answer, hview]
          rfl
        rw [hanswer]
        exact hkey
      | getItem i key =>
        obtain ⟨keys, -, hview, -⟩ := key_spec h hm 0
        refine ⟨s, ?_, h, rfl, fun _ => rfl⟩
        have hanswer : s.answer (.getItem i key) = m.getItem key := by
          simp only [answer, hview]
          rfl
        rw [ask, show s.mapOf i = some m from hm, hanswer]
        rfl
    have hanswer : t.answer = s.answer := by
      funext q
      unfold answer
      rw [hviews]
    obtain ⟨u, hrest, hviews'⟩ := ih hinv (by rw [hstorage]; exact hqueries)
    refine ⟨u, ?_, fun j => (hviews' j).trans (hviews j)⟩
    rw [hanswer] at hrest
    simp [askAll, hask, hrest]

/-! ## Runs -/

/-- **Storage maps are isolated and enumerate their keys**: in every run whose calls meet `MeetsEnumeration`, no call is
seen through another reference, every map has an order of its keys, each of them once, and `key` and `getItem` answer
from it in whatever order they are asked. -/
theorem storage_maps_enumerate {ops : List EnumeratedOp} {s : EnumeratedMaps}
    (hr : Run (Guarded MeetsEnumeration (Via step)) init ops s) :
    (∀ op t, Guarded MeetsEnumeration (Via step) s op t → ∀ j, (∀ call order, op = .call call order →
      call.index? ≠ some j) → ∀ v, s.view j = some v → t.view j = some v) ∧
    (∀ j m, s.mapOf j = some m → ∃ keys, s.view j = some (m.map, keys) ∧ keys.Nodup ∧ ∀ k, k ∈ keys ↔ k ∈ m.map) ∧
    ∀ queries : List Query, (∀ q ∈ queries, (s.mapOf q.index).isSome) →
      ∃ t, s.askAll queries = some (queries.map s.answer, t) ∧ ∀ j, t.view j = s.view j := by
  have hstep : ∀ s op t, Inv s → Guarded MeetsEnumeration (Via step) s op t → Inv t :=
    fun s op t h hs => step_inv h hs.1 hs.2
  have hinv := hr.invariant hstep inv_init
  refine ⟨fun op t hs j hj v hv => step_view hinv hs.1 hs.2 hj hv, fun j m hm => ?_, askAll_eq hinv⟩
  obtain ⟨a, ha, hma⟩ := mapOf_eq_some.1 hm
  obtain ⟨tab, htab, hok⟩ := hinv.exists_table hma
  refine ⟨tab.order, view_eq_some.2 ⟨a, m, tab, ha, hma, htab, rfl, rfl⟩, hok.order.1, fun k => ?_⟩
  rw [← List.mem_toFinset, hok.order.2.1, Finmap.mem_keys]

/-- Two references to one map: a copy is made for the second, and both are enumerated. -/
theorem storage_maps_enumerate_copy :
    let a : WTFString := ⟨[97], by decide⟩
    let b : WTFString := ⟨[98], by decide⟩
    ∃ s, runFn (guardFn MeetsEnumeration step) init [.call (.create noQuota) [], .call (.setItem 0 a (some a)) [a],
        .call (.ref 0) [], .key 0 0, .call (.setItem 1 b (some b)) [b, a]] = some s ∧
      (∃ t, s.askAll [.key 1 1, .key 1 0, .key 0 0, .getItem 0 b] = some ([some a, some b, some a, none], t)) := by
  intro a b
  have hr : (runFn (guardFn MeetsEnumeration step) init [.call (.create noQuota) [],
      .call (.setItem 0 a (some a)) [a], .call (.ref 0) [], .key 0 0, .call (.setItem 1 b (some b)) [b, a]]).map
        (fun s => ([.key 1 1, .key 1 0, .key 0 0, .getItem 0 b].map s.answer,
          [Query.key 1 1, .key 1 0, .key 0 0, .getItem 0 b].all fun q => (s.mapOf q.index).isSome)) =
      some ([some a, some b, some a, none], true) := by decide +kernel
  obtain ⟨s, hs, heq⟩ := Option.map_eq_some_iff.1 hr
  simp only [Prod.mk.injEq, List.all_eq_true] at heq
  obtain ⟨t, ht, -⟩ := (storage_maps_enumerate (run_of_runFn_guardFn hs)).2.2 _ heq.2
  exact ⟨s, hs, t, heq.1 ▸ ht⟩

/-- **Imported items are seen through another reference**, and an iterator that was cached is used after them. -/
theorem import_into_shared_map :
    let a : WTFString := ⟨[97], by decide⟩
    let b : WTFString := ⟨[98], by decide⟩
    (runFn step init [.call (.create noQuota) [], .call (.ref 0) []]).bind (·.view 1) = some (∅, []) ∧
      (runFn step init [.call (.create noQuota) [], .call (.ref 0) [],
        .call (.importItems 0 [(a, some a)]) [a]]).bind (fun s => (s.view 1).map Prod.snd) = some [a] ∧
      (runFn step init [.call (.create noQuota) [], .call (.setItem 0 a (some a)) [a], .key 0 0,
        .call (.importItems 0 [(b, some b)]) [a, b]]).isSome = true ∧
      (runFn step init [.call (.create noQuota) [], .call (.setItem 0 a (some a)) [a], .key 0 0,
        .call (.importItems 0 [(b, some b)]) [a, b], .key 0 1]).isSome = false := by
  decide +kernel

end EnumeratedMaps

end WebKit.WebCore
