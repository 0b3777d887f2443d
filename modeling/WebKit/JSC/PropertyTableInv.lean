import Mathlib.Data.List.ReduceOption
import Mathlib.Data.Nat.Prime.Basic
import WebKit.JSC.PropertyTable
import WebKit.Lib.Probing

/-!
# What holds of a property table

`WellFormed t used`: the slots in use are `used`, with `none` for a removed entry, and the index leads to each live entry
along positions that are taken. At most half of the index is taken, so every search ends (`find_spec`).
-/

namespace WebKit.JSC

open WebKit.Lib

variable {Key : Type}

/-- A slot in use. -/
def Slot.ofUsed : Option (PropertyMapEntry Key) → Slot Key
  | none => .deleted
  | some e => .entry e

namespace PropertyTable

variable (existingHash : Key → UInt32) (t : PropertyTable Key)

/-- The position of the index that is looked at behind `n` collisions. -/
def position (key : Key) (n : Nat) : Nat :=
  probe t.indexSize.toNat (existingHash key).toNat (doubleHash (existingHash key) ||| 1).toNat n

/-- The first `n` positions are taken. -/
def Passed (key : Key) (n : Nat) : Prop := ∀ m < n, t.index[t.position existingHash key m]? ≠ some 0

/-- The slots in use are `used`. -/
structure WellFormed (used : List (Option (PropertyMapEntry Key))) : Prop where
  indexSize_eq : ∃ k, 4 ≤ k ∧ k ≤ 31 ∧ t.indexSize.toNat = 2 ^ k
  index_length : t.index.length = t.indexSize.toNat
  table_eq : t.table = used.map Slot.ofUsed ++ List.replicate (t.tableCapacity + 1 - used.length) .null
  used_le : used.length ≤ t.tableCapacity
  keyCount_eq : t.keyCount = used.reduceOption.length
  usedCount_eq : t.usedCount = used.length
  keys_nodup : (used.reduceOption.map PropertyMapEntry.key).Nodup
  taken : t.index.countP (· ≠ 0) = used.length
  index_valid : ∀ p v : Nat, t.index[p]? = some v → v ≠ 0 → v = t.deletedEntryIndex ∨ ∃ e, used[v - 1]? = some (some e)
  index_inj : ∀ p q v : Nat, t.index[p]? = some v → t.index[q]? = some v → v ≠ 0 → v ≠ t.deletedEntryIndex → p = q
  reachable : ∀ (j : Nat) e, used[j]? = some (some e) →
    ∃ n, t.Passed existingHash e.key n ∧ t.index[t.position existingHash e.key n]? = some (j + 1)

/-! ## Sizes -/

theorem toNat_nextPowerOf2 (v : UInt32) : (nextPowerOf2 v).toNat = 2 ^ (v - 1).toNat.size % 2 ^ 32 := by
  have hsmear : (nextPowerOf2 v).toNat = (smear (v - 1).toNat + 1) % 2 ^ 32 := by
    simp only [nextPowerOf2, smear, UInt32.toNat_add, UInt32.toNat_or, UInt32.toNat_shiftRight]
    rfl
  have hpos : 0 < 2 ^ (v - 1).toNat.size := Nat.two_pow_pos _
  rw [hsmear, smear_eq (v - 1).toNat_lt, Nat.sub_add_cancel hpos]

theorem toNat_sizeForCapacity {capacity : UInt32} (h : 8 ≤ capacity.toNat) :
    (sizeForCapacity capacity).toNat = 2 ^ (capacity.toNat.size + 1) % 2 ^ 32 := by
  have hlarge : ¬ capacity < MinimumTableSize / 2 := fun hlt => Nat.not_lt.2 h (UInt32.lt_iff_toNat_lt.1 hlt)
  have htwo : (2 : UInt32).toNat = 2 := rfl
  rw [sizeForCapacity, if_neg hlarge, UInt32.toNat_mul, toNat_nextPowerOf2, UInt32.add_sub_cancel, htwo, Nat.mod_mul_mod,
    ← pow_succ]

/-- **The size for a capacity** below 2 ^ 30 is a power of two, and more than twice the capacity. -/
theorem sizeForCapacity_eq {capacity : UInt32} (h : capacity.toNat < 2 ^ 30) :
    ∃ k, 4 ≤ k ∧ k ≤ 31 ∧ (sizeForCapacity capacity).toNat = 2 ^ k ∧ capacity.toNat < 2 ^ (k - 1) := by
  by_cases hsmall : capacity.toNat < 8
  · have hlt : capacity < MinimumTableSize / 2 := UInt32.lt_iff_toNat_lt.2 hsmall
    exact ⟨4, le_rfl, by decide, by rw [sizeForCapacity, if_pos hlt]; rfl, hsmall⟩
  · have hsize : capacity.toNat.size ≤ 30 := Nat.size_le.2 h
    have hfour : 3 < capacity.toNat.size := Nat.lt_size.2 (Nat.le_of_not_lt hsmall)
    have hpow : 2 ^ (capacity.toNat.size + 1) ≤ 2 ^ 31 := Nat.pow_le_pow_right (by decide) (by omega)
    refine ⟨capacity.toNat.size + 1, by omega, by omega, ?_, Nat.lt_size_self _⟩
    rw [toNat_sizeForCapacity (Nat.le_of_not_lt hsmall), Nat.mod_eq_of_lt (by omega)]

section

variable {existingHash t} {used : List (Option (PropertyMapEntry Key))}

theorem WellFormed.tableCapacity_eq (h : t.WellFormed existingHash used) : t.indexSize.toNat = 2 * t.tableCapacity := by
  obtain ⟨k, hk, -, hsize⟩ := h.indexSize_eq
  obtain ⟨n, rfl⟩ : ∃ n, k = n + 1 := ⟨k - 1, by omega⟩
  rw [tableCapacity, UInt32.toNat_shiftRight, hsize, Nat.shiftRight_eq_div_pow]
  have hone : (1 : UInt32).toNat % 32 = 1 := rfl
  rw [hone, pow_succ]
  omega

theorem WellFormed.size_pos (h : t.WellFormed existingHash used) : 0 < t.indexSize.toNat := by
  obtain ⟨k, -, -, hsize⟩ := h.indexSize_eq
  rw [hsize]
  exact Nat.two_pow_pos k

theorem length_table (h : t.WellFormed existingHash used) : t.table.length = t.tableCapacity + 1 := by
  have hle := h.used_le
  rw [h.table_eq, List.length_append, List.length_map, List.length_replicate]
  omega

theorem getElem?_table (h : t.WellFormed existingHash used) {position : Nat} (hlt : position < t.table.length) :
    t.table[position]? = some ((used[position]?.map Slot.ofUsed).getD .null) := by
  rw [length_table h] at hlt
  rw [h.table_eq]
  by_cases hused : position < used.length
  · rw [List.getElem?_append_left (by rwa [List.length_map]), List.getElem?_map, List.getElem?_eq_getElem hused]
    rfl
  · rw [List.getElem?_append_right (by rw [List.length_map]; omega), List.length_map,
      List.getElem?_eq_none (by omega : used.length ≤ position), List.getElem?_replicate, if_pos (by omega)]
    rfl

theorem getElem?_table_entry (h : t.WellFormed existingHash used) {j : Nat} {e : PropertyMapEntry Key}
    (hj : used[j]? = some (some e)) : t.table[j]? = some (.entry e) := by
  have hlt : j < t.table.length := by
    have hused := (List.getElem?_eq_some_iff.1 hj).1
    have hle := h.used_le
    rw [length_table h]
    omega
  rw [getElem?_table h hlt, hj]
  rfl

/-! ## Searching -/

variable (existingHash t) in
theorem toNat_and_indexMask {k : Nat} (hsize : t.indexSize.toNat = 2 ^ k) (hash : UInt32) :
    (hash &&& t.indexMask).toNat = hash.toNat % t.indexSize.toNat := by
  have hpos : 0 < t.indexSize.toNat := by
    rw [hsize]
    exact Nat.two_pow_pos k
  have hmask : t.indexMask.toNat = t.indexSize.toNat - 1 := UInt32.toNat_sub_of_le _ _ (UInt32.le_iff_toNat_le.2 hpos)
  rw [UInt32.toNat_and, hmask, hsize, Nat.and_two_pow_sub_one_eq_mod]

theorem step_mod_two (hash : UInt32) : (doubleHash hash ||| 1).toNat % 2 = 1 := by
  rw [UInt32.toNat_or]
  exact Nat.or_mod_two_eq_one.2 (Or.inr rfl)

theorem coprime_step (h : t.WellFormed existingHash used) (hash : UInt32) :
    Nat.Coprime t.indexSize.toNat (doubleHash hash ||| 1).toNat := by
  obtain ⟨k, -, -, hsize⟩ := h.indexSize_eq
  rw [hsize]
  exact Nat.Coprime.pow_left k (Nat.coprime_two_left.2 (Nat.odd_iff.2 (step_mod_two hash)))

/-- What a search reads is inside the arrays. -/
theorem exists_index (h : t.WellFormed existingHash used) {p : Nat} (hp : p < t.indexSize.toNat) :
    ∃ v, t.index[p]? = some v ∧ (v ≠ 0 → ∃ slot, t.table[v - 1]? = some slot) := by
  rw [← h.index_length] at hp
  refine ⟨t.index[p], List.getElem?_eq_getElem hp, ?_⟩
  intro hv
  have hlt : t.index[p] - 1 < t.table.length := by
    have hlength := length_table h
    have hle := h.used_le
    obtain heq | ⟨e, he⟩ := h.index_valid p t.index[p] (List.getElem?_eq_getElem hp) hv
    · rw [heq, hlength, deletedEntryIndex]
      omega
    · have hused := (List.getElem?_eq_some_iff.1 he).1
      omega
  exact ⟨_, List.getElem?_eq_getElem hlt⟩

theorem exists_free (h : t.WellFormed existingHash used) : ∃ p < t.indexSize.toNat, t.index[p]? = some 0 := by
  have hcount : t.index.countP (· ≠ 0) < t.index.length := by
    have hle := h.used_le
    have hcapacity := h.tableCapacity_eq
    have hpos := h.size_pos
    rw [h.taken, h.index_length]
    omega
  by_contra hnone
  have hall : ∀ v ∈ t.index, v ≠ 0 := by
    intro v hv hzero
    obtain ⟨p, hp, heq⟩ := List.mem_iff_getElem.1 hv
    exact hnone ⟨p, h.index_length ▸ hp, by rw [List.getElem?_eq_getElem hp, heq, hzero]⟩
  rw [List.countP_eq_length.2 (by simpa using hall)] at hcount
  exact absurd hcount (Nat.lt_irrefl _)

variable [DecidableEq Key]

variable (t) in
/-- A search ends at a position that is free or leads to the key. -/
def StopsAt (key : Key) (p : Nat) : Prop :=
  ∃ v, t.index[p]? = some v ∧ (v = 0 ∨ ∃ slot, t.table[v - 1]? = some slot ∧ slot.hasKey key)

variable (t) in
/-- What a search returns at the position where it ends. -/
def resultAt (p : Nat) : Option Nat × Nat :=
  match t.index[p]? with
  | some (v + 1) => (some v, p)
  | _ => (none, p)

/-- **A search returns at the first position where it can end.** -/
theorem findLoop_eq (h : t.WellFormed existingHash used) {key : Key} {n : Nat}
    (hstop : t.StopsAt key (t.position existingHash key n))
    (hpass : ∀ m < n, ¬ t.StopsAt key (t.position existingHash key m)) (fuel : Nat) (hash step : UInt32) (m : Nat)
    (hm : m ≤ n) (hfuel : n < m + fuel) (hhash : hash.toNat % t.indexSize.toNat = t.position existingHash key m)
    (hstep : step = if m = 0 then 0 else doubleHash (existingHash key) ||| 1) :
    t.findLoop existingHash key fuel hash step = .ok (t.resultAt (t.position existingHash key n)) := by
  obtain ⟨k, -, hk, hsize⟩ := h.indexSize_eq
  induction fuel generalizing hash step m with
  | zero => exact absurd hfuel (by omega)
  | succ fuel ih =>
    have hposition : (hash &&& t.indexMask).toNat = t.position existingHash key m := by
      rw [toNat_and_indexMask t hsize, hhash]
    have hp : t.position existingHash key m < t.indexSize.toNat := probe_lt h.size_pos m
    obtain ⟨v, hv, hslot⟩ := exists_index h hp
    have hhere : t.StopsAt key (t.position existingHash key m) → m = n := by
      intro hs
      exact Nat.le_antisymm hm (Nat.le_of_not_lt fun hlt => hpass m hlt hs)
    rw [findLoop]
    simp only [hposition]
    have hempty : EmptyEntryIndex = 0 := rfl
    rw [readIndex_eq hv, ok_bind, hempty]
    by_cases hzero : v = 0
    · obtain rfl := hhere ⟨v, hv, Or.inl hzero⟩
      rw [if_pos hzero, resultAt, hv, hzero]
      rfl
    · obtain ⟨slot, hslot⟩ := hslot hzero
      rw [if_neg hzero, readSlot_eq hslot, ok_bind]
      by_cases hkey : slot.hasKey key
      · obtain rfl := hhere ⟨v, hv, Or.inr ⟨slot, hslot, hkey⟩⟩
        obtain ⟨v, rfl⟩ := Nat.exists_eq_succ_of_ne_zero hzero
        rw [if_pos hkey, resultAt, hv]
        rfl
      · rw [if_neg hkey]
        have hlt : m < n := by
          refine Nat.lt_of_le_of_ne hm ?_
          rintro rfl
          obtain ⟨v', hv', hstop⟩ := hstop
          obtain rfl : v = v' := Option.some.inj (hv.symm.trans hv')
          obtain hstop | ⟨slot', hslot', hkey'⟩ := hstop
          · exact hzero hstop
          · obtain rfl : slot = slot' := Option.some.inj (hslot.symm.trans hslot')
            exact hkey hkey'
        have hnext : (if step = 0 then doubleHash (existingHash key) ||| 1 else step) =
            doubleHash (existingHash key) ||| 1 := by
          rw [hstep]
          split_ifs <;> simp_all
        rw [hnext]
        apply ih
        · exact hlt
        · omega
        · have hdvd : t.indexSize.toNat ∣ 2 ^ 32 := hsize ▸ Nat.pow_dvd_pow 2 (by omega)
          rw [UInt32.toNat_add, Nat.mod_mod_of_dvd _ hdvd, Nat.add_mod, hhash, position, position, probe_succ]
        · rw [if_neg (Nat.succ_ne_zero m)]

/-- Behind a number of taken positions the search for a key ends. -/
theorem exists_stop (h : t.WellFormed existingHash used) (key : Key) :
    ∃ n, t.StopsAt key (t.position existingHash key n) ∧
      (∀ m < n, ¬ t.StopsAt key (t.position existingHash key m)) ∧
      t.find existingHash key = .ok (t.resultAt (t.position existingHash key n)) := by
  classical
  obtain ⟨p, hp, hfree⟩ := exists_free h
  obtain ⟨n, hn, hstop, hpass⟩ := exists_first_free (existingHash key).toNat
    (coprime_step h (existingHash key)) (t.StopsAt key) hp ⟨0, hfree, Or.inl rfl⟩
  refine ⟨n, hstop, hpass, ?_⟩
  apply findLoop_eq h hstop hpass _ _ _ 0 (Nat.zero_le n) (by omega)
  · rw [position, probe, Nat.zero_mul, Nat.add_zero]
  · rfl

theorem used_of_hasKey (h : t.WellFormed existingHash used) {j : Nat} {slot : Slot Key} {key : Key}
    (hslot : t.table[j]? = some slot) (hkey : slot.hasKey key) : ∃ e, used[j]? = some (some e) ∧ e.key = key := by
  rw [getElem?_table h (List.getElem?_eq_some_iff.1 hslot).1] at hslot
  obtain rfl := Option.some.inj hslot
  cases hused : used[j]? with
  | none =>
    rw [hused] at hkey
    cases hkey
  | some o =>
    rw [hused] at hkey
    cases o with
    | none => cases hkey
    | some e => exact ⟨e, rfl, of_decide_eq_true hkey⟩

/-- **What a search returns**: the entry of the key and the position that leads to it, or a free position. -/
theorem find_spec (h : t.WellFormed existingHash used) (key : Key) :
    (∃ j e p, used[j]? = some (some e) ∧ e.key = key ∧ t.index[p]? = some (j + 1) ∧
      t.find existingHash key = .ok (some j, p)) ∨
    (∀ e ∈ used.reduceOption, e.key ≠ key) ∧
      ∃ n, t.Passed existingHash key n ∧ t.index[t.position existingHash key n]? = some 0 ∧
        t.find existingHash key = .ok (none, t.position existingHash key n) := by
  obtain ⟨n, ⟨v, hv, hstop⟩, hpass, hfind⟩ := exists_stop h key
  have hpassed : t.Passed existingHash key n := by
    intro m hm hzero
    exact hpass m hm ⟨0, hzero, Or.inl rfl⟩
  rw [resultAt, hv] at hfind
  cases v with
  | zero =>
    refine Or.inr ⟨?_, n, hpassed, hv, hfind⟩
    rintro e he rfl
    obtain ⟨j, hj⟩ := List.mem_iff_getElem?.1 (List.reduceOption_mem_iff.1 he)
    obtain ⟨n', hpassed', hn'⟩ := h.reachable j e hj
    have hslot : t.table[j + 1 - 1]? = some (.entry e) := getElem?_table_entry h hj
    obtain hlt | rfl | hgt := Nat.lt_trichotomy n' n
    · exact hpass n' hlt ⟨j + 1, hn', Or.inr ⟨_, hslot, by simp [Slot.hasKey]⟩⟩
    · rw [hn'] at hv
      cases hv
    · exact hpassed' n hgt hv
  | succ v =>
    obtain ⟨slot, hslot, hkey⟩ := hstop.resolve_left (Nat.succ_ne_zero v)
    obtain ⟨e, he, heq⟩ := used_of_hasKey h hslot hkey
    exact Or.inl ⟨v, e, _, he, heq, hv, hfind⟩

end

end PropertyTable

end WebKit.JSC
