import Mathlib.Data.Finmap

/-!
# Finite maps: their weight and their iteration

`weight f m` is the sum of `f key value` over the entries of `m`. Inserting an entry adds what the entry weighs and
takes away what the entry it replaces weighed (`weight_insert_add`), and erasing a key takes away what its entry weighed
(`weight_erase_add`).

`Iterates m n visited`: an iteration of `m`, in an order that is not known, visits `visited` first, and stops after `n`
entries or at the end. There is such an iteration (`exists_iterates`), and one that does not stop early visits every entry
(`Iterates.complete`).
-/

namespace FiniteMap

variable {α β : Type*} [DecidableEq α]

/-- The sum of `f key value` over the entries of a map. -/
def weight (f : α → β → Nat) (m : Finmap fun _ : α => β) : Nat := (m.entries.map fun e => f e.1 e.2).sum

/-- What the entry of `k` weighs, or 0 if there is none. -/
def weightAt (f : α → β → Nat) (m : Finmap fun _ : α => β) (k : α) : Nat := (m.lookup k).elim 0 (f k)

variable {f : α → β → Nat} {m : Finmap fun _ : α => β} {k : α} {v w : β}

omit [DecidableEq α] in
@[simp] theorem weight_empty : weight f ∅ = 0 := rfl

theorem weightAt_of_lookup (h : m.lookup k = some v) : weightAt f m k = f k v := by
  rw [weightAt, h, Option.elim_some]

theorem weightAt_of_not_mem (h : k ∉ m) : weightAt f m k = 0 := by
  rw [weightAt, Finmap.lookup_eq_none.2 h, Option.elim_none]

/-- An entry with a new key adds what it weighs. -/
theorem weight_insert_of_not_mem (h : k ∉ m) : weight f (m.insert k v) = f k v + weight f m := by
  rw [weight, Finmap.entries_insert_of_notMem h, Multiset.map_cons, Multiset.sum_cons]
  rfl

theorem insert_erase : (m.erase k).insert k v = m.insert k v := by
  refine Finmap.ext_lookup fun x => ?_
  by_cases hx : x = k
  · subst hx
    rw [Finmap.lookup_insert, Finmap.lookup_insert]
  · rw [Finmap.lookup_insert_of_ne _ hx, Finmap.lookup_insert_of_ne _ hx, Finmap.lookup_erase_ne hx]

theorem insert_lookup (h : m.lookup k = some v) : m.insert k v = m := by
  refine Finmap.ext_lookup fun x => ?_
  by_cases hx : x = k
  · subst hx
    rw [Finmap.lookup_insert, h]
  · rw [Finmap.lookup_insert_of_ne _ hx]

theorem erase_of_not_mem (h : k ∉ m) : m.erase k = m := by
  refine Finmap.ext_lookup fun x => ?_
  by_cases hx : x = k
  · subst hx
    rw [Finmap.lookup_erase, Finmap.lookup_eq_none.2 h]
  · rw [Finmap.lookup_erase_ne hx]

/-- **Erasing** takes away what the entry weighed. -/
theorem weight_erase_add : weight f (m.erase k) + weightAt f m k = weight f m := by
  cases h : m.lookup k with
  | none =>
    have hm := Finmap.lookup_eq_none.1 h
    rw [weightAt_of_not_mem hm, erase_of_not_mem hm, Nat.add_zero]
  | some v =>
    have hm : k ∉ m.erase k := Finmap.notMem_erase_self
    have hw := weight_insert_of_not_mem (f := f) (v := v) hm
    rw [insert_erase, insert_lookup h] at hw
    rw [weightAt_of_lookup h, hw, Nat.add_comm]

/-- **Inserting** adds what the entry weighs and takes away what the replaced one weighed. -/
theorem weight_insert_add : weight f (m.insert k v) + weightAt f m k = weight f m + f k v := by
  have hm : k ∉ m.erase k := Finmap.notMem_erase_self
  have hw := weight_insert_of_not_mem (f := f) (v := v) hm
  have he := weight_erase_add (f := f) (m := m) (k := k)
  rw [insert_erase] at hw
  omega

/-! ## Iterations -/

/-- The first `n` entries that an iteration of `items` visits. -/
structure Iterates (items : Finmap fun _ : α => β) (n : Nat) (visited : List (α × β)) : Prop where
  nodup : (visited.map Prod.fst).Nodup
  mem : ∀ item ∈ visited, items.lookup item.1 = some item.2
  length : visited.length = min n items.keys.card

instance [DecidableEq β] (items : Finmap fun _ : α => β) (n : Nat) (visited : List (α × β)) :
    Decidable (Iterates items n visited) :=
  decidable_of_iff ((visited.map Prod.fst).Nodup ∧ (∀ item ∈ visited, items.lookup item.1 = some item.2) ∧
    visited.length = min n items.keys.card) ⟨fun h => ⟨h.1, h.2.1, h.2.2⟩, fun h => ⟨h.nodup, h.mem, h.length⟩⟩

variable {items : Finmap fun _ : α => β} {visited : List (α × β)} {n : Nat}

theorem Iterates.toFinset_subset (h : Iterates items n visited) : (visited.map Prod.fst).toFinset ⊆ items.keys := by
  intro key hkey
  obtain ⟨item, hitem, rfl⟩ := List.mem_map.1 (List.mem_toFinset.1 hkey)
  exact Finmap.mem_keys.2 (Finmap.mem_of_lookup_eq_some (h.mem item hitem))

theorem Iterates.mem_of_lookup (h : Iterates items n visited) (hv : items.lookup k = some v)
    (hk : k ∈ visited.map Prod.fst) : (k, v) ∈ visited := by
  obtain ⟨⟨key, other⟩, hitem, rfl⟩ := List.mem_map.1 hk
  have := h.mem _ hitem
  simp only at hv this
  rw [hv, Option.some.injEq] at this
  exact this ▸ hitem

theorem Iterates.complete (h : Iterates items n visited) (hle : items.keys.card ≤ n) (hv : items.lookup k = some v) :
    (k, v) ∈ visited := by
  have hcard : items.keys.card ≤ (visited.map Prod.fst).toFinset.card := by
    rw [List.toFinset_card_of_nodup h.nodup, List.length_map, h.length, Nat.min_eq_right hle]
  have heq := Finset.eq_of_subset_of_card_le h.toFinset_subset hcard
  refine h.mem_of_lookup hv (List.mem_toFinset.1 ?_)
  rw [heq]
  exact Finmap.mem_keys.2 (Finmap.mem_of_lookup_eq_some hv)

theorem exists_iterates (items : Finmap fun _ : α => β) (n : Nat) : ∃ visited, Iterates items n visited := by
  induction items using Finmap.induction_on with
  | _ items =>
    have hmap : ((items.entries.take n).map fun e => ((e.1, e.2) : α × β)).map Prod.fst = items.keys.take n := by
      rw [List.map_map, AList.keys, List.keys, List.map_take]
      rfl
    refine ⟨(items.entries.take n).map fun e => (e.1, e.2), ?_, ?_, ?_⟩
    · rw [hmap]
      exact items.keys_nodup.sublist (List.take_sublist ..)
    · intro item hitem
      obtain ⟨e, he, rfl⟩ := List.mem_map.1 hitem
      exact AList.mem_lookup_iff.2 (List.mem_of_mem_take he)
    · rw [List.length_map, List.length_take]
      congr 1
      change _ = items.keys.length
      rw [AList.keys, List.keys, List.length_map]

end FiniteMap
