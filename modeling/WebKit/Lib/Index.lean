import Mathlib.Data.List.Perm.Basic

/-!
# Indexes of nodes by a key

A hash map from keys to node identifiers, as a partial function with `mapAdd`, which does not overwrite, and
`mapRemove`. `Indexes m f l`: the map `m` holds exactly the nodes of the list `l`, each under its key `f`. Removing a
node, adding one with a new key, and changing a node without changing its key keep this.
-/

namespace Index

variable {κ ι ν : Type*}

/-- `add` of a key that is not there; a key that is there keeps its value. -/
def mapAdd [DecidableEq κ] (m : κ → Option ι) (k : κ) (i : ι) : κ → Option ι := if m k = none then Function.update m k (some i) else m

def mapRemove [DecidableEq κ] (m : κ → Option ι) (k : κ) : κ → Option ι := Function.update m k none

/-- The map holds the nodes of the list, each under its key. -/
def Indexes (m : κ → Option ι) (f : ν → κ) (l : List (ι × ν)) : Prop := ∀ k i, m k = some i ↔ ∃ n, (i, n) ∈ l ∧ f n = k

variable {m : κ → Option ι} {f : ν → κ} {l l' : List (ι × ν)} {i : ι} {n n' : ν}

theorem Indexes.perm (h : Indexes m f l) (hp : l.Perm l') : Indexes m f l' := fun k i => by
  rw [h k i]
  simp only [hp.mem_iff]

theorem Indexes.get (h : Indexes m f l) (hm : (i, n) ∈ l) : m (f n) = some i := (h _ _).2 ⟨n, hm, rfl⟩

theorem Indexes.eq_none (h : Indexes m f l) {k : κ} (hk : ∀ p ∈ l, f p.2 ≠ k) : m k = none := by
  cases hm : m k with
  | none => rfl
  | some i =>
    obtain ⟨n, hn, he⟩ := (h k i).1 hm
    exact absurd he (hk _ hn)

/-- **Removing a node** under its key. -/
theorem Indexes.remove [DecidableEq κ] (h : Indexes m f ((i, n) :: l)) (hi : i ∉ l.map Prod.fst) : Indexes (mapRemove m (f n)) f l := by
  intro k j
  have hself := h.get (List.mem_cons_self ..)
  unfold mapRemove
  by_cases hk : k = f n
  · subst hk
    rw [Function.update_self]
    refine ⟨fun he => (by cases he), fun ⟨n', hn', he⟩ => ?_⟩
    -- two nodes under one key would be one node
    have := h.get (List.mem_cons_of_mem _ hn')
    rw [he, hself, Option.some.injEq] at this
    subst this
    exact absurd (List.mem_map_of_mem hn') hi
  · rw [Function.update_of_ne hk, h k j]
    refine ⟨fun ⟨n', hn', he⟩ => ?_, fun ⟨n', hn', he⟩ => ⟨n', List.mem_cons_of_mem _ hn', he⟩⟩
    rcases List.mem_cons.1 hn' with heq | hn'
    · cases heq
      exact absurd he.symm hk
    · exact ⟨n', hn', he⟩

/-- **Adding a node** under a new key. -/
theorem Indexes.add [DecidableEq κ] (h : Indexes m f l) (hk : ∀ p ∈ l, f p.2 ≠ f n) : Indexes (mapAdd m (f n) i) f ((i, n) :: l) := by
  intro k j
  unfold mapAdd
  rw [if_pos (h.eq_none hk)]
  by_cases hkn : k = f n
  · subst hkn
    rw [Function.update_self]
    refine ⟨fun he => ?_, fun ⟨n', hn', he⟩ => ?_⟩
    · cases he
      exact ⟨n, List.mem_cons_self .., rfl⟩
    rcases List.mem_cons.1 hn' with heq | hn'
    · cases heq
      rfl
    · exact absurd he (hk _ hn')
  · rw [Function.update_of_ne hkn, h k j]
    refine ⟨fun ⟨n', hn', he⟩ => ⟨n', List.mem_cons_of_mem _ hn', he⟩, fun ⟨n', hn', he⟩ => ?_⟩
    rcases List.mem_cons.1 hn' with heq | hn'
    · cases heq
      exact absurd he.symm hkn
    · exact ⟨n', hn', he⟩

/-- Changing a node without its key. -/
theorem Indexes.change (h : Indexes m f ((i, n) :: l)) (hf : f n' = f n) : Indexes m f ((i, n') :: l) := by
  intro k j
  rw [h k j]
  simp only [List.mem_cons, Prod.mk.injEq]
  refine ⟨fun ⟨x, hx, he⟩ => ?_, fun ⟨x, hx, he⟩ => ?_⟩
  · rcases hx with ⟨rfl, rfl⟩ | hx
    · exact ⟨n', .inl ⟨rfl, rfl⟩, hf.trans he⟩
    · exact ⟨x, .inr hx, he⟩
  · rcases hx with ⟨rfl, rfl⟩ | hx
    · exact ⟨n, .inl ⟨rfl, rfl⟩, hf.symm.trans he⟩
    · exact ⟨x, .inr hx, he⟩

end Index
