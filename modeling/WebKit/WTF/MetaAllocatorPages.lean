import Mathlib.Algebra.Order.Group.Nat
import WebKit.WTF.MetaAllocator

/-!
# The page occupancy of `MetaAllocator`

`Occupied C a c`: the page occupancy map holds the counts `c`, without the zeros, and the committed bytes are those of
its pages. `incrementPageOccupancy` and `decrementPageOccupancy` add and subtract one for each page of a range
(`incrementPageOccupancy_occupied`, `decrementPageOccupancy_occupied`), and the counts of interest are the numbers of
handles on each page (`occupancy`). The pages that `shrink` gives up are those that only the old range touches, unless
the handle shrinks to nothing (`touches_shrink`).
-/

namespace WebKit.WTF

open Cover

variable {τ : Type*} {C : MetaAllocatorConfig}

theorem pageSize_pos (C : MetaAllocatorConfig) : 0 < C.pageSize := Nat.two_pow_pos _

/-! ## Pages of a range -/

/-- The range of the handle is not empty and touches the page. -/
def Touches (C : MetaAllocatorConfig) (page : Nat) (handle : MetaAllocatorHandle) : Prop :=
  handle.size ≠ 0 ∧ handle.start / C.pageSize ≤ page ∧ page ≤ (handle.start + handle.size - 1) / C.pageSize

instance (page : Nat) (handle : MetaAllocatorHandle) : Decidable (Touches C page handle) :=
  inferInstanceAs (Decidable (_ ∧ _ ∧ _))

/-- The number of handles that touch the page. -/
def occupancy (C : MetaAllocatorConfig) (handles : List MetaAllocatorHandle) (page : Nat) : Nat :=
  handles.countP fun handle => Touches C page handle

theorem occupancy_cons {handles : List MetaAllocatorHandle} {handle : MetaAllocatorHandle} {page : Nat} :
    occupancy C (handle :: handles) page = occupancy C handles page + if Touches C page handle then 1 else 0 := by
  simp [occupancy, List.countP_cons]

theorem count_pagesOf {address size page : Nat} (hs : size ≠ 0) :
    (MetaAllocator.pagesOf C address size).count page = if Touches C page ⟨address, size⟩ then 1 else 0 := by
  have hle : address / C.pageSize ≤ (address + size - 1) / C.pageSize := Nat.div_le_div_right (by omega)
  unfold MetaAllocator.pagesOf
  simp only
  rw [List.Nodup.count List.nodup_range']
  refine if_congr ?_ rfl rfl
  rw [List.mem_range'_1]
  unfold Touches
  simp only
  omega

/-! ## The map -/

/-- The map holds the counts `c`. -/
structure Occupied (C : MetaAllocatorConfig) (a : MetaAllocator τ) (c : Nat → Nat) : Prop where
  lookup : ∀ page, a.pageOccupancyMap.lookup page = if c page = 0 then none else some (c page)
  committed : a.bytesCommitted = C.pageSize * a.pageOccupancyMap.keys.length

variable {a : MetaAllocator τ} {c : Nat → Nat}

theorem Occupied.mem (h : Occupied C a c) {page : Nat} : page ∈ a.pageOccupancyMap.keys ↔ c page ≠ 0 := by
  rw [← AList.mem_keys, ← AList.lookup_isSome, h.lookup]
  split <;> simp_all

theorem Occupied.congr (h : Occupied C a c) {c' : Nat → Nat} (hc : ∀ page, c' page = c page) : Occupied C a c' := by
  rwa [show c' = c from funext hc]

theorem incrementPage_occupied (h : Occupied C a c) (page : Nat) :
    Occupied C (a.incrementPage C page) (fun p => c p + if p = page then 1 else 0) := by
  have hlook : ∀ n, n = c page + 1 → ∀ p, (a.pageOccupancyMap.insert page n).lookup p =
      if (c p + if p = page then 1 else 0) = 0 then none else some (c p + if p = page then 1 else 0) := by
    intro n hn p
    by_cases hp : p = page
    · subst hp
      simp [AList.lookup_insert, hn]
    · simp [AList.lookup_insert_ne hp, h.lookup, hp]
  have hp := h.lookup page
  unfold MetaAllocator.incrementPage
  split
  · rename_i hnone
    rw [hnone] at hp
    have hz : c page = 0 := by
      by_contra hne
      simp [hne] at hp
    refine ⟨hlook 1 (by omega), ?_⟩
    have hnot : page ∉ a.pageOccupancyMap.keys := fun hm => h.mem.1 hm hz
    simp only [AList.keys_insert, List.length_cons, List.erase_of_not_mem hnot, h.committed]
    rw [Nat.mul_succ]
  · rename_i n hsome
    rw [hsome] at hp
    have hne : c page ≠ 0 := fun hz => by simp [hz] at hp
    rw [if_neg hne, Option.some.injEq] at hp
    refine ⟨hlook (n + 1) (by omega), ?_⟩
    have hmem := h.mem.2 hne
    have hlen := List.length_pos_of_mem hmem
    simp only [AList.keys_insert, List.length_cons, List.length_erase_of_mem hmem, h.committed]
    rw [Nat.sub_add_cancel hlen]

theorem decrementPage_occupied (h : Occupied C a c) {page : Nat} (hne : c page ≠ 0) :
    Occupied C (a.decrementPage C page) (fun p => c p - if p = page then 1 else 0) := by
  have hp := h.lookup page
  rw [if_neg hne] at hp
  have hmem := h.mem.2 hne
  have hlen := List.length_pos_of_mem hmem
  unfold MetaAllocator.decrementPage
  rw [hp]
  simp only
  split
  · refine ⟨fun p => ?_, ?_⟩
    · by_cases he : p = page
      · subst he
        simp only [AList.lookup_erase, if_true]
        rw [if_pos (by omega)]
      · simp [AList.lookup_erase_ne he, h.lookup, he]
    · simp only [AList.keys_erase, List.length_erase_of_mem hmem, h.committed]
      rw [Nat.mul_sub_one]
  · refine ⟨fun p => ?_, ?_⟩
    · by_cases he : p = page
      · subst he
        simp only [AList.lookup_insert, if_true]
        rw [if_neg (by omega)]
      · simp [AList.lookup_insert_ne he, h.lookup, he]
    · simp only [AList.keys_insert, List.length_cons, List.length_erase_of_mem hmem, h.committed]
      rw [Nat.sub_add_cancel hlen]

theorem count_cons_page {pages : List Nat} {page p : Nat} :
    (page :: pages).count p = pages.count p + if p = page then 1 else 0 := by
  rw [List.count_cons]
  by_cases h : p = page
  · simp [h]
  · simp [h, Ne.symm h]

theorem foldl_incrementPage_occupied : ∀ {pages : List Nat} {a : MetaAllocator τ} {c : Nat → Nat}, Occupied C a c →
    Occupied C (pages.foldl (MetaAllocator.incrementPage C) a) fun p => c p + pages.count p
  | [], _, _, h => h
  | page :: pages, _, _, h => by
    refine (foldl_incrementPage_occupied (incrementPage_occupied h page)).congr fun p => ?_
    rw [count_cons_page]
    omega

theorem foldl_decrementPage_occupied : ∀ {pages : List Nat} {a : MetaAllocator τ} {c : Nat → Nat}, Occupied C a c →
    (∀ p, pages.count p ≤ c p) →
    Occupied C (pages.foldl (MetaAllocator.decrementPage C) a) fun p => c p - pages.count p
  | [], _, _, h, _ => h
  | page :: pages, _, c, h, hle => by
    have hne : c page ≠ 0 := by
      have := hle page
      rw [count_cons_page, if_pos rfl] at this
      omega
    refine (foldl_decrementPage_occupied (decrementPage_occupied h hne) fun p => ?_).congr fun p => ?_
    · have := hle p
      rw [count_cons_page] at this
      omega
    · rw [count_cons_page]
      omega

/-- **`incrementPageOccupancy`** for a new handle. -/
theorem incrementPageOccupancy_occupied {handles : List MetaAllocatorHandle} (h : Occupied C a (occupancy C handles))
    {address size : Nat} (hs : size ≠ 0) :
    Occupied C (a.incrementPageOccupancy C address size) (occupancy C (⟨address, size⟩ :: handles)) := by
  refine (foldl_incrementPage_occupied h).congr fun p => ?_
  rw [occupancy_cons, count_pagesOf hs]

/-- **`decrementPageOccupancy`** for pages that are counted. -/
theorem decrementPageOccupancy_occupied (h : Occupied C a c) {c' : Nat → Nat} {address size : Nat} (hs : size ≠ 0)
    (hc : ∀ p, c p = c' p + if Touches C p ⟨address, size⟩ then 1 else 0) :
    Occupied C (a.decrementPageOccupancy C address size) c' := by
  have hle : ∀ p, (MetaAllocator.pagesOf C address size).count p ≤ c p := fun p => by
    rw [count_pagesOf hs, hc p]
    omega
  refine (foldl_decrementPage_occupied h hle).congr fun p => ?_
  rw [count_pagesOf hs, hc p]
  omega

/-- The page after the last one of a shrunk range that is not empty. -/
theorem firstCompletelyFreePage_div {start new : Nat} (hnew : 0 < new) :
    (start + new + C.pageSize - 1) / C.pageSize = (start + new - 1) / C.pageSize + 1 := by
  rw [show start + new + C.pageSize - 1 = start + new - 1 + C.pageSize by omega, Nat.add_div_right _ (pageSize_pos C)]

/-- **The pages that `shrink` gives up** are those that the old range touches and the new one does not, if the new one is
not empty or the range starts on a page boundary. -/
theorem touches_shrink {start old new page : Nat} (hlt : new < old) (hok : new ≠ 0 ∨ start % C.pageSize = 0) :
    let first := (start + new + C.pageSize - 1) / C.pageSize * C.pageSize
    (if Touches C page ⟨start, old⟩ then 1 else 0) = (if Touches C page ⟨start, new⟩ then 1 else 0) +
      if first < start + old ∧ Touches C page ⟨first, start + old - first⟩ then 1 else 0 := by
  intro first
  have hp := pageSize_pos C
  have hdiv : first / C.pageSize = (start + new + C.pageSize - 1) / C.pageSize := Nat.mul_div_cancel _ hp
  have hlt_iff : first < start + old ↔ first / C.pageSize ≤ (start + old - 1) / C.pageSize := by
    rw [hdiv, Nat.le_div_iff_mul_le hp]
    omega
  have hold : Touches C page ⟨start, old⟩ ↔
      start / C.pageSize ≤ page ∧ page ≤ (start + old - 1) / C.pageSize := by
    unfold Touches
    simp only
    omega
  have hgiven : (first < start + old ∧ Touches C page ⟨first, start + old - first⟩) ↔
      first / C.pageSize ≤ page ∧ page ≤ (start + old - 1) / C.pageSize := by
    rw [hlt_iff]
    unfold Touches
    simp only
    constructor
    · rintro ⟨h₁, -, h₂, h₃⟩
      rw [← hlt_iff] at h₁
      rw [show first + (start + old - first) = start + old by omega] at h₃
      exact ⟨h₂, h₃⟩
    · rintro ⟨h₁, h₂⟩
      have h₃ := hlt_iff.2 (Nat.le_trans h₁ h₂)
      rw [show first + (start + old - first) = start + old by omega]
      exact ⟨Nat.le_trans h₁ h₂, by omega, h₁, h₂⟩
  rw [if_congr hold rfl rfl, if_congr hgiven rfl rfl]
  by_cases hnew : new = 0
  · -- the first page that is given up is that of the start
    subst hnew
    have hmod := hok.resolve_left (fun h => h rfl)
    have hfirst : first / C.pageSize = start / C.pageSize := by
      rw [hdiv]
      obtain ⟨k, rfl⟩ := Nat.dvd_of_mod_eq_zero hmod
      rw [show C.pageSize * k + 0 + C.pageSize - 1 = C.pageSize - 1 + C.pageSize * k by omega,
        Nat.add_mul_div_left _ _ hp, Nat.mul_div_cancel_left _ hp, Nat.div_eq_of_lt (by omega)]
      omega
    rw [if_neg (c := Touches C page ⟨start, 0⟩) (fun h => h.1 rfl), hfirst, Nat.zero_add]
  · have hfirst : first / C.pageSize = (start + new - 1) / C.pageSize + 1 :=
      hdiv.trans (firstCompletelyFreePage_div (by omega))
    have hnew' : Touches C page ⟨start, new⟩ ↔
        start / C.pageSize ≤ page ∧ page ≤ (start + new - 1) / C.pageSize := by
      unfold Touches
      simp only
      omega
    have h₁ : start / C.pageSize ≤ (start + new - 1) / C.pageSize := Nat.div_le_div_right (by omega)
    have h₂ : (start + new - 1) / C.pageSize ≤ (start + old - 1) / C.pageSize := Nat.div_le_div_right (by omega)
    rw [if_congr hnew' rfl rfl, hfirst]
    split <;> split <;> split <;> omega

end WebKit.WTF
