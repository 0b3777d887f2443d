import Mathlib.Data.List.MinMax
import WebKit.Lib.Run
import WebKit.WTF.MetaAllocatorFree
import WebKit.WTF.MetaAllocatorPages

/-!
# Runs of `MetaAllocator`

`MetaInv T C s free`: the nodes `free` and the live handles partition the reserved spans, and the byte counts are those of
the handles and of the spans. Every operation keeps it (`step_metaInv`), so it holds in every run
(`meta_allocator_partition`). The page occupancy counts the handles on each page as long as no handle that starts inside
a page shrinks to nothing (`step_occupied`, `page_occupancy_exact`): `shrink` then gives up the pages from the next
boundary on, and the page of the start keeps its count (`page_occupancy_left`).
-/

namespace WebKit.WTF

open Cover Transition

variable {τ : Type*} {T : SizeTree τ} {C : MetaAllocatorConfig}

/-! ## What the loops over the pages leave alone -/

/-- The part of the allocator that is not about pages. -/
def MetaAllocator.space (a : MetaAllocator τ) : FreeSpace τ × Nat × Nat :=
  (a.toFreeSpace, a.bytesAllocated, a.bytesReserved)

theorem incrementPage_space (a : MetaAllocator τ) (page : Nat) : (a.incrementPage C page).space = a.space := by
  unfold MetaAllocator.incrementPage
  split <;> rfl

theorem decrementPage_space (a : MetaAllocator τ) (page : Nat) : (a.decrementPage C page).space = a.space := by
  unfold MetaAllocator.decrementPage
  split
  · rfl
  · split <;> rfl

theorem foldl_space {f : MetaAllocator τ → Nat → MetaAllocator τ} (hf : ∀ a page, (f a page).space = a.space) :
    ∀ (pages : List Nat) (a : MetaAllocator τ), (pages.foldl f a).space = a.space
  | [], _ => rfl
  | page :: pages, a => (foldl_space hf pages (f a page)).trans (hf a page)

theorem incrementPageOccupancy_space (a : MetaAllocator τ) (address size : Nat) :
    (a.incrementPageOccupancy C address size).space = a.space := foldl_space incrementPage_space _ a

theorem decrementPageOccupancy_space (a : MetaAllocator τ) (address size : Nat) :
    (a.decrementPageOccupancy C address size).space = a.space := foldl_space decrementPage_space _ a

/-- The allocator after the last lines of `allocate`. -/
def MetaAllocator.handOut (C : MetaAllocatorConfig) (a : MetaAllocator τ) (handle : MetaAllocatorHandle) :
    MetaAllocator τ :=
  let a := a.incrementPageOccupancy C handle.start handle.size
  { a with bytesAllocated := a.bytesAllocated + handle.size }

theorem handOut_space (a : MetaAllocator τ) (handle : MetaAllocatorHandle) :
    (a.handOut C handle).space = (a.toFreeSpace, a.bytesAllocated + handle.size, a.bytesReserved) := by
  have h := incrementPageOccupancy_space (C := C) a handle.start handle.size
  unfold MetaAllocator.space at *
  simp only [Prod.mk.injEq] at h
  obtain ⟨h₁, h₂, h₃⟩ := h
  simp only [MetaAllocator.handOut, h₁, h₂, h₃]

/-- The allocator after `shrink` has given up the pages that are completely free. -/
def MetaAllocator.shrinkPages (C : MetaAllocatorConfig) (a : MetaAllocator τ) (handle : MetaAllocatorHandle)
    (newSizeInBytes : Nat) : MetaAllocator τ :=
  let firstCompletelyFreePage := (handle.start + newSizeInBytes + C.pageSize - 1) / C.pageSize * C.pageSize
  if firstCompletelyFreePage < handle.start + handle.size then
    a.decrementPageOccupancy C firstCompletelyFreePage (handle.start + handle.size - firstCompletelyFreePage)
  else a

theorem shrinkPages_space (a : MetaAllocator τ) (handle : MetaAllocatorHandle) (newSizeInBytes : Nat) :
    (a.shrinkPages C handle newSizeInBytes).space = a.space := by
  unfold MetaAllocator.shrinkPages
  simp only
  split
  · exact decrementPageOccupancy_space ..
  · rfl

theorem shrinkRounded_eq {a : MetaAllocator τ} {handle : MetaAllocatorHandle} {new : Nat} (hlt : new < handle.size) :
    a.shrinkRounded T C handle new = (⟨handle.start, new⟩,
      (a.shrinkPages C handle new).addFreeSpaceFromReleasedHandle T (handle.start + new) (handle.size - new)) := by
  have hfirst : handle.start + new ≤ (handle.start + new + C.pageSize - 1) / C.pageSize * C.pageSize := by
    have := Nat.lt_div_mul_add (a := handle.start + new + C.pageSize - 1) (pageSize_pos C)
    omega
  unfold MetaAllocator.shrinkRounded MetaAllocator.shrinkPages
  simp only
  rw [if_neg (by omega), show handle.start + new + (handle.size - new) = handle.start + handle.size by omega]
  split
  · rename_i hfree
    rw [show handle.size - new - ((handle.start + new + C.pageSize - 1) / C.pageSize * C.pageSize -
      (handle.start + new)) = handle.start + handle.size -
        (handle.start + new + C.pageSize - 1) / C.pageSize * C.pageSize by omega]
  · rfl

/-! ## Rounded sizes -/

theorem allocationGranule_pos (C : MetaAllocatorConfig) : 0 < C.allocationGranule := Nat.two_pow_pos _

theorem roundUp_dvd {size rounded : Nat} (h : MetaAllocator.roundUp C size = some rounded) :
    C.allocationGranule ∣ rounded := by
  unfold MetaAllocator.roundUp at h
  split at h
  · cases h
  · cases h
    exact Nat.dvd_mul_left ..

theorem le_roundUp {size rounded : Nat} (h : MetaAllocator.roundUp C size = some rounded) : size ≤ rounded := by
  unfold MetaAllocator.roundUp at h
  split at h
  · cases h
  · cases h
    have hg := allocationGranule_pos C
    have := Nat.lt_div_mul_add (a := size + C.allocationGranule - 1) hg
    omega

theorem roundUp_le {size rounded bound : Nat} (h : MetaAllocator.roundUp C size = some rounded) (hle : size ≤ bound)
    (hd : C.allocationGranule ∣ bound) : rounded ≤ bound := by
  unfold MetaAllocator.roundUp at h
  split at h
  · cases h
  · cases h
    have hg := allocationGranule_pos C
    obtain ⟨k, rfl⟩ := hd
    rw [Nat.mul_comm]
    refine Nat.mul_le_mul_left _ (Nat.le_of_lt_succ ((Nat.div_lt_iff_lt_mul hg).2 ?_))
    rw [Nat.succ_mul, Nat.mul_comm k]
    omega

/-! ## The invariant -/

/-- **The free nodes and the live handles partition the reserved spans.** -/
structure MetaInv (T : SizeTree τ) (C : MetaAllocatorConfig) (s : MetaState τ) (free : Nodes) : Prop where
  nodes : FreeInv T s.allocator.toFreeSpace free
  partition : SameCover (spans free ++ s.handles) s.reserved
  disjoint : ∀ x, cover s.reserved x ≤ 1
  allocated : s.allocator.bytesAllocated = total s.handles
  reserved : s.allocator.bytesReserved = total s.reserved
  granule : ∀ handle ∈ s.handles, C.allocationGranule ∣ handle.size

theorem metaInv_init (T : SizeTree τ) (C : MetaAllocatorConfig) : MetaInv T C (.init T) [] :=
  ⟨freeInv_init T, .refl _, fun _ => Nat.zero_le _, rfl, rfl, fun _ h => (by cases h)⟩

namespace MetaInv

variable {s : MetaState τ} {free : Nodes} {a : MetaAllocator τ} {span handle : Span} {handles reserved : List Span}

theorem free_le (h : MetaInv T C s free) (x : Nat) : cover (spans free) x ≤ cover s.reserved x := by
  rw [← h.partition.cover, cover_append]
  exact Nat.le_add_right ..

theorem addFreshFreeSpace (h : MetaInv T C s free) (hs : FreshSpan s.reserved span) :
    ∃ free', MetaInv T C
      ⟨s.allocator.addFreshFreeSpace T span.start span.size, s.handles, span :: s.reserved⟩ free' := by
  obtain ⟨-, hpos, -, hnew⟩ := hs
  have hcover := cover_cons_le h.disjoint hnew
  obtain ⟨free', hfree, hsame⟩ := addFreeSpace_inv h.nodes hpos fun x => by
    change cover (span :: spans free) x ≤ 1
    have hle : cover (span :: spans free) x ≤ cover (span :: s.reserved) x := by
      rw [cover_cons, cover_cons]
      exact Nat.add_le_add_right (h.free_le x) _
    exact hle.trans (hcover x)
  refine ⟨free', hfree, ?_, hcover, h.allocated, ?_, h.granule⟩
  · exact (hsame.append_right s.handles).trans h.partition.cons
  · rw [total_cons, ← h.reserved, Nat.add_comm]
    rfl

theorem handOut (hfree : FreeInv T a.toFreeSpace free)
    (hpart : SameCover (handle :: (spans free ++ handles)) reserved) (hdis : ∀ x, cover reserved x ≤ 1)
    (hall : a.bytesAllocated = total handles) (hres : a.bytesReserved = total reserved)
    (hgran : ∀ handle ∈ handles, C.allocationGranule ∣ handle.size) (hdvd : C.allocationGranule ∣ handle.size) :
    MetaInv T C ⟨a.handOut C handle, handle :: handles, reserved⟩ free := by
  have hspace := handOut_space (C := C) a handle
  simp only [MetaAllocator.space, Prod.mk.injEq] at hspace
  obtain ⟨h₁, h₂, h₃⟩ := hspace
  refine ⟨?_, ?_, hdis, ?_, ?_, fun k hk => ?_⟩
  · rw [h₁]
    exact hfree
  · exact (SameCover.of_perm List.perm_middle).trans hpart
  · rw [h₂, total_cons, hall, Nat.add_comm]
  · rw [h₃, hres]
  · rcases List.mem_cons.1 hk with rfl | hk
    · exact hdvd
    · exact hgran k hk

theorem giveBack (h : MetaInv T C s free) {start size : Nat} (hpos : 0 < size)
    (hsame : SameCover (⟨start, size⟩ :: handles) s.handles)
    (hgran : ∀ handle ∈ handles, C.allocationGranule ∣ handle.size) (hspace : a.space = s.allocator.space) :
    ∃ free', MetaInv T C ⟨a.addFreeSpaceFromReleasedHandle T start size, handles, s.reserved⟩ free' := by
  simp only [MetaAllocator.space, Prod.mk.injEq] at hspace
  obtain ⟨h₁, h₂, h₃⟩ := hspace
  have hfree := h.nodes
  rw [← h₁] at hfree
  have hcover : ∀ x, cover (⟨start, size⟩ :: spans free) x ≤ 1 := fun x => by
    have hd := h.disjoint x
    rw [← h.partition.cover, cover_append, ← hsame.cover, cover_cons] at hd
    rw [cover_cons]
    omega
  obtain ⟨free', hfree', hsame'⟩ := addFreeSpace_inv hfree hpos hcover
  refine ⟨free', hfree', ?_, h.disjoint, ?_, h₃.trans h.reserved, hgran⟩
  · have hfront := hsame'.append_right handles
    have hmiddle : SameCover (⟨start, size⟩ :: spans free ++ handles) (spans free ++ ⟨start, size⟩ :: handles) :=
      .of_perm List.perm_middle.symm
    exact hfront.trans (hmiddle.trans ((hsame.append_left _).trans h.partition))
  · have hs : size + total handles = total s.handles := hsame.total
    have ha := h.allocated
    simp only [MetaAllocator.addFreeSpaceFromReleasedHandle, h₂]
    omega

end MetaInv

/-! ## Steps -/

theorem findAndRemoveFreeSpace_none {a fs : FreeSpace τ} {size : Nat}
    (h : a.findAndRemoveFreeSpace T C size = (none, fs)) : fs = a := by
  unfold FreeSpace.findAndRemoveFreeSpace at h
  split at h
  · cases h
    rfl
  · simp only at h
    split at h
    · cases h
    · split at h <;> cases h

/-- The allocator with new space, of which the first `size` bytes are not free. -/
def MetaAllocator.addNewSpace (T : SizeTree τ) (a : MetaAllocator τ) (start size roundedUpSize : Nat) :
    MetaAllocator τ :=
  { a with
    bytesReserved := a.bytesReserved + roundedUpSize
    toFreeSpace := if roundedUpSize > size then a.addFreeSpace T (start + size) (roundedUpSize - size)
      else a.toFreeSpace }

theorem allocateRounded_cases (a : MetaAllocator τ) (size : Nat) (newSpace : Option (Nat × Nat)) :
    (∃ start fs, a.findAndRemoveFreeSpace T C size = (some start, fs) ∧ a.allocateRounded T C size newSpace =
      (some ⟨start, size⟩, MetaAllocator.handOut C { a with toFreeSpace := fs } ⟨start, size⟩)) ∨
    a.findAndRemoveFreeSpace T C size = (none, a.toFreeSpace) ∧
      (newSpace = none ∧ a.allocateRounded T C size newSpace = (none, a) ∨
      ∃ start pages, newSpace = some (start, pages) ∧ a.allocateRounded T C size newSpace =
        (some ⟨start, size⟩, (a.addNewSpace T start size (pages * C.pageSize)).handOut C ⟨start, size⟩)) := by
  unfold MetaAllocator.allocateRounded
  split
  · rename_i start fs hfind
    exact .inl ⟨start, fs, hfind, rfl⟩
  · rename_i fs hfind
    obtain rfl := findAndRemoveFreeSpace_none hfind
    refine .inr ⟨hfind, ?_⟩
    split
    · exact .inl ⟨rfl, rfl⟩
    · rename_i start pages
      refine .inr ⟨start, pages, rfl, ?_⟩
      unfold MetaAllocator.addNewSpace
      simp only
      split <;> rfl

section Step

variable {s t : MetaState τ} {free : Nodes}

theorem allocate_cases {size : Nat} {newSpace : Option (Nat × Nat)} (hs : s.allocate T C size newSpace = some t) :
    t = s ∨ ∃ rounded, MetaAllocator.roundUp C size = some rounded ∧ 0 < rounded ∧
      ((∃ start fs, s.allocator.findAndRemoveFreeSpace T C rounded = (some start, fs) ∧
        t = ⟨MetaAllocator.handOut C { s.allocator with toFreeSpace := fs } ⟨start, rounded⟩,
          ⟨start, rounded⟩ :: s.handles, s.reserved⟩) ∨
      ∃ start pages, NewSpace C s.reserved rounded (start, pages) ∧
        t = ⟨(s.allocator.addNewSpace T start rounded (pages * C.pageSize)).handOut C ⟨start, rounded⟩,
          ⟨start, rounded⟩ :: s.handles, ⟨start, pages * C.pageSize⟩ :: s.reserved⟩) := by
  unfold MetaState.allocate at hs
  split at hs
  · cases hs
    exact .inl rfl
  · rename_i hsize
    obtain ⟨rounded, hr, hs⟩ := Option.bind_eq_some_iff.1 hs
    obtain ⟨hnew, hs⟩ := Option.ite_none_right_eq_some.1 hs
    have hpos : 0 < rounded := by
      have := le_roundUp hr
      omega
    rcases allocateRounded_cases (T := T) (C := C) s.allocator rounded newSpace with
      ⟨start, fs, hfind, ha⟩ | ⟨hfind, ⟨rfl, ha⟩ | ⟨start, pages, rfl, ha⟩⟩ <;> simp only [ha, hfind] at hs <;> cases hs
    · exact .inr ⟨rounded, hr, hpos, .inl ⟨start, fs, hfind, rfl⟩⟩
    · exact .inl rfl
    · exact .inr ⟨rounded, hr, hpos, .inr ⟨start, pages, hnew _ rfl, rfl⟩⟩

theorem shrink_cases {i new : Nat} (h : MetaInv T C s free) (hs : s.shrink T C i new = some t) :
    t = s ∨ ∃ handle rest rounded, s.handles[i]? = some handle ∧ s.handles.Perm (handle :: rest) ∧
      C.allocationGranule ∣ rounded ∧ new ≤ rounded ∧ rounded < handle.size ∧
      t.handles.Perm (⟨handle.start, rounded⟩ :: rest) ∧ t.reserved = s.reserved ∧
      t.allocator = (s.allocator.shrinkPages C handle rounded).addFreeSpaceFromReleasedHandle T
        (handle.start + rounded) (handle.size - rounded) := by
  obtain ⟨handle, hget, hs⟩ := Option.bind_eq_some_iff.1 hs
  obtain ⟨hle, hs⟩ := Option.ite_none_right_eq_some.1 hs
  obtain ⟨rounded, hr, hs⟩ := Option.map_eq_some_iff.1 hs
  obtain ⟨hi, rfl⟩ := List.getElem?_eq_some_iff.1 hget
  rcases Nat.lt_or_eq_of_le (roundUp_le hr hle (h.granule _ (List.getElem_mem hi))) with hlt | rfl
  · rw [shrinkRounded_eq hlt] at hs
    cases hs
    exact .inr ⟨_, s.handles.eraseIdx i, rounded, hget, (List.getElem_cons_eraseIdx_perm hi).symm, roundUp_dvd hr,
      le_roundUp hr, hlt, List.set_perm_cons_eraseIdx hi _, rfl, rfl⟩
  · have hsame : s.allocator.shrinkRounded T C s.handles[i] s.handles[i].size = (s.handles[i], s.allocator) := by
      simp [MetaAllocator.shrinkRounded]
    rw [hsame] at hs
    simp only [List.set_getElem_self] at hs
    exact .inl hs.symm

theorem addFreshFreeSpace_metaInv {span : Span} (h : MetaInv T C s free) (hs : s.addFreshFreeSpace T span = some t) :
    ∃ free', MetaInv T C t free' := by
  obtain ⟨hfresh, he⟩ := Option.ite_none_right_eq_some.1 hs
  cases he
  exact h.addFreshFreeSpace hfresh

theorem allocate_metaInv {size : Nat} {newSpace : Option (Nat × Nat)} (h : MetaInv T C s free)
    (hs : s.allocate T C size newSpace = some t) : ∃ free', MetaInv T C t free' := by
  rcases allocate_cases hs with rfl | ⟨rounded, hr, hpos, ⟨start, fs, hfind, rfl⟩ | ⟨start, pages, hnew, rfl⟩⟩
  · exact ⟨free, h⟩
  · have hfound := findAndRemoveFreeSpace_inv (C := C) h.nodes hpos
    rw [hfind] at hfound
    obtain ⟨free', hfree', hsame⟩ := hfound
    have hpart := ((hsame.append_right s.handles).symm).trans h.partition
    exact ⟨free', MetaInv.handOut hfree' hpart h.disjoint h.allocated h.reserved h.granule (roundUp_dvd hr)⟩
  · obtain ⟨⟨-, -, -, hfresh⟩, -, hle⟩ := hnew
    simp only at hle
    have hcover := cover_cons_le h.disjoint hfresh
    have hcut := SameCover.cut start rounded (pages * C.pageSize - rounded) s.reserved
    rw [Nat.add_sub_cancel' hle] at hcut
    have hres : s.allocator.bytesReserved + pages * C.pageSize =
        total (⟨start, pages * C.pageSize⟩ :: s.reserved) := by
      rw [total_cons, h.reserved, Nat.add_comm]
    unfold MetaAllocator.addNewSpace
    split
    · -- the rest of the new space is free
      rename_i hgt
      have hrest : ∀ x, cover (⟨start + rounded, pages * C.pageSize - rounded⟩ :: spans free) x ≤ 1 := fun x => by
        have hx := hcover x
        rw [hcut.cover, cover_cons, cover_cons] at hx
        have := h.free_le x
        rw [cover_cons]
        omega
      obtain ⟨free', hfree', hsame⟩ := addFreeSpace_inv h.nodes (by omega) hrest
      have hpart := ((hsame.append_right s.handles).trans h.partition.cons).cons (s := ⟨start, rounded⟩)
      exact ⟨free', MetaInv.handOut hfree' (hpart.trans hcut.symm) hcover h.allocated hres h.granule (roundUp_dvd hr)⟩
    · obtain rfl : rounded = pages * C.pageSize := by omega
      exact ⟨free, MetaInv.handOut h.nodes h.partition.cons hcover h.allocated hres h.granule (roundUp_dvd hr)⟩

theorem shrink_metaInv {i new : Nat} (h : MetaInv T C s free) (hs : s.shrink T C i new = some t) :
    ∃ free', MetaInv T C t free' := by
  rcases shrink_cases h hs with rfl | ⟨handle, rest, rounded, -, hperm, hdvd, -, hlt, hperm', hres, ha⟩
  · exact ⟨free, h⟩
  · obtain ⟨allocator, handles, reserved⟩ := t
    simp only at hperm' hres ha
    subst hres ha
    refine h.giveBack (by omega) ?_ (fun k hk => ?_) (shrinkPages_space ..)
    · have hcut := SameCover.cut handle.start rounded (handle.size - rounded) rest
      rw [Nat.add_sub_cancel' hlt.le] at hcut
      have hswap := (hperm'.cons ⟨handle.start + rounded, handle.size - rounded⟩).trans (.swap ..)
      exact (SameCover.of_perm hswap).trans (hcut.symm.trans (.of_perm hperm.symm))
    · rcases List.mem_cons.1 (hperm'.mem_iff.1 hk) with rfl | hk
      · exact hdvd
      · exact h.granule k (hperm.mem_iff.2 (List.mem_cons_of_mem _ hk))

theorem release_metaInv {i : Nat} (h : MetaInv T C s free) (hs : s.release T C i = some t) :
    ∃ free', MetaInv T C t free' := by
  obtain ⟨handle, hget, he⟩ := Option.map_eq_some_iff.1 hs
  cases he
  obtain ⟨hi, rfl⟩ := List.getElem?_eq_some_iff.1 hget
  have hget : SameCover (s.handles[i] :: s.handles.eraseIdx i) s.handles := .of_perm (List.getElem_cons_eraseIdx_perm hi)
  have hgran : ∀ k ∈ s.handles.eraseIdx i, C.allocationGranule ∣ k.size := fun k hk =>
    h.granule k (List.mem_of_mem_eraseIdx hk)
  unfold MetaAllocator.release
  split
  · exact h.giveBack (by omega) hget hgran (decrementPageOccupancy_space ..)
  · rename_i hz
    have hempty : SameCover (s.handles.eraseIdx i) s.handles := by
      refine .trans ⟨fun x => ?_, ?_⟩ hget
      · rw [cover_cons, if_neg fun hc => ?_]
        · rfl
        · unfold Span.Contains Span.stop at hc
          omega
      · rw [total_cons]
        omega
    exact ⟨free, h.nodes, (hempty.append_left _).trans h.partition, h.disjoint, h.allocated.trans hempty.total.symm,
      h.reserved, hgran⟩

/-- **Every operation keeps the partition.** -/
theorem step_metaInv {op : MetaOp} (h : MetaInv T C s free) (hs : s.step T C op = some t) :
    ∃ free', MetaInv T C t free' := by
  cases op with
  | addFreshFreeSpace start size => exact addFreshFreeSpace_metaInv h hs
  | allocate size newSpace => exact allocate_metaInv h hs
  | shrink i new => exact shrink_metaInv h hs
  | release i => exact release_metaInv h hs

theorem run_metaInv {ops : List MetaOp} (hr : Run (Via (MetaState.step T C)) (.init T) ops s) :
    ∃ free, MetaInv T C s free := by
  have hstep : ∀ s op t, (∃ free, MetaInv T C s free) → Via (MetaState.step T C) s op t → ∃ free, MetaInv T C t free := by
    rintro s op t ⟨free, h⟩ hs
    exact step_metaInv h hs
  exact hr.invariant hstep ⟨[], metaInv_init T C⟩

end Step

/-- What holds between the operations: the nodes are those of the three maps, each keyed by its current size, start and
end, they are not adjacent, and with the live handles they partition the reserved spans. -/
structure Partitioned (T : SizeTree τ) (s : MetaState τ) (free : Nodes) : Prop where
  nodup : (free.map Prod.fst).Nodup
  current : Current s.allocator.toFreeSpace free
  maps : Maps T s.allocator.toFreeSpace free free free
  not_adjacent : ∀ p ∈ free, ∀ q ∈ free, p.2.stop ≠ q.2.start
  disjoint : (spans free ++ s.handles).Pairwise Span.Disjoint
  covers : ∀ x, (∃ span ∈ spans free ++ s.handles, span.Contains x) ↔ ∃ span ∈ s.reserved, span.Contains x
  reserved : total (spans free ++ s.handles) = s.allocator.bytesReserved
  reserved_spans : total s.reserved = s.allocator.bytesReserved
  allocated : total s.handles = s.allocator.bytesAllocated

/-- **The free nodes and the live handles partition the reserved space in every run**, and the three maps hold the same
nodes. -/
theorem meta_allocator_partition {ops : List MetaOp} {s : MetaState τ}
    (hr : Run (Via (MetaState.step T C)) (.init T) ops s) : ∃ free, Partitioned T s free := by
  obtain ⟨free, h⟩ := run_metaInv hr
  refine ⟨free, h.nodes.nodup, h.nodes.current, h.nodes.maps, h.nodes.spread.apart, ?_, fun x => ?_, ?_,
    h.reserved.symm, h.allocated.symm⟩
  · refine pairwise_disjoint fun x => ?_
    rw [h.partition.cover]
    exact h.disjoint x
  · rw [← cover_pos, ← cover_pos, h.partition.cover]
  · rw [h.partition.total, h.reserved]

/-! ## A tree -/

/-- The nodes in a list, the last one inserted first. -/
def listTree : SizeTree (List (NodePointer × Nat)) where
  entries t := t
  empty := []
  insert key t i := (i, key i) :: t
  remove t i := t.eraseP fun p => p.1 = i
  findLeastGreaterThanOrEqual key t k := ((t.filter fun p => k ≤ key p.1).argmin fun p => key p.1).map Prod.fst
  entries_empty := rfl
  entries_insert _ _ := .refl _
  entries_remove {t i k} hnodup hm := by
    obtain ⟨q, l₁, l₂, hnot, hq, rfl, he⟩ := List.exists_of_eraseP hm (p := fun p => p.1 = i) (by simp)
    rw [he]
    -- the entry that goes is the one of the node
    have hqi : q = (i, k) := by
      rcases List.mem_append.1 hm with hm | hm
      · exact absurd (hnot _ hm) (by simp)
      · rcases List.mem_cons.1 hm with rfl | hm
        · rfl
        · simp only [decide_eq_true_eq] at hq
          rw [List.map_append, List.map_cons] at hnodup
          have := (List.nodup_cons.1 (List.nodup_append.1 hnodup).2.1).1
          exact absurd (hq ▸ List.mem_map_of_mem (f := Prod.fst) hm) this
    rw [hqi]
    exact List.perm_middle
  find_some {key t k i} hkey hfind := by
    obtain ⟨p, hp, rfl⟩ := Option.map_eq_some_iff.1 hfind
    have hmem := List.argmin_mem hp
    obtain ⟨hpt, hle⟩ := List.mem_filter.1 hmem
    refine ⟨p.2, hpt, ?_, fun q hq hkq => ?_⟩
    · rw [← hkey p hpt]
      simpa using hle
    · rw [← hkey p hpt, ← hkey q hq]
      rw [← hkey q hq] at hkq
      have hqf : q ∈ t.filter fun p => k ≤ key p.1 := List.mem_filter.2 ⟨hq, by simpa using hkq⟩
      exact List.le_of_mem_argmin (f := fun p => key p.1) hqf hp
  find_none {key t k} hkey hfind p hp := by
    rw [Option.map_eq_none_iff, List.argmin_eq_none] at hfind
    have := List.filter_eq_nil_iff.1 hfind p hp
    rw [← hkey p hp]
    simpa using this

/-- Granules of 32 bytes and pages of 4096. -/
def smallPages : MetaAllocatorConfig := ⟨5, 12⟩

/-- The first of two handles shrinks, and the second is released between the two free nodes. -/
theorem meta_allocator_partition_coalesced :
    let ops := [MetaOp.addFreshFreeSpace 4096 16384, .allocate 64 none, .allocate 100 none, .shrink 1 32, .release 0]
    ∃ s, runFn (MetaState.step listTree smallPages) (.init listTree) ops = some s ∧
      s.handles = [⟨4096, 32⟩] ∧ s.allocator.freeSpaceSizeMap = [(1, 16352)] ∧
      ∃ free, Partitioned listTree s free := by
  intro ops
  have hr : (runFn (MetaState.step listTree smallPages) (.init listTree) ops).map
      (fun s => (s.handles, s.allocator.freeSpaceSizeMap)) = some ([⟨4096, 32⟩], [(1, 16352)]) := by
    decide +kernel
  obtain ⟨s, hs, he⟩ := Option.map_eq_some_iff.1 hr
  obtain ⟨hh, ht⟩ := Prod.ext_iff.1 he
  exact ⟨s, hs, hh, ht, meta_allocator_partition (run_of_runFn hs)⟩

/-! ## Page occupancy -/

/-- No handle that starts inside a page shrinks to nothing. -/
def ShrinkAligned (C : MetaAllocatorConfig) (s : MetaState τ) : MetaOp → Prop
  | .shrink i new => ∀ handle ∈ s.handles[i]?, new = 0 → handle.size ≠ 0 → handle.start % C.pageSize = 0
  | _ => True

instance (s : MetaState τ) : (op : MetaOp) → Decidable (ShrinkAligned C s op)
  | .shrink _ _ => inferInstanceAs (Decidable (∀ _ ∈ _, _))
  | .addFreshFreeSpace _ _ | .allocate _ _ | .release _ => isTrue trivial

section Pages

variable {a a' : MetaAllocator τ} {handles handles' : List MetaAllocatorHandle} {handle : MetaAllocatorHandle}

theorem occupancy_perm (hp : handles.Perm handles') (page : Nat) :
    occupancy C handles page = occupancy C handles' page := hp.countP_eq _

theorem occupancy_empty (hs : handle.size = 0) (page : Nat) :
    occupancy C (handle :: handles) page = occupancy C handles page := by
  rw [occupancy_cons, if_neg fun ht => ht.1 hs, Nat.add_zero]

theorem Occupied.perm (h : Occupied C a (occupancy C handles)) (hp : handles.Perm handles') :
    Occupied C a (occupancy C handles') := h.congr fun page => (occupancy_perm hp page).symm

theorem Occupied.space {c : Nat → Nat} (h : Occupied C a c) (hm : a'.pageOccupancyMap = a.pageOccupancyMap)
    (hb : a'.bytesCommitted = a.bytesCommitted) : Occupied C a' c :=
  ⟨fun page => hm ▸ h.lookup page, by rw [hb, hm, h.committed]⟩

theorem handOut_occupied (h : Occupied C a (occupancy C handles)) (hs : handle.size ≠ 0) :
    Occupied C (a.handOut C handle) (occupancy C (handle :: handles)) :=
  (incrementPageOccupancy_occupied h hs).space rfl rfl

theorem shrinkPages_occupied (h : Occupied C a (occupancy C (handle :: handles))) {new : Nat} (hlt : new < handle.size)
    (hok : new ≠ 0 ∨ handle.start % C.pageSize = 0) :
    Occupied C (a.shrinkPages C handle new) (occupancy C (⟨handle.start, new⟩ :: handles)) := by
  have htouch := fun page => @touches_shrink C handle.start handle.size new page hlt hok
  have hcount : ∀ page, occupancy C (handle :: handles) page = occupancy C (⟨handle.start, new⟩ :: handles) page +
      if (handle.start + new + C.pageSize - 1) / C.pageSize * C.pageSize < handle.start + handle.size ∧
        Touches C page ⟨(handle.start + new + C.pageSize - 1) / C.pageSize * C.pageSize,
          handle.start + handle.size - (handle.start + new + C.pageSize - 1) / C.pageSize * C.pageSize⟩
      then 1 else 0 := fun page => by
    rw [occupancy_cons, occupancy_cons, Nat.add_assoc]
    exact congrArg _ (htouch page)
  unfold MetaAllocator.shrinkPages
  simp only
  split
  · rename_i hfree
    refine decrementPageOccupancy_occupied h (by omega) fun page => ?_
    rw [hcount]
    simp only [hfree, true_and]
  · rename_i hfull
    refine h.congr fun page => ?_
    rw [hcount, if_neg fun hc => hfull hc.1, Nat.add_zero]

end Pages

section Step

variable {s t : MetaState τ} {free : Nodes}

/-- **Every operation that meets `ShrinkAligned` keeps the counts.** -/
theorem step_occupied {op : MetaOp} (hi : MetaInv T C s free) (h : Occupied C s.allocator (occupancy C s.handles))
    (hok : ShrinkAligned C s op) (hs : s.step T C op = some t) :
    Occupied C t.allocator (occupancy C t.handles) := by
  cases op with
  | addFreshFreeSpace start size =>
    obtain ⟨-, he⟩ := Option.ite_none_right_eq_some.1 hs
    cases he
    exact h.space rfl rfl
  | allocate size newSpace =>
    rcases allocate_cases hs with rfl | ⟨rounded, -, hpos, ⟨start, fs, -, rfl⟩ | ⟨start, pages, -, rfl⟩⟩
    · exact h
    · exact handOut_occupied (h.space rfl rfl) (Nat.ne_of_gt hpos)
    · exact handOut_occupied (h.space rfl rfl) (Nat.ne_of_gt hpos)
  | shrink i new =>
    rcases shrink_cases hi hs with rfl | ⟨handle, rest, rounded, hget, hperm, -, hle, hlt, hperm', -, ha⟩
    · exact h
    · have hnew : rounded ≠ 0 ∨ handle.start % C.pageSize = 0 := by
        by_cases hz : rounded = 0
        · exact .inr (hok handle hget (by omega) (by omega))
        · exact .inl hz
      rw [ha]
      exact ((shrinkPages_occupied (h.perm hperm) hlt hnew).perm hperm'.symm).space rfl rfl
  | release i =>
    obtain ⟨handle, hget, he⟩ := Option.map_eq_some_iff.1 hs
    cases he
    obtain ⟨hi', rfl⟩ := List.getElem?_eq_some_iff.1 hget
    have h' := h.perm (List.getElem_cons_eraseIdx_perm hi').symm
    unfold MetaAllocator.release
    split
    · rename_i hne
      exact (decrementPageOccupancy_occupied h' hne fun page => occupancy_cons).space rfl rfl
    · rename_i hz
      exact h'.congr fun page => (occupancy_empty (by omega) page).symm

end Step

/-- The counts are those of the live handles, and what is committed is what they touch. -/
structure PagesExact (C : MetaAllocatorConfig) (s : MetaState τ) : Prop where
  count : ∀ page, (s.allocator.pageOccupancyMap.lookup page).getD 0 = s.handles.countP fun h => Touches C page h
  absent : ∀ page, page ∉ s.allocator.pageOccupancyMap ↔ (s.handles.countP fun h => Touches C page h) = 0
  committed : s.allocator.bytesCommitted = C.pageSize * s.allocator.pageOccupancyMap.keys.length
  released : s.handles = [] → s.allocator.pageOccupancyMap.keys = [] ∧ s.allocator.bytesCommitted = 0

theorem pagesExact_of_occupied {s : MetaState τ} (h : Occupied C s.allocator (occupancy C s.handles)) :
    PagesExact C s := by
  have hkeys : s.handles = [] → s.allocator.pageOccupancyMap.keys = [] := fun hn => by
    refine List.eq_nil_iff_forall_not_mem.2 fun page hm => h.mem.1 hm ?_
    rw [hn]
    rfl
  refine ⟨fun page => ?_, fun page => ?_, h.committed, fun hn => ⟨hkeys hn, ?_⟩⟩
  · rw [h.lookup page]
    split
    · rename_i hz
      exact hz.symm
    · rfl
  · rw [AList.mem_keys, h.mem, not_not]
    rfl
  · rw [h.committed, hkeys hn]
    rfl

/-- **The page occupancy is exact** in every run in which no handle that starts inside a page shrinks to nothing. -/
theorem page_occupancy_exact {ops : List MetaOp} {s : MetaState τ}
    (hr : Run (Guarded (ShrinkAligned C) (Via (MetaState.step T C))) (.init T) ops s) : PagesExact C s := by
  have hstep : ∀ s op t, (∃ free, MetaInv T C s free ∧ Occupied C s.allocator (occupancy C s.handles)) →
      Guarded (ShrinkAligned C) (Via (MetaState.step T C)) s op t →
      ∃ free, MetaInv T C t free ∧ Occupied C t.allocator (occupancy C t.handles) := by
    rintro s op t ⟨free, hi, ho⟩ ⟨hok, hs⟩
    obtain ⟨free', hi'⟩ := step_metaInv hi hs
    exact ⟨free', hi', step_occupied hi ho hok hs⟩
  obtain ⟨free, -, ho⟩ := hr.invariant hstep ⟨[], metaInv_init T C, fun page => rfl, rfl⟩
  exact pagesExact_of_occupied ho

/-- Two handles on one page, of which the first shrinks to nothing on the page boundary. -/
theorem page_occupancy_exact_aligned :
    let ops := [MetaOp.addFreshFreeSpace 4096 16384, .allocate 32 none, .allocate 32 none, .shrink 1 0]
    ∃ s, runFn (guardFn (ShrinkAligned smallPages) (MetaState.step listTree smallPages)) (.init listTree) ops = some s ∧
      s.handles = [⟨4128, 32⟩, ⟨4096, 0⟩] ∧ PagesExact smallPages s := by
  intro ops
  have hr : (runFn (guardFn (ShrinkAligned smallPages) (MetaState.step listTree smallPages)) (.init listTree) ops).map
      (fun s => s.handles) = some [⟨4128, 32⟩, ⟨4096, 0⟩] := by decide +kernel
  obtain ⟨s, hs, hh⟩ := Option.map_eq_some_iff.1 hr
  exact ⟨s, hs, hh, page_occupancy_exact (run_of_runFn_guardFn hs)⟩

/-- A handle that starts inside a page shrinks to nothing, and both handles are released: the page stays committed. -/
theorem page_occupancy_left :
    let ops := [MetaOp.addFreshFreeSpace 4096 16384, .allocate 32 none, .allocate 32 none, .shrink 0 0, .release 0,
      .release 0]
    ∃ s, Run (Via (MetaState.step listTree smallPages)) (.init listTree) ops s ∧ s.handles = [] ∧
      s.allocator.pageOccupancyMap.lookup 1 = some 1 ∧ s.allocator.bytesCommitted = 4096 ∧ ¬PagesExact smallPages s := by
  intro ops
  have hr : (runFn (MetaState.step listTree smallPages) (.init listTree) ops).map
      (fun s => (s.handles, s.allocator.pageOccupancyMap.lookup 1, s.allocator.bytesCommitted)) =
        some ([], some 1, 4096) := by decide +kernel
  obtain ⟨s, hs, he⟩ := Option.map_eq_some_iff.1 hr
  simp only [Prod.mk.injEq] at he
  obtain ⟨hh, hl, hc⟩ := he
  refine ⟨s, run_of_runFn hs, hh, hl, hc, fun hx => ?_⟩
  have := (hx.released hh).2
  omega

end WebKit.WTF
