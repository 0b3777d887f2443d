import Mathlib.Data.List.Basic
import WebKit.Bmalloc.LargeTags

/-!
# The invariant of the large heap

`LargeInv`: the ranges of the chunks tile their memory, the boundary tags describe them, and the objects and the ranges
that the scavenger holds are the ranges of those kinds. The free lists are not part of it: their entries are checked
when they are taken (`take_spec`, `takeGreedy_spec`), and an entry that passes and begins where a range begins is a free
range (`LargeInv.accepted`).
-/

namespace WebKit.Bmalloc

open Tiling LargeChunk

attribute [local irreducible] LargeChunk.get

/-! ## Taking from a free list -/

section FreeLists

variable {tags : Tags} {minimum : Nat}

theorem mem_of_mem_vectorPop {α : Type*} {list : List α} {i : Nat} {x : α} (h : x ∈ vectorPop list i) : x ∈ list := by
  unfold vectorPop at h
  split at h
  · exact h
  · rename_i last hlast
    rcases List.mem_or_eq_of_mem_set (List.dropLast_subset _ h) with h | rfl
    · exact h
    · exact List.mem_of_getLast? hlast

/-- What the two searches return: an entry that passes the test and is large enough. -/
def Taken (tags : Tags) (minimum : Nat) (list : List Range) (range : Range) : Prop :=
  range ∈ list ∧ tags.accepts range = true ∧ minimum ≤ range.size

theorem takeLoop_spec {stop : Nat} {range : Range} : ∀ {i : Nat} {list : List Range} {first : Option Range},
    (SegregatedFreeList.takeLoop tags minimum stop i list first).1 = some range →
      first = some range ∨ Taken tags minimum list range
  | 0, _, _, h => .inl h
  | i + 1, list, first, h => by
    unfold SegregatedFreeList.takeLoop at h
    split at h
    · exact .inl h
    · split at h
      · exact .inl h
      · rename_i entry hentry
        have hmem := List.mem_of_getElem? hentry
        split at h
        · -- a stale entry is popped
          exact (takeLoop_spec h).imp_right fun ⟨h₁, h₂⟩ => ⟨mem_of_mem_vectorPop h₁, h₂⟩
        · rename_i hacc
          split at h
          · exact takeLoop_spec h
          · have hnew : Taken tags minimum list entry := ⟨hmem, by simpa using hacc, by omega⟩
            split at h
            · refine (takeLoop_spec h).elim (fun he => .inr ?_) .inr
              cases he
              exact hnew
            · split at h
              · exact takeLoop_spec h
              · refine (takeLoop_spec h).elim (fun he => .inr ?_) .inr
                cases he
                exact hnew

theorem takeFrom_spec {range : Range} : ∀ {n i : Nat} {lists : SegregatedFreeList},
    (SegregatedFreeList.takeFrom tags minimum n i lists).1 = some range →
      ∃ j, i ≤ j ∧ j < i + n ∧ Taken tags minimum (lists j) range
  | 0, _, _, h => by cases h
  | n + 1, i, lists, h => by
    unfold SegregatedFreeList.takeFrom at h
    split at h
    · rename_i hl
      cases h
      have := takeLoop_spec (congrArg Prod.fst hl)
      exact ⟨i, by omega, by omega, this.resolve_left fun h => by cases h⟩
    · obtain ⟨j, h₁, h₂, hj⟩ := takeFrom_spec h
      rw [Function.update_of_ne (by omega)] at hj
      exact ⟨j, by omega, by omega, hj⟩

theorem take_spec {lists : SegregatedFreeList} {range : Range} (h : (lists.take tags minimum).1 = some range) :
    ∃ j < SegregatedFreeList.listCount, Taken tags minimum (lists j) range := by
  obtain ⟨j, h₁, h₂, hj⟩ := takeFrom_spec h
  exact ⟨j, by omega, hj⟩

theorem takeGreedyList_spec {range : Range} : ∀ {i : Nat} {list : List Range},
    (SegregatedFreeList.takeGreedyList tags minimum i list).1 = some range → Taken tags minimum list range
  | 0, _, h => by cases h
  | i + 1, list, h => by
    unfold SegregatedFreeList.takeGreedyList at h
    split at h
    · cases h
    · rename_i entry hentry
      have hmem := List.mem_of_getElem? hentry
      split at h
      · obtain ⟨h₁, h₂⟩ := takeGreedyList_spec h
        exact ⟨mem_of_mem_vectorPop h₁, h₂⟩
      · rename_i hacc
        split at h
        · exact takeGreedyList_spec h
        · cases h
          exact ⟨hmem, by simpa using hacc, by omega⟩

theorem takeGreedyFrom_spec {range : Range} : ∀ {n : Nat} {lists : SegregatedFreeList},
    (SegregatedFreeList.takeGreedyFrom tags minimum n lists).1 = some range →
      ∃ j < n, Taken tags minimum (lists j) range
  | 0, _, h => by cases h
  | n + 1, lists, h => by
    unfold SegregatedFreeList.takeGreedyFrom at h
    split at h
    · rename_i hl
      cases h
      exact ⟨n, by omega, takeGreedyList_spec (congrArg Prod.fst hl)⟩
    · obtain ⟨j, hlt, hj⟩ := takeGreedyFrom_spec h
      rw [Function.update_of_ne (by omega)] at hj
      exact ⟨j, by omega, hj⟩

theorem takeGreedy_spec {lists : SegregatedFreeList} {range : Range}
    (h : (lists.takeGreedy tags minimum).1 = some range) :
    ∃ j < SegregatedFreeList.listCount, Taken tags minimum (lists j) range := takeGreedyFrom_spec h

end FreeLists

/-! ## The invariant -/

/-- The ranges that are held outside the free lists. -/
def held (live scavenging : List Range) : RangeKind → List Range
  | .free => []
  | .live => live
  | .scavenging => scavenging

/-- The chunks are tiled by `m`, whose tags are `tags`. -/
structure LargeInv (tags : Tags) (chunks : List Nat) (live scavenging : List Range) (m : Layout) : Prop where
  aligned : ∀ c ∈ chunks, c % 33554432 = 0
  tiled : Tiled (fun b => ∃ c ∈ chunks, b = c + 65536) (fun e => ∃ c ∈ chunks, e = c + 16777216) largeMin m
  agree : TagsAgree tags m
  chunk : ∀ {b t}, m b = some t → get b ∈ chunks
  first : ∀ c ∈ chunks, ∃ t, m (c + 65536) = some t
  held : ∀ {k}, k ≠ .free → ∀ r : Range, r ∈ held live scavenging k ↔ m r.begin = some ⟨r.size, k⟩
  nodup : ∀ k, (Bmalloc.held live scavenging k).Nodup

variable {tags : Tags} {chunks : List Nat} {live scavenging : List Range} {m : Layout}

theorem largeInv_init : LargeInv ⟨fun _ => .null⟩ [] [] [] fun _ => none := by
  refine ⟨by simp, ⟨nofun, nofun, nofun, nofun⟩, ⟨nofun, nofun, nofun, nofun⟩, nofun, by simp, fun {k} hk r => ?_,
    fun k => ?_⟩
  · cases k <;> simp [Bmalloc.held]
  · cases k <;> exact List.nodup_nil

namespace LargeInv

theorem start_eq (hi : LargeInv tags chunks live scavenging m) (b : Nat) (h : ∃ c ∈ chunks, b = c + 65536) :
    b = get b + 65536 := by
  obtain ⟨c, hc, rfl⟩ := h
  have := hi.aligned c hc
  unfold LargeChunk.get roundDown largeChunkSize superChunkSize
  omega

theorem stop_mod (hi : LargeInv tags chunks live scavenging m) (e : Nat) (h : ∃ c ∈ chunks, e = c + 16777216) :
    e % 16777216 = 0 := by
  obtain ⟨c, hc, rfl⟩ := h
  have := hi.aligned c hc
  omega

theorem le_size (hi : LargeInv tags chunks live scavenging m) {b : Nat} {t : Tile RangeKind} (hb : m b = some t) :
    1024 ≤ t.size := hi.tiled.least_le hb

theorem of_mem_rangeBeginsFrom (hi : LargeInv tags chunks live scavenging m) {c : Nat} (hc : c ∈ chunks) :
    ∀ {fuel b x : Nat}, get b = c → (∃ t, m b = some t) → x ∈ LargeHeap.rangeBeginsFrom tags (stop c) fuel b →
      ∃ t, m x = some t
  | 0, _, _, _, _, h => by cases h
  | fuel + 1, b, x, hg, ⟨t, ht⟩, h => by
    unfold LargeHeap.rangeBeginsFrom at h
    rcases List.mem_cons.1 h with rfl | h
    · exact ⟨t, ht⟩
    · rw [(hi.agree.beginTag ht).1.size] at h
      have hs := hi.le_size ht
      have hin := hi.agree.inside ht
      unfold Inside at hin
      split at h
      · rename_i hlt
        simp only [stop, largeChunkSize, superChunkSize] at hlt
        refine hi.of_mem_rangeBeginsFrom hc ((get_eq_of_le (by omega) (by omega)).trans hg) ?_ h
        rcases hi.tiled.next ht with hstop | hnext
        · have := hi.stop_mod _ hstop
          have := hi.aligned c hc
          omega
        · exact hnext
      · cases h

theorem of_mem_rangeBegins {h : LargeHeap} (hi : LargeInv h.tags h.chunks live scavenging m) {P : Platform} {x : Nat}
    (hx : x ∈ h.rangeBegins P) : ∃ t, m x = some t := by
  obtain ⟨c, hc, hx⟩ := List.mem_flatMap.1 hx
  have hbegin : LargeChunk.begin P c = c + 65536 := by simp [LargeChunk.begin]
  rw [hbegin] at hx
  refine hi.of_mem_rangeBeginsFrom hc ?_ (hi.first c hc) hx
  have := hi.start_eq _ ⟨c, hc, rfl⟩
  omega

/-- **An entry that passes the test and begins where a range begins is a free range.** -/
theorem accepted (hi : LargeInv tags chunks live scavenging m) {entry : Range} (ha : tags.accepts entry = true)
    (hb : ∃ t, m entry.begin = some t) : m entry.begin = some ⟨entry.size, .free⟩ := by
  obtain ⟨⟨size, kind⟩, ht⟩ := hb
  obtain ⟨⟨hf, hs⟩, -⟩ := hi.agree.beginTag ht
  simp only [Tags.accepts, BoundaryTag.isInFreeList, hf, hs, Bool.and_eq_true, decide_eq_true_eq, beq_iff_eq] at ha
  rw [ht, ha.1.1, ha.2]

theorem of_taken {P : Platform} {h : LargeHeap} (hi : LargeInv h.tags h.chunks live scavenging m)
    (hno : h.NoAliasedEntry P) {j minimum : Nat} (hj : j < SegregatedFreeList.listCount) {range : Range}
    (ht : Taken h.tags minimum (h.largeRanges j) range ∨ Taken h.tags minimum (h.vmLargeRanges j) range) :
    m range.begin = some ⟨range.size, .free⟩ ∧ minimum ≤ range.size := by
  rcases ht with ⟨hmem, hacc, hle⟩ | ⟨hmem, hacc, hle⟩
  · exact ⟨hi.accepted hacc (hi.of_mem_rangeBegins (hno j hj _ (List.mem_append_left _ hmem) hacc)), hle⟩
  · exact ⟨hi.accepted hacc (hi.of_mem_rangeBegins (hno j hj _ (List.mem_append_right _ hmem) hacc)), hle⟩

theorem disjoint (hi : LargeInv tags chunks live scavenging m) {r r' : Range} {k k' : RangeKind}
    (h : m r.begin = some ⟨r.size, k⟩) (h' : m r'.begin = some ⟨r'.size, k'⟩) (hne : r ≠ r') :
    r.stop ≤ r'.begin ∨ r'.stop ≤ r.begin := by
  unfold Range.stop
  rcases Nat.lt_trichotomy r.begin r'.begin with hlt | heq | hlt
  · exact .inl (hi.tiled.disjoint h h' hlt)
  · rw [heq, h'] at h
    have hsize : r'.size = r.size := congrArg Tile.size (Option.some.inj h)
    exact absurd (Range.ext heq hsize.symm) hne
  · exact .inr (hi.tiled.disjoint h' h hlt)

/-! ## The operations -/

/-- One range in place of those between `lo` and `last`: the held ranges outside stay held. -/
theorem fuse (hi : LargeInv tags chunks live scavenging m) {lo hi' last : Nat} {tlo tlast : Tile RangeKind}
    {k : RangeKind} {tags' : Tags} (hlo : m lo = some tlo) (hlast : m last = some tlast) (hle : lo ≤ last)
    (hhi : last + tlast.size = hi') (hagree : TagsAgree tags' (Tiling.fuse m lo hi' k)) {live' scavenging' : List Range}
    (hheld : ∀ {k'}, k' ≠ .free → ∀ r : Range, r ∈ Bmalloc.held live' scavenging' k' ↔
      (r = ⟨lo, hi' - lo⟩ ∧ k' = k) ∨
        (r ∈ Bmalloc.held live scavenging k' ∧ r.begin ≠ lo ∧ (r.begin < lo ∨ hi' ≤ r.begin)))
    (hnodup : ∀ k, (Bmalloc.held live' scavenging' k).Nodup) :
    LargeInv tags' chunks live' scavenging' (Tiling.fuse m lo hi' k) := by
  refine ⟨hi.aligned, hi.tiled.fuse (by decide) k hlo hlast hle hhi, hagree, fun {b t} hb => ?_, fun c hc => ?_,
    fun {k'} hk r => ?_, hnodup⟩
  · obtain ⟨rfl, rfl⟩ | ⟨-, -, hb⟩ := fuse_eq_some_iff.1 hb
    · exact hi.chunk hlo
    · exact hi.chunk hb
  · obtain ⟨t, ht⟩ := hi.first c hc
    by_cases hb : c + 65536 = lo
    · exact ⟨⟨hi' - lo, k⟩, by rw [hb, fuse_lo]⟩
    · -- the first range of a chunk does not begin within another
      have hin := hagree.inside fuse_lo
      have hc' := hi.start_eq _ ⟨c, hc, rfl⟩
      unfold Inside at hin
      simp only at hin
      refine ⟨t, ?_⟩
      rw [fuse_outside _ hb, ht]
      by_contra hnot
      have : get (c + 65536) = get lo := get_eq_of_le (by omega) (by omega)
      omega
  · rw [hheld hk, hi.held hk, fuse_eq_some_iff]
    constructor
    · rintro (⟨rfl, rfl⟩ | ⟨h₁, h₂, h₃⟩)
      · exact .inl ⟨rfl, rfl⟩
      · exact .inr ⟨h₂, h₃, h₁⟩
    · rintro (⟨h₁, h₂⟩ | ⟨h₁, h₂, h₃⟩)
      · obtain ⟨hs, rfl⟩ := (Tile.mk.injEq ..).mp h₂
        exact .inl ⟨Range.ext h₁ hs, rfl⟩
      · exact .inr ⟨h₃, h₁, h₂⟩

/-- The lists of the held ranges with one more range, of kind `k`. -/
def Holds (k : RangeKind) (range : Range) (live scavenging live' scavenging' : List Range) : Prop :=
  ∀ k', Bmalloc.held live' scavenging' k' =
    if k' = k then range :: Bmalloc.held live scavenging k' else Bmalloc.held live scavenging k'

theorem holds_live (range : Range) : Holds .live range live scavenging (range :: live) scavenging := fun k => by
  cases k <;> rfl

theorem holds_scavenging (range : Range) : Holds .scavenging range live scavenging live (range :: scavenging) :=
  fun k => by cases k <;> rfl

theorem not_mem_held (hi : LargeInv tags chunks live scavenging m) {range : Range} {b : Nat} {t : Tile RangeKind}
    (hb : m b = some t) (hf : t.kind = .free) (he : range.begin = b) {k : RangeKind} :
    range ∉ Bmalloc.held live scavenging k := fun hmem => by
  by_cases hk : k = .free
  · subst hk
    cases hmem
  · rw [hi.held hk, he, hb, Option.some.injEq] at hmem
    rw [hmem] at hf
    exact hk hf

theorem nodup_holds (hi : LargeInv tags chunks live scavenging m) {range : Range} {t : Tile RangeKind}
    (hb : m range.begin = some t) (hf : t.kind = .free) {k : RangeKind} {live' scavenging' : List Range}
    (hh : Holds k range live scavenging live' scavenging') (k' : RangeKind) :
    (Bmalloc.held live' scavenging' k').Nodup := by
  rw [hh k']
  split
  · exact List.nodup_cons.2 ⟨hi.not_mem_held hb hf rfl, hi.nodup k'⟩
  · exact hi.nodup k'

theorem mem_holds {k k' : RangeKind} {range r : Range} {live' scavenging' : List Range}
    (hh : Holds k range live scavenging live' scavenging') :
    r ∈ Bmalloc.held live' scavenging' k' ↔ (r = range ∧ k' = k) ∨ r ∈ Bmalloc.held live scavenging k' := by
  rw [hh k']
  split
  · rename_i h
    simp [h]
  · rename_i h
    simp [h]

theorem take_whole (hi : LargeInv tags chunks live scavenging m) {range : Range} {k : RangeKind} {tags' : Tags}
    (hb : m range.begin = some ⟨range.size, .free⟩)
    (hagree : TagsAgree tags' (Tiling.fuse m range.begin (range.begin + range.size) k)) {live' scavenging' : List Range}
    (hh : Holds k range live scavenging live' scavenging') :
    LargeInv tags' chunks live' scavenging' (Tiling.fuse m range.begin (range.begin + range.size) k) := by
  refine hi.fuse hb hb (Nat.le_refl _) rfl hagree (fun {k'} hk r => ?_) (hi.nodup_holds hb rfl hh)
  rw [mem_holds hh, Nat.add_sub_cancel_left]
  refine or_congr Iff.rfl (iff_self_and.2 fun hr => ?_)
  have hne : r.begin ≠ range.begin := fun he => hi.not_mem_held hb rfl he hr
  refine ⟨hne, ?_⟩
  rw [hi.held hk] at hr
  by_contra hnot
  simp only at hnot
  have : range.begin + range.size ≤ r.begin := hi.tiled.disjoint hb hr (by omega)
  omega

theorem give_back (hi : LargeInv tags chunks live scavenging m) {object lo hi' last : Nat} {tlo tlast : Tile RangeKind}
    {tags' : Tags} (hlo : m lo = some tlo) (hlast : m last = some tlast) (hle : lo ≤ last)
    (hhi : last + tlast.size = hi') (hin : lo ≤ object ∧ object < hi')
    (honly : ∀ b t, m b = some t → lo ≤ b → b < hi' → b = object ∨ t.kind = .free)
    (hagree : TagsAgree tags' (Tiling.fuse m lo hi' .free)) {live' scavenging' : List Range}
    (hheld : ∀ {k}, k ≠ .free → ∀ r : Range, r ∈ Bmalloc.held live' scavenging' k ↔
      r ∈ Bmalloc.held live scavenging k ∧ r.begin ≠ object)
    (hnodup : ∀ k, (Bmalloc.held live' scavenging' k).Nodup) :
    LargeInv tags' chunks live' scavenging' (Tiling.fuse m lo hi' .free) := by
  refine hi.fuse hlo hlast hle hhi hagree (fun {k} hk r => ?_) hnodup
  rw [hheld hk]
  constructor
  · rintro ⟨hr, hne⟩
    have hr' := (hi.held hk r).1 hr
    have hout : ¬(lo ≤ r.begin ∧ r.begin < hi') := fun h => (honly _ _ hr' h.1 h.2).elim hne hk
    exact .inr ⟨hr, by omega, by omega⟩
  · rintro (⟨-, rfl⟩ | ⟨hr, h₁, h₂⟩)
    · exact absurd rfl hk
    · exact ⟨hr, by omega⟩

theorem cut (hi : LargeInv tags chunks live scavenging m) {range : Range} {size : Nat} {tags' : Tags}
    (hb : m range.begin = some ⟨range.size, .free⟩) (hmin : 1024 ≤ size) (hle : size + 1024 ≤ range.size)
    (hagree : TagsAgree tags' (Tiling.cut m range.begin (range.begin + size) (range.begin + range.size) .live .free)) :
    LargeInv tags' chunks (⟨range.begin, size⟩ :: live) scavenging
      (Tiling.cut m range.begin (range.begin + size) (range.begin + range.size) .live .free) := by
  have hin := hi.agree.inside hb
  unfold Inside at hin
  simp only at hin
  refine ⟨hi.aligned, hi.tiled.cut (by decide) _ _ hb rfl (Nat.add_le_add_left hmin _)
    (by simp only [largeMin]; omega), hagree, fun {b t} hx => ?_, fun c hc => ?_, fun {k} hk r => ?_, fun k => ?_⟩
  · obtain ⟨rfl, rfl⟩ | ⟨-, rfl, rfl⟩ | ⟨-, -, hx⟩ := cut_eq_some_iff.1 hx
    · rw [get_eq_of_le (b := range.begin) (by omega) (by omega)]
      exact hi.chunk hb
    · exact hi.chunk hb
    · exact hi.chunk hx
  · obtain ⟨t, ht⟩ := hi.first c hc
    by_cases h₁ : c + 65536 = range.begin
    · exact ⟨⟨_, _⟩, by rw [h₁, cut_lo (by omega)]⟩
    · by_cases h₂ : c + 65536 = range.begin + size
      · exact ⟨⟨_, _⟩, by rw [h₂, cut_mid]⟩
      · exact ⟨t, by rw [cut_other h₁ h₂, ht]⟩
  · have hmid : ∀ t, m (range.begin + size) ≠ some t := fun t ht => by
      have : range.begin + range.size ≤ range.begin + size := hi.tiled.disjoint hb ht (by omega)
      omega
    rw [mem_holds (holds_live _), cut_eq_some_iff]
    constructor
    · rintro (⟨rfl, rfl⟩ | hr)
      · exact .inr (.inl ⟨by simp only; omega, rfl, by simp⟩)
      · have hne : r.begin ≠ range.begin := fun he => hi.not_mem_held hb rfl he hr
        rw [hi.held hk] at hr
        exact .inr (.inr ⟨fun he => hmid _ (he ▸ hr), hne, hr⟩)
    · rintro (⟨-, h⟩ | ⟨-, h₁, h₂⟩ | ⟨-, -, hr⟩)
      · exact absurd (congrArg Tile.kind h) hk
      · obtain ⟨hs, rfl⟩ := (Tile.mk.injEq ..).mp h₂
        exact .inl ⟨Range.ext h₁ (by rw [hs, Nat.add_sub_cancel_left]), rfl⟩
      · exact .inr ((hi.held hk r).2 hr)
  · have hb' : m (⟨range.begin, size⟩ : Range).begin = some ⟨range.size, .free⟩ := hb
    exact hi.nodup_holds hb' rfl (holds_live _) k

theorem add_chunk (hi : LargeInv tags chunks live scavenging m) {P : Platform} {chunk : Nat}
    (hc : chunk % 33554432 = 0) (hnew : chunk ∉ chunks) :
    LargeInv ((tags.vmAllocate chunk).init P chunk).1 (chunk :: chunks) live scavenging
      (Function.update m (chunk + 65536) (some ⟨16711680, .free⟩)) := by
  have hne : ∀ {b t}, m b = some t → get b ≠ chunk := fun hb he => hnew (he ▸ hi.chunk hb)
  have hout : ∀ {b t}, m b = some t → b + t.size < chunk + 65536 ∨ chunk + 16777216 < b := fun {b t} hb => by
    have hin := hi.agree.inside hb
    have := hne hb
    have hmod : get b % 16777216 = 0 := by
      unfold LargeChunk.get roundDown largeChunkSize superChunkSize
      omega
    unfold Inside at hin
    omega
  have hnone : m (chunk + 65536) = none := by
    by_contra h
    obtain ⟨t, ht⟩ := Option.ne_none_iff_exists'.1 h
    have := hout ht
    omega
  have hother : ∀ {b t}, m b = some t → b ≠ chunk + 65536 := fun hb he => by
    rw [he, hnone] at hb
    cases hb
  refine ⟨?_, ?_, (init_agree hi.agree hc hne).2, fun {b t} hb => ?_, fun c hc' => ?_, fun {k} hk r => ?_, hi.nodup⟩
  · simpa using ⟨hc, hi.aligned⟩
  · have hsize : chunk + 16777216 - (chunk + 65536) = 16711680 := by omega
    rw [← hsize]
    exact hi.tiled.add _ (by simp only [largeMin]; omega)
      (fun b h => h.imp fun c hc => ⟨List.mem_cons_of_mem _ hc.1, hc.2⟩)
      (fun b h => h.imp fun c hc => ⟨List.mem_cons_of_mem _ hc.1, hc.2⟩) ⟨chunk, List.mem_cons_self .., rfl⟩
      ⟨chunk, List.mem_cons_self .., rfl⟩ hout
  · rw [Function.update_apply] at hb
    split at hb
    · rename_i he
      have : get b = chunk := by
        rw [he]
        unfold LargeChunk.get roundDown largeChunkSize superChunkSize
        omega
      exact this ▸ List.mem_cons_self ..
    · exact List.mem_cons_of_mem _ (hi.chunk hb)
  · rcases List.mem_cons.1 hc' with rfl | hc'
    · exact ⟨_, Function.update_self ..⟩
    · obtain ⟨t, ht⟩ := hi.first c hc'
      exact ⟨t, by rw [Function.update_of_ne (hother ht), ht]⟩
  · rw [hi.held hk, Function.update_apply]
    split
    · rename_i he
      rw [he, hnone]
      refine ⟨fun h => ?_, fun h => ?_⟩
      · cases h
      · exact absurd (congrArg Tile.kind (Option.some.inj h)).symm hk
    · rfl

end LargeInv

end WebKit.Bmalloc
