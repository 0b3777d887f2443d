import WebKit.Bmalloc.LargeHeapInv
import WebKit.Lib.Run

/-!
# Runs of the large heap

`LargeState.step`: objects are allocated and freed in any order, and the scavenger takes ranges from `m_largeRanges` and
gives them to `VMHeap` later. An entry that a merge or a split left behind can pass the test of the free lists through
the tag of another range in the same `largeMin` bytes, and then two objects overlap (`large_objects_overlap`). In runs
where no such entry is in a free list when one is searched, the objects are disjoint and every entry that passes the
test is free (`large_objects_disjoint`).
-/

namespace WebKit.Bmalloc

open Transition Tiling LargeChunk

/-- The heap with the objects, each with the range that was handed out for it, and the ranges that the scavenger holds
with the lock released. -/
structure LargeState where
  heap : LargeHeap
  live : List Range
  scavenging : List Range

def LargeState.init : LargeState := ⟨.init, [], []⟩

/-- The operations; `fresh` is the address of the chunk that `vmAllocate` returns if one is needed. -/
inductive LargeOp
  | allocateLarge (size fresh : Nat)
  | deallocateLarge (object : Nat)
  | scavengeLargeRanges
  | releaseLargeRange (range : Range)
  deriving Repr

/-- One operation. It is possible when the size is one that the callers ask for, a new chunk is at a new aligned
address, a freed object is live, and a range is released that the scavenger holds. -/
def LargeState.step (P : Platform) (s : LargeState) : LargeOp → Option LargeState
  | .allocateLarge size fresh =>
    if size % largeAlignment = 0 ∧ largeMin ≤ size ∧ size ≤ largeMax ∧ fresh % superChunkSize = 0 ∧
        fresh ∉ s.heap.chunks then
      let (range, heap) := s.heap.allocateLarge P size fresh
      some { s with heap := heap, live := range :: s.live }
    else none
  | .deallocateLarge object =>
    if object ∈ s.live.map Range.begin then
      some { s with heap := s.heap.deallocateLarge object, live := s.live.filter fun r => r.begin ≠ object }
    else none
  | .scavengeLargeRanges =>
    match s.heap.scavengeLargeRanges P with
    | (none, heap) => some { s with heap := heap }
    | (some range, heap) => some { s with heap := heap, scavenging := range :: s.scavenging }
  | .releaseLargeRange range =>
    if range ∈ s.scavenging then
      some { s with heap := s.heap.releaseLargeRange range, scavenging := s.scavenging.erase range }
    else none

/-- The operations that search the free lists find no aliased entry there. -/
def LargeState.NoAliasedEntry (P : Platform) (s : LargeState) : LargeOp → Prop
  | .allocateLarge .. => s.heap.NoAliasedEntry P
  | .scavengeLargeRanges => s.heap.NoAliasedEntry P
  | _ => True

instance (P : Platform) (s : LargeState) (op : LargeOp) : Decidable (s.NoAliasedEntry P op) :=
  match op with
  | .allocateLarge .. => inferInstanceAs (Decidable (s.heap.NoAliasedEntry P))
  | .deallocateLarge _ => inferInstanceAs (Decidable True)
  | .scavengeLargeRanges => inferInstanceAs (Decidable (s.heap.NoAliasedEntry P))
  | .releaseLargeRange _ => inferInstanceAs (Decidable True)

/-! ## Steps -/

variable {P : Platform} {h : LargeHeap} {live scavenging : List Range} {m : Layout}

theorem takeLargeRange_inv (hi : LargeInv h.tags h.chunks live scavenging m) (hno : h.NoAliasedEntry P)
    {size fresh : Nat} (hsize : size ≤ largeMax) (hal : fresh % superChunkSize = 0) (hnew : fresh ∉ h.chunks)
    {range : Range} {h' : LargeHeap} (ht : h.takeLargeRange P size fresh = (range, h')) :
    ∃ m', LargeInv h'.tags h'.chunks live scavenging m' ∧ m' range.begin = some ⟨range.size, .free⟩ ∧
      size ≤ range.size := by
  unfold LargeHeap.takeLargeRange at ht
  split at ht
  · rename_i r lists htake
    cases ht
    obtain ⟨j, hj, htaken⟩ := take_spec (congrArg Prod.fst htake)
    exact ⟨m, hi, hi.of_taken hno hj (.inl htaken)⟩
  · unfold LargeHeap.allocateLargeRange at ht
    split at ht
    · rename_i r lists htake
      cases ht
      obtain ⟨j, hj, htaken⟩ := take_spec (congrArg Prod.fst htake)
      exact ⟨m, hi, hi.of_taken hno hj (.inr htaken)⟩
    · -- a new chunk
      obtain ⟨hr, rfl⟩ := Prod.ext_iff.1 ht
      have hne : ∀ {b t}, m b = some t → get b ≠ fresh := fun hb he => hnew (he ▸ hi.chunk hb)
      have hinit := (init_agree (P := P) hi.agree hal hne).1
      have hrange : range = ⟨fresh + 65536, 16711680⟩ := hr.symm.trans hinit
      subst hrange
      refine ⟨_, hi.add_chunk hal hnew, Function.update_self .., ?_⟩
      have : largeMax = 16609443 := by decide
      simp only
      omega

/-- **`allocateLarge`** makes a free range an object that is large enough. -/
theorem allocateLarge_inv (hi : LargeInv h.tags h.chunks live scavenging m) (hno : h.NoAliasedEntry P)
    {size fresh : Nat} (hmin : largeMin ≤ size) (hsize : size ≤ largeMax) (hal : fresh % superChunkSize = 0)
    (hnew : fresh ∉ h.chunks) {range : Range} {h' : LargeHeap} (ha : h.allocateLarge P size fresh = (range, h')) :
    size ≤ range.size ∧ ∃ m', LargeInv h'.tags h'.chunks (range :: live) scavenging m' := by
  unfold LargeHeap.allocateLarge at ha
  split at ha
  rename_i taken h₁ htake
  obtain ⟨m₁, hi₁, hfree, hle⟩ := takeLargeRange_inv (h := { h with isAllocatingPages := true }) hi hno
    hsize hal hnew htake
  generalize hall : h₁.tags.allocate size taken = r at ha
  obtain ⟨tags, r, leftover⟩ := r
  have hr : r = range := congrArg Prod.fst ha
  have hh' : h'.tags = tags ∧ h'.chunks = h₁.chunks := by
    have hsnd : _ = h' := congrArg Prod.snd ha
    subst hsnd
    simp only
    split <;> exact ⟨rfl, rfl⟩
  rw [hh'.1, hh'.2, ← hr]
  have htags : tags = (h₁.tags.allocate size taken).1 := by rw [hall]
  have hranges : (r, leftover) = (h₁.tags.allocate size taken).2 := by rw [hall]
  by_cases hgt : taken.size - size > largeMin
  · obtain ⟨he, hagree⟩ := allocate_cut_agree hi₁.tiled hi₁.agree hfree rfl hmin hgt
    obtain ⟨rfl, -⟩ := Prod.ext_iff.1 (hranges.trans he)
    rw [htags]
    have : 1024 < taken.size - size := hgt
    exact ⟨Nat.le_refl _, _, hi₁.cut hfree hmin (by omega) hagree⟩
  · obtain ⟨he, hagree⟩ := allocate_whole_agree hi₁.tiled hi₁.agree hfree hgt
    obtain ⟨rfl, -⟩ := Prod.ext_iff.1 (hranges.trans he)
    rw [htags]
    exact ⟨hle, _, hi₁.take_whole hfree hagree (LargeInv.holds_live _)⟩

/-- **`deallocateLarge`** of an object. -/
theorem deallocateLarge_inv (hi : LargeInv h.tags h.chunks live scavenging m) {object : Nat}
    (ho : object ∈ live.map Range.begin) :
    ∃ m', LargeInv (h.deallocateLarge object).tags (h.deallocateLarge object).chunks
      (live.filter fun r => r.begin ≠ object) scavenging m' := by
  obtain ⟨r, hr, rfl⟩ := List.mem_map.1 ho
  have hlive : m r.begin = some ⟨r.size, .live⟩ := (hi.held (k := .live) (by decide) r).1 hr
  obtain ⟨lo, hi', s, hs, -, hagree⟩ :=
    deallocate_agree hi.start_eq hi.stop_mod hi.tiled hi.agree hlive (by simp)
  obtain ⟨tlo, hlo⟩ := hs.first
  obtain ⟨last, tlast, hlast, hhi, hle⟩ := hs.last
  refine ⟨_, hi.give_back hlo hlast hle hhi ⟨hs.lo_le, hs.lt_hi⟩ hs.only hagree (fun {k} hk r' => ?_) fun k => ?_⟩
  · cases k with
    | free => exact absurd rfl hk
    | live => simp [Bmalloc.held, List.mem_filter]
    | scavenging =>
      refine (and_iff_left_of_imp fun hr' he => ?_).symm
      have hr' := (hi.held (k := .scavenging) (by decide) r').1 hr'
      rw [he, hlive] at hr'
      cases congrArg Tile.kind (Option.some.inj hr')
  · cases k with
    | free => exact List.nodup_nil
    | live => exact (hi.nodup .live).filter _
    | scavenging => exact hi.nodup .scavenging

/-- The scavenger takes a free range. -/
theorem scavengeLargeRanges_inv (hi : LargeInv h.tags h.chunks live scavenging m) (hno : h.NoAliasedEntry P) :
    ∃ m', LargeInv (h.scavengeLargeRanges P).2.tags (h.scavengeLargeRanges P).2.chunks live
      ((h.scavengeLargeRanges P).1.toList ++ scavenging) m' := by
  unfold LargeHeap.scavengeLargeRanges
  split
  · exact ⟨m, hi⟩
  · split
    · exact ⟨m, hi⟩
    · rename_i range lists htake
      obtain ⟨j, hj, htaken⟩ := takeGreedy_spec (congrArg Prod.fst htake)
      obtain ⟨hfree, -⟩ := hi.of_taken hno hj (.inl htaken)
      have hagree := modify_agree hi.tiled hi.agree hfree (k := .scavenging) (g := (·.setFree false)) (fun _ => rfl)
        (fun _ => rfl) fun _ _ => rfl
      exact ⟨_, hi.take_whole hfree hagree (LargeInv.holds_scavenging _)⟩

theorem releaseLargeRange_inv (hi : LargeInv h.tags h.chunks live scavenging m) {range : Range}
    (hr : range ∈ scavenging) :
    ∃ m', LargeInv (h.releaseLargeRange range).tags (h.releaseLargeRange range).chunks live
      (scavenging.erase range) m' := by
  have hheld : m range.begin = some ⟨range.size, .scavenging⟩ := (hi.held (k := .scavenging) (by decide) range).1 hr
  have hagree := modify_agree hi.tiled hi.agree hheld (k := .free)
    (g := (·.setHasPhysicalPages false) ∘ (·.setFree true)) (fun _ => rfl) (fun _ => rfl) fun _ _ => rfl
  rw [← modify_pairs (f := (·.setFree true)) (g := (·.setHasPhysicalPages false)) fun _ => rfl] at hagree
  have hs := hi.le_size hheld
  refine ⟨_, hi.give_back hheld hheld (Nat.le_refl _) rfl ⟨Nat.le_refl _, by simp only at hs ⊢; omega⟩
    (fun b t hb h₁ h₂ => ?_) hagree (fun {k} hk r' => ?_) fun k => ?_⟩
  · by_contra hnot
    have : range.begin + range.size ≤ b := hi.tiled.disjoint hheld hb (by omega)
    simp only at h₂
    omega
  · cases k with
    | free => exact absurd rfl hk
    | live =>
      refine (and_iff_left_of_imp fun hr' he => ?_).symm
      have hr' := (hi.held (k := .live) (by decide) r').1 hr'
      rw [he, hheld] at hr'
      cases congrArg Tile.kind (Option.some.inj hr')
    | scavenging =>
      have herase : r' ∈ scavenging.erase range ↔ r' ≠ range ∧ r' ∈ scavenging :=
        List.Nodup.mem_erase_iff (hi.nodup .scavenging)
      refine herase.trans (and_comm.trans (and_congr_right fun hr' => not_congr ⟨fun he => by rw [he], fun he => ?_⟩))
      have hr' := (hi.held (k := .scavenging) (by decide) r').1 hr'
      rw [he, hheld] at hr'
      exact Range.ext he (congrArg Tile.size (Option.some.inj hr')).symm
  · cases k with
    | free => exact List.nodup_nil
    | live => exact hi.nodup .live
    | scavenging => exact (hi.nodup .scavenging).erase _

/-! ## Runs -/

/-- The invariant of a state. -/
def LargeState.Inv (s : LargeState) : Prop := ∃ m, LargeInv s.heap.tags s.heap.chunks s.live s.scavenging m

theorem step_largeInv {s t : LargeState} {op : LargeOp} (hi : s.Inv) (hno : s.NoAliasedEntry P op)
    (h : s.step P op = some t) : t.Inv := by
  obtain ⟨m, hi⟩ := hi
  cases op with
  | allocateLarge size fresh =>
    obtain ⟨⟨-, hmin, hmax, hal, hnew⟩, h⟩ := Option.ite_none_right_eq_some.1 h
    cases h
    exact (allocateLarge_inv hi hno hmin hmax hal hnew rfl).2
  | deallocateLarge object =>
    obtain ⟨ho, h⟩ := Option.ite_none_right_eq_some.1 h
    cases h
    exact deallocateLarge_inv hi ho
  | scavengeLargeRanges =>
    have := scavengeLargeRanges_inv hi hno
    simp only [LargeState.step] at h
    split at h
    · rename_i heap he
      cases h
      rwa [he] at this
    · rename_i range heap he
      cases h
      rwa [he] at this
  | releaseLargeRange range =>
    obtain ⟨hr, h⟩ := Option.ite_none_right_eq_some.1 h
    cases h
    exact releaseLargeRange_inv hi hr

theorem run_largeInv {s t : LargeState} {ops : List LargeOp} (hi : s.Inv)
    (h : Run (Guarded (LargeState.NoAliasedEntry P) (Via (LargeState.step P))) s ops t) : t.Inv := by
  have hstep : ∀ s op t, s.Inv → Guarded (LargeState.NoAliasedEntry P) (Via (LargeState.step P)) s op t → t.Inv :=
    fun _ _ _ hi h => step_largeInv hi h.1 h.2
  exact h.invariant hstep hi

/-- Two ranges have no byte in common. -/
def Range.Disjoint (r r' : Range) : Prop := r.stop ≤ r'.begin ∨ r'.stop ≤ r.begin

instance (r r' : Range) : Decidable (r.Disjoint r') := inferInstanceAs (Decidable (_ ∨ _))

/-- A range lies in `m_memory` of a chunk. -/
def LargeHeap.Contains (P : Platform) (h : LargeHeap) (r : Range) : Prop :=
  ∃ c ∈ h.chunks, LargeChunk.begin P c ≤ r.begin ∧ r.stop ≤ LargeChunk.stop c

/-- The objects are disjoint and inside the chunks, a new one is as large as asked for, and the entries that the free
lists accept are free: they meet no object and no range that the scavenger holds. -/
structure LargeSafe (P : Platform) (s : LargeState) : Prop where
  disjoint : s.live.Pairwise Range.Disjoint
  inside : ∀ r ∈ s.live, s.heap.Contains P r
  size : ∀ size fresh, s.NoAliasedEntry P (.allocateLarge size fresh) → largeMin ≤ size → size ≤ largeMax →
    fresh % superChunkSize = 0 → fresh ∉ s.heap.chunks → size ≤ (s.heap.allocateLarge P size fresh).1.size
  accepted : s.heap.NoAliasedEntry P → ∀ i < SegregatedFreeList.listCount,
    ∀ entry ∈ s.heap.largeRanges i ++ s.heap.vmLargeRanges i, s.heap.tags.accepts entry = true →
      s.heap.Contains P entry ∧ ∀ r ∈ s.live ++ s.scavenging, entry.Disjoint r

theorem LargeInv.contains {h : LargeHeap} {live scavenging : List Range} {m : Layout}
    (hi : LargeInv h.tags h.chunks live scavenging m) {r : Range} {k : RangeKind} (hr : m r.begin = some ⟨r.size, k⟩) :
    h.Contains P r := by
  have hin := hi.agree.inside hr
  refine ⟨get r.begin, hi.chunk hr, ?_⟩
  have hbegin : LargeChunk.begin P (get r.begin) = get r.begin + 65536 := by simp [LargeChunk.begin]
  rw [hbegin]
  exact hin

/-- **Large objects are disjoint and inside their chunks**, and accepted entries are free, in every run in which no
aliased entry is in a free list when one is searched. -/
theorem large_objects_disjoint {ops : List LargeOp} {s : LargeState}
    (h : Run (Guarded (LargeState.NoAliasedEntry P) (Via (LargeState.step P))) .init ops s) : LargeSafe P s := by
  obtain ⟨m, hi⟩ := run_largeInv ⟨_, largeInv_init⟩ h
  have hlive : ∀ r ∈ s.live, m r.begin = some ⟨r.size, .live⟩ := fun r => (hi.held (k := .live) (by decide) r).1
  have hscav : ∀ r ∈ s.scavenging, m r.begin = some ⟨r.size, .scavenging⟩ := fun r =>
    (hi.held (k := .scavenging) (by decide) r).1
  refine ⟨?_, fun r hr => hi.contains (hlive r hr), fun size fresh hno hmin hmax hal hnew =>
    (allocateLarge_inv hi hno hmin hmax hal hnew rfl).1, fun hno i hlt entry he hacc => ?_⟩
  · exact (hi.nodup .live).imp_of_mem fun hr hr' hne => hi.disjoint (hlive _ hr) (hlive _ hr') hne
  · have hfree := hi.accepted hacc (hi.of_mem_rangeBegins (hno i hlt entry he hacc))
    refine ⟨hi.contains hfree, fun r hr => ?_⟩
    have hne : entry ≠ r := fun e => by
      subst e
      rcases List.mem_append.1 hr with hr | hr
      · exact hi.not_mem_held (k := .live) hfree rfl rfl hr
      · exact hi.not_mem_held (k := .scavenging) hfree rfl rfl hr
    rcases List.mem_append.1 hr with hr | hr
    · exact hi.disjoint hfree (hlive r hr) hne
    · exact hi.disjoint hfree (hscav r hr) hne

/-- An aliased entry of 2048 bytes, left behind at offset 69632 when the range there was merged, passes the test through
the tag of a range that begins at offset 69696. -/
def aliasedRun : List LargeOp :=
  let chunk := superChunkSize
  let next := 2 * superChunkSize
  [.allocateLarge 4096 chunk, .allocateLarge 2048 next, .allocateLarge 4096 next, .deallocateLarge (chunk + 69632),
    .deallocateLarge (chunk + 65536), .deallocateLarge (chunk + 71680), .allocateLarge 6208 next,
    .allocateLarge 4096 next, .deallocateLarge (chunk + 65536), .allocateLarge 4160 next, .allocateLarge 2048 next]

/-- Two objects of `aliasedRun` overlap. -/
theorem large_objects_overlap : ¬∀ (ops : List LargeOp) (s : LargeState),
    Run (Via (LargeState.step .other)) .init ops s → s.live.Pairwise Range.Disjoint := by
  intro h
  have hr : (runFn (LargeState.step .other) .init aliasedRun).map LargeState.live =
      some [⟨33624064, 2048⟩, ⟨33619968, 4160⟩, ⟨33626176, 4096⟩] := by decide +kernel
  obtain ⟨s, hs, hl⟩ := Option.map_eq_some_iff.1 hr
  have := h _ s (run_of_runFn hs)
  rw [hl] at this
  revert this
  decide

/-- The run without its last allocation meets the condition, with stale entries in the lists that are searched. -/
theorem large_objects_disjoint_stale : ∃ s, Run (Guarded (LargeState.NoAliasedEntry .other)
    (Via (LargeState.step .other))) .init (aliasedRun.take 10) s ∧ (s.heap.largeRanges 18).length = 2 ∧
    LargeSafe .other s := by
  have hr : (runFn (guardFn (LargeState.NoAliasedEntry .other) (LargeState.step .other)) .init
      (aliasedRun.take 10)).map (fun s => (s.heap.largeRanges 18).length) = some 2 := by decide +kernel
  obtain ⟨s, hs, hl⟩ := Option.map_eq_some_iff.1 hr
  exact ⟨s, run_of_runFn_guardFn hs, hl, large_objects_disjoint (run_of_runFn_guardFn hs)⟩

end WebKit.Bmalloc
