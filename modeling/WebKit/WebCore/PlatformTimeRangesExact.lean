import WebKit.Lib.Run
import WebKit.WebCore.PlatformTimeRangesAdd

/-!
# `PlatformTimeRanges` is exact

`times` reads the ranges as intervals of exact times. `add` computes the insertion into a separated list (`add_times`),
so `unionWith`, `invert` and `intersectWith` compute unions, complements and intersections (`unionWith_times`,
`invert_times`, `intersectWith_times`), and the vectors stay sorted in every run (`time_ranges_exact`).
-/

namespace WebKit.WebCore

open WTF HalfOpen MediaTime Range Transition

namespace PlatformTimeRanges

/-- The ranges as intervals of exact times. -/
def times (ranges : PlatformTimeRanges) : List (Ico ExactTime) := ranges.map (Ico.map MediaTime.exact)

/-- The ends of the ranges are proper times. -/
def Proper (ranges : PlatformTimeRanges) : Prop := ∀ range ∈ ranges, range.start.Proper ∧ range.stop.Proper

variable {ranges other pre rest : PlatformTimeRanges} {a r : Range} {start stop t : MediaTime} {i : UInt32}

theorem Proper.nil : Proper [] := fun _ h => (by cases h)

theorem proper_cons : Proper (r :: rest) ↔ (r.start.Proper ∧ r.stop.Proper) ∧ Proper rest := List.forall_mem_cons

theorem proper_append : Proper (pre ++ rest) ↔ Proper pre ∧ Proper rest := List.forall_mem_append

/-- **`add` merges the added range.** -/
theorem add_times (hp : Proper ranges) (hs : Separated (times ranges)) (hsize : ranges.length < 2 ^ 32)
    (ha : start.Proper ∧ stop.Proper) (hal : start.exact < stop.exact) :
    Proper (ranges.add start stop) ∧ times (ranges.add start stop) = merge ⟨start.exact, stop.exact⟩ (times ranges) :=
  add_keys measures_exact hp hs.toApart hsize ha hal.le

theorem addAll_times {pieces : PlatformTimeRanges} (hp : Proper ranges) (hs : Separated (times ranges))
    (hpp : Proper pieces) (hlt : ∀ r ∈ times pieces, r.start < r.stop)
    (hsize : ranges.length + pieces.length < 2 ^ 32) :
    Proper (ranges.addAll pieces) ∧ times (ranges.addAll pieces) = mergeAll (times ranges) (times pieces) :=
  addAll_keys measures_exact hp hs.toApart hpp (fun r hr => (hlt r hr).le) hsize

/-! ## The other operations -/

/-- What the vectors of the objects are. -/
structure Canonical (ranges : PlatformTimeRanges) : Prop where
  proper : Proper ranges
  separated : Separated (times ranges)

theorem Canonical.nil : Canonical [] := ⟨.nil, separated_nil⟩

theorem length_times : (times ranges).length = ranges.length := List.length_map _

theorem copy_times (h : Canonical ranges) (hsize : ranges.length < 2 ^ 32) :
    Canonical ranges.copy ∧ times ranges.copy = times ranges := by
  obtain ⟨hp, ht⟩ := addAll_times .nil separated_nil h.proper h.separated.lt (by simpa using hsize)
  have ht' := ht.trans (mergeAll_nil h.separated)
  exact ⟨⟨hp, ht'.symm ▸ h.separated⟩, ht'⟩

theorem unionWith_times (h : Canonical ranges) (h' : Canonical other) (hsize : ranges.length + other.length < 2 ^ 32) :
    Canonical (ranges.unionWith other) ∧ times (ranges.unionWith other) = mergeAll (times ranges) (times other) := by
  obtain ⟨hc, htc⟩ := copy_times h (by omega)
  have hlen : ranges.copy.length = ranges.length := by rw [← length_times, htc, length_times]
  obtain ⟨hp, ht⟩ := addAll_times hc.proper hc.separated h'.proper h'.separated.lt (by omega)
  rw [htc] at ht
  exact ⟨⟨hp, ht.symm ▸ separated_mergeAll h'.separated.lt h.separated⟩, ht⟩

/-- The ranges that `invert` adds. -/
def pieces : PlatformTimeRanges → PlatformTimeRanges
  | [] => [⟨negativeInfiniteTime, positiveInfiniteTime⟩]
  | first :: rest =>
    (if first.start.ne negativeInfiniteTime then [⟨negativeInfiniteTime, first.start⟩] else []) ++
      gaps (first :: rest) ++
      if ((first :: rest).getLast (List.cons_ne_nil _ _)).stop.ne positiveInfiniteTime then
        [⟨((first :: rest).getLast (List.cons_ne_nil _ _)).stop, positiveInfiniteTime⟩] else []

theorem invert_eq (ranges : PlatformTimeRanges) :
    ranges.invert = addAll [] (pieces ranges) := by
  cases ranges with
  | nil => rfl
  | cons first rest =>
    unfold invert pieces gaps addAll
    simp only [List.foldl_append, List.foldl_map, List.tail_cons]
    split <;> split <;> rfl

theorem proper_pieces (h : Proper ranges) : Proper (pieces ranges) := by
  cases ranges with
  | nil => exact proper_cons.2 ⟨⟨proper_negativeInfiniteTime, proper_positiveInfiniteTime⟩, .nil⟩
  | cons first rest =>
    have hlast := h _ (List.getLast_mem (List.cons_ne_nil first rest))
    refine proper_append.2 ⟨proper_append.2 ⟨?_, fun r hr => ?_⟩, ?_⟩
    · split
      · exact proper_cons.2 ⟨⟨proper_negativeInfiniteTime, (proper_cons.1 h).1.1⟩, .nil⟩
      · exact .nil
    · obtain ⟨p, hp, rfl⟩ := List.mem_map.1 hr
      obtain ⟨h₁, h₂⟩ := List.of_mem_zip hp
      exact ⟨(h _ h₁).2, (h _ (List.mem_of_mem_tail h₂)).1⟩
    · split
      · exact proper_cons.2 ⟨⟨hlast.2, proper_positiveInfiniteTime⟩, .nil⟩
      · exact .nil

theorem times_pieces (h : Proper ranges) : times (pieces ranges) = holes (times ranges) := by
  cases ranges with
  | nil => rfl
  | cons first rest =>
    have hfirst := (proper_cons.1 h).1
    have hlast := h _ (List.getLast_mem (List.cons_ne_nil first rest))
    have hgaps : times (gaps (first :: rest)) = gaps (times (first :: rest)) := by
      unfold times gaps
      rw [← List.map_tail, List.zip_map, List.map_map, List.map_map]
      rfl
    have hl : ((times (first :: rest)).getLast (List.cons_ne_nil _ _)).stop =
        ((first :: rest).getLast (List.cons_ne_nil _ _)).stop.exact := by
      unfold times
      rw [List.getLast_map]
      rfl
    have h₁ := ne_iff hfirst.1 proper_negativeInfiniteTime
    have h₂ := ne_iff hlast.2 proper_positiveInfiniteTime
    rw [exact_negativeInfiniteTime] at h₁
    rw [exact_positiveInfiniteTime] at h₂
    have hmap : ∀ (p : Prop) [Decidable p] (r : Range), times (if p then [r] else []) =
        if p then [r.map exact] else [] := fun p _ r => by
      split <;> rfl
    have happ : ∀ l l' : PlatformTimeRanges, times (l ++ l') = times l ++ times l' := fun l l' => List.map_append
    unfold pieces
    rw [happ, happ, hmap, hmap, hgaps]
    unfold holes
    simp only [h₁, h₂]
    have hcons : times (first :: rest) = first.map exact :: times rest := rfl
    simp only [hcons] at hl ⊢
    simp only [hl]
    rw [← exact_positiveInfiniteTime, ← exact_negativeInfiniteTime]
    exact congrArg₂ _ (congrArg₂ _ (if_congr Iff.rfl rfl rfl) rfl) (if_congr Iff.rfl rfl rfl)

theorem length_pieces_le (h : Proper ranges) : (pieces ranges).length ≤ ranges.length + 2 := by
  have := length_holes_le (l := times ranges)
  rwa [← times_pieces h, length_times, length_times] at this

theorem invert_times (h : Canonical ranges) (hsize : ranges.length + 2 < 2 ^ 32) :
    Canonical ranges.invert ∧ times ranges.invert = complement (times ranges) := by
  have hlt := holes_lt h.separated bot_lt_top
  have hlen := length_pieces_le h.proper
  rw [← times_pieces h.proper] at hlt
  obtain ⟨hp, ht⟩ := addAll_times .nil separated_nil (proper_pieces h.proper) hlt (by simp only [List.length_nil]; omega)
  rw [times_pieces h.proper] at ht
  rw [invert_eq]
  exact ⟨⟨hp, ht.symm ▸ separated_complement h.separated⟩, ht⟩

theorem length_invert_le (h : Canonical ranges) (hsize : ranges.length + 2 < 2 ^ 32) :
    ranges.invert.length ≤ ranges.length + 2 := by
  have hle : (mergeAll [] (holes (times ranges))).length ≤ 0 + (holes (times ranges)).length := length_mergeAll_le
  have := length_holes_le (l := times ranges)
  rw [← length_times, (invert_times h hsize).2]
  rw [length_times] at this
  exact hle.trans (by simpa using this)

theorem intersectWith_times (h : Canonical ranges) (h' : Canonical other)
    (hsize : ranges.length + other.length + 6 < 2 ^ 32) : Canonical (ranges.intersectWith other) ∧
      times (ranges.intersectWith other) =
        complement (mergeAll (complement (times ranges)) (complement (times other))) := by
  obtain ⟨hc, htc⟩ := copy_times h' (by omega)
  have hlc : other.copy.length = other.length := by rw [← length_times, htc, length_times]
  obtain ⟨hco, hto⟩ := invert_times hc (by omega)
  obtain ⟨hci, hti⟩ := invert_times h (by omega)
  have hlo := length_invert_le hc (by omega)
  have hli := length_invert_le h (by omega)
  obtain ⟨hcu, htu⟩ := unionWith_times hci hco (by omega)
  have hlu : (mergeAll (times ranges.invert) (times other.copy.invert)).length ≤ _ := length_mergeAll_le
  rw [← htu, length_times, length_times, length_times] at hlu
  obtain ⟨hcr, htr⟩ := invert_times hcu (by omega)
  refine ⟨hcr, htr.trans ?_⟩
  rw [htu, hti, hto, htc]

/-! ## What the ranges represent -/

theorem represents_iff (hp : Proper ranges) (ht : t.Proper) : Represents ranges t ↔ Covers (times ranges) t.exact := by
  unfold Represents Covers times
  constructor
  · rintro ⟨r, hr, hc⟩
    exact ⟨_, List.mem_map_of_mem hr, (isPointInRange_iff measures_exact (hp r hr) ht).1 hc⟩
  · rintro ⟨_, hr, hc⟩
    obtain ⟨r, hm, rfl⟩ := List.mem_map.1 hr
    exact ⟨r, hm, (isPointInRange_iff measures_exact (hp r hm) ht).2 hc⟩

theorem Canonical.sorted (h : Canonical ranges) : Sorted ranges := by
  refine ⟨fun r hr => ?_, ?_⟩
  · exact (lt_iff (h.proper r hr).1 (h.proper r hr).2).2 (h.separated.lt _ (List.mem_map_of_mem hr))
  · have hap := h.separated.apart
    unfold times at hap
    rw [List.pairwise_map] at hap
    exact hap.imp_of_mem fun {r q} hr hq hlt => (lt_iff (h.proper r hr).2 (h.proper q hq).1).2 hlt

theorem same_of_times (hp : Proper ranges) (hp' : Proper other) (ht : times ranges = times other) :
    Same ranges other := (same_iff measures_exact hp hp').2 ht

end PlatformTimeRanges

open PlatformTimeRanges

/-! ## Runs -/

/-- Every object is sorted, and small enough for a vector. -/
def TimeRangesInv (s : TimeRangesState) : Prop := ∀ i, Canonical (s i) ∧ (s i).length ≤ maxRanges

theorem timeRangesInv_init : TimeRangesInv fun _ => [] := fun _ => ⟨.nil, Nat.zero_le _⟩

theorem set_timeRangesInv {s s' : TimeRangesState} {i : Nat} {ranges : PlatformTimeRanges} (hi : TimeRangesInv s)
    (h : Canonical ranges) (hs : s.set i ranges = some s') : TimeRangesInv s' := by
  obtain ⟨hle, he⟩ := Option.ite_none_right_eq_some.1 hs
  cases he
  intro j
  by_cases hj : j = i
  · subst hj
    rw [Function.update_self]
    exact ⟨h, hle⟩
  · rw [Function.update_of_ne hj]
    exact hi j

theorem step_timeRangesInv {s s' : TimeRangesState} {op : TimeRangesOp} (hi : TimeRangesInv s)
    (hs : s.step op = some s') : TimeRangesInv s' := by
  have hmax : maxRanges = 134217727 := by decide
  cases op with
  | add i start stop =>
    obtain ⟨⟨hstart, hstop, hlt⟩, hs⟩ := Option.ite_none_right_eq_some.1 hs
    obtain ⟨hc, hl⟩ := hi i
    have hlt' := (lt_iff hstart hstop).1 hlt
    obtain ⟨hp, ht⟩ := add_times hc.proper hc.separated (by omega) ⟨hstart, hstop⟩ hlt'
    exact set_timeRangesInv hi ⟨hp, ht.symm ▸ separated_merge hlt' hc.separated⟩ hs
  | unionWith i j =>
    have hl := (hi i).2
    have hl' := (hi j).2
    exact set_timeRangesInv hi (unionWith_times (hi i).1 (hi j).1 (by omega)).1 hs
  | intersectWith i j =>
    have hl := (hi i).2
    have hl' := (hi j).2
    exact set_timeRangesInv hi (intersectWith_times (hi i).1 (hi j).1 (by omega)).1 hs
  | invert i =>
    have hl := (hi i).2
    exact set_timeRangesInv hi (invert_times (hi i).1 (by omega)).1 hs

/-- What the operations on the objects `ranges` and `other` do to the times that they represent. The complement is within
the times before positive infinity, which is in no half-open range. -/
structure ExactOn (ranges other : PlatformTimeRanges) : Prop where
  add : ∀ start stop t : MediaTime, start.Proper → stop.Proper → t.Proper → start.lt stop →
    (Represents (ranges.add start stop) t ↔ Represents ranges t ∨ start.le t ∧ t.lt stop)
  unionWith : ∀ t : MediaTime, t.Proper →
    (Represents (ranges.unionWith other) t ↔ Represents ranges t ∨ Represents other t)
  intersectWith : ∀ t : MediaTime, t.Proper →
    (Represents (ranges.intersectWith other) t ↔ Represents ranges t ∧ Represents other t)
  invert : ∀ t : MediaTime, t.Proper →
    (Represents ranges.invert t ↔ t.lt positiveInfiniteTime ∧ ¬Represents ranges t)
  invert_invert : Same ranges.invert.invert ranges

theorem PlatformTimeRanges.Canonical.exactOn {ranges other : PlatformTimeRanges} (h : Canonical ranges) (h' : Canonical other)
    (hsize : ranges.length + other.length + 6 < 2 ^ 32) : ExactOn ranges other := by
  have hinv := invert_times h (by omega)
  refine ⟨fun start stop t hstart hstop ht hlt => ?_, fun t ht => ?_, fun t ht => ?_, fun t ht => ?_, ?_⟩
  · have hlt' := (lt_iff hstart hstop).1 hlt
    obtain ⟨hp, hta⟩ := add_times h.proper h.separated (by omega) ⟨hstart, hstop⟩ hlt'
    rw [represents_iff hp ht, hta, covers_merge hlt' h.separated, represents_iff h.proper ht, le_iff hstart ht,
      lt_iff ht hstop, or_comm]
    rfl
  · obtain ⟨hc, hu⟩ := unionWith_times h h' (by omega)
    rw [represents_iff hc.proper ht, hu, covers_mergeAll h'.separated.lt h.separated, represents_iff h.proper ht,
      represents_iff h'.proper ht]
  · obtain ⟨hc, hu⟩ := intersectWith_times h h' hsize
    rw [represents_iff hc.proper ht, hu, covers_intersection h.separated h'.separated, represents_iff h.proper ht,
      represents_iff h'.proper ht]
  · rw [represents_iff hinv.1.proper ht, hinv.2, covers_complement h.separated, represents_iff h.proper ht,
      lt_iff ht proper_positiveInfiniteTime, exact_positiveInfiniteTime]
  · have hlen := length_invert_le h (by omega)
    obtain ⟨hc, hi⟩ := invert_times hinv.1 (by omega)
    exact same_of_times hc.proper h.proper (by rw [hi, hinv.2, complement_complement h.separated])

/-- **The operations are exact in every run**: the vectors stay sorted, and every operation on any objects computes the
set of its name. -/
theorem time_ranges_exact {ops : List TimeRangesOp} {s : TimeRangesState}
    (h : Run (Via TimeRangesState.step) (fun _ => []) ops s) : ∀ i j, Sorted (s i) ∧ ExactOn (s i) (s j) := by
  have hi := h.invariant (fun _ _ _ hi hs => step_timeRangesInv hi hs) timeRangesInv_init
  have hmax : maxRanges = 134217727 := by decide
  intro i j
  obtain ⟨hc, hl⟩ := hi i
  obtain ⟨hc', hl'⟩ := hi j
  exact ⟨hc.sorted, hc.exactOn hc' (by omega)⟩

/-- Three ranges, of which the last merges the others, and their complement. -/
theorem time_ranges_exact_merged :
    let time (n : Int) : MediaTime := ⟨n, 1, MediaTime.Valid⟩
    let ops := [TimeRangesOp.add 0 (time 5) (time 7), .add 0 (time 1) (time 2), .add 0 (time 2) (time 6), .invert 0]
    ∃ s, runFn TimeRangesState.step (fun _ => []) ops = some s ∧
      s 0 = [⟨negativeInfiniteTime, time 1⟩, ⟨time 7, positiveInfiniteTime⟩] ∧ Sorted (s 0) ∧ ExactOn (s 0) (s 1) := by
  intro time ops
  have hr : (runFn TimeRangesState.step (fun _ => []) ops).map (fun s => s 0) =
      some [⟨negativeInfiniteTime, time 1⟩, ⟨time 7, positiveInfiniteTime⟩] := by decide +kernel
  obtain ⟨s, hs, h0⟩ := Option.map_eq_some_iff.1 hr
  exact ⟨s, hs, h0, time_ranges_exact (run_of_runFn hs) 0 1⟩

end WebKit.WebCore
