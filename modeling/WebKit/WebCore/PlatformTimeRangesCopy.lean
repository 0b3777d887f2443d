import WebKit.Lib.Run
import WebKit.WTF.MediaTimeCompare
import WebKit.WebCore.PlatformTimeRangesAdd

/-!
# Copies of `PlatformTimeRanges`

The copy constructor and `operator=` both call `copy`, which adds the ranges of the other object one by one and does not
remove the old ones. Objects are numbered, so that an object may be assigned to itself; `tryAdd` is `add` with its
assertion and the limit of a vector. The ranges of every object stay apart in the order of `MediaTime::compare` in every
run (`step_kept`), with times of all classes and empty ranges. The copy constructor is right; an assignment is right just
if every old range is a part of a range of the other object (`assign_agrees_iff`).
-/

namespace WebKit.WebCore

open WTF HalfOpen SortedList MediaTime Range Transition

namespace PlatformTimeRanges

/-! ## Operations that may crash -/

/-- `add` asserts that `start <= end`, and the vector holds at most `maxRanges` ranges. -/
def tryAdd (ranges : PlatformTimeRanges) (start stop : MediaTime) : Option PlatformTimeRanges :=
  if start.le stop ∧ (ranges.add start stop).length ≤ maxRanges then some (ranges.add start stop) else none

def tryAddAll (ranges other : PlatformTimeRanges) : Option PlatformTimeRanges :=
  other.foldlM (fun ranges range => ranges.tryAdd range.start range.stop) ranges

/-- `invert`. -/
def tryInvert (ranges : PlatformTimeRanges) : Option PlatformTimeRanges :=
  let posInf := MediaTime.positiveInfiniteTime
  let negInf := MediaTime.negativeInfiniteTime
  match ranges with
  | [] => tryAdd [] negInf posInf
  | first :: rest => do
    let start := first.start
    let inverted ← (if start.ne negInf then tryAdd [] negInf start else some [] : Option PlatformTimeRanges)
    let inverted ← ((first :: rest).zip rest).foldlM (fun inverted p => inverted.tryAdd p.1.stop p.2.start) inverted
    let stop := ((first :: rest).getLast (List.cons_ne_nil _ _)).stop
    if stop.ne posInf then inverted.tryAdd stop posInf else some inverted

/-- `unionWith`. -/
def tryUnionWith (ranges other : PlatformTimeRanges) : Option PlatformTimeRanges := do
  let unioned ← tryAddAll [] ranges
  unioned.tryAddAll other

/-- `intersectWith`. -/
def tryIntersectWith (ranges other : PlatformTimeRanges) : Option PlatformTimeRanges := do
  let invertedOther ← tryAddAll [] other
  let invertedOther ← invertedOther.tryInvert
  let ranges ← ranges.tryInvert
  let ranges ← ranges.tryUnionWith invertedOther
  ranges.tryInvert

/-- Every range is a part of a range of `other`. -/
def PartOf (ranges other : PlatformTimeRanges) : Prop :=
  ∀ r ∈ ranges, ∃ q ∈ other, q.start.le r.start ∧ r.stop.le q.stop

end PlatformTimeRanges

open PlatformTimeRanges

inductive TimeRangesCall
  | add (i : Nat) (start stop : MediaTime)
  | unionWith (i j : Nat)
  | intersectWith (i j : Nat)
  | invert (i : Nat)
  | copyConstruct (i j : Nat)
  | assign (i j : Nat)
  deriving Repr

namespace TimeRangesState

/-- Give the object `i` new ranges. -/
def update (s : TimeRangesState) (i : Nat) (ranges : PlatformTimeRanges) : TimeRangesState := Function.update s i ranges

/-- One round of the loop of `copy`, which reads `other.m_ranges[k]` after the ranges before it have been added. -/
def copyRound (i j : Nat) (s : TimeRangesState) (k : Nat) : Option TimeRangesState := do
  let range ← (s j)[k]?
  let ranges ← (s i).tryAdd range.start range.stop
  some (s.update i ranges)

/-- `copy` of the object `j` into the object `i`, with the size read once. -/
def copy (s : TimeRangesState) (i j : Nat) : Option TimeRangesState :=
  (List.range' 0 (s j).length).foldlM (copyRound i j) s

/-- The copy constructor: a new object `i`. -/
def copyConstruct (s : TimeRangesState) (i j : Nat) : Option TimeRangesState := (s.update i []).copy i j

/-- `operator=`. -/
def assign (s : TimeRangesState) (i j : Nat) : Option TimeRangesState := s.copy i j

/-- One call on the object `i`. -/
def call (s : TimeRangesState) : TimeRangesCall → Option TimeRangesState
  | .add i start stop => if start.Regular ∧ stop.Regular then ((s i).tryAdd start stop).map (s.update i) else none
  | .unionWith i j => ((s i).tryUnionWith (s j)).map (s.update i)
  | .intersectWith i j => ((s i).tryIntersectWith (s j)).map (s.update i)
  | .invert i => (s i).tryInvert.map (s.update i)
  | .copyConstruct i j => if i ≠ j then s.copyConstruct i j else none
  | .assign i j => s.assign i j

end TimeRangesState

/-! ## The invariant -/

namespace PlatformTimeRanges

/-- The order of `compare` on times of all classes. -/
theorem measures_key : Measures Regular key := by
  refine ⟨fun {a b} ha hb => ?_⟩
  rw [compare_eq_cmp ha hb]
  rcases lt_trichotomy a.key b.key with h | h | h
  · exact .inl ⟨(cmp_eq_lt_iff _ _).2 h, h⟩
  · exact .inr (.inl ⟨(cmp_eq_eq_iff _ _).2 h, h⟩)
  · exact .inr (.inr ⟨(cmp_eq_gt_iff _ _).2 h, h⟩)

/-- What the vectors of the objects are. -/
structure Kept (ranges : PlatformTimeRanges) : Prop where
  ends : Ends Regular ranges
  apart : Apart (keys key ranges)
  length_le : ranges.length ≤ maxRanges

variable {ranges other out pre rest : PlatformTimeRanges} {a r : Range} {start stop : MediaTime} {i : UInt32}

theorem lt_two_pow {n : Nat} (h : n ≤ maxRanges) : n < 2 ^ 32 := Nat.lt_of_le_of_lt h (by decide)

theorem Kept.nil : Kept [] := ⟨ends_nil, apart_nil, Nat.zero_le _⟩

theorem tryAdd_eq_some (h : ranges.tryAdd start stop = some out) :
    start.le stop ∧ out.length ≤ maxRanges ∧ out = ranges.add start stop := by
  obtain ⟨⟨hle, hlen⟩, h⟩ := Option.ite_none_right_eq_some.1 h
  cases h
  exact ⟨hle, hlen, rfl⟩

theorem Kept.tryAdd (hk : Kept ranges) (ha : start.Regular ∧ stop.Regular) (h : ranges.tryAdd start stop = some out) :
    Kept out := by
  obtain ⟨hle, hlen, rfl⟩ := tryAdd_eq_some h
  have hle' := (measures_key.le_iff ha.1 ha.2).1 hle
  obtain ⟨he, ht⟩ := add_keys measures_key hk.ends hk.apart (lt_two_pow hk.length_le) ha hle'
  exact ⟨he, ht ▸ apart_merge hle' hk.apart, hlen⟩

theorem tryAddAll_cons : ranges.tryAddAll (r :: rest) = (ranges.tryAdd r.start r.stop).bind (tryAddAll · rest) := rfl

theorem Kept.tryAddAll (hk : Kept ranges) (he : Ends Regular other) (h : ranges.tryAddAll other = some out) :
    Kept out := by
  induction other generalizing ranges with
  | nil =>
    cases h
    exact hk
  | cons r other ih =>
    obtain ⟨hr, he⟩ := ends_cons.1 he
    obtain ⟨ranges', h', h⟩ := Option.bind_eq_some_iff.1 (tryAddAll_cons ▸ h)
    exact ih (hk.tryAdd hr h') he h

theorem regular_positiveInfiniteTime : positiveInfiniteTime.Regular := by decide

theorem regular_negativeInfiniteTime : negativeInfiniteTime.Regular := by decide

theorem Kept.tryAdd_ite {p : Prop} [Decidable p] (hk : Kept ranges) (ha : start.Regular ∧ stop.Regular)
    (h : (if p then ranges.tryAdd start stop else some ranges) = some out) : Kept out := by
  split at h
  · exact hk.tryAdd ha h
  · cases h
    exact hk

theorem Kept.tryInvert (hk : Kept ranges) (h : ranges.tryInvert = some out) : Kept out := by
  cases ranges with
  | nil => exact Kept.nil.tryAdd ⟨regular_negativeInfiniteTime, regular_positiveInfiniteTime⟩ h
  | cons first rest =>
    have hends := hk.ends
    rw [PlatformTimeRanges.tryInvert] at h
    obtain ⟨inverted, h₁, h⟩ := Option.bind_eq_some_iff.1 h
    obtain ⟨inverted', h₂, h⟩ := Option.bind_eq_some_iff.1 h
    have hgaps : inverted.tryAddAll (gaps (first :: rest)) = some inverted' := by
      unfold PlatformTimeRanges.tryAddAll gaps
      rw [List.foldlM_map]
      exact h₂
    have he : Ends Regular (gaps (first :: rest)) := fun r hr => by
      obtain ⟨p, hp, rfl⟩ := List.mem_map.1 hr
      obtain ⟨hm, hm'⟩ := List.of_mem_zip hp
      exact ⟨(hends _ hm).2, (hends _ (List.mem_of_mem_tail hm')).1⟩
    have hk₁ : Kept inverted :=
      Kept.nil.tryAdd_ite ⟨regular_negativeInfiniteTime, (hends first (List.mem_cons_self ..)).1⟩ h₁
    exact (hk₁.tryAddAll he hgaps).tryAdd_ite ⟨(hends _ (List.getLast_mem _)).2, regular_positiveInfiniteTime⟩ h

theorem Kept.tryUnionWith (hk : Kept ranges) (hk' : Kept other) (h : ranges.tryUnionWith other = some out) :
    Kept out := by
  obtain ⟨unioned, h₁, h₂⟩ := Option.bind_eq_some_iff.1 h
  exact (Kept.nil.tryAddAll hk.ends h₁).tryAddAll hk'.ends h₂

theorem Kept.tryIntersectWith (hk : Kept ranges) (hk' : Kept other) (h : ranges.tryIntersectWith other = some out) :
    Kept out := by
  obtain ⟨copied, h₁, h⟩ := Option.bind_eq_some_iff.1 h
  obtain ⟨invertedOther, h₂, h⟩ := Option.bind_eq_some_iff.1 h
  obtain ⟨inverted, h₃, h⟩ := Option.bind_eq_some_iff.1 h
  obtain ⟨unioned, h₄, h⟩ := Option.bind_eq_some_iff.1 h
  exact (((hk.tryInvert h₃).tryUnionWith ((Kept.nil.tryAddAll hk'.ends h₁).tryInvert h₂)) h₄).tryInvert h

/-! ## Adding ranges that are there -/

theorem Kept.sublist (hk : Kept ranges) (hs : rest.Sublist ranges) : Kept rest :=
  ⟨fun r hr => hk.ends r (hs.mem hr), hk.apart.sublist (hs.map _), hs.length_le.trans hk.length_le⟩

theorem Kept.le_of_mem (hk : Kept ranges) (hr : r ∈ ranges) : r.start.key ≤ r.stop.key :=
  hk.apart.le (r.map key) (List.mem_map_of_mem hr)

theorem Kept.lt_of_append (hk : Kept (pre ++ r :: rest)) : ∀ q ∈ pre, q.stop.key < r.start.key := fun q hq => by
  have hap := hk.apart.apart
  rw [keys, List.map_append, List.pairwise_append] at hap
  exact hap.2.2 _ (List.mem_map_of_mem hq) (r.map key) (List.mem_map_of_mem (List.mem_cons_self ..))

theorem Kept.lt_of_cons {s : Range} (hk : Kept (pre ++ r :: s :: rest)) : r.stop.key < s.start.key := by
  have hsplit : pre ++ r :: s :: rest = (pre ++ [r]) ++ s :: rest := by simp
  exact (hsplit ▸ hk).lt_of_append r (by simp)

theorem addLoop_passes {mid : PlatformTimeRanges} (fuel : Nat) (hk : Kept (pre ++ (mid ++ rest)))
    (ha : a.start.Regular ∧ a.stop.Regular) (hal : a.start.key ≤ a.stop.key)
    (hlt : ∀ q ∈ pre ++ mid, q.stop.key < a.start.key) (hi : i.toNat = pre.length) :
    ∃ i' : UInt32, i'.toNat = (pre ++ mid).length ∧
      addLoop (mid.length + fuel) (pre ++ (mid ++ rest)) a i = addLoop fuel (pre ++ (mid ++ rest)) a i' := by
  induction mid generalizing pre i with
  | nil => exact ⟨i, by rw [hi, List.append_nil], by rw [List.length_nil, Nat.zero_add]⟩
  | cons r mid ih =>
    have hcons : pre ++ (r :: mid ++ rest) = (pre ++ [r]) ++ (mid ++ rest) := by simp
    have hcons' : pre ++ r :: mid = (pre ++ [r]) ++ mid := by simp
    have hi' := toNat_succ_length hi (lt_two_pow hk.length_le)
    obtain ⟨i', hlen, hloop⟩ := ih (hcons ▸ hk) (hcons' ▸ hlt) hi'
    refine ⟨i', hcons' ▸ hlen, ?_⟩
    rw [← hcons] at hloop
    rw [List.length_cons, Nat.add_right_comm]
    refine Eq.trans ?_ hloop
    exact addLoop_pass measures_key hk.ends ha hal (hk.le_of_mem (by simp)) hi
      (fun q hq => hlt q (List.mem_append_left _ hq)) (hlt r (by simp))

/-- A range behind all others is added at the end. -/
theorem Kept.add_last (hk : Kept (ranges ++ [r])) : ranges.add r.start r.stop = ranges ++ [r] := by
  have hr := hk.ends r (by simp)
  have hk' : Kept ([] ++ (ranges ++ [])) := hk.sublist (by simp)
  have hlt : ∀ q ∈ [] ++ ranges, q.stop.key < r.start.key := hk.lt_of_append
  obtain ⟨i', hlen, hloop⟩ := addLoop_passes 0 hk' hr (hk.le_of_mem (by simp)) hlt UInt32.toNat_zero
  unfold add
  simp only [List.nil_append, List.append_nil, Nat.add_zero] at hloop hlen
  rw [hloop]
  simp only [addLoop, hlen, List.insertIdx_length_self]

theorem union_self (r : Range) : unionWithOverlappingOrContiguousRange r r = r := by
  unfold unionWithOverlappingOrContiguousRange
  rw [show r.start.min r.start = r.start from (min_cases _ _).elim id id,
    show r.stop.max r.stop = r.stop from (max_cases _ _).elim id id]

/-- A range of the vector is removed and inserted again. -/
theorem Kept.add_self (hk : Kept ranges) (hr : r ∈ ranges) : ranges.add r.start r.stop = ranges := by
  obtain ⟨pre, rest, rfl⟩ := List.append_of_mem hr
  have hre := hk.ends r hr
  have hle := hk.le_of_mem hr
  have hk' : Kept ([] ++ (pre ++ r :: rest)) := hk
  have hlt : ∀ q ∈ [] ++ pre, q.stop.key < r.start.key := hk.lt_of_append
  obtain ⟨i, hi, hloop⟩ := addLoop_passes (rest.length + 1) hk' hre hle hlt UInt32.toNat_zero
  have hmerge : addLoop (rest.length + 1) (pre ++ r :: rest) r i = addLoop rest.length (pre ++ rest) r i := by
    rw [addLoop_merge measures_key hk.ends hre hle hle hi (not_lt.2 hle) (not_lt.2 hle), union_self]
  have hlen : (pre ++ r :: rest).length = pre.length + (rest.length + 1) := by simp
  have hend : addLoop rest.length (pre ++ rest) r i = (pre ++ rest, r, i) := by
    cases rest with
    | nil =>
      rw [List.append_nil]
      exact addLoop_end hi
    | cons s rest =>
      have hsub : (pre ++ s :: rest).Sublist (pre ++ r :: s :: rest) := (List.sublist_cons_self r _).append_left pre
      exact addLoop_stop measures_key (hk.sublist hsub).ends hre hle (hk.le_of_mem (by simp)) hi hlt
        hk.lt_of_cons
  unfold add
  rw [hlen]
  simp only [List.nil_append] at hloop hi
  rw [hloop, hmerge, hend]
  simp only [hi, insertIdx_length_append]

/-! ## `copy` -/

theorem tryAdd_of_add (hr : r.start.Regular ∧ r.stop.Regular)
    (hle : r.start.key ≤ r.stop.key) (hadd : ranges.add r.start r.stop = out) (hlen : out.length ≤ maxRanges) :
    ranges.tryAdd r.start r.stop = some out := by
  rw [PlatformTimeRanges.tryAdd, hadd, if_pos ⟨(measures_key.le_iff hr.1 hr.2).2 hle, hlen⟩]

theorem tryAddAll_append (hk : Kept (ranges ++ rest)) : ranges.tryAddAll rest = some (ranges ++ rest) := by
  induction rest generalizing ranges with
  | nil => rw [List.append_nil]; rfl
  | cons r rest ih =>
    have hcons : ranges ++ r :: rest = (ranges ++ [r]) ++ rest := by simp
    rw [hcons] at hk ⊢
    have hk' : Kept (ranges ++ [r]) := hk.sublist (List.sublist_append_left ..)
    have hadd : ranges.tryAdd r.start r.stop = some (ranges ++ [r]) :=
      tryAdd_of_add (hk'.ends r (by simp)) (hk'.le_of_mem (by simp)) hk'.add_last hk'.length_le
    rw [tryAddAll_cons, hadd, Option.bind_some, ih hk]

theorem tryAddAll_eq_some (h : ranges.tryAddAll other = some out) : out = ranges.addAll other := by
  induction other generalizing ranges with
  | nil =>
    cases h
    rfl
  | cons r other ih =>
    obtain ⟨ranges', h', h⟩ := Option.bind_eq_some_iff.1 (tryAddAll_cons ▸ h)
    rw [ih h, (tryAdd_eq_some h').2.2]
    rfl

theorem partOf_iff (hk : Kept ranges) (hk' : Kept other) :
    PartOf ranges other ↔ ∀ r ∈ keys key ranges, Inside (keys key other) r := by
  have hiff : ∀ r ∈ ranges, ∀ q ∈ other, (q.start.le r.start ∧ r.stop.le q.stop) ↔ (r.map key).Within (q.map key) :=
    fun r hr q hq => and_congr (measures_key.le_iff (hk'.ends q hq).1 (hk.ends r hr).1)
      (measures_key.le_iff (hk.ends r hr).2 (hk'.ends q hq).2)
  unfold PartOf keys Inside
  rw [List.forall_mem_map]
  refine forall₂_congr fun r hr => ?_
  constructor
  · rintro ⟨q, hq, h⟩
    exact ⟨_, List.mem_map_of_mem hq, (hiff r hr q hq).1 h⟩
  · rintro ⟨_, hmem, h⟩
    obtain ⟨q, hq, rfl⟩ := List.mem_map.1 hmem
    exact ⟨q, hq, (hiff r hr q hq).2 h⟩

/-- **Adding all ranges of `other` gives `other` just if the ranges were parts of it.** -/
theorem same_tryAddAll_iff (hk : Kept ranges) (hk' : Kept other) (h : ranges.tryAddAll other = some out) :
    Same out other ↔ PartOf ranges other := by
  have hlen := hk.length_le
  have hlen' := hk'.length_le
  have hmax : maxRanges = 134217727 := by decide
  obtain rfl := tryAddAll_eq_some h
  obtain ⟨he, hkeys⟩ := addAll_keys measures_key hk.ends hk.apart hk'.ends hk'.apart.le (by omega)
  rw [same_iff measures_key he hk'.ends, hkeys, mergeAll_eq_iff hk.apart hk'.apart, partOf_iff hk hk']

/-- No range is refused while the vector is large enough for both objects. -/
theorem Kept.tryAddAll_isSome (hk : Kept ranges) (hk' : Kept other) (hsize : ranges.length + other.length ≤ maxRanges) :
    (ranges.tryAddAll other).isSome := by
  induction other generalizing ranges with
  | nil => rfl
  | cons r other ih =>
    have hr := hk'.ends r (List.mem_cons_self ..)
    have hle := hk'.le_of_mem (List.mem_cons_self ..)
    rw [List.length_cons] at hsize
    have hlen : (ranges.add r.start r.stop).length ≤ ranges.length + 1 := by
      have hm := length_merge_le (a := ⟨r.start.key, r.stop.key⟩) (l := keys key ranges)
      rw [← (add_keys measures_key hk.ends hk.apart (lt_two_pow hk.length_le) hr hle).2] at hm
      simpa [keys] using hm
    have hadd : ranges.tryAdd r.start r.stop = some (ranges.add r.start r.stop) := tryAdd_of_add hr hle rfl (by omega)
    rw [tryAddAll_cons, hadd, Option.bind_some]
    exact ih (hk.tryAdd hr hadd) (hk'.sublist (List.sublist_cons_self ..)) (by omega)

end PlatformTimeRanges

namespace TimeRangesState

variable {s s' : TimeRangesState} {i j k : Nat} {ranges : PlatformTimeRanges}

theorem update_self : s.update i ranges i = ranges := Function.update_self ..

theorem update_of_ne (h : k ≠ i) : s.update i ranges k = s k := Function.update_of_ne h ..

/-- A copy of another object reads the ranges that it had. -/
theorem copy_of_ne (hij : i ≠ j) : s.copy i j = ((s i).tryAddAll (s j)).map (s.update i) := by
  have hloop : ∀ (rest pre : PlatformTimeRanges) (t : TimeRangesState), t j = pre ++ rest →
      (List.range' pre.length rest.length).foldlM (copyRound i j) t = ((t i).tryAddAll rest).map (t.update i) := by
    intro rest
    induction rest with
    | nil =>
      intro pre t _
      exact congrArg some (Function.update_eq_self i t).symm
    | cons r rest ih =>
      intro pre t ht
      have hget : (t j)[pre.length]? = some r := by simp [ht]
      rw [List.length_cons, List.range'_succ, List.foldlM_cons, tryAddAll_cons, copyRound, hget]
      simp only [Option.bind_eq_bind, Option.bind_some]
      cases hadd : (t i).tryAdd r.start r.stop with
      | none => rfl
      | some out =>
        have hj : t.update i out j = (pre ++ [r]) ++ rest := by
          rw [update_of_ne hij.symm, ht]
          simp
        have hih := ih (pre ++ [r]) (t.update i out) hj
        rw [List.length_append, List.length_singleton, update_self] at hih
        simp only [Option.bind_some]
        rw [hih]
        refine congrArg (Option.map · _) (funext fun x => ?_)
        exact Function.update_idem ..
  exact hloop (s j) [] s rfl

/-- A copy of an object into itself adds ranges that are there. -/
theorem copy_self (hk : Kept (s i)) : s.copy i i = some s := by
  have hround : ∀ k < (s i).length, copyRound i i s k = some s := fun k hlt => by
    have hm : (s i)[k] ∈ s i := List.getElem_mem hlt
    have hadd := tryAdd_of_add (hk.ends _ hm) (hk.le_of_mem hm) (hk.add_self hm) hk.length_le
    rw [copyRound, List.getElem?_eq_getElem hlt]
    simp only [Option.bind_eq_bind, Option.bind_some, hadd]
    exact congrArg some (Function.update_eq_self i s)
  have hloop : ∀ ks : List Nat, (∀ k ∈ ks, k < (s i).length) → ks.foldlM (copyRound i i) s = some s := by
    intro ks
    induction ks with
    | nil => exact fun _ => rfl
    | cons k ks ih =>
      intro hks
      rw [List.forall_mem_cons] at hks
      rw [List.foldlM_cons, hround k hks.1]
      exact ih hks.2
  exact hloop _ fun k hk => by simpa using (List.mem_range'_1.1 hk).2

end TimeRangesState

/-! ## Runs -/

/-- The vectors of all objects. -/
def TimeRangesKept (s : TimeRangesState) : Prop := ∀ i, Kept (s i)

variable {s s' : TimeRangesState}

theorem TimeRangesKept.update {i : Nat} {result : Option PlatformTimeRanges} (hs : TimeRangesKept s)
    (hk : ∀ out, result = some out → Kept out) (h : result.map (s.update i) = some s') : TimeRangesKept s' := by
  obtain ⟨out, ho, rfl⟩ := Option.map_eq_some_iff.1 h
  intro k
  by_cases hki : k = i
  · subst hki
    rw [TimeRangesState.update_self]
    exact hk out ho
  · rw [TimeRangesState.update_of_ne hki]
    exact hs k

theorem TimeRangesKept.copy {i j : Nat} (hs : TimeRangesKept s) (h : s.copy i j = some s') : TimeRangesKept s' := by
  by_cases hij : i = j
  · subst hij
    rw [TimeRangesState.copy_self (hs i)] at h
    cases h
    exact hs
  · rw [TimeRangesState.copy_of_ne hij] at h
    exact hs.update (fun out ho => (hs i).tryAddAll (hs j).ends ho) h

/-- **Every call keeps the ranges apart.** -/
theorem call_kept {c : TimeRangesCall} (hs : TimeRangesKept s) (h : s.call c = some s') : TimeRangesKept s' := by
  cases c with
  | add i start stop =>
    obtain ⟨ha, h⟩ := Option.ite_none_right_eq_some.1 h
    exact hs.update (fun out ho => (hs i).tryAdd ha ho) h
  | unionWith i j => exact hs.update (fun out ho => (hs i).tryUnionWith (hs j) ho) h
  | intersectWith i j => exact hs.update (fun out ho => (hs i).tryIntersectWith (hs j) ho) h
  | invert i => exact hs.update (fun out ho => (hs i).tryInvert ho) h
  | copyConstruct i j =>
    obtain ⟨-, h⟩ := Option.ite_none_right_eq_some.1 h
    have hnew : (some []).map (s.update i) = some (s.update i []) := rfl
    have hempty : TimeRangesKept (s.update i []) := hs.update (fun out ho => by cases ho; exact .nil) hnew
    exact hempty.copy h
  | assign i j => exact hs.copy h

/-- What copies of the object `j` into the object `i` do. -/
structure CopiesTo (s : TimeRangesState) (i j : Nat) : Prop where
  copyConstruct : i ≠ j → s.copyConstruct i j = some (s.update i (s j))
  assign_self : i = j → s.assign i j = some s
  assign_frame : ∀ s', s.assign i j = some s' → ∀ k, k ≠ i → s' k = s k
  assign_iff : ∀ s', s.assign i j = some s' → (Same (s' i) (s j) ↔ PartOf (s i) (s j))
  assign_isSome : (s i).length + (s j).length ≤ maxRanges → (s.assign i j).isSome

theorem partOf_self {ranges : PlatformTimeRanges} (hk : Kept ranges) : PartOf ranges ranges :=
  (partOf_iff hk hk).2 fun _ hr => inside_of_mem hr

theorem same_self {ranges : PlatformTimeRanges} (hk : Kept ranges) : Same ranges ranges :=
  (same_iff measures_key hk.ends hk.ends).2 rfl

theorem TimeRangesKept.copiesTo (hs : TimeRangesKept s) (i j : Nat) : CopiesTo s i j := by
  by_cases hij : i = j
  · subst hij
    have hself : s.assign i i = some s := TimeRangesState.copy_self (hs i)
    refine ⟨fun h => absurd rfl h, fun _ => hself, fun s' h k _ => ?_, fun s' h => ?_, fun _ => by rw [hself]; rfl⟩
    · rw [hself] at h
      cases h
      rfl
    · rw [hself] at h
      cases h
      exact iff_of_true (same_self (hs i)) (partOf_self (hs i))
  · have hne : s.assign i j = ((s i).tryAddAll (s j)).map (s.update i) := TimeRangesState.copy_of_ne hij
    refine ⟨fun _ => ?_, fun h => absurd h hij, fun s' h k hk => ?_, fun s' h => ?_, fun hsize => ?_⟩
    · have hempty : [] ++ s j = s j := rfl
      rw [TimeRangesState.copyConstruct, TimeRangesState.copy_of_ne hij, TimeRangesState.update_self,
        TimeRangesState.update_of_ne (Ne.symm hij), tryAddAll_append (hempty ▸ hs j), Option.map_some, hempty]
      exact congrArg some (Function.update_idem ..)
    · obtain ⟨out, -, rfl⟩ := Option.map_eq_some_iff.1 (hne ▸ h)
      exact TimeRangesState.update_of_ne hk
    · obtain ⟨out, ho, rfl⟩ := Option.map_eq_some_iff.1 (hne ▸ h)
      rw [TimeRangesState.update_self]
      exact same_tryAddAll_iff (hs i) (hs j) ho
    · rw [hne, Option.isSome_map]
      exact (hs i).tryAddAll_isSome (hs j) hsize

/-- **Copies in every run**: the copy constructor copies the ranges, an object assigned to itself does not change, and an
assignment gives the ranges of the other object just if the old ranges are parts of them. -/
theorem assign_agrees_iff {cs : List TimeRangesCall} (h : Run (Via TimeRangesState.call) (fun _ => []) cs s)
    (i j : Nat) : CopiesTo s i j :=
  TimeRangesKept.copiesTo (h.invariant (fun _ _ _ hk hs => call_kept hk hs) fun _ => .nil) i j

/-- The ranges `[0, 1)` and `[2, 3)` of two objects. -/
def twoObjects : List TimeRangesCall :=
  let time (n : Int) : MediaTime := ⟨n, 1, MediaTime.Valid⟩
  [.add 0 (time 0) (time 1), .add 1 (time 2) (time 3)]

/-- `twoObjects` is a run. -/
theorem assign_agrees_iff_disjoint :
    ∃ s, runFn TimeRangesState.call (fun _ => []) twoObjects = some s ∧ CopiesTo s 0 1 := by
  have hr : (runFn TimeRangesState.call (fun _ => []) twoObjects).isSome := by decide +kernel
  obtain ⟨s, hs⟩ := Option.isSome_iff_exists.1 hr
  exact ⟨s, hs, assign_agrees_iff (run_of_runFn hs) 0 1⟩

/-- After the assignment, the first object has both ranges. -/
theorem assign_keeps_old_ranges : ∃ s s', Run (Via TimeRangesState.call) (fun _ => []) twoObjects s ∧
    s.assign 0 1 = some s' ∧ ¬Same (s' 0) (s 1) := by
  have hr : ((runFn TimeRangesState.call (fun _ => []) twoObjects).bind fun s =>
      (s.assign 0 1).map fun s' => ((s' 0).length, (s 1).length)) = some (2, 1) := by decide +kernel
  obtain ⟨s, hs, h⟩ := Option.bind_eq_some_iff.1 hr
  obtain ⟨s', hs', h⟩ := Option.map_eq_some_iff.1 h
  refine ⟨s, s', run_of_runFn hs, hs', fun hsame => ?_⟩
  have hlen : (s' 0).length = (s 1).length := hsame.length_eq
  rw [(Prod.mk.inj h).1, (Prod.mk.inj h).2] at hlen
  exact absurd hlen (by decide)

end WebKit.WebCore
