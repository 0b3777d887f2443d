import WebKit.Lib.SortedList
import WebKit.WebCore.PlatformTimeRanges

/-!
# `PlatformTimeRanges::add`

`add` for times of any kind on which `compare` compares the values of a function `f` (`Measures`). `keys f` reads the
ranges as intervals of these values; an interval may be empty. The loop of `add` merges the added range into a list of
ranges that are apart (`add_keys`), and so do the loops that add several (`addAll_keys`).
-/

namespace WebKit.WebCore

open WTF HalfOpen SortedList MediaTime Range

namespace PlatformTimeRanges

variable {κ : Type*}

/-- The ranges as intervals of the values of `f`. -/
def keys (f : MediaTime → κ) (ranges : PlatformTimeRanges) : List (Ico κ) := ranges.map (Ico.map f)

/-- `P` holds of the ends of the ranges. -/
def Ends (P : MediaTime → Prop) (ranges : PlatformTimeRanges) : Prop := ∀ range ∈ ranges, P range.start ∧ P range.stop

variable {P : MediaTime → Prop} {f : MediaTime → κ}

variable {ranges pre rest : PlatformTimeRanges} {a r : Range} {start stop t : MediaTime} {i : UInt32}

theorem ends_nil : Ends P [] := fun _ h => (by cases h)

theorem ends_cons : Ends P (r :: rest) ↔ (P r.start ∧ P r.stop) ∧ Ends P rest := List.forall_mem_cons

theorem ends_append : Ends P (pre ++ rest) ↔ Ends P pre ∧ Ends P rest := List.forall_mem_append

/-! ## Comparisons of ranges -/

section Ranges

variable [LinearOrder κ] (hm : Measures P f) (ha : P a.start ∧ P a.stop) (hr : P r.start ∧ P r.stop)

include hm

include hr in
theorem isPointInRange_iff (ht : P t) : isPointInRange r t = true ↔ (r.map f).Contains (f t) := by
  unfold isPointInRange
  rw [Bool.and_eq_true, hm.le_iff hr.1 ht, hm.lt_iff ht hr.2]
  rfl

include ha hr

theorem isBeforeRange_iff : isBeforeRange a r = true ↔ f a.stop ≤ f r.start := hm.ge_iff hr.1 ha.2

/-- Ranges overlap or touch if neither is before the other with a gap. -/
theorem overlaps_iff (hal : f a.start ≤ f a.stop) (hrl : f r.start ≤ f r.stop) :
    (isOverlappingRange a r || isContiguousWithRange a r) = true ↔
      ¬f a.stop < f r.start ∧ ¬f r.stop < f a.start := by
  unfold isOverlappingRange isContiguousWithRange
  simp only [Bool.or_eq_true, isPointInRange_iff hm ha hr.1, isPointInRange_iff hm ha hr.2,
    isPointInRange_iff hm hr ha.1, hm.eq_iff hr.1 ha.2, hm.eq_iff hr.2 ha.1, not_lt, Ico.Contains, Ico.map]
  constructor
  · rintro (((⟨h₁, h₂⟩ | ⟨h₁, h₂⟩) | ⟨h₁, h₂⟩) | h | h)
    · exact ⟨h₂.le, h₁.trans hrl⟩
    · exact ⟨hrl.trans h₂.le, h₁⟩
    · exact ⟨h₁.trans hal, h₂.le⟩
    · exact ⟨h.le, hal.trans (h.ge.trans hrl)⟩
    · exact ⟨hrl.trans (h.le.trans hal), h.ge⟩
  · rintro ⟨h₁, h₂⟩
    rcases h₁.eq_or_lt with h₁ | h₁
    · exact .inr (.inl h₁)
    rcases le_or_gt (f a.start) (f r.start) with h₃ | h₃
    · exact .inl (.inl (.inl ⟨h₃, h₁⟩))
    rcases h₂.eq_or_lt with h₂ | h₂
    · exact .inr (.inr h₂.symm)
    · exact .inl (.inr ⟨h₃.le, h₂⟩)

theorem map_union : (unionWithOverlappingOrContiguousRange a r).map f = (a.map f).union (r.map f) :=
  Ico.ext (hm.apply_min ha.1 hr.1) (hm.apply_max ha.2 hr.2)

omit [LinearOrder κ] hm in
theorem ends_union : P (unionWithOverlappingOrContiguousRange a r).start ∧
    P (unionWithOverlappingOrContiguousRange a r).stop := by
  unfold unionWithOverlappingOrContiguousRange
  constructor
  · rcases min_cases a.start r.start with h | h <;> simp only [h, ha.1, hr.1]
  · rcases max_cases a.stop r.stop with h | h <;> simp only [h, ha.2, hr.2]

end Ranges

/-! ## One round of the loop -/

theorem addLoop_end {fuel : Nat} (hi : i.toNat = pre.length) : addLoop fuel pre a i = (pre, a, i) := by
  cases fuel with
  | zero => rfl
  | succ fuel =>
    unfold addLoop
    rw [List.getElem?_eq_none (by simp [hi])]

section Rounds

variable [LinearOrder κ] {fuel : Nat} (hm : Measures P f) (hp : Ends P (pre ++ r :: rest)) (ha : P a.start ∧ P a.stop) (hal : f a.start ≤ f a.stop)
  (hrl : f r.start ≤ f r.stop) (hi : i.toNat = pre.length)

include hm hp ha hal hrl hi

theorem round_cases : addLoop (fuel + 1) (pre ++ r :: rest) a i =
    if ¬f a.stop < f r.start ∧ ¬f r.stop < f a.start then
      addLoop fuel (pre ++ rest) (unionWithOverlappingOrContiguousRange a r) i
    else if insertsHere (pre ++ r :: rest) a i r then (pre ++ r :: rest, a, i)
    else addLoop fuel (pre ++ r :: rest) a (i + 1) := by
  have hr := (ends_cons.1 (ends_append.1 hp).2).1
  have hget : (pre ++ r :: rest)[i.toNat]? = some r := by simp [hi]
  have herase : (pre ++ r :: rest).eraseIdx i.toNat = pre ++ rest := by
    rw [hi, List.eraseIdx_append_of_length_le (le_refl _)]
    simp
  rw [addLoop, hget]
  simp only [overlaps_iff hm ha hr hal hrl, herase, UInt32.sub_add_cancel]

theorem addLoop_merge (h : ¬f a.stop < f r.start) (h' : ¬f r.stop < f a.start) :
    addLoop (fuel + 1) (pre ++ r :: rest) a i =
      addLoop fuel (pre ++ rest) (unionWithOverlappingOrContiguousRange a r) i := by
  rw [round_cases hm hp ha hal hrl hi, if_pos ⟨h, h'⟩]

variable (hpre : ∀ q ∈ pre, f q.stop < f a.start)

include hpre

omit hal hrl in
/-- All ranges in front of the index end before the added one, so the previous one does not matter. -/
theorem insertsHere_iff : insertsHere (pre ++ r :: rest) a i r = true ↔ f a.stop ≤ f r.start := by
  obtain ⟨hpp, hpr⟩ := ends_append.1 hp
  have hr := (ends_cons.1 hpr).1
  unfold insertsHere
  split
  · exact isBeforeRange_iff hm ha hr
  · rename_i hne
    have hpos : i.toNat ≠ 0 := fun hz => hne (UInt32.toNat_inj.1 hz)
    have hprev : (i - 1).toNat < pre.length := by
      have hone : (1 : UInt32) ≤ i := UInt32.le_iff_toNat_le.2 (by simpa [Nat.one_le_iff_ne_zero] using hpos)
      rw [UInt32.toNat_sub_of_le _ _ hone, UInt32.toNat_one]
      omega
    have hq : pre[(i - 1).toNat] ∈ pre := List.getElem_mem hprev
    have hbefore : isBeforeRange pre[(i - 1).toNat] a = true :=
      (isBeforeRange_iff hm (hpp _ hq) ha).2 (hpre _ hq).le
    rw [List.getElem?_append_left hprev, List.getElem?_eq_getElem hprev, Option.any_some, hbefore, Bool.true_and]
    exact isBeforeRange_iff hm ha hr

theorem addLoop_stop (h : f a.stop < f r.start) :
    addLoop (fuel + 1) (pre ++ r :: rest) a i = (pre ++ r :: rest, a, i) := by
  rw [round_cases hm hp ha hal hrl hi, if_neg fun hn => hn.1 h,
    if_pos ((insertsHere_iff hm hp ha hi hpre).2 h.le)]

theorem addLoop_pass (h : f r.stop < f a.start) :
    addLoop (fuel + 1) (pre ++ r :: rest) a i = addLoop fuel (pre ++ r :: rest) a (i + 1) := by
  have hnot : ¬f a.stop ≤ f r.start := not_le.2 (hrl.trans_lt (h.trans_le hal))
  rw [round_cases hm hp ha hal hrl hi, if_neg fun hn => hn.2 h,
    if_neg fun hn => hnot ((insertsHere_iff hm hp ha hi hpre).1 hn)]

end Rounds

/-! ## The loop -/

theorem toNat_succ_length (hi : i.toNat = pre.length) (hsize : (pre ++ r :: rest).length < 2 ^ 32) :
    (i + 1).toNat = (pre ++ [r]).length := by
  have hlen : pre.length + 1 < 2 ^ 32 := by
    simp only [List.length_append, List.length_cons] at hsize
    omega
  rw [UInt32.toNat_add, hi, List.length_append, List.length_singleton]
  exact Nat.mod_eq_of_lt hlen

variable [LinearOrder κ] (hm : Measures P f)

include hm

/-- **The loop of `add`**, from the index behind the ranges that end before the added one. -/
theorem addLoop_keys {fuel : Nat} (hp : Ends P (pre ++ rest)) (ha : P a.start ∧ P a.stop)
    (hal : f a.start ≤ f a.stop) (hs : Apart (keys f (pre ++ rest)))
    (hpre : ∀ q ∈ pre, f q.stop < f a.start) (hi : i.toNat = pre.length) (hfuel : rest.length ≤ fuel)
    (hsize : (pre ++ rest).length < 2 ^ 32) :
    let result := addLoop fuel (pre ++ rest) a i
    let inserted := result.1.insertIdx result.2.2.toNat result.2.1
    Ends P inserted ∧ keys f inserted = keys f pre ++ merge (a.map f) (keys f rest) := by
  induction rest generalizing pre a i fuel with
  | nil =>
    rw [List.append_nil, addLoop_end hi]
    simp only [hi, List.insertIdx_length_self]
    exact ⟨ends_append.2 ⟨(ends_append.1 hp).1, ends_cons.2 ⟨ha, ends_nil⟩⟩, by simp [keys, merge]⟩
  | cons r rest ih =>
    obtain ⟨hpp, hpr⟩ := ends_append.1 hp
    obtain ⟨hr, hprest⟩ := ends_cons.1 hpr
    obtain ⟨fuel, rfl⟩ : ∃ f, fuel = f + 1 := Nat.exists_eq_add_one.2 (Nat.lt_of_lt_of_le (Nat.succ_pos _) hfuel)
    have hrl : f r.start ≤ f r.stop := hs.le (r.map f) (by simp [keys])
    have hmerge : keys f (r :: rest) = r.map f :: keys f rest := rfl
    rw [hmerge]
    rcases lt_or_ge (f a.stop) (f r.start) with hlt | hge
    · -- the added range goes in front of `r`
      rw [addLoop_stop hm hp ha hal hrl hi hpre hlt, merge_of_lt hlt]
      simp only [hi, insertIdx_length_append]
      exact ⟨ends_append.2 ⟨hpp, ends_cons.2 ⟨ha, hpr⟩⟩, by simp [keys]⟩
    rcases lt_or_ge (f r.stop) (f a.start) with hlt | hge'
    · -- `r` is passed
      have hcons : pre ++ r :: rest = (pre ++ [r]) ++ rest := by simp
      have hpre' : ∀ q ∈ pre ++ [r], f q.stop < f a.start := fun q hq => by
        rcases List.mem_append.1 hq with hq | hq
        · exact hpre q hq
        · exact List.mem_singleton.1 hq ▸ hlt
      rw [addLoop_pass hm hp ha hal hrl hi hpre hlt, merge_of_gt (not_lt.2 hge) hlt, hcons]
      have hi' := toNat_succ_length hi hsize
      rw [hcons] at hp hs hsize
      have hih := ih hp ha hal hs hpre' hi' (Nat.le_of_succ_le_succ hfuel) hsize
      exact ⟨hih.1, hih.2.trans (by simp [keys])⟩
    · -- `r` is merged into the added range and removed
      have hsub : (pre ++ rest).Sublist (pre ++ r :: rest) := (List.sublist_cons_self r rest).append_left pre
      have hu := map_union hm ha hr
      have hul : f (unionWithOverlappingOrContiguousRange a r).start ≤
          f (unionWithOverlappingOrContiguousRange a r).stop := by
        have := union_le (a := a.map f) (r := r.map f) hal
        rwa [← hu] at this
      have hpre' : ∀ q ∈ pre, f q.stop < f (unionWithOverlappingOrContiguousRange a r).start := fun q hq => by
        have hqr : f q.stop < f r.start := by
          have hap := hs.apart
          rw [keys, List.map_append, List.pairwise_append] at hap
          exact hap.2.2 _ (List.mem_map_of_mem hq) (r.map f) (List.mem_map_of_mem (List.mem_cons_self ..))
        exact (lt_min (hpre q hq) hqr).trans_eq (hm.apply_min ha.1 hr.1).symm
      rw [addLoop_merge hm hp ha hal hrl hi (not_lt.2 hge) (not_lt.2 hge'),
        merge_of_touch (not_lt.2 hge) (not_lt.2 hge'), ← hu]
      exact ih (ends_append.2 ⟨hpp, hprest⟩) (ends_union ha hr) hul (hs.sublist (hsub.map _)) hpre' hi
        (Nat.le_of_succ_le_succ hfuel) (Nat.lt_of_le_of_lt hsub.length_le hsize)

/-- **`add` merges the added range.** -/
theorem add_keys (hp : Ends P ranges) (hs : Apart (keys f ranges)) (hsize : ranges.length < 2 ^ 32)
    (ha : P start ∧ P stop) (hal : f start ≤ f stop) :
    Ends P (ranges.add start stop) ∧ keys f (ranges.add start stop) = merge ⟨f start, f stop⟩ (keys f ranges) := by
  have hpre : ∀ q ∈ ([] : PlatformTimeRanges), f q.stop < f start := by simp
  have hp' : Ends P ([] ++ ranges) := hp
  exact addLoop_keys (a := ⟨start, stop⟩) hm hp' ha hal hs hpre rfl (le_refl _) hsize

theorem addAll_keys {pieces : PlatformTimeRanges} (hp : Ends P ranges) (hs : Apart (keys f ranges))
    (hpp : Ends P pieces) (hle : ∀ r ∈ keys f pieces, r.start ≤ r.stop)
    (hsize : ranges.length + pieces.length < 2 ^ 32) :
    Ends P (ranges.addAll pieces) ∧ keys f (ranges.addAll pieces) = mergeAll (keys f ranges) (keys f pieces) := by
  induction pieces generalizing ranges with
  | nil => exact ⟨hp, rfl⟩
  | cons r pieces ih =>
    obtain ⟨hr, hpp⟩ := ends_cons.1 hpp
    obtain ⟨hrl, hle⟩ := List.forall_mem_cons.1 hle
    obtain ⟨hp', ht⟩ := add_keys hm hp hs (by omega) hr hrl
    have hs' : Apart (keys f (ranges.add r.start r.stop)) := ht ▸ apart_merge hrl hs
    have hlen : (ranges.add r.start r.stop).length ≤ ranges.length + 1 := by
      have := length_merge_le (a := ⟨f r.start, f r.stop⟩) (l := keys f ranges)
      rw [← ht] at this
      simpa [keys] using this
    simp only [List.length_cons] at hsize
    obtain ⟨hp'', ht'⟩ := ih hp' hs' hpp hle (by omega)
    exact ⟨hp'', ht'.trans (by rw [ht]; rfl)⟩

/-- `Same` compares the values of `f`. -/
theorem same_iff {other : PlatformTimeRanges} (hp : Ends P ranges) (hp' : Ends P other) :
    Same ranges other ↔ keys f ranges = keys f other := by
  unfold Same keys
  induction ranges generalizing other with
  | nil => cases other <;> simp
  | cons r ranges ih =>
    cases other with
    | nil => simp
    | cons q other =>
      obtain ⟨hr, hp⟩ := ends_cons.1 hp
      obtain ⟨hq, hp'⟩ := ends_cons.1 hp'
      rw [List.forall₂_cons, hm.eq_iff hr.1 hq.1, hm.eq_iff hr.2 hq.2, ih hp hp', List.map_cons, List.map_cons,
        List.cons.injEq]
      simp [Ico.map]

end PlatformTimeRanges

end WebKit.WebCore
