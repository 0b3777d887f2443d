import Mathlib.Data.Finset.Max

/-!
# The first key in a direction

A walk over the keys of a finite set goes forward or in reverse. `d.Ahead a b` says that `b` comes after `a` in the
direction `d`, and `first d s` is the key that comes before all the others. A region that is closed under going ahead
(`Region`) is what a walk has before it: going on from its first key leaves the smaller region ahead of that key
(`first_ahead_of_first`).
-/

namespace WebKit.Lib

inductive Direction
  | kForward
  | kReverse
  deriving DecidableEq, Repr

variable {K : Type*} [LinearOrder K]

namespace Direction

/-- `b` comes after `a`. -/
def Ahead : Direction → K → K → Prop
  | kForward, a, b => a < b
  | kReverse, a, b => b < a

instance (d : Direction) (a b : K) : Decidable (d.Ahead a b) :=
  match d with
  | kForward => inferInstanceAs (Decidable (a < b))
  | kReverse => inferInstanceAs (Decidable (b < a))

variable {d : Direction} {a b c : K}

theorem Ahead.trans (hab : d.Ahead a b) (hbc : d.Ahead b c) : d.Ahead a c := by
  cases d with
  | kForward => exact lt_trans hab hbc
  | kReverse => exact lt_trans hbc hab

theorem not_ahead_self : ¬ d.Ahead a a := by
  cases d <;> exact lt_irrefl a

theorem ahead_or_ahead (h : a ≠ b) : d.Ahead a b ∨ d.Ahead b a := by
  cases d with
  | kForward => exact lt_or_gt_of_ne h
  | kReverse => exact (lt_or_gt_of_ne h).symm

theorem Ahead.asymm (h : d.Ahead a b) : ¬ d.Ahead b a := fun h' => not_ahead_self (h.trans h')

end Direction

open Direction

variable {d : Direction} {s t : Finset K} {k j : K}

def least (s : Finset K) : Option K := if h : s.Nonempty then some (s.min' h) else none

def greatest (s : Finset K) : Option K := if h : s.Nonempty then some (s.max' h) else none

/-- The key that comes before all the others. -/
def first (d : Direction) (s : Finset K) : Option K :=
  match d with
  | kForward => least s
  | kReverse => greatest s

theorem first_eq_some : first d s = some k ↔ k ∈ s ∧ ∀ i ∈ s, i ≠ k → d.Ahead k i := by
  constructor
  · intro h
    cases d with
    | kForward =>
      obtain ⟨hs, hk⟩ := Option.dite_none_right_eq_some.1 (show least s = some k from h)
      obtain rfl := Option.some.inj hk
      exact ⟨s.min'_mem hs, fun i hi hne => lt_of_le_of_ne (s.min'_le i hi) hne.symm⟩
    | kReverse =>
      obtain ⟨hs, hk⟩ := Option.dite_none_right_eq_some.1 (show greatest s = some k from h)
      obtain rfl := Option.some.inj hk
      exact ⟨s.max'_mem hs, fun i hi hne => lt_of_le_of_ne (s.le_max' i hi) hne⟩
  · rintro ⟨hk, hahead⟩
    have hs : s.Nonempty := ⟨k, hk⟩
    cases d with
    | kForward =>
      refine (dif_pos hs).trans (congrArg some ?_)
      by_contra hne
      exact absurd (s.min'_le k hk) (not_le_of_gt (hahead _ (s.min'_mem hs) hne))
    | kReverse =>
      refine (dif_pos hs).trans (congrArg some ?_)
      by_contra hne
      exact absurd (s.le_max' k hk) (not_le_of_gt (hahead _ (s.max'_mem hs) hne))

theorem first_eq_none : first d s = none ↔ s = ∅ := by
  rw [← Finset.not_nonempty_iff_eq_empty]
  cases d with
  | kForward => exact ⟨fun h hs => by simp [first, least, hs] at h, fun hs => dif_neg hs⟩
  | kReverse => exact ⟨fun h hs => by simp [first, greatest, hs] at h, fun hs => dif_neg hs⟩

theorem first_mem (h : first d s = some k) : k ∈ s := (first_eq_some.1 h).1

theorem ahead_of_first (h : first d s = some k) (hj : j ∈ s) (hne : j ≠ k) : d.Ahead k j := (first_eq_some.1 h).2 j hj hne

/-- The first key that comes after `k`. -/
def firstAhead (d : Direction) (s : Finset K) (k : K) : Option K := first d (s.filter (d.Ahead k ·))

/-- What is ahead of a key of the region is in the region. -/
def Region (d : Direction) (P : K → Prop) : Prop := ∀ a b, P a → d.Ahead a b → P b

theorem region_ahead (c : K) : Region d (d.Ahead c ·) := fun _ _ h h' => h.trans h'

theorem region_le (t : K) : Region kForward (t ≤ ·) := fun _ _ h h' => h.trans (le_of_lt h')

theorem region_true : Region d fun _ : K => True := fun _ _ _ _ => trivial

variable {P : K → Prop} [DecidablePred P]

/-- If all keys of the region come after `k`, the first of them is the first one after `k`. -/
theorem firstAhead_eq_first (hP : Region d P) (hk : P k) (h : ∀ j ∈ s, P j → d.Ahead k j) :
    firstAhead d s k = first d (s.filter P) := by
  rw [firstAhead]
  congr 1
  refine Finset.filter_congr fun j hj => ⟨fun hahead => hP k j hk hahead, h j hj⟩

/-- All keys of the region come after what comes before the first of them. -/
theorem ahead_of_ahead_first (hj : first d (s.filter P) = some j) (hkj : d.Ahead k j) : ∀ i ∈ s, P i → d.Ahead k i := by
  intro i hi hPi
  by_cases hij : i = j
  · rwa [hij]
  · exact hkj.trans (ahead_of_first hj (Finset.mem_filter.2 ⟨hi, hPi⟩) hij)

theorem not_mem_region (h : first d (s.filter P) = none) : ∀ i ∈ s, ¬ P i := by
  intro i hi hPi
  have hmem : i ∈ s.filter P := Finset.mem_filter.2 ⟨hi, hPi⟩
  rw [first_eq_none.1 h] at hmem
  exact absurd hmem (Finset.notMem_empty i)

theorem first_region_mem (h : first d (s.filter P) = some k) : k ∈ s ∧ P k := Finset.mem_filter.1 (first_mem h)

/-! ## Seeking a key, and a step from there -/

theorem firstAhead_of_seek (h : first kForward (s.filter (k ≤ ·)) ≠ some k) :
    firstAhead kForward s k = first kForward (s.filter (k ≤ ·)) := by
  refine firstAhead_eq_first (region_le k) le_rfl fun j hj hkj => lt_of_le_of_ne hkj ?_
  rintro rfl
  refine h (first_eq_some.2 ⟨Finset.mem_filter.2 ⟨hj, le_rfl⟩, fun i hi hne => ?_⟩)
  exact lt_of_le_of_ne (Finset.mem_filter.1 hi).2 hne.symm

theorem firstAhead_reverse_of_seek (h : first kForward (s.filter (k ≤ ·)) = some j) :
    firstAhead kReverse s j = firstAhead kReverse s k := by
  rw [firstAhead, firstAhead]
  congr 1
  refine Finset.filter_congr fun i hi => ⟨fun hij => ?_, fun hik => hik.trans_le (first_region_mem h).2⟩
  by_contra hki
  have hmem : i ∈ s.filter (k ≤ ·) := Finset.mem_filter.2 ⟨hi, not_lt.1 hki⟩
  exact absurd (ahead_of_first h hmem (ne_of_lt hij)) (Ahead.asymm (d := kForward) hij)

/-- If all keys are before `k`, the last one of them is the last one. -/
theorem firstAhead_reverse_of_seek_none (h : first kForward (s.filter (k ≤ ·)) = none) :
    firstAhead kReverse s k = greatest s := by
  show greatest (s.filter fun i => i < k) = greatest s
  rw [Finset.filter_true_of_mem fun i hi => not_le.1 (not_mem_region h i hi)]

end WebKit.Lib
