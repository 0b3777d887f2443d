import Mathlib.Order.BoundedOrder.Basic
import Mathlib.Order.Lattice
import Mathlib.Data.List.Pairwise

/-!
# Sets of half-open intervals

Lists of intervals `[start, stop)` over a linear order. A list is `Separated` if its intervals are not empty, in order,
and neither overlap nor touch; such a list is determined by the points that it covers (`Separated.eq_of_covers`).
`merge` merges an interval into a list (`covers_merge`, `separated_merge`). In a bounded order, the `holes` of a list
are the intervals of the points that it does not cover (`covers_holes`), and `complement` inserts them one after the
other; it is its own inverse (`complement_complement`). Intervals that are `Apart` may be empty; merging a list into
another one gives the merged list just if the other one is inside it (`mergeAll_eq_iff`).
-/

namespace HalfOpen

/-- The interval `[start, stop)`. -/
@[ext] structure Ico (α : Type*) where
  start : α
  stop : α
  deriving DecidableEq, Repr

def Ico.map {α β : Type*} (f : α → β) (r : Ico α) : Ico β := ⟨f r.start, f r.stop⟩

section Insert

variable {α : Type*} [LinearOrder α]

def Ico.Contains (r : Ico α) (x : α) : Prop := r.start ≤ x ∧ x < r.stop

/-- Some interval of the list contains the point. -/
def Covers (l : List (Ico α)) (x : α) : Prop := ∃ r ∈ l, r.Contains x

/-- The intervals are not empty, in order, and neither overlap nor touch. -/
structure Separated (l : List (Ico α)) : Prop where
  lt : ∀ r ∈ l, r.start < r.stop
  apart : l.Pairwise fun r s => r.stop < s.start

/-- The interval from the first start to the last end. -/
def Ico.union (a r : Ico α) : Ico α := ⟨min a.start r.start, max a.stop r.stop⟩

/-- Merge an interval into a list. -/
@[grind =] def merge (a : Ico α) : List (Ico α) → List (Ico α)
  | [] => [a]
  | r :: l =>
    if a.stop < r.start then a :: r :: l
    else if r.stop < a.start then r :: merge a l
    else merge (a.union r) l

variable {a r : Ico α} {l l' : List (Ico α)} {x b : α}

theorem covers_cons : Covers (r :: l) x ↔ r.Contains x ∨ Covers l x := by simp [Covers]

theorem not_covers_nil : ¬Covers [] x := by simp [Covers]

theorem separated_nil : Separated ([] : List (Ico α)) := ⟨by simp, .nil⟩

theorem separated_cons : Separated (r :: l) ↔ r.start < r.stop ∧ (∀ s ∈ l, r.stop < s.start) ∧ Separated l := by
  constructor
  · rintro ⟨hlt, hap⟩
    obtain ⟨h₁, h₂⟩ := List.pairwise_cons.1 hap
    exact ⟨hlt r (List.mem_cons_self ..), h₁, fun s hs => hlt s (List.mem_cons_of_mem _ hs), h₂⟩
  · rintro ⟨hr, h₁, h₂⟩
    refine ⟨fun s hs => ?_, List.pairwise_cons.2 ⟨h₁, h₂.apart⟩⟩
    rcases List.mem_cons.1 hs with rfl | hs
    · exact hr
    · exact h₂.lt s hs

/-- Two intervals that overlap or touch. -/
theorem contains_union (h₁ : r.start ≤ a.stop) (h₂ : a.start ≤ r.stop) : (a.union r).Contains x ↔ a.Contains x ∨ r.Contains x := by
  unfold Ico.union Ico.Contains
  simp only [inf_le_iff, lt_sup_iff]
  constructor
  · rintro ⟨h₃ | h₃, h₄ | h₄⟩
    · exact .inl ⟨h₃, h₄⟩
    · rcases lt_or_ge x a.stop with h₅ | h₅
      · exact .inl ⟨h₃, h₅⟩
      · exact .inr ⟨h₁.trans h₅, h₄⟩
    · rcases lt_or_ge x r.stop with h₅ | h₅
      · exact .inr ⟨h₃, h₅⟩
      · exact .inl ⟨h₂.trans h₅, h₄⟩
    · exact .inr ⟨h₃, h₄⟩
  · rintro (⟨h₃, h₄⟩ | ⟨h₃, h₄⟩)
    · exact ⟨.inl h₃, .inl h₄⟩
    · exact ⟨.inr h₃, .inr h₄⟩

theorem union_lt (ha : a.start < a.stop) : (a.union r).start < (a.union r).stop :=
  (min_le_left _ _).trans_lt (ha.trans_le (le_max_left _ _))

/-- **`merge` covers the points of the interval and of the list.** -/
theorem covers_merge (ha : a.start < a.stop) (h : Separated l) :
    Covers (merge a l) x ↔ a.Contains x ∨ Covers l x := by
  induction l generalizing a with
  | nil => exact covers_cons
  | cons r l ih =>
    obtain ⟨hr, -, hl⟩ := separated_cons.1 h
    unfold merge
    split
    · rw [covers_cons]
    · split
      · rw [covers_cons, covers_cons, ih ha hl, or_left_comm]
      · rename_i h₁ h₂
        rw [covers_cons, ih (union_lt ha) hl, contains_union (not_lt.1 h₁) (not_lt.1 h₂), or_assoc]

theorem merge_of_lt (h : a.stop < r.start) : merge a (r :: l) = a :: r :: l := by rw [merge, if_pos h]

theorem merge_of_gt (h : ¬a.stop < r.start) (h' : r.stop < a.start) : merge a (r :: l) = r :: merge a l := by
  rw [merge, if_neg h, if_pos h']

theorem merge_of_touch (h : ¬a.stop < r.start) (h' : ¬r.stop < a.start) :
    merge a (r :: l) = merge (a.union r) l := by rw [merge, if_neg h, if_neg h']

/-- An interval in front of the list. -/
theorem merge_of_forall_lt (h : ∀ s ∈ l, a.stop < s.start) : merge a l = a :: l := by
  cases l with
  | nil => rfl
  | cons r l => exact merge_of_lt (h r (List.mem_cons_self ..))

theorem lt_start_merge (ha : b < a.start) (hl : ∀ s ∈ l, b < s.start) : ∀ s ∈ merge a l, b < s.start := by
  induction l generalizing a with
  | nil => simpa [merge] using ha
  | cons r l ih =>
    rw [List.forall_mem_cons] at hl
    unfold merge
    split
    · rw [List.forall_mem_cons, List.forall_mem_cons]
      exact ⟨ha, hl⟩
    · split
      · rw [List.forall_mem_cons]
        exact ⟨hl.1, ih ha hl.2⟩
      · exact ih (lt_min ha hl.1) hl.2

/-- **`merge` keeps a list separated.** -/
theorem separated_merge (ha : a.start < a.stop) (h : Separated l) : Separated (merge a l) := by
  induction l generalizing a with
  | nil => exact separated_cons.2 ⟨ha, by simp, separated_nil⟩
  | cons r l ih =>
    obtain ⟨hr, hrl, hl⟩ := separated_cons.1 h
    unfold merge
    split
    · rename_i hlt
      refine separated_cons.2 ⟨ha, ?_, h⟩
      rw [List.forall_mem_cons]
      exact ⟨hlt, fun s hs => hlt.trans (hr.trans (hrl s hs))⟩
    · split
      · rename_i hlt
        exact separated_cons.2 ⟨hr, lt_start_merge hlt hrl, ih ha hl⟩
      · exact ih (union_lt ha) hl

theorem length_merge_le : (merge a l).length ≤ l.length + 1 := by
  induction l generalizing a with
  | nil => exact le_refl _
  | cons r l ih =>
    unfold merge
    split
    · exact le_refl _
    · split
      · exact Nat.succ_le_succ ih
      · exact ih.trans (Nat.le_succ _)

/-! ## Canonical form -/

theorem Separated.start_le (h : Separated (r :: l)) (hx : Covers (r :: l) x) : r.start ≤ x := by
  obtain ⟨hr, hrl, -⟩ := separated_cons.1 h
  rcases covers_cons.1 hx with hx | ⟨s, hs, hx⟩
  · exact hx.1
  · exact (hr.trans (hrl s hs)).le.trans hx.1

theorem Separated.not_covers_stop (h : Separated (r :: l)) : ¬Covers (r :: l) r.stop := by
  obtain ⟨-, hrl, -⟩ := separated_cons.1 h
  intro hx
  rcases covers_cons.1 hx with hx | ⟨s, hs, hx⟩
  · exact lt_irrefl _ hx.2
  · exact absurd (hrl s hs) (not_lt.2 hx.1)

theorem Separated.covers_start (h : Separated (r :: l)) : Covers (r :: l) r.start :=
  covers_cons.2 (.inl ⟨le_refl _, (separated_cons.1 h).1⟩)

/-- The points of the tail are those beyond the first interval. -/
theorem Separated.covers_tail (h : Separated (r :: l)) : Covers l x ↔ Covers (r :: l) x ∧ r.stop ≤ x := by
  obtain ⟨-, hrl, -⟩ := separated_cons.1 h
  constructor
  · rintro ⟨s, hs, hx⟩
    exact ⟨covers_cons.2 (.inr ⟨s, hs, hx⟩), (hrl s hs).le.trans hx.1⟩
  · rintro ⟨hx, hle⟩
    rcases covers_cons.1 hx with hx | hx
    · exact absurd hx.2 (not_lt.2 hle)
    · exact hx

theorem Separated.stop_le {r r' : Ico α} {l l' : List (Ico α)} (h' : Separated (r' :: l'))
    (hstart : r.start = r'.start) (hc : ∀ x, Covers (r :: l) x ↔ Covers (r' :: l') x) : r.stop ≤ r'.stop := by
  refine not_lt.1 fun hlt => h'.not_covers_stop ((hc _).1 (covers_cons.2 (.inl ⟨?_, hlt⟩)))
  rw [hstart]
  exact (separated_cons.1 h').1.le

/-- **A separated list is determined by the points that it covers.** -/
theorem Separated.eq_of_covers (h : Separated l) (h' : Separated l') (hc : ∀ x, Covers l x ↔ Covers l' x) : l = l' := by
  induction l generalizing l' with
  | nil =>
    cases l' with
    | nil => rfl
    | cons r' l' => exact absurd ((hc _).2 h'.covers_start) not_covers_nil
  | cons r l ih =>
    cases l' with
    | nil => exact absurd ((hc _).1 h.covers_start) not_covers_nil
    | cons r' l' =>
      have hstart : r.start = r'.start :=
        le_antisymm (h.start_le ((hc _).2 h'.covers_start)) (h'.start_le ((hc _).1 h.covers_start))
      have hstop : r.stop = r'.stop :=
        le_antisymm (h'.stop_le hstart hc) (h.stop_le hstart.symm fun x => (hc x).symm)
      have htail : l = l' := by
        refine ih (separated_cons.1 h).2.2 (separated_cons.1 h').2.2 fun x => ?_
        rw [h.covers_tail, h'.covers_tail, hc, hstop]
      rw [Ico.ext hstart hstop, htail]

/-! ## Several intervals -/

/-- Insert the intervals of a list one after the other. -/
def mergeAll (l : List (Ico α)) (pieces : List (Ico α)) : List (Ico α) := pieces.foldl (fun l r => merge r l) l

variable {pieces : List (Ico α)}

theorem separated_mergeAll (hp : ∀ r ∈ pieces, r.start < r.stop) (h : Separated l) : Separated (mergeAll l pieces) := by
  induction pieces generalizing l with
  | nil => exact h
  | cons r pieces ih =>
    rw [List.forall_mem_cons] at hp
    exact ih hp.2 (separated_merge hp.1 h)

theorem covers_mergeAll (hp : ∀ r ∈ pieces, r.start < r.stop) (h : Separated l) :
    Covers (mergeAll l pieces) x ↔ Covers l x ∨ Covers pieces x := by
  induction pieces generalizing l with
  | nil => exact (or_iff_left not_covers_nil).symm
  | cons r pieces ih =>
    rw [List.forall_mem_cons] at hp
    refine (ih hp.2 (separated_merge hp.1 h)).trans ?_
    rw [covers_merge hp.1 h, covers_cons, or_assoc, or_left_comm]

theorem length_mergeAll_le : (mergeAll l pieces).length ≤ l.length + pieces.length := by
  induction pieces generalizing l with
  | nil => exact le_refl _
  | cons r pieces ih =>
    refine ih.trans ?_
    have := length_merge_le (a := r) (l := l)
    simp only [List.length_cons]
    omega

theorem mergeAll_nil (h : Separated l) : mergeAll [] l = l := by
  refine (separated_mergeAll h.lt separated_nil).eq_of_covers h fun x => ?_
  rw [covers_mergeAll h.lt separated_nil, or_iff_right not_covers_nil]

/-! ## Lists with empty intervals -/

/-- The intervals are in order and neither overlap nor touch; an interval may be empty. -/
structure Apart (l : List (Ico α)) : Prop where
  le : ∀ r ∈ l, r.start ≤ r.stop
  apart : l.Pairwise fun r s => r.stop < s.start

/-- `r` is a part of `q`. -/
def Ico.Within (r q : Ico α) : Prop := q.start ≤ r.start ∧ r.stop ≤ q.stop

/-- `r` is a part of an interval of the list. -/
def Inside (l : List (Ico α)) (r : Ico α) : Prop := ∃ q ∈ l, r.Within q

variable {p q : Ico α}

theorem Separated.toApart (h : Separated l) : Apart l := ⟨fun r hr => (h.lt r hr).le, h.apart⟩

theorem apart_nil : Apart ([] : List (Ico α)) := ⟨by simp, .nil⟩

theorem apart_cons : Apart (r :: l) ↔ r.start ≤ r.stop ∧ (∀ s ∈ l, r.stop < s.start) ∧ Apart l := by
  constructor
  · rintro ⟨hle, hap⟩
    obtain ⟨h₁, h₂⟩ := List.pairwise_cons.1 hap
    exact ⟨hle r (List.mem_cons_self ..), h₁, fun s hs => hle s (List.mem_cons_of_mem _ hs), h₂⟩
  · rintro ⟨hr, h₁, h₂⟩
    refine ⟨fun s hs => ?_, List.pairwise_cons.2 ⟨h₁, h₂.apart⟩⟩
    rcases List.mem_cons.1 hs with rfl | hs
    · exact hr
    · exact h₂.le s hs

theorem Apart.sublist (h : Apart l) (hs : l'.Sublist l) : Apart l' :=
  ⟨fun r hr => h.le r (hs.mem hr), h.apart.sublist hs⟩

theorem Apart.before_or (h : Apart l) (hp : p ∈ l) (hq : q ∈ l) : p = q ∨ p.stop < q.start ∨ q.stop < p.start := by
  induction l with
  | nil => cases hp
  | cons r l ih =>
    obtain ⟨-, hrl, hl⟩ := apart_cons.1 h
    rcases List.mem_cons.1 hp with hpr | hp <;> rcases List.mem_cons.1 hq with hqr | hq
    · exact .inl (hpr.trans hqr.symm)
    · exact .inr (.inl (hpr ▸ hrl q hq))
    · exact .inr (.inr (hqr ▸ hrl p hp))
    · exact ih hl hp hq

theorem union_le (ha : a.start ≤ a.stop) : (a.union r).start ≤ (a.union r).stop :=
  (min_le_left _ _).trans (ha.trans (le_max_left _ _))

theorem Ico.Within.refl (r : Ico α) : r.Within r := ⟨le_refl _, le_refl _⟩

theorem Ico.Within.trans (h : p.Within q) (h' : q.Within r) : p.Within r := ⟨h'.1.trans h.1, h.2.trans h'.2⟩

theorem Ico.Within.antisymm (h : p.Within q) (h' : q.Within p) : p = q :=
  Ico.ext (le_antisymm h'.1 h.1) (le_antisymm h.2 h'.2)

theorem within_union_left : a.Within (a.union r) := ⟨min_le_left _ _, le_max_left _ _⟩

theorem within_union_right : r.Within (a.union r) := ⟨min_le_right _ _, le_max_right _ _⟩

theorem inside_cons : Inside (r :: l) q ↔ q.Within r ∨ Inside l q := by simp [Inside]

theorem inside_of_mem (h : r ∈ l) : Inside l r := ⟨r, h, .refl r⟩

theorem apart_merge (ha : a.start ≤ a.stop) (h : Apart l) : Apart (merge a l) := by
  induction l generalizing a with
  | nil => exact apart_cons.2 ⟨ha, by simp, apart_nil⟩
  | cons r l ih =>
    obtain ⟨hr, hrl, hl⟩ := apart_cons.1 h
    unfold merge
    split
    · rename_i hlt
      refine apart_cons.2 ⟨ha, ?_, h⟩
      rw [List.forall_mem_cons]
      exact ⟨hlt, fun s hs => hlt.trans_le (hr.trans (hrl s hs).le)⟩
    · split
      · rename_i hlt
        exact apart_cons.2 ⟨hr, lt_start_merge hlt hrl, ih ha hl⟩
      · exact ih (union_le ha) hl

theorem inside_merge (h : q.Within a ∨ Inside l q) : Inside (merge a l) q := by
  induction l generalizing a with
  | nil => simpa [merge, Inside] using h
  | cons r l ih =>
    rw [inside_cons] at h
    unfold merge
    split
    · rw [inside_cons, inside_cons]
      exact h
    · split
      · rw [inside_cons]
        rcases h with h | h | h
        · exact .inr (ih (.inl h))
        · exact .inl h
        · exact .inr (ih (.inr h))
      · rcases h with h | h | h
        · exact ih (.inl (h.trans within_union_left))
        · exact ih (.inl (h.trans within_union_right))
        · exact ih (.inr h)

variable {b : List (Ico α)}

/-- Parts that overlap or touch are parts of one interval. -/
theorem Apart.inside_union (hb : Apart b) (ha : Inside b a) (hr : Inside b r) (h₁ : r.start ≤ a.stop)
    (h₂ : a.start ≤ r.stop) : Inside b (a.union r) := by
  obtain ⟨p, hp, hap⟩ := ha
  obtain ⟨q, hq, hrq⟩ := hr
  rcases hb.before_or hp hq with rfl | h | h
  · exact ⟨p, hp, le_min hap.1 hrq.1, max_le hap.2 hrq.2⟩
  · exact absurd (hap.2.trans_lt (h.trans_le hrq.1)) (not_lt.2 h₁)
  · exact absurd (hrq.2.trans_lt (h.trans_le hap.1)) (not_lt.2 h₂)

/-- Merging a part of a list into parts of it gives parts of it. -/
theorem Apart.inside_of_merge (hb : Apart b) (ha : Inside b a) (hl : ∀ r ∈ l, Inside b r) :
    ∀ r ∈ merge a l, Inside b r := by
  induction l generalizing a with
  | nil => simpa [merge] using ha
  | cons r l ih =>
    rw [List.forall_mem_cons] at hl
    unfold merge
    split
    · rw [List.forall_mem_cons, List.forall_mem_cons]
      exact ⟨ha, hl⟩
    · rename_i h₁
      split
      · rw [List.forall_mem_cons]
        exact ⟨hl.1, ih ha hl.2⟩
      · rename_i h₂
        exact ih (hb.inside_union ha hl.1 (not_lt.1 h₁) (not_lt.1 h₂)) hl.2

/-- The first interval of a list that is inside another one begins behind the first of that. -/
theorem Apart.start_le (h : Apart (r :: l)) (hin : Inside (r :: l) q) : r.start ≤ q.start := by
  obtain ⟨hr, hrl, -⟩ := apart_cons.1 h
  obtain ⟨s, hs, hqs⟩ := hin
  rcases List.mem_cons.1 hs with rfl | hs
  · exact hqs.1
  · exact hr.trans ((hrl s hs).le.trans hqs.1)

/-- A part that begins where the first interval does is a part of the first interval. -/
theorem Apart.within_first (h : Apart (r :: l)) (hin : Inside (r :: l) q) (hstart : q.start ≤ r.start) : q.Within r := by
  obtain ⟨hr, hrl, -⟩ := apart_cons.1 h
  obtain ⟨s, hs, hqs⟩ := hin
  rcases List.mem_cons.1 hs with rfl | hs
  · exact hqs
  · exact absurd ((hr.trans_lt (hrl s hs)).trans_le (hqs.1.trans hstart)) (lt_irrefl _)

/-- A part that begins behind the first interval is inside the others. -/
theorem Apart.inside_tail (hin : Inside (r :: l) q) (hq : q.start ≤ q.stop) (hlt : r.stop < q.start) : Inside l q := by
  rcases inside_cons.1 hin with h | h
  · exact absurd (hlt.trans_le (hq.trans h.2)) (lt_irrefl _)
  · exact h

/-- **Lists that are inside each other are equal.** -/
theorem Apart.eq_of_inside (hl : Apart l) (hb : Apart b) (hlb : ∀ r ∈ l, Inside b r) (hbl : ∀ r ∈ b, Inside l r) :
    l = b := by
  induction l generalizing b with
  | nil =>
    cases b with
    | nil => rfl
    | cons q b => simpa [Inside] using hbl q (List.mem_cons_self ..)
  | cons r l ih =>
    cases b with
    | nil => simpa [Inside] using hlb r (List.mem_cons_self ..)
    | cons q b =>
      have hr := hlb r (List.mem_cons_self ..)
      have hq := hbl q (List.mem_cons_self ..)
      have hrq : r = q := (hb.within_first hr (hl.start_le hq)).antisymm (hl.within_first hq (hb.start_le hr))
      subst hrq
      obtain ⟨-, hrl, hl'⟩ := apart_cons.1 hl
      obtain ⟨-, hrb, hb'⟩ := apart_cons.1 hb
      rw [ih hl' hb' (fun s hs => ?_) (fun s hs => ?_)]
      · exact Apart.inside_tail (hlb s (List.mem_cons_of_mem _ hs)) (hl'.le s hs) (hrl s hs)
      · exact Apart.inside_tail (hbl s (List.mem_cons_of_mem _ hs)) (hb'.le s hs) (hrb s hs)

theorem apart_mergeAll (hp : ∀ r ∈ pieces, r.start ≤ r.stop) (h : Apart l) : Apart (mergeAll l pieces) := by
  induction pieces generalizing l with
  | nil => exact h
  | cons r pieces ih =>
    rw [List.forall_mem_cons] at hp
    exact ih hp.2 (apart_merge hp.1 h)

theorem inside_mergeAll (h : Inside l q ∨ Inside pieces q) : Inside (mergeAll l pieces) q := by
  induction pieces generalizing l with
  | nil => simpa [Inside, mergeAll] using h
  | cons r pieces ih =>
    rw [inside_cons] at h
    rcases h with h | h | h
    · exact ih (.inl (inside_merge (.inr h)))
    · exact ih (.inl (inside_merge (.inl h)))
    · exact ih (.inr h)

theorem Apart.inside_of_mergeAll (hb : Apart b) (hp : ∀ r ∈ pieces, Inside b r) (hl : ∀ r ∈ l, Inside b r) :
    ∀ r ∈ mergeAll l pieces, Inside b r := by
  induction pieces generalizing l with
  | nil => exact hl
  | cons r pieces ih =>
    rw [List.forall_mem_cons] at hp
    exact ih hp.2 (hb.inside_of_merge hp.1 hl)

/-- **Merging all intervals of `b` into `l` gives `b` just if `l` is inside `b`.** -/
theorem mergeAll_eq_iff (hl : Apart l) (hb : Apart b) : mergeAll l b = b ↔ ∀ r ∈ l, Inside b r := by
  constructor
  · intro h r hr
    have hin : Inside (mergeAll l b) r := inside_mergeAll (.inl (inside_of_mem hr))
    rwa [h] at hin
  · intro h
    have hbb : ∀ r ∈ b, Inside b r := fun r hr => inside_of_mem hr
    exact (apart_mergeAll hb.le hl).eq_of_inside hb (hb.inside_of_mergeAll hbb h)
      fun r hr => inside_mergeAll (.inr (inside_of_mem hr))

end Insert

/-! ## Complements -/

section Complement

variable {α : Type*}

/-- The intervals between consecutive intervals. -/
def gaps (l : List (Ico α)) : List (Ico α) := (l.zip l.tail).map fun p => ⟨p.1.stop, p.2.start⟩

theorem gaps_cons_cons {r s : Ico α} {l : List (Ico α)} : gaps (r :: s :: l) = ⟨r.stop, s.start⟩ :: gaps (s :: l) := rfl

theorem length_gaps_le {l : List (Ico α)} : (gaps l).length ≤ l.length := by
  unfold gaps
  rw [List.length_map, List.length_zip]
  exact Nat.min_le_left _ _

variable [LinearOrder α]

variable {r : Ico α} {l : List (Ico α)} {x : α}

theorem gaps_lt (h : Separated l) : ∀ s ∈ gaps l, s.start < s.stop := by
  induction l with
  | nil => simp [gaps]
  | cons r l ih =>
    obtain ⟨-, hrl, hl⟩ := separated_cons.1 h
    cases l with
    | nil => simp [gaps]
    | cons s l =>
      rw [gaps_cons_cons, List.forall_mem_cons]
      exact ⟨hrl s (List.mem_cons_self ..), ih hl⟩

/-- A point is in an interval, before the first, between two, or behind the last. -/
theorem not_covers_iff (h : Separated (r :: l)) : ¬Covers (r :: l) x ↔
    x < r.start ∨ Covers (gaps (r :: l)) x ∨ ((r :: l).getLast (List.cons_ne_nil _ _)).stop ≤ x := by
  induction l generalizing r with
  | nil =>
    simp only [covers_cons, not_covers_nil, or_false, gaps, List.tail_cons, List.zip_nil_right, List.map_nil, false_or,
      List.getLast_singleton, Ico.Contains, not_and_or, not_le, not_lt]
  | cons s l ih =>
    obtain ⟨hr, hrl, hl⟩ := separated_cons.1 h
    have hrs : r.stop < s.start := hrl s (List.mem_cons_self ..)
    rw [covers_cons, not_or, ih hl, gaps_cons_cons, covers_cons, List.getLast_cons (List.cons_ne_nil _ _)]
    have hgap : ∀ {y}, r.stop ≤ y → ¬r.Contains y := fun hy hc => absurd hc.2 (not_lt.2 hy)
    -- the ends of the other intervals are behind this one
    have hend : ∀ t ∈ s :: l, r.stop ≤ t.stop := fun t ht => (hrl t ht).le.trans (hl.lt t ht).le
    have hfar : Covers (gaps (s :: l)) x ∨ ((s :: l).getLast (List.cons_ne_nil _ _)).stop ≤ x → r.stop ≤ x := by
      rintro (⟨g, hg, hx⟩ | hx)
      · obtain ⟨p, hp, rfl⟩ := List.mem_map.1 hg
        exact (hend _ (List.of_mem_zip hp).1).trans hx.1
      · exact (hend _ (List.getLast_mem _)).trans hx
    constructor
    · rintro ⟨hnr, hx | hx⟩
      · rcases lt_or_ge x r.start with hlt | hge
        · exact .inl hlt
        · refine .inr (.inl (.inl ⟨?_, hx⟩))
          exact not_lt.1 fun hlt => hnr ⟨hge, hlt⟩
      · rcases hx with hx | hx
        · exact .inr (.inl (.inr hx))
        · exact .inr (.inr hx)
    · rintro (hx | (hx | hx) | hx)
      · exact ⟨fun hc => absurd hc.1 (not_le.2 hx), .inl (hx.trans (hr.trans hrs))⟩
      · exact ⟨hgap hx.1, .inl hx.2⟩
      · exact ⟨hgap (hfar (.inl hx)), .inr (.inl hx)⟩
      · exact ⟨hgap (hfar (.inr hx)), .inr (.inr hx)⟩

theorem covers_append {l l' : List (Ico α)} : Covers (l ++ l') x ↔ Covers l x ∨ Covers l' x := by
  simp [Covers, or_and_right, exists_or]

theorem covers_ite {p : Prop} [Decidable p] {s : Ico α} : Covers (if p then [s] else []) x ↔ p ∧ s.Contains x := by
  split <;> simp [Covers, *]

variable [BoundedOrder α]

/-- The intervals of the points below `⊤` that are not covered. -/
def holes (l : List (Ico α)) : List (Ico α) :=
  match l with
  | [] => [⟨⊥, ⊤⟩]
  | r :: l =>
    (if r.start ≠ ⊥ then [⟨⊥, r.start⟩] else []) ++ gaps (r :: l) ++
      if ((r :: l).getLast (List.cons_ne_nil _ _)).stop ≠ ⊤ then
        [⟨((r :: l).getLast (List.cons_ne_nil _ _)).stop, ⊤⟩] else []

/-- **The holes are what is not covered.** -/
theorem covers_holes (h : Separated l) : Covers (holes l) x ↔ x < ⊤ ∧ ¬Covers l x := by
  cases l with
  | nil => simp [holes, Covers, Ico.Contains]
  | cons r l =>
    have hstop : ∀ s ∈ r :: l, ∀ y, s.Contains y → y < ⊤ := fun s _ y hy => hy.2.trans_le le_top
    unfold holes
    rw [covers_append, covers_append, covers_ite, covers_ite, not_covers_iff h]
    constructor
    · rintro ((⟨-, hx⟩ | ⟨s, hs, hx⟩) | ⟨-, hx⟩)
      · exact ⟨hx.2.trans_le le_top, .inl hx.2⟩
      · exact ⟨hx.2.trans_le le_top, .inr (.inl ⟨s, hs, hx⟩)⟩
      · exact ⟨hx.2, .inr (.inr hx.1)⟩
    · rintro ⟨htop, hx | hx | hx⟩
      · exact .inl (.inl ⟨fun he => absurd (he ▸ hx) not_lt_bot, bot_le, hx⟩)
      · exact .inl (.inr hx)
      · exact .inr ⟨fun he => absurd (he ▸ hx) (not_le.2 htop), hx, htop⟩

theorem holes_lt (h : Separated l) (htop : (⊥ : α) < ⊤) : ∀ s ∈ holes l, s.start < s.stop := by
  cases l with
  | nil => simpa [holes] using htop
  | cons r l =>
    intro s hs
    simp only [holes, List.mem_append] at hs
    rcases hs with (hs | hs) | hs
    · split at hs
      · rename_i hne
        obtain rfl := List.mem_singleton.1 hs
        exact bot_lt_iff_ne_bot.2 hne
      · cases hs
    · exact gaps_lt h s hs
    · split at hs
      · rename_i hne
        obtain rfl := List.mem_singleton.1 hs
        exact lt_top_iff_ne_top.2 hne
      · cases hs

theorem length_holes_le : (holes l).length ≤ l.length + 2 := by
  cases l with
  | nil => simp [holes]
  | cons r l =>
    have := length_gaps_le (l := r :: l)
    unfold holes
    simp only [List.length_append]
    split <;> split <;> simp only [List.length_cons, List.length_nil] at * <;> omega

/-- The list of the points below `⊤` that are not covered. -/
def complement (l : List (Ico α)) : List (Ico α) := mergeAll [] (holes l)

variable [Nontrivial α]

theorem separated_complement (h : Separated l) : Separated (complement l) :=
  separated_mergeAll (holes_lt h bot_lt_top) separated_nil

theorem covers_complement (h : Separated l) : Covers (complement l) x ↔ x < ⊤ ∧ ¬Covers l x := by
  unfold complement
  rw [covers_mergeAll (holes_lt h bot_lt_top) separated_nil, or_iff_right not_covers_nil, covers_holes h]

/-- **Complementing twice gives the list back.** -/
theorem complement_complement (h : Separated l) : complement (complement l) = l := by
  refine (separated_complement (separated_complement h)).eq_of_covers h fun x => ?_
  rw [covers_complement (separated_complement h), covers_complement h]
  constructor
  · rintro ⟨hx, hn⟩
    exact not_not.1 fun hc => hn ⟨hx, hc⟩
  · rintro ⟨r, hr, hx⟩
    exact ⟨hx.2.trans_le le_top, fun hn => hn.2 ⟨r, hr, hx⟩⟩

theorem covers_intersection {l' : List (Ico α)} (h : Separated l) (h' : Separated l') :
    Covers (complement (mergeAll (complement l) (complement l'))) x ↔ Covers l x ∧ Covers l' x := by
  have hc := separated_complement h
  have hc' := separated_complement h'
  rw [covers_complement (separated_mergeAll hc'.lt hc), covers_mergeAll hc'.lt hc, covers_complement h,
    covers_complement h']
  constructor
  · rintro ⟨hx, hn⟩
    exact ⟨not_not.1 fun hl => hn (.inl ⟨hx, hl⟩), not_not.1 fun hl => hn (.inr ⟨hx, hl⟩)⟩
  · rintro ⟨⟨r, hr, hx⟩, hl'⟩
    refine ⟨hx.2.trans_le le_top, ?_⟩
    rintro (hn | hn)
    · exact hn.2 ⟨r, hr, hx⟩
    · exact hn.2 hl'

end Complement

end HalfOpen
