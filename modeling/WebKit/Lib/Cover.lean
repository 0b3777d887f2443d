import Mathlib.Data.List.Pairwise
import Mathlib.Algebra.BigOperators.Group.List.Basic
import Mathlib.Algebra.GroupWithZero.Nat

/-!
# Covers of addresses by spans

`cover l x` is the number of spans of the list `l` that contain the address `x`, and `total l` is the sum of their sizes.
Both are additive in the list, and cutting a span in two changes neither (`cover_cut`, `total_cut`). Spans that contain
each address at most once are pairwise disjoint (`pairwise_disjoint`). `SameCover` relates lists that agree in both.
-/

namespace Cover

/-- The addresses from `start` to `start + size`. -/
@[ext] structure Span where
  start : Nat
  size : Nat
  deriving DecidableEq, Repr

namespace Span

def stop (s : Span) : Nat := s.start + s.size

/-- The address `x` is in the span. -/
def Contains (s : Span) (x : Nat) : Prop := s.start ≤ x ∧ x < s.stop

instance (s : Span) (x : Nat) : Decidable (s.Contains x) := inferInstanceAs (Decidable (_ ∧ _))

/-- Two spans without a common address. -/
def Disjoint (s t : Span) : Prop := ∀ x, s.Contains x → ¬t.Contains x

theorem disjoint_iff {s t : Span} : s.Disjoint t ↔ s.size = 0 ∨ t.size = 0 ∨ s.stop ≤ t.start ∨ t.stop ≤ s.start := by
  unfold Disjoint Contains stop
  constructor
  · intro h
    have h₁ := h s.start
    have h₂ := h t.start
    omega
  · intro h x
    omega

instance (s t : Span) : Decidable (s.Disjoint t) := decidable_of_iff _ disjoint_iff.symm

end Span

/-- How many spans of the list contain `x`. -/
def cover (l : List Span) (x : Nat) : Nat := l.countP fun s => s.Contains x

/-- The size of all spans of the list together. -/
def total (l : List Span) : Nat := (l.map Span.size).sum

section

variable {l l' : List Span} {s : Span} {x : Nat}

@[simp] theorem cover_nil : cover [] x = 0 := rfl

@[simp] theorem total_nil : total [] = 0 := rfl

theorem cover_cons : cover (s :: l) x = cover l x + if s.Contains x then 1 else 0 := by
  simp [cover, List.countP_cons]

@[simp] theorem total_cons : total (s :: l) = s.size + total l := by simp [total]

@[simp] theorem cover_append : cover (l ++ l') x = cover l x + cover l' x := List.countP_append

@[simp] theorem total_append : total (l ++ l') = total l + total l' := by simp [total]

theorem cover_perm (h : l.Perm l') : cover l x = cover l' x := h.countP_eq _

theorem total_perm (h : l.Perm l') : total l = total l' := (h.map _).sum_eq

theorem cover_cut {start n k : Nat} :
    (if (⟨start, n + k⟩ : Span).Contains x then 1 else 0) =
      (if (⟨start, n⟩ : Span).Contains x then 1 else 0) + if (⟨start + n, k⟩ : Span).Contains x then 1 else 0 := by
  have hor : (⟨start, n + k⟩ : Span).Contains x ↔
      (⟨start, n⟩ : Span).Contains x ∨ (⟨start + n, k⟩ : Span).Contains x := by
    simp only [Span.Contains, Span.stop]
    omega
  have hand : (⟨start, n⟩ : Span).Contains x → ¬(⟨start + n, k⟩ : Span).Contains x := by
    simp only [Span.Contains, Span.stop]
    omega
  by_cases h₁ : (⟨start, n⟩ : Span).Contains x
  · rw [if_pos (hor.2 (.inl h₁)), if_pos h₁, if_neg (hand h₁)]
  · by_cases h₂ : (⟨start + n, k⟩ : Span).Contains x
    · rw [if_pos (hor.2 (.inr h₂)), if_neg h₁, if_pos h₂]
    · rw [if_neg fun h => (hor.1 h).elim h₁ h₂, if_neg h₁, if_neg h₂]

theorem cover_pos : 0 < cover l x ↔ ∃ s ∈ l, s.Contains x := by simp [cover, List.countP_pos_iff]

theorem cover_eq_zero : cover l x = 0 ↔ ∀ s ∈ l, ¬s.Contains x := by simp [cover, List.countP_eq_zero]

/-- **Spans that contain each address at most once are disjoint.** -/
theorem pairwise_disjoint (h : ∀ x, cover l x ≤ 1) : l.Pairwise Span.Disjoint := by
  induction l with
  | nil => exact .nil
  | cons s l ih =>
    refine List.pairwise_cons.2 ⟨fun t ht x hs htx => ?_, ih fun x => ?_⟩
    · have := h x
      rw [cover_cons, if_pos hs] at this
      have := cover_pos.2 ⟨t, ht, htx⟩
      omega
    · have := h x
      rw [cover_cons] at this
      omega

theorem cover_cons_le (h : ∀ x, cover l x ≤ 1) (hs : ∀ t ∈ l, s.Disjoint t) (x : Nat) : cover (s :: l) x ≤ 1 := by
  rw [cover_cons]
  split
  · rename_i hc
    have hzero := cover_eq_zero.2 fun t ht => hs t ht x hc
    omega
  · exact h x

end

/-! ## Lists with the same cover -/

/-- The lists have the same cover and the same total size. -/
structure SameCover (l l' : List Span) : Prop where
  cover : ∀ x, cover l x = cover l' x
  total : total l = total l'

namespace SameCover

variable {l l' l'' : List Span} {s : Span}

theorem refl (l : List Span) : SameCover l l := ⟨fun _ => rfl, rfl⟩

theorem symm (h : SameCover l l') : SameCover l' l := ⟨fun x => (h.cover x).symm, h.total.symm⟩

theorem trans (h : SameCover l l') (h' : SameCover l' l'') : SameCover l l'' :=
  ⟨fun x => (h.cover x).trans (h'.cover x), h.total.trans h'.total⟩

theorem of_perm (h : l.Perm l') : SameCover l l' := ⟨fun _ => cover_perm h, total_perm h⟩

theorem cons (h : SameCover l l') : SameCover (s :: l) (s :: l') :=
  ⟨fun x => by rw [cover_cons, cover_cons, h.cover x], by rw [total_cons, total_cons, h.total]⟩

theorem append_right (h : SameCover l l') (k : List Span) : SameCover (l ++ k) (l' ++ k) :=
  ⟨fun x => by rw [cover_append, cover_append, h.cover x], by rw [total_append, total_append, h.total]⟩

theorem append_left (h : SameCover l l') (k : List Span) : SameCover (k ++ l) (k ++ l') :=
  ⟨fun x => by rw [cover_append, cover_append, h.cover x], by rw [total_append, total_append, h.total]⟩

/-- **A span is as good as its two parts.** -/
theorem cut (start n k : Nat) (l : List Span) :
    SameCover (⟨start, n + k⟩ :: l) (⟨start, n⟩ :: ⟨start + n, k⟩ :: l) := by
  refine ⟨fun x => ?_, ?_⟩
  · simp only [cover_cons]
    rw [cover_cut]
    omega
  · simp only [total_cons]
    omega

end SameCover

end Cover
