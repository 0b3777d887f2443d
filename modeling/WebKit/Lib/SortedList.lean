import Mathlib.Data.List.Basic
import Mathlib.Data.List.InsertIdx
import Mathlib.Data.List.Pairwise

/-!
# Sorted lists

Insertion at the end of a prefix (`insertIdx_length_append`), and the steps of a binary search: a list that is sorted by
a transitive relation is split at an element, and the element bounds both parts (`pairwise_split`).

The strings that start with a given string stand together in lexicographic order (`prefix_of_between`). Among them,
those whose next element is missing or smaller come first (`Below.of_lex`), those whose next element is greater come
last (`Above.of_lex`), and those that go on with the element are in between (`prefix_append_iff`).
-/

namespace SortedList

/-! ## Insertion into sorted lists -/

variable {α : Type*} {r : α → α → Prop} {l l' : List α} {x y : α}

theorem insertIdx_length_append (l l' : List α) (x : α) : (l ++ l').insertIdx l.length x = l ++ x :: l' := by
  induction l with
  | nil => rfl
  | cons y l ih => exact congrArg (y :: ·) ih

/-- An element between two parts. -/
theorem pairwise_insert (h : (l ++ l').Pairwise r) (hl : ∀ y ∈ l, r y x) (hl' : ∀ y ∈ l', r x y) :
    (l ++ x :: l').Pairwise r := by
  rw [List.pairwise_append] at h ⊢
  refine ⟨h.1, List.pairwise_cons.2 ⟨hl', h.2.1⟩, fun y hy z hz => ?_⟩
  rcases List.mem_cons.1 hz with rfl | hz
  · exact hl y hy
  · exact h.2.2 y hy z hz

/-- The two parts around an element. -/
theorem pairwise_split (h : (l ++ x :: l').Pairwise r) : (∀ y ∈ l, r y x) ∧ ∀ y ∈ l', r x y := by
  rw [List.pairwise_append, List.pairwise_cons] at h
  exact ⟨fun y hy => h.2.2 y hy x (List.mem_cons_self ..), h.2.1.1⟩

/-- What is sorted in front of a bound of the element is in front of the bound. -/
theorem forall_lt_of_split [IsTrans α r] (h : (l ++ x :: l').Pairwise r) (hxy : r x y) : ∀ z ∈ l ++ [x], r z y := by
  intro z hz
  rcases List.mem_append.1 hz with hz | hz
  · exact Trans.trans ((pairwise_split h).1 z hz) hxy
  · exact List.mem_singleton.1 hz ▸ hxy

theorem forall_gt_of_split [IsTrans α r] (h : (l ++ x :: l').Pairwise r) (hyx : r y x) : ∀ z ∈ x :: l', r y z := by
  intro z hz
  rcases List.mem_cons.1 hz with rfl | hz
  · exact hyx
  · exact Trans.trans hyx ((pairwise_split h).2 z hz)

end SortedList

namespace WebKit.Lib

/-! ## Prefixes in lexicographic order -/

variable {α : Type} {r : α → α → Prop} [IsStrictOrder α r] {p s t u : List α} {c : α}

theorem prefix_of_between (hst : List.Lex r s t) (htu : List.Lex r t u) (hs : p <+: s) (hu : p <+: u) : p <+: t := by
  induction p generalizing s t u with
  | nil => exact List.nil_prefix
  | cons a p ih =>
    obtain ⟨s, rfl, hs'⟩ := List.cons_prefix_iff.1 hs
    obtain ⟨u, rfl, hu'⟩ := List.cons_prefix_iff.1 hu
    cases t with
    | nil => exact absurd hst List.not_lex_nil
    | cons b t =>
      rcases List.cons_lex_cons_iff.1 hst with hab | ⟨rfl, hst'⟩ <;>
        rcases List.cons_lex_cons_iff.1 htu with hba | ⟨hba, htu'⟩
      · exact absurd hba (asymm_of r hab)
      · exact absurd (hba ▸ hab) (irrefl_of r _)
      · exact absurd hba (irrefl_of r _)
      · exact List.cons_prefix_cons.2 ⟨rfl, ih hst' htu' hs' hu'⟩

theorem not_lex_of_prefix (h : p <+: t) : ¬ List.Lex r t p := by
  induction p generalizing t with
  | nil => exact List.not_lex_nil
  | cons a p ih =>
    obtain ⟨t, rfl, ht⟩ := List.cons_prefix_iff.1 h
    rw [List.cons_lex_cons_iff]
    rintro (haa | ⟨-, hlex⟩)
    · exact irrefl_of r a haa
    · exact ih ht hlex

variable (r)

/-- The element of `t` at `n`, if there is one, is below `c`. -/
def Below (t : List α) (n : Nat) (c : α) : Prop := ∀ x, t[n]? = some x → r x c

/-- `t` has an element at `n`, and it is above `c`. -/
def Above (t : List α) (n : Nat) (c : α) : Prop := ∃ x, t[n]? = some x ∧ r c x

variable {r}

/-- Behind a common prefix, what comes first has the smaller element. -/
theorem getElem?_of_lex (hst : List.Lex r s t) (hs : p <+: s) (ht : p <+: t) :
    s[p.length]? = none ∨ ∃ x y, s[p.length]? = some x ∧ t[p.length]? = some y ∧ (x = y ∨ r x y) := by
  induction p generalizing s t with
  | nil =>
    cases s with
    | nil => exact Or.inl rfl
    | cons x s =>
      cases t with
      | nil => exact absurd hst List.not_lex_nil
      | cons y t =>
        refine Or.inr ⟨x, y, rfl, rfl, ?_⟩
        rcases List.cons_lex_cons_iff.1 hst with hxy | ⟨hxy, -⟩
        · exact Or.inr hxy
        · exact Or.inl hxy
  | cons a p ih =>
    obtain ⟨s, rfl, hs'⟩ := List.cons_prefix_iff.1 hs
    obtain ⟨t, rfl, ht'⟩ := List.cons_prefix_iff.1 ht
    rcases List.cons_lex_cons_iff.1 hst with haa | ⟨-, hst'⟩
    · exact absurd haa (irrefl_of r a)
    · exact ih hst' hs' ht'

theorem Below.of_lex (h : Below r t p.length c) (hst : List.Lex r s t) (hs : p <+: s) (ht : p <+: t) :
    Below r s p.length c := by
  intro x hx
  rcases getElem?_of_lex hst hs ht with hnone | ⟨x', y, hx', hy, hxy⟩
  · simp [hnone] at hx
  · obtain rfl : x = x' := Option.some.inj (hx.symm.trans hx')
    rcases hxy with rfl | hxy
    · exact h x hy
    · exact trans_of r hxy (h y hy)

theorem Above.of_lex (h : Above r s p.length c) (hst : List.Lex r s t) (hs : p <+: s) (ht : p <+: t) :
    Above r t p.length c := by
  obtain ⟨x, hx, hcx⟩ := h
  rcases getElem?_of_lex hst hs ht with hnone | ⟨x', y, hx', hy, hxy⟩
  · simp [hnone] at hx
  · obtain rfl : x = x' := Option.some.inj (hx.symm.trans hx')
    rcases hxy with rfl | hxy
    · exact ⟨x, hy, hcx⟩
    · exact ⟨y, hy, trans_of r hcx hxy⟩

theorem prefix_append_iff : p ++ [c] <+: t ↔ p <+: t ∧ t[p.length]? = some c := by
  induction p generalizing t with
  | nil => cases t <;> simp [eq_comm]
  | cons a p ih =>
    cases t with
    | nil => simp
    | cons b t => simp [List.cons_prefix_cons, ih, and_assoc]

end WebKit.Lib
