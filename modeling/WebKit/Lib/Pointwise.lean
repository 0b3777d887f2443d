import Mathlib.Data.List.Forall2

/-!
# Lists that are related element by element

How `List.Forall₂` goes with reading (`forall₂_getElem?`, `forall₂_iff_getElem?`), changing one element (`forall₂_set`, `forall₂_set_modify`),
adding one at the end (`forall₂_concat`) and mapping with a partial function (`exists_mapM_eq_some`,
`forall₂_of_mapM_eq_some`).
-/

namespace WebKit.Lib

open List (Forall₂)

variable {α β : Type*} {R : α → β → Prop} {l : List α} {m : List β}

theorem forall₂_getElem? (h : Forall₂ R l m) {i : Nat} {a : α} (ha : l[i]? = some a) : ∃ b, m[i]? = some b ∧ R a b := by
  induction h generalizing i with
  | nil => cases ha
  | cons hr _ ih =>
    cases i with
    | zero =>
      obtain rfl := Option.some.inj ha
      exact ⟨_, rfl, hr⟩
    | succ i => exact ih ha

/-- Lists that are as long, and whose elements are related. -/
theorem forall₂_iff_getElem? :
    Forall₂ R l m ↔ l.length = m.length ∧ ∀ (i : Nat) (a : α) (b : β), l[i]? = some a → m[i]? = some b → R a b := by
  rw [List.forall₂_iff_get]
  constructor
  · rintro ⟨hlen, h⟩
    refine ⟨hlen, ?_⟩
    intro i a b ha hb
    obtain ⟨hi, rfl⟩ := List.getElem?_eq_some_iff.1 ha
    obtain ⟨hi', rfl⟩ := List.getElem?_eq_some_iff.1 hb
    exact h i hi hi'
  · rintro ⟨hlen, h⟩
    exact ⟨hlen, fun i hi hi' => h i _ _ (List.getElem?_eq_getElem hi) (List.getElem?_eq_getElem hi')⟩

/-- One element of both lists is changed. -/
theorem forall₂_set (h : Forall₂ R l m) (i : Nat) {a : α} {b : β} (hr : R a b) : Forall₂ R (l.set i a) (m.set i b) := by
  induction h generalizing i with
  | nil => exact .nil
  | cons hr' h ih =>
    cases i with
    | zero => exact .cons hr h
    | succ i => exact .cons hr' (ih i)

theorem forall₂_set_modify (h : Forall₂ R l m) {i : Nat} {a : α} {b : β} {f : β → β} (hb : m[i]? = some b)
    (hr : R a (f b)) : Forall₂ R (l.set i a) (m.modify i f) := by
  have hset : m.modify i f = m.set i (f b) := by
    apply List.ext_getElem?
    intro j
    rw [List.getElem?_modify, List.getElem?_set]
    by_cases hij : i = j
    · subst hij
      rw [hb, if_pos rfl, if_pos (List.getElem?_eq_some_iff.1 hb).1]
      simp
    · rw [if_neg hij]
      simp [hij]
  rw [hset]
  exact forall₂_set h i hr

theorem forall₂_concat (h : Forall₂ R l m) {a : α} {b : β} (hr : R a b) : Forall₂ R (l ++ [a]) (m ++ [b]) := by
  induction h with
  | nil => exact .cons hr .nil
  | cons hr' _ ih => exact .cons hr' ih

/-- A partial function that has a value at every element, which is related to it. -/
theorem exists_mapM_eq_some {f : α → Option β} (h : ∀ a ∈ l, ∃ b, f a = some b ∧ R a b) :
    ∃ m, l.mapM f = some m ∧ Forall₂ R l m := by
  induction l with
  | nil => exact ⟨[], rfl, .nil⟩
  | cons a l ih =>
    obtain ⟨b, hb, hr⟩ := h a List.mem_cons_self
    obtain ⟨m, hm, hrs⟩ := ih fun a' ha' => h a' (List.mem_cons_of_mem _ ha')
    refine ⟨b :: m, ?_, .cons hr hrs⟩
    rw [List.mapM_cons, hb, hm]
    rfl

/-- The values of a partial function at every element. -/
theorem forall₂_of_mapM_eq_some {f : α → Option β} (h : l.mapM f = some m) : Forall₂ (fun a b => f a = some b) l m := by
  induction l generalizing m with
  | nil =>
    rw [List.mapM_nil] at h
    obtain rfl := Option.some.inj h
    exact .nil
  | cons a l ih =>
    rw [List.mapM_cons] at h
    obtain ⟨b, hb, h⟩ := Option.bind_eq_some_iff.1 h
    obtain ⟨m', hm, h⟩ := Option.bind_eq_some_iff.1 h
    obtain rfl := Option.some.inj h
    exact .cons hb (ih hm)

end WebKit.Lib
