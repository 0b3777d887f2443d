import Mathlib.Data.List.Basic

/-!
# Loops

`fold_invariant` is the rule for a loop with a counter. The others say what writing does to the elements of a vector in
list form: a write in the middle (`set_take_succ`, `set_drop`), and the elements from a place on (`drop_take_four`).

`changes f s as` runs a partial operation that says whether it changed the value, and counts. A measure that every change
lowers, and nothing raises, bounds the number of changes (`changes_le`).
-/

namespace WebKit.Lib

/-! ## Counting loops -/

section

variable {α σ : Type}

/-- What holds at the start and is kept by every iteration holds at the end. -/
theorem fold_invariant {motive : Nat → σ → Prop} {n : Nat} {f : (i : Nat) → i < n → σ → σ} {a : σ}
    (hstart : motive 0 a) (hstep : ∀ i (hi : i < n) s, motive i s → motive (i + 1) (f i hi s)) :
    motive n (Nat.fold n f a) := by
  induction n with
  | zero => exact hstart
  | succ n ih =>
    rw [Nat.fold_succ]
    exact hstep n _ _ (ih fun i hi => hstep i (by omega))

/-! ## Writing to lists -/

variable {l : List α} {i : Nat}

theorem set_take_succ (hi : i < l.length) (a : α) : (l.take (i + 1)).set i a = l.take i ++ [a] := by
  have hlength : (l.take i).length = i := by rw [List.length_take, Nat.min_eq_left (Nat.le_of_lt hi)]
  rw [List.take_succ_eq_append_getElem hi, List.set_append_right _ _ (Nat.le_of_eq hlength), hlength]
  simp

theorem set_drop (hi : i < l.length) (a : α) : (l.drop i).set 0 a = a :: l.drop (i + 1) := by
  rw [List.drop_eq_getElem_cons hi, List.set_cons_zero]

theorem drop_take_four (hi : i + 3 < l.length) : (l.drop i).take 4 = [l[i], l[i + 1], l[i + 2], l[i + 3]] := by
  have h₁ : i + 1 < l.length := by omega
  have h₂ : i + 2 < l.length := by omega
  rw [List.drop_eq_getElem_cons (by omega), List.drop_eq_getElem_cons h₁, List.drop_eq_getElem_cons h₂,
    List.drop_eq_getElem_cons hi]
  rfl

end

/-! ## How often a value changes -/

section

variable {σ α : Type*}

/-- The value after `as`, and how many of them changed it. -/
def changes (f : σ → α → Option (σ × Bool)) : σ → List α → Option (σ × Nat)
  | s, [] => some (s, 0)
  | s, a :: as => (f s a).bind fun (t, changed) => (changes f t as).map fun (t, n) => (t, changed.toNat + n)

theorem changes_le {f : σ → α → Option (σ × Bool)} {Inv : σ → Prop} {Ok : α → Prop} {μ : σ → Nat}
    (hf : ∀ s a, Inv s → Ok a → ∃ t changed, f s a = some (t, changed) ∧ Inv t ∧ μ t + changed.toNat ≤ μ s) {s : σ}
    {as : List α} (hs : Inv s) (has : ∀ a ∈ as, Ok a) :
    ∃ t n, changes f s as = some (t, n) ∧ Inv t ∧ μ t + n ≤ μ s := by
  induction as generalizing s with
  | nil => exact ⟨s, 0, rfl, hs, Nat.le_refl _⟩
  | cons a as ih =>
    obtain ⟨t, changed, ht, hinv, hle⟩ := hf s a hs (has a List.mem_cons_self)
    obtain ⟨u, n, hu, hinv', hle'⟩ := ih hinv fun b hb => has b (List.mem_cons_of_mem a hb)
    refine ⟨u, changed.toNat + n, ?_, hinv', by omega⟩
    rw [changes, ht]
    exact congrArg (Option.map _) hu

end

end WebKit.Lib
