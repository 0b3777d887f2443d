import Mathlib.Logic.Basic

/-!
# Computations that may stop

`Ends allowed P r`: the computation `r` ends with a value that has `P`, or stops with an error that is allowed. The rules
follow the computation: `ends_ok`, `ends_bind`, and `Ends.imp` weakens. A computation that ends is taken apart by
`ok_of_bind`.
-/

namespace WebKit.Lib

universe u

variable {ε α β : Type u} {allowed : ε → Prop} {P : α → Prop}

/-- `r` ends with a value that has `P`, or stops with an error that is allowed. -/
def Ends (allowed : ε → Prop) (P : α → Prop) : Except ε α → Prop
  | .ok a => P a
  | .error e => allowed e

@[simp] theorem ends_ok {a : α} : Ends allowed P (.ok a : Except ε α) ↔ P a := Iff.rfl

theorem bind_ok (a : α) (f : α → Except ε β) : (.ok a : Except ε α) >>= f = f a := rfl

/-- A computation that ends has ended with a value for what is behind it. -/
theorem ok_of_bind {r : Except ε α} {f : α → Except ε β} {b : β} (h : r >>= f = .ok b) :
    ∃ a, r = .ok a ∧ f a = .ok b := by
  cases r with
  | ok a => exact ⟨a, rfl, h⟩
  | error e => cases h

theorem Ends.imp {Q : α → Prop} {r : Except ε α} (h : Ends allowed P r) (hPQ : ∀ a, P a → Q a) :
    Ends allowed Q r := by
  cases r with
  | error e => exact h
  | ok a => exact hPQ a h

/-- A computation, and then another one with its value. -/
theorem ends_bind {Q : β → Prop} {r : Except ε α} {f : α → Except ε β} (h : Ends allowed P r)
    (hf : ∀ a, P a → Ends allowed Q (f a)) : Ends allowed Q (r >>= f) := by
  cases r with
  | error e => exact h
  | ok a => exact hf a h

theorem Ends.of_ok {r : Except ε α} (h : Ends allowed P r) {a : α} (hr : r = .ok a) : P a := by
  rw [hr] at h
  exact h

theorem Ends.allowed_of_error {r : Except ε α} (h : Ends allowed P r) {e : ε} (hr : r = .error e) : allowed e := by
  rw [hr] at h
  exact h

end WebKit.Lib
