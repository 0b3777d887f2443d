import Mathlib.Algebra.Order.Ring.Nat
import Mathlib.Data.Fintype.EquivFin
import Mathlib.Data.Nat.Bitwise
import Mathlib.Data.Nat.ModEq
import Mathlib.Data.Nat.Size

/-!
# Probing a table

`smear` spreads the highest bit of a number over all bits below it, by shifts of 1, 2, 4, 8 and 16. It leaves one less
than a power of two (`smear_eq`).

The positions that double hashing looks at: `probe size start step n` is the position behind `n` steps of width `step`.
Where the step and the size have no common factor, every position is looked at (`exists_probe`), so a search that only
passes over occupied positions ends at a free one (`exists_first_free`).
-/

namespace WebKit.Lib

/-! ## The next power of two -/

section

/-- A bit is set where one of the `d` bits from it on is set in `x`. -/
def Spread (x y d : Nat) : Prop := ∀ i, y.testBit i = true ↔ ∃ j, i ≤ j ∧ j < i + d ∧ x.testBit j = true

theorem spread_one (x : Nat) : Spread x x 1 := by
  intro i
  constructor
  · intro h
    exact ⟨i, le_rfl, Nat.lt_succ_self i, h⟩
  · rintro ⟨j, hle, hlt, h⟩
    obtain rfl : j = i := by omega
    exact h

/-- A shift doubles the range. -/
theorem Spread.double {x y d : Nat} (h : Spread x y d) : Spread x (y ||| y >>> d) (2 * d) := by
  intro i
  rw [Nat.testBit_or, Nat.testBit_shiftRight, Bool.or_eq_true, h i, h (d + i)]
  constructor
  · rintro (⟨j, hle, hlt, hj⟩ | ⟨j, hle, hlt, hj⟩)
    · exact ⟨j, hle, by omega, hj⟩
    · exact ⟨j, by omega, by omega, hj⟩
  · rintro ⟨j, hle, hlt, hj⟩
    by_cases hnear : j < i + d
    · exact Or.inl ⟨j, hle, hnear, hj⟩
    · exact Or.inr ⟨j, by omega, by omega, hj⟩

/-- All bits below the highest one. -/
def smear (x : Nat) : Nat :=
  let x := x ||| x >>> 1
  let x := x ||| x >>> 2
  let x := x ||| x >>> 4
  let x := x ||| x >>> 8
  x ||| x >>> 16

/-- **Smearing leaves one less than a power of two.** -/
theorem smear_eq {x : Nat} (h : x < 2 ^ 32) : smear x = 2 ^ x.size - 1 := by
  have hspread : Spread x (smear x) 32 := (spread_one x).double.double.double.double.double
  apply Nat.eq_of_testBit_eq
  intro i
  rw [Nat.testBit_two_pow_sub_one, Bool.eq_iff_iff, hspread i, decide_eq_true_iff, Nat.lt_size]
  constructor
  · rintro ⟨j, hle, -, hj⟩
    exact (Nat.pow_le_pow_right (by decide) hle).trans (Nat.ge_two_pow_of_testBit hj)
  · intro hle
    obtain ⟨j, hij, hj⟩ := Nat.exists_ge_and_testBit_of_ge_two_pow hle
    have hlt : j < 32 := by
      have hpow := Nat.lt_of_le_of_lt (Nat.ge_two_pow_of_testBit hj) h
      exact (Nat.pow_lt_pow_iff_right (by decide)).1 hpow
    exact ⟨j, hij, by omega, hj⟩

end

/-! ## Probing a table -/

section

/-- The position that is looked at behind `n` steps. -/
def probe (size start step n : Nat) : Nat := (start + n * step) % size

section

variable {size start step : Nat}

theorem probe_lt (hsize : 0 < size) (n : Nat) : probe size start step n < size := Nat.mod_lt _ hsize

theorem probe_succ (size start step n : Nat) :
    (probe size start step n + step % size) % size = probe size start step (n + 1) := by
  rw [probe, probe, ← Nat.add_mod, Nat.add_assoc, Nat.succ_mul]

/-- No position is looked at twice. -/
theorem probe_inj (hcoprime : Nat.Coprime size step) {m n : Nat} (hm : m < size) (hn : n < size)
    (h : probe size start step m = probe size start step n) : m = n := by
  have hsteps : m * step ≡ n * step [MOD size] := Nat.ModEq.add_left_cancel' start h
  have hmod : m ≡ n [MOD size] := Nat.ModEq.cancel_right_of_coprime hcoprime hsteps
  exact Nat.ModEq.eq_of_lt_of_lt hmod hm hn

/-- **Every position is looked at.** -/
theorem exists_probe (hcoprime : Nat.Coprime size step) {position : Nat} (h : position < size) :
    ∃ n < size, probe size start step n = position := by
  have hpos : 0 < size := Nat.zero_lt_of_lt h
  let f : Fin size → Fin size := fun n => ⟨probe size start step n, probe_lt hpos n⟩
  have hinj : Function.Injective f := by
    intro m n hmn
    exact Fin.ext (probe_inj hcoprime m.isLt n.isLt (congrArg Fin.val hmn))
  obtain ⟨n, hn⟩ := Finite.surjective_of_injective hinj ⟨position, h⟩
  exact ⟨n, n.isLt, congrArg Fin.val hn⟩

theorem exists_first_free (start : Nat) (hcoprime : Nat.Coprime size step) (free : Nat → Prop) [DecidablePred free]
    {position : Nat} (h : position < size) (hfree : free position) :
    ∃ n < size, free (probe size start step n) ∧ ∀ m < n, ¬ free (probe size start step m) := by
  obtain ⟨n, hn, rfl⟩ := @exists_probe size start step hcoprime position h
  have hex : ∃ n, free (probe size start step n) := ⟨n, hfree⟩
  refine ⟨Nat.find hex, Nat.lt_of_le_of_lt (Nat.find_min' hex hfree) hn, Nat.find_spec hex, ?_⟩
  intro m hm
  exact Nat.find_min hex hm

end

end

end WebKit.Lib
