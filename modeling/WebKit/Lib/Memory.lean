import Mathlib.Algebra.Order.Group.Int
import Mathlib.Data.List.Basic

/-!
# Memory

Memory as a list of slots: `writeSlot` is `none` if it leaves the memory.

A `History` has what was written to each place, the last write first, so that it tells how often a place was written.
`History.write` writes values to adjacent places. Adjacent writes in either order are one write (`write_write`,
`write_write_back`), and a single one fills its places once each and no other (`length_write_empty`) with its values
(`contents_write`).
-/

namespace WebKit.Lib

/-! ## Slots -/

section

variable {α : Type*}

def writeSlot (memory : List α) (i : Nat) (a : α) : Option (List α) :=
  if i < memory.length then some (memory.set i a) else none

theorem writeSlot_append (front rest : List α) (a a' : α) :
    writeSlot (front ++ a :: rest) front.length a' = some (front ++ a' :: rest) := by
  rw [writeSlot, if_pos (by simp), List.set_append_right _ _ (Nat.le_refl _), Nat.sub_self, List.set_cons_zero]

end

/-! ## Histories -/

variable {α : Type*}

/-- What was written to each place, the last write first. -/
abbrev History (α : Type*) := Int → List α

/-- The value at a place of `values` from `start` on, if it is one. -/
def span (start : Int) (values : List α) : History α := fun i =>
  if start ≤ i then values[(i - start).toNat]?.toList else []

namespace History

def empty : History α := fun _ => []

def write (memory : History α) (start : Int) (values : List α) : History α := fun i => span start values i ++ memory i

/-- What `count` places have, if all of them were written. -/
def contents (memory : History α) (start : Int) : Nat → Option (List α)
  | 0 => some []
  | count + 1 => do
    let value ← (memory start).head?
    let values ← memory.contents (start + 1) count
    return value :: values

end History

variable {memory memory' : History α} {start i : Int} {values : List α}

theorem span_nil : span start ([] : List α) i = [] := by
  unfold span
  split_ifs <;> rfl

theorem span_append (front back : List α) (i : Int) :
    span start (front ++ back) i = span start front i ++ span (start + front.length) back i := by
  unfold span
  by_cases hi : start ≤ i
  · rw [if_pos hi, if_pos hi]
    by_cases hback : start + front.length ≤ i
    · have hfront : front.length ≤ (i - start).toNat := by omega
      rw [if_pos hback, List.getElem?_append_right hfront, List.getElem?_eq_none hfront,
        show (i - start).toNat - front.length = (i - (start + front.length)).toNat by omega]
      rfl
    · rw [if_neg hback, List.getElem?_append_left (by omega), List.append_nil]
  · rw [if_neg hi, if_neg hi, if_neg (by omega)]
    rfl

theorem span_eq_nil_or (front back : List α) (i : Int) :
    span start front i = [] ∨ span (start + front.length) back i = [] := by
  unfold span
  by_cases hback : start + front.length ≤ i
  · refine .inl ?_
    rw [if_pos (by omega), List.getElem?_eq_none (by omega)]
    rfl
  · exact .inr (if_neg hback)

namespace History

theorem write_nil : memory.write start [] = memory := by
  funext i
  unfold write
  rw [span_nil, List.nil_append]

theorem write_write_back (front back : List α) :
    (memory.write (start + front.length) back).write start front = memory.write start (front ++ back) := by
  funext i
  unfold write
  rw [span_append, List.append_assoc]

theorem write_sub_write (front back : List α) :
    (memory.write start back).write (start - front.length) front =
      memory.write (start - front.length) (front ++ back) := by
  rw [← write_write_back, sub_add_cancel]

theorem write_write (front back : List α) :
    (memory.write start front).write (start + front.length) back = memory.write start (front ++ back) := by
  funext i
  unfold write
  rw [span_append]
  have hnil : span start front i = [] ∨ span (start + front.length) back i = [] := span_eq_nil_or front back i
  rcases hnil with h | h
  · rw [h, List.nil_append, List.nil_append]
  · rw [h, List.nil_append, List.append_nil]

/-- **A single write fills its places once each, and no other.** -/
theorem length_write_empty :
    ((empty.write start values) i).length = if start ≤ i ∧ i < start + values.length then 1 else 0 := by
  unfold write empty span
  rw [List.append_nil]
  by_cases hi : start ≤ i
  · rw [if_pos hi]
    by_cases hlt : i < start + values.length
    · rw [if_pos ⟨hi, hlt⟩, List.getElem?_eq_getElem (by omega)]
      rfl
    · rw [if_neg fun h => hlt h.2, List.getElem?_eq_none (by omega)]
      rfl
  · rw [if_neg hi, if_neg fun h => hi h.1]
    rfl

theorem write_cons (value : α) :
    memory.write start (value :: values) = (memory.write (start + 1) values).write start [value] :=
  (write_write_back [value] values).symm

theorem contents_congr {count : Nat} (h : ∀ i, start ≤ i → memory i = memory' i) :
    memory.contents start count = memory'.contents start count := by
  induction count generalizing start with
  | zero => rfl
  | succ count ih => rw [contents, contents, h start (le_refl _), ih fun i hi => h i (by omega)]

/-- **A write is read back.** -/
theorem contents_write : (memory.write start values).contents start values.length = some values := by
  induction values generalizing start with
  | nil => rfl
  | cons value values ih =>
    have hhead : (memory.write start (value :: values) start).head? = some value := by
      unfold write span
      rw [if_pos (le_refl _), sub_self]
      rfl
    have htail : (memory.write start (value :: values)).contents (start + 1) values.length = some values := by
      rw [← ih]
      refine contents_congr fun i hi => ?_
      rw [write_cons]
      have hnil : span start [value] i = [] := by
        unfold span
        rw [if_pos (by omega), List.getElem?_eq_none (by simp; omega)]
        rfl
      rw [write, hnil, List.nil_append]
    rw [List.length_cons, contents, hhead, htail]
    rfl

end History

end WebKit.Lib
