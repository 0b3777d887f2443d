import Mathlib.Algebra.Order.Group.Int

/-!
# Three-way comparisons

Functions in the style of C compare by the sign of an integer. `orderingOf` is the `Ordering` such a result stands for.

- `orderingOf_ifLess` and `orderingOf_sub`, the two usual ways to compare numbers;
- `orderingOf_ifNonzero`, comparing by a first criterion and then by a second;
- `Decides result front front'`: the result compares all sequences that begin with these fronts, and ties leave the
  comparison to what follows; `Decides.append` puts two criteria together;
- `Comparator`, what a comparison has to satisfy to order a set, and `Comparator.ofRank`: it does when it is the
  lexicographic order of integer sequences.
-/

namespace WebKit.Lib

/-- The ordering that the result of a three-way comparison stands for. -/
def orderingOf (result : Int) : Ordering := compare result 0

@[simp] theorem orderingOf_zero : orderingOf 0 = .eq := rfl

@[simp] theorem orderingOf_one : orderingOf 1 = .gt := rfl

@[simp] theorem orderingOf_neg_one : orderingOf (-1) = .lt := rfl

theorem orderingOf_eq_lt {result : Int} : orderingOf result = .lt ↔ result < 0 := by
  rw [orderingOf, compare_lt_iff_lt]

theorem orderingOf_eq_gt {result : Int} : orderingOf result = .gt ↔ 0 < result := by
  rw [orderingOf, compare_gt_iff_gt]

theorem orderingOf_eq_eq {result : Int} : orderingOf result = .eq ↔ result = 0 := by
  rw [orderingOf, compare_eq_iff_eq]

theorem orderingOf_neg (result : Int) : orderingOf (-result) = (orderingOf result).swap := by
  rcases lt_trichotomy result 0 with h | h | h
  · rw [orderingOf_eq_lt.mpr h, orderingOf_eq_gt.mpr (by omega)]
    rfl
  · rw [h]
    rfl
  · rw [orderingOf_eq_gt.mpr h, orderingOf_eq_lt.mpr (by omega)]
    rfl

/-- `if (int x = first) return x; return second;` -/
theorem orderingOf_ifNonzero (first second : Int) :
    orderingOf (if first ≠ 0 then first else second) = (orderingOf first).then (orderingOf second) := by
  by_cases h : first = 0
  · rw [if_neg (not_not.mpr h), h]
    rfl
  · rw [if_pos h]
    rcases lt_or_gt_of_ne h with h | h
    · rw [orderingOf_eq_lt.mpr h]
      rfl
    · rw [orderingOf_eq_gt.mpr h]
      rfl

/-- `a < b ? -1 : a > b ? 1 : 0` -/
theorem orderingOf_ifLess (a b : Int) : orderingOf (if a < b then -1 else if a > b then 1 else 0) = compare a b := by
  rcases lt_trichotomy a b with h | h | h
  · rw [if_pos h, compare_lt_iff_lt.mpr h, orderingOf_neg_one]
  · rw [if_neg (by omega), if_neg (by omega), compare_eq_iff_eq.mpr h, orderingOf_zero]
  · rw [if_neg (by omega), if_pos h, compare_gt_iff_gt.mpr h, orderingOf_one]

/-- `a - b` -/
theorem orderingOf_sub (a b : Int) : orderingOf (a - b) = compare a b := by
  rcases lt_trichotomy a b with h | h | h
  · rw [compare_lt_iff_lt.mpr h, orderingOf_eq_lt.mpr (by omega)]
  · rw [compare_eq_iff_eq.mpr h, orderingOf_eq_eq.mpr (by omega)]
  · rw [compare_gt_iff_gt.mpr h, orderingOf_eq_gt.mpr (by omega)]

/-- The lexicographic order of integer sequences. -/
def lexOrder : List Int → List Int → Ordering := List.compareLex compare

instance : Std.TransCmp lexOrder := inferInstanceAs (Std.TransCmp (List.compareLex (compare : Int → Int → Ordering)))

instance : Std.LawfulEqCmp lexOrder :=
  inferInstanceAs (Std.LawfulEqCmp (List.compareLex (compare : Int → Int → Ordering)))

theorem lexOrder_cons (x y : Int) (xs ys : List Int) :
    lexOrder (x :: xs) (y :: ys) = (compare x y).then (lexOrder xs ys) :=
  List.compareLex_cons_cons

theorem lexOrder_cons_self (x : Int) (xs ys : List Int) : lexOrder (x :: xs) (x :: ys) = lexOrder xs ys := by
  rw [lexOrder_cons, compare_eq_iff_eq.mpr rfl]
  rfl

theorem lexOrder_cons_of_lt {x y : Int} (h : x < y) (xs ys : List Int) : lexOrder (x :: xs) (y :: ys) = .lt := by
  rw [lexOrder_cons, compare_lt_iff_lt.mpr h]
  rfl

theorem lexOrder_cons_of_gt {x y : Int} (h : y < x) (xs ys : List Int) : lexOrder (x :: xs) (y :: ys) = .gt := by
  rw [lexOrder_cons, compare_gt_iff_gt.mpr h]
  rfl

theorem lexOrder_self (xs : List Int) : lexOrder xs xs = .eq :=
  Std.ReflCmp.compare_self

theorem lexOrder_eq {xs ys : List Int} : lexOrder xs ys = .eq ↔ xs = ys :=
  Std.LawfulEqCmp.compare_eq_iff_eq

/-! ## Sequences compared front by front -/

/-- The result is the order of two sequences that begin with the given fronts, unless it is a tie. -/
def Decides (result : Int) (front front' : List Int) : Prop :=
  ∀ rest rest', lexOrder (front ++ rest) (front' ++ rest') = (orderingOf result).then (lexOrder rest rest')

theorem decides_nil : Decides 0 [] [] := fun _ _ => rfl

theorem then_assoc (o₁ o₂ o₃ : Ordering) : (o₁.then o₂).then o₃ = o₁.then (o₂.then o₃) := by
  cases o₁ <;> rfl

theorem Decides.append {first second : Int} {front front' back back' : List Int} (h : Decides first front front')
    (h' : Decides second back back') :
    Decides (if first ≠ 0 then first else second) (front ++ back) (front' ++ back') := by
  intro rest rest'
  rw [List.append_assoc, List.append_assoc, h, h', orderingOf_ifNonzero, then_assoc]

/-- When the first criterion is no tie, nothing behind it matters. -/
theorem Decides.append_of_ne {result : Int} {front front' : List Int} (h : Decides result front front')
    (hne : result ≠ 0) (back back' : List Int) : Decides result (front ++ back) (front' ++ back') := by
  intro rest rest'
  rw [List.append_assoc, List.append_assoc, h]
  rcases lt_or_gt_of_ne hne with hlt | hgt
  · rw [orderingOf_eq_lt.mpr hlt]
    rfl
  · rw [orderingOf_eq_gt.mpr hgt]
    rfl

theorem Decides.append_of_eq {first second : Int} {front front' back back' : List Int} (h : Decides first front front')
    (heq : first = 0) (h' : Decides second back back') : Decides second (front ++ back) (front' ++ back') := by
  intro rest rest'
  rw [List.append_assoc, List.append_assoc, h, h', heq]
  rfl

theorem Decides.congr {result result' : Int} {front front' : List Int} (h : Decides result front front')
    (hsign : orderingOf result' = orderingOf result) : Decides result' front front' := by
  intro rest rest'
  rw [h, hsign]

theorem decides_of_compare {result a b : Int} (h : orderingOf result = compare a b) : Decides result [a] [b] := by
  intro rest rest'
  rw [h]
  exact lexOrder_cons a b rest rest'

theorem decides_sub (a b : Int) : Decides (a - b) [a] [b] := decides_of_compare (orderingOf_sub a b)

theorem Decides.orderingOf_eq {result : Int} {front front' : List Int} (h : Decides result front front') :
    orderingOf result = lexOrder front front' := by
  have hnil := h [] []
  rw [List.append_nil, List.append_nil, lexOrder_self, Ordering.then_eq] at hnil
  exact hnil.symm

/-- Equal sequences tie in the fronts and go on equally. -/
theorem Decides.of_append_eq {result : Int} {front front' rest rest' : List Int} (h : Decides result front front')
    (heq : front ++ rest = front' ++ rest') : result = 0 ∧ rest = rest' := by
  have hboth := h rest rest'
  rw [heq, lexOrder_self, eq_comm, Ordering.then_eq_eq, orderingOf_eq_eq, lexOrder_eq] at hboth
  exact hboth

/-! ## Comparators -/

/-- A comparison that orders the elements with `valid`: it is a total preorder, and its results are opposite when the
arguments are exchanged. -/
structure Comparator {α : Type} (valid : α → Prop) (cmp : α → α → Int) : Prop where
  refl : ∀ a, valid a → cmp a a = 0
  antisymm : ∀ a b, valid a → valid b → orderingOf (cmp a b) = (orderingOf (cmp b a)).swap
  trans : ∀ a b c, valid a → valid b → valid c → cmp a b ≤ 0 → cmp b c ≤ 0 → cmp a c ≤ 0

theorem isLE_orderingOf {result : Int} : (orderingOf result).isLE ↔ result ≤ 0 := by
  rcases lt_trichotomy result 0 with h | h | h
  · simp [orderingOf_eq_lt.mpr h, Int.le_of_lt h]
  · simp [h]
  · simp [orderingOf_eq_gt.mpr h, h]

theorem Comparator.ofRank {α : Type} {valid : α → Prop} {cmp : α → α → Int} (rank : α → List Int)
    (h : ∀ a b, valid a → valid b → orderingOf (cmp a b) = lexOrder (rank a) (rank b)) : Comparator valid cmp where
  refl a ha := by
    rw [← orderingOf_eq_eq, h a a ha ha]
    exact lexOrder_self _
  antisymm a b ha hb := by
    rw [h a b ha hb, h b a hb ha]
    exact Std.OrientedCmp.eq_swap
  trans a b c ha hb hc hab hbc := by
    rw [← isLE_orderingOf, h _ _ ‹_› ‹_›] at hab hbc ⊢
    exact Std.TransCmp.isLE_trans hab hbc

end WebKit.Lib
