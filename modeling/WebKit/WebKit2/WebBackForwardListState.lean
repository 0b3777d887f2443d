import Mathlib.Data.Nat.Find
import WebKit.WebKit2.WebBackForwardListInv

/-!
# The saved state of a back-forward list

`backForwardListState` keeps the items that pass a filter and says which of them is the current one. `StateOf` is what
that state should be: the kept items in order, and the position among them of the current item, or of the nearest kept
item before it.

The loop lowers the index at an entry that is left out only if the position of that entry in the whole list is not over
the index as lowered so far. So the entry at `i` is missed if `i` and the number of the entries left out before it are
together over the index (`CountsDropped`), and with no kept item up to the current one the index stays at an item behind
it or wraps around (`backForwardListState_iff`).
-/

namespace WebKit.WebKit2

namespace WebBackForwardList

/-- The number of the first `n` entries that are kept. -/
def keptBefore (filter : ItemID → Bool) (entries : List ItemID) (n : Nat) : Nat := (entries.take n).countP filter

/-- The number of the first `n` entries that are left out. -/
def droppedBefore (filter : ItemID → Bool) (entries : List ItemID) (n : Nat) : Nat :=
  (entries.take n).countP fun entry => !filter entry

/-- The entry at `j` is the last kept one up to `c`. -/
def IsNearestKept (filter : ItemID → Bool) (entries : List ItemID) (c j : Nat) : Prop :=
  j ≤ c ∧ (∃ entry, entries[j]? = some entry ∧ filter entry = true) ∧
    ∀ k entry, j < k → k ≤ c → entries[k]? = some entry → filter entry = false

/-- What the state of a list should be. -/
structure StateOf (l : WebBackForwardList) (filter : ItemID → Bool) (state : BackForwardListState) : Prop where
  items : state.items = l.m_entries.filter filter
  inside : ∀ c, state.currentIndex = some c → c < state.items.length
  nearest : ∀ c, state.currentIndex = some c → l.m_hasCurrentIndex = true ∧
    ∃ j, IsNearestKept filter l.m_entries l.m_currentIndex j ∧ c = keptBefore filter l.m_entries j
  empty : state.items = [] → state.currentIndex = none

/-- If there is a current item, some item up to it is kept, and each one that is left out up to it is counted. -/
def CountsDropped (l : WebBackForwardList) (filter : ItemID → Bool) : Prop :=
  l.m_hasCurrentIndex = true →
    (∃ j entry, j ≤ l.m_currentIndex ∧ l.m_entries[j]? = some entry ∧ filter entry = true) ∧
      ∀ i entry, i ≤ l.m_currentIndex → l.m_entries[i]? = some entry → filter entry = false →
        i + droppedBefore filter l.m_entries i ≤ l.m_currentIndex

variable {filter : ItemID → Bool} {entries : List ItemID} {c : Nat}

/-! ## Counting -/

theorem keptBefore_add_droppedBefore (filter : ItemID → Bool) {n : Nat} (hn : n ≤ entries.length) :
    keptBefore filter entries n + droppedBefore filter entries n = n := by
  have h := List.length_eq_countP_add_countP filter (l := entries.take n)
  rw [List.length_take, Nat.min_eq_left hn] at h
  simp only [keptBefore, droppedBefore]
  simpa using h.symm

theorem keptBefore_of_nearest {j : Nat} (h : IsNearestKept filter entries c j) :
    keptBefore filter entries (c + 1) = keptBefore filter entries j + 1 := by
  obtain ⟨hj, ⟨entry, hentry, hkept⟩, hlast⟩ := h
  have hrest : ((entries.take (c + 1)).drop (j + 1)).countP filter = 0 := by
    rw [List.countP_eq_zero]
    intro x hx
    obtain ⟨k, hk⟩ := List.mem_iff_getElem?.mp hx
    rw [List.getElem?_drop, List.getElem?_take] at hk
    split_ifs at hk with hle
    simpa using hlast (j + 1 + k) x (by omega) (by omega) hk
  have hcut : (entries.take (c + 1)).take (j + 1) = entries.take j ++ [entry] := by
    rw [List.take_take, Nat.min_eq_left (by omega), List.take_add_one, hentry, Option.toList_some]
  rw [keptBefore, ← List.take_append_drop (j + 1) (entries.take (c + 1)), List.countP_append, hrest, hcut,
    List.countP_append, List.countP_singleton, if_pos hkept, keptBefore]

theorem exists_nearest {j : Nat} {entry : ItemID} (hj : j ≤ c) (hentry : entries[j]? = some entry)
    (hkept : filter entry = true) : ∃ j, IsNearestKept filter entries c j := by
  have hex : ∃ entry, entries[j]? = some entry ∧ filter entry = true := ⟨entry, hentry, hkept⟩
  let P : Nat → Prop := fun k => ∃ entry, entries[k]? = some entry ∧ filter entry = true
  classical
  refine ⟨Nat.findGreatest P c, Nat.findGreatest_le c, Nat.findGreatest_spec (P := P) hj hex, ?_⟩
  intro k x hlt hle hx
  have hnot := Nat.findGreatest_is_greatest hlt hle
  exact Bool.eq_false_iff.mpr fun hfilter => hnot ⟨x, hx, hfilter⟩

theorem passed_le (filter : ItemID → Bool) (c : Nat) (entries : List ItemID) (i dropped : Nat) :
    passed filter c entries i dropped ≤ droppedBefore filter entries (c + 1 - i) := by
  induction entries generalizing i dropped with
  | nil => simp [passed]
  | cons entry entries ih =>
    by_cases hi : c < i + dropped
    · simp [passed_of_lt hi]
    · have hcut : c + 1 - i = (c + 1 - (i + 1)) + 1 := by omega
      have hrest := ih (i + 1) dropped
      have hnext := ih (i + 1) (dropped + 1)
      simp only [droppedBefore] at hrest hnext
      rw [passed, droppedBefore, hcut, List.take_succ_cons, List.countP_cons]
      cases filter entry
      · simp only [Bool.false_eq_true, ↓reduceIte, Bool.not_false]
        split_ifs <;> omega
      · simpa using hrest

theorem passed_eq_iff (filter : ItemID → Bool) (c : Nat) (entries : List ItemID) (i dropped : Nat) :
    passed filter c entries i dropped = droppedBefore filter entries (c + 1 - i) ↔
      ∀ k entry, i + k ≤ c → entries[k]? = some entry → filter entry = false →
        i + k + (dropped + droppedBefore filter entries k) ≤ c := by
  induction entries generalizing i dropped with
  | nil => simp [passed, droppedBefore]
  | cons entry entries ih =>
    by_cases hi : i ≤ c
    · have hcut : c + 1 - i = (c + 1 - (i + 1)) + 1 := by omega
      cases hfilter : filter entry with
      | true =>
        have hpassed : passed filter c (entry :: entries) i dropped = passed filter c entries (i + 1) dropped := by
          rw [passed, if_pos hfilter]
        have hdropped : ∀ n, droppedBefore filter (entry :: entries) (n + 1) = droppedBefore filter entries n := by
          simp [droppedBefore, hfilter]
        rw [hpassed, hcut, hdropped, ih]
        constructor
        · rintro h (_ | k) x hk hx hout
          · simp [← Option.some.inj hx, hfilter] at hout
          · have := h k x (by omega) hx hout
            rw [hdropped]
            omega
        · intro h k x hk hx hout
          have := h (k + 1) x (by omega) hx hout
          rw [hdropped] at this
          omega
      | false =>
        have hpassed : passed filter c (entry :: entries) i dropped =
            (if i + dropped ≤ c then 1 else 0) + passed filter c entries (i + 1) (dropped + 1) := by
          rw [passed, if_neg (by simp [hfilter])]
        have hdropped : ∀ n, droppedBefore filter (entry :: entries) (n + 1) =
            droppedBefore filter entries n + 1 := by
          simp [droppedBefore, hfilter]
        have hle := passed_le filter c entries (i + 1) (dropped + 1)
        rw [hpassed, hcut, hdropped]
        constructor
        · rintro h (_ | k) x hk hx hout
          · simp only [droppedBefore, List.take_zero, List.countP_nil, Nat.add_zero]
            split_ifs at h <;> omega
          · have heq : passed filter c entries (i + 1) (dropped + 1) =
                droppedBefore filter entries (c + 1 - (i + 1)) := by
              split_ifs at h <;> omega
            have := (ih (i + 1) (dropped + 1)).mp heq k x (by omega) hx hout
            rw [hdropped]
            omega
        · intro h
          have hfirst := h 0 entry (by omega) rfl hfilter
          simp only [droppedBefore, List.take_zero, List.countP_nil, Nat.add_zero] at hfirst
          have heq := (ih (i + 1) (dropped + 1)).mpr fun k x hk hx hout => by
            have := h (k + 1) x (by omega) hx hout
            rw [hdropped] at this
            omega
          rw [if_pos hfirst, heq, Nat.add_comm]
    · have hzero : c + 1 - i = 0 := by omega
      rw [passed_of_lt (by omega), hzero]
      simp only [droppedBefore, List.take_zero, List.countP_nil, true_iff]
      intro k x hk
      omega

/-! ## The state -/

theorem currentIndex_isSome (i : Nat) (items : List ItemID) (index : Nat) :
    ∃ result, (collectStates filter entries i ⟨items, some index⟩).currentIndex = some result := by
  induction entries generalizing i items index with
  | nil => exact ⟨index, rfl⟩
  | cons entry entries ih =>
    rw [collectStates]
    split_ifs
    · exact ih _ _ _
    · exact ih _ _ _

theorem backForwardListState_eq {l : WebBackForwardList} (hcurrent : l.m_hasCurrentIndex = true)
    (hc : l.m_currentIndex < 2 ^ 32) (hinside : l.m_currentIndex < l.m_entries.length)
    (hkept : 0 < keptBefore filter l.m_entries (l.m_currentIndex + 1)) :
    l.backForwardListState filter = ⟨l.m_entries.filter filter,
      some (l.m_currentIndex - passed filter l.m_currentIndex l.m_entries 0 0)⟩ := by
  have hle := passed_le filter l.m_currentIndex l.m_entries 0 0
  have hsum := keptBefore_add_droppedBefore filter (n := l.m_currentIndex + 1) hinside
  have h := collectStates_some filter hc l.m_entries [] 0 0 0 (.inl rfl) (by simp at hle ⊢; omega) (Nat.le_refl _)
  simpa [backForwardListState, hcurrent] using h

/-- **The saved state is right iff the filter keeps an item up to the current one and the loop counts each entry up to
it that is left out.** -/
theorem backForwardListState_iff (l : WebBackForwardList) (filter : ItemID → Bool)
    (hindex : l.m_currentIndex < 2 ^ 32)
    (hinside : l.m_hasCurrentIndex = true → l.m_currentIndex < l.m_entries.length) :
    StateOf l filter (l.backForwardListState filter) ↔ CountsDropped l filter := by
  cases hcurrent : l.m_hasCurrentIndex with
  | false =>
    have heq : l.backForwardListState filter = ⟨l.m_entries.filter filter, none⟩ := by
      simpa [backForwardListState, hcurrent] using collectStates_none filter l.m_entries [] 0
    rw [heq]
    simp only [CountsDropped, hcurrent, Bool.false_eq_true, false_implies, iff_true]
    exact ⟨rfl, by simp, by simp, fun _ => rfl⟩
  | true =>
    have hlength := hinside hcurrent
    have hsum := keptBefore_add_droppedBefore filter (n := l.m_currentIndex + 1) hlength
    have hiff := passed_eq_iff filter l.m_currentIndex l.m_entries 0 0
    simp only [Nat.zero_add, Nat.sub_zero] at hiff
    constructor
    · intro h _
      obtain ⟨index, hsome⟩ : ∃ index, (l.backForwardListState filter).currentIndex = some index := by
        simpa [backForwardListState, hcurrent] using currentIndex_isSome 0 [] l.m_currentIndex
      obtain ⟨-, j, hnearest, rfl⟩ := h.nearest index hsome
      have hcount := keptBefore_of_nearest hnearest
      rw [backForwardListState_eq hcurrent hindex hlength (by omega)] at hsome
      have hpassed := Option.some.inj hsome
      have hle := passed_le filter l.m_currentIndex l.m_entries 0 0
      obtain ⟨hj, ⟨entry, hentry, hkept⟩, -⟩ := hnearest
      exact ⟨⟨j, entry, hj, hentry, hkept⟩, hiff.mp (by simp only [Nat.sub_zero] at hle; omega)⟩
    · intro h
      obtain ⟨⟨i, entry, hi, hentry, hkept⟩, hdropped⟩ := h hcurrent
      obtain ⟨j, hnearest⟩ := exists_nearest hi hentry hkept
      have hcount := keptBefore_of_nearest hnearest
      have hpassed := hiff.mpr hdropped
      rw [backForwardListState_eq hcurrent hindex hlength (by omega)]
      have hindex_eq : l.m_currentIndex - passed filter l.m_currentIndex l.m_entries 0 0 =
          keptBefore filter l.m_entries j := by
        omega
      have hless : keptBefore filter l.m_entries j < (l.m_entries.filter filter).length := by
        have hall := (List.take_sublist (l.m_currentIndex + 1) l.m_entries).countP_le (p := filter)
        rw [← List.countP_eq_length_filter]
        rw [keptBefore] at hcount
        omega
      rw [hindex_eq]
      refine ⟨rfl, fun c hc => ?_, fun c hc => ⟨hcurrent, j, hnearest, (Option.some.inj hc).symm⟩, fun hnil => ?_⟩
      · exact Option.some.inj hc ▸ hless
      · have hnil' : l.m_entries.filter filter = [] := hnil
        rw [hnil'] at hless
        exact absurd hless (Nat.not_lt_zero _)

/-- The first of three items is left out, and the others are kept. -/
theorem backForwardListState_first : StateOf ⟨[1, 3, 5], true, 1, 100⟩ (· != 1)
      (backForwardListState ⟨[1, 3, 5], true, 1, 100⟩ (· != 1)) ↔
    CountsDropped ⟨[1, 3, 5], true, 1, 100⟩ (· != 1) :=
  backForwardListState_iff ⟨[1, 3, 5], true, 1, 100⟩ (· != 1) (by decide) (by decide)

/-- With the only item left out, the index is `2 ^ 32 - 1`. -/
theorem backForwardListState_wraps : ¬ StateOf ⟨[1], true, 0, 100⟩ (fun _ => false)
    (backForwardListState ⟨[1], true, 0, 100⟩ fun _ => false) := by
  intro h
  have hsome : (backForwardListState ⟨[1], true, 0, 100⟩ fun _ => false).currentIndex = some (2 ^ 32 - 1) := by decide
  have hnone := h.empty (by decide)
  rw [hsome] at hnone
  cases hnone

end WebBackForwardList

end WebKit.WebKit2
