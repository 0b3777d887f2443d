import Mathlib.Data.List.Perm.Basic
import Mathlib.Data.List.Nodup
import WebKit.WebKit2.WebBackForwardList

/-!
# One operation on a back-forward list

A list is in `Shape` if it has a current item iff it has items and is not over its capacity. `Keeps l new result` says
of an operation on `l` that every item of `l` and every new one is then either in the list or reported, and reported in
both ways. Each operation is shown to keep the shape and the items under the condition that it needs
(`addItem_keeps`, `goToItem_keeps`, `removeAllItems_keeps`, `clear_keeps`, `restoreFromState_keeps`).

`backForwardListState` is computed in `collectStates_some`: the index goes down by the number of the entries that are
left out and `passed`.
-/

namespace WebKit.WebKit2

open List (Perm)

/-- A state that says where its current item is, if it has items, and fits into a list. -/
structure BackForwardListState.Good (state : BackForwardListState) : Prop where
  current : state.currentIndex.isSome = true ↔ state.items ≠ []
  inside : ∀ c, state.currentIndex = some c → c < state.items.length
  bounded : state.items.length ≤ WebBackForwardList.defaultCapacity

namespace WebBackForwardList

/-- There is a current item iff there are items, and there are not more than the capacity. -/
structure Shape (l : WebBackForwardList) : Prop where
  current : l.m_hasCurrentIndex = true ↔ l.m_entries ≠ []
  inside : l.m_hasCurrentIndex = true → l.m_currentIndex < l.m_entries.length
  bounded : l.m_entries.length ≤ l.m_capacity
  capacity : l.m_capacity = defaultCapacity

/-- What an operation owes: the shape, and an account of all items in both kinds of reports. -/
structure Keeps (l : WebBackForwardList) (new : List ItemID) (result : WebBackForwardList × Notifications) : Prop where
  shape : result.1.Shape
  items : Perm (l.m_entries ++ new) (result.1.m_entries ++ result.2.removedItems)
  sent : Perm result.2.backForwardRemovedItem result.2.removedItems

variable {l : WebBackForwardList}

theorem Shape.create : create.Shape := ⟨by simp [WebBackForwardList.create], nofun, by simp [WebBackForwardList.create], rfl⟩

theorem Shape.empty (h : l.Shape) : ({ l with m_entries := [], m_hasCurrentIndex := false } : WebBackForwardList).Shape :=
  ⟨by simp, nofun, Nat.zero_le _, h.capacity⟩

/-- An operation that does nothing. -/
theorem Shape.keeps (h : l.Shape) : Keeps l [] (l, ⟨[], []⟩) := ⟨h, Perm.refl _, Perm.refl _⟩

theorem Shape.entries_eq_nil (h : l.Shape) (hcurrent : l.m_hasCurrentIndex = false) : l.m_entries = [] := by
  by_contra hne
  exact Bool.false_ne_true (hcurrent.symm.trans (h.current.2 hne))

theorem currentItem_eq (hcurrent : l.m_hasCurrentIndex = true) (hinside : l.m_currentIndex < l.m_entries.length) :
    l.currentItem = some l.m_entries[l.m_currentIndex] := by
  rw [currentItem, if_pos hcurrent, List.getElem?_eq_getElem hinside]

theorem makeRoom_spec (h : l.Shape) : Perm l.m_entries (l.makeRoom.1.m_entries ++ l.makeRoom.2) ∧
    l.makeRoom.1.m_capacity = l.m_capacity ∧
    (l.makeRoom.1.m_hasCurrentIndex = false ∧ l.makeRoom.1.m_entries = [] ∨
      l.m_hasCurrentIndex = true ∧ l.makeRoom.1.m_hasCurrentIndex = true ∧
        l.makeRoom.1.m_entries.length = l.makeRoom.1.m_currentIndex + 1 ∧
        l.makeRoom.1.m_entries.length < l.m_capacity) := by
  rw [makeRoom]
  cases hcurrent : l.m_hasCurrentIndex with
  | false => simp [h.entries_eq_nil hcurrent]
  | true =>
    have hinside := h.inside hcurrent
    have hbounded := h.bounded
    have hlength : (l.m_entries.take (l.m_currentIndex + 1)).length = l.m_currentIndex + 1 := by
      rw [List.length_take]
      omega
    have hperm : Perm l.m_entries
        (l.m_entries.take (l.m_currentIndex + 1) ++ (l.m_entries.drop (l.m_currentIndex + 1)).reverse) := by
      have := (List.reverse_perm (l.m_entries.drop (l.m_currentIndex + 1))).symm.append_left
        (l.m_entries.take (l.m_currentIndex + 1))
      rwa [List.take_append_drop] at this
    simp only [↓reduceIte]
    split_ifs with hfull
    · simp only [hlength, Bool.and_eq_true, decide_eq_true_eq, Bool.or_eq_true, ne_eq] at hfull
      split
      next he => simp [he] at hlength
      next first he =>
        rw [he] at hperm
        exact ⟨hperm.trans List.perm_append_comm, rfl, .inl ⟨rfl, rfl⟩⟩
      next first rest hrest he =>
        rw [he] at hperm hlength
        have hpos : rest ≠ [] := fun hnil => hrest hnil
        have hrestLength : 0 < rest.length := List.length_pos_iff.2 hpos
        rw [List.length_cons] at hlength
        refine ⟨?_, rfl, .inr ⟨trivial, rfl, ?_, ?_⟩⟩
        · refine hperm.trans ?_
          rw [← List.append_assoc]
          exact (List.perm_append_singleton first _).symm
        · show rest.length = l.m_currentIndex - 1 + 1
          omega
        · show rest.length < l.m_capacity
          omega
    · simp only [hlength, Bool.and_eq_true, decide_eq_true_eq, Bool.or_eq_true, ne_eq] at hfull
      refine ⟨hperm, rfl, .inr ⟨trivial, rfl, hlength, ?_⟩⟩
      show (l.m_entries.take (l.m_currentIndex + 1)).length < l.m_capacity
      omega

theorem addItem_keeps (h : l.Shape) (newItem : ItemID) {shouldKeep : Bool}
    (hkeep : shouldKeep = true ∨ l.m_hasCurrentIndex = false) :
    ∃ result, l.addItem newItem shouldKeep = some result ∧ Keeps l [newItem] result := by
  obtain ⟨hperm, hcapacity, hroom⟩ := makeRoom_spec h
  have hpositive : 0 < l.m_capacity := by rw [h.capacity]; decide
  rw [addItem, if_neg (Nat.pos_iff_ne_zero.1 hpositive)]
  generalize l.makeRoom = room at *
  obtain ⟨l', removedItems⟩ := room
  have hitems : Perm (l.m_entries ++ [newItem]) (newItem :: l'.m_entries ++ removedItems) :=
    (List.perm_append_singleton newItem _).trans (hperm.cons newItem)
  rcases hroom with ⟨hcurrent, hnil⟩ | ⟨hold, hcurrent, hlength, hroom⟩
  · refine ⟨_, if_pos (by rw [hcurrent]; rfl), ⟨by simp, fun _ => Nat.succ_pos _, ?_, ?_⟩, hitems, Perm.refl _⟩
    · show (newItem :: l'.m_entries).length ≤ l'.m_capacity
      rw [hnil, hcapacity]
      exact hpositive
    · exact hcapacity.trans h.capacity
  · have hshouldKeep : shouldKeep = true := hkeep.resolve_right (by rw [hold]; exact nofun)
    simp only at hlength hroom
    have hindex : l'.m_currentIndex + 1 ≤ l'.m_entries.length := Nat.le_of_eq hlength.symm
    refine ⟨_, (if_neg (by rw [hcurrent]; exact nofun)).trans ((if_pos hshouldKeep).trans rfl), ?_, ?_, Perm.refl _⟩
    · rw [if_pos hindex]
      have hinsert : (l'.m_entries.insertIdx (l'.m_currentIndex + 1) newItem).length = l'.m_entries.length + 1 :=
        List.length_insertIdx_of_le_length hindex _
      refine ⟨⟨fun _ hnil => ?_, fun _ => hcurrent⟩, fun _ => ?_, ?_, hcapacity.trans h.capacity⟩
      · rw [show l'.m_entries.insertIdx (l'.m_currentIndex + 1) newItem = [] from hnil] at hinsert
        exact Nat.succ_ne_zero _ hinsert.symm
      · show l'.m_currentIndex + 1 < (l'.m_entries.insertIdx (l'.m_currentIndex + 1) newItem).length
        omega
      · show (l'.m_entries.insertIdx (l'.m_currentIndex + 1) newItem).length ≤ l'.m_capacity
        simp only at hcapacity
        omega
    · rw [if_pos hindex]
      exact hitems.trans ((List.perm_insertIdx newItem _ hindex).symm.append_right _)

/-! ## The other operations -/

theorem exists_idxOf {entries : List ItemID} {item : ItemID} (hitem : item ∈ entries) :
    ∃ i, entries.idxOf? item = some i ∧ entries[i]? = some item := by
  obtain ⟨i, hi⟩ := Option.isSome_iff_exists.1 (List.isSome_idxOf?.2 hitem)
  obtain ⟨hlt, heq, -⟩ := List.idxOf?_eq_some_iff.1 hi
  exact ⟨i, hi, List.getElem?_eq_some_iff.2 ⟨hlt, heq⟩⟩

theorem goToItem_spec (h : l.Shape) {item : ItemID} (hitem : item ∈ l.m_entries)
    (shouldKeep : Bool) :
    ∃ result, l.goToItem item shouldKeep = some result ∧ result.1.currentItem = some item ∧
      (shouldKeep = true ∨ l.currentItem = some item → Keeps l [] result) := by
  have hcurrent : l.m_hasCurrentIndex = true := h.current.2 (List.ne_nil_of_mem hitem)
  have hinside := h.inside hcurrent
  obtain ⟨targetIndex, htarget, hget⟩ := exists_idxOf hitem
  have hguard : (l.m_entries.isEmpty || !l.m_hasCurrentIndex) = false := by
    simp [hcurrent, List.ne_nil_of_mem hitem]
  rw [goToItem, hguard, htarget, currentItem_eq hcurrent hinside, List.getElem?_eq_getElem hinside]
  simp only [Bool.false_eq_true, ↓reduceIte, Option.bind_eq_bind, Option.bind_some]
  split_ifs with hdrop
  · -- the current item is dropped, and the requested one is another one
    simp only [ne_eq, Bool.and_eq_true, decide_eq_true_eq, Bool.not_eq_true'] at hdrop
    have hmem : item ∈ l.m_entries.eraseIdx l.m_currentIndex := by
      have hcons := (List.getElem_cons_eraseIdx_perm hinside).mem_iff.2 hitem
      exact (List.mem_cons.1 hcons).resolve_left fun heq => hdrop.1 heq.symm
    obtain ⟨j, hj, hgetj⟩ := exists_idxOf hmem
    refine ⟨_, rfl, ?_, fun hkeep => ?_⟩
    · rw [currentItem, if_pos hcurrent, hj]
      exact hgetj
    · rcases hkeep with hkeep | hkeep
      · exact absurd hkeep (by simp [hdrop.2])
      · exact absurd (Option.some.inj hkeep) hdrop.1
  · refine ⟨_, rfl, ?_, fun _ => ?_⟩
    · rw [currentItem, if_pos hcurrent]
      exact hget
    · exact ⟨⟨h.current, fun _ => (List.getElem?_eq_some_iff.1 hget).1, h.bounded, h.capacity⟩, Perm.refl _, Perm.refl _⟩

theorem goToItem_of_not_mem {item : ItemID} (hitem : item ∉ l.m_entries) (shouldKeep : Bool) :
    l.goToItem item shouldKeep = some (l, ⟨[], []⟩) := by
  rw [goToItem, List.idxOf?_eq_none_iff.2 hitem]
  split_ifs <;> rfl

theorem removeAllItems_keeps (h : l.Shape) : Keeps l [] l.removeAllItems := by
  refine ⟨h.empty, ?_, Perm.refl _⟩
  simp [removeAllItems]

/-- The current item stays, and the two reports name the same items, since none is twice in the list. -/
theorem clear_keeps (h : l.Shape) (hnodup : l.m_entries.Nodup) : Keeps l [] l.clear := by
  rw [clear]
  split_ifs with hsize
  · exact h.keeps
  · have hcurrent : l.m_hasCurrentIndex = true := h.current.2 fun hnil => hsize (by simp [hnil])
    have hinside := h.inside hcurrent
    simp only [currentItem_eq hcurrent hinside]
    refine ⟨⟨by simp [hcurrent], fun _ => Nat.succ_pos _, ?_, h.capacity⟩, ?_, ?_⟩
    · show 1 ≤ l.m_capacity
      rw [h.capacity]
      decide
    · simp only [List.append_nil]
      exact (List.getElem_cons_eraseIdx_perm hinside).symm
    · refine Perm.trans (Perm.of_eq ?_) (List.erase_getElem hinside)
      rw [hnodup.erase_eq_filter]
      exact List.filter_congr fun x _ => by simp [bne, beq_eq_decide]

theorem length_generateIDs (uniqueHistoryItemID n : Nat) : (generateIDs uniqueHistoryItemID n).length = n := by
  induction n generalizing uniqueHistoryItemID with
  | zero => rfl
  | succ n ih => exact congrArg (· + 1) (ih _)

/-- The new ids are even, above the ones before, and no two are equal. -/
theorem mem_generateIDs {uniqueHistoryItemID n x : Nat} (hx : x ∈ generateIDs uniqueHistoryItemID n) :
    uniqueHistoryItemID < x ∧ x ≤ uniqueHistoryItemID + 2 * n ∧ x % 2 = uniqueHistoryItemID % 2 := by
  induction n generalizing uniqueHistoryItemID with
  | zero => exact absurd hx List.not_mem_nil
  | succ n ih =>
    rcases List.mem_cons.1 hx with rfl | hx
    · omega
    · have := ih hx
      omega

theorem nodup_generateIDs (uniqueHistoryItemID n : Nat) : (generateIDs uniqueHistoryItemID n).Nodup := by
  induction n generalizing uniqueHistoryItemID with
  | zero => exact List.nodup_nil
  | succ n ih => exact List.nodup_cons.2 ⟨fun hx => absurd (mem_generateIDs hx).1 (by omega), ih _⟩

theorem restoreFromState_keeps (h : l.Shape) (hempty : l.m_entries = []) {state : BackForwardListState}
    (hgood : state.Good) {ids : List ItemID} (hids : ids.length = state.items.length) :
    Keeps l ids (l.restoreFromState state ids, ⟨[], []⟩) := by
  refine ⟨⟨?_, ?_, ?_, h.capacity⟩, by simp [hempty, restoreFromState], Perm.refl _⟩
  · show state.currentIndex.isSome = true ↔ ids ≠ []
    rw [hgood.current, ← List.length_pos_iff, ← List.length_pos_iff, hids]
  · show state.currentIndex.isSome = true → state.currentIndex.getD 0 < ids.length
    intro hsome
    obtain ⟨c, hc⟩ := Option.isSome_iff_exists.1 hsome
    rw [hc, hids]
    exact hgood.inside c hc
  · show ids.length ≤ l.m_capacity
    rw [hids, h.capacity]
    exact hgood.bounded

/-! ## Saved states -/

/-- How many of the entries that `filter` leaves out are counted at index `c`: those whose place, together with the number
of the ones left out before, is at most `c`. The entries are at `i` and on, and `dropped` ones were left out before. -/
def passed (filter : ItemID → Bool) (c : Nat) : List ItemID → Nat → Nat → Nat
  | [], _, _ => 0
  | entry :: entries, i, dropped =>
    if filter entry then passed filter c entries (i + 1) dropped
    else (if i + dropped ≤ c then 1 else 0) + passed filter c entries (i + 1) (dropped + 1)

theorem passed_of_lt {filter : ItemID → Bool} {c : Nat} {entries : List ItemID} {i dropped : Nat} (h : c < i + dropped) :
    passed filter c entries i dropped = 0 := by
  induction entries generalizing i dropped with
  | nil => rfl
  | cons entry entries ih =>
    rw [passed, ih (by omega), ih (by omega), if_neg (Nat.not_le_of_gt h)]
    exact ite_self _

/-- **The index goes down by `passed`**, which counts an entry only if all the ones before it were counted. -/
theorem collectStates_some (filter : ItemID → Bool) {c : Nat} (hc : c < 2 ^ 32) (entries items : List ItemID)
    (i p dropped : Nat) (hall : p = dropped ∨ c < i + p) (hp : p + passed filter c entries i dropped ≤ c)
    (hle : p ≤ dropped) :
    collectStates filter entries i ⟨items, some (c - p)⟩ =
      ⟨items ++ entries.filter filter, some (c - (p + passed filter c entries i dropped))⟩ := by
  induction entries generalizing i p dropped items with
  | nil => simp [collectStates, passed]
  | cons entry entries ih =>
    rw [collectStates, passed]
    rw [passed] at hp
    cases hentry : filter entry with
    | true =>
      simp only [hentry, ↓reduceIte, List.filter_cons_of_pos] at hp ⊢
      rw [ih _ _ _ _ (by omega) hp hle, List.append_assoc]
      rfl
    | false =>
      simp only [hentry, Bool.false_eq_true, ↓reduceIte, List.filter_cons, Option.map_some] at hp ⊢
      by_cases hcount : i + dropped ≤ c
      · -- all the entries that were left out were counted, and so is this one
        obtain rfl : p = dropped := by omega
        rw [if_pos hcount] at hp ⊢
        rw [if_pos (by omega), show (c - p + (2 ^ 32 - 1)) % 2 ^ 32 = c - (p + 1) by omega,
          ih _ _ (p + 1) (p + 1) (.inl rfl) (by omega) (Nat.le_refl _), Nat.add_assoc]
      · rw [if_neg hcount] at hp ⊢
        rw [if_neg (by omega), ih _ _ p (dropped + 1) (by omega) (by omega) (by omega), Nat.zero_add]

theorem collectStates_none (filter : ItemID → Bool) (entries items : List ItemID) (i : Nat) :
    collectStates filter entries i ⟨items, none⟩ = ⟨items ++ entries.filter filter, none⟩ := by
  induction entries generalizing items i with
  | nil => simp [collectStates]
  | cons entry entries ih =>
    rw [collectStates, List.filter_cons]
    split_ifs with hentry
    · rw [ih, List.append_assoc]
      rfl
    · exact ih _ _

/-- The filters with which the saved state still has a current item: not more is counted than the index, and some item
is left at the index that results. -/
def FitsFilter (l : WebBackForwardList) (filter : ItemID → Bool) : Prop :=
  l.m_hasCurrentIndex = true →
    passed filter l.m_currentIndex l.m_entries 0 0 ≤ l.m_currentIndex ∧
      l.m_currentIndex < passed filter l.m_currentIndex l.m_entries 0 0 + (l.m_entries.filter filter).length

instance (l : WebBackForwardList) (filter : ItemID → Bool) : Decidable (l.FitsFilter filter) :=
  inferInstanceAs (Decidable (_ → _))

theorem backForwardListState_good (h : l.Shape) {filter : ItemID → Bool} (hfits : l.FitsFilter filter) :
    (l.backForwardListState filter).Good := by
  have hbounded : (l.m_entries.filter filter).length ≤ defaultCapacity :=
    Nat.le_trans (List.length_filter_le _ _) (Nat.le_trans h.bounded (Nat.le_of_eq h.capacity))
  rw [backForwardListState]
  cases hcurrent : l.m_hasCurrentIndex with
  | false =>
    rw [if_neg Bool.false_ne_true, collectStates_none, h.entries_eq_nil hcurrent]
    exact ⟨by simp, nofun, Nat.zero_le _⟩
  | true =>
    have hinside := h.inside hcurrent
    have hle := h.bounded
    obtain ⟨hcount, hleft⟩ := hfits hcurrent
    rw [h.capacity, defaultCapacity] at hle
    rw [if_pos rfl, ← Nat.sub_zero l.m_currentIndex,
      collectStates_some filter (by omega) _ _ 0 0 0 (.inl rfl) (by simpa using hcount) (Nat.le_refl _)]
    refine ⟨⟨fun _ hnil => ?_, fun _ => rfl⟩, fun c hc => ?_, hbounded⟩
    · have hnil' : l.m_entries.filter filter = [] := hnil
      rw [hnil', List.length_nil] at hleft
      omega
    · obtain rfl := Option.some.inj hc
      show l.m_currentIndex - (0 + _) < (l.m_entries.filter filter).length
      omega

end WebBackForwardList

end WebKit.WebKit2
