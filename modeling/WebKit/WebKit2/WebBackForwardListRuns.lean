import WebKit.WebKit2.WebBackForwardListInv

/-!
# Runs over back-forward lists

A page is `Consistent` if its list is well formed and every item that has left it was reported once in both ways. This
holds in every state of a run (`back_forward_lists_consistent`) whose steps never drop the current item for a new one or
on the way to another one, restore only into an empty list, and save no state whose index was counted down wrongly. With
any other step it can fail (`back_forward_list_inconsistent`).
-/

namespace WebKit.WebKit2

open List (Perm)
open scoped List
open Transition WebBackForwardList

namespace BackForwardPage

/-- The list is well formed, and the items that have left it are the ones that were reported, once in each way. -/
structure Consistent (p : BackForwardPage) : Prop where
  current : p.list.m_hasCurrentIndex = true ↔ p.list.m_entries ≠ []
  inside : p.list.m_hasCurrentIndex = true → p.list.m_currentIndex < p.list.m_entries.length
  bounded : p.list.m_entries.length ≤ p.list.m_capacity
  nodup : p.list.m_entries.Nodup
  reported : ∀ item, item ∈ p.removedItems ↔ item ∈ p.entered ∧ item ∉ p.list.m_entries
  once : p.removedItems.Nodup
  sent : Perm p.sent p.removedItems

/-- Every item that ever entered the list is in it or reported, and only once. -/
structure Inv (p : BackForwardPage) : Prop where
  shape : p.list.Shape
  nodup : p.entered.Nodup
  items : Perm p.entered (p.list.m_entries ++ p.removedItems)
  sent : Perm p.sent p.removedItems

variable {p : BackForwardPage}

theorem Inv.entries_nodup (h : p.Inv) : p.list.m_entries.Nodup :=
  (List.nodup_append.1 (h.items.nodup_iff.1 h.nodup)).1

theorem Inv.consistent (h : p.Inv) : p.Consistent where
  current := h.shape.current
  inside := h.shape.inside
  bounded := h.shape.bounded
  nodup := h.entries_nodup
  reported := by
    obtain ⟨-, -, hdisjoint⟩ := List.nodup_append.1 (h.items.nodup_iff.1 h.nodup)
    intro item
    rw [h.items.mem_iff, List.mem_append]
    constructor
    · intro hitem
      exact ⟨.inr hitem, fun hin => hdisjoint item hin item hitem rfl⟩
    · rintro ⟨hin | hitem, hout⟩
      · exact absurd hin hout
      · exact hitem
  once := (List.nodup_append.1 (h.items.nodup_iff.1 h.nodup)).2.1
  sent := h.sent

theorem Inv.create : create.Inv := ⟨Shape.create, List.nodup_nil, Perm.refl _, Perm.refl _⟩

theorem Inv.record (h : p.Inv) {new : List ItemID} {result : WebBackForwardList × Notifications}
    (hkeeps : Keeps p.list new result) (hnodup : new.Nodup) (hnew : ∀ item ∈ new, item ∉ p.entered) :
    (p.record new result).Inv := by
  refine ⟨hkeeps.shape, ?_, ?_, h.sent.append hkeeps.sent⟩
  · refine List.nodup_append.2 ⟨h.nodup, hnodup, ?_⟩
    rintro item hitem _ hin rfl
    exact hnew item hin hitem
  · -- the new items are brought to the ones of the list, and the reported ones past them
    calc (p.record new result).entered
      _ ~ p.list.m_entries ++ p.removedItems ++ new := h.items.append_right new
      _ ~ p.list.m_entries ++ new ++ p.removedItems := by
        rw [List.append_assoc, List.append_assoc]
        exact List.perm_append_comm.append_left _
      _ ~ result.1.m_entries ++ result.2.removedItems ++ p.removedItems := hkeeps.items.append_right _
      _ ~ result.1.m_entries ++ (p.removedItems ++ result.2.removedItems) := by
        rw [List.append_assoc]
        exact List.perm_append_comm.append_left _

end BackForwardPage

namespace BackForwardSession

variable {s t : BackForwardSession}

/-- The steps that report what leaves a list and save states with a current item. Items that the web process adds are
new and have its own ids, which are odd. -/
def fits (s : BackForwardSession) : BackForwardOp → Bool
  | .addItem i newItem shouldKeep => (s.pages[i]?).all fun p =>
    decide (newItem % 2 = 1 ∧ newItem ∉ p.entered) && (shouldKeep || !p.list.m_hasCurrentIndex)
  | .goToItem i item shouldKeep => (s.pages[i]?).all fun p =>
    shouldKeep || decide (p.list.currentItem = some item ∨ item ∉ p.list.m_entries)
  | .saveState i filter => (s.pages[i]?).all fun p => decide (p.list.FitsFilter filter)
  | .restoreFromState i k => (s.states[k]?).isNone || (s.pages[i]?).all fun p => p.list.m_entries.isEmpty
  | _ => true

abbrev FittingStep : BackForwardSession → BackForwardOp → BackForwardSession → Prop :=
  Guarded (fun s op => s.fits op = true) (Via step)

/-- The pages and the states are right, and the even ids that are in use were given. -/
structure Inv (s : BackForwardSession) : Prop where
  pages : ∀ p ∈ s.pages, p.Inv
  given : ∀ p ∈ s.pages, ∀ item : Nat, item ∈ p.entered → item % 2 = 0 → item ≤ s.uniqueHistoryItemID
  even : s.uniqueHistoryItemID % 2 = 0
  states : ∀ state ∈ s.states, state.Good

theorem inv_initial : initial.Inv := ⟨nofun, nofun, rfl, nofun⟩

theorem Inv.change (h : s.Inv) {i n : Nat} {f : BackForwardPage → Option BackForwardPage}
    (hf : ∀ p, s.pages[i]? = some p → ∃ p', f p = some p' ∧ p'.Inv ∧
      ∀ item : Nat, item ∈ p'.entered → item ∈ p.entered ∨ item % 2 = 1 ∨ item ≤ s.uniqueHistoryItemID + 2 * n) :
    ∃ t, BackForwardSession.change { s with uniqueHistoryItemID := s.uniqueHistoryItemID + 2 * n } i f = some t ∧
      t.Inv := by
  have heven := h.even
  have hgiven : ∀ p ∈ s.pages, ∀ item : Nat, item ∈ p.entered → item % 2 = 0 → item ≤ s.uniqueHistoryItemID + 2 * n :=
    fun p hp item hitem hi => Nat.le_add_right_of_le (h.given p hp item hitem hi)
  rw [BackForwardSession.change]
  cases hp : s.pages[i]? with
  | none => exact ⟨_, rfl, h.pages, hgiven, by show (_ + _) % 2 = 0; omega, h.states⟩
  | some p =>
    obtain ⟨p', hp', hinv, hentered⟩ := hf p hp
    refine ⟨_, congrArg (Option.map _) hp', ?_, ?_, by show (_ + _) % 2 = 0; omega, h.states⟩
    · intro q hq
      rcases List.mem_or_eq_of_mem_set hq with hq | rfl
      · exact h.pages q hq
      · exact hinv
    · intro q hq item hitem hi
      rcases List.mem_or_eq_of_mem_set hq with hq | rfl
      · exact hgiven q hq item hitem hi
      · rcases hentered item hitem with hin | hodd | hle
        · exact hgiven p (List.mem_of_getElem? hp) item hin hi
        · omega
        · exact hle

/-- A page is changed by an operation that adds no items. -/
theorem Inv.change_keeps (h : s.Inv) {i : Nat} {f : WebBackForwardList → Option (WebBackForwardList × Notifications)}
    (hf : ∀ p, s.pages[i]? = some p → ∃ result, f p.list = some result ∧ Keeps p.list [] result) :
    ∃ t, s.change i (fun p => (f p.list).map (p.record [])) = some t ∧ t.Inv := by
  refine h.change (n := 0) fun p hp => ?_
  obtain ⟨result, hresult, hkeeps⟩ := hf p hp
  refine ⟨_, by rw [hresult]; rfl, (h.pages p (List.mem_of_getElem? hp)).record hkeeps List.nodup_nil nofun, ?_⟩
  intro item hitem
  exact .inl (by simpa [BackForwardPage.record] using hitem)

/-- **A step that fits is taken, and keeps the invariant.** -/
theorem step_inv (h : s.Inv) {op : BackForwardOp} (hfits : s.fits op = true) : ∃ t, s.step op = some t ∧ t.Inv := by
  cases op with
  | newPage =>
    refine ⟨_, rfl, ?_, ?_, h.even, h.states⟩
    · intro p hp
      rcases List.mem_append.1 hp with hp | hp
      · exact h.pages p hp
      · obtain rfl := List.mem_singleton.1 hp
        exact BackForwardPage.Inv.create
    · intro p hp item hitem
      rcases List.mem_append.1 hp with hp | hp
      · exact h.given p hp item hitem
      · obtain rfl := List.mem_singleton.1 hp
        exact absurd hitem List.not_mem_nil
  | addItem i newItem shouldKeep =>
    refine h.change (n := 0) fun p hp => ?_
    rw [fits, hp] at hfits
    simp only [Option.all_some, Bool.and_eq_true, decide_eq_true_eq, Bool.or_eq_true, Bool.not_eq_true'] at hfits
    obtain ⟨⟨hodd, hnew⟩, hkeep⟩ := hfits
    have hpage := h.pages p (List.mem_of_getElem? hp)
    obtain ⟨result, hresult, hkeeps⟩ := addItem_keeps hpage.shape newItem hkeep
    refine ⟨_, by rw [hresult]; rfl, hpage.record hkeeps (List.nodup_singleton _) (by simpa using hnew), ?_⟩
    intro item hitem
    rcases List.mem_append.1 hitem with hin | hin
    · exact .inl hin
    · obtain rfl := List.mem_singleton.1 hin
      exact .inr (.inl hodd)
  | goToItem i item shouldKeep =>
    refine h.change_keeps (f := (·.goToItem item shouldKeep)) fun p hp => ?_
    rw [fits, hp] at hfits
    simp only [Option.all_some, Bool.or_eq_true, decide_eq_true_eq] at hfits
    have hshape := (h.pages p (List.mem_of_getElem? hp)).shape
    by_cases hitem : item ∈ p.list.m_entries
    · obtain ⟨result, hresult, -, hkeeps⟩ := goToItem_spec hshape hitem shouldKeep
      refine ⟨result, hresult, hkeeps ?_⟩
      simpa [hitem] using hfits
    · exact ⟨_, goToItem_of_not_mem hitem shouldKeep, hshape.keeps⟩
  | removeAllItems i =>
    exact h.change_keeps (f := fun l => some l.removeAllItems) fun p hp =>
      ⟨_, rfl, removeAllItems_keeps (h.pages p (List.mem_of_getElem? hp)).shape⟩
  | clear i =>
    refine h.change_keeps (f := fun l => some l.clear) fun p hp => ⟨_, rfl, ?_⟩
    have hpage := h.pages p (List.mem_of_getElem? hp)
    exact clear_keeps hpage.shape hpage.entries_nodup
  | saveState i filter =>
    rw [step]
    rw [fits] at hfits
    cases hp : s.pages[i]? with
    | none => exact ⟨s, rfl, h⟩
    | some p =>
      rw [hp, Option.all_some, decide_eq_true_eq] at hfits
      refine ⟨_, rfl, h.pages, h.given, h.even, ?_⟩
      intro state hstate
      rcases List.mem_append.1 hstate with hstate | hstate
      · exact h.states state hstate
      · obtain rfl := List.mem_singleton.1 hstate
        exact backForwardListState_good (h.pages p (List.mem_of_getElem? hp)).shape hfits
  | restoreFromState i k =>
    rw [step]
    rw [fits] at hfits
    cases hk : s.states[k]? with
    | none => exact ⟨s, rfl, h⟩
    | some state =>
      refine h.change fun p hp => ?_
      rw [hk, hp] at hfits
      have hempty : p.list.m_entries = [] := by simpa using hfits
      have hpage := h.pages p (List.mem_of_getElem? hp)
      have hkeeps := restoreFromState_keeps hpage.shape hempty (h.states state (List.mem_of_getElem? hk))
        (length_generateIDs s.uniqueHistoryItemID state.items.length)
      refine ⟨_, rfl, hpage.record hkeeps (nodup_generateIDs _ _) ?_, ?_⟩
      · -- the ids are even and were not given before
        intro (item : Nat) hitem hin
        have hold := h.given p (List.mem_of_getElem? hp) item hin
        have hnew := mem_generateIDs hitem
        have heven := h.even
        omega
      · intro item hitem
        rcases List.mem_append.1 hitem with hin | hin
        · exact .inl hin
        · exact .inr (.inr (mem_generateIDs hin).2.1)

theorem run_inv {ops : List BackForwardOp} (hr : Run FittingStep initial ops s) : s.Inv := by
  refine hr.invariant ?_ inv_initial
  rintro s op t h ⟨hfits, ht⟩
  obtain ⟨t', ht', hinv⟩ := step_inv h hfits
  obtain rfl := Option.some.inj (ht'.symm.trans ht)
  exact hinv

/-- **Every page stays consistent**, in every run whose steps fit: no step reads past the entries, and an item of a list
that is gone to becomes its current item, whatever the client answers. -/
theorem back_forward_lists_consistent {ops : List BackForwardOp} (hr : Run FittingStep initial ops s) :
    (∀ p ∈ s.pages, p.Consistent ∧ ∀ item shouldKeep,
      (item ∈ p.list.m_entries →
        ∃ result, p.list.goToItem item shouldKeep = some result ∧ result.1.currentItem = some item) ∧
      (item ∉ p.list.m_entries → p.list.goToItem item shouldKeep = some (p.list, ⟨[], []⟩))) ∧
    ∀ op, s.fits op = true → (s.step op).isSome = true := by
  have hinv := run_inv hr
  refine ⟨fun p hp => ⟨(hinv.pages p hp).consistent, fun item shouldKeep => ⟨fun hitem => ?_, fun hitem => ?_⟩⟩, ?_⟩
  · obtain ⟨result, hresult, hcurrent, -⟩ := goToItem_spec (hinv.pages p hp).shape hitem shouldKeep
    exact ⟨result, hresult, hcurrent⟩
  · exact goToItem_of_not_mem hitem shouldKeep
  · intro op hfits
    obtain ⟨t, ht, -⟩ := step_inv hinv hfits
    rw [ht]
    rfl

/-- Three items are added, the second one is gone to, and a second page restores what is left of the list without the
first item. Then the first page is cleared. -/
def savedRun : List BackForwardOp :=
  [.newPage, .addItem 0 1 true, .addItem 0 3 true, .addItem 0 5 true, .goToItem 0 3 true, .saveState 0 (· ≠ 1), .newPage,
    .restoreFromState 1 0, .goToItem 1 4 true, .clear 0]

def savedSession : BackForwardSession where
  pages := [⟨⟨[3], true, 0, 100⟩, [1, 3, 5], [1, 5], [1, 5]⟩, ⟨⟨[2, 4], true, 1, 100⟩, [2, 4], [], []⟩]
  states := [⟨[3, 5], some 0⟩]
  uniqueHistoryItemID := 4

theorem savedRun_run : Run FittingStep initial savedRun savedSession := run_of_runFn_guardFn rfl

theorem back_forward_lists_consistent_saved :
    (∀ p ∈ savedSession.pages, p.Consistent ∧ ∀ item shouldKeep,
      (item ∈ p.list.m_entries →
        ∃ result, p.list.goToItem item shouldKeep = some result ∧ result.1.currentItem = some item) ∧
      (item ∉ p.list.m_entries → p.list.goToItem item shouldKeep = some (p.list, ⟨[], []⟩))) ∧
    ∀ op, savedSession.fits op = true → (savedSession.step op).isSome = true :=
  back_forward_lists_consistent savedRun_run

/-- A run with a page that is not consistent. -/
def EndsInconsistent (ops : List BackForwardOp) : Prop :=
  ∃ s, Run (Via step) initial ops s ∧ ∃ p ∈ s.pages, ¬ p.Consistent

/-- An item is replaced, or dropped on the way to another one, and not sent. A list is restored over another one, whose
item is not reported. A state without the first item, which was the current one, has an index of `2 ^ 32 - 1`. -/
theorem back_forward_list_inconsistent :
    EndsInconsistent [.newPage, .addItem 0 1 true, .addItem 0 3 false] ∧
    EndsInconsistent [.newPage, .addItem 0 1 true, .addItem 0 3 true, .goToItem 0 1 false] ∧
    EndsInconsistent [.newPage, .addItem 0 1 true, .saveState 0 fun _ => true, .restoreFromState 0 0] ∧
    EndsInconsistent [.newPage, .addItem 0 1 true, .addItem 0 3 true, .goToItem 0 1 true, .saveState 0 (· ≠ 1), .newPage,
      .restoreFromState 1 0] := by
  refine ⟨⟨_, run_of_runFn rfl, _, List.mem_singleton_self _, ?_⟩, ⟨_, run_of_runFn rfl, _, List.mem_singleton_self _, ?_⟩,
    ⟨_, run_of_runFn rfl, _, List.mem_singleton_self _, ?_⟩,
    ⟨_, run_of_runFn rfl, _, List.mem_cons_of_mem _ (List.mem_singleton_self _), ?_⟩⟩
  · intro h
    exact absurd h.sent.length_eq (by decide)
  · intro h
    exact absurd h.sent.length_eq (by decide)
  · intro h
    exact absurd ((h.reported 1).2 (by decide)) List.not_mem_nil
  · intro h
    exact absurd (h.inside rfl) (by decide)

end BackForwardSession

end WebKit.WebKit2
