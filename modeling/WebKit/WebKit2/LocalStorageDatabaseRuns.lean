import WebKit.WebKit2.LocalStorageDatabase

/-!
# Nothing is lost on the way to the database

What an iteration visits is written as a whole (`lookup_writeItems`), so a batch moves from the changed items to the table
and the overlay stays as it is (`updateDatabase_overlay`). With an update on the queue whenever something is to be
written (`DatabaseInv`), every step keeps the overlay equal to the content (`step_databaseInv`).
-/

namespace WebKit.WebKit2

open WTF WebCore Transition FiniteMap

/-! ## Iterations -/

section Items

variable {table : ItemTable} {items : Items} {visited : List ChangedItem} {k : WTFString} {value : MaybeString}

theorem lookup_writeItem : (writeItem table (k, value)).lookup k = value := by
  cases value with
  | none => exact Finmap.lookup_erase k table
  | some value => exact Finmap.lookup_insert table

theorem lookup_writeItem_of_ne {item : ChangedItem} (h : k ≠ item.1) :
    (writeItem table item).lookup k = table.lookup k := by
  obtain ⟨key, value⟩ := item
  cases value with
  | none => exact Finmap.lookup_erase_ne h
  | some value => exact Finmap.lookup_insert_of_ne table h

theorem lookup_writeItems_of_not_mem (h : k ∉ visited.map Prod.fst) :
    (visited.foldl writeItem table).lookup k = table.lookup k := by
  induction visited generalizing table with
  | nil => rfl
  | cons item visited ih =>
    rw [List.map_cons, List.mem_cons, not_or] at h
    rw [List.foldl_cons, ih h.2, lookup_writeItem_of_ne h.1]

/-- **What is visited is written.** -/
theorem lookup_writeItems (hn : (visited.map Prod.fst).Nodup) (h : (k, value) ∈ visited) :
    (visited.foldl writeItem table).lookup k = value := by
  induction visited generalizing table with
  | nil => cases h
  | cons item visited ih =>
    rw [List.map_cons, List.nodup_cons] at hn
    rcases List.mem_cons.1 h with rfl | h
    · rw [List.foldl_cons, lookup_writeItems_of_not_mem hn.1, lookup_writeItem]
    · exact ih hn.2 h

theorem lookup_eraseItems_of_not_mem (h : k ∉ visited.map Prod.fst) :
    (visited.foldl (fun items item => items.erase item.1) items).lookup k = items.lookup k := by
  induction visited generalizing items with
  | nil => rfl
  | cons item visited ih =>
    rw [List.map_cons, List.mem_cons, not_or] at h
    rw [List.foldl_cons, ih h.2, Finmap.lookup_erase_ne h.1]

theorem lookup_eraseItems (h : k ∈ visited.map Prod.fst) :
    (visited.foldl (fun items item => items.erase item.1) items).lookup k = none := by
  induction visited generalizing items with
  | nil => cases h
  | cons item visited ih =>
    rw [List.foldl_cons]
    by_cases hmem : k ∈ visited.map Prod.fst
    · exact ih hmem
    · rw [List.map_cons, List.mem_cons] at h
      rw [lookup_eraseItems_of_not_mem hmem, h.resolve_right hmem, Finmap.lookup_erase]

end Items

namespace LocalStorageDatabase

variable {s t : LocalStorageDatabase} {items : List ChangedItem} {visited : List ChangedItem} {k : WTFString}
  {content : WTFString → MaybeString}

/-! ## What the calls mean -/

/-- The content after a call. -/
def applyOp (content : WTFString → MaybeString) : Op → WTFString → MaybeString
  | .setItem key value => Function.update content key value
  | .removeItem key => Function.update content key none
  | .clear => fun _ => none
  | .importItems | .update _ => content

/-- The table under what is still to be written. -/
def overlay (s : LocalStorageDatabase) (k : WTFString) : MaybeString :=
  match s.changedItems.lookup k with
  | some value => value
  | none => if s.shouldClearItems then none else s.table.lookup k

theorem overlay_of_lookup {value : MaybeString} (h : s.changedItems.lookup k = some value) : s.overlay k = value := by
  rw [overlay, h]

theorem overlay_of_not_mem (h : s.changedItems.lookup k = none) :
    s.overlay k = if s.shouldClearItems then none else s.table.lookup k := by
  rw [overlay, h]

/-- Something to be written is scheduled, and one callback is on the queue for it. -/
structure DatabaseInv (s : LocalStorageDatabase) (content : WTFString → MaybeString) : Prop where
  overlay : s.overlay = content
  idle : s.didScheduleDatabaseUpdate = false → s.changedItems = ∅ ∧ s.shouldClearItems = false
  pending : s.pendingUpdates = if s.didScheduleDatabaseUpdate then 1 else 0
  notClosed : s.isClosed = false

theorem databaseInv_create {file : Option ItemTable} :
    DatabaseInv (create file) fun k => (create file).table.lookup k :=
  ⟨funext fun k => overlay_of_not_mem (Finmap.lookup_empty k), fun _ => ⟨rfl, rfl⟩, rfl, rfl⟩

/-! ## Opening and scheduling -/

theorem openDatabase_eq (s : LocalStorageDatabase) (strategy : DatabaseOpeningStrategy) :
    ∃ file isOpen, s.openDatabase strategy = { s with file, isOpen } ∧ file.getD ∅ = s.table := by
  cases strategy with
  | createIfNonExistent => exact ⟨some s.table, true, rfl, rfl⟩
  | skipIfNonExistent =>
    by_cases hf : s.file = none
    · exact ⟨s.file, s.isOpen, if_pos hf, rfl⟩
    · exact ⟨some s.table, true, if_neg hf, rfl⟩

theorem overlay_congr (ht : t.table = s.table) (hc : t.shouldClearItems = s.shouldClearItems)
    (hi : t.changedItems = s.changedItems) : t.overlay = s.overlay := by
  funext k
  unfold overlay
  rw [ht, hc, hi]

theorem overlay_scheduleDatabaseUpdate : s.scheduleDatabaseUpdate.overlay = s.overlay := by
  unfold scheduleDatabaseUpdate
  split <;> rfl

theorem scheduleDatabaseUpdate_scheduled : s.scheduleDatabaseUpdate.didScheduleDatabaseUpdate = true := by
  unfold scheduleDatabaseUpdate
  split
  · assumption
  · rfl

theorem scheduleDatabaseUpdate_isClosed : s.scheduleDatabaseUpdate.isClosed = s.isClosed := by
  unfold scheduleDatabaseUpdate
  split <;> rfl

theorem scheduleDatabaseUpdate_pending (h : s.pendingUpdates = if s.didScheduleDatabaseUpdate then 1 else 0) :
    s.scheduleDatabaseUpdate.pendingUpdates = 1 := by
  unfold scheduleDatabaseUpdate
  split
  · rename_i hs
    rw [h, if_pos hs]
  · rename_i hs
    simp only
    rw [h, if_neg hs]

/-- A change that is scheduled keeps the invariant. -/
theorem databaseInv_schedule (hoverlay : s.overlay = content)
    (hpending : s.pendingUpdates = if s.didScheduleDatabaseUpdate then 1 else 0) (hclosed : s.isClosed = false) :
    DatabaseInv s.scheduleDatabaseUpdate content where
  overlay := overlay_scheduleDatabaseUpdate.trans hoverlay
  idle h := absurd (scheduleDatabaseUpdate_scheduled.symm.trans h) (by decide)
  pending := by rw [scheduleDatabaseUpdate_pending hpending, scheduleDatabaseUpdate_scheduled, if_pos rfl]
  notClosed := scheduleDatabaseUpdate_isClosed.trans hclosed

theorem itemDidChange_databaseInv {value : MaybeString} (h : DatabaseInv s content) :
    DatabaseInv (s.itemDidChange k value) (Function.update content k value) := by
  refine databaseInv_schedule (funext fun key => ?_) h.pending h.notClosed
  by_cases hk : key = k
  · subst hk
    rw [Function.update_self]
    exact overlay_of_lookup (Finmap.lookup_insert _)
  · rw [Function.update_of_ne hk, ← h.overlay]
    unfold overlay table
    simp only [Finmap.lookup_insert_of_ne _ hk]

theorem clear_databaseInv (h : DatabaseInv s content) : DatabaseInv s.clear fun _ => none :=
  databaseInv_schedule (funext fun k => overlay_of_not_mem (Finmap.lookup_empty k)) h.pending h.notClosed

theorem importItems_databaseInv (h : DatabaseInv s content) : DatabaseInv s.importItems.1 content := by
  unfold importItems
  split
  · exact h
  · obtain ⟨file, isOpen, heq, hfile⟩ :=
      openDatabase_eq { s with didImportItems := true } .skipIfNonExistent
    rw [heq]
    have htable : table { s with didImportItems := true, file, isOpen } = s.table := hfile
    exact ⟨(overlay_congr htable rfl rfl).trans h.overlay, h.idle, h.pending, h.notClosed⟩

/-! ## Writing -/

theorem updateDatabaseWithChangedItems_spec (s : LocalStorageDatabase) (items : List ChangedItem) :
    (s.updateDatabaseWithChangedItems items).table =
        items.foldl writeItem (if s.shouldClearItems then ∅ else s.table) ∧
      (s.updateDatabaseWithChangedItems items).shouldClearItems = false ∧
      (s.updateDatabaseWithChangedItems items).changedItems = s.changedItems ∧
      (s.updateDatabaseWithChangedItems items).didScheduleDatabaseUpdate = s.didScheduleDatabaseUpdate ∧
      (s.updateDatabaseWithChangedItems items).pendingUpdates = s.pendingUpdates ∧
      (s.updateDatabaseWithChangedItems items).isClosed = s.isClosed := by
  unfold updateDatabaseWithChangedItems openDatabase
  cases s.isOpen <;> cases hc : s.shouldClearItems <;> simp [table, hc]

theorem table_updateDatabase_congr (u : LocalStorageDatabase) (ht : u.table = s.table)
    (hc : u.shouldClearItems = s.shouldClearItems) :
    (u.updateDatabaseWithChangedItems items).table = (s.updateDatabaseWithChangedItems items).table := by
  rw [(updateDatabaseWithChangedItems_spec u items).1, (updateDatabaseWithChangedItems_spec s items).1, ht, hc]

/-- What is left of the changed items of `s` once `visited` is written. -/
structure LeavesOf (s u : LocalStorageDatabase) (visited : List ChangedItem) : Prop where
  mem : ∀ k value, (k, value) ∈ visited → s.changedItems.lookup k = some value
  nodup : (visited.map Prod.fst).Nodup
  left : ∀ k ∉ visited.map Prod.fst, u.changedItems.lookup k = s.changedItems.lookup k
  taken : ∀ k ∈ visited.map Prod.fst, u.changedItems.lookup k = none
  table : u.table = s.table
  shouldClear : u.shouldClearItems = s.shouldClearItems

/-- **A batch moves from the changed items to the table**: the overlay of what is left is the overlay before. -/
theorem LeavesOf.overlay {u : LocalStorageDatabase} (h : LeavesOf s u visited) :
    (u.updateDatabaseWithChangedItems visited).overlay = s.overlay := by
  obtain ⟨ht, hc, hi, -, -, -⟩ := updateDatabaseWithChangedItems_spec u visited
  rw [h.shouldClear, h.table] at ht
  funext k
  by_cases hk : k ∈ visited.map Prod.fst
  · obtain ⟨⟨key, value⟩, hitem, rfl⟩ := List.mem_map.1 hk
    rw [overlay_of_lookup (h.mem _ _ hitem), overlay_of_not_mem (hi ▸ h.taken _ hk), hc, ht]
    exact lookup_writeItems h.nodup hitem
  · cases hv : s.changedItems.lookup k with
    | some value => rw [overlay_of_lookup hv, overlay_of_lookup (by rw [hi, h.left k hk, hv])]
    | none =>
      rw [overlay_of_not_mem hv, overlay_of_not_mem (by rw [hi, h.left k hk, hv]), hc, ht,
        lookup_writeItems_of_not_mem hk]
      cases s.shouldClearItems with
      | true => exact Finmap.lookup_empty k
      | false => rfl

theorem leavesOf_empty {u : LocalStorageDatabase} {n : Nat} (hv : Iterates s.changedItems n visited)
    (hn : s.changedItems.keys.card ≤ n) (hi : u.changedItems = ∅) (ht : u.table = s.table)
    (hc : u.shouldClearItems = s.shouldClearItems) : LeavesOf s u visited where
  mem k value hmem := hv.mem _ hmem
  nodup := hv.nodup
  left k hk := by
    rw [hi, Finmap.lookup_empty]
    cases hl : s.changedItems.lookup k with
    | none => rfl
    | some value => exact absurd (List.mem_map_of_mem (hv.complete hn hl)) hk
  taken k _ := by rw [hi, Finmap.lookup_empty]
  table := ht
  shouldClear := hc

theorem LeavesOf.databaseInv {u : LocalStorageDatabase} (h : LeavesOf s u visited) (hs : DatabaseInv s content)
    (hidle : u.didScheduleDatabaseUpdate = false → u.changedItems = ∅)
    (hpending : u.pendingUpdates = if u.didScheduleDatabaseUpdate then 1 else 0) (hclosed : u.isClosed = false) :
    DatabaseInv (u.updateDatabaseWithChangedItems visited) content := by
  obtain ⟨-, hc, hi, hd, hp, hcl⟩ := updateDatabaseWithChangedItems_spec u visited
  exact ⟨h.overlay.trans hs.overlay, fun hnot => ⟨hi.trans (hidle (hd ▸ hnot)), hc⟩, by rw [hp, hd, hpending],
    hcl.trans hclosed⟩

/-! ## Every step -/

/-- **An update keeps the overlay.** -/
theorem updateDatabase_databaseInv (h : DatabaseInv s content) (hs : 0 < s.pendingUpdates)
    (hv : Iterates s.changedItems maximumItemsToUpdate visited) :
    DatabaseInv ({ s with pendingUpdates := s.pendingUpdates - 1 }.updateDatabase visited) content := by
  have hzero : s.pendingUpdates - 1 = 0 := by
    have := h.pending
    split at this <;> omega
  unfold updateDatabase
  rw [hzero]
  simp only [h.notClosed, Bool.false_eq_true, if_false]
  by_cases hcard : s.changedItems.keys.card ≤ maximumItemsToUpdate
  · -- all changed items are written
    rw [if_pos hcard]
    refine LeavesOf.databaseInv ?_ h (fun _ => rfl) rfl rfl
    exact leavesOf_empty hv hcard rfl rfl rfl
  · -- one batch is written, the rest is scheduled
    rw [if_neg hcard]
    unfold scheduleDatabaseUpdate
    simp only [Bool.false_eq_true, if_false]
    refine LeavesOf.databaseInv ?_ h (fun hnot => by cases hnot) rfl rfl
    exact ⟨fun k value hmem => hv.mem _ hmem, hv.nodup, fun k hk => lookup_eraseItems_of_not_mem hk,
      fun k hk => lookup_eraseItems hk, rfl, rfl⟩

/-- **A step keeps the invariant**, for the content after it. -/
theorem step_databaseInv {op : Op} (h : DatabaseInv s content) (hs : s.step op = some t) :
    DatabaseInv t (applyOp content op) := by
  cases op with
  | importItems =>
    cases hs
    exact importItems_databaseInv h
  | setItem key value =>
    cases hs
    exact itemDidChange_databaseInv h
  | removeItem key =>
    cases hs
    exact itemDidChange_databaseInv h
  | clear =>
    cases hs
    exact clear_databaseInv h
  | update visited =>
    rw [step, Option.ite_none_right_eq_some] at hs
    obtain ⟨⟨hpending, hv⟩, hs⟩ := hs
    cases hs
    exact updateDatabase_databaseInv h hpending hv

theorem table_close : (s.close visited).table =
    if s.didScheduleDatabaseUpdate then (s.updateDatabaseWithChangedItems visited).table else s.table := by
  have hdelete : ∀ u : LocalStorageDatabase, (if (u.isOpen && decide (u.table = ∅)) = true then none else u.file).getD ∅ =
      u.table := by
    intro u
    split
    · rename_i hempty
      simp only [Bool.and_eq_true, decide_eq_true_eq] at hempty
      exact hempty.2.symm
    · rfl
  refine (hdelete _).trans ?_
  cases hs : s.didScheduleDatabaseUpdate with
  | false => rfl
  | true =>
    simp only [if_true]
    exact table_updateDatabase_congr { s with isClosed := true, didScheduleDatabaseUpdate := true } rfl rfl

/-- **`close` stores the overlay.** -/
theorem close_table (h : DatabaseInv s content) (hv : Iterates s.changedItems s.changedItems.keys.card visited)
    (k : WTFString) : (s.close visited).table.lookup k = content k := by
  rw [table_close, ← h.overlay]
  cases hs : s.didScheduleDatabaseUpdate with
  | false =>
    obtain ⟨hi, hc⟩ := h.idle hs
    rw [overlay_of_not_mem (by rw [hi, Finmap.lookup_empty]), hc]
    rfl
  | true =>
    have hl : LeavesOf s { s with changedItems := ∅ } visited := leavesOf_empty hv (le_refl _) rfl rfl rfl
    obtain ⟨-, hc, hi, -, -, -⟩ := updateDatabaseWithChangedItems_spec { s with changedItems := ∅ } visited
    have ht : ({ s with changedItems := ∅ }.updateDatabaseWithChangedItems visited).table =
        (s.updateDatabaseWithChangedItems visited).table := table_updateDatabase_congr _ rfl rfl
    rw [← hl.overlay, overlay_of_not_mem (by rw [hi, Finmap.lookup_empty]), hc, ht]
    rfl

/-! ## Runs -/

theorem run_databaseInv {ops : List Op} (hr : Run (Via step) s ops t) (h : DatabaseInv s content) :
    DatabaseInv t (ops.foldl applyOp content) := by
  induction hr generalizing content with
  | nil s => exact h
  | cons hs _ ih => exact ih (step_databaseInv h hs)

end LocalStorageDatabase

end WebKit.WebKit2
