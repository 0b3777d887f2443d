import Mathlib.Algebra.Order.Ring.Nat
import Mathlib.Data.List.Basic
import WebKit.Lib.Run

/-!
# Back-forward lists

`WebBackForwardList` keeps the items of a page and the index of the current one. What leaves the list is reported to the
client in the `removedItems` of `didChangeBackForwardList`, and `backForwardRemovedItem` is sent to the web process for
it. An operation is `none` where it reads past the end of `m_entries`.

An item is its id. The ids that the web process gives are odd and those of the UI process, which restored items get, are
even. A session has several pages and the states that were saved, and `step` is one operation on it. `shouldKeep` is the
answer of the client.
-/

namespace WebKit.WebKit2

abbrev ItemID := Nat

structure BackForwardListState where
  items : List ItemID
  currentIndex : Option Nat
  deriving DecidableEq, Repr

structure WebBackForwardList where
  m_entries : List ItemID
  m_hasCurrentIndex : Bool
  m_currentIndex : Nat
  m_capacity : Nat
  deriving DecidableEq, Repr

/-- What an operation tells the web process and the client. -/
structure Notifications where
  backForwardRemovedItem : List ItemID
  removedItems : List ItemID
  deriving DecidableEq, Repr

namespace WebBackForwardList

def defaultCapacity : Nat := 100

def create : WebBackForwardList := ⟨[], false, 0, defaultCapacity⟩

def currentItem (l : WebBackForwardList) : Option ItemID :=
  if l.m_hasCurrentIndex then l.m_entries[l.m_currentIndex]? else none

/-- The first part of `addItem`: the forward items go, the last one first, and the first item goes if the list is full. -/
def makeRoom (l : WebBackForwardList) : WebBackForwardList × List ItemID :=
  if l.m_hasCurrentIndex then
    let targetSize := l.m_currentIndex + 1
    let forward := (l.m_entries.drop targetSize).reverse
    let entries := l.m_entries.take targetSize
    if entries.length = l.m_capacity && (l.m_currentIndex ≠ 0 || l.m_capacity = 1) then
      match entries with
      | [] => ({ l with m_entries := entries }, forward)
      | [first] => ({ l with m_entries := [], m_hasCurrentIndex := false }, forward ++ [first])
      | first :: rest => ({ l with m_entries := rest, m_currentIndex := l.m_currentIndex - 1 }, forward ++ [first])
    else ({ l with m_entries := entries }, forward)
  else ({ l with m_entries := [] }, l.m_entries)

def addItem (l : WebBackForwardList) (newItem : ItemID) (shouldKeep : Bool) :
    Option (WebBackForwardList × Notifications) :=
  if l.m_capacity = 0 then some (l, ⟨[], []⟩) else
    let (l, removedItems) := l.makeRoom
    let sent := removedItems
    if !l.m_hasCurrentIndex then
      some ({ l with m_entries := newItem :: l.m_entries, m_hasCurrentIndex := true, m_currentIndex := 0 },
        ⟨sent, removedItems⟩)
    else if shouldKeep then
      let currentIndex := l.m_currentIndex + 1
      let entries := if currentIndex ≤ l.m_entries.length then l.m_entries.insertIdx currentIndex newItem else l.m_entries
      some ({ l with m_entries := entries, m_currentIndex := currentIndex }, ⟨sent, removedItems⟩)
    else do
      let currentItem ← l.m_entries[l.m_currentIndex]?
      some ({ l with m_entries := l.m_entries.set l.m_currentIndex newItem }, ⟨sent, removedItems ++ [currentItem]⟩)

/-- `notFound`, as an `unsigned`. -/
def notFound : Nat := 2 ^ 32 - 1

def goToItem (l : WebBackForwardList) (item : ItemID) (shouldKeep : Bool) :
    Option (WebBackForwardList × Notifications) :=
  if l.m_entries.isEmpty || !l.m_hasCurrentIndex then some (l, ⟨[], []⟩) else
    match l.m_entries.idxOf? item with
    | none => some (l, ⟨[], []⟩)
    | some targetIndex => do
      let currentItem ← l.m_entries[l.m_currentIndex]?
      if currentItem ≠ item && !shouldKeep then
        let entries := l.m_entries.eraseIdx l.m_currentIndex
        some ({ l with m_entries := entries, m_currentIndex := (entries.idxOf? item).getD notFound }, ⟨[], [currentItem]⟩)
      else some ({ l with m_currentIndex := targetIndex }, ⟨[], []⟩)

def removeAllItems (l : WebBackForwardList) : WebBackForwardList × Notifications :=
  ({ l with m_entries := [], m_hasCurrentIndex := false }, ⟨l.m_entries, l.m_entries⟩)

def clear (l : WebBackForwardList) : WebBackForwardList × Notifications :=
  if l.m_entries.length ≤ 1 then (l, ⟨[], []⟩) else
    match l.currentItem with
    | none => ({ l with m_entries := [], m_hasCurrentIndex := false }, ⟨l.m_entries, l.m_entries⟩)
    | some currentItem =>
      ({ l with m_entries := [currentItem], m_currentIndex := 0 },
        ⟨l.m_entries.filter (· ≠ currentItem), l.m_entries.eraseIdx l.m_currentIndex⟩)

/-- The loop of `backForwardListState`, from entry `i` on. The index is an `uint32_t`. -/
def collectStates (filter : ItemID → Bool) : List ItemID → Nat → BackForwardListState → BackForwardListState
  | [], _, state => state
  | entry :: entries, i, state =>
    if filter entry then collectStates filter entries (i + 1) { state with items := state.items ++ [entry] }
    else collectStates filter entries (i + 1)
      { state with currentIndex := state.currentIndex.map fun c => if i ≤ c then (c + (2 ^ 32 - 1)) % 2 ^ 32 else c }

def backForwardListState (l : WebBackForwardList) (filter : ItemID → Bool) : BackForwardListState :=
  collectStates filter l.m_entries 0 ⟨[], if l.m_hasCurrentIndex then some l.m_currentIndex else none⟩

/-- The ids that `generateWebBackForwardItemID` gives next. -/
def generateIDs (uniqueHistoryItemID : Nat) : Nat → List ItemID
  | 0 => []
  | n + 1 => (uniqueHistoryItemID + 2) :: generateIDs (uniqueHistoryItemID + 2) n

/-- The restored items have the new ids. -/
def restoreFromState (l : WebBackForwardList) (state : BackForwardListState) (ids : List ItemID) : WebBackForwardList :=
  { l with
    m_entries := ids, m_hasCurrentIndex := state.currentIndex.isSome, m_currentIndex := state.currentIndex.getD 0 }

end WebBackForwardList

/-! ## Sessions -/

/-- A page: its list, every item that was ever in it, and what was reported. -/
structure BackForwardPage where
  list : WebBackForwardList
  entered : List ItemID
  sent : List ItemID
  removedItems : List ItemID
  deriving DecidableEq, Repr

inductive BackForwardOp
  | newPage
  | addItem (i : Nat) (newItem : ItemID) (shouldKeep : Bool)
  | goToItem (i : Nat) (item : ItemID) (shouldKeep : Bool)
  | removeAllItems (i : Nat)
  | clear (i : Nat)
  | saveState (i : Nat) (filter : ItemID → Bool)
  | restoreFromState (i k : Nat)

structure BackForwardSession where
  pages : List BackForwardPage
  states : List BackForwardListState
  uniqueHistoryItemID : Nat
  deriving DecidableEq, Repr

namespace BackForwardPage

def create : BackForwardPage := ⟨.create, [], [], []⟩

/-- The list changes, and the notifications are recorded. -/
def record (p : BackForwardPage) (entered : List ItemID) : WebBackForwardList × Notifications → BackForwardPage
  | (list, notifications) =>
    ⟨list, p.entered ++ entered, p.sent ++ notifications.backForwardRemovedItem,
      p.removedItems ++ notifications.removedItems⟩

end BackForwardPage

namespace BackForwardSession

def initial : BackForwardSession := ⟨[], [], 0⟩

/-- An operation on page `i`. With a page that there is not it does nothing. -/
def change (s : BackForwardSession) (i : Nat) (f : BackForwardPage → Option BackForwardPage) :
    Option BackForwardSession :=
  (s.pages[i]?).elim (some s) fun p => (f p).map fun p => { s with pages := s.pages.set i p }

def step (s : BackForwardSession) : BackForwardOp → Option BackForwardSession
  | .newPage => some { s with pages := s.pages ++ [.create] }
  | .addItem i newItem shouldKeep => s.change i fun p => (p.list.addItem newItem shouldKeep).map (p.record [newItem])
  | .goToItem i item shouldKeep => s.change i fun p => (p.list.goToItem item shouldKeep).map (p.record [])
  | .removeAllItems i => s.change i fun p => some (p.record [] p.list.removeAllItems)
  | .clear i => s.change i fun p => some (p.record [] p.list.clear)
  | .saveState i filter =>
    (s.pages[i]?).elim (some s) fun p => some { s with states := s.states ++ [p.list.backForwardListState filter] }
  | .restoreFromState i k =>
    (s.states[k]?).elim (some s) fun state =>
      let ids := WebBackForwardList.generateIDs s.uniqueHistoryItemID state.items.length
      { s with uniqueHistoryItemID := s.uniqueHistoryItemID + 2 * state.items.length }.change i fun p =>
        some (p.record ids (p.list.restoreFromState state ids, ⟨[], []⟩))

end BackForwardSession

end WebKit.WebKit2
