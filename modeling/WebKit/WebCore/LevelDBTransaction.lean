import Mathlib.Data.Finmap
import WebKit.Lib.Direction

/-!
# Transactions of a LevelDB database and their iterators

A `LevelDBTransaction` has a snapshot of the database and a tree of the changes, whose nodes have a value or are marked as
deleted. A `TransactionIterator` walks over both with an iterator of the tree and one of the snapshot, one of which is the
current one.

The keys are linearly ordered by the comparator. The snapshot and the tree are finite maps, whose iterators go to the
next key in order. The iterator of the tree holds a path of nodes: when a node is inserted the path is `stale`, and
stepping along it is an error, as is stepping from or reading at an iterator that is not valid. An operation with such an
error is `none`, and so is `handleConflictsAndDeletes` if it goes on after every node was visited.
-/

namespace WebKit.WebCore

open WebKit.Lib

abbrev Value := List UInt8

structure AVLTreeNode where
  value : Value
  deleted : Bool
  deriving DecidableEq, Repr

variable {K : Type*} [LinearOrder K]

abbrev Snapshot (K : Type*) := Finmap fun _ : K => Value

abbrev TreeType (K : Type*) := Finmap fun _ : K => AVLTreeNode

/-! ## The iterator of the tree -/

/-- The node that the path leads to, and whether the tree has changed since the path was made. -/
structure TreeIterator (K : Type*) where
  m_iterator : Option K
  stale : Bool
  deriving DecidableEq, Repr

inductive SearchType
  | EQUAL
  | GREATER

namespace TreeIterator

def start_iter (tree : TreeType K) (target : K) : SearchType → Option K
  | .EQUAL => if target ∈ tree then some target else none
  | .GREATER => firstAhead .kForward tree.keys target

def isValid (it : TreeIterator K) : Bool := it.m_iterator.isSome

def seekToLast (tree : TreeType K) : TreeIterator K := ⟨greatest tree.keys, false⟩

def seek (tree : TreeType K) (target : K) : TreeIterator K :=
  match start_iter tree target .EQUAL with
  | some key => ⟨some key, false⟩
  | none => ⟨start_iter tree target .GREATER, false⟩

def next (tree : TreeType K) (it : TreeIterator K) : Option (TreeIterator K) :=
  it.m_iterator.bind fun key => if it.stale then none else some ⟨firstAhead .kForward tree.keys key, false⟩

def prev (tree : TreeType K) (it : TreeIterator K) : Option (TreeIterator K) :=
  it.m_iterator.bind fun key => if it.stale then none else some ⟨firstAhead .kReverse tree.keys key, false⟩

def value (tree : TreeType K) (it : TreeIterator K) : Option Value :=
  it.m_iterator.bind fun key => (tree.lookup key).map (·.value)

def isDeleted (tree : TreeType K) (it : TreeIterator K) : Option Bool :=
  it.m_iterator.bind fun key => (tree.lookup key).map (·.deleted)

def reset (tree : TreeType K) (it : TreeIterator K) : Option (TreeIterator K) :=
  it.m_iterator.map fun key => ⟨start_iter tree key .EQUAL, false⟩

end TreeIterator

/-! ## The iterator of the snapshot -/

namespace DBIterator

def seekToLast (snapshot : Snapshot K) : Option K := greatest snapshot.keys

def seek (snapshot : Snapshot K) (target : K) : Option K := least (snapshot.keys.filter (target ≤ ·))

def next (snapshot : Snapshot K) (it : Option K) : Option (Option K) := it.map (firstAhead .kForward snapshot.keys)

def prev (snapshot : Snapshot K) (it : Option K) : Option (Option K) := it.map (firstAhead .kReverse snapshot.keys)

end DBIterator

/-! ## The iterator of a transaction -/

inductive CurrentIterator
  | treeIterator
  | dbIterator
  deriving DecidableEq, Repr

structure TransactionIterator (K : Type*) where
  m_treeIterator : TreeIterator K
  m_dbIterator : Option K
  m_current : Option CurrentIterator
  m_direction : Direction
  m_treeChanged : Bool
  deriving DecidableEq, Repr

namespace TransactionIterator

variable (snapshot : Snapshot K) (tree : TreeType K)

def create : TransactionIterator K := ⟨⟨none, false⟩, none, none, .kForward, false⟩

def isValid (it : TransactionIterator K) : Bool := it.m_current.isSome

def currentKey (it : TransactionIterator K) : Option K :=
  it.m_current.bind fun
    | .treeIterator => it.m_treeIterator.m_iterator
    | .dbIterator => it.m_dbIterator

/-- The first part of a turn of `handleConflictsAndDeletes`: the tree takes precedence over an equal key. -/
def handleConflict (it : TransactionIterator K) : Option (TransactionIterator K) :=
  if it.m_treeIterator.isValid && it.m_dbIterator.isSome && it.m_treeIterator.m_iterator = it.m_dbIterator then
    let step := if it.m_direction = .kForward then DBIterator.next else DBIterator.prev
    (step snapshot it.m_dbIterator).map fun db => { it with m_dbIterator := db }
  else some it

def treeIteratorIsLower (it : TransactionIterator K) : Bool :=
  it.m_treeIterator.m_iterator.any fun key => it.m_dbIterator.any fun dbKey => key < dbKey

def treeIteratorIsHigher (it : TransactionIterator K) : Bool :=
  it.m_treeIterator.m_iterator.any fun key => it.m_dbIterator.any fun dbKey => dbKey < key

/-- The loop of `handleConflictsAndDeletes`, with the number of turns that are left. -/
def handleLoop : Nat → TransactionIterator K → Option (TransactionIterator K)
  | 0, _ => none
  | turns + 1, it =>
    (it.handleConflict snapshot).bind fun it =>
      if it.m_treeIterator.isValid then
        (it.m_treeIterator.isDeleted tree).bind fun deleted =>
          if deleted && it.m_direction = .kForward && (it.m_dbIterator.isNone || it.treeIteratorIsLower) then
            (it.m_treeIterator.next tree).bind fun treeIterator =>
              handleLoop turns { it with m_treeIterator := treeIterator }
          else if deleted && it.m_direction = .kReverse && (it.m_dbIterator.isNone || it.treeIteratorIsHigher) then
            (it.m_treeIterator.prev tree).bind fun treeIterator =>
              handleLoop turns { it with m_treeIterator := treeIterator }
          else some it
      else some it

def handleConflictsAndDeletes (it : TransactionIterator K) : Option (TransactionIterator K) :=
  handleLoop snapshot tree (tree.keys.card + 1) it

def setCurrentIteratorToSmallestKey (it : TransactionIterator K) : TransactionIterator K :=
  { it with
    m_current := match it.m_treeIterator.m_iterator, it.m_dbIterator with
      | none, none => none
      | some _, none => some .treeIterator
      | none, some _ => some .dbIterator
      | some key, some dbKey => if dbKey < key then some .dbIterator else some .treeIterator }

def setCurrentIteratorToLargestKey (it : TransactionIterator K) : TransactionIterator K :=
  { it with
    m_current := match it.m_treeIterator.m_iterator, it.m_dbIterator with
      | none, none => none
      | some _, none => some .treeIterator
      | none, some _ => some .dbIterator
      | some key, some dbKey => if key < dbKey then some .dbIterator else some .treeIterator }

def seekToLast (it : TransactionIterator K) : Option (TransactionIterator K) :=
  (handleConflictsAndDeletes snapshot tree
    { it with
      m_treeIterator := TreeIterator.seekToLast tree, m_dbIterator := DBIterator.seekToLast snapshot,
      m_direction := .kReverse }).map setCurrentIteratorToLargestKey

def seek (it : TransactionIterator K) (target : K) : Option (TransactionIterator K) :=
  (handleConflictsAndDeletes snapshot tree
    { it with
      m_treeIterator := TreeIterator.seek tree target, m_dbIterator := DBIterator.seek snapshot target,
      m_direction := .kForward }).map setCurrentIteratorToSmallestKey

/-- After a node was inserted: the path of the tree iterator is made again, or the iterator is placed next to the key of
the database iterator. -/
def refreshTreeIterator (it : TransactionIterator K) : Option (TransactionIterator K) :=
  let it := { it with m_treeChanged := false }
  if it.m_treeIterator.isValid && it.m_current = some .treeIterator then
    (it.m_treeIterator.reset tree).map fun treeIterator => { it with m_treeIterator := treeIterator }
  else match it.m_dbIterator with
    | none => some it
    | some dbKey =>
      let treeIterator := TreeIterator.seek tree dbKey
      if it.m_direction = .kForward then
        if treeIterator.m_iterator = some dbKey then
          (treeIterator.next tree).map fun treeIterator => { it with m_treeIterator := treeIterator }
        else some { it with m_treeIterator := treeIterator }
      else if treeIterator.isValid then
        (treeIterator.prev tree).map fun treeIterator => { it with m_treeIterator := treeIterator }
      else some { it with m_treeIterator := treeIterator }

/-- The refresh that `next`, `prev`, `key` and `value` begin with. -/
def refreshIfChanged (it : TransactionIterator K) : Option (TransactionIterator K) :=
  if it.m_treeChanged then it.refreshTreeIterator tree else some it

/-- The first part of `next`, when the direction was the other one: the iterator that is not the current one is placed
after `key`. -/
def turnForward (it : TransactionIterator K) : Option (TransactionIterator K) :=
  if it.m_direction = .kForward then some it else
    it.m_current.bind fun current => it.currentKey.bind fun key =>
      match current with
      | .dbIterator =>
        let nonCurrent := TreeIterator.seek tree key
        let nonCurrent := if nonCurrent.m_iterator = some key then nonCurrent.next tree else some nonCurrent
        nonCurrent.map fun nonCurrent => { it with m_treeIterator := nonCurrent, m_direction := .kForward }
      | .treeIterator =>
        let nonCurrent := DBIterator.seek snapshot key
        let nonCurrent := if nonCurrent = some key then DBIterator.next snapshot nonCurrent else some nonCurrent
        nonCurrent.map fun nonCurrent => { it with m_dbIterator := nonCurrent, m_direction := .kForward }

/-- The first part of `prev`, when the direction was the other one. -/
def turnReverse (it : TransactionIterator K) : Option (TransactionIterator K) :=
  if it.m_direction = .kReverse then some it else
    it.m_current.bind fun current => it.currentKey.bind fun key =>
      match current with
      | .dbIterator =>
        let nonCurrent := TreeIterator.seek tree key
        let nonCurrent := if nonCurrent.isValid then nonCurrent.prev tree else some (TreeIterator.seekToLast tree)
        nonCurrent.map fun nonCurrent => { it with m_treeIterator := nonCurrent, m_direction := .kReverse }
      | .treeIterator =>
        let nonCurrent := DBIterator.seek snapshot key
        let nonCurrent :=
          if nonCurrent.isSome then DBIterator.prev snapshot nonCurrent else some (DBIterator.seekToLast snapshot)
        nonCurrent.map fun nonCurrent => { it with m_dbIterator := nonCurrent, m_direction := .kReverse }

/-- `m_current->next()` and `m_current->prev()`. -/
def stepCurrent (treeStep : TreeIterator K → Option (TreeIterator K)) (dbStep : Option K → Option (Option K))
    (it : TransactionIterator K) : Option (TransactionIterator K) :=
  it.m_current.bind fun
    | .treeIterator => (treeStep it.m_treeIterator).map fun treeIterator => { it with m_treeIterator := treeIterator }
    | .dbIterator => (dbStep it.m_dbIterator).map fun dbIterator => { it with m_dbIterator := dbIterator }

def next (it : TransactionIterator K) : Option (TransactionIterator K) :=
  (it.refreshIfChanged tree).bind fun it =>
    (it.turnForward snapshot tree).bind fun it =>
      (it.stepCurrent (TreeIterator.next tree) (DBIterator.next snapshot)).bind fun it =>
        (it.handleConflictsAndDeletes snapshot tree).map setCurrentIteratorToSmallestKey

def prev (it : TransactionIterator K) : Option (TransactionIterator K) :=
  (it.refreshIfChanged tree).bind fun it =>
    (it.turnReverse snapshot tree).bind fun it =>
      (it.stepCurrent (TreeIterator.prev tree) (DBIterator.prev snapshot)).bind fun it =>
        (it.handleConflictsAndDeletes snapshot tree).map setCurrentIteratorToLargestKey

/-- The key, and the iterator after the refresh. -/
def key (it : TransactionIterator K) : Option (TransactionIterator K × K) :=
  (it.refreshIfChanged tree).bind fun it => it.currentKey.map fun key => (it, key)

/-- The value, and the iterator after the refresh. -/
def value (it : TransactionIterator K) : Option (TransactionIterator K × Value) :=
  (it.refreshIfChanged tree).bind fun it =>
    it.m_current.bind fun
      | .treeIterator => (it.m_treeIterator.value tree).map fun value => (it, value)
      | .dbIterator => (it.m_dbIterator.bind fun key => snapshot.lookup key).map fun value => (it, value)

/-- A node was inserted into the tree. -/
def treeChanged (it : TransactionIterator K) : TransactionIterator K :=
  { it with m_treeChanged := true, m_treeIterator := { it.m_treeIterator with stale := true } }

end TransactionIterator

/-! ## Transactions -/

structure LevelDBTransaction (K : Type*) where
  m_snapshot : Snapshot K
  m_tree : TreeType K
  m_iterators : List (TransactionIterator K)

inductive TransactionOp (K : Type*)
  | createIterator
  | put (key : K) (value : Value)
  | remove (key : K)
  | seek (i : Nat) (target : K)
  | seekToLast (i : Nat)
  | next (i : Nat)
  | prev (i : Nat)
  | key (i : Nat)
  | value (i : Nat)

namespace LevelDBTransaction

def create (snapshot : Snapshot K) : LevelDBTransaction K := ⟨snapshot, ∅, []⟩

def set (t : LevelDBTransaction K) (key : K) (value : Value) (deleted : Bool) : LevelDBTransaction K :=
  { t with
    m_tree := t.m_tree.insert key ⟨value, deleted⟩,
    m_iterators := if key ∈ t.m_tree then t.m_iterators else t.m_iterators.map (·.treeChanged) }

def put (t : LevelDBTransaction K) (key : K) (value : Value) : LevelDBTransaction K := t.set key value false

def remove (t : LevelDBTransaction K) (key : K) : LevelDBTransaction K := t.set key [] true

/-- What is found, if anything. -/
def safeGet (t : LevelDBTransaction K) (key : K) : Option Value :=
  match t.m_tree.lookup key with
  | some node => if node.deleted then none else some node.value
  | none => t.m_snapshot.lookup key

/-- An operation on iterator `i`. With an iterator that there is not it does nothing. -/
def change (t : LevelDBTransaction K) (i : Nat) (f : TransactionIterator K → Option (TransactionIterator K)) :
    Option (LevelDBTransaction K) :=
  (t.m_iterators[i]?).elim (some t) fun it => (f it).map fun it => { t with m_iterators := t.m_iterators.set i it }

def step (t : LevelDBTransaction K) : TransactionOp K → Option (LevelDBTransaction K)
  | .createIterator => some { t with m_iterators := t.m_iterators ++ [.create] }
  | .put key value => some (t.put key value)
  | .remove key => some (t.remove key)
  | .seek i target => t.change i fun it => it.seek t.m_snapshot t.m_tree target
  | .seekToLast i => t.change i fun it => it.seekToLast t.m_snapshot t.m_tree
  | .next i => t.change i fun it => it.next t.m_snapshot t.m_tree
  | .prev i => t.change i fun it => it.prev t.m_snapshot t.m_tree
  | .key i => t.change i fun it => (it.key t.m_tree).map Prod.fst
  | .value i => t.change i fun it => (it.value t.m_snapshot t.m_tree).map Prod.fst

end LevelDBTransaction

end WebKit.WebCore
