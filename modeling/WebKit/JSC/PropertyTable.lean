import Mathlib.Data.Nat.Notation

/-!
# Property tables

The hash table behind the properties of an object: an index of entry numbers, and behind it the entries in the order of
insertion. The entry numbers start at 1; the slot behind the last entry is never written, and its number stands in the
index for a removed entry. A slot that is not written has the null key, so the loops over the entries stop there.
-/

namespace WebKit.JSC

/-- Why an operation does not return: an access outside the arrays or through the null key, a `RELEASE_ASSERT`, a loop
that does not end, or a table that there is not. -/
inductive Stop
  | outOfBounds
  | releaseAssert
  | unterminated
  | noTable
  deriving DecidableEq, Repr

theorem ok_bind {α β : Type} (a : α) (f : α → Except Stop β) : (Except.ok a >>= f) = f a := rfl

def nextPowerOf2 (v : UInt32) : UInt32 :=
  let v := v - 1
  let v := v ||| v >>> 1
  let v := v ||| v >>> 2
  let v := v ||| v >>> 4
  let v := v ||| v >>> 8
  let v := v ||| v >>> 16
  v + 1

/-- `WTF::doubleHash`. -/
def doubleHash (key : UInt32) : UInt32 :=
  let key := ~~~key + key >>> 23
  let key := key ^^^ key <<< 12
  let key := key ^^^ key >>> 7
  let key := key ^^^ key <<< 2
  key ^^^ key >>> 20

structure PropertyMapEntry (Key : Type) where
  key : Key
  offset : Int
  attributes : UInt32
  deriving DecidableEq, Repr

/-- A slot of the values: its key is null, `PROPERTY_MAP_DELETED_ENTRY_KEY`, or that of an entry. -/
inductive Slot (Key : Type)
  | null
  | deleted
  | entry (entry : PropertyMapEntry Key)
  deriving DecidableEq, Repr

inductive EffectOnPropertyOffset
  | PropertyOffsetMayChange
  | PropertyOffsetMustNotChange
  deriving DecidableEq, Repr

structure PropertyTable (Key : Type) where
  indexSize : UInt32
  index : List Nat
  table : List (Slot Key)
  keyCount : Nat
  deletedCount : Nat
  deletedOffsets : Option (List Int)
  deriving DecidableEq

variable {Key : Type}

def Slot.hasKey [DecidableEq Key] (key : Key) : Slot Key → Bool
  | .entry e => e.key = key
  | _ => false

namespace PropertyTable

def MinimumTableSize : UInt32 := 16

def EmptyEntryIndex : Nat := 0

def sizeForCapacity (capacity : UInt32) : UInt32 :=
  if capacity < MinimumTableSize / 2 then MinimumTableSize else nextPowerOf2 (capacity + 1) * 2

/-- A table whose arrays are zeroed. -/
def empty (initialCapacity : UInt32) (deletedOffsets : Option (List Int)) : PropertyTable Key :=
  let indexSize := sizeForCapacity initialCapacity
  { indexSize
    index := List.replicate indexSize.toNat EmptyEntryIndex
    table := List.replicate ((indexSize >>> 1).toNat + 1) .null
    keyCount := 0
    deletedCount := 0
    deletedOffsets }

variable (existingHash : Key → UInt32) (t : PropertyTable Key)

def indexMask : UInt32 := t.indexSize - 1

def tableCapacity : Nat := (t.indexSize >>> 1).toNat

def deletedEntryIndex : Nat := t.tableCapacity + 1

def usedCount : Nat := t.keyCount + t.deletedCount

def size : Nat := t.keyCount

def isEmpty : Bool := t.keyCount = 0

def canInsert : Bool := t.usedCount < t.tableCapacity

/-! ## Accesses -/

/-- `m_index[position]`. -/
def readIndex (position : Nat) : Except Stop Nat :=
  match t.index[position]? with
  | some entryIndex => .ok entryIndex
  | none => .error .outOfBounds

/-- `table()[position]`. -/
def readSlot (position : Nat) : Except Stop (Slot Key) :=
  match t.table[position]? with
  | some slot => .ok slot
  | none => .error .outOfBounds

theorem readIndex_eq {t : PropertyTable Key} {position entryIndex : Nat} (h : t.index[position]? = some entryIndex) :
    t.readIndex position = .ok entryIndex := by
  unfold readIndex
  rw [h]

theorem readSlot_eq {t : PropertyTable Key} {position : Nat} {slot : Slot Key} (h : t.table[position]? = some slot) :
    t.readSlot position = .ok slot := by
  unfold readSlot
  rw [h]

/-- The entry at a position of the values. -/
def readEntry (position : Nat) : Except Stop (PropertyMapEntry Key) := do
  match ← t.readSlot position with
  | .entry e => return e
  | _ => .error .outOfBounds

theorem readEntry_eq {t : PropertyTable Key} {position : Nat} {e : PropertyMapEntry Key}
    (h : t.table[position]? = some (.entry e)) : t.readEntry position = .ok e := by
  unfold readEntry
  rw [readSlot_eq h]
  rfl

/-- `m_index[position] = entryIndex`. -/
def writeIndex (position entryIndex : Nat) : Except Stop (PropertyTable Key) :=
  if position < t.index.length then .ok { t with index := t.index.set position entryIndex } else .error .outOfBounds

/-- `table()[position] = slot`. -/
def writeSlot (position : Nat) (slot : Slot Key) : Except Stop (PropertyTable Key) :=
  if position < t.table.length then .ok { t with table := t.table.set position slot } else .error .outOfBounds

/-! ## Finding -/

section

variable [DecidableEq Key]

/-- `while (true)`, for at most `fuel` iterations: the position of the entry, and that in the index. -/
def findLoop (key : Key) : Nat → UInt32 → UInt32 → Except Stop (Option Nat × Nat)
  | 0, _, _ => .error .unterminated
  | fuel + 1, hash, step => do
    let position := (hash &&& t.indexMask).toNat
    let entryIndex ← t.readIndex position
    if entryIndex = EmptyEntryIndex then return (none, position)
    else
      let slot ← t.readSlot (entryIndex - 1)
      if slot.hasKey key then return (some (entryIndex - 1), position)
      else
        let step := if step = 0 then doubleHash (existingHash key) ||| 1 else step
        findLoop key fuel (hash + step) step

def find (key : Key) : Except Stop (Option Nat × Nat) :=
  t.findLoop existingHash key (t.indexSize.toNat + 1) (existingHash key) 0

/-- The loop is that of `find`. -/
def get (key : Key) : Except Stop (Option Nat) := do
  if t.isEmpty then return none
  else
    let iter ← t.find existingHash key
    return iter.1

end

/-! ## Iteration -/

/-- The first position that is not deleted, in slots that start at `position`. -/
def skipDeleted : Nat → List (Slot Key) → Except Stop Nat
  | _, [] => .error .outOfBounds
  | position, .deleted :: slots => skipDeleted (position + 1) slots
  | position, _ :: _ => .ok position

def skipDeletedEntries (position : Nat) : Except Stop Nat := skipDeleted position (t.table.drop position)

/-- `for (; iter != end; ++iter)`, for at most `fuel` iterations. -/
def forLoop {β : Type} (f : β → PropertyMapEntry Key → Except Stop β) : Nat → Nat → β → Except Stop β
  | fuel, position, b =>
    if position = t.usedCount then .ok b
    else
      match fuel with
      | 0 => .error .unterminated
      | fuel + 1 => do
        let e ← t.readEntry position
        let b ← f b e
        let position ← t.skipDeletedEntries (position + 1)
        forLoop f fuel position b

/-- A loop from `begin()` to `end()`. -/
def iterate {β : Type} (f : β → PropertyMapEntry Key → Except Stop β) (b : β) : Except Stop β := do
  let position ← t.skipDeletedEntries 0
  t.forLoop f t.usedCount position b

/-! ## Adding and removing -/

/-- Sets an entry behind the used ones, and the index at a position. -/
def insertAt (position : Nat) (entry : PropertyMapEntry Key) : Except Stop (PropertyTable Key) := do
  let entryIndex := t.usedCount + 1
  let t ← t.writeIndex position entryIndex
  let t ← t.writeSlot (entryIndex - 1) (.entry entry)
  return { t with keyCount := t.keyCount + 1 }

variable [DecidableEq Key]

def reinsert (entry : PropertyMapEntry Key) : Except Stop (PropertyTable Key) := do
  let iter ← t.find existingHash entry.key
  t.insertAt iter.2 entry

def rehash (newCapacity : UInt32) : Except Stop (PropertyTable Key) :=
  t.iterate (fun new e => new.reinsert existingHash e) (empty newCapacity t.deletedOffsets)

/-- Makes room for a key that is not there: the table, and the position in its index. -/
def ensureCapacity (key : Key) (position : Nat) : Except Stop (PropertyTable Key × Nat) := do
  if t.canInsert then return (t, position)
  else
    let t ← t.rehash existingHash (UInt32.ofNat (t.keyCount + 1))
    let iter ← t.find existingHash key
    return (t, iter.2)

/-- The table, whether the key is new, and the largest offset. -/
def add (entry : PropertyMapEntry Key) (offset : Int) (offsetEffect : EffectOnPropertyOffset) :
    Except Stop (PropertyTable Key × Bool × Int) := do
  match ← t.find existingHash entry.key with
  | (some position, _) =>
    let e ← t.readEntry position
    if e.offset ≤ offset then return (t, false, offset) else .error .releaseAssert
  | (none, position) =>
    let (t, position) ← t.ensureCapacity existingHash entry.key position
    let t ← t.insertAt position entry
    if offsetEffect = .PropertyOffsetMayChange then return (t, true, max offset entry.offset)
    else if offset ≥ entry.offset then return (t, true, offset)
    else .error .releaseAssert

/-- `remove(const find_iterator&)`. -/
def removeIter : Option Nat × Nat → Except Stop (PropertyTable Key)
  | (none, _) => .ok t
  | (some position, indexPosition) => do
    let t ← t.writeIndex indexPosition t.deletedEntryIndex
    let _ ← t.readEntry position
    let t ← t.writeSlot position .deleted
    let t := { t with keyCount := t.keyCount - 1, deletedCount := t.deletedCount + 1 }
    if t.deletedCount * 4 ≥ t.indexSize.toNat then t.rehash existingHash (UInt32.ofNat t.keyCount) else return t

def remove (key : Key) : Except Stop (PropertyTable Key) := do
  let iter ← t.find existingHash key
  t.removeIter existingHash iter

/-! ## Creating and copying -/

def create (initialCapacity : UInt32) : PropertyTable Key := empty initialCapacity none

/-- The bytes of the arrays are copied, and every entry is read. -/
def clone : Except Stop (PropertyTable Key) := do
  t.iterate (fun _ _ => .ok ()) ()
  return t

def cloneWithCapacity (initialCapacity : UInt32) : Except Stop (PropertyTable Key) :=
  t.iterate (fun new e => new.reinsert existingHash e) (empty initialCapacity t.deletedOffsets)

def copy (newCapacity : UInt32) : Except Stop (PropertyTable Key) :=
  if sizeForCapacity newCapacity = t.indexSize then t.clone else t.cloneWithCapacity existingHash newCapacity

end PropertyTable

end WebKit.JSC
