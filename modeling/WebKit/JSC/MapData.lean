import WebKit.WTF.Double

/-!
# Map data

The storage behind `Map` and `Set`: an array of entries in the order of their insertion, and three hash tables, for
object keys, for string keys and for all other keys, from a key to the index of its entry. Removing a key clears its
entry; when the entries are moved to a new array, they are packed if there are cleared ones and `m_iteratorCount` is 0.
Then each old entry holds a forwarding index to the new one, with which the tables are fixed up.

A hash table is the list of its keys and indices. A slot of the array that was never written is `none`.
-/

namespace WebKit.JSC

open WebKit.WTF

/-- A `JSValue`, as far as a map distinguishes them: a string is its characters, and another cell its address. -/
inductive MapValue
  | string (characters : List UInt16)
  | cell (address : Nat)
  | int32 (value : Int)
  | double (value : Double)
  | boolean (value : Bool)
  | null
  | undefined
  deriving DecidableEq

/-- Why an operation does not return: an access to a slot that is not there or was never written, a `RELEASE_ASSERT`, an
`asInt32` of something else, or a capacity that is not an `int32_t`. -/
inductive MapFault
  | wild
  | releaseAssert
  | notAnInt32
  | overflow
  deriving DecidableEq, Repr

/-- A cleared entry has no key. -/
structure MapEntry where
  key : Option MapValue
  value : Option MapValue
  deriving DecidableEq

/-! ## Hash tables -/

abbrev IndexTable (κ : Type) := List (κ × Nat)

namespace IndexTable

variable {κ : Type} [DecidableEq κ]

def find (key : κ) (table : IndexTable κ) : Option Nat := (List.find? (fun e => e.1 = key) table).map Prod.snd

def add (key : κ) (index : Nat) (table : IndexTable κ) : IndexTable κ := (key, index) :: table

def remove (key : κ) (table : IndexTable κ) : IndexTable κ := List.filter (fun e => e.1 ≠ key) table

end IndexTable

/-! ## Keys -/

namespace MapValue

/-- `static_cast<int>(d)`: a double outside the range of `int` gives the least `int`. -/
def truncate (d : Double) : Int :=
  let i := d.value.tdiv (2 ^ 1074)
  if -2 ^ 31 ≤ i ∧ i < 2 ^ 31 then i else -2 ^ 31

/-- `KeyType(JSValue)`: a double that is an `int` becomes one. -/
def keyType : MapValue → MapValue
  | .double d =>
    if d.isNaN || d.isNegative && decide (d.value = 0) then .double d
    else if truncate d * 2 ^ 1074 ≠ d.value then .double d
    else .int32 (truncate d)
  | v => v

end MapValue

structure MapData where
  cellKeyedTable : IndexTable Nat
  valueKeyedTable : IndexTable MapValue
  stringKeyedTable : IndexTable (List UInt16)
  capacity : Nat
  size : Nat
  deletedCount : Nat
  iteratorCount : Int
  entries : List (Option MapEntry)
  deriving DecidableEq

namespace MapData

def minimumMapSize : Nat := 8

def create : MapData :=
  { cellKeyedTable := [], valueKeyedTable := [], stringKeyedTable := [], capacity := 0, size := 0, deletedCount := 0,
    iteratorCount := 0, entries := [] }

variable (d : MapData)

/-! ## Access -/

def readSlot (slots : List (Option MapEntry)) (i : Nat) : Except MapFault MapEntry :=
  match slots[i]? with
  | some (some entry) => .ok entry
  | _ => .error .wild

def writeSlot (slots : List (Option MapEntry)) (i : Nat) (entry : MapEntry) :
    Except MapFault (List (Option MapEntry)) :=
  if i < slots.length then .ok (slots.set i (some entry)) else .error .wild

/-- The index of a key, in the table for keys of its kind. -/
def findIndex : MapValue → Option Nat
  | .string characters => d.stringKeyedTable.find characters
  | .cell address => d.cellKeyedTable.find address
  | key => d.valueKeyedTable.find key

def addIndex (index : Nat) : MapValue → MapData
  | .string characters => { d with stringKeyedTable := d.stringKeyedTable.add characters index }
  | .cell address => { d with cellKeyedTable := d.cellKeyedTable.add address index }
  | key => { d with valueKeyedTable := d.valueKeyedTable.add key index }

def removeIndex : MapValue → MapData
  | .string characters => { d with stringKeyedTable := d.stringKeyedTable.remove characters }
  | .cell address => { d with cellKeyedTable := d.cellKeyedTable.remove address }
  | key => { d with valueKeyedTable := d.valueKeyedTable.remove key }

/-! ## The backing store -/

def shouldPack : Bool := decide (d.deletedCount ≠ 0) && decide (d.iteratorCount = 0)

/-- `for (int32_t i = 0; i < m_size; i++)`: the new entries, the old ones with their forwarding indices, and the new
end. -/
def packLoop : List (Option MapEntry) → List (Option MapEntry) → Nat →
    Except MapFault (List (Option MapEntry) × List (Option MapEntry) × Nat)
  | destination, [], newEnd => .ok (destination, [], newEnd)
  | _, none :: _, _ => .error .wild
  | destination, some entry :: slots, newEnd => do
    if entry.key.isNone then
      let (destination, slots, newEnd) ← packLoop destination slots newEnd
      return (destination, some entry :: slots, newEnd)
    else
      let destination ← writeSlot destination newEnd entry
      let (destination, slots, end') ← packLoop destination slots (newEnd + 1)
      return (destination, some { entry with value := some (.int32 newEnd) } :: slots, end')

def asInt32 : Option MapValue → Except MapFault Int
  | some (.int32 value) => .ok value
  | _ => .error .notAnInt32

/-- `for (auto ptr = table.begin(); ptr != table.end(); ++ptr)`. -/
def fixup {κ : Type} (slots : List (Option MapEntry)) (table : IndexTable κ) : Except MapFault (IndexTable κ) :=
  table.mapM fun e => do
    let entry ← readSlot slots e.2
    let index ← asInt32 entry.value
    return (e.1, index.toNat)

/-- The table for object keys is not fixed up. -/
def replaceAndPackBackingStore (destination : List (Option MapEntry)) (newCapacity : Nat) :
    Except MapFault MapData := do
  if newCapacity = 0 then .error .releaseAssert
  else
    let (destination, slots, newEnd) ← packLoop destination (d.entries.take d.size) 0
    let valueKeyedTable ← fixup slots d.valueKeyedTable
    let stringKeyedTable ← fixup slots d.stringKeyedTable
    return { d with
      valueKeyedTable, stringKeyedTable, deletedCount := 0, capacity := newCapacity, size := newEnd,
      entries := destination }

def replaceBackingStore (destination : List (Option MapEntry)) (newCapacity : Nat) : Except MapFault MapData :=
  if newCapacity = 0 then .error .releaseAssert
  else if destination.length < d.size then .error .wild
  else .ok { d with
    capacity := newCapacity, entries := d.entries.take d.size ++ destination.drop d.size }

/-- Slots that were never written. -/
def newStorage (capacity : Nat) : List (Option MapEntry) := List.replicate capacity none

def moveBackingStore (newCapacity : Nat) : Except MapFault MapData :=
  if d.shouldPack then d.replaceAndPackBackingStore (newStorage newCapacity) newCapacity
  else d.replaceBackingStore (newStorage newCapacity) newCapacity

def requiredSize : Nat := max (d.capacity + d.capacity / 2 + 1) minimumMapSize

/-- The map, and whether there is space. `memory` says whether storage can be allocated. -/
def ensureSpaceForAppend (memory : Bool) : Except MapFault (MapData × Bool) := do
  if d.capacity > d.size then return (d, true)
  else if d.requiredSize ≥ 2 ^ 31 then .error .overflow
  else if !memory then return (d, false)
  else
    let d ← d.moveBackingStore d.requiredSize
    return (d, true)

/-- The storage is evacuated by the garbage collector. A map without entries has no storage. -/
def copyBackingStore : Except MapFault MapData := do
  if d.capacity = 0 then return d else d.moveBackingStore d.capacity

/-! ## The operations -/

def find (key : MapValue) : Except MapFault (Option MapEntry) := do
  match d.findIndex key with
  | none => return none
  | some index => do
    let entry ← readSlot d.entries index
    return some entry

def contains (key : MapValue) : Except MapFault Bool := do
  let entry ← d.find key.keyType
  return entry.isSome

def get (key : MapValue) : Except MapFault (Option MapValue) := do
  match ← d.find key.keyType with
  | some entry => return entry.value
  | none => return none

/-- The index of the entry of a key, which is new if there was none; there is none if there is no memory for it. -/
def add (memory : Bool) (key : MapValue) : Except MapFault (MapData × Option Nat) := do
  match d.findIndex key with
  | some index => return (d, some index)
  | none => do
    let (d, space) ← d.ensureSpaceForAppend memory
    if !space then return (d, none)
    else if (d.findIndex key).isSome then .error .releaseAssert
    else
      let index := d.size
      let d := d.addIndex index key
      let entries ← writeSlot d.entries index { key := some key, value := none }
      return ({ d with size := index + 1, entries }, some index)

/-- The map, and whether there was memory. -/
def set (memory : Bool) (key value : MapValue) : Except MapFault (MapData × Bool) := do
  let (d, location) ← d.add memory key.keyType
  match location with
  | none => return (d, false)
  | some index => do
    let entry ← readSlot d.entries index
    let entries ← writeSlot d.entries index { entry with value := some value }
    return ({ d with entries }, true)

def remove (key : MapValue) : Except MapFault (MapData × Bool) := do
  match d.findIndex key.keyType with
  | none => return (d, false)
  | some location => do
    let d := d.removeIndex key.keyType
    let entries ← writeSlot d.entries location { key := none, value := none }
    return ({ d with entries, deletedCount := d.deletedCount + 1 }, true)

def clear : MapData :=
  { d with
    cellKeyedTable := [], valueKeyedTable := [], stringKeyedTable := [], capacity := 0, size := 0, deletedCount := 0,
    entries := [] }

/-- `size(CallFrame*)`. -/
def liveSize : Nat := d.size - d.deletedCount

/-! ## Iterators -/

/-- `while (index < end && !entries[index].key)`, for at most `fuel` iterations. -/
def skipLoop : Nat → Nat → Except MapFault Nat
  | 0, index => .ok index
  | fuel + 1, index => do
    if index < d.size then
      let entry ← readSlot d.entries index
      if entry.key.isNone then skipLoop fuel (index + 1) else return index
    else return index

/-- The `m_index` behind the given one. -/
def internalIncrement (index : Int) : Except MapFault Int := do
  let start := (index + 1).toNat
  let index ← d.skipLoop (d.size - start) start
  return index

/-- `const_iterator(const MapData*)`. -/
def begin : Except MapFault Int := d.internalIncrement (-1)

/-- The new `m_index`, and whether there is an entry at it. -/
def ensureSlot (index : Int) : Except MapFault (Int × Bool) := do
  let here ← if 0 ≤ index ∧ index.toNat < d.size then do
      let entry ← readSlot d.entries index.toNat
      pure entry.key.isSome
    else pure false
  if here then return (index, true)
  else
    let index ← d.internalIncrement index
    return (index, decide (index.toNat < d.size))

/-- `~const_iterator()`. -/
def destroyIterator : MapData := { d with iteratorCount := d.iteratorCount - 1 }

/-- `for (auto it = begin(); it != end(); ++it)`, for at most `fuel` iterations: the entries. -/
def iterateLoop : Nat → Int → Except MapFault (List (Option MapValue × Option MapValue))
  | 0, _ => .ok []
  | fuel + 1, index => do
    if index.toNat < d.size then
      let entry ← readSlot d.entries index.toNat
      let index ← d.internalIncrement index
      let entries ← iterateLoop fuel index
      return (entry.key, entry.value) :: entries
    else return []

/-- A full iteration. -/
def iterate : Except MapFault (List (Option MapValue × Option MapValue)) := do
  let index ← d.begin
  d.iterateLoop d.size index

end MapData

end WebKit.JSC
