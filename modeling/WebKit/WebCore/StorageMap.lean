import WebKit.Lib.FiniteMap
import WebKit.Lib.Run
import WebKit.WTF.WTFString

/-!
# Storage maps

A `StorageMap` holds the entries of one storage area with their length in UTF-16 code units and a quota in bytes. Several
`Storage` objects may refer to one map, and a call that changes a shared map changes a copy of it and returns the copy.
`setItem`, `setItemIgnoringQuota`, `removeItem` and `importItems` are the calls on one map, as functions of its reference
count; `StorageMaps` is the maps with the references to them, and `StorageMaps.step` one call through a reference.
-/

namespace WebKit.WebCore

open WTF Transition

/-- The entries of a map. A key is never null, a value may be. -/
abbrev Items := Finmap fun _ : WTFString => MaybeString

/-- A map, without the iterator that `key` keeps. The quota is in bytes, the length in code units. -/
structure StorageMap where
  map : Items
  quotaSize : UInt32
  currentLength : UInt32
  deriving DecidableEq

/-- What a call that may copy leaves: the object it was called on and the map it returns, null if it changed the object. -/
structure Mutation where
  self : StorageMap
  returned : Option StorageMap

/-- What `setItem` leaves and reports. -/
structure SetItemResult extends Mutation where
  oldValue : MaybeString
  quotaException : Bool

/-- The quota of a map without one. -/
def noQuota : UInt32 := 0xFFFFFFFF

namespace StorageMap

def create (quota : UInt32) : StorageMap := ⟨∅, quota, 0⟩

def copy (m : StorageMap) : StorageMap :=
  { create m.quotaSize with
    map := m.map
    currentLength := m.currentLength }

/-- `m_map.get`: the null string if there is no entry. -/
def getItem (m : StorageMap) (key : WTFString) : MaybeString := (m.map.lookup key).join

def contains (m : StorageMap) (key : WTFString) : Prop := key ∈ m.map

/-- The length with `value` under `key`, and whether one of the three steps wrapped. -/
def lengthWith (m : StorageMap) (key : WTFString) (value : MaybeString) : UInt32 × Bool :=
  let oldValue := m.getItem key
  let added := m.currentLength + length value
  let subtracted := added - length oldValue
  let adjustedKeyLength := if oldValue = none then key.length else 0
  (subtracted + adjustedKeyLength,
    added < m.currentLength || subtracted > added || subtracted + adjustedKeyLength < subtracted)

/-- `setItem` on a map with one reference. -/
def setItemInPlace (m : StorageMap) (key : WTFString) (value : MaybeString) : SetItemResult :=
  let oldValue := m.getItem key
  let (newLength, overflow) := m.lengthWith key value
  let overQuota : Bool := newLength > m.quotaSize / 2
  if m.quotaSize ≠ noQuota ∧ (overflow ∨ overQuota) then
    { self := m, returned := none, oldValue, quotaException := true }
  else
    { self := { m with map := m.map.insert key value, currentLength := newLength }
      returned := none, oldValue, quotaException := false }

/-- `setItem`: a shared map is copied before it is changed. -/
def setItem (refCount : Nat) (m : StorageMap) (key : WTFString) (value : MaybeString) : SetItemResult :=
  if 1 < refCount then
    let result := m.copy.setItemInPlace key value
    { result with self := m, returned := some result.self }
  else m.setItemInPlace key value

/-- `setItemIgnoringQuota`: the object it is called on has no quota until the call returns. -/
def setItemIgnoringQuota (refCount : Nat) (m : StorageMap) (key : WTFString) (value : MaybeString) : Mutation :=
  let result := setItem refCount { m with quotaSize := noQuota } key value
  { self := { result.self with quotaSize := m.quotaSize }, returned := result.returned }

/-- `removeItem` on a map with one reference. -/
def removeItemInPlace (m : StorageMap) (key : WTFString) : StorageMap :=
  let oldValue := m.getItem key
  let keyLength := if oldValue = none then 0 else key.length
  { m with map := m.map.erase key, currentLength := m.currentLength - keyLength - length oldValue }

def removeItem (refCount : Nat) (m : StorageMap) (key : WTFString) : Mutation :=
  if 1 < refCount then { self := m, returned := some (m.copy.removeItemInPlace key) }
  else { self := m.removeItemInPlace key, returned := none }

/-- One round of the loop of `importItems`: an entry that exists is kept, the lengths are added all the same. -/
def importItem (m : StorageMap) (item : WTFString × MaybeString) : StorageMap :=
  { m with
    map := if item.1 ∈ m.map then m.map else m.map.insert item.1 item.2
    currentLength := m.currentLength + item.1.length + length item.2 }

/-- `importItems`, with the items in the order of the iteration. -/
def importItems (m : StorageMap) (items : List (WTFString × MaybeString)) : StorageMap := items.foldl importItem m

end StorageMap

/-! ## The maps and the references to them -/

/-- The maps, addressed in the order of their creation, and the references that `Storage` objects hold. -/
structure StorageMaps where
  maps : List StorageMap
  refs : List (Option Nat)
  deriving DecidableEq

/-- A call through the reference with a given index, or a change of the references. -/
inductive StorageMapOp
  | create (quota : UInt32)
  | ref (index : Nat)
  | deref (index : Nat)
  | setItem (index : Nat) (key : WTFString) (value : MaybeString)
  | setItemIgnoringQuota (index : Nat) (key : WTFString) (value : MaybeString)
  | removeItem (index : Nat) (key : WTFString)
  | importItems (index : Nat) (items : List (WTFString × MaybeString))

namespace StorageMaps

def refCount (s : StorageMaps) (address : Nat) : Nat := s.refs.count (some address)

/-- The address a reference holds. -/
def addressOf (s : StorageMaps) (index : Nat) : Option Nat := s.refs[index]?.join

/-- The map a reference refers to. -/
def mapOf (s : StorageMaps) (index : Nat) : Option StorageMap := (s.addressOf index).bind fun address => s.maps[address]?

/-- The caller's part of a call: the reference takes over the map that was returned, if any. -/
def assign (s : StorageMaps) (index address : Nat) (result : Mutation) : StorageMaps :=
  let maps := s.maps.set address result.self
  match result.returned with
  | none => ⟨maps, s.refs⟩
  | some copied => ⟨maps ++ [copied], s.refs.set index (some maps.length)⟩

/-- A call that may copy. -/
def mutate (s : StorageMaps) (index : Nat) (call : Nat → StorageMap → Mutation) : Option StorageMaps := do
  let address ← s.addressOf index
  let m ← s.maps[address]?
  return s.assign index address (call (s.refCount address) m)

def step (s : StorageMaps) : StorageMapOp → Option StorageMaps
  | .create quota => some ⟨s.maps ++ [.create quota], s.refs ++ [some s.maps.length]⟩
  | .ref index => do
    let address ← s.addressOf index
    return ⟨s.maps, s.refs ++ [some address]⟩
  | .deref index => some ⟨s.maps, s.refs.set index none⟩
  | .setItem index key value => s.mutate index fun refCount m => (m.setItem refCount key value).toMutation
  | .setItemIgnoringQuota index key value => s.mutate index fun refCount m => m.setItemIgnoringQuota refCount key value
  | .removeItem index key => s.mutate index fun refCount m => m.removeItem refCount key
  | .importItems index items => s.mutate index fun _ m => ⟨m.importItems items, none⟩

/-- No maps and no references. -/
def init : StorageMaps := ⟨[], []⟩

end StorageMaps

end WebKit.WebCore
