import Mathlib.Algebra.Order.Ring.Int
import Mathlib.Algebra.Order.Ring.Nat

/-!
# Hash tables

The open addressing of `HashTable`: the buckets are empty, deleted or hold a value, and a search looks at one bucket after
the other, in steps that a second hash gives. A table that is full is rehashed to twice its size, or to the same size if
it is mostly deleted buckets, and a table that is nearly empty is rehashed to half its size.

The counters are `int`s. An operation stops with a `TableFault` where the source has no meaning: a product that is not an
`int`, an access outside the buckets, or a search that goes on for ever.
-/

namespace WebKit.WTF

/-- Why an operation does not return. -/
inductive TableFault
  | overflow
  | outOfBounds
  | unterminated
  deriving DecidableEq, Repr

inductive Bucket (Value : Type)
  | empty
  | deleted
  | live (value : Value)
  deriving DecidableEq, Repr

/-- What a table needs to know of its values and of their keys. The least size of a table is a power of two, and more
than twice as large as what it is meant for. -/
structure HashTraits (Key Value : Type) where
  extract : Value → Key
  hash : Key → UInt32
  minimumTableSize : Nat
  minimumTableSize_eq : ∃ n, 2 ≤ n ∧ n ≤ 30 ∧ minimumTableSize = 2 ^ n

/-- The buckets are `none` for a null `m_table`. -/
structure HashTable (Value : Type) where
  table : Option (List (Bucket Value))
  tableSize : Nat
  tableSizeMask : Nat
  keyCount : Int
  deletedCount : Int
  deriving DecidableEq

variable {Key Value : Type}

def Bucket.isEmptyBucket : Bucket Value → Bool
  | .empty => true
  | _ => false

def Bucket.isDeletedBucket : Bucket Value → Bool
  | .deleted => true
  | _ => false

def Bucket.isLive : Bucket Value → Bool
  | .live _ => true
  | _ => false

/-- The bucket holds a value with a property. -/
def Bucket.holds (p : Value → Bool) : Bucket Value → Bool
  | .live value => p value
  | _ => false

/-- The second hash, from which the width of the steps is taken. -/
def doubleHash (key : UInt32) : UInt32 :=
  let key := ~~~key + key >>> 23
  let key := key ^^^ key <<< 12
  let key := key ^^^ key >>> 7
  let key := key ^^^ key <<< 2
  key ^^^ key >>> 20

/-- The `int` that an expression has as its value. -/
def asInt (x : Int) : Except TableFault Int := if -2 ^ 31 ≤ x ∧ x < 2 ^ 31 then .ok x else .error .overflow

namespace HashTable

def maxLoad : Int := 2

def minLoad : Int := 6

def new : HashTable Value := { table := none, tableSize := 0, tableSizeMask := 0, keyCount := 0, deletedCount := 0 }

variable (T : HashTraits Key Value) (t : HashTable Value)

/-! ## The load -/

def shouldExpand : Except TableFault Bool := do
  let used ← asInt (t.keyCount + t.deletedCount)
  let load ← asInt (used * maxLoad)
  return decide (load ≥ t.tableSize)

def mustRehashInPlace : Except TableFault Bool := do
  let load ← asInt (t.keyCount * minLoad)
  let limit ← asInt (t.tableSize * 2)
  return decide (load < limit)

def shouldShrink : Except TableFault Bool := do
  let load ← asInt (t.keyCount * minLoad)
  return decide (load < t.tableSize) && decide (t.tableSize > T.minimumTableSize)

/-! ## Access to the buckets -/

/-- `m_table`, where it is not null. -/
def buckets : Except TableFault (List (Bucket Value)) :=
  match t.table with
  | some table => .ok table
  | none => .error .outOfBounds

def readBucket (table : List (Bucket Value)) (position : Nat) : Except TableFault (Bucket Value) :=
  match table[position]? with
  | some bucket => .ok bucket
  | none => .error .outOfBounds

def writeBucket (position : Nat) (bucket : Bucket Value) : Except TableFault (HashTable Value) := do
  let table ← t.buckets
  if position < table.length then return { t with table := some (table.set position bucket) }
  else .error .outOfBounds

/-! ## Searching -/

variable [DecidableEq Key]

def hasKey (key : Key) (bucket : Bucket Value) : Bool := bucket.holds fun value => decide (T.extract value = key)

/-- `while (1)` of `lookup`, for at most `fuel` iterations. The sum is masked, so only its low bits are of interest. -/
def lookupLoop (table : List (Bucket Value)) (sizeMask : UInt32) (key : Key) :
    Nat → UInt32 → UInt32 → Except TableFault (Option Nat)
  | 0, _, _ => .error .unterminated
  | fuel + 1, i, k => do
    let bucket ← readBucket table i.toNat
    if bucket.isEmptyBucket then return none
    else if hasKey T key bucket then return some i.toNat
    else
      let k := if k = 0 then 1 ||| doubleHash (T.hash key) else k
      lookupLoop table sizeMask key fuel ((i + k) &&& sizeMask) k

/-- The position of the key. -/
def lookup (key : Key) : Except TableFault (Option Nat) := do
  let table ← t.buckets
  let sizeMask := UInt32.ofNat t.tableSizeMask
  lookupLoop T table sizeMask key (table.length + 1) (T.hash key &&& sizeMask) 0

def find (key : Key) : Except TableFault (Option Nat) :=
  if t.table.isNone then .ok none else t.lookup T key

def contains (key : Key) : Except TableFault Bool := do
  let position ← t.find T key
  return position.isSome

/-- `while (1)` of `lookupForWriting`, `fullLookupForWriting` and `add`: where the search ends, the last deleted bucket
that it has passed, and whether the key was found. -/
def searchLoop (table : List (Bucket Value)) (sizeMask : UInt32) (key : Key) :
    Nat → UInt32 → UInt32 → Option Nat → Except TableFault (Nat × Option Nat × Bool)
  | 0, _, _, _ => .error .unterminated
  | fuel + 1, i, k, deletedEntry => do
    let bucket ← readBucket table i.toNat
    if bucket.isEmptyBucket then return (i.toNat, deletedEntry, false)
    else if hasKey T key bucket then return (i.toNat, deletedEntry, true)
    else
      let deletedEntry := if bucket.isDeletedBucket then some i.toNat else deletedEntry
      let k := if k = 0 then 1 ||| doubleHash (T.hash key) else k
      searchLoop table sizeMask key fuel ((i + k) &&& sizeMask) k deletedEntry

def search (key : Key) : Except TableFault (Nat × Option Nat × Bool) := do
  let table ← t.buckets
  let sizeMask := UInt32.ofNat t.tableSizeMask
  searchLoop T table sizeMask key (table.length + 1) (T.hash key &&& sizeMask) 0 none

/-- The bucket to write the key to, and whether the key is there. -/
def lookupForWriting (key : Key) : Except TableFault (Nat × Bool) := do
  let (entry, deletedEntry, found) ← t.search T key
  return if found then (entry, true) else (deletedEntry.getD entry, false)

def fullLookupForWriting (key : Key) : Except TableFault ((Nat × Bool) × UInt32) := do
  let result ← t.lookupForWriting T key
  return (result, T.hash key)

/-! ## Rehashing -/

def allocateTable (size : Nat) : List (Bucket Value) := List.replicate size .empty

def reinsert (entry : Value) : Except TableFault (HashTable Value × Nat) := do
  let (newEntry, _) ← t.lookupForWriting T (T.extract entry)
  let t ← t.writeBucket newEntry (.live entry)
  return (t, newEntry)

/-- The buckets of the old table, from `i` on, and the new position of `entry`. -/
def rehashLoop (entry : Option Nat) : List (Bucket Value) → Nat → HashTable Value → Option Nat →
    Except TableFault (HashTable Value × Option Nat)
  | [], _, t, newEntry => .ok (t, newEntry)
  | .live value :: oldTable, i, t, newEntry => do
    let (t, reinsertedEntry) ← t.reinsert T value
    rehashLoop entry oldTable (i + 1) t (if entry = some i then some reinsertedEntry else newEntry)
  | _ :: oldTable, i, t, newEntry => rehashLoop entry oldTable (i + 1) t newEntry

def rehash (newTableSize : Nat) (entry : Option Nat) : Except TableFault (HashTable Value × Option Nat) := do
  let oldTable := t.table.getD []
  let t := { t with
    tableSize := newTableSize, tableSizeMask := newTableSize - 1, table := some (allocateTable newTableSize) }
  let (t, newEntry) ← rehashLoop T entry oldTable 0 t none
  return ({ t with deletedCount := 0 }, newEntry)

def expand (entry : Option Nat) : Except TableFault (HashTable Value × Option Nat) := do
  if t.tableSize = 0 then t.rehash T T.minimumTableSize entry
  else if ← t.mustRehashInPlace then t.rehash T t.tableSize entry
  else
    let newSize ← asInt (t.tableSize * 2)
    t.rehash T newSize.toNat entry

def shrink : Except TableFault (HashTable Value) := do
  let (t, _) ← t.rehash T (t.tableSize / 2) none
  return t

/-! ## The operations -/

/-- What `add` and `addPassingHashCode` begin with. -/
def ensureTable : Except TableFault (HashTable Value) := do
  if t.table.isNone then
    let (t, _) ← t.expand T none
    return t
  else return t

/-- What `add` and `addPassingHashCode` end with: the value is in the bucket `entry`. -/
def expandIfNeeded (entry : Nat) : Except TableFault (HashTable Value × Option Nat) := do
  if ← t.shouldExpand then t.expand T (some entry) else return (t, some entry)

/-- The table, the position of the key, and whether it is new. -/
def add (value : Value) : Except TableFault (HashTable Value × Option Nat × Bool) := do
  let t ← t.ensureTable T
  let (entry, deletedEntry, found) ← t.search T (T.extract value)
  if found then return (t, some entry, false)
  else
    let (t, entry) ← match deletedEntry with
      | some deletedEntry => do
        let t ← t.writeBucket deletedEntry .empty
        pure ({ t with deletedCount := t.deletedCount - 1 }, deletedEntry)
      | none => pure (t, entry)
    let t ← t.writeBucket entry (.live value)
    let (t, entry) ← expandIfNeeded T { t with keyCount := t.keyCount + 1 } entry
    return (t, entry, true)

def addPassingHashCode (value : Value) : Except TableFault (HashTable Value × Option Nat × Bool) := do
  let t ← t.ensureTable T
  let ((entry, found), _) ← t.fullLookupForWriting T (T.extract value)
  if found then return (t, some entry, false)
  else
    let bucket ← readBucket (← t.buckets) entry
    let t ← if bucket.isDeletedBucket then do
        let t ← t.writeBucket entry .empty
        pure { t with deletedCount := t.deletedCount - 1 }
      else pure t
    let t ← t.writeBucket entry (.live value)
    let (t, entry) ← expandIfNeeded T { t with keyCount := t.keyCount + 1 } entry
    return (t, entry, true)

/-- The bucket becomes a deleted one. -/
def deleteBucket (position : Nat) : Except TableFault (HashTable Value) := do
  let t ← t.writeBucket position .deleted
  return { t with deletedCount := t.deletedCount + 1, keyCount := t.keyCount - 1 }

def shrinkIfNeeded : Except TableFault (HashTable Value) := do
  if ← t.shouldShrink T then t.shrink T else return t

/-- `remove(ValueType*)`. -/
def removeBucket (position : Nat) : Except TableFault (HashTable Value) := do
  let t ← t.deleteBucket position
  t.shrinkIfNeeded T

/-- `remove(iterator)`, with `none` for `end()`. -/
def removeIterator : Option Nat → Except TableFault (HashTable Value)
  | none => .ok t
  | some position => t.removeBucket T position

def remove (key : Key) : Except TableFault (HashTable Value) := do
  let it ← t.find T key
  t.removeIterator T it

/-- `for (unsigned i = m_tableSize; i--;)`. -/
def removeIfLoop (functor : Value → Bool) : Nat → HashTable Value → Except TableFault (HashTable Value)
  | 0, t => .ok t
  | i + 1, t => do
    let bucket ← readBucket (← t.buckets) i
    let t ← if bucket.holds functor then t.deleteBucket i else pure t
    removeIfLoop functor i t

def removeIf (functor : Value → Bool) : Except TableFault (HashTable Value) := do
  let t ← removeIfLoop functor t.tableSize t
  t.shrinkIfNeeded T

def clear : HashTable Value :=
  if t.table.isNone then t
  else { t with table := none, tableSize := 0, tableSizeMask := 0, keyCount := 0 }

/-- The assertions of `checkTableConsistencyExceptSize`. -/
structure ConsistentExceptSize (table : List (Bucket Value)) : Prop where
  find_live : ∀ j value, table[j]? = some (.live value) → t.find T (T.extract value) = .ok (some j)
  keyCount_eq : t.keyCount = table.countP Bucket.isLive
  deletedCount_eq : t.deletedCount = table.countP Bucket.isDeletedBucket
  length_eq : t.tableSize = table.length
  minimumTableSize_le : T.minimumTableSize ≤ t.tableSize
  tableSizeMask_ne : t.tableSizeMask ≠ 0
  tableSize_eq : t.tableSize = t.tableSizeMask + 1

/-- The assertions of `checkTableConsistency`. -/
structure Consistent : Prop where
  exceptSize : ∀ table, t.table = some table → t.ConsistentExceptSize T table
  not_shouldExpand : t.table.isSome → t.shouldExpand = .ok false
  not_shouldShrink : t.shouldShrink T = .ok false

end HashTable

end WebKit.WTF
