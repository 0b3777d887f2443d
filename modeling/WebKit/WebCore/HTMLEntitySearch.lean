import Mathlib.Data.List.Basic
import Mathlib.Order.Bounds.Basic

/-!
# The entity search `HTMLEntitySearch`

`HTMLEntityTable` is the generated table: its names are sorted, and the functions for an initial letter give the first
and the last entry. A search follows the characters of a name: `advance` narrows `m_first` to `m_last` down to the
entries that go on with the next character. Pointers to entries are indices into the table, and reading past its end is
`none`.
-/

namespace WebKit.WebCore

/-! ## The table -/

structure HTMLEntityTableEntry where
  entity : List UInt8

namespace HTMLEntityTableEntry

def length (entry : HTMLEntityTableEntry) : Nat := entry.entity.length

/-- The characters of the entity as code units. -/
def name (entry : HTMLEntityTableEntry) : List UInt16 := entry.entity.map UInt8.toUInt16

end HTMLEntityTableEntry

/-- Entry `i` has a name that starts with the characters. -/
def StartsWith (entries : List HTMLEntityTableEntry) (characters : List UInt16) (i : Nat) : Prop :=
  ∃ entry, entries[i]? = some entry ∧ characters <+: entry.name

/-- The table as it is generated. -/
structure HTMLEntityTable where
  entries : List HTMLEntityTableEntry
  firstEntryStartingWith : UInt16 → Option Nat
  lastEntryStartingWith : UInt16 → Option Nat
  /-- Code unit by code unit, a name in front of the names that it is a prefix of, and no name twice. -/
  sorted : entries.Pairwise fun entry entry' => List.Lex (· < ·) entry.name entry'.name
  entries_ne_nil : entries ≠ []
  name_ne_nil : ∀ entry ∈ entries, entry.name ≠ []
  firstEntryStartingWith_iff : ∀ c i, firstEntryStartingWith c = some i ↔ IsLeast (StartsWith entries [c]) i
  lastEntryStartingWith_iff : ∀ c i, lastEntryStartingWith c = some i ↔ IsGreatest (StartsWith entries [c]) i

namespace HTMLEntityTable

def firstEntry (_table : HTMLEntityTable) : Nat := 0

def lastEntry (table : HTMLEntityTable) : Nat := table.entries.length - 1

end HTMLEntityTable

/-! ## The search -/

inductive CompareResult where
  | Before
  | Prefix
  | After
  deriving DecidableEq

structure HTMLEntitySearch where
  m_currentLength : Nat
  m_mostRecentMatch : Option Nat
  m_first : Option Nat
  m_last : Option Nat

namespace HTMLEntitySearch

variable (table : HTMLEntityTable)

/-- The constructor. -/
def construct : HTMLEntitySearch where
  m_currentLength := 0
  m_mostRecentMatch := none
  m_first := some table.firstEntry
  m_last := some table.lastEntry

def isEntityPrefix (s : HTMLEntitySearch) : Bool := s.m_first.isSome

def fail (s : HTMLEntitySearch) : HTMLEntitySearch := { s with m_first := none, m_last := none }

def halfway (left right : Nat) : Nat := left + (right - left) / 2

def compare (s : HTMLEntitySearch) (entry : Nat) (nextCharacter : UInt16) : Option CompareResult := do
  let entry ← table.entries[entry]?
  if entry.length < s.m_currentLength + 1 then return .Before
  else do
    let entryNextCharacter ← entry.entity[s.m_currentLength]?
    if entryNextCharacter.toUInt16 = nextCharacter then return .Prefix
    else return if entryNextCharacter.toUInt16 < nextCharacter then .Before else .After

/-- The loop of `findFirst` and of `findLast`: `left` moves to the probe if `goesLeft` says so, else `right` does. -/
def narrow (goesLeft : Nat → Option Bool) (left right : Nat) : Option (Nat × Nat) :=
  if left + 1 < right then do
    let probe := halfway left right
    if ← goesLeft probe then narrow goesLeft probe right else narrow goesLeft left probe
  else some (left, right)
termination_by right - left
decreasing_by all_goals (unfold halfway; omega)

def findFirst (s : HTMLEntitySearch) (nextCharacter : UInt16) : Option Nat := do
  let left ← s.m_first
  let right ← s.m_last
  if left = right then return left
  else
    match ← s.compare table left nextCharacter with
    | .Prefix => return left
    | .After => return right
    | .Before => do
      let bounds ← narrow (fun probe => do return (← s.compare table probe nextCharacter) = .Before) left right
      return bounds.2

def findLast (s : HTMLEntitySearch) (nextCharacter : UInt16) : Option Nat := do
  let left ← s.m_first
  let right ← s.m_last
  if left = right then return right
  else
    match ← s.compare table right nextCharacter with
    | .Prefix => return right
    | .Before => return left
    | .After => do
      let bounds ← narrow (fun probe => do return (← s.compare table probe nextCharacter) ≠ .After) left right
      return bounds.1

/-- The end of `advance`, where some entry goes on. -/
def proceed (s : HTMLEntitySearch) : Option HTMLEntitySearch := do
  let s := { s with m_currentLength := s.m_currentLength + 1 }
  let entry ← table.entries[← s.m_first]?
  return if entry.length ≠ s.m_currentLength then s else { s with m_mostRecentMatch := s.m_first }

def advance (s : HTMLEntitySearch) (nextCharacter : UInt16) : Option HTMLEntitySearch :=
  if s.m_currentLength = 0 then
    let s := { s with
      m_first := table.firstEntryStartingWith nextCharacter, m_last := table.lastEntryStartingWith nextCharacter }
    if s.m_first.isNone || s.m_last.isNone then some s.fail else s.proceed table
  else do
    let first ← s.findFirst table nextCharacter
    let s := { s with m_first := some first }
    let last ← s.findLast table nextCharacter
    let s := { s with m_last := some last }
    if first = last then do
      if (← s.compare table first nextCharacter) ≠ .Prefix then return s.fail else s.proceed table
    else s.proceed table

end HTMLEntitySearch

/-- The searches that characters lead to, if each is fed while the ones before it are a prefix of an entity. -/
inductive Fed (table : HTMLEntityTable) : List UInt16 → HTMLEntitySearch → Prop
  | construct : Fed table [] (.construct table)
  | advance {characters : List UInt16} {s s' : HTMLEntitySearch} {c : UInt16} (fed : Fed table characters s)
      (isEntityPrefix : s.isEntityPrefix) (advance : s.advance table c = some s') : Fed table (characters ++ [c]) s'

end WebKit.WebCore
