import WebKit.JSC.MapDataRuns
import WebKit.Lib.Iteration
import WebKit.Lib.Outcome

/-!
# Iterators of map data

A `const_iterator` is an index. It goes on while the map changes, which is right as long as the entries are not packed:
`m_iteratorCount` should say how many iterators there are, and keep `shouldPack()` from it. The destructor counts down,
but the constructor does not count up (`count_eq`).

The entries of the map and its iterators follow those of an `IteratedMap`, where entry and number go together
(`Follows`, `Represents`).
-/

namespace WebKit.JSC

open WebKit.Lib Transition

namespace MapData

/-- A `const_iterator`, and whether `ensureSlot` has found an entry since the last `++`, as its user knows. -/
structure ConstIterator where
  index : Int
  atSlot : Bool
  deriving DecidableEq

/-- Map data with its iterators. Those that were destroyed are `none`. -/
structure Iterated where
  data : MapData
  iterators : List (Option ConstIterator)
  deriving DecidableEq

namespace Iterated

def create : Iterated := { data := MapData.create, iterators := [] }

variable (w : Iterated)

/-- The number of live iterators. -/
def live : Nat := w.iterators.countP Option.isSome

def iterator (i : Nat) : Except MapFault ConstIterator :=
  match w.iterators[i]? with
  | some (some it) => .ok it
  | _ => .error .wild

inductive Op
  | create
  | copy (i : Nat)
  | ensureSlot (i : Nat)
  | increment (i : Nat)
  | destroy (i : Nat)
  | set (memory : Bool) (key value : MapValue)
  | remove (key : MapValue)
  | copyBackingStore
  deriving DecidableEq

/-- `ensureSlot` answers with the key and the value of the entry. -/
inductive OpAnswer
  | done
  | outOfMemory
  | slot (entry : Option (Option MapValue × Option MapValue))
  deriving DecidableEq

def step (w : Iterated) : Op → Except MapFault (Iterated × OpAnswer)
  | .create => do
    let index ← w.data.begin
    return ({ w with iterators := w.iterators ++ [some { index, atSlot := false }] }, .done)
  | .copy i => do
    let it ← w.iterator i
    return ({ w with iterators := w.iterators ++ [some it] }, .done)
  | .ensureSlot i => do
    let it ← w.iterator i
    let (index, atSlot) ← w.data.ensureSlot it.index
    let w' := { w with iterators := w.iterators.set i (some { index, atSlot }) }
    if atSlot then
      let entry ← readSlot w.data.entries index.toNat
      return (w', .slot (some (entry.key, entry.value)))
    else return (w', .slot none)
  | .increment i => do
    let it ← w.iterator i
    let index ← w.data.internalIncrement it.index
    return ({ w with iterators := w.iterators.set i (some { index, atSlot := false }) }, .done)
  | .destroy i => do
    let _ ← w.iterator i
    return ({ data := w.data.destroyIterator, iterators := w.iterators.set i none }, .done)
  | .set memory key value => do
    let (data, stored) ← w.data.set memory key value
    return ({ w with data }, if stored then .done else .outOfMemory)
  | .remove key => do
    let (data, _) ← w.data.remove key
    return ({ w with data }, .done)
  | .copyBackingStore => do
    let data ← w.data.copyBackingStore
    return ({ w with data }, .done)

def Steps (w : Iterated) (a : Op × OpAnswer) (w' : Iterated) : Prop := w.step a.1 = .ok (w', a.2)

/-- The operation makes an iterator. -/
def creates : Op → Bool
  | .create => true
  | .copy _ => true
  | _ => false

end Iterated

/-! ## The number of iterators -/

variable {d d' : MapData}

theorem iteratorCount_moveBackingStore {newCapacity : Nat} (h : d.moveBackingStore newCapacity = .ok d') :
    d'.iteratorCount = d.iteratorCount := by
  rw [moveBackingStore] at h
  split_ifs at h
  · rw [replaceAndPackBackingStore] at h
    split_ifs at h
    obtain ⟨⟨destination, slots, newEnd⟩, -, h⟩ := ok_of_bind h
    obtain ⟨values, -, h⟩ := ok_of_bind h
    obtain ⟨strings, -, h⟩ := ok_of_bind h
    cases h
    rfl
  · rw [replaceBackingStore] at h
    split_ifs at h
    cases h
    rfl

theorem iteratorCount_ensureSpace {memory space : Bool} (h : d.ensureSpaceForAppend memory = .ok (d', space)) :
    d'.iteratorCount = d.iteratorCount := by
  rw [ensureSpaceForAppend] at h
  split_ifs at h
  · cases h
    rfl
  · cases h
    rfl
  · obtain ⟨d₁, hmove, h⟩ := ok_of_bind h
    cases h
    exact iteratorCount_moveBackingStore hmove

theorem iteratorCount_add {memory : Bool} {key : MapValue} {location : Option Nat}
    (h : d.add memory key = .ok (d', location)) : d'.iteratorCount = d.iteratorCount := by
  rw [add.eq_def] at h
  split at h
  · cases h
    rfl
  · obtain ⟨⟨d₁, space⟩, hspace, h⟩ := ok_of_bind h
    have hcount := iteratorCount_ensureSpace hspace
    dsimp only at h
    split_ifs at h
    · cases h
      exact hcount
    · obtain ⟨entries, -, h⟩ := ok_of_bind h
      cases h
      exact (capacity_addIndex d₁ d₁.size key).2.2.2.2.trans hcount

theorem iteratorCount_set {memory stored : Bool} {key value : MapValue}
    (h : d.set memory key value = .ok (d', stored)) : d'.iteratorCount = d.iteratorCount := by
  rw [set] at h
  obtain ⟨⟨d₁, location⟩, hadd, h⟩ := ok_of_bind h
  have hcount := iteratorCount_add hadd
  cases location with
  | none =>
    cases h
    exact hcount
  | some index =>
    obtain ⟨entry, -, h⟩ := ok_of_bind h
    obtain ⟨entries, -, h⟩ := ok_of_bind h
    cases h
    exact hcount

theorem iteratorCount_remove {key : MapValue} {removed : Bool} (h : d.remove key = .ok (d', removed)) :
    d'.iteratorCount = d.iteratorCount := by
  rw [remove.eq_def] at h
  split at h
  · cases h
    rfl
  · obtain ⟨entries, -, h⟩ := ok_of_bind h
    cases h
    exact (capacity_removeIndex d key.keyType).2.2.2.2

theorem iteratorCount_copyBackingStore (h : d.copyBackingStore = .ok d') : d'.iteratorCount = d.iteratorCount := by
  rw [copyBackingStore] at h
  split_ifs at h
  · cases h
    rfl
  · exact iteratorCount_moveBackingStore h

namespace Iterated

variable {w w' : Iterated} {i : Nat} {it : ConstIterator} {a : Op × OpAnswer}

theorem iterator_eq_ok : w.iterator i = .ok it ↔ w.iterators[i]? = some (some it) := by
  rw [iterator.eq_def]
  constructor
  · intro h
    split at h
    · rename_i it' heq
      cases h
      exact heq
    · cases h
  · intro h
    rw [h]

theorem live_append (it : ConstIterator) :
    (w.iterators ++ [some it]).countP Option.isSome = w.live + 1 := by
  rw [List.countP_append]
  rfl

theorem live_set (hi : w.iterator i = .ok it) (o : Option ConstIterator) :
    (w.iterators.set i o).countP Option.isSome + 1 = w.live + if o.isSome then 1 else 0 := by
  obtain ⟨hlt, hget⟩ := List.getElem?_eq_some_iff.1 (iterator_eq_ok.1 hi)
  have hpos : 0 < w.live := List.countP_pos_iff.2 ⟨_, List.getElem_mem hlt, by rw [hget]; rfl⟩
  rw [List.countP_set hlt, hget, Option.isSome_some, if_pos rfl]
  show w.live - 1 + _ + 1 = _
  omega

/-- **One step.** Only an iterator that is made changes the difference between the counter and the number of
iterators. -/
theorem Steps.count (h : Steps w a w') :
    w'.data.iteratorCount - w'.live = w.data.iteratorCount - w.live - if creates a.1 then 1 else 0 := by
  obtain ⟨operation, answer⟩ := a
  rw [Steps] at h
  cases operation with
  | create =>
    obtain ⟨index, -, h⟩ := ok_of_bind h
    cases h
    have := live_append (w := w) { index, atSlot := false }
    simp only [live, creates, reduceIte] at *
    omega
  | copy i =>
    obtain ⟨it, -, h⟩ := ok_of_bind h
    cases h
    have := live_append (w := w) it
    simp only [live, creates, reduceIte] at *
    omega
  | ensureSlot i =>
    obtain ⟨it, hit, h⟩ := ok_of_bind h
    obtain ⟨⟨index, atSlot⟩, -, h⟩ := ok_of_bind h
    have := live_set hit (some { index, atSlot })
    cases atSlot with
    | false =>
      cases h
      simp only [live, creates, Option.isSome_some, reduceIte, Bool.false_eq_true] at *
      omega
    | true =>
      obtain ⟨entry, -, h⟩ := ok_of_bind h
      cases h
      simp only [live, creates, Option.isSome_some, reduceIte, Bool.false_eq_true] at *
      omega
  | increment i =>
    obtain ⟨it, hit, h⟩ := ok_of_bind h
    obtain ⟨index, -, h⟩ := ok_of_bind h
    cases h
    have := live_set hit (some { index, atSlot := false })
    simp only [live, creates, Option.isSome_some, reduceIte, Bool.false_eq_true] at *
    omega
  | destroy i =>
    obtain ⟨it, hit, h⟩ := ok_of_bind h
    cases h
    have := live_set hit none
    simp only [live, creates, Option.isSome_none, destroyIterator, reduceIte, Bool.false_eq_true] at *
    omega
  | set memory key value =>
    obtain ⟨⟨data, stored⟩, hset, h⟩ := ok_of_bind h
    cases h
    simp [live, creates, iteratorCount_set hset]
  | remove key =>
    obtain ⟨⟨data, removed⟩, hremove, h⟩ := ok_of_bind h
    cases h
    simp [live, creates, iteratorCount_remove hremove]
  | copyBackingStore =>
    obtain ⟨data, hcopy, h⟩ := ok_of_bind h
    cases h
    simp [live, creates, iteratorCount_copyBackingStore hcopy]

/-- **`m_iteratorCount` is the number of live iterators less the number of those that were made.** -/
theorem count_eq {as : List (Op × OpAnswer)} (h : Run Steps w as w') :
    w'.data.iteratorCount - w'.live = w.data.iteratorCount - w.live - as.countP fun a => creates a.1 := by
  induction h with
  | nil w => simp
  | cons hstep _ ih =>
    rw [ih, hstep.count, List.countP_cons]
    split_ifs <;> omega

end Iterated

end MapData

end WebKit.JSC
