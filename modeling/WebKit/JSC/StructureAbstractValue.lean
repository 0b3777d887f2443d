import WebKit.JSC.StructureSet

/-!
# Abstract values for structures

A `StructureAbstractValue` holds a set of structures, or TOP, which is the reserved value of the set. The reserved flag of
the set says that the value is clobbered: it stands for all structures now, and for the set after the next invalidation
point. An operation is `none` where the code would read the list of TOP.

Whether a structure is watched is the argument of `clobber`, as it changes while the program runs. What
`speculationFromStructure` asks of a structure is its `StructureKind`. An operand is another object than the value that
the operation is on, except in `filterSelf`.
-/

namespace WebKit.JSC

variable {S : Type*}

/-! ## Speculated types -/

abbrev SpeculatedType := UInt32

namespace SpeculatedType

def SpecFinalObject : SpeculatedType := 0x00000001
def SpecArray : SpeculatedType := 0x00000002
def SpecFunction : SpeculatedType := 0x00000004
def SpecArguments : SpeculatedType := 0x00001000
def SpecStringObject : SpeculatedType := 0x00002000
def SpecObjectOther : SpeculatedType := 0x00008000
def SpecString : SpeculatedType := 0x00030000
def SpecCellOther : SpeculatedType := 0x00040000
def SpecCell : SpeculatedType := 0x0007ffff

end SpeculatedType

inductive TypedArrayType
  | TypeInt8 | TypeInt16 | TypeInt32 | TypeUint8 | TypeUint8Clamped | TypeUint16 | TypeUint32 | TypeFloat32 | TypeFloat64
  deriving DecidableEq, Repr

def speculationFromTypedArrayType : TypedArrayType → SpeculatedType
  | .TypeInt8 => 0x00000008
  | .TypeInt16 => 0x00000010
  | .TypeInt32 => 0x00000020
  | .TypeUint8 => 0x00000040
  | .TypeUint8Clamped => 0x00000080
  | .TypeUint16 => 0x00000100
  | .TypeUint32 => 0x00000200
  | .TypeFloat32 => 0x00000400
  | .TypeFloat64 => 0x00000800

/-- The first question of `speculationFromStructure` and `speculationFromClassInfo` that is answered with yes. -/
inductive StructureKind
  | string | finalObject | array | arguments | stringObject | function | typedArray (type : TypedArrayType)
  | objectOther | cellOther
  deriving DecidableEq, Repr

open SpeculatedType in
def speculationFromStructure : StructureKind → SpeculatedType
  | .string => SpecString
  | .finalObject => SpecFinalObject
  | .array => SpecArray
  | .arguments => SpecArguments
  | .stringObject => SpecStringObject
  | .function => SpecFunction
  | .typedArray type => speculationFromTypedArrayType type
  | .objectOther => SpecObjectOther
  | .cellOther => SpecCellOther

/-! ## Values -/

structure StructureAbstractValue (S : Type*) where
  m_set : StructureSet S
  deriving DecidableEq, Repr

namespace StructureAbstractValue

variable [DecidableEq S]

def polymorphismLimit : Nat := 10

def clobberedSupremacyThreshold : Nat := 2

def empty : StructureAbstractValue S := ⟨.empty⟩

def ofStructure (structure' : S) : StructureAbstractValue S := ⟨.ofStructure structure'⟩

def ofSet (set : StructureSet S) : StructureAbstractValue S := ⟨StructureSet.empty.copyFrom set⟩

/-- `top`, and what `makeTop` and `makeTopWhenThin` leave. -/
def top : StructureAbstractValue S := ⟨⟨.reservedValue, false⟩⟩

def isTop (v : StructureAbstractValue S) : Bool :=
  match v.m_set with
  | ⟨.reservedValue, false⟩ => true
  | _ => false

def isClear (v : StructureAbstractValue S) : Bool := v.m_set.isEmpty

def isClobbered (v : StructureAbstractValue S) : Bool := v.m_set.reservedFlag

def setClobbered (v : StructureAbstractValue S) (clobbered : Bool) : StructureAbstractValue S :=
  ⟨{ v.m_set with reservedFlag := clobbered }⟩

/-- The assignment of another value. -/
def assign (v other : StructureAbstractValue S) : StructureAbstractValue S :=
  setClobbered ⟨v.m_set.copyFrom other.m_set⟩ other.isClobbered

def clear (v : StructureAbstractValue S) : StructureAbstractValue S := setClobbered ⟨v.m_set.clear⟩ false

def clobber (v : StructureAbstractValue S) (dfgShouldWatch : S → Bool) : Option (StructureAbstractValue S) :=
  if v.isTop then some v else
    let v := v.setClobbered true
    match v.m_set.m_pointer with
    | .thin none => some v
    | .thin (some single) => some (if !dfgShouldWatch single then top else v)
    | .outOfLine list => some (if list.any (!dfgShouldWatch ·) then top else v)
    | .reservedValue => none

def observeInvalidationPoint (v : StructureAbstractValue S) : StructureAbstractValue S := v.setClobbered false

/-- The end of the operations that add: a set over the limit becomes TOP. -/
def limited (set : StructureSet S) : Option (StructureAbstractValue S) :=
  set.size.map fun size => if size > polymorphismLimit then top else ⟨set⟩

/-- TOP or a set that was changed. -/
def add (v : StructureAbstractValue S) (structure' : S) : Option (StructureAbstractValue S × Bool) :=
  if v.isTop then some (v, false) else
    (v.m_set.add structure').bind fun (set, changed) =>
      if !changed then some (⟨set⟩, false) else (limited set).map fun v => (v, true)

def observeTransition (v : StructureAbstractValue S) (previous next : S) : Option (StructureAbstractValue S) :=
  if v.isTop then some v else
    (v.m_set.contains previous).bind fun contained => if !contained then some v else (v.add next).map Prod.fst

/-- The loop of `observeTransitions`, which goes from the last transition to the first. -/
def newStructures (set : StructureSet S) : List (S × S) → Option (StructureSet S)
  | [] => some .empty
  | (previous, next) :: vector =>
    (newStructures set vector).bind fun structures =>
      (set.contains previous).bind fun contained =>
        if !contained then some structures else (structures.add next).map Prod.fst

def mergeNotTop (v : StructureAbstractValue S) (other : StructureSet S) : Option (StructureAbstractValue S × Bool) :=
  (v.m_set.merge other).bind fun (set, changed) =>
    if !changed then some (⟨set⟩, false) else (limited set).map fun v => (v, true)

def observeTransitions (v : StructureAbstractValue S) (vector : List (S × S)) : Option (StructureAbstractValue S) :=
  if v.isTop then some v else
    (newStructures v.m_set vector).bind fun structures => (v.mergeNotTop structures).map Prod.fst

def mergeSet (v : StructureAbstractValue S) (other : StructureSet S) : Option (StructureAbstractValue S × Bool) :=
  if v.isTop then some (v, false) else v.mergeNotTop other

def mergeSlow (v other : StructureAbstractValue S) : Option (StructureAbstractValue S × Bool) :=
  let changed := !v.isClobbered && other.isClobbered
  let v := if changed then v.setClobbered true else v
  (v.mergeNotTop other.m_set).map fun (v, changed') => (v, changed || changed')

def merge (v other : StructureAbstractValue S) : Option (StructureAbstractValue S × Bool) :=
  if other.isClear then some (v, false)
  else if v.isTop then some (v, false)
  else if other.isTop then some (top, true)
  else v.mergeSlow other

def filterSet (v : StructureAbstractValue S) (other : StructureSet S) : Option (StructureAbstractValue S) :=
  if v.isTop then some ⟨v.m_set.copyFrom other⟩
  else if v.isClobbered then
    other.size.bind fun otherSize => v.m_set.size.map fun size =>
      if otherSize > size + clobberedSupremacyThreshold then v else setClobbered ⟨v.m_set.copyFrom other⟩ false
  else (v.m_set.filter other).map fun set => ⟨set⟩

def filter (v other : StructureAbstractValue S) : Option (StructureAbstractValue S) :=
  if other.isTop then some v
  else if other.isClobbered then
    if v.isTop then some v
    else if !v.isClobbered then
      v.m_set.size.bind fun size => other.m_set.size.map fun otherSize =>
        if size > otherSize + clobberedSupremacyThreshold then v.assign other else v
    else (v.m_set.filter other.m_set).map fun set => ⟨set⟩
  else v.filterSet other.m_set

/-- `filter` with the value itself as the operand. -/
def filterSelf (v : StructureAbstractValue S) : Option (StructureAbstractValue S) :=
  if v.isTop then some v else v.m_set.filterSelf.map fun set => ⟨set⟩

/-- `ConformsToType`. -/
def conformsToType (kind : S → StructureKind) (type : SpeculatedType) (structure' : S) : Bool :=
  decide (speculationFromStructure (kind structure') &&& type ≠ 0)

def filterSlow (kind : S → StructureKind) (v : StructureAbstractValue S) (type : SpeculatedType) :
    Option (StructureAbstractValue S) :=
  if type &&& SpeculatedType.SpecCell = 0 then some v.clear
  else (v.m_set.genericFilter (conformsToType kind type)).map fun set => ⟨set⟩

def filterType (kind : S → StructureKind) (v : StructureAbstractValue S) (type : SpeculatedType) :
    Option (StructureAbstractValue S) :=
  if type &&& SpeculatedType.SpecCell = 0 then some v.clear
  else if !v.isClear && !v.isTop then v.filterSlow kind type
  else some v

def contains (v : StructureAbstractValue S) (structure' : S) : Option Bool :=
  if v.isTop || v.isClobbered then some true else v.m_set.contains structure'

def isSubsetOfSet (v : StructureAbstractValue S) (other : StructureSet S) : Option Bool :=
  if v.isTop || v.isClobbered then some false else v.m_set.isSubsetOf other

def isSubsetOf (v other : StructureAbstractValue S) : Option Bool :=
  if v.isTop then some false
  else if other.isTop then some true
  else if v.isClobbered = other.isClobbered then v.m_set.isSubsetOf other.m_set
  else if v.isClobbered then some false
  else v.m_set.isSubsetOf other.m_set

def overlapsSet (v : StructureAbstractValue S) (other : StructureSet S) : Option Bool :=
  if v.isTop || v.isClobbered then some true else v.m_set.overlaps other

def overlaps (v other : StructureAbstractValue S) : Option Bool :=
  if other.isTop || other.isClobbered then some true else v.overlapsSet other.m_set

end StructureAbstractValue

end WebKit.JSC
