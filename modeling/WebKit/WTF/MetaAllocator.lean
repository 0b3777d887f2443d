import Mathlib.Data.List.AList
import WebKit.Lib.Cover
import WebKit.Lib.Index

/-!
# `MetaAllocator`

`MetaAllocator.cpp` and `MetaAllocatorHandle`. Free space is kept in nodes, which the three maps reach through pointers:
`m_freeSpaceSizeMap` is a red-black tree over the sizes, and two hash maps are keyed by the start and by the end. The
tree is a parameter with the laws that its operations have (`SizeTree`); it reads the keys of its nodes through the
pointers, so a node that changes while it is in the tree breaks them. Addresses and sizes are natural numbers, and
`roundUp` and `FreshSpan` keep them below `2^64`.
-/

namespace WebKit.WTF

open Cover Index

/-- The address of a `FreeSpaceNode`. -/
abbrev NodePointer := Nat

/-- `FreeSpaceNode`: `m_start` and `m_sizeInBytes`. -/
abbrev FreeSpaceNode := Span

/-- `MetaAllocatorHandle`: `m_start` and `m_sizeInBytes`. -/
abbrev MetaAllocatorHandle := Span

/-- `RedBlackTree<FreeSpaceNode, size_t>`: `entries` lists the nodes with the key each was inserted under. The keys of the
nodes are read through the pointers, by `key`. -/
structure SizeTree (τ : Type*) where
  entries : τ → List (NodePointer × Nat)
  empty : τ
  insert : (NodePointer → Nat) → τ → NodePointer → τ
  remove : τ → NodePointer → τ
  findLeastGreaterThanOrEqual : (NodePointer → Nat) → τ → Nat → Option NodePointer
  entries_empty : entries empty = []
  entries_insert : ∀ {key t i}, (∀ p ∈ entries t, key p.1 = p.2) → i ∉ (entries t).map Prod.fst →
    (entries (insert key t i)).Perm ((i, key i) :: entries t)
  entries_remove : ∀ {t i k}, ((entries t).map Prod.fst).Nodup → (i, k) ∈ entries t →
    (entries t).Perm ((i, k) :: entries (remove t i))
  find_some : ∀ {key t k i}, (∀ p ∈ entries t, key p.1 = p.2) → findLeastGreaterThanOrEqual key t k = some i →
    ∃ n, (i, n) ∈ entries t ∧ k ≤ n ∧ ∀ p ∈ entries t, k ≤ p.2 → n ≤ p.2
  find_none : ∀ {key t k}, (∀ p ∈ entries t, key p.1 = p.2) → findLeastGreaterThanOrEqual key t k = none →
    ∀ p ∈ entries t, p.2 < k

/-- The two powers of two that the constructor takes. -/
structure MetaAllocatorConfig where
  logAllocationGranule : Nat
  logPageSize : Nat
  deriving Repr

namespace MetaAllocatorConfig

def allocationGranule (C : MetaAllocatorConfig) : Nat := 2 ^ C.logAllocationGranule

def pageSize (C : MetaAllocatorConfig) : Nat := 2 ^ C.logPageSize

end MetaAllocatorConfig

/-- The nodes and the three maps. -/
structure FreeSpace (τ : Type*) where
  /-- The memory of the nodes. -/
  nodes : NodePointer → FreeSpaceNode
  /-- The address of the next node from `fastMalloc`. -/
  nextNode : NodePointer
  freeSpaceSizeMap : τ
  freeSpaceStartAddressMap : Nat → Option NodePointer
  freeSpaceEndAddressMap : Nat → Option NodePointer

namespace FreeSpace

variable {τ : Type*} (T : SizeTree τ) (C : MetaAllocatorConfig)

def init : FreeSpace τ := ⟨fun _ => ⟨0, 0⟩, 0, T.empty, fun _ => none, fun _ => none⟩

/-- `FreeSpaceNode::key`, through the pointer. -/
def key (a : FreeSpace τ) (i : NodePointer) : Nat := (a.nodes i).size

def setNode (a : FreeSpace τ) (i : NodePointer) (node : FreeSpaceNode) : FreeSpace τ :=
  { a with nodes := Function.update a.nodes i node }

def sizeMapInsert (a : FreeSpace τ) (i : NodePointer) : FreeSpace τ :=
  { a with freeSpaceSizeMap := T.insert a.key a.freeSpaceSizeMap i }

def sizeMapRemove (a : FreeSpace τ) (i : NodePointer) : FreeSpace τ :=
  { a with freeSpaceSizeMap := T.remove a.freeSpaceSizeMap i }

def startMapAdd (a : FreeSpace τ) (start : Nat) (i : NodePointer) : FreeSpace τ :=
  { a with freeSpaceStartAddressMap := mapAdd a.freeSpaceStartAddressMap start i }

def startMapRemove (a : FreeSpace τ) (start : Nat) : FreeSpace τ :=
  { a with freeSpaceStartAddressMap := mapRemove a.freeSpaceStartAddressMap start }

def endMapAdd (a : FreeSpace τ) (stop : Nat) (i : NodePointer) : FreeSpace τ :=
  { a with freeSpaceEndAddressMap := mapAdd a.freeSpaceEndAddressMap stop i }

def endMapRemove (a : FreeSpace τ) (stop : Nat) : FreeSpace τ :=
  { a with freeSpaceEndAddressMap := mapRemove a.freeSpaceEndAddressMap stop }

/-- `allocFreeSpaceNode`, and the writes to the two fields. -/
def allocFreeSpaceNode (a : FreeSpace τ) (node : FreeSpaceNode) : FreeSpace τ :=
  { a.setNode a.nextNode node with nextNode := a.nextNode + 1 }

/-! ## Free space -/

/-- `MetaAllocator::findAndRemoveFreeSpace`; `none` is the null pointer. -/
def findAndRemoveFreeSpace (a : FreeSpace τ) (sizeInBytes : Nat) : Option Nat × FreeSpace τ :=
  match T.findLeastGreaterThanOrEqual a.key a.freeSpaceSizeMap sizeInBytes with
  | none => (none, a)
  | some i =>
    let node := a.nodes i
    let a := a.sizeMapRemove T i
    if node.size = sizeInBytes then
      -- perfect fit
      (some node.start, (a.startMapRemove node.start).endMapRemove (node.start + node.size))
    else
      let firstPage := node.start / C.pageSize
      let lastPage := (node.start + node.size - 1) / C.pageSize
      let lastPageForLeftAllocation := (node.start + sizeInBytes - 1) / C.pageSize
      let firstPageForRightAllocation := (node.start + node.size - sizeInBytes) / C.pageSize
      if lastPageForLeftAllocation - firstPage + 1 ≤ lastPage - firstPageForRightAllocation + 1 then
        let a := a.startMapRemove node.start
        let a := a.setNode i ⟨node.start + sizeInBytes, node.size - sizeInBytes⟩
        let a := a.sizeMapInsert T i
        (some node.start, a.startMapAdd (node.start + sizeInBytes) i)
      else
        let result := node.start + node.size - sizeInBytes
        let a := a.endMapRemove (node.start + node.size)
        let a := a.setNode i ⟨node.start, node.size - sizeInBytes⟩
        let a := a.sizeMapInsert T i
        (some result, a.endMapAdd result i)

/-- `MetaAllocator::addFreeSpace`. -/
def addFreeSpace (a : FreeSpace τ) (start sizeInBytes : Nat) : FreeSpace τ :=
  let stop := start + sizeInBytes
  match a.freeSpaceEndAddressMap start with
  | some l =>
    let leftNode := a.nodes l
    let rightNeighbor := a.freeSpaceStartAddressMap stop
    let a := (a.sizeMapRemove T l).endMapRemove (leftNode.start + leftNode.size)
    match rightNeighbor with
    | some r =>
      let rightNode := a.nodes r
      let rightEnd := stop + rightNode.size
      let a := ((a.sizeMapRemove T r).startMapRemove stop).endMapRemove rightEnd
      let a := a.setNode l ⟨leftNode.start, leftNode.size + (sizeInBytes + rightNode.size)⟩
      (a.sizeMapInsert T l).endMapAdd rightEnd l
    | none =>
      let a := a.setNode l ⟨leftNode.start, leftNode.size + sizeInBytes⟩
      (a.sizeMapInsert T l).endMapAdd stop l
  | none =>
    match a.freeSpaceStartAddressMap stop with
    | some r =>
      let rightNode := a.nodes r
      let a := (a.sizeMapRemove T r).startMapRemove stop
      let a := a.setNode r ⟨start, rightNode.size + sizeInBytes⟩
      (a.sizeMapInsert T r).startMapAdd start r
    | none =>
      let i := a.nextNode
      let a := a.allocFreeSpaceNode ⟨start, sizeInBytes⟩
      ((a.sizeMapInsert T i).startMapAdd start i).endMapAdd stop i

end FreeSpace

structure MetaAllocator (τ : Type*) extends FreeSpace τ where
  pageOccupancyMap : AList fun _ : Nat => Nat
  bytesAllocated : Nat
  bytesReserved : Nat
  bytesCommitted : Nat

namespace MetaAllocator

variable {τ : Type*} (T : SizeTree τ) (C : MetaAllocatorConfig)

def init : MetaAllocator τ := ⟨.init T, ∅, 0, 0, 0⟩

/-- `MetaAllocator::addFreeSpaceFromReleasedHandle`. -/
def addFreeSpaceFromReleasedHandle (a : MetaAllocator τ) (start sizeInBytes : Nat) : MetaAllocator τ :=
  { a with
    bytesAllocated := a.bytesAllocated - sizeInBytes
    toFreeSpace := a.addFreeSpace T start sizeInBytes }

/-- `MetaAllocator::addFreshFreeSpace`. -/
def addFreshFreeSpace (a : MetaAllocator τ) (start sizeInBytes : Nat) : MetaAllocator τ :=
  { a with
    bytesReserved := a.bytesReserved + sizeInBytes
    toFreeSpace := a.addFreeSpace T start sizeInBytes }

/-! ## Page occupancy -/

/-- The pages from the one of `address` to the one of the last byte. -/
def pagesOf (address sizeInBytes : Nat) : List Nat :=
  let firstPage := address / C.pageSize
  let lastPage := (address + sizeInBytes - 1) / C.pageSize
  List.range' firstPage (lastPage + 1 - firstPage)

/-- The body of the loop of `incrementPageOccupancy`. -/
def incrementPage (a : MetaAllocator τ) (page : Nat) : MetaAllocator τ :=
  match a.pageOccupancyMap.lookup page with
  | none => { a with
      pageOccupancyMap := a.pageOccupancyMap.insert page 1
      bytesCommitted := a.bytesCommitted + C.pageSize }
  | some count => { a with pageOccupancyMap := a.pageOccupancyMap.insert page (count + 1) }

def incrementPageOccupancy (a : MetaAllocator τ) (address sizeInBytes : Nat) : MetaAllocator τ :=
  (pagesOf C address sizeInBytes).foldl (incrementPage C) a

/-- The body of the loop of `decrementPageOccupancy`, which asserts that the page is in the map. -/
def decrementPage (a : MetaAllocator τ) (page : Nat) : MetaAllocator τ :=
  match a.pageOccupancyMap.lookup page with
  | none => a
  | some count =>
    if count - 1 = 0 then { a with
      pageOccupancyMap := a.pageOccupancyMap.erase page
      bytesCommitted := a.bytesCommitted - C.pageSize }
    else { a with pageOccupancyMap := a.pageOccupancyMap.insert page (count - 1) }

def decrementPageOccupancy (a : MetaAllocator τ) (address sizeInBytes : Nat) : MetaAllocator τ :=
  (pagesOf C address sizeInBytes).foldl (decrementPage C) a

/-! ## Handles -/

/-- The largest `size_t`. -/
def sizeMax : Nat := 2 ^ 64 - 1

/-- `MetaAllocator::roundUp`; `none` is `CRASH`. -/
def roundUp (sizeInBytes : Nat) : Option Nat :=
  if sizeMax - C.allocationGranule ≤ sizeInBytes then none
  else some ((sizeInBytes + C.allocationGranule - 1) / C.allocationGranule * C.allocationGranule)

/-- The number of pages that `allocate` asks `allocateNewSpace` for. -/
def requestedNumberOfPages (sizeInBytes : Nat) : Nat := (sizeInBytes + C.pageSize - 1) % 2 ^ 64 / C.pageSize

/-- `MetaAllocator::allocate` of a rounded size that is not zero. `newSpace` is what `allocateNewSpace` returns: the
start, and the number of pages that it may have raised. -/
def allocateRounded (a : MetaAllocator τ) (sizeInBytes : Nat) (newSpace : Option (Nat × Nat)) :
    Option MetaAllocatorHandle × MetaAllocator τ :=
  let finish (start : Nat) (a : MetaAllocator τ) :=
    let a := a.incrementPageOccupancy C start sizeInBytes
    (some ⟨start, sizeInBytes⟩, { a with bytesAllocated := a.bytesAllocated + sizeInBytes })
  match a.findAndRemoveFreeSpace T C sizeInBytes with
  | (some start, freeSpace) => finish start { a with toFreeSpace := freeSpace }
  | (none, freeSpace) =>
    let a := { a with toFreeSpace := freeSpace }
    match newSpace with
    | none => (none, a)
    | some (start, numberOfPages) =>
      let roundedUpSize := numberOfPages * C.pageSize
      let a := { a with bytesReserved := a.bytesReserved + roundedUpSize }
      if roundedUpSize > sizeInBytes then
        let freeSpace := a.addFreeSpace T (start + sizeInBytes) (roundedUpSize - sizeInBytes)
        finish start { a with toFreeSpace := freeSpace }
      else finish start a

/-- `MetaAllocatorHandle::shrink` to a rounded size. -/
def shrinkRounded (a : MetaAllocator τ) (handle : MetaAllocatorHandle) (newSizeInBytes : Nat) :
    MetaAllocatorHandle × MetaAllocator τ :=
  if newSizeInBytes = handle.size then (handle, a)
  else
    let freeStart := handle.start + newSizeInBytes
    let freeSize := handle.size - newSizeInBytes
    let freeEnd := freeStart + freeSize
    let firstCompletelyFreePage := (freeStart + C.pageSize - 1) / C.pageSize * C.pageSize
    let a := if firstCompletelyFreePage < freeEnd then
        a.decrementPageOccupancy C firstCompletelyFreePage (freeSize - (firstCompletelyFreePage - freeStart))
      else a
    (⟨handle.start, newSizeInBytes⟩, a.addFreeSpaceFromReleasedHandle T freeStart freeSize)

/-- `MetaAllocator::release`. -/
def release (a : MetaAllocator τ) (handle : MetaAllocatorHandle) : MetaAllocator τ :=
  if handle.size ≠ 0 then
    (a.decrementPageOccupancy C handle.start handle.size).addFreeSpaceFromReleasedHandle T handle.start handle.size
  else a

end MetaAllocator

/-! ## Steps -/

/-- The allocator with the live handles and the spans it was given. -/
structure MetaState (τ : Type*) where
  allocator : MetaAllocator τ
  handles : List MetaAllocatorHandle
  reserved : List Span

def MetaState.init {τ : Type*} (T : SizeTree τ) : MetaState τ := ⟨.init T, [], []⟩

/-- The operations; a handle is given by its position. -/
inductive MetaOp
  | addFreshFreeSpace (start sizeInBytes : Nat)
  | allocate (sizeInBytes : Nat) (newSpace : Option (Nat × Nat))
  | shrink (handle newSizeInBytes : Nat)
  | release (handle : Nat)
  deriving Repr

/-- A span that can be added to those reserved: not empty, below the end of the address space, and disjoint from them. -/
def FreshSpan (reserved : List Span) (span : Span) : Prop :=
  0 < span.start ∧ 0 < span.size ∧ span.stop < 2 ^ 64 ∧ ∀ r ∈ reserved, span.Disjoint r

instance (reserved : List Span) (span : Span) : Decidable (FreshSpan reserved span) :=
  inferInstanceAs (Decidable (_ ∧ _ ∧ _ ∧ ∀ r ∈ reserved, _))

/-- What `allocate` asserts of new space, besides that it is new. -/
def NewSpace (C : MetaAllocatorConfig) (reserved : List Span) (rounded : Nat) (newSpace : Nat × Nat) : Prop :=
  FreshSpan reserved ⟨newSpace.1, newSpace.2 * C.pageSize⟩ ∧
    MetaAllocator.requestedNumberOfPages C rounded ≤ newSpace.2 ∧ rounded ≤ newSpace.2 * C.pageSize

instance (C : MetaAllocatorConfig) (reserved : List Span) (rounded : Nat) (newSpace : Nat × Nat) :
    Decidable (NewSpace C reserved rounded newSpace) := inferInstanceAs (Decidable (_ ∧ _ ∧ _))

section Step

variable {τ : Type*} (T : SizeTree τ) (C : MetaAllocatorConfig)

namespace MetaState

def addFreshFreeSpace (s : MetaState τ) (span : Span) : Option (MetaState τ) :=
  if FreshSpan s.reserved span then
    some { s with
      allocator := s.allocator.addFreshFreeSpace T span.start span.size
      reserved := span :: s.reserved }
  else none

/-- The new space is reserved if it was asked for. -/
def allocate (s : MetaState τ) (sizeInBytes : Nat) (newSpace : Option (Nat × Nat)) : Option (MetaState τ) :=
  if sizeInBytes = 0 then some s
  else (MetaAllocator.roundUp C sizeInBytes).bind fun rounded =>
    if ∀ p ∈ newSpace, NewSpace C s.reserved rounded p then
      let (handle, allocator) := s.allocator.allocateRounded T C rounded newSpace
      let asked := (s.allocator.findAndRemoveFreeSpace T C rounded).1.isNone
      let spans := newSpace.toList.map fun p => (⟨p.1, p.2 * C.pageSize⟩ : Span)
      some ⟨allocator, handle.toList ++ s.handles, if asked then spans ++ s.reserved else s.reserved⟩
    else none

def shrink (s : MetaState τ) (i newSizeInBytes : Nat) : Option (MetaState τ) :=
  s.handles[i]?.bind fun handle =>
    if newSizeInBytes ≤ handle.size then
      (MetaAllocator.roundUp C newSizeInBytes).map fun rounded =>
        let (handle, allocator) := s.allocator.shrinkRounded T C handle rounded
        { s with allocator := allocator, handles := s.handles.set i handle }
    else none

def release (s : MetaState τ) (i : Nat) : Option (MetaState τ) :=
  s.handles[i]?.map fun handle =>
    { s with allocator := s.allocator.release T C handle, handles := s.handles.eraseIdx i }

/-- One operation. A size for which `roundUp` crashes ends the run. -/
def step (s : MetaState τ) : MetaOp → Option (MetaState τ)
  | .addFreshFreeSpace start sizeInBytes => s.addFreshFreeSpace T ⟨start, sizeInBytes⟩
  | .allocate sizeInBytes newSpace => s.allocate T C sizeInBytes newSpace
  | .shrink i newSizeInBytes => s.shrink T C i newSizeInBytes
  | .release i => s.release T C i

end MetaState

end Step

end WebKit.WTF
