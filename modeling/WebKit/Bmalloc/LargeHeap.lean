import Mathlib.Algebra.Group.Nat.Defs
import Mathlib.Logic.Function.Basic
import WebKit.Bmalloc.Sizes

/-!
# Large ranges: boundary tags and segregated free lists

`BoundaryTag`, `BeginTag`, `EndTag`, `LargeChunk`, `SegregatedFreeList` and the large part of `Heap` and `VMHeap`. The
tags of all chunks are one map, read at the address that `LargeChunk::beginTag` and `LargeChunk::endTag` compute; a
pointer to a tag is such an address, and `prev` and `next` are the addresses before and after it. A `Vector` is a list
in index order. `VMHeap::deallocateLargeRange` releases the lock, so it is two operations.
-/

namespace WebKit.Bmalloc

/-- `Vector::pop(i)`: the last element takes the place of the popped one. -/
def vectorPop {α : Type*} (list : List α) (i : Nat) : List α :=
  match list.getLast? with
  | none => list
  | some last => (list.set i last).dropLast

/-! ## Boundary tags -/

structure BoundaryTag where
  isFree : Bool
  isEnd : Bool
  hasPhysicalPages : Bool
  size : Nat
  deriving DecidableEq, Repr

namespace BoundaryTag

/-- `sizeBits`. -/
def sizeBits : Nat := 32 - 3

/-- `BoundaryTag::clear`. -/
def null : BoundaryTag := ⟨false, false, false, 0⟩

def setSize (tag : BoundaryTag) (size : Nat) : BoundaryTag := { tag with size := size % 2 ^ sizeBits }

def setFree (tag : BoundaryTag) (isFree : Bool) : BoundaryTag := { tag with isFree := isFree }

def setEnd (tag : BoundaryTag) (isEnd : Bool) : BoundaryTag := { tag with isEnd := isEnd }

def setHasPhysicalPages (tag : BoundaryTag) (b : Bool) : BoundaryTag := { tag with hasPhysicalPages := b }

/-- `BeginTag::isInFreeList`. -/
def isInFreeList (tag : BoundaryTag) (size : Nat) : Bool := tag.isFree && !tag.isEnd && tag.size == size

end BoundaryTag

@[ext] structure Range where
  begin : Nat
  size : Nat
  deriving DecidableEq, Repr

/-- `Range::end`. -/
def Range.stop (range : Range) : Nat := range.begin + range.size

/-- The address of a tag: the number in `m_boundaryTags` of a chunk. -/
structure TagAddress where
  chunk : Nat
  number : Nat
  deriving DecidableEq, Repr

/-- `BoundaryTag::prev`. -/
def TagAddress.prev (a : TagAddress) : TagAddress := ⟨a.chunk, a.number - 1⟩

/-- `BoundaryTag::next`. -/
def TagAddress.next (a : TagAddress) : TagAddress := ⟨a.chunk, a.number + 1⟩

namespace LargeChunk

/-- `boundaryTagCount`; a tag has four bytes. -/
def boundaryTagCount : Nat := max (2 * largeMin / 4) (largeChunkSize / largeMin)

/-- The offset of `m_memory`. -/
def memoryOffset (P : Platform) : Nat := roundUp P.vmPageSize (4 * boundaryTagCount)

/-- `LargeChunk::get`. -/
def get (object : Nat) : Nat := roundDown largeChunkSize object

/-- `LargeChunk::begin`. -/
def begin (P : Platform) (chunk : Nat) : Nat := chunk + memoryOffset P

/-- `LargeChunk::end`. -/
def stop (chunk : Nat) : Nat := chunk + largeChunkSize

def beginTag (object : Nat) : TagAddress := ⟨get object, (object - get object) / largeMin - 1⟩

def endTag (object size : Nat) : TagAddress := ⟨get object, (object + size - largeMin - get object) / largeMin - 1⟩

end LargeChunk

/-- The tags of all chunks. -/
@[ext] structure Tags where
  read : TagAddress → BoundaryTag

instance : CoeFun Tags fun _ => TagAddress → BoundaryTag := ⟨Tags.read⟩

namespace Tags

def set (tags : Tags) (a : TagAddress) (tag : BoundaryTag) : Tags := ⟨Function.update tags.read a tag⟩

def modify (tags : Tags) (a : TagAddress) (f : BoundaryTag → BoundaryTag) : Tags := tags.set a (f (tags a))

/-- `EndTag::operator=`, to the tag of `endTag` from that of `beginTag`, where the two differ. -/
def copyToEnd (tags : Tags) (beginTag endTag : TagAddress) : Tags :=
  if endTag ≠ beginTag then tags.set endTag ((tags beginTag).setEnd true) else tags

/-- The tags of a chunk that `vmAllocate` returns: its memory is zero. -/
def vmAllocate (tags : Tags) (chunk : Nat) : Tags := ⟨fun a => if a.chunk = chunk then .null else tags a⟩

/-- `BoundaryTag::init`: the tags, and the range of the chunk. -/
def init (P : Platform) (tags : Tags) (chunk : Nat) : Tags × Range :=
  let range : Range := ⟨LargeChunk.begin P chunk, LargeChunk.stop chunk - LargeChunk.begin P chunk⟩
  let beginTag := LargeChunk.beginTag range.begin
  let tags := tags.modify beginTag fun tag => ((tag.setSize range.size).setFree true).setHasPhysicalPages false
  let endTag := LargeChunk.endTag range.begin range.size
  let tags := tags.set endTag ((tags beginTag).setEnd true)
  let tags := tags.modify beginTag.prev fun tag => (tag.setSize largeMin).setFree false
  let tags := tags.modify endTag.next fun tag => (tag.setSize largeMin).setFree false
  (tags, range)

/-- The variables that `mergeLarge` passes by reference. -/
structure Merge where
  tags : Tags
  beginTag : TagAddress
  endTag : TagAddress
  range : Range
  hasPhysicalPages : Bool

def mergeLargeLeft (m : Merge) (prev : TagAddress) : Merge :=
  let left : Range := ⟨m.range.begin - (m.tags prev).size, (m.tags prev).size⟩
  let range : Range := ⟨left.begin, left.size + m.range.size⟩
  { tags := (m.tags.set prev .null).set m.beginTag .null
    beginTag := LargeChunk.beginTag range.begin
    endTag := m.endTag
    range := range
    hasPhysicalPages := m.hasPhysicalPages && (m.tags prev).hasPhysicalPages }

def mergeLargeRight (m : Merge) (next : TagAddress) : Merge :=
  let right : Range := ⟨m.range.stop, (m.tags next).size⟩
  let range : Range := ⟨m.range.begin, m.range.size + right.size⟩
  { tags := (m.tags.set m.endTag .null).set next .null
    beginTag := m.beginTag
    endTag := LargeChunk.endTag range.begin range.size
    range := range
    hasPhysicalPages := m.hasPhysicalPages && (m.tags next).hasPhysicalPages }

def mergeLarge (tags : Tags) (beginTag endTag : TagAddress) (range : Range) : Tags × Range :=
  let prev := beginTag.prev
  let next := endTag.next
  let m : Merge := ⟨tags, beginTag, endTag, range, (tags beginTag).hasPhysicalPages⟩
  let m := if (m.tags prev).isFree then mergeLargeLeft m prev else m
  let m := if (m.tags next).isFree then mergeLargeRight m next else m
  let tags := m.tags.modify m.beginTag fun tag =>
    ((tag.setSize m.range.size).setFree true).setHasPhysicalPages m.hasPhysicalPages
  (tags.copyToEnd m.beginTag m.endTag, m.range)

/-- `BoundaryTag::deallocate`. -/
def deallocate (tags : Tags) (object : Nat) : Tags × Range :=
  let beginTag := LargeChunk.beginTag object
  let range : Range := ⟨object, (tags beginTag).size⟩
  tags.mergeLarge beginTag (LargeChunk.endTag range.begin range.size) range

/-- `BoundaryTag::splitLarge`: the tags, the new end tag, the range and the leftover. -/
def splitLarge (tags : Tags) (beginTag : TagAddress) (size : Nat) (endTag : TagAddress) (range : Range) :
    Tags × TagAddress × Range × Range :=
  let tags := tags.modify beginTag fun tag => tag.setSize size
  let splitEndTag := LargeChunk.endTag range.begin size
  let tags := tags.copyToEnd beginTag splitEndTag
  let leftover : Range := ⟨range.begin + size, range.size - size⟩
  let leftoverBeginTag := LargeChunk.beginTag leftover.begin
  let tags := tags.set leftoverBeginTag ((tags beginTag).setSize leftover.size)
  (tags.copyToEnd leftoverBeginTag endTag, splitEndTag, ⟨range.begin, size⟩, leftover)

/-- `BoundaryTag::allocate`: the tags, the range and the leftover. -/
def allocate (tags : Tags) (size : Nat) (range : Range) : Tags × Range × Range :=
  let beginTag := LargeChunk.beginTag range.begin
  let endTag := LargeChunk.endTag range.begin range.size
  let (tags, endTag, range, leftover) :=
    if range.size - size > largeMin then tags.splitLarge beginTag size endTag range else (tags, endTag, range, ⟨0, 0⟩)
  let tags := tags.modify beginTag fun tag => (tag.setHasPhysicalPages true).setFree false
  let tags := tags.modify endTag fun tag => (tag.setHasPhysicalPages true).setFree false
  (tags, range, leftover)

/-- The test that a free list entry has to pass. -/
def accepts (tags : Tags) (range : Range) : Bool := (tags (LargeChunk.beginTag range.begin)).isInFreeList range.size

end Tags

/-! ## Free lists -/

/-- `SegregatedFreeList`: the lists `m_lists[0..18]`. -/
abbrev SegregatedFreeList := Nat → List Range

namespace SegregatedFreeList

def listCount : Nat := 19

/-- The loop of `select`; a `size_t` has 64 bits. -/
def selectLoop : Nat → Nat → Nat → Nat
  | 0, _, result => result
  | fuel + 1, alignCount, result => if alignCount = 0 then result else selectLoop fuel (alignCount / 2) (result + 1)

def select (size : Nat) : Nat := selectLoop 64 ((size - largeMin) / largeAlignment) 0

def insert (lists : SegregatedFreeList) (range : Range) : SegregatedFreeList :=
  Function.update lists (select range.size) (lists (select range.size) ++ [range])

/-- The loop of `take` in one list, from index `i` down to `stop`. -/
def takeLoop (tags : Tags) (minimum stop : Nat) : Nat → List Range → Option Range → Option Range × List Range
  | 0, list, first => (first, list)
  | i + 1, list, first =>
    if i < stop then (first, list)
    else match list[i]? with
      | none => (first, list)
      | some range =>
        if !tags.accepts range then takeLoop tags minimum stop i (vectorPop list i) first
        else if range.size < minimum then takeLoop tags minimum stop i list first
        else match first with
          | none => takeLoop tags minimum stop i list (some range)
          | some best =>
            if best.begin < range.begin then takeLoop tags minimum stop i list first
            else takeLoop tags minimum stop i list (some range)

/-- `take` in one list, which looks at the last `segregatedFreeListSearchDepth` entries. -/
def takeList (tags : Tags) (list : List Range) (minimum : Nat) : Option Range × List Range :=
  takeLoop tags minimum (list.length - segregatedFreeListSearchDepth) list.length list none

/-- The loop of `take` over `n` lists that start with list `i`. -/
def takeFrom (tags : Tags) (minimum : Nat) : Nat → Nat → SegregatedFreeList → Option Range × SegregatedFreeList
  | 0, _, lists => (none, lists)
  | n + 1, i, lists =>
    match takeList tags (lists i) minimum with
    | (some range, list) => (some range, Function.update lists i list)
    | (none, list) => takeFrom tags minimum n (i + 1) (Function.update lists i list)

/-- `SegregatedFreeList::take`. -/
def take (lists : SegregatedFreeList) (tags : Tags) (minimum : Nat) : Option Range × SegregatedFreeList :=
  takeFrom tags minimum (listCount - select minimum) (select minimum) lists

/-- The loop of `takeGreedy` in one list. -/
def takeGreedyList (tags : Tags) (minimum : Nat) : Nat → List Range → Option Range × List Range
  | 0, list => (none, list)
  | i + 1, list =>
    match list[i]? with
    | none => (none, list)
    | some range =>
      if !tags.accepts range then takeGreedyList tags minimum i (vectorPop list i)
      else if range.size < minimum then takeGreedyList tags minimum i list
      else (some range, vectorPop list i)

/-- The loop of `takeGreedy` over the lists below `n`. -/
def takeGreedyFrom (tags : Tags) (minimum : Nat) : Nat → SegregatedFreeList → Option Range × SegregatedFreeList
  | 0, lists => (none, lists)
  | n + 1, lists =>
    match takeGreedyList tags minimum (lists n).length (lists n) with
    | (some range, list) => (some range, Function.update lists n list)
    | (none, list) => takeGreedyFrom tags minimum n (Function.update lists n list)

/-- `SegregatedFreeList::takeGreedy`. -/
def takeGreedy (lists : SegregatedFreeList) (tags : Tags) (minimum : Nat) : Option Range × SegregatedFreeList :=
  takeGreedyFrom tags minimum listCount lists

end SegregatedFreeList

/-! ## The heap -/

/-- The large part of `Heap` and `VMHeap`. -/
structure LargeHeap where
  tags : Tags
  /-- `Heap::m_largeRanges`. -/
  largeRanges : SegregatedFreeList
  /-- `VMHeap::m_largeRanges`. -/
  vmLargeRanges : SegregatedFreeList
  /-- The chunks created so far. -/
  chunks : List Nat
  isAllocatingPages : Bool

namespace LargeHeap

def init : LargeHeap := ⟨⟨fun _ => .null⟩, fun _ => [], fun _ => [], [], false⟩

variable (P : Platform)

/-- `VMHeap::allocateLargeChunk`: `fresh` is the address that `vmAllocate` returns. -/
def allocateLargeChunk (h : LargeHeap) (fresh : Nat) : Range × LargeHeap :=
  let (tags, range) := (h.tags.vmAllocate fresh).init P fresh
  (range, { h with tags := tags, chunks := fresh :: h.chunks })

/-- `VMHeap::allocateLargeRange`. -/
def allocateLargeRange (h : LargeHeap) (size fresh : Nat) : Range × LargeHeap :=
  match h.vmLargeRanges.take h.tags size with
  | (some range, lists) => (range, { h with vmLargeRanges := lists })
  | (none, lists) => { h with vmLargeRanges := lists }.allocateLargeChunk P fresh

/-- The range that `Heap::allocateLarge` splits and hands out. -/
def takeLargeRange (h : LargeHeap) (size fresh : Nat) : Range × LargeHeap :=
  match h.largeRanges.take h.tags size with
  | (some range, lists) => (range, { h with largeRanges := lists })
  | (none, lists) => { h with largeRanges := lists }.allocateLargeRange P size fresh

/-- `Heap::allocateLarge`: the range of the object. -/
def allocateLarge (h : LargeHeap) (size fresh : Nat) : Range × LargeHeap :=
  let (range, h) := { h with isAllocatingPages := true }.takeLargeRange P size fresh
  let (tags, range, leftover) := h.tags.allocate size range
  let h := { h with tags := tags }
  (range, if leftover.size ≠ 0 then { h with largeRanges := h.largeRanges.insert leftover } else h)

/-- `Heap::deallocateLarge`. -/
def deallocateLarge (h : LargeHeap) (object : Nat) : LargeHeap :=
  let (tags, range) := h.tags.deallocate object
  { h with tags := tags, largeRanges := h.largeRanges.insert range }

/-- One pass of the loop of `scavengeLargeRanges` up to the release of the lock: the range whose pages are given back. -/
def scavengeLargeRanges (h : LargeHeap) : Option Range × LargeHeap :=
  if h.isAllocatingPages then (none, { h with isAllocatingPages := false })
  else match h.largeRanges.takeGreedy h.tags P.vmPageSize with
    | (none, lists) => (none, { h with largeRanges := lists })
    | (some range, lists) =>
      let tags := h.tags.modify (LargeChunk.beginTag range.begin) (·.setFree false)
      let tags := tags.modify (LargeChunk.endTag range.begin range.size) (·.setFree false)
      (some range, { h with tags := tags, largeRanges := lists })

/-- The end of `VMHeap::deallocateLargeRange`, with the lock taken again. -/
def releaseLargeRange (h : LargeHeap) (range : Range) : LargeHeap :=
  let beginTag := LargeChunk.beginTag range.begin
  let endTag := LargeChunk.endTag range.begin range.size
  let tags := (h.tags.modify beginTag (·.setFree true)).modify endTag (·.setFree true)
  let tags := (tags.modify beginTag (·.setHasPhysicalPages false)).modify endTag (·.setHasPhysicalPages false)
  { h with tags := tags, vmLargeRanges := h.vmLargeRanges.insert range }

/-! ## Aliased entries -/

/-- The begins of the ranges from address `b` on, from begin tag to begin tag. -/
def rangeBeginsFrom (tags : Tags) (stop : Nat) : Nat → Nat → List Nat
  | 0, _ => []
  | fuel + 1, b =>
    let next := b + (tags (LargeChunk.beginTag b)).size
    b :: if next < stop then rangeBeginsFrom tags stop fuel next else []

/-- The addresses where a range of a chunk begins. -/
def rangeBegins (h : LargeHeap) : List Nat :=
  h.chunks.flatMap fun c =>
    rangeBeginsFrom h.tags (LargeChunk.stop c) LargeChunk.boundaryTagCount (LargeChunk.begin P c)

/-- No entry of a free list passes the test at an address where no range begins. Such an entry is left behind by a merge
or a split, and the tag it reads is that of a range of the same size that begins in the same `largeMin` bytes. -/
def NoAliasedEntry (h : LargeHeap) : Prop :=
  ∀ i < SegregatedFreeList.listCount, ∀ entry ∈ h.largeRanges i ++ h.vmLargeRanges i,
    h.tags.accepts entry = true → entry.begin ∈ h.rangeBegins P

instance (h : LargeHeap) : Decidable (h.NoAliasedEntry P) :=
  inferInstanceAs (Decidable (∀ i < SegregatedFreeList.listCount, ∀ entry ∈ h.largeRanges i ++ h.vmLargeRanges i,
    h.tags.accepts entry = true → entry.begin ∈ h.rangeBegins P))

end LargeHeap

end WebKit.Bmalloc
