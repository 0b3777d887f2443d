import WebKit.Lib.HalfOpen
import WebKit.WTF.MediaTimeOrder

/-!
# `PlatformTimeRanges`

`PlatformTimeRanges.cpp`: a vector of half-open ranges of `MediaTime`. `add` walks through the vector with an unsigned
index and merges every range that overlaps or touches the added one; `unionWith` and `invert` add ranges one after the
other, and `intersectWith` is the inverted union of the inverted operands.
-/

namespace WebKit.WebCore

open WTF HalfOpen

/-- `PlatformTimeRanges::Range`: `m_start` and `m_end`. -/
abbrev Range := Ico MediaTime

namespace Range

def isPointInRange (r : Range) (point : MediaTime) : Bool := r.start.le point && point.lt r.stop

def isOverlappingRange (r range : Range) : Bool :=
  isPointInRange r range.start || isPointInRange r range.stop || isPointInRange range r.start

def isContiguousWithRange (r range : Range) : Bool := range.start.eq r.stop || range.stop.eq r.start

def unionWithOverlappingOrContiguousRange (r range : Range) : Range :=
  ⟨r.start.min range.start, r.stop.max range.stop⟩

def isBeforeRange (r range : Range) : Bool := range.start.ge r.stop

end Range

open Range

/-- `m_ranges`. -/
abbrev PlatformTimeRanges := List Range

namespace PlatformTimeRanges

/-- The condition under which the loop of `add` breaks at `range`, which does not overlap or touch the added one. -/
def insertsHere (ranges : PlatformTimeRanges) (addedRange : Range) (overlappingArcIndex : UInt32) (range : Range) : Bool :=
  if overlappingArcIndex = 0 then isBeforeRange addedRange range
  else (ranges[(overlappingArcIndex - 1).toNat]?.any fun previous => isBeforeRange previous addedRange) &&
    isBeforeRange addedRange range

/-- The loop of `add`: the remaining ranges, the merged range, and the index to insert it at. Every round removes a range
or passes one, so there are at most as many as ranges. -/
def addLoop : Nat → PlatformTimeRanges → Range → UInt32 → PlatformTimeRanges × Range × UInt32
  | 0, ranges, addedRange, overlappingArcIndex => (ranges, addedRange, overlappingArcIndex)
  | fuel + 1, ranges, addedRange, overlappingArcIndex =>
    match ranges[overlappingArcIndex.toNat]? with
    | none => (ranges, addedRange, overlappingArcIndex)
    | some range =>
      if isOverlappingRange addedRange range || isContiguousWithRange addedRange range then
        -- the index goes below zero at the first range, and the loop increments it again
        addLoop fuel (ranges.eraseIdx overlappingArcIndex.toNat)
          (unionWithOverlappingOrContiguousRange addedRange range) (overlappingArcIndex - 1 + 1)
      else if insertsHere ranges addedRange overlappingArcIndex range then (ranges, addedRange, overlappingArcIndex)
      else addLoop fuel ranges addedRange (overlappingArcIndex + 1)

def add (ranges : PlatformTimeRanges) (start stop : MediaTime) : PlatformTimeRanges :=
  let (ranges, addedRange, overlappingArcIndex) := addLoop ranges.length ranges ⟨start, stop⟩ 0
  ranges.insertIdx overlappingArcIndex.toNat addedRange

/-- The loop of `copy` and of `unionWith`. -/
def addAll (ranges other : PlatformTimeRanges) : PlatformTimeRanges :=
  other.foldl (fun ranges range => ranges.add range.start range.stop) ranges

/-- The copy constructor. -/
def copy (other : PlatformTimeRanges) : PlatformTimeRanges := addAll [] other

def invert (ranges : PlatformTimeRanges) : PlatformTimeRanges :=
  let posInf := MediaTime.positiveInfiniteTime
  let negInf := MediaTime.negativeInfiniteTime
  match ranges with
  | [] => add [] negInf posInf
  | first :: rest =>
    let start := first.start
    let inverted := if start.ne negInf then add [] negInf start else []
    let inverted := ((first :: rest).zip rest).foldl (fun inverted p => inverted.add p.1.stop p.2.start) inverted
    let stop := ((first :: rest).getLast (List.cons_ne_nil _ _)).stop
    if stop.ne posInf then inverted.add stop posInf else inverted

def unionWith (ranges other : PlatformTimeRanges) : PlatformTimeRanges := ranges.copy.addAll other

def intersectWith (ranges other : PlatformTimeRanges) : PlatformTimeRanges :=
  let invertedOther := other.copy.invert
  (ranges.invert.unionWith invertedOther).invert

/-- The times that the ranges represent. -/
def Represents (ranges : PlatformTimeRanges) (t : MediaTime) : Prop := ∃ range ∈ ranges, isPointInRange range t

/-- The ranges are not empty, in order, disjoint and not contiguous. -/
structure Sorted (ranges : PlatformTimeRanges) : Prop where
  lt : ∀ range ∈ ranges, range.start.lt range.stop
  apart : ranges.Pairwise fun r s => r.stop.lt s.start

def Same (ranges other : PlatformTimeRanges) : Prop :=
  List.Forall₂ (fun r s => r.start.eq s.start ∧ r.stop.eq s.stop) ranges other

end PlatformTimeRanges

/-! ## Steps -/

/-- Any number of objects. -/
abbrev TimeRangesState := Nat → PlatformTimeRanges

inductive TimeRangesOp
  | add (i : Nat) (start stop : MediaTime)
  | unionWith (i j : Nat)
  | intersectWith (i j : Nat)
  | invert (i : Nat)
  deriving Repr

/-- The number of ranges of 32 bytes above which `VectorBuffer::allocateBuffer` crashes. -/
def maxRanges : Nat := (2 ^ 32 - 1) / 32

namespace TimeRangesState

def set (s : TimeRangesState) (i : Nat) (ranges : PlatformTimeRanges) : Option TimeRangesState :=
  if ranges.length ≤ maxRanges then some (Function.update s i ranges) else none

/-- One operation on the object `i`. -/
def step (s : TimeRangesState) : TimeRangesOp → Option TimeRangesState
  | .add i start stop => if start.Proper ∧ stop.Proper ∧ start.lt stop then s.set i ((s i).add start stop) else none
  | .unionWith i j => s.set i ((s i).unionWith (s j))
  | .intersectWith i j => s.set i ((s i).intersectWith (s j))
  | .invert i => s.set i (s i).invert

end TimeRangesState

end WebKit.WebCore
