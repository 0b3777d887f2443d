import WebKit.Lib.StepFunction

/-!
# Regions

A `Region` is a shape and its bounds. A shape is a list of spans; here each span is its `y` with its segments, which are
those of `m_segments` from its `segmentIndex` to that of the next span. Coordinates are integers; in the program their
sums and differences are assumed not to overflow.
-/

namespace WebKit.WebCore

/-! ## Rectangles -/

structure IntPoint where
  x : Int
  y : Int
  deriving DecidableEq

structure IntSize where
  width : Int
  height : Int
  deriving DecidableEq

structure IntRect where
  x : Int := 0
  y : Int := 0
  width : Int := 0
  height : Int := 0
  deriving DecidableEq

namespace IntRect

def maxX (r : IntRect) : Int := r.x + r.width

def maxY (r : IntRect) : Int := r.y + r.height

def isEmpty (r : IntRect) : Bool := r.width ≤ 0 || r.height ≤ 0

/-- `contains(const IntRect&)`. -/
def contains (r other : IntRect) : Bool :=
  r.x ≤ other.x && other.maxX ≤ r.maxX && r.y ≤ other.y && other.maxY ≤ r.maxY

/-- `contains(const IntPoint&)`. -/
def containsPoint (r : IntRect) (p : IntPoint) : Bool := r.x ≤ p.x && p.x < r.maxX && r.y ≤ p.y && p.y < r.maxY

def intersects (r other : IntRect) : Bool :=
  !r.isEmpty && !other.isEmpty && r.x < other.maxX && other.x < r.maxX && r.y < other.maxY && other.y < r.maxY

def unite (r other : IntRect) : IntRect :=
  if other.isEmpty then r
  else if r.isEmpty then other
  else
    ⟨min r.x other.x, min r.y other.y, max r.maxX other.maxX - min r.x other.x, max r.maxY other.maxY - min r.y other.y⟩

def move (r : IntRect) (offset : IntSize) : IntRect := { r with x := r.x + offset.width, y := r.y + offset.height }

end IntRect

/-! ## Shapes -/

/-- The spans of a shape. -/
abbrev Shape := List (Int × List Int)

namespace Shape

/-- `m_segments`. -/
def segments (shape : Shape) : List Int := shape.flatMap Prod.snd

/-- `Shape(const IntRect&)`. -/
def ofRect (r : IntRect) : Shape := [(r.y, [r.x, r.maxX]), (r.maxY, [])]

def isRect (shape : Shape) : Bool := shape.length ≤ 2 && shape.segments.length ≤ 2

/-- `appendSpan`, unless the span `canCoalesce` with the last one. -/
def appendSpan (shape : Shape) (y : Int) (segments : List Int) : Shape :=
  match shape.getLast? with
  | none => [(y, segments)]
  | some last => if last.2 = segments then shape else shape ++ [(y, segments)]

def appendSpans (shape spans : Shape) : Shape := spans.foldl (fun shape span => shape.appendSpan span.1 span.2) shape

def translate (shape : Shape) (offset : IntSize) : Shape :=
  shape.map fun span => (span.1 + offset.height, span.2.map (· + offset.width))

/-! ### Bounds -/

/-- `std::numeric_limits<int>::max()`. -/
def maxInt : Int := 2147483647

/-- `std::numeric_limits<int>::min()`. -/
def minInt : Int := -2147483648

/-- The loop of `bounds`, at a span whose `segmentIndex` is `index`. A span without segments gives the segments beside
it, unless there is none behind it. -/
def boundsLoop (segments : List Int) (index : Nat) (limits : Int × Int) : Shape → Int × Int
  | span :: next :: spans =>
    if index = segments.length then boundsLoop segments index limits (next :: spans)
    else
      let firstSegment := segments.getD index 0
      let lastSegment := segments.getD (index + span.2.length - 1) 0
      boundsLoop segments (index + span.2.length)
        (if firstSegment < limits.1 then firstSegment else limits.1,
          if limits.2 < lastSegment then lastSegment else limits.2)
        (next :: spans)
  | _ => limits

def bounds (shape : Shape) : IntRect :=
  match shape, shape.getLast? with
  | span :: _, some lastSpan =>
    let (minX, maxX) := boundsLoop shape.segments 0 (maxInt, minInt) shape
    ⟨minX, span.1, maxX - minX, lastSpan.1 - span.1⟩
  | _, _ => {}

/-! ### Operations -/

/-- The parameters of `shapeOperation`. -/
structure Operation where
  opCode : Nat
  shouldAddRemainingSegmentsFromSpan1 : Bool
  shouldAddRemainingSegmentsFromSpan2 : Bool
  shouldAddRemainingSpansFromShape1 : Bool
  shouldAddRemainingSpansFromShape2 : Bool
  trySimpleOperation : Shape → Shape → Option Shape

def unionOperation : Operation where
  opCode := 0
  shouldAddRemainingSegmentsFromSpan1 := true
  shouldAddRemainingSegmentsFromSpan2 := true
  shouldAddRemainingSpansFromShape1 := true
  shouldAddRemainingSpansFromShape2 := true
  trySimpleOperation shape1 shape2 := if shape1 = [] then some shape2 else none

def intersectOperation : Operation where
  opCode := 3
  shouldAddRemainingSegmentsFromSpan1 := false
  shouldAddRemainingSegmentsFromSpan2 := false
  shouldAddRemainingSpansFromShape1 := false
  shouldAddRemainingSpansFromShape2 := false
  trySimpleOperation _ _ := none

def subtractOperation : Operation where
  opCode := 1
  shouldAddRemainingSegmentsFromSpan1 := true
  shouldAddRemainingSegmentsFromSpan2 := false
  shouldAddRemainingSpansFromShape1 := true
  shouldAddRemainingSpansFromShape2 := false
  trySimpleOperation _ _ := none

namespace Operation

/-- `segments.append(x)`, if the flag comes to the code of the operation or leaves it. -/
def append (op : Operation) (oldFlag flag : Nat) (x : Int) (segments : List Int) : List Int :=
  if flag = op.opCode ∨ oldFlag = op.opCode then x :: segments else segments

/-- The segments that a step of `shapeOperation` makes of those of two spans, from the segments on that are left. -/
def mergeSegments (op : Operation) (flag : Nat) : List Int → List Int → List Int
  | x :: s1, x' :: s2 =>
    if x < x' then op.append flag (flag ^^^ 1) x (mergeSegments op (flag ^^^ 1) s1 (x' :: s2))
    else if x' < x then op.append flag (flag ^^^ 2) x' (mergeSegments op (flag ^^^ 2) (x :: s1) s2)
    else op.append flag (flag ^^^ 1 ^^^ 2) x (mergeSegments op (flag ^^^ 1 ^^^ 2) s1 s2)
  | s1, s2 =>
    if op.shouldAddRemainingSegmentsFromSpan1 = true ∧ s1 ≠ [] then s1
    else if op.shouldAddRemainingSegmentsFromSpan2 = true ∧ s2 ≠ [] then s2
    else []
termination_by s1 s2 => s1.length + s2.length

/-- The span of a step. -/
def addSpan (op : Operation) (result : Shape) (y : Int) (segments1 segments2 : List Int) : Shape :=
  let segments := op.mergeSegments 0 segments1 segments2
  if segments ≠ [] ∨ result ≠ [] then result.appendSpan y segments else result

/-- The loop of `shapeOperation` over the spans, and the remaining spans behind it. -/
def mergeSpans (op : Operation) (result : Shape) (segments1 segments2 : List Int) : Shape → Shape → Shape
  | span1 :: spans1, span2 :: spans2 =>
    if span1.1 < span2.1 then
      mergeSpans op (op.addSpan result span1.1 span1.2 segments2) span1.2 segments2 spans1 (span2 :: spans2)
    else if span2.1 < span1.1 then
      mergeSpans op (op.addSpan result span2.1 segments1 span2.2) segments1 span2.2 (span1 :: spans1) spans2
    else mergeSpans op (op.addSpan result span1.1 span1.2 span2.2) span1.2 span2.2 spans1 spans2
  | spans1, spans2 =>
    if op.shouldAddRemainingSpansFromShape1 = true ∧ spans1 ≠ [] then result.appendSpans spans1
    else if op.shouldAddRemainingSpansFromShape2 = true ∧ spans2 ≠ [] then result.appendSpans spans2
    else result
termination_by spans1 spans2 => spans1.length + spans2.length

end Operation

def shapeOperation (op : Operation) (shape1 shape2 : Shape) : Shape :=
  match op.trySimpleOperation shape1 shape2 with
  | some result => result
  | none => op.mergeSpans [] [] [] shape1 shape2

def unionShapes : Shape → Shape → Shape := shapeOperation unionOperation

def intersectShapes : Shape → Shape → Shape := shapeOperation intersectOperation

def subtractShapes : Shape → Shape → Shape := shapeOperation subtractOperation

/-! ### Comparison -/

/-- The parameters of `compareShapes`: the results that an event gives, if it ends the comparison. -/
structure CompareOperation where
  defaultResult : Bool
  aOutsideB : Option Bool
  bOutsideA : Option Bool
  aOverlapsB : Option Bool

def compareContainsOperation : CompareOperation where
  defaultResult := true
  aOutsideB := none
  bOutsideA := some false
  aOverlapsB := none

def compareIntersectsOperation : CompareOperation where
  defaultResult := false
  aOutsideB := none
  bOutsideA := none
  aOverlapsB := some true

/-- The result of an event, if it happens. -/
def onEvent (happens : Prop) [Decidable happens] (event : Option Bool) : Option Bool := if happens then event else none

/-- The loop over the segments of two spans that overlap, and what follows it. -/
def compareSegments (op : CompareOperation) : List Int → List Int → Option Bool
  | aX :: aMaxX :: aSegments, bX :: bMaxX :: bSegments =>
    onEvent (aX < bMaxX ∧ bX < aMaxX) op.aOverlapsB <|> onEvent (aX < bX) op.aOutsideB <|>
      onEvent (bX < aX) op.bOutsideA <|>
        if aMaxX < bMaxX then compareSegments op aSegments (bX :: bMaxX :: bSegments)
        else if bMaxX < aMaxX then compareSegments op (aX :: aMaxX :: aSegments) bSegments
        else compareSegments op aSegments bSegments
  | aSegments, bSegments => onEvent (aSegments ≠ []) op.aOutsideB <|> onEvent (bSegments ≠ []) op.bOutsideA
termination_by aSegments bSegments => aSegments.length + bSegments.length

/-- The loop over the spans, and what follows it. -/
def compareSpans (op : CompareOperation) (aHadSegmentInPreviousSpan bHadSegmentInPreviousSpan : Bool) :
    Shape → Shape → Option Bool
  | a :: aNext :: aSpans, b :: bNext :: bSpans =>
    onEvent (a.1 < b.1 ∧ ¬bHadSegmentInPreviousSpan = true ∧ a.2 ≠ []) op.aOutsideB <|>
      onEvent (b.1 < a.1 ∧ ¬aHadSegmentInPreviousSpan = true ∧ b.2 ≠ []) op.bOutsideA <|>
        (if a.1 < bNext.1 ∧ b.1 < aNext.1 then compareSegments op a.2 b.2 else none) <|>
          if aNext.1 < bNext.1 then compareSpans op (a.2 ≠ []) (b.2 ≠ []) (aNext :: aSpans) (b :: bNext :: bSpans)
          else if bNext.1 < aNext.1 then compareSpans op (a.2 ≠ []) (b.2 ≠ []) (a :: aNext :: aSpans) (bNext :: bSpans)
          else compareSpans op (a.2 ≠ []) (b.2 ≠ []) (aNext :: aSpans) (bNext :: bSpans)
  | aSpans, bSpans => onEvent (2 ≤ aSpans.length) op.aOutsideB <|> onEvent (2 ≤ bSpans.length) op.bOutsideA
termination_by aSpans bSpans => aSpans.length + bSpans.length

def compareShapes (op : CompareOperation) (aShape bShape : Shape) : Bool :=
  (compareSpans op false false aShape bShape).getD op.defaultResult

/-! ### Points -/

/-- The loop of `contains(const IntPoint&)` over segments. -/
def segmentsContain (pointX : Int) : List Int → Bool
  | x :: maxX :: segments => if pointX < x then false else if pointX < maxX then true else segmentsContain pointX segments
  | _ => false

/-- The loop of `contains(const IntPoint&)` over spans. -/
def containsPoint (p : IntPoint) : Shape → Bool
  | span :: next :: spans =>
    if p.y < span.1 then false
    else if next.1 ≤ p.y then containsPoint p (next :: spans)
    else if segmentsContain p.x span.2 then true
    else containsPoint p (next :: spans)
  | _ => false

/-- The loop of `rects` over segments. -/
def segmentRects (y height : Int) : List Int → List IntRect
  | x :: maxX :: segments => ⟨x, y, maxX - x, height⟩ :: segmentRects y height segments
  | _ => []

/-- The loop of `rects` over spans. -/
def rects : Shape → List IntRect
  | span :: next :: spans => segmentRects span.1 (next.1 - span.1) span.2 ++ rects (next :: spans)
  | _ => []

end Shape

/-! ## Regions -/

structure Region where
  m_bounds : IntRect := {}
  m_shape : Shape := []
  deriving DecidableEq

namespace Region

/-- `Region(const IntRect&)`. -/
def ofRect (r : IntRect) : Region := ⟨r, .ofRect r⟩

def isEmpty (region : Region) : Bool := region.m_bounds.isEmpty

def isRect (region : Region) : Bool := region.m_shape.isRect

def rects (region : Region) : List IntRect := region.m_shape.rects

/-- `contains(const Region&)`. -/
def contains (self region : Region) : Bool :=
  if self.m_bounds.contains region.m_bounds then
    Shape.compareShapes Shape.compareContainsOperation self.m_shape region.m_shape
  else false

/-- `contains(const IntPoint&)`. -/
def containsPoint (self : Region) (p : IntPoint) : Bool :=
  if self.m_bounds.containsPoint p then self.m_shape.containsPoint p else false

def intersects (self region : Region) : Bool :=
  if self.m_bounds.intersects region.m_bounds then
    Shape.compareShapes Shape.compareIntersectsOperation self.m_shape region.m_shape
  else false

def intersect (self region : Region) : Region :=
  if self.m_bounds.isEmpty then self
  else if self.m_bounds.intersects region.m_bounds then
    let intersectedShape := self.m_shape.intersectShapes region.m_shape
    ⟨intersectedShape.bounds, intersectedShape⟩
  else {}

def unite (self region : Region) : Region :=
  if region.isEmpty then self
  else if self.isRect && self.m_bounds.contains region.m_bounds then self
  else if region.isRect && region.m_bounds.contains self.m_bounds then region
  else if !self.isRect && self.contains region then self
  else ⟨self.m_bounds.unite region.m_bounds, self.m_shape.unionShapes region.m_shape⟩

def subtract (self region : Region) : Region :=
  if self.m_bounds.isEmpty then self
  else if region.isEmpty then self
  else if self.m_bounds.intersects region.m_bounds then
    let subtractedShape := self.m_shape.subtractShapes region.m_shape
    ⟨subtractedShape.bounds, subtractedShape⟩
  else self

def translate (self : Region) (offset : IntSize) : Region :=
  ⟨self.m_bounds.move offset, self.m_shape.translate offset⟩

end Region

end WebKit.WebCore
