import WebKit.Yarr.YarrPattern

/-!
# `YarrPattern::compile`

The passes over a complete pattern, and `compile`, which parses (twice if a back reference refers to no group) and runs
them. `size_t` and `unsigned` subtraction wrap: `sizeMinusOne 0` is the greatest number of 64 bits, and a loop up to it
leaves the vector (`Fault.termIndex`).
-/

namespace WebKit.Yarr

open WebKit.WTF

/-! ## Terminal parentheses -/

/-- The term that ends an alternative of the body, in a pattern without groups that capture. -/
def PatternTerm.markTerminal : PatternTerm → PatternTerm
  | .parentheses .parenthesesSubpattern disjunction ids fields =>
    if fields.quantityType = .quantifierGreedy ∧ fields.quantityCount = quantifyInfinite ∧ fields.capture = false then
      .parentheses .parenthesesSubpattern disjunction { ids with isTerminal := true } fields
    else .parentheses .parenthesesSubpattern disjunction ids fields
  | other => other

/-- `f` for the last term. -/
def modifyLast (f : PatternTerm → PatternTerm) : List PatternTerm → List PatternTerm
  | [] => []
  | [term] => [f term]
  | term :: next :: rest => term :: modifyLast f (next :: rest)

def PatternAlternative.markTerminal (alternative : PatternAlternative) : PatternAlternative :=
  { alternative with terms := modifyLast PatternTerm.markTerminal alternative.terms }

def checkForTerminalParentheses (pattern : YarrPattern) : YarrPattern :=
  if pattern.numSubpatterns ≠ 0 then pattern
  else
    { pattern with
      body :=
        { pattern.body with alternatives := pattern.body.alternatives.map PatternAlternative.markTerminal } }

/-! ## Dot-star enclosures -/

/-- `size - 1` for a `size_t`. -/
def sizeMinusOne (size : Nat) : Nat := if size = 0 then 2 ^ 64 - 1 else size - 1

mutual

/-- The loop of `containsCapturingTerms`, for `count` terms. -/
@[grind =] def containsCapturingTermsFrom : Nat → List PatternTerm → Except Fault Bool
  | 0, _ => .ok false
  | _ + 1, [] => .error .termIndex
  | count + 1, term :: rest =>
    match term.containsCapturing with
    | .ok false => containsCapturingTermsFrom count rest
    | result => result

/-- One turn of that loop. -/
@[grind =] def PatternTerm.containsCapturing : PatternTerm → Except Fault Bool
  | .term _ fields => .ok fields.capture
  | .parentheses .parenthesesSubpattern disjunction _ fields =>
    if fields.capture then .ok true else disjunction.containsCapturing
  | .parentheses .parentheticalAssertion _ _ fields => .ok fields.capture

@[grind =] def PatternDisjunction.containsCapturing : PatternDisjunction → Except Fault Bool
  | ⟨alternatives, _, _, _⟩ => containsCapturingAlternatives alternatives

/-- The loop over the alternatives of a group; each is read from 0 to `size - 1`. -/
@[grind =] def containsCapturingAlternatives : List PatternAlternative → Except Fault Bool
  | [] => .ok false
  | ⟨terms, _, _, _, _, _⟩ :: rest =>
    match containsCapturingTermsFrom (sizeMinusOne terms.length + 1) terms with
    | .ok false => containsCapturingAlternatives rest
    | result => result

end

/-- `containsCapturingTerms`, where `firstTermIndex ≤ lastTermIndex`. -/
def containsCapturingTerms (terms : List PatternTerm) (firstTermIndex lastTermIndex : Nat) : Except Fault Bool :=
  containsCapturingTermsFrom (lastTermIndex - firstTermIndex + 1) (terms.drop firstTermIndex)

/-- `terms[termIndex]`. -/
def termAt (terms : List PatternTerm) (termIndex : Nat) : Except Fault PatternTerm :=
  match terms[termIndex]? with
  | none => .error .termIndex
  | some term => .ok term

namespace PatternTerm

def isAssertionBOL : PatternTerm → Bool
  | term .assertionBOL _ => true
  | _ => false

def isAssertionEOL : PatternTerm → Bool
  | term .assertionEOL _ => true
  | _ => false

/-- The class of the newlines, which is a dot since the parser inverts it. -/
def isNewlineClass : PatternTerm → Bool
  | term (.characterClass characterClass) _ => decide (characterClass = .cached .newlineClassID)
  | _ => false

/-- A dot star that a pattern may begin with. -/
def isFirstDotStar (t : PatternTerm) : Bool :=
  t.isNewlineClass && decide (t.fields.quantityType ≠ .quantifierFixedCount)

/-- A dot star that a pattern may end with. -/
def isLastDotStar (t : PatternTerm) : Bool :=
  t.isNewlineClass && decide (t.fields.quantityType = .quantifierGreedy)

end PatternTerm

/-- The anchors of an expression in dot stars, and the indices of its first and its last term. -/
structure DotStarWrapped where
  startsWithBOL : Bool
  endsWithEOL : Bool
  firstExpressionTerm : Nat
  lastExpressionTerm : Nat
  deriving DecidableEq

/-- The tests of `optimizeDotStarWrappedExpressions` on the first and the last terms. -/
def dotStarWrapped (terms : List PatternTerm) : Except Fault (Option DotStarWrapped) :=
  if terms.length < 3 then .ok none
  else do
    let startsWithBOL := (← termAt terms 0).isAssertionBOL
    let firstNonAnchor := if startsWithBOL then 1 else 0
    let firstNonAnchorTerm ← termAt terms firstNonAnchor
    let endsWithEOL := (← termAt terms (sizeMinusOne terms.length)).isAssertionEOL
    let lastNonAnchor := if endsWithEOL then sizeMinusOne (sizeMinusOne terms.length) else sizeMinusOne terms.length
    let lastNonAnchorTerm ← termAt terms lastNonAnchor
    let firstExpressionTerm := firstNonAnchor + 1
    let lastExpressionTerm := sizeMinusOne lastNonAnchor
    .ok <|
      if firstNonAnchorTerm.isFirstDotStar && lastNonAnchorTerm.isLastDotStar &&
          decide (firstExpressionTerm ≤ lastExpressionTerm) then
        some { startsWithBOL, endsWithEOL, firstExpressionTerm, lastExpressionTerm }
      else none

/-- The alternative with the expression alone, and a term for the dot stars; the two loops remove the other terms. -/
def PatternAlternative.unwrapDotStars (alternative : PatternAlternative) (wrapped : DotStarWrapped) :
    PatternAlternative :=
  { alternative with
    terms := (alternative.terms.take (wrapped.lastExpressionTerm + 1)).drop wrapped.firstExpressionTerm ++
      [.term (.dotStarEnclosure wrapped.startsWithBOL wrapped.endsWithEOL) {}] }

def optimizeDotStarWrappedExpressions (pattern : YarrPattern) : Except Fault YarrPattern :=
  match pattern.body.alternatives with
  | [alternative] =>
    match dotStarWrapped alternative.terms with
    | .error fault => .error fault
    | .ok none => .ok pattern
    | .ok (some wrapped) =>
      match containsCapturingTerms alternative.terms wrapped.firstExpressionTerm wrapped.lastExpressionTerm with
      | .error fault => .error fault
      | .ok true => .ok pattern
      | .ok false =>
        .ok
          { pattern with
            containsBOL := false
            body := { pattern.body with alternatives := [alternative.unwrapDotStars wrapped] } }
  | _ => .ok pattern

/-! ## Anchors at the beginning -/

def PatternAlternative.setOnceThrough (alternative : PatternAlternative) : PatternAlternative :=
  { alternative with onceThrough := true }

/-- The alternatives of the loop disjunction, which is null if there are none. -/
def loopAlternatives : Option PatternDisjunction → List PatternAlternative
  | none => []
  | some loopDisjunction => loopDisjunction.alternatives

def optimizeBOL (pattern : YarrPattern) : YarrPattern :=
  if !pattern.containsBOL || pattern.multiline then pattern
  else
    let onceThrough := pattern.body.alternatives.map PatternAlternative.setOnceThrough
    let loop := pattern.body.copyDisjunction true
    { pattern with body := { pattern.body with alternatives := onceThrough ++ loopAlternatives loop } }

/-! ## Offsets -/

/-- `+=` of a `Checked<unsigned>`. -/
def checkedAdd (lhs rhs : UInt32) : Except Fault UInt32 :=
  if lhs + rhs < lhs then .error .overflow else .ok (lhs + rhs)

/-- `-` of a `Checked<unsigned>`. -/
def checkedSub (lhs rhs : UInt32) : Except Fault UInt32 :=
  if lhs - rhs > lhs then .error .overflow else .ok (lhs - rhs)

/-- The variables of the loop in `setupAlternativeOffsets`; `unsignedLength` is the flag
`m_containsUnsignedLengthPattern` of the pattern. -/
structure Offsets where
  callFrameSize : UInt32
  inputPosition : UInt32
  hasFixedSize : Bool := true
  unsignedLength : Bool
  deriving DecidableEq

def YarrStackSpaceForBackTrackInfoPatternCharacter : UInt32 := 1
def YarrStackSpaceForBackTrackInfoCharacterClass : UInt32 := 1
def YarrStackSpaceForBackTrackInfoBackReference : UInt32 := 2
def YarrStackSpaceForBackTrackInfoAlternative : UInt32 := 1
def YarrStackSpaceForBackTrackInfoParentheticalAssertion : UInt32 := 1
def YarrStackSpaceForBackTrackInfoParenthesesOnce : UInt32 := 1
def YarrStackSpaceForBackTrackInfoParenthesesTerminal : UInt32 := 1
def YarrStackSpaceForBackTrackInfoParentheses : UInt32 := 2

def INT_MAX : UInt32 := 2147483647
def UINT_MAX : UInt32 := 4294967295

/-- A character or a class: its position, and a frame slot if its count is not fixed. -/
def setupCharacterOffsets (type : TermType) (fields : TermFields) (space : UInt32) (offsets : Offsets) :
    Except Fault (PatternTerm × Offsets) :=
  let fields : TermFields := { fields with inputPosition := offsets.inputPosition.toInt32 }
  if fields.quantityType ≠ .quantifierFixedCount then
    .ok (.term type { fields with frameLocation := offsets.callFrameSize },
      { offsets with callFrameSize := offsets.callFrameSize + space, hasFixedSize := false })
  else
    match checkedAdd offsets.inputPosition fields.quantityCount with
    | .error fault => .error fault
    | .ok inputPosition => .ok (.term type fields, { offsets with inputPosition := inputPosition })

/-- The cases of the terms without parentheses. -/
def setupTermOffsets (type : TermType) (fields : TermFields) (initialInputPosition : UInt32) (offsets : Offsets) :
    Except Fault (PatternTerm × Offsets) :=
  let atPosition := { fields with inputPosition := offsets.inputPosition.toInt32 }
  match type with
  | .assertionBOL => .ok (.term type atPosition, offsets)
  | .assertionEOL => .ok (.term type atPosition, offsets)
  | .assertionWordBoundary => .ok (.term type atPosition, offsets)
  | .backReference _ =>
    .ok (.term type { atPosition with frameLocation := offsets.callFrameSize },
      { offsets with
        callFrameSize := offsets.callFrameSize + YarrStackSpaceForBackTrackInfoBackReference
        hasFixedSize := false })
  | .forwardReference => .ok (.term type fields, offsets)
  | .patternCharacter _ => setupCharacterOffsets type fields YarrStackSpaceForBackTrackInfoPatternCharacter offsets
  | .characterClass _ => setupCharacterOffsets type fields YarrStackSpaceForBackTrackInfoCharacterClass offsets
  | .dotStarEnclosure _ _ =>
    .ok (.term type { fields with inputPosition := initialInputPosition.toInt32 }, { offsets with hasFixedSize := false })

/-- What `setupDisjunctionOffsets` has seen of the alternatives. -/
structure DisjunctionOffsets where
  minimumInputSize : UInt32 := UINT_MAX
  maximumCallFrameSize : UInt32 := 0
  hasFixedSize : Bool := true
  unsignedLength : Bool
  deriving DecidableEq

mutual

/-- `setupDisjunctionOffsets`; `isBody` is the comparison with `m_pattern.m_body`. -/
@[grind =] def PatternDisjunction.setupOffsets (isBody : Bool) (initialCallFrameSize initialInputPosition : UInt32)
    (unsignedLength : Bool) : PatternDisjunction → Except Fault (PatternDisjunction × Bool)
  | ⟨alternatives, _, _, _⟩ =>
    if alternatives.isEmpty then .error .nullDisjunction
    else
      let initialCallFrameSize :=
        if isBody = false ∧ 1 < alternatives.length then
          initialCallFrameSize + YarrStackSpaceForBackTrackInfoAlternative
        else initialCallFrameSize
      match setupAlternativesOffsets initialCallFrameSize initialInputPosition { unsignedLength } alternatives with
      | .error fault => .error fault
      | .ok (alternatives, result) =>
        .ok (⟨alternatives, result.minimumInputSize, result.maximumCallFrameSize, result.hasFixedSize⟩,
          result.unsignedLength)

/-- The loop over the alternatives. -/
@[grind =] def setupAlternativesOffsets (initialCallFrameSize initialInputPosition : UInt32) (result : DisjunctionOffsets) :
    List PatternAlternative → Except Fault (List PatternAlternative × DisjunctionOffsets)
  | [] => .ok ([], result)
  | ⟨terms, _, onceThrough, _, startsWithBOL, containsBOL⟩ :: rest =>
    match setupTermsOffsets initialInputPosition
        { callFrameSize := initialCallFrameSize, inputPosition := initialInputPosition
          unsignedLength := result.unsignedLength } terms with
    | .error fault => .error fault
    | .ok (terms, offsets) =>
      match checkedSub offsets.inputPosition initialInputPosition with
      | .error fault => .error fault
      | .ok minimumSize =>
        let result :=
          { minimumInputSize := min result.minimumInputSize minimumSize
            maximumCallFrameSize := max result.maximumCallFrameSize offsets.callFrameSize
            hasFixedSize := result.hasFixedSize && offsets.hasFixedSize
            unsignedLength := offsets.unsignedLength || decide (INT_MAX < minimumSize) }
        match setupAlternativesOffsets initialCallFrameSize initialInputPosition result rest with
        | .error fault => .error fault
        | .ok (rest, result) =>
          .ok (⟨terms, minimumSize, onceThrough, offsets.hasFixedSize, startsWithBOL, containsBOL⟩ :: rest, result)

/-- The loop of `setupAlternativeOffsets`. -/
@[grind =] def setupTermsOffsets (initialInputPosition : UInt32) (offsets : Offsets) :
    List PatternTerm → Except Fault (List PatternTerm × Offsets)
  | [] => .ok ([], offsets)
  | term :: rest =>
    match term.setupOffsets initialInputPosition offsets with
    | .error fault => .error fault
    | .ok (term, offsets) =>
      match setupTermsOffsets initialInputPosition offsets rest with
      | .error fault => .error fault
      | .ok (rest, offsets) => .ok (term :: rest, offsets)

/-- One turn of that loop. -/
@[grind =] def PatternTerm.setupOffsets (initialInputPosition : UInt32) (offsets : Offsets) :
    PatternTerm → Except Fault (PatternTerm × Offsets)
  | .term type fields => setupTermOffsets type fields initialInputPosition offsets
  | .parentheses .parenthesesSubpattern disjunction ids fields =>
    let fields : TermFields := { fields with frameLocation := offsets.callFrameSize }
    if fields.quantityCount = 1 ∧ ids.isCopy = false then
      let frame :=
        if fields.quantityType ≠ .quantifierFixedCount then
          offsets.callFrameSize + YarrStackSpaceForBackTrackInfoParenthesesOnce
        else offsets.callFrameSize
      match disjunction.setupOffsets false frame offsets.inputPosition offsets.unsignedLength with
      | .error fault => .error fault
      | .ok (disjunction, unsignedLength) =>
        -- If quantity is fixed, then pre-check its minimum size.
        match (if fields.quantityType = .quantifierFixedCount then
            checkedAdd offsets.inputPosition disjunction.minimumSize else .ok offsets.inputPosition) with
        | .error fault => .error fault
        | .ok inputPosition =>
          .ok (.parentheses .parenthesesSubpattern disjunction ids { fields with inputPosition := inputPosition.toInt32 },
            { callFrameSize := disjunction.callFrameSize, inputPosition, hasFixedSize := false, unsignedLength })
    else if ids.isTerminal then
      match disjunction.setupOffsets false (offsets.callFrameSize + YarrStackSpaceForBackTrackInfoParenthesesTerminal)
          offsets.inputPosition offsets.unsignedLength with
      | .error fault => .error fault
      | .ok (disjunction, unsignedLength) =>
        .ok (.parentheses .parenthesesSubpattern disjunction ids
            { fields with inputPosition := offsets.inputPosition.toInt32 },
          { offsets with callFrameSize := disjunction.callFrameSize, hasFixedSize := false, unsignedLength })
    else
      match disjunction.setupOffsets false 0 offsets.inputPosition offsets.unsignedLength with
      | .error fault => .error fault
      | .ok (disjunction, unsignedLength) =>
        .ok (.parentheses .parenthesesSubpattern disjunction ids
            { fields with inputPosition := offsets.inputPosition.toInt32 },
          { offsets with
            callFrameSize := offsets.callFrameSize + YarrStackSpaceForBackTrackInfoParentheses
            hasFixedSize := false
            unsignedLength })
  | .parentheses .parentheticalAssertion disjunction ids fields =>
    match disjunction.setupOffsets false
        (offsets.callFrameSize + YarrStackSpaceForBackTrackInfoParentheticalAssertion) offsets.inputPosition
        offsets.unsignedLength with
    | .error fault => .error fault
    | .ok (disjunction, unsignedLength) =>
      .ok (.parentheses .parentheticalAssertion disjunction ids
          { fields with
            inputPosition := offsets.inputPosition.toInt32
            frameLocation := offsets.callFrameSize },
        { offsets with callFrameSize := disjunction.callFrameSize, unsignedLength })

end

def setupOffsets (pattern : YarrPattern) : Except Fault YarrPattern :=
  (pattern.body.setupOffsets true 0 0 pattern.containsUnsignedLengthPattern).map fun result =>
    { pattern with body := result.1, containsUnsignedLengthPattern := result.2 }

/-! ## All passes -/

/-- The passes behind the parse. -/
def optimize (pattern : YarrPattern) : Except Fault YarrPattern :=
  (optimizeDotStarWrappedExpressions (checkForTerminalParentheses pattern)).bind fun pattern =>
    setupOffsets (optimizeBOL pattern)

/-- The parse of `compile`, and the second one if a back reference is illegal, whose error is not looked at. -/
def parsePattern (patternString : List UChar) (ignoreCase multiline : Bool) :
    Option (Except Fault (Except ErrorCode YarrPattern)) :=
  match ({ pattern := { ignoreCase, multiline } } : YarrPatternConstructor).parse patternString quantifyInfinite with
  | none => none
  | some (.error fault) => some (.error fault)
  | some (.ok (.error code)) => some (.ok (.error code))
  | some (.ok (.ok c)) =>
    if c.pattern.containsIllegalBackReference then
      match Yarr.parse patternString c.pattern.numSubpatterns with
      | none => none
      | some parsed => some ((c.reset.calls parsed.tokens).map fun c => .ok c.finish)
    else some (.ok (.ok c.finish))

/-- `compile`: `none` if it does not end, a fault if it stops the process, and else an error or the pattern. -/
def compile (patternString : List UChar) (ignoreCase multiline : Bool) :
    Option (Except Fault (Except ErrorCode YarrPattern)) :=
  match parsePattern patternString ignoreCase multiline with
  | none => none
  | some (.error fault) => some (.error fault)
  | some (.ok (.error code)) => some (.ok (.error code))
  | some (.ok (.ok pattern)) => some ((optimize pattern).map .ok)

end WebKit.Yarr
