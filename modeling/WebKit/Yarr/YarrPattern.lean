import WebKit.Yarr.CharacterClass

/-!
# The pattern and its construction

A `YarrPattern` is a tree of disjunctions, alternatives and terms. The `YarrPatternConstructor` builds it from the tokens
of the parser. While a group is open its term is the last one of the alternative around it, so the state has a `Level` for
each group that is open. In the source these are pointers; a step that would follow a null pointer or leave a vector is a
`Fault` here.
-/

namespace WebKit.Yarr

open WebKit.WTF

inductive QuantifierType
  | quantifierFixedCount
  | quantifierGreedy
  | quantifierNonGreedy
  deriving DecidableEq

/-- A pointer to a class: one of those that the pattern caches, or one that was constructed for a term. -/
inductive CharacterClassPointer
  | cached (classID : BuiltInCharacterClassID)
  | user (characterClass : CharacterClass)
  deriving DecidableEq

def CharacterClassPointer.characterClass : CharacterClassPointer → CharacterClass
  | cached classID => classID.characterClass
  | user characterClass => characterClass

/-- The types of terms without parentheses, each with its part of the union. -/
inductive TermType
  | assertionBOL
  | assertionEOL
  | assertionWordBoundary
  | patternCharacter (ch : UChar)
  | characterClass (characterClass : CharacterClassPointer)
  | backReference (subpatternId : UInt32)
  | forwardReference
  | dotStarEnclosure (bolAnchor eolAnchor : Bool)
  deriving DecidableEq

inductive ParenthesesType
  | parenthesesSubpattern
  | parentheticalAssertion
  deriving DecidableEq

/-- The fields of the union for terms with parentheses, but for the disjunction. -/
structure Parentheses where
  subpatternId : UInt32
  lastSubpatternId : UInt32 := 0
  isCopy : Bool := false
  isTerminal : Bool := false
  deriving DecidableEq

/-- The fields that all terms have. -/
structure TermFields where
  capture : Bool := false
  invert : Bool := false
  quantityType : QuantifierType := .quantifierFixedCount
  quantityCount : UInt32 := 1
  inputPosition : Int32 := 0
  frameLocation : UInt32 := 0
  deriving DecidableEq

mutual

inductive PatternTerm where
  | term (type : TermType) (fields : TermFields)
  | parentheses (type : ParenthesesType) (disjunction : PatternDisjunction) (parentheses : Parentheses)
    (fields : TermFields)

structure PatternAlternative where
  terms : List PatternTerm := []
  minimumSize : UInt32 := 0
  onceThrough : Bool := false
  hasFixedSize : Bool := false
  startsWithBOL : Bool := false
  containsBOL : Bool := false

/-- A disjunction; a null pointer is one without alternatives. -/
structure PatternDisjunction where
  alternatives : List PatternAlternative
  minimumSize : UInt32 := 0
  callFrameSize : UInt32 := 0
  hasFixedSize : Bool := false

end

/-- What stops the process. -/
inductive Fault
  /-- The last term is taken from an alternative without terms. -/
  | emptyAlternative
  /-- A term is read behind the end of a vector. -/
  | termIndex
  | nullParent
  | nullDisjunction
  /-- The fields of parentheses are read from another term. -/
  | notParentheses
  /-- A loop in the construction of a character class leaves its vector or its table. -/
  | characterClass
  /-- The result of checked arithmetic does not fit. -/
  | overflow
  deriving DecidableEq

namespace PatternTerm

def fields : PatternTerm → TermFields
  | term _ fields => fields
  | parentheses _ _ _ fields => fields

/-- `quantify`. -/
def quantify (count : UInt32) (type : QuantifierType) : PatternTerm → PatternTerm
  | term termType fields => term termType { fields with quantityCount := count, quantityType := type }
  | parentheses parenthesesType disjunction ids fields =>
    parentheses parenthesesType disjunction ids { fields with quantityCount := count, quantityType := type }

/-- A term for the class `characterClass`. -/
def ofCharacterClass (characterClass : CharacterClassPointer) (invert : Bool) : PatternTerm :=
  .term (.characterClass characterClass) { invert := invert }

/-- Sets the flag of a subpattern that is a copy. -/
def setIsCopy : PatternTerm → PatternTerm
  | parentheses .parenthesesSubpattern disjunction ids fields =>
    parentheses .parenthesesSubpattern disjunction { ids with isCopy := true } fields
  | other => other

end PatternTerm

/-! ## Copies -/

mutual

/-- `copyDisjunction`: with the flag it leaves out the alternatives that start with `^`, and is null if none is left. -/
@[grind =] def PatternDisjunction.copyDisjunction (filterStartsWithBOL : Bool) : PatternDisjunction → Option PatternDisjunction
  | ⟨alternatives, _, _, _⟩ =>
    match copyAlternatives filterStartsWithBOL alternatives with
    | [] => none
    | alternative :: rest => some { alternatives := alternative :: rest }

@[grind =] def copyAlternatives (filterStartsWithBOL : Bool) : List PatternAlternative → List PatternAlternative
  | [] => []
  | ⟨terms, _, _, _, startsWithBOL, _⟩ :: rest =>
    if filterStartsWithBOL && startsWithBOL then copyAlternatives filterStartsWithBOL rest
    else { terms := copyTerms filterStartsWithBOL terms } :: copyAlternatives filterStartsWithBOL rest

@[grind =] def copyTerms (filterStartsWithBOL : Bool) : List PatternTerm → List PatternTerm
  | [] => []
  | term :: rest => term.copyTerm filterStartsWithBOL :: copyTerms filterStartsWithBOL rest

@[grind =] def PatternTerm.copyTerm (filterStartsWithBOL : Bool) : PatternTerm → PatternTerm
  | .term type fields => .term type fields
  | .parentheses type disjunction ids fields =>
    .parentheses type ((disjunction.copyDisjunction filterStartsWithBOL).getD { alternatives := [] }) ids fields

end

/-! ## Construction -/

/-- `lastTerm`. -/
def lastTerm (terms : List PatternTerm) : Except Fault PatternTerm :=
  match terms.getLast? with
  | none => .error .emptyAlternative
  | some term => .ok term

/-- `removeLastTerm`. -/
def removeLastTerm (terms : List PatternTerm) : Except Fault (List PatternTerm) :=
  match terms with
  | [] => .error .emptyAlternative
  | _ :: _ => .ok terms.dropLast

structure YarrPattern where
  ignoreCase : Bool
  multiline : Bool
  containsBackreferences : Bool := false
  containsBOL : Bool := false
  containsUnsignedLengthPattern : Bool := false
  numSubpatterns : UInt32 := 0
  maxBackReference : UInt32 := 0
  body : PatternDisjunction := { alternatives := [{}] }

def YarrPattern.containsIllegalBackReference (pattern : YarrPattern) : Bool :=
  decide (pattern.numSubpatterns < pattern.maxBackReference)

/-- A disjunction that is being built: the alternatives that are complete, and the last one. -/
structure Level where
  complete : List PatternAlternative := []
  alternative : PatternAlternative := {}

namespace Level

def disjunction (level : Level) : PatternDisjunction := { alternatives := level.complete ++ [level.alternative] }

def setTerms (level : Level) (terms : List PatternTerm) : Level :=
  { level with alternative := { level.alternative with terms := terms } }

end Level

/-- The state of the constructor: `level` holds `m_alternative`, and `parents` the alternatives around it, from the
inside. The body of `pattern` is there when all groups are closed. -/
structure YarrPatternConstructor where
  pattern : YarrPattern
  level : Level := {}
  parents : List Level := []
  characterClass : CharacterClass := {}
  invertCharacterClass : Bool := false
  invertParentheticalAssertion : Bool := false

namespace YarrPatternConstructor

variable (c : YarrPatternConstructor)

/-- `reset`, which keeps the flags of the constructor. -/
def reset : YarrPatternConstructor :=
  { c with
    pattern := { ignoreCase := c.pattern.ignoreCase, multiline := c.pattern.multiline }
    level := {}
    parents := []
    characterClass := {} }

def terms : List PatternTerm := c.level.alternative.terms

def setTerms (terms : List PatternTerm) : YarrPatternConstructor := { c with level := c.level.setTerms terms }

/-- `m_terms.append`. -/
def appendTerm (term : PatternTerm) : YarrPatternConstructor := c.setTerms (c.terms ++ [term])

def assertionBOL : YarrPatternConstructor :=
  let c' :=
    if c.terms.isEmpty && !c.invertParentheticalAssertion then
      { c with
        pattern := { c.pattern with containsBOL := true }
        level :=
          { c.level with alternative := { c.level.alternative with startsWithBOL := true, containsBOL := true } } }
    else c
  c'.appendTerm (.term .assertionBOL {})

def isASCII (ch : UChar) : Bool := decide (ch ≤ 0x7f)

/-- Ends the construction of a class, and appends a term for it. -/
def appendCharacterClass (characterClass : CharacterClass) (invert : Bool) : YarrPatternConstructor :=
  { c.appendTerm (.ofCharacterClass (.user characterClass) invert) with characterClass := {} }

def atomPatternCharacter (ch : UChar) : Except Fault YarrPatternConstructor :=
  if !c.pattern.ignoreCase || isASCII ch then .ok (c.appendTerm (.term (.patternCharacter ch) {}))
  else
    match rangeInfoFor ch with
    | some (info :: _) =>
      if info.type = .canonicalizeUnique then .ok (c.appendTerm (.term (.patternCharacter ch) {}))
      else
        match c.characterClass.putUnicodeIgnoreCase ch info with
        | none => .error .characterClass
        | some characterClass => .ok (c.appendCharacterClass characterClass false)
    | _ => .error .characterClass

def atomBuiltInCharacterClass (classID : BuiltInCharacterClassID) (invert : Bool) : YarrPatternConstructor :=
  c.appendTerm (.ofCharacterClass (.cached classID) invert)

def atomCharacterClassBegin (invert : Bool) : YarrPatternConstructor := { c with invertCharacterClass := invert }

/-- Goes on with the construction of a class. -/
def setCharacterClass : Option CharacterClass → Except Fault YarrPatternConstructor
  | none => .error .characterClass
  | some characterClass => .ok { c with characterClass := characterClass }

def atomCharacterClassAtom (ch : UChar) : Except Fault YarrPatternConstructor :=
  c.setCharacterClass (c.characterClass.putChar c.pattern.ignoreCase ch)

def atomCharacterClassRange (first last : UChar) : Except Fault YarrPatternConstructor :=
  c.setCharacterClass (c.characterClass.putRange c.pattern.ignoreCase first last)

def atomCharacterClassBuiltIn (classID : BuiltInCharacterClassID) (invert : Bool) :
    Except Fault YarrPatternConstructor :=
  c.setCharacterClass ((classID.appended invert).bind c.characterClass.append)

def atomCharacterClassEnd : YarrPatternConstructor := c.appendCharacterClass c.characterClass c.invertCharacterClass

/-- Opens a group, whose term gets its disjunction when the group ends. -/
def beginParentheses (type : ParenthesesType) (subpatternId : UInt32) (capture invert : Bool) :
    YarrPatternConstructor :=
  let term := PatternTerm.parentheses type { alternatives := [] } { subpatternId := subpatternId }
    { capture := capture, invert := invert }
  { c with level := {}, parents := c.level.setTerms (c.terms ++ [term]) :: c.parents }

def atomParenthesesSubpatternBegin (capture : Bool) : YarrPatternConstructor :=
  let c' := c.beginParentheses .parenthesesSubpattern (c.pattern.numSubpatterns + 1) capture false
  if capture then { c' with pattern := { c.pattern with numSubpatterns := c.pattern.numSubpatterns + 1 } } else c'

def atomParentheticalAssertionBegin (invert : Bool) : YarrPatternConstructor :=
  { c.beginParentheses .parentheticalAssertion (c.pattern.numSubpatterns + 1) false invert with
    invertParentheticalAssertion := invert }

/-- The alternative around a group that ends, with the disjunction of the group. -/
def closeGroup (alternative : PatternAlternative) (disjunction : PatternDisjunction) (lastSubpatternId : UInt32) :
    Except Fault PatternAlternative :=
  match lastTerm alternative.terms with
  | .error fault => .error fault
  | .ok (.term _ _) => .error .notParentheses
  | .ok (.parentheses type _ ids fields) =>
    let numBOLAnchoredAlts := disjunction.alternatives.countP PatternAlternative.startsWithBOL
    let term := PatternTerm.parentheses type disjunction { ids with lastSubpatternId := lastSubpatternId } fields
    .ok
      { alternative with
        terms := alternative.terms.dropLast ++ [term]
        containsBOL := alternative.containsBOL || decide (0 < numBOLAnchoredAlts)
        startsWithBOL := alternative.startsWithBOL ||
          decide (0 < numBOLAnchoredAlts ∧ numBOLAnchoredAlts = disjunction.alternatives.length) }

def atomParenthesesEnd : Except Fault YarrPatternConstructor :=
  match c.parents with
  | [] => .error .nullParent
  | parent :: parents =>
    match closeGroup parent.alternative c.level.disjunction c.pattern.numSubpatterns with
    | .error fault => .error fault
    | .ok alternative =>
      .ok
        { c with
          level := { parent with alternative := alternative }
          parents := parents
          invertParentheticalAssertion := false }

/-- Whether a back reference is inside the group it refers to. -/
def isInsideSubpattern (subpatternId : UInt32) : List Level → Except Fault Bool
  | [] => .ok false
  | parent :: parents =>
    match lastTerm parent.alternative.terms with
    | .error fault => .error fault
    | .ok (.parentheses .parenthesesSubpattern _ ids fields) =>
      if fields.capture && ids.subpatternId == subpatternId then .ok true else isInsideSubpattern subpatternId parents
    | .ok _ => isInsideSubpattern subpatternId parents

def atomBackReference (subpatternId : UInt32) : Except Fault YarrPatternConstructor :=
  let c' :=
    { c with
      pattern :=
        { c.pattern with
          containsBackreferences := true
          maxBackReference := max c.pattern.maxBackReference subpatternId } }
  if c.pattern.numSubpatterns < subpatternId then .ok (c'.appendTerm (.term .forwardReference {}))
  else
    match isInsideSubpattern subpatternId c.parents with
    | .error fault => .error fault
    | .ok true => .ok (c'.appendTerm (.term .forwardReference {}))
    | .ok false => .ok (c'.appendTerm (.term (.backReference subpatternId) {}))

/-- The terms that a quantified term is replaced by. -/
def quantifiedTerms (term : PatternTerm) (min max : UInt32) (greedy : Bool) : List PatternTerm :=
  let type := if greedy then .quantifierGreedy else .quantifierNonGreedy
  if min = 0 then [term.quantify max type]
  else
    let fixed := term.quantify min .quantifierFixedCount
    if min = max then [fixed]
    else
      let count := if max = quantifyInfinite then max else max - min
      [fixed, ((fixed.copyTerm false).quantify count type).setIsCopy]

def quantifyAtom (min max : UInt32) (greedy : Bool) : Except Fault YarrPatternConstructor :=
  if max = 0 then (removeLastTerm c.terms).map c.setTerms
  else
    match lastTerm c.terms with
    | .error fault => .error fault
    -- An assertion that may be left out is dropped, and another one is not repeated.
    | .ok (.parentheses .parentheticalAssertion _ _ _) =>
      if min = 0 then (removeLastTerm c.terms).map c.setTerms else .ok c
    | .ok term => .ok (c.setTerms (c.terms.dropLast ++ quantifiedTerms term min max greedy))

def disjunction : YarrPatternConstructor :=
  { c with level := { complete := c.level.complete ++ [c.level.alternative], alternative := {} } }

/-- A call of the parser. -/
def call : Token → Except Fault YarrPatternConstructor
  | .assertionBOL => .ok c.assertionBOL
  | .assertionEOL => .ok (c.appendTerm (.term .assertionEOL {}))
  | .assertionWordBoundary invert => .ok (c.appendTerm (.term .assertionWordBoundary { invert := invert }))
  | .atomPatternCharacter ch => c.atomPatternCharacter ch
  | .atomBuiltInCharacterClass classID invert => .ok (c.atomBuiltInCharacterClass classID invert)
  | .atomCharacterClassBegin invert => .ok (c.atomCharacterClassBegin invert)
  | .atomCharacterClassAtom ch => c.atomCharacterClassAtom ch
  | .atomCharacterClassRange first last => c.atomCharacterClassRange first last
  | .atomCharacterClassBuiltIn classID invert => c.atomCharacterClassBuiltIn classID invert
  | .atomCharacterClassEnd => .ok c.atomCharacterClassEnd
  | .atomParenthesesSubpatternBegin capture => .ok (c.atomParenthesesSubpatternBegin capture)
  | .atomParentheticalAssertionBegin invert => .ok (c.atomParentheticalAssertionBegin invert)
  | .atomParenthesesEnd => c.atomParenthesesEnd
  | .atomBackReference subpatternId => c.atomBackReference subpatternId
  | .quantifyAtom min max greedy => c.quantifyAtom min max greedy
  | .disjunction => .ok c.disjunction

/-- All calls of a parse. -/
def calls (c : YarrPatternConstructor) : List Token → Except Fault YarrPatternConstructor
  | [] => .ok c
  | token :: tokens =>
    match c.call token with
    | .error fault => .error fault
    | .ok c => calls c tokens

/-- The pattern, when all groups are closed. -/
def finish : YarrPattern := { c.pattern with body := c.level.disjunction }

/-- `parse` with the constructor as its delegate: a fault, or an error of the parser, or the constructor. -/
def parse (patternString : List UChar) (backReferenceLimit : UInt32) :
    Option (Except Fault (Except ErrorCode YarrPatternConstructor)) :=
  (Yarr.parse patternString backReferenceLimit).map fun parsed =>
    (c.calls parsed.tokens).map fun c => parsed.outcome.map fun _ => c

end YarrPatternConstructor

end WebKit.Yarr
