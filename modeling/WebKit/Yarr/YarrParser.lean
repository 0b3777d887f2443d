import WebKit.WTF.WTFString

/-!
# The parser of regular expressions

`parse` reports the tokens of a pattern to a delegate, whose methods return nothing; here they are the constructors of
`Token`, and `parse` returns the tokens in order, with the error code if it stopped at an error. A parse function gets
the characters from `m_index` on and returns those that are left.

`parseTokensFrom` has a bound on the number of turns of its loop. Every turn consumes a character
(`parseToken_consumes`), so the length of the pattern is enough (`parse_isSome`).
-/

namespace WebKit.Yarr

open WebKit.WTF

/-- A character of the source. -/
def ascii (c : Char) : UChar := UInt16.ofNat c.toNat

def quantifyInfinite : UInt32 := 4294967295

inductive BuiltInCharacterClassID
  | digitClassID
  | spaceClassID
  | wordClassID
  | newlineClassID
  deriving DecidableEq

inductive ErrorCode
  | patternTooLarge
  | quantifierOutOfOrder
  | quantifierWithoutAtom
  | quantifierTooLarge
  | missingParentheses
  | parenthesesUnmatched
  | parenthesesTypeInvalid
  | characterClassUnmatched
  | characterClassOutOfOrder
  | escapeUnterminated
  deriving DecidableEq

/-- The calls of the delegate. -/
inductive Token
  | assertionBOL
  | assertionEOL
  | assertionWordBoundary (invert : Bool)
  | atomPatternCharacter (ch : UChar)
  | atomBuiltInCharacterClass (classID : BuiltInCharacterClassID) (invert : Bool)
  | atomCharacterClassBegin (invert : Bool)
  | atomCharacterClassAtom (ch : UChar)
  | atomCharacterClassRange (first last : UChar)
  | atomCharacterClassBuiltIn (classID : BuiltInCharacterClassID) (invert : Bool)
  | atomCharacterClassEnd
  | atomParenthesesSubpatternBegin (capture : Bool)
  | atomParentheticalAssertionBegin (invert : Bool)
  | atomParenthesesEnd
  | atomBackReference (subpatternId : UInt32)
  | quantifyAtom (min max : UInt32) (greedy : Bool)
  | disjunction
  deriving DecidableEq

/-! ## Helper functions -/

def isASCIIDigit (c : UChar) : Bool := decide (ascii '0' ≤ c ∧ c ≤ ascii '9')

def isASCIIOctalDigit (c : UChar) : Bool := decide (ascii '0' ≤ c ∧ c ≤ ascii '7')

def isASCIIAlpha (c : UChar) : Bool :=
  decide (ascii 'a' ≤ c ∧ c ≤ ascii 'z') || decide (ascii 'A' ≤ c ∧ c ≤ ascii 'Z')

def isASCIIAlphanumeric (c : UChar) : Bool := isASCIIDigit c || isASCIIAlpha c

def isASCIIHexDigit (c : UChar) : Bool :=
  isASCIIDigit c || decide (ascii 'a' ≤ c ∧ c ≤ ascii 'f') || decide (ascii 'A' ≤ c ∧ c ≤ ascii 'F')

def digit (c : UChar) : UInt32 := (c - ascii '0').toUInt32

def toASCIIHexValue (c : UChar) : UInt32 :=
  if c < ascii 'A' then digit c
  else if ascii 'a' ≤ c then (c - ascii 'a').toUInt32 + 10
  else (c - ascii 'A').toUInt32 + 10

def peekIsDigit : List UChar → Bool
  | [] => false
  | c :: _ => isASCIIDigit c

/-- The loop of `consumeNumber`, which stops before a digit that makes the number less. -/
def consumeDigits (n : UInt32) : List UChar → UInt32 × List UChar
  | [] => (n, [])
  | c :: rest =>
    if isASCIIDigit c = true ∧ n ≤ n * 10 + digit c then consumeDigits (n * 10 + digit c) rest else (n, c :: rest)

/-- `consumeNumber`, at a digit. -/
def consumeNumber : List UChar → UInt32 × List UChar
  | [] => (0, [])
  | c :: rest => consumeDigits (digit c) rest

/-- The loop of `consumeOctal`. -/
def consumeOctalDigits (n : UInt32) : List UChar → UInt32 × List UChar
  | [] => (n, [])
  | c :: rest =>
    if n < 32 ∧ isASCIIOctalDigit c = true then consumeOctalDigits (n * 8 + digit c) rest else (n, c :: rest)

/-- `consumeOctal`, at an octal digit. -/
def consumeOctal : List UChar → UInt32 × List UChar
  | [] => (0, [])
  | c :: rest => consumeOctalDigits (digit c) rest

def tryConsume (ch : UChar) : List UChar → Bool × List UChar
  | [] => (false, [])
  | c :: rest => if c = ch then (true, rest) else (false, c :: rest)

/-- `tryConsumeHex`, with `none` for -1; the caller keeps the characters when it fails. -/
def tryConsumeHex (n : UInt32) : Nat → List UChar → Option (UInt32 × List UChar)
  | 0, rest => some (n, rest)
  | _ + 1, [] => none
  | count + 1, c :: rest =>
    if isASCIIHexDigit c then tryConsumeHex (n <<< 4 ||| toASCIIHexValue c) count rest else none

/-! ## Escapes -/

/-- What `parseEscape` reports to its delegate. -/
inductive Escape
  | assertionWordBoundary (invert : Bool)
  | atomBuiltInCharacterClass (classID : BuiltInCharacterClassID) (invert : Bool)
  | atomBackReference (subpatternId : UInt32)
  | atomPatternCharacter (ch : UChar)
  deriving DecidableEq

/-- The case of a digit from 1 to 9, which is `c`. -/
def parseDecimalEscape (inCharacterClass : Bool) (backReferenceLimit : UInt32) (c : UChar) (rest : List UChar) :
    Escape × List UChar :=
  let (backReference, afterNumber) := consumeNumber (c :: rest)
  if inCharacterClass = false ∧ backReference ≤ backReferenceLimit then (.atomBackReference backReference, afterNumber)
  -- Not a backreference, and not octal.
  else if ascii '8' ≤ c then (.atomPatternCharacter (ascii '\\'), c :: rest)
  else
    let (n, rest) := consumeOctal (c :: rest)
    (.atomPatternCharacter n.toUInt16, rest)

/-- In a character class numbers and `_` are accepted too. -/
def isControlLetter (inCharacterClass : Bool) (control : UChar) : Bool :=
  if inCharacterClass then isASCIIAlphanumeric control || control = ascii '_' else isASCIIAlpha control

/-- The case of `c`, behind which `rest` follows. -/
def parseControlLetter (inCharacterClass : Bool) : List UChar → Escape × List UChar
  | [] => (.atomPatternCharacter (ascii '\\'), [ascii 'c'])
  | control :: rest =>
    if isControlLetter inCharacterClass control then (.atomPatternCharacter (control &&& 0x1f), rest)
    else (.atomPatternCharacter (ascii '\\'), ascii 'c' :: control :: rest)

def parseHexEscape (letter : UChar) (count : Nat) (rest : List UChar) : Escape × List UChar :=
  match tryConsumeHex 0 count rest with
  | none => (.atomPatternCharacter letter, rest)
  | some (n, rest) => (.atomPatternCharacter n.toUInt16, rest)

/-- The escapes of one letter that is not read further. -/
def letterEscape (inCharacterClass : Bool) (c : UChar) : Option Escape :=
  if c = ascii 'b' then some (if inCharacterClass then .atomPatternCharacter 8 else .assertionWordBoundary false)
  else if c = ascii 'B' then
    some (if inCharacterClass then .atomPatternCharacter (ascii 'B') else .assertionWordBoundary true)
  else if c = ascii 'd' then some (.atomBuiltInCharacterClass .digitClassID false)
  else if c = ascii 's' then some (.atomBuiltInCharacterClass .spaceClassID false)
  else if c = ascii 'w' then some (.atomBuiltInCharacterClass .wordClassID false)
  else if c = ascii 'D' then some (.atomBuiltInCharacterClass .digitClassID true)
  else if c = ascii 'S' then some (.atomBuiltInCharacterClass .spaceClassID true)
  else if c = ascii 'W' then some (.atomBuiltInCharacterClass .wordClassID true)
  else if c = ascii 'f' then some (.atomPatternCharacter 12)
  else if c = ascii 'n' then some (.atomPatternCharacter 10)
  else if c = ascii 'r' then some (.atomPatternCharacter 13)
  else if c = ascii 't' then some (.atomPatternCharacter 9)
  else if c = ascii 'v' then some (.atomPatternCharacter 11)
  else none

/-- `parseEscape`, behind the backslash; `none` is `EscapeUnterminated`. -/
def parseEscape (inCharacterClass : Bool) (backReferenceLimit : UInt32) :
    List UChar → Option (Escape × List UChar)
  | [] => none
  | c :: rest =>
    some <|
      match letterEscape inCharacterClass c with
      | some escape => (escape, rest)
      | none =>
        if ascii '1' ≤ c ∧ c ≤ ascii '9' then parseDecimalEscape inCharacterClass backReferenceLimit c rest
        else if c = ascii '0' then
          (.atomPatternCharacter (consumeOctal (c :: rest)).1.toUInt16, (consumeOctal (c :: rest)).2)
        else if c = ascii 'c' then parseControlLetter inCharacterClass rest
        else if c = ascii 'x' then parseHexEscape c 2 rest
        else if c = ascii 'u' then parseHexEscape c 4 rest
        else (.atomPatternCharacter c, rest)

/-! ## Character classes -/

/-- The state of the `CharacterClassParserDelegate`; `m_character` is part of the states that use it. -/
inductive CharacterClassConstructionState
  | empty
  | cachedCharacter (character : UChar)
  | cachedCharacterHyphen (character : UChar)
  | afterCharacterClass
  | afterCharacterClassHyphen
  deriving DecidableEq

namespace CharacterClassConstructionState

/-- `atomPatternCharacter`: the tokens and the next state, and `none` for `CharacterClassOutOfOrder`. -/
def atomPatternCharacter (ch : UChar) (hyphenIsRange : Bool) :
    CharacterClassConstructionState → Option (List Token × CharacterClassConstructionState)
  | afterCharacterClass =>
    if hyphenIsRange = true ∧ ch = ascii '-' then
      some ([.atomCharacterClassAtom (ascii '-')], afterCharacterClassHyphen)
    else some ([], cachedCharacter ch)
  | empty => some ([], cachedCharacter ch)
  | cachedCharacter character =>
    if hyphenIsRange = true ∧ ch = ascii '-' then some ([], cachedCharacterHyphen character)
    else some ([.atomCharacterClassAtom character], cachedCharacter ch)
  | cachedCharacterHyphen character =>
    if ch < character then none else some ([.atomCharacterClassRange character ch], empty)
  | afterCharacterClassHyphen => some ([.atomCharacterClassAtom ch], empty)

def atomBuiltInCharacterClass (classID : BuiltInCharacterClassID) (invert : Bool) :
    CharacterClassConstructionState → List Token × CharacterClassConstructionState
  | cachedCharacter character =>
    ([.atomCharacterClassAtom character, .atomCharacterClassBuiltIn classID invert], afterCharacterClass)
  | empty => ([.atomCharacterClassBuiltIn classID invert], afterCharacterClass)
  | afterCharacterClass => ([.atomCharacterClassBuiltIn classID invert], afterCharacterClass)
  | cachedCharacterHyphen character =>
    ([.atomCharacterClassAtom character, .atomCharacterClassAtom (ascii '-'),
      .atomCharacterClassBuiltIn classID invert], empty)
  | afterCharacterClassHyphen => ([.atomCharacterClassBuiltIn classID invert], empty)

/-- `end`. -/
def finish : CharacterClassConstructionState → List Token
  | cachedCharacter character => [.atomCharacterClassAtom character, .atomCharacterClassEnd]
  | cachedCharacterHyphen character =>
    [.atomCharacterClassAtom character, .atomCharacterClassAtom (ascii '-'), .atomCharacterClassEnd]
  | _ => [.atomCharacterClassEnd]

/-- `parseEscape` with this delegate, which is never told about assertions and back references. -/
def atomEscape (state : CharacterClassConstructionState) :
    Escape → Option (List Token × CharacterClassConstructionState)
  | .atomPatternCharacter ch => state.atomPatternCharacter ch false
  | .atomBuiltInCharacterClass classID invert => some (state.atomBuiltInCharacterClass classID invert)
  | _ => none

end CharacterClassConstructionState

/-- The outcome of a step of the parser: tokens, and then an error or what is left. -/
structure Parsed (α : Type) where
  tokens : List Token
  outcome : Except ErrorCode α

/-- One turn of the loop of `parseCharacterClass`, which is not at the end of the class. -/
def parseCharacterClassToken (state : CharacterClassConstructionState) (c : UChar) (rest : List UChar) :
    Except ErrorCode (List Token × CharacterClassConstructionState × List UChar) :=
  if c = ascii '\\' then
    match parseEscape true quantifyInfinite rest with
    | none => .error .escapeUnterminated
    | some (escape, rest) =>
      match state.atomEscape escape with
      | none => .error .characterClassOutOfOrder
      | some (tokens, state) => .ok (tokens, state, rest)
  else
    match state.atomPatternCharacter c true with
    | none => .error .characterClassOutOfOrder
    | some (tokens, state) => .ok (tokens, state, rest)

/-- The loop of `parseCharacterClass`, with a bound on its turns. -/
def parseCharacterClassFrom : Nat → CharacterClassConstructionState → List UChar → Option (Parsed (List UChar))
  | _, _, [] => some ⟨[], .error .characterClassUnmatched⟩
  | 0, _, _ :: _ => none
  | turns + 1, state, c :: rest =>
    if c = ascii ']' then some ⟨state.finish, .ok rest⟩
    else
      match parseCharacterClassToken state c rest with
      | .error code => some ⟨[], .error code⟩
      | .ok (tokens, state, rest) =>
        (parseCharacterClassFrom turns state rest).map fun parsed => ⟨tokens ++ parsed.tokens, parsed.outcome⟩

/-- `parseCharacterClass`, behind the bracket. -/
def parseCharacterClass (rest : List UChar) : Option (Parsed (List UChar)) :=
  let (invert, rest) := tryConsume (ascii '^') rest
  (parseCharacterClassFrom rest.length .empty rest).map fun parsed =>
    ⟨.atomCharacterClassBegin invert :: parsed.tokens, parsed.outcome⟩

/-! ## Tokens -/

/-- The variables of the loop of `parseTokens`. -/
structure ParserState where
  parenthesesNestingDepth : Nat
  lastTokenWasAnAtom : Bool
  rest : List UChar

/-- `parseParenthesesBegin`, behind the parenthesis. -/
def parseParenthesesBegin (depth : Nat) (rest : List UChar) : Parsed ParserState :=
  match tryConsume (ascii '?') rest with
  | (false, rest) => ⟨[.atomParenthesesSubpatternBegin true], .ok ⟨depth + 1, false, rest⟩⟩
  | (true, []) => ⟨[], .error .parenthesesTypeInvalid⟩
  | (true, c :: rest) =>
    if c = ascii ':' then ⟨[.atomParenthesesSubpatternBegin false], .ok ⟨depth + 1, false, rest⟩⟩
    else if c = ascii '=' then ⟨[.atomParentheticalAssertionBegin false], .ok ⟨depth + 1, false, rest⟩⟩
    else if c = ascii '!' then ⟨[.atomParentheticalAssertionBegin true], .ok ⟨depth + 1, false, rest⟩⟩
    else ⟨[], .error .parenthesesTypeInvalid⟩

/-- `parseParenthesesEnd`, behind the parenthesis. -/
def parseParenthesesEnd (depth : Nat) (rest : List UChar) : Parsed ParserState :=
  if 0 < depth then ⟨[.atomParenthesesEnd], .ok ⟨depth - 1, true, rest⟩⟩
  else ⟨[], .error .parenthesesUnmatched⟩

def parseQuantifier (depth : Nat) (lastTokenWasAnAtom : Bool) (min max : UInt32) (rest : List UChar) :
    Parsed ParserState :=
  if min = quantifyInfinite then ⟨[], .error .quantifierTooLarge⟩
  else if lastTokenWasAnAtom then
    let (nonGreedy, rest) := tryConsume (ascii '?') rest
    ⟨[.quantifyAtom min max (!nonGreedy)], .ok ⟨depth, false, rest⟩⟩
  else ⟨[], .error .quantifierWithoutAtom⟩

/-- The maximum of a quantifier, behind its minimum. -/
def parseMaximum (min : UInt32) (rest : List UChar) : UInt32 × List UChar :=
  match tryConsume (ascii ',') rest with
  | (false, rest) => (min, rest)
  | (true, rest) => if peekIsDigit rest then consumeNumber rest else (quantifyInfinite, rest)

/-- The numbers of a complete quantifier, behind the brace, and what follows it. -/
def parseBounds (rest : List UChar) : Option (UInt32 × UInt32 × List UChar) :=
  if peekIsDigit rest then
    let (min, rest) := consumeNumber rest
    let (max, rest) := parseMaximum min rest
    match tryConsume (ascii '\x7d') rest with
    | (true, rest) => some (min, max, rest)
    | (false, _) => none
  else none

/-- `parseAtomEscape`: whether the token was an atom. -/
def Escape.token : Escape → Token × Bool
  | .assertionWordBoundary invert => (.assertionWordBoundary invert, false)
  | .atomBuiltInCharacterClass classID invert => (.atomBuiltInCharacterClass classID invert, true)
  | .atomBackReference subpatternId => (.atomBackReference subpatternId, true)
  | .atomPatternCharacter ch => (.atomPatternCharacter ch, true)

/-- The cases of the `switch` in `parseTokens`. -/
inductive Peek
  | bar
  | parenthesesBegin
  | parenthesesEnd
  | caret
  | dollar
  | dot
  | bracket
  | backslash
  | star
  | plus
  | question
  | brace
  | other
  deriving DecidableEq

def peek (c : UChar) : Peek :=
  if c = ascii '|' then .bar
  else if c = ascii '(' then .parenthesesBegin
  else if c = ascii ')' then .parenthesesEnd
  else if c = ascii '^' then .caret
  else if c = ascii '$' then .dollar
  else if c = ascii '.' then .dot
  else if c = ascii '[' then .bracket
  else if c = ascii '\\' then .backslash
  else if c = ascii '*' then .star
  else if c = ascii '+' then .plus
  else if c = ascii '?' then .question
  else if c = ascii '\x7b' then .brace
  else .other

/-- The case of a brace, which is a character like any other unless a complete quantifier follows. -/
def parseBrace (depth : Nat) (lastTokenWasAnAtom : Bool) (c : UChar) (rest : List UChar) : Parsed ParserState :=
  match parseBounds rest with
  | some (min, max, rest) =>
    if min ≤ max then parseQuantifier depth lastTokenWasAnAtom min max rest else ⟨[], .error .quantifierOutOfOrder⟩
  | none => ⟨[.atomPatternCharacter c], .ok ⟨depth, true, rest⟩⟩

/-- One turn of the loop of `parseTokens`, at the character `c`. -/
def parseToken (backReferenceLimit : UInt32) (depth : Nat) (lastTokenWasAnAtom : Bool) (c : UChar)
    (rest : List UChar) : Option (Parsed ParserState) :=
  match peek c with
  | .bar => some ⟨[.disjunction], .ok ⟨depth, false, rest⟩⟩
  | .parenthesesBegin => some (parseParenthesesBegin depth rest)
  | .parenthesesEnd => some (parseParenthesesEnd depth rest)
  | .caret => some ⟨[.assertionBOL], .ok ⟨depth, false, rest⟩⟩
  | .dollar => some ⟨[.assertionEOL], .ok ⟨depth, false, rest⟩⟩
  | .dot => some ⟨[.atomBuiltInCharacterClass .newlineClassID true], .ok ⟨depth, true, rest⟩⟩
  | .bracket =>
    (parseCharacterClass rest).map fun parsed =>
      ⟨parsed.tokens, parsed.outcome.map fun rest => ⟨depth, true, rest⟩⟩
  | .backslash =>
    match parseEscape false backReferenceLimit rest with
    | none => some ⟨[], .error .escapeUnterminated⟩
    | some (escape, rest) => some ⟨[escape.token.1], .ok ⟨depth, escape.token.2, rest⟩⟩
  | .star => some (parseQuantifier depth lastTokenWasAnAtom 0 quantifyInfinite rest)
  | .plus => some (parseQuantifier depth lastTokenWasAnAtom 1 quantifyInfinite rest)
  | .question => some (parseQuantifier depth lastTokenWasAnAtom 0 1 rest)
  | .brace => some (parseBrace depth lastTokenWasAnAtom c rest)
  | .other => some ⟨[.atomPatternCharacter c], .ok ⟨depth, true, rest⟩⟩

/-- The loop of `parseTokens`, with a bound on its turns. -/
def parseTokensFrom (backReferenceLimit : UInt32) : Nat → ParserState → Option (Parsed Unit)
  | _, ⟨depth, _, []⟩ => some ⟨[], if 0 < depth then .error .missingParentheses else .ok ()⟩
  | 0, ⟨_, _, _ :: _⟩ => none
  | turns + 1, ⟨depth, lastTokenWasAnAtom, c :: rest⟩ =>
    match parseToken backReferenceLimit depth lastTokenWasAnAtom c rest with
    | none => none
    | some ⟨tokens, .error code⟩ => some ⟨tokens, .error code⟩
    | some ⟨tokens, .ok state⟩ =>
      (parseTokensFrom backReferenceLimit turns state).map fun parsed => ⟨tokens ++ parsed.tokens, parsed.outcome⟩

def MAX_PATTERN_SIZE : Nat := 1024 * 1024

/-- `parse`. -/
def parse (pattern : List UChar) (backReferenceLimit : UInt32) : Option (Parsed Unit) :=
  if pattern.length > MAX_PATTERN_SIZE then some ⟨[], .error .patternTooLarge⟩
  else parseTokensFrom backReferenceLimit pattern.length ⟨0, false, pattern⟩

/-! ## What is left is a suffix -/

theorem consumeDigits_suffix (n : UInt32) (rest : List UChar) : (consumeDigits n rest).2 <:+ rest := by
  induction rest generalizing n with
  | nil => exact List.suffix_refl _
  | cons c rest ih =>
    rw [consumeDigits]
    split
    · exact (ih _).trans (List.suffix_cons c rest)
    · exact List.suffix_refl _

theorem consumeNumber_suffix (rest : List UChar) : (consumeNumber rest).2 <:+ rest.tail := by
  cases rest with
  | nil => exact List.suffix_refl _
  | cons c rest => exact consumeDigits_suffix _ rest

theorem consumeOctalDigits_suffix (n : UInt32) (rest : List UChar) : (consumeOctalDigits n rest).2 <:+ rest := by
  induction rest generalizing n with
  | nil => exact List.suffix_refl _
  | cons c rest ih =>
    rw [consumeOctalDigits]
    split
    · exact (ih _).trans (List.suffix_cons c rest)
    · exact List.suffix_refl _

theorem consumeOctal_suffix (rest : List UChar) : (consumeOctal rest).2 <:+ rest.tail := by
  cases rest with
  | nil => exact List.suffix_refl _
  | cons c rest => exact consumeOctalDigits_suffix _ rest

theorem tryConsume_suffix (ch : UChar) (rest : List UChar) : (tryConsume ch rest).2 <:+ rest := by
  cases rest with
  | nil => exact List.suffix_refl _
  | cons c rest =>
    rw [tryConsume]
    split
    · exact List.suffix_cons c rest
    · exact List.suffix_refl _

theorem tryConsumeHex_suffix {count : Nat} {n m : UInt32} {rest rest' : List UChar}
    (h : tryConsumeHex n count rest = some (m, rest')) : rest' <:+ rest := by
  induction count generalizing n rest with
  | zero =>
    rw [tryConsumeHex, Option.some.injEq, Prod.mk.injEq] at h
    exact h.2 ▸ List.suffix_refl _
  | succ count ih =>
    cases rest with
    | nil => exact absurd h (by simp [tryConsumeHex])
    | cons c rest =>
      rw [tryConsumeHex] at h
      split at h
      · exact (ih h).trans (List.suffix_cons c rest)
      · exact absurd h (by simp)

theorem parseDecimalEscape_suffix (inCharacterClass : Bool) (limit : UInt32) (c : UChar) (rest : List UChar) :
    (parseDecimalEscape inCharacterClass limit c rest).2 <:+ c :: rest := by
  rw [parseDecimalEscape]
  simp only
  split
  · exact (consumeNumber_suffix (c :: rest)).trans (List.suffix_cons c rest)
  · split
    · exact List.suffix_refl _
    · exact (consumeOctal_suffix (c :: rest)).trans (List.suffix_cons c rest)

theorem parseControlLetter_suffix (inCharacterClass : Bool) (rest : List UChar) :
    (parseControlLetter inCharacterClass rest).2 <:+ ascii 'c' :: rest := by
  cases rest with
  | nil => exact List.suffix_refl _
  | cons control rest =>
    rw [parseControlLetter]
    split
    · exact (List.suffix_cons control rest).trans (List.suffix_cons _ _)
    · exact List.suffix_refl _

theorem parseHexEscape_suffix (letter : UChar) (count : Nat) (rest : List UChar) :
    (parseHexEscape letter count rest).2 <:+ rest := by
  rw [parseHexEscape]
  split
  · exact List.suffix_refl _
  · exact tryConsumeHex_suffix ‹_›

theorem parseEscape_suffix {inCharacterClass : Bool} {limit : UInt32} {rest rest' : List UChar} {escape : Escape}
    (h : parseEscape inCharacterClass limit rest = some (escape, rest')) : rest' <:+ rest := by
  cases rest with
  | nil => exact absurd h (by simp [parseEscape])
  | cons c rest =>
    have htail := List.suffix_cons c rest
    rw [parseEscape, Option.some.injEq] at h
    have hrest : rest' = _ := (congrArg Prod.snd h).symm
    rw [hrest]
    split
    · exact htail
    · split
      · exact parseDecimalEscape_suffix inCharacterClass limit c rest
      · split
        · exact (consumeOctal_suffix (c :: rest)).trans htail
        · split
          · subst c
            exact parseControlLetter_suffix inCharacterClass rest
          · split
            · exact (parseHexEscape_suffix c 2 rest).trans htail
            · split
              · exact (parseHexEscape_suffix c 4 rest).trans htail
              · exact htail

theorem parseCharacterClassToken_suffix {state state' : CharacterClassConstructionState} {c : UChar}
    {rest rest' : List UChar} {tokens : List Token}
    (h : parseCharacterClassToken state c rest = .ok (tokens, state', rest')) : rest' <:+ rest := by
  rw [parseCharacterClassToken] at h
  split at h
  · cases hescape : parseEscape true quantifyInfinite rest with
    | none => simp [hescape] at h
    | some result =>
      obtain ⟨escape, left⟩ := result
      have hsuffix := parseEscape_suffix hescape
      simp only [hescape] at h
      split at h
      · exact absurd h (by simp)
      · cases h
        exact hsuffix
  · split at h
    · exact absurd h (by simp)
    · cases h
      exact List.suffix_refl _

/-- The bound on the turns of `parseCharacterClass` is enough. -/
theorem parseCharacterClassFrom_isSome {turns : Nat} {state : CharacterClassConstructionState} {rest : List UChar}
    (h : rest.length ≤ turns) : (parseCharacterClassFrom turns state rest).isSome = true := by
  induction turns generalizing state rest with
  | zero =>
    rw [List.length_eq_zero_iff.mp (Nat.le_zero.mp h)]
    rfl
  | succ turns ih =>
    cases rest with
    | nil => rfl
    | cons c rest =>
      rw [parseCharacterClassFrom]
      split
      · rfl
      · split
        · rfl
        · rename_i hok
          have hle := (parseCharacterClassToken_suffix hok).length_le
          rw [Option.isSome_map]
          rw [List.length_cons] at h
          exact ih (by omega)

theorem parseCharacterClassFrom_suffix {turns : Nat} {state : CharacterClassConstructionState}
    {rest rest' : List UChar} {tokens : List Token}
    (h : parseCharacterClassFrom turns state rest = some ⟨tokens, .ok rest'⟩) : rest' <:+ rest := by
  induction turns generalizing state rest tokens with
  | zero => cases rest <;> simp [parseCharacterClassFrom] at h
  | succ turns ih =>
    cases rest with
    | nil => simp [parseCharacterClassFrom] at h
    | cons c rest =>
      have htail := List.suffix_cons c rest
      rw [parseCharacterClassFrom] at h
      split at h
      · cases h
        exact htail
      · split at h
        · exact absurd h (by simp)
        · rename_i hok
          rw [Option.map_eq_some_iff] at h
          obtain ⟨parsed, hparsed, heq⟩ := h
          cases parsed
          cases heq
          exact ((ih hparsed).trans (parseCharacterClassToken_suffix hok)).trans htail

theorem parseCharacterClass_isSome (rest : List UChar) : (parseCharacterClass rest).isSome = true := by
  rw [parseCharacterClass, Option.isSome_map]
  exact parseCharacterClassFrom_isSome (Nat.le_refl _)

theorem parseCharacterClass_suffix {rest rest' : List UChar} {tokens : List Token}
    (h : parseCharacterClass rest = some ⟨tokens, .ok rest'⟩) : rest' <:+ rest := by
  rw [parseCharacterClass, Option.map_eq_some_iff] at h
  obtain ⟨parsed, hparsed, heq⟩ := h
  cases parsed
  cases heq
  exact (parseCharacterClassFrom_suffix hparsed).trans (tryConsume_suffix _ rest)

theorem parseMaximum_suffix (min : UInt32) (rest : List UChar) : (parseMaximum min rest).2 <:+ rest := by
  have hcomma := tryConsume_suffix (ascii ',') rest
  rw [parseMaximum]
  split
  · rename_i heq
    rw [heq] at hcomma
    exact hcomma
  · rename_i left heq
    rw [heq] at hcomma
    split
    · exact ((consumeNumber_suffix left).trans (List.tail_suffix left)).trans hcomma
    · exact hcomma

theorem parseBounds_suffix {rest rest' : List UChar} {min max : UInt32} (h : parseBounds rest = some (min, max, rest')) :
    rest' <:+ rest := by
  rw [parseBounds] at h
  split at h
  · have hmin := (consumeNumber_suffix rest).trans (List.tail_suffix rest)
    have hmax := parseMaximum_suffix (consumeNumber rest).1 (consumeNumber rest).2
    have hbrace := tryConsume_suffix (ascii '\x7d') (parseMaximum (consumeNumber rest).1 (consumeNumber rest).2).2
    simp only at h
    split at h
    · rename_i heq
      cases h
      rw [heq] at hbrace
      exact (hbrace.trans hmax).trans hmin
    · exact absurd h (by simp)
  · exact absurd h (by simp)

/-! ## Turns of the loop -/

/-- A token inside a character class; a range is in order, and there is no class of the newlines in a class. -/
def Token.isClassItem : Token → Bool
  | atomCharacterClassBegin _ => true
  | atomCharacterClassAtom _ => true
  | atomCharacterClassRange first last => decide (first ≤ last)
  | atomCharacterClassBuiltIn classID _ => decide (classID ≠ .newlineClassID)
  | _ => false

/-- The tokens of one turn of `parseTokens`, with the nesting depth and `lastTokenWasAnAtom` before and after it. -/
inductive Turn : Nat → Bool → List Token → Nat → Bool → Prop
  | disjunction {depth atom} : Turn depth atom [.disjunction] depth false
  | assertionBOL {depth atom} : Turn depth atom [.assertionBOL] depth false
  | assertionEOL {depth atom} : Turn depth atom [.assertionEOL] depth false
  | assertionWordBoundary {depth atom} (invert) : Turn depth atom [.assertionWordBoundary invert] depth false
  | subpatternBegin {depth atom} (capture) :
    Turn depth atom [.atomParenthesesSubpatternBegin capture] (depth + 1) false
  | assertionBegin {depth atom} (invert) :
    Turn depth atom [.atomParentheticalAssertionBegin invert] (depth + 1) false
  | parenthesesEnd {depth atom} : Turn (depth + 1) atom [.atomParenthesesEnd] depth true
  | patternCharacter {depth atom} (ch) : Turn depth atom [.atomPatternCharacter ch] depth true
  | builtInCharacterClass {depth atom} (classID invert) :
    Turn depth atom [.atomBuiltInCharacterClass classID invert] depth true
  | backReference {depth atom} (subpatternId) : Turn depth atom [.atomBackReference subpatternId] depth true
  | characterClass {depth atom} (items) (h : ∀ token ∈ items, Token.isClassItem token = true) :
    Turn depth atom (items ++ [.atomCharacterClassEnd]) depth true
  | quantifier {depth} (min max greedy) (h : min ≤ max) : Turn depth true [.quantifyAtom min max greedy] depth false

/-- What a step of the parser may yield: items of a class and an error, or a turn that leaves a suffix. -/
def Parsed.IsTurn (parsed : Parsed ParserState) (depth : Nat) (lastTokenWasAnAtom : Bool) (rest : List UChar) : Prop :=
  match parsed.outcome with
  | .error _ => ∀ token ∈ parsed.tokens, token.isClassItem = true
  | .ok state =>
    Turn depth lastTokenWasAnAtom parsed.tokens state.parenthesesNestingDepth state.lastTokenWasAnAtom ∧
      state.rest <:+ rest

theorem parseParenthesesBegin_isTurn (depth : Nat) (lastTokenWasAnAtom : Bool) (rest : List UChar) :
    (parseParenthesesBegin depth rest).IsTurn depth lastTokenWasAnAtom rest := by
  have hsuffix := tryConsume_suffix (ascii '?') rest
  rw [parseParenthesesBegin]
  split
  · rename_i heq
    rw [heq] at hsuffix
    exact ⟨.subpatternBegin true, hsuffix⟩
  · exact fun token hmem => absurd hmem List.not_mem_nil
  · rename_i c left heq
    rw [heq] at hsuffix
    have hleft := (List.suffix_cons c left).trans hsuffix
    split
    · exact ⟨.subpatternBegin false, hleft⟩
    · split
      · exact ⟨.assertionBegin false, hleft⟩
      · split
        · exact ⟨.assertionBegin true, hleft⟩
        · exact fun token hmem => absurd hmem List.not_mem_nil

theorem parseParenthesesEnd_isTurn (depth : Nat) (lastTokenWasAnAtom : Bool) (rest : List UChar) :
    (parseParenthesesEnd depth rest).IsTurn depth lastTokenWasAnAtom rest := by
  rw [parseParenthesesEnd]
  cases depth with
  | zero => exact fun token hmem => absurd hmem List.not_mem_nil
  | succ depth => exact ⟨.parenthesesEnd, List.suffix_refl rest⟩

theorem parseQuantifier_isTurn (depth : Nat) (lastTokenWasAnAtom : Bool) {min max : UInt32} (h : min ≤ max)
    (rest : List UChar) :
    (parseQuantifier depth lastTokenWasAnAtom min max rest).IsTurn depth lastTokenWasAnAtom rest := by
  rw [parseQuantifier]
  split
  · exact fun token hmem => absurd hmem List.not_mem_nil
  · cases lastTokenWasAnAtom with
    | false => exact fun token hmem => absurd hmem List.not_mem_nil
    | true => exact ⟨.quantifier min max _ h, tryConsume_suffix (ascii '?') rest⟩

theorem Escape.isTurn (escape : Escape) (depth : Nat) (lastTokenWasAnAtom : Bool) :
    Turn depth lastTokenWasAnAtom [escape.token.1] depth escape.token.2 := by
  cases escape with
  | assertionWordBoundary invert => exact .assertionWordBoundary invert
  | atomBuiltInCharacterClass classID invert => exact .builtInCharacterClass classID invert
  | atomBackReference subpatternId => exact .backReference subpatternId
  | atomPatternCharacter ch => exact .patternCharacter ch

/-! ### The tokens of a character class -/

/-- Items, and the end of the class unless there is an error. -/
def IsCharacterClass (parsed : Parsed (List UChar)) : Prop :=
  match parsed.outcome with
  | .error _ => ∀ token ∈ parsed.tokens, token.isClassItem = true
  | .ok _ => ∃ items : List Token, (∀ token ∈ items, token.isClassItem = true) ∧
    parsed.tokens = items ++ [.atomCharacterClassEnd]

theorem IsCharacterClass.append {parsed : Parsed (List UChar)} (h : IsCharacterClass parsed) {items : List Token}
    (hitems : ∀ token ∈ items, token.isClassItem = true) :
    IsCharacterClass ⟨items ++ parsed.tokens, parsed.outcome⟩ := by
  obtain ⟨tokens, outcome⟩ := parsed
  cases outcome with
  | error code =>
    intro token hmem
    rcases List.mem_append.mp hmem with hmem | hmem
    · exact hitems token hmem
    · exact h token hmem
  | ok rest =>
    obtain ⟨more, hmore, heq⟩ := h
    refine ⟨items ++ more, ?_, ?_⟩
    · intro token hmem
      rcases List.mem_append.mp hmem with hmem | hmem
      · exact hitems token hmem
      · exact hmore token hmem
    · rw [List.append_assoc, ← heq]

theorem CharacterClassConstructionState.finish_eq (state : CharacterClassConstructionState) :
    ∃ items : List Token, (∀ token ∈ items, token.isClassItem = true) ∧
      state.finish = items ++ [.atomCharacterClassEnd] := by
  cases state with
  | cachedCharacter character => exact ⟨[.atomCharacterClassAtom character], by simp [Token.isClassItem], rfl⟩
  | cachedCharacterHyphen character =>
    exact ⟨[.atomCharacterClassAtom character, .atomCharacterClassAtom (ascii '-')], by simp [Token.isClassItem], rfl⟩
  | _ => exact ⟨[], by simp, rfl⟩

theorem CharacterClassConstructionState.atomPatternCharacter_items {state state' : CharacterClassConstructionState}
    {ch : UChar} {hyphenIsRange : Bool} {tokens : List Token}
    (h : state.atomPatternCharacter ch hyphenIsRange = some (tokens, state')) :
    ∀ token ∈ tokens, token.isClassItem = true := by
  cases state with
  | empty =>
    cases h
    exact fun token hmem => absurd hmem List.not_mem_nil
  | cachedCharacter character =>
    rw [atomPatternCharacter] at h
    split at h <;> (cases h; simp [Token.isClassItem])
  | cachedCharacterHyphen character =>
    rw [atomPatternCharacter] at h
    split at h
    · exact absurd h (by simp)
    · rename_i hlt
      cases h
      have hle := UInt16.not_lt.mp hlt
      simp [Token.isClassItem, hle]
  | afterCharacterClass =>
    rw [atomPatternCharacter] at h
    split at h <;> (cases h; simp [Token.isClassItem])
  | afterCharacterClassHyphen =>
    cases h
    simp [Token.isClassItem]

theorem letterEscape_ne_newline (inCharacterClass : Bool) (c : UChar) (invert : Bool) :
    letterEscape inCharacterClass c ≠ some (.atomBuiltInCharacterClass .newlineClassID invert) := by
  have hif : ∀ (p : Prop) [Decidable p] (a b x : Option Escape), a ≠ x → b ≠ x → (if p then a else b) ≠ x := by
    intro p _ a b x ha hb
    split <;> assumption
  rw [letterEscape]
  cases inCharacterClass <;> (repeat' apply hif) <;> simp

theorem parseDecimalEscape_ne_newline (inCharacterClass : Bool) (limit : UInt32) (c : UChar) (rest : List UChar)
    (invert : Bool) :
    (parseDecimalEscape inCharacterClass limit c rest).1 ≠ .atomBuiltInCharacterClass .newlineClassID invert := by
  rw [parseDecimalEscape]
  simp only
  split
  · simp
  · split <;> simp

theorem parseControlLetter_ne_newline (inCharacterClass : Bool) (rest : List UChar) (invert : Bool) :
    (parseControlLetter inCharacterClass rest).1 ≠ .atomBuiltInCharacterClass .newlineClassID invert := by
  cases rest with
  | nil => simp [parseControlLetter]
  | cons control rest =>
    rw [parseControlLetter]
    split <;> simp

theorem parseHexEscape_ne_newline (letter : UChar) (count : Nat) (rest : List UChar) (invert : Bool) :
    (parseHexEscape letter count rest).1 ≠ .atomBuiltInCharacterClass .newlineClassID invert := by
  rw [parseHexEscape]
  split <;> simp

theorem parseEscape_ne_newline {inCharacterClass : Bool} {limit : UInt32} {rest rest' : List UChar} {escape : Escape}
    (h : parseEscape inCharacterClass limit rest = some (escape, rest')) (invert : Bool) :
    escape ≠ .atomBuiltInCharacterClass .newlineClassID invert := by
  cases rest with
  | nil => exact absurd h (by simp [parseEscape])
  | cons c rest =>
    rw [parseEscape, Option.some.injEq] at h
    obtain rfl : _ = escape := congrArg Prod.fst h
    split
    · rename_i hletter
      intro heq
      simp only at heq
      exact letterEscape_ne_newline inCharacterClass c invert (heq ▸ hletter)
    · split
      · exact parseDecimalEscape_ne_newline inCharacterClass limit c rest invert
      · split
        · simp
        · split
          · exact parseControlLetter_ne_newline inCharacterClass rest invert
          · split
            · exact parseHexEscape_ne_newline c 2 rest invert
            · split
              · exact parseHexEscape_ne_newline c 4 rest invert
              · simp

theorem parseCharacterClassToken_items {state state' : CharacterClassConstructionState} {c : UChar}
    {rest rest' : List UChar} {tokens : List Token}
    (h : parseCharacterClassToken state c rest = .ok (tokens, state', rest')) :
    ∀ token ∈ tokens, token.isClassItem = true := by
  rw [parseCharacterClassToken] at h
  split at h
  · split at h
    · exact absurd h (by simp)
    · rename_i escape left hparsed
      have hnewline := parseEscape_ne_newline hparsed
      split at h
      · exact absurd h (by simp)
      · rename_i hescape
        cases h
        cases escape with
        | atomPatternCharacter ch => exact CharacterClassConstructionState.atomPatternCharacter_items hescape
        | atomBuiltInCharacterClass classID invert =>
          have hclassID : classID ≠ .newlineClassID := by
            rintro rfl
            exact hnewline invert rfl
          cases state <;> (cases hescape; simp [Token.isClassItem, hclassID])
        | _ => exact absurd hescape (by simp [CharacterClassConstructionState.atomEscape])
  · split at h
    · exact absurd h (by simp)
    · rename_i hatom
      cases h
      exact CharacterClassConstructionState.atomPatternCharacter_items hatom

theorem parseCharacterClassFrom_isCharacterClass {turns : Nat} {state : CharacterClassConstructionState}
    {rest : List UChar} {parsed : Parsed (List UChar)} (h : parseCharacterClassFrom turns state rest = some parsed) :
    IsCharacterClass parsed := by
  have hnone : ∀ token ∈ ([] : List Token), token.isClassItem = true :=
    fun token hmem => absurd hmem List.not_mem_nil
  induction turns generalizing state rest parsed with
  | zero =>
    cases rest with
    | nil =>
      cases h
      exact hnone
    | cons c rest => exact absurd h (by simp [parseCharacterClassFrom])
  | succ turns ih =>
    cases rest with
    | nil =>
      cases h
      exact hnone
    | cons c rest =>
      rw [parseCharacterClassFrom] at h
      split at h
      · cases h
        exact state.finish_eq
      · split at h
        · cases h
          exact hnone
        · rename_i hok
          rw [Option.map_eq_some_iff] at h
          obtain ⟨more, hmore, rfl⟩ := h
          exact (ih hmore).append (parseCharacterClassToken_items hok)

theorem parseCharacterClass_isCharacterClass {rest : List UChar} {parsed : Parsed (List UChar)}
    (h : parseCharacterClass rest = some parsed) : IsCharacterClass parsed := by
  rw [parseCharacterClass, Option.map_eq_some_iff] at h
  obtain ⟨more, hmore, rfl⟩ := h
  have hbegin : ∀ token ∈ [Token.atomCharacterClassBegin (tryConsume (ascii '^') rest).1],
      token.isClassItem = true := by simp [Token.isClassItem]
  exact (parseCharacterClassFrom_isCharacterClass hmore).append hbegin

/-! ### All turns -/

theorem parseBrace_isTurn (depth : Nat) (lastTokenWasAnAtom : Bool) (c : UChar) (rest : List UChar) :
    (parseBrace depth lastTokenWasAnAtom c rest).IsTurn depth lastTokenWasAnAtom rest := by
  rw [parseBrace]
  split
  · rename_i min max left hbounds
    split
    · rename_i hle
      have hturn := parseQuantifier_isTurn depth lastTokenWasAnAtom hle left
      rw [Parsed.IsTurn] at hturn ⊢
      split
      · rename_i houtcome
        rw [houtcome] at hturn
        exact hturn
      · rename_i houtcome
        rw [houtcome] at hturn
        exact ⟨hturn.1, hturn.2.trans (parseBounds_suffix hbounds)⟩
    · exact fun token hmem => absurd hmem List.not_mem_nil
  · exact ⟨.patternCharacter c, List.suffix_refl rest⟩

/-- **Each turn of `parseTokens`** reports the tokens of a `Turn` and leaves a suffix. -/
theorem parseToken_isTurn {limit : UInt32} {depth : Nat} {lastTokenWasAnAtom : Bool} {c : UChar} {rest : List UChar}
    {parsed : Parsed ParserState} (h : parseToken limit depth lastTokenWasAnAtom c rest = some parsed) :
    parsed.IsTurn depth lastTokenWasAnAtom rest := by
  have hrest := List.suffix_refl rest
  cases hpeek : peek c with
  | bar =>
    simp only [parseToken, hpeek] at h
    cases h
    exact ⟨.disjunction, hrest⟩
  | parenthesesBegin =>
    simp only [parseToken, hpeek] at h
    cases h
    exact parseParenthesesBegin_isTurn depth lastTokenWasAnAtom rest
  | parenthesesEnd =>
    simp only [parseToken, hpeek] at h
    cases h
    exact parseParenthesesEnd_isTurn depth lastTokenWasAnAtom rest
  | caret =>
    simp only [parseToken, hpeek] at h
    cases h
    exact ⟨.assertionBOL, hrest⟩
  | dollar =>
    simp only [parseToken, hpeek] at h
    cases h
    exact ⟨.assertionEOL, hrest⟩
  | dot =>
    simp only [parseToken, hpeek] at h
    cases h
    exact ⟨.builtInCharacterClass .newlineClassID true, hrest⟩
  | bracket =>
    simp only [parseToken, hpeek, Option.map_eq_some_iff] at h
    obtain ⟨⟨tokens, outcome⟩, hclass, rfl⟩ := h
    have hitems := parseCharacterClass_isCharacterClass hclass
    cases outcome with
    | error code => exact hitems
    | ok left =>
      obtain ⟨items, hall, rfl⟩ := hitems
      exact ⟨.characterClass items hall, parseCharacterClass_suffix hclass⟩
  | backslash =>
    simp only [parseToken, hpeek] at h
    split at h
    · cases h
      exact fun token hmem => absurd hmem List.not_mem_nil
    · rename_i escape left hescape
      cases h
      exact ⟨escape.isTurn depth lastTokenWasAnAtom, parseEscape_suffix hescape⟩
  | star =>
    simp only [parseToken, hpeek] at h
    cases h
    exact parseQuantifier_isTurn depth lastTokenWasAnAtom (by decide) rest
  | plus =>
    simp only [parseToken, hpeek] at h
    cases h
    exact parseQuantifier_isTurn depth lastTokenWasAnAtom (by decide) rest
  | question =>
    simp only [parseToken, hpeek] at h
    cases h
    exact parseQuantifier_isTurn depth lastTokenWasAnAtom (by decide) rest
  | brace =>
    simp only [parseToken, hpeek] at h
    cases h
    exact parseBrace_isTurn depth lastTokenWasAnAtom c rest
  | other =>
    simp only [parseToken, hpeek] at h
    cases h
    exact ⟨.patternCharacter c, hrest⟩

theorem parseToken_isSome (limit : UInt32) (depth : Nat) (lastTokenWasAnAtom : Bool) (c : UChar)
    (rest : List UChar) : (parseToken limit depth lastTokenWasAnAtom c rest).isSome = true := by
  have hclass := parseCharacterClass_isSome rest
  rw [parseToken]
  cases peek c with
  | bracket =>
    rw [Option.isSome_map]
    exact hclass
  | backslash => cases parseEscape false limit rest <;> rfl
  | _ => rfl

/-- The bound on the turns of `parseTokens` is enough. -/
theorem parseTokensFrom_isSome {limit : UInt32} {turns : Nat} {state : ParserState} (h : state.rest.length ≤ turns) :
    (parseTokensFrom limit turns state).isSome = true := by
  induction turns generalizing state with
  | zero =>
    obtain ⟨depth, atom, rest⟩ := state
    obtain rfl := List.length_eq_zero_iff.mp (Nat.le_zero.mp h)
    rfl
  | succ turns ih =>
    obtain ⟨depth, atom, rest⟩ := state
    cases rest with
    | nil => rfl
    | cons c rest =>
      obtain ⟨⟨tokens, outcome⟩, hparsed⟩ := Option.isSome_iff_exists.mp (parseToken_isSome limit depth atom c rest)
      have hturn := parseToken_isTurn hparsed
      cases outcome with
      | error code => simp only [parseTokensFrom, hparsed, Option.isSome_some]
      | ok state =>
        have hle := hturn.2.length_le
        have hturns : state.rest.length ≤ turns := Nat.le_trans hle (Nat.le_of_succ_le_succ h)
        simp only [parseTokensFrom, hparsed, Option.isSome_map]
        exact ih hturns

/-- **The parser terminates.** -/
theorem parse_isSome (pattern : List UChar) (limit : UInt32) : (parse pattern limit).isSome = true := by
  rw [parse]
  split
  · rfl
  · exact parseTokensFrom_isSome (Nat.le_refl _)

end WebKit.Yarr
