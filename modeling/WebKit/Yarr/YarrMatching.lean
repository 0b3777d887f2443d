import WebKit.Yarr.CharacterClassAdds
import WebKit.Yarr.YarrPattern

/-!
# What a pattern matches

The semantics of ES5.1 (15.10.2) for the disjunctions of a pattern. A `Matcher` of the standard gets a state and a
continuation; here it is the relation between the state that it gets and the states that it may pass on, in any order.
So a lookahead may go on with the captures of any match, where the standard takes those of the first one: the relation
has all matches of the standard.
-/

namespace WebKit.Yarr

open WebKit.WTF

/-- What the matchers look at besides the pattern: `canonicalize` is `Canonicalize`, for the flag `i`. -/
structure MatchInput where
  input : List UChar
  multiline : Bool
  canonicalize : UChar → UChar

/-- A `State`: where the match ends so far, and the captures. -/
structure MatchState where
  endIndex : Nat
  captures : UInt32 → Option (Nat × Nat)

/-- `n` steps of a relation. -/
inductive Repeats {α : Type} (R : α → α → Prop) : Nat → α → α → Prop
  | zero (x : α) : Repeats R 0 x x
  | succ {n : Nat} {x y z : α} (step : R x y) (rest : Repeats R n y z) : Repeats R (n + 1) x z

namespace MatchState

/-- What each turn of a group begins with: the captures inside are undefined. -/
def resetCaptures (ids : Parentheses) (x : MatchState) : MatchState :=
  { x with captures := fun id => if ids.subpatternId ≤ id ∧ id ≤ ids.lastSubpatternId then none else x.captures id }

/-- The capture of a group that began at `begin`. -/
def setCapture (subpatternId : UInt32) (begin : Nat) (x : MatchState) : MatchState :=
  { x with captures := fun id => if id = subpatternId then some (begin, x.endIndex) else x.captures id }

end MatchState

/-- `RepeatMatcher`, for a term that is fixed or has no minimum: an optional turn must not be empty. -/
def Quantified (fields : TermFields) (R : MatchState → MatchState → Prop) (x y : MatchState) : Prop :=
  if fields.quantityType = .quantifierFixedCount then Repeats R fields.quantityCount.toNat x y
  else ∃ n, (fields.quantityCount = quantifyInfinite ∨ n ≤ fields.quantityCount.toNat) ∧
    Repeats (fun x y => R x y ∧ y.endIndex ≠ x.endIndex) n x y

namespace MatchInput

variable (c : MatchInput)

/-- `CharacterSetMatcher`. -/
def Consumes (A : UChar → Prop) (x y : MatchState) : Prop :=
  ∃ ch, c.input[x.endIndex]? = some ch ∧ A ch ∧ y = { x with endIndex := x.endIndex + 1 }

/-- The character is equal to one of the class, or to none if the class is inverted. -/
def InClass (characterClass : CharacterClass) (invert : Bool) (ch : UChar) : Prop :=
  (∃ a, characterClass.Accepts a ∧ c.canonicalize a = c.canonicalize ch) ↔ invert = false

/-- The character before or at `index` is in a class that the standard knows. -/
def HasAt (classID : BuiltInCharacterClassID) (index : Nat) : Prop :=
  ∃ ch, c.input[index]? = some ch ∧ classID.characterClass.Accepts ch

def AtBOL (e : Nat) : Prop := e = 0 ∨ c.multiline = true ∧ c.HasAt .newlineClassID (e - 1)

def AtEOL (e : Nat) : Prop := e = c.input.length ∨ c.multiline = true ∧ c.HasAt .newlineClassID e

def AtWordBoundary (e : Nat) : Prop := ¬((e ≠ 0 ∧ c.HasAt .wordClassID (e - 1)) ↔ c.HasAt .wordClassID e)

/-- A back reference to a capture: an undefined one matches nothing. -/
def Refers : Option (Nat × Nat) → MatchState → MatchState → Prop
  | none, x, y => y = x
  | some (s, e), x, y =>
    x.endIndex + (e - s) ≤ c.input.length ∧
      (∀ i < e - s, (c.input[s + i]?).map c.canonicalize = (c.input[x.endIndex + i]?).map c.canonicalize) ∧
      y = { x with endIndex := x.endIndex + (e - s) }

/-- Terms without parentheses. Of the two dot stars of an enclosure the second one is a part of the alternative; the
first one stands before the match of the alternative. -/
def TermMatches (fields : TermFields) : TermType → MatchState → MatchState → Prop
  | .assertionBOL, x, y => y = x ∧ c.AtBOL x.endIndex
  | .assertionEOL, x, y => y = x ∧ c.AtEOL x.endIndex
  | .assertionWordBoundary, x, y => y = x ∧ (c.AtWordBoundary x.endIndex ↔ fields.invert = false)
  | .patternCharacter ch, x, y => Quantified fields (c.Consumes fun a => c.canonicalize a = c.canonicalize ch) x y
  | .characterClass pointer, x, y => Quantified fields (c.Consumes (c.InClass pointer.characterClass fields.invert)) x y
  | .backReference subpatternId, x, y => Quantified fields (fun x y => c.Refers (x.captures subpatternId) x y) x y
  | .forwardReference, x, y => y = x
  | .dotStarEnclosure _ eolAnchor, x, y =>
    (∃ n, Repeats (c.Consumes (c.InClass newlineCreate true)) n x y) ∧ (eolAnchor = true → c.AtEOL y.endIndex)

end MatchInput

/-! ## Disjunctions -/

mutual

@[grind =] def PatternDisjunction.Matches (c : MatchInput) : PatternDisjunction → MatchState → MatchState → Prop
  | ⟨alternatives, _, _, _⟩, x, y => AlternativesMatch c alternatives x y

@[grind =] def AlternativesMatch (c : MatchInput) : List PatternAlternative → MatchState → MatchState → Prop
  | [], _, _ => False
  | ⟨terms, _, _, _, _, _⟩ :: rest, x, y => TermsMatch c terms x y ∨ AlternativesMatch c rest x y

@[grind =] def TermsMatch (c : MatchInput) : List PatternTerm → MatchState → MatchState → Prop
  | [], x, y => y = x
  | term :: rest, x, z => ∃ y, term.Matches c x y ∧ TermsMatch c rest y z

@[grind =] def PatternTerm.Matches (c : MatchInput) : PatternTerm → MatchState → MatchState → Prop
  | .term type fields, x, y => c.TermMatches fields type x y
  | .parentheses .parenthesesSubpattern disjunction ids fields, x, y =>
    Quantified fields
      (fun x y => ∃ z, disjunction.Matches c (x.resetCaptures ids) z ∧
        y = if fields.capture = true then z.setCapture ids.subpatternId x.endIndex else z) x y
  | .parentheses .parentheticalAssertion disjunction _ fields, x, y =>
    if fields.invert = true then y = x ∧ ¬∃ z, disjunction.Matches c x z
    else ∃ z, disjunction.Matches c x z ∧ y = { z with endIndex := x.endIndex }

end

end WebKit.Yarr
