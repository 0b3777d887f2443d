import WebKit.Yarr.CharacterClassRanges
import WebKit.Yarr.YarrPatternConstructor

/-!
# Character classes in a pattern

From the text of a class to the class of its term: what `parseCharacterClass` accepts are ClassRanges, and the class that
the constructor makes of its calls accepts the characters of the parts, and with `i` those that are equivalent to one of
them (`parseCharacterClass_constructs`).
-/

namespace WebKit.Yarr

open WebKit.WTF CharacterClass

/-- A call of a delegate between the begin and the end of a class. -/
def Token.IsAdded (token : Token) : Prop :=
  token.isClassItem = true ∧ ∀ invert, token ≠ .atomCharacterClassBegin invert

variable {token : Token} {tokens : List Token} {parts : List ClassPart} {text after : List UChar}

theorem partsTokens_ne_begin (h : partsTokens parts = some tokens) (invert : Bool) :
    .atomCharacterClassBegin invert ∉ tokens := by
  induction parts generalizing tokens with
  | nil =>
    cases h
    simp
  | cons part parts ih =>
    rw [partsTokens, Option.bind_eq_some_iff] at h
    obtain ⟨first, hfirst, h⟩ := h
    obtain ⟨rest, hrest, rfl⟩ := Option.map_eq_some_iff.1 h
    rw [List.mem_append, not_or]
    refine ⟨?_, ih hrest⟩
    cases part with
    | atom a =>
      cases hfirst
      cases a <;> simp [ClassItem.token]
    | range a b =>
      simp only [ClassPart.tokens] at hfirst
      split at hfirst
      · split at hfirst <;> cases hfirst
        simp
      · cases hfirst
        cases a <;> cases b <;> simp [ClassItem.token]

namespace YarrPatternConstructor

/-- What calls add to the class that is being built. -/
def Extends (c : YarrPatternConstructor) (S : UChar → Prop) (result : Except Fault YarrPatternConstructor) : Prop :=
  ∃ characterClass, result = .ok { c with characterClass := characterClass } ∧ characterClass.Sorted ∧
    ∀ x, characterClass.Accepts x ↔ c.characterClass.Accepts x ∨ ∃ y, S y ∧ Matches c.pattern.ignoreCase y x

variable {c : YarrPatternConstructor}

theorem extends_of_adds {S : UChar → Prop} {result : Option CharacterClass}
    (h : Adds c.characterClass (fun x => ∃ y, S y ∧ Matches c.pattern.ignoreCase y x) result) :
    c.Extends S (c.setCharacterClass result) := by
  obtain ⟨characterClass, rfl, hsorted, haccepts⟩ := h
  exact ⟨characterClass, rfl, hsorted, haccepts⟩

theorem call_extends (h : token.IsAdded) (hc : c.characterClass.Sorted) : c.Extends token.Value (c.call token) := by
  obtain ⟨hitem, hbegin⟩ := h
  cases token with
  | atomCharacterClassBegin invert => exact absurd rfl (hbegin invert)
  | atomCharacterClassAtom ch =>
    exact extends_of_adds ((putChar_adds c.pattern.ignoreCase hc).of_iff fun x => by simp [Token.Value])
  | atomCharacterClassRange first last =>
    exact extends_of_adds <| (putRange_adds c.pattern.ignoreCase hc (of_decide_eq_true hitem)).of_iff fun x => by
      simp [Token.Value, MatchesRange, and_assoc]
  | atomCharacterClassBuiltIn classID invert =>
    obtain ⟨other, hother⟩ : ∃ other, classID.appended invert = some other := by
      cases classID with
      | newlineClassID => exact absurd hitem (by simp [Token.isClassItem])
      | _ => exact ⟨_, rfl⟩
    obtain ⟨hvalid, hclosed⟩ := appended_closed hother
    refine extends_of_adds ?_
    rw [hother]
    refine (append_adds hc hvalid).of_iff fun x => ?_
    rw [← ClassCall.Gives, (hclosed c.pattern.ignoreCase).gives_iff]
    simp [ClassCall.Names, accepts_appended hother, Token.Value]
  | _ => exact absurd hitem (by simp [Token.isClassItem])

theorem calls_extend (h : ∀ token ∈ tokens, token.IsAdded) (hc : c.characterClass.Sorted) :
    c.Extends (fun y => ∃ token ∈ tokens, token.Value y) (c.calls tokens) := by
  induction tokens generalizing c with
  | nil => exact ⟨c.characterClass, rfl, hc, fun x => by simp⟩
  | cons token tokens ih =>
    rw [List.forall_mem_cons] at h
    obtain ⟨first, hcall, hsorted, hfirst⟩ := call_extends h.1 hc
    obtain ⟨characterClass, hcalls, hsorted, hrest⟩ := ih (c := { c with characterClass := first }) h.2 hsorted
    rw [calls, hcall]
    refine ⟨characterClass, hcalls, hsorted, fun x => ?_⟩
    rw [hrest, hfirst]
    simp only [List.exists_mem_cons_iff, or_and_right, exists_or, or_assoc]

/-- **The class of a pattern accepts what its text says**: the characters that are equivalent to one of its parts. -/
theorem parseCharacterClass_constructs (h : parseCharacterClass text = some ⟨tokens, .ok after⟩)
    (hc : c.characterClass = {}) :
    ∃ items, ClassBody (tryConsume (ascii '^') text).2 items after ∧ ∃ parts, Derives .classRanges items parts ∧
      ∃ characterClass : CharacterClass, characterClass.Sorted ∧
        (∀ x, characterClass.Accepts x ↔ ∃ y, (∃ part ∈ parts, part.Value y) ∧ Matches c.pattern.ignoreCase y x) ∧
        c.calls tokens = .ok { c.appendTerm (.ofCharacterClass (.user characterClass) (tryConsume (ascii '^') text).1) with
          characterClass := {}
          invertCharacterClass := (tryConsume (ascii '^') text).1 } := by
  obtain ⟨added, hadded, htokens⟩ := parseCharacterClass_isCharacterClass h
  rw [parseCharacterClass_eq, Option.map_eq_some_iff] at h
  obtain ⟨⟨more, outcome⟩, hparsed, heq⟩ := h
  cases heq
  obtain ⟨items, hbody⟩ := classBody_of_parse hparsed
  refine ⟨items, hbody, classRanges items, derives_iff.2 rfl, ?_⟩
  obtain ⟨hok, herror⟩ := parseCharacterClassFrom_body .empty hbody le_rfl
  rw [runItems_classRanges] at hok herror
  cases hparts : partsTokens (classRanges items) with
  | none =>
    obtain ⟨_, hfault⟩ := herror hparts
    rw [hfault] at hparsed
    cases hparsed
  | some tokens =>
    rw [hok tokens hparts] at hparsed
    cases hparsed
    obtain ⟨between, rfl, hvalue, -⟩ := partsTokens_spec hparts
    have hsame : added = .atomCharacterClassBegin (tryConsume (ascii '^') text).1 :: between :=
      List.append_cancel_right htokens.symm
    have hbetween : ∀ token ∈ between, token.IsAdded := fun token hmem =>
      ⟨hadded token (hsame ▸ List.mem_cons_of_mem _ hmem), fun invert heq =>
        partsTokens_ne_begin hparts invert (List.mem_append_left _ (heq ▸ hmem))⟩
    obtain ⟨characterClass, hcalls, hsorted, haccepts⟩ := calls_extend
      (c := c.atomCharacterClassBegin (tryConsume (ascii '^') text).1) hbetween (hc ▸ sorted_empty)
    refine ⟨characterClass, hsorted, fun x => ?_, ?_⟩
    · have hempty : ¬c.characterClass.Accepts x := by simp [hc, Accepts, testCharacterClass]
      simp only [haccepts, hvalue]
      exact or_iff_right hempty
    · simp only [calls, call, calls_append, hcalls]
      rfl

/-- `/[^a-f\d]/i`. -/
theorem parseCharacterClass_constructs_range :
    let c : YarrPatternConstructor := { pattern := { ignoreCase := true, multiline := false } }
    ∃ tokens, parseCharacterClass ("^a-f\\d]".toList.map ascii) = some ⟨tokens, .ok []⟩ ∧
      ∃ (parts : List ClassPart) (characterClass : CharacterClass),
        (∀ x, characterClass.Accepts x ↔ ∃ y, (∃ part ∈ parts, part.Value y) ∧ Matches true y x) ∧
        (c.calls tokens).map terms = .ok [.ofCharacterClass (.user characterClass) true] := by
  intro c
  have h : parseCharacterClass ("^a-f\\d]".toList.map ascii) = some ⟨_, .ok []⟩ := rfl
  obtain ⟨_, -, parts, -, characterClass, -, haccepts, hcalls⟩ := parseCharacterClass_constructs (c := c) h rfl
  exact ⟨_, h, parts, characterClass, haccepts, by rw [hcalls]; rfl⟩

end YarrPatternConstructor

end WebKit.Yarr
