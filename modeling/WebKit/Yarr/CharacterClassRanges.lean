import WebKit.Yarr.CharacterClassEscapes
import WebKit.Yarr.CharacterClassExact

/-!
# `parseCharacterClass` parses ClassRanges

`Derives` is the grammar of the body of a character class over its atoms (`ClassItem`). It has one derivation for every
body (`derives_iff`), in which an atom that ends a range starts none. The states of the delegate stand for what the
grammar has read since the last part (`runItems_classRanges`), and the tokens of a part have the value of the part
(`ClassPart.tokens_spec`). What the parser accepts is a body (`classBody_of_parse`), and what it does on a body is
`parseCharacterClass_exact`.
-/

namespace WebKit.Yarr

open WebKit.WTF

/-! ## The grammar -/

inductive ClassPart
  | atom (a : ClassItem)
  | range (a b : ClassItem)
  deriving DecidableEq

inductive ClassNonterminal
  | classRanges
  | nonemptyClassRanges
  | nonemptyClassRangesNoDash

/-- The productions: the atoms that a nonterminal derives, and the parts of the derivation. -/
inductive Derives : ClassNonterminal → List ClassItem → List ClassPart → Prop
  | empty : Derives .classRanges [] []
  | nonempty {items : List ClassItem} {parts : List ClassPart} (h : Derives .nonemptyClassRanges items parts) :
    Derives .classRanges items parts
  | atom (a : ClassItem) : Derives .nonemptyClassRanges [a] [.atom a]
  | cons (a : ClassItem) {items : List ClassItem} {parts : List ClassPart}
    (h : Derives .nonemptyClassRangesNoDash items parts) :
    Derives .nonemptyClassRanges (a :: items) (.atom a :: parts)
  | range (a b : ClassItem) {items : List ClassItem} {parts : List ClassPart} (h : Derives .classRanges items parts) :
    Derives .nonemptyClassRanges (a :: .hyphen :: b :: items) (.range a b :: parts)
  | noDashAtom (a : ClassItem) : Derives .nonemptyClassRangesNoDash [a] [.atom a]
  | noDashCons {a : ClassItem} (ha : a ≠ .hyphen) {items : List ClassItem} {parts : List ClassPart}
    (h : Derives .nonemptyClassRangesNoDash items parts) :
    Derives .nonemptyClassRangesNoDash (a :: items) (.atom a :: parts)
  | noDashRange {a : ClassItem} (ha : a ≠ .hyphen) (b : ClassItem) {items : List ClassItem} {parts : List ClassPart}
    (h : Derives .classRanges items parts) :
    Derives .nonemptyClassRangesNoDash (a :: .hyphen :: b :: items) (.range a b :: parts)

/-- The parts that the grammar derives. -/
@[grind =] def classRanges : List ClassItem → List ClassPart
  | [] => []
  | a :: .hyphen :: b :: items => .range a b :: classRanges items
  | a :: items => .atom a :: classRanges items

/-- No range begins at the first of the atoms. -/
def StartsNoRange (items : List ClassItem) : Prop := ∀ b rest, items ≠ .hyphen :: b :: rest

theorem startsNoRange_nil : StartsNoRange [] := fun _ _ h => by cases h

variable {a b : ClassItem} {items : List ClassItem} {parts : List ClassPart}

theorem classRanges_atom (h : StartsNoRange items) : classRanges (a :: items) = .atom a :: classRanges items := by
  rw [classRanges]
  exact fun b rest heq => h b rest heq

theorem Derives.startsNoRange (h : Derives .nonemptyClassRangesNoDash items parts) : StartsNoRange items := by
  rintro b rest rfl
  cases h with
  | noDashCons ha h => exact ha rfl
  | noDashRange ha b h => exact ha rfl

theorem Derives.eq_classRanges {n : ClassNonterminal} (h : Derives n items parts) : parts = classRanges items := by
  induction h with
  | empty => rfl
  | nonempty h ih => exact ih
  | atom a => exact (classRanges_atom startsNoRange_nil).symm
  | cons a h ih => rw [classRanges_atom h.startsNoRange, ← ih]
  | range a b h ih => rw [classRanges, ← ih]
  | noDashAtom a => exact (classRanges_atom startsNoRange_nil).symm
  | noDashCons ha h ih => rw [classRanges_atom h.startsNoRange, ← ih]
  | noDashRange ha b h ih => rw [classRanges, ← ih]

theorem derives_classRanges (items : List ClassItem) :
    Derives .classRanges items (classRanges items) ∧
      (items ≠ [] → StartsNoRange items → Derives .nonemptyClassRangesNoDash items (classRanges items)) := by
  induction items using classRanges.induct with
  | case1 => exact ⟨.empty, fun h => absurd rfl h⟩
  | case2 a b items ih =>
    rw [classRanges]
    refine ⟨.nonempty (.range a b ih.1), fun _ hstarts => .noDashRange ?_ b ih.1⟩
    rintro rfl
    exact hstarts _ _ rfl
  | case3 a items hrange ih =>
    rw [classRanges_atom hrange]
    cases items with
    | nil => exact ⟨.nonempty (.atom a), fun _ _ => .noDashAtom a⟩
    | cons b items =>
      have hnoDash := ih.2 (List.cons_ne_nil b items) hrange
      refine ⟨.nonempty (.cons a hnoDash), fun _ hstarts => .noDashCons ?_ hnoDash⟩
      rintro rfl
      exact hstarts _ _ rfl

/-- **The grammar has one derivation.** -/
theorem derives_iff : Derives .classRanges items parts ↔ parts = classRanges items := by
  constructor
  · exact Derives.eq_classRanges
  · rintro rfl
    exact (derives_classRanges items).1

/-! ## Values -/

/-- The characters of an escape, and those of the inverted escape. -/
def BuiltInCharacterClassID.Value (invert : Bool) (x : UChar) : BuiltInCharacterClassID → Prop
  | digitClassID => (0x30 ≤ x.toNat ∧ x.toNat ≤ 0x39) ↔ invert = false
  | spaceClassID =>
    (9 ≤ x.toNat ∧ x.toNat ≤ 13 ∨ x.toNat = 0x20 ∨ x.toNat = 0xa0 ∨ x.toNat = 0x1680 ∨ x.toNat = 0x180e ∨
      0x2000 ≤ x.toNat ∧ x.toNat ≤ 0x200a ∨ x.toNat = 0x2028 ∨ x.toNat = 0x2029 ∨ x.toNat = 0x202f ∨
      x.toNat = 0x205f ∨ x.toNat = 0x3000 ∨ x.toNat = 0xfeff) ↔ invert = false
  | wordClassID =>
    (0x30 ≤ x.toNat ∧ x.toNat ≤ 0x39 ∨ 0x41 ≤ x.toNat ∧ x.toNat ≤ 0x5a ∨ x.toNat = 0x5f ∨
      0x61 ≤ x.toNat ∧ x.toNat ≤ 0x7a) ↔ invert = false
  | newlineClassID =>
    (x.toNat = 10 ∨ x.toNat = 13 ∨ x.toNat = 0x2028 ∨ x.toNat = 0x2029) ↔ invert = false

theorem accepts_appended {classID : BuiltInCharacterClassID} {invert : Bool} {c : CharacterClass} {x : UChar}
    (h : classID.appended invert = some c) : c.Accepts x ↔ classID.Value invert x := by
  have hplain : ∀ {d : CharacterClass}, classID.appended false = some d → (d.Accepts x ↔ classID.Value false x) := by
    intro d hd
    cases classID <;> cases hd <;> rcases CharacterClass.ascii_or_unicode x with hx | hx
    all_goals
      first | rw [CharacterClass.accepts_ascii hx] | rw [CharacterClass.accepts_unicode hx]
      rw [UInt16.le_iff_toNat_le] at hx
      simp [digitsCreate, spacesCreate, wordcharCreate, InRanges, BuiltInCharacterClassID.Value,
        UInt16.le_iff_toNat_le, ← UInt16.toNat_inj] at hx ⊢
    all_goals omega
  cases invert with
  | false => exact hplain h
  | true =>
    obtain ⟨d, hd⟩ : ∃ d, classID.appended false = some d := by
      cases classID with
      | newlineClassID => cases h
      | _ => exact ⟨_, rfl⟩
    rw [accepts_inverted hd h, hplain hd]
    cases classID <;> simp [BuiltInCharacterClassID.Value]

namespace ClassItem

/-- The character of an atom that is one. -/
def character : ClassItem → Option UChar
  | hyphen => some (ascii '-')
  | char c => some c
  | builtIn _ _ => none

/-- The characters of an atom. -/
def Value : ClassItem → UChar → Prop
  | hyphen, x => x = ascii '-'
  | char c, x => x = c
  | builtIn classID invert, x => classID.Value invert x

/-- The atom with the hyphen as a character. -/
def literal : ClassItem → ClassItem
  | hyphen => char (ascii '-')
  | a => a

end ClassItem

namespace ClassPart

/-- A range of characters the wrong way round. -/
def OutOfOrder : ClassPart → Prop
  | atom _ => False
  | range a b => ∃ x y, a.character = some x ∧ b.character = some y ∧ y < x

/-- The characters of a part. Between atoms of which one is a class the hyphen is a character. -/
def Value : ClassPart → UChar → Prop
  | atom a, x => a.Value x
  | range a b, x =>
    match a.character, b.character with
    | some first, some last => first ≤ x ∧ x ≤ last
    | _, _ => a.Value x ∨ x = ascii '-' ∨ b.Value x

end ClassPart

namespace Token

/-- The characters that a call adds to a class. -/
def Value : Token → UChar → Prop
  | atomCharacterClassAtom ch, x => x = ch
  | atomCharacterClassRange first last, x => first ≤ x ∧ x ≤ last
  | atomCharacterClassBuiltIn classID invert, x => classID.Value invert x
  | _, _ => False

/-- The atoms of which a call is made. -/
def spells : Token → List ClassItem
  | atomCharacterClassAtom ch => [.char ch]
  | atomCharacterClassRange first last => [.char first, .char (ascii '-'), .char last]
  | atomCharacterClassBuiltIn classID invert => [.builtIn classID invert]
  | _ => []

end Token

/-! ## The states of the delegate -/

namespace CharacterClassConstructionState

/-- What the delegate does with an atom: an unescaped hyphen may begin a range. -/
def take (state : CharacterClassConstructionState) (a : ClassItem) :
    Option (List Token × CharacterClassConstructionState) :=
  if a = .hyphen then state.atomPatternCharacter (ascii '-') true else state.atomEscape a.escape

end CharacterClassConstructionState

open CharacterClassConstructionState

/-- The tokens of atoms up to the bracket, and `none` for `CharacterClassOutOfOrder`. -/
@[grind =] def runItems (state : CharacterClassConstructionState) : List ClassItem → Option (List Token)
  | [] => some state.finish
  | a :: items =>
    match state.take a with
    | none => none
    | some (tokens, state) => (runItems state items).map (tokens ++ ·)

def ClassItem.token : ClassItem → Token
  | hyphen => .atomCharacterClassAtom (ascii '-')
  | char c => .atomCharacterClassAtom c
  | builtIn classID invert => .atomCharacterClassBuiltIn classID invert

/-- The tokens of a part, and `none` for a range that is out of order. -/
def ClassPart.tokens : ClassPart → Option (List Token)
  | atom a => some [a.token]
  | range a b =>
    match a.character, b.character with
    | some first, some last => if last < first then none else some [.atomCharacterClassRange first last]
    | _, _ => some [a.token, .atomCharacterClassAtom (ascii '-'), b.token]

@[grind =] def partsTokens : List ClassPart → Option (List Token)
  | [] => some [.atomCharacterClassEnd]
  | part :: parts => part.tokens.bind fun tokens => (partsTokens parts).map (tokens ++ ·)

theorem runItems_range (a b : ClassItem) (items : List ClassItem) :
    runItems .empty (a :: .hyphen :: b :: items) =
      (ClassPart.range a b).tokens.bind fun tokens => (runItems .empty items).map (tokens ++ ·) := by
  cases a <;> cases b <;> simp [runItems, take, ClassPart.tokens, ClassItem.character, ClassItem.escape,
    ClassItem.token, atomEscape, atomPatternCharacter, atomBuiltInCharacterClass]
  all_goals first | rfl | split_ifs <;> rfl

theorem runItems_atom (a : ClassItem) (h : StartsNoRange items) :
    runItems .empty (a :: items) = (runItems .empty items).map (a.token :: ·) := by
  cases items with
  | nil => cases a <;> rfl
  | cons b items =>
    cases b with
    | hyphen =>
      cases items with
      | nil => cases a <;> rfl
      | cons b items => exact absurd rfl (h b items)
    | char c =>
      cases a <;> simp [runItems, take, ClassItem.escape, ClassItem.token, atomEscape, atomPatternCharacter,
        atomBuiltInCharacterClass]
      all_goals rfl
    | builtIn classID invert =>
      cases a <;> simp [runItems, take, ClassItem.escape, ClassItem.token, atomEscape, atomPatternCharacter,
        atomBuiltInCharacterClass]
      all_goals rfl

/-- **The states follow the grammar.** -/
theorem runItems_classRanges (items : List ClassItem) : runItems .empty items = partsTokens (classRanges items) := by
  induction items using classRanges.induct with
  | case1 => rfl
  | case2 a b items ih => rw [runItems_range, classRanges, partsTokens, ih]
  | case3 a items hrange ih =>
    rw [runItems_atom a hrange, classRanges_atom hrange, partsTokens, ih]
    rfl

/-! ## What the tokens are -/

theorem partsTokens_eq_none : partsTokens parts = none ↔ ∃ part ∈ parts, part.tokens = none := by
  induction parts with
  | nil => simp [partsTokens]
  | cons part parts ih =>
    cases h : part.tokens with
    | none => simp [partsTokens, h]
    | some tokens => simp [partsTokens, h, ih]

theorem ClassPart.tokens_eq_none (part : ClassPart) : part.tokens = none ↔ part.OutOfOrder := by
  cases part with
  | atom a => simp [tokens, OutOfOrder]
  | range a b => cases a <;> cases b <;> simp [tokens, OutOfOrder, ClassItem.character]

theorem ClassItem.token_value (a : ClassItem) (x : UChar) : a.token.Value x ↔ a.Value x := by
  cases a <;> exact Iff.rfl

theorem ClassItem.token_spells (a : ClassItem) : a.token.spells = [a.literal] := by
  cases a <;> rfl

def ClassPart.atoms : ClassPart → List ClassItem
  | atom a => [a]
  | range a b => [a, .hyphen, b]

theorem flatMap_atoms (items : List ClassItem) : (classRanges items).flatMap ClassPart.atoms = items := by
  induction items using classRanges.induct with
  | case1 => rfl
  | case2 a b items ih => rw [classRanges, List.flatMap_cons, ih]; rfl
  | case3 a items hrange ih => rw [classRanges_atom hrange, List.flatMap_cons, ih]; rfl

theorem ClassPart.tokens_spec {part : ClassPart} {tokens : List Token} (h : part.tokens = some tokens) :
    (∀ x, (∃ token ∈ tokens, token.Value x) ↔ part.Value x) ∧
      tokens.flatMap Token.spells = part.atoms.map ClassItem.literal := by
  cases part with
  | atom a =>
    cases h
    exact ⟨fun x => by simp [a.token_value, Value], by simp [a.token_spells, atoms]⟩
  | range a b =>
    cases a <;> cases b <;> simp [ClassPart.tokens, ClassItem.character, ClassItem.token] at h
    all_goals
      obtain ⟨-, rfl⟩ := h
      simp [Token.Value, Value, ClassItem.Value, ClassItem.character, Token.spells, atoms, ClassItem.literal]

/-- What the tokens in front of the end have to be. -/
structure TokensOf (parts : List ClassPart) (tokens : List Token) : Prop where
  value_iff : ∀ x, (∃ token ∈ tokens, token.Value x) ↔ ∃ part ∈ parts, part.Value x
  spells : tokens.flatMap Token.spells = (parts.flatMap ClassPart.atoms).map ClassItem.literal

theorem partsTokens_spec {tokens : List Token} (h : partsTokens parts = some tokens) :
    ∃ tokens', tokens = tokens' ++ [.atomCharacterClassEnd] ∧ TokensOf parts tokens' := by
  induction parts generalizing tokens with
  | nil =>
    cases h
    exact ⟨[], rfl, by simp, rfl⟩
  | cons part parts ih =>
    simp only [partsTokens, Option.bind_eq_some_iff, Option.map_eq_some_iff] at h
    obtain ⟨first, hfirst, rest, hrest, rfl⟩ := h
    obtain ⟨rest, rfl, hvalue, hspells⟩ := ih hrest
    obtain ⟨hfirstValue, hfirstSpells⟩ := ClassPart.tokens_spec hfirst
    refine ⟨first ++ rest, (List.append_assoc ..).symm, fun x => ?_, ?_⟩
    · simp only [List.mem_append, or_and_right, exists_or, hfirstValue, hvalue, List.mem_cons, exists_eq_left]
    · rw [List.flatMap_append, hfirstSpells, hspells, List.flatMap_cons, List.map_append]

/-! ## The parser -/

/-- The body of a class: its text up to the bracket, its atoms and what follows the bracket. -/
inductive ClassBody : List UChar → List ClassItem → List UChar → Prop
  | close (after : List UChar) : ClassBody (ascii ']' :: after) [] after
  | hyphen {text after : List UChar} {items : List ClassItem} (h : ClassBody text items after) :
    ClassBody (ascii '-' :: text) (.hyphen :: items) after
  | char {c : UChar} (hbracket : c ≠ ascii ']') (hbackslash : c ≠ ascii '\\') (hhyphen : c ≠ ascii '-')
    {text after : List UChar} {items : List ClassItem} (h : ClassBody text items after) :
    ClassBody (c :: text) (.char c :: items) after
  | escape {text rest after : List UChar} {a : ClassItem} {items : List ClassItem} (ha : ClassEscape text a rest)
    (h : ClassBody rest items after) : ClassBody (ascii '\\' :: text) (a :: items) after

variable {c : UChar} {text rest after : List UChar} {state : CharacterClassConstructionState}

theorem ClassEscape.ne_hyphen (h : ClassEscape text a rest) : a ≠ .hyphen := by
  have hnamed : ∀ named ∈ namedEscapes, named.2 ≠ ClassItem.hyphen := by decide
  cases h with
  | named h => exact hnamed _ h
  | _ => exact fun h => by cases h

theorem ClassEscape.length_le (h : ClassEscape text a rest) : rest.length ≤ text.length := by
  have hparse : parseEscape true quantifyInfinite text = some (a.escape, rest) := parseEscape_eq h
  exact (parseEscape_suffix hparse).length_le

/-- One turn of the loop takes an atom. -/
theorem parseCharacterClassToken_eq (state : CharacterClassConstructionState)
    (h : ClassBody (c :: text) (a :: items) after) :
    ∃ rest, ClassBody rest items after ∧ rest.length ≤ text.length ∧ c ≠ ascii ']' ∧
      parseCharacterClassToken state c text =
        match state.take a with
        | none => .error .characterClassOutOfOrder
        | some (tokens, state) => .ok (tokens, state, rest) := by
  cases h with
  | hyphen h =>
    refine ⟨text, h, le_rfl, by decide, ?_⟩
    rw [parseCharacterClassToken, if_neg (by decide), take, if_pos rfl] <;> rfl
  | char hbracket hbackslash hhyphen h =>
    refine ⟨text, h, le_rfl, hbracket, ?_⟩
    have hsame : state.atomPatternCharacter c true = state.atomPatternCharacter c false := by
      cases state <;> simp [atomPatternCharacter, hhyphen]
    rw [parseCharacterClassToken, if_neg hbackslash, hsame, take, if_neg (fun h => by cases h)] <;> rfl
  | @escape _ rest _ _ _ ha h =>
    refine ⟨rest, h, ha.length_le, by decide, ?_⟩
    rw [parseCharacterClassToken, if_pos rfl, parseEscape_eq ha, take, if_neg ha.ne_hyphen] <;> rfl

/-- **The parser reads the atoms of a body.** -/
theorem parseCharacterClassFrom_body (state : CharacterClassConstructionState) {turns : Nat}
    (h : ClassBody text items after) (hturns : text.length ≤ turns) :
    (∀ tokens, runItems state items = some tokens →
      parseCharacterClassFrom turns state text = some ⟨tokens, .ok after⟩) ∧
    (runItems state items = none →
      ∃ tokens, parseCharacterClassFrom turns state text = some ⟨tokens, .error .characterClassOutOfOrder⟩) := by
  induction items generalizing turns state text with
  | nil =>
    cases h
    cases turns with
    | zero => exact absurd hturns (by simp)
    | succ turns =>
      refine ⟨fun tokens htokens => ?_, fun hnone => by cases hnone⟩
      cases htokens
      rw [parseCharacterClassFrom, if_pos rfl]
  | cons a items ih =>
    cases text with
    | nil => cases h
    | cons c text =>
      obtain ⟨rest, hrest, hlength, hc, htoken⟩ := parseCharacterClassToken_eq state h
      cases turns with
      | zero => exact absurd hturns (by simp)
      | succ turns =>
        rw [parseCharacterClassFrom, if_neg hc, htoken, runItems]
        cases htake : state.take a with
        | none => exact ⟨fun tokens htokens => (by cases htokens), fun _ => ⟨[], rfl⟩⟩
        | some taken =>
          obtain ⟨tokens, state'⟩ := taken
          obtain ⟨hok, herror⟩ := ih state' hrest (hlength.trans (Nat.le_of_succ_le_succ hturns))
          simp only [Option.map_eq_some_iff, Option.map_eq_none_iff]
          constructor
          · rintro _ ⟨tokens', htokens', rfl⟩
            exact ⟨_, hok tokens' htokens', rfl⟩
          · intro hnone
            obtain ⟨tokens', htokens'⟩ := herror hnone
            exact ⟨tokens ++ tokens', _, htokens', rfl⟩

/-- One turn of the loop has taken an atom. -/
theorem classBody_of_token {tokens : List Token} {state' : CharacterClassConstructionState} (hc : c ≠ ascii ']')
    (h : parseCharacterClassToken state c text = .ok (tokens, state', rest)) (hbody : ClassBody rest items after) :
    ∃ a, ClassBody (c :: text) (a :: items) after := by
  rw [parseCharacterClassToken] at h
  split at h
  · rename_i hbackslash
    subst hbackslash
    cases hescape : parseEscape true quantifyInfinite text with
    | none => simp [hescape] at h
    | some read =>
      obtain ⟨escape, left⟩ := read
      obtain ⟨a, ha, rfl⟩ := parseEscape_iff.1 hescape
      rw [hescape] at h
      simp only at h
      split at h
      · cases h
      · cases h
        exact ⟨a, .escape ha hbody⟩
  · rename_i hbackslash
    split at h
    · cases h
    · cases h
      by_cases hhyphen : c = ascii '-'
      · exact ⟨.hyphen, hhyphen ▸ .hyphen hbody⟩
      · exact ⟨.char c, .char hc hbackslash hhyphen hbody⟩

/-- **What the parser accepts is a body.** -/
theorem classBody_of_parse {turns : Nat} {tokens : List Token}
    (h : parseCharacterClassFrom turns state text = some ⟨tokens, .ok after⟩) :
    ∃ items, ClassBody text items after := by
  induction turns generalizing state text tokens with
  | zero => cases text <;> cases h
  | succ turns ih =>
    cases text with
    | nil => cases h
    | cons c text =>
      rw [parseCharacterClassFrom] at h
      split at h
      · rename_i hc
        cases h
        exact ⟨[], hc ▸ .close after⟩
      · rename_i hc
        split at h
        · cases h
        · rename_i htoken
          obtain ⟨parsed, hparsed, heq⟩ := Option.map_eq_some_iff.1 h
          obtain ⟨parsedTokens, outcome⟩ := parsed
          cases heq
          obtain ⟨items, hitems⟩ := ih hparsed
          obtain ⟨a, ha⟩ := classBody_of_token hc htoken hitems
          exact ⟨a :: items, ha⟩

/-- What `parseCharacterClass` does on a body whose derivation has these parts. -/
structure ParsesParts (invert : Bool) (items : List ClassItem) (parts : List ClassPart) (after : List UChar)
    (parsed : Parsed (List UChar)) : Prop where
  error_iff : parsed.outcome = .error .characterClassOutOfOrder ↔ ∃ part ∈ parts, part.OutOfOrder
  tokens : (¬∃ part ∈ parts, part.OutOfOrder) → parsed.outcome = .ok after ∧
    ∃ tokens, parsed.tokens = .atomCharacterClassBegin invert :: (tokens ++ [.atomCharacterClassEnd]) ∧
      (∀ x, (∃ token ∈ tokens, token.Value x) ↔ ∃ part ∈ parts, part.Value x) ∧
      tokens.flatMap Token.spells = items.map ClassItem.literal

theorem parseCharacterClass_eq (text : List UChar) :
    parseCharacterClass text =
      (parseCharacterClassFrom (tryConsume (ascii '^') text).2.length .empty (tryConsume (ascii '^') text).2).map
        fun parsed => ⟨.atomCharacterClassBegin (tryConsume (ascii '^') text).1 :: parsed.tokens, parsed.outcome⟩ :=
  rfl

/-- **`parseCharacterClass` parses ClassRanges.** -/
theorem parseCharacterClass_exact (h : ClassBody (tryConsume (ascii '^') text).2 items after) :
    ∃ parts, Derives .classRanges items parts ∧ (∀ parts', Derives .classRanges items parts' → parts' = parts) ∧
      ∃ parsed, parseCharacterClass text = some parsed ∧
        ParsesParts (tryConsume (ascii '^') text).1 items parts after parsed := by
  refine ⟨classRanges items, derives_iff.2 rfl, fun parts' => derives_iff.1, ?_⟩
  obtain ⟨hok, herror⟩ := parseCharacterClassFrom_body .empty h le_rfl
  have hnone : partsTokens (classRanges items) = none ↔ ∃ part ∈ classRanges items, part.OutOfOrder := by
    simp only [partsTokens_eq_none, ClassPart.tokens_eq_none]
  rw [runItems_classRanges] at hok herror
  rw [parseCharacterClass_eq]
  cases htokens : partsTokens (classRanges items) with
  | none =>
    obtain ⟨tokens, hparsed⟩ := herror htokens
    rw [hparsed]
    exact ⟨_, rfl, iff_of_true rfl (hnone.1 htokens), fun hn => absurd (hnone.1 htokens) hn⟩
  | some tokens =>
    have horder : ¬∃ part ∈ classRanges items, part.OutOfOrder := by
      rw [← hnone, htokens]
      exact fun h => by cases h
    obtain ⟨tokens', rfl, hvalue, hspells⟩ := partsTokens_spec htokens
    rw [hok _ htokens]
    refine ⟨_, rfl, iff_of_false (fun h => by cases h) horder, fun _ => ⟨rfl, tokens', rfl, hvalue, ?_⟩⟩
    rw [hspells, flatMap_atoms]

theorem digitEscape (rest : List UChar) : ClassEscape (ascii 'd' :: rest) (.builtIn .digitClassID false) rest :=
  .named (show ('d', _) ∈ namedEscapes by decide) rest

/-- `[^a-\d-z]`. -/
theorem parseCharacterClass_exact_builtIn :
    ∃ items, items = [.char (ascii 'a'), .hyphen, .builtIn .digitClassID false, .hyphen, .char (ascii 'z')] ∧
      ∃ parts, Derives .classRanges items parts ∧ (∀ parts', Derives .classRanges items parts' → parts' = parts) ∧
        ∃ parsed, parseCharacterClass ("^a-\\d-z]".toList.map ascii) = some parsed ∧
          ParsesParts true items parts [] parsed :=
  ⟨_, rfl, parseCharacterClass_exact (.char (by decide) (by decide) (by decide) <| .hyphen <| .escape (digitEscape _) <|
    .hyphen <| .char (by decide) (by decide) (by decide) <| .close [])⟩

/-- An unescaped hyphen between two characters the wrong way round. -/
def HyphenOutOfOrder (items : List ClassItem) : Prop :=
  ∃ front back x y, items = front ++ .char x :: .hyphen :: .char y :: back ∧ y < x

/-- **In `[\d-z-a]` no range is out of order**: behind `\d-` the `z` begins no range. -/
theorem parseCharacterClass_chained : ¬∀ text items after,
    ClassBody (tryConsume (ascii '^') text).2 items after → ∃ parsed, parseCharacterClass text = some parsed ∧
      (parsed.outcome = .error .characterClassOutOfOrder ↔ HyphenOutOfOrder items) := by
  intro h
  obtain ⟨parsed, hparsed, hiff⟩ := h ("\\d-z-a]".toList.map ascii)
    [.builtIn .digitClassID false, .hyphen, .char (ascii 'z'), .hyphen, .char (ascii 'a')] []
    (.escape (digitEscape _) <| .hyphen <| .char (by decide) (by decide) (by decide) <|
      .hyphen <| .char (by decide) (by decide) (by decide) <| .close [])
  cases hparsed
  have hhyphen : HyphenOutOfOrder
      [.builtIn .digitClassID false, .hyphen, .char (ascii 'z'), .hyphen, .char (ascii 'a')] :=
    ⟨[.builtIn .digitClassID false, .hyphen], [], ascii 'z', ascii 'a', rfl, by decide⟩
  exact absurd (hiff.2 hhyphen) (by decide)

end WebKit.Yarr
