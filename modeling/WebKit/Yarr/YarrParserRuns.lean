import WebKit.Yarr.YarrParser

/-!
# Runs of the parser

`parse_run` describes the tokens of a whole pattern: the tokens of turns, one after the other, that end outside of all
groups unless there is an error. `parseStructure_limit` shows that the limit of back references only decides which tokens
are back references and which are characters: with every limit the other tokens are the same, and there is the same error
or none. So the second parse of a pattern succeeds as the first did (`parse_structure`).
-/

namespace WebKit.Yarr

open WebKit.WTF

/-! ## Turns in a row -/

/-- The tokens of several turns. -/
inductive Run : Nat → Bool → List Token → Nat → Bool → Prop
  | nil {depth atom} : Run depth atom [] depth atom
  | turn {depth depth' depth'' atom atom' atom'' tokens more} (h : Turn depth atom tokens depth' atom')
    (hmore : Run depth' atom' more depth'' atom'') : Run depth atom (tokens ++ more) depth'' atom''

/-- The tokens of turns, and behind them those of a class that is not complete if there is an error. -/
structure IsRun (parsed : Parsed Unit) (depth : Nat) (lastTokenWasAnAtom : Bool) : Prop where
  intro ::
  exists_run : ∃ tokens items depth' atom', parsed.tokens = tokens ++ items ∧
    Run depth lastTokenWasAnAtom tokens depth' atom' ∧ (∀ token ∈ items, token.isClassItem = true) ∧
    (parsed.outcome = .ok () → items = [] ∧ depth' = 0)

theorem parseTokensFrom_run {limit : UInt32} {turns : Nat} {state : ParserState} {parsed : Parsed Unit}
    (h : parseTokensFrom limit turns state = some parsed) :
    IsRun parsed state.parenthesesNestingDepth state.lastTokenWasAnAtom := by
  have hend : ∀ {depth : Nat} {atom : Bool},
      IsRun ⟨[], if 0 < depth then .error .missingParentheses else .ok ()⟩ depth atom := by
    intro depth atom
    refine ⟨[], [], depth, atom, rfl, .nil, fun token hmem => absurd hmem List.not_mem_nil, ?_⟩
    intro hok
    split at hok
    · exact absurd hok (by simp)
    · exact ⟨rfl, by omega⟩
  induction turns generalizing state parsed with
  | zero =>
    obtain ⟨depth, atom, rest⟩ := state
    cases rest with
    | nil =>
      cases h
      exact hend
    | cons c rest => exact absurd h (by simp [parseTokensFrom])
  | succ turns ih =>
    obtain ⟨depth, atom, rest⟩ := state
    cases rest with
    | nil =>
      cases h
      exact hend
    | cons c rest =>
      obtain ⟨⟨tokens, outcome⟩, hparsed⟩ := Option.isSome_iff_exists.mp (parseToken_isSome limit depth atom c rest)
      have hturn := parseToken_isTurn hparsed
      cases outcome with
      | error code =>
        simp only [parseTokensFrom, hparsed] at h
        cases h
        exact ⟨[], tokens, depth, atom, rfl, .nil, hturn, fun hok => absurd hok (by simp)⟩
      | ok state =>
        simp only [parseTokensFrom, hparsed, Option.map_eq_some_iff] at h
        obtain ⟨more, hmore, rfl⟩ := h
        obtain ⟨moreTokens, items, depth', atom', heq, hrun, hitems, hok⟩ := ih hmore
        refine ⟨tokens ++ moreTokens, items, depth', atom', ?_, .turn hturn.1 hrun, hitems, hok⟩
        rw [heq, List.append_assoc]

/-- **What the parser reports** for a pattern. -/
theorem parse_run {pattern : List UChar} {limit : UInt32} {parsed : Parsed Unit}
    (h : parse pattern limit = some parsed) : IsRun parsed 0 false := by
  rw [parse] at h
  split at h
  · cases h
    exact ⟨[], [], 0, false, rfl, .nil, fun token hmem => absurd hmem List.not_mem_nil, fun hok => absurd hok (by simp)⟩
  · exact parseTokensFrom_run h

/-! ## The limit of back references -/

theorem parseTokensFrom_turns {limit : UInt32} {turns turns' : Nat} {state : ParserState}
    (h : state.rest.length ≤ turns) (h' : state.rest.length ≤ turns') :
    parseTokensFrom limit turns state = parseTokensFrom limit turns' state := by
  induction turns generalizing turns' state with
  | zero =>
    obtain ⟨depth, atom, rest⟩ := state
    obtain rfl := List.length_eq_zero_iff.mp (Nat.le_zero.mp h)
    cases turns' <;> rfl
  | succ turns ih =>
    obtain ⟨depth, atom, rest⟩ := state
    cases rest with
    | nil => cases turns' <;> rfl
    | cons c rest =>
      obtain ⟨turns', rfl⟩ : ∃ n, turns' = n + 1 := ⟨turns' - 1, by rw [List.length_cons] at h'; omega⟩
      obtain ⟨⟨tokens, outcome⟩, hparsed⟩ := Option.isSome_iff_exists.mp (parseToken_isSome limit depth atom c rest)
      have hturn := parseToken_isTurn hparsed
      cases outcome with
      | error code => simp only [parseTokensFrom, hparsed]
      | ok state =>
        have hle := hturn.2.length_le
        simp only [parseTokensFrom, hparsed]
        rw [ih (Nat.le_trans hle (Nat.le_of_succ_le_succ h)) (Nat.le_trans hle (Nat.le_of_succ_le_succ h'))]

/-- Tokens that are no characters and no back references. -/
def Token.isStructural : Token → Bool
  | .atomPatternCharacter _ => false
  | .atomBackReference _ => false
  | _ => true

/-- The structure of the rest of a pattern, and how its parse ends. -/
def parseStructure (limit : UInt32) (state : ParserState) : Option (List Token × Except ErrorCode Unit) :=
  (parseTokensFrom limit state.rest.length state).map fun parsed =>
    (parsed.tokens.filter Token.isStructural, parsed.outcome)

theorem parseStructure_cons {limit : UInt32} {depth : Nat} {atom : Bool} {c : UChar} {rest : List UChar}
    {parsed : Parsed ParserState} (h : parseToken limit depth atom c rest = some parsed) :
    parseStructure limit ⟨depth, atom, c :: rest⟩ =
      match parsed.outcome with
      | .error code => some (parsed.tokens.filter Token.isStructural, .error code)
      | .ok state => (parseStructure limit state).map fun structure' =>
        (parsed.tokens.filter Token.isStructural ++ structure'.1, structure'.2) := by
  obtain ⟨tokens, outcome⟩ := parsed
  have hturn := parseToken_isTurn h
  cases outcome with
  | error code => simp only [parseStructure, List.length_cons, parseTokensFrom, h, Option.map_some]
  | ok state =>
    have hle := hturn.2.length_le
    simp only [parseStructure, List.length_cons, parseTokensFrom, h, Option.map_map]
    rw [parseTokensFrom_turns hle (Nat.le_refl _)]
    congr 1
    funext parsed
    simp only [Function.comp_apply, List.filter_append]

theorem parseStructure_skip {limit : UInt32} {depth : Nat} {atom : Bool} {c : UChar} {rest : List UChar} {token : Token}
    {state : ParserState} (h : parseToken limit depth atom c rest = some ⟨[token], .ok state⟩)
    (htoken : token.isStructural = false) :
    parseStructure limit ⟨depth, atom, c :: rest⟩ = parseStructure limit state := by
  rw [parseStructure_cons h]
  simp only [List.filter_cons, htoken, Bool.false_eq_true, if_false, List.filter_nil, List.nil_append]
  rw [Option.map_id']

theorem digit_eq {c : UChar} (h : isASCIIDigit c = true) : ∃ n < 10, c = UInt16.ofNat (48 + n) := by
  rw [isASCIIDigit, decide_eq_true_eq, UInt16.le_iff_toNat_le, UInt16.le_iff_toNat_le] at h
  have hlow : (ascii '0').toNat = 48 := rfl
  have hhigh : (ascii '9').toNat = 57 := rfl
  rw [hlow, hhigh] at h
  refine ⟨c.toNat - 48, by omega, ?_⟩
  have hsum : 48 + (c.toNat - 48) = c.toNat := by omega
  rw [hsum, UInt16.ofNat_toNat]

theorem peek_digit {c : UChar} (h : isASCIIDigit c = true) : peek c = .other := by
  obtain ⟨n, hn, rfl⟩ := digit_eq h
  have hall : ∀ n < 10, peek (UInt16.ofNat (48 + n)) = .other := by decide
  exact hall n hn

theorem isASCIIDigit_of_octal {c : UChar} (h : isASCIIOctalDigit c = true) : isASCIIDigit c = true := by
  rw [isASCIIOctalDigit, decide_eq_true_eq] at h
  rw [isASCIIDigit, decide_eq_true_eq]
  exact ⟨h.1, UInt16.le_trans h.2 (by decide)⟩

/-- What follows the digits that come first. -/
def afterDigits (rest : List UChar) : List UChar := rest.dropWhile isASCIIDigit

theorem afterDigits_cons {c : UChar} (h : isASCIIDigit c = true) (rest : List UChar) :
    afterDigits (c :: rest) = afterDigits rest := List.dropWhile_cons_of_pos h

theorem afterDigits_consumeDigits (n : UInt32) (rest : List UChar) :
    afterDigits (consumeDigits n rest).2 = afterDigits rest := by
  induction rest generalizing n with
  | nil => rfl
  | cons c rest ih =>
    rw [consumeDigits]
    split
    · rename_i h
      rw [ih, afterDigits_cons h.1]
    · rfl

theorem afterDigits_consumeOctalDigits (n : UInt32) (rest : List UChar) :
    afterDigits (consumeOctalDigits n rest).2 = afterDigits rest := by
  induction rest generalizing n with
  | nil => rfl
  | cons c rest ih =>
    rw [consumeOctalDigits]
    split
    · rename_i h
      rw [ih, afterDigits_cons (isASCIIDigit_of_octal h.2)]
    · rfl

theorem parseStructure_afterDigits (limit : UInt32) (depth : Nat) (rest : List UChar) :
    parseStructure limit ⟨depth, true, rest⟩ = parseStructure limit ⟨depth, true, afterDigits rest⟩ := by
  induction rest with
  | nil => rfl
  | cons c rest ih =>
    by_cases h : isASCIIDigit c = true
    · have htoken : parseToken limit depth true c rest = some ⟨[.atomPatternCharacter c], .ok ⟨depth, true, rest⟩⟩ := by
        simp only [parseToken, peek_digit h]
      rw [parseStructure_skip htoken rfl, afterDigits_cons h]
      exact ih
    · rw [afterDigits, List.dropWhile_cons_of_neg h]

theorem parseDecimalEscape_atom (limit : UInt32) {c : UChar} (h : isASCIIDigit c = true) (rest : List UChar) :
    (parseDecimalEscape false limit c rest).1.token.2 = true ∧
      (parseDecimalEscape false limit c rest).1.token.1.isStructural = false ∧
      afterDigits (parseDecimalEscape false limit c rest).2 = afterDigits (c :: rest) := by
  rw [parseDecimalEscape]
  simp only
  split
  · exact ⟨rfl, rfl, (afterDigits_consumeDigits _ rest).trans (afterDigits_cons h rest).symm⟩
  · split
    · exact ⟨rfl, rfl, rfl⟩
    · exact ⟨rfl, rfl, (afterDigits_consumeOctalDigits _ rest).trans (afterDigits_cons h rest).symm⟩

theorem parseEscape_limit (limit : UInt32) (c : UChar) (rest : List UChar) :
    parseEscape false limit (c :: rest) = parseEscape false quantifyInfinite (c :: rest) ∨
      isASCIIDigit c = true ∧
        parseEscape false limit (c :: rest) = some (parseDecimalEscape false limit c rest) ∧
        parseEscape false quantifyInfinite (c :: rest) = some (parseDecimalEscape false quantifyInfinite c rest) := by
  rw [parseEscape, parseEscape]
  cases hletter : letterEscape false c with
  | some escape => exact Or.inl rfl
  | none =>
    by_cases hdigit : ascii '1' ≤ c ∧ c ≤ ascii '9'
    · refine Or.inr ⟨?_, ?_, ?_⟩
      · rw [isASCIIDigit, decide_eq_true_eq]
        exact ⟨UInt16.le_trans (by decide) hdigit.1, hdigit.2⟩
      · simp only [if_pos hdigit]
      · simp only [if_pos hdigit]
    · refine Or.inl ?_
      simp only [if_neg hdigit]

theorem parseToken_limit (limit : UInt32) (depth : Nat) (atom : Bool) {c : UChar} (h : peek c ≠ .backslash)
    (rest : List UChar) : parseToken limit depth atom c rest = parseToken quantifyInfinite depth atom c rest := by
  rw [parseToken, parseToken]
  split <;> first
    | rfl
    | exact absurd ‹_› h

/-- **The limit of back references does not change the structure**, by induction on the length of the rest. -/
theorem parseStructure_limit (limit : UInt32) (n : Nat) (state : ParserState) (h : state.rest.length ≤ n) :
    parseStructure limit state = parseStructure quantifyInfinite state := by
  induction n generalizing state with
  | zero =>
    obtain ⟨depth, atom, rest⟩ := state
    obtain rfl := List.length_eq_zero_iff.mp (Nat.le_zero.mp h)
    rfl
  | succ n ih =>
    obtain ⟨depth, atom, rest⟩ := state
    cases rest with
    | nil => rfl
    | cons c rest =>
      have hlength : rest.length ≤ n := Nat.le_of_succ_le_succ h
      -- With the same turn the rest of the parse decides.
      have hsame : parseToken limit depth atom c rest = parseToken quantifyInfinite depth atom c rest →
          parseStructure limit ⟨depth, atom, c :: rest⟩ = parseStructure quantifyInfinite ⟨depth, atom, c :: rest⟩ := by
        intro heq
        obtain ⟨parsed, hparsed⟩ := Option.isSome_iff_exists.mp (parseToken_isSome limit depth atom c rest)
        have hturn := parseToken_isTurn hparsed
        rw [parseStructure_cons hparsed, parseStructure_cons (heq ▸ hparsed)]
        obtain ⟨tokens, outcome⟩ := parsed
        cases outcome with
        | error code => rfl
        | ok state =>
          simp only
          rw [ih state (Nat.le_trans hturn.2.length_le hlength)]
      by_cases hpeek : peek c = .backslash
      · cases rest with
        | nil => exact hsame (by simp only [parseToken, hpeek, parseEscape])
        | cons c' rest =>
          rcases parseEscape_limit limit c' rest with heq | ⟨hdigit, hlimit, hinfinite⟩
          · exact hsame (by simp only [parseToken, hpeek, heq])
          · have hatom := fun limit : UInt32 => parseDecimalEscape_atom limit hdigit rest
            have hstructure : ∀ limit : UInt32,
                parseEscape false limit (c' :: rest) = some (parseDecimalEscape false limit c' rest) →
                parseStructure limit ⟨depth, atom, c :: c' :: rest⟩ =
                  parseStructure limit ⟨depth, true, afterDigits rest⟩ := by
              intro limit hescape
              have htoken : parseToken limit depth atom c (c' :: rest) =
                  some ⟨[(parseDecimalEscape false limit c' rest).1.token.1],
                    .ok ⟨depth, true, (parseDecimalEscape false limit c' rest).2⟩⟩ := by
                simp only [parseToken, hpeek, hescape, (hatom limit).1]
              rw [parseStructure_skip htoken (hatom limit).2.1, parseStructure_afterDigits, (hatom limit).2.2,
                afterDigits_cons hdigit]
            rw [hstructure limit hlimit, hstructure quantifyInfinite hinfinite]
            have hle : (afterDigits rest).length ≤ rest.length := (List.dropWhile_suffix _).length_le
            exact ih ⟨depth, true, afterDigits rest⟩
              (Nat.le_trans hle (Nat.le_trans (Nat.le_succ _) hlength))
      · exact hsame (parseToken_limit limit depth atom hpeek rest)

/-- **A pattern that parses without a limit parses with every limit**, with the same structure. -/
theorem parse_structure {pattern : List UChar} {tokens : List Token} (limit : UInt32)
    (h : parse pattern quantifyInfinite = some ⟨tokens, .ok ()⟩) :
    ∃ tokens', parse pattern limit = some ⟨tokens', .ok ()⟩ ∧
      tokens'.filter Token.isStructural = tokens.filter Token.isStructural := by
  rw [parse] at h ⊢
  split at h
  · exact absurd h (by simp)
  · rename_i hsize
    rw [if_neg hsize]
    have hlimit := parseStructure_limit limit pattern.length ⟨0, false, pattern⟩ (Nat.le_refl _)
    rw [parseStructure, parseStructure, h, Option.map_some, Option.map_eq_some_iff] at hlimit
    obtain ⟨⟨tokens', outcome⟩, hparsed, heq⟩ := hlimit
    simp only [Prod.mk.injEq] at heq
    obtain ⟨hfilter, rfl⟩ := heq
    exact ⟨tokens', hparsed, hfilter⟩

end WebKit.Yarr
