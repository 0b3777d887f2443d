import WebKit.Yarr.YarrParserNumbers
import WebKit.Yarr.YarrPatternConstructor

/-!
# The second parse of a pattern

A pattern with a back reference above the number of its groups is parsed again with that number as the limit. Both parses
have the same structure (`parse_structure`), and with it the same groups that capture (`calls_numSubpatterns`), and the
back references of the second parse are within the limit (`parse_withinLimit`). So the second parse succeeds and agrees
with the first (`reparse_agrees`).
-/

namespace WebKit.Yarr

open WebKit.WTF

/-! ## The back references of a parse -/

/-- The back references among the tokens are within the limit. -/
def WithinLimit (limit : UInt32) (tokens : List Token) : Prop :=
  ∀ subpatternId, .atomBackReference subpatternId ∈ tokens → subpatternId ≤ limit

variable {limit : UInt32} {tokens more : List Token}

@[simp] theorem withinLimit_nil : WithinLimit limit [] := fun _ h => absurd h List.not_mem_nil

theorem withinLimit_append (h : WithinLimit limit tokens) (hmore : WithinLimit limit more) :
    WithinLimit limit (tokens ++ more) := fun subpatternId hmem =>
  (List.mem_append.1 hmem).elim (h subpatternId) (hmore subpatternId)

theorem withinLimit_singleton {token : Token} (h : ∀ subpatternId, token ≠ .atomBackReference subpatternId) :
    WithinLimit limit [token] := fun subpatternId hmem => absurd (List.mem_singleton.1 hmem).symm (h subpatternId)

theorem withinLimit_classItems (h : ∀ token ∈ tokens, token.isClassItem = true) : WithinLimit limit tokens :=
  fun subpatternId hmem => Bool.noConfusion (h (.atomBackReference subpatternId) hmem)

theorem parseParenthesesBegin_withinLimit (depth : Nat) (rest : List UChar) :
    WithinLimit limit (parseParenthesesBegin depth rest).tokens := by
  rw [parseParenthesesBegin]
  split
  · exact withinLimit_singleton (by simp)
  · exact withinLimit_nil
  · split_ifs
    · exact withinLimit_singleton (by simp)
    · exact withinLimit_singleton (by simp)
    · exact withinLimit_singleton (by simp)
    · exact withinLimit_nil

theorem parseParenthesesEnd_withinLimit (depth : Nat) (rest : List UChar) :
    WithinLimit limit (parseParenthesesEnd depth rest).tokens := by
  rw [parseParenthesesEnd]
  split
  · exact withinLimit_singleton (by simp)
  · exact withinLimit_nil

theorem parseQuantifier_withinLimit (depth : Nat) (atom : Bool) (min max : UInt32) (rest : List UChar) :
    WithinLimit limit (parseQuantifier depth atom min max rest).tokens := by
  rw [parseQuantifier]
  split_ifs
  · exact withinLimit_nil
  · exact withinLimit_singleton (by simp)
  · exact withinLimit_nil

theorem parseBrace_withinLimit (depth : Nat) (atom : Bool) (c : UChar) (rest : List UChar) :
    WithinLimit limit (parseBrace depth atom c rest).tokens := by
  rw [parseBrace]
  split
  · split
    · exact parseQuantifier_withinLimit depth atom _ _ _
    · exact withinLimit_nil
  · exact withinLimit_singleton (by simp)

theorem parseCharacterClass_withinLimit {rest : List UChar} {parsed : Parsed (List UChar)}
    (h : parseCharacterClass rest = some parsed) : WithinLimit limit parsed.tokens := by
  have hclass := parseCharacterClass_isCharacterClass h
  obtain ⟨tokens, outcome⟩ := parsed
  cases outcome with
  | error code => exact withinLimit_classItems hclass
  | ok left =>
    obtain ⟨items, hitems, heq⟩ := hclass
    simp only at heq
    rw [heq]
    exact withinLimit_append (withinLimit_classItems hitems) (withinLimit_singleton (by simp))

theorem parseEscape_withinLimit {rest left : List UChar} {escape : Escape}
    (h : parseEscape false limit rest = some (escape, left)) : WithinLimit limit [escape.token.1] := by
  intro subpatternId hmem
  have heq := List.mem_singleton.1 hmem
  cases escape with
  | atomBackReference n =>
    cases heq
    exact (parseEscape_backReference h).2.2
  | assertionWordBoundary invert => cases heq
  | atomBuiltInCharacterClass classID invert => cases heq
  | atomPatternCharacter ch => cases heq

/-- **The tokens of one turn** are within the limit. -/
theorem parseToken_withinLimit {depth : Nat} {atom : Bool} {c : UChar} {rest : List UChar} {parsed : Parsed ParserState}
    (h : parseToken limit depth atom c rest = some parsed) : WithinLimit limit parsed.tokens := by
  rw [parseToken] at h
  split at h
  · cases h
    exact withinLimit_singleton (by simp)
  · cases h
    exact parseParenthesesBegin_withinLimit depth rest
  · cases h
    exact parseParenthesesEnd_withinLimit depth rest
  · cases h
    exact withinLimit_singleton (by simp)
  · cases h
    exact withinLimit_singleton (by simp)
  · cases h
    exact withinLimit_singleton (by simp)
  · obtain ⟨parsed', hclass, rfl⟩ := Option.map_eq_some_iff.1 h
    exact parseCharacterClass_withinLimit hclass
  · split at h
    · cases h
      exact withinLimit_nil
    · rename_i hescape
      cases h
      exact parseEscape_withinLimit hescape
  · cases h
    exact parseQuantifier_withinLimit depth atom _ _ rest
  · cases h
    exact parseQuantifier_withinLimit depth atom _ _ rest
  · cases h
    exact parseQuantifier_withinLimit depth atom _ _ rest
  · cases h
    exact parseBrace_withinLimit depth atom c rest
  · cases h
    exact withinLimit_singleton (by simp)

theorem parseTokensFrom_withinLimit {turns : Nat} {state : ParserState} {parsed : Parsed Unit}
    (h : parseTokensFrom limit turns state = some parsed) : WithinLimit limit parsed.tokens := by
  induction turns generalizing state parsed with
  | zero =>
    obtain ⟨depth, atom, rest⟩ := state
    cases rest with
    | nil =>
      cases h
      exact withinLimit_nil
    | cons c rest => exact absurd h (by simp [parseTokensFrom])
  | succ turns ih =>
    obtain ⟨depth, atom, rest⟩ := state
    cases rest with
    | nil =>
      cases h
      exact withinLimit_nil
    | cons c rest =>
      obtain ⟨⟨tokens, outcome⟩, hparsed⟩ := Option.isSome_iff_exists.mp (parseToken_isSome limit depth atom c rest)
      have htoken := parseToken_withinLimit hparsed
      cases outcome with
      | error code =>
        simp only [parseTokensFrom, hparsed] at h
        cases h
        exact htoken
      | ok state =>
        simp only [parseTokensFrom, hparsed, Option.map_eq_some_iff] at h
        obtain ⟨parsed', hmore, rfl⟩ := h
        exact withinLimit_append htoken (ih hmore)

/-- **The back references of a parse** are within its limit. -/
theorem parse_withinLimit {pattern : List UChar} {parsed : Parsed Unit} (h : parse pattern limit = some parsed) :
    WithinLimit limit parsed.tokens := by
  rw [parse] at h
  split at h
  · cases h
    exact withinLimit_nil
  · exact parseTokensFrom_withinLimit h

/-! ## The groups of a pattern -/

/-- The number of the groups that capture. -/
def captures (tokens : List Token) : Nat := tokens.countP fun token => decide (token = .atomParenthesesSubpatternBegin true)

/-- The groups are part of the structure. -/
theorem captures_filter (tokens : List Token) : captures (tokens.filter Token.isStructural) = captures tokens := by
  unfold captures
  rw [List.countP_filter]
  refine List.countP_congr fun token _ => ?_
  cases token <;> simp [Token.isStructural]

namespace YarrPatternConstructor

variable {c c' : YarrPatternConstructor}

/-- A call counts a group that captures, and keeps the greatest back reference. -/
structure Counts (c c' : YarrPatternConstructor) (captured : Nat) (references : List UInt32) : Prop where
  numSubpatterns : c'.pattern.numSubpatterns = c.pattern.numSubpatterns + UInt32.ofNat captured
  maxBackReference : ∀ bound, (∀ n ∈ references, n ≤ bound) → c.pattern.maxBackReference ≤ bound →
    c'.pattern.maxBackReference ≤ bound

/-- The back references among the tokens. -/
def references (tokens : List Token) : List UInt32 := tokens.filterMap fun
  | .atomBackReference subpatternId => some subpatternId
  | _ => none

theorem counts_of_eq (hn : c'.pattern.numSubpatterns = c.pattern.numSubpatterns)
    (hm : c'.pattern.maxBackReference = c.pattern.maxBackReference) : Counts c c' 0 [] :=
  ⟨by rw [hn]; simp, fun bound _ h => by rwa [hm]⟩

theorem setCharacterClass_pattern {characterClass : Option CharacterClass} (h : c.setCharacterClass characterClass = .ok c') :
    c'.pattern = c.pattern := by
  cases characterClass with
  | none => cases h
  | some characterClass =>
    cases h
    rfl

theorem atomPatternCharacter_pattern {ch : UChar} (h : c.atomPatternCharacter ch = .ok c') : c'.pattern = c.pattern := by
  rw [atomPatternCharacter] at h
  split at h
  · cases h
    rfl
  · split at h
    · split at h
      · cases h
        rfl
      · split at h
        · cases h
        · cases h
          rfl
    · cases h

theorem atomParenthesesEnd_pattern (h : c.atomParenthesesEnd = .ok c') : c'.pattern = c.pattern := by
  rw [atomParenthesesEnd] at h
  split at h
  · cases h
  · split at h
    · cases h
    · cases h
      rfl

theorem quantifyAtom_pattern {min max : UInt32} {greedy : Bool} (h : c.quantifyAtom min max greedy = .ok c') :
    c'.pattern = c.pattern := by
  have hmap : ∀ {terms : Except Fault (List PatternTerm)}, terms.map c.setTerms = .ok c' → c'.pattern = c.pattern := by
    intro terms h
    cases terms with
    | error fault => cases h
    | ok terms =>
      cases h
      rfl
  rw [quantifyAtom] at h
  split at h
  · exact hmap h
  · split at h
    · cases h
    · split at h
      · exact hmap h
      · cases h
        rfl
    · cases h
      rfl

theorem assertionBOL_counts (c : YarrPatternConstructor) : Counts c c.assertionBOL 0 [] := by
  unfold assertionBOL
  split
  · exact counts_of_eq rfl rfl
  · exact counts_of_eq rfl rfl

theorem atomBackReference_counts {subpatternId : UInt32} (h : c.atomBackReference subpatternId = .ok c') :
    Counts c c' 0 [subpatternId] := by
  have hcounts : ∀ {term : PatternTerm}, Counts c
      ({ c with
          pattern :=
            { c.pattern with
              containsBackreferences := true
              maxBackReference := max c.pattern.maxBackReference subpatternId } }.appendTerm term) 0 [subpatternId] := by
    intro term
    refine ⟨(UInt32.add_zero _).symm, fun bound hreferences hmax => ?_⟩
    have hle := hreferences subpatternId (List.mem_singleton_self _)
    change (if c.pattern.maxBackReference ≤ subpatternId then subpatternId else c.pattern.maxBackReference) ≤ bound
    split
    · exact hle
    · exact hmax
  rw [atomBackReference] at h
  simp only at h
  split at h
  · cases h
    exact hcounts
  · split at h
    · cases h
    · cases h
      exact hcounts
    · cases h
      exact hcounts

/-- **What one call counts.** -/
theorem call_counts {token : Token} (h : c.call token = .ok c') : Counts c c' (captures [token]) (references [token]) := by
  cases token with
  | assertionBOL =>
    cases h
    exact assertionBOL_counts c
  | assertionEOL =>
    cases h
    exact counts_of_eq rfl rfl
  | assertionWordBoundary invert =>
    cases h
    exact counts_of_eq rfl rfl
  | atomPatternCharacter ch =>
    rw [call] at h
    have hp := atomPatternCharacter_pattern h
    exact counts_of_eq (congrArg YarrPattern.numSubpatterns hp) (congrArg YarrPattern.maxBackReference hp)
  | atomBuiltInCharacterClass classID invert =>
    cases h
    exact counts_of_eq rfl rfl
  | atomCharacterClassBegin invert =>
    cases h
    exact counts_of_eq rfl rfl
  | atomCharacterClassAtom ch =>
    rw [call, atomCharacterClassAtom] at h
    have hp := setCharacterClass_pattern h
    exact counts_of_eq (congrArg YarrPattern.numSubpatterns hp) (congrArg YarrPattern.maxBackReference hp)
  | atomCharacterClassRange first last =>
    rw [call, atomCharacterClassRange] at h
    have hp := setCharacterClass_pattern h
    exact counts_of_eq (congrArg YarrPattern.numSubpatterns hp) (congrArg YarrPattern.maxBackReference hp)
  | atomCharacterClassBuiltIn classID invert =>
    rw [call, atomCharacterClassBuiltIn] at h
    have hp := setCharacterClass_pattern h
    exact counts_of_eq (congrArg YarrPattern.numSubpatterns hp) (congrArg YarrPattern.maxBackReference hp)
  | atomCharacterClassEnd =>
    cases h
    exact counts_of_eq rfl rfl
  | atomParenthesesSubpatternBegin capture =>
    cases h
    cases capture with
    | false => exact counts_of_eq rfl rfl
    | true => exact ⟨rfl, fun bound _ hmax => hmax⟩
  | atomParentheticalAssertionBegin invert =>
    cases h
    exact counts_of_eq rfl rfl
  | atomParenthesesEnd =>
    rw [call] at h
    have hp := atomParenthesesEnd_pattern h
    exact counts_of_eq (congrArg YarrPattern.numSubpatterns hp) (congrArg YarrPattern.maxBackReference hp)
  | atomBackReference subpatternId => exact atomBackReference_counts h
  | quantifyAtom min max greedy =>
    rw [call] at h
    have hp := quantifyAtom_pattern h
    exact counts_of_eq (congrArg YarrPattern.numSubpatterns hp) (congrArg YarrPattern.maxBackReference hp)
  | disjunction =>
    cases h
    exact counts_of_eq rfl rfl

/-- **What all calls of a parse count**, by induction on the tokens. -/
theorem calls_counts (h : c.calls tokens = .ok c') : Counts c c' (captures tokens) (references tokens) := by
  induction tokens generalizing c with
  | nil =>
    cases h
    exact counts_of_eq rfl rfl
  | cons token tokens ih =>
    rw [calls] at h
    split at h
    · cases h
    · rename_i c₁ hcall
      obtain ⟨hn, hm⟩ := call_counts hcall
      obtain ⟨hn', hm'⟩ := ih h
      have hcaptures : captures ([token] ++ tokens) = captures [token] + captures tokens := List.countP_append
      have hreferences : references ([token] ++ tokens) = references [token] ++ references tokens :=
        List.filterMap_append
      rw [List.singleton_append] at hcaptures hreferences
      refine ⟨?_, fun bound hbound hmax => ?_⟩
      · rw [hn', hn, hcaptures, UInt32.ofNat_add, UInt32.add_assoc]
      · rw [hreferences] at hbound
        exact hm' bound (fun n hmem => hbound n (List.mem_append_right _ hmem))
          (hm bound (fun n hmem => hbound n (List.mem_append_left _ hmem)) hmax)

theorem references_le (h : WithinLimit limit tokens) : ∀ n ∈ references tokens, n ≤ limit := by
  intro n hmem
  obtain ⟨token, htoken, heq⟩ := List.mem_filterMap.1 hmem
  cases token with
  | atomBackReference subpatternId =>
    cases heq
    exact h n htoken
  | _ => cases heq

end YarrPatternConstructor

open YarrPatternConstructor

/-- **The second parse agrees with the first.** A pattern that parses without a limit parses again with the number of its
subpatterns as the limit, with as many subpatterns and without a back reference above the limit, and that is the pattern
which `compile` goes on with if the first one contains an illegal back reference. -/
theorem reparse_agrees {patternString : List UChar} {ignoreCase multiline : Bool} {c : YarrPatternConstructor}
    (h : ({ pattern := { ignoreCase, multiline } } : YarrPatternConstructor).parse patternString quantifyInfinite =
      some (.ok (.ok c))) :
    ∃ tokens c', parse patternString c.pattern.numSubpatterns = some ⟨tokens, .ok ()⟩ ∧
      c.reset.parse patternString c.pattern.numSubpatterns = some (.ok (.ok c')) ∧
      c'.pattern.numSubpatterns = c.pattern.numSubpatterns ∧
      WithinLimit c.pattern.numSubpatterns tokens ∧ c'.pattern.containsIllegalBackReference = false ∧
      (c.pattern.containsIllegalBackReference = true →
        parsePattern patternString ignoreCase multiline = some (.ok (.ok c'.finish))) := by
  have hfirst := h
  rw [YarrPatternConstructor.parse, Option.map_eq_some_iff] at h
  obtain ⟨⟨tokens, outcome⟩, hparse, hcalls⟩ := h
  cases hc : ({ pattern := { ignoreCase, multiline } } : YarrPatternConstructor).calls tokens with
  | error fault =>
    rw [hc] at hcalls
    cases hcalls
  | ok c₁ =>
    rw [hc] at hcalls
    cases outcome with
    | error code => cases hcalls
    | ok _ =>
      obtain rfl : c₁ = c := by
        cases hcalls
        rfl
      obtain ⟨tokens', hparse', hstructure⟩ := parse_structure c₁.pattern.numSubpatterns hparse
      have hwithin := parse_withinLimit hparse'
      obtain ⟨c', hcalls', -⟩ := calls_isRun (parse_run hparse') (inv_reset c₁)
      have hcounts := calls_counts hc
      have hcounts' := calls_counts hcalls'
      have hcaptures : captures tokens' = captures tokens := by
        rw [← captures_filter tokens', hstructure, captures_filter]
      have hn : c'.pattern.numSubpatterns = c₁.pattern.numSubpatterns := by
        rw [hcounts'.numSubpatterns, hcounts.numSubpatterns, hcaptures]
        rfl
      have hmax := hcounts'.maxBackReference c₁.pattern.numSubpatterns (references_le hwithin) UInt32.zero_le
      refine ⟨tokens', c', hparse', ?_, hn, hwithin, ?_, fun hillegal => ?_⟩
      · rw [YarrPatternConstructor.parse, hparse', Option.map_some, hcalls']
        rfl
      · rw [YarrPattern.containsIllegalBackReference, hn, decide_eq_false_iff_not, UInt32.not_lt]
        exact hmax
      · rw [parsePattern, hfirst]
        simp only [hillegal, if_true, hparse', hcalls']
        rfl

/-- In the pattern `(a)\8\12` both references are illegal. -/
theorem reparse_agrees_octal : ∃ c c' : YarrPatternConstructor,
    c.pattern.containsIllegalBackReference = true ∧
      c.reset.parse (charactersOf "(a)\\8\\12") c.pattern.numSubpatterns = some (.ok (.ok c')) ∧
      c'.pattern.numSubpatterns = c.pattern.numSubpatterns ∧ c'.pattern.containsIllegalBackReference = false := by
  have hparse : ∃ c : YarrPatternConstructor, c.pattern.containsIllegalBackReference = true ∧
      ({ pattern := { ignoreCase := false, multiline := false } } : YarrPatternConstructor).parse
        (charactersOf "(a)\\8\\12") quantifyInfinite = some (.ok (.ok c)) := ⟨_, rfl, rfl⟩
  obtain ⟨c, hillegal, hc⟩ := hparse
  obtain ⟨tokens, c', -, hparse', hn, -, hlegal, -⟩ := reparse_agrees hc
  exact ⟨c, c', hillegal, hparse', hn, hlegal⟩

end WebKit.Yarr
