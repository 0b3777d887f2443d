import WebKit.Yarr.YarrMatching

/-!
# Quantified atoms

An atom with a minimum and a greater maximum becomes two terms: the atom, repeated a fixed number of times, and a copy for
the rest. Together they match what `RepeatMatcher` (15.10.2.5) matches (`quantifiedTerms_match`), as a copy matches what
it is a copy of (`PatternTerm.copyTerm_matches`). An assertion is dropped or runs once (`assertion_matches`).
-/

namespace WebKit.Yarr

open WebKit.WTF

/-- `RepeatMatcher`, with `none` for an infinite maximum: when nothing more is asked for, a turn must not be empty. -/
inductive RepeatMatcher (R : MatchState → MatchState → Prop) : Nat → Option Nat → MatchState → MatchState → Prop
  | done (max : Option Nat) (x : MatchState) : RepeatMatcher R 0 max x x
  | turn {min : Nat} {max : Option Nat} {x y z : MatchState} (hmax : max ≠ some 0) (step : R x y)
    (hempty : min = 0 → y.endIndex ≠ x.endIndex) (rest : RepeatMatcher R (min - 1) (max.map (· - 1)) y z) :
    RepeatMatcher R min max x z

variable {R : MatchState → MatchState → Prop} {x y z : MatchState} {min : Nat} {max : Option Nat}

@[simp] theorem repeats_zero : Repeats R 0 x y ↔ y = x := by
  constructor
  · intro h
    cases h
    rfl
  · rintro rfl
    exact .zero _

/-- The turns that are asked for come first. -/
theorem repeatMatcher_iff (hle : ∀ n ∈ max, min ≤ n) :
    RepeatMatcher R min max x z ↔ ∃ y, Repeats R min x y ∧ ∃ n, (∀ m ∈ max, min + n ≤ m) ∧
      Repeats (fun x y => R x y ∧ y.endIndex ≠ x.endIndex) n y z := by
  constructor
  · intro h
    induction h with
    | done max x => exact ⟨x, .zero x, 0, hle, .zero x⟩
    | @turn min max x y z hmax step hempty rest ih =>
      obtain ⟨w, hfixed, n, hn, hmore⟩ := ih (by cases max <;> simp_all; omega)
      cases min with
      | zero =>
        cases hfixed
        exact ⟨x, .zero x, n + 1, by cases max <;> simp_all; omega, .succ ⟨step, hempty rfl⟩ hmore⟩
      | succ min => exact ⟨w, .succ step hfixed, n, by cases max <;> simp_all; omega, hmore⟩
  · rintro ⟨y, hfixed, n, hn, hmore⟩
    induction hfixed generalizing max with
    | zero x =>
      induction hmore generalizing max with
      | zero x => exact .done max x
      | succ step rest ih =>
        refine .turn ?_ step.1 (fun _ => step.2) (ih (by simp) ?_)
        · rintro rfl
          exact absurd (hn 0 rfl) (by omega)
        · cases max <;> simp_all
          omega
    | succ step rest ih =>
      refine .turn ?_ step nofun (ih ?_ ?_ hmore)
      · rintro rfl
        exact absurd (hle 0 rfl) (by omega)
      · cases max <;> simp_all
        omega
      · cases max <;> simp_all
        omega

/-- The maximum of `RepeatMatcher`: a fixed count is not infinite. -/
def maximum (min max : UInt32) : Option Nat :=
  if max = quantifyInfinite ∧ min ≠ max then none else some max.toNat

theorem le_maximum {min max : UInt32} (hle : min ≤ max) : ∀ n ∈ maximum min max, min.toNat ≤ n := by
  unfold maximum
  split_ifs <;> simp [UInt32.le_iff_toNat_le.1 hle]

/-! ## Copies -/

mutual

theorem PatternDisjunction.copyDisjunction_matches (c : MatchInput) : (disjunction : PatternDisjunction) →
    ((disjunction.copyDisjunction false).getD { alternatives := [] }).Matches c = disjunction.Matches c
  | ⟨alternatives, _, _, _⟩ => by
    funext x y
    rw [PatternDisjunction.copyDisjunction, PatternDisjunction.Matches, ← copyAlternatives_match c alternatives]
    cases copyAlternatives false alternatives <;> rfl

theorem copyAlternatives_match (c : MatchInput) : (alternatives : List PatternAlternative) →
    AlternativesMatch c (copyAlternatives false alternatives) = AlternativesMatch c alternatives
  | [] => rfl
  | ⟨terms, _, _, _, _, _⟩ :: rest => by
    funext x y
    rw [copyAlternatives, if_neg (by simp), AlternativesMatch, AlternativesMatch, copyTerms_match c terms,
      copyAlternatives_match c rest]

theorem copyTerms_match (c : MatchInput) : (terms : List PatternTerm) →
    TermsMatch c (copyTerms false terms) = TermsMatch c terms
  | [] => rfl
  | term :: rest => by
    funext x y
    rw [copyTerms, TermsMatch, TermsMatch, term.copyTerm_matches c, copyTerms_match c rest]

theorem PatternTerm.copyTerm_matches (c : MatchInput) : (term : PatternTerm) →
    (term.copyTerm false).Matches c = term.Matches c
  | .term _ _ => rfl
  | .parentheses type disjunction ids fields => by
    funext x y
    cases type <;> rw [PatternTerm.copyTerm, PatternTerm.Matches, PatternTerm.Matches,
      disjunction.copyDisjunction_matches c]

end

/-! ## Quantifiers -/

/-- What may be repeated: a character, a class, a back reference or a group. -/
def PatternTerm.IsRepeated : PatternTerm → Prop
  | .term (.patternCharacter _) _ | .term (.characterClass _) _ | .term (.backReference _) _ => True
  | .parentheses .parenthesesSubpattern _ _ _ => True
  | _ => False

/-- A term repeats what it matches once. -/
theorem quantify_matches {term : PatternTerm} (h : term.IsRepeated) (c : MatchInput) (count : UInt32)
    (type : QuantifierType) :
    (term.quantify count type).Matches c = Quantified { quantityCount := count, quantityType := type }
      ((term.quantify 1 .quantifierFixedCount).Matches c) := by
  have hone : ∀ (fields : TermFields) (R : MatchState → MatchState → Prop),
      Quantified { fields with quantityCount := 1, quantityType := .quantifierFixedCount } R = R := by
    intro fields R
    funext x y
    refine propext ⟨fun h => ?_, fun h => .succ h (.zero y)⟩
    obtain - | ⟨step, rest⟩ := (show Repeats R 1 x y from h)
    cases rest
    exact step
  unfold PatternTerm.IsRepeated at h
  split at h
  all_goals
    first
    | cases h; done
    | simp only [PatternTerm.quantify, PatternTerm.Matches, MatchInput.TermMatches, hone]; rfl

theorem copy_matches {term : PatternTerm} (c : MatchInput) (min count : UInt32) (type : QuantifierType) :
    (((term.quantify min .quantifierFixedCount).copyTerm false).quantify count type).setIsCopy.Matches c =
      (term.quantify count type).Matches c := by
  rw [← (term.quantify count type).copyTerm_matches c]
  cases term with
  | term => rfl
  | parentheses type => cases type <;> rfl

/-- The two terms for an atom match what `RepeatMatcher` matches. -/
theorem quantifiedTerms_match {term : PatternTerm} (h : term.IsRepeated) {min max : UInt32} (hle : min ≤ max)
    (greedy : Bool) (c : MatchInput) (x y : MatchState) :
    TermsMatch c (YarrPatternConstructor.quantifiedTerms term min max greedy) x y ↔
      RepeatMatcher ((term.quantify 1 .quantifierFixedCount).Matches c) min.toNat (maximum min max) x y := by
  have hle' := UInt32.le_iff_toNat_le.1 hle
  have hoptional : ∀ count, (term.quantify count (if greedy then .quantifierGreedy else .quantifierNonGreedy)).Matches c =
      fun x y => ∃ n, (count = quantifyInfinite ∨ n ≤ count.toNat) ∧ Repeats (fun x y =>
        (term.quantify 1 .quantifierFixedCount).Matches c x y ∧ y.endIndex ≠ x.endIndex) n x y := by
    intro count
    rw [quantify_matches h]
    cases greedy <;> rfl
  have hfixed : (term.quantify min .quantifierFixedCount).Matches c =
      Repeats ((term.quantify 1 .quantifierFixedCount).Matches c) min.toNat := quantify_matches h c min _
  rw [repeatMatcher_iff (le_maximum hle)]
  simp only [YarrPatternConstructor.quantifiedTerms, maximum]
  by_cases hzero : min = 0
  · subst hzero
    by_cases hmax : max = quantifyInfinite
    · simp [TermsMatch, hoptional, hmax, quantifyInfinite]
    · simp [TermsMatch, hoptional, hmax]
  · rw [if_neg hzero]
    by_cases heq : min = max
    · subst heq
      have hnone : ∀ n, min.toNat + n ≤ min.toNat ↔ n = 0 := fun n => by omega
      simp [TermsMatch, hfixed, hnone, eq_comm]
    · rw [if_neg heq]
      by_cases hmax : max = quantifyInfinite
      · subst hmax
        simp [TermsMatch, hfixed, copy_matches, hoptional, heq, eq_comm]
      · -- What is left of the maximum is not taken for an infinite count.
        have hne : max - min ≠ quantifyInfinite := fun hsub => hzero <| UInt32.toNat_inj.1 <| by
          have := congrArg UInt32.toNat hsub
          rw [UInt32.toNat_sub_of_le _ _ hle, show quantifyInfinite.toNat = 2 ^ 32 - 1 from rfl] at this
          have := max.toNat_lt
          simp
          omega
        have hcount : ∀ n, n ≤ max.toNat - min.toNat ↔ min.toNat + n ≤ max.toNat := fun n => by omega
        simp [TermsMatch, hfixed, copy_matches, hoptional, hmax, hne, UInt32.toNat_sub_of_le _ _ hle, hcount, eq_comm]

/-! ## Assertions -/

/-- A turn that stays in its place is of no use when nothing more is asked for. -/
theorem repeatMatcher_zero (h : ∀ x y, R x y → y.endIndex = x.endIndex) : RepeatMatcher R 0 max x z ↔ z = x := by
  constructor
  · rintro (- | ⟨-, step, hempty, -⟩)
    · rfl
    · exact absurd (h _ _ step) (hempty rfl)
  · rintro rfl
    exact .done max z

theorem repeatMatcher_none : RepeatMatcher R 0 (some 0) x z ↔ z = x := by
  constructor
  · rintro (- | ⟨hmax, -⟩)
    · rfl
    · exact absurd rfl hmax
  · rintro rfl
    exact .done _ z

/-- Turns that change nothing are the same as one turn. -/
theorem repeatMatcher_of_eq (h : ∀ x y, R x y → y = x) (hmin : min ≠ 0) (hle : ∀ n ∈ max, min ≤ n) :
    RepeatMatcher R min max x z ↔ R x z := by
  have hsteps : ∀ n x z, Repeats R (n + 1) x z ↔ R x z := by
    intro n
    induction n with
    | zero => exact fun x z => ⟨fun | .succ step (.zero _) => step, fun step => .succ step (.zero z)⟩
    | succ n ih =>
      refine fun x z => ⟨?_, fun step => ?_⟩
      · rintro (- | ⟨step, rest⟩)
        obtain rfl := h _ _ step
        exact (ih _ _).1 rest
      · obtain rfl := h _ _ step
        exact .succ step ((ih _ _).2 step)
  obtain ⟨n, rfl⟩ := Nat.exists_eq_succ_of_ne_zero hmin
  rw [repeatMatcher_iff hle]
  refine ⟨?_, fun step => ⟨z, (hsteps n x z).2 step, 0, hle, .zero z⟩⟩
  rintro ⟨y, hfixed, _, -, hmore⟩
  cases hmore with
  | zero => exact (hsteps n x z).1 hfixed
  | succ step _ => exact absurd (congrArg MatchState.endIndex (h _ _ step.1)) step.2

theorem termsMatch_append (c : MatchInput) (terms rest : List PatternTerm) (x z : MatchState) :
    TermsMatch c (terms ++ rest) x z ↔ ∃ y, TermsMatch c terms x y ∧ TermsMatch c rest y z := by
  induction terms generalizing x with
  | nil => simp [TermsMatch]
  | cons term terms ih => simp [TermsMatch, ih]; grind

/-- An assertion may be repeated if it need not hold, or if it leaves no captures. -/
def PatternTerm.IsAssertion (min : UInt32) : PatternTerm → Prop
  | .parentheses .parentheticalAssertion _ _ fields => min = 0 ∨ fields.invert = true
  | _ => False

theorem assertion_matches {term : PatternTerm} {min max : UInt32} (h : term.IsAssertion min) (hle : min ≤ max)
    (c : MatchInput) (x z : MatchState) :
    RepeatMatcher ((term.quantify 1 .quantifierFixedCount).Matches c) min.toNat (maximum min max) x z ↔
      TermsMatch c (if min = 0 then [] else [term]) x z := by
  unfold PatternTerm.IsAssertion at h
  split at h
  · rename_i disjunction ids fields
    by_cases hmin : min = 0
    · rw [if_pos hmin, hmin, TermsMatch, UInt32.toNat_zero]
      refine repeatMatcher_zero fun x y step => ?_
      simp only [PatternTerm.quantify, PatternTerm.Matches] at step
      split_ifs at step
      · rw [step.1]
      · obtain ⟨_, -, rfl⟩ := step
        rfl
    · have hinvert := h.resolve_left hmin
      rw [if_neg hmin, repeatMatcher_of_eq ?_ (fun h => hmin (UInt32.toNat_inj.1 h)) (le_maximum hle)]
      · simp [TermsMatch, PatternTerm.quantify, PatternTerm.Matches, hinvert, eq_comm]
      · intro x y step
        simp only [PatternTerm.quantify, PatternTerm.Matches, hinvert, if_true] at step
        exact step.1
  · cases h

theorem lastTerm_eq_ok {terms : List PatternTerm} {term : PatternTerm} (h : lastTerm terms = .ok term) :
    terms = terms.dropLast ++ [term] := by
  unfold lastTerm at h
  split at h
  · cases h
  · rename_i last heq
    cases h
    exact (List.dropLast_append_getLast? term heq).symm

/-- **A quantified atom matches what `RepeatMatcher` matches.** -/
theorem quantifyAtom_matches {constructor : YarrPatternConstructor} {term : PatternTerm} {min max : UInt32}
    (hlast : lastTerm constructor.terms = .ok term) (h : term.IsRepeated ∨ term.IsAssertion min) (hle : min ≤ max)
    (greedy : Bool) :
    ∃ constructor', constructor.quantifyAtom min max greedy = .ok constructor' ∧ ∀ c x z,
      TermsMatch c constructor'.terms x z ↔ ∃ y, TermsMatch c constructor.terms.dropLast x y ∧
        RepeatMatcher ((term.quantify 1 .quantifierFixedCount).Matches c) min.toNat (maximum min max) y z := by
  have hterms := lastTerm_eq_ok hlast
  have hremove : removeLastTerm constructor.terms = .ok constructor.terms.dropLast := by
    rw [hterms]
    cases constructor.terms.dropLast <;> simp [removeLastTerm]
  have happend : ∀ rest, (∀ c y z, TermsMatch c rest y z ↔
      RepeatMatcher ((term.quantify 1 .quantifierFixedCount).Matches c) min.toNat (maximum min max) y z) →
      ∀ c x z, TermsMatch c (constructor.terms.dropLast ++ rest) x z ↔ ∃ y, TermsMatch c constructor.terms.dropLast x y ∧
        RepeatMatcher ((term.quantify 1 .quantifierFixedCount).Matches c) min.toNat (maximum min max) y z :=
    fun rest hrest c x z => by simp only [termsMatch_append, hrest]
  rw [YarrPatternConstructor.quantifyAtom]
  by_cases hmax : max = 0
  · obtain rfl : min = 0 := UInt32.le_zero_iff.1 (hmax ▸ hle)
    rw [if_pos hmax, hremove]
    have hnone := happend [] fun c y z => by
      rw [hmax, TermsMatch]
      exact repeatMatcher_none.symm
    rw [List.append_nil] at hnone
    exact ⟨constructor.setTerms constructor.terms.dropLast, rfl, hnone⟩
  · rw [if_neg hmax, hlast]
    obtain hrepeated | hassertion := h
    · refine ⟨constructor.setTerms (constructor.terms.dropLast ++ YarrPatternConstructor.quantifiedTerms term min max greedy),
        ?_, happend _ (quantifiedTerms_match hrepeated hle greedy)⟩
      cases term with
      | term => rfl
      | parentheses type => cases type <;> first | rfl | cases hrepeated
    · have hrest := happend _ fun c y z => (assertion_matches hassertion hle c y z).symm
      unfold PatternTerm.IsAssertion at hassertion
      split at hassertion
      · by_cases hmin : min = 0
        · rw [if_pos hmin, List.append_nil] at hrest
          exact ⟨constructor.setTerms constructor.terms.dropLast, by rw [if_pos hmin, hremove]; rfl, hrest⟩
        · rw [if_neg hmin, ← hterms] at hrest
          exact ⟨constructor, by rw [if_neg hmin], hrest⟩
      · cases hassertion

/-- For `/a{2,5}/`. -/
theorem quantifyAtom_matches_character :
    let term := PatternTerm.term (.patternCharacter 97) {}
    ∃ constructor', (YarrPatternConstructor.appendTerm { pattern := { ignoreCase := false, multiline := false } }
        term).quantifyAtom 2 5 true = .ok constructor' ∧ ∀ c x z, TermsMatch c constructor'.terms x z ↔
      ∃ y, TermsMatch c [] x y ∧ RepeatMatcher ((term.quantify 1 .quantifierFixedCount).Matches c) 2 (some 5) y z := by
  intro term
  have hrepeated : term.IsRepeated := trivial
  exact quantifyAtom_matches rfl (.inl hrepeated) (by decide) true

end WebKit.Yarr
