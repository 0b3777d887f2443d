import WebKit.Yarr.YarrPatternOffsets

/-!
# When `compile` returns

Two kinds of patterns stop the process. In an expression in dot stars the search for groups that capture reads the terms of
an alternative up to `size - 1`, which is the greatest number if there are none (`containsCapturingTerms_eq`). And the
positions of terms may be too great for 32 bits. `compile_returns` shows that every other pattern is compiled.
-/

namespace WebKit.Yarr

open WebKit.WTF

/-! ## The search for groups that capture -/

/-- What the search comes across. -/
inductive Probe
  | capture
  | emptyAlternative
  deriving DecidableEq

mutual

/-- The probes of a term, in the order of the search, if it went on behind each of them. -/
@[grind =] def PatternTerm.probes : PatternTerm → List Probe
  | .term _ fields => if fields.capture then [.capture] else []
  | .parentheses .parenthesesSubpattern disjunction _ fields =>
    if fields.capture then [.capture] else disjunction.probes
  | .parentheses .parentheticalAssertion _ _ fields => if fields.capture then [.capture] else []

@[grind =] def PatternDisjunction.probes : PatternDisjunction → List Probe
  | ⟨alternatives, _, _, _⟩ => alternativesProbes alternatives

@[grind =] def alternativesProbes : List PatternAlternative → List Probe
  | [] => []
  | ⟨terms, _, _, _, _, _⟩ :: rest =>
    (if terms.isEmpty then [.emptyAlternative] else termsProbes terms) ++ alternativesProbes rest

@[grind =] def termsProbes : List PatternTerm → List Probe
  | [] => []
  | term :: rest => term.probes ++ termsProbes rest

end

/-- The search ends at the first probe. -/
def searchOutcome : List Probe → Except Fault Bool
  | [] => .ok false
  | .capture :: _ => .ok true
  | .emptyAlternative :: _ => .error .termIndex

theorem searchOutcome_append (probes more : List Probe) :
    searchOutcome (probes ++ more) =
      match searchOutcome probes with
      | .ok false => searchOutcome more
      | result => result := by
  cases probes with
  | nil => rfl
  | cons probe probes => cases probe <;> rfl

theorem searchOutcome_ite (p : Prop) [Decidable p] :
    searchOutcome (if p then [.capture] else []) = .ok (decide p) := by
  by_cases h : p <;> simp [h, searchOutcome]

mutual

/-- The search in the first `count` terms, by induction on the terms. -/
theorem containsCapturingTermsFrom_eq : (terms : List PatternTerm) → ∀ (count : Nat), count ≤ terms.length →
    containsCapturingTermsFrom count terms = searchOutcome (termsProbes (terms.take count))
  | [], count, h => by
    obtain rfl := Nat.le_zero.mp h
    rfl
  | term :: rest, 0, _ => rfl
  | term :: rest, count + 1, h => by
    have hterm := term.containsCapturing_eq
    have hrest := containsCapturingTermsFrom_eq rest count (Nat.le_of_succ_le_succ h)
    rw [containsCapturingTermsFrom, List.take_succ_cons, termsProbes, hterm, hrest]
    exact (searchOutcome_append _ _).symm

theorem PatternTerm.containsCapturing_eq : (term : PatternTerm) →
    term.containsCapturing = searchOutcome term.probes
  | .term _ fields => by
    rw [PatternTerm.containsCapturing, PatternTerm.probes, searchOutcome_ite, Bool.decide_eq_true]
  | .parentheses .parenthesesSubpattern disjunction _ fields => by
    rw [PatternTerm.containsCapturing, PatternTerm.probes]
    split
    · rfl
    · exact disjunction.containsCapturing_eq
  | .parentheses .parentheticalAssertion _ _ fields => by
    rw [PatternTerm.containsCapturing, PatternTerm.probes, searchOutcome_ite, Bool.decide_eq_true]

theorem PatternDisjunction.containsCapturing_eq : (disjunction : PatternDisjunction) →
    disjunction.containsCapturing = searchOutcome disjunction.probes
  | ⟨alternatives, _, _, _⟩ => by
    rw [PatternDisjunction.containsCapturing, PatternDisjunction.probes]
    exact containsCapturingAlternatives_eq alternatives

theorem containsCapturingAlternatives_eq : (alternatives : List PatternAlternative) →
    containsCapturingAlternatives alternatives = searchOutcome (alternativesProbes alternatives)
  | [] => rfl
  | ⟨[], _, _, _, _, _⟩ :: rest => by
    -- The last index is the greatest number of 64 bits, and there is no term 0.
    rw [containsCapturingAlternatives, alternativesProbes]
    rfl
  | ⟨term :: terms, _, _, _, _, _⟩ :: rest => by
    have hterms := containsCapturingTermsFrom_eq (term :: terms) (term :: terms).length (Nat.le_refl _)
    have hrest := containsCapturingAlternatives_eq rest
    have hcount : sizeMinusOne (term :: terms).length + 1 = (term :: terms).length := rfl
    rw [containsCapturingAlternatives, alternativesProbes, hcount, hterms, List.take_length, hrest,
      List.isEmpty_cons, if_neg Bool.false_ne_true]
    exact (searchOutcome_append _ _).symm

end

theorem containsCapturingTerms_eq {terms : List PatternTerm} {first last : Nat} (hfirst : first ≤ last)
    (hlast : last < terms.length) :
    containsCapturingTerms terms first last = searchOutcome (termsProbes ((terms.take (last + 1)).drop first)) := by
  rw [containsCapturingTerms, containsCapturingTermsFrom_eq _ _ (by rw [List.length_drop]; omega), List.drop_take]
  congr 3
  omega

/-! ## Expressions in dot stars -/

theorem termAt_of_lt {terms : List PatternTerm} {n : Nat} (h : n < terms.length) : termAt terms n = .ok terms[n] := by
  rw [termAt, List.getElem?_eq_getElem h]

theorem sizeMinusOne_of_pos {n : Nat} (h : 0 < n) : sizeMinusOne n = n - 1 := if_neg (Nat.ne_of_gt h)

/-- A term that takes no characters. -/
def PatternTerm.Weightless (term : PatternTerm) : Prop := term.size = 0 ∧ ∀ position, term.Fits position

theorem weightless_of_isAssertionBOL {term : PatternTerm} (h : term.isAssertionBOL = true) : term.Weightless := by
  cases term with
  | term type fields =>
    cases type with
    | assertionBOL => exact ⟨rfl, fun _ => trivial⟩
    | _ => exact absurd h (by simp [PatternTerm.isAssertionBOL])
  | parentheses _ _ _ _ => exact absurd h (by simp [PatternTerm.isAssertionBOL])

theorem weightless_of_isAssertionEOL {term : PatternTerm} (h : term.isAssertionEOL = true) : term.Weightless := by
  cases term with
  | term type fields =>
    cases type with
    | assertionEOL => exact ⟨rfl, fun _ => trivial⟩
    | _ => exact absurd h (by simp [PatternTerm.isAssertionEOL])
  | parentheses _ _ _ _ => exact absurd h (by simp [PatternTerm.isAssertionEOL])

theorem weightless_of_isFirstDotStar {term : PatternTerm} (h : term.isFirstDotStar = true) : term.Weightless := by
  rw [PatternTerm.isFirstDotStar, Bool.and_eq_true, decide_eq_true_eq] at h
  cases term with
  | term type fields =>
    cases type with
    | characterClass characterClass =>
      exact ⟨if_neg h.2, fun _ => trivial⟩
    | _ => exact absurd h.1 (by simp [PatternTerm.isNewlineClass])
  | parentheses _ _ _ _ => exact absurd h.1 (by simp [PatternTerm.isNewlineClass])

theorem isFirstDotStar_of_isLastDotStar {term : PatternTerm} (h : term.isLastDotStar = true) :
    term.isFirstDotStar = true := by
  rw [PatternTerm.isLastDotStar, Bool.and_eq_true, decide_eq_true_eq] at h
  rw [PatternTerm.isFirstDotStar, h.1, h.2]
  rfl

/-- What the tests find: the expression, and terms of no weight around it. -/
structure IsWrapped (terms : List PatternTerm) (wrapped : DotStarWrapped) : Prop where
  first_le : wrapped.firstExpressionTerm ≤ wrapped.lastExpressionTerm
  last_lt : wrapped.lastExpressionTerm < terms.length
  before : ∀ term ∈ terms.take wrapped.firstExpressionTerm, term.Weightless
  behind : ∀ term ∈ terms.drop (wrapped.lastExpressionTerm + 1), term.Weightless
  last : ∃ type fields, terms.getLast? = some (.term type fields)

theorem PatternTerm.exists_term_of_isNewlineClass {term : PatternTerm} (h : term.isNewlineClass = true) :
    ∃ type fields, term = .term type fields := by
  cases term with
  | term type fields => exact ⟨type, fields, rfl⟩
  | parentheses _ _ _ _ => exact absurd h (by simp [PatternTerm.isNewlineClass])

theorem PatternTerm.exists_term_of_isAssertionEOL {term : PatternTerm} (h : term.isAssertionEOL = true) :
    ∃ type fields, term = .term type fields := by
  cases term with
  | term type fields => exact ⟨type, fields, rfl⟩
  | parentheses _ _ _ _ => exact absurd h (by simp [PatternTerm.isAssertionEOL])

theorem forall_take_succ {terms : List PatternTerm} {p : PatternTerm → Prop} {n : Nat} (hn : n < terms.length)
    (h : ∀ term ∈ terms.take n, p term) (hterm : p terms[n]) : ∀ term ∈ terms.take (n + 1), p term := by
  intro term hmem
  rw [List.take_succ_eq_append_getElem hn, List.mem_append, List.mem_singleton] at hmem
  rcases hmem with hmem | rfl
  · exact h term hmem
  · exact hterm

theorem forall_drop_of_succ {terms : List PatternTerm} {p : PatternTerm → Prop} {n : Nat} (hn : n < terms.length)
    (h : ∀ term ∈ terms.drop (n + 1), p term) (hterm : p terms[n]) : ∀ term ∈ terms.drop n, p term := by
  intro term hmem
  rw [List.drop_eq_getElem_cons hn, List.mem_cons] at hmem
  rcases hmem with rfl | hmem
  · exact hterm
  · exact h term hmem

/-- **The tests read no term behind the end.** -/
theorem dotStarWrapped_ok (terms : List PatternTerm) :
    ∃ result, dotStarWrapped terms = .ok result ∧ ∀ wrapped, result = some wrapped → IsWrapped terms wrapped := by
  rw [dotStarWrapped]
  split
  · exact ⟨none, rfl, fun wrapped h => absurd h (by simp)⟩
  · rename_i hlength
    have hzero : 0 < terms.length := by omega
    have hminus : sizeMinusOne terms.length = terms.length - 1 := sizeMinusOne_of_pos hzero
    have hminus' : sizeMinusOne (terms.length - 1) = terms.length - 2 := sizeMinusOne_of_pos (by omega)
    have hlastLt : terms.length - 1 < terms.length := by omega
    simp only [termAt_of_lt hzero, hminus, hminus', termAt_of_lt hlastLt, bind, Except.bind]
    have hnone : ∀ term ∈ terms.take 0, term.Weightless := fun _ hmem => absurd hmem (by simp)
    have hempty : ∀ term ∈ terms.drop (terms.length - 1 + 1), term.Weightless := by
      intro term hmem
      rw [Nat.sub_add_cancel hzero, List.drop_length] at hmem
      exact absurd hmem List.not_mem_nil
    obtain ⟨first, hfirst, hfirstLt, hbefore⟩ : ∃ first, (if terms[0].isAssertionBOL = true then 1 else 0) = first ∧
        first < terms.length ∧ ∀ term ∈ terms.take first, term.Weightless := by
      split
      · rename_i hBOL
        exact ⟨1, rfl, by omega, forall_take_succ hzero hnone (weightless_of_isAssertionBOL hBOL)⟩
      · exact ⟨0, rfl, hzero, hnone⟩
    obtain ⟨last, hlast, hlastPos, hlastLt', hbehind, hterm⟩ : ∃ last,
        (if terms[terms.length - 1].isAssertionEOL = true then terms.length - 2 else terms.length - 1) = last ∧
          0 < last ∧ last < terms.length ∧ (∀ term ∈ terms.drop (last + 1), term.Weightless) ∧
          ((∃ type fields, terms[terms.length - 1] = .term type fields) ∨ last = terms.length - 1) := by
      split
      · rename_i hEOL
        have hsucc : terms.length - 2 + 1 = terms.length - 1 := by omega
        refine ⟨terms.length - 2, rfl, by omega, by omega, ?_, .inl (PatternTerm.exists_term_of_isAssertionEOL hEOL)⟩
        rw [hsucc]
        exact forall_drop_of_succ hlastLt hempty (weightless_of_isAssertionEOL hEOL)
      · exact ⟨terms.length - 1, rfl, by omega, hlastLt, hempty, .inr rfl⟩
    simp only [hfirst, hlast, termAt_of_lt hfirstLt, termAt_of_lt hlastLt', sizeMinusOne_of_pos hlastPos]
    refine ⟨_, rfl, ?_⟩
    intro wrapped h
    split at h
    · rename_i htests
      obtain rfl := Option.some.inj h
      rw [Bool.and_eq_true, Bool.and_eq_true, decide_eq_true_eq] at htests
      obtain ⟨⟨hdot, hdot'⟩, hle⟩ := htests
      have hlastDot := isFirstDotStar_of_isLastDotStar hdot'
      refine ⟨hle, Nat.lt_of_le_of_lt (Nat.sub_le _ _) hlastLt', forall_take_succ hfirstLt hbefore (weightless_of_isFirstDotStar hdot), ?_, ?_⟩
      · rw [Nat.sub_add_cancel hlastPos]
        exact forall_drop_of_succ hlastLt' hbehind (weightless_of_isFirstDotStar hlastDot)
      · rw [List.getLast?_eq_getElem?, List.getElem?_eq_getElem hlastLt]
        rcases hterm with ⟨type, fields, hterm⟩ | rfl
        · exact ⟨type, fields, congrArg some hterm⟩
        · rw [PatternTerm.isFirstDotStar, Bool.and_eq_true] at hlastDot
          obtain ⟨type, fields, hterm⟩ := PatternTerm.exists_term_of_isNewlineClass hlastDot.1
          exact ⟨type, fields, congrArg some hterm⟩
    · exact absurd h (by simp)

/-! ## Positions around an expression -/

theorem termsSize_append (terms more : List PatternTerm) : termsSize (terms ++ more) = termsSize terms + termsSize more := by
  induction terms with
  | nil => rw [List.nil_append, termsSize, Nat.zero_add]
  | cons term rest ih => rw [List.cons_append, termsSize, ih, termsSize, Nat.add_assoc]

theorem termsFit_append (terms more : List PatternTerm) (position : Nat) :
    TermsFit (terms ++ more) position ↔ TermsFit terms position ∧ TermsFit more (position + termsSize terms) := by
  induction terms generalizing position with
  | nil => simp [TermsFit, termsSize]
  | cons term rest ih => rw [List.cons_append, TermsFit, ih, TermsFit, termsSize, Nat.add_assoc, ← and_assoc]

theorem termsFit_weightless {terms : List PatternTerm} (h : ∀ term ∈ terms, term.Weightless) {position : Nat}
    (hposition : position < 2 ^ 32) : TermsFit terms position ∧ termsSize terms = 0 := by
  induction terms with
  | nil => exact ⟨trivial, rfl⟩
  | cons term rest ih =>
    obtain ⟨hsize, hfits⟩ := h term List.mem_cons_self
    obtain ⟨hrest, hrestSize⟩ := ih fun term' hmem => h term' (List.mem_cons_of_mem _ hmem)
    rw [TermsFit, termsSize, hsize, hrestSize]
    exact ⟨⟨⟨hfits position, hposition⟩, hrest⟩, rfl⟩

theorem termsFit_lt {terms : List PatternTerm} {position : Nat} (hposition : position < 2 ^ 32)
    (h : TermsFit terms position) : position + termsSize terms < 2 ^ 32 := by
  induction terms generalizing position with
  | nil => exact hposition
  | cons term rest ih =>
    have hrest := ih h.1.2 h.2
    rw [termsSize, ← Nat.add_assoc]
    exact hrest

theorem termsFit_unwrap {terms : List PatternTerm} {wrapped : DotStarWrapped} (h : IsWrapped terms wrapped) :
    TermsFit terms 0 ↔ TermsFit ((terms.take (wrapped.lastExpressionTerm + 1)).drop wrapped.firstExpressionTerm) 0 := by
  have hsplit : terms = (terms.take wrapped.firstExpressionTerm ++
      (terms.take (wrapped.lastExpressionTerm + 1)).drop wrapped.firstExpressionTerm) ++
      terms.drop (wrapped.lastExpressionTerm + 1) := by
    have htake : terms.take wrapped.firstExpressionTerm =
        (terms.take (wrapped.lastExpressionTerm + 1)).take wrapped.firstExpressionTerm := by
      rw [List.take_take, Nat.min_eq_left (Nat.le_succ_of_le h.first_le)]
    rw [htake, List.take_append_drop, List.take_append_drop]
  obtain ⟨hbefore, hsize⟩ := termsFit_weightless h.before (by decide : 0 < 2 ^ 32)
  conv_lhs => rw [hsplit]
  rw [termsFit_append, termsFit_append, termsSize_append, hsize, Nat.zero_add, Nat.zero_add]
  constructor
  · exact fun hfits => hfits.1.2
  · intro hfits
    exact ⟨⟨hbefore, hfits⟩, (termsFit_weightless h.behind (termsFit_lt (by decide) hfits)).1⟩

/-! ## Terminal parentheses -/

theorem markTerminal_size (term : PatternTerm) : term.markTerminal.size = term.size := by
  cases term with
  | term _ _ => rfl
  | parentheses type _ _ _ =>
    cases type with
    | parenthesesSubpattern =>
      rw [PatternTerm.markTerminal]
      split <;> rfl
    | parentheticalAssertion => rfl

theorem markTerminal_fits (term : PatternTerm) (position : Nat) :
    term.markTerminal.Fits position ↔ term.Fits position := by
  cases term with
  | term _ _ => exact Iff.rfl
  | parentheses type _ _ _ =>
    cases type with
    | parenthesesSubpattern =>
      rw [PatternTerm.markTerminal]
      split <;> exact Iff.rfl
    | parentheticalAssertion => exact Iff.rfl

theorem markTerminal_copyTerm (filter : Bool) (term : PatternTerm) :
    term.markTerminal.copyTerm filter = (term.copyTerm filter).markTerminal := by
  cases term with
  | term _ _ => rfl
  | parentheses type _ _ _ =>
    cases type with
    | parenthesesSubpattern =>
      rw [PatternTerm.markTerminal, PatternTerm.copyTerm, PatternTerm.markTerminal]
      split <;> rfl
    | parentheticalAssertion => rfl

theorem markTerminal_complete {term : PatternTerm} :
    (term.markTerminal.WellFormed ↔ term.WellFormed) ∧ (term.markTerminal.KeepsAlternative ↔ term.KeepsAlternative) := by
  cases term with
  | term _ _ => exact ⟨Iff.rfl, Iff.rfl⟩
  | parentheses type _ _ _ =>
    cases type with
    | parenthesesSubpattern =>
      rw [PatternTerm.markTerminal]
      split <;> exact ⟨Iff.rfl, Iff.rfl⟩
    | parentheticalAssertion => exact ⟨Iff.rfl, Iff.rfl⟩

theorem termsFit_modifyLast (terms : List PatternTerm) (position : Nat) :
    TermsFit (modifyLast PatternTerm.markTerminal terms) position ↔ TermsFit terms position := by
  induction terms generalizing position with
  | nil => exact Iff.rfl
  | cons term rest ih =>
    cases rest with
    | nil => rw [modifyLast, TermsFit, TermsFit, markTerminal_size, markTerminal_fits, TermsFit, TermsFit]
    | cons next rest => exact and_congr Iff.rfl (ih (position + term.size))

theorem copyTerms_modifyLast (filter : Bool) (terms : List PatternTerm) :
    copyTerms filter (modifyLast PatternTerm.markTerminal terms) =
      modifyLast PatternTerm.markTerminal (copyTerms filter terms) := by
  induction terms with
  | nil => rfl
  | cons term rest ih =>
    cases rest with
    | nil => simp only [modifyLast, copyTerms, markTerminal_copyTerm]
    | cons next rest =>
      rw [modifyLast, copyTerms, ih]
      simp only [copyTerms, modifyLast]

theorem forall_modifyLast {terms : List PatternTerm} {p : PatternTerm → Prop} (h : ∀ term ∈ terms, p term)
    (hmark : ∀ term, p term → p term.markTerminal) :
    ∀ term ∈ modifyLast PatternTerm.markTerminal terms, p term := by
  induction terms with
  | nil => exact h
  | cons term rest ih =>
    cases rest with
    | nil =>
      intro term' hmem
      rw [modifyLast, List.mem_singleton] at hmem
      exact hmem ▸ hmark term (h term List.mem_cons_self)
    | cons next rest =>
      rw [modifyLast, List.forall_mem_cons]
      exact ⟨h term List.mem_cons_self, ih fun term' hmem => h term' (List.mem_cons_of_mem _ hmem)⟩

theorem modifyLast_concat (f : PatternTerm → PatternTerm) (terms : List PatternTerm) (term : PatternTerm) :
    modifyLast f (terms ++ [term]) = terms ++ [f term] := by
  induction terms with
  | nil => rfl
  | cons first rest ih =>
    cases rest with
    | nil => rfl
    | cons next rest => exact congrArg (first :: ·) ih

theorem dotStarWrapped_parentheses (terms : List PatternTerm) (type : ParenthesesType)
    (disjunction : PatternDisjunction) (ids : Parentheses) (fields : TermFields) :
    dotStarWrapped (terms ++ [.parentheses type disjunction ids fields]) = .ok none := by
  obtain ⟨result, hok, hwrapped⟩ := dotStarWrapped_ok (terms ++ [.parentheses type disjunction ids fields])
  cases result with
  | none => exact hok
  | some wrapped =>
    obtain ⟨type', fields', hlast⟩ := (hwrapped wrapped rfl).last
    rw [List.getLast?_append, List.getLast?_singleton, Option.some_or] at hlast
    exact absurd hlast (by simp)

theorem modifyLast_markTerminal (terms : List PatternTerm) :
    modifyLast PatternTerm.markTerminal terms = terms ∨
      dotStarWrapped terms = .ok none ∧ dotStarWrapped (modifyLast PatternTerm.markTerminal terms) = .ok none := by
  rcases List.eq_nil_or_concat terms with rfl | ⟨terms, term, rfl⟩
  · exact .inl rfl
  · rw [List.concat_eq_append, modifyLast_concat]
    cases term with
    | term type fields => exact .inl rfl
    | parentheses type disjunction ids fields =>
      cases type with
      | parenthesesSubpattern =>
        rw [PatternTerm.markTerminal]
        split
        · exact .inr ⟨dotStarWrapped_parentheses .., dotStarWrapped_parentheses ..⟩
        · exact .inl rfl
      | parentheticalAssertion => exact .inl rfl

theorem alternativesFit_markTerminal (alternatives : List PatternAlternative) (position : Nat) :
    AlternativesFit (alternatives.map PatternAlternative.markTerminal) position ↔
      AlternativesFit alternatives position := by
  induction alternatives with
  | nil => exact Iff.rfl
  | cons alternative rest ih =>
    obtain ⟨terms, _, _, _, _, _⟩ := alternative
    rw [List.map_cons, PatternAlternative.markTerminal, AlternativesFit, termsFit_modifyLast, ih, AlternativesFit]

theorem copyAlternatives_markTerminal (filter : Bool) (alternatives : List PatternAlternative) :
    copyAlternatives filter (alternatives.map PatternAlternative.markTerminal) =
      (copyAlternatives filter alternatives).map PatternAlternative.markTerminal := by
  induction alternatives with
  | nil => rfl
  | cons alternative rest ih =>
    obtain ⟨terms, _, _, _, startsWithBOL, _⟩ := alternative
    rw [List.map_cons, PatternAlternative.markTerminal, copyAlternatives, copyAlternatives]
    split
    · exact ih
    · rw [ih, copyTerms_modifyLast]
      rfl

theorem alternativesWellFormed_markTerminal {alternatives : List PatternAlternative}
    (h : ∀ alternative ∈ alternatives, alternative.WellFormed) :
    ∀ alternative ∈ alternatives.map PatternAlternative.markTerminal, alternative.WellFormed := by
  intro marked hmarked
  obtain ⟨alternative, hmem, rfl⟩ := List.mem_map.mp hmarked
  obtain ⟨hterms, hkeep⟩ := h alternative hmem
  rw [termsWellFormed_iff] at hterms
  constructor
  · rw [termsWellFormed_iff]
    exact forall_modifyLast hterms fun term hterm => markTerminal_complete.1.mpr hterm
  · intro hflag
    exact forall_modifyLast (hkeep hflag) fun term hterm => markTerminal_complete.2.mpr hterm

/-! ## Patterns that are compiled -/

/-- The expression in dot stars that the tests of `optimizeDotStarWrappedExpressions` find. -/
def YarrPattern.DotStarExpression (pattern : YarrPattern) (expression : List PatternTerm) : Prop :=
  ∃ alternative wrapped, pattern.body.alternatives = [alternative] ∧
    dotStarWrapped alternative.terms = .ok (some wrapped) ∧
    expression = (alternative.terms.take (wrapped.lastExpressionTerm + 1)).drop wrapped.firstExpressionTerm

/-- What the passes need of a pattern. -/
structure YarrPattern.Compilable (pattern : YarrPattern) : Prop where
  /-- In an expression in dot stars no alternative without terms comes before the first group that captures. -/
  search : ∀ expression, pattern.DotStarExpression expression →
    (termsProbes expression).head? ≠ some .emptyAlternative
  positions : pattern.body.Fits 0
  /-- The copy without the alternatives that start with `^`, which is not made if the dot stars are removed. -/
  loopPositions : pattern.containsBOL = true → pattern.multiline = false →
    (∀ expression, pattern.DotStarExpression expression → termsProbes expression ≠ []) →
    ∀ loop, pattern.body.copyDisjunction true = some loop → loop.Fits 0

theorem PatternDisjunction.fits_iff (disjunction : PatternDisjunction) (position : Nat) :
    disjunction.Fits position ↔ AlternativesFit disjunction.alternatives position := by
  obtain ⟨alternatives, _, _, _⟩ := disjunction
  exact Iff.rfl

theorem PatternDisjunction.copyDisjunction_eq (disjunction : PatternDisjunction) (filter : Bool) :
    disjunction.copyDisjunction filter =
      match copyAlternatives filter disjunction.alternatives with
      | [] => none
      | alternative :: rest => some { alternatives := alternative :: rest } := by
  obtain ⟨alternatives, _, _, _⟩ := disjunction
  rfl

theorem PatternDisjunction.forall_copy_fits (disjunction : PatternDisjunction) (filter : Bool) (position : Nat) :
    (∀ loop, disjunction.copyDisjunction filter = some loop → loop.Fits position) ↔
      AlternativesFit (copyAlternatives filter disjunction.alternatives) position := by
  rw [PatternDisjunction.copyDisjunction_eq]
  cases copyAlternatives filter disjunction.alternatives with
  | nil => simp [AlternativesFit]
  | cons alternative rest => simp [PatternDisjunction.fits_iff]

theorem compilable_checkForTerminalParentheses (pattern : YarrPattern) :
    (checkForTerminalParentheses pattern).Compilable ↔ pattern.Compilable := by
  rw [checkForTerminalParentheses]
  split
  · exact Iff.rfl
  · have hexpression : ∀ expression, YarrPattern.DotStarExpression
        { pattern with
          body :=
            { pattern.body with alternatives := pattern.body.alternatives.map PatternAlternative.markTerminal } }
        expression ↔ pattern.DotStarExpression expression := by
      intro expression
      constructor
      · rintro ⟨marked, wrapped, halternatives, hwrapped, rfl⟩
        rw [List.map_eq_singleton_iff] at halternatives
        obtain ⟨alternative, halternatives, rfl⟩ := halternatives
        rcases modifyLast_markTerminal alternative.terms with hsame | ⟨-, hnone⟩
        · rw [PatternAlternative.markTerminal, hsame] at hwrapped ⊢
          exact ⟨alternative, wrapped, halternatives, hwrapped, rfl⟩
        · exact absurd (hwrapped.symm.trans hnone) (by simp)
      · rintro ⟨alternative, wrapped, halternatives, hwrapped, rfl⟩
        rcases modifyLast_markTerminal alternative.terms with hsame | ⟨hnone, -⟩
        · refine ⟨alternative.markTerminal, wrapped, ?_, ?_, ?_⟩
          · exact List.map_eq_singleton_iff.mpr ⟨alternative, halternatives, rfl⟩
          · rw [PatternAlternative.markTerminal, hsame, hwrapped]
          · rw [PatternAlternative.markTerminal, hsame]
        · exact absurd (hwrapped.symm.trans hnone) (by simp)
    have hfits : ∀ filter, AlternativesFit (copyAlternatives filter
        (pattern.body.alternatives.map PatternAlternative.markTerminal)) 0 ↔
          AlternativesFit (copyAlternatives filter pattern.body.alternatives) 0 := by
      intro filter
      rw [copyAlternatives_markTerminal, alternativesFit_markTerminal]
    constructor
    · rintro ⟨hsearch, hpositions, hloop⟩
      refine ⟨?_, ?_, ?_⟩
      · exact fun expression h => hsearch expression ((hexpression expression).mpr h)
      · rw [PatternDisjunction.fits_iff] at hpositions ⊢
        exact (alternativesFit_markTerminal _ _).mp hpositions
      · intro hBOL hmultiline hprobes
        rw [PatternDisjunction.forall_copy_fits]
        have h := hloop hBOL hmultiline fun expression h => hprobes expression ((hexpression expression).mp h)
        rw [PatternDisjunction.forall_copy_fits] at h
        exact (hfits true).mp h
    · rintro ⟨hsearch, hpositions, hloop⟩
      refine ⟨?_, ?_, ?_⟩
      · exact fun expression h => hsearch expression ((hexpression expression).mp h)
      · rw [PatternDisjunction.fits_iff] at hpositions ⊢
        exact (alternativesFit_markTerminal _ _).mpr hpositions
      · intro hBOL hmultiline hprobes
        rw [PatternDisjunction.forall_copy_fits]
        have h := hloop hBOL hmultiline fun expression h => hprobes expression ((hexpression expression).mpr h)
        rw [PatternDisjunction.forall_copy_fits] at h
        exact (hfits true).mpr h

theorem checkForTerminalParentheses_wellFormed {pattern : YarrPattern} (h : pattern.body.WellFormed) :
    (checkForTerminalParentheses pattern).body.WellFormed := by
  rw [checkForTerminalParentheses]
  split
  · exact h
  · rw [PatternDisjunction.wellFormed_iff] at h ⊢
    refine ⟨?_, alternativesWellFormed_markTerminal h.2⟩
    exact fun hnil => h.1 (List.map_eq_nil_iff.mp hnil)

theorem alternativesFit_append (alternatives more : List PatternAlternative) (position : Nat) :
    AlternativesFit (alternatives ++ more) position ↔
      AlternativesFit alternatives position ∧ AlternativesFit more position := by
  induction alternatives with
  | nil => exact ⟨fun h => ⟨trivial, h⟩, fun h => h.2⟩
  | cons alternative rest ih =>
    obtain ⟨terms, _, _, _, _, _⟩ := alternative
    rw [List.cons_append, AlternativesFit, ih, AlternativesFit, and_assoc]

theorem alternativesFit_setOnceThrough (alternatives : List PatternAlternative) (position : Nat) :
    AlternativesFit (alternatives.map PatternAlternative.setOnceThrough) position ↔
      AlternativesFit alternatives position := by
  induction alternatives with
  | nil => exact Iff.rfl
  | cons alternative rest ih =>
    obtain ⟨terms, _, _, _, _, _⟩ := alternative
    rw [List.map_cons, PatternAlternative.setOnceThrough, AlternativesFit, ih, AlternativesFit]

theorem alternativesFit_singleton (alternative : PatternAlternative) (position : Nat) :
    AlternativesFit [alternative] position ↔ TermsFit alternative.terms position := by
  obtain ⟨terms, _, _, _, _, _⟩ := alternative
  rw [AlternativesFit, AlternativesFit, and_true]

theorem setupOffsets_ok {pattern : YarrPattern} (h : pattern.body.WellFormed) :
    (∃ result, setupOffsets pattern = .ok result) ↔ pattern.body.Fits 0 := by
  have hsized := pattern.body.setupOffsets_sized ⟨[], false, id⟩ true 0 0 pattern.containsUnsignedLengthPattern
  rw [setupOffsets]
  cases hsetup : pattern.body.setupOffsets true 0 0 pattern.containsUnsignedLengthPattern with
  | error fault =>
    rw [hsetup] at hsized
    constructor
    · rintro ⟨result, hresult⟩
      exact absurd hresult (by simp [Except.map])
    · exact fun hfits => absurd hfits (hsized h).2
  | ok result =>
    rw [hsetup] at hsized
    exact ⟨fun _ => hsized.1, fun _ => ⟨_, rfl⟩⟩

/-- The last two passes. -/
theorem optimizeBOL_ok {pattern : YarrPattern} (h : pattern.body.WellFormed) :
    (∃ result, setupOffsets (optimizeBOL pattern) = .ok result) ↔
      pattern.body.Fits 0 ∧ (pattern.containsBOL = true → pattern.multiline = false →
        ∀ loop, pattern.body.copyDisjunction true = some loop → loop.Fits 0) := by
  rw [optimizeBOL]
  split
  · rename_i hskip
    rw [setupOffsets_ok h]
    refine ⟨fun hfits => ⟨hfits, fun hBOL hmultiline => ?_⟩, fun hfits => hfits.1⟩
    exact absurd hskip (by simp [hBOL, hmultiline])
  · rename_i hloop
    rw [Bool.or_eq_true, not_or, Bool.not_eq_true', Bool.not_eq_false, Bool.not_eq_true] at hloop
    have hcopy : loopAlternatives (pattern.body.copyDisjunction true) =
        copyAlternatives true pattern.body.alternatives := by
      rw [PatternDisjunction.copyDisjunction_eq]
      cases copyAlternatives true pattern.body.alternatives <;> rfl
    rw [PatternDisjunction.wellFormed_iff] at h
    simp only [hcopy]
    rw [setupOffsets_ok]
    · rw [PatternDisjunction.fits_iff, alternativesFit_append, alternativesFit_setOnceThrough,
        PatternDisjunction.fits_iff, PatternDisjunction.forall_copy_fits]
      exact ⟨fun hfits => ⟨hfits.1, fun _ _ => hfits.2⟩, fun hfits => ⟨hfits.1, hfits.2 hloop.1 hloop.2⟩⟩
    · rw [PatternDisjunction.wellFormed_iff]
      refine ⟨?_, fun alternative hmem => ?_⟩
      · exact fun hnil => h.1 (List.map_eq_nil_iff.mp (List.append_eq_nil_iff.mp hnil).1)
      · rcases List.mem_append.mp hmem with hmem | hmem
        · obtain ⟨original, horiginal, rfl⟩ := List.mem_map.mp hmem
          exact h.2 original horiginal
        · have hcopies := copyAlternatives_wellFormed true _ (alternativesWellFormed_iff.mpr h.2)
          exact alternativesWellFormed_iff.mp hcopies.1 alternative hmem

theorem unwrapDotStars_wellFormed {pattern : YarrPattern} (h : pattern.body.WellFormed)
    {alternative : PatternAlternative} (halternatives : pattern.body.alternatives = [alternative])
    (wrapped : DotStarWrapped) :
    PatternDisjunction.WellFormed { pattern.body with alternatives := [alternative.unwrapDotStars wrapped] } := by
  rw [PatternDisjunction.wellFormed_iff] at h ⊢
  obtain ⟨hterms, hkeep⟩ := h.2 alternative (halternatives ▸ List.mem_cons_self)
  rw [termsWellFormed_iff] at hterms
  have hmem : ∀ term ∈ (alternative.unwrapDotStars wrapped).terms,
      term ∈ alternative.terms ∨ term = .term (.dotStarEnclosure wrapped.startsWithBOL wrapped.endsWithEOL) {} := by
    intro term hmem
    rw [PatternAlternative.unwrapDotStars, List.mem_append, List.mem_singleton] at hmem
    exact hmem.imp_left fun hmem => List.mem_of_mem_take (List.mem_of_mem_drop hmem)
  refine ⟨List.cons_ne_nil _ _, fun unwrapped hunwrapped => ?_⟩
  obtain rfl := List.mem_singleton.mp hunwrapped
  constructor
  · rw [termsWellFormed_iff]
    intro term hterm
    rcases hmem term hterm with hterm | rfl
    · exact hterms term hterm
    · exact trivial
  · intro hflag term hterm
    rcases hmem term hterm with hterm | rfl
    · exact hkeep hflag term hterm
    · exact trivial

/-- The passes behind the check for terminal parentheses. -/
theorem optimizeDotStar_ok {pattern : YarrPattern} (h : pattern.body.WellFormed) :
    (∃ result, (optimizeDotStarWrappedExpressions pattern).bind (fun pattern => setupOffsets (optimizeBOL pattern)) =
      .ok result) ↔ pattern.Compilable := by
  -- Without a rewrite the last two passes decide.
  have hsame : (∀ expression, pattern.DotStarExpression expression → (termsProbes expression).head? = some .capture) →
      ((∃ result, setupOffsets (optimizeBOL pattern) = .ok result) ↔ pattern.Compilable) := by
    intro hcapture
    rw [optimizeBOL_ok h]
    constructor
    · rintro ⟨hfits, hloop⟩
      refine ⟨fun expression hexpression => ?_, hfits, fun hBOL hmultiline _ => hloop hBOL hmultiline⟩
      rw [hcapture expression hexpression]
      decide
    · rintro ⟨-, hfits, hloop⟩
      refine ⟨hfits, fun hBOL hmultiline => hloop hBOL hmultiline fun expression hexpression hnil => ?_⟩
      exact absurd (hcapture expression hexpression) (by simp [hnil])
  rw [optimizeDotStarWrappedExpressions]
  split
  · rename_i alternative halternatives
    obtain ⟨wrapped, hok, hwrapped⟩ := dotStarWrapped_ok alternative.terms
    rw [hok]
    cases wrapped with
    | none =>
      refine hsame fun expression hexpression => ?_
      obtain ⟨other, wrapped, hother, hsome, -⟩ := hexpression
      obtain rfl := List.singleton_inj.mp (halternatives.symm.trans hother)
      exact absurd (hok.symm.trans hsome) (by simp)
    | some wrapped =>
      have hiswrapped := hwrapped wrapped rfl
      have hunique : ∀ expression, pattern.DotStarExpression expression → expression =
          (alternative.terms.take (wrapped.lastExpressionTerm + 1)).drop wrapped.firstExpressionTerm := by
        rintro expression ⟨other, wrapped', hother, hsome, rfl⟩
        obtain rfl := List.singleton_inj.mp (halternatives.symm.trans hother)
        obtain rfl := Option.some.inj (Except.ok.inj (hok.symm.trans hsome))
        rfl
      have hexpression : pattern.DotStarExpression
          ((alternative.terms.take (wrapped.lastExpressionTerm + 1)).drop wrapped.firstExpressionTerm) :=
        ⟨alternative, wrapped, halternatives, hok, rfl⟩
      simp only [containsCapturingTerms_eq hiswrapped.first_le hiswrapped.last_lt]
      cases hprobes : termsProbes
          ((alternative.terms.take (wrapped.lastExpressionTerm + 1)).drop wrapped.firstExpressionTerm) with
      | nil =>
        have hunwrap := unwrapDotStars_wellFormed h halternatives wrapped
        have hfits := termsFit_unwrap hiswrapped
        have hbody : pattern.body.Fits 0 ↔ TermsFit alternative.terms 0 := by
          rw [PatternDisjunction.fits_iff, halternatives, alternativesFit_singleton]
        have hunwrapped : PatternDisjunction.Fits
            { pattern.body with alternatives := [alternative.unwrapDotStars wrapped] } 0 ↔ pattern.body.Fits 0 := by
          rw [hbody, hfits, PatternDisjunction.fits_iff, alternativesFit_singleton]
          refine (termsFit_append _ _ 0).trans ?_
          rw [and_iff_left_iff_imp]
          intro hinner
          have hlt := termsFit_lt (by decide : 0 < 2 ^ 32) hinner
          exact ⟨⟨trivial, hlt⟩, trivial⟩
        refine (setupOffsets_ok hunwrap).trans (hunwrapped.trans ?_)
        constructor
        · intro hpositions
          refine ⟨fun expression h => ?_, hpositions, fun _ _ hne => absurd hprobes (hne _ hexpression)⟩
          rw [hunique expression h, hprobes]
          simp
        · exact fun hcompilable => hcompilable.positions
      | cons probe probes =>
        cases probe with
        | capture =>
          refine hsame fun expression h => ?_
          rw [hunique expression h, hprobes]
          rfl
        | emptyAlternative =>
          constructor
          · rintro ⟨result, hresult⟩
            exact absurd hresult (by simp [searchOutcome, Except.bind])
          · intro hcompilable
            exact absurd (hcompilable.search _ hexpression) (by simp [hprobes])
  · rename_i hne
    refine hsame fun expression hexpression => ?_
    obtain ⟨alternative, wrapped, halternatives, -⟩ := hexpression
    exact absurd halternatives (hne alternative)

/-- **A pattern goes through all passes exactly if it is compilable.** -/
theorem optimize_ok {pattern : YarrPattern} (h : pattern.body.WellFormed) :
    (∃ result, optimize pattern = .ok result) ↔ pattern.Compilable := by
  rw [optimize, optimizeDotStar_ok (checkForTerminalParentheses_wellFormed h), compilable_checkForTerminalParentheses]

/-- **`compile` ends for every pattern string**, and it returns an error or a pattern exactly if what it parsed is
compilable; no step before the passes over the whole pattern stops the process. -/
theorem compile_returns (patternString : List UChar) (ignoreCase multiline : Bool) :
    (compile patternString ignoreCase multiline).isSome = true ∧
      ((∃ result, compile patternString ignoreCase multiline = some (.ok result)) ↔
        ∀ pattern, parsePattern patternString ignoreCase multiline = some (.ok (.ok pattern)) →
          pattern.Compilable) := by
  obtain ⟨result, hparse, hwell⟩ := parsePattern_ok patternString ignoreCase multiline
  rw [compile, hparse]
  cases result with
  | error code => exact ⟨rfl, fun _ pattern h => absurd h (by simp), fun _ => ⟨_, rfl⟩⟩
  | ok pattern =>
    have hoptimize := optimize_ok (hwell pattern rfl)
    simp only
    refine ⟨rfl, ?_, ?_⟩
    · rintro ⟨result, hresult⟩ other hother
      obtain rfl : pattern = other := by simpa using hother
      rw [← hoptimize]
      cases hok : optimize pattern with
      | error fault => exact absurd hresult (by simp [hok, Except.map])
      | ok optimized => exact ⟨optimized, rfl⟩
    · intro hcompilable
      obtain ⟨optimized, hok⟩ := hoptimize.mpr (hcompilable pattern rfl)
      exact ⟨.ok optimized, by rw [hok]; rfl⟩

/-- The empty group between two dot stars stops the process. -/
theorem compile_empty_group :
    ¬∃ result, compile [ascii '.', ascii '*', ascii '(', ascii '?', ascii ':', ascii ')', ascii '.', ascii '*'] false false =
      some (.ok result) := by
  have hcompile : compile
      [ascii '.', ascii '*', ascii '(', ascii '?', ascii ':', ascii ')', ascii '.', ascii '*'] false false =
      some (.error .termIndex) := rfl
  rintro ⟨result, hresult⟩
  exact absurd (hcompile.symm.trans hresult) (by simp)

end WebKit.Yarr
