import WebKit.Yarr.YarrParserRuns
import WebKit.Yarr.YarrPatternCompile

/-!
# The constructor keeps its levels well formed

A disjunction is `WellFormed` if no disjunction in it is without alternatives, and if an alternative that holds a group
whose alternatives all start with `^` is flagged itself. So a copy without the flagged alternatives is well formed too
(`copyAlternatives_wellFormed`). `Inv` says what holds of the constructor between two tokens: there is a level for each
open group, whose term is the last one there. Every turn of the parser keeps it (`calls_turn`), and so a parse ends
without a fault (`parse_inv`).
-/

namespace WebKit.Yarr

open WebKit.WTF

/-! ## Well-formed disjunctions -/

/-- A copy without the flagged alternatives has some alternative left. -/
def PatternTerm.KeepsAlternative : PatternTerm → Prop
  | .term _ _ => True
  | .parentheses _ disjunction _ _ => ∃ alternative ∈ disjunction.alternatives, alternative.startsWithBOL = false

mutual

@[grind =] def PatternDisjunction.WellFormed : PatternDisjunction → Prop
  | ⟨alternatives, _, _, _⟩ => alternatives ≠ [] ∧ AlternativesWellFormed alternatives

@[grind =] def AlternativesWellFormed : List PatternAlternative → Prop
  | [] => True
  | ⟨terms, _, _, _, startsWithBOL, _⟩ :: rest =>
    (TermsWellFormed terms ∧ (startsWithBOL = false → ∀ term ∈ terms, term.KeepsAlternative)) ∧
      AlternativesWellFormed rest

@[grind =] def TermsWellFormed : List PatternTerm → Prop
  | [] => True
  | term :: rest => term.WellFormed ∧ TermsWellFormed rest

@[grind =] def PatternTerm.WellFormed : PatternTerm → Prop
  | .term _ _ => True
  | .parentheses _ disjunction _ _ => disjunction.WellFormed

end

/-- The part of `AlternativesWellFormed` for one alternative. -/
def PatternAlternative.WellFormed (alternative : PatternAlternative) : Prop :=
  TermsWellFormed alternative.terms ∧
    (alternative.startsWithBOL = false → ∀ term ∈ alternative.terms, term.KeepsAlternative)

theorem alternativesWellFormed_iff {alternatives : List PatternAlternative} :
    AlternativesWellFormed alternatives ↔ ∀ alternative ∈ alternatives, alternative.WellFormed := by
  induction alternatives with
  | nil => simp [AlternativesWellFormed]
  | cons alternative rest ih =>
    obtain ⟨terms, _, _, _, startsWithBOL, _⟩ := alternative
    rw [AlternativesWellFormed, ih, List.forall_mem_cons]
    rfl

theorem termsWellFormed_iff {terms : List PatternTerm} :
    TermsWellFormed terms ↔ ∀ term ∈ terms, term.WellFormed := by
  induction terms with
  | nil => simp [TermsWellFormed]
  | cons term rest ih => rw [TermsWellFormed, ih, List.forall_mem_cons]

theorem PatternDisjunction.wellFormed_iff {disjunction : PatternDisjunction} :
    disjunction.WellFormed ↔
      disjunction.alternatives ≠ [] ∧ ∀ alternative ∈ disjunction.alternatives, alternative.WellFormed := by
  obtain ⟨alternatives, _, _, _⟩ := disjunction
  rw [PatternDisjunction.WellFormed, alternativesWellFormed_iff]

/-! ## Copies -/

/-- A copy without flagged alternatives is not null. -/
def Copied (disjunction : PatternDisjunction) : Prop :=
  disjunction.WellFormed ∧ ∀ alternative ∈ disjunction.alternatives, alternative.startsWithBOL = false

theorem Copied.keepsAlternative {disjunction : PatternDisjunction} (h : Copied disjunction) (type : ParenthesesType)
    (ids : Parentheses) (fields : TermFields) :
    (PatternTerm.parentheses type disjunction ids fields).KeepsAlternative := by
  obtain ⟨alternative, hmem⟩ := List.exists_mem_of_ne_nil _ (PatternDisjunction.wellFormed_iff.mp h.1).1
  exact ⟨alternative, hmem, h.2 alternative hmem⟩

theorem copyAlternatives_ne_nil {filter : Bool} {alternatives : List PatternAlternative}
    (h : ∃ alternative ∈ alternatives, filter = true → alternative.startsWithBOL = false) :
    copyAlternatives filter alternatives ≠ [] := by
  induction alternatives with
  | nil =>
    obtain ⟨alternative, hmem, -⟩ := h
    exact absurd hmem List.not_mem_nil
  | cons alternative rest ih =>
    obtain ⟨terms, _, _, _, startsWithBOL, _⟩ := alternative
    rw [copyAlternatives]
    split
    · rename_i hskip
      rw [Bool.and_eq_true] at hskip
      apply ih
      obtain ⟨other, hmem, hkeep⟩ := h
      rcases List.mem_cons.mp hmem with rfl | hmem
      · exact absurd (hkeep hskip.1) (by simp [hskip.2])
      · exact ⟨other, hmem, hkeep⟩
    · exact List.cons_ne_nil _ _

mutual

/-- **A copy is well formed**, if the filter leaves some alternative; by induction on the disjunction. -/
theorem PatternDisjunction.copyDisjunction_copied (filter : Bool) : (disjunction : PatternDisjunction) →
    disjunction.WellFormed →
    (filter = true → ∃ alternative ∈ disjunction.alternatives, alternative.startsWithBOL = false) →
    ∃ copy, disjunction.copyDisjunction filter = some copy ∧ Copied copy
  | ⟨alternatives, _, _, _⟩, hwell, hkeep => by
    have hcopies := copyAlternatives_wellFormed filter alternatives hwell.2
    have hne : copyAlternatives filter alternatives ≠ [] := by
      apply copyAlternatives_ne_nil
      cases filter with
      | false =>
        obtain ⟨alternative, hmem⟩ := List.exists_mem_of_ne_nil _ hwell.1
        exact ⟨alternative, hmem, fun h => absurd h (by decide)⟩
      | true =>
        obtain ⟨alternative, hmem, hflag⟩ := hkeep rfl
        exact ⟨alternative, hmem, fun _ => hflag⟩
    rw [PatternDisjunction.copyDisjunction]
    cases hcopy : copyAlternatives filter alternatives with
    | nil => exact absurd hcopy hne
    | cons alternative rest =>
      rw [hcopy] at hcopies
      exact ⟨_, rfl, ⟨List.cons_ne_nil _ _, hcopies.1⟩, hcopies.2⟩

theorem copyAlternatives_wellFormed (filter : Bool) : (alternatives : List PatternAlternative) →
    AlternativesWellFormed alternatives →
    AlternativesWellFormed (copyAlternatives filter alternatives) ∧
      ∀ alternative ∈ copyAlternatives filter alternatives, alternative.startsWithBOL = false
  | [], _ => ⟨trivial, fun _ hmem => absurd hmem List.not_mem_nil⟩
  | ⟨terms, _, _, _, startsWithBOL, _⟩ :: rest, hwell => by
    have hrest := copyAlternatives_wellFormed filter rest hwell.2
    rw [copyAlternatives]
    split
    · exact hrest
    · rename_i hkeep
      have hterms := copyTerms_wellFormed filter terms hwell.1.1 (by
        intro hfilter
        refine hwell.1.2 ?_
        cases startsWithBOL with
        | false => rfl
        | true => exact absurd hkeep (by simp [hfilter]))
      refine ⟨⟨⟨hterms.1, fun _ => hterms.2⟩, hrest.1⟩, ?_⟩
      rw [List.forall_mem_cons]
      exact ⟨rfl, hrest.2⟩

theorem copyTerms_wellFormed (filter : Bool) : (terms : List PatternTerm) → TermsWellFormed terms →
    (filter = true → ∀ term ∈ terms, term.KeepsAlternative) →
    TermsWellFormed (copyTerms filter terms) ∧ ∀ term ∈ copyTerms filter terms, term.KeepsAlternative
  | [], _, _ => ⟨trivial, fun _ hmem => absurd hmem List.not_mem_nil⟩
  | term :: rest, hwell, hkeep => by
    have hterm := term.copyTerm_wellFormed filter hwell.1
      (fun hfilter => hkeep hfilter term List.mem_cons_self)
    have hrest := copyTerms_wellFormed filter rest hwell.2
      (fun hfilter term hmem => hkeep hfilter term (List.mem_cons_of_mem _ hmem))
    rw [copyTerms]
    refine ⟨⟨hterm.1, hrest.1⟩, ?_⟩
    rw [List.forall_mem_cons]
    exact ⟨hterm.2, hrest.2⟩

theorem PatternTerm.copyTerm_wellFormed (filter : Bool) : (term : PatternTerm) → term.WellFormed →
    (filter = true → term.KeepsAlternative) →
    (term.copyTerm filter).WellFormed ∧ (term.copyTerm filter).KeepsAlternative
  | .term _ _, _, _ => ⟨trivial, trivial⟩
  | .parentheses type disjunction ids fields, hwell, hkeep => by
    obtain ⟨copy, hcopy, hcopied⟩ := disjunction.copyDisjunction_copied filter hwell hkeep
    rw [PatternTerm.copyTerm, hcopy, Option.getD_some]
    exact ⟨hcopied.1, hcopied.keepsAlternative type ids fields⟩

end

/-! ## The invariant -/

/-- Terms that an alternative may be given more of. -/
def PatternTerm.Complete (term : PatternTerm) : Prop := term.WellFormed ∧ term.KeepsAlternative

theorem PatternTerm.complete_term (type : TermType) (fields : TermFields) : (PatternTerm.term type fields).Complete :=
  ⟨trivial, trivial⟩

theorem PatternAlternative.wellFormed_of_complete {alternative : PatternAlternative}
    (h : ∀ term ∈ alternative.terms, term.Complete) : alternative.WellFormed :=
  ⟨termsWellFormed_iff.mpr fun term hmem => (h term hmem).1, fun _ term hmem => (h term hmem).2⟩

theorem PatternAlternative.WellFormed.append {alternative : PatternAlternative} {terms more : List PatternTerm}
    (h : { alternative with terms := terms }.WellFormed) (hmore : ∀ term ∈ more, term.Complete) :
    { alternative with terms := terms ++ more }.WellFormed := by
  obtain ⟨hterms, hkeep⟩ := h
  rw [termsWellFormed_iff] at hterms
  constructor
  · rw [termsWellFormed_iff]
    intro term hmem
    rcases List.mem_append.mp hmem with hmem | hmem
    · exact hterms term hmem
    · exact (hmore term hmem).1
  · intro hflag term hmem
    rcases List.mem_append.mp hmem with hmem | hmem
    · exact hkeep hflag term hmem
    · exact (hmore term hmem).2

namespace Level

/-- A level without an open group. -/
structure WellFormed (level : Level) : Prop where
  complete : ∀ alternative ∈ level.complete, alternative.WellFormed
  alternative : level.alternative.WellFormed

/-- A level around an open group. -/
structure Open (level : Level) : Prop where
  complete : ∀ alternative ∈ level.complete, alternative.WellFormed
  group : ∃ terms type disjunction ids fields,
    level.alternative.terms = terms ++ [.parentheses type disjunction ids fields] ∧
      { level.alternative with terms := terms }.WellFormed

theorem wellFormed_new : ({} : Level).WellFormed where
  complete := fun _ hmem => absurd hmem List.not_mem_nil
  alternative := PatternAlternative.wellFormed_of_complete fun _ hmem => absurd hmem List.not_mem_nil

theorem WellFormed.disjunction {level : Level} (h : level.WellFormed) : level.disjunction.WellFormed := by
  rw [PatternDisjunction.wellFormed_iff]
  refine ⟨List.append_ne_nil_of_right_ne_nil _ (List.cons_ne_nil _ _), fun alternative hmem => ?_⟩
  rcases List.mem_append.mp hmem with hmem | hmem
  · exact h.complete alternative hmem
  · rw [List.mem_singleton] at hmem
    exact hmem ▸ h.alternative

theorem WellFormed.append {level : Level} (h : level.WellFormed) {more : List PatternTerm}
    (hmore : ∀ term ∈ more, term.Complete) : (level.setTerms (level.alternative.terms ++ more)).WellFormed where
  complete := h.complete
  alternative := PatternAlternative.WellFormed.append h.alternative hmore

end Level

/-- The constructor between two tokens; `depth` and `atom` are those of the parser. -/
structure Inv (c : YarrPatternConstructor) (depth : Nat) (atom : Bool) : Prop where
  level : c.level.WellFormed
  parents : ∀ parent ∈ c.parents, parent.Open
  depth : c.parents.length = depth
  terms : atom = true → c.terms ≠ []

namespace YarrPatternConstructor

variable {c : YarrPatternConstructor} {depth : Nat} {atom : Bool}

theorem inv_congr {c' : YarrPatternConstructor} (h : Inv c depth atom) (hlevel : c'.level = c.level)
    (hparents : c'.parents = c.parents) : Inv c' depth atom where
  level := hlevel ▸ h.level
  parents := hparents ▸ h.parents
  depth := hparents ▸ h.depth
  terms := by
    rw [terms, hlevel]
    exact h.terms

theorem appendTerm_inv (h : Inv c depth atom) {term : PatternTerm} (hterm : term.Complete) (atom' : Bool) :
    Inv (c.appendTerm term) depth atom' where
  level := h.level.append fun term' hmem => by
    rw [List.mem_singleton] at hmem
    exact hmem ▸ hterm
  parents := h.parents
  depth := h.depth
  terms := fun _ => List.append_ne_nil_of_right_ne_nil _ (List.cons_ne_nil _ _)

theorem assertionBOL_inv (h : Inv c depth atom) : Inv c.assertionBOL depth false := by
  rw [assertionBOL]
  suffices hflag : Inv _ depth false from appendTerm_inv hflag (PatternTerm.complete_term _ _) false
  split
  · rename_i hempty
    rw [Bool.and_eq_true, List.isEmpty_iff] at hempty
    refine ⟨⟨h.level.complete, ?_⟩, h.parents, h.depth, fun h => absurd h (by decide)⟩
    refine PatternAlternative.wellFormed_of_complete fun term hmem => ?_
    have hnil : c.level.alternative.terms = [] := hempty.1
    rw [hnil] at hmem
    exact absurd hmem List.not_mem_nil
  · exact ⟨h.level, h.parents, h.depth, fun h => absurd h (by decide)⟩

theorem atomPatternCharacter_inv (h : Inv c depth atom) (ch : UChar) :
    ∃ c', c.atomPatternCharacter ch = .ok c' ∧ Inv c' depth true := by
  have hcharacter := appendTerm_inv h (PatternTerm.complete_term (.patternCharacter ch) {}) true
  rw [atomPatternCharacter]
  split
  · exact ⟨_, rfl, hcharacter⟩
  · obtain ⟨info, rest, hfound, hsuffix, -⟩ := rangeInfoFor_spec ch
    rw [hfound]
    simp only
    split
    · exact ⟨_, rfl, hcharacter⟩
    · rename_i hunique
      obtain ⟨characterClass, hput⟩ := Option.isSome_iff_exists.mp
        (CharacterClass.putUnicodeIgnoreCase_isSome (hsuffix.subset List.mem_cons_self) hunique ch c.characterClass)
      rw [hput]
      have hclass := appendTerm_inv h (PatternTerm.complete_term (.characterClass (.user characterClass)) {}) true
      exact ⟨_, rfl, inv_congr hclass rfl rfl⟩

theorem beginParentheses_inv (h : Inv c depth atom) (type : ParenthesesType) (subpatternId : UInt32)
    (capture invert : Bool) : Inv (c.beginParentheses type subpatternId capture invert) (depth + 1) false where
  level := Level.wellFormed_new
  parents := by
    intro parent hmem
    rcases List.mem_cons.mp hmem with rfl | hmem
    · exact ⟨h.level.complete, c.terms, type, _, _, _, rfl, h.level.alternative⟩
    · exact h.parents parent hmem
  depth := congrArg Nat.succ h.depth
  terms := fun h => absurd h (by decide)

theorem atomParenthesesSubpatternBegin_inv (h : Inv c depth atom) (capture : Bool) :
    Inv (c.atomParenthesesSubpatternBegin capture) (depth + 1) false := by
  have hbegin := beginParentheses_inv h .parenthesesSubpattern (c.pattern.numSubpatterns + 1) capture false
  rw [atomParenthesesSubpatternBegin]
  simp only
  split
  · exact inv_congr hbegin rfl rfl
  · exact hbegin

/-- The end of a group: its alternatives all start with `^` only if the alternative around it is flagged. -/
theorem closeGroup_wellFormed {level : Level} (h : level.Open) {disjunction : PatternDisjunction}
    (hdisjunction : disjunction.WellFormed) (lastSubpatternId : UInt32) :
    ∃ alternative, closeGroup level.alternative disjunction lastSubpatternId = .ok alternative ∧
      alternative.WellFormed ∧ alternative.terms ≠ [] := by
  obtain ⟨terms, type, old, ids, fields, hterms, hwell⟩ := h.group
  rw [PatternDisjunction.wellFormed_iff] at hdisjunction
  have hlast : lastTerm level.alternative.terms = .ok (.parentheses type old ids fields) := by
    rw [lastTerm, hterms, List.getLast?_append, List.getLast?_singleton, Option.some_or]
  have hdrop : level.alternative.terms.dropLast = terms := by rw [hterms, List.dropLast_concat]
  rw [closeGroup, hlast]
  refine ⟨_, rfl, ⟨?_, ?_⟩, List.append_ne_nil_of_right_ne_nil _ (List.cons_ne_nil _ _)⟩
  · rw [termsWellFormed_iff]
    intro term hmem
    rw [hdrop, List.mem_append, List.mem_singleton] at hmem
    rcases hmem with hmem | rfl
    · exact termsWellFormed_iff.mp hwell.1 term hmem
    · exact PatternDisjunction.wellFormed_iff.mpr hdisjunction
  · intro hflag term hmem
    rw [Bool.or_eq_false_iff, decide_eq_false_iff_not] at hflag
    rw [hdrop, List.mem_append, List.mem_singleton] at hmem
    rcases hmem with hmem | rfl
    · exact hwell.2 hflag.1 term hmem
    · -- Not all of its alternatives are flagged.
      by_contra hall
      have hflagged : ∀ alternative ∈ disjunction.alternatives, alternative.startsWithBOL = true := by
        intro alternative hmem
        rw [← Bool.not_eq_false]
        exact fun hfalse => hall ⟨alternative, hmem, hfalse⟩
      have hcount := List.countP_eq_length.mpr hflagged
      refine hflag.2 ⟨?_, hcount⟩
      rw [hcount]
      exact List.length_pos_iff.mpr hdisjunction.1

theorem atomParenthesesEnd_inv (h : Inv c (depth + 1) atom) :
    ∃ c', c.atomParenthesesEnd = .ok c' ∧ Inv c' depth true := by
  rw [atomParenthesesEnd]
  cases hparents : c.parents with
  | nil => exact absurd h.depth (by simp [hparents])
  | cons parent parents =>
    have hopen : parent.Open := h.parents parent (hparents ▸ List.mem_cons_self)
    obtain ⟨alternative, hclose, hwell, hne⟩ :=
      closeGroup_wellFormed hopen h.level.disjunction c.pattern.numSubpatterns
    simp only [hclose]
    refine ⟨_, rfl, ⟨hopen.complete, hwell⟩, ?_, ?_, fun _ => hne⟩
    · intro parent' hmem
      exact h.parents parent' (hparents ▸ List.mem_cons_of_mem _ hmem)
    · have hdepth := h.depth
      rw [hparents] at hdepth
      exact Nat.succ.inj hdepth

theorem isInsideSubpattern_ok {parents : List Level} (h : ∀ parent ∈ parents, parent.Open) (subpatternId : UInt32) :
    ∃ inside, isInsideSubpattern subpatternId parents = .ok inside := by
  induction parents with
  | nil => exact ⟨false, rfl⟩
  | cons parent parents ih =>
    obtain ⟨inside, hinside⟩ := ih fun parent' hmem => h parent' (List.mem_cons_of_mem _ hmem)
    obtain ⟨terms, type, disjunction, ids, fields, hterms, -⟩ := (h parent List.mem_cons_self).group
    have hlast : lastTerm parent.alternative.terms = .ok (.parentheses type disjunction ids fields) := by
      rw [lastTerm, hterms, List.getLast?_append, List.getLast?_singleton, Option.some_or]
    rw [isInsideSubpattern, hlast]
    cases type with
    | parenthesesSubpattern =>
      simp only
      split
      · exact ⟨true, rfl⟩
      · exact ⟨inside, hinside⟩
    | parentheticalAssertion => exact ⟨inside, hinside⟩

theorem atomBackReference_inv (h : Inv c depth atom) (subpatternId : UInt32) :
    ∃ c', c.atomBackReference subpatternId = .ok c' ∧ Inv c' depth true := by
  have happend : ∀ (pattern : YarrPattern) (type : TermType),
      Inv ({ c with pattern := pattern }.appendTerm (.term type {})) depth true :=
    fun pattern type =>
      appendTerm_inv (c := { c with pattern := pattern }) (inv_congr h rfl rfl) (PatternTerm.complete_term type {}) true
  obtain ⟨inside, hinside⟩ := isInsideSubpattern_ok h.parents subpatternId
  rw [atomBackReference]
  simp only
  split
  · exact ⟨_, rfl, happend _ _⟩
  · rw [hinside]
    cases inside with
    | true => exact ⟨_, rfl, happend _ _⟩
    | false => exact ⟨_, rfl, happend _ _⟩

theorem quantify_wellFormed {term : PatternTerm} (h : term.WellFormed) (count : UInt32) (type : QuantifierType) :
    (term.quantify count type).WellFormed := by cases term <;> exact h

theorem quantify_keepsAlternative {term : PatternTerm} (h : term.KeepsAlternative) (count : UInt32)
    (type : QuantifierType) : (term.quantify count type).KeepsAlternative := by cases term <;> exact h

theorem setIsCopy_complete {term : PatternTerm} (h : term.Complete) : term.setIsCopy.Complete := by
  cases term with
  | term _ _ => exact h
  | parentheses type _ _ _ => cases type <;> exact h

theorem quantifiedTerms_wellFormed {term : PatternTerm} (h : term.WellFormed) (min max : UInt32) (greedy : Bool) :
    ∀ term' ∈ quantifiedTerms term min max greedy,
      term'.WellFormed ∧ (term.KeepsAlternative → term'.KeepsAlternative) := by
  have hquantify : ∀ (count : UInt32) (type : QuantifierType), (term.quantify count type).WellFormed ∧
      (term.KeepsAlternative → (term.quantify count type).KeepsAlternative) :=
    fun count type => ⟨quantify_wellFormed h count type, fun hkeep => quantify_keepsAlternative hkeep count type⟩
  -- A copy has no flags.
  have hcopy : ∀ (count : UInt32) (type : QuantifierType),
      (((term.quantify min .quantifierFixedCount).copyTerm false).quantify count type).setIsCopy.Complete := by
    intro count type
    have hfixed := PatternTerm.copyTerm_wellFormed false _ (hquantify min .quantifierFixedCount).1
      fun hfilter => absurd hfilter (by decide)
    exact setIsCopy_complete ⟨quantify_wellFormed hfixed.1 count type, quantify_keepsAlternative hfixed.2 count type⟩
  intro term' hmem
  rw [quantifiedTerms] at hmem
  simp only at hmem
  split at hmem
  · rw [List.mem_singleton] at hmem
    exact hmem ▸ hquantify _ _
  · split at hmem
    · rw [List.mem_singleton] at hmem
      exact hmem ▸ hquantify _ _
    · rw [List.mem_cons, List.mem_singleton] at hmem
      rcases hmem with rfl | rfl
      · exact hquantify _ _
      · exact ⟨(hcopy _ _).1, fun _ => (hcopy _ _).2⟩

theorem replaceLast_inv (h : Inv c depth atom) {term : PatternTerm} (hlast : c.terms.getLast? = some term)
    {more : List PatternTerm}
    (hmore : ∀ term' ∈ more, term'.WellFormed ∧ (term.KeepsAlternative → term'.KeepsAlternative)) :
    Inv (c.setTerms (c.terms.dropLast ++ more)) depth false where
  level :=
    { complete := h.level.complete
      alternative := by
        have hterm : term ∈ c.terms := List.mem_of_getLast? hlast
        have hterms := termsWellFormed_iff.mp h.level.alternative.1
        constructor
        · rw [termsWellFormed_iff]
          intro term' hmem
          rcases List.mem_append.mp hmem with hmem | hmem
          · exact hterms term' (List.mem_of_mem_dropLast hmem)
          · exact (hmore term' hmem).1
        · intro hflag term' hmem
          rcases List.mem_append.mp hmem with hmem | hmem
          · exact h.level.alternative.2 hflag term' (List.mem_of_mem_dropLast hmem)
          · exact (hmore term' hmem).2 (h.level.alternative.2 hflag term hterm) }
  parents := h.parents
  depth := h.depth
  terms := fun h => absurd h (by decide)

theorem quantifyAtom_inv (h : Inv c depth true) (min max : UInt32) (greedy : Bool) :
    ∃ c', c.quantifyAtom min max greedy = .ok c' ∧ Inv c' depth false := by
  obtain ⟨term, hlast⟩ : ∃ term, c.terms.getLast? = some term :=
    ⟨_, List.getLast?_eq_some_getLast (h.terms rfl)⟩
  have hwell : term.WellFormed := termsWellFormed_iff.mp h.level.alternative.1 term (List.mem_of_getLast? hlast)
  have hremove : ∃ c', (removeLastTerm c.terms).map c.setTerms = .ok c' ∧ Inv c' depth false := by
    have hinv := replaceLast_inv h hlast fun _ hmem => absurd hmem List.not_mem_nil
    rw [List.append_nil] at hinv
    cases hterms : c.terms with
    | nil => exact absurd hterms (h.terms rfl)
    | cons first rest =>
      rw [hterms] at hinv
      exact ⟨_, rfl, hinv⟩
  have hquantified := replaceLast_inv h hlast (quantifiedTerms_wellFormed hwell min max greedy)
  rw [quantifyAtom]
  split
  · exact hremove
  · rw [lastTerm, hlast]
    cases term with
    | term type fields => exact ⟨_, rfl, hquantified⟩
    | parentheses type disjunction ids fields =>
      cases type with
      | parenthesesSubpattern => exact ⟨_, rfl, hquantified⟩
      | parentheticalAssertion =>
        simp only
        split
        · exact hremove
        · exact ⟨c, rfl, h.level, h.parents, h.depth, fun h => absurd h (by decide)⟩

theorem disjunction_inv (h : Inv c depth atom) : Inv c.disjunction depth false where
  level :=
    { complete := by
        intro alternative hmem
        rcases List.mem_append.mp hmem with hmem | hmem
        · exact h.level.complete alternative hmem
        · rw [List.mem_singleton] at hmem
          exact hmem ▸ h.level.alternative
      alternative := Level.wellFormed_new.alternative }
  parents := h.parents
  depth := h.depth
  terms := fun h => absurd h (by decide)

/-! ## Turns and runs -/

theorem call_classItem (c : YarrPatternConstructor) {token : Token} (h : token.isClassItem = true) :
    ∃ c', c.call token = .ok c' ∧ c'.level = c.level ∧ c'.parents = c.parents := by
  have hset : ∀ characterClass : Option CharacterClass, characterClass.isSome = true →
      ∃ c', c.setCharacterClass characterClass = .ok c' ∧ c'.level = c.level ∧ c'.parents = c.parents := by
    intro characterClass hsome
    obtain ⟨characterClass, rfl⟩ := Option.isSome_iff_exists.mp hsome
    exact ⟨_, rfl, rfl, rfl⟩
  cases token with
  | atomCharacterClassBegin invert => exact ⟨_, rfl, rfl, rfl⟩
  | atomCharacterClassAtom ch => exact hset _ (CharacterClass.putChar_isSome _ _ _)
  | atomCharacterClassRange first last =>
    exact hset _ (CharacterClass.putRange_isSome _ (of_decide_eq_true h) _)
  | atomCharacterClassBuiltIn classID invert =>
    refine hset _ ?_
    cases classID with
    | newlineClassID => exact absurd h (by simp [Token.isClassItem])
    | _ => exact CharacterClass.append_isSome _ _
  | _ => exact absurd h (by simp [Token.isClassItem])

theorem calls_append (c : YarrPatternConstructor) (tokens more : List Token) :
    c.calls (tokens ++ more) =
      match c.calls tokens with
      | .error fault => .error fault
      | .ok c' => c'.calls more := by
  induction tokens generalizing c with
  | nil => rfl
  | cons token tokens ih =>
    rw [List.cons_append, calls, calls]
    cases c.call token with
    | error fault => rfl
    | ok c' => exact ih c'

theorem calls_classItems {items : List Token} (h : ∀ token ∈ items, token.isClassItem = true)
    (c : YarrPatternConstructor) : ∃ c', c.calls items = .ok c' ∧ c'.level = c.level ∧ c'.parents = c.parents := by
  induction items generalizing c with
  | nil => exact ⟨c, rfl, rfl, rfl⟩
  | cons token items ih =>
    obtain ⟨c', hcall, hlevel, hparents⟩ := call_classItem c (h token List.mem_cons_self)
    obtain ⟨c'', hcalls, hlevel', hparents'⟩ := ih (fun token' hmem => h token' (List.mem_cons_of_mem _ hmem)) c'
    rw [calls, hcall]
    exact ⟨c'', hcalls, hlevel'.trans hlevel, hparents'.trans hparents⟩

theorem calls_singleton {token : Token} {c' : YarrPatternConstructor} (h : c.call token = .ok c') :
    c.calls [token] = .ok c' := by simp only [calls, h]

/-- **Every turn of the parser keeps the invariant.** -/
theorem calls_turn {depth depth' : Nat} {atom atom' : Bool} {tokens : List Token}
    (hturn : Turn depth atom tokens depth' atom') (h : Inv c depth atom) :
    ∃ c', c.calls tokens = .ok c' ∧ Inv c' depth' atom' := by
  cases hturn with
  | disjunction => exact ⟨_, rfl, disjunction_inv h⟩
  | assertionBOL => exact ⟨_, rfl, assertionBOL_inv h⟩
  | assertionEOL => exact ⟨_, rfl, appendTerm_inv h (PatternTerm.complete_term _ _) false⟩
  | assertionWordBoundary invert => exact ⟨_, rfl, appendTerm_inv h (PatternTerm.complete_term _ _) false⟩
  | subpatternBegin capture => exact ⟨_, rfl, atomParenthesesSubpatternBegin_inv h capture⟩
  | assertionBegin invert =>
    have hbegin := beginParentheses_inv h .parentheticalAssertion (c.pattern.numSubpatterns + 1) false invert
    exact ⟨_, rfl, inv_congr hbegin rfl rfl⟩
  | parenthesesEnd =>
    obtain ⟨c', hcall, hinv⟩ := atomParenthesesEnd_inv h
    exact ⟨c', calls_singleton hcall, hinv⟩
  | patternCharacter ch =>
    obtain ⟨c', hcall, hinv⟩ := atomPatternCharacter_inv h ch
    exact ⟨c', calls_singleton hcall, hinv⟩
  | builtInCharacterClass classID invert => exact ⟨_, rfl, appendTerm_inv h (PatternTerm.complete_term _ _) true⟩
  | backReference subpatternId =>
    obtain ⟨c', hcall, hinv⟩ := atomBackReference_inv h subpatternId
    exact ⟨c', calls_singleton hcall, hinv⟩
  | characterClass items hitems =>
    obtain ⟨c', hcalls, hlevel, hparents⟩ := calls_classItems hitems c
    have hclass := appendTerm_inv (inv_congr h hlevel hparents)
      (PatternTerm.complete_term (.characterClass (.user c'.characterClass)) { invert := c'.invertCharacterClass }) true
    rw [calls_append, hcalls]
    exact ⟨_, rfl, inv_congr hclass rfl rfl⟩
  | quantifier min max greedy =>
    obtain ⟨c', hcall, hinv⟩ := quantifyAtom_inv h min max greedy
    exact ⟨c', calls_singleton hcall, hinv⟩

/-- So do turns in a row, by induction on the run. -/
theorem calls_run {depth depth' : Nat} {atom atom' : Bool} {tokens : List Token}
    (hrun : Run depth atom tokens depth' atom') {c : YarrPatternConstructor} (h : Inv c depth atom) :
    ∃ c', c.calls tokens = .ok c' ∧ Inv c' depth' atom' := by
  induction hrun generalizing c with
  | nil => exact ⟨c, rfl, h⟩
  | turn hturn _ ih =>
    obtain ⟨c', hcalls, hinv⟩ := calls_turn hturn h
    obtain ⟨c'', hmore, hinv'⟩ := ih hinv
    rw [calls_append, hcalls]
    exact ⟨c'', hmore, hinv'⟩

/-- The tokens of a whole pattern; without an error all groups are closed. -/
theorem calls_isRun {parsed : Parsed Unit} (hrun : IsRun parsed 0 false) (h : Inv c 0 false) :
    ∃ c', c.calls parsed.tokens = .ok c' ∧ (parsed.outcome = .ok () → c'.level.WellFormed) := by
  obtain ⟨tokens, items, depth, atom, heq, hrun, hitems, hok⟩ := hrun
  obtain ⟨c', hcalls, hinv⟩ := calls_run hrun h
  obtain ⟨c'', hmore, hlevel, -⟩ := calls_classItems hitems c'
  rw [heq, calls_append, hcalls]
  refine ⟨c'', hmore, fun _ => ?_⟩
  rw [hlevel]
  exact hinv.level

end YarrPatternConstructor

open YarrPatternConstructor

theorem inv_new (pattern : YarrPattern) : Inv { pattern := pattern } 0 false where
  level := Level.wellFormed_new
  parents := fun _ hmem => absurd hmem List.not_mem_nil
  depth := rfl
  terms := fun h => absurd h (by decide)

theorem inv_reset (c : YarrPatternConstructor) : Inv c.reset 0 false :=
  inv_congr (inv_new c.reset.pattern) rfl rfl

/-- **The parse of a pattern ends without a fault**, and the pattern it yields is well formed. -/
theorem parsePattern_ok (patternString : List UChar) (ignoreCase multiline : Bool) :
    ∃ result, parsePattern patternString ignoreCase multiline = some (.ok result) ∧
      ∀ pattern, result = .ok pattern → pattern.body.WellFormed := by
  obtain ⟨parsed, hparse⟩ := Option.isSome_iff_exists.mp (parse_isSome patternString quantifyInfinite)
  obtain ⟨c, hcalls, hwell⟩ :=
    calls_isRun (parse_run hparse) (inv_new { ignoreCase := ignoreCase, multiline := multiline })
  obtain ⟨tokens, outcome⟩ := parsed
  rw [parsePattern, YarrPatternConstructor.parse, hparse, Option.map_some, hcalls]
  cases outcome with
  | error code => exact ⟨.error code, rfl, fun pattern h => absurd h (by simp)⟩
  | ok _ =>
    have hbody := (hwell rfl).disjunction
    simp only [Except.map]
    split
    · -- The second parse succeeds as the first one did.
      obtain ⟨parsed, hparse'⟩ := Option.isSome_iff_exists.mp (parse_isSome patternString c.pattern.numSubpatterns)
      obtain ⟨tokens', hok, -⟩ := parse_structure c.pattern.numSubpatterns hparse
      obtain rfl : parsed = ⟨tokens', .ok ()⟩ := Option.some.inj (hparse'.symm.trans hok)
      obtain ⟨c', hcalls', hwell'⟩ := calls_isRun (parse_run hparse') (inv_reset c)
      rw [hparse']
      simp only [hcalls']
      refine ⟨_, rfl, ?_⟩
      intro pattern hpattern
      cases hpattern
      exact (hwell' rfl).disjunction
    · refine ⟨_, rfl, ?_⟩
      intro pattern hpattern
      cases hpattern
      exact hbody

end WebKit.Yarr
