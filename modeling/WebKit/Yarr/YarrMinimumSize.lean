import WebKit.Yarr.YarrMatching
import WebKit.Yarr.YarrPatternCompile

/-!
# The minimum sizes are lower bounds

A match takes at least as many characters as the `size` of what it matches (`PatternDisjunction.size_le`), and exactly as
many if the terms are fixed (`termsMatch_eq`). `PatternDisjunction.Sound` says that what is recorded in a disjunction and
in everything inside is right.
-/

namespace WebKit.Yarr

open WebKit.WTF

/-! ## Sizes -/

def TermFields.fixedCount (fields : TermFields) : Nat :=
  if fields.quantityType = .quantifierFixedCount then fields.quantityCount.toNat else 0

def TermType.size (fields : TermFields) : TermType → Nat
  | patternCharacter _ => fields.fixedCount
  | characterClass _ => fields.fixedCount
  | _ => 0

mutual

@[grind =] def PatternDisjunction.size : PatternDisjunction → Nat
  | ⟨alternatives, _, _, _⟩ => alternativesSize alternatives

/-- The least size of an alternative. -/
@[grind =] def alternativesSize : List PatternAlternative → Nat
  | [] => UINT_MAX.toNat
  | ⟨terms, _, _, _, _, _⟩ :: rest => min (termsSize terms) (alternativesSize rest)

@[grind =] def termsSize : List PatternTerm → Nat
  | [] => 0
  | term :: rest => term.size + termsSize rest

@[grind =] def PatternTerm.size : PatternTerm → Nat
  | .term type fields => type.size fields
  | .parentheses .parenthesesSubpattern disjunction ids fields =>
    if fields.quantityCount = 1 ∧ ids.isCopy = false ∧ fields.quantityType = .quantifierFixedCount then disjunction.size
    else 0
  | .parentheses .parentheticalAssertion _ _ _ => 0

end

theorem alternativesSize_le (alternatives : List PatternAlternative) :
    alternativesSize alternatives ≤ UINT_MAX.toNat := by
  cases alternatives with
  | nil => exact Nat.le_refl _
  | cons alternative rest =>
    obtain ⟨terms, _, _, _, _, _⟩ := alternative
    rw [alternativesSize]
    exact Nat.le_trans (Nat.min_le_right _ _) (alternativesSize_le rest)

/-! ## Steps that are repeated -/

section Repeats

variable {α : Type} {R : α → α → Prop} {f : α → Nat} {m n : Nat} {x y : α}

theorem Repeats.le (hstep : ∀ x y, R x y → f x + m ≤ f y) (h : Repeats R n x y) : f x + n * m ≤ f y := by
  induction h with
  | zero x => simp
  | @succ n x y z step rest ih =>
    have := hstep x y step
    rw [Nat.add_mul]
    omega

theorem Repeats.eq (hstep : ∀ x y, R x y → f y = f x + m) (h : Repeats R n x y) : f y = f x + n * m := by
  induction h with
  | zero x => simp
  | @succ n x y z step rest ih =>
    have := hstep x y step
    rw [Nat.add_mul]
    omega

end Repeats

variable {c : MatchInput} {fields : TermFields} {R : MatchState → MatchState → Prop} {x y : MatchState} {m : Nat}

theorem Quantified.le (hstep : ∀ x y, R x y → x.endIndex + m ≤ y.endIndex) (h : Quantified fields R x y) :
    x.endIndex + fields.fixedCount * m ≤ y.endIndex := by
  rw [Quantified] at h
  rw [TermFields.fixedCount]
  split_ifs at h ⊢
  · exact h.le (f := MatchState.endIndex) hstep
  · obtain ⟨n, -, hn⟩ := h
    have := hn.le (f := MatchState.endIndex) (fun x y hxy => hstep x y hxy.1)
    omega

theorem Quantified.eq (hfixed : fields.quantityType = .quantifierFixedCount)
    (hstep : ∀ x y, R x y → y.endIndex = x.endIndex + m) (h : Quantified fields R x y) :
    y.endIndex = x.endIndex + fields.fixedCount * m := by
  rw [Quantified, if_pos hfixed] at h
  rw [TermFields.fixedCount, if_pos hfixed]
  exact h.eq (f := MatchState.endIndex) hstep

/-! ## What a match takes -/

theorem MatchInput.Consumes.endIndex_eq {A : UChar → Prop} (h : c.Consumes A x y) : y.endIndex = x.endIndex + 1 := by
  obtain ⟨ch, -, -, rfl⟩ := h
  rfl

theorem MatchInput.TermMatches.size_le {type : TermType} (h : c.TermMatches fields type x y) :
    x.endIndex + type.size fields ≤ y.endIndex := by
  cases type with
  | patternCharacter ch => simpa [TermType.size] using Quantified.le (fun _ _ step => step.endIndex_eq.ge) h
  | characterClass characterClass => simpa [TermType.size] using Quantified.le (fun _ _ step => step.endIndex_eq.ge) h
  | backReference subpatternId =>
    refine Nat.le_trans ?_ (Quantified.le (m := 0) (fun x y step => ?_) h)
    · exact Nat.le_refl _
    · cases hcapture : x.captures subpatternId with
      | none =>
        rw [hcapture] at step
        exact (congrArg MatchState.endIndex step).ge
      | some capture =>
        rw [hcapture] at step
        rw [step.2.2]
        exact Nat.le_add_right _ _
  | dotStarEnclosure bolAnchor eolAnchor =>
    obtain ⟨⟨n, hn⟩, -⟩ := h
    have := hn.le (f := MatchState.endIndex) (m := 0) (fun _ _ step => by rw [step.endIndex_eq]; omega)
    exact Nat.le_of_add_right_le this
  | forwardReference => exact (congrArg MatchState.endIndex h).ge
  | _ => exact (congrArg MatchState.endIndex h.1).ge

mutual

/-- **A match of a disjunction takes at least its size**, by induction on the disjunction. -/
theorem PatternDisjunction.size_le : (disjunction : PatternDisjunction) → ∀ {x y : MatchState},
    disjunction.Matches c x y → x.endIndex + disjunction.size ≤ y.endIndex
  | ⟨alternatives, _, _, _⟩, _, _, h => alternativesSize_le_of_match alternatives h

theorem alternativesSize_le_of_match : (alternatives : List PatternAlternative) → ∀ {x y : MatchState},
    AlternativesMatch c alternatives x y → x.endIndex + alternativesSize alternatives ≤ y.endIndex
  | [], _, _, h => h.elim
  | ⟨terms, _, _, _, _, _⟩ :: rest, _, _, h => by
    rw [alternativesSize]
    rcases h with h | h
    · have := termsSize_le terms h
      omega
    · have := alternativesSize_le_of_match rest h
      omega

theorem termsSize_le : (terms : List PatternTerm) → ∀ {x y : MatchState}, TermsMatch c terms x y →
    x.endIndex + termsSize terms ≤ y.endIndex
  | [], _, _, h => (congrArg MatchState.endIndex h).ge
  | term :: rest, _, _, ⟨_, hterm, hrest⟩ => by
    have hsize := term.size_le hterm
    have hsizes := termsSize_le rest hrest
    rw [termsSize]
    omega

theorem PatternTerm.size_le : (term : PatternTerm) → ∀ {x y : MatchState}, term.Matches c x y →
    x.endIndex + term.size ≤ y.endIndex
  | .term _ _, _, _, h => MatchInput.TermMatches.size_le h
  | .parentheses .parenthesesSubpattern disjunction ids fields, x, y, h => by
    have hturn := Quantified.le (m := disjunction.size) (fun x y hstep => ?_) h
    · rw [PatternTerm.size]
      split_ifs with honce
      · rw [TermFields.fixedCount, if_pos honce.2.2, honce.1] at hturn
        simpa using hturn
      · omega
    · obtain ⟨z, hz, rfl⟩ := hstep
      have hsize := disjunction.size_le hz
      split_ifs <;> exact hsize
  | .parentheses .parentheticalAssertion disjunction ids fields, x, y, h => by
    rw [PatternTerm.Matches] at h
    split_ifs at h with hinvert
    · exact (congrArg MatchState.endIndex h.1).ge
    · obtain ⟨z, -, rfl⟩ := h
      exact Nat.le_refl _

end

/-- A match of the term takes as many characters as its size says. -/
def PatternTerm.Fixed : PatternTerm → Prop
  | .term (.patternCharacter _) fields => fields.quantityType = .quantifierFixedCount
  | .term (.characterClass _) fields => fields.quantityType = .quantifierFixedCount
  | .term (.backReference _) _ => False
  | .term (.dotStarEnclosure _ _) _ => False
  | .term _ _ => True
  | .parentheses .parenthesesSubpattern _ _ _ => False
  | .parentheses .parentheticalAssertion _ _ _ => True

theorem PatternTerm.endIndex_eq {term : PatternTerm} (hfixed : term.Fixed) (h : term.Matches c x y) :
    y.endIndex = x.endIndex + term.size := by
  cases term with
  | term type fields =>
    cases type with
    | patternCharacter ch =>
      have := Quantified.eq hfixed (fun _ _ step => step.endIndex_eq) h
      simpa [PatternTerm.size, TermType.size] using this
    | characterClass characterClass =>
      have := Quantified.eq hfixed (fun _ _ step => step.endIndex_eq) h
      simpa [PatternTerm.size, TermType.size] using this
    | backReference subpatternId => exact hfixed.elim
    | dotStarEnclosure bolAnchor eolAnchor => exact hfixed.elim
    | forwardReference => exact congrArg MatchState.endIndex h
    | _ => exact congrArg MatchState.endIndex h.1
  | parentheses type disjunction ids fields =>
    cases type with
    | parenthesesSubpattern => exact hfixed.elim
    | parentheticalAssertion =>
      rw [PatternTerm.Matches] at h
      split_ifs at h with hinvert
      · exact congrArg MatchState.endIndex h.1
      · obtain ⟨z, -, rfl⟩ := h
        rfl

/-- A match of fixed terms takes as many characters as their sizes say, by induction on the terms. -/
theorem termsMatch_eq : (terms : List PatternTerm) → (∀ term ∈ terms, term.Fixed) → ∀ {x y : MatchState},
    TermsMatch c terms x y → y.endIndex = x.endIndex + termsSize terms
  | [], _, _, _, h => congrArg MatchState.endIndex h
  | term :: rest, hfixed, _, _, ⟨_, hterm, hrest⟩ => by
    have hsize := PatternTerm.endIndex_eq (hfixed term List.mem_cons_self) hterm
    have hsizes := termsMatch_eq rest (fun other hmem => hfixed other (List.mem_cons_of_mem _ hmem)) hrest
    rw [termsSize]
    omega

/-! ## What is recorded -/

/-- The minimum size of a fixed term, as it is recorded, and 0 for the others. -/
def PatternTerm.minimumSize : PatternTerm → Nat
  | .term type fields => type.size fields
  | .parentheses .parenthesesSubpattern disjunction ids fields =>
    if fields.quantityCount = 1 ∧ ids.isCopy = false ∧ fields.quantityType = .quantifierFixedCount then
      disjunction.minimumSize.toNat
    else 0
  | .parentheses .parentheticalAssertion _ _ _ => 0

/-- The position that is recorded for a term at `position` in an alternative that begins at `start`: a group is recorded
where it ends, a dot star enclosure where the alternative begins, and a forward reference not at all. -/
def PatternTerm.Recorded (start position : Nat) (t : PatternTerm) : Prop :=
  match t with
  | .term .forwardReference _ => True
  | .term (.dotStarEnclosure _ _) fields => fields.inputPosition = (UInt32.ofNat start).toInt32
  | .term _ fields => fields.inputPosition = (UInt32.ofNat position).toInt32
  | .parentheses _ _ _ fields => fields.inputPosition = (UInt32.ofNat (position + t.minimumSize)).toInt32

mutual

/-- What is recorded in the disjunction, and in everything inside, is right if the disjunction is at `position`. -/
@[grind =] def PatternDisjunction.Sound (c : MatchInput) : PatternDisjunction → Nat → Prop
  | ⟨alternatives, minimumSize, _, _⟩, position =>
    (∀ x y, AlternativesMatch c alternatives x y → x.endIndex + minimumSize.toNat ≤ y.endIndex) ∧
      AlternativesSound c alternatives position

@[grind =] def AlternativesSound (c : MatchInput) : List PatternAlternative → Nat → Prop
  | [], _ => True
  | ⟨terms, minimumSize, _, hasFixedSize, _, _⟩ :: rest, position =>
    ((∀ x y, TermsMatch c terms x y → x.endIndex + minimumSize.toNat ≤ y.endIndex ∧
        (hasFixedSize = true → y.endIndex = x.endIndex + minimumSize.toNat)) ∧
      TermsSound c terms position position) ∧ AlternativesSound c rest position

@[grind =] def TermsSound (c : MatchInput) : List PatternTerm → Nat → Nat → Prop
  | [], _, _ => True
  | term :: rest, start, position =>
    (term.Recorded start position ∧ term.Sound c position) ∧ TermsSound c rest start (position + term.minimumSize)

@[grind =] def PatternTerm.Sound (c : MatchInput) : PatternTerm → Nat → Prop
  | .term _ _, _ => True
  | .parentheses _ disjunction _ _, position => disjunction.Sound c position

end

end WebKit.Yarr
