import WebKit.Yarr.YarrMinimumSize
import WebKit.Yarr.YarrPatternConstructor

/-!
# When the offsets fit

`Fits` says that all positions in a part of a pattern are numbers of 32 bits. `PatternDisjunction.setupOffsets_sized`
connects it to the code: the offsets are computed exactly if they fit, and then what is recorded is right; otherwise
checked arithmetic stops the process. So the minimum sizes of a pattern are right (`minimumSizes_sound`).
-/

namespace WebKit.Yarr

open WebKit.WTF

mutual

/-- All positions are numbers of 32 bits, if the disjunction is at `position`. -/
@[grind =] def PatternDisjunction.Fits : PatternDisjunction → Nat → Prop
  | ⟨alternatives, _, _, _⟩, position => AlternativesFit alternatives position

@[grind =] def AlternativesFit : List PatternAlternative → Nat → Prop
  | [], _ => True
  | ⟨terms, _, _, _, _, _⟩ :: rest, position => TermsFit terms position ∧ AlternativesFit rest position

@[grind =] def TermsFit : List PatternTerm → Nat → Prop
  | [], _ => True
  | term :: rest, position =>
    (term.Fits position ∧ position + term.size < 2 ^ 32) ∧ TermsFit rest (position + term.size)

@[grind =] def PatternTerm.Fits : PatternTerm → Nat → Prop
  | .term _ _, _ => True
  | .parentheses _ disjunction _ _, position => disjunction.Fits position

end

/-! ## Results that fit -/

/-- A result that is there exactly if something fits, unless the pattern has a null disjunction. -/
def Sized {α : Type} (complete fits : Prop) (spec : α → Prop) : Except Fault α → Prop
  | .ok value => fits ∧ spec value
  | .error fault => complete → fault = .overflow ∧ ¬fits

section Sized

variable {α β : Type} {complete complete' fits fits' : Prop} {spec : α → Prop} {spec' : β → Prop} {x : Except Fault α}
  {r : Except Fault β}

theorem Sized.weaken (h : Sized complete fits spec x) (hcomplete : complete' → complete) :
    Sized complete' fits spec x := by
  cases x with
  | error fault => exact fun h' => h (hcomplete h')
  | ok value => exact h

theorem Sized.congr (h : Sized complete fits spec x) (hfits : fits ↔ fits') : Sized complete fits' spec x :=
  propext hfits ▸ h

/-- A result `r` that is computed from the value of `x`, and that is a fault if `x` is one. -/
theorem Sized.bind (hx : Sized complete fits spec x) (herror : ∀ fault, x = .error fault → r = .error fault)
    (hok : ∀ value, x = .ok value → spec value → Sized complete fits' spec' r) :
    Sized complete (fits ∧ fits') spec' r := by
  cases x with
  | error fault =>
    rw [herror fault rfl]
    exact fun h => ⟨(hx h).1, fun hfits => (hx h).2 hfits.1⟩
  | ok value =>
    have hr := hok value rfl hx.2
    cases r with
    | error fault => exact fun h => ⟨(hr h).1, fun hfits => (hr h).2 hfits.2⟩
    | ok result => exact ⟨⟨hx.1, hr.1⟩, hr.2⟩

end Sized

theorem checkedAdd_sized (lhs rhs : UInt32) : Sized True (lhs.toNat + rhs.toNat < 2 ^ 32)
    (fun sum => sum.toNat = lhs.toNat + rhs.toNat) (checkedAdd lhs rhs) := by
  have hlhs := lhs.toNat_lt
  have hrhs := rhs.toNat_lt
  rw [checkedAdd]
  split
  · rename_i hlt
    refine fun _ => ⟨rfl, fun hfits => ?_⟩
    rw [UInt32.lt_iff_toNat_lt, UInt32.toNat_add, Nat.mod_eq_of_lt hfits] at hlt
    omega
  · rename_i hge
    rw [UInt32.lt_iff_toNat_lt, UInt32.toNat_add] at hge
    have hfits : lhs.toNat + rhs.toNat < 2 ^ 32 := by omega
    exact ⟨hfits, (UInt32.toNat_add lhs rhs).trans (Nat.mod_eq_of_lt hfits)⟩

theorem checkedSub_of_le {lhs rhs : UInt32} (h : rhs.toNat ≤ lhs.toNat) :
    ∃ difference, checkedSub lhs rhs = .ok difference ∧ difference.toNat = lhs.toNat - rhs.toNat := by
  have hle : rhs ≤ lhs := UInt32.le_iff_toNat_le.mpr h
  have hsub := UInt32.toNat_sub_of_le lhs rhs hle
  rw [checkedSub, if_neg]
  · exact ⟨_, rfl, hsub⟩
  · rw [gt_iff_lt, UInt32.lt_iff_toNat_lt, hsub]
    omega

theorem toNat_min (a b : UInt32) : (min a b).toNat = min a.toNat b.toNat := by
  have hmin : min a b = if a ≤ b then a else b := rfl
  rw [hmin, Nat.min_def]
  by_cases hle : a ≤ b
  · rw [if_pos hle, if_pos (UInt32.le_iff_toNat_le.mp hle)]
  · rw [if_neg hle, if_neg (fun h => hle (UInt32.le_iff_toNat_le.mpr h))]

/-! ## What the code computes -/

/-- What a turn of `setupAlternativeOffsets` records for a term and adds to the offsets. -/
structure TermRecorded (c : MatchInput) (start : UInt32) (offsets : Offsets) (term : PatternTerm)
    (result : PatternTerm × Offsets) : Prop where
  recorded : result.1.Recorded start.toNat offsets.inputPosition.toNat
  sound : result.1.Sound c offsets.inputPosition.toNat
  minimumSize_eq : result.1.minimumSize = term.size
  size_eq : result.1.size = term.size
  inputPosition_eq : result.2.inputPosition.toNat = offsets.inputPosition.toNat + term.size
  hasFixedSize : result.2.hasFixedSize = true → offsets.hasFixedSize = true ∧ result.1.Fixed

section Terms

variable {c : MatchInput} {type : TermType} {fields : TermFields} {start space : UInt32} {offsets : Offsets}

/-- A character or a class; the three conditions say what it has in common with the other one. -/
theorem setupCharacterOffsets_sized
    (hrecorded : ∀ fields, PatternTerm.Recorded start.toNat offsets.inputPosition.toNat (.term type fields) ↔
      fields.inputPosition = (UInt32.ofNat offsets.inputPosition.toNat).toInt32)
    (hfixed : ∀ fields, (PatternTerm.term type fields).Fixed ↔ fields.quantityType = .quantifierFixedCount)
    (hsize : ∀ fields, type.size fields = fields.fixedCount) :
    Sized True (offsets.inputPosition.toNat + type.size fields < 2 ^ 32)
      (TermRecorded c start offsets (.term type fields)) (setupCharacterOffsets type fields space offsets) := by
  rw [setupCharacterOffsets, hsize, TermFields.fixedCount]
  by_cases hquantity : fields.quantityType = .quantifierFixedCount
  · rw [if_pos hquantity, if_neg (not_not.mpr hquantity)]
    have hadd := checkedAdd_sized offsets.inputPosition fields.quantityCount
    simp only
    cases hsum : checkedAdd offsets.inputPosition fields.quantityCount with
    | error fault =>
      rw [hsum] at hadd
      exact hadd
    | ok sum =>
      rw [hsum] at hadd
      refine ⟨hadd.1, (hrecorded _).mpr (by simp), trivial, (hsize _).trans (hsize fields).symm,
        (hsize _).trans (hsize fields).symm, ?_, fun h => ⟨h, (hfixed _).mpr hquantity⟩⟩
      rw [PatternTerm.size, hsize, TermFields.fixedCount, if_pos hquantity]
      exact hadd.2
  · rw [if_neg hquantity, if_pos hquantity]
    refine ⟨offsets.inputPosition.toNat_lt, (hrecorded _).mpr (by simp), trivial, (hsize _).trans (hsize fields).symm,
      (hsize _).trans (hsize fields).symm, ?_, fun h => absurd h (by simp)⟩
    rw [PatternTerm.size, hsize, TermFields.fixedCount, if_neg hquantity]
    rfl

theorem setupTermOffsets_sized :
    Sized True (offsets.inputPosition.toNat + type.size fields < 2 ^ 32)
      (TermRecorded c start offsets (.term type fields)) (setupTermOffsets type fields start offsets) := by
  cases type with
  | patternCharacter ch => exact setupCharacterOffsets_sized (fun _ => .rfl) (fun _ => .rfl) fun _ => rfl
  | characterClass _ => exact setupCharacterOffsets_sized (fun _ => .rfl) (fun _ => .rfl) fun _ => rfl
  | _ =>
    exact ⟨offsets.inputPosition.toNat_lt, by simp [PatternTerm.Recorded], trivial, rfl, rfl, rfl,
      fun h => by simp_all [PatternTerm.Fixed]⟩

theorem group_recorded {disjunction disjunction' : PatternDisjunction} {ids : Parentheses} {fields' : TermFields}
    {offsets' : Offsets} (hsound : disjunction'.Sound c offsets.inputPosition.toNat)
    (hminimum : disjunction'.minimumSize.toNat = disjunction.size) (hsize : disjunction'.size = disjunction.size)
    (hrecorded : fields' =
      { fields with inputPosition := offsets'.inputPosition.toInt32, frameLocation := fields'.frameLocation })
    (hflag : offsets'.hasFixedSize = false)
    (hposition : offsets'.inputPosition.toNat = offsets.inputPosition.toNat +
      if fields.quantityCount = 1 ∧ ids.isCopy = false ∧ fields.quantityType = .quantifierFixedCount then
        disjunction'.minimumSize.toNat else 0) :
    TermRecorded c start offsets (.parentheses .parenthesesSubpattern disjunction ids fields)
      (.parentheses .parenthesesSubpattern disjunction' ids fields', offsets') := by
  have hkept : PatternTerm.minimumSize (.parentheses .parenthesesSubpattern disjunction' ids fields') =
      PatternTerm.size (.parentheses .parenthesesSubpattern disjunction ids fields) := by
    rw [hrecorded, PatternTerm.minimumSize, PatternTerm.size, hminimum]
  refine ⟨?_, hsound, hkept, ?_, ?_, fun h => absurd (hflag.symm.trans h) (by decide)⟩
  · rw [PatternTerm.Recorded, PatternTerm.minimumSize, hrecorded, ← hposition, UInt32.ofNat_toNat]
  · rw [hrecorded, PatternTerm.size, PatternTerm.size, hsize]
  · rw [hposition, PatternTerm.size, hminimum]

end Terms

mutual

/-- **The offsets of a disjunction are computed exactly if they fit, and what is recorded is right**, by induction on the
disjunction. -/
theorem PatternDisjunction.setupOffsets_sized (c : MatchInput) : (disjunction : PatternDisjunction) →
    ∀ (isBody : Bool) (frame position : UInt32) (unsignedLength : Bool),
    Sized disjunction.WellFormed (disjunction.Fits position.toNat)
      (fun result => result.1.Sound c position.toNat ∧ result.1.minimumSize.toNat = disjunction.size ∧
        result.1.size = disjunction.size)
      (disjunction.setupOffsets isBody frame position unsignedLength)
  | ⟨alternatives, _, _, _⟩, isBody, frame, position, unsignedLength => by
    rw [PatternDisjunction.setupOffsets]
    by_cases hempty : alternatives = []
    · rw [if_pos (by simpa using hempty)]
      exact fun hwell => absurd hempty hwell.1
    · rw [if_neg (by simpa using hempty)]
      simp only
      generalize (if isBody = false ∧ 1 < alternatives.length then _ else frame) = frame
      have hsized := setupAlternativesOffsets_sized c alternatives frame position { unsignedLength }
      refine ((hsized.weaken (·.2)).bind (fun _ h => by rw [h]) ?_).congr (and_iff_left trivial)
      rintro ⟨alternatives', offsets⟩ h ⟨hsound, hsize, hmin⟩
      simp only [h]
      have hminimum : offsets.minimumInputSize.toNat = alternativesSize alternatives :=
        hmin.trans (Nat.min_eq_right (alternativesSize_le alternatives))
      refine ⟨trivial, ⟨fun x y hmatch => ?_, hsound⟩, hminimum, hsize⟩
      rw [hminimum, ← hsize]
      exact alternativesSize_le_of_match alternatives' hmatch

theorem setupAlternativesOffsets_sized (c : MatchInput) : (alternatives : List PatternAlternative) →
    ∀ (frame position : UInt32) (result : DisjunctionOffsets),
    Sized (AlternativesWellFormed alternatives) (AlternativesFit alternatives position.toNat)
      (fun result' => AlternativesSound c result'.1 position.toNat ∧
        alternativesSize result'.1 = alternativesSize alternatives ∧
        result'.2.minimumInputSize.toNat = min result.minimumInputSize.toNat (alternativesSize alternatives))
      (setupAlternativesOffsets frame position result alternatives)
  | [], frame, position, result =>
    ⟨trivial, trivial, rfl, (Nat.min_eq_left (Nat.le_of_lt_succ result.minimumInputSize.toNat_lt)).symm⟩
  | ⟨terms, _, onceThrough, _, startsWithBOL, containsBOL⟩ :: rest, frame, position, result => by
    have hterms := setupTermsOffsets_sized c terms position
      { callFrameSize := frame, inputPosition := position, unsignedLength := result.unsignedLength }
    rw [setupAlternativesOffsets, AlternativesFit]
    refine (hterms.weaken (·.1.1)).bind (fun _ h => by rw [h]) ?_
    rintro ⟨terms', offsets⟩ h ⟨hsound, hsize, hposition, hfixed⟩
    obtain ⟨minimumSize, hsub, hdifference⟩ := checkedSub_of_le (show position.toNat ≤ offsets.inputPosition.toNat by
      rw [hposition]; exact Nat.le_add_right _ _)
    have hminimum : minimumSize.toNat = termsSize terms := by rw [hdifference, hposition, Nat.add_sub_cancel_left]
    simp only [h, hsub]
    refine (((setupAlternativesOffsets_sized c rest frame position _).weaken (·.2)).bind (fun _ h => by rw [h]) ?_).congr
      (and_iff_left trivial)
    rintro ⟨rest', offsets'⟩ h ⟨hsounds, hsizes, hmin⟩
    simp only [h]
    refine ⟨trivial, ⟨⟨fun x y hmatch => ?_, hsound⟩, hsounds⟩, ?_, ?_⟩
    · rw [hminimum, ← hsize]
      exact ⟨termsSize_le terms' hmatch, fun hflag => termsMatch_eq terms' (hfixed hflag).2 hmatch⟩
    · rw [alternativesSize, alternativesSize, hsize, hsizes]
    · rw [hmin, toNat_min, hminimum, alternativesSize, Nat.min_assoc]

theorem setupTermsOffsets_sized (c : MatchInput) : (terms : List PatternTerm) →
    ∀ (start : UInt32) (offsets : Offsets),
    Sized (TermsWellFormed terms) (TermsFit terms offsets.inputPosition.toNat)
      (fun result => TermsSound c result.1 start.toNat offsets.inputPosition.toNat ∧
        termsSize result.1 = termsSize terms ∧
        result.2.inputPosition.toNat = offsets.inputPosition.toNat + termsSize terms ∧
        (result.2.hasFixedSize = true → offsets.hasFixedSize = true ∧ ∀ term ∈ result.1, term.Fixed))
      (setupTermsOffsets start offsets terms)
  | [], start, offsets => ⟨trivial, trivial, rfl, rfl, fun hflag => ⟨hflag, by simp⟩⟩
  | term :: rest, start, offsets => by
    rw [setupTermsOffsets, TermsFit]
    refine ((term.setupOffsets_sized c start offsets).weaken (·.1)).bind (fun _ h => by rw [h]) ?_
    rintro ⟨term', offsets'⟩ h hrecorded
    simp only [h, ← hrecorded.inputPosition_eq]
    refine (((setupTermsOffsets_sized c rest start offsets').weaken (·.2)).bind (fun _ h => by rw [h]) ?_).congr
      (and_iff_left trivial)
    rintro ⟨rest', offsets''⟩ h ⟨hsound, hsize, hposition, hfixed⟩
    simp only [h]
    refine ⟨trivial, ⟨⟨hrecorded.recorded, hrecorded.sound⟩, ?_⟩, ?_, ?_, fun hflag => ?_⟩
    · rw [hrecorded.minimumSize_eq, ← hrecorded.inputPosition_eq]
      exact hsound
    · rw [termsSize, termsSize, hrecorded.size_eq, hsize]
    · rw [hposition, hrecorded.inputPosition_eq, termsSize, Nat.add_assoc]
    · obtain ⟨hflag', hrest'⟩ := hfixed hflag
      obtain ⟨hflag'', hterm'⟩ := hrecorded.hasFixedSize hflag'
      exact ⟨hflag'', List.forall_mem_cons.mpr ⟨hterm', hrest'⟩⟩

theorem PatternTerm.setupOffsets_sized (c : MatchInput) : (term : PatternTerm) →
    ∀ (start : UInt32) (offsets : Offsets),
    Sized term.WellFormed
      (term.Fits offsets.inputPosition.toNat ∧ offsets.inputPosition.toNat + term.size < 2 ^ 32)
      (TermRecorded c start offsets term) (term.setupOffsets start offsets)
  | .term type fields, start, offsets => by
    rw [PatternTerm.setupOffsets]
    exact (setupTermOffsets_sized.weaken fun _ => trivial).congr (and_iff_right trivial).symm
  | .parentheses .parenthesesSubpattern disjunction ids fields, start, offsets => by
    have hinner := fun frame => disjunction.setupOffsets_sized c false frame offsets.inputPosition offsets.unsignedLength
    rw [PatternTerm.setupOffsets, PatternTerm.Fits, PatternTerm.size]
    simp only
    by_cases honce : fields.quantityCount = 1 ∧ ids.isCopy = false
    · rw [if_pos honce]
      generalize (if fields.quantityType ≠ .quantifierFixedCount then _ else offsets.callFrameSize) = frame
      refine (hinner frame).bind (fun _ h => by rw [h]) ?_
      rintro ⟨disjunction', unsignedLength⟩ h ⟨hsound, hminimum, hsize⟩
      simp only [h]
      by_cases hfixed : fields.quantityType = .quantifierFixedCount
      · have hcounted : fields.quantityCount = 1 ∧ ids.isCopy = false ∧ fields.quantityType = .quantifierFixedCount :=
          ⟨honce.1, honce.2, hfixed⟩
        rw [if_pos hfixed, if_pos hcounted, ← hminimum]
        refine (((checkedAdd_sized _ _).weaken fun _ => trivial).bind (fun _ h => by rw [h]) ?_).congr
          (and_iff_left trivial)
        intro sum h hsum
        simp only [h]
        exact ⟨trivial, group_recorded hsound hminimum hsize rfl rfl (by rw [if_pos hcounted]; exact hsum)⟩
      · rw [if_neg hfixed, if_neg fun h => hfixed h.2.2]
        exact ⟨offsets.inputPosition.toNat_lt,
          group_recorded hsound hminimum hsize rfl rfl (by rw [if_neg fun h => hfixed h.2.2]; rfl)⟩
    · have hcounted : ¬(fields.quantityCount = 1 ∧ ids.isCopy = false ∧ fields.quantityType = .quantifierFixedCount) :=
        fun h => honce ⟨h.1, h.2.1⟩
      rw [if_neg honce, if_neg hcounted]
      split_ifs
      all_goals
        refine (hinner _).bind (fun _ h => by rw [h]) ?_
        rintro ⟨disjunction', unsignedLength⟩ h ⟨hsound, hminimum, hsize⟩
        simp only [h]
        exact ⟨offsets.inputPosition.toNat_lt,
          group_recorded hsound hminimum hsize rfl rfl (by rw [if_neg hcounted]; rfl)⟩
  | .parentheses .parentheticalAssertion disjunction ids fields, start, offsets => by
    rw [PatternTerm.setupOffsets, PatternTerm.Fits, PatternTerm.size]
    refine (disjunction.setupOffsets_sized c false _ offsets.inputPosition _).bind (fun _ h => by rw [h]) ?_
    rintro ⟨disjunction', unsignedLength⟩ h ⟨hsound, -⟩
    simp only [h]
    exact ⟨offsets.inputPosition.toNat_lt, by simp [PatternTerm.Recorded, PatternTerm.minimumSize], hsound, rfl, rfl,
      rfl, fun h => ⟨h, trivial⟩⟩

end

/-- **What `setupOffsets` records is right**: each minimum size is a lower bound for all matches, on any input, an
alternative with a fixed size matches nothing longer, and the positions are sums of the minimum sizes. -/
theorem minimumSizes_sound {pattern result : YarrPattern} (h : setupOffsets pattern = .ok result) (c : MatchInput) :
    result.body.Sound c 0 := by
  have hsized := pattern.body.setupOffsets_sized c true 0 0 pattern.containsUnsignedLengthPattern
  rw [setupOffsets] at h
  cases hsetup : pattern.body.setupOffsets true 0 0 pattern.containsUnsignedLengthPattern with
  | error fault =>
    rw [hsetup] at h
    cases h
  | ok body =>
    rw [hsetup] at h hsized
    obtain rfl := Except.ok.inj h
    exact hsized.2.1

/-- The pattern `(a)`, as it is parsed. -/
def capturePattern : YarrPattern where
  ignoreCase := false
  multiline := false
  numSubpatterns := 1
  body :=
    { alternatives :=
        [{ terms :=
            [.parentheses .parenthesesSubpattern { alternatives := [{ terms := [.term (.patternCharacter (ascii 'a')) {}] }] }
              { subpatternId := 1, lastSubpatternId := 1 } { capture := true }] }] }

/-- The pattern `(a)`, on any input. -/
theorem minimumSizes_sound_capture :
    parsePattern [ascii '(', ascii 'a', ascii ')'] false false = some (.ok (.ok capturePattern)) ∧
      ∃ result : YarrPattern, setupOffsets capturePattern = .ok result ∧ result.body.minimumSize = 1 ∧
        ∀ c, result.body.Sound c 0 :=
  ⟨rfl, _, rfl, rfl, minimumSizes_sound (show setupOffsets capturePattern = _ from rfl)⟩

/-- The group in `(a)` is recorded where it ends, though no term is before it. -/
theorem compile_capture_position :
    ∃ result alternative term, setupOffsets capturePattern = .ok result ∧
      compile [ascii '(', ascii 'a', ascii ')'] false false = some ((setupOffsets capturePattern).map .ok) ∧
      result.body.alternatives = [alternative] ∧ alternative.terms = [term] ∧ term.fields.inputPosition ≠ 0 :=
  ⟨_, _, _, rfl, rfl, rfl, rfl, by decide⟩

end WebKit.Yarr
