import WebKit.Yarr.CharacterClassAdds

/-!
# The `CharacterClassConstructor` is exact

After any calls of `putChar`, `putRange` and `append`, the vectors of a class are sorted and it accepts the characters
that the calls give (`characterClass_exact`). The classes that are appended, those of the escapes, are sorted and closed
under canonical equivalence (`appended_closed`).
-/

namespace WebKit.Yarr

open WebKit.WTF

/-! ## Calls -/

open CharacterClass

inductive ClassCall
  | putChar (ch : UChar)
  | putRange (lo hi : UChar)
  | append (other : CharacterClass)

namespace ClassCall

def run (isCaseInsensitive : Bool) (c : CharacterClass) : ClassCall → Option CharacterClass
  | putChar ch => c.putChar isCaseInsensitive ch
  | putRange lo hi => c.putRange isCaseInsensitive lo hi
  | append other => c.append other

/-- The bounds of a range are in order, and the vectors of another class are sorted. -/
def Valid : ClassCall → Prop
  | putChar _ => True
  | putRange lo hi => lo ≤ hi
  | append other => other.Sorted

/-- The characters that the call names. -/
def Names : ClassCall → UChar → Prop
  | putChar ch, x => x = ch
  | putRange lo hi, x => lo ≤ x ∧ x ≤ hi
  | append other, x => other.Accepts x

/-- The characters that the call adds. A class is appended as it is. -/
def Gives (isCaseInsensitive : Bool) (call : ClassCall) (x : UChar) : Prop :=
  match call with
  | append other => other.Accepts x
  | _ => ∃ y, call.Names y ∧ Matches isCaseInsensitive y x

/-- An appended class accepts the characters that are equivalent to those that it accepts. -/
def Closed (isCaseInsensitive : Bool) : ClassCall → Prop
  | append other => ∀ x y, Matches isCaseInsensitive x y → other.Accepts x → other.Accepts y
  | _ => True

variable {isCaseInsensitive : Bool} {c : CharacterClass} {call : ClassCall} {calls : List ClassCall} {x : UChar}

/-- **Each call adds its characters.** -/
theorem run_adds (hc : c.Sorted) (h : call.Valid) :
    Adds c (call.Gives isCaseInsensitive) (call.run isCaseInsensitive c) := by
  cases call with
  | putChar ch => exact (putChar_adds isCaseInsensitive hc).of_iff fun x => by simp [Gives, Names]
  | putRange lo hi =>
    exact (putRange_adds isCaseInsensitive hc h).of_iff fun x => by simp [Gives, Names, MatchesRange, and_assoc]
  | append other => exact append_adds hc h

theorem Closed.gives_iff (h : call.Closed isCaseInsensitive) :
    call.Gives isCaseInsensitive x ↔ ∃ y, call.Names y ∧ Matches isCaseInsensitive y x := by
  cases call with
  | putChar ch => exact Iff.rfl
  | putRange lo hi => exact Iff.rfl
  | append other => exact ⟨fun hx => ⟨x, hx, matches_refl isCaseInsensitive x⟩, fun ⟨y, hy, hxy⟩ => h y x hxy hy⟩

end ClassCall

/-- The class after the calls. -/
def construct (isCaseInsensitive : Bool) (calls : List ClassCall) : Option CharacterClass :=
  calls.foldlM (fun c call => call.run isCaseInsensitive c) {}

theorem sorted_empty : CharacterClass.Sorted {} := ⟨.nil, ⟨by simp, .nil⟩, .nil, ⟨by simp, .nil⟩⟩

/-! ## The classes that are appended -/

variable {c : CharacterClass} {x : UChar}

theorem accepts_inverted {classID : BuiltInCharacterClassID} {inverted : CharacterClass}
    (h : classID.appended false = some c) (h' : classID.appended true = some inverted) :
    inverted.Accepts x ↔ ¬c.Accepts x := by
  have hlt := x.toNat_lt
  cases classID <;> cases h <;> cases h' <;> rcases ascii_or_unicode x with h | h
  all_goals
    first | rw [accepts_ascii h, accepts_ascii h] | rw [accepts_unicode h, accepts_unicode h]
    rw [UInt16.le_iff_toNat_le] at h
    simp [nondigitsCreate, digitsCreate, nonspacesCreate, spacesCreate, nonwordcharCreate, wordcharCreate, InRanges,
      UInt16.le_iff_toNat_le, ← UInt16.toNat_inj] at h ⊢
    omega

theorem accepts_of_unique (h : ∀ info ∈ rangeInfo, info.type = .canonicalizeUnique ∨
    (∀ y ∈ c.matchesASCII ++ c.matchesUnicode, y < info.first ∨ info.last < y) ∧
    ∀ range ∈ c.rangesASCII ++ c.rangesUnicode, range.last < info.first ∨ info.last < range.first) :
    ∀ x y, Equivalent x y → c.Accepts x → c.Accepts y := by
  intro x y hxy hx
  obtain ⟨info, hinfo, hin⟩ := exists_range x
  have hout : ∀ {chars : List UChar} {ranges : List CharacterRange}, x ∈ chars ∨ InRanges ranges x →
      chars ⊆ c.matchesASCII ++ c.matchesUnicode → ranges ⊆ c.rangesASCII ++ c.rangesUnicode →
      info.type = .canonicalizeUnique := by
    intro chars ranges hmem hchars hranges
    refine (h info hinfo).resolve_right fun ⟨h₁, h₂⟩ => ?_
    have hn := hin.toNat
    rcases hmem with hmem | ⟨range, hrange, hfirst, hlast⟩
    · have hcase := h₁ x (hchars hmem)
      rw [UInt16.lt_iff_toNat_lt, UInt16.lt_iff_toNat_lt] at hcase
      omega
    · have hcase := h₂ range (hranges hrange)
      rw [UInt16.lt_iff_toNat_lt, UInt16.lt_iff_toNat_lt] at hcase
      rw [UInt16.le_iff_toNat_le] at hfirst hlast
      omega
  have hunique : info.type = .canonicalizeUnique := by
    rcases ascii_or_unicode x with hle | hle
    · exact hout ((accepts_ascii hle).1 hx) (List.subset_append_left ..) (List.subset_append_left ..)
    · exact hout ((accepts_unicode hle).1 hx) (List.subset_append_right ..) (List.subset_append_right ..)
  have hrelates := (equivalent_iff hinfo hin).1 hxy
  rw [UCS2CanonicalizationRange.Relates, hunique] at hrelates
  exact hrelates ▸ hx

theorem accepts_wordchar : wordcharCreate.Accepts x ↔ x ≤ 0x7f ∧
    (x.toNat = 0x5f ∨ 0x30 ≤ x.toNat ∧ x.toNat ≤ 0x39 ∨ 0x41 ≤ x.toNat ∧ x.toNat ≤ 0x5a ∨
      0x61 ≤ x.toNat ∧ x.toNat ≤ 0x7a) := by
  rcases ascii_or_unicode x with h | h
  · rw [accepts_ascii h, and_iff_right h]
    simp [wordcharCreate, InRanges, UInt16.le_iff_toNat_le, ← UInt16.toNat_inj]
  · rw [accepts_unicode h]
    simp [wordcharCreate, InRanges, not_le_7f h]

/-- **The appended classes are valid and closed.** -/
theorem appended_closed {classID : BuiltInCharacterClassID} {invert : Bool} (h : classID.appended invert = some c) :
    (ClassCall.append c).Valid ∧ ∀ isCaseInsensitive, (ClassCall.append c).Closed isCaseInsensitive := by
  have hplain : ∀ {d : CharacterClass}, classID.appended false = some d →
      ∀ x y, Equivalent x y → d.Accepts x → d.Accepts y := by
    intro d hd
    cases classID <;> cases hd
    · exact accepts_of_unique (by decide +kernel)
    · exact accepts_of_unique (by decide +kernel)
    · show ∀ x y, Equivalent x y → wordcharCreate.Accepts x → wordcharCreate.Accepts y
      intro x y hxy hx
      rw [accepts_wordchar] at hx ⊢
      have hy := (equivalent_ascii_iff hx.1).1 hxy
      rw [← UInt16.toNat_inj] at hy
      rw [le_7f_iff] at hx ⊢
      omega
  constructor
  · cases classID <;> cases invert <;> cases h <;>
      exact ⟨by unfold SortedChars; decide, ⟨by decide, by decide⟩, by unfold SortedChars; decide,
        ⟨by decide, by decide⟩⟩
  · intro isCaseInsensitive x y hxy hx
    cases isCaseInsensitive with
    | false => exact matches_false.1 hxy ▸ hx
    | true =>
      cases invert with
      | false => exact hplain h x y hxy hx
      | true =>
        obtain ⟨d, hd⟩ : ∃ d, classID.appended false = some d := by
          cases classID with
          | newlineClassID => cases h
          | _ => exact ⟨_, rfl⟩
        rw [accepts_inverted hd h] at hx ⊢
        exact fun hy => hx (hplain hd y x (equivalent_equivalence.symm hxy) hy)

/-! ## Runs -/

/-- What a class is after calls. -/
structure ExactClass (isCaseInsensitive : Bool) (calls : List ClassCall) (c : CharacterClass) : Prop where
  sorted : c.Sorted
  accepts_iff : ∀ x, c.Accepts x ↔ ∃ call ∈ calls, call.Gives isCaseInsensitive x
  accepts_iff_of_closed : (∀ call ∈ calls, call.Closed isCaseInsensitive) →
    ∀ x, c.Accepts x ↔ ∃ call ∈ calls, ∃ y, call.Names y ∧ Matches isCaseInsensitive y x
  closed : (∀ call ∈ calls, call.Closed isCaseInsensitive) →
    ∀ x y, Matches isCaseInsensitive x y → c.Accepts x → c.Accepts y

/-- **A class is exact after any calls.** -/
theorem characterClass_exact (isCaseInsensitive : Bool) (calls : List ClassCall) (h : ∀ call ∈ calls, call.Valid) :
    ∃ c, construct isCaseInsensitive calls = some c ∧ ExactClass isCaseInsensitive calls c := by
  have hrun : ∀ (calls : List ClassCall) (c : CharacterClass), (∀ call ∈ calls, call.Valid) → c.Sorted →
      Adds c (fun x => ∃ call ∈ calls, call.Gives isCaseInsensitive x)
        (calls.foldlM (fun c call => call.run isCaseInsensitive c) c) := by
    intro calls
    induction calls with
    | nil => exact fun c _ hc => (Adds.none hc).of_iff fun x => by simp
    | cons call calls ih =>
      intro c h hc
      rw [List.forall_mem_cons] at h
      exact ((ClassCall.run_adds hc h.1).bind fun c' hc' => ih c' h.2 hc').of_iff fun x => by simp
  obtain ⟨c, hc, hsorted, haccepts⟩ := hrun calls {} h sorted_empty
  have hempty : ∀ x, ¬CharacterClass.Accepts {} x := fun x => by simp [Accepts, testCharacterClass]
  have hiff : ∀ x, c.Accepts x ↔ ∃ call ∈ calls, call.Gives isCaseInsensitive x := fun x => by
    rw [haccepts, or_iff_right (hempty x)]
  have hclosed : (∀ call ∈ calls, call.Closed isCaseInsensitive) →
      ∀ x, c.Accepts x ↔ ∃ call ∈ calls, ∃ y, call.Names y ∧ Matches isCaseInsensitive y x := fun hclosed x =>
    (hiff x).trans (exists_congr fun call => and_congr_right fun hcall => (hclosed call hcall).gives_iff)
  refine ⟨c, hc, hsorted, hiff, hclosed, fun h x y hxy hx => ?_⟩
  obtain ⟨call, hcall, z, hz, hzx⟩ := (hclosed h x).1 hx
  exact (hclosed h y).2 ⟨call, hcall, z, hz, hzx.trans hxy⟩

/-- A range over both kinds of characters, a letter and an escape. -/
theorem characterClass_exact_mixed :
    ∃ c, construct true [.putRange 0x5a 0x101, .putChar 0x6b, .append digitsCreate] = some c ∧
      ExactClass true [.putRange 0x5a 0x101, .putChar 0x6b, .append digitsCreate] c := by
  have hdigits : (ClassCall.append digitsCreate).Valid := ⟨by unfold SortedChars; decide, ⟨by decide, by decide⟩,
    by unfold SortedChars; decide, ⟨by decide, by decide⟩⟩
  refine characterClass_exact true _ ?_
  rw [List.forall_mem_cons, List.forall_mem_cons, List.forall_mem_singleton]
  exact ⟨UInt16.le_iff_toNat_le.2 (by decide), trivial, hdigits⟩

end WebKit.Yarr
