import Mathlib.Data.Nat.Bitwise
import WebKit.Yarr.YarrCanonicalizeUCS2

/-!
# Canonical equivalence is an equivalence

`areCanonicallyEquivalent` compares two characters by the range of the first one in the table. The pairs and the sets of
the table agree with each other (`rangeInfo_consistent`), so the relation is an equivalence (`equivalent_equivalence`)
and does not relate characters up to 0x7f with others (`Equivalent.ascii_iff`).
-/

namespace WebKit.Yarr

open WebKit.WTF

namespace UCS2CanonicalizationRange

/-- The comparison of `areCanonicallyEquivalent` for a character of the range, with sums and differences of `int`. -/
def equivalent (info : UCS2CanonicalizationRange) (a b : UChar) : Option Bool :=
  match info.type with
  | .canonicalizeUnique => some (a == b)
  | .canonicalizeSet => (characterSetInfo[info.value.toNat]?).map fun set => set.contains b
  | .canonicalizeRangeLo => some (a == b || a.toUInt32 + info.value.toUInt32 == b.toUInt32)
  | .canonicalizeRangeHi => some (a == b || a.toUInt32 - info.value.toUInt32 == b.toUInt32)
  | .canonicalizeAlternatingAligned => some ((a ||| 1) == (b ||| 1))
  | .canonicalizeAlternatingUnaligned => some (((a.toUInt32 - 1) ||| 1) == ((b.toUInt32 - 1) ||| 1))

/-- The character is in the range. -/
def Contains (info : UCS2CanonicalizationRange) (a : UChar) : Prop := info.first ≤ a ∧ a ≤ info.last

def Relates (info : UCS2CanonicalizationRange) (a b : UChar) : Prop :=
  match info.type with
  | .canonicalizeUnique => b = a
  | .canonicalizeSet => ∃ set, characterSetInfo[info.value.toNat]? = some set ∧ b ∈ set
  | .canonicalizeRangeLo => b = a ∨ b.toNat = a.toNat + info.value.toNat
  | .canonicalizeRangeHi => b = a ∨ a.toNat = b.toNat + info.value.toNat
  | .canonicalizeAlternatingAligned => b.toNat / 2 = a.toNat / 2
  | .canonicalizeAlternatingUnaligned => (b.toNat + 1) / 2 = (a.toNat + 1) / 2

/-- The range of the character `first` has the type and the value, and goes on to `last`. -/
def HasPair (type : UCS2CanonicalizationType) (value : UInt16) (first last : Nat) : Prop :=
  ∃ table ∈ rangeInfoFor (.ofNat first), ∃ pair ∈ table.head?,
    pair.type = type ∧ pair.value = value ∧ last ≤ pair.last.toNat

instance (type : UCS2CanonicalizationType) (value : UInt16) (first last : Nat) :
    Decidable (HasPair type value first last) := by
  unfold HasPair
  infer_instance

/-- The range agrees with the others, and characters up to 0x7f are apart from the others. -/
structure Consistent (info : UCS2CanonicalizationRange) : Prop where
  ascii : info.last ≤ 0x7f ∨ 0x80 ≤ info.first ∨ info.type = .canonicalizeUnique
  set : info.type = .canonicalizeSet → ∀ set ∈ characterSetInfo[info.value.toNat]?,
    (∀ n ∈ List.range' info.first.toNat (info.last.toNat + 1 - info.first.toNat), n ∈ set.map UInt16.toNat) ∧
    ∀ ch ∈ set, 0x80 ≤ ch ∧ HasPair .canonicalizeSet info.value ch.toNat ch.toNat
  rangeLo : info.type = .canonicalizeRangeLo → info.last.toNat + info.value.toNat < 65536 ∧
    HasPair .canonicalizeRangeHi info.value (info.first.toNat + info.value.toNat) (info.last.toNat + info.value.toNat)
  rangeHi : info.type = .canonicalizeRangeHi → info.value ≤ info.first ∧
    (0x80 ≤ info.first → 0x80 + info.value.toNat ≤ info.first.toNat) ∧
    HasPair .canonicalizeRangeLo info.value (info.first.toNat - info.value.toNat) (info.last.toNat - info.value.toNat)
  aligned : info.type = .canonicalizeAlternatingAligned → info.first.toNat % 2 = 0 ∧ info.last.toNat % 2 = 1
  unaligned : info.type = .canonicalizeAlternatingUnaligned → info.first.toNat % 2 = 1 ∧ info.last.toNat % 2 = 0

instance (info : UCS2CanonicalizationRange) : Decidable info.Consistent :=
  decidable_of_iff (_ ∧ _ ∧ _ ∧ _ ∧ _ ∧ _)
    ⟨fun ⟨h₁, h₂, h₃, h₄, h₅, h₆⟩ => ⟨h₁, h₂, h₃, h₄, h₅, h₆⟩, fun ⟨h₁, h₂, h₃, h₄, h₅, h₆⟩ => ⟨h₁, h₂, h₃, h₄, h₅, h₆⟩⟩

end UCS2CanonicalizationRange

open UCS2CanonicalizationRange

/-- **The ranges of the table agree with each other.** -/
theorem rangeInfo_consistent : ∀ info ∈ rangeInfo, info.Consistent := by
  have hall : (rangeInfo.all fun info => decide info.Consistent) = true := by decide +kernel
  intro info hinfo
  exact of_decide_eq_true (List.all_eq_true.mp hall info hinfo)

/-- `areCanonicallyEquivalent`. -/
def areCanonicallyEquivalent (a b : UChar) : Option Bool :=
  match rangeInfoFor a with
  | some (info :: _) => info.equivalent a b
  | _ => none

/-- The characters are canonically equivalent. -/
def Equivalent (a b : UChar) : Prop := areCanonicallyEquivalent a b = some true

/-! ## The range of a character -/

section Ranges

variable {lo : Nat} {table : List UCS2CanonicalizationRange} {info other : UCS2CanonicalizationRange} {a b c : UChar}

theorem UCS2CanonicalizationRange.Contains.toNat (h : info.Contains a) : info.first.toNat ≤ a.toNat ∧ a.toNat ≤ info.last.toNat :=
  ⟨UInt16.le_iff_toNat_le.1 h.1, UInt16.le_iff_toNat_le.1 h.2⟩

theorem Tiles.le_first (h : Tiles lo table) (hinfo : info ∈ table) : lo ≤ info.first.toNat := by
  induction table generalizing lo with
  | nil => cases hinfo
  | cons next table ih =>
    obtain ⟨hfirst, hle, hrest⟩ := h
    rw [UInt16.le_iff_toNat_le] at hle
    rcases List.mem_cons.1 hinfo with rfl | hinfo
    · omega
    · have := ih hrest hinfo
      omega

theorem Tiles.unique (h : Tiles lo table) (hinfo : info ∈ table) (hother : other ∈ table) (ha : info.Contains a)
    (ha' : other.Contains a) : info = other := by
  induction table generalizing lo with
  | nil => cases hinfo
  | cons next table ih =>
    obtain ⟨-, -, hrest⟩ := h
    have hlast := ha.toNat
    have hlast' := ha'.toNat
    rcases List.mem_cons.1 hinfo with hnext | hinfo <;> rcases List.mem_cons.1 hother with hnext' | hother
    · rw [hnext, hnext']
    · have := hrest.le_first hother
      subst hnext
      omega
    · have := hrest.le_first hinfo
      subst hnext'
      omega
    · exact ih hrest hinfo hother

theorem exists_range (a : UChar) : ∃ info ∈ rangeInfo, info.Contains a := by
  obtain ⟨info, rest, -, hsuffix, h⟩ := rangeInfoFor_spec a
  exact ⟨info, hsuffix.subset (List.mem_cons_self ..), h⟩

theorem rangeInfoFor_eq (hinfo : info ∈ rangeInfo) (ha : info.Contains a) : ∃ rest, rangeInfoFor a = some (info :: rest) := by
  obtain ⟨found, rest, hfound, hsuffix, h⟩ := rangeInfoFor_spec a
  rw [rangeInfo_tiles.unique hinfo (hsuffix.subset (List.mem_cons_self ..)) ha h]
  exact ⟨rest, hfound⟩

theorem UCS2CanonicalizationRange.HasPair.exists_pair {type : UCS2CanonicalizationType} {value : UInt16} {first last : Nat}
    (h : HasPair type value first last) (hlt : first < 65536) :
    ∃ pair ∈ rangeInfo, pair.type = type ∧ pair.value = value ∧ pair.first.toNat ≤ first ∧ last ≤ pair.last.toNat := by
  obtain ⟨table, htable, pair, hpair, htype, hvalue, hlast⟩ := h
  obtain ⟨found, rest, hfound, hsuffix, hfirst, -⟩ := rangeInfoFor_spec (.ofNat first)
  rw [Option.mem_def, hfound, Option.some.injEq] at htable
  subst htable
  rw [Option.mem_def, List.head?_cons, Option.some.injEq] at hpair
  subst hpair
  rw [UInt16.le_iff_toNat_le, UInt16.toNat_ofNat_of_lt' hlt] at hfirst
  exact ⟨found, hsuffix.subset (List.mem_cons_self ..), htype, hvalue, hfirst, hlast⟩

/-! ## The relation of a range in numbers -/

theorem or_one_eq (n : Nat) : n ||| 1 = n / 2 * 2 + 1 := by
  have hdiv : (n ||| 1) / 2 = n / 2 := by
    rw [Nat.or_div_two]
    exact Nat.or_zero _
  have hmod : (n ||| 1) % 2 = 1 := Nat.or_mod_two_eq_one.2 (.inr rfl)
  omega

theorem xor_one_eq (n : Nat) : n ^^^ 1 = if n % 2 = 0 then n + 1 else n - 1 := by
  have hdiv : (n ^^^ 1) / 2 = n / 2 := by
    rw [Nat.xor_div_two]
    exact Nat.xor_zero _
  have hmod : (n ^^^ 1) % 2 = 1 ↔ ¬n % 2 = 1 := by
    rw [Nat.xor_mod_two_eq_one]
    simp
  split <;> omega

theorem uint16_or_one_eq_iff : a ||| 1 = b ||| 1 ↔ b.toNat / 2 = a.toNat / 2 := by
  rw [← UInt16.toNat_inj, UInt16.toNat_or, UInt16.toNat_or, UInt16.toNat_one, or_one_eq, or_one_eq]
  omega

/-- The numbers below a positive number, in `int`. -/
theorem toNat_pred_toUInt32 (a : UChar) :
    (a.toUInt32 - 1).toNat = if a.toNat = 0 then 2 ^ 32 - 1 else a.toNat - 1 := by
  have hlt := a.toNat_lt
  rw [UInt32.toNat_sub, UInt16.toNat_toUInt32, UInt32.toNat_one]
  split <;> omega

theorem uint32_or_one_eq_iff (ha : 0 < a.toNat) :
    (a.toUInt32 - 1) ||| 1 = (b.toUInt32 - 1) ||| 1 ↔ (b.toNat + 1) / 2 = (a.toNat + 1) / 2 := by
  have hlt := a.toNat_lt
  have hlt' := b.toNat_lt
  rw [← UInt32.toNat_inj, UInt32.toNat_or, UInt32.toNat_or, UInt32.toNat_one, or_one_eq, or_one_eq,
    toNat_pred_toUInt32, toNat_pred_toUInt32]
  split <;> split <;> omega

theorem toUInt32_add_eq_iff {v : UInt16} : a.toUInt32 + v.toUInt32 = b.toUInt32 ↔ b.toNat = a.toNat + v.toNat := by
  have hlt := a.toNat_lt
  have hlt' := v.toNat_lt
  rw [← UInt32.toNat_inj, UInt32.toNat_add, UInt16.toNat_toUInt32, UInt16.toNat_toUInt32, UInt16.toNat_toUInt32]
  omega

theorem toUInt32_sub_eq_iff {v : UInt16} (hle : v.toNat ≤ a.toNat) :
    a.toUInt32 - v.toUInt32 = b.toUInt32 ↔ a.toNat = b.toNat + v.toNat := by
  have hlt := a.toNat_lt
  have hlt' := v.toNat_lt
  rw [← UInt32.toNat_inj, UInt32.toNat_sub, UInt16.toNat_toUInt32, UInt16.toNat_toUInt32, UInt16.toNat_toUInt32]
  omega

theorem equivalent_iff_relates (hinfo : info ∈ rangeInfo) (ha : info.Contains a) :
    info.equivalent a b = some true ↔ info.Relates a b := by
  have hc := rangeInfo_consistent info hinfo
  have hn := ha.toNat
  unfold equivalent Relates
  cases htype : info.type with
  | canonicalizeUnique =>
    simp only [Option.some.injEq, beq_iff_eq]
    exact eq_comm
  | canonicalizeSet =>
    refine Option.map_eq_some_iff.trans (exists_congr fun set => and_congr_right fun _ => ?_)
    rw [List.contains_eq_mem, decide_eq_true_eq]
  | canonicalizeRangeLo => simp [toUInt32_add_eq_iff, eq_comm (a := a)]
  | canonicalizeRangeHi =>
    have hle := UInt16.le_iff_toNat_le.1 (hc.rangeHi htype).1
    simp [toUInt32_sub_eq_iff (hle.trans hn.1), eq_comm (a := a)]
  | canonicalizeAlternatingAligned => simp [uint16_or_one_eq_iff]
  | canonicalizeAlternatingUnaligned =>
    have hodd := (hc.unaligned htype).1
    simp [uint32_or_one_eq_iff (a := a) (by omega)]

/-- **Equivalence, by the range of the first character.** -/
theorem equivalent_iff (hinfo : info ∈ rangeInfo) (ha : info.Contains a) : Equivalent a b ↔ info.Relates a b := by
  obtain ⟨rest, h⟩ := rangeInfoFor_eq hinfo ha
  unfold Equivalent areCanonicallyEquivalent
  simp only [h]
  exact equivalent_iff_relates hinfo ha

/-! ## Equivalence -/

theorem UCS2CanonicalizationRange.Consistent.set_spec (hc : info.Consistent) (htype : info.type = .canonicalizeSet)
    {set : List UChar} (hset : characterSetInfo[info.value.toNat]? = some set) :
    (∀ a, info.Contains a → a ∈ set) ∧ ∀ b ∈ set, 0x80 ≤ b ∧
      ∃ pair ∈ rangeInfo, pair.type = .canonicalizeSet ∧ pair.value = info.value ∧ pair.Contains b := by
  obtain ⟨hall, hmem⟩ := hc.set htype set hset
  refine ⟨fun a ha => ?_, fun b hb => ⟨(hmem b hb).1, ?_⟩⟩
  · have hn := ha.toNat
    obtain ⟨b, hb, he⟩ := List.mem_map.1 (hall a.toNat (List.mem_range'_1.2 (by omega)))
    exact UInt16.toNat_inj.1 he ▸ hb
  · obtain ⟨pair, hpair, htype', hvalue, hfirst, hlast⟩ := (hmem b hb).2.exists_pair b.toNat_lt
    exact ⟨pair, hpair, htype', hvalue, UInt16.le_iff_toNat_le.2 hfirst, UInt16.le_iff_toNat_le.2 hlast⟩

theorem rangeInfo_set (hinfo : info ∈ rangeInfo) (htype : info.type = .canonicalizeSet) :
    ∃ set, characterSetInfo[info.value.toNat]? = some set :=
  ⟨_, List.getElem?_eq_getElem (rangeInfo_sets info hinfo htype)⟩

theorem Equivalent.refl (a : UChar) : Equivalent a a := by
  obtain ⟨info, hinfo, ha⟩ := exists_range a
  have hc := rangeInfo_consistent info hinfo
  rw [equivalent_iff hinfo ha]
  unfold Relates
  cases htype : info.type with
  | canonicalizeSet =>
    obtain ⟨set, hset⟩ := rangeInfo_set hinfo htype
    exact ⟨set, hset, (hc.set_spec htype hset).1 a ha⟩
  | canonicalizeUnique => rfl
  | canonicalizeRangeLo => exact .inl rfl
  | canonicalizeRangeHi => exact .inl rfl
  | canonicalizeAlternatingAligned => rfl
  | canonicalizeAlternatingUnaligned => rfl

theorem Equivalent.congr (h : Equivalent a b) : Equivalent a c ↔ Equivalent b c := by
  obtain ⟨info, hinfo, ha⟩ := exists_range a
  have hc := rangeInfo_consistent info hinfo
  have hn := ha.toNat
  have hrelates := (equivalent_iff hinfo ha).1 h
  rw [equivalent_iff hinfo ha]
  unfold Relates at hrelates ⊢
  cases htype : info.type with
  | canonicalizeUnique =>
    simp only [htype] at hrelates ⊢
    rw [hrelates, equivalent_iff hinfo ha, Relates, htype]
  | canonicalizeSet =>
    simp only [htype] at hrelates ⊢
    obtain ⟨set, hset, hb⟩ := hrelates
    obtain ⟨-, pair, hpair, htype', hvalue, hb'⟩ := (hc.set_spec htype hset).2 b hb
    rw [equivalent_iff hpair hb', Relates, htype']
    simp only [hvalue]
  | canonicalizeRangeLo =>
    simp only [htype] at hrelates ⊢
    obtain ⟨hmax, hpair⟩ := hc.rangeLo htype
    rcases hrelates with rfl | hb
    · rw [equivalent_iff hinfo ha, Relates, htype]
    · obtain ⟨pair, hpair, htype', hvalue, hfirst, hlast⟩ := hpair.exists_pair (by omega)
      have hb' : pair.Contains b := ⟨UInt16.le_iff_toNat_le.2 (by omega), UInt16.le_iff_toNat_le.2 (by omega)⟩
      rw [equivalent_iff hpair hb', Relates, htype']
      simp only [hvalue, ← UInt16.toNat_inj]
      omega
  | canonicalizeRangeHi =>
    simp only [htype] at hrelates ⊢
    obtain ⟨hmin, -, hpair⟩ := hc.rangeHi htype
    rw [UInt16.le_iff_toNat_le] at hmin
    have hlt := info.first.toNat_lt
    rcases hrelates with rfl | hb
    · rw [equivalent_iff hinfo ha, Relates, htype]
    · obtain ⟨pair, hpair, htype', hvalue, hfirst, hlast⟩ := hpair.exists_pair (by omega)
      have hb' : pair.Contains b := ⟨UInt16.le_iff_toNat_le.2 (by omega), UInt16.le_iff_toNat_le.2 (by omega)⟩
      rw [equivalent_iff hpair hb', Relates, htype']
      simp only [hvalue, ← UInt16.toNat_inj]
      omega
  | canonicalizeAlternatingAligned =>
    simp only [htype] at hrelates ⊢
    have hends := hc.aligned htype
    have hb : info.Contains b := ⟨UInt16.le_iff_toNat_le.2 (by omega), UInt16.le_iff_toNat_le.2 (by omega)⟩
    rw [equivalent_iff hinfo hb, Relates, htype]
    simp only [hrelates]
  | canonicalizeAlternatingUnaligned =>
    simp only [htype] at hrelates ⊢
    have hends := hc.unaligned htype
    have hb : info.Contains b := ⟨UInt16.le_iff_toNat_le.2 (by omega), UInt16.le_iff_toNat_le.2 (by omega)⟩
    rw [equivalent_iff hinfo hb, Relates, htype]
    simp only [hrelates]

/-- **Canonical equivalence is an equivalence.** -/
theorem equivalent_equivalence : Equivalence Equivalent where
  refl := .refl
  symm := fun {a _} h => h.congr.1 (.refl a)
  trans := fun h h' => h.congr.2 h'

/-! ## Characters up to 0x7f -/

/-- Characters behind 0x7f are related with such characters only. -/
theorem Equivalent.of_le (h : Equivalent a b) (ha : 0x80 ≤ a) : 0x80 ≤ b := by
  obtain ⟨info, hinfo, hin⟩ := exists_range a
  have hc := rangeInfo_consistent info hinfo
  have hn := hin.toNat
  have hrelates := (equivalent_iff hinfo hin).1 h
  have hascii := hc.ascii
  rw [UInt16.le_iff_toNat_le] at ha ⊢
  rw [UInt16.le_iff_toNat_le, UInt16.le_iff_toNat_le] at hascii
  have h80 : (0x80 : UChar).toNat = 0x80 := rfl
  have h7f : (0x7f : UChar).toNat = 0x7f := rfl
  unfold Relates at hrelates
  cases htype : info.type with
  | canonicalizeUnique =>
    simp only [htype] at hrelates
    rwa [hrelates]
  | canonicalizeSet =>
    simp only [htype] at hrelates
    obtain ⟨set, hset, hb⟩ := hrelates
    exact UInt16.le_iff_toNat_le.1 ((hc.set_spec htype hset).2 b hb).1
  | canonicalizeRangeLo =>
    simp only [htype] at hrelates
    rcases hrelates with rfl | hb
    · exact ha
    · omega
  | canonicalizeRangeHi =>
    simp only [htype] at hrelates
    have hpairs := (hc.rangeHi htype).2.1
    simp only [htype, reduceCtorEq, or_false] at hascii
    rw [UInt16.le_iff_toNat_le] at hpairs
    rcases hrelates with rfl | hb
    · exact ha
    · omega
  | canonicalizeAlternatingAligned =>
    simp only [htype] at hrelates
    omega
  | canonicalizeAlternatingUnaligned =>
    simp only [htype] at hrelates
    have hends := hc.unaligned htype
    simp only [htype, reduceCtorEq, or_false] at hascii
    omega

theorem ascii_ranges : ∀ info ∈ rangeInfo, info.first ≤ 0x7f → info ∈ rangeInfo.take 5 := by
  have hall : (rangeInfo.all fun info => decide (info.first ≤ 0x7f → info ∈ rangeInfo.take 5)) = true := by
    decide +kernel
  intro info hinfo
  exact of_decide_eq_true (List.all_eq_true.mp hall info hinfo)

/-- **The letters up to 0x7f are equivalent in pairs**, the other characters up to 0x7f to themselves only. -/
theorem equivalent_ascii_iff (ha : a ≤ 0x7f) : Equivalent a b ↔ b = a ∨
    (0x41 ≤ a.toNat ∧ a.toNat ≤ 0x5a ∧ b.toNat = a.toNat + 0x20) ∨
    (0x61 ≤ a.toNat ∧ a.toNat ≤ 0x7a ∧ a.toNat = b.toNat + 0x20) := by
  obtain ⟨info, hinfo, hin⟩ := exists_range a
  rw [equivalent_iff hinfo hin]
  have hmem := ascii_ranges info hinfo (UInt16.le_trans hin.1 ha)
  have hn := hin.toNat
  have ha' : a.toNat ≤ 0x7f := UInt16.le_iff_toNat_le.1 ha
  have htake : rangeInfo.take 5 = [⟨0x0000, 0x0040, 0, .canonicalizeUnique⟩, ⟨0x0041, 0x005a, 0x0020, .canonicalizeRangeLo⟩,
    ⟨0x005b, 0x0060, 0, .canonicalizeUnique⟩, ⟨0x0061, 0x007a, 0x0020, .canonicalizeRangeHi⟩,
    ⟨0x007b, 0x00b4, 0, .canonicalizeUnique⟩] := rfl
  rw [htake] at hmem
  simp only [List.mem_cons, List.not_mem_nil, or_false] at hmem
  rcases hmem with rfl | rfl | rfl | rfl | rfl <;> simp [Relates, ← UInt16.toNat_inj] at hn ⊢ <;> omega

end Ranges

end WebKit.Yarr
