import WebKit.Yarr.CharacterClassVectors
import WebKit.Yarr.YarrCanonicalEquivalence

/-!
# What the `CharacterClassConstructor` adds

`testCharacterClass` reads the vectors of a class. `Adds c S result` says what an operation on `c` does: its result is
sorted and accepts the characters of `c` and those of `S`. `putChar` adds the characters that are equivalent to one
(`putChar_adds`), `putRange` those that are equivalent to one of a range (`putRange_adds`), by the part of the range in
each range of the table (`putEquivalents_adds`, `putRangeFrom_adds`), and `append` those of another class
(`append_adds`).
-/

namespace WebKit.Yarr

open WebKit.WTF

namespace CharacterClass

/-- `Interpreter::testCharacterClass`. -/
def testCharacterClass (c : CharacterClass) (ch : UChar) : Bool :=
  if ch &&& 0xff80 ≠ 0 then
    c.matchesUnicode.any (fun match_ => ch == match_) ||
      c.rangesUnicode.any fun range => range.first ≤ ch && ch ≤ range.last
  else
    c.matchesASCII.any (fun match_ => ch == match_) ||
      c.rangesASCII.any fun range => range.first ≤ ch && ch ≤ range.last

def Accepts (c : CharacterClass) (x : UChar) : Prop := c.testCharacterClass x = true

/-- The vectors are sorted, and the ranges are disjoint and not adjacent. -/
structure Sorted (c : CharacterClass) : Prop where
  matchesASCII : SortedChars c.matchesASCII
  rangesASCII : SortedRanges c.rangesASCII
  matchesUnicode : SortedChars c.matchesUnicode
  rangesUnicode : SortedRanges c.rangesUnicode

/-- What an operation on `c` adds: the result is sorted and accepts the characters of `S` besides those of `c`. -/
def Adds (c : CharacterClass) (S : UChar → Prop) (result : Option CharacterClass) : Prop :=
  ∃ c', result = some c' ∧ c'.Sorted ∧ ∀ x, c'.Accepts x ↔ c.Accepts x ∨ S x

variable {c other : CharacterClass} {S T : UChar → Prop} {result : Option CharacterClass}
  {f : CharacterClass → Option CharacterClass} {x ch lo hi last : UChar} {more : List UChar}

/-! ## Vectors -/

theorem and_ff80_eq (n : Nat) (h : n < 65536) : n &&& 0xff80 = n / 128 * 128 := by
  have hdiv : (n &&& 0xff80) / 2 ^ 7 = n / 2 ^ 7 := by
    rw [Nat.and_div_two_pow, show 0xff80 / 2 ^ 7 = 2 ^ 9 - 1 from rfl, Nat.and_two_pow_sub_one_eq_mod]
    omega
  have hmod : (n &&& 0xff80) % 2 ^ 7 = 0 := by
    rw [Nat.and_mod_two_pow]
    exact Nat.and_zero _
  omega

theorem and_ff80_ne_zero_iff : x &&& 0xff80 ≠ 0 ↔ 0x80 ≤ x := by
  have hlt := x.toNat_lt
  rw [ne_eq, ← UInt16.toNat_inj, UInt16.toNat_and, UInt16.le_iff_toNat_le]
  show ¬x.toNat &&& 0xff80 = 0 ↔ 0x80 ≤ x.toNat
  rw [and_ff80_eq _ hlt]
  omega

theorem any_ranges {ranges : List CharacterRange} :
    (ranges.any fun range => range.first ≤ x && x ≤ range.last) = true ↔ InRanges ranges x := by
  simp [InRanges]

theorem accepts_ascii (h : x ≤ 0x7f) : c.Accepts x ↔ x ∈ c.matchesASCII ∨ InRanges c.rangesASCII x := by
  have hnot : ¬x &&& 0xff80 ≠ 0 := by
    rw [and_ff80_ne_zero_iff, UInt16.le_iff_toNat_le]
    rw [UInt16.le_iff_toNat_le] at h
    exact Nat.not_le.2 (Nat.lt_succ_of_le h)
  rw [Accepts, testCharacterClass, if_neg hnot, Bool.or_eq_true, any_ranges]
  simp

theorem accepts_unicode (h : 0x80 ≤ x) : c.Accepts x ↔ x ∈ c.matchesUnicode ∨ InRanges c.rangesUnicode x := by
  rw [Accepts, testCharacterClass, if_pos (and_ff80_ne_zero_iff.2 h), Bool.or_eq_true, any_ranges]
  simp

theorem ascii_or_unicode (x : UChar) : x ≤ 0x7f ∨ 0x80 ≤ x := by
  rw [UInt16.le_iff_toNat_le, UInt16.le_iff_toNat_le]
  exact Nat.lt_or_ge x.toNat 0x80 |>.imp Nat.le_of_lt_succ id

theorem not_le_7f (h : 0x80 ≤ x) : ¬x ≤ 0x7f := fun hle => absurd (UInt16.le_trans h hle) (by decide)

theorem not_80_le (h : x ≤ 0x7f) : ¬0x80 ≤ x := fun hle => not_le_7f hle h

theorem Adds.of_ascii (c' : CharacterClass) (hresult : result = some c') (hsorted : c'.Sorted)
    (hmatches : c'.matchesUnicode = c.matchesUnicode) (hranges : c'.rangesUnicode = c.rangesUnicode)
    (hascii : ∀ x, x ∈ c'.matchesASCII ∨ InRanges c'.rangesASCII x ↔
      (x ∈ c.matchesASCII ∨ InRanges c.rangesASCII x) ∨ S x) : Adds c (fun x => x ≤ 0x7f ∧ S x) result := by
  refine ⟨c', hresult, hsorted, fun x => ?_⟩
  rcases ascii_or_unicode x with h | h
  · simp only [accepts_ascii h, hascii, h, true_and]
  · simp only [accepts_unicode h, hmatches, hranges, not_le_7f h, false_and, or_false]

theorem Adds.of_unicode (c' : CharacterClass) (hresult : result = some c') (hsorted : c'.Sorted)
    (hmatches : c'.matchesASCII = c.matchesASCII) (hranges : c'.rangesASCII = c.rangesASCII)
    (hunicode : ∀ x, x ∈ c'.matchesUnicode ∨ InRanges c'.rangesUnicode x ↔
      (x ∈ c.matchesUnicode ∨ InRanges c.rangesUnicode x) ∨ S x) : Adds c (fun x => 0x80 ≤ x ∧ S x) result := by
  refine ⟨c', hresult, hsorted, fun x => ?_⟩
  rcases ascii_or_unicode x with h | h
  · simp only [accepts_ascii h, hmatches, hranges, not_80_le h, false_and, or_false]
  · simp only [accepts_unicode h, hunicode, h, true_and]

section Vectors

variable (hc : c.Sorted)

include hc

theorem addMatchesASCII_adds : Adds c (fun x => x ≤ 0x7f ∧ x ∈ more) (c.addMatchesASCII more) := by
  obtain ⟨out, hadd, hsorted, hmem⟩ := addAllSorted_spec hc.matchesASCII
  refine .of_ascii { c with matchesASCII := out } ?_ { hc with matchesASCII := hsorted } rfl rfl fun x => ?_
  · rw [addMatchesASCII, hadd, Option.map_some]
  · rw [hmem, or_comm (a := x ∈ more), or_right_comm]

theorem addMatchesUnicode_adds : Adds c (fun x => 0x80 ≤ x ∧ x ∈ more) (c.addMatchesUnicode more) := by
  obtain ⟨out, hadd, hsorted, hmem⟩ := addAllSorted_spec hc.matchesUnicode
  refine .of_unicode { c with matchesUnicode := out } ?_ { hc with matchesUnicode := hsorted } rfl rfl fun x => ?_
  · rw [addMatchesUnicode, hadd, Option.map_some]
  · rw [hmem, or_comm (a := x ∈ more), or_right_comm]

theorem addRangeASCII_adds (hle : lo ≤ hi) :
    Adds c (fun x => x ≤ 0x7f ∧ lo ≤ x ∧ x ≤ hi) (some (c.addRangeASCII lo hi)) := by
  obtain ⟨hsorted, hmem⟩ := addSortedRange_spec hc.rangesASCII hle
  refine .of_ascii _ rfl { hc with rangesASCII := hsorted } rfl rfl fun x => ?_
  rw [addRangeASCII, hmem, or_comm (a := lo ≤ x ∧ x ≤ hi), or_assoc]

theorem addRangeUnicode_adds (hle : lo ≤ hi) :
    Adds c (fun x => 0x80 ≤ x ∧ lo ≤ x ∧ x ≤ hi) (some (c.addRangeUnicode lo hi)) := by
  obtain ⟨hsorted, hmem⟩ := addSortedRange_spec hc.rangesUnicode hle
  refine .of_unicode _ rfl { hc with rangesUnicode := hsorted } rfl rfl fun x => ?_
  rw [addRangeUnicode, hmem, or_comm (a := lo ≤ x ∧ x ≤ hi), or_assoc]

theorem Adds.none : Adds c (fun _ => False) (some c) := ⟨c, rfl, hc, fun x => by simp⟩

end Vectors

/-- Operations one after the other, of which the second one may use what is accepted after the first one. -/
theorem Adds.bind_of_accepts (h : Adds c S result)
    (hf : ∀ c', c'.Sorted → (∀ x, c.Accepts x ∨ S x → c'.Accepts x) → Adds c' T (f c')) :
    Adds c (fun x => S x ∨ T x) (result.bind f) := by
  obtain ⟨c', rfl, hsorted, haccepts⟩ := h
  obtain ⟨c'', hresult, hsorted', haccepts'⟩ := hf c' hsorted fun x => (haccepts x).2
  exact ⟨c'', hresult, hsorted', fun x => by rw [haccepts', haccepts, or_assoc]⟩

/-- Operations one after the other. -/
theorem Adds.bind (h : Adds c S result) (hf : ∀ c', c'.Sorted → Adds c' T (f c')) :
    Adds c (fun x => S x ∨ T x) (result.bind f) := h.bind_of_accepts fun c' hc' _ => hf c' hc'

/-- The added characters in another form, besides those that were accepted before. -/
theorem Adds.congr (h : Adds c S result) (hST : ∀ x, c.Accepts x ∨ S x ↔ c.Accepts x ∨ T x) : Adds c T result := by
  obtain ⟨c', hresult, hsorted, haccepts⟩ := h
  exact ⟨c', hresult, hsorted, fun x => by rw [haccepts, hST]⟩

theorem Adds.of_iff (h : Adds c S result) (hST : ∀ x, S x ↔ T x) : Adds c T result :=
  h.congr fun x => or_congr_right (hST x)

/-! ## `putChar` -/

/-- The characters that a class with `y` accepts. -/
def Matches (isCaseInsensitive : Bool) (y x : UChar) : Prop := if isCaseInsensitive then Equivalent y x else x = y

theorem matches_true {y : UChar} : Matches true y x ↔ Equivalent y x := Iff.rfl

theorem matches_false {y : UChar} : Matches false y x ↔ x = y := by simp [Matches]

theorem putUnicodeIgnoreCase_adds {info : UCS2CanonicalizationRange} (hc : c.Sorted) (hinfo : info ∈ rangeInfo)
    (hin : info.Contains ch) (hunicode : 0x80 ≤ ch) (hunique : info.type ≠ .canonicalizeUnique) :
    Adds c (Equivalent ch) (c.putUnicodeIgnoreCase ch info) := by
  have hcons := rangeInfo_consistent info hinfo
  have hn := hin.toNat
  have hlast := info.last.toNat_lt
  have hchlt := ch.toNat_lt
  -- all equivalent characters are behind 0x7f
  have hmore : ∀ {more : List UChar}, (∀ x, x ∈ more ↔ Equivalent ch x) →
      Adds c (Equivalent ch) (c.addMatchesUnicode more) := fun {more} h =>
    (addMatchesUnicode_adds hc).of_iff fun x => by
      rw [h]
      exact and_iff_right_of_imp fun hx => hx.of_le hunicode
  have hpair : ∀ {pair : UChar}, (∀ x, x = ch ∨ x = pair ↔ info.Relates ch x) →
      Adds c (Equivalent ch) (c.addMatchesUnicode [ch, pair]) := fun {pair} h =>
    hmore fun x => by
      rw [equivalent_iff hinfo hin, ← h]
      simp
  rw [putUnicodeIgnoreCase]
  cases htype : info.type with
  | canonicalizeUnique => exact absurd htype hunique
  | canonicalizeSet =>
    obtain ⟨set, hset⟩ := rangeInfo_set hinfo htype
    rw [if_pos rfl, hset]
    refine hmore fun x => ?_
    rw [equivalent_iff hinfo hin, UCS2CanonicalizationRange.Relates, htype]
    simp [hset]
  | canonicalizeRangeLo =>
    rw [if_neg (by decide), getCanonicalPair, htype]
    refine hpair fun x => ?_
    have hmax := (hcons.rangeLo htype).1
    rw [UCS2CanonicalizationRange.Relates, htype]
    simp only [← UInt16.toNat_inj, UInt16.toNat_add]
    omega
  | canonicalizeRangeHi =>
    rw [if_neg (by decide), getCanonicalPair, htype]
    refine hpair fun x => ?_
    have hmin := UInt16.le_iff_toNat_le.1 (hcons.rangeHi htype).1
    rw [UCS2CanonicalizationRange.Relates, htype]
    simp only [← UInt16.toNat_inj, UInt16.toNat_sub]
    omega
  | canonicalizeAlternatingAligned =>
    rw [if_neg (by decide), getCanonicalPair, htype]
    refine hpair fun x => ?_
    rw [UCS2CanonicalizationRange.Relates, htype]
    simp only [← UInt16.toNat_inj, UInt16.toNat_xor, UInt16.toNat_one, xor_one_eq]
    split <;> omega
  | canonicalizeAlternatingUnaligned =>
    rw [if_neg (by decide), getCanonicalPair, htype]
    refine hpair fun x => ?_
    have hends := hcons.unaligned htype
    rw [UCS2CanonicalizationRange.Relates, htype]
    simp only [← UInt16.toNat_inj, UInt16.toNat_add, UInt16.toNat_xor, UInt16.toNat_sub, UInt16.toNat_one, xor_one_eq]
    split <;> omega

theorem toNat_toASCIIUpper (c : UChar) :
    (toASCIIUpper c).toNat = if 0x61 ≤ c.toNat ∧ c.toNat ≤ 0x7a then c.toNat - 0x20 else c.toNat := by
  have hlt := c.toNat_lt
  have hletter : (ascii 'a' ≤ c ∧ c ≤ ascii 'z') ↔ 0x61 ≤ c.toNat ∧ c.toNat ≤ 0x7a := Iff.rfl
  have h20 : (0x20 : UChar).toNat = 0x20 := rfl
  unfold toASCIIUpper
  rw [apply_ite UInt16.toNat, UInt16.toNat_sub, h20]
  simp only [hletter]
  split <;> omega

theorem toNat_toASCIILower (c : UChar) :
    (toASCIILower c).toNat = if 0x41 ≤ c.toNat ∧ c.toNat ≤ 0x5a then c.toNat + 0x20 else c.toNat := by
  have hlt := c.toNat_lt
  have hletter : (ascii 'A' ≤ c ∧ c ≤ ascii 'Z') ↔ 0x41 ≤ c.toNat ∧ c.toNat ≤ 0x5a := Iff.rfl
  have h20 : (0x20 : UChar).toNat = 0x20 := rfl
  unfold toASCIILower
  rw [apply_ite UInt16.toNat, UInt16.toNat_add, h20]
  simp only [hletter]
  split <;> omega

theorem isASCIIAlpha_iff : isASCIIAlpha ch = true ↔
    (0x61 ≤ ch.toNat ∧ ch.toNat ≤ 0x7a) ∨ (0x41 ≤ ch.toNat ∧ ch.toNat ≤ 0x5a) := by
  have hlower : (ascii 'a' ≤ ch ∧ ch ≤ ascii 'z') ↔ 0x61 ≤ ch.toNat ∧ ch.toNat ≤ 0x7a := Iff.rfl
  have hupper : (ascii 'A' ≤ ch ∧ ch ≤ ascii 'Z') ↔ 0x41 ≤ ch.toNat ∧ ch.toNat ≤ 0x5a := Iff.rfl
  rw [isASCIIAlpha, Bool.or_eq_true, decide_eq_true_eq, decide_eq_true_eq, hlower, hupper]

theorem le_7f_iff : x ≤ 0x7f ↔ x.toNat ≤ 0x7f := UInt16.le_iff_toNat_le

theorem mem_letter_iff (hascii : ch ≤ 0x7f) (hletter : isASCIIAlpha ch = true) :
    (x ≤ 0x7f ∧ x ∈ [toASCIIUpper ch, toASCIILower ch]) ↔ Equivalent ch x := by
  rw [isASCIIAlpha_iff] at hletter
  rw [equivalent_ascii_iff hascii, le_7f_iff, List.mem_pair, ← UInt16.toNat_inj, ← UInt16.toNat_inj, ← UInt16.toNat_inj,
    toNat_toASCIIUpper, toNat_toASCIILower]
  split <;> split <;> omega

/-- A character up to 0x7f that is not a letter, or any such character where cases differ. -/
theorem mem_other_iff {isCaseInsensitive : Bool} (hascii : ch ≤ 0x7f)
    (hletter : ¬(isCaseInsensitive && isASCIIAlpha ch) = true) :
    (x ≤ 0x7f ∧ x ∈ [ch]) ↔ Matches isCaseInsensitive ch x := by
  rw [le_7f_iff] at hascii
  rw [List.mem_singleton]
  cases isCaseInsensitive with
  | false =>
    rw [matches_false]
    exact and_iff_right_of_imp fun h => h ▸ le_7f_iff.2 hascii
  | true =>
    rw [Bool.true_and, isASCIIAlpha_iff] at hletter
    rw [matches_true, equivalent_ascii_iff (le_7f_iff.2 hascii), le_7f_iff, ← UInt16.toNat_inj]
    omega

/-- **`putChar` adds the equivalent characters.** -/
theorem putChar_adds (isCaseInsensitive : Bool) (hc : c.Sorted) :
    Adds c (Matches isCaseInsensitive ch) (c.putChar isCaseInsensitive ch) := by
  rw [putChar]
  split
  · rename_i hascii
    split
    · rename_i hletter
      rw [Bool.and_eq_true] at hletter
      rw [hletter.1]
      exact (addMatchesASCII_adds hc).of_iff fun x => mem_letter_iff hascii hletter.2
    · rename_i hletter
      exact (addMatchesASCII_adds hc).of_iff fun x => mem_other_iff hascii hletter
  · rename_i hascii
    have hunicode : 0x80 ≤ ch := (ascii_or_unicode ch).resolve_left hascii
    have hone : ∀ x, (0x80 ≤ x ∧ x ∈ [ch]) ↔ x = ch := fun x => by
      rw [List.mem_singleton]
      exact and_iff_right_of_imp fun h => h ▸ hunicode
    cases isCaseInsensitive with
    | false =>
      rw [if_neg (by decide)]
      exact (addMatchesUnicode_adds hc).of_iff fun x => (hone x).trans matches_false.symm
    | true =>
      obtain ⟨info, hinfo, hin⟩ := exists_range ch
      obtain ⟨rest, hfound⟩ := rangeInfoFor_eq hinfo hin
      rw [if_pos rfl, hfound]
      simp only
      split
      · rename_i hunique
        refine (addMatchesUnicode_adds hc).of_iff fun x => ?_
        rw [hone, matches_true, equivalent_iff hinfo hin, UCS2CanonicalizationRange.Relates, hunique]
      · rename_i hunique
        exact putUnicodeIgnoreCase_adds hc hinfo hin hunicode hunique

/-! ## `putRange` -/

/-- The characters that a class with the range accepts. -/
def MatchesRange (isCaseInsensitive : Bool) (lo hi x : UChar) : Prop :=
  ∃ y, lo ≤ y ∧ y ≤ hi ∧ Matches isCaseInsensitive y x

theorem Adds.ite {p : Prop} [Decidable p] {c' : CharacterClass} (hc : c.Sorted) (h : p → Adds c S (some c')) :
    Adds c (fun x => p ∧ S x) (some (if p then c' else c)) := by
  split
  · rename_i hp
    exact (h hp).of_iff fun x => (and_iff_right hp).symm
  · rename_i hp
    exact (Adds.none hc).of_iff fun x => (iff_false_intro fun h => hp h.1).symm

theorem odd_iff : x &&& 1 = 1 ↔ x.toNat % 2 = 1 := by
  rw [← UInt16.toNat_inj, UInt16.toNat_and, UInt16.toNat_one, Nat.and_one_is_mod]

theorem even_iff : x &&& 1 = 0 ↔ x.toNat % 2 = 0 := by
  rw [← UInt16.toNat_inj, UInt16.toNat_and, UInt16.toNat_one, Nat.and_one_is_mod, UInt16.toNat_zero]

theorem toNat_add_of_lt {v : UInt16} (h : x.toNat + v.toNat < 65536) : (x + v).toNat = x.toNat + v.toNat := by
  rw [UInt16.toNat_add]
  exact Nat.mod_eq_of_lt h

theorem toNat_sub_of_le {v : UInt16} (h : v.toNat ≤ x.toNat) : (x - v).toNat = x.toNat - v.toNat :=
  UInt16.toNat_sub_of_le _ _ (UInt16.le_iff_toNat_le.2 h)

theorem toNat_pred (h : 0 < x.toNat) : (x - 1).toNat = x.toNat - 1 := toNat_sub_of_le h

theorem toNat_succ (h : x.toNat + 1 < 65536) : (x + 1).toNat = x.toNat + 1 := toNat_add_of_lt h

theorem le_80_iff : 0x80 ≤ x ↔ 0x80 ≤ x.toNat := UInt16.le_iff_toNat_le

/-- The part of a range of the table: `c` accepts the characters from `lo` to `last` already. -/
theorem putEquivalents_adds {info : UCS2CanonicalizationRange} (hc : c.Sorted) (hinfo : info ∈ rangeInfo)
    (hlo : info.Contains lo) (hlast : info.Contains last) (hle : lo ≤ last) (hunicode : 0x80 ≤ lo)
    (hbase : ∀ x, lo ≤ x → x ≤ last → c.Accepts x) :
    Adds c (MatchesRange true lo last) (c.putEquivalents info lo last) := by
  have hcons := rangeInfo_consistent info hinfo
  have hnlo := hlo.toNat
  have hnlast := hlast.toNat
  have hlt := info.last.toNat_lt
  have hle' := UInt16.le_iff_toNat_le.1 hle
  have hpos : 0 < lo.toNat := Nat.lt_of_lt_of_le (by decide) (le_80_iff.1 hunicode)
  -- the characters that the table relates to those of the part
  have hmatches : ∀ x, MatchesRange true lo last x ↔ ∃ y, lo ≤ y ∧ y ≤ last ∧ info.Relates y x := fun x =>
    exists_congr fun y => and_congr_right fun h₁ => and_congr_right fun h₂ =>
      equivalent_iff hinfo ⟨UInt16.le_trans hlo.1 h₁, UInt16.le_trans h₂ hlast.2⟩
  have hself : ∀ x, MatchesRange true lo last x → 0x80 ≤ x := fun x ⟨y, h₁, _, h⟩ =>
    h.of_le (UInt16.le_trans hunicode h₁)
  have hadds : ∀ {S : UChar → Prop} {result : Option CharacterClass}, Adds c S result →
      (∀ x, S x → ∃ y, lo ≤ y ∧ y ≤ last ∧ info.Relates y x) →
      (∀ x y, 0x80 ≤ x → lo ≤ y → y ≤ last → info.Relates y x → (lo ≤ x ∧ x ≤ last) ∨ S x) →
      Adds c (MatchesRange true lo last) result := fun {S result} h hS hT =>
    h.congr fun x => by
      constructor
      · rintro (hx | hx)
        · exact .inl hx
        · exact .inr ((hmatches x).2 (hS x hx))
      · rintro (hx | hx)
        · exact .inl hx
        · obtain ⟨y, h₁, h₂, hy⟩ := (hmatches x).1 hx
          exact (hT x y (hself x hx) h₁ h₂ hy).imp_left fun h => hbase x h.1 h.2
  rw [putEquivalents]
  cases htype : info.type with
  | canonicalizeUnique =>
    refine (Adds.none hc).congr fun x => ?_
    rw [hmatches]
    simp only [UCS2CanonicalizationRange.Relates, htype, or_false]
    refine (or_iff_left_of_imp ?_).symm
    rintro ⟨_, h₁, h₂, rfl⟩
    exact hbase x h₁ h₂
  | canonicalizeSet =>
    obtain ⟨set, hset⟩ := rangeInfo_set hinfo htype
    simp only [hset, Option.bind_some]
    refine (addMatchesUnicode_adds hc).of_iff fun x => ?_
    constructor
    · rintro ⟨-, hx⟩
      refine (hmatches x).2 ⟨lo, UInt16.le_refl _, hle, ?_⟩
      rw [UCS2CanonicalizationRange.Relates, htype]
      exact ⟨set, hset, hx⟩
    · intro h
      obtain ⟨y, -, -, hy⟩ := (hmatches x).1 h
      rw [UCS2CanonicalizationRange.Relates, htype] at hy
      obtain ⟨set', hset', hx⟩ := hy
      rw [hset, Option.some.injEq] at hset'
      exact ⟨hself x h, hset' ▸ hx⟩
  | canonicalizeRangeLo =>
    have hmax := (hcons.rangeLo htype).1
    have hlo' : (lo + info.value).toNat = lo.toNat + info.value.toNat := toNat_add_of_lt (by omega)
    have hlast' : (last + info.value).toNat = last.toNat + info.value.toNat := toNat_add_of_lt (by omega)
    have hrange : lo + info.value ≤ last + info.value := UInt16.le_iff_toNat_le.2 (by omega)
    refine hadds (addRangeUnicode_adds hc hrange) (fun x hx => ?_) fun x y h80 h₁ h₂ hy => ?_
    · simp only [UInt16.le_iff_toNat_le, hlo', hlast'] at hx
      have hy : (x - info.value).toNat = x.toNat - info.value.toNat :=
        toNat_sub_of_le (by omega)
      refine ⟨x - info.value, UInt16.le_iff_toNat_le.2 (by omega), UInt16.le_iff_toNat_le.2 (by omega), ?_⟩
      rw [UCS2CanonicalizationRange.Relates, htype]
      exact .inr (by omega)
    · simp only [UCS2CanonicalizationRange.Relates, htype] at hy
      simp only [UInt16.le_iff_toNat_le, hlo', hlast'] at h80 h₁ h₂ ⊢
      rcases hy with rfl | hy <;> omega
  | canonicalizeRangeHi =>
    have hmin := UInt16.le_iff_toNat_le.1 (hcons.rangeHi htype).1
    have hlo' : (lo - info.value).toNat = lo.toNat - info.value.toNat :=
      toNat_sub_of_le (by omega)
    have hlast' : (last - info.value).toNat = last.toNat - info.value.toNat :=
      toNat_sub_of_le (by omega)
    have hrange : lo - info.value ≤ last - info.value := UInt16.le_iff_toNat_le.2 (by omega)
    refine hadds (addRangeUnicode_adds hc hrange) (fun x hx => ?_) fun x y h80 h₁ h₂ hy => ?_
    · simp only [UInt16.le_iff_toNat_le, hlo', hlast'] at hx
      have hy : (x + info.value).toNat = x.toNat + info.value.toNat := toNat_add_of_lt (by omega)
      refine ⟨x + info.value, UInt16.le_iff_toNat_le.2 (by omega), UInt16.le_iff_toNat_le.2 (by omega), ?_⟩
      rw [UCS2CanonicalizationRange.Relates, htype]
      exact .inr hy
    · simp only [UCS2CanonicalizationRange.Relates, htype] at hy
      simp only [UInt16.le_iff_toNat_le, hlo', hlast'] at h80 h₁ h₂ ⊢
      rcases hy with rfl | hy <;> omega
  | canonicalizeAlternatingAligned =>
    have hends := hcons.aligned htype
    have hfront : Adds c _ (some (if lo &&& 1 = 1 then c.addRangeUnicode (lo - 1) (lo - 1) else c)) :=
      .ite hc fun _ => addRangeUnicode_adds hc (UInt16.le_refl _)
    refine hadds (hfront.bind fun c' hc' => .ite hc' fun _ => addRangeUnicode_adds hc' (UInt16.le_refl (last + 1)))
      (fun x hx => ?_) fun x y h80 h₁ h₂ hy => ?_
    · simp only [odd_iff, even_iff, UCS2CanonicalizationRange.Relates, htype] at hx ⊢
      rcases hx with ⟨hparity, -, h₁, h₂⟩ | ⟨hparity, -, h₁, h₂⟩
      · refine ⟨lo, UInt16.le_refl _, hle, ?_⟩
        rw [UInt16.le_antisymm h₂ h₁, toNat_pred (by omega)]
        omega
      · refine ⟨last, hle, UInt16.le_refl _, ?_⟩
        rw [UInt16.le_antisymm h₂ h₁, toNat_succ (by omega)]
        omega
    · simp only [UCS2CanonicalizationRange.Relates, htype] at hy
      simp only [odd_iff, even_iff, UInt16.le_iff_toNat_le, toNat_pred hpos] at h80 h₁ h₂ ⊢
      rcases Nat.lt_or_ge last.toNat x.toNat with hback | hback
      · rw [toNat_succ (Nat.lt_of_le_of_lt hback x.toNat_lt)]
        omega
      · omega
  | canonicalizeAlternatingUnaligned =>
    have hends := hcons.unaligned htype
    have hfront : Adds c _ (some (if lo &&& 1 = 0 then c.addRangeUnicode (lo - 1) (lo - 1) else c)) :=
      .ite hc fun _ => addRangeUnicode_adds hc (UInt16.le_refl _)
    refine hadds (hfront.bind fun c' hc' => .ite hc' fun _ => addRangeUnicode_adds hc' (UInt16.le_refl (last + 1)))
      (fun x hx => ?_) fun x y h80 h₁ h₂ hy => ?_
    · simp only [even_iff, odd_iff, UCS2CanonicalizationRange.Relates, htype] at hx ⊢
      rcases hx with ⟨hparity, -, h₁, h₂⟩ | ⟨hparity, -, h₁, h₂⟩
      · refine ⟨lo, UInt16.le_refl _, hle, ?_⟩
        rw [UInt16.le_antisymm h₂ h₁, toNat_pred (by omega)]
        omega
      · refine ⟨last, hle, UInt16.le_refl _, ?_⟩
        rw [UInt16.le_antisymm h₂ h₁, toNat_succ (by omega)]
        omega
    · simp only [UCS2CanonicalizationRange.Relates, htype] at hy
      simp only [even_iff, odd_iff, UInt16.le_iff_toNat_le, toNat_pred hpos] at h80 h₁ h₂ ⊢
      rcases Nat.lt_or_ge last.toNat x.toNat with hback | hback
      · rw [toNat_succ (Nat.lt_of_le_of_lt hback x.toNat_lt)]
        omega
      · omega

theorem matchesRange_split {isCaseInsensitive : Bool} {mid next : UChar} (hnext : next.toNat = mid.toNat + 1)
    (hlo : lo ≤ mid) (hhi : mid ≤ hi) :
    MatchesRange isCaseInsensitive lo mid x ∨ MatchesRange isCaseInsensitive next hi x ↔
      MatchesRange isCaseInsensitive lo hi x := by
  unfold MatchesRange
  rw [← exists_or]
  refine exists_congr fun y => ?_
  rw [← and_assoc, ← and_assoc, ← and_assoc, ← or_and_right]
  refine and_congr_left fun _ => ?_
  rw [UInt16.le_iff_toNat_le] at *
  simp only [UInt16.le_iff_toNat_le]
  omega

theorem putRangeFrom_last {table : List UCS2CanonicalizationRange} {info : UCS2CanonicalizationRange}
    (hinfo : info ∈ rangeInfo) (hc : c.Sorted) (hin : info.Contains lo) (hle : lo ≤ hi) (hhi : hi ≤ info.last)
    (hunicode : 0x80 ≤ lo) (hbase : ∀ x, lo ≤ x → x ≤ hi → c.Accepts x) :
    Adds c (MatchesRange true lo hi) (putRangeFrom hi (info :: table) lo c) := by
  have hmin : min info.last hi = hi :=
    UInt16.toNat_inj.1 ((toNat_uchar_min _ _).trans (min_eq_right (UInt16.le_iff_toNat_le.1 hhi)))
  rw [putRangeFrom, hmin]
  simp only [if_true]
  exact ((putEquivalents_adds hc hinfo hin ⟨UInt16.le_trans hin.1 hle, hhi⟩ hle hunicode hbase).bind
    fun c' hc' => .none hc').of_iff fun x => iff_of_eq (or_false _)

/-- **The loop over the table**, from the range of `lo` on. -/
theorem putRangeFrom_adds {table : List UCS2CanonicalizationRange} {info : UCS2CanonicalizationRange}
    (hsuffix : info :: table <:+ rangeInfo) (hc : c.Sorted) (hin : info.Contains lo) (hle : lo ≤ hi)
    (hunicode : 0x80 ≤ lo) (hbase : ∀ x, lo ≤ x → x ≤ hi → c.Accepts x) :
    Adds c (MatchesRange true lo hi) (putRangeFrom hi (info :: table) lo c) := by
  have hinfo : info ∈ rangeInfo := hsuffix.subset (List.mem_cons_self ..)
  obtain ⟨start, htiles⟩ := rangeInfo_tiles.of_suffix hsuffix
  induction table generalizing info lo c start with
  | nil =>
    have hhi : hi ≤ info.last :=
      UInt16.le_iff_toNat_le.2 (Nat.le_of_lt_succ (hi.toNat_lt.trans_eq htiles.2.2.symm))
    exact putRangeFrom_last hinfo hc hin hle hhi hunicode hbase
  | cons next table ih =>
    rcases Nat.lt_or_ge info.last.toNat hi.toNat with hlt | hge
    · -- the loop goes on with the next range
      obtain ⟨hnext, hnextle, -⟩ := htiles.2.2
      have hmin : min info.last hi = info.last := UInt16.toNat_inj.1
        ((toNat_uchar_min _ _).trans (min_eq_left hlt.le))
      have hne : hi ≠ info.last := fun he => absurd hlt (he ▸ Nat.lt_irrefl _)
      have hhi : info.last ≤ hi := UInt16.le_iff_toNat_le.2 hlt.le
      have hlo : lo ≤ next.first := UInt16.le_iff_toNat_le.2 (by have := hin.toNat; omega)
      have hmem : next ∈ rangeInfo := hsuffix.subset (List.mem_cons_of_mem _ (List.mem_cons_self ..))
      rw [putRangeFrom, hmin]
      simp only [if_neg hne]
      have hpart := putEquivalents_adds hc hinfo hin ⟨UInt16.le_trans hin.1 hin.2, UInt16.le_refl _⟩ hin.2 hunicode
        fun x h₁ h₂ => hbase x h₁ (UInt16.le_trans h₂ hhi)
      refine (hpart.bind_of_accepts fun c' hc' haccepts => ih ((List.suffix_cons ..).trans hsuffix) hc'
        ⟨UInt16.le_refl _, hnextle⟩ (UInt16.le_iff_toNat_le.2 (by omega)) (UInt16.le_trans hunicode hlo)
        (fun x h₁ h₂ => haccepts x (.inl (hbase x (UInt16.le_trans hlo h₁) h₂))) hmem _ htiles.2.2).of_iff fun x => ?_
      exact matchesRange_split hnext hin.2 hhi
    · exact putRangeFrom_last hinfo hc hin hle (UInt16.le_iff_toNat_le.2 hge) hunicode hbase

theorem matchesRange_ascii : (x ≤ 0x7f ∧ MatchesRange true lo hi x) ↔
    x.toNat ≤ 0x7f ∧ (lo.toNat ≤ x.toNat ∧ x.toNat ≤ hi.toNat ∨
      (lo.toNat + 0x20 ≤ x.toNat ∧ x.toNat ≤ hi.toNat + 0x20 ∧ 0x61 ≤ x.toNat ∧ x.toNat ≤ 0x7a) ∨
      (lo.toNat ≤ x.toNat + 0x20 ∧ x.toNat + 0x20 ≤ hi.toNat ∧ 0x41 ≤ x.toNat ∧ x.toNat ≤ 0x5a)) := by
  rw [le_7f_iff]
  refine and_congr_right fun hx => ?_
  constructor
  · rintro ⟨y, h₁, h₂, h⟩
    rw [UInt16.le_iff_toNat_le] at h₁ h₂
    have hy : y ≤ 0x7f := (ascii_or_unicode y).resolve_right fun hy => not_le_7f (h.of_le hy) (le_7f_iff.2 hx)
    rcases (equivalent_ascii_iff hy).1 h with rfl | h | h
    · exact .inl ⟨h₁, h₂⟩
    · exact .inr (.inl (by omega))
    · exact .inr (.inr (by omega))
  · have h20 : (0x20 : UChar).toNat = 0x20 := rfl
    rintro (⟨h₁, h₂⟩ | ⟨h₁, h₂, h₃, h₄⟩ | ⟨h₁, h₂, h₃, h₄⟩)
    · exact ⟨x, UInt16.le_iff_toNat_le.2 h₁, UInt16.le_iff_toNat_le.2 h₂, .refl x⟩
    · have hy : (x - 0x20).toNat = x.toNat - 0x20 := toNat_sub_of_le (by omega)
      refine ⟨x - 0x20, UInt16.le_iff_toNat_le.2 (by omega), UInt16.le_iff_toNat_le.2 (by omega), ?_⟩
      rw [matches_true, equivalent_ascii_iff (le_7f_iff.2 (by omega))]
      exact .inr (.inl (by omega))
    · have hy : (x + 0x20).toNat = x.toNat + 0x20 := toNat_add_of_lt (by omega)
      refine ⟨x + 0x20, UInt16.le_iff_toNat_le.2 (by omega), UInt16.le_iff_toNat_le.2 (by omega), ?_⟩
      rw [matches_true, equivalent_ascii_iff (le_7f_iff.2 (by omega))]
      exact .inr (.inr (by omega))

/-- The three ranges of characters up to 0x7f in numbers. -/
theorem letters_iff {lo hi x : Nat} (hlo : lo ≤ hi) (hascii : lo ≤ 0x7f) :
    ((x ≤ 0x7f ∧ lo ≤ x ∧ x ≤ min hi 0x7f ∨
        (lo ≤ 0x5a ∧ 0x41 ≤ min hi 0x7f) ∧ x ≤ 0x7f ∧ max lo 0x41 + 0x20 ≤ x ∧ x ≤ min (min hi 0x7f) 0x5a + 0x20) ∨
      (lo ≤ 0x7a ∧ 0x61 ≤ min hi 0x7f) ∧ x ≤ 0x7f ∧ max lo 0x61 - 0x20 ≤ x ∧ x ≤ min (min hi 0x7f) 0x7a - 0x20) ↔
    x ≤ 0x7f ∧ (lo ≤ x ∧ x ≤ hi ∨ (lo + 0x20 ≤ x ∧ x ≤ hi + 0x20 ∧ 0x61 ≤ x ∧ x ≤ 0x7a) ∨
      (lo ≤ x + 0x20 ∧ x + 0x20 ≤ hi ∧ 0x41 ≤ x ∧ x ≤ 0x5a)) := by
  omega

theorem putRangeASCII_adds {isCaseInsensitive : Bool} (hc : c.Sorted) (hle : lo ≤ hi) (hascii : lo ≤ 0x7f) :
    Adds c (fun x => x ≤ 0x7f ∧ MatchesRange isCaseInsensitive lo hi x)
      (some (c.putRangeASCII isCaseInsensitive lo hi)) := by
  have hmin : (min hi 0x7f).toNat = min hi.toNat 0x7f := toNat_uchar_min ..
  have hle' : lo ≤ min hi 0x7f := by
    rw [UInt16.le_iff_toNat_le, hmin]
    exact le_min (UInt16.le_iff_toNat_le.1 hle) (le_7f_iff.1 hascii)
  have hbase := addRangeASCII_adds hc hle'
  rw [putRangeASCII]
  cases isCaseInsensitive with
  | false =>
    refine hbase.of_iff fun x => and_congr_right fun hx => ?_
    rw [le_7f_iff] at hx
    constructor
    · rintro ⟨h₁, h₂⟩
      rw [UInt16.le_iff_toNat_le, hmin] at h₂
      exact ⟨x, h₁, UInt16.le_iff_toNat_le.2 (by omega), matches_false.2 rfl⟩
    · rintro ⟨y, h₁, h₂, h⟩
      obtain rfl := matches_false.1 h
      refine ⟨h₁, ?_⟩
      rw [UInt16.le_iff_toNat_le] at h₂ ⊢
      omega
  | true =>
    have hlo := UInt16.le_iff_toNat_le.1 hle
    have hascii' := le_7f_iff.1 hascii
    have h20 : (0x20 : UChar).toNat = 0x20 := rfl
    have hA : (max lo (ascii 'A')).toNat = max lo.toNat 0x41 := toNat_uchar_max ..
    have hZ : (min (min hi 0x7f) (ascii 'Z')).toNat = min (min hi 0x7f).toNat 0x5a := toNat_uchar_min ..
    have ha : (max lo (ascii 'a')).toNat = max lo.toNat 0x61 := toNat_uchar_max ..
    have hz : (min (min hi 0x7f) (ascii 'z')).toNat = min (min hi 0x7f).toNat 0x7a := toNat_uchar_min ..
    have hA' : (max lo (ascii 'A') + 0x20).toNat = max lo.toNat 0x41 + 0x20 := by
      rw [toNat_add_of_lt (by omega), hA, h20]
    have hZ' : (min (min hi 0x7f) (ascii 'Z') + 0x20).toNat = min (min hi 0x7f).toNat 0x5a + 0x20 := by
      rw [toNat_add_of_lt (by omega), hZ, h20]
    have ha' : (max lo (ascii 'a') - 0x20).toNat = max lo.toNat 0x61 - 0x20 := by
      rw [toNat_sub_of_le (by omega), ha, h20]
    have hz' : ascii 'a' ≤ min hi 0x7f →
        (min (min hi 0x7f) (ascii 'z') - 0x20).toNat = min (min hi 0x7f).toNat 0x7a - 0x20 := fun h => by
      have hge : 0x61 ≤ (min hi 0x7f).toNat := UInt16.le_iff_toNat_le.1 h
      rw [toNat_sub_of_le (by omega), hz, h20]
    have hupper : (lo ≤ ascii 'Z' ∧ ascii 'A' ≤ min hi 0x7f) ↔ lo.toNat ≤ 0x5a ∧ 0x41 ≤ (min hi 0x7f).toNat :=
      and_congr UInt16.le_iff_toNat_le UInt16.le_iff_toNat_le
    have hlower : (lo ≤ ascii 'z' ∧ ascii 'a' ≤ min hi 0x7f) ↔ lo.toNat ≤ 0x7a ∧ 0x61 ≤ (min hi 0x7f).toNat :=
      and_congr UInt16.le_iff_toNat_le UInt16.le_iff_toNat_le
    refine ((hbase.bind fun c₁ hc₁ => .ite hc₁ fun h => addRangeASCII_adds hc₁ ?_).bind fun c₂ hc₂ =>
      .ite hc₂ fun h => addRangeASCII_adds hc₂ ?_).of_iff fun x => ?_
    · rw [hupper] at h
      rw [UInt16.le_iff_toNat_le, hA', hZ']
      omega
    · rw [UInt16.le_iff_toNat_le, ha', hz' h.2]
      rw [hlower] at h
      omega
    · have hlast : (lo ≤ ascii 'z' ∧ ascii 'a' ≤ min hi 0x7f) ∧ x ≤ 0x7f ∧ max lo (ascii 'a') - 0x20 ≤ x ∧
          x ≤ min (min hi 0x7f) (ascii 'z') - 0x20 ↔ (lo.toNat ≤ 0x7a ∧ 0x61 ≤ (min hi 0x7f).toNat) ∧ x.toNat ≤ 0x7f ∧
          max lo.toNat 0x61 - 0x20 ≤ x.toNat ∧ x.toNat ≤ min (min hi 0x7f).toNat 0x7a - 0x20 := by
        rw [← hlower]
        refine and_congr_right fun h => ?_
        rw [le_7f_iff, UInt16.le_iff_toNat_le, UInt16.le_iff_toNat_le, ha', hz' h.2]
      rw [matchesRange_ascii, hlast, hupper, le_7f_iff, UInt16.le_iff_toNat_le, UInt16.le_iff_toNat_le,
        UInt16.le_iff_toNat_le, UInt16.le_iff_toNat_le, hA', hZ', hmin]
      exact letters_iff hlo hascii'

theorem Matches.kind {isCaseInsensitive : Bool} {y : UChar} (h : Matches isCaseInsensitive y x) :
    0x80 ≤ y ↔ 0x80 ≤ x := by
  cases isCaseInsensitive with
  | false => rw [matches_false.1 h]
  | true => exact ⟨h.of_le, (equivalent_equivalence.symm h).of_le⟩

theorem matches_refl (isCaseInsensitive : Bool) (x : UChar) : Matches isCaseInsensitive x x := by
  cases isCaseInsensitive with
  | false => exact matches_false.2 rfl
  | true => exact .refl x

theorem Matches.trans {isCaseInsensitive : Bool} {y z : UChar} (h : Matches isCaseInsensitive x y)
    (h' : Matches isCaseInsensitive y z) : Matches isCaseInsensitive x z := by
  cases isCaseInsensitive with
  | false => exact matches_false.2 ((matches_false.1 h').trans (matches_false.1 h))
  | true => exact equivalent_equivalence.trans h h'

theorem putRangeUnicode_adds (isCaseInsensitive : Bool) (hc : c.Sorted) (hle : lo ≤ hi) (hunicode : 0x80 ≤ lo) :
    Adds c (MatchesRange isCaseInsensitive lo hi)
      (if isCaseInsensitive then (rangeInfoFor lo).bind fun table => putRangeFrom hi table lo (c.addRangeUnicode lo hi)
        else some (c.addRangeUnicode lo hi)) := by
  have hbase := (addRangeUnicode_adds hc hle).of_iff fun x =>
    and_iff_right_of_imp fun h : lo ≤ x ∧ x ≤ hi => UInt16.le_trans hunicode h.1
  cases isCaseInsensitive with
  | false =>
    rw [if_neg (by decide)]
    refine hbase.of_iff fun x => ?_
    simp [MatchesRange, matches_false]
  | true =>
    obtain ⟨info, rest, hfound, hsuffix, hin⟩ := rangeInfoFor_spec lo
    rw [if_pos rfl, hfound]
    refine (hbase.bind_of_accepts (f := putRangeFrom hi (info :: rest) lo) fun c' hc' haccepts =>
      putRangeFrom_adds hsuffix hc' hin hle hunicode fun x h₁ h₂ => haccepts x (.inr ⟨h₁, h₂⟩)).of_iff fun x => ?_
    exact or_iff_right_of_imp fun h => ⟨x, h.1, h.2, .refl x⟩

/-- **`putRange` adds the characters that are equivalent to one of the range.** -/
theorem putRange_adds (isCaseInsensitive : Bool) (hc : c.Sorted) (hle : lo ≤ hi) :
    Adds c (MatchesRange isCaseInsensitive lo hi) (c.putRange isCaseInsensitive lo hi) := by
  have hascii : Adds c (fun x => x ≤ 0x7f ∧ MatchesRange isCaseInsensitive lo hi x)
      (some (if lo ≤ 0x7f then c.putRangeASCII isCaseInsensitive lo hi else c)) := by
    refine (Adds.ite hc fun h => putRangeASCII_adds hc hle h).of_iff fun x => and_iff_right_of_imp ?_
    rintro ⟨hx, y, h₁, -, h⟩
    exact (ascii_or_unicode lo).resolve_right fun hlo => not_le_7f (h.kind.1 (UInt16.le_trans hlo h₁)) hx
  have hrange : c.putRange isCaseInsensitive lo hi =
      (some (if lo ≤ 0x7f then c.putRangeASCII isCaseInsensitive lo hi else c)).bind fun c =>
        if hi ≤ 0x7f then some c
        else if isCaseInsensitive then (rangeInfoFor (max lo 0x80)).bind fun table =>
          putRangeFrom hi table (max lo 0x80) (c.addRangeUnicode (max lo 0x80) hi)
        else some (c.addRangeUnicode (max lo 0x80) hi) := rfl
  rw [hrange]
  have hsplit : ∀ x, (x ≤ 0x7f ∧ MatchesRange isCaseInsensitive lo hi x) ∨
      (0x80 ≤ x ∧ MatchesRange isCaseInsensitive lo hi x) ↔ MatchesRange isCaseInsensitive lo hi x := fun x => by
    rw [← or_and_right, and_iff_right (ascii_or_unicode x)]
  refine (hascii.bind fun c' hc' => ?_).of_iff hsplit
  split
  · rename_i hhi
    refine (Adds.none hc').of_iff fun x => (iff_false_intro ?_).symm
    rintro ⟨hx, y, -, h₂, h⟩
    exact not_le_7f (h.kind.2 hx) (UInt16.le_trans h₂ hhi)
  · rename_i hhi
    have hmax : (max lo 0x80).toNat = max lo.toNat 0x80 := toNat_uchar_max ..
    have hlo := UInt16.le_iff_toNat_le.1 hle
    rw [le_7f_iff] at hhi
    refine (putRangeUnicode_adds isCaseInsensitive hc' (UInt16.le_iff_toNat_le.2 (by omega))
      (le_80_iff.2 (by omega))).of_iff fun x => ?_
    unfold MatchesRange
    rw [← exists_and_left]
    refine exists_congr fun y => ?_
    constructor
    · rintro ⟨h₁, h₂, h⟩
      rw [UInt16.le_iff_toNat_le] at h₁
      exact ⟨h.kind.1 (le_80_iff.2 (by omega)), UInt16.le_iff_toNat_le.2 (by omega), h₂, h⟩
    · rintro ⟨hx, h₁, h₂, h⟩
      have hy := le_80_iff.1 (h.kind.2 hx)
      rw [UInt16.le_iff_toNat_le] at h₁
      exact ⟨UInt16.le_iff_toNat_le.2 (by omega), h₂, h⟩

/-! ## `append` -/

theorem addRangesASCII_adds {ranges : List CharacterRange} (hc : c.Sorted)
    (h : ∀ range ∈ ranges, range.first ≤ range.last) :
    Adds c (fun x => x ≤ 0x7f ∧ InRanges ranges x)
      (some (ranges.foldl (fun c range => c.addRangeASCII range.first range.last) c)) := by
  induction ranges generalizing c with
  | nil => exact (Adds.none hc).of_iff fun x => by simp [InRanges]
  | cons range ranges ih =>
    rw [List.forall_mem_cons] at h
    refine ((addRangeASCII_adds hc h.1).bind fun c' hc' => ih hc' h.2).of_iff fun x => ?_
    simp [InRanges, ← and_or_left]

theorem addRangesUnicode_adds {ranges : List CharacterRange} (hc : c.Sorted)
    (h : ∀ range ∈ ranges, range.first ≤ range.last) :
    Adds c (fun x => 0x80 ≤ x ∧ InRanges ranges x)
      (some (ranges.foldl (fun c range => c.addRangeUnicode range.first range.last) c)) := by
  induction ranges generalizing c with
  | nil => exact (Adds.none hc).of_iff fun x => by simp [InRanges]
  | cons range ranges ih =>
    rw [List.forall_mem_cons] at h
    refine ((addRangeUnicode_adds hc h.1).bind fun c' hc' => ih hc' h.2).of_iff fun x => ?_
    simp [InRanges, ← and_or_left]

/-- **`append` adds the characters of the other class.** -/
theorem append_adds (hc : c.Sorted) (hother : other.Sorted) : Adds c other.Accepts (c.append other) := by
  have hmap : ∀ r : Option CharacterClass,
      r.map (fun c => other.rangesUnicode.foldl (fun c range => c.addRangeUnicode range.first range.last) c) =
        r.bind fun c => some (other.rangesUnicode.foldl (fun c range => c.addRangeUnicode range.first range.last) c) :=
    fun r => by cases r <;> rfl
  have hunicode : ∀ c' : CharacterClass, c'.Sorted → Adds c' _
      ((c'.addMatchesUnicode other.matchesUnicode).bind fun c =>
        some (other.rangesUnicode.foldl (fun c range => c.addRangeUnicode range.first range.last) c)) :=
    fun c' hc' => (addMatchesUnicode_adds hc').bind fun _ h => addRangesUnicode_adds h hother.rangesUnicode.le
  rw [append]
  simp only [hmap]
  refine ((addMatchesASCII_adds hc).bind fun c' hc' =>
    (addRangesASCII_adds hc' hother.rangesASCII.le).bind hunicode).of_iff fun x => ?_
  rcases ascii_or_unicode x with h | h
  · simp [accepts_ascii h, h, not_80_le h]
  · simp [accepts_unicode h, h, not_le_7f h]

end CharacterClass

end WebKit.Yarr
