import WebKit.Lib.HalfOpen
import WebKit.Lib.SortedList
import WebKit.Yarr.CharacterClass

/-!
# Sorted characters and sorted ranges

`addSorted` inserts a character into a strictly sorted vector (`addSorted_spec`): the binary search keeps the smaller
characters in front of its window and the larger ones behind it (`addSortedFrom_spec`). `addSortedRange` merges a range
into a vector of ranges that are in order, disjoint and not adjacent (`intervals_addSortedRange`).
-/

namespace WebKit.Yarr

open WebKit.WTF HalfOpen SortedList

/-! ## Characters -/

/-- The characters are strictly sorted. -/
def SortedChars (chars : List UChar) : Prop := chars.Pairwise (· < ·)

instance : IsTrans UChar (· < ·) := ⟨fun _ _ _ => UInt16.lt_trans⟩

section Chars

variable {pre window post chars more : List UChar} {ch x : UChar}

theorem uchar_lt_of_not (hne : x ≠ ch) (hge : ¬ch < x) : x < ch :=
  UInt16.lt_of_le_of_ne (UInt16.not_lt.1 hge) hne

/-- **The binary search**, with smaller characters in front of the window and larger ones behind it. -/
theorem addSortedFrom_spec {turns : Nat} (h : SortedChars (pre ++ (window ++ post))) (hpre : ∀ x ∈ pre, x < ch)
    (hpost : ∀ x ∈ post, ch < x) (hturns : window.length ≤ turns) :
    ∃ out, addSortedFrom (pre ++ (window ++ post)) ch turns pre.length window.length = some out ∧ SortedChars out ∧
      ∀ x, x ∈ out ↔ x = ch ∨ x ∈ pre ++ (window ++ post) := by
  induction turns generalizing pre window post with
  | zero =>
    obtain rfl := List.length_eq_zero_iff.1 (Nat.le_zero.1 hturns)
    rw [List.nil_append] at *
    refine ⟨pre ++ ch :: post, ?_, pairwise_insert h hpre hpost, fun x => by simp [or_left_comm]⟩
    rw [List.length_nil, addSortedFrom, insertIdx_length_append]
  | succ turns ih =>
    rcases Nat.eq_zero_or_pos window.length with hzero | hpos
    · obtain rfl := List.length_eq_zero_iff.1 hzero
      rw [List.nil_append] at *
      refine ⟨pre ++ ch :: post, ?_, pairwise_insert h hpre hpost, fun x => by simp [or_left_comm]⟩
      rw [List.length_nil, addSortedFrom, insertIdx_length_append]
    · obtain ⟨range, hrange⟩ := Nat.exists_eq_add_one.2 hpos
      -- the window around its middle
      have hhalf : window.length / 2 < window.length := Nat.div_lt_self hpos (by decide)
      obtain ⟨left, val, right, hwindow, hleft⟩ : ∃ left val right, window = left ++ val :: right ∧
          left.length = (range + 1) / 2 :=
        ⟨window.take (window.length / 2), window[window.length / 2], window.drop (window.length / 2 + 1), by simp,
          by rw [List.length_take, ← hrange]; omega⟩
      subst hwindow
      have hright : right.length = range + 1 - ((range + 1) / 2 + 1) := by
        simp only [List.length_append, List.length_cons] at hrange
        omega
      have hget : (pre ++ (left ++ val :: right ++ post))[pre.length + (range + 1) / 2]? = some val := by
        rw [← hleft]
        simp
      have hsplit : pre ++ (left ++ val :: right ++ post) = (pre ++ left) ++ val :: (right ++ post) := by simp
      rw [hrange, addSortedFrom, hget]
      simp only
      split
      · rename_i heq
        subst heq
        refine ⟨_, rfl, h, fun x => ⟨.inr, ?_⟩⟩
        rintro (rfl | hx)
        · simp
        · exact hx
      rename_i hne
      split
      · rename_i hlt
        have hshape : pre ++ (left ++ val :: right ++ post) = pre ++ (left ++ (val :: (right ++ post))) := by simp
        rw [hsplit] at h
        have hpost' := forall_gt_of_split h hlt
        rw [← hsplit, hshape] at h
        rw [hshape, ← hleft]
        exact ih h hpre hpost' (by simp only [List.length_append, List.length_cons] at hturns; omega)
      · rename_i hge
        have hshape : pre ++ (left ++ val :: right ++ post) = (pre ++ left ++ [val]) ++ (right ++ post) := by simp
        rw [hsplit] at h
        have hpre' := forall_lt_of_split h (uchar_lt_of_not hne hge)
        rw [← hsplit, hshape] at h
        have hlen : pre.length + ((range + 1) / 2 + 1) = (pre ++ left ++ [val]).length := by simp [hleft, Nat.add_assoc]
        rw [hshape, hlen, ← hright]
        exact ih h hpre' hpost (by simp only [List.length_append, List.length_cons] at hturns; omega)

/-- **`addSorted` inserts the character.** -/
theorem addSorted_spec (ch : UChar) (h : SortedChars chars) :
    ∃ out, addSorted chars ch = some out ∧ SortedChars out ∧ ∀ x, x ∈ out ↔ x = ch ∨ x ∈ chars := by
  have hspec : ∃ out, addSortedFrom ([] ++ (chars ++ [])) ch chars.length 0 chars.length = some out ∧ SortedChars out ∧
      ∀ x, x ∈ out ↔ x = ch ∨ x ∈ [] ++ (chars ++ []) :=
    addSortedFrom_spec (by simpa using h) (by simp) (by simp) (Nat.le_refl _)
  simpa [addSorted] using hspec

theorem addAllSorted_spec (h : SortedChars chars) : ∃ out, CharacterClass.addAllSorted chars more = some out ∧
    SortedChars out ∧ ∀ x, x ∈ out ↔ x ∈ more ∨ x ∈ chars := by
  induction more generalizing chars with
  | nil => exact ⟨chars, rfl, h, fun x => by simp⟩
  | cons ch more ih =>
    obtain ⟨chars', hadd, hsorted, hmem⟩ := addSorted_spec ch h
    obtain ⟨out, hadd', hsorted', hmem'⟩ := ih hsorted
    refine ⟨out, ?_, hsorted', fun x => ?_⟩
    · rw [CharacterClass.addAllSorted, hadd, Option.bind_some, hadd']
    · rw [hmem', hmem, List.mem_cons, or_assoc, or_left_comm]

end Chars

/-! ## Ranges -/

/-- The ranges are in order, disjoint and not adjacent. -/
structure SortedRanges (ranges : List CharacterRange) : Prop where
  le : ∀ range ∈ ranges, range.first ≤ range.last
  apart : ranges.Pairwise fun range next => range.last.toNat + 1 < next.first.toNat

/-- A range contains the character. -/
def InRanges (ranges : List CharacterRange) (x : UChar) : Prop := ∃ range ∈ ranges, range.first ≤ x ∧ x ≤ range.last

/-- The numbers of the characters of a range. -/
def CharacterRange.interval (range : CharacterRange) : Ico Nat := ⟨range.first.toNat, range.last.toNat + 1⟩

def intervals (ranges : List CharacterRange) : List (Ico Nat) := ranges.map CharacterRange.interval

section Ranges

variable {ranges more : List CharacterRange} {range : CharacterRange} {lo hi x : UChar}

theorem sortedRanges_iff : SortedRanges ranges ↔ Separated (intervals ranges) := by
  unfold intervals
  constructor
  · intro h
    refine ⟨fun r hr => ?_, List.pairwise_map.2 h.apart⟩
    obtain ⟨range, hrange, rfl⟩ := List.mem_map.1 hr
    exact Nat.lt_succ_of_le (UInt16.le_iff_toNat_le.1 (h.le range hrange))
  · intro h
    refine ⟨fun range hrange => ?_, List.pairwise_map.1 h.apart⟩
    have hlt := h.lt _ (List.mem_map_of_mem hrange)
    exact UInt16.le_iff_toNat_le.2 (Nat.le_of_lt_succ hlt)

theorem inRanges_iff : InRanges ranges x ↔ Covers (intervals ranges) x.toNat := by
  unfold InRanges Covers intervals
  simp only [List.mem_map, exists_exists_and_eq_and]
  refine exists_congr fun range => and_congr_right fun _ => ?_
  rw [UInt16.le_iff_toNat_le, UInt16.le_iff_toNat_le]
  exact and_congr_right fun _ => Nat.lt_succ_iff.symm

theorem toNat_uchar_min (a b : UChar) : (min a b).toNat = min a.toNat b.toNat := by
  rw [CharacterClass.uchar_min]
  split <;> rename_i h <;> rw [UInt16.le_iff_toNat_le] at h <;> omega

theorem toNat_uchar_max (a b : UChar) : (max a b).toNat = max a.toNat b.toNat := by
  rw [CharacterClass.uchar_max]
  split <;> rename_i h <;> rw [UInt16.le_iff_toNat_le] at h <;> omega

theorem intervals_cons : intervals (range :: ranges) = range.interval :: intervals ranges := rfl

/-- **The inner loop merges the range** into the ranges behind its first character. -/
theorem intervals_subsume (h : Separated (intervals ranges))
    (hfirst : ∀ next ∈ ranges, range.first.toNat ≤ next.first.toNat) :
    intervals (subsume range ranges) = merge range.interval (intervals ranges) := by
  induction ranges generalizing range with
  | nil => rfl
  | cons next ranges ih =>
    rw [intervals_cons, separated_cons] at h
    obtain ⟨hnext, -, hrest⟩ := h
    rw [List.forall_mem_cons] at hfirst
    rw [subsume, intervals_cons]
    split
    · rename_i htouch
      have hbehind : ¬next.interval.stop < range.interval.start := not_lt.2 (hfirst.1.trans hnext.le)
      have hunion : range.interval.union next.interval =
          CharacterRange.interval ⟨range.first, max range.last next.last⟩ := by
        refine Ico.ext (min_eq_left hfirst.1) ?_
        unfold CharacterRange.interval Ico.union
        rw [toNat_uchar_max, Nat.add_max_add_right]
      rw [merge_of_touch (not_lt.2 htouch) hbehind, hunion]
      exact ih hrest hfirst.2
    · rename_i hgap
      rw [merge_of_lt (not_le.1 hgap)]
      rfl

/-- **`addSortedRange` merges the range.** -/
theorem intervals_addSortedRange (h : Separated (intervals ranges)) (hle : lo ≤ hi) :
    intervals (addSortedRange lo hi ranges) = merge (CharacterRange.interval ⟨lo, hi⟩) (intervals ranges) := by
  rw [UInt16.le_iff_toNat_le] at hle
  induction ranges with
  | nil => rfl
  | cons range ranges ih =>
    rw [intervals_cons, separated_cons] at h
    obtain ⟨hrange, hbehind, hrest⟩ := h
    have hrange' : range.first.toNat < range.last.toNat + 1 := hrange
    rw [addSortedRange, intervals_cons]
    split
    · rename_i hlt
      rw [UInt16.lt_iff_toNat_lt] at hlt
      have hback : ¬range.interval.stop < (CharacterRange.interval ⟨lo, hi⟩).start :=
        not_lt.2 (show lo.toNat ≤ range.last.toNat + 1 by omega)
      have hpred : (range.first - 1).toNat = range.first.toNat - 1 :=
        UInt16.toNat_sub_of_le _ _ (UInt16.le_iff_toNat_le.2 (show 1 ≤ range.first.toNat by omega))
      split
      · -- adjacent to the front of the range
        rename_i heq
        have heq' : hi.toNat = range.first.toNat - 1 := heq ▸ hpred
        have hfront : ¬(CharacterRange.interval ⟨lo, hi⟩).stop < range.interval.start :=
          not_lt.2 (show range.first.toNat ≤ hi.toNat + 1 by omega)
        have hunion : (CharacterRange.interval ⟨lo, hi⟩).union range.interval =
            CharacterRange.interval ⟨lo, range.last⟩ := by
          refine Ico.ext (min_eq_left ?_) (max_eq_right ?_)
          · exact show lo.toNat ≤ range.first.toNat by omega
          · exact show hi.toNat + 1 ≤ range.last.toNat + 1 by omega
        have hbehind' : ∀ s ∈ intervals ranges, (CharacterRange.interval ⟨lo, range.last⟩).stop < s.start := hbehind
        rw [merge_of_touch hfront hback, hunion, merge_of_forall_lt hbehind', intervals_cons]
      · rename_i hne
        have hne' : hi.toNat ≠ range.first.toNat - 1 := fun he => hne (UInt16.toNat_inj.1 (he.trans hpred.symm))
        rw [merge_of_lt (show hi.toNat + 1 < range.first.toNat by omega)]
        rfl
    · rename_i hge
      rw [UInt16.lt_iff_toNat_lt] at hge
      have hfront : ¬(CharacterRange.interval ⟨lo, hi⟩).stop < range.interval.start :=
        not_lt.2 (show range.first.toNat ≤ hi.toNat + 1 by omega)
      split
      · rename_i htouch
        have hunion : (CharacterRange.interval ⟨lo, hi⟩).union range.interval =
            CharacterRange.interval ⟨min range.first lo, max range.last hi⟩ := by
          unfold CharacterRange.interval Ico.union
          rw [toNat_uchar_min, toNat_uchar_max, Nat.add_max_add_right, Nat.min_comm, Nat.max_comm]
        rw [merge_of_touch hfront (not_lt.2 htouch), hunion, intervals_subsume hrest]
        intro next hnext
        have hlt : range.last.toNat + 1 < next.first.toNat := hbehind _ (List.mem_map_of_mem hnext)
        rw [toNat_uchar_min]
        omega
      · rename_i hgap
        rw [merge_of_gt hfront (not_le.1 hgap), ← ih hrest]
        rfl

theorem addSortedRange_spec (h : SortedRanges ranges) (hle : lo ≤ hi) : SortedRanges (addSortedRange lo hi ranges) ∧
    ∀ x, InRanges (addSortedRange lo hi ranges) x ↔ (lo ≤ x ∧ x ≤ hi) ∨ InRanges ranges x := by
  have hlt : (CharacterRange.interval ⟨lo, hi⟩).start < (CharacterRange.interval ⟨lo, hi⟩).stop :=
    Nat.lt_succ_of_le (UInt16.le_iff_toNat_le.1 hle)
  rw [sortedRanges_iff] at h ⊢
  rw [intervals_addSortedRange h hle]
  refine ⟨separated_merge hlt h, fun x => ?_⟩
  have hone : InRanges [⟨lo, hi⟩] x ↔ lo ≤ x ∧ x ≤ hi := by simp [InRanges]
  rw [inRanges_iff, intervals_addSortedRange h hle, covers_merge hlt h, inRanges_iff, ← hone, inRanges_iff]
  refine or_congr_left ?_
  simp [intervals, Covers]

end Ranges

end WebKit.Yarr
