import WebKit.Bmalloc.LargeHeap
import WebKit.Lib.Tiling

/-!
# The boundary tags of a tiled chunk

`TagsAgree tags m`: the tags describe the tiling `m`. The first and last tag of a tile hold its size and whether it is
free, and no other tag is free. What `BoundaryTag::allocate` and `BoundaryTag::deallocate` do to the tags is what
cutting and fusing do to the tiling (`allocate_agree`, `deallocate_agree`).
-/

namespace WebKit.Bmalloc

open Tiling

/-- What a range of a chunk is: in a free list, an object, or held by the scavenger with the lock released. -/
inductive RangeKind
  | free
  | live
  | scavenging
  deriving DecidableEq, Repr

/-- The ranges of all chunks. -/
abbrev Layout := Nat → Option (Tile RangeKind)

namespace LargeChunk

@[simp] theorem memoryOffset_eq (P : Platform) : memoryOffset P = 65536 := by cases P <;> rfl

theorem get_eq_of_le {b b' : Nat} (h₁ : get b ≤ b') (h₂ : b' < get b + 16777216) : get b' = get b := by
  unfold LargeChunk.get roundDown largeChunkSize superChunkSize at *
  omega

theorem beginTag_eq {c b : Nat} (h : get b = c) : beginTag b = ⟨c, (b - c) / 1024 - 1⟩ := by
  subst h
  rfl

theorem endTag_eq {c b s : Nat} (h : get b = c) : endTag b s = ⟨c, (b + s - 1024 - c) / 1024 - 1⟩ := by
  subst h
  rfl

end LargeChunk

open LargeChunk

attribute [local irreducible] LargeChunk.get

/-- The range from `b` of size `s` lies within the memory of its chunk. -/
def Inside (b s : Nat) : Prop := get b + 65536 ≤ b ∧ b + s ≤ get b + 16777216

/-- The tag numbers of the range from `lo` to `hi`. -/
def InRegion (lo hi : Nat) (a : TagAddress) : Prop :=
  a.chunk = get lo ∧ (lo - get lo) / 1024 - 1 ≤ a.number ∧ a.number ≤ (hi - 1024 - get lo) / 1024 - 1

/-- A tag says of the range it belongs to whether it is free, and its size. -/
structure Describes (tag : BoundaryTag) (t : Tile RangeKind) : Prop where
  isFree : tag.isFree = decide (t.kind = .free)
  size : tag.size = t.size

/-- The tags describe the ranges. -/
structure TagsAgree (tags : Tags) (m : Layout) : Prop where
  inside : ∀ {b t}, m b = some t → Inside b t.size
  beginTag : ∀ {b t}, m b = some t → Describes (tags (beginTag b)) t ∧ (tags (beginTag b)).isEnd = false
  endTag : ∀ {b t}, m b = some t → Describes (tags (endTag b t.size)) t ∧
    (endTag b t.size ≠ LargeChunk.beginTag b → (tags (endTag b t.size)).isEnd = true)
  onlyFree : ∀ {a}, (tags a).isFree = true →
    ∃ b t, m b = some t ∧ t.kind = .free ∧ (a = LargeChunk.beginTag b ∨ a = LargeChunk.endTag b t.size)

section Slots

variable {lo hi b s : Nat}

theorem beginTag_inRegion (hlo : get b = get lo) (h₁ : lo ≤ b) (h₂ : b + 1024 ≤ hi) : InRegion lo hi (beginTag b) := by
  rw [beginTag_eq hlo]
  exact ⟨rfl, by simp only; omega, by simp only; omega⟩

theorem endTag_inRegion (hlo : get b = get lo) (hs : 1024 ≤ s) (h₁ : lo ≤ b) (h₂ : b + s ≤ hi) :
    InRegion lo hi (endTag b s) := by
  rw [endTag_eq hlo]
  exact ⟨rfl, by simp only; omega, by simp only; omega⟩

theorem not_inRegion (hs : 1024 ≤ s) (hb : Inside b s) (hlo : Inside lo (hi - lo)) (hle : lo + 1024 ≤ hi)
    (h : b + s ≤ lo ∨ hi ≤ b) : ¬InRegion lo hi (beginTag b) ∧ ¬InRegion lo hi (endTag b s) := by
  unfold Inside at hb hlo
  refine ⟨fun ⟨h₁, h₂, h₃⟩ => ?_, fun ⟨h₁, h₂, h₃⟩ => ?_⟩
  · simp only [LargeChunk.beginTag, largeMin] at h₁ h₂ h₃
    rw [h₁] at hb h₂ h₃
    omega
  · simp only [LargeChunk.endTag, largeMin] at h₁ h₂ h₃
    rw [h₁] at hb h₂ h₃
    omega

end Slots

section Replace

variable {Start Stop : Nat → Prop} {m : Layout} {tags : Tags}

theorem begins_in_region (hm : Tiled Start Stop largeMin m) (ha : TagsAgree tags m) {lo hi : Nat} {tlo : Tile RangeKind}
    (hlo : m lo = some tlo) (hin : Inside lo (hi - lo)) (hle : lo + 1024 ≤ hi) {b : Nat} {t : Tile RangeKind}
    (hb : m b = some t) {a : TagAddress} (hr : InRegion lo hi a) (hat : a = beginTag b ∨ a = endTag b t.size) :
    lo ≤ b ∧ b < hi := by
  by_contra hnot
  have hs : 1024 ≤ t.size := hm.least_le hb
  have hd : b + t.size ≤ lo ∨ hi ≤ b := by
    by_cases h : b < lo
    · exact .inl (hm.disjoint hb hlo h)
    · exact .inr (by omega)
  obtain ⟨h₁, h₂⟩ := not_inRegion hs (ha.inside hb) hin hle hd
  rcases hat with rfl | rfl
  · exact h₁ hr
  · exact h₂ hr

/-- **Replacing the ranges between `lo` and `hi`**: the tags outside the region stay, and those inside describe the new
ranges. -/
theorem TagsAgree.replace (hm : Tiled Start Stop largeMin m) (ha : TagsAgree tags m) {lo hi last : Nat}
    {tlo tlast : Tile RangeKind} (hlo : m lo = some tlo) (hlast : m last = some tlast) (hhi : last + tlast.size = hi)
    (hin : Inside lo (hi - lo)) (hle : lo + 1024 ≤ hi) {m' : Layout} {tags' : Tags}
    (hout : ∀ b, b < lo ∨ hi ≤ b → m' b = m b) (htags : ∀ a, ¬InRegion lo hi a → tags' a = tags a)
    (hnew : ∀ b t, m' b = some t → lo ≤ b → b < hi → Inside b t.size ∧
      (Describes (tags' (LargeChunk.beginTag b)) t ∧ (tags' (LargeChunk.beginTag b)).isEnd = false) ∧
      Describes (tags' (LargeChunk.endTag b t.size)) t ∧
      (LargeChunk.endTag b t.size ≠ LargeChunk.beginTag b → (tags' (LargeChunk.endTag b t.size)).isEnd = true))
    (hfree : ∀ a, InRegion lo hi a → (tags' a).isFree = true →
      ∃ b t, m' b = some t ∧ t.kind = .free ∧ (a = LargeChunk.beginTag b ∨ a = LargeChunk.endTag b t.size)) :
    TagsAgree tags' m' := by
  have houter : ∀ b t, m' b = some t → ¬(lo ≤ b ∧ b < hi) → m b = some t ∧
      tags' (LargeChunk.beginTag b) = tags (LargeChunk.beginTag b) ∧
      tags' (LargeChunk.endTag b t.size) = tags (LargeChunk.endTag b t.size) := fun b t hb hnot => by
    rw [hout b (by omega)] at hb
    have hd : b + t.size ≤ lo ∨ hi ≤ b := by
      by_cases h : b < lo
      · exact .inl (hm.disjoint hb hlo h)
      · exact .inr (by omega)
    obtain ⟨h₁, h₂⟩ := not_inRegion (hm.least_le hb) (ha.inside hb) hin hle hd
    exact ⟨hb, htags _ h₁, htags _ h₂⟩
  refine ⟨fun {b t} hb => ?_, fun {b t} hb => ?_, fun {b t} hb => ?_, fun {a} hf => ?_⟩
  · by_cases h : lo ≤ b ∧ b < hi
    · exact (hnew b t hb h.1 h.2).1
    · exact ha.inside (houter b t hb h).1
  · by_cases h : lo ≤ b ∧ b < hi
    · exact (hnew b t hb h.1 h.2).2.1
    · obtain ⟨hb, h₁, -⟩ := houter b t hb h
      rw [h₁]
      exact ha.beginTag hb
  · by_cases h : lo ≤ b ∧ b < hi
    · exact (hnew b t hb h.1 h.2).2.2
    · obtain ⟨hb, -, h₂⟩ := houter b t hb h
      rw [h₂]
      exact ha.endTag hb
  · by_cases hr : InRegion lo hi a
    · exact hfree a hr hf
    · rw [htags a hr] at hf
      obtain ⟨b, t, hb, hk, hat⟩ := ha.onlyFree hf
      refine ⟨b, t, ?_, hk, hat⟩
      rw [hout b, hb]
      by_contra hnot
      -- a range within `[lo, hi)` has its tags in the region
      have hb₁ : lo ≤ b := by omega
      have hb₂ := hm.end_le hlast hhi hb (by omega)
      have hs : 1024 ≤ t.size := hm.least_le hb
      unfold Inside at hin
      have hg : get b = get lo := get_eq_of_le (by omega) (by omega)
      refine hr ?_
      rcases hat with rfl | rfl
      · exact beginTag_inRegion hg hb₁ (by omega)
      · exact endTag_inRegion hg hs hb₁ hb₂

/-- **One range from `lo` to `hi`**, whose two tags describe it, where no other tag of the region is free. -/
theorem TagsAgree.fuse (hm : Tiled Start Stop largeMin m) (ha : TagsAgree tags m) {lo hi last : Nat}
    {tlo tlast : Tile RangeKind} (hlo : m lo = some tlo) (hlast : m last = some tlast) (hhi : last + tlast.size = hi)
    (hin : Inside lo (hi - lo)) (hle : lo + 1024 ≤ hi) {k : RangeKind} {tags' : Tags}
    (htags : ∀ a, ¬InRegion lo hi a → tags' a = tags a)
    (hbegin : Describes (tags' (LargeChunk.beginTag lo)) ⟨hi - lo, k⟩ ∧ (tags' (LargeChunk.beginTag lo)).isEnd = false)
    (hend : Describes (tags' (LargeChunk.endTag lo (hi - lo))) ⟨hi - lo, k⟩ ∧
      (LargeChunk.endTag lo (hi - lo) ≠ LargeChunk.beginTag lo →
        (tags' (LargeChunk.endTag lo (hi - lo))).isEnd = true))
    (hfree : ∀ a, InRegion lo hi a → (tags' a).isFree = true →
      a = LargeChunk.beginTag lo ∨ a = LargeChunk.endTag lo (hi - lo)) :
    TagsAgree tags' (fuse m lo hi k) := by
  refine ha.replace hm hlo hlast hhi hin hle (fun b hb => fuse_outside hb (by omega)) htags (fun b t hb h₁ h₂ => ?_)
    fun a hr hf => ?_
  · obtain ⟨rfl, rfl⟩ | ⟨hne, ho, -⟩ := fuse_eq_some_iff.1 hb
    · exact ⟨hin, hbegin, hend⟩
    · omega
  · refine ⟨lo, ⟨hi - lo, k⟩, fuse_lo, ?_, hfree a hr hf⟩
    rcases hfree a hr hf with rfl | rfl
    · simpa [hf] using hbegin.1.isFree
    · simpa [hf] using hend.1.isFree

theorem TagsAgree.inner_not_free (hm : Tiled Start Stop largeMin m) (ha : TagsAgree tags m) {b : Nat}
    {t : Tile RangeKind} (hb : m b = some t) {a : TagAddress} (hr : InRegion b (b + t.size) a)
    (hf : (tags a).isFree = true) : t.kind = .free ∧ (a = LargeChunk.beginTag b ∨ a = LargeChunk.endTag b t.size) := by
  obtain ⟨b', t', hb', hk, hat⟩ := ha.onlyFree hf
  have hs : 1024 ≤ t.size := hm.least_le hb
  obtain ⟨h₁, h₂⟩ := begins_in_region hm ha hb (by simpa using ha.inside hb) (by omega) hb' hr hat
  have he : b' = b := by
    by_contra hne
    have := hm.disjoint hb hb' (by omega)
    omega
  subst he
  rw [hb] at hb'
  cases hb'
  exact ⟨hk, hat⟩

end Replace

/-! ## Merging -/

section Merge

variable {Start Stop : Nat → Prop} {m : Layout} {tags : Tags}

theorem prev_free (hStart : ∀ b, Start b → b = get b + 65536) (hm : Tiled Start Stop largeMin m)
    (ha : TagsAgree tags m) {lo : Nat} {tlo : Tile RangeKind} (hlo : m lo = some tlo)
    (hf : (tags (LargeChunk.beginTag lo).prev).isFree = true) :
    ∃ b t, m b = some t ∧ t.kind = .free ∧ b + t.size = lo ∧ get b = get lo ∧
      (LargeChunk.beginTag lo).prev = LargeChunk.endTag b t.size := by
  have hin := ha.inside hlo
  unfold Inside at hin
  rcases hm.prev hlo with h | ⟨b, t, hb, he⟩
  · have h := hStart lo h
    obtain ⟨b, t, hb, -, hat⟩ := ha.onlyFree hf
    have hs : 1024 ≤ t.size := hm.least_le hb
    have hin' := ha.inside hb
    unfold Inside at hin'
    rcases hat with hat | hat
    · simp only [LargeChunk.beginTag, TagAddress.prev, largeMin, TagAddress.mk.injEq] at hat
      omega
    · simp only [LargeChunk.beginTag, LargeChunk.endTag, TagAddress.prev, largeMin, TagAddress.mk.injEq] at hat
      omega
  · have hs : 1024 ≤ t.size := hm.least_le hb
    have hin' := ha.inside hb
    unfold Inside at hin'
    have hg : get b = get lo := by
      unfold LargeChunk.get roundDown largeChunkSize superChunkSize at *
      omega
    have hat : (LargeChunk.beginTag lo).prev = LargeChunk.endTag b t.size := by
      rw [beginTag_eq rfl, endTag_eq hg]
      simp only [TagAddress.prev, TagAddress.mk.injEq, true_and]
      omega
    rw [hat, (ha.endTag hb).1.isFree, decide_eq_true_eq] at hf
    exact ⟨b, t, hb, hf, he, hg, hat⟩

theorem next_free (hStop : ∀ e, Stop e → e % 16777216 = 0) (hm : Tiled Start Stop largeMin m)
    (ha : TagsAgree tags m) {last : Nat} {tlast : Tile RangeKind} (hlast : m last = some tlast)
    (hf : (tags (LargeChunk.endTag last tlast.size).next).isFree = true) :
    ∃ t, m (last + tlast.size) = some t ∧ t.kind = .free ∧ get (last + tlast.size) = get last ∧
      (LargeChunk.endTag last tlast.size).next = LargeChunk.beginTag (last + tlast.size) := by
  have hin := ha.inside hlast
  have hslast : 1024 ≤ tlast.size := hm.least_le hlast
  unfold Inside at hin
  rcases hm.next hlast with h | ⟨t, ht⟩
  · have h := hStop _ h
    obtain ⟨b, t, hb, -, hat⟩ := ha.onlyFree hf
    have hs : 1024 ≤ t.size := hm.least_le hb
    have hin' := ha.inside hb
    unfold Inside at hin'
    have hhi : last + tlast.size = get last + 16777216 := by
      unfold LargeChunk.get roundDown largeChunkSize superChunkSize at *
      omega
    rcases hat with hat | hat
    · simp only [LargeChunk.beginTag, LargeChunk.endTag, TagAddress.next, largeMin, TagAddress.mk.injEq] at hat
      omega
    · simp only [LargeChunk.endTag, TagAddress.next, largeMin, TagAddress.mk.injEq] at hat
      omega
  · have hin' := ha.inside ht
    unfold Inside at hin'
    have hg : get (last + tlast.size) = get last := by
      unfold LargeChunk.get roundDown largeChunkSize superChunkSize at *
      omega
    have hat : (LargeChunk.endTag last tlast.size).next = LargeChunk.beginTag (last + tlast.size) := by
      rw [beginTag_eq hg, endTag_eq rfl]
      simp only [TagAddress.next, TagAddress.mk.injEq, true_and]
      omega
    rw [hat, (ha.beginTag ht).1.isFree, decide_eq_true_eq] at hf
    exact ⟨t, ht, hf, hg, hat⟩

/-- What holds between the steps of `mergeLarge` for an object: the range consists of ranges of the layout, all free
but the object's, and only its first and last tag may be free. -/
structure MergeInv (tags : Tags) (m : Layout) (object : Nat) (s : Tags.Merge) (lo hi : Nat) : Prop where
  range : s.range = ⟨lo, hi - lo⟩
  beginTag : s.beginTag = LargeChunk.beginTag lo
  endTag : s.endTag = LargeChunk.endTag lo (hi - lo)
  inside : Inside lo (hi - lo)
  le : lo + 1024 ≤ hi
  first : ∃ t, m lo = some t
  last : ∃ b t, m b = some t ∧ b + t.size = hi ∧ lo ≤ b
  outside : ∀ a, ¬InRegion lo hi a → s.tags a = tags a
  inner : ∀ a, InRegion lo hi a → (s.tags a).isFree = true →
    a = LargeChunk.beginTag lo ∨ a = LargeChunk.endTag lo (hi - lo)
  isEnd : (s.tags (LargeChunk.beginTag lo)).isEnd = false
  lo_le : lo ≤ object
  lt_hi : object < hi
  only : ∀ b t, m b = some t → lo ≤ b → b < hi → b = object ∨ t.kind = .free

theorem endTag_of_last (hm : Tiled Start Stop largeMin m) {lo hi b : Nat}
    {t : Tile RangeKind} (hin : Inside lo (hi - lo)) (hb : m b = some t) (he : b + t.size = hi) (hle : lo ≤ b) :
    LargeChunk.endTag lo (hi - lo) = LargeChunk.endTag b t.size := by
  have hs : 1024 ≤ t.size := hm.least_le hb
  unfold Inside at hin
  have hg : get b = get lo := get_eq_of_le (by omega) (by omega)
  rw [endTag_eq rfl, endTag_eq hg]
  simp only [TagAddress.mk.injEq, true_and]
  omega

theorem set_apply {a a' : TagAddress} {tag : BoundaryTag} : tags.set a tag a' = if a' = a then tag else tags a' :=
  Function.update_apply ..

theorem modify_apply {a a' : TagAddress} {f : BoundaryTag → BoundaryTag} :
    tags.modify a f a' = if a' = a then f (tags a) else tags a' := set_apply

theorem copyToEnd_apply {a a' e : TagAddress} :
    tags.copyToEnd a e a' = if a' = e ∧ e ≠ a then (tags a).setEnd true else tags a' := by
  unfold Tags.copyToEnd
  by_cases h : e = a
  · simp [h]
  · simp [h, set_apply]

theorem set_null_of_isFree {a a' : TagAddress} (h : (tags.set a' .null a).isFree = true) :
    a ≠ a' ∧ (tags a).isFree = true := by
  rw [set_apply] at h
  split at h
  · cases h
  · exact ⟨‹_›, h⟩

theorem set_null_isEnd {a a' : TagAddress} (h : (tags a).isEnd = false) : (tags.set a' .null a).isEnd = false := by
  rw [set_apply]
  split
  · rfl
  · exact h

theorem mergeLargeLeft_inv (hStart : ∀ b, Start b → b = get b + 65536) (hm : Tiled Start Stop largeMin m)
    (ha : TagsAgree tags m) {object : Nat} {s : Tags.Merge} {lo hi : Nat} (hs : MergeInv tags m object s lo hi)
    (hf : (tags (LargeChunk.beginTag lo).prev).isFree = true) :
    ∃ lo', MergeInv tags m object (Tags.mergeLargeLeft s (LargeChunk.beginTag lo).prev) lo' hi := by
  obtain ⟨tlo, hlo⟩ := hs.first
  obtain ⟨b, t, hb, hk, he, hg, hat⟩ := prev_free hStart hm ha hlo hf
  have hsize : 1024 ≤ t.size := hm.least_le hb
  have hinb := ha.inside hb
  have hin := hs.inside
  have hle := hs.le
  unfold Inside at hinb hin
  have hend : LargeChunk.endTag b (hi - b) = LargeChunk.endTag lo (hi - lo) := by
    rw [endTag_eq hg, endTag_eq rfl]
    simp only [TagAddress.mk.injEq, true_and]
    omega
  -- the tag before `lo` was not touched yet
  have hprev : s.tags (LargeChunk.beginTag lo).prev = tags (LargeChunk.beginTag lo).prev := by
    refine hs.outside _ fun ⟨_, h, _⟩ => ?_
    simp only [LargeChunk.beginTag, TagAddress.prev, largeMin] at h
    omega
  have hsz : (s.tags (LargeChunk.beginTag lo).prev).size = t.size := by
    rw [hprev, hat]
    exact (ha.endTag hb).1.size
  have hrange : (⟨s.range.begin - (s.tags (LargeChunk.beginTag lo).prev).size,
      (s.tags (LargeChunk.beginTag lo).prev).size + s.range.size⟩ : Range) = ⟨b, hi - b⟩ := by
    rw [hsz, hs.range]
    simp only [Range.mk.injEq]
    omega
  have hsub : ∀ a, InRegion lo hi a → InRegion b hi a := fun a ⟨h₁, h₂, h₃⟩ => by
    refine ⟨by rw [hg]; exact h₁, ?_, by rw [hg]; exact h₃⟩
    rw [hg]
    omega
  have hreg : ∀ a, InRegion b hi a → ¬InRegion lo hi a → InRegion b (b + t.size) a := fun a ⟨h₁, h₂, h₃⟩ hn => by
    refine ⟨h₁, h₂, ?_⟩
    by_contra hc
    refine hn ⟨by rw [← hg]; exact h₁, ?_, by rw [← hg]; exact h₃⟩
    rw [← hg]
    omega
  have hlo_le := hs.lo_le
  refine ⟨b, hrange, ?_, ?_, ?_, by omega, ⟨t, hb⟩, ?_, fun a hn => ?_, fun a hr hfa => ?_, ?_, by omega, hs.lt_hi,
    fun b' t' hb' h₁ h₂ => ?_⟩
  · exact congrArg (fun r : Range => LargeChunk.beginTag r.begin) hrange
  · exact hs.endTag.trans hend.symm
  · exact ⟨by omega, by omega⟩
  · obtain ⟨b', t', hb', he', hle'⟩ := hs.last
    exact ⟨b', t', hb', he', by omega⟩
  · -- both cleared tags are in the new region
    have h₁ : a ≠ (LargeChunk.beginTag lo).prev := fun e => hn (by
      rw [e, hat]
      exact endTag_inRegion rfl hsize (Nat.le_refl _) (by omega))
    have h₂ : a ≠ LargeChunk.beginTag lo := fun e => hn (hsub _ (by
      rw [e]
      exact beginTag_inRegion rfl (Nat.le_refl _) hle))
    simp only [Tags.mergeLargeLeft, hs.beginTag]
    rw [set_apply, if_neg h₂, set_apply, if_neg h₁]
    exact hs.outside a fun h => hn (hsub a h)
  · obtain ⟨h₂, hfa⟩ := set_null_of_isFree hfa
    obtain ⟨h₁, hfa⟩ := set_null_of_isFree hfa
    rw [hs.beginTag] at h₂
    rw [hend]
    by_cases hr' : InRegion lo hi a
    · exact .inr ((hs.inner a hr' hfa).resolve_left h₂)
    · rw [hs.outside a hr'] at hfa
      exact .inl ((ha.inner_not_free hm hb (hreg a hr hr') hfa).2.resolve_right fun h => h₁ (h.trans hat.symm))
  · refine set_null_isEnd (set_null_isEnd ?_)
    rw [hs.outside, (ha.beginTag hb).2]
    exact (not_inRegion hsize (ha.inside hb) hs.inside hle (.inl (by omega))).1
  · by_cases h : b < b'
    · exact hs.only b' t' hb' (he ▸ hm.disjoint hb hb' h) h₂
    · obtain rfl : b' = b := by omega
      rw [hb] at hb'
      cases hb'
      exact .inr hk

theorem mergeLargeRight_inv (hStop : ∀ e, Stop e → e % 16777216 = 0) (hm : Tiled Start Stop largeMin m)
    (ha : TagsAgree tags m) {object : Nat} {s : Tags.Merge} {lo hi : Nat} (hs : MergeInv tags m object s lo hi)
    (hf : (tags (LargeChunk.endTag lo (hi - lo)).next).isFree = true) :
    ∃ hi', MergeInv tags m object (Tags.mergeLargeRight s (LargeChunk.endTag lo (hi - lo)).next) lo hi' := by
  obtain ⟨last, tlast, hlast, hhi, hlelast⟩ := hs.last
  have hend := endTag_of_last hm hs.inside hlast hhi hlelast
  rw [hend] at hf ⊢
  obtain ⟨t, hb, hk, hg, hat⟩ := next_free hStop hm ha hlast hf
  rw [hhi] at hb hg hat
  have hsize : 1024 ≤ t.size := hm.least_le hb
  have hslast : 1024 ≤ tlast.size := hm.least_le hlast
  have hinb := ha.inside hb
  have hin := hs.inside
  have hle := hs.le
  unfold Inside at hinb hin
  have hglast : get last = get lo := get_eq_of_le (by omega) (by omega)
  rw [hglast] at hg
  rw [hg] at hinb
  have hend' : LargeChunk.endTag lo (hi + t.size - lo) = LargeChunk.endTag hi t.size := by
    rw [endTag_eq rfl, endTag_eq hg]
    simp only [TagAddress.mk.injEq, true_and]
    omega
  have hnext : s.tags (LargeChunk.beginTag hi) = tags (LargeChunk.beginTag hi) := by
    refine hs.outside _ fun ⟨_, _, h⟩ => ?_
    rw [beginTag_eq hg] at h
    simp only at h
    omega
  have hsz : (s.tags (LargeChunk.beginTag hi)).size = t.size := by
    rw [hnext]
    exact (ha.beginTag hb).1.size
  have hrange : (⟨s.range.begin, s.range.size + (s.tags (LargeChunk.beginTag hi)).size⟩ : Range) =
      ⟨lo, hi + t.size - lo⟩ := by
    rw [hsz, hs.range]
    simp only [Range.mk.injEq, true_and]
    omega
  have hnum : (hi - 1024 - get lo) / 1024 ≤ (hi + t.size - 1024 - get lo) / 1024 := by omega
  have hsub : ∀ a, InRegion lo hi a → InRegion lo (hi + t.size) a := fun a ⟨h₁, h₂, h₃⟩ =>
    ⟨h₁, h₂, Nat.le_trans h₃ (Nat.sub_le_sub_right hnum 1)⟩
  have hfirst : (hi - 1024 - get lo) / 1024 - 1 = (hi - get lo) / 1024 - 1 - 1 := by omega
  have hreg : ∀ a, InRegion lo (hi + t.size) a → ¬InRegion lo hi a → InRegion hi (hi + t.size) a :=
    fun a ⟨h₁, h₂, h₃⟩ hn => by
      refine ⟨by rw [hg]; exact h₁, ?_, by rw [hg]; exact h₃⟩
      by_contra hc
      rw [hg] at hc
      refine hn ⟨h₁, h₂, ?_⟩
      rw [hfirst]
      exact Nat.le_sub_one_of_lt (Nat.lt_of_not_le hc)
  rw [hat]
  refine ⟨hi + t.size, hrange, hs.beginTag, ?_, ?_, by omega, hs.first, ?_, fun a hn => ?_, fun a hr hfa => ?_, ?_,
    hs.lo_le, Nat.lt_of_lt_of_le hs.lt_hi (Nat.le_add_right ..), fun b' t' hb' h₁ h₂ => ?_⟩
  · exact congrArg (fun r : Range => LargeChunk.endTag r.begin r.size) hrange
  · exact ⟨by omega, by omega⟩
  · exact ⟨hi, t, hb, rfl, by omega⟩
  · have h₁ : a ≠ LargeChunk.endTag lo (hi - lo) := fun e => hn (hsub _ (by
      rw [e]
      exact endTag_inRegion rfl (by omega) (Nat.le_refl _) (by omega)))
    have h₂ : a ≠ LargeChunk.beginTag hi := fun e => hn (by
      rw [e]
      exact beginTag_inRegion hg (by omega) (by omega))
    simp only [Tags.mergeLargeRight, hs.endTag]
    rw [set_apply, if_neg h₂, set_apply, if_neg h₁]
    exact hs.outside a fun h => hn (hsub a h)
  · obtain ⟨h₂, hfa⟩ := set_null_of_isFree hfa
    obtain ⟨h₁, hfa⟩ := set_null_of_isFree hfa
    rw [hs.endTag] at h₁
    by_cases hr' : InRegion lo hi a
    · exact .inl ((hs.inner a hr' hfa).resolve_right h₁)
    · rw [hs.outside a hr'] at hfa
      exact .inr (((ha.inner_not_free hm hb (hreg a hr hr') hfa).2.resolve_left h₂).trans hend'.symm)
  · exact set_null_isEnd (set_null_isEnd hs.isEnd)
  · rcases Nat.lt_trichotomy b' hi with h | rfl | h
    · exact hs.only b' t' hb' h₁ h
    · rw [hb] at hb'
      cases hb'
      exact .inr hk
    · have := hm.disjoint hb hb' h
      omega

theorem mergeInv_close (hm : Tiled Start Stop largeMin m) (ha : TagsAgree tags m) {object : Nat} {s : Tags.Merge}
    {lo hi : Nat} (hs : MergeInv tags m object s lo hi) :
    TagsAgree ((s.tags.modify s.beginTag fun tag =>
      ((tag.setSize s.range.size).setFree true).setHasPhysicalPages s.hasPhysicalPages).copyToEnd s.beginTag s.endTag)
      (fuse m lo hi .free) := by
  obtain ⟨tlo, hlo⟩ := hs.first
  obtain ⟨last, tlast, hlast, hhi, -⟩ := hs.last
  have hin := hs.inside
  have hle := hs.le
  have hsize : (hi - lo) % 2 ^ BoundaryTag.sizeBits = hi - lo := by
    unfold Inside at hin
    refine Nat.mod_eq_of_lt ?_
    have : (2 : Nat) ^ BoundaryTag.sizeBits = 536870912 := rfl
    omega
  rw [hs.beginTag, hs.endTag, hs.range]
  refine ha.fuse hm hlo hlast hhi hin hle (fun a hn => ?_) ⟨⟨?_, ?_⟩, ?_⟩ ⟨⟨?_, ?_⟩, fun hne => ?_⟩ fun a hr hf => ?_
  · have h₁ : a ≠ LargeChunk.beginTag lo := fun e => hn (e ▸ beginTag_inRegion rfl (Nat.le_refl _) hle)
    have h₂ : a ≠ LargeChunk.endTag lo (hi - lo) := fun e =>
      hn (e ▸ endTag_inRegion rfl (by omega) (Nat.le_refl _) (by omega))
    rw [copyToEnd_apply, if_neg (fun h => h₂ h.1), modify_apply, if_neg h₁, hs.outside a hn]
  · rw [copyToEnd_apply, if_neg (fun h => h.2 h.1.symm), modify_apply, if_pos rfl]
    rfl
  · rw [copyToEnd_apply, if_neg (fun h => h.2 h.1.symm), modify_apply, if_pos rfl]
    exact hsize
  · rw [copyToEnd_apply, if_neg (fun h => h.2 h.1.symm), modify_apply, if_pos rfl]
    exact hs.isEnd
  · rw [copyToEnd_apply, modify_apply, modify_apply, if_pos rfl]
    split
    · rfl
    · rename_i h
      rw [if_pos (by_contra fun h' => h ⟨rfl, h'⟩)]
      rfl
  · rw [copyToEnd_apply, modify_apply, modify_apply, if_pos rfl]
    split
    · exact hsize
    · rename_i h
      rw [if_pos (by_contra fun h' => h ⟨rfl, h'⟩)]
      exact hsize
  · rw [copyToEnd_apply, if_pos ⟨rfl, hne⟩]
    rfl
  · by_contra hnot
    obtain ⟨h₁, h₂⟩ := not_or.1 hnot
    rw [copyToEnd_apply, if_neg (fun h => h₂ h.1), modify_apply, if_neg h₁] at hf
    exact hnot (hs.inner a hr hf)

theorem mergeInv_next {object : Nat} {s : Tags.Merge} {lo hi : Nat} (hs : MergeInv tags m object s lo hi) :
    s.tags (LargeChunk.endTag lo (hi - lo)).next = tags (LargeChunk.endTag lo (hi - lo)).next := by
  refine hs.outside _ fun ⟨_, _, h⟩ => ?_
  have := hs.le
  simp only [LargeChunk.endTag, TagAddress.next, largeMin, show lo + (hi - lo) = hi by omega] at h
  omega

/-- **`BoundaryTag::deallocate`** fuses the object's range with its free neighbours. -/
theorem deallocate_agree (hStart : ∀ b, Start b → b = get b + 65536) (hStop : ∀ e, Stop e → e % 16777216 = 0)
    (hm : Tiled Start Stop largeMin m) (ha : TagsAgree tags m) {object : Nat} {t : Tile RangeKind}
    (hb : m object = some t) (hk : t.kind ≠ .free) :
    ∃ lo hi s, MergeInv tags m object s lo hi ∧ (tags.deallocate object).2 = ⟨lo, hi - lo⟩ ∧
      TagsAgree (tags.deallocate object).1 (fuse m lo hi .free) := by
  have hsize : 1024 ≤ t.size := hm.least_le hb
  let s₀ : Tags.Merge := ⟨tags, LargeChunk.beginTag object, LargeChunk.endTag object t.size, ⟨object, t.size⟩,
    (tags (LargeChunk.beginTag object)).hasPhysicalPages⟩
  have h₀ : MergeInv tags m object s₀ object (object + t.size) := by
    refine ⟨by simp [s₀], rfl, by simp [s₀], by simpa using ha.inside hb, by omega, ⟨t, hb⟩,
      ⟨object, t, hb, rfl, Nat.le_refl _⟩, fun _ _ => rfl, fun a hr hf => ?_, (ha.beginTag hb).2, Nat.le_refl _,
      by omega, fun b t' hb' h₁ h₂ => ?_⟩
    · exact absurd (ha.inner_not_free hm hb hr hf).1 hk
    · by_contra hne
      have := hm.disjoint hb hb' (by omega)
      omega
  have hstep₁ : ∃ lo, MergeInv tags m object
      (if (tags (LargeChunk.beginTag object).prev).isFree then Tags.mergeLargeLeft s₀ (LargeChunk.beginTag object).prev
        else s₀) lo (object + t.size) := by
    split
    · exact mergeLargeLeft_inv hStart hm ha h₀ ‹_›
    · exact ⟨object, h₀⟩
  obtain ⟨lo, h₁⟩ := hstep₁
  generalize hs₁ : (if (tags (LargeChunk.beginTag object).prev).isFree then
    Tags.mergeLargeLeft s₀ (LargeChunk.beginTag object).prev else s₀) = s₁ at h₁
  have hend : LargeChunk.endTag object t.size = LargeChunk.endTag lo (object + t.size - lo) :=
    (endTag_of_last hm h₁.inside hb rfl h₁.lo_le).symm
  have hstep₂ : ∃ hi, MergeInv tags m object
      (if (s₁.tags (LargeChunk.endTag object t.size).next).isFree then
        Tags.mergeLargeRight s₁ (LargeChunk.endTag object t.size).next else s₁) lo hi := by
    rw [hend, mergeInv_next h₁]
    split
    · exact mergeLargeRight_inv hStop hm ha h₁ ‹_›
    · exact ⟨_, h₁⟩
  obtain ⟨hi, h₂⟩ := hstep₂
  refine ⟨lo, hi, _, h₂, ?_, ?_⟩
  · rw [← h₂.range, ← hs₁]
    simp only [Tags.deallocate, Tags.mergeLarge, (ha.beginTag hb).1.size, s₀]
  · have := mergeInv_close hm ha h₂
    rw [← hs₁] at this
    simpa only [Tags.deallocate, Tags.mergeLarge, (ha.beginTag hb).1.size, s₀] using this

end Merge

/-! ## Changing one range -/

section One

variable {Start Stop : Nat → Prop} {m : Layout} {tags : Tags} {b : Nat} {t : Tile RangeKind}

/-- The same change `g` of the first and the last tag of a range, which makes its kind `k`. -/
theorem modify_agree (hm : Tiled Start Stop largeMin m) (ha : TagsAgree tags m) (hb : m b = some t) {k : RangeKind}
    {g : BoundaryTag → BoundaryTag} (hsize : ∀ tag, (g tag).size = tag.size) (hend : ∀ tag, (g tag).isEnd = tag.isEnd)
    (hfree : ∀ tag, tag.isFree = decide (t.kind = .free) ∨ tag.isFree = decide (k = .free) →
      (g tag).isFree = decide (k = .free)) :
    TagsAgree ((tags.modify (LargeChunk.beginTag b) g).modify (LargeChunk.endTag b t.size) g)
      (fuse m b (b + t.size) k) := by
  have hs : 1024 ≤ t.size := hm.least_le hb
  obtain ⟨⟨hf₁, hs₁⟩, he₁⟩ := ha.beginTag hb
  obtain ⟨⟨hf₂, hs₂⟩, he₂⟩ := ha.endTag hb
  have hsub : b + t.size - b = t.size := by omega
  refine ha.fuse hm hb hb rfl (by simpa using ha.inside hb) (by omega) (fun a hn => ?_) ?_ ?_ fun a hr hf => ?_
  · have h₁ : a ≠ LargeChunk.beginTag b := fun e => hn (e ▸ beginTag_inRegion rfl (Nat.le_refl _) (by omega))
    have h₂ : a ≠ LargeChunk.endTag b t.size := fun e =>
      hn (e ▸ endTag_inRegion rfl hs (Nat.le_refl _) (Nat.le_refl _))
    rw [modify_apply, if_neg h₂, modify_apply, if_neg h₁]
  · rw [hsub, modify_apply, modify_apply, modify_apply, if_pos rfl]
    split
    · rename_i h
      rw [if_pos h.symm]
      exact ⟨⟨hfree _ (.inr (hfree _ (.inl hf₁))), (hsize _).trans ((hsize _).trans hs₁)⟩,
        (hend _).trans ((hend _).trans he₁)⟩
    · exact ⟨⟨hfree _ (.inl hf₁), (hsize _).trans hs₁⟩, (hend _).trans he₁⟩
  · rw [hsub, modify_apply, if_pos rfl, modify_apply]
    split
    · rename_i h
      exact ⟨⟨hfree _ (.inr (hfree _ (.inl hf₁))), (hsize _).trans ((hsize _).trans hs₁)⟩, fun hne => absurd h hne⟩
    · exact ⟨⟨hfree _ (.inl hf₂), (hsize _).trans hs₂⟩, fun hne => (hend _).trans (he₂ hne)⟩
  · by_contra hnot
    rw [hsub] at hnot
    obtain ⟨h₁, h₂⟩ := not_or.1 hnot
    rw [modify_apply, if_neg h₂, modify_apply, if_neg h₁] at hf
    exact hnot (ha.inner_not_free hm hb hr hf).2

/-- The writes of `BoundaryTag::allocate` with a split: to the tags of the object, `F` and `S`, and to those of the
leftover, `B` and `E`. -/
theorem splitLarge_writes {F S B E : TagAddress} {size rest : Nat} (hFB : F ≠ B) (hFE : F ≠ E) (hSB : S ≠ B)
    (hSE : S ≠ E) (hF : (tags F).isFree = true ∧ (tags F).isEnd = false) {tags' : Tags}
    (htags : tags' =
      let t₁ := (tags.modify F fun tag => tag.setSize size).copyToEnd F S
      let t₂ := (t₁.set B ((t₁ F).setSize rest)).copyToEnd B E
      (t₂.modify F fun tag => (tag.setHasPhysicalPages true).setFree false).modify S
        fun tag => (tag.setHasPhysicalPages true).setFree false) :
    tags' F = (⟨false, false, true, 0⟩ : BoundaryTag).setSize size ∧
      (S ≠ F → tags' S = (⟨false, true, true, 0⟩ : BoundaryTag).setSize size) ∧
      tags' B = (⟨true, false, (tags F).hasPhysicalPages, 0⟩ : BoundaryTag).setSize rest ∧
      (E ≠ B → tags' E = (⟨true, true, (tags F).hasPhysicalPages, 0⟩ : BoundaryTag).setSize rest) ∧
      ∀ a, a ≠ F → a ≠ S → a ≠ B → a ≠ E → tags' a = tags a := by
  subst htags
  simp only [modify_apply, copyToEnd_apply, set_apply]
  refine ⟨?_, fun h => ?_, ?_, fun h => ?_, fun a h₁ h₂ h₃ h₄ => ?_⟩
  · by_cases hSF : F = S
    · subst hSF
      simp [hFB, hFE, BoundaryTag.setSize, BoundaryTag.setFree, BoundaryTag.setHasPhysicalPages, hF]
    · simp [hSF, hFB, hFE, BoundaryTag.setSize, BoundaryTag.setFree, BoundaryTag.setHasPhysicalPages, hF]
  · simp [h, hSB, hSE, BoundaryTag.setSize, BoundaryTag.setFree, BoundaryTag.setHasPhysicalPages, BoundaryTag.setEnd]
  · have hBE : ¬(B = E ∧ E ≠ B) := fun h => h.2 h.1.symm
    by_cases hSF : S = F
    · simp only [hSF, hFB.symm, hBE, if_false, if_true, ne_eq, not_true, and_false]
      simp [BoundaryTag.setSize, hF]
    · simp only [hFB.symm, hSB.symm, hBE, Ne.symm hSF, if_false, if_true, false_and]
      simp [BoundaryTag.setSize, hF]
  · by_cases hSF : S = F
    · simp [h, hSF, hFE.symm, BoundaryTag.setSize, BoundaryTag.setEnd, hF]
    · simp [h, hFE.symm, hSE.symm, Ne.symm hSF, BoundaryTag.setSize, BoundaryTag.setEnd, hF]
  · simp [h₁, h₂, h₃, h₄]

/-- **`BoundaryTag::allocate` with a split** cuts the range, and the leftover stays free. -/
theorem allocate_cut_agree (hm : Tiled Start Stop largeMin m) (ha : TagsAgree tags m) (hb : m b = some t)
    (hk : t.kind = .free) {size : Nat} (hmin : 1024 ≤ size) (hgt : t.size - size > largeMin) :
    (tags.allocate size ⟨b, t.size⟩).2 = (⟨b, size⟩, ⟨b + size, t.size - size⟩) ∧
      TagsAgree (tags.allocate size ⟨b, t.size⟩).1 (cut m b (b + size) (b + t.size) .live .free) := by
  have hgt' : 1024 < t.size - size := hgt
  have hin := ha.inside hb
  unfold Inside at hin
  obtain ⟨⟨hf₁, hs₁⟩, he₁⟩ := ha.beginTag hb
  have hmod : ∀ n, n ≤ 16777216 → n % 2 ^ BoundaryTag.sizeBits = n := fun n hn => by
    refine Nat.mod_eq_of_lt ?_
    have : (2 : Nat) ^ BoundaryTag.sizeBits = 536870912 := rfl
    omega
  have hg : get (b + size) = get b := get_eq_of_le (by omega) (by omega)
  have hE' : LargeChunk.endTag (b + size) (t.size - size) = LargeChunk.endTag b t.size := by
    rw [endTag_eq hg, endTag_eq rfl, show b + size + (t.size - size) = b + t.size by omega]
  have hne : LargeChunk.beginTag b ≠ LargeChunk.beginTag (b + size) ∧
      LargeChunk.beginTag b ≠ LargeChunk.endTag b t.size ∧
      LargeChunk.endTag b size ≠ LargeChunk.beginTag (b + size) ∧
      LargeChunk.endTag b size ≠ LargeChunk.endTag b t.size := by
    rw [beginTag_eq rfl, beginTag_eq hg, endTag_eq rfl, endTag_eq rfl]
    simp only [ne_eq, TagAddress.mk.injEq, true_and]
    omega
  generalize hall : tags.allocate size ⟨b, t.size⟩ = r
  obtain ⟨tags', range, leftover⟩ := r
  simp only [Tags.allocate, Tags.splitLarge, hgt, if_true, Prod.mk.injEq] at hall
  obtain ⟨htags, hrange, hleft⟩ := hall
  obtain ⟨hF, hS, hB, hE, hother⟩ := splitLarge_writes hne.1 hne.2.1 hne.2.2.1 hne.2.2.2
    ⟨by rw [hf₁, hk]; rfl, he₁⟩ htags.symm
  refine ⟨by rw [← hrange, ← hleft], ha.replace hm hb hb rfl (by simpa using ha.inside hb) (by omega)
    (fun x hx => ?_) (fun a hn => ?_) (fun x t' hx h₁ h₂ => ?_) fun a hr hf => ?_⟩
  · exact cut_other (by omega) (by omega)
  · exact hother a (fun e => hn (e ▸ beginTag_inRegion rfl (Nat.le_refl _) (by omega)))
      (fun e => hn (e ▸ endTag_inRegion rfl hmin (Nat.le_refl _) (by omega)))
      (fun e => hn (e ▸ beginTag_inRegion hg (by omega) (by omega)))
      fun e => hn (e ▸ endTag_inRegion rfl (by omega) (Nat.le_refl _) (Nat.le_refl _))
  · obtain ⟨rfl, rfl⟩ | ⟨-, rfl, rfl⟩ | ⟨hx₁, hx₂, hx⟩ := cut_eq_some_iff.1 hx
    · -- the leftover
      simp only [show b + t.size - (b + size) = t.size - size by omega, hE']
      refine ⟨⟨by omega, by omega⟩, ?_, ?_, fun hne => ?_⟩
      · rw [hB]
        exact ⟨⟨rfl, hmod _ (by omega)⟩, rfl⟩
      · by_cases he : LargeChunk.endTag b t.size = LargeChunk.beginTag (b + size)
        · rw [he, hB]
          exact ⟨rfl, hmod _ (by omega)⟩
        · rw [hE he]
          exact ⟨rfl, hmod _ (by omega)⟩
      · rw [hE hne]
        rfl
    · -- the object
      simp only [show x + size - x = size by omega]
      refine ⟨⟨by omega, by omega⟩, ?_, ?_, fun hne => ?_⟩
      · rw [hF]
        exact ⟨⟨rfl, hmod _ (by omega)⟩, rfl⟩
      · by_cases he : LargeChunk.endTag x size = LargeChunk.beginTag x
        · rw [he, hF]
          exact ⟨rfl, hmod _ (by omega)⟩
        · rw [hS he]
          exact ⟨rfl, hmod _ (by omega)⟩
      · rw [hS hne]
        rfl
    · have := hm.disjoint hb hx (by omega)
      omega
  · refine ⟨b + size, ⟨b + t.size - (b + size), .free⟩, cut_mid, rfl, ?_⟩
    simp only [show b + t.size - (b + size) = t.size - size by omega, hE']
    change (tags' a).isFree = true at hf
    by_contra hnot
    obtain ⟨h₃, h₄⟩ := not_or.1 hnot
    have h₁ : a ≠ LargeChunk.beginTag b := fun e => by
      rw [e, hF] at hf
      cases hf
    have h₂ : a ≠ LargeChunk.endTag b size := fun e => by
      rw [e, hS fun e' => h₁ (e.trans e')] at hf
      cases hf
    rw [hother a h₁ h₂ h₃ h₄] at hf
    exact (ha.inner_not_free hm hb hr hf).2.elim h₁ h₄

theorem allocate_whole_agree (hm : Tiled Start Stop largeMin m) (ha : TagsAgree tags m) (hb : m b = some t)
    {size : Nat} (hle : ¬t.size - size > largeMin) :
    (tags.allocate size ⟨b, t.size⟩).2 = (⟨b, t.size⟩, ⟨0, 0⟩) ∧
      TagsAgree (tags.allocate size ⟨b, t.size⟩).1 (fuse m b (b + t.size) .live) := by
  simp only [Tags.allocate, if_neg hle, true_and]
  exact modify_agree hm ha hb (fun _ => rfl) (fun _ => rfl) fun _ _ => rfl

theorem modify_pairs {F E : TagAddress} {f g : BoundaryTag → BoundaryTag} (hfg : ∀ x, g (f x) = f (g x)) :
    ((((tags.modify F f).modify E f).modify F g).modify E g) = (tags.modify F (g ∘ f)).modify E (g ∘ f) := by
  ext1
  funext a
  simp only [modify_apply, Function.comp]
  by_cases hE : E = F
  · subst hE
    by_cases ha : a = E
    · simp only [ha, if_true]
      exact congrArg g (hfg (f _))
    · simp only [ha, if_false]
  · by_cases ha : a = E
    · simp only [ha, hE, if_true, if_false]
    · simp only [ha, Ne.symm hE, if_true, if_false]
      split <;> rfl

end One

theorem init_agree {P : Platform} {m : Layout} {tags : Tags} (ha : TagsAgree tags m) {chunk : Nat}
    (hc : chunk % 33554432 = 0) (hnew : ∀ {b t}, m b = some t → get b ≠ chunk) :
    ((tags.vmAllocate chunk).init P chunk).2 = ⟨chunk + 65536, 16711680⟩ ∧
      TagsAgree ((tags.vmAllocate chunk).init P chunk).1
        (Function.update m (chunk + 65536) (some ⟨16711680, .free⟩)) := by
  have hg : get (chunk + 65536) = chunk := by
    unfold LargeChunk.get roundDown largeChunkSize superChunkSize
    omega
  have hF : LargeChunk.beginTag (chunk + 65536) = ⟨chunk, 63⟩ := by
    rw [beginTag_eq hg, show chunk + 65536 - chunk = 65536 by omega]
  have hE : LargeChunk.endTag (chunk + 65536) 16711680 = ⟨chunk, 16382⟩ := by
    rw [endTag_eq hg, show chunk + 65536 + 16711680 - 1024 - chunk = 16776192 by omega]
  generalize htags : ((tags.vmAllocate chunk).init P chunk).1 = tags'
  have hrange : LargeChunk.begin P chunk = chunk + 65536 := by simp [LargeChunk.begin]
  have hsize : LargeChunk.stop chunk - (chunk + 65536) = 16711680 := by
    simp only [LargeChunk.stop, largeChunkSize, superChunkSize]
    omega
  have heval : ∀ a, tags' a =
      if a = ⟨chunk, 16383⟩ then ⟨false, false, false, 1024⟩
      else if a = ⟨chunk, 62⟩ then ⟨false, false, false, 1024⟩
      else if a = ⟨chunk, 16382⟩ then ⟨true, true, false, 16711680⟩
      else if a = ⟨chunk, 63⟩ then ⟨true, false, false, 16711680⟩
      else if a.chunk = chunk then .null else tags a := fun a => by
    rw [← htags]
    simp [Tags.init, hrange, hsize, hF, hE, TagAddress.prev, TagAddress.next, modify_apply, set_apply, Tags.vmAllocate,
      BoundaryTag.setSize, BoundaryTag.setFree, BoundaryTag.setEnd, BoundaryTag.setHasPhysicalPages, BoundaryTag.null,
      BoundaryTag.sizeBits, largeMin]
  have hout : ∀ a : TagAddress, a.chunk ≠ chunk → tags' a = tags a := fun a h => by
    have : ∀ n, a ≠ ⟨chunk, n⟩ := fun n e => h (by rw [e])
    simp [heval, this, h]
  have hold : ∀ {b t}, Function.update m (chunk + 65536) (some ⟨16711680, .free⟩) b = some t →
      (b = chunk + 65536 ∧ t = ⟨16711680, .free⟩) ∨ (m b = some t ∧ get b ≠ chunk) := fun {b t} h => by
    rw [Function.update_apply] at h
    split at h
    · exact .inl ⟨‹_›, (Option.some.inj h).symm⟩
    · exact .inr ⟨h, hnew h⟩
  refine ⟨by simp [Tags.init, hrange, hsize], ?_⟩
  refine ⟨fun {b t} hb => ?_, fun {b t} hb => ?_, fun {b t} hb => ?_, fun {a} hf => ?_⟩
  · obtain ⟨rfl, rfl⟩ | ⟨hb, -⟩ := hold hb
    · exact ⟨by omega, by simp only; omega⟩
    · exact ha.inside hb
  · obtain ⟨rfl, rfl⟩ | ⟨hb, hne⟩ := hold hb
    · simp only [hF, heval]
      exact ⟨⟨by simp, by simp⟩, by simp⟩
    · rw [hout (LargeChunk.beginTag b) hne]
      exact ha.beginTag hb
  · obtain ⟨rfl, rfl⟩ | ⟨hb, hne⟩ := hold hb
    · simp only [hF, hE, heval]
      exact ⟨⟨by simp, by simp⟩, by simp⟩
    · rw [hout (LargeChunk.endTag b t.size) hne]
      exact ha.endTag hb
  · by_cases hac : a.chunk = chunk
    · refine ⟨chunk + 65536, ⟨16711680, .free⟩, Function.update_self .., rfl, ?_⟩
      simp only [hF, hE]
      by_contra hnot
      obtain ⟨h₁, h₂⟩ := not_or.1 hnot
      rw [heval] at hf
      simp only [h₁, h₂, hac, if_true, if_false] at hf
      split at hf
      · cases hf
      · split at hf <;> cases hf
    · rw [hout a hac] at hf
      obtain ⟨b, t, hb, hk, hat⟩ := ha.onlyFree hf
      refine ⟨b, t, ?_, hk, hat⟩
      rw [Function.update_of_ne, hb]
      intro e
      exact hnew hb (e ▸ hg)

end WebKit.Bmalloc
