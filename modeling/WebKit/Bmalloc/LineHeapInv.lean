import Mathlib.Data.List.Count
import Mathlib.Data.List.Nodup
import WebKit.Bmalloc.LineHeap

/-!
# The invariant of the line lists

`LineInv h out`: `out` are the outstanding lines, those handed out and not yet given back. A page's reference count is
the number of its outstanding lines; a page is on at most one page list, and on none while its count is not zero; and for
a page in use, each of its lines occurs at most once among the outstanding lines and the entries of the list *of the
page's current size class*. Nothing is said of the entries of other lists or of pages that are not in use: these are the
stale entries. A page gets a new class only in the slow case of that class, which runs when the list of the class is
empty (`popLine_none`), so an old entry never becomes valid again.
-/

namespace WebKit.Bmalloc

open LineHeap

/-- How often a page is on a page list. -/
def LineHeap.listed (h : LineHeap) (page : Page) : Nat :=
  h.pages.count page + h.vmPages.count page + h.releasing.count page

/-- The invariant of the line lists, for the outstanding lines `out`. -/
structure LineInv (T : Traits) (P : Platform) (h : LineHeap) (out : List Line) : Prop where
  count : ∀ page, h.refCount page = out.countP fun line => Page.get T P line = page
  entries : ∀ line, h.refCount (Page.get T P line) ≠ 0 →
    (h.lines (h.smallSizeClass (Page.get T P line))).count line + out.count line ≤ 1
  unused : ∀ page, h.refCount page ≠ 0 → h.listed page = 0
  listed : ∀ page, h.listed page ≤ 1
  chunk_out : ∀ line ∈ out, line.chunk ∈ h.chunks
  chunk_free : ∀ page, page ∈ h.pages ∨ page ∈ h.vmPages ∨ page ∈ h.releasing → page.chunk ∈ h.chunks

theorem lineInv_init (T : Traits) (P : Platform) : LineInv T P .init [] := by
  constructor <;> simp [LineHeap.init, LineHeap.listed]

section Inv

variable {T : Traits} {P : Platform} {h : LineHeap} {out : List Line}

/-! ## What the invariant says -/

theorem LineInv.refCount_ne_zero (hi : LineInv T P h out) {line : Line} (hl : line ∈ out) :
    h.refCount (Page.get T P line) ≠ 0 := by
  rw [hi.count]
  have : 0 < out.countP fun l => decide (Page.get T P l = Page.get T P line) :=
    List.countP_pos_iff.2 ⟨line, hl, by simp⟩
  omega

theorem LineInv.count_le (hi : LineInv T P h out) (line : Line) : out.count line ≤ 1 := by
  by_cases hl : line ∈ out
  · have := hi.entries line (hi.refCount_ne_zero hl)
    omega
  · rw [List.count_eq_zero_of_not_mem hl]
    omega

theorem LineInv.nodup (hi : LineInv T P h out) : out.Nodup := List.nodup_iff_count_le_one.2 hi.count_le

/-- The `unsigned char` of a page never overflows. -/
theorem LineInv.refCount_le (hT : T.Fits P) (hi : LineInv T P h out) (page : Page) :
    h.refCount page ≤ linesPerPage T P := by
  rw [hi.count, List.countP_eq_length_filter]
  have hpage : ∀ line ∈ out.filter fun line => decide (Page.get T P line = page), Page.get T P line = page :=
    fun line hl => by simpa using (List.mem_filter.1 hl).2
  exact length_le_of_page hT (hi.nodup.filter _) hpage

theorem LineInv.refCount_eq_zero (hi : LineInv T P h out) {page : Page}
    (hp : page ∈ h.pages ∨ page ∈ h.vmPages ∨ page ∈ h.releasing) : h.refCount page = 0 := by
  by_contra hz
  have hl := hi.unused page hz
  unfold LineHeap.listed at hl
  rcases hp with hp | hp | hp
  all_goals
    have := List.count_pos_iff.2 hp
    omega

theorem LineInv.not_mem_out (hi : LineInv T P h out) {line : Line} (hz : h.refCount (Page.get T P line) = 0) :
    line ∉ out := fun hl => hi.refCount_ne_zero hl hz

theorem popLine_some {stale : Line → Bool} {line : Line} {rest : List Line} : ∀ {ls : List Line},
    popLine stale ls = (some line, rest) →
      stale line = false ∧ line ∈ ls ∧ ∀ l, (line :: rest).count l ≤ ls.count l
  | [], h => by cases h
  | l₀ :: ls, h => by
    unfold popLine at h
    split at h
    · obtain ⟨h₁, h₂, h₃⟩ := popLine_some h
      exact ⟨h₁, List.mem_cons_of_mem _ h₂, fun l => Nat.le_trans (h₃ l) (List.count_le_count_cons ..)⟩
    · rename_i hs
      cases h
      exact ⟨by simpa using hs, List.mem_cons_self, fun l => Nat.le_refl _⟩

/-- **The slow case starts with an empty list.** -/
theorem popLine_none {stale : Line → Bool} {rest : List Line} : ∀ {ls : List Line},
    popLine stale ls = (none, rest) → rest = []
  | [], h => by cases h; rfl
  | _ :: _, h => by
    unfold popLine at h
    split at h
    · exact popLine_none h
    · cases h

/-! ## Allocation -/

theorem LineInv.setLines (hi : LineInv T P h out) {c : Nat} {rest : List Line}
    (hr : ∀ l, rest.count l ≤ (h.lines c).count l) : LineInv T P (h.setLines c rest) out where
  count := hi.count
  entries line hz := by
    have := hi.entries line hz
    simp only [LineHeap.setLines, Function.update_apply]
    split
    · rename_i hc
      have := hr line
      rw [← hc] at this
      omega
    · exact this
  unused := hi.unused
  listed := hi.listed
  chunk_out := hi.chunk_out
  chunk_free := hi.chunk_free

theorem LineInv.ref (hT : T.Fits P) (hi : LineInv T P h out) {line : Line} (hout : line ∉ out)
    (hent : line ∉ h.lines (h.smallSizeClass (Page.get T P line)))
    (hfree : h.listed (Page.get T P line) = 0) (hchunk : line.chunk ∈ h.chunks)
    (hdup : ∀ l, Page.get T P l = Page.get T P line →
      (h.lines (h.smallSizeClass (Page.get T P l))).count l + out.count l ≤ 1) :
    LineInv T P (h.ref (Page.get T P line)) (line :: out) where
  count page := by
    have hle := hi.refCount_le hT (Page.get T P line)
    have hlt := hT.lines_lt
    have hc := hi.count page
    simp only [LineHeap.ref, Function.update_apply, List.countP_cons, decide_eq_true_eq]
    unfold maxRefCount at hlt
    by_cases hp : page = Page.get T P line
    · subst hp
      rw [if_pos rfl, if_pos rfl, ← hc]
      omega
    · rw [if_neg hp, if_neg (Ne.symm hp), hc, Nat.add_zero]
  entries l hz := by
    simp only [LineHeap.ref, List.count_cons, beq_iff_eq] at hz ⊢
    split
    · rename_i he
      subst he
      have h₁ := List.count_eq_zero_of_not_mem hout
      have h₂ := List.count_eq_zero_of_not_mem hent
      omega
    · by_cases hp : Page.get T P l = Page.get T P line
      · exact hdup l hp
      · rw [Function.update_of_ne hp] at hz
        exact hi.entries l hz
  unused page hz := by
    by_cases hp : page = Page.get T P line
    · rw [hp]
      exact hfree
    · simp only [LineHeap.ref, Function.update_of_ne hp] at hz
      exact hi.unused page hz
  listed := hi.listed
  chunk_out l hl := by
    rcases List.mem_cons.1 hl with rfl | hl
    · exact hchunk
    · exact hi.chunk_out l hl
  chunk_free := hi.chunk_free

theorem LineInv.allocateChunk (hi : LineInv T P h out) {fresh : Nat} (hf : fresh ∉ h.chunks) :
    LineInv T P (h.allocateChunk T P fresh) out where
  count := hi.count
  entries := hi.entries
  unused page hz := by
    have hl := hi.unused page hz
    have hp : page ∉ chunkPages T P fresh := fun hp => by
      refine hz ?_
      simp only [LineHeap.allocateChunk]
      rw [hi.count]
      refine List.countP_eq_zero.2 fun line hl hg => hf ?_
      have hg : Page.get T P line = page := by simpa using hg
      rw [← chunk_of_mem_chunkPages hp, ← hg]
      exact hi.chunk_out line hl
    simp only [LineHeap.listed, LineHeap.allocateChunk, List.count_append, List.count_reverse] at hl ⊢
    rw [List.count_eq_zero_of_not_mem hp]
    omega
  listed page := by
    have hl := hi.listed page
    simp only [LineHeap.listed, LineHeap.allocateChunk, List.count_append, List.count_reverse] at hl ⊢
    by_cases hp : page ∈ chunkPages T P fresh
    · have hc := chunk_of_mem_chunkPages hp
      have hnf : ∀ ls : List Page, (page ∈ ls → page.chunk ∈ h.chunks) → ls.count page = 0 := fun ls hls =>
        List.count_eq_zero_of_not_mem fun hm => hf (hc ▸ hls hm)
      have h₁ := hnf h.pages fun hm => hi.chunk_free page (Or.inl hm)
      have h₂ := hnf h.vmPages fun hm => hi.chunk_free page (Or.inr (Or.inl hm))
      have h₃ := hnf h.releasing fun hm => hi.chunk_free page (Or.inr (Or.inr hm))
      have h₄ := List.nodup_iff_count_le_one.1 (chunkPages_nodup (T := T) (P := P) fresh) page
      omega
    · rw [List.count_eq_zero_of_not_mem hp]
      omega
  chunk_out line hl := List.mem_cons_of_mem _ (hi.chunk_out line hl)
  chunk_free page hp := by
    simp only [LineHeap.allocateChunk, List.mem_append, List.mem_reverse] at hp ⊢
    rcases hp with hp | (hp | hp) | hp
    · exact List.mem_cons_of_mem _ (hi.chunk_free page (Or.inl hp))
    · rw [chunk_of_mem_chunkPages hp]; exact List.mem_cons_self
    · exact List.mem_cons_of_mem _ (hi.chunk_free page (Or.inr (Or.inl hp)))
    · exact List.mem_cons_of_mem _ (hi.chunk_free page (Or.inr (Or.inr hp)))

/-- What popping a page gives: the invariant, with the page on no list. -/
structure Popped (T : Traits) (P : Platform) (h h' : LineHeap) (out : List Line) (page : Page) : Prop where
  inv : LineInv T P h' out
  unlisted : h'.listed page = 0
  unused : h'.refCount page = 0
  chunk : page.chunk ∈ h'.chunks
  lines : h'.lines = h.lines
  classes : h'.smallSizeClass = h.smallSizeClass

theorem allocatePage_popped (hi : LineInv T P h out) {fresh : Nat} (hf : fresh ∉ h.chunks) {page : Page}
    {h' : LineHeap} (hp : h.allocatePage T P fresh = some (page, h')) : Popped T P h h' out page := by
  unfold allocatePage at hp
  generalize hg : (if h.vmPages = [] then h.allocateChunk T P fresh else h) = h₁ at hp
  obtain ⟨hi₁, hl, hc⟩ : LineInv T P h₁ out ∧ h₁.lines = h.lines ∧ h₁.smallSizeClass = h.smallSizeClass := by
    rw [← hg]
    split
    · exact ⟨hi.allocateChunk hf, rfl, rfl⟩
    · exact ⟨hi, rfl, rfl⟩
  simp only at hp
  split at hp
  · cases hp
  · rename_i rest hvm
    cases hp
    have hz : h₁.refCount page = 0 := hi₁.refCount_eq_zero (Or.inr (Or.inl (by rw [hvm]; exact List.mem_cons_self)))
    have hle : ∀ p, LineHeap.listed { h₁ with vmPages := rest } p + (if page = p then 1 else 0) = h₁.listed p := by
      intro p
      simp only [LineHeap.listed, hvm, List.count_cons, beq_iff_eq]
      omega
    have hself := hle page
    have hone := hi₁.listed page
    rw [if_pos rfl] at hself
    refine ⟨⟨hi₁.count, hi₁.entries, fun p hp => ?_, fun p => ?_, hi₁.chunk_out, fun p hp => hi₁.chunk_free p ?_⟩, ?_, hz,
      hi₁.chunk_free page ?_, hl, hc⟩
    · have := hi₁.unused p hp
      have := hle p
      omega
    · have := hi₁.listed p
      have := hle p
      omega
    · rw [hvm]
      exact hp.imp_right (Or.imp_left (List.mem_cons_of_mem _))
    · omega
    · rw [hvm]
      exact Or.inr (Or.inl List.mem_cons_self)

theorem popPage_popped (hi : LineInv T P h out) {fresh : Nat} (hf : fresh ∉ h.chunks) {page : Page}
    {h' : LineHeap} (hp : h.popPage T P fresh = some (page, h')) : Popped T P h h' out page := by
  unfold popPage at hp
  split at hp
  · rename_i rest hpages
    cases hp
    have hz : h.refCount page = 0 := hi.refCount_eq_zero (Or.inl (by rw [hpages]; exact List.mem_cons_self))
    have hle : ∀ p, LineHeap.listed { h with pages := rest } p + (if page = p then 1 else 0) = h.listed p := by
      intro p
      simp only [LineHeap.listed, hpages, List.count_cons, beq_iff_eq]
      omega
    have hself := hle page
    have hone := hi.listed page
    rw [if_pos rfl] at hself
    refine ⟨⟨hi.count, hi.entries, fun p hp => ?_, fun p => ?_, hi.chunk_out, fun p hp => hi.chunk_free p ?_⟩, ?_, hz,
      hi.chunk_free page ?_, rfl, rfl⟩
    · have := hi.unused p hp
      have := hle p
      omega
    · have := hi.listed p
      have := hle p
      omega
    · rw [hpages]
      exact hp.imp_left (List.mem_cons_of_mem _)
    · omega
    · rw [hpages]
      exact Or.inl List.mem_cons_self
  · exact allocatePage_popped hi hf hp

theorem LineInv.fill (hT : T.Fits P) (hi : LineInv T P h out) {page : Page} {c : Nat} (hz : h.refCount page = 0) :
    LineInv T P ((h.setLines c (page.tail T P).reverse).setSmallSizeClass page c) out where
  count := hi.count
  entries line hl := by
    have hne : Page.get T P line ≠ page := by rintro rfl; exact hl hz
    have := hi.entries line hl
    simp only [LineHeap.setLines, setSmallSizeClass, Function.update_of_ne hne, Function.update_apply]
    split
    · rename_i he
      have hnm : line ∉ (page.tail T P).reverse := fun hm =>
        hne (page_get_of_mem_tail hT (List.mem_reverse.1 hm))
      rw [List.count_eq_zero_of_not_mem hnm]
      omega
    · exact this
  unused := hi.unused
  listed := hi.listed
  chunk_out := hi.chunk_out
  chunk_free := hi.chunk_free

theorem slowCase_inv (hT : T.Fits P) (hi : LineInv T P h out) {cls : Option Nat} {fresh : Nat}
    (hcls : cls = none → ∀ page, h.smallSizeClass page = 0) (hempty : h.lines (cls.getD 0) = [])
    (hf : fresh ∉ h.chunks) {line : Line} {h' : LineHeap}
    (ha : h.allocateLineSlowCase T P cls fresh = some (line, h')) :
    LineInv T P h' (line :: out) ∧ line ∉ out ∧ (cls = none → ∀ page, h'.smallSizeClass page = 0) := by
  obtain ⟨⟨page, h₁⟩, hpop, ha⟩ := Option.map_eq_some_iff.1 ha
  have hp := popPage_popped hi hf hpop
  have hfill := hp.inv.fill hT (c := cls.getD 0) hp.unused
  -- for the medium lines, where no class is set, setting class `0` changes nothing
  have hset : ((h₁.setLines (cls.getD 0) (page.tail T P).reverse).setSmallSizeClass page (cls.getD 0)).ref page = h' ∧
      page.begin T P = line := by
    simp only [hp.lines, hempty, List.append_nil, Prod.mk.injEq] at ha
    obtain ⟨rfl, rfl⟩ := ha
    refine ⟨?_, rfl⟩
    cases cls with
    | some c => rfl
    | none =>
      have : Function.update h₁.smallSizeClass page 0 = h₁.smallSizeClass := by
        rw [hp.classes]
        exact Function.update_eq_self_iff.2 (hcls rfl page).symm
      simp only [setSmallSizeClass, LineHeap.setLines, Option.getD_none, this]
  obtain ⟨rfl, rfl⟩ := hset
  have hget := page_get_begin (T := T) (P := P) hT page
  have hnone : ∀ l, Page.get T P l = page → out.count l = 0 := fun l hl =>
    List.count_eq_zero_of_not_mem (hp.inv.not_mem_out (by rw [hl]; exact hp.unused))
  have hnout : page.begin T P ∉ out := fun hm => by
    have := hnone _ hget
    exact absurd (List.count_pos_iff.2 hm) (by omega)
  refine ⟨?_, hnout, fun hn p => ?_⟩
  · have := hfill.ref hT hnout ?_ ?_ ?_ ?_
    · rwa [hget] at this
    · rw [hget]
      simp only [setSmallSizeClass, LineHeap.setLines, Function.update_self, List.mem_reverse]
      exact page_begin_not_mem_tail
    · rw [hget]
      exact hp.unlisted
    · rw [page_begin_eq hT]
      exact hp.chunk
    · intro l hl
      rw [hget] at hl
      rw [hl, hnone l hl]
      simp only [setSmallSizeClass, LineHeap.setLines, Function.update_self, List.count_reverse]
      exact List.nodup_iff_count_le_one.1 page_tail_nodup l
  · have h₀ := hcls hn p
    subst hn
    simp only [LineHeap.ref, setSmallSizeClass, LineHeap.setLines, Option.getD_none, Function.update_apply, hp.classes]
    split
    · rfl
    · exact h₀

/-- **Allocation**: the line was not outstanding, and the invariant holds with it outstanding. -/
theorem allocateLine_inv (hT : T.Fits P) (hi : LineInv T P h out) {stale : Line → Bool} {cls : Option Nat} {fresh : Nat}
    (hcls : cls = none → ∀ page, h.smallSizeClass page = 0)
    (hstale : ∀ line, stale line = false →
      h.refCount (Page.get T P line) ≠ 0 ∧ h.smallSizeClass (Page.get T P line) = cls.getD 0)
    (hf : fresh ∉ h.chunks) {line : Line} {slow : Bool} {h' : LineHeap}
    (ha : h.allocateLine T P stale cls fresh = some (line, slow, h')) :
    LineInv T P h' (line :: out) ∧ line ∉ out ∧ (cls = none → ∀ page, h'.smallSizeClass page = 0) := by
  unfold allocateLine at ha
  split at ha
  · rename_i l rest hpop
    cases ha
    obtain ⟨hs, hm, hcount⟩ := popLine_some hpop
    obtain ⟨hz, hc⟩ := hstale line hs
    have hself := hcount line
    rw [List.count_cons_self] at hself
    have hent := hi.entries line hz
    rw [hc] at hent
    have hnout : line ∉ out := fun hm => by
      have := List.count_pos_iff.2 hm
      omega
    have hi' : LineInv T P (h.setLines (cls.getD 0) rest) out := hi.setLines fun l => by
      have := hcount l
      exact Nat.le_trans (List.count_le_count_cons ..) this
    refine ⟨hi'.ref hT hnout ?_ ?_ ?_ fun l hl => ?_, hnout, fun hn => hcls hn⟩
    · simp only [LineHeap.setLines, hc, Function.update_self]
      exact fun hm => by
        have := List.count_pos_iff.2 hm
        omega
    · exact hi.unused _ hz
    · have : 0 < h.refCount (Page.get T P line) := by omega
      rw [hi.count] at this
      obtain ⟨l, hl, hg⟩ := List.countP_pos_iff.1 this
      have hg : Page.get T P l = Page.get T P line := by simpa using hg
      have hch := congrArg Page.chunk hg
      simp only [Page.get] at hch
      rw [← hch]
      exact hi.chunk_out l hl
    · have := hi'.entries l (by rw [hl]; exact hz)
      exact this
  · rename_i rest hpop
    obtain ⟨⟨l, h₁⟩, hslow, he⟩ := Option.map_eq_some_iff.1 ha
    cases he
    have hr := popLine_none hpop
    subst hr
    have hi' : LineInv T P (h.setLines (cls.getD 0) []) out := hi.setLines (by simp)
    exact slowCase_inv hT hi' hcls (by simp [LineHeap.setLines]) hf hslow

/-! ## Deallocation and scavenging -/

theorem count_erase_add {l : Line} {line : Line} {out : List Line} (hm : line ∈ out) :
    (out.erase line).count l + (if line = l then 1 else 0) = out.count l := by
  rw [List.count_erase]
  have := List.count_pos_iff.2 hm
  by_cases he : line = l
  · subst he; simp; omega
  · simp [he]

/-- **Deallocation** of an outstanding line, to the list of its page's class. -/
theorem deallocateLine_inv (hT : T.Fits P) (hi : LineInv T P h out) {line : Line} (hm : line ∈ out) :
    LineInv T P (h.deallocateLine T P line (h.smallSizeClass (Page.get T P line))) (out.erase line) := by
  have hne := hi.refCount_ne_zero hm
  have hle := hi.refCount_le hT (Page.get T P line)
  have hlt := hT.lines_lt
  unfold maxRefCount at hlt
  have hcount : ∀ page, (h.deref (Page.get T P line)).refCount page =
      (out.erase line).countP fun l => decide (Page.get T P l = page) := by
    intro page
    have hc := hi.count page
    have hperm := (List.perm_cons_erase hm).countP_eq fun l => decide (Page.get T P l = page)
    rw [List.countP_cons] at hperm
    simp only [deref, Function.update_apply]
    by_cases hp : page = Page.get T P line
    · subst hp
      simp only [decide_true, if_true] at hperm ⊢
      omega
    · have : Page.get T P line ≠ page := Ne.symm hp
      simp only [this, decide_false, Bool.false_eq_true, if_false] at hperm
      rw [if_neg hp]
      omega
  have hother : ∀ page, page ≠ Page.get T P line →
      (h.deref (Page.get T P line)).refCount page = h.refCount page := fun page hp => by
    simp only [deref, Function.update_of_ne hp]
  have hfree := hi.unused (Page.get T P line) hne
  have hout : ∀ l ∈ out.erase line, l.chunk ∈ h.chunks := fun l hl => hi.chunk_out l (List.mem_of_mem_erase hl)
  have hchunk : (Page.get T P line).chunk ∈ h.chunks := hi.chunk_out line hm
  unfold deallocateLine
  simp only
  split
  · rename_i hz
    have hlisted : ∀ page, LineHeap.listed { h.deref (Page.get T P line) with pages := Page.get T P line :: h.pages } page =
        h.listed page + (if Page.get T P line = page then 1 else 0) := by
      intro page
      simp only [LineHeap.listed, deref, List.count_cons, beq_iff_eq]
      omega
    refine ⟨hcount, fun l hl => ?_, fun page hp => ?_, fun page => ?_, hout, fun page hp => ?_⟩
    · simp only at hl ⊢
      have hp : Page.get T P l ≠ Page.get T P line := fun he => hl (by rw [he]; exact hz)
      rw [hother _ hp] at hl
      have := hi.entries l hl
      have := count_erase_add (l := l) hm
      simp only [deref]
      omega
    · have hne : page ≠ Page.get T P line := fun he => hp (by rw [he]; exact hz)
      have hu := hi.unused page (by rw [← hother page hne]; exact hp)
      have := hlisted page
      rw [if_neg (Ne.symm hne)] at this
      exact this.trans hu
    · refine Nat.le_trans (Nat.le_of_eq (hlisted page)) ?_
      split
      · rename_i he
        rw [← he]
        omega
      · exact hi.listed page
    · simp only [deref, List.mem_cons] at hp ⊢
      rcases hp with (rfl | hp) | hp
      · exact hchunk
      · exact hi.chunk_free page (Or.inl hp)
      · exact hi.chunk_free page (Or.inr hp)
  · refine ⟨hcount, fun l hl => ?_, fun page hz => ?_, hi.listed, hout, hi.chunk_free⟩
    · have hp : h.refCount (Page.get T P l) ≠ 0 := by
        by_cases he : Page.get T P l = Page.get T P line
        · rw [he]; exact hne
        · simp only [LineHeap.setLines] at hl
          rwa [hother _ he] at hl
      have hent := hi.entries l hp
      have her := count_erase_add (l := l) hm
      simp only [LineHeap.setLines, deref, Function.update_apply]
      split
      · rename_i hc
        rw [List.count_cons, ← hc]
        by_cases he : line = l
        · subst he
          simp only [beq_self_eq_true, if_true] at her ⊢
          omega
        · simp only [beq_iff_eq, he, if_false] at her ⊢
          omega
      · omega
    · by_cases hp : page = Page.get T P line
      · rw [hp]
        exact hfree
      · refine hi.unused page ?_
        rw [← hother page hp]
        exact hz

theorem scavengePage_inv (hi : LineInv T P h out) : LineInv T P h.scavengePage out := by
  unfold scavengePage
  split
  · exact hi
  · rename_i page rest hpages
    have hlisted : ∀ p, LineHeap.listed { h with pages := rest, releasing := page :: h.releasing } p = h.listed p := by
      intro p
      simp only [LineHeap.listed, hpages, List.count_cons]
      omega
    refine ⟨hi.count, hi.entries, fun p hp => (hlisted p).trans (hi.unused p hp),
      fun p => Nat.le_trans (Nat.le_of_eq (hlisted p)) (hi.listed p), hi.chunk_out, fun p hp => hi.chunk_free p ?_⟩
    rw [hpages]
    simp only [List.mem_cons] at hp ⊢
    tauto

theorem releasePage_inv (hi : LineInv T P h out) {page : Page} (hm : page ∈ h.releasing) :
    LineInv T P (h.releasePage page) out := by
  have hlisted : ∀ p, (h.releasePage page).listed p = h.listed p := by
    intro p
    have := (List.perm_cons_erase hm).count_eq p
    rw [List.count_cons] at this
    simp only [LineHeap.listed, releasePage, List.count_cons]
    omega
  refine ⟨hi.count, hi.entries, fun p hp => (hlisted p).trans (hi.unused p hp),
    fun p => Nat.le_trans (Nat.le_of_eq (hlisted p)) (hi.listed p), hi.chunk_out, fun p hp => hi.chunk_free p ?_⟩
  simp only [releasePage, List.mem_cons] at hp
  rcases hp with hp | (rfl | hp) | hp
  · exact Or.inl hp
  · exact Or.inr (Or.inr hm)
  · exact Or.inr (Or.inl hp)
  · exact Or.inr (Or.inr (List.mem_of_mem_erase hp))

end Inv

end WebKit.Bmalloc
