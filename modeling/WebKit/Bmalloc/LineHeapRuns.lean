import WebKit.Bmalloc.LineHeapInv
import WebKit.Lib.Run

/-!
# Runs of the line lists

The operations on `Heap` that move lines and pages, in any order: lines are allocated for any size class, outstanding
lines are given back, and the scavenger moves pages, with the lock released in between. `LineState.step` keeps with the
heap the outstanding lines. No run hands out an outstanding line (`line_lists_safe`).
-/

namespace WebKit.Bmalloc

open Transition

/-- The heap with the lines that are out. -/
structure LineState where
  heap : Heap
  smallOut : List Line
  mediumOut : List Line

def LineState.init : LineState := ⟨.init, [], []⟩

/-- The operations; `fresh` is the address of the chunk that `vmAllocate` returns if one is needed. -/
inductive LineOp
  | allocateSmallLine (smallSizeClass fresh : Nat)
  | deallocateSmallLine (line : Line)
  | allocateMediumLine (fresh : Nat)
  | deallocateMediumLine (line : Line)
  | scavengeSmallPages
  | scavengeMediumPages
  | releaseSmallPage (page : Page)
  | releaseMediumPage (page : Page)
  deriving Repr

/-- One operation. It is possible when the size class is one of `m_smallLines`, a new chunk is at a new address, a line
given back is outstanding, and a page is released that the scavenger holds. -/
def LineState.step (P : Platform) (s : LineState) : LineOp → Option LineState
  | .allocateSmallLine c fresh =>
    if c < smallSizeClasses ∧ fresh ∉ s.heap.small.chunks then
      (s.heap.allocateSmallLine P c fresh).map fun (line, heap) =>
        { s with heap := heap, smallOut := line :: s.smallOut }
    else none
  | .deallocateSmallLine line =>
    if line ∈ s.smallOut then
      some { s with heap := s.heap.deallocateSmallLine P line, smallOut := s.smallOut.erase line }
    else none
  | .allocateMediumLine fresh =>
    if fresh ∉ s.heap.medium.chunks then
      (s.heap.allocateMediumLine P fresh).map fun (line, heap) =>
        { s with heap := heap, mediumOut := line :: s.mediumOut }
    else none
  | .deallocateMediumLine line =>
    if line ∈ s.mediumOut then
      some { s with heap := s.heap.deallocateMediumLine P line, mediumOut := s.mediumOut.erase line }
    else none
  | .scavengeSmallPages => some { s with heap := s.heap.scavengeSmallPages }
  | .scavengeMediumPages => some { s with heap := s.heap.scavengeMediumPages }
  | .releaseSmallPage page =>
    if page ∈ s.heap.small.releasing then some { s with heap := s.heap.releaseSmallPage page } else none
  | .releaseMediumPage page =>
    if page ∈ s.heap.medium.releasing then some { s with heap := s.heap.releaseMediumPage page } else none

/-! ## The two kinds of line -/

section Kinds

variable {P : Platform} {h : LineHeap} {out : List Line}

theorem allocateSmallLine_inv (hi : LineInv smallTraits P h out) {c fresh : Nat} (hf : fresh ∉ h.chunks) {line : Line}
    {slow : Bool} {h' : LineHeap} (ha : h.allocateSmallLine P c fresh = some (line, slow, h')) :
    LineInv smallTraits P h' (line :: out) ∧ line ∉ out := by
  have := allocateLine_inv (smallTraits_fits P) hi (by simp) (fun l hs => by simpa using hs) hf ha
  exact ⟨this.1, this.2.1⟩

/-- Medium pages have no size class: the field keeps the `0` of fresh memory. -/
structure MediumInv (P : Platform) (h : LineHeap) (out : List Line) : Prop where
  inv : LineInv mediumTraits P h out
  noClass : ∀ page, h.smallSizeClass page = 0

theorem allocateMediumLine_inv (hi : MediumInv P h out) {fresh : Nat} (hf : fresh ∉ h.chunks) {line : Line}
    {slow : Bool} {h' : LineHeap} (ha : h.allocateMediumLine P fresh = some (line, slow, h')) :
    MediumInv P h' (line :: out) ∧ line ∉ out := by
  obtain ⟨h₁, h₂, h₃⟩ := allocateLine_inv (mediumTraits_fits P) hi.inv (fun _ => hi.noClass)
    (fun l hs => ⟨by simpa using hs, hi.noClass _⟩) hf ha
  exact ⟨⟨h₁, h₃ rfl⟩, h₂⟩

theorem deallocateMediumLine_inv (hi : MediumInv P h out) {line : Line} (hm : line ∈ out) :
    MediumInv P (h.deallocateMediumLine P line) (out.erase line) := by
  have := deallocateLine_inv (mediumTraits_fits P) hi.inv hm
  rw [hi.noClass] at this
  refine ⟨this, fun page => ?_⟩
  unfold LineHeap.deallocateMediumLine LineHeap.deallocateLine
  simp only
  split
  · exact hi.noClass page
  · exact hi.noClass page

theorem scavengePage_mediumInv (hi : MediumInv P h out) : MediumInv P h.scavengePage out := by
  refine ⟨scavengePage_inv hi.inv, fun page => ?_⟩
  unfold LineHeap.scavengePage
  split
  · exact hi.noClass page
  · exact hi.noClass page

end Kinds

/-! ## Runs -/

/-- The invariant of both kinds. -/
structure HeapInv (P : Platform) (s : LineState) : Prop where
  small : LineInv smallTraits P s.heap.small s.smallOut
  medium : MediumInv P s.heap.medium s.mediumOut

theorem heapInv_init (P : Platform) : HeapInv P .init := ⟨lineInv_init _ _, lineInv_init _ _, fun _ => rfl⟩

variable {P : Platform}

theorem step_heapInv {s t : LineState} {op : LineOp} (hi : HeapInv P s) (h : s.step P op = some t) : HeapInv P t := by
  obtain ⟨hs, hm⟩ := hi
  cases op with
  | allocateSmallLine c fresh =>
    obtain ⟨⟨_, hf⟩, h⟩ := Option.ite_none_right_eq_some.1 h
    obtain ⟨⟨line, heap⟩, ha, rfl⟩ := Option.map_eq_some_iff.1 h
    obtain ⟨⟨l, slow, small⟩, ha', he⟩ := Option.map_eq_some_iff.1 ha
    cases he
    exact ⟨(allocateSmallLine_inv hs hf ha').1, hm⟩
  | deallocateSmallLine line =>
    obtain ⟨hl, h⟩ := Option.ite_none_right_eq_some.1 h
    cases h
    exact ⟨deallocateLine_inv (smallTraits_fits P) hs hl, hm⟩
  | allocateMediumLine fresh =>
    obtain ⟨hf, h⟩ := Option.ite_none_right_eq_some.1 h
    obtain ⟨⟨line, heap⟩, ha, rfl⟩ := Option.map_eq_some_iff.1 h
    obtain ⟨⟨l, slow, medium⟩, ha', he⟩ := Option.map_eq_some_iff.1 ha
    cases he
    exact ⟨hs, (allocateMediumLine_inv hm hf ha').1⟩
  | deallocateMediumLine line =>
    obtain ⟨hl, h⟩ := Option.ite_none_right_eq_some.1 h
    cases h
    exact ⟨hs, deallocateMediumLine_inv hm hl⟩
  | scavengeSmallPages =>
    cases h
    unfold Heap.scavengeSmallPages
    split
    · exact ⟨hs, hm⟩
    · exact ⟨scavengePage_inv hs, hm⟩
  | scavengeMediumPages =>
    cases h
    unfold Heap.scavengeMediumPages
    split
    · exact ⟨hs, hm⟩
    · exact ⟨hs, scavengePage_mediumInv hm⟩
  | releaseSmallPage page =>
    obtain ⟨hp, h⟩ := Option.ite_none_right_eq_some.1 h
    cases h
    exact ⟨releasePage_inv hs hp, hm⟩
  | releaseMediumPage page =>
    obtain ⟨hp, h⟩ := Option.ite_none_right_eq_some.1 h
    cases h
    exact ⟨hs, releasePage_inv hm.inv hp, hm.noClass⟩

theorem run_heapInv {s t : LineState} {ops : List LineOp} (hi : HeapInv P s) (h : Run (Via (LineState.step P)) s ops t) :
    HeapInv P t := h.invariant (fun _ _ _ hi h => step_heapInv hi h) hi

/-- The three properties of the lists of one kind: what is handed out was not outstanding, a page's reference count is
the number of its outstanding lines, and listed pages have the count `0`. -/
structure ListsSafe (T : Traits) (P : Platform) (h : LineHeap) (out : List Line)
    (allocate : Nat → Option (Line × Heap)) : Prop where
  fresh_line : ∀ fresh line heap, fresh ∉ h.chunks → allocate fresh = some (line, heap) → line ∉ out
  refCount : ∀ page, h.refCount page = (out.filter fun line => Page.get T P line = page).length
  listed : ∀ page, page ∈ h.pages ∨ page ∈ h.vmPages → h.refCount page = 0

/-- **The line lists are safe in every run**, for the lines of every size class and for the medium lines. -/
theorem line_lists_safe {ops : List LineOp} {s : LineState} (h : Run (Via (LineState.step P)) .init ops s) :
    (∀ c < smallSizeClasses, ListsSafe smallTraits P s.heap.small s.smallOut (s.heap.allocateSmallLine P c)) ∧
      ListsSafe mediumTraits P s.heap.medium s.mediumOut (s.heap.allocateMediumLine P) ∧
      s.smallOut.Nodup ∧ s.mediumOut.Nodup := by
  obtain ⟨hs, hm⟩ := run_heapInv (heapInv_init P) h
  refine ⟨fun c _ => ⟨fun fresh line heap hf ha => ?_, fun page => ?_, fun page hp => ?_⟩,
    ⟨fun fresh line heap hf ha => ?_, fun page => ?_, fun page hp => ?_⟩, hs.nodup, hm.inv.nodup⟩
  · obtain ⟨⟨l, slow, small⟩, ha', he⟩ := Option.map_eq_some_iff.1 ha
    cases he
    exact (allocateSmallLine_inv hs hf ha').2
  · rw [hs.count, List.countP_eq_length_filter]
  · exact hs.refCount_eq_zero (hp.imp_right Or.inl)
  · obtain ⟨⟨l, slow, medium⟩, ha', he⟩ := Option.map_eq_some_iff.1 ha
    cases he
    exact (allocateMediumLine_inv hm hf ha').2
  · rw [hm.inv.count, List.countP_eq_length_filter]
  · exact hm.inv.refCount_eq_zero (hp.imp_right Or.inl)

/-- A page of class `0` is promoted with seven stale entries and reused for class `1`. -/
theorem line_lists_safe_promoted :
    let ops := [LineOp.allocateSmallLine 0 0, .deallocateSmallLine ⟨0, 2047 * 8⟩, .allocateSmallLine 1 1]
    ∃ s, runFn (LineState.step .other) .init ops = some s ∧ (s.heap.small.lines 0).length = 7 ∧
      s.smallOut = [⟨0, 2047 * 8⟩] ∧ s.smallOut.Nodup := by
  intro ops
  have hr : (runFn (LineState.step .other) .init ops).map (fun s => ((s.heap.small.lines 0).length, s.smallOut)) =
      some (7, [⟨0, 2047 * 8⟩]) := by decide +kernel
  obtain ⟨s, hs, he⟩ := Option.map_eq_some_iff.1 hr
  obtain ⟨hn, ho⟩ := Prod.ext_iff.1 he
  exact ⟨s, hs, hn, ho, (line_lists_safe (run_of_runFn hs)).2.2.1⟩

end WebKit.Bmalloc
