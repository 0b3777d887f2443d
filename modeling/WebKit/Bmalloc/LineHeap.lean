import WebKit.Bmalloc.Line

/-!
# The line lists of the heap

The small part of `Heap` and `VMHeap` (`m_smallLines`, `m_smallPages`), and the medium part, which has one line list and
no size classes. A `Vector` used as a stack is a list with the top first. The lock is released while the physical pages
of a scavenged page are given back, so `scavengeSmallPages` takes two steps: the page is popped into `releasing`, and
later pushed to the list of `VMHeap`.
-/

namespace WebKit.Bmalloc

/-- The lines and pages of one kind in `Heap` and `VMHeap`, with the reference count and size class of each page. -/
structure LineHeap where
  /-- `m_smallLines`; `m_mediumLines` is the list of class `0`. -/
  lines : Nat → List Line
  /-- `Heap::m_smallPages`. -/
  pages : List Page
  /-- `VMHeap::m_smallPages`. -/
  vmPages : List Page
  /-- Pages that `deallocateSmallPage` holds while the lock is released. -/
  releasing : List Page
  /-- The chunks created so far. -/
  chunks : List Nat
  refCount : Page → Nat
  smallSizeClass : Page → Nat

namespace LineHeap

def init : LineHeap := ⟨fun _ => [], [], [], [], [], fun _ => 0, fun _ => 0⟩

/-- `Page::ref`; the count is an `unsigned char`. -/
def ref (h : LineHeap) (page : Page) : LineHeap :=
  { h with refCount := Function.update h.refCount page ((h.refCount page + 1) % 256) }

/-- `Page::deref`. -/
def deref (h : LineHeap) (page : Page) : LineHeap :=
  { h with refCount := Function.update h.refCount page ((h.refCount page + 255) % 256) }

def setSmallSizeClass (h : LineHeap) (page : Page) (c : Nat) : LineHeap :=
  { h with smallSizeClass := Function.update h.smallSizeClass page c }

def setLines (h : LineHeap) (c : Nat) (ls : List Line) : LineHeap :=
  { h with lines := Function.update h.lines c ls }

section Functions

variable (T : Traits) (P : Platform)

/-- `VMHeap::allocateSmallChunk`: `fresh` is the address that `vmAllocate` returns. -/
def allocateChunk (h : LineHeap) (fresh : Nat) : LineHeap :=
  { h with chunks := fresh :: h.chunks, vmPages := (chunkPages T P fresh).reverse ++ h.vmPages }

/-- `VMHeap::allocateSmallPage`. -/
def allocatePage (h : LineHeap) (fresh : Nat) : Option (Page × LineHeap) :=
  let h := if h.vmPages = [] then h.allocateChunk T P fresh else h
  match h.vmPages with
  | [] => none
  | page :: rest => some (page, { h with vmPages := rest })

/-- The page that the slow case works on: from `m_smallPages`, else from `VMHeap`. -/
def popPage (h : LineHeap) (fresh : Nat) : Option (Page × LineHeap) :=
  match h.pages with
  | page :: rest => some (page, { h with pages := rest })
  | [] => h.allocatePage T P fresh

/-- `allocateSmallLineSlowCase` (`cls` the size class) and `allocateMediumLineSlowCase` (no size class). -/
def allocateLineSlowCase (h : LineHeap) (cls : Option Nat) (fresh : Nat) : Option (Line × LineHeap) :=
  (h.popPage T P fresh).map fun (page, h) =>
    let h := h.setLines (cls.getD 0) ((page.tail T P).reverse ++ h.lines (cls.getD 0))
    let h := match cls with
      | some c => h.setSmallSizeClass page c
      | none => h
    (page.begin T P, h.ref page)

/-- The entries popped from a line list: up to and including the first that is not stale. -/
def popLine (stale : Line → Bool) : List Line → Option Line × List Line
  | [] => (none, [])
  | line :: rest => if stale line then popLine stale rest else (some line, rest)

/-- The body of `allocateSmallLine` and `allocateMediumLine`: the line, and whether the slow case ran. -/
def allocateLine (h : LineHeap) (stale : Line → Bool) (cls : Option Nat) (fresh : Nat) :
    Option (Line × Bool × LineHeap) :=
  match popLine stale (h.lines (cls.getD 0)) with
  | (some line, rest) => some (line, false, (h.setLines (cls.getD 0) rest).ref (Page.get T P line))
  | (none, rest) =>
    ((h.setLines (cls.getD 0) rest).allocateLineSlowCase T P cls fresh).map fun (line, h) => (line, true, h)

/-- The body of `deallocateSmallLine` and `deallocateMediumLine`; `c` is the list that takes the line back. -/
def deallocateLine (h : LineHeap) (line : Line) (c : Nat) : LineHeap :=
  let page := Page.get T P line
  let h := h.deref page
  if h.refCount page = 0 then { h with pages := page :: h.pages } else h.setLines c (line :: h.lines c)

/-- One pass of the loop of `scavengeSmallPages` up to the release of the lock. -/
def scavengePage (h : LineHeap) : LineHeap :=
  match h.pages with
  | [] => h
  | page :: rest => { h with pages := rest, releasing := page :: h.releasing }

/-- The end of `VMHeap::deallocateSmallPage`. -/
def releasePage (h : LineHeap) (page : Page) : LineHeap :=
  { h with releasing := h.releasing.erase page, vmPages := page :: h.vmPages }

end Functions

/-- `Heap::allocateSmallLine`. -/
def allocateSmallLine (P : Platform) (h : LineHeap) (c fresh : Nat) : Option (Line × Bool × LineHeap) :=
  h.allocateLine smallTraits P
    (fun line => h.refCount (Page.get smallTraits P line) == 0 || h.smallSizeClass (Page.get smallTraits P line) != c)
    (some c) fresh

/-- `Heap::deallocateSmallLine`. -/
def deallocateSmallLine (P : Platform) (h : LineHeap) (line : Line) : LineHeap :=
  h.deallocateLine smallTraits P line (h.smallSizeClass (Page.get smallTraits P line))

/-- `Heap::allocateMediumLine`. -/
def allocateMediumLine (P : Platform) (h : LineHeap) (fresh : Nat) : Option (Line × Bool × LineHeap) :=
  h.allocateLine mediumTraits P (fun line => h.refCount (Page.get mediumTraits P line) == 0) none fresh

/-- `Heap::deallocateMediumLine`. -/
def deallocateMediumLine (P : Platform) (h : LineHeap) (line : Line) : LineHeap :=
  h.deallocateLine mediumTraits P line 0

end LineHeap

/-! ## The heap -/

/-- The small and medium parts of `Heap`. -/
structure Heap where
  small : LineHeap
  medium : LineHeap
  isAllocatingPages : Bool

namespace Heap

def init : Heap := ⟨.init, .init, false⟩

def allocateSmallLine (P : Platform) (h : Heap) (c fresh : Nat) : Option (Line × Heap) :=
  (h.small.allocateSmallLine P c fresh).map fun (line, slow, small) =>
    (line, { h with small := small, isAllocatingPages := h.isAllocatingPages || slow })

def deallocateSmallLine (P : Platform) (h : Heap) (line : Line) : Heap :=
  { h with small := h.small.deallocateSmallLine P line }

def allocateMediumLine (P : Platform) (h : Heap) (fresh : Nat) : Option (Line × Heap) :=
  (h.medium.allocateMediumLine P fresh).map fun (line, slow, medium) =>
    (line, { h with medium := medium, isAllocatingPages := h.isAllocatingPages || slow })

def deallocateMediumLine (P : Platform) (h : Heap) (line : Line) : Heap :=
  { h with medium := h.medium.deallocateMediumLine P line }

/-- One pass of the loop of `scavengeSmallPages`. -/
def scavengeSmallPages (h : Heap) : Heap :=
  if h.isAllocatingPages then { h with isAllocatingPages := false } else { h with small := h.small.scavengePage }

/-- One pass of the loop of `scavengeMediumPages`. -/
def scavengeMediumPages (h : Heap) : Heap :=
  if h.isAllocatingPages then { h with isAllocatingPages := false } else { h with medium := h.medium.scavengePage }

def releaseSmallPage (h : Heap) (page : Page) : Heap := { h with small := h.small.releasePage page }

def releaseMediumPage (h : Heap) (page : Page) : Heap := { h with medium := h.medium.releasePage page }

end Heap

end WebKit.Bmalloc
