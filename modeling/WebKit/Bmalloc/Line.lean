import Mathlib.Data.List.Perm.Subperm
import WebKit.Bmalloc.Sizes

/-!
# Lines, pages and chunks of small and medium objects

`Chunk<Traits>` is cut into lines, and its lines are grouped into pages of `vmPageSize` bytes. A `Line*` is the chunk and
the index into `m_lines`, a `Page*` the chunk and the index into `m_pages`.
-/

namespace WebKit.Bmalloc

/-- `SmallTraits` and `MediumTraits`: what `Chunk`, `Line` and `Page` are templates over. -/
structure Traits where
  lineSize : Nat
  minimumObjectSize : Nat
  chunkSize : Nat
  chunkOffset : Nat
  deriving DecidableEq, Repr

def smallTraits : Traits := ⟨smallLineSize, alignment, smallChunkSize, smallChunkOffset⟩

def mediumTraits : Traits := ⟨mediumLineSize, smallMax + alignment, mediumChunkSize, mediumChunkOffset⟩

/-- A `Line*`: the address of the chunk and the index of the line. -/
structure Line where
  chunk : Nat
  number : Nat
  deriving DecidableEq, Repr

/-- A `Page*`: the address of the chunk and the index of the page. -/
structure Page where
  chunk : Nat
  number : Nat
  deriving DecidableEq, Repr

/-- `Line::maxRefCount`. -/
def maxRefCount : Nat := 255

section Traits

variable (T : Traits) (P : Platform)

/-- `Chunk::get`: the chunk mask keeps the multiple of the chunk size below the address. -/
def chunkGet (object : Nat) : Nat := roundDown T.chunkSize object

/-- `Line::get`. -/
def Line.get (object : Nat) : Line := ⟨chunkGet T object, (object - chunkGet T object) / T.lineSize⟩

/-- `Line::begin`. -/
def Line.begin (line : Line) : Nat := line.chunk + line.number * T.lineSize

/-- `Line::end`. -/
def Line.end (line : Line) : Nat := line.begin T + T.lineSize

/-- `Page::get`. -/
def Page.get (line : Line) : Page := ⟨line.chunk, line.number * T.lineSize / P.vmPageSize⟩

/-- `Page::begin`. -/
def Page.begin (page : Page) : Line := ⟨page.chunk, page.number * P.vmPageSize / T.lineSize⟩

/-- The number of lines of a page, `vmPageSize / lineSize`. -/
def linesPerPage : Nat := P.vmPageSize / T.lineSize

/-- The lines from `page->begin() + 1` to `page->end()`. -/
def Page.tail (page : Page) : List Line :=
  (List.range (linesPerPage T P - 1)).map fun i => ⟨page.chunk, (page.begin T P).number + (i + 1)⟩

def lineCount : Nat := T.chunkSize / T.lineSize

def pageCount : Nat := T.chunkSize / P.vmPageSize

/-- The offset of `m_memory`: one byte for each `Line`, two for each `Page`, aligned to `vmPageSize`. -/
def memoryOffset : Nat := roundUp P.vmPageSize (lineCount T * 1 + pageCount T P * 2)

/-- The index of `Chunk::begin()`. -/
def firstPage : Nat := memoryOffset T P / T.lineSize * T.lineSize / P.vmPageSize

/-- The pages from `chunk->begin()` to `chunk->end()`. -/
def chunkPages (chunk : Nat) : List Page :=
  (List.range (pageCount T P - firstPage T P)).map fun i => ⟨chunk, firstPage T P + i⟩

end Traits

/-! ## Facts shared by the two kinds of chunk -/

/-- What the proofs use of the constants: pages are whole numbers of lines, and a chunk has room for a page. -/
structure Traits.Fits (T : Traits) (P : Platform) : Prop where
  line_pos : 0 < T.lineSize
  page_eq : P.vmPageSize = linesPerPage T P * T.lineSize
  lines_pos : 0 < linesPerPage T P
  lines_lt : linesPerPage T P < maxRefCount
  pages_pos : firstPage T P < pageCount T P

theorem smallTraits_fits : ∀ P, smallTraits.Fits P
  | .iOS | .other => by constructor <;> decide

theorem mediumTraits_fits : ∀ P, mediumTraits.Fits P
  | .iOS | .other => by constructor <;> decide

section Fits

variable {T : Traits} {P : Platform}

theorem page_get_eq (hT : T.Fits P) (line : Line) : Page.get T P line = ⟨line.chunk, line.number / linesPerPage T P⟩ := by
  simp only [Page.get, hT.page_eq, Nat.mul_div_mul_right _ _ hT.line_pos]

theorem page_begin_eq (hT : T.Fits P) (page : Page) :
    page.begin T P = ⟨page.chunk, page.number * linesPerPage T P⟩ := by
  simp only [Page.begin, hT.page_eq, ← Nat.mul_assoc, Nat.mul_div_cancel _ hT.line_pos]

theorem page_get_begin (hT : T.Fits P) (page : Page) : Page.get T P (page.begin T P) = page := by
  rw [page_get_eq hT, page_begin_eq hT]
  simp only [Nat.mul_div_cancel _ hT.lines_pos]

/-- So are the others. -/
theorem page_get_of_mem_tail (hT : T.Fits P) {page : Page} {line : Line} (h : line ∈ page.tail T P) :
    Page.get T P line = page := by
  obtain ⟨i, hi, rfl⟩ := List.mem_map.1 h
  have hi := List.mem_range.1 hi
  rw [page_get_eq hT, page_begin_eq hT]
  have : (page.number * linesPerPage T P + (i + 1)) / linesPerPage T P = page.number := by
    rw [Nat.add_comm, Nat.add_mul_div_right _ _ hT.lines_pos, Nat.div_eq_of_lt (by omega), Nat.zero_add]
  simp only [this]

theorem page_begin_not_mem_tail {page : Page} : page.begin T P ∉ page.tail T P := by
  intro h
  obtain ⟨i, _, h⟩ := List.mem_map.1 h
  have := congrArg Line.number h
  simp only at this
  omega

theorem page_tail_nodup {page : Page} : (page.tail T P).Nodup := by
  refine List.Pairwise.map _ ?_ List.nodup_range
  intro a b hab h
  have := congrArg Line.number h
  simp only at this
  omega

theorem line_number_of_page (hT : T.Fits P) {page : Page} {line : Line} (h : Page.get T P line = page) :
    line.chunk = page.chunk ∧ ∃ i < linesPerPage T P, line.number = page.number * linesPerPage T P + i := by
  rw [page_get_eq hT] at h
  subst h
  refine ⟨rfl, line.number % linesPerPage T P, Nat.mod_lt _ hT.lines_pos, ?_⟩
  rw [Nat.mul_comm]
  exact (Nat.div_add_mod _ _).symm

theorem length_le_of_page (hT : T.Fits P) {page : Page} {ls : List Line} (hn : ls.Nodup)
    (h : ∀ line ∈ ls, Page.get T P line = page) : ls.length ≤ linesPerPage T P := by
  have hsub : ls ⊆ (List.range (linesPerPage T P)).map
      fun i => ⟨page.chunk, page.number * linesPerPage T P + i⟩ := by
    intro line hl
    obtain ⟨hc, i, hi, hnum⟩ := line_number_of_page hT (h line hl)
    refine List.mem_map.2 ⟨i, List.mem_range.2 hi, ?_⟩
    cases line
    simp_all
  have := (List.Nodup.subperm hn hsub).length_le
  simpa using this

theorem chunkPages_nodup (chunk : Nat) : (chunkPages T P chunk).Nodup := by
  refine List.Pairwise.map _ ?_ List.nodup_range
  intro a b hab h
  have := congrArg Page.number h
  simp only at this
  omega

theorem chunk_of_mem_chunkPages {chunk : Nat} {page : Page} (h : page ∈ chunkPages T P chunk) : page.chunk = chunk := by
  obtain ⟨i, _, rfl⟩ := List.mem_map.1 h
  rfl

end Fits

end WebKit.Bmalloc
