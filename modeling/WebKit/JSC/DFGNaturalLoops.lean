import Mathlib.Data.Finset.Insert

/-!
# Natural loops of the DFG

`NaturalLoops::compute` finds the back edges, which make one loop for each target, collects the blocks of each loop from
its back edges, notes for each block the two smallest loops that it is in, and takes the second one of a header as the
loop around its own. It is `none` where the `RELEASE_ASSERT` fires or a vector is read out of its bounds.

Blocks are their indices. `dominates` is what `Dominators::dominates` answers. A stack is a list whose head is its last
element, `seenBlocks` is the set of the bits that are set, and `UINT_MAX` is `none`. A loop that has no bound in the
source gets a number of turns, and is `none` when it needs more.
-/

namespace WebKit.JSC.DFG

abbrev BlockIndex := Nat

structure BasicBlock where
  successors : List BlockIndex
  predecessors : List BlockIndex
  deriving DecidableEq, Repr

/-- The blocks by index. Some indices have no block. -/
structure Graph where
  m_blocks : List (Option BasicBlock)
  deriving DecidableEq, Repr

namespace Graph

def numBlocks (graph : Graph) : Nat := graph.m_blocks.length

def block (graph : Graph) (i : BlockIndex) : Option BasicBlock := (graph.m_blocks[i]?).join

end Graph

structure NaturalLoop where
  m_header : BlockIndex
  m_body : List BlockIndex
  m_outerLoopIndex : Option Nat
  deriving DecidableEq, Repr

namespace NaturalLoop

def addBlock (loop : NaturalLoop) (block : BlockIndex) : NaturalLoop := { loop with m_body := loop.m_body ++ [block] }

def size (loop : NaturalLoop) : Nat := loop.m_body.length

end NaturalLoop

structure NaturalLoops where
  m_loops : List NaturalLoop
  innerMostLoopIndices : BlockIndex → List (Option Nat)

namespace NaturalLoops

variable (dominates : BlockIndex → BlockIndex → Bool) (graph : Graph)

/-! ## The back edges -/

/-- The search for a loop with the header, from the last loop to the first. -/
def addToLoop (header block : BlockIndex) : List NaturalLoop → Option (List NaturalLoop)
  | [] => none
  | loop :: loops =>
    match addToLoop header block loops with
    | some loops => some (loop :: loops)
    | none => if loop.m_header = header then some (loop.addBlock block :: loops) else none

def bootstrapEdge (block : BlockIndex) (loops : List NaturalLoop) (successor : BlockIndex) : List NaturalLoop :=
  if !dominates successor block then loops
  else match addToLoop successor block loops with
    | some loops => loops
    | none => loops ++ [(NaturalLoop.mk successor [] none).addBlock block]

def bootstrapBlock (loops : List NaturalLoop) (blockIndex : BlockIndex) : List NaturalLoop :=
  match graph.block blockIndex with
  | none => loops
  | some block => block.successors.reverse.foldl (bootstrapEdge dominates blockIndex) loops

def bootstrap : List NaturalLoop := (List.range graph.numBlocks).reverse.foldl (bootstrapBlock dominates graph) []

/-! ## The bodies -/

structure Collection where
  body : List BlockIndex
  blockWorklist : List BlockIndex
  seenBlocks : Finset BlockIndex
  deriving DecidableEq

def visitPredecessor (c : Collection) (predecessor : BlockIndex) : Collection :=
  if predecessor ∈ c.seenBlocks then c
  else ⟨c.body ++ [predecessor], predecessor :: c.blockWorklist, insert predecessor c.seenBlocks⟩

/-- The loop over `blockWorklist`. -/
def collect (header : BlockIndex) : Nat → Collection → Option (List BlockIndex)
  | 0, _ => none
  | turns + 1, c =>
    match c.blockWorklist with
    | [] => some c.body
    | block :: blockWorklist =>
      if block = header then collect header turns { c with blockWorklist := blockWorklist }
      else (graph.block block).bind fun b =>
        collect header turns (b.predecessors.reverse.foldl visitPredecessor { c with blockWorklist := blockWorklist })

/-- The sources of the back edges are pushed from the last to the first. -/
def collectBody (loop : NaturalLoop) : Option NaturalLoop :=
  (collect graph loop.m_header (loop.size + graph.numBlocks + 1)
    ⟨loop.m_body, loop.m_body, loop.m_body.toFinset⟩).map fun body => { loop with m_body := body }

/-! ## The inner-most loops of a block -/

def numberOfInnerMostLoopIndices : Nat := 2

/-- The elements from `index` on move up by one, and the last one is gone. -/
def insertIntoBoundedVector {α : Type} (vector : List α) (element : α) (index : Nat) : List α :=
  (vector.insertIdx index element).dropLast

def sizeOf (loops : List NaturalLoop) (index : Nat) : Nat := (loops[index]?).elim 0 NaturalLoop.size

/-- The loop over `innerMostLoopIndices` for one block of a loop. -/
def enterLoop (size : Nat → Nat) (loopIndex : Nat) (indices : List (Option Nat)) : List (Option Nat) :=
  match indices.findIdx? fun thisIndex => thisIndex.all fun thisIndex => decide (size loopIndex < size thisIndex) with
  | none => indices
  | some i => insertIntoBoundedVector indices (some loopIndex) i

def enterBlocks (size : Nat → Nat) (loopIndex : Nat) (body : List BlockIndex)
    (innerMost : BlockIndex → List (Option Nat)) : BlockIndex → List (Option Nat) :=
  body.reverse.foldl (fun innerMost block => Function.update innerMost block (enterLoop size loopIndex (innerMost block)))
    innerMost

def computeInnerMost (loops : List NaturalLoop) : BlockIndex → List (Option Nat) :=
  (List.range loops.length).reverse.foldl
    (fun innerMost i => enterBlocks (sizeOf loops) i ((loops[i]?).elim [] NaturalLoop.m_body) innerMost)
    fun _ => List.replicate numberOfInnerMostLoopIndices none

/-- The parent of a loop, after the `RELEASE_ASSERT`. -/
def setOuterLoop (innerMost : BlockIndex → List (Option Nat)) (i : Nat) (loop : NaturalLoop) : Option NaturalLoop :=
  match innerMost loop.m_header with
  | [inner, outer] => if inner = some i then some { loop with m_outerLoopIndex := outer } else none
  | _ => none

/-! ## The analysis -/

def compute : Option NaturalLoops := do
  let loops ← (bootstrap dominates graph).mapM (collectBody graph)
  let innerMost := computeInnerMost loops
  let loops ← (loops.zipIdx).mapM fun (loop, i) => setOuterLoop innerMost i loop
  some ⟨loops, innerMost⟩

variable (loops : NaturalLoops)

def innerMostLoopOf (block : BlockIndex) : Option Nat := (loops.innerMostLoopIndices block).head?.join

def innerMostOuterLoop (loopIndex : Nat) : Option Nat := (loops.m_loops[loopIndex]?).bind NaturalLoop.m_outerLoopIndex

/-- The loop of `loopsOf`. -/
def loopsFrom : Nat → Option Nat → Option (List Nat)
  | _, none => some []
  | 0, some _ => none
  | turns + 1, some loopIndex => (loopsFrom turns (loops.innerMostOuterLoop loopIndex)).map (loopIndex :: ·)

def loopsOf (block : BlockIndex) : Option (List Nat) := loops.loopsFrom loops.m_loops.length (loops.innerMostLoopOf block)

end NaturalLoops

end WebKit.JSC.DFG
