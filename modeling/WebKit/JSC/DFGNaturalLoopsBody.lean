import Mathlib.Data.Finset.Lattice.Lemmas
import Mathlib.Data.List.Range
import WebKit.JSC.DFGNaturalLoops
import WebKit.Lib.NaturalLoop
import WebKit.Lib.Pointwise

/-!
# The bodies of natural loops

A graph is `Analysed` if its edges lead to blocks, the predecessors of a block are the sources of its edges, all blocks
are reachable from the first one, and `dominates` is dominance. The loops that are found first have the sources of the
back edges, with a repeated edge more than once (`bootstrap_spec`). The search from there ends, and adds every block of
the natural loop once that is not there yet (`collectBody_spec`). So the bodies are natural loops, and have no block twice
if no block has two edges to a header that dominates it (`found`).
-/

namespace WebKit.JSC.DFG

open WebKit.Lib

variable {dominates : BlockIndex → BlockIndex → Bool} {graph : Graph}

/-- There is an edge from `i` to `j`. -/
def Graph.Edge (graph : Graph) (i j : BlockIndex) : Prop := ∃ b, graph.block i = some b ∧ j ∈ b.successors

/-- The edges are in order, every block is reachable, and the dominators are right. -/
structure Analysed (dominates : BlockIndex → BlockIndex → Bool) (graph : Graph) : Prop where
  entry : (graph.block 0).isSome = true
  successors : ∀ i j, graph.Edge i j → (graph.block j).isSome = true
  predecessors : ∀ j b, graph.block j = some b → ∀ i, i ∈ b.predecessors ↔ graph.Edge i j
  reachable : ∀ i, (graph.block i).isSome = true → Relation.ReflTransGen graph.Edge 0 i
  dominates : ∀ i j, (graph.block i).isSome = true → (graph.block j).isSome = true →
    (dominates i j = true ↔ Dominates graph.Edge 0 i j)

theorem Graph.block_of_edge {i j : BlockIndex} (h : graph.Edge i j) : (graph.block i).isSome = true := by
  obtain ⟨b, hb, -⟩ := h
  rw [hb]
  rfl

theorem Graph.lt_of_block {i : BlockIndex} (h : (graph.block i).isSome = true) : i < graph.numBlocks := by
  by_contra hge
  rw [Graph.block, List.getElem?_eq_none (Nat.le_of_not_lt hge)] at h
  exact nomatch h

/-! ## The back edges -/

namespace NaturalLoops

/-- The edges in the order in which they are visited. -/
def visitedEdges (graph : Graph) : List (BlockIndex × BlockIndex) :=
  (List.range graph.numBlocks).reverse.flatMap fun i =>
    (graph.block i).elim [] fun b => b.successors.reverse.map fun j => (i, j)

/-- The sources of the back edges to `header`, with repetitions. -/
def sources (dominates : BlockIndex → BlockIndex → Bool) (edges : List (BlockIndex × BlockIndex)) (header : BlockIndex) :
    List BlockIndex :=
  (edges.filter fun e => decide (e.2 = header) && dominates header e.1).map Prod.fst

theorem mem_visitedEdges {i j : BlockIndex} : (i, j) ∈ visitedEdges graph ↔ graph.Edge i j := by
  rw [visitedEdges, List.mem_flatMap]
  constructor
  · rintro ⟨k, -, hmem⟩
    cases hb : graph.block k with
    | none =>
      rw [hb] at hmem
      exact absurd hmem List.not_mem_nil
    | some b =>
      rw [hb, Option.elim_some] at hmem
      obtain ⟨j', hj', heq⟩ := List.mem_map.1 hmem
      obtain ⟨rfl, rfl⟩ := Prod.mk.inj heq
      exact ⟨b, hb, List.mem_reverse.1 hj'⟩
  · rintro ⟨b, hb, hj⟩
    refine ⟨i, ?_, ?_⟩
    · have hlt : i < graph.numBlocks := Graph.lt_of_block (by rw [hb]; rfl)
      simpa using hlt
    · rw [hb, Option.elim_some]
      exact List.mem_map.2 ⟨j, List.mem_reverse.2 hj, rfl⟩

theorem bootstrap_eq : bootstrap dominates graph =
    (visitedEdges graph).foldl (fun loops e => bootstrapEdge dominates e.1 loops e.2) [] := by
  rw [bootstrap, visitedEdges]
  generalize ([] : List NaturalLoop) = loops
  induction (List.range graph.numBlocks).reverse generalizing loops with
  | nil => rfl
  | cons i is ih =>
    rw [List.foldl_cons, ih, List.flatMap_cons, List.foldl_append, bootstrapBlock]
    cases graph.block i with
    | none => rfl
    | some b => rw [Option.elim_some, List.foldl_map]

theorem addToLoop_eq_none {header block : BlockIndex} {loops : List NaturalLoop}
    (h : header ∉ loops.map NaturalLoop.m_header) : addToLoop header block loops = none := by
  induction loops with
  | nil => rfl
  | cons loop loops ih =>
    rw [List.map_cons, List.mem_cons, not_or] at h
    rw [addToLoop, ih h.2]
    exact if_neg fun heq => h.1 heq.symm

theorem addToLoop_eq_some {header block : BlockIndex} {loops : List NaturalLoop}
    (hnodup : (loops.map NaturalLoop.m_header).Nodup) (h : header ∈ loops.map NaturalLoop.m_header) :
    addToLoop header block loops =
      some (loops.map fun loop => if loop.m_header = header then loop.addBlock block else loop) := by
  induction loops with
  | nil => exact absurd h List.not_mem_nil
  | cons loop loops ih =>
    rw [List.map_cons, List.nodup_cons] at hnodup
    rw [addToLoop]
    by_cases hin : header ∈ loops.map NaturalLoop.m_header
    · have hne : ¬ loop.m_header = header := fun heq => hnodup.1 (heq ▸ hin)
      simp only [ih hnodup.2 hin, List.map_cons, if_neg hne]
    · obtain rfl : header = loop.m_header := by
        rw [List.map_cons, List.mem_cons] at h
        exact h.resolve_right hin
      have hrest : (loops.map fun l => if l.m_header = loop.m_header then l.addBlock block else l) = loops := by
        refine (List.map_congr_left fun l hl => ?_).trans (List.map_id loops)
        exact if_neg fun heq : l.m_header = loop.m_header => hin (heq ▸ List.mem_map_of_mem hl)
      rw [addToLoop_eq_none hin, List.map_cons, if_pos rfl, if_pos rfl, hrest]

theorem sources_append (edges : List (BlockIndex × BlockIndex)) (e : BlockIndex × BlockIndex) (header : BlockIndex) :
    sources dominates (edges ++ [e]) header = sources dominates edges header ++
      if e.2 = header ∧ dominates header e.1 = true then [e.1] else [] := by
  rw [sources, List.filter_append, List.map_append, ← sources]
  congr 1
  by_cases he : e.2 = header <;> by_cases hd : dominates header e.1 = true <;> simp [he, hd]

/-- After some edges there is one loop for each target of a back edge, with the sources of these. -/
structure Bootstrapped (dominates : BlockIndex → BlockIndex → Bool) (edges : List (BlockIndex × BlockIndex))
    (loops : List NaturalLoop) : Prop where
  headers : (loops.map NaturalLoop.m_header).Nodup
  mem_headers : ∀ h, h ∈ loops.map NaturalLoop.m_header ↔ sources dominates edges h ≠ []
  body : ∀ loop ∈ loops, loop.m_body = sources dominates edges loop.m_header

theorem Bootstrapped.edge {edges : List (BlockIndex × BlockIndex)} {loops : List NaturalLoop}
    (h : Bootstrapped dominates edges loops) (e : BlockIndex × BlockIndex) :
    Bootstrapped dominates (edges ++ [e]) (bootstrapEdge dominates e.1 loops e.2) := by
  obtain ⟨block, successor⟩ := e
  rw [bootstrapEdge]
  cases hd : dominates successor block with
  | false =>
    have hsame : ∀ header, sources dominates (edges ++ [(block, successor)]) header = sources dominates edges header := by
      intro header
      rw [sources_append, if_neg, List.append_nil]
      rintro ⟨rfl, hdom⟩
      exact Bool.false_ne_true (hd.symm.trans hdom)
    exact ⟨h.headers, fun header => by rw [hsame]; exact h.mem_headers header, fun loop hloop => by
      rw [hsame]; exact h.body loop hloop⟩
  | true =>
    have hother : ∀ header, header ≠ successor →
        sources dominates (edges ++ [(block, successor)]) header = sources dominates edges header := by
      intro header hne
      rw [sources_append, if_neg fun hboth => hne hboth.1.symm, List.append_nil]
    have hself : sources dominates (edges ++ [(block, successor)]) successor =
        sources dominates edges successor ++ [block] := by
      rw [sources_append, if_pos ⟨rfl, hd⟩]
    simp only [Bool.not_true, Bool.false_eq_true, ↓reduceIte]
    by_cases hin : successor ∈ loops.map NaturalLoop.m_header
    · rw [addToLoop_eq_some h.headers hin]
      have hheaders : (loops.map fun loop => if loop.m_header = successor then loop.addBlock block else loop).map
          NaturalLoop.m_header = loops.map NaturalLoop.m_header := by
        rw [List.map_map]
        refine List.map_congr_left fun loop _ => ?_
        simp only [Function.comp_apply]
        split_ifs <;> rfl
      refine ⟨hheaders ▸ h.headers, fun header => ?_, fun loop hloop => ?_⟩
      · rw [hheaders, h.mem_headers]
        by_cases hheader : header = successor
        · subst hheader
          rw [hself]
          exact ⟨fun _ => List.append_ne_nil_of_right_ne_nil _ (List.cons_ne_nil _ _), fun _ => (h.mem_headers _).1 hin⟩
        · rw [hother header hheader]
      · obtain ⟨old, hold, rfl⟩ := List.mem_map.1 hloop
        split_ifs with hheader
        · show old.m_body ++ [block] = sources dominates _ old.m_header
          rw [hheader, hself, h.body old hold, hheader]
        · rw [hother _ hheader, h.body old hold]
    · rw [addToLoop_eq_none hin]
      have hnil : sources dominates edges successor = [] := by
        by_contra hne
        exact hin ((h.mem_headers successor).2 hne)
      refine ⟨?_, fun header => ?_, fun loop hloop => ?_⟩
      · rw [List.map_append]
        refine List.nodup_append.2 ⟨h.headers, List.nodup_singleton _, ?_⟩
        rintro header hheader _ hnew rfl
        obtain rfl := List.mem_singleton.1 hnew
        exact hin hheader
      · rw [List.map_append, List.mem_append, h.mem_headers]
        by_cases hheader : header = successor
        · subst hheader
          rw [hself]
          exact ⟨fun _ => List.append_ne_nil_of_right_ne_nil _ (List.cons_ne_nil _ _), fun _ => .inr (List.mem_singleton_self _)⟩
        · rw [hother header hheader]
          refine ⟨fun hor => hor.resolve_right fun hnew => hheader (List.mem_singleton.1 hnew), .inl⟩
      · rcases List.mem_append.1 hloop with hold | hnew
        · have hne : loop.m_header ≠ successor := fun heq => hin (heq ▸ List.mem_map_of_mem hold)
          rw [hother _ hne, h.body loop hold]
        · obtain rfl := List.mem_singleton.1 hnew
          show [block] = sources dominates _ successor
          rw [hself, hnil, List.nil_append]

/-- **The loops that are found first.** -/
theorem bootstrap_spec : Bootstrapped dominates (visitedEdges graph) (bootstrap dominates graph) := by
  rw [bootstrap_eq]
  induction visitedEdges graph using List.reverseRecOn with
  | nil => exact ⟨List.nodup_nil, fun h => by simp [sources], nofun⟩
  | append_singleton edges e ih =>
    rw [List.foldl_append]
    exact ih.edge e

theorem mem_sources {h a : BlockIndex} :
    a ∈ sources dominates (visitedEdges graph) h ↔ graph.Edge a h ∧ dominates h a = true := by
  rw [sources, List.mem_map]
  constructor
  · rintro ⟨⟨i, j⟩, hmem, rfl⟩
    obtain ⟨hedge, hboth⟩ := List.mem_filter.1 hmem
    obtain ⟨hj, hd⟩ := Bool.and_eq_true_iff.1 hboth
    obtain rfl : j = h := of_decide_eq_true hj
    exact ⟨mem_visitedEdges.1 hedge, hd⟩
  · rintro ⟨hedge, hd⟩
    exact ⟨(a, h), List.mem_filter.2 ⟨mem_visitedEdges.2 hedge, by simp [hd]⟩, rfl⟩

/-! ## The search -/

theorem visitPredecessors_spec (predecessors : List BlockIndex) (c : Collection) :
    ∃ added, predecessors.foldl visitPredecessor c =
        ⟨c.body ++ added, added.reverse ++ c.blockWorklist, c.seenBlocks ∪ added.toFinset⟩ ∧
      added.Nodup ∧ (∀ x ∈ added, x ∈ predecessors ∧ x ∉ c.seenBlocks) ∧
      ∀ x ∈ predecessors, x ∈ c.seenBlocks ∨ x ∈ added := by
  induction predecessors generalizing c with
  | nil => exact ⟨[], by simp, List.nodup_nil, nofun, nofun⟩
  | cons p predecessors ih =>
    rw [List.foldl_cons, visitPredecessor]
    split_ifs with hp
    · obtain ⟨added, heq, hnodup, hadded, hall⟩ := ih c
      refine ⟨added, heq, hnodup, fun x hx => ⟨List.mem_cons_of_mem _ (hadded x hx).1, (hadded x hx).2⟩, fun x hx => ?_⟩
      rcases List.mem_cons.1 hx with rfl | hx
      · exact .inl hp
      · exact hall x hx
    · obtain ⟨added, heq, hnodup, hadded, hall⟩ :=
        ih ⟨c.body ++ [p], p :: c.blockWorklist, insert p c.seenBlocks⟩
      have hpadded : p ∉ added := fun hin => (hadded p hin).2 (Finset.mem_insert_self _ _)
      refine ⟨p :: added, ?_, List.nodup_cons.2 ⟨hpadded, hnodup⟩, fun x hx => ?_, fun x hx => ?_⟩
      · rw [heq]
        simp
      · rcases List.mem_cons.1 hx with rfl | hx
        · exact ⟨List.mem_cons_self, hp⟩
        · exact ⟨List.mem_cons_of_mem _ (hadded x hx).1, fun hseen => (hadded x hx).2 (Finset.mem_insert_of_mem hseen)⟩
      · rcases List.mem_cons.1 hx with rfl | hx
        · exact .inr List.mem_cons_self
        · rcases hall x hx with hseen | hin
          · rcases Finset.mem_insert.1 hseen with rfl | hseen
            · exact .inr List.mem_cons_self
            · exact .inl hseen
          · exact .inr (List.mem_cons_of_mem _ hin)

/-- During the search from the blocks `start`: what was added is new, what is not on the worklist is done, and every block
reaches one of `start` without passing the header. -/
structure Searching (graph : Graph) (header : BlockIndex) (start added : List BlockIndex) (c : Collection) : Prop where
  body : c.body = start ++ added
  nodup : added.Nodup
  new : ∀ x ∈ added, x ∉ start
  seen : ∀ x, x ∈ c.seenBlocks ↔ x ∈ c.body
  worklist : ∀ x ∈ c.blockWorklist, x ∈ c.body
  block : ∀ x ∈ c.body, (graph.block x).isSome = true
  done : ∀ y ∈ c.body, y ∉ c.blockWorklist → y ≠ header → ∀ x, graph.Edge x y → x ∈ c.body
  reaches : ∀ x ∈ c.body, x = header ∨ ∃ a ∈ start, Avoids graph.Edge header x a

theorem Searching.length_le {header : BlockIndex} {start added : List BlockIndex} {c : Collection}
    (h : Searching graph header start added c) : added.length ≤ graph.numBlocks := by
  have hsubset : added ⊆ List.range graph.numBlocks := fun x hx =>
    List.mem_range.2 (Graph.lt_of_block (h.block x (by rw [h.body]; exact List.mem_append_right _ hx)))
  exact (h.nodup.subperm hsubset).length_le.trans (List.length_range.le)

theorem Searching.header {header : BlockIndex} {start added : List BlockIndex} {c : Collection}
    (h : Searching graph header start added c) {worklist : List BlockIndex} (hw : c.blockWorklist = header :: worklist) :
    Searching graph header start added { c with blockWorklist := worklist } where
  body := h.body
  nodup := h.nodup
  new := h.new
  seen := h.seen
  worklist := fun x hx => h.worklist x (by rw [hw]; exact List.mem_cons_of_mem _ hx)
  block := h.block
  done := fun y hy hnot hne => h.done y hy (by
    rw [hw, List.mem_cons, not_or]
    exact ⟨hne, hnot⟩) hne
  reaches := h.reaches

theorem Searching.visit (ha : Analysed dominates graph) {header : BlockIndex} {start added : List BlockIndex}
    {c : Collection} (h : Searching graph header start added c) {block : BlockIndex} {worklist : List BlockIndex}
    (hw : c.blockWorklist = block :: worklist) (hne : block ≠ header) {b : BasicBlock} (hb : graph.block block = some b) :
    ∃ added', Searching graph header start (added ++ added')
        (b.predecessors.reverse.foldl visitPredecessor { c with blockWorklist := worklist }) ∧
      (b.predecessors.reverse.foldl visitPredecessor { c with blockWorklist := worklist }).blockWorklist.length =
        added'.length + worklist.length := by
  obtain ⟨added', heq, hnodup, hadded, hall⟩ :=
    visitPredecessors_spec b.predecessors.reverse { c with blockWorklist := worklist }
  have hblock : block ∈ c.body := h.worklist block (by rw [hw]; exact List.mem_cons_self)
  have hedge : ∀ x, x ∈ b.predecessors.reverse ↔ graph.Edge x block := fun x =>
    List.mem_reverse.trans (ha.predecessors block b hb x)
  have hnotBody : ∀ x ∈ added', x ∉ c.body := fun x hx hin => (hadded x hx).2 ((h.seen x).2 hin)
  have hbody : ∀ x, x ∈ c.body ++ added' ↔ x ∈ c.body ∨ x ∈ added' := fun x => List.mem_append
  refine ⟨added', ?_, by rw [heq]; simp⟩
  rw [heq]
  refine ⟨?_, ?_, ?_, ?_, ?_, ?_, ?_, ?_⟩
  · show c.body ++ added' = _
    rw [h.body, List.append_assoc]
  · refine List.nodup_append.2 ⟨h.nodup, hnodup, ?_⟩
    rintro x hx _ hx' rfl
    exact hnotBody x hx' (by rw [h.body]; exact List.mem_append_right _ hx)
  · intro x hx
    rcases List.mem_append.1 hx with hx | hx
    · exact h.new x hx
    · exact fun hstart => hnotBody x hx (by rw [h.body]; exact List.mem_append_left _ hstart)
  · intro x
    show x ∈ c.seenBlocks ∪ added'.toFinset ↔ x ∈ c.body ++ added'
    rw [Finset.mem_union, h.seen, List.mem_toFinset, hbody]
  · intro x hx
    rcases List.mem_append.1 hx with hx | hx
    · exact (hbody x).2 (.inr (List.mem_reverse.1 hx))
    · exact (hbody x).2 (.inl (h.worklist x (by rw [hw]; exact List.mem_cons_of_mem _ hx)))
  · intro x hx
    rcases (hbody x).1 hx with hx | hx
    · exact h.block x hx
    · exact Graph.block_of_edge ((hedge x).1 (hadded x hx).1)
  · -- a block that is done was done before, or is the one that was taken
    intro y hy hnot hne' x hxy
    have hnot' : y ∉ added' ∧ y ∉ worklist := by
      rw [List.mem_append, not_or, List.mem_reverse] at hnot
      exact hnot
    have hy' : y ∈ c.body := ((hbody y).1 hy).resolve_right hnot'.1
    by_cases hyblock : y = block
    · subst hyblock
      rcases hall x ((hedge x).2 hxy) with hseen | hin
      · exact (hbody x).2 (.inl ((h.seen x).1 hseen))
      · exact (hbody x).2 (.inr hin)
    · refine (hbody x).2 (.inl (h.done y hy' ?_ hne' x hxy))
      rw [hw, List.mem_cons, not_or]
      exact ⟨hyblock, hnot'.2⟩
  · intro x hx
    rcases (hbody x).1 hx with hx | hx
    · exact h.reaches x hx
    · by_cases hheader : x = header
      · exact .inl hheader
      · obtain ⟨a, hastart, hpath⟩ := (h.reaches block hblock).resolve_left hne
        exact .inr ⟨a, hastart, hpath.head ((hedge x).1 (hadded x hx).1) hheader⟩

/-- **The search ends**, with everything done. -/
theorem collect_spec (ha : Analysed dominates graph) {header : BlockIndex} {start : List BlockIndex} {turns : Nat}
    {added : List BlockIndex} {c : Collection} (h : Searching graph header start added c)
    (hturns : c.blockWorklist.length + (graph.numBlocks - added.length) < turns) :
    ∃ added' body, collect graph header turns c = some body ∧ Searching graph header start added' ⟨body, [], body.toFinset⟩ := by
  induction turns generalizing added c with
  | zero => exact absurd hturns (Nat.not_lt_zero _)
  | succ turns ih =>
    rw [collect]
    cases hw : c.blockWorklist with
    | nil =>
      refine ⟨added, c.body, rfl, h.body, h.nodup, h.new, fun x => List.mem_toFinset, nofun, h.block, ?_, h.reaches⟩
      intro y hy _
      exact h.done y hy (by rw [hw]; exact List.not_mem_nil)
    | cons block worklist =>
      rw [hw, List.length_cons] at hturns
      simp only
      split_ifs with hheader
      · subst hheader
        exact ih (h.header hw) (by show worklist.length + _ < _; omega)
      · obtain ⟨b, hb⟩ := Option.isSome_iff_exists.1 (h.block block (h.worklist block (by rw [hw]; exact List.mem_cons_self)))
        rw [hb, Option.bind_some]
        obtain ⟨added', hsearching, hlength⟩ := h.visit ha hw hheader hb
        have hle := hsearching.length_le
        refine ih hsearching ?_
        rw [hlength, List.length_append]
        rw [List.length_append] at hle
        omega

/-- The collected loop: its header, and a body that starts with the sources of the back edges and goes on with the other
blocks of the natural loop. -/
structure Collected (graph : Graph) (loop collected : NaturalLoop) : Prop where
  header : collected.m_header = loop.m_header
  body : ∃ added, collected.m_body = loop.m_body ++ added ∧ added.Nodup ∧ ∀ x ∈ added, x ∉ loop.m_body
  mem : ∀ x, x ∈ collected.m_body ↔ MemLoop graph.Edge 0 loop.m_header x

theorem backEdge_iff (ha : Analysed dominates graph) {a h : BlockIndex} :
    graph.Edge a h ∧ dominates h a = true ↔ BackEdge graph.Edge 0 a h := by
  refine and_congr_right fun hedge => ?_
  exact ha.dominates h a (ha.successors a h hedge) (Graph.block_of_edge hedge)

/-- **The body of a loop**, from the sources of the back edges to its header. -/
theorem collectBody_spec (ha : Analysed dominates graph) {loop : NaturalLoop} (hne : loop.m_body ≠ [])
    (hstart : ∀ a, a ∈ loop.m_body ↔ BackEdge graph.Edge 0 a loop.m_header) :
    ∃ collected, collectBody graph loop = some collected ∧ Collected graph loop collected := by
  have hinit : Searching graph loop.m_header loop.m_body []
      ⟨loop.m_body, loop.m_body, loop.m_body.toFinset⟩ := by
    refine ⟨(List.append_nil _).symm, List.nodup_nil, nofun, fun x => List.mem_toFinset, fun x hx => hx, fun x hx => ?_,
      fun y hy hnot => absurd hy hnot, fun x hx => ?_⟩
    · exact Graph.block_of_edge ((hstart x).1 hx).1
    · by_cases hheader : x = loop.m_header
      · exact .inl hheader
      · exact .inr ⟨x, hx, Avoids.refl hheader⟩
  have hturns : loop.m_body.length + (graph.numBlocks - ([] : List BlockIndex).length) <
      loop.size + graph.numBlocks + 1 := by
    show loop.m_body.length + (graph.numBlocks - 0) < loop.m_body.length + graph.numBlocks + 1
    omega
  obtain ⟨added, body, hcollect, h⟩ := collect_spec ha hinit hturns
  have hbody : body = loop.m_body ++ added := h.body
  have hclosed : ∀ x y, graph.Edge x y → y ∈ body → y ≠ loop.m_header → x ∈ body := fun x y hedge hy hyne =>
    h.done y hy List.not_mem_nil hyne x hedge
  refine ⟨{ loop with m_body := body }, by rw [collectBody, hcollect]; rfl, rfl, ⟨added, hbody, h.nodup, h.new⟩, fun x => ?_⟩
  constructor
  · intro hx
    rcases h.reaches x hx with hheader | ⟨a, hastart, hpath⟩
    · exact .inl hheader
    · exact .inr ⟨a, (hstart a).1 hastart, hpath⟩
  · rintro (rfl | ⟨a, hback, -, hpath⟩)
    · -- the search goes on to the header, which every source is reached through
      obtain ⟨a, hastart⟩ := List.exists_mem_of_ne_nil _ hne
      have hback := (hstart a).1 hastart
      exact header_of_closed (P := (· ∈ body)) (ha.reachable a (Graph.block_of_edge hback.1)) hback
        (hbody ▸ List.mem_append_left _ hastart) hclosed
    · have hin : a ∈ body := hbody ▸ List.mem_append_left _ ((hstart a).2 hback)
      induction hpath using Relation.ReflTransGen.head_induction_on with
      | refl => exact hin
      | head hfirst _ ih => exact hclosed _ _ hfirst.1 ih hfirst.2.2

/-! ## The loops with their bodies -/

/-- No block has two edges to a header that dominates it. -/
def SingleBackEdges (dominates : BlockIndex → BlockIndex → Bool) (graph : Graph) : Prop :=
  ∀ a b h, graph.block a = some b → dominates h a = true → b.successors.count h ≤ 1

theorem sources_block (h i : BlockIndex) (successors : List BlockIndex) :
    sources dominates (successors.reverse.map fun j => (i, j)) h =
      List.replicate (if dominates h i = true then successors.count h else 0) i := by
  rw [← List.count_reverse]
  induction successors.reverse with
  | nil => simp [sources]
  | cons j js ih =>
    rw [sources] at ih ⊢
    rw [List.map_cons, List.filter_cons, List.count_cons]
    by_cases hj : j = h <;> cases hd : dominates h i <;> simp_all [List.replicate_succ]

/-- **The sources of the back edges to a header are different**, if no block has two of them. -/
theorem sources_nodup {h : BlockIndex} : (sources dominates (visitedEdges graph) h).Nodup ↔
    ∀ a b, graph.block a = some b → dominates h a = true → b.successors.count h ≤ 1 := by
  have hsources : sources dominates (visitedEdges graph) h = (List.range graph.numBlocks).reverse.flatMap fun i =>
      (graph.block i).elim [] fun b => List.replicate (if dominates h i = true then b.successors.count h else 0) i := by
    rw [sources, visitedEdges, List.filter_flatMap, List.map_flatMap]
    refine List.flatMap_congr fun i _ => ?_
    cases graph.block i with
    | none => rfl
    | some b => exact sources_block h i b.successors
  have hmem : ∀ i j, j ∈ (graph.block i).elim []
      (fun b => List.replicate (if dominates h i = true then b.successors.count h else 0) i) → j = i := by
    intro i j hj
    cases hb : graph.block i with
    | none => exact absurd (hb ▸ hj) List.not_mem_nil
    | some b =>
      rw [hb] at hj
      exact List.eq_of_mem_replicate hj
  rw [hsources, List.nodup_flatMap]
  constructor
  · rintro ⟨hnodup, -⟩ a b hb hd
    have hlt : a < graph.numBlocks := Graph.lt_of_block (by rw [hb]; rfl)
    have ha := hnodup a (List.mem_reverse.2 (List.mem_range.2 hlt))
    rwa [hb, Option.elim_some, if_pos hd, List.nodup_replicate] at ha
  · intro hsingle
    refine ⟨fun i _ => ?_, ?_⟩
    · cases hb : graph.block i with
      | none => exact List.nodup_nil
      | some b =>
        rw [Option.elim_some, List.nodup_replicate]
        split_ifs with hd
        · exact hsingle i b hb hd
        · exact Nat.zero_le 1
    · refine (List.nodup_reverse.2 List.nodup_range).imp ?_
      intro i j hij x hxi hxj
      exact hij ((hmem i x hxi).symm.trans (hmem j x hxj))

/-- One loop for each target of a back edge, with the blocks of its natural loop. -/
structure Found (dominates : BlockIndex → BlockIndex → Bool) (graph : Graph) (loops : List NaturalLoop) : Prop where
  headers : (loops.map NaturalLoop.m_header).Nodup
  mem_headers : ∀ h, h ∈ loops.map NaturalLoop.m_header ↔ ∃ a, BackEdge graph.Edge 0 a h
  mem_body : ∀ loop ∈ loops, ∀ x, x ∈ loop.m_body ↔ MemLoop graph.Edge 0 loop.m_header x
  nodup : (∀ loop ∈ loops, loop.m_body.Nodup) ↔ SingleBackEdges dominates graph

/-- **The loops that are found**, after their bodies are collected. -/
theorem found (ha : Analysed dominates graph) :
    ∃ loops, (bootstrap dominates graph).mapM (collectBody graph) = some loops ∧ Found dominates graph loops := by
  have hboot : Bootstrapped dominates (visitedEdges graph) (bootstrap dominates graph) := bootstrap_spec
  have hback : ∀ a h, a ∈ sources dominates (visitedEdges graph) h ↔ BackEdge graph.Edge 0 a h := fun a h =>
    mem_sources.trans (backEdge_iff ha)
  obtain ⟨loops, hloops, hall⟩ := exists_mapM_eq_some (l := bootstrap dominates graph) (f := collectBody graph)
    (R := Collected graph) fun loop hloop => by
      refine collectBody_spec ha ?_ fun a => ?_
      · rw [hboot.body loop hloop]
        exact (hboot.mem_headers _).1 (List.mem_map_of_mem hloop)
      · rw [hboot.body loop hloop]
        exact hback a loop.m_header
  have hheaders : loops.map NaturalLoop.m_header = (bootstrap dominates graph).map NaturalLoop.m_header := by
    clear hloops hboot
    generalize bootstrap dominates graph = first at hall ⊢
    induction hall with
    | nil => rfl
    | cons h _ ih => rw [List.map_cons, List.map_cons, h.header, ih]
  have hmem : ∀ h, h ∈ loops.map NaturalLoop.m_header ↔ ∃ a, BackEdge graph.Edge 0 a h := by
    intro h
    rw [hheaders, hboot.mem_headers]
    constructor
    · intro hne
      obtain ⟨a, hasource⟩ := List.exists_mem_of_ne_nil _ hne
      exact ⟨a, (hback a h).1 hasource⟩
    · rintro ⟨a, hedge⟩
      exact List.ne_nil_of_mem ((hback a h).2 hedge)
  have hfrom : ∀ loop ∈ loops, ∃ first ∈ bootstrap dominates graph, Collected graph first loop := by
    intro loop hloop
    obtain ⟨i, hi⟩ := List.mem_iff_getElem?.1 hloop
    obtain ⟨first, hfirst, hcollected⟩ := forall₂_getElem? hall.flip hi
    exact ⟨first, List.mem_of_getElem? hfirst, hcollected⟩
  have hbody : ∀ loop ∈ loops, loop.m_body.Nodup ↔ (sources dominates (visitedEdges graph) loop.m_header).Nodup := by
    intro loop hloop
    obtain ⟨first, hfirst, h⟩ := hfrom loop hloop
    obtain ⟨added, heq, hnodup, hnew⟩ := h.body
    rw [heq, h.header, ← hboot.body first hfirst]
    refine ⟨fun hboth => (List.nodup_append.1 hboth).1, fun hstart => List.nodup_append.2 ⟨hstart, hnodup, ?_⟩⟩
    rintro x hx _ hadded rfl
    exact hnew x hadded hx
  refine ⟨loops, hloops, hheaders ▸ hboot.headers, hmem, fun loop hloop x => ?_, ?_⟩
  · obtain ⟨first, -, h⟩ := hfrom loop hloop
    rw [h.mem, h.header]
  · constructor
    · intro hnodup a b h hb hd
      by_cases hcount : b.successors.count h = 0
      · omega
      · have hin : h ∈ b.successors := List.count_pos_iff.1 (Nat.pos_of_ne_zero hcount)
        have hheader : h ∈ loops.map NaturalLoop.m_header := (hmem h).2 ⟨a, (backEdge_iff ha).1 ⟨⟨b, hb, hin⟩, hd⟩⟩
        obtain ⟨loop, hloop, rfl⟩ := List.mem_map.1 hheader
        exact sources_nodup.1 ((hbody loop hloop).1 (hnodup loop hloop)) a b hb hd
    · exact fun hsingle loop hloop => (hbody loop hloop).2 (sources_nodup.2 fun a b hb hd => hsingle a b _ hb hd)

end NaturalLoops

end WebKit.JSC.DFG
