import Mathlib.Data.Finset.Card
import WebKit.JSC.DFGNaturalLoopsNesting

/-!
# The natural loops are exact

`Exact` says what the analysis is for: one natural loop for each target of a back edge, bodies without repetitions, and
indices that follow the nesting. The walk outwards from a block then ends and lists the loops of the block
(`loopsFrom_spec`). The analysis is exact if no block has two edges to a header that dominates it, and only then
(`natural_loops_exact`): a block with two such edges is put into the body twice.
-/

namespace WebKit.JSC.DFG

open WebKit.Lib

variable {dominates : BlockIndex → BlockIndex → Bool} {graph : Graph}

namespace NaturalLoops

def Contains (loops : NaturalLoops) (i : Nat) (b : BlockIndex) : Prop := HasBlock loops.m_loops b i

/-- The body of one loop is strictly contained in that of another. -/
def Inside (loops : NaturalLoops) (i j : Nat) : Prop :=
  (∀ x, loops.Contains i x → loops.Contains j x) ∧ ∃ x, loops.Contains j x ∧ ¬ loops.Contains i x

/-- The loops are the natural loops of the graph, and the indices follow their nesting. -/
structure Exact (graph : Graph) (loops : NaturalLoops) : Prop where
  headers : (loops.m_loops.map NaturalLoop.m_header).Nodup
  mem_headers : ∀ h, h ∈ loops.m_loops.map NaturalLoop.m_header ↔ ∃ a, BackEdge graph.Edge 0 a h
  mem_body : ∀ loop ∈ loops.m_loops, ∀ x, x ∈ loop.m_body ↔ MemLoop graph.Edge 0 loop.m_header x
  nodup : ∀ loop ∈ loops.m_loops, loop.m_body.Nodup
  innerMost : ∀ b, Least loops.Inside (fun i => loops.Contains i b) (loops.innerMostLoopOf b)
  outer : ∀ i, i < loops.m_loops.length → Least loops.Inside (loops.Inside i) (loops.innerMostOuterLoop i)
  loopsOf : ∀ b, ∃ is, loops.loopsOf b = some is ∧ (∀ i, i ∈ is ↔ loops.Contains i b) ∧ is.Pairwise loops.Inside

/-! ## The walk outwards -/

theorem Inside.trans {loops : NaturalLoops} {i j k : Nat} (hij : loops.Inside i j) (hjk : loops.Inside j k) :
    loops.Inside i k := by
  obtain ⟨x, hx, hnot⟩ := hjk.2
  exact ⟨fun y hy => hjk.1 y (hij.1 y hy), x, hx, fun hin => hnot (hij.1 x hin)⟩

theorem Inside.ne {loops : NaturalLoops} {i j : Nat} (hij : loops.Inside i j) : j ≠ i := by
  rintro rfl
  obtain ⟨x, hx, hnot⟩ := hij.2
  exact hnot hx

/-- **The walk lists all loops with the property**, if with a loop all loops around it have the property. -/
theorem loopsFrom_spec {loops : NaturalLoops}
    (houter : ∀ i, i < loops.m_loops.length → Least loops.Inside (loops.Inside i) (loops.innerMostOuterLoop i))
    {turns : Nat} {P : Nat → Prop} {o : Option Nat} {s : Finset Nat} (ho : Least loops.Inside P o)
    (hup : ∀ i j, P i → loops.Inside i j → P j) (hlt : ∀ i, P i → i < loops.m_loops.length) (hs : ∀ i, P i → i ∈ s)
    (hcard : s.card ≤ turns) : ∃ is, loops.loopsFrom turns o = some is ∧ (∀ i, i ∈ is ↔ P i) ∧ is.Pairwise loops.Inside := by
  induction turns generalizing P o s with
  | zero =>
    cases o with
    | none => exact ⟨[], rfl, fun i => ⟨fun hi => absurd hi List.not_mem_nil, fun hi => absurd hi (ho i)⟩, .nil⟩
    | some i => exact absurd (Finset.card_pos.2 ⟨i, hs i ho.1⟩) (Nat.not_lt.2 hcard)
  | succ turns ih =>
    cases o with
    | none => exact ⟨[], rfl, fun i => ⟨fun hi => absurd hi List.not_mem_nil, fun hi => absurd hi (ho i)⟩, .nil⟩
    | some i =>
      obtain ⟨hi, hfirst⟩ := ho
      have hinside : ∀ j, loops.Inside i j ↔ P j ∧ j ≠ i := fun j =>
        ⟨fun hin => ⟨hup i j hi hin, hin.ne⟩, fun hj => hfirst j hj.1 hj.2⟩
      obtain ⟨is, heq, hmem, hpairwise⟩ := ih (P := loops.Inside i) (s := s.erase i) (houter i (hlt i hi))
        (fun j k hij hjk => hij.trans hjk) (fun j hij => hlt j (hup i j hi hij))
        (fun j hij => Finset.mem_erase.2 ⟨hij.ne, hs j (hup i j hi hij)⟩) (by
          rw [Finset.card_erase_of_mem (hs i hi)]
          omega)
      refine ⟨i :: is, ?_, fun j => ?_, List.pairwise_cons.2 ⟨fun j hj => (hmem j).1 hj, hpairwise⟩⟩
      · rw [loopsFrom, heq]
        rfl
      · rw [List.mem_cons, hmem, hinside]
        constructor
        · rintro (rfl | hj)
          · exact hi
          · exact hj.1
        · intro hj
          by_cases hji : j = i
          · exact .inl hji
          · exact .inr ⟨hj, hji⟩

/-! ## The parents -/

/-- The parent of a loop is set, and the loop keeps its header and its body. -/
structure Parented (innerMost : BlockIndex → List (Option Nat)) (p : NaturalLoop × Nat) (loop : NaturalLoop) : Prop where
  header : loop.m_header = p.1.m_header
  body : loop.m_body = p.1.m_body
  outer : innerMost p.1.m_header = [some p.2, loop.m_outerLoopIndex]

/-- **The analysis does not stop** at the `RELEASE_ASSERT`. -/
theorem compute_spec (ha : Analysed dominates graph) {found : List NaturalLoop}
    (hfound : (bootstrap dominates graph).mapM (collectBody graph) = some found) (h : Found dominates graph found)
    (hnodup : ∀ loop ∈ found, loop.m_body.Nodup) : ∃ loops, compute dominates graph = some loops ∧
      loops.innerMostLoopIndices = computeInnerMost found ∧
      List.Forall₂ (Parented (computeInnerMost found)) found.zipIdx loops.m_loops := by
  obtain ⟨loops, hloops, hall⟩ := exists_mapM_eq_some (l := found.zipIdx)
    (f := fun p => setOuterLoop (computeInnerMost found) p.2 p.1) (R := Parented (computeInnerMost found)) (by
      rintro ⟨loop, i⟩ hmem
      have hi : found[i]? = some loop := List.mem_zipIdx_iff_getElem?.1 hmem
      obtain ⟨outer, heq, -⟩ := h.innerMost_header ha hnodup hi
      refine ⟨{ loop with m_outerLoopIndex := outer }, ?_, rfl, rfl, heq⟩
      rw [setOuterLoop, heq]
      exact if_pos rfl)
  refine ⟨⟨loops, computeInnerMost found⟩, ?_, rfl, hall⟩
  rw [compute, hfound]
  exact Option.bind_eq_some_iff.2 ⟨found, rfl, Option.bind_eq_some_iff.2 ⟨loops, hloops, rfl⟩⟩

theorem getElem?_of_parented {innerMost : BlockIndex → List (Option Nat)} {found loops : List NaturalLoop}
    (h : List.Forall₂ (Parented innerMost) found.zipIdx loops) {i : Nat} {loop : NaturalLoop} (hi : loops[i]? = some loop) :
    ∃ first, found[i]? = some first ∧ Parented innerMost (first, i) loop := by
  obtain ⟨⟨first, k⟩, hfirst, hparented⟩ := forall₂_getElem? h.flip hi
  rw [List.getElem?_zipIdx, Option.map_eq_some_iff] at hfirst
  obtain ⟨first', hfirst', heq⟩ := hfirst
  obtain ⟨rfl, rfl⟩ := Prod.mk.inj heq
  rw [Nat.zero_add] at hparented
  exact ⟨first', hfirst', hparented⟩

theorem length_of_parented {innerMost : BlockIndex → List (Option Nat)} {found loops : List NaturalLoop}
    (h : List.Forall₂ (Parented innerMost) found.zipIdx loops) : loops.length = found.length := by
  rw [← h.length_eq, List.length_zipIdx]

section
variable {found : List NaturalLoop} {loops : NaturalLoops} {i j : Nat} {loop other : NaturalLoop} {b : BlockIndex}

theorem contains_iff (h : List.Forall₂ (Parented (computeInnerMost found)) found.zipIdx loops.m_loops) :
    loops.Contains i b ↔ HasBlock found b i := by
  constructor
  · rintro ⟨loop, hi, hb⟩
    obtain ⟨first, hfirst, hparented⟩ := getElem?_of_parented h hi
    exact ⟨first, hfirst, hparented.body ▸ hb⟩
  · rintro ⟨first, hfirst, hb⟩
    have hzip : found.zipIdx[i]? = some (first, i) := by
      rw [List.getElem?_zipIdx, hfirst, Nat.zero_add]
      rfl
    obtain ⟨loop, hi, hparented⟩ := forall₂_getElem? h hzip
    exact ⟨loop, hi, hparented.body.symm ▸ hb⟩

theorem inside_iff (h : List.Forall₂ (Parented (computeInnerMost found)) found.zipIdx loops.m_loops)
    (hi : found[i]? = some loop) : loops.Inside i j ↔ ∃ other, found[j]? = some other ∧ StrictlyInside loop other := by
  have hcontains : ∀ x, HasBlock found x i ↔ x ∈ loop.m_body := fun x =>
    ⟨fun ⟨_, hi', hx⟩ => Option.some.inj (hi'.symm.trans hi) ▸ hx, fun hx => ⟨loop, hi, hx⟩⟩
  simp only [Inside, contains_iff h, hcontains]
  constructor
  · rintro ⟨hsubset, x, ⟨other, hj, hx⟩, hnot⟩
    refine ⟨other, hj, fun y hy => ?_, x, hx, hnot⟩
    obtain ⟨other', hj', hy'⟩ := hsubset y hy
    exact Option.some.inj (hj'.symm.trans hj) ▸ hy'
  · rintro ⟨other, hj, hsubset, x, hx, hnot⟩
    exact ⟨fun y hy => ⟨other, hj, hsubset y hy⟩, x, ⟨other, hj, hx⟩, hnot⟩

theorem inside_of_size_lt (ha : Analysed dominates graph) (hf : Found dominates graph found)
    (hnodup : ∀ loop ∈ found, loop.m_body.Nodup)
    (h : List.Forall₂ (Parented (computeInnerMost found)) found.zipIdx loops.m_loops) (hi : HasBlock found b i)
    (hj : HasBlock found b j) (hlt : sizeOf found i < sizeOf found j) : loops.Inside i j := by
  obtain ⟨loop, hi, hb⟩ := hi
  obtain ⟨other, hj, hb'⟩ := hj
  exact (inside_iff h hi).2 ⟨other, hj, hf.inside_of_lt ha hnodup hi hj hb hb' hlt⟩

theorem innerMostOuterLoop_spec (ha : Analysed dominates graph) (hf : Found dominates graph found)
    (hnodup : ∀ loop ∈ found, loop.m_body.Nodup)
    (h : List.Forall₂ (Parented (computeInnerMost found)) found.zipIdx loops.m_loops) (hi : i < loops.m_loops.length) :
    Least loops.Inside (loops.Inside i) (loops.innerMostOuterLoop i) := by
  have hloop : loops.m_loops[i]? = some loops.m_loops[i] := List.getElem?_eq_getElem hi
  obtain ⟨first, hfirst, hparented⟩ := getElem?_of_parented h hloop
  obtain ⟨outer, heq, hleast⟩ := hf.innerMost_header ha hnodup hfirst
  have houter : loops.innerMostOuterLoop i = outer := by
    rw [innerMostOuterLoop, hloop, Option.bind_some]
    have hpair := hparented.outer.symm.trans heq
    exact (List.cons.inj (List.cons.inj hpair).2).1
  have hself : first.m_header ∈ first.m_body := (hf.mem_body first (List.mem_of_getElem? hfirst) _).2 (.inl rfl)
  have hheader : ∀ j, loops.Inside i j → HasBlock found first.m_header j := by
    intro j hj
    obtain ⟨other, hj, hin⟩ := (inside_iff h hfirst).1 hj
    exact ⟨other, hj, hin.1 _ hself⟩
  rw [houter]
  refine (hleast.congr fun j => (inside_iff h hfirst).symm).mono fun j k hj hk _ hlt => ?_
  exact inside_of_size_lt ha hf hnodup h (hheader j hj) (hheader k hk) hlt

/-- **The result is exact**, if no body has a block twice. -/
theorem exact_of_nodup (ha : Analysed dominates graph) (hf : Found dominates graph found)
    (hnodup : ∀ loop ∈ found, loop.m_body.Nodup) (hindices : loops.innerMostLoopIndices = computeInnerMost found)
    (h : List.Forall₂ (Parented (computeInnerMost found)) found.zipIdx loops.m_loops) : loops.Exact graph := by
  have hheaders : loops.m_loops.map NaturalLoop.m_header = found.map NaturalLoop.m_header := by
    apply List.ext_getElem?
    intro i
    rw [List.getElem?_map, List.getElem?_map]
    cases hi : loops.m_loops[i]? with
    | none =>
      have hge : found[i]? = none := by
        rw [List.getElem?_eq_none_iff] at hi ⊢
        rwa [length_of_parented h] at hi
      rw [hge]
    | some loop =>
      obtain ⟨first, hfirst, hparented⟩ := getElem?_of_parented h hi
      rw [hfirst]
      exact congrArg some hparented.header
  have hfrom : ∀ loop ∈ loops.m_loops, ∃ first ∈ found, loop.m_header = first.m_header ∧ loop.m_body = first.m_body := by
    intro loop hloop
    obtain ⟨i, hi⟩ := List.mem_iff_getElem?.1 hloop
    obtain ⟨first, hfirst, hparented⟩ := getElem?_of_parented h hi
    exact ⟨first, List.mem_of_getElem? hfirst, hparented.header, hparented.body⟩
  have houter : ∀ i, i < loops.m_loops.length → Least loops.Inside (loops.Inside i) (loops.innerMostOuterLoop i) :=
    fun i hi => innerMostOuterLoop_spec ha hf hnodup h hi
  have hinnerMost : ∀ b, Least loops.Inside (fun i => loops.Contains i b) (loops.innerMostLoopOf b) := by
    intro b
    obtain ⟨inner, outer, heq, htwo⟩ := hf.innerMost ha hnodup b
    have hinner : loops.innerMostLoopOf b = inner := by
      rw [innerMostLoopOf, hindices, heq]
      rfl
    rw [hinner]
    refine (htwo.first.congr fun i => (contains_iff h).symm).mono fun i j hi hj _ hlt => ?_
    exact inside_of_size_lt ha hf hnodup h ((contains_iff h).1 hi) ((contains_iff h).1 hj) hlt
  refine ⟨hheaders ▸ hf.headers, fun b => by rw [hheaders]; exact hf.mem_headers b, fun loop hloop x => ?_,
    fun loop hloop => ?_, hinnerMost, houter, fun b => ?_⟩
  · obtain ⟨first, hfirst, hheader, hbody⟩ := hfrom loop hloop
    rw [hheader, hbody]
    exact hf.mem_body first hfirst x
  · obtain ⟨first, hfirst, -, hbody⟩ := hfrom loop hloop
    rw [hbody]
    exact hnodup first hfirst
  · have hlt : ∀ i, loops.Contains i b → i < loops.m_loops.length := fun i ⟨_, hi, _⟩ =>
      (List.getElem?_eq_some_iff.1 hi).1
    exact loopsFrom_spec houter (s := Finset.range loops.m_loops.length) (hinnerMost b)
      (fun i j hi hij => hij.1 b hi) hlt (fun i hi => Finset.mem_range.2 (hlt i hi)) (Finset.card_range _).le

end

theorem bodies_of_compute {found : List NaturalLoop} {loops : NaturalLoops}
    (hfound : (bootstrap dominates graph).mapM (collectBody graph) = some found)
    (h : compute dominates graph = some loops) :
    List.Forall₂ (fun p loop => loop.m_body = p.1.m_body) found.zipIdx loops.m_loops := by
  rw [compute, hfound] at h
  obtain ⟨_, hsome, h⟩ := Option.bind_eq_some_iff.1 h
  obtain rfl := Option.some.inj hsome
  obtain ⟨parented, hparented, h⟩ := Option.bind_eq_some_iff.1 h
  obtain rfl := Option.some.inj h
  refine (forall₂_of_mapM_eq_some hparented).imp ?_
  rintro ⟨loop, i⟩ last hlast
  show last.m_body = loop.m_body
  simp only [setOuterLoop] at hlast
  split at hlast
  · split_ifs at hlast
    obtain rfl := Option.some.inj hlast
    rfl
  · exact nomatch hlast

/-- **The natural loops are exact** if no block has two edges to a header that dominates it, and only then. -/
theorem natural_loops_exact (ha : Analysed dominates graph) :
    (∃ loops, compute dominates graph = some loops ∧ loops.Exact graph) ↔ SingleBackEdges dominates graph := by
  obtain ⟨first, hfirst, hf⟩ := found ha
  constructor
  · rintro ⟨loops, hcompute, hexact⟩
    -- the bodies of the result are those that were collected
    have hall := bodies_of_compute hfirst hcompute
    refine hf.nodup.1 fun loop hloop => ?_
    obtain ⟨i, hi⟩ := List.mem_iff_getElem?.1 hloop
    have hzip : first.zipIdx[i]? = some (loop, i) := by
      rw [List.getElem?_zipIdx, hi, Nat.zero_add]
      rfl
    obtain ⟨last, hlast, hbody⟩ := forall₂_getElem? hall hzip
    rw [← hbody]
    exact hexact.nodup last (List.mem_of_getElem? hlast)
  · intro hsingle
    have hnodup := hf.nodup.2 hsingle
    obtain ⟨loops, hcompute, hindices, hall⟩ := compute_spec ha hfirst hf hnodup
    exact ⟨loops, hcompute, exact_of_nodup ha hf hnodup hindices hall⟩

/-! ## A chain of blocks -/

/-- In a graph whose edges go on by one at most and reach every block, a block dominates those after it. -/
theorem dominates_iff_le {n : Nat} (hedge : ∀ i j : Nat, graph.Edge i j → j ≤ i + 1)
    (hchain : ∀ i : Nat, i + 1 < n → graph.Edge i (i + 1))
    {h x : Nat} (hx : x < n) :
    Dominates graph.Edge 0 h x ↔ h ≤ x := by
  constructor
  · intro hdom
    have havoids : ∀ x, x < n → x < h → Avoids graph.Edge h 0 x := by
      intro x hx hlt
      induction x with
      | zero => exact .refl (Nat.ne_of_lt hlt)
      | succ x ih => exact (ih (Nat.lt_of_succ_lt hx) (Nat.lt_of_succ_lt hlt)).tail (hchain x hx) (Nat.ne_of_lt hlt)
    exact Nat.le_of_not_lt fun hlt => hdom (havoids x hx hlt)
  · rintro hle ⟨hne, hpath⟩
    have hbefore : ∀ y, Relation.ReflTransGen (EdgeAvoiding graph.Edge h) 0 y → y < h := by
      intro y hy
      induction hy with
      | refl => exact Nat.pos_of_ne_zero (Ne.symm hne)
      | @tail y z _ hlast ih =>
        exact Nat.lt_of_le_of_ne ((hedge y z hlast.1).trans ih) hlast.2.2
    exact Nat.not_lt.2 hle (hbefore x hpath)

/-- Four blocks in a row; the third one goes back to itself `selfEdges` times and to the second one once. -/
def nestedLoops (selfEdges : Nat) : Graph :=
  ⟨[some ⟨[1], []⟩, some ⟨[2], [0, 2]⟩, some ⟨List.replicate selfEdges 2 ++ [1, 3], 1 :: List.replicate selfEdges 2⟩,
    some ⟨[], [2]⟩]⟩

theorem nestedLoops_edge {selfEdges i j : Nat} : (nestedLoops selfEdges).Edge i j ↔
    (i = 0 ∧ j = 1) ∨ (i = 1 ∧ j = 2) ∨ (i = 2 ∧ (selfEdges ≠ 0 ∧ j = 2 ∨ j = 1 ∨ j = 3)) := by
  constructor
  · rintro ⟨b, hb, hj⟩
    match i, hb with
    | 0, hb | 1, hb | 2, hb | 3, hb =>
      obtain rfl := Option.some.inj hb
      simpa using hj
  · rintro (⟨rfl, rfl⟩ | ⟨rfl, rfl⟩ | ⟨rfl, hj⟩)
    · exact ⟨_, rfl, by simp⟩
    · exact ⟨_, rfl, by simp⟩
    · refine ⟨_, rfl, ?_⟩
      show j ∈ List.replicate selfEdges 2 ++ [1, 3]
      rw [List.mem_append, List.mem_replicate]
      rcases hj with hj | rfl | rfl
      · exact .inl hj
      · exact .inr (by simp)
      · exact .inr (by simp)

theorem nestedLoops_block {selfEdges i : Nat} : ((nestedLoops selfEdges).block i).isSome = true ↔ i < 4 := by
  match i with
  | 0 | 1 | 2 | 3 => exact iff_of_true rfl (by decide)
  | n + 4 => exact iff_of_false nofun (by omega)

theorem analysed_nestedLoops {selfEdges : Nat} (hself : selfEdges ≠ 0) :
    Analysed (fun i j => decide (i ≤ j)) (nestedLoops selfEdges) := by
  have hchain : ∀ i : Nat, i + 1 < 4 → (nestedLoops selfEdges).Edge i (i + 1) := by
    intro i hi
    rw [nestedLoops_edge]
    omega
  have hreach : ∀ i : Nat, i < 4 → Relation.ReflTransGen (nestedLoops selfEdges).Edge 0 i := by
    intro i hi
    induction i with
    | zero => exact .refl
    | succ i ih => exact (ih (Nat.lt_of_succ_lt hi)).tail (hchain i hi)
  refine ⟨rfl, fun (i j : Nat) hij => ?_, fun j b hb i => ?_, fun i hi => hreach i (nestedLoops_block.1 hi), fun i j _ hj => ?_⟩
  · rw [nestedLoops_edge] at hij
    rw [nestedLoops_block]
    omega
  · rw [nestedLoops_edge]
    match j, hb with
    | 0, hb | 1, hb | 2, hb | 3, hb =>
      obtain rfl := Option.some.inj hb
      simp [hself]
  · rw [decide_eq_true_iff]
    have hj : j < 4 := nestedLoops_block.1 hj
    exact (dominates_iff_le (fun (i j : Nat) hij => by rw [nestedLoops_edge] at hij; omega) hchain hj).symm

/-- A loop around another one, whose block has one edge to itself. -/
theorem natural_loops_exact_nested :
    ∃ loops, compute (fun i j => decide (i ≤ j)) (nestedLoops 1) = some loops ∧ loops.Exact (nestedLoops 1) := by
  refine (natural_loops_exact (analysed_nestedLoops Nat.one_ne_zero)).2 ?_
  intro a b h hb _
  match a, hb with
  | 0, hb | 1, hb | 2, hb | 3, hb =>
    obtain rfl := Option.some.inj hb
    exact List.nodup_iff_count_le_one.1 (by decide) h

/-- With two edges from the block to itself the block is in its own loop twice, and the loop is around itself. -/
theorem natural_loops_inexact : Analysed (fun i j => decide (i ≤ j)) (nestedLoops 2) ∧
    (compute (fun i j => decide (i ≤ j)) (nestedLoops 2)).map (fun loops => (loops.m_loops, loops.loopsOf 2)) =
      some ([⟨1, [2, 1], none⟩, ⟨2, [2, 2], some 1⟩], none) ∧
    ¬ ∃ loops, compute (fun i j => decide (i ≤ j)) (nestedLoops 2) = some loops ∧ loops.Exact (nestedLoops 2) := by
  have hvalue : (compute (fun i j => decide (i ≤ j)) (nestedLoops 2)).map (fun loops => (loops.m_loops, loops.loopsOf 2)) =
      some ([⟨1, [2, 1], none⟩, ⟨2, [2, 2], some 1⟩], none) := by decide
  refine ⟨analysed_nestedLoops (by decide), hvalue, ?_⟩
  rintro ⟨loops, hcompute, hexact⟩
  rw [hcompute, Option.map_some] at hvalue
  obtain ⟨hloops, -⟩ := Prod.mk.inj (Option.some.inj hvalue)
  exact absurd (hexact.nodup ⟨2, [2, 2], some 1⟩ (by rw [hloops]; simp)) (by decide)

end NaturalLoops

end WebKit.JSC.DFG
