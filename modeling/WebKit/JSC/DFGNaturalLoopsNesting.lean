import WebKit.JSC.DFGNaturalLoopsBody

/-!
# The nesting of natural loops

Among the loops that have a block, the pass over all loops leaves the two smallest ones at the block, if no two of them
have one size (`TwoSmallest.enter`, `enterLoops_spec`). Without repeated blocks the sizes follow the nesting, so these are
the two innermost loops, and the first one of a header is its own loop (`innerMost_header`).
-/

namespace WebKit.JSC.DFG

open WebKit.Lib

variable {dominates : BlockIndex → BlockIndex → Bool} {graph : Graph}

namespace NaturalLoops

/-- The index that comes before all others with the property, if there is one. -/
def Least (before : Nat → Nat → Prop) (P : Nat → Prop) : Option Nat → Prop
  | none => ∀ j, ¬ P j
  | some i => P i ∧ ∀ j, P j → j ≠ i → before i j

theorem Least.congr {before : Nat → Nat → Prop} {P Q : Nat → Prop} (hPQ : ∀ j, P j ↔ Q j) {o : Option Nat}
    (h : Least before P o) : Least before Q o := by
  obtain rfl : P = Q := funext fun j => propext (hPQ j)
  exact h

theorem Least.mono {before before' : Nat → Nat → Prop} {P : Nat → Prop} {o : Option Nat} (h : Least before P o)
    (himp : ∀ i j, P i → P j → j ≠ i → before i j → before' i j) : Least before' P o := by
  cases o with
  | none => exact h
  | some i => exact ⟨h.1, fun j hj hne => himp i j h.1 hj hne (h.2 j hj hne)⟩

/-! ## The two smallest loops -/

section
variable {size : Nat → Nat} {P : Nat → Prop} {inner outer : Option Nat} {i : Nat}

/-- The smallest loop with the property, and the smallest one of the others. -/
structure TwoSmallest (size : Nat → Nat) (P : Nat → Prop) (inner outer : Option Nat) : Prop where
  first : Least (fun i j => size i < size j) P inner
  second : Least (fun i j => size i < size j) (fun j => P j ∧ some j ≠ inner) outer

/-- The loop is smaller than the one that is noted, or none is. -/
def smallerThan (size : Nat → Nat) (i : Nat) (o : Option Nat) : Bool := o.all fun j => decide (size i < size j)

theorem enterLoop_pair : enterLoop size i [inner, outer] =
    if smallerThan size i inner then [some i, inner]
    else if smallerThan size i outer then [inner, some i] else [inner, outer] := by
  rw [enterLoop]
  show (match List.findIdx? (smallerThan size i) [inner, outer] with
    | none => [inner, outer]
    | some k => insertIntoBoundedVector [inner, outer] (some i) k) = _
  rw [List.findIdx?_cons, List.findIdx?_cons, List.findIdx?_nil]
  cases smallerThan size i inner <;> cases smallerThan size i outer <;> rfl

theorem exists_of_not_smallerThan {o : Option Nat} (hsmaller : smallerThan size i o = false)
    (hne : ∀ j, o = some j → size i ≠ size j) : ∃ j, o = some j ∧ size j < size i := by
  cases o with
  | none => exact nomatch hsmaller
  | some j =>
    have hnot : ¬ size i < size j := of_decide_eq_false hsmaller
    exact ⟨j, rfl, Nat.lt_of_le_of_ne (Nat.le_of_not_lt hnot) (hne j rfl).symm⟩

theorem Least.lt_of_smallerThan {o : Option Nat} (h : Least (fun i j => size i < size j) P o)
    (hsmaller : smallerThan size i o = true) {j : Nat} (hj : P j) : size i < size j := by
  cases o with
  | none => exact absurd hj (h j)
  | some k =>
    have hlt : size i < size k := of_decide_eq_true hsmaller
    by_cases hjk : j = k
    · exact hjk ▸ hlt
    · exact hlt.trans (h.2 j hj hjk)

/-- **One more loop** is entered. -/
theorem TwoSmallest.enter (h : TwoSmallest size P inner outer) (hi : ¬ P i) (hne : ∀ j, P j → size i ≠ size j) :
    ∃ inner' outer', enterLoop size i [inner, outer] = [inner', outer'] ∧
      TwoSmallest size (fun j => P j ∨ j = i) inner' outer' := by
  have hinner : ∀ j, inner = some j → P j := by
    rintro j rfl
    exact h.first.1
  have houter : ∀ j, outer = some j → P j ∧ some j ≠ inner := by
    rintro j rfl
    exact h.second.1
  rw [enterLoop_pair]
  split_ifs with hfirst hsecond
  · -- the loop is the smallest one, and the one that was is the second
    refine ⟨_, _, rfl, ⟨.inr rfl, ?_⟩, ?_⟩
    · rintro j (hj | rfl) hji
      · exact h.first.lt_of_smallerThan hfirst hj
      · exact absurd rfl hji
    · refine h.first.congr fun j => ?_
      constructor
      · intro hj
        refine ⟨.inl hj, fun heq => ?_⟩
        obtain rfl := Option.some.inj heq
        exact hi hj
      · rintro ⟨hj | rfl, hnot⟩
        · exact hj
        · exact absurd rfl hnot
  · obtain ⟨k, rfl, hk⟩ := exists_of_not_smallerThan (Bool.eq_false_iff.2 hfirst) fun j hj => hne j (hinner j hj)
    have hik : some i ≠ some k := by
      intro heq
      obtain rfl := Option.some.inj heq
      exact hi h.first.1
    refine ⟨_, _, rfl, ⟨.inl h.first.1, ?_⟩, ⟨.inr rfl, hik⟩, ?_⟩
    · rintro j (hj | rfl) hjk
      · exact h.first.2 j hj hjk
      · exact hk
    · rintro j ⟨hj | rfl, hjk⟩ hji
      · exact h.second.lt_of_smallerThan hsecond ⟨hj, hjk⟩
      · exact absurd rfl hji
  · obtain ⟨k, rfl, hk⟩ := exists_of_not_smallerThan (Bool.eq_false_iff.2 hfirst) fun j hj => hne j (hinner j hj)
    obtain ⟨m, rfl, hm⟩ := exists_of_not_smallerThan (Bool.eq_false_iff.2 hsecond) fun j hj => hne j (houter j hj).1
    refine ⟨_, _, rfl, ⟨.inl h.first.1, ?_⟩, ⟨.inl h.second.1.1, h.second.1.2⟩, ?_⟩
    · rintro j (hj | rfl) hjk
      · exact h.first.2 j hj hjk
      · exact hk
    · rintro j ⟨hj | rfl, hjk⟩ hjm
      · exact h.second.2 j ⟨hj, hjk⟩ hjm
      · exact hm

end

theorem enterBlocks_apply (size : Nat → Nat) (i : Nat) {body : List BlockIndex} (hnodup : body.Nodup)
    (innerMost : BlockIndex → List (Option Nat)) (b : BlockIndex) : enterBlocks size i body innerMost b =
      if b ∈ body then enterLoop size i (innerMost b) else innerMost b := by
  have hnodup' : body.reverse.Nodup := List.nodup_reverse.2 hnodup
  have hmem : b ∈ body ↔ b ∈ body.reverse := List.mem_reverse.symm
  simp only [enterBlocks, hmem]
  generalize body.reverse = blocks at hnodup'
  induction blocks generalizing innerMost with
  | nil => rw [List.foldl_nil, if_neg List.not_mem_nil]
  | cons x blocks ih =>
    obtain ⟨hx, hblocks⟩ := List.nodup_cons.1 hnodup'
    rw [List.foldl_cons, ih _ hblocks]
    by_cases hbx : b = x
    · subst hbx
      rw [if_neg hx, if_pos List.mem_cons_self, Function.update_self]
    · rw [Function.update_of_ne hbx]
      simp only [List.mem_cons, hbx, false_or]

/-- **After some loops** a block has the two smallest of those that it is in. -/
theorem enterLoops_spec {size : Nat → Nat} {body : Nat → List BlockIndex} (hnodup : ∀ i, (body i).Nodup)
    {b : BlockIndex} (hne : ∀ i j, i ≠ j → b ∈ body i → b ∈ body j → size i ≠ size j) {is : List Nat} (his : is.Nodup) :
    ∃ inner outer, is.foldl (fun innerMost i => enterBlocks size i (body i) innerMost)
        (fun _ => List.replicate numberOfInnerMostLoopIndices none) b = [inner, outer] ∧
      TwoSmallest size (fun j => j ∈ is ∧ b ∈ body j) inner outer := by
  induction is using List.reverseRecOn with
  | nil => exact ⟨none, none, rfl, fun j hj => List.not_mem_nil hj.1, fun j hj => List.not_mem_nil hj.1.1⟩
  | append_singleton is i ih =>
    obtain ⟨his, -, hdisjoint⟩ := List.nodup_append.1 his
    have hi : i ∉ is := fun hin => hdisjoint i hin i (List.mem_singleton_self i) rfl
    obtain ⟨inner, outer, heq, h⟩ := ih his
    rw [List.foldl_append, List.foldl_cons, List.foldl_nil, enterBlocks_apply size i (hnodup i), heq]
    split_ifs with hb
    · obtain ⟨inner', outer', heq', h'⟩ := h.enter (i := i) (fun hP => hi hP.1) fun j hj =>
        hne i j (fun heq => hi (heq ▸ hj.1)) hb hj.2
      have hiff : ∀ j, (j ∈ is ∧ b ∈ body j) ∨ j = i ↔ j ∈ is ++ [i] ∧ b ∈ body j := by
        intro j
        rw [List.mem_append, List.mem_singleton]
        constructor
        · rintro (⟨hj, hbj⟩ | rfl)
          · exact ⟨.inl hj, hbj⟩
          · exact ⟨.inr rfl, hb⟩
        · rintro ⟨hj | rfl, hbj⟩
          · exact .inl ⟨hj, hbj⟩
          · exact .inr rfl
      exact ⟨inner', outer', heq', h'.first.congr hiff, h'.second.congr fun j => and_congr_left fun _ => hiff j⟩
    · have hiff : ∀ j, j ∈ is ∧ b ∈ body j ↔ j ∈ is ++ [i] ∧ b ∈ body j := by
        intro j
        rw [List.mem_append, List.mem_singleton]
        refine ⟨fun hj => ⟨.inl hj.1, hj.2⟩, ?_⟩
        rintro ⟨hj | rfl, hbj⟩
        · exact ⟨hj, hbj⟩
        · exact absurd hbj hb
      exact ⟨inner, outer, rfl, h.first.congr hiff, h.second.congr fun j => and_congr_left fun _ => hiff j⟩

/-! ## Sizes and nesting -/

/-- The blocks of one loop are some of the blocks of another. -/
def StrictlyInside (inner outer : NaturalLoop) : Prop :=
  (∀ x ∈ inner.m_body, x ∈ outer.m_body) ∧ ∃ x ∈ outer.m_body, x ∉ inner.m_body

theorem StrictlyInside.size_lt {inner outer : NaturalLoop} (h : StrictlyInside inner outer)
    (hnodup : inner.m_body.Nodup) : inner.size < outer.size := by
  obtain ⟨hsubset, x, hx, hnot⟩ := h
  have hcons : (x :: inner.m_body).Nodup := List.nodup_cons.2 ⟨hnot, hnodup⟩
  have hle : (x :: inner.m_body).length ≤ outer.m_body.length :=
    (hcons.subperm (List.cons_subset.2 ⟨hx, fun y hy => hsubset y hy⟩)).length_le
  exact hle

theorem isSome_of_memLoop (ha : Analysed dominates graph) {h x : BlockIndex}
    (hheader : ∃ a, BackEdge graph.Edge 0 a h) (hx : MemLoop graph.Edge 0 h x) : (graph.block x).isSome = true := by
  rcases hx with rfl | ⟨a, hback, -, hpath⟩
  · obtain ⟨a, hback⟩ := hheader
    exact ha.successors a x hback.1
  · rcases hpath.cases_head with rfl | ⟨y, hxy, -⟩
    · exact Graph.block_of_edge hback.1
    · exact Graph.block_of_edge hxy.1

section
variable {loops : List NaturalLoop} {i j : Nat} {loop other : NaturalLoop} {b : BlockIndex}

theorem Found.header_ne (h : Found dominates graph loops) (hi : loops[i]? = some loop) (hj : loops[j]? = some other)
    (hij : i ≠ j) : loop.m_header ≠ other.m_header := by
  intro heq
  have hlt : i < (loops.map NaturalLoop.m_header).length := by
    rw [List.length_map]
    exact (List.getElem?_eq_some_iff.1 hi).1
  refine hij ((List.getElem?_inj hlt h.headers).1 ?_)
  rw [List.getElem?_map, List.getElem?_map, hi, hj]
  exact congrArg some heq

/-- **Two loops that share a block**: one is inside the other, and does not have the header of that. -/
theorem Found.nested (ha : Analysed dominates graph) (h : Found dominates graph loops) (hi : loops[i]? = some loop)
    (hj : loops[j]? = some other) (hij : i ≠ j) (hb : b ∈ loop.m_body) (hb' : b ∈ other.m_body) :
    (StrictlyInside loop other ∧ other.m_header ∉ loop.m_body) ∨
      (StrictlyInside other loop ∧ loop.m_header ∉ other.m_body) := by
  have hmem := h.mem_body loop (List.mem_of_getElem? hi)
  have hmem' := h.mem_body other (List.mem_of_getElem? hj)
  have hheader : ∃ a, BackEdge graph.Edge 0 a loop.m_header :=
    (h.mem_headers _).1 (List.mem_map_of_mem (List.mem_of_getElem? hi))
  have hreach := ha.reachable b (isSome_of_memLoop ha hheader ((hmem b).1 hb))
  have hself : loop.m_header ∈ loop.m_body := (hmem _).2 (.inl rfl)
  have hself' : other.m_header ∈ other.m_body := (hmem' _).2 (.inl rfl)
  rcases loop_nested (h.header_ne hi hj hij).symm hreach ((hmem' b).1 hb') ((hmem b).1 hb) with
    ⟨hsubset, hnot⟩ | ⟨hsubset, hnot⟩
  · have hout : other.m_header ∉ loop.m_body := fun hin => hnot ((hmem _).1 hin)
    exact .inl ⟨⟨fun x hx => (hmem' x).2 (hsubset x ((hmem x).1 hx)), _, hself', hout⟩, hout⟩
  · have hout : loop.m_header ∉ other.m_body := fun hin => hnot ((hmem' _).1 hin)
    exact .inr ⟨⟨fun x hx => (hmem x).2 (hsubset x ((hmem' x).1 hx)), _, hself, hout⟩, hout⟩

theorem sizeOf_eq (hi : loops[i]? = some loop) : sizeOf loops i = loop.size := by
  rw [sizeOf, hi]
  rfl

def HasBlock (loops : List NaturalLoop) (b : BlockIndex) (i : Nat) : Prop :=
  ∃ loop, loops[i]? = some loop ∧ b ∈ loop.m_body

theorem Found.inside_of_lt (ha : Analysed dominates graph) (h : Found dominates graph loops)
    (hnodup : ∀ loop ∈ loops, loop.m_body.Nodup) (hi : loops[i]? = some loop) (hj : loops[j]? = some other)
    (hb : b ∈ loop.m_body) (hb' : b ∈ other.m_body) (hlt : sizeOf loops i < sizeOf loops j) :
    StrictlyInside loop other := by
  have hij : i ≠ j := by
    rintro rfl
    exact Nat.lt_irrefl _ hlt
  rw [sizeOf_eq hi, sizeOf_eq hj] at hlt
  rcases h.nested ha hi hj hij hb hb' with ⟨hin, -⟩ | ⟨hin, -⟩
  · exact hin
  · exact absurd (hin.size_lt (hnodup other (List.mem_of_getElem? hj))) (Nat.lt_asymm hlt)

/-- **The two innermost loops of a block**, by size. -/
theorem Found.innerMost (ha : Analysed dominates graph) (h : Found dominates graph loops)
    (hnodup : ∀ loop ∈ loops, loop.m_body.Nodup) (b : BlockIndex) : ∃ inner outer,
    computeInnerMost loops b = [inner, outer] ∧ TwoSmallest (sizeOf loops) (HasBlock loops b) inner outer := by
  have hmem : ∀ i, b ∈ (loops[i]?).elim [] NaturalLoop.m_body ↔ HasBlock loops b i := by
    intro i
    cases hi : loops[i]? with
    | none => exact ⟨fun hb => absurd hb List.not_mem_nil, fun ⟨_, hi', _⟩ => nomatch hi.symm.trans hi'⟩
    | some loop => exact ⟨fun hb => ⟨loop, hi, hb⟩, fun ⟨_, hi', hb⟩ => Option.some.inj (hi.symm.trans hi') ▸ hb⟩
  have hbodies : ∀ i : Nat, ((loops[i]?).elim [] NaturalLoop.m_body).Nodup := by
    intro i
    cases hi : loops[i]? with
    | none => exact List.nodup_nil
    | some loop => exact hnodup loop (List.mem_of_getElem? hi)
  have hne : ∀ i j : Nat, i ≠ j → b ∈ (loops[i]?).elim [] NaturalLoop.m_body → b ∈ (loops[j]?).elim [] NaturalLoop.m_body →
      sizeOf loops i ≠ sizeOf loops j := by
    intro i j hij hbi hbj
    obtain ⟨loop, hi, hb⟩ := (hmem i).1 hbi
    obtain ⟨other, hj, hb'⟩ := (hmem j).1 hbj
    rw [sizeOf_eq hi, sizeOf_eq hj]
    rcases h.nested ha hi hj hij hb hb' with ⟨hin, -⟩ | ⟨hin, -⟩
    · exact Nat.ne_of_lt (hin.size_lt (hnodup loop (List.mem_of_getElem? hi)))
    · exact (Nat.ne_of_lt (hin.size_lt (hnodup other (List.mem_of_getElem? hj)))).symm
  obtain ⟨inner, outer, heq, htwo⟩ := enterLoops_spec hbodies hne (List.nodup_reverse.2 (List.nodup_range (n := loops.length)))
  have hiff : ∀ i, (i ∈ (List.range loops.length).reverse ∧ b ∈ (loops[i]?).elim [] NaturalLoop.m_body) ↔
      HasBlock loops b i := by
    intro i
    rw [hmem]
    refine ⟨And.right, fun hhas => ⟨?_, hhas⟩⟩
    obtain ⟨loop, hi, -⟩ := hhas
    exact List.mem_reverse.2 (List.mem_range.2 (List.getElem?_eq_some_iff.1 hi).1)
  exact ⟨inner, outer, heq, htwo.first.congr hiff, htwo.second.congr fun i => and_congr_left fun _ => hiff i⟩

theorem Found.hasBlock_header (ha : Analysed dominates graph) (h : Found dominates graph loops)
    (hi : loops[i]? = some loop) :
    HasBlock loops loop.m_header j ∧ j ≠ i ↔ ∃ other, loops[j]? = some other ∧ StrictlyInside loop other := by
  have hself : loop.m_header ∈ loop.m_body := (h.mem_body loop (List.mem_of_getElem? hi) _).2 (.inl rfl)
  constructor
  · rintro ⟨⟨other, hj, hb⟩, hji⟩
    rcases h.nested ha hi hj hji.symm hself hb with ⟨hin, -⟩ | ⟨-, hnot⟩
    · exact ⟨other, hj, hin⟩
    · exact absurd hb hnot
  · rintro ⟨other, hj, hsubset, x, hx, hnot⟩
    refine ⟨⟨other, hj, hsubset _ hself⟩, ?_⟩
    rintro rfl
    exact hnot (Option.some.inj (hj.symm.trans hi) ▸ hx)

/-- **The innermost loop of a header is its own**, and the second one is the smallest loop around it. -/
theorem Found.innerMost_header (ha : Analysed dominates graph) (h : Found dominates graph loops)
    (hnodup : ∀ loop ∈ loops, loop.m_body.Nodup) (hi : loops[i]? = some loop) :
    ∃ outer, computeInnerMost loops loop.m_header = [some i, outer] ∧
      Least (fun j k => sizeOf loops j < sizeOf loops k)
        (fun j => ∃ other, loops[j]? = some other ∧ StrictlyInside loop other) outer := by
  obtain ⟨inner, outer, heq, htwo⟩ := h.innerMost ha hnodup loop.m_header
  have hself : HasBlock loops loop.m_header i :=
    ⟨loop, hi, (h.mem_body loop (List.mem_of_getElem? hi) _).2 (.inl rfl)⟩
  obtain rfl : inner = some i := by
    have hfirst := htwo.first
    cases inner with
    | none => exact absurd hself (hfirst i)
    | some k =>
      by_cases hki : k = i
      · rw [hki]
      · -- the loop of the header is smaller than any other loop that has it
        obtain ⟨other, hk, hin⟩ := (h.hasBlock_header ha hi).1 ⟨hfirst.1, hki⟩
        have hlt : sizeOf loops k < sizeOf loops i := hfirst.2 i hself (Ne.symm hki)
        rw [sizeOf_eq hi, sizeOf_eq hk] at hlt
        exact absurd (hin.size_lt (hnodup loop (List.mem_of_getElem? hi))) (Nat.lt_asymm hlt)
  refine ⟨outer, heq, htwo.second.congr fun j => ?_⟩
  rw [← h.hasBlock_header ha hi]
  exact and_congr_right fun _ => ⟨fun hne heq => hne (congrArg some heq), fun hne heq => hne (Option.some.inj heq)⟩

end

end NaturalLoops

end WebKit.JSC.DFG
