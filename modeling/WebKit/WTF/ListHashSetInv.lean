import WebKit.Lib.LinkedList
import WebKit.WTF.ListHashSet

/-!
# What holds of a list hash set

`Holds s ns seq`: the nodes of the list and of the hash table are `ns`, their values are `seq`, which are all different,
and the allocator can give out none of the nodes (`AllocatorOk`). The free nodes of the pool are a list that ends at the
first node that was never used, or, when all were used, at 0.

- `allocate_spec`, `destroy_spec`: the allocator;
- `unlink_spec`, `appendNode_spec`, `prependNode_spec`, `insertNodeBefore_spec`: the list.
-/

namespace WebKit.WTF

open WebKit.Lib

variable {α : Type} {inlineCapacity : Nat} {malloc : List Nat → Nat}

theorem list_bind {β γ : Type} (a : β) (f : β → Except ListFault γ) : (Except.ok a >>= f) = f a := rfl

/-! ## The allocator -/

namespace ListHashSetNodeAllocator

variable {a a' : ListHashSetNodeAllocator α} {ns : List NodePtr} {p : NodePtr} {free : List Nat} {bound i : Nat}

/-- The free nodes from a node on, until the last one. -/
def Chain (a : ListHashSetNodeAllocator α) : Option NodePtr → List Nat → Option NodePtr → Prop
  | start, [], last => start = last
  | start, i :: free, last => start = some (.pool i) ∧ Chain a (a.nodes (.pool i)).m_next free last

theorem Chain.congr {start last : Option NodePtr} (h : Chain a start free last)
    (hnext : ∀ i ∈ free, (a'.nodes (.pool i)).m_next = (a.nodes (.pool i)).m_next) : Chain a' start free last := by
  induction free generalizing start with
  | nil => exact h
  | cons i free ih =>
    refine ⟨h.1, ?_⟩
    rw [hnext i List.mem_cons_self]
    exact ih h.2 fun j hj => hnext j (List.mem_cons_of_mem i hj)

theorem Chain.start_isSome {start : Option NodePtr} (h : Chain a start free (some p)) : start.isSome := by
  cases free with
  | nil => rw [show start = some p from h]; rfl
  | cons i free => rw [h.1]; rfl

/-- The nodes below `bound` are in use, or free; the other ones of the pool were never used. -/
structure PoolOk (inlineCapacity : Nat) (a : ListHashSetNodeAllocator α) (ns : List NodePtr) (free : List Nat)
    (bound : Nat) : Prop where
  done : a.m_isDoneWithInitialFreeList = true → bound = inlineCapacity
  notDone : a.m_isDoneWithInitialFreeList = false → bound < inlineCapacity
  chain : Chain a a.m_freeList free (if a.m_isDoneWithInitialFreeList then none else some (.pool bound))
  unused : ∀ i, bound ≤ i → i < inlineCapacity → (a.nodes (.pool i)).m_next = none
  free_lt : ∀ i ∈ free, i < bound ∧ .pool i ∉ ns
  free_nodup : free.Nodup
  used_lt : ∀ i, .pool i ∈ ns → i < bound

/-- The nodes in use are none that the allocator can give out. -/
structure AllocatorOk (inlineCapacity : Nat) (a : ListHashSetNodeAllocator α) (ns : List NodePtr) : Prop where
  pool : ∃ free bound, PoolOk inlineCapacity a ns free bound
  heap : ∀ address, .heap address ∈ ns → address ∈ a.heap

theorem PoolOk.bound_le (h : PoolOk inlineCapacity a ns free bound) : bound ≤ inlineCapacity := by
  cases hdone : a.m_isDoneWithInitialFreeList with
  | true => exact Nat.le_of_eq (h.done hdone)
  | false => exact Nat.le_of_lt (h.notDone hdone)

theorem AllocatorOk.congr (h : AllocatorOk inlineCapacity a ns) {ns' : List NodePtr} (hns : ∀ p, p ∈ ns' ↔ p ∈ ns)
    (hfree : a'.m_freeList = a.m_freeList) (hdone : a'.m_isDoneWithInitialFreeList = a.m_isDoneWithInitialFreeList)
    (hheap : a'.heap = a.heap) (hnext : ∀ p, p ∉ ns → (a'.nodes p).m_next = (a.nodes p).m_next) :
    AllocatorOk inlineCapacity a' ns' := by
  obtain ⟨⟨free, bound, hpool⟩, hh⟩ := h
  refine ⟨⟨free, bound, ?_, ?_, ?_, fun i hle hlt => ?_, fun i hi => ?_, hpool.free_nodup, fun i hi => ?_⟩, ?_⟩
  · rw [hdone]
    exact hpool.done
  · rw [hdone]
    exact hpool.notDone
  · rw [hfree, hdone]
    exact hpool.chain.congr fun i hi => hnext _ (hpool.free_lt i hi).2
  · rw [hnext _ fun hi => absurd (hpool.used_lt i hi) (Nat.not_lt.2 hle)]
    exact hpool.unused i hle hlt
  · exact ⟨(hpool.free_lt i hi).1, fun hmem => (hpool.free_lt i hi).2 ((hns _).1 hmem)⟩
  · exact hpool.used_lt i ((hns _).1 hi)
  · intro address haddress
    rw [hheap]
    exact hh address ((hns _).1 haddress)

theorem allocatorOk_create (hcapacity : 0 < inlineCapacity) :
    AllocatorOk inlineCapacity (create : ListHashSetNodeAllocator α) [] :=
  ⟨⟨[], 0, nofun, fun _ => hcapacity, rfl, fun _ _ _ => rfl, nofun, .nil, nofun⟩, nofun⟩

/-- **The allocator gives out a node that is not in use.** -/
theorem allocate_spec (hmalloc : ∀ heap, malloc heap ∉ heap) (h : AllocatorOk inlineCapacity a ns) :
    ∃ a' p, a.allocate malloc inlineCapacity = .ok (a', p) ∧ p ∉ ns ∧ a'.nodes = a.nodes ∧
      AllocatorOk inlineCapacity a' (p :: ns) := by
  obtain ⟨⟨free, bound, hpool⟩, hheap⟩ := h
  have hchain := hpool.chain
  rw [allocate.eq_def]
  cases free with
  | nil =>
    cases hdone : a.m_isDoneWithInitialFreeList with
    | true =>
      -- all nodes of the pool are in use
      have hbound := hpool.done hdone
      rw [hdone, if_pos rfl] at hchain
      have hnone : a.m_freeList = none := hchain
      have hheap' : ∀ address, .heap address ∈ .heap (malloc a.heap) :: ns → address ∈ malloc a.heap :: a.heap := by
        intro address haddress
        obtain heq | haddress := List.mem_cons.1 haddress
        · obtain rfl := NodePtr.heap.inj heq
          exact List.mem_cons_self
        · exact List.mem_cons_of_mem _ (hheap address haddress)
      simp only [hnone]
      refine ⟨_, _, rfl, fun hmem => hmalloc _ (hheap _ hmem), rfl,
        ⟨[], bound, fun _ => hbound, nofun, rfl, hpool.unused, nofun, .nil, fun i hi => ?_⟩, hheap'⟩
      obtain heq | hi := List.mem_cons.1 hi
      · cases heq
      · exact hpool.used_lt i hi
    | false =>
      -- the next node was never used
      have hlt := hpool.notDone hdone
      rw [hdone, if_neg Bool.false_ne_true] at hchain
      have hsome : a.m_freeList = some (.pool bound) := hchain
      have hused : ∀ i, NodePtr.pool i ∈ NodePtr.pool bound :: ns → i < bound + 1 := by
        intro i hi
        obtain heq | hi := List.mem_cons.1 hi
        · rw [NodePtr.pool.inj heq]
          exact Nat.lt_succ_self _
        · exact Nat.lt_succ_of_lt (hpool.used_lt i hi)
      have hheap' : ∀ address, NodePtr.heap address ∈ NodePtr.pool bound :: ns → address ∈ a.heap := by
        intro address haddress
        obtain heq | haddress := List.mem_cons.1 haddress
        · cases heq
        · exact hheap address haddress
      simp only [hsome, hpool.unused bound (Nat.le_refl _) hlt, Option.isNone_none, Bool.not_false, Bool.and_self, if_true]
      split_ifs with hlast
      · refine ⟨_, _, rfl, fun hmem => absurd (hpool.used_lt bound hmem) (Nat.lt_irrefl _), rfl,
          ⟨[], bound + 1, fun _ => hlast, nofun, rfl, fun i hle hi => ?_, nofun, .nil, hused⟩, hheap'⟩
        omega
      · refine ⟨_, _, rfl, fun hmem => absurd (hpool.used_lt bound hmem) (Nat.lt_irrefl _), rfl,
          ⟨[], bound + 1, nofun, fun _ => by omega, rfl, fun i hle => hpool.unused i (by omega), nofun, .nil, hused⟩,
          hheap'⟩
  | cons i free =>
    -- the first free node was used before
    obtain ⟨hsome, hrest⟩ := hchain
    obtain ⟨hi, hnot⟩ := hpool.free_lt i List.mem_cons_self
    obtain ⟨hfresh, hnodup⟩ := List.nodup_cons.1 hpool.free_nodup
    have hcond : ((a.nodes (.pool i)).m_next.isNone && !a.m_isDoneWithInitialFreeList) = false := by
      cases hdone : a.m_isDoneWithInitialFreeList with
      | true => rw [Bool.not_true, Bool.and_false]
      | false =>
        rw [hdone, if_neg Bool.false_ne_true] at hrest
        rw [Option.isNone_eq_false_iff.2 hrest.start_isSome, Bool.false_and]
    simp only [hsome, hcond, Bool.false_eq_true, if_false]
    refine ⟨_, _, rfl, hnot, rfl, ⟨free, bound, hpool.done, hpool.notDone, hrest.congr fun _ _ => rfl, hpool.unused,
      fun j hj => ?_, hnodup, fun j hj => ?_⟩, fun address haddress => ?_⟩
    · refine ⟨(hpool.free_lt j (List.mem_cons_of_mem i hj)).1, fun hmem => ?_⟩
      obtain heq | hmem := List.mem_cons.1 hmem
      · obtain rfl := NodePtr.pool.inj heq
        exact hfresh hj
      · exact (hpool.free_lt j (List.mem_cons_of_mem i hj)).2 hmem
    · obtain heq | hj := List.mem_cons.1 hj
      · rwa [NodePtr.pool.inj heq]
      · exact hpool.used_lt j hj
    · obtain heq | haddress := List.mem_cons.1 haddress
      · cases heq
      · exact hheap address haddress

theorem readNode_eq {v : α} (hv : (a.nodes p).m_value = some v) : a.readNode p = .ok (a.nodes p, v) := by
  rw [readNode.eq_def]
  split
  case h_1 value heq => rw [Option.some.inj (heq.symm.trans hv)]
  case h_2 heq => rw [hv] at heq; cases heq

/-- **A node that is destroyed is free again.** -/
theorem destroy_spec (h : AllocatorOk inlineCapacity a ns) (hnodup : ns.Nodup) (hp : p ∈ ns) {v : α}
    (hv : (a.nodes p).m_value = some v) :
    ∃ a', a.destroy inlineCapacity p = .ok a' ∧ AllocatorOk inlineCapacity a' (ns.erase p) ∧
      (a'.nodes p).m_value = none ∧ ∀ q, q ≠ p → a'.nodes q = a.nodes q := by
  obtain ⟨⟨free, bound, hpool⟩, hheap⟩ := h
  have hmem : ∀ q, q ∈ ns.erase p → q ∈ ns := fun q => List.mem_of_mem_erase
  have hgone : p ∉ ns.erase p := hnodup.not_mem_erase
  rw [destroy, readNode_eq hv, list_bind]
  cases p with
  | pool i =>
    have hi := hpool.used_lt i hp
    have hle := hpool.bound_le
    have hother : ∀ j, j ≠ i → NodePtr.pool j ≠ .pool i := fun j hne heq => hne (NodePtr.pool.inj heq)
    have hfresh : i ∉ free := fun hmem => (hpool.free_lt i hmem).2 hp
    have hnodes : ∀ q, q ≠ NodePtr.pool i → ∀ x y, Function.update (Function.update a.nodes (.pool i) x) (.pool i) y q =
        a.nodes q := by
      intro q hq x y
      rw [Function.update_of_ne hq, Function.update_of_ne hq]
    have hpooled : i < inlineCapacity := by omega
    simp only [deallocate, if_pos hpooled]
    refine ⟨_, rfl, ⟨⟨i :: free, bound, hpool.done, hpool.notDone, ⟨rfl, ?_⟩, fun j hle hlt => ?_, fun j hj => ?_,
      List.nodup_cons.2 ⟨hfresh, hpool.free_nodup⟩, fun j hj => hpool.used_lt j (hmem _ hj)⟩,
      fun address haddress => hheap address (hmem _ haddress)⟩, ?_, fun q hq => hnodes q hq _ _⟩
    · -- the node leads to the other free ones
      simp only [setNode, Function.update_self]
      refine hpool.chain.congr fun j hj => congrArg _ (hnodes _ (hother j ?_) _ _)
      rintro rfl
      exact hfresh hj
    · rw [← hpool.unused j hle hlt]
      exact congrArg _ (hnodes _ (hother j (by omega)) _ _)
    · obtain rfl | hj := List.mem_cons.1 hj
      · exact ⟨hi, hgone⟩
      · exact ⟨(hpool.free_lt j hj).1, fun hmem' => (hpool.free_lt j hj).2 (hmem _ hmem')⟩
    · simp only [setNode, Function.update_self]
  | heap address =>
    have haddress := hheap address hp
    have hnodes : ∀ q, q ≠ NodePtr.heap address → Function.update a.nodes (.heap address)
        { a.nodes (.heap address) with m_value := none } q = a.nodes q := fun q hq => Function.update_of_ne hq _ a.nodes
    have haddress' : address ∈ (a.setNode (.heap address) { a.nodes (.heap address) with m_value := none }).heap := haddress
    simp only [deallocate, if_pos haddress']
    refine ⟨_, rfl, ⟨⟨free, bound, hpool.done, hpool.notDone, ?_, fun j hle hlt => ?_, fun j hj => ?_, hpool.free_nodup,
      fun j hj => hpool.used_lt j (hmem _ hj)⟩, fun address' haddress' => ?_⟩, ?_, hnodes⟩
    · exact hpool.chain.congr fun j _ => congrArg _ (hnodes (.pool j) NodePtr.noConfusion)
    · rw [← hpool.unused j hle hlt]
      exact congrArg _ (hnodes (.pool j) NodePtr.noConfusion)
    · exact ⟨(hpool.free_lt j hj).1, fun hmem' => (hpool.free_lt j hj).2 (hmem _ hmem')⟩
    · refine (List.mem_erase_of_ne ?_).2 (hheap address' (hmem _ haddress'))
      rintro rfl
      exact hgone haddress'
    · simp only [setNode, Function.update_self]

end ListHashSetNodeAllocator

namespace ListHashSet

/-! ## Pointers -/

variable {s s' s₁ s₂ : ListHashSet α} {ns xs ys : List NodePtr} {n p : NodePtr} {before after : Option NodePtr}

def value (s : ListHashSet α) (p : NodePtr) : Option α := (s.m_allocator.nodes p).m_value

def links (s : ListHashSet α) : Links NodePtr :=
  { head := s.m_head, tail := s.m_tail, prev := fun p => (s.m_allocator.nodes p).m_prev,
    next := fun p => (s.m_allocator.nodes p).m_next }

/-- Only pointers of nodes that are there may have changed. -/
structure Frame (s s' : ListHashSet α) : Prop where
  impl_eq : s'.m_impl = s.m_impl
  freeList_eq : s'.m_allocator.m_freeList = s.m_allocator.m_freeList
  done_eq : s'.m_allocator.m_isDoneWithInitialFreeList = s.m_allocator.m_isDoneWithInitialFreeList
  heap_eq : s'.m_allocator.heap = s.m_allocator.heap
  value_eq : ∀ p, s'.value p = s.value p
  next_eq : ∀ p, s.value p = none → (s'.m_allocator.nodes p).m_next = (s.m_allocator.nodes p).m_next

theorem Frame.refl (s : ListHashSet α) : Frame s s := ⟨rfl, rfl, rfl, rfl, fun _ => rfl, fun _ _ => rfl⟩

theorem Frame.trans (h : Frame s s₁) (h₁ : Frame s₁ s₂) : Frame s s₂ where
  impl_eq := h₁.impl_eq.trans h.impl_eq
  freeList_eq := h₁.freeList_eq.trans h.freeList_eq
  done_eq := h₁.done_eq.trans h.done_eq
  heap_eq := h₁.heap_eq.trans h.heap_eq
  value_eq := fun p => (h₁.value_eq p).trans (h.value_eq p)
  next_eq := fun p hp => (h₁.next_eq p ((h.value_eq p).trans hp)).trans (h.next_eq p hp)

/-- What a step does to the pointers. -/
def Relinks (s : ListHashSet α) (r : Except ListFault (ListHashSet α)) (l : Links NodePtr) : Prop :=
  ∃ s', r = .ok s' ∧ Frame s s' ∧ s'.links = l

theorem readNode_eq {v : α} (hv : s.value p = some v) :
    s.readNode p = .ok ({ m_value := some v, m_prev := s.links.prev p, m_next := s.links.next p }, v) := by
  rw [readNode, ListHashSetNodeAllocator.readNode_eq hv, ← hv]
  rfl

theorem frame_setNode {v : α} (hv : s.value p = some v) {node : ListHashSetNode α} (hnode : node.m_value = some v) :
    Frame s { s with m_allocator := s.m_allocator.setNode p node } where
  impl_eq := rfl
  freeList_eq := rfl
  done_eq := rfl
  heap_eq := rfl
  value_eq := by
    intro q
    show (Function.update s.m_allocator.nodes p node q).m_value = _
    by_cases hq : q = p
    · subst hq
      rw [Function.update_self, hnode, hv]
    · rw [Function.update_of_ne hq]
      rfl
  next_eq := by
    intro q hq
    have hne : q ≠ p := by
      rintro rfl
      rw [hv] at hq
      cases hq
    show (Function.update s.m_allocator.nodes p node q).m_next = _
    rw [Function.update_of_ne hne]

theorem setNext_spec (hv : (s.value p).isSome) (o : Option NodePtr) :
    Relinks s (s.setNext p o) { s.links with next := Function.update s.links.next p o } := by
  obtain ⟨v, hv⟩ := Option.isSome_iff_exists.1 hv
  rw [setNext, readNode_eq hv, list_bind]
  refine ⟨_, rfl, frame_setNode hv rfl, ?_⟩
  simp only [links, ListHashSetNodeAllocator.setNode, Links.mk.injEq, true_and]
  refine ⟨funext fun q => ?_, funext fun q => ?_⟩
  · by_cases hq : q = p
    · subst hq
      rw [Function.update_self]
    · rw [Function.update_of_ne hq]
  · by_cases hq : q = p
    · subst hq
      rw [Function.update_self, Function.update_self]
    · rw [Function.update_of_ne hq, Function.update_of_ne hq]

theorem setPrev_spec (hv : (s.value p).isSome) (o : Option NodePtr) :
    Relinks s (s.setPrev p o) { s.links with prev := Function.update s.links.prev p o } := by
  obtain ⟨v, hv⟩ := Option.isSome_iff_exists.1 hv
  rw [setPrev, readNode_eq hv, list_bind]
  refine ⟨_, rfl, frame_setNode hv rfl, ?_⟩
  simp only [links, ListHashSetNodeAllocator.setNode, Links.mk.injEq, true_and]
  refine ⟨funext fun q => ?_, funext fun q => ?_⟩
  · by_cases hq : q = p
    · subst hq
      rw [Function.update_self, Function.update_self]
    · rw [Function.update_of_ne hq, Function.update_of_ne hq]
  · by_cases hq : q = p
    · subst hq
      rw [Function.update_self]
    · rw [Function.update_of_ne hq]

/-- A step and what follows. -/
theorem Relinks.bind {r : Except ListFault (ListHashSet α)} {l l' : Links NodePtr} (h : Relinks s r l)
    {f : ListHashSet α → Except ListFault (ListHashSet α)}
    (hf : ∀ s₁, Frame s s₁ → s₁.links = l → Relinks s₁ (f s₁) l') : Relinks s (r >>= f) l' := by
  obtain ⟨s₁, rfl, hframe, hlinks⟩ := h
  obtain ⟨s₂, heq, hframe₂, hlinks₂⟩ := hf s₁ hframe hlinks
  exact ⟨s₂, heq, hframe.trans hframe₂, hlinks₂⟩

theorem relinks_pure {l : Links NodePtr} (hframe : Frame s s') (hlinks : s'.links = l) : Relinks s (.ok s') l :=
  ⟨s', rfl, hframe, hlinks⟩

theorem frame_ends (s : ListHashSet α) (head tail : Option NodePtr) :
    Frame s { s with m_head := head, m_tail := tail } := ⟨rfl, rfl, rfl, rfl, fun _ => rfl, fun _ _ => rfl⟩

/-! ## The list -/

/-- The second half of `unlink`, for what is behind the node. -/
def unlinkNext (s : ListHashSet α) (node : NodePtr) : Except ListFault (ListHashSet α) := do
  let (n, _) ← s.readNode node
  match n.m_next with
  | none => return { s with m_tail := n.m_prev }
  | some next => s.setPrev next n.m_prev

/-- **`unlink`** -/
theorem unlink_spec (h : s.links.Lists (xs ++ n :: ys)) (hv : ∀ p ∈ xs ++ n :: ys, (s.value p).isSome) :
    Relinks s (s.unlink n) (s.links.link xs.getLast? ys.head? xs.getLast? ys.head?) := by
  obtain ⟨hprev, hnext⟩ := h.prev_next
  have hn : n ∈ xs ++ n :: ys := List.mem_append_right _ List.mem_cons_self
  have hne : xs.getLast? ≠ some n := fun hlast =>
    (List.nodup_append.1 h.nodup).2.2 n (List.mem_of_getLast? hlast) n List.mem_cons_self rfl
  obtain ⟨v, hvn⟩ := Option.isSome_iff_exists.1 (hv n hn)
  -- the second half, after what is in front leads to what is behind
  have hrest : ∀ s₁, Frame s s₁ → s₁.links = s.links.linkAfter xs.getLast? ys.head? →
      Relinks s₁ (s₁.unlinkNext n) (s.links.link xs.getLast? ys.head? xs.getLast? ys.head?) := by
    intro s₁ hframe hlinks
    unfold unlinkNext
    have hprev₁ : s₁.links.prev n = xs.getLast? := by
      rw [hlinks, Links.prev_linkAfter, hprev]
    have hnext₁ : s₁.links.next n = ys.head? := by
      rw [hlinks, Links.next_linkAfter, if_neg hne, hnext]
    rw [readNode_eq ((hframe.value_eq n).trans hvn), list_bind, Links.link, ← hlinks]
    simp only [hprev₁, hnext₁]
    cases hhead : ys.head? with
    | none => exact relinks_pure (frame_ends s₁ s₁.m_head xs.getLast?) rfl
    | some q =>
      refine setPrev_spec ?_ xs.getLast?
      rw [hframe.value_eq]
      exact hv q (List.mem_append_right _ (List.mem_cons_of_mem _ (List.mem_of_head? hhead)))
  rw [unlink, readNode_eq hvn, list_bind]
  simp only [hprev, hnext]
  cases hlast : xs.getLast? with
  | none =>
    rw [hlast] at hrest
    exact (relinks_pure (frame_ends s ys.head? s.m_tail) rfl).bind hrest
  | some p =>
    rw [hlast] at hrest
    exact (setNext_spec (hv p (List.mem_append_left _ (List.mem_of_getLast? hlast))) ys.head?).bind hrest

/-- **`appendNode`** -/
theorem appendNode_spec (h : s.links.Lists ns) (hv : ∀ p ∈ ns, (s.value p).isSome) (hn : (s.value n).isSome) :
    Relinks s (s.appendNode n) ((s.links.place n ns.getLast? none).link ns.getLast? none (some n) (some n)) := by
  have htail : s.m_tail = ns.getLast? := h.tail_eq
  rw [appendNode]
  refine (setPrev_spec hn s.m_tail).bind fun s₁ hframe₁ hlinks₁ => ?_
  refine (setNext_spec (by rwa [hframe₁.value_eq]) none).bind fun s₂ hframe₂ hlinks₂ => ?_
  have hlinks : s₂.links = s.links.place n ns.getLast? none := by
    rw [hlinks₂, hlinks₁, htail]
    rfl
  have htail₂ : s₂.m_tail = ns.getLast? := by
    rw [← htail]
    exact congrArg Links.tail hlinks
  rw [← hlinks]
  simp only [htail₂]
  cases hlast : ns.getLast? with
  | none => exact relinks_pure (frame_ends s₂ (some n) (some n)) rfl
  | some p =>
    have hp : (s₂.value p).isSome := by
      rw [hframe₂.value_eq, hframe₁.value_eq]
      exact hv p (List.mem_of_getLast? hlast)
    refine (setNext_spec hp (some n)).bind fun s₃ _ hlinks₃ => relinks_pure (frame_ends s₃ s₃.m_head (some n)) ?_
    show { s₃.links with tail := some n } = _
    rw [hlinks₃]
    rfl

/-- **`prependNode`** -/
theorem prependNode_spec (h : s.links.Lists ns) (hv : ∀ p ∈ ns, (s.value p).isSome) (hn : (s.value n).isSome) :
    Relinks s (s.prependNode n) ((s.links.place n none ns.head?).link none ns.head? (some n) (some n)) := by
  have hhead : s.m_head = ns.head? := h.head_eq
  rw [prependNode]
  refine (setPrev_spec hn none).bind fun s₁ hframe₁ hlinks₁ => ?_
  have hhead₁ : s₁.m_head = ns.head? := by
    rw [← hhead]
    exact congrArg Links.head hlinks₁
  refine (setNext_spec (by rwa [hframe₁.value_eq]) s₁.m_head).bind fun s₂ hframe₂ hlinks₂ => ?_
  have hlinks : s₂.links = s.links.place n none ns.head? := by
    rw [hlinks₂, hlinks₁, hhead₁]
    rfl
  have hhead₂ : s₂.m_head = ns.head? := by
    rw [← hhead]
    exact congrArg Links.head hlinks
  rw [← hlinks]
  simp only [hhead₂]
  cases hfirst : ns.head? with
  | none => exact relinks_pure (frame_ends s₂ (some n) (some n)) rfl
  | some p =>
    have hp : (s₂.value p).isSome := by
      rw [hframe₂.value_eq, hframe₁.value_eq]
      exact hv p (List.mem_of_head? hfirst)
    refine (setPrev_spec hp (some n)).bind fun s₃ _ hlinks₃ => relinks_pure (frame_ends s₃ (some n) s₃.m_tail) ?_
    show { s₃.links with head := some n } = _
    rw [hlinks₃]
    rfl

/-- **`insertNodeBefore`** -/
theorem insertNodeBefore_spec (h : s.links.Lists (xs ++ p :: ys)) (hv : ∀ q ∈ xs ++ p :: ys, (s.value q).isSome)
    (hn : (s.value n).isSome) (hnot : n ∉ xs ++ p :: ys) :
    Relinks s (s.insertNodeBefore (some p) n)
      ((s.links.place n xs.getLast? (some p)).link xs.getLast? (some p) (some n) (some n)) := by
  obtain ⟨hprev, -⟩ := h.prev_next
  have hp : p ∈ xs ++ p :: ys := List.mem_append_right _ List.mem_cons_self
  have hpn : p ≠ n := by
    rintro rfl
    exact hnot hp
  obtain ⟨v, hvn⟩ := Option.isSome_iff_exists.1 hn
  obtain ⟨v', hvp⟩ := Option.isSome_iff_exists.1 (hv p hp)
  simp only [insertNodeBefore]
  refine (setNext_spec hn (some p)).bind fun s₁ hframe₁ hlinks₁ => ?_
  have hprev₁ : s₁.links.prev p = xs.getLast? := by
    rw [hlinks₁]
    exact hprev
  rw [readNode_eq ((hframe₁.value_eq p).trans hvp), list_bind]
  simp only [hprev₁]
  refine (setPrev_spec (by rwa [hframe₁.value_eq]) xs.getLast?).bind fun s₂ hframe₂ hlinks₂ => ?_
  have hframe := hframe₁.trans hframe₂
  have hlinks : s₂.links = s.links.place n xs.getLast? (some p) := by
    rw [hlinks₂, hlinks₁]
    rfl
  -- the node in front of the other one, and its own pointer
  have hrest : ∀ s₃, Frame s₂ s₃ → s₃.links.prev n = xs.getLast? →
      Relinks s₃ (s₃.setPrev p (some n) >>= fun s₄ => s₄.readNode n >>= fun x =>
        if x.1.m_prev.isNone then pure { s₄ with m_head := some n } else pure s₄)
        (if xs.getLast?.isNone then { (s₃.links.linkBefore (some n) (some p)) with head := some n }
          else s₃.links.linkBefore (some n) (some p)) := by
    intro s₃ hframe₃ hprev₃
    have hframe₃' := hframe.trans hframe₃
    refine (setPrev_spec (by rw [hframe₃'.value_eq, hvp]; rfl) (some n)).bind fun s₄ hframe₄ hlinks₄ => ?_
    have hprev₄ : s₄.links.prev n = xs.getLast? := by
      rw [hlinks₄, ← hprev₃]
      exact Function.update_of_ne hpn.symm _ _
    rw [readNode_eq ((hframe₄.value_eq n).trans ((hframe₃'.value_eq n).trans hvn)), list_bind]
    simp only [hprev₄]
    cases xs.getLast? with
    | none =>
      refine relinks_pure (frame_ends s₄ (some n) s₄.m_tail) ?_
      show { s₄.links with head := some n } = _
      rw [hlinks₄]
      rfl
    | some q => exact relinks_pure (Frame.refl s₄) hlinks₄
  rw [← hlinks]
  have hprev₂ : s₂.links.prev n = xs.getLast? := by
    rw [hlinks]
    exact Function.update_self _ _ _
  cases hlast : xs.getLast? with
  | none =>
    rw [hlast] at hrest hprev₂
    exact hrest s₂ (Frame.refl s₂) hprev₂
  | some q =>
    rw [hlast] at hrest hprev₂
    have hq : (s₂.value q).isSome := by
      rw [hframe.value_eq]
      exact hv q (List.mem_append_left _ (List.mem_of_getLast? hlast))
    refine (setNext_spec hq (some n)).bind fun s₃ hframe₃ hlinks₃ => ?_
    have hprev₃ : s₃.links.prev n = some q := by
      rw [hlinks₃]
      exact hprev₂
    have := hrest s₃ hframe₃ hprev₃
    rw [hlinks₃] at this
    exact this

end ListHashSet

end WebKit.WTF
