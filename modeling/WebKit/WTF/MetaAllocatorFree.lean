import WebKit.WTF.MetaAllocator

/-!
# The free space of `MetaAllocator`

`Maps T a bySize byStart byEnd`: what each of the three maps holds. Every operation on one of them changes one list
(`Maps.sizeMapRemove`, …), and between the operations of the allocator the three lists are the same, with nodes that are
disjoint and not adjacent (`FreeInv`). `findAndRemoveFreeSpace` takes a span of the size asked for out of the free space
(`findAndRemoveFreeSpace_inv`), and `addFreeSpace` puts one back (`addFreeSpace_inv`).
-/

namespace WebKit.WTF

open Cover Index

variable {τ : Type*} {T : SizeTree τ} {C : MetaAllocatorConfig}

/-- Nodes with their addresses. -/
abbrev Nodes := List (NodePointer × FreeSpaceNode)

/-- The tree holds the nodes of the list under their sizes. -/
def Sizes (T : SizeTree τ) (t : τ) (l : Nodes) : Prop := (T.entries t).Perm (l.map fun p => (p.1, p.2.size))

namespace Sizes

variable {t : τ} {l l' : Nodes} {i : NodePointer} {n : FreeSpaceNode} {key : NodePointer → Nat}

theorem ids (h : Sizes T t l) : ((T.entries t).map Prod.fst).Perm (l.map Prod.fst) := by
  have := h.map Prod.fst
  rwa [List.map_map] at this

theorem keys (h : Sizes T t l) (hk : ∀ p ∈ l, key p.1 = p.2.size) : ∀ p ∈ T.entries t, key p.1 = p.2 := by
  intro p hp
  obtain ⟨q, hq, rfl⟩ := List.mem_map.1 (h.mem_iff.1 hp)
  exact hk q hq

theorem remove (h : Sizes T t ((i, n) :: l)) (hi : (((i, n) :: l).map Prod.fst).Nodup) : Sizes T (T.remove t i) l := by
  have hmem : (i, n.size) ∈ T.entries t := h.mem_iff.2 (List.mem_cons_self ..)
  have hrem := T.entries_remove (h.ids.nodup_iff.2 hi) hmem
  exact (hrem.symm.trans h).cons_inv

theorem insert (h : Sizes T t l) (hk : ∀ p ∈ l, key p.1 = p.2.size) (hi : i ∉ l.map Prod.fst)
    (hn : key i = n.size) : Sizes T (T.insert key t i) ((i, n) :: l) := by
  have hins := T.entries_insert (h.keys hk) fun hm => hi (h.ids.mem_iff.1 hm)
  rw [hn] at hins
  exact hins.trans (h.cons _)

end Sizes

/-- What the three maps hold. -/
structure Maps (T : SizeTree τ) (a : FreeSpace τ) (bySize byStart byEnd : Nodes) : Prop where
  sizes : Sizes T a.freeSpaceSizeMap bySize
  starts : Indexes a.freeSpaceStartAddressMap Span.start byStart
  ends : Indexes a.freeSpaceEndAddressMap Span.stop byEnd

/-- The nodes of the list are in the memory as the list has them. -/
def Current (a : FreeSpace τ) (l : Nodes) : Prop := ∀ p ∈ l, a.nodes p.1 = p.2

section Maps

variable {a : FreeSpace τ} {l z s e : Nodes} {i : NodePointer} {n n' : FreeSpaceNode} {x : Nat}

theorem Maps.sizeMapRemove (h : Maps T a ((i, n) :: l) s e) (hi : (((i, n) :: l).map Prod.fst).Nodup) :
    Maps T (a.sizeMapRemove T i) l s e := ⟨h.sizes.remove hi, h.starts, h.ends⟩

theorem Maps.sizeMapInsert (h : Maps T a l s e) (hc : Current a ((i, n) :: l)) (hi : i ∉ l.map Prod.fst) :
    Maps T (a.sizeMapInsert T i) ((i, n) :: l) s e := by
  refine ⟨h.sizes.insert (fun p hp => ?_) hi ?_, h.starts, h.ends⟩
  · exact congrArg Span.size (hc p (List.mem_cons_of_mem _ hp))
  · exact congrArg Span.size (hc _ (List.mem_cons_self ..))

theorem Maps.startMapRemove (h : Maps T a z ((i, n) :: l) e) (hi : i ∉ l.map Prod.fst) (hx : n.start = x) :
    Maps T (a.startMapRemove x) z l e := ⟨h.sizes, hx ▸ h.starts.remove hi, h.ends⟩

theorem Maps.startMapAdd (h : Maps T a z l e) (hl : ∀ p ∈ l, p.2.start ≠ x) (hx : n.start = x) :
    Maps T (a.startMapAdd x i) z ((i, n) :: l) e := by
  subst hx
  exact ⟨h.sizes, h.starts.add hl, h.ends⟩

theorem Maps.endMapRemove (h : Maps T a z s ((i, n) :: l)) (hi : i ∉ l.map Prod.fst) (hx : n.stop = x) :
    Maps T (a.endMapRemove x) z s l := ⟨h.sizes, h.starts, hx ▸ h.ends.remove hi⟩

theorem Maps.endMapAdd (h : Maps T a z s l) (hl : ∀ p ∈ l, p.2.stop ≠ x) (hx : n.stop = x) :
    Maps T (a.endMapAdd x i) z s ((i, n) :: l) := by
  subst hx
  exact ⟨h.sizes, h.starts, h.ends.add hl⟩

theorem Maps.setNode (h : Maps T a z s e) : Maps T (a.setNode i n) z s e := ⟨h.sizes, h.starts, h.ends⟩

theorem Maps.changeStart (h : Maps T a z ((i, n) :: l) e) (hs : n'.start = n.start) : Maps T a z ((i, n') :: l) e :=
  ⟨h.sizes, h.starts.change hs, h.ends⟩

theorem Maps.changeEnd (h : Maps T a z s ((i, n) :: l)) (hs : n'.stop = n.stop) : Maps T a z s ((i, n') :: l) :=
  ⟨h.sizes, h.starts, h.ends.change hs⟩

theorem Current.setNode (h : Current a l) (hi : i ∉ l.map Prod.fst) : Current (a.setNode i n) ((i, n) :: l) := by
  intro p hp
  rcases List.mem_cons.1 hp with rfl | hp
  · exact Function.update_self ..
  · have hne : p.1 ≠ i := fun he => hi (he ▸ List.mem_map_of_mem hp)
    exact (Function.update_of_ne hne ..).trans (h p hp)

end Maps

/-! ## The invariant -/

def spans (free : Nodes) : List Span := free.map Prod.snd

/-- The nodes are not empty, disjoint and not adjacent. -/
structure Spread (free : Nodes) : Prop where
  pos : ∀ p ∈ free, 0 < p.2.size
  disjoint : ∀ x, cover (spans free) x ≤ 1
  apart : ∀ p ∈ free, ∀ q ∈ free, p.2.stop ≠ q.2.start

namespace Spread

variable {free free' rest : Nodes} {i : NodePointer} {n : FreeSpaceNode}

theorem perm (h : Spread free) (hp : free.Perm free') : Spread free' where
  pos p hm := h.pos p (hp.mem_iff.2 hm)
  disjoint x := cover_perm (hp.map _) ▸ h.disjoint x
  apart p hm q hq := h.apart p (hp.mem_iff.2 hm) q (hp.mem_iff.2 hq)

theorem tail (h : Spread ((i, n) :: rest)) : Spread rest where
  pos p hm := h.pos p (List.mem_cons_of_mem _ hm)
  disjoint x := by
    have := h.disjoint x
    simp only [spans, List.map_cons, cover_cons] at this
    exact Nat.le_trans (Nat.le_add_right ..) this
  apart p hm q hq := h.apart p (List.mem_cons_of_mem _ hm) q (List.mem_cons_of_mem _ hq)

theorem head (h : Spread ((i, n) :: rest)) : 0 < n.size := h.pos _ (List.mem_cons_self ..)

/-- The first node and another have no common address and are not adjacent. -/
theorem cons_mem (h : Spread ((i, n) :: rest)) {p : NodePointer × FreeSpaceNode} (hp : p ∈ rest) :
    n.stop < p.2.start ∨ p.2.stop < n.start := by
  have hd : n.Disjoint p.2 := (List.pairwise_cons.1 (pairwise_disjoint h.disjoint)).1 _ (List.mem_map_of_mem hp)
  have h₁ := h.head
  have h₂ := h.pos p (List.mem_cons_of_mem _ hp)
  have h₃ : n.stop ≠ p.2.start := h.apart _ (List.mem_cons_self ..) p (List.mem_cons_of_mem _ hp)
  have h₄ : p.2.stop ≠ n.start := h.apart p (List.mem_cons_of_mem _ hp) _ (List.mem_cons_self ..)
  have := Span.disjoint_iff.1 hd
  omega

theorem cons (h : Spread rest) (hn : 0 < n.size)
    (hd : ∀ p ∈ rest, n.stop < p.2.start ∨ p.2.stop < n.start) : Spread ((i, n) :: rest) := by
  refine ⟨fun p hp => ?_, ?_, fun p hp q hq => ?_⟩
  · rcases List.mem_cons.1 hp with rfl | hp
    · exact hn
    · exact h.pos p hp
  · refine cover_cons_le h.disjoint fun t ht => ?_
    obtain ⟨p, hp, rfl⟩ := List.mem_map.1 ht
    rw [Span.disjoint_iff]
    have := hd p hp
    simp only
    omega
  · have hself : n.stop ≠ n.start := by
      unfold Span.stop
      omega
    rcases List.mem_cons.1 hp with rfl | hp <;> rcases List.mem_cons.1 hq with rfl | hq
    · exact hself
    · have := hd q hq
      have := h.pos q hq
      unfold Span.stop at *
      simp only
      omega
    · have := hd p hp
      have := h.pos p hp
      unfold Span.stop at *
      simp only
      omega
    · exact h.apart p hp q hq

end Spread

/-- The three maps hold the nodes of `free`, each at its address in the memory. -/
structure FreeInv (T : SizeTree τ) (a : FreeSpace τ) (free : Nodes) : Prop where
  maps : Maps T a free free free
  current : Current a free
  nodup : (free.map Prod.fst).Nodup
  fresh : ∀ p ∈ free, p.1 < a.nextNode
  spread : Spread free

theorem freeInv_init (T : SizeTree τ) : FreeInv T (.init T) [] := by
  refine ⟨⟨?_, ?_, ?_⟩, ?_, List.nodup_nil, ?_, ?_, fun x => Nat.zero_le _, ?_⟩
  · simp [Sizes, FreeSpace.init, T.entries_empty]
  · intro k i
    simp [FreeSpace.init]
  · intro k i
    simp [FreeSpace.init]
  all_goals simp [Current]

namespace FreeInv

variable {a a' : FreeSpace τ} {free free' rest : Nodes} {i : NodePointer} {n n' : FreeSpaceNode}

theorem perm (h : FreeInv T a free) (hp : free.Perm free') : FreeInv T a free' where
  maps := ⟨h.maps.sizes.trans (hp.map _), h.maps.starts.perm hp, h.maps.ends.perm hp⟩
  current p hm := h.current p (hp.mem_iff.2 hm)
  nodup := (hp.map _).nodup_iff.1 h.nodup
  fresh p hm := h.fresh p (hp.mem_iff.2 hm)
  spread := h.spread.perm hp

theorem cons_of_mem (h : FreeInv T a free) (hm : (i, n) ∈ free) :
    ∃ rest, free.Perm ((i, n) :: rest) ∧ FreeInv T a ((i, n) :: rest) :=
  ⟨_, List.perm_cons_erase hm, h.perm (List.perm_cons_erase hm)⟩

theorem not_mem_rest (h : FreeInv T a ((i, n) :: rest)) : i ∉ rest.map Prod.fst := (List.nodup_cons.1 h.nodup).1

theorem current_rest (h : FreeInv T a ((i, n) :: rest)) : Current a rest := fun p hp =>
  h.current p (List.mem_cons_of_mem _ hp)

/-- The same nodes but for the first, which was changed. -/
theorem change (h : FreeInv T a ((i, n) :: rest))
    (hm : Maps T a' ((i, n') :: rest) ((i, n') :: rest) ((i, n') :: rest)) (hc : Current a' ((i, n') :: rest))
    (hnext : a'.nextNode = a.nextNode) (hs : Spread ((i, n') :: rest)) : FreeInv T a' ((i, n') :: rest) := by
  refine ⟨hm, hc, h.nodup, fun p hp => ?_, hs⟩
  rw [hnext]
  rcases List.mem_cons.1 hp with rfl | hp
  · exact h.fresh (i, n) (List.mem_cons_self ..)
  · exact h.fresh p (List.mem_cons_of_mem _ hp)

/-! ## Taking free space -/

/-- A perfect fit removes the node. -/
theorem remove (h : FreeInv T a ((i, n) :: rest)) :
    FreeInv T (((a.sizeMapRemove T i).startMapRemove n.start).endMapRemove n.stop) rest where
  maps := ((h.maps.sizeMapRemove h.nodup).startMapRemove h.not_mem_rest rfl).endMapRemove h.not_mem_rest rfl
  current := h.current_rest
  nodup := (List.nodup_cons.1 h.nodup).2
  fresh p hp := h.fresh p (List.mem_cons_of_mem _ hp)
  spread := h.spread.tail

theorem takeLeft (h : FreeInv T a ((i, n) :: rest)) {size : Nat} (hpos : 0 < size) (hlt : size < n.size) :
    FreeInv T (((((a.sizeMapRemove T i).startMapRemove n.start).setNode i ⟨n.start + size, n.size - size⟩).sizeMapInsert
      T i).startMapAdd (n.start + size) i) ((i, ⟨n.start + size, n.size - size⟩) :: rest) := by
  have hi := h.not_mem_rest
  have hcur : Current (((a.sizeMapRemove T i).startMapRemove n.start).setNode i ⟨n.start + size, n.size - size⟩)
      ((i, ⟨n.start + size, n.size - size⟩) :: rest) := Current.setNode h.current_rest hi
  have h₁ := ((h.maps.sizeMapRemove h.nodup).startMapRemove hi rfl).setNode (i := i)
    (n := ⟨n.start + size, n.size - size⟩)
  have hstart : ∀ p ∈ rest, p.2.start ≠ n.start + size := fun p hp => by
    have := h.spread.cons_mem hp
    unfold Span.stop at this
    omega
  have h₂ := (h₁.sizeMapInsert hcur hi).startMapAdd (i := i) (n := ⟨n.start + size, n.size - size⟩) hstart rfl
  have hstop : (⟨n.start + size, n.size - size⟩ : Span).stop = n.stop := by
    unfold Span.stop
    simp only
    omega
  refine h.change (h₂.changeEnd hstop) hcur rfl (h.spread.tail.cons (by simp only; omega) fun p hp => ?_)
  have := h.spread.cons_mem hp
  rw [hstop]
  simp only
  omega

theorem takeRight (h : FreeInv T a ((i, n) :: rest)) {size : Nat} (hpos : 0 < size) (hlt : size < n.size) :
    FreeInv T (((((a.sizeMapRemove T i).endMapRemove n.stop).setNode i ⟨n.start, n.size - size⟩).sizeMapInsert
      T i).endMapAdd (n.start + n.size - size) i) ((i, ⟨n.start, n.size - size⟩) :: rest) := by
  have hi := h.not_mem_rest
  have hcur : Current (((a.sizeMapRemove T i).endMapRemove n.stop).setNode i ⟨n.start, n.size - size⟩)
      ((i, ⟨n.start, n.size - size⟩) :: rest) := Current.setNode h.current_rest hi
  have h₁ := ((h.maps.sizeMapRemove h.nodup).endMapRemove hi rfl).setNode (i := i) (n := ⟨n.start, n.size - size⟩)
  have hstop : ∀ p ∈ rest, p.2.stop ≠ n.start + n.size - size := fun p hp => by
    have := h.spread.cons_mem hp
    have := h.spread.tail.pos p hp
    unfold Span.stop at *
    omega
  have hnew : (⟨n.start, n.size - size⟩ : Span).stop = n.start + n.size - size := by
    unfold Span.stop
    simp only
    omega
  have h₂ := (h₁.sizeMapInsert hcur hi).endMapAdd (i := i) hstop hnew
  refine h.change (h₂.changeStart rfl) hcur rfl (h.spread.tail.cons (by simp only; omega) fun p hp => ?_)
  have := h.spread.cons_mem hp
  unfold Span.stop at *
  simp only
  omega

end FreeInv

/-- What `findAndRemoveFreeSpace` leaves: nothing changed, or a span of the size asked for is no longer free. -/
def Found (T : SizeTree τ) (a : FreeSpace τ) (free : Nodes) (size : Nat) (r : Option Nat × FreeSpace τ) : Prop :=
  match r with
  | (none, a') => a' = a
  | (some start, a') => ∃ free', FreeInv T a' free' ∧ SameCover (spans free) (⟨start, size⟩ :: spans free')

/-- **`findAndRemoveFreeSpace`** keeps the three maps in step. -/
theorem findAndRemoveFreeSpace_inv {a : FreeSpace τ} {free : Nodes} (h : FreeInv T a free) {size : Nat}
    (hpos : 0 < size) : Found T a free size (a.findAndRemoveFreeSpace T C size) := by
  unfold FreeSpace.findAndRemoveFreeSpace
  split
  · rfl
  · rename_i i hfind
    obtain ⟨k, hk, hle, -⟩ := T.find_some (h.maps.sizes.keys fun p hp => congrArg Span.size (h.current p hp)) hfind
    obtain ⟨⟨j, n⟩, hn, he⟩ := List.mem_map.1 (h.maps.sizes.mem_iff.1 hk)
    obtain ⟨rfl, rfl⟩ : j = i ∧ n.size = k := by simpa using he
    obtain ⟨rest, hperm, h'⟩ := h.cons_of_mem hn
    have hnode : a.nodes j = n := h.current _ hn
    have hsame : SameCover (spans free) (n :: spans rest) := .of_perm (hperm.map _)
    simp only [hnode]
    split
    · rename_i he
      exact ⟨rest, h'.remove, he ▸ hsame⟩
    · split
      · refine ⟨_, h'.takeLeft hpos (by omega), hsame.trans ?_⟩
        have := SameCover.cut n.start size (n.size - size) (spans rest)
        rwa [show size + (n.size - size) = n.size by omega] at this
      · refine ⟨_, h'.takeRight hpos (by omega), hsame.trans ?_⟩
        have := SameCover.cut n.start (n.size - size) size (spans rest)
        rw [show n.size - size + size = n.size by omega, show n.start + (n.size - size) = n.start + n.size - size by omega]
          at this
        exact this.trans (.of_perm (.swap ..))

/-! ## Adding free space -/

/-- The span is not empty and has no address in common with the free nodes. -/
structure Apart (free : Nodes) (start size : Nat) : Prop where
  pos : 0 < size
  disjoint : ∀ p ∈ free, start + size ≤ p.2.start ∨ p.2.stop ≤ start

theorem apart_of_cover {free : Nodes} {start size : Nat} (hs : Spread free) (hpos : 0 < size)
    (hc : ∀ x, cover (⟨start, size⟩ :: spans free) x ≤ 1) : Apart free start size := by
  refine ⟨hpos, fun p hp => ?_⟩
  have hd := (List.pairwise_cons.1 (pairwise_disjoint hc)).1 p.2 (List.mem_map_of_mem hp)
  have h₁ := hs.pos p hp
  have h₂ := Span.disjoint_iff.1 hd
  unfold Span.stop at *
  simp only at h₂
  omega

namespace FreeInv

variable {a : FreeSpace τ} {free rest : Nodes} {l r : NodePointer} {ln rn : FreeSpaceNode} {start size : Nat}

theorem permStart {z s s' e : Nodes} (h : Maps T a z s e) (hp : s.Perm s') : Maps T a z s' e :=
  ⟨h.sizes, h.starts.perm hp, h.ends⟩

theorem addBoth (h : FreeInv T a ((l, ln) :: (r, rn) :: rest)) (hs : Apart ((l, ln) :: (r, rn) :: rest) start size)
    (hl : ln.stop = start) (hr : rn.start = start + size) :
    FreeInv T (((((((a.sizeMapRemove T l).endMapRemove ln.stop).sizeMapRemove T r).startMapRemove
      (start + size)).endMapRemove (start + size + rn.size)).setNode l
        ⟨ln.start, ln.size + (size + rn.size)⟩).sizeMapInsert T l |>.endMapAdd (start + size + rn.size) l) ((l, ⟨ln.start, ln.size + (size + rn.size)⟩) :: rest) := by
  have hend : rn.stop = start + size + rn.size := by rw [← hr]; rfl
  have hnodup := h.nodup
  have hnl := h.not_mem_rest
  have hnodup' := (List.nodup_cons.1 hnodup).2
  have hnr := (List.nodup_cons.1 hnodup').1
  have hlrest : l ∉ rest.map Prod.fst := fun hm => hnl (List.mem_cons_of_mem _ hm)
  have hrl : r ∉ ((l, ln) :: rest).map Prod.fst := fun hm =>
    (List.mem_cons.1 hm).elim (fun he => hnl (he ▸ List.mem_cons_self ..)) hnr
  have hcur : Current a rest := fun p hp => h.current p (List.mem_cons_of_mem _ (List.mem_cons_of_mem _ hp))
  have hposr : 0 < rn.size := h.spread.tail.head
  have hposl := h.spread.head
  have hout : ∀ p ∈ rest, rn.stop < p.2.start ∨ p.2.stop < ln.start := fun p hp => by
    have h₁ := h.spread.cons_mem (List.mem_cons_of_mem _ hp)
    have h₂ := h.spread.tail.cons_mem hp
    have h₃ := hs.disjoint p (List.mem_cons_of_mem _ (List.mem_cons_of_mem _ hp))
    have h₄ := h.spread.tail.tail.pos p hp
    unfold Span.stop at *
    omega
  have hstop : (⟨ln.start, ln.size + (size + rn.size)⟩ : Span).stop = rn.stop := by
    unfold Span.stop at *
    simp only
    omega
  have hcur' : Current (((((((a.sizeMapRemove T l).endMapRemove ln.stop).sizeMapRemove T r).startMapRemove
      (start + size)).endMapRemove (start + size + rn.size)).setNode l ⟨ln.start, ln.size + (size + rn.size)⟩))
      ((l, ⟨ln.start, ln.size + (size + rn.size)⟩) :: rest) := Current.setNode hcur hlrest
  have h₁ := (h.maps.sizeMapRemove hnodup).endMapRemove hnl rfl
  have h₂ := h₁.sizeMapRemove hnodup'
  have h₃ := ((permStart h₂ (.swap ..)).startMapRemove hrl hr).endMapRemove hnr hend
  have h₄ := (h₃.setNode (i := l) (n := ⟨ln.start, ln.size + (size + rn.size)⟩)).sizeMapInsert hcur' hlrest
  have h₅ := (h₄.changeStart (show (⟨ln.start, ln.size + (size + rn.size)⟩ : Span).start = ln.start from rfl)).endMapAdd (i := l) (fun p hp => by
    have := hout p hp
    have := h.spread.tail.tail.pos p hp
    unfold Span.stop at *
    omega) (hstop.trans hend)
  refine ⟨h₅, hcur', List.nodup_cons.2 ⟨hlrest, (List.nodup_cons.1 hnodup').2⟩, fun p hp => ?_,
    h.spread.tail.tail.cons (by simp only; omega) fun p hp => ?_⟩
  · rcases List.mem_cons.1 hp with rfl | hp
    · exact h.fresh (l, ln) (List.mem_cons_self ..)
    · exact h.fresh p (List.mem_cons_of_mem _ (List.mem_cons_of_mem _ hp))
  · rw [hstop]
    exact hout p hp

theorem addLeft (h : FreeInv T a ((l, ln) :: rest)) (hs : Apart ((l, ln) :: rest) start size) (hl : ln.stop = start)
    (hr : ∀ p ∈ rest, p.2.start ≠ start + size) :
    FreeInv T ((((a.sizeMapRemove T l).endMapRemove ln.stop).setNode l ⟨ln.start, ln.size + size⟩).sizeMapInsert
      T l |>.endMapAdd (start + size) l) ((l, ⟨ln.start, ln.size + size⟩) :: rest) := by
  have hi := h.not_mem_rest
  have hpos := hs.pos
  have hout : ∀ p ∈ rest, start + size < p.2.start ∨ p.2.stop < ln.start := fun p hp => by
    have h₁ := h.spread.cons_mem hp
    have h₃ := hs.disjoint p (List.mem_cons_of_mem _ hp)
    have h₄ := h.spread.tail.pos p hp
    have h₅ := hr p hp
    unfold Span.stop at *
    omega
  have hstop : (⟨ln.start, ln.size + size⟩ : Span).stop = start + size := by
    unfold Span.stop at *
    simp only
    omega
  have hcur : Current (((a.sizeMapRemove T l).endMapRemove ln.stop).setNode l ⟨ln.start, ln.size + size⟩)
      ((l, ⟨ln.start, ln.size + size⟩) :: rest) := Current.setNode h.current_rest hi
  have h₁ := ((h.maps.sizeMapRemove h.nodup).endMapRemove hi rfl).setNode (i := l) (n := ⟨ln.start, ln.size + size⟩)
  have h₂ := (h₁.sizeMapInsert hcur hi).changeStart (show (⟨ln.start, ln.size + size⟩ : Span).start = ln.start from rfl)
  have h₃ := h₂.endMapAdd (i := l) (fun p hp => by
    have := hout p hp
    have := h.spread.tail.pos p hp
    have := h.spread.head
    unfold Span.stop at *
    omega) hstop
  refine h.change h₃ hcur rfl (h.spread.tail.cons (by simp only; omega) fun p hp => ?_)
  rw [hstop]
  exact hout p hp

theorem addRight (h : FreeInv T a ((r, rn) :: rest)) (hs : Apart ((r, rn) :: rest) start size)
    (hr : rn.start = start + size) (hl : ∀ p ∈ rest, p.2.stop ≠ start) :
    FreeInv T ((((a.sizeMapRemove T r).startMapRemove (start + size)).setNode r ⟨start, rn.size + size⟩).sizeMapInsert
      T r |>.startMapAdd start r) ((r, ⟨start, rn.size + size⟩) :: rest) := by
  have hi := h.not_mem_rest
  have hpos := hs.pos
  have hout : ∀ p ∈ rest, rn.stop < p.2.start ∨ p.2.stop < start := fun p hp => by
    have h₁ := h.spread.cons_mem hp
    have h₃ := hs.disjoint p (List.mem_cons_of_mem _ hp)
    have h₄ := h.spread.tail.pos p hp
    have h₅ := hl p hp
    unfold Span.stop at *
    omega
  have hstop : (⟨start, rn.size + size⟩ : Span).stop = rn.stop := by
    unfold Span.stop at *
    simp only
    omega
  have hcur : Current (((a.sizeMapRemove T r).startMapRemove (start + size)).setNode r ⟨start, rn.size + size⟩)
      ((r, ⟨start, rn.size + size⟩) :: rest) := Current.setNode h.current_rest hi
  have h₁ := ((h.maps.sizeMapRemove h.nodup).startMapRemove hi hr).setNode (i := r) (n := ⟨start, rn.size + size⟩)
  have h₂ := (h₁.sizeMapInsert hcur hi).changeEnd hstop
  have hne : ∀ p ∈ rest, p.2.start ≠ start := fun p hp => by
    have := hout p hp
    have := h.spread.tail.pos p hp
    have := h.spread.head
    unfold Span.stop at *
    omega
  have h₃ := h₂.startMapAdd (i := r) (n := ⟨start, rn.size + size⟩) hne rfl
  refine h.change h₃ hcur rfl (h.spread.tail.cons (by simp only; omega) fun p hp => ?_)
  rw [hstop]
  exact hout p hp

theorem addNew (h : FreeInv T a free) (hs : Apart free start size) (hl : ∀ p ∈ free, p.2.stop ≠ start)
    (hr : ∀ p ∈ free, p.2.start ≠ start + size) :
    FreeInv T ((((a.allocFreeSpaceNode ⟨start, size⟩).sizeMapInsert T a.nextNode).startMapAdd start
      a.nextNode).endMapAdd (start + size) a.nextNode) ((a.nextNode, ⟨start, size⟩) :: free) := by
  have hi : a.nextNode ∉ free.map Prod.fst := fun hm => by
    obtain ⟨p, hp, he⟩ := List.mem_map.1 hm
    exact absurd he (Nat.ne_of_lt (h.fresh p hp))
  have hpos := hs.pos
  have hout : ∀ p ∈ free, start + size < p.2.start ∨ p.2.stop < start := fun p hp => by
    have h₁ := hs.disjoint p hp
    have h₂ := hl p hp
    have h₃ := hr p hp
    omega
  have hcur : Current (a.allocFreeSpaceNode ⟨start, size⟩) ((a.nextNode, ⟨start, size⟩) :: free) :=
    Current.setNode h.current hi
  have h₁ : Maps T (a.allocFreeSpaceNode ⟨start, size⟩) free free free := ⟨h.maps.sizes, h.maps.starts, h.maps.ends⟩
  have hne : ∀ p ∈ free, p.2.start ≠ start ∧ p.2.stop ≠ start + size := fun p hp => by
    have := hout p hp
    have := h.spread.pos p hp
    unfold Span.stop at *
    omega
  have h₂ := (h₁.sizeMapInsert hcur hi).startMapAdd (i := a.nextNode) (n := ⟨start, size⟩) (fun p hp => (hne p hp).1) rfl
  have h₃ := h₂.endMapAdd (i := a.nextNode) (n := ⟨start, size⟩) (fun p hp => (hne p hp).2) rfl
  refine ⟨h₃, hcur, List.nodup_cons.2 ⟨hi, h.nodup⟩, fun p hp => ?_, h.spread.cons hpos hout⟩
  rcases List.mem_cons.1 hp with rfl | hp
  · exact Nat.lt_succ_self _
  · exact Nat.lt_succ_of_lt (h.fresh p hp)

end FreeInv

/-- **`addFreeSpace`** keeps the three maps in step and coalesces on both sides. -/
theorem addFreeSpace_inv {a : FreeSpace τ} {free : Nodes} (h : FreeInv T a free) {start size : Nat} (hpos : 0 < size)
    (hc : ∀ x, cover (⟨start, size⟩ :: spans free) x ≤ 1) :
    ∃ free', FreeInv T (a.addFreeSpace T start size) free' ∧
      SameCover (spans free') (⟨start, size⟩ :: spans free) := by
  have hs := apart_of_cover h.spread hpos hc
  unfold FreeSpace.addFreeSpace
  simp only
  split
  · -- a free node on the left
    rename_i l hl
    obtain ⟨ln, hln, hlstop⟩ := (h.maps.ends _ _).1 hl
    obtain ⟨rest₁, hp₁, h₁⟩ := h.cons_of_mem hln
    obtain rfl : a.nodes l = ln := h.current _ hln
    have hs₁ : Apart ((l, a.nodes l) :: rest₁) start size := ⟨hpos, fun p hp => hs.disjoint p (hp₁.mem_iff.2 hp)⟩
    have hcoverL : SameCover (spans free) (a.nodes l :: spans rest₁) := .of_perm (hp₁.map _)
    have hsum : (a.nodes l).start + (a.nodes l).size = start := hlstop
    split
    · -- and one on the right
      rename_i r hr
      obtain ⟨rn, hrn, hrstart⟩ := (h.maps.starts _ _).1 hr
      have hne : (r, rn) ≠ (l, a.nodes l) := fun he => by
        obtain ⟨-, rfl⟩ := Prod.mk.inj he
        omega
      have hrn₁ : (r, rn) ∈ rest₁ := (List.mem_cons.1 (hp₁.mem_iff.1 hrn)).resolve_left hne
      have hp₂ : rest₁.Perm ((r, rn) :: rest₁.erase (r, rn)) := List.perm_cons_erase hrn₁
      have h₂ := h₁.perm (hp₂.cons (l, a.nodes l))
      have hs₂ : Apart ((l, a.nodes l) :: (r, rn) :: rest₁.erase (r, rn)) start size :=
        ⟨hpos, fun p hp => hs₁.disjoint p ((hp₂.cons _).mem_iff.2 hp)⟩
      obtain rfl : a.nodes r = rn := h.current _ hrn
      refine ⟨_, h₂.addBoth hs₂ hlstop hrstart, ?_⟩
      · have hcut₁ := SameCover.cut (a.nodes l).start (a.nodes l).size (size + (a.nodes r).size) (spans (rest₁.erase (r, a.nodes r)))
        have hcut₂ := SameCover.cut start size (a.nodes r).size (spans (rest₁.erase (r, a.nodes r)))
        rw [hsum] at hcut₁
        have hright : (⟨start + size, (a.nodes r).size⟩ : Span) = a.nodes r := Span.ext hrstart.symm rfl
        rw [hright] at hcut₂
        refine hcut₁.trans (hcut₂.cons.trans ?_)
        have hfree := hcoverL.trans (.cons (.of_perm (hp₂.map _)))
        exact (SameCover.of_perm (.swap ..)).trans hfree.symm.cons
    · rename_i hr
      have hnone : ∀ p ∈ rest₁, p.2.start ≠ start + size := fun p hp he => by
        have := (h₁.maps.starts.get (List.mem_cons_of_mem _ hp))
        rw [he, hr] at this
        cases this
      refine ⟨_, h₁.addLeft hs₁ hlstop hnone, ?_⟩
      · have hcut := SameCover.cut (a.nodes l).start (a.nodes l).size size (spans rest₁)
        rw [hsum] at hcut
        exact hcut.trans ((SameCover.of_perm (.swap ..)).trans hcoverL.symm.cons)
  · rename_i hl
    have hleft : ∀ p ∈ free, p.2.stop ≠ start := fun p hp he => by
      have := h.maps.ends.get hp
      rw [he, hl] at this
      cases this
    split
    · -- a free node on the right only
      rename_i r hr
      obtain ⟨rn, hrn, hrstart⟩ := (h.maps.starts _ _).1 hr
      obtain ⟨rest₁, hp₁, h₁⟩ := h.cons_of_mem hrn
      have hs₁ : Apart ((r, rn) :: rest₁) start size := ⟨hpos, fun p hp => hs.disjoint p (hp₁.mem_iff.2 hp)⟩
      obtain rfl : a.nodes r = rn := h.current _ hrn
      have hleft₁ : ∀ p ∈ rest₁, p.2.stop ≠ start := fun p hp => hleft p (hp₁.mem_iff.2 (List.mem_cons_of_mem _ hp))
      refine ⟨_, h₁.addRight hs₁ hrstart hleft₁, ?_⟩
      · have hsame : SameCover (spans free) (a.nodes r :: spans rest₁) := .of_perm (hp₁.map _)
        have hcut := SameCover.cut start size (a.nodes r).size (spans rest₁)
        have hright : (⟨start + size, (a.nodes r).size⟩ : Span) = a.nodes r := Span.ext hrstart.symm rfl
        rw [hright, Nat.add_comm] at hcut
        exact hcut.trans hsame.symm.cons
    · rename_i hr
      have hright : ∀ p ∈ free, p.2.start ≠ start + size := fun p hp he => by
        have := h.maps.starts.get hp
        rw [he, hr] at this
        cases this
      exact ⟨_, h.addNew hs hleft hright, .refl _⟩

end WebKit.WTF
