import WebKit.WTF.ListHashSetSteps

/-!
# Runs of list hash sets

A list hash set is a sequence without duplicates. `SetOp.apply` says what each operation is on the sequence, and
`SetOp.code` is the operation of the set.

- `iterate_eq`, `iterateBackwards_eq`, `contains_eq`, `iteratorAt_eq`: what is read;
- `add_spec`, `insertBeforeIterator_spec`, `removeNode_spec`, `clear_spec`, `copy_spec`: what is changed;
- `SetOp.code_spec`, `WorldOp.code_spec`, `listHashSet_refines`: one operation of a set, of several sets, and runs.
-/

namespace WebKit.WTF

open WebKit.Lib

namespace ListHashSet

variable {α : Type} {inlineCapacity : Nat} {malloc : List Nat → Nat} {s s' : ListHashSet α} {ns xs ys : List NodePtr}
  {n p : NodePtr} {seq seq₁ seq₂ : List α} {v w : α}

/-! ## What is read -/

theorem iteratorAt_linked {before : Option NodePtr} (h : Linked s.links.prev s.links.next before ns none)
    (hv : ∀ p ∈ ns, (s.value p).isSome) (k : Nat) : s.iteratorAt k ns.head? = .ok ns[k]? := by
  induction k generalizing ns before with
  | zero =>
    rw [← List.head?_eq_getElem?]
    cases ns <;> rfl
  | succ k ih =>
    cases ns with
    | nil => rfl
    | cons p ns =>
      obtain ⟨v, hvp⟩ := Option.isSome_iff_exists.1 (hv p List.mem_cons_self)
      obtain ⟨-, hnext, hrest⟩ := h
      rw [List.head?_cons, iteratorAt, readNode_eq hvp, list_bind, hnext, Option.or_none, List.getElem?_cons_succ]
      exact ih hrest fun q hq => hv q (List.mem_cons_of_mem p hq)

theorem Holds.iteratorAt_eq (h : Holds inlineCapacity s ns seq) (k : Nat) : s.iteratorAt k s.m_head = .ok ns[k]? := by
  have hhead : s.m_head = ns.head? := h.lists.head_eq
  rw [hhead]
  exact iteratorAt_linked h.lists.linked (fun p hp => h.value_isSome hp) k

theorem iterateFrom_linked {before : Option NodePtr} (h : Linked s.links.prev s.links.next before ns none)
    (hvalues : ns.map s.value = seq.map some) : s.iterateFrom ns.length ns.head? = .ok seq := by
  induction ns generalizing before seq with
  | nil =>
    obtain rfl : seq = [] := List.map_eq_nil_iff.1 hvalues.symm
    rfl
  | cons p ns ih =>
    cases seq with
    | nil => cases hvalues
    | cons v seq =>
      obtain ⟨hvp, hvalues⟩ := List.cons.inj hvalues
      obtain ⟨-, hnext, hrest⟩ := h
      rw [List.head?_cons, List.length_cons, iterateFrom, readNode_eq hvp, list_bind, hnext, Option.or_none]
      simp only [ih hrest hvalues]
      rfl

theorem Holds.length_eq (h : Holds inlineCapacity s ns seq) : ns.length = seq.length := by
  have hlength := congrArg List.length h.values
  rwa [List.length_map, List.length_map] at hlength

theorem Holds.size_eq (h : Holds inlineCapacity s ns seq) : s.size = seq.length :=
  h.perm.length_eq.trans h.length_eq

/-- **Iterating forwards lists the sequence.** -/
theorem Holds.iterate_eq (h : Holds inlineCapacity s ns seq) : s.iterate = .ok seq := by
  have hhead : s.m_head = ns.head? := h.lists.head_eq
  rw [iterate, hhead, h.size_eq, ← h.length_eq]
  exact iterateFrom_linked h.lists.linked h.values

/-- In front of a part of the list is the last node of the other part. -/
theorem decrement_eq (h : s.links.Lists (xs ++ p :: ys)) (hv : ∀ q ∈ ys, (s.value q).isSome) :
    ys.head? ≠ s.m_head ∧ s.decrement ys.head? = .ok (some p) := by
  have hhead : s.m_head = (xs ++ p :: ys).head? := h.head_eq
  have htail : s.m_tail = (xs ++ p :: ys).getLast? := h.tail_eq
  cases ys with
  | nil =>
    rw [List.getLast?_concat] at htail
    refine ⟨fun heq => ?_, by rw [List.head?_nil, decrement, htail]⟩
    rw [hhead] at heq
    cases xs <;> cases heq
  | cons q ys =>
    obtain ⟨u, hq⟩ := Option.isSome_iff_exists.1 (hv q List.mem_cons_self)
    have hnodup := h.nodup
    have hlists : s.links.Lists ((xs ++ [p]) ++ q :: ys) := by rwa [List.append_assoc]
    obtain ⟨hprev, -⟩ := hlists.prev_next
    rw [List.getLast?_concat] at hprev
    refine ⟨fun heq => ?_, by rw [List.head?_cons, decrement, readNode_eq hq, list_bind, hprev]; rfl⟩
    have hmem : q ∈ xs ++ [p] := by
      rw [hhead, List.head?_cons] at heq
      refine List.mem_of_head? (heq ▸ ?_ : (xs ++ [p]).head? = some q)
      cases xs <;> rfl
    exact (List.nodup_append.1 hlists.nodup).2.2 q hmem q List.mem_cons_self rfl

section

variable [DecidableEq α] {base : Option NodePtr}

theorem iterateBackwardsFrom_head (fuel : Nat) (h : base = s.m_head) : s.iterateBackwardsFrom fuel base = .ok [] := by
  rw [iterateBackwardsFrom.eq_def]
  exact if_pos h

theorem iterateBackwardsFrom_succ (fuel : Nat) (hne : base ≠ s.m_head) (hdecrement : s.decrement base = .ok (some p))
    (hv : s.value p = some v) (hrest : s.iterateBackwardsFrom fuel (some p) = .ok seq) :
    s.iterateBackwardsFrom (fuel + 1) base = .ok (v :: seq) := by
  rw [iterateBackwardsFrom.eq_def]
  simp only [if_neg hne, hdecrement, list_bind, readNode_eq hv, hrest]
  rfl

theorem iterateBackwardsFrom_lists (h : s.links.Lists (xs ++ ys)) (hxs : xs.map s.value = seq.map some)
    (hv : ∀ q ∈ ys, (s.value q).isSome) : s.iterateBackwardsFrom xs.length ys.head? = .ok seq.reverse := by
  induction xs using List.reverseRecOn generalizing ys seq with
  | nil =>
    obtain rfl : seq = [] := List.map_eq_nil_iff.1 hxs.symm
    exact iterateBackwardsFrom_head 0 h.head_eq.symm
  | append_singleton xs p ih =>
    rw [List.map_append] at hxs
    obtain ⟨seq, last, rfl, hfront, hlast⟩ := List.map_eq_append_iff.1 hxs.symm
    obtain ⟨v, rest, rfl, hvp, hrest⟩ := List.map_eq_cons_iff.1 hlast
    obtain rfl : rest = [] := List.map_eq_nil_iff.1 hrest
    rw [List.append_assoc] at h
    obtain ⟨hne, hdecrement⟩ := decrement_eq h hv
    have hvalues : s.iterateBackwardsFrom xs.length (p :: ys).head? = .ok seq.reverse :=
      ih h hfront.symm (List.forall_mem_cons.2 ⟨by rw [← hvp]; rfl, hv⟩)
    rw [List.length_append, List.length_singleton, List.reverse_append]
    exact iterateBackwardsFrom_succ xs.length hne hdecrement hvp.symm hvalues

end

/-- **Iterating backwards lists the reverse.** -/
theorem Holds.iterateBackwards_eq [DecidableEq α] (h : Holds inlineCapacity s ns seq) :
    s.iterateBackwards = .ok seq.reverse := by
  have hlists : s.links.Lists (ns ++ []) := by rw [List.append_nil]; exact h.lists
  rw [iterateBackwards, h.size_eq, ← h.length_eq]
  exact iterateBackwardsFrom_lists hlists h.values nofun

variable [DecidableEq α]

theorem Holds.contains_eq (h : Holds inlineCapacity s ns seq) (v : α) : s.contains v = .ok (decide (v ∈ seq)) := by
  rw [contains]
  by_cases hv : v ∈ seq
  · obtain ⟨p, hp, hvp⟩ := h.mem_iff.1 hv
    rw [h.implFind_eq hp hvp, decide_eq_true hv]
    rfl
  · rw [h.implFind_none hv, decide_eq_false hv]
    rfl

/-! ## What is changed -/

theorem Holds.exists_split (h : Holds inlineCapacity s ns seq) (hv : v ∈ seq) :
    ∃ seq₁ seq₂ xs n ys, seq = seq₁ ++ v :: seq₂ ∧ ns = xs ++ n :: ys ∧ xs.map s.value = seq₁.map some ∧
      s.value n = some v ∧ ys.map s.value = seq₂.map some ∧ seq.erase v = seq₁ ++ seq₂ := by
  obtain ⟨seq₁, seq₂, rfl⟩ := List.append_of_mem hv
  obtain ⟨xs, n, ys, rfl, hxs, hn, hys⟩ := h.split
  refine ⟨seq₁, seq₂, xs, n, ys, rfl, rfl, hxs, hn, hys, ?_⟩
  have hnot : v ∉ seq₁ := fun hmem => (List.nodup_append.1 h.nodup).2.2 v hmem v List.mem_cons_self rfl
  rw [List.erase_append_right _ hnot, List.erase_cons_head]

/-- **`add`** -/
theorem Holds.add_spec (hmalloc : ∀ heap, malloc heap ∉ heap) (h : Holds inlineCapacity s ns seq) (v : α) :
    ∃ s' ns', s.add malloc inlineCapacity v = .ok (s', decide (v ∉ seq)) ∧
      Holds inlineCapacity s' ns' (if v ∈ seq then seq else seq ++ [v]) := by
  rw [add]
  by_cases hv : v ∈ seq
  · obtain ⟨p, hp, hvp⟩ := h.mem_iff.1 hv
    rw [h.implAdd_eq hp hvp, decide_eq_false (not_not_intro hv), if_pos hv]
    exact ⟨s, ns, rfl, h⟩
  · obtain ⟨s₁, n, hadd, himpl, hpending, -⟩ := h.implAdd_spec hmalloc hv
    obtain ⟨s₂, happend, himpl₂, hcontent⟩ := hpending.append
    rw [hadd, decide_eq_true hv, if_neg hv, list_bind]
    simp only [if_true, happend, list_bind]
    refine ⟨s₂, _, rfl, hcontent, ?_⟩
    rw [himpl₂, himpl]
    exact (h.perm.cons n).trans (List.perm_append_singleton n ns).symm

/-- **A node is put at the end**, new or moved. -/
theorem Holds.appendOrMoveToLast_spec (hmalloc : ∀ heap, malloc heap ∉ heap) (h : Holds inlineCapacity s ns seq)
    (v : α) :
    ∃ s' ns', s.appendOrMoveToLast malloc inlineCapacity v = .ok (s', decide (v ∉ seq)) ∧
      Holds inlineCapacity s' ns' (seq.erase v ++ [v]) := by
  rw [appendOrMoveToLast]
  by_cases hv : v ∈ seq
  · obtain ⟨seq₁, seq₂, xs, n, ys, rfl, rfl, hxs, hn, hys, herase⟩ := h.exists_split hv
    obtain ⟨s₁, hunlink, himpl, hpending⟩ := h.toContent.unlink hxs hn hys
    obtain ⟨s₂, happend, himpl₂, hcontent⟩ := hpending.append
    rw [h.implAdd_eq (List.mem_append_right _ List.mem_cons_self) hn, decide_eq_false (not_not_intro hv), herase,
      list_bind]
    simp only [Bool.not_false, if_true, hunlink, happend, list_bind]
    refine ⟨s₂, _, rfl, hcontent, ?_⟩
    rw [himpl₂, himpl]
    exact h.perm.trans (List.perm_middle.trans (List.perm_append_singleton n _).symm)
  · obtain ⟨s₁, n, hadd, himpl, hpending, -⟩ := h.implAdd_spec hmalloc hv
    obtain ⟨s₂, happend, himpl₂, hcontent⟩ := hpending.append
    rw [hadd, decide_eq_true hv, List.erase_of_not_mem hv, list_bind]
    simp only [Bool.not_true, Bool.false_eq_true, if_false, pure_bind, happend, list_bind]
    refine ⟨s₂, _, rfl, hcontent, ?_⟩
    rw [himpl₂, himpl]
    exact (h.perm.cons n).trans (List.perm_append_singleton n ns).symm

/-- **A node is put at the front**, new or moved. -/
theorem Holds.prependOrMoveToFirst_spec (hmalloc : ∀ heap, malloc heap ∉ heap) (h : Holds inlineCapacity s ns seq)
    (v : α) :
    ∃ s' ns', s.prependOrMoveToFirst malloc inlineCapacity v = .ok (s', decide (v ∉ seq)) ∧
      Holds inlineCapacity s' ns' (v :: seq.erase v) := by
  rw [prependOrMoveToFirst]
  by_cases hv : v ∈ seq
  · obtain ⟨seq₁, seq₂, xs, n, ys, rfl, rfl, hxs, hn, hys, herase⟩ := h.exists_split hv
    obtain ⟨s₁, hunlink, himpl, hpending⟩ := h.toContent.unlink hxs hn hys
    obtain ⟨s₂, hprepend, himpl₂, hcontent⟩ := hpending.prepend
    rw [h.implAdd_eq (List.mem_append_right _ List.mem_cons_self) hn, decide_eq_false (not_not_intro hv), herase,
      list_bind]
    simp only [Bool.not_false, if_true, hunlink, hprepend, list_bind]
    refine ⟨s₂, _, rfl, hcontent, ?_⟩
    rw [himpl₂, himpl]
    exact h.perm.trans List.perm_middle
  · obtain ⟨s₁, n, hadd, himpl, hpending, -⟩ := h.implAdd_spec hmalloc hv
    obtain ⟨s₂, hprepend, himpl₂, hcontent⟩ := hpending.prepend
    rw [hadd, decide_eq_true hv, List.erase_of_not_mem hv, list_bind]
    simp only [Bool.not_true, Bool.false_eq_true, if_false, pure_bind, hprepend, list_bind]
    refine ⟨s₂, _, rfl, hcontent, ?_⟩
    rw [himpl₂, himpl]
    exact h.perm.cons n

/-- The node at a place of the sequence. -/
theorem Holds.exists_split_at (h : Holds inlineCapacity s ns seq) {k : Nat} (hk : k < seq.length) :
    ∃ w xs n ys, seq[k]? = some w ∧ seq = seq.take k ++ w :: seq.drop (k + 1) ∧ ns = xs ++ n :: ys ∧ ns[k]? = some n ∧
      xs.map s.value = (seq.take k).map some ∧ s.value n = some w ∧ ys.map s.value = (seq.drop (k + 1)).map some := by
  have hseq : seq = seq.take k ++ seq[k] :: seq.drop (k + 1) := by
    rw [List.getElem_cons_drop, List.take_append_drop]
  have hcontent := h.toContent
  rw [hseq] at hcontent
  obtain ⟨xs, n, ys, rfl, hxs, hn, hys⟩ := hcontent.split
  have hlength := congrArg List.length hxs
  rw [List.length_map, List.length_map, List.length_take, Nat.min_eq_left (Nat.le_of_lt hk)] at hlength
  refine ⟨seq[k], xs, n, ys, List.getElem?_eq_getElem hk, hseq, rfl, ?_, hxs, hn, hys⟩
  rw [List.getElem?_append_right (Nat.le_of_eq hlength), hlength, Nat.sub_self]
  rfl

theorem Holds.getElem?_eq_none (h : Holds inlineCapacity s ns seq) {k : Nat} (hk : ¬k < seq.length) :
    ns[k]? = none :=
  List.getElem?_eq_none (h.length_eq ▸ Nat.not_lt.1 hk)

/-- **A new node is put in front of an iterator.** -/
theorem Holds.insertBeforeIterator_spec (hmalloc : ∀ heap, malloc heap ∉ heap) (h : Holds inlineCapacity s ns seq)
    (k : Nat) (v : α) :
    ∃ s' ns', s.insertBeforeIterator malloc inlineCapacity ns[k]? v = .ok (s', decide (v ∉ seq)) ∧
      Holds inlineCapacity s' ns' (if v ∈ seq then seq else seq.take k ++ v :: seq.drop k) := by
  rw [insertBeforeIterator]
  by_cases hv : v ∈ seq
  · obtain ⟨p, hp, hvp⟩ := h.mem_iff.1 hv
    rw [h.implAdd_eq hp hvp, decide_eq_false (not_not_intro hv), if_pos hv]
    exact ⟨s, ns, rfl, h⟩
  · obtain ⟨s₁, n, hadd, himpl, hpending, hsame⟩ := h.implAdd_spec hmalloc hv
    rw [hadd, decide_eq_true hv, if_neg hv, list_bind]
    by_cases hk : k < seq.length
    · obtain ⟨w, xs, p, ys, -, -, rfl, hp, hxs, -, -⟩ := h.exists_split_at hk
      rw [← List.take_append_drop k seq] at hpending
      have hxs₁ : xs.map s₁.value = (seq.take k).map some := by
        rw [← hxs]
        exact List.map_congr_left fun q hq => hsame q (List.mem_append_left _ hq)
      obtain ⟨s₂, hinsert, himpl₂, hcontent⟩ := hpending.insertBefore hxs₁
      simp only [if_true, hp, hinsert, list_bind]
      refine ⟨s₂, _, rfl, hcontent, ?_⟩
      rw [himpl₂, himpl]
      exact (h.perm.cons n).trans List.perm_middle.symm
    · obtain ⟨s₂, happend, himpl₂, hcontent⟩ := hpending.append
      simp only [if_true, h.getElem?_eq_none hk, insertNodeBefore, happend, list_bind]
      rw [List.take_of_length_le (Nat.not_lt.1 hk), List.drop_of_length_le (Nat.not_lt.1 hk)]
      refine ⟨s₂, _, rfl, hcontent, ?_⟩
      rw [himpl₂, himpl]
      exact (h.perm.cons n).trans (List.perm_append_singleton n ns).symm

section

variable (h : Holds inlineCapacity s (xs ++ n :: ys) (seq₁ ++ v :: seq₂)) (hxs : xs.map s.value = seq₁.map some)
  (hn : s.value n = some v) (hys : ys.map s.value = seq₂.map some)

include h hxs hn hys

/-- **A node is removed.** -/
theorem Holds.removeNode_spec :
    ∃ s', s.removeIterator inlineCapacity (some n) = .ok (s', true) ∧
      Holds inlineCapacity s' (xs ++ ys) (seq₁ ++ seq₂) := by
  have hfind := h.implFind_eq (List.mem_append_right _ List.mem_cons_self) hn
  obtain ⟨s', hdelete, hrest⟩ := h.unlinkAndDelete hxs hn hys
  refine ⟨s', ?_, hrest⟩
  simp only [removeIterator, implRemove, readNode_eq hn, list_bind, hfind]
  show (ListHashSet.unlinkAndDelete inlineCapacity { s with m_impl := s.m_impl.erase n } n >>= fun s => pure (s, true)) = _
  rw [hdelete]
  rfl

/-- **A node is taken.** -/
theorem Holds.takeNode_spec :
    ∃ s', s.takeNode inlineCapacity (some n) = .ok (s', v) ∧ Holds inlineCapacity s' (xs ++ ys) (seq₁ ++ seq₂) := by
  have hfind := h.implFind_eq (List.mem_append_right _ List.mem_cons_self) hn
  obtain ⟨s', hdelete, hrest⟩ := h.unlinkAndDelete hxs hn hys
  refine ⟨s', ?_, hrest⟩
  simp only [takeNode, readNode_eq hn, list_bind, hfind, hdelete]
  rfl

end

theorem Holds.removeIterator_spec (h : Holds inlineCapacity s ns seq) (k : Nat) :
    ∃ s' ns', s.removeIterator inlineCapacity ns[k]? = .ok (s', decide (k < seq.length)) ∧
      Holds inlineCapacity s' ns' (seq.eraseIdx k) := by
  by_cases hk : k < seq.length
  · obtain ⟨w, xs, n, ys, -, hseq, rfl, hget, hxs, hn, hys⟩ := h.exists_split_at hk
    rw [hget, decide_eq_true hk, List.eraseIdx_eq_take_drop_succ]
    obtain ⟨s', hremove, hrest⟩ := (hseq ▸ h).removeNode_spec hxs hn hys
    exact ⟨s', _, hremove, hrest⟩
  · rw [h.getElem?_eq_none hk, decide_eq_false hk, List.eraseIdx_of_length_le (Nat.not_lt.1 hk)]
    exact ⟨s, ns, rfl, h⟩

theorem Holds.remove_spec (h : Holds inlineCapacity s ns seq) (v : α) :
    ∃ s' ns', s.remove inlineCapacity v = .ok (s', decide (v ∈ seq)) ∧ Holds inlineCapacity s' ns' (seq.erase v) := by
  rw [remove, find]
  by_cases hv : v ∈ seq
  · obtain ⟨seq₁, seq₂, xs, n, ys, rfl, rfl, hxs, hn, hys, herase⟩ := h.exists_split hv
    obtain ⟨s', hremove, hrest⟩ := h.removeNode_spec hxs hn hys
    rw [h.implFind_eq (List.mem_append_right _ List.mem_cons_self) hn, decide_eq_true hv, herase, list_bind]
    exact ⟨s', _, hremove, hrest⟩
  · rw [h.implFind_none hv, decide_eq_false hv, List.erase_of_not_mem hv]
    exact ⟨s, ns, rfl, h⟩

theorem Holds.takeFirst_spec (h : Holds inlineCapacity s ns (v :: seq)) :
    ∃ s' ns', s.takeFirst inlineCapacity = .ok (s', v) ∧ Holds inlineCapacity s' ns' seq := by
  have hfront : Holds inlineCapacity s ns ([] ++ v :: seq) := h
  obtain ⟨xs, n, ys, rfl, hxs, hn, hys⟩ := hfront.toContent.split
  obtain rfl : xs = [] := List.map_eq_nil_iff.1 hxs
  have hhead : s.m_head = some n := h.lists.head_eq
  obtain ⟨s', htake, hrest⟩ := hfront.takeNode_spec hxs hn hys
  rw [takeFirst, hhead]
  exact ⟨s', _, htake, hrest⟩

theorem Holds.takeLast_spec (h : Holds inlineCapacity s ns (seq ++ [v])) :
    ∃ s' ns', s.takeLast inlineCapacity = .ok (s', v) ∧ Holds inlineCapacity s' ns' seq := by
  obtain ⟨xs, n, ys, rfl, hxs, hn, hys⟩ := h.toContent.split
  obtain rfl : ys = [] := List.map_eq_nil_iff.1 hys
  have htail : s.m_tail = some n := h.lists.tail_eq.trans List.getLast?_concat
  obtain ⟨s', htake, hrest⟩ := h.takeNode_spec hxs hn hys
  rw [List.append_nil, List.append_nil] at hrest
  rw [takeLast, htail]
  exact ⟨s', _, htake, hrest⟩

theorem Holds.find_eq (h : Holds inlineCapacity s ns seq) (v : α) : s.find v = .ok ns[seq.idxOf v]? := by
  rw [find]
  by_cases hv : v ∈ seq
  · have hlt := List.idxOf_lt_length_iff.2 hv
    obtain ⟨w, xs, n, ys, hw, -, rfl, hget, -, hn, -⟩ := h.exists_split_at hlt
    obtain rfl : v = w := by
      rw [List.getElem?_eq_getElem hlt, List.getElem_idxOf] at hw
      exact Option.some.inj hw
    rw [hget]
    exact h.implFind_eq (List.mem_append_right _ List.mem_cons_self) hn
  · rw [h.implFind_none hv, h.getElem?_eq_none (fun hlt => hv (List.idxOf_lt_length_iff.1 hlt))]

/-! ## All nodes are deleted -/

open ListHashSetNodeAllocator in
omit [DecidableEq α] in
theorem deleteLoop_spec {a : ListHashSetNodeAllocator α} {prev next : NodePtr → Option NodePtr}
    {before : Option NodePtr} (hok : AllocatorOk inlineCapacity a ns) (hnodup : ns.Nodup)
    (hlinked : Linked prev next before ns none) (hnext : ∀ p ∈ ns, (a.nodes p).m_next = next p)
    (hv : ∀ p ∈ ns, (a.nodes p).m_value.isSome) :
    ∃ a', deleteLoop inlineCapacity ns.length ns.head? a = .ok a' ∧ AllocatorOk inlineCapacity a' [] ∧
      (∀ p ∈ ns, (a'.nodes p).m_value = none) ∧ ∀ p, p ∉ ns → a'.nodes p = a.nodes p := by
  induction ns generalizing a before with
  | nil => exact ⟨a, rfl, hok, nofun, fun _ _ => rfl⟩
  | cons p ns ih =>
    obtain ⟨v, hvp⟩ := Option.isSome_iff_exists.1 (hv p List.mem_cons_self)
    obtain ⟨hnot, hnodup'⟩ := List.nodup_cons.1 hnodup
    obtain ⟨-, hp, hlinked⟩ := hlinked
    obtain ⟨a₁, hdestroy, hok₁, hnone, hsame⟩ := destroy_spec hok hnodup List.mem_cons_self hvp
    rw [List.erase_cons_head] at hok₁
    have hkept : ∀ q ∈ ns, a₁.nodes q = a.nodes q := fun q hq => hsame q fun heq => hnot (heq ▸ hq)
    obtain ⟨a₂, hloop, hok₂, hnone₂, hsame₂⟩ := ih hok₁ hnodup' hlinked
      (fun q hq => by rw [hkept q hq]; exact hnext q (List.mem_cons_of_mem p hq))
      fun q hq => by rw [hkept q hq]; exact hv q (List.mem_cons_of_mem p hq)
    refine ⟨a₂, ?_, hok₂, List.forall_mem_cons.2 ⟨?_, hnone₂⟩, fun q hq => ?_⟩
    · rw [List.head?_cons, List.length_cons, deleteLoop, ListHashSetNodeAllocator.readNode_eq hvp, list_bind]
      simp only [hdestroy, list_bind, hnext p List.mem_cons_self, hp, Option.or_none, hloop]
    · rw [hsame₂ p hnot, hnone]
    · obtain ⟨hne, hq⟩ := not_or.1 (mt List.mem_cons.2 hq)
      rw [hsame₂ q hq, hsame q hne]

omit [DecidableEq α] in
theorem Holds.deleteAllNodes_spec (h : Holds inlineCapacity s ns seq) :
    ∃ s', s.deleteAllNodes inlineCapacity = .ok s' ∧
      ListHashSetNodeAllocator.AllocatorOk inlineCapacity s'.m_allocator [] ∧ ∀ p, s'.value p = none := by
  have hhead : s.m_head = ns.head? := h.lists.head_eq
  obtain ⟨a, hloop, hok, hnone, hsame⟩ := deleteLoop_spec h.allocator h.lists.nodup h.lists.linked (fun _ _ => rfl)
    fun p hp => h.value_isSome hp
  rw [deleteAllNodes, hhead, h.perm.length_eq, hloop]
  refine ⟨_, rfl, hok, fun p => ?_⟩
  by_cases hp : p ∈ ns
  · exact hnone p hp
  · exact (congrArg ListHashSetNode.m_value (hsame p hp)).trans (h.unused p hp)

omit [DecidableEq α] in
theorem Holds.clear_spec (h : Holds inlineCapacity s ns seq) :
    ∃ s', s.clear inlineCapacity = .ok s' ∧ Holds inlineCapacity s' [] [] := by
  obtain ⟨s', hdelete, hok, hnone⟩ := h.deleteAllNodes_spec
  rw [clear, hdelete, list_bind]
  exact ⟨_, rfl, ⟨Links.lists_nil rfl rfl, rfl, .nil, hok, fun p _ => hnone p⟩, .nil⟩

theorem Holds.addAll_spec (hmalloc : ∀ heap, malloc heap ∉ heap) (h : Holds inlineCapacity s ns seq)
    {values : List α} (hnodup : (seq ++ values).Nodup) :
    ∃ s' ns', values.foldlM (fun set value => do
        let (set, _) ← set.add malloc inlineCapacity value
        return set) s = (.ok s' : Except ListFault (ListHashSet α)) ∧ Holds inlineCapacity s' ns' (seq ++ values) := by
  induction values generalizing s ns seq with
  | nil =>
    rw [List.append_nil]
    exact ⟨s, ns, rfl, h⟩
  | cons v values ih =>
    have hv : v ∉ seq := fun hmem => (List.nodup_append.1 hnodup).2.2 v hmem v List.mem_cons_self rfl
    obtain ⟨s₁, ns₁, hadd, h₁⟩ := h.add_spec hmalloc v
    rw [if_neg hv] at h₁
    rw [List.append_cons] at hnodup ⊢
    obtain ⟨s₂, ns₂, hrest, h₂⟩ := ih h₁ hnodup
    refine ⟨s₂, ns₂, ?_, h₂⟩
    rw [List.foldlM_cons, hadd]
    exact hrest

/-- **The copy constructor.** -/
theorem Holds.copy_spec (hmalloc : ∀ heap, malloc heap ∉ heap) (hcapacity : 0 < inlineCapacity)
    (h : Holds inlineCapacity s ns seq) :
    ∃ s' ns', s.copy malloc inlineCapacity = .ok s' ∧ Holds inlineCapacity s' ns' seq := by
  rw [copy, h.iterate_eq, list_bind]
  exact (holds_create hcapacity).addAll_spec hmalloc h.nodup

/-! ## Runs -/

/-- What an operation returns. -/
inductive Answer (α : Type)
  | done
  | flag (b : Bool)
  | value (v : α)

/-- The operations of one set. Iterators are given by their place, which is the end if it is behind all values. -/
inductive SetOp (α : Type)
  | add (value : α)
  | appendOrMoveToLast (value : α)
  | prependOrMoveToFirst (value : α)
  | insertBeforeIterator (k : Nat) (newValue : α)
  | insertBefore (beforeValue newValue : α)
  | remove (value : α)
  | removeIterator (k : Nat)
  | takeFirst
  | takeLast
  | clear

/-- The operation of the set. -/
def SetOp.code (malloc : List Nat → Nat) (inlineCapacity : Nat) (s : ListHashSet α) :
    SetOp α → Except ListFault (ListHashSet α × Answer α)
  | .add value => do
    let (s, isNewEntry) ← s.add malloc inlineCapacity value
    return (s, .flag isNewEntry)
  | .appendOrMoveToLast value => do
    let (s, isNewEntry) ← s.appendOrMoveToLast malloc inlineCapacity value
    return (s, .flag isNewEntry)
  | .prependOrMoveToFirst value => do
    let (s, isNewEntry) ← s.prependOrMoveToFirst malloc inlineCapacity value
    return (s, .flag isNewEntry)
  | .insertBeforeIterator k newValue => do
    let it ← s.iteratorAt k s.m_head
    let (s, isNewEntry) ← s.insertBeforeIterator malloc inlineCapacity it newValue
    return (s, .flag isNewEntry)
  | .insertBefore beforeValue newValue => do
    let (s, isNewEntry) ← s.insertBefore malloc inlineCapacity beforeValue newValue
    return (s, .flag isNewEntry)
  | .remove value => do
    let (s, removed) ← s.remove inlineCapacity value
    return (s, .flag removed)
  | .removeIterator k => do
    let it ← s.iteratorAt k s.m_head
    let (s, removed) ← s.removeIterator inlineCapacity it
    return (s, .flag removed)
  | .takeFirst => do
    let (s, value) ← s.takeFirst inlineCapacity
    return (s, .value value)
  | .takeLast => do
    let (s, value) ← s.takeLast inlineCapacity
    return (s, .value value)
  | .clear => do
    let s ← s.clear inlineCapacity
    return (s, .done)

/-- A new value in front of a place of the sequence. -/
def insertAt (seq : List α) (k : Nat) (v : α) : List α × Answer α :=
  (if v ∈ seq then seq else seq.take k ++ v :: seq.drop k, .flag (decide (v ∉ seq)))

/-- The operation on the sequence. Nothing is taken from an empty one. -/
def SetOp.apply (seq : List α) : SetOp α → Option (List α × Answer α)
  | .add value => some (if value ∈ seq then seq else seq ++ [value], .flag (decide (value ∉ seq)))
  | .appendOrMoveToLast value => some (seq.erase value ++ [value], .flag (decide (value ∉ seq)))
  | .prependOrMoveToFirst value => some (value :: seq.erase value, .flag (decide (value ∉ seq)))
  | .insertBeforeIterator k newValue => some (insertAt seq k newValue)
  | .insertBefore beforeValue newValue => some (insertAt seq (seq.idxOf beforeValue) newValue)
  | .remove value => some (seq.erase value, .flag (decide (value ∈ seq)))
  | .removeIterator k => some (seq.eraseIdx k, .flag (decide (k < seq.length)))
  | .takeFirst => seq.head?.map fun value => (seq.tail, .value value)
  | .takeLast => seq.getLast?.map fun value => (seq.dropLast, .value value)
  | .clear => some ([], .done)

/-- **One operation.** -/
theorem SetOp.code_spec (hmalloc : ∀ heap, malloc heap ∉ heap) (h : Holds inlineCapacity s ns seq) (op : SetOp α)
    {seq' : List α} {answer : Answer α} (happly : op.apply seq = some (seq', answer)) :
    ∃ s' ns', op.code malloc inlineCapacity s = .ok (s', answer) ∧ Holds inlineCapacity s' ns' seq' := by
  cases op with
  | add value =>
    cases happly
    obtain ⟨s', ns', heq, h'⟩ := h.add_spec hmalloc value
    exact ⟨s', ns', by rw [code, heq]; rfl, h'⟩
  | appendOrMoveToLast value =>
    cases happly
    obtain ⟨s', ns', heq, h'⟩ := h.appendOrMoveToLast_spec hmalloc value
    exact ⟨s', ns', by rw [code, heq]; rfl, h'⟩
  | prependOrMoveToFirst value =>
    cases happly
    obtain ⟨s', ns', heq, h'⟩ := h.prependOrMoveToFirst_spec hmalloc value
    exact ⟨s', ns', by rw [code, heq]; rfl, h'⟩
  | insertBeforeIterator k newValue =>
    cases happly
    obtain ⟨s', ns', heq, h'⟩ := h.insertBeforeIterator_spec hmalloc k newValue
    exact ⟨s', ns', by rw [code, h.iteratorAt_eq, list_bind, heq]; rfl, h'⟩
  | insertBefore beforeValue newValue =>
    cases happly
    obtain ⟨s', ns', heq, h'⟩ := h.insertBeforeIterator_spec hmalloc (seq.idxOf beforeValue) newValue
    exact ⟨s', ns', by rw [code, ListHashSet.insertBefore, h.find_eq, list_bind, heq]; rfl, h'⟩
  | remove value =>
    cases happly
    obtain ⟨s', ns', heq, h'⟩ := h.remove_spec value
    exact ⟨s', ns', by rw [code, heq]; rfl, h'⟩
  | removeIterator k =>
    cases happly
    obtain ⟨s', ns', heq, h'⟩ := h.removeIterator_spec k
    exact ⟨s', ns', by rw [code, h.iteratorAt_eq, list_bind, heq]; rfl, h'⟩
  | takeFirst =>
    cases seq with
    | nil => cases happly
    | cons value seq =>
      cases happly
      obtain ⟨s', ns', heq, h'⟩ := h.takeFirst_spec
      exact ⟨s', ns', by rw [code, heq]; rfl, h'⟩
  | takeLast =>
    obtain ⟨value, hlast, heq⟩ := Option.map_eq_some_iff.1 happly
    cases heq
    have hseq : seq = seq.dropLast ++ [value] := (List.dropLast_append_getLast? value hlast).symm
    obtain ⟨s', ns', heq, h'⟩ := (hseq ▸ h).takeLast_spec
    exact ⟨s', ns', by rw [code, heq]; rfl, h'⟩
  | clear =>
    cases happly
    obtain ⟨s', heq, h'⟩ := h.clear_spec
    exact ⟨s', [], by rw [code, heq]; rfl, h'⟩

/-- The operations of several sets, which are given by their places. -/
inductive WorldOp (α : Type)
  | create
  | copy (i : Nat)
  | assign (i j : Nat)
  | swap (i j : Nat)
  | on (i : Nat) (op : SetOp α)

def setAt (w : List (ListHashSet α)) (i : Nat) : Except ListFault (ListHashSet α) :=
  match w[i]? with
  | some s => .ok s
  | none => .error .wild

/-- The operation of the sets. An assignment copies the other set, and deletes the nodes of the old one. -/
def WorldOp.code (malloc : List Nat → Nat) (inlineCapacity : Nat) (w : List (ListHashSet α)) :
    WorldOp α → Except ListFault (List (ListHashSet α) × Answer α)
  | .create => .ok (w ++ [ListHashSet.create], .done)
  | .copy i => do
    let tmp ← (← setAt w i).copy malloc inlineCapacity
    return (w ++ [tmp], .done)
  | .assign i j => do
    let tmp ← (← setAt w j).copy malloc inlineCapacity
    let _ ← (← setAt w i).deleteAllNodes inlineCapacity
    return (w.set i tmp, .done)
  | .swap i j => do
    let a ← setAt w i
    let b ← setAt w j
    return ((w.set i b).set j a, .done)
  | .on i op => do
    let (s, answer) ← op.code malloc inlineCapacity (← setAt w i)
    return (w.set i s, answer)

/-- The operation on the sequences. -/
def WorldOp.apply (w : List (List α)) : WorldOp α → Option (List (List α) × Answer α)
  | .create => some (w ++ [[]], .done)
  | .copy i => do
    let seq ← w[i]?
    return (w ++ [seq], .done)
  | .assign i j => do
    let seq ← w[j]?
    let _ ← w[i]?
    return (w.set i seq, .done)
  | .swap i j => do
    let a ← w[i]?
    let b ← w[j]?
    return ((w.set i b).set j a, .done)
  | .on i op => do
    let (seq, answer) ← op.apply (← w[i]?)
    return (w.set i seq, answer)

/-- The sets after a run, and what it has answered. -/
def runCode (malloc : List Nat → Nat) (inlineCapacity : Nat) :
    List (ListHashSet α) → List (WorldOp α) → Except ListFault (List (ListHashSet α) × List (Answer α))
  | w, [] => .ok (w, [])
  | w, op :: ops => do
    let (w, answer) ← op.code malloc inlineCapacity w
    let (w, answers) ← runCode malloc inlineCapacity w ops
    return (w, answer :: answers)

def runModel : List (List α) → List (WorldOp α) → Option (List (List α) × List (Answer α))
  | w, [] => some (w, [])
  | w, op :: ops => do
    let (w, answer) ← op.apply w
    let (w, answers) ← runModel w ops
    return (w, answer :: answers)

/-- A set is this sequence, and the allocator gives no node of the set. -/
structure Matches (malloc : List Nat → Nat) (inlineCapacity : Nat) (s : ListHashSet α) (seq : List α) : Prop where
  nodup : seq.Nodup
  iterate : s.iterate = .ok seq
  iterateBackwards : s.iterateBackwards = .ok seq.reverse
  size : s.size = seq.length
  contains : ∀ v, s.contains v = .ok (decide (v ∈ seq))
  allocate : ∃ a p, s.m_allocator.allocate malloc inlineCapacity = .ok (a, p) ∧ p ∉ s.m_impl

/-- What holds of a set between the operations. -/
def Valid (inlineCapacity : Nat) (s : ListHashSet α) (seq : List α) : Prop := ∃ ns, Holds inlineCapacity s ns seq

omit [DecidableEq α] in
theorem getElem?_of_forall₂ {β γ : Type} {R : β → γ → Prop} {l : List β} {l' : List γ} (h : List.Forall₂ R l l') {i : Nat}
    {c : γ} (hc : l'[i]? = some c) : ∃ b, l[i]? = some b ∧ R b c := by
  induction h generalizing i with
  | nil => cases hc
  | cons hr _ ih =>
    cases i with
    | zero =>
      cases hc
      exact ⟨_, rfl, hr⟩
    | succ i => exact ih hc

omit [DecidableEq α] in
theorem forall₂_set {β γ : Type} {R : β → γ → Prop} {l : List β} {l' : List γ} (h : List.Forall₂ R l l') {b : β} {c : γ}
    (hr : R b c) (i : Nat) : List.Forall₂ R (l.set i b) (l'.set i c) := by
  induction h generalizing i with
  | nil => exact .nil
  | cons hr' hrest ih =>
    cases i with
    | zero => exact .cons hr hrest
    | succ i => exact .cons hr' (ih i)

variable {w : List (ListHashSet α)} {seqs : List (List α)}

omit [DecidableEq α] in
theorem setAt_spec (h : List.Forall₂ (Valid inlineCapacity) w seqs) {i : Nat} (hseq : seqs[i]? = some seq) :
    ∃ s ns, setAt w i = .ok s ∧ Holds inlineCapacity s ns seq := by
  obtain ⟨s, hs, ns, hholds⟩ := getElem?_of_forall₂ h hseq
  exact ⟨s, ns, by rw [setAt, hs], hholds⟩

/-- **One operation on several sets.** -/
theorem WorldOp.code_spec (hmalloc : ∀ heap, malloc heap ∉ heap) (hcapacity : 0 < inlineCapacity)
    (h : List.Forall₂ (Valid inlineCapacity) w seqs) (op : WorldOp α) {seqs' : List (List α)} {answer : Answer α}
    (happly : op.apply seqs = some (seqs', answer)) :
    ∃ w', op.code malloc inlineCapacity w = .ok (w', answer) ∧ List.Forall₂ (Valid inlineCapacity) w' seqs' := by
  cases op with
  | create =>
    cases happly
    exact ⟨_, rfl, List.rel_append h (.cons ⟨[], holds_create hcapacity⟩ .nil)⟩
  | copy i =>
    obtain ⟨seq, hseq, happly⟩ := Option.bind_eq_some_iff.1 happly
    cases happly
    obtain ⟨s, ns, hs, hholds⟩ := setAt_spec h hseq
    obtain ⟨tmp, ns', hcopy, htmp⟩ := hholds.copy_spec hmalloc hcapacity
    refine ⟨_, ?_, List.rel_append h (.cons ⟨ns', htmp⟩ .nil)⟩
    rw [code, hs, list_bind, hcopy]
    rfl
  | assign i j =>
    obtain ⟨seq, hseq, happly⟩ := Option.bind_eq_some_iff.1 happly
    obtain ⟨old, hold, happly⟩ := Option.bind_eq_some_iff.1 happly
    cases happly
    obtain ⟨s, ns, hs, hholds⟩ := setAt_spec h hseq
    obtain ⟨t, ms, ht, hholds'⟩ := setAt_spec h hold
    obtain ⟨tmp, ns', hcopy, htmp⟩ := hholds.copy_spec hmalloc hcapacity
    obtain ⟨gone, hdelete, -⟩ := hholds'.deleteAllNodes_spec
    refine ⟨_, ?_, forall₂_set h ⟨ns', htmp⟩ i⟩
    rw [code, hs, list_bind, hcopy, list_bind, ht, list_bind, hdelete]
    rfl
  | swap i j =>
    obtain ⟨seq, hseq, happly⟩ := Option.bind_eq_some_iff.1 happly
    obtain ⟨seq', hseq', happly⟩ := Option.bind_eq_some_iff.1 happly
    cases happly
    obtain ⟨a, ns, ha, hholds⟩ := setAt_spec h hseq
    obtain ⟨b, ms, hb, hholds'⟩ := setAt_spec h hseq'
    refine ⟨_, ?_, forall₂_set (forall₂_set h ⟨ms, hholds'⟩ i) ⟨ns, hholds⟩ j⟩
    rw [code, ha, list_bind, hb]
    rfl
  | on i op =>
    obtain ⟨seq, hseq, happly⟩ := Option.bind_eq_some_iff.1 happly
    obtain ⟨⟨seq', answer'⟩, hop, happly⟩ := Option.bind_eq_some_iff.1 happly
    cases happly
    obtain ⟨s, ns, hs, hholds⟩ := setAt_spec h hseq
    obtain ⟨s', ns', hcode, hholds'⟩ := op.code_spec hmalloc hholds hop
    refine ⟨_, ?_, forall₂_set h ⟨ns', hholds'⟩ i⟩
    rw [code, hs, list_bind, hcode]
    rfl

theorem run_valid (hmalloc : ∀ heap, malloc heap ∉ heap) (hcapacity : 0 < inlineCapacity)
    (h : List.Forall₂ (Valid inlineCapacity) w seqs) {ops : List (WorldOp α)} {seqs' : List (List α)}
    {answers : List (Answer α)} (hrun : runModel seqs ops = some (seqs', answers)) :
    ∃ w', runCode malloc inlineCapacity w ops = .ok (w', answers) ∧ List.Forall₂ (Valid inlineCapacity) w' seqs' := by
  induction ops generalizing w seqs answers with
  | nil =>
    cases hrun
    exact ⟨w, rfl, h⟩
  | cons op ops ih =>
    obtain ⟨⟨seqs₁, answer⟩, happly, hrun⟩ := Option.bind_eq_some_iff.1 hrun
    obtain ⟨⟨seqs₂, answers₂⟩, hrest, hrun⟩ := Option.bind_eq_some_iff.1 hrun
    cases hrun
    obtain ⟨w₁, hcode, h₁⟩ := op.code_spec hmalloc hcapacity h happly
    obtain ⟨w₂, hrun, h₂⟩ := ih h₁ hrest
    refine ⟨w₂, ?_, h₂⟩
    rw [runCode, hcode, list_bind]
    simp only [hrun, list_bind]
    rfl

theorem Holds.matches (hmalloc : ∀ heap, malloc heap ∉ heap) (h : Holds inlineCapacity s ns seq) :
    Matches malloc inlineCapacity s seq where
  nodup := h.nodup
  iterate := h.iterate_eq
  iterateBackwards := h.iterateBackwards_eq
  size := h.size_eq
  contains := h.contains_eq
  allocate := by
    obtain ⟨a, p, heq, hnot, -, -⟩ := ListHashSetNodeAllocator.allocate_spec hmalloc h.allocator
    exact ⟨a, p, heq, fun hp => hnot (h.perm.mem_iff.1 hp)⟩

/-- **A list hash set is a sequence without duplicates**, whatever the operations on any number of sets. -/
theorem listHashSet_refines (hmalloc : ∀ heap, malloc heap ∉ heap) (hcapacity : 0 < inlineCapacity)
    {ops : List (WorldOp α)} {answers : List (Answer α)} (hrun : runModel [] ops = some (seqs, answers)) :
    ∃ w, runCode malloc inlineCapacity [] ops = .ok (w, answers) ∧
      List.Forall₂ (Matches malloc inlineCapacity) w seqs := by
  obtain ⟨w, heq, h⟩ := run_valid hmalloc hcapacity .nil hrun
  exact ⟨w, heq, h.imp fun _ _ ⟨_, hholds⟩ => hholds.matches hmalloc⟩

/-- A pool of one node: the second value has a node from the heap, and is moved in front of the first one. -/
theorem listHashSet_refines_moves :
    ∃ w, runCode (fun heap => heap.max?.getD 0 + 1) 1 [] [.create, .on 0 (.add 7), .on 0 (.add 5),
        .on 0 (.prependOrMoveToFirst 5), .on 0 .takeLast] =
        .ok (w, [.done, .flag true, .flag true, .flag false, .value 7]) ∧
      List.Forall₂ (Matches (fun heap => heap.max?.getD 0 + 1) 1) w [[5]] := by
  refine listHashSet_refines (fun heap hmem => ?_) Nat.one_pos rfl
  exact absurd (List.le_max?_getD_of_mem hmem) (Nat.not_succ_le_self _)

end ListHashSet

end WebKit.WTF
