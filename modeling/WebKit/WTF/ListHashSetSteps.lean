import Mathlib.Data.Option.Basic
import WebKit.WTF.ListHashSetInv

/-!
# The operations of a list hash set

Between the hash table and the list, a node has a value but no place: `Pending s ns seq n v`. A new node is pending, and
so is one that is unlinked (`Holds.unlink`). Then it is put at the end, at the front or in front of another one
(`Pending.append`, `Pending.prepend`, `Pending.insertBefore`), or destroyed (`Pending.destroy`).
-/

namespace WebKit.WTF

open WebKit.Lib

namespace ListHashSet

variable {α : Type} {inlineCapacity : Nat} {malloc : List Nat → Nat} {s s' : ListHashSet α} {ns xs ys : List NodePtr}
  {n p : NodePtr} {seq seq₁ seq₂ : List α} {v w : α}

/-- The nodes have the values of the sequence. -/
structure Content (inlineCapacity : Nat) (s : ListHashSet α) (ns : List NodePtr) (seq : List α) (all : List NodePtr) :
    Prop where
  lists : s.links.Lists ns
  values : ns.map s.value = seq.map some
  nodup : seq.Nodup
  allocator : ListHashSetNodeAllocator.AllocatorOk inlineCapacity s.m_allocator all
  unused : ∀ p, p ∉ all → s.value p = none

/-- The nodes of the list are those of the hash table. -/
structure Holds (inlineCapacity : Nat) (s : ListHashSet α) (ns : List NodePtr) (seq : List α) : Prop
    extends Content inlineCapacity s ns seq ns where
  perm : s.m_impl.Perm ns

/-- Another node has a new value, but is not in the list. -/
structure Pending (inlineCapacity : Nat) (s : ListHashSet α) (ns : List NodePtr) (seq : List α) (n : NodePtr) (v : α) :
    Prop extends Content inlineCapacity s ns seq (n :: ns) where
  not_mem : n ∉ ns
  value_eq : s.value n = some v
  fresh : v ∉ seq

theorem holds_create (hcapacity : 0 < inlineCapacity) : Holds inlineCapacity (create : ListHashSet α) [] [] where
  lists := Links.lists_nil rfl rfl
  values := rfl
  nodup := .nil
  allocator := ListHashSetNodeAllocator.allocatorOk_create hcapacity
  unused := fun _ _ => rfl
  perm := .nil

theorem Content.value_isSome {all : List NodePtr} (h : Content inlineCapacity s ns seq all) (hp : p ∈ ns) :
    (s.value p).isSome := by
  have hmem : s.value p ∈ seq.map some := by
    rw [← h.values]
    exact List.mem_map_of_mem hp
  obtain ⟨v, -, hv⟩ := List.mem_map.1 hmem
  rw [← hv]
  rfl

theorem Content.split {all : List NodePtr} (h : Content inlineCapacity s ns (seq₁ ++ v :: seq₂) all) :
    ∃ xs n ys, ns = xs ++ n :: ys ∧ xs.map s.value = seq₁.map some ∧ s.value n = some v ∧
      ys.map s.value = seq₂.map some := by
  have hvalues := h.values
  rw [List.map_append, List.map_cons] at hvalues
  obtain ⟨xs, rest, rfl, hxs, hrest⟩ := List.map_eq_append_iff.1 hvalues
  obtain ⟨n, ys, rfl, hn, hys⟩ := List.map_eq_cons_iff.1 hrest
  exact ⟨xs, n, ys, rfl, hxs, hn, hys⟩

theorem Content.value_inj {all : List NodePtr} (h : Content inlineCapacity s ns seq all) {q : NodePtr} (hp : p ∈ ns)
    (hq : q ∈ ns) (heq : s.value p = s.value q) : p = q := by
  refine List.inj_on_of_nodup_map ?_ hp hq heq
  rw [h.values]
  exact h.nodup.map (Option.some_injective α)

theorem Content.mem_iff {all : List NodePtr} (h : Content inlineCapacity s ns seq all) :
    v ∈ seq ↔ ∃ p ∈ ns, s.value p = some v := by
  have hmap : v ∈ seq ↔ some v ∈ ns.map s.value := by
    rw [h.values]
    exact (List.mem_map_of_injective (Option.some_injective α)).symm
  rw [hmap, List.mem_map]

theorem Content.relink {all all' ns' : List NodePtr} {seq' : List α} (h : Content inlineCapacity s ns seq all)
    (hframe : Frame s s') (hlists : s'.links.Lists ns') (hvalues : ns'.map s.value = seq'.map some)
    (hnodup : seq'.Nodup) (hall : ∀ p, p ∈ all' ↔ p ∈ all) : Content inlineCapacity s' ns' seq' all' where
  lists := hlists
  values := by
    rw [← hvalues]
    exact List.map_congr_left fun p _ => hframe.value_eq p
  nodup := hnodup
  allocator := h.allocator.congr hall hframe.freeList_eq hframe.done_eq hframe.heap_eq fun p hp =>
    hframe.next_eq p (h.unused p hp)
  unused := fun p hp => (hframe.value_eq p).trans (h.unused p fun hmem => hp ((hall p).2 hmem))

/-! ## Placing a node -/

theorem Pending.append (h : Pending inlineCapacity s ns seq n v) :
    ∃ s', s.appendNode n = .ok s' ∧ s'.m_impl = s.m_impl ∧
      Content inlineCapacity s' (ns ++ [n]) (seq ++ [v]) (ns ++ [n]) := by
  have hv : (s.value n).isSome := by rw [h.value_eq]; rfl
  obtain ⟨s', heq, hframe, hlinks⟩ := appendNode_spec h.lists (fun p hp => h.value_isSome hp) hv
  have hlists := h.lists
  rw [← List.append_nil ns] at hlists
  have hnew := hlists.link (n := n) (by rw [List.append_nil]; exact h.not_mem)
  refine ⟨s', heq, hframe.impl_eq, h.relink hframe (by rw [hlinks]; exact hnew) ?_ ?_ fun p => ?_⟩
  · rw [List.map_append, List.map_append, h.values]
    exact congrArg (_ ++ [·]) h.value_eq
  · exact List.nodup_append.2 ⟨h.nodup, List.nodup_singleton v, fun a ha b hb => by
      rw [List.mem_singleton.1 hb]
      rintro rfl
      exact h.fresh ha⟩
  · rw [List.mem_append, List.mem_singleton, List.mem_cons, or_comm]

theorem Pending.prepend (h : Pending inlineCapacity s ns seq n v) :
    ∃ s', s.prependNode n = .ok s' ∧ s'.m_impl = s.m_impl ∧
      Content inlineCapacity s' (n :: ns) (v :: seq) (n :: ns) := by
  have hv : (s.value n).isSome := by rw [h.value_eq]; rfl
  obtain ⟨s', heq, hframe, hlinks⟩ := prependNode_spec h.lists (fun p hp => h.value_isSome hp) hv
  have hlists : s.links.Lists ([] ++ ns) := h.lists
  have hnew := hlists.link (n := n) h.not_mem
  refine ⟨s', heq, hframe.impl_eq, h.relink hframe (by rw [hlinks]; exact hnew) ?_ ?_ fun p => Iff.rfl⟩
  · rw [List.map_cons, List.map_cons, h.values, h.value_eq]
  · exact List.nodup_cons.2 ⟨h.fresh, h.nodup⟩

theorem Pending.insertBefore (h : Pending inlineCapacity s (xs ++ p :: ys) (seq₁ ++ seq₂) n v)
    (hxs : xs.map s.value = seq₁.map some) :
    ∃ s', s.insertNodeBefore (some p) n = .ok s' ∧ s'.m_impl = s.m_impl ∧
      Content inlineCapacity s' (xs ++ n :: p :: ys) (seq₁ ++ v :: seq₂) (xs ++ n :: p :: ys) := by
  have hv : (s.value n).isSome := by rw [h.value_eq]; rfl
  obtain ⟨s', heq, hframe, hlinks⟩ := insertNodeBefore_spec h.lists (fun p hp => h.value_isSome hp) hv h.not_mem
  have hnew := h.lists.link h.not_mem
  have hys : (p :: ys).map s.value = seq₂.map some := by
    have hvalues := h.values
    rw [List.map_append, List.map_append, hxs] at hvalues
    exact List.append_cancel_left hvalues
  refine ⟨s', heq, hframe.impl_eq, h.relink hframe (by rw [hlinks]; exact hnew) ?_ ?_ fun q => ?_⟩
  · rw [List.map_append, List.map_append, hxs, List.map_cons, List.map_cons (l := seq₂), hys, h.value_eq]
  · have hperm : (seq₁ ++ v :: seq₂).Perm (v :: (seq₁ ++ seq₂)) := List.perm_middle
    exact hperm.nodup_iff.2 (List.nodup_cons.2 ⟨h.fresh, h.nodup⟩)
  · exact List.perm_middle.mem_iff

/-- **A node is unlinked.** -/
theorem Content.unlink (h : Content inlineCapacity s (xs ++ n :: ys) (seq₁ ++ v :: seq₂) (xs ++ n :: ys))
    (hxs : xs.map s.value = seq₁.map some) (hn : s.value n = some v) (hys : ys.map s.value = seq₂.map some) :
    ∃ s', s.unlink n = .ok s' ∧ s'.m_impl = s.m_impl ∧ Pending inlineCapacity s' (xs ++ ys) (seq₁ ++ seq₂) n v := by
  obtain ⟨s', heq, hframe, hlinks⟩ := unlink_spec h.lists fun p hp => h.value_isSome hp
  have hnodup := List.perm_middle.nodup_iff.1 h.nodup
  obtain ⟨hfresh, hrest⟩ := List.nodup_cons.1 hnodup
  have hnot : n ∉ xs ++ ys := (List.nodup_cons.1 (List.perm_middle.nodup_iff.1 h.lists.nodup)).1
  refine ⟨s', heq, hframe.impl_eq, h.relink hframe (by rw [hlinks]; exact h.lists.unlink) ?_ hrest fun p => ?_, hnot,
    (hframe.value_eq n).trans hn, hfresh⟩
  · rw [List.map_append, List.map_append, hxs, hys]
  · exact List.perm_middle.mem_iff.symm

/-- **A node is destroyed.** -/
theorem Pending.destroy (h : Pending inlineCapacity s ns seq n v) :
    ∃ a, s.m_allocator.destroy inlineCapacity n = .ok a ∧
      Content inlineCapacity { s with m_allocator := a } ns seq ns := by
  obtain ⟨a, heq, hok, hnone, hsame⟩ := ListHashSetNodeAllocator.destroy_spec h.allocator
    (List.nodup_cons.2 ⟨h.not_mem, h.lists.nodup⟩) List.mem_cons_self h.value_eq
  rw [List.erase_cons_head] at hok
  have hne : ∀ p ∈ ns, p ≠ n := by
    rintro p hp rfl
    exact h.not_mem hp
  refine ⟨a, heq, h.lists.congr rfl rfl (fun p hp => ?_) (fun p hp => ?_), ?_, h.nodup, hok, fun p hp => ?_⟩
  · exact congrArg ListHashSetNode.m_prev (hsame p (hne p hp))
  · exact congrArg ListHashSetNode.m_next (hsame p (hne p hp))
  · rw [← h.values]
    exact List.map_congr_left fun p hp => congrArg _ (hsame p (hne p hp))
  · by_cases hpn : p = n
    · subst hpn
      exact hnone
    · refine (congrArg ListHashSetNode.m_value (hsame p hpn)).trans (h.unused p ?_)
      rw [List.mem_cons]
      tauto

/-! ## The hash table -/

variable [DecidableEq α]

theorem Content.findIn_eq {all : List NodePtr} (h : Content inlineCapacity s ns seq all) (hp : p ∈ ns)
    (hv : s.value p = some v) {impl : List NodePtr} (himpl : ∀ q ∈ impl, q ∈ ns) (hmem : p ∈ impl) :
    s.findIn v impl = .ok (some p) := by
  induction impl with
  | nil => cases hmem
  | cons q impl ih =>
    have hq := himpl q List.mem_cons_self
    obtain ⟨w, hw⟩ := Option.isSome_iff_exists.1 (h.value_isSome hq)
    rw [findIn, readNode_eq hw, list_bind]
    by_cases hvw : w = v
    · subst hvw
      rw [h.value_inj hp hq (hv.trans hw.symm)]
      exact if_pos rfl
    · have hne : p ≠ q := by
        rintro rfl
        exact hvw (Option.some.inj (hw.symm.trans hv))
      have hrest := ih (fun q hq => himpl q (List.mem_cons_of_mem _ hq)) ((List.mem_cons.1 hmem).resolve_left hne)
      show (if w = v then pure (some q) else s.findIn v impl) = _
      rw [if_neg hvw, hrest]

theorem Content.findIn_none {all : List NodePtr} (h : Content inlineCapacity s ns seq all) (hv : v ∉ seq)
    {impl : List NodePtr} (himpl : ∀ q ∈ impl, q ∈ ns) : s.findIn v impl = .ok none := by
  induction impl with
  | nil => rfl
  | cons q impl ih =>
    have hq := himpl q List.mem_cons_self
    obtain ⟨w, hw⟩ := Option.isSome_iff_exists.1 (h.value_isSome hq)
    have hvw : w ≠ v := by
      rintro rfl
      exact hv (h.mem_iff.2 ⟨q, hq, hw⟩)
    rw [findIn, readNode_eq hw, list_bind]
    show (if w = v then pure (some q) else s.findIn v impl) = _
    rw [if_neg hvw, ih fun q hq => himpl q (List.mem_cons_of_mem _ hq)]

theorem Holds.implFind_eq (h : Holds inlineCapacity s ns seq) (hp : p ∈ ns) (hv : s.value p = some v) :
    s.implFind v = .ok (some p) :=
  h.toContent.findIn_eq hp hv (fun _ hq => h.perm.mem_iff.1 hq) (h.perm.mem_iff.2 hp)

theorem Holds.implFind_none (h : Holds inlineCapacity s ns seq) (hv : v ∉ seq) : s.implFind v = .ok none :=
  h.toContent.findIn_none hv fun _ hq => h.perm.mem_iff.1 hq

theorem Holds.implAdd_eq (h : Holds inlineCapacity s ns seq) (hp : p ∈ ns) (hv : s.value p = some v) :
    s.implAdd malloc inlineCapacity v = .ok (s, p, false) := by
  rw [implAdd, h.implFind_eq hp hv]
  rfl

/-- **A new value gets a node.** -/
theorem Holds.implAdd_spec (hmalloc : ∀ heap, malloc heap ∉ heap) (h : Holds inlineCapacity s ns seq) (hv : v ∉ seq) :
    ∃ s' n, s.implAdd malloc inlineCapacity v = .ok (s', n, true) ∧ s'.m_impl = n :: s.m_impl ∧
      Pending inlineCapacity s' ns seq n v ∧ ∀ p ∈ ns, s'.value p = s.value p := by
  obtain ⟨a, n, heq, hnot, hnodes, hok⟩ := ListHashSetNodeAllocator.allocate_spec hmalloc h.allocator
  have hne : ∀ p, p ≠ n → Function.update a.nodes n
      ({ m_value := some v, m_prev := none, m_next := none } : ListHashSetNode α) p = s.m_allocator.nodes p := by
    intro p hpn
    rw [Function.update_of_ne hpn, hnodes]
  have hold : ∀ p ∈ ns, p ≠ n := by
    rintro p hp rfl
    exact hnot hp
  rw [implAdd, h.implFind_none hv, list_bind]
  simp only [heq, list_bind]
  refine ⟨_, n, rfl, rfl, ⟨⟨h.lists.congr rfl rfl (fun p hp => ?_) (fun p hp => ?_), ?_, h.nodup, ?_, fun p hp => ?_⟩,
    hnot, ?_, hv⟩, fun p hp => congrArg ListHashSetNode.m_value (hne p (hold p hp))⟩
  · exact congrArg ListHashSetNode.m_prev (hne p (hold p hp))
  · exact congrArg ListHashSetNode.m_next (hne p (hold p hp))
  · rw [← h.values]
    exact List.map_congr_left fun p hp => congrArg ListHashSetNode.m_value (hne p (hold p hp))
  · refine hok.congr (fun _ => Iff.rfl) rfl rfl rfl fun p hp => ?_
    have hpn : p ≠ n := fun heq => hp (heq ▸ List.mem_cons_self)
    exact congrArg ListHashSetNode.m_next (Function.update_of_ne hpn _ _)
  · rw [List.mem_cons, not_or] at hp
    exact (congrArg ListHashSetNode.m_value (hne p hp.1)).trans (h.unused p hp.2)
  · simp only [value, ListHashSetNodeAllocator.setNode, Function.update_self]

/-- **A node is removed** from the table, from the list, and destroyed. -/
theorem Holds.unlinkAndDelete (h : Holds inlineCapacity s (xs ++ n :: ys) (seq₁ ++ v :: seq₂))
    (hxs : xs.map s.value = seq₁.map some) (hn : s.value n = some v) (hys : ys.map s.value = seq₂.map some) :
    ∃ s', ({ s with m_impl := s.m_impl.erase n } : ListHashSet α).unlinkAndDelete inlineCapacity n = .ok s' ∧
      Holds inlineCapacity s' (xs ++ ys) (seq₁ ++ seq₂) := by
  have hcontent : Content inlineCapacity ({ s with m_impl := s.m_impl.erase n } : ListHashSet α) (xs ++ n :: ys)
      (seq₁ ++ v :: seq₂) (xs ++ n :: ys) := ⟨h.lists, h.values, h.nodup, h.allocator, h.unused⟩
  obtain ⟨s₁, heq, himpl, hpending⟩ := hcontent.unlink hxs hn hys
  obtain ⟨a, hdestroy, hrest⟩ := hpending.destroy
  rw [ListHashSet.unlinkAndDelete, heq, list_bind, hdestroy, list_bind]
  refine ⟨_, rfl, hrest, ?_⟩
  show s₁.m_impl.Perm (xs ++ ys)
  rw [himpl]
  have hperm := h.perm.erase n
  have hmiddle : ((xs ++ n :: ys).erase n).Perm (xs ++ ys) := by
    refine (List.perm_middle.erase n).trans ?_
    rw [List.erase_cons_head]
  exact hperm.trans hmiddle

end ListHashSet

end WebKit.WTF
