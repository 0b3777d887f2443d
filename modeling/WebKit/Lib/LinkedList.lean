import Mathlib.Data.List.Induction
import Mathlib.Data.List.Nodup

/-!
# Doubly linked lists

`Links` are the pointers of a doubly linked list, and `l.Lists ns` says that its nodes are `ns`, in this order. What an
operation on the list has to do to the pointers, whatever its steps are, is said pointwise: `Lists.insert` for a new
node between two parts of the list, `Lists.erase` for a node that is taken out. Both take the list apart at this place
(`linked_append`) and put other pointers at the ends of the parts (`Linked.set_after`, `Linked.set_before`).

`link` writes the pointers at the two ends of a place: it closes the place of a node that goes (`Lists.unlink`), and opens
one for a node that comes (`Lists.link`).
-/

namespace WebKit.Lib

variable {P : Type*}

/-- The pointers of the nodes of a segment, which is between `before` and `after`. -/
def Linked (prev next : P → Option P) : Option P → List P → Option P → Prop
  | _, [], _ => True
  | before, n :: ns, after => prev n = before ∧ next n = ns.head?.or after ∧ Linked prev next (some n) ns after

section

variable {prev next prev' next' : P → Option P} {before before' after after' : Option P} {ns xs ys : List P} {n : P}

theorem linked_append : Linked prev next before (xs ++ ys) after ↔
    Linked prev next before xs (ys.head?.or after) ∧ Linked prev next (xs.getLast?.or before) ys after := by
  induction xs generalizing before with
  | nil => simp [Linked]
  | cons x xs ih =>
    have hlast : (x :: xs).getLast?.or before = xs.getLast?.or (some x) := by
      rw [List.getLast?_cons]
      cases xs.getLast? <;> rfl
    rw [List.cons_append, Linked, Linked, ih, List.head?_append, Option.or_assoc, hlast]
    tauto

/-- The segment depends on the pointers of its nodes only. -/
theorem Linked.congr (h : Linked prev next before ns after) (hprev : ∀ m ∈ ns, prev' m = prev m)
    (hnext : ∀ m ∈ ns, next' m = next m) : Linked prev' next' before ns after := by
  induction ns generalizing before with
  | nil => trivial
  | cons m ns ih =>
    obtain ⟨hp, hn, hrest⟩ := h
    exact ⟨(hprev m List.mem_cons_self).trans hp, (hnext m List.mem_cons_self).trans hn,
      ih hrest (fun k hk => hprev k (List.mem_cons_of_mem m hk)) fun k hk => hnext k (List.mem_cons_of_mem m hk)⟩

/-- The segment is put behind another node. -/
theorem Linked.set_before (h : Linked prev next before ns after) (hnodup : ns.Nodup)
    (hfirst : ∀ m, ns.head? = some m → prev' m = before') (hprev : ∀ m ∈ ns, ns.head? ≠ some m → prev' m = prev m)
    (hnext : ∀ m ∈ ns, next' m = next m) : Linked prev' next' before' ns after := by
  cases ns with
  | nil => trivial
  | cons m ns =>
    obtain ⟨-, hn, hrest⟩ := h
    obtain ⟨hnot, -⟩ := List.nodup_cons.1 hnodup
    refine ⟨hfirst m rfl, (hnext m List.mem_cons_self).trans hn,
      hrest.congr (fun k hk => hprev k (List.mem_cons_of_mem m hk) ?_) fun k hk => hnext k (List.mem_cons_of_mem m hk)⟩
    rintro ⟨⟩
    exact hnot hk

/-- The segment is put in front of another node. -/
theorem Linked.set_after (h : Linked prev next before ns after) (hnodup : ns.Nodup)
    (hlast : ∀ m, ns.getLast? = some m → next' m = after') (hprev : ∀ m ∈ ns, prev' m = prev m)
    (hnext : ∀ m ∈ ns, ns.getLast? ≠ some m → next' m = next m) : Linked prev' next' before ns after' := by
  induction ns using List.reverseRecOn with
  | nil => trivial
  | append_singleton ns m _ =>
    obtain ⟨hrest, hp, -, -⟩ := linked_append.1 h
    have hnot : m ∉ ns := fun hm => (List.nodup_append.1 hnodup).2.2 m hm m List.mem_cons_self rfl
    have hmem : ∀ k ∈ ns, k ∈ ns ++ [m] := fun k hk => List.mem_append_left _ hk
    refine linked_append.2 ⟨hrest.congr (fun k hk => hprev k (hmem k hk)) fun k hk => hnext k (hmem k hk) ?_,
      (hprev m (List.mem_append_right _ List.mem_cons_self)).trans hp, hlast m List.getLast?_concat, trivial⟩
    rw [List.getLast?_concat]
    rintro ⟨⟩
    exact hnot hk

end

/-- The pointers of a list. -/
structure Links (P : Type*) where
  head : Option P
  tail : Option P
  prev : P → Option P
  next : P → Option P

namespace Links

/-- The nodes of the list, in order. -/
structure Lists (l : Links P) (ns : List P) : Prop where
  head_eq : l.head = ns.head?
  tail_eq : l.tail = ns.getLast?
  linked : Linked l.prev l.next none ns none
  nodup : ns.Nodup

variable {l l' : Links P} {ns xs ys : List P} {n : P}

theorem lists_nil (hhead : l.head = none) (htail : l.tail = none) : l.Lists [] := ⟨hhead, htail, trivial, .nil⟩

/-- The pointers of a node. -/
theorem Lists.prev_next (h : l.Lists (xs ++ n :: ys)) : l.prev n = xs.getLast? ∧ l.next n = ys.head? := by
  obtain ⟨hp, hn, -⟩ := (linked_append.1 h.linked).2
  rw [Option.or_none] at hp hn
  exact ⟨hp, hn⟩

/-- Only the pointers of the nodes matter. -/
theorem Lists.congr (h : l.Lists ns) (hhead : l'.head = l.head) (htail : l'.tail = l.tail)
    (hprev : ∀ m ∈ ns, l'.prev m = l.prev m) (hnext : ∀ m ∈ ns, l'.next m = l.next m) : l'.Lists ns :=
  ⟨hhead.trans h.head_eq, htail.trans h.tail_eq, h.linked.congr hprev hnext, h.nodup⟩

/-- **A node is put between two parts of the list.** -/
theorem Lists.insert (h : l.Lists (xs ++ ys)) (hnot : n ∉ xs ++ ys) (hhead : l'.head = (xs ++ n :: ys).head?)
    (htail : l'.tail = (xs ++ n :: ys).getLast?) (hp : l'.prev n = xs.getLast?) (hn : l'.next n = ys.head?)
    (hlast : ∀ m, xs.getLast? = some m → l'.next m = some n)
    (hfirst : ∀ m, ys.head? = some m → l'.prev m = some n)
    (hprev : ∀ m ∈ xs ++ ys, ys.head? ≠ some m → l'.prev m = l.prev m)
    (hnext : ∀ m ∈ xs ++ ys, xs.getLast? ≠ some m → l'.next m = l.next m) : l'.Lists (xs ++ n :: ys) := by
  obtain ⟨hxs, hys⟩ := linked_append.1 h.linked
  obtain ⟨hxnodup, hynodup, hdisjoint⟩ := List.nodup_append.1 h.nodup
  have hxprev : ∀ m ∈ xs, l'.prev m = l.prev m := fun m hm =>
    hprev m (List.mem_append_left _ hm) fun heq => hdisjoint m hm m (List.mem_of_head? heq) rfl
  have hynext : ∀ m ∈ ys, l'.next m = l.next m := fun m hm =>
    hnext m (List.mem_append_right _ hm) fun heq => hdisjoint m (List.mem_of_getLast? heq) m hm rfl
  refine ⟨hhead, htail, linked_append.2 ⟨?_, ?_, ?_, ?_⟩, ?_⟩
  · exact hxs.set_after hxnodup hlast hxprev fun m hm => hnext m (List.mem_append_left _ hm)
  · rw [hp, Option.or_none]
  · rw [hn, Option.or_none]
  · exact hys.set_before hynodup hfirst (fun m hm => hprev m (List.mem_append_right _ hm)) hynext
  · rw [List.nodup_append]
    refine ⟨hxnodup, List.nodup_cons.2 ⟨fun hm => hnot (List.mem_append_right _ hm), hynodup⟩, ?_⟩
    rintro m hm k hk rfl
    obtain rfl | hk := List.mem_cons.1 hk
    · exact hnot (List.mem_append_left _ hm)
    · exact hdisjoint m hm m hk rfl

/-- **A node is taken out of the list.** -/
theorem Lists.erase (h : l.Lists (xs ++ n :: ys)) (hhead : l'.head = (xs ++ ys).head?)
    (htail : l'.tail = (xs ++ ys).getLast?) (hlast : ∀ m, xs.getLast? = some m → l'.next m = ys.head?)
    (hfirst : ∀ m, ys.head? = some m → l'.prev m = xs.getLast?)
    (hprev : ∀ m ∈ xs ++ ys, ys.head? ≠ some m → l'.prev m = l.prev m)
    (hnext : ∀ m ∈ xs ++ ys, xs.getLast? ≠ some m → l'.next m = l.next m) : l'.Lists (xs ++ ys) := by
  obtain ⟨hxs, -, -, hys⟩ := linked_append.1 h.linked
  have hnodup : (xs ++ ys).Nodup := h.nodup.sublist (List.Sublist.append_left (List.sublist_cons_self _ _) _)
  obtain ⟨hxnodup, hynodup, hdisjoint⟩ := List.nodup_append.1 hnodup
  have hxprev : ∀ m ∈ xs, l'.prev m = l.prev m := fun m hm =>
    hprev m (List.mem_append_left _ hm) fun heq => hdisjoint m hm m (List.mem_of_head? heq) rfl
  have hynext : ∀ m ∈ ys, l'.next m = l.next m := fun m hm =>
    hnext m (List.mem_append_right _ hm) fun heq => hdisjoint m (List.mem_of_getLast? heq) m hm rfl
  refine ⟨hhead, htail, linked_append.2 ⟨?_, ?_⟩, hnodup⟩
  · refine hxs.set_after hxnodup ?_ hxprev fun m hm => hnext m (List.mem_append_left _ hm)
    rw [Option.or_none]
    exact hlast
  · refine hys.set_before hynodup ?_ (fun m hm => hprev m (List.mem_append_right _ hm)) hynext
    rw [Option.or_none]
    exact hfirst

/-! ## Pointers to and from a place -/

section

variable [DecidableEq P]

/-- The node gets these pointers. -/
def place (l : Links P) (n : P) (before after : Option P) : Links P :=
  { l with prev := Function.update l.prev n before, next := Function.update l.next n after }

/-- What is in front of a place, a node or the head of the list, leads to what is behind it. -/
def linkAfter (l : Links P) (before after : Option P) : Links P :=
  match before with
  | none => { l with head := after }
  | some p => { l with next := Function.update l.next p after }

/-- What is behind a place, a node or the tail of the list, leads to what is in front of it. -/
def linkBefore (l : Links P) (before after : Option P) : Links P :=
  match after with
  | none => { l with tail := before }
  | some q => { l with prev := Function.update l.prev q before }

/-- The place between two other ones, or what is at its ends. -/
def link (l : Links P) (before after before' after' : Option P) : Links P :=
  (l.linkAfter before after').linkBefore before' after

end

section

variable [DecidableEq P] {before before' after after' : Option P} {m : P}

@[simp]
theorem prev_linkAfter : (l.linkAfter before after).prev = l.prev := by cases before <;> rfl

theorem next_linkAfter : (l.linkAfter before after).next m = if before = some m then after else l.next m := by
  cases before <;> simp [linkAfter, Function.update_apply, eq_comm]

@[simp]
theorem head_link : (l.link before after before' after').head = if before = none then after' else l.head := by
  cases before <;> cases after <;> simp [link, linkAfter, linkBefore]

@[simp]
theorem tail_link : (l.link before after before' after').tail = if after = none then before' else l.tail := by
  cases before <;> cases after <;> simp [link, linkAfter, linkBefore]

@[simp]
theorem next_link : (l.link before after before' after').next m = if before = some m then after' else l.next m := by
  cases before <;> cases after <;> simp [link, linkAfter, linkBefore, Function.update_apply, eq_comm]

@[simp]
theorem prev_link : (l.link before after before' after').prev m = if after = some m then before' else l.prev m := by
  cases before <;> cases after <;> simp [link, linkAfter, linkBefore, Function.update_apply, eq_comm]

/-- **The place of a node is closed.** -/
theorem Lists.unlink (h : l.Lists (xs ++ n :: ys)) :
    (l.link xs.getLast? ys.head? xs.getLast? ys.head?).Lists (xs ++ ys) := by
  refine h.erase ?_ ?_ (fun m hm => ?_) (fun m hm => ?_) (fun m _ hm => ?_) fun m _ hm => ?_
  · rw [head_link, h.head_eq]
    cases xs <;> simp
  · rw [tail_link, h.tail_eq]
    cases ys <;> simp [List.getLast?_append]
  · rw [next_link, if_pos hm]
  · rw [prev_link, if_pos hm]
  · rw [prev_link, if_neg hm]
  · rw [next_link, if_neg hm]

/-- **A node gets a place.** -/
theorem Lists.link (h : l.Lists (xs ++ ys)) (hnot : n ∉ xs ++ ys) :
    ((l.place n xs.getLast? ys.head?).link xs.getLast? ys.head? (some n) (some n)).Lists (xs ++ n :: ys) := by
  have hx : xs.getLast? ≠ some n := fun hn => hnot (List.mem_append_left _ (List.mem_of_getLast? hn))
  have hy : ys.head? ≠ some n := fun hn => hnot (List.mem_append_right _ (List.mem_of_head? hn))
  have hne : ∀ m ∈ xs ++ ys, m ≠ n := by
    rintro m hm rfl
    exact hnot hm
  refine h.insert hnot ?_ ?_ ?_ ?_ (fun m hm => ?_) (fun m hm => ?_) (fun m hmem hm => ?_) fun m hmem hm => ?_
  · rw [head_link]
    cases xs <;> simp [place, h.head_eq]
  · rw [tail_link]
    cases ys <;> simp [place, h.tail_eq, List.getLast?_append]
  · simp [hy, place]
  · simp [hx, place]
  · simp [hm]
  · simp [hm]
  · simp [hm, place, hne m hmem]
  · simp [hm, place, hne m hmem]

end

end Links

end WebKit.Lib
