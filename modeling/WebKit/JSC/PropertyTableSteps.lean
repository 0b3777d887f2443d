import WebKit.JSC.PropertyTableInv

/-!
# What the operations of a property table do

Each operation keeps a table well formed and says what becomes of the slots in use: `insertAt_spec`, `iterate_eq`,
`rehash_spec`, `add_spec`, `remove_spec`, `clone_spec` and `copy_spec`.
-/

namespace WebKit.JSC.PropertyTable

open WebKit.Lib

variable {Key : Type} {existingHash : Key → UInt32} {t : PropertyTable Key}
  {used : List (Option (PropertyMapEntry Key))}

/-! ## Inserting -/

/-- A zeroed table. -/
theorem wellFormed_empty (existingHash : Key → UInt32) {capacity : UInt32} (h : capacity.toNat < 2 ^ 30)
    (deletedOffsets : Option (List Int)) : (empty capacity deletedOffsets).WellFormed existingHash [] := by
  obtain ⟨k, hk, hk', hsize, -⟩ := sizeForCapacity_eq h
  refine ⟨⟨k, hk, hk', hsize⟩, ?_, ?_, Nat.zero_le _, rfl, rfl, List.nodup_nil, ?_, ?_, ?_, ?_⟩
  · exact List.length_replicate
  · rfl
  · exact List.countP_eq_zero.2 fun v hv => by simpa [EmptyEntryIndex] using List.eq_of_mem_replicate hv
  · intro p v hv hne
    exact absurd (List.eq_of_mem_replicate (List.mem_of_getElem? hv)) hne
  · intro p q v hp hq hne
    exact absurd (List.eq_of_mem_replicate (List.mem_of_getElem? hp)) hne
  · intro j e hj
    cases hj

theorem WellFormed.lt_of_index (h : t.WellFormed existingHash used) {p v : Nat} (hv : t.index[p]? = some v)
    (hne : v ≠ 0) (hdeleted : v ≠ t.deletedEntryIndex) : v - 1 < used.length := by
  obtain heq | ⟨e, he⟩ := h.index_valid p v hv hne
  · exact absurd heq hdeleted
  · exact (List.getElem?_eq_some_iff.1 he).1

/-- Positions that are taken stay taken when one of the index is set to an entry number. -/
theorem Passed.set {t' : PropertyTable Key} {key : Key} {n p v : Nat} (h : t.Passed existingHash key n)
    (hsize : t'.indexSize = t.indexSize) (hindex : t'.index = t.index.set p v) (hv : v ≠ 0) :
    t'.Passed existingHash key n := by
  intro m hm hzero
  have hposition : t'.position existingHash key m = t.position existingHash key m := by rw [position, position, hsize]
  rw [hposition, hindex, List.getElem?_set] at hzero
  split_ifs at hzero with heq hlt
  · exact hv (Option.some.inj hzero)
  · exact h m hm hzero

/-- **An entry is set behind the others**, where a search for its key has ended. -/
theorem insertAt_spec (h : t.WellFormed existingHash used) (hlt : used.length < t.tableCapacity)
    {e : PropertyMapEntry Key} (hkey : ∀ e' ∈ used.reduceOption, e'.key ≠ e.key) {n : Nat}
    (hpassed : t.Passed existingHash e.key n) (hfree : t.index[t.position existingHash e.key n]? = some 0) :
    ∃ t', t.insertAt (t.position existingHash e.key n) e = .ok t' ∧ t'.WellFormed existingHash (used ++ [some e]) ∧
      t'.indexSize = t.indexSize ∧ t'.deletedOffsets = t.deletedOffsets := by
  have hlength := length_table h
  have hcapacity := h.tableCapacity_eq
  have hp : t.position existingHash e.key n < t.index.length := (List.getElem?_eq_some_iff.1 hfree).1
  have hslot : t.usedCount + 1 - 1 < t.table.length := by
    rw [h.usedCount_eq]
    omega
  have hother : ∀ p v, (t.index.set (t.position existingHash e.key n) (t.usedCount + 1))[p]? = some v →
      p = t.position existingHash e.key n ∧ v = used.length + 1 ∨
        p ≠ t.position existingHash e.key n ∧ t.index[p]? = some v := by
    intro p v hv
    by_cases heq : p = t.position existingHash e.key n
    · rw [heq, List.getElem?_set_self hp, h.usedCount_eq] at hv
      exact Or.inl ⟨heq, (Option.some.inj hv).symm⟩
    · rw [List.getElem?_set_ne (Ne.symm heq)] at hv
      exact Or.inr ⟨heq, hv⟩
  refine ⟨{ t with
    index := t.index.set (t.position existingHash e.key n) (t.usedCount + 1)
    table := t.table.set (t.usedCount + 1 - 1) (.entry e)
    keyCount := t.keyCount + 1 }, ?_, ?_, rfl, rfl⟩
  · simp only [insertAt, writeIndex, hp, if_true, ok_bind, writeSlot, hslot]
    rfl
  · constructor
    case indexSize_eq => exact h.indexSize_eq
    case index_length => exact List.length_set.trans h.index_length
    case table_eq =>
      obtain ⟨m, hm⟩ : ∃ m, t.tableCapacity + 1 - used.length = m + 1 := ⟨t.tableCapacity - used.length, by omega⟩
      have hm' : t.tableCapacity + 1 - (used ++ [some e]).length = m := by
        rw [List.length_append, List.length_singleton]
        omega
      have hreplicate : List.replicate (t.tableCapacity + 1 - (used ++ [some e]).length) (Slot.null : Slot Key) =
          List.replicate m .null := by rw [hm']
      have hset : t.table.set (t.usedCount + 1 - 1) (.entry e) =
          used.map Slot.ofUsed ++ .entry e :: List.replicate m .null := by
        rw [h.table_eq, h.usedCount_eq, hm, Nat.add_sub_cancel, List.set_append_right _ _ (by rw [List.length_map]),
          List.length_map, Nat.sub_self, List.replicate_succ, List.set_cons_zero]
      refine hset.trans ?_
      rw [List.map_append, List.append_assoc]
      exact congrArg (fun slots => used.map Slot.ofUsed ++ .entry e :: slots) hreplicate.symm
    case used_le =>
      rw [List.length_append]
      exact hlt
    case keyCount_eq =>
      rw [List.reduceOption_append, List.length_append, ← h.keyCount_eq]
      rfl
    case usedCount_eq =>
      have hused := h.usedCount_eq
      rw [List.length_append, ← hused]
      exact Nat.add_right_comm t.keyCount 1 t.deletedCount
    case keys_nodup =>
      rw [List.reduceOption_append, List.map_append]
      refine List.nodup_append'.2 ⟨h.keys_nodup, List.nodup_singleton _, ?_⟩
      change List.Disjoint _ [e.key]
      rw [List.disjoint_singleton]
      intro hmem
      obtain ⟨e', he', heq⟩ := List.mem_map.1 hmem
      exact hkey e' he' heq
    case taken =>
      have hzero : t.index[t.position existingHash e.key n] = 0 := by
        rw [List.getElem?_eq_getElem hp] at hfree
        exact Option.some.inj hfree
      have hcount : (t.index.set (t.position existingHash e.key n) (t.usedCount + 1)).countP (· ≠ 0) =
          t.index.countP (· ≠ 0) + 1 := by
        rw [List.countP_set hp, hzero]
        simp
      rw [List.length_append, ← h.taken]
      exact hcount
    case index_valid =>
      intro p v hv hne
      obtain ⟨rfl, rfl⟩ | ⟨-, hv⟩ := hother p v hv
      · exact Or.inr ⟨e, by rw [Nat.add_sub_cancel, List.getElem?_concat_length]⟩
      · obtain heq | ⟨e', he'⟩ := h.index_valid p v hv hne
        · exact Or.inl heq
        · exact Or.inr ⟨e', by rw [List.getElem?_append_left (List.getElem?_eq_some_iff.1 he').1, he']⟩
    case index_inj =>
      intro p q v hpv hqv hne hdeleted
      obtain ⟨rfl, rfl⟩ | ⟨-, hpv⟩ := hother p v hpv
      · obtain ⟨rfl, -⟩ | ⟨-, hqv⟩ := hother q _ hqv
        · rfl
        · exact absurd (h.lt_of_index hqv hne hdeleted) (by omega)
      · obtain ⟨rfl, rfl⟩ | ⟨-, hqv⟩ := hother q v hqv
        · exact absurd (h.lt_of_index hpv hne hdeleted) (by omega)
        · exact h.index_inj p q v hpv hqv hne hdeleted
    case reachable =>
      intro j e' hj
      by_cases hnew : j < used.length
      · rw [List.getElem?_append_left hnew] at hj
        obtain ⟨n', hpassed', hn'⟩ := h.reachable j e' hj
        refine ⟨n', hpassed'.set rfl rfl (Nat.succ_ne_zero _), ?_⟩
        have hne : t.position existingHash e.key n ≠ t.position existingHash e'.key n' := by
          intro heq
          rw [← heq, hfree] at hn'
          cases hn'
        exact (List.getElem?_set_ne hne).trans hn'
      · rw [List.getElem?_append_right (Nat.le_of_not_lt hnew)] at hj
        obtain ⟨hzero, rfl⟩ : j - used.length = 0 ∧ e = e' := by
          simpa [List.getElem?_singleton] using hj
        obtain rfl : j = used.length := by omega
        refine ⟨n, hpassed.set rfl rfl (Nat.succ_ne_zero _), ?_⟩
        rw [← h.usedCount_eq]
        exact List.getElem?_set_self hp

/-! ## Removing -/

variable (t) in
/-- The table in which the entry at `j`, to which position `p` of the index leads, is replaced by the sentinel. -/
def removed (p j : Nat) : PropertyTable Key :=
  { t with
    index := t.index.set p t.deletedEntryIndex
    table := t.table.set j .deleted
    keyCount := t.keyCount - 1
    deletedCount := t.deletedCount + 1 }

/-- A slot in use is one of three parts. -/
theorem exists_append_of_getElem? {α : Type} {l : List α} {j : Nat} {a : α} (h : l[j]? = some a) :
    ∃ front back, l = front ++ a :: back ∧ front.length = j := by
  obtain ⟨hlt, rfl⟩ := List.getElem?_eq_some_iff.1 h
  refine ⟨l.take j, l.drop (j + 1), ?_, List.length_take_of_le hlt.le⟩
  rw [← List.drop_eq_getElem_cons hlt, List.take_append_drop]

/-- **An entry is removed**: its slot stays in use. -/
theorem WellFormed.removed (h : t.WellFormed existingHash used) {j p : Nat} {e : PropertyMapEntry Key}
    (hj : used[j]? = some (some e)) (hp : t.index[p]? = some (j + 1)) :
    (t.removed p j).WellFormed existingHash (used.set j none) := by
  have hlt := (List.getElem?_eq_some_iff.1 hp).1
  have hused := (List.getElem?_eq_some_iff.1 hj).1
  have hle := h.used_le
  obtain ⟨front, back, hsplit, hfront⟩ := exists_append_of_getElem? hj
  have hset : used.set j none = front ++ none :: back := by
    rw [hsplit, List.set_append_right _ _ hfront.le, hfront, Nat.sub_self, List.set_cons_zero]
  have hentries : used.reduceOption = front.reduceOption ++ e :: back.reduceOption := by
    rw [hsplit, List.reduceOption_append, List.reduceOption_cons_of_some]
  have hentries' : (used.set j none).reduceOption = front.reduceOption ++ back.reduceOption := by
    rw [hset, List.reduceOption_append, List.reduceOption_cons_of_none]
  have hother : ∀ q v, (t.removed p j).index[q]? = some v →
      q = p ∧ v = t.deletedEntryIndex ∨ q ≠ p ∧ t.index[q]? = some v := by
    intro q v hv
    by_cases heq : q = p
    · rw [heq, PropertyTable.removed, List.getElem?_set_self hlt] at hv
      exact Or.inl ⟨heq, (Option.some.inj hv).symm⟩
    · rw [PropertyTable.removed, List.getElem?_set_ne (Ne.symm heq)] at hv
      exact Or.inr ⟨heq, hv⟩
  constructor
  case indexSize_eq => exact h.indexSize_eq
  case index_length => exact List.length_set.trans h.index_length
  case table_eq =>
    have hslots : t.table.set j .deleted = (used.set j none).map Slot.ofUsed ++
        List.replicate (t.tableCapacity + 1 - (used.set j none).length) .null := by
      rw [h.table_eq, List.set_append_left _ _ (by rwa [List.length_map]), List.map_set, List.length_set]
      rfl
    exact hslots
  case used_le =>
    rw [List.length_set]
    exact hle
  case keyCount_eq =>
    have hcount := h.keyCount_eq
    rw [hentries, List.length_append, List.length_cons] at hcount
    rw [hentries', List.length_append]
    change t.keyCount - 1 = _
    omega
  case usedCount_eq =>
    have hcount := h.keyCount_eq
    have hboth := h.usedCount_eq
    rw [hentries, List.length_append, List.length_cons] at hcount
    rw [List.length_set, ← hboth]
    change t.keyCount - 1 + (t.deletedCount + 1) = t.keyCount + t.deletedCount
    omega
  case keys_nodup =>
    have hnodup := h.keys_nodup
    rw [hentries, List.map_append, List.map_cons] at hnodup
    rw [hentries', List.map_append]
    exact hnodup.sublist ((List.Sublist.refl _).append (List.sublist_cons_self _ _))
  case taken =>
    have hvalue : t.index[p] = j + 1 := by
      rw [List.getElem?_eq_getElem hlt] at hp
      exact Option.some.inj hp
    have hcount : (t.index.set p t.deletedEntryIndex).countP (· ≠ 0) = t.index.countP (· ≠ 0) := by
      have hpos : 0 < t.index.countP (· ≠ 0) :=
        List.countP_pos_iff.2 ⟨t.index[p], List.getElem_mem hlt, by simp [hvalue]⟩
      rw [List.countP_set hlt, hvalue, if_pos (by simp), if_pos (by simp [deletedEntryIndex]), Nat.sub_add_cancel hpos]
    rw [List.length_set, ← h.taken]
    exact hcount
  case index_valid =>
    intro q v hv hne
    obtain ⟨-, rfl⟩ | ⟨hqp, hq⟩ := hother q v hv
    · exact Or.inl rfl
    · obtain heq | ⟨e', he'⟩ := h.index_valid q v hq hne
      · exact Or.inl heq
      · refine Or.inr ⟨e', ?_⟩
        have hne' : j ≠ v - 1 := by
          rintro rfl
          have hv' : v - 1 + 1 = v := Nat.sub_add_cancel (Nat.pos_of_ne_zero hne)
          rw [hv'] at hp
          have hdeleted : v ≠ t.deletedEntryIndex := by
            unfold deletedEntryIndex
            omega
          exact hqp (h.index_inj q p v hq hp hne hdeleted)
        rw [List.getElem?_set_ne hne', he']
  case index_inj =>
    intro q r v hq hr hne hdeleted
    obtain ⟨-, heq⟩ | ⟨-, hq⟩ := hother q v hq
    · exact absurd heq hdeleted
    · obtain ⟨-, heq⟩ | ⟨-, hr⟩ := hother r v hr
      · exact absurd heq hdeleted
      · exact h.index_inj q r v hq hr hne hdeleted
  case reachable =>
    intro j' e' hj'
    have hne : j' ≠ j := by
      rintro rfl
      rw [List.getElem?_set_self hused] at hj'
      cases hj'
    rw [List.getElem?_set_ne hne.symm] at hj'
    obtain ⟨n, hpassed, hn⟩ := h.reachable j' e' hj'
    refine ⟨n, hpassed.set rfl rfl (Nat.succ_ne_zero _), ?_⟩
    have hposition : p ≠ t.position existingHash e'.key n := by
      rintro rfl
      rw [hp] at hn
      exact hne (Nat.succ.inj (Option.some.inj hn)).symm
    exact (List.getElem?_set_ne hposition).trans hn

/-! ## Iterating -/

theorem drop_table (h : t.WellFormed existingHash used) {front back : List (Option (PropertyMapEntry Key))}
    (hused : used = front ++ back) :
    ∃ n, t.table.drop front.length = back.map Slot.ofUsed ++ List.replicate (n + 1) .null := by
  have hle := h.used_le
  refine ⟨t.tableCapacity - used.length, ?_⟩
  have hn : t.tableCapacity - used.length + 1 = t.tableCapacity + 1 - used.length := by omega
  have hlength : front.length = (front.map Slot.ofUsed).length := (List.length_map _).symm
  rw [hn, h.table_eq]
  generalize t.tableCapacity + 1 - used.length = m
  rw [hused, List.map_append, List.append_assoc, hlength, List.drop_left]

theorem skipDeletedEntries_deleted {position : Nat} {slots : List (Slot Key)}
    (h : t.table.drop position = .deleted :: slots) :
    t.skipDeletedEntries position = t.skipDeletedEntries (position + 1) := by
  have htail : t.table.drop (position + 1) = slots := by rw [← List.tail_drop, h, List.tail_cons]
  rw [skipDeletedEntries, skipDeletedEntries, h, htail, skipDeleted]

/-- **A loop over the entries** visits the live ones, in the order of their slots. -/
theorem forLoop_eq (h : t.WellFormed existingHash used) {β : Type} (f : β → PropertyMapEntry Key → Except Stop β)
    (back front : List (Option (PropertyMapEntry Key))) (hused : used = front ++ back) (fuel : Nat)
    (hfuel : back.length ≤ fuel) (b : β) :
    (t.skipDeletedEntries front.length >>= fun position => t.forLoop f fuel position b) =
      back.reduceOption.foldlM f b := by
  induction back generalizing front fuel b with
  | nil =>
    obtain ⟨n, hn⟩ := drop_table h hused
    rw [List.append_nil] at hused
    have hposition : front.length = t.usedCount := by rw [h.usedCount_eq, hused]
    rw [skipDeletedEntries, hn, List.map_nil, List.nil_append, List.replicate_succ, skipDeleted, ok_bind,
      forLoop.eq_def]
    · simp only [hposition, if_true]
      rfl
    · intro hnull
      cases hnull
  | cons o back ih =>
    obtain ⟨n, hn⟩ := drop_table h hused
    have hnext : used = (front ++ [o]) ++ back := by rw [hused, List.append_assoc, List.singleton_append]
    have hlength : (front ++ [o]).length = front.length + 1 := by rw [List.length_append, List.length_singleton]
    rw [List.map_cons, List.cons_append] at hn
    rw [List.length_cons] at hfuel
    cases o with
    | none =>
      have hskip := ih (front ++ [none]) hnext fuel (by omega) b
      rw [hlength] at hskip
      rw [skipDeletedEntries_deleted hn, hskip, List.reduceOption_cons_of_none]
    | some e =>
      obtain ⟨fuel, rfl⟩ : ∃ m, fuel = m + 1 := ⟨fuel - 1, by omega⟩
      have hlt : ¬ front.length = t.usedCount := by
        rw [h.usedCount_eq, hused, List.length_append, List.length_cons]
        omega
      have hread : t.readEntry front.length = .ok e := by
        apply readEntry_eq
        apply getElem?_table_entry h
        rw [hused, List.getElem?_append_right le_rfl, Nat.sub_self, List.getElem?_cons_zero]
      rw [skipDeletedEntries, hn, Slot.ofUsed, skipDeleted, ok_bind, forLoop, if_neg hlt, hread, ok_bind,
        List.reduceOption_cons_of_some, List.foldlM_cons]
      · congr 1
        funext b
        have hrest := ih (front ++ [some e]) hnext fuel (by omega) b
        rw [hlength] at hrest
        exact hrest
      · intro hdeleted
        cases hdeleted

/-- **A loop from `begin()` to `end()`.** -/
theorem iterate_eq (h : t.WellFormed existingHash used) {β : Type} (f : β → PropertyMapEntry Key → Except Stop β) (b : β) :
    t.iterate f b = used.reduceOption.foldlM f b :=
  forLoop_eq h f used [] rfl t.usedCount h.usedCount_eq.ge b

/-- **A clone is the same table.** -/
theorem clone_spec (h : t.WellFormed existingHash used) : t.clone = .ok t := by
  have hread : ∀ entries : List (PropertyMapEntry Key),
      entries.foldlM (fun (_ : Unit) _ => (Except.ok () : Except Stop Unit)) () = .ok () := by
    intro entries
    induction entries with
    | nil => rfl
    | cons e entries ih => rw [List.foldlM_cons, ok_bind, ih]
  rw [clone, iterate_eq h, hread]
  rfl

/-! ## Rehashing -/

variable [DecidableEq Key]

theorem reinsert_spec (h : t.WellFormed existingHash used) (hlt : used.length < t.tableCapacity)
    {e : PropertyMapEntry Key} (hkey : ∀ e' ∈ used.reduceOption, e'.key ≠ e.key) :
    ∃ t', t.reinsert existingHash e = .ok t' ∧ t'.WellFormed existingHash (used ++ [some e]) ∧
      t'.indexSize = t.indexSize ∧ t'.deletedOffsets = t.deletedOffsets := by
  obtain ⟨j, e', p, hj, heq, -⟩ | ⟨-, n, hpassed, hfree, hfind⟩ := find_spec h e.key
  · exact absurd heq (hkey e' (List.reduceOption_mem_iff.2 (List.mem_of_getElem? hj)))
  · rw [reinsert, hfind, ok_bind]
    exact insertAt_spec h hlt hkey hpassed hfree

theorem foldlM_reinsert (entries : List (PropertyMapEntry Key)) {t : PropertyTable Key}
    {used : List (Option (PropertyMapEntry Key))} (h : t.WellFormed existingHash used)
    (hnodup : ((used.reduceOption ++ entries).map PropertyMapEntry.key).Nodup)
    (hle : used.length + entries.length ≤ t.tableCapacity) :
    ∃ t', entries.foldlM (fun new e => new.reinsert existingHash e) t = .ok t' ∧
      t'.WellFormed existingHash (used ++ entries.map some) ∧ t'.indexSize = t.indexSize ∧
      t'.deletedOffsets = t.deletedOffsets := by
  induction entries generalizing t used with
  | nil => exact ⟨t, rfl, by rwa [List.map_nil, List.append_nil], rfl, rfl⟩
  | cons e entries ih =>
    rw [List.length_cons] at hle
    have hkey : ∀ e' ∈ used.reduceOption, e'.key ≠ e.key := by
      intro e' he' heq
      rw [List.map_append, List.map_cons] at hnodup
      have hdisjoint := (List.nodup_append'.1 hnodup).2.2
      exact hdisjoint (List.mem_map_of_mem he') (heq ▸ List.mem_cons_self)
    obtain ⟨t₁, hreinsert, h₁, hsize₁, hoffsets₁⟩ := reinsert_spec h (by omega) hkey
    have hentries : (used ++ [some e]).reduceOption ++ entries = used.reduceOption ++ e :: entries := by
      rw [List.reduceOption_append, List.append_assoc]
      rfl
    have hcapacity : t₁.tableCapacity = t.tableCapacity := by rw [tableCapacity, tableCapacity, hsize₁]
    obtain ⟨t', hfold, h', hsize', hoffsets'⟩ := ih h₁ (by rwa [hentries])
      (by rw [List.length_append, List.length_singleton, hcapacity]; omega)
    refine ⟨t', ?_, ?_, hsize'.trans hsize₁, hoffsets'.trans hoffsets₁⟩
    · rw [List.foldlM_cons, hreinsert, ok_bind, hfold]
    · rwa [List.append_assoc, List.singleton_append] at h'

/-- **The live entries are put in a new table** of a capacity that holds them. -/
theorem iterate_reinsert (h : t.WellFormed existingHash used) (capacity : UInt32) (hle : t.keyCount ≤ capacity.toNat)
    (hlt : capacity.toNat < 2 ^ 30) (deletedOffsets : Option (List Int)) :
    ∃ t', t.iterate (fun new e => new.reinsert existingHash e) (empty capacity deletedOffsets) = .ok t' ∧
      t'.WellFormed existingHash (used.reduceOption.map some) ∧ capacity.toNat < t'.tableCapacity ∧
      t'.deletedOffsets = deletedOffsets := by
  obtain ⟨k, hk, -, hsize, hcapacity⟩ := sizeForCapacity_eq hlt
  have hempty := wellFormed_empty existingHash hlt deletedOffsets
  have hlarge : capacity.toNat < (empty capacity deletedOffsets : PropertyTable Key).tableCapacity := by
    have htwice := hempty.tableCapacity_eq
    have hsize' : (empty capacity deletedOffsets : PropertyTable Key).indexSize.toNat = 2 ^ k := hsize
    obtain ⟨n, rfl⟩ : ∃ n, k = n + 1 := ⟨k - 1, by omega⟩
    rw [hsize', pow_succ] at htwice
    rw [Nat.add_sub_cancel] at hcapacity
    omega
  have hfold := foldlM_reinsert used.reduceOption hempty h.keys_nodup
    (by rw [← h.keyCount_eq, List.length_nil]; omega)
  obtain ⟨t', hfold, h', hsize', hoffsets'⟩ := hfold
  refine ⟨t', ?_, h', ?_, hoffsets'⟩
  · rw [iterate_eq h, hfold]
  · rwa [tableCapacity, hsize']

theorem toNat_ofNat_of_lt {n : Nat} (h : n < 2 ^ 30) : (UInt32.ofNat n).toNat = n := by
  rw [UInt32.toNat_ofNat']
  exact Nat.mod_eq_of_lt (by omega)

theorem ensureCapacity_spec (h : t.WellFormed existingHash used) {key : Key}
    (hkey : ∀ e ∈ used.reduceOption, e.key ≠ key) (hcapacity : t.canInsert ∨ t.keyCount + 1 < 2 ^ 30) {n : Nat}
    (hpassed : t.Passed existingHash key n) (hfree : t.index[t.position existingHash key n]? = some 0) :
    ∃ t' used' n', t.ensureCapacity existingHash key (t.position existingHash key n) =
        .ok (t', t'.position existingHash key n') ∧
      t'.WellFormed existingHash used' ∧ used'.reduceOption = used.reduceOption ∧ used'.length < t'.tableCapacity ∧
      t'.Passed existingHash key n' ∧ t'.index[t'.position existingHash key n']? = some 0 := by
  unfold ensureCapacity
  by_cases hinsert : t.canInsert
  · rw [if_pos hinsert]
    have hlt : used.length < t.tableCapacity := by
      rw [← h.usedCount_eq]
      exact of_decide_eq_true hinsert
    exact ⟨t, used, n, rfl, h, rfl, hlt, hpassed, hfree⟩
  · have hlt : t.keyCount + 1 < 2 ^ 30 := hcapacity.resolve_left hinsert
    have hcount := toNat_ofNat_of_lt hlt
    obtain ⟨t', hrehash, h', hlarge, -⟩ := iterate_reinsert h (UInt32.ofNat (t.keyCount + 1)) (by omega)
      (by omega) t.deletedOffsets
    have hentries : (used.reduceOption.map some).reduceOption = used.reduceOption := by simp [List.reduceOption]
    obtain ⟨j, e, p, hj, heq, -⟩ | ⟨-, n', hpassed', hfree', hfind'⟩ := find_spec h' key
    · have hmem := List.reduceOption_mem_iff.2 (List.mem_of_getElem? hj)
      rw [hentries] at hmem
      exact absurd heq (hkey e hmem)
    · refine ⟨t', _, n', ?_, h', hentries, ?_, hpassed', hfree'⟩
      · rw [if_neg hinsert, rehash, hrehash, ok_bind, hfind']
        rfl
      · rw [List.length_map, ← h.keyCount_eq]
        omega

/-! ## The operations -/

variable (existingHash t) in
/-- The live entries of a table, in the order in which they are visited. -/
def Represents (entries : List (PropertyMapEntry Key)) : Prop :=
  ∃ used, t.WellFormed existingHash used ∧ used.reduceOption = entries

variable {entries : List (PropertyMapEntry Key)}

/-- `find` and `get` return the entry of the key, if there is one. -/
theorem get_spec (h : t.Represents existingHash entries) (key : Key) :
    (∃ e ∈ entries, e.key = key ∧ ∃ j p, t.find existingHash key = .ok (some j, p) ∧ t.get existingHash key = .ok (some j) ∧
      t.readEntry j = .ok e) ∨
    (∀ e ∈ entries, e.key ≠ key) ∧ (∃ p, t.find existingHash key = .ok (none, p)) ∧ t.get existingHash key = .ok none := by
  obtain ⟨used, h, rfl⟩ := h
  obtain ⟨j, e, p, hj, heq, -, hfind⟩ | ⟨hnone, n, -, -, hfind⟩ := find_spec h key
  · have hmem : e ∈ used.reduceOption := List.reduceOption_mem_iff.2 (List.mem_of_getElem? hj)
    have hpos : t.isEmpty = false := by
      rw [isEmpty, h.keyCount_eq]
      exact decide_eq_false (List.length_pos_of_mem hmem).ne'
    refine Or.inl ⟨e, hmem, heq, j, p, hfind, ?_, readEntry_eq (getElem?_table_entry h hj)⟩
    rw [PropertyTable.get, hpos, hfind]
    rfl
  · refine Or.inr ⟨hnone, ⟨_, hfind⟩, ?_⟩
    rw [PropertyTable.get, hfind]
    split_ifs <;> rfl

/-- **`add` puts a new entry behind the others.** -/
theorem add_spec (h : t.Represents existingHash entries) (e : PropertyMapEntry Key) (offset : Int)
    (offsetEffect : EffectOnPropertyOffset)
    (hcapacity : t.canInsert ∨ t.keyCount + 1 < 2 ^ 30 ∨ ∃ e' ∈ entries, e'.key = e.key) :
    (∃ e' ∈ entries, e'.key = e.key ∧ t.add existingHash e offset offsetEffect =
      if e'.offset ≤ offset then .ok (t, false, offset) else .error .releaseAssert) ∨
    (∀ e' ∈ entries, e'.key ≠ e.key) ∧ ∃ t' : PropertyTable Key, t'.Represents existingHash (entries ++ [e]) ∧
      t.add existingHash e offset offsetEffect =
        if offsetEffect = .PropertyOffsetMayChange then .ok (t', true, max offset e.offset)
        else if offset ≥ e.offset then .ok (t', true, offset) else .error .releaseAssert := by
  obtain ⟨used, h, rfl⟩ := h
  obtain ⟨j, e', p, hj, heq, -, hfind⟩ | ⟨hnone, n, hpassed, hfree, hfind⟩ := find_spec h e.key
  · refine Or.inl ⟨e', List.reduceOption_mem_iff.2 (List.mem_of_getElem? hj), heq, ?_⟩
    rw [add, hfind, ok_bind]
    simp only [readEntry_eq (getElem?_table_entry h hj), ok_bind]
    rfl
  · refine Or.inr ⟨hnone, ?_⟩
    have hroom : t.canInsert ∨ t.keyCount + 1 < 2 ^ 30 := by
      obtain hinsert | hlt | ⟨e', he', heq⟩ := hcapacity
      · exact Or.inl hinsert
      · exact Or.inr hlt
      · exact absurd heq (hnone e' he')
    obtain ⟨t₁, used₁, n₁, hensure, h₁, hentries, hlt, hpassed₁, hfree₁⟩ :=
      ensureCapacity_spec h hnone hroom hpassed hfree
    obtain ⟨t', hinsert, h', -, -⟩ := insertAt_spec h₁ hlt (by rwa [hentries]) hpassed₁ hfree₁
    refine ⟨t', ⟨_, h', ?_⟩, ?_⟩
    · rw [List.reduceOption_append, hentries]
      rfl
    · rw [add, hfind, ok_bind]
      simp only [hensure, ok_bind, hinsert]
      rfl

/-- The live entries but the one at `j` are those with other keys. -/
theorem reduceOption_set_none {j : Nat} {e : PropertyMapEntry Key} (hj : used[j]? = some (some e))
    (hnodup : (used.reduceOption.map PropertyMapEntry.key).Nodup) :
    (used.set j none).reduceOption = used.reduceOption.filter fun e' => e'.key ≠ e.key := by
  obtain ⟨front, back, rfl, rfl⟩ := exists_append_of_getElem? hj
  rw [List.set_append_right _ _ le_rfl, Nat.sub_self, List.set_cons_zero, List.reduceOption_append,
    List.reduceOption_append, List.reduceOption_cons_of_none, List.reduceOption_cons_of_some]
  rw [List.reduceOption_append, List.reduceOption_cons_of_some, List.map_append, List.map_cons] at hnodup
  obtain ⟨-, hback, hdisjoint⟩ := List.nodup_append'.1 hnodup
  have hfront : ∀ e' ∈ front.reduceOption, e'.key ≠ e.key := by
    intro e' he' heq
    exact hdisjoint (List.mem_map_of_mem he') (heq ▸ List.mem_cons_self)
  have hback' : ∀ e' ∈ back.reduceOption, e'.key ≠ e.key := by
    intro e' he' heq
    exact (List.nodup_cons.1 hback).1 (heq ▸ List.mem_map_of_mem he')
  rw [List.filter_append, List.filter_cons, if_neg (by simp), List.filter_eq_self.2 fun e' he' => decide_eq_true (hfront e' he'),
    List.filter_eq_self.2 fun e' he' => decide_eq_true (hback' e' he')]

/-- **`remove` takes the entry of the key out.** -/
theorem remove_spec (h : t.Represents existingHash entries) (key : Key) :
    ∃ t' : PropertyTable Key, t.remove existingHash key = .ok t' ∧
      t'.Represents existingHash (entries.filter fun e => e.key ≠ key) := by
  obtain ⟨used, h, rfl⟩ := h
  obtain ⟨j, e, p, hj, rfl, hp, hfind⟩ | ⟨hnone, n, -, -, hfind⟩ := find_spec h key
  · have hused := (List.getElem?_eq_some_iff.1 hj).1
    have hle := h.used_le
    have hlt := (List.getElem?_eq_some_iff.1 hp).1
    have hslot : j < t.table.length := by
      rw [length_table h]
      omega
    have hremoved := h.removed hj hp
    have hentries := reduceOption_set_none hj h.keys_nodup
    have hread : readEntry { t with index := t.index.set p t.deletedEntryIndex } j = .ok e :=
      readEntry_eq (getElem?_table_entry h hj)
    have hremove : t.remove existingHash e.key =
        if (t.removed p j).deletedCount * 4 ≥ t.indexSize.toNat then
          (t.removed p j).rehash existingHash (UInt32.ofNat (t.removed p j).keyCount)
        else .ok (t.removed p j) := by
      rw [PropertyTable.remove, hfind, ok_bind, removeIter]
      simp only [writeIndex, if_pos hlt, ok_bind, hread, writeSlot, if_pos hslot]
      rfl
    rw [hremove]
    split_ifs with hrehash
    · have hcount : (t.removed p j).keyCount < 2 ^ 30 := by
        obtain ⟨k, -, hk, hsize⟩ := hremoved.indexSize_eq
        have hpow : 2 ^ k ≤ 2 ^ 31 := Nat.pow_le_pow_right (by decide) hk
        have hcapacity := hremoved.tableCapacity_eq
        have hboth := hremoved.usedCount_eq
        have hle' := hremoved.used_le
        have hsame : (t.removed p j).indexSize = t.indexSize := rfl
        rw [← hsame] at hrehash
        unfold usedCount at hboth
        omega
      obtain ⟨t', hiterate, h', -, -⟩ := iterate_reinsert hremoved
        (UInt32.ofNat (t.removed p j).keyCount) (toNat_ofNat_of_lt hcount).ge
        (by rwa [toNat_ofNat_of_lt hcount]) (t.removed p j).deletedOffsets
      refine ⟨t', hiterate, _, h', ?_⟩
      rw [← hentries]
      simp [List.reduceOption]
    · exact ⟨_, rfl, _, hremoved, hentries⟩
  · refine ⟨t, ?_, used, h, ?_⟩
    · rw [remove, hfind]
      rfl
    · exact (List.filter_eq_self.2 fun e he => decide_eq_true (hnone e he)).symm

theorem cloneWithCapacity_spec (h : t.Represents existingHash entries) {capacity : UInt32}
    (hle : t.keyCount ≤ capacity.toNat) (hlt : capacity.toNat < 2 ^ 30) :
    ∃ t' : PropertyTable Key, t.cloneWithCapacity existingHash capacity = .ok t' ∧ t'.Represents existingHash entries := by
  obtain ⟨used, h, rfl⟩ := h
  obtain ⟨t', hiterate, h', -, -⟩ := iterate_reinsert h capacity hle hlt t.deletedOffsets
  exact ⟨t', hiterate, _, h', by simp [List.reduceOption]⟩

theorem copy_spec (h : t.Represents existingHash entries) {capacity : UInt32} (hle : t.keyCount ≤ capacity.toNat)
    (hlt : capacity.toNat < 2 ^ 30) :
    ∃ t' : PropertyTable Key, t.copy existingHash capacity = .ok t' ∧ t'.Represents existingHash entries := by
  unfold copy
  split_ifs
  · obtain ⟨used, h', heq⟩ := h
    exact ⟨t, clone_spec h', used, h', heq⟩
  · exact cloneWithCapacity_spec h hle hlt

end WebKit.JSC.PropertyTable
