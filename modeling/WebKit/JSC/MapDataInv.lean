import WebKit.JSC.MapData
import WebKit.Lib.OrderedMap

/-!
# What holds of map data

`Holds d used`: the entries of `d` that were written are `used`, and each of the three tables leads from the live keys
of its kind to their entries. `contents used` is the ordered map that they represent.

Packing moves the entry at `i` to `rank used i`, the number of live entries in front of it. `fixup` brings the tables
for string keys and other keys in line with that. The table for object keys keeps its indices, so it is right afterwards
if and only if no object key has a cleared entry in front of it (`ObjectsInFront`).
-/

namespace WebKit.JSC

open WebKit.Lib

namespace MapData

theorem ok_bind {α β : Type} (a : α) (f : α → Except MapFault β) : (Except.ok a >>= f) = f a := rfl

/-! ## Keys and tables -/

/-- The key that a key of each of the tables stands for. -/
def cellKey (address : Nat) : Option MapValue := some (.cell address)

def stringKey (characters : List UInt16) : Option MapValue := some (.string characters)

def valueKey : MapValue → Option MapValue
  | .string _ => none
  | .cell _ => none
  | key => some key

/-- The table leads from the keys of its kind to their entries. -/
def Indexes {κ : Type} (keyOf : κ → Option MapValue) (used : List MapEntry) (table : IndexTable κ) : Prop :=
  ∀ k i, (k, i) ∈ table ↔ ∃ e, used[i]? = some e ∧ e.key.isSome ∧ e.key = keyOf k

/-- The keys of the live entries. -/
def liveKeys (used : List MapEntry) : List MapValue := used.filterMap MapEntry.key

/-- The live entries. -/
def contents (used : List MapEntry) : OrderedMap MapValue MapValue :=
  used.filterMap fun e => e.key.bind fun k => e.value.map fun v => (k, v)

/-- The three tables. -/
structure Tables (d : MapData) (used : List MapEntry) : Prop where
  cells : Indexes cellKey used d.cellKeyedTable
  strings : Indexes stringKey used d.stringKeyedTable
  values : Indexes valueKey used d.valueKeyedTable

/-- The entries that were written are `used`. -/
structure Holds (d : MapData) (used : List MapEntry) : Prop extends Tables d used where
  entries_eq : d.entries = used.map some ++ newStorage (d.capacity - d.size)
  size_eq : d.size = used.length
  size_le : d.size ≤ d.capacity
  deletedCount_eq : d.deletedCount = used.countP fun e => e.key.isNone
  keys_nodup : (liveKeys used).Nodup
  value_isSome : ∀ e ∈ used, e.key.isSome → e.value.isSome

variable {d : MapData} {used : List MapEntry} {key : MapValue} {i : Nat} {e : MapEntry}

theorem index_unique (hnodup : (liveKeys used).Nodup) {j : Nat} {e' : MapEntry} (hi : used[i]? = some e)
    (hj : used[j]? = some e') (hkey : e.key = some key) (hkey' : e'.key = some key) : i = j := by
  induction used generalizing i j with
  | nil => cases hi
  | cons first used ih =>
    have hnot : first.key = some key → ∀ (k : Nat) e, used[k]? = some e → e.key ≠ some key := by
      intro hfirst k e he heq
      rw [liveKeys, List.filterMap_cons, hfirst, List.nodup_cons] at hnodup
      exact hnodup.1 (List.mem_filterMap.2 ⟨e, List.mem_of_getElem? he, heq⟩)
    have hrest : (liveKeys used).Nodup := by
      rw [liveKeys, List.filterMap_cons] at hnodup
      cases hfirst : first.key with
      | none => rwa [hfirst] at hnodup
      | some k =>
        rw [hfirst] at hnodup
        exact (List.nodup_cons.1 hnodup).2
    cases i with
    | zero =>
      obtain rfl := Option.some.inj hi
      cases j with
      | zero => rfl
      | succ j => exact absurd hkey' (hnot hkey j e' hj)
    | succ i =>
      cases j with
      | zero =>
        obtain rfl := Option.some.inj hj
        exact absurd hkey (hnot hkey' i e hi)
      | succ j => exact congrArg _ (ih hrest hi hj)

theorem Indexes.find_eq_some {κ : Type} [DecidableEq κ] {keyOf : κ → Option MapValue} {table : IndexTable κ}
    (h : Indexes keyOf used table) (hnodup : (liveKeys used).Nodup) {k : κ} (hk : keyOf k = some key) :
    table.find k = some i ↔ ∃ e, used[i]? = some e ∧ e.key = some key := by
  have hmem : (k, i) ∈ table ↔ ∃ e, used[i]? = some e ∧ e.key = some key := by
    rw [h k i, hk]
    refine exists_congr fun e => and_congr_right fun _ => ⟨fun h => h.2, fun h => ⟨by rw [h]; rfl, h⟩⟩
  rw [← hmem, IndexTable.find, Option.map_eq_some_iff]
  constructor
  · rintro ⟨⟨k', i'⟩, hfind, rfl⟩
    obtain rfl : k' = k := of_decide_eq_true (List.find?_some hfind :)
    exact List.mem_of_find?_eq_some hfind
  · intro hi
    have hsome : (List.find? (fun e => decide (e.1 = k)) table).isSome = true :=
      List.find?_isSome.2 ⟨_, hi, decide_eq_true rfl⟩
    obtain ⟨⟨k', i'⟩, hfind⟩ := Option.isSome_iff_exists.1 hsome
    obtain rfl : k' = k := of_decide_eq_true (List.find?_some hfind :)
    refine ⟨_, hfind, ?_⟩
    obtain ⟨e, he, hkey⟩ := hmem.1 hi
    obtain ⟨e', he', -, hkey'⟩ := (h k' i').1 (List.mem_of_find?_eq_some hfind)
    exact index_unique hnodup he' he (hkey'.trans hk) hkey

/-- **What the tables find.** -/
theorem Holds.findIndex_eq_some (h : Holds d used) (key : MapValue) :
    d.findIndex key = some i ↔ ∃ e, used[i]? = some e ∧ e.key = some key := by
  cases key with
  | string characters => exact h.strings.find_eq_some h.keys_nodup rfl
  | cell address => exact h.cells.find_eq_some h.keys_nodup rfl
  | int32 value => exact h.values.find_eq_some h.keys_nodup rfl
  | double value => exact h.values.find_eq_some h.keys_nodup rfl
  | boolean value => exact h.values.find_eq_some h.keys_nodup rfl
  | null => exact h.values.find_eq_some h.keys_nodup rfl
  | undefined => exact h.values.find_eq_some h.keys_nodup rfl

theorem Holds.findIndex_eq_none (h : Holds d used) : d.findIndex key = none ↔ key ∉ liveKeys used := by
  rw [Option.eq_none_iff_forall_ne_some, liveKeys, List.mem_filterMap]
  constructor
  · rintro hnone ⟨e, he, hkey⟩
    obtain ⟨i, hi⟩ := List.mem_iff_getElem?.1 he
    exact hnone i ((h.findIndex_eq_some key).2 ⟨e, hi, hkey⟩)
  · intro hnot i hi
    obtain ⟨e, he, hkey⟩ := (h.findIndex_eq_some key).1 hi
    exact hnot ⟨e, List.mem_of_getElem? he, hkey⟩

/-! ## Slots -/

theorem Holds.getElem?_entries (h : Holds d used) (he : used[i]? = some e) : d.entries[i]? = some (some e) := by
  have hi := (List.getElem?_eq_some_iff.1 he).1
  rw [h.entries_eq, List.getElem?_append_left (by rwa [List.length_map]), List.getElem?_map, he]
  rfl

theorem readSlot_eq {slots : List (Option MapEntry)} (h : slots[i]? = some (some e)) : readSlot slots i = .ok e := by
  unfold readSlot
  rw [h]

theorem Holds.readSlot_eq (h : Holds d used) (he : used[i]? = some e) : readSlot d.entries i = .ok e :=
  MapData.readSlot_eq (h.getElem?_entries he)

theorem Holds.length_entries (h : Holds d used) : d.entries.length = d.capacity := by
  have hsize := h.size_eq
  have hle := h.size_le
  rw [h.entries_eq, List.length_append, List.length_map, newStorage, List.length_replicate]
  omega

theorem Holds.set_entries (h : Holds d used) (hi : i < used.length) (e : MapEntry) :
    d.entries.set i (some e) = (used.set i e).map some ++ newStorage (d.capacity - d.size) := by
  rw [h.entries_eq, List.set_append_left i (some e) (by rwa [List.length_map]), List.map_set]

theorem Holds.take_entries (h : Holds d used) : d.entries.take d.size = used.map some := by
  rw [h.entries_eq, h.size_eq, List.take_left' (List.length_map some)]

/-! ## Packing -/

/-- The live entries, which a packed store has. -/
def live (used : List MapEntry) : List MapEntry := used.filter fun e => e.key.isSome

/-- The number of live entries in front of an entry. -/
def rank (used : List MapEntry) (i : Nat) : Nat := (used.take i).countP fun e => e.key.isSome

/-- The old entries with their forwarding indices, where the first is forwarded to `newEnd`. -/
def forwarded : Nat → List MapEntry → List MapEntry
  | _, [] => []
  | newEnd, e :: used =>
    if e.key.isSome then { e with value := some (.int32 newEnd) } :: forwarded (newEnd + 1) used
    else e :: forwarded newEnd used

theorem rank_succ_cons (e : MapEntry) (used : List MapEntry) (i : Nat) :
    rank (e :: used) (i + 1) = rank used i + if e.key.isSome then 1 else 0 := by
  rw [rank, List.take_succ_cons, List.countP_cons]
  rfl

theorem getElem?_live (he : used[i]? = some e) (hlive : e.key.isSome) : (live used)[rank used i]? = some e := by
  induction used generalizing i with
  | nil => cases he
  | cons first used ih =>
    cases i with
    | zero =>
      obtain rfl := Option.some.inj he
      rw [live, List.filter_cons, if_pos hlive]
      rfl
    | succ i =>
      rw [rank_succ_cons, live, List.filter_cons]
      split_ifs with hfirst
      · exact ih he
      · exact ih he

theorem exists_of_getElem?_live {j : Nat} (h : (live used)[j]? = some e) :
    ∃ i, used[i]? = some e ∧ e.key.isSome ∧ rank used i = j := by
  induction used generalizing j with
  | nil => cases h
  | cons first used ih =>
    rw [live, List.filter_cons] at h
    split_ifs at h with hfirst
    · cases j with
      | zero =>
        obtain rfl := Option.some.inj h
        exact ⟨0, rfl, hfirst, rfl⟩
      | succ j =>
        obtain ⟨i, he, hlive, hrank⟩ := ih h
        exact ⟨i + 1, he, hlive, by rw [rank_succ_cons, if_pos hfirst, hrank]⟩
    · obtain ⟨i, he, hlive, hrank⟩ := ih h
      exact ⟨i + 1, he, hlive, by rw [rank_succ_cons, if_neg hfirst, hrank, Nat.add_zero]⟩

theorem getElem?_forwarded {newEnd : Nat} (he : used[i]? = some e) (hlive : e.key.isSome) :
    (forwarded newEnd used)[i]? = some { e with value := some (.int32 ↑(newEnd + rank used i)) } := by
  induction used generalizing i newEnd with
  | nil => cases he
  | cons first used ih =>
    rw [forwarded]
    cases i with
    | zero =>
      obtain rfl := Option.some.inj he
      rw [if_pos hlive]
      rfl
    | succ i =>
      rw [rank_succ_cons]
      split_ifs with hfirst
      · rw [List.getElem?_cons_succ, ih he]
        congr 4
        omega
      · rw [List.getElem?_cons_succ, ih he]
        rfl

/-- **The loop of `replaceAndPackBackingStore`.** -/
theorem packLoop_eq (used : List MapEntry) (destination : List (Option MapEntry)) (newEnd : Nat)
    (hroom : newEnd + (live used).length ≤ destination.length) :
    packLoop destination (used.map some) newEnd =
      .ok (destination.take newEnd ++ (live used).map some ++ destination.drop (newEnd + (live used).length),
        (forwarded newEnd used).map some, newEnd + (live used).length) := by
  induction used generalizing destination newEnd with
  | nil =>
    show packLoop destination [] newEnd = .ok (destination.take newEnd ++ [] ++ destination.drop newEnd, [], newEnd)
    rw [packLoop, List.append_nil, List.take_append_drop]
  | cons e used ih =>
    rw [List.map_cons, packLoop, forwarded]
    cases hkey : e.key with
    | none =>
      have hdead : ¬ e.key.isSome = true := by rw [hkey]; exact Bool.false_ne_true
      have hlive : live (e :: used) = live used := List.filter_cons_of_neg hdead
      rw [hlive] at hroom ⊢
      rw [ih destination newEnd hroom]
      rfl
    | some k =>
      have hsome : e.key.isSome = true := by rw [hkey]; rfl
      have hlive : live (e :: used) = e :: live used := List.filter_cons_of_pos hsome
      rw [hlive, List.length_cons] at hroom
      have hlength : newEnd < destination.length := by omega
      have hwrite : writeSlot destination newEnd e = .ok (destination.set newEnd (some e)) := if_pos hlength
      have hrest := ih (destination.set newEnd (some e)) (newEnd + 1) (by rw [List.length_set]; omega)
      have htake : (destination.set newEnd (some e)).take (newEnd + 1) = destination.take newEnd ++ [some e] := by
        rw [List.take_add_one, List.take_set_of_le (Nat.le_refl newEnd), List.getElem?_set_self hlength]
        rfl
      have hdrop : (destination.set newEnd (some e)).drop (newEnd + 1 + (live used).length) =
          destination.drop (newEnd + (e :: live used).length) := by
        rw [List.drop_set_of_lt (by omega), List.length_cons]
        congr 1
        omega
      simp only [Option.isNone_some, Bool.false_eq_true, if_false, Option.isSome_some, if_true]
      rw [hwrite, ok_bind, hrest, ok_bind, htake, hdrop, hlive, List.length_cons]
      simp only [List.map_cons, List.append_assoc, List.singleton_append]
      congr 3
      omega

/-- **The tables are fixed up.** -/
theorem fixup_spec {κ : Type} {keyOf : κ → Option MapValue} {table : IndexTable κ} (h : Indexes keyOf used table) :
    ∃ table', fixup ((forwarded 0 used).map some) table = .ok table' ∧ Indexes keyOf (live used) table' := by
  have hfixup : ∀ part : IndexTable κ, (∀ e ∈ part, e ∈ table) → fixup ((forwarded 0 used).map some) part =
      .ok (part.map fun e => (e.1, rank used e.2)) := by
    intro part hpart
    induction part with
    | nil => rfl
    | cons entry part ih =>
      obtain ⟨e, he, hlive, -⟩ := (h entry.1 entry.2).1 (hpart entry List.mem_cons_self)
      have hread : readSlot ((forwarded 0 used).map some) entry.2 =
          .ok { e with value := some (.int32 ↑(rank used entry.2)) } := by
        apply MapData.readSlot_eq
        rw [List.getElem?_map, getElem?_forwarded he hlive, Nat.zero_add]
        rfl
      have ih := ih fun e he => hpart e (List.mem_cons_of_mem _ he)
      rw [fixup] at ih ⊢
      rw [List.mapM_cons, hread, ok_bind, asInt32, ok_bind, pure_bind, ih]
      rfl
  refine ⟨_, hfixup table fun _ he => he, fun k j => ?_⟩
  rw [List.mem_map]
  constructor
  · rintro ⟨⟨k', i⟩, hmem, heq⟩
    obtain ⟨rfl, rfl⟩ := Prod.mk.inj heq
    obtain ⟨e, he, hlive, hkey⟩ := (h k' i).1 hmem
    exact ⟨e, getElem?_live he hlive, hlive, hkey⟩
  · rintro ⟨e, he, hlive, hkey⟩
    obtain ⟨i, hi, -, rfl⟩ := exists_of_getElem?_live he
    exact ⟨(k, i), (h k i).2 ⟨e, hi, hlive, hkey⟩, rfl⟩

/-! ## When packing is right -/

/-- The key of the entry at an index. -/
def keyAt (d : MapData) (i : Nat) : Option MapValue := d.entries[i]?.join.bind MapEntry.key

/-- **No object key has a cleared entry in front of it.** -/
def ObjectsInFront (d : MapData) : Prop :=
  ∀ i address, d.keyAt i = some (.cell address) → ∀ j < i, (d.keyAt j).isSome

/-- Each table leads from the live keys of its kind, and from no other ones, to the index of their entry. -/
def TablesExact (d : MapData) : Prop := ∀ key i, d.findIndex key = some i ↔ i < d.size ∧ d.keyAt i = some key

theorem Holds.keyAt_eq (h : Holds d used) (he : used[i]? = some e) : d.keyAt i = e.key := by
  rw [keyAt, h.getElem?_entries he]
  rfl

theorem Holds.keyAt_none (h : Holds d used) (hi : used.length ≤ i) : d.keyAt i = none := by
  have hnone : d.entries[i]?.join = none := by
    rw [h.entries_eq, List.getElem?_append_right (by rwa [List.length_map]), newStorage, List.getElem?_replicate]
    split_ifs <;> rfl
  rw [keyAt, hnone, Option.bind_none]

theorem Holds.keyAt_eq_some (h : Holds d used) : d.keyAt i = some key ↔ ∃ e, used[i]? = some e ∧ e.key = some key := by
  by_cases hi : i < used.length
  · have he : used[i]? = some used[i] := List.getElem?_eq_getElem hi
    rw [h.keyAt_eq he, he]
    constructor
    · intro hkey
      exact ⟨_, rfl, hkey⟩
    · rintro ⟨e, heq, hkey⟩
      rw [Option.some.inj heq]
      exact hkey
  · rw [h.keyAt_none (by omega), List.getElem?_eq_none (by omega)]
    simp

theorem Holds.tablesExact (h : Holds d used) : d.TablesExact := by
  intro key i
  rw [h.findIndex_eq_some, h.keyAt_eq_some, h.size_eq]
  refine ⟨fun hex => ⟨?_, hex⟩, And.right⟩
  obtain ⟨e, he, -⟩ := hex
  exact (List.getElem?_eq_some_iff.1 he).1

theorem rank_eq_iff (hi : i ≤ used.length) : rank used i = i ↔ ∀ j < i, ∃ e, used[j]? = some e ∧ e.key.isSome := by
  have hlength : (used.take i).length = i := List.length_take_of_le hi
  have hcount : rank used i = i ↔ ∀ e ∈ used.take i, e.key.isSome := by
    rw [rank]
    nth_rewrite 2 [← hlength]
    exact List.countP_eq_length
  rw [hcount]
  constructor
  · intro h j hj
    have hlt : j < used.length := by omega
    have hmem : used[j] ∈ used.take i := by
      rw [List.mem_iff_getElem?]
      exact ⟨j, by rw [List.getElem?_take_of_lt hj, List.getElem?_eq_getElem hlt]⟩
    exact ⟨_, List.getElem?_eq_getElem hlt, h _ hmem⟩
  · intro h e he
    obtain ⟨j, hj⟩ := List.mem_iff_getElem?.1 he
    have hlt : j < i := by
      have := (List.getElem?_eq_some_iff.1 hj).1
      omega
    rw [List.getElem?_take_of_lt hlt] at hj
    obtain ⟨e', he', hlive⟩ := h j hlt
    obtain rfl := Option.some.inj (hj.symm.trans he')
    exact hlive

theorem Holds.rank_eq (h : Holds d used) (hfront : d.ObjectsInFront) {address : Nat} (he : used[i]? = some e)
    (hkey : e.key = some (.cell address)) : rank used i = i := by
  refine (rank_eq_iff (Nat.le_of_lt (List.getElem?_eq_some_iff.1 he).1)).2 fun j hj => ?_
  have hsome := hfront i address ((h.keyAt_eq he).trans hkey) j hj
  obtain ⟨key, hkey'⟩ := Option.isSome_iff_exists.1 hsome
  obtain ⟨e', he', hkey''⟩ := h.keyAt_eq_some.1 hkey'
  exact ⟨e', he', by rw [hkey'']; rfl⟩

theorem Holds.cells_live (h : Holds d used) (hfront : d.ObjectsInFront) :
    Indexes cellKey (live used) d.cellKeyedTable := by
  intro address j
  rw [h.cells address j]
  constructor
  · rintro ⟨e, he, hlive, hkey⟩
    have := getElem?_live he hlive
    rw [h.rank_eq hfront he hkey] at this
    exact ⟨e, this, hlive, hkey⟩
  · rintro ⟨e, he, hlive, hkey⟩
    obtain ⟨i, hi, -, hrank⟩ := exists_of_getElem?_live he
    rw [h.rank_eq hfront hi hkey] at hrank
    obtain rfl := hrank
    exact ⟨e, hi, hlive, hkey⟩

/-! ## Moving the backing store -/

theorem liveKeys_live : liveKeys (live used) = liveKeys used := by
  rw [liveKeys, liveKeys, live, List.filterMap_filter]
  refine List.filterMap_congr fun e _ => ?_
  cases e.key <;> rfl

theorem contents_live : contents (live used) = contents used := by
  rw [contents, contents, live, List.filterMap_filter]
  refine List.filterMap_congr fun e _ => ?_
  cases e.key <;> rfl

theorem length_live_le (used : List MapEntry) : (live used).length ≤ used.length := List.length_filter_le _ _

/-- The result of packing, but for the table for object keys. -/
structure Packed (d : MapData) (used : List MapEntry) (newCapacity : Nat) (d' : MapData) : Prop where
  entries_eq : d'.entries = (live used).map some ++ newStorage (d'.capacity - d'.size)
  size_eq : d'.size = (live used).length
  capacity_eq : d'.capacity = newCapacity
  deletedCount_eq : d'.deletedCount = 0
  iteratorCount_eq : d'.iteratorCount = d.iteratorCount
  cells_eq : d'.cellKeyedTable = d.cellKeyedTable
  strings : Indexes stringKey (live used) d'.stringKeyedTable
  values : Indexes valueKey (live used) d'.valueKeyedTable

theorem replaceAndPack_spec (h : Holds d used) {newCapacity : Nat} (hcapacity : d.capacity ≤ newCapacity)
    (hpos : 0 < newCapacity) :
    ∃ d', d.replaceAndPackBackingStore (newStorage newCapacity) newCapacity = .ok d' ∧
      Packed d used newCapacity d' := by
  have hsize := h.size_eq
  have hle := h.size_le
  have hlive := length_live_le used
  have hlength : (newStorage newCapacity).length = newCapacity := List.length_replicate
  obtain ⟨values, hvalues, hvalues'⟩ := fixup_spec h.values
  obtain ⟨strings, hstrings, hstrings'⟩ := fixup_spec h.strings
  have hpack := packLoop_eq used (newStorage newCapacity) 0 (by omega)
  rw [Nat.zero_add, List.take_zero, List.nil_append] at hpack
  rw [replaceAndPackBackingStore, if_neg (Nat.ne_of_gt hpos), h.take_entries, hpack]
  simp only [ok_bind]
  rw [hvalues, ok_bind, hstrings, ok_bind]
  refine ⟨_, rfl, ?_, rfl, rfl, rfl, rfl, rfl, hstrings', hvalues'⟩
  show (live used).map some ++ (newStorage newCapacity).drop (live used).length = _
  rw [newStorage, List.drop_replicate]
  rfl

theorem Packed.holds {newCapacity : Nat} {d' : MapData} (hd : Packed d used newCapacity d') (h : Holds d used)
    (hcapacity : d.capacity ≤ newCapacity) (hfront : d.ObjectsInFront) : Holds d' (live used) where
  entries_eq := hd.entries_eq
  size_eq := hd.size_eq
  size_le := by
    have hsize := h.size_eq
    have hle := h.size_le
    have hlive := length_live_le used
    rw [hd.size_eq, hd.capacity_eq]
    omega
  deletedCount_eq := by
    rw [hd.deletedCount_eq, eq_comm, List.countP_eq_zero]
    intro e he
    have hlive : e.key.isSome = true := by simpa using (List.mem_filter.1 he).2
    rw [Option.isNone_eq_false_iff.2 hlive]
    exact Bool.false_ne_true
  keys_nodup := by rw [liveKeys_live]; exact h.keys_nodup
  value_isSome := fun e he => h.value_isSome e (List.mem_filter.1 he).1
  cells := by rw [hd.cells_eq]; exact h.cells_live hfront
  strings := hd.strings
  values := hd.values

/-- The table for object keys leads to another entry than the one that has the key. -/
def Broken (d : MapData) : Prop :=
  ∃ address i j, i ≠ j ∧ d.findIndex (.cell address) = some i ∧ j < d.size ∧ d.keyAt j = some (.cell address)

theorem Broken.not_tablesExact (h : d.Broken) : ¬ d.TablesExact := by
  obtain ⟨address, i, j, hne, hfind, hj, hkey⟩ := h
  intro hexact
  exact hne (Option.some.inj (hfind.symm.trans ((hexact _ j).2 ⟨hj, hkey⟩)))

/-- **Packing breaks the table for object keys** if one of them is moved. -/
theorem Packed.broken {newCapacity : Nat} {d' : MapData} (hd : Packed d used newCapacity d') (h : Holds d used)
    (hnot : ¬ d.ObjectsInFront) : d'.Broken := by
  rw [ObjectsInFront] at hnot
  push Not at hnot
  obtain ⟨i, address, hkey, j, hj, hdead⟩ := hnot
  obtain ⟨e, he, hcell⟩ := h.keyAt_eq_some.1 hkey
  have hlive : e.key.isSome = true := by rw [hcell]; rfl
  have hmoved := getElem?_live he hlive
  refine ⟨address, i, rank used i, ?_, ?_, by rw [hd.size_eq]; exact (List.getElem?_eq_some_iff.1 hmoved).1, ?_⟩
  · intro hrank
    obtain ⟨e', he', hlive'⟩ := (rank_eq_iff (Nat.le_of_lt (List.getElem?_eq_some_iff.1 he).1)).1 hrank.symm j hj
    rw [h.keyAt_eq he'] at hdead
    exact hdead hlive'
  · have hsame : d'.findIndex (.cell address) = d.findIndex (.cell address) := by
      rw [findIndex, findIndex, hd.cells_eq]
    rw [hsame]
    exact (h.findIndex_eq_some _).2 ⟨e, he, hcell⟩
  · rw [keyAt, hd.entries_eq, List.getElem?_append_left (by
      rw [List.length_map]
      exact (List.getElem?_eq_some_iff.1 hmoved).1), List.getElem?_map, hmoved]
    exact hcell

theorem replace_spec (h : Holds d used) {newCapacity : Nat} (hcapacity : d.capacity ≤ newCapacity)
    (hpos : 0 < newCapacity) :
    ∃ d', d.replaceBackingStore (newStorage newCapacity) newCapacity = .ok d' ∧ Holds d' used ∧
      d'.capacity = newCapacity ∧ d'.iteratorCount = d.iteratorCount := by
  have hsize := h.size_eq
  have hle := h.size_le
  have hlength : (newStorage newCapacity).length = newCapacity := List.length_replicate
  have hroom : ¬ (newStorage newCapacity).length < d.size := by omega
  rw [replaceBackingStore, if_neg (Nat.ne_of_gt hpos), if_neg hroom]
  refine ⟨_, rfl, ⟨⟨h.cells, h.strings, h.values⟩, ?_, hsize, by show d.size ≤ newCapacity; omega, h.deletedCount_eq,
    h.keys_nodup, h.value_isSome⟩, rfl, rfl⟩
  show d.entries.take d.size ++ (newStorage newCapacity).drop d.size = _
  rw [h.take_entries, newStorage, List.drop_replicate]
  rfl

/-- The move of the backing store. -/
inductive Moved (d : MapData) (used : List MapEntry) (newCapacity : Nat) (d' : MapData) : Prop
  | packed (packed : Packed d used newCapacity d') (shouldPack : d.shouldPack = true)
  | replaced (holds : Holds d' used) (capacity_eq : d'.capacity = newCapacity)
      (iteratorCount_eq : d'.iteratorCount = d.iteratorCount) (shouldPack : d.shouldPack = false)

theorem moveBackingStore_spec (h : Holds d used) {newCapacity : Nat} (hcapacity : d.capacity ≤ newCapacity)
    (hpos : 0 < newCapacity) : ∃ d', d.moveBackingStore newCapacity = .ok d' ∧ Moved d used newCapacity d' := by
  rw [moveBackingStore]
  cases hpack : d.shouldPack with
  | true =>
    obtain ⟨d', heq, hpacked⟩ := replaceAndPack_spec h hcapacity hpos
    exact ⟨d', heq, .packed hpacked hpack⟩
  | false =>
    obtain ⟨d', heq, hholds, hcap, hcount⟩ := replace_spec h hcapacity hpos
    exact ⟨d', heq, .replaced hholds hcap hcount hpack⟩

end MapData

end WebKit.JSC
