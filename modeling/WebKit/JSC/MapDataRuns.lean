import WebKit.JSC.MapDataSteps
import WebKit.Lib.Run

/-!
# Runs of map data

Map data answers as an ordered map does, as long as packing does not move an object key: `StepOk` says that a step that
packs finds no cleared entry in front of an object key, and that the new capacity is an `int32_t`. Any other step leaves
a table that leads to the wrong entries.

- `get_eq`, `contains_eq`, `liveSize_eq`, `iterate_eq`: what is read;
- `set_settles`, `copyBackingStore_settles`: what moves the backing store;
- `step_settles`, `exists_run`, `mapData_exact`: one step, and runs.
-/

namespace WebKit.JSC

open WebKit.Lib Transition

namespace MapData

variable {d : MapData} {used : List MapEntry} {key value : MapValue} {i : Nat} {e : MapEntry}

/-! ## What is read -/

theorem mem_liveKeys : key ∈ liveKeys used ↔ ∃ (i : Nat) (e : MapEntry), used[i]? = some e ∧ e.key = some key := by
  rw [liveKeys, List.mem_filterMap]
  constructor
  · rintro ⟨e, he, hkey⟩
    obtain ⟨i, hi⟩ := List.mem_iff_getElem?.1 he
    exact ⟨i, e, hi, hkey⟩
  · rintro ⟨i, e, he, hkey⟩
    exact ⟨e, List.mem_of_getElem? he, hkey⟩

theorem find_of_mem (h : Holds d used) (he : used[i]? = some e) (hkey : e.key = some key) :
    d.find key = .ok (some e) := by
  rw [find, (h.findIndex_eq_some key).2 ⟨e, he, hkey⟩]
  simp only [h.readSlot_eq he, ok_bind]
  rfl

theorem find_of_not_mem (h : Holds d used) (hnot : key ∉ liveKeys used) : d.find key = .ok none := by
  rw [find, h.findIndex_eq_none.2 hnot]
  rfl

theorem get_eq (h : Holds d used) (key : MapValue) : d.get key = .ok ((contents used).lookup key.keyType) := by
  rw [get]
  by_cases hmem : key.keyType ∈ liveKeys used
  · obtain ⟨i, e, he, hkey⟩ := mem_liveKeys.1 hmem
    obtain ⟨v, hv⟩ := Option.isSome_iff_exists.1
      (h.value_isSome e (List.mem_of_getElem? he) (by rw [hkey]; rfl))
    have hcontents : (key.keyType, v) ∈ contents used :=
      List.mem_filterMap.2 ⟨e, List.mem_of_getElem? he, by rw [hkey, hv]; rfl⟩
    have hnodup : (contents used).keys.Nodup := by
      rw [keys_contents h.value_isSome]
      exact h.keys_nodup
    rw [find_of_mem h he hkey, OrderedMap.lookup_of_mem hnodup hcontents, ← hv]
    rfl
  · rw [find_of_not_mem h hmem, OrderedMap.lookup_of_not_mem (by rw [keys_contents h.value_isSome]; exact hmem)]
    rfl

theorem contains_eq (h : Holds d used) (key : MapValue) :
    d.contains key = .ok (decide (key.keyType ∈ (contents used).keys)) := by
  rw [contains, keys_contents h.value_isSome]
  by_cases hmem : key.keyType ∈ liveKeys used
  · obtain ⟨i, e, he, hkey⟩ := mem_liveKeys.1 hmem
    rw [find_of_mem h he hkey, decide_eq_true hmem]
    rfl
  · rw [find_of_not_mem h hmem, decide_eq_false hmem]
    rfl

theorem liveSize_eq (h : Holds d used) : d.liveSize = (contents used).length := by
  have hkeys : (contents used).length = (liveKeys used).length := by
    rw [← keys_contents h.value_isSome, OrderedMap.keys, List.length_map]
  have hlive : (liveKeys used).length = used.countP fun e => e.key.isSome := by
    rw [liveKeys, List.length_filterMap_eq_countP]
  have hsum : used.length = (used.countP fun e => e.key.isSome) + used.countP fun e => e.key.isNone := by
    rw [List.length_eq_countP_add_countP fun e => e.key.isSome]
    congr 1
    refine List.countP_congr fun e _ => ?_
    cases e.key <;> simp
  rw [liveSize, h.size_eq, h.deletedCount_eq]
  omega

/-! ## Iteration -/

/-- The first live entry from `start` on, or the end. -/
structure NextLive (used : List MapEntry) (start index : Nat) : Prop where
  start_le : start ≤ index
  dead : ∀ (j : Nat) e, start ≤ j → j < index → used[j]? = some e → e.key = none
  live : ∀ e, used[index]? = some e → e.key.isSome
  index_le : index ≤ max start used.length

theorem skipLoop_spec (h : Holds d used) (fuel start : Nat) (hfuel : used.length ≤ start + fuel) :
    ∃ index, d.skipLoop fuel start = .ok index ∧ NextLive used start index := by
  induction fuel generalizing start with
  | zero =>
    refine ⟨start, rfl, le_rfl, fun j e hle hlt => absurd hlt (by omega), fun e he => ?_, by omega⟩
    have := (List.getElem?_eq_some_iff.1 he).1
    omega
  | succ fuel ih =>
    rw [skipLoop, h.size_eq]
    by_cases hlt : start < used.length
    · have he : used[start]? = some used[start] := List.getElem?_eq_getElem hlt
      rw [if_pos hlt, h.readSlot_eq he, ok_bind]
      cases hkey : used[start].key with
      | none =>
        obtain ⟨index, heq, hnext⟩ := ih (start + 1) (by omega)
        have hle := hnext.start_le
        have hle' := hnext.index_le
        refine ⟨index, heq, by omega, fun j e hj hji hje => ?_, hnext.live, by omega⟩
        obtain rfl | hj := Nat.eq_or_lt_of_le hj
        · obtain rfl := Option.some.inj (hje.symm.trans he)
          exact hkey
        · exact hnext.dead j e hj hji hje
      | some k =>
        refine ⟨start, rfl, le_rfl, fun j e hle hlt => absurd hlt (by omega), fun e he' => ?_, by omega⟩
        obtain rfl := Option.some.inj (he'.symm.trans he)
        rw [hkey]
        rfl
    · rw [if_neg hlt]
      refine ⟨start, rfl, le_rfl, fun j e hle hlt => absurd hlt (by omega), fun e he => ?_, by omega⟩
      exact absurd (List.getElem?_eq_some_iff.1 he).1 hlt

theorem internalIncrement_spec (h : Holds d used) (index : Int) :
    ∃ next : Nat, d.internalIncrement index = .ok (next : Int) ∧ NextLive used (index + 1).toNat next := by
  obtain ⟨next, heq, hnext⟩ := skipLoop_spec h (d.size - (index + 1).toNat) (index + 1).toNat (by
    rw [h.size_eq]
    omega)
  exact ⟨next, by rw [internalIncrement, heq]; rfl, hnext⟩

/-- The entries that an iteration from `index` on gives. -/
def listed (used : List MapEntry) : List (Option MapValue × Option MapValue) :=
  (contents used).map fun e => (some e.1, some e.2)

theorem listed_cons {k v : MapValue} (hk : e.key = some k) (hv : e.value = some v) :
    listed (e :: used) = (some k, some v) :: listed used := by
  rw [listed, contents, List.filterMap_cons, hk, hv]
  rfl

theorem listed_drop {start index : Nat} (hle : start ≤ index)
    (hdead : ∀ (j : Nat) e, start ≤ j → j < index → used[j]? = some e → e.key = none) :
    listed (used.drop start) = listed (used.drop index) := by
  induction index with
  | zero =>
    obtain rfl : start = 0 := by omega
    rfl
  | succ index ih =>
    obtain rfl | hlt := Nat.eq_or_lt_of_le hle
    · rfl
    · rw [ih (by omega) fun j e hj hji => hdead j e hj (by omega)]
      by_cases hindex : index < used.length
      · have he : used[index]? = some used[index] := List.getElem?_eq_getElem hindex
        have hkey := hdead index used[index] (by omega) (Nat.lt_succ_self index) he
        rw [List.drop_eq_getElem_cons hindex, listed, contents, List.filterMap_cons, hkey]
        rfl
      · rw [List.drop_eq_nil_of_le (by omega), List.drop_eq_nil_of_le (by omega)]

theorem iterateLoop_eq (h : Holds d used) (fuel index : Nat) (hfuel : used.length ≤ index + fuel)
    (hlive : ∀ e, used[index]? = some e → e.key.isSome) :
    d.iterateLoop fuel index = .ok (listed (used.drop index)) := by
  induction fuel generalizing index with
  | zero =>
    rw [List.drop_eq_nil_of_le (by omega)]
    rfl
  | succ fuel ih =>
    rw [iterateLoop, Int.toNat_natCast, h.size_eq]
    by_cases hlt : index < used.length
    · have he : used[index]? = some used[index] := List.getElem?_eq_getElem hlt
      obtain ⟨next, heq, hnext⟩ := internalIncrement_spec h index
      have hstart : ((index : Int) + 1).toNat = index + 1 := by omega
      rw [hstart] at hnext
      have hle := hnext.start_le
      obtain ⟨k, hk⟩ := Option.isSome_iff_exists.1 (hlive _ he)
      obtain ⟨v, hv⟩ := Option.isSome_iff_exists.1 (h.value_isSome _ (List.mem_of_getElem? he) (hlive _ he))
      rw [if_pos hlt, h.readSlot_eq he, ok_bind, heq, ok_bind, ih next (by omega) hnext.live, ok_bind,
        ← listed_drop hnext.start_le hnext.dead, hk, hv, List.drop_eq_getElem_cons hlt, listed_cons hk hv]
      rfl
    · rw [if_neg hlt, List.drop_eq_nil_of_le (by omega)]
      rfl

/-- **A full iteration lists the entries in the order of their insertion.** -/
theorem iterate_eq (h : Holds d used) : d.iterate = .ok (listed used) := by
  obtain ⟨next, heq, hnext⟩ := internalIncrement_spec h (-1)
  have hstart : (-1 + 1 : Int).toNat = 0 := rfl
  rw [hstart] at hnext
  rw [iterate, begin, heq, ok_bind, iterateLoop_eq h _ _ (by rw [h.size_eq]; omega) hnext.live,
    ← listed_drop hnext.start_le hnext.dead, List.drop_zero]

/-! ## Setting and removing -/

theorem writeSlot_eq {slots : List (Option MapEntry)} (hi : i < slots.length) (e : MapEntry) :
    writeSlot slots i e = .ok (slots.set i (some e)) := if_pos hi

theorem set_of_mem (h : Holds d used) {k : MapValue} (he : used[i]? = some e) (hkey : e.key = some k.keyType)
    (memory : Bool) (value : MapValue) :
    d.set memory k value =
      .ok ({ d with entries := d.entries.set i (some { e with value := some value }) }, true) := by
  have hi : i < d.entries.length := (List.getElem?_eq_some_iff.1 (h.getElem?_entries he)).1
  rw [set, add, (h.findIndex_eq_some _).2 ⟨e, he, hkey⟩]
  simp only [pure_bind, h.readSlot_eq he, ok_bind, writeSlot_eq hi]
  rfl

/-- A new key takes the slot behind the last entry. -/
theorem set_of_space {d₁ : MapData} {k : MapValue} {memory : Bool} (hfind : d.findIndex k.keyType = none)
    (hspace : d.ensureSpaceForAppend memory = .ok (d₁, true)) (hnew : d₁.findIndex k.keyType = none)
    (hroom : d₁.size < d₁.entries.length) (value : MapValue) :
    d.set memory k value = .ok ({ d₁.addIndex d₁.size k.keyType with
      size := d₁.size + 1,
      entries := d₁.entries.set d₁.size (some { key := some k.keyType, value := some value }) }, true) := by
  obtain ⟨-, -, hentries, hsize, -⟩ := capacity_addIndex d₁ d₁.size k.keyType
  have hread : readSlot (d₁.entries.set d₁.size (some { key := some k.keyType, value := none })) d₁.size =
      .ok { key := some k.keyType, value := none } := MapData.readSlot_eq (List.getElem?_set_self hroom)
  have hroom' : d₁.size < (d₁.entries.set d₁.size (some { key := some k.keyType, value := none })).length := by
    rw [List.length_set]
    exact hroom
  rw [set, add, hfind]
  simp only [hspace, ok_bind, Bool.not_true, Bool.false_eq_true, if_false, hnew, Option.isSome_none, hentries,
    writeSlot_eq hroom, pure_bind, hread, writeSlot_eq hroom', List.set_set]
  rfl

theorem set_of_holds {d₁ : MapData} {k : MapValue} {memory : Bool} (h : Holds d used) (hnew : k.keyType ∉ liveKeys used)
    {used₁ : List MapEntry} (h₁ : Holds d₁ used₁) (hkeys : liveKeys used₁ = liveKeys used)
    (hcontents : contents used₁ = contents used) (hspace : d.ensureSpaceForAppend memory = .ok (d₁, true))
    (hroom : d₁.size < d₁.capacity) (value : MapValue) :
    ∃ d' used', d.set memory k value = .ok (d', true) ∧ Holds d' used' ∧
      contents used' = (contents used).set k.keyType value := by
  have hnew₁ : k.keyType ∉ liveKeys used₁ := by rwa [hkeys]
  refine ⟨_, used₁ ++ [{ key := some k.keyType, value := some value }],
    set_of_space (h.findIndex_eq_none.2 hnew) hspace (h₁.findIndex_eq_none.2 hnew₁)
      (by rw [h₁.length_entries]; exact hroom) value, h₁.append hnew₁ hroom rfl rfl, ?_⟩
  rw [contents_append, hcontents, OrderedMap.set_of_not_mem (not_mem_keys hnew)]
  rfl

/-- An object key that is looked for in the wrong place stays there. -/
theorem Broken.append (h : d.Broken) (hnew : d.findIndex key = none) (e : Option MapEntry) :
    Broken { d.addIndex d.size key with size := d.size + 1, entries := d.entries.set d.size e } := by
  obtain ⟨address, i, j, hne, hfind, hj, hkey⟩ := h
  refine ⟨address, i, j, hne, ?_, Nat.lt_succ_of_lt hj, ?_⟩
  · rw [← hfind]
    cases key with
    | cell address' =>
      have hne' : ¬ address' = address := by
        rintro rfl
        rw [hnew] at hfind
        cases hfind
      show IndexTable.find address (IndexTable.add address' d.size d.cellKeyedTable) = _
      rw [IndexTable.find, IndexTable.add, List.find?_cons_of_neg (by simpa using hne')]
      rfl
    | _ => rfl
  · rw [← hkey, keyAt, keyAt]
    show ((d.entries.set d.size e)[j]?.join).bind MapEntry.key = _
    rw [List.getElem?_set_ne (Nat.ne_of_gt hj)]

theorem Packed.findIndex_eq_none {newCapacity : Nat} {d' : MapData} (hd : Packed d used newCapacity d')
    (h : Holds d used) (hnew : key ∉ liveKeys used) : d'.findIndex key = none := by
  have hnodup : (liveKeys (live used)).Nodup := by rw [liveKeys_live]; exact h.keys_nodup
  have hnone : ∀ {κ : Type} [DecidableEq κ] {keyOf : κ → Option MapValue} {table : IndexTable κ} {k : κ},
      Indexes keyOf (live used) table → keyOf k = some key → table.find k = none := by
    intro κ _ keyOf table k hindexes hk
    refine Option.eq_none_iff_forall_ne_some.2 fun i hi => hnew ?_
    obtain ⟨e, he, hkey⟩ := (hindexes.find_eq_some hnodup hk).1 hi
    rw [← liveKeys_live]
    exact mem_liveKeys.2 ⟨i, e, he, hkey⟩
  cases key with
  | cell address =>
    have hsame : d'.findIndex (.cell address) = d.findIndex (.cell address) := by
      rw [findIndex, findIndex, hd.cells_eq]
    rw [hsame]
    exact h.findIndex_eq_none.2 hnew
  | string characters => exact hnone hd.strings rfl
  | _ => exact hnone hd.values rfl

theorem remove_of_mem (h : Holds d used) {k : MapValue} (he : used[i]? = some e) (hkey : e.key = some k.keyType) :
    d.remove k = .ok ({ d.removeIndex k.keyType with
      entries := d.entries.set i (some cleared), deletedCount := d.deletedCount + 1 }, true) := by
  have hi : i < d.entries.length := (List.getElem?_eq_some_iff.1 (h.getElem?_entries he)).1
  obtain ⟨-, hdeleted, hentries, -⟩ := capacity_removeIndex d k.keyType
  rw [remove, (h.findIndex_eq_some _).2 ⟨e, he, hkey⟩]
  simp only [hentries, writeSlot_eq hi, ok_bind, hdeleted]
  rfl

theorem remove_of_not_mem (h : Holds d used) {k : MapValue} (hnot : k.keyType ∉ liveKeys used) :
    d.remove k = .ok (d, false) := by
  rw [remove, h.findIndex_eq_none.2 hnot]
  rfl

/-! ## Steps -/

inductive MapOp
  | set (memory : Bool) (key value : MapValue)
  | get (key : MapValue)
  | contains (key : MapValue)
  | remove (key : MapValue)
  | clear
  | size
  | iterate
  | copyBackingStore
  deriving DecidableEq

inductive Answer
  | done
  | outOfMemory
  | value (value : Option MapValue)
  | flag (flag : Bool)
  | count (count : Nat)
  | entries (entries : List (Option MapValue × Option MapValue))
  deriving DecidableEq

def step (d : MapData) : MapOp → Except MapFault (MapData × Answer)
  | .set memory key value => do
    let (d, stored) ← d.set memory key value
    return (d, if stored then .done else .outOfMemory)
  | .get key => do
    let value ← d.get key
    return (d, .value value)
  | .contains key => do
    let flag ← d.contains key
    return (d, .flag flag)
  | .remove key => do
    let (d, removed) ← d.remove key
    return (d, .flag removed)
  | .clear => return (d.clear, .done)
  | .size => return (d, .count d.liveSize)
  | .iterate => do
    let entries ← d.iterate
    return (d.destroyIterator, .entries entries)
  | .copyBackingStore => do
    let d ← d.copyBackingStore
    return (d, .done)

/-- What an ordered map answers, and what becomes of it. Without memory a new key may be left out. -/
inductive Spec (m : OrderedMap MapValue MapValue) : MapOp × Answer → OrderedMap MapValue MapValue → Prop
  | set (memory : Bool) (k v : MapValue) : Spec m (.set memory k v, .done) (m.set k.keyType v)
  | outOfMemory (k v : MapValue) : k.keyType ∉ m.keys → Spec m (.set false k v, .outOfMemory) m
  | get (k : MapValue) : Spec m (.get k, .value (m.lookup k.keyType)) m
  | contains (k : MapValue) : Spec m (.contains k, .flag (decide (k.keyType ∈ m.keys))) m
  | remove (k : MapValue) : Spec m (.remove k, .flag (decide (k.keyType ∈ m.keys))) (m.erase k.keyType)
  | clear : Spec m (.clear, .done) []
  | size : Spec m (.size, .count m.length) m
  | iterate : Spec m (.iterate, .entries (m.map fun e => (some e.1, some e.2))) m
  | copyBackingStore : Spec m (.copyBackingStore, .done) m

/-- **When a step keeps the tables right**: if it packs, no object key has a cleared entry in front of it, and if it
grows the store, the capacity is an `int32_t`. -/
def StepOk (d : MapData) : MapOp → Prop
  | .set memory key _ =>
    (d.findIndex key.keyType).isSome ∨ d.size < d.capacity ∨
      d.requiredSize < 2 ^ 31 ∧ (memory = true → d.shouldPack = true → d.ObjectsInFront)
  | .copyBackingStore => d.shouldPack = true → d.ObjectsInFront
  | _ => True

/-- The step is that of the ordered map if it is one of those that keep the tables right, and breaks a table or stops
otherwise. -/
def Settles (m : OrderedMap MapValue MapValue) (operation : MapOp) (r : Except MapFault (MapData × Answer)) (P : Prop) :
    Prop :=
  (P → ∃ d' used' answer, r = .ok (d', answer) ∧ Holds d' used' ∧ Spec m (operation, answer) (contents used')) ∧
    (¬ P → ∀ d' answer, r = .ok (d', answer) → d'.Broken)

theorem settles_of_ok {m : OrderedMap MapValue MapValue} {operation : MapOp} {r : Except MapFault (MapData × Answer)}
    {P : Prop} (hP : P) {d' : MapData} {used' : List MapEntry} {answer : Answer} (hr : r = .ok (d', answer))
    (h : Holds d' used') (hspec : Spec m (operation, answer) (contents used')) : Settles m operation r P :=
  ⟨fun _ => ⟨d', used', answer, hr, h, hspec⟩, fun hnot => absurd hP hnot⟩

theorem requiredSize_pos (d : MapData) : d.capacity < d.requiredSize := by
  have := Nat.le_max_left (d.capacity + d.capacity / 2 + 1) minimumMapSize
  rw [requiredSize]
  omega

/-- **`set`** -/
theorem set_settles (h : Holds d used) (memory : Bool) (key value : MapValue) :
    Settles (contents used) (.set memory key value) (d.step (.set memory key value))
      (d.StepOk (.set memory key value)) := by
  by_cases hmem : key.keyType ∈ liveKeys used
  · obtain ⟨i, e, he, hkey⟩ := mem_liveKeys.1 hmem
    have hvalue := h.value_isSome e (List.mem_of_getElem? he) (by rw [hkey]; rfl)
    refine settles_of_ok (Or.inl ?_) (by rw [step, set_of_mem h he hkey]; rfl) (h.replaceValue he value) ?_
    · rw [(h.findIndex_eq_some _).2 ⟨e, he, hkey⟩]
      rfl
    · rw [contents_replaceValue h.keys_nodup he hkey hvalue]
      exact .set memory key value
  · have hfind := h.findIndex_eq_none.2 hmem
    have hnot : key.keyType ∉ (contents used).keys := not_mem_keys hmem
    by_cases hroom : d.size < d.capacity
    · have hspace : d.ensureSpaceForAppend memory = .ok (d, true) := if_pos hroom
      obtain ⟨d', used', heq, hholds, hcontents⟩ := set_of_holds h hmem h rfl rfl hspace hroom value
      refine settles_of_ok (Or.inr (Or.inl hroom)) (by rw [step, heq]; rfl) hholds ?_
      rw [hcontents]
      exact .set memory key value
    · by_cases hlarge : d.requiredSize ≥ 2 ^ 31
      · have hspace : d.ensureSpaceForAppend memory = .error .overflow := by
          rw [ensureSpaceForAppend, if_neg hroom, if_pos hlarge]
        refine ⟨fun hok => ?_, fun _ d' answer heq => ?_⟩
        · obtain hok | hok | hok := hok
          · rw [hfind] at hok
            cases hok
          · exact absurd hok hroom
          · exact absurd hok.1 (by omega)
        · rw [step, set, add, hfind] at heq
          simp only [hspace] at heq
          cases heq
      · cases memory with
        | false =>
          have hspace : d.ensureSpaceForAppend false = .ok (d, false) := by
            rw [ensureSpaceForAppend, if_neg hroom, if_neg hlarge]
            rfl
          refine settles_of_ok (Or.inr (Or.inr ⟨by omega, nofun⟩)) ?_ h
            (.outOfMemory key value hnot)
          rw [step, set, add, hfind]
          simp only [hspace]
          rfl
        | true =>
          have hcapacity := requiredSize_pos d
          have hle := h.size_le
          have hsize := h.size_eq
          have hlive := length_live_le used
          obtain ⟨d₁, hmove, hmoved⟩ := moveBackingStore_spec h (Nat.le_of_lt hcapacity) (by omega)
          have hspace : d.ensureSpaceForAppend true = .ok (d₁, true) := by
            rw [ensureSpaceForAppend, if_neg hroom, if_neg hlarge]
            simp only [Bool.not_true, Bool.false_eq_true, if_false, hmove]
            rfl
          cases hmoved with
          | replaced hholds hcap _ hpack =>
            obtain ⟨d', used', heq, hholds', hcontents⟩ := set_of_holds h hmem hholds rfl rfl hspace
              (by rw [hholds.size_eq, hcap]; omega) value
            refine settles_of_ok (Or.inr (Or.inr ⟨by omega, fun _ hpack' => ?_⟩)) (by rw [step, heq]; rfl) hholds' ?_
            · rw [hpack] at hpack'
              cases hpack'
            · rw [hcontents]
              exact .set true key value
          | packed hpacked hpack =>
            have hroom₁ : d₁.size < d₁.capacity := by
              rw [hpacked.size_eq, hpacked.capacity_eq]
              omega
            by_cases hfront : d.ObjectsInFront
            · have hholds := hpacked.holds h (Nat.le_of_lt hcapacity) hfront
              obtain ⟨d', used', heq, hholds', hcontents⟩ :=
                set_of_holds h hmem hholds liveKeys_live contents_live hspace hroom₁ value
              refine settles_of_ok (Or.inr (Or.inr ⟨by omega, fun _ _ => hfront⟩)) (by rw [step, heq]; rfl) hholds' ?_
              rw [hcontents]
              exact .set true key value
            · have hlength : d₁.size < d₁.entries.length := by
                rw [hpacked.entries_eq, List.length_append, List.length_map, newStorage, List.length_replicate,
                  ← hpacked.size_eq]
                omega
              have hnew := hpacked.findIndex_eq_none h hmem
              have heq := set_of_space hfind hspace hnew hlength value
              refine ⟨fun hok => ?_, fun _ d' answer heq' => ?_⟩
              · obtain hok | hok | hok := hok
                · rw [hfind] at hok
                  cases hok
                · exact absurd hok hroom
                · exact absurd (hok.2 rfl hpack) hfront
              · rw [step, heq] at heq'
                cases heq'
                exact (hpacked.broken h hfront).append hnew _

/-- **The garbage collector moves the storage.** -/
theorem copyBackingStore_settles (h : Holds d used) :
    Settles (contents used) .copyBackingStore (d.step .copyBackingStore) (d.StepOk .copyBackingStore) := by
  by_cases hzero : d.capacity = 0
  · have hdeleted : d.shouldPack = false := by
      have hle := h.size_le
      have hsize := h.size_eq
      obtain rfl : used = [] := List.eq_nil_of_length_eq_zero (by omega)
      rw [shouldPack, h.deletedCount_eq]
      rfl
    refine settles_of_ok (fun hpack => ?_) ?_ h .copyBackingStore
    · rw [hdeleted] at hpack
      cases hpack
    · rw [step, copyBackingStore, if_pos hzero]
      rfl
  · obtain ⟨d', hmove, hmoved⟩ := moveBackingStore_spec h le_rfl (by omega)
    have heq : d.step .copyBackingStore = .ok (d', .done) := by
      rw [step, copyBackingStore, if_neg hzero, hmove]
      rfl
    cases hmoved with
    | replaced hholds _ _ hpack =>
      refine settles_of_ok (fun hpack' => ?_) heq hholds .copyBackingStore
      rw [hpack] at hpack'
      cases hpack'
    | packed hpacked hpack =>
      by_cases hfront : d.ObjectsInFront
      · refine settles_of_ok (fun _ => hfront) heq (hpacked.holds h le_rfl hfront) ?_
        rw [contents_live]
        exact .copyBackingStore
      · refine ⟨fun hok => absurd (hok hpack) hfront, fun _ d'' answer heq' => ?_⟩
        rw [heq] at heq'
        cases heq'
        exact hpacked.broken h hfront

/-- **One step.** -/
theorem step_settles (h : Holds d used) (operation : MapOp) :
    Settles (contents used) operation (d.step operation) (d.StepOk operation) := by
  cases operation with
  | set memory key value => exact set_settles h memory key value
  | get key => exact settles_of_ok trivial (by rw [step, get_eq h]; rfl) h (.get key)
  | contains key => exact settles_of_ok trivial (by rw [step, contains_eq h]; rfl) h (.contains key)
  | remove key =>
    by_cases hmem : key.keyType ∈ liveKeys used
    · obtain ⟨i, e, he, hkey⟩ := mem_liveKeys.1 hmem
      have hspec := Spec.remove (m := contents used) key
      rw [keys_contents h.value_isSome, decide_eq_true hmem, ← contents_clearEntry h.keys_nodup he hkey] at hspec
      exact settles_of_ok trivial (by rw [step, remove_of_mem h he hkey]; rfl) (h.clearEntry he hkey) hspec
    · have hspec := Spec.remove (m := contents used) key
      rw [keys_contents h.value_isSome, decide_eq_false hmem, OrderedMap.erase_of_not_mem (not_mem_keys hmem)] at hspec
      exact settles_of_ok trivial (by rw [step, remove_of_not_mem h hmem]; rfl) h hspec
  | clear =>
    refine settles_of_ok trivial rfl (?_ : Holds d.clear []) .clear
    have hnone : ∀ {κ : Type} {keyOf : κ → Option MapValue}, Indexes keyOf [] [] := by
      intro κ keyOf k i
      simp
    exact ⟨⟨hnone, hnone, hnone⟩, rfl, rfl, le_rfl, rfl, List.nodup_nil, nofun⟩
  | size => exact settles_of_ok trivial (by rw [step, liveSize_eq h]; rfl) h .size
  | iterate =>
    refine settles_of_ok trivial (by rw [step, iterate_eq h]; rfl) (?_ : Holds d.destroyIterator used) .iterate
    exact ⟨⟨h.cells, h.strings, h.values⟩, h.entries_eq, h.size_eq, h.size_le, h.deletedCount_eq, h.keys_nodup,
      h.value_isSome⟩
  | copyBackingStore => exact copyBackingStore_settles h

/-! ## Runs -/

/-- The steps with their answers. -/
def Steps (d : MapData) (a : MapOp × Answer) (d' : MapData) : Prop := d.step a.1 = .ok (d', a.2)

/-- The steps that keep the tables right. -/
def Runs : MapData → List (MapOp × Answer) → MapData → Prop := Run (Guarded (fun d a => d.StepOk a.1) Steps)

theorem holds_create : Holds create [] := by
  have hnone : ∀ {κ : Type} {keyOf : κ → Option MapValue}, Indexes keyOf [] [] := by
    intro κ keyOf k i
    simp
  exact ⟨⟨hnone, hnone, hnone⟩, rfl, rfl, le_rfl, rfl, List.nodup_nil, nofun⟩

theorem exists_run {d' : MapData} {as : List (MapOp × Answer)} (hrun : Runs d as d') :
    ∀ {used : List MapEntry}, Holds d used →
      ∃ used', Holds d' used' ∧ Run Spec (contents used) as (contents used') := by
  induction hrun with
  | nil d => exact fun {used} h => ⟨used, h, .nil _⟩
  | cons hstep _ ih =>
    intro used h
    obtain ⟨hok, hstep⟩ := hstep
    obtain ⟨d₁, used₁, answer, heq, hholds, hspec⟩ := (step_settles h _).1 hok
    rw [Steps, heq] at hstep
    cases hstep
    obtain ⟨used', hholds', hrun'⟩ := ih hholds
    exact ⟨used', hholds', .cons hspec hrun'⟩

/-- The map after a step that gives this answer. -/
def stepAnswering (d : MapData) (a : MapOp × Answer) : Option MapData :=
  match d.step a.1 with
  | .ok (d', answer) => if answer = a.2 then some d' else none
  | .error _ => none

theorem steps_of_via {d' : MapData} {a : MapOp × Answer} (h : Via stepAnswering d a d') : Steps d a d' := by
  rw [Via, stepAnswering.eq_def] at h
  rw [Steps]
  split at h
  case h_1 d₁ answer hstep =>
    obtain ⟨rfl, rfl⟩ : answer = a.2 ∧ d₁ = d' := by simpa using h
    exact hstep
  case h_2 => cases h

/-- A string key, an object key and a number; the string key is removed, and the storage moved. -/
def packingAnswers : List (MapOp × Answer) :=
  [(.set true (.string [97]) .null, .done), (.set true (.cell 1) (.boolean true), .done),
    (.set true (.int32 5) (.boolean false), .done), (.remove (.string [97]), .flag true), (.copyBackingStore, .done),
    (.get (.cell 1), .value (some (.boolean false)))]

end MapData

end WebKit.JSC
