import WebKit.JSC.MapDataInv

/-!
# The operations of map data

What the operations do to the written entries: a new key is appended (`Holds.append`), the value of a key is replaced
(`Holds.replaceValue`), and an entry is cleared (`Holds.clearEntry`). Each is the operation of the same name on the
ordered map of the live entries (`contents_append`, `contents_replaceValue`, `contents_clearEntry`).
-/

namespace WebKit.JSC

open WebKit.Lib

namespace MapData

variable {d : MapData} {used : List MapEntry} {key value : MapValue} {i : Nat} {e : MapEntry}

/-- An entry that was cleared. -/
def cleared : MapEntry := { key := none, value := none }

/-! ## The ordered map -/

theorem keys_contents (h : ∀ e ∈ used, e.key.isSome → e.value.isSome) : (contents used).keys = liveKeys used := by
  induction used with
  | nil => rfl
  | cons e used ih =>
    have ih := ih fun e he => h e (List.mem_cons_of_mem _ he)
    rw [OrderedMap.keys] at ih ⊢
    rw [contents, liveKeys, List.filterMap_cons, List.filterMap_cons]
    cases hkey : e.key with
    | none => exact ih
    | some k =>
      have hvalue := h e List.mem_cons_self (by rw [hkey]; rfl)
      obtain ⟨v, hv⟩ := Option.isSome_iff_exists.1 hvalue
      rw [hv]
      exact congrArg _ ih

theorem contents_append (e : MapEntry) : contents (used ++ [e]) = contents used ++ contents [e] := List.filterMap_append

theorem liveKeys_append (used used' : List MapEntry) : liveKeys (used ++ used') = liveKeys used ++ liveKeys used' :=
  List.filterMap_append

/-- The entries around an entry. -/
theorem split_at (he : used[i]? = some e) : used = used.take i ++ e :: used.drop (i + 1) := by
  obtain ⟨hi, rfl⟩ := List.getElem?_eq_some_iff.1 he
  rw [← List.drop_eq_getElem_cons hi, List.take_append_drop]

theorem set_split (hi : i < used.length) (e' : MapEntry) : used.set i e' = used.take i ++ e' :: used.drop (i + 1) := by
  rw [List.set_eq_take_append_cons_drop, if_pos hi]

theorem not_mem_around (hnodup : (liveKeys used).Nodup) (he : used[i]? = some e) (hkey : e.key = some key) :
    key ∉ liveKeys (used.take i) ∧ key ∉ liveKeys (used.drop (i + 1)) := by
  rw [split_at he, liveKeys_append, liveKeys, liveKeys, List.filterMap_cons, hkey] at hnodup
  obtain ⟨-, hcons, hdisjoint⟩ := List.nodup_append.1 hnodup
  exact ⟨fun hmem => hdisjoint key hmem key List.mem_cons_self rfl, (List.nodup_cons.1 hcons).1⟩

theorem not_mem_keys (h : key ∉ liveKeys used) : key ∉ (contents used).keys := by
  intro hmem
  obtain ⟨v, hv⟩ := OrderedMap.mem_keys.1 hmem
  obtain ⟨e, he, heq⟩ := List.mem_filterMap.1 hv
  obtain ⟨k, hk, heq⟩ := Option.bind_eq_some_iff.1 heq
  obtain ⟨v', hv', heq⟩ := Option.map_eq_some_iff.1 heq
  obtain ⟨rfl, -⟩ := Prod.mk.inj heq
  exact h (List.mem_filterMap.2 ⟨e, he, hk⟩)

/-- **A value is replaced in place.** -/
theorem contents_replaceValue (hnodup : (liveKeys used).Nodup) (he : used[i]? = some e) (hkey : e.key = some key)
    (hvalue : e.value.isSome) :
    contents (used.set i { e with value := some value }) = (contents used).set key value := by
  have hi := (List.getElem?_eq_some_iff.1 he).1
  obtain ⟨hbefore, hafter⟩ := not_mem_around hnodup he hkey
  obtain ⟨v, hv⟩ := Option.isSome_iff_exists.1 hvalue
  have hcontents : contents used = contents (used.take i) ++ ((key, v) :: contents (used.drop (i + 1))) := by
    conv_lhs => rw [split_at he]
    rw [contents, List.filterMap_append, List.filterMap_cons, hkey, hv]
    rfl
  have hmem : key ∈ (contents used).keys := by
    rw [hcontents]
    exact OrderedMap.mem_keys.2 ⟨v, List.mem_append_right _ List.mem_cons_self⟩
  have hid : ∀ part : OrderedMap MapValue MapValue, key ∉ part.keys →
      List.map (fun e => if e.1 = key then (key, value) else e) part = part := by
    intro part hpart
    conv_rhs => rw [← List.map_id part]
    refine List.map_congr_left fun e he => if_neg ?_
    rintro rfl
    exact hpart (List.mem_map.2 ⟨e, he, rfl⟩)
  rw [OrderedMap.set_of_mem hmem, hcontents, List.map_append, List.map_cons, if_pos rfl,
    hid _ (not_mem_keys hbefore), hid _ (not_mem_keys hafter), set_split hi, contents, List.filterMap_append,
    List.filterMap_cons, hkey]
  rfl

/-- **An entry is cleared.** -/
theorem contents_clearEntry (hnodup : (liveKeys used).Nodup) (he : used[i]? = some e) (hkey : e.key = some key) :
    contents (used.set i cleared) = (contents used).erase key := by
  have hi := (List.getElem?_eq_some_iff.1 he).1
  obtain ⟨hbefore, hafter⟩ := not_mem_around hnodup he hkey
  have hentry : (contents [e]).erase key = [] := by
    rw [contents, List.filterMap_cons, hkey]
    cases e.value with
    | none => rfl
    | some v => simp [OrderedMap.erase]
  have hcontents : contents used = contents (used.take i) ++ (contents [e] ++ contents (used.drop (i + 1))) := by
    conv_lhs => rw [split_at he]
    rw [contents, contents, contents, contents, ← List.filterMap_append, ← List.filterMap_append]
    rfl
  have herase : ∀ part part' : OrderedMap MapValue MapValue,
      OrderedMap.erase (part ++ part') key = OrderedMap.erase part key ++ OrderedMap.erase part' key :=
    fun part part' => List.filter_append part part'
  rw [hcontents, herase, herase, hentry, OrderedMap.erase_of_not_mem (not_mem_keys hbefore),
    OrderedMap.erase_of_not_mem (not_mem_keys hafter), set_split hi, contents, List.filterMap_append,
    List.filterMap_cons]
  rfl

/-! ## The tables -/

section

variable {κ : Type} {keyOf : κ → Option MapValue} {table : IndexTable κ}

theorem Indexes.append_other (h : Indexes keyOf used table) (hne : ∀ k, keyOf k ≠ e.key) :
    Indexes keyOf (used ++ [e]) table := by
  intro k i
  rw [h k i]
  constructor
  · rintro ⟨e', he', hrest⟩
    exact ⟨e', by rw [List.getElem?_append_left (List.getElem?_eq_some_iff.1 he').1, he'], hrest⟩
  · rintro ⟨e', he', hsome, hkey⟩
    rw [List.getElem?_append] at he'
    split_ifs at he' with hi
    · exact ⟨e', he', hsome, hkey⟩
    · obtain rfl := List.mem_singleton.1 (List.mem_of_getElem? he')
      exact absurd hkey.symm (hne k)

theorem Indexes.append_add (h : Indexes keyOf used table) {k₀ : κ} (hkey : keyOf k₀ = e.key) (hsome : e.key.isSome)
    (hinj : ∀ k, keyOf k = e.key → k = k₀) : Indexes keyOf (used ++ [e]) (table.add k₀ used.length) := by
  intro k i
  rw [IndexTable.add, List.mem_cons, h k i]
  constructor
  · rintro (heq | ⟨e', he', hrest⟩)
    · obtain ⟨rfl, rfl⟩ := Prod.mk.inj heq
      exact ⟨e, List.getElem?_concat_length, hsome, hkey.symm⟩
    · exact ⟨e', by rw [List.getElem?_append_left (List.getElem?_eq_some_iff.1 he').1, he'], hrest⟩
  · rintro ⟨e', he', hsome', hkey'⟩
    rw [List.getElem?_append] at he'
    split_ifs at he' with hi
    · exact Or.inr ⟨e', he', hsome', hkey'⟩
    · have hlast := (List.getElem?_eq_some_iff.1 he').1
      rw [List.length_singleton] at hlast
      obtain rfl := List.mem_singleton.1 (List.mem_of_getElem? he')
      obtain rfl : i = used.length := by omega
      exact Or.inl (by rw [hinj k hkey'.symm])

theorem Indexes.replaceValue (h : Indexes keyOf used table) (he : used[i]? = some e) (v : Option MapValue) :
    Indexes keyOf (used.set i { e with value := v }) table := by
  intro k j
  rw [h k j, List.getElem?_set]
  by_cases hij : i = j
  · subst hij
    rw [if_pos rfl, if_pos (List.getElem?_eq_some_iff.1 he).1, he]
    constructor
    · rintro ⟨e', heq, hrest⟩
      obtain rfl := Option.some.inj heq
      exact ⟨_, rfl, hrest⟩
    · rintro ⟨e', heq, hrest⟩
      obtain rfl := Option.some.inj heq
      exact ⟨e, rfl, hrest⟩
  · rw [if_neg hij]

theorem Indexes.clear_other (h : Indexes keyOf used table) (he : used[i]? = some e) (hne : ∀ k, keyOf k ≠ e.key) :
    Indexes keyOf (used.set i cleared) table := by
  intro k j
  rw [h k j, List.getElem?_set]
  by_cases hij : i = j
  · subst hij
    rw [if_pos rfl, if_pos (List.getElem?_eq_some_iff.1 he).1, he]
    constructor
    · rintro ⟨e', heq, -, hkey⟩
      obtain rfl := Option.some.inj heq
      exact absurd hkey.symm (hne k)
    · rintro ⟨e', heq, hsome, -⟩
      obtain rfl := Option.some.inj heq
      cases hsome
  · rw [if_neg hij]

theorem Indexes.clear_remove [DecidableEq κ] (h : Indexes keyOf used table) (hnodup : (liveKeys used).Nodup)
    (he : used[i]? = some e) {k₀ : κ} (hkey : keyOf k₀ = e.key) (hsome : e.key.isSome)
    (hinj : ∀ k, keyOf k = e.key → k = k₀) : Indexes keyOf (used.set i cleared) (table.remove k₀) := by
  obtain ⟨key, hk⟩ := Option.isSome_iff_exists.1 hsome
  intro k j
  rw [IndexTable.remove, List.mem_filter, h k j, List.getElem?_set]
  by_cases hij : i = j
  · subst hij
    rw [if_pos rfl, if_pos (List.getElem?_eq_some_iff.1 he).1, he]
    constructor
    · rintro ⟨⟨e', heq, -, hkey'⟩, hne⟩
      obtain rfl := Option.some.inj heq
      exact absurd (hinj k hkey'.symm) (of_decide_eq_true hne)
    · rintro ⟨e', heq, hsome', -⟩
      obtain rfl := Option.some.inj heq
      cases hsome'
  · rw [if_neg hij]
    refine ⟨And.left, fun hex => ⟨hex, decide_eq_true ?_⟩⟩
    obtain ⟨e', he', -, hkey'⟩ := hex
    rintro rfl
    exact hij (index_unique hnodup he he' hk ((hkey'.trans hkey).trans hk))

end

theorem valueKey_eq {k k' : MapValue} (h : valueKey k = some k') : k = k' := by
  cases k <;> simp [valueKey] at h <;> exact h

theorem Tables.addIndex (h : Tables d used) (hkey : e.key = some key) :
    Tables (d.addIndex used.length key) (used ++ [e]) := by
  have hsome : e.key.isSome = true := by rw [hkey]; rfl
  have hcell : (∀ address, key ≠ .cell address) → Indexes cellKey (used ++ [e]) d.cellKeyedTable := by
    refine fun hne => h.cells.append_other fun k hk => ?_
    exact hne k (Option.some.inj (hkey.symm.trans hk.symm))
  have hstring : (∀ characters, key ≠ .string characters) → Indexes stringKey (used ++ [e]) d.stringKeyedTable := by
    refine fun hne => h.strings.append_other fun k hk => ?_
    exact hne k (Option.some.inj (hkey.symm.trans hk.symm))
  have hvalue : valueKey key = none → Indexes valueKey (used ++ [e]) d.valueKeyedTable := by
    refine fun hne => h.values.append_other fun k hk => ?_
    rw [hkey] at hk
    rw [valueKey_eq hk, hne] at hk
    cases hk
  cases key with
  | cell address =>
    refine ⟨h.cells.append_add hkey.symm hsome fun k hk => ?_, hstring fun _ => nofun, hvalue rfl⟩
    rw [hkey] at hk
    cases hk
    rfl
  | string characters =>
    refine ⟨hcell fun _ => nofun, h.strings.append_add hkey.symm hsome fun k hk => ?_, hvalue rfl⟩
    rw [hkey] at hk
    cases hk
    rfl
  | _ =>
    exact ⟨hcell fun _ => nofun, hstring fun _ => nofun,
      h.values.append_add hkey.symm hsome fun k hk => valueKey_eq (hk.trans hkey)⟩

theorem Tables.removeIndex (h : Tables d used) (hnodup : (liveKeys used).Nodup) (he : used[i]? = some e)
    (hkey : e.key = some key) : Tables (d.removeIndex key) (used.set i cleared) := by
  have hsome : e.key.isSome = true := by rw [hkey]; rfl
  have hcell : (∀ address, key ≠ .cell address) → Indexes cellKey (used.set i cleared) d.cellKeyedTable := by
    refine fun hne => h.cells.clear_other he fun k hk => ?_
    exact hne k (Option.some.inj (hkey.symm.trans hk.symm))
  have hstring : (∀ characters, key ≠ .string characters) →
      Indexes stringKey (used.set i cleared) d.stringKeyedTable := by
    refine fun hne => h.strings.clear_other he fun k hk => ?_
    exact hne k (Option.some.inj (hkey.symm.trans hk.symm))
  have hvalue : valueKey key = none → Indexes valueKey (used.set i cleared) d.valueKeyedTable := by
    refine fun hne => h.values.clear_other he fun k hk => ?_
    rw [hkey] at hk
    rw [valueKey_eq hk, hne] at hk
    cases hk
  cases key with
  | cell address =>
    refine ⟨h.cells.clear_remove hnodup he hkey.symm hsome fun k hk => ?_, hstring fun _ => nofun, hvalue rfl⟩
    rw [hkey] at hk
    cases hk
    rfl
  | string characters =>
    refine ⟨hcell fun _ => nofun, h.strings.clear_remove hnodup he hkey.symm hsome fun k hk => ?_, hvalue rfl⟩
    rw [hkey] at hk
    cases hk
    rfl
  | _ =>
    exact ⟨hcell fun _ => nofun, hstring fun _ => nofun,
      h.values.clear_remove hnodup he hkey.symm hsome fun k hk => valueKey_eq (hk.trans hkey)⟩

/-! ## Writing entries -/

theorem capacity_addIndex (d : MapData) (index : Nat) (key : MapValue) :
    (d.addIndex index key).capacity = d.capacity ∧ (d.addIndex index key).deletedCount = d.deletedCount ∧
      (d.addIndex index key).entries = d.entries ∧ (d.addIndex index key).size = d.size ∧
      (d.addIndex index key).iteratorCount = d.iteratorCount := by
  cases key <;> exact ⟨rfl, rfl, rfl, rfl, rfl⟩

theorem capacity_removeIndex (d : MapData) (key : MapValue) :
    (d.removeIndex key).capacity = d.capacity ∧ (d.removeIndex key).deletedCount = d.deletedCount ∧
      (d.removeIndex key).entries = d.entries ∧ (d.removeIndex key).size = d.size ∧
      (d.removeIndex key).iteratorCount = d.iteratorCount := by
  cases key <;> exact ⟨rfl, rfl, rfl, rfl, rfl⟩

/-- **A new key is appended.** -/
theorem Holds.append (h : Holds d used) (hnew : key ∉ liveKeys used) (hroom : d.size < d.capacity) {e : MapEntry}
    (hkey : e.key = some key) (hvalue : e.value.isSome) :
    Holds { d.addIndex d.size key with size := d.size + 1, entries := d.entries.set d.size (some e) }
      (used ++ [e]) := by
  have hsize := h.size_eq
  obtain ⟨hcapacity, hdeleted, -⟩ := capacity_addIndex d d.size key
  have htables : Tables (d.addIndex used.length key) (used ++ [e]) := h.toTables.addIndex hkey
  have hentries : d.entries.set d.size (some e) = (used ++ [e]).map some ++ newStorage (d.capacity - (d.size + 1)) := by
    obtain ⟨n, hn⟩ : ∃ n, d.capacity - d.size = n + 1 := ⟨d.capacity - d.size - 1, by omega⟩
    have hn' : d.capacity - (d.size + 1) = n := by omega
    rw [h.entries_eq, List.set_append_right _ _ (by rw [List.length_map]; omega), List.length_map, hsize, Nat.sub_self,
      ← hsize, hn, hn', newStorage, List.replicate_succ, List.set_cons_zero, List.map_append, List.append_assoc]
    rfl
  rw [← hsize] at htables
  refine ⟨⟨htables.cells, htables.strings, htables.values⟩, ?_, ?_, ?_, ?_, ?_, ?_⟩
  · show d.entries.set d.size (some e) = _ ++ newStorage ((d.addIndex d.size key).capacity - (d.size + 1))
    rw [hcapacity, hentries]
  · show d.size + 1 = _
    rw [List.length_append, hsize]
    rfl
  · show d.size + 1 ≤ (d.addIndex d.size key).capacity
    rw [hcapacity]
    exact hroom
  · show (d.addIndex d.size key).deletedCount = _
    have hlive : e.key.isNone = false := by rw [hkey]; rfl
    rw [hdeleted, h.deletedCount_eq, List.countP_append, List.countP_singleton, hlive]
    rfl
  · rw [liveKeys_append]
    refine List.nodup_append.2 ⟨h.keys_nodup, ?_, ?_⟩
    · rw [liveKeys, List.filterMap_cons, hkey]
      exact List.nodup_singleton _
    · rintro k hk k' hk' rfl
      rw [liveKeys, List.filterMap_cons, hkey] at hk'
      obtain rfl := List.mem_singleton.1 hk'
      exact hnew hk
  · intro e' he' hlive
    obtain he' | he' := List.mem_append.1 he'
    · exact h.value_isSome e' he' hlive
    · rw [List.mem_singleton.1 he']
      exact hvalue

/-- **The value of a key is replaced.** -/
theorem Holds.replaceValue (h : Holds d used) (he : used[i]? = some e) (value : MapValue) :
    Holds { d with entries := d.entries.set i (some { e with value := some value }) }
      (used.set i { e with value := some value }) := by
  have hi := (List.getElem?_eq_some_iff.1 he).1
  have hkeys : ∀ part : List MapEntry, (part ++ { e with value := some value } :: used.drop (i + 1)).map MapEntry.key =
      (part ++ e :: used.drop (i + 1)).map MapEntry.key := by
    intro part
    rw [List.map_append, List.map_append]
    rfl
  have hkey : (used.set i { e with value := some value }).map MapEntry.key = used.map MapEntry.key := by
    conv_rhs => rw [split_at he]
    rw [set_split hi, hkeys]
  have hlive : liveKeys (used.set i { e with value := some value }) = liveKeys used := by
    have hmap : ∀ part : List MapEntry, liveKeys part = (part.map MapEntry.key).filterMap id := by
      intro part
      rw [liveKeys, List.filterMap_map]
      rfl
    rw [hmap, hmap, hkey]
  have hcount : (used.set i { e with value := some value }).countP (fun e => e.key.isNone) =
      used.countP fun e => e.key.isNone := by
    have hmap : ∀ part : List MapEntry,
        part.countP (fun e => e.key.isNone) = (part.map MapEntry.key).countP Option.isNone := by
      intro part
      rw [List.countP_map]
      rfl
    rw [hmap, hmap, hkey]
  refine ⟨⟨h.cells.replaceValue he _, h.strings.replaceValue he _, h.values.replaceValue he _⟩, h.set_entries hi _,
    by rw [List.length_set]; exact h.size_eq, h.size_le, by rw [hcount]; exact h.deletedCount_eq,
    by rw [hlive]; exact h.keys_nodup, ?_⟩
  intro e' he' hsome
  obtain he' | rfl := List.mem_or_eq_of_mem_set he'
  · exact h.value_isSome e' he' hsome
  · rfl

/-- **An entry is cleared.** -/
theorem Holds.clearEntry (h : Holds d used) (he : used[i]? = some e) (hkey : e.key = some key) :
    Holds { d.removeIndex key with
      entries := d.entries.set i (some cleared), deletedCount := d.deletedCount + 1 } (used.set i cleared) := by
  have hi := (List.getElem?_eq_some_iff.1 he).1
  obtain ⟨hcapacity, -, -, hsize, -⟩ := capacity_removeIndex d key
  have htables : Tables (d.removeIndex key) (used.set i cleared) :=
    h.toTables.removeIndex h.keys_nodup he hkey
  refine ⟨⟨htables.cells, htables.strings, htables.values⟩, ?_, ?_, ?_, ?_, ?_, ?_⟩
  · show d.entries.set i (some cleared) =
      _ ++ newStorage ((d.removeIndex key).capacity - (d.removeIndex key).size)
    rw [hcapacity, hsize]
    exact h.set_entries hi cleared
  · show (d.removeIndex key).size = _
    rw [hsize, List.length_set]
    exact h.size_eq
  · show (d.removeIndex key).size ≤ (d.removeIndex key).capacity
    rw [hcapacity, hsize]
    exact h.size_le
  · show d.deletedCount + 1 = _
    have hlive : ¬ e.key.isNone = true := by rw [hkey]; exact Bool.false_ne_true
    rw [h.deletedCount_eq, set_split hi, List.countP_append, List.countP_cons_of_pos (by rfl)]
    conv_lhs => rw [split_at he]
    rw [List.countP_append, List.countP_cons, if_neg hlive]
    omega
  · have hold := h.keys_nodup
    rw [split_at he, liveKeys_append, liveKeys, liveKeys, List.filterMap_cons, hkey] at hold
    rw [set_split hi, liveKeys_append, liveKeys, liveKeys, List.filterMap_cons]
    exact hold.sublist (List.Sublist.append_left (List.sublist_cons_self _ _) _)
  · intro e' he' hsome'
    obtain he' | rfl := List.mem_or_eq_of_mem_set he'
    · exact h.value_isSome e' he' hsome'
    · cases hsome'

end MapData

end WebKit.JSC
