import WebKit.JSC.MapDataIterators

/-!
# Runs of map data with its iterators

Map data with its iterators does what an `IteratedMap` does, as long as the entries are not packed while there is an
iterator (`KeepsStore`). The entries of the array are numbered in the order of their insertion (`numbered`); an iterator
that has not ended is at the first of those that it has not passed (`At`).

- `set_effect`, `copyBackingStore_effect`, `ensureSlot_spec`: what the operations do to the entries;
- `Represents.ensureSlot`, `Represents.increment`: the iterators;
- `step_represents`, `iteration_exact`: one step, and runs.
-/

namespace WebKit.JSC

open WebKit.Lib Transition

namespace MapData

variable {d d' : MapData} {used : List MapEntry} {key value : MapValue} {i j n : Nat} {e : MapEntry}

/-! ## What the operations do to the entries -/

/-- `set` replaces the value of an entry, or appends one, for which the others may be packed. -/
inductive SetEffect (d : MapData) (used : List MapEntry) (memory : Bool) (key value : MapValue) : MapData × Bool → Prop
  | replaced (i : Nat) (e : MapEntry) (d' : MapData) : used[i]? = some e → e.key = some key.keyType →
      d.findIndex key.keyType = some i → Holds d' (used.set i { e with value := some value }) →
      SetEffect d used memory key value (d', true)
  | outOfMemory : key.keyType ∉ liveKeys used → memory = false → SetEffect d used memory key value (d, false)
  | appended (d' : MapData) : key.keyType ∉ liveKeys used → d.size < d.capacity ∨ d.shouldPack = false →
      Holds d' (used ++ [{ key := some key.keyType, value := some value }]) →
      SetEffect d used memory key value (d', true)
  | packed (d' : MapData) : key.keyType ∉ liveKeys used → ¬ d.size < d.capacity → memory = true → d.shouldPack = true →
      Holds d' (live used ++ [{ key := some key.keyType, value := some value }]) →
      SetEffect d used memory key value (d', true)

theorem set_append {d₁ : MapData} {memory : Bool} {used₁ : List MapEntry} (h : Holds d used)
    (hnew : key.keyType ∉ liveKeys used) (h₁ : Holds d₁ used₁) (hkeys : liveKeys used₁ = liveKeys used)
    (hspace : d.ensureSpaceForAppend memory = .ok (d₁, true)) (hroom : d₁.size < d₁.capacity) (value : MapValue) :
    ∃ d', d.set memory key value = .ok (d', true) ∧
      Holds d' (used₁ ++ [{ key := some key.keyType, value := some value }]) := by
  have hnew₁ : key.keyType ∉ liveKeys used₁ := by rwa [hkeys]
  exact ⟨_, set_of_space (h.findIndex_eq_none.2 hnew) hspace (h₁.findIndex_eq_none.2 hnew₁)
    (by rw [h₁.length_entries]; exact hroom) value, h₁.append hnew₁ hroom rfl rfl⟩

theorem set_effect (h : Holds d used) {memory : Bool} (hok : d.StepOk (.set memory key value)) :
    ∃ r, d.set memory key value = .ok r ∧ SetEffect d used memory key value r := by
  by_cases hmem : key.keyType ∈ liveKeys used
  · obtain ⟨i, e, he, hkey⟩ := mem_liveKeys.1 hmem
    exact ⟨_, set_of_mem h he hkey memory value, .replaced i e _ he hkey ((h.findIndex_eq_some _).2 ⟨e, he, hkey⟩)
      (h.replaceValue he value)⟩
  · have hfind := h.findIndex_eq_none.2 hmem
    by_cases hroom : d.size < d.capacity
    · have hspace : d.ensureSpaceForAppend memory = .ok (d, true) := if_pos hroom
      obtain ⟨d', heq, hholds⟩ := set_append h hmem h rfl hspace hroom value
      exact ⟨_, heq, .appended d' hmem (.inl hroom) hholds⟩
    · obtain ⟨hsmall, hfront⟩ : d.requiredSize < 2 ^ 31 ∧ (memory = true → d.shouldPack = true → d.ObjectsInFront) := by
        obtain hok | hok | hok := hok
        · rw [hfind] at hok
          cases hok
        · exact absurd hok hroom
        · exact hok
      cases memory with
      | false =>
        have hspace : d.ensureSpaceForAppend false = .ok (d, false) := by
          rw [ensureSpaceForAppend, if_neg hroom, if_neg (by omega)]
          rfl
        refine ⟨_, ?_, .outOfMemory hmem rfl⟩
        rw [set, add, hfind]
        simp only [hspace]
        rfl
      | true =>
        have hcapacity := requiredSize_pos d
        have hle := h.size_le
        obtain ⟨d₁, hmove, hmoved⟩ := moveBackingStore_spec h (Nat.le_of_lt hcapacity) (by omega)
        have hspace : d.ensureSpaceForAppend true = .ok (d₁, true) := by
          rw [ensureSpaceForAppend, if_neg hroom, if_neg (by omega)]
          simp only [Bool.not_true, Bool.false_eq_true, if_false, hmove]
          rfl
        cases hmoved with
        | replaced hholds hcap _ hpack =>
          have hsize := hholds.size_eq
          have hsize' := h.size_eq
          obtain ⟨d', heq, hholds'⟩ := set_append h hmem hholds rfl hspace (by omega) value
          exact ⟨_, heq, .appended d' hmem (.inr hpack) hholds'⟩
        | packed hpacked hpack =>
          have hholds := hpacked.holds h (Nat.le_of_lt hcapacity) (hfront rfl hpack)
          have hsize := hpacked.size_eq
          have hcap := hpacked.capacity_eq
          have hsize' := h.size_eq
          have hlive := length_live_le used
          obtain ⟨d', heq, hholds'⟩ := set_append h hmem hholds liveKeys_live hspace (by omega) value
          exact ⟨_, heq, .packed d' hmem hroom rfl hpack hholds'⟩

/-- The store is moved, and the entries may be packed. -/
inductive CopyEffect (d : MapData) (used : List MapEntry) (d' : MapData) : Prop
  | kept : d.capacity = 0 ∨ d.shouldPack = false → Holds d' used → CopyEffect d used d'
  | packed : d.capacity ≠ 0 → d.shouldPack = true → Holds d' (live used) → CopyEffect d used d'

theorem copyBackingStore_effect (h : Holds d used) (hok : d.StepOk .copyBackingStore) :
    ∃ d', d.copyBackingStore = .ok d' ∧ CopyEffect d used d' := by
  by_cases hzero : d.capacity = 0
  · exact ⟨d, if_pos hzero, .kept (.inl hzero) h⟩
  · obtain ⟨d', hmove, hmoved⟩ := moveBackingStore_spec h le_rfl (by omega)
    refine ⟨d', by rw [copyBackingStore, if_neg hzero, hmove], ?_⟩
    cases hmoved with
    | replaced hholds _ _ hpack => exact .kept (.inr hpack) hholds
    | packed hpacked hpack => exact .packed hzero hpack (hpacked.holds h le_rfl (hok hpack))

/-- What `ensureSlot` finds from an index on. -/
structure SlotFound (used : List MapEntry) (index : Int) (n : Nat) : Prop where
  live : ∃ e, used[n]? = some e ∧ e.key.isSome
  first : ∀ i : Nat, index = i → i ≤ n ∧ ∀ (j : Nat) e, i ≤ j → j < n → used[j]? = some e → e.key = none

/-- **`ensureSlot`** -/
theorem ensureSlot_spec (h : Holds d used) (index : Int) :
    (∃ n : Nat, d.ensureSlot index = .ok ((n : Int), true) ∧ SlotFound used index n) ∨
      ∃ index', d.ensureSlot index = .ok (index', false) ∧
        ∀ i : Nat, index = i → ∀ (j : Nat) e, i ≤ j → used[j]? = some e → e.key = none := by
  have hsize := h.size_eq
  by_cases hhere : ∃ (i : Nat) (e : MapEntry), index = i ∧ used[i]? = some e ∧ e.key.isSome
  · obtain ⟨i, e, rfl, he, hlive⟩ := hhere
    have hlt := (List.getElem?_eq_some_iff.1 he).1
    refine .inl ⟨i, ?_, ⟨e, he, hlive⟩, fun i' hi' => ⟨by omega, fun j e' hle hlt' => by omega⟩⟩
    rw [ensureSlot, if_pos ⟨Int.natCast_nonneg i, by rw [Int.toNat_natCast]; omega⟩, Int.toNat_natCast,
      h.readSlot_eq he]
    simp only [ok_bind, pure_bind, hlive, if_true]
    rfl
  · -- there is no live entry at the index itself
    have hdead : ∀ i : Nat, index = i → ∀ e, used[i]? = some e → e.key = none := by
      intro i hi e he
      rw [← Option.not_isSome_iff_eq_none]
      exact fun hlive => hhere ⟨i, e, hi, he, hlive⟩
    obtain ⟨next, hincrement, hnext⟩ := internalIncrement_spec h index
    have heq : d.ensureSlot index = .ok ((next : Int), decide (next < d.size)) := by
      rw [ensureSlot]
      split_ifs with hin
      · have he : used[index.toNat]? = some used[index.toNat] := List.getElem?_eq_getElem (by omega)
        rw [h.readSlot_eq he, ok_bind, pure_bind, hdead index.toNat (by omega) _ he]
        simp only [Option.isSome_none, Bool.false_eq_true, if_false, hincrement, ok_bind, Int.toNat_natCast]
        rfl
      · simp only [ok_bind, pure_bind, hincrement, Int.toNat_natCast]
        rfl
    have hbetween : ∀ i : Nat, index = i → ∀ (j : Nat) e, i ≤ j → j < next → used[j]? = some e → e.key = none := by
      intro i hi j e hle hlt he
      obtain rfl | hlt' := Nat.eq_or_lt_of_le hle
      · exact hdead i hi e he
      · exact hnext.dead j e (by omega) hlt he
    by_cases hfound : next < d.size
    · have he : used[next]? = some used[next] := List.getElem?_eq_getElem (by omega)
      rw [decide_eq_true hfound] at heq
      refine .inl ⟨next, heq, ⟨_, he, hnext.live _ he⟩, fun i hi => ⟨?_, hbetween i hi⟩⟩
      have := hnext.start_le
      omega
    · rw [decide_eq_false hfound] at heq
      refine .inr ⟨next, heq, fun i hi j e hle he => hbetween i hi j e hle ?_ he⟩
      have := (List.getElem?_eq_some_iff.1 he).1
      omega

/-! ## Numbered entries -/

/-- The live entries with their numbers. -/
def numbered (tagged : List (Nat × MapEntry)) : List (Nat × MapValue × MapValue) :=
  tagged.filterMap fun t => t.2.key.bind fun k => t.2.value.map fun v => (t.1, k, v)

variable {tagged tagged' : List (Nat × MapEntry)} {t : Nat × MapEntry} {position next : Nat}

theorem mem_numbered {k v : MapValue} :
    (n, k, v) ∈ numbered tagged ↔ ∃ e, (n, e) ∈ tagged ∧ e.key = some k ∧ e.value = some v := by
  rw [numbered, List.mem_filterMap]
  constructor
  · rintro ⟨⟨n', e⟩, hmem, heq⟩
    obtain ⟨k', hk, heq⟩ := Option.bind_eq_some_iff.1 heq
    obtain ⟨v', hv, heq⟩ := Option.map_eq_some_iff.1 heq
    obtain ⟨rfl, rfl, rfl⟩ : n' = n ∧ k' = k ∧ v' = v := by simpa using heq
    exact ⟨e, hmem, hk, hv⟩
  · rintro ⟨e, hmem, hk, hv⟩
    exact ⟨(n, e), hmem, by rw [hk, hv]; rfl⟩

theorem exists_key_iff (hvalue : ∀ e ∈ tagged.map Prod.snd, e.key.isSome → e.value.isSome) :
    (∃ e ∈ numbered tagged, e.2.1 = key) ↔ key ∈ liveKeys (tagged.map Prod.snd) := by
  rw [liveKeys, List.mem_filterMap]
  constructor
  · rintro ⟨⟨n, k, v⟩, hmem, rfl⟩
    obtain ⟨e, he, hk, -⟩ := mem_numbered.1 hmem
    exact ⟨e, List.mem_map_of_mem he, hk⟩
  · rintro ⟨e, he, hk⟩
    obtain ⟨v, hv⟩ := Option.isSome_iff_exists.1 (hvalue e he (by rw [hk]; rfl))
    obtain ⟨⟨n, e⟩, hmem, rfl⟩ := List.mem_map.1 he
    exact ⟨(n, key, v), mem_numbered.2 ⟨e, hmem, hk, hv⟩, rfl⟩

theorem map_snd_numbered : (numbered tagged).map Prod.snd = contents (tagged.map Prod.snd) := by
  rw [numbered, contents, List.map_filterMap, List.filterMap_map]
  refine List.filterMap_congr fun t _ => ?_
  show (t.2.key.bind fun k => t.2.value.map fun v => (t.1, k, v)).map Prod.snd =
    t.2.key.bind fun k => t.2.value.map fun v => (k, v)
  cases t.2.key with
  | none => rfl
  | some k => cases t.2.value <;> rfl

/-- An entry and those around it, where its key is in no other one. -/
theorem split_tagged (hnodup : (liveKeys (tagged.map Prod.snd)).Nodup) (ht : tagged[i]? = some t)
    (hkey : t.2.key = some key) :
    tagged = tagged.take i ++ t :: tagged.drop (i + 1) ∧
      (∀ t', tagged.set i t' = tagged.take i ++ t' :: tagged.drop (i + 1)) ∧
      (∀ e ∈ numbered (tagged.take i), e.2.1 ≠ key) ∧ ∀ e ∈ numbered (tagged.drop (i + 1)), e.2.1 ≠ key := by
  obtain ⟨hi, rfl⟩ := List.getElem?_eq_some_iff.1 ht
  have he : (tagged.map Prod.snd)[i]? = some tagged[i].2 := by rw [List.getElem?_map, ht]; rfl
  obtain ⟨hbefore, hafter⟩ := not_mem_around hnodup he hkey
  have hnot : ∀ part : List (Nat × MapEntry), key ∉ liveKeys (part.map Prod.snd) →
      ∀ e ∈ numbered part, e.2.1 ≠ key := by
    rintro part hpart ⟨n, k, v⟩ hmem rfl
    obtain ⟨e, he, hk, -⟩ := mem_numbered.1 hmem
    exact hpart (List.mem_filterMap.2 ⟨e, List.mem_map_of_mem he, hk⟩)
  refine ⟨?_, fun t' => ?_, hnot _ (by rwa [List.map_take]), hnot _ (by rwa [List.map_drop])⟩
  · rw [← List.drop_eq_getElem_cons hi, List.take_append_drop]
  · rw [List.set_eq_take_append_cons_drop, if_pos hi]

theorem numbered_append (tagged tagged' : List (Nat × MapEntry)) :
    numbered (tagged ++ tagged') = numbered tagged ++ numbered tagged' := List.filterMap_append

theorem numbered_cons {k v : MapValue} (hk : t.2.key = some k) (hv : t.2.value = some v) :
    numbered (t :: tagged) = (t.1, k, v) :: numbered tagged := by
  rw [numbered, List.filterMap_cons, hk, hv]
  rfl

theorem numbered_replace (hnodup : (liveKeys (tagged.map Prod.snd)).Nodup) (ht : tagged[i]? = some t)
    (hkey : t.2.key = some key) (hvalue : t.2.value.isSome) (value : MapValue) :
    numbered (tagged.set i (t.1, { t.2 with value := some value })) =
      IteratedMap.replace key value (numbered tagged) := by
  obtain ⟨hsplit, hset, hbefore, hafter⟩ := split_tagged hnodup ht hkey
  obtain ⟨v, hv⟩ := Option.isSome_iff_exists.1 hvalue
  have hid : ∀ part : List (Nat × MapValue × MapValue), (∀ e ∈ part, e.2.1 ≠ key) →
      List.map (fun e => if e.2.1 = key then (e.1, key, value) else e) part = part := by
    intro part hpart
    conv_rhs => rw [← List.map_id part]
    exact List.map_congr_left fun e he => if_neg (hpart e he)
  have hold : numbered tagged = numbered (tagged.take i) ++ (t.1, key, v) :: numbered (tagged.drop (i + 1)) := by
    conv_lhs => rw [hsplit]
    rw [numbered_append, numbered_cons hkey hv]
  have hnew : numbered ((t.1, { t.2 with value := some value }) :: tagged.drop (i + 1)) =
      (t.1, key, value) :: numbered (tagged.drop (i + 1)) :=
    numbered_cons (t := (t.1, { t.2 with value := some value })) hkey rfl
  rw [hset, numbered_append, hnew, hold, IteratedMap.replace, List.map_append, List.map_cons, if_pos rfl,
    hid _ hbefore, hid _ hafter]

theorem numbered_clear (hnodup : (liveKeys (tagged.map Prod.snd)).Nodup) (ht : tagged[i]? = some t)
    (hkey : t.2.key = some key) (hvalue : t.2.value.isSome) :
    numbered (tagged.set i (t.1, cleared)) = IteratedMap.erase key (numbered tagged) := by
  obtain ⟨hsplit, hset, hbefore, hafter⟩ := split_tagged hnodup ht hkey
  obtain ⟨v, hv⟩ := Option.isSome_iff_exists.1 hvalue
  have hid : ∀ part : List (Nat × MapValue × MapValue), (∀ e ∈ part, e.2.1 ≠ key) →
      List.filter (fun e => decide (e.2.1 ≠ key)) part = part :=
    fun part hpart => List.filter_eq_self.2 fun e he => decide_eq_true (hpart e he)
  have hold : numbered tagged = numbered (tagged.take i) ++ (t.1, key, v) :: numbered (tagged.drop (i + 1)) := by
    conv_lhs => rw [hsplit]
    rw [numbered_append, numbered_cons hkey hv]
  have hgone : ∀ part : List (Nat × MapValue × MapValue),
      List.filter (fun e => decide (e.2.1 ≠ key)) ((t.1, key, v) :: part) =
        List.filter (fun e => decide (e.2.1 ≠ key)) part := fun part => List.filter_cons_of_neg (by simp)
  rw [hset, numbered_append, hold, IteratedMap.erase, List.filter_append, hgone, hid _ hbefore, hid _ hafter]
  rfl

theorem numbered_live : numbered (tagged.filter fun t => t.2.key.isSome) = numbered tagged := by
  rw [numbered, numbered, List.filterMap_filter]
  refine List.filterMap_congr fun t _ => ?_
  cases t.2.key <;> rfl

theorem map_snd_live :
    (tagged.filter fun t => t.2.key.isSome).map Prod.snd = live (tagged.map Prod.snd) := by
  rw [live, List.filter_map]
  rfl

/-- Numbers and indices go together. -/
theorem tag_le_iff (hsorted : (tagged.map Prod.fst).Pairwise (· < ·)) {t' : Nat × MapEntry} (hi : tagged[i]? = some t)
    (hj : tagged[j]? = some t') : t.1 ≤ t'.1 ↔ i ≤ j := by
  have hlt : ∀ {i j : Nat} {t t' : Nat × MapEntry},
      tagged[i]? = some t → tagged[j]? = some t' → i < j → t.1 < t'.1 := by
    intro i j t t' hi hj hij
    obtain ⟨hi', rfl⟩ := List.getElem?_eq_some_iff.1 hi
    obtain ⟨hj', rfl⟩ := List.getElem?_eq_some_iff.1 hj
    have := List.pairwise_iff_getElem.1 hsorted i j (by rwa [List.length_map]) (by rwa [List.length_map]) hij
    simpa using this
  constructor
  · intro hle
    by_contra hnot
    exact absurd (hlt hj hi (by omega)) (by omega)
  · intro hle
    obtain rfl | hij := Nat.eq_or_lt_of_le hle
    · rw [Option.some.inj (hi.symm.trans hj)]
    · exact (hlt hi hj hij).le

theorem firstFrom_numbered {k v : MapValue} (ht : tagged[i]? = some t) (hk : t.2.key = some k) (hv : t.2.value = some v)
    (hle : position ≤ t.1)
    (hbefore : ∀ (j : Nat) t', j < i → tagged[j]? = some t' → t'.2.key.isSome → t'.1 < position) :
    IteratedMap.firstFrom (numbered tagged) position = some (t.1, k, v) := by
  obtain ⟨hi, rfl⟩ := List.getElem?_eq_some_iff.1 ht
  have hsplit : tagged = tagged.take i ++ tagged[i] :: tagged.drop (i + 1) := by
    rw [← List.drop_eq_getElem_cons hi, List.take_append_drop]
  have hnone : List.find? (fun e => decide (position ≤ e.1)) (numbered (tagged.take i)) = none := by
    refine List.find?_eq_none.2 ?_
    rintro ⟨n, k', v'⟩ hmem hpos
    obtain ⟨e, he, hk', -⟩ := mem_numbered.1 hmem
    obtain ⟨j, hj⟩ := List.mem_iff_getElem?.1 he
    have hji : j < i := by
      have := (List.getElem?_eq_some_iff.1 hj).1
      rw [List.length_take] at this
      omega
    rw [List.getElem?_take_of_lt hji] at hj
    have hlt := hbefore j _ hji hj (by rw [hk']; rfl)
    exact absurd (of_decide_eq_true hpos) (Nat.not_le.2 hlt)
  conv_lhs => rw [hsplit]
  rw [IteratedMap.firstFrom, numbered_append, numbered_cons hk hv, List.find?_append, hnone, Option.none_or]
  exact List.find?_cons_of_pos (decide_eq_true hle)

theorem firstFrom_numbered_none
    (hpassed : ∀ (j : Nat) t', tagged[j]? = some t' → t'.2.key.isSome → t'.1 < position) :
    IteratedMap.firstFrom (numbered tagged) position = none := by
  refine List.find?_eq_none.2 ?_
  rintro ⟨n, k, v⟩ hmem hpos
  obtain ⟨e, he, hk, -⟩ := mem_numbered.1 hmem
  obtain ⟨j, hj⟩ := List.mem_iff_getElem?.1 he
  exact absurd (of_decide_eq_true hpos) (Nat.not_le.2 (hpassed j _ hj (by rw [hk]; rfl)))

namespace Iterated

variable {w w' : Iterated} {a : Op × OpAnswer} {it : ConstIterator} {c : Iteration} {s : IteratedMap MapValue MapValue}
  {next' : Nat}

/-! ## Iterators and iterations -/

/-- The iterator is at the first live entry that the iteration has not passed, or at the end. -/
structure At (tagged : List (Nat × MapEntry)) (next : Nat) (it : ConstIterator) (c : Iteration) (i : Nat) : Prop where
  index_eq : it.index = i
  index_le : i ≤ tagged.length
  position_le : c.position ≤ next
  atSlot_eq : it.atSlot = c.visiting
  passed_iff : ∀ (j : Nat) t, tagged[j]? = some t → t.2.key.isSome → (c.position ≤ t.1 ↔ i ≤ j)
  entry : c.visiting = true → ∃ t, tagged[i]? = some t ∧ t.1 = c.position

inductive Follows (tagged : List (Nat × MapEntry)) (next : Nat) : Option ConstIterator → Option Iteration → Prop
  | destroyed : Follows tagged next none none
  | ended (it : ConstIterator) (c : Iteration) : c.ended.isSome → Follows tagged next (some it) (some c)
  | at (it : ConstIterator) (c : Iteration) (i : Nat) : c.ended = none → At tagged next it c i →
      Follows tagged next (some it) (some c)

/-- The entries keep their numbers, may be cleared, and there may be new ones. -/
structure Extends (tagged : List (Nat × MapEntry)) (next : Nat) (tagged' : List (Nat × MapEntry)) : Prop where
  length_le : tagged.length ≤ tagged'.length
  kept : ∀ (j : Nat) t, tagged[j]? = some t → ∃ t', tagged'[j]? = some t' ∧ t'.1 = t.1
  live : ∀ (j : Nat) t', j < tagged.length → tagged'[j]? = some t' → t'.2.key.isSome →
    ∃ t, tagged[j]? = some t ∧ t.1 = t'.1 ∧ t.2.key.isSome
  new : ∀ (j : Nat) t', tagged.length ≤ j → tagged'[j]? = some t' → next ≤ t'.1

theorem At.extend (h : At tagged next it c i) (hext : Extends tagged next tagged') (hle : next ≤ next') :
    At tagged' next' it c i where
  index_eq := h.index_eq
  index_le := h.index_le.trans hext.length_le
  position_le := h.position_le.trans hle
  atSlot_eq := h.atSlot_eq
  passed_iff := by
    intro j t' ht' hlive
    obtain hold | hnew := Nat.lt_or_ge j tagged.length
    · obtain ⟨t, ht, htag, hlive'⟩ := hext.live j t' hold ht' hlive
      rw [← htag]
      exact h.passed_iff j t ht hlive'
    · exact iff_of_true (h.position_le.trans (hext.new j t' hnew ht')) (h.index_le.trans hnew)
  entry := by
    intro hvisiting
    obtain ⟨t, ht, htag⟩ := h.entry hvisiting
    obtain ⟨t', ht', htag'⟩ := hext.kept i t ht
    exact ⟨t', ht', htag'.trans htag⟩

theorem Follows.extend {o : Option ConstIterator} {o' : Option Iteration} (h : Follows tagged next o o')
    (hext : Extends tagged next tagged') (hle : next ≤ next') : Follows tagged' next' o o' := by
  cases h with
  | destroyed => exact .destroyed
  | ended it c hended => exact .ended it c hended
  | «at» it c i hended hat => exact .at it c i hended (hat.extend hext hle)

/-- The entries with their numbers are those of the map, and the iterators follow its iterations. -/
structure Tracks (iterators : List (Option ConstIterator)) (tagged : List (Nat × MapEntry))
    (s : IteratedMap MapValue MapValue) : Prop where
  sorted : (tagged.map Prod.fst).Pairwise (· < ·)
  lt_next : ∀ t ∈ tagged, t.1 < s.next
  entries_eq : s.entries = numbered tagged
  length_eq : iterators.length = s.iterations.length
  follows : ∀ (i : Nat) o o', iterators[i]? = some o → s.iterations[i]? = some o' → Follows tagged s.next o o'

/-- The entries are those of the array. -/
structure Represents (w : Iterated) (tagged : List (Nat × MapEntry)) (s : IteratedMap MapValue MapValue) : Prop
    extends Tracks w.iterators tagged s where
  holds : Holds w.data (tagged.map Prod.snd)

variable {iterators : List (Option ConstIterator)}

theorem represents_create : Represents create [] .empty where
  holds := holds_create
  sorted := .nil
  lt_next := nofun
  entries_eq := rfl
  length_eq := rfl
  follows := nofun

theorem Represents.exists_iteration (h : Represents w tagged s) (hi : w.iterator i = .ok it) :
    ∃ c, s.iterations[i]? = some (some c) ∧ Follows tagged s.next (some it) (some c) := by
  have hget := iterator_eq_ok.1 hi
  have hlt : i < s.iterations.length := by
    rw [← h.length_eq]
    exact (List.getElem?_eq_some_iff.1 hget).1
  have hget' : s.iterations[i]? = some s.iterations[i] := List.getElem?_eq_getElem hlt
  have hfollows := h.follows i _ _ hget hget'
  cases hc : s.iterations[i] with
  | none =>
    rw [hc] at hfollows
    cases hfollows
  | some c =>
    rw [hc] at hfollows hget'
    exact ⟨c, hget', hfollows⟩

theorem Represents.set_iterator (h : Represents w tagged s) (i : Nat) {o : Option ConstIterator} {o' : Option Iteration}
    (hfollows : Follows tagged s.next o o') :
    Represents { w with iterators := w.iterators.set i o } tagged
      { s with iterations := s.iterations.set i o' } where
  holds := h.holds
  sorted := h.sorted
  lt_next := h.lt_next
  entries_eq := h.entries_eq
  length_eq := by
    show (w.iterators.set i o).length = (s.iterations.set i o').length
    rw [List.length_set, List.length_set]
    exact h.length_eq
  follows := by
    intro j p p' hp hp'
    have hp : (w.iterators.set i o)[j]? = some p := hp
    have hp' : (s.iterations.set i o')[j]? = some p' := hp'
    rw [List.getElem?_set] at hp hp'
    by_cases hij : i = j
    · rw [if_pos hij] at hp hp'
      obtain rfl := Option.some.inj (Option.ite_none_right_eq_some.1 hp).2
      obtain rfl := Option.some.inj (Option.ite_none_right_eq_some.1 hp').2
      exact hfollows
    · rw [if_neg hij] at hp hp'
      exact h.follows j p p' hp hp'

theorem Represents.set_ended (h : Represents w tagged s) (hc : s.iterations[i]? = some (some c))
    (hended : c.ended.isSome) (it : ConstIterator) :
    Represents { w with iterators := w.iterators.set i (some it) } tagged s := by
  obtain ⟨hlt, hget⟩ := List.getElem?_eq_some_iff.1 hc
  have hset := h.set_iterator i (.ended it c hended)
  rw [← hget, List.set_getElem_self] at hset
  exact hset

theorem Represents.append_iterator (h : Represents w tagged s) (hfollows : Follows tagged s.next (some it) (some c)) :
    Represents { w with iterators := w.iterators ++ [some it] } tagged
      { s with iterations := s.iterations ++ [some c] } where
  holds := h.holds
  sorted := h.sorted
  lt_next := h.lt_next
  entries_eq := h.entries_eq
  length_eq := by
    show (w.iterators ++ [some it]).length = (s.iterations ++ [some c]).length
    rw [List.length_append, List.length_append, h.length_eq]
    rfl
  follows := by
    intro j p p' hp hp'
    have hp : (w.iterators ++ [some it])[j]? = some p := hp
    have hp' : (s.iterations ++ [some c])[j]? = some p' := hp'
    rw [List.getElem?_append] at hp hp'
    rw [h.length_eq] at hp
    split_ifs at hp hp'
    · exact h.follows j p p' hp hp'
    · obtain rfl := List.mem_singleton.1 (List.mem_of_getElem? hp)
      obtain rfl := List.mem_singleton.1 (List.mem_of_getElem? hp')
      exact hfollows

theorem Tracks.extend (h : Tracks iterators tagged s) {entries : List (Nat × MapValue × MapValue)}
    (hsorted : (tagged'.map Prod.fst).Pairwise (· < ·)) (hlt : ∀ t ∈ tagged', t.1 < next')
    (hentries : entries = numbered tagged') (hext : Extends tagged s.next tagged') (hle : s.next ≤ next') :
    Tracks iterators tagged' { s with entries, next := next' } where
  sorted := hsorted
  lt_next := hlt
  entries_eq := hentries
  length_eq := h.length_eq
  follows := fun i o o' ho ho' => (h.follows i o o' ho ho').extend hext hle

/-! ## Stepping -/

/-- What a step and its answer are for the map and its iterations. -/
inductive Answers : Op × OpAnswer → IteratedMap.Event MapValue MapValue → Prop
  | create : Answers (.create, .done) .create
  | copy (i : Nat) : Answers (.copy i, .done) (.copy i)
  | slot (i : Nat) (k v : MapValue) : Answers (.ensureSlot i, .slot (some (some k, some v))) (.visit i (some (k, v)))
  | atEnd (i : Nat) : Answers (.ensureSlot i, .slot none) (.visit i none)
  | increment (i : Nat) : Answers (.increment i, .done) (.advance i)
  | destroy (i : Nat) : Answers (.destroy i, .done) (.destroy i)
  | set (memory : Bool) (k v : MapValue) : Answers (.set memory k v, .done) (.set k.keyType v)
  | outOfMemory (k v : MapValue) : Answers (.set false k v, .outOfMemory) .skip
  | remove (k : MapValue) : Answers (.remove k, .done) (.remove k.keyType)
  | copyBackingStore : Answers (.copyBackingStore, .done) .skip

/-- The step is one of the map and its iterations. -/
def Simulates (s : IteratedMap MapValue MapValue) (operation : Op) (answer : OpAnswer) (w' : Iterated) : Prop :=
  ∃ event tagged' s', Answers (operation, answer) event ∧ IteratedMap.Step s event s' ∧ Represents w' tagged' s'

theorem Represents.create (h : Represents w tagged s) :
    ∃ index, w.data.begin = .ok index ∧
      Represents { w with iterators := w.iterators ++ [some { index, atSlot := false }] } tagged
        { s with iterations := s.iterations ++ [some .start] } := by
  obtain ⟨n, heq, hnext⟩ := internalIncrement_spec h.holds (-1)
  refine ⟨n, heq, h.append_iterator (.at _ _ n rfl ⟨rfl, ?_, Nat.zero_le _, rfl, fun j t ht hlive => ?_, nofun⟩)⟩
  · have := hnext.index_le
    rw [List.length_map] at this
    omega
  · refine iff_of_true (Nat.zero_le _) ?_
    by_contra hnot
    have hdead := hnext.dead j t.2 (Nat.zero_le _) (by omega) (by rw [List.getElem?_map, ht]; rfl)
    rw [hdead] at hlive
    cases hlive

theorem At.visit (hholds : Holds w.data (tagged.map Prod.snd)) (hsorted : (tagged.map Prod.fst).Pairwise (· < ·))
    (hlt : ∀ t ∈ tagged, t.1 < next) (h : At tagged next it c i)
    (hfound : SlotFound (tagged.map Prod.snd) it.index n) :
    ∃ t k v, tagged[n]? = some t ∧ t.2.key = some k ∧ t.2.value = some v ∧
      IteratedMap.firstFrom (numbered tagged) c.position = some (t.1, k, v) ∧
      At tagged next { index := n, atSlot := true } (c.visit t.1) n := by
  obtain ⟨hle, hdead⟩ := hfound.first i h.index_eq
  obtain ⟨e, he, hlive⟩ := hfound.live
  rw [List.getElem?_map] at he
  obtain ⟨t, ht, rfl⟩ := Option.map_eq_some_iff.1 he
  obtain ⟨k, hk⟩ := Option.isSome_iff_exists.1 hlive
  obtain ⟨v, hv⟩ := Option.isSome_iff_exists.1
    (hholds.value_isSome t.2 (List.mem_map_of_mem (List.mem_of_getElem? ht)) hlive)
  have hpos : c.position ≤ t.1 := (h.passed_iff n t ht hlive).2 hle
  have hfirst := firstFrom_numbered ht hk hv hpos fun j t' hj ht' hlive' => by
    by_contra hnot
    have hij := (h.passed_iff j t' ht' hlive').1 (by omega)
    rw [hdead j t'.2 hij hj (by rw [List.getElem?_map, ht']; rfl)] at hlive'
    cases hlive'
  have hposition : (c.visit t.1).position = t.1 := by
    rw [Iteration.visit]
    split_ifs with hsame
    · exact hsame.2
    · rfl
  have hvisiting : (c.visit t.1).visiting = true := by
    rw [Iteration.visit]
    split_ifs with hsame
    · exact hsame.1
    · rfl
  refine ⟨t, k, v, ht, hk, hv, hfirst, rfl, (List.getElem?_eq_some_iff.1 ht).1.le, ?_, hvisiting.symm,
    fun j t' ht' _ => ?_, fun _ => ⟨t, ht, hposition.symm⟩⟩
  · rw [hposition]
    exact (hlt t (List.mem_of_getElem? ht)).le
  · rw [hposition]
    exact tag_le_iff hsorted ht ht'

/-- **`ensureSlot`** visits the next entry, or ends the iteration. -/
theorem Represents.ensureSlot (h : Represents w tagged s) (hi : w.iterator i = .ok it) :
    ∃ w' answer, w.step (.ensureSlot i) = .ok (w', answer) ∧ w'.data = w.data ∧
      Simulates s (.ensureSlot i) answer w' := by
  obtain ⟨c, hc, hfollows⟩ := h.exists_iteration hi
  obtain ⟨n, heq, hfound⟩ | ⟨index, heq, hdead⟩ := ensureSlot_spec h.holds it.index
  · -- there is an entry
    obtain ⟨e, he, hlive⟩ := hfound.live
    obtain ⟨k, hk⟩ := Option.isSome_iff_exists.1 hlive
    obtain ⟨v, hv⟩ := Option.isSome_iff_exists.1 (h.holds.value_isSome e (List.mem_of_getElem? he) hlive)
    have hstep : w.step (.ensureSlot i) = .ok
        ({ w with iterators := w.iterators.set i (some { index := n, atSlot := true }) },
          .slot (some (some k, some v))) := by
      rw [step, hi]
      simp only [ok_bind, heq, if_true, Int.toNat_natCast, h.holds.readSlot_eq he, hk, hv]
      rfl
    cases hfollows with
    | ended _ _ hended =>
      exact ⟨_, _, hstep, rfl, _, tagged, s, .slot i k v, .visitEnded i c _ hc hended, h.set_ended hc hended _⟩
    | «at» _ _ i' hended hat =>
      obtain ⟨t, k', v', ht, hk', hv', hfirst, hat'⟩ := hat.visit h.holds h.sorted h.lt_next hfound
      rw [List.getElem?_map, ht] at he
      obtain rfl := Option.some.inj he
      obtain rfl := Option.some.inj (hk.symm.trans hk')
      obtain rfl := Option.some.inj (hv.symm.trans hv')
      have hended' : (c.visit t.1).ended = none := by
        rw [Iteration.visit]
        split_ifs <;> exact hended
      rw [← h.entries_eq] at hfirst
      exact ⟨_, _, hstep, rfl, _, tagged, _, .slot i k v, .visit i c _ hc hended hfirst,
        h.set_iterator i (.at _ _ n hended' hat')⟩
  · -- there is none
    have hstep : w.step (.ensureSlot i) = .ok
        ({ w with iterators := w.iterators.set i (some { index, atSlot := false }) }, .slot none) := by
      rw [step, hi]
      simp only [ok_bind, heq, Bool.false_eq_true, if_false]
      rfl
    cases hfollows with
    | ended _ _ hended =>
      exact ⟨_, _, hstep, rfl, _, tagged, s, .atEnd i, .visitEnded i c none hc hended, h.set_ended hc hended _⟩
    | «at» _ _ i' hended hat =>
      have hfirst : IteratedMap.firstFrom s.entries c.position = none := by
        rw [h.entries_eq]
        refine firstFrom_numbered_none fun j t ht hlive => ?_
        by_contra hnot
        have hij := (hat.passed_iff j t ht hlive).1 (by omega)
        rw [hdead i' hat.index_eq j t.2 hij (by rw [List.getElem?_map, ht]; rfl)] at hlive
        cases hlive
      exact ⟨_, _, hstep, rfl, _, tagged, _, .atEnd i, .finish i c hc hended hfirst, h.set_iterator i (.ended _ _ rfl)⟩

/-- **`++`** passes the entry. -/
theorem Represents.increment (h : Represents w tagged s) (hi : w.iterator i = .ok it) (hslot : it.atSlot = true) :
    ∃ w', w.step (.increment i) = .ok (w', .done) ∧ w'.data = w.data ∧ Simulates s (.increment i) .done w' := by
  obtain ⟨c, hc, hfollows⟩ := h.exists_iteration hi
  obtain ⟨n, heq, hnext⟩ := internalIncrement_spec h.holds it.index
  have hstep : w.step (.increment i) = .ok
      ({ w with iterators := w.iterators.set i (some { index := n, atSlot := false }) }, .done) := by
    rw [step, hi]
    simp only [ok_bind, heq]
    rfl
  cases hfollows with
  | ended _ _ hended =>
    exact ⟨_, hstep, rfl, _, tagged, s, .increment i, .advanceEnded i c hc hended, h.set_ended hc hended _⟩
  | «at» _ _ i' hended hat =>
    have hvisiting : c.visiting = true := hat.atSlot_eq.symm.trans hslot
    obtain ⟨t, ht, htag⟩ := hat.entry hvisiting
    have hlt := (List.getElem?_eq_some_iff.1 ht).1
    have hindex := hat.index_eq
    have hle := hnext.index_le
    have hstart := hnext.start_le
    rw [List.length_map] at hle
    refine ⟨_, hstep, rfl, _, tagged, _, .increment i, .advance i c hc hended hvisiting,
      h.set_iterator i (.at _ _ n hended ⟨rfl, by omega, ?_, rfl, fun j t' ht' hlive => ?_, nofun⟩)⟩
    · have := h.lt_next t (List.mem_of_getElem? ht)
      show c.position + 1 ≤ s.next
      omega
    · have horder := tag_le_iff h.sorted ht' ht
      show c.position + 1 ≤ t'.1 ↔ n ≤ j
      constructor
      · intro hpos
        by_contra hnot
        have hij : ¬ j ≤ i' := fun hji => absurd (horder.2 hji) (by omega)
        have hdead := hnext.dead j t'.2 (by omega) (by omega) (by rw [List.getElem?_map, ht']; rfl)
        rw [hdead] at hlive
        cases hlive
      · intro hnj
        by_contra hnot
        have := horder.1 (by omega)
        omega

/-! ## Changing the map -/

theorem Extends.set (ht : tagged[i]? = some t) {e : MapEntry} (hlive : e.key.isSome → t.2.key.isSome) :
    Extends tagged next (tagged.set i (t.1, e)) where
  length_le := by rw [List.length_set]
  kept := by
    intro j t' ht'
    by_cases hij : i = j
    · subst hij
      obtain rfl := Option.some.inj (ht.symm.trans ht')
      exact ⟨_, List.getElem?_set_self (List.getElem?_eq_some_iff.1 ht).1, rfl⟩
    · exact ⟨t', by rw [List.getElem?_set_ne hij, ht'], rfl⟩
  live := by
    intro j t' _ ht' hlive'
    by_cases hij : i = j
    · subst hij
      rw [List.getElem?_set_self (List.getElem?_eq_some_iff.1 ht).1] at ht'
      obtain rfl := Option.some.inj ht'
      exact ⟨t, ht, rfl, hlive hlive'⟩
    · rw [List.getElem?_set_ne hij] at ht'
      exact ⟨t', ht', rfl, hlive'⟩
  new := by
    intro j t' hle ht'
    have := (List.getElem?_eq_some_iff.1 ht').1
    rw [List.length_set] at this
    omega

theorem Extends.append (e : MapEntry) : Extends tagged next (tagged ++ [(next, e)]) where
  length_le := by rw [List.length_append]; exact Nat.le_add_right _ _
  kept := fun j t ht => ⟨t, by rw [List.getElem?_append_left (List.getElem?_eq_some_iff.1 ht).1, ht], rfl⟩
  live := by
    intro j t' hj ht' hlive
    rw [List.getElem?_append_left hj] at ht'
    exact ⟨t', ht', rfl, hlive⟩
  new := by
    intro j t' hle ht'
    rw [List.getElem?_append_right hle] at ht'
    rw [List.mem_singleton.1 (List.mem_of_getElem? ht')]

theorem map_fst_set (ht : tagged[i]? = some t) (e : MapEntry) :
    (tagged.set i (t.1, e)).map Prod.fst = tagged.map Prod.fst := by
  obtain ⟨hi, rfl⟩ := List.getElem?_eq_some_iff.1 ht
  rw [List.map_set]
  have hi' : i < (tagged.map Prod.fst).length := by rwa [List.length_map]
  have hget : (tagged.map Prod.fst)[i] = tagged[i].1 := List.getElem_map Prod.fst
  rw [← hget, List.set_getElem_self hi']

/-- The number of a written entry. -/
theorem exists_tagged (he : (tagged.map Prod.snd)[i]? = some e) : ∃ n, tagged[i]? = some (n, e) := by
  rw [List.getElem?_map] at he
  obtain ⟨⟨n, e⟩, ht, rfl⟩ := Option.map_eq_some_iff.1 he
  exact ⟨n, ht⟩

theorem Represents.value_isSome (h : Represents w tagged s) (ht : tagged[i]? = some t) (hlive : t.2.key.isSome) :
    t.2.value.isSome :=
  h.holds.value_isSome t.2 (List.mem_map_of_mem (List.mem_of_getElem? ht)) hlive

theorem Represents.hasKey_iff (h : Represents w tagged s) (key : MapValue) :
    s.HasKey key ↔ key ∈ liveKeys (tagged.map Prod.snd) := by
  rw [IteratedMap.HasKey, h.entries_eq]
  exact exists_key_iff h.holds.value_isSome

theorem Tracks.set_entry (h : Tracks iterators tagged s) (ht : tagged[i]? = some t) {e : MapEntry}
    (hlive : e.key.isSome → t.2.key.isSome) {entries : List (Nat × MapValue × MapValue)}
    (hentries : entries = numbered (tagged.set i (t.1, e))) :
    Tracks iterators (tagged.set i (t.1, e)) { s with entries } := by
  refine h.extend (by rw [map_fst_set ht]; exact h.sorted) (fun t' ht' => ?_) hentries (Extends.set ht hlive) le_rfl
  obtain ht' | rfl := List.mem_or_eq_of_mem_set ht'
  · exact h.lt_next t' ht'
  · exact h.lt_next t (List.mem_of_getElem? ht)

theorem Tracks.append_entry (h : Tracks iterators tagged s) {e : MapEntry} {k v : MapValue} (hk : e.key = some k)
    (hv : e.value = some v) :
    Tracks iterators (tagged ++ [(s.next, e)])
      { s with entries := s.entries ++ [(s.next, k, v)], next := s.next + 1 } := by
  refine h.extend ?_ (fun t ht => ?_) ?_ (.append e) (Nat.le_succ _)
  · rw [List.map_append]
    refine List.pairwise_append.2 ⟨h.sorted, List.pairwise_singleton _ _, fun n hn m hm => ?_⟩
    obtain ⟨t, ht, rfl⟩ := List.mem_map.1 hn
    rw [List.mem_singleton.1 hm]
    exact h.lt_next t ht
  · obtain ht | ht := List.mem_append.1 ht
    · exact (h.lt_next t ht).trans (Nat.lt_succ_self _)
    · rw [List.mem_singleton.1 ht]
      exact Nat.lt_succ_self _
  · rw [numbered_append, h.entries_eq, numbered_cons (t := (s.next, e)) hk hv]
    rfl

theorem Tracks.pack (h : Tracks iterators tagged s) (hnone : iterators.countP Option.isSome = 0) :
    Tracks iterators (tagged.filter fun t => t.2.key.isSome) s where
  sorted := h.sorted.sublist (List.filter_sublist.map _)
  lt_next := fun t ht => h.lt_next t (List.mem_filter.1 ht).1
  entries_eq := by rw [numbered_live]; exact h.entries_eq
  length_eq := h.length_eq
  follows := by
    intro i o o' ho ho'
    have hdead := List.countP_eq_zero.1 hnone o (List.mem_of_getElem? ho)
    cases h.follows i o o' ho ho' with
    | destroyed => exact .destroyed
    | ended it c _ => exact absurd rfl hdead
    | «at» it c _ _ _ => exact absurd rfl hdead

/-! ## Steps -/

/-- The tables are right after the step, and the iterator is live, and at an entry for `++`. -/
def DataOk (w : Iterated) : Op → Prop
  | .set memory key value => w.data.StepOk (.set memory key value)
  | .copyBackingStore => w.data.StepOk .copyBackingStore
  | .copy i | .ensureSlot i | .destroy i => ∃ it, w.iterator i = .ok it
  | .increment i => ∃ it, w.iterator i = .ok it ∧ it.atSlot = true
  | .create | .remove _ => True

/-- The step does not move the store, or there is no deleted entry, or `m_iteratorCount` is not 0. -/
def KeepsStore (w : Iterated) : Op → Prop
  | .set memory key _ =>
    (w.data.findIndex key.keyType).isSome ∨ w.data.size < w.data.capacity ∨ memory = false ∨ w.data.shouldPack = false
  | .copyBackingStore => w.data.capacity = 0 ∨ w.data.shouldPack = false
  | _ => True

/-- **When a step is good for the iterators.** -/
def StepOk (w : Iterated) (operation : Op) : Prop := w.DataOk operation ∧ (0 < w.live → w.KeepsStore operation)

theorem shouldPack_ne_zero (h : d.shouldPack = true) : d.deletedCount ≠ 0 := by
  rw [shouldPack, Bool.and_eq_true] at h
  exact of_decide_eq_true h.1

theorem deletedCount_packed {used' : List MapEntry} (h : Holds d (MapData.live used ++ used'))
    (hlive : ∀ e ∈ used', e.key.isSome) : d.deletedCount = 0 := by
  rw [h.deletedCount_eq, List.countP_eq_zero]
  intro e he
  have hsome : e.key.isSome = true := by
    obtain he | he := List.mem_append.1 he
    · simpa using (List.mem_filter.1 he).2
    · exact hlive e he
  rw [Option.isNone_eq_false_iff.2 hsome]
  exact Bool.false_ne_true

/-- **`set`** -/
theorem Represents.set (h : Represents w tagged s) {memory : Bool} (hok : w.data.StepOk (.set memory key value)) :
    ∃ w' answer, w.step (.set memory key value) = .ok (w', answer) ∧
      (w.KeepsStore (.set memory key value) ↔ w.data.deletedCount ≤ w'.data.deletedCount) ∧
      ((0 < w.live → w.KeepsStore (.set memory key value)) → Simulates s (.set memory key value) answer w') := by
  obtain ⟨r, heq, heffect⟩ := set_effect h.holds hok
  have hstep : w.step (.set memory key value) =
      .ok ({ w with data := r.1 }, if r.2 then .done else .outOfMemory) := by
    rw [step, heq]
    rfl
  have hnone : key.keyType ∉ liveKeys (tagged.map Prod.snd) → w.data.findIndex key.keyType = none :=
    h.holds.findIndex_eq_none.2
  refine ⟨_, _, hstep, ?_, ?_⟩
  · cases heffect with
    | replaced i e d' he hkey hfind hholds =>
      have hi := (List.getElem?_eq_some_iff.1 he).1
      obtain ⟨_, hget⟩ := List.getElem?_eq_some_iff.1 he
      have hcount : d'.deletedCount = w.data.deletedCount := by
        rw [hholds.deletedCount_eq, h.holds.deletedCount_eq, List.countP_set hi, hget, hkey]
        simp
      exact iff_of_true (.inl (by rw [hfind]; rfl)) hcount.ge
    | outOfMemory _ hmemory => exact iff_of_true (.inr (.inr (.inl hmemory))) le_rfl
    | appended d' _ hkept hholds =>
      have hcount : d'.deletedCount = w.data.deletedCount := by
        rw [hholds.deletedCount_eq, h.holds.deletedCount_eq, List.countP_append]
        simp
      exact iff_of_true (.inr (hkept.imp_right .inr)) hcount.ge
    | packed d' hnot hroom hmemory hpack hholds =>
      have hzero := deletedCount_packed hholds fun e he => by rw [List.mem_singleton.1 he]; rfl
      have hpos := shouldPack_ne_zero hpack
      refine iff_of_false ?_ (by show ¬ w.data.deletedCount ≤ d'.deletedCount; omega)
      rintro (hfind | hroom' | hmemory' | hpack')
      · rw [hnone hnot] at hfind
        cases hfind
      · exact hroom hroom'
      · rw [hmemory] at hmemory'
        cases hmemory'
      · rw [hpack] at hpack'
        cases hpack'
  · intro hkeeps
    cases heffect with
    | replaced i e d' he hkey _ hholds =>
      obtain ⟨n, ht⟩ := exists_tagged he
      have hnumbered := numbered_replace h.holds.keys_nodup ht hkey (h.value_isSome ht (by rw [hkey]; rfl)) value
      have htracks : Tracks w.iterators (tagged.set i (n, { e with value := some value }))
          { s with entries := IteratedMap.replace key.keyType value s.entries } :=
        h.toTracks.set_entry (e := { e with value := some value }) ht id (by rw [h.entries_eq, hnumbered])
      refine ⟨_, _, _, .set memory key value,
        .replace _ _ ((h.hasKey_iff _).2 (mem_liveKeys.2 ⟨i, e, he, hkey⟩)), ⟨htracks, ?_⟩⟩
      rw [List.map_set]
      exact hholds
    | outOfMemory _ hmemory =>
      obtain rfl := hmemory
      exact ⟨_, tagged, s, .outOfMemory key value, .skip, h⟩
    | appended d' hnot _ hholds =>
      refine ⟨_, _, _, .set memory key value, .insert _ _ fun hhas => hnot ((h.hasKey_iff _).1 hhas),
        ⟨h.toTracks.append_entry (e := { key := some key.keyType, value := some value }) rfl rfl, ?_⟩⟩
      rw [List.map_append]
      exact hholds
    | packed d' hnot hroom hmemory hpack hholds =>
      have hlive : w.live = 0 := by
        by_contra hne
        obtain hfind | hroom' | hmemory' | hpack' := hkeeps (Nat.pos_of_ne_zero hne)
        · rw [hnone hnot] at hfind
          cases hfind
        · exact hroom hroom'
        · rw [hmemory] at hmemory'
          cases hmemory'
        · rw [hpack] at hpack'
          cases hpack'
      refine ⟨_, _, _, .set memory key value, .insert _ _ fun hhas => hnot ((h.hasKey_iff _).1 hhas),
        ⟨(h.toTracks.pack hlive).append_entry (e := { key := some key.keyType, value := some value }) rfl rfl, ?_⟩⟩
      rw [List.map_append, map_snd_live]
      exact hholds

/-- **`remove`** -/
theorem Represents.remove (h : Represents w tagged s) (key : MapValue) :
    ∃ w', w.step (.remove key) = .ok (w', .done) ∧ w.data.deletedCount ≤ w'.data.deletedCount ∧
      Simulates s (.remove key) .done w' := by
  by_cases hmem : key.keyType ∈ liveKeys (tagged.map Prod.snd)
  · obtain ⟨i, e, he, hkey⟩ := mem_liveKeys.1 hmem
    obtain ⟨n, ht⟩ := exists_tagged he
    have hnumbered := numbered_clear h.holds.keys_nodup ht hkey (h.value_isSome ht (by rw [hkey]; rfl))
    have hstep : w.step (.remove key) = .ok ({ w with data := { w.data.removeIndex key.keyType with
        entries := w.data.entries.set i (some cleared), deletedCount := w.data.deletedCount + 1 } }, .done) := by
      rw [step, remove_of_mem h.holds he hkey]
      rfl
    have htracks : Tracks w.iterators (tagged.set i (n, cleared))
        { s with entries := IteratedMap.erase key.keyType s.entries } :=
      h.toTracks.set_entry (e := cleared) ht (fun hlive => absurd hlive Bool.false_ne_true)
        (by rw [h.entries_eq, hnumbered])
    refine ⟨_, hstep, Nat.le_succ _, _, _, _, .remove key, .remove _, ⟨htracks, ?_⟩⟩
    rw [List.map_set]
    exact h.holds.clearEntry he hkey
  · have herase : IteratedMap.erase key.keyType s.entries = s.entries := by
      refine List.filter_eq_self.2 fun e he => decide_eq_true ?_
      rintro hkey
      exact hmem ((h.hasKey_iff _).1 ⟨e, he, hkey⟩)
    have hstep : IteratedMap.Step s (.remove key.keyType) s := by
      have := IteratedMap.Step.remove (s := s) key.keyType
      rwa [herase] at this
    exact ⟨w, by rw [step, remove_of_not_mem h.holds hmem]; rfl, le_rfl, _, tagged, s, .remove key, hstep, h⟩

/-- **The garbage collector moves the storage.** -/
theorem Represents.copyBackingStore (h : Represents w tagged s) (hok : w.data.StepOk .copyBackingStore) :
    ∃ w', w.step .copyBackingStore = .ok (w', .done) ∧
      (w.KeepsStore .copyBackingStore ↔ w.data.deletedCount ≤ w'.data.deletedCount) ∧
      ((0 < w.live → w.KeepsStore .copyBackingStore) → Simulates s .copyBackingStore .done w') := by
  obtain ⟨d', heq, heffect⟩ := copyBackingStore_effect h.holds hok
  have hstep : w.step .copyBackingStore = .ok ({ w with data := d' }, .done) := by
    rw [step, heq]
    rfl
  refine ⟨_, hstep, ?_, fun hkeeps => ?_⟩
  · cases heffect with
    | kept hkept hholds =>
      refine iff_of_true hkept ?_
      show w.data.deletedCount ≤ d'.deletedCount
      rw [hholds.deletedCount_eq, h.holds.deletedCount_eq]
    | packed hcapacity hpack hholds =>
      rw [← List.append_nil (MapData.live _)] at hholds
      have hzero := deletedCount_packed hholds nofun
      have hpos := shouldPack_ne_zero hpack
      refine iff_of_false ?_ (by show ¬ w.data.deletedCount ≤ d'.deletedCount; omega)
      rintro (hzero | hpack')
      · exact hcapacity hzero
      · rw [hpack] at hpack'
        cases hpack'
  · cases heffect with
    | kept _ hholds => exact ⟨_, tagged, s, .copyBackingStore, .skip, ⟨h.toTracks, hholds⟩⟩
    | packed hcapacity hpack hholds =>
      have hlive : w.live = 0 := by
        by_contra hne
        obtain hzero | hpack' := hkeeps (Nat.pos_of_ne_zero hne)
        · exact hcapacity hzero
        · rw [hpack] at hpack'
          cases hpack'
      refine ⟨_, _, s, .copyBackingStore, .skip, ⟨h.toTracks.pack hlive, ?_⟩⟩
      rw [map_snd_live]
      exact hholds

theorem Represents.destroy (h : Represents w tagged s) (hi : w.iterator i = .ok it) :
    ∃ w', w.step (.destroy i) = .ok (w', .done) ∧ w'.data.deletedCount = w.data.deletedCount ∧
      Simulates s (.destroy i) .done w' := by
  obtain ⟨c, hc, -⟩ := h.exists_iteration hi
  have hstep : w.step (.destroy i) =
      .ok ({ data := w.data.destroyIterator, iterators := w.iterators.set i none }, .done) := by
    rw [step, hi]
    rfl
  have hd := h.holds
  refine ⟨_, hstep, rfl, _, tagged, _, .destroy i, .destroy i c hc, (h.set_iterator i .destroyed).toTracks, ?_⟩
  exact ⟨⟨hd.cells, hd.strings, hd.values⟩, hd.entries_eq, hd.size_eq, hd.size_le, hd.deletedCount_eq, hd.keys_nodup,
    hd.value_isSome⟩

/-- **One step.** -/
theorem step_represents (h : Represents w tagged s) {operation : Op} (hok : w.DataOk operation) :
    ∃ w' answer, w.step operation = .ok (w', answer) ∧
      (w.KeepsStore operation ↔ w.data.deletedCount ≤ w'.data.deletedCount) ∧
      ((0 < w.live → w.KeepsStore operation) → Simulates s operation answer w') := by
  cases operation with
  | create =>
    obtain ⟨index, heq, hrep⟩ := h.create
    have hstep : w.step .create =
        .ok ({ w with iterators := w.iterators ++ [some { index, atSlot := false }] }, .done) := by
      rw [step, heq]
      rfl
    exact ⟨_, _, hstep, iff_of_true trivial le_rfl, fun _ => ⟨_, tagged, _, .create, .create, hrep⟩⟩
  | copy i =>
    obtain ⟨it, hi⟩ := hok
    obtain ⟨c, hc, hfollows⟩ := h.exists_iteration hi
    have hstep : w.step (.copy i) = .ok ({ w with iterators := w.iterators ++ [some it] }, .done) := by
      rw [step, hi]
      rfl
    exact ⟨_, _, hstep, iff_of_true trivial le_rfl,
      fun _ => ⟨_, tagged, _, .copy i, .copy i c hc, h.append_iterator hfollows⟩⟩
  | ensureSlot i =>
    obtain ⟨it, hi⟩ := hok
    obtain ⟨w', answer, hstep, hdata, hsim⟩ := h.ensureSlot hi
    exact ⟨w', _, hstep, iff_of_true trivial (by rw [hdata]), fun _ => hsim⟩
  | increment i =>
    obtain ⟨it, hi, hslot⟩ := hok
    obtain ⟨w', hstep, hdata, hsim⟩ := h.increment hi hslot
    exact ⟨w', _, hstep, iff_of_true trivial (by rw [hdata]), fun _ => hsim⟩
  | destroy i =>
    obtain ⟨it, hi⟩ := hok
    obtain ⟨w', hstep, hcount, hsim⟩ := h.destroy hi
    exact ⟨w', _, hstep, iff_of_true trivial hcount.ge, fun _ => hsim⟩
  | set memory key value => exact h.set hok
  | remove key =>
    obtain ⟨w', hstep, hle, hsim⟩ := h.remove key
    exact ⟨w', _, hstep, iff_of_true trivial hle, fun _ => hsim⟩
  | copyBackingStore =>
    obtain ⟨w', hstep, hiff, hsim⟩ := h.copyBackingStore hok
    exact ⟨w', _, hstep, hiff, hsim⟩

/-! ## Runs -/

/-- The runs whose steps are good for the iterators. -/
def Runs : Iterated → List (Op × OpAnswer) → Iterated → Prop := Run (Guarded (fun w a => w.StepOk a.1) Steps)

theorem represents_of_run {as : List (Op × OpAnswer)} (hrun : Runs w as w') :
    ∀ {tagged : List (Nat × MapEntry)} {s : IteratedMap MapValue MapValue}, Represents w tagged s →
      ∃ events tagged' s', List.Forall₂ Answers as events ∧ Run IteratedMap.Step s events s' ∧
        Represents w' tagged' s' := by
  induction hrun with
  | nil w => exact fun {tagged s} h => ⟨[], tagged, s, .nil, .nil s, h⟩
  | cons hstep _ ih =>
    intro tagged s h
    obtain ⟨⟨hdata, hkeeps⟩, hstep⟩ := hstep
    obtain ⟨w₁, answer, heq, -, hsim⟩ := step_represents h hdata
    rw [Steps, heq] at hstep
    cases hstep
    obtain ⟨event, tagged₁, s₁, hanswer, hspec, hrep⟩ := hsim hkeeps
    obtain ⟨events, tagged', s', hanswers, hrun', hrep'⟩ := ih hrep
    exact ⟨event :: events, tagged', s', .cons hanswer hanswers, .cons hspec hrun', hrep'⟩

/-- The map after a step that gives this answer. -/
def stepAnswering (w : Iterated) (a : Op × OpAnswer) : Option Iterated :=
  match w.step a.1 with
  | .ok (w', answer) => if answer = a.2 then some w' else none
  | .error _ => none

theorem steps_of_via (h : Via stepAnswering w a w') : Steps w a w' := by
  rw [Via, stepAnswering.eq_def] at h
  rw [Steps]
  split at h
  case h_1 w₁ answer hstep =>
    obtain ⟨rfl, rfl⟩ : answer = a.2 ∧ w₁ = w' := by simpa using h
    exact hstep
  case h_2 => cases h

/-- An iteration of one entry. -/
def oneAnswers : List (Op × OpAnswer) :=
  [(.set true (.int32 1) .null, .done), (.create, .done), (.ensureSlot 0, .slot (some (some (.int32 1), some .null)))]

/-- An iterator visits 1, which is then removed. The collector packs 2 and 3, and the iterator goes on with 3. -/
def skippingAnswers : List (Op × OpAnswer) :=
  [(.set true (.int32 1) .null, .done), (.set true (.int32 2) .null, .done), (.set true (.int32 3) .null, .done),
    (.create, .done), (.ensureSlot 0, .slot (some (some (.int32 1), some .null))), (.increment 0, .done),
    (.remove (.int32 1), .done), (.copyBackingStore, .done),
    (.ensureSlot 0, .slot (some (some (.int32 3), some .null)))]

end Iterated

end MapData

end WebKit.JSC
