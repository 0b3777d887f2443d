import WebKit.WebCore.IDBLevelDBCompare

/-!
# The two comparisons of index keys

`compare<IndexDataKey>` compares slices in place, and `IndexDataKey::compare` compares decoded keys, in which the fields
that are left out have a default. A `RawKey` is what `extractEncodedIDBKey` takes for an encoded key (`skip_rawKey`), and
comparing two of them does not depend on what follows (`RawKey.compares`). So both comparisons compare the same encoded
keys, and they agree unless a key without a primary key meets one with the same index key and the sequence numbers or the
minimum key are to decide (`compareIndexDataKeys_agrees_iff`).
-/

namespace WebKit.WebCore.IDBLevelDBCoding

open WebKit.Lib WebKit.WTF

/-- `IndexDataKey::compare`. -/
def IndexDataKey.compare (key other : IndexDataKey) (ignoreDuplicates : Bool) : Except Failure Int :=
  match compareEncodedIDBKeys key.encodedUserKey other.encodedUserKey with
  | .error failure => .error failure
  | .ok (result, _, _) =>
    if result ≠ 0 then .ok result
    else if ignoreDuplicates then .ok 0
    else
      match compareEncodedIDBKeys key.encodedPrimaryKey other.encodedPrimaryKey with
      | .error failure => .error failure
      | .ok (result, _, _) =>
        if result ≠ 0 then .ok result else .ok (compareInts key.sequenceNumber other.sequenceNumber)

/-! ## What is taken for an encoded key -/

/-- The bytes that `extractEncodedIDBKey` takes. A type byte that it does not know is a key of its own. -/
inductive RawKey : Bytes → Prop
  | leaf (type : UInt8) (harray : type ≠ IDBKeyArrayTypeByte) (hstring : type ≠ IDBKeyStringTypeByte)
    (hdate : type ≠ IDBKeyDateTypeByte) (hnumber : type ≠ IDBKeyNumberTypeByte) : RawKey [type]
  | array (length : Int64) (code : Bytes) (items : List Bytes)
    (hcode : ∀ rest, decodeVarInt (code ++ rest) = some (length, rest)) (hlength : ¬length < 0)
    (hitems : items.length = length.toInt.toNat) (hkeys : ∀ item ∈ items, RawKey item) :
    RawKey (IDBKeyArrayTypeByte :: (code ++ items.flatten))
  | string (length : Int64) (code text : Bytes)
    (hcode : ∀ rest, decodeVarInt (code ++ rest) = some (length, rest)) (hlength : ¬length < 0)
    (htext : text.length = length.toInt.toNat * 2) : RawKey (IDBKeyStringTypeByte :: (code ++ text))
  | double (type : UInt8) (htype : type = IDBKeyDateTypeByte ∨ type = IDBKeyNumberTypeByte) (value : Bytes)
    (hvalue : value.length = 8) : RawKey (type :: value)

/-- A number is read without looking at what follows. -/
theorem decodeVarIntFrom_frame {foundInt shift n : Nat} {start rest : Bytes}
    (h : decodeVarIntFrom foundInt shift start = some (n, rest)) :
    ∃ code, start = code ++ rest ∧ ∀ other, decodeVarIntFrom foundInt shift (code ++ other) = some (n, other) := by
  induction start generalizing foundInt shift with
  | nil => cases h
  | cons c start ih =>
    rw [decodeVarIntFrom] at h
    by_cases hlast : c.toNat < 128
    · rw [if_pos hlast] at h
      simp only [Option.some.injEq, Prod.mk.injEq] at h
      obtain ⟨rfl, rfl⟩ := h
      refine ⟨[c], rfl, fun other => ?_⟩
      rw [List.singleton_append, decodeVarIntFrom]
      simp only [if_pos hlast]
    · rw [if_neg hlast] at h
      obtain ⟨code, rfl, hcode⟩ := ih h
      refine ⟨c :: code, rfl, fun other => ?_⟩
      rw [List.cons_append, decodeVarIntFrom]
      simp only [if_neg hlast, hcode]

theorem decodeVarInt_frame {n : Int64} {start rest : Bytes} (h : decodeVarInt start = some (n, rest)) :
    ∃ code, start = code ++ rest ∧ ∀ other, decodeVarInt (code ++ other) = some (n, other) := by
  rw [decodeVarInt, Option.map_eq_some_iff] at h
  obtain ⟨⟨m, left⟩, hfrom, heq⟩ := h
  simp only [Prod.mk.injEq] at heq
  obtain ⟨rfl, rfl⟩ := heq
  obtain ⟨code, rfl, hcode⟩ := decodeVarIntFrom_frame hfrom
  refine ⟨code, rfl, fun other => ?_⟩
  rw [decodeVarInt, hcode, Option.map_some]

theorem skipItems_rawKeys {skipItem : Bytes → Option Bytes}
    (hskip : ∀ start rest, skipItem start = some rest → ∃ key, RawKey key ∧ start = key ++ rest) {length : Nat}
    {start rest : Bytes} (h : skipItems skipItem length start = some rest) :
    ∃ items : List Bytes, items.length = length ∧ (∀ item ∈ items, RawKey item) ∧ start = items.flatten ++ rest := by
  induction length generalizing start with
  | zero =>
    cases h
    exact ⟨[], rfl, fun item hmem => absurd hmem List.not_mem_nil, rfl⟩
  | succ length ih =>
    rw [skipItems, Option.bind_eq_bind, Option.bind_eq_some_iff] at h
    obtain ⟨left, hfirst, hmore⟩ := h
    obtain ⟨key, hkey, rfl⟩ := hskip _ _ hfirst
    obtain ⟨items, hlength, hitems, rfl⟩ := ih hmore
    refine ⟨key :: items, congrArg Nat.succ hlength, ?_, (List.append_assoc _ _ _).symm⟩
    rw [List.forall_mem_cons]
    exact ⟨hkey, hitems⟩

/-- **What is skipped is an encoded key**, by induction on the depth. -/
theorem skip_rawKey {depth : Nat} {start rest : Bytes} (h : skipIDBKeyWithin depth start = some rest) :
    ∃ key, RawKey key ∧ start = key ++ rest := by
  induction depth generalizing start rest with
  | zero => cases h
  | succ depth ih =>
    cases start with
    | nil => cases h
    | cons type p =>
      rw [skipIDBKeyWithin] at h
      split at h
      · rename_i htype
        cases h
        refine ⟨[type], ?_, rfl⟩
        rcases htype with rfl | rfl
        · exact .leaf _ (by decide) (by decide) (by decide) (by decide)
        · exact .leaf _ (by decide) (by decide) (by decide) (by decide)
      split at h
      · rename_i htype
        subst htype
        rw [Option.bind_eq_bind, Option.bind_eq_some_iff] at h
        obtain ⟨⟨length, left⟩, hlength, h⟩ := h
        obtain ⟨code, rfl, hcode⟩ := decodeVarInt_frame hlength
        simp only at h
        split at h
        · cases h
        · rename_i hneg
          obtain ⟨items, hitems, hkeys, rfl⟩ := skipItems_rawKeys (fun _ _ => ih) h
          refine ⟨_, .array length code items hcode hneg hitems hkeys, ?_⟩
          rw [List.cons_append, List.append_assoc]
      split at h
      · rename_i htype
        subst htype
        rw [Option.bind_eq_bind, Option.bind_eq_some_iff] at h
        obtain ⟨⟨length, left⟩, hlength, h⟩ := h
        obtain ⟨code, rfl, hcode⟩ := decodeVarInt_frame hlength
        simp only at h
        split at h
        · cases h
        · rename_i hfits
          cases h
          rw [not_or, Nat.not_lt] at hfits
          refine ⟨_, .string length code (left.take (length.toInt.toNat * 2)) hcode hfits.1
            (List.length_take_of_le hfits.2), ?_⟩
          rw [List.cons_append, List.append_assoc, List.take_append_drop]
      split at h
      · rename_i htype
        split at h
        · cases h
        · rename_i hlength
          cases h
          refine ⟨type :: p.take 8, .double type htype _ (List.length_take_of_le (Nat.not_lt.1 hlength)), ?_⟩
          rw [List.cons_append, List.take_append_drop]
      · rename_i harray hstring hdouble
        cases h
        rw [not_or] at hdouble
        exact ⟨[type], .leaf type harray hstring hdouble.1 hdouble.2, rfl⟩

theorem extract_rawKey {start key rest : Bytes} (h : extractEncodedIDBKey start = some (key, rest)) :
    RawKey key ∧ start = key ++ rest := by
  rw [extractEncodedIDBKey, Option.map_eq_some_iff] at h
  obtain ⟨left, hskip, heq⟩ := h
  obtain ⟨raw, hraw, rfl⟩ := skip_rawKey hskip
  simp only [Prod.mk.injEq, List.length_append, Nat.add_sub_cancel, List.take_left'] at heq
  obtain ⟨rfl, rfl⟩ := heq
  exact ⟨hraw, rfl⟩

theorem RawKey.eq_minIDBKey {type : UInt8} {key : Bytes} (h : RawKey (type :: key))
    (htype : keyTypeByteToKeyType type = .minType) : type :: key = minIDBKey := by
  have hbyte : type = IDBKeyMinKeyTypeByte := by
    unfold keyTypeByteToKeyType at htype
    split_ifs at htype
    assumption
  subst hbyte
  generalize hkey : IDBKeyMinKeyTypeByte :: key = whole at h
  cases h with
  | leaf type =>
    obtain ⟨rfl, rfl⟩ := List.cons.inj hkey
    rfl
  | array => exact absurd (List.cons.inj hkey).1 (by decide)
  | string => exact absurd (List.cons.inj hkey).1 (by decide)
  | double type htype =>
    rcases htype with rfl | rfl
    · exact absurd (List.cons.inj hkey).1 (by decide)
    · exact absurd (List.cons.inj hkey).1 (by decide)

/-! ## Comparing encoded keys -/

/-- The outcome of a comparison of two keys with bytes behind them. -/
def ComparesTo (compareItem : Bytes → Bytes → Except Failure (Int × Bytes × Bytes)) (keyA keyB : Bytes) (result : Int) :
    Prop :=
  ∀ restA restB, ∃ ptrA ptrB, compareItem (keyA ++ restA) (keyB ++ restB) = .ok (result, ptrA, ptrB) ∧
    (result = 0 → ptrA = restA ∧ ptrB = restB)

theorem compareEncodedItems_compares {ι : Type} {compareItem : ι → Bytes → Bytes → Except Failure (Int × Bytes × Bytes)}
    {itemsA itemsB : List Bytes}
    (h : ∀ keyA ∈ itemsA, ∀ keyB ∈ itemsB, ∃ result, ∀ i, ComparesTo (compareItem i) keyA keyB result) :
    ∃ result, ∀ i restA restB, ∃ ptrA ptrB,
      compareEncodedItems (compareItem i) itemsA.length itemsB.length (itemsA.flatten ++ restA)
        (itemsB.flatten ++ restB) = .ok (result, ptrA, ptrB) ∧ (result = 0 → ptrA = restA ∧ ptrB = restB) := by
  induction itemsA generalizing itemsB with
  | nil =>
    cases itemsB with
    | nil => exact ⟨0, fun i restA restB => ⟨restA, restB, rfl, fun _ => ⟨rfl, rfl⟩⟩⟩
    | cons keyB itemsB => exact ⟨-1, fun i restA restB => ⟨_, _, rfl, fun hz => absurd hz (by decide)⟩⟩
  | cons keyA itemsA ih =>
    cases itemsB with
    | nil => exact ⟨1, fun i restA restB => ⟨_, _, rfl, fun hz => absurd hz (by decide)⟩⟩
    | cons keyB itemsB =>
      obtain ⟨first, hfirst⟩ := h keyA List.mem_cons_self keyB List.mem_cons_self
      obtain ⟨more, hmore⟩ := ih fun a ha b hb => h a (List.mem_cons_of_mem _ ha) b (List.mem_cons_of_mem _ hb)
      by_cases hz : first = 0
      · refine ⟨more, fun i restA restB => ?_⟩
        obtain ⟨ptrA, ptrB, hcompare, hptr⟩ := hfirst i (itemsA.flatten ++ restA) (itemsB.flatten ++ restB)
        obtain ⟨rfl, rfl⟩ := hptr hz
        simp only [List.length_cons, List.flatten_cons, List.append_assoc, compareEncodedItems, hcompare]
        rw [if_neg (not_not.2 hz)]
        exact hmore i restA restB
      · refine ⟨first, fun i restA restB => ?_⟩
        obtain ⟨ptrA, ptrB, hcompare, hptr⟩ := hfirst i (itemsA.flatten ++ restA) (itemsB.flatten ++ restB)
        simp only [List.length_cons, List.flatten_cons, List.append_assoc, compareEncodedItems, hcompare]
        rw [if_pos hz]
        exact ⟨ptrA, ptrB, rfl, fun hf => absurd hf hz⟩

theorem compareWithin_of_type_ne {typeA typeB : UInt8} {keyA keyB : Bytes}
    (h : IDBKey.compareTypes (keyTypeByteToKeyType typeA) (keyTypeByteToKeyType typeB) ≠ 0) (depth : Nat) :
    ComparesTo (compareEncodedIDBKeysWithin (depth + 1)) (typeA :: keyA) (typeB :: keyB)
      (IDBKey.compareTypes (keyTypeByteToKeyType typeA) (keyTypeByteToKeyType typeB)) := by
  intro restA restB
  refine ⟨keyA ++ restA, keyB ++ restB, ?_, fun hz => absurd hz h⟩
  rw [List.cons_append, List.cons_append, compareEncodedIDBKeysWithin]
  exact if_pos h

theorem keyType_eq {typeA typeB : UInt8}
    (h : IDBKey.compareTypes (keyTypeByteToKeyType typeA) (keyTypeByteToKeyType typeB) = 0) :
    keyTypeByteToKeyType typeA = keyTypeByteToKeyType typeB := by
  refine IDBKey.code_injective ?_
  unfold IDBKey.compareTypes at h
  omega

theorem keyTypeByte_injective (type : UInt8) :
    (keyTypeByteToKeyType type = .arrayType → type = IDBKeyArrayTypeByte) ∧
      (keyTypeByteToKeyType type = .stringType → type = IDBKeyStringTypeByte) ∧
      (keyTypeByteToKeyType type = .dateType → type = IDBKeyDateTypeByte) ∧
      (keyTypeByteToKeyType type = .numberType → type = IDBKeyNumberTypeByte) := by
  unfold keyTypeByteToKeyType
  split_ifs <;> simp [*]

theorem RawKey.exists_cons {key : Bytes} (h : RawKey key) : ∃ type tail, key = type :: tail := by
  cases h <;> exact ⟨_, _, rfl⟩

theorem RawKey.eq_leaf {typeA typeB : UInt8} {tail : Bytes} (h : RawKey (typeB :: tail))
    (htype : keyTypeByteToKeyType typeA = keyTypeByteToKeyType typeB) (harray : typeA ≠ IDBKeyArrayTypeByte)
    (hstring : typeA ≠ IDBKeyStringTypeByte) (hdate : typeA ≠ IDBKeyDateTypeByte)
    (hnumber : typeA ≠ IDBKeyNumberTypeByte) : tail = [] := by
  obtain ⟨h₁, h₂, h₃, h₄⟩ := keyTypeByte_injective typeA
  cases h with
  | leaf => rfl
  | array => exact absurd (h₁ (htype.trans (by decide))) harray
  | string => exact absurd (h₂ (htype.trans (by decide))) hstring
  | double type htypeB =>
    rcases htypeB with rfl | rfl
    · exact absurd (h₃ (htype.trans (by decide))) hdate
    · exact absurd (h₄ (htype.trans (by decide))) hnumber

theorem RawKey.eq_array {typeB : UInt8} {tail : Bytes} (h : RawKey (typeB :: tail))
    (htype : keyTypeByteToKeyType IDBKeyArrayTypeByte = keyTypeByteToKeyType typeB) :
    ∃ (length : Int64) (code : Bytes) (items : List Bytes), typeB = IDBKeyArrayTypeByte ∧
      tail = code ++ items.flatten ∧ (∀ rest, decodeVarInt (code ++ rest) = some (length, rest)) ∧ ¬length < 0 ∧
      items.length = length.toInt.toNat ∧ ∀ item ∈ items, RawKey item := by
  cases h with
  | leaf type harray => exact absurd ((keyTypeByte_injective _).1 (htype.symm.trans (by decide))) harray
  | array length code items hcode hlength hitems hkeys =>
    exact ⟨length, code, items, rfl, rfl, hcode, hlength, hitems, hkeys⟩
  | string => exact absurd htype (by decide)
  | double type htypeB =>
    rcases htypeB with rfl | rfl
    · exact absurd htype (by decide)
    · exact absurd htype (by decide)

theorem RawKey.eq_string {typeB : UInt8} {tail : Bytes} (h : RawKey (typeB :: tail))
    (htype : keyTypeByteToKeyType IDBKeyStringTypeByte = keyTypeByteToKeyType typeB) :
    ∃ (length : Int64) (code text : Bytes), typeB = IDBKeyStringTypeByte ∧ tail = code ++ text ∧
      (∀ rest, decodeVarInt (code ++ rest) = some (length, rest)) ∧ ¬length < 0 ∧
      text.length = length.toInt.toNat * 2 := by
  cases h with
  | leaf type _ hstring => exact absurd ((keyTypeByte_injective _).2.1 (htype.symm.trans (by decide))) hstring
  | array => exact absurd htype (by decide)
  | string length code text hcode hlength htext => exact ⟨length, code, text, rfl, rfl, hcode, hlength, htext⟩
  | double type htypeB =>
    rcases htypeB with rfl | rfl
    · exact absurd htype (by decide)
    · exact absurd htype (by decide)

theorem RawKey.eq_double {typeA typeB : UInt8} {tail : Bytes} (h : RawKey (typeB :: tail))
    (hdouble : typeA = IDBKeyDateTypeByte ∨ typeA = IDBKeyNumberTypeByte)
    (htype : keyTypeByteToKeyType typeA = keyTypeByteToKeyType typeB) : tail.length = 8 := by
  obtain ⟨-, -, h₃, h₄⟩ := keyTypeByte_injective typeB
  cases h with
  | leaf type _ _ hdate hnumber =>
    rcases hdouble with rfl | rfl
    · exact absurd (h₃ (htype.symm.trans (by decide))) hdate
    · exact absurd (h₄ (htype.symm.trans (by decide))) hnumber
  | array =>
    rcases hdouble with rfl | rfl
    · exact absurd htype (by decide)
    · exact absurd htype (by decide)
  | string =>
    rcases hdouble with rfl | rfl
    · exact absurd htype (by decide)
    · exact absurd htype (by decide)
  | double type htypeB value hvalue => exact hvalue

theorem compareEncodedStrings_compares {lengthA lengthB : Int64} {codeA codeB textA textB : Bytes}
    (hcodeA : ∀ rest, decodeVarInt (codeA ++ rest) = some (lengthA, rest))
    (hcodeB : ∀ rest, decodeVarInt (codeB ++ rest) = some (lengthB, rest)) (hA : ¬lengthA < 0) (hB : ¬lengthB < 0)
    (htextA : textA.length = lengthA.toInt.toNat * 2) (htextB : textB.length = lengthB.toInt.toNat * 2) :
    ∃ result, ComparesTo compareEncodedStringsWithLength (codeA ++ textA) (codeB ++ textB) result := by
  have hmin : (if lengthA < lengthB then lengthA else lengthB).toInt.toNat ≤ lengthA.toInt.toNat ∧
      (if lengthA < lengthB then lengthA else lengthB).toInt.toNat ≤ lengthB.toInt.toNat := by
    split
    · rename_i hlt
      rw [Int64.lt_iff_toInt_lt] at hlt
      omega
    · rename_i hlt
      rw [Int64.not_lt, Int64.le_iff_toInt_le] at hlt
      omega
  let lmin := (if lengthA < lengthB then lengthA else lengthB).toInt.toNat
  let x := memcmp (textA.take (lmin * 2)) (textB.take (lmin * 2))
  refine ⟨if x ≠ 0 then x else if lengthA = lengthB then 0 else if lengthA > lengthB then 1 else -1,
    fun restA restB => ⟨restA, restB, ?_, fun _ => ⟨rfl, rfl⟩⟩⟩
  rw [compareEncodedStringsWithLength, List.append_assoc, List.append_assoc, hcodeA, hcodeB]
  simp only
  rw [if_neg (not_or.2 ⟨hA, hB⟩), if_neg (by simp only [List.length_append]; omega), List.take_append_of_le_length (by omega),
    List.take_append_of_le_length (by omega), ← htextA, ← htextB, List.drop_left, List.drop_left]

/-- **Comparing two keys does not depend on what follows them**, nor on the depth, if it is enough for the first one. By
induction on the first key. -/
theorem RawKey.compares {keyA : Bytes} (hA : RawKey keyA) : ∀ {keyB : Bytes}, RawKey keyB →
    ∃ result, ∀ depth, keyA.length ≤ depth → ComparesTo (compareEncodedIDBKeysWithin depth) keyA keyB result := by
  -- keys of different types are decided by the types
  have hreduce : ∀ {typeA typeB : UInt8} {tailA tailB : Bytes},
      (keyTypeByteToKeyType typeA = keyTypeByteToKeyType typeB → ∃ result, ∀ depth, tailA.length ≤ depth →
        ComparesTo (compareEncodedIDBKeysWithin (depth + 1)) (typeA :: tailA) (typeB :: tailB) result) →
      ∃ result, ∀ depth, (typeA :: tailA).length ≤ depth →
        ComparesTo (compareEncodedIDBKeysWithin depth) (typeA :: tailA) (typeB :: tailB) result := by
    intro typeA typeB tailA tailB hsame
    have hsucc : ∀ {result}, (∀ depth, tailA.length ≤ depth →
        ComparesTo (compareEncodedIDBKeysWithin (depth + 1)) (typeA :: tailA) (typeB :: tailB) result) →
        ∀ depth, (typeA :: tailA).length ≤ depth →
          ComparesTo (compareEncodedIDBKeysWithin depth) (typeA :: tailA) (typeB :: tailB) result := by
      intro result h depth hdepth
      rw [List.length_cons] at hdepth
      obtain ⟨depth, rfl⟩ : ∃ d, depth = d + 1 := ⟨depth - 1, by omega⟩
      exact h depth (by omega)
    by_cases hz : IDBKey.compareTypes (keyTypeByteToKeyType typeA) (keyTypeByteToKeyType typeB) = 0
    · obtain ⟨result, h⟩ := hsame (keyType_eq hz)
      exact ⟨result, hsucc h⟩
    · exact ⟨_, hsucc fun depth _ => compareWithin_of_type_ne hz depth⟩
  have hzero : ∀ {typeA typeB : UInt8}, keyTypeByteToKeyType typeA = keyTypeByteToKeyType typeB →
      IDBKey.compareTypes (keyTypeByteToKeyType typeA) (keyTypeByteToKeyType typeB) = 0 := by
    intro typeA typeB h
    rw [h]
    exact Int.sub_self _
  induction hA with
  | leaf typeA harray hstring hdate hnumber =>
    intro keyB hB
    obtain ⟨typeB, tailB, rfl⟩ := hB.exists_cons
    refine hreduce fun htype => ⟨0, fun depth _ restA restB => ⟨restA, restB, ?_, fun _ => ⟨rfl, rfl⟩⟩⟩
    obtain rfl := hB.eq_leaf htype harray hstring hdate hnumber
    simp only [List.singleton_append, compareEncodedIDBKeysWithin, hzero htype, ne_eq, not_true_eq_false, if_false, harray,
      hstring, hdate, hnumber, or_self, ite_self]
  | array lengthA codeA itemsA hcodeA hlengthA hitemsA hkeysA ih =>
    intro keyB hB
    obtain ⟨typeB, tailB, rfl⟩ := hB.exists_cons
    refine hreduce fun htype => ?_
    obtain ⟨lengthB, codeB, itemsB, rfl, rfl, hcodeB, hlengthB, hitemsB, hkeysB⟩ := hB.eq_array htype
    have hitems : ∀ keyA ∈ itemsA, ∀ keyB ∈ itemsB, ∃ result,
        ∀ i : { depth : Nat // (codeA ++ itemsA.flatten).length ≤ depth },
          ComparesTo (compareEncodedIDBKeysWithin i.1) keyA keyB result := by
      intro keyA hmemA keyB hmemB
      obtain ⟨result, hresult⟩ := ih keyA hmemA (hkeysB keyB hmemB)
      refine ⟨result, fun i => hresult i.1 (Nat.le_trans ?_ i.2)⟩
      have hle := (List.sublist_flatten_of_mem hmemA).length_le
      rw [List.length_append]
      omega
    obtain ⟨result, hresult⟩ := compareEncodedItems_compares hitems
    refine ⟨result, fun depth hdepth restA restB => ?_⟩
    obtain ⟨ptrA, ptrB, hcompare, hptr⟩ := hresult ⟨depth, hdepth⟩ restA restB
    refine ⟨ptrA, ptrB, ?_, hptr⟩
    rw [hitemsA, hitemsB] at hcompare
    have hnot : ¬(IDBKeyArrayTypeByte = IDBKeyNullTypeByte ∨ IDBKeyArrayTypeByte = IDBKeyMinKeyTypeByte) := by decide
    simp only [List.cons_append, List.append_assoc, compareEncodedIDBKeysWithin, hzero htype, ne_eq, not_true_eq_false,
      if_false, hnot, if_true, hcodeA, hcodeB, hlengthA, hlengthB, or_self, hcompare]
  | string lengthA codeA textA hcodeA hlengthA htextA =>
    intro keyB hB
    obtain ⟨typeB, tailB, rfl⟩ := hB.exists_cons
    refine hreduce fun htype => ?_
    obtain ⟨lengthB, codeB, textB, rfl, rfl, hcodeB, hlengthB, htextB⟩ := hB.eq_string htype
    obtain ⟨result, hresult⟩ := compareEncodedStrings_compares hcodeA hcodeB hlengthA hlengthB htextA htextB
    refine ⟨result, fun depth _ restA restB => ?_⟩
    obtain ⟨ptrA, ptrB, hcompare, hptr⟩ := hresult restA restB
    refine ⟨ptrA, ptrB, ?_, hptr⟩
    have hnot : ¬(IDBKeyStringTypeByte = IDBKeyNullTypeByte ∨ IDBKeyStringTypeByte = IDBKeyMinKeyTypeByte) := by decide
    have hnotArray : ¬IDBKeyStringTypeByte = IDBKeyArrayTypeByte := by decide
    simp only [List.cons_append, compareEncodedIDBKeysWithin, hzero htype, ne_eq, not_true_eq_false, if_false, hnot,
      hnotArray, if_true, hcompare]
  | double typeA htypeA valueA hvalueA =>
    intro keyB hB
    obtain ⟨typeB, valueB, rfl⟩ := hB.exists_cons
    refine hreduce fun htype => ?_
    have hvalueB := hB.eq_double htypeA htype
    refine ⟨IDBKey.compareNumbers ⟨UInt64.ofNat (ofLittleEndian valueA)⟩ ⟨UInt64.ofNat (ofLittleEndian valueB)⟩,
      fun depth _ restA restB => ⟨restA, restB, ?_, fun _ => ⟨rfl, rfl⟩⟩⟩
    have hdecode : ∀ {value rest : Bytes}, value.length = 8 →
        decodeDouble (value ++ rest) = some (⟨UInt64.ofNat (ofLittleEndian value)⟩, rest) := by
      intro value rest hvalue
      rw [decodeDouble, if_neg (by rw [List.length_append]; omega), List.take_append_of_le_length (by omega),
        List.take_of_length_le (by omega), ← hvalue, List.drop_left]
    have hnot : ¬(typeA = IDBKeyNullTypeByte ∨ typeA = IDBKeyMinKeyTypeByte) ∧ typeA ≠ IDBKeyArrayTypeByte ∧
        typeA ≠ IDBKeyStringTypeByte := by
      rcases htypeA with rfl | rfl <;> decide
    simp only [List.cons_append, compareEncodedIDBKeysWithin, hzero htype, ne_eq, not_true_eq_false, if_false, hnot.1,
      hnot.2.1, hnot.2.2, if_pos htypeA, hdecode hvalueA, hdecode hvalueB]

theorem compareEncodedIDBKeys_rawKey {keyA keyB : Bytes} (hA : RawKey keyA) (hB : RawKey keyB) :
    ∃ result, ComparesTo compareEncodedIDBKeys keyA keyB result := by
  obtain ⟨result, h⟩ := hA.compares hB
  refine ⟨result, fun restA restB => h _ ?_ restA restB⟩
  rw [List.length_append]
  omega

/-! ## The fields of an index key -/

def behindSequenceNumber (start : Bytes) : Option Bytes := do
  let (_, p) ← KeyPrefix.decode start
  let (_, p) ← extractEncodedIDBKey p
  let (_, p) ← optionalSequenceNumber p
  return p

/-- The key ends behind its index key or its sequence number. -/
def LacksPrimaryKey (start : Bytes) : Prop := behindSequenceNumber start = some []

instance (start : Bytes) : Decidable (LacksPrimaryKey start) := inferInstanceAs (Decidable (_ = _))

/-- The bytes that a key is decoded from: `p` behind the index key, and `q` behind the sequence number. -/
structure ReadFrom (start : Bytes) (key : IndexDataKey) (ptr p q : Bytes) : Prop where
  keyPrefix : ∃ keyPrefix, KeyPrefix.decode start = some (keyPrefix, ptr)
  extract : extractEncodedIDBKey ptr = some (key.encodedUserKey, p)
  sequenceNumber : optionalSequenceNumber p = some (key.sequenceNumber, q)
  primaryKey : q = [] ∧ key.encodedPrimaryKey = minIDBKey ∨
    q ≠ [] ∧ RawKey key.encodedPrimaryKey ∧ ∃ rest, q = key.encodedPrimaryKey ++ rest

theorem decode_readFrom {start rest : Bytes} {key : IndexDataKey} (h : IndexDataKey.decode start = some (key, rest)) :
    ∃ ptr p q, ReadFrom start key ptr p q := by
  unfold IndexDataKey.decode at h
  simp only [Option.bind_eq_bind, Option.bind_eq_some_iff, Option.pure_def, Prod.exists] at h
  obtain ⟨keyPrefix, ptr, hpref, userKey, p, hextract, h⟩ := h
  refine ⟨ptr, p, ?_⟩
  split at h
  · rename_i hempty
    cases h
    exact ⟨_, ⟨keyPrefix, hpref⟩, hextract, if_pos hempty, .inl ⟨List.isEmpty_iff.1 hempty, rfl⟩⟩
  · rename_i hempty
    simp only [Option.bind_eq_some_iff, Prod.exists] at h
    obtain ⟨sequenceNumber, q, hnumber, h⟩ := h
    have hoptional : optionalSequenceNumber p = some (sequenceNumber, q) := by
      rw [optionalSequenceNumber, if_neg hempty, hnumber]
    refine ⟨q, ?_⟩
    split at h
    · rename_i hq
      cases h
      exact ⟨⟨keyPrefix, hpref⟩, hextract, hoptional, .inl ⟨List.isEmpty_iff.1 hq, rfl⟩⟩
    · rename_i hq
      simp only [Option.bind_eq_some_iff, Prod.exists, Option.some.injEq, Prod.mk.injEq] at h
      obtain ⟨primaryKey, left, hprimary, rfl, -⟩ := h
      obtain ⟨hraw, heq⟩ := extract_rawKey hprimary
      exact ⟨⟨keyPrefix, hpref⟩, hextract, hoptional,
        .inr ⟨fun hnil => hq (List.isEmpty_iff.2 hnil), hraw, left, heq⟩⟩

section Agreement

variable {a b ptrA ptrB p q p' q' : Bytes} {keyA keyB : IndexDataKey}

theorem ReadFrom.lacksPrimaryKey_iff (h : ReadFrom a keyA ptrA p q) : LacksPrimaryKey a ↔ q = [] := by
  obtain ⟨keyPrefix, hpref⟩ := h.keyPrefix
  unfold LacksPrimaryKey behindSequenceNumber
  simp only [hpref, h.extract, h.sequenceNumber, Option.bind_eq_bind, Option.bind_some, Option.pure_def,
    Option.some.injEq]

/-! ## Both comparisons -/

theorem minIDBKey_before {key : Bytes} (h : RawKey key) (hne : key ≠ minIDBKey) :
    (∃ result, ComparesTo compareEncodedIDBKeys minIDBKey key result ∧ result < 0) ∧
      ∃ result, ComparesTo compareEncodedIDBKeys key minIDBKey result ∧ 0 < result := by
  obtain ⟨type, tail, rfl⟩ := h.exists_cons
  have htype : keyTypeByteToKeyType type ≠ .minType := fun htype => hne (h.eq_minIDBKey htype)
  have hmin : keyTypeByteToKeyType IDBKeyMinKeyTypeByte = .minType := by decide
  have hcode : (keyTypeByteToKeyType type).code < IDBKey.KeyType.minType.code := by
    cases hcase : keyTypeByteToKeyType type with
    | minType => exact absurd hcase htype
    | _ => decide
  have hlt : IDBKey.compareTypes (keyTypeByteToKeyType IDBKeyMinKeyTypeByte) (keyTypeByteToKeyType type) < 0 := by
    rw [hmin, IDBKey.compareTypes]
    omega
  have hgt : 0 < IDBKey.compareTypes (keyTypeByteToKeyType type) (keyTypeByteToKeyType IDBKeyMinKeyTypeByte) := by
    rw [hmin, IDBKey.compareTypes]
    omega
  exact ⟨⟨_, fun restA restB => compareWithin_of_type_ne (by omega) _ restA restB, hlt⟩,
    _, fun restA restB => compareWithin_of_type_ne (by omega) _ restA restB, hgt⟩

theorem ComparesTo.eq {result : Int} {key other : Bytes} (h : ComparesTo compareEncodedIDBKeys key other result) :
    ∃ ptrA ptrB, compareEncodedIDBKeys key other = .ok (result, ptrA, ptrB) := by
  obtain ⟨ptrA, ptrB, hcompare, -⟩ := h [] []
  rw [List.append_nil, List.append_nil] at hcompare
  exact ⟨ptrA, ptrB, hcompare⟩

/-- The index keys are not equal. -/
def UserKeysDiffer (keyA keyB : IndexDataKey) : Prop :=
  ∃ result ptrA ptrB, compareEncodedIDBKeys keyA.encodedUserKey keyB.encodedUserKey = .ok (result, ptrA, ptrB) ∧ result ≠ 0

/-- Keys without primary keys have the same sequence number; and where one of them lacks it and the other one has the
minimum key, the sequence numbers are in that order. -/
structure FieldsDecide (a b : Bytes) (keyA keyB : IndexDataKey) : Prop where
  neither : LacksPrimaryKey a → LacksPrimaryKey b → keyA.sequenceNumber = keyB.sequenceNumber
  second : LacksPrimaryKey a → ¬LacksPrimaryKey b → keyB.encodedPrimaryKey = minIDBKey →
    compareInts keyA.sequenceNumber keyB.sequenceNumber < 0
  first : ¬LacksPrimaryKey a → LacksPrimaryKey b → keyA.encodedPrimaryKey = minIDBKey →
    0 < compareInts keyA.sequenceNumber keyB.sequenceNumber

/-- Both comparisons have a result, of the same sign. -/
def SameSign (a b : Bytes) (keyA keyB : IndexDataKey) (ignoreDuplicates : Bool) : Prop :=
  ∃ x y, compareIndexDataKeys a b ignoreDuplicates = .ok x ∧ keyA.compare keyB ignoreDuplicates = .ok y ∧
    orderingOf x = orderingOf y

/-- What `IndexDataKey::compare` does behind equal index keys. -/
def compareDecodedPrimaryKeys (keyA keyB : IndexDataKey) : Except Failure Int :=
  match compareEncodedIDBKeys keyA.encodedPrimaryKey keyB.encodedPrimaryKey with
  | .error failure => .error failure
  | .ok (result, _, _) =>
    if result ≠ 0 then .ok result else .ok (compareInts keyA.sequenceNumber keyB.sequenceNumber)

theorem compareDecodedPrimaryKeys_eq (keyA keyB : IndexDataKey) {result : Int}
    (h : ComparesTo compareEncodedIDBKeys keyA.encodedPrimaryKey keyB.encodedPrimaryKey result) :
    compareDecodedPrimaryKeys keyA keyB =
      .ok (if result ≠ 0 then result else compareInts keyA.sequenceNumber keyB.sequenceNumber) := by
  obtain ⟨ptrA, ptrB, hcompare⟩ := h.eq
  unfold compareDecodedPrimaryKeys
  rw [hcompare]
  simp only
  split <;> rfl

theorem minIDBKey_comparesTo : ComparesTo compareEncodedIDBKeys minIDBKey minIDBKey 0 := by
  intro restA restB
  exact ⟨restA, restB, rfl, fun _ => ⟨rfl, rfl⟩⟩

/-- **Behind equal index keys** the comparisons agree if and only if the fields decide. -/
theorem comparePrimaryKeys_agrees_iff (hA : ReadFrom a keyA ptrA p q) (hB : ReadFrom b keyB ptrB p' q') :
    (∃ x y, comparePrimaryKeys p p' = .ok x ∧ compareDecodedPrimaryKeys keyA keyB = .ok y ∧ orderingOf x = orderingOf y) ↔
      FieldsDecide a b keyA keyB := by
  have hlackA := hA.lacksPrimaryKey_iff
  have hlackB := hB.lacksPrimaryKey_iff
  have hreduce : ∀ {x y : Int}, comparePrimaryKeys p p' = .ok x → compareDecodedPrimaryKeys keyA keyB = .ok y →
      ((∃ x y, comparePrimaryKeys p p' = .ok x ∧ compareDecodedPrimaryKeys keyA keyB = .ok y ∧
        orderingOf x = orderingOf y) ↔ orderingOf x = orderingOf y) := by
    intro x y hx hy
    constructor
    · rintro ⟨x', y', hx', hy', heq⟩
      cases hx.symm.trans hx'
      cases hy.symm.trans hy'
      exact heq
    · exact fun heq => ⟨x, y, hx, hy, heq⟩
  have hfast : comparePrimaryKeys p p' =
      if q.isEmpty ∧ q'.isEmpty then .ok 0
      else if q.isEmpty then .ok (-1)
      else if q'.isEmpty then .ok 1
      else
        (compareEncodedIDBKeys q q').map fun r =>
          if r.1 ≠ 0 then r.1 else compareInts keyA.sequenceNumber keyB.sequenceNumber := by
    rw [comparePrimaryKeys, hA.sequenceNumber, hB.sequenceNumber] <;> rfl
  rcases hA.primaryKey with ⟨rfl, hminA⟩ | ⟨hneA, hrawA, restA, hqA⟩ <;>
    rcases hB.primaryKey with ⟨rfl, hminB⟩ | ⟨hneB, hrawB, restB, hqB⟩
  · -- neither has a primary key
    have hslow := compareDecodedPrimaryKeys_eq keyA keyB (show ComparesTo _ _ _ 0 by rw [hminA, hminB]; exact minIDBKey_comparesTo)
    rw [hreduce hfast hslow, orderingOf_zero, if_neg (not_not.2 rfl), eq_comm, orderingOf_eq_eq, compareInts_eq_zero]
    exact ⟨fun h => ⟨fun _ _ => h, fun _ hb => absurd (hlackB.2 rfl) hb, fun ha => absurd (hlackA.2 rfl) ha⟩,
      fun h => h.neither (hlackA.2 rfl) (hlackB.2 rfl)⟩
  · -- only the second one has
    have hlacks : ¬LacksPrimaryKey b := fun hb => hneB (hlackB.1 hb)
    have hfast' : comparePrimaryKeys p p' = .ok (-1) := by
      rw [hfast]
      simp [hneB]
    by_cases hmin : keyB.encodedPrimaryKey = minIDBKey
    · have hslow := compareDecodedPrimaryKeys_eq keyA keyB (show ComparesTo _ _ _ 0 by rw [hminA, hmin]; exact minIDBKey_comparesTo)
      rw [hreduce hfast' hslow, orderingOf_neg_one, if_neg (not_not.2 rfl), eq_comm, orderingOf_eq_lt]
      exact ⟨fun h => ⟨fun _ hb => absurd hb hlacks, fun _ _ _ => h, fun ha => absurd (hlackA.2 rfl) ha⟩,
        fun h => h.second (hlackA.2 rfl) hlacks hmin⟩
    · obtain ⟨⟨result, hresult, hneg⟩, -⟩ := minIDBKey_before hrawB hmin
      have hslow := compareDecodedPrimaryKeys_eq keyA keyB (show ComparesTo _ _ _ result by rw [hminA]; exact hresult)
      rw [hreduce hfast' hslow, if_pos (by omega), orderingOf_eq_lt.2 hneg, orderingOf_neg_one]
      exact iff_of_true rfl ⟨fun _ hb => absurd hb hlacks, fun _ _ h => absurd h hmin, fun ha => absurd (hlackA.2 rfl) ha⟩
  · -- only the first one has
    have hlacks : ¬LacksPrimaryKey a := fun ha => hneA (hlackA.1 ha)
    have hfast' : comparePrimaryKeys p p' = .ok 1 := by
      rw [hfast]
      simp [hneA]
    by_cases hmin : keyA.encodedPrimaryKey = minIDBKey
    · have hslow := compareDecodedPrimaryKeys_eq keyA keyB (show ComparesTo _ _ _ 0 by rw [hminB, hmin]; exact minIDBKey_comparesTo)
      rw [hreduce hfast' hslow, orderingOf_one, if_neg (not_not.2 rfl), eq_comm, orderingOf_eq_gt]
      exact ⟨fun h => ⟨fun ha => absurd ha hlacks, fun ha => absurd ha hlacks, fun _ _ _ => h⟩,
        fun h => h.first hlacks (hlackB.2 rfl) hmin⟩
    · obtain ⟨-, result, hresult, hpos⟩ := minIDBKey_before hrawA hmin
      have hslow := compareDecodedPrimaryKeys_eq keyA keyB (show ComparesTo _ _ _ result by rw [hminB]; exact hresult)
      rw [hreduce hfast' hslow, if_pos (by omega), orderingOf_eq_gt.2 hpos, orderingOf_one]
      exact iff_of_true rfl ⟨fun ha => absurd ha hlacks, fun ha => absurd ha hlacks, fun _ _ h => absurd h hmin⟩
  · -- both have
    obtain ⟨result, hresult⟩ := compareEncodedIDBKeys_rawKey hrawA hrawB
    have hlacksA : ¬LacksPrimaryKey a := fun ha => hneA (hlackA.1 ha)
    have hlacksB : ¬LacksPrimaryKey b := fun hb => hneB (hlackB.1 hb)
    have hslow := compareDecodedPrimaryKeys_eq keyA keyB hresult
    obtain ⟨ptr, ptr', hcompare, -⟩ := hresult restA restB
    have hfast' : comparePrimaryKeys p p' =
        .ok (if result ≠ 0 then result else compareInts keyA.sequenceNumber keyB.sequenceNumber) := by
      rw [hfast, if_neg (by simp [hneA]), if_neg (by simp [hneA]), if_neg (by simp [hneB]), hqA, hqB, hcompare]
      rfl
    rw [hreduce hfast' hslow]
    exact iff_of_true rfl ⟨fun ha => absurd ha hlacksA, fun ha => absurd ha hlacksA, fun _ hb => absurd hb hlacksB⟩

/-- **The two comparisons of index keys agree if and only if** duplicates are ignored, the index keys differ, or the
fields that are present decide. -/
theorem compareIndexDataKeys_agrees_iff {restA restB : Bytes} (hA : IndexDataKey.decode a = some (keyA, restA))
    (hB : IndexDataKey.decode b = some (keyB, restB)) (ignoreDuplicates : Bool) :
    SameSign a b keyA keyB ignoreDuplicates ↔
      ignoreDuplicates = true ∨ UserKeysDiffer keyA keyB ∨ FieldsDecide a b keyA keyB := by
  obtain ⟨ptrA, p, q, hreadA⟩ := decode_readFrom hA
  obtain ⟨ptrB, p', q', hreadB⟩ := decode_readFrom hB
  obtain ⟨hrawA, rfl⟩ := extract_rawKey hreadA.extract
  obtain ⟨hrawB, rfl⟩ := extract_rawKey hreadB.extract
  obtain ⟨result, hresult⟩ := compareEncodedIDBKeys_rawKey hrawA hrawB
  obtain ⟨ptr₁, ptr₂, hslow⟩ := hresult.eq
  obtain ⟨ptr₃, ptr₄, hfast, hptr⟩ := hresult p p'
  obtain ⟨prefixA, hprefA⟩ := hreadA.keyPrefix
  obtain ⟨prefixB, hprefB⟩ := hreadB.keyPrefix
  have hdiffer : UserKeysDiffer keyA keyB ↔ result ≠ 0 := by
    constructor
    · rintro ⟨result', ptr, ptr', hcompare, hne⟩
      cases hslow.symm.trans hcompare
      exact hne
    · exact fun hne => ⟨result, ptr₁, ptr₂, hslow, hne⟩
  unfold SameSign compareIndexDataKeys IndexDataKey.compare
  simp only [hprefA, hprefB, hfast, hslow]
  by_cases hne : result ≠ 0
  · rw [if_pos hne, if_pos hne]
    exact iff_of_true ⟨result, result, rfl, rfl, rfl⟩ (.inr (.inl (hdiffer.2 hne)))
  rw [if_neg hne, if_neg hne, hdiffer]
  cases ignoreDuplicates with
  | true => exact iff_of_true ⟨0, 0, rfl, rfl, rfl⟩ (.inl rfl)
  | false =>
    obtain ⟨rfl, rfl⟩ := hptr (not_not.1 hne)
    rw [or_iff_right Bool.false_ne_true, or_iff_right hne]
    exact comparePrimaryKeys_agrees_iff hreadA hreadB

end Agreement

/-- Two keys with all fields, of the first index and with the sequence numbers 1 and 2. -/
theorem compareIndexDataKeys_agrees_iff_all_fields :
    let a : Bytes := [0, 1, 1, 30, 5, 1, 5]
    let b : Bytes := [0, 1, 1, 30, 5, 2, 5]
    ∃ keyA keyB, IndexDataKey.decode a = some (keyA, []) ∧ IndexDataKey.decode b = some (keyB, []) ∧
      SameSign a b keyA keyB false := by
  intro a b
  have hA : IndexDataKey.decode a = some (⟨1, 1, 30, minIDBKey, minIDBKey, 1⟩, []) := rfl
  have hB : IndexDataKey.decode b = some (⟨1, 1, 30, minIDBKey, minIDBKey, 2⟩, []) := rfl
  have hlacks : ¬LacksPrimaryKey a := by decide
  have hlacks' : ¬LacksPrimaryKey b := by decide
  exact ⟨_, _, hA, hB, (compareIndexDataKeys_agrees_iff hA hB false).2
    (.inr (.inr ⟨fun h => absurd h hlacks, fun h => absurd h hlacks, fun _ h => absurd h hlacks'⟩))⟩

/-- Two keys that differ only in their sequence numbers, without primary keys: in place they are equal, but decoded the
first one is less. -/
theorem compareIndexDataKeys_disagrees :
    let a : Bytes := [0, 1, 1, 30, 5, 1]
    let b : Bytes := [0, 1, 1, 30, 5, 2]
    ∃ keyA keyB, IndexDataKey.decode a = some (keyA, []) ∧ IndexDataKey.decode b = some (keyB, []) ∧
      compareIndexDataKeys a b false = .ok 0 ∧ keyA.compare keyB false = .ok (-1) ∧ ¬SameSign a b keyA keyB false := by
  intro a b
  have hfast : compareIndexDataKeys a b false = .ok 0 := rfl
  have hslow : IndexDataKey.compare ⟨1, 1, 30, minIDBKey, minIDBKey, 1⟩ ⟨1, 1, 30, minIDBKey, minIDBKey, 2⟩ false =
      .ok (-1) := rfl
  refine ⟨⟨1, 1, 30, minIDBKey, minIDBKey, 1⟩, ⟨1, 1, 30, minIDBKey, minIDBKey, 2⟩, rfl, rfl, hfast, hslow, ?_⟩
  rintro ⟨x, y, hx, hy, heq⟩
  cases hfast.symm.trans hx
  cases hslow.symm.trans hy
  exact absurd heq (by decide)

end WebKit.WebCore.IDBLevelDBCoding
