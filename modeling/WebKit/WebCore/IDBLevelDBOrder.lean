import WebKit.WebCore.IDBLevelDBCompare

/-!
# The order of encoded user keys

Comparing encoded keys is comparing the keys: strings in `compareEncodedStringsWithLength_encode`, keys of any depth in
`compareEncodedIDBKeysWithin_encode`, by induction on the first key, and `orders_encode` adds the two bounds. After a
tie the pointers are behind the keys, so that what follows can be compared.
-/

namespace WebKit.WebCore.IDBLevelDBCoding

open WebKit.Lib WebKit.WTF

/-! ## Strings -/

theorem encodeString_cons (c : UChar) (s : List UChar) :
    encodeString (c :: s) = UInt8.ofNat (c.toNat / 256) :: UInt8.ofNat c.toNat :: encodeString s := rfl

theorem take_encodeString (n : Nat) (s : List UChar) : (encodeString s).take (n * 2) = encodeString (s.take n) := by
  induction s generalizing n with
  | nil => simp [encodeString]
  | cons c s ih =>
    cases n with
    | zero => rfl
    | succ n =>
      have hn : (n + 1) * 2 = n * 2 + 2 := by omega
      rw [hn, encodeString_cons, List.take_succ_cons, List.take_succ_cons, List.take_succ_cons, encodeString_cons, ih]

theorem memcmp_self_cons (x : UInt8) (p q : Bytes) : memcmp (x :: p) (x :: q) = memcmp p q := if_pos rfl

theorem orderingOf_memcmp_cons {x y : UInt8} (h : x.toNat ≠ y.toNat) (p q : Bytes) :
    orderingOf (memcmp (x :: p) (y :: q)) = Ord.compare (x.toNat : Int) y.toNat := by
  have hne : x ≠ y := fun heq => h (congrArg UInt8.toNat heq)
  rw [memcmp, if_neg hne, orderingOf_sub]

theorem compare_natCast_of_lt {m n : Nat} (h : m < n) : Ord.compare (m : Int) n = .lt :=
  compare_lt_iff_lt.mpr (Int.ofNat_lt.mpr h)

theorem compare_natCast_of_gt {m n : Nat} (h : n < m) : Ord.compare (m : Int) n = .gt :=
  compare_gt_iff_gt.mpr (Int.ofNat_lt.mpr h)

theorem toNat_highByte (c : UChar) : (UInt8.ofNat (c.toNat / 256)).toNat = c.toNat / 256 := by
  have := c.toNat_lt
  rw [UInt8.toNat_ofNat']
  omega

theorem toNat_lowByte (c : UChar) : (UInt8.ofNat c.toNat).toNat = c.toNat % 256 := UInt8.toNat_ofNat'

/-- Comparing the big-endian bytes of two characters compares the characters. -/
theorem orderingOf_memcmp_char {c d : UChar} (h : c ≠ d) (p q : Bytes) :
    orderingOf (memcmp (UInt8.ofNat (c.toNat / 256) :: UInt8.ofNat c.toNat :: p)
      (UInt8.ofNat (d.toNat / 256) :: UInt8.ofNat d.toNat :: q)) = orderingOf (if c > d then 1 else -1) := by
  have hne : c.toNat ≠ d.toNat := fun heq => h (UInt16.toNat_inj.mp heq)
  have hsign : orderingOf (if c > d then 1 else -1) = Ord.compare (c.toNat : Int) d.toNat := by
    rcases lt_or_gt_of_ne hne with hlt | hgt
    · rw [if_neg (fun hgt => Nat.lt_asymm hlt (UInt16.lt_iff_toNat_lt.mp hgt)), compare_natCast_of_lt hlt,
        orderingOf_neg_one]
    · rw [if_pos (UInt16.lt_iff_toNat_lt.mpr hgt), compare_natCast_of_gt hgt, orderingOf_one]
  rw [hsign]
  by_cases heq : c.toNat / 256 = d.toNat / 256
  · have hlowNe : (UInt8.ofNat c.toNat).toNat ≠ (UInt8.ofNat d.toNat).toNat := by
      rw [toNat_lowByte, toNat_lowByte]
      omega
    rw [heq, memcmp_self_cons, orderingOf_memcmp_cons hlowNe, toNat_lowByte, toNat_lowByte]
    rcases lt_or_gt_of_ne hne with hlt | hgt
    · rw [compare_natCast_of_lt hlt, compare_natCast_of_lt (by omega)]
    · rw [compare_natCast_of_gt hgt, compare_natCast_of_gt (by omega)]
  · have hhighNe : (UInt8.ofNat (c.toNat / 256)).toNat ≠ (UInt8.ofNat (d.toNat / 256)).toNat := by
      rw [toNat_highByte, toNat_highByte]
      exact heq
    rw [orderingOf_memcmp_cons hhighNe, toNat_highByte, toNat_highByte]
    rcases lt_or_gt_of_ne hne with hlt | hgt
    · rw [compare_natCast_of_lt hlt, compare_natCast_of_lt (by omega)]
    · rw [compare_natCast_of_gt hgt, compare_natCast_of_gt (by omega)]

/-- `memcmp` of the common length and then the lengths compare like `codePointCompare`. -/
theorem orderingOf_memcmp_encodeString (s t : List UChar) :
    (orderingOf (memcmp (encodeString (s.take (min s.length t.length)))
      (encodeString (t.take (min s.length t.length))))).then (Ord.compare (s.length : Int) t.length) =
      orderingOf (codePointCompare s t) := by
  induction s generalizing t with
  | nil =>
    cases t with
    | nil => rfl
    | cons d t =>
      have hlt : (([] : List UChar).length : Int) < (d :: t).length := by simp
      rw [compare_lt_iff_lt.mpr hlt]
      rfl
  | cons c s ih =>
    cases t with
    | nil =>
      have hgt : (([] : List UChar).length : Int) < (c :: s).length := by simp
      rw [compare_gt_iff_gt.mpr hgt]
      rfl
    | cons d t =>
      have hmin : min (c :: s).length (d :: t).length = min s.length t.length + 1 := by simp
      rw [hmin, List.take_succ_cons, List.take_succ_cons, encodeString_cons, encodeString_cons, codePointCompare]
      by_cases heq : c = d
      · have hlength : Ord.compare ((c :: s).length : Int) ((d :: t).length : Int) =
            Ord.compare (s.length : Int) t.length := by
          rw [← orderingOf_sub, ← orderingOf_sub]
          simp
        rw [if_pos heq, hlength, heq, memcmp_self_cons, memcmp_self_cons, ih]
      · rw [if_neg heq, orderingOf_memcmp_char heq]
        split <;> rfl

theorem length_lt_iff {m n : Nat} (hm : m < 2 ^ 32) (hn : n < 2 ^ 32) : Int64.ofNat m < Int64.ofNat n ↔ m < n := by
  rw [Int64.lt_iff_toInt_lt, Int64.toInt_ofNat_of_lt (by omega), Int64.toInt_ofNat_of_lt (by omega)]
  omega

theorem length_eq_iff {m n : Nat} (hm : m < 2 ^ 32) (hn : n < 2 ^ 32) : Int64.ofNat m = Int64.ofNat n ↔ m = n := by
  rw [← Int64.toInt_inj, Int64.toInt_ofNat_of_lt (by omega), Int64.toInt_ofNat_of_lt (by omega)]
  omega

/-- `lenP > lenQ ? 1 : -1`, unless the lengths are equal. -/
theorem orderingOf_lengths {m n : Nat} (hm : m < 2 ^ 32) (hn : n < 2 ^ 32) :
    orderingOf (if Int64.ofNat m = Int64.ofNat n then 0 else if Int64.ofNat m > Int64.ofNat n then 1 else -1) =
      Ord.compare (m : Int) n := by
  have heq := length_eq_iff hm hn
  have hgt := length_lt_iff hn hm
  rcases lt_trichotomy m n with h | h | h
  · rw [if_neg (fun h' => Nat.ne_of_lt h (heq.mp h')), if_neg (fun h' => Nat.lt_asymm h (hgt.mp h')),
      compare_natCast_of_lt h, orderingOf_neg_one]
  · rw [if_pos (heq.mpr h), h, compare_eq_iff_eq.mpr rfl, orderingOf_zero]
  · rw [if_neg (fun h' => Nat.ne_of_gt h (heq.mp h')), if_pos (hgt.mpr h), compare_natCast_of_gt h, orderingOf_one]

theorem compareEncodedStringsWithLength_encode {s t : List UChar} (hs : s.length < 2 ^ 32) (ht : t.length < 2 ^ 32)
    (restS restT : Bytes) : ∃ x, compareEncodedStringsWithLength (encodeStringWithLength s ++ restS)
      (encodeStringWithLength t ++ restT) = .ok (x, restS, restT) ∧ orderingOf x = orderingOf (codePointCompare s t) := by
  obtain ⟨hnonnegS, hcountS⟩ := length_decoded hs
  obtain ⟨hnonnegT, hcountT⟩ := length_decoded ht
  have hlengthS := length_encodeString s
  have hlengthT := length_encodeString t
  have hmin : (if Int64.ofNat s.length < Int64.ofNat t.length then Int64.ofNat s.length
      else Int64.ofNat t.length).toInt.toNat = min s.length t.length := by
    by_cases hlt : s.length < t.length
    · rw [if_pos ((length_lt_iff hs ht).mpr hlt), hcountS, Nat.min_eq_left (Nat.le_of_lt hlt)]
    · rw [if_neg (fun h => hlt ((length_lt_iff hs ht).mp h)), hcountT, Nat.min_eq_right (Nat.le_of_not_lt hlt)]
  have henough : ¬ ((encodeString s ++ restS).length < s.length * 2 ∨ (encodeString t ++ restT).length < t.length * 2) := by
    rw [List.length_append, List.length_append, hlengthS, hlengthT]
    omega
  have htakeS : (encodeString s ++ restS).take (min s.length t.length * 2) =
      encodeString (s.take (min s.length t.length)) := by
    rw [List.take_append_of_le_length (by omega), take_encodeString]
  have htakeT : (encodeString t ++ restT).take (min s.length t.length * 2) =
      encodeString (t.take (min s.length t.length)) := by
    rw [List.take_append_of_le_length (by omega), take_encodeString]
  refine ⟨if memcmp (encodeString (s.take (min s.length t.length))) (encodeString (t.take (min s.length t.length))) ≠ 0
      then memcmp (encodeString (s.take (min s.length t.length))) (encodeString (t.take (min s.length t.length)))
      else if Int64.ofNat s.length = Int64.ofNat t.length then 0
      else if Int64.ofNat s.length > Int64.ofNat t.length then 1 else -1, ?_, ?_⟩
  · rw [compareEncodedStringsWithLength, encodeStringWithLength, encodeStringWithLength, List.append_assoc,
      List.append_assoc, decodeVarInt_encodeVarInt, decodeVarInt_encodeVarInt]
    simp only [hnonnegS, hnonnegT, or_self, if_false, hcountS, hcountT, henough, hmin, htakeS, htakeT,
      List.drop_left' hlengthS, List.drop_left' hlengthT]
  · rw [orderingOf_ifNonzero, orderingOf_lengths hs ht, orderingOf_memcmp_encodeString]

/-! ## User keys -/

/-- The outcome of comparing what is in front of `restA` and `restB`: the sign of `result`, and after a tie the
pointers are behind the two. -/
def Compares (outcome : Except Failure (Int × Bytes × Bytes)) (result : Int) (restA restB : Bytes) : Prop :=
  ∃ x ptrA ptrB, outcome = .ok (x, ptrA, ptrB) ∧ orderingOf x = orderingOf result ∧ (x = 0 → ptrA = restA ∧ ptrB = restB)

theorem compares_ok (x : Int) (restA restB : Bytes) : Compares (.ok (x, restA, restB)) x restA restB :=
  ⟨x, restA, restB, rfl, rfl, fun _ => ⟨rfl, rfl⟩⟩

/-- After a result that is no tie the pointers do not matter. -/
theorem compares_of_ne {x result : Int} (hx : x ≠ 0) (horder : orderingOf x = orderingOf result)
    (ptrA ptrB restA restB : Bytes) : Compares (.ok (x, ptrA, ptrB)) result restA restB :=
  ⟨x, ptrA, ptrB, rfl, horder, fun h => absurd h hx⟩

theorem eq_zero_of_orderingOf {x result : Int} (h : orderingOf x = orderingOf result) : x = 0 ↔ result = 0 := by
  rw [← orderingOf_eq_eq, h, orderingOf_eq_eq]

/-- The loop over the items of two arrays, given how it compares each of them. -/
theorem compareEncodedItems_encode {compareItem : Bytes → Bytes → Except Failure (Int × Bytes × Bytes)} {depth : Nat}
    {itemsA : List IDBKey} (itemsB : List IDBKey) (restA restB : Bytes)
    (h : ∀ itemA ∈ itemsA, ∀ itemB ∈ itemsB, ∀ rest rest', (encodeIDBKey itemA ++ rest).length ≤ depth →
      Compares (compareItem (encodeIDBKey itemA ++ rest) (encodeIDBKey itemB ++ rest')) (IDBKey.compare itemA itemB)
        rest rest')
    (hdepth : (encodeItems itemsA ++ restA).length ≤ depth) :
    Compares (compareEncodedItems compareItem itemsA.length itemsB.length (encodeItems itemsA ++ restA)
      (encodeItems itemsB ++ restB)) (IDBKey.compareItems itemsA itemsB) restA restB := by
  induction itemsA generalizing itemsB with
  | nil =>
    cases itemsB with
    | nil =>
      rw [IDBKey.compareItems]
      exact compares_ok 0 restA restB
    | cons itemB itemsB =>
      rw [IDBKey.compareItems]
      exact compares_of_ne (by decide) rfl _ _ restA restB
  | cons itemA itemsA ih =>
    cases itemsB with
    | nil =>
      rw [IDBKey.compareItems]
      exact compares_of_ne (by decide) rfl _ _ restA restB
    | cons itemB itemsB =>
      rw [encodeItems, List.append_assoc] at hdepth ⊢
      rw [encodeItems, List.append_assoc]
      have hleft : (encodeItems itemsA ++ restA).length ≤ depth := by
        rw [List.length_append] at hdepth
        omega
      obtain ⟨x, ptrA, ptrB, hhead, horder, hptr⟩ := h itemA List.mem_cons_self itemB List.mem_cons_self
        (encodeItems itemsA ++ restA) (encodeItems itemsB ++ restB) hdepth
      have htail := ih itemsB (fun x hx y hy => h x (List.mem_cons_of_mem _ hx) y (List.mem_cons_of_mem _ hy)) hleft
      have hiff := eq_zero_of_orderingOf horder
      rw [List.length_cons, List.length_cons, compareEncodedItems, hhead, IDBKey.compareItems]
      by_cases hx : x = 0
      · obtain ⟨rfl, rfl⟩ := hptr hx
        simp only [hx, hiff.mp hx, ne_eq, not_true_eq_false, if_false]
        exact htail
      · have hne : IDBKey.compare itemA itemB ≠ 0 := fun h0 => hx (hiff.mpr h0)
        simp only [ne_eq, hx, hne, not_false_eq_true, if_true]
        exact compares_of_ne hx horder ptrA ptrB restA restB

theorem compareEncodedIDBKeysWithin_of_type_ne {typeA typeB : UInt8} {result : Int} (depth : Nat)
    (hne : keyTypeByteToKeyType typeA ≠ keyTypeByteToKeyType typeB)
    (horder : orderingOf result = orderingOf (IDBKey.compareTypes (keyTypeByteToKeyType typeA) (keyTypeByteToKeyType typeB)))
    (ptrA ptrB restA restB : Bytes) :
    Compares (compareEncodedIDBKeysWithin (depth + 1) (typeA :: ptrA) (typeB :: ptrB)) result restA restB := by
  have hx : IDBKey.compareTypes (keyTypeByteToKeyType typeA) (keyTypeByteToKeyType typeB) ≠ 0 := by
    intro h
    rw [IDBKey.compareTypes] at h
    exact hne (IDBKey.code_injective (by omega))
  rw [compareEncodedIDBKeysWithin]
  simp only [if_pos hx]
  exact compares_of_ne hx horder.symm ptrA ptrB restA restB

theorem encodeIDBKey_eq_cons (key : IDBKey) :
    ∃ type payload, encodeIDBKey key = type :: payload ∧ keyTypeByteToKeyType type = key.type := by
  cases key with
  | invalid => exact ⟨_, _, rfl, rfl⟩
  | array items => exact ⟨IDBKeyArrayTypeByte, _, by rw [encodeIDBKey, encodeByte, List.append_assoc]; rfl, rfl⟩
  | string text => exact ⟨IDBKeyStringTypeByte, _, by rw [encodeIDBKey, encodeByte]; rfl, rfl⟩
  | date time => exact ⟨IDBKeyDateTypeByte, _, by rw [encodeIDBKey, encodeByte]; rfl, rfl⟩
  | number value => exact ⟨IDBKeyNumberTypeByte, _, by rw [encodeIDBKey, encodeByte]; rfl, rfl⟩

/-- `IDBKey::compare` of keys of different types has the sign of `compareTypes`. -/
theorem orderingOf_compare_of_type_ne {a b : IDBKey} (h : a.type ≠ b.type) :
    orderingOf (IDBKey.compare a b) = orderingOf (IDBKey.compareTypes a.type b.type) := by
  have hcode : a.type.code ≠ b.type.code := fun heq => h (IDBKey.code_injective heq)
  rw [IDBKey.compare.eq_def, if_pos h, IDBKey.compareTypes]
  by_cases hgt : a.type.code > b.type.code
  · rw [if_pos hgt, orderingOf_neg_one, orderingOf_eq_lt.mpr (by omega)]
  · rw [if_neg hgt, orderingOf_one, orderingOf_eq_gt.mpr (by omega)]

theorem compareEncodedIDBKeysWithin_of_key_type_ne {a b : IDBKey} (h : a.type ≠ b.type) (depth : Nat)
    (restA restB : Bytes) : Compares (compareEncodedIDBKeysWithin (depth + 1) (encodeIDBKey a ++ restA)
      (encodeIDBKey b ++ restB)) (IDBKey.compare a b) restA restB := by
  obtain ⟨typeA, payloadA, hA, htypeA⟩ := encodeIDBKey_eq_cons a
  obtain ⟨typeB, payloadB, hB, htypeB⟩ := encodeIDBKey_eq_cons b
  rw [hA, hB, List.cons_append, List.cons_append]
  refine compareEncodedIDBKeysWithin_of_type_ne depth ?_ ?_ _ _ restA restB
  · rw [htypeA, htypeB]
    exact h
  · rw [htypeA, htypeB]
    exact orderingOf_compare_of_type_ne h

theorem exists_depth {key : IDBKey} {rest : Bytes} {depth : Nat} (h : (encodeIDBKey key ++ rest).length ≤ depth) :
    ∃ depth', depth = depth' + 1 := by
  obtain ⟨type, payload, hkey, _⟩ := encodeIDBKey_eq_cons key
  rw [hkey, List.cons_append, List.length_cons] at h
  exact ⟨depth - 1, by omega⟩

/-- **Encoded keys are compared as the keys are**, by induction on the first key. -/
theorem compareEncodedIDBKeysWithin_encode (a b : IDBKey) (hfitsA : a.Every IDBKey.LengthFits)
    (hfitsB : b.Every IDBKey.LengthFits) (restA restB : Bytes) (depth : Nat)
    (hdepth : (encodeIDBKey a ++ restA).length ≤ depth) :
    Compares (compareEncodedIDBKeysWithin depth (encodeIDBKey a ++ restA) (encodeIDBKey b ++ restB))
      (IDBKey.compare a b) restA restB := by
  induction a using IDBKey.induct generalizing b restA restB depth with
  | invalid =>
    obtain ⟨depth, rfl⟩ := exists_depth hdepth
    cases b with
    | invalid => exact compares_ok 0 restA restB
    | _ => exact compareEncodedIDBKeysWithin_of_key_type_ne (by simp [IDBKey.type]) depth restA restB
  | array items ih =>
    obtain ⟨depth, rfl⟩ := exists_depth hdepth
    cases b with
    | array items' =>
      rw [encode_array_append] at hdepth ⊢
      rw [encode_array_append]
      obtain ⟨hlengthA, hitemsA⟩ := IDBKey.every_array.mp hfitsA
      obtain ⟨hlengthB, hitemsB⟩ := IDBKey.every_array.mp hfitsB
      obtain ⟨hnonnegA, hcountA⟩ := length_decoded hlengthA
      obtain ⟨hnonnegB, hcountB⟩ := length_decoded hlengthB
      have hleft : (encodeItems items ++ restA).length ≤ depth := by
        rw [List.length_cons, List.length_append] at hdepth
        omega
      have hitems := compareEncodedItems_encode items' restA restB (fun itemA hmemA itemB hmemB rest rest' hrest =>
        ih itemA hmemA itemB (hitemsA itemA hmemA) (hitemsB itemB hmemB) rest rest' depth hrest) hleft
      have hsame : ¬ IDBKey.compareTypes .arrayType .arrayType ≠ 0 := by decide
      rw [IDBKey.compare, if_neg (by simp [IDBKey.type]), compareEncodedIDBKeysWithin, decodeVarInt_encodeVarInt,
        decodeVarInt_encodeVarInt]
      show Compares (if IDBKey.compareTypes .arrayType .arrayType ≠ 0 then _ else _) _ restA restB
      rw [if_neg hsame, if_neg (by decide), if_pos rfl]
      simp only [hnonnegA, hnonnegB, or_self, if_false, hcountA, hcountB]
      exact hitems
    | _ => exact compareEncodedIDBKeysWithin_of_key_type_ne (by simp [IDBKey.type]) depth restA restB
  | string text =>
    obtain ⟨depth, rfl⟩ := exists_depth hdepth
    cases b with
    | string text' =>
      obtain ⟨x, hx, horder⟩ := compareEncodedStringsWithLength_encode hfitsA hfitsB restA restB
      rw [encode_string_append, encode_string_append, IDBKey.compare, if_neg (by simp [IDBKey.type])]
      refine ⟨x, restA, restB, hx, ?_, fun _ => ⟨rfl, rfl⟩⟩
      rw [horder, orderingOf_neg, ← IDBKey.codePointCompare_swap]
    | _ => exact compareEncodedIDBKeysWithin_of_key_type_ne (by simp [IDBKey.type]) depth restA restB
  | date time =>
    obtain ⟨depth, rfl⟩ := exists_depth hdepth
    cases b with
    | date time' =>
      rw [encode_date_append, encode_date_append, IDBKey.compare, if_neg (by simp [IDBKey.type]),
        compareEncodedIDBKeysWithin, decodeDouble_encode, decodeDouble_encode]
      exact compares_ok _ restA restB
    | _ => exact compareEncodedIDBKeysWithin_of_key_type_ne (by simp [IDBKey.type]) depth restA restB
  | number value =>
    obtain ⟨depth, rfl⟩ := exists_depth hdepth
    cases b with
    | number value' =>
      rw [encode_number_append, encode_number_append, IDBKey.compare, if_neg (by simp [IDBKey.type]),
        compareEncodedIDBKeysWithin, decodeDouble_encode, decodeDouble_encode]
      exact compares_ok _ restA restB
    | _ => exact compareEncodedIDBKeysWithin_of_key_type_ne (by simp [IDBKey.type]) depth restA restB

namespace EncodedKey

def type : EncodedKey → IDBKey.KeyType
  | minKey => .minType
  | idbKey key => key.type
  | maxKey => .invalidType

/-- The rank of a key, with `minIDBKey` and `maxIDBKey` as bounds. -/
def rank : EncodedKey → List Int
  | minKey => [-IDBKey.KeyType.minType.code]
  | idbKey key => key.rank
  | maxKey => [-IDBKey.KeyType.invalidType.code]

def NotNaN : EncodedKey → Prop
  | idbKey key => key.Every IDBKey.NotNaN
  | _ => True

theorem encode_eq_cons (a : EncodedKey) :
    ∃ type payload, a.encode = type :: payload ∧ keyTypeByteToKeyType type = a.type := by
  cases a with
  | minKey => exact ⟨_, _, rfl, rfl⟩
  | idbKey key => exact encodeIDBKey_eq_cons key
  | maxKey => exact ⟨_, _, rfl, rfl⟩

theorem rank_eq_cons (a : EncodedKey) : ∃ tail, a.rank = -a.type.code :: tail := by
  cases a with
  | minKey => exact ⟨[], rfl⟩
  | idbKey key => exact IDBKey.rank_eq_cons key
  | maxKey => exact ⟨[], rfl⟩

theorem type_idbKey_ne {key : IDBKey} (h : (idbKey key).Valid) :
    key.type ≠ .minType ∧ key.type ≠ .invalidType := by
  cases key with
  | invalid => exact absurd h.1 (by decide)
  | _ => simp [IDBKey.type]

end EncodedKey

/-- What comparing two encoded keys gives: their order, and after a tie the bytes behind them. -/
def Orders (outcome : Except Failure (Int × Bytes × Bytes)) (rankA rankB : List Int) (restA restB : Bytes) : Prop :=
  ∃ x ptrA ptrB, outcome = .ok (x, ptrA, ptrB) ∧ Decides x rankA rankB ∧ (x = 0 → ptrA = restA ∧ ptrB = restB)

theorem orders_of_type_ne {a b : EncodedKey} (h : a.type ≠ b.type) (restA restB : Bytes) :
    Orders (compareEncodedIDBKeys (a.encode ++ restA) (b.encode ++ restB)) a.rank b.rank restA restB := by
  obtain ⟨typeA, payloadA, hA, htypeA⟩ := a.encode_eq_cons
  obtain ⟨typeB, payloadB, hB, htypeB⟩ := b.encode_eq_cons
  obtain ⟨tailA, hrankA⟩ := a.rank_eq_cons
  obtain ⟨tailB, hrankB⟩ := b.rank_eq_cons
  have hne : keyTypeByteToKeyType typeA ≠ keyTypeByteToKeyType typeB := by
    rw [htypeA, htypeB]
    exact h
  have hcode : a.type.code ≠ b.type.code := fun heq => h (IDBKey.code_injective heq)
  have hsign : orderingOf (b.type.code - a.type.code) = Ord.compare (-a.type.code) (-b.type.code) := by
    rw [← orderingOf_sub]
    congr 1
    omega
  obtain ⟨x, ptrA, ptrB, hx, horder, hrest⟩ := compareEncodedIDBKeysWithin_of_type_ne
    (payloadA ++ restA).length hne rfl (payloadA ++ restA) (payloadB ++ restB) restA restB
  rw [htypeA, htypeB, IDBKey.compareTypes] at horder
  have hxne : x ≠ 0 := by
    intro h0
    have := (eq_zero_of_orderingOf horder).mp h0
    omega
  rw [hA, hB, hrankA, hrankB]
  exact ⟨x, ptrA, ptrB, hx, (decides_of_compare (horder.trans hsign)).append_of_ne hxne tailA tailB, hrest⟩

/-- **Encoded user keys are ordered by rank**, with `minIDBKey` below and `maxIDBKey` above every key. -/
theorem orders_encode {a b : EncodedKey} (hA : a.Valid) (hB : b.Valid) (hnumA : a.NotNaN) (hnumB : b.NotNaN)
    (restA restB : Bytes) :
    Orders (compareEncodedIDBKeys (a.encode ++ restA) (b.encode ++ restB)) a.rank b.rank restA restB := by
  by_cases htype : a.type = b.type
  · cases a with
    | minKey =>
      cases b with
      | minKey => exact ⟨0, restA, restB, rfl, decides_sub _ _, fun _ => ⟨rfl, rfl⟩⟩
      | idbKey key => exact absurd htype.symm (EncodedKey.type_idbKey_ne hB).1
      | maxKey => exact absurd htype (by decide)
    | idbKey key =>
      cases b with
      | minKey => exact absurd htype (EncodedKey.type_idbKey_ne hA).1
      | idbKey key' =>
        obtain ⟨x, ptrA, ptrB, hx, horder, hrest⟩ :=
          compareEncodedIDBKeysWithin_encode key key' hA.2 hB.2 restA restB _ (Nat.le_refl _)
        exact ⟨x, ptrA, ptrB, hx, (IDBKey.decides_rank hnumA hnumB).congr horder, hrest⟩
      | maxKey => exact absurd htype (EncodedKey.type_idbKey_ne hA).2
    | maxKey =>
      cases b with
      | minKey => exact absurd htype (by decide)
      | idbKey key => exact absurd htype.symm (EncodedKey.type_idbKey_ne hB).2
      | maxKey => exact ⟨0, restA, restB, rfl, decides_sub _ _, fun _ => ⟨rfl, rfl⟩⟩
  · exact orders_of_type_ne htype restA restB

end WebKit.WebCore.IDBLevelDBCoding
