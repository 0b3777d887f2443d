import WebKit.Lib.Sextets
import WebKit.WTF.Base64

/-!
# What the encoder writes

`encodedText` is the text without padding, `feeds` counts its line feeds. The vector fills up from the front
(`filled`, `emit_filled`), and `base64EncodeInternal` writes the text and pads it to the length computed beforehand
(`base64EncodeInternal_eq`); without padding and line feeds the text is the sextets of the data
(`encodedText_sextets`).
-/

namespace WebKit.WTF.Base64

open WebKit.Lib

/-! ## Groups of bits -/

theorem sextet0_eq (a : UInt8) : sextet0 a = UInt8.ofNat (a.toNat / 4) := by
  have ha := a.toNat_lt
  have h := shiftRight_and a (show 2 < 8 by decide) (show 6 ≤ 8 by decide)
  rw [Nat.mod_eq_of_lt (by omega)] at h
  exact h

theorem sextet3_eq (c : UInt8) : sextet3 c = UInt8.ofNat (c.toNat % 64) := and_ones c (show 6 ≤ 8 by decide)

theorem lastSextet1_eq (a : UInt8) : lastSextet1 a = UInt8.ofNat (a.toNat % 4 * 16) := by
  have h := shiftLeft_and a (show 4 < 8 by decide) (show 6 ≤ 8 by decide)
  rw [show a.toNat * 2 ^ 4 % 2 ^ 6 = a.toNat % 4 * 16 by omega] at h
  exact h

theorem lastSextet2_eq (b : UInt8) : lastSextet2 b = UInt8.ofNat (b.toNat % 16 * 4) := by
  have h := shiftLeft_and b (show 2 < 8 by decide) (show 6 ≤ 8 by decide)
  rw [show b.toNat * 2 ^ 2 % 2 ^ 6 = b.toNat % 16 * 4 by omega] at h
  exact h

theorem high4_eq (b : UInt8) : (b >>> 4) &&& 0o17 = UInt8.ofNat (b.toNat / 16) := by
  have hb := b.toNat_lt
  have h := shiftRight_and b (show 4 < 8 by decide) (show 4 ≤ 8 by decide)
  rw [Nat.mod_eq_of_lt (by omega)] at h
  exact h

theorem high2_eq (c : UInt8) : (c >>> 6) &&& 0o03 = UInt8.ofNat (c.toNat / 64) := by
  have hc := c.toNat_lt
  have h := shiftRight_and c (show 6 < 8 by decide) (show 2 ≤ 8 by decide)
  rw [Nat.mod_eq_of_lt (by omega)] at h
  exact h

theorem sextet1_eq (a b : UInt8) : sextet1 a b = UInt8.ofNat (a.toNat % 4 * 16 + b.toNat / 16) := by
  have hb := b.toNat_lt
  have hor := or_eq_add (a.toNat % 4) (show b.toNat / 16 < 2 ^ 4 by omega)
  rw [show a.toNat % 4 * 16 = a.toNat % 4 * 2 ^ 4 from rfl, ← hor, ← high4_eq]
  exact congrArg _ (lastSextet1_eq a)

theorem sextet2_eq (b c : UInt8) : sextet2 b c = UInt8.ofNat (b.toNat % 16 * 4 + c.toNat / 64) := by
  have hc := c.toNat_lt
  have hor := or_eq_add (b.toNat % 16) (show c.toNat / 64 < 2 ^ 2 by omega)
  rw [show b.toNat % 16 * 4 = b.toNat % 16 * 2 ^ 2 from rfl, ← hor, ← high2_eq]
  exact congrArg _ (lastSextet2_eq b)

/-! ## The text -/

def character (encodeMap : List UInt8) (sextet : UInt8) : UInt8 := encodeMap.getD sextet.toNat 0

/-- The line feed in front of a group, when `count` characters are in front of it. -/
def feed (insertLFs : Bool) (count : Nat) : List UInt8 :=
  if insertLFs ∧ count ≠ 0 ∧ count % 76 = 0 then [0x0A] else []

/-- The text behind `count` characters, without padding. -/
@[grind =] def encodedText (encodeMap : List UInt8) (insertLFs : Bool) : Nat → List UInt8 → List UInt8
  | count, a :: b :: c :: data =>
    feed insertLFs count ++ [character encodeMap (sextet0 a), character encodeMap (sextet1 a b),
      character encodeMap (sextet2 b c), character encodeMap (sextet3 c)] ++
      encodedText encodeMap insertLFs (if insertLFs then count + 4 else count) data
  | count, [a, b] =>
    feed insertLFs count ++ [character encodeMap (sextet0 a), character encodeMap (sextet1 a b),
      character encodeMap (lastSextet2 b)]
  | count, [a] => feed insertLFs count ++ [character encodeMap (sextet0 a), character encodeMap (lastSextet1 a)]
  | _, [] => []

/-- How many line feeds are in front of `m` groups from group `k` on. -/
@[grind =] def feeds : Nat → Nat → Nat
  | _, 0 => 0
  | k, m + 1 => (if k ≠ 0 ∧ 4 * k % 76 = 0 then 1 else 0) + feeds (k + 1) m

theorem feeds_pos {k : Nat} (hk : 0 < k) (m : Nat) : feeds k m + (k + 18) / 19 = (k + m + 18) / 19 := by
  induction m generalizing k with
  | zero => simp [feeds]
  | succ m ih =>
    have hrest : feeds (k + 1) m + (k + 1 + 18) / 19 = (k + 1 + m + 18) / 19 := ih (Nat.succ_pos k)
    have hmod : 4 * k % 76 = 0 ↔ k % 19 = 0 := by omega
    simp only [feeds, hmod]
    split_ifs <;> omega

/-- A line feed stands behind every 76 characters but the last. -/
theorem feeds_zero (m : Nat) : feeds 0 m = (4 * m - 1) / 76 := by
  cases m with
  | zero => rfl
  | succ m =>
    have := feeds_pos Nat.one_pos m
    rw [feeds, if_neg (by simp), Nat.zero_add, Nat.zero_add]
    omega

theorem length_feed_four (k : Nat) : (feed true (4 * k)).length = if k ≠ 0 ∧ 4 * k % 76 = 0 then 1 else 0 := by
  unfold feed
  split_ifs <;> simp_all

theorem length_encodedText_feeds (encodeMap : List UInt8) (k : Nat) (data : List UInt8) :
    (encodedText encodeMap true (4 * k) data).length = (sextets data).length + feeds k ((data.length + 2) / 3) := by
  induction data using groups_induction generalizing k with
  | group a b c data ih =>
    have hgroups : ((a :: b :: c :: data).length + 2) / 3 = (data.length + 2) / 3 + 1 := by
      simp only [List.length_cons]
      omega
    have hcount : (if true = true then 4 * k + 4 else 4 * k) = 4 * (k + 1) := by
      simp only [if_true]
      omega
    rw [encodedText, hcount, List.length_append, List.length_append, length_feed_four, ih, hgroups, feeds, sextets]
    simp only [List.length_cons, List.length_nil]
    omega
  | pair a b =>
    rw [encodedText, List.length_append, length_feed_four]
    simp [sextets, feeds]
    omega
  | single a =>
    rw [encodedText, List.length_append, length_feed_four]
    simp [sextets, feeds]
    omega
  | nil => rfl

theorem length_encodedText (encodeMap : List UInt8) (data : List UInt8) :
    (encodedText encodeMap false 0 data).length = (sextets data).length := by
  induction data using groups_induction with
  | group a b c data ih => simp [encodedText, sextets, feed, ih]
  | pair a b => rfl
  | single a => rfl
  | nil => rfl

theorem forall_encodedText {encodeMap : List UInt8} {insertLFs : Bool} {P : UInt8 → Prop}
    (hfeed : insertLFs = true → P 0x0A) (hcharacter : ∀ s : UInt8, s.toNat < 64 → P (character encodeMap s))
    (count : Nat) (data : List UInt8) : ∀ c ∈ encodedText encodeMap insertLFs count data, P c := by
  have hfeeds : ∀ count, ∀ c ∈ feed insertLFs count, P c := by
    intro count c hc
    unfold feed at hc
    split_ifs at hc with h
    · rw [List.mem_singleton.1 hc]
      exact hfeed h.1
    · exact absurd hc List.not_mem_nil
  have hlt := @sextets_lt data
  induction data using groups_induction generalizing count with
  | group a b c data ih =>
    simp only [sextets, List.forall_mem_cons] at hlt
    obtain ⟨h0, h1, h2, h3, hrest⟩ := hlt
    rw [encodedText, sextet0_eq, sextet1_eq, sextet2_eq, sextet3_eq, List.forall_mem_append, List.forall_mem_append]
    refine ⟨⟨hfeeds count, ?_⟩, ih _ hrest⟩
    simp only [List.forall_mem_cons]
    exact ⟨hcharacter _ h0, hcharacter _ h1, hcharacter _ h2, hcharacter _ h3, fun _ h => absurd h List.not_mem_nil⟩
  | pair a b =>
    simp only [sextets, List.forall_mem_cons] at hlt
    obtain ⟨h0, h1, h2, -⟩ := hlt
    rw [encodedText, sextet0_eq, sextet1_eq, lastSextet2_eq, List.forall_mem_append]
    refine ⟨hfeeds count, ?_⟩
    simp only [List.forall_mem_cons]
    exact ⟨hcharacter _ h0, hcharacter _ h1, hcharacter _ h2, fun _ h => absurd h List.not_mem_nil⟩
  | single a =>
    simp only [sextets, List.forall_mem_cons] at hlt
    obtain ⟨h0, h1, -⟩ := hlt
    rw [encodedText, sextet0_eq, lastSextet1_eq, List.forall_mem_append]
    refine ⟨hfeeds count, ?_⟩
    simp only [List.forall_mem_cons]
    exact ⟨hcharacter _ h0, hcharacter _ h1, fun _ h => absurd h List.not_mem_nil⟩
  | nil =>
    intro c hc
    exact absurd hc List.not_mem_nil

/-- **Without line feeds the text is the sextets of the data.** -/
theorem encodedText_sextets {encodeMap : List UInt8} (value : UInt8 → Option UInt8) (hfeed : value 0x0A = none)
    (hvalue : ∀ s : UInt8, s.toNat < 64 → value (character encodeMap s) = some s) (insertLFs : Bool) (count : Nat)
    (data : List UInt8) : (encodedText encodeMap insertLFs count data).filterMap value = sextets data := by
  have hnone : ∀ count, (feed insertLFs count).filterMap value = [] := by
    intro count
    unfold feed
    split_ifs <;> simp [hfeed]
  have hlt := @sextets_lt data
  induction data using groups_induction generalizing count with
  | group a b c data ih =>
    simp only [sextets, List.forall_mem_cons] at hlt
    obtain ⟨h0, h1, h2, h3, hrest⟩ := hlt
    rw [encodedText, List.filterMap_append, List.filterMap_append, hnone, ih _ hrest, sextet0_eq, sextet1_eq, sextet2_eq,
      sextet3_eq]
    rw [List.filterMap_cons_some (hvalue _ h0), List.filterMap_cons_some (hvalue _ h1),
      List.filterMap_cons_some (hvalue _ h2), List.filterMap_cons_some (hvalue _ h3)]
    rfl
  | pair a b =>
    simp only [sextets, List.forall_mem_cons] at hlt
    obtain ⟨h0, h1, h2, -⟩ := hlt
    rw [encodedText, List.filterMap_append, hnone, sextet0_eq, sextet1_eq, lastSextet2_eq]
    rw [List.filterMap_cons_some (hvalue _ h0), List.filterMap_cons_some (hvalue _ h1),
      List.filterMap_cons_some (hvalue _ h2)]
    rfl
  | single a =>
    simp only [sextets, List.forall_mem_cons] at hlt
    obtain ⟨h0, h1, -⟩ := hlt
    rw [encodedText, List.filterMap_append, hnone, sextet0_eq, lastSextet1_eq]
    rw [List.filterMap_cons_some (hvalue _ h0), List.filterMap_cons_some (hvalue _ h1)]
    rfl
  | nil => rfl

/-! ## Filling the vector -/

/-- A vector of `size` cells of which the first ones are written. -/
def filled (written : List UInt8) (size : Nat) : Output where
  out := written.map some ++ List.replicate (size - written.length) none
  didx := written.length

theorem put_filled {written : List UInt8} {size : Nat} (h : written.length < size) (value : UInt8) :
    put (filled written size).out written.length value = some (filled (written ++ [value]) size).out := by
  obtain ⟨n, hn⟩ : ∃ n, size - written.length = n + 1 := ⟨size - written.length - 1, by omega⟩
  have hsize : size - (written ++ [value]).length = n := by
    rw [List.length_append, List.length_singleton]
    omega
  have hlt : written.length < (written.map some ++ List.replicate (n + 1) (none : Option UInt8)).length := by simp
  unfold put filled
  rw [hn, hsize, if_pos hlt]
  simp [List.replicate_succ]

theorem emit_filled {written : List UInt8} {size : Nat} (h : written.length < size) (value : UInt8) :
    (filled written size).emit value = some (filled (written ++ [value]) size) := by
  have hdidx : (filled written size).didx = written.length := rfl
  rw [Output.emit, hdidx, put_filled h]
  simp [filled]

theorem emit_all {written more : List UInt8} {size : Nat} (h : (written ++ more).length ≤ size) :
    more.foldlM Output.emit (filled written size) = some (filled (written ++ more) size) := by
  induction more generalizing written with
  | nil => simp
  | cons value more ih =>
    rw [List.length_append, List.length_cons] at h
    rw [List.foldlM_cons, emit_filled (by omega)]
    have hle : ((written ++ [value]) ++ more).length ≤ size := by
      simp only [List.length_append, List.length_singleton]
      omega
    have hrest := ih hle
    rw [List.append_assoc, List.singleton_append] at hrest
    exact hrest

theorem padLoop_filled {written : List UInt8} {n size : Nat} (h : written.length + n ≤ size) :
    padLoop n (filled written size) = some (filled (written ++ List.replicate n 0x3D) size) := by
  induction n generalizing written with
  | zero => simp [padLoop]
  | succ n ih =>
    rw [padLoop, emit_filled (by omega)]
    have hle : (written ++ [0x3D]).length + n ≤ size := by
      simp only [List.length_append, List.length_singleton]
      omega
    have hrest := ih hle
    rw [List.append_assoc, List.singleton_append] at hrest
    exact hrest

section

variable {encodeMap : List UInt8} (hmap : encodeMap.length = 64)
include hmap

theorem encodeMap_get {sextet : UInt8} (h : sextet.toNat < 64) :
    encodeMap[sextet.toNat]? = some (character encodeMap sextet) := by
  unfold character
  rw [List.getD_eq_getElem?_getD, List.getElem?_eq_getElem (by omega)]
  rfl

theorem sextet0_get (a : UInt8) : encodeMap[(sextet0 a).toNat]? = some (character encodeMap (sextet0 a)) := by
  have ha := a.toNat_lt
  apply encodeMap_get hmap
  rw [sextet0_eq, UInt8.toNat_ofNat']
  omega

theorem sextet1_get (a b : UInt8) : encodeMap[(sextet1 a b).toNat]? = some (character encodeMap (sextet1 a b)) := by
  have hb := b.toNat_lt
  apply encodeMap_get hmap
  rw [sextet1_eq, UInt8.toNat_ofNat']
  omega

theorem sextet2_get (b c : UInt8) : encodeMap[(sextet2 b c).toNat]? = some (character encodeMap (sextet2 b c)) := by
  have hc := c.toNat_lt
  apply encodeMap_get hmap
  rw [sextet2_eq, UInt8.toNat_ofNat']
  omega

theorem sextet3_get (c : UInt8) : encodeMap[(sextet3 c).toNat]? = some (character encodeMap (sextet3 c)) := by
  apply encodeMap_get hmap
  rw [sextet3_eq, UInt8.toNat_ofNat']
  omega

theorem lastSextet1_get (a : UInt8) : encodeMap[(lastSextet1 a).toNat]? = some (character encodeMap (lastSextet1 a)) := by
  apply encodeMap_get hmap
  rw [lastSextet1_eq, UInt8.toNat_ofNat']
  omega

theorem lastSextet2_get (b : UInt8) : encodeMap[(lastSextet2 b).toNat]? = some (character encodeMap (lastSextet2 b)) := by
  apply encodeMap_get hmap
  rw [lastSextet2_eq, UInt8.toNat_ofNat']
  omega

end

/-! ## The encoder -/

theorem emitFeed_filled (insertLFs : Bool) (count : Nat) {written : List UInt8} {size : Nat}
    (h : (written ++ feed insertLFs count).length ≤ size) :
    emitFeed insertLFs count (filled written size) = some (filled (written ++ feed insertLFs count) size) := by
  have hall := emit_all h
  unfold emitFeed
  unfold feed at hall ⊢
  split_ifs at hall ⊢
  · simpa using hall
  · simp

theorem encodeLoop_step {encodeMap : List UInt8} (hmap : encodeMap.length = 64) {insertLFs : Bool} {data : List UInt8}
    {a b c : UInt8} {sidx fuel count size : Nat} {written : List UInt8} (ha : data[sidx]? = some a)
    (hb : data[sidx + 1]? = some b) (hc : data[sidx + 2]? = some c)
    (hcount : (if insertLFs then count + 4 else count) ≤ intMax) (hsize : (written ++ feed insertLFs count).length + 4 ≤ size) :
    encodeLoop data encodeMap insertLFs (fuel + 1) sidx count (filled written size) =
      encodeLoop data encodeMap insertLFs fuel (sidx + 3) (if insertLFs then count + 4 else count)
        (filled (written ++ feed insertLFs count ++ [character encodeMap (sextet0 a), character encodeMap (sextet1 a b),
          character encodeMap (sextet2 b c), character encodeMap (sextet3 c)]) size) := by
  have hlen : sidx + 2 < data.length := (List.getElem?_eq_some_iff.1 hc).1
  have hfeed := emitFeed_filled insertLFs count (show (written ++ feed insertLFs count).length ≤ size by omega)
  rw [encodeLoop, if_pos (by omega)]
  simp only [hfeed, Option.bind_eq_bind, Option.bind_some, ha, hb, hc, sextet0_get hmap, sextet1_get hmap,
    sextet2_get hmap, sextet3_get hmap]
  rw [if_neg (Nat.not_lt.2 hcount)]
  generalize written ++ feed insertLFs count = written at hsize ⊢
  rw [emit_filled (by omega), Option.bind_some,
    emit_filled (by simp only [List.length_append, List.length_singleton]; omega), Option.bind_some,
    emit_filled (by simp only [List.length_append, List.length_singleton]; omega), Option.bind_some,
    emit_filled (by simp only [List.length_append, List.length_singleton]; omega), Option.bind_some]
  simp only [List.append_assoc, List.cons_append, List.nil_append]

theorem encodeLoop_stop (encodeMap : List UInt8) (insertLFs : Bool) {data : List UInt8} {fuel sidx count : Nat}
    {o : Output} (h : data.length ≤ sidx + 2) :
    encodeLoop data encodeMap insertLFs fuel sidx count o = some (sidx, count, o) := by
  have hstop : ¬ sidx < data.length - 2 := by omega
  cases fuel <;> simp [encodeLoop, hstop]

theorem encodeLoop_eq {encodeMap : List UInt8} (hmap : encodeMap.length = 64) {insertLFs : Bool} (data : List UInt8)
    {size : Nat} (rest front written : List UInt8) (fuel count : Nat) (hdata : data = front ++ rest)
    (hfuel : rest.length ≤ fuel) (hcount : (if insertLFs then count + 4 * (rest.length / 3) else count) ≤ intMax)
    (hsize : (written ++ encodedText encodeMap insertLFs count rest).length ≤ size) :
    ∃ sidx count' o, encodeLoop data encodeMap insertLFs fuel front.length count (filled written size) =
        some (sidx, count', o) ∧
      encodeTail data encodeMap insertLFs sidx count' o =
        some (filled (written ++ encodedText encodeMap insertLFs count rest) size) := by
  have hlen : data.length = front.length + rest.length := by rw [hdata, List.length_append]
  induction rest using groups_induction generalizing front written fuel count with
  | group a b c rest ih =>
    obtain ⟨fuel, rfl⟩ : ∃ n, fuel = n + 1 := ⟨fuel - 1, by simp only [List.length_cons] at hfuel; omega⟩
    simp only [List.length_cons] at hfuel hcount hlen
    have ha : data[front.length]? = some a := by rw [hdata]; simp
    have hb : data[front.length + 1]? = some b := by rw [hdata]; simp
    have hc : data[front.length + 2]? = some c := by rw [hdata]; simp
    rw [encodedText] at hsize ⊢
    rw [← List.append_assoc, ← List.append_assoc] at hsize ⊢
    have hsize' := hsize
    simp only [List.length_append, List.length_cons, List.length_nil] at hsize'
    have hnow : (if insertLFs then count + 4 else count) ≤ intMax := by split_ifs at hcount ⊢ <;> omega
    have hnext : (if insertLFs then (if insertLFs then count + 4 else count) + 4 * (rest.length / 3)
        else if insertLFs then count + 4 else count) ≤ intMax := by split_ifs at hcount ⊢ <;> omega
    have hfront : (front ++ [a, b, c]).length = front.length + 3 := by simp
    rw [encodeLoop_step hmap ha hb hc hnow (by rw [List.length_append]; omega), ← hfront]
    apply ih
    · rw [hdata, List.append_assoc]
      rfl
    · omega
    · exact hnext
    · exact hsize
    · rw [hfront]
      omega
  | pair a b =>
    have ha : data[front.length]? = some a := by rw [hdata]; simp
    have hb : data[front.length + 1]? = some b := by rw [hdata]; simp
    simp only [List.length_cons, List.length_nil] at hlen
    rw [encodedText, ← List.append_assoc] at hsize ⊢
    have hsize' := hsize
    simp only [List.length_append, List.length_cons, List.length_nil] at hsize'
    refine ⟨_, _, _, encodeLoop_stop encodeMap insertLFs (by omega), ?_⟩
    have hfeed := emitFeed_filled insertLFs count (show (written ++ feed insertLFs count).length ≤ size by
      rw [List.length_append]; omega)
    have hlast : front.length < data.length - 1 := by omega
    rw [encodeTail, if_pos (by omega)]
    simp only [hfeed, Option.bind_eq_bind, Option.bind_some, ha, hb, sextet0_get hmap, sextet1_get hmap,
      lastSextet2_get hmap, hlast, if_true]
    generalize written ++ feed insertLFs count = written at hsize hsize' ⊢
    have hall := emit_all hsize
    simpa using hall
  | single a =>
    have ha : data[front.length]? = some a := by rw [hdata]; simp
    simp only [List.length_cons, List.length_nil] at hlen
    rw [encodedText, ← List.append_assoc] at hsize ⊢
    have hsize' := hsize
    simp only [List.length_append, List.length_cons, List.length_nil] at hsize'
    refine ⟨_, _, _, encodeLoop_stop encodeMap insertLFs (by omega), ?_⟩
    have hfeed := emitFeed_filled insertLFs count (show (written ++ feed insertLFs count).length ≤ size by
      rw [List.length_append]; omega)
    have hlast : ¬ front.length < data.length - 1 := by omega
    rw [encodeTail, if_pos (by omega)]
    simp only [hfeed, Option.bind_eq_bind, Option.bind_some, ha, sextet0_get hmap, lastSextet1_get hmap, hlast, if_false]
    have hall := emit_all hsize
    simpa using hall
  | nil =>
    refine ⟨_, _, _, encodeLoop_stop encodeMap insertLFs (by rw [hlen]; simp), ?_⟩
    rw [encodeTail, if_neg (by rw [hlen]; simp), encodedText, List.append_nil]

theorem outLength_eq {policy : Base64EncodePolicy} {len : Nat} (h : len ≤ maxInputBufferSize) :
    outLength policy len = (len + 2) / 3 * 4 +
      if insertsLFs policy len then feeds 0 ((len + 2) / 3) else 0 := by
  have hmax : maxInputBufferSize = 3179391370 := rfl
  have hpadded : paddedLength len = (len + 2) / 3 * 4 := by
    unfold paddedLength
    omega
  rw [feeds_zero, outLength, hpadded, Nat.mul_comm]
  split_ifs <;> omega

theorem length_encodedText_zero (encodeMap : List UInt8) (insertLFs : Bool) (data : List UInt8) :
    (encodedText encodeMap insertLFs 0 data).length =
      (4 * data.length + 2) / 3 + if insertLFs then feeds 0 ((data.length + 2) / 3) else 0 := by
  cases insertLFs with
  | true =>
    have hlen := length_encodedText_feeds encodeMap 0 data
    rw [if_pos rfl, ← length_sextets, ← hlen, Nat.mul_zero]
  | false => rw [← length_sextets, length_encodedText encodeMap data, if_neg (by simp), Nat.add_zero]

/-- What the encoder returns: the text, padded unless the policy is `Base64URLPolicy`. -/
def encoded (policy : Base64EncodePolicy) (encodeMap : List UInt8) (data : List UInt8) : List UInt8 :=
  let text := encodedText encodeMap (insertsLFs policy data.length) 0 data
  if policy = .Base64URLPolicy then text
  else text ++ List.replicate (outLength policy data.length - text.length) 0x3D

theorem length_text_le (policy : Base64EncodePolicy) (encodeMap : List UInt8) {data : List UInt8}
    (hmax : data.length ≤ maxInputBufferSize) :
    (encodedText encodeMap (insertsLFs policy data.length) 0 data).length ≤ outLength policy data.length := by
  rw [length_encodedText_zero, outLength_eq hmax]
  omega

theorem take_filled (written : List UInt8) (size : Nat) :
    (filled written size).out.take written.length = written.map some := by
  have hlen : written.length = (written.map some).length := (List.length_map some).symm
  rw [filled]
  simp only
  rw [List.take_append_of_le_length hlen.le, List.take_of_length_le hlen.ge]

theorem out_filled {written : List UInt8} {size : Nat} (h : written.length = size) :
    (filled written size).out = written.map some := by
  rw [filled, h, Nat.sub_self, List.replicate_zero, List.append_nil]

/-- **The encoder writes the text**: it stays in the vector that it grew beforehand, and fills it up. -/
theorem base64EncodeInternal_eq {encodeMap : List UInt8} (hmap : encodeMap.length = 64) {policy : Base64EncodePolicy}
    {data : List UInt8} (hmax : data.length ≤ maxInputBufferSize)
    (hcount : insertsLFs policy data.length → 4 * (data.length / 3) ≤ intMax) :
    base64EncodeInternal data policy encodeMap = some ((encoded policy encodeMap data).map some) := by
  by_cases hzero : data.length = 0
  · obtain rfl := List.length_eq_zero_iff.1 hzero
    simp [base64EncodeInternal, encoded, encodedText, outLength, paddedLength, insertsLFs]
  have hfits := length_text_le policy encodeMap hmax
  rw [base64EncodeInternal, if_neg hzero, if_neg (Nat.not_lt.2 hmax), encoded]
  generalize insertsLFs policy data.length = insertLFs at hcount hfits ⊢
  generalize outLength policy data.length = size at hfits ⊢
  have hcount' : (if insertLFs then 0 + 4 * (data.length / 3) else 0) ≤ intMax := by
    split_ifs with h
    · rw [Nat.zero_add]
      exact hcount h
    · exact Nat.zero_le _
  obtain ⟨sidx, count, o, hloop, htail⟩ :=
    encodeLoop_eq hmap data data [] [] data.length 0 rfl le_rfl hcount' hfits
  rw [List.nil_append] at htail
  have hwhole : (if data.length > 1 then encodeLoop data encodeMap insertLFs data.length 0 0 (filled [] size)
      else some (0, 0, filled [] size)) = some (sidx, count, o) := by
    split_ifs with h
    · exact hloop
    · have hshort : data.length ≤ 0 + 2 := by omega
      rw [← hloop, List.length_nil, encodeLoop_stop encodeMap insertLFs hshort]
  have hempty : ({ out := List.replicate size none, didx := 0 } : Output) = filled [] size := rfl
  simp only [hempty, hwhole, htail, Option.bind_eq_bind, Option.bind_some]
  generalize encodedText encodeMap insertLFs 0 data = text at hfits ⊢
  split_ifs
  · rw [← take_filled text size]
    rfl
  · have hcells : (filled text size).out.length - (filled text size).didx = size - text.length := by
      simp [filled]
    rw [hcells, padLoop_filled (by omega), Option.bind_some, out_filled]
    · rfl
    · rw [List.length_append, List.length_replicate]
      omega

end WebKit.WTF.Base64
