import Mathlib.Data.List.Basic
import Mathlib.Data.Nat.Bitwise
import Mathlib.Tactic.Ring

/-!
# Bytes

- little-endian bytes: `littleEndian` and `ofLittleEndian`, inverse to each other on the numbers that fit
  (`ofLittleEndian_littleEndian`);
- `chunks`, the elements of an array of equal sizes (`chunks_flatMap`);
- `overwrite`, copying bytes over a part of a block (`overwrite_append`, `overwrite_middle`);
- masks: the low bits of a byte that is shifted (`shiftRight_and`, `shiftLeft_and`, `or_eq_add`), and clearing the low
  bits of a word, which rounds it down (`and_high`, `toNat_and_not_mask`);
- what is checked of the 256 bytes holds of every byte (`forall_uint8`).

A reader takes bytes from the front of what is left. `Reads r bytes a`: in front of whatever follows, the reader takes
exactly these bytes and returns `a`. The rules follow the reader, one part of it behind the other (`reads_pure`,
`Reads.bind`, `Reads.map`), down to the numbers (`reads_littleEndian`) and the blocks of bytes (`reads_block`).
-/

namespace WebKit.Lib

/-! ## Byte strings -/

section

/-- A property of bytes that can be decided for each. -/
theorem forall_uint8 {p : UInt8 → Prop} (h : ∀ i : Fin 256, p (UInt8.ofNat i)) (x : UInt8) : p x := by
  have := h ⟨x.toNat, x.toNat_lt⟩
  simpa using this

theorem ofNat_eq_byte {n : Nat} {b : UInt8} (h : n = b.toNat) : UInt8.ofNat n = b := by
  rw [h, UInt8.ofNat_toNat]

/-! ## Masks of a byte -/

theorem shiftRight_and (x : UInt8) {k m : Nat} (hk : k < 8) (hm : m ≤ 8) :
    (x >>> UInt8.ofNat k) &&& UInt8.ofNat (2 ^ m - 1) = UInt8.ofNat (x.toNat / 2 ^ k % 2 ^ m) := by
  apply UInt8.toNat.inj
  have hpow : 2 ^ m ≤ 2 ^ 8 := Nat.pow_le_pow_right (by decide) hm
  have hk' : k % 256 % 8 = k := by omega
  have hm' : (2 ^ m - 1) % 256 = 2 ^ m - 1 := Nat.mod_eq_of_lt (by omega)
  simp only [UInt8.toNat_and, UInt8.toNat_shiftRight, UInt8.toNat_ofNat']
  rw [hk', hm', Nat.and_two_pow_sub_one_eq_mod, Nat.shiftRight_eq_div_pow, @Nat.mod_eq_of_lt _ (2 ^ 8)]
  exact Nat.lt_of_lt_of_le (Nat.mod_lt _ (Nat.two_pow_pos m)) hpow

theorem shiftLeft_and (x : UInt8) {k m : Nat} (hk : k < 8) (hm : m ≤ 8) :
    (x <<< UInt8.ofNat k) &&& UInt8.ofNat (2 ^ m - 1) = UInt8.ofNat (x.toNat * 2 ^ k % 2 ^ m) := by
  apply UInt8.toNat.inj
  have hpow : 2 ^ m ≤ 2 ^ 8 := Nat.pow_le_pow_right (by decide) hm
  have hk' : k % 256 % 8 = k := by omega
  have hm' : (2 ^ m - 1) % 256 = 2 ^ m - 1 := Nat.mod_eq_of_lt (by omega)
  simp only [UInt8.toNat_and, UInt8.toNat_shiftLeft, UInt8.toNat_ofNat']
  rw [hk', hm', Nat.and_two_pow_sub_one_eq_mod, Nat.shiftLeft_eq, Nat.mod_mod_of_dvd _ (Nat.pow_dvd_pow 2 hm),
    @Nat.mod_eq_of_lt _ (2 ^ 8)]
  exact Nat.lt_of_lt_of_le (Nat.mod_lt _ (Nat.two_pow_pos m)) hpow

/-- The low bits of a byte. -/
theorem and_ones (x : UInt8) {m : Nat} (hm : m ≤ 8) :
    x &&& UInt8.ofNat (2 ^ m - 1) = UInt8.ofNat (x.toNat % 2 ^ m) := by
  have h := shiftRight_and x (show 0 < 8 by decide) hm
  have hzero : UInt8.ofNat 0 = 0 := rfl
  rw [pow_zero, Nat.div_one, hzero, UInt8.shiftRight_zero] at h
  exact h

/-- Bits put below bits that leave room for them. -/
theorem or_eq_add {low k : Nat} (high : Nat) (hlow : low < 2 ^ k) :
    UInt8.ofNat low ||| UInt8.ofNat (high * 2 ^ k) = UInt8.ofNat (high * 2 ^ k + low) := by
  rw [← UInt8.ofNat_or, Nat.or_comm, Nat.mul_comm, Nat.two_pow_add_eq_or_of_lt hlow]

/-! ## Little-endian numbers -/

/-- The `width` low bytes of a number, the lowest first. -/
@[grind =] def littleEndian : Nat → Nat → List UInt8
  | 0, _ => []
  | width + 1, value => UInt8.ofNat value :: littleEndian width (value / 256)

/-- The number whose bytes are given, the lowest first. -/
@[grind =] def ofLittleEndian : List UInt8 → Nat
  | [] => 0
  | byte :: bytes => byte.toNat + 256 * ofLittleEndian bytes

@[simp] theorem length_littleEndian (width value : Nat) : (littleEndian width value).length = width := by
  induction width generalizing value with
  | zero => rfl
  | succ width ih => simp [littleEndian, ih]

/-- A number that fits in `width` bytes is read back from them. -/
theorem ofLittleEndian_littleEndian {width value : Nat} (h : value < 256 ^ width) :
    ofLittleEndian (littleEndian width value) = value := by
  induction width generalizing value with
  | zero =>
    have : value = 0 := by simpa using h
    simp [littleEndian, ofLittleEndian, this]
  | succ width ih =>
    have hdiv : value / 256 < 256 ^ width := by
      rw [Nat.div_lt_iff_lt_mul (by omega)]
      simpa [pow_succ] using h
    have hbyte : (UInt8.ofNat value).toNat = value % 256 := by simp
    rw [littleEndian, ofLittleEndian, ih hdiv, hbyte]
    omega

theorem ofLittleEndian_lt (bytes : List UInt8) : ofLittleEndian bytes < 256 ^ bytes.length := by
  induction bytes with
  | nil => simp [ofLittleEndian]
  | cons byte bytes ih =>
    have hbyte := byte.toNat_lt
    rw [ofLittleEndian, List.length_cons, pow_succ]
    omega

/-! ## Arrays -/

variable {α β : Type}

/-- The first `count` pieces of `width` elements each. -/
@[grind =] def chunks (width : Nat) : Nat → List α → List (List α)
  | 0, _ => []
  | count + 1, items => items.take width :: chunks width count (items.drop width)

/-- The pieces of an array are its elements. -/
theorem chunks_flatMap {width : Nat} {f : β → List α} (hf : ∀ b, (f b).length = width) (values : List β) :
    chunks width values.length (values.flatMap f) = values.map f := by
  induction values with
  | nil => rfl
  | cons value values ih =>
    have htake : (f value ++ values.flatMap f).take width = f value := List.take_left' (hf value)
    have hdrop : (f value ++ values.flatMap f).drop width = values.flatMap f := List.drop_left' (hf value)
    rw [List.length_cons, List.flatMap_cons, chunks, htake, hdrop, ih, List.map_cons]

theorem length_flatMap_const {width : Nat} {f : β → List α} (hf : ∀ b, (f b).length = width) (values : List β) :
    (values.flatMap f).length = values.length * width := by
  induction values with
  | nil => simp
  | cons value values ih => simp [ih, hf, Nat.succ_mul, Nat.add_comm]

/-! ## Copying -/

/-- `block` with `data` copied to offset `start`; what would be past the end of the block is dropped. -/
@[grind =] def overwrite : List α → Nat → List α → List α
  | [], _, _ => []
  | item :: block, 0, [] => item :: block
  | _ :: block, 0, value :: data => value :: overwrite block 0 data
  | item :: block, start + 1, data => item :: overwrite block start data

@[simp] theorem length_overwrite (block : List α) (start : Nat) (data : List α) :
    (overwrite block start data).length = block.length := by
  fun_induction overwrite block start data with
  | case1 => rfl
  | case2 => rfl
  | case3 _ _ _ _ ih => simp [ih]
  | case4 _ _ _ _ ih => simp [ih]

theorem overwrite_zero {block data : List α} (h : block.length = data.length) : overwrite block 0 data = data := by
  induction block generalizing data with
  | nil => rw [overwrite, List.eq_nil_of_length_eq_zero h.symm]
  | cons item block ih =>
    cases data with
    | nil => simp at h
    | cons value data => rw [overwrite, ih (by simpa using h)]

theorem overwrite_append (front : List α) {block data : List α} (h : block.length = data.length) :
    overwrite (front ++ block) front.length data = front ++ data := by
  induction front with
  | nil => simpa using overwrite_zero h
  | cons item front ih => rw [List.cons_append, List.length_cons, overwrite, ih, List.cons_append]

theorem overwrite_zero_append {block data : List α} (h : block.length = data.length) (rest : List α) :
    overwrite (block ++ rest) 0 data = data ++ rest := by
  induction block generalizing data with
  | nil =>
    obtain rfl := List.eq_nil_of_length_eq_zero h.symm
    cases rest <;> rfl
  | cons item block ih =>
    cases data with
    | nil => simp at h
    | cons value data => rw [List.cons_append, overwrite, ih (by simpa using h), List.cons_append]

theorem overwrite_middle (front : List α) {block data : List α} (h : block.length = data.length) (rest : List α) :
    overwrite (front ++ (block ++ rest)) front.length data = front ++ (data ++ rest) := by
  induction front with
  | nil => exact overwrite_zero_append h rest
  | cons item front ih => rw [List.cons_append, List.length_cons, overwrite, ih, List.cons_append]

/-! ## Masks -/

/-- Keeping the bits from `k` on rounds down to a multiple of `2 ^ k`. -/
theorem and_high {x n k : Nat} (hx : x < 2 ^ n) (hk : k ≤ n) : x &&& (2 ^ n - 2 ^ k) = x / 2 ^ k * 2 ^ k := by
  have hsplit : 2 ^ n = 2 ^ k * 2 ^ (n - k) := by rw [← Nat.pow_add, Nat.add_sub_cancel' hk]
  have hmask : 2 ^ n - 2 ^ k = 2 ^ k * (2 ^ (n - k) - 1) := by rw [hsplit, Nat.mul_sub, Nat.mul_one]
  have hlt : x / 2 ^ k < 2 ^ (n - k) := Nat.div_lt_of_lt_mul (hsplit ▸ hx)
  have hdiv : (x &&& (2 ^ n - 2 ^ k)) / 2 ^ k = x / 2 ^ k := by
    rw [Nat.and_div_two_pow, hmask, Nat.mul_div_cancel_left _ (Nat.two_pow_pos k), Nat.and_two_pow_sub_one_eq_mod,
      Nat.mod_eq_of_lt hlt]
  have hmod : (x &&& (2 ^ n - 2 ^ k)) % 2 ^ k = 0 := by
    rw [Nat.and_mod_two_pow, hmask, Nat.mul_mod_right, Nat.and_zero]
  rw [← Nat.div_add_mod (x &&& (2 ^ n - 2 ^ k)) (2 ^ k), hdiv, hmod, Nat.add_zero, Nat.mul_comm]

theorem and_mask_add_and_not (x m : UInt64) : (x &&& m) + (x &&& ~~~m) = x := by
  have h : (x.toBitVec &&& m.toBitVec) + (x.toBitVec &&& ~~~m.toBitVec) = x.toBitVec := by
    rw [BitVec.add_eq_or_of_and_eq_zero]
    · rw [← BitVec.and_or_distrib_left, BitVec.or_not_self, BitVec.and_allOnes]
    · ext i; simp; grind
  exact UInt64.toBitVec_inj.mp h

/-- Clearing the `k` low bits rounds down to a multiple of `2 ^ k`. -/
theorem toNat_and_not_mask (x : UInt64) {k : Nat} (h : k < 64) :
    (x &&& ~~~(UInt64.ofNat (2 ^ k - 1))).toNat = x.toNat / 2 ^ k * 2 ^ k := by
  have hpow : 2 ^ k < 2 ^ 64 := Nat.pow_lt_pow_right (by omega) h
  have hmask : (UInt64.ofNat (2 ^ k - 1)).toNat = 2 ^ k - 1 :=
    UInt64.toNat_ofNat_of_lt' (by rw [UInt64.size]; omega)
  have hlow : (x &&& UInt64.ofNat (2 ^ k - 1)).toNat = x.toNat % 2 ^ k := by
    rw [UInt64.toNat_and, hmask, Nat.and_two_pow_sub_one_eq_mod]
  have hhigh : (x &&& ~~~(UInt64.ofNat (2 ^ k - 1))).toNat ≤ x.toNat := by
    rw [UInt64.toNat_and]
    exact Nat.and_le_left
  have hsum := congrArg UInt64.toNat (and_mask_add_and_not x (UInt64.ofNat (2 ^ k - 1)))
  rw [UInt64.toNat_add, hlow] at hsum
  have hx := x.toNat_lt
  have hdiv := Nat.div_add_mod x.toNat (2 ^ k)
  have hmod := Nat.mod_lt x.toNat (Nat.two_pow_pos k)
  rw [Nat.mul_comm]
  generalize 2 ^ k * (x.toNat / 2 ^ k) = high at hdiv ⊢
  omega

end

/-! ## Reading back what was written -/

section

/-- A reader of bytes that may stop with an error. -/
abbrev Reading (ε α : Type) := StateT (List UInt8) (Except ε) α

/-- The reader takes exactly these bytes and returns `a`. -/
def Reads {ε α : Type} (r : Reading ε α) (bytes : List UInt8) (a : α) : Prop :=
  ∀ rest, r.run (bytes ++ rest) = .ok (a, rest)

variable {ε α β : Type}

theorem reads_pure (a : α) : Reads (pure a : Reading ε α) [] a := fun _ => rfl

/-- One reader, and then another one with what it returned. -/
theorem Reads.bind {r : Reading ε α} {f : α → Reading ε β} {bytes bytes' : List UInt8} {a : α} {b : β}
    (h : Reads r bytes a) (h' : Reads (f a) bytes' b) : Reads (r >>= f) (bytes ++ bytes') b := by
  intro rest
  rw [List.append_assoc, StateT.run_bind, h]
  exact h' rest

/-- What a reader takes up to its last step, which takes nothing. -/
theorem Reads.bind_pure {r : Reading ε α} {f : α → Reading ε β} {bytes : List UInt8} {a : α} {b : β}
    (h : Reads r bytes a) (h' : Reads (f a) [] b) : Reads (r >>= f) bytes b := by
  have := h.bind h'
  rwa [List.append_nil] at this

theorem Reads.map {r : Reading ε α} {bytes : List UInt8} {a : α} (h : Reads r bytes a) (f : α → β) :
    Reads (f <$> r) bytes (f a) := by
  intro rest
  rw [StateT.run_map, h]
  rfl

/-- A little-endian number of `width` bytes, or the error where they are not there. -/
def readLittleEndian (error : ε) (width : Nat) : Reading ε Nat := fun bytes =>
  if bytes.length < width then .error error else .ok (ofLittleEndian (bytes.take width), bytes.drop width)

theorem reads_littleEndian (error : ε) {width value : Nat} (h : value < 256 ^ width) :
    Reads (readLittleEndian error width) (littleEndian width value) value := by
  intro rest
  have hlength := length_littleEndian width value
  have hfits : ¬(littleEndian width value ++ rest).length < width := by
    rw [List.length_append]
    omega
  show readLittleEndian error width _ = _
  rw [readLittleEndian, if_neg hfits, List.take_left' hlength, List.drop_left' hlength, ofLittleEndian_littleEndian h]

/-- A block of `size` bytes, or the error where they are not there. -/
def readBlock (error : ε) (size : Nat) : Reading ε (List UInt8) := fun bytes =>
  if bytes.length < size then .error error else .ok (bytes.take size, bytes.drop size)

theorem reads_block (error : ε) (block : List UInt8) : Reads (readBlock error block.length) block block := by
  intro rest
  have hfits : ¬(block ++ rest).length < block.length := by
    rw [List.length_append]
    omega
  show readBlock error block.length _ = _
  rw [readBlock, if_neg hfits, List.take_left, List.drop_left]

end

end WebKit.Lib
