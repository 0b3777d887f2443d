import WebKit.Lib.Bytes
import WebKit.Lib.Loop

/-!
# Big-endian numbers

`bigEndian` and `ofBigEndian` are inverse on the numbers that fit (`ofBigEndian_bigEndian`), and only the bytes that are
stored matter (`bigEndian_mod`). `storeBigEndian` is the usual loop that stores a number behind a place, the last byte
first (`toList_storeBigEndian`).
-/

namespace WebKit.Lib

/-- The `width` low bytes of a number, the highest first. -/
def bigEndian (width value : Nat) : List UInt8 := (littleEndian width value).reverse

@[simp] theorem length_bigEndian (width value : Nat) : (bigEndian width value).length = width := by
  simp [bigEndian]

theorem littleEndian_succ (width value : Nat) :
    littleEndian (width + 1) value = littleEndian width value ++ [UInt8.ofNat (value / 256 ^ width)] := by
  induction width generalizing value with
  | zero => simp [littleEndian]
  | succ width ih =>
    have hdiv : value / 256 / 256 ^ width = value / 256 ^ (width + 1) := by
      rw [Nat.div_div_eq_div_mul, pow_succ, Nat.mul_comm]
    rw [littleEndian, ih, hdiv, littleEndian, List.cons_append]

theorem bigEndian_succ (width value : Nat) :
    bigEndian (width + 1) value = UInt8.ofNat (value / 256 ^ width) :: bigEndian width value := by
  rw [bigEndian, littleEndian_succ, List.reverse_append, List.reverse_singleton, List.singleton_append, bigEndian]

/-- Only the bytes that are stored matter. -/
theorem bigEndian_mod (width value : Nat) : bigEndian width (value % 256 ^ width) = bigEndian width value := by
  have hlittle : ∀ value, littleEndian width (value % 256 ^ width) = littleEndian width value := by
    induction width with
    | zero => intro value; rfl
    | succ width ih =>
      intro value
      have hbyte : UInt8.ofNat (value % 256 ^ (width + 1)) = UInt8.ofNat value := by
        apply UInt8.toNat.inj
        rw [UInt8.toNat_ofNat', UInt8.toNat_ofNat', pow_succ, Nat.mod_mod_of_dvd _ (Nat.dvd_mul_left 256 _)]
      have hdiv : value % 256 ^ (width + 1) / 256 = value / 256 % 256 ^ width := by
        rw [pow_succ, Nat.mod_mul_left_div_self]
      rw [littleEndian, littleEndian, hbyte, hdiv, ih]
  rw [bigEndian, hlittle, bigEndian]

/-- The number whose bytes are given, the highest first. -/
def ofBigEndian (bytes : List UInt8) : Nat := ofLittleEndian bytes.reverse

theorem ofBigEndian_concat (bytes : List UInt8) (byte : UInt8) :
    ofBigEndian (bytes ++ [byte]) = ofBigEndian bytes * 256 + byte.toNat := by
  rw [ofBigEndian, List.reverse_append, List.reverse_singleton, List.singleton_append, ofLittleEndian, ofBigEndian]
  omega

theorem ofBigEndian_lt (bytes : List UInt8) : ofBigEndian bytes < 256 ^ bytes.length := by
  have h := ofLittleEndian_lt bytes.reverse
  rwa [List.length_reverse] at h

/-- A number that fits is read back. -/
theorem ofBigEndian_bigEndian {width value : Nat} (h : value < 256 ^ width) :
    ofBigEndian (bigEndian width value) = value := by
  rw [ofBigEndian, bigEndian, List.reverse_reverse, ofLittleEndian_littleEndian h]

/-! ## Storing -/

theorem store_lt {n start width i : Nat} (h : start + width ≤ n) (hi : i < width) : start + (width - 1 - i) < n := by
  omega

/-- The loop that stores the `width` low bytes of a value behind `start`, the last byte first. -/
def storeBigEndian {n : Nat} (start width value : Nat) (h : start + width ≤ n) (bytes : Vector UInt8 n) :
    Vector UInt8 n :=
  (Nat.fold width (fun i hi state =>
    (state.1.set (start + (width - 1 - i)) (UInt8.ofNat state.2) (store_lt h hi), state.2 / 256)) (bytes, value)).1

/-- **The bytes of the value are stored over what was there.** -/
theorem toList_storeBigEndian {n start width : Nat} (value : Nat) (h : start + width ≤ n) (bytes : Vector UInt8 n) :
    (storeBigEndian start width value h bytes).toList =
      bytes.toList.take start ++ (bigEndian width value ++ bytes.toList.drop (start + width)) := by
  have hloop := fold_invariant (n := width) (a := (bytes, value))
    (f := fun i _ state => (state.1.set (start + (width - 1 - i)) (UInt8.ofNat state.2), state.2 / 256))
    (motive := fun i state => i ≤ width → state.1.toList =
      bytes.toList.take (start + (width - i)) ++ (bigEndian i value ++ bytes.toList.drop (start + width)) ∧
        state.2 = value / 256 ^ i)
    (by simp [bigEndian, littleEndian]) ?_
  · obtain ⟨hbytes, -⟩ := hloop (Nat.le_refl width)
    rw [Nat.sub_self, Nat.add_zero] at hbytes
    exact hbytes
  · rintro i hi ⟨bytes', value'⟩ hstate hle
    obtain ⟨hbytes, hvalue⟩ := hstate hi.le
    have hplace : start + (width - i) = start + (width - 1 - i) + 1 := by omega
    have hlt : start + (width - 1 - i) < bytes.toList.length := by rw [Vector.length_toList]; omega
    have hstop : start + (width - (i + 1)) = start + (width - 1 - i) := by omega
    simp only at hbytes hvalue ⊢
    rw [hplace] at hbytes
    refine ⟨?_, by rw [hvalue, Nat.div_div_eq_div_mul, pow_succ]⟩
    rw [Vector.toList_set, hbytes, List.set_append_left _ _ (by rw [List.length_take]; omega), set_take_succ hlt, hstop,
      bigEndian_succ, hvalue, List.append_assoc, List.singleton_append, List.cons_append]

end WebKit.Lib
