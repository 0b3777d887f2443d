import WebKit.JSC.UnlinkedInstructionStream

/-!
# Unlinked instruction streams are lossless

`packed` are the bytes of an operand (`append32_eq`), which `read32` reads back (`read32_packed`). A stream is the bytes
of its instructions one after the other (`appendInstructions_eq`, `readInstructions_eq`), when the buffer has room for
them: five bytes for a slot are enough, but the size of the buffer is an `unsigned`, so they are there exactly for less
than 2 ^ 32 / 5 slots (`instruction_stream_lossless`).
-/

namespace WebKit.JSC

open WebKit.Lib

/-! ## Bits of operands -/

theorem and_mask_eq_iff {value mask c : UInt32} {k : Nat} (hk : k ≤ 32) (hmask : mask.toNat = 2 ^ 32 - 2 ^ k) :
    value &&& mask = c ↔ value.toNat / 2 ^ k * 2 ^ k = c.toNat := by
  rw [← UInt32.toNat_inj, UInt32.toNat_and, hmask, and_high value.toNat_lt hk]

/-- Low bits, as a byte. -/
theorem toUInt8_and {value mask : UInt32} {m : Nat} (hm : m ≤ 8) (hmask : mask.toNat = 2 ^ m - 1) :
    (value &&& mask).toUInt8 = UInt8.ofNat (value.toNat % 2 ^ m) := by
  have hlt : value.toNat % 2 ^ m < 2 ^ 8 :=
    Nat.lt_of_lt_of_le (Nat.mod_lt _ (Nat.two_pow_pos m)) (Nat.pow_le_pow_right (by decide) hm)
  apply UInt8.toNat.inj
  rw [UInt32.toNat_toUInt8, UInt32.toNat_and, hmask, Nat.and_two_pow_sub_one_eq_mod, UInt8.toNat_ofNat']

theorem toNat_shiftRight (value : UInt32) {k : Nat} (hk : k < 32) :
    (value >>> UInt32.ofNat k).toNat = value.toNat / 2 ^ k := by
  rw [UInt32.toNat_shiftRight, UInt32.toNat_ofNat_of_lt' (hk.trans (by decide)), Nat.mod_eq_of_lt hk,
    Nat.shiftRight_eq_div_pow]

theorem format_or {format : UInt8} {t r : Nat} (hformat : format <<< 5 = UInt8.ofNat (t * 2 ^ 5)) (hr : r < 2 ^ 5) :
    format <<< 5 ||| UInt8.ofNat r = UInt8.ofNat (t * 2 ^ 5 + r) := by
  rw [hformat, UInt8.or_comm, or_eq_add t hr]

/-- Bits put below bits that leave room for them. -/
theorem or_low {x low i : Nat} (hx : 2 ^ i ∣ x) (hlow : low < 2 ^ i) : x ||| low = x + low := by
  obtain ⟨y, rfl⟩ := hx
  rw [Nat.two_pow_add_eq_or_of_lt hlow]

/-- The bytes of an operand. -/
def packed (value : UInt32) : List UInt8 :=
  let v := value.toNat
  if v < 32 then [UInt8.ofNat v]
  else if 2 ^ 32 - 32 ≤ v then [UInt8.ofNat (1 * 2 ^ 5 + v % 2 ^ 5)]
  else if 0x40000000 ≤ v ∧ v < 0x40000020 then [UInt8.ofNat (4 * 2 ^ 5 + v % 2 ^ 5)]
  else if v < 8192 then [UInt8.ofNat (2 * 2 ^ 5 + v / 2 ^ 8 % 2 ^ 5), UInt8.ofNat (v % 2 ^ 8)]
  else if 2 ^ 32 - 8192 ≤ v then [UInt8.ofNat (3 * 2 ^ 5 + v / 2 ^ 8 % 2 ^ 5), UInt8.ofNat (v % 2 ^ 8)]
  else if 0x40000000 ≤ v ∧ v < 0x40002000 then
    [UInt8.ofNat (5 * 2 ^ 5 + v / 2 ^ 8 % 2 ^ 5), UInt8.ofNat (v % 2 ^ 8)]
  else [UInt8.ofNat (6 * 2 ^ 5), UInt8.ofNat (v % 2 ^ 8), UInt8.ofNat (v / 2 ^ 8 % 2 ^ 8),
    UInt8.ofNat (v / 2 ^ 16 % 2 ^ 8), UInt8.ofNat (v / 2 ^ 24 % 2 ^ 8)]

theorem length_packed (value : UInt32) : 1 ≤ (packed value).length ∧ (packed value).length ≤ 5 := by
  simp only [packed]
  split_ifs <;> simp

/-! ## Packing -/

namespace Packer

/-- Bytes that are written one after the other. -/
def put (ptr : Packer) (bytes : List UInt8) : Option Packer :=
  if ptr.written.length + bytes.length ≤ ptr.capacity then some { ptr with written := ptr.written ++ bytes } else none

theorem put_nil {ptr : Packer} (h : ptr.written.length ≤ ptr.capacity) : ptr.put [] = some ptr := by
  rw [put, List.length_nil, Nat.add_zero, if_pos h, List.append_nil]

theorem append8_eq_put (ptr : Packer) (value : UInt8) : ptr.append8 value = ptr.put [value] := by
  rw [append8, put]
  simp only [List.length_singleton, Nat.succ_le_iff]

theorem put_put (ptr : Packer) (bytes bytes' : List UInt8) :
    (ptr.put bytes).bind (fun ptr => ptr.put bytes') = ptr.put (bytes ++ bytes') := by
  by_cases h : ptr.written.length + bytes.length ≤ ptr.capacity
  · rw [put, if_pos h, Option.bind_some, put, put, List.length_append, List.length_append, List.append_assoc,
      Nat.add_assoc]
  · rw [put, if_neg h, Option.bind_none, put, if_neg]
    rw [List.length_append]
    omega

theorem le_of_put {ptr ptr' : Packer} {bytes : List UInt8} (h : ptr.put bytes = some ptr') :
    ptr'.written.length ≤ ptr'.capacity := by
  rw [put, Option.ite_none_right_eq_some] at h
  obtain ⟨hle, heq⟩ := h
  obtain rfl := Option.some.inj heq
  rw [List.length_append]
  exact hle

/-- **`append32` writes the bytes of the operand.** -/
theorem append32_eq (ptr : Packer) (value : UInt32) : ptr.append32 value = ptr.put (packed value) := by
  have hlt := value.toNat_lt
  have hshift8 : (value >>> 8).toNat = value.toNat / 2 ^ 8 := toNat_shiftRight value (k := 8) (by decide)
  have hshift16 : (value >>> 16).toNat = value.toNat / 2 ^ 16 := toNat_shiftRight value (k := 16) (by decide)
  have hshift24 : (value >>> 24).toNat = value.toNat / 2 ^ 24 := toNat_shiftRight value (k := 24) (by decide)
  have hlow5 : ∀ x : UInt32, (x &&& 0x1f).toUInt8 = UInt8.ofNat (x.toNat % 2 ^ 5) := fun x => toUInt8_and (by decide) rfl
  have hlow8 : ∀ x : UInt32, (x &&& 0xff).toUInt8 = UInt8.ofNat (x.toNat % 2 ^ 8) := fun x => toUInt8_and (by decide) rfl
  have hmask5 : ∀ c : UInt32, value &&& 0xffffffe0 = c ↔ value.toNat / 2 ^ 5 * 2 ^ 5 = c.toNat :=
    fun c => and_mask_eq_iff (by decide) rfl
  have hmask13 : ∀ c : UInt32, value &&& 0xffffe000 = c ↔ value.toNat / 2 ^ 13 * 2 ^ 13 = c.toNat :=
    fun c => and_mask_eq_iff (by decide) rfl
  have hpositive5 : value &&& 0xffffffe0 = 0 ↔ value.toNat < 32 := by
    rw [hmask5, UInt32.toNat_zero]
    omega
  have hnegative5 : value &&& 0xffffffe0 = 0xffffffe0 ↔ 2 ^ 32 - 32 ≤ value.toNat := by
    rw [hmask5, show (0xffffffe0 : UInt32).toNat = 2 ^ 32 - 32 from rfl]
    omega
  have hconstant5 : value &&& 0xffffffe0 = 0x40000000 ↔ 0x40000000 ≤ value.toNat ∧ value.toNat < 0x40000020 := by
    rw [hmask5, show (0x40000000 : UInt32).toNat = 0x40000000 from rfl]
    omega
  have hpositive13 : value &&& 0xffffe000 = 0 ↔ value.toNat < 8192 := by
    rw [hmask13, UInt32.toNat_zero]
    omega
  have hnegative13 : value &&& 0xffffe000 = 0xffffe000 ↔ 2 ^ 32 - 8192 ≤ value.toNat := by
    rw [hmask13, show (0xffffe000 : UInt32).toNat = 2 ^ 32 - 8192 from rfl]
    omega
  have hconstant13 : value &&& 0xffffe000 = 0x40000000 ↔ 0x40000000 ≤ value.toNat ∧ value.toNat < 0x40002000 := by
    rw [hmask13, show (0x40000000 : UInt32).toNat = 0x40000000 from rfl]
    omega
  have hbyte : value.toNat < 32 → value.toUInt8 = UInt8.ofNat value.toNat := fun _ => rfl
  have hmod5 : ∀ x : Nat, x % 2 ^ 5 < 2 ^ 5 := fun x => Nat.mod_lt x (by decide)
  simp only [append32, packed, hpositive5, hnegative5, hconstant5, hpositive13, hnegative13, hconstant13, hlow5, hlow8,
    hshift8, hshift16, hshift24, append8_eq_put]
  split_ifs with h
  · rw [hbyte h]
  · rw [format_or (t := 1) rfl (hmod5 _)]
  · rw [format_or (t := 4) rfl (hmod5 _)]
  · rw [format_or (t := 2) rfl (hmod5 _)]
    exact put_put ptr _ _
  · rw [format_or (t := 3) rfl (hmod5 _)]
    exact put_put ptr _ _
  · rw [format_or (t := 5) rfl (hmod5 _)]
    exact put_put ptr _ _
  · have hfull : Full32Bit <<< 5 = UInt8.ofNat (6 * 2 ^ 5) := rfl
    simp only [hfull, Option.bind_eq_bind, put_put, List.cons_append, List.nil_append]

end Packer

/-! ## Reading an operand -/

namespace UnlinkedInstructionStream

theorem toNat_high (t : Nat) {h : Nat} (ht : t < 8) (hh : h < 2 ^ 5) :
    ((UInt8.ofNat (t * 2 ^ 5 + h) &&& 0x1F).toUInt32 <<< 8).toNat = h * 2 ^ 8 := by
  have hand : (UInt8.ofNat (t * 2 ^ 5 + h) &&& 0x1F).toNat = h := by
    rw [UInt8.toNat_and, UInt8.toNat_ofNat_of_lt' (show _ < 256 by omega), show (0x1F : UInt8).toNat = 2 ^ 5 - 1 from rfl,
      Nat.and_two_pow_sub_one_eq_mod]
    omega
  rw [UInt32.toNat_shiftLeft, UInt8.toNat_toUInt32, hand, show (8 : UInt32).toNat % 32 = 8 from rfl, Nat.shiftLeft_eq,
    Nat.mod_eq_of_lt (by omega)]

/-- The bits of a two-byte format. -/
theorem toNat_thirteen (base : UInt32) (t : Nat) {h low : Nat} (hbase : 2 ^ 13 ∣ base.toNat) (ht : t < 8)
    (hh : h < 2 ^ 5) (hlow : low < 2 ^ 8) :
    (base ||| (UInt8.ofNat (t * 2 ^ 5 + h) &&& 0x1F).toUInt32 <<< 8 ||| (UInt8.ofNat low).toUInt32).toNat =
      base.toNat + h * 2 ^ 8 + low := by
  have hor : base.toNat ||| h * 2 ^ 8 = base.toNat + h * 2 ^ 8 := or_low hbase (by omega)
  have hdvd : 2 ^ 8 ∣ base.toNat + h * 2 ^ 8 :=
    Nat.dvd_add (Nat.dvd_trans (Nat.pow_dvd_pow 2 (by decide)) hbase) (Nat.dvd_mul_left _ _)
  rw [UInt32.toNat_or, UInt32.toNat_or, toNat_high t ht hh, UInt8.toNat_toUInt32, UInt8.toNat_ofNat_of_lt' hlow, hor,
    or_low hdvd hlow]

theorem format_eq (t : Nat) {r : Nat} (ht : t < 8) (hr : r < 2 ^ 5) :
    UInt8.ofNat (t * 2 ^ 5 + r) >>> 5 = UInt8.ofNat t := by
  apply UInt8.toNat.inj
  rw [UInt8.toNat_shiftRight, UInt8.toNat_ofNat_of_lt' (show _ < 256 by omega), UInt8.toNat_ofNat_of_lt' (show _ < 256 by omega),
    show (5 : UInt8).toNat % 8 = 5 from rfl, Nat.shiftRight_eq_div_pow]
  omega

theorem eq_of_toNat {value value' : UInt32} (h : value.toNat = value'.toNat) : value = value' := UInt32.toNat.inj h

theorem full_eq (value : UInt32) :
    (UInt8.ofNat (value.toNat % 2 ^ 8)).toUInt32 ||| (UInt8.ofNat (value.toNat / 2 ^ 8 % 2 ^ 8)).toUInt32 <<< 8 |||
      (UInt8.ofNat (value.toNat / 2 ^ 16 % 2 ^ 8)).toUInt32 <<< 16 |||
      (UInt8.ofNat (value.toNat / 2 ^ 24 % 2 ^ 8)).toUInt32 <<< 24 = value := by
  have hlt := value.toNat_lt
  have hmod : ∀ x : Nat, x % 2 ^ 8 < 2 ^ 8 := fun x => Nat.mod_lt x (by decide)
  have hshift : ∀ (x k : Nat), k ≤ 24 → ((UInt8.ofNat (x % 2 ^ 8)).toUInt32 <<< UInt32.ofNat k).toNat =
      x % 2 ^ 8 * 2 ^ k := by
    intro x k hk
    have hpow : 2 ^ k ≤ 2 ^ 24 := Nat.pow_le_pow_right (by decide) hk
    have hprod : x % 2 ^ 8 * 2 ^ k < 2 ^ 32 :=
      Nat.lt_of_lt_of_le (Nat.mul_lt_mul_of_pos_right (hmod x) (Nat.two_pow_pos k)) (Nat.mul_le_mul_left (2 ^ 8) hpow)
    rw [UInt32.toNat_shiftLeft, UInt8.toNat_toUInt32, UInt8.toNat_ofNat_of_lt' (hmod x),
      UInt32.toNat_ofNat_of_lt' (by rw [UInt32.size]; omega), Nat.mod_eq_of_lt (show k < 32 by omega), Nat.shiftLeft_eq,
      Nat.mod_eq_of_lt hprod]
  have h8 := hshift (value.toNat / 2 ^ 8) 8 (by decide)
  have h16 := hshift (value.toNat / 2 ^ 16) 16 (by decide)
  have h24 := hshift (value.toNat / 2 ^ 24) 24 (by decide)
  have hor : ∀ {x y k : Nat}, x < 2 ^ k → x ||| y * 2 ^ k = y * 2 ^ k + x := by
    intro x y k hx
    rw [Nat.or_comm, or_low (Nat.dvd_mul_left _ _) hx]
  apply eq_of_toNat
  rw [UInt32.toNat_or, UInt32.toNat_or, UInt32.toNat_or, UInt8.toNat_toUInt32, UInt8.toNat_ofNat_of_lt' (hmod _)]
  rw [show (8 : UInt32) = UInt32.ofNat 8 from rfl, show (16 : UInt32) = UInt32.ofNat 16 from rfl,
    show (24 : UInt32) = UInt32.ofNat 24 from rfl, h8, h16, h24]
  rw [hor (hmod _), hor (k := 16) (by omega), hor (k := 24) (by omega)]
  omega

namespace Reader

variable {stream : UnlinkedInstructionStream}

/-- **`read32` reads the bytes of an operand back.** -/
theorem read32_packed (value : UInt32) {front back : List UInt8} (h : stream.data = front ++ packed value ++ back) :
    read32 stream front.length = some (value, front.length + (packed value).length) := by
  have hlt := value.toNat_lt
  have hmod5 : ∀ x : Nat, x % 2 ^ 5 < 2 ^ 5 := fun x => Nat.mod_lt x (by decide)
  have hmod8 : ∀ x : Nat, x % 2 ^ 8 < 2 ^ 8 := fun x => Nat.mod_lt x (by decide)
  have hget : ∀ k b, (packed value)[k]? = some b → stream.data[front.length + k]? = some b := by
    intro k b hb
    obtain ⟨hk, -⟩ := List.getElem?_eq_some_iff.1 hb
    rw [h, List.append_assoc, List.getElem?_append_right (Nat.le_add_right _ _), Nat.add_sub_cancel_left,
      List.getElem?_append_left hk, hb]
  have hget0 : ∀ b, (packed value)[0]? = some b → stream.data[front.length]? = some b := fun b => hget 0 b
  rw [packed] at hget hget0 ⊢
  split_ifs at hget hget0 ⊢ with h5 hn5 hc5 h13 hn13 hc13
  · have hformat := format_eq 0 (by decide) h5
    rw [Nat.zero_mul, Nat.zero_add] at hformat
    have hvalue : (UInt8.ofNat value.toNat).toUInt32 = value := by
      apply eq_of_toNat
      rw [UInt8.toNat_toUInt32, UInt8.toNat_ofNat_of_lt' (show _ < 256 by omega)]
    simp only [read32, hget0 _ rfl, Option.bind_eq_bind, Option.bind_some, hformat, hvalue]
    rfl
  · have hformat := format_eq 1 (by decide) (hmod5 value.toNat)
    have hvalue : 0xffffffe0 ||| (UInt8.ofNat (1 * 2 ^ 5 + value.toNat % 2 ^ 5)).toUInt32 = value := by
      apply eq_of_toNat
      have hor : ∀ r < 2 ^ 5, 0xffffffe0 ||| (1 * 2 ^ 5 + r) = 0xffffffe0 + r := by decide
      rw [UInt32.toNat_or, UInt8.toNat_toUInt32, UInt8.toNat_ofNat_of_lt' (show _ < 256 by omega),
        show (0xffffffe0 : UInt32).toNat = 0xffffffe0 from rfl, hor _ (hmod5 _)]
      omega
    simp only [read32, hget0 _ rfl, Option.bind_eq_bind, Option.bind_some, hformat, hvalue]
    rfl
  · have hformat := format_eq 4 (by decide) (hmod5 value.toNat)
    have hvalue : 0x40000000 ||| (UInt8.ofNat (4 * 2 ^ 5 + value.toNat % 2 ^ 5) &&& 0x1F).toUInt32 = value := by
      apply eq_of_toNat
      have hand : (UInt8.ofNat (4 * 2 ^ 5 + value.toNat % 2 ^ 5) &&& 0x1F).toNat = value.toNat % 2 ^ 5 := by
        rw [UInt8.toNat_and, UInt8.toNat_ofNat_of_lt' (show _ < 256 by omega),
          show (0x1F : UInt8).toNat = 2 ^ 5 - 1 from rfl, Nat.and_two_pow_sub_one_eq_mod]
        omega
      rw [UInt32.toNat_or, UInt8.toNat_toUInt32, hand, show (0x40000000 : UInt32).toNat = 2 ^ 30 from rfl,
        or_low (Nat.dvd_refl _) (by omega)]
      omega
    simp only [read32, hget0 _ rfl, Option.bind_eq_bind, Option.bind_some, hformat, hvalue]
    rfl
  · have hformat := format_eq 2 (by decide) (hmod5 (value.toNat / 2 ^ 8))
    have hvalue := toNat_thirteen 0 2 (Nat.dvd_zero _) (by decide) (hmod5 (value.toNat / 2 ^ 8)) (hmod8 value.toNat)
    rw [UInt32.zero_or, UInt32.toNat_zero] at hvalue
    simp only [read32, hget0 _ rfl, hget 1 _ rfl, Option.bind_eq_bind, Option.bind_some, hformat]
    refine congrArg some (Prod.ext (eq_of_toNat (hvalue.trans ?_)) rfl)
    show _ = value.toNat
    omega
  · have hformat := format_eq 3 (by decide) (hmod5 (value.toNat / 2 ^ 8))
    have hvalue := toNat_thirteen 0xffffe000 3 (by decide) (by decide) (hmod5 (value.toNat / 2 ^ 8)) (hmod8 value.toNat)
    simp only [read32, hget0 _ rfl, hget 1 _ rfl, Option.bind_eq_bind, Option.bind_some, hformat]
    refine congrArg some (Prod.ext (eq_of_toNat (hvalue.trans ?_)) rfl)
    show 2 ^ 32 - 8192 + _ + _ = value.toNat
    omega
  · have hformat := format_eq 5 (by decide) (hmod5 (value.toNat / 2 ^ 8))
    have hvalue := toNat_thirteen 0x40000000 5 (by decide) (by decide) (hmod5 (value.toNat / 2 ^ 8)) (hmod8 value.toNat)
    simp only [read32, hget0 _ rfl, hget 1 _ rfl, Option.bind_eq_bind, Option.bind_some, hformat]
    refine congrArg some (Prod.ext (eq_of_toNat (hvalue.trans ?_)) rfl)
    show 2 ^ 30 + _ + _ = value.toNat
    omega
  · have hformat : UInt8.ofNat (6 * 2 ^ 5) >>> 5 = 6 := rfl
    simp only [read32, hget0 _ rfl, hget 1 _ rfl, hget 2 _ rfl, hget 3 _ rfl, hget 4 _ rfl, Option.bind_eq_bind,
      Option.bind_some, hformat]
    exact congrArg some (Prod.ext (full_eq value) rfl)

end Reader

/-! ## Instructions -/

/-- An opcode, and as many operands as it asks for. -/
structure UnlinkedInstruction (table : OpcodeTable) where
  opcode : Nat
  operands : List UInt32
  length_eq : table.lengths[opcode]? = some (operands.length + 1)

namespace UnlinkedInstruction

variable {table : OpcodeTable}

def slots (instruction : UnlinkedInstruction table) : List UInt32 :=
  UInt32.ofNat instruction.opcode :: instruction.operands

/-- Its bytes in a stream. -/
def encoded (instruction : UnlinkedInstruction table) : List UInt8 :=
  UInt8.ofNat instruction.opcode :: instruction.operands.flatMap packed

theorem opcode_lt (instruction : UnlinkedInstruction table) : instruction.opcode < 256 :=
  Nat.lt_of_lt_of_le (List.getElem?_eq_some_iff.1 instruction.length_eq).1 table.numOpcodeIDs_le

theorem length_operands (instruction : UnlinkedInstruction table) : instruction.operands.length + 1 ≤ 16 :=
  (table.length_bounds _ (List.mem_of_getElem? instruction.length_eq)).2

theorem opcodeLength_eq (instruction : UnlinkedInstruction table) :
    table.opcodeLength (UInt32.ofNat instruction.opcode) = some (instruction.operands.length + 1) := by
  have hlt := instruction.opcode_lt
  rw [OpcodeTable.opcodeLength, UInt32.toNat_ofNat_of_lt' (show _ < 2 ^ 32 by omega), instruction.length_eq]

theorem toUInt8_opcode (instruction : UnlinkedInstruction table) :
    (UInt32.ofNat instruction.opcode).toUInt8 = UInt8.ofNat instruction.opcode := by
  have hlt := instruction.opcode_lt
  apply UInt8.toNat.inj
  rw [UInt32.toNat_toUInt8, UInt32.toNat_ofNat_of_lt' (show _ < 2 ^ 32 by omega), UInt8.toNat_ofNat']

theorem toUInt32_opcode (instruction : UnlinkedInstruction table) :
    (UInt8.ofNat instruction.opcode).toUInt32 = UInt32.ofNat instruction.opcode := by
  have hlt := instruction.opcode_lt
  apply UInt32.toNat.inj
  rw [UInt8.toNat_toUInt32, UInt32.toNat_ofNat_of_lt' (show _ < 2 ^ 32 by omega),
    UInt8.toNat_ofNat_of_lt' (show _ < 256 by omega)]

end UnlinkedInstruction

theorem length_flatMap_packed (operands : List UInt32) :
    operands.length ≤ (operands.flatMap packed).length ∧ (operands.flatMap packed).length ≤ 5 * operands.length := by
  induction operands with
  | nil => simp
  | cons value operands ih =>
    obtain ⟨hlow, hhigh⟩ := length_packed value
    rw [List.flatMap_cons, List.length_append, List.length_cons]
    omega

variable {table : OpcodeTable}

theorem length_encoded (instructions : List (UnlinkedInstruction table)) :
    (instructions.flatMap (·.slots)).length ≤ (instructions.flatMap (·.encoded)).length ∧
      (instructions.flatMap (·.encoded)).length ≤ 5 * (instructions.flatMap (·.slots)).length := by
  induction instructions with
  | nil => simp
  | cons instruction instructions ih =>
    obtain ⟨hlow, hhigh⟩ := length_flatMap_packed instruction.operands
    have hslots : instruction.slots.length = instruction.operands.length + 1 := List.length_cons
    have hencoded : instruction.encoded.length = (instruction.operands.flatMap packed).length + 1 := List.length_cons
    rw [List.flatMap_cons, List.flatMap_cons, List.length_append, List.length_append, hslots, hencoded]
    omega

theorem appendOperands_eq (operands : List UInt32) : ∀ {instructions front back : List UInt32} {ptr : Packer},
    instructions = front ++ operands ++ back → ptr.written.length ≤ ptr.capacity →
    appendOperands instructions operands.length front.length ptr = ptr.put (operands.flatMap packed) := by
  induction operands with
  | nil =>
    intro instructions front back ptr _ hptr
    exact (Packer.put_nil hptr).symm
  | cons value operands ih =>
    intro instructions front back ptr h hptr
    have hget : instructions[front.length]? = some value := by
      rw [h, List.append_assoc, List.getElem?_append_right (Nat.le_refl _), Nat.sub_self]
      rfl
    have htail : instructions = (front ++ [value]) ++ operands ++ back := by rw [h]; simp
    rw [List.length_cons, appendOperands, hget, List.flatMap_cons, ← Packer.put_put, Option.bind_eq_bind,
      Option.bind_some, Packer.append32_eq]
    by_cases hfits : ptr.written.length + (packed value).length ≤ ptr.capacity
    · have hput : ptr.put (packed value) = some { ptr with written := ptr.written ++ packed value } := if_pos hfits
      have hlength : (front ++ [value]).length = front.length + 1 := by rw [List.length_append, List.length_singleton]
      rw [hput, Option.bind_eq_bind, Option.bind_some, Option.bind_some, ← hlength]
      exact ih htail (by simpa using hfits)
    · have hput : ptr.put (packed value) = none := if_neg hfits
      rw [hput, Option.bind_eq_bind, Option.bind_none, Option.bind_none]

/-- **The constructor writes the bytes of the instructions**, as far as the buffer reaches. -/
theorem appendInstructions_eq (instructions : List (UnlinkedInstruction table)) :
    ∀ {all front : List UInt32} {fuel : Nat} {ptr : Packer}, all = front ++ instructions.flatMap (·.slots) →
    instructions.length < fuel → ptr.written.length ≤ ptr.capacity →
    appendInstructions table all fuel front.length ptr = ptr.put (instructions.flatMap (·.encoded)) := by
  induction instructions with
  | nil =>
    intro all front fuel ptr h hfuel hptr
    obtain ⟨fuel, rfl⟩ := Nat.exists_eq_succ_of_ne_zero (Nat.ne_of_gt hfuel)
    rw [appendInstructions, if_neg (by simp [h])]
    exact (Packer.put_nil hptr).symm
  | cons instruction instructions ih =>
    intro all front fuel ptr h hfuel hptr
    obtain ⟨fuel, rfl⟩ := Nat.exists_eq_succ_of_ne_zero (Nat.ne_of_gt (Nat.lt_of_le_of_lt (Nat.zero_le _) hfuel))
    have hslots : all = front ++ UInt32.ofNat instruction.opcode ::
        (instruction.operands ++ instructions.flatMap (·.slots)) := h
    have hlt : front.length < all.length := by rw [hslots]; simp
    have hget : all[front.length]? = some (UInt32.ofNat instruction.opcode) := by
      rw [hslots, List.getElem?_append_right (Nat.le_refl _), Nat.sub_self]
      rfl
    have hoperands : all = (front ++ [UInt32.ofNat instruction.opcode]) ++ instruction.operands ++
        instructions.flatMap (·.slots) := by rw [hslots]; simp
    have hlength : (front ++ [UInt32.ofNat instruction.opcode]).length = front.length + 1 := by
      rw [List.length_append, List.length_singleton]
    have hrest : all = (front ++ instruction.slots) ++ instructions.flatMap (·.slots) := by
      rw [h, List.flatMap_cons, List.append_assoc]
    have hlength' : (front ++ instruction.slots).length = front.length + (instruction.operands.length + 1) := by
      rw [List.length_append]
      rfl
    rw [appendInstructions, if_pos hlt]
    simp only [hget, Option.bind_eq_bind, Option.bind_some, instruction.opcodeLength_eq, Packer.append8_eq_put,
      instruction.toUInt8_opcode, Nat.add_sub_cancel]
    have hencoded : (instruction :: instructions).flatMap (·.encoded) = [UInt8.ofNat instruction.opcode] ++
        (instruction.operands.flatMap packed ++ instructions.flatMap (·.encoded)) := rfl
    rw [hencoded, ← Packer.put_put, ← hlength, ← hlength']
    cases hput : ptr.put [UInt8.ofNat instruction.opcode] with
    | none => rfl
    | some ptr' =>
      have hptr' : ptr'.written.length ≤ ptr'.capacity := Packer.le_of_put hput
      rw [Option.bind_some, Option.bind_some, ← Packer.put_put, appendOperands_eq instruction.operands hoperands hptr']
      cases hput' : ptr'.put (instruction.operands.flatMap packed) with
      | none => rfl
      | some ptr'' => exact ih hrest (by simpa using hfuel) (Packer.le_of_put hput')

/-! ## Reading instructions -/

namespace Reader

theorem readOperands_eq {stream : UnlinkedInstructionStream} (operands : List UInt32) :
    ∀ {front back : List UInt8} (i : Nat) (reader : Reader), stream.data = front ++ operands.flatMap packed ++ back →
    reader.index = front.length → i + operands.length ≤ reader.unpackedBuffer.length →
    ∃ reader', readOperands stream operands.length i reader = some reader' ∧
      reader'.index = front.length + (operands.flatMap packed).length ∧
      reader'.unpackedBuffer.length = reader.unpackedBuffer.length ∧
      reader'.unpackedBuffer.take (i + operands.length) = reader.unpackedBuffer.take i ++ operands := by
  induction operands with
  | nil =>
    intro front back i reader _ hindex _
    exact ⟨reader, rfl, by simp [hindex], rfl, by simp⟩
  | cons value operands ih =>
    intro front back i reader h hindex hfits
    rw [List.length_cons] at hfits
    have hi : i < reader.unpackedBuffer.length := by omega
    have hread : read32 stream front.length = some (value, front.length + (packed value).length) := by
      have hsplit : stream.data = front ++ packed value ++ (operands.flatMap packed ++ back) := by
        rw [h, List.flatMap_cons]
        simp
      exact read32_packed value hsplit
    have hdata : stream.data = (front ++ packed value) ++ operands.flatMap packed ++ back := by
      rw [h, List.flatMap_cons]
      simp
    obtain ⟨reader', hreader', hindex', hlength', htake'⟩ := ih (i + 1)
      { index := front.length + (packed value).length, unpackedBuffer := reader.unpackedBuffer.set i value }
      hdata (by rw [List.length_append]) (by rw [List.length_set]; omega)
    refine ⟨reader', ?_, ?_, ?_, ?_⟩
    · rw [List.length_cons, readOperands, hindex, hread]
      simp only [Option.bind_eq_bind, Option.bind_some, store, if_pos hi]
      exact hreader'
    · rw [hindex', List.length_append, List.flatMap_cons, List.length_append, Nat.add_assoc]
    · rw [hlength', List.length_set]
    · have hset : (reader.unpackedBuffer.set i value).take (i + 1) = reader.unpackedBuffer.take i ++ [value] := by
        rw [List.take_succ_eq_append_getElem (by rw [List.length_set]; exact hi), List.getElem_set_self,
          List.take_set_of_le (Nat.le_refl i)]
      rw [List.length_cons, Nat.add_comm operands.length 1, ← Nat.add_assoc, htake', hset, List.append_assoc]
      rfl

theorem next_eq {stream : UnlinkedInstructionStream} {instruction : UnlinkedInstruction table}
    {front back : List UInt8} {reader : Reader} (h : stream.data = front ++ instruction.encoded ++ back)
    (hindex : reader.index = front.length) (hbuffer : reader.unpackedBuffer.length = 16) :
    ∃ reader', next table stream reader = some reader' ∧
      reader'.index = front.length + instruction.encoded.length ∧ reader'.unpackedBuffer.length = 16 ∧
      reader'.unpackedBuffer.take (instruction.operands.length + 1) = instruction.slots := by
  have hpos : 0 < reader.unpackedBuffer.length := by omega
  have hle := instruction.length_operands
  have hdata : stream.data = (front ++ [UInt8.ofNat instruction.opcode]) ++ instruction.operands.flatMap packed ++
      back := by
    rw [h, UnlinkedInstruction.encoded]
    simp
  have hget : stream.data[front.length]? = some (UInt8.ofNat instruction.opcode) := by
    rw [h, UnlinkedInstruction.encoded, List.append_assoc, List.getElem?_append_right (Nat.le_refl _), Nat.sub_self]
    rfl
  obtain ⟨reader', hreader', hindex', hlength', htake'⟩ := readOperands_eq instruction.operands 1
    { index := front.length + 1, unpackedBuffer := reader.unpackedBuffer.set 0 (UInt32.ofNat instruction.opcode) }
    hdata (by rw [List.length_append, List.length_singleton]) (by rw [List.length_set]; omega)
  refine ⟨reader', ?_, ?_, ?_, ?_⟩
  · simp only [next, read8, hindex, hget, Option.bind_eq_bind, Option.bind_some, store, if_pos hpos,
      instruction.toUInt32_opcode, instruction.opcodeLength_eq, Nat.add_sub_cancel, Option.pure_def]
    exact hreader'
  · rw [hindex', UnlinkedInstruction.encoded, List.length_append, List.length_singleton, List.length_cons]
    omega
  · rw [hlength', List.length_set, hbuffer]
  · have hset : (reader.unpackedBuffer.set 0 (UInt32.ofNat instruction.opcode)).take 1 =
        [UInt32.ofNat instruction.opcode] := by
      obtain ⟨slot, buffer, hcons⟩ := List.exists_cons_of_length_pos hpos
      rw [hcons]
      rfl
    rw [Nat.add_comm, htake', hset]
    rfl

end Reader

theorem readInstructions_eq {stream : UnlinkedInstructionStream} (instructions : List (UnlinkedInstruction table)) :
    ∀ {front : List UInt8} {fuel : Nat} {reader : Reader}, stream.data = front ++ instructions.flatMap (·.encoded) →
    instructions.length < fuel → reader.index = front.length → reader.unpackedBuffer.length = 16 →
    readInstructions table stream fuel reader = some (instructions.map (·.slots)) := by
  induction instructions with
  | nil =>
    intro front fuel reader h hfuel hindex _
    obtain ⟨fuel, rfl⟩ := Nat.exists_eq_succ_of_ne_zero (Nat.ne_of_gt hfuel)
    have hend : reader.atEnd stream = true := by
      rw [Reader.atEnd, hindex, h]
      simp
    rw [readInstructions, if_pos hend, List.map_nil]
  | cons instruction instructions ih =>
    intro front fuel reader h hfuel hindex hbuffer
    obtain ⟨fuel, rfl⟩ := Nat.exists_eq_succ_of_ne_zero (Nat.ne_of_gt (Nat.lt_of_le_of_lt (Nat.zero_le _) hfuel))
    rw [List.flatMap_cons, ← List.append_assoc] at h
    have hend : ¬ reader.atEnd stream = true := by
      rw [Reader.atEnd, hindex, h, UnlinkedInstruction.encoded]
      simp
    obtain ⟨reader', hnext, hindex', hbuffer', htake⟩ := Reader.next_eq h hindex hbuffer
    have hopcode : reader'.unpackedBuffer[0]? = some (UInt32.ofNat instruction.opcode) := by
      have hzero : (reader'.unpackedBuffer.take (instruction.operands.length + 1))[0]? =
          some (UInt32.ofNat instruction.opcode) := by
        rw [htake]
        rfl
      rwa [List.getElem?_take, if_pos (Nat.succ_pos _)] at hzero
    have hrest : readInstructions table stream fuel reader' = some (instructions.map (·.slots)) :=
      ih h (by simpa using hfuel) (by rw [hindex', List.length_append]) hbuffer'
    rw [readInstructions, if_neg hend]
    simp only [hnext, hopcode, instruction.opcodeLength_eq, hrest, htake, Option.bind_eq_bind, Option.bind_some,
      List.map_cons]
    rfl

/-! ## The round trip -/

/-- The instructions come back from the stream, which has no more than five bytes for a slot. -/
def Lossless (instructions : List (UnlinkedInstruction table)) : Prop :=
  ∃ stream, pack table (instructions.flatMap (·.slots)) = some stream ∧
    unpack table stream = some (instructions.map (·.slots)) ∧
    stream.count = (instructions.flatMap (·.slots)).length ∧
    stream.data.length ≤ 5 * (instructions.flatMap (·.slots)).length

theorem pack_eq (instructions : List (UnlinkedInstruction table)) :
    pack table (instructions.flatMap (·.slots)) =
      if (instructions.flatMap (·.encoded)).length ≤ (instructions.flatMap (·.slots)).length * 5 % 2 ^ 32 then
        some { data := instructions.flatMap (·.encoded), instructionCount := (instructions.flatMap (·.slots)).length }
      else none := by
  have hlength : instructions.length ≤ (instructions.flatMap (·.slots)).length := by
    induction instructions with
    | nil => simp
    | cons instruction instructions ih =>
      rw [List.flatMap_cons, List.length_append, List.length_cons, UnlinkedInstruction.slots, List.length_cons]
      omega
  have happend (ptr : Packer) (h : ptr.written.length ≤ ptr.capacity) :
      appendInstructions table (instructions.flatMap (·.slots)) ((instructions.flatMap (·.slots)).length + 1) 0 ptr =
        ptr.put (instructions.flatMap (·.encoded)) := by
    have hfuel : instructions.length < (instructions.flatMap (·.slots)).length + 1 := by omega
    exact appendInstructions_eq instructions (List.nil_append _).symm hfuel h
  rw [pack, happend _ (Nat.zero_le _), Packer.put]
  simp only [List.length_nil, Nat.zero_add, List.nil_append]
  split_ifs <;> rfl

/-- **A stream is lossless** as long as five bytes for each slot are less than 2 ^ 32, and for more slots, as far as a
`Vector` can have them, the packer leaves the buffer. -/
theorem instruction_stream_lossless (instructions : List (UnlinkedInstruction table))
    (hvector : (instructions.flatMap (·.slots)).length < 2 ^ 30) :
    Lossless instructions ↔ 5 * (instructions.flatMap (·.slots)).length < 2 ^ 32 := by
  obtain ⟨hlow, hhigh⟩ := length_encoded instructions
  constructor
  · rintro ⟨stream, hpack, -⟩
    rw [pack_eq] at hpack
    by_contra hlarge
    -- the product wraps around, to less than the number of slots
    have hmod : (instructions.flatMap (·.slots)).length * 5 % 2 ^ 32 =
        (instructions.flatMap (·.slots)).length * 5 - 2 ^ 32 := by
      rw [Nat.mod_eq_sub_mod (by omega), Nat.mod_eq_of_lt (by omega)]
    rw [hmod, if_neg (by omega)] at hpack
    cases hpack
  · intro hsmall
    refine ⟨{ data := instructions.flatMap (·.encoded),
              instructionCount := (instructions.flatMap (·.slots)).length }, ?_, ?_, rfl, hhigh⟩
    · rw [pack_eq, if_pos (by omega)]
    · have hlength : instructions.length ≤ (instructions.flatMap (·.encoded)).length := by
        clear hlow hhigh hsmall hvector
        induction instructions with
        | nil => simp
        | cons instruction instructions ih =>
          rw [List.flatMap_cons, List.length_append, List.length_cons, UnlinkedInstruction.encoded, List.length_cons]
          omega
      exact readInstructions_eq instructions (List.nil_append _).symm (Nat.lt_succ_of_le hlength) rfl rfl

/-- `op_mov` to a local from a constant, and `op_jmp` backwards. -/
theorem instruction_stream_lossless_mov :
    let mov : UnlinkedInstruction bytecodes := ⟨13, [0xfffffff0, 0x40000002], rfl⟩
    let jmp : UnlinkedInstruction bytecodes := ⟨72, [0xfffff000], rfl⟩
    Lossless [mov, jmp] :=
  (instruction_stream_lossless [⟨13, [0xfffffff0, 0x40000002], rfl⟩, ⟨72, [0xfffff000], rfl⟩] (by decide)).2 (by decide)

/-- **A buffer that is too small**: for 858993460 instructions of one slot it has 4 bytes. -/
theorem instruction_stream_overflow :
    ¬ Lossless (List.replicate 858993460 (⟨0, [], rfl⟩ : UnlinkedInstruction bytecodes)) := by
  have hcount : ∀ n, ((List.replicate n (⟨0, [], rfl⟩ : UnlinkedInstruction bytecodes)).flatMap (·.slots)).length = n := by
    intro n
    induction n with
    | zero => rfl
    | succ n ih => rw [List.replicate_succ, List.flatMap_cons, List.length_append, ih, Nat.add_comm]; rfl
  rintro ⟨stream, hpack, -⟩
  obtain ⟨hlow, -⟩ := length_encoded (List.replicate 858993460 (⟨0, [], rfl⟩ : UnlinkedInstruction bytecodes))
  rw [hcount] at hlow
  rw [pack_eq, hcount, if_neg (by omega)] at hpack
  cases hpack

end UnlinkedInstructionStream

end WebKit.JSC
