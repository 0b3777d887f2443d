import Mathlib.Data.List.Chain
import WebKit.JSC.CompactJITCodeMap

/-!
# Encoding and decoding whole maps

`encodedBytes` are the bytes of a sequence of pairs. `GrowthFits` follows the capacity of the buffer through the
sequence and says that no doubled capacity passes `unsigned`.

- where the growth fits, `appendAll` writes exactly these bytes (`appendAll_of_growthFits`); at the first growth that
  does not, the next byte is written past the end of the shrunken buffer (`appendAll_of_not_growthFits`);
- the decoder reads the pairs back (`readMany_encodedBytes`);
- together: `code_map_faithful_iff`; 1342177276 pairs (0, 0) are too many (`code_map_overflow`).
-/

namespace WebKit.JSC.CompactJITCodeMap

/-! ## The bytes of a sequence -/

/-- The bytes that one pair is written in, after `previous`. -/
def entryBytes (previous p : BytecodeAndMachineOffset) : List UInt8 :=
  encodedNumber (p.m_bytecodeIndex - previous.m_bytecodeIndex) ++
    encodedNumber (p.m_machineCodeOffset - previous.m_machineCodeOffset)

def encodedBytes : BytecodeAndMachineOffset → List BytecodeAndMachineOffset → List UInt8
  | _, [] => []
  | previous, p :: ps => entryBytes previous p ++ encodedBytes p ps

/-- The capacity, not reduced to 32 bits, after making room for one entry. -/
def grown (size capacity : Nat) : Nat := if size + 8 > capacity then 2 * (size + 8) else capacity

/-- No growth step of the encoder doubles the capacity to 2 ^ 32 or more. -/
def GrowthFits : Nat → Nat → BytecodeAndMachineOffset → List BytecodeAndMachineOffset → Prop
  | _, _, _, [] => True
  | size, capacity, previous, p :: ps =>
    grown size capacity < 2 ^ 32 ∧ GrowthFits (size + (entryBytes previous p).length) (grown size capacity) p ps

theorem two_le_length_entryBytes (previous p : BytecodeAndMachineOffset) : 2 ≤ (entryBytes previous p).length := by
  have h₁ := length_encodedNumber_pos (p.m_bytecodeIndex - previous.m_bytecodeIndex)
  have h₂ := length_encodedNumber_pos (p.m_machineCodeOffset - previous.m_machineCodeOffset)
  rw [entryBytes, List.length_append]
  omega

theorem two_mul_length_le (previous : BytecodeAndMachineOffset) (ps : List BytecodeAndMachineOffset) :
    2 * ps.length ≤ (encodedBytes previous ps).length := by
  induction ps generalizing previous with
  | nil => simp
  | cons p ps ih =>
    have h₁ := two_le_length_entryBytes previous p
    have h₂ := ih p
    rw [encodedBytes, List.length_append, List.length_cons]
    omega

theorem le_grown (size capacity : Nat) : size + 8 ≤ grown size capacity := by
  unfold grown
  split <;> omega

/-! ## The buffer of the encoder -/

/-- The bytes written so far are the front of the buffer. -/
structure Encoder.Inv (e : Encoder) (bytes : List UInt8) : Prop where
  size : e.m_size.toNat = bytes.length
  capacity : e.m_buffer.length = e.m_capacity.toNat
  le : bytes.length ≤ e.m_capacity.toNat
  content : ∀ (i : Nat) (b : UInt8), bytes[i]? = some b → e.m_buffer[i]? = some (some b)

namespace Encoder

variable {e : Encoder} {bytes : List UInt8}

theorem inv_new : ({} : Encoder).Inv [] where
  size := rfl
  capacity := rfl
  le := Nat.le_refl _
  content := by simp

theorem Inv.appendByte (h : e.Inv bytes) (hlt : bytes.length < e.m_capacity.toNat) (value : UInt8) :
    ∃ e', e.appendByte value = some e' ∧ e'.Inv (bytes ++ [value]) ∧
      e' = { e with m_buffer := e'.m_buffer, m_size := e'.m_size } := by
  have hsize : e.m_size < e.m_capacity := by
    rw [UInt32.lt_iff_toNat_lt, h.size]
    exact hlt
  have hcapacity := e.m_capacity.toNat_lt
  refine ⟨_, if_pos hsize, ?_, rfl⟩
  constructor
  · show (e.m_size + 1).toNat = _
    rw [UInt32.toNat_add, UInt32.toNat_one, h.size, List.length_append, List.length_singleton]
    omega
  · show (e.m_buffer.set _ _).length = _
    rw [List.length_set, h.capacity]
  · rw [List.length_append, List.length_singleton]
    exact hlt
  · intro i b hb
    show (e.m_buffer.set e.m_size.toNat (some value))[i]? = _
    rw [h.size, List.getElem?_set]
    by_cases hi : bytes.length = i
    · subst hi
      rw [List.getElem?_concat_length] at hb
      rw [if_pos rfl, if_pos (by rw [h.capacity]; exact hlt), hb]
    · rw [if_neg hi]
      apply h.content
      have hlt : i < (bytes ++ [value]).length := (List.getElem?_eq_some_iff.1 hb).1
      rw [List.length_append, List.length_singleton] at hlt
      rwa [List.getElem?_append_left (by omega)] at hb

/-- Bytes that fit behind the ones written are written there. -/
theorem Inv.appendBytes (h : e.Inv bytes) (more : List UInt8)
    (hle : bytes.length + more.length ≤ e.m_capacity.toNat) :
    ∃ e', more.foldlM Encoder.appendByte e = some e' ∧ e'.Inv (bytes ++ more) ∧
      e' = { e with m_buffer := e'.m_buffer, m_size := e'.m_size } := by
  induction more generalizing e bytes with
  | nil => exact ⟨e, rfl, by simpa using h, rfl⟩
  | cons value more ih =>
    rw [List.length_cons] at hle
    obtain ⟨e₁, he₁, h₁, heq₁⟩ := h.appendByte (by omega) value
    have hcapacity : e₁.m_capacity = e.m_capacity := by rw [heq₁]
    have hle₁ : (bytes ++ [value]).length + more.length ≤ e₁.m_capacity.toNat := by
      rw [List.length_append, List.length_singleton, hcapacity]
      omega
    obtain ⟨e₂, he₂, h₂, heq₂⟩ := ih h₁ hle₁
    refine ⟨e₂, ?_, ?_, ?_⟩
    · rw [List.foldlM_cons, he₁]
      exact he₂
    · rwa [List.append_assoc] at h₂
    · rw [heq₂, heq₁]

/-- Making room for an entry, where the doubled capacity fits. -/
theorem Inv.ensureCapacityFor (h : e.Inv bytes) (hfits : grown bytes.length e.m_capacity.toNat < 2 ^ 32) :
    (e.ensureCapacityFor 1).Inv bytes ∧
      (e.ensureCapacityFor 1).m_capacity.toNat = grown bytes.length e.m_capacity.toNat ∧
      e.ensureCapacityFor 1 = { e with
        m_buffer := (e.ensureCapacityFor 1).m_buffer, m_capacity := (e.ensureCapacityFor 1).m_capacity } := by
  have hroom := le_grown bytes.length e.m_capacity.toNat
  have hneeded : (e.m_size + 1 * 2 * 4).toNat = bytes.length + 8 := by
    rw [UInt32.toNat_add, h.size]
    exact Nat.mod_eq_of_lt (show bytes.length + 8 < 2 ^ 32 by omega)
  unfold Encoder.ensureCapacityFor
  by_cases hgrow : e.m_size + 1 * 2 * 4 > e.m_capacity
  · have hlt : bytes.length + 8 > e.m_capacity.toNat := by
      rw [← hneeded]
      exact UInt32.lt_iff_toNat_lt.1 hgrow
    have hgrown : grown bytes.length e.m_capacity.toNat = 2 * (bytes.length + 8) := if_pos hlt
    have hdouble : ((e.m_size + 1 * 2 * 4) * 2).toNat = 2 * (bytes.length + 8) := by
      rw [UInt32.toNat_mul, hneeded, Nat.mul_comm]
      exact Nat.mod_eq_of_lt (show 2 * (bytes.length + 8) < 2 ^ 32 by rwa [hgrown] at hfits)
    rw [if_pos hgrow, hgrown]
    refine ⟨⟨h.size, ?_, ?_, ?_⟩, hdouble, rfl⟩
    · show (fastRealloc _ _).length = ((e.m_size + 1 * 2 * 4) * 2).toNat
      have hle := h.capacity
      rw [hdouble, fastRealloc, List.length_append, List.length_take, List.length_replicate]
      omega
    · show _ ≤ ((e.m_size + 1 * 2 * 4) * 2).toNat
      omega
    · intro i b hb
      have hi : i < bytes.length := (List.getElem?_eq_some_iff.1 hb).1
      have hbuffer := h.content i b hb
      show (fastRealloc e.m_buffer _)[i]? = _
      have hi' : i < (e.m_buffer.take (2 * (bytes.length + 8))).length := by
        have := (List.getElem?_eq_some_iff.1 hbuffer).1
        rw [List.length_take]
        omega
      rw [hdouble, fastRealloc, List.getElem?_append_left hi', List.getElem?_take_of_lt (by omega), hbuffer]
  · have hle : ¬ bytes.length + 8 > e.m_capacity.toNat := by
      rw [← hneeded]
      exact fun hlt => hgrow (UInt32.lt_iff_toNat_lt.2 hlt)
    rw [if_neg hgrow]
    exact ⟨h, (if_neg hle).symm, rfl⟩

/-- Where the doubled capacity does not fit, it becomes smaller than what is written already. -/
theorem Inv.ensureCapacityFor_wraps (h : e.Inv bytes) (hbytes : bytes.length + 16 ≤ 2 ^ 32)
    (hgrown : ¬ grown bytes.length e.m_capacity.toNat < 2 ^ 32) :
    ¬ (e.ensureCapacityFor 1).m_size < (e.ensureCapacityFor 1).m_capacity := by
  have hcapacity := e.m_capacity.toNat_lt
  have hneeded : (e.m_size + 1 * 2 * 4).toNat = bytes.length + 8 := by
    rw [UInt32.toNat_add, h.size]
    exact Nat.mod_eq_of_lt (show bytes.length + 8 < 2 ^ 32 by omega)
  have hlt : bytes.length + 8 > e.m_capacity.toNat := by
    by_contra hle
    exact hgrown (by rwa [grown, if_neg hle])
  have hdouble : ((e.m_size + 1 * 2 * 4) * 2).toNat = (bytes.length + 8) * 2 % 2 ^ 32 := by
    rw [UInt32.toNat_mul, hneeded]
    rfl
  rw [grown, if_pos hlt] at hgrown
  unfold Encoder.ensureCapacityFor
  rw [if_pos (UInt32.lt_iff_toNat_lt.2 (by rwa [hneeded])), UInt32.lt_iff_toNat_lt]
  show ¬ e.m_size.toNat < ((e.m_size + 1 * 2 * 4) * 2).toNat
  rw [h.size, hdouble]
  omega

theorem encodeNumber_full (hfull : ¬ e.m_size < e.m_capacity) (value : UInt32) : e.encodeNumber value = none := by
  have hnone (byte : UInt8) : e.appendByte byte = none := if_neg hfull
  unfold Encoder.encodeNumber
  split_ifs <;> simp [hnone]

/-! ## Whole sequences -/

/-- The pair that the next one is written against. -/
def previous (e : Encoder) : BytecodeAndMachineOffset := ⟨e.m_previousBytecodeIndex, e.m_previousMachineCodeOffset⟩

/-- **One entry**, where the growth fits. -/
theorem Inv.append (h : e.Inv bytes) (hfits : grown bytes.length e.m_capacity.toNat < 2 ^ 32)
    (p : BytecodeAndMachineOffset) :
    ∃ e', e.append p.m_bytecodeIndex p.m_machineCodeOffset = some e' ∧ e'.Inv (bytes ++ entryBytes e.previous p) ∧
      e'.m_capacity.toNat = grown bytes.length e.m_capacity.toNat ∧ e'.previous = p ∧
      e'.m_numberOfEntries = e.m_numberOfEntries + 1 := by
  obtain ⟨hroom, hcapacity, heq⟩ := h.ensureCapacityFor hfits
  have hle : bytes.length + 8 ≤ (e.ensureCapacityFor 1).m_capacity.toNat := by
    rw [hcapacity]
    exact le_grown _ _
  have hbytecode : (e.ensureCapacityFor 1).m_previousBytecodeIndex = e.m_previousBytecodeIndex := by rw [heq]
  have hmachine : (e.ensureCapacityFor 1).m_previousMachineCodeOffset = e.m_previousMachineCodeOffset := by rw [heq]
  have hentries : (e.ensureCapacityFor 1).m_numberOfEntries = e.m_numberOfEntries := by rw [heq]
  have hlen₁ := length_encodedNumber_le (p.m_bytecodeIndex - e.m_previousBytecodeIndex)
  have hlen₂ := length_encodedNumber_le (p.m_machineCodeOffset - e.m_previousMachineCodeOffset)
  obtain ⟨e₁, he₁, h₁, heq₁⟩ := hroom.appendBytes (encodedNumber (p.m_bytecodeIndex - e.m_previousBytecodeIndex))
    (by omega)
  have hcapacity₁ : e₁.m_capacity = (e.ensureCapacityFor 1).m_capacity := by rw [heq₁]
  have hmachine₁ : e₁.m_previousMachineCodeOffset = e.m_previousMachineCodeOffset := by rw [heq₁]; exact hmachine
  have hentries₁ : e₁.m_numberOfEntries = e.m_numberOfEntries := by rw [heq₁]; exact hentries
  obtain ⟨e₂, he₂, h₂, heq₂⟩ :=
    h₁.appendBytes (encodedNumber (p.m_machineCodeOffset - e.m_previousMachineCodeOffset))
      (by rw [List.length_append, hcapacity₁]; omega)
  have hcapacity₂ : e₂.m_capacity = e₁.m_capacity := by rw [heq₂]
  have hentries₂ : e₂.m_numberOfEntries = e₁.m_numberOfEntries := by rw [heq₂]
  refine ⟨{ e₂ with
    m_previousBytecodeIndex := p.m_bytecodeIndex
    m_previousMachineCodeOffset := p.m_machineCodeOffset
    m_numberOfEntries := e₂.m_numberOfEntries + 1 }, ?_, ?_, ?_, rfl, ?_⟩
  · unfold Encoder.append
    simp only [encodeNumber_eq, hbytecode, he₁, Option.bind_eq_bind, Option.bind_some, hmachine₁, he₂, Option.pure_def]
  · rw [entryBytes, ← List.append_assoc]
    exact ⟨h₂.size, h₂.capacity, h₂.le, h₂.content⟩
  · show e₂.m_capacity.toNat = _
    rw [hcapacity₂, hcapacity₁, hcapacity]
  · show e₂.m_numberOfEntries + 1 = _
    rw [hentries₂, hentries₁]

/-- The entry whose growth does not fit is written outside the buffer. -/
theorem Inv.append_wraps (h : e.Inv bytes) (hbytes : bytes.length + 16 ≤ 2 ^ 32)
    (hgrown : ¬ grown bytes.length e.m_capacity.toNat < 2 ^ 32) (p : BytecodeAndMachineOffset) :
    e.append p.m_bytecodeIndex p.m_machineCodeOffset = none := by
  unfold Encoder.append
  simp [encodeNumber_full (h.ensureCapacityFor_wraps hbytes hgrown)]

/-- **Where the growth fits, the bytes of the sequence are written.** -/
theorem Inv.appendAll {ps : List BytecodeAndMachineOffset} (h : e.Inv bytes)
    (hfits : GrowthFits bytes.length e.m_capacity.toNat e.previous ps) :
    ∃ e', e.appendAll ps = some e' ∧ e'.Inv (bytes ++ encodedBytes e.previous ps) ∧
      e'.m_numberOfEntries = e.m_numberOfEntries + UInt32.ofNat ps.length := by
  induction ps generalizing e bytes with
  | nil => exact ⟨e, rfl, by simpa [encodedBytes] using h, by simp⟩
  | cons p ps ih =>
    obtain ⟨hgrown, hrest⟩ := hfits
    obtain ⟨e₁, he₁, h₁, hcapacity, hprevious, hentries⟩ := h.append hgrown p
    rw [← hprevious, ← hcapacity, ← List.length_append, hprevious] at hrest
    obtain ⟨e₂, he₂, h₂, hentries₂⟩ := ih h₁ (by rwa [hprevious])
    refine ⟨e₂, ?_, ?_, ?_⟩
    · rw [Encoder.appendAll, he₁]
      exact he₂
    · rwa [hprevious, List.append_assoc] at h₂
    · rw [hentries₂, hentries, UInt32.add_assoc, List.length_cons, UInt32.ofNat_add, UInt32.add_comm 1]
      rfl

/-- **Where the growth does not fit, a byte is written past the end of the buffer.** -/
theorem Inv.appendAll_wraps {ps : List BytecodeAndMachineOffset} (h : e.Inv bytes)
    (hbytes : bytes.length + (encodedBytes e.previous ps).length + 14 ≤ 2 ^ 32)
    (hfits : ¬ GrowthFits bytes.length e.m_capacity.toNat e.previous ps) : e.appendAll ps = none := by
  induction ps generalizing e bytes with
  | nil => exact absurd trivial hfits
  | cons p ps ih =>
    have htwo := two_le_length_entryBytes e.previous p
    rw [encodedBytes, List.length_append] at hbytes
    by_cases hgrown : grown bytes.length e.m_capacity.toNat < 2 ^ 32
    · obtain ⟨e₁, he₁, h₁, hcapacity, hprevious, -⟩ := h.append hgrown p
      have hrest : ¬ GrowthFits (bytes ++ entryBytes e.previous p).length e₁.m_capacity.toNat e₁.previous ps := by
        rw [List.length_append, hcapacity, hprevious]
        exact fun hrest => hfits ⟨hgrown, hrest⟩
      have hnone := ih h₁ (by rw [List.length_append, hprevious]; omega) hrest
      rw [Encoder.appendAll, he₁]
      exact hnone
    · rw [Encoder.appendAll, h.append_wraps (by omega) hgrown p]
      rfl

end Encoder

/-! ## Reading a sequence back -/

theorem read_entryBytes {map : CompactJITCodeMap} {d : Decoder} {p : BytecodeAndMachineOffset} {rest : List UInt8}
    (h : Holds map d.m_bufferIndex
      (entryBytes ⟨d.m_previousBytecodeIndex, d.m_previousMachineCodeOffset⟩ p ++ rest)) :
    d.read map = some
      (⟨d.m_previousBytecodeIndex + (p.m_bytecodeIndex - d.m_previousBytecodeIndex) % 1073741824,
        d.m_previousMachineCodeOffset + (p.m_machineCodeOffset - d.m_previousMachineCodeOffset) % 1073741824⟩,
        { m_previousBytecodeIndex :=
            d.m_previousBytecodeIndex + (p.m_bytecodeIndex - d.m_previousBytecodeIndex) % 1073741824
          m_previousMachineCodeOffset :=
            d.m_previousMachineCodeOffset + (p.m_machineCodeOffset - d.m_previousMachineCodeOffset) % 1073741824
          m_numberOfEntriesRemaining := d.m_numberOfEntriesRemaining - 1
          m_bufferIndex := d.m_bufferIndex +
            UInt32.ofNat (entryBytes ⟨d.m_previousBytecodeIndex, d.m_previousMachineCodeOffset⟩ p).length }) := by
  rw [entryBytes, List.append_assoc] at h
  have hfirst := decodeNumber_encodedNumber h
  have hsecond := decodeNumber_encodedNumber h.append_right
  unfold Decoder.read
  simp only [hfirst, hsecond, Option.bind_eq_bind, Option.bind_some, Option.pure_def, entryBytes, List.length_append,
    UInt32.ofNat_add, UInt32.add_assoc]

/-- Both components do not decrease, and by less than 2 ^ 30 each. -/
def Successive (previous p : BytecodeAndMachineOffset) : Prop :=
  previous.m_bytecodeIndex ≤ p.m_bytecodeIndex ∧ previous.m_machineCodeOffset ≤ p.m_machineCodeOffset ∧
    p.m_bytecodeIndex.toNat - previous.m_bytecodeIndex.toNat < 2 ^ 30 ∧
    p.m_machineCodeOffset.toNat - previous.m_machineCodeOffset.toNat < 2 ^ 30

theorem add_sub_mod {a b : UInt32} (hle : a ≤ b) (hlt : b.toNat - a.toNat < 2 ^ 30) :
    a + (b - a) % 1073741824 = b := by
  have hsub : (b - a).toNat = b.toNat - a.toNat := UInt32.toNat_sub_of_le b a hle
  have hmod : (b - a) % 1073741824 = b - a := by
    apply UInt32.toNat.inj
    rw [UInt32.toNat_mod, hsub]
    exact Nat.mod_eq_of_lt hlt
  rw [hmod, UInt32.add_comm, UInt32.sub_add_cancel]

/-- **The pairs are read back**, and the decoder stops behind their last byte. -/
theorem readMany_encodedBytes {map : CompactJITCodeMap} {d : Decoder} {previous : BytecodeAndMachineOffset}
    {ps : List BytecodeAndMachineOffset} (hps : (previous :: ps).IsChain Successive)
    (hprevious : previous = ⟨d.m_previousBytecodeIndex, d.m_previousMachineCodeOffset⟩)
    (h : Holds map d.m_bufferIndex (encodedBytes previous ps)) :
    ∃ d', d.readMany map ps.length = some (ps, d') ∧
      d'.m_numberOfEntriesRemaining = d.m_numberOfEntriesRemaining - UInt32.ofNat ps.length ∧
      d'.m_bufferIndex = d.m_bufferIndex + UInt32.ofNat (encodedBytes previous ps).length := by
  induction ps generalizing d previous with
  | nil => exact ⟨d, rfl, by simp, by simp [encodedBytes]⟩
  | cons p ps ih =>
    obtain ⟨hsuccessive, hrest⟩ := List.isChain_cons_cons.1 hps
    subst hprevious
    obtain ⟨hbytecode, hmachine, hbytecode', hmachine'⟩ := hsuccessive
    have hread := read_entryBytes h
    rw [add_sub_mod hbytecode hbytecode', add_sub_mod hmachine hmachine'] at hread
    obtain ⟨d', hd', hremaining, hindex⟩ := ih
      (d := ⟨p.m_bytecodeIndex, p.m_machineCodeOffset, d.m_numberOfEntriesRemaining - 1,
        d.m_bufferIndex + UInt32.ofNat (entryBytes ⟨d.m_previousBytecodeIndex, d.m_previousMachineCodeOffset⟩ p).length⟩)
      hrest rfl h.append_right
    refine ⟨d', ?_, ?_, ?_⟩
    · rw [List.length_cons, Decoder.readMany, hread]
      simp only [Option.bind_eq_bind, Option.bind_some, hd', Option.pure_def]
    · rw [hremaining, List.length_cons, UInt32.ofNat_add]
      show d.m_numberOfEntriesRemaining - 1 - UInt32.ofNat ps.length = _
      grind
    · rw [hindex, encodedBytes, List.length_append, UInt32.ofNat_add, UInt32.add_assoc]

/-! ## Encoding and decoding -/

/-- The pairs are encoded without a write past the capacity of the buffer; a decoder of the finished map reads exactly
them and stops at the end of the buffer, and so does `decode`. -/
def Faithful (ps : List BytecodeAndMachineOffset) : Prop :=
  ∃ e d, ({} : Encoder).appendAll ps = some e ∧ e.finish.1.decoder.readMany e.finish.1 ps.length = some (ps, d) ∧
    e.finish.1.m_numberOfEntries.toNat = ps.length ∧ d.m_numberOfEntriesRemaining = 0 ∧
    d.m_bufferIndex = e.finish.1.m_size ∧ e.finish.1.decode = some ps

/-- The first pair is below 2 ^ 30 like the differences, and no growth step of the buffer passes `unsigned`. -/
def Storable (ps : List BytecodeAndMachineOffset) : Prop :=
  (∀ p ∈ ps.head?, p.m_bytecodeIndex.toNat < 2 ^ 30 ∧ p.m_machineCodeOffset.toNat < 2 ^ 30) ∧ GrowthFits 0 0 ⟨0, 0⟩ ps

theorem Encoder.Inv.holds {e : Encoder} {bytes : List UInt8} (h : e.Inv bytes) : Holds e.finish.1 0 bytes := by
  have hcapacity := e.m_capacity.toNat_lt
  have hle := h.le
  refine ⟨by rw [UInt32.toNat_zero]; omega, fun i b hb => ?_⟩
  have hi : i < bytes.length := (List.getElem?_eq_some_iff.1 hb).1
  have hbuffer := h.content i b hb
  have hi' : i < (e.m_buffer.take e.m_size.toNat).length := by
    have hlt := (List.getElem?_eq_some_iff.1 hbuffer).1
    rw [List.length_take, h.size]
    omega
  show (fastRealloc e.m_buffer e.m_size.toNat)[0 + i]? = _
  rw [Nat.zero_add, fastRealloc, List.getElem?_append_left hi', List.getElem?_take_of_lt (by rw [h.size]; exact hi),
    hbuffer]

theorem isChain_zero_cons {ps : List BytecodeAndMachineOffset} (hps : ps.IsChain Successive)
    (hhead : ∀ p ∈ ps.head?, p.m_bytecodeIndex.toNat < 2 ^ 30 ∧ p.m_machineCodeOffset.toNat < 2 ^ 30) :
    (⟨0, 0⟩ :: ps : List BytecodeAndMachineOffset).IsChain Successive := by
  cases ps with
  | nil => exact .singleton _
  | cons p ps =>
    obtain ⟨hbytecode, hmachine⟩ := hhead p rfl
    exact .cons_cons ⟨UInt32.zero_le, UInt32.zero_le, by simpa using hbytecode, by simpa using hmachine⟩ hps

/-- **A map is faithful when its first pair is below 2 ^ 30 and no growth step passes `unsigned`**, and only then for
every sequence whose bytes stay 14 short of 2 ^ 32. -/
theorem code_map_faithful_iff (ps : List BytecodeAndMachineOffset) (hps : ps.IsChain Successive) :
    (Storable ps → Faithful ps) ∧ ((encodedBytes ⟨0, 0⟩ ps).length + 14 ≤ 2 ^ 32 → Faithful ps → Storable ps) := by
  constructor
  · rintro ⟨hhead, hfits⟩
    obtain ⟨e, he, hinv, hentries⟩ := Encoder.inv_new.appendAll hfits
    have hinv : e.Inv (encodedBytes ⟨0, 0⟩ ps) := hinv
    have hlen := two_mul_length_le ⟨0, 0⟩ ps
    have hle : (encodedBytes ⟨0, 0⟩ ps).length < 2 ^ 32 := by simpa using hinv.holds.1
    have hcount : e.m_numberOfEntries = UInt32.ofNat ps.length := by
      rw [hentries]
      exact UInt32.zero_add _
    have hcount' : e.m_numberOfEntries.toNat = ps.length := by
      rw [hcount]
      exact UInt32.toNat_ofNat_of_lt' (show ps.length < 2 ^ 32 by omega)
    obtain ⟨d, hd, hremaining, hindex⟩ :=
      readMany_encodedBytes (d := e.finish.1.decoder) (isChain_zero_cons hps hhead) rfl hinv.holds
    refine ⟨e, d, he, hd, hcount', ?_, ?_, ?_⟩
    · rw [hremaining]
      show e.m_numberOfEntries - _ = 0
      rw [hcount, UInt32.sub_self]
    · rw [hindex]
      apply UInt32.toNat.inj
      show (0 + UInt32.ofNat _).toNat = e.m_size.toNat
      rw [UInt32.zero_add, hinv.size]
      exact UInt32.toNat_ofNat_of_lt' hle
    · unfold decode
      show ((e.finish.1.decoder.readMany e.finish.1 e.m_numberOfEntries.toNat).map Prod.fst) = some ps
      rw [hcount', hd]
      rfl
  · rintro hlen ⟨e, d, he, hd, -⟩
    have hfits : GrowthFits 0 0 ⟨0, 0⟩ ps := by
      by_contra hfits
      have hlen' : ([] : List UInt8).length + (encodedBytes ⟨0, 0⟩ ps).length + 14 ≤ 2 ^ 32 := by simpa using hlen
      have hnone := Encoder.inv_new.appendAll_wraps hlen' hfits
      rw [hnone] at he
      cases he
    refine ⟨fun p hp => ?_, hfits⟩
    obtain ⟨e', he', hinv, -⟩ := Encoder.inv_new.appendAll hfits
    cases he.symm.trans he'
    cases ps with
    | nil => cases hp
    | cons q ps =>
      cases hp
      have hread := read_entryBytes (d := e.finish.1.decoder) hinv.holds
      rw [List.length_cons, Decoder.readMany, hread] at hd
      simp only [Option.bind_eq_bind, Option.bind_some] at hd
      obtain ⟨⟨rest, d'⟩, -, heq⟩ := Option.bind_eq_some_iff.1 hd
      have hfirst := (List.cons.inj (congrArg Prod.fst (Option.some.inj heq))).1
      have hmod (a : UInt32) (h : 0 + (a - 0) % 1073741824 = a) : a.toNat < 2 ^ 30 := by
        rw [← h, UInt32.zero_add, UInt32.toNat_mod]
        exact Nat.mod_lt _ (by decide)
      exact ⟨hmod _ (congrArg BytecodeAndMachineOffset.m_bytecodeIndex hfirst),
        hmod _ (congrArg BytecodeAndMachineOffset.m_machineCodeOffset hfirst)⟩

theorem code_map_faithful_three : Faithful [⟨3, 7⟩, ⟨130, 70000⟩, ⟨130, 70300⟩] := by
  refine (code_map_faithful_iff [⟨3, 7⟩, ⟨130, 70000⟩, ⟨130, 70300⟩] ?_).1 ⟨?_, ?_⟩
  · refine .cons_cons ?_ (.cons_cons ?_ (.singleton _))
    · exact ⟨by decide, by decide, by decide, by decide⟩
    · exact ⟨by decide, by decide, by decide, by decide⟩
  · rintro p ⟨rfl⟩
    exact ⟨by decide, by decide⟩
  · exact ⟨by decide, by decide, by decide, trivial⟩

/-! ## A sequence that is too long -/

theorem isChain_replicate (p : BytecodeAndMachineOffset) (n : Nat) : (List.replicate n p).IsChain Successive := by
  induction n with
  | zero => exact .nil
  | succ n ih =>
    cases n with
    | zero => exact .singleton _
    | succ n =>
      refine .cons_cons ⟨UInt32.le_refl _, UInt32.le_refl _, ?_, ?_⟩ ih
      · rw [Nat.sub_self]
        decide
      · rw [Nat.sub_self]
        decide

theorem length_encodedBytes_replicate (n : Nat) :
    (encodedBytes ⟨0, 0⟩ (List.replicate n ⟨0, 0⟩)).length = 2 * n := by
  induction n with
  | zero => rfl
  | succ n ih =>
    rw [List.replicate_succ, encodedBytes, List.length_append, ih]
    show 2 + 2 * n = _
    omega

theorem growthFits_of_room {size capacity k n : Nat} (hroom : k = 0 ∨ size + 2 * k + 6 ≤ capacity)
    (h : GrowthFits size capacity ⟨0, 0⟩ (List.replicate (k + n) ⟨0, 0⟩)) :
    GrowthFits (size + 2 * k) capacity ⟨0, 0⟩ (List.replicate n ⟨0, 0⟩) := by
  induction k generalizing size with
  | zero => rwa [Nat.zero_add] at h
  | succ k ih =>
    have hquiet : grown size capacity = capacity := if_neg (by omega)
    rw [Nat.add_right_comm, List.replicate_succ] at h
    have hnext : GrowthFits (size + 2) capacity ⟨0, 0⟩ (List.replicate (k + n) ⟨0, 0⟩) := by
      have := h.2
      rwa [hquiet] at this
    have hsize : size + 2 * (k + 1) = size + 2 + 2 * k := by omega
    rw [hsize]
    exact ih (by omega) hnext

/-- From one growth step to the next, `m + 5` pairs later. -/
theorem growthFits_phase {m capacity n : Nat} (hfull : capacity < 2 * m + 8)
    (h : GrowthFits (2 * m) capacity ⟨0, 0⟩ (List.replicate (m + 5 + n) ⟨0, 0⟩)) :
    GrowthFits (2 * (2 * m + 5)) (4 * m + 16) ⟨0, 0⟩ (List.replicate n ⟨0, 0⟩) := by
  have hgrown : grown (2 * m) capacity = 4 * m + 16 := by
    rw [grown, if_pos hfull]
    omega
  have hcount : m + 5 + n = (m + 4) + n + 1 := by omega
  rw [hcount, List.replicate_succ] at h
  have hnext : GrowthFits (2 * m + 2) (4 * m + 16) ⟨0, 0⟩ (List.replicate (m + 4 + n) ⟨0, 0⟩) := by
    have := h.2
    rwa [hgrown] at this
  have hsize : 2 * (2 * m + 5) = 2 * m + 2 + 2 * (m + 4) := by omega
  rw [hsize]
  exact growthFits_of_room (by omega) hnext

theorem growthFits_phases (k : Nat) {n : Nat}
    (h : GrowthFits 0 0 ⟨0, 0⟩ (List.replicate (5 * (2 ^ k - 1) + n) ⟨0, 0⟩)) :
    ∃ capacity, capacity < 2 * (5 * (2 ^ k - 1)) + 8 ∧
      GrowthFits (2 * (5 * (2 ^ k - 1))) capacity ⟨0, 0⟩ (List.replicate n ⟨0, 0⟩) := by
  induction k generalizing n with
  | zero => exact ⟨0, by omega, by simpa using h⟩
  | succ k ih =>
    have hpow := Nat.two_pow_pos k
    have hnext : 5 * (2 ^ (k + 1) - 1) = 2 * (5 * (2 ^ k - 1)) + 5 := by
      rw [Nat.pow_succ]
      omega
    have hcount : 5 * (2 ^ (k + 1) - 1) + n = 5 * (2 ^ k - 1) + (5 * (2 ^ k - 1) + 5 + n) := by omega
    rw [hcount] at h
    obtain ⟨capacity, hfull, hphase⟩ := ih h
    rw [hnext]
    exact ⟨_, by omega, growthFits_phase hfull hphase⟩

/-- The capacity of 5368709116 that the next pair asks for does not fit. -/
theorem code_map_overflow : (List.replicate (5 * (2 ^ 28 - 1) + 1) (⟨0, 0⟩ : BytecodeAndMachineOffset)).IsChain Successive ∧
    ¬ Faithful (List.replicate (5 * (2 ^ 28 - 1) + 1) ⟨0, 0⟩) := by
  refine ⟨isChain_replicate _ _, fun hfaithful => ?_⟩
  have hlen := length_encodedBytes_replicate (5 * (2 ^ 28 - 1) + 1)
  have hstorable := (code_map_faithful_iff _ (isChain_replicate _ _)).2 (by omega) hfaithful
  obtain ⟨capacity, hfull, hlast⟩ := growthFits_phases 28 hstorable.2
  have hgrown := hlast.1
  rw [grown, if_pos hfull] at hgrown
  omega

end WebKit.JSC.CompactJITCodeMap
