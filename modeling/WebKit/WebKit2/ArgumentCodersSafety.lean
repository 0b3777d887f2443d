import WebKit.WebKit2.ArgumentCoders

/-!
# IPC decoding is memory-safe

`Safe step m` says what `m` does on any bytes, from any position of the decoder (an offset of the block or one past its
end, the invalid decoder): it does not fault, it fails only by making the decoder invalid, and where it decodes a value
it has moved by `step` at least, inside the block. With `step = 1` this includes that an invalid decoder decodes
nothing. `Safe.andThen` is the rule for sequences, and `safe_decode` goes over the types.
-/

namespace WebKit.WebKit2

open WebKit.Lib WebKit.WTF Decoding ArgumentDecoder ArgumentCoder

variable {α β κ : Type}

/-- No fault, and no failure that leaves the decoder valid. -/
def Safe (step : Nat) (m : Decoding α) : Prop :=
  ∀ (buffer : Buffer) (offset : Nat), offset ≤ buffer.bytes.length + 1 →
    m.run buffer (buffer.addressOf offset) = .failed (invalidPos buffer) ∨
    ∃ a next, m.run buffer (buffer.addressOf offset) = .decoded a (buffer.addressOf next) ∧ offset + step ≤ next ∧
      next ≤ max offset buffer.bytes.length

theorem Safe.mono {step step' : Nat} {m : Decoding α} (h : Safe step m) (hle : step' ≤ step) : Safe step' m := by
  intro buffer offset hoffset
  rcases h buffer offset hoffset with hfailed | ⟨a, next, hrun, hstep, hnext⟩
  · exact Or.inl hfailed
  · exact Or.inr ⟨a, next, hrun, by omega, hnext⟩

theorem safe_value (a : α) : Safe 0 (pure a : Decoding α) := by
  intro buffer offset _
  exact Or.inr ⟨a, offset, rfl, Nat.le_refl _, Nat.le_max_left _ _⟩

theorem Safe.andThen {step : Nat} {m : Decoding α} {f : α → Decoding β} (h : Safe step m)
    (h' : ∀ a, Safe 0 (f a)) : Safe step (m >>= f) := by
  intro buffer offset hoffset
  rcases h buffer offset hoffset with hfailed | ⟨a, next, hrun, hstep, hnext⟩
  · exact Or.inl (run_bind_failed hfailed)
  · rw [run_bind_decoded hrun]
    rcases h' a buffer next (by omega) with hfailed | ⟨b, last, hrun', hstep', hlast⟩
    · exact Or.inl hfailed
    · exact Or.inr ⟨b, last, hrun', by omega, by omega⟩

theorem Safe.andReturn {step : Nat} {m : Decoding α} (h : Safe step m) (f : α → β) :
    Safe step (m >>= fun a => pure (f a)) :=
  h.andThen fun a => safe_value (f a)

theorem safe_bail (step : Nat) : Safe step (bail : Decoding α) := by
  intro buffer offset _
  refine Or.inl ?_
  rw [bail, run_bind_decoded (run_markInvalid buffer _), run_returnFalse]

/-! ## The functions of the decoder -/

theorem le_roundUp (offset : Nat) (type : Arithmetic) :
    offset ≤ ArgumentEncoder.roundUpToAlignment offset type.size :=
  ArgumentEncoder.le_roundUpToAlignment offset type.size_pos

theorem safe_decodeFixedLengthData (size : UInt64) (type : Arithmetic) :
    Safe size.toNat (decodeFixedLengthData size (UInt64.ofNat type.size)) := by
  intro buffer offset hoffset
  have hround := le_roundUp offset type
  rw [run_decodeFixedLengthData type hoffset]
  by_cases hfits : endOffset offset type size.toNat ≤ buffer.bytes.length
  · rw [if_pos hfits]
    refine Or.inr ⟨_, _, rfl, ?_, by omega⟩
    rw [endOffset]
    omega
  · rw [if_neg hfits]
    exact Or.inl rfl

theorem safe_decodeArithmetic (type : Arithmetic) : Safe 1 (decodeArithmetic type) := by
  intro buffer offset hoffset
  have hround := le_roundUp offset type
  have hpos := type.size_pos
  rw [run_decodeArithmetic type hoffset]
  by_cases hfits : endOffset offset type type.size ≤ buffer.bytes.length
  · rw [if_pos hfits]
    refine Or.inr ⟨_, _, rfl, ?_, by omega⟩
    rw [endOffset]
    omega
  · rw [if_neg hfits]
    exact Or.inl rfl

theorem safe_check (type : Arithmetic) (numElements : UInt64) :
    Safe 0 (bufferIsLargeEnoughToContainElements type numElements) := by
  intro buffer offset hoffset
  exact Or.inr ⟨_, offset, run_bufferIsLargeEnoughToContainElements type hoffset numElements, Nat.le_refl _,
    Nat.le_max_left _ _⟩

theorem safe_mul {count size : UInt64} (h : count.toNat * size.toNat < 2 ^ 64) : Safe 0 (mul count size) := by
  intro buffer offset _
  exact Or.inr ⟨_, offset, run_mul h, Nat.le_refl _, Nat.le_max_left _ _⟩

theorem safe_byteArray : Safe 1 decodeVariableLengthByteArray :=
  (safe_decodeArithmetic .bits64).andThen fun size =>
    (safe_decodeFixedLengthData size .bits8).mono (Nat.zero_le _)

/-! ## The coders -/

theorem safe_cString : Safe 1 decodeCString := by
  refine (safe_decodeArithmetic .bits32).andThen fun length => ?_
  split
  · exact safe_value none
  · refine (safe_check .bits8 length.toUInt64).andThen fun enough => ?_
    split
    · exact safe_bail 0
    · exact ((safe_decodeFixedLengthData length.toUInt64 .bits8).mono (Nat.zero_le _)).andReturn some

theorem safe_stringText (characterType : Arithmetic) (create : List characterType.Val → StringImpl)
    (length : UInt32) : Safe 0 (decodeStringText characterType create length) := by
  have hle := characterType.size_le
  have hsize : (UInt64.ofNat characterType.size).toNat = characterType.size :=
    UInt64.toNat_ofNat_of_lt' (by rw [UInt64.size]; omega)
  -- The product of a 32-bit length and a character's size does not wrap.
  have hmul : length.toUInt64.toNat * (UInt64.ofNat characterType.size).toNat < 2 ^ 64 := by
    rw [UInt32.toNat_toUInt64, hsize]
    exact (Nat.mul_le_mul (Nat.le_of_lt length.toNat_lt) hle).trans_lt (by decide)
  refine (safe_check characterType length.toUInt64).andThen fun enough => ?_
  split
  · exact safe_bail 0
  · refine (safe_mul hmul).andThen fun size => ?_
    refine ((safe_decodeFixedLengthData size characterType).mono (Nat.zero_le _)).andThen fun data => ?_
    split <;> exact safe_value _

theorem safe_string : Safe 1 decodeString := by
  refine (safe_decodeArithmetic .bits32).andThen fun length => ?_
  split
  · exact safe_value none
  · refine ((safe_decodeArithmetic .bool).mono (Nat.zero_le _)).andThen fun is8Bit => ?_
    split <;> exact safe_stringText _ _ length

/-- After the check the product does not wrap and the copy succeeds, so nothing is lost by not looking at its result. -/
theorem safe_arithmeticVector (type : Arithmetic) : Safe 1 (decodeArithmeticVector type) := by
  have hle := type.size_le
  have hsize : (UInt64.ofNat type.size).toNat = type.size := UInt64.toNat_ofNat_of_lt' (by rw [UInt64.size]; omega)
  refine (safe_decodeArithmetic .bits64).andThen fun size => ?_
  intro buffer offset hoffset
  have hbelow := buffer.below
  have hround := le_roundUp offset type
  rw [run_bind_decoded (run_bufferIsLargeEnoughToContainElements type hoffset size)]
  by_cases hfits : endOffset offset type (size.toNat * type.size) ≤ buffer.bytes.length
  · have hend : endOffset offset type (size.toNat * type.size) =
        ArgumentEncoder.roundUpToAlignment offset type.size + size.toNat * type.size := rfl
    have hmul : size.toNat * (UInt64.ofNat type.size).toNat < 2 ^ 64 := by
      rw [hsize]
      omega
    have hbytes : (size * UInt64.ofNat type.size).toNat = size.toNat * type.size := by
      rw [UInt64.toNat_mul, Nat.mod_eq_of_lt hmul, hsize]
    have hcopy := run_decodeFixedLengthData type hoffset (size * UInt64.ofNat type.size)
    rw [hbytes, if_pos hfits] at hcopy
    have hignored := run_ignoringResult (List.replicate (size * UInt64.ofNat type.size).toNat 0) hcopy
    have hrun : (mul size (UInt64.ofNat type.size) >>= fun bytes => do
        let data ← ignoringResult (decodeFixedLengthData bytes (UInt64.ofNat type.size))
          (List.replicate bytes.toNat 0)
        return (chunks type.size size.toNat data).map type.ofBytes).run buffer (buffer.addressOf offset) =
        .decoded ((chunks type.size size.toNat ((buffer.bytes.drop
            (ArgumentEncoder.roundUpToAlignment offset type.size)).take (size.toNat * type.size))).map type.ofBytes)
          (buffer.addressOf (endOffset offset type (size.toNat * type.size))) := by
      rw [run_bind_decoded (run_mul hmul), run_bind_decoded hignored, run_pure]
    rw [decide_eq_true hfits]
    exact Or.inr ⟨_, _, hrun, by omega, by omega⟩
  · rw [decide_eq_false hfits]
    exact safe_bail 0 buffer offset hoffset

/-- The loop over the elements of a vector, by induction on how many are left. -/
theorem safe_elements {decodeElement : Decoding α} (h : Safe 0 decodeElement) (count : Nat) (tmp : List α) :
    Safe 0 (decodeElements decodeElement count tmp) := by
  induction count generalizing tmp with
  | zero => exact safe_value tmp
  | succ count ih => exact h.andThen fun element => ih (tmp ++ [element])

theorem safe_elementVector {decodeElement : Decoding α} (h : Safe 0 decodeElement) :
    Safe 1 (decodeElementVector decodeElement) :=
  (safe_decodeArithmetic .bits64).andThen fun size => safe_elements h size.toNat []

theorem safe_vector (element : Ty) {decodeElement : Decoding element.Val} (h : Safe 0 decodeElement) :
    Safe 1 (decodeVector element decodeElement) := by
  cases element with
  | arithmetic type => exact safe_arithmeticVector type
  | _ => exact safe_elementVector h

/-- The loop over the entries of a table, whatever `add` answers, by induction on how many are left. -/
theorem safe_entries (isNewEntry : List κ → κ → Bool) (keyOf : α → κ) {decodeEntry : Decoding α}
    (h : Safe 0 decodeEntry) (count : Nat) (table : List α) :
    Safe 0 (decodeEntries isNewEntry keyOf decodeEntry count table) := by
  induction count generalizing table with
  | zero => exact safe_value table
  | succ count ih =>
    refine h.andThen fun entry => ?_
    split
    · exact safe_bail 0
    · exact ih (table ++ [entry])

theorem safe_table (isNewEntry : List κ → κ → Bool) (keyOf : α → κ) {decodeEntry : Decoding α}
    (h : Safe 0 decodeEntry) : Safe 1 (decodeTable isNewEntry keyOf decodeEntry) :=
  (safe_decodeArithmetic .bits64).andThen fun size => safe_entries isNewEntry keyOf h size.toNat []

theorem safe_optional {decodeValue : Decoding α} (h : Safe 0 decodeValue) : Safe 1 (decodeOptional decodeValue) := by
  refine (safe_decodeArithmetic .bool).andThen fun isEngaged => ?_
  split
  · exact safe_value none
  · exact h.andReturn some

theorem safe_pair {step : Nat} {decodeFirst : Decoding α} {decodeSecond : Decoding β} (h : Safe step decodeFirst)
    (h' : Safe 0 decodeSecond) : Safe step (decodePair decodeFirst decodeSecond) :=
  h.andThen fun first => h'.andReturn fun second => (first, second)

theorem safe_decode (isNewEntry : IsNewEntry) (type : Ty) : Safe 1 (decode isNewEntry type) := by
  induction type with
  | arithmetic type => exact safe_decodeArithmetic type
  | byteArray => exact safe_byteArray
  | string => exact safe_string
  | cString => exact safe_cString
  | optional type ih => exact safe_optional (ih.mono (Nat.zero_le _))
  | pair first second ih ih' => exact safe_pair ih (ih'.mono (Nat.zero_le _))
  | vector element ih => exact safe_vector element (ih.mono (Nat.zero_le _))
  | hashMap key mapped ih ih' =>
    exact safe_table _ _ (safe_pair (ih.mono (Nat.zero_le _)) (ih'.mono (Nat.zero_le _)))
  | hashSet key ih => exact safe_table _ _ (ih.mono (Nat.zero_le _))

/-! ## Sequences of calls -/

/-- A call on the decoder: for bytes of a size and an alignment, or for a value of a type. -/
inductive DecodeCall
  | fixedLengthData (size : UInt64) (alignment : Arithmetic)
  | value (type : Ty)

/-- What a call does; only whether it succeeded matters below. -/
def DecodeCall.perform (isNewEntry : IsNewEntry) : DecodeCall → Decoding Unit
  | fixedLengthData size alignment => do
    let _ ← decodeFixedLengthData size (UInt64.ofNat alignment.size)
    return ()
  | value type => do
    let _ ← decode isNewEntry type
    return ()

/-- The results of calls made one after the other, whether they fail or not, and the position after each: `none` after
a fault. -/
def results (isNewEntry : IsNewEntry) (buffer : Buffer) : List DecodeCall → UInt64 → Option (List (Bool × UInt64))
  | [], _ => some []
  | call :: calls, bufferPos =>
    match (call.perform isNewEntry).run buffer bufferPos with
    | .fault => none
    | .failed bufferPos => (results isNewEntry buffer calls bufferPos).map ((false, bufferPos) :: ·)
    | .decoded _ bufferPos => (results isNewEntry buffer calls bufferPos).map ((true, bufferPos) :: ·)

/-- The result of a call, and the position it leaves. -/
def ResultOk (buffer : Buffer) (result : Bool × UInt64) : Prop :=
  if result.1 then buffer.address ≤ result.2 ∧ result.2 ≤ buffer.bufferEnd
  else isInvalid buffer result.2 = true

theorem safe_perform (isNewEntry : IsNewEntry) (call : DecodeCall) : Safe 0 (call.perform isNewEntry) := by
  cases call with
  | fixedLengthData size alignment =>
    exact ((safe_decodeFixedLengthData size alignment).mono (Nat.zero_le _)).andReturn fun _ => ()
  | value type => exact ((safe_decode isNewEntry type).mono (Nat.zero_le _)).andReturn fun _ => ()

theorem perform_invalid (isNewEntry : IsNewEntry) (buffer : Buffer) (call : DecodeCall) :
    (call.perform isNewEntry).run buffer (invalidPos buffer) = .failed (invalidPos buffer) := by
  have hinvalid : buffer.bytes.length + 1 ≤ buffer.bytes.length + 1 := Nat.le_refl _
  cases call with
  | fixedLengthData size alignment =>
    have hround := le_roundUp (buffer.bytes.length + 1) alignment
    have hrun := run_decodeFixedLengthData alignment hinvalid size
    rw [if_neg (by rw [endOffset]; omega)] at hrun
    exact run_bind_failed hrun
  | value type =>
    rcases safe_decode isNewEntry type buffer _ hinvalid with hfailed | ⟨_, next, _, hstep, hnext⟩
    · exact run_bind_failed hfailed
    · omega

theorem results_invalid (isNewEntry : IsNewEntry) (buffer : Buffer) (calls : List DecodeCall) :
    results isNewEntry buffer calls (invalidPos buffer) =
      some (List.replicate calls.length (false, invalidPos buffer)) := by
  induction calls with
  | nil => rfl
  | cons call calls ih =>
    rw [results, perform_invalid isNewEntry buffer call]
    simp only [ih, Option.map_some, List.length_cons, List.replicate_succ]

theorem isInvalid_invalidPos (buffer : Buffer) : isInvalid buffer (invalidPos buffer) = true := by
  have hpos := buffer.toNat_addressOf (show buffer.bytes.length + 1 ≤ buffer.bytes.length + 8 by omega)
  rw [isInvalid, decide_eq_true_iff, gt_iff_lt, UInt64.lt_iff_toNat_lt, buffer.toNat_bufferEnd, invalidPos, hpos]
  omega

/-- Every sequence of calls from a position in the block, by induction on the calls. -/
theorem results_valid (isNewEntry : IsNewEntry) (buffer : Buffer) (calls : List DecodeCall) {offset : Nat}
    (hoffset : offset ≤ buffer.bytes.length) :
    ∃ trace, results isNewEntry buffer calls (buffer.addressOf offset) = some trace ∧ trace.length = calls.length ∧
      (∀ result ∈ trace, ResultOk buffer result) ∧
      trace.Pairwise fun earlier later => earlier.1 = false → later.1 = false := by
  induction calls generalizing offset with
  | nil => exact ⟨[], rfl, rfl, by simp, .nil⟩
  | cons call calls ih =>
    rcases safe_perform isNewEntry call buffer offset (by omega) with hfailed | ⟨value, next, hrun, hstep, hnext⟩
    · refine ⟨(false, invalidPos buffer) :: List.replicate calls.length (false, invalidPos buffer), ?_, by simp, ?_, ?_⟩
      · rw [results, hfailed]
        simp only [results_invalid, Option.map_some]
      · intro result hresult
        have : result = (false, invalidPos buffer) := by
          rcases List.mem_cons.mp hresult with h | h
          · exact h
          · exact List.eq_of_mem_replicate h
        rw [this]
        exact isInvalid_invalidPos buffer
      · refine List.pairwise_cons.mpr ⟨?_, ?_⟩
        · intro result hresult _
          rw [List.eq_of_mem_replicate hresult]
        · exact List.pairwise_replicate.mpr (Or.inr fun _ => rfl)
    · obtain ⟨trace, htrace, hlength, hok, hpairwise⟩ := ih (show next ≤ buffer.bytes.length by omega)
      refine ⟨(true, buffer.addressOf next) :: trace, ?_, by simp [hlength], ?_, ?_⟩
      · rw [results, hrun]
        simp only [htrace, Option.map_some]
      · intro result hresult
        rcases List.mem_cons.mp hresult with rfl | h
        · have hpos := buffer.toNat_addressOf (show next ≤ buffer.bytes.length + 8 by omega)
          have hend := buffer.toNat_bufferEnd
          have hafter : buffer.address ≤ buffer.addressOf next := by
            rw [UInt64.le_iff_toNat_le]
            omega
          have hbefore : buffer.addressOf next ≤ buffer.bufferEnd := by
            rw [UInt64.le_iff_toNat_le]
            omega
          exact ⟨hafter, hbefore⟩
        · exact hok result h
      · refine List.pairwise_cons.mpr ⟨?_, hpairwise⟩
        intro result _ habsurd
        exact Bool.noConfusion habsurd

/-! ## Length checks -/

/-- The next multiple of a type's alignment, as a number that cannot wrap. -/
def alignedAddress (bufferPos : UInt64) (type : Arithmetic) : Nat :=
  ArgumentEncoder.roundUpToAlignment bufferPos.toNat type.size

/-- The length checks at a position compare with the bytes that remain from the aligned position to the end. -/
structure ChecksExact (buffer : Buffer) (bufferPos : UInt64) : Prop where
  aligns : ∀ (type : Arithmetic) (size : UInt64),
    (alignBufferPosition (UInt64.ofNat type.size) size).run buffer bufferPos =
      if alignedAddress bufferPos type + size.toNat ≤ buffer.bufferEnd.toNat then
        .decoded () (UInt64.ofNat (alignedAddress bufferPos type))
      else .failed (invalidPos buffer)
  checks : ∀ (type : Arithmetic) (size : UInt64),
    (bufferIsLargeEnoughToContain (UInt64.ofNat type.size) size).run buffer bufferPos =
      .decoded (decide (alignedAddress bufferPos type + size.toNat ≤ buffer.bufferEnd.toNat)) bufferPos
  checksElements : ∀ (type : Arithmetic) (numElements : UInt64),
    (bufferIsLargeEnoughToContainElements type numElements).run buffer bufferPos =
      .decoded
        (decide (alignedAddress bufferPos type + numElements.toNat * type.size ≤ buffer.bufferEnd.toNat)) bufferPos

theorem addressOf_sub {buffer : Buffer} {bufferPos : UInt64} (hstart : buffer.address ≤ bufferPos)
    (hend : bufferPos.toNat ≤ buffer.bufferEnd.toNat + 1) :
    ∃ offset ≤ buffer.bytes.length + 1, bufferPos = buffer.addressOf offset := by
  rw [UInt64.le_iff_toNat_le] at hstart
  rw [buffer.toNat_bufferEnd] at hend
  refine ⟨bufferPos.toNat - buffer.address.toNat, by omega, ?_⟩
  rw [← UInt64.toNat_inj, buffer.toNat_addressOf (by omega)]
  omega

theorem alignedAddress_addressOf {buffer : Buffer} {offset : Nat} (hoffset : offset ≤ buffer.bytes.length + 1)
    (type : Arithmetic) :
    alignedAddress (buffer.addressOf offset) type =
      buffer.address.toNat + ArgumentEncoder.roundUpToAlignment offset type.size := by
  have hpos := type.size_pos
  rw [alignedAddress, buffer.toNat_addressOf (by omega), ← roundUp_address offset hpos (buffer.size_dvd_address type),
    ArgumentEncoder.roundUpToAlignment]
  congr 2
  omega

theorem checksExact {buffer : Buffer} {bufferPos : UInt64} (hstart : buffer.address ≤ bufferPos)
    (hend : bufferPos.toNat ≤ buffer.bufferEnd.toNat + 1) : ChecksExact buffer bufferPos := by
  obtain ⟨offset, hoffset, rfl⟩ := addressOf_sub hstart hend
  have haligned := alignedAddress_addressOf hoffset
  have hfits : ∀ (type : Arithmetic) (size : Nat),
      (alignedAddress (buffer.addressOf offset) type + size ≤ buffer.bufferEnd.toNat) =
        (endOffset offset type size ≤ buffer.bytes.length) := by
    intro type size
    rw [haligned type, buffer.toNat_bufferEnd, endOffset, Nat.add_assoc, Nat.add_le_add_iff_left]
  constructor
  · intro type size
    have hround := roundUpToAlignment_lt offset type
    have hle := type.size_le
    have hbelow := buffer.below
    have hnext : UInt64.ofNat (alignedAddress (buffer.addressOf offset) type) =
        buffer.addressOf (ArgumentEncoder.roundUpToAlignment offset type.size) := by
      rw [← UInt64.toNat_inj, buffer.toNat_addressOf (by omega), haligned type]
      exact UInt64.toNat_ofNat_of_lt' (by rw [UInt64.size]; omega)
    rw [run_alignBufferPosition type hoffset, hnext]
    simp only [hfits]
  · intro type size
    rw [run_bufferIsLargeEnoughToContain type hoffset]
    simp only [hfits]
  · intro type numElements
    rw [run_bufferIsLargeEnoughToContainElements type hoffset]
    simp only [hfits]

end WebKit.WebKit2
