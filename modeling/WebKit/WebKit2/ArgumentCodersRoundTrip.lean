import WebKit.WebKit2.ArgumentCoders

/-!
# IPC coding is lossless

`Reads encoding m a` says that whatever an encoder already holds, what `encoding` appends to it is decoded by `m` as
`a`, and that `m` stops where `encoding` stopped. The rules follow the ways coders are put together
(`Reads.andThen`, `Reads.checked`, `reads_elements`, `reads_entries`), and `reads_encode` goes over the types.

A decoded value is the `received` one: it is equal to the one that was sent (`same_received`), but an empty 16-bit
string comes back as the 8-bit one.
-/

namespace WebKit.WebKit2

open WebKit.Lib WebKit.WTF

/-! ## Equal values -/

/-- Equality of values: of strings by their characters, of hash tables in any order of their entries. -/
def Ty.Same : (type : Ty) → type.Val → type.Val → Prop
  | .arithmetic _, value, value' => value = value'
  | .byteArray, data, data' => data = data'
  | .string, text, text' => text.map StringImpl.characters = text'.map StringImpl.characters
  | .cString, text, text' => text = text'
  | .optional type, value, value' => Option.Rel type.Same value value'
  | .pair first second, value, value' => first.Same value.1 value'.1 ∧ second.Same value.2 value'.2
  | .vector element, values, values' => List.Forall₂ element.Same values values'
  | .hashMap key mapped, entries, entries' => ∃ ordered, List.Perm entries ordered ∧
      List.Forall₂ (fun entry entry' => key.Same entry.1 entry'.1 ∧ mapped.Same entry.2 entry'.2) ordered entries'
  | .hashSet key, keys, keys' => ∃ ordered, List.Perm keys ordered ∧ List.Forall₂ key.Same ordered keys'

/-- The string that comes out of `createUninitialized` for the characters of a string. -/
def receivedString : StringImpl → StringImpl
  | .utf16 [] => .empty
  | string => string

/-- The value decoded for a value that was encoded. -/
def Ty.received : (type : Ty) → type.Val → type.Val
  | .arithmetic _, value => value
  | .byteArray, data => data
  | .string, text => text.map receivedString
  | .cString, text => text
  | .optional type, value => value.map type.received
  | .pair first second, value => (first.received value.1, second.received value.2)
  | .vector element, values => values.map element.received
  | .hashMap key mapped, entries => entries.map fun entry => (key.received entry.1, mapped.received entry.2)
  | .hashSet key, keys => keys.map key.received

theorem forall₂_map {α : Type} {R : α → α → Prop} {f : α → α} (h : ∀ a, R a (f a)) (items : List α) :
    List.Forall₂ R items (items.map f) := by
  induction items with
  | nil => exact .nil
  | cons item items ih => exact .cons (h item) ih

theorem characters_receivedString (string : StringImpl) :
    (receivedString string).characters = string.characters := by
  rcases string with characters8 | (_ | _) <;> rfl

theorem same_received (type : Ty) (value : type.Val) : type.Same value (type.received value) := by
  induction type with
  | arithmetic type => exact rfl
  | byteArray => exact rfl
  | cString => exact rfl
  | string =>
    cases value with
    | none => exact rfl
    | some string => exact congrArg some (characters_receivedString string).symm
  | optional type ih =>
    cases value with
    | none => exact Option.Rel.none
    | some value => exact Option.Rel.some (ih value)
  | pair first second ih ih' => exact ⟨ih value.1, ih' value.2⟩
  | vector element ih =>
    rw [Ty.Same, Ty.received]
    exact forall₂_map ih value
  | hashMap key mapped ih ih' => exact ⟨value, .refl _, forall₂_map (fun entry => ⟨ih entry.1, ih' entry.2⟩) value⟩
  | hashSet key ih => exact ⟨value, .refl _, forall₂_map ih value⟩

/-- What coding relies on of the hash tables: the traits of a key type tell which keys are valid, its hash function
when two keys are equal, neither depends on how a key is stored, and `add` of a valid key to a table of valid keys that
has no equal key makes a new entry. -/
structure HashTables where
  isNewEntry : IsNewEntry
  validKey : (key : Ty) → key.Val → Prop
  equal : (key : Ty) → key.Val → key.Val → Prop
  validKey_same : ∀ {key : Ty} {value value' : key.Val}, key.Same value value' → validKey key value →
    validKey key value'
  equal_same : ∀ {key : Ty} {value value' other other' : key.Val}, key.Same value value' → key.Same other other' →
    equal key value' other' → equal key value other
  isNewEntry_add : ∀ {key : Ty} {keys : List key.Val} {value : key.Val}, (∀ other ∈ keys, validKey key other) →
    validKey key value → (∀ other ∈ keys, ¬ equal key other value) → isNewEntry key keys value = true

/-- The values that exist: lengths fit the fields that hold them (a string of length 2^32 - 1 cannot be allocated), and
the keys of a hash table are valid and pairwise different. -/
def Ty.Valid (tables : HashTables) : (type : Ty) → type.Val → Prop
  | .arithmetic _, _ => True
  | .byteArray, data => data.length < 2 ^ 64
  | .string, text => ∀ impl, text = some impl → impl.characters.length < 2 ^ 32 - 1
  | .cString, text => ∀ data, text = some data → data.length < 2 ^ 32 - 1
  | .optional type, value => ∀ engaged, value = some engaged → type.Valid tables engaged
  | .pair first second, value => first.Valid tables value.1 ∧ second.Valid tables value.2
  | .vector element, values => values.length < 2 ^ 32 ∧ ∀ value ∈ values, element.Valid tables value
  | .hashMap key mapped, entries => entries.length < 2 ^ 32 ∧
      (∀ entry ∈ entries, key.Valid tables entry.1 ∧ tables.validKey key entry.1 ∧ mapped.Valid tables entry.2) ∧
      entries.Pairwise fun entry entry' => ¬ tables.equal key entry.1 entry'.1
  | .hashSet key, keys => keys.length < 2 ^ 32 ∧
      (∀ value ∈ keys, key.Valid tables value ∧ tables.validKey key value) ∧
      keys.Pairwise fun value value' => ¬ tables.equal key value value'

/-! ## Reading back what was appended -/

/-- What an encoding appends is decoded as `a`. -/
structure Reads {α : Type} (encoding : ArgumentEncoder → ArgumentEncoder) (m : Decoding α) (a : α) : Prop where
  appends : ∀ encoder, encoder.buffer <+: (encoding encoder).buffer
  run : ∀ encoder (buffer : Buffer), (encoding encoder).buffer <+: buffer.bytes →
    m.run buffer (buffer.addressOf encoder.buffer.length) =
      .decoded a (buffer.addressOf (encoding encoder).buffer.length)

section

open Decoding ArgumentDecoder ArgumentEncoder

variable {α β : Type}

theorem Reads.value (a : α) : Reads id (pure a) a where
  appends _ := List.prefix_rfl
  run _ _ _ := rfl

theorem Reads.andThen (encoding' : ArgumentEncoder → ArgumentEncoder) {encoding : ArgumentEncoder → ArgumentEncoder}
    {m : Decoding α} {f : α → Decoding β} {a : α} {b : β} (h : Reads encoding m a) (h' : Reads encoding' (f a) b) :
    Reads (fun encoder => encoding' (encoding encoder)) (m >>= f) b where
  appends encoder := (h.appends encoder).trans (h'.appends (encoding encoder))
  run encoder buffer hbuffer := by
    have hfirst := h.run encoder buffer ((h'.appends (encoding encoder)).trans hbuffer)
    rw [run_bind_decoded hfirst]
    exact h'.run (encoding encoder) buffer hbuffer

theorem fixedLength_found (type : Arithmetic) (data : List UInt8) {encoder : ArgumentEncoder} {buffer : Buffer}
    (h : (encoder.encodeFixedLengthData data type.size type.size_pos).buffer <+: buffer.bytes) :
    encoder.buffer.length ≤ buffer.bytes.length + 1 ∧
      endOffset encoder.buffer.length type data.length ≤ buffer.bytes.length ∧
      (buffer.bytes.drop (roundUpToAlignment encoder.buffer.length type.size)).take data.length = data ∧
      endOffset encoder.buffer.length type data.length =
        (encoder.encodeFixedLengthData data type.size type.size_pos).buffer.length := by
  obtain ⟨rest, hrest⟩ := h
  rw [encodeFixedLengthData_buffer] at hrest ⊢
  have hpadding : (encoder.buffer ++ encoder.padding type.size).length =
      roundUpToAlignment encoder.buffer.length type.size := by
    rw [List.length_append]
    exact encoder.length_padding type.size_pos
  have hend : endOffset encoder.buffer.length type data.length =
      (encoder.buffer ++ encoder.padding type.size ++ data).length := by
    rw [endOffset, List.length_append, hpadding]
  refine ⟨?_, ?_, ?_, hend⟩
  · rw [← hrest]
    simp only [List.length_append]
    omega
  · rw [hend, ← hrest]
    simp only [List.length_append]
    omega
  · rw [← hrest, ← hpadding, List.append_assoc, List.drop_left, List.take_left]

theorem appends_fixedLength (type : Arithmetic) (data : List UInt8) (encoder : ArgumentEncoder) :
    encoder.buffer <+: (encoder.encodeFixedLengthData data type.size type.size_pos).buffer := by
  rw [encodeFixedLengthData_buffer, List.append_assoc]
  exact List.prefix_append _ _

theorem reads_fixedLength (type : Arithmetic) (data : List UInt8) {size : UInt64} (hsize : size.toNat = data.length) :
    Reads (encodeFixedLengthData data type.size type.size_pos)
      (decodeFixedLengthData size (UInt64.ofNat type.size)) data where
  appends := appends_fixedLength type data
  run encoder buffer hbuffer := by
    obtain ⟨hoffset, hfits, hdata, hend⟩ := fixedLength_found type data hbuffer
    rw [run_decodeFixedLengthData type hoffset, hsize, if_pos hfits, hdata, hend]

theorem reads_arithmetic (type : Arithmetic) (value : type.Val) :
    Reads (encodeArithmetic type value) (decodeArithmetic type) value where
  appends encoder := by
    rw [encodeArithmetic_eq]
    exact appends_fixedLength type _ encoder
  run encoder buffer hbuffer := by
    rw [encodeArithmetic_eq] at hbuffer ⊢
    obtain ⟨hoffset, hfits, hdata, hend⟩ := fixedLength_found type (type.toBytes value) hbuffer
    rw [Arithmetic.length_toBytes] at hfits hdata hend
    rw [run_decodeArithmetic type hoffset, if_pos hfits, hdata, hend, Arithmetic.ofBytes_toBytes]

theorem Reads.checked (type : Arithmetic) {data : List UInt8} {numElements : UInt64} {f : Bool → Decoding β} {b : β}
    (hsize : numElements.toNat * type.size = data.length)
    (h : Reads (encodeFixedLengthData data type.size type.size_pos) (f true) b) :
    Reads (encodeFixedLengthData data type.size type.size_pos)
      (bufferIsLargeEnoughToContainElements type numElements >>= f) b where
  appends := h.appends
  run encoder buffer hbuffer := by
    obtain ⟨hoffset, hfits, -, -⟩ := fixedLength_found type data hbuffer
    have hcheck := run_bufferIsLargeEnoughToContainElements type hoffset numElements
    rw [hsize, decide_eq_true hfits] at hcheck
    rw [run_bind_decoded hcheck]
    exact h.run encoder buffer hbuffer

/-- A product that does not wrap. -/
theorem Reads.multiplied {encoding : ArgumentEncoder → ArgumentEncoder} {count size : UInt64}
    {f : UInt64 → Decoding β} {b : β} (hmul : count.toNat * size.toNat < 2 ^ 64)
    (h : Reads encoding (f (count * size)) b) : Reads encoding (mul count size >>= f) b where
  appends := h.appends
  run encoder buffer hbuffer := by
    rw [run_bind_decoded (run_mul hmul)]
    exact h.run encoder buffer hbuffer

theorem Reads.ignoringResult {encoding : ArgumentEncoder → ArgumentEncoder} {m : Decoding α} {a otherwise : α}
    (h : Reads encoding m a) : Reads encoding (ignoringResult m otherwise) a where
  appends := h.appends
  run encoder buffer hbuffer := run_ignoringResult otherwise (h.run encoder buffer hbuffer)

/-! ## The coders of single types -/

theorem toNat_ofNat_uint64 {n : Nat} (h : n < 2 ^ 64) : (UInt64.ofNat n).toNat = n :=
  UInt64.toNat_ofNat_of_lt' h

theorem reads_byteArray {data : List UInt8} (h : data.length < 2 ^ 64) :
    Reads (encodeVariableLengthByteArray data) decodeVariableLengthByteArray data :=
  Reads.andThen (encodeFixedLengthData data 1 Nat.one_pos) (reads_arithmetic .bits64 _)
    (reads_fixedLength .bits8 data (toNat_ofNat_uint64 h))

theorem toNat_length32 {n : Nat} (h : n < 2 ^ 32 - 1) :
    (UInt32.ofNat n).toNat = n ∧ UInt32.ofNat n ≠ 0xFFFFFFFF ∧ (UInt32.ofNat n).toUInt64.toNat = n := by
  have hn : (UInt32.ofNat n).toNat = n := UInt32.toNat_ofNat_of_lt' (by rw [UInt32.size]; omega)
  refine ⟨hn, ?_, by rw [UInt32.toNat_toUInt64, hn]⟩
  intro hnull
  have : n = 2 ^ 32 - 1 := by rw [← hn, hnull]; rfl
  omega

open ArgumentCoder

theorem reads_cString : ∀ {text : Option (List UInt8)}, (∀ data, text = some data → data.length < 2 ^ 32 - 1) →
    Reads (encodeCString text) decodeCString text
  | none, _ => Reads.andThen id (reads_arithmetic .bits32 0xFFFFFFFF) (Reads.value none)
  | some data, h => by
    obtain ⟨hlength, hnull, hlength64⟩ := toNat_length32 (h data rfl)
    have htake : data.take (UInt32.ofNat data.length).toNat = data := by rw [hlength, List.take_length]
    refine Reads.andThen (encodeFixedLengthData (data.take (UInt32.ofNat data.length).toNat) 1 Nat.one_pos)
      (reads_arithmetic .bits32 (UInt32.ofNat data.length)) ?_
    rw [if_neg hnull, htake]
    refine Reads.checked .bits8 ?_ ?_
    · rw [hlength64, Arithmetic.size, Nat.mul_one]
    · exact Reads.andThen id (reads_fixedLength .bits8 data hlength64) (Reads.value (some data))

theorem reads_stringText (characterType : Arithmetic) (create : List characterType.Val → StringImpl)
    {characters : List characterType.Val} (h : characters.length < 2 ^ 32 - 1) :
    Reads (encodeFixedLengthData (characters.flatMap characterType.toBytes) characterType.size characterType.size_pos)
      (decodeStringText characterType create (UInt32.ofNat characters.length))
      (some (if characters.length = 0 then .empty else create characters)) := by
  obtain ⟨hlength, -, hlength64⟩ := toNat_length32 h
  have hle := characterType.size_le
  have hdata : (characters.flatMap characterType.toBytes).length = characters.length * characterType.size :=
    length_flatMap_const characterType.length_toBytes characters
  have hsize : (UInt64.ofNat characterType.size).toNat = characterType.size := toNat_ofNat_uint64 (by omega)
  have hmul : characters.length * characterType.size < 2 ^ 64 :=
    (Nat.mul_le_mul (Nat.le_of_lt h) hle).trans_lt (by decide)
  have hbytes : ((UInt32.ofNat characters.length).toUInt64 * UInt64.ofNat characterType.size).toNat =
      (characters.flatMap characterType.toBytes).length := by
    rw [UInt64.toNat_mul, hlength64, hsize, hdata, Nat.mod_eq_of_lt hmul]
  have hzero : (UInt32.ofNat characters.length = 0) ↔ characters.length = 0 := by
    rw [← UInt32.toNat_inj, hlength]
    rfl
  have hchunks : (chunks characterType.size characters.length (characters.flatMap characterType.toBytes)).map
      characterType.ofBytes = characters := by
    rw [chunks_flatMap characterType.length_toBytes, List.map_map]
    exact List.map_id'' characterType.ofBytes_toBytes characters
  refine Reads.checked characterType (by rw [hlength64, hdata]) ?_
  refine Reads.multiplied (by rw [hlength64, hsize]; exact hmul) ?_
  refine Reads.andThen id (reads_fixedLength characterType _ hbytes) ?_
  rw [hlength, hchunks]
  by_cases hempty : characters.length = 0
  · rw [if_pos (hzero.mpr hempty), if_pos hempty]
    exact Reads.value _
  · rw [if_neg (mt hzero.mp hempty), if_neg hempty]
    exact Reads.value _

theorem receivedString_latin1 (characters8 : List UInt8) :
    receivedString (.latin1 characters8) = if characters8.length = 0 then .empty else .latin1 characters8 := by
  cases characters8 <;> rfl

theorem receivedString_utf16 (characters16 : List UChar) :
    receivedString (.utf16 characters16) = if characters16.length = 0 then .empty else .utf16 characters16 := by
  cases characters16 <;> rfl

theorem reads_stringForm (is8Bit : Bool) (characterType : Arithmetic) (create : List characterType.Val → StringImpl)
    {characters : List characterType.Val} (h : characters.length < 2 ^ 32 - 1)
    (hform : ∀ length, (if is8Bit then decodeStringText .bits8 .latin1 length
      else decodeStringText .bits16 .utf16 length) = decodeStringText characterType create length) :
    Reads (fun encoder => ((encodeArithmetic .bits32 (UInt32.ofNat characters.length) encoder).encodeArithmetic .bool
        is8Bit).encodeFixedLengthData
          ((characters.take (UInt32.ofNat characters.length).toNat).flatMap characterType.toBytes)
          characterType.size characterType.size_pos)
      decodeString (some (if characters.length = 0 then .empty else create characters)) := by
  obtain ⟨hlength, hnull, -⟩ := toNat_length32 h
  refine Reads.andThen (fun encoder => (encodeArithmetic .bool is8Bit encoder).encodeFixedLengthData
      ((characters.take (UInt32.ofNat characters.length).toNat).flatMap characterType.toBytes)
      characterType.size characterType.size_pos)
    (reads_arithmetic .bits32 (UInt32.ofNat characters.length)) ?_
  rw [if_neg hnull, hlength, List.take_length]
  refine Reads.andThen _ (reads_arithmetic .bool is8Bit) ?_
  rw [hform]
  exact reads_stringText characterType create h

theorem reads_string {text : Option StringImpl}
    (h : ∀ impl, text = some impl → impl.characters.length < 2 ^ 32 - 1) :
    Reads (encodeString text) decodeString (text.map receivedString) := by
  match text, h with
  | none, _ => exact Reads.andThen id (reads_arithmetic .bits32 0xFFFFFFFF) (Reads.value none)
  | some (.latin1 characters8), h =>
    have hlt : characters8.length < 2 ^ 32 - 1 := by simpa [StringImpl.characters] using h _ rfl
    rw [Option.map_some, receivedString_latin1]
    exact reads_stringForm true .bits8 .latin1 hlt (fun length => rfl)
  | some (.utf16 characters16), h =>
    have hlt : characters16.length < 2 ^ 32 - 1 := h _ rfl
    rw [Option.map_some, receivedString_utf16]
    exact reads_stringForm false .bits16 .utf16 hlt (fun length => rfl)

/-! ## The coders of containers -/

theorem reads_arithmeticVector (type : Arithmetic) {vector : List type.Val} (h : vector.length < 2 ^ 32) :
    Reads (fun encoder => (encodeArithmetic .bits64 (UInt64.ofNat vector.length) encoder).encodeFixedLengthData
        (vector.flatMap type.toBytes) type.size type.size_pos)
      (decodeArithmeticVector type) vector := by
  have hle := type.size_le
  have hlength : (UInt64.ofNat vector.length).toNat = vector.length := toNat_ofNat_uint64 (by omega)
  have hsize : (UInt64.ofNat type.size).toNat = type.size := toNat_ofNat_uint64 (by omega)
  have hdata : (vector.flatMap type.toBytes).length = vector.length * type.size :=
    length_flatMap_const type.length_toBytes vector
  have hmul : vector.length * type.size < 2 ^ 64 := (Nat.mul_le_mul (Nat.le_of_lt h) hle).trans_lt (by decide)
  have hbytes : (UInt64.ofNat vector.length * UInt64.ofNat type.size).toNat = (vector.flatMap type.toBytes).length := by
    rw [UInt64.toNat_mul, hlength, hsize, hdata, Nat.mod_eq_of_lt hmul]
  have hchunks : (chunks type.size vector.length (vector.flatMap type.toBytes)).map type.ofBytes = vector := by
    rw [chunks_flatMap type.length_toBytes, List.map_map]
    exact List.map_id'' type.ofBytes_toBytes vector
  refine Reads.andThen _ (reads_arithmetic .bits64 (UInt64.ofNat vector.length)) ?_
  refine Reads.checked type (by rw [hlength, hdata]) ?_
  refine Reads.multiplied (by rw [hlength, hsize]; exact hmul) ?_
  refine Reads.andThen id (reads_fixedLength type _ hbytes).ignoringResult ?_
  rw [hlength, hchunks]
  exact Reads.value vector

/-- The loop over the elements of a vector, by induction on those that are left. -/
theorem reads_elements {encodeElement : α → ArgumentEncoder → ArgumentEncoder} {decodeElement : Decoding α}
    {received : α → α} {elements : List α} (h : ∀ x ∈ elements, Reads (encodeElement x) decodeElement (received x))
    (tmp : List α) :
    Reads (fun encoder => elements.foldl (fun encoder element => encodeElement element encoder) encoder)
      (decodeElements decodeElement elements.length tmp) (tmp ++ elements.map received) := by
  induction elements generalizing tmp with
  | nil =>
    rw [List.map_nil, List.append_nil]
    exact Reads.value tmp
  | cons element elements ih =>
    have hrest := ih (fun x hx => h x (List.mem_cons_of_mem _ hx)) (tmp ++ [received element])
    rw [List.append_assoc] at hrest
    refine Reads.andThen (fun encoder => elements.foldl (fun encoder element => encodeElement element encoder) encoder)
      (h element List.mem_cons_self) ?_
    exact hrest

/-- Each key is new to the table that holds the keys before it. -/
def AllNew {κ : Type} (isNewEntry : List κ → κ → Bool) : List κ → List κ → Prop
  | _, [] => True
  | keys, key :: rest => isNewEntry keys key = true ∧ AllNew isNewEntry (keys ++ [key]) rest

/-- The loop over the entries of a hash table, by induction on those that are left. -/
theorem reads_entries {κ : Type} {isNewEntry : List κ → κ → Bool} {keyOf : α → κ}
    {encodeEntry : α → ArgumentEncoder → ArgumentEncoder} {decodeEntry : Decoding α} {received : α → α}
    {entries : List α} (h : ∀ x ∈ entries, Reads (encodeEntry x) decodeEntry (received x)) (table : List α)
    (hnew : AllNew isNewEntry (table.map keyOf) ((entries.map received).map keyOf)) :
    Reads (fun encoder => entries.foldl (fun encoder entry => encodeEntry entry encoder) encoder)
      (decodeEntries isNewEntry keyOf decodeEntry entries.length table) (table ++ entries.map received) := by
  induction entries generalizing table with
  | nil =>
    rw [List.map_nil, List.append_nil]
    exact Reads.value table
  | cons entry entries ih =>
    obtain ⟨hentry, hentries⟩ := hnew
    have hrest := ih (fun x hx => h x (List.mem_cons_of_mem _ hx)) (table ++ [received entry])
      (by rw [List.map_append]; exact hentries)
    rw [List.append_assoc] at hrest
    refine Reads.andThen (fun encoder => entries.foldl (fun encoder entry => encodeEntry entry encoder) encoder)
      (h entry List.mem_cons_self) ?_
    rw [hentry]
    exact hrest

theorem reads_table {κ : Type} {isNewEntry : List κ → κ → Bool} {keyOf : α → κ}
    {encodeEntry : α → ArgumentEncoder → ArgumentEncoder} {decodeEntry : Decoding α} {received : α → α}
    {entries : List α} (hlength : entries.length < 2 ^ 32)
    (h : ∀ x ∈ entries, Reads (encodeEntry x) decodeEntry (received x))
    (hnew : AllNew isNewEntry [] ((entries.map received).map keyOf)) :
    Reads (fun encoder => entries.foldl (fun encoder entry => encodeEntry entry encoder)
        (encodeArithmetic .bits64 (UInt64.ofNat entries.length) encoder))
      (decodeTable isNewEntry keyOf decodeEntry) (entries.map received) := by
  refine Reads.andThen (fun encoder => entries.foldl (fun encoder entry => encodeEntry entry encoder) encoder)
    (reads_arithmetic .bits64 (UInt64.ofNat entries.length)) ?_
  rw [toNat_ofNat_uint64 (by omega)]
  exact reads_entries h [] hnew

theorem allNew_received (tables : HashTables) (key : Ty) (keys : List key.Val)
    (hvalid : ∀ value ∈ keys, tables.validKey key value)
    (hdistinct : keys.Pairwise fun value value' => ¬ tables.equal key value value') :
    AllNew (tables.isNewEntry key) [] (keys.map key.received) := by
  suffices h : ∀ earlier : List key.Val, (∀ value ∈ earlier, tables.validKey key value) →
      (∀ value ∈ earlier, ∀ value' ∈ keys, ¬ tables.equal key value value') →
      AllNew (tables.isNewEntry key) (earlier.map key.received) (keys.map key.received) from
    h [] (by simp) (by simp)
  induction keys with
  | nil => exact fun _ _ _ => trivial
  | cons value keys ih =>
    intro earlier hearlier hapart
    obtain ⟨hfirst, hrest⟩ := List.pairwise_cons.mp hdistinct
    refine ⟨tables.isNewEntry_add ?_ (tables.validKey_same (same_received key value) (hvalid value (by simp))) ?_, ?_⟩
    · intro other hother
      obtain ⟨sent, hsent, rfl⟩ := List.mem_map.mp hother
      exact tables.validKey_same (same_received key sent) (hearlier sent hsent)
    · intro other hother hequal
      obtain ⟨sent, hsent, rfl⟩ := List.mem_map.mp hother
      exact hapart sent hsent value (by simp)
        (tables.equal_same (same_received key sent) (same_received key value) hequal)
    · have hnext := ih (fun x hx => hvalid x (by simp [hx])) hrest (earlier ++ [value])
      rw [List.map_append] at hnext
      refine hnext ?_ ?_
      · intro x hx
        rcases List.mem_append.mp hx with hx | hx
        · exact hearlier x hx
        · rw [List.mem_singleton.mp hx]
          exact hvalid value (by simp)
      · intro x hx x' hx'
        rcases List.mem_append.mp hx with hx | hx
        · exact hapart x hx x' (by simp [hx'])
        · rw [List.mem_singleton.mp hx]
          exact hfirst x' hx'

theorem reads_encode (tables : HashTables) (type : Ty) {value : type.Val} (h : type.Valid tables value) :
    Reads (encode type value) (decode tables.isNewEntry type) (type.received value) := by
  induction type with
  | arithmetic type => exact reads_arithmetic type value
  | byteArray => exact reads_byteArray h
  | string => exact reads_string h
  | cString => exact reads_cString h
  | optional type ih =>
    cases value with
    | none => exact Reads.andThen id (reads_arithmetic .bool false) (Reads.value none)
    | some value =>
      exact Reads.andThen (encode type value) (reads_arithmetic .bool true)
        (Reads.andThen id (ih (h value rfl)) (Reads.value _))
  | pair first second ih ih' =>
    exact Reads.andThen (encode second value.2) (ih h.1) (Reads.andThen id (ih' h.2) (Reads.value _))
  | vector element ih =>
    obtain ⟨hlength, hvalid⟩ := h
    have helements := fun x hx => ih (hvalid x hx)
    have hvector : Reads (fun encoder => value.foldl (fun encoder x => encode element x encoder)
          (encodeArithmetic .bits64 (UInt64.ofNat value.length) encoder))
        (decodeElementVector (decode tables.isNewEntry element)) (value.map element.received) := by
      refine Reads.andThen (fun encoder => value.foldl (fun encoder x => encode element x encoder) encoder)
        (reads_arithmetic .bits64 (UInt64.ofNat value.length)) ?_
      rw [toNat_ofNat_uint64 (by omega)]
      exact reads_elements helements []
    cases element with
    | arithmetic type =>
      have hreceived : (Ty.arithmetic type).vector.received value = value := List.map_id' value
      rw [hreceived]
      exact reads_arithmeticVector type hlength
    | _ => exact hvector
  | hashMap key mapped ih ih' =>
    obtain ⟨hlength, hvalid, hdistinct⟩ := h
    refine reads_table hlength (fun entry hentry => ?_) ?_
    · obtain ⟨hkey, -, hmapped⟩ := hvalid entry hentry
      exact Reads.andThen (encode mapped entry.2) (ih hkey) (Reads.andThen id (ih' hmapped) (Reads.value _))
    · have hkeys := allNew_received tables key (value.map Prod.fst)
        (by simpa using fun k m hm => (hvalid (k, m) hm).2.1) (by simpa [List.pairwise_map])
      rw [List.map_map] at hkeys ⊢
      exact hkeys
  | hashSet key ih =>
    obtain ⟨hlength, hvalid, hdistinct⟩ := h
    refine reads_table hlength (fun x hx => ih (hvalid x hx).1) ?_
    rw [List.map_id]
    exact allNew_received tables key value (fun x hx => (hvalid x hx).2) hdistinct

end

/-! ## Default traits -/

/-- Validity of a key by the default traits of strings and of integers: a key is neither the empty nor the deleted value
of its type. The other types have none. -/
def defaultValidKey : (key : Ty) → key.Val → Bool
  | .string, text => text.isSome
  | .arithmetic .bits32, value => value != 0 && value != 0xFFFFFFFF
  | .arithmetic .bits64, value => value != 0 && value != 0xFFFFFFFFFFFFFFFF
  | _, _ => false

/-- Equality of keys by the default hash functions of strings and of integers. -/
def defaultEqual : (key : Ty) → key.Val → key.Val → Bool
  | .string, text, text' => text.map StringImpl.characters == text'.map StringImpl.characters
  | .arithmetic _, value, value' => value == value'
  | _, _, _ => true

def defaultTables : HashTables where
  isNewEntry key keys value := !keys.any fun other => defaultEqual key other value
  validKey key value := defaultValidKey key value = true
  equal key value value' := defaultEqual key value value' = true
  validKey_same {key value value'} hsame hvalid := by
    cases key with
    | string => cases value <;> cases value' <;> simp_all [Ty.Same, defaultValidKey]
    | arithmetic type => rw [← (show value = value' from hsame)]; exact hvalid
    | _ => exact absurd hvalid (by simp [defaultValidKey])
  equal_same {key value value' other other'} hsame hsame' hequal := by
    cases key with
    | string =>
      rw [defaultEqual, beq_iff_eq] at hequal ⊢
      exact (Eq.trans hsame hequal).trans hsame'.symm
    | arithmetic type =>
      rw [show value = value' from hsame, show other = other' from hsame']
      exact hequal
    | _ => rfl
  isNewEntry_add {key keys value} _ _ hnone := by
    rw [Bool.not_eq_true', List.any_eq_false]
    exact hnone

section

open Decoding ArgumentDecoder ArgumentEncoder ArgumentCoder

/-! ## Sequences of values -/

/-- The tuples of valid values. -/
def Ty.AllValid (tables : HashTables) : (types : List Ty) → Ty.Tuple types → Prop
  | [], _ => True
  | type :: types, tuple => type.Valid tables tuple.1 ∧ Ty.AllValid tables types tuple.2

/-- Equality of tuples, value by value. -/
def Ty.AllSame : (types : List Ty) → Ty.Tuple types → Ty.Tuple types → Prop
  | [], _, _ => True
  | type :: types, tuple, tuple' => type.Same tuple.1 tuple'.1 ∧ Ty.AllSame types tuple.2 tuple'.2

theorem reads_encodeTuple (tables : HashTables) {types : List Ty} {tuple : Ty.Tuple types}
    (h : Ty.AllValid tables types tuple) :
    ∃ tuple', Reads (encodeTuple types tuple) (decodeTuple tables.isNewEntry types) tuple' ∧
      Ty.AllSame types tuple tuple' := by
  induction types with
  | nil => exact ⟨(), Reads.value (), trivial⟩
  | cons type types ih =>
    obtain ⟨values', hvalues, hsame⟩ := ih h.2
    refine ⟨(type.received tuple.1, values'), ?_, same_received type tuple.1, hsame⟩
    exact Reads.andThen (encodeTuple types tuple.2) (reads_encode tables type h.1)
      (Reads.andThen id hvalues (Reads.value _))

/-- **IPC coding round-trips**: whatever the sequence of types and the valid values, whatever the memory of the encoder
held and wherever the decoder's block is, decoding the encoded bytes gives equal values and ends at the end of them. -/
theorem ipc_coding_round_trips (tables : HashTables) (types : List Ty) (tuple : Ty.Tuple types)
    (valid : Ty.AllValid tables types tuple) (uninitialized : Nat → UInt8) (buffer : Buffer)
    (received : buffer.bytes = (encodeTuple types tuple (ArgumentEncoder.new uninitialized)).buffer) :
    ∃ tuple', (decodeTuple tables.isNewEntry types).run buffer buffer.address = .decoded tuple' buffer.bufferEnd ∧
      Ty.AllSame types tuple tuple' := by
  obtain ⟨tuple', hreads, hsame⟩ := reads_encodeTuple tables valid
  refine ⟨tuple', ?_, hsame⟩
  have hrun := hreads.run (ArgumentEncoder.new uninitialized) buffer (by rw [received])
  have hstart : buffer.addressOf (ArgumentEncoder.new uninitialized).buffer.length = buffer.address := by
    rw [Buffer.addressOf, ArgumentEncoder.new, List.length_nil]
    exact UInt64.add_zero _
  rw [← received, hstart] at hrun
  exact hrun

/-- A sequence with every kind of padding: a `bool`, a memcpy-coded vector, a 16-bit string, a table and a `CString`. -/
def sampleTypes : List Ty :=
  [.arithmetic .bool, .vector (.arithmetic .bits16), .string, .hashMap .string (.optional (.arithmetic .bits64)), .cString]

def sampleTuple : Ty.Tuple sampleTypes :=
  (true, [1, 2, 3], some (.utf16 [0x41, 0x3b1]),
    [(some (.latin1 [97]), some 7), (some (.utf16 [98]), none)], some [104, 105], ())

def sampleBuffer : Buffer where
  address := 4096
  bytes := (encodeTuple sampleTypes sampleTuple (ArgumentEncoder.new fun offset => UInt8.ofNat offset)).buffer
  aligned := by decide
  below := by decide +kernel

theorem ipc_coding_round_trips_sample :
    ∃ tuple', (decodeTuple defaultTables.isNewEntry sampleTypes).run sampleBuffer 4096 =
        .decoded tuple' sampleBuffer.bufferEnd ∧
      Ty.AllSame sampleTypes sampleTuple tuple' :=
  ipc_coding_round_trips defaultTables sampleTypes sampleTuple
    (by simp [sampleTypes, sampleTuple, Ty.AllValid, Ty.Valid, StringImpl.characters, defaultTables, defaultValidKey,
      defaultEqual])
    (fun offset => UInt8.ofNat offset) sampleBuffer rfl

end

end WebKit.WebKit2
