import WebKit.WTF.SHA1
import Mathlib.Tactic.IntervalCases

/-!
# `SHA1` computes SHA-1 digests

The functions and loops of `processBlock` are those of the standard, word by word (`toBitVec_word`, `loadWords_eq`,
`expandWords_eq`, `mix_eq`), so a block is compressed (`processBlock_spec`). `Holds` says what an object has been given:
every byte keeps it (`Holds.addByte`), `finalize` hashes the padded message (`Holds.finalize`), and `computeHash` writes
its digest (`Holds.computeHash`). `digests_exact` is about any number of messages on one object, in any pieces.
-/

namespace WebKit.WTF.SHA1

open WebKit.Lib WebKit.Lib.SecureHash

/-! ## Words -/

theorem toBitVec_f (t : Nat) (b c d : UInt32) :
    (SHA1.f t b c d).toBitVec = SecureHash.f t b.toBitVec c.toBitVec d.toBitVec := by
  unfold SHA1.f SecureHash.f
  split_ifs <;> rfl

theorem toBitVec_k (t : Nat) : (k t).toBitVec = K t := by
  unfold k K
  split_ifs <;> rfl

theorem toBitVec_rotateLeft {n : UInt32} {m : Nat} (hn : n.toNat = m) (hpos : 0 < m) (hlt : m < 32) (x : UInt32) :
    (rotateLeft n x).toBitVec = x.toBitVec.rotateLeft m := by
  have hleft : n.toBitVec % 32 = BitVec.ofNat 32 m := by
    apply BitVec.eq_of_toNat_eq
    simp [hn]
    omega
  have hright : (32 - n).toBitVec % 32 = BitVec.ofNat 32 (32 - m) := by
    apply BitVec.eq_of_toNat_eq
    simp [hn]
    omega
  rw [rotateLeft, UInt32.toBitVec_or, UInt32.toBitVec_shiftLeft, UInt32.toBitVec_shiftRight, hleft, hright,
    BitVec.rotateLeft_def, Nat.mod_eq_of_lt hlt]
  have hm : m % 2 ^ 32 = m := by omega
  have hm' : (32 - m) % 2 ^ 32 = 32 - m := by omega
  simp only [BitVec.shiftLeft_eq', BitVec.ushiftRight_eq', BitVec.toNat_ofNat, hm, hm']

theorem toBitVec_word (b₀ b₁ b₂ b₃ : UInt8) :
    ((b₀.toUInt32 <<< 24) ||| (b₁.toUInt32 <<< 16) ||| (b₂.toUInt32 <<< 8) ||| b₃.toUInt32).toBitVec =
      wordOf [b₀, b₁, b₂, b₃] := by
  have h₀ := b₀.toNat_lt
  have h₁ := b₁.toNat_lt
  have h₂ := b₂.toNat_lt
  have h₃ := b₃.toNat_lt
  have hfirst := Nat.two_pow_add_eq_or_of_lt (i := 24) (show b₁.toNat * 2 ^ 16 < 2 ^ 24 by omega) b₀.toNat
  have hsecond := Nat.two_pow_add_eq_or_of_lt (i := 16) (show b₂.toNat * 2 ^ 8 < 2 ^ 16 by omega)
    (2 ^ 8 * b₀.toNat + b₁.toNat)
  have hthird := Nat.two_pow_add_eq_or_of_lt (i := 8) (show b₃.toNat < 2 ^ 8 by omega)
    (2 ^ 16 * b₀.toNat + 2 ^ 8 * b₁.toNat + b₂.toNat)
  have hzero : BitVec.toNat (0 : Word) = 0 := rfl
  have hbase : BitVec.toNat (256 : Word) = 256 := rfl
  have hshift₀ : b₀.toNat * 2 ^ 24 % 2 ^ 32 = 2 ^ 24 * b₀.toNat := by
    rw [Nat.mod_eq_of_lt (by omega), Nat.mul_comm]
  have hshift₁ : b₁.toNat * 2 ^ 16 % 2 ^ 32 = b₁.toNat * 2 ^ 16 := Nat.mod_eq_of_lt (by omega)
  have hshift₂ : b₂.toNat * 2 ^ 8 % 2 ^ 32 = b₂.toNat * 2 ^ 8 := Nat.mod_eq_of_lt (by omega)
  have htwo : 2 ^ 24 * b₀.toNat + b₁.toNat * 2 ^ 16 = 2 ^ 16 * (2 ^ 8 * b₀.toNat + b₁.toNat) := by omega
  have hthree : 2 ^ 16 * (2 ^ 8 * b₀.toNat + b₁.toNat) + b₂.toNat * 2 ^ 8 =
      2 ^ 8 * (2 ^ 16 * b₀.toNat + 2 ^ 8 * b₁.toNat + b₂.toNat) := by omega
  apply BitVec.eq_of_toNat_eq
  simp only [wordOf, List.foldl_cons, List.foldl_nil, UInt32.toNat_toBitVec, UInt32.toNat_or, UInt32.toNat_shiftLeft,
    UInt8.toNat_toUInt32, BitVec.toNat_add, BitVec.toNat_mul, BitVec.toNat_ofNat, UInt32.reduceToNat, Nat.shiftLeft_eq,
    Nat.reduceMod]
  rw [hzero, hbase, hshift₀, hshift₁, hshift₂, ← hfirst, htwo, ← hsecond, hthree, ← hthird]
  omega

/-! ## The loops over words -/

variable {m_buffer : Vector UInt8 64} {w : Vector UInt32 80}

/-- The first `i` words are those of the block. -/
def Scheduled (m_buffer : Vector UInt8 64) (i : Nat) (w : Vector UInt32 80) : Prop :=
  ∀ t (h : t < 80), t < i → w[t].toBitVec = schedule m_buffer.toList t

theorem Scheduled.set {i : Nat} (hw : Scheduled m_buffer i w) (hi : i < 80) {word : UInt32}
    (hword : word.toBitVec = schedule m_buffer.toList i) : Scheduled m_buffer (i + 1) (w.set i word) := by
  intro t h hlt
  by_cases hti : t = i
  · subst hti
    rw [Vector.getElem_set_self, hword]
  · rw [Vector.getElem_set_ne _ _ (Ne.symm hti)]
    exact hw t h (by omega)

theorem loadWords_eq (m_buffer : Vector UInt8 64) (w : Vector UInt32 80) :
    Scheduled m_buffer 16 (loadWords m_buffer w) := by
  apply fold_invariant (motive := Scheduled m_buffer)
  · intro t h hlt
    omega
  · intro i hi w hw
    apply hw.set (by omega)
    rw [toBitVec_word, schedule, if_pos hi, drop_take_four (by rw [Vector.length_toList]; omega)]
    simp only [Vector.getElem_toList, Nat.mul_comm]

theorem expandWords_eq (hw : Scheduled m_buffer 16 w) : Scheduled m_buffer 80 (expandWords w) := by
  have hloop : Scheduled m_buffer (16 + 64) (expandWords w) := by
    apply fold_invariant (motive := fun i => Scheduled m_buffer (16 + i))
    · exact hw
    · intro i hi w hw
      apply hw.set (by omega)
      rw [toBitVec_rotateLeft (m := 1) rfl (by decide) (by decide), schedule, if_neg (by omega)]
      simp only [UInt32.toBitVec_xor]
      rw [hw _ _ (by omega), hw _ _ (by omega), hw _ _ (by omega), hw _ _ (by omega)]
  exact hloop

def Variables.registers (v : Variables) : Registers :=
  ⟨v.a.toBitVec, v.b.toBitVec, v.c.toBitVec, v.d.toBitVec, v.e.toBitVec⟩

theorem mix_eq (hw : Scheduled m_buffer 80 w) (v : Variables) :
    (mix w v).registers = rounds (schedule m_buffer.toList) v.registers 80 := by
  apply fold_invariant (motive := fun t (v' : Variables) =>
    v'.registers = rounds (schedule m_buffer.toList) v.registers t)
  · rfl
  · intro t ht v' hv'
    rw [rounds, ← hv', SecureHash.round, ← hw t ht ht]
    simp only [Variables.registers, UInt32.toBitVec_add, toBitVec_f, toBitVec_k,
      toBitVec_rotateLeft (n := 5) (m := 5) rfl (show 0 < 5 by decide) (by decide),
      toBitVec_rotateLeft (n := 30) (m := 30) rfl (show 0 < 30 by decide) (by decide)]

/-- **A block is compressed.** -/
theorem processBlock_spec (s : SHA1) :
    registers s.processBlock.m_hash = compress (registers s.m_hash) s.m_buffer.toList := by
  have hw := expandWords_eq (loadWords_eq s.m_buffer (.replicate 80 0))
  have hmix := mix_eq hw ⟨s.m_hash[0], s.m_hash[1], s.m_hash[2], s.m_hash[3], s.m_hash[4]⟩
  have hregisters : (Variables.mk s.m_hash[0] s.m_hash[1] s.m_hash[2] s.m_hash[3] s.m_hash[4]).registers =
      registers s.m_hash := rfl
  rw [hregisters] at hmix
  rw [compress, ← hmix]
  rfl

/-! ## The loops over bytes -/

theorem storeBytes_spec {n start width : Nat} (value : Nat) (h : start + width ≤ n) (bytes : Vector UInt8 n) :
    (storeBytes start width value h bytes).toList =
      bytes.toList.take start ++ (bigEndian width value ++ bytes.toList.drop (start + width)) :=
  toList_storeBigEndian value h bytes

/-- Zeros are stored over what was there. -/
theorem clearBytes_spec {start count : Nat} (h : start + count ≤ 64) (m_buffer : Vector UInt8 64) :
    (clearBytes start count h m_buffer).toList =
      m_buffer.toList.take start ++ (List.replicate count 0 ++ m_buffer.toList.drop (start + count)) := by
  have hloop := fold_invariant (n := count) (a := m_buffer)
    (f := fun i _ m_buffer => m_buffer.set (start + i) 0x00)
    (motive := fun i m_buffer' => i ≤ count → m_buffer'.toList =
      m_buffer.toList.take start ++ (List.replicate i 0 ++ m_buffer.toList.drop (start + i)))
    (by simp) ?_
  · exact hloop (Nat.le_refl count)
  · intro i hi m_buffer' hbytes hle
    have hlt : start + i < m_buffer.toList.length := by rw [Vector.length_toList]; omega
    have htake : (m_buffer.toList.take start).length = start := by rw [List.length_take, min_eq_left (by omega)]
    rw [Vector.toList_set, hbytes hi.le, List.set_append_right _ _ (by omega), htake, Nat.add_sub_cancel_left,
      List.set_append_right _ _ (by rw [List.length_replicate]), List.length_replicate, Nat.sub_self, set_drop hlt,
      List.replicate_succ', List.append_assoc, List.singleton_append, Nat.add_assoc]

theorem writeDigest_spec (m_hash : Vector UInt32 5) (digest : Vector UInt8 20) :
    (writeDigest m_hash digest).toList = (registers m_hash).bytes := by
  let words := [m_hash[0], m_hash[1], m_hash[2], m_hash[3], m_hash[4]].map UInt32.toNat
  have hword : ∀ i (hi : i < 5), words.get ⟨i, hi⟩ = m_hash[i].toNat := by
    intro i hi
    interval_cases i <;> rfl
  have hloop := fold_invariant (n := 5) (a := digest)
    (f := fun i _ digest => storeBytes (4 * i) 4 m_hash[i].toNat (by omega) digest)
    (motive := fun i digest' => i ≤ 5 → digest'.toList =
      (words.take i).flatMap (bigEndian 4) ++ digest.toList.drop (4 * i))
    (by simp) ?_
  · rw [writeDigest, hloop (Nat.le_refl 5), List.drop_of_length_le (by rw [Vector.length_toList]), List.append_nil]
    rfl
  · intro i hi digest' hbytes hle
    have hlength : ((words.take i).flatMap (bigEndian 4)).length = 4 * i := by
      rw [length_flatMap_const (length_bigEndian 4), List.length_take,
        min_eq_left (show i ≤ words.length from hi.le), Nat.mul_comm]
    have htake : words.take (i + 1) = words.take i ++ [m_hash[i].toNat] := by
      rw [List.take_succ_eq_append_getElem hi]
      exact congrArg (fun word => words.take i ++ [word]) (hword i hi)
    rw [storeBytes_spec, hbytes hi.le, List.take_left' hlength, List.drop_append, hlength, htake, List.flatMap_append,
      List.drop_of_length_le (by omega), Nat.add_sub_cancel_left, List.drop_drop, List.flatMap_singleton,
      List.nil_append, List.append_assoc, Nat.mul_succ]

/-! ## What an object has been given -/

variable {s : SHA1} {message : List UInt8}

/-- The bytes that wait in the buffer. -/
def waiting (s : SHA1) : List UInt8 := s.m_buffer.toList.take s.m_cursor

/-- The object has been given `message`. -/
structure Holds (s : SHA1) (message : List UInt8) : Prop where
  cursor_lt : s.m_cursor < 64
  totalBytes : s.m_totalBytes = UInt64.ofNat message.length
  absorbed : Absorbed 64 compress initial message (registers s.m_hash) s.waiting

theorem length_waiting (h : s.m_cursor ≤ 64) : s.waiting.length = s.m_cursor := by
  rw [waiting, List.length_take, Vector.length_toList, min_eq_left h]

/-- A fresh object has been given nothing. -/
theorem holds_reset (s : SHA1) : Holds s.reset [] where
  cursor_lt := show 0 < 64 by decide
  totalBytes := rfl
  absorbed := absorbed_nil (by decide)

theorem put_spec (h : s.m_cursor < 64) (byte : UInt8) :
    ∃ s', s.put byte = some s' ∧ s'.m_cursor = s.m_cursor + 1 ∧ s'.m_hash = s.m_hash ∧
      s'.m_totalBytes = s.m_totalBytes ∧ s'.waiting = s.waiting ++ [byte] := by
  refine ⟨_, dif_pos h, rfl, rfl, rfl, ?_⟩
  rw [waiting, Vector.toList_set, List.take_set, set_take_succ (by rw [Vector.length_toList]; exact h), waiting]

theorem toList_of_full (h : s.m_cursor = 64) : s.m_buffer.toList = s.waiting := by
  rw [waiting, h, List.take_of_length_le (by rw [Vector.length_toList])]

/-- **Every byte is absorbed.** -/
theorem Holds.addByte (h : Holds s message) (byte : UInt8) :
    ∃ s', s.addByte byte = some s' ∧ Holds s' (message ++ [byte]) := by
  obtain ⟨s₁, hput, hcursor, hhash, htotal, hwaiting⟩ := put_spec h.cursor_lt byte
  have hlength := length_waiting h.cursor_lt.le
  have htotal' : s₁.m_totalBytes + 1 = UInt64.ofNat (message ++ [byte]).length := by
    rw [htotal, h.totalBytes, List.length_append, UInt64.ofNat_add]
    rfl
  have hlt := h.cursor_lt
  by_cases hfull : s₁.m_cursor = 64
  · refine ⟨{ s₁ with m_totalBytes := s₁.m_totalBytes + 1 }.processBlock, by simp [SHA1.addByte, hput, hfull], ?_⟩
    refine ⟨show 0 < 64 by decide, htotal', ?_⟩
    have hcomplete := h.absorbed.complete byte (by omega)
    rw [processBlock_spec, toList_of_full hfull]
    show Absorbed 64 compress initial _ (compress (registers s₁.m_hash) s₁.waiting) []
    rw [hhash, hwaiting]
    exact hcomplete
  · refine ⟨{ s₁ with m_totalBytes := s₁.m_totalBytes + 1 }, by simp [SHA1.addByte, hput, hfull], ?_⟩
    refine ⟨show s₁.m_cursor < 64 by omega, htotal', ?_⟩
    show Absorbed 64 compress initial _ (registers s₁.m_hash) s₁.waiting
    rw [hhash, hwaiting]
    exact h.absorbed.push byte (by omega)

theorem Holds.addBytes (h : Holds s message) (input : List UInt8) :
    ∃ s', s.addBytes input = some s' ∧ Holds s' (message ++ input) := by
  induction input generalizing s message with
  | nil => exact ⟨s, rfl, by rwa [List.append_nil]⟩
  | cons byte input ih =>
    obtain ⟨s₁, hadd, hs₁⟩ := h.addByte byte
    obtain ⟨s', hrest, hs'⟩ := ih hs₁
    refine ⟨s', ?_, by rwa [List.append_assoc, List.singleton_append] at hs'⟩
    rw [SHA1.addBytes, List.foldlM_cons, hadd]
    exact hrest

/-! ## The digest -/

/-- The length goes behind zeros, into the last block. -/
theorem writeLength_spec (h : s.m_cursor ≤ 56) (htotal : s.m_totalBytes = UInt64.ofNat message.length) :
    registers s.writeLength.m_hash = compress (registers s.m_hash)
      (s.waiting ++ (List.replicate (56 - s.m_cursor) 0 ++ bigEndian 8 (8 * message.length))) := by
  have height : (8 : UInt64).toNat = 8 := rfl
  have hbits : (s.m_totalBytes * 8).toNat = 8 * message.length % 256 ^ 8 := by
    rw [htotal, UInt64.toNat_mul, UInt64.toNat_ofNat', height, Nat.mod_mul_mod, Nat.mul_comm]
    rfl
  have hclear := clearBytes_spec (show s.m_cursor + (56 - s.m_cursor) ≤ 64 by omega) s.m_buffer
  rw [← waiting, ← List.append_assoc] at hclear
  have hlength := length_waiting (show s.m_cursor ≤ 64 by omega)
  have hfront : (s.waiting ++ List.replicate (56 - s.m_cursor) 0).length = 56 := by
    rw [List.length_append, hlength, List.length_replicate]
    omega
  rw [writeLength, processBlock_spec]
  simp only [dif_pos h]
  rw [storeBytes_spec, hclear, List.take_left' hfront, hbits, bigEndian_mod,
    List.drop_of_length_le (by simp [hlength]; omega), List.append_nil, List.append_assoc]

/-- If the length does not fit behind the bytes that wait, zeros complete their block. -/
theorem padOut_spec (h : 56 < s.m_cursor) (hle : s.m_cursor ≤ 64) :
    s.padOut.m_cursor = 0 ∧ s.padOut.m_totalBytes = s.m_totalBytes ∧ s.padOut.waiting = [] ∧
      registers s.padOut.m_hash =
        compress (registers s.m_hash) (s.waiting ++ List.replicate (64 - s.m_cursor) 0) := by
  have hclear := clearBytes_spec (show s.m_cursor + (64 - s.m_cursor) ≤ 64 by omega) s.m_buffer
  rw [padOut, dif_pos ⟨h, hle⟩]
  refine ⟨rfl, rfl, rfl, ?_⟩
  rw [processBlock_spec, hclear, List.drop_of_length_le (by rw [Vector.length_toList]; omega), List.append_nil, waiting]

/-- **The padded message is hashed.** -/
theorem Holds.finalize (h : Holds s message) :
    ∃ s', s.finalize = some s' ∧ registers s'.m_hash = hashBlocks 64 compress initial (padded message) := by
  obtain ⟨s₁, hput, hcursor, hhash, htotal, hwaiting⟩ := put_spec h.cursor_lt 0x80
  have hlt := h.cursor_lt
  have hlength := length_waiting hlt.le
  have hmod : message.length % 64 = s.m_cursor := by rw [h.absorbed.length_mod, hlength]
  have htotal₁ := htotal.trans h.totalBytes
  refine ⟨s₁.padOut.writeLength, by rw [SHA1.finalize, hput]; rfl, ?_⟩
  rw [padded, h.absorbed.finish, zeros_eq, hmod]
  by_cases hroom : s.m_cursor < 56
  · have hpad : s₁.padOut = s₁ := dif_neg (by omega)
    have hblock : (s.waiting ++ 0x80 ::
        (List.replicate (55 - s.m_cursor) 0 ++ bigEndian 8 (8 * message.length))).length = 64 := by
      simp [hlength]
      omega
    have hzeros : 56 - s₁.m_cursor = 55 - s.m_cursor := by omega
    rw [if_pos hroom, hashBlocks_block (by decide) _ hblock, hpad, writeLength_spec (by omega) htotal₁, hhash, hwaiting,
      hzeros, List.append_assoc, List.singleton_append]
  · obtain ⟨hcursor₂, htotal₂, hwaiting₂, hhash₂⟩ := padOut_spec (s := s₁) (by omega) (by omega)
    have hfirst : (s.waiting ++ 0x80 :: List.replicate (63 - s.m_cursor) (0 : UInt8)).length = 64 := by
      simp [hlength]
      omega
    have hsecond : (List.replicate 56 0 ++ bigEndian 8 (8 * message.length)).length = 64 := by simp
    have hzeros : 64 - s₁.m_cursor = 63 - s.m_cursor := by omega
    have hsplit : s.waiting ++ 0x80 ::
        (List.replicate (63 - s.m_cursor + 56) 0 ++ bigEndian 8 (8 * message.length)) =
        (s.waiting ++ 0x80 :: List.replicate (63 - s.m_cursor) 0) ++
          (List.replicate 56 0 ++ bigEndian 8 (8 * message.length)) := by
      rw [List.replicate_add]
      simp only [List.append_assoc, List.cons_append]
    rw [if_neg hroom, hsplit, hashBlocks_append (by decide) ⟨1, by rw [hfirst]⟩, hashBlocks_block (by decide) _ hfirst,
      hashBlocks_block (by decide) _ hsecond, writeLength_spec (by omega) (htotal₂.trans htotal₁), hhash₂, hwaiting₂,
      hcursor₂, hhash, hwaiting, hzeros, List.append_assoc, List.singleton_append, List.nil_append]

theorem Holds.computeHash (h : Holds s message) (digest : Vector UInt8 20) :
    ∃ digest', s.computeHash digest = some (digest', s.reset) ∧ digest'.toList = SecureHash.digest message := by
  obtain ⟨s', hfinalize, hhash⟩ := h.finalize
  refine ⟨writeDigest s'.m_hash digest, by rw [SHA1.computeHash, hfinalize]; rfl, ?_⟩
  rw [writeDigest_spec, hhash, SecureHash.digest]

/-! ## Messages -/

/-- A message in pieces is added and its digest is taken. -/
def digestPieces (s : SHA1) (pieces : List (List UInt8)) (digest : Vector UInt8 20) :
    Option (Vector UInt8 20 × SHA1) := do
  let s ← pieces.foldlM SHA1.addBytes s
  s.computeHash digest

/-- Messages one after the other on one object, and the object afterwards. -/
def digestAll (s : SHA1) : List (List (List UInt8) × Vector UInt8 20) → Option (List (Vector UInt8 20) × SHA1)
  | [] => some ([], s)
  | (pieces, digest) :: messages => do
    let (digest', s) ← s.digestPieces pieces digest
    let (digests, s) ← s.digestAll messages
    return (digest' :: digests, s)

theorem Holds.addPieces (h : Holds s message) (pieces : List (List UInt8)) :
    ∃ s', pieces.foldlM SHA1.addBytes s = some s' ∧ Holds s' (message ++ pieces.flatten) := by
  induction pieces generalizing s message with
  | nil => exact ⟨s, rfl, by rwa [List.flatten_nil, List.append_nil]⟩
  | cons input pieces ih =>
    obtain ⟨s₁, hadd, hs₁⟩ := h.addBytes input
    obtain ⟨s', hrest, hs'⟩ := ih hs₁
    refine ⟨s', ?_, by rwa [List.append_assoc] at hs'⟩
    rw [List.foldlM_cons, hadd]
    exact hrest

theorem digestPieces_spec (s : SHA1) (pieces : List (List UInt8)) (digest : Vector UInt8 20) :
    ∃ digest', s.reset.digestPieces pieces digest = some (digest', s.reset) ∧
      digest'.toList = SecureHash.digest pieces.flatten := by
  obtain ⟨s', hadd, hs'⟩ := (holds_reset s).addPieces pieces
  obtain ⟨digest', hcompute, hdigest⟩ := hs'.computeHash digest
  refine ⟨digest', ?_, hdigest⟩
  rw [digestPieces, hadd]
  exact hcompute

/-- **Every message on an object, in any pieces, gets its SHA-1 digest, and leaves the object as it was constructed.**
The standard is about messages of less than 2 ^ 61 bytes; the length of a longer one is stored modulo 2 ^ 64 bits. -/
theorem digests_exact (memory : SHA1) (messages : List (List (List UInt8) × Vector UInt8 20)) :
    ∃ digests, (construct memory).digestAll messages = some (digests, construct memory) ∧
      digests.map Vector.toList = messages.map fun message => SecureHash.digest message.1.flatten := by
  induction messages with
  | nil => exact ⟨[], rfl, rfl⟩
  | cons message messages ih =>
    obtain ⟨digests, hall, hdigests⟩ := ih
    obtain ⟨digest', hpieces, hdigest⟩ := digestPieces_spec memory message.1 message.2
    refine ⟨digest' :: digests, ?_, by rw [List.map_cons, List.map_cons, hdigest, hdigests]⟩
    rw [construct] at hall
    simp [construct, digestAll, hpieces, hall]

end WebKit.WTF.SHA1
