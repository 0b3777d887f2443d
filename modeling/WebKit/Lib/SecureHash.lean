import WebKit.Lib.BigEndian

/-!
# Hash functions

- `hashBlocks`, a compression function folded over the blocks of a message, block by block (`hashBlocks_append`,
  `hashBlocks_block`);
- `Absorbed`, what an incremental hasher has made of a message: the full blocks are in its state, the rest is waiting
  (`Absorbed.push`, `Absorbed.complete`). A message that is completed to whole blocks is hashed from there
  (`Absorbed.finish`).

The message is padded (`padded`: one bit, the least number of zero bits, `zeros_least`, and the length in bits) to whole
blocks of 64 bytes (`dvd_length_padded`). Each block is expanded to 80 words (`schedule`), and 80 rounds mix them into
five registers (`compress`). The digest is the registers after the last block, the highest byte first.
-/

namespace WebKit.Lib

/-! ## Hashing block by block -/

/-! ## Blocks -/

variable {α σ : Type} {width : Nat} {compress : σ → List α → σ}

theorem chunks_append {front : List α} {count : Nat} (hfront : front.length = count * width) (count' : Nat)
    (rest : List α) :
    chunks width (count + count') (front ++ rest) = chunks width count front ++ chunks width count' rest := by
  induction count generalizing front with
  | zero =>
    obtain rfl : front = [] := by simpa using hfront
    simp [chunks]
  | succ count ih =>
    have hle : width ≤ front.length := by rw [hfront, Nat.succ_mul]; omega
    have hdrop : (front.drop width).length = count * width := by rw [List.length_drop, hfront, Nat.succ_mul]; omega
    rw [Nat.succ_add, chunks, chunks, List.take_append_of_le_length hle, List.drop_append_of_le_length hle, ih hdrop,
      List.cons_append]

variable (width compress)

/-- The full blocks of a message, from the first on. -/
def hashBlocks (s : σ) (message : List α) : σ :=
  (chunks width (message.length / width) message).foldl compress s

/-- The blocks of `message` are hashed into `s` but for `pending`, which is less than a block. -/
def Absorbed (initial : σ) (message : List α) (s : σ) (pending : List α) : Prop :=
  ∃ front, message = front ++ pending ∧ width ∣ front.length ∧ pending.length < width ∧
    s = hashBlocks width compress initial front

variable {width compress}

theorem hashBlocks_append (hwidth : 0 < width) {front : List α} (hfront : width ∣ front.length) (s : σ)
    (rest : List α) :
    hashBlocks width compress s (front ++ rest) =
      hashBlocks width compress (hashBlocks width compress s front) rest := by
  obtain ⟨count, hcount⟩ := hfront
  have hdiv : front.length / width = count := by rw [hcount, Nat.mul_div_cancel_left _ hwidth]
  have hdiv' : (front ++ rest).length / width = count + rest.length / width := by
    rw [List.length_append, hcount, Nat.mul_add_div hwidth]
  rw [hashBlocks, hashBlocks, hashBlocks, hdiv, hdiv', chunks_append (by rw [hcount, Nat.mul_comm]), List.foldl_append]

theorem hashBlocks_block (hwidth : 0 < width) (s : σ) {block : List α} (hblock : block.length = width) :
    hashBlocks width compress s block = compress s block := by
  have hone : block.length / width = 1 := by rw [hblock, Nat.div_self hwidth]
  have htake : block.take width = block := List.take_of_length_le hblock.le
  simp [hashBlocks, hone, chunks, htake]

variable {initial s : σ} {message pending : List α}

theorem absorbed_nil (hwidth : 0 < width) : Absorbed width compress initial [] initial [] :=
  ⟨[], rfl, Nat.dvd_zero width, hwidth, by simp [hashBlocks, chunks]⟩

/-- One more element that does not complete a block waits with the others. -/
theorem Absorbed.push (h : Absorbed width compress initial message s pending) (a : α)
    (hroom : pending.length + 1 < width) : Absorbed width compress initial (message ++ [a]) s (pending ++ [a]) := by
  obtain ⟨front, rfl, hfront, -, rfl⟩ := h
  exact ⟨front, List.append_assoc .., hfront, by simpa using hroom, rfl⟩

/-- **One more element that completes a block.** -/
theorem Absorbed.complete (h : Absorbed width compress initial message s pending) (a : α)
    (hfull : pending.length + 1 = width) :
    Absorbed width compress initial (message ++ [a]) (compress s (pending ++ [a])) [] := by
  obtain ⟨front, rfl, hfront, -, rfl⟩ := h
  have hblock : (pending ++ [a]).length = width := by simpa using hfull
  have hwidth : 0 < width := by omega
  refine ⟨front ++ (pending ++ [a]), by simp, ?_, hwidth, ?_⟩
  · rw [List.length_append, hblock]
    exact Nat.dvd_add hfront (Nat.dvd_refl width)
  · rw [hashBlocks_append hwidth hfront, hashBlocks_block hwidth _ hblock]

/-- **A message that is completed is hashed from what waits.** -/
theorem Absorbed.finish (h : Absorbed width compress initial message s pending) (tail : List α) :
    hashBlocks width compress initial (message ++ tail) = hashBlocks width compress s (pending ++ tail) := by
  obtain ⟨front, rfl, hfront, hlt, rfl⟩ := h
  have hwidth : 0 < width := by omega
  rw [List.append_assoc, hashBlocks_append hwidth hfront]

theorem Absorbed.length_mod (h : Absorbed width compress initial message s pending) :
    message.length % width = pending.length := by
  obtain ⟨front, rfl, ⟨count, hcount⟩, hlt, -⟩ := h
  rw [List.length_append, hcount, Nat.mul_add_mod, Nat.mod_eq_of_lt hlt]

end WebKit.Lib

namespace WebKit.Lib.SecureHash

/-! ## The secure hash algorithm SHA-1 -/

abbrev Word := BitVec 32

/-! ## Functions and constants -/

def f (t : Nat) (B C D : Word) : Word :=
  if t < 20 then (B &&& C) ||| (~~~B &&& D)
  else if t < 40 then B ^^^ C ^^^ D
  else if t < 60 then (B &&& C) ||| (B &&& D) ||| (C &&& D)
  else B ^^^ C ^^^ D

def K (t : Nat) : Word :=
  if t < 20 then 0x5A827999 else if t < 40 then 0x6ED9EBA1 else if t < 60 then 0x8F1BBCDC else 0xCA62C1D6

/-! ## The message -/

/-- The number of zero bytes between the one bit and the length. -/
def zeros (length : Nat) : Nat := (119 - length % 64) % 64

def padded (message : List UInt8) : List UInt8 :=
  message ++ (0x80 :: (List.replicate (zeros message.length) 0 ++ bigEndian 8 (8 * message.length)))

/-- The number whose bytes are given, the highest first. -/
def wordOf (bytes : List UInt8) : Word := bytes.foldl (fun n byte => n * 256 + BitVec.ofNat 32 byte.toNat) 0

/-- The words `W(t)` of a block. -/
def schedule (block : List UInt8) (t : Nat) : Word :=
  if t < 16 then wordOf ((block.drop (4 * t)).take 4)
  else
    (schedule block (t - 3) ^^^ schedule block (t - 8) ^^^ schedule block (t - 14) ^^^
      schedule block (t - 16)).rotateLeft 1

/-! ## The digest -/

structure Registers where
  A : Word
  B : Word
  C : Word
  D : Word
  E : Word

def round (W : Nat → Word) (t : Nat) (r : Registers) : Registers where
  A := r.A.rotateLeft 5 + f t r.B r.C r.D + r.E + W t + K t
  B := r.A
  C := r.B.rotateLeft 30
  D := r.C
  E := r.D

/-- The registers after the first `count` rounds. -/
def rounds (W : Nat → Word) (r : Registers) : Nat → Registers
  | 0 => r
  | count + 1 => round W count (rounds W r count)

def Registers.add (r r' : Registers) : Registers := ⟨r.A + r'.A, r.B + r'.B, r.C + r'.C, r.D + r'.D, r.E + r'.E⟩

def compress (H : Registers) (block : List UInt8) : Registers := H.add (rounds (schedule block) H 80)

def initial : Registers := ⟨0x67452301, 0xEFCDAB89, 0x98BADCFE, 0x10325476, 0xC3D2E1F0⟩

def Registers.bytes (r : Registers) : List UInt8 := [r.A, r.B, r.C, r.D, r.E].flatMap fun word => bigEndian 4 word.toNat

/-- **The SHA-1 digest of a message.** -/
def digest (message : List UInt8) : List UInt8 := (hashBlocks 64 compress initial (padded message)).bytes

/-! ## Padding -/

variable {message : List UInt8}

theorem length_padded : (padded message).length = message.length + 1 + zeros message.length + 8 := by
  simp [padded]
  omega

theorem dvd_length_padded : 64 ∣ (padded message).length := by
  rw [length_padded, zeros]
  omega

theorem zeros_least {count : Nat} (h : 64 ∣ message.length + 1 + count + 8) : zeros message.length ≤ count := by
  rw [zeros]
  omega

/-- The length is behind the other bytes, in the same block if it has room for it. -/
theorem zeros_eq {length : Nat} :
    zeros length = if length % 64 < 56 then 55 - length % 64 else 63 - length % 64 + 56 := by
  rw [zeros]
  split <;> omega

end WebKit.Lib.SecureHash
