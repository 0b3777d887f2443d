import WebKit.WTF.WTFString

/-!
# String hashing

`StringHasher`, which takes two characters at a time and keeps the first of a pair until the second comes. However the
characters are handed over, one by one (`addCharacter`), in pairs (`addCharacters_eq`) or as a buffer (`addBuffer_eq`),
the hasher comes to the same state. A masked hash is never 0 (`hashWithTop8BitsMasked_ne_zero`).

Runs of 8-bit or 16-bit characters come with a length (`addRun_eq`) or end with NUL (`addTerminated_eq`). A `Feeding` is
one call with its characters, and `feed_spec` says what any calls come to. `hash_of_characters` is the result.
-/

namespace WebKit.WTF

def stringHashingStartValue : UInt32 := 0x9E3779B9

/-- `m_hash`, and `m_pendingCharacter` where `m_hasPendingCharacter` is set. -/
structure StringHasher where
  hash : UInt32 := stringHashingStartValue
  pendingCharacter : Option UChar := none
  deriving DecidableEq, Repr

namespace StringHasher

/-- Bits that are kept for the flags of a string. -/
def flagCount : UInt32 := 8

def addCharactersAssumingAligned (hasher : StringHasher) (a b : UChar) : StringHasher :=
  let hash := hasher.hash + a.toUInt32
  let hash := (hash <<< 16) ^^^ ((b.toUInt32 <<< 11) ^^^ hash)
  { hasher with hash := hash + (hash >>> 11) }

def addCharacter (hasher : StringHasher) (character : UChar) : StringHasher :=
  match hasher.pendingCharacter with
  | some pending => { hasher with pendingCharacter := none }.addCharactersAssumingAligned pending character
  | none => { hasher with pendingCharacter := some character }

def addCharacters (hasher : StringHasher) (a b : UChar) : StringHasher :=
  match hasher.pendingCharacter with
  | some pending => { hasher.addCharactersAssumingAligned pending a with pendingCharacter := some b }
  | none => hasher.addCharactersAssumingAligned a b

/-- `addCharactersAssumingAligned` with `data` and `length`. -/
def addBufferAssumingAligned (hasher : StringHasher) : List UChar → StringHasher
  | a :: b :: data => (hasher.addCharactersAssumingAligned a b).addBufferAssumingAligned data
  | [a] => hasher.addCharacter a
  | [] => hasher

def avalancheBits (hasher : StringHasher) : UInt32 :=
  let result : UInt32 :=
    match hasher.pendingCharacter with
    | some pending =>
      let result := hasher.hash + pending.toUInt32
      let result := result ^^^ (result <<< 11)
      result + (result >>> 17)
    | none => hasher.hash
  let result := result ^^^ (result <<< 3)
  let result := result + (result >>> 5)
  let result := result ^^^ (result <<< 2)
  let result := result + (result >>> 15)
  result ^^^ (result <<< 10)

def hashWithTop8BitsMasked (hasher : StringHasher) : UInt32 :=
  let result := hasher.avalancheBits &&& ((1 <<< (32 - flagCount)) - 1)
  if result = 0 then 0x80000000 >>> flagCount else result

/-- `hash()`; the field `hash` is the `m_hash` it is made from. -/
def finalHash (hasher : StringHasher) : UInt32 :=
  let result := hasher.avalancheBits
  if result = 0 then 0x80000000 else result

/-- `computeHash` of 16-bit characters. -/
def computeHash (data : List UChar) : UInt32 := (addBufferAssumingAligned {} data).finalHash

/-- The hash of a string of 16-bit characters. -/
def computeHashAndMaskTop8Bits (data : List UChar) : UInt32 :=
  (addBufferAssumingAligned {} data).hashWithTop8BitsMasked

theorem addCharacters_eq (hasher : StringHasher) (a b : UChar) :
    hasher.addCharacters a b = (hasher.addCharacter a).addCharacter b := by
  obtain ⟨hash, _ | pending⟩ := hasher <;> rfl

theorem addBuffer_eq (hasher : StringHasher) (data : List UChar) (haligned : hasher.pendingCharacter = none) :
    hasher.addBufferAssumingAligned data = data.foldl addCharacter hasher := by
  fun_induction addBufferAssumingAligned hasher data with
  | case1 hasher a b data ih =>
    have hpair : hasher.addCharactersAssumingAligned a b = (hasher.addCharacter a).addCharacter b := by
      rw [← addCharacters_eq, addCharacters, haligned]
    rw [ih haligned, List.foldl_cons, List.foldl_cons, hpair]
  | case2 => rfl
  | case3 => rfl

theorem computeHashAndMaskTop8Bits_eq (data : List UChar) :
    computeHashAndMaskTop8Bits data = (data.foldl addCharacter {}).hashWithTop8BitsMasked := by
  rw [computeHashAndMaskTop8Bits, addBuffer_eq _ _ rfl]

theorem hashWithTop8BitsMasked_ne_zero (hasher : StringHasher) : hasher.hashWithTop8BitsMasked ≠ 0 := by
  unfold hashWithTop8BitsMasked
  simp only
  split_ifs with hzero
  · decide
  · exact hzero

theorem finalHash_ne_zero (hasher : StringHasher) : hasher.finalHash ≠ 0 := by
  unfold finalHash
  simp only
  split_ifs with hzero
  · decide
  · exact hzero

theorem hashWithTop8BitsMasked_lt (hasher : StringHasher) : hasher.hashWithTop8BitsMasked.toNat < 2 ^ 24 := by
  unfold hashWithTop8BitsMasked
  simp only
  split_ifs with hzero
  · decide
  · rw [UInt32.toNat_and]
    exact lt_of_le_of_lt Nat.and_le_right (by decide)

/-! ## Runs of characters -/

section

variable {T : Type} {converter : T → UChar} {hasher : StringHasher}

/-- `addCharactersAssumingAligned` with `data` and `length`, for characters of any type. -/
def addRunAssumingAligned (converter : T → UChar) (hasher : StringHasher) : List T → StringHasher
  | a :: b :: data =>
    (hasher.addCharactersAssumingAligned (converter a) (converter b)).addRunAssumingAligned converter data
  | [a] => hasher.addCharacter (converter a)
  | [] => hasher

/-- `addCharacters` with `data` and `length`. -/
def addRun (converter : T → UChar) (hasher : StringHasher) (data : List T) : StringHasher :=
  match hasher.pendingCharacter, data with
  | some pending, a :: data =>
    ({ hasher with pendingCharacter := none }.addCharactersAssumingAligned pending
      (converter a)).addRunAssumingAligned converter data
  | _, data => hasher.addRunAssumingAligned converter data

variable [DecidableEq T] [OfNat T 0]

/-- `addCharactersAssumingAligned` with only `data`, which points to `memory`; `none` if there is no NUL in it. -/
def addTerminatedAssumingAligned (converter : T → UChar) (hasher : StringHasher) : List T → Option StringHasher
  | a :: b :: memory =>
    if a = 0 then some hasher
    else if b = 0 then some (hasher.addCharacter (converter a))
    else (hasher.addCharactersAssumingAligned (converter a) (converter b)).addTerminatedAssumingAligned converter memory
  | [a] => if a = 0 then some hasher else none
  | [] => none

/-- `addCharacters` with only `data`. -/
def addTerminated (converter : T → UChar) (hasher : StringHasher) (memory : List T) : Option StringHasher :=
  match hasher.pendingCharacter, memory with
  | some _, [] => none
  | some pending, a :: memory =>
    if a ≠ 0 then
      ({ hasher with pendingCharacter := none }.addCharactersAssumingAligned pending
        (converter a)).addTerminatedAssumingAligned converter memory
    else hasher.addTerminatedAssumingAligned converter (a :: memory)
  | none, memory => hasher.addTerminatedAssumingAligned converter memory

omit [DecidableEq T] [OfNat T 0] in
theorem addRunAssumingAligned_eq (data : List T) :
    hasher.addRunAssumingAligned converter data = hasher.addBufferAssumingAligned (data.map converter) := by
  fun_induction addRunAssumingAligned converter hasher data with
  | case1 hasher a b data ih => exact ih
  | case2 => rfl
  | case3 => rfl

omit [DecidableEq T] [OfNat T 0] in
theorem addRun_eq (hasher : StringHasher) (data : List T) :
    hasher.addRun converter data = (data.map converter).foldl addCharacter hasher := by
  obtain ⟨hash, _ | pending⟩ := hasher
  · show addRunAssumingAligned converter _ data = _
    rw [addRunAssumingAligned_eq, addBuffer_eq _ _ rfl]
  · cases data with
    | nil => rfl
    | cons a data =>
      show addRunAssumingAligned converter _ data = _
      rw [addRunAssumingAligned_eq, addBuffer_eq _ _ rfl]
      rfl

theorem addTerminatedAssumingAligned_eq (rest : List T) : ∀ (run : List T) (hasher : StringHasher),
    hasher.pendingCharacter = none → (∀ c ∈ run, c ≠ 0) →
    hasher.addTerminatedAssumingAligned converter (run ++ 0 :: rest) =
      some ((run.map converter).foldl addCharacter hasher)
  | [], hasher, _, _ => by
    cases rest <;> simp [addTerminatedAssumingAligned]
  | [a], hasher, _, hrun => by
    have ha : a ≠ 0 := hrun a (List.mem_singleton_self a)
    simp [addTerminatedAssumingAligned, ha]
  | a :: b :: run, hasher, haligned, hrun => by
    have ha : a ≠ 0 := hrun a List.mem_cons_self
    have hb : b ≠ 0 := hrun b (List.mem_cons_of_mem a List.mem_cons_self)
    have hpair : hasher.addCharactersAssumingAligned (converter a) (converter b) =
        (hasher.addCharacter (converter a)).addCharacter (converter b) := by
      rw [← addCharacters_eq, addCharacters, haligned]
    have hrest := addTerminatedAssumingAligned_eq rest run
      (hasher.addCharactersAssumingAligned (converter a) (converter b)) haligned fun c hc => hrun c (by simp [hc])
    rw [List.cons_append, List.cons_append, addTerminatedAssumingAligned, if_neg ha, if_neg hb, hrest, hpair]
    rfl

theorem addTerminated_eq (hasher : StringHasher) {run : List T} (hrun : ∀ c ∈ run, c ≠ 0) (rest : List T) :
    hasher.addTerminated converter (run ++ 0 :: rest) = some ((run.map converter).foldl addCharacter hasher) := by
  obtain ⟨hash, _ | pending⟩ := hasher
  · show addTerminatedAssumingAligned converter _ (run ++ 0 :: rest) = _
    rw [addTerminatedAssumingAligned_eq rest run _ rfl hrun]
  · cases run with
    | nil =>
      show (if (0 : T) ≠ 0 then _ else addTerminatedAssumingAligned converter _ (0 :: rest)) = _
      rw [if_neg (not_not.2 rfl)]
      cases rest <;> simp [addTerminatedAssumingAligned]
    | cons a run =>
      have ha : a ≠ 0 := hrun a List.mem_cons_self
      show (if a ≠ 0 then addTerminatedAssumingAligned converter _ (run ++ 0 :: rest) else _) = _
      rw [if_pos ha, addTerminatedAssumingAligned_eq rest run _ rfl fun c hc => hrun c (List.mem_cons_of_mem a hc)]
      rfl

end

/-! ## Any calls -/

/-- Characters that are none of them NUL, and what lies behind the NUL after them. -/
structure TerminatedRun (T : Type) [OfNat T 0] where
  characters : List T
  nonzero : ∀ c ∈ characters, c ≠ 0
  rest : List T

def TerminatedRun.memory {T : Type} [OfNat T 0] (run : TerminatedRun T) : List T := run.characters ++ 0 :: run.rest

/-- A call that gives characters to a hasher. -/
inductive Feeding
  | addCharacter (character : UChar)
  | addCharacters (a b : UChar)
  | addRun (data : List UChar)
  | addRun8 (data : List UInt8)
  | addTerminated (data : TerminatedRun UChar)
  | addTerminated8 (data : TerminatedRun UInt8)

/-- The characters of a call, as 16-bit data. -/
def Feeding.characters : Feeding → List UChar
  | .addCharacter character => [character]
  | .addCharacters a b => [a, b]
  | .addRun data => data
  | .addRun8 data => data.map (·.toUInt16)
  | .addTerminated data => data.characters
  | .addTerminated8 data => data.characters.map (·.toUInt16)

def Feeding.apply (hasher : StringHasher) : Feeding → Option StringHasher
  | .addCharacter character => some (hasher.addCharacter character)
  | .addCharacters a b => some (hasher.addCharacters a b)
  | .addRun data => some (hasher.addRun id data)
  | .addRun8 data => some (hasher.addRun (·.toUInt16) data)
  | .addTerminated data => hasher.addTerminated id data.memory
  | .addTerminated8 data => hasher.addTerminated (·.toUInt16) data.memory

def feed (hasher : StringHasher) : List Feeding → Option StringHasher
  | [] => some hasher
  | feeding :: feedings => (feeding.apply hasher).bind (feed · feedings)

theorem apply_eq (hasher : StringHasher) (feeding : Feeding) :
    feeding.apply hasher = some (feeding.characters.foldl addCharacter hasher) := by
  cases feeding with
  | addCharacter character => rfl
  | addCharacters a b => exact congrArg some (addCharacters_eq hasher a b)
  | addRun data =>
    show some (hasher.addRun id data) = _
    rw [addRun_eq, List.map_id]
    rfl
  | addRun8 data => exact congrArg some (addRun_eq hasher data)
  | addTerminated data =>
    show hasher.addTerminated id data.memory = _
    rw [TerminatedRun.memory, addTerminated_eq hasher data.nonzero, List.map_id]
    rfl
  | addTerminated8 data => exact addTerminated_eq hasher data.nonzero data.rest

theorem feed_spec (feedings : List Feeding) (hasher : StringHasher) :
    feed hasher feedings = some ((feedings.flatMap Feeding.characters).foldl addCharacter hasher) := by
  induction feedings generalizing hasher with
  | nil => rfl
  | cons feeding feedings ih =>
    rw [feed, apply_eq, Option.bind_some, ih, List.flatMap_cons, List.foldl_append]

/-- **A hash depends only on the characters**, however they were given; it is not 0, and the masked one has 24 bits. -/
theorem hash_of_characters (feedings : List Feeding) :
    ∃ hasher, feed {} feedings = some hasher ∧
      hasher.finalHash = computeHash (feedings.flatMap Feeding.characters) ∧
      hasher.hashWithTop8BitsMasked = computeHashAndMaskTop8Bits (feedings.flatMap Feeding.characters) ∧
      hasher.finalHash ≠ 0 ∧ hasher.hashWithTop8BitsMasked ≠ 0 ∧ hasher.hashWithTop8BitsMasked.toNat < 2 ^ 24 := by
  refine ⟨_, feed_spec feedings {}, ?_, (computeHashAndMaskTop8Bits_eq _).symm, finalHash_ne_zero _,
    hashWithTop8BitsMasked_ne_zero _, hashWithTop8BitsMasked_lt _⟩
  rw [computeHash, addBuffer_eq _ _ rfl]

end StringHasher

end WebKit.WTF
