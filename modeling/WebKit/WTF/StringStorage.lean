import WebKit.Lib.Bytes
import WebKit.Lib.Outcome
import WebKit.WTF.WTFString

/-!
# The storage of strings

A `StringImpl` that owns its characters is a block of memory with characters of one width, which are unset until
something is written to them (`Block`). A string refers to some of the characters of a block (`SharedString`), so that
strings share them. Block 0 is the empty string that all empty strings share.

Reading (`readCharacters`) and writing (`writeCharacters`) fail when the characters are of the other width, are not there
or are not set (`Fault`). `readCharacters_spec` and `writeCharacters_spec` say what they do else, and `createUninitialized_spec`
and `reallocate_spec` what a new block holds.
-/

namespace WebKit.WTF

open WebKit.Lib

/-- How a step over strings stops: by `CRASH()`, or by a wrong access to memory. -/
inductive Fault
  | crash
  | wrongWidth
  | outOfBounds
  | uninitialised
  deriving DecidableEq, Repr

structure Block where
  is8Bit : Bool
  characters : List (Option UChar)
  deriving DecidableEq, Repr

namespace Block

def length (block : Block) : Nat := block.characters.length

end Block

abbrev Blocks := List Block

/-- The start of some characters. -/
structure Pointer where
  block : Nat
  offset : Nat
  deriving DecidableEq, Repr

/-- A string that is not null. -/
structure SharedString where
  block : Nat
  offset : Nat
  length : Nat
  deriving DecidableEq, Repr

/-- `static_cast<LChar>` in an 8-bit block. -/
def narrow (is8Bit : Bool) (c : UChar) : UChar := if is8Bit then c &&& 0xff else c

/-- The block with the number `id`. -/
def findBlock (blocks : Blocks) (id : Nat) : Except Fault Block := (blocks[id]?).elim (.error .outOfBounds) .ok

/-- `length` characters from `source` on, which may be null if there are none to read. -/
def readCharacters (blocks : Blocks) (source : Option Pointer) (is8Bit : Bool) (length : Nat) : Except Fault (List UChar) :=
  if length = 0 then .ok [] else
    match source with
    | none => .error .outOfBounds
    | some p => do
      let block ← findBlock blocks p.block
      if block.is8Bit ≠ is8Bit then .error .wrongWidth
      else if block.length < p.offset + length then .error .outOfBounds
      else (((block.characters.drop p.offset).take length).mapM id).elim (.error .uninitialised) .ok

/-- `characters` written from `destination` on. -/
def writeCharacters (blocks : Blocks) (destination : Pointer) (is8Bit : Bool) (characters : List UChar) :
    Except Fault Blocks :=
  if characters = [] then .ok blocks else do
    let block ← findBlock blocks destination.block
    if block.is8Bit ≠ is8Bit then .error .wrongWidth
    else if block.length < destination.offset + characters.length then .error .outOfBounds
    else .ok (blocks.set destination.block ⟨block.is8Bit, overwrite block.characters destination.offset
      (characters.map fun c => some (narrow is8Bit c))⟩)

/-- `sizeof(StringImpl)`: three words of 32 bits and a pointer. -/
def sizeofStringImpl : Nat := 24

def sizeofCharacter (is8Bit : Bool) : Nat := if is8Bit then 1 else 2

/-- The longest block there can be. -/
def maxLength (is8Bit : Bool) : Nat := (2 ^ 32 - 1 - sizeofStringImpl) / sizeofCharacter is8Bit

/-- `StringImpl::createUninitialized`, with the number of the new block. -/
def createUninitialized (blocks : Blocks) (is8Bit : Bool) (length : Nat) : Except Fault (Nat × Blocks) :=
  if length = 0 then .ok (0, blocks)
  else if maxLength is8Bit < length then .error .crash
  else .ok (blocks.length, blocks ++ [⟨is8Bit, List.replicate length none⟩])

/-- `StringImpl::reallocate`, of a block that nothing else refers to. -/
def reallocate (blocks : Blocks) (id : Nat) (is8Bit : Bool) (length : Nat) : Except Fault (Nat × Blocks) := do
  let block ← findBlock blocks id
  if block.is8Bit ≠ is8Bit then .error .wrongWidth
  else if length = 0 then .ok (0, blocks)
  else if maxLength is8Bit < length then .error .crash
  else .ok (id, blocks.set id ⟨is8Bit, (block.characters ++ List.replicate (length - block.length) none).take length⟩)

namespace SharedString

/-- `StringImpl::empty`. -/
def empty : SharedString := ⟨0, 0, 0⟩

/-- The string that a whole block is. -/
def ofBlock (blocks : Blocks) (id : Nat) : Except Fault SharedString := do
  let block ← findBlock blocks id
  return ⟨id, 0, block.length⟩

def is8Bit (s : SharedString) (blocks : Blocks) : Except Fault Bool := do
  let block ← findBlock blocks s.block
  return block.is8Bit

/-- `characters8` and `characters16`. -/
def pointer (s : SharedString) : Pointer := ⟨s.block, s.offset⟩

/-- `StringImpl::createSubstringSharingImpl`. -/
def createSubstringSharing (s : SharedString) (offset length : Nat) : SharedString :=
  if length = 0 then empty else ⟨s.block, s.offset + offset, length⟩

end SharedString

/-- `StringImpl::create`, of characters that are copied. -/
def createString (blocks : Blocks) (is8Bit : Bool) (characters : List UChar) : Except Fault (SharedString × Blocks) := do
  let (id, blocks) ← createUninitialized blocks is8Bit characters.length
  let blocks ← writeCharacters blocks ⟨id, 0⟩ is8Bit characters
  return (⟨id, 0, characters.length⟩, blocks)

/-! ## What a string holds -/

/-- Characters that an 8-bit block can hold. -/
def Narrow (is8Bit : Bool) (content : List UChar) : Prop := is8Bit = true → ∀ c ∈ content, c &&& 0xff = c

/-- The characters of `s` are `content`. -/
def Has (blocks : Blocks) (s : SharedString) (content : List UChar) : Prop :=
  s.length = content.length ∧ content.length < 2 ^ 32 ∧ ∃ block, blocks[s.block]? = some block ∧
    (block.characters.drop s.offset).take s.length = content.map some ∧ Narrow block.is8Bit content

variable {blocks blocks' : Blocks} {content : List UChar} {is8Bit : Bool}

theorem findBlock_eq {id : Nat} {b : Block} (h : blocks[id]? = some b) : findBlock blocks id = .ok b := by
  rw [findBlock, h]
  rfl

theorem Narrow.append {cs : List UChar} (h : Narrow is8Bit content) (hcs : Narrow is8Bit cs) :
    Narrow is8Bit (content ++ cs) := by
  intro h8 c hc
  rcases List.mem_append.1 hc with hc | hc
  · exact h h8 c hc
  · exact hcs h8 c hc

theorem narrow_false : Narrow false content := fun h => nomatch h

theorem Narrow.of_true (h : Narrow true content) : Narrow is8Bit content := fun _ => h rfl

/-- What an 8-bit block holds is read from it wherever it is written. -/
theorem narrow_of_high {c : UChar} (h : c &&& 0xff00 = 0) : c &&& 0xff = c := by
  have hsplit : (c &&& 0xff00) ||| (c &&& 0xff) = c := by
    apply UInt16.toBitVec_inj.1
    rw [UInt16.toBitVec_or, UInt16.toBitVec_and, UInt16.toBitVec_and, ← BitVec.and_or_distrib_left]
    exact BitVec.and_allOnes
  rwa [h, UInt16.zero_or] at hsplit

theorem narrow_map (h : Narrow is8Bit content) : (content.map fun c => some (narrow is8Bit c)) = content.map some := by
  apply List.map_congr_left
  intro c hc
  rw [narrow]
  cases is8Bit with
  | false => rfl
  | true => rw [if_pos rfl, h rfl c hc]

theorem mapM_some (content : List UChar) : content.mapM some = some content := by
  induction content with
  | nil => rfl
  | cons c content ih => simp [ih]

theorem set_same {id : Nat} {b : Block} (h : blocks[id]? = some b) : blocks.set id b = blocks := by
  obtain ⟨hlt, rfl⟩ := List.getElem?_eq_some_iff.1 h
  exact List.set_getElem_self hlt

/-- **Characters that are there are read.** -/
theorem readCharacters_spec (p : Pointer) (content : List UChar) {b : Block} (hb : blocks[p.block]? = some b)
    (hcontent : (b.characters.drop p.offset).take content.length = content.map some) :
    readCharacters blocks (some p) b.is8Bit content.length = .ok content := by
  rw [readCharacters]
  split_ifs with h
  · rw [List.eq_nil_of_length_eq_zero h]
  · have hlen := congrArg List.length hcontent
    rw [List.length_take, List.length_drop, List.length_map] at hlen
    have hle : ¬ b.length < p.offset + content.length := by
      rw [Block.length]
      omega
    simp [findBlock_eq hb, bind, Except.bind, hle, hcontent, mapM_some]

theorem Has.read {s : SharedString} {b : Block} (hs : Has blocks s content) (hb : blocks[s.block]? = some b)
    (offset length : Nat) (hle : offset + length ≤ s.length) :
    readCharacters blocks (some ⟨s.block, s.offset + offset⟩) b.is8Bit length =
      .ok ((content.drop offset).take length) := by
  obtain ⟨hlength, -, block, hblock, hcharacters, -⟩ := hs
  obtain rfl := Option.some.inj (hb.symm.trans hblock)
  have hpart : ((content.drop offset).take length).length = length := by
    rw [List.length_take, List.length_drop]
    omega
  have hread := readCharacters_spec ⟨s.block, s.offset + offset⟩ ((content.drop offset).take length) hb
  rw [hpart] at hread
  apply hread
  rw [← List.drop_drop, List.map_take, List.map_drop, ← hcharacters, List.drop_take, List.take_take]
  congr 1
  omega

theorem has_empty (hempty : blocks[0]? = some ⟨true, []⟩) : Has blocks .empty [] :=
  ⟨rfl, by decide, ⟨true, []⟩, hempty, rfl, fun _ _ hc => by cases hc⟩

theorem Has.share {s : SharedString} (hempty : blocks[0]? = some ⟨true, []⟩) (hs : Has blocks s content)
    (offset length : Nat) (hle : offset + length ≤ s.length) :
    Has blocks (s.createSubstringSharing offset length) ((content.drop offset).take length) := by
  rw [SharedString.createSubstringSharing]
  split_ifs with hnil
  · rw [hnil, List.take_zero]
    exact has_empty hempty
  · obtain ⟨hlength, hbound, block, hblock, hcharacters, hnarrow⟩ := hs
    have hpart : ((content.drop offset).take length).length = length := by
      rw [List.length_take, List.length_drop]
      omega
    refine ⟨hpart.symm, ?_, block, hblock, ?_, ?_⟩
    · omega
    · change (block.characters.drop (s.offset + offset)).take length = _
      rw [← List.drop_drop, List.map_take, List.map_drop, ← hcharacters, List.drop_take, List.take_take]
      congr 1
      omega
    · exact fun h8 c hc => hnarrow h8 c (List.mem_of_mem_drop (List.mem_of_mem_take hc))

/-- **Characters that fit are written**, and the rest of the block stays. -/
theorem writeCharacters_spec (p : Pointer) (front middle rest : List (Option UChar)) (hfront : front.length = p.offset)
    (hb : blocks[p.block]? = some ⟨is8Bit, front ++ (middle ++ rest)⟩) (hlen : middle.length = content.length)
    (hnarrow : Narrow is8Bit content) :
    writeCharacters blocks p is8Bit content =
      .ok (blocks.set p.block ⟨is8Bit, front ++ (content.map some ++ rest)⟩) := by
  have hdata : middle.length = (content.map some).length := by rw [hlen, List.length_map]
  have hover := overwrite_middle front hdata rest
  rw [writeCharacters]
  split_ifs with h
  · subst h
    obtain rfl := List.eq_nil_of_length_eq_zero hlen
    rw [List.map_nil, set_same hb]
  · have hle : ¬ Block.length ⟨is8Bit, front ++ (middle ++ rest)⟩ < front.length + content.length := by
      simp only [Block.length, List.length_append]
      omega
    rw [narrow_map hnarrow, ← hfront, findBlock_eq hb]
    simp only [bind, Except.bind, hover]
    rw [if_neg (not_not.2 rfl), if_neg hle]

theorem readCharacters_append {p : Option Pointer} {length : Nat} (h : readCharacters blocks p is8Bit length = .ok content)
    (more : Blocks) : readCharacters (blocks ++ more) p is8Bit length = .ok content := by
  rw [readCharacters.eq_def] at h ⊢
  split_ifs at h ⊢
  · exact h
  · cases p with
    | none => cases h
    | some p =>
      cases hb : blocks[p.block]? with
      | none => simp [findBlock, hb, bind, Except.bind] at h
      | some block =>
        have hmore : (blocks ++ more)[p.block]? = some block := by
          rw [List.getElem?_append_left (List.getElem?_eq_some_iff.1 hb).1, hb]
        simpa [findBlock_eq hb, findBlock_eq hmore] using h

theorem readCharacters_zero (p : Option Pointer) : readCharacters blocks p is8Bit 0 = .ok [] := by
  rw [readCharacters.eq_def, if_pos rfl]

theorem maxLength_lt (is8Bit : Bool) : maxLength is8Bit < 2 ^ 32 := by
  cases is8Bit <;> decide

/-- **A new block**, behind the others. -/
theorem createUninitialized_spec {length : Nat} (h : 0 < length) :
    Ends (· = .crash)
      (fun r => r = (blocks.length, blocks ++ [⟨is8Bit, List.replicate length none⟩]) ∧ length < 2 ^ 32)
      (createUninitialized blocks is8Bit length) := by
  rw [createUninitialized, if_neg (Nat.ne_of_gt h)]
  split_ifs with hmax
  · exact rfl
  · exact ⟨rfl, Nat.lt_of_le_of_lt (Nat.not_lt.1 hmax) (maxLength_lt is8Bit)⟩

/-- **A block that is made longer or shorter** keeps the characters that there is room for. -/
theorem reallocate_spec {id length : Nat} {rest : List (Option UChar)}
    (hb : blocks[id]? = some ⟨is8Bit, content.map some ++ rest⟩) (h : 0 < length) (hle : content.length ≤ length) :
    Ends (· = .crash)
      (fun r => ∃ rest', r = (id, blocks.set id ⟨is8Bit, content.map some ++ rest'⟩) ∧
        content.length + rest'.length = length ∧ length < 2 ^ 32)
      (reallocate blocks id is8Bit length) := by
  simp only [reallocate, findBlock_eq hb, bind, Except.bind]
  rw [if_neg (not_not.2 rfl), if_neg (Nat.ne_of_gt h)]
  split_ifs with hmax
  · exact rfl
  · refine ⟨(rest ++ List.replicate (length - (content.length + rest.length)) none).take (length - content.length), ?_, ?_,
      Nat.lt_of_le_of_lt (Nat.not_lt.1 hmax) (maxLength_lt is8Bit)⟩
    · rw [Block.length, List.append_assoc, List.take_append, List.take_of_length_le (by simpa using hle), List.length_append,
        List.length_map]
    · rw [List.length_take, List.length_append, List.length_replicate]
      omega

theorem createString_spec (hempty : blocks[0]? = some ⟨true, []⟩) (hnarrow : Narrow is8Bit content)
    (hbound : content.length < 2 ^ 32) :
    Ends (· = .crash)
      (fun r => Has r.2 r.1 content ∧ blocks.length ≤ r.2.length ∧ (∀ id, id < blocks.length → r.2[id]? = blocks[id]?) ∧
        (r.1.block = 0 ∨ blocks.length ≤ r.1.block))
      (createString blocks is8Bit content) := by
  by_cases hnil : content = []
  · subst hnil
    have hhas : Has blocks ⟨0, 0, 0⟩ [] := ⟨rfl, by decide, ⟨true, []⟩, hempty, rfl, fun _ c hc => absurd hc (by simp)⟩
    simpa [createString, createUninitialized, writeCharacters, bind, Except.bind, pure, Except.pure] using hhas
  · refine ends_bind (createUninitialized_spec (List.length_pos_iff.2 hnil)) ?_
    rintro _ ⟨rfl, -⟩
    have hnew : (blocks ++ [(⟨is8Bit, List.replicate content.length none⟩ : Block)])[blocks.length]? =
        some ⟨is8Bit, [] ++ (List.replicate content.length none ++ [])⟩ := by simp
    have hwrite := writeCharacters_spec ⟨blocks.length, 0⟩ [] (List.replicate content.length none) [] rfl hnew (by simp)
      hnarrow
    simp only [hwrite, bind, Except.bind, pure, Except.pure, ends_ok]
    refine ⟨⟨rfl, hbound, ⟨is8Bit, content.map some⟩, by simp, by simp, hnarrow⟩, by simp, ?_, .inr (Nat.le_refl _)⟩
    intro id hid
    rw [List.getElem?_set_ne (Nat.ne_of_gt hid), List.getElem?_append_left hid]

end WebKit.WTF
