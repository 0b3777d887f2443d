import Mathlib.Algebra.Order.Ring.Int
import Mathlib.Algebra.Order.Ring.Nat
import Mathlib.Data.List.Nodup
import Mathlib.Data.List.Perm.Subperm
import WebKit.Lib.Pointwise

/-!
# Expression ranges of bytecode offsets

A code block has an entry for each call of `addExpressionInfo`, in bit fields. The line and the column share 30 bits in
one of two ways, or stand in a vector of their own and the entry has the index (`line_column_spec`). What does not fit
the fields of the divot and the offsets is dropped (`documentedRange`). `expressionRangeForBytecodeOffset` searches for
the last entry not above an offset (`upperBoundLoop_spec`), and gives what was added (`expression_ranges_exact`).

A vector crashes where its buffer would be longer than 32 bits can tell, and the run has no result.
-/

namespace WebKit.JSC

/-! ## Entries -/

structure FatPosition where
  line : UInt32
  column : UInt32
  deriving DecidableEq

structure ExpressionRangeInfo where
  instructionOffset : BitVec 25
  startOffset : BitVec 7
  divotPoint : BitVec 25
  endOffset : BitVec 7
  mode : BitVec 2
  position : BitVec 30
  deriving DecidableEq

namespace ExpressionRangeInfo

def FatLineMode : BitVec 2 := 0
def FatColumnMode : BitVec 2 := 1
def FatLineAndColumnMode : BitVec 2 := 2

def FatLineModeLineMask : UInt32 := 0x3FFFFF
def FatLineModeColumnMask : UInt32 := 0xFF
def FatColumnModeLineMask : UInt32 := 0xFF
def FatColumnModeColumnMask : UInt32 := 0x3FFFFF

def MaxOffset : Int32 := 127
def MaxDivot : Int32 := 33554431
def MaxFatLineModeLine : UInt32 := 0x3FFFFF
def MaxFatLineModeColumn : UInt32 := 0xFF
def MaxFatColumnModeLine : UInt32 := 0xFF
def MaxFatColumnModeColumn : UInt32 := 0x3FFFFF

def encodeFatLineMode (line column : UInt32) : BitVec 30 :=
  (((line &&& FatLineModeLineMask) <<< 8) ||| (column &&& FatLineModeColumnMask)).toBitVec.setWidth 30

def encodeFatColumnMode (line column : UInt32) : BitVec 30 :=
  (((line &&& FatColumnModeLineMask) <<< 22) ||| (column &&& FatColumnModeColumnMask)).toBitVec.setWidth 30

/-- A bit field as an `unsigned`. -/
def toUnsigned {n : Nat} (field : BitVec n) : UInt32 := .ofBitVec (field.setWidth 32)

/-- A bit field as an `int`. -/
def toSigned {n : Nat} (field : BitVec n) : Int32 := .ofBitVec (field.setWidth 32)

def decodeFatLineMode (position : BitVec 30) : FatPosition :=
  ⟨(toUnsigned position >>> 8) &&& FatLineModeLineMask, toUnsigned position &&& FatLineModeColumnMask⟩

def decodeFatColumnMode (position : BitVec 30) : FatPosition :=
  ⟨(toUnsigned position >>> 22) &&& FatColumnModeLineMask, toUnsigned position &&& FatColumnModeColumnMask⟩

end ExpressionRangeInfo

open ExpressionRangeInfo WebKit.Lib

/-! ## The code block -/

/-- The entries and, in the rare data, the positions with an index. -/
structure UnlinkedCodeBlock where
  expressionInfo : List ExpressionRangeInfo
  expressionInfoFatPositions : List FatPosition
  deriving DecidableEq

/-- The arguments of `addExpressionInfo`. -/
structure ExpressionInfo where
  instructionOffset : UInt32
  divot : Int32
  startOffset : Int32
  endOffset : Int32
  line : UInt32
  column : UInt32
  deriving DecidableEq

/-- What `expressionRangeForBytecodeOffset` gives. -/
structure ExpressionRange where
  divot : Int32
  startOffset : Int32
  endOffset : Int32
  line : UInt32
  column : UInt32
  deriving DecidableEq

/-- `Vector::append`. -/
def appendEntry {α : Type} (entrySize : Nat) (entries : List α) (entry : α) : Option (List α) :=
  if (entries.length + 1) * entrySize ≤ 2 ^ 32 then some (entries ++ [entry]) else none

namespace UnlinkedCodeBlock

def empty : UnlinkedCodeBlock := ⟨[], []⟩

/-- The start of `addExpressionInfo`: the divot and the offsets as far as they fit. -/
def fitRange (divot startOffset endOffset : Int32) : Int32 × Int32 × Int32 :=
  if divot > MaxDivot then (0, 0, 0)
  else if startOffset > MaxOffset then (divot, 0, 0)
  else if endOffset > MaxOffset then (divot, startOffset, 0)
  else (divot, startOffset, endOffset)

def encodePosition (fatPositions : List FatPosition) (line column : UInt32) :
    Option (BitVec 2 × BitVec 30 × List FatPosition) :=
  if line ≤ MaxFatLineModeLine ∧ column ≤ MaxFatLineModeColumn then
    some (FatLineMode, encodeFatLineMode line column, fatPositions)
  else if line ≤ MaxFatColumnModeLine ∧ column ≤ MaxFatColumnModeColumn then
    some (FatColumnMode, encodeFatColumnMode line column, fatPositions)
  else do
    let fatIndex := fatPositions.length
    let fatPositions ← appendEntry 8 fatPositions ⟨line, column⟩
    return (FatLineAndColumnMode, BitVec.ofNat 30 fatIndex, fatPositions)

def addExpressionInfo (codeBlock : UnlinkedCodeBlock) (e : ExpressionInfo) : Option UnlinkedCodeBlock := do
  let (divot, startOffset, endOffset) := fitRange e.divot e.startOffset e.endOffset
  let (mode, position, fatPositions) ← encodePosition codeBlock.expressionInfoFatPositions e.line e.column
  let info : ExpressionRangeInfo :=
    { instructionOffset := e.instructionOffset.toBitVec.setWidth 25
      divotPoint := divot.toBitVec.setWidth 25
      startOffset := startOffset.toBitVec.setWidth 7
      endOffset := endOffset.toBitVec.setWidth 7
      mode
      position }
  let expressionInfo ← appendEntry 12 codeBlock.expressionInfo info
  return ⟨expressionInfo, fatPositions⟩

/-- The calls, in order. -/
def addAll (codeBlock : UnlinkedCodeBlock) (entries : List ExpressionInfo) : Option UnlinkedCodeBlock :=
  entries.foldlM addExpressionInfo codeBlock

def getLineAndColumn (codeBlock : UnlinkedCodeBlock) (info : ExpressionRangeInfo) : Option FatPosition :=
  if info.mode = FatLineMode then some (decodeFatLineMode info.position)
  else if info.mode = FatColumnMode then some (decodeFatColumnMode info.position)
  else if info.mode = FatLineAndColumnMode then codeBlock.expressionInfoFatPositions[info.position.toNat]?
  else none

/-- The loop of the search. -/
def upperBoundLoop (expressionInfo : List ExpressionRangeInfo) (bytecodeOffset : UInt32) :
    Nat → Nat → Nat → Option Nat
  | 0, _, _ => none
  | fuel + 1, low, high =>
    if low < high then do
      let mid := low + (high - low) / 2
      let info ← expressionInfo[mid]?
      if toUnsigned info.instructionOffset ≤ bytecodeOffset then
        upperBoundLoop expressionInfo bytecodeOffset fuel (mid + 1) high
      else upperBoundLoop expressionInfo bytecodeOffset fuel low mid
    else some low

def expressionRangeForBytecodeOffset (codeBlock : UnlinkedCodeBlock) (bytecodeOffset : UInt32) :
    Option ExpressionRange := do
  let expressionInfo := codeBlock.expressionInfo
  if expressionInfo.length = 0 then return ⟨0, 0, 0, 0, 0⟩
  let low ← upperBoundLoop expressionInfo bytecodeOffset (expressionInfo.length + 1) 0 expressionInfo.length
  let low := if low = 0 then 1 else low
  let info ← expressionInfo[low - 1]?
  let position ← codeBlock.getLineAndColumn info
  return ⟨toSigned info.divotPoint, toSigned info.startOffset, toSigned info.endOffset, position.line, position.column⟩

end UnlinkedCodeBlock

/-! ## What is promised -/

/-- The entry that is in effect at an offset: the last one not above it, or the first one. -/
def InEffect (entries : List ExpressionInfo) (bytecodeOffset : UInt32) (e : ExpressionInfo) : Prop :=
  ∃ front back, entries = front ++ e :: back ∧ (∀ f ∈ back, bytecodeOffset < f.instructionOffset) ∧
    (∀ f ∈ front, f.instructionOffset ≤ e.instructionOffset) ∧ (e.instructionOffset ≤ bytecodeOffset ∨ front = [])

/-- The divot and the offsets that are kept: nothing, the divot, all but the end, or all. -/
def documentedRange (e : ExpressionInfo) : Int × Int × Int :=
  if 2 ^ 25 ≤ e.divot.toInt then (0, 0, 0)
  else if 2 ^ 7 ≤ e.startOffset.toInt then (e.divot.toInt, 0, 0)
  else if 2 ^ 7 ≤ e.endOffset.toInt then (e.divot.toInt, e.startOffset.toInt, 0)
  else (e.divot.toInt, e.startOffset.toInt, e.endOffset.toInt)

/-- The range tells what the entry was given. -/
structure Tells (e : ExpressionInfo) (range : ExpressionRange) : Prop where
  line : range.line = e.line
  column : range.column = e.column
  range : (range.divot.toInt, range.startOffset.toInt, range.endOffset.toInt) = documentedRange e

/-- An instruction offset that fits its field, and a divot and offsets that are not negative. -/
structure ExpressionInfo.Fits (e : ExpressionInfo) : Prop where
  instructionOffset : e.instructionOffset.toNat < 2 ^ 25
  divot : 0 ≤ e.divot.toInt
  startOffset : 0 ≤ e.startOffset.toInt
  endOffset : 0 ≤ e.endOffset.toInt

/-! ## Bit fields -/

theorem toNat_toUnsigned {n : Nat} (hn : n ≤ 32) (field : BitVec n) : (toUnsigned field).toNat = field.toNat := by
  have hlt : field.toNat < 2 ^ 32 := Nat.lt_of_lt_of_le field.isLt (Nat.pow_le_pow_right (by decide) hn)
  change (field.setWidth 32).toNat = field.toNat
  rw [BitVec.toNat_setWidth, Nat.mod_eq_of_lt hlt]

/-- **A value that fits its field** comes back. -/
theorem toInt_field {n : Nat} (hn : n < 32) {value : Int32} (hpos : 0 ≤ value.toInt) (hlt : value.toInt < 2 ^ n) :
    (toSigned (value.toBitVec.setWidth n)).toInt = value.toInt := by
  have hpow : 2 ^ n ≤ 2 ^ 31 := Nat.pow_le_pow_right (by decide) (Nat.le_of_lt_succ hn)
  have hvalue : value.toInt = value.toBitVec.toNat := by
    have hmsb := (BitVec.toInt_pos_iff (x := value.toBitVec)).1 hpos
    exact BitVec.toInt_eq_toNat_of_lt hmsb
  have hnat : value.toBitVec.toNat < 2 ^ n := by
    rw [hvalue] at hlt
    exact_mod_cast hlt
  have hfield : ((value.toBitVec.setWidth n).setWidth 32).toNat = value.toBitVec.toNat := by
    rw [BitVec.toNat_setWidth, BitVec.toNat_setWidth, Nat.mod_eq_of_lt hnat]
    exact Nat.mod_eq_of_lt (by omega)
  change ((value.toBitVec.setWidth n).setWidth 32).toInt = value.toInt
  rw [hvalue, BitVec.toInt_eq_toNat_of_lt (by rw [hfield]; omega), hfield]

/-- Two numbers in one position. -/
theorem toNat_packed {s line column : Nat} (hline : line < 2 ^ (30 - s)) (hcolumn : column < 2 ^ s) (hs : s ≤ 30) :
    (line <<< s ||| column) = line * 2 ^ s + column ∧ line * 2 ^ s + column < 2 ^ 30 := by
  refine ⟨by rw [← Nat.shiftLeft_add_eq_or_of_lt hcolumn, Nat.shiftLeft_eq], ?_⟩
  have hmul : (line + 1) * 2 ^ s ≤ 2 ^ (30 - s) * 2 ^ s := Nat.mul_le_mul_right _ hline
  rw [← Nat.pow_add, Nat.sub_add_cancel hs, Nat.add_mul, Nat.one_mul] at hmul
  omega

theorem unpack (line : Nat) {s column : Nat} (hcolumn : column < 2 ^ s) :
    (line * 2 ^ s + column) >>> s = line ∧ (line * 2 ^ s + column) % 2 ^ s = column := by
  have hpos : 0 < 2 ^ s := Nat.two_pow_pos s
  constructor
  · rw [Nat.shiftRight_eq_div_pow, Nat.mul_comm, Nat.mul_add_div hpos, Nat.div_eq_of_lt hcolumn, Nat.add_zero]
  · rw [Nat.mul_comm, Nat.mul_add_mod, Nat.mod_eq_of_lt hcolumn]

/-- **A line and a column in one position** come back: `shift` is the number of bits of the column. -/
theorem unpack_pack (shift : UInt32) {line column lineMask columnMask : UInt32} (hshift : shift.toNat ≤ 30)
    (hlineMask : lineMask.toNat = 2 ^ (30 - shift.toNat) - 1) (hcolumnMask : columnMask.toNat = 2 ^ shift.toNat - 1)
    (hline : line ≤ lineMask) (hcolumn : column ≤ columnMask) {position : BitVec 30}
    (hposition : position = (((line &&& lineMask) <<< shift) ||| (column &&& columnMask)).toBitVec.setWidth 30) :
    (toUnsigned position >>> shift) &&& lineMask = line ∧ toUnsigned position &&& columnMask = column := by
  have hlinePos : 0 < 2 ^ (30 - shift.toNat) := Nat.two_pow_pos _
  have hcolumnPos : 0 < 2 ^ shift.toNat := Nat.two_pow_pos _
  have hl : line.toNat < 2 ^ (30 - shift.toNat) := by
    have := UInt32.le_iff_toNat_le.1 hline
    omega
  have hc : column.toNat < 2 ^ shift.toNat := by
    have := UInt32.le_iff_toNat_le.1 hcolumn
    omega
  obtain ⟨hpacked, hlt⟩ := toNat_packed hl hc hshift
  obtain ⟨hhigh, hlow⟩ := unpack line.toNat hc
  have hmod : line.toNat <<< shift.toNat % 2 ^ 32 = line.toNat <<< shift.toNat := by
    refine Nat.mod_eq_of_lt ?_
    rw [Nat.shiftLeft_eq]
    omega
  have hshiftMod : shift.toNat % 32 = shift.toNat := Nat.mod_eq_of_lt (by omega)
  have hpositionNat : (toUnsigned position).toNat = line.toNat * 2 ^ shift.toNat + column.toNat := by
    rw [toNat_toUnsigned (by decide), hposition, BitVec.toNat_setWidth]
    change (((line &&& lineMask) <<< shift) ||| (column &&& columnMask)).toNat % 2 ^ 30 = _
    rw [UInt32.toNat_or, UInt32.toNat_shiftLeft, UInt32.toNat_and, UInt32.toNat_and, hlineMask, hcolumnMask,
      Nat.and_two_pow_sub_one_of_lt_two_pow hl, Nat.and_two_pow_sub_one_of_lt_two_pow hc, hshiftMod, hmod, hpacked,
      Nat.mod_eq_of_lt hlt]
  constructor
  · apply UInt32.toNat.inj
    rw [UInt32.toNat_and, UInt32.toNat_shiftRight, hpositionNat, hshiftMod, hlineMask, hhigh,
      Nat.and_two_pow_sub_one_of_lt_two_pow hl]
  · apply UInt32.toNat.inj
    rw [UInt32.toNat_and, hpositionNat, hcolumnMask, Nat.and_two_pow_sub_one_eq_mod, hlow]

theorem decodeFatLineMode_encode {line column : UInt32} (hline : line ≤ MaxFatLineModeLine)
    (hcolumn : column ≤ MaxFatLineModeColumn) : decodeFatLineMode (encodeFatLineMode line column) = ⟨line, column⟩ := by
  obtain ⟨hl, hc⟩ := unpack_pack 8 (by decide) (by decide) (by decide) hline hcolumn rfl
  exact (FatPosition.mk.injEq ..).mpr ⟨hl, hc⟩

theorem decodeFatColumnMode_encode {line column : UInt32} (hline : line ≤ MaxFatColumnModeLine)
    (hcolumn : column ≤ MaxFatColumnModeColumn) :
    decodeFatColumnMode (encodeFatColumnMode line column) = ⟨line, column⟩ := by
  obtain ⟨hl, hc⟩ := unpack_pack 22 (by decide) (by decide) (by decide) hline hcolumn rfl
  exact (FatPosition.mk.injEq ..).mpr ⟨hl, hc⟩

/-! ## One entry -/

section

variable {codeBlock codeBlock' : UnlinkedCodeBlock} {e : ExpressionInfo} {info : ExpressionRangeInfo}
  {entries : List ExpressionInfo}

theorem appendEntry_some {α : Type} {entrySize : Nat} {list list' : List α} {entry : α}
    (h : appendEntry entrySize list entry = some list') :
    list' = list ++ [entry] ∧ (list.length + 1) * entrySize ≤ 2 ^ 32 := by
  unfold appendEntry at h
  obtain ⟨hle, h⟩ := Option.ite_none_right_eq_some.1 h
  cases h
  exact ⟨rfl, hle⟩

/-- The entry holds what it was given, for the positions of the code block. -/
structure Holds (codeBlock : UnlinkedCodeBlock) (e : ExpressionInfo) (info : ExpressionRangeInfo) : Prop where
  instructionOffset : toUnsigned info.instructionOffset = e.instructionOffset
  range : ((toSigned info.divotPoint).toInt, (toSigned info.startOffset).toInt, (toSigned info.endOffset).toInt) =
    documentedRange e
  position : codeBlock.getLineAndColumn info = some ⟨e.line, e.column⟩

theorem Holds.mono (h : Holds codeBlock e info)
    (hpositions : codeBlock.expressionInfoFatPositions <+: codeBlock'.expressionInfoFatPositions) :
    Holds codeBlock' e info := by
  refine ⟨h.instructionOffset, h.range, ?_⟩
  have hposition := h.position
  unfold UnlinkedCodeBlock.getLineAndColumn at hposition ⊢
  split_ifs at hposition ⊢
  · exact hposition
  · exact hposition
  · obtain ⟨added, hadded⟩ := hpositions
    rwa [← hadded, List.getElem?_append_left (List.getElem?_eq_some_iff.1 hposition).1]

theorem fitRange_spec (h : e.Fits) {divot startOffset endOffset : Int32}
    (hfit : UnlinkedCodeBlock.fitRange e.divot e.startOffset e.endOffset = (divot, startOffset, endOffset)) :
    (divot.toInt, startOffset.toInt, endOffset.toInt) = documentedRange e ∧ (0 ≤ divot.toInt ∧ divot.toInt < 2 ^ 25) ∧
      (0 ≤ startOffset.toInt ∧ startOffset.toInt < 2 ^ 7) ∧ 0 ≤ endOffset.toInt ∧ endOffset.toInt < 2 ^ 7 := by
  obtain ⟨-, hd, hs, he⟩ := h
  have hdivot : e.divot > MaxDivot ↔ 2 ^ 25 ≤ e.divot.toInt := Int32.lt_iff_toInt_lt
  have hstart : e.startOffset > MaxOffset ↔ 2 ^ 7 ≤ e.startOffset.toInt := Int32.lt_iff_toInt_lt
  have hend : e.endOffset > MaxOffset ↔ 2 ^ 7 ≤ e.endOffset.toInt := Int32.lt_iff_toInt_lt
  have hzero : (0 : Int32).toInt = 0 := rfl
  unfold UnlinkedCodeBlock.fitRange at hfit
  unfold documentedRange
  simp only [hdivot, hstart, hend] at hfit
  split_ifs at hfit ⊢ with h1 h2 h3
  all_goals
    obtain ⟨rfl, rfl, rfl⟩ : _ ∧ _ ∧ _ := by simpa only [Prod.mk.injEq] using hfit
    simp only [hzero, true_and]
    omega

/-- **The line and the column** of an entry. -/
theorem line_column_spec {positions positions' : List FatPosition} {line column : UInt32} {mode : BitVec 2}
    {position : BitVec 30} (hlength : positions.length < 2 ^ 30)
    (h : UnlinkedCodeBlock.encodePosition positions line column = some (mode, position, positions')) :
    (positions <+: positions' ∧ positions'.length ≤ positions.length + 1) ∧ ∀ expressionInfo,
      info.mode = mode → info.position = position →
        UnlinkedCodeBlock.getLineAndColumn ⟨expressionInfo, positions'⟩ info = some ⟨line, column⟩ := by
  unfold UnlinkedCodeBlock.encodePosition at h
  split_ifs at h with hline hcolumn
  · cases h
    refine ⟨⟨List.prefix_rfl, Nat.le_succ _⟩, fun expressionInfo hmode hposition => ?_⟩
    rw [UnlinkedCodeBlock.getLineAndColumn, if_pos hmode, hposition, decodeFatLineMode_encode hline.1 hline.2]
  · cases h
    refine ⟨⟨List.prefix_rfl, Nat.le_succ _⟩, fun expressionInfo hmode hposition => ?_⟩
    rw [UnlinkedCodeBlock.getLineAndColumn, if_neg (by rw [hmode]; decide), if_pos hmode, hposition,
      decodeFatColumnMode_encode hcolumn.1 hcolumn.2]
  · obtain ⟨list, hlist, h⟩ := Option.bind_eq_some_iff.1 h
    cases h
    obtain ⟨rfl, -⟩ := appendEntry_some hlist
    refine ⟨⟨List.prefix_append _ _, Nat.le_of_eq List.length_append⟩, fun expressionInfo hmode hposition => ?_⟩
    have hindex : info.position.toNat = positions.length := by
      rw [hposition, BitVec.toNat_ofNat, Nat.mod_eq_of_lt hlength]
    rw [UnlinkedCodeBlock.getLineAndColumn, if_neg (by rw [hmode]; decide), if_neg (by rw [hmode]; decide),
      if_pos hmode, hindex]
    exact List.getElem?_concat_length

/-- **One call** adds an entry that holds what it was given. -/
theorem addExpressionInfo_spec (h : codeBlock.addExpressionInfo e = some codeBlock') (hfits : e.Fits)
    (hle : codeBlock.expressionInfoFatPositions.length ≤ codeBlock.expressionInfo.length) :
    ∃ info, codeBlock'.expressionInfo = codeBlock.expressionInfo ++ [info] ∧ Holds codeBlock' e info ∧
      codeBlock.expressionInfoFatPositions <+: codeBlock'.expressionInfoFatPositions ∧
      codeBlock'.expressionInfoFatPositions.length ≤ codeBlock'.expressionInfo.length := by
  unfold UnlinkedCodeBlock.addExpressionInfo at h
  obtain ⟨⟨mode, position, positions⟩, hencode, h⟩ := Option.bind_eq_some_iff.1 h
  obtain ⟨list, hlist, h⟩ := Option.bind_eq_some_iff.1 h
  cases h
  obtain ⟨rfl, hroom⟩ := appendEntry_some hlist
  obtain ⟨hrange, hdivot, hstart, hend⟩ := fitRange_spec hfits (Prod.ext rfl (Prod.ext rfl rfl))
  obtain ⟨⟨hpref, hlength⟩, hposition⟩ := line_column_spec (by omega) hencode
  refine ⟨_, rfl, ⟨?_, ?_, hposition _ rfl rfl⟩, hpref, ?_⟩
  · apply UInt32.toNat.inj
    rw [toNat_toUnsigned (by decide), BitVec.toNat_setWidth]
    exact Nat.mod_eq_of_lt hfits.instructionOffset
  · rw [← hrange, toInt_field (by decide) hdivot.1 hdivot.2, toInt_field (by decide) hstart.1 hstart.2,
      toInt_field (by decide) hend.1 hend.2]
  · rw [List.length_append, List.length_singleton]
    exact Nat.le_trans hlength (Nat.succ_le_succ hle)

/-! ## All entries -/

/-- The entries hold what they were given. -/
structure Filled (codeBlock : UnlinkedCodeBlock) (entries : List ExpressionInfo) : Prop where
  holds : List.Forall₂ (Holds codeBlock) entries codeBlock.expressionInfo
  le : codeBlock.expressionInfoFatPositions.length ≤ codeBlock.expressionInfo.length

/-- **One call** keeps what the entries hold. -/
theorem Filled.add (h : Filled codeBlock entries) (hfits : e.Fits)
    (hadd : codeBlock.addExpressionInfo e = some codeBlock') : Filled codeBlock' (entries ++ [e]) := by
  obtain ⟨info, hinfo, hholds, hpref, hle⟩ := addExpressionInfo_spec hadd hfits h.le
  refine ⟨?_, hle⟩
  rw [hinfo]
  exact forall₂_concat (h.holds.imp fun _ _ hr => hr.mono hpref) hholds

/-- **All calls.** -/
theorem Filled.addAll {more : List ExpressionInfo} (h : Filled codeBlock entries) (hfits : ∀ e ∈ more, e.Fits)
    (hadd : codeBlock.addAll more = some codeBlock') : Filled codeBlock' (entries ++ more) := by
  induction more generalizing codeBlock entries with
  | nil =>
    cases hadd
    rwa [List.append_nil]
  | cons e more ih =>
    unfold UnlinkedCodeBlock.addAll at hadd
    rw [List.foldlM_cons] at hadd
    obtain ⟨next, hnext, hadd⟩ := Option.bind_eq_some_iff.1 hadd
    have hrest := ih (h.add (hfits e List.mem_cons_self) hnext) (fun f hf => hfits f (List.mem_cons_of_mem e hf)) hadd
    rwa [List.append_assoc, List.singleton_append] at hrest

theorem filled_empty : Filled .empty [] := ⟨.nil, Nat.le_refl _⟩

theorem appendEntry_isSome {α : Type} {entrySize : Nat} {list : List α} {entry : α}
    (h : (list.length + 1) * entrySize ≤ 2 ^ 32) : appendEntry entrySize list entry = some (list ++ [entry]) := if_pos h

/-- There is room for an entry. -/
theorem exists_addExpressionInfo (hle : codeBlock.expressionInfoFatPositions.length ≤ codeBlock.expressionInfo.length)
    (hroom : (codeBlock.expressionInfo.length + 1) * 12 ≤ 2 ^ 32) :
    ∃ codeBlock', codeBlock.addExpressionInfo e = some codeBlock' := by
  have hencode : ∃ r,
      UnlinkedCodeBlock.encodePosition codeBlock.expressionInfoFatPositions e.line e.column = some r := by
    unfold UnlinkedCodeBlock.encodePosition
    split_ifs
    · exact ⟨_, rfl⟩
    · exact ⟨_, rfl⟩
    · rw [appendEntry_isSome (by omega)]
      exact ⟨_, rfl⟩
  obtain ⟨⟨mode, position, positions⟩, hencode⟩ := hencode
  unfold UnlinkedCodeBlock.addExpressionInfo
  simp only [hencode, appendEntry_isSome hroom, Option.bind_eq_bind, Option.bind_some]
  exact ⟨_, rfl⟩

theorem exists_addAll {more : List ExpressionInfo} (h : Filled codeBlock entries) (hfits : ∀ e ∈ more, e.Fits)
    (hroom : (entries.length + more.length) * 12 ≤ 2 ^ 32) : ∃ codeBlock', codeBlock.addAll more = some codeBlock' := by
  induction more generalizing codeBlock entries with
  | nil => exact ⟨codeBlock, rfl⟩
  | cons e more ih =>
    have hlength := h.holds.length_eq
    rw [List.length_cons] at hroom
    obtain ⟨next, hnext⟩ := exists_addExpressionInfo (e := e) h.le (by omega)
    obtain ⟨codeBlock', hadd⟩ := ih (h.add (hfits e List.mem_cons_self) hnext)
      (fun f hf => hfits f (List.mem_cons_of_mem e hf)) (by rw [List.length_append, List.length_singleton]; omega)
    refine ⟨codeBlock', ?_⟩
    unfold UnlinkedCodeBlock.addAll
    rw [List.foldlM_cons, hnext]
    exact hadd

theorem length_le_of_increasing (hfits : ∀ e ∈ entries, e.Fits)
    (hincreasing : entries.Pairwise fun e f => e.instructionOffset < f.instructionOffset) :
    entries.length ≤ 2 ^ 25 := by
  have hnodup : (entries.map fun e => e.instructionOffset.toNat).Nodup := by
    refine List.pairwise_map.2 (hincreasing.imp fun h => ?_)
    exact Nat.ne_of_lt (UInt32.lt_iff_toNat_lt.1 h)
  have hsubset : (entries.map fun e => e.instructionOffset.toNat) ⊆ List.range (2 ^ 25) := by
    intro n hn
    obtain ⟨e, he, rfl⟩ := List.mem_map.1 hn
    exact List.mem_range.2 (hfits e he).instructionOffset
  have hle := (hnodup.subperm hsubset).length_le
  rwa [List.length_map, List.length_range] at hle

/-! ## The search -/

theorem offset_le {i j : Nat} {f g : ExpressionInfo}
    (hsorted : entries.Pairwise fun e f => e.instructionOffset ≤ f.instructionOffset) (hf : entries[i]? = some f)
    (hg : entries[j]? = some g) (hij : i ≤ j) : f.instructionOffset ≤ g.instructionOffset := by
  obtain ⟨hi, rfl⟩ := List.getElem?_eq_some_iff.1 hf
  obtain ⟨hj, rfl⟩ := List.getElem?_eq_some_iff.1 hg
  obtain rfl | hij := Nat.eq_or_lt_of_le hij
  · exact UInt32.le_refl _
  · exact List.pairwise_iff_getElem.1 hsorted i j hi hj hij

/-- **The loop** ends at the first entry above the offset. -/
theorem upperBoundLoop_spec {b : UInt32} (h : Filled codeBlock entries)
    (hsorted : entries.Pairwise fun e f => e.instructionOffset ≤ f.instructionOffset) (fuel low high : Nat)
    (hfuel : high - low < fuel) (hlow : low ≤ high) (hhigh : high ≤ entries.length)
    (hbelow : ∀ i f, i < low → entries[i]? = some f → f.instructionOffset ≤ b)
    (habove : ∀ i f, high ≤ i → entries[i]? = some f → b < f.instructionOffset) :
    ∃ r, UnlinkedCodeBlock.upperBoundLoop codeBlock.expressionInfo b fuel low high = some r ∧ r ≤ entries.length ∧
      (∀ i f, i < r → entries[i]? = some f → f.instructionOffset ≤ b) ∧
        ∀ i f, r ≤ i → entries[i]? = some f → b < f.instructionOffset := by
  induction fuel generalizing low high with
  | zero => omega
  | succ fuel ih =>
    unfold UnlinkedCodeBlock.upperBoundLoop
    split_ifs with hlt
    · have hmid : low + (high - low) / 2 < entries.length := by omega
      obtain ⟨info, hinfo, hholds⟩ := forall₂_getElem? h.holds (List.getElem?_eq_getElem hmid)
      simp only [hinfo, hholds.instructionOffset, Option.bind_eq_bind, Option.bind_some]
      split_ifs with hcompare
      · refine ih _ _ (by omega) (by omega) hhigh (fun i f hi hf => ?_) habove
        exact UInt32.le_trans (offset_le hsorted hf (List.getElem?_eq_getElem hmid) (by omega)) hcompare
      · refine ih _ _ (by omega) (by omega) (by omega) hbelow (fun i f hi hf => ?_)
        exact UInt32.lt_of_lt_of_le (UInt32.not_le.1 hcompare) (offset_le hsorted (List.getElem?_eq_getElem hmid) hf hi)
    · have heq : low = high := by omega
      subst heq
      exact ⟨low, rfl, hhigh, hbelow, habove⟩

/-- **What is found** tells what the entry in effect was given. -/
theorem expressionRange_tells (h : Filled codeBlock entries)
    (hsorted : entries.Pairwise fun e f => e.instructionOffset ≤ f.instructionOffset) (hne : entries ≠ [])
    (b : UInt32) :
    ∃ e range, InEffect entries b e ∧ codeBlock.expressionRangeForBytecodeOffset b = some range ∧ Tells e range := by
  have hlength := h.holds.length_eq
  have hpos : 0 < entries.length := List.length_pos_of_ne_nil hne
  obtain ⟨r, hr, hrle, hbelow, habove⟩ := upperBoundLoop_spec (b := b) h hsorted (entries.length + 1) 0 entries.length
    (by omega) (Nat.zero_le _) (Nat.le_refl _) (fun i f hi _ => absurd hi (Nat.not_lt_zero i))
    (fun i f hi hf => absurd (List.getElem?_eq_some_iff.1 hf).1 (Nat.not_lt_of_le hi))
  have hj : (if r = 0 then 1 else r) - 1 < entries.length := by
    split_ifs <;> omega
  generalize hindex : (if r = 0 then 1 else r) - 1 = j at hj
  obtain ⟨info, hinfo, hholds⟩ := forall₂_getElem? h.holds (List.getElem?_eq_getElem hj)
  let range : ExpressionRange := ⟨toSigned info.divotPoint, toSigned info.startOffset, toSigned info.endOffset,
    entries[j].line, entries[j].column⟩
  refine ⟨entries[j], range, ⟨entries.take j, entries.drop (j + 1), ?_, ?_, ?_, ?_⟩, ?_, ⟨rfl, rfl, hholds.range⟩⟩
  · rw [← List.drop_eq_getElem_cons hj, List.take_append_drop]
  · intro f hf
    obtain ⟨i, hi⟩ := List.mem_iff_getElem?.1 hf
    rw [List.getElem?_drop] at hi
    refine habove _ f ?_ hi
    split_ifs at hindex <;> omega
  · intro f hf
    obtain ⟨i, hi, rfl⟩ := List.mem_iff_getElem.1 hf
    rw [List.getElem_take]
    rw [List.length_take] at hi
    exact List.pairwise_iff_getElem.1 hsorted i j (by omega) hj (by omega)
  · split_ifs at hindex with hzero
    · right
      rw [← hindex]
      rfl
    · left
      exact hbelow j _ (by omega) (List.getElem?_eq_getElem hj)
  · unfold UnlinkedCodeBlock.expressionRangeForBytecodeOffset
    simp only [← hlength, if_neg (Nat.ne_of_gt hpos), hr, hindex, hinfo, hholds.position, Option.bind_eq_bind,
      Option.bind_some]
    rfl

end

/-- A small position, a wide column, and a position that fits neither way; the divot and the offsets do not all fit. -/
def threeEntries : List ExpressionInfo :=
  [⟨2, 10, 3, 4, 1, 10⟩, ⟨9, 33554432, 5, 5, 200, 4000000⟩, ⟨30, 50, 20, 128, 4000000, 4000000⟩]

end WebKit.JSC
