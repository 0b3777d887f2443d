import WebKit.Yarr.YarrCanonicalizeUCS2
import WebKit.Yarr.YarrParser

/-!
# Character classes

The vectors of a `CharacterClass`, the cached classes, and the operations of the `CharacterClassConstructor`. An operation
is `none` where its loop would leave a vector or a table; `putChar_isSome`, `putUnicodeIgnoreCase_isSome` and
`putRange_isSome` show that none of them does.
-/

namespace WebKit.Yarr

open WebKit.WTF

structure CharacterRange where
  first : UChar
  last : UChar
  deriving DecidableEq

/-- The vectors of a class. `m_matches` and `m_ranges` hold characters up to 0x7f. -/
structure CharacterClass where
  matchesASCII : List UChar := []
  rangesASCII : List CharacterRange := []
  matchesUnicode : List UChar := []
  rangesUnicode : List CharacterRange := []
  deriving DecidableEq

/-! ## The cached classes -/

def newlineCreate : CharacterClass where
  matchesASCII := [0x0a, 0x0d]
  matchesUnicode := [0x2028, 0x2029]

def digitsCreate : CharacterClass where
  rangesASCII := [⟨0x30, 0x39⟩]

def spacesCreate : CharacterClass where
  matchesASCII := [0x20]
  rangesASCII := [⟨0x09, 0x0d⟩]
  matchesUnicode := [0x00a0, 0x1680, 0x180e, 0x2028, 0x2029, 0x202f, 0x205f, 0x3000, 0xfeff]
  rangesUnicode := [⟨0x2000, 0x200a⟩]

def wordcharCreate : CharacterClass where
  matchesASCII := [0x5f]
  rangesASCII := [⟨0x30, 0x39⟩, ⟨0x41, 0x5a⟩, ⟨0x61, 0x7a⟩]

def nondigitsCreate : CharacterClass where
  rangesASCII := [⟨0x00, 0x2f⟩, ⟨0x3a, 0x7f⟩]
  rangesUnicode := [⟨0x0080, 0xffff⟩]

def nonspacesCreate : CharacterClass where
  rangesASCII := [⟨0x00, 0x08⟩, ⟨0x0e, 0x1f⟩, ⟨0x21, 0x7f⟩]
  rangesUnicode := [⟨0x0080, 0x009f⟩, ⟨0x00a1, 0x167f⟩, ⟨0x1681, 0x180d⟩, ⟨0x180f, 0x1fff⟩, ⟨0x200b, 0x2027⟩,
    ⟨0x202a, 0x202e⟩, ⟨0x2030, 0x205e⟩, ⟨0x2060, 0x2fff⟩, ⟨0x3001, 0xfefe⟩, ⟨0xff00, 0xffff⟩]

def nonwordcharCreate : CharacterClass where
  matchesASCII := [0x60]
  rangesASCII := [⟨0x00, 0x2f⟩, ⟨0x3a, 0x40⟩, ⟨0x5b, 0x5e⟩, ⟨0x7b, 0x7f⟩]
  rangesUnicode := [⟨0x0080, 0xffff⟩]

/-- The class of a term for `classID`; the term has the flag for the inverted class. -/
def BuiltInCharacterClassID.characterClass : BuiltInCharacterClassID → CharacterClass
  | digitClassID => digitsCreate
  | spaceClassID => spacesCreate
  | wordClassID => wordcharCreate
  | newlineClassID => newlineCreate

/-- The class that is appended to a class under construction; there is none for the newlines. -/
def BuiltInCharacterClassID.appended (invert : Bool) : BuiltInCharacterClassID → Option CharacterClass
  | digitClassID => some (if invert then nondigitsCreate else digitsCreate)
  | spaceClassID => some (if invert then nonspacesCreate else spacesCreate)
  | wordClassID => some (if invert then nonwordcharCreate else wordcharCreate)
  | newlineClassID => none

/-! ## Sorted vectors -/

/-- The loop of `addSorted`, with a bound on its turns, and the insertion behind it. -/
def addSortedFrom (chars : List UChar) (ch : UChar) : Nat → Nat → Nat → Option (List UChar)
  | _, pos, 0 => some (chars.insertIdx pos ch)
  | 0, _, _ + 1 => none
  | turns + 1, pos, range + 1 =>
    match chars[pos + (range + 1) / 2]? with
    | none => none
    | some val =>
      if val = ch then some chars
      else if ch < val then addSortedFrom chars ch turns pos ((range + 1) / 2)
      else addSortedFrom chars ch turns (pos + ((range + 1) / 2 + 1)) (range + 1 - ((range + 1) / 2 + 1))

def addSorted (chars : List UChar) (ch : UChar) : Option (List UChar) :=
  addSortedFrom chars ch chars.length 0 chars.length

/-- The inner loop of `addSortedRange`: `range` takes in the ranges behind it that it touches. -/
def subsume (range : CharacterRange) : List CharacterRange → List CharacterRange
  | [] => [range]
  | next :: rest =>
    if next.first.toNat ≤ range.last.toNat + 1 then subsume ⟨range.first, max range.last next.last⟩ rest
    else range :: next :: rest

def addSortedRange (lo hi : UChar) : List CharacterRange → List CharacterRange
  | [] => [⟨lo, hi⟩]
  | range :: rest =>
    if hi < range.first then
      if hi = range.first - 1 then ⟨lo, range.last⟩ :: rest else ⟨lo, hi⟩ :: range :: rest
    else if lo.toNat ≤ range.last.toNat + 1 then subsume ⟨min range.first lo, max range.last hi⟩ rest
    else range :: addSortedRange lo hi rest

theorem addSortedFrom_isSome {chars : List UChar} {ch : UChar} {turns pos range : Nat} (hturns : range ≤ turns)
    (hrange : pos + range ≤ chars.length) : (addSortedFrom chars ch turns pos range).isSome = true := by
  induction turns generalizing pos range with
  | zero =>
    obtain rfl := Nat.le_zero.mp hturns
    rfl
  | succ turns ih =>
    cases range with
    | zero => rfl
    | succ range =>
      have hlt : pos + (range + 1) / 2 < chars.length := by omega
      rw [addSortedFrom, List.getElem?_eq_getElem hlt]
      simp only
      split
      · rfl
      · split
        · exact ih (by omega) (by omega)
        · exact ih (by omega) (by omega)

theorem addSorted_isSome (chars : List UChar) (ch : UChar) : (addSorted chars ch).isSome = true :=
  addSortedFrom_isSome (Nat.le_refl _) (by omega)

/-! ## Construction -/

namespace CharacterClass

/-- `addSorted` for each of `more`. -/
def addAllSorted : List UChar → List UChar → Option (List UChar)
  | chars, [] => some chars
  | chars, ch :: more => (addSorted chars ch).bind fun chars => addAllSorted chars more

def addMatchesASCII (c : CharacterClass) (more : List UChar) : Option CharacterClass :=
  (addAllSorted c.matchesASCII more).map fun chars => { c with matchesASCII := chars }

def addMatchesUnicode (c : CharacterClass) (more : List UChar) : Option CharacterClass :=
  (addAllSorted c.matchesUnicode more).map fun chars => { c with matchesUnicode := chars }

def addRangeASCII (c : CharacterClass) (lo hi : UChar) : CharacterClass :=
  { c with rangesASCII := addSortedRange lo hi c.rangesASCII }

def addRangeUnicode (c : CharacterClass) (lo hi : UChar) : CharacterClass :=
  { c with rangesUnicode := addSortedRange lo hi c.rangesUnicode }

/-- `append`. -/
def append (c other : CharacterClass) : Option CharacterClass :=
  (c.addMatchesASCII other.matchesASCII).bind fun c =>
    let c := other.rangesASCII.foldl (fun c range => c.addRangeASCII range.first range.last) c
    (c.addMatchesUnicode other.matchesUnicode).map fun c =>
      other.rangesUnicode.foldl (fun c range => c.addRangeUnicode range.first range.last) c

def toASCIIUpper (c : UChar) : UChar := if ascii 'a' ≤ c ∧ c ≤ ascii 'z' then c - 0x20 else c

def toASCIILower (c : UChar) : UChar := if ascii 'A' ≤ c ∧ c ≤ ascii 'Z' then c + 0x20 else c

def putUnicodeIgnoreCase (ch : UChar) (info : UCS2CanonicalizationRange) (c : CharacterClass) :
    Option CharacterClass :=
  if info.type = .canonicalizeSet then
    (characterSetInfo[info.value.toNat]?).bind c.addMatchesUnicode
  else (getCanonicalPair info ch).bind fun pair => c.addMatchesUnicode [ch, pair]

def putChar (isCaseInsensitive : Bool) (ch : UChar) (c : CharacterClass) : Option CharacterClass :=
  if ch ≤ 0x7f then
    if isCaseInsensitive && isASCIIAlpha ch then c.addMatchesASCII [toASCIIUpper ch, toASCIILower ch]
    else c.addMatchesASCII [ch]
  else if isCaseInsensitive then
    match rangeInfoFor ch with
    | some (info :: _) =>
      if info.type = .canonicalizeUnique then c.addMatchesUnicode [ch] else c.putUnicodeIgnoreCase ch info
    | _ => none
  else c.addMatchesUnicode [ch]

/-- The case for `info` in the loop of `putRange`, for the characters from `lo` to `last`. -/
def putEquivalents (info : UCS2CanonicalizationRange) (lo last : UChar) (c : CharacterClass) :
    Option CharacterClass :=
  match info.type with
  | .canonicalizeUnique => some c
  | .canonicalizeSet => (characterSetInfo[info.value.toNat]?).bind c.addMatchesUnicode
  | .canonicalizeRangeLo => some (c.addRangeUnicode (lo + info.value) (last + info.value))
  | .canonicalizeRangeHi => some (c.addRangeUnicode (lo - info.value) (last - info.value))
  | .canonicalizeAlternatingAligned =>
    let c := if lo &&& 1 = 1 then c.addRangeUnicode (lo - 1) (lo - 1) else c
    some (if last &&& 1 = 0 then c.addRangeUnicode (last + 1) (last + 1) else c)
  | .canonicalizeAlternatingUnaligned =>
    let c := if lo &&& 1 = 0 then c.addRangeUnicode (lo - 1) (lo - 1) else c
    some (if last &&& 1 = 1 then c.addRangeUnicode (last + 1) (last + 1) else c)

/-- The loop of `putRange` over the table. -/
def putRangeFrom (hi : UChar) : List UCS2CanonicalizationRange → UChar → CharacterClass → Option CharacterClass
  | [], _, _ => none
  | info :: rest, lo, c =>
    (c.putEquivalents info lo (min info.last hi)).bind fun c =>
      if hi = min info.last hi then some c
      else
        match rest with
        | [] => none
        | next :: _ => putRangeFrom hi rest next.first c

/-- The part of `putRange` for characters up to 0x7f. -/
def putRangeASCII (isCaseInsensitive : Bool) (lo hi : UChar) (c : CharacterClass) : CharacterClass :=
  let asciiHi := min hi 0x7f
  let c := c.addRangeASCII lo asciiHi
  if isCaseInsensitive then
    let c :=
      if lo ≤ ascii 'Z' ∧ ascii 'A' ≤ asciiHi then
        c.addRangeASCII (max lo (ascii 'A') + 0x20) (min asciiHi (ascii 'Z') + 0x20)
      else c
    if lo ≤ ascii 'z' ∧ ascii 'a' ≤ asciiHi then
      c.addRangeASCII (max lo (ascii 'a') - 0x20) (min asciiHi (ascii 'z') - 0x20)
    else c
  else c

def putRange (isCaseInsensitive : Bool) (lo hi : UChar) (c : CharacterClass) : Option CharacterClass :=
  let c := if lo ≤ 0x7f then c.putRangeASCII isCaseInsensitive lo hi else c
  if hi ≤ 0x7f then some c
  else
    let lo := max lo 0x80
    let c := c.addRangeUnicode lo hi
    if isCaseInsensitive then (rangeInfoFor lo).bind fun table => putRangeFrom hi table lo c else some c

/-! ## No operation leaves a vector or the table -/

theorem addAllSorted_isSome (chars more : List UChar) : (addAllSorted chars more).isSome = true := by
  induction more generalizing chars with
  | nil => rfl
  | cons ch more ih =>
    obtain ⟨chars', h⟩ := Option.isSome_iff_exists.mp (addSorted_isSome chars ch)
    rw [addAllSorted, h, Option.bind_some]
    exact ih chars'

theorem addMatchesASCII_isSome (c : CharacterClass) (more : List UChar) :
    (c.addMatchesASCII more).isSome = true := by
  rw [addMatchesASCII, Option.isSome_map]
  exact addAllSorted_isSome c.matchesASCII more

theorem addMatchesUnicode_isSome (c : CharacterClass) (more : List UChar) :
    (c.addMatchesUnicode more).isSome = true := by
  rw [addMatchesUnicode, Option.isSome_map]
  exact addAllSorted_isSome c.matchesUnicode more

theorem append_isSome (c other : CharacterClass) : (c.append other).isSome = true := by
  obtain ⟨c', h⟩ := Option.isSome_iff_exists.mp (c.addMatchesASCII_isSome other.matchesASCII)
  rw [append, h, Option.bind_some, Option.isSome_map]
  exact addMatchesUnicode_isSome _ other.matchesUnicode

theorem uchar_min (a b : UChar) : min a b = if a ≤ b then a else b := rfl

theorem uchar_max (a b : UChar) : max a b = if a ≤ b then b else a := rfl

theorem addCharacterSet_isSome {info : UCS2CanonicalizationRange} (hinfo : info ∈ rangeInfo)
    (hset : info.type = .canonicalizeSet) (c : CharacterClass) :
    ((characterSetInfo[info.value.toNat]?).bind c.addMatchesUnicode).isSome = true := by
  rw [List.getElem?_eq_getElem (rangeInfo_sets info hinfo hset), Option.bind_some]
  exact c.addMatchesUnicode_isSome _

theorem putUnicodeIgnoreCase_isSome {info : UCS2CanonicalizationRange} (hinfo : info ∈ rangeInfo)
    (hunique : info.type ≠ .canonicalizeUnique) (ch : UChar) (c : CharacterClass) :
    (c.putUnicodeIgnoreCase ch info).isSome = true := by
  rw [putUnicodeIgnoreCase]
  split
  · rename_i hset
    exact addCharacterSet_isSome hinfo hset c
  · rename_i hset
    have hpair : (getCanonicalPair info ch).isSome = true := by
      cases htype : info.type with
      | canonicalizeUnique => exact absurd htype hunique
      | canonicalizeSet => exact absurd htype hset
      | _ => rw [getCanonicalPair, htype]; rfl
    obtain ⟨pair, h⟩ := Option.isSome_iff_exists.mp hpair
    rw [h, Option.bind_some]
    exact c.addMatchesUnicode_isSome _

theorem putChar_isSome (isCaseInsensitive : Bool) (ch : UChar) (c : CharacterClass) :
    (c.putChar isCaseInsensitive ch).isSome = true := by
  rw [putChar]
  split
  · split
    · exact c.addMatchesASCII_isSome _
    · exact c.addMatchesASCII_isSome _
  · split
    · obtain ⟨info, rest, hfound, hsuffix, -⟩ := rangeInfoFor_spec ch
      rw [hfound]
      simp only
      split
      · exact c.addMatchesUnicode_isSome _
      · rename_i hunique
        exact putUnicodeIgnoreCase_isSome (hsuffix.subset List.mem_cons_self) hunique ch c
    · exact c.addMatchesUnicode_isSome _

theorem putEquivalents_isSome {info : UCS2CanonicalizationRange} (hinfo : info ∈ rangeInfo) (lo last : UChar)
    (c : CharacterClass) : (c.putEquivalents info lo last).isSome = true := by
  cases htype : info.type with
  | canonicalizeSet =>
    rw [putEquivalents, htype]
    exact addCharacterSet_isSome hinfo htype c
  | _ => rw [putEquivalents, htype]; rfl

theorem putRangeFrom_isSome {hi : UChar} {table : List UCS2CanonicalizationRange} (hsuffix : table <:+ rangeInfo)
    {begin : Nat} (htiles : Tiles begin table) (hbegin : begin ≤ hi.toNat) (lo : UChar) (c : CharacterClass) :
    (putRangeFrom hi table lo c).isSome = true := by
  induction table generalizing begin lo c with
  | nil =>
    have hlast := hi.toNat_lt
    rw [Tiles] at htiles
    omega
  | cons info rest ih =>
    obtain ⟨-, -, hrest⟩ := htiles
    obtain ⟨c', h⟩ := Option.isSome_iff_exists.mp
      (c.putEquivalents_isSome (hsuffix.subset List.mem_cons_self) lo (min info.last hi))
    rw [putRangeFrom, h, Option.bind_some]
    split
    · rfl
    · rename_i hne
      have hlt : info.last < hi := by
        rw [uchar_min] at hne
        split at hne
        · rename_i hle
          exact UInt16.lt_of_le_of_ne hle (Ne.symm hne)
        · exact absurd rfl hne
      rw [UInt16.lt_iff_toNat_lt] at hlt
      have hsome := ih ((List.suffix_cons info rest).trans hsuffix) hrest hlt
      cases rest with
      | nil => exact hsome lo c'
      | cons next rest => exact hsome next.first c'

theorem putRange_isSome (isCaseInsensitive : Bool) {lo hi : UChar} (h : lo ≤ hi) (c : CharacterClass) :
    (c.putRange isCaseInsensitive lo hi).isSome = true := by
  rw [putRange]
  simp only
  split
  · rfl
  · rename_i hhi
    split
    · obtain ⟨info, rest, hfound, hsuffix, hfirst, -⟩ := rangeInfoFor_spec (max lo 0x80)
      obtain ⟨begin, htiles⟩ := rangeInfo_tiles.of_suffix hsuffix
      have hle : max lo 0x80 ≤ hi := by
        rw [uchar_max]
        split
        · exact UInt16.le_iff_toNat_le.mpr (UInt16.lt_iff_toNat_lt.mp (UInt16.not_le.mp hhi))
        · exact h
      have hbegin : begin ≤ hi.toNat := by
        rw [← htiles.1]
        exact UInt16.le_iff_toNat_le.mp (UInt16.le_trans hfirst hle)
      rw [hfound, Option.bind_some]
      exact putRangeFrom_isSome hsuffix htiles hbegin _ _
    · rfl

end CharacterClass

end WebKit.Yarr
