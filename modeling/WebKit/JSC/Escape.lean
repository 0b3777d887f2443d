import WebKit.JSC.URICodingRoundTrip

/-!
# `escape` and `unescape`

Both functions have a loop for 8-bit characters and one for 16-bit characters. The length of a string of a script fits
an `int`; a result that is too long is no string. A read outside the characters has no result. What `escape` builds with
a `JSStringBuilder`, `unescape` builds with a `StringBuilder`, which keeps 8-bit characters as long in the same way.

`Unescapes` is the one reading of a text as escapes and characters that start none (`Unescapes.unique`). The loops of
`unescape` find it (`unescape_reads`), and it takes back what `escape` writes (`unescapes_escaped`).
-/

namespace WebKit.JSC

open WTF WTF.Unicode

/-- The string of a script. -/
structure JSString where
  impl : StringImpl
  fits : impl.characters.length < 2 ^ 31

namespace JSString

/-- `JSString::create`, which does not return for a length that does not fit an `int32_t`. -/
def create (impl : StringImpl) : Option JSString :=
  if h : impl.characters.length < 2 ^ 31 then some ⟨impl, h⟩ else none

def characters (string : JSString) : List UChar := string.impl.characters

theorem create_eq {impl : StringImpl} (h : impl.characters.length < 2 ^ 31) : create impl = some ⟨impl, h⟩ := dif_pos h

end JSString

/-! ## `escape` -/

/-- The letters, the digits and `*+-./@_`. -/
def do_not_escape : List UInt8 := lettersAndDigits ++ [0x2A, 0x2B, 0x2D, 0x2E, 0x2F, 0x40, 0x5F]

/-- What `%%%02X` prints. -/
def printByte (u : UInt8) : List UChar := [0x25, (upperHexDigit (u / 16)).toUInt16, (upperHexDigit (u % 16)).toUInt16]

/-- What `%%u%04X` prints. -/
def printUnit (u : UChar) : List UChar :=
  [0x25, 0x75, (upperHexDigit (u / 4096).toUInt8).toUInt16, (upperHexDigit (u / 256 % 16).toUInt8).toUInt16,
    (upperHexDigit (u / 16 % 16).toUInt8).toUInt16, (upperHexDigit (u % 16).toUInt8).toUInt16]

/-- An iteration of the loop over 8-bit characters. -/
def escape8 (builder : JSStringBuilder) (u : UInt8) : JSStringBuilder :=
  if u ≠ 0 ∧ u ∈ do_not_escape then builder.append u.toUInt16
  else (printByte u).foldl JSStringBuilder.append builder

/-- An iteration of the loop over 16-bit characters. -/
def escape16 (builder : JSStringBuilder) (u : UChar) : JSStringBuilder :=
  if u > 255 then (printUnit u).foldl JSStringBuilder.append builder
  else if u ≠ 0 ∧ u.toUInt8 ∈ do_not_escape then builder.append u
  else (printByte u.toUInt8).foldl JSStringBuilder.append builder

def globalFuncEscape (string : JSString) : Option JSString :=
  match string.impl with
  | .latin1 characters8 => JSString.create (characters8.foldl escape8 (.buffer8 [])).build
  | .utf16 characters16 => JSString.create (characters16.foldl escape16 (.buffer8 [])).build

/-! ## `unescape` -/

section

variable (read : Nat → Option UChar) (len : Int) (k : Nat)

/-- `c[0] == '%' && k <= len - 6 && c[1] == 'u'`. -/
def startsUnicode (c0 : UChar) : Option Bool :=
  if c0 = 0x25 ∧ k ≤ len - 6 then (read (k + 1)).map fun c1 => c1 = 0x75 else some false

/-- The number of the four digits behind `%u`, if they are digits. -/
def readUnicode : Option (Option UChar) := do
  let c2 ← read (k + 2)
  if !isASCIIHexDigit c2 then return none
  let c3 ← read (k + 3)
  if !isASCIIHexDigit c3 then return none
  let c4 ← read (k + 4)
  if !isASCIIHexDigit c4 then return none
  let c5 ← read (k + 5)
  if !isASCIIHexDigit c5 then return none
  return some (Lexer.convertUnicode c2 c3 c4 c5)

/-- The number of the two digits behind `%`, if there are two and they are digits. -/
def readHex (c0 : UChar) : Option (Option UInt8) := do
  if ¬(c0 = 0x25 ∧ k ≤ len - 3) then return none
  let c1 ← read (k + 1)
  if !isASCIIHexDigit c1 then return none
  let c2 ← read (k + 2)
  if !isASCIIHexDigit c2 then return none
  return some (Lexer.convertHex c1 c2)

end

/-- An iteration of the loop over 8-bit characters: what it appends and the next `k`. -/
def unescape8 (characters : List UInt8) (len : Int) (k : Nat) : Option (UChar × Nat) := do
  let read := fun i => characters[i]?.map UInt8.toUInt16
  let c0 ← read k
  if ← startsUnicode read len k c0 then
    match ← readUnicode read k with
    | some convertedUChar => return (convertedUChar, k + 6)
    | none => return (c0, k + 1)
  else
    match ← readHex read len k c0 with
    | some convertedLChar =>
      let k := k + 2
      return (convertedLChar.toUInt16, k + 1)
    | none => return (c0, k + 1)

/-- An iteration of the loop over 16-bit characters. -/
def unescape16 (characters : List UChar) (len : Int) (k : Nat) : Option (UChar × Nat) := do
  let read := fun i => characters[i]?
  let c0 ← read k
  if ← startsUnicode read len k c0 then
    match ← readUnicode read k with
    | some convertedUChar =>
      let k := k + 5
      return (convertedUChar, k + 1)
    | none => return (c0, k + 1)
  else
    match ← readHex read len k c0 with
    | some byte =>
      let convertedUChar := byte.toUInt16
      let k := k + 2
      return (convertedUChar, k + 1)
    | none => return (c0, k + 1)

/-- The `while` loop with a given iteration, of which there are at most `fuel`. -/
def unescapeLoop (iteration : Nat → Option (UChar × Nat)) (len : Int) :
    Nat → Nat → JSStringBuilder → Option JSStringBuilder
  | 0, _, _ => none
  | fuel + 1, k, builder =>
    if k < len then do
      let (c, k) ← iteration k
      unescapeLoop iteration len fuel k (builder.append c)
    else some builder

def globalFuncUnescape (string : JSString) : Option JSString := do
  let len := (string.characters.length : Int).bmod (2 ^ 32)
  let builder ←
    match string.impl with
    | .latin1 characters8 =>
      unescapeLoop (unescape8 characters8 len) len (string.characters.length + 1) 0 (.buffer8 [])
    | .utf16 characters16 =>
      unescapeLoop (unescape16 characters16 len) len (string.characters.length + 1) 0 (.buffer8 [])
  JSString.create builder.build

/-! ## Readings -/

/-- The escapes of a unit. -/
inductive EscapeOf : UChar → List UChar → Prop
  | byte {x y : UChar} {v w : Nat} (hx : HexValue x v) (hy : HexValue y w) :
      EscapeOf (UInt16.ofNat (16 * v + w)) [0x25, x, y]
  | unit {x y z t : UChar} {v w p q : Nat} (hx : HexValue x v) (hy : HexValue y w) (hz : HexValue z p)
      (ht : HexValue t q) : EscapeOf (UInt16.ofNat (4096 * v + 256 * w + 16 * p + q)) [0x25, 0x75, x, y, z, t]

/-- No escape stands in front. -/
def StartsNoEscape (text : List UChar) : Prop := ∀ u escape, EscapeOf u escape → ¬escape <+: text

/-- The text, with every escape read as its unit and every other character left. -/
inductive Unescapes : List UChar → List UChar → Prop
  | nil : Unescapes [] []
  | escape {u : UChar} {escape text units : List UChar} (he : EscapeOf u escape) (h : Unescapes text units) :
      Unescapes (escape ++ text) (u :: units)
  | literal {c : UChar} {text units : List UChar} (hc : StartsNoEscape (c :: text)) (h : Unescapes text units) :
      Unescapes (c :: text) (c :: units)

variable {c u u' : UChar} {text units units' e e' : List UChar}

theorem hexValue_of_isASCIIHexDigit (h : isASCIIHexDigit c = true) : ∃ v, HexValue c v := ⟨_, hexValue_iff.2 ⟨h, rfl⟩⟩

theorem not_hexValue_u {v : Nat} : ¬HexValue 0x75 v := by
  rintro (⟨-, h, -⟩ | ⟨-, h, -⟩ | ⟨-, h, -⟩) <;> exact absurd h (by decide)

theorem hexValue_unique {v w : Nat} (h : HexValue c v) (h' : HexValue c w) : v = w := by
  rw [← (hexValue_iff.1 h).2, ← (hexValue_iff.1 h').2]

theorem EscapeOf.ne_nil (h : EscapeOf u e) : e ≠ [] := by
  cases h <;> exact List.cons_ne_nil _ _

theorem EscapeOf.head (h : EscapeOf u e) (hp : e <+: c :: text) : c = 0x25 := by
  cases h <;> exact ((List.cons_prefix_cons.1 hp).1).symm

theorem EscapeOf.unique (h : EscapeOf u e) (h' : EscapeOf u' e') (hp : e <+: text) (hp' : e' <+: text) :
    u = u' ∧ e = e' := by
  obtain ⟨rest, rfl⟩ := hp
  cases h with
  | byte hx hy =>
    cases h' with
    | byte hx' hy' =>
      simp only [List.cons_append, List.cons_prefix_cons] at hp'
      obtain ⟨-, rfl, rfl, -⟩ := hp'
      rw [hexValue_unique hx hx', hexValue_unique hy hy']
      exact ⟨rfl, rfl⟩
    | unit =>
      simp only [List.cons_append, List.cons_prefix_cons] at hp'
      obtain ⟨-, rfl, -⟩ := hp'
      exact absurd hx not_hexValue_u
  | unit hx hy hz ht =>
    cases h' with
    | byte hx' =>
      simp only [List.cons_append, List.cons_prefix_cons] at hp'
      obtain ⟨-, rfl, -⟩ := hp'
      exact absurd hx' not_hexValue_u
    | unit hx' hy' hz' ht' =>
      simp only [List.cons_append, List.cons_prefix_cons] at hp'
      obtain ⟨-, -, rfl, rfl, rfl, rfl, -⟩ := hp'
      rw [hexValue_unique hx hx', hexValue_unique hy hy', hexValue_unique hz hz', hexValue_unique ht ht']
      exact ⟨rfl, rfl⟩

/-- **A text has one reading.** -/
theorem Unescapes.unique (h : Unescapes text units) (h' : Unescapes text units') : units = units' := by
  induction h generalizing units' with
  | nil =>
    generalize htext : ([] : List UChar) = text at h'
    cases h' with
    | nil => rfl
    | escape he' h' => exact absurd (List.append_eq_nil_iff.1 htext.symm).1 he'.ne_nil
    | literal => cases htext
  | @escape u e text units he h ih =>
    generalize htext : e ++ text = text' at h'
    cases h' with
    | nil => exact absurd (List.append_eq_nil_iff.1 htext).1 he.ne_nil
    | @escape u' e' text' units' he' h' =>
      have hp' : e' <+: e ++ text := by
        rw [htext]
        exact List.prefix_append _ _
      obtain ⟨rfl, rfl⟩ := he.unique he' (List.prefix_append e text) hp'
      rw [ih (List.append_cancel_left htext ▸ h')]
    | literal hc h' => exact absurd (htext ▸ List.prefix_append _ _) (hc u e he)
  | @literal c text units hc h ih =>
    generalize htext : c :: text = text' at h'
    cases h' with
    | nil => cases htext
    | @escape u' e' text' units' he' h' => exact absurd (htext ▸ List.prefix_append _ _) (hc u' e' he')
    | literal hc' h' =>
      cases htext
      rw [ih h']

/-! ## What an iteration does -/

/-- **The value of four digits.** -/
theorem convertUnicode_eq {x y z t : UChar} {v w p q : Nat} (hx : HexValue x v) (hy : HexValue y w) (hz : HexValue z p)
    (ht : HexValue t q) : Lexer.convertUnicode x y z t = UInt16.ofNat (4096 * v + 256 * w + 16 * p + q) := by
  have hv := hx.lt
  have hw := hy.lt
  have hp := hz.lt
  have hq := ht.lt
  have hhigh : (UInt8.ofNat (16 * v + w)).toNat = 16 * v + w := UInt8.toNat_ofNat_of_lt' (show _ < 2 ^ 8 by omega)
  have hlow : (UInt8.ofNat (16 * p + q)).toNat = 16 * p + q := UInt8.toNat_ofNat_of_lt' (show _ < 2 ^ 8 by omega)
  have hshift : (16 * v + w) <<< 8 % 2 ^ 16 = (16 * v + w) <<< 8 := by
    rw [Nat.shiftLeft_eq]
    omega
  have hor : (16 * v + w) <<< 8 ||| (16 * p + q) = 4096 * v + 256 * w + 16 * p + q := by
    rw [← Nat.shiftLeft_add_eq_or_of_lt (show 16 * p + q < 2 ^ 8 by omega), Nat.shiftLeft_eq]
    omega
  apply UInt16.toNat.inj
  rw [Lexer.convertUnicode, convertHex_eq hx hy, convertHex_eq hz ht, UInt16.toNat_or, UInt16.toNat_shiftLeft,
    UInt8.toNat_toUInt16, UInt8.toNat_toUInt16, hhigh, hlow, show (8 : UInt16).toNat % 16 = 8 from rfl, hshift, hor,
    UInt16.toNat_ofNat_of_lt' (show _ < 2 ^ 16 by omega)]

/-- What an iteration at a text appends, and how much of the text it is for. -/
inductive Reads : List UChar → UChar → Nat → Prop
  | escape {u : UChar} {escape text : List UChar} (he : EscapeOf u escape) : Reads (escape ++ text) u escape.length
  | literal {c : UChar} {text : List UChar} (hc : StartsNoEscape (c :: text)) : Reads (c :: text) c 1

variable {characters : List UChar} {k : Nat}

/-- The two digits behind `%`. -/
def HexEscape (text : List UChar) : Prop :=
  ∃ x y back, text = 0x25 :: x :: y :: back ∧ isASCIIHexDigit x = true ∧ isASCIIHexDigit y = true

/-- The four digits behind `%u`. -/
def UnicodeEscape (text : List UChar) : Prop :=
  ∃ x y z t back, text = 0x25 :: 0x75 :: x :: y :: z :: t :: back ∧ isASCIIHexDigit x = true ∧
    isASCIIHexDigit y = true ∧ isASCIIHexDigit z = true ∧ isASCIIHexDigit t = true

theorem startsNoEscape_of (hhex : ¬HexEscape text) (hunicode : ¬UnicodeEscape text) : StartsNoEscape text := by
  rintro u e he ⟨back, rfl⟩
  cases he with
  | byte hx hy => exact hhex ⟨_, _, back, rfl, (hexValue_iff.1 hx).1, (hexValue_iff.1 hy).1⟩
  | unit hx hy hz ht =>
    exact hunicode ⟨_, _, _, _, back, rfl, (hexValue_iff.1 hx).1, (hexValue_iff.1 hy).1, (hexValue_iff.1 hz).1,
      (hexValue_iff.1 ht).1⟩

theorem reads_hex {x y : UChar} (hx : isASCIIHexDigit x = true) (hy : isASCIIHexDigit y = true) (back : List UChar) :
    Reads (0x25 :: x :: y :: back) (Lexer.convertHex x y).toUInt16 3 := by
  obtain ⟨v, hx⟩ := hexValue_of_isASCIIHexDigit hx
  obtain ⟨w, hy⟩ := hexValue_of_isASCIIHexDigit hy
  have hv := hx.lt
  have hw := hy.lt
  have hvalue : (Lexer.convertHex x y).toUInt16 = UInt16.ofNat (16 * v + w) := by
    apply UInt16.toNat.inj
    rw [convertHex_eq hx hy, UInt8.toNat_toUInt16, UInt8.toNat_ofNat_of_lt' (show _ < 2 ^ 8 by omega),
      UInt16.toNat_ofNat_of_lt' (show _ < 2 ^ 16 by omega)]
  rw [hvalue]
  exact .escape (.byte hx hy)

theorem reads_unicode {x y z t : UChar} (hx : isASCIIHexDigit x = true) (hy : isASCIIHexDigit y = true)
    (hz : isASCIIHexDigit z = true) (ht : isASCIIHexDigit t = true) (back : List UChar) :
    Reads (0x25 :: 0x75 :: x :: y :: z :: t :: back) (Lexer.convertUnicode x y z t) 6 := by
  obtain ⟨v, hx⟩ := hexValue_of_isASCIIHexDigit hx
  obtain ⟨w, hy⟩ := hexValue_of_isASCIIHexDigit hy
  obtain ⟨p, hz⟩ := hexValue_of_isASCIIHexDigit hz
  obtain ⟨q, ht⟩ := hexValue_of_isASCIIHexDigit ht
  rw [convertUnicode_eq hx hy hz ht]
  exact .escape (.unit hx hy hz ht)

section

variable {read : Nat → Option UChar} {len : Int}

/-- `%u` in front of four characters. -/
theorem startsUnicode_spec (hread : ∀ i, read (k + i) = (c :: text)[i]?) (hlen : len = k + (c :: text).length) :
    ∃ starts, startsUnicode read len k c = some starts ∧
      (starts = true ↔ ∃ x y z t back, c :: text = 0x25 :: 0x75 :: x :: y :: z :: t :: back) := by
  unfold startsUnicode
  rw [hread]
  split
  · rename_i h
    obtain ⟨rfl, hk⟩ := h
    match text, hlen with
    | c1 :: x :: y :: z :: t :: back, _ => exact ⟨c1 = 0x75, by simp, by simp⟩
    | [], hlen | [_], hlen | [_, _], hlen | [_, _, _], hlen | [_, _, _, _], hlen =>
      simp only [List.length_cons, List.length_nil] at hlen
      omega
  · rename_i h
    refine ⟨false, rfl, fun hfalse => Bool.noConfusion hfalse, ?_⟩
    rintro ⟨x, y, z, t, back, htext⟩
    rw [htext] at hlen
    cases htext
    simp only [List.length_cons] at hlen
    exact absurd ⟨rfl, by omega⟩ h

theorem readUnicode_eq {x y z t : UChar} (hx : read (k + 2) = some x) (hy : read (k + 3) = some y)
    (hz : read (k + 4) = some z) (ht : read (k + 5) = some t) : readUnicode read k =
      some (if isASCIIHexDigit x ∧ isASCIIHexDigit y ∧ isASCIIHexDigit z ∧ isASCIIHexDigit t then
        some (Lexer.convertUnicode x y z t) else none) := by
  unfold readUnicode
  rw [hx, hy, hz, ht]
  cases hdx : isASCIIHexDigit x <;> cases hdy : isASCIIHexDigit y <;> cases hdz : isASCIIHexDigit z <;>
    cases hdt : isASCIIHexDigit t <;> simp [hdx, hdy, hdz, hdt]

theorem readHex_eq {x y : UChar} (hx : read (k + 1) = some x) (hy : read (k + 2) = some y) (hk : k ≤ len - 3) :
    readHex read len k 0x25 =
      some (if isASCIIHexDigit x ∧ isASCIIHexDigit y then some (Lexer.convertHex x y) else none) := by
  unfold readHex
  rw [hx, hy]
  cases hdx : isASCIIHexDigit x <;> cases hdy : isASCIIHexDigit y <;> simp [hdx, hdy, hk]

theorem readHex_none (h : ¬(c = 0x25 ∧ k ≤ len - 3)) : readHex read len k c = some none := by
  unfold readHex
  rw [if_pos h]
  rfl

end

/-- **The two loops** do the same. -/
theorem unescape8_eq (characters8 : List UInt8) (len : Int) (k : Nat) :
    unescape8 characters8 len k = unescape16 (characters8.map UInt8.toUInt16) len k := by
  have hread : (fun i => (characters8.map UInt8.toUInt16)[i]?) = fun i => characters8[i]?.map UInt8.toUInt16 :=
    funext fun i => List.getElem?_map
  unfold unescape8 unescape16
  simp only [hread]

/-- **An iteration** appends the unit of the escape at `k`, or the character there if there is none. -/
theorem unescape16_reads (hk : k < characters.length) :
    ∃ u n, unescape16 characters characters.length k = some (u, k + n) ∧ Reads (characters.drop k) u n := by
  obtain ⟨c, text, htext⟩ : ∃ c text, characters.drop k = c :: text :=
    ⟨_, _, List.drop_eq_getElem_cons hk⟩
  have hread : ∀ i, characters[k + i]? = (c :: text)[i]? := fun i => by rw [← htext, List.getElem?_drop]
  have hlen : (characters.length : Int) = k + (c :: text).length := by
    rw [← htext, List.length_drop]
    omega
  have hc : characters[k]? = some c := hread 0
  obtain ⟨starts, hstarts, hiff⟩ := startsUnicode_spec hread hlen
  unfold unescape16
  simp only [hc, hstarts, Option.bind_eq_bind, Option.bind_some]
  rw [htext]
  cases starts with
  | true =>
    obtain ⟨x, y, z, t, back, htext⟩ := hiff.1 rfl
    rw [htext] at hread ⊢
    obtain ⟨rfl, -⟩ := List.cons.inj htext
    simp only [readUnicode_eq (hread 2) (hread 3) (hread 4) (hread 5), if_true, Option.bind_some]
    by_cases hdigits : isASCIIHexDigit x ∧ isASCIIHexDigit y ∧ isASCIIHexDigit z ∧ isASCIIHexDigit t
    · obtain ⟨hx, hy, hz, ht⟩ := hdigits
      rw [if_pos ⟨hx, hy, hz, ht⟩]
      exact ⟨_, 6, rfl, reads_unicode hx hy hz ht back⟩
    · rw [if_neg hdigits]
      refine ⟨_, 1, rfl, .literal (startsNoEscape_of ?_ ?_)⟩
      · rintro ⟨_, _, _, heq, hu, -⟩
        simp only [List.cons.injEq] at heq
        exact absurd (heq.2.1 ▸ hu) (by decide)
      · rintro ⟨_, _, _, _, _, heq, hescape⟩
        simp only [List.cons.injEq, true_and] at heq
        obtain ⟨rfl, rfl, rfl, rfl, -⟩ := heq
        exact hdigits hescape
  | false =>
    have hunicode : ¬UnicodeEscape (c :: text) := by
      rintro ⟨x, y, z, t, back, htext, -⟩
      exact Bool.noConfusion (hiff.2 ⟨x, y, z, t, back, htext⟩)
    simp only [Bool.false_eq_true, if_false]
    by_cases hhex : c = 0x25 ∧ k ≤ (characters.length : Int) - 3
    · obtain ⟨rfl, hk3⟩ := hhex
      obtain ⟨x, y, back, rfl⟩ : ∃ x y back, text = x :: y :: back := by
        match text, hlen with
        | x :: y :: back, _ => exact ⟨x, y, back, rfl⟩
        | [], hlen | [_], hlen =>
          simp only [List.length_cons, List.length_nil] at hlen
          omega
      simp only [readHex_eq (hread 1) (hread 2) hk3, Option.bind_some]
      by_cases hdigits : isASCIIHexDigit x ∧ isASCIIHexDigit y
      · rw [if_pos hdigits]
        exact ⟨_, 3, rfl, reads_hex hdigits.1 hdigits.2 back⟩
      · rw [if_neg hdigits]
        refine ⟨_, 1, rfl, .literal (startsNoEscape_of ?_ hunicode)⟩
        rintro ⟨_, _, _, heq, hescape⟩
        simp only [List.cons.injEq, true_and] at heq
        obtain ⟨rfl, rfl, -⟩ := heq
        exact hdigits hescape
    · simp only [readHex_none hhex, Option.bind_some]
      refine ⟨c, 1, rfl, .literal (startsNoEscape_of ?_ hunicode)⟩
      rintro ⟨x, y, back, heq, -⟩
      obtain ⟨rfl, rfl⟩ := List.cons.inj heq
      simp only [List.length_cons] at hlen
      exact hhex ⟨rfl, by omega⟩

/-! ## Runs of the loop -/

theorem Reads.pos {n : Nat} (h : Reads text u n) : 0 < n := by
  cases h with
  | escape he => exact List.length_pos_of_ne_nil he.ne_nil
  | literal => exact Nat.one_pos

theorem Reads.le_length {n : Nat} (h : Reads text u n) : n ≤ text.length := by
  cases h with
  | escape => simp
  | literal => simp

theorem Reads.unescapes {n : Nat} (h : Reads text u n) (hrest : Unescapes (text.drop n) units) :
    Unescapes text (u :: units) := by
  cases h with
  | escape he =>
    rw [List.drop_left] at hrest
    exact .escape he hrest
  | literal hc => exact .literal hc hrest

theorem Unescapes.length_le (h : Unescapes text units) : units.length ≤ text.length := by
  induction h with
  | nil => exact Nat.le_refl _
  | escape he _ ih =>
    have := List.length_pos_of_ne_nil he.ne_nil
    rw [List.length_append, List.length_cons]
    omega
  | literal _ _ ih => exact Nat.succ_le_succ ih

/-- **The loop** appends the reading of what is left. -/
theorem unescapeLoop_spec (fuel k : Nat) (builder : JSStringBuilder) (hk : k ≤ characters.length)
    (hfuel : characters.length < fuel + k) :
    ∃ units result,
      unescapeLoop (unescape16 characters characters.length) characters.length fuel k builder = some result ∧
        Unescapes (characters.drop k) units ∧ result.build.characters = builder.build.characters ++ units := by
  induction fuel generalizing k builder with
  | zero => omega
  | succ fuel ih =>
    unfold unescapeLoop
    by_cases hlt : k < characters.length
    · obtain ⟨u, n, hiteration, hreads⟩ := unescape16_reads hlt
      have hpos := hreads.pos
      have hle := hreads.le_length
      rw [List.length_drop] at hle
      obtain ⟨units, result, hrun, hunits, hcharacters⟩ := ih (k + n) (builder.append u) (by omega) (by omega)
      rw [if_pos (Int.ofNat_lt.2 hlt), hiteration]
      refine ⟨u :: units, result, hrun, hreads.unescapes ?_, ?_⟩
      · rwa [List.drop_drop]
      · rw [hcharacters, JSStringBuilder.characters_append, List.append_assoc, List.singleton_append]
    · have heq : k = characters.length := by omega
      rw [if_neg (by omega)]
      refine ⟨[], builder, rfl, ?_, (List.append_nil _).symm⟩
      rw [heq, List.drop_length]
      exact .nil

/-- **`unescape` finds the reading.** -/
theorem unescape_reads (string : JSString) :
    ∃ result, globalFuncUnescape string = some result ∧ Unescapes string.characters result.characters := by
  have hlen : (string.characters.length : Int).bmod (2 ^ 32) = string.characters.length := by
    have := string.fits
    unfold JSString.characters
    rw [Int.bmod_eq_of_le] <;> omega
  obtain ⟨units, result, hrun, hunits, hcharacters⟩ := @unescapeLoop_spec string.characters
    (string.characters.length + 1) 0 (.buffer8 []) (Nat.zero_le _) (by omega)
  rw [List.drop_zero] at hunits
  have hresult : result.build.characters = units := hcharacters
  have hfits : result.build.characters.length < 2 ^ 31 := by
    rw [hresult]
    exact Nat.lt_of_le_of_lt hunits.length_le string.fits
  have hloop : globalFuncUnescape string = JSString.create result.build := by
    unfold globalFuncUnescape
    simp only [hlen]
    obtain ⟨impl, fits⟩ := string
    cases impl with
    | latin1 characters8 =>
      have hiteration : unescape8 characters8 = unescape16 (characters8.map UInt8.toUInt16) :=
        funext fun len => funext fun k => unescape8_eq characters8 len k
      simp only [hiteration]
      exact congrArg (fun r => r.bind fun builder => JSString.create builder.build) hrun
    | utf16 characters16 => exact congrArg (fun r => r.bind fun builder => JSString.create builder.build) hrun
  rw [hloop, JSString.create_eq hfits]
  refine ⟨_, rfl, ?_⟩
  change Unescapes string.characters result.build.characters
  rw [hresult]
  exact hunits

/-! ## What `escape` writes -/

/-- What `escape` writes for a unit. -/
def escapedUnit (u : UChar) : List UChar :=
  if u > 255 then printUnit u else if u ≠ 0 ∧ u.toUInt8 ∈ do_not_escape then [u] else printByte u.toUInt8

theorem characters_escape16 (characters16 : List UChar) (builder : JSStringBuilder) :
    (characters16.foldl escape16 builder).build.characters =
      builder.build.characters ++ characters16.flatMap escapedUnit := by
  induction characters16 generalizing builder with
  | nil => simp
  | cons u characters16 ih =>
    have hone : (escape16 builder u).build.characters = builder.build.characters ++ escapedUnit u := by
      unfold escape16 escapedUnit
      split_ifs
      · exact JSStringBuilder.characters_foldl_append _ _
      · exact JSStringBuilder.characters_append _ _
      · exact JSStringBuilder.characters_foldl_append _ _
    rw [List.foldl_cons, ih, hone, List.append_assoc, List.flatMap_cons]

/-- The loop over 8-bit characters writes the same. -/
theorem escape8_eq (builder : JSStringBuilder) (u : UInt8) : escape8 builder u = escape16 builder u.toUInt16 := by
  have hle : ¬u.toUInt16 > 255 := by
    have := u.toNat_lt
    simp only [gt_iff_lt, UInt16.lt_iff_toNat_lt, UInt8.toNat_toUInt16, UInt16.reduceToNat]
    omega
  have hzero : u.toUInt16 ≠ 0 ↔ u ≠ 0 := by
    rw [not_iff_not, ← UInt16.toNat_inj, ← UInt8.toNat_inj, UInt8.toNat_toUInt16]
    rfl
  unfold escape8 escape16
  rw [if_neg hle, UInt8.toUInt8_toUInt16]
  simp only [hzero]

theorem globalFuncEscape_eq (string : JSString) :
    (∃ result, globalFuncEscape string = some result ∧ result.characters = string.characters.flatMap escapedUnit) ∨
      (globalFuncEscape string = none ∧ 2 ^ 31 ≤ (string.characters.flatMap escapedUnit).length) := by
  have hcreate : ∀ impl : StringImpl, impl.characters = string.characters.flatMap escapedUnit →
      (∃ result, JSString.create impl = some result ∧ result.characters = string.characters.flatMap escapedUnit) ∨
        (JSString.create impl = none ∧ 2 ^ 31 ≤ (string.characters.flatMap escapedUnit).length) := by
    intro impl himpl
    by_cases hfits : impl.characters.length < 2 ^ 31
    · exact .inl ⟨_, JSString.create_eq hfits, himpl⟩
    · exact .inr ⟨dif_neg hfits, by rw [← himpl]; omega⟩
  obtain ⟨impl, fits⟩ := string
  cases impl with
  | latin1 characters8 =>
    have hloop : characters8.foldl escape8 (.buffer8 []) =
        (characters8.map UInt8.toUInt16).foldl escape16 (.buffer8 []) := by
      rw [List.foldl_map]
      exact congrArg (fun f => characters8.foldl f _) (funext fun builder => funext (escape8_eq builder))
    unfold globalFuncEscape
    simp only [hloop]
    exact hcreate _ (characters_escape16 _ _)
  | utf16 characters16 => exact hcreate _ (characters_escape16 _ _)

theorem length_escapedUnit_le (u : UChar) : (escapedUnit u).length ≤ 6 := by
  unfold escapedUnit printUnit printByte
  split_ifs <;> simp

theorem length_escaped_le (units : List UChar) : (units.flatMap escapedUnit).length ≤ 6 * units.length := by
  induction units with
  | nil => simp
  | cons u units ih =>
    have := length_escapedUnit_le u
    rw [List.flatMap_cons, List.length_append, List.length_cons]
    omega

/-! ## Reading it back -/

theorem hexValue_digit (n : UChar) (h : n.toNat < 16) : HexValue (upperHexDigit n.toUInt8).toUInt16 n.toNat := by
  have hn : n.toUInt8.toNat = n.toNat := by
    rw [UInt16.toNat_toUInt8]
    omega
  have hdigit := hexValue_upperHexDigit n.toUInt8 (UInt8.lt_iff_toNat_lt.2 (show n.toUInt8.toNat < 16 by omega))
  rwa [hn] at hdigit

theorem escapeOf_printUnit (u : UChar) : EscapeOf u (printUnit u) := by
  have hu := u.toNat_lt
  have h1 : (u / 4096).toNat = u.toNat / 4096 := UInt16.toNat_div _ _
  have h2 : (u / 256 % 16).toNat = u.toNat / 256 % 16 := by rw [UInt16.toNat_mod, UInt16.toNat_div]; rfl
  have h3 : (u / 16 % 16).toNat = u.toNat / 16 % 16 := by rw [UInt16.toNat_mod, UInt16.toNat_div]; rfl
  have h4 : (u % 16).toNat = u.toNat % 16 := UInt16.toNat_mod _ _
  have hescape := EscapeOf.unit (hexValue_digit (u / 4096) (by omega)) (hexValue_digit (u / 256 % 16) (by omega))
    (hexValue_digit (u / 16 % 16) (by omega)) (hexValue_digit (u % 16) (by omega))
  have hvalue : 4096 * (u / 4096).toNat + 256 * (u / 256 % 16).toNat + 16 * (u / 16 % 16).toNat + (u % 16).toNat =
      u.toNat := by omega
  rw [hvalue, UInt16.ofNat_toNat] at hescape
  exact hescape

theorem escapeOf_printByte (u : UInt8) : EscapeOf u.toUInt16 (printByte u) := by
  have hu := u.toNat_lt
  have hhigh : (u / 16).toNat = u.toNat / 16 := UInt8.toNat_div _ _
  have hlow : (u % 16).toNat = u.toNat % 16 := UInt8.toNat_mod _ _
  have hx := hexValue_upperHexDigit (u / 16) (UInt8.lt_iff_toNat_lt.2 (show (u / 16).toNat < 16 by omega))
  have hy := hexValue_upperHexDigit (u % 16) (UInt8.lt_iff_toNat_lt.2 (show (u % 16).toNat < 16 by omega))
  have hescape := EscapeOf.byte hx hy
  have hvalue : UInt16.ofNat (16 * (u / 16).toNat + (u % 16).toNat) = u.toUInt16 := by
    apply UInt16.toNat.inj
    rw [hhigh, hlow, Nat.div_add_mod, UInt8.toNat_toUInt16, UInt16.toNat_ofNat_of_lt' (show _ < 2 ^ 16 by omega)]
  rw [hvalue] at hescape
  exact hescape

/-- No `%` is left as it is. -/
theorem percent_not_mem : (0x25 : UInt8) ∉ do_not_escape := by decide

/-- **What `escape` writes** reads as what it was given. -/
theorem unescapes_escaped (units : List UChar) : Unescapes (units.flatMap escapedUnit) units := by
  induction units with
  | nil => exact .nil
  | cons u units ih =>
    rw [List.flatMap_cons]
    unfold escapedUnit
    split_ifs with hlarge hplain
    · exact .escape (escapeOf_printUnit u) ih
    · refine .literal (fun v e he hp => ?_) ih
      have hu := he.head hp
      subst hu
      exact percent_not_mem hplain.2
    · have hu : u.toUInt8.toUInt16 = u := by
        apply UInt16.toNat.inj
        rw [UInt8.toNat_toUInt16, UInt16.toNat_toUInt8]
        exact Nat.mod_eq_of_lt (Nat.lt_succ_of_le (UInt16.le_iff_toNat_le.1 (UInt16.not_lt.1 hlarge)))
      have hescape := escapeOf_printByte u.toUInt8
      rw [hu] at hescape
      exact .escape hescape ih

/-- **`escape` and `unescape`**: what `escape` returns is taken back by `unescape`, and it returns something for every
string that is not longer than a sixth of the longest. `unescape` returns the one reading of its text, however that is
stored. -/
theorem escape_unescape (string : JSString) :
    ((∀ escaped, globalFuncEscape string = some escaped →
          ∃ result, globalFuncUnescape escaped = some result ∧ result.characters = string.characters) ∧
        (6 * string.characters.length < 2 ^ 31 → ∃ escaped, globalFuncEscape string = some escaped)) ∧
      (∃ result, globalFuncUnescape string = some result ∧ Unescapes string.characters result.characters) ∧
      ∀ other : JSString, other.characters = string.characters →
        (globalFuncUnescape other).map JSString.characters = (globalFuncUnescape string).map JSString.characters := by
  refine ⟨⟨fun escaped hescaped => ?_, fun hlength => ?_⟩, unescape_reads string, fun other hother => ?_⟩
  · obtain ⟨result, hresult, hcharacters⟩ | ⟨hnone, -⟩ := globalFuncEscape_eq string
    · cases hescaped.symm.trans hresult
      obtain ⟨unescaped, hunescaped, hreads⟩ := unescape_reads escaped
      rw [hcharacters] at hreads
      exact ⟨unescaped, hunescaped, hreads.unique (unescapes_escaped _)⟩
    · cases hescaped.symm.trans hnone
  · obtain ⟨result, hresult, -⟩ | ⟨-, hlong⟩ := globalFuncEscape_eq string
    · exact ⟨result, hresult⟩
    · have := length_escaped_le string.characters
      omega
  · obtain ⟨result, hresult, hreads⟩ := unescape_reads string
    obtain ⟨result', hresult', hreads'⟩ := unescape_reads other
    rw [hother] at hreads'
    rw [hresult, hresult', Option.map_some, Option.map_some, hreads.unique hreads']

end WebKit.JSC
