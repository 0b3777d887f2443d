import WebKit.JSC.URICodingEscapes

/-!
# URI coding is exact

`decode` finds the one reading of a text as characters that are not `%` and escapes of characters (`Decodes`), and fails
where a `%` is no part of an escape (`Malformed`): `decode_spec`. `encode` writes what is read back (`decodes_encoded`), and
fails where a surrogate is not paired (`HasUnpairedSurrogate`).
-/

namespace WebKit.JSC

open WTF WTF.Unicode WebKit.Lib

/-! ## Surrogates -/

def IsLead (u : UChar) : Prop := 0xD800 ≤ u.toNat ∧ u.toNat ≤ 0xDBFF

def IsTrail (u : UChar) : Prop := 0xDC00 ≤ u.toNat ∧ u.toNat ≤ 0xDFFF

/-- There is a lead surrogate with no trail surrogate behind it, or a trail surrogate with no lead surrogate before it. -/
def HasUnpairedSurrogate (units : List UChar) : Prop :=
  ∃ front u back, units = front ++ u :: back ∧
    ((IsLead u ∧ ∀ v ∈ back.head?, ¬ IsTrail v) ∨ (IsTrail u ∧ ∀ v ∈ front.getLast?, ¬ IsLead v))

theorem HasUnpairedSurrogate.append {front : List UChar} (hfront : ∀ v ∈ front.getLast?, ¬ IsLead v) {units : List UChar}
    (h : HasUnpairedSurrogate units) : HasUnpairedSurrogate (front ++ units) := by
  obtain ⟨middle, u, back, rfl, h⟩ := h
  refine ⟨front ++ middle, u, back, (List.append_assoc _ _ _).symm, h.imp_right ?_⟩
  rintro ⟨hu, hmiddle⟩
  refine ⟨hu, fun v hv => ?_⟩
  rw [List.getLast?_append, Option.mem_def, Option.or_eq_some_iff] at hv
  rcases hv with hv | ⟨-, hv⟩
  · exact hmiddle v hv
  · exact hfront v hv

theorem HasUnpairedSurrogate.of_cons {u : UChar} (hlead : ¬ IsLead u) (htrail : ¬ IsTrail u) {units : List UChar}
    (h : HasUnpairedSurrogate (u :: units)) : HasUnpairedSurrogate units := by
  obtain ⟨front, v, back, heq, h⟩ := h
  cases front with
  | nil =>
    obtain ⟨rfl, -⟩ := List.cons.inj heq
    exact absurd h (by rintro (⟨h, -⟩ | ⟨h, -⟩) <;> contradiction)
  | cons w front =>
    obtain ⟨-, rfl⟩ := List.cons.inj heq
    refine ⟨front, v, back, rfl, h.imp_right ?_⟩
    rintro ⟨hv, hfront⟩
    refine ⟨hv, fun x hx => hfront x ?_⟩
    rw [List.getLast?_cons, Option.mem_def.1 hx]
    rfl

theorem HasUnpairedSurrogate.of_pair {u v : UChar} (hu : IsLead u) (hv : IsTrail v) {units : List UChar}
    (h : HasUnpairedSurrogate (u :: v :: units)) : HasUnpairedSurrogate units := by
  obtain ⟨front, x, back, heq, h⟩ := h
  match front with
  | [] =>
    obtain ⟨rfl, rfl⟩ := List.cons.inj heq
    rcases h with ⟨-, h⟩ | ⟨h, -⟩
    · exact absurd hv (h v rfl)
    · unfold IsLead at hu
      unfold IsTrail at h
      omega
  | [w] =>
    rw [List.cons_append, List.nil_append] at heq
    simp only [List.cons.injEq] at heq
    obtain ⟨rfl, rfl, rfl⟩ := heq
    rcases h with ⟨h, -⟩ | ⟨-, h⟩
    · unfold IsLead at h
      unfold IsTrail at hv
      omega
    · exact absurd hu (h u rfl)
  | w :: y :: front =>
    obtain ⟨-, heq⟩ := List.cons.inj heq
    obtain ⟨-, rfl⟩ := List.cons.inj heq
    refine ⟨front, x, back, rfl, h.imp_right ?_⟩
    rintro ⟨hx, hfront⟩
    refine ⟨hx, fun z hz => hfront z ?_⟩
    rw [List.getLast?_cons, List.getLast?_cons, Option.mem_def.1 hz]
    rfl

theorem matchesRow_utf16Table_iff (q : List UChar) : MatchesRow utf16Table q ↔
    (∃ u, q = [u] ∧ ¬ IsLead u ∧ ¬ IsTrail u) ∨ ∃ u v, q = [u, v] ∧ IsLead u ∧ IsTrail v := by
  unfold IsLead IsTrail
  match q with
  | [] => simp [MatchesRow, utf16Table]
  | [u] =>
    have hu := u.toNat_lt
    simp [MatchesRow, utf16Table, UInt16.le_iff_toNat_le]
    omega
  | [u, v] => simp [MatchesRow, utf16Table, UInt16.le_iff_toNat_le]
  | u :: v :: w :: q => simp [MatchesRow, utf16Table]

theorem splits_append {q units : List UChar} (hq : MatchesRow utf16Table q) (h : Splits utf16Table units) :
    Splits utf16Table (q ++ units) := by
  obtain ⟨sequences, rfl, hsequences⟩ := h
  exact ⟨q :: sequences, rfl, List.forall_mem_cons.2 ⟨hq, hsequences⟩⟩

theorem splits_of_paired : ∀ {units : List UChar}, ¬ HasUnpairedSurrogate units → Splits utf16Table units
  | [], _ => ⟨[], rfl, List.forall_mem_nil _⟩
  | [u], h => by
    have hlead : ¬ IsLead u := fun hu => h ⟨[], u, [], rfl, .inl ⟨hu, nofun⟩⟩
    have htrail : ¬ IsTrail u := fun hu => h ⟨[], u, [], rfl, .inr ⟨hu, nofun⟩⟩
    exact splits_append ((matchesRow_utf16Table_iff [u]).2 (.inl ⟨u, rfl, hlead, htrail⟩)) ⟨[], rfl, List.forall_mem_nil _⟩
  | u :: v :: units, h => by
    have htrail : ¬ IsTrail u := fun hu => h ⟨[], u, v :: units, rfl, .inr ⟨hu, nofun⟩⟩
    by_cases hlead : IsLead u
    · have hv : IsTrail v := by
        by_contra hv
        refine h ⟨[], u, v :: units, rfl, .inl ⟨hlead, fun w hw => ?_⟩⟩
        obtain rfl : v = w := Option.some.inj hw
        exact hv
      have hpair : ∀ w ∈ [u, v].getLast?, ¬ IsLead w := by
        intro w hw hlead'
        obtain rfl : v = w := Option.some.inj hw
        unfold IsLead at hlead'
        unfold IsTrail at hv
        omega
      exact splits_append ((matchesRow_utf16Table_iff [u, v]).2 (.inr ⟨u, v, rfl, hlead, hv⟩))
        (splits_of_paired fun hunits => h (hunits.append hpair))
    · have hunit : ∀ w ∈ [u].getLast?, ¬ IsLead w := by
        intro w hw
        obtain rfl : u = w := Option.some.inj hw
        exact hlead
      exact splits_append ((matchesRow_utf16Table_iff [u]).2 (.inl ⟨u, rfl, hlead, htrail⟩))
        (splits_of_paired fun hunits => h (hunits.append hunit))

/-- **Units of UTF-16 are well-formed when every surrogate is part of a pair.** -/
theorem splits_utf16Table_iff_paired (units : List UChar) :
    Splits utf16Table units ↔ ¬ HasUnpairedSurrogate units := by
  refine ⟨?_, splits_of_paired⟩
  rintro ⟨sequences, rfl, hsequences⟩
  induction sequences with
  | nil =>
    rintro ⟨front, u, back, heq, -⟩
    cases front <;> cases heq
  | cons q sequences ih =>
    have hrest := ih fun q hq => hsequences q (List.mem_cons_of_mem _ hq)
    obtain ⟨u, rfl, hlead, htrail⟩ | ⟨u, v, rfl, hlead, htrail⟩ :=
      (matchesRow_utf16Table_iff q).1 (hsequences q List.mem_cons_self)
    · exact fun h => hrest (h.of_cons hlead htrail)
    · exact fun h => hrest (h.of_pair hlead htrail)

/-! ## Readings of a text -/

/-- `character` is one of those that stay escaped. -/
def Reserved (doNotUnescape : List UChar) (character : Nat) : Prop := ∃ u ∈ doNotUnescape, u.toNat = character

variable (doNotUnescape : List UChar)

/-- The text stands for the units: characters other than `%` for themselves, escapes for their character, and escapes of
reserved characters for themselves. -/
inductive Decodes : List UChar → List UChar → Prop
  | nil : Decodes [] []
  | unit {c : UChar} {text out : List UChar} (hc : c ≠ 0x25) (h : Decodes text out) : Decodes (c :: text) (c :: out)
  | escape {text out : List UChar} {character charLen : Nat} (hat : IsCharacterAt text character charLen)
      (hfree : ¬ Reserved doNotUnescape character) (h : Decodes (text.drop charLen) out) :
      Decodes text (encodeUTF16 character ++ out)
  | reserved {text out : List UChar} {character charLen : Nat} (hat : IsCharacterAt text character charLen)
      (hreserved : Reserved doNotUnescape character) (h : Decodes (text.drop charLen) out) :
      Decodes text (text.take charLen ++ out)

/-- Somewhere after characters and escapes there is a `%` with no escape of a character. -/
inductive Malformed : List UChar → Prop
  | percent {text : List UChar} (h : ∀ character charLen, ¬ IsCharacterAt (0x25 :: text) character charLen) :
      Malformed (0x25 :: text)
  | unit {c : UChar} {text : List UChar} (hc : c ≠ 0x25) (h : Malformed text) : Malformed (c :: text)
  | escape {text : List UChar} {character charLen : Nat} (hat : IsCharacterAt text character charLen)
      (h : Malformed (text.drop charLen)) : Malformed text

/-- There is an escape at a `%` only. -/
theorem IsCharacterAt.head {text : List UChar} {character charLen : Nat} (h : IsCharacterAt text character charLen) :
    text[0]? = some 0x25 := by
  obtain ⟨-, -, escaped, back, rfl, h⟩ := h
  obtain ⟨byte, bytes, hencode⟩ := List.exists_cons_of_ne_nil (encodeUTF8_ne_nil character)
  rw [hencode] at h
  cases h with
  | cons hx hy h => rfl

/-- There is one character at a `%`. -/
theorem IsCharacterAt.unique {text : List UChar} {character charLen character' charLen' : Nat}
    (h : IsCharacterAt text character charLen) (h' : IsCharacterAt text character' charLen') :
    character = character' ∧ charLen = charLen' := by
  obtain ⟨result, -, hiff⟩ := readCharacter_spec h.head
  rw [List.drop_zero] at hiff
  exact Prod.mk.inj (Option.some.inj (((hiff _ _).2 h).symm.trans ((hiff _ _).2 h')))

theorem IsCharacterAt.length_pos {text : List UChar} {character charLen : Nat}
    (h : IsCharacterAt text character charLen) : 0 < charLen ∧ charLen ≤ text.length := by
  have hpos := List.length_pos_of_ne_nil (encodeUTF8_ne_nil character)
  have hle := h.2.2.length_le
  have hcharLen := h.2.1
  omega

variable {doNotUnescape} {text out : List UChar}

/-- **A text has one reading.** -/
theorem Decodes.unique (h : Decodes doNotUnescape text out) {out' : List UChar} (h' : Decodes doNotUnescape text out') :
    out = out' := by
  induction h generalizing out' with
  | nil =>
    cases h' with
    | nil => rfl
    | escape hat | reserved hat => exact nomatch hat.head
  | unit hc h ih =>
    cases h' with
    | unit hc' h' => rw [ih h']
    | escape hat | reserved hat => exact absurd (Option.some.inj hat.head) hc
  | escape hat hfree h ih =>
    cases h' with
    | nil => exact nomatch hat.head
    | unit hc => exact absurd (Option.some.inj hat.head) hc
    | escape hat' hfree' h' =>
      obtain ⟨rfl, rfl⟩ := hat.unique hat'
      rw [ih h']
    | reserved hat' hreserved =>
      obtain ⟨rfl, rfl⟩ := hat.unique hat'
      exact absurd hreserved hfree
  | reserved hat hreserved h ih =>
    cases h' with
    | nil => exact nomatch hat.head
    | unit hc => exact absurd (Option.some.inj hat.head) hc
    | escape hat' hfree =>
      obtain ⟨rfl, rfl⟩ := hat.unique hat'
      exact absurd hreserved hfree
    | reserved hat' hreserved' h' =>
      obtain ⟨rfl, rfl⟩ := hat.unique hat'
      rw [ih h']

/-- **A malformed text has none.** -/
theorem Decodes.not_malformed (h : Decodes doNotUnescape text out) : ¬ Malformed text := by
  induction h with
  | nil =>
    intro h
    cases h with
    | escape hat => exact nomatch hat.head
  | unit hc h ih =>
    intro h
    cases h with
    | percent => exact hc rfl
    | unit hc' h => exact ih h
    | escape hat => exact absurd (Option.some.inj hat.head) hc
  | escape hat hfree h ih | reserved hat hreserved h ih =>
    intro h
    cases h with
    | percent hnone => exact hnone _ _ hat
    | unit hc => exact absurd (Option.some.inj hat.head) hc
    | escape hat' h =>
      obtain ⟨rfl, rfl⟩ := hat.unique hat'
      exact ih h

/-! ## The loop of `decode` -/

theorem Decodes.of_unit {c : UChar} (hc : c ≠ 0x25) (h : Decodes doNotUnescape (c :: text) out) :
    ∃ rest, out = c :: rest ∧ Decodes doNotUnescape text rest := by
  cases h with
  | unit _ h => exact ⟨_, rfl, h⟩
  | escape hat | reserved hat => exact absurd (Option.some.inj hat.head) hc

theorem Malformed.of_unit {c : UChar} (hc : c ≠ 0x25) (h : Malformed (c :: text)) : Malformed text := by
  cases h with
  | percent => exact absurd rfl hc
  | unit _ h => exact h
  | escape hat => exact absurd (Option.some.inj hat.head) hc

theorem ne_percent_of_isASCIIHexDigit {c : UChar} (h : isASCIIHexDigit c = true) : c ≠ 0x25 := by
  rintro rfl
  exact absurd h (by decide)

variable {characters : List UChar} {k : Nat}

theorem decodeStep_unit {c : UChar} (hget : characters[k]? = some c) (hc : c ≠ 0x25) (length : Int) (strict : Bool) :
    decodeStep characters length doNotUnescape strict k = some (.ok ([c], 1)) := by
  rw [decodeStep, hget, Option.bind_eq_bind, Option.bind_some, if_pos hc]
  rfl

/-- Bits put below a number whose low bits are clear. -/
theorem or_eq_add_of_eq {high low i a : Nat} (hhigh : high = 2 ^ i * a) (hlow : low < 2 ^ i) :
    high ||| low = high + low := by
  rw [hhigh, Nat.two_pow_add_eq_or_of_lt hlow]

theorem highSurrogate_eq {character : Nat} (hhigh : character < 0x110000) :
    0xD800 ||| (character - 0x10000) >>> 10 = 0xD800 + (character - 0x10000) / 0x400 := by
  rw [Nat.shiftRight_eq_div_pow]
  apply or_eq_add_of_eq (i := 11) (a := 27) (by norm_num)
  rw [Nat.div_lt_iff_lt_mul (by norm_num)]
  omega

theorem lowSurrogate_eq {character : Nat} (hlow : 0x10000 ≤ character) :
    0xDC00 ||| ((character - 0x10000) &&& 0x3FF) = 0xDC00 + character % 0x400 := by
  have hmod : (character - 0x10000) &&& 0x3FF = character % 0x400 := by
    rw [Nat.and_two_pow_sub_one_eq_mod _ 10]
    omega
  rw [hmod]
  exact or_eq_add_of_eq (i := 10) (a := 55) (by norm_num) (Nat.mod_lt _ (by norm_num))

theorem surrogates_of_supplementary {character : Nat} (hlow : 0x10000 ≤ character) (hhigh : character < 0x110000) :
    ∃ high low, surrogates character = ([high], low) ∧ encodeUTF16 character = [high, low] ∧ 128 ≤ low.toNat := by
  refine ⟨UInt16.ofNat (0xD800 + (character - 0x10000) / 0x400), UInt16.ofNat (0xDC00 + character % 0x400), ?_, ?_, ?_⟩
  · rw [surrogates, if_pos hlow, highSurrogate_eq hhigh, lowSurrogate_eq hlow]
  · rw [encodeUTF16, if_neg (by omega)]
  · rw [UInt16.toNat_ofNat_of_lt' (show _ < 65536 by omega)]
    omega

theorem surrogates_of_basic {character : Nat} (h : character < 0x10000) :
    ∃ u, surrogates character = ([], u) ∧ encodeUTF16 character = [u] ∧ u.toNat = character := by
  refine ⟨UInt16.ofNat character, ?_, ?_, UInt16.toNat_ofNat_of_lt' h⟩
  · rw [surrogates, if_neg (by omega)]
  · rw [encodeUTF16, if_pos h]

/-- **The step at an escape**, which leaves the escape when the character is reserved. -/
theorem decodeStep_escape (hset : ∀ u ∈ doNotUnescape, u ≠ 0 ∧ u.toNat < 128) {character charLen : Nat}
    (hat : IsCharacterAt (characters.drop k) character charLen) (strict : Bool) :
    (Reserved doNotUnescape character ∧
      decodeStep characters characters.length doNotUnescape strict k = some (.ok ([0x25], 1))) ∨
    (¬ Reserved doNotUnescape character ∧
      decodeStep characters characters.length doNotUnescape strict k = some (.ok (encodeUTF16 character, charLen))) := by
  have hpercent : characters[k]? = some 0x25 := by
    rw [← hat.head, List.getElem?_drop, Nat.add_zero]
  obtain ⟨result, hresult, hiff⟩ := readCharacter_spec hpercent
  obtain rfl := (hiff character charLen).2 hat
  have hscalar := hat.1
  unfold IsScalar at hscalar
  by_cases hlarge : character < 0x10000
  · obtain ⟨u, hsurrogates, hencode, hvalue⟩ := surrogates_of_basic hlarge
    have hreserved : Reserved doNotUnescape character ↔ u ∈ doNotUnescape := by
      constructor
      · rintro ⟨v, hv, hvalue'⟩
        rwa [← UInt16.toNat.inj (hvalue'.trans hvalue.symm)]
      · exact fun h => ⟨u, h, hvalue⟩
    rw [hreserved, hencode]
    by_cases hmem : u ∈ doNotUnescape
    · obtain ⟨hne, hlt⟩ := hset u hmem
      have hsmall : ¬ u ≥ 128 := by
        rw [ge_iff_le, UInt16.le_iff_toNat_le]
        exact Nat.not_le_of_lt hlt
      have happend : appendUnescaped doNotUnescape u charLen = ([0x25], 1) := by
        rw [appendUnescaped, if_neg (by simp [hne, hmem, UInt16.not_le.1 hsmall])]
      exact .inl ⟨hmem, by simp [decodeStep, hpercent, hresult, hsurrogates, happend]⟩
    · have happend : appendUnescaped doNotUnescape u charLen = ([u], charLen) := if_pos (.inr (.inr hmem))
      exact .inr ⟨hmem, by simp [decodeStep, hpercent, hresult, hsurrogates, happend]⟩
  · obtain ⟨high, low, hsurrogates, hencode, hvalue⟩ := surrogates_of_supplementary (Nat.le_of_not_lt hlarge) (by omega)
    have hnot : ¬ Reserved doNotUnescape character := by
      rintro ⟨u, hu, rfl⟩
      have := (hset u hu).2
      omega
    have happend : appendUnescaped doNotUnescape low charLen = ([low], charLen) :=
      if_pos (.inr (.inl (UInt16.le_iff_toNat_le.2 hvalue)))
    refine .inr ⟨hnot, ?_⟩
    rw [hencode]
    simp [decodeStep, hpercent, hresult, hsurrogates, happend]

theorem decodeStep_error (hpercent : characters[k]? = some 0x25)
    (hnone : ∀ character charLen, ¬ IsCharacterAt (characters.drop k) character charLen) :
    decodeStep characters characters.length doNotUnescape true k = some (.error ⟨"URI error"⟩) := by
  obtain ⟨result, hresult, hiff⟩ := readCharacter_spec hpercent
  cases result with
  | none => simp [decodeStep, hpercent, hresult]
  | some found => exact absurd ((hiff found.1 found.2).1 rfl) (hnone _ _)

/-- What the loop makes of a text. -/
def Outcome (doNotUnescape text : List UChar) (builder : JSStringBuilder) (result : Except URIError JSStringBuilder) : Prop :=
  (∃ out final, result = .ok final ∧ final.build.characters = builder.build.characters ++ out ∧
    Decodes doNotUnescape text out) ∨ (result = .error ⟨"URI error"⟩ ∧ Malformed text)

theorem Outcome.unit {c : UChar} (hc : c ≠ 0x25) {builder : JSStringBuilder} {result : Except URIError JSStringBuilder}
    (h : Outcome doNotUnescape text ([c].foldl JSStringBuilder.append builder) result) :
    Outcome doNotUnescape (c :: text) builder result := by
  rcases h with ⟨out, final, rfl, hfinal, h⟩ | ⟨rfl, h⟩
  · refine .inl ⟨c :: out, final, rfl, ?_, .unit hc h⟩
    rw [hfinal, JSStringBuilder.characters_foldl_append, List.append_assoc]
    rfl
  · exact .inr ⟨rfl, .unit hc h⟩

theorem Outcome.escape {character charLen : Nat} (hat : IsCharacterAt text character charLen)
    (hfree : ¬ Reserved doNotUnescape character) {builder : JSStringBuilder}
    {result : Except URIError JSStringBuilder} (h : Outcome doNotUnescape (text.drop charLen)
      ((encodeUTF16 character).foldl JSStringBuilder.append builder) result) :
    Outcome doNotUnescape text builder result := by
  rcases h with ⟨out, final, rfl, hfinal, h⟩ | ⟨rfl, h⟩
  · refine .inl ⟨encodeUTF16 character ++ out, final, rfl, ?_, .escape hat hfree h⟩
    rw [hfinal, JSStringBuilder.characters_foldl_append, List.append_assoc]
  · exact .inr ⟨rfl, .escape hat h⟩

theorem Outcome.reserved {character charLen : Nat} (hat : IsCharacterAt text character charLen)
    (hascii : character < 128) (hreserved : Reserved doNotUnescape character) {builder : JSStringBuilder}
    {result : Except URIError JSStringBuilder} (h : Outcome doNotUnescape (text.drop 1)
      ([0x25].foldl JSStringBuilder.append builder) result) :
    Outcome doNotUnescape text builder result := by
  have hencode : encodeUTF8 character = [UInt8.ofNat character] := by
    rw [encodeUTF8, if_pos hascii]
  obtain ⟨hscalar, hcharLen, hstarts⟩ := id hat
  rw [hencode] at hcharLen hstarts
  have hlength := hstarts.length_le
  rw [List.length_singleton] at hcharLen hlength
  obtain rfl : charLen = 3 := hcharLen
  match text, hlength with
  | c :: x :: y :: text, _ =>
    obtain ⟨rfl, ⟨hx, hy⟩, -⟩ := startsWith_cons_iff.1 hstarts
    have hx' := ne_percent_of_isASCIIHexDigit hx
    have hy' := ne_percent_of_isASCIIHexDigit hy
    rcases h with ⟨out, final, rfl, hfinal, h⟩ | ⟨rfl, h⟩
    · obtain ⟨out', rfl, hdigit⟩ := h.of_unit hx'
      obtain ⟨out'', rfl, htext⟩ := hdigit.of_unit hy'
      refine .inl ⟨0x25 :: x :: y :: out'', final, rfl, ?_, .reserved hat hreserved htext⟩
      rw [hfinal, JSStringBuilder.characters_foldl_append, List.append_assoc]
      rfl
    · exact .inr ⟨rfl, .escape hat ((h.of_unit hx').of_unit hy')⟩

/-- **The loop reads the text, or finds it malformed.** -/
theorem decodeLoop_spec (hset : ∀ u ∈ doNotUnescape, u ≠ 0 ∧ u.toNat < 128) : ∀ (fuel k : Nat) (builder : JSStringBuilder),
    k ≤ characters.length → characters.length < fuel + k →
    ∃ result, decodeLoop characters characters.length doNotUnescape true fuel k builder = some result ∧
      Outcome doNotUnescape (characters.drop k) builder result
  | 0, k, builder, hk, hfuel => by omega
  | fuel + 1, k, builder, hk, hfuel => by
    by_cases hend : k < characters.length
    swap
    · refine ⟨.ok builder, ?_, .inl ⟨[], builder, rfl, (List.append_nil _).symm, ?_⟩⟩
      · rw [decodeLoop, if_neg (by omega)]
      · rw [List.drop_eq_nil_of_le (Nat.le_of_not_lt hend)]
        exact .nil
    have hget := List.getElem?_eq_getElem hend
    have hdrop := List.drop_eq_getElem_cons hend
    -- what the loop does after a step
    have hloop : ∀ {units : List UChar} {moved : Nat}, 0 < moved → k + moved ≤ characters.length →
        decodeStep characters characters.length doNotUnescape true k = some (.ok (units, moved)) →
        ∃ result, decodeLoop characters characters.length doNotUnescape true (fuel + 1) k builder = some result ∧
          Outcome doNotUnescape (characters.drop (k + moved)) (units.foldl JSStringBuilder.append builder) result := by
      intro units moved hpos hmoved hstep
      obtain ⟨result, hresult, houtcome⟩ :=
        decodeLoop_spec hset fuel (k + moved) (units.foldl JSStringBuilder.append builder) hmoved (by omega)
      refine ⟨result, ?_, houtcome⟩
      rw [decodeLoop, if_pos (by omega), hstep]
      exact hresult
    by_cases hpercent : characters[k] = 0x25
    · by_cases hat : ∃ character charLen, IsCharacterAt (characters.drop k) character charLen
      · obtain ⟨character, charLen, hat⟩ := hat
        obtain ⟨hpos, hle⟩ := hat.length_pos
        rw [List.length_drop] at hle
        obtain ⟨hreserved, hstep⟩ | ⟨hfree, hstep⟩ := decodeStep_escape hset hat true
        · obtain ⟨result, hresult, houtcome⟩ := hloop Nat.one_pos hend hstep
          obtain ⟨u, hu, hvalue⟩ := id hreserved
          rw [← List.drop_drop] at houtcome
          exact ⟨result, hresult, houtcome.reserved hat (hvalue ▸ (hset u hu).2) hreserved⟩
        · obtain ⟨result, hresult, houtcome⟩ := hloop hpos (by omega) hstep
          rw [← List.drop_drop] at houtcome
          exact ⟨result, hresult, houtcome.escape hat hfree⟩
      · have hnone : ∀ character charLen, ¬ IsCharacterAt (characters.drop k) character charLen :=
          fun character charLen h => hat ⟨character, charLen, h⟩
        refine ⟨.error ⟨"URI error"⟩, ?_, .inr ⟨rfl, ?_⟩⟩
        · rw [decodeLoop, if_pos (by omega), decodeStep_error (hpercent ▸ hget) hnone]
          rfl
        · rw [hdrop, hpercent] at hnone ⊢
          exact .percent hnone
    · obtain ⟨result, hresult, houtcome⟩ := hloop Nat.one_pos hend (decodeStep_unit hget hpercent _ _)
      rw [hdrop]
      exact ⟨result, hresult, houtcome.unit hpercent⟩

end WebKit.JSC
