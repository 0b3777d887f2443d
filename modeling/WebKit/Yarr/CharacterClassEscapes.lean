import WebKit.Yarr.YarrParserNumbers

/-!
# Escapes in a character class

`ClassEscape text item rest`: the escape whose text behind the backslash begins `text` stands for `item`, and `rest`
follows it. The first constructors are the escapes of the language, the others are texts that the language does not
allow and the parser reads in the way of other engines. Every text is an escape (`exists_classEscape`) and `parseEscape`
reads it as that escape (`parseEscape_eq`, `parseEscape_iff`).
-/

namespace WebKit.Yarr

open WebKit.WTF

/-- An atom of a character class: an unescaped hyphen, another character or an escaped one, or a class. -/
inductive ClassItem
  | hyphen
  | char (c : UChar)
  | builtIn (classID : BuiltInCharacterClassID) (invert : Bool)
  deriving DecidableEq

/-! ## Values of digits -/

/-- The value of a hexadecimal digit. -/
def hexDigitValue (c : UChar) : Nat :=
  if c.toNat ≤ 0x39 then c.toNat - 0x30 else if c.toNat ≤ 0x46 then c.toNat - 0x37 else c.toNat - 0x57

/-- The value of hexadecimal digits behind a number. -/
def hexValueFrom (value : Nat) (digits : List UChar) : Nat := digits.foldl (fun n c => n * 16 + hexDigitValue c) value

/-- The value of octal digits behind a number. -/
def octalValueFrom (value : Nat) (digits : List UChar) : Nat := digits.foldl (fun n c => n * 8 + digitValue c) value

def hexValue : List UChar → Nat := hexValueFrom 0

def octalValue : List UChar → Nat := octalValueFrom 0

/-- The text begins with `count` hexadecimal digits. -/
def StartsWithHex (count : Nat) (text : List UChar) : Prop :=
  ∃ digits rest, text = digits ++ rest ∧ digits.length = count ∧ ∀ c ∈ digits, isASCIIHexDigit c = true

/-- The text begins with a character of `p`. -/
def StartsWith (p : UChar → Bool) (text : List UChar) : Prop := ∃ c rest, text = c :: rest ∧ p c = true

/-- The octal digits that are read behind a number, in front of `rest`: a digit is read while the number is less than
32. -/
structure OctalRun (value : Nat) (digits rest : List UChar) : Prop where
  octal : ∀ c ∈ digits, isASCIIOctalDigit c = true
  fits : ∀ digits' c, digits' ++ [c] <+: digits → octalValueFrom value digits' < 32
  ends : 32 ≤ octalValueFrom value digits ∨ ¬StartsWith isASCIIOctalDigit rest

/-! ## Escapes -/

/-- The escapes of one letter. -/
def namedEscapes : List (Char × ClassItem) :=
  [('b', .char 8), ('t', .char 9), ('n', .char 10), ('v', .char 11), ('f', .char 12), ('r', .char 13),
    ('d', .builtIn .digitClassID false), ('D', .builtIn .digitClassID true), ('s', .builtIn .spaceClassID false),
    ('S', .builtIn .spaceClassID true), ('w', .builtIn .wordClassID false), ('W', .builtIn .wordClassID true)]

/-- The characters that do not stand for themselves behind a backslash. -/
def escapeLetters : List Char :=
  namedEscapes.map Prod.fst ++ ['c', 'x', 'u', '0', '1', '2', '3', '4', '5', '6', '7', '8', '9']

/-- The text behind a backslash in a character class, what it stands for and what follows. -/
inductive ClassEscape : List UChar → ClassItem → List UChar → Prop
  | named {letter : Char} {item : ClassItem} (h : (letter, item) ∈ namedEscapes) (rest : List UChar) :
    ClassEscape (ascii letter :: rest) item rest
  | control {letter : UChar} (h : isASCIIAlpha letter = true) (rest : List UChar) :
    ClassEscape (ascii 'c' :: letter :: rest) (.char (letter % 32)) rest
  | hex {digits : List UChar} (h : ∀ c ∈ digits, isASCIIHexDigit c = true) (hlength : digits.length = 2)
    (rest : List UChar) : ClassEscape (ascii 'x' :: (digits ++ rest)) (.char (.ofNat (hexValue digits))) rest
  | unicode {digits : List UChar} (h : ∀ c ∈ digits, isASCIIHexDigit c = true) (hlength : digits.length = 4)
    (rest : List UChar) : ClassEscape (ascii 'u' :: (digits ++ rest)) (.char (.ofNat (hexValue digits))) rest
  | identity {c : UChar} (h : ∀ letter ∈ escapeLetters, c ≠ ascii letter) (rest : List UChar) :
    ClassEscape (c :: rest) (.char c) rest
  -- octal digits, of which `\0` alone is an escape of the language
  | octal {digits rest : List UChar} (h : OctalRun 0 digits rest) (hne : digits ≠ []) :
    ClassEscape (digits ++ rest) (.char (.ofNat (octalValue digits))) rest
  -- a digit that is not octal, in front of which the backslash stands for itself
  | notOctal {c : UChar} (h : c = ascii '8' ∨ c = ascii '9') (rest : List UChar) :
    ClassEscape (c :: rest) (.char (ascii '\\')) (c :: rest)
  -- a digit or `_` as a control letter
  | controlDigit {c : UChar} (h : isASCIIDigit c = true ∨ c = ascii '_') (rest : List UChar) :
    ClassEscape (ascii 'c' :: c :: rest) (.char (c % 32)) rest
  | notControl {rest : List UChar} (h : ¬StartsWith (isControlLetter true) rest) :
    ClassEscape (ascii 'c' :: rest) (.char (ascii '\\')) (ascii 'c' :: rest)
  | notHex {rest : List UChar} (h : ¬StartsWithHex 2 rest) : ClassEscape (ascii 'x' :: rest) (.char (ascii 'x')) rest
  | notUnicode {rest : List UChar} (h : ¬StartsWithHex 4 rest) :
    ClassEscape (ascii 'u' :: rest) (.char (ascii 'u')) rest

/-- What the delegate is told of an escaped atom. -/
def ClassItem.escape : ClassItem → Escape
  | hyphen => .atomPatternCharacter (ascii '-')
  | char c => .atomPatternCharacter c
  | builtIn classID invert => .atomBuiltInCharacterClass classID invert

/-! ## Digits -/

variable {c : UChar} {text rest digits : List UChar} {item : ClassItem} {n : UInt32} {limit : UInt32}

theorem hexDigitValue_lt (h : isASCIIHexDigit c = true) : hexDigitValue c < 16 := by
  simp only [isASCIIHexDigit, isASCIIDigit, Bool.or_eq_true, decide_eq_true_eq, UInt16.le_iff_toNat_le] at h
  have h₀ : (ascii '0').toNat = 0x30 ∧ (ascii '9').toNat = 0x39 ∧ (ascii 'a').toNat = 0x61 ∧ (ascii 'f').toNat = 0x66 ∧
      (ascii 'A').toNat = 0x41 ∧ (ascii 'F').toNat = 0x46 := by decide
  unfold hexDigitValue
  split_ifs <;> omega

theorem toASCIIHexValue_toNat (h : isASCIIHexDigit c = true) : (toASCIIHexValue c).toNat = hexDigitValue c := by
  simp only [isASCIIHexDigit, isASCIIDigit, Bool.or_eq_true, decide_eq_true_eq, UInt16.le_iff_toNat_le] at h
  have h₀ : (ascii '0').toNat = 0x30 ∧ (ascii '9').toNat = 0x39 ∧ (ascii 'a').toNat = 0x61 ∧ (ascii 'f').toNat = 0x66 ∧
      (ascii 'A').toNat = 0x41 ∧ (ascii 'F').toNat = 0x46 := by decide
  unfold toASCIIHexValue hexDigitValue digit
  simp only [UInt16.lt_iff_toNat_lt, UInt16.le_iff_toNat_le, apply_ite UInt32.toNat, UInt32.toNat_add,
    UInt16.toNat_toUInt32, UInt16.toNat_sub, UInt32.reduceToNat]
  split_ifs <;> omega

theorem hex_step (h : isASCIIHexDigit c = true) (hn : n.toNat < 2 ^ 12) :
    (n <<< 4 ||| toASCIIHexValue c).toNat = n.toNat * 16 + hexDigitValue c := by
  have hlt := hexDigitValue_lt h
  have hshift : (n <<< 4).toNat = n.toNat <<< 4 := by
    rw [UInt32.toNat_shiftLeft, show (4 : UInt32).toNat % 32 = 4 from rfl, Nat.shiftLeft_eq]
    omega
  rw [UInt32.toNat_or, hshift, toASCIIHexValue_toNat h, ← Nat.shiftLeft_add_eq_or_of_lt hlt, Nat.shiftLeft_eq]

theorem tryConsumeHex_digits (h : ∀ c ∈ digits, isASCIIHexDigit c = true)
    (hn : (n.toNat + 1) * 16 ^ digits.length ≤ 2 ^ 16) :
    ∃ m : UInt32, tryConsumeHex n digits.length (digits ++ rest) = some (m, rest) ∧
      m.toNat = hexValueFrom n.toNat digits ∧ m.toNat < 2 ^ 16 := by
  induction digits generalizing n with
  | nil => exact ⟨n, rfl, rfl, by simp at hn; omega⟩
  | cons c digits ih =>
    rw [List.forall_mem_cons] at h
    have hlt := hexDigitValue_lt h.1
    rw [List.length_cons, Nat.pow_succ', ← Nat.mul_assoc] at hn
    have hpow : 1 ≤ 16 ^ digits.length := Nat.one_le_pow _ _ (by decide)
    have hsmall : n.toNat < 2 ^ 12 := by
      have hle := (Nat.mul_le_mul_left ((n.toNat + 1) * 16) hpow).trans hn
      omega
    have hstep := hex_step h.1 hsmall
    obtain ⟨m, hm, hvalue, hbound⟩ := ih h.2 (n := n <<< 4 ||| toASCIIHexValue c)
      ((Nat.mul_le_mul_right _ (by omega)).trans hn)
    refine ⟨m, ?_, ?_, hbound⟩
    · rw [List.length_cons, List.cons_append, tryConsumeHex, if_pos h.1]
      exact hm
    · rw [hvalue, hstep]
      rfl

/-- Fewer digits are not read. -/
theorem tryConsumeHex_eq_none {count : Nat} (h : ¬StartsWithHex count text) : tryConsumeHex n count text = none := by
  induction count generalizing n text with
  | zero => exact absurd ⟨[], text, rfl, rfl, by simp⟩ h
  | succ count ih =>
    cases text with
    | nil => rfl
    | cons c rest =>
      rw [tryConsumeHex]
      split
      · rename_i hc
        refine ih ?_
        rintro ⟨digits, rest', heq, hlength, hdigits⟩
        refine h ⟨c :: digits, rest', ?_, ?_, ?_⟩
        · rw [heq, List.cons_append]
        · rw [List.length_cons, hlength]
        · exact List.forall_mem_cons.2 ⟨hc, hdigits⟩
      · rfl

theorem parseHexEscape_digits (letter : UChar) (h : ∀ c ∈ digits, isASCIIHexDigit c = true)
    (hlength : digits.length ≤ 4) :
    parseHexEscape letter digits.length (digits ++ rest) =
      (.atomPatternCharacter (.ofNat (hexValue digits)), rest) := by
  have hpow : 16 ^ digits.length ≤ 16 ^ 4 := Nat.pow_le_pow_right (by decide) hlength
  obtain ⟨m, hm, hvalue, hlt⟩ := tryConsumeHex_digits (n := 0) h (by simpa using hpow)
  rw [parseHexEscape, hm]
  have hcharacter : m.toUInt16 = .ofNat (hexValue digits) := by
    rw [← UInt16.toNat_inj, UInt32.toNat_toUInt16, UInt16.toNat_ofNat', hvalue]
    rfl
  simp only [hcharacter]

theorem parseHexEscape_none (letter : UChar) {count : Nat} (h : ¬StartsWithHex count text) :
    parseHexEscape letter count text = (.atomPatternCharacter letter, text) := by
  rw [parseHexEscape, tryConsumeHex_eq_none h]

theorem isASCIIOctalDigit_value (h : isASCIIOctalDigit c = true) :
    (digit c).toNat = digitValue c ∧ digitValue c < 8 := by
  rw [isASCIIOctalDigit, decide_eq_true_eq, UInt16.le_iff_toNat_le, UInt16.le_iff_toNat_le] at h
  have h₀ : (ascii '0').toNat = 0x30 ∧ (ascii '7').toNat = 0x37 := by decide
  unfold digit digitValue
  rw [UInt16.toNat_toUInt32, UInt16.toNat_sub]
  omega

theorem octal_step (h : isASCIIOctalDigit c = true) (hn : n < 32) :
    (n * 8 + digit c).toNat = n.toNat * 8 + digitValue c ∧ n.toNat * 8 + digitValue c < 256 := by
  obtain ⟨hvalue, hlt⟩ := isASCIIOctalDigit_value h
  rw [UInt32.lt_iff_toNat_lt, show (32 : UInt32).toNat = 32 from rfl] at hn
  rw [UInt32.toNat_add, UInt32.toNat_mul, hvalue, show (8 : UInt32).toNat = 8 from rfl]
  omega

theorem OctalRun.cons_iff {value : Nat} : OctalRun value (c :: digits) rest ↔
    isASCIIOctalDigit c = true ∧ value < 32 ∧ OctalRun (value * 8 + digitValue c) digits rest := by
  constructor
  · intro h
    have hdigits := List.forall_mem_cons.1 h.octal
    refine ⟨hdigits.1, h.fits [] c (List.prefix_append [c] digits), hdigits.2, fun digits' d hd => ?_, h.ends⟩
    exact h.fits (c :: digits') d (List.cons_prefix_cons.2 ⟨rfl, hd⟩)
  · intro ⟨hc, hvalue, h⟩
    refine ⟨List.forall_mem_cons.2 ⟨hc, h.octal⟩, fun digits' d hd => ?_, h.ends⟩
    cases digits' with
    | nil => exact hvalue
    | cons c' digits' =>
      obtain ⟨rfl, hprefix⟩ := List.cons_prefix_cons.1 hd
      exact h.fits digits' d hprefix

theorem exists_octalRun (value : Nat) (text : List UChar) :
    ∃ digits rest, text = digits ++ rest ∧ OctalRun value digits rest := by
  induction text generalizing value with
  | nil => exact ⟨[], [], rfl, by simp, by simp, Or.inr fun ⟨c, rest, h, _⟩ => by cases h⟩
  | cons c rest ih =>
    by_cases h : value < 32 ∧ isASCIIOctalDigit c = true
    · obtain ⟨digits, rest', rfl, hrun⟩ := ih (value * 8 + digitValue c)
      exact ⟨c :: digits, rest', rfl, OctalRun.cons_iff.2 ⟨h.2, h.1, hrun⟩⟩
    · refine ⟨[], c :: rest, rfl, by simp, by simp, ?_⟩
      rcases not_and_or.1 h with hvalue | hc
      · exact Or.inl (Nat.le_of_not_lt hvalue)
      · exact Or.inr fun ⟨c', rest', heq, hc'⟩ => hc (by cases heq; exact hc')

theorem consumeOctalDigits_run (h : OctalRun n.toNat digits rest) (hn : n.toNat < 256) :
    ∃ m : UInt32, consumeOctalDigits n (digits ++ rest) = (m, rest) ∧ m.toNat = octalValueFrom n.toNat digits ∧
      m.toNat < 256 := by
  induction digits generalizing n with
  | nil =>
    refine ⟨n, ?_, rfl, hn⟩
    cases rest with
    | nil => rfl
    | cons c rest =>
      rw [List.nil_append, consumeOctalDigits, if_neg]
      rintro ⟨hlt, hc⟩
      rcases h.ends with hge | hstarts
      · rw [UInt32.lt_iff_toNat_lt] at hlt
        exact absurd hlt (Nat.not_lt.2 hge)
      · exact hstarts ⟨c, rest, rfl, hc⟩
  | cons c digits ih =>
    obtain ⟨hc, hlt, hrun⟩ := OctalRun.cons_iff.1 h
    have hlt' : n < 32 := UInt32.lt_iff_toNat_lt.2 hlt
    obtain ⟨hstep, hbound⟩ := octal_step hc hlt'
    rw [← hstep] at hrun hbound
    obtain ⟨m, hm, hvalue, hsmall⟩ := ih hrun hbound
    refine ⟨m, ?_, ?_, hsmall⟩
    · rw [List.cons_append, consumeOctalDigits, if_pos ⟨hlt', hc⟩, hm]
    · rw [hvalue, hstep]
      rfl

theorem consumeOctal_run (h : OctalRun 0 digits rest) (hne : digits ≠ []) :
    (consumeOctal (digits ++ rest)).1.toUInt16 = .ofNat (octalValue digits) ∧
      (consumeOctal (digits ++ rest)).2 = rest := by
  cases digits with
  | nil => exact absurd rfl hne
  | cons c digits =>
    obtain ⟨hc, -, hrun⟩ := OctalRun.cons_iff.1 h
    obtain ⟨hdigit, hlt⟩ := isASCIIOctalDigit_value hc
    rw [Nat.zero_mul, Nat.zero_add, ← hdigit] at hrun
    obtain ⟨m, hm, hvalue, hsmall⟩ := consumeOctalDigits_run hrun (by omega)
    rw [List.cons_append, consumeOctal, hm]
    refine ⟨?_, rfl⟩
    rw [← UInt16.toNat_inj, UInt32.toNat_toUInt16, UInt16.toNat_ofNat', hvalue, hdigit]
    congr 1
    rw [octalValue, octalValueFrom, octalValueFrom, List.foldl_cons, Nat.zero_mul, Nat.zero_add]

/-! ## The parser reads escapes -/

theorem parseEscape_named {letter : Char} (h : (letter, item) ∈ namedEscapes) (rest : List UChar) :
    parseEscape true limit (ascii letter :: rest) = some (item.escape, rest) := by
  simp only [namedEscapes, List.mem_cons, Prod.mk.injEq, List.not_mem_nil, or_false] at h
  rcases h with ⟨rfl, rfl⟩ | ⟨rfl, rfl⟩ | ⟨rfl, rfl⟩ | ⟨rfl, rfl⟩ | ⟨rfl, rfl⟩ | ⟨rfl, rfl⟩ | ⟨rfl, rfl⟩ | ⟨rfl, rfl⟩ |
    ⟨rfl, rfl⟩ | ⟨rfl, rfl⟩ | ⟨rfl, rfl⟩ | ⟨rfl, rfl⟩ <;> rfl

theorem letterEscape_digit (h : isASCIIDigit c = true) : letterEscape true c = none := by
  rw [isASCIIDigit, decide_eq_true_eq, UInt16.le_iff_toNat_le, UInt16.le_iff_toNat_le] at h
  have h₀ : (ascii '0').toNat = 0x30 ∧ (ascii '9').toNat = 0x39 := by decide
  have hne : ∀ letter : UChar, 0x39 < letter.toNat → c ≠ letter := by
    rintro letter hletter rfl
    omega
  rw [letterEscape]
  repeat rw [if_neg (hne _ (by decide))]

theorem parseEscape_octalDigit (h : isASCIIOctalDigit c = true) (rest : List UChar) :
    parseEscape true limit (c :: rest) =
      some (.atomPatternCharacter (consumeOctal (c :: rest)).1.toUInt16, (consumeOctal (c :: rest)).2) := by
  have hoctal := h
  rw [isASCIIOctalDigit, decide_eq_true_eq, UInt16.le_iff_toNat_le, UInt16.le_iff_toNat_le] at h
  have h₀ : (ascii '0').toNat = 0x30 ∧ (ascii '1').toNat = 0x31 ∧ (ascii '7').toNat = 0x37 ∧ (ascii '8').toNat = 0x38 ∧
      (ascii '9').toNat = 0x39 := by decide
  have hdigit : isASCIIDigit c = true := by
    rw [isASCIIDigit, decide_eq_true_eq, UInt16.le_iff_toNat_le, UInt16.le_iff_toNat_le]
    omega
  rw [parseEscape, letterEscape_digit hdigit]
  simp only
  by_cases hone : ascii '1' ≤ c ∧ c ≤ ascii '9'
  · have height : ¬ascii '8' ≤ c := by
      rw [UInt16.le_iff_toNat_le]
      omega
    rw [if_pos hone, parseDecimalEscape]
    simp [height]
  · have hzero : c = ascii '0' := by
      rw [UInt16.le_iff_toNat_le, UInt16.le_iff_toNat_le] at hone
      rw [← UInt16.toNat_inj]
      omega
    rw [if_neg hone, if_pos hzero]

theorem not_digit_of_identity (h : ∀ letter ∈ escapeLetters, c ≠ ascii letter) : ¬isASCIIDigit c = true := by
  rw [isASCIIDigit, decide_eq_true_eq, UInt16.le_iff_toNat_le, UInt16.le_iff_toNat_le]
  intro hc
  have h₀ : (ascii '0').toNat = 48 ∧ (ascii '9').toNat = 57 := by decide
  have hdigits : ∀ m < 10, ∃ letter ∈ escapeLetters, (ascii letter).toNat = 48 + m := by decide
  obtain ⟨letter, hletter, hvalue⟩ := hdigits (c.toNat - 48) (by omega)
  refine h letter hletter ?_
  rw [← UInt16.toNat_inj]
  omega

theorem parseEscape_identity (h : ∀ letter ∈ escapeLetters, c ≠ ascii letter) (rest : List UChar) :
    parseEscape true limit (c :: rest) = some (.atomPatternCharacter c, rest) := by
  by_cases hB : c = ascii 'B'
  · subst hB
    rfl
  · have hletter : letterEscape true c = none := by
      rw [letterEscape]
      repeat rw [if_neg (by first | exact hB | exact h _ (by decide))]
    have hdigit := not_digit_of_identity h
    rw [isASCIIDigit, decide_eq_true_eq] at hdigit
    have hone : ¬(ascii '1' ≤ c ∧ c ≤ ascii '9') := fun hc => hdigit ⟨UInt16.le_trans (by decide) hc.1, hc.2⟩
    rw [parseEscape, hletter]
    simp only [if_neg hone, if_neg (h '0' (by decide)), if_neg (h 'c' (by decide)), if_neg (h 'x' (by decide)),
      if_neg (h 'u' (by decide))]

theorem control_mod (c : UChar) : c &&& 0x1f = c % 32 := by
  rw [← UInt16.toNat_inj, UInt16.toNat_and, UInt16.toNat_mod]
  exact Nat.and_two_pow_sub_one_eq_mod c.toNat 5

/-- **The parser reads an escape.** -/
theorem parseEscape_eq (h : ClassEscape text item rest) : parseEscape true limit text = some (item.escape, rest) := by
  cases h with
  | named h => exact parseEscape_named h rest
  | @control letter h =>
    have hcontrol : isControlLetter true letter = true := by simp [isControlLetter, isASCIIAlphanumeric, h]
    show some (parseControlLetter true (letter :: rest)) = _
    rw [parseControlLetter, if_pos hcontrol, control_mod]
    rfl
  | hex h hlength =>
    show some (parseHexEscape (ascii 'x') 2 _) = _
    rw [← hlength, parseHexEscape_digits _ h (by omega)]
    rfl
  | unicode h hlength =>
    show some (parseHexEscape (ascii 'u') 4 _) = _
    rw [← hlength, parseHexEscape_digits _ h (by omega)]
    rfl
  | identity h => exact parseEscape_identity h rest
  | @octal digits _ h hne =>
    cases digits with
    | nil => exact absurd rfl hne
    | cons c digits =>
      obtain ⟨hvalue, hrest⟩ := consumeOctal_run h hne
      rw [List.cons_append] at hvalue hrest ⊢
      rw [parseEscape_octalDigit (OctalRun.cons_iff.1 h).1, hvalue, hrest]
      rfl
  | notOctal h => rcases h with rfl | rfl <;> rfl
  | @controlDigit c h =>
    have hcontrol : isControlLetter true c = true := by
      rcases h with h | h <;> simp [isControlLetter, isASCIIAlphanumeric, h]
    show some (parseControlLetter true (c :: rest)) = _
    rw [parseControlLetter, if_pos hcontrol, control_mod]
    rfl
  | @notControl rest h =>
    show some (parseControlLetter true rest) = _
    cases rest with
    | nil => rfl
    | cons c rest =>
      rw [parseControlLetter, if_neg fun hc => h ⟨c, rest, rfl, hc⟩]
      rfl
  | notHex h =>
    show some (parseHexEscape (ascii 'x') 2 _) = _
    rw [parseHexEscape_none _ h]
    rfl
  | notUnicode h =>
    show some (parseHexEscape (ascii 'u') 4 _) = _
    rw [parseHexEscape_none _ h]
    rfl

theorem exists_controlEscape (rest : List UChar) : ∃ item after, ClassEscape (ascii 'c' :: rest) item after := by
  by_cases h : StartsWith (isControlLetter true) rest
  · obtain ⟨c, rest, rfl, hc⟩ := h
    simp only [isControlLetter, isASCIIAlphanumeric, if_true, Bool.or_eq_true, decide_eq_true_eq] at hc
    rcases hc with (hdigit | halpha) | hunderscore
    · exact ⟨_, _, .controlDigit (Or.inl hdigit) rest⟩
    · exact ⟨_, _, .control halpha rest⟩
    · exact ⟨_, _, .controlDigit (Or.inr hunderscore) rest⟩
  · exact ⟨_, _, .notControl h⟩

/-- **Every text is an escape.** -/
theorem exists_classEscape (c : UChar) (rest : List UChar) : ∃ item after, ClassEscape (c :: rest) item after := by
  by_cases hoctal : isASCIIOctalDigit c = true
  · obtain ⟨digits, after, heq, hrun⟩ := exists_octalRun 0 (c :: rest)
    have hne : digits ≠ [] := by
      rintro rfl
      exact hrun.ends.elim (fun h => absurd h (by decide)) fun h => h ⟨c, rest, heq.symm, hoctal⟩
    rw [heq]
    exact ⟨_, after, .octal hrun hne⟩
  by_cases hidentity : ∀ letter ∈ escapeLetters, c ≠ ascii letter
  · exact ⟨_, rest, .identity hidentity rest⟩
  push Not at hidentity
  obtain ⟨letter, hletter, rfl⟩ := hidentity
  rcases List.mem_append.1 hletter with hnamed | hother
  · obtain ⟨⟨letter, item⟩, hmem, rfl⟩ := List.mem_map.1 hnamed
    exact ⟨item, rest, .named hmem rest⟩
  · simp only [List.mem_cons, List.not_mem_nil, or_false] at hother
    rcases hother with rfl | rfl | rfl | hdigit
    · exact exists_controlEscape rest
    · by_cases h : StartsWithHex 2 rest
      · obtain ⟨digits, after, rfl, hlength, hdigits⟩ := h
        exact ⟨_, after, .hex hdigits hlength after⟩
      · exact ⟨_, rest, .notHex h⟩
    · by_cases h : StartsWithHex 4 rest
      · obtain ⟨digits, after, rfl, hlength, hdigits⟩ := h
        exact ⟨_, after, .unicode hdigits hlength after⟩
      · exact ⟨_, rest, .notUnicode h⟩
    · have height : letter = '8' ∨ letter = '9' := by
        refine Decidable.byContradiction fun hne => hoctal ?_
        rw [not_or] at hne
        simp only [hne.1, hne.2, or_false] at hdigit
        rcases hdigit with rfl | rfl | rfl | rfl | rfl | rfl | rfl | rfl <;> decide
      exact ⟨_, _, .notOctal (height.imp (congrArg ascii) (congrArg ascii)) rest⟩

/-- **What the parser reads is the escape.** -/
theorem parseEscape_iff {escape : Escape} : parseEscape true limit text = some (escape, rest) ↔
    ∃ item : ClassItem, ClassEscape text item rest ∧ item.escape = escape := by
  constructor
  · intro h
    cases text with
    | nil => cases h
    | cons c text =>
      obtain ⟨item, after, hescape⟩ := exists_classEscape c text
      rw [parseEscape_eq hescape, Option.some.injEq, Prod.mk.injEq] at h
      obtain ⟨rfl, rfl⟩ := h
      exact ⟨item, hescape, rfl⟩
  · rintro ⟨item, h, rfl⟩
    exact parseEscape_eq h

end WebKit.Yarr
