import WebKit.JSC.JSRopeStringFill

/-!
# Resolving a rope

Each of the three functions that resolve a rope does so if there is memory for the string it creates
(`Sound.resolveRope_spec`, `Sound.resolveRopeToAtomicString_spec`, `Sound.resolveRopeToExistingAtomicString_spec`). With
a rope resolved, every other string has the text it had (`Spells.of_resolved`). The heap stays sound unless the rope was
flagged as 8-bit, is no more, and is a fiber of another rope that is (`Sound.of_resolved`).
-/

namespace WebKit.JSC.Rope

open WebKit.Lib WebKit.WTF

variable {Address α : Type} {reader : CharacterReader α} {heap : StringHeap Address} {a : Address}
  {strings : List Address}

/-! ## A string that is resolved -/

/-- What a rope with the text becomes. -/
structure Resolved (text : List UChar) (rope string : JSString Address) : Prop where
  length_eq : string.length = rope.length
  exists_value : ∃ impl, string.value = some impl ∧ impl.characters = text ∧ (string.is8Bit = true → impl.is8Bit = true)

section

variable [DecidableEq Address] {string : JSString Address} {text : List UChar}

theorem setString_self : setString heap a string a = string := Function.update_self ..

theorem setString_of_ne {b : Address} (h : b ≠ a) : setString heap a string b = heap b := Function.update_of_ne h ..

/-- **Shared strings stay intact**: what has a text has it with the rope resolved. -/
theorem Spells.of_resolved {strings : List Address} {text' : List UChar} (h : Spells reader16 heap strings text')
    (hrope : (heap a).value = none) (ha : Denotes heap a text) (hresolved : Resolved text (heap a) string) :
    Spells reader16 (setString heap a string) strings text' := by
  obtain ⟨impl', hvalue', hcharacters', -⟩ := hresolved.exists_value
  have hself : ∀ {strings text'}, Spells reader16 (setString heap a string) strings text' →
      Spells reader16 (setString heap a string) (a :: strings) (text ++ text') := by
    intro strings text' h
    rw [← hcharacters']
    refine .resolved (by rw [setString_self, hvalue']) rfl ?_ h
    rw [setString_self, hresolved.length_eq, hcharacters', (ha.cases_rope hrope).1]
  induction h with
  | nil => exact .nil
  | @resolved b impl characters strings text' hvalue hchars hlength _ ih =>
    have hne : b ≠ a := by
      rintro rfl
      exact Option.some_ne_none _ (hvalue.symm.trans hrope)
    have hset : setString heap a string b = heap b := setString_of_ne hne
    rw [← hset] at hvalue hlength
    exact .resolved hvalue hchars hlength ih
  | @substring b base offset impl characters strings text' hvalue hu hbase hchars hlength h ih =>
    by_cases hb : b = a
    · subst hb
      have hb := Spells.substring hvalue hu hbase hchars hlength .nil
      rw [List.append_nil] at hb
      rw [hb.unique ha]
      exact hself ih
    · have hne : base ≠ a := by
        rintro rfl
        exact Option.some_ne_none _ (hbase.symm.trans hrope)
      have hsetBase : setString heap a string base = heap base := setString_of_ne hne
      have hset : setString heap a string b = heap b := setString_of_ne hb
      rw [← hsetBase] at hbase
      rw [← hset] at hvalue hu hlength ⊢
      exact .substring hvalue hu hbase hchars hlength ih
  | @rope b front strings text' hvalue hne hfront hlength h ihfront ih =>
    by_cases hb : b = a
    · subst hb
      have hb := Spells.rope hvalue hne hfront hlength .nil
      rw [List.append_nil] at hb
      rw [hb.unique ha]
      exact hself ih
    · have hset : setString heap a string b = heap b := setString_of_ne hb
      rw [← hset] at hvalue hne hlength ihfront
      exact .rope hvalue hne ihfront hlength ih

/-- **The heap stays sound**, unless the string is no more flagged as 8-bit and a rope is that has it as a fiber. -/
theorem Sound.of_resolved (hs : Sound heap) (hrope : (heap a).value = none) (ha : Denotes heap a text)
    (hresolved : Resolved text (heap a) string)
    (hflag : ∀ b, b ≠ a → (heap b).value = none → (heap b).is8Bit = true → a ∈ (heap b).fibers → string.is8Bit = true) :
    Sound (setString heap a string) := by
  obtain ⟨impl', hvalue', hcharacters', h8⟩ := hresolved.exists_value
  have hne : ∀ b, (setString heap a string b).value = none → b ≠ a := by
    rintro b hb rfl
    rw [setString_self, hvalue'] at hb
    exact Option.some_ne_none _ hb
  refine ⟨fun b hb => ?_, fun b impl hb hb8 => ?_, fun b base offset hb hu hb8 => ?_, fun b hb hb8 c hc => ?_⟩
  · have hba := hne b hb
    rw [setString_of_ne hba] at hb
    obtain ⟨textb, htextb⟩ := hs.denotes b hb
    exact ⟨textb, htextb.of_resolved hrope ha hresolved⟩
  · by_cases hba : b = a
    · subst hba
      rw [setString_self] at hb hb8
      obtain rfl := Option.some.inj (hvalue'.symm.trans hb)
      exact h8 hb8
    · rw [setString_of_ne hba] at hb hb8
      exact hs.resolved8 b impl hb hb8
  · have hba := hne b hb
    rw [setString_of_ne hba] at hb hu hb8
    obtain ⟨textb, htextb⟩ := hs.denotes b hb
    have hbase : base ≠ a := by
      rintro rfl
      rcases (htextb.cases_rope hb).2 with ⟨base', offset', impl, -, hu', hbase, -⟩ | ⟨⟨fiber0, fiber1, fiber2, hu'⟩, -⟩
      · obtain ⟨hbases, -⟩ := RopeUnion.substring.inj (hu.symm.trans hu')
        obtain rfl := Option.some.inj hbases
        exact Option.some_ne_none _ (hbase.symm.trans hrope)
      · cases hu.symm.trans hu'
    rw [setString_of_ne hbase]
    exact hs.substring8 b base offset hb hu hb8
  · have hba := hne b hb
    rw [setString_of_ne hba] at hb hb8 hc
    by_cases hca : c = a
    · subst hca
      rw [setString_self]
      exact hflag b hba hb hb8 hc
    · rw [setString_of_ne hca]
      exact hs.fibers8 b hb hb8 c hc

end

/-! ## Buffers of both widths -/

section

variable {text : List UChar} {fuel : Nat}

theorem bufferContents_write {text : List α} {length : Nat} (h : length = text.length) :
    bufferContents (History.empty.write 0 text) length = .ok text := by
  unfold bufferContents
  rw [h, History.contents_write]

theorem bufferContents_write8 {characters : List UInt8} {length : Nat} (hmap : characters.map (·.toUInt16) = text)
    (hlength : length = text.length) : bufferContents (History.empty.write 0 characters) length = .ok characters :=
  bufferContents_write (hlength.trans (by rw [← hmap, List.length_map]))

theorem Sound.fills8 (hs : Sound heap) (hrope : (heap a).value = none) (ha : Denotes heap a text)
    (h8 : (heap a).is8Bit = true) : ∃ characters : List UInt8, characters.map (·.toUInt16) = text ∧
      ∃ steps, ∀ fuel, steps ≤ fuel → ∀ buffer,
        resolveRopeInternal8 heap fuel (heap a) buffer = .ok (buffer.write 0 characters) := by
  obtain ⟨characters, hspells, hmap⟩ := hs.spells8 ha (List.forall_mem_singleton.mpr h8)
  exact ⟨characters, hmap, resolveRopeInternalWith_spec (fun string impl _ h => h) hspells hrope⟩

theorem fills16 (hrope : (heap a).value = none) (ha : Denotes heap a text) : ∃ steps, ∀ fuel, steps ≤ fuel → ∀ buffer,
    resolveRopeInternal16 heap fuel (heap a) buffer = .ok (buffer.write 0 text) :=
  resolveRopeInternalWith_spec (fun string impl hvalue _ => by rw [hvalue, Option.map_some, Option.getD_some]) ha hrope

theorem resolveRopeInternal8_of_fibers {rope : JSString Address} {fiber0 fiber1 fiber2 : Option Address}
    (hu : rope.u = .fibers fiber0 fiber1 fiber2) (buffer : History UInt8) :
    resolveRopeInternal8NoSubstring heap fuel rope buffer = resolveRopeInternal8 heap fuel rope buffer := by
  unfold resolveRopeInternal8 resolveRopeInternalWith
  rw [hu]

theorem resolveRopeInternal16_of_fibers {rope : JSString Address} {fiber0 fiber1 fiber2 : Option Address}
    (hu : rope.u = .fibers fiber0 fiber1 fiber2) (buffer : History UChar) :
    resolveRopeInternal16NoSubstring heap fuel rope buffer = resolveRopeInternal16 heap fuel rope buffer := by
  unfold resolveRopeInternal16 resolveRopeInternalWith
  rw [hu]

end

theorem characters_createdString (impl : StringImpl) : (createdString impl).characters = impl.characters := by
  unfold createdString
  split_ifs with h
  · rw [← impl.length_characters] at h
    rw [List.eq_nil_of_length_eq_zero h]
    rfl
  · rfl

/-! ## Atomic strings -/

section

variable {text : List UChar}

theorem AtomicStringTable.characters_add (table : AtomicStringTable) {translate : StringImpl}
    (h : translate.characters = text) : (table.add text translate).characters = text := by
  unfold AtomicStringTable.add
  split_ifs with hlength
  · rw [List.eq_nil_of_length_eq_zero hlength]
    rfl
  · cases hfind : table.find text with
    | none => exact h
    | some impl => exact table.find_characters text impl hfind

theorem AtomicStringTable.add_cases (table : AtomicStringTable) (text : List UChar) (translate : StringImpl) :
    table.find text = some (table.add text translate) ∨
      table.find text = none ∧ (translate.is8Bit = true → (table.add text translate).is8Bit = true) := by
  unfold AtomicStringTable.add
  split_ifs with hlength
  · rw [List.eq_nil_of_length_eq_zero hlength]
    exact .inr ⟨table.find_nil, fun _ => rfl⟩
  · cases hfind : table.find text with
    | none => exact .inr ⟨rfl, id⟩
    | some impl => exact .inl rfl

/-- What a rope with the text becomes with a string of the table, or with a new one that is no wider than the rope. -/
structure ResolvedAtomic (table : AtomicStringTable) (text : List UChar) (rope string : JSString Address) : Prop where
  length_eq : string.length = rope.length
  exists_value : ∃ impl, string.value = some impl ∧ impl.characters = text ∧ string.is8Bit = impl.is8Bit ∧
    (table.find text = some impl ∨ table.find text = none ∧ (rope.is8Bit = true → impl.is8Bit = true))

theorem ResolvedAtomic.resolved {table : AtomicStringTable} {rope string : JSString Address}
    (h : ResolvedAtomic table text rope string) : Resolved text rope string := by
  obtain ⟨hlength, impl, hvalue, hcharacters, h8, -⟩ := h
  exact ⟨hlength, impl, hvalue, hcharacters, fun h => h8.symm.trans h⟩

theorem characters_create8BitIfPossible (characters : List UChar) :
    (StringImpl.create8BitIfPossible characters).characters = characters := by
  unfold StringImpl.create8BitIfPossible
  split_ifs with h
  · rw [StringImpl.characters, List.map_map]
    refine (List.map_congr_left fun c hc => ?_).trans (List.map_id _)
    have hle : c ≤ 0xFF := of_decide_eq_true (List.all_eq_true.mp h c hc)
    have hlt : c.toNat < 256 := Nat.lt_succ_of_le (UInt16.le_iff_toNat_le.mp hle)
    refine UInt16.toNat_inj.mp ?_
    rw [Function.comp_apply, UInt8.toNat_toUInt16, UInt16.toNat_toUInt8, Nat.mod_eq_of_lt hlt, id]
  · rfl

end

/-! ## The entry points -/

section

variable [DecidableEq Address] {text : List UChar} {allocates : Bool}

/-- `tryCreateUninitialized` gets memory if it has to. -/
def Allocates (heap : StringHeap Address) (a : Address) (allocates : Bool) : Prop :=
  (heap a).length ≠ 0 → (∃ fiber0 fiber1 fiber2, (heap a).u = .fibers fiber0 fiber1 fiber2) → allocates = true

theorem resolveRope_of_substring {fuel : Nat} {base : Address} {offset : Nat} {impl : StringImpl}
    (hrope : (heap a).value = none) (hu : (heap a).u = .substring (some base) offset)
    (hbase : (heap base).value = some impl) :
    resolveRope fuel allocates heap a = .ok (setString heap a
      { heap a with value := some (impl.substring offset (heap a).length), u := .substring none offset }) := by
  have hvalue : substringBaseValue heap (some base) = some impl := hbase
  unfold resolveRope
  simp only [isRope_of_value_eq_none hrope, Bool.not_true, Bool.false_eq_true, if_false, hu, hvalue]

theorem resolveRope_of_fibers {fuel : Nat} {fiber0 fiber1 fiber2 : Option Address} (hrope : (heap a).value = none)
    (hu : (heap a).u = .fibers fiber0 fiber1 fiber2) (hallocates : (heap a).length ≠ 0 → allocates = true) :
    resolveRope fuel allocates heap a =
      if (heap a).is8Bit then do
        let buffer ← resolveRopeInternal8 heap fuel (heap a) History.empty
        let characters ← bufferContents buffer (heap a).length
        return setString heap a { (heap a).clearFibers with value := some (createdString (.latin1 characters)) }
      else do
        let buffer ← resolveRopeInternal16 heap fuel (heap a) History.empty
        let characters ← bufferContents buffer (heap a).length
        return setString heap a { (heap a).clearFibers with value := some (createdString (.utf16 characters)) } := by
  have hfails : (decide ((heap a).length ≠ 0) && !allocates) = false := by
    by_cases hzero : (heap a).length = 0
    · rw [decide_eq_false (not_not.mpr hzero), Bool.false_and]
    · rw [hallocates hzero, Bool.not_true, Bool.and_false]
  rw [← resolveRopeInternal8_of_fibers hu, ← resolveRopeInternal16_of_fibers hu]
  unfold resolveRope
  simp only [isRope_of_value_eq_none hrope, Bool.not_true, Bool.false_eq_true, if_false, hu, hfails]

/-- **A rope is resolved to its text.** -/
theorem Sound.resolveRope_spec (hs : Sound heap) (hrope : (heap a).value = none) (ha : Denotes heap a text)
    (hallocates : Allocates heap a allocates) : ∃ steps, ∀ fuel, steps ≤ fuel → ∃ string,
      resolveRope fuel allocates heap a = .ok (setString heap a string) ∧ Resolved text (heap a) string ∧
        string.is8Bit = (heap a).is8Bit := by
  obtain ⟨hlength, hcases⟩ := ha.cases_rope hrope
  rcases hcases with ⟨base, offset, impl, characters, hu, hbase, hchars, hle, htext⟩ | ⟨⟨fiber0, fiber1, fiber2, hu⟩, -⟩
  · have h8 : (heap a).is8Bit = true → (impl.substring offset (heap a).length).is8Bit = true := fun h =>
      StringImpl.is8Bit_substring (hs.resolved8 base impl hbase (hs.substring8 a base offset hrope hu h)) _ _
    obtain rfl : impl.characters = characters := Option.some.inj hchars
    have hcharacters : (impl.substring offset (heap a).length).characters = text := by
      rw [StringImpl.characters_substring, htext]
    exact ⟨0, fun fuel _ => ⟨_, resolveRope_of_substring hrope hu hbase, ⟨rfl, _, rfl, hcharacters, h8⟩, rfl⟩⟩
  · have hnew : (heap a).length ≠ 0 → allocates = true := fun h => hallocates h ⟨fiber0, fiber1, fiber2, hu⟩
    cases h8 : (heap a).is8Bit with
    | true =>
      obtain ⟨characters, hmap, steps, hfill⟩ := hs.fills8 hrope ha h8
      have hchars := bufferContents_write8 hmap hlength
      refine ⟨steps, fun fuel hfuel =>
        ⟨{ (heap a).clearFibers with value := some (createdString (.latin1 characters)) }, ?_, ⟨rfl, ?_⟩, h8⟩⟩
      · rw [resolveRope_of_fibers hrope hu hnew, if_pos h8, hfill fuel hfuel, bind_ok, hchars, bind_ok]
        rfl
      · exact ⟨_, rfl, (characters_createdString _).trans hmap, fun _ => by unfold createdString; split_ifs <;> rfl⟩
    | false =>
      obtain ⟨steps, hfill⟩ := fills16 hrope ha
      have hchars := bufferContents_write hlength
      refine ⟨steps, fun fuel hfuel =>
        ⟨{ (heap a).clearFibers with value := some (createdString (.utf16 text)) }, ?_, ⟨rfl, ?_⟩, h8⟩⟩
      · rw [resolveRope_of_fibers hrope hu hnew, if_neg (by rw [h8]; exact Bool.false_ne_true), hfill fuel hfuel,
          bind_ok, hchars, bind_ok]
        rfl
      · exact ⟨_, rfl, characters_createdString _, fun h => absurd (h8.symm.trans h) Bool.false_ne_true⟩

theorem setString_setString {string string' : JSString Address} :
    setString (setString heap a string) a string' = setString heap a string' := Function.update_idem ..

theorem Sound.resolveRopeToAtomicString_spec (hs : Sound heap) (table : AtomicStringTable)
    (hrope : (heap a).value = none) (ha : Denotes heap a text)
    (hallocates : maxLengthForOnStackResolve < (heap a).length → Allocates heap a allocates) :
    ∃ steps, ∀ fuel, steps ≤ fuel → ∃ string,
      resolveRopeToAtomicString fuel allocates table heap a = .ok (setString heap a string) ∧
        ResolvedAtomic table text (heap a) string := by
  obtain ⟨hlength, -⟩ := ha.cases_rope hrope
  unfold resolveRopeToAtomicString
  by_cases hlong : maxLengthForOnStackResolve < (heap a).length
  · obtain ⟨steps, hresolve⟩ := hs.resolveRope_spec hrope ha (hallocates hlong)
    refine ⟨steps, fun fuel hfuel => ?_⟩
    obtain ⟨string, hrun, ⟨hlength', impl, hvalue, hcharacters, h8⟩, hflag⟩ := hresolve fuel hfuel
    refine ⟨{ string with value := some (table.add text impl), is8Bit := (table.add text impl).is8Bit }, ?_, hlength',
      _, rfl, table.characters_add hcharacters, rfl, ?_⟩
    · simp only
      rw [if_pos hlong, hrun, bind_ok, setString_self, hvalue]
      simp only [hcharacters, setString_setString]
      rfl
    · exact (table.add_cases text impl).imp id fun h => ⟨h.1, fun hrope8 => h.2 (h8 (hflag.trans hrope8))⟩
  · cases h8 : (heap a).is8Bit with
    | true =>
      obtain ⟨characters, hmap, steps, hfill⟩ := hs.fills8 hrope ha h8
      have hchars := bufferContents_write8 hmap hlength
      refine ⟨steps, fun fuel hfuel => ⟨{ (heap a).clearFibers with
        value := some (table.add text (.latin1 characters)), is8Bit := (table.add text (.latin1 characters)).is8Bit },
        ?_, rfl, _, rfl, table.characters_add hmap, rfl, ?_⟩⟩
      · simp only
        rw [if_neg hlong, if_pos h8, hfill fuel hfuel, bind_ok, hchars, bind_ok, hmap]
        rfl
      · exact (table.add_cases text _).imp id fun h => ⟨h.1, fun _ => h.2 rfl⟩
    | false =>
      obtain ⟨steps, hfill⟩ := fills16 hrope ha
      have hchars := bufferContents_write hlength
      refine ⟨steps, fun fuel hfuel => ⟨{ (heap a).clearFibers with
        value := some (table.add text (.create8BitIfPossible text)),
        is8Bit := (table.add text (.create8BitIfPossible text)).is8Bit },
        ?_, rfl, _, rfl, table.characters_add (characters_create8BitIfPossible text), rfl, ?_⟩⟩
      · simp only
        rw [if_neg hlong, if_neg (by rw [h8]; exact Bool.false_ne_true), hfill fuel hfuel, bind_ok, hchars, bind_ok]
        rfl
      · have hnot : (heap a).is8Bit ≠ true := by rw [h8]; exact Bool.false_ne_true
        exact (table.add_cases text _).imp id fun h => ⟨h.1, fun hrope8 => absurd hrope8 hnot⟩

/-- What `resolveRopeToExistingAtomicString` leaves: the string of the table, or without one the rope or what
`resolveRope` leaves. -/
inductive Existing (table : AtomicStringTable) (text : List UChar) (rope : JSString Address) :
    JSString Address → Option StringImpl → Prop
  | found {string : JSString Address} {impl : StringImpl} : table.find text = some impl →
      string.length = rope.length → string.value = some impl → string.is8Bit = impl.is8Bit →
      Existing table text rope string (some impl)
  | unchanged : table.find text = none → Existing table text rope rope none
  | resolved {string : JSString Address} : table.find text = none → Resolved text rope string →
      string.is8Bit = rope.is8Bit → Existing table text rope string none

theorem existing_of_find (table : AtomicStringTable) {string : JSString Address}
    (hlength : string.length = (heap a).length)
    (hnone : table.find text = none → Existing table text (heap a) string none) :
    ∃ string' found, useExistingAtomicString (setString heap a string) a (table.find text) =
      (setString heap a string', found) ∧ Existing table text (heap a) string' found := by
  cases hfind : table.find text with
  | none => exact ⟨string, none, rfl, hnone hfind⟩
  | some impl =>
    refine ⟨{ string.clearFibers with value := some impl, is8Bit := impl.is8Bit }, some impl, ?_,
      .found hfind hlength rfl rfl⟩
    rw [useExistingAtomicString, setString_self, setString_setString]

theorem setString_same : setString heap a (heap a) = heap := Function.update_eq_self ..

theorem Sound.resolveRopeToExistingAtomicString_spec (hs : Sound heap) (table : AtomicStringTable)
    (hrope : (heap a).value = none) (ha : Denotes heap a text)
    (hallocates : maxLengthForOnStackResolve < (heap a).length → Allocates heap a allocates) :
    ∃ steps, ∀ fuel, steps ≤ fuel → ∃ string found,
      resolveRopeToExistingAtomicString fuel allocates table heap a = .ok (setString heap a string, found) ∧
        Existing table text (heap a) string found := by
  obtain ⟨hlength, -⟩ := ha.cases_rope hrope
  unfold resolveRopeToExistingAtomicString
  by_cases hlong : maxLengthForOnStackResolve < (heap a).length
  · obtain ⟨steps, hresolve⟩ := hs.resolveRope_spec hrope ha (hallocates hlong)
    refine ⟨steps, fun fuel hfuel => ?_⟩
    obtain ⟨string, hrun, hresolved, hflag⟩ := hresolve fuel hfuel
    obtain ⟨impl, hvalue, hcharacters, -⟩ := hresolved.exists_value
    obtain ⟨string', found, huse, hexisting⟩ := existing_of_find table hresolved.length_eq
      fun hfind => .resolved hfind hresolved hflag
    refine ⟨string', found, ?_, hexisting⟩
    simp only [if_pos hlong, hrun, bind_ok, setString_self, hvalue, Option.bind_some, hcharacters]
    rw [huse]
    rfl
  · have hunchanged : ∃ string found, useExistingAtomicString (setString heap a (heap a)) a (table.find text) =
        (setString heap a string, found) ∧ Existing table text (heap a) string found :=
      existing_of_find table rfl .unchanged
    obtain ⟨string', found, huse, hexisting⟩ := hunchanged
    rw [setString_same] at huse
    cases h8 : (heap a).is8Bit with
    | true =>
      obtain ⟨characters, hmap, steps, hfill⟩ := hs.fills8 hrope ha h8
      refine ⟨steps, fun fuel hfuel => ⟨string', found, ?_, hexisting⟩⟩
      simp only
      rw [if_neg hlong, if_pos h8, hfill fuel hfuel, bind_ok, bufferContents_write8 hmap hlength, bind_ok, hmap, huse]
      rfl
    | false =>
      obtain ⟨steps, hfill⟩ := fills16 hrope ha
      refine ⟨steps, fun fuel hfuel => ⟨string', found, ?_, hexisting⟩⟩
      simp only
      rw [if_neg hlong, if_neg (by rw [h8]; exact Bool.false_ne_true), hfill fuel hfuel, bind_ok,
        bufferContents_write hlength, bind_ok, huse]
      rfl

end

end WebKit.JSC.Rope
