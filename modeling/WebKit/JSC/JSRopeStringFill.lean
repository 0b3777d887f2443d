import Mathlib.Algebra.Order.Ring.Int
import WebKit.JSC.JSRopeString
import WebKit.Lib.Outcome

/-!
# Filling the buffer of a rope

`Spells reader heap strings text`: the strings at the addresses, one behind the other, have the text. It is inductive,
so that the fibers below a rope form a finite tree, which may share strings, with the lengths that the code has. The
flat path copies such strings forward (`copyFibers_spec`) and the work queue copies them backward
(`workQueueLoop_spec`), with one write to each position. In a `Sound` heap, strings that are flagged as 8-bit can be read as such (`Sound.spells8`);
what is copied at all can be read (`reads_of_resolveRopeInternal`).
-/

namespace WebKit.WTF.StringImpl

theorem length_characters (impl : StringImpl) : impl.characters.length = impl.length := by
  cases impl with
  | latin1 characters8 => exact List.length_map _
  | utf16 characters16 => rfl

theorem characters_substring (impl : StringImpl) (start length : Nat) :
    (impl.substring start length).characters = (impl.characters.drop start).take length := by
  cases impl with
  | latin1 characters8 =>
    rw [substring]
    split_ifs with h
    · change [] = ((characters8.map (·.toUInt16)).drop start).take length
      rw [List.drop_eq_nil_of_le (by rwa [List.length_map]), List.take_nil]
    · change ((characters8.drop start).take length).map (·.toUInt16) = _
      rw [List.map_take, List.map_drop]
      rfl
  | utf16 characters16 =>
    rw [substring]
    split_ifs with h
    · rw [characters, List.drop_eq_nil_of_le h, List.take_nil]
      rfl
    · rfl

theorem is8Bit_substring {impl : StringImpl} (h : impl.is8Bit = true) (start length : Nat) :
    (impl.substring start length).is8Bit = true := by
  cases impl with
  | latin1 characters8 =>
    rw [substring]
    split_ifs <;> rfl
  | utf16 characters16 => exact absurd h Bool.false_ne_true

end WebKit.WTF.StringImpl

namespace WebKit.JSC.Rope

open WebKit.Lib WebKit.WTF

section

variable {Address α : Type} (reader : CharacterReader α) (heap : StringHeap Address)

/-- The strings have the text, one behind the other. -/
inductive Spells : List Address → List α → Prop
  | nil : Spells [] []
  | resolved {a : Address} {impl : StringImpl} {characters : List α} {strings : List Address} {text : List α} :
      (heap a).value = some impl → reader.characters impl = some characters → (heap a).length = characters.length →
      Spells strings text → Spells (a :: strings) (characters ++ text)
  | substring {a base : Address} {offset : Nat} {impl : StringImpl} {characters : List α} {strings : List Address}
      {text : List α} :
      (heap a).value = none → (heap a).u = .substring (some base) offset → (heap base).value = some impl →
      reader.characters impl = some characters → offset + (heap a).length ≤ characters.length →
      Spells strings text → Spells (a :: strings) ((characters.drop offset).take (heap a).length ++ text)
  | rope {a : Address} {front : List α} {strings : List Address} {text : List α} :
      (heap a).value = none → (heap a).fibers ≠ [] → Spells (heap a).fibers front → (heap a).length = front.length →
      Spells strings text → Spells (a :: strings) (front ++ text)

end

variable {Address α : Type} {reader : CharacterReader α} {heap : StringHeap Address} {a : Address}
  {strings : List Address} {text : List α}

theorem CharacterReader.length_eq {impl : StringImpl} {characters : List α}
    (h : reader.characters impl = some characters) : impl.length = characters.length := by
  rw [← impl.length_characters, ← reader.characters_eq impl characters h, List.length_map]

theorem fibers_eq_nil_of_substring {string : JSString Address} {base : Option Address} {offset : Nat}
    (h : string.u = .substring base offset) : string.fibers = [] := by
  unfold JSString.fibers
  rw [h]

theorem exists_fibers_of_ne_nil {string : JSString Address} (h : string.fibers ≠ []) :
    ∃ fiber0 fiber1 fiber2, string.u = .fibers fiber0 fiber1 fiber2 := by
  cases hu : string.u with
  | fibers fiber0 fiber1 fiber2 => exact ⟨fiber0, fiber1, fiber2, rfl⟩
  | substring base offset => exact absurd (fibers_eq_nil_of_substring hu) h

/-! ## Copying -/

theorem isRope_of_value_eq_none (h : (heap a).value = none) : (heap a).isRope = true := by
  rw [JSString.isRope, h, Option.isNone_none]

theorem readCharacters_of_eq {impl : StringImpl} {characters : List α} {value : Option StringImpl}
    (hvalue : value = some impl) (h : reader.characters impl = some characters) :
    readCharacters reader value = .ok characters := by
  subst hvalue
  unfold readCharacters
  simp only [h]

theorem copyChars_of_le {buffer : History α} {position : Int} {characters : List α} {length : Nat}
    (h : length ≤ characters.length) :
    copyChars buffer position characters length = .ok (buffer.write position (characters.take length)) := if_pos h

/-- **The flat path** copies the fibers forward. -/
theorem copyFibers_spec (h : Spells reader heap strings text) (hflat : ∀ b ∈ strings, (heap b).isRope = false)
    (position : Int) (buffer : History α) :
    copyFibers reader heap strings position buffer = .ok (position + text.length, buffer.write position text) := by
  induction h generalizing position buffer with
  | nil => rw [copyFibers, History.write_nil, List.length_nil, Nat.cast_zero, add_zero]
  | @resolved a impl characters strings text hvalue hchars hlength _ ih =>
    have himpl := CharacterReader.length_eq hchars
    rw [copyFibers, readCharacters_of_eq hvalue hchars, hvalue, bind_ok, Option.map_some, Option.getD_some]
    simp only
    rw [copyChars_of_le himpl.le, himpl, List.take_length, bind_ok,
      ih (fun b hb => hflat b (List.mem_cons_of_mem _ hb)), History.write_write, List.length_append, Nat.cast_add,
      add_assoc]
  | @substring a base offset impl characters strings text hvalue =>
    exact Bool.noConfusion ((hflat a List.mem_cons_self).symm.trans (isRope_of_value_eq_none hvalue))
  | @rope a front strings text hvalue =>
    exact Bool.noConfusion ((hflat a List.mem_cons_self).symm.trans (isRope_of_value_eq_none hvalue))

theorem sub_length_append (position : Int) (front back : List α) :
    position - back.length - front.length = position - (front ++ back).length := by
  rw [List.length_append, Nat.cast_add]
  omega

/-- **The work queue** copies the strings backward: those on top of the others are done after some steps. -/
theorem workQueueLoop_spec {length : JSString Address → Nat}
    (hlengths : ∀ (string : JSString Address) (impl : StringImpl), string.value = some impl →
      string.length = impl.length → length string = impl.length)
    (h : Spells reader heap strings text) :
    ∃ steps, ∀ (fuel : Nat) (rest : List Address) (position : Int) (buffer : History α),
      workQueueLoop reader heap length (fuel + steps) (strings.reverse ++ rest) position buffer =
        workQueueLoop reader heap length fuel rest (position - text.length)
          (buffer.write (position - text.length) text) := by
  induction h with
  | nil =>
    refine ⟨0, fun fuel rest position buffer => ?_⟩
    rw [List.reverse_nil, List.nil_append, List.length_nil, Nat.cast_zero, sub_zero, History.write_nil, Nat.add_zero]
  | @resolved a impl characters strings text hvalue hchars hlength _ ih =>
    obtain ⟨steps, ih⟩ := ih
    have himpl := CharacterReader.length_eq hchars
    refine ⟨1 + steps, fun fuel rest position buffer => ?_⟩
    have hrope : (heap a).isRope = false := by rw [JSString.isRope, hvalue, Option.isNone_some]
    rw [List.reverse_cons, List.append_assoc, List.singleton_append, ← Nat.add_assoc, ih, workQueueLoop, if_neg (by
      rw [hrope]; exact Bool.false_ne_true), readCharacters_of_eq hvalue hchars, bind_ok]
    simp only
    rw [hlengths _ impl hvalue (hlength.trans himpl.symm), copyChars_of_le himpl.le, himpl, List.take_length, bind_ok,
      History.write_sub_write, sub_length_append]
  | @substring a base offset impl characters strings text hvalue hu hbase hchars hlength _ ih =>
    obtain ⟨steps, ih⟩ := ih
    have hle : (heap a).length ≤ (characters.drop offset).length := by
      rw [List.length_drop]
      omega
    have htake : ((characters.drop offset).take (heap a).length).length = (heap a).length := List.length_take_of_le hle
    refine ⟨1 + steps, fun fuel rest position buffer => ?_⟩
    have hrope := isRope_of_value_eq_none hvalue
    rw [List.reverse_cons, List.append_assoc, List.singleton_append, ← Nat.add_assoc, ih, workQueueLoop, if_pos hrope,
      hu]
    have hread : readCharacters reader (substringBaseValue heap (some base)) = .ok characters :=
      readCharacters_of_eq hbase hchars
    simp only [hread, bind_ok]
    rw [copyChars_of_le hle, bind_ok]
    nth_rewrite 1 2 [← htake]
    rw [History.write_sub_write, sub_length_append]
  | @rope a front strings text hvalue hne _ hlength _ ihfront ih =>
    obtain ⟨stepsFront, ihfront⟩ := ihfront
    obtain ⟨steps, ih⟩ := ih
    refine ⟨stepsFront + 1 + steps, fun fuel rest position buffer => ?_⟩
    have hrope := isRope_of_value_eq_none hvalue
    obtain ⟨fiber0, fiber1, fiber2, hu⟩ := exists_fibers_of_ne_nil hne
    rw [List.reverse_cons, List.append_assoc, List.singleton_append, ← Nat.add_assoc, ih, ← Nat.add_assoc,
      workQueueLoop, if_pos hrope, hu]
    simp only
    rw [ihfront, History.write_sub_write, sub_length_append]

/-! ## Filling a buffer -/

theorem Spells.cases_rope (h : Spells reader heap [a] text) (hrope : (heap a).value = none) :
    (heap a).length = text.length ∧
      ((∃ base offset impl characters, (heap a).u = .substring (some base) offset ∧ (heap base).value = some impl ∧
          reader.characters impl = some characters ∧ offset + (heap a).length ≤ characters.length ∧
          text = (characters.drop offset).take (heap a).length) ∨
        ((∃ fiber0 fiber1 fiber2, (heap a).u = .fibers fiber0 fiber1 fiber2) ∧
          Spells reader heap (heap a).fibers text)) := by
  generalize hstrings : [a] = strings at h
  cases h with
  | nil => exact absurd hstrings (List.cons_ne_nil _ _)
  | @resolved a' impl characters strings text hvalue =>
    obtain ⟨rfl, -⟩ := List.cons.inj hstrings
    exact absurd (hrope.symm.trans hvalue) (Option.some_ne_none _).symm
  | @substring a' base offset impl characters strings text hvalue hu hbase hchars hlength h =>
    obtain ⟨rfl, rfl⟩ := List.cons.inj hstrings
    cases h
    rw [List.append_nil]
    have hle : (heap a).length ≤ (characters.drop offset).length := by
      rw [List.length_drop]
      omega
    exact ⟨(List.length_take_of_le hle).symm, .inl ⟨base, offset, impl, characters, hu, hbase, hchars, hlength, rfl⟩⟩
  | @rope a' front strings text hvalue hne hfront hlength h =>
    obtain ⟨rfl, rfl⟩ := List.cons.inj hstrings
    cases h
    rw [List.append_nil]
    exact ⟨hlength, .inr ⟨exists_fibers_of_ne_nil hne, hfront⟩⟩

section

variable {length : JSString Address → Nat}

theorem resolveRopeInternalNoSubstringWith_spec
    (hlengths : ∀ (string : JSString Address) (impl : StringImpl), string.value = some impl →
      string.length = impl.length → length string = impl.length)
    {rope : JSString Address} (h : Spells reader heap rope.fibers text) (hlength : rope.length = text.length) :
    ∃ steps, ∀ fuel, steps ≤ fuel → ∀ buffer,
      resolveRopeInternalNoSubstringWith reader heap (resolveRopeSlowCaseWith reader heap length fuel) rope buffer =
        .ok (buffer.write 0 text) := by
  obtain ⟨steps, hloop⟩ := workQueueLoop_spec hlengths h
  refine ⟨steps + 1, fun fuel hfuel buffer => ?_⟩
  unfold resolveRopeInternalNoSubstringWith
  split_ifs with hany
  · obtain ⟨more, rfl⟩ := Nat.exists_eq_add_of_le hfuel
    have hrun := hloop (more + 1) [] text.length buffer
    rw [List.append_nil, sub_self] at hrun
    unfold resolveRopeSlowCaseWith
    rw [hlength, show steps + 1 + more = more + 1 + steps by omega, hrun, workQueueLoop, bind_ok]
    exact if_pos rfl
  · have hflat : ∀ b ∈ rope.fibers, (heap b).isRope = false := by
      intro b hb
      by_contra hrope
      exact hany (List.any_eq_true.mpr ⟨b, hb, Bool.not_eq_false _ ▸ hrope⟩)
    rw [copyFibers_spec h hflat, bind_ok, zero_add, hlength]
    exact if_pos rfl

theorem resolveRopeInternalWith_spec
    (hlengths : ∀ (string : JSString Address) (impl : StringImpl), string.value = some impl →
      string.length = impl.length → length string = impl.length)
    (h : Spells reader heap [a] text) (hrope : (heap a).value = none) :
    ∃ steps, ∀ fuel, steps ≤ fuel → ∀ buffer,
      resolveRopeInternalWith reader heap
          (resolveRopeInternalNoSubstringWith reader heap (resolveRopeSlowCaseWith reader heap length fuel)) (heap a)
          buffer = .ok (buffer.write 0 text) := by
  obtain ⟨hlength, hcases⟩ := h.cases_rope hrope
  rcases hcases with ⟨base, offset, impl, characters, hu, hbase, hchars, hle, rfl⟩ |
    ⟨⟨fiber0, fiber1, fiber2, hu⟩, hfibers⟩
  · refine ⟨0, fun fuel _ buffer => ?_⟩
    have hread : readCharacters reader (substringBaseValue heap (some base)) = .ok characters :=
      readCharacters_of_eq hbase hchars
    unfold resolveRopeInternalWith
    rw [hu]
    simp only [hread, bind_ok]
    exact copyChars_of_le (by rw [List.length_drop]; omega)
  · obtain ⟨steps, hrun⟩ := resolveRopeInternalNoSubstringWith_spec hlengths hfibers hlength
    refine ⟨steps, fun fuel hfuel buffer => ?_⟩
    unfold resolveRopeInternalWith
    rw [hu]
    exact hrun fuel hfuel buffer

end

/-! ## What is read -/

theorem exists_of_readCharacters {value : Option StringImpl} {characters : List α}
    (h : readCharacters reader value = .ok characters) :
    ∃ impl, value = some impl ∧ reader.characters impl = some characters := by
  cases value with
  | none => cases h
  | some impl =>
    simp only [readCharacters] at h
    cases hchars : reader.characters impl with
    | none =>
      rw [hchars] at h
      cases h
    | some characters' =>
      rw [hchars] at h
      exact ⟨impl, rfl, hchars.trans (congrArg some (Except.ok.inj h))⟩

theorem reads_of_copyFibers {position : Int} {buffer : History α} {result : Int × History α}
    (h : copyFibers reader heap strings position buffer = .ok result) :
    ∀ b ∈ strings, ∀ impl, (heap b).value = some impl → reader.characters impl ≠ none := by
  induction strings generalizing position buffer with
  | nil => exact fun b hb => absurd hb List.not_mem_nil
  | cons c strings ih =>
    rw [copyFibers] at h
    obtain ⟨characters, hread, h⟩ := ok_of_bind h
    obtain ⟨buffer', -, h⟩ := ok_of_bind h
    refine List.forall_mem_cons.mpr ⟨fun impl himpl => ?_, ih h⟩
    obtain ⟨impl', hvalue, hchars⟩ := exists_of_readCharacters hread
    obtain rfl := Option.some.inj (himpl.symm.trans hvalue)
    rw [hchars]
    exact Option.some_ne_none _

theorem reads_of_workQueueLoop {length : JSString Address → Nat} {fuel : Nat} {position : Int} {buffer : History α}
    {result : Int × History α} (h : workQueueLoop reader heap length fuel strings position buffer = .ok result) :
    ∀ b ∈ strings, ∀ impl, (heap b).value = some impl → reader.characters impl ≠ none := by
  induction fuel generalizing strings position buffer with
  | zero => cases strings <;> cases h
  | succ fuel ih =>
    cases strings with
    | nil => exact fun b hb => absurd hb List.not_mem_nil
    | cons c strings =>
      rw [workQueueLoop] at h
      by_cases hrope : (heap c).isRope = true
      · have hnone : (heap c).value = none := Option.isNone_iff_eq_none.mp hrope
        rw [if_pos hrope] at h
        refine List.forall_mem_cons.mpr ⟨fun impl himpl => ?_, ?_⟩
        · exact absurd (hnone.symm.trans himpl) (Option.some_ne_none _).symm
        cases hu : (heap c).u with
        | substring base offset =>
          rw [hu] at h
          obtain ⟨characters, -, h⟩ := ok_of_bind h
          obtain ⟨buffer', -, h⟩ := ok_of_bind h
          exact ih h
        | fibers fiber0 fiber1 fiber2 =>
          rw [hu] at h
          exact fun b hb => ih h b (List.mem_append_right _ hb)
      · rw [if_neg hrope] at h
        obtain ⟨characters, hread, h⟩ := ok_of_bind h
        obtain ⟨buffer', -, h⟩ := ok_of_bind h
        refine List.forall_mem_cons.mpr ⟨fun impl himpl => ?_, ih h⟩
        obtain ⟨impl', hvalue, hchars⟩ := exists_of_readCharacters hread
        obtain rfl := Option.some.inj (himpl.symm.trans hvalue)
        rw [hchars]
        exact Option.some_ne_none _

theorem reads_of_resolveRopeInternal {length : JSString Address → Nat} {fuel : Nat} {rope : JSString Address}
    {buffer buffer' : History α}
    (h : resolveRopeInternalNoSubstringWith reader heap (resolveRopeSlowCaseWith reader heap length fuel) rope buffer =
      .ok buffer') : ∀ b ∈ rope.fibers, ∀ impl, (heap b).value = some impl → reader.characters impl ≠ none := by
  unfold resolveRopeInternalNoSubstringWith at h
  split_ifs at h
  · obtain ⟨result, hloop, -⟩ := ok_of_bind h
    exact fun b hb => reads_of_workQueueLoop hloop b (List.mem_reverse.mpr hb)
  · obtain ⟨result, hcopy, -⟩ := ok_of_bind h
    exact reads_of_copyFibers hcopy

/-! ## Widths -/

def Denotes (heap : StringHeap Address) (a : Address) (text : List UChar) : Prop := Spells reader16 heap [a] text

/-- Every rope has a text, and where a string is flagged as 8-bit what it has is 8-bit. -/
structure Sound (heap : StringHeap Address) : Prop where
  denotes : ∀ a, (heap a).value = none → ∃ text, Denotes heap a text
  resolved8 : ∀ a impl, (heap a).value = some impl → (heap a).is8Bit = true → impl.is8Bit = true
  substring8 : ∀ a base offset, (heap a).value = none → (heap a).u = .substring (some base) offset →
    (heap a).is8Bit = true → (heap base).is8Bit = true
  fibers8 : ∀ a, (heap a).value = none → (heap a).is8Bit = true → ∀ b ∈ (heap a).fibers, (heap b).is8Bit = true

theorem characters8_of_is8Bit {impl : StringImpl} (h : impl.is8Bit = true) :
    ∃ characters, reader8.characters impl = some characters ∧ characters.map reader8.toUChar = impl.characters := by
  cases impl with
  | latin1 characters8 => exact ⟨characters8, rfl, rfl⟩
  | utf16 characters16 => exact absurd h Bool.false_ne_true

/-- **Strings that are flagged as 8-bit can be read as such.** -/
theorem Sound.spells8 (hs : Sound heap) {text : List UChar} (h : Spells reader16 heap strings text)
    (h8 : ∀ b ∈ strings, (heap b).is8Bit = true) :
    ∃ characters, Spells reader8 heap strings characters ∧ characters.map reader8.toUChar = text := by
  induction h with
  | nil => exact ⟨[], .nil, rfl⟩
  | @resolved a impl characters strings text hvalue hchars hlength _ ih =>
    obtain ⟨ha, h8⟩ := List.forall_mem_cons.mp h8
    obtain ⟨back, hback, rfl⟩ := ih h8
    obtain ⟨front, hfront, hmap⟩ := characters8_of_is8Bit (hs.resolved8 a impl hvalue ha)
    obtain rfl : impl.characters = characters := Option.some.inj hchars
    rw [← hmap] at hlength ⊢
    exact ⟨front ++ back, .resolved hvalue hfront (hlength.trans (List.length_map _)) hback, List.map_append⟩
  | @substring a base offset impl characters strings text hvalue hu hbase hchars hlength _ ih =>
    obtain ⟨ha, h8⟩ := List.forall_mem_cons.mp h8
    obtain ⟨back, hback, rfl⟩ := ih h8
    obtain ⟨front, hfront, hmap⟩ :=
      characters8_of_is8Bit (hs.resolved8 base impl hbase (hs.substring8 a base offset hvalue hu ha))
    obtain rfl : impl.characters = characters := Option.some.inj hchars
    rw [← hmap] at hlength ⊢
    rw [List.length_map] at hlength
    refine ⟨_, .substring hvalue hu hbase hfront hlength hback, ?_⟩
    rw [List.map_append, List.map_take, List.map_drop]
  | @rope a front strings text hvalue hne _ hlength _ ihfront ih =>
    obtain ⟨ha, h8⟩ := List.forall_mem_cons.mp h8
    obtain ⟨back, hback, rfl⟩ := ih h8
    obtain ⟨front8, hfront, rfl⟩ := ihfront (hs.fibers8 a hvalue ha)
    rw [List.length_map] at hlength
    exact ⟨front8 ++ back, .rope hvalue hne hfront hlength hback, List.map_append⟩

theorem Spells.unique {text' : List α} (h : Spells reader heap strings text) (h' : Spells reader heap strings text') :
    text = text' := by
  induction h generalizing text' with
  | nil =>
    cases h'
    rfl
  | @resolved a impl characters strings text hvalue hchars _ _ ih =>
    cases h' with
    | resolved hvalue' hchars' _ h' =>
      obtain rfl := Option.some.inj (hvalue.symm.trans hvalue')
      obtain rfl := Option.some.inj (hchars.symm.trans hchars')
      rw [ih h']
    | substring hvalue' => exact absurd (hvalue.symm.trans hvalue') (Option.some_ne_none _)
    | rope hvalue' => exact absurd (hvalue.symm.trans hvalue') (Option.some_ne_none _)
  | @substring a base offset impl characters strings text hvalue hu hbase hchars _ _ ih =>
    cases h' with
    | resolved hvalue' => exact absurd (hvalue'.symm.trans hvalue) (Option.some_ne_none _)
    | substring _ hu' hbase' hchars' _ h' =>
      obtain ⟨hbases, rfl⟩ := RopeUnion.substring.inj (hu.symm.trans hu')
      obtain rfl := Option.some.inj hbases
      obtain rfl := Option.some.inj (hbase.symm.trans hbase')
      obtain rfl := Option.some.inj (hchars.symm.trans hchars')
      rw [ih h']
    | rope _ hne => exact absurd (fibers_eq_nil_of_substring hu) hne
  | @rope a front strings text hvalue hne _ _ _ ihfront ih =>
    cases h' with
    | resolved hvalue' => exact absurd (hvalue'.symm.trans hvalue) (Option.some_ne_none _)
    | substring _ hu => exact absurd (fibers_eq_nil_of_substring hu) hne
    | rope _ _ hfront' _ h' => rw [ihfront hfront', ih h']

end WebKit.JSC.Rope
