import WebKit.JSC.JSRopeStringResolve

/-!
# Ropes that are resolved for all

`Resolves` is what a function that resolves a rope is to do: each position of the buffer is written once, the rope has
its text as its value, and every other rope still has its text. That is so if and only if there is memory for the string
and the rope does not become wider than a rope that has it as a fiber (`resolves_iff`): an atomic string is looked up by
its characters and may be a 16-bit string for a rope of 8-bit ones, and then the functions for 8-bit ropes read
`characters8` of it (`not_widens_of_resolves`).
-/

namespace WebKit.JSC.Rope

open WebKit.Lib WebKit.WTF

variable {Address α : Type} {reader : CharacterReader α} {heap : StringHeap Address} {a : Address}

/-! ## What is left -/

section

variable {text : List UChar} {table : AtomicStringTable}

/-- The functions that resolve a rope: `resolveRope`, `resolveRopeToAtomicString` and
`resolveRopeToExistingAtomicString`. -/
inductive Entry
  | plain
  | atomic
  | existing
  deriving DecidableEq

/-- What a rope with the text becomes, and what is found. -/
structure Outcome (entry : Entry) (table : AtomicStringTable) (text : List UChar) (rope string : JSString Address)
    (found : Option StringImpl) : Prop where
  found_eq : entry = .existing → found = table.find text
  gives : (entry = .existing → found ≠ none) → ∃ impl, string.value = some impl ∧ impl.characters = text ∧
    (entry = .existing → found = some impl)
  kept : string = rope ∨ Resolved text rope string
  width : rope.is8Bit = true →
    string.is8Bit = true ∨ entry ≠ .plain ∧ ∃ characters16, table.find text = some (.utf16 characters16)
  of_find : entry ≠ .plain → ∀ impl, table.find text = some impl → string.value = some impl

theorem Resolved.outcome {rope string : JSString Address} (h : Resolved text rope string)
    (h8 : string.is8Bit = rope.is8Bit) : Outcome .plain table text rope string none := by
  obtain ⟨impl, hvalue, hcharacters, -⟩ := h.exists_value
  exact ⟨Entry.noConfusion, fun _ => ⟨impl, hvalue, hcharacters, Entry.noConfusion⟩, .inr h,
    fun h => .inl (h8.trans h), fun h => absurd rfl h⟩

theorem ResolvedAtomic.outcome {rope string : JSString Address} (h : ResolvedAtomic table text rope string) :
    Outcome .atomic table text rope string none := by
  obtain ⟨impl, hvalue, hcharacters, h8, hfind⟩ := h.exists_value
  refine ⟨Entry.noConfusion, fun _ => ⟨impl, hvalue, hcharacters, Entry.noConfusion⟩, .inr h.resolved, fun hrope => ?_,
    fun _ impl' himpl' => ?_⟩
  · rcases hfind with hfind | ⟨-, hnarrow⟩
    · cases impl with
      | latin1 characters8 => exact .inl h8
      | utf16 characters16 => exact .inr ⟨Entry.noConfusion, characters16, hfind⟩
    · exact .inl (h8.trans (hnarrow hrope))
  · rcases hfind with hfind | ⟨hfind, -⟩
    · rw [hvalue, ← hfind, himpl']
    · exact absurd (hfind.symm.trans himpl') (Option.some_ne_none _).symm

theorem Existing.outcome {rope string : JSString Address} {found : Option StringImpl}
    (h : Existing table text rope string found) : Outcome .existing table text rope string found := by
  cases h with
  | @found string impl hfind hlength hvalue h8 =>
    have hcharacters := table.find_characters text impl hfind
    refine ⟨fun _ => hfind.symm, fun _ => ⟨impl, hvalue, hcharacters, fun _ => rfl⟩,
      .inr ⟨hlength, impl, hvalue, hcharacters, fun h => h8.symm.trans h⟩, fun _ => ?_, fun _ impl' himpl' => ?_⟩
    · cases impl with
      | latin1 characters8 => exact .inl h8
      | utf16 characters16 => exact .inr ⟨Entry.noConfusion, characters16, hfind⟩
    · rw [hvalue, ← hfind, himpl']
  | unchanged hfind =>
    exact ⟨fun _ => hfind.symm, fun h => absurd rfl (h rfl), .inl rfl, .inl,
      fun _ impl himpl => absurd (hfind.symm.trans himpl) (Option.some_ne_none _).symm⟩
  | resolved hfind hresolved h8 =>
    exact ⟨fun _ => hfind.symm, fun h => absurd rfl (h rfl), .inr hresolved, fun h => .inl (h8.trans h),
      fun _ impl himpl => absurd (hfind.symm.trans himpl) (Option.some_ne_none _).symm⟩

end

/-- The function writes each of the first `length` places once, and no other. -/
def FillsOnce (fill : History α → Except RopeFault (History α)) (length : Nat) : Prop :=
  ∃ buffer, fill History.empty = .ok buffer ∧ ∀ i : Int, (buffer i).length = if 0 ≤ i ∧ i < length then 1 else 0

theorem fillsOnce_of_write {fill : History α → Except RopeFault (History α)} {characters : List α} {length : Nat}
    (hfill : fill History.empty = .ok (History.empty.write 0 characters)) (hlength : length = characters.length) :
    FillsOnce fill length :=
  ⟨_, hfill, fun i => by rw [History.length_write_empty, hlength, zero_add]⟩

theorem resolveRopeInternalNoSubstringWith_of_nil {length : JSString Address → Nat} {fuel : Nat}
    {rope : JSString Address} (hfibers : rope.fibers = []) (hlength : rope.length ≠ 0) (buffer : History α) :
    resolveRopeInternalNoSubstringWith reader heap (resolveRopeSlowCaseWith reader heap length fuel) rope buffer =
      .error .assertion := by
  have hposition : ¬(0 : Int) = rope.length := fun h => hlength (Int.natCast_eq_zero.mp h.symm)
  unfold resolveRopeInternalNoSubstringWith
  rw [hfibers, List.any_nil, if_neg Bool.false_ne_true, copyFibers, bind_ok]
  exact if_neg hposition

section

variable [DecidableEq Address] {text : List UChar} {allocates : Bool}

/-! ## The result -/

/-- The heap afterwards, and what `resolveRopeToExistingAtomicString` finds. -/
def Entry.run (entry : Entry) (fuel : Nat) (allocates : Bool) (table : AtomicStringTable) (heap : StringHeap Address)
    (a : Address) : Except RopeFault (StringHeap Address × Option StringImpl) :=
  match entry with
  | .plain => (resolveRope fuel allocates heap a).map fun heap => (heap, none)
  | .atomic => (resolveRopeToAtomicString fuel allocates table heap a).map fun heap => (heap, none)
  | .existing => resolveRopeToExistingAtomicString fuel allocates table heap a

/-- Where the string has no text of its own yet, `resolveRope` gives it this one. -/
def StillResolves (heap : StringHeap Address) (b : Address) (text : List UChar) : Prop :=
  (∃ impl, (heap b).value = some impl ∧ impl.characters = text) ∨
    (heap b).value = none ∧ ∃ steps, ∀ fuel, steps ≤ fuel → ∃ heap' impl,
      Rope.resolveRope fuel true heap b = .ok heap' ∧ (heap' b).value = some impl ∧ impl.characters = text

/-- What the function that resolves a rope with the text is to do: the buffer is filled, the rope has the text as its
value, if it is to find one, and every rope still has its text. -/
structure Resolves (entry : Entry) (fuel : Nat) (allocates : Bool) (table : AtomicStringTable)
    (heap : StringHeap Address) (a : Address) (text : List UChar) : Prop where
  fills8 : (heap a).is8Bit = true → FillsOnce (resolveRopeInternal8 heap fuel (heap a)) (heap a).length
  fills16 : FillsOnce (resolveRopeInternal16 heap fuel (heap a)) (heap a).length
  run : ∃ heap' found, entry.run fuel allocates table heap a = .ok (heap', found) ∧
    (entry = .existing → found = table.find text) ∧
    ((entry = .existing → found ≠ none) →
      ∃ impl, (heap' a).value = some impl ∧ impl.characters = text ∧
        (entry = .existing → found = some impl)) ∧
    ∀ b textb, (heap b).value = none → Denotes heap b textb → StillResolves heap' b textb

/-- The rope becomes wider than a rope that has it as a fiber is flagged. -/
def Widens (entry : Entry) (table : AtomicStringTable) (heap : StringHeap Address) (a : Address) (text : List UChar) :
    Prop :=
  entry ≠ .plain ∧ (heap a).is8Bit = true ∧ (∃ characters16, table.find text = some (.utf16 characters16)) ∧
    ∃ b, b ≠ a ∧ (heap b).value = none ∧ (heap b).is8Bit = true ∧ a ∈ (heap b).fibers

/-- There is memory for the string that is created. -/
def HasMemory (entry : Entry) (heap : StringHeap Address) (a : Address) (allocates : Bool) : Prop :=
  entry = .plain ∨ maxLengthForOnStackResolve < (heap a).length → Allocates heap a allocates

variable {entry : Entry} {table : AtomicStringTable}

/-- **With memory each of the functions resolves the rope.** -/
theorem Sound.run_spec (hs : Sound heap) (table : AtomicStringTable) (hrope : (heap a).value = none)
    (ha : Denotes heap a text) (hmemory : HasMemory entry heap a allocates) :
    ∃ steps, ∀ fuel, steps ≤ fuel → ∃ string found,
      entry.run fuel allocates table heap a = .ok (setString heap a string, found) ∧
        Outcome entry table text (heap a) string found := by
  cases entry with
  | plain =>
    obtain ⟨steps, hrun⟩ := hs.resolveRope_spec hrope ha (hmemory (.inl rfl))
    refine ⟨steps, fun fuel hfuel => ?_⟩
    obtain ⟨string, hrun, hresolved, h8⟩ := hrun fuel hfuel
    exact ⟨string, none, by rw [Entry.run, hrun]; rfl, hresolved.outcome h8⟩
  | atomic =>
    obtain ⟨steps, hrun⟩ := hs.resolveRopeToAtomicString_spec table hrope ha fun h => hmemory (.inr h)
    refine ⟨steps, fun fuel hfuel => ?_⟩
    obtain ⟨string, hrun, hresolved⟩ := hrun fuel hfuel
    exact ⟨string, none, by rw [Entry.run, hrun]; rfl, hresolved.outcome⟩
  | existing =>
    obtain ⟨steps, hrun⟩ := hs.resolveRopeToExistingAtomicString_spec table hrope ha fun h => hmemory (.inr h)
    refine ⟨steps, fun fuel hfuel => ?_⟩
    obtain ⟨string, found, hrun, hexisting⟩ := hrun fuel hfuel
    exact ⟨string, found, hrun, hexisting.outcome⟩

theorem Sound.stillResolves (hs : Sound heap) {b : Address} (hb : (heap b).value = none) (htext : Denotes heap b text) :
    StillResolves heap b text := by
  obtain ⟨steps, hrun⟩ := hs.resolveRope_spec hb htext fun _ _ => rfl
  refine .inr ⟨hb, steps, fun fuel hfuel => ?_⟩
  obtain ⟨string, hrun, hresolved, -⟩ := hrun fuel hfuel
  obtain ⟨impl, hvalue, hcharacters, -⟩ := hresolved.exists_value
  exact ⟨_, impl, hrun, by rw [setString_self, hvalue], hcharacters⟩

/-! ## What goes wrong -/

theorem resolveRope_of_not_allocates {fuel : Nat} {fiber0 fiber1 fiber2 : Option Address}
    (hrope : (heap a).value = none) (hu : (heap a).u = .fibers fiber0 fiber1 fiber2) (hlength : (heap a).length ≠ 0) :
    resolveRope fuel false heap a = .ok (setString heap a (heap a).clearFibers) := by
  have hfails : (decide ((heap a).length ≠ 0) && !false) = true := by
    rw [decide_eq_true hlength, Bool.not_false, Bool.and_true]
  unfold resolveRope
  simp only [isRope_of_value_eq_none hrope, Bool.not_true, Bool.false_eq_true, if_false, hu, hfails, if_true]

theorem not_stillResolves_clearFibers (hrope : (heap a).value = none)
    (hlength : (heap a).length ≠ 0) : ¬StillResolves (setString heap a (heap a).clearFibers) a text := by
  have hself : setString heap a (heap a).clearFibers a = (heap a).clearFibers := setString_self
  rintro (⟨impl, hvalue, -⟩ | ⟨-, steps, hresolve⟩)
  · rw [hself] at hvalue
    exact Option.some_ne_none _ (hvalue.symm.trans hrope)
  · obtain ⟨heap', impl, hrun, -⟩ := hresolve steps (le_refl _)
    have hu : (setString heap a (heap a).clearFibers a).u = .fibers none none none := by
      rw [hself]
      rfl
    have hnil : (heap a).clearFibers.fibers = [] := rfl
    rw [resolveRope_of_fibers (by rw [hself]; exact hrope) hu fun _ => rfl, ← resolveRopeInternal8_of_fibers hu,
      ← resolveRopeInternal16_of_fibers hu, hself] at hrun
    split_ifs at hrun
    · obtain ⟨buffer, hfill, -⟩ := ok_of_bind hrun
      rw [resolveRopeInternal8NoSubstring, resolveRopeSlowCase8, resolveRopeInternalNoSubstringWith_of_nil hnil hlength]
        at hfill
      cases hfill
    · obtain ⟨buffer, hfill, -⟩ := ok_of_bind hrun
      rw [resolveRopeInternal16NoSubstring, resolveRopeSlowCase, resolveRopeInternalNoSubstringWith_of_nil hnil hlength]
        at hfill
      cases hfill

theorem hasMemory_of_resolves (hrope : (heap a).value = none) {fuel : Nat} (ha : Denotes heap a text)
    (h : Resolves entry fuel allocates table heap a text) : HasMemory entry heap a allocates := by
  rintro hentry hlength ⟨fiber0, fiber1, fiber2, hu⟩
  by_contra hfalse
  obtain rfl : allocates = false := Bool.eq_false_of_not_eq_true hfalse
  obtain ⟨heap', found, hrun, -, hgives, hothers⟩ := h.run
  have hresolve : resolveRope fuel false heap a = .ok (setString heap a (heap a).clearFibers) :=
    resolveRope_of_not_allocates hrope hu hlength
  cases entry with
  | plain =>
    rw [Entry.run, hresolve] at hrun
    obtain ⟨rfl, -⟩ := Prod.mk.inj (Except.ok.inj hrun)
    obtain ⟨impl, hvalue, -⟩ := hgives Entry.noConfusion
    rw [setString_self] at hvalue
    exact Option.some_ne_none _ (hvalue.symm.trans hrope)
  | atomic =>
    have hlong := hentry.resolve_left Entry.noConfusion
    rw [Entry.run, resolveRopeToAtomicString] at hrun
    simp only [gt_iff_lt, if_pos hlong, hresolve, bind_ok, setString_self] at hrun
    rw [show (heap a).clearFibers.value = none from hrope] at hrun
    cases hrun
  | existing =>
    have hlong := hentry.resolve_left Entry.noConfusion
    rw [Entry.run, resolveRopeToExistingAtomicString] at hrun
    simp only [gt_iff_lt, if_pos hlong, hresolve, bind_ok, setString_self] at hrun
    rw [show (heap a).clearFibers.value = none from hrope] at hrun
    obtain ⟨rfl, -⟩ := Prod.mk.inj (Except.ok.inj hrun)
    exact not_stillResolves_clearFibers hrope hlength (hothers a text hrope ha)

/-- A rope that was widened cannot be read as a fiber of one that is flagged as 8-bit. -/
theorem not_widens_of_resolves (hs : Sound heap) (hrope : (heap a).value = none) (ha : Denotes heap a text)
    (h : ∃ steps, ∀ fuel, steps ≤ fuel → Resolves entry fuel allocates table heap a text) :
    ¬Widens entry table heap a text := by
  rintro ⟨hentry, -, ⟨characters16, hfind⟩, b, hba, hb, hb8, hfiber⟩
  obtain ⟨stepsResolves, h⟩ := h
  obtain ⟨steps, hspec⟩ := hs.run_spec table hrope ha (hasMemory_of_resolves hrope ha (h _ (le_refl _)))
  obtain ⟨heap', found, hrun, -, -, hothers⟩ := (h (stepsResolves + steps) (Nat.le_add_right _ _)).run
  obtain ⟨string, found', hrun', houtcome⟩ := hspec (stepsResolves + steps) (Nat.le_add_left _ _)
  obtain ⟨rfl, -⟩ := Prod.mk.inj (Except.ok.inj (hrun.symm.trans hrun'))
  have hvalue : (setString heap a string a).value = some (.utf16 characters16) := by
    rw [setString_self]
    exact houtcome.of_find hentry _ hfind
  obtain ⟨textb, htextb⟩ := hs.denotes b hb
  have hset : setString heap a string b = heap b := setString_of_ne hba
  rcases hothers b textb hb htextb with ⟨impl, hvalueb, -⟩ | ⟨-, stepsb, hresolve⟩
  · rw [hset] at hvalueb
    exact Option.some_ne_none _ (hvalueb.symm.trans hb)
  · obtain ⟨heap'', impl, hrunb, -⟩ := hresolve stepsb (le_refl _)
    obtain ⟨fiber0, fiber1, fiber2, hu⟩ := exists_fibers_of_ne_nil (List.ne_nil_of_mem hfiber)
    rw [← hset] at hb hb8 hu hfiber
    rw [resolveRope_of_fibers hb hu fun _ => rfl, if_pos hb8, ← resolveRopeInternal8_of_fibers hu] at hrunb
    obtain ⟨buffer, hfill, -⟩ := ok_of_bind hrunb
    exact reads_of_resolveRopeInternal hfill a hfiber _ hvalue rfl

end

/-! ## A shared rope -/

/-- `"a"`, `"aa"` as a rope at 1, and `"aaa"` as a rope at 2 of which `"aa"` is a fiber. -/
def sharedRope : StringHeap Nat
  | 1 => { is8Bit := true, length := 2, value := none, u := .fibers (some 0) (some 0) none }
  | 2 => { is8Bit := true, length := 3, value := none, u := .fibers (some 1) (some 0) none }
  | _ => { is8Bit := true, length := 1, value := some (.latin1 [0x61]), u := .fibers none none none }

theorem spells_zero {strings : List Nat} {text : List UChar} (h : Spells reader16 sharedRope strings text) :
    Spells reader16 sharedRope (0 :: strings) ([0x61] ++ text) := .resolved rfl rfl rfl h

theorem spells_one {strings : List Nat} {text : List UChar} (h : Spells reader16 sharedRope strings text) :
    Spells reader16 sharedRope (1 :: strings) ([0x61, 0x61] ++ text) := by
  have hfibers : (sharedRope 1).fibers ≠ [] := by decide
  exact .rope rfl hfibers (spells_zero (spells_zero .nil)) rfl h

theorem sharedRope_denotes : Denotes sharedRope 1 [0x61, 0x61] := spells_one .nil

theorem sharedRope_denotes_two : Denotes sharedRope 2 [0x61, 0x61, 0x61] := by
  have hfibers : (sharedRope 2).fibers ≠ [] := by decide
  exact .rope rfl hfibers (spells_one (spells_zero .nil)) rfl .nil

theorem sharedRope_sound : Sound sharedRope := by
  have h8 : ∀ a, (sharedRope a).is8Bit = true := by
    intro a
    unfold sharedRope
    split <;> rfl
  refine ⟨fun a ha => ?_, fun a impl ha _ => ?_, fun _ base _ _ _ _ => h8 base, fun _ _ _ b _ => h8 b⟩
  · unfold sharedRope at ha
    split at ha
    · exact ⟨_, sharedRope_denotes⟩
    · exact ⟨_, sharedRope_denotes_two⟩
    · cases ha
  · unfold sharedRope at ha
    split at ha
    · cases ha
    · cases ha
    · obtain rfl := Option.some.inj ha
      rfl

def noAtomicStrings : AtomicStringTable := ⟨fun _ => none, fun _ _ h => absurd h.symm (Option.some_ne_none _), rfl⟩

/-- `"aa"` is a 16-bit atomic string. -/
def wideAtomicString : AtomicStringTable where
  find characters := if characters = [0x61, 0x61] then some (.utf16 [0x61, 0x61]) else none
  find_characters := by
    intro characters impl h
    split_ifs at h with hcharacters
    rw [← Option.some.inj h, hcharacters]
    rfl
  find_nil := rfl

end WebKit.JSC.Rope
