import WebKit.WTF.StringBuilderInv

/-!
# The calls of a string builder

What each call of a builder that holds `content` ends with (`Builds`), unless it crashes: `append8_builds`,
`append16_builds` and the other ways to append, `reserveCapacity_builds`, `resize_builds`, `toString_builds`. Reserving
room in an empty builder whose flag is left over from 16-bit characters, and appending a builder with a string of the
other width to an empty one, are left out by a hypothesis.
-/

namespace WebKit.WTF.StringBuilder

open WebKit.Lib

variable {shared : Nat → Bool} {given : Option SharedString} {blocks : Blocks} {b : StringBuilder}
  {content cs : List UChar} {id : Nat} {is8Bit : Bool}

/-- Nothing changes. -/
theorem builds_self (h : Holds blocks b content) : Builds shared given blocks b content (.ok (blocks, b)) :=
  ⟨h, .refl⟩

section

variable (hzero : 0 < blocks.length) (h : Holds blocks b content)

include h in
theorem capacity_eq : ∃ capacity, b.capacity blocks = .ok capacity := by
  rw [capacity.eq_def]
  cases hid : b.m_buffer with
  | none => exact ⟨_, rfl⟩
  | some id =>
    obtain ⟨-, rest, hblock, -⟩ := h.buffer id hid
    simp only [findBlock_eq hblock]
    exact ⟨_, rfl⟩

include h in
theorem read_source (hid : b.m_buffer = none) :
    readCharacters blocks (b.m_string.map SharedString.pointer) b.m_is8Bit b.m_length = .ok content := by
  cases hs : b.m_string with
  | some s => exact h.read_string hs
  | none =>
    have hnil : content = [] := by
      by_contra hne
      exact h.source hid hne hs
    rw [h.length_eq, hnil]
    exact readCharacters_zero _

include hzero h

variable (shared given)

theorem appendUninitializedSlow_ready {requiredLength : Nat} (hrequired : 0 < requiredLength)
    (hle : content.length ≤ requiredLength) :
    Ends (· = .crash)
      (fun r => ∃ b₁ id capacity, Ready shared given blocks b content b.m_is8Bit capacity r.1 b₁ id ∧
        requiredLength ≤ capacity ∧ r.2 = ({ b₁ with m_length := requiredLength }, ⟨id, content.length⟩))
      (b.appendUninitializedSlow shared blocks b.m_is8Bit requiredLength) := by
  obtain ⟨capacity, hcapacity⟩ := capacity_eq h
  have hnew : requiredLength ≤ expandedCapacity capacity requiredLength := Nat.le_max_left _ _
  have hend : ∀ (r : Blocks × StringBuilder),
      (∃ id, Ready shared given blocks b content b.m_is8Bit (expandedCapacity capacity requiredLength) r.1 r.2 id) →
      Ends (· = Fault.crash)
        (fun r : Blocks × StringBuilder × Pointer => ∃ b₁ id capacity,
          Ready shared given blocks b content b.m_is8Bit capacity r.1 b₁ id ∧ requiredLength ≤ capacity ∧
            r.2 = ({ b₁ with m_length := requiredLength }, ⟨id, content.length⟩))
        (do
          let id ← r.2.m_buffer.elim (.error Fault.outOfBounds) .ok
          return (r.1, { r.2 with m_length := requiredLength }, ⟨id, r.2.m_length⟩)) := by
    rintro ⟨blocks₁, b₁⟩ ⟨id, hready⟩
    have hbuffer : b₁.m_buffer = some id := hready.buffer
    have hlength : b₁.m_length = content.length := hready.length_eq
    simp only [hbuffer, hlength, Option.elim_some, bind, Except.bind, pure, Except.pure, ends_ok]
    exact ⟨b₁, id, _, hready, hnew, by rw [hbuffer]⟩
  rw [appendUninitializedSlow, hcapacity, bind_ok]
  cases hid : b.m_buffer with
  | some id => exact ends_bind (reallocateBuffer_ready shared given hzero h hid (by omega) (by omega)) hend
  | none =>
    have hread : readCharacters blocks (if b.m_length = 0 then none else b.m_string.map SharedString.pointer)
        b.m_is8Bit b.m_length = .ok content := by
      split_ifs with hnil
      · have hsource := read_source h hid
        rw [hnil, readCharacters_zero] at hsource ⊢
        exact hsource
      · exact read_source h hid
    exact ends_bind (allocateBuffer_ready _ _ hzero h.length_eq rfl hread h.narrow (by omega) (by omega))
      fun r hr => hend r ⟨_, hr⟩

theorem appendUninitialized_ready {length : Nat} (hpos : 0 < length) (hlt : length < 2 ^ 32) :
    Ends (· = .crash)
      (fun r => content.length + length < 2 ^ 32 ∧ ∃ b₁ id capacity,
        Ready shared given blocks b content b.m_is8Bit capacity r.1 b₁ id ∧ content.length + length ≤ capacity ∧
          r.2 = ({ b₁ with m_length := content.length + length }, ⟨id, content.length⟩))
      (b.appendUninitialized shared blocks b.m_is8Bit length) := by
  have hbound := h.bound
  rw [appendUninitialized]
  simp only [h.length_eq]
  split_ifs with hcrash
  · exact rfl
  · have hsum : (length + content.length) % 2 ^ 32 = content.length + length := by omega
    have hfits : content.length + length < 2 ^ 32 := by omega
    have hslow := @appendUninitializedSlow_ready shared given _ _ _ hzero h (content.length + length)
      (by omega) (by omega)
    rw [hsum]
    cases hid : b.m_buffer with
    | none => exact hslow.imp fun r hr => ⟨hfits, hr⟩
    | some id =>
      obtain ⟨hne, rest, hblock, hfull⟩ := h.buffer id hid
      simp only [findBlock_eq hblock, bind, Except.bind]
      split_ifs with hroom
      · refine ⟨hfits, { b with m_string := none }, id, content.length + rest.length, ?_, ?_, by rw [hid]⟩
        · exact ⟨hid, rfl, hne, h.length_eq, rfl, ⟨rest, hblock, rfl, hfull⟩, moves_clear⟩
        · simpa [Block.length] using hroom
      · exact hslow.imp fun r hr => ⟨hfits, hr⟩

/-- **Characters of the builder's width are appended.** -/
theorem appendInPlace_builds (hne : cs ≠ []) (hlt : cs.length < 2 ^ 32) (hnarrow : Narrow b.m_is8Bit cs) :
    Builds shared given blocks b (content ++ cs) (b.appendInPlace shared blocks b.m_is8Bit cs) := by
  refine ends_bind (appendUninitialized_ready shared given hzero h (List.length_pos_iff.2 hne) hlt) ?_
  rintro ⟨blocks₁, _⟩ ⟨hfits, b₁, id, capacity, hready, hcapacity, rfl⟩
  obtain ⟨blocks₂, hwrite, hholds, hmoves⟩ := hready.write (by rw [List.length_append]; exact hfits)
    (h.narrow.append hnarrow) hcapacity fun _ => h.buffer_lt
  simp only [hwrite, bind, Except.bind, pure, Except.pure]
  exact ⟨hholds, hmoves⟩

theorem append8_builds (hlt : cs.length < 2 ^ 32) (hnarrow : Narrow true cs) :
    Builds shared given blocks b (content ++ cs) (b.append8 shared blocks cs) := by
  rw [append8]
  split_ifs with hnil
  · rw [hnil, List.append_nil]
    exact builds_self h
  · exact appendInPlace_builds shared given hzero h hnil hlt hnarrow.of_true

theorem append16_builds (hlt : cs.length < 2 ^ 32) :
    Builds shared given blocks b (content ++ cs) (b.append16 shared blocks cs) := by
  have hbound := h.bound
  rw [append16]
  by_cases hnil : cs = []
  · rw [if_pos hnil, hnil, List.append_nil]
    exact builds_self h
  rw [if_neg hnil]
  cases h8 : b.m_is8Bit with
  | false =>
    have hb := appendInPlace_builds shared given hzero h hnil hlt (by rw [h8]; exact narrow_false)
    rwa [h8] at hb
  | true =>
    rw [if_pos rfl]
    split_ifs with hone
    · rw [Bool.and_eq_true, List.all_eq_true] at hone
      apply append8_builds shared given hzero h hlt
      intro _ c hc
      exact narrow_of_high (of_decide_eq_true (hone.2 c hc))
    · simp only [h.length_eq]
      split_ifs with hcrash
      · exact rfl
      · have hsum : (cs.length + content.length) % 2 ^ 32 = content.length + cs.length := by omega
        have hpos : 0 < cs.length := List.length_pos_iff.2 hnil
        obtain ⟨capacity, hcapacity⟩ := capacity_eq h
        have hnew : content.length + cs.length ≤ expandedCapacity capacity (content.length + cs.length) :=
          Nat.le_max_left _ _
        have hread : readCharacters blocks
            (b.m_buffer.elim (b.m_string.map SharedString.pointer) fun id => some ⟨id, 0⟩) true b.m_length =
              .ok content := by
          rw [← h8]
          cases hid : b.m_buffer with
          | none => exact read_source h hid
          | some id => exact h.read_buffer hid
        rw [hsum, hcapacity]
        simp only [bind, Except.bind]
        refine ends_bind (allocateBufferUpConvert_ready shared given hzero h.length_eq hread (by omega) (by omega)) ?_
        rintro ⟨blocks₁, b₁⟩ ⟨id, hready⟩
        obtain ⟨blocks₂, hwrite, hholds, hmoves⟩ := hready.write (by rw [List.length_append]; omega) narrow_false
          hnew fun _ => h.buffer_lt
        have hbuffer : b₁.m_buffer = some id := hready.buffer
        have hlength : b₁.m_length = content.length := hready.length_eq
        simp only [hbuffer, hlength, Option.elim_some, hwrite, pure, Except.pure]
        rw [hbuffer] at hholds hmoves
        exact ⟨hholds, hmoves⟩

theorem append_builds (hlt : cs.length < 2 ^ 32) (hnarrow : Narrow is8Bit cs) :
    Builds shared given blocks b (content ++ cs) (b.append shared blocks is8Bit cs) := by
  cases is8Bit with
  | true => exact append8_builds shared given hzero h hlt hnarrow
  | false => exact append16_builds shared given hzero h hlt

omit hzero in
/-- A character is written behind the last one, where there is room. -/
theorem appendOne_builds (hid : b.m_buffer = some id) (hstring : b.m_string = none) {buffer : Block}
    (hbuffer : blocks[id]? = some buffer) (hroom : b.m_length < buffer.length) {c : UChar}
    (hnarrow : Narrow b.m_is8Bit [c]) : Builds shared given blocks b (content ++ [c]) (b.appendOne blocks id c) := by
  obtain ⟨hne, rest, hblock, hfull⟩ := h.buffer id hid
  obtain rfl := Option.some.inj (hbuffer.symm.trans hblock)
  have hready : Ready shared given blocks b content b.m_is8Bit (content.length + rest.length) blocks b id :=
    ⟨hid, hstring, hne, h.length_eq, rfl, ⟨rest, hblock, rfl, hfull⟩, .refl⟩
  have hlength : b.m_length = content.length := h.length_eq
  simp only [Block.length, List.length_append, List.length_map] at hroom
  obtain ⟨blocks₂, hwrite, hholds, hmoves⟩ := hready.write (by simp; omega) (h.narrow.append hnarrow) (by simp; omega)
    fun _ => h.buffer_lt
  rw [appendOne, hlength, hwrite]
  exact ⟨hholds, hmoves⟩

theorem appendUChar_builds (c : UChar) :
    Builds shared given blocks b (content ++ [c]) (b.appendUChar shared blocks c) := by
  have hslow := append16_builds shared given hzero h (show [c].length < 2 ^ 32 by simp)
  rw [appendUChar.eq_def]
  cases hid : b.m_buffer with
  | none => exact hslow
  | some id =>
    obtain ⟨-, rest, hblock, -⟩ := h.buffer id hid
    simp only [findBlock_eq hblock, bind_ok]
    split_ifs with hfast
    · simp only [Bool.and_eq_true, Bool.or_eq_true, decide_eq_true_iff, Option.isNone_iff_eq_none,
        Bool.not_eq_true'] at hfast
      refine appendOne_builds shared given h hid hfast.1.2 hblock hfast.1.1 ?_
      rcases hfast.2 with h8 | hc
      · rw [h8]
        exact narrow_false
      · exact Narrow.of_true fun _ d hd => by rw [List.mem_singleton.1 hd]; exact narrow_of_high hc
    · exact hslow

theorem appendLChar_builds {c : UChar} (hc : c &&& 0xff = c) :
    Builds shared given blocks b (content ++ [c]) (b.appendLChar shared blocks c) := by
  have hnarrow : Narrow true [c] := fun _ d hd => by rw [List.mem_singleton.1 hd]; exact hc
  have hslow := append8_builds shared given hzero h (show [c].length < 2 ^ 32 by simp) hnarrow
  rw [appendLChar.eq_def]
  cases hid : b.m_buffer with
  | none => exact hslow
  | some id =>
    obtain ⟨-, rest, hblock, -⟩ := h.buffer id hid
    simp only [findBlock_eq hblock, bind_ok]
    split_ifs with hfast
    · simp only [Bool.and_eq_true, decide_eq_true_iff, Option.isNone_iff_eq_none] at hfast
      exact appendOne_builds shared given h hid hfast.2 hblock hfast.1 hnarrow.of_true
    · exact hslow

end

/-- The UTF-16 code units of a character. -/
def codeUnits (c : UInt32) : List UChar :=
  if Unicode.UTF8ToUTF16.isBMP c then [c.toUInt16] else [Unicode.UTF8ToUTF16.lead c, Unicode.UTF8ToUTF16.trail c]

section

variable (shared given) (hzero : 0 < blocks.length) (h : Holds blocks b content)

include hzero h

/-- A call, and then another one on what it has built. -/
theorem Builds.trans {content₁ content₂ : List UChar} {r : Except Fault (Blocks × StringBuilder)}
    {f : Blocks × StringBuilder → Except Fault (Blocks × StringBuilder)} (h₁ : Builds shared given blocks b content₁ r)
    (h₂ : ∀ r, 0 < r.1.length → Holds r.1 r.2 content₁ → Builds shared given r.1 r.2 content₂ (f r)) :
    Builds shared given blocks b content₂ (r >>= f) := by
  refine ends_bind h₁ ?_
  intro r hr
  refine (h₂ r (Nat.lt_of_lt_of_le hzero hr.2.grows) hr.1).imp ?_
  intro r' hr'
  exact ⟨hr'.1, hr.2.trans (fun _ => h.buffer_lt) hr'.2⟩

theorem appendUChar32_builds (c : UInt32) :
    Builds shared given blocks b (content ++ codeUnits c) (b.appendUChar32 shared blocks c) := by
  rw [appendUChar32, codeUnits]
  split_ifs
  · exact appendUChar_builds shared given hzero h _
  · refine Builds.trans shared given hzero h (appendUChar_builds shared given hzero h _) ?_
    intro r hzero' h'
    rw [List.append_cons]
    exact appendUChar_builds shared given hzero' h' _

/-- **A string is appended**, or referred to where there is nothing else. -/
theorem appendString_builds {string : Option SharedString} (hstring : ∀ s, string = some s → Has blocks s cs)
    (hnull : string = none → cs = []) :
    Builds shared string blocks b (content ++ cs) (b.appendString shared blocks string) := by
  cases string with
  | none =>
    rw [hnull rfl, List.append_nil]
    exact builds_self h
  | some s =>
    have hs := hstring s rfl
    obtain ⟨hlength, hbound, block, hblock, hcharacters, hnarrow⟩ := hstring s rfl
    rw [appendString]
    simp only [SharedString.is8Bit, findBlock_eq hblock, bind_ok, pure, Except.pure]
    split_ifs with hempty hfirst
    · rw [List.eq_nil_of_length_eq_zero (hlength.symm.trans hempty), List.append_nil]
      exact builds_self h
    · simp only [Bool.and_eq_true, decide_eq_true_iff, Option.isNone_iff_eq_none] at hfirst
      obtain rfl : content = [] := List.eq_nil_of_length_eq_zero (h.length_eq.symm.trans hfirst.1)
      refine ⟨holds_of_string hs hblock rfl hfirst.2 hlength hnarrow fun _ => rfl, ?_⟩
      apply moves_of_same
      · exact fun _ hid => hid
      · intro id hid
        rw [hfirst.2] at hid
        cases hid
      · intro s' hs'
        obtain rfl := Option.some.inj hs'
        exact .inr (.inr ⟨s, .inr rfl, rfl, Nat.le_refl _⟩)
    · have hread := hs.read hblock 0 s.length (Nat.zero_add s.length).le
      rw [List.drop_zero, List.take_of_length_le hlength.ge, Nat.add_zero] at hread
      rw [SharedString.pointer, hread]
      exact append_builds shared _ hzero h hbound hnarrow

/-- **A part of a string is appended**, if it is a part. The sum of offset and length may wrap to what is none. -/
theorem appendSubstring_builds {string : Option SharedString} (hstring : ∀ s, string = some s → Has blocks s cs)
    (hnull : string = none → cs = []) {offset length : Nat}
    (hwrap : ∀ s, string = some s → s.length = 0 ∨ offset + length < 2 ^ 32 ∨ s.length < (offset + length) % 2 ^ 32) :
    Builds shared given blocks b (content ++ if offset + length ≤ cs.length then (cs.drop offset).take length else [])
      (b.appendSubstring shared blocks offset length string) := by
  cases string with
  | none =>
    rw [hnull rfl, List.drop_nil, List.take_nil, ite_self, List.append_nil]
    exact builds_self h
  | some s =>
    have hs := hstring s rfl
    obtain ⟨hlength, hbound, block, hblock, -, hnarrow⟩ := hstring s rfl
    rw [appendSubstring, ← hlength]
    simp only [SharedString.is8Bit, findBlock_eq hblock, bind_ok, pure, Except.pure, Bool.or_eq_true, decide_eq_true_iff]
    split_ifs with hpart hskip hskip
    · have hnil : cs = [] := by
        apply List.eq_nil_of_length_eq_zero
        omega
      rw [hnil, List.drop_nil, List.take_nil, List.append_nil]
      exact builds_self h
    · rw [hs.read hblock _ _ hpart]
      apply append_builds shared given hzero h
      · rw [List.length_take]
        omega
      · intro h8 c hc
        exact hnarrow h8 c (List.mem_of_mem_drop (List.mem_of_mem_take hc))
    · rw [List.append_nil]
      exact builds_self h
    · have := hwrap s rfl
      omega

/-- **What another builder has built is appended**, if the flags agree where its string is taken. -/
theorem appendBuilder_builds {other : StringBuilder} (hother : Holds blocks other cs)
    (hflags : b.m_length = 0 → b.m_buffer = none → other.m_length ≠ 0 → other.m_string ≠ none →
      b.m_is8Bit = other.m_is8Bit) :
    Builds shared other.m_string blocks b (content ++ cs) (b.appendBuilder shared blocks other) := by
  rw [appendBuilder]
  split_ifs with hempty hfirst
  · rw [List.eq_nil_of_length_eq_zero (hother.length_eq.symm.trans hempty), List.append_nil]
    exact builds_self h
  · simp only [Bool.and_eq_true, decide_eq_true_iff, Option.isNone_iff_eq_none, Option.isSome_iff_ne_none] at hfirst
    obtain ⟨⟨hzero, hbuffer⟩, hsome⟩ := hfirst
    obtain rfl : content = [] := List.eq_nil_of_length_eq_zero (h.length_eq.symm.trans hzero)
    have hflag := hflags hzero hbuffer hempty hsome
    obtain ⟨s, hs⟩ := Option.ne_none_iff_exists'.1 hsome
    have hhas := hother.string s hs
    obtain ⟨-, -, block, hblock, -⟩ := hother.string s hs
    refine ⟨holds_of_string hhas hblock hs hbuffer hother.length_eq ?_ ?_, ?_⟩
    · rw [hflag]
      exact hother.narrow
    · intro hne
      rw [hflag]
      exact hother.width s block hs hne hblock
    · apply moves_of_same
      · exact fun _ hid => hid
      · intro id hid
        rw [hbuffer] at hid
        cases hid
      · exact fun s' hs' => .inr (.inr ⟨s', .inr hs', rfl, Nat.le_refl _⟩)
  · rw [hother.read_characters, bind_ok]
    exact append_builds shared other.m_string hzero h hother.bound hother.narrow

/-! ## Room, sizes and strings -/

omit hzero in
variable {shared given} in
theorem Ready.builds {capacity : Nat} {blocks₁ : Blocks} {b₁ : StringBuilder}
    (hr : Ready shared given blocks b content b.m_is8Bit capacity blocks₁ b₁ id) :
    Holds blocks₁ b₁ content ∧ Moves shared given blocks b blocks₁ b₁ :=
  ⟨hr.holds h.bound h.narrow, hr.moves⟩

/-- **Room is made**, if the builder is not an empty one without a buffer whose flag says that it has UChars. -/
theorem reserveCapacity_builds {newCapacity : Nat}
    (hflag : b.m_length = 0 → b.m_buffer = none → 0 < newCapacity → b.m_is8Bit = true) :
    Builds shared given blocks b content (b.reserveCapacity shared blocks newCapacity) := by
  rw [reserveCapacity.eq_def]
  cases hid : b.m_buffer with
  | some id =>
    obtain ⟨-, rest, hblock, -⟩ := h.buffer id hid
    simp only [findBlock_eq hblock, bind_ok]
    split_ifs with hgrow
    · simp only [Block.length, List.length_append, List.length_map] at hgrow
      refine (reallocateBuffer_ready shared given hzero h hid (by omega) (by omega)).imp ?_
      rintro ⟨blocks₁, b₁⟩ ⟨id₁, hready⟩
      exact hready.builds h
    · exact builds_self h
  | none =>
    simp only
    split_ifs with hgrow hnil
    · exact builds_self h
    · have h8 := hflag hnil hid (by omega)
      obtain rfl : content = [] := List.eq_nil_of_length_eq_zero (h.length_eq.symm.trans hnil)
      have hread : readCharacters blocks none true b.m_length = .ok [] := by
        rw [hnil]
        exact readCharacters_zero _
      refine (allocateBuffer_ready shared given hzero h.length_eq h8 hread (h8 ▸ h.narrow) (by omega) (by simp)).imp ?_
      rintro ⟨blocks₁, b₁⟩ hready
      rw [← h8] at hready
      exact hready.builds h
    · have hne : content ≠ [] := by
        rintro rfl
        exact hnil h.length_eq
      obtain ⟨s, hs⟩ := Option.ne_none_iff_exists'.1 (h.source hid hne)
      obtain ⟨-, -, block, hblock, -⟩ := h.string s hs
      have hwidth : block.is8Bit = b.m_is8Bit := h.width s block hs hne hblock
      simp only [hs, SharedString.is8Bit, findBlock_eq hblock, bind_ok, pure, Except.pure, hwidth]
      have hlength : b.m_length = content.length := h.length_eq
      refine (allocateBuffer_ready shared given hzero hlength rfl (h.read_string hs) h.narrow (by omega) (by omega)).imp ?_
      rintro ⟨blocks₁, b₁⟩ hready
      exact hready.builds h

end

section

variable (shared given) (hempty : blocks[0]? = some ⟨true, []⟩) (h : Holds blocks b content)

theorem holds_take {b₁ : StringBuilder} {rest : List (Option UChar)} {newSize : Nat} (hle : newSize ≤ content.length)
    (hbound : content.length < 2 ^ 32) (hnarrow : Narrow b₁.m_is8Bit content)
    (hlength : b₁.m_length = newSize) (hstring : b₁.m_string = none) (hid : b₁.m_buffer = some id) (hne : id ≠ 0)
    (hblock : blocks[id]? = some ⟨b₁.m_is8Bit, content.map some ++ rest⟩) (hfull : content.length + rest.length < 2 ^ 32) :
    Holds blocks b₁ (content.take newSize) := by
  have htake : (content.take newSize).length = newSize := List.length_take_of_le hle
  refine holds_of_buffer (hlength.trans htake.symm) (by omega) ?_ hstring hid hne
    ⟨(content.drop newSize).map some ++ rest, ?_, ?_⟩
  · exact fun h8 c hc => hnarrow h8 c (List.mem_of_mem_take hc)
  · rw [← List.append_assoc, ← List.map_append, List.take_append_drop]
    exact hblock
  · rw [List.length_append, List.length_map, List.length_drop, htake]
    omega

include hempty h

/-- **The first characters are kept.** -/
theorem resize_builds {newSize : Nat} (hle : newSize ≤ b.m_length) :
    Builds shared given blocks b (content.take newSize) (b.resize shared blocks newSize) := by
  have hzero : 0 < blocks.length := (List.getElem?_eq_some_iff.1 hempty).1
  have hsize : newSize ≤ content.length := h.length_eq ▸ hle
  rw [resize]
  split_ifs with heq
  · rw [List.take_of_length_le (by rw [heq, h.length_eq])]
    exact builds_self h
  cases hid : b.m_buffer with
  | some id =>
    obtain ⟨hne, rest, hblock, hfull⟩ := h.buffer id hid
    simp only [findBlock_eq hblock, bind_ok]
    split_ifs with href
    · have hshared : shared id = false := by simpa [hasOneRef] using href
      refine ⟨holds_take hsize h.bound h.narrow rfl rfl rfl hne hblock hfull, ?_⟩
      apply moves_of_same
      · exact fun _ hid' => hid.trans hid'
      · intro id' hid' hs
        obtain rfl := Option.some.inj hid'
        rw [hshared] at hs
        cases hs
      · intro s hs
        cases hs
    · have hlength : 0 < content.length := by
        rw [← h.length_eq]
        omega
      rw [← hid]
      simp only [Block.length, List.length_append, List.length_map]
      refine ends_bind (allocateBuffer_ready shared given (b := { b with m_string := none }) hzero h.length_eq rfl
        (h.read_buffer hid) h.narrow (by omega) (by omega)) ?_
      rintro ⟨blocks₁, b₁⟩ hready
      have hready := hready.of_clear fun _ => h.buffer_lt
      obtain ⟨rest₁, hblock₁, hlength₁, hfull₁⟩ := hready.block
      rw [← hready.width] at hblock₁
      refine ⟨holds_take hsize h.bound (hready.width ▸ h.narrow) rfl hready.string hready.buffer hready.nonzero hblock₁
        (hlength₁ ▸ hfull₁), ?_⟩
      apply hready.moves.of_fresh
      · intro id' hid'
        exact Nat.le_of_eq (Option.some.inj (hready.buffer.symm.trans hid'))
      · exact hready.string
  | none =>
    have hne : content ≠ [] := by
      rintro rfl
      have hnil : b.m_length = 0 := h.length_eq
      omega
    obtain ⟨s, hs⟩ := Option.ne_none_iff_exists'.1 (h.source hid hne)
    have hhas := h.string s hs
    have hshare := hhas.share hempty 0 newSize (by rw [Nat.zero_add, hhas.1]; exact hsize)
    obtain ⟨-, -, block, hblock, -⟩ := h.string s hs
    have hwidth := h.width s block hs hne hblock
    rw [List.drop_zero] at hshare
    simp only [hs]
    have htake : (content.take newSize).length = newSize := List.length_take_of_le hsize
    have hnarrow : Narrow b.m_is8Bit (content.take newSize) := fun h8 c hc => h.narrow h8 c (List.mem_of_mem_take hc)
    by_cases hnil : newSize = 0
    · subst hnil
      rw [List.take_zero] at hshare hnarrow ⊢
      refine ⟨holds_of_string hshare hempty rfl rfl rfl hnarrow fun hne => absurd rfl hne, ?_⟩
      apply moves_of_same
      · exact fun _ hid' => hid.trans hid'
      · intro _ hid'
        cases hid'
      · intro s' hs'
        obtain rfl := Option.some.inj hs'
        exact .inl rfl
    · rw [SharedString.createSubstringSharing, if_neg hnil] at hshare ⊢
      refine ⟨holds_of_string hshare hblock rfl rfl htake.symm hnarrow fun _ => hwidth, ?_⟩
      apply moves_of_same
      · exact fun _ hid' => hid.trans hid'
      · intro _ hid'
        cases hid'
      · intro s' hs'
        obtain rfl := Option.some.inj hs'
        refine .inr (.inr ⟨s, .inl hs, rfl, ?_⟩)
        rw [hhas.1]
        exact Nat.add_le_add_left hsize s.offset

omit hempty in
theorem Ready.handOver {blocks₁ : Blocks} {b₁ : StringBuilder}
    (hr : Ready shared given blocks b content b.m_is8Bit content.length blocks₁ b₁ id) :
    Ends (· = Fault.crash) (fun r => Holds r.1 r.2 content ∧ Moves shared given blocks b r.1 r.2)
      (do
        let id ← b₁.m_buffer.elim (.error .outOfBounds) .ok
        let s ← SharedString.ofBlock blocks₁ id
        return (blocks₁, { b₁ with m_string := some s, m_buffer := none })) := by
  obtain ⟨rest, hblock, hlength, -⟩ := hr.block
  obtain rfl : rest = [] := List.eq_nil_of_length_eq_zero (by omega)
  rw [List.append_nil] at hblock
  have hhas : Has blocks₁ ⟨id, 0, content.length⟩ content := ⟨rfl, h.bound, _, hblock, by simp, h.narrow⟩
  simp only [hr.buffer, Option.elim_some, SharedString.ofBlock, findBlock_eq hblock, bind_ok, pure, Except.pure, ends_ok,
    Block.length, List.length_map]
  refine ⟨holds_of_string hhas hblock rfl rfl hr.length_eq (hr.width ▸ h.narrow) fun _ => hr.width.symm, ?_⟩
  refine ⟨hr.moves.grows, hr.moves.same, hr.moves.front, fun _ hid => (nomatch hid), ?_⟩
  intro s hs
  obtain rfl := Option.some.inj hs
  rcases hr.moves.buffer id hr.buffer with hid | hid
  · exact .inr (.inl hid.1)
  · exact .inr (.inr (.inl hid))

omit hempty in
theorem reallocateBuffer_zero (hid : b.m_buffer = some id) (hnil : b.m_length = 0) :
    b.reallocateBuffer shared blocks b.m_is8Bit 0 = .ok (blocks, { b with m_buffer := some 0, m_string := none }) := by
  obtain ⟨-, rest, hblock, -⟩ := h.buffer id hid
  rw [reallocateBuffer.eq_def, hid]
  simp only [findBlock_eq hblock, bind_ok, Bool.not_and_self, Bool.false_eq_true, if_false]
  split_ifs
  · simp [reallocate, findBlock_eq hblock, bind_ok, pure, Except.pure]
  · simp [allocateBuffer, fillBuffer, createUninitialized, bind_ok, hnil, readCharacters_zero, writeCharacters, pure,
      Except.pure]

/-- **The buffer is cut to its characters** and becomes the string, if it is much longer. -/
theorem shrinkToFit_builds : Builds shared given blocks b content (b.shrinkToFit shared blocks) := by
  have hzero : 0 < blocks.length := (List.getElem?_eq_some_iff.1 hempty).1
  rw [shrinkToFit, canShrink.eq_def]
  cases hid : b.m_buffer with
  | none => exact builds_self h
  | some id =>
    obtain ⟨hne, rest, hblock, hfull⟩ := h.buffer id hid
    simp only [findBlock_eq hblock, bind_ok, pure, Except.pure]
    split_ifs with hshrink
    · by_cases hnil : content = []
      · subst hnil
        have hlength : b.m_length = 0 := h.length_eq
        rw [hlength, reallocateBuffer_zero shared h hid hlength]
        simp only [Option.elim_some, SharedString.ofBlock, findBlock_eq hempty, bind_ok, pure, Except.pure]
        refine ⟨holds_of_string (has_empty hempty) hempty rfl rfl hlength h.narrow fun hne => absurd rfl hne, ?_⟩
        apply moves_of_same
        · intro _ hid'
          cases hid'
        · intro _ hid'
          cases hid'
        · intro s hs
          obtain rfl := Option.some.inj hs
          exact .inl rfl
      · have hpos : 0 < b.m_length := by
          rw [h.length_eq]
          exact List.length_pos_iff.2 hnil
        refine ends_bind (reallocateBuffer_ready shared given hzero h hid hpos h.length_eq.ge) ?_
        rintro ⟨blocks₁, b₁⟩ ⟨id₁, hr⟩
        rw [h.length_eq] at hr
        exact hr.handOver shared given h
    · exact builds_self h

omit hempty in
theorem Holds.set_string {s : SharedString} (hs : Has blocks s content)
    (hwidth : content ≠ [] → ∀ block, blocks[s.block]? = some block → block.is8Bit = b.m_is8Bit)
    (hown : b.m_buffer = some s.block → s.offset + s.length ≤ b.m_length) :
    Holds blocks { b with m_string := some s } content where
  length_eq := h.length_eq
  bound := h.bound
  narrow := h.narrow
  string := fun s' hs' => by
    obtain rfl := Option.some.inj hs'
    exact hs
  width := fun s' block hs' hne hblock => by
    obtain rfl := Option.some.inj hs'
    exact hwidth hne block hblock
  own := fun s' hs' hid => by
    obtain rfl := Option.some.inj hs'
    exact hown hid
  buffer := h.buffer
  source := fun _ _ hnone => by cases hnone

/-- **There is a string of what has been built.** -/
theorem reifyString_builds :
    Ends (· = .crash)
      (fun r => (Holds r.1 r.2 content ∧ Moves shared given blocks b r.1 r.2) ∧ r.2.m_string ≠ none)
      (b.reifyString blocks) := by
  rw [reifyString.eq_def]
  cases hs : b.m_string with
  | some s => exact ⟨builds_self h, by simp [hs]⟩
  | none =>
    simp only
    split_ifs with hnil
    · obtain rfl : content = [] := List.eq_nil_of_length_eq_zero (h.length_eq.symm.trans hnil)
      refine ⟨⟨h.set_string (has_empty hempty) (fun hne => absurd rfl hne) fun _ => Nat.zero_le _, ?_⟩,
        Option.some_ne_none _⟩
      apply moves_of_same
      · exact fun _ hid => hid
      · exact fun _ _ _ => Nat.le_refl _
      · intro s hs
        obtain rfl := Option.some.inj hs
        exact .inl rfl
    · cases hid : b.m_buffer with
      | none =>
        refine absurd hs (h.source hid ?_)
        rintro rfl
        exact hnil h.length_eq
      | some id =>
        obtain ⟨hne, rest, hblock, hfull⟩ := h.buffer id hid
        have hlength : b.m_length = content.length := h.length_eq
        have hstring : ∀ length, (if b.m_length = length then (⟨id, 0, length⟩ : SharedString)
            else (⟨id, 0, length⟩ : SharedString).createSubstringSharing 0 b.m_length) = ⟨id, 0, b.m_length⟩ := by
          intro length
          split_ifs with heq
          · rw [heq]
          · rw [SharedString.createSubstringSharing, if_neg hnil]
        simp only [SharedString.ofBlock, findBlock_eq hblock, bind_ok, pure, Except.pure, hstring]
        have hhas : Has blocks ⟨id, 0, b.m_length⟩ content :=
          ⟨hlength, h.bound, _, hblock, by simp [hlength], h.narrow⟩
        refine ⟨⟨?_, ?_⟩, Option.some_ne_none _⟩
        · rw [← hid]
          refine h.set_string hhas ?_ fun _ => Nat.le_of_eq (Nat.zero_add _)
          intro _ block hblock'
          obtain rfl := Option.some.inj (hblock.symm.trans hblock')
          rfl
        · apply moves_of_same
          · exact fun _ hid' => hid.trans hid'
          · exact fun _ _ _ => Nat.le_refl _
          · intro s hs
            obtain rfl := Option.some.inj hs
            exact .inr (.inl hid)

/-- **There is a string**, of a buffer that is not much longer. -/
theorem toString_builds :
    Ends (· = .crash)
      (fun r => (Holds r.1 r.2 content ∧ Moves shared given blocks b r.1 r.2) ∧ r.2.m_string ≠ none)
      (b.toString shared blocks) := by
  refine ends_bind (shrinkToFit_builds shared given hempty h) ?_
  rintro ⟨blocks₁, b₁⟩ ⟨hholds, hmoves⟩
  have hempty₁ : blocks₁[0]? = some ⟨true, []⟩ := by
    rw [hmoves.same 0 (List.getElem?_eq_some_iff.1 hempty).1 fun hid => (h.buffer 0 hid).1 rfl, hempty]
  refine (reifyString_builds shared given hempty₁ hholds).imp ?_
  rintro ⟨blocks₂, b₂⟩ ⟨⟨hholds₂, hmoves₂⟩, hstring⟩
  exact ⟨⟨hholds₂, hmoves.trans (fun _ => h.buffer_lt) hmoves₂⟩, hstring⟩

omit hempty h in
theorem clear_holds : Holds blocks b.clear [] ∧ Moves shared given blocks b blocks b.clear := by
  constructor
  · exact ⟨rfl, by decide, fun _ _ hc => (nomatch hc), fun _ hs => (nomatch hs), fun _ _ hs => (nomatch hs),
      fun _ hs => (nomatch hs), fun _ hid => (nomatch hid), fun _ hne => absurd rfl hne⟩
  · exact moves_of_same (fun _ hid => (nomatch hid)) (fun _ hid => (nomatch hid)) fun _ hs => (nomatch hs)

end

end WebKit.WTF.StringBuilder
