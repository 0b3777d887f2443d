import WebKit.WTF.StringBuilder

/-!
# What a string builder holds

`Holds blocks b content`: the builder `b` has built `content`, its flag says how wide its string and its buffer are, and
the buffer begins with `content`. `Moves` is what a call may do to the blocks and which of them it may refer to
afterwards: a block that is not the builder's buffer stays, and of a buffer that something else refers to the characters
below the length stay.
-/

namespace WebKit.WTF.StringBuilder

open WebKit.Lib

structure Holds (blocks : Blocks) (b : StringBuilder) (content : List UChar) : Prop where
  length_eq : b.m_length = content.length
  bound : content.length < 2 ^ 32
  narrow : Narrow b.m_is8Bit content
  string : ∀ s, b.m_string = some s → Has blocks s content
  width : ∀ s block, b.m_string = some s → content ≠ [] → blocks[s.block]? = some block → block.is8Bit = b.m_is8Bit
  own : ∀ s, b.m_string = some s → b.m_buffer = some s.block → s.offset + s.length ≤ b.m_length
  buffer : ∀ id, b.m_buffer = some id → id ≠ 0 ∧
    ∃ rest, blocks[id]? = some ⟨b.m_is8Bit, content.map some ++ rest⟩ ∧ content.length + rest.length < 2 ^ 32
  source : b.m_buffer = none → content ≠ [] → b.m_string ≠ none

structure Moves (shared : Nat → Bool) (given : Option SharedString) (blocks : Blocks) (b : StringBuilder)
    (blocks' : Blocks) (b' : StringBuilder) : Prop where
  grows : blocks.length ≤ blocks'.length
  same : ∀ id, id < blocks.length → b.m_buffer ≠ some id → blocks'[id]? = blocks[id]?
  front : ∀ id block, b.m_buffer = some id → shared id = true → blocks[id]? = some block →
    ∃ block', blocks'[id]? = some block' ∧ block'.is8Bit = block.is8Bit ∧
      block'.characters.take b.m_length = block.characters.take b.m_length
  buffer : ∀ id, b'.m_buffer = some id →
    (b.m_buffer = some id ∧ (shared id = true → b.m_length ≤ b'.m_length)) ∨ blocks.length ≤ id
  string : ∀ s, b'.m_string = some s → s.block = 0 ∨ b.m_buffer = some s.block ∨ blocks.length ≤ s.block ∨
    ∃ s₀, (b.m_string = some s₀ ∨ given = some s₀) ∧ s.block = s₀.block ∧ s.offset + s.length ≤ s₀.offset + s₀.length

/-- A call on `b` ends with `content'` built, or crashes. -/
def Builds (shared : Nat → Bool) (given : Option SharedString) (blocks : Blocks) (b : StringBuilder)
    (content' : List UChar) (r : Except Fault (Blocks × StringBuilder)) : Prop :=
  Ends (· = .crash) (fun r => Holds r.1 r.2 content' ∧ Moves shared given blocks b r.1 r.2) r

variable {shared : Nat → Bool} {given : Option SharedString} {blocks blocks' : Blocks} {b b' : StringBuilder}
  {content cs : List UChar} {id : Nat}

/-! ## Moves -/

/-- The blocks stay, and the builder refers to no other ones. -/
theorem moves_of_same (hbuffer : ∀ id, b'.m_buffer = some id → b.m_buffer = some id)
    (hlength : ∀ id, b'.m_buffer = some id → shared id = true → b.m_length ≤ b'.m_length)
    (hstring : ∀ s, b'.m_string = some s → s.block = 0 ∨ b.m_buffer = some s.block ∨
      ∃ s₀, (b.m_string = some s₀ ∨ given = some s₀) ∧ s.block = s₀.block ∧
        s.offset + s.length ≤ s₀.offset + s₀.length) : Moves shared given blocks b blocks b' where
  grows := Nat.le_refl _
  same := fun _ _ _ => rfl
  front := fun _ block _ _ hblock => ⟨block, hblock, rfl, rfl⟩
  buffer := fun id hid => .inl ⟨hbuffer id hid, hlength id hid⟩
  string := fun s hs => by
    rcases hstring s hs with h | h | h
    · exact .inl h
    · exact .inr (.inl h)
    · exact .inr (.inr (.inr h))

theorem Moves.refl : Moves shared given blocks b blocks b :=
  moves_of_same (fun _ h => h) (fun _ _ _ => Nat.le_refl _) fun s hs => .inr (.inr ⟨s, .inl hs, rfl, Nat.le_refl _⟩)

theorem moves_of_fresh (hsame : ∀ i, i < blocks.length → blocks'[i]? = blocks[i]?)
    (hgrows : blocks.length ≤ blocks'.length) (hbuffer : ∀ id, b'.m_buffer = some id → blocks.length ≤ id)
    (hstring : b'.m_string = none) : Moves shared given blocks b blocks' b' where
  grows := hgrows
  same := fun id hid _ => hsame id hid
  front := fun id block _ _ hblock => by
    refine ⟨block, ?_, rfl, rfl⟩
    rw [hsame id (List.getElem?_eq_some_iff.1 hblock).1, hblock]
  buffer := fun id hid => .inr (hbuffer id hid)
  string := fun s hs => by
    rw [hstring] at hs
    cases hs

theorem Moves.of_fresh {b₁ : StringBuilder} (h : Moves shared given blocks b blocks' b')
    (hbuffer : ∀ id, b₁.m_buffer = some id → blocks.length ≤ id) (hstring : b₁.m_string = none) :
    Moves shared given blocks b blocks' b₁ where
  grows := h.grows
  same := h.same
  front := h.front
  buffer := fun id hid => .inr (hbuffer id hid)
  string := fun s hs => by
    rw [hstring] at hs
    cases hs

theorem moves_of_set (hid : b.m_buffer = some id) (block : Block)
    (hfront : shared id = true → ∀ block₀, blocks[id]? = some block₀ →
      block.is8Bit = block₀.is8Bit ∧ block.characters.take b.m_length = block₀.characters.take b.m_length)
    (hbuffer : b'.m_buffer = some id) (hlength : b.m_length ≤ b'.m_length) (hstring : b'.m_string = none) :
    Moves shared given blocks b (blocks.set id block) b' where
  grows := by simp
  same := fun i hi hne => by
    rw [List.getElem?_set_ne]
    rintro rfl
    exact hne hid
  front := fun i block₀ hi hshared hblock => by
    obtain rfl : id = i := Option.some.inj (hid.symm.trans hi)
    refine ⟨block, ?_, hfront hshared block₀ hblock⟩
    rw [List.getElem?_set_self (List.getElem?_eq_some_iff.1 hblock).1]
  buffer := fun i hi => by
    obtain rfl : id = i := Option.some.inj (hbuffer.symm.trans hi)
    exact .inl ⟨hid, fun _ => hlength⟩
  string := fun s hs => by
    rw [hstring] at hs
    cases hs

/-- One call after another. -/
theorem Moves.trans {blocks₁ blocks₂ : Blocks} {b₁ b₂ : StringBuilder}
    (hid : ∀ id, b.m_buffer = some id → id < blocks.length) (h₁ : Moves shared given blocks b blocks₁ b₁)
    (h₂ : Moves shared given blocks₁ b₁ blocks₂ b₂) : Moves shared given blocks b blocks₂ b₂ where
  grows := Nat.le_trans h₁.grows h₂.grows
  same := fun i hi hne => by
    rw [h₂.same i (Nat.lt_of_lt_of_le hi h₁.grows), h₁.same i hi hne]
    intro hb
    rcases h₁.buffer i hb with h | h
    · exact hne h.1
    · omega
  front := fun i block hi hshared hblock => by
    obtain ⟨block₁, hblock₁, hwidth₁, hfront₁⟩ := h₁.front i block hi hshared hblock
    by_cases hb : b₁.m_buffer = some i
    · obtain ⟨block₂, hblock₂, hwidth₂, hfront₂⟩ := h₂.front i block₁ hb hshared hblock₁
      refine ⟨block₂, hblock₂, hwidth₂.trans hwidth₁, ?_⟩
      have hle : b.m_length ≤ b₁.m_length := by
        rcases h₁.buffer i hb with h | h
        · exact h.2 hshared
        · exact absurd (hid i hi) (Nat.not_lt.2 h)
      rw [← hfront₁, ← Nat.min_eq_left hle, ← List.take_take, hfront₂, List.take_take]
    · refine ⟨block₁, ?_, hwidth₁, hfront₁⟩
      rw [h₂.same i (List.getElem?_eq_some_iff.1 hblock₁).1 hb, hblock₁]
  buffer := fun i hi => by
    rcases h₂.buffer i hi with ⟨h, hle⟩ | h
    · rcases h₁.buffer i h with ⟨h', hle'⟩ | h'
      · exact .inl ⟨h', fun hs => Nat.le_trans (hle' hs) (hle hs)⟩
      · exact .inr h'
    · exact .inr (Nat.le_trans h₁.grows h)
  string := fun s hs => by
    rcases h₂.string s hs with h | h | h | ⟨s₀, h | h, hblock, hle⟩
    · exact .inl h
    · rcases h₁.buffer _ h with h' | h'
      · exact .inr (.inl h'.1)
      · exact .inr (.inr (.inl h'))
    · exact .inr (.inr (.inl (Nat.le_trans h₁.grows h)))
    · rw [hblock]
      rcases h₁.string s₀ h with h' | h' | h' | ⟨s₁, h', hblock', hle'⟩
      · exact .inl h'
      · exact .inr (.inl h')
      · exact .inr (.inr (.inl h'))
      · exact .inr (.inr (.inr ⟨s₁, h', hblock', Nat.le_trans hle hle'⟩))
    · exact .inr (.inr (.inr ⟨s₀, .inr h, hblock, hle⟩))

/-! ## What a builder that holds `content` shows -/

theorem holds_of_buffer (hlength : b.m_length = content.length) (hbound : content.length < 2 ^ 32)
    (hnarrow : Narrow b.m_is8Bit content) (hstring : b.m_string = none) (hid : b.m_buffer = some id) (hne : id ≠ 0)
    (hblock : ∃ rest, blocks[id]? = some ⟨b.m_is8Bit, content.map some ++ rest⟩ ∧ content.length + rest.length < 2 ^ 32) :
    Holds blocks b content where
  length_eq := hlength
  bound := hbound
  narrow := hnarrow
  string := fun s hs => by
    rw [hstring] at hs
    cases hs
  width := fun s _ hs => by
    rw [hstring] at hs
    cases hs
  own := fun s hs => by
    rw [hstring] at hs
    cases hs
  buffer := fun i hi => by
    obtain rfl : id = i := Option.some.inj (hid.symm.trans hi)
    exact ⟨hne, hblock⟩
  source := fun h => by
    rw [hid] at h
    cases h

theorem holds_of_string {s : SharedString} {block : Block} (hs : Has blocks s content)
    (hblock : blocks[s.block]? = some block) (hstring : b.m_string = some s) (hbuffer : b.m_buffer = none)
    (hlength : b.m_length = content.length) (hnarrow : Narrow b.m_is8Bit content)
    (hwidth : content ≠ [] → block.is8Bit = b.m_is8Bit) : Holds blocks b content where
  length_eq := hlength
  bound := hs.2.1
  narrow := hnarrow
  string := fun s' hs' => by
    obtain rfl := Option.some.inj (hstring.symm.trans hs')
    exact hs
  width := fun s' block' hs' hne hblock' => by
    obtain rfl := Option.some.inj (hstring.symm.trans hs')
    obtain rfl := Option.some.inj (hblock.symm.trans hblock')
    exact hwidth hne
  own := fun _ _ hid => by
    rw [hbuffer] at hid
    cases hid
  buffer := fun _ hid => by
    rw [hbuffer] at hid
    cases hid
  source := fun _ _ hnone => by
    rw [hstring] at hnone
    cases hnone

theorem Holds.read_buffer (h : Holds blocks b content) (hid : b.m_buffer = some id) :
    readCharacters blocks (some ⟨id, 0⟩) b.m_is8Bit b.m_length = .ok content := by
  obtain ⟨-, rest, hblock, -⟩ := h.buffer id hid
  rw [h.length_eq]
  exact readCharacters_spec ⟨id, 0⟩ content hblock (by simp)

theorem Holds.read_string (h : Holds blocks b content) {s : SharedString} (hs : b.m_string = some s) :
    readCharacters blocks (some s.pointer) b.m_is8Bit b.m_length = .ok content := by
  rw [h.length_eq]
  by_cases hnil : content = []
  · rw [hnil]
    exact readCharacters_zero _
  · obtain ⟨hlength, -, block, hblock, hcharacters, -⟩ := h.string s hs
    rw [← h.width s block hs hnil hblock]
    apply readCharacters_spec _ _ hblock
    rw [← hlength]
    exact hcharacters

/-- The characters are where `characters8` or `characters16` points to. -/
theorem Holds.read_characters (h : Holds blocks b content) :
    readCharacters blocks b.characters b.m_is8Bit b.m_length = .ok content := by
  rw [characters]
  split_ifs with hzero
  · rw [hzero, readCharacters_zero, List.eq_nil_of_length_eq_zero (h.length_eq.symm.trans hzero)]
  · cases hs : b.m_string with
    | some s => exact h.read_string hs
    | none =>
      cases hid : b.m_buffer with
      | some id => exact h.read_buffer hid
      | none =>
        refine absurd hs (h.source hid ?_)
        rintro rfl
        exact hzero h.length_eq

theorem Holds.buffer_lt (h : Holds blocks b content) (hid : b.m_buffer = some id) : id < blocks.length := by
  obtain ⟨-, _, hblock, -⟩ := h.buffer id hid
  exact (List.getElem?_eq_some_iff.1 hblock).1

/-! ## Making room -/

/-- The builder `b₁` has a buffer of `capacity` characters, with `content` in front. -/
structure Ready (shared : Nat → Bool) (given : Option SharedString) (blocks : Blocks) (b : StringBuilder)
    (content : List UChar) (is8Bit : Bool) (capacity : Nat) (blocks₁ : Blocks) (b₁ : StringBuilder) (id : Nat) :
    Prop where
  buffer : b₁.m_buffer = some id
  string : b₁.m_string = none
  nonzero : id ≠ 0
  length_eq : b₁.m_length = content.length
  width : b₁.m_is8Bit = is8Bit
  block : ∃ rest, blocks₁[id]? = some ⟨is8Bit, content.map some ++ rest⟩ ∧
    content.length + rest.length = capacity ∧ capacity < 2 ^ 32
  moves : Moves shared given blocks b blocks₁ b₁

variable {is8Bit : Bool} {capacity : Nat} {blocks₁ : Blocks} {b₁ : StringBuilder}

theorem Ready.holds (h : Ready shared given blocks b content is8Bit capacity blocks₁ b₁ id)
    (hbound : content.length < 2 ^ 32) (hnarrow : Narrow is8Bit content) : Holds blocks₁ b₁ content := by
  obtain ⟨rest, hblock, hlength, hcapacity⟩ := h.block
  refine holds_of_buffer h.length_eq hbound ?_ h.string h.buffer h.nonzero ⟨rest, ?_, hlength ▸ hcapacity⟩
  · rw [h.width]
    exact hnarrow
  · rw [h.width]
    exact hblock

theorem moves_clear : Moves shared given blocks b blocks { b with m_string := none } :=
  moves_of_same (fun _ h => h) (fun _ _ _ => Nat.le_refl _) fun _ h => (nomatch h)

theorem Ready.of_clear
    (h : Ready shared given blocks { b with m_string := none } content is8Bit capacity blocks₁ b₁ id)
    (hid : ∀ id, b.m_buffer = some id → id < blocks.length) :
    Ready shared given blocks b content is8Bit capacity blocks₁ b₁ id :=
  ⟨h.buffer, h.string, h.nonzero, h.length_eq, h.width, h.block, moves_clear.trans hid h.moves⟩

/-- **Characters are written behind the last one.** -/
theorem Ready.write (h : Ready shared given blocks b content is8Bit capacity blocks₁ b₁ id)
    (hbound : (content ++ cs).length < 2 ^ 32) (hnarrow : Narrow is8Bit (content ++ cs))
    (hroom : content.length + cs.length ≤ capacity) (hid : ∀ id, b.m_buffer = some id → id < blocks.length) :
    ∃ blocks₂, writeCharacters blocks₁ ⟨id, content.length⟩ is8Bit cs = .ok blocks₂ ∧
      Holds blocks₂ { b₁ with m_length := content.length + cs.length } (content ++ cs) ∧
      Moves shared given blocks b blocks₂ { b₁ with m_length := content.length + cs.length } := by
  obtain ⟨rest, hblock, hlength, hcapacity⟩ := h.block
  have hnarrowcs : Narrow is8Bit cs := fun h8 c hc => hnarrow h8 c (List.mem_append_right _ hc)
  have hsplit : rest.take cs.length ++ rest.drop cs.length = rest := List.take_append_drop _ _
  have hwrite := writeCharacters_spec ⟨id, content.length⟩ (content.map some) (rest.take cs.length) (rest.drop cs.length)
    (by simp) (by rw [hsplit]; exact hblock) (by rw [List.length_take]; omega) hnarrowcs
  have hlt : id < blocks₁.length := (List.getElem?_eq_some_iff.1 hblock).1
  refine ⟨_, hwrite, ?_, ?_⟩
  · refine holds_of_buffer ?_ hbound ?_ h.string h.buffer h.nonzero ⟨rest.drop cs.length, ?_, ?_⟩
    · exact List.length_append.symm
    · rw [h.width]
      exact hnarrow
    · rw [List.getElem?_set_self hlt, h.width, List.map_append, List.append_assoc]
    · rw [List.length_append, List.length_drop]
      omega
  · refine h.moves.trans hid (moves_of_set h.buffer _ ?_ h.buffer ?_ h.string)
    · intro _ block₀ hblock₀
      obtain rfl := Option.some.inj (hblock.symm.trans hblock₀)
      refine ⟨rfl, ?_⟩
      rw [h.length_eq, List.take_left' (by simp), List.take_left' (by simp)]
    · rw [h.length_eq]
      exact Nat.le_add_right _ _

section

variable (shared given) (hzero : 0 < blocks.length) (hlength : b.m_length = content.length)

include hzero hlength

theorem fillBuffer_ready {from8 : Bool} {current : Option Pointer} {requiredLength : Nat}
    (hread : readCharacters blocks current from8 b.m_length = .ok content) (hnarrow : Narrow is8Bit content)
    (hrequired : 0 < requiredLength) (hle : content.length ≤ requiredLength) :
    Ends (· = .crash)
      (fun r => r.2.m_is8Bit = b.m_is8Bit ∧ Ready shared given blocks b content is8Bit requiredLength r.1
        { r.2 with m_is8Bit := is8Bit } blocks.length)
      (b.fillBuffer blocks from8 is8Bit current requiredLength) := by
  refine ends_bind (createUninitialized_spec hrequired) ?_
  rintro _ ⟨rfl, hlt⟩
  have hreplicate : List.replicate requiredLength (none : Option UChar) =
      List.replicate content.length none ++ List.replicate (requiredLength - content.length) none := by
    rw [List.replicate_append_replicate]
    congr 1
    omega
  have hnew : (blocks ++ [(⟨is8Bit, List.replicate requiredLength none⟩ : Block)])[blocks.length]? =
      some ⟨is8Bit, [] ++ (List.replicate content.length none ++ List.replicate (requiredLength - content.length) none)⟩ := by
    simp [hreplicate]
  have hwrite := writeCharacters_spec ⟨blocks.length, 0⟩ [] (List.replicate content.length none)
    (List.replicate (requiredLength - content.length) none) rfl hnew (by simp) hnarrow
  simp only [readCharacters_append hread, hwrite, bind, Except.bind, pure, Except.pure, ends_ok]
  refine ⟨trivial, rfl, rfl, Nat.ne_of_gt hzero, hlength, rfl,
    ⟨List.replicate (requiredLength - content.length) none, ?_, ?_, hlt⟩, ?_⟩
  · exact List.getElem?_set_self (by simp)
  · rw [List.length_replicate]
    omega
  · refine moves_of_fresh ?_ (by simp) (fun id hid => Nat.le_of_eq (Option.some.inj hid)) rfl
    intro i hi
    rw [List.getElem?_set_ne (Nat.ne_of_gt hi), List.getElem?_append_left hi]

theorem allocateBuffer_ready {current : Option Pointer} {requiredLength : Nat} (hwidth : b.m_is8Bit = is8Bit)
    (hread : readCharacters blocks current is8Bit b.m_length = .ok content) (hnarrow : Narrow is8Bit content)
    (hrequired : 0 < requiredLength) (hle : content.length ≤ requiredLength) :
    Ends (· = .crash)
      (fun r => Ready shared given blocks b content is8Bit requiredLength r.1 r.2 blocks.length)
      (b.allocateBuffer blocks is8Bit current requiredLength) := by
  refine (fillBuffer_ready shared given hzero hlength hread hnarrow hrequired hle).imp ?_
  rintro ⟨blocks₁, b₁⟩ ⟨hflag, hready⟩
  obtain rfl : b₁.m_is8Bit = is8Bit := hflag.trans hwidth
  exact hready

theorem allocateBufferUpConvert_ready {current : Option Pointer} {requiredLength : Nat}
    (hread : readCharacters blocks current true b.m_length = .ok content) (hrequired : 0 < requiredLength)
    (hle : content.length ≤ requiredLength) :
    Ends (· = .crash)
      (fun r => ∃ id, Ready shared given blocks b content false requiredLength r.1 r.2 id)
      (b.allocateBufferUpConvert blocks current requiredLength) := by
  refine ends_bind (fillBuffer_ready shared given hzero hlength hread (fun h => by cases h) hrequired hle) ?_
  rintro ⟨blocks₁, b₁⟩ ⟨-, hready⟩
  exact ⟨blocks.length, hready⟩

end

variable (shared given) in
/-- The buffer is made longer, in place if nothing else refers to it. -/
theorem reallocateBuffer_ready (hzero : 0 < blocks.length) (h : Holds blocks b content) (hid : b.m_buffer = some id)
    {requiredLength : Nat} (hrequired : 0 < requiredLength) (hle : content.length ≤ requiredLength) :
    Ends (· = .crash)
      (fun r => ∃ id, Ready shared given blocks b content b.m_is8Bit requiredLength r.1 r.2 id)
      (b.reallocateBuffer shared blocks b.m_is8Bit requiredLength) := by
  obtain ⟨hne, rest, hblock, -⟩ := h.buffer id hid
  rw [reallocateBuffer, hid]
  simp only [findBlock_eq hblock, bind, Except.bind, Bool.not_and_self, Bool.false_eq_true, if_false]
  split_ifs with href
  · have hshared : shared id = false := by simpa [hasOneRef] using href
    refine ends_bind (reallocate_spec hblock hrequired hle) ?_
    rintro _ ⟨rest', rfl, hlength, hlt⟩
    refine ⟨id, rfl, rfl, hne, h.length_eq, rfl, ⟨rest', ?_, hlength, hlt⟩, ?_⟩
    · exact List.getElem?_set_self (List.getElem?_eq_some_iff.1 hblock).1
    · refine moves_of_set hid _ ?_ rfl (Nat.le_refl _) rfl
      intro hs
      rw [hshared] at hs
      cases hs
  · refine (allocateBuffer_ready shared given (b := { b with m_string := none }) hzero h.length_eq rfl (h.read_buffer hid) h.narrow
      hrequired hle).imp ?_
    rintro ⟨blocks₁, b₁⟩ hready
    exact ⟨blocks.length, hready.of_clear fun _ => h.buffer_lt⟩

end WebKit.WTF.StringBuilder
