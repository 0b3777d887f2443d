import WebKit.Lib.Pointwise
import WebKit.Lib.Run
import WebKit.WTF.StringBuilderCalls

/-!
# String builders and strings that share their blocks

Each builder is a sequence of code units and each string that was handed out is one that stays (`Built`, `specStep`).
`Inv` connects a state to them: the builders hold their sequences, no two have the same buffer, and what refers to the
buffer of a builder ends at or before its length. It is kept when one builder moves (`Inv.change`), when two are
exchanged (`Inv.swap`), and when a string is handed out (`Inv.addString`).
-/

namespace WebKit.WTF

open Transition StringBuilder WebKit.Lib

/-- What the builders have built and the strings hold, with `none` for the null string. -/
structure Built where
  builders : List (List UChar)
  strings : List (Option (List UChar))
  deriving DecidableEq, Repr

namespace BuilderState

/-! ## What the calls are for -/

/-- The part of a string from `offset` on, if it is one. -/
def part (offset length : Nat) (content : List UChar) : List UChar :=
  if offset + length ≤ content.length then (content.drop offset).take length else []

/-- Builder `i` goes on with `cs`. -/
def Built.append (built : Built) (i : Nat) (cs : List UChar) : Built :=
  { built with builders := built.builders.modify i (· ++ cs) }

def specStep (built : Built) : BuilderOp → Built
  | .newBuilder => { built with builders := built.builders ++ [[]] }
  | .newString8 characters => { built with strings := built.strings ++ [some (widen characters.1)] }
  | .newString16 characters => { built with strings := built.strings ++ [some characters.1] }
  | .shareString j offset length =>
    match built.strings[j]? with
    | some (some content) =>
      if offset + length ≤ content.length then
        { built with strings := built.strings ++ [some ((content.drop offset).take length)] }
      else built
    | _ => built
  | .dropString j => { built with strings := built.strings.set j none }
  | .append8 i characters => Built.append built i (widen characters.1)
  | .append16 i characters => Built.append built i characters.1
  | .appendLChar i c => Built.append built i [c.toUInt16]
  | .appendUChar i c => Built.append built i [c]
  | .appendUChar32 i c => Built.append built i (codeUnits c)
  | .appendString i j => (built.strings[j]?).elim built fun string => Built.append built i (string.getD [])
  | .appendSubstring i j offset length =>
    (built.strings[j]?).elim built fun string => Built.append built i (part offset length (string.getD []))
  | .appendBuilder i j => (built.builders[j]?).elim built fun content => Built.append built i content
  | .reserveCapacity _ _ | .shrinkToFit _ => built
  | .resize i newSize => { built with builders := built.builders.modify i (·.take newSize) }
  | .toString i | .toStringPreserveCapacity i =>
    (built.builders[i]?).elim built fun content => { built with strings := built.strings ++ [some content] }
  | .clear i => { built with builders := built.builders.modify i fun _ => [] }
  | .swap i j => (built.builders[i]?).elim built fun content => (built.builders[j]?).elim built fun content' =>
    { built with builders := (built.builders.set i content').set j content }

/-- What a step must keep to. -/
def fits (s : BuilderState) : BuilderOp → Bool
  | .appendSubstring _ j offset length =>
    (s.strings[j]?).all fun string => string.all fun string =>
      string.length = 0 || offset + length < 2 ^ 32 || string.length < (offset + length) % 2 ^ 32
  | .appendBuilder i j => i ≠ j && (s.builders[i]?).all fun b => (s.builders[j]?).all fun other =>
    !(b.m_length = 0 && b.m_buffer.isNone && other.m_length ≠ 0 && other.m_string.isSome) || b.m_is8Bit = other.m_is8Bit
  | .reserveCapacity i newCapacity => (s.builders[i]?).all fun b =>
    !(b.m_length = 0 && b.m_buffer.isNone && 0 < newCapacity) || b.m_is8Bit
  | .resize i newSize => (s.builders[i]?).all fun b => newSize ≤ b.m_length
  | _ => true

/-! ## The invariant -/

/-- A builder or a string refers to the characters `r`. -/
def Refers (s : BuilderState) (r : SharedString) : Prop :=
  (∃ c ∈ s.builders, c.m_string = some r) ∨ some r ∈ s.strings

structure Inv (s : BuilderState) (built : Built) : Prop where
  empty : s.blocks[0]? = some ⟨true, []⟩
  builders : List.Forall₂ (Holds s.blocks) s.builders built.builders
  strings : List.Forall₂ (Option.Rel (Has s.blocks)) s.strings built.strings
  distinct : ∀ (i j : Nat) (b c : StringBuilder) (id : Nat), s.builders[i]? = some b → s.builders[j]? = some c →
    b.m_buffer = some id → c.m_buffer = some id → i = j
  bounded : ∀ r, s.Refers r → ∀ b ∈ s.builders, b.m_buffer = some r.block → r.offset + r.length ≤ b.m_length

theorem inv_initial : Inv initial ⟨[], []⟩ where
  empty := rfl
  builders := .nil
  strings := .nil
  distinct := fun _ _ _ _ _ h => by cases h
  bounded := fun _ _ _ h => by cases h

variable {s : BuilderState} {built : Built} {blocks' : Blocks} {shared : Nat → Bool} {given : Option SharedString}
  {blocks : Blocks} {b b' : StringBuilder} {r : SharedString} {content : List UChar}

/-- What a string refers to stays when a builder moves. -/
theorem has_moves (hm : Moves shared given blocks b blocks' b') (hs : Has blocks r content)
    (hshared : b.m_buffer = some r.block → shared r.block = true ∧ r.offset + r.length ≤ b.m_length) :
    Has blocks' r content ∧ ∀ block block', blocks[r.block]? = some block → blocks'[r.block]? = some block' →
      block'.is8Bit = block.is8Bit := by
  obtain ⟨hlength, hbound, block, hblock, hcharacters, hnarrow⟩ := hs
  have hstays : ∃ block', blocks'[r.block]? = some block' ∧ block'.is8Bit = block.is8Bit ∧
      (block'.characters.drop r.offset).take r.length = (block.characters.drop r.offset).take r.length := by
    by_cases hid : b.m_buffer = some r.block
    · obtain ⟨hs, hle⟩ := hshared hid
      obtain ⟨block', hblock', hwidth, hfront⟩ := hm.front r.block block hid hs hblock
      refine ⟨block', hblock', hwidth, ?_⟩
      have hcut : ∀ l : List (Option UChar),
          (l.drop r.offset).take r.length = ((l.take b.m_length).drop r.offset).take r.length := by
        intro l
        rw [List.drop_take, List.take_take, Nat.min_eq_left]
        omega
      rw [hcut, hfront, ← hcut]
    · refine ⟨block, ?_, rfl, rfl⟩
      rw [hm.same r.block (List.getElem?_eq_some_iff.1 hblock).1 hid, hblock]
  obtain ⟨block', hblock', hwidth, hsame⟩ := hstays
  refine ⟨⟨hlength, hbound, block', hblock', hsame.trans hcharacters, hwidth ▸ hnarrow⟩, ?_⟩
  intro block₁ block₁' h₁ h₁'
  obtain rfl := Option.some.inj (hblock.symm.trans h₁)
  obtain rfl := Option.some.inj (hblock'.symm.trans h₁')
  exact hwidth

theorem holds_moves (hm : Moves shared given blocks b blocks' b') {c : StringBuilder} (hc : Holds blocks c content)
    (hstring : ∀ r, c.m_string = some r → b.m_buffer = some r.block →
      shared r.block = true ∧ r.offset + r.length ≤ b.m_length)
    (hbuffer : ∀ id, c.m_buffer = some id → b.m_buffer ≠ some id) : Holds blocks' c content where
  length_eq := hc.length_eq
  bound := hc.bound
  narrow := hc.narrow
  string := fun r hr => (has_moves hm (hc.string r hr) (hstring r hr)).1
  width := fun r block' hr hne hblock' => by
    obtain ⟨-, -, block, hblock, -⟩ := hc.string r hr
    rw [(has_moves hm (hc.string r hr) (hstring r hr)).2 block block' hblock hblock']
    exact hc.width r block hr hne hblock
  own := hc.own
  buffer := fun id hid => by
    rw [hm.same id (hc.buffer_lt hid) (hbuffer id hid)]
    exact hc.buffer id hid
  source := hc.source

theorem shared_of_builder {i j : Nat} {c : StringBuilder} (hij : j ≠ i) (hc : s.builders[j]? = some c)
    (hr : c.m_string = some r) : s.shared i r.block = true := by
  have hmem : c ∈ s.builders.eraseIdx i := by
    rw [List.mem_eraseIdx_iff_getElem?]
    exact ⟨j, hij, hc⟩
  rw [shared, Bool.or_eq_true, List.any_eq_true]
  exact .inl ⟨c, hmem, by simp [hr]⟩

theorem shared_of_string {i : Nat} (hr : some r ∈ s.strings) : s.shared i r.block = true := by
  rw [shared, Bool.or_eq_true, List.any_eq_true, List.any_eq_true]
  exact .inr ⟨some r, hr, by simp⟩

theorem Inv.block_lt (h : Inv s built) (hr : s.Refers r) : r.block < s.blocks.length := by
  rcases hr with ⟨c, hc, hr⟩ | hr
  · obtain ⟨j, hj⟩ := List.getElem?_of_mem hc
    obtain ⟨content, -, hholds⟩ := forall₂_getElem? h.builders hj
    obtain ⟨-, -, block, hblock, -⟩ := hholds.string r hr
    exact (List.getElem?_eq_some_iff.1 hblock).1
  · obtain ⟨j, hj⟩ := List.getElem?_of_mem hr
    obtain ⟨content, -, hrel⟩ := forall₂_getElem? h.strings hj
    cases hrel with
    | some hhas =>
      obtain ⟨-, -, block, hblock, -⟩ := hhas
      exact (List.getElem?_eq_some_iff.1 hblock).1

/-- **One builder moves.** -/
theorem Inv.change (h : Inv s built) {i : Nat} (hb : s.builders[i]? = some b) {f : List UChar → List UChar}
    {content : List UChar} (hcontent : built.builders[i]? = some content) (hholds : Holds blocks' b' (f content))
    (hm : Moves (s.shared i) given s.blocks b blocks' b') (hgiven : ∀ r, given = some r → s.Refers r) :
    Inv { s with blocks := blocks', builders := s.builders.set i b' }
      { built with builders := built.builders.modify i f } := by
  have hbmem : b ∈ s.builders := List.mem_of_getElem? hb
  obtain ⟨_, hcontent', hold⟩ := forall₂_getElem? h.builders hb
  obtain rfl := Option.some.inj (hcontent.symm.trans hcontent')
  have hi : i < s.builders.length := (List.getElem?_eq_some_iff.1 hb).1
  -- What is not builder `i` and refers to its buffer is seen by `shared`.
  have hstring : ∀ (j : Nat) (c : StringBuilder), j ≠ i → s.builders[j]? = some c → ∀ r, c.m_string = some r →
      b.m_buffer = some r.block → s.shared i r.block = true ∧ r.offset + r.length ≤ b.m_length := by
    intro j c hj hc r hr hid
    exact ⟨shared_of_builder hj hc hr, h.bounded r (.inl ⟨c, List.mem_of_getElem? hc, hr⟩) b hbmem hid⟩
  have hother : ∀ (j : Nat) (c : StringBuilder), j ≠ i → s.builders[j]? = some c → ∀ id, c.m_buffer = some id →
      b.m_buffer ≠ some id := fun j c hj hc id hid hid' => hj (h.distinct j i c b id hc hb hid hid')
  have hnew : ∀ (j : Nat) (c : StringBuilder), j ≠ i → s.builders[j]? = some c → ∀ id, c.m_buffer = some id →
      b'.m_buffer ≠ some id := by
    intro j c hj hc id hid hid'
    rcases hm.buffer id hid' with ⟨hown, -⟩ | hfresh
    · exact hother j c hj hc id hid hown
    · obtain ⟨content₁, -, hholds₁⟩ := forall₂_getElem? h.builders hc
      exact absurd (hholds₁.buffer_lt hid) (Nat.not_lt.2 hfresh)
  have hget : ∀ (j : Nat) (c : StringBuilder), (s.builders.set i b')[j]? = some c →
      (j = i ∧ c = b') ∨ (j ≠ i ∧ s.builders[j]? = some c) := by
    intro j c hc
    by_cases hj : i = j
    · subst hj
      rw [List.getElem?_set_self hi] at hc
      exact .inl ⟨rfl, (Option.some.inj hc).symm⟩
    · rw [List.getElem?_set_ne hj] at hc
      exact .inr ⟨Ne.symm hj, hc⟩
  have hrelated : List.Forall₂ (Holds blocks') (s.builders.set i b') (built.builders.modify i f) := by
    rw [forall₂_iff_getElem?]
    refine ⟨by simp [h.builders.length_eq], ?_⟩
    intro j c content₁ hc hcontent₁
    rw [List.getElem?_modify] at hcontent₁
    by_cases hj : i = j
    · subst hj
      rw [List.getElem?_set_self hi] at hc
      obtain rfl := Option.some.inj hc
      rw [hcontent] at hcontent₁
      obtain rfl : f content = content₁ := by simpa using hcontent₁
      exact hholds
    · rw [List.getElem?_set_ne hj] at hc
      obtain ⟨content₂, hcontent₂, hholds₂⟩ := forall₂_getElem? h.builders hc
      rw [hcontent₂] at hcontent₁
      obtain rfl : content₂ = content₁ := by simpa [hj] using hcontent₁
      exact holds_moves hm hholds₂ (hstring j c (Ne.symm hj) hc) (hother j c (Ne.symm hj) hc)
  refine ⟨?_, hrelated, ?_, ?_, ?_⟩
  · rw [hm.same 0 (List.getElem?_eq_some_iff.1 h.empty).1 fun hid => (hold.buffer 0 hid).1 rfl, h.empty]
  · rw [forall₂_iff_getElem?]
    refine ⟨h.strings.length_eq, ?_⟩
    intro j string content₁ hj hcontent₁
    obtain ⟨_, hcontent₂, hrel⟩ := forall₂_getElem? h.strings hj
    obtain rfl := Option.some.inj (hcontent₁.symm.trans hcontent₂)
    cases hrel with
    | none => exact .none
    | some hhas =>
      have hmem := List.mem_of_getElem? hj
      exact .some (has_moves hm hhas fun hid => ⟨shared_of_string hmem, h.bounded _ (.inr hmem) b hbmem hid⟩).1
  · intro j k c d id hc hd hidc hidd
    rcases hget j c hc with ⟨rfl, rfl⟩ | ⟨hj, hold⟩
    · rcases hget k d hd with ⟨rfl, rfl⟩ | ⟨hk, hold'⟩
      · rfl
      · exact absurd hidc (hnew k d hk hold' id hidd)
    · rcases hget k d hd with ⟨rfl, rfl⟩ | ⟨-, hold'⟩
      · exact absurd hidd (hnew j c hj hold id hidc)
      · exact h.distinct j k c d id hold hold' hidc hidd
  · intro r hr c hc hid
    obtain ⟨k, hk⟩ := List.getElem?_of_mem hc
    have hrefers : (∃ r', r = r' ∧ b'.m_string = some r') ∨ s.Refers r ∧ s.shared i r.block = true := by
      rcases hr with ⟨d, hd, hdr⟩ | hr
      · obtain ⟨j, hj⟩ := List.getElem?_of_mem hd
        rcases hget j d hj with ⟨rfl, rfl⟩ | ⟨hne, hj⟩
        · exact .inl ⟨r, rfl, hdr⟩
        · exact .inr ⟨.inl ⟨d, List.mem_of_getElem? hj, hdr⟩, shared_of_builder hne hj hdr⟩
      · exact .inr ⟨.inr hr, shared_of_string hr⟩
    rcases hget k c hk with ⟨rfl, rfl⟩ | ⟨hne, hk⟩
    · rcases hrefers with ⟨_, rfl, hstring'⟩ | ⟨hr, hshared⟩
      · exact hholds.own r hstring' hid
      · rcases hm.buffer r.block hid with ⟨hown, hle⟩ | hfresh
        · exact Nat.le_trans (h.bounded r hr b hbmem hown) (hle hshared)
        · exact absurd (h.block_lt hr) (Nat.not_lt.2 hfresh)
    · have hcmem := List.mem_of_getElem? hk
      rcases hrefers with ⟨_, rfl, hstring'⟩ | ⟨hr, -⟩
      · obtain ⟨content₁, -, hholds₁⟩ := forall₂_getElem? h.builders hk
        rcases hm.string r hstring' with hzero | hown | hfresh | ⟨r₀, hr₀, hblock, hle⟩
        · exact absurd hzero (hholds₁.buffer _ hid).1
        · exact absurd hown (hother k c hne hk _ hid)
        · exact absurd (hholds₁.buffer_lt hid) (Nat.not_lt.2 hfresh)
        · refine Nat.le_trans hle (h.bounded r₀ ?_ c hcmem (hblock ▸ hid))
          rcases hr₀ with hr₀ | hr₀
          · exact .inl ⟨b, hbmem, hr₀⟩
          · exact hgiven r₀ hr₀
      · exact h.bounded r hr c hcmem hid

theorem Inv.addString (h : Inv s built) (hs : Has s.blocks r content)
    (hbounded : ∀ b ∈ s.builders, b.m_buffer = some r.block → r.offset + r.length ≤ b.m_length) :
    Inv { s with strings := s.strings ++ [some r] } { built with strings := built.strings ++ [some content] } where
  empty := h.empty
  builders := h.builders
  strings := forall₂_concat h.strings (.some hs)
  distinct := h.distinct
  bounded := fun r' hr' b hb hid => by
    rcases hr' with hr' | hr'
    · exact h.bounded r' (.inl hr') b hb hid
    · rcases List.mem_append.1 hr' with hr' | hr'
      · exact h.bounded r' (.inr hr') b hb hid
      · obtain rfl : r' = r := by simpa using hr'
        exact hbounded b hb hid

theorem Inv.grow (h : Inv s built) (hgrows : s.blocks.length ≤ blocks'.length)
    (hsame : ∀ id, id < s.blocks.length → blocks'[id]? = s.blocks[id]?) : Inv { s with blocks := blocks' } built where
  empty := by rw [hsame 0 (List.getElem?_eq_some_iff.1 h.empty).1, h.empty]
  builders := h.builders.imp fun c content hc => by
    have hm : Moves (fun _ => false) none s.blocks create blocks' create :=
      moves_of_fresh hsame hgrows (fun _ hid => nomatch hid) rfl
    exact holds_moves hm hc (fun _ _ hid => nomatch hid) fun _ _ hid => nomatch hid
  strings := h.strings.imp fun string content hrel => by
    have hm : Moves (fun _ => false) none s.blocks create blocks' create :=
      moves_of_fresh hsame hgrows (fun _ hid => nomatch hid) rfl
    cases hrel with
    | none => exact .none
    | some hhas => exact .some (has_moves hm hhas fun hid => nomatch hid).1
  distinct := h.distinct
  bounded := h.bounded

theorem getElem?_swap {l : List StringBuilder} {i j : Nat} {c : StringBuilder} (hb : l[i]? = some b) (hc : l[j]? = some c)
    (k : Nat) : ((l.set i c).set j b)[k]? = l[Equiv.swap i j k]? := by
  have hi : i < l.length := (List.getElem?_eq_some_iff.1 hb).1
  have hj : j < l.length := (List.getElem?_eq_some_iff.1 hc).1
  by_cases hkj : j = k
  · subst hkj
    rw [List.getElem?_set_self (by simpa using hj), Equiv.swap_apply_right, hb]
  · rw [List.getElem?_set_ne hkj]
    by_cases hki : i = k
    · subst hki
      rw [List.getElem?_set_self hi, Equiv.swap_apply_left, hc]
    · rw [List.getElem?_set_ne hki, Equiv.swap_apply_of_ne_of_ne (Ne.symm hki) (Ne.symm hkj)]

theorem Inv.swap (h : Inv s built) {i j : Nat} {c : StringBuilder} {content' : List UChar} (hb : s.builders[i]? = some b)
    (hc : s.builders[j]? = some c) (hcontent : built.builders[i]? = some content)
    (hcontent' : built.builders[j]? = some content') :
    Inv { s with builders := (s.builders.set i c).set j b }
      { built with builders := (built.builders.set i content').set j content } := by
  have hmem : ∀ d, d ∈ (s.builders.set i c).set j b → d ∈ s.builders := by
    intro d hd
    obtain ⟨k, hk⟩ := List.getElem?_of_mem hd
    rw [getElem?_swap hb hc] at hk
    exact List.mem_of_getElem? hk
  obtain ⟨_, hcontent₁, hholds⟩ := forall₂_getElem? h.builders hb
  obtain rfl := Option.some.inj (hcontent.symm.trans hcontent₁)
  obtain ⟨_, hcontent₂, hholds'⟩ := forall₂_getElem? h.builders hc
  obtain rfl := Option.some.inj (hcontent'.symm.trans hcontent₂)
  refine ⟨h.empty, forall₂_set (forall₂_set h.builders i hholds') j hholds, h.strings, ?_, ?_⟩
  · intro k l d e id hd he hidd hide
    rw [getElem?_swap hb hc] at hd he
    exact (Equiv.swap i j).injective (h.distinct _ _ d e id hd he hidd hide)
  · intro r hr d hd hid
    refine h.bounded r ?_ d (hmem d hd) hid
    rcases hr with ⟨e, he, her⟩ | hr
    · exact .inl ⟨e, hmem e he, her⟩
    · exact .inr hr

theorem Inv.addBuilder (h : Inv s built) :
    Inv { s with builders := s.builders ++ [create] } { built with builders := built.builders ++ [[]] } := by
  have hget : ∀ (j : Nat) (c : StringBuilder) (id : Nat), (s.builders ++ [create])[j]? = some c → c.m_buffer = some id →
      s.builders[j]? = some c := by
    intro j c id hc hid
    rw [List.getElem?_append] at hc
    split_ifs at hc with hlt
    · exact hc
    · obtain rfl := List.mem_singleton.1 (List.mem_of_getElem? hc)
      cases hid
  refine ⟨h.empty, forall₂_concat h.builders (clear_holds (b := create) (fun _ => false) none).1,
    h.strings, ?_, ?_⟩
  · intro i j b c id hb hc hidb hidc
    exact h.distinct i j b c id (hget i b id hb hidb) (hget j c id hc hidc) hidb hidc
  · intro r hr b hb hid
    obtain ⟨j, hj⟩ := List.getElem?_of_mem hb
    refine h.bounded r ?_ b (List.mem_of_getElem? (hget j b _ hj hid)) hid
    rcases hr with ⟨c, hc, hr⟩ | hr
    · rcases List.mem_append.1 hc with hc | hc
      · exact .inl ⟨c, hc, hr⟩
      · obtain rfl : c = create := by simpa using hc
        cases hr
    · exact .inr hr

theorem Inv.dropString (h : Inv s built) (j : Nat) :
    Inv { s with strings := s.strings.set j none } { built with strings := built.strings.set j none } where
  empty := h.empty
  builders := h.builders
  strings := forall₂_set h.strings j .none
  distinct := h.distinct
  bounded := fun r hr b hb hid => by
    refine h.bounded r ?_ b hb hid
    rcases hr with hr | hr
    · exact .inl hr
    · rcases List.mem_or_eq_of_mem_set hr with hr | hr
      · exact .inr hr
      · cases hr

theorem Inv.share (h : Inv s built) (hr : some r ∈ s.strings) (hhas : Has s.blocks r content) {offset length : Nat}
    (hle : offset + length ≤ r.length) :
    Inv { s with strings := s.strings ++ [some (r.createSubstringSharing offset length)] }
      { built with strings := built.strings ++ [some ((content.drop offset).take length)] } := by
  refine h.addString (hhas.share h.empty offset length hle) ?_
  intro b hb hid
  rw [SharedString.createSubstringSharing] at hid ⊢
  split_ifs at hid ⊢ with hnil
  · exact Nat.zero_le _
  · have := h.bounded r (.inr hr) b hb hid
    simp only
    omega

end BuilderState

end WebKit.WTF
