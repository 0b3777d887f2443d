import WebKit.WTF.StringBuilderState

/-!
# Runs over string builders

Every call keeps the invariant (`step_ends`), so that a run over builders shows the sequences that were built
(`string_builders_refine`), if no step appends a builder whose string has the other width to an empty one, makes room in
an empty builder that is left with the width of UChars, or is given a part of a string whose end wraps. Else the flag is
stale (`string_builder_stale`).
-/

namespace WebKit.WTF.BuilderState

open Transition StringBuilder WebKit.Lib

variable {s : BuilderState} {built : Built}

/-- The step ends with builders and strings that are `built`, or crashes. -/
def Fine (r : Except Fault BuilderState) (built : Built) : Prop := Ends (· = .crash) (fun t => Inv t built) r

theorem modify_of_none {l : List (List UChar)} {i : Nat} (h : l[i]? = none) (f : List UChar → List UChar) :
    l.modify i f = l := List.modify_eq_self (List.getElem?_eq_none_iff.1 h)

theorem Inv.builder_none (h : Inv s built) {i : Nat} (hb : s.builders[i]? = none) : built.builders[i]? = none := by
  rw [List.getElem?_eq_none_iff] at hb ⊢
  rwa [← h.builders.length_eq]

theorem Inv.string_none (h : Inv s built) {j : Nat} (hj : s.strings[j]? = none) : built.strings[j]? = none := by
  rw [List.getElem?_eq_none_iff] at hj ⊢
  rwa [← h.strings.length_eq]

theorem fine_change (h : Inv s built) (i : Nat) {f : StringBuilder → Except Fault (Blocks × StringBuilder)}
    {g : List UChar → List UChar}
    (hfg : ∀ b content, s.builders[i]? = some b → Holds s.blocks b content →
      ∃ given, (∀ r, given = some r → s.Refers r) ∧ Builds (s.shared i) given s.blocks b (g content) (f b)) :
    Fine (s.change i f) { built with builders := built.builders.modify i g } := by
  rw [BuilderState.change.eq_def]
  cases hb : s.builders[i]? with
  | none =>
    rw [modify_of_none (h.builder_none hb)]
    exact h
  | some b =>
    obtain ⟨content, hcontent, hholds⟩ := forall₂_getElem? h.builders hb
    obtain ⟨given, hgiven, hbuilds⟩ := hfg b content hb hholds
    refine ends_bind hbuilds ?_
    rintro ⟨blocks', b'⟩ ⟨hholds', hmoves⟩
    exact h.change hb hcontent hholds' hmoves hgiven

/-- A call that is given nothing. -/
theorem fine_change_self (h : Inv s built) (i : Nat) {f : StringBuilder → Except Fault (Blocks × StringBuilder)}
    {g : List UChar → List UChar}
    (hfg : ∀ b content, s.builders[i]? = some b → Holds s.blocks b content →
      Builds (s.shared i) none s.blocks b (g content) (f b)) :
    Fine (s.change i f) { built with builders := built.builders.modify i g } :=
  fine_change h i fun b content hb hholds => ⟨none, fun _ hr => (nomatch hr), hfg b content hb hholds⟩

theorem fine_change_same (h : Inv s built) (i : Nat) {f : StringBuilder → Except Fault (Blocks × StringBuilder)}
    (hf : ∀ b content, s.builders[i]? = some b → Holds s.blocks b content →
      Builds (s.shared i) none s.blocks b content (f b)) : Fine (s.change i f) built := by
  have hfine := fine_change_self h i (g := id) hf
  rwa [List.modify_id] at hfine

theorem fine_changeAndHandOut (h : Inv s built) (i : Nat) {f : StringBuilder → Except Fault (Blocks × StringBuilder)}
    (hf : ∀ b content, Holds s.blocks b content → Ends (· = .crash)
      (fun r => (Holds r.1 r.2 content ∧ Moves (s.shared i) none s.blocks b r.1 r.2) ∧ r.2.m_string ≠ none) (f b)) :
    Fine (s.changeAndHandOut i f)
      ((built.builders[i]?).elim built fun content => { built with strings := built.strings ++ [some content] }) := by
  rw [changeAndHandOut.eq_def]
  cases hb : s.builders[i]? with
  | none =>
    rw [h.builder_none hb]
    exact h
  | some b =>
    obtain ⟨content, hcontent, hholds⟩ := forall₂_getElem? h.builders hb
    rw [hcontent]
    refine ends_bind (hf b content hholds) ?_
    rintro ⟨blocks', b'⟩ ⟨⟨hholds', hmoves⟩, hne⟩
    obtain ⟨r, hr⟩ := Option.ne_none_iff_exists'.1 hne
    have hinv := h.change (f := id) hb hcontent hholds' hmoves fun _ hr => nomatch hr
    rw [List.modify_id] at hinv
    have hmem : b' ∈ s.builders.set i b' := List.mem_set (List.getElem?_eq_some_iff.1 hb).1 b'
    have hrefers : Refers { s with blocks := blocks', builders := s.builders.set i b' } r := .inl ⟨b', hmem, hr⟩
    have hadd := hinv.addString (hholds'.string r hr) (hinv.bounded r hrefers)
    rw [← hr] at hadd
    exact hadd

theorem fine_addString (h : Inv s built) {is8Bit : Bool} {characters : List UChar} (hnarrow : Narrow is8Bit characters)
    (hlt : characters.length < 2 ^ 32) :
    Fine (BuilderState.addString s is8Bit characters) { built with strings := built.strings ++ [some characters] } := by
  refine ends_bind (createString_spec h.empty hnarrow hlt) ?_
  rintro ⟨string, blocks'⟩ ⟨hhas, hgrows, hsame, hblock⟩
  refine (h.grow hgrows hsame).addString hhas ?_
  intro b hb hid
  obtain ⟨j, hj⟩ := List.getElem?_of_mem hb
  obtain ⟨content, -, hholds⟩ := forall₂_getElem? h.builders hj
  rcases hblock with hzero | hfresh
  · exact absurd hzero (hholds.buffer _ hid).1
  · exact absurd (hholds.buffer_lt hid) (Nat.not_lt.2 hfresh)

theorem and_toUInt16 (c : UInt8) : c.toUInt16 &&& 0xff = c.toUInt16 :=
  forall_uint8 (p := fun c => c.toUInt16 &&& 0xff = c.toUInt16) (by decide +kernel) c

theorem narrow_widen (characters : List UInt8) : Narrow true (widen characters) := by
  intro _ c hc
  obtain ⟨x, -, rfl⟩ := List.mem_map.1 hc
  exact and_toUInt16 x

theorem length_widen (characters : Characters UInt8) : (widen characters.1).length < 2 ^ 32 := by
  rw [widen, List.length_map]
  exact characters.2

theorem Inv.string (h : Inv s built) {j : Nat} {string : Option SharedString} (hj : s.strings[j]? = some string) :
    ∃ content, built.strings[j]? = some content ∧ (∀ r, string = some r → Has s.blocks r (content.getD [])) ∧
      (string = none → content.getD [] = []) ∧ ∀ r, string = some r → s.Refers r := by
  obtain ⟨content, hcontent, hrel⟩ := forall₂_getElem? h.strings hj
  refine ⟨content, hcontent, ?_, ?_, ?_⟩
  · rintro r rfl
    cases hrel with
    | some hhas => exact hhas
  · rintro rfl
    cases hrel
    rfl
  · rintro r rfl
    exact .inr (List.mem_of_getElem? hj)

/-- **A step keeps the sequences.** -/
theorem step_ends (h : Inv s built) (op : BuilderOp) (hfits : s.fits op = true) :
    Fine (s.step op) (specStep built op) := by
  have hzero : 0 < s.blocks.length := (List.getElem?_eq_some_iff.1 h.empty).1
  cases op with
  | newBuilder => exact h.addBuilder
  | newString8 characters => exact fine_addString h (narrow_widen _) (length_widen _)
  | newString16 characters => exact fine_addString h narrow_false characters.2
  | shareString j offset length =>
    rw [step, specStep]
    cases hj : s.strings[j]? with
    | none =>
      rw [h.string_none hj]
      exact h
    | some string =>
      obtain ⟨content, hcontent, hrel⟩ := forall₂_getElem? h.strings hj
      rw [hcontent]
      cases hrel with
      | none => exact h
      | some hhas =>
        simp only [← hhas.1]
        split_ifs with hle
        · exact h.share (List.mem_of_getElem? hj) hhas hle
        · exact h
  | dropString j => exact h.dropString j
  | append8 i characters =>
    exact fine_change_self h i fun b content _ hb => append8_builds _ _ hzero hb (length_widen _) (narrow_widen _)
  | append16 i characters =>
    exact fine_change_self h i fun b content _ hb => append16_builds _ _ hzero hb characters.2
  | appendLChar i c =>
    exact fine_change_self h i fun b content _ hb => appendLChar_builds _ _ hzero hb (and_toUInt16 c)
  | appendUChar i c => exact fine_change_self h i fun b content _ hb => appendUChar_builds _ _ hzero hb c
  | appendUChar32 i c => exact fine_change_self h i fun b content _ hb => appendUChar32_builds _ _ hzero hb c
  | appendString i j =>
    rw [step, specStep]
    cases hj : s.strings[j]? with
    | none =>
      rw [h.string_none hj]
      exact fine_change_same h i fun b content _ hb => builds_self hb
    | some string =>
      obtain ⟨content, hcontent, hhas, hnull, hrefers⟩ := h.string hj
      rw [hcontent]
      apply fine_change h i
      intro b _ _ hb
      exact ⟨string, hrefers, appendString_builds _ hzero hb hhas hnull⟩
  | appendSubstring i j offset length =>
    rw [step, specStep]
    rw [fits] at hfits
    cases hj : s.strings[j]? with
    | none =>
      rw [h.string_none hj]
      exact fine_change_same h i fun b content _ hb => builds_self hb
    | some string =>
      obtain ⟨content, hcontent, hhas, hnull, -⟩ := h.string hj
      rw [hj] at hfits
      rw [hcontent]
      apply fine_change_self h i
      intro b _ _ hb
      apply appendSubstring_builds _ _ hzero hb hhas hnull
      rintro r rfl
      simpa [or_assoc] using hfits
  | appendBuilder i j =>
    rw [step, specStep]
    rw [fits, Bool.and_eq_true, decide_eq_true_iff] at hfits
    cases hj : s.builders[j]? with
    | none =>
      rw [h.builder_none hj]
      exact fine_change_same h i fun b content _ hb => builds_self hb
    | some other =>
      obtain ⟨content, hcontent, hother⟩ := forall₂_getElem? h.builders hj
      rw [hcontent]
      apply fine_change h i
      intro b _ hb hholds
      refine ⟨other.m_string, fun r hr => .inl ⟨other, List.mem_of_getElem? hj, hr⟩, ?_⟩
      apply appendBuilder_builds _ hzero hholds hother
      intro hnil hbuffer hlength hstring
      have hflags := hfits.2
      obtain ⟨r, hr⟩ := Option.ne_none_iff_exists'.1 hstring
      simpa [hb, hj, hnil, hbuffer, hlength, hr] using hflags
  | reserveCapacity i newCapacity =>
    apply fine_change_same h i
    intro b content hb hholds
    apply reserveCapacity_builds _ _ hzero hholds
    intro hnil hbuffer hpos
    simpa [fits, hb, hnil, hbuffer, hpos] using hfits
  | resize i newSize =>
    apply fine_change_self h i
    intro b content hb hholds
    apply resize_builds _ _ h.empty hholds
    simpa [fits, hb] using hfits
  | shrinkToFit i => exact fine_change_same h i fun b content _ hb => shrinkToFit_builds _ _ h.empty hb
  | toString i => exact fine_changeAndHandOut h i fun b content hb => toString_builds _ _ h.empty hb
  | toStringPreserveCapacity i =>
    exact fine_changeAndHandOut h i fun b content hb => reifyString_builds _ _ h.empty hb
  | clear i => exact fine_change_self h i fun b content _ hb => clear_holds _ _
  | swap i j =>
    rw [step, specStep]
    cases hb : s.builders[i]? with
    | none =>
      rw [h.builder_none hb]
      exact h
    | some b =>
      obtain ⟨content, hcontent, -⟩ := forall₂_getElem? h.builders hb
      rw [hcontent]
      cases hc : s.builders[j]? with
      | none =>
        rw [h.builder_none hc]
        exact h
      | some c =>
        obtain ⟨content', hcontent', -⟩ := forall₂_getElem? h.builders hc
        rw [hcontent']
        exact h.swap hb hc hcontent hcontent'

/-! ## What is shown -/

/-- The flag says how wide the string and the buffer are, and the buffer is long enough. -/
def Agrees (blocks : Blocks) (b : StringBuilder) : Prop :=
  (∀ id, b.m_buffer = some id → ∃ buffer, blocks[id]? = some buffer ∧ buffer.is8Bit = b.m_is8Bit ∧
    b.m_length ≤ buffer.length) ∧
  ∀ r, b.m_string = some r → b.m_length ≠ 0 → r.is8Bit blocks = .ok b.m_is8Bit

/-- `length` and `operator[]` describe `content`. -/
def Shows (blocks : Blocks) (b : StringBuilder) (content : List UChar) : Prop :=
  b.m_length = content.length ∧ (∀ i c, content[i]? = some c → b.get blocks i = .ok c) ∧ Agrees blocks b

/-- The characters of a string are `content`. -/
def ShowsString (blocks : Blocks) (r : SharedString) (content : List UChar) : Prop :=
  ∃ is8Bit, r.is8Bit blocks = .ok is8Bit ∧ readCharacters blocks (some r.pointer) is8Bit r.length = .ok content

variable {blocks : Blocks} {b : StringBuilder} {content : List UChar}

theorem get_eq (h : Holds blocks b content) {i : Nat} {c : UChar} (hc : content[i]? = some c) :
    b.get blocks i = .ok c := by
  obtain ⟨hi, hget⟩ := List.getElem?_eq_some_iff.1 hc
  have hone : (content.drop i).take 1 = [c] := by
    rw [List.drop_eq_getElem_cons hi, hget, List.take_succ_cons, List.take_zero]
  have hlength : b.m_length ≠ 0 := by
    rw [h.length_eq]
    omega
  have hread : readCharacters blocks (b.characters.map fun p => ⟨p.block, p.offset + i⟩) b.m_is8Bit 1 = .ok [c] := by
    rw [characters.eq_def, if_neg hlength]
    cases hs : b.m_string with
    | some r =>
      have hhas := h.string r hs
      obtain ⟨hrlength, -, block, hblock, -⟩ := h.string r hs
      have hwidth := h.width r block hs (List.ne_nil_of_length_pos (by omega)) hblock
      have hread := hhas.read hblock i 1 (by omega)
      rwa [hone, hwidth] at hread
    | none =>
      cases hid : b.m_buffer with
      | none =>
        refine absurd hs (h.source hid ?_)
        rintro rfl
        cases hc
      | some id =>
        obtain ⟨-, rest, hblock, -⟩ := h.buffer id hid
        have hpart : ((content.map some ++ rest).drop i).take 1 = [some c] := by
          rw [List.drop_append_of_le_length (by rw [List.length_map]; omega), ← List.map_drop,
            List.drop_eq_getElem_cons hi, hget]
          rfl
        simpa using readCharacters_spec ⟨id, i⟩ [c] hblock hpart
  rw [StringBuilder.get, hread]
  rfl

theorem shows_of_holds (h : Holds blocks b content) : Shows blocks b content := by
  refine ⟨h.length_eq, fun i c hc => get_eq h hc, ?_, ?_⟩
  · intro id hid
    obtain ⟨-, rest, hblock, -⟩ := h.buffer id hid
    refine ⟨_, hblock, rfl, ?_⟩
    simp [Block.length, h.length_eq]
  · intro r hr hlength
    obtain ⟨-, -, block, hblock, -⟩ := h.string r hr
    have hne : content ≠ [] := by
      rintro rfl
      exact hlength h.length_eq
    rw [SharedString.is8Bit, findBlock_eq hblock, ← h.width r block hr hne hblock]
    rfl

theorem showsString_of_has {r : SharedString} (h : Has blocks r content) : ShowsString blocks r content := by
  obtain ⟨hlength, -, block, hblock, hcharacters, -⟩ := h
  refine ⟨block.is8Bit, ?_, ?_⟩
  · rw [SharedString.is8Bit, findBlock_eq hblock]
    rfl
  · rw [hlength] at hcharacters ⊢
    exact readCharacters_spec r.pointer content hblock hcharacters

/-- String `j` is `content`. -/
def StringIs (s : BuilderState) (j : Nat) (content : List UChar) : Prop :=
  ∃ r, s.strings[j]? = some (some r) ∧ ShowsString s.blocks r content

theorem Inv.stringIs_iff (h : Inv s built) (j : Nat) (content : List UChar) :
    StringIs s j content ↔ built.strings[j]? = some (some content) := by
  constructor
  · rintro ⟨r, hr, is8Bit, hwidth, hread⟩
    obtain ⟨_, hcontent, hrel⟩ := forall₂_getElem? h.strings hr
    cases hrel with
    | some hhas =>
      obtain ⟨is8Bit', hwidth', hread'⟩ := showsString_of_has hhas
      obtain rfl : is8Bit = is8Bit' := Except.ok.inj (hwidth.symm.trans hwidth')
      obtain rfl := Except.ok.inj (hread.symm.trans hread')
      exact hcontent
  · intro hcontent
    cases hj : s.strings[j]? with
    | none =>
      rw [h.string_none hj] at hcontent
      cases hcontent
    | some string =>
      obtain ⟨_, hcontent', hrel⟩ := forall₂_getElem? h.strings hj
      obtain rfl := Option.some.inj (hcontent.symm.trans hcontent')
      cases hrel with
      | some hhas => exact ⟨_, hj, showsString_of_has hhas⟩

/-- A string that was handed out stays until it is let go. -/
theorem specStep_strings (built : Built) {op : BuilderOp} {j : Nat} (hj : built.strings[j]? = some (some content))
    (hop : op ≠ .dropString j) : (specStep built op).strings[j]? = some (some content) := by
  have hconcat : ∀ string, (built.strings ++ [string])[j]? = some (some content) := by
    intro string
    rw [List.getElem?_append_left (List.getElem?_eq_some_iff.1 hj).1, hj]
  cases op with
  | newString8 characters => exact hconcat _
  | newString16 characters => exact hconcat _
  | dropString k =>
    rw [specStep, List.getElem?_set_ne, hj]
    rintro rfl
    exact hop rfl
  | shareString k offset length =>
    rw [specStep]
    split
    · split_ifs
      · exact hconcat _
      · exact hj
    · exact hj
  | appendString i k | appendSubstring i k offset length =>
    rw [specStep]
    cases built.strings[k]? with
    | none => exact hj
    | some string => exact hj
  | appendBuilder i k =>
    rw [specStep]
    cases built.builders[k]? with
    | none => exact hj
    | some content' => exact hj
  | toString i | toStringPreserveCapacity i =>
    rw [specStep]
    cases built.builders[i]? with
    | none => exact hj
    | some content' => exact hconcat _
  | swap i k =>
    rw [specStep]
    cases built.builders[i]? with
    | none => exact hj
    | some content' =>
      cases built.builders[k]? with
      | none => exact hj
      | some content' => exact hj
  | _ => exact hj

/-! ## Runs -/

/-- The calls that keep to `fits`. -/
abbrev FittingStep : BuilderState → BuilderOp → BuilderState → Prop :=
  Guarded (fun s op => s.fits op = true) fun s op t => s.step op = .ok t

theorem run_inv {ops : List BuilderOp} {t : BuilderState} (hr : Run FittingStep s ops t) (h : Inv s built) :
    Inv t (ops.foldl specStep built) := by
  induction hr generalizing built with
  | nil s => exact h
  | cons hstep _ ih => exact ih ((step_ends h _ hstep.1).of_ok hstep.2)

/-- **String builders are sequences of code units**: in every run whose calls fit, `length` and `operator[]` show what was
built, the flags agree, the strings are what was handed out and stay until they are let go, and a call that fits makes no
wrong access. -/
theorem string_builders_refine {ops : List BuilderOp} (hr : Run FittingStep initial ops s) :
    List.Forall₂ (Shows s.blocks) s.builders (ops.foldl specStep ⟨[], []⟩).builders ∧
      (∀ j content, StringIs s j content ↔ (ops.foldl specStep ⟨[], []⟩).strings[j]? = some (some content)) ∧
      ∀ op, s.fits op = true →
        (∀ fault, s.step op = .error fault → fault = .crash) ∧
        ∀ t, s.step op = .ok t → ∀ j content, op ≠ .dropString j → StringIs s j content → StringIs t j content := by
  have hinv := run_inv hr inv_initial
  refine ⟨hinv.builders.imp fun _ _ => shows_of_holds, hinv.stringIs_iff, ?_⟩
  intro op hfits
  have hends := step_ends hinv op hfits
  refine ⟨fun fault hfault => hends.allowed_of_error hfault, ?_⟩
  intro t ht j content hop hstring
  have hinv' : Inv t (specStep (ops.foldl specStep ⟨[], []⟩) op) := Ends.of_ok hends ht
  rw [hinv'.stringIs_iff]
  exact specStep_strings _ ((hinv.stringIs_iff j content).1 hstring) hop

/-- A step that does not crash. -/
def stepFn (s : BuilderState) (op : BuilderOp) : Option BuilderState := (s.step op).toOption

theorem run_of_stepFn {ops : List BuilderOp} {t : BuilderState}
    (h : runFn (guardFn (fun s op => s.fits op = true) stepFn) s ops = some t) : Run FittingStep s ops t := by
  refine (run_of_runFn_guardFn h).mono ?_
  rintro s op t ⟨hfits, hstep⟩
  refine ⟨hfits, ?_⟩
  rw [Via, stepFn] at hstep
  cases ht : s.step op with
  | error fault =>
    rw [ht] at hstep
    cases hstep
  | ok t' =>
    rw [ht] at hstep
    exact ht.trans (congrArg Except.ok (Option.some.inj hstep))

/-- Two characters are handed out, a wide one and the sequence of another builder are appended, and that is cut. -/
theorem string_builders_refine_share :
    ∃ s, Run FittingStep initial
        [.newBuilder, .append8 0 ⟨[0x61, 0x62], by decide⟩, .toString 0, .appendUChar 0 0x100, .newBuilder,
          .appendBuilder 1 0, .resize 1 1] s ∧
      List.Forall₂ (Shows s.blocks) s.builders [[0x61, 0x62, 0x100], [0x61]] ∧ StringIs s 0 [0x61, 0x62] := by
  have hr : (runFn (guardFn (fun s op => s.fits op = true) stepFn) initial
      [.newBuilder, .append8 0 ⟨[0x61, 0x62], by decide⟩, .toString 0, .appendUChar 0 0x100, .newBuilder,
        .appendBuilder 1 0, .resize 1 1]).isSome = true := by
    decide +kernel
  obtain ⟨s, hs⟩ := Option.isSome_iff_exists.1 hr
  have hrun := run_of_stepFn hs
  obtain ⟨hbuilders, hstrings, -⟩ := string_builders_refine hrun
  exact ⟨s, hrun, hbuilders, (hstrings 0 [0x61, 0x62]).2 rfl⟩

/-- **Flags that are stale, and an end that wraps**: a builder that is appended to an empty one gives it its string of
UChars but not its flag, so that the first character is read as an LChar; in a builder of UChars that is cut to nothing,
room is made for LChars; and two characters from the last one of 2 ^ 32 on are taken for a part of a string of one. -/
theorem string_builder_stale :
    (([.newBuilder, .newBuilder, .newString16 ⟨[0x100, 0x101], by decide⟩, .appendString 0 0, .appendBuilder 1 0] :
        List BuilderOp).foldlM step initial >>= fun s =>
          (s.builders[1]?).elim (.error .crash) fun b => b.get s.blocks 0) = .error .wrongWidth ∧
      ([.newBuilder, .newString16 ⟨[0x100, 0x101], by decide⟩, .appendString 0 0, .resize 0 0, .reserveCapacity 0 4,
        .appendUChar 0 0x200] : List BuilderOp).foldlM step initial = .error .wrongWidth ∧
      ([.newBuilder, .newString8 ⟨[0x61], by decide⟩, .appendSubstring 0 0 (2 ^ 32 - 1) 2] : List BuilderOp).foldlM
        step initial = .error .outOfBounds := by
  decide +kernel

end WebKit.WTF.BuilderState
