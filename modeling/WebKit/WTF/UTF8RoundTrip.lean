import WebKit.WTF.UTF8Conversion

/-!
# What the conversions guarantee

- `convert_drains`: a conversion of the whole source, as pieces, from which it never reads or writes outside its buffers;
- `Resumable`: an exhausted conversion stops between characters and can be continued (`resumable_of_implements`);
- `RoundTrips16`: from UTF-16 to UTF-8 and back (`roundTrips16`);
- `Exact`: `convertUTF8ToUTF16` takes exactly well-formed UTF-8, and its output leads back; this fails exactly on the
  sources that have a sequence with an unchecked second byte (`exact_iff`).

Together: `utf_conversion_exact`, and `utf_conversion_lax` for a source that is taken though it is not UTF-8.
-/

namespace WebKit.WTF.Unicode

open WebKit.Lib

variable {α β γ : Type}

/-! ## Whole conversions -/

/-- A conversion of a source into fresh cells. -/
abbrev Converter (α β γ : Type) := List α → List β → Option (ConversionResult × State α β γ)

/-- The converter runs a loop over what `next` reads. -/
def Converts (convert : Converter α β γ) (next : List α → Except ConversionResult (List β × List α)) : Prop :=
  ∀ source cells, ∃ out rest ending data, Drains next source cells.length out rest ending ∧
    convert source cells = some (resultOf ending, ⟨rest, Target.write ⟨cells, 0⟩ out, data⟩)

theorem converts_UTF8 (strict : Bool) : Converts (fun source cells => convertUTF8ToUTF16 source cells strict) nextUTF8 :=
  fun source cells => whileSource_drains (implements_nextUTF8 strict) ⟨source, ⟨cells, 0⟩, 0⟩
    (Nat.le_refl _) (Nat.zero_le _)

theorem converts_UTF16 (strict : Bool) :
    Converts (fun source cells => convertUTF16ToUTF8 source cells strict) (nextUTF16 strict) :=
  fun source cells => whileSource_drains (implements_nextUTF16 strict) ⟨source, ⟨cells, 0⟩, ()⟩
    (Nat.le_refl _) (Nat.zero_le _)

theorem written_write_zero (cells : List β) (out : List β) : (Target.write ⟨cells, 0⟩ out).written = out := by
  rw [Target.written_write (Nat.zero_le _)]
  rfl

/-- `next` only stops for a reason of its own. -/
def StopsAlone (next : List α → Except ConversionResult (List β × List α)) : Prop :=
  ∀ source result, next source = .error result → result = .sourceExhausted ∨ result = .sourceIllegal

theorem stopsAlone_nextUTF8 : StopsAlone nextUTF8 := by
  intro source result h
  unfold nextUTF8 at h
  simp only at h
  split_ifs at h
  · cases h
    exact .inl rfl
  · cases h
    exact .inr rfl

theorem stopsAlone_nextUTF16 (strict : Bool) : StopsAlone (nextUTF16 strict) := by
  intro source result h
  unfold nextUTF16 at h
  split at h
  · cases h
  · rename_i hread
    cases h
    match source with
    | [] => cases hread
    | [u] =>
      by_cases hhigh : 0xD800 ≤ u.toNat ∧ u.toNat ≤ 0xDBFF
      · rw [read_high_end strict hhigh] at hread
        cases hread
        exact .inl rfl
      · rw [read_unit strict [] hhigh] at hread
        split_ifs at hread <;> cases hread
        exact .inr rfl
    | u :: v :: source =>
      by_cases hhigh : 0xD800 ≤ u.toNat ∧ u.toNat ≤ 0xDBFF
      · by_cases hlow : 0xDC00 ≤ v.toNat ∧ v.toNat ≤ 0xDFFF
        · rw [read_pair strict source hhigh hlow] at hread
          cases hread
        · rw [read_high strict source hhigh hlow] at hread
          split_ifs at hread <;> cases hread
          exact .inr rfl
      · rw [read_unit strict (v :: source) hhigh] at hread
        split_ifs at hread <;> cases hread
        exact .inr rfl
  · cases h
    exact .inl rfl

section

variable {next : List α → Except ConversionResult (List β × List α)} {source rest : List α} {room : Nat} {out : List β}
  {ending : Ending ConversionResult}

theorem StopsAlone.stopped (h : StopsAlone next) (hdrains : Drains next source room out rest ending)
    {result : ConversionResult} (hending : ending = .stopped result) :
    result = .sourceExhausted ∨ result = .sourceIllegal := by
  induction hdrains with
  | done => cases hending
  | stop _ hnext =>
    cases hending
    exact h _ _ hnext
  | exhaust => cases hending
  | step _ _ _ _ ih => exact ih hending

theorem resultOf_eq_targetExhausted (h : StopsAlone next) (hdrains : Drains next source room out rest ending) :
    resultOf ending = .targetExhausted ↔ ending = .exhausted := by
  cases ending with
  | done => simp [resultOf]
  | stopped result => obtain rfl | rfl := h.stopped hdrains rfl <;> simp [resultOf]
  | exhausted => simp [resultOf]

theorem resultOf_eq_conversionOK (h : StopsAlone next) (hdrains : Drains next source room out rest ending) :
    resultOf ending = .conversionOK ↔ ending = .done := by
  cases ending with
  | done => simp [resultOf]
  | stopped result => obtain rfl | rfl := h.stopped hdrains rfl <;> simp [resultOf]
  | exhausted => simp [resultOf]

end

/-! ## Exhausted targets -/

/-- Nothing is read past the end of the source or written past the end of the target, which is large enough with `k`
cells for each element of the source. When the target is exhausted, whole characters have been converted, and what a
conversion of the rest into a fresh target gives is what one conversion of the whole source into a larger one does. -/
def Resumable (convert : Converter α β γ) (IsCharacter : List α → List β → Prop) (k : Nat) : Prop :=
  ∀ source cells, ∃ result state, convert source cells = some (result, state) ∧
    state.target.position ≤ cells.length ∧
    state.target.cells.drop state.target.position = cells.drop state.target.position ∧
    (k * source.length ≤ cells.length → result ≠ .targetExhausted) ∧
    (result = .targetExhausted →
      (∃ pieces : List (List α × List β), source = (pieces.map Prod.fst).flatten ++ state.source ∧
        state.target.written = (pieces.map Prod.snd).flatten ∧ ∀ p ∈ pieces, IsCharacter p.1 p.2) ∧
      ∀ cells' result' state' large resultLarge stateLarge, convert state.source cells' = some (result', state') →
        convert source large = some (resultLarge, stateLarge) →
        (result' ≠ .targetExhausted ∧ resultLarge ≠ .targetExhausted ∨
          large.length = state.target.position + cells'.length) →
        stateLarge.target.written = state.target.written ++ state'.target.written ∧ resultLarge = result' ∧
          stateLarge.source = state'.source)

/-- **An exhausted conversion can be resumed.** -/
theorem resumable_of_converts {convert : Converter α β γ} {next : List α → Except ConversionResult (List β × List α)}
    {IsCharacter : List α → List β → Prop} {k : Nat} (hconvert : Converts convert next) (hstop : StopsAlone next)
    (hcharacter : ∀ source piece rest, next source = .ok (piece, rest) →
      ∃ front, source = front ++ rest ∧ IsCharacter front piece)
    (hlength : ∀ source piece rest, next source = .ok (piece, rest) →
      piece.length + k * rest.length ≤ k * source.length) : Resumable convert IsCharacter k := by
  intro source cells
  obtain ⟨out, rest, ending, data, hdrains, hrun⟩ := hconvert source cells
  have hout := hdrains.length_le
  have hexhausted := resultOf_eq_targetExhausted hstop hdrains
  refine ⟨_, _, hrun, ?_, ?_, ?_, ?_⟩
  · show 0 + out.length ≤ _
    omega
  · show List.drop (0 + out.length) (List.take 0 cells ++ out ++ List.drop (0 + out.length) cells) = _
    simp
  · intro hroom
    rw [Ne, hexhausted]
    exact hdrains.not_exhausted hlength hroom
  · intro hresult
    rw [hexhausted] at hresult
    subst hresult
    rw [written_write_zero]
    refine ⟨hdrains.pieces hcharacter, ?_⟩
    intro cells' result' state' large resultLarge stateLarge hnext hlarge hroom
    obtain ⟨out', rest', ending', data', hdrains', hrun'⟩ := hconvert rest cells'
    obtain ⟨outLarge, restLarge, endingLarge, dataLarge, hdrainsLarge, hrunLarge⟩ := hconvert source large
    cases hnext.symm.trans hrun'
    cases hlarge.symm.trans hrunLarge
    rw [written_write_zero, written_write_zero]
    have hwhole := hdrains.resume hdrains'
    rw [Ne, Ne, resultOf_eq_targetExhausted hstop hdrains', resultOf_eq_targetExhausted hstop hdrainsLarge] at hroom
    obtain ⟨rfl, rfl, rfl⟩ : outLarge = out ++ out' ∧ restLarge = rest' ∧ endingLarge = ending' := by
      obtain ⟨hne', hneLarge⟩ | hlen := hroom
      · have hwhole' := hwhole.of_room hne' (Nat.le_max_left _ large.length)
        exact hwhole'.unique (hdrainsLarge.of_room hneLarge (Nat.le_max_right _ _))
      · have hlen : large.length = out.length + cells'.length := by
          rw [hlen]
          show 0 + out.length + _ = _
          rw [Nat.zero_add]
        rw [hlen] at hdrainsLarge
        exact hwhole.unique hdrainsLarge
    exact ⟨rfl, rfl, rfl⟩

theorem length_encodeUTF16_le {q : List UInt8} (h : Accepted q) : (encodeUTF16 (sequenceValue q)).length ≤ q.length := by
  have hle : (encodeUTF16 (sequenceValue q)).length ≤ 2 := by
    unfold encodeUTF16
    split_ifs <;> simp
  have hpos := List.length_pos_iff.2 (h.length []).1
  by_cases hone : q.length = 1
  · obtain ⟨a, rfl⟩ := List.length_eq_one_iff.1 hone
    have ha := a.toNat_lt
    rw [sequenceValue_one, encodeUTF16, if_pos (by omega)]
    exact Nat.le_refl _
  · omega

theorem length_encodeUTF8_le {strict : Bool} {units : List UChar} {c : Nat} (h : IsCharacter strict units c) :
    (encodeUTF8 c).length ≤ 3 * units.length := by
  have hle : (encodeUTF8 c).length ≤ if c < 0x10000 then 3 else 4 := by
    unfold encodeUTF8
    split_ifs <;> simp
  obtain ⟨-, rfl⟩ | ⟨-, hc, rfl⟩ := h
  · unfold encodeUTF16
    split_ifs at hle ⊢
    · exact hle
    · exact Nat.le_trans hle (show 4 ≤ 6 by decide)
  · rw [if_pos (by omega)] at hle
    exact hle

theorem resumable_UTF8 (strict : Bool) : Resumable (fun source cells => convertUTF8ToUTF16 source cells strict)
    (fun q piece => Accepted q ∧ piece = encodeUTF16 (sequenceValue q)) 1 := by
  refine resumable_of_converts (converts_UTF8 strict) stopsAlone_nextUTF8 ?_ ?_
  · exact fun source piece rest h => accepted_of_nextUTF8 h
  · intro source piece rest h
    obtain ⟨q, rfl, hq, rfl⟩ := accepted_of_nextUTF8 h
    have := length_encodeUTF16_le hq
    rw [List.length_append]
    omega

theorem isCharacter_of_nextUTF16 {strict : Bool} {source rest : List UChar} {piece : List UInt8}
    (h : nextUTF16 strict source = .ok (piece, rest)) :
    ∃ units, source = units ++ rest ∧ ∃ c, IsCharacter strict units c ∧ piece = encodeUTF8 c := by
  unfold nextUTF16 at h
  split at h
  · rename_i ch rest' hread
    simp only [Except.ok.injEq, Prod.mk.injEq] at h
    obtain ⟨rfl, rfl⟩ := h
    obtain ⟨-, units, hsource, hunits⟩ := isCharacter_of_read hread
    exact ⟨units, hsource, _, hunits, rfl⟩
  · cases h
  · cases h

theorem resumable_UTF16 (strict : Bool) : Resumable (fun source cells => convertUTF16ToUTF8 source cells strict)
    (fun units piece => ∃ c, IsCharacter strict units c ∧ piece = encodeUTF8 c) 3 := by
  refine resumable_of_converts (converts_UTF16 strict) (stopsAlone_nextUTF16 strict) ?_ ?_
  · exact fun source piece rest h => isCharacter_of_nextUTF16 h
  · intro source piece rest h
    obtain ⟨units, rfl, c, hc, rfl⟩ := isCharacter_of_nextUTF16 h
    have := length_encodeUTF8_le hc
    rw [List.length_append]
    omega

/-! ## Round trips -/

theorem converts_done {convert : Converter α β γ} {next : List α → Except ConversionResult (List β × List α)}
    (hconvert : Converts convert next) {source : List α} (cells : List β) {out : List β}
    (h : Drains next source cells.length out [] .done) :
    ∃ state, convert source cells = some (.conversionOK, state) ∧ state.target.written = out := by
  obtain ⟨out', rest', ending', data, hdrains, hrun⟩ := hconvert source cells
  obtain ⟨rfl, rfl, rfl⟩ := h.unique hdrains
  exact ⟨_, hrun, written_write_zero _ _⟩

theorem drains_nextUTF16 (strict : Bool) {cs : List Nat} (room : Nat) (hcs : ∀ c ∈ cs, IsScalar c)
    (hroom : (cs.flatMap encodeUTF8).length ≤ room) :
    Drains (nextUTF16 strict) (cs.flatMap encodeUTF16) room (cs.flatMap encodeUTF8) [] .done := by
  refine drains_flatMap (fun c _ => List.length_pos_iff.1 (length_encodeUTF16_pos c)) (fun c hc rest => ?_) hroom
  have hbound : c < 2 ^ 32 := by
    have := hcs c hc
    unfold IsScalar at this
    omega
  unfold nextUTF16
  rw [read_encodeUTF16 strict (hcs c hc) rest]
  simp only [UInt32.toNat_ofNat_of_lt' (show c < UInt32.size from hbound)]

theorem drains_nextUTF8 {sequences : List (List UInt8)} (room : Nat) (h : ∀ q ∈ sequences, Accepted q)
    (hroom : (sequences.flatMap fun q => encodeUTF16 (sequenceValue q)).length ≤ room) :
    Drains nextUTF8 sequences.flatten room (sequences.flatMap fun q => encodeUTF16 (sequenceValue q)) [] .done := by
  have : Drains nextUTF8 (sequences.flatMap id) room _ [] .done := drains_flatMap
    (fun q hq => ((h q hq).length []).1) (fun q hq rest => nextUTF8_append (h q hq) rest) hroom
  rwa [List.flatMap_id] at this

theorem accepted_encodeUTF8 {c : Nat} (h : IsScalar c) : Accepted (encodeUTF8 c) := .inl (fits_encodeUTF8 h)

theorem flatMap_encodeUTF8 {sequences : List (List UInt8)} (h : ∀ q ∈ sequences, MatchesRow utf8Table q) :
    (sequences.map sequenceValue).flatMap encodeUTF8 = sequences.flatten := by
  induction sequences with
  | nil => rfl
  | cons q sequences ih =>
    rw [List.map_cons, List.flatMap_cons, List.flatten_cons, encodeUTF8_sequenceValue (h q List.mem_cons_self),
      ih fun q hq => h q (List.mem_cons_of_mem _ hq)]

theorem flatMap_encodeUTF16 (cs : List Nat) (hcs : ∀ c ∈ cs, IsScalar c) :
    ((cs.map encodeUTF8).flatMap fun q => encodeUTF16 (sequenceValue q)) = cs.flatMap encodeUTF16 := by
  induction cs with
  | nil => rfl
  | cons c cs ih =>
    rw [List.map_cons, List.flatMap_cons, List.flatMap_cons, sequenceValue_encodeUTF8 (hcs c List.mem_cons_self),
      ih fun c hc => hcs c (List.mem_cons_of_mem _ hc)]

theorem splits_utf16Table_iff (units : List UChar) :
    Splits utf16Table units ↔ ∃ cs : List Nat, (∀ c ∈ cs, IsScalar c) ∧ units = cs.flatMap encodeUTF16 := by
  constructor
  · rintro ⟨sequences, rfl, hsequences⟩
    induction sequences with
    | nil => exact ⟨[], by simp, rfl⟩
    | cons q sequences ih =>
      obtain ⟨c, hc, rfl⟩ := (fits_utf16Table_iff q).1 (hsequences q List.mem_cons_self)
      obtain ⟨cs, hcs, heq⟩ := ih fun q hq => hsequences q (List.mem_cons_of_mem _ hq)
      exact ⟨c :: cs, List.forall_mem_cons.2 ⟨hc, hcs⟩, by rw [List.flatten_cons, List.flatMap_cons, heq]⟩
  · rintro ⟨cs, hcs, rfl⟩
    refine ⟨cs.map encodeUTF16, (List.flatMap_def ..), ?_⟩
    rintro q hq
    obtain ⟨c, hc, rfl⟩ := List.mem_map.1 hq
    exact (fits_utf16Table_iff _).2 ⟨c, hcs c hc, rfl⟩

theorem length_flatMap_encodeUTF8_le (cs : List Nat) (hcs : ∀ c ∈ cs, IsScalar c) :
    (cs.flatMap encodeUTF8).length ≤ 3 * (cs.flatMap encodeUTF16).length := by
  induction cs with
  | nil => exact Nat.le_refl 0
  | cons c cs ih =>
    have hc : IsCharacter true (encodeUTF16 c) c := .inl ⟨hcs c List.mem_cons_self, rfl⟩
    have h₁ := length_encodeUTF8_le hc
    have h₂ := ih fun c hc => hcs c (List.mem_cons_of_mem _ hc)
    rw [List.flatMap_cons, List.flatMap_cons, List.length_append, List.length_append]
    omega

/-- `convertUTF16ToUTF8` and then `convertUTF8ToUTF16` give the units back. -/
def RoundTrips16 (units : List UChar) : Prop :=
  ∀ strict strict' cells cells', 3 * units.length ≤ cells.length → units.length ≤ cells'.length →
    ∃ state state', convertUTF16ToUTF8 units cells strict = some (.conversionOK, state) ∧
      convertUTF8ToUTF16 state.target.written cells' strict' = some (.conversionOK, state') ∧
      state'.target.written = units

/-- **Well-formed UTF-16 survives the way through UTF-8.** -/
theorem roundTrips16 {units : List UChar} (h : Splits utf16Table units) : RoundTrips16 units := by
  obtain ⟨cs, hcs, rfl⟩ := (splits_utf16Table_iff units).1 h
  intro strict strict' cells cells' hcells hcells'
  have hlength := length_flatMap_encodeUTF8_le cs hcs
  obtain ⟨state, hrun, hwritten⟩ := converts_done (converts_UTF16 strict) cells
    (drains_nextUTF16 strict cells.length hcs (by omega))
  have haccepted : ∀ q ∈ cs.map encodeUTF8, Accepted q := by
    intro q hq
    obtain ⟨c, hc, rfl⟩ := List.mem_map.1 hq
    exact accepted_encodeUTF8 (hcs c hc)
  have hback := drains_nextUTF8 cells'.length haccepted (by rw [flatMap_encodeUTF16 cs hcs]; exact hcells')
  rw [flatMap_encodeUTF16 cs hcs, ← List.flatMap_def] at hback
  obtain ⟨state', hrun', hwritten'⟩ := converts_done (converts_UTF8 strict') cells' hback
  exact ⟨state, state', hrun, by rw [hwritten]; exact hrun', hwritten'⟩

/-! ## Well-formed UTF-8 -/

/-- The source is taken in strict mode exactly if it is well-formed, unless the target is exhausted, which a target of
as many cells never is; and the output leads back to the source. -/
def Exact (source : List UInt8) : Prop :=
  ∀ cells, ∃ result state, convertUTF8ToUTF16 source cells true = some (result, state) ∧
    (source.length ≤ cells.length → result ≠ .targetExhausted) ∧
    (result ≠ .targetExhausted → (result = .conversionOK ↔ Splits utf8Table source)) ∧
    (result = .conversionOK → ∀ strict cells', source.length ≤ cells'.length →
      ∃ state', convertUTF16ToUTF8 state.target.written cells' strict = some (.conversionOK, state') ∧
        state'.target.written = source)

/-- The source is made of accepted sequences, and one of them is lax. -/
def HasLax (source : List UInt8) : Prop :=
  ∃ sequences : List (List UInt8), source = sequences.flatten ∧
    (∀ q ∈ sequences, MatchesRow utf8Table q ∨ MatchesRow laxTable q) ∧ ∃ q ∈ sequences, MatchesRow laxTable q

/-- No sequence is in both tables. -/
theorem not_lax_of_fits {q : List UInt8} (h : MatchesRow utf8Table q) : ¬ MatchesRow laxTable q := by
  rw [fits_utf8Table_iff] at h
  rw [fits_laxTable_iff]
  rintro (⟨a, b, c, rfl, hlax⟩ | ⟨a, b, c, d, rfl, hlax⟩)
  · simp at h
    omega
  · simp at h
    omega

theorem accepted_unique {sequences sequences' : List (List UInt8)} (h : ∀ q ∈ sequences, Accepted q)
    (h' : ∀ q ∈ sequences', Accepted q) (heq : sequences.flatten = sequences'.flatten) : sequences = sequences' := by
  induction sequences generalizing sequences' with
  | nil =>
    cases sequences' with
    | nil => rfl
    | cons q sequences' =>
      have hne := ((h' q List.mem_cons_self).length []).1
      simp [hne] at heq
  | cons q sequences ih =>
    have hq := h q List.mem_cons_self
    cases sequences' with
    | nil =>
      have hne := (hq.length []).1
      simp [hne] at heq
    | cons q' sequences' =>
      have hq' := h' q' List.mem_cons_self
      rw [List.flatten_cons, List.flatten_cons] at heq
      have hlen : q.length = q'.length := by
        rw [← (hq.length sequences.flatten).2, ← (hq'.length sequences'.flatten).2, heq]
      obtain ⟨rfl, hrest⟩ := List.append_inj heq hlen
      rw [ih (fun q hq => h q (List.mem_cons_of_mem _ hq)) (fun q hq => h' q (List.mem_cons_of_mem _ hq)) hrest]

theorem sequences_of_done {source : List UInt8} {room : Nat} {out : List UChar} {rest : List UInt8}
    (h : Drains nextUTF8 source room out rest .done) :
    ∃ sequences : List (List UInt8), source = sequences.flatten ∧ (∀ q ∈ sequences, Accepted q) ∧
      out = sequences.flatMap fun q => encodeUTF16 (sequenceValue q) := by
  have hrest : rest = [] := h.rest_of_done rfl
  obtain ⟨pieces, hsource, hout, hpieces⟩ := h.pieces (P := fun q piece => Accepted q ∧ piece = encodeUTF16 (sequenceValue q))
    fun source piece rest h => accepted_of_nextUTF8 h
  refine ⟨pieces.map Prod.fst, by rw [hsource, hrest, List.append_nil], ?_, ?_⟩
  · intro q hq
    obtain ⟨p, hp, rfl⟩ := List.mem_map.1 hq
    exact (hpieces p hp).1
  · rw [hout, List.flatMap_map, List.flatMap_def]
    exact congrArg List.flatten (List.map_congr_left fun p hp => (hpieces p hp).2)

theorem length_flatMap_encodeUTF16_le {sequences : List (List UInt8)} (h : ∀ q ∈ sequences, Accepted q) :
    (sequences.flatMap fun q => encodeUTF16 (sequenceValue q)).length ≤ sequences.flatten.length := by
  induction sequences with
  | nil => exact Nat.le_refl 0
  | cons q sequences ih =>
    have h₁ := length_encodeUTF16_le (h q List.mem_cons_self)
    have h₂ := ih fun q hq => h q (List.mem_cons_of_mem _ hq)
    rw [List.flatMap_cons, List.flatten_cons, List.length_append, List.length_append]
    omega

/-- **The check is exact unless the source has a lax sequence.** -/
theorem exact_iff (source : List UInt8) : Exact source ↔ ¬ HasLax source := by
  constructor
  · rintro hexact ⟨sequences, rfl, hsequences, q, hq, hlax⟩
    obtain ⟨result, state, hrun, hroom, hiff, -⟩ := hexact (List.replicate sequences.flatten.length 0)
    have hlength := length_flatMap_encodeUTF16_le hsequences
    obtain ⟨state', hdone, -⟩ := converts_done (converts_UTF8 true)
      (List.replicate sequences.flatten.length 0)
      (drains_nextUTF8 _ hsequences (by rw [List.length_replicate]; exact hlength))
    cases hrun.symm.trans hdone
    obtain ⟨wellFormed, heq, hwellFormed⟩ := (hiff (by decide)).1 rfl
    have hsame := accepted_unique hsequences (fun q hq => .inl (hwellFormed q hq)) heq
    rw [hsame] at hq
    exact not_lax_of_fits (hwellFormed q hq) hlax
  · intro hlax cells
    obtain ⟨out, rest, ending, data, hdrains, hrun⟩ := converts_UTF8 true source cells
    have hexhausted := resultOf_eq_targetExhausted stopsAlone_nextUTF8 hdrains
    have hok := resultOf_eq_conversionOK stopsAlone_nextUTF8 hdrains
    have hsplits (hdone : ending = .done) : ∃ sequences : List (List UInt8), source = sequences.flatten ∧
        (∀ q ∈ sequences, MatchesRow utf8Table q) ∧ out = sequences.flatMap fun q => encodeUTF16 (sequenceValue q) := by
      obtain ⟨sequences, rfl, hsequences, hout⟩ := sequences_of_done (hdone ▸ hdrains)
      refine ⟨sequences, rfl, fun q hq => ?_, hout⟩
      exact (hsequences q hq).resolve_right fun h => hlax ⟨sequences, rfl, hsequences, q, hq, h⟩
    refine ⟨_, _, hrun, ?_, ?_, ?_⟩
    · intro hroom
      rw [Ne, hexhausted]
      refine hdrains.not_exhausted (k := 1) ?_ (by omega)
      intro source piece rest h
      obtain ⟨q, rfl, hq, rfl⟩ := accepted_of_nextUTF8 h
      have := length_encodeUTF16_le hq
      rw [List.length_append]
      omega
    · intro hresult
      rw [Ne, hexhausted] at hresult
      rw [hok]
      constructor
      · intro hdone
        obtain ⟨sequences, hsource, hsequences, -⟩ := hsplits hdone
        exact ⟨sequences, hsource, hsequences⟩
      · rintro ⟨sequences, rfl, hsequences⟩
        have hdone := drains_nextUTF8 _ (fun q hq => .inl (hsequences q hq))
          (Nat.le_max_right cells.length (sequences.flatMap fun q => encodeUTF16 (sequenceValue q)).length)
        exact (hdone.unique (hdrains.of_room hresult (Nat.le_max_left _ _))).2.2
    · intro hresult strict cells' hroom
      obtain ⟨sequences, rfl, hsequences, rfl⟩ := hsplits (hok.1 hresult)
      have hscalar : ∀ c ∈ sequences.map sequenceValue, IsScalar c := by
        intro c hc
        obtain ⟨q, hq, rfl⟩ := List.mem_map.1 hc
        exact isScalar_sequenceValue (.inl (hsequences q hq))
      have hback := drains_nextUTF16 strict cells'.length hscalar
        (by rw [flatMap_encodeUTF8 hsequences]; exact hroom)
      rw [flatMap_encodeUTF8 hsequences, List.flatMap_map] at hback
      rw [written_write_zero]
      exact converts_done (converts_UTF16 strict) cells' hback

/-- **The conversions are exact where the source has no lax sequence**, and resumable and lossless everywhere. -/
theorem utf_conversion_exact (source : List UInt8) (units : List UChar) (strict : Bool) :
    (Exact source ↔ ¬ HasLax source) ∧ (Splits utf16Table units → RoundTrips16 units) ∧
      Resumable (fun source cells => convertUTF8ToUTF16 source cells strict)
        (fun q piece => Accepted q ∧ piece = encodeUTF16 (sequenceValue q)) 1 ∧
      Resumable (fun source cells => convertUTF16ToUTF8 source cells strict)
        (fun units piece => ∃ c, IsCharacter strict units c ∧ piece = encodeUTF8 c) 3 :=
  ⟨exact_iff source, roundTrips16, resumable_UTF8 strict, resumable_UTF16 strict⟩

/-- ED 41 80 is taken for U+C040. -/
theorem utf_conversion_lax : ¬ Exact [0xED, 0x41, 0x80] := by
  intro h
  obtain ⟨result, state, hrun, -, hiff, -⟩ := h [0, 0, 0]
  have hlax : convertUTF8ToUTF16 [0xED, 0x41, 0x80] [0, 0, 0] true =
      some (.conversionOK, ⟨[], ⟨[0xC040, 0, 0], 1⟩, 0xC040⟩) := by decide +kernel
  cases hrun.symm.trans hlax
  obtain ⟨sequences, heq, hsequences⟩ := (hiff (by decide)).1 rfl
  have hlax' : ∀ q ∈ [[0xED, 0x41, 0x80]], Accepted q := by
    intro q hq
    rw [List.mem_singleton.1 hq]
    right
    simp [MatchesRow, laxTable]
  have hsame := accepted_unique hlax' (fun q hq => .inl (hsequences q hq)) heq
  have hmem : [0xED, 0x41, 0x80] ∈ sequences := by
    rw [← hsame]
    exact List.mem_singleton_self _
  have hfits := hsequences _ hmem
  simp [MatchesRow, utf8Table] at hfits

end WebKit.WTF.Unicode
