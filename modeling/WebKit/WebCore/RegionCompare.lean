import WebKit.WebCore.RegionBounds

/-!
# Comparison of shapes

The loops of `compareShapes` with the operations of `contains` and `intersects`: over the segments of two spans
(`compareSegments_contains`, `compareSegments_intersects`) and over the spans (`compareSpans_contains`,
`compareSpans_intersects`). On canonical shapes they decide whether the points of one are among those of the other
(`compareShapes_contains`) and whether the two have a point in common (`compareShapes_intersects`).
-/

namespace WebKit.WebCore

open StepFunction

namespace Shape

/-- A comparison runs to the end if `P` holds, and ends with `v` if it does not. -/
def Runs (P : Prop) (v : Bool) (r : Option Bool) : Prop := P ∧ r = none ∨ ¬P ∧ r = some v

theorem Runs.of_iff {P Q : Prop} {v : Bool} {r : Option Bool} (h : Runs P v r) (hiff : P ↔ Q) : Runs Q v r := by
  rwa [Runs, ← hiff]

/-! ## Segments -/

variable {s t : List Int}

/-- Up to the end of an interval the rest of a set has no points. -/
theorem covers_rest {a b x : Int} (h : Boundary (a :: b :: s)) (hx : x ≤ b) : StepFunction.covers s x = false :=
  covers_of_lt fun c hc => lt_of_le_of_lt hx ((boundary_cons_cons.1 h).2.1 c hc)

theorem covers_interval {a b x : Int} (h : Boundary (a :: b :: s)) :
    StepFunction.covers (a :: b :: s) x = true ↔ a ≤ x ∧ x < b ∨ StepFunction.covers s x = true := by
  have hab := (boundary_cons_cons.1 h).1
  rw [covers_cons_cons]
  split_ifs with hxa hxb
  · rw [covers_rest h (hxa.trans hab).le]
    simp [not_le.2 hxa]
  · simp [not_lt.1 hxa, hxb]
  · simp [hxb]

theorem compareSegments_contains (hs : Boundary s) (ht : Boundary t) :
    Runs (∀ x, StepFunction.covers t x = true → StepFunction.covers s x = true) false
      (compareSegments compareContainsOperation s t) := by
  refine Boundary.walk_induction (motive := fun s t =>
    Runs (∀ x, StepFunction.covers t x = true → StepFunction.covers s x = true) false
      (compareSegments compareContainsOperation s t)) ?_ ?_ ?_ hs ht
  · intro t ht
    cases t with
    | nil => exact Or.inl ⟨fun x hx => hx, by simp [compareSegments, onEvent]⟩
    | cons b t =>
      obtain ⟨x, hx⟩ := ht.exists_covers (List.cons_ne_nil b t)
      refine Or.inr ⟨fun h => Bool.noConfusion (h x hx), ?_⟩
      simp [compareSegments, onEvent, compareContainsOperation]
  · intro s hs
    exact Or.inl ⟨fun x hx => Bool.noConfusion hx, by simp [compareSegments, onEvent, compareContainsOperation]⟩
  · intro a a' s b b' t hs ht ihs iht ih
    have haa' := (boundary_cons_cons.1 hs).1
    have hbb' := (boundary_cons_cons.1 ht).1
    have hends : ∀ r, compareSegments compareContainsOperation (a :: a' :: s) (b :: b' :: t) = r ↔
        (if b < a then some false else if a' < b' then compareSegments compareContainsOperation s (b :: b' :: t)
          else if b' < a' then compareSegments compareContainsOperation (a :: a' :: s) t
          else compareSegments compareContainsOperation s t) = r := by
      intro r
      rw [compareSegments]
      simp only [compareContainsOperation, onEvent, ite_self]
      split_ifs <;> rfl
    have hrest := fun x => covers_rest hs (x := x)
    have hrest' := fun x => covers_rest ht (x := x)
    unfold Runs
    simp only [hends, covers_interval hs, covers_interval ht] at *
    split_ifs with hlt hends1 hends2
    · refine Or.inr ⟨fun h => ?_, rfl⟩
      rcases h b (Or.inl ⟨le_rfl, hbb'⟩) with h | h
      · omega
      · rw [hrest b (by omega)] at h
        cases h
    · refine ihs.of_iff ⟨fun h x hx => Or.inr (h x hx), fun h x hx => (h x hx).resolve_left fun hin => ?_⟩
      rcases hx with hx | hx
      · rcases h a' (Or.inl ⟨by omega, hends1⟩) with h | h
        · omega
        · rw [hrest a' le_rfl] at h
          cases h
      · rw [hrest' x (by omega)] at hx
        cases hx
    · exact iht.of_iff ⟨fun h x hx => hx.elim (fun hx => Or.inl ⟨by omega, by omega⟩) (h x),
        fun h x hx => h x (Or.inr hx)⟩
    · refine ih.of_iff ⟨fun h x hx => hx.imp (fun hx => ⟨by omega, by omega⟩) (h x), fun h x hx => ?_⟩
      refine (h x (Or.inr hx)).resolve_left fun hin => ?_
      rw [hrest' x (by omega)] at hx
      cases hx

theorem compareSegments_intersects (hs : Boundary s) (ht : Boundary t) :
    Runs (∀ x, ¬(StepFunction.covers s x = true ∧ StepFunction.covers t x = true)) true
      (compareSegments compareIntersectsOperation s t) := by
  refine Boundary.walk_induction (motive := fun s t =>
    Runs (∀ x, ¬(StepFunction.covers s x = true ∧ StepFunction.covers t x = true)) true
      (compareSegments compareIntersectsOperation s t)) ?_ ?_ ?_ hs ht
  · intro t ht
    exact Or.inl ⟨fun x hx => Bool.noConfusion hx.1, by simp [compareSegments, onEvent, compareIntersectsOperation]⟩
  · intro s hs
    exact Or.inl ⟨fun x hx => Bool.noConfusion hx.2, by simp [compareSegments, onEvent, compareIntersectsOperation]⟩
  · intro a a' s b b' t hs ht ihs iht ih
    have haa' := (boundary_cons_cons.1 hs).1
    have hbb' := (boundary_cons_cons.1 ht).1
    have hends : ∀ r, compareSegments compareIntersectsOperation (a :: a' :: s) (b :: b' :: t) = r ↔
        (if a < b' ∧ b < a' then some true
          else if a' < b' then compareSegments compareIntersectsOperation s (b :: b' :: t)
          else if b' < a' then compareSegments compareIntersectsOperation (a :: a' :: s) t
          else compareSegments compareIntersectsOperation s t) = r := by
      intro r
      rw [compareSegments]
      simp only [compareIntersectsOperation, onEvent, ite_self]
      split_ifs <;> rfl
    have hrest := fun x => covers_rest hs (x := x)
    have hrest' := fun x => covers_rest ht (x := x)
    unfold Runs
    simp only [hends, covers_interval hs, covers_interval ht] at *
    split_ifs with hoverlap hends1 hends2
    · refine Or.inr ⟨fun h => h (max a b) ⟨Or.inl ?_, Or.inl ?_⟩, rfl⟩ <;> omega
    · refine ihs.of_iff ⟨fun h x hx => h x ⟨hx.1.resolve_left fun hin => ?_, hx.2⟩, fun h x hx => h x ⟨Or.inr hx.1, hx.2⟩⟩
      rcases hx.2 with hx | hx
      · omega
      · rw [hrest' x (by omega)] at hx
        cases hx
    · refine iht.of_iff ⟨fun h x hx => h x ⟨hx.1, hx.2.resolve_left fun hin => ?_⟩, fun h x hx => h x ⟨hx.1, Or.inr hx.2⟩⟩
      rcases hx.1 with hx | hx
      · omega
      · rw [hrest x (by omega)] at hx
        cases hx
    · omega

/-! ## Spans -/

theorem Runs.ite {P Q : Prop} [Decidable P] {v : Bool} {r : Option Bool} (h : P → Runs Q v r) :
    Runs (P → Q) v (if P then r else none) := by
  split_ifs with hp
  · exact (h hp).of_iff ⟨fun hq _ => hq, fun hq => hq hp⟩
  · exact Or.inl ⟨fun h => absurd h hp, rfl⟩

theorem Runs.orElse {P Q : Prop} {v : Bool} {r r' : Option Bool} (h : Runs P v r) (h' : P → Runs Q v r') :
    Runs (P ∧ Q) v (r <|> r') := by
  rcases h with ⟨hp, rfl⟩ | ⟨hp, rfl⟩
  · exact (h' hp).of_iff (and_iff_right hp).symm
  · exact Or.inr ⟨fun h => hp h.1, rfl⟩

/-- What is left of a canonical shape behind a span with the segments `d`. -/
structure Rest (d : List Int) (shape : Shape) : Prop where
  changes : Changes d shape
  final : finalValue d shape = []
  rows : ∀ span ∈ shape, Boundary span.2

theorem Rest.tail {d : List Int} {span : Int × List Int} {spans : Shape} (h : Rest d (span :: spans)) :
    Rest span.2 spans :=
  ⟨(changes_cons.1 h.changes).2.2, h.final, (List.forall_mem_cons.1 h.rows).2⟩

variable {Rel : List Int → List Int → Prop} {d e : List Int} {a a' b b' : Int × List Int} {as bs : Shape}

/-- The rows from a `y` on are related. -/
def RowsFrom (Rel : List Int → List Int → Prop) (as bs : Shape) (y₀ : Int) : Prop :=
  ∀ y, y₀ ≤ y → Rel (stepAt [] as y) (stepAt [] bs y)

theorem stepAt_two {y : Int} (h : a.1 ≤ y) :
    stepAt [] (a :: a' :: as) y = if y < a'.1 then a.2 else stepAt [] (a' :: as) y := by
  rw [stepAt_cons_of_le h]
  split_ifs with hlt
  · exact if_pos hlt
  · rw [stepAt_cons_of_le (not_lt.1 hlt), stepAt_cons_of_le (not_lt.1 hlt)]

theorem Rest.lt (h : Rest d (a :: a' :: as)) : a.1 < a'.1 := (changes_cons.1 h.changes).2.1 a' (List.mem_cons_self ..)

/-- The rows of spans of which the first shape's ends first. -/
theorem rowsFrom_left (ha : Rest d (a :: a' :: as)) (hb : Rest e (b :: b' :: bs)) (hlt : a'.1 < b'.1) :
    ((a.1 < b'.1 ∧ b.1 < a'.1 → Rel a.2 b.2) ∧ RowsFrom Rel (a' :: as) (b :: b' :: bs) (max a'.1 b.1)) ↔
      RowsFrom Rel (a :: a' :: as) (b :: b' :: bs) (max a.1 b.1) := by
  have haa' := ha.lt
  have hbb' := hb.lt
  constructor
  · rintro ⟨hrow, hrest⟩ y hy
    have hay : a.1 ≤ y := (le_max_left ..).trans hy
    have hby : b.1 ≤ y := (le_max_right ..).trans hy
    rw [stepAt_two hay]
    split_ifs with hlt'
    · rw [stepAt_two hby, if_pos (by omega)]
      exact hrow ⟨by omega, by omega⟩
    · exact hrest y (max_le (not_lt.1 hlt') hby)
  · intro h
    refine ⟨fun hoverlap => ?_, fun y hy => ?_⟩
    · have hrow := h (max a.1 b.1) le_rfl
      rwa [stepAt_two (le_max_left ..), stepAt_two (le_max_right ..), if_pos (by omega), if_pos (by omega)] at hrow
    · have hay : a'.1 ≤ y := (le_max_left ..).trans hy
      have hrow := h y (by omega)
      rwa [stepAt_two (haa'.le.trans hay), if_neg (not_lt.2 hay)] at hrow

theorem rowsFrom_right (ha : Rest d (a :: a' :: as)) (hb : Rest e (b :: b' :: bs)) (hlt : b'.1 < a'.1) :
    ((a.1 < b'.1 ∧ b.1 < a'.1 → Rel a.2 b.2) ∧ RowsFrom Rel (a :: a' :: as) (b' :: bs) (max a.1 b'.1)) ↔
      RowsFrom Rel (a :: a' :: as) (b :: b' :: bs) (max a.1 b.1) := by
  have hflip := @rowsFrom_left (fun s t => Rel t s) _ _ _ _ _ _ _ _ hb ha hlt
  rw [max_comm b'.1, max_comm b.1, and_comm (a := b.1 < a'.1)] at hflip
  exact hflip

theorem rowsFrom_both (ha : Rest d (a :: a' :: as)) (hb : Rest e (b :: b' :: bs)) (heq : a'.1 = b'.1) :
    ((a.1 < b'.1 ∧ b.1 < a'.1 → Rel a.2 b.2) ∧ RowsFrom Rel (a' :: as) (b' :: bs) (max a'.1 b'.1)) ↔
      RowsFrom Rel (a :: a' :: as) (b :: b' :: bs) (max a.1 b.1) := by
  have haa' := ha.lt
  have hbb' := hb.lt
  constructor
  · rintro ⟨hrow, hrest⟩ y hy
    have hay : a.1 ≤ y := (le_max_left ..).trans hy
    have hby : b.1 ≤ y := (le_max_right ..).trans hy
    rw [stepAt_two hay, stepAt_two hby, heq]
    split_ifs with hlt
    · exact hrow ⟨by omega, by omega⟩
    · exact hrest y (by omega)
  · intro h
    refine ⟨fun hoverlap => ?_, fun y hy => ?_⟩
    · have hrow := h (max a.1 b.1) le_rfl
      rwa [stepAt_two (le_max_left ..), stepAt_two (le_max_right ..), if_pos (by omega), if_pos (by omega)] at hrow
    · have hrow := h y (by omega)
      rwa [stepAt_two (by omega), stepAt_two (by omega), if_neg (by omega), if_neg (by omega)] at hrow

/-- The points of one row are among those of the other. -/
def RowContains (s t : List Int) : Prop := ∀ x, StepFunction.covers t x = true → StepFunction.covers s x = true

/-- Two rows have no point in common. -/
def RowApart (s t : List Int) : Prop := ∀ x, ¬(StepFunction.covers s x = true ∧ StepFunction.covers t x = true)

theorem not_rowContains_nil (h : Boundary s) (hne : s ≠ []) : ¬RowContains [] s := fun hcontains => by
  obtain ⟨x, hx⟩ := h.exists_covers hne
  cases hcontains x hx

/-- The last row that is left has a point. -/
theorem Rest.exists_bottom (h : Rest d (a :: a' :: as)) :
    ∃ y, a.1 ≤ y ∧ a'.1 ≤ y + 1 ∧ stepAt [] (a :: a' :: as) y ≠ [] := by
  induction as generalizing d a a' with
  | nil =>
    have hlt := h.lt
    have hfinal : a'.2 = [] := h.final
    have hne : a'.2 ≠ a.2 := h.changes.alternates.2.1
    refine ⟨a'.1 - 1, by omega, by omega, ?_⟩
    rw [stepAt_two (by omega), if_pos (by omega)]
    exact fun hnil => hne (hfinal.trans hnil.symm)
  | cons a'' as ih =>
    have hlt := h.lt
    obtain ⟨y, hy, -, hrow⟩ := ih h.tail
    exact ⟨y, by omega, by omega, by rwa [stepAt_two (by omega), if_neg (by omega)]⟩

theorem Rest.row (h : Rest d as) (y : Int) : Boundary (stepAt [] as y) := by
  rcases stepAt_mem [] as y with heq | ⟨span, hspan, heq⟩
  · rw [heq]
    exact boundary_nil
  · rw [heq]
    exact h.rows span hspan

theorem Rest.stepAt_last {y : Int} (h : Rest d [a]) (hy : a.1 ≤ y) : stepAt [] [a] y = [] :=
  (if_neg (not_lt.2 hy)).trans h.final

/-- **The loop of `intersects` over the spans.** -/
theorem compareSpans_intersects (aHad bHad : Bool) (ha : Rest d (a :: as)) (hb : Rest e (b :: bs)) :
    Runs (RowsFrom RowApart (a :: as) (b :: bs) (max a.1 b.1)) true
      (compareSpans compareIntersectsOperation aHad bHad (a :: as) (b :: bs)) := by
  induction as, bs using walk_induction generalizing a b d e aHad bHad with
  | nil_left bs =>
    refine Or.inl ⟨fun y hy x hx => ?_, ?_⟩
    · rw [ha.stepAt_last ((le_max_left ..).trans hy)] at hx
      cases hx.1
    · cases bs <;> simp [compareSpans, onEvent, compareIntersectsOperation]
  | nil_right as =>
    refine Or.inl ⟨fun y hy x hx => ?_, ?_⟩
    · rw [hb.stepAt_last ((le_max_right ..).trans hy)] at hx
      cases hx.2
    · cases as <;> simp [compareSpans, onEvent, compareIntersectsOperation]
  | cons a' as b' bs ih1 ih2 ih =>
    have hsegments : Runs (a.1 < b'.1 ∧ b.1 < a'.1 → RowApart a.2 b.2) true
        (if a.1 < b'.1 ∧ b.1 < a'.1 then compareSegments compareIntersectsOperation a.2 b.2 else none) :=
      Runs.ite fun _ => compareSegments_intersects (ha.rows a (List.mem_cons_self ..)) (hb.rows b (List.mem_cons_self ..))
    have hstep : compareSpans compareIntersectsOperation aHad bHad (a :: a' :: as) (b :: b' :: bs) =
        ((if a.1 < b'.1 ∧ b.1 < a'.1 then compareSegments compareIntersectsOperation a.2 b.2 else none) <|>
          if a'.1 < b'.1 then
            compareSpans compareIntersectsOperation (a.2 ≠ []) (b.2 ≠ []) (a' :: as) (b :: b' :: bs)
          else if b'.1 < a'.1 then
            compareSpans compareIntersectsOperation (a.2 ≠ []) (b.2 ≠ []) (a :: a' :: as) (b' :: bs)
          else compareSpans compareIntersectsOperation (a.2 ≠ []) (b.2 ≠ []) (a' :: as) (b' :: bs)) := by
      rw [compareSpans]
      simp only [onEvent, compareIntersectsOperation, ite_self]
      rfl
    rw [hstep]
    rcases lt_trichotomy a'.1 b'.1 with hlt | heq | hgt
    · rw [if_pos hlt]
      exact (hsegments.orElse fun _ => ih1 _ _ ha.tail hb).of_iff (rowsFrom_left ha hb hlt)
    · rw [if_neg (by omega : ¬a'.1 < b'.1), if_neg (by omega : ¬b'.1 < a'.1)]
      exact (hsegments.orElse fun _ => ih _ _ ha.tail hb.tail).of_iff (rowsFrom_both ha hb heq)
    · rw [if_neg (by omega : ¬a'.1 < b'.1), if_pos hgt]
      exact (hsegments.orElse fun _ => ih2 _ _ ha hb.tail).of_iff (rowsFrom_right ha hb hgt)

/-- **The loop of `contains` over the spans.** While it runs, spans of the second shape begin no earlier than the first
shape, and the rows of a span that begins earlier than the span of the first shape are those that have been compared. -/
theorem compareSpans_contains (aHad bHad : Bool) (ha : Rest d (a :: as)) (hb : Rest e (b :: bs))
    (hprevious : b.1 < a.1 → aHad = true ∨ b.2 = []) (hbegin : ∀ b' ∈ bs.head?, a.1 < b'.1) :
    Runs (RowsFrom RowContains (a :: as) (b :: bs) (max a.1 b.1)) false
      (compareSpans compareContainsOperation aHad bHad (a :: as) (b :: bs)) := by
  induction as, bs using walk_induction generalizing a b d e aHad bHad with
  | nil_left bs =>
    cases bs with
    | nil =>
      refine Or.inl ⟨fun y hy x hx => ?_, by simp [compareSpans, onEvent]⟩
      rw [hb.stepAt_last ((le_max_right ..).trans hy)] at hx
      cases hx
    | cons b' bs =>
      refine Or.inr ⟨fun h => ?_, by simp [compareSpans, onEvent, compareContainsOperation]⟩
      obtain ⟨y, hby, hb'y, hrow⟩ := hb.exists_bottom
      have hab' := hbegin b' rfl
      have hcontains := h y (by omega)
      rw [ha.stepAt_last (by omega)] at hcontains
      exact not_rowContains_nil (hb.row y) hrow hcontains
  | nil_right as =>
    refine Or.inl ⟨fun y hy x hx => ?_, ?_⟩
    · rw [hb.stepAt_last ((le_max_right ..).trans hy)] at hx
      cases hx
    · cases as <;> simp [compareSpans, onEvent, compareContainsOperation]
  | cons a' as b' bs ih1 ih2 ih =>
    have haa' := ha.lt
    have hbb' := hb.lt
    have hab' : a.1 < b'.1 := hbegin b' rfl
    have hrow := hb.rows b (List.mem_cons_self ..)
    have hsegments : Runs (a.1 < b'.1 ∧ b.1 < a'.1 → RowContains a.2 b.2) false
        (if a.1 < b'.1 ∧ b.1 < a'.1 then compareSegments compareContainsOperation a.2 b.2 else none) :=
      Runs.ite fun _ => compareSegments_contains (ha.rows a (List.mem_cons_self ..)) hrow
    have houtside : ¬(b.1 < a.1 ∧ ¬aHad = true ∧ b.2 ≠ []) := by
      rintro ⟨hlt, hhad, hne⟩
      exact (hprevious hlt).elim hhad hne
    have hstep : compareSpans compareContainsOperation aHad bHad (a :: a' :: as) (b :: b' :: bs) =
        ((if a.1 < b'.1 ∧ b.1 < a'.1 then compareSegments compareContainsOperation a.2 b.2 else none) <|>
          if a'.1 < b'.1 then
            compareSpans compareContainsOperation (a.2 ≠ []) (b.2 ≠ []) (a' :: as) (b :: b' :: bs)
          else if b'.1 < a'.1 then
            compareSpans compareContainsOperation (a.2 ≠ []) (b.2 ≠ []) (a :: a' :: as) (b' :: bs)
          else compareSpans compareContainsOperation (a.2 ≠ []) (b.2 ≠ []) (a' :: as) (b' :: bs)) := by
      rw [compareSpans]
      simp only [onEvent, compareContainsOperation, ite_self, if_neg houtside]
      rfl
    have hnext : ∀ b'' ∈ bs.head?, b'.1 < b''.1 := fun b'' hb'' =>
      (changes_cons.1 hb.tail.changes).2.1 b'' (List.mem_of_head? hb'')
    rw [hstep]
    rcases lt_trichotomy a'.1 b'.1 with hlt | heq | hgt
    · rw [if_pos hlt]
      refine (hsegments.orElse fun hcontains => ih1 _ _ ha.tail hb (fun hba' => ?_) ?_).of_iff (rowsFrom_left ha hb hlt)
      · -- the rows of `b` that begin earlier are among those of `a`
        by_cases hnil : b.2 = []
        · exact Or.inr hnil
        · refine Or.inl (decide_eq_true fun hanil => ?_)
          have hcontains := hcontains ⟨hab', hba'⟩
          rw [hanil] at hcontains
          exact not_rowContains_nil hrow hnil hcontains
      · rintro _ ⟨⟩
        exact hlt
    · rw [if_neg (by omega : ¬a'.1 < b'.1), if_neg (by omega : ¬b'.1 < a'.1)]
      refine (hsegments.orElse fun _ => ih _ _ ha.tail hb.tail (fun hb'a' => ?_) fun b'' hb'' => ?_).of_iff
        (rowsFrom_both ha hb heq)
      · omega
      · exact heq ▸ hnext b'' hb''
    · rw [if_neg (by omega : ¬a'.1 < b'.1), if_pos hgt]
      refine (hsegments.orElse fun _ => ih2 _ _ ha hb.tail (fun hb'a => ?_) fun b'' hb'' => ?_).of_iff
        (rowsFrom_right ha hb hgt)
      · omega
      · exact hab'.trans (hnext b'' hb'')

/-! ## Shapes -/

variable {aShape bShape : Shape}

theorem Canonical.rest (h : aShape.Canonical) : Rest [] aShape := ⟨h.changes, h.final, h.rows⟩

theorem Canonical.exists_cons (h : aShape.Canonical) (hne : aShape ≠ []) :
    ∃ a a' as, aShape = a :: a' :: as ∧ a.2 ≠ [] := by
  match aShape, h with
  | [], _ => exact absurd rfl hne
  | [a], h => exact absurd h.final h.changes.alternates.1
  | a :: a' :: as, h => exact ⟨a, a', as, rfl, h.changes.alternates.1⟩

theorem Canonical.exists_covers (h : aShape.Canonical) (hne : aShape ≠ []) : ∃ p, aShape.covers p = true := by
  obtain ⟨a, a', as, rfl, ha⟩ := h.exists_cons hne
  obtain ⟨x, hx⟩ := (h.rows a (List.mem_cons_self ..)).exists_covers ha
  exact ⟨⟨x, a.1⟩, (h.covers_span (List.mem_cons_self ..) x).trans hx⟩

theorem covers_above {a : Int × List Int} {as : Shape} {p : IntPoint} (hp : p.y < a.1) :
    covers (a :: as) p = false := by
  rw [covers, show stepAt [] (a :: as) p.y = [] from if_pos hp]
  rfl

theorem Runs.getD_iff {P : Prop} {v : Bool} {r : Option Bool} (h : Runs P v r) : r.getD (!v) = !v ↔ P := by
  rcases h with ⟨hp, rfl⟩ | ⟨hp, rfl⟩
  · exact iff_of_true rfl hp
  · exact iff_of_false (by cases v <;> decide) hp

/-- **The comparison of `contains` decides whether the points of the second shape are among those of the first.** -/
theorem compareShapes_contains (ha : aShape.Canonical) (hb : bShape.Canonical) :
    compareShapes compareContainsOperation aShape bShape = true ↔
      ∀ p, bShape.covers p = true → aShape.covers p = true := by
  by_cases hbnil : bShape = []
  · subst hbnil
    refine iff_of_true ?_ fun p hp => by cases hp
    cases aShape <;> simp [compareShapes, compareSpans, onEvent, compareContainsOperation]
  obtain ⟨b, b', bs, rfl, hbrow⟩ := hb.exists_cons hbnil
  by_cases hanil : aShape = []
  · subst hanil
    obtain ⟨p, hp⟩ := hb.exists_covers hbnil
    refine iff_of_false ?_ fun h => by cases h p hp
    simp [compareShapes, compareSpans, onEvent, compareContainsOperation]
  obtain ⟨a, a', as, rfl, -⟩ := ha.exists_cons hanil
  by_cases hlt : b.1 < a.1
  · obtain ⟨x, hx⟩ := (hb.rows b (List.mem_cons_self ..)).exists_covers hbrow
    refine iff_of_false ?_ fun h => ?_
    · rw [compareShapes, compareSpans]
      simp [onEvent, compareContainsOperation, hlt, hbrow]
    · have hpoint := h ⟨x, b.1⟩ ((hb.covers_span (List.mem_cons_self ..) x).trans hx)
      rw [covers_above hlt] at hpoint
      cases hpoint
  · have hruns := compareSpans_contains false false ha.rest hb.rest (fun h => absurd h hlt) fun c hc => by
      obtain rfl : b' = c := Option.some.inj hc
      exact (not_lt.1 hlt).trans_lt hb.rest.lt
    refine hruns.getD_iff.trans ⟨fun h p hp => ?_, fun h y _ x hx => h ⟨x, y⟩ hx⟩
    refine h p.y (max_le ((not_lt.1 hlt).trans ?_) ?_) p.x hp <;>
      exact not_lt.1 fun habove => Bool.noConfusion (hp.symm.trans (covers_above habove))

/-- **The comparison of `intersects` decides whether the shapes have a point in common.** -/
theorem compareShapes_intersects (ha : aShape.Canonical) (hb : bShape.Canonical) :
    compareShapes compareIntersectsOperation aShape bShape = true ↔
      ∃ p, aShape.covers p = true ∧ bShape.covers p = true := by
  cases aShape with
  | nil =>
    have hleft : ¬∃ p, Shape.covers [] p = true ∧ bShape.covers p = true := by
      rintro ⟨p, hp, -⟩
      cases hp
    refine iff_of_false ?_ hleft
    simp [compareShapes, compareSpans, onEvent, compareIntersectsOperation]
  | cons a as =>
    cases bShape with
    | nil =>
      have hright : ¬∃ p, Shape.covers (a :: as) p = true ∧ Shape.covers [] p = true := by
        rintro ⟨p, -, hp⟩
        cases hp
      refine iff_of_false ?_ hright
      simp [compareShapes, compareSpans, onEvent, compareIntersectsOperation]
    | cons b bs =>
      have hruns := compareSpans_intersects false false ha.rest hb.rest
      have hfalse : compareShapes compareIntersectsOperation (a :: as) (b :: bs) = false ↔
        RowsFrom RowApart (a :: as) (b :: bs) (max a.1 b.1) := hruns.getD_iff
      rw [← Bool.not_eq_false, hfalse]
      constructor
      · intro h
        simp only [RowsFrom, RowApart, not_forall, not_not] at h
        obtain ⟨y, -, x, hx⟩ := h
        exact ⟨⟨x, y⟩, hx⟩
      · rintro ⟨p, hpa, hpb⟩ h
        refine h p.y (max_le ?_ ?_) p.x ⟨hpa, hpb⟩
        · exact not_lt.1 fun habove => Bool.noConfusion (hpa.symm.trans (covers_above habove))
        · exact not_lt.1 fun habove => Bool.noConfusion (hpb.symm.trans (covers_above habove))

end Shape

end WebKit.WebCore
