import WebKit.WebCore.Region

/-!
# Operations on shapes

A shape is `Canonical` if it is a step function of `y` by its changes, to rows that are sets of `x` by their boundaries;
its points are those of its rows (`covers`). Both loops of `shapeOperation` are `combine`: that over the segments of two
spans (`mergeSegments_toggles`) and that over the spans (`mergeSpans_eq`). So the operations keep shapes canonical and
are operations on the points (`shapeOperation_spec`).
-/

namespace WebKit.WebCore

open StepFunction

namespace Shape

def covers (shape : Shape) (p : IntPoint) : Bool := StepFunction.covers (stepAt [] shape p.y) p.x

/-- The form of shapes: no span repeats the one in front of it, and the last span ends all segments. -/
structure Canonical (shape : Shape) : Prop where
  changes : Changes [] shape
  final : finalValue [] shape = []
  rows : ∀ span ∈ shape, Boundary span.2

theorem canonical_nil : Canonical [] := ⟨changes_nil [], rfl, by simp⟩

theorem Canonical.row {shape : Shape} (h : shape.Canonical) (y : Int) : Boundary (stepAt [] shape y) := by
  rcases stepAt_mem [] shape y with heq | ⟨span, hspan, heq⟩
  · rw [heq]
    exact boundary_nil
  · rw [heq]
    exact h.rows span hspan

namespace Operation

variable {op : Operation}

/-- The bits of the flag. -/
def flagOf (p q : Bool) : Nat := (if p then 1 else 0) + if q then 2 else 0

/-- Whether a point is in the result, from whether it is in the first shape and in the second one. -/
def inside (op : Operation) (p q : Bool) : Bool := decide (flagOf p q = op.opCode) ^^ decide (0 = op.opCode)

/-- What remains of a shape behind the end of the other one is in the result or not. -/
structure Sound (op : Operation) : Prop where
  left : ∀ p, op.inside p false = (op.shouldAddRemainingSegmentsFromSpan1 && p)
  right : ∀ q, op.inside false q = (op.shouldAddRemainingSegmentsFromSpan2 && q)
  leftSpans : op.shouldAddRemainingSpansFromShape1 = op.shouldAddRemainingSegmentsFromSpan1
  rightSpans : op.shouldAddRemainingSpansFromShape2 = op.shouldAddRemainingSegmentsFromSpan2
  simple : ∀ shape1 shape2 result, op.trySimpleOperation shape1 shape2 = some result →
    shape1 = [] ∧ result = shape2 ∧ op.shouldAddRemainingSegmentsFromSpan2 = true

theorem flagOf_xor (p q : Bool) : flagOf p q ^^^ 1 = flagOf (!p) q ∧ flagOf p q ^^^ 2 = flagOf p (!q) := by
  cases p <;> cases q <;> exact ⟨rfl, rfl⟩

theorem flagOf_inj {p q p' q' : Bool} : flagOf p q = flagOf p' q' ↔ p = p' ∧ q = q' := by
  cases p <;> cases q <;> cases p' <;> cases q' <;> decide

theorem toggles_append {p q p' q' : Bool} (h : flagOf p' q' ≠ flagOf p q) (x : Int) (segments : List Int) :
    toggles (op.inside p q) (op.append (flagOf p q) (flagOf p' q') x segments) =
      emit (op.inside p q) x (op.inside p' q') (toggles (op.inside p' q') segments) := by
  unfold append emit inside
  by_cases hold : flagOf p q = op.opCode
  · have hnew : flagOf p' q' ≠ op.opCode := hold ▸ h
    by_cases hzero : 0 = op.opCode <;> simp [hold, hnew, hzero, toggles]
  · by_cases hnew : flagOf p' q' = op.opCode <;> by_cases hzero : 0 = op.opCode <;>
      simp [hold, hnew, hzero, toggles]

theorem mergeSegments_nil_left (flag : Nat) (s2 : List Int) :
    op.mergeSegments flag [] s2 = if op.shouldAddRemainingSegmentsFromSpan2 then s2 else [] := by
  cases s2 <;> simp [mergeSegments]

theorem mergeSegments_nil_right (flag : Nat) (s1 : List Int) :
    op.mergeSegments flag s1 [] = if op.shouldAddRemainingSegmentsFromSpan1 then s1 else [] := by
  cases s1 <;> simp [mergeSegments]

/-- **The loop over the segments combines the sets.** -/
theorem mergeSegments_toggles (h : op.Sound) {p q : Bool} {s1 s2 : List Int}
    (hs1 : finalValue p (toggles p s1) = false) (hs2 : finalValue q (toggles q s2) = false) :
    toggles (op.inside p q) (op.mergeSegments (flagOf p q) s1 s2) =
      combine op.inside p q (toggles p s1) (toggles q s2) := by
  induction s1, s2 using walk_induction generalizing p q with
  | nil_left s2 =>
    obtain rfl : p = false := hs1
    rw [mergeSegments_nil_left]
    cases hright : op.shouldAddRemainingSegmentsFromSpan2 with
    | false =>
      have hconst : ∀ q, op.inside false q = false := fun q => by rw [h.right, hright, Bool.false_and]
      rw [hconst, toggles, combine_nil_left_of_const hconst]
      rfl
    | true =>
      have hid : ∀ q, op.inside false q = q := fun q => by rw [h.right, hright, Bool.true_and]
      rw [hid, toggles, combine_nil_left hid (alternates_toggles q s2)]
      rfl
  | nil_right s1 =>
    obtain rfl : q = false := hs2
    rw [mergeSegments_nil_right]
    cases hleft : op.shouldAddRemainingSegmentsFromSpan1 with
    | false =>
      have hconst : ∀ p, op.inside p false = false := fun p => by rw [h.left, hleft, Bool.false_and]
      rw [hconst, show toggles false ([] : List Int) = [] from rfl, combine_nil_right_of_const hconst]
      rfl
    | true =>
      have hid : ∀ p, op.inside p false = p := fun p => by rw [h.left, hleft, Bool.true_and]
      rw [hid, show toggles false ([] : List Int) = [] from rfl, combine_nil_right hid (alternates_toggles p s1)]
      rfl
  | cons x s1 x' s2 ih1 ih2 ih =>
    obtain ⟨hone, htwo⟩ := flagOf_xor p q
    have hne1 : flagOf (!p) q ≠ flagOf p q := by simp [flagOf_inj]
    have hne2 : flagOf p (!q) ≠ flagOf p q := by simp [flagOf_inj]
    have hne : flagOf (!p) (!q) ≠ flagOf p q := by simp [flagOf_inj]
    rw [mergeSegments, toggles, toggles, combine, hone, htwo, (flagOf_xor (!p) q).2]
    split_ifs with hlt hgt
    · rw [toggles_append hne1, ih1 hs1 hs2, toggles]
    · rw [toggles_append hne2, ih2 hs1 hs2, toggles]
    · rw [toggles_append hne, ih hs1 hs2]

theorem inside_false (op : Operation) : op.inside false false = false := Bool.xor_self _

/-- **The row of two rows.** -/
theorem mergeSegments_spec (h : op.Sound) {s1 s2 : List Int} (hs1 : Boundary s1) (hs2 : Boundary s2) :
    Boundary (op.mergeSegments 0 s1 s2) ∧
      ∀ x, StepFunction.covers (op.mergeSegments 0 s1 s2) x =
        op.inside (StepFunction.covers s1 x) (StepFunction.covers s2 x) := by
  have heq := mergeSegments_toggles h hs1.final hs2.final
  obtain ⟨hchanges, hstep, hfinal⟩ := combine_spec (f := op.inside) (u := false) (v := false) hs1.changes.ordered
    hs2.changes.ordered
  rw [← heq, inside_false] at hchanges hstep hfinal
  refine ⟨⟨ordered_toggles.1 hchanges.ordered, ?_⟩, hstep⟩
  exact hfinal.trans (by rw [hs1.final, hs2.final, inside_false])

/-! ### Spans -/

theorem getLast?_eq {shape : Shape} (hne : shape ≠ []) :
    ∃ last, shape.getLast? = some last ∧ last.2 = finalValue [] shape := by
  have hlast : ∀ (d : List Int) (span : Int × List Int) (shape : Shape),
      ∃ last, (span :: shape).getLast? = some last ∧ last.2 = finalValue d (span :: shape) := by
    intro d span shape
    induction shape generalizing span d with
    | nil => exact ⟨span, rfl, rfl⟩
    | cons next shape ih =>
      obtain ⟨last, hlast, heq⟩ := ih span.2 next
      exact ⟨last, by rw [List.getLast?_cons_cons, hlast], heq⟩
  cases shape with
  | nil => exact absurd rfl hne
  | cons span shape => exact hlast [] span shape

theorem addSpan_eq {result : Shape} {w : List Int} (h : finalValue [] result = w) (y : Int) (s1 s2 : List Int) :
    op.addSpan result y s1 s2 = result ++ emit w y (op.mergeSegments 0 s1 s2) [] := by
  unfold addSpan
  simp only
  by_cases hne : result = []
  · subst hne
    obtain rfl : [] = w := h
    by_cases hsegments : op.mergeSegments 0 s1 s2 = [] <;> simp [hsegments, emit, appendSpan]
  · obtain ⟨last, hlast, heq⟩ := getLast?_eq hne
    rw [if_pos (Or.inr hne), appendSpan, hlast]
    simp only [heq, h, emit, eq_comm (a := w)]
    split_ifs <;> simp

theorem appendSpans_eq {result spans : Shape} (h : Alternates (finalValue [] result) spans) :
    result.appendSpans spans = result ++ spans := by
  induction spans generalizing result with
  | nil => simp [appendSpans]
  | cons span spans ih =>
    have happend : result.appendSpan span.1 span.2 = result ++ [span] := by
      unfold appendSpan
      by_cases hne : result = []
      · subst hne
        rfl
      · obtain ⟨last, hlast, heq⟩ := getLast?_eq hne
        rw [hlast]
        exact if_neg fun hsame => h.1 (hsame.symm.trans heq)
    rw [appendSpans, List.foldl_cons, happend]
    have hfinal : finalValue [] (result ++ [span]) = span.2 := finalValue_append ..
    exact (ih (hfinal ▸ h.2)).trans (by simp)

/-- **The loop over the spans combines the rows.** -/
theorem mergeSpans_eq (h : op.Sound) {result : Shape} {u v : List Int} {shape1 shape2 : Shape}
    (hresult : finalValue [] result = op.mergeSegments 0 u v) (h1 : Alternates u shape1) (h2 : Alternates v shape2)
    (hfinal1 : finalValue u shape1 = []) (hfinal2 : finalValue v shape2 = []) :
    op.mergeSpans result u v shape1 shape2 = result ++ combine (op.mergeSegments 0) u v shape1 shape2 := by
  induction shape1, shape2 using walk_induction generalizing result u v with
  | nil_left shape2 =>
    obtain rfl : u = [] := hfinal1
    have hmerge : op.mergeSpans result [] v [] shape2 =
        if op.shouldAddRemainingSegmentsFromSpan2 then result.appendSpans shape2 else result := by
      cases shape2 <;> simp [mergeSpans, h.rightSpans, appendSpans]
    rw [hmerge]
    cases hright : op.shouldAddRemainingSegmentsFromSpan2 with
    | false =>
      have hconst : ∀ v, op.mergeSegments 0 [] v = [] := fun v => by simp [mergeSegments_nil_left, hright]
      rw [combine_nil_left_of_const hconst, List.append_nil]
      rfl
    | true =>
      have hid : ∀ v, op.mergeSegments 0 [] v = v := fun v => by simp [mergeSegments_nil_left, hright]
      rw [hid] at hresult
      rw [combine_nil_left hid h2]
      exact appendSpans_eq (hresult ▸ h2)
  | nil_right shape1 =>
    obtain rfl : v = [] := hfinal2
    have hmerge : op.mergeSpans result u [] shape1 [] =
        if op.shouldAddRemainingSegmentsFromSpan1 then result.appendSpans shape1 else result := by
      cases shape1 <;> simp [mergeSpans, h.leftSpans, appendSpans]
    rw [hmerge]
    cases hleft : op.shouldAddRemainingSegmentsFromSpan1 with
    | false =>
      have hconst : ∀ u, op.mergeSegments 0 u [] = [] := fun u => by simp [mergeSegments_nil_right, hleft]
      rw [combine_nil_right_of_const hconst, List.append_nil]
      rfl
    | true =>
      have hid : ∀ u, op.mergeSegments 0 u [] = u := fun u => by simp [mergeSegments_nil_right, hleft]
      rw [hid] at hresult
      rw [combine_nil_right hid h1]
      exact appendSpans_eq (hresult ▸ h1)
  | cons span1 shape1 span2 shape2 ih1 ih2 ih =>
    have hadd : ∀ y u' v', finalValue [] (op.addSpan result y u' v') = op.mergeSegments 0 u' v' := fun y u' v' => by
      rw [addSpan_eq hresult, finalValue_append, hresult, finalValue_emit]
      rfl
    rw [mergeSpans, combine]
    split_ifs with hlt hgt
    · rw [ih1 (hadd ..) h1.2 h2 hfinal1 hfinal2, addSpan_eq hresult, List.append_assoc, emit_append]
    · rw [ih2 (hadd ..) h1 h2.2 hfinal1 hfinal2, addSpan_eq hresult, List.append_assoc, emit_append]
    · rw [ih (hadd ..) h1.2 h2.2 hfinal1 hfinal2, addSpan_eq hresult, List.append_assoc, emit_append]

end Operation

/-! ### The operations -/

variable {shape1 shape2 : Shape}

theorem shapeOperation_eq {op : Operation} (h : op.Sound) (h1 : shape1.Canonical) (h2 : shape2.Canonical) :
    shapeOperation op shape1 shape2 = combine (op.mergeSegments 0) [] [] shape1 shape2 := by
  have hnil : op.mergeSegments 0 [] [] = [] := by rw [Operation.mergeSegments_nil_left, ite_self]
  unfold shapeOperation
  cases hsimple : op.trySimpleOperation shape1 shape2 with
  | some result =>
    obtain ⟨rfl, rfl, hright⟩ := h.simple _ _ _ hsimple
    have hid : ∀ v, op.mergeSegments 0 [] v = v := fun v => by simp [Operation.mergeSegments_nil_left, hright]
    exact (combine_nil_left hid h2.changes.alternates).symm
  | none =>
    have hresult : finalValue [] ([] : Shape) = op.mergeSegments 0 [] [] := hnil.symm
    exact (Operation.mergeSpans_eq h hresult h1.changes.alternates h2.changes.alternates h1.final h2.final).trans
      (List.nil_append _)

/-- **An operation on shapes is one on their points.** -/
theorem shapeOperation_spec {op : Operation} (h : op.Sound) (h1 : shape1.Canonical) (h2 : shape2.Canonical) :
    (shapeOperation op shape1 shape2).Canonical ∧
      ∀ p, (shapeOperation op shape1 shape2).covers p = op.inside (shape1.covers p) (shape2.covers p) := by
  have hnil : op.mergeSegments 0 [] [] = [] := by rw [Operation.mergeSegments_nil_left, ite_self]
  obtain ⟨hchanges, hstep, hfinal⟩ := combine_spec (f := op.mergeSegments 0) (u := []) (v := []) h1.changes.ordered
    h2.changes.ordered
  have hrows : ∀ span ∈ combine (op.mergeSegments 0) [] [] shape1 shape2, True ∧ Boundary span.2 :=
    forall_combine (A := fun _ => True) (P := Boundary) (Q := Boundary)
      (fun u v hu hv => (Operation.mergeSegments_spec h hu hv).1) boundary_nil boundary_nil
      (fun span hspan => ⟨trivial, h1.rows span hspan⟩) fun span hspan => ⟨trivial, h2.rows span hspan⟩
  rw [hnil] at hchanges hstep hfinal
  rw [shapeOperation_eq h h1 h2]
  refine ⟨⟨hchanges, hfinal.trans (by rw [h1.final, h2.final, hnil]), fun span hspan => (hrows span hspan).2⟩,
    fun p => ?_⟩
  rw [covers, hstep]
  exact (Operation.mergeSegments_spec h (h1.row p.y) (h2.row p.y)).2 p.x

theorem sound_unionOperation : unionOperation.Sound where
  left := by decide
  right := by decide
  leftSpans := rfl
  rightSpans := rfl
  simple := by
    intro shape1 shape2 result h
    simp only [unionOperation] at h
    split at h
    · rename_i hnil
      exact ⟨hnil, (Option.some.inj h).symm, rfl⟩
    · cases h

theorem sound_intersectOperation : intersectOperation.Sound where
  left := by decide
  right := by decide
  leftSpans := rfl
  rightSpans := rfl
  simple _ _ _ h := by cases h

theorem sound_subtractOperation : subtractOperation.Sound where
  left := by decide
  right := by decide
  leftSpans := rfl
  rightSpans := rfl
  simple _ _ _ h := by cases h

theorem inside_union (p q : Bool) : unionOperation.inside p q = (p || q) := by cases p <;> cases q <;> rfl

theorem inside_intersect (p q : Bool) : intersectOperation.inside p q = (p && q) := by cases p <;> cases q <;> rfl

theorem inside_subtract (p q : Bool) : subtractOperation.inside p q = (p && !q) := by cases p <;> cases q <;> rfl

end Shape

end WebKit.WebCore
