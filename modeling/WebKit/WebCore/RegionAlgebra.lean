import WebKit.WebCore.RegionCompare
import Mathlib.Data.List.Basic
import Mathlib.Order.MinMax

/-!
# Operations on regions

A region is `Exact` if its shape is canonical and its bounds are tight. Then its queries are those of its points
(`containsPoint_eq`, `contains_iff`, `intersects_iff`), and the operations, with their short cuts, keep regions exact
and are operations on the points (`unite_exact`, `intersect_exact`, `subtract_exact`, `translate_exact`).
-/

namespace WebKit.WebCore

open StepFunction

namespace Shape

variable {shape shape1 shape2 : Shape}

/-- **A shape is determined by its points.** -/
theorem Canonical.eq_of_covers (h1 : shape1.Canonical) (h2 : shape2.Canonical)
    (h : ∀ p, shape1.covers p = shape2.covers p) : shape1 = shape2 :=
  h1.changes.eq_of_stepAt h2.changes fun y => (h1.row y).eq_of_covers (h2.row y) fun x => h ⟨x, y⟩

/-- A row with coordinates that are values of `int`. -/
def RowFits (s : List Int) : Prop := Boundary s ∧ ∀ x ∈ s, minInt ≤ x ∧ x ≤ maxInt

/-- The coordinates of the segments of a result are those of the operands. -/
theorem shapeOperation_fits {op : Operation} (h : op.Sound) (h1 : shape1.Canonical) (h2 : shape2.Canonical)
    (hfits1 : shape1.Fits) (hfits2 : shape2.Fits) : (shapeOperation op shape1 shape2).Fits := by
  have hsegments : ∀ s1 s2, RowFits s1 → RowFits s2 → RowFits (op.mergeSegments 0 s1 s2) := by
    intro s1 s2 hs1 hs2
    have heq := Operation.mergeSegments_toggles h hs1.1.final hs2.1.final
    have hpoints : ∀ q ∈ combine op.inside false false (toggles false s1) (toggles false s2),
        minInt ≤ q.1 ∧ q.1 ≤ maxInt := combine_points (forall_toggles.2 hs1.2) (forall_toggles.2 hs2.2)
    rw [← heq] at hpoints
    exact ⟨(Operation.mergeSegments_spec h hs1.1 hs2.1).1, forall_toggles.1 hpoints⟩
  have hempty : RowFits [] := ⟨boundary_nil, by simp⟩
  rw [shapeOperation_eq h h1 h2]
  have hall := forall_combine (A := fun _ => True) hsegments hempty hempty
    (fun span hspan => ⟨trivial, h1.rows span hspan, hfits1 span hspan⟩)
    fun span hspan => ⟨trivial, h2.rows span hspan, hfits2 span hspan⟩
  exact fun span hspan => (hall span hspan).2.2

theorem ofRect_spec {r : IntRect} (h : r.isEmpty = false) :
    (ofRect r).Canonical ∧ ∀ p, (ofRect r).covers p = r.containsPoint p := by
  have hne : ¬(r.width ≤ 0 ∨ r.height ≤ 0) := fun hempty => Bool.noConfusion (h.symm.trans (IntRect.isEmpty_iff.2 hempty))
  have hx : r.x < r.maxX := by
    rw [IntRect.maxX]
    omega
  have hy : r.y < r.maxY := by
    rw [IntRect.maxY]
    omega
  refine ⟨⟨?_, rfl, ?_⟩, fun p => ?_⟩
  · exact changes_cons.2 ⟨by simp, by simpa using hy, changes_cons.2 ⟨by simp, by simp, changes_nil _⟩⟩
  · exact List.forall_mem_cons.2 ⟨boundary_cons_cons.2 ⟨hx, by simp, boundary_nil⟩,
      List.forall_mem_cons.2 ⟨boundary_nil, by simp⟩⟩
  · rw [Bool.eq_iff_iff, IntRect.containsPoint_iff]
    simp only [covers, ofRect, stepAt]
    split_ifs with hlt hlt'
    · exact iff_of_false (by simp [StepFunction.covers, toggles, stepAt]) (by omega)
    · rw [covers_cons_cons]
      split_ifs with hpx hpx' <;> simp [StepFunction.covers, toggles, stepAt] <;> omega
    · exact iff_of_false (by simp [StepFunction.covers, toggles, stepAt]) (by omega)

theorem Tight.contains {r r' : IntRect} (h : Tight r shape) (hne : shape ≠ [])
    (hr' : ∀ p, shape.covers p = true → r'.containsPoint p = true) : r'.contains r = true := by
  obtain ⟨_, hleft⟩ := h.left hne
  obtain ⟨_, hright⟩ := h.right hne
  obtain ⟨_, htop⟩ := h.top hne
  obtain ⟨_, hbottom⟩ := h.bottom hne
  have hleft := IntRect.containsPoint_iff.1 (hr' _ hleft)
  have hright := IntRect.containsPoint_iff.1 (hr' _ hright)
  have htop := IntRect.containsPoint_iff.1 (hr' _ htop)
  have hbottom := IntRect.containsPoint_iff.1 (hr' _ hbottom)
  rw [IntRect.contains_iff]
  simp only at hleft hright htop hbottom
  omega

theorem Tight.eq {r r' : IntRect} (h : Tight r shape) (h' : Tight r' shape) (hne : shape ≠ []) : r = r' := by
  have hin := IntRect.contains_iff.1 (h.contains hne h'.covers)
  have hin' := IntRect.contains_iff.1 (h'.contains hne h.covers)
  obtain ⟨x, y, width, height⟩ := r
  obtain ⟨x', y', width', height'⟩ := r'
  simp only [IntRect.maxX, IntRect.maxY, IntRect.mk.injEq] at hin hin' ⊢
  omega

theorem ofRect_tight {r : IntRect} (hr : r.isEmpty = false) : Tight r (ofRect r) := by
  obtain ⟨hcanonical, hcovers⟩ := ofRect_spec hr
  have hne : ¬(r.width ≤ 0 ∨ r.height ≤ 0) := fun hempty =>
    Bool.noConfusion (hr.symm.trans (IntRect.isEmpty_iff.2 hempty))
  have hpoint : ∀ p : IntPoint, r.x ≤ p.x → p.x < r.x + r.width → r.y ≤ p.y → p.y < r.y + r.height →
      (ofRect r).covers p = true := fun p h₁ h₂ h₃ h₄ => by
    rw [hcovers, IntRect.containsPoint_iff]
    exact ⟨h₁, h₂, h₃, h₄⟩
  refine ⟨fun p hp => hcovers p ▸ hp, fun _ => ?_, fun _ => ?_, fun _ => ?_, fun _ => ?_, fun h => by cases h⟩
  · exact ⟨r.y, hpoint ⟨r.x, r.y⟩ le_rfl (by simp only; omega) le_rfl (by simp only; omega)⟩
  · exact ⟨r.y, hpoint ⟨r.x + r.width - 1, r.y⟩ (by simp only; omega) (by simp only; omega) le_rfl (by simp only; omega)⟩
  · exact ⟨r.x, hpoint ⟨r.x, r.y⟩ le_rfl (by simp only; omega) le_rfl (by simp only; omega)⟩
  · exact ⟨r.x, hpoint ⟨r.x, r.y + r.height - 1⟩ le_rfl (by simp only; omega) (by simp only; omega)
      (by simp only; omega)⟩

theorem translate_spec (h : shape.Canonical) (offset : IntSize) :
    (shape.translate offset).Canonical ∧
      ∀ p : IntPoint, (shape.translate offset).covers ⟨p.x + offset.width, p.y + offset.height⟩ = shape.covers p := by
  have hy : ∀ a b : Int, a + offset.height < b + offset.height ↔ a < b := fun a b => by omega
  have hx : ∀ a b : Int, a + offset.width < b + offset.width ↔ a < b := fun a b => by omega
  have hinjective : Function.Injective (List.map (· + offset.width)) :=
    List.map_injective_iff.2 fun a b hab => by simpa using hab
  have heq : shape.translate offset = shape.map (Prod.map (· + offset.height) (List.map (· + offset.width))) := rfl
  rw [heq]
  refine ⟨⟨h.changes.map hy hinjective, ?_, ?_⟩, fun p => ?_⟩
  · exact (finalValue_map (· + offset.height) (List.map (· + offset.width)) [] shape).trans (by rw [h.final]; rfl)
  · rw [List.forall_mem_map]
    exact fun span hspan => (h.rows span hspan).map hx
  · have hrow := stepAt_map hy (List.map (· + offset.width)) [] shape p.y
    rw [covers, show stepAt [] _ (p.y + offset.height) = _ from hrow]
    exact covers_map hx (stepAt [] shape p.y) p.x

end Shape

namespace Region

open Shape

structure Exact (region : Region) : Prop where
  canonical : region.m_shape.Canonical
  fits : region.m_shape.Fits
  tight : Tight region.m_bounds region.m_shape

def covers (self : Region) (p : IntPoint) : Bool := self.m_shape.covers p

variable {self region : Region} {p : IntPoint}

/-! ## Queries -/

theorem Exact.isEmpty_iff (h : self.Exact) : self.isEmpty = true ↔ self.m_shape = [] := by
  constructor
  · intro hempty
    by_contra hne
    obtain ⟨p, hp⟩ := h.canonical.exists_covers hne
    have hin := IntRect.containsPoint_iff.1 (h.tight.covers p hp)
    rw [isEmpty, IntRect.isEmpty_iff] at hempty
    simp only [IntRect.maxX, IntRect.maxY] at hin
    omega
  · intro hnil
    exact IntRect.isEmpty_iff.2 (Or.inl (h.tight.empty hnil).1.le)

theorem covers_of_nil (h : self.m_shape = []) (p : IntPoint) : self.covers p = false := by
  rw [covers, h]
  rfl

theorem Exact.isEmpty_eq_false (h : self.Exact) (hp : self.covers p = true) : self.isEmpty = false := by
  refine Bool.eq_false_iff.2 fun hempty => ?_
  rw [covers_of_nil (h.isEmpty_iff.1 hempty)] at hp
  cases hp

/-- **`contains(const IntPoint&)` decides the points of a region.** -/
theorem Exact.containsPoint_eq (h : self.Exact) (p : IntPoint) : self.containsPoint p = self.covers p := by
  rw [containsPoint, Shape.containsPoint_eq h.canonical.final h.canonical.rows]
  split_ifs with hin
  · rfl
  · exact (Bool.eq_false_iff.2 fun hp => hin (h.tight.covers p hp)).symm

theorem Exact.contains_bounds (h : self.Exact) (hne : self.m_shape ≠ []) {r : IntRect}
    (hr : ∀ p, self.covers p = true → r.containsPoint p = true) : r.contains self.m_bounds = true :=
  h.tight.contains hne hr

/-- **`contains(const Region&)`, for a region that is not empty.** -/
theorem Exact.contains_iff (h : self.Exact) (h' : region.Exact) (hne : region.isEmpty = false) :
    self.contains region = true ↔ ∀ p, region.covers p = true → self.covers p = true := by
  rw [contains]
  split_ifs with hbounds
  · exact compareShapes_contains h.canonical h'.canonical
  · refine iff_of_false (by decide) fun hall => hbounds ?_
    refine h'.contains_bounds (fun hnil => ?_) fun p hp => h.tight.covers p (hall p hp)
    exact Bool.noConfusion (hne.symm.trans (h'.isEmpty_iff.2 hnil))

theorem Exact.intersects_bounds (h : self.Exact) (h' : region.Exact) (hp : self.covers p = true)
    (hp' : region.covers p = true) : self.m_bounds.intersects region.m_bounds = true := by
  have hin := IntRect.containsPoint_iff.1 (h.tight.covers p hp)
  have hin' := IntRect.containsPoint_iff.1 (h'.tight.covers p hp')
  refine IntRect.intersects_iff.2 ⟨h.isEmpty_eq_false hp, h'.isEmpty_eq_false hp', ?_⟩
  omega

/-- **`intersects`.** -/
theorem Exact.intersects_iff (h : self.Exact) (h' : region.Exact) :
    self.intersects region = true ↔ ∃ p, self.covers p = true ∧ region.covers p = true := by
  rw [intersects]
  split_ifs with hbounds
  · exact compareShapes_intersects h.canonical h'.canonical
  · exact iff_of_false (by decide) fun ⟨p, hp, hp'⟩ => hbounds (h.intersects_bounds h' hp hp')

theorem containsPoint_of_contains {r other : IntRect} (h : r.contains other = true) (hp : other.containsPoint p = true) :
    r.containsPoint p = true := by
  rw [IntRect.contains_iff] at h
  rw [IntRect.containsPoint_iff] at hp ⊢
  omega

/-- A shape of two spans and two segments is that of a rectangle. -/
theorem Exact.exists_ofRect (h : self.Exact) (hrect : self.isRect = true) (hne : self.m_shape ≠ []) :
    ∃ r : IntRect, r.isEmpty = false ∧ self.m_shape = .ofRect r := by
  obtain ⟨a, a', as, hshape, ha⟩ := h.canonical.exists_cons hne
  have hcanonical := h.canonical
  rw [isRect, Shape.isRect, Bool.and_eq_true, decide_eq_true_eq, decide_eq_true_eq, hshape] at hrect
  rw [hshape] at hcanonical
  obtain ⟨hspans, hsegments⟩ := hrect
  obtain rfl : as = [] := List.length_eq_zero_iff.1 (by simpa using hspans)
  have ha' : a'.2 = [] := hcanonical.final
  have hlt := hcanonical.rest.lt
  have hrow := hcanonical.rows a (List.mem_cons_self ..)
  have hlength : a.2.length ≤ 2 := by simpa [segments, ha'] using hsegments
  obtain ⟨y, row⟩ := a
  obtain ⟨y', row'⟩ := a'
  obtain _ | ⟨x, _ | ⟨x', _ | ⟨x'', row⟩⟩⟩ := row
  · exact absurd rfl ha
  · exact absurd hrow (not_boundary_singleton x)
  · have hx := (boundary_cons_cons.1 hrow).1
    obtain rfl : row' = [] := ha'
    refine ⟨⟨x, y, x' - x, y' - y⟩, ?_, ?_⟩
    · refine Bool.eq_false_iff.2 fun hempty => ?_
      rw [IntRect.isEmpty_iff] at hempty
      simp only at hempty hlt
      omega
    · rw [hshape, Shape.ofRect, IntRect.maxX, IntRect.maxY, show x + (x' - x) = x' by omega,
        show y + (y' - y) = y' by omega]
  · simp at hlength

theorem Exact.covers_of_isRect (h : self.Exact) (hrect : self.isRect = true) (hne : self.m_shape ≠ [])
    (hp : self.m_bounds.containsPoint p = true) : self.covers p = true := by
  obtain ⟨r, hr, hshape⟩ := h.exists_ofRect hrect hne
  have hcovers : ∀ p, self.covers p = r.containsPoint p := fun p => by
    rw [covers, hshape, (ofRect_spec hr).2]
  rw [hcovers]
  exact containsPoint_of_contains (h.contains_bounds hne fun p hp => hcovers p ▸ hp) hp

/-! ## Operations -/

theorem exact_empty : Exact {} where
  canonical := canonical_nil
  fits := by simp [Fits]
  tight := bounds_tight canonical_nil (by simp [Fits])

theorem ofRect_exact {r : IntRect} (hr : r.isEmpty = false) (hx : minInt ≤ r.x) (hmaxX : r.maxX ≤ maxInt) :
    (ofRect r).Exact ∧ ∀ p, (ofRect r).covers p = r.containsPoint p := by
  obtain ⟨hcanonical, hcovers⟩ := ofRect_spec hr
  refine ⟨⟨hcanonical, List.forall_mem_cons.2 ⟨?_, by simp⟩, ofRect_tight hr⟩, hcovers⟩
  have hne : ¬(r.width ≤ 0 ∨ r.height ≤ 0) := fun hempty =>
    Bool.noConfusion (hr.symm.trans (IntRect.isEmpty_iff.2 hempty))
  simp only [IntRect.maxX, List.forall_mem_cons] at hmaxX ⊢
  refine ⟨?_, ?_, by simp⟩ <;> omega

theorem intersect_exact (h : self.Exact) (h' : region.Exact) :
    (self.intersect region).Exact ∧ ∀ p, (self.intersect region).covers p = (self.covers p && region.covers p) := by
  unfold intersect
  split_ifs with hempty hbounds
  · refine ⟨h, fun p => ?_⟩
    rw [covers_of_nil (h.isEmpty_iff.1 hempty)]
    rfl
  · obtain ⟨hcanonical, hcovers⟩ := shapeOperation_spec sound_intersectOperation h.canonical h'.canonical
    have hfits := shapeOperation_fits sound_intersectOperation h.canonical h'.canonical h.fits h'.fits
    exact ⟨⟨hcanonical, hfits, bounds_tight hcanonical hfits⟩, fun p => (hcovers p).trans (inside_intersect ..)⟩
  · refine ⟨exact_empty, fun p => (Bool.eq_false_iff.2 fun hp => hbounds ?_).symm⟩
    obtain ⟨hp, hp'⟩ := Bool.and_eq_true_iff.1 hp
    exact h.intersects_bounds h' hp hp'

theorem subtract_exact (h : self.Exact) (h' : region.Exact) :
    (self.subtract region).Exact ∧ ∀ p, (self.subtract region).covers p = (self.covers p && !region.covers p) := by
  unfold subtract
  split_ifs with hempty hempty' hbounds
  · refine ⟨h, fun p => ?_⟩
    rw [covers_of_nil (h.isEmpty_iff.1 hempty)]
    rfl
  · refine ⟨h, fun p => ?_⟩
    rw [covers_of_nil (h'.isEmpty_iff.1 hempty'), Bool.not_false, Bool.and_true]
  · obtain ⟨hcanonical, hcovers⟩ := shapeOperation_spec sound_subtractOperation h.canonical h'.canonical
    have hfits := shapeOperation_fits sound_subtractOperation h.canonical h'.canonical h.fits h'.fits
    exact ⟨⟨hcanonical, hfits, bounds_tight hcanonical hfits⟩, fun p => (hcovers p).trans (inside_subtract ..)⟩
  · refine ⟨h, fun p => ?_⟩
    cases hp : self.covers p with
    | false => rfl
    | true =>
      have hp' : region.covers p = false := Bool.eq_false_iff.2 fun hp' => hbounds (h.intersects_bounds h' hp hp')
      rw [hp', Bool.not_false, Bool.and_true]

theorem Exact.ne_nil (h : self.Exact) (hne : self.isEmpty = false) : self.m_shape ≠ [] := fun hnil =>
  Bool.noConfusion (hne.symm.trans (h.isEmpty_iff.2 hnil))

theorem unite_tight (h : self.Exact) (h' : region.Exact) (hne : region.isEmpty = false) {shape : Shape}
    (hcovers : ∀ p, shape.covers p = (self.covers p || region.covers p)) :
    Tight (self.m_bounds.unite region.m_bounds) shape := by
  have hright : ∀ {p : IntPoint}, region.covers p = true → shape.covers p = true := fun hp => by
    rw [hcovers, hp, Bool.or_true]
  have hleft : ∀ {p : IntPoint}, self.covers p = true → shape.covers p = true := fun hp => by
    rw [hcovers, hp, Bool.true_or]
  have hnil : shape ≠ [] := by
    rintro rfl
    obtain ⟨p, hp⟩ := h'.canonical.exists_covers (h'.ne_nil hne)
    cases hright hp
  have hbounds : region.m_bounds.isEmpty = false := hne
  obtain ⟨y₁, hleft'⟩ := h'.tight.left (h'.ne_nil hne)
  obtain ⟨y₂, hright'⟩ := h'.tight.right (h'.ne_nil hne)
  obtain ⟨x₁, htop'⟩ := h'.tight.top (h'.ne_nil hne)
  obtain ⟨x₂, hbottom'⟩ := h'.tight.bottom (h'.ne_nil hne)
  rw [IntRect.unite, hbounds, if_neg (by decide)]
  by_cases hself : self.m_bounds.isEmpty = true
  · rw [if_pos hself]
    refine ⟨fun p hp => h'.tight.covers p ?_, fun _ => ⟨y₁, hright hleft'⟩, fun _ => ⟨y₂, hright hright'⟩,
      fun _ => ⟨x₁, hright htop'⟩, fun _ => ⟨x₂, hright hbottom'⟩, fun h => absurd h hnil⟩
    rwa [hcovers, covers_of_nil (h.isEmpty_iff.1 hself), Bool.false_or] at hp
  · have hself' := h.ne_nil (Bool.eq_false_iff.2 hself)
    obtain ⟨y₃, hleft''⟩ := h.tight.left hself'
    obtain ⟨y₄, hright''⟩ := h.tight.right hself'
    obtain ⟨x₃, htop''⟩ := h.tight.top hself'
    obtain ⟨x₄, hbottom''⟩ := h.tight.bottom hself'
    have hmaxX : ∀ r r' : IntRect, (⟨min r.x r'.x, min r.y r'.y, max r.maxX r'.maxX - min r.x r'.x,
        max r.maxY r'.maxY - min r.y r'.y⟩ : IntRect).maxX = max r.maxX r'.maxX := fun r r' => by
      simp only [IntRect.maxX]
      omega
    have hmaxY : ∀ r r' : IntRect, (⟨min r.x r'.x, min r.y r'.y, max r.maxX r'.maxX - min r.x r'.x,
        max r.maxY r'.maxY - min r.y r'.y⟩ : IntRect).maxY = max r.maxY r'.maxY := fun r r' => by
      simp only [IntRect.maxY]
      omega
    rw [if_neg hself]
    refine ⟨fun p hp => ?_, fun _ => ?_, fun _ => ?_, fun _ => ?_, fun _ => ?_, fun h => absurd h hnil⟩
    · rw [IntRect.containsPoint_iff, hmaxX, hmaxY]
      rw [hcovers, Bool.or_eq_true] at hp
      rcases hp with hp | hp
      · have hin := IntRect.containsPoint_iff.1 (h.tight.covers p hp)
        simp only
        omega
      · have hin := IntRect.containsPoint_iff.1 (h'.tight.covers p hp)
        simp only
        omega
    · rcases min_choice self.m_bounds.x region.m_bounds.x with heq | heq <;> simp only [heq]
      exacts [⟨y₃, hleft hleft''⟩, ⟨y₁, hright hleft'⟩]
    · rw [hmaxX]
      rcases max_choice self.m_bounds.maxX region.m_bounds.maxX with heq | heq <;> rw [heq]
      exacts [⟨y₄, hleft hright''⟩, ⟨y₂, hright hright'⟩]
    · rcases min_choice self.m_bounds.y region.m_bounds.y with heq | heq <;> simp only [heq]
      exacts [⟨x₃, hleft htop''⟩, ⟨x₁, hright htop'⟩]
    · rw [hmaxY]
      rcases max_choice self.m_bounds.maxY region.m_bounds.maxY with heq | heq <;> rw [heq]
      exacts [⟨x₄, hleft hbottom''⟩, ⟨x₂, hright hbottom'⟩]

theorem unite_exact (h : self.Exact) (h' : region.Exact) :
    (self.unite region).Exact ∧ ∀ p, (self.unite region).covers p = (self.covers p || region.covers p) := by
  have habsorb : ∀ {r r' : Region}, (∀ p, r'.covers p = true → r.covers p = true) →
      ∀ p, r.covers p = (r.covers p || r'.covers p) := by
    intro r r' hsubset p
    cases hp : r'.covers p with
    | false => rw [Bool.or_false]
    | true => rw [hsubset p hp, Bool.or_true]
  unfold unite
  split_ifs with hempty hrect hrect' hcontains
  · exact ⟨h, habsorb fun p hp => Bool.noConfusion ((h'.isEmpty_eq_false hp).symm.trans hempty)⟩
  · obtain ⟨hrect, hbounds⟩ := Bool.and_eq_true_iff.1 hrect
    have hne : self.m_shape ≠ [] := fun hnil => by
      have hsize := h.tight.empty hnil
      have hin := IntRect.contains_iff.1 hbounds
      rw [isEmpty, IntRect.isEmpty_iff] at hempty
      simp only [IntRect.maxX, IntRect.maxY] at hin
      omega
    refine ⟨h, habsorb fun p hp => h.covers_of_isRect hrect hne ?_⟩
    exact containsPoint_of_contains hbounds (h'.tight.covers p hp)
  · obtain ⟨hrect, hbounds⟩ := Bool.and_eq_true_iff.1 hrect'
    refine ⟨h', fun p => ?_⟩
    rw [Bool.or_comm]
    refine habsorb (fun p hp => h'.covers_of_isRect hrect (h'.ne_nil (Bool.eq_false_iff.2 hempty)) ?_) p
    exact containsPoint_of_contains hbounds (h.tight.covers p hp)
  · obtain ⟨-, hcontains⟩ := Bool.and_eq_true_iff.1 hcontains
    exact ⟨h, habsorb ((h.contains_iff h' (Bool.eq_false_iff.2 hempty)).1 hcontains)⟩
  · obtain ⟨hcanonical, hcovers⟩ := shapeOperation_spec sound_unionOperation h.canonical h'.canonical
    have hfits := shapeOperation_fits sound_unionOperation h.canonical h'.canonical h.fits h'.fits
    have hunion : ∀ p, (self.m_shape.unionShapes region.m_shape).covers p = (self.covers p || region.covers p) :=
      fun p => (hcovers p).trans (inside_union ..)
    exact ⟨⟨hcanonical, hfits, unite_tight h h' (Bool.eq_false_iff.2 hempty) hunion⟩, hunion⟩

theorem translate_exact (h : self.Exact) (offset : IntSize) (hfits : (self.translate offset).m_shape.Fits) :
    (self.translate offset).Exact ∧
      ∀ p : IntPoint, (self.translate offset).covers ⟨p.x + offset.width, p.y + offset.height⟩ = self.covers p := by
  obtain ⟨hcanonical, hcovers⟩ := translate_spec h.canonical offset
  have hpoint : ∀ p : IntPoint, (self.m_shape.translate offset).covers p =
      self.covers ⟨p.x - offset.width, p.y - offset.height⟩ := fun p => by
    rw [covers, ← hcovers ⟨p.x - offset.width, p.y - offset.height⟩]
    simp only [Int.sub_add_cancel]
  have hnil : ∀ hne : self.m_shape.translate offset ≠ [], self.m_shape ≠ [] := fun hne hnil => hne (by rw [hnil]; rfl)
  refine ⟨⟨hcanonical, hfits, ?_⟩, hcovers⟩
  show Tight (self.m_bounds.move offset) (self.m_shape.translate offset)
  refine ⟨fun p hp => ?_, fun hne => ?_, fun hne => ?_, fun hne => ?_, fun hne => ?_, fun hnil => ?_⟩
  · rw [hpoint] at hp
    have hin := IntRect.containsPoint_iff.1 (h.tight.covers _ hp)
    rw [IntRect.containsPoint_iff]
    simp only [IntRect.move, IntRect.maxX, IntRect.maxY] at hin ⊢
    omega
  · obtain ⟨y, hy⟩ := h.tight.left (hnil hne)
    exact ⟨y + offset.height, (hcovers ⟨_, y⟩).trans hy⟩
  · obtain ⟨y, hy⟩ := h.tight.right (hnil hne)
    refine ⟨y + offset.height, ?_⟩
    rw [← hcovers] at hy
    convert hy using 3
    simp only [IntRect.move, IntRect.maxX]
    omega
  · obtain ⟨x, hx⟩ := h.tight.top (hnil hne)
    exact ⟨x + offset.width, (hcovers ⟨x, _⟩).trans hx⟩
  · obtain ⟨x, hx⟩ := h.tight.bottom (hnil hne)
    refine ⟨x + offset.width, ?_⟩
    rw [← hcovers] at hx
    convert hx using 3
    simp only [IntRect.move, IntRect.maxY]
    omega
  · exact h.tight.empty (List.map_eq_nil_iff.1 hnil)

end Region

end WebKit.WebCore
