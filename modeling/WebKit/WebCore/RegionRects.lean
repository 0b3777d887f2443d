import WebKit.WebCore.RegionRuns

/-!
# The set algebra of regions

`rects` lists disjoint rectangles that are not empty, with the points of the shape (`rects_spec`). Regions that are made
of rectangles with an area are sets of points (`Exact.isPointSet`): the operations are those on sets, the bounds are the
least ones, and regions with the same points are equal (`region_algebra`). Only `translate` moves the bounds of a region
without points, which is then no longer equal to others (`translate_empty`).
-/

namespace WebKit.WebCore

open StepFunction

namespace Shape

/-- Rectangles that are not empty and disjoint, and their points. -/
structure Tiles (rects : List IntRect) (points : IntPoint → Prop) : Prop where
  nonempty : ∀ r ∈ rects, r.isEmpty = false
  disjoint : rects.Pairwise fun r r' => ∀ p, ¬(r.containsPoint p = true ∧ r'.containsPoint p = true)
  points_iff : ∀ p, (∃ r ∈ rects, r.containsPoint p = true) ↔ points p

theorem Tiles.append {rects rects' : List IntRect} {points points' : IntPoint → Prop} (h : Tiles rects points)
    (h' : Tiles rects' points') (hdisjoint : ∀ p, ¬(points p ∧ points' p)) :
    Tiles (rects ++ rects') fun p => points p ∨ points' p := by
  refine ⟨fun r hr => (List.mem_append.1 hr).elim (h.nonempty r) (h'.nonempty r), ?_, fun p => ?_⟩
  · refine List.pairwise_append.2 ⟨h.disjoint, h'.disjoint, fun r hr r' hr' p hp => hdisjoint p ⟨?_, ?_⟩⟩
    · exact (h.points_iff p).1 ⟨r, hr, hp.1⟩
    · exact (h'.points_iff p).1 ⟨r', hr', hp.2⟩
  · simp only [List.mem_append, or_and_right, exists_or, h.points_iff, h'.points_iff]

theorem Tiles.of_iff {rects : List IntRect} {points points' : IntPoint → Prop} (h : Tiles rects points)
    (hiff : ∀ p, points p ↔ points' p) : Tiles rects points' :=
  ⟨h.nonempty, h.disjoint, fun p => (h.points_iff p).trans (hiff p)⟩

theorem tiles_nil {points : IntPoint → Prop} (h : ∀ p, ¬points p) : Tiles [] points :=
  ⟨by simp, .nil, fun p => by simp [h p]⟩

/-- One rectangle. -/
theorem tiles_singleton {r : IntRect} (hwidth : 0 < r.width) (hheight : 0 < r.height) :
    Tiles [r] fun p => r.containsPoint p = true := by
  refine ⟨?_, List.pairwise_singleton .., fun p => by simp⟩
  simp [IntRect.isEmpty, hwidth, hheight]

/-- The rectangles of a row. -/
theorem segmentRects_spec (y : Int) {height : Int} (hheight : 0 < height) {s : List Int} (h : Boundary s) :
    Tiles (segmentRects y height s) fun p => y ≤ p.y ∧ p.y < y + height ∧ StepFunction.covers s p.x = true := by
  refine Boundary.induction (motive := fun s => Tiles (segmentRects y height s) fun p =>
    y ≤ p.y ∧ p.y < y + height ∧ StepFunction.covers s p.x = true) ?_ ?_ h
  · exact tiles_nil fun p hp => by cases hp.2.2
  · intro a b s hab hb hs ih
    have hboundary : Boundary (a :: b :: s) := boundary_cons_cons.2 ⟨hab, hb, hs⟩
    have hfirst : Tiles [⟨a, y, b - a, height⟩] fun p => (⟨a, y, b - a, height⟩ : IntRect).containsPoint p = true :=
      tiles_singleton (by simp only; omega) hheight
    simp only [IntRect.containsPoint_iff, IntRect.maxX, IntRect.maxY, show a + (b - a) = b by omega] at hfirst
    refine (hfirst.append ih fun p hp => ?_).of_iff fun p => ?_
    · rw [covers_rest hboundary hp.1.2.1.le] at hp
      cases hp.2.2.2
    · rw [covers_interval hboundary]
      tauto

/-- **The rectangles of a shape.** -/
theorem rects_spec {d : List Int} {shape : Shape} (h : Rest d shape) :
    Tiles shape.rects fun p => shape.covers p = true := by
  induction shape generalizing d with
  | nil => exact tiles_nil fun p hp => by cases hp
  | cons span spans ih =>
    cases spans with
    | nil =>
      refine tiles_nil fun p hp => ?_
      have hfinal : span.2 = [] := h.final
      rw [covers, show stepAt [] [span] p.y = if p.y < span.1 then [] else span.2 from rfl, hfinal, ite_self] at hp
      cases hp
    | cons next spans =>
      have hlt := h.lt
      have hheight : 0 < next.1 - span.1 := by omega
      have hrow := segmentRects_spec span.1 hheight (h.rows span (List.mem_cons_self ..))
      have hbelow : ∀ p : IntPoint, p.y < next.1 → covers (next :: spans) p = false := fun p hp => by
        rw [covers, show stepAt [] (next :: spans) p.y = [] from if_pos hp]
        rfl
      refine (hrow.append (ih h.tail) fun p hp => ?_).of_iff fun p => ?_
      · rw [hbelow p (by omega)] at hp
        cases hp.2
      · rw [show span.1 + (next.1 - span.1) = next.1 by omega]
        rcases lt_or_ge p.y span.1 with hy | hy
        · rw [hbelow p (hy.trans hlt), covers, show stepAt [] (span :: next :: spans) p.y = [] from if_pos hy]
          simp [StepFunction.covers, toggles, stepAt, hy.not_ge]
        · rw [covers, covers, stepAt_two hy]
          split_ifs with hnext
          · rw [show stepAt [] (next :: spans) p.y = [] from if_pos hnext]
            simp [StepFunction.covers, toggles, stepAt, hy, hnext]
          · simp [hnext]

end Shape

namespace Region

/-! ## Runs -/

/-- The regions that operations make of rectangles with an area, if they translate regions only as they may. -/
inductive Made (MayTranslate : Region → IntSize → Prop) : Region → Prop
  | empty : Made MayTranslate {}
  | rect {r : IntRect} (hempty : r.isEmpty = false) (hfits : r.Fits) : Made MayTranslate (ofRect r)
  | unite {A B : Region} (hA : Made MayTranslate A) (hB : Made MayTranslate B) : Made MayTranslate (A.unite B)
  | intersect {A B : Region} (hA : Made MayTranslate A) (hB : Made MayTranslate B) : Made MayTranslate (A.intersect B)
  | subtract {A B : Region} (hA : Made MayTranslate A) (hB : Made MayTranslate B) : Made MayTranslate (A.subtract B)
  | translate {A : Region} (hA : Made MayTranslate A) (offset : IntSize) (hmay : MayTranslate A offset)
    (hfits : (A.translate offset).m_shape.Fits) : Made MayTranslate (A.translate offset)

/-- All runs. -/
def Always (_ : Region) (_ : IntSize) : Prop := True

/-- A region without points is not moved. -/
def KeepsEmpty (region : Region) (offset : IntSize) : Prop := region.isEmpty = false ∨ offset = ⟨0, 0⟩

/-- The bounds of a region without points are those of the empty region. -/
def Settled (region : Region) : Prop := region.m_shape = [] → region.m_bounds = {}

structure IsPointSet (region : Region) : Prop where
  rects : Shape.Tiles region.rects fun p => region.containsPoint p = true
  isEmpty : region.isEmpty = true ↔ ∀ p, region.containsPoint p = false
  bounds : ∀ p, region.containsPoint p = true → region.m_bounds.containsPoint p = true
  least : region.isEmpty = false →
    ∀ r : IntRect, (∀ p, region.containsPoint p = true → r.containsPoint p = true) → r.contains region.m_bounds = true

/-- What the operations are on sets of points, and that regions are equal if their points are. -/
structure OperationsExact (A B : Region) : Prop where
  empty : ∀ p, ({} : Region).containsPoint p = false
  rect : ∀ r : IntRect, r.isEmpty = false → r.Fits → ∀ p, (ofRect r).containsPoint p = r.containsPoint p
  unite : ∀ p, (A.unite B).containsPoint p = (A.containsPoint p || B.containsPoint p)
  intersect : ∀ p, (A.intersect B).containsPoint p = (A.containsPoint p && B.containsPoint p)
  subtract : ∀ p, (A.subtract B).containsPoint p = (A.containsPoint p && !B.containsPoint p)
  translate : ∀ offset : IntSize, (A.translate offset).m_shape.Fits → ∀ p : IntPoint,
    (A.translate offset).containsPoint ⟨p.x + offset.width, p.y + offset.height⟩ = A.containsPoint p
  shape : (∀ p, A.containsPoint p = B.containsPoint p) → A.m_shape = B.m_shape
  eq : (∀ p, A.containsPoint p = B.containsPoint p) → A = B

variable {A B : Region} {MayTranslate : Region → IntSize → Prop}

/-- **The regions of all runs are exact.** -/
theorem Made.exact (h : Made MayTranslate A) : A.Exact := by
  induction h with
  | empty => exact exact_empty
  | rect hempty hfits => exact (ofRect_exact hempty hfits.left hfits.right).1
  | unite hA hB ihA ihB => exact (unite_exact ihA ihB).1
  | intersect hA hB ihA ihB => exact (intersect_exact ihA ihB).1
  | subtract hA hB ihA ihB => exact (subtract_exact ihA ihB).1
  | translate hA offset hmay hfits ihA => exact (translate_exact ihA offset hfits).1

theorem settled_of_bounds (shape : Shape) : Settled ⟨shape.bounds, shape⟩ := by
  intro (hnil : shape = [])
  rw [hnil]
  rfl

theorem settled_of_isEmpty (hA : A.Exact) (h : A.isEmpty = false) : A.Settled := fun hnil => absurd hnil (hA.ne_nil h)

theorem Settled.unite (hA : A.Exact) (hB : B.Exact) (h : A.Settled) (h' : B.Settled) : (A.unite B).Settled := by
  have hcovers := (unite_exact hA hB).2
  unfold Region.unite at hcovers ⊢
  split_ifs at hcovers ⊢ with hempty hrect hrect' hcontains
  · exact h
  · exact h
  · exact h'
  · exact h
  · intro hnil
    obtain ⟨p, hp⟩ := hB.canonical.exists_covers (hB.ne_nil (Bool.eq_false_iff.2 hempty))
    have hunion := (covers_of_nil hnil p).symm.trans (hcovers p)
    rw [show B.covers p = true from hp, Bool.or_true] at hunion
    cases hunion

theorem Settled.intersect (h : A.Settled) : (A.intersect B).Settled := by
  unfold Region.intersect
  split_ifs
  · exact h
  · exact settled_of_bounds _
  · exact fun _ => rfl

theorem Settled.subtract (h : A.Settled) : (A.subtract B).Settled := by
  unfold Region.subtract
  split_ifs
  · exact h
  · exact h
  · exact settled_of_bounds _
  · exact h

theorem translate_zero (A : Region) : A.translate ⟨0, 0⟩ = A := by
  simp [Region.translate, IntRect.move, Shape.translate]

/-- **Runs that move no region without points keep the bounds of regions without points.** -/
theorem Made.settled (h : Made KeepsEmpty A) : A.Settled := by
  induction h with
  | empty => exact fun _ => rfl
  | rect hempty hfits => exact settled_of_isEmpty (Made.rect hempty hfits : Made KeepsEmpty _).exact hempty
  | unite hA hB ihA ihB => exact ihA.unite hA.exact hB.exact ihB
  | intersect hA hB ihA ihB => exact ihA.intersect
  | subtract hA hB ihA ihB => exact ihA.subtract
  | @translate A hA offset hmay hfits ihA =>
    rcases hmay with hmay | rfl
    · exact fun hnil => absurd (List.map_eq_nil_iff.1 hnil) (hA.exact.ne_nil hmay)
    · rwa [translate_zero]

/-! ## The set algebra -/

theorem Exact.isPointSet (h : A.Exact) : A.IsPointSet := by
  constructor <;> simp only [h.containsPoint_eq]
  · exact Shape.rects_spec h.canonical.rest
  · refine h.isEmpty_iff.trans ⟨fun hnil => covers_of_nil hnil, fun hnone => ?_⟩
    by_contra hne
    obtain ⟨p, hp⟩ := h.canonical.exists_covers hne
    exact Bool.noConfusion (hp.symm.trans (hnone p))
  · exact h.tight.covers
  · exact fun hne r hr => h.contains_bounds (h.ne_nil hne) hr

theorem Exact.shape_eq (hA : A.Exact) (hB : B.Exact) (h : ∀ p, A.containsPoint p = B.containsPoint p) :
    A.m_shape = B.m_shape :=
  hA.canonical.eq_of_covers hB.canonical fun p => by
    have hp := h p
    rwa [hA.containsPoint_eq, hB.containsPoint_eq] at hp

theorem Exact.eq_of_settled (hA : A.Exact) (hB : B.Exact) (hA' : A.Settled) (hB' : B.Settled)
    (h : ∀ p, A.containsPoint p = B.containsPoint p) : A = B := by
  have hshape := hA.shape_eq hB h
  have hbounds : A.m_bounds = B.m_bounds := by
    by_cases hnil : A.m_shape = []
    · rw [hA' hnil, hB' (hshape ▸ hnil)]
    · exact hA.tight.eq (hshape ▸ hB.tight) hnil
  cases A
  cases B
  cases hshape
  cases hbounds
  rfl

/-- **Regions are an algebra of sets of points**, in runs that move no region without points. -/
theorem region_algebra (hA : Made KeepsEmpty A) (hB : Made KeepsEmpty B) : A.IsPointSet ∧ OperationsExact A B := by
  have hA' := hA.exact
  have hB' := hB.exact
  have hunite := unite_exact hA' hB'
  have hintersect := intersect_exact hA' hB'
  have hsubtract := subtract_exact hA' hB'
  refine ⟨hA'.isPointSet, fun p => ?_, fun r hr hfits p => ?_, fun p => ?_, fun p => ?_, fun p => ?_,
    fun offset hfits p => ?_, hA'.shape_eq hB', hA'.eq_of_settled hB' hA.settled hB.settled⟩
  · rw [exact_empty.containsPoint_eq, covers_of_nil rfl]
  · have hrect := ofRect_exact hr hfits.left hfits.right
    rw [hrect.1.containsPoint_eq, hrect.2]
  · rw [hunite.1.containsPoint_eq, hunite.2, hA'.containsPoint_eq, hB'.containsPoint_eq]
  · rw [hintersect.1.containsPoint_eq, hintersect.2, hA'.containsPoint_eq, hB'.containsPoint_eq]
  · rw [hsubtract.1.containsPoint_eq, hsubtract.2, hA'.containsPoint_eq, hB'.containsPoint_eq]
  · have htranslate := translate_exact hA' offset hfits
    rw [htranslate.1.containsPoint_eq, htranslate.2, hA'.containsPoint_eq]

/-- A square without its middle, and a part of it. -/
theorem region_algebra_frame :
    ((ofRect ⟨0, 0, 3, 3⟩).subtract (ofRect ⟨1, 1, 1, 1⟩)).IsPointSet ∧
      OperationsExact ((ofRect ⟨0, 0, 3, 3⟩).subtract (ofRect ⟨1, 1, 1, 1⟩)) (ofRect ⟨1, 1, 1, 1⟩) := by
  have hsquare : Made KeepsEmpty (ofRect ⟨0, 0, 3, 3⟩) := .rect rfl ⟨by decide, by decide, by decide, by decide⟩
  have hmiddle : Made KeepsEmpty (ofRect ⟨1, 1, 1, 1⟩) := .rect rfl ⟨by decide, by decide, by decide, by decide⟩
  exact region_algebra (.subtract hsquare hmiddle) hmiddle

/-- **The empty region that is moved has no points, but is not the empty region.** -/
theorem translate_empty : ¬∀ A B, Made Always A → Made Always B → A.IsPointSet ∧ OperationsExact A B := by
  intro h
  have hmoved : Made Always (Region.translate {} ⟨1, 0⟩) :=
    .translate .empty ⟨1, 0⟩ trivial (by simp [Region.translate, Shape.translate, Shape.Fits])
  have hpoints : ∀ p, (Region.translate {} ⟨1, 0⟩).containsPoint p = ({} : Region).containsPoint p := fun p => by
    rw [hmoved.exact.containsPoint_eq, exact_empty.containsPoint_eq, covers_of_nil rfl, covers_of_nil rfl]
  exact absurd ((h _ _ hmoved .empty).2.eq hpoints) (by decide)

end Region

end WebKit.WebCore
