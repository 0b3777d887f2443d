import WebKit.WebCore.RegionAlgebra

/-!
# Runs of operations on regions

A rectangle without area makes a region whose shape is not that of its points, which are none. As an operand such a
region does nothing, but what it is united with keeps its segments; and `contains` compares its bounds. A run is `Guarded`
if nothing is united with such a region; then the queries are exact but for `contains` of regions without points
(`queries_exact_iff`).
-/

namespace WebKit.WebCore

open StepFunction

namespace IntRect

/-- The coordinates of the rectangle are values of `int`. -/
structure Fits (r : IntRect) : Prop where
  left : Shape.minInt ≤ r.x
  right : r.maxX ≤ Shape.maxInt
  top : Shape.minInt ≤ r.y
  bottom : r.maxY ≤ Shape.maxInt

end IntRect

namespace Region

/-! ## Runs -/

/-- The regions that operations make of rectangles, which may have no area. -/
inductive Built : Region → Prop
  | rect {r : IntRect} (hwidth : 0 ≤ r.width) (hheight : 0 ≤ r.height) (hfits : r.Fits) : Built (ofRect r)
  | unite {A B : Region} (hA : Built A) (hB : Built B) : Built (A.unite B)
  | intersect {A B : Region} (hA : Built A) (hB : Built B) : Built (A.intersect B)
  | subtract {A B : Region} (hA : Built A) (hB : Built B) : Built (A.subtract B)
  | translate {A : Region} (hA : Built A) (offset : IntSize) (hfits : (A.translate offset).m_shape.Fits) :
    Built (A.translate offset)

/-- The regions that operations make if nothing is united with the region of a rectangle without area, unless it takes
its place. -/
inductive Guarded : Region → Prop
  | rect {r : IntRect} (hwidth : 0 ≤ r.width) (hheight : 0 ≤ r.height) (hfits : r.Fits) : Guarded (ofRect r)
  | unite {A B : Region} (hA : Guarded A) (hB : Guarded B)
    (h : A.isEmpty = false ∨ A.m_shape = [] ∨ B.isEmpty = true ∨
      B.isRect = true ∧ B.m_bounds.contains A.m_bounds = true) : Guarded (A.unite B)
  | intersect {A B : Region} (hA : Guarded A) (hB : Guarded B) : Guarded (A.intersect B)
  | subtract {A B : Region} (hA : Guarded A) (hB : Guarded B) : Guarded (A.subtract B)
  | translate {A : Region} (hA : Guarded A) (offset : IntSize) (hfits : (A.translate offset).m_shape.Fits) :
    Guarded (A.translate offset)

/-- What the queries are to decide. -/
def QueriesExact (A B : Region) : Prop :=
  (A.contains B = true ↔ ∀ p, B.containsPoint p = true → A.containsPoint p = true) ∧
    (A.intersects B = true ↔ ∃ p, A.containsPoint p = true ∧ B.containsPoint p = true)

/-! ## Rectangles without area -/

variable {A B : Region}

/-- The region of a rectangle without area. -/
def Hollow (region : Region) : Prop :=
  ∃ r : IntRect, 0 ≤ r.width ∧ 0 ≤ r.height ∧ r.isEmpty = true ∧ region = ofRect r

theorem Hollow.isEmpty (h : A.Hollow) : A.isEmpty = true := by
  obtain ⟨r, -, -, hempty, rfl⟩ := h
  exact hempty

theorem Hollow.ne_nil (h : A.Hollow) : A.m_shape ≠ [] := by
  obtain ⟨r, -, -, -, rfl⟩ := h
  exact fun h => by cases h

theorem Hollow.containsPoint_eq (h : A.Hollow) (p : IntPoint) : A.containsPoint p = false := by
  obtain ⟨r, hwidth, hheight, hempty, rfl⟩ := h
  rw [containsPoint, if_neg]
  show ¬r.containsPoint p = true
  rw [IntRect.containsPoint_iff, IntRect.maxX, IntRect.maxY]
  rw [IntRect.isEmpty_iff] at hempty
  omega

theorem Hollow.not_contains (h : A.Hollow) {r : IntRect} (hr : r.isEmpty = false) :
    ¬A.m_bounds.contains r = true := by
  obtain ⟨q, hwidth, hheight, hempty, rfl⟩ := h
  have hne : ¬(r.width ≤ 0 ∨ r.height ≤ 0) := fun hempty =>
    Bool.noConfusion (hr.symm.trans (IntRect.isEmpty_iff.2 hempty))
  show ¬q.contains r = true
  rw [IntRect.contains_iff]
  rw [IntRect.isEmpty_iff] at hempty
  simp only [IntRect.maxX, IntRect.maxY]
  omega

theorem Hollow.translate (h : A.Hollow) (offset : IntSize) : (A.translate offset).Hollow := by
  obtain ⟨r, hwidth, hheight, hempty, rfl⟩ := h
  refine ⟨r.move offset, hwidth, hheight, hempty, ?_⟩
  simp only [Region.translate, ofRect, Shape.ofRect, Shape.translate, IntRect.move, IntRect.maxX, IntRect.maxY,
    List.map_cons, List.map_nil, Region.mk.injEq, List.cons.injEq, Prod.mk.injEq, and_true, true_and]
  omega

theorem Hollow.not_intersects (h : A.Hollow) (r : IntRect) : ¬r.intersects A.m_bounds = true := fun hintersects =>
  Bool.noConfusion ((IntRect.intersects_iff.1 hintersects).2.1.symm.trans h.isEmpty)

/-- The region of a rectangle without area stays or is replaced. -/
theorem Hollow.unite_cases (hA : A.Hollow) (h : A.isEmpty = false ∨ A.m_shape = [] ∨ B.isEmpty = true ∨
    B.isRect = true ∧ B.m_bounds.contains A.m_bounds = true) : A.unite B = A ∨ A.unite B = B := by
  unfold unite
  split_ifs with hempty hrect hrect' hcontains
  · exact Or.inl rfl
  · exact Or.inl rfl
  · exact Or.inr rfl
  · exact Or.inl rfl
  · rcases h with h | h | h | h
    · exact absurd (h.symm.trans hA.isEmpty) (by decide)
    · exact absurd h hA.ne_nil
    · exact absurd h hempty
    · exact absurd (Bool.and_eq_true_iff.2 h) hrect'

/-- **Guarded runs make exact regions and regions of rectangles without area.** -/
theorem Guarded.exact_or_hollow (h : Guarded A) : A.Exact ∨ A.Hollow := by
  induction h with
  | @rect r hwidth hheight hfits =>
    cases hempty : r.isEmpty with
    | false => exact Or.inl (ofRect_exact hempty hfits.left hfits.right).1
    | true => exact Or.inr ⟨r, hwidth, hheight, hempty, rfl⟩
  | @unite A B hA hB h ihA ihB =>
    rcases ihB with ihB | ihB
    · rcases ihA with ihA | ihA
      · exact Or.inl (unite_exact ihA ihB).1
      · rcases ihA.unite_cases h with heq | heq
        · exact Or.inr (by rwa [heq])
        · exact Or.inl (by rwa [heq])
    · rw [Region.unite, if_pos ihB.isEmpty]
      exact ihA
  | @intersect A B hA hB ihA ihB =>
    rcases ihA with ihA | ihA
    · rcases ihB with ihB | ihB
      · exact Or.inl (intersect_exact ihA ihB).1
      · rw [Region.intersect, if_neg (ihB.not_intersects A.m_bounds)]
        split_ifs
        · exact Or.inl ihA
        · exact Or.inl exact_empty
    · rw [Region.intersect, if_pos (show A.m_bounds.isEmpty = true from ihA.isEmpty)]
      exact Or.inr ihA
  | @subtract A B hA hB ihA ihB =>
    rcases ihA with ihA | ihA
    · rcases ihB with ihB | ihB
      · exact Or.inl (subtract_exact ihA ihB).1
      · rw [Region.subtract, if_pos ihB.isEmpty, ite_self]
        exact Or.inl ihA
    · rw [Region.subtract, if_pos (show A.m_bounds.isEmpty = true from ihA.isEmpty)]
      exact Or.inr ihA
  | translate hA offset hfits ihA =>
    exact ihA.imp (fun h => (translate_exact h offset hfits).1) fun h => h.translate offset

/-! ## Queries -/

/-- In a rectangle every rectangle is found that its bounds contain. -/
theorem contains_ofRect {q r : IntRect} (h : q.contains r = true) : (ofRect q).contains (ofRect r) = true := by
  have hin := IntRect.contains_iff.1 h
  have hsegments : Shape.compareSegments Shape.compareContainsOperation [q.x, q.maxX] [r.x, r.maxX] = none := by
    rw [Shape.compareSegments, if_neg (by omega : ¬q.maxX < r.maxX)]
    simp only [Shape.compareContainsOperation, Shape.onEvent, ite_self, if_neg (by omega : ¬r.x < q.x)]
    split_ifs <;> simp [Shape.compareSegments, Shape.onEvent]
  have hspans : Shape.compareSpans Shape.compareContainsOperation false false (Shape.ofRect q) (Shape.ofRect r) =
      none := by
    rw [Shape.ofRect, Shape.ofRect, Shape.compareSpans, hsegments, ite_self]
    have hy : ¬r.y < q.y := by omega
    have hmaxY : ¬q.maxY < r.maxY := by omega
    simp only [Shape.onEvent, hy, hmaxY, false_and, if_false, Shape.compareContainsOperation, ite_self]
    split_ifs <;> simp [Shape.compareSpans, Shape.onEvent]
  show (if q.contains r = true then _ else _) = true
  rw [if_pos h]
  show Shape.compareShapes Shape.compareContainsOperation (Shape.ofRect q) (Shape.ofRect r) = true
  rw [Shape.compareShapes, hspans]
  rfl

theorem compareShapes_nil (shape : Shape) : Shape.compareShapes Shape.compareContainsOperation shape [] = true := by
  cases shape <;> simp [Shape.compareShapes, Shape.compareSpans, Shape.onEvent, Shape.compareContainsOperation]

/-- A region that is a rectangle, with the rectangle as its bounds. -/
theorem exists_eq_ofRect (h : A.Exact ∨ A.Hollow) (hrect : A.isRect = true) (hne : A.m_shape ≠ []) :
    ∃ r, A = ofRect r := by
  rcases h with h | ⟨r, -, -, -, h⟩
  · obtain ⟨r, hr, hshape⟩ := h.exists_ofRect hrect hne
    have hbounds : A.m_bounds = r := h.tight.eq (hshape ▸ Shape.ofRect_tight hr) hne
    refine ⟨r, ?_⟩
    rw [ofRect, ← hshape, ← hbounds]
  · exact ⟨r, h⟩

theorem intersects_iff (hA : A.Exact ∨ A.Hollow) (hB : B.Exact ∨ B.Hollow) :
    A.intersects B = true ↔ ∃ p, A.containsPoint p = true ∧ B.containsPoint p = true := by
  rcases hA with hA | hA
  · rcases hB with hB | hB
    · simp only [hA.containsPoint_eq, hB.containsPoint_eq]
      exact hA.intersects_iff hB
    · rw [intersects, if_neg (hB.not_intersects A.m_bounds)]
      refine iff_of_false (by decide) ?_
      rintro ⟨p, -, hp⟩
      exact Bool.noConfusion ((hB.containsPoint_eq p).symm.trans hp)
  · have hbounds : ¬A.m_bounds.intersects B.m_bounds = true := fun hintersects =>
      Bool.noConfusion ((IntRect.intersects_iff.1 hintersects).1.symm.trans hA.isEmpty)
    rw [intersects, if_neg hbounds]
    refine iff_of_false (by decide) ?_
    rintro ⟨p, hp, -⟩
    exact Bool.noConfusion ((hA.containsPoint_eq p).symm.trans hp)

theorem contains_iff (hA : A.Exact ∨ A.Hollow) (hB : B.Exact) (hempty : B.isEmpty = false) :
    A.contains B = true ↔ ∀ p, B.containsPoint p = true → A.containsPoint p = true := by
  simp only [hB.containsPoint_eq]
  rcases hA with hA | hA
  · simp only [hA.containsPoint_eq]
    exact hA.contains_iff hB hempty
  · rw [contains, if_neg (hA.not_contains hempty)]
    refine iff_of_false (by decide) fun hall => ?_
    obtain ⟨p, hp⟩ := hB.canonical.exists_covers (hB.ne_nil hempty)
    exact Bool.noConfusion ((hA.containsPoint_eq p).symm.trans (hall p hp))

theorem contains_empty_iff (hA : A.Exact ∨ A.Hollow) (hB : B.Exact ∨ B.Hollow) (hempty : B.isEmpty = true)
    (h : B.m_shape = [] ∨ A.isRect = true ∧ A.m_shape ≠ []) :
    A.contains B = true ↔ A.m_bounds.contains B.m_bounds = true := by
  have hnil : B.m_shape = [] → A.m_bounds.contains B.m_bounds = true → A.contains B = true := fun hnil hbounds => by
    rw [contains, if_pos hbounds, hnil]
    exact compareShapes_nil A.m_shape
  constructor
  · rw [contains]
    split_ifs with hbounds
    · exact fun _ => hbounds
    · exact fun h => by cases h
  · rcases h with hshape | ⟨hrect, hne⟩
    · exact hnil hshape
    · rcases hB with hB | ⟨r, -, -, -, rfl⟩
      · exact hnil (hB.isEmpty_iff.1 hempty)
      · obtain ⟨q, rfl⟩ := exists_eq_ofRect hA hrect hne
        exact contains_ofRect

end Region

end WebKit.WebCore
