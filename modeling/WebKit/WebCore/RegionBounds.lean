import WebKit.WebCore.RegionShapes

/-!
# Points and bounds of shapes

On a canonical shape `contains(const IntPoint&)` decides the points (`containsPoint_eq`) and `bounds` is tight: every
side of the rectangle has a point of the shape (`bounds_tight`). `boundsLoop_spec` says what the loop has found when it
has passed some spans.
-/

namespace WebKit.WebCore

open StepFunction

namespace IntRect

variable {r other : IntRect} {p : IntPoint}

theorem isEmpty_iff : r.isEmpty = true ↔ r.width ≤ 0 ∨ r.height ≤ 0 := by simp [isEmpty]

theorem contains_iff :
    r.contains other = true ↔ r.x ≤ other.x ∧ other.maxX ≤ r.maxX ∧ r.y ≤ other.y ∧ other.maxY ≤ r.maxY := by
  simp [contains, and_assoc]

theorem containsPoint_iff : r.containsPoint p = true ↔ r.x ≤ p.x ∧ p.x < r.maxX ∧ r.y ≤ p.y ∧ p.y < r.maxY := by
  simp [containsPoint, and_assoc]

theorem intersects_iff : r.intersects other = true ↔ r.isEmpty = false ∧ other.isEmpty = false ∧
    r.x < other.maxX ∧ other.x < r.maxX ∧ r.y < other.maxY ∧ other.y < r.maxY := by
  simp [intersects, and_assoc]

end IntRect

namespace Shape

theorem segmentsContain_eq {s : List Int} (h : Boundary s) (x : Int) : segmentsContain x s = StepFunction.covers s x :=
  Boundary.induction (motive := fun s => segmentsContain x s = StepFunction.covers s x) rfl
    (fun a b s _ _ _ ih => by simp only [segmentsContain, covers_cons_cons, ih]) h

/-- **`contains(const IntPoint&)` decides the points.** -/
theorem containsPoint_eq {shape : Shape} (hfinal : finalValue [] shape = []) (hrows : ∀ span ∈ shape, Boundary span.2)
    (p : IntPoint) : shape.containsPoint p = shape.covers p := by
  induction shape with
  | nil => rfl
  | cons span spans ih =>
    obtain ⟨hspan, hrest⟩ := List.forall_mem_cons.1 hrows
    cases spans with
    | nil =>
      have hnil : span.2 = [] := hfinal
      show false = StepFunction.covers (if p.y < span.1 then [] else span.2) p.x
      rw [hnil, ite_self]
      rfl
    | cons next spans =>
      rw [containsPoint, segmentsContain_eq hspan, ih hfinal hrest, covers, covers]
      by_cases hy : p.y < span.1
      · rw [if_pos hy, show stepAt [] (span :: next :: spans) p.y = [] from if_pos hy]
        rfl
      · rw [if_neg hy, show stepAt [] (span :: next :: spans) p.y = stepAt span.2 (next :: spans) p.y from if_neg hy]
        by_cases hnext : next.1 ≤ p.y
        · rw [if_pos hnext, stepAt_cons_of_le hnext, stepAt_cons_of_le hnext]
        · have hlt : p.y < next.1 := not_le.1 hnext
          rw [if_neg hnext, show stepAt [] (next :: spans) p.y = [] from if_pos hlt,
            show stepAt span.2 (next :: spans) p.y = span.2 from if_pos hlt]
          cases StepFunction.covers span.2 p.x <;> rfl

/-! ## The first and the last point of a row -/

variable {shape : Shape} {s : List Int} {x : Int}

theorem exists_getLast {a b : Int} (h : Boundary (a :: b :: s)) : ∃ c, (a :: b :: s).getLast? = some c ∧ b ≤ c := by
  refine ⟨_, List.getLast?_eq_some_getLast (List.cons_ne_nil a (b :: s)), ?_⟩
  obtain ⟨-, hb, -⟩ := boundary_cons_cons.1 h
  rw [List.getLast_cons (List.cons_ne_nil b s)]
  rcases List.mem_cons.1 (List.getLast_mem (List.cons_ne_nil b s)) with heq | hmem
  · exact heq.ge
  · exact (hb _ hmem).le

/-- The last point of a row behind its first interval. -/
theorem getLast?_of_getLast? {a b c : Int} (h : s.getLast? = some c) : (a :: b :: s).getLast? = some c := by
  cases s with
  | nil => cases h
  | cons x s => rw [List.getLast?_cons_cons, List.getLast?_cons_cons, h]

theorem exists_head_getLast (h : Boundary s) (hx : StepFunction.covers s x = true) :
    (∃ a, s.head? = some a ∧ a ≤ x) ∧ ∃ b, s.getLast? = some b ∧ x < b := by
  refine Boundary.induction (motive := fun s => StepFunction.covers s x = true →
    (∃ a, s.head? = some a ∧ a ≤ x) ∧ ∃ b, s.getLast? = some b ∧ x < b) (fun h => by cases h) ?_ h hx
  intro a b s hab hb hs ih hx
  rw [covers_cons_cons] at hx
  split_ifs at hx with ha hxb
  · obtain ⟨c, hc, hbc⟩ := exists_getLast (boundary_cons_cons.2 ⟨hab, hb, hs⟩)
    exact ⟨⟨a, rfl, not_lt.1 ha⟩, c, hc, hxb.trans_le hbc⟩
  · obtain ⟨-, c, hc, hxc⟩ := ih hx
    exact ⟨⟨a, rfl, not_lt.1 ha⟩, c, getLast?_of_getLast? hc, hxc⟩

/-- The first point of a row is in it. -/
theorem covers_head {a : Int} (h : Boundary s) (ha : s.head? = some a) : StepFunction.covers s a = true := by
  match s, h with
  | [], _ => cases ha
  | [b], h => exact absurd h (not_boundary_singleton b)
  | b :: c :: s, h =>
    cases ha
    rw [covers_cons_cons, if_neg (lt_irrefl a), if_pos (boundary_cons_cons.1 h).1]

theorem covers_getLast {b : Int} (h : Boundary s) (hb : s.getLast? = some b) :
    StepFunction.covers s (b - 1) = true := by
  refine Boundary.induction (motive := fun s => s.getLast? = some b → StepFunction.covers s (b - 1) = true)
    (fun h => by cases h) ?_ h hb
  intro a c s hac hc hs ih hb
  obtain ⟨d, hd, hcd⟩ := exists_getLast (boundary_cons_cons.2 ⟨hac, hc, hs⟩)
  obtain rfl : d = b := Option.some.inj (hd.symm.trans hb)
  rw [covers_cons_cons, if_neg (by omega)]
  split_ifs with hlt
  · rfl
  · refine ih ?_
    cases s with
    | nil =>
      obtain rfl : c = d := Option.some.inj hd
      omega
    | cons x s => rwa [List.getLast?_cons_cons, List.getLast?_cons_cons] at hd

/-! ## Bounds -/

/-- What the loop has found behind the spans `pre`: its limits are the least first point and the greatest last point of
the rows that it passes, and of those that it has found before. -/
structure Limits (pre spans : Shape) (limits r : Int × Int) : Prop where
  le_fst : r.1 ≤ limits.1
  le_head : ∀ span ∈ spans, ∀ a, span.2.head? = some a → r.1 ≤ a
  fst_eq : r.1 = limits.1 ∨ ∃ span ∈ pre ++ spans, span.2.head? = some r.1
  le_snd : limits.2 ≤ r.2
  getLast_le : ∀ span ∈ spans, ∀ b, span.2.getLast? = some b → b ≤ r.2
  snd_eq : r.2 = limits.2 ∨ ∃ span ∈ pre ++ spans, span.2.getLast? = some r.2

theorem segments_append (pre spans : Shape) : segments (pre ++ spans) = segments pre ++ segments spans :=
  List.flatMap_append

theorem segments_cons (span : Int × List Int) (spans : Shape) : segments (span :: spans) = span.2 ++ segments spans :=
  List.flatMap_cons

theorem exists_head {spans : Shape} {a : Int} (h : (segments spans).head? = some a) :
    ∃ span ∈ spans, span.2.head? = some a := by
  rw [segments, List.head?_flatMap] at h
  exact List.exists_of_findSome?_eq_some h

theorem exists_getLast_segments {spans : Shape} {b : Int} (h : (segments spans).getLast? = some b) :
    ∃ span ∈ spans, span.2.getLast? = some b := by
  rw [segments, List.getLast?_flatMap] at h
  obtain ⟨span, hspan, hb⟩ := List.exists_of_findSome?_eq_some h
  exact ⟨span, List.mem_reverse.1 hspan, hb⟩

theorem Limits.cons {pre spans : Shape} {span : Int × List Int} {limits limits' r : Int × Int}
    (h : Limits (pre ++ [span]) spans limits' r) (hfst : limits'.1 ≤ limits.1)
    (hhead : ∀ a, span.2.head? = some a → limits'.1 ≤ a)
    (hfstEq : limits'.1 = limits.1 ∨ ∃ other ∈ span :: spans, other.2.head? = some limits'.1)
    (hsnd : limits.2 ≤ limits'.2) (hlast : ∀ b, span.2.getLast? = some b → b ≤ limits'.2)
    (hsndEq : limits'.2 = limits.2 ∨ ∃ other ∈ pre ++ [span], other.2.getLast? = some limits'.2) :
    Limits pre (span :: spans) limits r := by
  have happend : pre ++ [span] ++ spans = pre ++ span :: spans := by simp
  refine ⟨h.le_fst.trans hfst, ?_, ?_, hsnd.trans h.le_snd, ?_, ?_⟩
  · exact List.forall_mem_cons.2 ⟨fun a ha => h.le_fst.trans (hhead a ha), h.le_head⟩
  · rcases h.fst_eq with heq | hother
    · rw [heq]
      exact hfstEq.imp_right fun ⟨other, hmem, heq⟩ => ⟨other, List.mem_append_right pre hmem, heq⟩
    · exact Or.inr (happend ▸ hother)
  · exact List.forall_mem_cons.2 ⟨fun b hb => (hlast b hb).trans h.le_snd, h.getLast_le⟩
  · rcases h.snd_eq with heq | hother
    · rw [heq]
      exact hsndEq.imp_right fun ⟨other, hmem, heq⟩ => ⟨other, happend ▸ List.mem_append_left spans hmem, heq⟩
    · exact Or.inr (happend ▸ hother)

theorem boundsLoop_spec (pre spans : Shape) (limits : Int × Int)
    (hfirst : ∀ span rest, spans = span :: rest → segments pre ++ span.2 ≠ []) (d : List Int)
    (hfinal : finalValue d spans = []) :
    Limits pre spans limits (boundsLoop (segments (pre ++ spans)) (segments pre).length limits spans) := by
  induction spans generalizing pre limits d with
  | nil => exact ⟨le_rfl, by simp, Or.inl rfl, le_rfl, by simp, Or.inl rfl⟩
  | cons span spans ih =>
    cases spans with
    | nil =>
      have hnil : span.2 = [] := hfinal
      exact ⟨le_rfl, by simp [hnil], Or.inl rfl, le_rfl, by simp [hnil], Or.inl rfl⟩
    | cons next spans =>
      have hpre : segments (pre ++ [span]) = segments pre ++ span.2 := by simp [segments]
      have hne := hfirst span (next :: spans) rfl
      have hspec := fun limits => ih (pre ++ [span]) limits
        (fun next' rest _ => by rw [hpre]; exact List.append_ne_nil_of_left_ne_nil hne _) span.2 hfinal
      rw [List.append_assoc, List.singleton_append, hpre, List.length_append] at hspec
      have hall : segments (pre ++ span :: next :: spans) = segments pre ++ segments (span :: next :: spans) :=
        segments_append ..
      rw [boundsLoop]
      split_ifs with hindex
      · -- no segments are left
        have hrest : segments (span :: next :: spans) = [] := by
          rw [hall, List.length_append] at hindex
          exact List.length_eq_zero_iff.1 (by omega)
        have hnil : span.2 = [] := (List.append_eq_nil_iff.1 ((segments_cons ..).symm.trans hrest)).1
        have hspec := hspec limits
        rw [hnil, List.length_nil, Nat.add_zero] at hspec
        exact hspec.cons le_rfl (by simp [hnil]) (Or.inl rfl) le_rfl (by simp [hnil]) (Or.inl rfl)
      · have hrest : segments (span :: next :: spans) ≠ [] := by
          rintro hnil
          rw [hall, hnil, List.append_nil] at hindex
          exact hindex rfl
        obtain ⟨a, ha⟩ : ∃ a, (segments (span :: next :: spans)).head? = some a :=
          ⟨_, List.head?_eq_some_head hrest⟩
        obtain ⟨b, hb⟩ : ∃ b, (segments (pre ++ [span])).getLast? = some b :=
          ⟨_, List.getLast?_eq_some_getLast (hpre ▸ hne)⟩
        have hfirstSegment : (segments (pre ++ span :: next :: spans)).getD (segments pre).length 0 = a := by
          rw [List.getD_eq_getElem?_getD, hall, List.getElem?_append_right le_rfl, Nat.sub_self,
            ← List.head?_eq_getElem?, ha]
          rfl
        have hlastSegment : (segments (pre ++ span :: next :: spans)).getD
            ((segments pre).length + span.2.length - 1) 0 = b := by
          have hlength : 0 < (segments pre ++ span.2).length := List.length_pos_iff.2 hne
          rw [hpre, List.getLast?_eq_getElem?, List.length_append] at hb
          rw [List.length_append] at hlength
          rw [List.getD_eq_getElem?_getD, hall, segments_cons, ← List.append_assoc,
            List.getElem?_append_left (by rw [List.length_append]; omega), hb]
          rfl
        have hheadSpan : ∀ a', span.2.head? = some a' → a' = a := by
          intro a' ha'
          rw [segments_cons, List.head?_append, ha'] at ha
          exact Option.some.inj ha
        have hlastSpan : ∀ b', span.2.getLast? = some b' → b' = b := by
          intro b' hb'
          rw [hpre, List.getLast?_append, hb'] at hb
          exact Option.some.inj hb
        have hmin : ∀ limit : Int, (if a < limit then a else limit) ≤ limit ∧ (if a < limit then a else limit) ≤ a ∧
            ((if a < limit then a else limit) = limit ∨ (if a < limit then a else limit) = a) := by
          intro limit
          split_ifs <;> omega
        have hmax : ∀ limit : Int, limit ≤ (if limit < b then b else limit) ∧ b ≤ (if limit < b then b else limit) ∧
            ((if limit < b then b else limit) = limit ∨ (if limit < b then b else limit) = b) := by
          intro limit
          split_ifs <;> omega
        simp only [hfirstSegment, hlastSegment]
        refine (hspec _).cons (hmin _).1 (fun a' ha' => ?_) ?_ (hmax _).1 (fun b' hb' => ?_) ?_
        · exact (hmin limits.1).2.1.trans (hheadSpan a' ha').ge
        · rcases (hmin limits.1).2.2 with heq | heq
          · exact Or.inl heq
          · exact Or.inr (by simpa only [heq] using exists_head ha)
        · exact (hlastSpan b' hb').le.trans (hmax limits.2).2.1
        · rcases (hmax limits.2).2.2 with heq | heq
          · exact Or.inl heq
          · exact Or.inr (by simpa only [heq] using exists_getLast_segments hb)

/-- The coordinates of the segments are values of `int`. -/
def Fits (shape : Shape) : Prop := ∀ span ∈ shape, ∀ x ∈ span.2, minInt ≤ x ∧ x ≤ maxInt

/-- A rectangle is tight: it has the points of the shape, and one of them on each side. -/
structure Tight (r : IntRect) (shape : Shape) : Prop where
  covers : ∀ p, shape.covers p = true → r.containsPoint p = true
  left : shape ≠ [] → ∃ y, shape.covers ⟨r.x, y⟩ = true
  right : shape ≠ [] → ∃ y, shape.covers ⟨r.maxX - 1, y⟩ = true
  top : shape ≠ [] → ∃ x, shape.covers ⟨x, r.y⟩ = true
  bottom : shape ≠ [] → ∃ x, shape.covers ⟨x, r.maxY - 1⟩ = true
  empty : shape = [] → r.width = 0 ∧ r.height = 0

theorem Canonical.covers_span (h : shape.Canonical) {span : Int × List Int} (hspan : span ∈ shape) (x : Int) :
    shape.covers ⟨x, span.1⟩ = StepFunction.covers span.2 x := by
  rw [covers, h.changes.ordered.stepAt_eq hspan]

theorem Canonical.exists_last (h : shape.Canonical) (hne : shape ≠ []) :
    ∃ init last, shape = init ++ [last] ∧ last.2 = [] ∧ finalValue [] init ≠ [] ∧ ∀ span ∈ init, span.1 < last.1 := by
  refine ⟨shape.dropLast, shape.getLast hne, (List.dropLast_concat_getLast hne).symm, ?_⟩
  obtain ⟨⟨hordered, halternates⟩, hfinal, -⟩ := h
  rw [← List.dropLast_concat_getLast hne] at hordered halternates hfinal
  rw [finalValue_append] at hfinal
  have hlast : (shape.getLast hne).2 = [] := hfinal
  have hchange := ((alternates_append ..).1 halternates).2.1
  exact ⟨hlast, fun hnil => hchange (hlast.trans hnil.symm),
    fun span hspan => (List.pairwise_append.1 hordered).2.2 span hspan _ (List.mem_singleton_self _)⟩

theorem Canonical.exists_bottom (h : shape.Canonical) {last : Int × List Int} (hlast : shape.getLast? = some last) :
    ∃ x, shape.covers ⟨x, last.1 - 1⟩ = true := by
  have hne : shape ≠ [] := by
    rintro rfl
    cases hlast
  obtain ⟨init, last', rfl, -, hinit, hlt⟩ := h.exists_last hne
  obtain rfl : last' = last := by simpa using hlast
  have hrow : stepAt [] (init ++ [last']) (last'.1 - 1) = finalValue [] init := by
    rw [stepAt_append_of_lt (by simp only [List.mem_singleton, forall_eq]; exact Int.sub_one_lt_of_le le_rfl), stepAt_of_le fun span hspan => Int.le_sub_one_of_lt (hlt span hspan)]
  have hboundary := h.row (last'.1 - 1)
  rw [hrow] at hboundary
  obtain ⟨x, hx⟩ := hboundary.exists_covers hinit
  exact ⟨x, by rw [covers, hrow, hx]⟩

theorem Canonical.exists_span (h : shape.Canonical) {p : IntPoint} (hp : shape.covers p = true) :
    (∃ span ∈ shape, StepFunction.covers span.2 p.x = true) ∧ (∃ span ∈ shape.head?, span.1 ≤ p.y) ∧
      ∃ span ∈ shape.getLast?, p.y < span.1 := by
  have hrow : ∀ row, stepAt [] shape p.y = row → StepFunction.covers row p.x = true := fun row hrow => hrow ▸ hp
  have hnil : stepAt [] shape p.y ≠ [] := fun heq => by cases hrow [] heq
  have hne : shape ≠ [] := by
    rintro rfl
    exact hnil rfl
  refine ⟨?_, ?_, ?_⟩
  · rcases stepAt_mem [] shape p.y with heq | ⟨span, hspan, heq⟩
    · exact absurd heq hnil
    · exact ⟨span, hspan, hrow _ heq⟩
  · cases shape with
    | nil => exact absurd rfl hne
    | cons span shape => exact ⟨span, rfl, not_lt.1 fun hlt => hnil (if_pos hlt)⟩
  · obtain ⟨init, last, rfl, hlast, -, hlt⟩ := h.exists_last hne
    refine ⟨last, by simp, not_le.1 fun hle => hnil ?_⟩
    rw [stepAt_of_le, h.final]
    intro span hspan
    rcases List.mem_append.1 hspan with hmem | hmem
    · exact (hlt span hmem).le.trans hle
    · exact (List.mem_singleton.1 hmem) ▸ hle

/-- **The bounds of a shape are tight.** -/
theorem bounds_tight (h : shape.Canonical) (hfits : shape.Fits) : Tight shape.bounds shape := by
  cases hshape : shape with
  | nil =>
    exact ⟨fun p hp => (by cases hp), fun h => absurd rfl h, fun h => absurd rfl h, fun h => absurd rfl h,
      fun h => absurd rfl h, fun _ => ⟨rfl, rfl⟩⟩
  | cons span spans =>
    rw [← hshape]
    have hne : shape ≠ [] := hshape ▸ List.cons_ne_nil span spans
    obtain ⟨last, hlast⟩ : ∃ last, shape.getLast? = some last := ⟨_, List.getLast?_eq_some_getLast hne⟩
    have hmem : span ∈ shape := hshape ▸ List.mem_cons_self ..
    have hfirst : span.2 ≠ [] := (hshape ▸ h.changes.alternates : Alternates [] (span :: spans)).1
    have hlimits : Limits [] shape (maxInt, minInt) (boundsLoop shape.segments 0 (maxInt, minInt) shape) :=
      boundsLoop_spec [] shape (maxInt, minInt) (fun span' rest heq => by
        obtain ⟨rfl, -⟩ := List.cons.inj (hshape.symm.trans heq)
        simpa [segments] using hfirst) [] h.final
    generalize hloop : boundsLoop shape.segments 0 (maxInt, minInt) shape = r at hlimits
    have hbounds : shape.bounds = ⟨r.1, span.1, r.2 - r.1, last.1 - span.1⟩ := by
      rw [hshape] at hlast hloop ⊢
      simp only [bounds, hlast, hloop]
    have hrow := h.rows span hmem
    obtain ⟨a, ha⟩ : ∃ a, span.2.head? = some a := ⟨_, List.head?_eq_some_head hfirst⟩
    obtain ⟨b, hb⟩ : ∃ b, span.2.getLast? = some b := ⟨_, List.getLast?_eq_some_getLast hfirst⟩
    have hminX : ∃ span ∈ shape, span.2.head? = some r.1 := by
      refine hlimits.fst_eq.elim (fun heq => ⟨span, hmem, ?_⟩) id
      have hle := hlimits.le_head span hmem a ha
      have hmax := (hfits span hmem a (List.mem_of_head? ha)).2
      rw [ha, heq]
      exact congrArg some (le_antisymm hmax (heq ▸ hle))
    have hmaxX : ∃ span ∈ shape, span.2.getLast? = some r.2 := by
      refine hlimits.snd_eq.elim (fun heq => ⟨span, hmem, ?_⟩) id
      have hle := hlimits.getLast_le span hmem b hb
      have hmin := (hfits span hmem b (List.mem_of_getLast? hb)).1
      rw [hb, heq]
      exact congrArg some (le_antisymm (heq ▸ hle) hmin)
    rw [hbounds]
    refine ⟨fun p hp => ?_, fun _ => ?_, fun _ => ?_, fun _ => ?_, fun _ => ?_, fun h => absurd h hne⟩
    · obtain ⟨⟨span', hspan', hx⟩, ⟨top, htop, hy⟩, bottom, hbottom, hy'⟩ := h.exists_span hp
      obtain ⟨⟨a', ha', hax⟩, b', hb', hxb⟩ := exists_head_getLast (h.rows span' hspan') hx
      have hle := hlimits.le_head span' hspan' a' ha'
      have hge := hlimits.getLast_le span' hspan' b' hb'
      obtain rfl : bottom = last := Option.some.inj (hbottom.symm.trans hlast)
      obtain rfl : span = top := by simpa [hshape] using htop
      simp only [IntRect.containsPoint_iff, IntRect.maxX, IntRect.maxY]
      omega
    · obtain ⟨span', hspan', hhead⟩ := hminX
      exact ⟨span'.1, (h.covers_span hspan' _).trans (covers_head (h.rows span' hspan') hhead)⟩
    · obtain ⟨span', hspan', hgetLast⟩ := hmaxX
      refine ⟨span'.1, ?_⟩
      rw [IntRect.maxX, show r.1 + (r.2 - r.1) = r.2 by omega, h.covers_span hspan']
      exact covers_getLast (h.rows span' hspan') hgetLast
    · exact ⟨a, (h.covers_span hmem a).trans (covers_head hrow ha)⟩
    · rw [IntRect.maxY, show span.1 + (last.1 - span.1) = last.1 by omega]
      exact h.exists_bottom hlast

end Shape

end WebKit.WebCore
