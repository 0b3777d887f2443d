import Mathlib.Data.List.Chain
import WebKit.WebCore.LayoutUnit

/-!
# Snapped boxes tile

`snappedIntSize` computes the extent of a snapped box from the fraction of its position. `snap_eq`: where no sum
saturates, the extent leads from the rounded position of the box to that of its end, because whole pixels move through
rounding (`round_eq`). `snapping_tiles`: the snapped boxes of a `Tiling`, boxes laid end to end, share their edges, and
their extents sum to that of the snapped box around them.
-/

namespace WebKit.WebCore.LayoutSnapping

/-! ## `LayoutRect`, `IntRect` and `snappedIntRect` -/

structure LayoutPoint where
  x : LayoutUnit
  y : LayoutUnit

structure LayoutSize where
  width : LayoutUnit
  height : LayoutUnit

structure LayoutRect where
  location : LayoutPoint
  size : LayoutSize

def LayoutRect.maxX (rect : LayoutRect) : LayoutUnit := rect.location.x + rect.size.width

def LayoutRect.maxY (rect : LayoutRect) : LayoutUnit := rect.location.y + rect.size.height

structure IntPoint where
  x : Int32
  y : Int32

structure IntSize where
  width : Int32
  height : Int32

structure IntRect where
  location : IntPoint
  size : IntSize

def IntRect.maxX (rect : IntRect) : Int32 := rect.location.x + rect.size.width

def IntRect.maxY (rect : IntRect) : Int32 := rect.location.y + rect.size.height

def roundToInt (value : LayoutUnit) : Int32 := value.round

def roundedIntPoint (point : LayoutPoint) : IntPoint := ⟨point.x.round, point.y.round⟩

/-- The function inside `snappedIntSize`. -/
def snap (a b : LayoutUnit) : Int32 :=
  let fraction := b.fraction
  roundToInt (fraction + a) - roundToInt fraction

def snappedIntSize (size : LayoutSize) (location : LayoutPoint) : IntSize :=
  ⟨snap size.width location.x, snap size.height location.y⟩

def snappedIntRect (rect : LayoutRect) : IntRect :=
  ⟨roundedIntPoint rect.location, snappedIntSize rect.size rect.location⟩

/-! ## One box -/

/-- The sum that `LayoutUnit.round` makes is in range. -/
def RoundsInRange (a : LayoutUnit) : Prop := -2147483648 ≤ a.rawValue.toInt - 31 ∧ a.rawValue.toInt + 32 ≤ 2147483647

instance (a : LayoutUnit) : Decidable (RoundsInRange a) := inferInstanceAs (Decidable (_ ∧ _))

/-- No sum saturates for the position `x` and the extent `w`. -/
structure NoSaturation (x w : LayoutUnit) : Prop where
  finish : (x + w).rawValue.toInt = x.rawValue.toInt + w.rawValue.toInt
  fraction : (x.fraction + w).rawValue.toInt = x.fraction.rawValue.toInt + w.rawValue.toInt
  round : RoundsInRange x
  roundFinish : RoundsInRange (x + w)
  roundFraction : RoundsInRange (x.fraction + w)

theorem round_eq {a : LayoutUnit} (h : RoundsInRange a) : (roundToInt a).toInt = (a.rawValue.toInt + 32) / 64 := by
  obtain ⟨hle, hge⟩ := h
  unfold roundToInt
  rw [LayoutUnit.toInt_round]
  unfold clampPixels
  omega

theorem roundsInRange_fraction (x : LayoutUnit) : RoundsInRange x.fraction := by
  unfold RoundsInRange
  rw [LayoutUnit.rawValue_fraction]
  have hlt := Int.tmod_lt_of_pos x.rawValue.toInt (show (0 : Int) < 64 by decide)
  have hgt := Int.lt_tmod_of_pos x.rawValue.toInt (show (0 : Int) < 64 by decide)
  omega

/-- **The snapped extent leads to the rounded end.** Rounding commutes with the whole pixels that are left out. -/
theorem snap_eq {x w : LayoutUnit} (h : NoSaturation x w) :
    (snap w x).toInt = (roundToInt (x + w)).toInt - (roundToInt x).toInt := by
  have hfinish := round_eq h.roundFinish
  have hfraction := round_eq h.roundFraction
  have hx := h.round
  unfold RoundsInRange at hx
  have hbounds := h.roundFinish
  unfold RoundsInRange at hbounds
  have hparts := Int.tmod_add_tdiv_mul x.rawValue.toInt 64
  unfold snap
  simp only
  rw [h.fraction, LayoutUnit.rawValue_fraction] at hfraction
  rw [h.finish] at hfinish hbounds
  rw [Int32.toInt_sub, hfraction, round_eq (roundsInRange_fraction x), LayoutUnit.rawValue_fraction, hfinish,
    round_eq h.round, bmod_of_mem (by omega) (by omega)]
  omega

theorem roundToInt_add_snap {x w : LayoutUnit} (h : NoSaturation x w) :
    roundToInt x + snap w x = roundToInt (x + w) := by
  have hfinish := round_eq h.roundFinish
  have hbounds := h.roundFinish
  unfold RoundsInRange at hbounds
  apply Int32.toInt_inj.1
  rw [Int32.toInt_add, snap_eq h]
  exact (congrArg (Int.bmod · (2 ^ 32)) (by omega)).trans (bmod_of_mem (by omega) (by omega))

/-! ## Boxes end to end -/

inductive Dimension
  | horizontal
  | vertical
  deriving DecidableEq

namespace Dimension

def start : Dimension → LayoutRect → LayoutUnit
  | horizontal, rect => rect.location.x
  | vertical, rect => rect.location.y

def extent : Dimension → LayoutRect → LayoutUnit
  | horizontal, rect => rect.size.width
  | vertical, rect => rect.size.height

def finish : Dimension → LayoutRect → LayoutUnit
  | horizontal, rect => rect.maxX
  | vertical, rect => rect.maxY

def snappedStart : Dimension → IntRect → Int32
  | horizontal, rect => rect.location.x
  | vertical, rect => rect.location.y

def snappedExtent : Dimension → IntRect → Int32
  | horizontal, rect => rect.size.width
  | vertical, rect => rect.size.height

def snappedFinish : Dimension → IntRect → Int32
  | horizontal, rect => rect.maxX
  | vertical, rect => rect.maxY

end Dimension

/-- Boxes that are laid end to end, and a box around them. -/
structure Tiling (d : Dimension) where
  boxes : List LayoutRect
  whole : LayoutRect
  nonempty : boxes ≠ []
  endToEnd : boxes.IsChain fun box next => d.start next = d.finish box
  start_whole : d.start whole = d.start (boxes.head nonempty)
  finish_whole : d.finish whole = d.finish (boxes.getLast nonempty)
  noSaturation : ∀ box ∈ boxes, NoSaturation (d.start box) (d.extent box)
  noSaturation_whole : NoSaturation (d.start whole) (d.extent whole)

section

variable {d : Dimension}

theorem snappedStart_eq (d : Dimension) (rect : LayoutRect) :
    d.snappedStart (snappedIntRect rect) = roundToInt (d.start rect) := by
  cases d <;> rfl

theorem snappedFinish_eq {rect : LayoutRect} (h : NoSaturation (d.start rect) (d.extent rect)) :
    d.snappedFinish (snappedIntRect rect) = roundToInt (d.finish rect) := by
  cases d with
  | horizontal => exact roundToInt_add_snap h
  | vertical => exact roundToInt_add_snap h

theorem snappedExtent_eq {rect : LayoutRect} (h : NoSaturation (d.start rect) (d.extent rect)) :
    (d.snappedExtent (snappedIntRect rect)).toInt =
      (roundToInt (d.finish rect)).toInt - (roundToInt (d.start rect)).toInt := by
  cases d with
  | horizontal => exact snap_eq h
  | vertical => exact snap_eq h

theorem sum_snappedExtent {boxes : List LayoutRect} (hne : boxes ≠ [])
    (hchain : boxes.IsChain fun box next => d.start next = d.finish box)
    (hsat : ∀ box ∈ boxes, NoSaturation (d.start box) (d.extent box)) :
    (boxes.map fun box => (d.snappedExtent (snappedIntRect box)).toInt).sum =
      (roundToInt (d.finish (boxes.getLast hne))).toInt - (roundToInt (d.start (boxes.head hne))).toInt := by
  induction boxes with
  | nil => exact absurd rfl hne
  | cons box boxes ih =>
    rw [List.map_cons, List.sum_cons, snappedExtent_eq (hsat box List.mem_cons_self)]
    cases boxes with
    | nil => simp
    | cons next boxes =>
      rw [List.isChain_cons_cons] at hchain
      rw [ih (List.cons_ne_nil _ _) hchain.2 fun box hbox => hsat box (List.mem_cons_of_mem _ hbox), List.head_cons,
        List.head_cons, hchain.1, List.getLast_cons (List.cons_ne_nil _ _)]
      omega

end

/-- **Snapped boxes tile.** The snapped extent of any box leads from its rounded start to its rounded end, so that boxes
laid end to end share their snapped edges, and their snapped extents sum to that of the box around them. -/
theorem snapping_tiles (d : Dimension) (x w : LayoutUnit) (h : NoSaturation x w) (tiling : Tiling d) :
    roundToInt x + snap w x = roundToInt (x + w) ∧
      (tiling.boxes.map snappedIntRect).IsChain (fun box next => d.snappedStart next = d.snappedFinish box) ∧
      (tiling.boxes.map fun box => (d.snappedExtent (snappedIntRect box)).toInt).sum =
        (d.snappedExtent (snappedIntRect tiling.whole)).toInt := by
  refine ⟨roundToInt_add_snap h, ?_, ?_⟩
  · rw [List.isChain_map]
    refine tiling.endToEnd.imp_of_mem_imp fun box next hbox _ hnext => ?_
    rw [snappedStart_eq, snappedFinish_eq (tiling.noSaturation box hbox), hnext]
  · rw [sum_snappedExtent tiling.nonempty tiling.endToEnd tiling.noSaturation,
      snappedExtent_eq tiling.noSaturation_whole, tiling.start_whole, tiling.finish_whole]

/-- Two boxes of one and a half pixels from half a pixel below zero on, of which the second gets one pixel. -/
theorem snapping_two_boxes :
    (roundToInt ⟨-32⟩ + snap ⟨96⟩ ⟨-32⟩ = roundToInt (⟨-32⟩ + ⟨96⟩)) ∧
      snap ⟨96⟩ ⟨-32⟩ = 1 ∧ snap ⟨96⟩ ⟨64⟩ = 2 :=
  have hfirst : NoSaturation ⟨-32⟩ ⟨96⟩ := ⟨by decide, by decide, by decide, by decide, by decide⟩
  have hsecond : NoSaturation ⟨64⟩ ⟨96⟩ := ⟨by decide, by decide, by decide, by decide, by decide⟩
  have hwhole : NoSaturation ⟨-32⟩ ⟨192⟩ := ⟨by decide, by decide, by decide, by decide, by decide⟩
  have tiling : Tiling .horizontal := {
    boxes := [⟨⟨⟨-32⟩, ⟨0⟩⟩, ⟨⟨96⟩, ⟨64⟩⟩⟩, ⟨⟨⟨64⟩, ⟨0⟩⟩, ⟨⟨96⟩, ⟨64⟩⟩⟩]
    whole := ⟨⟨⟨-32⟩, ⟨0⟩⟩, ⟨⟨192⟩, ⟨64⟩⟩⟩
    nonempty := List.cons_ne_nil _ _
    endToEnd := by decide
    start_whole := rfl
    finish_whole := by decide
    noSaturation := by
      intro box hbox
      rcases List.mem_cons.1 hbox with rfl | hbox
      · exact hfirst
      · rw [List.mem_singleton.1 hbox]
        exact hsecond
    noSaturation_whole := hwhole }
  ⟨(snapping_tiles .horizontal ⟨-32⟩ ⟨96⟩ hfirst tiling).1, by decide, by decide⟩

end WebKit.WebCore.LayoutSnapping
