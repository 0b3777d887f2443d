import WebKit.Lib.Truncation
import WebKit.WTF.MediaTime

/-!
# The order of `MediaTime`

`exact t` is the time that a proper `MediaTime` denotes, a rational number or an infinity. `compare` compares these
(`compare_cases`), so each of the operators is the relation of its name (`lt_iff`, `le_iff`, …).
-/

namespace WebKit.WTF.MediaTime

open Truncation

/-- Rational numbers and two infinities. -/
abbrev ExactTime := WithBot (WithTop ℚ)

/-- `m_timeValue / m_timeScale`. -/
def quotient (t : MediaTime) : ℚ := t.timeValue / t.timeScale

/-- The time that a finite or infinite `MediaTime` denotes. -/
def exact (t : MediaTime) : ExactTime :=
  if t.isPositiveInfinite then ((⊤ : WithTop ℚ) : ExactTime)
  else if t.isNegativeInfinite then ⊥
  else ((t.quotient : WithTop ℚ) : ExactTime)

/-- Finite or infinite, and valid. -/
structure Proper (t : MediaTime) : Prop where
  valid : t.isValid
  not_indefinite : t.isIndefinite = false
  not_both : ¬(t.isPositiveInfinite ∧ t.isNegativeInfinite)
  scale : 0 < t.timeScale

instance (t : MediaTime) : Decidable t.Proper :=
  decidable_of_iff (t.isValid ∧ t.isIndefinite = false ∧ ¬(t.isPositiveInfinite ∧ t.isNegativeInfinite) ∧ 0 < t.timeScale)
    ⟨fun ⟨h₁, h₂, h₃, h₄⟩ => ⟨h₁, h₂, h₃, h₄⟩, fun ⟨h₁, h₂, h₃, h₄⟩ => ⟨h₁, h₂, h₃, h₄⟩⟩

theorem proper_positiveInfiniteTime : positiveInfiniteTime.Proper := by decide

theorem proper_negativeInfiniteTime : negativeInfiniteTime.Proper := by decide

theorem exact_positiveInfiniteTime : positiveInfiniteTime.exact = ⊤ := rfl

theorem exact_negativeInfiniteTime : negativeInfiniteTime.exact = ⊥ := rfl

variable {a b : MediaTime}

theorem Proper.cases (h : a.Proper) :
    a.isPositiveInfinite = true ∧ a.isNegativeInfinite = false ∧ a.exact = ⊤ ∨
    a.isPositiveInfinite = false ∧ a.isNegativeInfinite = true ∧ a.exact = ⊥ ∨
    a.isPositiveInfinite = false ∧ a.isNegativeInfinite = false ∧ a.exact = ((a.quotient : WithTop ℚ) : ExactTime) := by
  have hnb := h.not_both
  unfold exact
  cases hp : a.isPositiveInfinite <;> cases hn : a.isNegativeInfinite
  · exact .inr (.inr ⟨rfl, rfl, rfl⟩)
  · exact .inr (.inl ⟨rfl, rfl, rfl⟩)
  · exact .inl ⟨rfl, rfl, rfl⟩
  · exact absurd ⟨hp, hn⟩ hnb

/-- What it means that `r` is the order of `x` and `y`. -/
def Orders {α : Type*} [LT α] (r : Ordering) (x y : α) : Prop := r = .lt ∧ x < y ∨ r = .eq ∧ x = y ∨ r = .gt ∧ y < x

theorem compareFinite_orders (ha : 0 < a.timeScale) (hb : 0 < b.timeScale) :
    Orders (a.compareFinite b) a.quotient b.quotient := by
  unfold compareFinite quotient
  simp only
  split
  · exact .inr (.inr ⟨rfl, div_lt_div_of_tdiv_lt hb ha ‹_›⟩)
  split
  · exact .inl ⟨rfl, div_lt_div_of_tdiv_lt ha hb ‹_›⟩
  have hw : a.timeValue.tdiv a.timeScale = b.timeValue.tdiv b.timeScale := by omega
  have hlt := div_lt_div_iff ha hb hw
  have hgt := div_lt_div_iff hb ha hw.symm
  split
  · rename_i he
    refine .inr (.inl ⟨rfl, le_antisymm (not_lt.1 fun h => ?_) (not_lt.1 fun h => ?_)⟩)
    · have := hgt.1 h
      omega
    · have := hlt.1 h
      omega
  split
  · exact .inr (.inr ⟨rfl, hgt.2 ‹_›⟩)
  · exact .inl ⟨rfl, hlt.2 (by omega)⟩

/-- **`compare` compares the times that are denoted.** -/
theorem compare_orders (ha : a.Proper) (hb : b.Proper) : Orders (a.compare b) a.exact b.exact := by
  have hfin := compareFinite_orders ha.scale hb.scale
  unfold compare isInvalid
  rcases ha.cases with ⟨hap, han, hae⟩ | ⟨hap, han, hae⟩ | ⟨hap, han, hae⟩ <;>
    rcases hb.cases with ⟨hbp, hbn, hbe⟩ | ⟨hbp, hbn, hbe⟩ | ⟨hbp, hbn, hbe⟩ <;>
      simp only [hap, han, hbp, hbn, hae, hbe, ha.valid, hb.valid, ha.not_indefinite, hb.not_indefinite, Bool.not_true,
        Bool.and_self, Bool.and_true, Bool.and_false, Bool.or_false, Bool.or_true, Bool.or_self, Bool.false_eq_true, if_true, if_false]
  · exact .inr (.inl ⟨rfl, rfl⟩)
  · exact .inr (.inr ⟨rfl, bot_lt_top⟩)
  · exact .inr (.inr ⟨rfl, WithBot.coe_lt_coe.2 (WithTop.coe_lt_top _)⟩)
  · exact .inl ⟨rfl, bot_lt_top⟩
  · exact .inr (.inl ⟨rfl, rfl⟩)
  · exact .inl ⟨rfl, WithBot.bot_lt_coe _⟩
  · exact .inl ⟨rfl, WithBot.coe_lt_coe.2 (WithTop.coe_lt_top _)⟩
  · exact .inr (.inr ⟨rfl, WithBot.bot_lt_coe _⟩)
  · unfold Orders at *
    simpa only [WithBot.coe_lt_coe, WithTop.coe_lt_coe, WithBot.coe_inj, WithTop.coe_inj] using hfin

/-! ## The operators -/

/-- `compare` compares the values of `f` on the times that `P` holds of. -/
structure Measures {κ : Type*} [LT κ] (P : MediaTime → Prop) (f : MediaTime → κ) : Prop where
  orders : ∀ {a b : MediaTime}, P a → P b → Orders (a.compare b) (f a) (f b)

theorem measures_exact : Measures Proper exact := ⟨compare_orders⟩

section Operators

variable {κ : Type*} [LinearOrder κ] {P : MediaTime → Prop} {f : MediaTime → κ} (hm : Measures P f) (ha : P a) (hb : P b)

include hm ha hb

theorem Measures.lt_iff : a.lt b = true ↔ f a < f b := by
  unfold lt
  rcases hm.orders ha hb with ⟨hr, h⟩ | ⟨hr, h⟩ | ⟨hr, h⟩ <;> rw [hr]
  · simpa using h
  · simp [h]
  · simpa using h.le

theorem Measures.eq_iff : a.eq b = true ↔ f a = f b := by
  unfold eq
  rcases hm.orders ha hb with ⟨hr, h⟩ | ⟨hr, h⟩ | ⟨hr, h⟩ <;> rw [hr]
  · simpa using h.ne
  · simpa using h
  · simpa using h.ne'

theorem Measures.ne_iff : a.ne b = true ↔ f a ≠ f b := by
  have h : a.ne b = !a.eq b := rfl
  rw [h, Bool.not_eq_true', Bool.eq_false_iff, ne_eq, hm.eq_iff ha hb]

theorem Measures.le_iff : a.le b = true ↔ f a ≤ f b := by
  unfold le
  rcases hm.orders ha hb with ⟨hr, h⟩ | ⟨hr, h⟩ | ⟨hr, h⟩ <;> rw [hr]
  · simpa [Ordering.isLE] using h.le
  · simpa [Ordering.isLE] using h.le
  · simpa [Ordering.isLE] using h

theorem Measures.ge_iff : a.ge b = true ↔ f b ≤ f a := by
  unfold ge
  rcases hm.orders ha hb with ⟨hr, h⟩ | ⟨hr, h⟩ | ⟨hr, h⟩ <;> rw [hr]
  · simpa [Ordering.isGE] using h
  · simpa [Ordering.isGE] using h.ge
  · simpa [Ordering.isGE] using h.le

theorem Measures.apply_min : f (a.min b) = Min.min (f a) (f b) := by
  unfold min
  split
  · rename_i h
    rw [min_eq_right ((hm.lt_iff hb ha).1 h).le]
  · rename_i h
    rw [min_eq_left (not_lt.1 fun hl => h ((hm.lt_iff hb ha).2 hl))]

theorem Measures.apply_max : f (a.max b) = Max.max (f a) (f b) := by
  unfold max
  split
  · rename_i h
    rw [max_eq_right ((hm.lt_iff ha hb).1 h).le]
  · rename_i h
    rw [max_eq_left (not_lt.1 fun hl => h ((hm.lt_iff ha hb).2 hl))]

end Operators

theorem min_cases (a b : MediaTime) : a.min b = a ∨ a.min b = b := by
  unfold min
  split
  · exact .inr rfl
  · exact .inl rfl

theorem max_cases (a b : MediaTime) : a.max b = a ∨ a.max b = b := by
  unfold max
  split
  · exact .inr rfl
  · exact .inl rfl

section Proper

variable (ha : a.Proper) (hb : b.Proper)

include ha hb

theorem lt_iff : a.lt b = true ↔ a.exact < b.exact := measures_exact.lt_iff ha hb

theorem eq_iff : a.eq b = true ↔ a.exact = b.exact := measures_exact.eq_iff ha hb

theorem ne_iff : a.ne b = true ↔ a.exact ≠ b.exact := measures_exact.ne_iff ha hb

theorem le_iff : a.le b = true ↔ a.exact ≤ b.exact := measures_exact.le_iff ha hb

theorem ge_iff : a.ge b = true ↔ b.exact ≤ a.exact := measures_exact.ge_iff ha hb

end Proper

end WebKit.WTF.MediaTime
