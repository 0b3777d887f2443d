import Mathlib.Logic.Function.Basic

/-!
# Tilings of address intervals

A map `m` from begin addresses to tiles is `Tiled Start Stop least` when its tiles have at least the size `least`, are
disjoint, and each one begins at a `Start` edge or where another ends, and ends at a `Stop` edge or where another
begins. The tiles between `lo` and `hi` can be made one (`Tiled.fuse`), a tile can be cut in two (`Tiled.cut`), and a
new interval can be added (`Tiled.add`).
-/

namespace Tiling

/-- A tile, which begins at the address that the map gives it for. -/
structure Tile (κ : Type*) where
  size : Nat
  kind : κ

variable {κ : Type*}

/-- The tiles of `m` cover intervals from `Start` edges to `Stop` edges without gaps. -/
structure Tiled (Start Stop : Nat → Prop) (least : Nat) (m : Nat → Option (Tile κ)) : Prop where
  least_le : ∀ {b t}, m b = some t → least ≤ t.size
  disjoint : ∀ {b t b' t'}, m b = some t → m b' = some t' → b < b' → b + t.size ≤ b'
  prev : ∀ {b t}, m b = some t → Start b ∨ ∃ b' t', m b' = some t' ∧ b' + t'.size = b
  next : ∀ {b t}, m b = some t → Stop (b + t.size) ∨ ∃ t', m (b + t.size) = some t'

/-- One tile from `lo` to `hi` in place of those that begin there. -/
def fuse (m : Nat → Option (Tile κ)) (lo hi : Nat) (k : κ) : Nat → Option (Tile κ) := fun b =>
  if b = lo then some ⟨hi - lo, k⟩ else if lo < b ∧ b < hi then none else m b

/-- Two tiles from `lo` to `mid` and from `mid` to `hi`. -/
def cut (m : Nat → Option (Tile κ)) (lo mid hi : Nat) (k k' : κ) : Nat → Option (Tile κ) :=
  Function.update (Function.update m lo (some ⟨mid - lo, k⟩)) mid (some ⟨hi - mid, k'⟩)

section Fuse

variable {m : Nat → Option (Tile κ)} {lo hi b : Nat} {k : κ} {t : Tile κ}

theorem fuse_lo : fuse m lo hi k lo = some ⟨hi - lo, k⟩ := if_pos rfl

theorem fuse_outside (h : b < lo ∨ hi ≤ b) (hlo : b ≠ lo) : fuse m lo hi k b = m b := by
  unfold fuse
  rw [if_neg hlo, if_neg (by omega)]

/-- The tiles of `fuse m lo hi k`. -/
theorem fuse_eq_some_iff : fuse m lo hi k b = some t ↔
    (b = lo ∧ t = ⟨hi - lo, k⟩) ∨ (b ≠ lo ∧ (b < lo ∨ hi ≤ b) ∧ m b = some t) := by
  constructor
  · intro h
    unfold fuse at h
    split at h
    · exact .inl ⟨‹_›, (Option.some.inj h).symm⟩
    · split at h
      · cases h
      · exact .inr ⟨‹_›, by omega, h⟩
  · rintro (⟨rfl, rfl⟩ | ⟨hne, ho, hb⟩)
    · exact fuse_lo
    · rw [fuse_outside ho hne, hb]

end Fuse

section Cut

variable {m : Nat → Option (Tile κ)} {lo mid hi b : Nat} {k k' : κ} {t : Tile κ}

theorem cut_lo (h : lo < mid) : cut m lo mid hi k k' lo = some ⟨mid - lo, k⟩ := by
  unfold cut
  rw [Function.update_of_ne (by omega), Function.update_self]

theorem cut_mid : cut m lo mid hi k k' mid = some ⟨hi - mid, k'⟩ := Function.update_self ..

theorem cut_other (h₁ : b ≠ lo) (h₂ : b ≠ mid) : cut m lo mid hi k k' b = m b := by
  unfold cut
  rw [Function.update_of_ne h₂, Function.update_of_ne h₁]

/-- The tiles of `cut m lo mid hi k k'`. -/
theorem cut_eq_some_iff : cut m lo mid hi k k' b = some t ↔
    (b = mid ∧ t = ⟨hi - mid, k'⟩) ∨ (b ≠ mid ∧ b = lo ∧ t = ⟨mid - lo, k⟩) ∨ (b ≠ mid ∧ b ≠ lo ∧ m b = some t) := by
  unfold cut
  by_cases h₂ : b = mid
  · simp [h₂, eq_comm]
  · by_cases h₁ : b = lo
    · simp [h₁, h₁ ▸ h₂, eq_comm]
    · simp [h₁, h₂]

end Cut

namespace Tiled

variable {Start Stop : Nat → Prop} {least : Nat} {m : Nat → Option (Tile κ)}

theorem end_le (hm : Tiled Start Stop least m) {hi last b : Nat} {tlast t : Tile κ} (hlast : m last = some tlast)
    (hhi : last + tlast.size = hi) (hb : m b = some t) (hlt : b < hi) : b + t.size ≤ hi := by
  rcases Nat.lt_trichotomy b last with h | rfl | h
  · have := hm.disjoint hb hlast h
    omega
  · rw [hlast] at hb
    cases hb
    omega
  · have := hm.disjoint hlast hb h
    omega

/-- **Fusing the tiles between two tile edges** keeps the tiling. -/
theorem fuse (hm : Tiled Start Stop least m) (hpos : 0 < least) {lo hi last : Nat} {tlo tlast : Tile κ} (k : κ)
    (hlo : m lo = some tlo) (hlast : m last = some tlast) (hle : lo ≤ last) (hhi : last + tlast.size = hi) :
    Tiled Start Stop least (fuse m lo hi k) := by
  have hlt : lo + least ≤ hi := by
    have := hm.least_le hlast
    omega
  refine ⟨fun {b t} hb => ?_, fun {b t b' t'} hb hb' hlt' => ?_, fun {b t} hb => ?_, fun {b t} hb => ?_⟩
  · replace hb := fuse_eq_some_iff.1 hb
    obtain ⟨rfl, rfl⟩ | ⟨-, -, hb⟩ := hb
    · simp only
      omega
    · exact hm.least_le hb
  · replace hb := fuse_eq_some_iff.1 hb
    obtain ⟨rfl, rfl⟩ | ⟨-, ho, hb⟩ := hb
    · replace hb' := fuse_eq_some_iff.1 hb'
      obtain ⟨rfl, rfl⟩ | ⟨-, ho', hb'⟩ := hb'
      · omega
      · simp only
        omega
    · replace hb' := fuse_eq_some_iff.1 hb'
      obtain ⟨rfl, rfl⟩ | ⟨-, ho', hb'⟩ := hb'
      · exact hm.disjoint hb hlo hlt'
      · exact hm.disjoint hb hb' hlt'
  · -- the tile before `hi` is now the fused one
    replace hb := fuse_eq_some_iff.1 hb
    obtain ⟨rfl, rfl⟩ | ⟨hne, ho, hb⟩ := hb
    · refine (hm.prev hlo).imp_right fun ⟨b', t', hb', he⟩ => ⟨b', t', ?_, he⟩
      have := hm.least_le hb'
      rw [fuse_outside (by omega) (by omega), hb']
    · refine (hm.prev hb).imp_right fun ⟨b', t', hb', he⟩ => ?_
      have := hm.least_le hb'
      by_cases hin : lo ≤ b' ∧ b' < hi
      · have := hm.end_le hlast hhi hb' hin.2
        exact ⟨lo, _, fuse_lo, by simp only; omega⟩
      · exact ⟨b', t', by rw [fuse_outside (by omega) (by omega), hb'], he⟩
  · replace hb := fuse_eq_some_iff.1 hb
    obtain ⟨rfl, rfl⟩ | ⟨hne, ho, hb⟩ := hb
    · simp only [show b + (hi - b) = last + tlast.size by omega]
      refine (hm.next hlast).imp_right fun ⟨t', ht'⟩ => ⟨t', ?_⟩
      rw [fuse_outside (by omega) (by omega), ht']
    · refine (hm.next hb).imp_right fun ⟨t', ht'⟩ => ?_
      by_cases he : b + t.size = lo
      · exact ⟨_, by rw [he, fuse_lo]⟩
      · refine ⟨t', ?_⟩
        rcases ho with ho | ho
        · have := hm.disjoint hb hlo ho
          rw [fuse_outside (by omega) he, ht']
        · rw [fuse_outside (by omega) he, ht']

/-- **Cutting a tile in two** keeps the tiling. -/
theorem cut (hm : Tiled Start Stop least m) (hpos : 0 < least) {lo mid hi : Nat} {tlo : Tile κ} (k k' : κ)
    (hlo : m lo = some tlo) (hhi : lo + tlo.size = hi) (h₁ : lo + least ≤ mid) (h₂ : mid + least ≤ hi) :
    Tiled Start Stop least (cut m lo mid hi k k') := by
  have hout : ∀ {b t}, m b = some t → b ≠ lo → b < lo ∨ hi ≤ b := fun {b t} hb hne => by
    by_cases h : b < lo
    · exact .inl h
    · have := hm.disjoint hlo hb (by omega)
      omega
  refine ⟨fun {b t} hb => ?_, fun {b t b' t'} hb hb' hlt => ?_, fun {b t} hb => ?_, fun {b t} hb => ?_⟩
  · replace hb := cut_eq_some_iff.1 hb
    obtain ⟨rfl, rfl⟩ | ⟨-, rfl, rfl⟩ | ⟨-, -, hb⟩ := hb
    · simp only
      omega
    · simp only
      omega
    · exact hm.least_le hb
  · replace hb := cut_eq_some_iff.1 hb
    obtain ⟨rfl, rfl⟩ | ⟨-, rfl, rfl⟩ | ⟨-, hne, hb⟩ := hb
    · replace hb' := cut_eq_some_iff.1 hb'
      obtain ⟨rfl, rfl⟩ | ⟨-, rfl, rfl⟩ | ⟨-, hne', hb'⟩ := hb'
      · omega
      · omega
      · have := hout hb' hne'
        simp only
        omega
    · replace hb' := cut_eq_some_iff.1 hb'
      obtain ⟨rfl, rfl⟩ | ⟨-, rfl, rfl⟩ | ⟨-, hne', hb'⟩ := hb'
      · simp only
        omega
      · omega
      · have := hout hb' hne'
        simp only
        omega
    · have := hout hb hne
      replace hb' := cut_eq_some_iff.1 hb'
      obtain ⟨rfl, rfl⟩ | ⟨-, rfl, rfl⟩ | ⟨-, hne', hb'⟩ := hb'
      · have := hm.disjoint hb hlo (by omega)
        omega
      · exact hm.disjoint hb hlo hlt
      · exact hm.disjoint hb hb' hlt
  · replace hb := cut_eq_some_iff.1 hb
    obtain ⟨rfl, rfl⟩ | ⟨-, rfl, rfl⟩ | ⟨-, hne, hb⟩ := hb
    · exact .inr ⟨lo, _, cut_lo (by omega), by simp only; omega⟩
    · refine (hm.prev hlo).imp_right fun ⟨b', t', hb', he⟩ => ⟨b', t', ?_, he⟩
      have := hm.least_le hb'
      rw [cut_other (by omega) (by omega), hb']
    · refine (hm.prev hb).imp_right fun ⟨b', t', hb', he⟩ => ?_
      by_cases hb'lo : b' = lo
      · rw [hb'lo, hlo] at hb'
        cases hb'
        exact ⟨mid, _, cut_mid, by simp only; omega⟩
      · have := hout hb' hb'lo
        exact ⟨b', t', by rw [cut_other hb'lo (by omega), hb'], he⟩
  · replace hb := cut_eq_some_iff.1 hb
    obtain ⟨rfl, rfl⟩ | ⟨-, rfl, rfl⟩ | ⟨-, hne, hb⟩ := hb
    · simp only [show b + (hi - b) = lo + tlo.size by omega]
      refine (hm.next hlo).imp_right fun ⟨t', ht'⟩ => ⟨t', ?_⟩
      rw [cut_other (by omega) (by omega), ht']
    · exact .inr ⟨⟨hi - mid, k'⟩, by rw [show b + (mid - b) = mid by omega, cut_mid]⟩
    · refine (hm.next hb).imp_right fun ⟨t', ht'⟩ => ?_
      by_cases he : b + t.size = lo
      · exact ⟨_, by rw [he, cut_lo (by omega)]⟩
      · have := hout ht' he
        exact ⟨t', by rw [cut_other he (by omega), ht']⟩

/-- A new interval, away from all tiles, is one new tile. -/
theorem add (hm : Tiled Start Stop least m) {Start' Stop' : Nat → Prop} {lo hi : Nat} (k : κ) (hle : lo + least ≤ hi)
    (hStart : ∀ b, Start b → Start' b) (hStop : ∀ b, Stop b → Stop' b) (hlo : Start' lo) (hhi : Stop' hi)
    (hout : ∀ {b t}, m b = some t → b + t.size < lo ∨ hi < b) :
    Tiled Start' Stop' least (Function.update m lo (some ⟨hi - lo, k⟩)) := by
  have hnone : m lo = none := by
    by_contra h
    obtain ⟨t, ht⟩ := Option.ne_none_iff_exists'.1 h
    have := hout ht
    omega
  have hcases : ∀ {b t}, Function.update m lo (some ⟨hi - lo, k⟩) b = some t →
      (b = lo ∧ t = ⟨hi - lo, k⟩) ∨ (b ≠ lo ∧ m b = some t) := fun {b t} h => by
    by_cases hb : b = lo
    · rw [hb, Function.update_self] at h
      exact .inl ⟨hb, (Option.some.inj h).symm⟩
    · rw [Function.update_of_ne hb] at h
      exact .inr ⟨hb, h⟩
  refine ⟨fun {b t} hb => ?_, fun {b t b' t'} hb hb' hlt => ?_, fun {b t} hb => ?_, fun {b t} hb => ?_⟩
  · replace hb := hcases hb
    obtain ⟨rfl, rfl⟩ | ⟨-, hb⟩ := hb
    · simp only
      omega
    · exact hm.least_le hb
  · replace hb := hcases hb
    obtain ⟨rfl, rfl⟩ | ⟨-, hb⟩ := hb
    · replace hb' := hcases hb'
      obtain ⟨rfl, rfl⟩ | ⟨-, hb'⟩ := hb'
      · omega
      · have := hout hb'
        simp only
        omega
    · replace hb' := hcases hb'
      obtain ⟨rfl, rfl⟩ | ⟨-, hb'⟩ := hb'
      · have := hout hb
        omega
      · exact hm.disjoint hb hb' hlt
  · replace hb := hcases hb
    obtain ⟨rfl, rfl⟩ | ⟨hne, hb⟩ := hb
    · exact .inl hlo
    · refine (hm.prev hb).imp (hStart _) fun ⟨b', t', hb', he⟩ => ⟨b', t', ?_, he⟩
      rw [Function.update_of_ne (fun e => by rw [e, hnone] at hb'; cases hb'), hb']
  · replace hb := hcases hb
    obtain ⟨rfl, rfl⟩ | ⟨hne, hb⟩ := hb
    · simp only [show b + (hi - b) = hi by omega]
      exact .inl hhi
    · refine (hm.next hb).imp (hStop _) fun ⟨t', ht'⟩ => ⟨t', ?_⟩
      rw [Function.update_of_ne (fun e => by rw [e, hnone] at ht'; cases ht'), ht']

end Tiled

end Tiling
