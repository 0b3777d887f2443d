import WebKit.Lib.Bytes

/-!
# Bytes in groups of six bits

`sextets` regroups the bits of a byte string six at a time, filling the last one up with zeros, and `octets` regroups
sextets as bytes, dropping the bits that are left over.

- `octets` undoes `sextets` (`octets_sextets`, by induction on the groups of three bytes, `groups_induction`);
- the lengths: `length_sextets` and `length_octets`; every sextet is below 64 (`sextets_lt`).
-/

namespace WebKit.Lib

/-- The bits of a byte string, six at a time. -/
def sextets : List UInt8 → List UInt8
  | a :: b :: c :: bytes =>
    UInt8.ofNat (a.toNat / 4) :: UInt8.ofNat (a.toNat % 4 * 16 + b.toNat / 16) ::
      UInt8.ofNat (b.toNat % 16 * 4 + c.toNat / 64) :: UInt8.ofNat (c.toNat % 64) :: sextets bytes
  | [a, b] =>
    [UInt8.ofNat (a.toNat / 4), UInt8.ofNat (a.toNat % 4 * 16 + b.toNat / 16), UInt8.ofNat (b.toNat % 16 * 4)]
  | [a] => [UInt8.ofNat (a.toNat / 4), UInt8.ofNat (a.toNat % 4 * 16)]
  | [] => []

/-- The bytes that four, three or two sextets make up. -/
def octets : List UInt8 → List UInt8
  | s :: t :: u :: v :: rest =>
    UInt8.ofNat (s.toNat * 4 + t.toNat / 16) :: UInt8.ofNat (t.toNat % 16 * 16 + u.toNat / 4) ::
      UInt8.ofNat (u.toNat % 4 * 64 + v.toNat) :: octets rest
  | [s, t, u] => [UInt8.ofNat (s.toNat * 4 + t.toNat / 16), UInt8.ofNat (t.toNat % 16 * 16 + u.toNat / 4)]
  | [s, t] => [UInt8.ofNat (s.toNat * 4 + t.toNat / 16)]
  | _ => []

/-- Induction on the groups of three bytes. -/
@[elab_as_elim] theorem groups_induction {α : Type*} {P : List α → Prop}
    (group : ∀ a b c bytes, P bytes → P (a :: b :: c :: bytes)) (pair : ∀ a b, P [a, b]) (single : ∀ a, P [a])
    (nil : P []) : ∀ bytes, P bytes
  | a :: b :: c :: bytes => group a b c bytes (groups_induction group pair single nil bytes)
  | [a, b] => pair a b
  | [a] => single a
  | [] => nil

theorem length_sextets (bytes : List UInt8) : (sextets bytes).length = (4 * bytes.length + 2) / 3 := by
  induction bytes using groups_induction with
  | group a b c bytes ih =>
    simp only [sextets, List.length_cons, ih]
    omega
  | pair a b => simp [sextets]
  | single a => simp [sextets]
  | nil => simp [sextets]

theorem length_octets (sextets : List UInt8) : (octets sextets).length = 6 * sextets.length / 8 := by
  fun_induction octets sextets with
  | case1 s t u v rest ih =>
    simp only [List.length_cons, ih]
    omega
  | case2 s t u => simp
  | case3 s t => simp
  | case4 rest h₁ h₂ h₃ =>
    match rest with
    | [] => simp
    | [s] => simp
    | [s, t] => exact absurd rfl (h₃ s t)
    | [s, t, u] => exact absurd rfl (h₂ s t u)
    | s :: t :: u :: v :: rest => exact absurd rfl (h₁ s t u v rest)

theorem sextets_lt {bytes : List UInt8} : ∀ s ∈ sextets bytes, s.toNat < 64 := by
  induction bytes using groups_induction with
  | group a b c bytes ih =>
    have ha := a.toNat_lt
    have hb := b.toNat_lt
    have hc := c.toNat_lt
    simp only [sextets, List.forall_mem_cons, UInt8.toNat_ofNat']
    exact ⟨by omega, by omega, by omega, by omega, ih⟩
  | pair a b =>
    have ha := a.toNat_lt
    have hb := b.toNat_lt
    simp only [sextets, List.forall_mem_cons, UInt8.toNat_ofNat', List.not_mem_nil, false_implies, implies_true, and_true]
    exact ⟨by omega, by omega, by omega⟩
  | single a =>
    have ha := a.toNat_lt
    simp only [sextets, List.forall_mem_cons, UInt8.toNat_ofNat', List.not_mem_nil, false_implies, implies_true, and_true]
    exact ⟨by omega, by omega⟩
  | nil => simp [sextets]

/-- **The bytes are made up of their sextets.** -/
theorem octets_sextets (bytes : List UInt8) : octets (sextets bytes) = bytes := by
  induction bytes using groups_induction with
  | group a b c bytes ih =>
    have ha := a.toNat_lt
    have hb := b.toNat_lt
    have hc := c.toNat_lt
    rw [sextets, octets, ih]
    simp only [UInt8.toNat_ofNat']
    rw [ofNat_eq_byte (b := a) (by omega), ofNat_eq_byte (b := b) (by omega), ofNat_eq_byte (b := c) (by omega)]
  | pair a b =>
    have ha := a.toNat_lt
    have hb := b.toNat_lt
    rw [sextets, octets]
    simp only [UInt8.toNat_ofNat']
    rw [ofNat_eq_byte (b := a) (by omega), ofNat_eq_byte (b := b) (by omega)]
  | single a =>
    have ha := a.toNat_lt
    rw [sextets, octets]
    simp only [UInt8.toNat_ofNat']
    rw [ofNat_eq_byte (b := a) (by omega)]
  | nil => rfl

end WebKit.Lib
