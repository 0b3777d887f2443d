import Mathlib.Logic.Relation
import Mathlib.Tactic.Common

/-!
# Natural loops of a flow graph

A flow graph is a relation `Edge` with an `entry`. `Avoids Edge h x y` is a path from `x` to `y` on which `h` is not, its
ends included, and `h` dominates `x` if no path from the entry to `x` avoids `h`. A back edge goes to a vertex that
dominates its source. The natural loop of `h` is `h` with the vertices from which the source of a back edge to `h` is
reached without passing `h`.

All vertices are reachable in what follows. Then `h` dominates its loop (`Dominates.of_mem_loop`), and two loops with
different headers that share a vertex are strictly nested (`loop_nested`).
-/

namespace WebKit.Lib

variable {V : Type*} (Edge : V → V → Prop) (entry : V)

/-- The edges that neither leave nor enter `h`. -/
def EdgeAvoiding (h x y : V) : Prop := Edge x y ∧ x ≠ h ∧ y ≠ h

/-- There is a path from `x` to `y` that `h` is not on. -/
def Avoids (h x y : V) : Prop := x ≠ h ∧ Relation.ReflTransGen (EdgeAvoiding Edge h) x y

/-- Every path from the entry to `x` passes `h`. -/
def Dominates (h x : V) : Prop := ¬ Avoids Edge h entry x

/-- The target of the edge dominates its source. -/
def BackEdge (x h : V) : Prop := Edge x h ∧ Dominates Edge entry h x

/-- The header and what reaches a back edge to it without passing it. -/
def MemLoop (h x : V) : Prop := x = h ∨ ∃ a, BackEdge Edge entry a h ∧ Avoids Edge h x a

variable {Edge entry} {h g x y z a : V}

namespace Avoids

theorem refl (hx : x ≠ h) : Avoids Edge h x x := ⟨hx, .refl⟩

theorem ne_right (p : Avoids Edge h x y) : y ≠ h := by
  obtain ⟨hx, hpath⟩ := p
  cases hpath with
  | refl => exact hx
  | tail _ hlast => exact hlast.2.2

theorem trans (p : Avoids Edge h x y) (q : Avoids Edge h y z) : Avoids Edge h x z := ⟨p.1, p.2.trans q.2⟩

theorem tail (p : Avoids Edge h x y) (hyz : Edge y z) (hz : z ≠ h) : Avoids Edge h x z :=
  ⟨p.1, p.2.tail ⟨hyz, p.ne_right, hz⟩⟩

theorem head (hxy : Edge x y) (hx : x ≠ h) (p : Avoids Edge h y z) : Avoids Edge h x z :=
  ⟨hx, .head ⟨hxy, hx, p.1⟩ p.2⟩

theorem avoids_or (p : Avoids Edge h x y) : Avoids Edge g x y ∨ Avoids Edge h g y := by
  obtain ⟨hx, hpath⟩ := p
  induction hpath with
  | refl =>
    by_cases hxg : x = g
    · exact .inr (hxg ▸ refl hx)
    · exact .inl (refl hxg)
  | @tail y z _ hlast ih =>
    by_cases hzg : z = g
    · exact .inr (hzg ▸ refl hlast.2.2)
    · rcases ih with ih | ih
      · exact .inl (ih.tail hlast.1 hzg)
      · exact .inr (ih.tail hlast.1 hlast.2.2)

end Avoids

theorem Dominates.of_mem_loop (hx : MemLoop Edge entry h x) : Dominates Edge entry h x := by
  rcases hx with rfl | ⟨a, hback, hpath⟩
  · exact fun p => p.ne_right rfl
  · exact fun p => hback.2 (p.trans hpath)

theorem last_of_two (hgh : g ≠ h) (hpath : Relation.ReflTransGen Edge entry x) :
    (Avoids Edge g entry x ∧ Avoids Edge h entry x) ∨ Avoids Edge h g x ∨ Avoids Edge g h x := by
  induction hpath with
  | refl =>
    by_cases hg : entry = g
    · exact .inr (.inl (hg ▸ Avoids.refl (hg ▸ hgh)))
    · by_cases hh : entry = h
      · exact .inr (.inr (hh ▸ Avoids.refl (hh ▸ hgh.symm)))
      · exact .inl ⟨Avoids.refl hg, Avoids.refl hh⟩
  | @tail y z _ hlast ih =>
    by_cases hg : z = g
    · exact .inr (.inl (hg ▸ Avoids.refl (hg ▸ hgh)))
    · by_cases hh : z = h
      · exact .inr (.inr (hh ▸ Avoids.refl (hh ▸ hgh.symm)))
      · rcases ih with ⟨ihg, ihh⟩ | ih | ih
        · exact .inl ⟨ihg.tail hlast hg, ihh.tail hlast hh⟩
        · exact .inr (.inl (ih.tail hlast hh))
        · exact .inr (.inr (ih.tail hlast hg))

theorem first_of_two (hgh : g ≠ h) (hpath : Relation.ReflTransGen Edge entry x) :
    (Avoids Edge g entry x ∧ Avoids Edge h entry x) ∨ Avoids Edge h entry g ∨ Avoids Edge g entry h := by
  induction hpath with
  | refl =>
    by_cases hg : entry = g
    · exact .inr (.inl (hg ▸ Avoids.refl (hg ▸ hgh)))
    · by_cases hh : entry = h
      · exact .inr (.inr (hh ▸ Avoids.refl (hh ▸ hgh.symm)))
      · exact .inl ⟨Avoids.refl hg, Avoids.refl hh⟩
  | @tail y z _ hlast ih =>
    rcases ih with ⟨ihg, ihh⟩ | ih | ih
    · by_cases hg : z = g
      · exact .inr (.inl (hg ▸ ihh.tail hlast (hg ▸ hgh)))
      · by_cases hh : z = h
        · exact .inr (.inr (hh ▸ ihg.tail hlast (hh ▸ hgh.symm)))
        · exact .inl ⟨ihg.tail hlast hg, ihh.tail hlast hh⟩
    · exact .inr (.inl ih)
    · exact .inr (.inr ih)

theorem loop_subset (hgh : g ≠ h) (hreach : Relation.ReflTransGen Edge entry x) (hxg : MemLoop Edge entry g x)
    (hxh : MemLoop Edge entry h x) (hg : Avoids Edge h entry g) :
    (∀ y, MemLoop Edge entry h y → MemLoop Edge entry g y) ∧ ¬ MemLoop Edge entry h g := by
  have hout : ¬ MemLoop Edge entry h g := fun hin => Dominates.of_mem_loop hin hg
  -- a path from `h` to the shared vertex avoids `g`
  have hhx : Avoids Edge g h x := by
    rcases last_of_two hgh hreach with ⟨hfree, -⟩ | hlast | hlast
    · exact absurd hfree (Dominates.of_mem_loop hxg)
    · exact absurd (hg.trans hlast) (Dominates.of_mem_loop hxh)
    · exact hlast
  obtain ⟨a, haback, hxa⟩ : ∃ a, BackEdge Edge entry a g ∧ Avoids Edge g x a := by
    rcases hxg with rfl | hxg
    · exact absurd hxh hout
    · exact hxg
  refine ⟨fun y hy => ?_, hout⟩
  rcases hy with rfl | ⟨b, hbback, hyb⟩
  · exact .inr ⟨a, haback, hhx.trans hxa⟩
  · -- the path from `y` to the back edge avoids `g`, for the entry reaches `g` without `h`
    have hyb' : Avoids Edge g y b := by
      rcases hyb.avoids_or with hfree | hon
      · exact hfree
      · exact absurd (hg.trans hon) hbback.2
    exact .inr ⟨a, haback, (hyb'.tail hbback.1 hgh.symm).trans (hhx.trans hxa)⟩

/-- **Loops that share a vertex are nested**, and the header of the outer one is not in the inner one. -/
theorem loop_nested (hgh : g ≠ h) (hreach : Relation.ReflTransGen Edge entry x) (hxg : MemLoop Edge entry g x)
    (hxh : MemLoop Edge entry h x) :
    ((∀ y, MemLoop Edge entry h y → MemLoop Edge entry g y) ∧ ¬ MemLoop Edge entry h g) ∨
      ((∀ y, MemLoop Edge entry g y → MemLoop Edge entry h y) ∧ ¬ MemLoop Edge entry g h) := by
  rcases first_of_two hgh hreach with ⟨hfree, -⟩ | hg | hh
  · exact absurd hfree (Dominates.of_mem_loop hxg)
  · exact .inl (loop_subset hgh hreach hxg hxh hg)
  · exact .inr (loop_subset hgh.symm hreach hxh hxg hh)

theorem header_of_closed {P : V → Prop} (hreach : Relation.ReflTransGen Edge entry a) (hback : BackEdge Edge entry a h)
    (ha : P a) (hclosed : ∀ x y, Edge x y → P y → y ≠ h → P x) : P h := by
  by_contra hnot
  have hpath : ∀ y, Relation.ReflTransGen Edge y a → P y ∧ Avoids Edge h y a := by
    intro y hy
    induction hy using Relation.ReflTransGen.head_induction_on with
    | refl => exact ⟨ha, Avoids.refl fun heq => hnot (heq ▸ ha)⟩
    | head hxy _ ih =>
      have hx := hclosed _ _ hxy ih.1 ih.2.1
      exact ⟨hx, .head hxy (fun heq => hnot (heq ▸ hx)) ih.2⟩
  exact hback.2 (hpath entry hreach).2

end WebKit.Lib
