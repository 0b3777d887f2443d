import Mathlib.Order.Lattice
import Mathlib.Data.List.Pairwise

/-!
# Step functions by their changes

A step function on a linear order is a value and the list of its changes: points in order, each with the value from
there on (`stepAt`). If every entry `Changes` the value, the function determines the list (`Changes.eq_of_stepAt`).
`combine` walks over the changes of two functions and yields those of a function of both (`stepAt_combine`,
`changes_combine`).

A set of finitely many half-open intervals is a step function to `Bool`, whose changes are given by their points alone
(`toggles`).
-/

namespace StepFunction

variable {α β γ δ : Type*} [LinearOrder α]

/-- The value at `x` of the function with the value `d` in front of the changes. -/
def stepAt (d : β) : List (α × β) → α → β
  | [], _ => d
  | (a, v) :: l, x => if x < a then d else stepAt v l x

/-- The value behind the changes. -/
def finalValue (d : β) : List (α × β) → β
  | [] => d
  | (_, v) :: l => finalValue v l

/-- The points are in order. -/
def Ordered (l : List (α × β)) : Prop := l.Pairwise fun p q => p.1 < q.1

/-- Every entry changes the value. -/
def Alternates (d : β) : List (α × β) → Prop
  | [] => True
  | (_, v) :: l => v ≠ d ∧ Alternates v l

/-- The changes of a function. -/
structure Changes (d : β) (l : List (α × β)) : Prop where
  ordered : Ordered l
  alternates : Alternates d l

section Steps

variable {d v : β} {a x : α} {l l' : List (α × β)}

theorem changes_nil (d : β) : Changes d ([] : List (α × β)) := ⟨.nil, trivial⟩

theorem changes_cons : Changes d ((a, v) :: l) ↔ v ≠ d ∧ (∀ p ∈ l, a < p.1) ∧ Changes v l := by
  constructor
  · rintro ⟨hordered, hne, halternates⟩
    obtain ⟨hlt, hl⟩ := List.pairwise_cons.1 hordered
    exact ⟨hne, hlt, hl, halternates⟩
  · rintro ⟨hne, hlt, hl⟩
    exact ⟨List.pairwise_cons.2 ⟨hlt, hl.ordered⟩, hne, hl.alternates⟩

theorem stepAt_of_lt (h : ∀ p ∈ l, x < p.1) : stepAt d l x = d := by
  cases l with
  | nil => rfl
  | cons p l => exact if_pos (h p (List.mem_cons_self ..))

theorem stepAt_cons_of_le (h : a ≤ x) : stepAt d ((a, v) :: l) x = stepAt v l x := if_neg (not_lt.2 h)

theorem stepAt_of_le (h : ∀ p ∈ l, p.1 ≤ x) : stepAt d l x = finalValue d l := by
  induction l generalizing d with
  | nil => rfl
  | cons p l ih =>
    rw [List.forall_mem_cons] at h
    exact (stepAt_cons_of_le h.1).trans (ih h.2)

omit [LinearOrder α] in
theorem finalValue_append (d : β) (l l' : List (α × β)) : finalValue d (l ++ l') = finalValue (finalValue d l) l' := by
  induction l generalizing d with
  | nil => rfl
  | cons p l ih => exact ih p.2

omit [LinearOrder α] in
theorem alternates_append (d : β) (l l' : List (α × β)) :
    Alternates d (l ++ l') ↔ Alternates d l ∧ Alternates (finalValue d l) l' := by
  induction l generalizing d with
  | nil => exact (and_iff_right trivial).symm
  | cons p l ih => exact (and_congr_right fun _ => ih p.2).trans (and_assoc (a := p.2 ≠ d)).symm

/-- In front of the last change. -/
theorem stepAt_append_of_lt {l l' : List (α × β)} (h : ∀ p ∈ l', x < p.1) : stepAt d (l ++ l') x = stepAt d l x := by
  induction l generalizing d with
  | nil => exact stepAt_of_lt h
  | cons p l ih =>
    by_cases hx : x < p.1
    · exact (if_pos hx).trans (if_pos hx).symm
    · exact (if_neg hx).trans (ih.trans (if_neg hx).symm)

/-- A value other than that in front is the value of an entry. -/
theorem stepAt_mem (d : β) (l : List (α × β)) (x : α) : stepAt d l x = d ∨ ∃ p ∈ l, stepAt d l x = p.2 := by
  induction l generalizing d with
  | nil => exact Or.inl rfl
  | cons p l ih =>
    by_cases h : x < p.1
    · exact Or.inl (if_pos h)
    · rw [show stepAt d (p :: l) x = stepAt p.2 l x from if_neg h]
      rcases ih p.2 with heq | ⟨q, hq, heq⟩
      · exact Or.inr ⟨p, List.mem_cons_self .., heq⟩
      · exact Or.inr ⟨q, List.mem_cons_of_mem _ hq, heq⟩

/-- The value of an entry is taken at its point. -/
theorem Ordered.stepAt_eq {p : α × β} (h : Ordered l) (hp : p ∈ l) : stepAt d l p.1 = p.2 := by
  induction l generalizing d with
  | nil => cases hp
  | cons q l ih =>
    obtain ⟨hlt, hl⟩ := List.pairwise_cons.1 h
    rcases List.mem_cons.1 hp with rfl | hp
    · exact (stepAt_cons_of_le le_rfl).trans (stepAt_of_lt hlt)
    · exact (stepAt_cons_of_le (hlt p hp).le).trans (ih hl hp)

/-- **A step function determines its changes.** -/
theorem Changes.eq_of_stepAt (hl : Changes d l) (hl' : Changes d l') (h : ∀ x, stepAt d l x = stepAt d l' x) :
    l = l' := by
  have hfirst : ∀ {d : β} {a : α} {v : β} {l l' : List (α × β)}, v ≠ d → (∀ p ∈ l, a < p.1) → (∀ p ∈ l', a < p.1) →
      stepAt d ((a, v) :: l) a ≠ stepAt d l' a := by
    intro d a v l l' hne hlt hlt'
    rwa [stepAt_cons_of_le le_rfl, stepAt_of_lt hlt, stepAt_of_lt hlt']
  induction l generalizing d l' with
  | nil =>
    cases l' with
    | nil => rfl
    | cons q l' =>
      obtain ⟨hne, hlt, -⟩ := changes_cons.1 hl'
      exact absurd (h q.1).symm (hfirst hne hlt (by simp))
  | cons p l ih =>
    obtain ⟨hne, hlt, hl⟩ := changes_cons.1 hl
    cases l' with
    | nil => exact absurd (h p.1) (hfirst hne hlt (by simp))
    | cons q l' =>
      obtain ⟨hne', hlt', hl'⟩ := changes_cons.1 hl'
      have hpoint : p.1 = q.1 := by
        rcases lt_trichotomy p.1 q.1 with hpq | hpq | hpq
        · exact absurd (h p.1) (hfirst hne hlt (List.forall_mem_cons.2 ⟨hpq, fun r hr => hpq.trans (hlt' r hr)⟩))
        · exact hpq
        · exact absurd (h q.1).symm
            (hfirst hne' hlt' (List.forall_mem_cons.2 ⟨hpq, fun r hr => hpq.trans (hlt r hr)⟩))
      have hvalue : p.2 = q.2 := by
        have hp := h p.1
        rw [stepAt_cons_of_le le_rfl, stepAt_of_lt hlt, stepAt_cons_of_le hpoint.ge,
          stepAt_of_lt (by rwa [hpoint])] at hp
        exact hp
      have hrest : l = l' := by
        refine ih hl (hvalue ▸ hl') fun x => ?_
        by_cases hx : x < p.1
        · rw [stepAt_of_lt fun r hr => hx.trans (hlt r hr), hvalue,
            stepAt_of_lt fun r hr => (hpoint ▸ hx : x < q.1).trans (hlt' r hr)]
        · have hp := h x
          rw [stepAt_cons_of_le (not_lt.1 hx), stepAt_cons_of_le (hpoint ▸ not_lt.1 hx)] at hp
          rwa [hvalue] at hp ⊢
      rw [hrest, Prod.ext hpoint hvalue]

/-! ### Images -/

variable {β' : Type*} {e : α → α} {g : β → β'}

/-- A function whose points and values are mapped. -/
theorem stepAt_map (he : ∀ a b, e a < e b ↔ a < b) (g : β → β') (d : β) (l : List (α × β)) (x : α) :
    stepAt (g d) (l.map (Prod.map e g)) (e x) = g (stepAt d l x) := by
  induction l generalizing d with
  | nil => rfl
  | cons p l ih => simp only [List.map_cons, Prod.map, stepAt, he, ih, apply_ite g]

omit [LinearOrder α] in
theorem finalValue_map (e : α → α) (g : β → β') (d : β) (l : List (α × β)) :
    finalValue (g d) (l.map (Prod.map e g)) = g (finalValue d l) := by
  induction l generalizing d with
  | nil => rfl
  | cons p l ih => exact ih p.2

theorem Changes.map (h : Changes d l) (he : ∀ a b, e a < e b ↔ a < b) (hg : Function.Injective g) :
    Changes (g d) (l.map (Prod.map e g)) := by
  induction l generalizing d with
  | nil => exact changes_nil (g d)
  | cons p l ih =>
    obtain ⟨hne, hlt, hl⟩ := changes_cons.1 h
    refine changes_cons.2 ⟨hg.ne hne, ?_, ih hl⟩
    rw [List.forall_mem_map]
    exact fun q hq => (he _ _).2 (hlt q hq)

end Steps

/-! ## Functions of two functions -/

/-- Induction over a walk along two lists, which steps in one of them or in both. -/
theorem walk_induction {motive : List β → List γ → Prop} (nil_left : ∀ m, motive [] m) (nil_right : ∀ l, motive l [])
    (cons : ∀ p l q m, motive l (q :: m) → motive (p :: l) m → motive l m → motive (p :: l) (q :: m)) (l : List β)
    (m : List γ) : motive l m := by
  induction l generalizing m with
  | nil => exact nil_left m
  | cons p l ihl =>
    induction m with
    | nil => exact nil_right _
    | cons q m ihm => exact cons p l q m (ihl _) ihm (ihl m)

section Combine

variable [DecidableEq δ]

/-- The change to `w'` at `a`, if it is one. -/
def emit (w : δ) (a : α) (w' : δ) (l : List (α × δ)) : List (α × δ) := if w' = w then l else (a, w') :: l

/-- The changes of `f` of two functions. -/
def combine (f : β → γ → δ) (u : β) (v : γ) : List (α × β) → List (α × γ) → List (α × δ)
  | [], [] => []
  | (a, u') :: l, [] => emit (f u v) a (f u' v) (combine f u' v l [])
  | [], (b, v') :: m => emit (f u v) b (f u v') (combine f u v' [] m)
  | (a, u') :: l, (b, v') :: m =>
    if a < b then emit (f u v) a (f u' v) (combine f u' v l ((b, v') :: m))
    else if b < a then emit (f u v) b (f u v') (combine f u v' ((a, u') :: l) m)
    else emit (f u v) a (f u' v') (combine f u' v' l m)
termination_by l m => l.length + m.length

variable {f : β → γ → δ} {u u' : β} {v v' : γ} {w w' : δ} {a b x : α} {l : List (α × β)} {m : List (α × γ)}
  {n : List (α × δ)}

theorem stepAt_emit (h : ∀ p ∈ n, a < p.1) : stepAt w (emit w a w' n) x = if x < a then w else stepAt w' n x := by
  unfold emit
  split
  · rename_i heq
    subst heq
    split
    · rename_i hx
      exact stepAt_of_lt fun p hp => hx.trans (h p hp)
    · rfl
  · rfl

theorem changes_emit (h : ∀ p ∈ n, a < p.1) (hn : Changes w' n) : Changes w (emit w a w' n) := by
  unfold emit
  split
  · rename_i heq
    exact heq ▸ hn
  · rename_i hne
    exact changes_cons.2 ⟨hne, h, hn⟩

omit [LinearOrder α] in
theorem finalValue_emit : finalValue w (emit w a w' n) = finalValue w' n := by
  unfold emit
  split
  · rename_i heq
    rw [heq]
  · rfl

omit [LinearOrder α] in
theorem emit_append : emit w a w' [] ++ n = emit w a w' n := by
  unfold emit
  split <;> rfl

omit [LinearOrder α] in
theorem forall_mem_emit {p : α × δ → Prop} (hhead : p (a, w')) (h : ∀ q ∈ n, p q) : ∀ q ∈ emit w a w' n, p q := by
  unfold emit
  split
  · exact h
  · exact List.forall_mem_cons.2 ⟨hhead, h⟩

/-- The entries of `combine` have points of the functions, and values of `f` at theirs. -/
theorem forall_combine {A : α → Prop} {P : β → Prop} {Q : γ → Prop} {R : δ → Prop}
    (hf : ∀ u v, P u → Q v → R (f u v)) (hu : P u) (hv : Q v) (hl : ∀ p ∈ l, A p.1 ∧ P p.2)
    (hm : ∀ p ∈ m, A p.1 ∧ Q p.2) : ∀ q ∈ combine f u v l m, A q.1 ∧ R q.2 := by
  induction u, v, l, m using combine.induct with
  | case1 u v => simp [combine]
  | case2 u v a u' l ih =>
    obtain ⟨ha, hl⟩ := List.forall_mem_cons.1 hl
    rw [combine]
    exact forall_mem_emit ⟨ha.1, hf _ _ ha.2 hv⟩ (ih ha.2 hv hl hm)
  | case3 u v b v' m ih =>
    obtain ⟨hb, hm⟩ := List.forall_mem_cons.1 hm
    rw [combine]
    exact forall_mem_emit ⟨hb.1, hf _ _ hu hb.2⟩ (ih hu hb.2 hl hm)
  | case4 u v a u' l b v' m hlt ih =>
    obtain ⟨ha, hl⟩ := List.forall_mem_cons.1 hl
    rw [combine, if_pos hlt]
    exact forall_mem_emit ⟨ha.1, hf _ _ ha.2 hv⟩ (ih ha.2 hv hl hm)
  | case5 u v a u' l b v' m hle hlt ih =>
    obtain ⟨hb, hm⟩ := List.forall_mem_cons.1 hm
    rw [combine, if_neg hle, if_pos hlt]
    exact forall_mem_emit ⟨hb.1, hf _ _ hu hb.2⟩ (ih hu hb.2 hl hm)
  | case6 u v a u' l b v' m hle hge ih =>
    obtain ⟨ha, hl⟩ := List.forall_mem_cons.1 hl
    obtain ⟨hb, hm⟩ := List.forall_mem_cons.1 hm
    rw [combine, if_neg hle, if_neg hge]
    exact forall_mem_emit ⟨ha.1, hf _ _ ha.2 hb.2⟩ (ih ha.2 hb.2 hl hm)

theorem combine_points {A : α → Prop} (hl : ∀ p ∈ l, A p.1) (hm : ∀ p ∈ m, A p.1) :
    ∀ q ∈ combine f u v l m, A q.1 := by
  have h : ∀ q ∈ combine f u v l m, A q.1 ∧ True :=
    forall_combine (P := fun _ => True) (Q := fun _ => True) (R := fun _ => True) (fun _ _ _ _ => trivial) trivial
      trivial (fun p hp => ⟨hl p hp, trivial⟩) fun p hp => ⟨hm p hp, trivial⟩
  exact fun q hq => (h q hq).1

/-- **The combined function**, and that its changes are changes. -/
theorem combine_spec (hl : Ordered l) (hm : Ordered m) :
    Changes (f u v) (combine f u v l m) ∧
      (∀ x, stepAt (f u v) (combine f u v l m) x = f (stepAt u l x) (stepAt v m x)) ∧
      finalValue (f u v) (combine f u v l m) = f (finalValue u l) (finalValue v m) := by
  induction u, v, l, m using combine.induct with
  | case1 u v => exact ⟨by simp [combine, changes_nil], fun x => by simp [combine, stepAt], by simp [combine, finalValue]⟩
  | case2 u v a u' l ih =>
    obtain ⟨hlt, hl⟩ := List.pairwise_cons.1 hl
    obtain ⟨hchanges, hstep, hfinal⟩ := ih hl hm
    have hpoints := combine_points (f := f) (u := u') (v := v) hlt (m := []) (by simp)
    rw [combine]
    refine ⟨changes_emit hpoints hchanges, fun x => ?_, finalValue_emit.trans hfinal⟩
    rw [stepAt_emit hpoints, hstep]
    by_cases hx : x < a <;> simp [stepAt, hx]
  | case3 u v b v' m ih =>
    obtain ⟨hlt, hm⟩ := List.pairwise_cons.1 hm
    obtain ⟨hchanges, hstep, hfinal⟩ := ih hl hm
    have hpoints := combine_points (f := f) (u := u) (v := v') (l := []) (by simp) hlt
    rw [combine]
    refine ⟨changes_emit hpoints hchanges, fun x => ?_, finalValue_emit.trans hfinal⟩
    rw [stepAt_emit hpoints, hstep]
    by_cases hx : x < b <;> simp [stepAt, hx]
  | case4 u v a u' l b v' m hab ih =>
    obtain ⟨hlt, hl⟩ := List.pairwise_cons.1 hl
    obtain ⟨hchanges, hstep, hfinal⟩ := ih hl hm
    have hbm : ∀ p ∈ (b, v') :: m, a < p.1 :=
      List.forall_mem_cons.2 ⟨hab, fun p hp => hab.trans ((List.pairwise_cons.1 hm).1 p hp)⟩
    have hpoints := combine_points (f := f) (u := u') (v := v) hlt hbm
    rw [combine, if_pos hab]
    refine ⟨changes_emit hpoints hchanges, fun x => ?_, finalValue_emit.trans hfinal⟩
    rw [stepAt_emit hpoints, hstep]
    by_cases hx : x < a
    · rw [if_pos hx, stepAt_of_lt fun p hp => hx.trans (hbm p hp), show stepAt u ((a, u') :: l) x = u from if_pos hx]
    · rw [if_neg hx, stepAt_cons_of_le (not_lt.1 hx)]
  | case5 u v a u' l b v' m hle hba ih =>
    obtain ⟨hlt, hm⟩ := List.pairwise_cons.1 hm
    obtain ⟨hchanges, hstep, hfinal⟩ := ih hl hm
    have hal : ∀ p ∈ (a, u') :: l, b < p.1 :=
      List.forall_mem_cons.2 ⟨hba, fun p hp => hba.trans ((List.pairwise_cons.1 hl).1 p hp)⟩
    have hpoints := combine_points (f := f) (u := u) (v := v') hal hlt
    rw [combine, if_neg hle, if_pos hba]
    refine ⟨changes_emit hpoints hchanges, fun x => ?_, finalValue_emit.trans hfinal⟩
    rw [stepAt_emit hpoints, hstep]
    by_cases hx : x < b
    · rw [if_pos hx, stepAt_of_lt fun p hp => hx.trans (hal p hp), show stepAt v ((b, v') :: m) x = v from if_pos hx]
    · rw [if_neg hx, stepAt_cons_of_le (a := b) (not_lt.1 hx)]
  | case6 u v a u' l b v' m hle hge ih =>
    obtain rfl : a = b := le_antisymm (not_lt.1 hge) (not_lt.1 hle)
    obtain ⟨hlt, hl⟩ := List.pairwise_cons.1 hl
    obtain ⟨hlt', hm⟩ := List.pairwise_cons.1 hm
    obtain ⟨hchanges, hstep, hfinal⟩ := ih hl hm
    have hpoints := combine_points (f := f) (u := u') (v := v') hlt hlt'
    rw [combine, if_neg hle, if_neg hge]
    refine ⟨changes_emit hpoints hchanges, fun x => ?_, finalValue_emit.trans hfinal⟩
    rw [stepAt_emit hpoints, hstep]
    by_cases hx : x < a <;> simp [stepAt, hx]

/-- Changes stay where `f` is the value of the first function. -/
theorem combine_nil_right {f : β → γ → β} [DecidableEq β] {l : List (α × β)} (h : ∀ u, f u v = u) (hl : Alternates u l) :
    combine f u v l [] = l := by
  induction l generalizing u with
  | nil => simp [combine]
  | cons p l ih =>
    obtain ⟨a, u'⟩ := p
    rw [combine, h, h, emit, if_neg hl.1, ih hl.2]

theorem combine_nil_left {f : β → γ → γ} [DecidableEq γ] {m : List (α × γ)} (h : ∀ v, f u v = v) (hm : Alternates v m) :
    combine f u v [] m = m := by
  induction m generalizing v with
  | nil => simp [combine]
  | cons p m ih =>
    obtain ⟨b, v'⟩ := p
    rw [combine, h, h, emit, if_neg hm.1, ih hm.2]

/-- Where `f` does not depend on a function it has no changes. -/
theorem combine_nil_right_of_const (h : ∀ u, f u v = w) (l : List (α × β)) : combine f u v l [] = [] := by
  induction l generalizing u with
  | nil => simp [combine]
  | cons p l ih =>
    obtain ⟨a, u'⟩ := p
    rw [combine, h, h, emit, if_pos rfl, ih]

theorem combine_nil_left_of_const (h : ∀ v, f u v = w) (m : List (α × γ)) : combine f u v [] m = [] := by
  induction m generalizing v with
  | nil => simp [combine]
  | cons p m ih =>
    obtain ⟨b, v'⟩ := p
    rw [combine, h, h, emit, if_pos rfl, ih]

end Combine

/-! ## Sets of intervals -/

/-- The changes at points that enter and leave a set in turn. -/
def toggles (p : Bool) : List α → List (α × Bool)
  | [] => []
  | a :: s => (a, !p) :: toggles (!p) s

/-- The set whose boundary is the points. -/
def covers (s : List α) (x : α) : Bool := stepAt false (toggles false s) x

/-- A boundary: the points are in order, and the last one leaves the set. -/
structure Boundary (s : List α) : Prop where
  ordered : s.Pairwise (· < ·)
  final : finalValue false (toggles false s) = false

section Toggles

variable {p : Bool} {s s' : List α} {a x : α}

omit [LinearOrder α] in
theorem alternates_toggles (p : Bool) (s : List α) : Alternates p (toggles p s) := by
  induction s generalizing p with
  | nil => trivial
  | cons a s ih => exact ⟨by simp, ih (!p)⟩

omit [LinearOrder α] in
theorem toggles_injective (p : Bool) (h : toggles p s = toggles p s') : s = s' := by
  induction s generalizing p s' with
  | nil => cases s' with
    | nil => rfl
    | cons a s' => cases h
  | cons a s ih => cases s' with
    | nil => cases h
    | cons a' s' =>
      simp only [toggles, List.cons.injEq, Prod.mk.injEq, and_true] at h
      rw [h.1, ih (!p) h.2]

omit [LinearOrder α] in
/-- What holds of the points holds of the changes. -/
theorem forall_toggles {A : α → Prop} : (∀ q ∈ toggles p s, A q.1) ↔ ∀ a ∈ s, A a := by
  induction s generalizing p with
  | nil => simp [toggles]
  | cons a s ih => simp only [toggles, List.forall_mem_cons, ih]

theorem ordered_toggles : Ordered (toggles p s) ↔ s.Pairwise (· < ·) := by
  induction s generalizing p with
  | nil => simp [toggles, Ordered]
  | cons a s ih =>
    rw [List.pairwise_cons, ← ih (p := !p), ← forall_toggles (p := !p)]
    exact List.pairwise_cons

theorem Boundary.changes (h : Boundary s) : Changes false (toggles false s) :=
  ⟨ordered_toggles.2 h.ordered, alternates_toggles false s⟩

omit [LinearOrder α] in
theorem toggles_map (e : α → α) (p : Bool) (s : List α) : toggles p (s.map e) = (toggles p s).map (Prod.map e id) := by
  induction s generalizing p with
  | nil => rfl
  | cons a s ih => exact congrArg ((e a, !p) :: ·) (ih (!p))

/-- The image of a set. -/
theorem covers_map {e : α → α} (he : ∀ a b, e a < e b ↔ a < b) (s : List α) (x : α) :
    covers (s.map e) (e x) = covers s x := by
  rw [covers, toggles_map]
  exact stepAt_map he id false (toggles false s) x

theorem Boundary.map {e : α → α} (h : Boundary s) (he : ∀ a b, e a < e b ↔ a < b) : Boundary (s.map e) := by
  refine ⟨h.ordered.map e fun a b hab => (he a b).2 hab, ?_⟩
  rw [toggles_map]
  exact (finalValue_map e id false (toggles false s)).trans h.final

theorem boundary_nil : Boundary ([] : List α) := ⟨.nil, rfl⟩

/-- **A set determines its boundary.** -/
theorem Boundary.eq_of_covers (hs : Boundary s) (hs' : Boundary s') (h : ∀ x, covers s x = covers s' x) : s = s' :=
  toggles_injective false (hs.changes.eq_of_stepAt hs'.changes h)

/-- The interval in front of the rest of a set. -/
theorem covers_cons_cons {b : α} (x : α) :
    covers (a :: b :: s) x = if x < a then false else if x < b then true else covers s x :=
  rfl

theorem boundary_cons_cons {b : α} : Boundary (a :: b :: s) ↔ a < b ∧ (∀ c ∈ s, b < c) ∧ Boundary s := by
  constructor
  · rintro ⟨hordered, hfinal⟩
    obtain ⟨ha, hordered⟩ := List.pairwise_cons.1 hordered
    obtain ⟨hb, hordered⟩ := List.pairwise_cons.1 hordered
    exact ⟨ha b (List.mem_cons_self ..), hb, hordered, hfinal⟩
  · rintro ⟨hab, hb, hordered, hfinal⟩
    refine ⟨List.pairwise_cons.2 ⟨List.forall_mem_cons.2 ⟨hab, fun c hc => hab.trans (hb c hc)⟩, ?_⟩, hfinal⟩
    exact List.pairwise_cons.2 ⟨hb, hordered⟩

theorem not_boundary_singleton (a : α) : ¬Boundary [a] := fun h => by cases h.final

theorem Boundary.induction {motive : List α → Prop} (nil : motive [])
    (cons : ∀ a b s, a < b → (∀ c ∈ s, b < c) → Boundary s → motive s → motive (a :: b :: s)) :
    ∀ {s : List α}, Boundary s → motive s
  | [], _ => nil
  | [a], h => absurd h (not_boundary_singleton a)
  | a :: b :: s, h =>
    let ⟨hab, hb, hs⟩ := boundary_cons_cons.1 h
    cons a b s hab hb hs (Boundary.induction nil cons hs)

theorem Boundary.walk_induction {motive : List α → List α → Prop} (nil_left : ∀ t, Boundary t → motive [] t)
    (nil_right : ∀ s, Boundary s → motive s [])
    (cons : ∀ a a' s b b' t, Boundary (a :: a' :: s) → Boundary (b :: b' :: t) → motive s (b :: b' :: t) →
      motive (a :: a' :: s) t → motive s t → motive (a :: a' :: s) (b :: b' :: t))
    {s t : List α} (hs : Boundary s) (ht : Boundary t) : motive s t := by
  refine Boundary.induction (motive := fun s => ∀ t, Boundary t → motive s t) nil_left ?_ hs t ht
  intro a a' s haa' hs' hs ihs t ht
  have has : Boundary (a :: a' :: s) := boundary_cons_cons.2 ⟨haa', hs', hs⟩
  refine Boundary.induction (motive := fun t => motive (a :: a' :: s) t) (nil_right _ has) ?_ ht
  intro b b' t hbb' ht' ht iht
  have hbt : Boundary (b :: b' :: t) := boundary_cons_cons.2 ⟨hbb', ht', ht⟩
  exact cons a a' s b b' t has hbt (ihs _ hbt) iht (ihs t ht)

/-- In front of the first point nothing is in the set. -/
theorem covers_of_lt (h : ∀ a ∈ s, x < a) : covers s x = false :=
  stepAt_of_lt fun q hq => forall_toggles.2 h q hq

/-- **A set with a boundary has a point.** -/
theorem Boundary.exists_covers (h : Boundary s) (hne : s ≠ []) : ∃ x, covers s x = true := by
  match s, h with
  | [], _ => exact absurd rfl hne
  | [a], h => exact absurd h (not_boundary_singleton a)
  | a :: b :: s, h =>
    obtain ⟨hab, -, -⟩ := boundary_cons_cons.1 h
    exact ⟨a, by rw [covers_cons_cons, if_neg (lt_irrefl a), if_pos hab]⟩

end Toggles

end StepFunction
