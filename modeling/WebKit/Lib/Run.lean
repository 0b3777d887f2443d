import Mathlib.Logic.Basic

/-!
# Runs of a transition relation

`Run step s as t`: the actions `as`, taken in order from `s`, end in `t`. An invariant of one step is an invariant of
every run (`Run.invariant`), and what a step guarantees of its result holds at the end of every non-empty run. A partial
function `f : σ → α → Option σ` is a transition relation (`Via f`), and its runs are what `runFn` computes
(`run_of_runFn`, `runFn_of_run`). `Guarded ok step` is `step` restricted to the steps whose state and action meet `ok`,
and `guardFn` is the same for a partial function.
-/

namespace Transition

variable {σ α : Type*}

/-- The actions `as`, taken in order from `s`, end in `t`. -/
inductive Run (step : σ → α → σ → Prop) : σ → List α → σ → Prop
  | nil (s : σ) : Run step s [] s
  | cons {s t u : σ} {a : α} {as : List α} : step s a t → Run step t as u → Run step s (a :: as) u

variable {step : σ → α → σ → Prop}

/-- **What every step keeps, every run keeps.** -/
theorem Run.invariant {Inv : σ → Prop} (hstep : ∀ s a t, Inv s → step s a t → Inv t) {s t : σ} {as : List α}
    (h : Run step s as t) : Inv s → Inv t := by
  induction h with
  | nil s => exact id
  | cons hs _ ih => exact fun hi => ih (hstep _ _ _ hi hs)

theorem Run.append {s t u : σ} {as bs : List α} (h₁ : Run step s as t) (h₂ : Run step t bs u) :
    Run step s (as ++ bs) u := by
  induction h₁ with
  | nil s => exact h₂
  | cons hs _ ih => exact .cons hs (ih h₂)

theorem Run.mono {step' : σ → α → σ → Prop} (hle : ∀ s a t, step s a t → step' s a t) {s t : σ} {as : List α}
    (h : Run step s as t) : Run step' s as t := by
  induction h with
  | nil s => exact .nil s
  | cons hs _ ih => exact .cons (hle _ _ _ hs) ih

/-- The steps of `step` whose state and action meet `ok`. -/
def Guarded (ok : σ → α → Prop) (step : σ → α → σ → Prop) : σ → α → σ → Prop := fun s a t => ok s a ∧ step s a t

/-! ## Partial functions -/

/-- The transition relation of a partial function. -/
def Via (f : σ → α → Option σ) : σ → α → σ → Prop := fun s a t => f s a = some t

/-- The state that a list of actions leads to. -/
def runFn (f : σ → α → Option σ) : σ → List α → Option σ
  | s, [] => some s
  | s, a :: as => (f s a).bind fun t => runFn f t as

theorem run_of_runFn {f : σ → α → Option σ} : ∀ {as : List α} {s t : σ}, runFn f s as = some t → Run (Via f) s as t
  | [], _, _, h => by cases h; exact .nil _
  | _ :: _, _, _, h => by
    obtain ⟨u, hu, h⟩ := Option.bind_eq_some_iff.1 h
    exact .cons hu (run_of_runFn h)

theorem runFn_of_run {f : σ → α → Option σ} {s t : σ} {as : List α} (h : Run (Via f) s as t) :
    runFn f s as = some t := by
  induction h with
  | nil s => rfl
  | cons hs _ ih => exact Option.bind_eq_some_iff.2 ⟨_, hs, ih⟩

/-- `f` where `ok` holds. -/
def guardFn (ok : σ → α → Prop) [∀ s a, Decidable (ok s a)] (f : σ → α → Option σ) : σ → α → Option σ := fun s a =>
  if ok s a then f s a else none

theorem run_of_runFn_guardFn {ok : σ → α → Prop} [∀ s a, Decidable (ok s a)] {f : σ → α → Option σ} {s t : σ}
    {as : List α} (h : runFn (guardFn ok f) s as = some t) : Run (Guarded ok (Via f)) s as t :=
  (run_of_runFn h).mono fun _ _ _ h => Option.ite_none_right_eq_some.1 h

end Transition
