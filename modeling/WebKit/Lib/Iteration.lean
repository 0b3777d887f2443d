import Mathlib.Data.List.Pairwise
import Mathlib.Order.Nat
import WebKit.Lib.Run

/-!
# Iterations of a map that changes

The entries of a map are numbered in the order of their insertion. Iterations go on while entries are added and removed:
each visits the first entry that it has not passed. `sound_of_run` says what an iteration is good for in any run: it visits
in the order of insertion, each entry once, passes no entry of the map that it has not visited, and when it ends, it has
visited every entry of the map.
-/

namespace WebKit.Lib

open Transition

/-- An iteration that has passed the entries below `position`, and visits the entry there if `visiting`. The entries in
`visited` are those it has visited, in order. An iteration that has ended knows the number of entries there had been. -/
structure Iteration where
  position : Nat
  visiting : Bool
  visited : List Nat
  ended : Option Nat

structure IteratedMap (κ ν : Type*) where
  entries : List (Nat × κ × ν)
  next : Nat
  iterations : List (Option Iteration)

namespace Iteration

/-- A new iteration. -/
def start : Iteration := { position := 0, visiting := false, visited := [], ended := none }

/-- The iteration visits the entry with this number, which it may be visiting already. -/
def visit (c : Iteration) (n : Nat) : Iteration :=
  if c.visiting = true ∧ c.position = n then c
  else { c with position := n, visiting := true, visited := c.visited ++ [n] }

def advance (c : Iteration) : Iteration := { c with position := c.position + 1, visiting := false }

/-- The entries below were visited. -/
def bound (c : Iteration) : Nat := if c.visiting then c.position + 1 else c.position

theorem position_le_bound (c : Iteration) : c.position ≤ c.bound := by
  rw [bound]
  split_ifs <;> omega

end Iteration

namespace IteratedMap

variable {κ ν : Type*}

def empty : IteratedMap κ ν := { entries := [], next := 0, iterations := [] }

/-- What happens to a map and its iterations. -/
inductive Event (κ ν : Type*)
  | set (key : κ) (value : ν)
  | remove (key : κ)
  | skip
  | create
  | copy (i : Nat)
  | visit (i : Nat) (entry : Option (κ × ν))
  | advance (i : Nat)
  | destroy (i : Nat)

def HasKey (s : IteratedMap κ ν) (key : κ) : Prop := ∃ e ∈ s.entries, e.2.1 = key

section

variable [DecidableEq κ]

/-- The entries with another value for the key. -/
def replace (key : κ) (value : ν) (entries : List (Nat × κ × ν)) : List (Nat × κ × ν) :=
  List.map (fun e => if e.2.1 = key then (e.1, key, value) else e) entries

def erase (key : κ) (entries : List (Nat × κ × ν)) : List (Nat × κ × ν) := List.filter (fun e => e.2.1 ≠ key) entries

/-- The first entry that an iteration has not passed. -/
def firstFrom (entries : List (Nat × κ × ν)) (position : Nat) : Option (Nat × κ × ν) :=
  List.find? (fun e => decide (position ≤ e.1)) entries

/-- One step. After its end, an iteration may do anything. -/
inductive Step (s : IteratedMap κ ν) : Event κ ν → IteratedMap κ ν → Prop
  | replace (key : κ) (value : ν) : s.HasKey key →
      Step s (.set key value) { s with entries := replace key value s.entries }
  | insert (key : κ) (value : ν) : ¬ s.HasKey key →
      Step s (.set key value) { s with entries := s.entries ++ [(s.next, key, value)], next := s.next + 1 }
  | remove (key : κ) : Step s (.remove key) { s with entries := erase key s.entries }
  | skip : Step s .skip s
  | create : Step s .create { s with iterations := s.iterations ++ [some .start] }
  | copy (i : Nat) (c : Iteration) : s.iterations[i]? = some (some c) →
      Step s (.copy i) { s with iterations := s.iterations ++ [some c] }
  | visit (i : Nat) (c : Iteration) (e : Nat × κ × ν) : s.iterations[i]? = some (some c) → c.ended = none →
      firstFrom s.entries c.position = some e →
      Step s (.visit i (some e.2)) { s with iterations := s.iterations.set i (some (c.visit e.1)) }
  | finish (i : Nat) (c : Iteration) : s.iterations[i]? = some (some c) → c.ended = none →
      firstFrom s.entries c.position = none →
      Step s (.visit i none) { s with iterations := s.iterations.set i (some { c with ended := some s.next }) }
  | advance (i : Nat) (c : Iteration) : s.iterations[i]? = some (some c) → c.ended = none → c.visiting = true →
      Step s (.advance i) { s with iterations := s.iterations.set i (some c.advance) }
  | visitEnded (i : Nat) (c : Iteration) (entry : Option (κ × ν)) : s.iterations[i]? = some (some c) → c.ended.isSome →
      Step s (.visit i entry) s
  | advanceEnded (i : Nat) (c : Iteration) : s.iterations[i]? = some (some c) → c.ended.isSome → Step s (.advance i) s
  | destroy (i : Nat) (c : Iteration) : s.iterations[i]? = some (some c) →
      Step s (.destroy i) { s with iterations := s.iterations.set i none }

end

/-! ## What an iteration is good for -/

/-- The iteration has visited each entry at most once, in order, and has passed no entry without visiting it. When it
ended, it had visited every entry of the map. -/
structure Visits (entries : List (Nat × κ × ν)) (next : Nat) (c : Iteration) : Prop where
  inOrder : c.visited.Pairwise (· < ·)
  visited_lt : c.ended = none → ∀ n ∈ c.visited, n < c.bound
  passed : c.ended = none → ∀ e ∈ entries, e.1 < c.bound → e.1 ∈ c.visited
  bound_le : c.ended = none → c.bound ≤ next
  ended_le : ∀ n, c.ended = some n → n ≤ next
  atEnd : ∀ n, c.ended = some n → ∀ e ∈ entries, e.1 < n → e.1 ∈ c.visited

structure Sound (s : IteratedMap κ ν) : Prop where
  numbered : (s.entries.map Prod.fst).Pairwise (· < ·)
  lt_next : ∀ e ∈ s.entries, e.1 < s.next
  visits : ∀ c, some c ∈ s.iterations → Visits s.entries s.next c

variable {s t : IteratedMap κ ν} {entries entries' : List (Nat × κ × ν)} {next next' : Nat} {c : Iteration}

/-- Entries may go, and new ones be added behind the others. -/
theorem Visits.mono (h : Visits entries next c) (hle : next ≤ next')
    (hold : ∀ e' ∈ entries', e'.1 < next → ∃ e ∈ entries, e.1 = e'.1) : Visits entries' next' c where
  inOrder := h.inOrder
  visited_lt := h.visited_lt
  passed := by
    intro hended e' he' hlt
    obtain ⟨e, he, heq⟩ := hold e' he' (hlt.trans_le (h.bound_le hended))
    rw [← heq] at hlt ⊢
    exact h.passed hended e he hlt
  bound_le := fun hended => (h.bound_le hended).trans hle
  ended_le := fun n hn => (h.ended_le n hn).trans hle
  atEnd := by
    intro n hn e' he' hlt
    obtain ⟨e, he, heq⟩ := hold e' he' (hlt.trans_le (h.ended_le n hn))
    rw [← heq] at hlt ⊢
    exact h.atEnd n hn e he hlt

theorem visits_start : Visits entries next .start where
  inOrder := .nil
  visited_lt := fun _ _ hn => absurd hn List.not_mem_nil
  passed := fun _ _ _ hlt => absurd hlt (Nat.not_lt_zero _)
  bound_le := fun _ => Nat.zero_le _
  ended_le := nofun
  atEnd := nofun

section

variable [DecidableEq κ]

theorem firstFrom_le {position : Nat} {e e' : Nat × κ × ν} (hsorted : (entries.map Prod.fst).Pairwise (· < ·))
    (h : firstFrom entries position = some e) (he' : e' ∈ entries) (hle : position ≤ e'.1) : e.1 ≤ e'.1 := by
  rw [firstFrom] at h
  induction entries with
  | nil => cases he'
  | cons first entries ih =>
    rw [List.map_cons, List.pairwise_cons] at hsorted
    rw [List.find?_cons] at h
    split at h
    · obtain rfl := Option.some.inj h
      obtain rfl | he' := List.mem_cons.1 he'
      · exact le_rfl
      · exact (hsorted.1 _ (List.mem_map_of_mem he')).le
    · rename_i hfirst
      obtain rfl | he' := List.mem_cons.1 he'
      · exact absurd hle (of_decide_eq_false hfirst)
      · exact ih hsorted.2 h he'

theorem Visits.visit (h : Visits entries next c) (hended : c.ended = none) {e : Nat × κ × ν}
    (hsorted : (entries.map Prod.fst).Pairwise (· < ·)) (hlt : ∀ e ∈ entries, e.1 < next)
    (hfirst : firstFrom entries c.position = some e) : Visits entries next (c.visit e.1) := by
  have hle : c.position ≤ e.1 := of_decide_eq_true (List.find?_some hfirst :)
  rw [Iteration.visit]
  split_ifs with hsame
  · exact h
  · have hbound : c.bound ≤ e.1 := by
      rw [Iteration.bound]
      split_ifs with hvisiting
      · exact Nat.lt_of_le_of_ne hle fun heq => hsame ⟨hvisiting, heq⟩
      · exact hle
    refine ⟨?_, fun _ n hn => ?_, fun _ e' he' hlt' => ?_, fun _ => hlt e (List.mem_of_find?_eq_some hfirst), ?_, ?_⟩
    · refine List.pairwise_append.2 ⟨h.inOrder, List.pairwise_singleton _ _, fun n hn m hm => ?_⟩
      rw [List.mem_singleton.1 hm]
      exact (h.visited_lt hended n hn).trans_le hbound
    · obtain hn | hn := List.mem_append.1 hn
      · exact ((h.visited_lt hended n hn).trans_le hbound).trans (Nat.lt_succ_self _)
      · rw [List.mem_singleton.1 hn]
        exact Nat.lt_succ_self _
    · obtain hpassed | hnew := Nat.lt_or_ge e'.1 c.bound
      · exact List.mem_append_left _ (h.passed hended e' he' hpassed)
      · have hge := firstFrom_le hsorted hfirst he' (c.position_le_bound.trans hnew)
        have heq : e'.1 = e.1 := Nat.le_antisymm (Nat.le_of_lt_succ hlt') hge
        exact List.mem_append_right _ (List.mem_singleton.2 heq)
    · intro n hn
      rw [show c.ended = some n from hn] at hended
      cases hended
    · intro n hn
      rw [show c.ended = some n from hn] at hended
      cases hended

theorem Visits.finish (h : Visits entries next c) (hended : c.ended = none)
    (hfirst : firstFrom entries c.position = none) : Visits entries next { c with ended := some next } where
  inOrder := h.inOrder
  visited_lt := nofun
  passed := nofun
  bound_le := nofun
  ended_le := fun n hn => (Option.some.inj hn).ge
  atEnd := by
    intro n _ e he _
    have hlt := List.find?_eq_none.1 hfirst e he
    rw [decide_eq_true_eq, Nat.not_le] at hlt
    exact h.passed hended e he (hlt.trans_le c.position_le_bound)

end

theorem Visits.advance (h : Visits entries next c) (hvisiting : c.visiting = true) : Visits entries next c.advance := by
  have hbound : c.advance.bound = c.bound := by
    rw [Iteration.bound, Iteration.bound, if_pos hvisiting]
    rfl
  refine ⟨h.inOrder, ?_, ?_, ?_, h.ended_le, h.atEnd⟩
  · rw [hbound]
    exact h.visited_lt
  · rw [hbound]
    exact h.passed
  · rw [hbound]
    exact h.bound_le

theorem Sound.set (h : Sound s) (i : Nat) {o : Option Iteration} (ho : ∀ c, o = some c → Visits s.entries s.next c) :
    Sound { s with iterations := s.iterations.set i o } := by
  refine ⟨h.numbered, h.lt_next, fun c hc => ?_⟩
  obtain hc | hc := List.mem_or_eq_of_mem_set hc
  · exact h.visits c hc
  · exact ho c hc.symm

theorem Sound.append (h : Sound s) (hc : Visits s.entries s.next c) :
    Sound { s with iterations := s.iterations ++ [some c] } := by
  refine ⟨h.numbered, h.lt_next, fun c' hc' => ?_⟩
  obtain hc' | hc' := List.mem_append.1 hc'
  · exact h.visits c' hc'
  · obtain rfl := Option.some.inj (List.mem_singleton.1 hc')
    exact hc

variable [DecidableEq κ]

theorem map_fst_replace (key : κ) (value : ν) (entries : List (Nat × κ × ν)) :
    (replace key value entries).map Prod.fst = entries.map Prod.fst := by
  rw [replace, List.map_map]
  refine List.map_congr_left fun e _ => ?_
  show (if e.2.1 = key then (e.1, key, value) else e).1 = e.1
  split_ifs <;> rfl

theorem exists_of_mem_replace {key : κ} {value : ν} {e' : Nat × κ × ν} (h : e' ∈ replace key value entries) :
    ∃ e ∈ entries, e.1 = e'.1 := by
  have hmem : e'.1 ∈ (replace key value entries).map Prod.fst := List.mem_map_of_mem h
  rw [map_fst_replace] at hmem
  exact List.mem_map.1 hmem

/-- **One step.** -/
theorem Step.sound {event : Event κ ν} (hstep : Step s event t) (h : Sound s) : Sound t := by
  cases hstep with
  | replace key value _ =>
    refine ⟨by rw [map_fst_replace]; exact h.numbered, fun e' he' => ?_, fun c hc => ?_⟩
    · obtain ⟨e, he, heq⟩ := exists_of_mem_replace he'
      rw [← heq]
      exact h.lt_next e he
    · exact (h.visits c hc).mono le_rfl fun e' he' _ => exists_of_mem_replace he'
  | insert key value _ =>
    refine ⟨?_, fun e he => ?_, fun c hc => (h.visits c hc).mono (Nat.le_succ _) fun e he hlt => ?_⟩
    · rw [List.map_append]
      refine List.pairwise_append.2 ⟨h.numbered, List.pairwise_singleton _ _, fun n hn m hm => ?_⟩
      obtain ⟨e, he, rfl⟩ := List.mem_map.1 hn
      rw [List.mem_singleton.1 hm]
      exact h.lt_next e he
    · obtain he | he := List.mem_append.1 he
      · exact (h.lt_next e he).trans (Nat.lt_succ_self _)
      · rw [List.mem_singleton.1 he]
        exact Nat.lt_succ_self _
    · obtain he | he := List.mem_append.1 he
      · exact ⟨e, he, rfl⟩
      · rw [List.mem_singleton.1 he] at hlt
        exact absurd hlt (Nat.lt_irrefl _)
  | remove key =>
    refine ⟨h.numbered.sublist (List.filter_sublist.map _), fun e he => h.lt_next e (List.mem_filter.1 he).1,
      fun c hc => (h.visits c hc).mono le_rfl fun e he _ => ⟨e, (List.mem_filter.1 he).1, rfl⟩⟩
  | skip => exact h
  | create => exact h.append visits_start
  | copy i c hi => exact h.append (h.visits c (List.mem_of_getElem? hi))
  | visit i c e hi hended hfirst =>
    refine h.set i fun c' hc' => ?_
    obtain rfl := Option.some.inj hc'
    exact (h.visits c (List.mem_of_getElem? hi)).visit hended h.numbered h.lt_next hfirst
  | finish i c hi hended hfirst =>
    refine h.set i fun c' hc' => ?_
    obtain rfl := Option.some.inj hc'
    exact (h.visits c (List.mem_of_getElem? hi)).finish hended hfirst
  | advance i c hi hended hvisiting =>
    refine h.set i fun c' hc' => ?_
    obtain rfl := Option.some.inj hc'
    exact (h.visits c (List.mem_of_getElem? hi)).advance hvisiting
  | visitEnded i c entry hi hended => exact h
  | advanceEnded i c hi hended => exact h
  | destroy i c hi => exact h.set i nofun

theorem sound_empty : Sound (empty : IteratedMap κ ν) := ⟨.nil, nofun, nofun⟩

/-- **What iterations are good for in any run.** -/
theorem sound_of_run {events : List (Event κ ν)} (h : Run Step empty events s) : Sound s :=
  h.invariant (fun _ _ _ hs hstep => hstep.sound hs) sound_empty

end IteratedMap

end WebKit.Lib
