import WebKit.Lib.Pointwise
import WebKit.Lib.Run
import WebKit.WTF.BitVectorCount
import WebKit.WTF.BitVectorWords

/-!
# Runs over bit vectors

A run creates bit vectors, changes their bits and their sizes, and combines, copies and swaps them. Each vector then is a
finite set of numbers (`Represents`), as `specStep` keeps it (`bit_vectors_refine`), in every run whose unions are with
vectors that are as long, whose intersections with inline vectors find nothing behind the first word, and whose sizes
stay below 2 ^ 32 - 63. Else the loops leave the words or do not reach them (`bit_vector_overrun`).
-/

namespace WebKit.WTF

open Transition BitVector WebKit.Lib

inductive VectorOp
  | create (numBits : Nat)
  | copy (i : Nat)
  | get (i : Nat) (bit : Nat)
  | set (i : Nat) (bit : Nat)
  | clear (i : Nat) (bit : Nat)
  | setValue (i : Nat) (bit : Nat) (value : Bool)
  | ensureSize (i : Nat) (numBits : Nat)
  | resize (i : Nat) (numBits : Nat)
  | clearAll (i : Nat)
  | assign (i j : Nat)
  | merge (i j : Nat)
  | filter (i j : Nat)
  | exclude (i j : Nat)
  | swap (i j : Nat)
  deriving DecidableEq, Repr

abbrev BitVectors := List BitVector

namespace BitVectors

/-- Vector `i` changes. A step with a vector that there is not does nothing. -/
def change (s : BitVectors) (i : Nat) (f : BitVector → Option BitVector) : Option BitVectors :=
  s[i]?.elim (some s) fun v => (f v).map fun v => s.set i v

/-- Vector `i` changes, and vector `j` is the other operand. -/
def combine (s : BitVectors) (i j : Nat) (f : BitVector → BitVector → Option BitVector) : Option BitVectors :=
  s[j]?.elim (some s) fun w => s.change i fun v => f v w

def step (s : BitVectors) : VectorOp → Option BitVectors
  | .create numBits => (BitVector.create numBits).map fun v => s ++ [v]
  | .copy i => s[i]?.elim (some s) fun v => v.copy.map fun v => s ++ [v]
  | .get i bit => s[i]?.elim (some s) fun v => (v.get bit).map fun _ => s
  | .set i bit => s.change i fun v => (v.set bit).map Prod.fst
  | .clear i bit => s.change i fun v => (v.clear bit).map Prod.fst
  | .setValue i bit value => s.change i fun v => (v.setValue bit value).map Prod.fst
  | .ensureSize i numBits => s.change i fun v => v.ensureSize numBits
  | .resize i numBits => s.change i fun v => v.resize numBits
  | .clearAll i => s.change i fun v => some v.clearAll
  | .assign i j => s.combine i j BitVector.assign
  | .merge i j => s.combine i j BitVector.merge
  | .filter i j => s.combine i j BitVector.filter
  | .exclude i j => s.combine i j BitVector.exclude
  | .swap i j => s[i]?.elim (some s) fun v => s[j]?.elim (some s) fun w =>
    (v.swap w).map fun (v, w) => (s.set i v).set j w

/-- What a step must keep to: the sizes, and what the loops of `mergeSlow` and `filterSlow` reach. -/
def fits (s : BitVectors) : VectorOp → Bool
  | .create numBits | .ensureSize _ numBits | .resize _ numBits => decide (numBits ≤ 2 ^ 32 - 64)
  | .set _ bit => decide (bit + 1 ≤ 2 ^ 32 - 64)
  | .setValue _ bit value => !value || decide (bit + 1 ≤ 2 ^ 32 - 64)
  | .merge i j => s[i]?.elim true fun v => s[j]?.elim true fun w => mergeFits v w
  | .filter i j => s[i]?.elim true fun v => s[j]?.elim true fun w => filterFits v w
  | _ => true

/-! ## What the steps are for -/

/-- The same step on sets. -/
def specStep (sets : List (Finset Nat)) : VectorOp → List (Finset Nat)
  | .create _ => sets ++ [∅]
  | .copy i => sets[i]?.elim sets fun S => sets ++ [S]
  | .get _ _ | .ensureSize _ _ => sets
  | .set i bit => sets.modify i (insert bit)
  | .clear i bit => sets.modify i fun S => S.erase bit
  | .setValue i bit value => sets.modify i fun S => if value then insert bit S else S.erase bit
  | .resize i numBits => sets.modify i fun S => S.filter (· < roundedSize numBits)
  | .clearAll i => sets.modify i fun _ => ∅
  | .assign i j => sets[j]?.elim sets fun T => sets.modify i fun _ => T
  | .merge i j => sets[j]?.elim sets fun T => sets.modify i (· ∪ T)
  | .filter i j => sets[j]?.elim sets fun T => sets.modify i (· ∩ T)
  | .exclude i j => sets[j]?.elim sets fun T => sets.modify i (· \ T)
  | .swap i j => sets[i]?.elim sets fun S => sets[j]?.elim sets fun T => (sets.set i T).set j S

/-- The bits of the vector are the members of the set. -/
def Represents (v : BitVector) (S : Finset Nat) : Prop := v.WellFormed ∧ ∀ k, k ∈ S ↔ v.bit k = true

/-- What a vector shows of its set. -/
def Shows (v : BitVector) (S : Finset Nat) : Prop :=
  (∀ k, v.get k = some (decide (k ∈ S))) ∧ v.bitCount = some S.card

theorem shows_of_represents {v : BitVector} {S : Finset Nat} (h : Represents v S) : Shows v S := by
  constructor
  · intro k
    rw [get_spec h.1, Bool.decide_congr (h.2 k), Bool.decide_eq_true]
  · rw [bitCount_spec h.1, card_eq_countBits h.2]

theorem represents_of_bit {v : BitVector} {S : Finset Nat} (hwf : v.WellFormed) (h : ∀ k, v.bit k = decide (k ∈ S)) :
    Represents v S :=
  ⟨hwf, fun k => by rw [h, decide_eq_true_iff]⟩

theorem bit_of_represents {v : BitVector} {S : Finset Nat} (h : Represents v S) (k : Nat) :
    v.bit k = decide (k ∈ S) := by
  rw [Bool.decide_congr (h.2 k), Bool.decide_eq_true]

abbrev Refines (s : BitVectors) (sets : List (Finset Nat)) : Prop := List.Forall₂ Represents s sets

/-- The step leads to vectors that represent the sets. -/
def Fine (result : Option BitVectors) (sets : List (Finset Nat)) : Prop := ∃ s, result = some s ∧ Refines s sets

variable {s : BitVectors} {sets : List (Finset Nat)}

theorem fine_elim (h : Refines s sets) (i : Nat) {f : BitVector → Option BitVectors}
    {g : Finset Nat → List (Finset Nat)}
    (hfg : ∀ v S, s[i]? = some v → sets[i]? = some S → Represents v S → Fine (f v) (g S)) :
    Fine (s[i]?.elim (some s) f) (sets[i]?.elim sets g) := by
  cases hv : s[i]? with
  | none =>
    have hS : sets[i]? = none := by
      rw [List.getElem?_eq_none_iff] at hv ⊢
      rwa [← h.length_eq]
    rw [hS]
    exact ⟨s, rfl, h⟩
  | some v =>
    obtain ⟨S, hS, hrep⟩ := forall₂_getElem? h hv
    rw [hS]
    exact hfg v S hv hS hrep

theorem fine_change (h : Refines s sets) (i : Nat) {f : BitVector → Option BitVector} {g : Finset Nat → Finset Nat}
    (hfg : ∀ v S, s[i]? = some v → Represents v S → ∃ v', f v = some v' ∧ Represents v' (g S)) :
    Fine (s.change i f) (sets.modify i g) := by
  rw [change]
  cases hv : s[i]? with
  | none =>
    have hle : sets.length ≤ i := by
      rw [List.getElem?_eq_none_iff] at hv
      rwa [← h.length_eq]
    rw [List.modify_eq_self hle]
    exact ⟨s, rfl, h⟩
  | some v =>
    obtain ⟨S, hS, hrep⟩ := forall₂_getElem? h hv
    obtain ⟨v', hv', hrep'⟩ := hfg v S hv hrep
    exact ⟨s.set i v', congrArg (Option.map fun v => s.set i v) hv', forall₂_set_modify h hS hrep'⟩

theorem fine_combine (h : Refines s sets) (i j : Nat) {f : BitVector → BitVector → Option BitVector}
    {g : Finset Nat → Finset Nat → Finset Nat}
    (hfg : ∀ v w S T, s[i]? = some v → s[j]? = some w → Represents v S → Represents w T →
      ∃ v', f v w = some v' ∧ Represents v' (g S T)) :
    Fine (s.combine i j f) (sets[j]?.elim sets fun T => sets.modify i fun S => g S T) := by
  apply fine_elim h
  intro w T hw _ hrepw
  apply fine_change h
  intro v S hv hrepv
  exact hfg v w S T hv hw hrepv hrepw

theorem represents_setValue {v v' : BitVector} {S : Finset Nat} (h : Represents v S) {b : Nat} (value : Bool)
    (hwf : v'.WellFormed) (hbits : ∀ i, v'.bit i = if b = i then value else v.bit i) :
    Represents v' (if value then insert b S else S.erase b) := by
  refine ⟨hwf, ?_⟩
  intro i
  rw [hbits]
  cases value with
  | true =>
    rw [if_pos rfl, Finset.mem_insert, h.2]
    split_ifs with hi
    · simp [hi]
    · simp [Ne.symm hi]
  | false =>
    rw [if_neg Bool.false_ne_true, Finset.mem_erase, h.2]
    split_ifs with hi
    · simp [hi]
    · simp [Ne.symm hi]

/-- **A step keeps the sets.** -/
theorem step_fine (h : Refines s sets) (op : VectorOp) (hfits : s.fits op = true) : Fine (s.step op) (specStep sets op) := by
  cases op with
  | create numBits =>
    obtain ⟨v, hv, hwf, -, hbits⟩ := create_spec (of_decide_eq_true hfits)
    refine ⟨s ++ [v], congrArg (Option.map fun v => s ++ [v]) hv, forall₂_concat h ?_⟩
    apply represents_of_bit hwf
    intro k
    rw [hbits, decide_eq_false (Finset.notMem_empty k)]
  | copy i =>
    apply fine_elim h
    intro v S _ _ hrep
    exact ⟨s ++ [v], congrArg (Option.map fun v => s ++ [v]) (copy_spec hrep.1), forall₂_concat h hrep⟩
  | get i b =>
    have hsets : specStep sets (.get i b) = sets[i]?.elim sets fun _ => sets := by
      rw [specStep]
      cases sets[i]? <;> rfl
    rw [hsets]
    apply fine_elim h
    intro v S _ _ hrep
    exact ⟨s, congrArg (Option.map fun _ => s) (get_spec hrep.1 b), h⟩
  | set i b =>
    apply fine_change h
    intro v S _ hrep
    obtain ⟨v', hv', hwf, hbits⟩ := set_spec hrep.1 (of_decide_eq_true hfits)
    exact ⟨v', congrArg (Option.map Prod.fst) hv', represents_setValue hrep true hwf hbits⟩
  | clear i b =>
    apply fine_change h
    intro v S _ hrep
    obtain ⟨v', hv', hwf, hbits⟩ := clear_spec hrep.1 b
    exact ⟨v', congrArg (Option.map Prod.fst) hv', represents_setValue hrep false hwf hbits⟩
  | setValue i b value =>
    apply fine_change h
    intro v S _ hrep
    have hb : value = true → b + 1 ≤ 2 ^ 32 - 64 := by
      rintro rfl
      exact of_decide_eq_true hfits
    obtain ⟨v', hv', hwf, hbits⟩ := setValue_spec hrep.1 hb
    exact ⟨v', congrArg (Option.map Prod.fst) hv', represents_setValue hrep value hwf hbits⟩
  | ensureSize i numBits =>
    have hsets : specStep sets (.ensureSize i numBits) = sets.modify i id := by
      rw [specStep, List.modify_id]
    rw [hsets]
    apply fine_change h
    intro v S _ hrep
    obtain ⟨v', hv', hwf, -, hbits⟩ := ensureSize_spec hrep.1 (of_decide_eq_true hfits)
    exact ⟨v', hv', hwf, fun k => by rw [hbits]; exact hrep.2 k⟩
  | resize i numBits =>
    apply fine_change h
    intro v S _ hrep
    obtain ⟨v', hv', hwf, -, hbits⟩ := resize_spec hrep.1 (of_decide_eq_true hfits)
    refine ⟨v', hv', hwf, ?_⟩
    intro k
    rw [Finset.mem_filter, hbits, Bool.and_eq_true, decide_eq_true_iff, hrep.2, and_comm]
  | clearAll i =>
    apply fine_change h
    intro v S _ hrep
    obtain ⟨hwf, hbits⟩ := clearAll_spec hrep.1
    refine ⟨v.clearAll, rfl, represents_of_bit hwf ?_⟩
    intro k
    rw [hbits, decide_eq_false (Finset.notMem_empty k)]
  | assign i j =>
    apply fine_combine h (g := fun _ T => T)
    intro v w S T _ _ _ hrepw
    exact ⟨w, assign_spec v hrepw.1, hrepw⟩
  | merge i j =>
    apply fine_combine h (g := fun S T => S ∪ T)
    intro v w S T hv hw hrepv hrepw
    rw [fits, hv, hw] at hfits
    obtain ⟨v', hv', hwf, hbits⟩ := merge_spec hrepv.1 hrepw.1 hfits
    refine ⟨v', hv', represents_of_bit hwf ?_⟩
    intro k
    rw [hbits, bit_of_represents hrepv, bit_of_represents hrepw, ← Bool.decide_or, Bool.decide_congr Finset.mem_union]
  | filter i j =>
    apply fine_combine h (g := fun S T => S ∩ T)
    intro v w S T hv hw hrepv hrepw
    rw [fits, hv, hw] at hfits
    obtain ⟨v', hv', hwf, hbits⟩ := filter_spec hrepv.1 hrepw.1 hfits
    refine ⟨v', hv', represents_of_bit hwf ?_⟩
    intro k
    rw [hbits, bit_of_represents hrepv, bit_of_represents hrepw, ← Bool.decide_and, Bool.decide_congr Finset.mem_inter]
  | exclude i j =>
    apply fine_combine h (g := fun S T => S \ T)
    intro v w S T _ _ hrepv hrepw
    obtain ⟨v', hv', hwf, hbits⟩ := exclude_spec hrepv.1 hrepw.1
    refine ⟨v', hv', represents_of_bit hwf ?_⟩
    intro k
    rw [hbits, bit_of_represents hrepv, bit_of_represents hrepw, ← decide_not, ← Bool.decide_and,
      Bool.decide_congr Finset.mem_sdiff]
  | swap i j =>
    apply fine_elim h
    intro v S hv hS hrepv
    apply fine_elim h
    intro w T hw hT hrepw
    refine ⟨(s.set i w).set j v, ?_, forall₂_set (forall₂_set h i hrepw) j hrepv⟩
    rw [swap_spec hrepv.1 hrepw.1]
    rfl

/-! ## Runs -/

theorem run_refines {ops : List VectorOp} {t : BitVectors}
    (hr : Run (Guarded (fun s op => fits s op = true) (Via step)) s ops t) (h : Refines s sets) :
    Refines t (ops.foldl specStep sets) := by
  induction hr generalizing sets with
  | nil s => exact h
  | cons hstep _ ih =>
    obtain ⟨t, ht, href⟩ := step_fine h _ hstep.1
    obtain rfl : t = _ := Option.some.inj (ht.symm.trans hstep.2)
    exact ih href

/-- Equality and the hash of two vectors, from their sets. -/
def ComparesAs (s : BitVectors) (sets : List (Finset Nat)) : Prop :=
  ∀ (i j : Nat) (v w : BitVector) (S T : Finset Nat), s[i]? = some v → s[j]? = some w → sets[i]? = some S → sets[j]? = some T →
    v.equals w = some (decide (S = T)) ∧ (S = T → ∃ value, v.hash = some value ∧ w.hash = some value)

theorem comparesAs_of_refines (h : Refines s sets) : ComparesAs s sets := by
  intro i j v w S T hv hw hS hT
  obtain ⟨S', hS', hrepv⟩ := forall₂_getElem? h hv
  obtain ⟨T', hT', hrepw⟩ := forall₂_getElem? h hw
  obtain rfl := Option.some.inj (hS.symm.trans hS')
  obtain rfl := Option.some.inj (hT.symm.trans hT')
  have hiff : (∀ k, v.bit k = w.bit k) ↔ S = T := by
    constructor
    · intro hbits
      ext k
      rw [hrepv.2, hrepw.2, hbits]
    · rintro rfl k
      rw [bit_of_represents hrepv, bit_of_represents hrepw]
  obtain ⟨result, hresult, heq⟩ := equals_spec hrepv.1 hrepw.1
  constructor
  · rw [hresult, ← Bool.decide_congr (heq.trans hiff), Bool.decide_eq_true]
  · exact fun hST => hash_eq hrepv.1 hrepw.1 (hiff.2 hST)

/-- **Bit vectors are finite sets of numbers**: in every run whose steps fit, each vector shows its set, equal sets have
equal vectors and hashes, and no step that fits leaves the words. -/
theorem bit_vectors_refine {ops : List VectorOp} {s : BitVectors}
    (hr : Run (Guarded (fun s op => fits s op = true) (Via step)) [] ops s) :
    List.Forall₂ Shows s (ops.foldl specStep []) ∧ ComparesAs s (ops.foldl specStep []) ∧
      ∀ op, s.fits op = true → ∃ t, s.step op = some t := by
  have href : Refines s (ops.foldl specStep []) := run_refines hr .nil
  refine ⟨href.imp fun _ _ => shows_of_represents, comparesAs_of_refines href, ?_⟩
  intro op hfits
  obtain ⟨t, ht, -⟩ := step_fine href op hfits
  exact ⟨t, ht⟩

/-- A vector of 128 bits and an inline one are joined, cut and compared. -/
theorem bit_vectors_refine_join :
    ∃ s, runFn (guardFn (fun s op => fits s op = true) step) []
        [.create 128, .set 0 100, .create 10, .set 1 5, .merge 0 1, .exclude 1 0, .resize 0 20, .merge 1 0] = some s ∧
      List.Forall₂ Shows s [{5}, {5}] ∧ ComparesAs s [{5}, {5}] := by
  have hr : (runFn (guardFn (fun s op => fits s op = true) step) []
      [.create 128, .set 0 100, .create 10, .set 1 5, .merge 0 1, .exclude 1 0, .resize 0 20, .merge 1 0]).isSome =
        true := by
    decide +kernel
  obtain ⟨s, hs⟩ := Option.isSome_iff_exists.1 hr
  obtain ⟨hshows, hcompares, -⟩ := bit_vectors_refine (run_of_runFn_guardFn hs)
  exact ⟨s, hs, hshows, hcompares⟩

/-- **Loops that leave the words, or do not reach them**: the union of 128 bits with 64 reads a second word of the 64,
the intersection of 128 bits with an inline vector keeps bit 100, and 2 ^ 32 bits are given no words. -/
theorem bit_vector_overrun :
    runFn step [] [.create 128, .create 64, .merge 0 1] = none ∧
      (runFn step [] [.create 128, .set 0 100, .create 10, .filter 0 1] >>= fun s => s[0]? >>= fun v => v.get 100) =
        some true ∧
      runFn step [] [.create (2 ^ 32)] = none := by
  decide +kernel

end BitVectors

end WebKit.WTF
