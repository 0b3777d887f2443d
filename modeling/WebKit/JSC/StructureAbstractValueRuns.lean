import WebKit.JSC.StructureAbstractValueSound

/-!
# Reachable structure abstract values

Every value that the operations reach is `Ok`, and so merging, filtering and the queries are sound for it
(`structure_abstract_value_sound`), if no step leaves a clobbered value without structures: an empty value is not
clobbered, and a clobbered one is not filtered by a clobbered value or a type that it has no structure in common with.
Nor may a value with one structure be filtered by itself. Without that a clobbered value is clear
(`structure_abstract_value_unsound`).
-/

namespace WebKit.JSC.StructureAbstractValue

open WebKit.Lib

variable {S : Type*}

/-- A set of structures as an operand. -/
abbrev SetOperand (S : Type*) := { set : StructureSet S // set.WellFormed }

inductive ValueOp (S : Type*)
  | clear
  | clobber (dfgShouldWatch : S → Bool)
  | observeInvalidationPoint
  | observeTransition (previous next : S)
  | observeTransitions (vector : List (S × S))
  | add (structure' : S)
  | mergeSet (other : SetOperand S)
  | merge (other : StructureAbstractValue S)
  | filterSet (other : SetOperand S)
  | filter (other : StructureAbstractValue S)
  | filterSelf
  | filterType (type : SpeculatedType)

def ValueOp.operand : ValueOp S → Option (StructureAbstractValue S)
  | .merge other => some other
  | .filter other => some other
  | _ => none

variable [DecidableEq S] (kind : S → StructureKind)

def apply (v : StructureAbstractValue S) : ValueOp S → Option (StructureAbstractValue S)
  | .clear => some v.clear
  | .clobber dfgShouldWatch => v.clobber dfgShouldWatch
  | .observeInvalidationPoint => some v.observeInvalidationPoint
  | .observeTransition previous next => v.observeTransition previous next
  | .observeTransitions vector => v.observeTransitions vector
  | .add structure' => (v.add structure').map Prod.fst
  | .mergeSet other => (v.mergeSet other.1).map Prod.fst
  | .merge other => (v.merge other).map Prod.fst
  | .filterSet other => v.filterSet other.1
  | .filter other => v.filter other
  | .filterSelf => v.filterSelf
  | .filterType type => v.filterType kind type

/-- The operations that leave no clobbered value without structures, and do not lose the structure of a thin value. -/
def fits (v : StructureAbstractValue S) : ValueOp S → Bool
  | .clobber _ => !v.isClear
  | .filter other => !(v.isClobbered && other.isClobbered) || v.m_set.overlaps other.m_set = some true
  | .filterSelf => !v.m_set.isThin || v.isClear
  | .filterType type => !v.isClobbered || decide (type &&& SpeculatedType.SpecCell = 0) ||
    v.m_set.toList.any (conformsToType kind type)
  | _ => true

/-- The values that are made by the constructors and the operations whose state and operation meet `ok`. -/
inductive Reachable (ok : StructureAbstractValue S → ValueOp S → Prop) : StructureAbstractValue S → Prop
  | empty : Reachable ok empty
  | top : Reachable ok top
  | ofStructure (structure' : S) : Reachable ok (ofStructure structure')
  | ofSet (set : SetOperand S) : Reachable ok (ofSet set.1)
  | step {v w : StructureAbstractValue S} {op : ValueOp S} : Reachable ok v →
      (∀ other, op.operand = some other → Reachable ok other) → ok v op → v.apply kind op = some w → Reachable ok w

/-- The values that are reached by fitting operations. -/
abbrev FittingReachable : StructureAbstractValue S → Prop := Reachable kind fun v op => v.fits kind op = true

variable {v w other : StructureAbstractValue S}

/-- **A fitting operation does not read the list of TOP, and its result is `Ok`.** -/
theorem apply_ok (h : v.Ok) {op : ValueOp S} (hoperand : ∀ other, op.operand = some other → other.Ok)
    (hfits : v.fits kind op = true) : ∃ w, v.apply kind op = some w ∧ w.Ok := by
  cases op with
  | clear => exact ⟨_, rfl, ok_of_unclobbered (StructureSet.wellFormed_thin none false) rfl⟩
  | clobber dfgShouldWatch => exact clobber_ok h (by simpa [fits] using hfits) dfgShouldWatch
  | observeInvalidationPoint => exact ⟨_, rfl, observeInvalidationPoint_ok h⟩
  | observeTransition previous next => exact observeTransition_ok h previous next
  | observeTransitions vector => exact observeTransitions_ok h vector
  | add x =>
    obtain ⟨result, hresult, hmerges⟩ := add_merges h x
    exact ⟨_, congrArg (Option.map Prod.fst) hresult, hmerges.ok⟩
  | mergeSet set =>
    obtain ⟨result, hresult, hmerges⟩ := mergeSet_merges h set.2
    exact ⟨_, congrArg (Option.map Prod.fst) hresult, hmerges.ok⟩
  | merge other =>
    obtain ⟨result, hresult, hmerges⟩ := merge_merges h (hoperand other rfl)
    exact ⟨_, congrArg (Option.map Prod.fst) hresult, hmerges.ok⟩
  | filterSet set =>
    obtain ⟨result, hresult, hok, -⟩ := filterSet_bounds h set.2
    exact ⟨result, hresult, hok⟩
  | filter other =>
    obtain ⟨result, hresult, -, hok⟩ := filter_bounds h (hoperand other rfl)
    refine ⟨result, hresult, hok fun hflag hflag' => ?_⟩
    have hoverlaps : v.m_set.overlaps other.m_set = some true := by simpa [fits, hflag, hflag'] using hfits
    have hwell : ∀ {w : StructureAbstractValue S}, w.Ok → w.isClobbered = true → w.m_set.WellFormed := fun hw hc =>
      hw.wellFormed fun htop => by
        rw [eq_top htop] at hc
        cases hc
    obtain ⟨result, hresult, hiff⟩ := StructureSet.overlaps_eq (hwell h hflag) (hwell (hoperand other rfl) hflag')
    exact hiff.1 (Option.some.inj (hresult.symm.trans hoverlaps))
  | filterSelf =>
    obtain ⟨result, hresult, -, hok⟩ := filterSelf_bounds h fun hthin => by simpa [fits, hthin] using hfits
    exact ⟨result, hresult, hok⟩
  | filterType type =>
    obtain ⟨result, hresult, -, hok⟩ := filterType_bounds kind h type
    refine ⟨result, hresult, hok fun hflag htype => ?_⟩
    simpa [fits, hflag, htype] using hfits

theorem FittingReachable.ok (h : FittingReachable kind v) : v.Ok := by
  induction h with
  | empty => exact ok_of_unclobbered (StructureSet.wellFormed_thin none false) rfl
  | top => exact ok_top
  | ofStructure x => exact ok_of_unclobbered (StructureSet.wellFormed_thin (some x) false) rfl
  | ofSet set => exact ok_of_unclobbered ⟨set.2.notReserved, set.2.nodup, set.2.nonempty⟩ rfl
  | step _ _ hfits hstep ih ihOperand =>
    obtain ⟨w, hw, hok⟩ := apply_ok kind ih ihOperand hfits
    obtain rfl := Option.some.inj (hw.symm.trans hstep)
    exact hok

inductive MergeOperand (S : Type*)
  | value (other : StructureAbstractValue S)
  | set (other : SetOperand S)

def mergeOperand (v : StructureAbstractValue S) : MergeOperand S → Option (StructureAbstractValue S × Bool)
  | .value other => v.merge other
  | .set other => v.mergeSet other.1

/-- What the operations on a value promise: merging bounds both operands and says whether the value changed, filtering
bounds what both operands have, and the queries are conservative. -/
structure Sound (v : StructureAbstractValue S) : Prop where
  merge : ∀ other, FittingReachable kind other → ∃ w changed, v.merge other = some (w, changed) ∧
    v.meaning ⊔ other.meaning ≤ w.meaning ∧ (changed = true ↔ ¬ v.Same w)
  mergeSet : ∀ set : SetOperand S, ∃ w changed, v.mergeSet set.1 = some (w, changed) ∧
    v.meaning ⊔ meaningOfSet set.1 ≤ w.meaning ∧ (changed = true ↔ ¬ v.Same w)
  filter : ∀ other, FittingReachable kind other → ∃ w, v.filter other = some w ∧ v.meaning ⊓ other.meaning ≤ w.meaning
  filterSet : ∀ set : SetOperand S, ∃ w, v.filterSet set.1 = some w ∧ v.meaning ⊓ meaningOfSet set.1 ≤ w.meaning
  filterType : ∀ type, ∃ w, v.filterType kind type = some w ∧ v.meaning ⊓ meaningOfType kind type ≤ w.meaning
  filterSelf : v.fits kind .filterSelf = true → ∃ w, v.filterSelf = some w ∧ v.meaning ≤ w.meaning
  changes : ∀ operands : List (MergeOperand S), (∀ other, .value other ∈ operands → FittingReachable kind other) →
    ∃ w n, changes mergeOperand v operands = some (w, n) ∧ n ≤ polymorphismLimit + 2
  isClear : v.isClear = true → v.now = ∅
  contains : ∀ x, ∃ result, v.contains x = some result ∧ (result = false → x ∉ v.now)
  isSubsetOfSet : ∀ set : SetOperand S, ∃ result, v.isSubsetOfSet set.1 = some result ∧
    (result = true → v.now ⊆ {x | x ∈ set.1.toList})
  isSubsetOf : ∀ other, FittingReachable kind other → ∃ result, v.isSubsetOf other = some result ∧
    (result = true → v.now ⊆ other.now)
  overlapsSet : ∀ set : SetOperand S, ∃ result, v.overlapsSet set.1 = some result ∧
    (result = false → Disjoint v.now {x | x ∈ set.1.toList})
  overlaps : ∀ other, FittingReachable kind other → ∃ result, v.overlaps other = some result ∧
    (result = false → Disjoint v.now other.now)

theorem mergeOperand_rank (v : StructureAbstractValue S) (operand : MergeOperand S) (h : v.Ok)
    (hoperand : ∀ other, operand = .value other → other.Ok) :
    ∃ w changed, mergeOperand v operand = some (w, changed) ∧ w.Ok ∧ w.rank + changed.toNat ≤ v.rank := by
  cases operand with
  | value other =>
    obtain ⟨⟨w, changed⟩, hresult, hmerges⟩ := merge_merges h (hoperand other rfl)
    exact ⟨w, changed, hresult, hmerges.ok, hmerges.rank_add_le⟩
  | set set =>
    obtain ⟨⟨w, changed⟩, hresult, hmerges⟩ := mergeSet_merges h set.2
    exact ⟨w, changed, hresult, hmerges.ok, hmerges.rank_add_le⟩

theorem changes_mergeOperand_le (h : v.Ok) {operands : List (MergeOperand S)}
    (hoperands : ∀ other, .value other ∈ operands → FittingReachable kind other) :
    ∃ w n, changes mergeOperand v operands = some (w, n) ∧ n ≤ polymorphismLimit + 2 := by
  have hok : ∀ operand ∈ operands, ∀ other, operand = .value other → other.Ok := by
    rintro operand hmem other rfl
    exact (hoperands other hmem).ok
  obtain ⟨w, n, hchanges, -, hle⟩ := changes_le mergeOperand_rank h hok
  exact ⟨w, n, hchanges, (Nat.le_add_left n _).trans (hle.trans (rank_le v))⟩

theorem Ok.sound (h : v.Ok) : v.Sound kind where
  merge other hother := by
    obtain ⟨⟨w, changed⟩, hresult, hmerges⟩ := merge_merges h hother.ok
    exact ⟨w, changed, hresult, hmerges.bound, hmerges.same h⟩
  mergeSet set := by
    obtain ⟨⟨w, changed⟩, hresult, hmerges⟩ := mergeSet_merges h set.2
    exact ⟨w, changed, hresult, hmerges.bound, hmerges.same h⟩
  filter other hother := by
    obtain ⟨w, hw, hbounds, -⟩ := filter_bounds h hother.ok
    exact ⟨w, hw, hbounds⟩
  filterSet set := by
    obtain ⟨w, hw, -, hbounds⟩ := filterSet_bounds h set.2
    exact ⟨w, hw, hbounds⟩
  filterType type := by
    obtain ⟨w, hw, hbounds, -⟩ := filterType_bounds kind h type
    exact ⟨w, hw, hbounds⟩
  filterSelf hfits := by
    obtain ⟨w, hw, hbounds, -⟩ := filterSelf_bounds h fun hthin => by simpa [fits, hthin] using hfits
    exact ⟨w, hw, (le_inf le_rfl le_rfl).trans hbounds⟩
  changes operands hoperands := changes_mergeOperand_le kind h hoperands
  isClear hclear := congrArg Prod.fst (h.meaning_of_isClear hclear)
  contains x := contains_sound h x
  isSubsetOfSet set := isSubsetOfSet_sound h set.2
  isSubsetOf other hother := isSubsetOf_sound h hother.ok
  overlapsSet set := overlapsSet_sound h set.2
  overlaps other hother := overlaps_sound h hother.ok

/-- **A reachable value is sound**, and a fitting operation on it does not read the list of TOP. -/
theorem structure_abstract_value_sound (h : FittingReachable kind v) :
    v.Sound kind ∧ ∀ op : ValueOp S, (∀ other, op.operand = some other → FittingReachable kind other) →
      v.fits kind op = true → (v.apply kind op).isSome = true := by
  refine ⟨h.ok.sound kind, fun op hoperand hfits => ?_⟩
  obtain ⟨w, hw, -⟩ := apply_ok kind h.ok (fun other ho => (hoperand other ho).ok) hfits
  rw [hw]
  rfl

/-! ## Values that are reached -/

/-- Two structures that are both watched, clobbered. -/
def clobberedPair : StructureAbstractValue Nat := ⟨⟨.outOfLine [0, 1], true⟩⟩

theorem clobberedPair_reachable : FittingReachable (fun _ => .finalObject) clobberedPair := by
  have hpair : FittingReachable (fun _ => .finalObject) (⟨⟨.outOfLine [0, 1], false⟩⟩ : StructureAbstractValue Nat) :=
    (Reachable.ofStructure 0).step (show ∀ other, (ValueOp.add 1).operand = some other → _ from nofun) rfl rfl
  exact hpair.step (show ∀ other, (ValueOp.clobber fun _ => true).operand = some other → _ from nofun) rfl rfl

theorem structure_abstract_value_sound_clobbered :
    clobberedPair.Sound (fun _ => .finalObject) ∧ ∀ op : ValueOp Nat,
      (∀ other, op.operand = some other → FittingReachable (fun _ => .finalObject) other) →
      clobberedPair.fits (fun _ => .finalObject) op = true →
      (clobberedPair.apply (fun _ => .finalObject) op).isSome = true :=
  structure_abstract_value_sound _ clobberedPair_reachable

/-- A clobbered value without structures. -/
def clobberedEmpty : StructureAbstractValue Nat := ⟨⟨.thin none, true⟩⟩

/-- Two clobbered values with different structures, one of which is filtered by the other, leave a value that is clear
while it stands for everything now, and that is lost when it is merged into another one. A value with one structure that
is filtered by itself loses it. -/
theorem structure_abstract_value_unsound :
    Reachable (fun _ => .finalObject) (fun _ _ => True) clobberedEmpty ∧
    (clobberedEmpty.isClear = true ∧ clobberedEmpty.now ≠ ∅) ∧
    ((empty : StructureAbstractValue Nat).merge clobberedEmpty = some (empty, false) ∧
      ¬ (empty : StructureAbstractValue Nat).meaning ⊔ clobberedEmpty.meaning ≤ (empty : StructureAbstractValue Nat).meaning) ∧
    ((ofStructure 0).filterSelf = some (empty : StructureAbstractValue Nat) ∧
      ¬ (ofStructure 0).meaning ≤ (empty : StructureAbstractValue Nat).meaning) := by
  have hclobbered : ∀ x, Reachable (fun _ => .finalObject) (fun _ _ => True)
      (⟨⟨.thin (some x), true⟩⟩ : StructureAbstractValue Nat) := fun x =>
    (Reachable.ofStructure x).step (show ∀ other, (ValueOp.clobber fun _ => true).operand = some other → _ from nofun)
      trivial rfl
  have hnotMem : (0 : Nat) ∉ (empty : StructureAbstractValue Nat).now := by
    simp [now, empty, isTop, isClobbered, StructureSet.empty]
  refine ⟨?_, ⟨rfl, ?_⟩, ⟨rfl, ?_⟩, rfl, ?_⟩
  · have hoperand : ∀ other, (ValueOp.filter (⟨⟨.thin (some 1), true⟩⟩ : StructureAbstractValue Nat)).operand =
        some other → Reachable (fun _ => .finalObject) (fun _ _ => True) other := by
      rintro _ ⟨⟩
      exact hclobbered 1
    exact (hclobbered 0).step hoperand trivial rfl
  · exact Set.nonempty_iff_ne_empty.1 ⟨0, .inr (.inl rfl)⟩
  · intro hle
    exact hnotMem ((le_sup_right.trans hle).1 (show 0 ∈ clobberedEmpty.now from .inr (.inl rfl)))
  · intro hle
    exact hnotMem (hle.1 (show 0 ∈ (ofStructure 0).now from .inr (.inr (List.mem_singleton_self 0))))

end WebKit.JSC.StructureAbstractValue
