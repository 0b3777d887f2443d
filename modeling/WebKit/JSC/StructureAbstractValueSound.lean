import Mathlib.Order.CompletePartialOrder
import Mathlib.Order.ConditionallyCompleteLattice.Basic
import WebKit.JSC.StructureAbstractValue
import WebKit.Lib.Loop

/-!
# What a structure abstract value stands for

A value stands for a pair of sets of structures (`meaning`): what is possible now, and what is possible after the next
invalidation point. A value is `Ok` if it is TOP, or its set is well formed and not empty if it is clobbered. For such
values merging gives an upper bound of the meanings (`merge_merges`, `mergeSet_merges`) and says whether the value
changed, which lowers its `rank`, and filtering gives a bound of what the meanings have in common (`filter_bounds`,
`filterSet_bounds`, `filterType_bounds`, `filterSelf_bounds`).
-/

namespace WebKit.JSC.StructureAbstractValue

open WebKit.Lib

variable {S : Type*}

/-! ## Meaning -/

/-- All structures if the value is TOP or clobbered, and else its set. -/
def now (v : StructureAbstractValue S) : Set S := {x | v.isTop = true ∨ v.isClobbered = true ∨ x ∈ v.m_set.toList}

/-- All structures if the value is TOP, and else its set. -/
def later (v : StructureAbstractValue S) : Set S := {x | v.isTop = true ∨ x ∈ v.m_set.toList}

def meaning (v : StructureAbstractValue S) : Set S × Set S := (v.now, v.later)

/-- What a set stands for as an operand. -/
def meaningOfSet (set : StructureSet S) : Set S × Set S := ({x | x ∈ set.toList}, {x | x ∈ set.toList})

/-- What a type stands for as an operand. -/
def meaningOfType (kind : S → StructureKind) (type : SpeculatedType) : Set S × Set S :=
  ({x | conformsToType kind type x = true}, {x | conformsToType kind type x = true})

/-- TOP, or a well-formed set that is not empty if the value is clobbered. -/
def Ok (v : StructureAbstractValue S) : Prop :=
  v.isTop = true ∨ v.m_set.WellFormed ∧ (v.isClobbered = true → v.m_set.toList ≠ [])

/-- The same value: the flags and the members agree. -/
def Same (v w : StructureAbstractValue S) : Prop :=
  v.isTop = w.isTop ∧ v.isClobbered = w.isClobbered ∧ ∀ x, x ∈ v.m_set.toList ↔ x ∈ w.m_set.toList

variable {v w other : StructureAbstractValue S} {set : StructureSet S}

@[simp] theorem isTop_top : (top : StructureAbstractValue S).isTop = true := rfl

@[simp] theorem isClobbered_mk (set : StructureSet S) : isClobbered ⟨set⟩ = set.reservedFlag := rfl

theorem eq_top (h : v.isTop = true) : v = top := by
  obtain ⟨⟨pointer, flag⟩⟩ := v
  rcases pointer with single | list | _
  · exact nomatch h
  · exact nomatch h
  · cases flag with
    | false => rfl
    | true => exact nomatch h

theorem isTop_eq_false (h : v.m_set.WellFormed) : v.isTop = false := by
  rw [Bool.eq_false_iff]
  intro htop
  rw [eq_top htop] at h
  exact h.notReserved rfl

theorem Ok.wellFormed (h : v.Ok) (htop : ¬ v.isTop = true) : v.m_set.WellFormed := (h.resolve_left htop).1

theorem ok_top : (top : StructureAbstractValue S).Ok := .inl rfl

theorem ok_of_unclobbered (h : v.m_set.WellFormed) (hflag : v.isClobbered = false) : v.Ok :=
  .inr ⟨h, fun htrue => absurd (hflag.symm.trans htrue) Bool.false_ne_true⟩

theorem le_meaning_top (p : Set S × Set S) : p ≤ (top : StructureAbstractValue S).meaning :=
  ⟨fun _ _ => .inl rfl, fun _ _ => .inl rfl⟩

theorem Ok.meaning_of_isClear (h : v.Ok) (hclear : v.isClear = true) : v.meaning = (∅, ∅) := by
  rcases h with htop | ⟨hwell, hclobbered⟩
  · rw [eq_top htop] at hclear
    exact nomatch hclear
  · have hnil := (StructureSet.isEmpty_iff hwell).1 hclear
    have hflag : v.isClobbered = false := Bool.eq_false_iff.2 fun htrue => hclobbered htrue hnil
    simp [meaning, now, later, isTop_eq_false hwell, hflag, hnil]

/-! ## Merging -/

/-- How many more merges can change the value. -/
def rank (v : StructureAbstractValue S) : Nat :=
  if v.isTop then 0 else polymorphismLimit - v.m_set.toList.length + 1 + if v.isClobbered then 0 else 1

theorem rank_le (v : StructureAbstractValue S) : v.rank ≤ polymorphismLimit + 2 := by
  rw [rank]
  split_ifs <;> omega

@[simp] theorem rank_top : (top : StructureAbstractValue S).rank = 0 := rfl

theorem rank_of_not_top (h : ¬ v.isTop = true) :
    v.rank = polymorphismLimit - v.m_set.toList.length + 1 + if v.isClobbered then 0 else 1 := if_neg h

theorem Same.rank_eq (h : v.Same w) (hv : v.Ok) (hw : w.Ok) : v.rank = w.rank := by
  obtain ⟨htop, hflag, hmem⟩ := h
  by_cases hvtop : v.isTop = true
  · rw [eq_top hvtop, eq_top (htop.symm.trans hvtop)]
  · have hwtop : ¬ w.isTop = true := fun h => hvtop (htop.trans h)
    have hperm := (List.perm_ext_iff_of_nodup (hv.wellFormed hvtop).nodup (hw.wellFormed hwtop).nodup).2 hmem
    rw [rank_of_not_top hvtop, rank_of_not_top hwtop, hflag, hperm.length_eq]

/-- A merge gives an upper bound, and says whether the value changed. -/
structure Merges (v : StructureAbstractValue S) (operand : Set S × Set S) (result : StructureAbstractValue S × Bool) :
    Prop where
  ok : result.1.Ok
  bound : v.meaning ⊔ operand ≤ result.1.meaning
  unchanged : result.2 = false → result.1 = v
  changed : result.2 = true → result.1.rank < v.rank

theorem Merges.same (hv : v.Ok) {operand : Set S × Set S} {result : StructureAbstractValue S × Bool}
    (h : v.Merges operand result) : result.2 = true ↔ ¬ v.Same result.1 := by
  constructor
  · intro hchanged hsame
    exact absurd (hsame.rank_eq hv h.ok) (h.changed hchanged).ne'
  · intro hsame
    by_contra hfalse
    refine hsame ?_
    rw [h.unchanged (Bool.eq_false_iff.2 hfalse)]
    exact ⟨rfl, rfl, fun _ => Iff.rfl⟩

theorem Merges.rank_add_le {operand : Set S × Set S} {result : StructureAbstractValue S × Bool}
    (h : v.Merges operand result) : result.1.rank + result.2.toNat ≤ v.rank := by
  cases hchanged : result.2 with
  | false => rw [h.unchanged hchanged]; rfl
  | true => exact h.changed hchanged

/-- What adding structures to a value that is not TOP gives: TOP or a set with them. -/
structure Joins (v : StructureAbstractValue S) (added : List S) (result : StructureAbstractValue S × Bool) : Prop where
  unchanged : result.2 = false → result.1 = v
  changed : result.2 = true → result.1 = top ∨ result.1.m_set.WellFormed ∧ result.1.isClobbered = v.isClobbered ∧
    v.m_set.toList.length < result.1.m_set.toList.length ∧ result.1.m_set.toList.length ≤ polymorphismLimit
  mem : result.1 = top ∨ ∀ x, x ∈ result.1.m_set.toList ↔ x ∈ v.m_set.toList ∨ x ∈ added

theorem limited_joins {added : List S} {result : StructureSet S × Bool} (h : v.m_set.Grows added result) :
    ∃ result', (if !result.2 then some (⟨result.1⟩, false) else (limited result.1).map fun v => (v, true)) =
      some result' ∧ v.Joins added result' := by
  cases hchanged : result.2 with
  | false => exact ⟨_, rfl, fun _ => by rw [h.unchanged hchanged], nofun, .inr h.mem⟩
  | true =>
    rw [limited, StructureSet.size_eq h.wellFormed]
    by_cases hsize : result.1.toList.length > polymorphismLimit
    · exact ⟨(top, true), by simp [hsize], nofun, fun _ => .inl rfl, .inl rfl⟩
    · refine ⟨(⟨result.1⟩, true), by simp [hsize], nofun, fun _ => .inr ?_, .inr h.mem⟩
      exact ⟨h.wellFormed, h.flag, h.changed hchanged, Nat.le_of_not_gt hsize⟩

theorem Joins.merges (hv : v.Ok) (hwell : v.m_set.WellFormed) {added : List S}
    {result : StructureAbstractValue S × Bool} (h : v.Joins added result) :
    v.Merges ({x | x ∈ added}, {x | x ∈ added}) result := by
  have hnotTop : ¬ v.isTop = true := by simp [isTop_eq_false hwell]
  refine ⟨?_, ?_, h.unchanged, fun hchanged => ?_⟩
  · cases hchanged : result.2 with
    | false => rwa [h.unchanged hchanged]
    | true =>
      rcases h.changed hchanged with htop | ⟨hwell', -, hlt, -⟩
      · rw [htop]
        exact ok_top
      · exact .inr ⟨hwell', fun _ => List.length_pos_iff.1 (by omega)⟩
  · rcases h.mem with htop | hmem
    · rw [htop]
      exact le_meaning_top _
    · have hflag : v.isClobbered = true → result.1.isTop = true ∨ result.1.isClobbered = true := by
        intro hv
        cases hchanged : result.2 with
        | false =>
          rw [h.unchanged hchanged]
          exact .inr hv
        | true =>
          rcases h.changed hchanged with htop | ⟨-, hflag, -⟩
          · exact .inl (by rw [htop]; rfl)
          · exact .inr (hflag.trans hv)
      refine sup_le ⟨?_, ?_⟩ ⟨?_, ?_⟩
      · rintro x (hx | hx | hx)
        · exact absurd hx hnotTop
        · exact (hflag hx).imp_right .inl
        · exact .inr (.inr ((hmem x).2 (.inl hx)))
      · rintro x (hx | hx)
        · exact absurd hx hnotTop
        · exact .inr ((hmem x).2 (.inl hx))
      · exact fun x hx => .inr (.inr ((hmem x).2 (.inr hx)))
      · exact fun x hx => .inr ((hmem x).2 (.inr hx))
  · rcases h.changed hchanged with htop | ⟨hwell', hflag, hlt, hle⟩
    · rw [htop, rank_top, rank_of_not_top hnotTop]
      omega
    · rw [rank_of_not_top hnotTop, rank_of_not_top (by simp [isTop_eq_false hwell']), hflag]
      omega

variable [DecidableEq S]

theorem mergeNotTop_joins (hwell : v.m_set.WellFormed) (hset : set.WellFormed) :
    ∃ result, v.mergeNotTop set = some result ∧ v.Joins set.toList result := by
  obtain ⟨result, hresult, hgrows⟩ := StructureSet.merge_grows hwell hset
  obtain ⟨result', hresult', hjoins⟩ := limited_joins hgrows
  refine ⟨result', ?_, hjoins⟩
  rw [mergeNotTop, hresult]
  exact hresult'

theorem add_joins (hwell : v.m_set.WellFormed) (x : S) : ∃ result, v.add x = some result ∧ v.Joins [x] result := by
  obtain ⟨result, hresult, hgrows⟩ := StructureSet.add_grows hwell x
  obtain ⟨result', hresult', hjoins⟩ := limited_joins hgrows
  refine ⟨result', ?_, hjoins⟩
  rw [add, isTop_eq_false hwell, if_neg Bool.false_ne_true, hresult]
  exact hresult'

theorem merges_top (operand : Set S × Set S) : (top : StructureAbstractValue S).Merges operand (top, false) :=
  ⟨ok_top, le_meaning_top _, fun _ => rfl, nofun⟩

/-- **Merging with a set.** -/
theorem mergeSet_merges (h : v.Ok) (hset : set.WellFormed) :
    ∃ result, v.mergeSet set = some result ∧ v.Merges (meaningOfSet set) result := by
  rw [mergeSet]
  split_ifs with htop
  · obtain rfl := eq_top htop
    exact ⟨_, rfl, merges_top _⟩
  · have hwell := h.wellFormed htop
    obtain ⟨result, hresult, hjoins⟩ := mergeNotTop_joins hwell hset
    exact ⟨result, hresult, hjoins.merges h hwell⟩

theorem add_merges (h : v.Ok) (x : S) : ∃ result, v.add x = some result ∧ v.Merges ({y | y ∈ [x]}, {y | y ∈ [x]}) result := by
  by_cases htop : v.isTop = true
  · obtain rfl := eq_top htop
    exact ⟨_, rfl, merges_top _⟩
  · have hwell := h.wellFormed htop
    obtain ⟨result, hresult, hjoins⟩ := add_joins hwell x
    exact ⟨result, hresult, hjoins.merges h hwell⟩

theorem meaning_of_unclobbered (hwell : v.m_set.WellFormed) (hflag : v.isClobbered = false) :
    v.meaning = meaningOfSet v.m_set := by
  simp [meaning, now, later, meaningOfSet, isTop_eq_false hwell, hflag]

theorem now_of_clobbered (hflag : v.isClobbered = true) : v.now = Set.univ := Set.eq_univ_of_forall fun _ => .inr (.inl hflag)

theorem later_of_not_top (hwell : v.m_set.WellFormed) : v.later = {x | x ∈ v.m_set.toList} := by
  simp [later, isTop_eq_false hwell]

theorem mergeSlow_clobbers (h : v.Ok) (hwell : v.m_set.WellFormed) (hflag : v.isClobbered = false) (hother : other.Ok)
    (hwell' : other.m_set.WellFormed) (hflag' : other.isClobbered = true) :
    ∃ result, (v.setClobbered true).mergeNotTop other.m_set = some result ∧
      v.Merges other.meaning (result.1, true) := by
  have hwellSet : (v.setClobbered true).m_set.WellFormed := ⟨hwell.notReserved, hwell.nodup, hwell.nonempty⟩
  obtain ⟨result, hresult, hjoins⟩ := mergeNotTop_joins hwellSet hwell'
  have hnotTop : ¬ v.isTop = true := by simp [isTop_eq_false hwell]
  have hresultTop : result.1 = top ∨ result.1.m_set.WellFormed ∧ result.1.isClobbered = true ∧
      v.m_set.toList.length ≤ result.1.m_set.toList.length := by
    cases hchanged : result.2 with
    | false =>
      rw [hjoins.unchanged hchanged]
      exact .inr ⟨hwellSet, rfl, le_rfl⟩
    | true => exact (hjoins.changed hchanged).imp_right fun ⟨hw, hf, hlt, _⟩ => ⟨hw, hf, hlt.le⟩
  refine ⟨result, hresult, ?_⟩
  rcases hresultTop with htop | ⟨hw, hf, hle⟩
  · rw [htop]
    refine ⟨ok_top, le_meaning_top _, nofun, fun _ => ?_⟩
    rw [rank_top, rank_of_not_top hnotTop]
    omega
  · have hmem := hjoins.mem.resolve_left fun htop => by
      rw [htop] at hw
      exact hw.notReserved rfl
    refine ⟨.inr ⟨hw, fun _ => ?_⟩, ?_, nofun, fun _ => ?_⟩
    · -- the other value is clobbered, so it has a structure
      obtain ⟨x, hx⟩ := List.exists_mem_of_ne_nil _ ((hother.resolve_left (by simp [isTop_eq_false hwell'])).2 hflag')
      exact List.ne_nil_of_mem ((hmem x).2 (.inr hx))
    · refine sup_le ⟨?_, ?_⟩ ⟨?_, ?_⟩
      · exact fun _ _ => .inr (.inl hf)
      · show v.later ≤ result.1.later
        rw [later_of_not_top hwell, later_of_not_top hw]
        exact fun x hx => (hmem x).2 (.inl hx)
      · exact fun _ _ => .inr (.inl hf)
      · show other.later ≤ result.1.later
        rw [later_of_not_top hwell', later_of_not_top hw]
        exact fun x hx => (hmem x).2 (.inr hx)
    · rw [rank_of_not_top hnotTop, rank_of_not_top (by simp [isTop_eq_false hw]), hf, hflag]
      simp only [↓reduceIte, Bool.false_eq_true]
      omega

/-- **Merging with a value.** -/
theorem merge_merges (h : v.Ok) (hother : other.Ok) :
    ∃ result, v.merge other = some result ∧ v.Merges other.meaning result := by
  rw [merge]
  split_ifs with hclear htop hotherTop
  · refine ⟨_, rfl, h, ?_, fun _ => rfl, nofun⟩
    rw [hother.meaning_of_isClear hclear]
    exact sup_le le_rfl ⟨Set.empty_subset _, Set.empty_subset _⟩
  · obtain rfl := eq_top htop
    exact ⟨_, rfl, merges_top _⟩
  · refine ⟨_, rfl, ok_top, le_meaning_top _, nofun, fun _ => ?_⟩
    rw [rank_top, rank_of_not_top htop]
    omega
  · have hwell := h.wellFormed htop
    have hwell' := hother.wellFormed hotherTop
    rw [mergeSlow]
    cases hclobbers : !v.isClobbered && other.isClobbered with
    | true =>
      obtain ⟨hflag, hflag'⟩ := Bool.and_eq_true_iff.1 hclobbers
      obtain ⟨result, hresult, hmerges⟩ :=
        mergeSlow_clobbers h hwell (by simpa using hflag) hother hwell' hflag'
      exact ⟨_, by simp only [↓reduceIte, hresult, Option.map_some, Bool.true_or], hmerges⟩
    | false =>
      obtain ⟨result, hresult, hjoins⟩ := mergeNotTop_joins hwell hwell'
      refine ⟨result, by simp only [Bool.false_eq_true, ↓reduceIte, hresult, Option.map_some, Bool.false_or], ?_⟩
      have hmerges := hjoins.merges h hwell
      cases hflag : v.isClobbered with
      | false =>
        have hflag' : other.isClobbered = false := by simpa [hflag] using hclobbers
        rw [meaning_of_unclobbered hwell' hflag']
        exact hmerges
      | true =>
        -- the value stands for everything now already
        refine ⟨hmerges.ok, sup_le (le_sup_left.trans hmerges.bound) ⟨?_, ?_⟩, hmerges.unchanged, hmerges.changed⟩
        · have hnow : v.now ≤ result.1.now := (le_sup_left.trans hmerges.bound).1
          rw [now_of_clobbered hflag] at hnow
          exact (Set.subset_univ _).trans hnow
        · show other.later ≤ result.1.later
          rw [later_of_not_top hwell']
          exact (le_sup_right.trans hmerges.bound).2

/-! ## Filtering -/

/-- A filtered value has what both operands have. -/
def Bounds (v : StructureAbstractValue S) (operand : Set S × Set S) (result : StructureAbstractValue S) : Prop :=
  v.meaning ⊓ operand ≤ result.meaning

omit [DecidableEq S] in
theorem bounds_of_narrows (hwell : v.m_set.WellFormed) {keeps : S → Prop} {result : StructureSet S}
    (h : v.m_set.Narrows keeps result) {operand : Set S × Set S} (hnow : v.isClobbered = false → operand.1 ⊆ {x | keeps x})
    (hlater : operand.2 ⊆ {x | keeps x}) : v.Bounds operand ⟨result⟩ := by
  have hnotTop : ¬ v.isTop = true := by simp [isTop_eq_false hwell]
  constructor
  · rintro x ⟨hx, hoperand⟩
    cases hflag : v.isClobbered with
    | true => exact .inr (.inl (h.flag.trans hflag))
    | false =>
      rcases hx with hx | hx | hx
      · exact absurd hx hnotTop
      · exact absurd (hflag.symm.trans hx) Bool.false_ne_true
      · exact .inr (.inr ((h.mem x).2 ⟨hx, hnow hflag hoperand⟩))
  · rintro x ⟨hx, hoperand⟩
    rcases hx with hx | hx
    · exact absurd hx hnotTop
    · exact .inr ((h.mem x).2 ⟨hx, hlater hoperand⟩)

omit [DecidableEq S] in
theorem ok_of_narrows {keeps : S → Prop} {result : StructureSet S} (h : v.m_set.Narrows keeps result)
    (hleft : v.isClobbered = true → ∃ x ∈ v.m_set.toList, keeps x) : Ok ⟨result⟩ := by
  refine .inr ⟨h.wellFormed, fun hflag => ?_⟩
  obtain ⟨x, hx, hkeeps⟩ := hleft (h.flag.symm.trans hflag)
  exact List.ne_nil_of_mem ((h.mem x).2 ⟨hx, hkeeps⟩)

omit [DecidableEq S] in
theorem bounds_copy (flag : Bool) (hset : set.WellFormed) :
    v.Bounds (meaningOfSet set) ⟨{ set with reservedFlag := flag }⟩ :=
  ⟨fun _ hx => .inr (.inr hx.2), fun _ hx => .inr hx.2⟩

/-- **Filtering by a set.** -/
theorem filterSet_bounds (h : v.Ok) (hset : set.WellFormed) :
    ∃ result, v.filterSet set = some result ∧ result.Ok ∧ v.Bounds (meaningOfSet set) result := by
  have hcopy : StructureSet.WellFormed { set with reservedFlag := false } := ⟨hset.notReserved, hset.nodup, hset.nonempty⟩
  rw [filterSet]
  split_ifs with htop hflag
  · obtain rfl := eq_top htop
    exact ⟨_, rfl, ok_of_unclobbered hcopy rfl, bounds_copy false hset⟩
  · rw [StructureSet.size_eq hset, StructureSet.size_eq (h.wellFormed htop)]
    refine ⟨_, rfl, ?_⟩
    beta_reduce
    split_ifs with hsize
    · exact ⟨h, inf_le_left⟩
    · exact ⟨ok_of_unclobbered hcopy rfl, bounds_copy false hset⟩
  · obtain ⟨result, hresult, hnarrows⟩ := StructureSet.filter_narrows (h.wellFormed htop) hset
    refine ⟨_, congrArg _ hresult, ok_of_narrows hnarrows fun hclobbered => absurd hclobbered hflag, ?_⟩
    exact bounds_of_narrows (h.wellFormed htop) hnarrows (fun _ => subset_rfl) subset_rfl

/-- **Filtering by a value.** The result is `Ok` if two clobbered values have a structure in common. -/
theorem filter_bounds (h : v.Ok) (hother : other.Ok) :
    ∃ result, v.filter other = some result ∧ v.Bounds other.meaning result ∧
      ((v.isClobbered = true → other.isClobbered = true → ∃ x ∈ v.m_set.toList, x ∈ other.m_set.toList) → result.Ok) := by
  rw [filter]
  split_ifs with hotherTop hflag' htop hflag
  · exact ⟨_, rfl, inf_le_left, fun _ => h⟩
  · obtain rfl := eq_top htop
    exact ⟨_, rfl, le_meaning_top _, fun _ => ok_top⟩
  · have hwell := h.wellFormed htop
    rw [StructureSet.size_eq hwell, StructureSet.size_eq (hother.wellFormed hotherTop)]
    refine ⟨_, rfl, ?_⟩
    beta_reduce
    split_ifs with hsize
    · refine ⟨?_, fun _ => hother⟩
      show v.meaning ⊓ other.meaning ≤ other.meaning
      exact inf_le_right
    · exact ⟨inf_le_left, fun _ => h⟩
  · have hwell' := hother.wellFormed hotherTop
    obtain ⟨result, hresult, hnarrows⟩ := StructureSet.filter_narrows (h.wellFormed htop) hwell'
    have hclobbered : v.isClobbered = true := by simpa using hflag
    refine ⟨_, congrArg _ hresult, bounds_of_narrows (h.wellFormed htop) hnarrows ?_ ?_, fun hcommon => ?_⟩
    · exact fun hfalse => absurd (hfalse.symm.trans hclobbered) Bool.false_ne_true
    · exact (later_of_not_top hwell').le
    · exact ok_of_narrows hnarrows fun hclobbered => hcommon hclobbered hflag'
  · have hunclobbered : other.isClobbered = false := Bool.eq_false_iff.2 hflag'
    obtain ⟨result, hresult, hok, hbounds⟩ := filterSet_bounds h (hother.wellFormed hotherTop)
    refine ⟨result, hresult, ?_, fun _ => hok⟩
    rwa [meaning_of_unclobbered (hother.wellFormed hotherTop) hunclobbered]

omit [DecidableEq S] in
theorem conformsToType_eq_false (kind : S → StructureKind) {type : SpeculatedType}
    (htype : type &&& SpeculatedType.SpecCell = 0) (x : S) : conformsToType kind type x = false := by
  have hcell : ∀ k, speculationFromStructure k &&& SpeculatedType.SpecCell = speculationFromStructure k := by
    rintro (_ | _ | _ | _ | _ | _ | (_ | _ | _ | _ | _ | _ | _ | _ | _) | _ | _) <;> rfl
  rw [conformsToType, decide_eq_false_iff_not, not_not, ← hcell, UInt32.and_assoc, UInt32.and_comm SpeculatedType.SpecCell,
    htype, UInt32.and_zero]

/-- **Filtering by a type.** The result is `Ok` if a clobbered value has a structure of the type. -/
theorem filterType_bounds (kind : S → StructureKind) (h : v.Ok) (type : SpeculatedType) :
    ∃ result, v.filterType kind type = some result ∧ v.Bounds (meaningOfType kind type) result ∧
      ((v.isClobbered = true → type &&& SpeculatedType.SpecCell ≠ 0 →
        ∃ x ∈ v.m_set.toList, conformsToType kind type x = true) → result.Ok) := by
  rw [filterType]
  split_ifs with htype hneither
  · refine ⟨_, rfl, ?_, fun _ => ok_of_unclobbered (StructureSet.wellFormed_thin none false) rfl⟩
    have hnone : ∀ x, ¬ conformsToType kind type x = true := fun x => by simp [conformsToType_eq_false kind htype x]
    exact ⟨fun x hx => absurd hx.2 (hnone x), fun x hx => absurd hx.2 (hnone x)⟩
  · obtain ⟨hclear, htop⟩ := Bool.and_eq_true_iff.1 hneither
    have hwell := h.wellFormed (by simpa using htop)
    obtain ⟨result, hresult, hnarrows⟩ := StructureSet.genericFilter_narrows hwell (conformsToType kind type)
    refine ⟨⟨result⟩, ?_, bounds_of_narrows hwell hnarrows (fun _ => subset_rfl) subset_rfl, fun hleft => ?_⟩
    · rw [filterSlow, if_neg htype, hresult]
      rfl
    · exact ok_of_narrows hnarrows fun hflag => hleft hflag htype
  · exact ⟨v, rfl, inf_le_left, fun _ => h⟩

/-- **Filtering by the value itself**, if it is not thin. -/
theorem filterSelf_bounds (h : v.Ok) (hthin : v.m_set.isThin = true → v.isClear = true) :
    ∃ result, v.filterSelf = some result ∧ v.Bounds v.meaning result ∧ result.Ok := by
  rw [filterSelf]
  split_ifs with htop
  · exact ⟨v, rfl, inf_le_left, h⟩
  · have hwell := h.wellFormed htop
    obtain ⟨result, hresult, hnarrows⟩ :=
      StructureSet.filterSelf_narrows hwell fun hth => (StructureSet.isEmpty_iff hwell).1 (hthin hth)
    refine ⟨_, congrArg _ hresult, ?_, ?_⟩
    · exact bounds_of_narrows hwell hnarrows (fun _ _ _ => trivial) fun _ _ => trivial
    · refine ok_of_narrows hnarrows fun hflag => ?_
      obtain ⟨x, hx⟩ := List.exists_mem_of_ne_nil _ ((h.resolve_left htop).2 hflag)
      exact ⟨x, hx, trivial⟩

/-! ## The other operations -/

omit [DecidableEq S] in
theorem clobber_ok (h : v.Ok) (hclear : v.isClear = false) (dfgShouldWatch : S → Bool) :
    ∃ result, v.clobber dfgShouldWatch = some result ∧ result.Ok := by
  rw [clobber]
  split_ifs with htop
  · exact ⟨v, rfl, h⟩
  · have hwell := h.wellFormed htop
    obtain ⟨⟨pointer, flag⟩⟩ := v
    rcases pointer with (_ | single) | list | _
    · exact nomatch hclear
    · refine ⟨_, rfl, ?_⟩
      split_ifs
      · exact ok_top
      · exact .inr ⟨StructureSet.wellFormed_thin _ _, fun _ => List.cons_ne_nil _ _⟩
    · refine ⟨_, rfl, ?_⟩
      split_ifs
      · exact ok_top
      · have hne := hwell.nonempty list rfl
        exact .inr ⟨StructureSet.wellFormed_outOfLine hwell.nodup hne true, fun _ => hne⟩
    · exact absurd rfl hwell.notReserved

omit [DecidableEq S] in
theorem observeInvalidationPoint_ok (h : v.Ok) : v.observeInvalidationPoint.Ok := by
  by_cases htop : v.isTop = true
  · rw [eq_top htop]
    exact ok_top
  · obtain ⟨hnotReserved, hnodup, hnonempty⟩ := h.wellFormed htop
    exact ok_of_unclobbered ⟨hnotReserved, hnodup, hnonempty⟩ rfl

theorem observeTransition_ok (h : v.Ok) (previous next : S) :
    ∃ result, v.observeTransition previous next = some result ∧ result.Ok := by
  rw [observeTransition]
  split_ifs with htop
  · exact ⟨v, rfl, h⟩
  · rw [StructureSet.contains_eq (h.wellFormed htop), Option.bind_some]
    split_ifs
    · exact ⟨v, rfl, h⟩
    · obtain ⟨result, hresult, hmerges⟩ := add_merges h next
      exact ⟨_, congrArg _ hresult, hmerges.ok⟩

theorem newStructures_wellFormed (hset : set.WellFormed) (vector : List (S × S)) :
    ∃ result, newStructures set vector = some result ∧ result.WellFormed := by
  induction vector with
  | nil => exact ⟨_, rfl, StructureSet.wellFormed_thin none false⟩
  | cons transition vector ih =>
    obtain ⟨structures, hstructures, hwell⟩ := ih
    obtain ⟨previous, next⟩ := transition
    rw [newStructures, hstructures, Option.bind_some, StructureSet.contains_eq hset, Option.bind_some]
    split_ifs
    · exact ⟨_, rfl, hwell⟩
    · obtain ⟨result, hresult, hgrows⟩ := StructureSet.add_grows hwell next
      exact ⟨_, congrArg _ hresult, hgrows.wellFormed⟩

theorem observeTransitions_ok (h : v.Ok) (vector : List (S × S)) :
    ∃ result, v.observeTransitions vector = some result ∧ result.Ok := by
  rw [observeTransitions]
  split_ifs with htop
  · exact ⟨v, rfl, h⟩
  · have hwell := h.wellFormed htop
    obtain ⟨structures, hstructures, hwell'⟩ := newStructures_wellFormed hwell vector
    obtain ⟨result, hresult, hjoins⟩ := mergeNotTop_joins hwell hwell'
    rw [hstructures, Option.bind_some, hresult]
    exact ⟨_, rfl, (hjoins.merges h hwell).ok⟩

/-! ## Queries -/

omit [DecidableEq S] in
theorem now_eq (htop : ¬ (v.isTop || v.isClobbered) = true) : v.now = {x | x ∈ v.m_set.toList} := by
  obtain ⟨h₁, h₂⟩ : v.isTop = false ∧ v.isClobbered = false := by simpa using htop
  simp [now, h₁, h₂]

omit [DecidableEq S] in
theorem Ok.wellFormed_of_neither (h : v.Ok) (htop : ¬ (v.isTop || v.isClobbered) = true) : v.m_set.WellFormed :=
  h.wellFormed fun hv => htop (by simp [hv])

theorem contains_sound (h : v.Ok) (x : S) : ∃ result, v.contains x = some result ∧ (result = false → x ∉ v.now) := by
  rw [contains]
  split_ifs with htop
  · exact ⟨_, rfl, fun hfalse => Bool.noConfusion hfalse⟩
  · refine ⟨_, StructureSet.contains_eq (h.wellFormed_of_neither htop) x, fun hfalse => ?_⟩
    rw [now_eq htop]
    simpa using hfalse

theorem isSubsetOfSet_sound (h : v.Ok) (hset : set.WellFormed) :
    ∃ result, v.isSubsetOfSet set = some result ∧ (result = true → v.now ⊆ {x | x ∈ set.toList}) := by
  rw [isSubsetOfSet]
  split_ifs with htop
  · exact ⟨_, rfl, nofun⟩
  · obtain ⟨result, hresult, hiff⟩ := StructureSet.isSubsetOf_eq (h.wellFormed_of_neither htop) hset
    refine ⟨result, hresult, fun htrue => ?_⟩
    rw [now_eq htop]
    exact hiff.1 htrue

theorem isSubsetOf_sound (h : v.Ok) (hother : other.Ok) :
    ∃ result, v.isSubsetOf other = some result ∧ (result = true → v.now ⊆ other.now) := by
  rw [isSubsetOf]
  split_ifs with htop hotherTop hflags hflag
  · exact ⟨_, rfl, nofun⟩
  · refine ⟨_, rfl, fun _ => ?_⟩
    rw [eq_top hotherTop]
    exact fun _ _ => .inl rfl
  · obtain ⟨result, hresult, hiff⟩ :=
      StructureSet.isSubsetOf_eq (h.wellFormed htop) (hother.wellFormed hotherTop)
    refine ⟨result, hresult, fun htrue => ?_⟩
    rintro x (hx | hx | hx)
    · exact absurd hx htop
    · exact .inr (.inl (hflags.symm.trans hx))
    · exact .inr (.inr (hiff.1 htrue hx))
  · exact ⟨_, rfl, nofun⟩
  · obtain ⟨result, hresult, hiff⟩ :=
      StructureSet.isSubsetOf_eq (h.wellFormed htop) (hother.wellFormed hotherTop)
    refine ⟨result, hresult, fun htrue => ?_⟩
    rintro x (hx | hx | hx)
    · exact absurd hx htop
    · exact absurd hx hflag
    · exact .inr (.inr (hiff.1 htrue hx))

theorem overlapsSet_sound (h : v.Ok) (hset : set.WellFormed) :
    ∃ result, v.overlapsSet set = some result ∧ (result = false → Disjoint v.now {x | x ∈ set.toList}) := by
  rw [overlapsSet]
  split_ifs with htop
  · exact ⟨_, rfl, nofun⟩
  · obtain ⟨result, hresult, hiff⟩ := StructureSet.overlaps_eq (h.wellFormed_of_neither htop) hset
    refine ⟨result, hresult, fun hfalse => ?_⟩
    rw [now_eq htop, Set.disjoint_left]
    intro x hx hin
    exact absurd (hfalse.symm.trans (hiff.2 ⟨x, hx, hin⟩)) Bool.false_ne_true

theorem overlaps_sound (h : v.Ok) (hother : other.Ok) :
    ∃ result, v.overlaps other = some result ∧ (result = false → Disjoint v.now other.now) := by
  rw [overlaps]
  split_ifs with htop
  · exact ⟨_, rfl, nofun⟩
  · rw [now_eq htop]
    exact overlapsSet_sound h (hother.wellFormed_of_neither htop)

end WebKit.JSC.StructureAbstractValue
