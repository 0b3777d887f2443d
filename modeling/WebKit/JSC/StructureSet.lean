import Mathlib.Data.List.Nodup
import Mathlib.Data.List.Perm.Subperm
import Mathlib.Order.Nat

/-!
# Structure sets

A `StructureSet` is a tagged word: no structure or one (thin), or a list of structures that is allocated elsewhere. It has
a reserved flag, which belongs to the owner and which the operations keep, and a reserved value, which no operation but
a copy may be used on: where the code would follow the pointer the operation is `none`. The capacity of a list is left out.

The members are `toList`, and the operations are shown to be those of finite sets (`merge_grows`, `filter_narrows`,
`genericFilter_narrows`, `isSubsetOf_eq`, `overlaps_eq`).
-/

namespace WebKit.JSC

variable {S : Type*}

inductive SetPointer (S : Type*)
  | thin (singleStructure : Option S)
  | outOfLine (list : List S)
  | reservedValue
  deriving DecidableEq, Repr

structure StructureSet (S : Type*) where
  m_pointer : SetPointer S
  reservedFlag : Bool
  deriving DecidableEq, Repr

namespace StructureSet

variable [DecidableEq S]

def empty : StructureSet S := ⟨.thin none, false⟩

def ofStructure (structure' : S) : StructureSet S := ⟨.thin (some structure'), false⟩

/-- `deleteStructureListIfNecessary` and `setEmpty`. -/
def clear (set : StructureSet S) : StructureSet S := { set with m_pointer := .thin none }

/-- The assignment. The flag stays. -/
def copyFrom (set other : StructureSet S) : StructureSet S := { set with m_pointer := other.m_pointer }

def isThin (set : StructureSet S) : Bool :=
  match set.m_pointer with
  | .thin _ => true
  | _ => false

def isEmpty (set : StructureSet S) : Bool :=
  match set.m_pointer with
  | .thin none => true
  | _ => false

def size (set : StructureSet S) : Option Nat :=
  match set.m_pointer with
  | .thin singleStructure => some (if singleStructure.isSome then 1 else 0)
  | .outOfLine list => some list.length
  | .reservedValue => none

def addOutOfLine (list : List S) (structure' : S) : List S × Bool :=
  if structure' ∈ list then (list, false) else (list ++ [structure'], true)

def add (set : StructureSet S) (structure' : S) : Option (StructureSet S × Bool) :=
  match set.m_pointer with
  | .thin none => some ({ set with m_pointer := .thin (some structure') }, true)
  | .thin (some single) =>
    if single = structure' then some (set, false)
    else some ({ set with m_pointer := .outOfLine [single, structure'] }, true)
  | .outOfLine list =>
    let (list, changed) := addOutOfLine list structure'
    some ({ set with m_pointer := .outOfLine list }, changed)
  | .reservedValue => none

def contains (set : StructureSet S) (structure' : S) : Option Bool :=
  match set.m_pointer with
  | .thin singleStructure => some (singleStructure = some structure')
  | .outOfLine list => some (structure' ∈ list)
  | .reservedValue => none

/-- The loop of `merge`. -/
def addAll : List S → List S → List S × Bool
  | mine, [] => (mine, false)
  | mine, structure' :: list =>
    let (mine, changed) := addOutOfLine mine structure'
    let (mine, changed') := addAll mine list
    (mine, changed || changed')

def merge (set other : StructureSet S) : Option (StructureSet S × Bool) :=
  match other.m_pointer with
  | .thin none => some (set, false)
  | .thin (some single) => set.add single
  | .outOfLine list =>
    if 2 ≤ list.length then do
      let mine ← match set.m_pointer with
        | .thin singleStructure => some singleStructure.toList
        | .outOfLine mine => some mine
        | .reservedValue => none
      let (mine, changed) := addAll mine list
      some ({ set with m_pointer := .outOfLine mine }, changed)
    else list.head?.bind set.add
  | .reservedValue => none

/-- The element at `i` is overwritten by the last one. -/
def removeAt (list : List S) (i : Nat) : List S :=
  match list.getLast? with
  | none => list
  | some last => (list.set i last).dropLast

/-- The loop of `genericFilter` from `i` on. It makes at most as many turns as there are elements left. -/
def filterLoop (functor : S → Bool) : Nat → List S → Nat → List S
  | 0, list, _ => list
  | fuel + 1, list, i =>
    match list[i]? with
    | none => list
    | some structure' =>
      if functor structure' then filterLoop functor fuel list (i + 1)
      else filterLoop functor fuel (removeAt list i) i

def genericFilter (set : StructureSet S) (functor : S → Bool) : Option (StructureSet S) :=
  match set.m_pointer with
  | .thin none => some set
  | .thin (some single) => some (if functor single then set else set.clear)
  | .outOfLine list =>
    let list := filterLoop functor list.length list 0
    some (if list.isEmpty then set.clear else { set with m_pointer := .outOfLine list })
  | .reservedValue => none

def filter (set other : StructureSet S) : Option (StructureSet S) :=
  match other.m_pointer with
  | .thin none => some set.clear
  | .thin (some single) =>
    (set.contains single).map fun contained =>
      if !contained then set.clear else { set.clear with m_pointer := .thin (some single) }
  | .outOfLine list => set.genericFilter fun structure' => structure' ∈ list
  | .reservedValue => none

/-- `filter` with the set itself as the operand: a thin set is cleared before its structure is read again. -/
def filterSelf (set : StructureSet S) : Option (StructureSet S) :=
  match set.m_pointer with
  | .thin _ => some set.clear
  | .outOfLine list => set.genericFilter fun structure' => structure' ∈ list
  | .reservedValue => none

def isSubsetOf (set other : StructureSet S) : Option Bool :=
  match set.m_pointer with
  | .thin none => some true
  | .thin (some single) => other.contains single
  | .outOfLine list =>
    match other.m_pointer with
    | .thin none => some false
    | .thin (some single) => if 2 ≤ list.length then some false else list.head?.map fun first => decide (first = single)
    | .outOfLine other => some (list.all (· ∈ other))
    | .reservedValue => none
  | .reservedValue => none

def overlaps (set other : StructureSet S) : Option Bool :=
  match set.m_pointer with
  | .thin none => some false
  | .thin (some single) => other.contains single
  | .outOfLine list =>
    match other.m_pointer with
    | .thin none => some false
    | .thin (some single) => some (single ∈ list)
    | .outOfLine other => some (list.any (· ∈ other))
    | .reservedValue => none
  | .reservedValue => none

/-! ## The members -/

def toList (set : StructureSet S) : List S :=
  match set.m_pointer with
  | .thin singleStructure => singleStructure.toList
  | .outOfLine list => list
  | .reservedValue => []

@[simp] theorem toList_thin (singleStructure : Option S) (flag : Bool) :
    toList ⟨.thin singleStructure, flag⟩ = singleStructure.toList := rfl

@[simp] theorem toList_outOfLine (list : List S) (flag : Bool) : toList ⟨.outOfLine list, flag⟩ = list := rfl

@[simp] theorem toList_clear (set : StructureSet S) : set.clear.toList = [] := rfl

/-- Not the reserved value, no structure twice, and no empty list. -/
structure WellFormed (set : StructureSet S) : Prop where
  notReserved : set.m_pointer ≠ .reservedValue
  nodup : set.toList.Nodup
  nonempty : ∀ list, set.m_pointer = .outOfLine list → list ≠ []

/-- The result has the members of `set` and `added`, and says whether there are more of them. -/
structure Grows (set : StructureSet S) (added : List S) (result : StructureSet S × Bool) : Prop where
  wellFormed : result.1.WellFormed
  flag : result.1.reservedFlag = set.reservedFlag
  mem : ∀ x, x ∈ result.1.toList ↔ x ∈ set.toList ∨ x ∈ added
  unchanged : result.2 = false → result.1 = set
  changed : result.2 = true → set.toList.length < result.1.toList.length

/-- The result has the members of `set` that `keeps` holds of. -/
structure Narrows (set : StructureSet S) (keeps : S → Prop) (result : StructureSet S) : Prop where
  wellFormed : result.WellFormed
  flag : result.reservedFlag = set.reservedFlag
  mem : ∀ x, x ∈ result.toList ↔ x ∈ set.toList ∧ keeps x

variable {set other : StructureSet S}

omit [DecidableEq S] in
theorem wellFormed_thin (singleStructure : Option S) (flag : Bool) : WellFormed ⟨.thin singleStructure, flag⟩ := by
  refine ⟨nofun, ?_, nofun⟩
  cases singleStructure with
  | none => exact List.nodup_nil
  | some single => exact List.nodup_singleton single

omit [DecidableEq S] in
theorem wellFormed_outOfLine {list : List S} (hnodup : list.Nodup) (hne : list ≠ []) (flag : Bool) :
    WellFormed ⟨.outOfLine list, flag⟩ := by
  refine ⟨nofun, hnodup, ?_⟩
  rintro _ ⟨⟩
  exact hne

omit [DecidableEq S] in
theorem isEmpty_iff (h : set.WellFormed) : set.isEmpty = true ↔ set.toList = [] := by
  obtain ⟨pointer, flag⟩ := set
  rcases pointer with (_ | single) | list | _
  · simp [isEmpty, toList]
  · simp [isEmpty, toList]
  · simpa [isEmpty, toList] using h.nonempty list rfl
  · exact absurd rfl h.notReserved

omit [DecidableEq S] in
theorem size_eq (h : set.WellFormed) : set.size = some set.toList.length := by
  obtain ⟨pointer, flag⟩ := set
  rcases pointer with (_ | single) | list | _
  · rfl
  · rfl
  · rfl
  · exact absurd rfl h.notReserved

theorem contains_eq (h : set.WellFormed) (x : S) : set.contains x = some (decide (x ∈ set.toList)) := by
  obtain ⟨pointer, flag⟩ := set
  rcases pointer with (_ | single) | list | _
  · simp [contains, toList]
  · simp [contains, toList, eq_comm]
  · rfl
  · exact absurd rfl h.notReserved

/-! ## Adding -/

/-- As `Grows`, for lists. -/
structure ListGrows (mine added : List S) (result : List S × Bool) : Prop where
  nodup : result.1.Nodup
  mem : ∀ x, x ∈ result.1 ↔ x ∈ mine ∨ x ∈ added
  unchanged : result.2 = false → result.1 = mine
  changed : result.2 = true → mine.length < result.1.length

theorem addOutOfLine_grows {mine : List S} (h : mine.Nodup) (x : S) : ListGrows mine [x] (addOutOfLine mine x) := by
  rw [addOutOfLine]
  split_ifs with hx
  · refine ⟨h, fun y => ?_, fun _ => rfl, nofun⟩
    simp only [List.mem_singleton, iff_self_or]
    rintro rfl
    exact hx
  · refine ⟨?_, fun y => by simp, nofun, fun _ => by simp⟩
    exact List.nodup_append.2 ⟨h, List.nodup_singleton x, by rintro y hy _ hx' rfl; simp_all⟩

theorem addAll_grows {mine : List S} (h : mine.Nodup) (list : List S) : ListGrows mine list (addAll mine list) := by
  induction list generalizing mine with
  | nil => exact ⟨h, by simp [addAll], fun _ => rfl, nofun⟩
  | cons x list ih =>
    obtain ⟨hnodup, hmem, hunchanged, hchanged⟩ := addOutOfLine_grows h x
    rw [addAll]
    obtain ⟨hnodup', hmem', hunchanged', hchanged'⟩ := ih hnodup
    refine ⟨hnodup', fun y => ?_, fun hfalse => ?_, fun htrue => ?_⟩
    · rw [hmem', hmem, List.mem_singleton, List.mem_cons, or_assoc]
    · obtain ⟨hx, hlist⟩ := Bool.or_eq_false_iff.1 hfalse
      exact (hunchanged' hlist).trans (hunchanged hx)
    · have hle : mine.length ≤ (addOutOfLine mine x).1.length := by
        cases hx : (addOutOfLine mine x).2 with
        | false => exact (congrArg List.length (hunchanged hx)).ge
        | true => exact (hchanged hx).le
      have hle' : (addOutOfLine mine x).1.length ≤ (addAll (addOutOfLine mine x).1 list).1.length := by
        cases hlist : (addAll (addOutOfLine mine x).1 list).2 with
        | false => exact (congrArg List.length (hunchanged' hlist)).ge
        | true => exact (hchanged' hlist).le
      rcases Bool.or_eq_true_iff.1 htrue with hx | hlist
      · exact (hchanged hx).trans_le hle'
      · exact hle.trans_lt (hchanged' hlist)

theorem add_grows (h : set.WellFormed) (x : S) : ∃ result, set.add x = some result ∧ set.Grows [x] result := by
  obtain ⟨pointer, flag⟩ := set
  rcases pointer with (_ | single) | list | _
  · exact ⟨_, rfl, wellFormed_thin _ _, rfl, by simp [toList], nofun, fun _ => Nat.one_pos⟩
  · rw [add]
    simp only
    split_ifs with heq
    · exact ⟨_, rfl, h, rfl, by simp [toList, heq], fun _ => rfl, nofun⟩
    · refine ⟨_, rfl, wellFormed_outOfLine ?_ (List.cons_ne_nil _ _) _, rfl, by simp [toList], nofun,
        fun _ => Nat.lt_succ_self 1⟩
      simpa using heq
  · obtain ⟨hnodup, hmem, hunchanged, hchanged⟩ := addOutOfLine_grows h.nodup x
    refine ⟨_, rfl, wellFormed_outOfLine hnodup ?_ _, rfl, hmem, fun hfalse => ?_, hchanged⟩
    · exact List.ne_nil_of_mem ((hmem x).2 (.inr (List.mem_singleton_self x)))
    · exact congrArg (fun list => (⟨.outOfLine list, flag⟩ : StructureSet S)) (hunchanged hfalse)
  · exact absurd rfl h.notReserved

theorem merge_list_grows (h : set.WellFormed) {list : List S} (hnodup : list.Nodup) (hlength : 2 ≤ list.length) :
    set.Grows list ({ set with m_pointer := .outOfLine (addAll set.toList list).1 }, (addAll set.toList list).2) := by
  obtain ⟨hnodup', hmem, hunchanged, hchanged⟩ := addAll_grows h.nodup list
  have hsubset : list ⊆ (addAll set.toList list).1 := fun x hx => (hmem x).2 (.inr hx)
  have hlong : list.length ≤ (addAll set.toList list).1.length := (hnodup.subperm hsubset).length_le
  refine ⟨wellFormed_outOfLine hnodup' (List.length_pos_iff.1 (by omega)) _, rfl, hmem, fun hfalse => ?_, hchanged⟩
  -- two structures that are already there are not in a thin set
  show StructureSet.mk (.outOfLine (addAll set.toList list).1) set.reservedFlag = set
  rw [hunchanged hfalse] at hlong ⊢
  obtain ⟨pointer, flag⟩ := set
  rcases pointer with (_ | single) | mine | _
  · exact absurd (hlength.trans hlong) (Nat.not_succ_le_zero 1)
  · exact absurd (hlength.trans hlong) (Nat.not_succ_le_self 1)
  · rfl
  · exact absurd rfl h.notReserved

theorem merge_grows (h : set.WellFormed) (hother : other.WellFormed) :
    ∃ result, set.merge other = some result ∧ set.Grows other.toList result := by
  obtain ⟨pointer, flag⟩ := other
  rcases pointer with (_ | single) | list | _
  · exact ⟨_, rfl, h, rfl, by simp [toList], fun _ => rfl, nofun⟩
  · exact add_grows h single
  · rw [merge]
    simp only
    split_ifs with hlength
    · refine ⟨_, ?_, merge_list_grows h hother.nodup hlength⟩
      obtain ⟨pointer, flag⟩ := set
      rcases pointer with singleStructure | mine | _
      · rfl
      · rfl
      · exact absurd rfl h.notReserved
    · obtain ⟨single, rfl⟩ : ∃ single, list = [single] := by
        refine List.length_eq_one_iff.1 ?_
        have := List.length_pos_iff.2 (hother.nonempty list rfl)
        omega
      exact add_grows h single
  · exact absurd rfl hother.notReserved

/-! ## Filtering -/

omit [DecidableEq S] in
/-- The element at `i` is gone, and what stood after it is still there. -/
theorem removeAt_append (front : List S) (x : S) (rest : List S) :
    ∃ rest', removeAt (front ++ x :: rest) front.length = front ++ rest' ∧ rest'.Perm rest := by
  rcases List.eq_nil_or_concat' rest with rfl | ⟨init, last, rfl⟩
  · exact ⟨[], by simp [removeAt], List.Perm.refl _⟩
  · refine ⟨last :: init, ?_, (List.perm_append_singleton last init).symm⟩
    have hlast : (front ++ x :: (init ++ [last])).getLast? = some last := by
      rw [← List.cons_append, ← List.append_assoc, List.getLast?_concat]
    have hset : (front ++ x :: (init ++ [last])).set front.length last = (front ++ last :: init) ++ [last] := by simp
    rw [removeAt, hlast]
    simp only [hset, List.dropLast_concat]

omit [DecidableEq S] in
/-- **The loop keeps what the functor holds of**, in some order. -/
theorem filterLoop_perm (functor : S → Bool) (fuel : Nat) (front rest : List S) (hfuel : rest.length ≤ fuel) :
    (filterLoop functor fuel (front ++ rest) front.length).Perm (front ++ rest.filter functor) := by
  induction fuel generalizing front rest with
  | zero =>
    obtain rfl := List.length_eq_zero_iff.1 (Nat.le_zero.1 hfuel)
    exact List.Perm.refl _
  | succ fuel ih =>
    cases rest with
    | nil => simp [filterLoop]
    | cons x rest =>
      have hget : (front ++ x :: rest)[front.length]? = some x := by simp
      rw [List.length_cons] at hfuel
      rw [filterLoop, hget]
      simp only [List.filter_cons]
      split_ifs with hx
      · have := ih (front ++ [x]) rest (by omega)
        simpa using this
      · obtain ⟨rest', heq, hperm⟩ := removeAt_append front x rest
        rw [heq]
        refine (ih front rest' (by rw [hperm.length_eq]; omega)).trans ?_
        exact (hperm.filter functor).append_left front

theorem genericFilter_narrows (h : set.WellFormed) (functor : S → Bool) :
    ∃ result, set.genericFilter functor = some result ∧ set.Narrows (functor · = true) result := by
  obtain ⟨pointer, flag⟩ := set
  rcases pointer with (_ | single) | list | _
  · exact ⟨_, rfl, h, rfl, by simp [toList]⟩
  · rw [genericFilter]
    simp only
    split_ifs with hsingle
    · refine ⟨_, rfl, h, rfl, fun x => ?_⟩
      simp only [toList, Option.toList_some, List.mem_singleton, iff_self_and]
      rintro rfl
      exact hsingle
    · refine ⟨_, rfl, wellFormed_thin _ _, rfl, fun x => ?_⟩
      simp only [toList, clear, Option.toList_none, List.not_mem_nil, Option.toList_some, List.mem_singleton, false_iff,
        not_and]
      rintro rfl
      exact hsingle
  · have hperm : (filterLoop functor list.length list 0).Perm (list.filter functor) :=
      filterLoop_perm functor list.length [] list le_rfl
    refine ⟨_, rfl, ?_⟩
    split_ifs with hempty
    · refine ⟨wellFormed_thin _ _, rfl, fun x => ?_⟩
      have hnil : list.filter functor = [] := by
        rw [List.isEmpty_iff.1 hempty] at hperm
        exact hperm.nil_eq.symm
      simp [toList, clear, ← List.mem_filter, hnil]
    · refine ⟨wellFormed_outOfLine ?_ ?_ _, rfl, fun x => ?_⟩
      · exact hperm.nodup_iff.2 (h.nodup.filter _)
      · simpa using hempty
      · exact hperm.mem_iff.trans List.mem_filter
  · exact absurd rfl h.notReserved

theorem filter_narrows (h : set.WellFormed) (hother : other.WellFormed) :
    ∃ result, set.filter other = some result ∧ set.Narrows (· ∈ other.toList) result := by
  obtain ⟨pointer, flag⟩ := other
  rcases pointer with (_ | single) | list | _
  · exact ⟨_, rfl, wellFormed_thin _ _, rfl, by simp⟩
  · rw [filter]
    simp only [contains_eq h, Option.map_some, Bool.not_eq_true', decide_eq_false_iff_not]
    split_ifs with hsingle
    · refine ⟨_, rfl, wellFormed_thin _ _, rfl, fun x => ?_⟩
      simp only [toList_thin, Option.toList_some, List.mem_singleton, iff_and_self]
      rintro rfl
      exact hsingle
    · refine ⟨_, rfl, wellFormed_thin _ _, rfl, fun x => ?_⟩
      simp only [toList_clear, List.not_mem_nil, toList_thin, Option.toList_some, List.mem_singleton, false_iff, not_and]
      rintro hx rfl
      exact hsingle hx
  · obtain ⟨result, hresult, hnarrows⟩ := genericFilter_narrows h fun x => decide (x ∈ list)
    exact ⟨result, hresult, hnarrows.wellFormed, hnarrows.flag, by simpa using hnarrows.mem⟩
  · exact absurd rfl hother.notReserved

theorem filterSelf_narrows (h : set.WellFormed) (hthin : set.isThin = true → set.toList = []) :
    ∃ result, set.filterSelf = some result ∧ set.Narrows (fun _ => True) result := by
  obtain ⟨pointer, flag⟩ := set
  rcases pointer with singleStructure | list | _
  · refine ⟨_, rfl, wellFormed_thin _ _, rfl, fun x => ?_⟩
    rw [hthin rfl]
    simp [toList, clear]
  · obtain ⟨result, hresult, hnarrows⟩ := genericFilter_narrows h fun x => decide (x ∈ list)
    refine ⟨result, hresult, hnarrows.wellFormed, hnarrows.flag, fun x => ?_⟩
    rw [hnarrows.mem]
    simp [toList]
  · exact absurd rfl h.notReserved

theorem isSubsetOf_eq (h : set.WellFormed) (hother : other.WellFormed) :
    ∃ result, set.isSubsetOf other = some result ∧ (result = true ↔ set.toList ⊆ other.toList) := by
  obtain ⟨pointer, flag⟩ := set
  rcases pointer with (_ | single) | list | _
  · exact ⟨true, rfl, by simp [toList]⟩
  · exact ⟨_, contains_eq hother single, by simp⟩
  · have hne := h.nonempty list rfl
    obtain ⟨pointer', flag'⟩ := other
    rcases pointer' with (_ | single) | list' | _
    · exact ⟨false, rfl, by simpa [toList, List.subset_nil] using hne⟩
    · rw [isSubsetOf]
      simp only
      split_ifs with hlength
      · refine ⟨false, rfl, nofun, fun hsubset => ?_⟩
        have := (List.Nodup.subperm h.nodup hsubset).length_le
        exact absurd (hlength.trans this) (by simp [toList])
      · obtain ⟨first, rfl⟩ : ∃ first, list = [first] := by
          refine List.length_eq_one_iff.1 ?_
          have := List.length_pos_iff.2 hne
          omega
        exact ⟨_, rfl, by simp [toList]⟩
    · exact ⟨_, rfl, by simp [toList, List.subset_def]⟩
    · exact absurd rfl hother.notReserved
  · exact absurd rfl h.notReserved

theorem overlaps_eq (h : set.WellFormed) (hother : other.WellFormed) :
    ∃ result, set.overlaps other = some result ∧ (result = true ↔ ∃ x ∈ set.toList, x ∈ other.toList) := by
  obtain ⟨pointer, flag⟩ := set
  rcases pointer with (_ | single) | list | _
  · exact ⟨false, rfl, by simp [toList]⟩
  · exact ⟨_, contains_eq hother single, by simp⟩
  · obtain ⟨pointer', flag'⟩ := other
    rcases pointer' with (_ | single) | list' | _
    · exact ⟨false, rfl, by simp [toList]⟩
    · exact ⟨_, rfl, by simp [toList]⟩
    · exact ⟨_, rfl, by simp [toList]⟩
    · exact absurd rfl hother.notReserved
  · exact absurd rfl h.notReserved

end StructureSet

end WebKit.JSC
