import WebKit.Lib.SortedList
import WebKit.WebCore.HTMLEntitySearch
import Mathlib.Order.Lattice.Nat

/-!
# The entity search finds the entries that start with its characters

In the range of the entries with a prefix, the entries whose next character comes before a character, is it, or comes
after it follow each other (`before_of_lt`, `after_of_lt`). Both searches end between two neighbours (`narrow_spec`):
`findFirst` at the first entry that goes on, if any does (`findFirst_spec`), and `findLast`, from there, at the last one
or where it started (`findLast_spec`). So every character keeps `Follows` (`Follows.advance`), for every sequence of
characters (`entity_search_exact`).
-/

namespace WebKit.WebCore

open WebKit.Lib

instance isStrictOrderUInt16 : IsStrictOrder UInt16 (· < ·) where
  irrefl := UInt16.lt_irrefl
  trans _ _ _ := UInt16.lt_trans

variable {table : HTMLEntityTable} {characters : List UInt16} {s : HTMLEntitySearch} {c : UInt16}
variable {entry entry' : HTMLEntityTableEntry} {i j : Nat}

/-! ## The table -/

@[simp] theorem length_name (entry : HTMLEntityTableEntry) : entry.name.length = entry.length := by
  simp [HTMLEntityTableEntry.name, HTMLEntityTableEntry.length]

theorem lex_of_lt (hij : i < j) (hi : table.entries[i]? = some entry) (hj : table.entries[j]? = some entry') :
    List.Lex (· < ·) entry.name entry'.name := by
  obtain ⟨hi', rfl⟩ := List.getElem?_eq_some_iff.1 hi
  obtain ⟨hj', rfl⟩ := List.getElem?_eq_some_iff.1 hj
  exact List.pairwise_iff_getElem.1 table.sorted i j hi' hj' hij

/-- Where the entry comes relative to the entries that have `c` at `n`. -/
def side (entry : HTMLEntityTableEntry) (n : Nat) (c : UInt16) : CompareResult :=
  match entry.name[n]? with
  | none => .Before
  | some x => if x = c then .Prefix else if x < c then .Before else .After

theorem side_eq_Before {n : Nat} : side entry n c = .Before ↔ Below (· < ·) entry.name n c := by
  unfold side Below
  cases entry.name[n]? with
  | none => simp
  | some x =>
    by_cases hx : x = c
    · simp [hx]
    · by_cases hlt : x < c <;> simp [hx, hlt]

theorem side_eq_Prefix {n : Nat} : side entry n c = .Prefix ↔ entry.name[n]? = some c := by
  unfold side
  cases entry.name[n]? with
  | none => simp
  | some x =>
    by_cases hx : x = c
    · simp [hx]
    · by_cases hlt : x < c <;> simp [hx, hlt]

theorem side_eq_After {n : Nat} : side entry n c = .After ↔ Above (· < ·) entry.name n c := by
  unfold side Above
  cases entry.name[n]? with
  | none => simp
  | some x =>
    by_cases hx : x = c
    · simp [hx]
    · by_cases hlt : x < c
      · simp [hx, hlt, UInt16.le_of_lt hlt]
      · have hgt : c < x := UInt16.lt_of_le_of_ne (UInt16.not_lt.1 hlt) (Ne.symm hx)
        simp [hx, hlt, hgt]

theorem compare_eq (hi : table.entries[i]? = some entry) :
    s.compare table i c = some (side entry s.m_currentLength c) := by
  unfold HTMLEntitySearch.compare side
  rw [hi, Option.bind_eq_bind, Option.bind_some]
  by_cases hlength : entry.length < s.m_currentLength + 1
  · have hnone : entry.name[s.m_currentLength]? = none := List.getElem?_eq_none (by rw [length_name]; omega)
    rw [if_pos hlength, hnone]
    rfl
  · have hlt : s.m_currentLength < entry.entity.length := by
      unfold HTMLEntityTableEntry.length at hlength
      omega
    have hname : entry.name[s.m_currentLength]? = some entry.entity[s.m_currentLength].toUInt16 := by
      rw [HTMLEntityTableEntry.name, List.getElem?_map, List.getElem?_eq_getElem hlt, Option.map_some]
    rw [if_neg hlength, List.getElem?_eq_getElem hlt, Option.bind_eq_bind, Option.bind_some, hname]
    simp only
    split_ifs <;> rfl

/-- The loop ends between neighbours. -/
theorem narrow_spec (goesLeft : Nat → Option Bool) (q : Nat → Bool) {left right : Nat} (hlt : left < right)
    (hq : ∀ i, left < i → i < right → goesLeft i = some (q i)) :
    ∃ l, HTMLEntitySearch.narrow goesLeft left right = some (l, l + 1) ∧ left ≤ l ∧ l < right ∧
      (l = left ∨ q l = true) ∧ (l + 1 = right ∨ q (l + 1) = false) := by
  induction hn : right - left using Nat.strong_induction_on generalizing left right with
  | _ n ih =>
    rw [HTMLEntitySearch.narrow]
    by_cases hgap : left + 1 < right
    · have hhalfway : left < HTMLEntitySearch.halfway left right ∧ HTMLEntitySearch.halfway left right < right := by
        unfold HTMLEntitySearch.halfway
        omega
      obtain ⟨hleft, hright⟩ := hhalfway
      rw [if_pos hgap]
      simp only [hq _ hleft hright, Option.bind_eq_bind, Option.bind_some]
      cases hprobe : q (HTMLEntitySearch.halfway left right) with
      | true =>
        obtain ⟨l, hnarrow, hle, hlt', hl, hr⟩ := ih _ (by omega) hright (fun i hi hi' => hq i (by omega) hi') rfl
        refine ⟨l, hnarrow, by omega, hlt', Or.inr ?_, hr⟩
        rcases hl with rfl | hl
        · exact hprobe
        · exact hl
      | false =>
        obtain ⟨l, hnarrow, hle, hlt', hl, hr⟩ := ih _ (by omega) hleft (fun i hi hi' => hq i hi (by omega)) rfl
        refine ⟨l, hnarrow, hle, by omega, hl, Or.inr ?_⟩
        rcases hr with hr | hr
        · rw [hr, hprobe]
        · exact hr
    · obtain rfl : right = left + 1 := by omega
      exact ⟨left, if_neg hgap, Nat.le_refl _, hlt, Or.inl rfl, Or.inl rfl⟩

/-! ## The range of a prefix -/

/-- Entries from `f` to `l`, and no others, have names that start with the characters. -/
def IsRange (table : HTMLEntityTable) (characters : List UInt16) (f l : Nat) : Prop :=
  f ≤ l ∧ ∀ i, StartsWith table.entries characters i ↔ f ≤ i ∧ i ≤ l

/-- Where entry `i` comes relative to the entries that have `c` at `n`. -/
def sideAt (table : HTMLEntityTable) (n : Nat) (c : UInt16) (i : Nat) : CompareResult :=
  match table.entries[i]? with
  | some entry => side entry n c
  | none => .After

section

variable {f l : Nat} (hrange : IsRange table characters f l)

include hrange

theorem compare_at (hlength : s.m_currentLength = characters.length) (hfi : f ≤ i) (hil : i ≤ l) :
    s.compare table i c = some (sideAt table characters.length c i) := by
  obtain ⟨entry, hi, -⟩ := (hrange.2 i).2 ⟨hfi, hil⟩
  rw [compare_eq hi, sideAt, hi, hlength]

theorem before_of_lt (hfi : f ≤ i) (hij : i < j) (hjl : j ≤ l) (h : sideAt table characters.length c j = .Before) :
    sideAt table characters.length c i = .Before := by
  obtain ⟨entry, hi, hstart⟩ := (hrange.2 i).2 ⟨hfi, by omega⟩
  obtain ⟨entry', hj, hstart'⟩ := (hrange.2 j).2 ⟨by omega, hjl⟩
  simp only [sideAt, hi, hj, side_eq_Before] at h ⊢
  exact h.of_lex (lex_of_lt hij hi hj) hstart hstart'

theorem after_of_lt (hfi : f ≤ i) (hij : i < j) (hjl : j ≤ l) (h : sideAt table characters.length c i = .After) :
    sideAt table characters.length c j = .After := by
  obtain ⟨entry, hi, hstart⟩ := (hrange.2 i).2 ⟨hfi, by omega⟩
  obtain ⟨entry', hj, hstart'⟩ := (hrange.2 j).2 ⟨by omega, hjl⟩
  simp only [sideAt, hi, hj, side_eq_After] at h ⊢
  exact h.of_lex (lex_of_lt hij hi hj) hstart hstart'

theorem startsWith_concat_iff :
    StartsWith table.entries (characters ++ [c]) i ↔
      (f ≤ i ∧ i ≤ l) ∧ sideAt table characters.length c i = .Prefix := by
  rw [← hrange.2]
  constructor
  · rintro ⟨entry, hi, hstart⟩
    obtain ⟨hstart', hc⟩ := prefix_append_iff.1 hstart
    refine ⟨⟨entry, hi, hstart'⟩, ?_⟩
    simpa only [sideAt, hi, side_eq_Prefix] using hc
  · rintro ⟨⟨entry, hi, hstart⟩, hside⟩
    simp only [sideAt, hi, side_eq_Prefix] at hside
    exact ⟨entry, hi, prefix_append_iff.2 ⟨hstart, hside⟩⟩

variable (hlength : s.m_currentLength = characters.length) (hlast : s.m_last = some l)

include hlength hlast

/-- **`findFirst` finds the first entry that goes on**, or else the last entry or one that comes after. -/
theorem findFirst_spec (hfirst : s.m_first = some f) (c : UInt16) :
    ∃ f', s.findFirst table c = some f' ∧ f ≤ f' ∧ f' ≤ l ∧
      (∀ i, f ≤ i → i < f' → sideAt table characters.length c i ≠ .Prefix) ∧
      (f' = l ∨ sideAt table characters.length c f' ≠ .Before) := by
  have hle := hrange.1
  by_cases heq : f = l
  · refine ⟨f, by simp [HTMLEntitySearch.findFirst, hfirst, hlast, heq], Nat.le_refl f, hle, ?_, Or.inl heq⟩
    intro i hi hif
    omega
  have hcompare := compare_at (c := c) hrange hlength (Nat.le_refl f) hle
  cases hside : sideAt table characters.length c f with
  | Prefix =>
    refine ⟨f, by simp [HTMLEntitySearch.findFirst, hfirst, hlast, heq, hcompare, hside], Nat.le_refl f, hle, ?_, ?_⟩
    · intro i hi hif
      omega
    · exact Or.inr (by simp [hside])
  | After =>
    refine ⟨l, by simp [HTMLEntitySearch.findFirst, hfirst, hlast, heq, hcompare, hside], hle, Nat.le_refl l, ?_,
      Or.inl rfl⟩
    intro i hi hil
    rcases Nat.eq_or_lt_of_le hi with rfl | hfi
    · simp [hside]
    · simp [after_of_lt hrange (Nat.le_refl f) hfi (by omega) hside]
  | Before =>
    obtain ⟨l', hnarrow, hfl', hl'l, hl', hr'⟩ := narrow_spec
      (fun probe => do return (← s.compare table probe c) = .Before)
      (fun i => sideAt table characters.length c i = .Before) (show f < l by omega)
      (fun i hi hil => by simp [compare_at hrange hlength hi.le hil.le])
    have hbefore : sideAt table characters.length c l' = .Before := by
      rcases hl' with rfl | hl'
      · exact hside
      · simpa using hl'
    refine ⟨l' + 1, ?_, by omega, hl'l, ?_, by simpa using hr'⟩
    · simp only [HTMLEntitySearch.findFirst, hfirst, hlast, heq, hcompare, hside, Option.bind_eq_bind, Option.bind_some,
        if_false]
      simp only [Option.bind_eq_bind] at hnarrow
      rw [hnarrow]
      rfl
    · intro i hi hil'
      rcases Nat.eq_or_lt_of_le (Nat.le_of_lt_succ hil') with rfl | hil'
      · simp [hbefore]
      · simp [before_of_lt hrange hi hil' (by omega) hbefore]

/-- **`findLast` finds the last entry that goes on**, if the first one does. It stays where it is if that one comes
after. -/
theorem findLast_spec (hfirst : s.m_first = some i) (hfi : f ≤ i) (hil : i ≤ l) (c : UInt16) :
    ∃ l', s.findLast table c = some l' ∧ i ≤ l' ∧ l' ≤ l ∧
      (sideAt table characters.length c i = .Prefix →
        sideAt table characters.length c l' = .Prefix ∧
          ∀ j, l' < j → j ≤ l → sideAt table characters.length c j ≠ .Prefix) ∧
      (i = l ∨ sideAt table characters.length c i = .After → l' = i) := by
  have hle := hrange.1
  by_cases heq : i = l
  · refine ⟨i, by simp [HTMLEntitySearch.findLast, hfirst, hlast, heq], Nat.le_refl i, hil, ?_, fun _ => rfl⟩
    refine fun hstart => ⟨hstart, fun j hj hjl => ?_⟩
    omega
  have hcompare := compare_at (c := c) hrange hlength hle (Nat.le_refl l)
  cases hside : sideAt table characters.length c l with
  | Prefix =>
    refine ⟨l, by simp [HTMLEntitySearch.findLast, hfirst, hlast, hcompare, hside], hil, Nat.le_refl l, ?_, ?_⟩
    · refine fun _ => ⟨hside, fun j hj hjl => ?_⟩
      omega
    · rintro (rfl | hafter)
      · rfl
      · have := after_of_lt hrange hfi (by omega) (Nat.le_refl l) hafter
        simp [hside] at this
  | Before =>
    refine ⟨i, by simp [HTMLEntitySearch.findLast, hfirst, hlast, heq, hcompare, hside], Nat.le_refl i, hil, ?_,
      fun _ => rfl⟩
    intro hstart
    have := before_of_lt hrange hfi (by omega) (Nat.le_refl l) hside
    simp [hstart] at this
  | After =>
    obtain ⟨l', hnarrow, hil', hl'l, hl', hr'⟩ := narrow_spec
      (fun probe => do return (← s.compare table probe c) ≠ .After)
      (fun i => sideAt table characters.length c i ≠ .After) (show i < l by omega)
      (fun j hj hjl => by simp [compare_at hrange hlength (show f ≤ j by omega) hjl.le])
    have hafter : sideAt table characters.length c (l' + 1) = .After := by
      rcases hr' with hr' | hr'
      · rwa [hr']
      · simpa using hr'
    refine ⟨l', ?_, hil', hl'l.le, ?_, ?_⟩
    · simp only [HTMLEntitySearch.findLast, hfirst, hlast, heq, hcompare, hside, Option.bind_eq_bind, Option.bind_some,
        if_false]
      simp only [Option.bind_eq_bind] at hnarrow
      rw [hnarrow]
      rfl
    · intro hstart
      constructor
      · rcases hl' with rfl | hl'
        · exact hstart
        · rcases Nat.eq_or_lt_of_le hil' with rfl | hlt
          · exact hstart
          · cases hside' : sideAt table characters.length c l' with
            | Prefix => rfl
            | After => simp [hside'] at hl'
            | Before =>
              have := before_of_lt hrange hfi hlt hl'l.le hside'
              simp [hstart] at this
      · intro j hj hjl
        rcases Nat.eq_or_lt_of_le (Nat.succ_le_of_lt hj) with rfl | hlt
        · simp [hafter]
        · simp [after_of_lt hrange (by omega) hlt hjl hafter]
    · rintro (rfl | hafter')
      · exact absurd rfl heq
      · rcases hl' with rfl | hl'
        · rfl
        · rcases Nat.eq_or_lt_of_le hil' with rfl | hlt
          · rfl
          · simp [after_of_lt hrange hfi hlt hl'l.le hafter'] at hl'

end

/-! ## The most recent match -/

/-- The entry with the longest name that is a prefix of the characters, if there is one. -/
def IsLongestMatch (table : HTMLEntityTable) (characters : List UInt16) : Option Nat → Prop
  | none => ∀ (i : Nat) (entry : HTMLEntityTableEntry), table.entries[i]? = some entry → ¬ entry.name <+: characters
  | some m => ∃ entry, table.entries[m]? = some entry ∧ entry.name <+: characters ∧
      ∀ (i : Nat) (entry' : HTMLEntityTableEntry), table.entries[i]? = some entry' → entry'.name <+: characters →
        entry'.length ≤ entry.length

theorem isLongestMatch_of_name_eq (hi : table.entries[i]? = some entry) (hname : entry.name = characters) :
    IsLongestMatch table characters (some i) := by
  refine ⟨entry, hi, by rw [hname], fun j entry' hj hstart => ?_⟩
  rw [← length_name, ← length_name, hname]
  exact hstart.length_le

theorem IsLongestMatch.concat {m : Option Nat} (h : IsLongestMatch table characters m)
    (hnone : ∀ (i : Nat) (entry : HTMLEntityTableEntry), table.entries[i]? = some entry →
      entry.name ≠ characters ++ [c]) :
    IsLongestMatch table (characters ++ [c]) m := by
  cases m with
  | none =>
    intro i entry hi hstart
    rcases List.prefix_concat_iff.1 hstart with hname | hstart
    · exact hnone i entry hi hname
    · exact h i entry hi hstart
  | some m =>
    obtain ⟨entry, hm, hstart, hlongest⟩ := h
    refine ⟨entry, hm, hstart.trans (List.prefix_append _ _), fun i entry' hi hstart' => ?_⟩
    rcases List.prefix_concat_iff.1 hstart' with hname | hstart'
    · exact absurd hname (hnone i entry' hi)
    · exact hlongest i entry' hi hstart'

/-! ## Every character -/

/-- What the search has found for the characters. -/
structure Follows (table : HTMLEntityTable) (characters : List UInt16) (s : HTMLEntitySearch) : Prop where
  range : (s.m_first = none ∧ s.m_last = none ∧ ∀ i, ¬ StartsWith table.entries characters i) ∨
    ∃ f l, s.m_first = some f ∧ s.m_last = some l ∧ IsRange table characters f l ∧
      s.m_currentLength = characters.length
  mostRecentMatch : IsLongestMatch table characters s.m_mostRecentMatch

theorem follows_construct (table : HTMLEntityTable) : Follows table [] (.construct table) where
  range := by
    have hpos := List.length_pos_iff.2 table.entries_ne_nil
    refine Or.inr ⟨0, table.entries.length - 1, rfl, rfl, ⟨Nat.zero_le _, fun i => ?_⟩, rfl⟩
    constructor
    · rintro ⟨entry, hi, -⟩
      have := (List.getElem?_eq_some_iff.1 hi).1
      omega
    · rintro ⟨-, hi⟩
      exact ⟨_, List.getElem?_eq_getElem (by omega), List.nil_prefix⟩
  mostRecentMatch := by
    intro i entry hi hstart
    exact table.name_ne_nil entry (List.mem_of_getElem? hi) (List.prefix_nil.1 hstart)

/-- No entry goes on. -/
theorem Follows.fail (h : Follows table characters s)
    (hnone : ∀ i, ¬ StartsWith table.entries (characters ++ [c]) i) {s' : HTMLEntitySearch}
    (hmatch : s'.m_mostRecentMatch = s.m_mostRecentMatch) : Follows table (characters ++ [c]) s'.fail where
  range := Or.inl ⟨rfl, rfl, hnone⟩
  mostRecentMatch := by
    show IsLongestMatch table (characters ++ [c]) s'.m_mostRecentMatch
    rw [hmatch]
    apply h.mostRecentMatch.concat
    intro i entry hi hname
    exact hnone i ⟨entry, hi, by rw [hname]⟩

theorem Follows.proceed (h : Follows table characters s) (s' : HTMLEntitySearch) {f l : Nat}
    (hrange : IsRange table (characters ++ [c]) f l) (hfirst : s'.m_first = some f) (hlast : s'.m_last = some l)
    (hlength : s'.m_currentLength = characters.length) (hmatch : s'.m_mostRecentMatch = s.m_mostRecentMatch) :
    ∃ s'', s'.proceed table = some s'' ∧ Follows table (characters ++ [c]) s'' := by
  obtain ⟨entry, hf, hstart⟩ := (hrange.2 f).2 ⟨Nat.le_refl f, hrange.1⟩
  by_cases hentry : entry.length = characters.length + 1
  · have hname : characters ++ [c] = entry.name := hstart.eq_of_length (by simpa using hentry.symm)
    refine ⟨{ s' with m_currentLength := s'.m_currentLength + 1, m_mostRecentMatch := some f }, ?_, ?_, ?_⟩
    · simp [HTMLEntitySearch.proceed, hfirst, hf, hlength, hentry]
    · exact Or.inr ⟨f, l, hfirst, hlast, hrange, by simp [hlength]⟩
    · exact isLongestMatch_of_name_eq hf hname.symm
  · refine ⟨{ s' with m_currentLength := s'.m_currentLength + 1 }, ?_, ?_, ?_⟩
    · simp [HTMLEntitySearch.proceed, hfirst, hf, hlength, hentry]
    · exact Or.inr ⟨f, l, hfirst, hlast, hrange, by simp [hlength]⟩
    · show IsLongestMatch table (characters ++ [c]) s'.m_mostRecentMatch
      rw [hmatch]
      apply h.mostRecentMatch.concat
      intro i entry' hi hname
      have hfi := ((hrange.2 i).1 ⟨entry', hi, by rw [hname]⟩).1
      rcases Nat.eq_or_lt_of_le hfi with rfl | hfi
      · obtain rfl : entry = entry' := Option.some.inj (hf.symm.trans hi)
        exact hentry (by simpa using congrArg List.length hname)
      · have hlex := lex_of_lt hfi hf hi
        rw [hname] at hlex
        exact not_lex_of_prefix hstart hlex

theorem isRange_of_initial {f l : Nat} (hf : table.firstEntryStartingWith c = some f)
    (hl : table.lastEntryStartingWith c = some l) : IsRange table [c] f l := by
  obtain ⟨hfirst, hleast⟩ := (table.firstEntryStartingWith_iff c f).1 hf
  obtain ⟨hlast, hgreatest⟩ := (table.lastEntryStartingWith_iff c l).1 hl
  refine ⟨hleast hlast, fun i => ⟨fun hi => ⟨hleast hi, hgreatest hi⟩, ?_⟩⟩
  rintro ⟨hfi, hil⟩
  rcases Nat.eq_or_lt_of_le hfi with rfl | hfi
  · exact hfirst
  rcases Nat.eq_or_lt_of_le hil with rfl | hil
  · exact hlast
  obtain ⟨entry, hf', hstart⟩ := hfirst
  obtain ⟨entry', hl', hstart'⟩ := hlast
  have hi : i < table.entries.length := by
    have := (List.getElem?_eq_some_iff.1 hl').1
    omega
  have hi' := List.getElem?_eq_getElem hi
  exact ⟨_, hi', prefix_of_between (lex_of_lt hfi hf' hi') (lex_of_lt hil hi' hl') hstart hstart'⟩

theorem not_startsWith_of_initial
    (h : table.firstEntryStartingWith c = none ∨ table.lastEntryStartingWith c = none) (i : Nat) :
    ¬ StartsWith table.entries [c] i := by
  intro hi
  have hbound : BddAbove (StartsWith table.entries [c]) := by
    refine ⟨table.entries.length, ?_⟩
    rintro j ⟨entry, hj, -⟩
    exact (List.getElem?_eq_some_iff.1 hj).1.le
  have hleast : IsLeast (StartsWith table.entries [c]) (sInf (StartsWith table.entries [c])) :=
    ⟨Nat.sInf_mem ⟨i, hi⟩, fun j hj => Nat.sInf_le hj⟩
  have hgreatest : IsGreatest (StartsWith table.entries [c]) (sSup (StartsWith table.entries [c])) :=
    ⟨Nat.sSup_mem ⟨i, hi⟩ hbound, fun j hj => le_csSup hbound hj⟩
  rw [← table.firstEntryStartingWith_iff] at hleast
  rw [← table.lastEntryStartingWith_iff] at hgreatest
  rcases h with h | h
  · simp [h] at hleast
  · simp [h] at hgreatest

theorem Follows.advance_first (h : Follows table [] s) (hlength : s.m_currentLength = 0) (c : UInt16) :
    ∃ s', s.advance table c = some s' ∧ Follows table [c] s' := by
  cases hf : table.firstEntryStartingWith c with
  | none =>
    refine ⟨{ s with m_first := none, m_last := table.lastEntryStartingWith c }.fail,
      by simp [HTMLEntitySearch.advance, hlength, hf], ?_⟩
    exact Follows.fail (c := c) h (not_startsWith_of_initial (Or.inl hf)) rfl
  | some f =>
    cases hl : table.lastEntryStartingWith c with
    | none =>
      refine ⟨{ s with m_first := some f, m_last := none }.fail,
        by simp [HTMLEntitySearch.advance, hlength, hf, hl], ?_⟩
      exact Follows.fail (c := c) h (not_startsWith_of_initial (Or.inr hl)) rfl
    | some l =>
      obtain ⟨s', hproceed, hs'⟩ := Follows.proceed (c := c) h { s with m_first := some f, m_last := some l }
        (isRange_of_initial hf hl) rfl rfl hlength rfl
      exact ⟨s', by simpa [HTMLEntitySearch.advance, hlength, hf, hl] using hproceed, hs'⟩

theorem Follows.advance_next (h : Follows table characters s) {f l : Nat} (hfirst : s.m_first = some f)
    (hlast : s.m_last = some l) (hrange : IsRange table characters f l)
    (hlength : s.m_currentLength = characters.length) (hpos : characters ≠ []) (c : UInt16) :
    ∃ s', s.advance table c = some s' ∧ Follows table (characters ++ [c]) s' := by
  have hpos' : s.m_currentLength ≠ 0 := by rwa [hlength, ne_eq, List.length_eq_zero_iff]
  obtain ⟨f', hfind, hff', hf'l, hbelow, hside⟩ := findFirst_spec hrange hlength hlast hfirst c
  obtain ⟨l', hfind', hbounds', hl'l, hgoes, hstays⟩ :=
    findLast_spec (s := { s with m_first := some f' }) hrange hlength hlast rfl hff' hf'l c
  have hcompare := compare_at (s := { s with m_first := some f', m_last := some l' }) (c := c) hrange hlength hff' hf'l
  by_cases hstart : sideAt table characters.length c f' = .Prefix
  · obtain ⟨hstart', habove⟩ := hgoes hstart
    have hrange' : IsRange table (characters ++ [c]) f' l' := by
      refine ⟨hbounds', fun i => ?_⟩
      rw [startsWith_concat_iff hrange]
      constructor
      · rintro ⟨⟨hfi, hil⟩, hi⟩
        constructor
        · by_contra hlt
          exact hbelow i hfi (by omega) hi
        · by_contra hlt
          exact habove i (by omega) hil hi
      · rintro ⟨hf'i, hil'⟩
        refine ⟨⟨by omega, by omega⟩, ?_⟩
        cases hi : sideAt table characters.length c i with
        | Prefix => rfl
        | Before =>
          rcases Nat.eq_or_lt_of_le hf'i with rfl | hlt
          · simp [hstart] at hi
          · simp [before_of_lt hrange hff' hlt (by omega) hi] at hstart
        | After =>
          rcases Nat.eq_or_lt_of_le hil' with rfl | hlt
          · simp [hstart'] at hi
          · simp [after_of_lt hrange (by omega) hlt hl'l hi] at hstart'
    obtain ⟨s', hproceed, hs'⟩ := h.proceed { s with m_first := some f', m_last := some l' } hrange' rfl rfl
      hlength rfl
    exact ⟨s', by simp [HTMLEntitySearch.advance, hpos', hfind, hfind', hcompare, hstart, hproceed], hs'⟩
  · have hend : f' = l ∨ sideAt table characters.length c f' = .After := by
      rcases hside with heq | hside
      · exact Or.inl heq
      · cases hi : sideAt table characters.length c f' with
        | Prefix => exact absurd hi hstart
        | Before => exact absurd hi hside
        | After => exact Or.inr rfl
    obtain rfl : l' = f' := hstays hend
    refine ⟨_, by simp [HTMLEntitySearch.advance, hpos', hfind, hfind', hcompare, hstart]; rfl, ?_⟩
    apply h.fail _ rfl
    intro i hi
    obtain ⟨⟨hfi, hil⟩, hi⟩ := (startsWith_concat_iff hrange).1 hi
    rcases Nat.lt_trichotomy i l' with hlt | rfl | hlt
    · exact hbelow i hfi hlt hi
    · exact hstart hi
    · rcases hend with rfl | hafter
      · omega
      · simp [after_of_lt hrange hff' hlt hil hafter] at hi

/-- **Every character is followed.** -/
theorem Follows.advance (h : Follows table characters s) (hstart : s.isEntityPrefix) (c : UInt16) :
    ∃ s', s.advance table c = some s' ∧ Follows table (characters ++ [c]) s' := by
  rcases h.range with ⟨hfirst, -, -⟩ | ⟨f, l, hfirst, hlast, hrange, hlength⟩
  · simp [HTMLEntitySearch.isEntityPrefix, hfirst] at hstart
  · by_cases hnil : characters = []
    · subst hnil
      exact h.advance_first hlength c
    · exact h.advance_next hfirst hlast hrange hlength hnil c

theorem Fed.follows (fed : Fed table characters s) : Follows table characters s := by
  induction fed with
  | construct => exact follows_construct table
  | advance fed hstart hadvance ih =>
    obtain ⟨s', hadvance', hs'⟩ := ih.advance hstart _
    obtain rfl := Option.some.inj (hadvance.symm.trans hadvance')
    exact hs'

/-- **A search that was fed characters knows exactly the entries that start with them and the longest entry that they
start with, and takes any further character.** -/
theorem entity_search_exact (fed : Fed table characters s) :
    (s.isEntityPrefix = true ↔ ∃ i, StartsWith table.entries characters i) ∧
      (s.isEntityPrefix = true → ∃ f l, s.m_first = some f ∧ s.m_last = some l ∧
        ∀ i, StartsWith table.entries characters i ↔ f ≤ i ∧ i ≤ l) ∧
      IsLongestMatch table characters s.m_mostRecentMatch ∧
      (s.isEntityPrefix = true → ∀ c, ∃ s', s.advance table c = some s') := by
  have h := fed.follows
  refine ⟨?_, ?_, h.mostRecentMatch, ?_⟩
  · rcases h.range with ⟨hfirst, -, hnone⟩ | ⟨f, l, hfirst, -, hrange, -⟩
    · simp [HTMLEntitySearch.isEntityPrefix, hfirst, hnone]
    · have hf := (hrange.2 f).2 ⟨Nat.le_refl f, hrange.1⟩
      simp only [HTMLEntitySearch.isEntityPrefix, hfirst, Option.isSome_some, true_iff]
      exact ⟨f, hf⟩
  · intro hstart
    rcases h.range with ⟨hfirst, -, -⟩ | ⟨f, l, hfirst, hlast, hrange, -⟩
    · simp [HTMLEntitySearch.isEntityPrefix, hfirst] at hstart
    · exact ⟨f, l, hfirst, hlast, hrange.2⟩
  · intro hstart c
    obtain ⟨s', hadvance, -⟩ := h.advance hstart c
    exact ⟨s', hadvance⟩

theorem startsWith_small : StartsWith [⟨[65]⟩, ⟨[65, 77]⟩] [c] i ↔ c = 65 ∧ i < 2 := by
  unfold StartsWith
  rcases i with _ | _ | i
  · simp [HTMLEntityTableEntry.name]
  · simp [HTMLEntityTableEntry.name, List.cons_prefix_cons]
  · simp

/-- A table with the names `A` and `AM`. -/
def smallTable : HTMLEntityTable where
  entries := [⟨[65]⟩, ⟨[65, 77]⟩]
  firstEntryStartingWith c := if c = 65 then some 0 else none
  lastEntryStartingWith c := if c = 65 then some 1 else none
  sorted := by simp [HTMLEntityTableEntry.name]
  entries_ne_nil := by simp
  name_ne_nil := by simp [HTMLEntityTableEntry.name]
  firstEntryStartingWith_iff c i := by
    constructor
    · intro h
      obtain ⟨rfl, rfl⟩ : c = 65 ∧ 0 = i := by simpa using h
      exact ⟨startsWith_small.2 ⟨rfl, by decide⟩, fun j _ => Nat.zero_le j⟩
    · rintro ⟨h, hleast⟩
      obtain ⟨rfl, -⟩ := startsWith_small.1 h
      have hle := hleast (startsWith_small.2 ⟨rfl, show 0 < 2 by decide⟩)
      have hi : 0 = i := by omega
      simpa using hi
  lastEntryStartingWith_iff c i := by
    constructor
    · intro h
      obtain ⟨rfl, rfl⟩ : c = 65 ∧ 1 = i := by simpa using h
      exact ⟨startsWith_small.2 ⟨rfl, by decide⟩, fun j hj => Nat.le_of_lt_succ (startsWith_small.1 hj).2⟩
    · rintro ⟨h, hgreatest⟩
      obtain ⟨rfl, hlt⟩ := startsWith_small.1 h
      have hle := hgreatest (startsWith_small.2 ⟨rfl, show 1 < 2 by decide⟩)
      have hi : 1 = i := by omega
      simpa using hi

theorem entity_search_small :
    ∃ s, Fed smallTable [65, 77] s ∧ s.m_mostRecentMatch = some 1 ∧ ∃ i, StartsWith smallTable.entries [65, 77] i := by
  have hfirst : Fed smallTable [65] ⟨1, some 0, some 0, some 1⟩ := .advance .construct rfl rfl
  have hnarrow : ∀ goesLeft, HTMLEntitySearch.narrow goesLeft 0 1 = some (0, 1) := by
    intro goesLeft
    rw [HTMLEntitySearch.narrow, if_neg (by decide)]
  have hadvance : HTMLEntitySearch.advance smallTable ⟨1, some 0, some 0, some 1⟩ 77 =
      some ⟨2, some 1, some 1, some 1⟩ := by
    simp [HTMLEntitySearch.advance, HTMLEntitySearch.findFirst, HTMLEntitySearch.findLast, HTMLEntitySearch.compare,
      HTMLEntitySearch.proceed, hnarrow, smallTable, HTMLEntityTableEntry.length]
  have hsecond : Fed smallTable [65, 77] ⟨2, some 1, some 1, some 1⟩ := .advance hfirst rfl hadvance
  exact ⟨_, hsecond, rfl, (entity_search_exact hsecond).1.1 rfl⟩

end WebKit.WebCore
