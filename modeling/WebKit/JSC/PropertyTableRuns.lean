import WebKit.JSC.PropertyTableSteps
import WebKit.Lib.Pointwise
import WebKit.Lib.Run

/-!
# Runs over property tables

A run creates tables, adds, finds and removes keys, and clones tables. Each table then is a map in the order of insertion
(`Observes`), as `specStep` keeps it (`property_tables_refine`), in every run whose capacities stay below 2 ^ 30. From
there on `sizeForCapacity` is 0 (`property_table_overflow`).
-/

namespace WebKit.JSC

open Transition PropertyTable WebKit.Lib

variable {Key : Type} [DecidableEq Key]

inductive TableOp (Key : Type)
  | create (initialCapacity : UInt32)
  | add (i : Nat) (entry : PropertyMapEntry Key) (offset : Int) (offsetEffect : EffectOnPropertyOffset)
  | find (i : Nat) (key : Key)
  | get (i : Nat) (key : Key)
  | remove (i : Nat) (key : Key)
  | clone (i : Nat)
  | cloneWithCapacity (i : Nat) (initialCapacity : UInt32)
  | copy (i : Nat) (newCapacity : UInt32)

abbrev PropertyTables (Key : Type) := List (PropertyTable Key)

namespace PropertyTables

def tableOf (s : PropertyTables Key) (i : Nat) : Except Stop (PropertyTable Key) :=
  match s[i]? with
  | some t => .ok t
  | none => .error .noTable

def step (existingHash : Key → UInt32) (s : PropertyTables Key) : TableOp Key → Except Stop (PropertyTables Key)
  | .create initialCapacity => .ok (s ++ [PropertyTable.create initialCapacity])
  | .add i entry offset offsetEffect => do
    let t ← s.tableOf i
    let result ← t.add existingHash entry offset offsetEffect
    return s.set i result.1
  | .find i key => do
    let t ← s.tableOf i
    let _ ← t.find existingHash key
    return s
  | .get i key => do
    let t ← s.tableOf i
    let _ ← t.get existingHash key
    return s
  | .remove i key => do
    let t ← s.tableOf i
    let t ← t.remove existingHash key
    return s.set i t
  | .clone i => do
    let t ← s.tableOf i
    let t ← t.clone
    return s ++ [t]
  | .cloneWithCapacity i initialCapacity => do
    let t ← s.tableOf i
    let t ← t.cloneWithCapacity existingHash initialCapacity
    return s ++ [t]
  | .copy i newCapacity => do
    let t ← s.tableOf i
    let t ← t.copy existingHash newCapacity
    return s ++ [t]

/-- A copy is made with a capacity for the keys, as the code asserts. -/
def allowed (s : PropertyTables Key) : TableOp Key → Bool
  | .cloneWithCapacity i capacity | .copy i capacity => s[i]?.all fun t => t.keyCount ≤ capacity.toNat
  | _ => true

/-- The capacities that are asked for are below 2 ^ 30. -/
def fits (s : PropertyTables Key) : TableOp Key → Bool
  | .create capacity | .cloneWithCapacity _ capacity | .copy _ capacity => capacity.toNat < 2 ^ 30
  | .add i entry _ _ => s[i]?.all fun t =>
    t.canInsert ∨ t.keyCount + 1 < 2 ^ 30 ∨ t.table.any (Slot.hasKey entry.key)
  | _ => true

/-! ## Maps in the order of insertion -/

/-- What an operation does to the maps. -/
def specStep (maps : List (List (PropertyMapEntry Key))) : TableOp Key → List (List (PropertyMapEntry Key))
  | .create _ => maps ++ [[]]
  | .add i entry _ _ => maps.modify i fun entries =>
    if entries.any (fun e => e.key = entry.key) then entries else entries ++ [entry]
  | .find _ _ | .get _ _ => maps
  | .remove i key => maps.modify i fun entries => entries.filter fun e => e.key ≠ key
  | .clone i | .cloneWithCapacity i _ | .copy i _ => maps ++ [maps.getD i []]

/-- What is seen of a table: the entries in the order of iteration, their number, and an entry exactly for their keys.
At most half of the index is in use. -/
structure Observes (existingHash : Key → UInt32) (t : PropertyTable Key) (entries : List (PropertyMapEntry Key)) :
    Prop where
  iterate_eq : t.iterate (fun es e => .ok (es ++ [e])) [] = .ok entries
  size_eq : t.size = entries.length
  keys_nodup : (entries.map PropertyMapEntry.key).Nodup
  find_eq : ∀ key, (∃ e ∈ entries, e.key = key ∧ ∃ j p, t.find existingHash key = .ok (some j, p) ∧
      t.get existingHash key = .ok (some j) ∧ t.readEntry j = .ok e) ∨
    (∀ e ∈ entries, e.key ≠ key) ∧ (∃ p, t.find existingHash key = .ok (none, p)) ∧ t.get existingHash key = .ok none
  used_le : 2 * t.usedCount ≤ t.indexSize.toNat

theorem observes_of_represents {existingHash : Key → UInt32} {t : PropertyTable Key}
    {entries : List (PropertyMapEntry Key)} (h : t.Represents existingHash entries) : Observes existingHash t entries := by
  obtain ⟨used, hused, heq⟩ := h
  have hfold : ∀ front back : List (PropertyMapEntry Key),
      back.foldlM (fun es e => (Except.ok (es ++ [e]) : Except Stop _)) front = .ok (front ++ back) := by
    intro front back
    induction back generalizing front with
    | nil => rw [List.append_nil]; rfl
    | cons e back ih => rw [List.foldlM_cons, ok_bind, ih, List.append_assoc, List.singleton_append]
  refine ⟨?_, ?_, ?_, get_spec ⟨used, hused, heq⟩, ?_⟩
  · rw [iterate_eq hused, heq, hfold, List.nil_append]
  · rw [size, hused.keyCount_eq, heq]
  · exact heq ▸ hused.keys_nodup
  · rw [hused.tableCapacity_eq, hused.usedCount_eq]
    exact Nat.mul_le_mul_left 2 hused.used_le

omit [DecidableEq Key] in
theorem represents_create (existingHash : Key → UInt32) {capacity : UInt32} (h : capacity.toNat < 2 ^ 30) :
    (PropertyTable.create capacity).Represents existingHash [] := ⟨[], wellFormed_empty existingHash h none, rfl⟩

theorem exists_of_any_hasKey {existingHash : Key → UInt32} {t : PropertyTable Key}
    {entries : List (PropertyMapEntry Key)} (h : t.Represents existingHash entries) {key : Key}
    (hany : t.table.any (Slot.hasKey key) = true) : ∃ e ∈ entries, e.key = key := by
  obtain ⟨used, h, rfl⟩ := h
  obtain ⟨slot, hslot, hkey⟩ := List.any_eq_true.1 hany
  obtain ⟨j, hj⟩ := List.mem_iff_getElem?.1 hslot
  obtain ⟨e, he, heq⟩ := used_of_hasKey h hj hkey
  exact ⟨e, List.reduceOption_mem_iff.2 (List.mem_of_getElem? he), heq⟩

section

variable {existingHash : Key → UInt32} {s : PropertyTables Key} {maps : List (List (PropertyMapEntry Key))}

abbrev Refines (existingHash : Key → UInt32) (s : PropertyTables Key) (maps : List (List (PropertyMapEntry Key))) :
    Prop :=
  List.Forall₂ (Represents existingHash) s maps

/-- What a step may do: it leads to the maps of `specStep`, or there is no such table, or a `RELEASE_ASSERT` fails. -/
def Fine (existingHash : Key → UInt32) (maps : List (List (PropertyMapEntry Key))) :
    Except Stop (PropertyTables Key) → Prop
  | .ok s => Refines existingHash s maps
  | .error stop => stop = .noTable ∨ stop = .releaseAssert

omit [DecidableEq Key] in
theorem fine_tableOf {maps' : List (List (PropertyMapEntry Key))} {i : Nat}
    {f : PropertyTable Key → Except Stop (PropertyTables Key)}
    (h : ∀ t, s[i]? = some t → Fine existingHash maps' (f t)) : Fine existingHash maps' (s.tableOf i >>= f) := by
  unfold tableOf
  cases ht : s[i]? with
  | none => exact Or.inl rfl
  | some t => exact h t ht

/-- **A step keeps the maps**, and reads and writes inside the arrays. -/
theorem step_fine (h : Refines existingHash s maps) (op : TableOp Key) (hallowed : s.allowed op) (hfits : s.fits op) :
    Fine existingHash (specStep maps op) (s.step existingHash op) := by
  cases op with
  | create capacity => exact forall₂_concat h (represents_create existingHash (of_decide_eq_true hfits))
  | add i e offset offsetEffect =>
    apply fine_tableOf
    intro t ht
    obtain ⟨entries, hentries, hrep⟩ := forall₂_getElem? h ht
    have hroom : t.canInsert ∨ t.keyCount + 1 < 2 ^ 30 ∨ t.table.any (Slot.hasKey e.key) := by
      rw [fits, ht, Option.all_some] at hfits
      exact of_decide_eq_true hfits
    have hcapacity : t.canInsert ∨ t.keyCount + 1 < 2 ^ 30 ∨ ∃ e' ∈ entries, e'.key = e.key :=
      hroom.imp_right (Or.imp_right (exists_of_any_hasKey hrep))
    obtain ⟨e', he', heq, hadd⟩ | ⟨hnone, t', hrep', hadd⟩ := add_spec hrep e offset offsetEffect hcapacity
    · have hany : entries.any (fun e' => e'.key = e.key) = true :=
        List.any_eq_true.2 ⟨e', he', decide_eq_true heq⟩
      rw [hadd]
      split_ifs
      · exact forall₂_set_modify h hentries (by rwa [if_pos hany])
      · exact Or.inr rfl
    · have hany : ¬ entries.any (fun e' => e'.key = e.key) = true := by
        intro hany
        obtain ⟨e', he', heq⟩ := List.any_eq_true.1 hany
        exact hnone e' he' (of_decide_eq_true heq)
      have hset : Refines existingHash (s.set i t') (specStep maps (.add i e offset offsetEffect)) :=
        forall₂_set_modify h hentries (by rwa [if_neg hany])
      rw [hadd]
      split_ifs
      · exact hset
      · exact hset
      · exact Or.inr rfl
  | find i key =>
    apply fine_tableOf
    intro t ht
    obtain ⟨entries, hentries, hrep⟩ := forall₂_getElem? h ht
    obtain ⟨e, -, -, j, p, hfind, -⟩ | ⟨-, ⟨p, hfind⟩, -⟩ := get_spec hrep key
    · rw [hfind]
      exact h
    · rw [hfind]
      exact h
  | get i key =>
    apply fine_tableOf
    intro t ht
    obtain ⟨entries, hentries, hrep⟩ := forall₂_getElem? h ht
    obtain ⟨e, -, -, j, p, -, hget, -⟩ | ⟨-, -, hget⟩ := get_spec hrep key
    · rw [hget]
      exact h
    · rw [hget]
      exact h
  | remove i key =>
    apply fine_tableOf
    intro t ht
    obtain ⟨entries, hentries, hrep⟩ := forall₂_getElem? h ht
    obtain ⟨t', hremove, hrep'⟩ := remove_spec hrep key
    rw [hremove]
    exact forall₂_set_modify h hentries hrep'
  | clone i =>
    apply fine_tableOf
    intro t ht
    obtain ⟨entries, hentries, hrep⟩ := forall₂_getElem? h ht
    obtain ⟨used, hused, heq⟩ := hrep
    rw [clone_spec hused]
    exact forall₂_concat h (by rw [List.getD_eq_getElem?_getD, hentries]; exact ⟨used, hused, heq⟩)
  | cloneWithCapacity i capacity =>
    apply fine_tableOf
    intro t ht
    obtain ⟨entries, hentries, hrep⟩ := forall₂_getElem? h ht
    rw [allowed, ht, Option.all_some] at hallowed
    obtain ⟨t', hclone, hrep'⟩ :=
      cloneWithCapacity_spec hrep (of_decide_eq_true hallowed) (of_decide_eq_true hfits)
    rw [hclone]
    exact forall₂_concat h (by rwa [List.getD_eq_getElem?_getD, hentries])
  | copy i capacity =>
    apply fine_tableOf
    intro t ht
    obtain ⟨entries, hentries, hrep⟩ := forall₂_getElem? h ht
    rw [allowed, ht, Option.all_some] at hallowed
    obtain ⟨t', hcopy, hrep'⟩ := copy_spec hrep (of_decide_eq_true hallowed) (of_decide_eq_true hfits)
    rw [hcopy]
    exact forall₂_concat h (by rwa [List.getD_eq_getElem?_getD, hentries])

end

/-! ## Runs -/

/-- The steps that return. -/
def stepsTo (existingHash : Key → UInt32) (s : PropertyTables Key) (op : TableOp Key) : Option (PropertyTables Key) :=
  (s.step existingHash op).toOption

theorem run_refines {existingHash : Key → UInt32} {ops : List (TableOp Key)} {s t : PropertyTables Key}
    (hr : Run (Guarded (fun s op => allowed s op ∧ fits s op) (Via (stepsTo existingHash))) s ops t)
    {maps : List (List (PropertyMapEntry Key))} (h : Refines existingHash s maps) :
    Refines existingHash t (ops.foldl specStep maps) := by
  induction hr generalizing maps with
  | nil s => exact h
  | cons hstep _ ih =>
    obtain ⟨⟨hallowed, hfits⟩, hvia⟩ := hstep
    have hfine := step_fine h _ hallowed hfits
    rw [Via, stepsTo] at hvia
    revert hvia hfine
    generalize step existingHash _ _ = result
    intro hvia hfine
    cases result with
    | error stop => cases hvia
    | ok s' =>
      obtain rfl := Option.some.inj hvia
      exact ih hfine

/-- **Property tables are maps in the order of insertion**: in every run whose capacities fit, each table shows the
entries of its map, and no step reads or writes outside the arrays or runs forever. -/
theorem property_tables_refine (existingHash : Key → UInt32) {ops : List (TableOp Key)} {s : PropertyTables Key}
    (hr : Run (Guarded (fun s op => allowed s op ∧ fits s op) (Via (stepsTo existingHash))) [] ops s) :
    List.Forall₂ (Observes existingHash) s (ops.foldl specStep []) ∧
      ∀ op stop, allowed s op → fits s op → s.step existingHash op = .error stop →
        stop = .noTable ∨ stop = .releaseAssert := by
  have href : Refines existingHash s (ops.foldl specStep []) := run_refines hr .nil
  refine ⟨href.imp fun _ _ => observes_of_represents, ?_⟩
  intro op stop hallowed hfits hstop
  have hfine := step_fine href op hallowed hfits
  rw [hstop] at hfine
  exact hfine

/-- A key is removed and added again, and the table is cloned. -/
theorem property_tables_refine_clone :
    let entry (key : Nat) (offset : Int) : PropertyMapEntry Nat := ⟨key, offset, 0⟩
    ∃ s, runFn (guardFn (fun s op => allowed s op ∧ fits s op) (stepsTo UInt32.ofNat)) []
        [.create 0, .add 0 (entry 1 0) 0 .PropertyOffsetMayChange, .add 0 (entry 17 1) 0 .PropertyOffsetMayChange,
          .remove 0 1, .add 0 (entry 1 2) 1 .PropertyOffsetMayChange, .clone 0] = some s ∧
      List.Forall₂ (Observes UInt32.ofNat) s [[entry 17 1, entry 1 2], [entry 17 1, entry 1 2]] := by
  intro entry
  have hr : (runFn (guardFn (fun s op => allowed s op ∧ fits s op) (stepsTo UInt32.ofNat)) []
      [.create 0, .add 0 (entry 1 0) 0 .PropertyOffsetMayChange, .add 0 (entry 17 1) 0 .PropertyOffsetMayChange,
        .remove 0 1, .add 0 (entry 1 2) 1 .PropertyOffsetMayChange, .clone 0]).isSome = true := by
    decide +kernel
  obtain ⟨s, hs⟩ := Option.isSome_iff_exists.1 hr
  exact ⟨s, hs, (property_tables_refine UInt32.ofNat (run_of_runFn_guardFn hs)).1⟩

/-- **A table without an index**: for a capacity of 2 ^ 30 the size of the index is 0, and the search for a key reads
outside it. -/
theorem property_table_overflow :
    ∃ s : PropertyTables Nat, runFn (stepsTo UInt32.ofNat) [] [.create 0x40000000] = some s ∧
      s.map PropertyTable.indexSize = [0] ∧ s.step UInt32.ofNat (.find 0 1) = .error .outOfBounds :=
  ⟨[PropertyTable.create 0x40000000], rfl, by decide, by decide⟩

end PropertyTables

end WebKit.JSC
