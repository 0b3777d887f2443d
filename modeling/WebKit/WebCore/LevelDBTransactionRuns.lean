import WebKit.Lib.Run
import WebKit.WebCore.LevelDBTransactionIterators

/-!
# Runs of a transaction with its iterators

The view of a run is the snapshot with its changes. In every run `safeGet` reads the view, and every iterator seeks and
moves in the view of that moment (`transaction_iterators_follow`), if no change puts a value under the key at which an
iterator of the database is the current one, and no refresh in reverse direction loses the nodes before that key. Else the
value is stale, or a record is skipped (`transaction_iterator_skips`).
-/

namespace WebKit.WebCore

open WebKit.Lib Transition Direction

variable {K : Type*} [LinearOrder K]

namespace TransactionIterator

variable {snapshot : Snapshot K} {tree : TreeType K} {it : TransactionIterator K} {P : K → Prop} {key : K}
  {node : AVLTreeNode}

/-! ## Changes of the tree -/

theorem overlay_insert (c : K) : overlay snapshot (tree.insert key node) c =
    if c = key then (if node.deleted then none else some node.value) else overlay snapshot tree c := by
  rw [overlay]
  split_ifs with hc hdeleted
  · subst hc
    simp [hdeleted]
  · subst hc
    simp [hdeleted]
  · rw [Finmap.lookup_insert_of_ne _ hc]
    rfl

/-- The value at the iterator of the database stays as it is if it is not replaced by another one. -/
theorem view_insert {c : K} (hput : c = key → node.deleted = true)
    (hview : ∀ v, overlay snapshot tree c = some v → snapshot.lookup c = some v) :
    ∀ v, overlay snapshot (tree.insert key node) c = some v → snapshot.lookup c = some v := by
  intro v hv
  rw [overlay_insert] at hv
  split_ifs at hv with hc hdeleted
  · exact absurd (hput hc) hdeleted
  · exact hview v hv

theorem Inv.insert_mem (h : it.Inv snapshot tree) (hmem : key ∈ tree)
    (hput : it.m_current = some .dbIterator → it.m_dbIterator = some key → node.deleted = true) :
    it.Inv snapshot (tree.insert key node) := by
  have hkeys : (tree.insert key node).keys = tree.keys := by
    ext c
    rw [Finmap.mem_keys, Finmap.mem_keys, Finmap.mem_insert]
    constructor
    · rintro (rfl | hc)
      · exact hmem
      · exact hc
    · exact .inr
  cases h with
  | none hcurrent => exact .none hcurrent
  | tree c hcurrent htree hc hdb hstale => exact .tree c hcurrent htree (Finmap.mem_insert.2 (.inr hc)) hdb hstale
  | db c hcurrent hdb hc hview htree =>
    refine .db c hcurrent hdb hc (view_insert (fun heq => hput hcurrent (heq ▸ hdb)) hview) ?_
    rw [hkeys]
    exact htree

theorem Inv.insert_new (h : it.Inv snapshot tree)
    (hput : it.m_current = some .dbIterator → it.m_dbIterator = some key → node.deleted = true) :
    it.treeChanged.Inv snapshot (tree.insert key node) := by
  cases h with
  | none hcurrent => exact .none hcurrent
  | tree c hcurrent htree hc hdb hstale => exact .tree c hcurrent htree (Finmap.mem_insert.2 (.inr hc)) hdb nofun
  | db c hcurrent hdb hc hview htree =>
    exact .db c hcurrent hdb hc (view_insert (fun heq => hput hcurrent (heq ▸ hdb)) hview) nofun

/-! ## Where an iterator stands -/

/-- The iterator is at the least key of the region that has a value, and is not valid if there is none. -/
structure StandsAtLeast (view : K → Option Value) (P : K → Prop) (it : TransactionIterator K) : Prop where
  isValid : it.isValid = true ↔ ∃ k, P k ∧ view k ≠ none
  key : ∀ c, it.currentKey = some c ↔ IsLeast {k | P k ∧ view k ≠ none} c

/-- The iterator is at the greatest key of the region that has a value, and is not valid if there is none. -/
structure StandsAtGreatest (view : K → Option Value) (P : K → Prop) (it : TransactionIterator K) : Prop where
  isValid : it.isValid = true ↔ ∃ k, P k ∧ view k ≠ none
  key : ∀ c, it.currentKey = some c ↔ IsGreatest {k | P k ∧ view k ≠ none} c

theorem isValid_of_currentKey {c : K} (h : it.currentKey = some c) : it.isValid = true := by
  cases hcurrent : it.m_current with
  | none => simp [currentKey, hcurrent] at h
  | some current => simp [TransactionIterator.isValid, hcurrent]

theorem Settled.isValid_iff (h : it.Settled snapshot tree P) :
    it.isValid = true ↔ ∃ k, P k ∧ overlay snapshot tree k ≠ none := by
  rcases h with ⟨hcurrent, hnone⟩ | ⟨c, hplaced, hc, hview, -⟩
  · refine ⟨fun hvalid => by simp [TransactionIterator.isValid, hcurrent] at hvalid, ?_⟩
    rintro ⟨k, hk, hview⟩
    exact absurd (hnone k hk) hview
  · exact ⟨fun _ => ⟨c, hc, hview⟩, fun _ => isValid_of_currentKey hplaced.currentKey⟩

theorem Settled.least (h : it.Settled snapshot tree P) (hdirection : it.m_direction = .kForward) :
    it.StandsAtLeast (overlay snapshot tree) P := by
  refine ⟨h.isValid_iff, fun c => ?_⟩
  rcases h with ⟨hcurrent, hnone⟩ | ⟨c', hplaced, hc', hview, hall⟩
  · simp only [currentKey, hcurrent, Option.bind_none, reduceCtorEq, false_iff]
    exact fun hleast => hleast.1.2 (hnone c hleast.1.1)
  · rw [hdirection] at hall
    have hleast : IsLeast {k | P k ∧ overlay snapshot tree k ≠ none} c' := by
      refine ⟨⟨hc', hview⟩, fun k hk => ?_⟩
      rcases hall k hk.1 hk.2 with rfl | hlt
      · exact le_rfl
      · exact le_of_lt hlt
    rw [hplaced.currentKey, Option.some.injEq]
    exact ⟨fun heq => heq ▸ hleast, fun hc => hleast.unique hc⟩

theorem Settled.greatest (h : it.Settled snapshot tree P) (hdirection : it.m_direction = .kReverse) :
    it.StandsAtGreatest (overlay snapshot tree) P := by
  refine ⟨h.isValid_iff, fun c => ?_⟩
  rcases h with ⟨hcurrent, hnone⟩ | ⟨c', hplaced, hc', hview, hall⟩
  · simp only [currentKey, hcurrent, Option.bind_none, reduceCtorEq, false_iff]
    exact fun hgreatest => hgreatest.1.2 (hnone c hgreatest.1.1)
  · rw [hdirection] at hall
    have hgreatest : IsGreatest {k | P k ∧ overlay snapshot tree k ≠ none} c' := by
      refine ⟨⟨hc', hview⟩, fun k hk => ?_⟩
      rcases hall k hk.1 hk.2 with rfl | hlt
      · exact le_rfl
      · exact le_of_lt hlt
    rw [hplaced.currentKey, Option.some.injEq]
    exact ⟨fun heq => heq ▸ hgreatest, fun hc => hgreatest.unique hc⟩

end TransactionIterator

namespace LevelDBTransaction

open TransactionIterator

variable {t : LevelDBTransaction K} {snapshot : Snapshot K} {view : K → Option Value}

/-! ## Runs -/

/-- What a change does to the view. -/
def viewAfter (view : K → Option Value) : TransactionOp K → K → Option Value
  | .put key value => Function.update view key (some value)
  | .remove key => Function.update view key none
  | _ => view

/-- No value is put under the key of a current database iterator, moves are made from a key, and no refresh loses the
tree. -/
def fits (t : LevelDBTransaction K) : TransactionOp K → Bool
  | .put key _ => t.m_iterators.all fun it => !(it.m_current = some .dbIterator && it.m_dbIterator = some key)
  | .next i => (t.m_iterators[i]?).all fun it => it.isValid
  | .prev i => (t.m_iterators[i]?).all fun it => it.isValid && !it.losesTree t.m_tree
  | .key i => (t.m_iterators[i]?).all fun it => it.isValid && !it.losesTree t.m_tree
  | .value i => (t.m_iterators[i]?).all fun it => it.isValid && !it.losesTree t.m_tree
  | _ => true

abbrev FittingStep : LevelDBTransaction K → TransactionOp K → LevelDBTransaction K → Prop :=
  Guarded (fun t op => t.fits op = true) (Via step)

/-- The snapshot under the tree is the view, and every iterator keeps its invariant. -/
structure Inv (t : LevelDBTransaction K) (view : K → Option Value) : Prop where
  view : overlay t.m_snapshot t.m_tree = view
  iterators : ∀ it ∈ t.m_iterators, it.Inv t.m_snapshot t.m_tree

theorem safeGet_eq (t : LevelDBTransaction K) (key : K) : t.safeGet key = overlay t.m_snapshot t.m_tree key := by
  rw [safeGet, overlay]
  cases t.m_tree.lookup key <;> rfl

theorem inv_create (snapshot : Snapshot K) : (create snapshot).Inv fun key => snapshot.lookup key := by
  refine ⟨?_, nofun⟩
  ext1 key
  exact overlay_of_not_mem Finmap.notMem_empty

/-- A change of the tree. -/
theorem Inv.set (h : t.Inv view) {key : K} {value : Value} {deleted : Bool}
    (hput : ∀ it ∈ t.m_iterators, it.m_current = some .dbIterator → it.m_dbIterator = some key → deleted = true) :
    (t.set key value deleted).Inv (Function.update view key (if deleted then none else some value)) := by
  refine ⟨?_, ?_⟩
  · ext1 c
    show overlay t.m_snapshot (t.m_tree.insert key ⟨value, deleted⟩) c = _
    rw [overlay_insert, Function.update_apply, h.view]
  · intro it hit
    rw [LevelDBTransaction.set] at hit
    split_ifs at hit with hmem
    · exact (h.iterators it hit).insert_mem hmem (hput it hit)
    · obtain ⟨it, hin, rfl⟩ := List.mem_map.1 hit
      exact (h.iterators it hin).insert_new (hput it hin)

theorem Inv.change (h : t.Inv view) {i : Nat} {f : TransactionIterator K → Option (TransactionIterator K)}
    (hf : ∀ it, t.m_iterators[i]? = some it → ∃ it', f it = some it' ∧ it'.Inv t.m_snapshot t.m_tree) :
    ∃ t', t.change i f = some t' ∧ t'.Inv view := by
  rw [LevelDBTransaction.change]
  cases hi : t.m_iterators[i]? with
  | none => exact ⟨t, rfl, h⟩
  | some it =>
    obtain ⟨it', hit', hinv⟩ := hf it hi
    refine ⟨_, congrArg (Option.map _) hit', h.view, fun it'' hmem => ?_⟩
    rcases List.mem_or_eq_of_mem_set hmem with hmem | rfl
    · exact h.iterators it'' hmem
    · exact hinv

theorem currentKey_of_isValid {tree : TreeType K} {it : TransactionIterator K} (h : it.Inv snapshot tree)
    (hvalid : it.isValid = true) : ∃ c, it.currentKey = some c := by
  cases h with
  | none hcurrent => simp [TransactionIterator.isValid, hcurrent] at hvalid
  | tree c hcurrent htree _ _ _ => exact ⟨c, by simp [currentKey, hcurrent, htree]⟩
  | db c hcurrent hdb _ _ _ => exact ⟨c, by simp [currentKey, hcurrent, hdb]⟩

/-- **A step that fits is taken, and keeps the invariant.** -/
theorem step_inv (h : t.Inv view) {op : TransactionOp K} (hfits : t.fits op = true) :
    ∃ t', t.step op = some t' ∧ t'.Inv (viewAfter view op) := by
  -- an operation that starts at the key of a valid iterator that does not lose the tree
  have hmove : ∀ {i : Nat} {f : TransactionIterator K → Option (TransactionIterator K)},
      ((t.m_iterators[i]?).all fun it => it.isValid && !it.losesTree t.m_tree) = true →
      (∀ it c, it.Inv t.m_snapshot t.m_tree → it.currentKey = some c → it.losesTree t.m_tree = false →
        ∃ it', f it = some it' ∧ it'.Inv t.m_snapshot t.m_tree) →
      ∃ t', t.change i f = some t' ∧ t'.Inv view := by
    intro i f hfits hf
    refine h.change fun it hi => ?_
    rw [hi, Option.all_some, Bool.and_eq_true, Bool.not_eq_true'] at hfits
    have hinv := h.iterators it (List.mem_of_getElem? hi)
    obtain ⟨c, hc⟩ := currentKey_of_isValid hinv hfits.1
    exact hf it c hinv hc hfits.2
  cases op with
  | createIterator =>
    refine ⟨_, rfl, h.view, fun it hit => ?_⟩
    rcases List.mem_append.1 hit with hit | hit
    · exact h.iterators it hit
    · obtain rfl := List.mem_singleton.1 hit
      exact .none rfl
  | put key value =>
    refine ⟨_, rfl, h.set fun it hit hcurrent hdb => ?_⟩
    have := List.all_eq_true.1 hfits it hit
    simp [hcurrent, hdb] at this
  | remove key => exact ⟨_, rfl, h.set fun _ _ _ _ => rfl⟩
  | seek i target =>
    refine h.change fun it _ => ?_
    obtain ⟨it', hit', -, hsettled⟩ := seek_settled it target
    exact ⟨it', hit', hsettled.inv⟩
  | seekToLast i =>
    refine h.change fun it _ => ?_
    obtain ⟨it', hit', -, hsettled⟩ := seekToLast_settled it
    exact ⟨it', hit', hsettled.inv⟩
  | next i =>
    refine h.change fun it hi => ?_
    rw [fits, hi, Option.all_some] at hfits
    have hinv := h.iterators it (List.mem_of_getElem? hi)
    obtain ⟨c, hc⟩ := currentKey_of_isValid hinv hfits
    obtain ⟨it', hit', -, hsettled⟩ := next_settled hinv hc
    exact ⟨it', hit', hsettled.inv⟩
  | prev i =>
    refine hmove hfits fun it c hinv hc hkeeps => ?_
    obtain ⟨it', hit', -, hsettled⟩ := prev_settled hinv hc hkeeps
    exact ⟨it', hit', hsettled.inv⟩
  | key i =>
    refine hmove hfits fun it c hinv hc hkeeps => ?_
    obtain ⟨it', hit', hplaced⟩ := key_placed hinv hc hkeeps
    exact ⟨it', congrArg (Option.map Prod.fst) hit', hplaced.inv⟩
  | value i =>
    refine hmove hfits fun it c hinv hc hkeeps => ?_
    obtain ⟨it', v, hit', hplaced⟩ := value_placed hinv hc hkeeps
    exact ⟨it', congrArg (Option.map Prod.fst) hit', hplaced.inv⟩

theorem run_inv {ops : List (TransactionOp K)} {t t' : LevelDBTransaction K} (hr : Run FittingStep t ops t')
    (h : t.Inv view) : t'.Inv (ops.foldl viewAfter view) := by
  induction hr generalizing view with
  | nil t => exact h
  | cons hstep _ ih =>
    obtain ⟨t'', ht'', hinv⟩ := step_inv h hstep.1
    obtain rfl := Option.some.inj (ht''.symm.trans hstep.2)
    exact ih hinv

/-- What an iterator does in a view: it seeks and moves to the next key that has a value, and shows the value. -/
structure Follows (t : LevelDBTransaction K) (view : K → Option Value) (it : TransactionIterator K) : Prop where
  seek : ∀ target, ∃ it', it.seek t.m_snapshot t.m_tree target = some it' ∧ it'.StandsAtLeast view (target ≤ ·)
  seekToLast : ∃ it', it.seekToLast t.m_snapshot t.m_tree = some it' ∧ it'.StandsAtGreatest view fun _ => True
  valid : it.isValid = true → ∃ c, it.currentKey = some c
  next : ∀ c, it.currentKey = some c → ∃ it', it.next t.m_snapshot t.m_tree = some it' ∧ it'.StandsAtLeast view (c < ·)
  prev : ∀ c, it.currentKey = some c → it.losesTree t.m_tree = false →
    ∃ it', it.prev t.m_snapshot t.m_tree = some it' ∧ it'.StandsAtGreatest view (· < c)
  key : ∀ c, it.currentKey = some c → ∃ it', it.key t.m_tree = some (it', c)
  value : ∀ c, it.currentKey = some c → ∃ it' v, it.value t.m_snapshot t.m_tree = some (it', v) ∧
    ∀ v', view c = some v' → v = v'

theorem Inv.follows (h : t.Inv view) {it : TransactionIterator K} (hit : it ∈ t.m_iterators) : t.Follows view it := by
  have hinv := h.iterators it hit
  obtain rfl := h.view
  refine ⟨fun target => ?_, ?_, currentKey_of_isValid hinv, fun c hc => ?_, fun c hc hkeeps => ?_, fun c hc => ?_,
    fun c hc => ?_⟩
  · obtain ⟨it', hit', hdirection, hsettled⟩ := seek_settled it target
    exact ⟨it', hit', hsettled.least hdirection⟩
  · obtain ⟨it', hit', hdirection, hsettled⟩ := seekToLast_settled it
    exact ⟨it', hit', hsettled.greatest hdirection⟩
  · obtain ⟨it', hit', hdirection, hsettled⟩ := next_settled hinv hc
    exact ⟨it', hit', hsettled.least hdirection⟩
  · obtain ⟨it', hit', hdirection, hsettled⟩ := prev_settled hinv hc hkeeps
    exact ⟨it', hit', hsettled.greatest hdirection⟩
  · obtain ⟨it', hit', -, hhalf⟩ := refresh_half hinv hc
    exact ⟨it', by rw [TransactionIterator.key, hit', Option.bind_some, hhalf.currentKey]; rfl⟩
  · obtain ⟨it', v, hit', -, hvalue⟩ := value_spec hinv hc
    exact ⟨it', v, hit', hvalue⟩

/-- **Transaction iterators follow the view** in every run whose steps fit: `safeGet` reads the view, every iterator seeks
and moves in the view of that moment, and a step that fits makes no wrong access. -/
theorem transaction_iterators_follow {ops : List (TransactionOp K)} (hr : Run FittingStep (create snapshot) ops t) :
    (∀ key, t.safeGet key = ops.foldl viewAfter (fun key => snapshot.lookup key) key) ∧
      (∀ it ∈ t.m_iterators, t.Follows (ops.foldl viewAfter fun key => snapshot.lookup key) it) ∧
      ∀ op, t.fits op = true → (t.step op).isSome = true := by
  have hinv := run_inv hr (inv_create snapshot)
  refine ⟨fun key => ?_, fun it hit => hinv.follows hit, fun op hfits => ?_⟩
  · rw [safeGet_eq, hinv.view]
  · obtain ⟨t', ht', -⟩ := step_inv hinv hfits
    rw [ht']
    rfl

/-! ## Runs over a snapshot with one key -/

def onlyFive : Snapshot Nat := Finmap.singleton 5 [5]

/-- A key is put above and one below, the iterator goes to the last key and back over the key of the snapshot, which is
removed then. -/
def putAround : List (TransactionOp Nat) :=
  [.createIterator, .put 7 [7], .put 3 [3], .seekToLast 0, .prev 0, .value 0, .prev 0, .remove 5, .next 0]

/-- The transaction that a run leads to. -/
def after (ops : List (TransactionOp Nat)) : LevelDBTransaction Nat :=
  (runFn step (create onlyFive) ops).getD (create onlyFive)

theorem putAround_run : Run FittingStep (create onlyFive) putAround (after putAround) := run_of_runFn_guardFn rfl

theorem transaction_iterators_follow_putAround :
    (∀ key, (after putAround).safeGet key = putAround.foldl viewAfter (fun key => onlyFive.lookup key) key) ∧
      (∀ it ∈ (after putAround).m_iterators,
        (after putAround).Follows (putAround.foldl viewAfter fun key => onlyFive.lookup key) it) ∧
      ∀ op, (after putAround).fits op = true → ((after putAround).step op).isSome = true :=
  transaction_iterators_follow putAround_run

/-- A record below the key of the snapshot is put before the iterator goes to the last key. The refresh in `prev` does not
find a node that is not below that key, and the record is skipped. -/
def putBelow : List (TransactionOp Nat) := [.createIterator, .put 3 [3], .seekToLast 0]

/-- The value is replaced at which the iterator of the database is the current one. -/
def putOver : List (TransactionOp Nat) := [.createIterator, .seek 0 0, .put 5 [6]]

theorem transaction_iterator_skips :
    (Run (Via step) (create onlyFive) putBelow (after putBelow) ∧ ∃ it ∈ (after putBelow).m_iterators,
      it.currentKey = some 5 ∧ ∃ it', it.prev onlyFive (after putBelow).m_tree = some it' ∧
        ¬ it'.StandsAtGreatest (putBelow.foldl viewAfter fun key => onlyFive.lookup key) (· < 5)) ∧
    (Run (Via step) (create onlyFive) putOver (after putOver) ∧ ∃ it ∈ (after putOver).m_iterators,
      it.currentKey = some 5 ∧ ∃ it', it.value onlyFive (after putOver).m_tree = some (it', [5]) ∧
        putOver.foldl viewAfter (fun key => onlyFive.lookup key) 5 = some [6]) := by
  refine ⟨⟨run_of_runFn rfl, _, List.mem_singleton_self _, rfl, _, rfl, fun hstands => ?_⟩,
    ⟨run_of_runFn rfl, _, List.mem_singleton_self _, rfl, _, rfl, rfl⟩⟩
  exact absurd (hstands.isValid.2 ⟨3, by decide, by decide⟩) (by decide)

end LevelDBTransaction

end WebKit.WebCore
