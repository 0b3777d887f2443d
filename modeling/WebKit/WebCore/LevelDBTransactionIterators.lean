import WebKit.WebCore.LevelDBTransaction

/-!
# One step of a transaction iterator

The `overlay` is what a key has in the snapshot under the changes of the tree. An iterator `Stands` at the first key of
the overlay in a region if it is at that key, or not valid if there is none. It is `Placed` at its key if the iterator that
is not the current one is at the first key after it.

The loop that handles conflicts and deletes starts with both iterators at their first key in a region, and then the
iterator stands at the first key of the overlay there and is placed (`handleLoop_spec`). From this the moves follow:
`seek_stands`, `seekToLast_stands`, `next_stands` and `prev_stands`.
-/

namespace WebKit.WebCore

open WebKit.Lib Direction

variable {K : Type*} [LinearOrder K]

/-- The snapshot under the changes of the tree. -/
def overlay (snapshot : Snapshot K) (tree : TreeType K) (key : K) : Option Value :=
  (tree.lookup key).elim (snapshot.lookup key) fun node => if node.deleted then none else some node.value

namespace TransactionIterator

variable {snapshot : Snapshot K} {tree : TreeType K} {it it' : TransactionIterator K} {d : Direction} {P : K → Prop}
  {c k j : K}

/-- The iterator is at the first key of the region that has a value, or there is none and it is not valid. -/
def Stands (view : K → Option Value) (d : Direction) (P : K → Prop) (it : TransactionIterator K) : Prop :=
  (it.m_current = none ∧ ∀ k, P k → view k = none) ∨
    ∃ c, it.currentKey = some c ∧ P c ∧ view c ≠ none ∧ ∀ k, P k → view k ≠ none → k = c ∨ d.Ahead c k

/-- The iterator is at `c`, and the one of its iterators that is not the current one is at the first key after `c`. -/
inductive Placed (snapshot : Snapshot K) (tree : TreeType K) (it : TransactionIterator K) (c : K) : Prop
  | tree (hcurrent : it.m_current = some .treeIterator) (htree : it.m_treeIterator = ⟨some c, false⟩) (hmem : c ∈ tree)
      (hdb : it.m_dbIterator = firstAhead it.m_direction snapshot.keys c)
  | db (hcurrent : it.m_current = some .dbIterator) (hdb : it.m_dbIterator = some c) (hmem : c ∈ snapshot)
      (hview : ∀ v, overlay snapshot tree c = some v → snapshot.lookup c = some v)
      (htree : it.m_treeIterator = ⟨firstAhead it.m_direction tree.keys c, false⟩)

/-- Both iterators are at their first key of the region. -/
structure Both (snapshot : Snapshot K) (tree : TreeType K) (P : K → Prop) [DecidablePred P] (it : TransactionIterator K) :
    Prop where
  tree : it.m_treeIterator = ⟨first it.m_direction (tree.keys.filter P), false⟩
  db : it.m_dbIterator = first it.m_direction (snapshot.keys.filter P)

/-- The iterator with the lowest key is made the current one, or the one with the highest key. -/
def setCurrentIterator (it : TransactionIterator K) : TransactionIterator K :=
  match it.m_direction with
  | .kForward => it.setCurrentIteratorToSmallestKey
  | .kReverse => it.setCurrentIteratorToLargestKey

theorem overlay_eq_none_of_not_mem (htree : k ∉ tree) (hsnapshot : k ∉ snapshot) : overlay snapshot tree k = none := by
  rw [overlay, Finmap.lookup_eq_none.2 htree]
  exact Finmap.lookup_eq_none.2 hsnapshot

theorem overlay_of_not_mem (htree : k ∉ tree) : overlay snapshot tree k = snapshot.lookup k := by
  rw [overlay, Finmap.lookup_eq_none.2 htree]
  rfl

theorem mem_of_overlay (h : overlay snapshot tree k ≠ none) : k ∈ tree ∨ k ∈ snapshot := by
  by_contra hnot
  obtain ⟨htree, hsnapshot⟩ := not_or.1 hnot
  exact h (overlay_eq_none_of_not_mem htree hsnapshot)

/-! ## The current iterator -/

theorem setCurrentIterator_none (htree : it.m_treeIterator.m_iterator = none) (hdb : it.m_dbIterator = none) :
    it.setCurrentIterator = { it with m_current := none } := by
  rw [setCurrentIterator]
  cases hd : it.m_direction <;>
    simp [setCurrentIteratorToSmallestKey, setCurrentIteratorToLargestKey, htree, hdb, hd]

theorem setCurrentIterator_tree (htree : it.m_treeIterator.m_iterator = some k)
    (hdb : ∀ j, it.m_dbIterator = some j → it.m_direction.Ahead k j) :
    it.setCurrentIterator = { it with m_current := some .treeIterator } := by
  rw [setCurrentIterator]
  cases hj : it.m_dbIterator with
  | none =>
    cases hd : it.m_direction <;>
      simp [setCurrentIteratorToSmallestKey, setCurrentIteratorToLargestKey, htree, hj, hd]
  | some j =>
    have hahead := hdb j hj
    cases hd : it.m_direction with
    | kForward =>
      rw [hd] at hahead
      have hnot : ¬ j < k := hahead.asymm
      simp [setCurrentIteratorToSmallestKey, htree, hj, hnot, hd]
    | kReverse =>
      rw [hd] at hahead
      have hnot : ¬ k < j := hahead.asymm
      simp [setCurrentIteratorToLargestKey, htree, hj, hnot, hd]

theorem setCurrentIterator_db (hdb : it.m_dbIterator = some j)
    (htree : ∀ k, it.m_treeIterator.m_iterator = some k → it.m_direction.Ahead j k) :
    it.setCurrentIterator = { it with m_current := some .dbIterator } := by
  rw [setCurrentIterator]
  cases hk : it.m_treeIterator.m_iterator with
  | none =>
    cases hd : it.m_direction <;>
      simp [setCurrentIteratorToSmallestKey, setCurrentIteratorToLargestKey, hdb, hk, hd]
  | some k =>
    have hahead := htree k hk
    cases hd : it.m_direction with
    | kForward =>
      rw [hd] at hahead
      have hlt : j < k := hahead
      simp [setCurrentIteratorToSmallestKey, hdb, hk, hlt, hd]
    | kReverse =>
      rw [hd] at hahead
      have hlt : k < j := hahead
      simp [setCurrentIteratorToLargestKey, hdb, hk, hlt, hd]

/-! ## One turn of the loop -/

theorem with_dbIterator {db : Option K} (h : it.m_dbIterator = db) : { it with m_dbIterator := db } = it := by
  subst h
  rfl

theorem handleConflict_of_tree_none (htree : it.m_treeIterator.m_iterator = none) :
    it.handleConflict snapshot = some it := by
  simp [handleConflict, TreeIterator.isValid, htree]

/-- **After a conflict is handled** the database iterator is at the first key after that of the tree iterator, and all
keys of the region come after that one, or it comes before the tree iterator as it did. -/
theorem handleConflict_spec [DecidablePred P] (hP : Region it.m_direction P) (hPk : P k)
    (htree : it.m_treeIterator.m_iterator = some k)
    (hdb : it.m_dbIterator = first it.m_direction (snapshot.keys.filter P)) :
    (it.handleConflict snapshot =
        some { it with m_dbIterator := firstAhead it.m_direction snapshot.keys k } ∧
      ∀ i ∈ snapshot.keys, P i → i = k ∨ it.m_direction.Ahead k i) ∨
    it.handleConflict snapshot = some it ∧ ∃ j, it.m_dbIterator = some j ∧ it.m_direction.Ahead j k := by
  have hself (h : it.m_dbIterator ≠ some k) : it.handleConflict snapshot = some it := by
    rw [handleConflict, htree]
    cases hj : it.m_dbIterator with
    | none => simp
    | some j =>
      have hne : k ≠ j := fun hkj => h (by rw [hj, hkj])
      simp [hne]
  cases hfirst : it.m_dbIterator with
  | none =>
    have hnone := not_mem_region (hdb.symm.trans hfirst)
    have hahead : firstAhead it.m_direction snapshot.keys k = it.m_dbIterator := by
      rw [firstAhead_eq_first hP hPk fun i hi hPi => absurd hPi (hnone i hi), ← hdb]
    refine .inl ⟨?_, fun i hi hPi => absurd hPi (hnone i hi)⟩
    rw [hself (by simp [hfirst]), with_dbIterator hahead.symm]
  | some j =>
    have hj := hdb.symm.trans hfirst
    by_cases hjk : j = k
    · obtain rfl := hjk
      refine .inl ⟨?_, fun i hi hPi => ?_⟩
      · cases hd : it.m_direction <;>
          simp [handleConflict, TreeIterator.isValid, htree, hfirst, hd, DBIterator.next, DBIterator.prev]
      · by_cases hij : i = j
        · exact .inl hij
        · exact .inr (ahead_of_first hj (Finset.mem_filter.2 ⟨hi, hPi⟩) hij)
    · have hne : it.m_dbIterator ≠ some k := by simp [hfirst, hjk]
      rcases ahead_or_ahead (d := it.m_direction) hjk with hahead | hahead
      · exact .inr ⟨hself hne, j, rfl, hahead⟩
      · have hall := ahead_of_ahead_first hj hahead
        refine .inl ⟨?_, fun i hi hPi => .inr (hall i hi hPi)⟩
        rw [hself hne, with_dbIterator (hdb.trans (firstAhead_eq_first hP hPk hall).symm)]

/-- A delete marker that the database iterator is not before is skipped. -/
theorem handleLoop_skips {turns : Nat} {node : AVLTreeNode} (hconflict : it.handleConflict snapshot = some it')
    (htree : it'.m_treeIterator = ⟨some k, false⟩) (hnode : tree.lookup k = some node) (hdeleted : node.deleted = true)
    (hdb : ∀ j, it'.m_dbIterator = some j → it'.m_direction.Ahead k j) :
    handleLoop snapshot tree (turns + 1) it =
      handleLoop snapshot tree turns
        { it' with m_treeIterator := ⟨firstAhead it'.m_direction tree.keys k, false⟩ } := by
  rw [handleLoop, hconflict]
  have hready : ∀ j, it'.m_dbIterator = some j → it'.m_direction = .kForward → k < j := by
    intro j hj hd
    have := hdb j hj
    rwa [hd] at this
  have hready' : ∀ j, it'.m_dbIterator = some j → it'.m_direction = .kReverse → j < k := by
    intro j hj hd
    have := hdb j hj
    rwa [hd] at this
  cases hd : it'.m_direction with
  | kForward =>
    cases hj : it'.m_dbIterator with
    | none =>
      simp [TreeIterator.isValid, TreeIterator.isDeleted, TreeIterator.next, htree, hnode, hdeleted, hd, hj]
    | some j =>
      simp [TreeIterator.isValid, TreeIterator.isDeleted, TreeIterator.next, treeIteratorIsLower, htree, hnode, hdeleted, hd,
        hj, hready j hj hd]
  | kReverse =>
    cases hj : it'.m_dbIterator with
    | none =>
      simp [TreeIterator.isValid, TreeIterator.isDeleted, TreeIterator.prev, htree, hnode, hdeleted, hd, hj]
    | some j =>
      simp [TreeIterator.isValid, TreeIterator.isDeleted, TreeIterator.prev, treeIteratorIsHigher, htree, hnode, hdeleted,
        hd, hj, hready' j hj hd]

theorem handleLoop_stops {turns : Nat} {node : AVLTreeNode} (hconflict : it.handleConflict snapshot = some it')
    (htree : it'.m_treeIterator.m_iterator = some k) (hnode : tree.lookup k = some node)
    (hstop : node.deleted = false ∨ ∃ j, it'.m_dbIterator = some j ∧ it'.m_direction.Ahead j k) :
    handleLoop snapshot tree (turns + 1) it = some it' := by
  rw [handleLoop, hconflict]
  rcases hstop with hdeleted | ⟨j, hj, hahead⟩
  · simp [TreeIterator.isValid, TreeIterator.isDeleted, htree, hnode, hdeleted]
  · have hnot := hahead.asymm
    cases hd : it'.m_direction with
    | kForward =>
      rw [hd] at hnot
      have hlt : ¬ k < j := hnot
      simp [TreeIterator.isValid, TreeIterator.isDeleted, treeIteratorIsLower, htree, hnode, hj, hd, hlt]
    | kReverse =>
      rw [hd] at hnot
      have hlt : ¬ j < k := hnot
      simp [TreeIterator.isValid, TreeIterator.isDeleted, treeIteratorIsHigher, htree, hnode, hj, hd, hlt]

/-! ## The loop -/

/-- The iterator is placed at the first key of the overlay in the region, or there is none and it is not valid. -/
def Settled (snapshot : Snapshot K) (tree : TreeType K) (P : K → Prop) (it : TransactionIterator K) : Prop :=
  (it.m_current = none ∧ ∀ k, P k → overlay snapshot tree k = none) ∨
    ∃ c, it.Placed snapshot tree c ∧ P c ∧ overlay snapshot tree c ≠ none ∧
      ∀ k, P k → overlay snapshot tree k ≠ none → k = c ∨ it.m_direction.Ahead c k

theorem Placed.currentKey (h : it.Placed snapshot tree c) : it.currentKey = some c := by
  cases h with
  | tree hcurrent htree _ _ => simp [TransactionIterator.currentKey, hcurrent, htree]
  | db hcurrent hdb _ _ _ => simp [TransactionIterator.currentKey, hcurrent, hdb]

theorem settled_db [DecidablePred P] (hP : Region it.m_direction P) (hboth : it.Both snapshot tree P)
    (hj : it.m_dbIterator = some j) (htree : ∀ i ∈ tree.keys, P i → it.m_direction.Ahead j i) :
    it.setCurrentIterator.Settled snapshot tree P := by
  have hfirst := hboth.db.symm.trans hj
  obtain ⟨hmem, hPj⟩ := first_region_mem hfirst
  have hnot : j ∉ tree := fun hin => not_ahead_self (htree j (Finmap.mem_keys.2 hin) hPj)
  have hview : overlay snapshot tree j = snapshot.lookup j := overlay_of_not_mem hnot
  have hcursor := firstAhead_eq_first hP hPj htree
  rw [setCurrentIterator_db hj fun k hk => ?_]
  · refine .inr ⟨j, .db rfl hj (Finmap.mem_keys.1 hmem) (fun v hv => hview.symm.trans hv) (hboth.tree.trans ?_),
      hPj, ?_, fun i hPi hi => ?_⟩
    · rw [← hcursor]
    · rw [hview]
      exact fun hnone => Finmap.lookup_eq_none.1 hnone (Finmap.mem_keys.1 hmem)
    · rcases mem_of_overlay hi with hin | hin
      · exact .inr (htree i (Finmap.mem_keys.2 hin) hPi)
      · by_cases hij : i = j
        · exact .inl hij
        · exact .inr (ahead_of_first hfirst (Finset.mem_filter.2 ⟨Finmap.mem_keys.2 hin, hPi⟩) hij)
  · rw [hboth.tree] at hk
    obtain ⟨hin, hPk⟩ := first_region_mem hk
    exact htree k hin hPk

/-- **The loop settles the iterator**, in as many turns as there are nodes in the region, and one more. -/
theorem handleLoop_spec [DecidablePred P] (hP : Region it.m_direction P) (hboth : it.Both snapshot tree P) {turns : Nat}
    (hturns : (tree.keys.filter P).card < turns) :
    ∃ it', handleLoop snapshot tree turns it = some it' ∧ it'.m_direction = it.m_direction ∧
      it'.setCurrentIterator.Settled snapshot tree P := by
  induction turns generalizing it P with
  | zero => exact absurd hturns (Nat.not_lt_zero _)
  | succ turns ih =>
    cases hk : it.m_treeIterator.m_iterator with
    | none =>
      have hnone : ∀ i ∈ tree.keys, ¬ P i := by
        rw [hboth.tree] at hk
        exact not_mem_region hk
      refine ⟨it, ?_, rfl, ?_⟩
      · rw [handleLoop, handleConflict_of_tree_none hk]
        simp [TreeIterator.isValid, hk]
      · cases hj : it.m_dbIterator with
        | none =>
          rw [setCurrentIterator_none hk hj]
          refine .inl ⟨rfl, fun i hPi => overlay_eq_none_of_not_mem ?_ ?_⟩
          · exact fun hin => hnone i (Finmap.mem_keys.2 hin) hPi
          · exact fun hin => not_mem_region (hboth.db.symm.trans hj) i (Finmap.mem_keys.2 hin) hPi
        | some j => exact settled_db hP hboth hj fun i hi hPi => absurd hPi (hnone i hi)
    | some k =>
      have hfirst : first it.m_direction (tree.keys.filter P) = some k := by
        rw [hboth.tree] at hk
        exact hk
      obtain ⟨hmem, hPk⟩ := first_region_mem hfirst
      obtain ⟨node, hnode⟩ := Finmap.mem_iff.1 (Finmap.mem_keys.1 hmem)
      have htree : ∀ i ∈ tree.keys, P i → i = k ∨ it.m_direction.Ahead k i := by
        intro i hi hPi
        by_cases hik : i = k
        · exact .inl hik
        · exact .inr (ahead_of_first hfirst (Finset.mem_filter.2 ⟨hi, hPi⟩) hik)
      rcases handleConflict_spec hP hPk hk hboth.db with ⟨hconflict, hdb⟩ | ⟨hconflict, j, hj, hahead⟩
      · have hafter : ∀ i, P i → overlay snapshot tree i ≠ none → i = k ∨ it.m_direction.Ahead k i := by
          intro i hPi hi
          rcases mem_of_overlay hi with hin | hin
          · exact htree i (Finmap.mem_keys.2 hin) hPi
          · exact hdb i (Finmap.mem_keys.2 hin) hPi
        have hnext : ∀ j, firstAhead it.m_direction snapshot.keys k = some j → it.m_direction.Ahead k j :=
          fun j hj => (Finset.mem_filter.1 (first_mem hj)).2
        cases hdeleted : node.deleted with
        | false =>
          -- the iterator of the tree is at a node with a value
          refine ⟨_, handleLoop_stops hconflict hk hnode (.inl hdeleted), rfl, ?_⟩
          have hcurrent : setCurrentIterator { it with m_dbIterator := firstAhead it.m_direction snapshot.keys k } = _ :=
            setCurrentIterator_tree hk hnext
          rw [hcurrent]
          refine .inr ⟨k, .tree rfl ?_ (Finmap.mem_keys.1 hmem) rfl, hPk, ?_, hafter⟩
          · rw [hboth.tree, hfirst]
          · simp [overlay, hnode, hdeleted]
        | true =>
          -- the marker is skipped, and the loop goes on in the region ahead of it
          have hat : it.m_treeIterator = ⟨some k, false⟩ := by rw [hboth.tree, hfirst]
          have hskip : handleLoop snapshot tree (turns + 1) it = _ := handleLoop_skips hconflict hat hnode hdeleted hnext
          have hcard : (tree.keys.filter (it.m_direction.Ahead k ·)).card < turns := by
            refine lt_of_lt_of_le (Finset.card_lt_card ?_) (Nat.le_of_lt_succ hturns)
            refine Finset.ssubset_iff_of_subset ?_ |>.2 ⟨k, Finset.mem_filter.2 ⟨hmem, hPk⟩, fun hin => ?_⟩
            · intro i hi
              obtain ⟨hin, hahead⟩ := Finset.mem_filter.1 hi
              exact Finset.mem_filter.2 ⟨hin, hP k i hPk hahead⟩
            · exact not_ahead_self (Finset.mem_filter.1 hin).2
          have hboth' : Both snapshot tree (it.m_direction.Ahead k ·) { it with
              m_dbIterator := firstAhead it.m_direction snapshot.keys k,
              m_treeIterator := ⟨firstAhead it.m_direction tree.keys k, false⟩ } := ⟨rfl, rfl⟩
          obtain ⟨it', hit', hdirection, hsettled⟩ := ih (by exact region_ahead k) hboth' hcard
          refine ⟨it', hskip.trans hit', hdirection, ?_⟩
          have hkview : overlay snapshot tree k = none := by simp [overlay, hnode, hdeleted]
          rcases hsettled with ⟨hnone, hall⟩ | ⟨c, hplaced, hc, hview, hall⟩
          · refine .inl ⟨hnone, fun i hPi => ?_⟩
            by_contra hi
            rcases hafter i hPi hi with rfl | hahead
            · exact hi hkview
            · exact hi (hall i hahead)
          · refine .inr ⟨c, hplaced, hP k c hPk hc, hview, fun i hPi hi => ?_⟩
            rcases hafter i hPi hi with rfl | hahead
            · exact absurd hkview hi
            · exact hall i hahead hi
      · -- the iterator of the snapshot comes before the one of the tree
        refine ⟨it, handleLoop_stops hconflict hk hnode (.inr ⟨j, hj, hahead⟩), rfl, ?_⟩
        refine settled_db hP hboth hj fun i hi hPi => ?_
        rcases htree i hi hPi with rfl | hik
        · exact hahead
        · exact hahead.trans hik

/-! ## Moves -/

theorem handleConflictsAndDeletes_spec [DecidablePred P] (hP : Region it.m_direction P)
    (hboth : it.Both snapshot tree P) :
    ∃ it', it.handleConflictsAndDeletes snapshot tree = some it' ∧ it'.m_direction = it.m_direction ∧
      it'.setCurrentIterator.Settled snapshot tree P :=
  handleLoop_spec hP hboth (Nat.lt_succ_of_le (Finset.card_filter_le _ _))

theorem setCurrentIterator_of_forward (h : it.m_direction = .kForward) :
    it.setCurrentIterator = it.setCurrentIteratorToSmallestKey := by
  rw [setCurrentIterator, h]

theorem setCurrentIterator_of_reverse (h : it.m_direction = .kReverse) :
    it.setCurrentIterator = it.setCurrentIteratorToLargestKey := by
  rw [setCurrentIterator, h]

/-- The end of `seek` and `next`. -/
theorem handle_forward [DecidablePred P] (hdirection : it.m_direction = .kForward) (hP : Region .kForward P)
    (hboth : it.Both snapshot tree P) :
    ∃ it', (it.handleConflictsAndDeletes snapshot tree).map setCurrentIteratorToSmallestKey = some it' ∧
      it'.m_direction = .kForward ∧ it'.Settled snapshot tree P := by
  obtain ⟨it', hit', hdirection', hsettled⟩ := handleConflictsAndDeletes_spec (hdirection.symm ▸ hP) hboth
  rw [setCurrentIterator_of_forward (hdirection'.trans hdirection)] at hsettled
  exact ⟨_, congrArg (Option.map _) hit', hdirection'.trans hdirection, hsettled⟩

/-- The end of `seekToLast` and `prev`. -/
theorem handle_reverse [DecidablePred P] (hdirection : it.m_direction = .kReverse) (hP : Region .kReverse P)
    (hboth : it.Both snapshot tree P) :
    ∃ it', (it.handleConflictsAndDeletes snapshot tree).map setCurrentIteratorToLargestKey = some it' ∧
      it'.m_direction = .kReverse ∧ it'.Settled snapshot tree P := by
  obtain ⟨it', hit', hdirection', hsettled⟩ := handleConflictsAndDeletes_spec (hdirection.symm ▸ hP) hboth
  rw [setCurrentIterator_of_reverse (hdirection'.trans hdirection)] at hsettled
  exact ⟨_, congrArg (Option.map _) hit', hdirection'.trans hdirection, hsettled⟩

theorem treeSeek_eq (tree : TreeType K) (target : K) :
    TreeIterator.seek tree target = ⟨first .kForward (tree.keys.filter (target ≤ ·)), false⟩ := by
  rw [TreeIterator.seek, TreeIterator.start_iter]
  split_ifs with hmem
  · have hfirst : first .kForward (tree.keys.filter (target ≤ ·)) = some target :=
      first_eq_some.2 ⟨Finset.mem_filter.2 ⟨Finmap.mem_keys.2 hmem, le_rfl⟩, fun i hi hne =>
        lt_of_le_of_ne (Finset.mem_filter.1 hi).2 hne.symm⟩
    rw [hfirst]
  · have hfirst : first .kForward (tree.keys.filter (target ≤ ·)) ≠ some target := fun h =>
      hmem (Finmap.mem_keys.1 (first_region_mem h).1)
    rw [← firstAhead_of_seek hfirst]
    rfl

/-- **`seek` stands at the least key that is not below the target.** -/
theorem seek_settled (it : TransactionIterator K) (target : K) :
    ∃ it', it.seek snapshot tree target = some it' ∧ it'.m_direction = .kForward ∧
      it'.Settled snapshot tree (target ≤ ·) :=
  handle_forward rfl (region_le target) ⟨treeSeek_eq tree target, rfl⟩

/-- **`seekToLast` stands at the greatest key.** -/
theorem seekToLast_settled (it : TransactionIterator K) :
    ∃ it', it.seekToLast snapshot tree = some it' ∧ it'.m_direction = .kReverse ∧
      it'.Settled snapshot tree fun _ => True := by
  refine handle_reverse rfl region_true ⟨?_, ?_⟩
  · rw [Finset.filter_true]
    rfl
  · rw [Finset.filter_true]
    rfl

/-- The current iterator is at `c`, and the other one anywhere. -/
inductive Half (tree : TreeType K) (snapshot : Snapshot K) (it : TransactionIterator K) (c : K) : Prop
  | tree (hcurrent : it.m_current = some .treeIterator) (htree : it.m_treeIterator = ⟨some c, false⟩) (hmem : c ∈ tree)
  | db (hcurrent : it.m_current = some .dbIterator) (hdb : it.m_dbIterator = some c) (hmem : c ∈ snapshot)
      (hview : ∀ v, overlay snapshot tree c = some v → snapshot.lookup c = some v)

theorem Placed.half (h : it.Placed snapshot tree c) : it.Half tree snapshot c := by
  cases h with
  | tree hcurrent htree hmem _ => exact .tree hcurrent htree hmem
  | db hcurrent hdb hmem hview _ => exact .db hcurrent hdb hmem hview

theorem Half.currentKey (h : it.Half tree snapshot c) : it.currentKey = some c := by
  cases h with
  | tree hcurrent htree _ => simp [TransactionIterator.currentKey, hcurrent, htree]
  | db hcurrent hdb _ _ => simp [TransactionIterator.currentKey, hcurrent, hdb]

theorem turnForward_placed (h : it.Half tree snapshot c) (hdirection : it.m_direction = .kReverse) :
    ∃ it', it.turnForward snapshot tree = some it' ∧ it'.m_direction = .kForward ∧ it'.Placed snapshot tree c := by
  have hnot : ¬ it.m_direction = .kForward := by simp [hdirection]
  rw [turnForward, if_neg hnot, h.currentKey]
  cases h with
  | tree hcurrent htree hmem =>
    rw [hcurrent]
    have hdb : (if DBIterator.seek snapshot c = some c then DBIterator.next snapshot (DBIterator.seek snapshot c)
        else some (DBIterator.seek snapshot c)) = some (firstAhead .kForward snapshot.keys c) := by
      split_ifs with hc
      · rw [hc]
        rfl
      · exact congrArg some (firstAhead_of_seek hc).symm
    simp only [Option.bind_some, hdb, Option.map_some]
    exact ⟨_, rfl, rfl, .tree rfl htree hmem rfl⟩
  | db hcurrent hdb hmem hview =>
    rw [hcurrent]
    have htree : (if (TreeIterator.seek tree c).m_iterator = some c then (TreeIterator.seek tree c).next tree
        else some (TreeIterator.seek tree c)) = some ⟨firstAhead .kForward tree.keys c, false⟩ := by
      rw [treeSeek_eq]
      split_ifs with hc
      · simp only at hc
        rw [hc]
        rfl
      · exact congrArg (fun key => some (⟨key, false⟩ : TreeIterator K)) (firstAhead_of_seek hc).symm
    simp only [Option.bind_some, htree, Option.map_some]
    exact ⟨_, rfl, rfl, .db rfl hdb hmem hview rfl⟩

theorem turnReverse_placed (h : it.Half tree snapshot c) (hdirection : it.m_direction = .kForward) :
    ∃ it', it.turnReverse snapshot tree = some it' ∧ it'.m_direction = .kReverse ∧ it'.Placed snapshot tree c := by
  have hnot : ¬ it.m_direction = .kReverse := by simp [hdirection]
  rw [turnReverse, if_neg hnot, h.currentKey]
  cases h with
  | tree hcurrent htree hmem =>
    rw [hcurrent]
    have hdb : (if (DBIterator.seek snapshot c).isSome then DBIterator.prev snapshot (DBIterator.seek snapshot c)
        else some (DBIterator.seekToLast snapshot)) = some (firstAhead .kReverse snapshot.keys c) := by
      cases hc : DBIterator.seek snapshot c with
      | none => exact congrArg some (firstAhead_reverse_of_seek_none hc).symm
      | some j => exact congrArg some (firstAhead_reverse_of_seek hc)
    simp only [Option.bind_some, hdb, Option.map_some]
    exact ⟨_, rfl, rfl, .tree rfl htree hmem rfl⟩
  | db hcurrent hdb hmem hview =>
    rw [hcurrent]
    have htree : (if (TreeIterator.seek tree c).isValid then (TreeIterator.seek tree c).prev tree
        else some (TreeIterator.seekToLast tree)) = some ⟨firstAhead .kReverse tree.keys c, false⟩ := by
      rw [treeSeek_eq, TreeIterator.isValid]
      cases hc : first .kForward (tree.keys.filter (c ≤ ·)) with
      | none => exact congrArg (fun key => some (⟨key, false⟩ : TreeIterator K)) (firstAhead_reverse_of_seek_none hc).symm
      | some j => exact congrArg (fun key => some (⟨key, false⟩ : TreeIterator K)) (firstAhead_reverse_of_seek hc)
    simp only [Option.bind_some, htree, Option.map_some]
    exact ⟨_, rfl, rfl, .db rfl hdb hmem hview rfl⟩

theorem stepCurrent_both {treeStep : TreeIterator K → Option (TreeIterator K)} {dbStep : Option K → Option (Option K)}
    (htreeStep : treeStep ⟨some c, false⟩ = some ⟨firstAhead it.m_direction tree.keys c, false⟩)
    (hdbStep : dbStep (some c) = some (firstAhead it.m_direction snapshot.keys c)) (h : it.Placed snapshot tree c) :
    ∃ it', it.stepCurrent treeStep dbStep = some it' ∧ it'.m_direction = it.m_direction ∧
      it'.Both snapshot tree (it.m_direction.Ahead c ·) := by
  rw [stepCurrent]
  cases h with
  | tree hcurrent htree _ hdb =>
    rw [hcurrent, Option.bind_some, htree]
    simp only [htreeStep, Option.map_some]
    exact ⟨_, rfl, rfl, rfl, hdb⟩
  | db hcurrent hdb _ _ htree =>
    rw [hcurrent, Option.bind_some, hdb]
    simp only [hdbStep, Option.map_some]
    exact ⟨_, rfl, rfl, htree, rfl⟩

/-! ## The invariant of an iterator -/

/-- Between two moves: if the tree has not changed the iterator is placed, and else what does not depend on the tree is
as it was. -/
inductive Inv (snapshot : Snapshot K) (tree : TreeType K) (it : TransactionIterator K) : Prop
  | none (hcurrent : it.m_current = none)
  | tree (c : K) (hcurrent : it.m_current = some .treeIterator) (htree : it.m_treeIterator.m_iterator = some c)
      (hmem : c ∈ tree) (hdb : it.m_dbIterator = firstAhead it.m_direction snapshot.keys c)
      (hstale : it.m_treeChanged = false → it.m_treeIterator.stale = false)
  | db (c : K) (hcurrent : it.m_current = some .dbIterator) (hdb : it.m_dbIterator = some c) (hmem : c ∈ snapshot)
      (hview : ∀ v, overlay snapshot tree c = some v → snapshot.lookup c = some v)
      (htree : it.m_treeChanged = false → it.m_treeIterator = ⟨firstAhead it.m_direction tree.keys c, false⟩)

theorem Placed.inv (h : it.Placed snapshot tree c) : it.Inv snapshot tree := by
  cases h with
  | tree hcurrent htree hmem hdb => exact .tree c hcurrent (by rw [htree]) hmem hdb fun _ => by rw [htree]
  | db hcurrent hdb hmem hview htree => exact .db c hcurrent hdb hmem hview fun _ => htree

theorem Settled.inv (h : it.Settled snapshot tree P) : it.Inv snapshot tree := by
  rcases h with ⟨hcurrent, -⟩ | ⟨c, hplaced, -⟩
  · exact .none hcurrent
  · exact hplaced.inv

/-- The refresh leaves the tree iterator at no node, though there is one before the key of the database iterator: the
direction is reverse, and no node comes after that key or has it. -/
def losesTree (tree : TreeType K) (it : TransactionIterator K) : Bool :=
  it.m_treeChanged && it.m_direction = .kReverse && it.m_current = some .dbIterator && it.m_dbIterator.any fun c =>
    decide ((tree.keys.filter (c ≤ ·)).card = 0 ∧ (tree.keys.filter (· < c)).card ≠ 0)

theorem refresh_tree (h : it.m_treeChanged = true) (hcurrent : it.m_current = some .treeIterator)
    (htree : it.m_treeIterator.m_iterator = some c) (hmem : c ∈ tree) :
    it.refreshIfChanged tree = some { it with m_treeChanged := false, m_treeIterator := ⟨some c, false⟩ } := by
  rw [refreshIfChanged, if_pos h, refreshTreeIterator]
  simp [TreeIterator.isValid, TreeIterator.reset, TreeIterator.start_iter, htree, hcurrent, hmem]

theorem refresh_db (tree : TreeType K) (h : it.m_treeChanged = true) (hcurrent : it.m_current = some .dbIterator)
    (hdb : it.m_dbIterator = some c) :
    ∃ treeIterator, it.refreshIfChanged tree =
        some { it with m_treeChanged := false, m_treeIterator := treeIterator } ∧
      (it.losesTree tree = false → treeIterator = ⟨firstAhead it.m_direction tree.keys c, false⟩) := by
  rw [refreshIfChanged, if_pos h, refreshTreeIterator]
  simp only [hcurrent, hdb, Option.some.injEq, reduceCtorEq, decide_false, Bool.and_false, Bool.false_eq_true, ↓reduceIte,
    treeSeek_eq, TreeIterator.isValid]
  cases hd : it.m_direction with
  | kForward =>
    simp only [↓reduceIte]
    split_ifs with hc
    · rw [hc]
      exact ⟨_, rfl, fun _ => rfl⟩
    · exact ⟨_, rfl, fun _ => by rw [firstAhead_of_seek hc]⟩
  | kReverse =>
    simp only [reduceCtorEq, ↓reduceIte]
    cases hc : first .kForward (tree.keys.filter (c ≤ ·)) with
    | some j => exact ⟨_, rfl, fun _ => by rw [firstAhead_reverse_of_seek hc]⟩
    | none =>
      refine ⟨_, rfl, fun hloses => ?_⟩
      have hempty : tree.keys.filter (c ≤ ·) = ∅ := first_eq_none.1 hc
      have hbelow : tree.keys.filter (· < c) = ∅ := by
        simpa only [losesTree, h, hd, hcurrent, hdb, Option.any_some, hempty, Finset.card_empty, decide_true, Bool.true_and,
          true_and, decide_eq_false_iff_not, not_not, Finset.card_eq_zero, ne_eq] using hloses
      have hahead : firstAhead .kReverse tree.keys c = none := first_eq_none.2 hbelow
      rw [hahead]

/-- **The refresh places the iterator**, unless it loses the tree. -/
theorem refresh_placed (h : it.Inv snapshot tree) (hc : it.currentKey = some c) (hkeeps : it.losesTree tree = false) :
    ∃ it', it.refreshIfChanged tree = some it' ∧ it'.m_direction = it.m_direction ∧ it'.Placed snapshot tree c := by
  cases hchanged : it.m_treeChanged with
  | false =>
    refine ⟨it, by simp [refreshIfChanged, hchanged], rfl, ?_⟩
    cases h with
    | none hcurrent => simp [TransactionIterator.currentKey, hcurrent] at hc
    | tree c' hcurrent htree hmem hdb hstale =>
      obtain rfl : c' = c := by simpa [TransactionIterator.currentKey, hcurrent, htree] using hc
      refine .tree hcurrent ?_ hmem hdb
      rw [← htree, ← hstale hchanged]
    | db c' hcurrent hdb hmem hview htree =>
      obtain rfl : c' = c := by simpa [TransactionIterator.currentKey, hcurrent, hdb] using hc
      exact .db hcurrent hdb hmem hview (htree hchanged)
  | true =>
    cases h with
    | none hcurrent => simp [TransactionIterator.currentKey, hcurrent] at hc
    | tree c' hcurrent htree hmem hdb hstale =>
      obtain rfl : c' = c := by simpa [TransactionIterator.currentKey, hcurrent, htree] using hc
      exact ⟨_, refresh_tree hchanged hcurrent htree hmem, rfl, .tree hcurrent rfl hmem hdb⟩
    | db c' hcurrent hdb hmem hview htree =>
      obtain rfl : c' = c := by simpa [TransactionIterator.currentKey, hcurrent, hdb] using hc
      obtain ⟨treeIterator, hrefresh, hplaced⟩ := refresh_db tree hchanged hcurrent hdb
      exact ⟨_, hrefresh, rfl, .db hcurrent hdb hmem hview (hplaced hkeeps)⟩

theorem refresh_half (h : it.Inv snapshot tree) (hc : it.currentKey = some c) :
    ∃ it', it.refreshIfChanged tree = some it' ∧ it'.m_direction = it.m_direction ∧ it'.Half tree snapshot c := by
  by_cases hkeeps : it.losesTree tree = false
  · obtain ⟨it', hit', hdirection, hplaced⟩ := refresh_placed h hc hkeeps
    exact ⟨it', hit', hdirection, hplaced.half⟩
  · have hchanged : it.m_treeChanged = true := by
      by_contra hfalse
      exact hkeeps (by simp [losesTree, hfalse])
    cases h with
    | none hcurrent => simp [TransactionIterator.currentKey, hcurrent] at hc
    | tree c' hcurrent htree hmem hdb hstale =>
      obtain rfl : c' = c := by simpa [TransactionIterator.currentKey, hcurrent, htree] using hc
      exact ⟨_, refresh_tree hchanged hcurrent htree hmem, rfl, .tree hcurrent rfl hmem⟩
    | db c' hcurrent hdb hmem hview htree =>
      obtain rfl : c' = c := by simpa [TransactionIterator.currentKey, hcurrent, hdb] using hc
      obtain ⟨treeIterator, hrefresh, -⟩ := refresh_db tree hchanged hcurrent hdb
      exact ⟨_, hrefresh, rfl, .db hcurrent hdb hmem hview⟩

/-- **`next` stands at the least key above the current one.** -/
theorem next_settled (h : it.Inv snapshot tree) (hc : it.currentKey = some c) :
    ∃ it', it.next snapshot tree = some it' ∧ it'.m_direction = .kForward ∧ it'.Settled snapshot tree (c < ·) := by
  have hturn : ∃ it', (it.refreshIfChanged tree).bind (turnForward snapshot tree) = some it' ∧
      it'.m_direction = .kForward ∧ it'.Placed snapshot tree c := by
    cases hd : it.m_direction with
    | kForward =>
      obtain ⟨it₁, hit₁, hdirection, hplaced⟩ := refresh_placed h hc (by simp [losesTree, hd])
      refine ⟨it₁, ?_, hdirection.trans hd, hplaced⟩
      rw [hit₁, Option.bind_some, turnForward, if_pos (hdirection.trans hd)]
    | kReverse =>
      obtain ⟨it₁, hit₁, hdirection, hhalf⟩ := refresh_half h hc
      rw [hit₁]
      exact turnForward_placed hhalf (hdirection.trans hd)
  obtain ⟨it₁, hit₁, hdirection, hplaced⟩ := hturn
  obtain ⟨it₂, hit₂, hdirection₂, hboth⟩ : ∃ it', it₁.stepCurrent (TreeIterator.next tree) (DBIterator.next snapshot) =
      some it' ∧ it'.m_direction = it₁.m_direction ∧ it'.Both snapshot tree (it₁.m_direction.Ahead c ·) :=
    stepCurrent_both (by rw [hdirection]; rfl) (by rw [hdirection]; rfl) hplaced
  simp only [hdirection] at hboth hdirection₂
  obtain ⟨it₃, hit₃, hresult⟩ := handle_forward hdirection₂ (region_ahead c) hboth
  refine ⟨it₃, ?_, hresult⟩
  obtain ⟨it₀, hit₀, hturned⟩ := Option.bind_eq_some_iff.1 hit₁
  rw [TransactionIterator.next, hit₀, Option.bind_some, hturned, Option.bind_some, hit₂]
  exact hit₃

/-- **`prev` stands at the greatest key below the current one**, unless the refresh loses the tree. -/
theorem prev_settled (h : it.Inv snapshot tree) (hc : it.currentKey = some c) (hkeeps : it.losesTree tree = false) :
    ∃ it', it.prev snapshot tree = some it' ∧ it'.m_direction = .kReverse ∧ it'.Settled snapshot tree (· < c) := by
  obtain ⟨it₀, hit₀, hdirection₀, hplaced₀⟩ := refresh_placed h hc hkeeps
  have hturn : ∃ it', it₀.turnReverse snapshot tree = some it' ∧ it'.m_direction = .kReverse ∧
      it'.Placed snapshot tree c := by
    cases hd : it.m_direction with
    | kForward => exact turnReverse_placed hplaced₀.half (hdirection₀.trans hd)
    | kReverse => exact ⟨it₀, if_pos (hdirection₀.trans hd), hdirection₀.trans hd, hplaced₀⟩
  obtain ⟨it₁, hit₁, hdirection, hplaced⟩ := hturn
  obtain ⟨it₂, hit₂, hdirection₂, hboth⟩ : ∃ it', it₁.stepCurrent (TreeIterator.prev tree) (DBIterator.prev snapshot) =
      some it' ∧ it'.m_direction = it₁.m_direction ∧ it'.Both snapshot tree (it₁.m_direction.Ahead c ·) :=
    stepCurrent_both (by rw [hdirection]; rfl) (by rw [hdirection]; rfl) hplaced
  simp only [hdirection] at hboth hdirection₂
  obtain ⟨it₃, hit₃, hresult⟩ := handle_reverse hdirection₂ (region_ahead c) hboth
  refine ⟨it₃, ?_, hresult⟩
  rw [TransactionIterator.prev, hit₀, Option.bind_some, hit₁, Option.bind_some, hit₂]
  exact hit₃

theorem key_placed (h : it.Inv snapshot tree) (hc : it.currentKey = some c) (hkeeps : it.losesTree tree = false) :
    ∃ it', it.key tree = some (it', c) ∧ it'.Placed snapshot tree c := by
  obtain ⟨it', hit', -, hplaced⟩ := refresh_placed h hc hkeeps
  refine ⟨it', ?_, hplaced⟩
  rw [TransactionIterator.key, hit', Option.bind_some, hplaced.currentKey]
  rfl

theorem value_spec (h : it.Inv snapshot tree) (hc : it.currentKey = some c) :
    ∃ it' v, it.value snapshot tree = some (it', v) ∧ it'.Half tree snapshot c ∧
      ∀ v', overlay snapshot tree c = some v' → v = v' := by
  obtain ⟨it', hit', -, hhalf⟩ := refresh_half h hc
  rw [TransactionIterator.value, hit', Option.bind_some]
  cases hhalf with
  | tree hcurrent htree hmem =>
    obtain ⟨node, hnode⟩ := Finmap.mem_iff.1 hmem
    refine ⟨it', node.value, ?_, .tree hcurrent htree hmem, fun v' hv' => ?_⟩
    · simp [hcurrent, htree, TreeIterator.value, hnode]
    · have hvalue : (if node.deleted then none else some node.value) = some v' := by simpa [overlay, hnode] using hv'
      split_ifs at hvalue
      exact Option.some.inj hvalue
  | db hcurrent hdb hmem hview =>
    obtain ⟨v, hv⟩ := Finmap.mem_iff.1 hmem
    refine ⟨it', v, ?_, .db hcurrent hdb hmem hview, fun v' hv' => ?_⟩
    · simp [hcurrent, hdb, hv]
    · exact Option.some.inj (hv.symm.trans (hview v' hv'))

theorem value_placed (h : it.Inv snapshot tree) (hc : it.currentKey = some c) (hkeeps : it.losesTree tree = false) :
    ∃ it' v, it.value snapshot tree = some (it', v) ∧ it'.Placed snapshot tree c := by
  obtain ⟨it', hit', -, hplaced⟩ := refresh_placed h hc hkeeps
  obtain ⟨it'', v, hvalue, -⟩ := value_spec h hc
  refine ⟨it', v, ?_, hplaced⟩
  rw [TransactionIterator.value, hit', Option.bind_some] at hvalue ⊢
  cases hplaced with
  | tree hcurrent htree hmem _ =>
    simp only [hcurrent, Option.bind_some] at hvalue ⊢
    obtain ⟨v', hv', heq⟩ := Option.map_eq_some_iff.1 hvalue
    rw [hv', Option.map_some, (Prod.mk.inj heq).2]
  | db hcurrent hdb hmem _ _ =>
    simp only [hcurrent, Option.bind_some] at hvalue ⊢
    obtain ⟨v', hv', heq⟩ := Option.map_eq_some_iff.1 hvalue
    rw [hv', Option.map_some, (Prod.mk.inj heq).2]

end TransactionIterator

end WebKit.WebCore
