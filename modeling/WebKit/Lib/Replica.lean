import Mathlib.Data.List.Basic

/-!
# A replica that writes ahead of its register

A server holds a register. A replica applies its own writes at once and sends them to the server over one FIFO channel;
over the other the server tells it the writes of others (`remote`) and acknowledges its own (`ack`). While a write is not
acknowledged the replica ignores what others write, since its own write comes after it on the server (`receive`).

`Agrees m n events writes s` says of a replica with value `m` and `n` unacknowledged writes that it ends with the value the
server, now at `s`, ends with: every write and every delivery keeps it (`Agrees.write`, `Agrees.receive`, `Agrees.serve`,
`Agrees.remote`), and a replica with nothing in flight holds the value of the register (`Agrees.quiescent`).
-/

namespace Replica

/-- What a replica is told. -/
inductive Event (α : Type*)
  | ack
  | remote (value : α)

variable {α : Type*}

/-- The value and the number of unacknowledged writes after an event. -/
def receive (m : α) (n : Nat) : Event α → α × Nat
  | .ack => (m, n - 1)
  | .remote value => (if n = 0 then value else m, n)

/-- The value and the number of unacknowledged writes after a sequence of events. -/
def replay : α → Nat → List (Event α) → α × Nat
  | m, n, [] => (m, n)
  | m, n, e :: events => replay (receive m n e).1 (receive m n e).2 events

/-- How many writes a sequence of events acknowledges. -/
def acks : List (Event α) → Nat
  | [] => 0
  | .ack :: events => acks events + 1
  | .remote _ :: events => acks events

/-- The value a register with value `s` ends with after the writes of a list. -/
def settled (s : α) (writes : List α) : α := writes.getLastD s

/-- Every unacknowledged write is in flight, and the replica ends with the value the register ends with. -/
structure Agrees (m : α) (n : Nat) (events : List (Event α)) (writes : List α) (s : α) : Prop where
  count : n = acks events + writes.length
  value : (replay m n events).1 = settled s writes

section

variable {m s v : α} {n : Nat} {e : Event α} {events : List (Event α)} {writes : List α}

@[simp] theorem replay_nil : replay m n [] = (m, n) := rfl

theorem replay_append {events' : List (Event α)} :
    replay m n (events ++ events') = replay (replay m n events).1 (replay m n events).2 events' := by
  induction events generalizing m n with
  | nil => rfl
  | cons e events ih => exact ih

theorem acks_append {events' : List (Event α)} : acks (events ++ events') = acks events + acks events' := by
  induction events with
  | nil => exact (Nat.zero_add _).symm
  | cons e events ih =>
    cases e with
    | ack =>
      change acks (events ++ events') + 1 = acks events + 1 + acks events'
      omega
    | remote value => exact ih

/-- As many writes are left as are not acknowledged. -/
theorem replay_snd (h : acks events ≤ n) : (replay m n events).2 = n - acks events := by
  induction events generalizing m n with
  | nil => rfl
  | cons e events ih =>
    cases e with
    | ack =>
      change acks events + 1 ≤ n at h
      change (replay m (n - 1) events).2 = n - (acks events + 1)
      have hih := ih (m := m) (n := n - 1) (by omega)
      omega
    | remote value => exact ih h

/-- Before the last write is acknowledged the replica keeps its value. -/
theorem replay_fst (h : acks events < n) : (replay m n events).1 = m := by
  induction events generalizing m n with
  | nil => rfl
  | cons e events ih =>
    cases e with
    | ack =>
      change acks events + 1 < n at h
      exact ih (show acks events < n - 1 by omega)
    | remote value =>
      change acks events < n at h
      have hn : n ≠ 0 := by omega
      change (replay (if n = 0 then value else m) n events).1 = m
      rw [if_neg hn]
      exact ih h

theorem settled_append : settled s (writes ++ [v]) = v := by
  unfold settled
  rw [List.getLastD_concat]

theorem settled_cons : settled s (v :: writes) = settled v writes := by
  unfold settled
  rw [List.getLastD_cons]

namespace Agrees

theorem read : Agrees s 0 [] [] s := ⟨rfl, rfl⟩

/-- **Nothing in flight**: the replica holds the value of the register. -/
theorem quiescent (h : Agrees m n [] [] s) : m = s ∧ n = 0 := ⟨h.value, h.count⟩

/-- **The replica writes.** -/
theorem write (h : Agrees m n events writes s) (v : α) : Agrees v (n + 1) events (writes ++ [v]) s where
  count := by rw [List.length_append, List.length_singleton, h.count, Nat.add_assoc]
  value := by
    have hcount := h.count
    rw [settled_append, replay_fst (by omega)]

/-- **The replica is told.** -/
theorem receive (h : Agrees m n (e :: events) writes s) :
    Agrees (Replica.receive m n e).1 (Replica.receive m n e).2 events writes s where
  count := by
    have hcount := h.count
    cases e with
    | ack =>
      change n = acks events + 1 + writes.length at hcount
      change n - 1 = acks events + writes.length
      omega
    | remote value => exact hcount
  value := h.value

/-- **The server applies a write of the replica** and acknowledges it. -/
theorem serve (h : Agrees m n events (v :: writes) s) : Agrees m n (events ++ [.ack]) writes v where
  count := by
    have hcount := h.count
    rw [List.length_cons] at hcount
    rw [acks_append]
    change n = acks events + 1 + writes.length
    omega
  value := by
    rw [replay_append]
    change (replay m n events).1 = settled v writes
    rw [h.value, settled_cons]

/-- **The server applies a write of another replica** and tells the replica. -/
theorem remote (h : Agrees m n events writes s) (v : α) : Agrees m n (events ++ [.remote v]) writes v where
  count := by
    rw [acks_append]
    exact h.count
  value := by
    have hcount := h.count
    rw [replay_append]
    change (if (replay m n events).2 = 0 then v else (replay m n events).1) = settled v writes
    rw [replay_snd (by omega), h.value]
    cases hw : writes with
    | nil =>
      rw [hw, List.length_nil] at hcount
      rw [if_pos (by omega)]
      rfl
    | cons w writes =>
      rw [hw, List.length_cons] at hcount
      rw [if_neg (by omega), settled_cons, settled_cons]

end Agrees

end

end Replica
