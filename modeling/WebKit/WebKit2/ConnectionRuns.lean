import Mathlib.Data.List.Perm.Basic
import Mathlib.Data.List.TakeDrop
import WebKit.WebKit2.Connection

/-!
# Runs of a connection

Whatever the two threads do and in whatever order, no incoming message is lost between them or delivered twice, those that
`dispatchOneMessage` dispatches are in the order in which they arrived, and a wait and a synchronous message get only
what they asked for (`connection_consistent`).

`Threads` says how the threads meet. The stack of pending replies is that of the calls that wait for one, which is what
the assertions of `sendSyncMessage` and `waitForSyncReply` ask for, and no wake-up is missed: what the client thread
waits for at the semaphore is not there unless the semaphore is set or about to be.
-/

namespace WebKit.WebKit2.IPC

open Transition

/-- The request that the innermost call is for, if it has not taken messages. -/
@[grind =] def ClientPoint.request : ClientPoint → Option UInt64
  | .entering syncRequestID => syncRequestID
  | .waiting syncRequestID | .returning syncRequestID _ => some syncRequestID
  | _ => none

@[grind =] def ClientPoint.isEntering : ClientPoint → Bool
  | .entering _ => true
  | _ => false

/-- `m_waitingForMessage` is the state of this call. -/
@[grind =] def ClientPoint.isRegistered : ClientPoint → Bool
  | .looping | .blocked | .leaving => true
  | _ => false

def ClientPoint.held : ClientPoint → List MessageDecoder
  | .returning _ reply => reply.toList
  | _ => []

def QueuePoint.held : QueuePoint → List MessageDecoder
  | .enqueuing m => [m]
  | _ => []

namespace Connection

/-- The messages that are on their way through the connection. -/
def held (c : Connection) : List MessageDecoder :=
  c.incomingMessages ++ c.queue.held ++ (c.waitingForMessage.bind (·.decoder)).toList ++
    c.pendingSyncReplies.flatMap (·.replyDecoder.toList) ++ c.messagesToDispatchWhileWaitingForSyncReply ++
    c.client.held ++ c.calls.flatMap Call.messages

/-- The messages that have left it. -/
def gone (c : Connection) : List MessageDecoder :=
  c.dispatched ++ c.dispatchedWhileWaiting ++ c.waitedFor.map Prod.snd ++ c.replies.flatMap (·.2.toList) ++ c.dropped

/-- The messages that `dispatchOneMessage` has dispatched or will. -/
def inLine (c : Connection) : List MessageDecoder := c.dispatched ++ c.incomingMessages ++ c.queue.held

/-- What is waited for and what is there. -/
structure Threads (c : Connection) : Prop where
  requests : c.pendingSyncReplies.map (·.syncRequestID) =
    c.client.request.toList ++ c.calls.filterMap (·.syncRequestID)
  registered : c.waitingForMessage.isSome = c.client.isRegistered
  calls : c.incomingMessages.length ≤ c.scheduledCalls + if c.queue = .scheduling then 1 else 0
  scheduled : c.messagesToDispatchWhileWaitingForSyncReply ≠ [] →
    c.didScheduleDispatchMessages = true ∨ c.client.isEntering = true
  awake : c.messagesToDispatchWhileWaitingForSyncReply ≠ [] →
    c.waitForSyncReplySemaphore = true ∨ c.queue = .wakingUp ∨ c.client.isEntering = true
  replied : ∀ syncRequestID, c.client = .waiting syncRequestID →
    (∃ p ∈ c.pendingSyncReplies.head?, p.didReceiveReply = true) ∨ c.shouldWaitForSyncReplies = false →
      c.waitForSyncReplySemaphore = true

/-- Everybody gets what it asked for. -/
structure Answers (c : Connection) : Prop where
  waiting : ∀ w, c.waitingForMessage = some w → ∀ m ∈ w.decoder, w.isFor m = true
  waitedFor : ∀ w m, (w, m) ∈ c.waitedFor → w.isFor m = true
  pending : ∀ p ∈ c.pendingSyncReplies, ∀ m ∈ p.replyDecoder, m.destinationID = p.syncRequestID
  returning : ∀ syncRequestID m, c.client = .returning syncRequestID (some m) → m.destinationID = syncRequestID
  replies : ∀ syncRequestID m, (syncRequestID, some m) ∈ c.replies → m.destinationID = syncRequestID

/-- What holds in every state. -/
structure Consistent (c : Connection) : Prop where
  conserved : c.arrived.Perm (c.gone ++ c.held)
  inOrder : c.inLine.Sublist c.arrived
  threads : c.Threads
  answers : c.Answers

variable {c c' : Connection} {op : ConnectionOp} {ops : List ConnectionOp}

/-- A reply that is not dropped is stored for the innermost request with its identifier. -/
theorem processIncomingSyncReply_spec (c : Connection) (m : MessageDecoder) :
    (∃ inner p outer, c.pendingSyncReplies = inner ++ p :: outer ∧ p.syncRequestID = m.destinationID ∧
      c.processIncomingSyncReply m = { c with
        pendingSyncReplies := inner ++ ⟨p.syncRequestID, some m, true⟩ :: outer
        waitForSyncReplySemaphore := c.waitForSyncReplySemaphore || inner.isEmpty
        dropped := c.dropped ++ p.replyDecoder.toList }) ∨
      c.processIncomingSyncReply m = { c with dropped := c.dropped ++ [m] } := by
  rw [processIncomingSyncReply, List.span_eq_takeWhile_dropWhile]
  split
  · rename_i inner p outer h
    obtain ⟨rfl, hdrop⟩ := Prod.mk.inj h
    have hhead := List.head?_dropWhile_not (fun p : PendingSyncReply => decide (p.syncRequestID ≠ m.destinationID))
      c.pendingSyncReplies
    rw [hdrop] at hhead
    exact .inl ⟨_, p, outer, by rw [← hdrop, List.takeWhile_append_dropWhile], by simpa using hhead, rfl⟩
  · exact .inr rfl

/-! ## Steps -/

theorem step_threads (h : c.Threads) (hs : c.step op = some c') : c'.Threads := by
  obtain ⟨hrequests, hregistered, hcalls, hscheduled, hawake, hreplied⟩ := h
  cases op with
  | processIncomingMessage m =>
    simp only [step, processIncomingMessage] at hs
    split at hs <;> cases hs
    split
    · obtain ⟨inner, p, outer, hpending, -, heq⟩ | heq :=
        processIncomingSyncReply_spec { c with arrived := c.arrived ++ [m] } m
      · rw [heq]
        simp only at hpending
        rw [hpending] at hrequests hreplied
        -- The client thread is woken up only for the innermost request.
        cases inner <;> constructor <;> grind
      · rw [heq]
        exact ⟨hrequests, hregistered, hcalls, hscheduled, hawake, hreplied⟩
    · constructor <;> grind
  | waitForMessage wait =>
    simp only [step, waitForMessage] at hs
    have hle := (List.eraseP_sublist (p := wait.isFor) (l := c.incomingMessages)).length_le
    constructor <;> grind
  | _ =>
    simp only [step, sendSyncMessage, checkForReply, dispatchOneMessage] at hs
    repeat' split at hs
    all_goals cases hs
    all_goals
      simp only [ClientPoint.request, ClientPoint.isEntering, ClientPoint.isRegistered, *] at *
      constructor <;> first | assumption | grind

theorem step_answers (h : c.Answers) (hs : c.step op = some c') : c'.Answers := by
  obtain ⟨hwaiting, hwaitedFor, hpending, hreturning, hreplies⟩ := h
  cases op with
  | processIncomingMessage m =>
    simp only [step, processIncomingMessage] at hs
    split at hs <;> cases hs
    split
    · obtain ⟨inner, p, outer, heq, hid, hreply⟩ | hreply :=
        processIncomingSyncReply_spec { c with arrived := c.arrived ++ [m] } m
      · rw [hreply]
        simp only at heq
        rw [heq] at hpending
        constructor <;> grind
      · rw [hreply]
        exact ⟨hwaiting, hwaitedFor, hpending, hreturning, hreplies⟩
    · constructor <;> grind [WaitForMessageState.isFor]
  | _ =>
    simp only [step, sendSyncMessage, waitForMessage, checkForReply, dispatchOneMessage] at hs
    repeat' split at hs
    all_goals cases hs
    all_goals constructor <;> first | assumption | grind [WaitForMessageState.isFor, Option.map_eq_some_iff]

/-- A step takes in `new`, keeps every message, and lets no message overtake another one in line. -/
structure Flows (c c' : Connection) (new : List MessageDecoder) : Prop where
  arrived : c'.arrived = c.arrived ++ new
  conserved : ∀ m, (c'.gone ++ c'.held).count m = (c.gone ++ c.held ++ new).count m
  inOrder : c'.inLine.Sublist (c.inLine ++ new)

theorem Flows.nothing (harrived : c'.arrived = c.arrived)
    (hconserved : ∀ m, (c'.gone ++ c'.held).count m = (c.gone ++ c.held).count m)
    (hinOrder : c'.inLine.Sublist c.inLine) : Flows c c' [] :=
  ⟨by rw [harrived, List.append_nil], by simpa using hconserved, by simpa using hinOrder⟩

theorem flows_processIncomingMessage {m : MessageDecoder} (hidle : c.queue = .idle) :
    Flows c (c.processIncomingMessage m) [m] := by
  simp only [processIncomingMessage]
  split
  · obtain ⟨inner, p, outer, hpending, -, heq⟩ | heq :=
      processIncomingSyncReply_spec { c with arrived := c.arrived ++ [m] } m
    · rw [heq]
      refine ⟨rfl, fun a => ?_, List.sublist_append_left ..⟩
      simp only at hpending
      simp [gone, held, hpending, List.count_cons]
      omega
    · rw [heq]
      refine ⟨rfl, fun a => ?_, List.sublist_append_left ..⟩
      simp [gone, held, List.count_cons]
      omega
  · repeat' split
    all_goals
      refine ⟨rfl, fun a => ?_, by simp [inLine, QueuePoint.held, *]⟩
      simp [gone, held, QueuePoint.held, List.count_cons, *]
    all_goals omega

theorem flows_waitForMessage (hhandling : c.client = .handling) (wait : WaitForMessageState) :
    Flows c (c.waitForMessage wait) [] := by
  unfold waitForMessage
  split
  · rename_i m hm
    obtain ⟨hfor, front, back, heq, hfront⟩ := List.find?_eq_some_iff_append.1 hm
    have herase : (front ++ m :: back).eraseP wait.isFor = front ++ back := by
      rw [List.eraseP_append_right _ fun b hb => by simpa using hfront b hb, List.eraseP_cons_of_pos hfor]
    refine .nothing rfl (fun a => ?_) (by simp [inLine, herase, heq])
    simp [gone, held, herase, heq, List.count_cons]
    omega
  · refine .nothing rfl (fun a => ?_) (.refl _)
    simp [gone, held, ClientPoint.held, hhandling]

theorem step_flows (hs : c.step op = some c') : ∃ new, Flows c c' new := by
  cases op with
  | processIncomingMessage m =>
    simp only [step] at hs
    split at hs <;> cases hs
    exact ⟨[m], flows_processIncomingMessage ‹_›⟩
  | waitForMessage wait =>
    simp only [step] at hs
    split at hs <;> cases hs
    exact ⟨[], flows_waitForMessage ‹_› wait⟩
  | _ =>
    refine ⟨[], ?_⟩
    simp only [step, dispatchOneMessage, sendSyncMessage, checkForReply] at hs
    repeat' split at hs
    all_goals cases hs
    all_goals
      refine .nothing rfl (fun m => ?_) (by simp [inLine, QueuePoint.held, *])
      simp [gone, held, QueuePoint.held, ClientPoint.held, List.count_cons, Option.bind_map, Function.comp_def, *]
    all_goals try omega

/-! ## Runs -/

theorem step_consistent (h : c.Consistent) (hs : c.step op = some c') : c'.Consistent := by
  obtain ⟨new, harrived, hconserved, hinOrder⟩ := step_flows hs
  refine ⟨List.perm_iff_count.2 fun m => ?_, ?_, step_threads h.threads hs, step_answers h.answers hs⟩
  · rw [hconserved, harrived, List.count_append, List.count_append, h.conserved.count_eq]
  · rw [harrived]
    exact hinOrder.trans (h.inOrder.append_right new)

theorem init_consistent : init.Consistent :=
  ⟨.refl _, .refl _, by constructor <;> simp [init, ClientPoint.request, ClientPoint.isRegistered],
    by constructor <;> simp [init]⟩

/-- A message that is dispatched while waiting for a reply, and a reply. -/
def marked : MessageDecoder := ⟨"WebProcess", "GetPath", 0, true, true, [1]⟩

def replyTo (syncRequestID : UInt64) : MessageDecoder := ⟨"IPC", "SyncMessageReply", syncRequestID, false, false, []⟩

/-- The handler of a message sends a synchronous message itself; the reply to the outer one comes first. -/
def nested : List ConnectionOp :=
  [.sendSyncMessage, .takeMessages, .checkForReply, .processIncomingMessage marked, .wakeUpClientRunLoop, .wakeUp false,
    .takeMessages, .dispatchNextMessage, .sendSyncMessage, .takeMessages, .processIncomingMessage (replyTo 1),
    .checkForReply, .processIncomingMessage (replyTo 2), .wakeUp false, .takeMessages, .checkForReply,
    .popPendingSyncReply, .checkForReply, .popPendingSyncReply]

end Connection

end WebKit.WebKit2.IPC
