import WebKit.Lib.Run

/-!
# The incoming messages of a connection

The two threads of an `IPC::Connection`: the connection queue, which runs `processIncomingMessage` and
`connectionDidClose`, and the client thread, which waits for messages and for replies to synchronous messages and
dispatches what arrives. A step (`step`) ends where the other thread may come in: at the locks and at the waits.

The handler of a message may send and wait itself, so calls of `dispatchMessages` nest. What has become of the messages is
recorded. Messages for work queues and replies to secondary threads are left out.
-/

namespace WebKit.WebKit2.IPC

structure MessageDecoder where
  messageReceiverName : String
  messageName : String
  destinationID : UInt64
  isSyncMessage : Bool
  shouldDispatchMessageWhenWaitingForSyncReply : Bool
  arguments : List UInt8
  deriving DecidableEq

structure WaitForMessageState where
  messageReceiverName : String
  messageName : String
  destinationID : UInt64
  interruptWaitingIfSyncMessageArrives : Bool
  messageWaitingInterrupted : Bool
  decoder : Option MessageDecoder
  deriving DecidableEq

/-- The message that is waited for. -/
def WaitForMessageState.isFor (w : WaitForMessageState) (m : MessageDecoder) : Bool :=
  w.messageReceiverName = m.messageReceiverName && w.messageName = m.messageName && w.destinationID = m.destinationID

structure PendingSyncReply where
  syncRequestID : UInt64
  replyDecoder : Option MessageDecoder
  didReceiveReply : Bool
  deriving DecidableEq

/-- Where the client thread is. -/
inductive ClientPoint
  /-- In a handler or in the run loop. -/
  | handling
  /-- Before `dispatchMessages` takes the messages, called for a request or by the run loop. -/
  | entering (syncRequestID : Option UInt64)
  /-- At the semaphore. -/
  | waiting (syncRequestID : UInt64)
  /-- Before `sendSyncMessage` pops the request. -/
  | returning (syncRequestID : UInt64) (reply : Option MessageDecoder)
  /-- In `waitForMessage`, behind the search of the queue. -/
  | registering (wait : WaitForMessageState)
  | looping
  /-- At the condition. -/
  | blocked
  /-- Behind the loop, where `m_waitForMessageMutex` is not held. -/
  | leaving
  deriving DecidableEq

/-- A call of `dispatchMessages` that has taken messages: what it is called for and what is left to dispatch. -/
structure Call where
  syncRequestID : Option UInt64
  messages : List MessageDecoder
  deriving DecidableEq

/-- Where the connection queue is. -/
inductive QueuePoint
  | idle
  | enqueuing (m : MessageDecoder)
  | scheduling
  | wakingUp
  | closing
  deriving DecidableEq

structure Connection where
  isValid : Bool
  incomingMessages : List MessageDecoder
  /-- The calls of `dispatchOneMessage` in the run loop. -/
  scheduledCalls : Nat
  waitingForMessage : Option WaitForMessageState
  syncRequestID : UInt64
  /-- Innermost first. -/
  pendingSyncReplies : List PendingSyncReply
  shouldWaitForSyncReplies : Bool
  messagesToDispatchWhileWaitingForSyncReply : List MessageDecoder
  didScheduleDispatchMessages : Bool
  waitForSyncReplySemaphore : Bool
  client : ClientPoint
  /-- Innermost first. -/
  calls : List Call
  queue : QueuePoint
  arrived : List MessageDecoder
  /-- By `dispatchOneMessage`. -/
  dispatched : List MessageDecoder
  /-- By `dispatchMessages`. -/
  dispatchedWhileWaiting : List MessageDecoder
  /-- By `waitForMessage`, with what was waited for. -/
  waitedFor : List (WaitForMessageState × MessageDecoder)
  /-- By `sendSyncMessage`, with the identifier of the request. -/
  replies : List (UInt64 × Option MessageDecoder)
  dropped : List MessageDecoder
  deriving DecidableEq

/-- What a thread does next. -/
inductive ConnectionOp
  | processIncomingMessage (m : MessageDecoder)
  | enqueueIncomingMessage
  | scheduleDispatchOneMessage
  | wakeUpClientRunLoop
  | connectionDidClose
  | interruptWaiting
  | invalidate
  | dispatchOneMessage
  | dispatchMessages
  | takeMessages
  | dispatchNextMessage
  | checkForReply
  | sendSyncMessage
  | wakeUp (timedOut : Bool)
  | popPendingSyncReply
  | waitForMessage (wait : WaitForMessageState)
  | registerWait
  | checkForMessage
  | wakeUpFromCondition (timedOut : Bool)
  | stopWaiting
  deriving DecidableEq

namespace Connection

def init : Connection :=
  ⟨true, [], 0, none, 0, [], true, [], false, false, .handling, [], .idle, [], [], [], [], [], []⟩

/-! ## The connection queue -/

/-- The reply goes to the innermost request with its identifier. -/
def processIncomingSyncReply (c : Connection) (m : MessageDecoder) : Connection :=
  match c.pendingSyncReplies.span fun p => p.syncRequestID ≠ m.destinationID with
  | (inner, p :: outer) =>
    { c with
      pendingSyncReplies := inner ++ ⟨p.syncRequestID, some m, true⟩ :: outer
      waitForSyncReplySemaphore := c.waitForSyncReplySemaphore || inner.isEmpty
      dropped := c.dropped ++ p.replyDecoder.toList }
  | (_, []) => { c with dropped := c.dropped ++ [m] }

/-- `processIncomingMessage` up to `enqueueIncomingMessage` or `wakeUpClientRunLoop`. -/
def processIncomingMessage (c : Connection) (m : MessageDecoder) : Connection :=
  let c := { c with arrived := c.arrived ++ [m] }
  if m.messageReceiverName = "IPC" ∧ m.messageName = "SyncMessageReply" then c.processIncomingSyncReply m
  else if m.shouldDispatchMessageWhenWaitingForSyncReply then
    { c with
      didScheduleDispatchMessages := true
      messagesToDispatchWhileWaitingForSyncReply := c.messagesToDispatchWhileWaitingForSyncReply ++ [m]
      queue := .wakingUp }
  else
    match c.waitingForMessage with
    | some w =>
      if w.isFor m then
        { c with waitingForMessage := some { w with decoder := some m }, dropped := c.dropped ++ w.decoder.toList }
      else
        { c with
          waitingForMessage := some { w with messageWaitingInterrupted := w.messageWaitingInterrupted ||
            (w.interruptWaitingIfSyncMessageArrives && m.isSyncMessage) }
          queue := .enqueuing m }
    | none => { c with queue := .enqueuing m }

/-! ## The client thread -/

/-- `dispatchMessage` drops the message if there is no client. -/
def dispatchOneMessage (c : Connection) : Connection :=
  match c.incomingMessages with
  | [] => c
  | m :: rest =>
    let c := { c with incomingMessages := rest }
    if c.isValid then { c with dispatched := c.dispatched ++ [m] } else { c with dropped := c.dropped ++ [m] }

/-- What `sendSyncMessage` waits for is pushed, unless it fails. -/
def sendSyncMessage (c : Connection) : Connection :=
  let syncRequestID := c.syncRequestID + 1
  let c := { c with syncRequestID := syncRequestID }
  if c.isValid && c.shouldWaitForSyncReplies then
    { c with
      pendingSyncReplies := ⟨syncRequestID, none, false⟩ :: c.pendingSyncReplies
      client := .entering (some syncRequestID) }
  else { c with replies := c.replies ++ [(syncRequestID, none)] }

/-- `waitForMessage` up to the end of the search of the queue. -/
def waitForMessage (c : Connection) (wait : WaitForMessageState) : Connection :=
  match c.incomingMessages.find? wait.isFor with
  | some m =>
    { c with incomingMessages := c.incomingMessages.eraseP wait.isFor, waitedFor := c.waitedFor ++ [(wait, m)] }
  | none => { c with client := .registering wait }

/-- What `waitForSyncReply` does behind `dispatchMessages`. -/
def checkForReply (c : Connection) : Option Connection :=
  match c.pendingSyncReplies with
  | [] => none
  | p :: rest =>
    if p.didReceiveReply || !c.shouldWaitForSyncReplies then
      some { c with
        pendingSyncReplies := { p with replyDecoder := none } :: rest
        client := .returning p.syncRequestID p.replyDecoder }
    else some { c with client := if c.isValid then .waiting p.syncRequestID else .returning p.syncRequestID none }

/-- A step; `none` where the thread is not at the operation or an assertion fails. -/
def step (c : Connection) : ConnectionOp → Option Connection
  | .processIncomingMessage m => if c.queue = .idle then some (c.processIncomingMessage m) else none
  | .enqueueIncomingMessage =>
    match c.queue with
    | .enqueuing m => some { c with incomingMessages := c.incomingMessages ++ [m], queue := .scheduling }
    | _ => none
  | .scheduleDispatchOneMessage =>
    if c.queue = .scheduling then some { c with scheduledCalls := c.scheduledCalls + 1, queue := .idle } else none
  | .wakeUpClientRunLoop =>
    if c.queue = .wakingUp then some { c with waitForSyncReplySemaphore := true, queue := .idle } else none
  | .connectionDidClose =>
    if c.queue = .idle ∧ c.shouldWaitForSyncReplies then
      some { c with
        shouldWaitForSyncReplies := false
        waitForSyncReplySemaphore := c.waitForSyncReplySemaphore || !c.pendingSyncReplies.isEmpty
        queue := .closing }
    else none
  | .interruptWaiting =>
    if c.queue = .closing then
      some { c with
        waitingForMessage := c.waitingForMessage.map fun w => { w with messageWaitingInterrupted := true }
        queue := .idle }
    else none
  | .invalidate => if c.client = .handling then some { c with isValid := false } else none
  | .dispatchOneMessage =>
    if c.client = .handling ∧ 0 < c.scheduledCalls then
      some { c with scheduledCalls := c.scheduledCalls - 1 }.dispatchOneMessage
    else none
  | .dispatchMessages =>
    if c.client = .handling ∧ c.didScheduleDispatchMessages then
      some { c with didScheduleDispatchMessages := false, client := .entering none }
    else none
  | .takeMessages =>
    match c.client with
    | .entering syncRequestID =>
      some { c with
        messagesToDispatchWhileWaitingForSyncReply := []
        client := .handling
        calls := ⟨syncRequestID, c.messagesToDispatchWhileWaitingForSyncReply⟩ :: c.calls }
    | _ => none
  | .dispatchNextMessage =>
    match c.client, c.calls with
    | .handling, ⟨syncRequestID, m :: messages⟩ :: calls =>
      let c := { c with calls := ⟨syncRequestID, messages⟩ :: calls }
      some (if c.isValid then { c with dispatchedWhileWaiting := c.dispatchedWhileWaiting ++ [m] }
        else { c with dropped := c.dropped ++ [m] })
    | _, _ => none
  | .checkForReply =>
    match c.client, c.calls with
    | .handling, ⟨none, []⟩ :: calls => some { c with calls := calls }
    | .handling, ⟨some _, []⟩ :: calls => { c with calls := calls }.checkForReply
    | _, _ => none
  | .sendSyncMessage => if c.client = .handling then some c.sendSyncMessage else none
  | .wakeUp timedOut =>
    match c.client with
    | .waiting syncRequestID =>
      if timedOut then some { c with client := .returning syncRequestID none }
      else if c.waitForSyncReplySemaphore then
        some { c with waitForSyncReplySemaphore := false, client := .entering (some syncRequestID) }
      else none
    | _ => none
  | .popPendingSyncReply =>
    match c.client, c.pendingSyncReplies with
    | .returning syncRequestID reply, p :: pendingSyncReplies =>
      if p.syncRequestID = syncRequestID then
        some { c with
          pendingSyncReplies := pendingSyncReplies
          client := .handling
          replies := c.replies ++ [(syncRequestID, reply)]
          dropped := c.dropped ++ p.replyDecoder.toList }
      else none
    | _, _ => none
  | .waitForMessage wait => if c.client = .handling then some (c.waitForMessage wait) else none
  | .registerWait =>
    match c.client, c.waitingForMessage with
    | .registering wait, none =>
      some { c with
        waitingForMessage := some { wait with messageWaitingInterrupted := false, decoder := none }
        client := .looping }
    | _, _ => none
  | .checkForMessage =>
    match c.client, c.waitingForMessage with
    | .looping, some wait =>
      match wait.decoder with
      | some m => some { c with waitingForMessage := none, client := .handling, waitedFor := c.waitedFor ++ [(wait, m)] }
      | none => some { c with client := .blocked }
    | _, _ => none
  | .wakeUpFromCondition timedOut =>
    match c.client, c.waitingForMessage with
    | .blocked, some wait =>
      some { c with client := if timedOut || wait.messageWaitingInterrupted then .leaving else .looping }
    | _, _ => none
  | .stopWaiting =>
    match c.client, c.waitingForMessage with
    | .leaving, some wait =>
      some { c with waitingForMessage := none, client := .handling, dropped := c.dropped ++ wait.decoder.toList }
    | _, _ => none

end Connection

end WebKit.WebKit2.IPC
