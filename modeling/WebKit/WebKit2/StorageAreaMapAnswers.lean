import WebKit.WebKit2.StorageAreaMapInv

/-!
# Answers to the changes of a process

A process sends its changes with its seed and counts the keys whose changes are to be answered. A clear or a reset drops
the count as a whole while answers to older changes are still on the way; the seed and `m_hasPendingClear` tell them
apart. `AwaitsInv` relates a map to the list of what it awaits answers to, oldest first: of what has the current seed, the
pending clear comes first and the pending keys are those of the writes behind it.

`Client` is a map with its unanswered requests, whatever the storage area answers (`answers_match`). In `LocalStorage` the
answers come in the order of the requests, and the same holds of every process (`local_storage_answers_match`).
-/

namespace WebKit.WebKit2

open WTF WebCore Transition

/-- What an answer is an answer to. -/
inductive Awaited
  | values
  | write (key : WTFString)
  | clear
  deriving DecidableEq

/-- The key of a `setItem` or `removeItem`. -/
def Awaited.key? : Awaited → Option WTFString
  | .write key => some key
  | _ => none

def Request.awaits : Request → Nat × Awaited
  | .getValues storageMapSeed => (storageMapSeed, .values)
  | .setItem _ storageMapSeed key _ => (storageMapSeed, .write key)
  | .removeItem _ storageMapSeed key => (storageMapSeed, .write key)
  | .clear _ storageMapSeed => (storageMapSeed, .clear)

def Message.answers : Message → Option (Nat × Awaited)
  | .didGetValues storageMapSeed => some (storageMapSeed, .values)
  | .didSetItem storageMapSeed key _ => some (storageMapSeed, .write key)
  | .didRemoveItem storageMapSeed key => some (storageMapSeed, .write key)
  | .didClear storageMapSeed => some (storageMapSeed, .clear)
  | .dispatchStorageEvent .. => none
  | .clearCache => none

/-- What is awaited with a given seed. -/
def awaitedWith (seed : Nat) (awaited : List (Nat × Awaited)) : List Awaited :=
  (awaited.filter fun e => e.1 = seed).map Prod.snd

/-- The keys of the writes with a given seed that follow the last clear with that seed. -/
def keysSinceClear (seed : Nat) (awaited : List (Nat × Awaited)) : List WTFString :=
  ((awaitedWith seed awaited).reverse.takeWhile fun e => e ≠ .clear).filterMap Awaited.key?

namespace StorageAreaMap

/-- What the handler of an answer asserts. -/
def Expects (a : StorageAreaMap) : Message → Prop
  | .didSetItem storageMapSeed key _ => storageMapSeed = a.currentSeed → key ∈ a.pendingValueChanges
  | .didRemoveItem storageMapSeed key => storageMapSeed = a.currentSeed → key ∈ a.pendingValueChanges
  | .didClear storageMapSeed => storageMapSeed = a.currentSeed → a.hasPendingClear = true
  | _ => True

/-- The clear that is to be answered. -/
def pendingClear (a : StorageAreaMap) : List Awaited := if a.hasPendingClear then [.clear] else []

/-- What a map awaits, oldest first. -/
structure AwaitsInv (a : StorageAreaMap) (awaited : List (Nat × Awaited)) : Prop where
  seed_le : ∀ e ∈ awaited, e.1 ≤ a.currentSeed
  current : ∃ rest, awaitedWith a.currentSeed awaited = a.pendingClear ++ rest ∧ .clear ∉ rest ∧
    a.pendingValueChanges.Perm (rest.filterMap Awaited.key?)

variable {a a' : StorageAreaMap} {awaited : List (Nat × Awaited)} {m : StorageMap} {message : Message} {key : WTFString}

/-! ## What the invariant says -/

theorem AwaitsInv.pending_perm (h : a.AwaitsInv awaited) :
    a.pendingValueChanges.Perm (keysSinceClear a.currentSeed awaited) := by
  obtain ⟨rest, hcurrent, hclear, hperm⟩ := h.current
  have hall : ∀ e ∈ rest.reverse, (decide (e ≠ Awaited.clear)) = true := by
    intro e he
    exact decide_eq_true fun h => hclear (h ▸ List.mem_reverse.1 he)
  have htake : ((a.pendingClear ++ rest).reverse.takeWhile fun e => decide (e ≠ Awaited.clear)) = rest.reverse := by
    rw [List.reverse_append, List.takeWhile_append_of_pos hall]
    unfold pendingClear
    split <;> simp
  unfold keysSinceClear
  rw [hcurrent, htake]
  exact hperm.trans ((List.reverse_perm rest).symm.filterMap _)

theorem AwaitsInv.head {e : Awaited} (h : a.AwaitsInv ((a.currentSeed, e) :: awaited)) :
    (e = .clear → a.hasPendingClear = true) ∧ ∀ key, e = .write key → key ∈ a.pendingValueChanges := by
  obtain ⟨rest, hcurrent, hclear, hperm⟩ := h.current
  have hcons : awaitedWith a.currentSeed ((a.currentSeed, e) :: awaited) = e :: awaitedWith a.currentSeed awaited := by
    simp [awaitedWith]
  rw [hcons] at hcurrent
  unfold pendingClear at hcurrent
  split at hcurrent
  · rename_i hpending
    refine ⟨fun _ => hpending, fun key hkey => ?_⟩
    cases hcurrent
    cases hkey
  · have hmem : e ∈ rest := by
      rw [← List.nil_append rest, ← hcurrent]
      exact List.mem_cons_self ..
    exact ⟨fun he => absurd (he ▸ hmem) hclear,
      fun key hkey => hperm.mem_iff.2 (List.mem_filterMap.2 ⟨e, hmem, by rw [hkey]; rfl⟩)⟩

/-- **The oldest answer finds what its handler asserts.** -/
theorem AwaitsInv.expects {e : Nat × Awaited} (h : a.AwaitsInv (e :: awaited)) (hanswers : message.answers = some e) :
    a.Expects message := by
  cases message with
  | didSetItem =>
    cases hanswers
    rintro rfl
    exact h.head.2 _ rfl
  | didRemoveItem =>
    cases hanswers
    rintro rfl
    exact h.head.2 _ rfl
  | didClear =>
    cases hanswers
    rintro rfl
    exact h.head.1 rfl
  | didGetValues => trivial
  | dispatchStorageEvent => trivial
  | clearCache => trivial

/-! ## Steps that keep it -/

theorem awaitsInv_create {quota : UInt32} : (create quota).AwaitsInv [] :=
  ⟨fun _ he => absurd he List.not_mem_nil, [], rfl, List.not_mem_nil, .refl _⟩

/-- The values of a map play no part. -/
theorem AwaitsInv.congr (h : a.AwaitsInv awaited) (hseed : a'.currentSeed = a.currentSeed)
    (hclear : a'.hasPendingClear = a.hasPendingClear) (hpending : a'.pendingValueChanges = a.pendingValueChanges) :
    a'.AwaitsInv awaited := by
  obtain ⟨hle, rest, hcurrent, hrest, hperm⟩ := h
  refine ⟨hseed ▸ hle, rest, ?_, hrest, hpending ▸ hperm⟩
  rw [hseed, hcurrent, pendingClear, pendingClear, hclear]

theorem awaitedWith_of_lt {seed : Nat} (h : ∀ e ∈ awaited, e.1 < seed) : awaitedWith seed awaited = [] := by
  unfold awaitedWith
  rw [List.filter_eq_nil_iff.2 fun e he => by simpa using Nat.ne_of_lt (h e he), List.map_nil]

/-- A reset leaves the answers on the way with old seeds. -/
theorem AwaitsInv.resetValues (h : a.AwaitsInv awaited) : a.resetValues.AwaitsInv awaited := by
  have hlt : ∀ e ∈ awaited, e.1 < a.currentSeed + 1 := fun e he => Nat.lt_succ_of_le (h.seed_le e he)
  exact ⟨fun e he => Nat.le_of_lt (hlt e he), [], awaitedWith_of_lt hlt, List.not_mem_nil, .refl _⟩

theorem awaitedWith_append {seed : Nat} {e : Awaited} :
    awaitedWith seed (awaited ++ [(seed, e)]) = awaitedWith seed awaited ++ [e] := by
  simp [awaitedWith]

theorem AwaitsInv.seed_le_append {e : Awaited} (h : a.AwaitsInv awaited) :
    ∀ f ∈ awaited ++ [(a.currentSeed, e)], f.1 ≤ a.currentSeed := by
  intro f hf
  obtain hf | hf := List.mem_append.1 hf
  · exact h.seed_le f hf
  · rw [List.mem_singleton.1 hf]

theorem AwaitsInv.write (h : a.AwaitsInv awaited) (map : Option StorageMap) :
    AwaitsInv { a with storageMap := map, pendingValueChanges := key :: a.pendingValueChanges }
      (awaited ++ [(a.currentSeed, .write key)]) := by
  obtain ⟨rest, hcurrent, hrest, hperm⟩ := h.current
  refine ⟨h.seed_le_append, rest ++ [.write key], ?_, ?_, ?_⟩
  · rw [awaitedWith_append, hcurrent, List.append_assoc]
    rfl
  · simp [hrest]
  · rw [List.filterMap_append]
    exact (hperm.cons key).trans (List.perm_append_singleton key _).symm

theorem AwaitsInv.values (h : a.AwaitsInv awaited) : a.AwaitsInv (awaited ++ [(a.currentSeed, .values)]) := by
  obtain ⟨rest, hcurrent, hrest, hperm⟩ := h.current
  refine ⟨h.seed_le_append, rest ++ [.values], ?_, ?_, ?_⟩
  · rw [awaitedWith_append, hcurrent, List.append_assoc]
  · simp [hrest]
  · rw [List.filterMap_append]
    exact hperm.trans (List.append_nil _ ▸ .refl _)

/-- A call that sends nothing. -/
theorem AwaitsInv.unsent (h : a.AwaitsInv awaited) (map : Option StorageMap) :
    AwaitsInv { a with storageMap := map } (awaited ++ []) := by
  rw [List.append_nil]
  exact h.congr rfl rfl rfl

theorem AwaitsInv.setItem {area : Nat} {value : WTFString} (h : a.AwaitsInv awaited) :
    (a.setItem m area key value).1.AwaitsInv
      (awaited ++ ((a.setItem m area key value).2.map Request.awaits).toList) := by
  unfold StorageAreaMap.setItem
  simp only
  split
  · exact h.unsent _
  · split
    · exact h.unsent _
    · exact h.write _

theorem AwaitsInv.removeItem {area : Nat} (h : a.AwaitsInv awaited) :
    (a.removeItem m area key).1.AwaitsInv
      (awaited ++ ((a.removeItem m area key).2.map Request.awaits).toList) := by
  unfold StorageAreaMap.removeItem
  simp only
  split
  · exact h.unsent _
  · exact h.write _

theorem AwaitsInv.clear {area : Nat} (h : a.AwaitsInv awaited) :
    (a.clear area).1.AwaitsInv (awaited ++ [(a.clear area).2.awaits]) := by
  have hreset := h.resetValues
  have hlt : ∀ e ∈ awaited, e.1 < a.resetValues.currentSeed := fun e he => Nat.lt_succ_of_le (h.seed_le e he)
  refine ⟨hreset.seed_le_append, [], ?_, List.not_mem_nil, .refl _⟩
  change awaitedWith a.resetValues.currentSeed (awaited ++ [(a.resetValues.currentSeed, .clear)]) = _
  rw [awaitedWith_append, awaitedWith_of_lt hlt]
  rfl

theorem AwaitsInv.didLoadValues {values : List (WTFString × MaybeString)} (h : a.AwaitsInv awaited) :
    (a.didLoadValues values).AwaitsInv awaited := h.congr rfl rfl rfl

/-! ## Messages that keep it -/

theorem awaitedWith_cons_self {seed : Nat} {e : Awaited} :
    awaitedWith seed ((seed, e) :: awaited) = e :: awaitedWith seed awaited := by simp [awaitedWith]

theorem AwaitsInv.seed_le_tail {e : Nat × Awaited} (h : a.AwaitsInv (e :: awaited)) :
    ∀ f ∈ awaited, f.1 ≤ a.currentSeed := fun f hf => h.seed_le f (List.mem_cons_of_mem _ hf)

theorem AwaitsInv.ignored {e : Nat × Awaited} (h : a.AwaitsInv (e :: awaited)) (hne : a.currentSeed ≠ e.1) :
    a.AwaitsInv awaited := by
  obtain ⟨rest, hcurrent, hrest⟩ := h.current
  refine ⟨h.seed_le_tail, rest, ?_, hrest⟩
  rw [← hcurrent]
  simp [awaitedWith, Ne.symm hne]

theorem AwaitsInv.tail_values (h : a.AwaitsInv ((a.currentSeed, .values) :: awaited)) : a.AwaitsInv awaited := by
  obtain ⟨rest, hcurrent, hrest, hperm⟩ := h.current
  rw [awaitedWith_cons_self] at hcurrent
  unfold pendingClear at hcurrent
  split at hcurrent
  · cases hcurrent
  · rename_i hpending
    subst hcurrent
    refine ⟨h.seed_le_tail, awaitedWith a.currentSeed awaited, ?_, fun hmem => hrest (List.mem_cons_of_mem _ hmem), hperm⟩
    rw [pendingClear, if_neg hpending, List.nil_append]

theorem AwaitsInv.tail_write (h : a.AwaitsInv ((a.currentSeed, .write key) :: awaited)) :
    AwaitsInv { a with pendingValueChanges := a.pendingValueChanges.erase key } awaited := by
  obtain ⟨rest, hcurrent, hrest, hperm⟩ := h.current
  rw [awaitedWith_cons_self] at hcurrent
  unfold pendingClear at hcurrent
  split at hcurrent
  · cases hcurrent
  · rename_i hpending
    subst hcurrent
    refine ⟨h.seed_le_tail, awaitedWith a.currentSeed awaited, ?_, fun hmem => hrest (List.mem_cons_of_mem _ hmem), ?_⟩
    · rw [pendingClear, if_neg hpending, List.nil_append]
    · have hkeys : (Awaited.write key :: awaitedWith a.currentSeed awaited).filterMap Awaited.key? =
          key :: (awaitedWith a.currentSeed awaited).filterMap Awaited.key? := rfl
      have herase := hperm.erase key
      rwa [hkeys, List.erase_cons_head] at herase

theorem AwaitsInv.tail_clear (h : a.AwaitsInv ((a.currentSeed, .clear) :: awaited)) :
    AwaitsInv { a with hasPendingClear := false } awaited := by
  obtain ⟨rest, hcurrent, hrest⟩ := h.current
  rw [awaitedWith_cons_self, pendingClear, if_pos (h.head.1 rfl)] at hcurrent
  exact ⟨h.seed_le_tail, rest, (List.cons.inj hcurrent).2, hrest⟩

theorem AwaitsInv.didGetValues {seed : Nat} (h : a.AwaitsInv ((seed, .values) :: awaited)) :
    (a.didGetValues seed).AwaitsInv awaited := by
  unfold StorageAreaMap.didGetValues
  split
  · rename_i hne
    exact h.ignored hne
  · rename_i heq
    rw [← Decidable.not_not.1 heq] at h
    exact h.tail_values.congr rfl rfl rfl

theorem AwaitsInv.didSetItem {seed : Nat} {quotaError : Bool} (h : a.AwaitsInv ((seed, .write key) :: awaited)) :
    (a.didSetItem seed key quotaError).AwaitsInv awaited := by
  unfold StorageAreaMap.didSetItem
  split
  · rename_i hne
    exact h.ignored hne
  · rename_i heq
    rw [← Decidable.not_not.1 heq] at h
    split
    · exact h.tail_write.resetValues.congr rfl rfl rfl
    · exact h.tail_write

theorem AwaitsInv.didRemoveItem {seed : Nat} (h : a.AwaitsInv ((seed, .write key) :: awaited)) :
    (a.didRemoveItem seed key).AwaitsInv awaited := by
  unfold StorageAreaMap.didRemoveItem
  split
  · rename_i hne
    exact h.ignored hne
  · rename_i heq
    rw [← Decidable.not_not.1 heq] at h
    exact h.tail_write

theorem AwaitsInv.didClear {seed : Nat} (h : a.AwaitsInv ((seed, .clear) :: awaited)) :
    (a.didClear seed).AwaitsInv awaited := by
  unfold StorageAreaMap.didClear
  split
  · rename_i hne
    exact h.ignored hne
  · rename_i heq
    rw [← Decidable.not_not.1 heq] at h
    exact h.tail_clear

theorem AwaitsInv.dispatchStorageEvent {source : Nat} {key newValue : MaybeString} (h : a.AwaitsInv awaited) :
    (a.dispatchStorageEvent source key newValue).AwaitsInv awaited := by
  unfold StorageAreaMap.dispatchStorageEvent
  split
  · obtain ⟨map, hmap⟩ := applyChange_eq a key newValue
    rw [hmap]
    exact h.congr rfl rfl rfl
  · exact h

/-- **A message** that is the oldest answer, or no answer, keeps the invariant. -/
theorem AwaitsInv.didReceiveMessage (h : a.AwaitsInv (message.answers.toList ++ awaited)) :
    (a.didReceiveMessage message).AwaitsInv awaited := by
  cases message with
  | didGetValues => exact AwaitsInv.didGetValues h
  | didSetItem => exact AwaitsInv.didSetItem h
  | didRemoveItem => exact AwaitsInv.didRemoveItem h
  | didClear => exact AwaitsInv.didClear h
  | dispatchStorageEvent => exact AwaitsInv.dispatchStorageEvent h
  | clearCache => exact AwaitsInv.resetValues h

end StorageAreaMap

/-! ## One map, whatever is answered -/

/-- A map and its requests that are not answered, oldest first. -/
structure Client where
  map : StorageAreaMap
  unanswered : List Request
  deriving DecidableEq

/-- A call on the map, or a message to it. -/
inductive ClientOp
  /-- `loadValuesIfNeeded`, with the values of the reply. -/
  | loadValues (values : List (WTFString × MaybeString))
  | setItem (area : Nat) (key value : WTFString)
  | removeItem (area : Nat) (key : WTFString)
  | clear (area : Nat)
  /-- The answer to the oldest request comes, with a quota error if that is a `setItem` that failed. -/
  | answer (quotaError : Bool)
  | event (source : Nat) (key newValue : MaybeString)
  | clearCache

def Request.answer (quotaError : Bool) : Request → Message
  | .getValues storageMapSeed => .didGetValues storageMapSeed
  | .setItem _ storageMapSeed key _ => .didSetItem storageMapSeed key quotaError
  | .removeItem _ storageMapSeed key => .didRemoveItem storageMapSeed key
  | .clear _ storageMapSeed => .didClear storageMapSeed

theorem Request.answers_answer (r : Request) (quotaError : Bool) : (r.answer quotaError).answers = some r.awaits := by
  cases r <;> rfl

namespace Client

def create (quotaInBytes : UInt32) : Client := ⟨.create quotaInBytes, []⟩

def send (c : Client) (result : StorageAreaMap × Option Request) : Client :=
  ⟨result.1, c.unanswered ++ result.2.toList⟩

def step (c : Client) : ClientOp → Option Client
  | .loadValues values =>
    if c.map.storageMap = none then
      some ⟨c.map.didLoadValues values, c.unanswered ++ [.getValues c.map.currentSeed]⟩
    else none
  | .setItem area key value => c.map.storageMap.map fun m => c.send (c.map.setItem m area key value)
  | .removeItem area key => c.map.storageMap.map fun m => c.send (c.map.removeItem m area key)
  | .clear area =>
    let (map, request) := c.map.clear area
    some (c.send (map, some request))
  | .answer quotaError =>
    match c.unanswered with
    | [] => none
    | r :: rest => some ⟨c.map.didReceiveMessage (r.answer quotaError), rest⟩
  | .event source key newValue => some { c with map := c.map.didReceiveMessage (.dispatchStorageEvent source key newValue) }
  | .clearCache => some { c with map := c.map.didReceiveMessage .clearCache }

def awaited (c : Client) : List (Nat × Awaited) := c.unanswered.map Request.awaits

variable {c c' : Client} {op : ClientOp}

theorem awaited_send (result : StorageAreaMap × Option Request) :
    (c.send result).awaited = c.awaited ++ (result.2.map Request.awaits).toList := by
  unfold awaited send
  rw [List.map_append]
  cases result.2 <;> rfl

/-- The map awaits what it counts. -/
def AwaitsInv (c : Client) : Prop := c.map.AwaitsInv c.awaited

/-- **One step** keeps the invariant. -/
theorem step_awaitsInv (h : c.AwaitsInv) (hs : c.step op = some c') : c'.AwaitsInv := by
  unfold AwaitsInv at h ⊢
  cases op with
  | loadValues values =>
    unfold step at hs
    obtain ⟨-, hs⟩ := Option.ite_none_right_eq_some.1 hs
    cases hs
    unfold awaited
    rw [List.map_append]
    exact h.values.didLoadValues
  | setItem area key value =>
    obtain ⟨m, -, rfl⟩ := Option.map_eq_some_iff.1 hs
    rw [awaited_send]
    exact h.setItem
  | removeItem area key =>
    obtain ⟨m, -, rfl⟩ := Option.map_eq_some_iff.1 hs
    rw [awaited_send]
    exact h.removeItem
  | clear area =>
    cases hs
    rw [awaited_send]
    exact h.clear
  | answer quotaError =>
    unfold step at hs
    simp only at hs
    split at hs
    · cases hs
    · rename_i r rest hr
      cases hs
      unfold awaited at h
      rw [hr] at h
      refine StorageAreaMap.AwaitsInv.didReceiveMessage ?_
      rw [r.answers_answer]
      exact h
  | event source key newValue =>
    cases hs
    exact h.dispatchStorageEvent
  | clearCache =>
    cases hs
    exact h.resetValues

/-- The pending keys are those of the unanswered writes with the current seed behind the last clear, and the next answer
finds what its handler asserts. -/
structure AnswersMatch (c : Client) : Prop where
  pending : c.map.pendingValueChanges.Perm (keysSinceClear c.map.currentSeed c.awaited)
  next : ∀ r rest quotaError, c.unanswered = r :: rest → c.map.Expects (r.answer quotaError)

theorem answersMatch_of_awaitsInv (h : c.AwaitsInv) : c.AnswersMatch := by
  refine ⟨h.pending_perm, fun r rest quotaError hr => ?_⟩
  unfold AwaitsInv awaited at h
  rw [hr] at h
  exact h.expects (r.answers_answer quotaError)

/-- **Answers match**: in every run, whatever is answered. -/
theorem answers_match {quota : UInt32} {ops : List ClientOp} (h : Run (Via step) (create quota) ops c) :
    c.AnswersMatch := by
  have hstep : ∀ c op c', AwaitsInv c → Via step c op c' → AwaitsInv c' := fun _ _ _ => step_awaitsInv
  exact answersMatch_of_awaitsInv (h.invariant hstep StorageAreaMap.awaitsInv_create)

/-- Two clears that overlap, with a write in front of each and one behind. -/
def clearsOps : List ClientOp :=
  [.loadValues [], .setItem 1 ⟨[97], by decide⟩ ⟨[97], by decide⟩, .clear 1,
    .setItem 1 ⟨[97], by decide⟩ ⟨[97], by decide⟩, .clear 1, .setItem 1 ⟨[98], by decide⟩ ⟨[97], by decide⟩,
    .answer false, .answer false, .answer false, .answer false]

theorem answers_match_clears : ∃ c, Run (Via step) (create 100) clearsOps c ∧ c.AnswersMatch :=
  have h : runFn step (create 100) clearsOps = some _ := rfl
  ⟨_, run_of_runFn h, answers_match (run_of_runFn h)⟩

end Client

/-! ## Every process -/

namespace WebProcess

/-- What the map of a process awaits: the answers on the way to it, and those to the requests that are not handled. -/
def awaited (p : WebProcess) : List (Nat × Awaited) := p.toMap.filterMap Message.answers ++ p.toManager.map Request.awaits

variable {p p' : WebProcess} {r : Request} {rest : List Request}

theorem awaited_send (result : StorageAreaMap × Option Request) :
    (p.send result).awaited = p.awaited ++ (result.2.map Request.awaits).toList := by
  unfold awaited send
  simp only
  rw [List.map_append, ← List.append_assoc]
  cases result.2 <;> rfl

theorem filterMap_events {handled : Handled} {isSource : Bool} :
    (handled.events isSource).filterMap Message.answers = [] := by
  unfold Handled.events
  cases handled.event <;> rfl

theorem answers_didReceiveMessage (area : StorageArea) (r : Request) :
    (area.didReceiveMessage r).answer.answers = some r.awaits := by
  cases r <;> rfl

theorem awaited_didHandle_source {area : StorageArea} (hp : p.toManager = r :: rest) :
    (p.didHandle true (area.didReceiveMessage r)).awaited = p.awaited := by
  unfold awaited didHandle
  rw [if_pos rfl, hp]
  simp [filterMap_events, answers_didReceiveMessage]

theorem awaited_didHandle_other {handled : Handled} : (p.didHandle false handled).awaited = p.awaited := by
  unfold awaited didHandle
  rw [if_neg Bool.false_ne_true]
  simp [filterMap_events]

theorem map_didHandle {handled : Handled} {isSource : Bool} : (p.didHandle isSource handled).map = p.map := by
  unfold didHandle
  split <;> rfl

theorem loadValues_awaitsInv (h : p.map.AwaitsInv p.awaited) (hs : p.loadValues = some p') :
    p'.map.AwaitsInv p'.awaited := by
  unfold loadValues at hs
  obtain ⟨-, hs⟩ := Option.ite_none_right_eq_some.1 hs
  cases hs
  unfold awaited
  rw [List.map_append, ← List.append_assoc]
  exact h.values

theorem didLoadValues_awaitsInv {values : List (WTFString × MaybeString)} (h : p.map.AwaitsInv p.awaited)
    (hs : p.didLoadValues values = some p') : p'.map.AwaitsInv p'.awaited := by
  unfold didLoadValues at hs
  split at hs
  · obtain ⟨-, hs⟩ := Option.ite_none_right_eq_some.1 hs
    cases hs
    exact h.didLoadValues
  · cases hs

theorem deliver_awaitsInv (h : p.map.AwaitsInv p.awaited) (hs : p.deliver = some p') : p'.map.AwaitsInv p'.awaited := by
  unfold deliver at hs
  split at hs
  · cases hs
  · rename_i message messages hmessages
    cases hs
    refine StorageAreaMap.AwaitsInv.didReceiveMessage ?_
    unfold awaited at h ⊢
    rw [hmessages, List.filterMap_cons] at h
    cases hanswers : message.answers with
    | none =>
      rw [hanswers] at h
      exact h
    | some e =>
      rw [hanswers] at h
      exact h

end WebProcess

namespace LocalStorage

variable {s t : LocalStorage} {op : LocalStorageOp}

/-- Every process awaits what it counts. -/
def AwaitsInv (s : LocalStorage) : Prop := ∀ p ∈ s.processes, p.map.AwaitsInv p.awaited

theorem AwaitsInv.set {i : Nat} {p : WebProcess} (h : s.AwaitsInv) (hp : p.map.AwaitsInv p.awaited) :
    AwaitsInv { s with processes := s.processes.set i p } := by
  intro q hq
  obtain hq | rfl := List.mem_or_eq_of_mem_set hq
  · exact h q hq
  · exact hp

theorem inProcess_awaitsInv {i : Nat} {f : WebProcess → Option WebProcess} (h : s.AwaitsInv)
    (hf : ∀ p p', p.map.AwaitsInv p.awaited → f p = some p' → p'.map.AwaitsInv p'.awaited)
    (hs : s.inProcess i f = some t) : t.AwaitsInv := by
  unfold inProcess at hs
  obtain ⟨p, hp, hs⟩ := Option.bind_eq_some_iff.1 hs
  obtain ⟨-, hs⟩ := Option.ite_none_right_eq_some.1 hs
  obtain ⟨p', hp', rfl⟩ := Option.map_eq_some_iff.1 hs
  exact h.set (hf p p' (h p (List.mem_of_getElem? hp)) hp')

theorem handle_awaitsInv {i : Nat} (h : s.AwaitsInv) (hs : s.handle i = some t) : t.AwaitsInv := by
  unfold handle at hs
  obtain ⟨p, hp, hs⟩ := Option.bind_eq_some_iff.1 hs
  obtain ⟨r, hr, hs⟩ := Option.bind_eq_some_iff.1 hs
  cases hs
  intro q hq
  obtain ⟨j, hj, rfl⟩ := List.mem_mapIdx.1 hq
  rw [WebProcess.map_didHandle]
  have hmem := h _ (List.getElem_mem hj)
  by_cases hij : j = i
  · subst hij
    obtain ⟨hj', rfl⟩ := List.getElem?_eq_some_iff.1 hp
    obtain ⟨rest, hrest⟩ := List.head?_eq_some_iff.1 hr
    rw [beq_self_eq_true, WebProcess.awaited_didHandle_source hrest]
    exact hmem
  · rw [beq_false_of_ne hij, WebProcess.awaited_didHandle_other]
    exact hmem

/-- **One step** of any party keeps the invariant. -/
theorem step_awaitsInv (h : s.AwaitsInv) (hs : s.step op = some t) : t.AwaitsInv := by
  cases op with
  | loadValues i => exact inProcess_awaitsInv h (fun _ _ => WebProcess.loadValues_awaitsInv) hs
  | didLoadValues i values =>
    obtain ⟨p, hp, hs⟩ := Option.bind_eq_some_iff.1 hs
    obtain ⟨p', hp', hs⟩ := Option.bind_eq_some_iff.1 hs
    cases hs
    exact h.set (WebProcess.didLoadValues_awaitsInv (h p (List.mem_of_getElem? hp)) hp')
  | setItem i area key value =>
    refine inProcess_awaitsInv h (fun p p' hp hp' => ?_) hs
    obtain ⟨m, -, rfl⟩ := Option.map_eq_some_iff.1 hp'
    rw [WebProcess.awaited_send]
    exact hp.setItem
  | removeItem i area key =>
    refine inProcess_awaitsInv h (fun p p' hp hp' => ?_) hs
    obtain ⟨m, -, rfl⟩ := Option.map_eq_some_iff.1 hp'
    rw [WebProcess.awaited_send]
    exact hp.removeItem
  | clear i area =>
    refine inProcess_awaitsInv h (fun p p' hp hp' => ?_) hs
    cases hp'
    unfold WebProcess.clear
    rw [WebProcess.awaited_send]
    exact hp.clear
  | handle i => exact handle_awaitsInv h hs
  | deliver i => exact inProcess_awaitsInv h (fun _ _ => WebProcess.deliver_awaitsInv) hs
  | deleteEntries =>
    cases hs
    intro q hq
    obtain ⟨p, hp, rfl⟩ := List.mem_map.1 hq
    have hawaited : WebProcess.awaited { p with toMap := p.toMap ++ [.clearCache] } = p.awaited := by
      unfold WebProcess.awaited
      simp [Message.answers]
    rw [hawaited]
    exact h p hp

/-- **Answers match in every process**: the next message finds what its handler asserts, and the pending keys are those of
the writes that are not answered. -/
theorem local_storage_answers_match {quota : UInt32} {items : List (WTFString × WTFString)} {quotas : List UInt32}
    {ops : List LocalStorageOp} (h : Run (Via step) (init quota items quotas) ops s) {p : WebProcess}
    (hp : p ∈ s.processes) :
    p.map.pendingValueChanges.Perm (keysSinceClear p.map.currentSeed p.awaited) ∧
      ∀ message rest, p.toMap = message :: rest → p.map.Expects message := by
  have hstep : ∀ s op t, AwaitsInv s → Via step s op t → AwaitsInv t := fun _ _ _ => step_awaitsInv
  have hinv : s.AwaitsInv := by
    refine h.invariant hstep fun q hq => ?_
    obtain ⟨quota, -, rfl⟩ := List.mem_map.1 hq
    exact StorageAreaMap.awaitsInv_create
  refine ⟨(hinv p hp).pending_perm, fun message rest hmessages => ?_⟩
  have h := hinv p hp
  unfold WebProcess.awaited at h
  rw [hmessages, List.filterMap_cons] at h
  cases hanswers : message.answers with
  | none => cases message <;> trivial
  | some e =>
    rw [hanswers] at h
    exact h.expects hanswers

/-- An item is set and the answer is on the way. -/
theorem local_storage_answers_match_set :
    let a : WTFString := ⟨[97], by decide⟩
    let ops := [LocalStorageOp.loadValues 0, .handle 0, .didLoadValues 0 [], .deliver 0, .setItem 0 0 a a, .handle 0]
    ∃ s, runFn step (init 100 [] [100, 100]) ops = some s ∧ ∀ p ∈ s.processes, ∀ message rest,
      p.toMap = message :: rest → p.map.Expects message := by
  intro a ops
  have hr : (runFn step (init 100 [] [100, 100]) ops).isSome := by decide +kernel
  obtain ⟨s, hs⟩ := Option.isSome_iff_exists.1 hr
  exact ⟨s, hs, fun p hp => (local_storage_answers_match (run_of_runFn hs) hp).2⟩

end LocalStorage

end WebKit.WebKit2
