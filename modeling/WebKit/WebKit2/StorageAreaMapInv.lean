import WebKit.Lib.Replica
import WebKit.WebCore.StorageMapItems
import WebKit.WebKit2.StorageAreaMap

/-!
# The values of a web process and the values on the way

For every key, a loaded map is a replica of the storage area: its own writes are the requests on the way to the area, and
the answers and the events on the way back are what it is told (`Agreement`). Which messages count depends on what the map
waits for (`Phase`): everything if it waits for nothing, what follows the answer to its clear or to its request for values
if that is on the way, and nothing if its clear is still to be handled. A map that is to be reset by a message on the way
need not agree (`Doomed`). `ProcessInv` is the whole of it, for a map that is loaded or not.
-/

namespace WebKit.WebKit2

open WTF WebCore FiniteMap

/-- The value under every key of the storage area. -/
abbrev Contents := WTFString → MaybeString

/-! ## What messages and requests say about a key -/

namespace Request

def seed : Request → Nat
  | .getValues storageMapSeed => storageMapSeed
  | .setItem _ storageMapSeed _ _ => storageMapSeed
  | .removeItem _ storageMapSeed _ => storageMapSeed
  | .clear _ storageMapSeed => storageMapSeed

/-- The storage area a change comes from; 0 for a request that changes nothing. -/
def source : Request → Nat
  | .getValues _ => 0
  | .setItem sourceStorageAreaID _ _ _ => sourceStorageAreaID
  | .removeItem sourceStorageAreaID _ _ => sourceStorageAreaID
  | .clear sourceStorageAreaID _ => sourceStorageAreaID

/-- The value a request stores under `key`. -/
def writeTo (key : WTFString) : Request → Option MaybeString
  | .setItem _ _ k value => if k = key then some (some value) else none
  | .removeItem _ _ k => if k = key then some none else none
  | _ => none

/-- A request that changes the value under one key. -/
def IsWrite (currentSeed : Nat) : Request → Prop
  | .setItem sourceStorageAreaID storageMapSeed _ _ => sourceStorageAreaID ≠ 0 ∧ storageMapSeed = currentSeed
  | .removeItem sourceStorageAreaID storageMapSeed _ => sourceStorageAreaID ≠ 0 ∧ storageMapSeed = currentSeed
  | _ => False

/-- A change from before the last reset. -/
def IsOld (currentSeed : Nat) (r : Request) : Prop := r.source ≠ 0 ∧ r.seed < currentSeed

variable {r : Request} {currentSeed : Nat}

theorem IsWrite.source_ne (h : r.IsWrite currentSeed) : r.source ≠ 0 := by
  cases r with
  | setItem => exact h.1
  | removeItem => exact h.1
  | getValues => exact h.elim
  | clear => exact h.elim

theorem IsWrite.seed_eq (h : r.IsWrite currentSeed) : r.seed = currentSeed := by
  cases r with
  | setItem => exact h.2
  | removeItem => exact h.2
  | getValues => exact h.elim
  | clear => exact h.elim

end Request

namespace Message

def seed : Message → Option Nat
  | .didGetValues storageMapSeed => some storageMapSeed
  | .didSetItem storageMapSeed _ _ => some storageMapSeed
  | .didRemoveItem storageMapSeed _ => some storageMapSeed
  | .didClear storageMapSeed => some storageMapSeed
  | _ => none

/-- What a message says about the value under `key`. -/
def eventFor (currentSeed : Nat) (key : WTFString) : Message → Option (Replica.Event MaybeString)
  | .didSetItem storageMapSeed k _ => if storageMapSeed = currentSeed ∧ k = key then some .ack else none
  | .didRemoveItem storageMapSeed k => if storageMapSeed = currentSeed ∧ k = key then some .ack else none
  | .dispatchStorageEvent 0 none _ => some (.remote none)
  | .dispatchStorageEvent 0 (some k) newValue => if k = key then some (.remote newValue) else none
  | _ => none

/-- Not an answer to a request from after the last reset. -/
def IsOld (currentSeed : Nat) (message : Message) : Prop := ∀ s ∈ message.seed, s < currentSeed

end Message

/-! ## The storage area -/

/-- How an event tells the change of the contents. -/
inductive Applied (sourceStorageAreaID : Nat) (contents contents' : Contents) : Option StorageEvent → Prop
  | nothing (h : contents' = contents) : Applied sourceStorageAreaID contents contents' none
  | item (key : WTFString) (value : MaybeString) (h : contents' = Function.update contents key value) :
      Applied sourceStorageAreaID contents contents' (some ⟨sourceStorageAreaID, some key, value⟩)
  | all (h : contents' = fun _ => none) :
      Applied sourceStorageAreaID contents contents' (some ⟨sourceStorageAreaID, none, none⟩)

namespace StorageArea

variable {area : StorageArea} {r : Request}

def contents (area : StorageArea) : Contents := area.storageMap.getItem

theorem contents_of_insert {area' : StorageArea} {key : WTFString} {value : MaybeString}
    (h : area'.storageMap.map = area.storageMap.map.insert key value) :
    area'.contents = Function.update area.contents key value := by
  funext k
  rw [Function.update_apply]
  exact StorageMap.getItem_of_insert h

theorem contents_of_erase {area' : StorageArea} {key : WTFString}
    (h : area'.storageMap.map = area.storageMap.map.erase key) :
    area'.contents = Function.update area.contents key none := by
  funext k
  rw [Function.update_apply]
  exact StorageMap.getItem_of_erase h

theorem contents_of_empty (h : area.storageMap.map = ∅) : area.contents = fun _ => none := by
  funext k
  unfold contents StorageMap.getItem
  rw [h, Finmap.lookup_empty]
  rfl

theorem setItem_spec (area : StorageArea) (source : Nat) (key value : WTFString) :
    area.setItem source key value = (area, none, true) ∨
      ∃ m, m.map = area.storageMap.map.insert key (some value) ∧
        area.setItem source key value = ({ area with storageMap := m }, some ⟨source, some key, some value⟩, false) := by
  unfold setItem
  simp only
  obtain ⟨he, hself⟩ | ⟨he, hmap⟩ := StorageMap.setItem_map_one area.storageMap key (some value)
  · rw [he, hself]
    exact .inl rfl
  · rw [he]
    exact .inr ⟨_, hmap, rfl⟩

/-- **The event tells the change.** -/
theorem didReceiveMessage_applied (h : area.storageMap.NonNull) :
    Applied r.source area.contents (area.didReceiveMessage r).area.contents (area.didReceiveMessage r).event ∧
      (area.didReceiveMessage r).area.storageMap.NonNull := by
  cases r with
  | getValues s => exact ⟨.nothing rfl, h⟩
  | setItem source s key value =>
    obtain heq | ⟨m, hmap, heq⟩ := setItem_spec area source key value
    · rw [didReceiveMessage, heq]
      exact ⟨.nothing rfl, h⟩
    · rw [didReceiveMessage, heq]
      exact ⟨.item key (some value) (contents_of_insert hmap), StorageMap.nonNull_of_insert h hmap⟩
  | removeItem source s key =>
    have hmap := StorageMap.removeItem_map_one area.storageMap key
    unfold didReceiveMessage removeItem
    simp only
    split
    · rename_i hnone
      refine ⟨.nothing ?_, StorageMap.nonNull_of_erase h hmap⟩
      rw [contents_of_erase hmap]
      exact Function.update_eq_self_iff.2 hnone.symm
    · exact ⟨.item key none (contents_of_erase hmap), StorageMap.nonNull_of_erase h hmap⟩
  | clear source s =>
    unfold didReceiveMessage clear
    simp only
    split
    · exact ⟨.nothing rfl, h⟩
    · exact ⟨.all (contents_of_empty rfl), StorageMap.nonNull_create⟩

theorem didReceiveMessage_clear {source s : Nat} :
    (area.didReceiveMessage (.clear source s)).area.contents = fun _ => none := by
  unfold didReceiveMessage clear
  simp only
  split
  · rename_i h
    exact contents_of_empty h
  · exact contents_of_empty rfl

/-- **A write is refused or applied**, and the answer says which. -/
theorem didReceiveMessage_write {currentSeed : Nat} (area : StorageArea) (hr : r.IsWrite currentSeed) :
    (∃ key, (area.didReceiveMessage r).answer = .didSetItem currentSeed key true) ∨
      ∃ key value, (∀ k, r.writeTo k = if key = k then some value else none) ∧
        (∀ k, (area.didReceiveMessage r).answer.eventFor currentSeed k = if key = k then some .ack else none) ∧
        (area.didReceiveMessage r).area.contents = Function.update area.contents key value := by
  cases r with
  | getValues s => exact hr.elim
  | clear source s => exact hr.elim
  | setItem source s key value =>
    obtain ⟨-, rfl⟩ := hr
    obtain heq | ⟨m, hmap, heq⟩ := setItem_spec area source key value
    · rw [didReceiveMessage, heq]
      exact .inl ⟨key, rfl⟩
    · rw [didReceiveMessage, heq]
      refine .inr ⟨key, some value, fun k => rfl, fun k => ?_, contents_of_insert hmap⟩
      simp [Message.eventFor]
  | removeItem source s key =>
    obtain ⟨-, rfl⟩ := hr
    have hmap := StorageMap.removeItem_map_one area.storageMap key
    refine .inr ⟨key, none, fun k => rfl, fun k => ?_, ?_⟩
    · simp [didReceiveMessage, Message.eventFor]
    · rw [didReceiveMessage]
      unfold removeItem
      simp only
      split <;> exact contents_of_erase hmap

theorem answer_seed : (area.didReceiveMessage r).answer.seed = some r.seed := by
  cases r <;> rfl

theorem values_eq_none (h : r.source ≠ 0) : (area.didReceiveMessage r).values = none := by
  cases r with
  | getValues => exact absurd rfl h
  | setItem => rfl
  | removeItem => rfl
  | clear => rfl

end StorageArea

/-! ## Agreement under one key -/

section Agreement

variable {currentSeed source : Nat} {handled : Handled} {messages : List Message} {requests : List Request}
  {contents contents' : Contents} {value : WTFString → MaybeString} {count : WTFString → Nat} {k : WTFString}

/-- What messages and requests say about a key. -/
abbrev eventsFor (currentSeed : Nat) (k : WTFString) (messages : List Message) : List (Replica.Event MaybeString) :=
  messages.filterMap (Message.eventFor currentSeed k)

abbrev writesTo (k : WTFString) (requests : List Request) : List MaybeString := requests.filterMap (Request.writeTo k)

/-- Every value, with so many changes of its key to come, is a replica of the value in the contents. -/
def Agreement (currentSeed : Nat) (value : WTFString → MaybeString) (count : WTFString → Nat) (messages : List Message)
    (requests : List Request) (contents : Contents) : Prop :=
  ∀ k, Replica.Agrees (value k) (count k) (eventsFor currentSeed k messages) (writesTo k requests) (contents k)

theorem eventsFor_source (h : Applied source contents contents' handled.event) (hsource : source ≠ 0) :
    eventsFor currentSeed k (handled.events true) = [] := by
  obtain ⟨n, rfl⟩ := Nat.exists_eq_succ_of_ne_zero hsource
  unfold Handled.events
  generalize handled.event = event at h
  cases h <;> rfl

/-- **An event of another process keeps the agreement.** -/
theorem Agreement.event (h : Agreement currentSeed value count messages requests contents)
    (ha : Applied source contents contents' handled.event) :
    Agreement currentSeed value count (messages ++ handled.events false) requests contents' := by
  intro k
  have hk := h k
  unfold eventsFor at *
  rw [List.filterMap_append]
  unfold Handled.events
  generalize handled.event = event at ha
  cases ha with
  | nothing hc =>
    rw [hc]
    change Replica.Agrees _ _ (_ ++ []) _ _
    rwa [List.append_nil]
  | all hc =>
    rw [hc]
    exact hk.remote none
  | item key v hc =>
    rw [hc]
    by_cases hkey : key = k
    · subst hkey
      rw [Function.update_self]
      have hevent : List.filterMap (Message.eventFor currentSeed key)
          [(⟨source, some key, v⟩ : StorageEvent).message false] = [.remote v] := by
        simp [StorageEvent.message, Message.eventFor]
      exact hevent ▸ hk.remote v
    · rw [Function.update_of_ne (Ne.symm hkey)]
      have hevent : List.filterMap (Message.eventFor currentSeed k)
          [(⟨source, some key, v⟩ : StorageEvent).message false] = [] := by
        simp [StorageEvent.message, Message.eventFor, hkey]
      change Replica.Agrees _ _ (_ ++ List.filterMap _ [_]) _ _
      rw [hevent, List.append_nil]
      exact hk

/-- **A change that the area applies keeps the agreement** of its process. -/
theorem Agreement.serve {r : Request} {key : WTFString} {v : MaybeString} {events : List Message} {answer : Message}
    (h : Agreement currentSeed value count messages (r :: requests) contents)
    (hr : ∀ k, r.writeTo k = if key = k then some v else none) (hevents : ∀ k, eventsFor currentSeed k events = [])
    (hanswer : ∀ k, answer.eventFor currentSeed k = if key = k then some .ack else none)
    (hc : contents' = Function.update contents key v) :
    Agreement currentSeed value count (messages ++ events ++ [answer]) requests contents' := by
  intro k
  have hk := h k
  rw [hc]
  unfold eventsFor writesTo at *
  rw [List.filterMap_append, List.filterMap_append, hevents k, List.append_nil]
  by_cases hkey : key = k
  · subst hkey
    have hr' : r.writeTo key = some v := by rw [hr key, if_pos rfl]
    have ha' : answer.eventFor currentSeed key = some .ack := by rw [hanswer key, if_pos rfl]
    rw [List.filterMap_cons_some hr'] at hk
    rw [List.filterMap_cons_some ha', Function.update_self]
    exact hk.serve
  · have hr' : r.writeTo k = none := by rw [hr k, if_neg hkey]
    have ha' : answer.eventFor currentSeed k = none := by rw [hanswer k, if_neg hkey]
    rw [List.filterMap_cons_none hr'] at hk
    rw [List.filterMap_cons_none ha', Function.update_of_ne (Ne.symm hkey)]
    change Replica.Agrees _ _ (_ ++ []) _ _
    rwa [List.append_nil]

/-- **A change of the process keeps the agreement.** -/
theorem Agreement.write {r : Request} {key : WTFString} {v : MaybeString}
    (h : Agreement currentSeed value count messages requests contents)
    (hr : ∀ k, r.writeTo k = if key = k then some v else none) :
    Agreement currentSeed (fun k => if k = key then v else value k) (fun k => if k = key then count k + 1 else count k)
      messages (requests ++ [r]) contents := by
  intro k
  have hk := h k
  unfold writesTo at *
  rw [List.filterMap_append]
  by_cases hkey : k = key
  · subst hkey
    have hr' : r.writeTo k = some v := by rw [hr k, if_pos rfl]
    simp only [List.filterMap_cons_some hr', if_true]
    exact hk.write v
  · have hr' : r.writeTo k = none := by rw [hr k, if_neg (Ne.symm hkey)]
    simp only [List.filterMap_cons_none hr', if_neg hkey]
    change Replica.Agrees _ _ _ (_ ++ []) _
    rwa [List.append_nil]

/-- Under every key, values and counts change as a message tells. -/
def Follows (currentSeed : Nat) (message : Message) (value value' : WTFString → MaybeString)
    (count count' : WTFString → Nat) : Prop :=
  ∀ k, (message.eventFor currentSeed k = none → value' k = value k ∧ count' k = count k) ∧
    ∀ e, message.eventFor currentSeed k = some e →
      value' k = (Replica.receive (value k) (count k) e).1 ∧ count' k = (Replica.receive (value k) (count k) e).2

/-- **A message that is delivered keeps the agreement.** -/
theorem Agreement.deliver {message : Message} {value' : WTFString → MaybeString} {count' : WTFString → Nat}
    (h : Agreement currentSeed value count (message :: messages) requests contents)
    (hf : Follows currentSeed message value value' count count') :
    Agreement currentSeed value' count' messages requests contents := by
  intro k
  have hk := h k
  unfold eventsFor at hk
  obtain ⟨hnone, hsome⟩ := hf k
  cases he : message.eventFor currentSeed k with
  | none =>
    obtain ⟨hv, hc⟩ := hnone he
    rw [List.filterMap_cons_none he] at hk
    rw [hv, hc]
    exact hk
  | some e =>
    obtain ⟨hv, hc⟩ := hsome e he
    rw [List.filterMap_cons_some he] at hk
    rw [hv, hc]
    exact hk.receive

end Agreement

/-! ## What a map does with a message -/

namespace StorageAreaMap

variable {a : StorageAreaMap} {m : StorageMap} {message : Message} {k : WTFString}

/-- How many changes of a key are to be answered. -/
def pending (a : StorageAreaMap) (k : WTFString) : Nat := a.pendingValueChanges.count k

theorem getItem_of_map (h : a.storageMap = some m) : a.getItem k = m.getItem k := by
  rw [getItem, h]
  rfl

def Resets (a : StorageAreaMap) (message : Message) : Prop :=
  message = .clearCache ∨ ∃ key, message = .didSetItem a.currentSeed key true

/-- A clear from another process finds a map that does not take it, or that is loaded and has no value under a key whose
change is to be answered. -/
def TakesClear (a : StorageAreaMap) : Message → Prop
  | .dispatchStorageEvent 0 none _ => a.hasPendingClear = true ∨ a.hasPendingGetValues = true ∨
    (a.storageMap ≠ none ∧ ∀ key ∈ a.pendingValueChanges, a.getItem key = none)
  | _ => True

instance : ∀ message, Decidable (a.TakesClear message)
  | .dispatchStorageEvent 0 none _ => inferInstanceAs (Decidable (a.hasPendingClear = true ∨ a.hasPendingGetValues = true ∨
      (a.storageMap ≠ none ∧ ∀ key ∈ a.pendingValueChanges, a.getItem key = none)))
  | .dispatchStorageEvent 0 (some _) _ | .dispatchStorageEvent (_ + 1) _ _ | .didGetValues _ | .didSetItem ..
  | .didRemoveItem .. | .didClear _ | .clearCache => inferInstanceAs (Decidable True)

theorem didReceiveMessage_of_resets (h : a.Resets message) : a.didReceiveMessage message = a.resetValues := by
  obtain rfl | ⟨key, rfl⟩ := h
  · rfl
  · simp [didReceiveMessage, didSetItem]

/-- An answer from before the last reset is ignored. -/
theorem didReceiveMessage_of_isOld {s : Nat} (hs : message.seed = some s) (h : message.IsOld a.currentSeed) :
    a.didReceiveMessage message = a := by
  have hne : a.currentSeed ≠ s := Nat.ne_of_gt (h s hs)
  cases message with
  | dispatchStorageEvent => cases hs
  | clearCache => cases hs
  | didGetValues =>
    cases hs
    exact if_pos hne
  | didSetItem =>
    cases hs
    exact if_pos hne
  | didRemoveItem =>
    cases hs
    exact if_pos hne
  | didClear =>
    cases hs
    exact if_pos hne

theorem didReceiveMessage_of_pending {source : Nat} {key newValue : MaybeString}
    (h : a.hasPendingClear = true ∨ a.hasPendingGetValues = true) :
    a.didReceiveMessage (.dispatchStorageEvent source key newValue) = a := by
  unfold didReceiveMessage dispatchStorageEvent applyChange
  simp only
  rw [if_pos h]
  split <;> rfl

theorem mapAfterClear_eq (h : ∀ key ∈ a.pendingValueChanges, a.getItem key = none) :
    a.mapAfterClear = .create a.quotaInBytes := by
  have hfold : ∀ keys : List WTFString, (∀ key ∈ keys, a.getItem key = none) →
      ∀ map : StorageMap, keys.foldl (fun newStorageMap key => if a.getItem key = none then newStorageMap
        else (newStorageMap.setItemIgnoringQuota 1 key none).self) map = map := by
    intro keys
    induction keys with
    | nil => exact fun _ map => rfl
    | cons key keys ih =>
      intro hkeys map
      rw [List.foldl_cons, if_pos (hkeys key (List.mem_cons_self ..))]
      exact ih (fun k hk => hkeys k (List.mem_cons_of_mem _ hk)) map
  exact hfold _ (fun key hkey => h key (List.mem_dedup.1 hkey)) _

/-- An answer to a change takes it off the pending ones. -/
theorem pending_erase {key : WTFString} :
    (a.pendingValueChanges.erase key).count k = if key = k then a.pending k - 1 else a.pending k := by
  unfold pending
  split
  · rename_i hk
    rw [hk, List.count_erase_self]
  · rename_i hk
    rw [List.count_erase_of_ne (Ne.symm hk)]

theorem follows_same {currentSeed : Nat} (h : ∀ k, message.eventFor currentSeed k = none) :
    Follows currentSeed message a.getItem a.getItem a.pending a.pending := by
  refine fun k => ⟨fun _ => ⟨rfl, rfl⟩, fun e he => ?_⟩
  rw [h k] at he
  cases he

theorem follows_answer {key : WTFString}
    (h : ∀ k, message.eventFor a.currentSeed k = if key = k then some .ack else none) :
    Follows a.currentSeed message a.getItem a.getItem a.pending
      { a with pendingValueChanges := a.pendingValueChanges.erase key }.pending := by
  intro k
  have hp : { a with pendingValueChanges := a.pendingValueChanges.erase key }.pending k =
      if key = k then a.pending k - 1 else a.pending k := pending_erase
  rw [hp, h k]
  split
  · refine ⟨fun hn => absurd hn (by simp), fun e he => ?_⟩
    cases he
    exact ⟨rfl, rfl⟩
  · exact ⟨fun _ => ⟨rfl, rfl⟩, fun e he => absurd he (by simp)⟩

theorem applyChange_eq (a : StorageAreaMap) (key newValue : MaybeString) :
    ∃ map, a.applyChange key newValue = { a with storageMap := map } := by
  unfold applyChange
  split
  · exact ⟨a.storageMap, rfl⟩
  · cases key with
    | none => exact ⟨_, rfl⟩
    | some key =>
      simp only
      split
      · exact ⟨a.storageMap, rfl⟩
      · split
        · exact ⟨a.storageMap, rfl⟩
        · split <;> exact ⟨_, rfl⟩

theorem applyChange_some {key : WTFString} {newValue : MaybeString} (hm : a.storageMap = some m)
    (hclear : a.hasPendingClear = false) (hvalues : a.hasPendingGetValues = false) :
    a.applyChange (some key) newValue = if key ∈ a.pendingValueChanges then a else
      { a with storageMap := some (if newValue = none then (m.removeItem 1 key).self
          else (m.setItemIgnoringQuota 1 key newValue).self) } := by
  have hidle : ¬(a.hasPendingClear = true ∨ a.hasPendingGetValues = true) := by simp [hclear, hvalues]
  unfold applyChange
  rw [if_neg hidle]
  simp only [hm]
  split
  · rfl
  · split <;> rfl

theorem getItem_change {key : WTFString} {newValue : MaybeString} :
    (if newValue = none then (m.removeItem 1 key).self else (m.setItemIgnoringQuota 1 key newValue).self).getItem k =
      if k = key then newValue else m.getItem k := by
  split
  · rename_i hnone
    rw [hnone]
    exact StorageMap.getItem_of_erase (StorageMap.removeItem_map_one m key)
  · exact StorageMap.getItem_of_insert StorageMap.setItemIgnoringQuota_map_one

theorem applyChange_getItem {key : WTFString} (k : WTFString) (newValue : MaybeString) (hm : a.storageMap = some m)
    (hclear : a.hasPendingClear = false) (hvalues : a.hasPendingGetValues = false) :
    (a.applyChange (some key) newValue).getItem k =
        (if key = k then if a.pending k = 0 then newValue else a.getItem k else a.getItem k) ∧
      (a.applyChange (some key) newValue).pending = a.pending := by
  have hcount : a.pending key = 0 ↔ key ∉ a.pendingValueChanges := List.count_eq_zero
  rw [applyChange_some hm hclear hvalues]
  by_cases hkey : key ∈ a.pendingValueChanges
  · rw [if_pos hkey]
    refine ⟨?_, rfl⟩
    split
    · rename_i hk
      rw [← hk, if_neg fun h => hcount.1 h hkey]
    · rfl
  · rw [if_neg hkey]
    refine ⟨?_, rfl⟩
    rw [getItem_of_map hm]
    refine getItem_change.trans ?_
    by_cases hk : key = k
    · rw [if_pos hk, if_pos hk.symm, if_pos (hk ▸ hcount.2 hkey)]
    · rw [if_neg hk, if_neg (Ne.symm hk)]

theorem follows_event {key newValue : MaybeString} (hm : a.storageMap = some m)
    (hclear : a.hasPendingClear = false) (hvalues : a.hasPendingGetValues = false)
    (ht : a.TakesClear (.dispatchStorageEvent 0 key newValue)) :
    Follows a.currentSeed (.dispatchStorageEvent 0 key newValue) a.getItem (a.applyChange key newValue).getItem a.pending
      a.pending := by
  intro k
  cases key with
  | none =>
    unfold applyChange
    rw [hclear, hvalues]
    simp only [Bool.false_eq_true, or_self, if_false]
    obtain ht | ht | ⟨-, ht⟩ := ht
    · rw [hclear] at ht
      cases ht
    · rw [hvalues] at ht
      cases ht
    · refine ⟨fun hn => absurd hn (by simp [Message.eventFor]), fun e he => ?_⟩
      cases he
      simp only [mapAfterClear_eq ht]
      refine ⟨?_, rfl⟩
      change StorageMap.getItem (.create a.quotaInBytes) k = if a.pending k = 0 then none else a.getItem k
      rw [StorageMap.getItem_create]
      split
      · rfl
      · rename_i hne
        exact (ht k (List.count_pos_iff.1 (Nat.pos_of_ne_zero hne))).symm
  | some key =>
    obtain ⟨hget, hpending⟩ := applyChange_getItem k newValue hm hclear hvalues
    by_cases hk : key = k
    · refine ⟨fun hn => absurd hn (by simp [Message.eventFor, hk]), fun e he => ?_⟩
      simp only [Message.eventFor, if_pos hk, Option.some.injEq] at he
      subst he
      rw [hget, if_pos hk]
      exact ⟨rfl, rfl⟩
    · refine ⟨fun _ => ?_, fun e he => absurd he (by simp [Message.eventFor, hk])⟩
      rw [hget, if_neg hk]
      exact ⟨rfl, rfl⟩

/-- **A map that waits for nothing does what it is told.** -/
theorem didReceiveMessage_follows (hm : a.storageMap = some m) (hclear : a.hasPendingClear = false)
    (hvalues : a.hasPendingGetValues = false) (hr : ¬a.Resets message) (ht : a.TakesClear message) :
    Follows a.currentSeed message a.getItem (a.didReceiveMessage message).getItem a.pending
        (a.didReceiveMessage message).pending ∧
      (a.didReceiveMessage message).hasPendingClear = false ∧
      (a.didReceiveMessage message).hasPendingGetValues = false := by
  cases message with
  | clearCache => exact absurd (.inl rfl) hr
  | didGetValues s =>
    unfold didReceiveMessage didGetValues
    simp only
    split
    · exact ⟨follows_same fun _ => rfl, hclear, hvalues⟩
    · exact ⟨follows_same fun _ => rfl, hclear, rfl⟩
  | didClear s =>
    unfold didReceiveMessage didClear
    simp only
    split
    · exact ⟨follows_same fun _ => rfl, hclear, hvalues⟩
    · exact ⟨follows_same fun _ => rfl, rfl, hvalues⟩
  | didSetItem s key quotaError =>
    unfold didReceiveMessage didSetItem
    simp only
    split
    · rename_i hne
      exact ⟨follows_same fun k => if_neg fun h => hne h.1.symm, hclear, hvalues⟩
    · rename_i heq
      obtain rfl := not_not.1 heq
      split
      · rename_i herror
        exact absurd (.inr ⟨key, by rw [herror]⟩) hr
      · refine ⟨follows_answer fun k => ?_, hclear, hvalues⟩
        simp [Message.eventFor]
  | didRemoveItem s key =>
    unfold didReceiveMessage didRemoveItem
    simp only
    split
    · rename_i hne
      exact ⟨follows_same fun k => if_neg fun h => hne h.1.symm, hclear, hvalues⟩
    · rename_i heq
      obtain rfl := not_not.1 heq
      refine ⟨follows_answer fun k => ?_, hclear, hvalues⟩
      simp [Message.eventFor]
  | dispatchStorageEvent source key newValue =>
    unfold didReceiveMessage dispatchStorageEvent
    simp only
    split
    · rename_i hzero
      subst hzero
      have hf := follows_event hm hclear hvalues ht
      obtain ⟨map, heq⟩ := applyChange_eq a key newValue
      rw [heq] at hf ⊢
      exact ⟨hf, hclear, hvalues⟩
    · rename_i hne
      obtain ⟨n, rfl⟩ := Nat.exists_eq_succ_of_ne_zero hne
      exact ⟨follows_same fun k => rfl, hclear, hvalues⟩

theorem didReceiveMessage_loaded (hm : a.storageMap = some m) (hnull : m.NonNull) (hr : ¬a.Resets message)
    (ht : a.TakesClear message) :
    (∃ m', (a.didReceiveMessage message).storageMap = some m' ∧ m'.NonNull) ∧
      (a.didReceiveMessage message).currentSeed = a.currentSeed := by
  cases message with
  | clearCache => exact absurd (.inl rfl) hr
  | didGetValues s =>
    unfold didReceiveMessage didGetValues
    simp only
    split <;> exact ⟨⟨m, hm, hnull⟩, rfl⟩
  | didClear s =>
    unfold didReceiveMessage didClear
    simp only
    split <;> exact ⟨⟨m, hm, hnull⟩, rfl⟩
  | didRemoveItem s key =>
    unfold didReceiveMessage didRemoveItem
    simp only
    split <;> exact ⟨⟨m, hm, hnull⟩, rfl⟩
  | didSetItem s key quotaError =>
    unfold didReceiveMessage didSetItem
    simp only
    split
    · exact ⟨⟨m, hm, hnull⟩, rfl⟩
    · rename_i heq
      split
      · rename_i herror
        exact absurd (.inr ⟨key, by rw [herror, not_not.1 heq]⟩) hr
      · exact ⟨⟨m, hm, hnull⟩, rfl⟩
  | dispatchStorageEvent source key newValue =>
    by_cases hidle : a.hasPendingClear = true ∨ a.hasPendingGetValues = true
    · rw [didReceiveMessage_of_pending hidle]
      exact ⟨⟨m, hm, hnull⟩, rfl⟩
    · unfold didReceiveMessage dispatchStorageEvent
      simp only
      split
      · rename_i hzero
        subst hzero
        obtain ⟨hclear, hvalues⟩ := not_or.1 hidle
        cases key with
        | none =>
          unfold applyChange
          rw [if_neg hidle]
          obtain ht | ht | ⟨-, ht⟩ := ht
          · exact absurd ht hclear
          · exact absurd ht hvalues
          · exact ⟨⟨_, rfl, mapAfterClear_eq ht ▸ StorageMap.nonNull_create⟩, rfl⟩
        | some key =>
          rw [applyChange_some hm (Bool.not_eq_true _ ▸ hclear) (Bool.not_eq_true _ ▸ hvalues)]
          split
          · exact ⟨⟨m, hm, hnull⟩, rfl⟩
          · refine ⟨⟨_, rfl, ?_⟩, rfl⟩
            cases newValue with
            | none => exact StorageMap.nonNull_of_erase hnull (StorageMap.removeItem_map_one m key)
            | some v => exact StorageMap.nonNull_of_insert hnull StorageMap.setItemIgnoringQuota_map_one
      · exact ⟨⟨m, hm, hnull⟩, rfl⟩

end StorageAreaMap

/-! ## The phases of a loaded map -/

/-- The answer that a map waits for. -/
def StorageAreaMap.Awaits (a : StorageAreaMap) (answer : Message) : Prop :=
  (answer = .didClear a.currentSeed ∧ a.hasPendingClear = true ∧ a.hasPendingGetValues = false) ∨
    (answer = .didGetValues a.currentSeed ∧ a.hasPendingClear = false ∧ a.hasPendingGetValues = true)

/-- What a map waits for, and from where on it agrees with the storage area. -/
inductive Phase (a : StorageAreaMap) (messages : List Message) (requests : List Request) (contents : Contents) : Prop
  /-- It waits for nothing. -/
  | settled (hclear : a.hasPendingClear = false) (hvalues : a.hasPendingGetValues = false)
      (hwrites : ∀ r ∈ requests, r.IsWrite a.currentSeed)
      (h : Agreement a.currentSeed a.getItem a.pending messages requests contents)
  /-- The answer is on the way. -/
  | answered (before after : List Message) (answer : Message) (heq : messages = before ++ answer :: after)
      (hawaits : a.Awaits answer) (hold : ∀ message ∈ before, message.IsOld a.currentSeed)
      (hwrites : ∀ r ∈ requests, r.IsWrite a.currentSeed)
      (h : Agreement a.currentSeed a.getItem a.pending after requests contents)
  /-- Its clear is to be handled. -/
  | clearing (before after : List Request) (source : Nat)
      (heq : requests = before ++ .clear source a.currentSeed :: after) (hsource : source ≠ 0)
      (hclear : a.hasPendingClear = true) (hvalues : a.hasPendingGetValues = false)
      (hmessages : ∀ message ∈ messages, message.IsOld a.currentSeed) (hold : ∀ r ∈ before, r.IsOld a.currentSeed)
      (hwrites : ∀ r ∈ after, r.IsWrite a.currentSeed)
      (h : Agreement a.currentSeed a.getItem a.pending [] after fun _ => none)

section Phase

variable {a a' : StorageAreaMap} {messages : List Message} {requests : List Request} {contents contents' : Contents}
  {source : Nat} {handled : Handled}

theorem isOld_events {currentSeed : Nat} {isSource : Bool} {message : Message} (h : message ∈ handled.events isSource) :
    message.IsOld currentSeed := by
  unfold Handled.events at h
  cases he : handled.event with
  | none =>
    rw [he] at h
    cases h
  | some event =>
    rw [he] at h
    obtain rfl := List.mem_singleton.1 h
    exact fun s hs => by cases hs

theorem isOld_append {currentSeed : Nat} {isSource : Bool} (h : ∀ message ∈ messages, message.IsOld currentSeed) :
    ∀ message ∈ messages ++ handled.events isSource, message.IsOld currentSeed := fun message hm =>
  (List.mem_append.1 hm).elim (h message) isOld_events

/-- **An event of another process.** -/
theorem Phase.event (h : Phase a messages requests contents) (ha : Applied source contents contents' handled.event) :
    Phase a (messages ++ handled.events false) requests contents' := by
  cases h with
  | settled hclear hvalues hwrites h => exact .settled hclear hvalues hwrites (h.event ha)
  | answered before after answer heq hawaits hold hwrites h =>
    refine .answered before (after ++ handled.events false) answer ?_ hawaits hold hwrites (h.event ha)
    rw [heq, List.append_assoc, List.cons_append]
  | clearing before after source heq hsource hclear hvalues hmessages hold hwrites h =>
    exact .clearing before after source heq hsource hclear hvalues (isOld_append hmessages) hold hwrites h

/-- **A request of the process is handled**: a change that is refused resets the map later on. -/
theorem Phase.serve {r : Request} {area : StorageArea} (h : Phase a messages (r :: requests) area.contents)
    (hnull : area.storageMap.NonNull) :
    (∃ key, (area.didReceiveMessage r).answer = .didSetItem a.currentSeed key true) ∨
      Phase a (messages ++ (area.didReceiveMessage r).events true ++ [(area.didReceiveMessage r).answer]) requests
        (area.didReceiveMessage r).area.contents := by
  obtain ⟨ha, -⟩ := StorageArea.didReceiveMessage_applied (r := r) hnull
  cases h with
  | settled hclear hvalues hwrites h =>
    have hr := hwrites r (List.mem_cons_self ..)
    obtain hrefused | ⟨key, v, hwrite, hanswer, hc⟩ := StorageArea.didReceiveMessage_write area hr
    · exact .inl hrefused
    · refine .inr (.settled hclear hvalues (fun r hr => hwrites r (List.mem_cons_of_mem _ hr)) ?_)
      exact h.serve hwrite (fun k => eventsFor_source ha hr.source_ne) hanswer hc
  | answered before after answer heq hawaits hold hwrites h =>
    have hr := hwrites r (List.mem_cons_self ..)
    obtain hrefused | ⟨key, v, hwrite, hanswer, hc⟩ := StorageArea.didReceiveMessage_write area hr
    · exact .inl hrefused
    · refine .inr (.answered before _ answer ?_ hawaits hold (fun r hr => hwrites r (List.mem_cons_of_mem _ hr))
        (h.serve hwrite (fun k => eventsFor_source ha hr.source_ne) hanswer hc))
      rw [heq]
      simp only [List.append_assoc, List.cons_append]
  | clearing before after source heq hsource hclear hvalues hmessages hold hwrites h =>
    cases before with
    | nil =>
      obtain ⟨rfl, rfl⟩ := List.cons.inj heq
      refine .inr (.answered _ [] _ rfl (.inl ⟨rfl, hclear, hvalues⟩) (isOld_append hmessages) hwrites ?_)
      rw [StorageArea.didReceiveMessage_clear]
      exact h
    | cons r' before =>
      obtain ⟨rfl, rfl⟩ := List.cons.inj heq
      have hr := hold r (List.mem_cons_self ..)
      refine .inr (.clearing before after source rfl hsource hclear hvalues (fun message hmem => ?_)
        (fun r hr => hold r (List.mem_cons_of_mem _ hr)) hwrites h)
      rcases List.mem_append.1 hmem with hmem | hmem
      · exact isOld_append hmessages message hmem
      · obtain rfl := List.mem_singleton.1 hmem
        intro s hs
        rw [StorageArea.answer_seed] at hs
        cases hs
        exact hr.2

/-- **A change of the process** that it sends. -/
theorem Phase.write {r : Request} {key : WTFString} {v : MaybeString} (h : Phase a messages requests contents)
    (hr : r.IsWrite a.currentSeed) (hwrite : ∀ k, r.writeTo k = if key = k then some v else none)
    (hseed : a'.currentSeed = a.currentSeed) (hclear' : a'.hasPendingClear = a.hasPendingClear)
    (hvalues' : a'.hasPendingGetValues = a.hasPendingGetValues)
    (hitem : a'.getItem = fun k => if k = key then v else a.getItem k)
    (hpending : a'.pending = fun k => if k = key then a.pending k + 1 else a.pending k) :
    Phase a' messages (requests ++ [r]) contents := by
  have hwrites' : ∀ {requests : List Request}, (∀ r ∈ requests, r.IsWrite a.currentSeed) →
      ∀ r' ∈ requests ++ [r], r'.IsWrite a'.currentSeed := fun hw r' hmem => by
    rw [hseed]
    exact (List.mem_append.1 hmem).elim (hw r') fun hmem => List.mem_singleton.1 hmem ▸ hr
  have hagree : ∀ {messages requests contents},
      Agreement a.currentSeed a.getItem a.pending messages requests contents →
        Agreement a'.currentSeed a'.getItem a'.pending messages (requests ++ [r]) contents := fun h => by
    rw [hseed, hitem, hpending]
    exact h.write hwrite
  cases h with
  | settled hclear hvalues hwrites h =>
    exact .settled (hclear'.trans hclear) (hvalues'.trans hvalues) (hwrites' hwrites) (hagree h)
  | answered before after answer heq hawaits hold hwrites h =>
    refine .answered before after answer heq ?_ (hseed ▸ hold) (hwrites' hwrites) (hagree h)
    unfold StorageAreaMap.Awaits
    rwa [hseed, hclear', hvalues']
  | clearing before after source heq hsource hclear hvalues hmessages hold hwrites h =>
    refine .clearing before (after ++ [r]) source ?_ hsource (hclear'.trans hclear) (hvalues'.trans hvalues)
      (hseed ▸ hmessages) (hseed ▸ hold) (hwrites' hwrites) (hagree h)
    rw [heq, hseed, List.append_assoc, List.cons_append]

theorem Phase.congr (h : Phase a messages requests contents) (hseed : a'.currentSeed = a.currentSeed)
    (hclear' : a'.hasPendingClear = a.hasPendingClear) (hvalues' : a'.hasPendingGetValues = a.hasPendingGetValues)
    (hitem : a'.getItem = a.getItem) (hpending : a'.pending = a.pending) : Phase a' messages requests contents := by
  cases h with
  | settled hclear hvalues hwrites h =>
    exact .settled (hclear'.trans hclear) (hvalues'.trans hvalues) (hseed ▸ hwrites) (by rwa [hseed, hitem, hpending])
  | answered before after answer heq hawaits hold hwrites h =>
    refine .answered before after answer heq ?_ (hseed ▸ hold) (hseed ▸ hwrites) (by rwa [hseed, hitem, hpending])
    unfold StorageAreaMap.Awaits
    rwa [hseed, hclear', hvalues']
  | clearing before after source heq hsource hclear hvalues hmessages hold hwrites h =>
    refine .clearing before after source (by rwa [hseed]) hsource (hclear'.trans hclear) (hvalues'.trans hvalues)
      (hseed ▸ hmessages) (hseed ▸ hold) (hseed ▸ hwrites) (by rwa [hitem, hpending, hseed])

theorem didReceiveMessage_waiting {message : Message} (h : a.hasPendingClear = true ∨ a.hasPendingGetValues = true)
    (hold : message.IsOld a.currentSeed) (hr : ¬a.Resets message) : a.didReceiveMessage message = a := by
  cases hs : message.seed with
  | some s => exact StorageAreaMap.didReceiveMessage_of_isOld hs hold
  | none =>
    cases message with
    | dispatchStorageEvent => exact StorageAreaMap.didReceiveMessage_of_pending h
    | clearCache => exact absurd (.inl rfl) hr
    | didGetValues => cases hs
    | didSetItem => cases hs
    | didRemoveItem => cases hs
    | didClear => cases hs

/-- **A message is delivered** that does not reset the map. -/
theorem Phase.deliver {message : Message} {m : StorageMap} (h : Phase a (message :: messages) requests contents)
    (hm : a.storageMap = some m) (hr : ¬a.Resets message) (ht : a.TakesClear message)
    (hseed : (a.didReceiveMessage message).currentSeed = a.currentSeed) :
    Phase (a.didReceiveMessage message) messages requests contents := by
  cases h with
  | settled hclear hvalues hwrites h =>
    obtain ⟨hf, hclear', hvalues'⟩ := StorageAreaMap.didReceiveMessage_follows hm hclear hvalues hr ht
    exact .settled hclear' hvalues' (hseed ▸ hwrites) (hseed ▸ h.deliver hf)
  | answered before after answer heq hawaits hold hwrites h =>
    have hpending : a.hasPendingClear = true ∨ a.hasPendingGetValues = true :=
      hawaits.elim (fun h => .inl h.2.1) fun h => .inr h.2.2
    cases before with
    | nil =>
      obtain ⟨rfl, rfl⟩ := List.cons.inj heq
      obtain ⟨rfl, hclear, hvalues⟩ | ⟨rfl, hclear, hvalues⟩ := hawaits
      · have heq : a.didReceiveMessage (.didClear a.currentSeed) = { a with hasPendingClear := false } :=
          if_neg (not_not.2 rfl)
        rw [heq]
        exact .settled rfl hvalues hwrites h
      · have heq : a.didReceiveMessage (.didGetValues a.currentSeed) = { a with hasPendingGetValues := false } :=
          if_neg (not_not.2 rfl)
        rw [heq]
        exact .settled hclear rfl hwrites h
    | cons message' before =>
      obtain ⟨rfl, rfl⟩ := List.cons.inj heq
      rw [didReceiveMessage_waiting hpending (hold _ (List.mem_cons_self ..)) hr]
      exact .answered before after answer rfl hawaits (fun m hm => hold m (List.mem_cons_of_mem _ hm)) hwrites h
  | clearing before after source heq hsource hclear hvalues hmessages hold hwrites h =>
    rw [didReceiveMessage_waiting (.inl hclear) (hmessages _ (List.mem_cons_self ..)) hr]
    exact .clearing before after source heq hsource hclear hvalues
      (fun m hm => hmessages m (List.mem_cons_of_mem _ hm)) hold hwrites h

end Phase

end WebKit.WebKit2
