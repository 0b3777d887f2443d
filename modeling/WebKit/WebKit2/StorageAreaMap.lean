import WebKit.WebCore.StorageMap

/-!
# Local storage shared by web processes

The UI process holds a storage area (`StorageArea`), every web process a `StorageAreaMap` for it, which changes its own
map at once and sends the change. What the UI process applies it dispatches to every process; the process it came from
takes it for done when it is told so (`didSetItem`, `didRemoveItem`, `didClear`), and meanwhile does not let the changes
of others through. A web process without values asks for them in a synchronous message (`getValues`). A seed tells the
answers to messages from before the last reset.

`LocalStorage` is the area and the processes, with a FIFO channel in each direction, and `LocalStorage.step` one step of
one party. Messages carry what the maps read: the old value and the URL of an event are left out.
-/

namespace WebKit.WebKit2

open WTF WebCore FiniteMap

/-- The messages to `StorageManager`. -/
inductive Request
  | getValues (storageMapSeed : Nat)
  | setItem (sourceStorageAreaID storageMapSeed : Nat) (key value : WTFString)
  | removeItem (sourceStorageAreaID storageMapSeed : Nat) (key : WTFString)
  | clear (sourceStorageAreaID storageMapSeed : Nat)
  deriving DecidableEq

/-- The messages to `StorageAreaMap`. -/
inductive Message
  | didGetValues (storageMapSeed : Nat)
  | didSetItem (storageMapSeed : Nat) (key : WTFString) (quotaError : Bool)
  | didRemoveItem (storageMapSeed : Nat) (key : WTFString)
  | didClear (storageMapSeed : Nat)
  | dispatchStorageEvent (sourceStorageAreaID : Nat) (key newValue : MaybeString)
  | clearCache
  deriving DecidableEq

/-! ## The web process -/

/-- `m_pendingValueChanges` lists every key as often as it counts it. -/
structure StorageAreaMap where
  quotaInBytes : UInt32
  currentSeed : Nat
  hasPendingClear : Bool
  hasPendingGetValues : Bool
  pendingValueChanges : List WTFString
  storageMap : Option StorageMap
  deriving DecidableEq

namespace StorageAreaMap

def create (quotaInBytes : UInt32) : StorageAreaMap := ⟨quotaInBytes, 0, false, false, [], none⟩

def resetValues (a : StorageAreaMap) : StorageAreaMap :=
  { a with
    storageMap := none
    pendingValueChanges := []
    hasPendingClear := false
    hasPendingGetValues := false
    currentSeed := a.currentSeed + 1 }

/-- `setItem` once the values are loaded, and the message it sends. -/
def setItem (a : StorageAreaMap) (m : StorageMap) (sourceStorageAreaID : Nat) (key value : WTFString) :
    StorageAreaMap × Option Request :=
  let result := m.setItem 1 key (some value)
  let a := { a with storageMap := some result.self }
  if result.quotaException then (a, none)
  else if result.oldValue = some value then (a, none)
  else
    ({ a with pendingValueChanges := key :: a.pendingValueChanges },
      some (.setItem sourceStorageAreaID a.currentSeed key value))

/-- `removeItem` once the values are loaded, and the message it sends. -/
def removeItem (a : StorageAreaMap) (m : StorageMap) (sourceStorageAreaID : Nat) (key : WTFString) :
    StorageAreaMap × Option Request :=
  let oldValue := m.getItem key
  let a := { a with storageMap := some (m.removeItem 1 key).self }
  if oldValue = none then (a, none)
  else
    ({ a with pendingValueChanges := key :: a.pendingValueChanges },
      some (.removeItem sourceStorageAreaID a.currentSeed key))

def clear (a : StorageAreaMap) (sourceStorageAreaID : Nat) : StorageAreaMap × Request :=
  let a := a.resetValues
  ({ a with hasPendingClear := true, storageMap := some (.create a.quotaInBytes) },
    .clear sourceStorageAreaID a.currentSeed)

/-- The end of `loadValuesIfNeeded`, with the values in the order of the iteration. -/
def didLoadValues (a : StorageAreaMap) (values : List (WTFString × MaybeString)) : StorageAreaMap :=
  { a with
    storageMap := some ((StorageMap.create a.quotaInBytes).importItems values)
    hasPendingGetValues := true }

def didGetValues (a : StorageAreaMap) (storageMapSeed : Nat) : StorageAreaMap :=
  if a.currentSeed ≠ storageMapSeed then a else { a with hasPendingGetValues := false }

def didSetItem (a : StorageAreaMap) (storageMapSeed : Nat) (key : WTFString) (quotaError : Bool) : StorageAreaMap :=
  if a.currentSeed ≠ storageMapSeed then a
  else if quotaError then a.resetValues
  else { a with pendingValueChanges := a.pendingValueChanges.erase key }

def didRemoveItem (a : StorageAreaMap) (storageMapSeed : Nat) (key : WTFString) : StorageAreaMap :=
  if a.currentSeed ≠ storageMapSeed then a
  else { a with pendingValueChanges := a.pendingValueChanges.erase key }

def didClear (a : StorageAreaMap) (storageMapSeed : Nat) : StorageAreaMap :=
  if a.currentSeed ≠ storageMapSeed then a else { a with hasPendingClear := false }

/-- The value under `key`, or the null string if nothing is loaded. -/
def getItem (a : StorageAreaMap) (key : WTFString) : MaybeString := a.storageMap.bind fun m => m.getItem key

/-- The map that a clear from another process leaves. The loop reads the value of a pending key and then stores
`oldValue`, which is null. -/
def mapAfterClear (a : StorageAreaMap) : StorageMap :=
  a.pendingValueChanges.dedup.foldl
    (fun newStorageMap key =>
      if a.getItem key = none then newStorageMap else (newStorageMap.setItemIgnoringQuota 1 key none).self)
    (.create a.quotaInBytes)

def applyChange (a : StorageAreaMap) (key newValue : MaybeString) : StorageAreaMap :=
  if a.hasPendingClear ∨ a.hasPendingGetValues then a
  else
    match key with
    | none => { a with storageMap := some a.mapAfterClear }
    | some key =>
      match a.storageMap with
      | none => a
      | some m =>
        -- `shouldApplyChangeForKey`
        if key ∈ a.pendingValueChanges then a
        else if newValue = none then { a with storageMap := some (m.removeItem 1 key).self }
        else { a with storageMap := some (m.setItemIgnoringQuota 1 key newValue).self }

def dispatchStorageEvent (a : StorageAreaMap) (sourceStorageAreaID : Nat) (key newValue : MaybeString) : StorageAreaMap :=
  if sourceStorageAreaID = 0 then a.applyChange key newValue else a

def clearCache (a : StorageAreaMap) : StorageAreaMap := a.resetValues

def didReceiveMessage (a : StorageAreaMap) : Message → StorageAreaMap
  | .didGetValues storageMapSeed => a.didGetValues storageMapSeed
  | .didSetItem storageMapSeed key quotaError => a.didSetItem storageMapSeed key quotaError
  | .didRemoveItem storageMapSeed key => a.didRemoveItem storageMapSeed key
  | .didClear storageMapSeed => a.didClear storageMapSeed
  | .dispatchStorageEvent sourceStorageAreaID key newValue => a.dispatchStorageEvent sourceStorageAreaID key newValue
  | .clearCache => a.clearCache

end StorageAreaMap

/-! ## The UI process -/

/-- The storage area, with its items imported from the database. -/
structure StorageArea where
  quotaInBytes : UInt32
  storageMap : StorageMap
  deriving DecidableEq

/-- What `dispatchEvents` sends. -/
structure StorageEvent where
  sourceStorageAreaID : Nat
  key : MaybeString
  newValue : MaybeString

/-- The event as the process with or without the source gets it. -/
def StorageEvent.message (event : StorageEvent) (isSource : Bool) : Message :=
  .dispatchStorageEvent (if isSource then event.sourceStorageAreaID else 0) event.key event.newValue

namespace StorageArea

/-- `setItem`: the area, the event it dispatches and whether the quota is exceeded. -/
def setItem (area : StorageArea) (sourceStorageAreaID : Nat) (key value : WTFString) :
    StorageArea × Option StorageEvent × Bool :=
  let result := area.storageMap.setItem 1 key (some value)
  let area := { area with storageMap := result.self }
  if result.quotaException then (area, none, true)
  else (area, some ⟨sourceStorageAreaID, some key, some value⟩, false)

def removeItem (area : StorageArea) (sourceStorageAreaID : Nat) (key : WTFString) : StorageArea × Option StorageEvent :=
  let oldValue := area.storageMap.getItem key
  let area := { area with storageMap := (area.storageMap.removeItem 1 key).self }
  if oldValue = none then (area, none) else (area, some ⟨sourceStorageAreaID, some key, none⟩)

/-- `clear` for a web process. -/
def clear (area : StorageArea) (sourceStorageAreaID : Nat) : StorageArea × Option StorageEvent :=
  if area.storageMap.map = ∅ then (area, none)
  else ({ area with storageMap := .create area.quotaInBytes }, some ⟨sourceStorageAreaID, none, none⟩)

/-- `clear` when the entries are deleted; every process is told to clear its cache. -/
def clearEntries (area : StorageArea) : StorageArea := { area with storageMap := .create area.quotaInBytes }

end StorageArea

/-- What `StorageManager` does with a message: the area after it, the event for every process, the answer to the source
and the reply to a synchronous message. -/
structure Handled where
  area : StorageArea
  event : Option StorageEvent
  answer : Message
  values : Option Items

/-- What `dispatchEvents` sends to a process. -/
def Handled.events (handled : Handled) (isSource : Bool) : List Message :=
  (handled.event.map fun event => event.message isSource).toList

/-- The handlers of `StorageManager`. -/
def StorageArea.didReceiveMessage (area : StorageArea) : Request → Handled
  | .getValues storageMapSeed => ⟨area, none, .didGetValues storageMapSeed, some area.storageMap.map⟩
  | .setItem sourceStorageAreaID storageMapSeed key value =>
    let (area, event, quotaError) := area.setItem sourceStorageAreaID key value
    ⟨area, event, .didSetItem storageMapSeed key quotaError, none⟩
  | .removeItem sourceStorageAreaID storageMapSeed key =>
    let (area, event) := area.removeItem sourceStorageAreaID key
    ⟨area, event, .didRemoveItem storageMapSeed key, none⟩
  | .clear sourceStorageAreaID storageMapSeed =>
    let (area, event) := area.clear sourceStorageAreaID
    ⟨area, event, .didClear storageMapSeed, none⟩

/-! ## The area and the processes -/

/-- Whether a process waits for the reply to `getValues`, and the reply. -/
inductive SyncReply
  | idle
  | waiting
  | replied (values : Items)
  deriving DecidableEq

/-- A web process and its two channels. -/
structure WebProcess where
  map : StorageAreaMap
  toManager : List Request
  toMap : List Message
  sync : SyncReply
  deriving DecidableEq

structure LocalStorage where
  area : StorageArea
  processes : List WebProcess
  deriving DecidableEq

/-- One step of the web process with a given index, or of the UI process for it. A web process that waits for a reply does
nothing else. -/
inductive LocalStorageOp
  /-- `loadValuesIfNeeded` sends its message. -/
  | loadValues (process : Nat)
  /-- `loadValuesIfNeeded` goes on with the reply. -/
  | didLoadValues (process : Nat) (values : List (WTFString × MaybeString))
  | setItem (process area : Nat) (key value : WTFString)
  | removeItem (process area : Nat) (key : WTFString)
  | clear (process area : Nat)
  /-- The UI process handles the next message of a process. -/
  | handle (process : Nat)
  /-- A process handles the next message to it. -/
  | deliver (process : Nat)
  /-- The UI process deletes the entries of the area. -/
  | deleteEntries
  deriving DecidableEq

namespace WebProcess

def send (p : WebProcess) (result : StorageAreaMap × Option Request) : WebProcess :=
  { p with map := result.1, toManager := p.toManager ++ result.2.toList }

def loadValues (p : WebProcess) : Option WebProcess :=
  if p.map.storageMap = none then
    some { p with toManager := p.toManager ++ [.getValues p.map.currentSeed], sync := .waiting }
  else none

/-- What a web process does on its own; the identifier of a storage area is not 0. -/
def setItem (p : WebProcess) (area : Nat) (key value : WTFString) : Option WebProcess :=
  p.map.storageMap.map fun m => p.send (p.map.setItem m (area + 1) key value)

def removeItem (p : WebProcess) (area : Nat) (key : WTFString) : Option WebProcess :=
  p.map.storageMap.map fun m => p.send (p.map.removeItem m (area + 1) key)

def clear (p : WebProcess) (area : Nat) : WebProcess :=
  let (map, request) := p.map.clear (area + 1)
  p.send (map, some request)

def didLoadValues (p : WebProcess) (values : List (WTFString × MaybeString)) : Option WebProcess :=
  match p.sync with
  | .replied items =>
    if Iterates items items.keys.card values then some { p with map := p.map.didLoadValues values, sync := .idle } else none
  | _ => none

def deliver (p : WebProcess) : Option WebProcess :=
  match p.toMap with
  | [] => none
  | message :: rest => some { p with map := p.map.didReceiveMessage message, toMap := rest }

/-- What a process gets when the message of the process `source` has been handled. -/
def didHandle (p : WebProcess) (isSource : Bool) (handled : Handled) : WebProcess :=
  if isSource then
    { p with
      toManager := p.toManager.tail
      toMap := p.toMap ++ handled.events true ++ [handled.answer]
      sync := match handled.values with
        | none => p.sync
        | some values => .replied values }
  else { p with toMap := p.toMap ++ handled.events false }

end WebProcess

namespace LocalStorage

/-- A step of one web process that is not waiting. -/
def inProcess (s : LocalStorage) (i : Nat) (f : WebProcess → Option WebProcess) : Option LocalStorage := do
  let p ← s.processes[i]?
  if p.sync = .idle then (f p).map fun p' => { s with processes := s.processes.set i p' } else none

def handle (s : LocalStorage) (i : Nat) : Option LocalStorage := do
  let p ← s.processes[i]?
  let request ← p.toManager.head?
  let handled := s.area.didReceiveMessage request
  return ⟨handled.area, s.processes.mapIdx fun j p => p.didHandle (j == i) handled⟩

def step (s : LocalStorage) : LocalStorageOp → Option LocalStorage
  | .loadValues i => s.inProcess i WebProcess.loadValues
  | .didLoadValues i values => do
    let p ← s.processes[i]?
    let p' ← p.didLoadValues values
    return { s with processes := s.processes.set i p' }
  | .setItem i area key value => s.inProcess i fun p => p.setItem area key value
  | .removeItem i area key => s.inProcess i fun p => p.removeItem area key
  | .clear i area => s.inProcess i fun p => some (p.clear area)
  | .handle i => s.handle i
  | .deliver i => s.inProcess i WebProcess.deliver
  | .deleteEntries => some ⟨s.area.clearEntries,
      s.processes.map fun p => { p with toMap := p.toMap ++ [.clearCache] }⟩

/-- An area with items and processes that have loaded nothing. -/
def init (quotaInBytes : UInt32) (items : List (WTFString × WTFString)) (quotas : List UInt32) : LocalStorage where
  area := ⟨quotaInBytes, (StorageMap.create quotaInBytes).importItems (items.map fun item => (item.1, some item.2))⟩
  processes := quotas.map fun quota => ⟨.create quota, [], [], .idle⟩

end LocalStorage

end WebKit.WebKit2
