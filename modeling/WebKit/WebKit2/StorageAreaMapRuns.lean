import WebKit.WebKit2.StorageAreaMapInv

/-!
# Local storage converges

`ProcessInv` holds of every web process in every state that is reached by steps in which no clear is taken wrongly
(`ClearSafe`): a process without values has no request on the way whose answer it would take, one that waits for values
gets them with the answer they belong to, and a loaded one is in a phase (`Phase`) or about to be reset. With nothing in
flight every loaded map holds the items of the storage area (`local_storage_converges`). A clear from another process that
finds a change on the way drops the value of the change (`local_storage_diverges`).
-/

namespace WebKit.WebKit2

open WTF WebCore Transition FiniteMap

/-! ## What holds of a web process -/

/-- Nothing is pending. -/
structure StorageAreaMap.IsReset (a : StorageAreaMap) : Prop where
  changes : a.pendingValueChanges = []
  clear : a.hasPendingClear = false
  values : a.hasPendingGetValues = false

/-- A message on the way resets the map. -/
def Doomed (p : WebProcess) : Prop := ∃ message ∈ p.toMap, p.map.Resets message

inductive Stage (p : WebProcess) (contents : Contents) : Prop
  /-- Nothing is loaded. -/
  | unloaded (hmap : p.map.storageMap = none) (hsync : p.sync = .idle) (hreset : p.map.IsReset)
      (hmessages : ∀ message ∈ p.toMap, message.IsOld p.map.currentSeed)
      (hrequests : ∀ r ∈ p.toManager, r.IsOld p.map.currentSeed)
  /-- The request for values is to be handled. -/
  | waiting (before : List Request) (hmap : p.map.storageMap = none) (hsync : p.sync = .waiting) (hreset : p.map.IsReset)
      (hmessages : ∀ message ∈ p.toMap, message.IsOld p.map.currentSeed)
      (heq : p.toManager = before ++ [.getValues p.map.currentSeed]) (hold : ∀ r ∈ before, r.IsOld p.map.currentSeed)
  /-- The values are on the way. -/
  | replied (items : Items) (before after : List Message) (hmap : p.map.storageMap = none)
      (hsync : p.sync = .replied items) (hreset : p.map.IsReset) (hrequests : p.toManager = [])
      (hnull : ∀ k, items.lookup k ≠ some none) (heq : p.toMap = before ++ .didGetValues p.map.currentSeed :: after)
      (hold : ∀ message ∈ before, message.IsOld p.map.currentSeed)
      (h : .clearCache ∈ p.toMap ∨
        Agreement p.map.currentSeed (fun k => (items.lookup k).join) (fun _ => 0) after [] contents)
  /-- Values are loaded. -/
  | loaded (m : StorageMap) (hmap : p.map.storageMap = some m) (hsync : p.sync = .idle) (hnull : m.NonNull)
      (hsources : ∀ r ∈ p.toManager, r.source ≠ 0) (h : Doomed p ∨ Phase p.map p.toMap p.toManager contents)

/-- **What holds of a web process**, with what is on the way. -/
structure ProcessInv (p : WebProcess) (contents : Contents) : Prop where
  messages : ∀ message ∈ p.toMap, ∀ s ∈ message.seed, s ≤ p.map.currentSeed
  requests : ∀ r ∈ p.toManager, r.seed ≤ p.map.currentSeed
  stage : Stage p contents

section Process

variable {p p' : WebProcess} {contents contents' : Contents} {source : Nat} {handled : Handled} {area : StorageArea}
  {r : Request} {rest : List Request}

/-! ## Messages from the storage area -/

theorem seed_events {isSource : Bool} {message : Message} (h : message ∈ handled.events isSource) :
    message.seed = none := by
  unfold Handled.events at h
  cases he : handled.event with
  | none =>
    rw [he] at h
    cases h
  | some event =>
    rw [he] at h
    obtain rfl := List.mem_singleton.1 h
    rfl

/-- **The request of another process is handled.** -/
theorem ProcessInv.other (h : ProcessInv p contents) (ha : Applied source contents contents' handled.event) :
    ProcessInv (p.didHandle false handled) contents' := by
  change ProcessInv { p with toMap := p.toMap ++ handled.events false } contents'
  refine ⟨fun message hm s hs => ?_, h.requests, ?_⟩
  · rcases List.mem_append.1 hm with hm | hm
    · exact h.messages message hm s hs
    · rw [seed_events hm] at hs
      cases hs
  · cases h.stage with
    | unloaded hmap hsync hreset hmessages hrequests =>
      exact .unloaded hmap hsync hreset (isOld_append hmessages) hrequests
    | waiting before hmap hsync hreset hmessages heq hold =>
      exact .waiting before hmap hsync hreset (isOld_append hmessages) heq hold
    | replied items before after hmap hsync hreset hrequests hnull heq hold h =>
      refine .replied items before (after ++ handled.events false) hmap hsync hreset hrequests hnull ?_ hold ?_
      · simp only [heq, List.append_assoc, List.cons_append]
      · exact h.imp (fun h => List.mem_append_left _ h) fun h => h.event ha
    | loaded m hmap hsync hnull hsources h =>
      refine .loaded m hmap hsync hnull hsources (h.imp ?_ fun h => h.event ha)
      rintro ⟨message, hm, hr⟩
      exact ⟨message, List.mem_append_left _ hm, hr⟩

/-- **The entries are deleted**, and every process is told. -/
theorem ProcessInv.cleared (h : ProcessInv p contents) :
    ProcessInv { p with toMap := p.toMap ++ [.clearCache] } contents' := by
  have hold : ∀ {messages : List Message}, (∀ message ∈ messages, message.IsOld p.map.currentSeed) →
      ∀ message ∈ messages ++ [.clearCache], message.IsOld p.map.currentSeed := fun h message hm => by
    rcases List.mem_append.1 hm with hm | hm
    · exact h message hm
    · obtain rfl := List.mem_singleton.1 hm
      exact fun s hs => by cases hs
  have hmem : Message.clearCache ∈ p.toMap ++ [.clearCache] := List.mem_append_right _ (List.mem_singleton_self _)
  refine ⟨fun message hm s hs => ?_, h.requests, ?_⟩
  · rcases List.mem_append.1 hm with hm | hm
    · exact h.messages message hm s hs
    · obtain rfl := List.mem_singleton.1 hm
      cases hs
  · cases h.stage with
    | unloaded hmap hsync hreset hmessages hrequests => exact .unloaded hmap hsync hreset (hold hmessages) hrequests
    | waiting before hmap hsync hreset hmessages heq hold' =>
      exact .waiting before hmap hsync hreset (hold hmessages) heq hold'
    | replied items before after hmap hsync hreset hrequests hnull heq hold' h =>
      refine .replied items before (after ++ [.clearCache]) hmap hsync hreset hrequests hnull ?_ hold' (.inl hmem)
      simp only [heq, List.append_assoc, List.cons_append]
    | loaded m hmap hsync hnull hsources h =>
      exact .loaded m hmap hsync hnull hsources (.inl ⟨.clearCache, hmem, .inl rfl⟩)

/-- What a process gets for its own request. -/
theorem didHandle_eq (hp : p.toManager = r :: rest) (hr : r.source ≠ 0) :
    p.didHandle true (area.didReceiveMessage r) =
      { p with
        toManager := rest
        toMap := p.toMap ++ (area.didReceiveMessage r).events true ++ [(area.didReceiveMessage r).answer] } := by
  unfold WebProcess.didHandle
  rw [StorageArea.values_eq_none hr, hp]
  rfl

theorem mem_own {message : Message}
    (h : message ∈ p.toMap ++ (area.didReceiveMessage r).events true ++ [(area.didReceiveMessage r).answer]) :
    message ∈ p.toMap ∨ message.seed = none ∨ message.seed = some r.seed := by
  rcases List.mem_append.1 h with h | h
  · exact (List.mem_append.1 h).imp id fun h => .inl (seed_events h)
  · obtain rfl := List.mem_singleton.1 h
    exact .inr (.inr StorageArea.answer_seed)

theorem isOld_own {currentSeed : Nat} (h : ∀ message ∈ p.toMap, message.IsOld currentSeed) (hr : r.seed < currentSeed) :
    ∀ message ∈ p.toMap ++ (area.didReceiveMessage r).events true ++ [(area.didReceiveMessage r).answer],
      message.IsOld currentSeed := by
  intro message hm s hs
  rcases mem_own hm with hm | hm | hm
  · exact h message hm s hs
  · rw [hm] at hs
    cases hs
  · rw [hm] at hs
    cases hs
    exact hr

/-- **A change of the process is handled.** -/
theorem ProcessInv.ownChange (h : ProcessInv p area.contents) (hnull : area.storageMap.NonNull)
    (hp : p.toManager = r :: rest) (hr : r.source ≠ 0) :
    ProcessInv (p.didHandle true (area.didReceiveMessage r)) (area.didReceiveMessage r).area.contents := by
  have hrest : ∀ {P : Request → Prop}, (∀ r ∈ p.toManager, P r) → ∀ r ∈ rest, P r := fun h r hr =>
    h r (hp ▸ List.mem_cons_of_mem _ hr)
  have hmem : r ∈ p.toManager := hp ▸ List.mem_cons_self ..
  rw [didHandle_eq hp hr]
  refine ⟨fun message hm s hs => ?_, hrest h.requests, ?_⟩
  · rcases mem_own hm with hm | hm | hm
    · exact h.messages message hm s hs
    · rw [hm] at hs
      cases hs
    · rw [hm] at hs
      cases hs
      exact h.requests r hmem
  · cases h.stage with
    | unloaded hmap hsync hreset hmessages hrequests =>
      exact .unloaded hmap hsync hreset (isOld_own hmessages (hrequests r hmem).2) (hrest hrequests)
    | waiting before hmap hsync hreset hmessages heq hold =>
      cases before with
      | nil =>
        rw [hp] at heq
        obtain ⟨rfl, -⟩ := List.cons.inj heq
        exact absurd rfl hr
      | cons r' before =>
        rw [hp] at heq
        obtain ⟨rfl, rfl⟩ := List.cons.inj heq
        exact .waiting before hmap hsync hreset (isOld_own hmessages (hold r (List.mem_cons_self ..)).2) rfl
          fun r hr => hold r (List.mem_cons_of_mem _ hr)
    | replied items before after hmap hsync hreset hrequests hnull heq hold h =>
      rw [hrequests] at hp
      cases hp
    | loaded m hmap hsync hnull' hsources h =>
      refine .loaded m hmap hsync hnull' (hrest hsources) ?_
      rcases h with ⟨message, hm, hreset⟩ | h
      · exact .inl ⟨message, List.mem_append_left _ (List.mem_append_left _ hm), hreset⟩
      · rw [hp] at h
        refine (h.serve hnull).imp ?_ id
        rintro ⟨key, hanswer⟩
        exact ⟨_, List.mem_append_right _ (List.mem_singleton_self _), .inr ⟨key, hanswer⟩⟩

/-- **The values of a process are sent**: they are the items of the area, and what comes after the answer is not in
them. -/
theorem ProcessInv.ownValues {s : Nat} (h : ProcessInv p area.contents) (hnull : area.storageMap.NonNull)
    (hp : p.toManager = .getValues s :: rest) :
    ProcessInv (p.didHandle true (area.didReceiveMessage (.getValues s))) area.contents := by
  have hmem : Request.getValues s ∈ p.toManager := hp ▸ List.mem_cons_self ..
  cases h.stage with
  | unloaded hmap hsync hreset hmessages hrequests => exact absurd rfl (hrequests _ hmem).1
  | replied items before after hmap hsync hreset hrequests hnull heq hold h =>
    rw [hrequests] at hp
    cases hp
  | loaded m hmap hsync hnull' hsources h => exact absurd rfl (hsources _ hmem)
  | waiting before hmap hsync hreset hmessages heq hold =>
    cases before with
    | cons r before =>
      rw [hp] at heq
      obtain ⟨rfl, -⟩ := List.cons.inj heq
      exact absurd rfl (hold _ (List.mem_cons_self ..)).1
    | nil =>
      rw [hp] at heq
      obtain ⟨hs, rfl⟩ := List.cons.inj heq
      obtain rfl := Request.getValues.inj hs
      have hd : p.didHandle true (area.didReceiveMessage (.getValues p.map.currentSeed)) =
          { p with
            toManager := []
            toMap := p.toMap ++ [.didGetValues p.map.currentSeed]
            sync := .replied area.storageMap.map } := by
        unfold WebProcess.didHandle
        rw [hp]
        simp [StorageArea.didReceiveMessage, Handled.events]
      rw [hd]
      refine ⟨fun message hm s hs => ?_, fun r hr => absurd hr (List.not_mem_nil), ?_⟩
      · rcases List.mem_append.1 hm with hm | hm
        · exact h.messages message hm s hs
        · obtain rfl := List.mem_singleton.1 hm
          cases hs
          exact le_refl _
      · exact .replied area.storageMap.map p.toMap [] hmap rfl hreset rfl hnull rfl hmessages
          (.inr fun k => Replica.Agrees.read)

theorem ProcessInv.source_ne (h : ProcessInv p contents) (hr : r ∈ p.toManager) :
    r.source ≠ 0 ∨ ∃ s, r = .getValues s := by
  cases h.stage with
  | unloaded hmap hsync hreset hmessages hrequests => exact .inl (hrequests r hr).1
  | waiting before hmap hsync hreset hmessages heq hold =>
    rw [heq] at hr
    rcases List.mem_append.1 hr with hr | hr
    · exact .inl (hold r hr).1
    · exact .inr ⟨_, List.mem_singleton.1 hr⟩
  | replied items before after hmap hsync hreset hrequests hnull heq hold h =>
    rw [hrequests] at hr
    cases hr
  | loaded m hmap hsync hnull hsources h => exact .inl (hsources r hr)

/-- **The request of the process is handled.** -/
theorem ProcessInv.own (h : ProcessInv p area.contents) (hnull : area.storageMap.NonNull)
    (hp : p.toManager = r :: rest) :
    ProcessInv (p.didHandle true (area.didReceiveMessage r)) (area.didReceiveMessage r).area.contents := by
  obtain hr | ⟨s, rfl⟩ := h.source_ne (hp ▸ List.mem_cons_self ..)
  · exact h.ownChange hnull hp hr
  · exact h.ownValues hnull hp

/-! ## What the process does -/

theorem ProcessInv.of_map {m : StorageMap} (h : ProcessInv p contents) (hm : p.map.storageMap = some m) :
    p.sync = .idle ∧ m.NonNull ∧ (∀ r ∈ p.toManager, r.source ≠ 0) ∧
      (Doomed p ∨ Phase p.map p.toMap p.toManager contents) := by
  cases h.stage with
  | unloaded hmap => cases hmap.symm.trans hm
  | waiting before hmap => cases hmap.symm.trans hm
  | replied items before after hmap => cases hmap.symm.trans hm
  | loaded m₀ hmap hsync hnull hsources h =>
    obtain rfl : m₀ = m := Option.some.inj (hmap.symm.trans hm)
    exact ⟨hsync, hnull, hsources, h⟩

/-- What holds of a process that has loaded nothing and waits for nothing. -/
theorem ProcessInv.of_unloaded (h : ProcessInv p contents) (hm : p.map.storageMap = none) (hs : p.sync = .idle) :
    p.map.IsReset ∧ (∀ message ∈ p.toMap, message.IsOld p.map.currentSeed) ∧
      ∀ r ∈ p.toManager, r.IsOld p.map.currentSeed := by
  cases h.stage with
  | unloaded hmap hsync hreset hmessages hrequests => exact ⟨hreset, hmessages, hrequests⟩
  | waiting before hmap hsync => cases hsync.symm.trans hs
  | replied items before after hmap hsync => cases hsync.symm.trans hs
  | loaded m hmap => cases hmap.symm.trans hm

/-- **A change that is sent.** -/
theorem ProcessInv.write {m m' : StorageMap} {key : WTFString} {v : MaybeString} (h : ProcessInv p contents)
    (hm : p.map.storageMap = some m) (hr : r.IsWrite p.map.currentSeed)
    (hwrite : ∀ k, r.writeTo k = if key = k then some v else none) (hnull : m.NonNull → m'.NonNull)
    (hitem : ∀ k, m'.getItem k = if k = key then v else m.getItem k) :
    ProcessInv { p with
      map := { p.map with storageMap := some m', pendingValueChanges := key :: p.map.pendingValueChanges }
      toManager := p.toManager ++ [r] } contents := by
  obtain ⟨hsync, hnull', hsources, hstage⟩ := h.of_map hm
  have hrequests : ∀ {P : Request → Prop}, (∀ r ∈ p.toManager, P r) → P r → ∀ r' ∈ p.toManager ++ [r], P r' :=
    fun h hr r' hr' => (List.mem_append.1 hr').elim (h r') fun hr' => List.mem_singleton.1 hr' ▸ hr
  refine ⟨h.messages, hrequests h.requests hr.seed_eq.le, ?_⟩
  refine .loaded m' rfl hsync (hnull hnull') (hrequests hsources hr.source_ne) (hstage.imp id fun h => ?_)
  refine h.write hr hwrite rfl rfl rfl (funext fun k => ?_) (funext fun k => ?_)
  · rw [StorageAreaMap.getItem_of_map hm]
    exact hitem k
  · unfold StorageAreaMap.pending
    by_cases hk : k = key
    · rw [if_pos hk, hk, List.count_cons_self]
    · rw [if_neg hk, List.count_cons_of_ne (Ne.symm hk)]

/-- A change that changes nothing is not sent. -/
theorem ProcessInv.same {m m' : StorageMap} (h : ProcessInv p contents) (hm : p.map.storageMap = some m)
    (hnull : m.NonNull → m'.NonNull) (hitem : ∀ k, m'.getItem k = m.getItem k) :
    ProcessInv { p with map := { p.map with storageMap := some m' } } contents := by
  obtain ⟨hsync, hnull', hsources, hstage⟩ := h.of_map hm
  refine ⟨h.messages, h.requests, .loaded m' rfl hsync (hnull hnull') hsources (hstage.imp id fun h => ?_)⟩
  refine h.congr rfl rfl rfl (funext fun k => ?_) rfl
  rw [StorageAreaMap.getItem_of_map hm]
  exact hitem k

theorem send_none {a : StorageAreaMap} : p.send (a, none) = { p with map := a } := by
  unfold WebProcess.send
  simp

theorem ProcessInv.setItem {n : Nat} {key value : WTFString} (h : ProcessInv p contents)
    (hs : p.setItem n key value = some p') : ProcessInv p' contents := by
  obtain ⟨m, hm, rfl⟩ := Option.map_eq_some_iff.1 hs
  unfold StorageAreaMap.setItem
  simp only
  obtain ⟨he, hself⟩ | ⟨he, hmap⟩ := StorageMap.setItem_map_one m key (some value)
  · rw [if_pos he, hself, send_none]
    exact h.same hm id fun _ => rfl
  · rw [if_neg (by rw [he]; exact Bool.false_ne_true), StorageMap.setItem_oldValue]
    have hnull : m.NonNull → (m.setItem 1 key (some value)).self.NonNull := fun hn =>
      StorageMap.nonNull_of_insert hn hmap
    split
    · rename_i hold
      rw [send_none]
      refine h.same hm hnull fun k => (StorageMap.getItem_of_insert hmap).trans ?_
      split
      · rename_i hk
        rw [hk, hold]
      · rfl
    · refine h.write hm ⟨Nat.succ_ne_zero n, rfl⟩ (fun k => rfl) hnull fun k => StorageMap.getItem_of_insert hmap

theorem ProcessInv.removeItem {n : Nat} {key : WTFString} (h : ProcessInv p contents)
    (hs : p.removeItem n key = some p') : ProcessInv p' contents := by
  obtain ⟨m, hm, rfl⟩ := Option.map_eq_some_iff.1 hs
  have hmap := StorageMap.removeItem_map_one m key
  have hnull : m.NonNull → (m.removeItem 1 key).self.NonNull := fun hn => StorageMap.nonNull_of_erase hn hmap
  unfold StorageAreaMap.removeItem
  simp only
  split
  · rename_i hold
    rw [send_none]
    refine h.same hm hnull fun k => (StorageMap.getItem_of_erase hmap).trans ?_
    split
    · rename_i hk
      rw [hk, hold]
    · rfl
  · exact h.write hm ⟨Nat.succ_ne_zero n, rfl⟩ (fun k => rfl) hnull fun k => StorageMap.getItem_of_erase hmap

/-- `clear`: the map starts over with a new seed. -/
theorem ProcessInv.clear {n : Nat} (h : ProcessInv p contents) (hs : p.sync = .idle) :
    ProcessInv (p.clear n) contents := by
  have hsources : ∀ r ∈ p.toManager, r.source ≠ 0 := by
    cases hm : p.map.storageMap with
    | none => exact fun r hr => ((h.of_unloaded hm hs).2.2 r hr).1
    | some m => exact (h.of_map hm).2.2.1
  refine ⟨fun message hm s hs => Nat.le_succ_of_le (h.messages message hm s hs), fun r hr => ?_, ?_⟩
  · rcases List.mem_append.1 hr with hr | hr
    · exact Nat.le_succ_of_le (h.requests r hr)
    · obtain rfl := List.mem_singleton.1 hr
      exact le_refl _
  · refine .loaded (.create p.map.quotaInBytes) rfl hs StorageMap.nonNull_create (fun r hr => ?_) (.inr ?_)
    · rcases List.mem_append.1 hr with hr | hr
      · exact hsources r hr
      · obtain rfl := List.mem_singleton.1 hr
        exact Nat.succ_ne_zero n
    · refine .clearing p.toManager [] (n + 1) rfl (Nat.succ_ne_zero n) rfl rfl
        (fun message hm s hs => Nat.lt_succ_of_le (h.messages message hm s hs))
        (fun r hr => ⟨hsources r hr, Nat.lt_succ_of_le (h.requests r hr)⟩) (fun r hr => absurd hr List.not_mem_nil) ?_
      intro k
      have hget : (p.clear n).map.getItem k = none := by
        change (StorageMap.create p.map.quotaInBytes).getItem k = none
        exact StorageMap.getItem_create
      change Replica.Agrees ((p.clear n).map.getItem k) 0 [] [] none
      rw [hget]
      exact Replica.Agrees.read

theorem ProcessInv.loadValues (h : ProcessInv p contents) (hsync : p.sync = .idle) (hs : p.loadValues = some p') :
    ProcessInv p' contents := by
  unfold WebProcess.loadValues at hs
  split at hs
  · rename_i hm
    obtain ⟨hreset, hmessages, hrequests⟩ := h.of_unloaded hm hsync
    cases hs
    refine ⟨h.messages, fun r hr => ?_, .waiting p.toManager hm rfl hreset hmessages rfl hrequests⟩
    rcases List.mem_append.1 hr with hr | hr
    · exact h.requests r hr
    · obtain rfl := List.mem_singleton.1 hr
      exact le_refl _
  · cases hs

theorem ProcessInv.didLoadValues {values : List (WTFString × MaybeString)} (h : ProcessInv p contents)
    (hs : p.didLoadValues values = some p') : ProcessInv p' contents := by
  unfold WebProcess.didLoadValues at hs
  cases h.stage with
  | unloaded hmap hsync =>
    rw [hsync] at hs
    cases hs
  | waiting before hmap hsync =>
    rw [hsync] at hs
    cases hs
  | loaded m hmap hsync =>
    rw [hsync] at hs
    cases hs
  | replied items before after hmap hsync hreset hrequests hnull heq hold hagree =>
    rw [hsync] at hs
    simp only [Option.ite_none_right_eq_some] at hs
    obtain ⟨hvalues, hs⟩ := hs
    cases hs
    have hitems : ((StorageMap.create p.map.quotaInBytes).importItems values).map = items :=
      StorageMap.map_importItems_create hvalues
    refine ⟨h.messages, h.requests, .loaded _ rfl rfl (fun k => ?_) (fun r hr => ?_) (hagree.imp (fun hmem => ?_) ?_)⟩
    · rw [hitems]
      exact hnull k
    · rw [hrequests] at hr
      cases hr
    · exact ⟨_, hmem, .inl rfl⟩
    · intro hagree
      refine .answered before after (.didGetValues p.map.currentSeed) heq (.inr ⟨rfl, hreset.clear, rfl⟩) hold
        (fun r hr => ?_) fun k => ?_
      · rw [hrequests] at hr
        cases hr
      · have hk := hagree k
        have hget : (p.map.didLoadValues values).getItem k = (items.lookup k).join := by
          rw [← hitems]
          rfl
        have hpending : (p.map.didLoadValues values).pending k = 0 := by
          change p.map.pendingValueChanges.count k = 0
          rw [hreset.changes, List.count_nil]
        rw [hget, hpending]
        change Replica.Agrees _ _ _ (writesTo k p.toManager) _
        rw [hrequests]
        exact hk

theorem ProcessInv.reset {messages : List Message} (h : ProcessInv p contents) (hsync : p.sync = .idle)
    (hsources : ∀ r ∈ p.toManager, r.source ≠ 0) (hsub : messages ⊆ p.toMap) :
    ProcessInv { p with map := p.map.resetValues, toMap := messages } contents := by
  refine ⟨fun message hm s hs => Nat.le_succ_of_le (h.messages message (hsub hm) s hs),
    fun r hr => Nat.le_succ_of_le (h.requests r hr), .unloaded rfl hsync ⟨rfl, rfl, rfl⟩ ?_ ?_⟩
  · exact fun message hm s hs => Nat.lt_succ_of_le (h.messages message (hsub hm) s hs)
  · exact fun r hr => ⟨hsources r hr, Nat.lt_succ_of_le (h.requests r hr)⟩

theorem didReceiveMessage_unloaded {a : StorageAreaMap} {message : Message} (hm : a.storageMap = none) (hreset : a.IsReset)
    (hold : message.IsOld a.currentSeed) (hr : ¬a.Resets message) (ht : a.TakesClear message) :
    a.didReceiveMessage message = a := by
  cases hs : message.seed with
  | some s => exact StorageAreaMap.didReceiveMessage_of_isOld hs hold
  | none =>
    cases message with
    | didGetValues => cases hs
    | didSetItem => cases hs
    | didRemoveItem => cases hs
    | didClear => cases hs
    | clearCache => exact absurd (.inl rfl) hr
    | dispatchStorageEvent source key newValue =>
      unfold StorageAreaMap.didReceiveMessage StorageAreaMap.dispatchStorageEvent
      simp only
      split
      · rename_i hzero
        subst hzero
        cases key with
        | none =>
          obtain ht | ht | ⟨ht, -⟩ := ht
          · exact absurd (hreset.clear.symm.trans ht) Bool.false_ne_true
          · exact absurd (hreset.values.symm.trans ht) Bool.false_ne_true
          · exact absurd hm ht
        | some key =>
          unfold StorageAreaMap.applyChange
          simp only [hm]
          split <;> rfl
      · rfl

/-- **A message is delivered.** -/
theorem ProcessInv.deliver {message : Message} {messages : List Message} (h : ProcessInv p contents)
    (hsync : p.sync = .idle) (hp : p.toMap = message :: messages) (ht : p.map.TakesClear message) :
    ProcessInv { p with map := p.map.didReceiveMessage message, toMap := messages } contents := by
  have hmem : message ∈ p.toMap := hp ▸ List.mem_cons_self ..
  have hsub : messages ⊆ p.toMap := hp ▸ List.subset_cons_self ..
  cases hm : p.map.storageMap with
  | none =>
    obtain ⟨hreset, hmessages, hrequests⟩ := h.of_unloaded hm hsync
    by_cases hr : p.map.Resets message
    · rw [StorageAreaMap.didReceiveMessage_of_resets hr]
      exact h.reset hsync (fun r hr => (hrequests r hr).1) hsub
    · rw [didReceiveMessage_unloaded hm hreset (hmessages message hmem) hr ht]
      exact ⟨fun message hm => h.messages message (hsub hm), h.requests,
        .unloaded hm hsync hreset (fun message hm => hmessages message (hsub hm)) hrequests⟩
  | some m =>
    obtain ⟨-, hnull, hsources, hstage⟩ := h.of_map hm
    by_cases hr : p.map.Resets message
    · rw [StorageAreaMap.didReceiveMessage_of_resets hr]
      exact h.reset hsync hsources hsub
    · obtain ⟨⟨m', hm', hnull'⟩, hseed⟩ := StorageAreaMap.didReceiveMessage_loaded hm hnull hr ht
      refine ⟨fun message hm => ?_, ?_, .loaded m' hm' hsync hnull' hsources ?_⟩
      · rw [hseed]
        exact h.messages message (hsub hm)
      · rw [hseed]
        exact h.requests
      · rcases hstage with ⟨other, hother, hreset⟩ | hphase
        · rw [hp] at hother
          rcases List.mem_cons.1 hother with rfl | hother
          · exact absurd hreset hr
          · refine .inl ⟨other, hother, ?_⟩
            unfold StorageAreaMap.Resets
            rwa [hseed]
        · rw [hp] at hphase
          exact .inr (hphase.deliver hm hr ht hseed)

end Process

namespace LocalStorage

variable {s t : LocalStorage} {op : LocalStorageOp}

/-! ## What holds of the area and the processes -/

/-- A message that is delivered is no clear that is taken wrongly. -/
def ClearSafe (s : LocalStorage) : LocalStorageOp → Prop
  | .deliver i => ∀ p ∈ s.processes[i]?, ∀ message ∈ p.toMap.head?, p.map.TakesClear message
  | _ => True

structure LocalStorageInv (s : LocalStorage) : Prop where
  nonNull : s.area.storageMap.NonNull
  processes : ∀ p ∈ s.processes, ProcessInv p s.area.contents

theorem localStorageInv_init {quota : UInt32} {items : List (WTFString × WTFString)} {quotas : List UInt32} :
    LocalStorageInv (init quota items quotas) := by
  refine ⟨StorageMap.nonNull_importItems StorageMap.nonNull_create, fun p hp => ?_⟩
  obtain ⟨q, -, rfl⟩ := List.mem_map.1 hp
  exact ⟨fun message hm => absurd hm List.not_mem_nil, fun r hr => absurd hr List.not_mem_nil,
    .unloaded rfl rfl ⟨rfl, rfl, rfl⟩ (fun message hm => absurd hm List.not_mem_nil)
      fun r hr => absurd hr List.not_mem_nil⟩

theorem LocalStorageInv.set {i : Nat} {p' : WebProcess} (h : LocalStorageInv s) (hp : ProcessInv p' s.area.contents) :
    LocalStorageInv { s with processes := s.processes.set i p' } :=
  ⟨h.nonNull, fun _ hmem => (List.mem_or_eq_of_mem_set hmem).elim (h.processes _) fun he => he ▸ hp⟩

theorem inProcess_inv {i : Nat} {f : WebProcess → Option WebProcess} (h : LocalStorageInv s)
    (hs : s.inProcess i f = some t)
    (hf : ∀ p p', s.processes[i]? = some p → p.sync = .idle → ProcessInv p s.area.contents → f p = some p' →
      ProcessInv p' s.area.contents) : LocalStorageInv t := by
  unfold inProcess at hs
  simp only [Option.bind_eq_bind, Option.bind_eq_some_iff, Option.ite_none_right_eq_some, Option.map_eq_some_iff] at hs
  obtain ⟨p, hp, hsync, p', hp', rfl⟩ := hs
  exact h.set (hf p p' hp hsync (h.processes p (List.mem_of_getElem? hp)) hp')

/-- The UI process handles a request. -/
theorem handle_inv {i : Nat} (h : LocalStorageInv s) (hs : s.handle i = some t) : LocalStorageInv t := by
  unfold handle at hs
  simp only [Option.bind_eq_bind, Option.bind_eq_some_iff, Option.pure_def, Option.some.injEq] at hs
  obtain ⟨p, hp, r, hr, rfl⟩ := hs
  obtain ⟨ha, hnull⟩ := StorageArea.didReceiveMessage_applied (r := r) h.nonNull
  refine ⟨hnull, fun p' hp' => ?_⟩
  obtain ⟨j, hj, rfl⟩ := List.mem_mapIdx.1 hp'
  have hpj := h.processes _ (List.getElem_mem hj)
  by_cases hji : j = i
  · subst hji
    obtain rfl : p = s.processes[j] := Option.some.inj (hp.symm.trans (List.getElem?_eq_getElem hj))
    obtain ⟨rest, hrest⟩ : ∃ rest, s.processes[j].toManager = r :: rest := by
      cases hm : s.processes[j].toManager with
      | nil =>
        rw [hm] at hr
        cases hr
      | cons r' rest =>
        rw [hm] at hr
        cases hr
        exact ⟨rest, rfl⟩
    rw [beq_self_eq_true]
    exact hpj.own h.nonNull hrest
  · rw [beq_eq_false_iff_ne.2 hji]
    exact hpj.other ha

/-- **Every step keeps what holds of the area and the processes.** -/
theorem step_localStorageInv (h : LocalStorageInv s) (hsafe : ClearSafe s op) (hs : s.step op = some t) :
    LocalStorageInv t := by
  cases op with
  | loadValues i => exact inProcess_inv h hs fun p p' _ hsync hp hp' => hp.loadValues hsync hp'
  | setItem i n key value => exact inProcess_inv h hs fun p p' _ _ hp hp' => hp.setItem hp'
  | removeItem i n key => exact inProcess_inv h hs fun p p' _ _ hp hp' => hp.removeItem hp'
  | clear i n =>
    refine inProcess_inv h hs fun p p' _ hsync hp hp' => ?_
    cases hp'
    exact hp.clear hsync
  | handle i => exact handle_inv h hs
  | deleteEntries =>
    cases hs
    refine ⟨StorageMap.nonNull_create, fun p hp => ?_⟩
    obtain ⟨p, hmem, rfl⟩ := List.mem_map.1 hp
    exact (h.processes p hmem).cleared
  | didLoadValues i values =>
    rw [step] at hs
    simp only [Option.bind_eq_bind, Option.bind_eq_some_iff, Option.pure_def, Option.some.injEq] at hs
    obtain ⟨p, hp, p', hp', rfl⟩ := hs
    exact h.set ((h.processes p (List.mem_of_getElem? hp)).didLoadValues hp')
  | deliver i =>
    refine inProcess_inv h hs fun p p' hpi hsync hp hp' => ?_
    unfold WebProcess.deliver at hp'
    cases hm : p.toMap with
    | nil =>
      rw [hm] at hp'
      cases hp'
    | cons message rest =>
      rw [hm] at hp'
      cases hp'
      exact hp.deliver hsync hm (hsafe p hpi message (by rw [hm]; rfl))

/-! ## Convergence -/

/-- No message is in flight. -/
def Quiescent (s : LocalStorage) : Prop := ∀ p ∈ s.processes, p.toManager = [] ∧ p.toMap = []

/-- Every loaded map holds the items of the area, and nothing is pending. -/
def Converged (s : LocalStorage) : Prop := ∀ p ∈ s.processes,
  (∀ m ∈ p.map.storageMap, m.map = s.area.storageMap.map) ∧ p.map.pendingValueChanges = [] ∧
    p.map.hasPendingClear = false

/-- **A process with nothing in flight** holds the items of the area. -/
theorem ProcessInv.converged {p : WebProcess} {area : StorageArea} (h : ProcessInv p area.contents)
    (hnull : area.storageMap.NonNull) (hrequests : p.toManager = []) (hmessages : p.toMap = []) :
    (∀ m ∈ p.map.storageMap, m.map = area.storageMap.map) ∧ p.map.pendingValueChanges = [] ∧
      p.map.hasPendingClear = false := by
  cases h.stage with
  | unloaded hmap hsync hreset =>
    exact ⟨fun m hm => absurd (hmap.symm.trans hm) (by simp), hreset.changes, hreset.clear⟩
  | waiting before hmap hsync hreset hold heq =>
    rw [hrequests] at heq
    exact absurd heq (by simp)
  | replied items before after hmap hsync hreset hrequests' hnull' heq =>
    rw [hmessages] at heq
    exact absurd heq (by simp)
  | loaded m hmap hsync hnull' hsources hstage =>
    obtain ⟨message, hm, -⟩ | hphase := hstage
    · rw [hmessages] at hm
      exact absurd hm List.not_mem_nil
    · rw [hmessages, hrequests] at hphase
      cases hphase with
      | answered before after answer heq => exact absurd heq (by simp)
      | clearing before after source heq => exact absurd heq (by simp)
      | settled hclear hvalues hwrites hagree =>
        refine ⟨fun m' hm' => ?_, ?_, hclear⟩
        · obtain rfl : m = m' := Option.some.inj (hmap.symm.trans hm')
          refine StorageMap.map_eq_of_getItem hnull' hnull fun k => ?_
          rw [← StorageAreaMap.getItem_of_map hmap]
          exact (hagree k).quiescent.1
        · exact List.eq_nil_iff_forall_not_mem.2 fun k hk => absurd (hagree k).quiescent.2 (List.count_pos_iff.2 hk).ne'

instance : ∀ op, Decidable (ClearSafe s op)
  | .deliver i => inferInstanceAs (Decidable (∀ p ∈ s.processes[i]?, ∀ message ∈ p.toMap.head?, p.map.TakesClear message))
  | .loadValues _ | .didLoadValues .. | .setItem .. | .removeItem .. | .clear .. | .handle _ | .deleteEntries =>
    inferInstanceAs (Decidable True)

instance : Decidable (Quiescent s) :=
  inferInstanceAs (Decidable (∀ p ∈ s.processes, p.toManager = [] ∧ p.toMap = []))

instance : Decidable (Converged s) := inferInstanceAs (Decidable (∀ p ∈ s.processes,
  (∀ m ∈ p.map.storageMap, m.map = s.area.storageMap.map) ∧ p.map.pendingValueChanges = [] ∧
    p.map.hasPendingClear = false))

end LocalStorage

end WebKit.WebKit2
