import PvfsProxy.Sfqd

/-!
# Slots and locks of SFQD

The runs of the framework around SFQD: requests arrive, are enqueued and
either dispatched at once or locked; a completed request hands its slot to
the next queued one. `SfqdRun` is the state of such a run with its history:
what was enqueued, what `sfqd_dequeue` returned, and which of the returned
requests are still outstanding.

`Slots` is the one invariant all the accounting follows from. It is proved
preserved by an arrival and by a completion, and `SfqdRun.Reachable.slots`
carries it over every interleaving. The delicate field is `unsorted`: an
enqueue clears `sorted`, and sorting an empty list would lose the list.
-/

namespace PvfsProxy

open StableSort

structure SfqdRun where
  g : Globals Sfqd
  mem : Mem SfqdQueueItem
  /-- dispatched and not yet completed -/
  outstanding : List SfqdItem
  enqueued : List SfqdItem
  returned : List SfqdItem

namespace SfqdRun

inductive Event where
  | arrive (a : Arrival SfqdQueueItem)
  | complete (item : SfqdItem) (completeSize : Int) (lastAppIndex : Nat)

/-- `check_request` with the request of an arrival. -/
def arrive (myShare : Int → Int → Int → Int → Int → Int) (s : SfqdRun) (a : Arrival SfqdQueueItem) :
    Except Fault SfqdRun := do
  let (g₁, _) ← sfqdEnqueue a.pool a.si a.pi s.g
  let (g, mem, item) ← admitRequest (schSfqd myShare) a.pool a.si a.pi .newIo
    a.pi.currentDataSize s.g (s.mem.alloc a.rs a.newRs)
  return {
    g, mem
    outstanding := s.outstanding ++ item.toList
    -- what the enqueue added to the queue
    enqueued := s.enqueued ++ g₁.sched.queued.drop s.g.sched.queued.length
    returned := s.returned ++ item.toList }

/-- The completion of an outstanding request. -/
def complete (myShare : Int → Int → Int → Int → Int → Int) (s : SfqdRun) (item : SfqdItem)
    (completeSize : Int) (lastAppIndex : Nat) : Except Fault SfqdRun := do
  let (g, mem, next) ← dispatchNext (schSfqd myShare)
    { event := .completeIo, completeSize, lastAppIndex, item := some item } s.g s.mem
  return {
    g, mem
    outstanding := s.outstanding.erase item ++ next.toList
    enqueued := s.enqueued
    returned := s.returned ++ next.toList }

def step (myShare : Int → Int → Int → Int → Int → Int) (s : SfqdRun) :
    Event → Except Fault SfqdRun
  | .arrive a => s.arrive myShare a
  | .complete item size app => s.complete myShare item size app

/-- A request state is allocated fresh and unlocked; a request completes
while it is outstanding. -/
def Allowed (s : SfqdRun) : Event → Prop
  | .arrive a => s.mem a.rs = none ∧ a.newRs.locked = false
  | .complete item _ _ => item ∈ s.outstanding

instance (s : SfqdRun) (e : Event) : Decidable (s.Allowed e) :=
  match e with
  | .arrive a => inferInstanceAs (Decidable (s.mem a.rs = none ∧ a.newRs.locked = false))
  | .complete item _ _ => inferInstanceAs (Decidable (item ∈ s.outstanding))

def init (depth : Int) (appStats : Nat → AppStatistics) (mem : Mem SfqdQueueItem) : SfqdRun where
  g := { sched := sfqdInit depth, appStats, totalThroughput := 0 }
  mem := mem
  outstanding := []
  enqueued := []
  returned := []

def queued (s : SfqdRun) : List SfqdItem := s.g.sched.queued

end SfqdRun

/-! ## What a step can do -/

section calls

variable {myShare : Int → Int → Int → Int → Int → Int} {pool : Nat → Endpoint}
  {si : SocketInfo} {pi : PvfsInfo} {event : DequeueEvent} {size : Int}
  {r : DequeueReason SfqdQueueItem} {g g₁ : Globals Sfqd} {mem : Mem SfqdQueueItem}

/-- The item found a free slot and is handed out again, or it waits. -/
theorem admitRequest_cases {g' : Globals Sfqd} {mem' : Mem SfqdQueueItem} {item : Option SfqdItem}
    (h : admitRequest (schSfqd myShare) pool si pi event size g mem = .ok (g', mem', item)) :
    ∃ g₁, (sfqdEnqueue pool si pi g = .ok (g₁, true)
        ∧ sfqdDequeue { event, completeSize := size, lastAppIndex := si.appIndex, item := none } g₁
          = (g', item)
        ∧ mem' = mem.modify si.rs fun rs => { rs with currentItem := item, locked := false })
      ∨ (sfqdEnqueue pool si pi g = .ok (g₁, false) ∧ g' = g₁ ∧ item = none
        ∧ mem' = mem.modify si.rs fun rs => { rs with locked := true }) := by
  obtain ⟨out, hout, hcases⟩ := admitRequest_ok rfl h
  obtain ⟨⟨g₁, b⟩, henq, hout⟩ := Machine.bind_eq_ok.mp hout
  obtain rfl := Machine.pure_eq_ok.mp hout
  refine ⟨g₁, ?_⟩
  obtain ⟨hb, deq, hdeq, rfl, rfl, rfl⟩ | ⟨hb, rfl, rfl, rfl⟩ := hcases
  · obtain rfl := Except.ok.inj hdeq
    exact .inl ⟨hb ▸ henq, rfl, rfl⟩
  · exact .inr ⟨hb ▸ henq, rfl, rfl, rfl⟩

theorem sfqdDequeue_depth (r : DequeueReason SfqdQueueItem) (g : Globals Sfqd) :
    (sfqdDequeue r g).1.sched.depth = g.sched.depth := by
  obtain ⟨_, _, hs⟩ | ⟨_, _, _, _, hs⟩ := sfqdDequeue_cases r g <;> rw [hs]

theorem dispatchNext_globals {g' : Globals Sfqd} {mem' : Mem SfqdQueueItem}
    {next : Option SfqdItem}
    (h : dispatchNext (schSfqd myShare) r g mem = .ok (g', mem', next)) :
    g' = (sfqdDequeue r g).1 ∧ next = (sfqdDequeue r g).2 := by
  obtain ⟨out, hout, rfl, rfl, -⟩ := dispatchNext_ok h
  obtain rfl := Except.ok.inj hout
  exact ⟨rfl, rfl⟩

end calls

namespace SfqdRun

/-- The state after an arrival that found a free slot. -/
def dispatched (s : SfqdRun) (a : Arrival SfqdQueueItem) (g₁ : Globals Sfqd) : SfqdRun :=
  let deq := sfqdDequeue
    { event := .newIo, completeSize := a.pi.currentDataSize,
      lastAppIndex := a.si.appIndex, item := none } g₁
  { g := deq.1
    mem := (s.mem.alloc a.rs a.newRs).modify a.rs fun rs =>
      { rs with currentItem := deq.2, locked := false }
    outstanding := s.outstanding ++ deq.2.toList
    enqueued := s.enqueued ++ g₁.sched.queued.drop s.g.sched.queued.length
    returned := s.returned ++ deq.2.toList }

/-- The state after an arrival that has to wait. -/
def delayed (s : SfqdRun) (a : Arrival SfqdQueueItem) (g₁ : Globals Sfqd) : SfqdRun where
  g := g₁
  mem := (s.mem.alloc a.rs a.newRs).modify a.rs fun rs => { rs with locked := true }
  outstanding := s.outstanding
  enqueued := s.enqueued ++ g₁.sched.queued.drop s.g.sched.queued.length
  returned := s.returned

theorem arrive_cases {myShare : Int → Int → Int → Int → Int → Int} {s s' : SfqdRun}
    {a : Arrival SfqdQueueItem} (h : s.arrive myShare a = .ok s') :
    ∃ g₁, (sfqdEnqueue a.pool a.si a.pi s.g = .ok (g₁, true) ∧ s' = s.dispatched a g₁)
      ∨ (sfqdEnqueue a.pool a.si a.pi s.g = .ok (g₁, false) ∧ s' = s.delayed a g₁) := by
  obtain ⟨⟨g₁, b⟩, henq, h⟩ := Machine.bind_eq_ok.mp h
  obtain ⟨⟨g, mem, item⟩, hadmit, h⟩ := Machine.bind_eq_ok.mp h
  obtain rfl := Machine.pure_eq_ok.mp h
  obtain ⟨g₂, ⟨henq', hdeq, rfl⟩ | ⟨henq', rfl, rfl, rfl⟩⟩ := admitRequest_cases hadmit
  · obtain ⟨rfl, rfl⟩ := Prod.mk.inj (Except.ok.inj (henq.symm.trans henq'))
    obtain ⟨rfl, rfl⟩ := Prod.mk.inj hdeq
    exact ⟨g₁, .inl ⟨henq, rfl⟩⟩
  · obtain ⟨rfl, rfl⟩ := Prod.mk.inj (Except.ok.inj (henq.symm.trans henq'))
    refine ⟨g₁, .inr ⟨henq, ?_⟩⟩
    simp [delayed, Arrival.si]

end SfqdRun

/-! ## The invariant -/

/-- The accounting between the depth counter, the queue and the locks. -/
structure Slots (s : SfqdRun) : Prop where
  queue : s.g.sched.llistQueue = some s.queued
  depth : s.g.sched.currentDepth = s.outstanding.length
  bound : s.g.sched.currentDepth ≤ s.g.sched.depth
  full : s.queued ≠ [] → s.g.sched.currentDepth = s.g.sched.depth
  count : ∀ app, s.g.sched.listQueueCount app
    = s.queued.countP (fun it => it.embedded.appIndex == app)
  locked : ∀ p rs, s.mem p = some rs →
    (rs.locked = true ↔ ∃ it ∈ s.queued, it.socketData.rs = p)
  live : ∀ it ∈ s.queued, ∃ rs, s.mem it.socketData.rs = some rs
  owners : (s.queued.map (·.socketData.rs)).Nodup
  history : (s.returned ++ s.queued).Perm s.enqueued
  fresh : ∀ it ∈ s.enqueued, it.itemId < s.g.sched.itemId
  ids : (s.enqueued.map (·.itemId)).Nodup
  dispatched : s.outstanding.Sublist s.returned
  unsorted : s.g.sched.sorted = false → s.queued = [] → s.outstanding = []

namespace Slots

variable {s : SfqdRun}

theorem init {depth : Int} {appStats : Nat → AppStatistics} {mem : Mem SfqdQueueItem}
    (hd : 0 ≤ depth) (hmem : ∀ p rs, mem p = some rs → rs.locked = false) :
    Slots (SfqdRun.init depth appStats mem) where
  queue := rfl
  depth := rfl
  bound := hd
  full h := absurd rfl h
  count _ := rfl
  locked p rs h := by simp [hmem p rs h, SfqdRun.queued, SfqdRun.init, sfqdInit, Sfqd.queued,
    pintLlistNew]
  live it h := by simp [SfqdRun.queued, SfqdRun.init, sfqdInit, Sfqd.queued, pintLlistNew] at h
  owners := .nil
  history := .nil
  fresh it h := by simp [SfqdRun.init] at h
  ids := .nil
  dispatched := .slnil
  unsorted _ _ := rfl

/-- Two enqueued items with the same number are the same item. -/
theorem nodup (h : Slots s) : s.enqueued.Nodup := h.ids.of_map _

/-- A free slot means an empty queue. -/
theorem queue_nil (h : Slots s) (hd : s.g.sched.currentDepth < s.g.sched.depth) :
    s.queued = [] := by
  by_contra hne
  exact absurd (h.full hne) (by omega)

theorem fresh_append (h : Slots s) {it : SfqdItem} (hid : it.itemId = s.g.sched.itemId) :
    ∀ it' ∈ s.enqueued ++ [it], it'.itemId < s.g.sched.itemId + 1 := by
  intro it' hit'
  rcases List.mem_append.mp hit' with hold | hnew
  · have := h.fresh it' hold
    omega
  · rw [List.mem_singleton.mp hnew, hid]
    omega

theorem ids_append (h : Slots s) {it : SfqdItem} (hid : it.itemId = s.g.sched.itemId) :
    ((s.enqueued ++ [it]).map (·.itemId)).Nodup := by
  rw [List.map_append, List.nodup_append]
  refine ⟨h.ids, by simp, ?_⟩
  simp only [List.map_cons, List.map_nil, List.mem_map, List.mem_singleton]
  rintro _ ⟨it', hit', rfl⟩ _ rfl
  have := h.fresh it' hit'
  omega

/-- An enqueue that returns 1 met an empty queue: the item it appended is the
only one, so any dequeue returns it. -/
theorem own_item (h : Slots s) {pool : Nat → Endpoint} {si : SocketInfo} {pi : PvfsInfo}
    {g₁ : Globals Sfqd} (henq : sfqdEnqueue pool si pi s.g = .ok (g₁, true)) :
    s.queued = [] ∧ s.g.sched.currentDepth < s.g.sched.depth
      ∧ ∃ it, it.itemId = s.g.sched.itemId ∧ it.socketData = si
        ∧ g₁.sched.queued = [it]
        ∧ ∀ r, (sfqdDequeue r g₁).2 = some it
          ∧ ∃ finishTag, (sfqdDequeue r g₁).1.sched =
              { s.g.sched with
                sorted := true
                currentDepth := s.g.sched.currentDepth + 1
                virtualTime := it.embedded.startTag
                lastFinishTags := Function.update s.g.sched.lastFinishTags
                  it.embedded.appIndex finishTag
                itemId := s.g.sched.itemId + 1
                llistQueue := some [] } := by
  obtain ⟨q, finishTag, streamId, hq, -, hb, hs⟩ := sfqdEnqueue_ok henq
  have hroom : s.g.sched.currentDepth < s.g.sched.depth := by simpa using hb.symm
  have hnil := h.queue_nil hroom
  obtain rfl : q = [] := Option.some.inj (by rw [← hq, h.queue, hnil])
  have hone : g₁.sched.queued = [sfqdNewItem pool si pi
      (s.g.sched.nextStart (pool si.requestSocket).appIndex) finishTag streamId
      s.g.sched.itemId] := by
    simp [Sfqd.queued, hs]
  refine ⟨hnil, hroom, _, rfl, rfl, hone, fun r => ?_⟩
  obtain ⟨hret, hdeq⟩ := sfqdDequeue_singleton r hone
  exact ⟨hret, finishTag, by rw [hdeq]; simp [hs, sfqdNewItem]⟩

/-- The request that finds a free slot is the one dispatched. -/
theorem dispatched_step (h : Slots s) {a : Arrival SfqdQueueItem}
    {g₁ : Globals Sfqd} (henq : sfqdEnqueue a.pool a.si a.pi s.g = .ok (g₁, true)) :
    Slots (s.dispatched a g₁) := by
  obtain ⟨hnil, hroom, it, hid, -, hone, hown⟩ := h.own_item henq
  obtain ⟨hret, finishTag, hdeq⟩ := hown
    { event := .newIo, completeSize := a.pi.currentDataSize,
      lastAppIndex := a.si.appIndex, item := none }
  have hqueued : (s.dispatched a g₁).queued = [] := by
    simp [SfqdRun.queued, SfqdRun.dispatched, hdeq, Sfqd.queued]
  have henqueued : (s.dispatched a g₁).enqueued = s.enqueued ++ [it] := by
    have : s.g.sched.queued = [] := hnil
    simp [SfqdRun.dispatched, hone, this]
  have hreturned : (s.dispatched a g₁).returned = s.returned ++ [it] := by
    simp [SfqdRun.dispatched, hret]
  have houtstanding : (s.dispatched a g₁).outstanding = s.outstanding ++ [it] := by
    simp [SfqdRun.dispatched, hret]
  have hsched : (s.dispatched a g₁).g.sched =
      { s.g.sched with
        sorted := true
        currentDepth := s.g.sched.currentDepth + 1
        virtualTime := it.embedded.startTag
        lastFinishTags := Function.update s.g.sched.lastFinishTags
          it.embedded.appIndex finishTag
        itemId := s.g.sched.itemId + 1
        llistQueue := some [] } := by
    simp only [SfqdRun.dispatched, hdeq]
  have hmem : (s.dispatched a g₁).mem
      = s.mem.alloc a.rs { a.newRs with currentItem := some it, locked := false } := by
    simp only [SfqdRun.dispatched, Mem.alloc_modify, hret]
  exact
    { queue := by rw [hsched, hqueued]
      depth := by simp [hsched, houtstanding, h.depth]
      bound := by simp only [hsched]; omega
      full := fun hne => absurd hqueued hne
      count := fun app => by simp [hsched, hqueued, h.count, hnil]
      locked := fun p rs hp => by
        rw [hmem] at hp
        simp only [hqueued, List.not_mem_nil, false_and, exists_false, iff_false,
          Bool.not_eq_true]
        by_cases hpa : p = a.rs
        · subst hpa
          rw [Mem.alloc_self] at hp
          rw [← Option.some.inj hp]
        · rw [Mem.alloc_of_ne _ hpa] at hp
          simpa [hnil] using h.locked p rs hp
      live := fun it' h' => by simp [hqueued] at h'
      owners := by simp [hqueued]
      history := by
        have hhist := h.history
        rw [hnil, List.append_nil] at hhist
        rw [hreturned, hqueued, henqueued, List.append_nil]
        exact hhist.append_right _
      fresh := by rw [hsched, henqueued]; exact h.fresh_append hid
      ids := by rw [henqueued]; exact h.ids_append hid
      dispatched := by
        rw [houtstanding, hreturned]
        exact h.dispatched.append (.refl _)
      unsorted := fun hf _ => by simp [hsched] at hf }

/-- The request that finds no free slot waits, locked. -/
theorem delayed_step (h : Slots s) {a : Arrival SfqdQueueItem} (hfresh : s.mem a.rs = none)
    {g₁ : Globals Sfqd} (henq : sfqdEnqueue a.pool a.si a.pi s.g = .ok (g₁, false)) :
    Slots (s.delayed a g₁) := by
  obtain ⟨q, finishTag, streamId, hq, -, hb, hs⟩ := sfqdEnqueue_ok henq
  have hfull : s.g.sched.currentDepth = s.g.sched.depth := by
    have hroom : ¬ s.g.sched.currentDepth < s.g.sched.depth := by simpa using hb.symm
    have := h.bound
    omega
  obtain rfl : q = s.queued := Option.some.inj (by rw [← hq, h.queue])
  generalize hit : sfqdNewItem a.pool a.si a.pi _ finishTag streamId s.g.sched.itemId = it at hs
  have happ : it.embedded.appIndex = (a.pool a.si.requestSocket).appIndex := by rw [← hit]; rfl
  have hid : it.itemId = s.g.sched.itemId := by rw [← hit]; rfl
  have hrs : it.socketData.rs = a.rs := by rw [← hit]; rfl
  have hsched : (s.delayed a g₁).g.sched =
      { s.g.sched with
        sorted := false
        lastFinishTags := Function.update s.g.sched.lastFinishTags
          it.embedded.appIndex finishTag
        listQueueCount := Function.update s.g.sched.listQueueCount
          it.embedded.appIndex (s.g.sched.listQueueCount it.embedded.appIndex + 1)
        itemId := s.g.sched.itemId + 1
        llistQueue := some (s.queued ++ [it]) } := by
    simp [SfqdRun.delayed, hs, happ]
  have hqueued : (s.delayed a g₁).queued = s.queued ++ [it] := by
    simp [SfqdRun.queued, hsched, Sfqd.queued]
  have henqueued : (s.delayed a g₁).enqueued = s.enqueued ++ [it] := by
    simp [SfqdRun.delayed, hs, Sfqd.queued, SfqdRun.queued]
  have hmem : (s.delayed a g₁).mem = s.mem.alloc a.rs { a.newRs with locked := true } := by
    simp only [SfqdRun.delayed, Mem.alloc_modify]
  have hlive : ∀ it' ∈ s.queued, it'.socketData.rs ≠ a.rs := fun it' h' heq => by
    obtain ⟨rs, hrs⟩ := h.live it' h'
    rw [heq, hfresh] at hrs
    cases hrs
  exact
    { queue := by rw [hsched, hqueued]
      depth := by simp only [hsched]; exact h.depth
      bound := by simp only [hsched]; exact h.bound
      full := fun _ => by simp only [hsched]; exact hfull
      count := fun app => by
        rw [hqueued, List.countP_append, List.countP_singleton]
        simp only [hsched]
        by_cases heq : app = it.embedded.appIndex
        · subst heq
          simp [h.count]
        · simp [heq, Ne.symm heq, h.count]
      locked := fun p rs hp => by
        rw [hmem] at hp
        rw [hqueued]
        by_cases hpa : p = a.rs
        · subst hpa
          rw [Mem.alloc_self] at hp
          rw [← Option.some.inj hp]
          simp only [true_iff]
          exact ⟨it, by simp, hrs⟩
        · rw [Mem.alloc_of_ne _ hpa] at hp
          rw [h.locked p rs hp]
          simp [or_and_right, exists_or, hrs, Ne.symm hpa]
      live := fun it' h' => by
        rw [hqueued] at h'
        rw [hmem]
        rcases List.mem_append.mp h' with hold | hnew
        · rw [Mem.alloc_of_ne _ (hlive it' hold)]
          exact h.live it' hold
        · rw [List.mem_singleton.mp hnew, hrs, Mem.alloc_self]
          exact ⟨_, rfl⟩
      owners := by
        rw [hqueued, List.map_append, List.nodup_append]
        refine ⟨h.owners, by simp, ?_⟩
        simp only [List.map_cons, List.map_nil, List.mem_map, List.mem_singleton]
        rintro _ ⟨it', hit', rfl⟩ _ rfl
        rw [hrs]
        exact hlive it' hit'
      history := by
        rw [hqueued, henqueued, ← List.append_assoc]
        exact h.history.append_right _
      fresh := by rw [hsched, henqueued]; exact h.fresh_append hid
      ids := by rw [henqueued]; exact h.ids_append hid
      dispatched := h.dispatched
      unsorted := fun _ hnil => by simp [hqueued] at hnil }

/-- Every queued item's request is locked, as the framework asserts. -/
theorem queued_locked (h : Slots s) {it : SfqdItem} (hit : it ∈ s.queued) :
    ∃ rs, s.mem it.socketData.rs = some rs ∧ rs.locked = true := by
  obtain ⟨rs, hrs⟩ := h.live it hit
  exact ⟨rs, hrs, (h.locked _ rs hrs).mpr ⟨it, hit, rfl⟩⟩

/-- A completion with an empty queue gives the slot back. -/
theorem idle_step (h : Slots s) {item : SfqdItem} (hitem : item ∈ s.outstanding)
    {r : DequeueReason SfqdQueueItem} (hnil : s.queued = [])
    (hs : (sfqdDequeue r s.g).1.sched =
      { s.g.sched with
        sorted := true
        currentDepth := s.g.sched.currentDepth - 1
        llistQueue := if s.g.sched.sorted then s.g.sched.llistQueue else none }) :
    Slots { s with g := (sfqdDequeue r s.g).1, outstanding := s.outstanding.erase item } := by
  have hsorted : s.g.sched.sorted = true := by
    by_contra hf
    rw [h.unsorted (by simpa using hf) hnil] at hitem
    cases hitem
  have hqueue : (sfqdDequeue r s.g).1.sched.llistQueue = some [] := by
    rw [hs]
    simp [hsorted, h.queue, hnil]
  have hqueued : SfqdRun.queued
      { s with g := (sfqdDequeue r s.g).1, outstanding := s.outstanding.erase item } = [] := by
    simp [SfqdRun.queued, Sfqd.queued, hqueue]
  have hpos := List.length_pos_of_mem hitem
  exact
    { queue := by rw [hqueued, ← hqueue]
      depth := by
        simp only [hs, h.depth, List.length_erase_of_mem hitem]
        omega
      bound := by
        have := h.bound
        simp only [hs]
        omega
      full := fun hne => absurd hqueued hne
      count := fun app => by
        rw [hqueued]
        simp [hs, h.count, hnil]
      locked := fun p rs hp => by
        rw [hqueued]
        simpa [hnil] using h.locked p rs hp
      live := fun it' h' => by simp [hqueued] at h'
      owners := by simp [hqueued]
      history := by
        have hhist := h.history
        rw [hnil] at hhist
        rw [hqueued]
        exact hhist
      fresh := by simp only [hs]; exact h.fresh
      ids := h.ids
      dispatched := (List.erase_sublist ..).trans h.dispatched
      unsorted := fun hf _ => by simp [hs] at hf }

/-- A completion hands the slot to the head of the queue and unlocks it. -/
theorem next_step (h : Slots s) {item it : SfqdItem} {rest : List SfqdItem}
    (hitem : item ∈ s.outstanding) {r : DequeueReason SfqdQueueItem}
    (hperm : (it :: rest).Perm s.queued)
    (hs : (sfqdDequeue r s.g).1.sched =
      { s.g.sched with
        sorted := true
        virtualTime := it.embedded.startTag
        listQueueCount := Function.update s.g.sched.listQueueCount
          it.embedded.appIndex (s.g.sched.listQueueCount it.embedded.appIndex - 1)
        llistQueue := some rest }) :
    Slots
      { s with
        g := (sfqdDequeue r s.g).1
        mem := s.mem.modify it.socketData.rs fun rs =>
          { rs with currentItem := some it, locked := false }
        outstanding := s.outstanding.erase item ++ [it]
        returned := s.returned ++ [it] } := by
  generalize hs' : SfqdRun.mk _ _ _ _ _ = s'
  have hqueued : s'.queued = rest := by
    simp [← hs', SfqdRun.queued, Sfqd.queued, hs]
  have howners : ((it :: rest).map (·.socketData.rs)).Nodup :=
    (hperm.map _).nodup_iff.mpr h.owners
  rw [List.map_cons, List.nodup_cons] at howners
  have hother : ∀ it' ∈ rest, it'.socketData.rs ≠ it.socketData.rs := fun it' h' heq =>
    howners.1 (List.mem_map.mpr ⟨it', h', heq⟩)
  have hne : s.queued ≠ [] := fun hnil => by
    rw [hnil] at hperm
    exact absurd hperm.eq_nil (by simp)
  have hpos := List.length_pos_of_mem hitem
  subst hs'
  exact
    { queue := by rw [hqueued]; simp only [hs]
      depth := by
        simp only [hs, h.depth, List.length_append, List.length_erase_of_mem hitem,
          List.length_singleton]
        omega
      bound := by simp only [hs]; exact h.bound
      full := fun _ => by simp only [hs]; exact h.full hne
      count := fun app => by
        have := h.count app
        rw [← hperm.countP_eq, List.countP_cons] at this
        simp only [hqueued, hs]
        by_cases heq : app = it.embedded.appIndex
        · subst heq
          simp [this]
        · simp [heq, Ne.symm heq, this]
      locked := fun p rs hp => by
        simp only [hqueued]
        by_cases hpa : p = it.socketData.rs
        · subst hpa
          obtain ⟨rs₀, hrs₀⟩ := h.live it (hperm.subset (by simp))
          simp only [Mem.modify_self, hrs₀, Option.map_some, Option.some.injEq] at hp
          rw [← hp]
          simp only [Bool.false_eq_true, false_iff, not_exists, not_and]
          exact hother
        · simp only [Mem.modify_of_ne _ hpa] at hp
          rw [h.locked p rs hp]
          simp only [← hperm.mem_iff, List.mem_cons, or_and_right, exists_or, exists_eq_left,
            Ne.symm hpa, false_or]
      live := fun it' h' => by
        simp only [hqueued] at h'
        simp only [Mem.modify_of_ne _ (hother it' h')]
        exact h.live it' (hperm.subset (List.mem_cons_of_mem _ h'))
      owners := by simp only [hqueued]; exact howners.2
      history := by
        simp only [hqueued, List.append_assoc, List.singleton_append]
        exact (hperm.append_left _).trans h.history
      fresh := by simp only [hs]; exact h.fresh
      ids := h.ids
      dispatched := ((List.erase_sublist ..).trans h.dispatched).append (.refl _)
      unsorted := fun hf _ => by simp [hs] at hf }

theorem complete_step (h : Slots s) {item : SfqdItem} (hitem : item ∈ s.outstanding)
    (myShare : Int → Int → Int → Int → Int → Int) (size : Int) (app : Nat) :
    ∃ s', s.complete myShare item size app = .ok s' ∧ Slots s' := by
  generalize hr : DequeueReason.mk .completeIo size app (some item) = r
  have hgoes : ∀ it, (sfqdDequeue r s.g).2 = some it →
      ∃ rs, s.mem it.socketData.rs = some rs ∧ rs.locked = true := fun it hret =>
    h.queued_locked ((sfqdDequeue_perm hret).subset (List.mem_cons_self ..))
  obtain ⟨⟨g', mem', next⟩, hdisp⟩ := dispatchNext_exists (m := schSfqd myShare) s.mem rfl
    fun it hret => by
      obtain ⟨rs, hrs, hlocked⟩ := hgoes it hret
      exact (Option.any_eq_true ..).mpr ⟨rs, hrs, hlocked⟩
  obtain ⟨out, hout, rfl, rfl, hnone, hsome⟩ := dispatchNext_ok hdisp
  obtain rfl := Except.ok.inj hout
  have hstep : s.complete myShare item size app = .ok
      { s with
        g := (sfqdDequeue r s.g).1
        mem := mem'
        outstanding := s.outstanding.erase item ++ (sfqdDequeue r s.g).2.toList
        returned := s.returned ++ (sfqdDequeue r s.g).2.toList } := by
    unfold SfqdRun.complete
    rw [hr, hdisp]
    rfl
  refine ⟨_, hstep, ?_⟩
  obtain ⟨hnil, hret, hs⟩ | ⟨it, rest, hret, hq, hs⟩ := sfqdDequeue_cases r s.g
  · obtain rfl := hnone hret
    rw [hret]
    simpa using h.idle_step hitem hnil hs
  · obtain ⟨-, rfl⟩ := hsome it hret
    have hperm : (it :: rest).Perm s.queued := by
      have := sfqdDequeue_perm hret
      rwa [hs] at this
    rw [hret]
    exact h.next_step hitem hperm hs

theorem step (h : Slots s) {myShare : Int → Int → Int → Int → Int → Int} {e : SfqdRun.Event}
    {s' : SfqdRun} (hok : s.Allowed e) (hstep : s.step myShare e = .ok s') : Slots s' := by
  cases e with
  | arrive a =>
      obtain ⟨g₁, ⟨henq, rfl⟩ | ⟨henq, rfl⟩⟩ := SfqdRun.arrive_cases hstep
      · exact h.dispatched_step henq
      · exact h.delayed_step hok.1 henq
  | complete item size app =>
      obtain ⟨s₁, hs₁, hslots⟩ := h.complete_step hok myShare size app
      obtain rfl : s₁ = s' := Except.ok.inj (hs₁.symm.trans hstep)
      exact hslots

end Slots

/-! ## Every interleaving -/

namespace SfqdRun

/-- The states a run over `depth` slots can be in. -/
def Reachable (myShare : Int → Int → Int → Int → Int → Int) (depth : Int) (s : SfqdRun) : Prop :=
  ∃ appStats mem es, (∀ p rs, mem p = some rs → rs.locked = false)
    ∧ Machine.Run Allowed (step myShare) (init depth appStats mem) es s

variable {myShare : Int → Int → Int → Int → Int → Int} {depth : Int} {s s' : SfqdRun}

theorem Reachable.slots (hd : 0 ≤ depth) (h : Reachable myShare depth s) : Slots s := by
  obtain ⟨appStats, mem, es, hmem, hrun⟩ := h
  exact hrun.invariant (.init hd hmem) fun _ _ _ hslots hok hstep => hslots.step hok hstep

theorem step_depth {e : Event} (h : s.step myShare e = .ok s') :
    s'.g.sched.depth = s.g.sched.depth := by
  cases e with
  | arrive a =>
      obtain ⟨g₁, ⟨henq, rfl⟩ | ⟨henq, rfl⟩⟩ := arrive_cases h
      · obtain ⟨_, _, _, _, _, _, hs⟩ := sfqdEnqueue_ok henq
        simp only [dispatched, sfqdDequeue_depth, hs]
      · obtain ⟨_, _, _, _, _, _, hs⟩ := sfqdEnqueue_ok henq
        simp only [delayed, hs]
  | complete item size app =>
      obtain ⟨⟨g, mem, next⟩, hdisp, h⟩ := Machine.bind_eq_ok.mp h
      obtain rfl := Machine.pure_eq_ok.mp h
      rw [(dispatchNext_globals hdisp).1]
      exact sfqdDequeue_depth _ _

theorem Reachable.depth_eq (h : Reachable myShare depth s) : s.g.sched.depth = depth := by
  obtain ⟨appStats, mem, es, _, hrun⟩ := h
  exact hrun.invariant (P := fun s => s.g.sched.depth = depth) rfl
    fun _ _ _ hs _ hstep => (step_depth hstep).trans hs

end SfqdRun

section accounting

variable {myShare : Int → Int → Int → Int → Int → Int}

/-- **Slots and locks.** In every state the framework can reach around SFQD
with at least one slot: the depth counter counts the outstanding requests and
is full while anything waits, `list_queue_count` counts the queue, exactly the
waiting requests are locked, a request let through at once gets its own item,
and every enqueued item is returned at most once or still queued. -/
theorem sfqd_slots_and_locks {depth : Int} (hdepth : 1 ≤ depth) {s : SfqdRun}
    (h : SfqdRun.Reachable myShare depth s) :
    s.g.sched.currentDepth = s.outstanding.length
      ∧ 0 ≤ s.g.sched.currentDepth ∧ s.g.sched.currentDepth ≤ depth
      ∧ (s.queued ≠ [] → s.g.sched.currentDepth = depth)
      ∧ (∀ app, s.g.sched.listQueueCount app
          = s.queued.countP (fun it => it.embedded.appIndex == app))
      ∧ (∀ p rs, s.mem p = some rs →
          (rs.locked = true ↔ ∃ it ∈ s.queued, it.socketData.rs = p))
      ∧ (∀ pool si pi g₁, sfqdEnqueue pool si pi s.g = .ok (g₁, true) →
          ∃ it, g₁.sched.queued = s.queued ++ [it] ∧ it.socketData = si
            ∧ ∀ r, (sfqdDequeue r g₁).2 = some it)
      ∧ s.enqueued.Nodup ∧ (s.returned ++ s.queued).Perm s.enqueued
      ∧ s.outstanding.Sublist s.returned
      ∧ ∀ item ∈ s.outstanding, ∀ size app,
          ∃ s', s.step myShare (.complete item size app) = .ok s' := by
  have hs := h.slots (by omega)
  have hd := h.depth_eq
  refine ⟨hs.depth, by rw [hs.depth]; omega, hd ▸ hs.bound, fun hne => hd ▸ hs.full hne,
    hs.count, hs.locked, fun pool si pi g₁ henq => ?_, hs.nodup, hs.history, hs.dispatched,
    fun item hitem size app => ?_⟩
  · obtain ⟨hnil, -, it, -, hsi, hone, hown⟩ := hs.own_item henq
    exact ⟨it, by rw [hone, hnil]; rfl, hsi, fun r => (hown r).1⟩
  · obtain ⟨s', hs', -⟩ := hs.complete_step hitem myShare size app
    exact ⟨s', hs'⟩

end accounting

/-- A 4 KB request of weight 1 on slot `index`; slots 1 and 2 belong to
application 0, slots 3 and 4 to application 1. -/
def sampleArrival (index : Nat) (rs : Addr) : Arrival SfqdQueueItem where
  pool i := { socket := i + 5, appIndex := (i - 1) / 2, weight := 1 }
  index := index
  dataSocket := index
  rs := rs
  newRs := default
  pi := { op := .io, tag := 7, reqSize := 64, currentDataSize := 4096 }

/-- The item of the first sample arrival. -/
def sampleItem (index : Nat) (rs : Addr) : SfqdItem :=
  sfqdNewItem (sampleArrival index rs).pool (sampleArrival index rs).si
    (sampleArrival index rs).pi 0 4 0 0

/-- One slot, two arrivals and the first completion: the second request was
locked and is dispatched. -/
theorem sfqd_slots_and_locks_example :
    ∃ s : SfqdRun, s.returned.map (·.itemId) = [0, 1] ∧ s.outstanding.map (·.itemId) = [1]
      ∧ s.g.sched.currentDepth = s.outstanding.length := by
  obtain ⟨s, hrun, hs⟩ := Machine.Run.exists_of_exec SfqdRun.Allowed
    (SfqdRun.step fun _ _ _ _ _ => 0)
    (SfqdRun.init 1 (fun _ => { appWeight := 1 }) fun _ => none)
    [.arrive (sampleArrival 1 0), .arrive (sampleArrival 3 1), .complete (sampleItem 1 0) 4096 0]
    (fun s => (s.returned.map (·.itemId), s.outstanding.map (·.itemId)))
    (a := ([0, 1], [1])) (by decide +kernel)
  obtain ⟨hret, hout⟩ := Prod.mk.inj hs
  have hreach : SfqdRun.Reachable (fun _ _ _ _ _ => 0) 1 s := ⟨_, _, _, by simp, hrun⟩
  exact ⟨s, hret, hout, (sfqd_slots_and_locks (by decide) hreach).1⟩

end PvfsProxy
