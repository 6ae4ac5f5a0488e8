import PvfsProxy.Heap
import PvfsProxy.SchedulerMain

/-!
# The SFQD2 scheduler

`scheduler_SFQD2.c`: start-time fair queueing with a queue, a clock and slots
of its own for the small requests, of up to 64 KB, and for the large ones. The
variables the source has twice, with `_large` and `_small` in their names, are
a `Sfqd2Queue` for each `Sfqd2Size`.

The size is looked at twice: `sfqd2_enqueue` takes the length of the request,
`sfqd2_get_next_request` the `complete_size` of the reason it is called for.
-/

namespace PvfsProxy

structure Sfqd2QueueItem where
  requestSocket : Int
  startTag : Int
  finishTag : Int
  dataSocket : Int
  requestSocketIndex : Nat
  dataSocketIndex : Nat
  dataFileSize : Int
  stripSize : Int
  serverNr : Int
  fileOffset : Int
  aggregateSize : Int
  serverCount : Int
  socketTag : Int
  appIndex : Nat
  streamId : Int
  taskSize : Int
  overCount : Int
  gotSize : Int
  ioType : Int
  bufferSize : Int
deriving Repr, DecidableEq

abbrev Sfqd2Item := GenericQueueItem Sfqd2QueueItem

inductive Sfqd2Size where
  | large | small
deriving Repr, DecidableEq

/-- The queue, clock and slots of one size. -/
structure Sfqd2Queue where
  depth : Int
  currentDepth : Int
  virtualTime : Int
  lastFinishTags : Nat → Int
  heapQueue : Heap Sfqd2Item

/-- The file-level variables of `scheduler_SFQD2.c`. -/
structure Sfqd2 where
  queue : Sfqd2Size → Sfqd2Queue
  smallIoSize : Int
  itemId : Int

def sfqd2DepthSmall : Int := 100

/-- `sfqd2_init` after `sfqd2_load_data_from_config`, which sets the depth for
large requests only. -/
def sfqd2Init (depthLarge : Int) : Sfqd2 where
  queue size :=
    { depth := match size with
        | .large => depthLarge
        | .small => sfqd2DepthSmall
      currentDepth := 0
      virtualTime := 0
      lastFinishTags := fun _ => 0
      heapQueue := heapInit }
  smallIoSize := 0
  itemId := 0

/-- The test both functions make. -/
def sfqd2Size (length : Int) : Sfqd2Size := if length ≤ 65536 then .small else .large

def sfqd2Reducer : Int := 1024

def sfqd2PacketCmp (a b : Sfqd2Item) : Bool :=
  if a.embedded.startTag < b.embedded.startTag then true
  else if a.embedded.startTag = b.embedded.startTag then decide (a.itemId < b.itemId)
  else false

/-- `cost` is the length under both cost models. -/
def sfqd2FinishTag (length weight startTag : Int) : Except Fault Int :=
  if weight = 0 then .error .divisionByZero
  else .ok (startTag + (length.tdiv weight).tdiv sfqd2Reducer)

/-- The item `sfqd2_enqueue` allocates for a request. -/
def sfqd2NewItem (pool : Nat → Endpoint) (si : SocketInfo) (pi : PvfsInfo)
    (startTag finishTag streamId itemId : Int) : Sfqd2Item where
  itemId := itemId
  socketData := si
  embedded :=
    { requestSocket := (pool si.requestSocket).socket
      startTag := startTag
      finishTag := finishTag
      dataSocket := (pool si.dataSocket).socket
      requestSocketIndex := si.requestSocket
      dataSocketIndex := si.dataSocket
      dataFileSize := 0
      stripSize := pi.stripSize
      serverNr := pi.currentServer
      fileOffset := pi.reqOffset
      aggregateSize := pi.aggregateSize
      serverCount := pi.totalServer
      socketTag := pi.tag
      appIndex := (pool si.requestSocket).appIndex
      streamId := streamId
      taskSize := pi.currentDataSize
      overCount := 0
      gotSize := 0
      ioType := pi.ioType
      bufferSize := pi.reqSize }

/-- The queue of a size after an item was added to it, with whether that took
a slot. -/
def Sfqd2Queue.add (q : Sfqd2Queue) (item : Sfqd2Item) : Sfqd2Queue × Bool :=
  let q := { q with
    lastFinishTags :=
      Function.update q.lastFinishTags item.embedded.appIndex item.embedded.finishTag
    heapQueue := heapInsert sfqd2PacketCmp q.heapQueue item }
  if q.currentDepth < q.depth then ({ q with currentDepth := q.currentDepth + 1 }, true)
  else (q, false)

/-- `sfqd2_enqueue`, returning whether the request may be dispatched at once. -/
def sfqd2Enqueue (pool : Nat → Endpoint) (si : SocketInfo) (pi : PvfsInfo)
    (g : Globals Sfqd2) : Except Fault (Globals Sfqd2 × Bool) := do
  let g := g.modifyApp si.appIndex fun a =>
    { a with receivedRequests := a.receivedRequests + 1 }
  let s := g.sched
  let length := pi.currentDataSize
  let appIndex := (pool si.requestSocket).appIndex
  let weight := (pool si.requestSocket).weight
  let size := sfqd2Size length
  let smallIoSize := if size = .small then s.smallIoSize + length else s.smallIoSize
  let startTag := max (s.queue size).virtualTime ((s.queue size).lastFinishTags appIndex)
  let finishTag ← sfqd2FinishTag length weight startTag
  let item := sfqd2NewItem pool si pi startTag finishTag (g.appStats appIndex).streamId s.itemId
  let (q, dispatched) := (s.queue size).add item
  let g := g.modifyApp appIndex fun a =>
    { a with streamId := a.streamId + 1, reqCome := a.reqCome + 1 }
  return ({ g with
    sched :=
      { queue := Function.update s.queue size q
        smallIoSize := smallIoSize
        itemId := s.itemId + 1 } }, dispatched)

def sfqd2GetNextRequest (r : DequeueReason Sfqd2QueueItem) (g : Globals Sfqd2) :
    Except Fault (Globals Sfqd2 × Option Sfqd2Item) := do
  let s := g.sched
  let size := sfqd2Size r.completeSize
  let q := s.queue size
  if !heapEmpty q.heapQueue then
    let (heapQueue, next) ← heapTake sfqd2PacketCmp q.heapQueue
    let q := { q with heapQueue := heapQueue, virtualTime := next.embedded.startTag }
    let g := { g with sched := { s with queue := Function.update s.queue size q } }
    return (g.modifyApp next.socketData.appIndex fun a =>
      { a with reqGo := a.reqGo + 1, dispatchedRequests := a.dispatchedRequests + 1 }, some next)
  else
    let q := { q with currentDepth := q.currentDepth - 1 }
    return ({ g with sched := { s with queue := Function.update s.queue size q } }, none)

def sfqd2Dequeue (r : DequeueReason Sfqd2QueueItem) (g : Globals Sfqd2) :
    Except Fault (Globals Sfqd2 × Option Sfqd2Item) :=
  sfqd2GetNextRequest r g

def sfqd2UpdateOnRequestCompletion (complete : CompleteMessage Sfqd2QueueItem) :
    Except Fault (Sfqd2Item × Int) :=
  match complete.currentItem with
  | none => .error .nullPointer
  | some it =>
    let e := { it.embedded with gotSize := it.embedded.gotSize + complete.completeSize }
    if e.taskSize = e.gotSize then .ok ({ it with embedded := e }, e.gotSize)
    else if e.taskSize < e.gotSize then
      .ok ({ it with embedded := { e with overCount := e.overCount + 1 } }, -1)
    else .ok ({ it with embedded := e }, 0)

/-- `sfqd2_current_size`. `get_my_share` is called with five of its six
arguments; the call is the parameter `myShare`. -/
def sfqd2CurrentSize (myShare : Int → Int → Int → Int → Int → Int)
    (currentItem : Option Sfqd2Item) (actualDataFileSize : Int) :
    Except Fault (Sfqd2Item × Int) :=
  match currentItem with
  | none => .error .nullPointer
  | some it =>
    let e := it.embedded
    let share := myShare e.stripSize e.serverCount e.fileOffset e.aggregateSize e.serverNr
    .ok ({ it with embedded := { e with dataFileSize := actualDataFileSize, taskSize := share } },
      share)

def sfqd2AddTtlTp (thisAmount : Int) (appIndex : Nat) (g : Globals Sfqd2) : Globals Sfqd2 :=
  { g with totalThroughput := g.totalThroughput + thisAmount }.modifyApp appIndex fun a =>
    { a with
      byteCounter := a.byteCounter + thisAmount
      appThroughput := a.appThroughput + thisAmount }

def schSfqd2 (myShare : Int → Int → Int → Int → Int → Int) :
    SchedulerMethod Sfqd2 Sfqd2QueueItem where
  workConserving := true
  schEnqueue pool si pi g := do
    let (g, dispatched) ← sfqd2Enqueue pool si pi g
    return { globals := g, ret := dispatched }
  schDequeue r g := do
    let (g, item) ← sfqd2Dequeue r g
    return { globals := g, ret := item }
  schUpdateOnRequestCompletion complete g := do
    let (item, got) ← sfqd2UpdateOnRequestCompletion complete
    return { globals := g, ret := (some item, got) }
  schCurrentSize := some fun item size => do
    let (item, share) ← sfqd2CurrentSize myShare item size
    return (some item, share)
  schAddTtlThroughput := sfqd2AddTtlTp
  schCalculateDiff := none
  schSelfDispatch := false
  schAcceptMeta := false

/-! ## What the functions can do -/

def Sfqd2.queued (s : Sfqd2) (size : Sfqd2Size) : List Sfqd2Item := (s.queue size).heapQueue.values

/-- An enqueue that returns put one item of the request's length into the
queue of its size, and took a slot of that size exactly when one was free. -/
structure Sfqd2Enqueued (si : SocketInfo) (pi : PvfsInfo) (s s' : Sfqd2) (b : Bool)
    (it : Sfqd2Item) : Prop where
  socketData : it.socketData = si
  taskSize : it.embedded.taskSize = pi.currentDataSize
  gotSize : it.embedded.gotSize = 0
  id : it.itemId = s.itemId
  itemId : s'.itemId = s.itemId + 1
  queued : (s'.queued (sfqd2Size pi.currentDataSize)).Perm
    (it :: s.queued (sfqd2Size pi.currentDataSize))
  dispatched : b = decide ((s.queue (sfqd2Size pi.currentDataSize)).currentDepth
    < (s.queue (sfqd2Size pi.currentDataSize)).depth)
  current : (s'.queue (sfqd2Size pi.currentDataSize)).currentDepth
    = if b then (s.queue (sfqd2Size pi.currentDataSize)).currentDepth + 1
      else (s.queue (sfqd2Size pi.currentDataSize)).currentDepth
  depth : (s'.queue (sfqd2Size pi.currentDataSize)).depth
    = (s.queue (sfqd2Size pi.currentDataSize)).depth
  other : ∀ size, size ≠ sfqd2Size pi.currentDataSize → s'.queue size = s.queue size

theorem Sfqd2Queue.add_spec (q : Sfqd2Queue) (it : Sfqd2Item) :
    ((q.add it).1.heapQueue.values).Perm (it :: q.heapQueue.values)
      ∧ (q.add it).2 = decide (q.currentDepth < q.depth)
      ∧ (q.add it).1.depth = q.depth
      ∧ (q.add it).1.currentDepth
        = if (q.add it).2 then q.currentDepth + 1 else q.currentDepth := by
  unfold Sfqd2Queue.add
  dsimp only
  split
  · rename_i h
    exact ⟨heapInsert_values .., by simp [h], rfl, rfl⟩
  · rename_i h
    exact ⟨heapInsert_values .., by simp [h], rfl, rfl⟩

theorem sfqd2Enqueue_ok {pool : Nat → Endpoint} {si : SocketInfo} {pi : PvfsInfo}
    {g g' : Globals Sfqd2} {b : Bool} (h : sfqd2Enqueue pool si pi g = .ok (g', b)) :
    ∃ it, Sfqd2Enqueued si pi g.sched g'.sched b it := by
  obtain ⟨finishTag, -, h⟩ := Machine.bind_eq_ok.mp h
  generalize hit : sfqd2NewItem pool si pi _ finishTag _ _ = it at h
  rw [Globals.modifyApp_sched] at h hit
  obtain ⟨hvalues, hdispatched, hdepth, hcurrent⟩ :=
    (g.sched.queue (sfqd2Size pi.currentDataSize)).add_spec it
  obtain ⟨rfl, rfl⟩ := Prod.mk.inj (Machine.pure_eq_ok.mp h)
  refine ⟨it, ?_⟩
  exact
    { socketData := by rw [← hit]; rfl
      taskSize := by rw [← hit]; rfl
      gotSize := by rw [← hit]; rfl
      id := by rw [← hit]; rfl
      itemId := rfl
      queued := by
        unfold Sfqd2.queued
        dsimp only
        rw [Function.update_self]
        exact hvalues
      dispatched := hdispatched
      current := by
        dsimp only
        rw [Function.update_self]
        exact hcurrent
      depth := by
        dsimp only
        rw [Function.update_self]
        exact hdepth
      other := by
        intro size hne
        exact Function.update_of_ne hne .. }

/-- A dequeue takes an item from the queue of the completed size, or gives a
slot of that size back when the queue is empty. -/
structure Sfqd2Dequeued (size : Sfqd2Size) (s s' : Sfqd2) (next : Option Sfqd2Item) : Prop where
  queued : (next.toList ++ s'.queued size).Perm (s.queued size)
  empty : next = none → s.queued size = []
  current : (s'.queue size).currentDepth
    = if next.isNone then (s.queue size).currentDepth - 1 else (s.queue size).currentDepth
  depth : (s'.queue size).depth = (s.queue size).depth
  itemId : s'.itemId = s.itemId
  other : ∀ size', size' ≠ size → s'.queue size' = s.queue size'

theorem sfqd2Dequeue_exists (r : DequeueReason Sfqd2QueueItem) (g : Globals Sfqd2) :
    ∃ g' next, sfqd2Dequeue r g = .ok (g', next)
      ∧ Sfqd2Dequeued (sfqd2Size r.completeSize) g.sched g'.sched next := by
  unfold sfqd2Dequeue sfqd2GetNextRequest
  dsimp only
  by_cases hempty : heapEmpty (g.sched.queue (sfqd2Size r.completeSize)).heapQueue = true
  · have hnil := (heapEmpty_iff _).mp hempty
    rw [hempty]
    refine ⟨_, none, rfl, ?_⟩
    exact
      { queued := by
          unfold Sfqd2.queued
          dsimp only
          rw [Function.update_self]
          exact List.Perm.refl _
        empty := fun _ => hnil
        current := by
          dsimp only
          rw [Function.update_self]
          rfl
        depth := by
          dsimp only
          rw [Function.update_self]
        itemId := rfl
        other := fun size' hne => Function.update_of_ne hne .. }
  · have hne : (g.sched.queue (sfqd2Size r.completeSize)).heapQueue.values ≠ [] :=
      fun hnil => hempty ((heapEmpty_iff _).mpr hnil)
    obtain ⟨heap', next, htake, hperm⟩ := heapTake_values sfqd2PacketCmp hne
    rw [Bool.eq_false_iff.mpr hempty, htake]
    refine ⟨_, some next, rfl, ?_⟩
    exact
      { queued := by
          unfold Sfqd2.queued
          rw [Globals.modifyApp_sched]
          dsimp only
          rw [Function.update_self]
          exact hperm
        empty := fun h => by cases h
        current := by
          rw [Globals.modifyApp_sched]
          dsimp only
          rw [Function.update_self]
          rfl
        depth := by
          rw [Globals.modifyApp_sched]
          dsimp only
          rw [Function.update_self]
        itemId := rfl
        other := fun size' hne => Function.update_of_ne hne .. }

theorem sfqd2Dequeue_ok {r : DequeueReason Sfqd2QueueItem} {g g' : Globals Sfqd2}
    {next : Option Sfqd2Item} (h : sfqd2Dequeue r g = .ok (g', next)) :
    Sfqd2Dequeued (sfqd2Size r.completeSize) g.sched g'.sched next := by
  obtain ⟨g₁, next₁, hok, hd⟩ := sfqd2Dequeue_exists r g
  rw [hok] at h
  obtain ⟨rfl, rfl⟩ := Prod.mk.inj (Except.ok.inj h)
  exact hd

/-- The hook reports a completion when the whole task has come, and as its
size the task's. -/
theorem sfqd2UpdateOnRequestCompletion_ok {it it' : Sfqd2Item} {size got : Int}
    (h : sfqd2UpdateOnRequestCompletion { currentItem := some it, completeSize := size }
      = .ok (it', got)) :
    (0 < got ↔ it.embedded.taskSize = it.embedded.gotSize + size ∧ 0 < it.embedded.taskSize)
      ∧ (0 < got → got = it.embedded.taskSize) := by
  unfold sfqd2UpdateOnRequestCompletion at h
  dsimp only at h
  split at h
  · rename_i heq
    obtain ⟨-, rfl⟩ := Prod.mk.inj (Except.ok.inj h)
    exact ⟨⟨fun hpos => ⟨heq, heq ▸ hpos⟩, fun hpos => heq ▸ hpos.2⟩, fun _ => heq.symm⟩
  · rename_i hne
    split at h
    · obtain ⟨-, rfl⟩ := Prod.mk.inj (Except.ok.inj h)
      exact ⟨⟨fun hpos => absurd hpos (by decide), fun heq => absurd heq.1 hne⟩,
        fun hpos => absurd hpos (by decide)⟩
    · obtain ⟨-, rfl⟩ := Prod.mk.inj (Except.ok.inj h)
      exact ⟨⟨fun hpos => absurd hpos (by decide), fun heq => absurd heq.1 hne⟩,
        fun hpos => absurd hpos (by decide)⟩

end PvfsProxy
