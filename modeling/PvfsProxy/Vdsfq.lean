import PvfsProxy.Llist
import PvfsProxy.SchedulerMain

/-!
# The vDSFQ schedulers

`scheduler_vDSFQ.c`: as DSFQ, but what the other proxies announce is only
whether they serve an application at all. An enqueue adds the request's length
to its start tag once for every proxy that does (`vapp_entries_remote`, kept
by the receive thread). The queue is sorted when an item was appended that has
to wait.

`scheduler_vDSFQ2.c` is the same text under other names; its method table
says that it does not conserve work.

Tags, counters and the product of entries and length are `int`s of the source
and unbounded here: this is the scheduler as long as none of them overflows.
-/

namespace PvfsProxy

open StableSort

structure VdsfqQueueItem where
  requestSocket : Int
  startTag : Int
  finishTag : Int
  delayValue : Int
  weight : Int
  dataSocket : Int
  socketTag : Int
  appIndex : Nat
  streamId : Int
  taskSize : Int
  gotSize : Int
  ioType : Int
  bufferSize : Int
deriving Repr, DecidableEq

abbrev VdsfqItem := GenericQueueItem VdsfqQueueItem

/-- `struct vdsfq_statistics`, as far as it is used -/
structure VdsfqStatistics where
  requestReceiveQueue : Int := 0
  vdsfqAppDispatch : Int := 0
deriving Repr, DecidableEq

/-- The file-level variables of `scheduler_vDSFQ.c`. -/
structure Vdsfq where
  depth : Int
  currentDepth : Int
  threshold : Int
  currentIoCounter : Int
  thresholdReady : Bool
  left2 : Bool
  timeout : Bool
  virtualTime : Int
  lastFinishTags : Nat → Int
  stats : Nat → VdsfqStatistics
  appEntriesLocal : Nat → Int
  appEntriesRemote : Nat → Int
  itemId : Int
  queueSize : Int
  llistQueue : PintLlist VdsfqItem

/-- `vdsfq_init` after `vdsfq_load_data_from_config` -/
def vdsfqInit (depth threshold : Int) : Vdsfq where
  depth := depth
  currentDepth := 0
  threshold := threshold
  currentIoCounter := 0
  thresholdReady := false
  left2 := true
  timeout := false
  virtualTime := 0
  lastFinishTags _ := 0
  stats _ := {}
  appEntriesLocal _ := 0
  appEntriesRemote _ := 0
  itemId := 0
  queueSize := 0
  llistQueue := pintLlistNew

def Vdsfq.modifyStats (s : Vdsfq) (app : Nat) (f : VdsfqStatistics → VdsfqStatistics) : Vdsfq :=
  { s with stats := Function.update s.stats app (f (s.stats app)) }

def vreducer : Int := 1024

def listVdsfqSortComp (a b : VdsfqItem) : Int := a.embedded.startTag - b.embedded.startTag

/-- What `vdsfq_enqueue` does under `vdsfq_broadcast_mutex`: an application that
was never seen is to be announced, and the coordinator is woken when there is
enough to tell. -/
def vdsfqAnnounce (appIndex : Nat) (s : Vdsfq) : Vdsfq :=
  let s :=
    if s.appEntriesLocal appIndex = 0 then
      let s := s.modifyStats appIndex fun st => { st with requestReceiveQueue := 1 }
      { s with
        left2 := true
        currentIoCounter := s.currentIoCounter + 1
        appEntriesLocal := Function.update s.appEntriesLocal appIndex 1 }
    else s
  let needsBroadcast := s.left2 && s.timeout || decide (s.currentIoCounter ≥ s.threshold)
  if needsBroadcast then { s with thresholdReady := true } else s

/-- The item `vdsfq_enqueue` allocates for a request. -/
def vdsfqNewItem (pool : Nat → Endpoint) (si : SocketInfo) (pi : PvfsInfo)
    (startTag finishTag delayValue streamId itemId : Int) : VdsfqItem where
  itemId := itemId
  socketData := si
  embedded :=
    { requestSocket := (pool si.requestSocket).socket
      startTag := startTag
      finishTag := finishTag
      delayValue := delayValue
      weight := (pool si.requestSocket).weight
      dataSocket := (pool si.dataSocket).socket
      socketTag := pi.tag
      appIndex := (pool si.requestSocket).appIndex
      streamId := streamId
      taskSize := pi.currentDataSize
      gotSize := 0
      ioType := pi.ioType
      bufferSize := pi.reqSize }

/-- The start and the finish tag of a request; both cost models compute the
same cost. -/
def vdsfqTags (s : Vdsfq) (appIndex : Nat) (length weight : Int) : Except Fault (Int × Int) :=
  if weight = 0 then .error .divisionByZero
  else
    let tempDelay := (s.appEntriesRemote appIndex * length).tdiv (weight * vreducer)
    let startTag := max s.virtualTime (s.lastFinishTags appIndex + tempDelay)
    .ok (startTag, startTag + (length.tdiv weight).tdiv vreducer)

/-- `vdsfq_enqueue` appends the item and takes a slot if one is free; otherwise
it sorts the queue. -/
def vdsfqInsert (item : VdsfqItem) (s : Vdsfq) : Except Fault (Vdsfq × Bool) :=
  let added := pintLlistAddToTail s.llistQueue item
  if added.1 ≠ 0 then .error (.exit (-1))
  else if s.currentDepth < s.depth then
    .ok ({ s with
      llistQueue := added.2
      currentDepth := s.currentDepth + 1
      queueSize := s.queueSize + 1 }, true)
  else
    .ok ({ s with
      llistQueue := pintLlistSort added.2 listVdsfqSortComp
      queueSize := s.queueSize + 1 }, false)

/-- `vdsfq_enqueue`, returning whether the request may be dispatched at once. -/
def vdsfqEnqueue (pool : Nat → Endpoint) (si : SocketInfo) (pi : PvfsInfo)
    (g : Globals Vdsfq) : Except Fault (Globals Vdsfq × Bool) := do
  let g := g.modifyApp si.appIndex fun a =>
    { a with receivedRequests := a.receivedRequests + 1 }
  let length := pi.currentDataSize
  let appIndex := (pool si.requestSocket).appIndex
  let weight := (pool si.requestSocket).weight
  let s := vdsfqAnnounce appIndex g.sched
  let (startTag, finishTag) ← vdsfqTags s appIndex length weight
  let item := vdsfqNewItem pool si pi startTag finishTag (s.appEntriesRemote appIndex)
    (g.appStats appIndex).streamId s.itemId
  let (s, dispatched) ← vdsfqInsert item
    { s with
      lastFinishTags := Function.update s.lastFinishTags appIndex finishTag
      itemId := s.itemId + 1 }
  let g := g.modifyApp appIndex fun a => { a with streamId := a.streamId + 1 }
  return ({ g with sched := s }, dispatched)

/-- `vdsfq_dequeue`. The reason is not read. -/
def vdsfqDequeue (_r : DequeueReason VdsfqQueueItem) (g : Globals Vdsfq) :
    Globals Vdsfq × Option VdsfqItem :=
  let s := g.sched
  let (nextItem, queue) :=
    match pintLlistHead s.llistQueue with
    | none => (none, s.llistQueue)
    | some item => pintLlistRem s.llistQueue item.itemId listReqComp
  let s := { s with llistQueue := queue }
  match nextItem with
  | some nextItem =>
    let s := { s with virtualTime := nextItem.embedded.startTag }
    let s := s.modifyStats nextItem.embedded.appIndex fun st =>
      { st with vdsfqAppDispatch := st.vdsfqAppDispatch + 1 }
    let s := { s with queueSize := s.queueSize - 1 }
    ({ g with sched := s }.modifyApp nextItem.socketData.appIndex fun a =>
      { a with dispatchedRequests := a.dispatchedRequests + 1 }, some nextItem)
  | none => ({ g with sched := { s with currentDepth := s.currentDepth - 1 } }, none)

def vdsfqUpdateOnRequestCompletion (complete : CompleteMessage VdsfqQueueItem) :
    Except Fault (VdsfqItem × Int) :=
  match complete.currentItem with
  | none => .error .nullPointer
  | some it =>
    let e := { it.embedded with gotSize := it.embedded.gotSize + complete.completeSize }
    if e.gotSize = e.taskSize then .ok ({ it with embedded := e }, e.gotSize)
    else if e.taskSize < e.gotSize then .ok ({ it with embedded := e }, -1)
    else .ok ({ it with embedded := e }, 0)

/-- `vdsfq_add_ttl_tp`, which counts for the other proxies too. -/
def vdsfqAddTtlTp (thisAmount : Int) (appIndex : Nat) (g : Globals Vdsfq) : Globals Vdsfq :=
  let amount := thisAmount * (g.sched.appEntriesRemote appIndex + 1)
  { g with totalThroughput := g.totalThroughput + amount }.modifyApp appIndex fun a =>
    { a with
      byteCounter := a.byteCounter + amount
      appThroughput := a.appThroughput + amount }

/-- `sch_vdsfq`, which leaves `sch_current_size` NULL. -/
def schVdsfq : SchedulerMethod Vdsfq VdsfqQueueItem where
  workConserving := true
  schEnqueue pool si pi g := do
    let (g, dispatched) ← vdsfqEnqueue pool si pi g
    return { globals := g, ret := dispatched }
  schDequeue r g :=
    let (g, item) := vdsfqDequeue r g
    .ok { globals := g, ret := item }
  schUpdateOnRequestCompletion complete g := do
    let (item, got) ← vdsfqUpdateOnRequestCompletion complete
    return { globals := g, ret := (some item, got) }
  schCurrentSize := none
  schAddTtlThroughput := vdsfqAddTtlTp
  schCalculateDiff := none
  schSelfDispatch := false
  schAcceptMeta := false

/-- `sch_vdsfq2`, which leaves `sch_calculate_diff` NULL as well. -/
def schVdsfq2 : SchedulerMethod Vdsfq VdsfqQueueItem :=
  { schVdsfq with workConserving := false }

end PvfsProxy
