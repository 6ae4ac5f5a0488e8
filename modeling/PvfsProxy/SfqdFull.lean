import PvfsProxy.Sfqd

/-!
# The SFQD_Full scheduler

`scheduler_SFQD_Full.c` with its list queue. It also takes metadata requests,
and an item may be charged more than one slot: a large request is charged
`sfqdfull_large_io_factor` (`tentativeDepth`). The list is sorted at every
enqueue, and enqueue and dequeue both scan it for the first item that fits.

The embedded item has `depth` before `request_socket`, so the second `int`
that `list_sfqd_sort_comp` compares is the descriptor of the client's socket
(`sfqdFullLe_iff`), not the start tag. What the two functions do to the state
is said once, by `Enters`, `Leaves` and `Releases`.
-/

namespace PvfsProxy

open StableSort

structure SfqdFullQueueItem where
  depth : Int
  requestSocket : Int
  startTag : Int
  finishTag : Int
  dataSocket : Int
  requestSocketIndex : Nat
  dataSocketIndex : Nat
  dataFileSize : Int
  stripSize : Int
  serverNr : Int
  fileOffset : Int
  aggregateSize : Int
  serverCount : Int
  socketTag : Int
  appIndex : Nat
  streamId : Int
  taskSize : Int
  overCount : Int
  gotSize : Int
  ioType : Int
  bufferSize : Int
deriving Repr, DecidableEq

/-- The leading `int`s of a `struct sfqdfull_queue_item`. -/
def SfqdFullQueueItem.ints (e : SfqdFullQueueItem) : List Int :=
  [e.depth, e.requestSocket, e.startTag, e.finishTag]

abbrev SfqdFullItem := GenericQueueItem SfqdFullQueueItem

/-- The file-level variables of `scheduler_SFQD_Full.c`. -/
structure SfqdFull where
  depth : Int
  largeIoFactor : Int
  enableLargeIoBlocking : Bool
  enableHardBlock : Bool
  largeIoThreshold : Int
  /-- the global `cost_model` is `COST_MODEL_NONE` -/
  costModelNone : Bool
  currentDepth : Int
  virtualTime : Int
  smallIos : Int
  lastFinishTags : Nat → Int
  listQueueCount : Nat → Int
  itemId : Int
  llistQueue : PintLlist SfqdFullItem

/-- `sfqdfull_init` after `sfqdfull_load_data_from_config` -/
def sfqdFullInit (depth largeIoFactor : Int) (enableLargeIoBlocking enableHardBlock : Bool)
    (costModelNone : Bool) : SfqdFull where
  depth := depth
  largeIoFactor := largeIoFactor
  enableLargeIoBlocking := enableLargeIoBlocking
  enableHardBlock := enableHardBlock
  largeIoThreshold := 65536
  costModelNone := costModelNone
  currentDepth := 0
  virtualTime := 0
  smallIos := 0
  lastFinishTags := fun _ => 0
  listQueueCount := fun _ => 0
  itemId := 0
  llistQueue := pintLlistNew

def defaultMetaCost : Int := 10240

def isIo (op : PvfsServerOp) : Bool := op == .io || op == .smallIo

/-- `sfqdfull_get_finish_tag`; `REDUCER` is 32 here. -/
def sfqdFullGetFinishTag (s : SfqdFull) (length weight startTag : Int) (op : PvfsServerOp) :
    Except Fault Int :=
  let cost := if s.costModelNone && !isIo op then defaultMetaCost else length
  if weight * 32 > cost then .ok (startTag + 1)
  else if weight = 0 then .error .divisionByZero
  else .ok (startTag + (cost.tdiv weight).tdiv 32)

/-- The slots an item is charged if dispatched now. -/
def SfqdFull.tentativeDepth (s : SfqdFull) (e : SfqdFullQueueItem) : Int :=
  if (0 < s.smallIos && s.enableLargeIoBlocking) || s.enableHardBlock then e.depth else 1

/-- The test of both scans, with `reduceDepth` slots about to be released. -/
def SfqdFull.fits (s : SfqdFull) (reduceDepth : Int) (it : SfqdFullItem) : Bool :=
  s.tentativeDepth it.embedded + s.currentDepth - reduceDepth ≤ s.depth

/-- The item `sfqdfull_enqueue` allocates for a request. -/
def sfqdFullNewItem (pool : Nat → Endpoint) (si : SocketInfo) (pi : PvfsInfo)
    (depth startTag finishTag streamId taskSize itemId : Int) : SfqdFullItem where
  itemId := itemId
  socketData := si
  embedded :=
    { depth := depth
      requestSocket := (pool si.requestSocket).socket
      startTag := startTag
      finishTag := finishTag
      dataSocket := (pool si.dataSocket).socket
      requestSocketIndex := si.requestSocket
      dataSocketIndex := si.dataSocket
      dataFileSize := 0
      stripSize := pi.stripSize
      serverNr := pi.currentServer
      fileOffset := pi.reqOffset
      aggregateSize := pi.aggregateSize
      serverCount := pi.totalServer
      socketTag := pi.tag
      appIndex := (pool si.requestSocket).appIndex
      streamId := streamId
      taskSize := taskSize
      overCount := 0
      gotSize := 0
      ioType := pi.ioType
      bufferSize := pi.reqSize }

/-- `sfqdfull_add_item_to_queue`: append, then sort. -/
def sfqdFullAddItemToQueue (item : SfqdFullItem) (queue : PintLlist SfqdFullItem) :
    Except Fault (PintLlist SfqdFullItem) :=
  let added := pintLlistAddToTail queue item
  if added.1 ≠ 0 then .error (.exit (-1))
  else .ok (pintLlistSort added.2 (listSfqdSortComp SfqdFullQueueItem.ints))

/-- The scan of `sfqdfull_enqueue`: may the new item go at once? It must fit,
and be the first in the list that does. -/
def sfqdFullMayDispatch (s : SfqdFull) (item : SfqdFullItem) : Except Fault Bool :=
  if s.fits 0 item then
    match s.llistQueue with
    | none | some [] => .error .assertion
    | some l =>
      .ok ((l.find? (s.fits 0)).any fun next => decide (next.itemId = item.itemId))
  else .ok false

/-- The start tag a request of `app` would get now. -/
def SfqdFull.nextStart (s : SfqdFull) (app : Nat) : Int :=
  max s.virtualTime (s.lastFinishTags app)

/-- `sfqdfull_enqueue`, returning whether the request may be dispatched at once. -/
def sfqdFullEnqueue (pool : Nat → Endpoint) (si : SocketInfo) (pi : PvfsInfo)
    (g : Globals SfqdFull) : Except Fault (Globals SfqdFull × Bool) := do
  let s := g.sched
  let length := if isIo pi.op then pi.currentDataSize else defaultMetaCost
  let app := (pool si.requestSocket).appIndex
  let startTag := s.nextStart app
  let finishTag ← sfqdFullGetFinishTag s length (pool si.requestSocket).weight startTag pi.op
  let small := decide (length ≤ s.largeIoThreshold)
  let g := g.modifyApp si.appIndex fun a => { a with receivedRequests := a.receivedRequests + 1 }
  let item := sfqdFullNewItem pool si pi (if small then 1 else s.largeIoFactor) startTag finishTag
    (g.appStats app).streamId length s.itemId
  let queue ← sfqdFullAddItemToQueue item s.llistQueue
  let s := { s with
    smallIos := if small then s.smallIos + 1 else s.smallIos
    lastFinishTags := Function.update s.lastFinishTags app finishTag
    listQueueCount := Function.update s.listQueueCount app (s.listQueueCount app + 1)
    itemId := s.itemId + 1
    llistQueue := queue }
  let dispatched ← sfqdFullMayDispatch s item
  let g := g.modifyApp app fun a =>
    { a with streamId := a.streamId + 1, reqCome := a.reqCome + 1 }
  return ({ g with sched := s }, dispatched)

/-- The depth of the item a completion passes in; `0` for every other event. -/
def lastIoDepth (r : DequeueReason SfqdFullQueueItem) : Int :=
  match r.event, r.item with
  | .completeIo, some it => it.embedded.depth
  | _, _ => 0

/-- The first thing `sfqdfull_dequeue` does: a finished small request is no
longer counted. -/
def SfqdFull.finish (s : SfqdFull) (r : DequeueReason SfqdFullQueueItem) : SfqdFull :=
  if r.event = .completeIo ∧ lastIoDepth r = 1 then { s with smallIos := s.smallIos - 1 } else s

/-- The slots the completed item gives back. -/
def SfqdFull.reduceDepth (s : SfqdFull) (r : DequeueReason SfqdFullQueueItem) : Int :=
  if r.event = .completeIo then (if s.enableHardBlock then lastIoDepth r else 1) else 0

def sfqdFullDequeue (r : DequeueReason SfqdFullQueueItem) (g : Globals SfqdFull) :
    Globals SfqdFull × Option SfqdFullItem :=
  let s := g.sched.finish r
  let reduceDepth := s.reduceDepth r
  let found :=
    match s.llistQueue with
    | none => none
    | some l => l.find? (s.fits reduceDepth)
  match found with
  | none => ({ g with sched := { s with currentDepth := s.currentDepth - reduceDepth } }, none)
  | some next =>
    let tentativeDepth := s.tentativeDepth next.embedded
    match pintLlistRem s.llistQueue next.itemId listReqComp with
    | (none, queue) =>
      ({ g with sched := { s with llistQueue := queue
                                  currentDepth := s.currentDepth - reduceDepth } }, none)
    | (some nextItem, queue) =>
      let app := nextItem.embedded.appIndex
      let s := { s with
        llistQueue := queue
        listQueueCount := Function.update s.listQueueCount app (s.listQueueCount app - 1)
        virtualTime := nextItem.embedded.startTag
        currentDepth := s.currentDepth + tentativeDepth - reduceDepth }
      let g := { g with sched := s }
      (g.modifyApp nextItem.socketData.appIndex fun a =>
        { a with reqGo := a.reqGo + 1, dispatchedRequests := a.dispatchedRequests + 1 },
        some nextItem)

/-- `sfqdfull_update_on_request_completion`. A size of -1 marks a response that
completes nothing; an empty request reports 1. -/
def sfqdFullUpdateOnRequestCompletion (complete : CompleteMessage SfqdFullQueueItem) :
    Except Fault (Option SfqdFullItem × Int) :=
  if complete.completeSize = -1 then .ok (complete.currentItem, 0)
  else
    match complete.currentItem with
    | none => .error .nullPointer
    | some it =>
      let e := { it.embedded with gotSize := it.embedded.gotSize + complete.completeSize }
      if e.taskSize = e.gotSize then
        .ok (some { it with embedded := e }, if e.taskSize = 0 then 1 else e.gotSize)
      else if e.taskSize < e.gotSize then
        .ok (some { it with embedded := { e with overCount := e.overCount + 1 } }, -1)
      else .ok (some { it with embedded := e }, 0)

/-- `sfqdfull_current_size`; `myShare` is the call of `get_my_share`. -/
def sfqdFullCurrentSize (myShare : Int → Int → Int → Int → Int → Int → Int)
    (currentItem : Option SfqdFullItem) (actualDataFileSize : Int) :
    Except Fault (Option SfqdFullItem × Int) :=
  match currentItem with
  | none => .error .nullPointer
  | some it =>
    let e := it.embedded
    let share :=
      myShare e.stripSize e.serverCount e.fileOffset e.aggregateSize e.serverNr actualDataFileSize
    .ok (some { it with embedded := { e with
      dataFileSize := actualDataFileSize, taskSize := share } }, share)

def sfqdFullAddTtlTp (thisAmount : Int) (appIndex : Nat) (g : Globals SfqdFull) :
    Globals SfqdFull :=
  { g with totalThroughput := g.totalThroughput + thisAmount }.modifyApp appIndex fun a =>
    { a with
      byteCounter := a.byteCounter + thisAmount
      appThroughput := a.appThroughput + thisAmount
      reqGo := a.reqGo + 1 }

/-- `sch_sfqd_full`. `calculateDiff` stands for `sfqdfull_calculate_diff`,
which computes in floating point. -/
def schSfqdFull (myShare : Int → Int → Int → Int → Int → Int → Int)
    (calculateDiff : Nat → Globals SfqdFull → Int) :
    SchedulerMethod SfqdFull SfqdFullQueueItem where
  workConserving := true
  schEnqueue pool si pi g := do
    let (g, dispatched) ← sfqdFullEnqueue pool si pi g
    return { globals := g, ret := dispatched }
  schDequeue r g :=
    let (g, item) := sfqdFullDequeue r g
    .ok { globals := g, ret := item }
  schUpdateOnRequestCompletion complete g := do
    let ret ← sfqdFullUpdateOnRequestCompletion complete
    return { globals := g, ret := ret }
  schCurrentSize := some (sfqdFullCurrentSize myShare)
  schAddTtlThroughput := sfqdFullAddTtlTp
  schCalculateDiff := some calculateDiff
  schSelfDispatch := false
  schAcceptMeta := true

/-! ## What the two functions can do -/

namespace SfqdFull

/-- The queued items, in list order. -/
def queued (s : SfqdFull) : List SfqdFullItem := s.llistQueue.getD []

end SfqdFull

/-- The order the queue is sorted in. -/
abbrev sfqdFullLe : SfqdFullItem → SfqdFullItem → Bool :=
  compLe (listSfqdSortComp SfqdFullQueueItem.ints)

/-- The sort compares descriptors. -/
theorem sfqdFullLe_iff {a b : SfqdFullItem} :
    sfqdFullLe a b = true ↔ a.embedded.requestSocket ≤ b.embedded.requestSocket := by
  refine decide_eq_true_iff.trans ?_
  show a.embedded.requestSocket - b.embedded.requestSocket ≤ 0 ↔ _
  omega

theorem sfqdFullLe_preorder : TotalPreorder sfqdFullLe :=
  totalPreorder_sub fun it : SfqdFullItem => it.embedded.requestSocket

theorem sfqdFullMayDispatch_ok {s : SfqdFull} {item : SfqdFullItem} {l : List SfqdFullItem}
    {b : Bool} (hl : s.llistQueue = some l) (h : sfqdFullMayDispatch s item = .ok b) :
    b = (s.fits 0 item
      && (l.find? (s.fits 0)).any fun next => decide (next.itemId = item.itemId)) := by
  unfold sfqdFullMayDispatch at h
  split at h
  · rename_i hfit
    rw [hl] at h
    cases l with
    | nil => cases h
    | cons a l => rw [hfit, Bool.true_and, ← Except.ok.inj h]
  · rename_i hfit
    rw [← Except.ok.inj h]
    simp [hfit]

theorem sfqdFullAddItemToQueue_ok {item : SfqdFullItem} {queue queue' : PintLlist SfqdFullItem}
    (h : sfqdFullAddItemToQueue item queue = .ok queue') :
    ∃ q l, queue = some q ∧ queue' = some l ∧ StableSorted sfqdFullLe (q ++ [item]) l := by
  cases queue with
  | none => simp [sfqdFullAddItemToQueue, pintLlistAddToTail] at h
  | some q =>
      obtain ⟨l, hl, hst⟩ := pintLlistSort_spec sfqdFullLe_preorder (l := q ++ [item]) (by simp)
      refine ⟨q, l, rfl, ?_, hst⟩
      simp only [sfqdFullAddItemToQueue, pintLlistAddToTail, ne_eq, not_true_eq_false,
        if_false] at h
      exact (Except.ok.inj h).symm.trans hl

/-- An enqueue that returns appended one item, numbered `itemId` and tagged
from the application's clock, sorted the list, and says whether the new item
is the first that fits. -/
theorem sfqdFullEnqueue_ok {pool : Nat → Endpoint} {si : SocketInfo} {pi : PvfsInfo}
    {g g' : Globals SfqdFull} {b : Bool} (h : sfqdFullEnqueue pool si pi g = .ok (g', b)) :
    ∃ q finishTag streamId small l,
      let length := if isIo pi.op then pi.currentDataSize else defaultMetaCost
      let app := (pool si.requestSocket).appIndex
      let it := sfqdFullNewItem pool si pi (if small then 1 else g.sched.largeIoFactor)
        (g.sched.nextStart app) finishTag streamId length g.sched.itemId
      g.sched.llistQueue = some q
      ∧ StableSorted sfqdFullLe (q ++ [it]) l
      ∧ small = decide (length ≤ g.sched.largeIoThreshold)
      ∧ g'.sched =
          { g.sched with
            smallIos := if small then g.sched.smallIos + 1 else g.sched.smallIos
            lastFinishTags := Function.update g.sched.lastFinishTags app finishTag
            listQueueCount := Function.update g.sched.listQueueCount app
              (g.sched.listQueueCount app + 1)
            itemId := g.sched.itemId + 1
            llistQueue := some l }
      ∧ b = (g'.sched.fits 0 it
          && (l.find? (g'.sched.fits 0)).any fun next => decide (next.itemId = it.itemId)) := by
  obtain ⟨finishTag, hfin, h⟩ := Machine.bind_eq_ok.mp h
  obtain ⟨queue, hqueue, h⟩ := Machine.bind_eq_ok.mp h
  obtain ⟨dispatched, hdisp, h⟩ := Machine.bind_eq_ok.mp h
  obtain ⟨q, l, hq, rfl, hst⟩ := sfqdFullAddItemToQueue_ok hqueue
  obtain ⟨rfl, rfl⟩ := Prod.mk.inj (Machine.pure_eq_ok.mp h)
  refine ⟨q, finishTag, _, _, l, hq, hst, rfl, rfl, ?_⟩
  exact sfqdFullMayDispatch_ok rfl hdisp

/-- A dequeue takes the first queued item that fits once the completed
request's slots are released; when none does it only releases them. -/
theorem sfqdFullDequeue_cases (r : DequeueReason SfqdFullQueueItem) {g : Globals SfqdFull}
    (hids : (g.sched.queued.map (·.itemId)).Nodup) :
    let s := g.sched.finish r
    ((∀ it ∈ g.sched.queued, s.fits (s.reduceDepth r) it = false)
      ∧ (sfqdFullDequeue r g).2 = none
      ∧ (sfqdFullDequeue r g).1.sched = { s with currentDepth := s.currentDepth - s.reduceDepth r })
    ∨ ∃ before it after, g.sched.queued = before ++ it :: after
      ∧ (∀ it' ∈ before, s.fits (s.reduceDepth r) it' = false)
      ∧ s.fits (s.reduceDepth r) it = true
      ∧ (sfqdFullDequeue r g).2 = some it
      ∧ (sfqdFullDequeue r g).1.sched =
          { s with
            llistQueue := some (before ++ after)
            listQueueCount := Function.update s.listQueueCount it.embedded.appIndex
              (s.listQueueCount it.embedded.appIndex - 1)
            virtualTime := it.embedded.startTag
            currentDepth := s.currentDepth + s.tentativeDepth it.embedded - s.reduceDepth r } := by
  intro s
  have hqueue : s.llistQueue = g.sched.llistQueue := by
    simp only [s, SfqdFull.finish]
    split <;> rfl
  cases hq : g.sched.llistQueue with
  | none =>
      refine .inl ⟨by simp [SfqdFull.queued, hq], ?_⟩
      have hs : (g.sched.finish r).llistQueue = none := hqueue.trans hq
      simp [sfqdFullDequeue, hs, s]
  | some l =>
      have hs : (g.sched.finish r).llistQueue = some l := hqueue.trans hq
      have hqueued : g.sched.queued = l := by simp [SfqdFull.queued, hq]
      rw [hqueued] at hids ⊢
      cases hfind : l.find? (s.fits (s.reduceDepth r)) with
      | none =>
          refine .inl ⟨by simpa using hfind, ?_⟩
          simp [sfqdFullDequeue, hs, s, hfind]
      | some it =>
          right
          obtain ⟨hfit, before, after, hl, hbefore⟩ := List.find?_eq_some_iff_append.mp hfind
          have hother : ∀ it' ∈ before, it.itemId ≠ it'.itemId := fun it' hit' heq => by
            rw [hl, List.map_append, List.map_cons] at hids
            exact (List.nodup_append.mp hids).2.2 _ (List.mem_map_of_mem hit') _
              (List.mem_cons_self ..) heq.symm
          have hrem : pintLlistRem (some l) it.itemId listReqComp
              = (some it, some (before ++ after)) := by
            have hno : ∀ it' ∈ before, (listReqComp it.itemId it' == 0) = false :=
              fun it' hit' => by simp [listReqComp, hother it' hit']
            simp only [pintLlistRem, hl, Prod.mk.injEq, Option.some.injEq]
            constructor
            · rw [List.find?_append, List.find?_eq_none.mpr fun it' h' => by simp [hno it' h']]
              simp [listReqComp]
            · rw [List.eraseP_append_right _ fun it' h' => by simp [hno it' h']]
              simp [listReqComp]
          refine ⟨before, it, after, hl, by simpa using hbefore, hfit, ?_⟩
          simp [sfqdFullDequeue, hs, s, hfind, hrem]

/-! ## What enqueue and dequeue do to the state -/

namespace SfqdFull

/-- The configuration `sfqdfull_load_data_from_config` and `sfqdfull_init` set. -/
structure Configured (depth factor : Int) (large hard : Bool) (s : SfqdFull) : Prop where
  depth : s.depth = depth
  factor : s.largeIoFactor = factor
  large : s.enableLargeIoBlocking = large
  hard : s.enableHardBlock = hard
  threshold : s.largeIoThreshold = 65536

/-- The configuration is the same. -/
structure SameConfig (s s' : SfqdFull) : Prop where
  depth : s'.depth = s.depth
  factor : s'.largeIoFactor = s.largeIoFactor
  large : s'.enableLargeIoBlocking = s.enableLargeIoBlocking
  hard : s'.enableHardBlock = s.enableHardBlock
  threshold : s'.largeIoThreshold = s.largeIoThreshold

theorem SameConfig.configured {depth factor : Int} {large hard : Bool} {s s' : SfqdFull}
    (h : SameConfig s s') (hs : Configured depth factor large hard s) :
    Configured depth factor large hard s' where
  depth := h.depth.trans hs.depth
  factor := h.factor.trans hs.factor
  large := h.large.trans hs.large
  hard := h.hard.trans hs.hard
  threshold := h.threshold.trans hs.threshold

/-- A request of at most `sfqdfull_large_io_threshold` bytes. -/
def isSmall (s : SfqdFull) (it : SfqdFullItem) : Bool :=
  decide (it.embedded.taskSize ≤ s.largeIoThreshold)

/-- `it` entered the queue. -/
structure Enters (s : SfqdFull) (it : SfqdFullItem) (s' : SfqdFull) : Prop where
  config : SameConfig s s'
  current : s'.currentDepth = s.currentDepth
  small : s'.smallIos = s.smallIos + if s.isSmall it then 1 else 0
  depth : it.embedded.depth = if s.isSmall it then 1 else s.largeIoFactor
  id : it.itemId = s.itemId
  next : s'.itemId = s.itemId + 1
  queue : s'.llistQueue = some s'.queued
  sorted : StableSorted sfqdFullLe (s.queued ++ [it]) s'.queued

/-- `it`, the first that fits when `reduceDepth` slots are released, left the queue. -/
structure Leaves (s : SfqdFull) (reduceDepth : Int) (it : SfqdFullItem) (s' : SfqdFull) :
    Prop where
  config : SameConfig s s'
  found : s.queued.find? (s.fits reduceDepth) = some it
  current : s'.currentDepth = s.currentDepth + s.tentativeDepth it.embedded - reduceDepth
  small : s'.smallIos = s.smallIos
  next : s'.itemId = s.itemId
  queue : s'.llistQueue = some (s.queued.erase it)

/-- Nothing fits; the slots are released. -/
structure Releases (s : SfqdFull) (reduceDepth : Int) (s' : SfqdFull) : Prop where
  config : SameConfig s s'
  found : s.queued.find? (s.fits reduceDepth) = none
  current : s'.currentDepth = s.currentDepth - reduceDepth
  small : s'.smallIos = s.smallIos
  next : s'.itemId = s.itemId
  queue : s'.llistQueue = s.llistQueue

theorem Enters.queued_perm {s s' : SfqdFull} {it : SfqdFullItem} (h : Enters s it s') :
    s'.queued.Perm (s.queued ++ [it]) := h.sorted.perm

theorem Leaves.queued {s s' : SfqdFull} {reduceDepth : Int} {it : SfqdFullItem}
    (h : Leaves s reduceDepth it s') : s'.queued = s.queued.erase it := by
  simp [SfqdFull.queued, h.queue]

theorem Leaves.mem {s s' : SfqdFull} {reduceDepth : Int} {it : SfqdFullItem}
    (h : Leaves s reduceDepth it s') : it ∈ s.queued := List.mem_of_find?_eq_some h.found

theorem Leaves.fits {s s' : SfqdFull} {reduceDepth : Int} {it : SfqdFullItem}
    (h : Leaves s reduceDepth it s') : s.fits reduceDepth it = true :=
  List.find?_some h.found

theorem Leaves.queued_perm {s s' : SfqdFull} {reduceDepth : Int} {it : SfqdFullItem}
    (h : Leaves s reduceDepth it s') : (it :: s'.queued).Perm s.queued := by
  rw [h.queued]
  exact (List.perm_cons_erase h.mem).symm

theorem Releases.queued {s s' : SfqdFull} {reduceDepth : Int}
    (h : Releases s reduceDepth s') : s'.queued = s.queued := by
  simp [SfqdFull.queued, h.queue]

theorem finish_config (s : SfqdFull) (r : DequeueReason SfqdFullQueueItem) :
    SameConfig s (s.finish r) := by
  unfold finish
  split <;> exact ⟨rfl, rfl, rfl, rfl, rfl⟩

@[simp] theorem finish_queue (s : SfqdFull) (r : DequeueReason SfqdFullQueueItem) :
    (s.finish r).llistQueue = s.llistQueue := by
  unfold finish
  split <;> rfl

@[simp] theorem finish_queued (s : SfqdFull) (r : DequeueReason SfqdFullQueueItem) :
    (s.finish r).queued = s.queued := by
  simp [SfqdFull.queued]

@[simp] theorem finish_itemId (s : SfqdFull) (r : DequeueReason SfqdFullQueueItem) :
    (s.finish r).itemId = s.itemId := by
  unfold finish
  split <;> rfl

@[simp] theorem finish_current (s : SfqdFull) (r : DequeueReason SfqdFullQueueItem) :
    (s.finish r).currentDepth = s.currentDepth := by
  unfold finish
  split <;> rfl

theorem finish_new {r : DequeueReason SfqdFullQueueItem} (hr : r.event ≠ .completeIo)
    (s : SfqdFull) : s.finish r = s := by
  unfold finish
  rw [if_neg fun h => hr h.1]

theorem reduceDepth_new {r : DequeueReason SfqdFullQueueItem} (hr : r.event ≠ .completeIo)
    (s : SfqdFull) : s.reduceDepth r = 0 := by
  unfold reduceDepth
  rw [if_neg hr]

end SfqdFull

open SfqdFull

section calls

variable {pool : Nat → Endpoint} {si : SocketInfo} {pi : PvfsInfo} {g g₁ : Globals SfqdFull}
  {b : Bool}

/-- The item of an enqueue enters the queue; the enqueue returns 1 exactly if
it is the first that fits. -/
theorem sfqdFullEnqueue_enters
    (hfresh : ∀ it ∈ g.sched.queued, it.itemId < g.sched.itemId)
    (h : sfqdFullEnqueue pool si pi g = .ok (g₁, b)) :
    ∃ it, Enters g.sched it g₁.sched ∧ it.socketData = si
      ∧ it.embedded.requestSocket = (pool si.requestSocket).socket
      ∧ it.embedded.taskSize = (if isIo pi.op then pi.currentDataSize else defaultMetaCost)
      ∧ (b = true ↔ g₁.sched.queued.find? (g₁.sched.fits 0) = some it) := by
  obtain ⟨q, finishTag, streamId, small, l, hq, hst, hsmall, hs, hb⟩ := sfqdFullEnqueue_ok h
  generalize hit : sfqdFullNewItem pool si pi _ _ finishTag streamId _ _ = it at hst hb
  have hqueued : g.sched.queued = q := by simp [SfqdFull.queued, hq]
  have hqueued₁ : g₁.sched.queued = l := by simp [SfqdFull.queued, hs]
  have hid : it.itemId = g.sched.itemId := by rw [← hit]; rfl
  have hsm : g.sched.isSmall it = small := by
    rw [hsmall, ← hit]
    rfl
  have henters : Enters g.sched it g₁.sched :=
    { config := by rw [hs]; exact ⟨rfl, rfl, rfl, rfl, rfl⟩
      current := by rw [hs]
      small := by
        rw [hs, hsm]
        cases small <;> simp
      depth := by rw [hsm, ← hit]; rfl
      id := hid
      next := by rw [hs]
      queue := by rw [hqueued₁, hs]
      sorted := by rw [hqueued, hqueued₁]; exact hst }
  refine ⟨it, henters, by rw [← hit]; rfl, by rw [← hit]; rfl, by rw [← hit]; rfl, ?_⟩
  rw [hb, hqueued₁, Bool.and_eq_true]
  constructor
  · rintro ⟨-, hfind⟩
    obtain ⟨it', hit', hsame⟩ := (Option.any_eq_true ..).mp hfind
    rw [hit']
    -- the number of the new item is not taken
    rcases List.mem_append.mp (hst.perm.mem_iff.mp (List.mem_of_find?_eq_some hit')) with
      hold | hnew
    · have := hfresh it' (hqueued ▸ hold)
      have := of_decide_eq_true hsame
      omega
    · rw [List.mem_singleton.mp hnew]
  · intro hfind
    exact ⟨List.find?_some hfind, by simp [hfind]⟩

theorem sfqdFullEnqueue_returns {q : List SfqdFullItem} (hq : g.sched.llistQueue = some q)
    (hw : 0 < (pool si.requestSocket).weight) :
    ∃ out, sfqdFullEnqueue pool si pi g = .ok out := by
  have hfin : ∀ length startTag, ∃ finishTag, sfqdFullGetFinishTag g.sched length
      (pool si.requestSocket).weight startTag pi.op = .ok finishTag := by
    intro length startTag
    unfold sfqdFullGetFinishTag
    dsimp only
    generalize (if (g.sched.costModelNone && !isIo pi.op) = true then defaultMetaCost
      else length) = cost
    by_cases hcost : (pool si.requestSocket).weight * 32 > cost
    · rw [if_pos hcost]
      exact ⟨_, rfl⟩
    · rw [if_neg hcost, if_neg (by omega)]
      exact ⟨_, rfl⟩
  have hadd : ∀ item, ∃ queue, sfqdFullAddItemToQueue item g.sched.llistQueue = .ok queue := by
    intro item
    rw [hq]
    exact ⟨_, rfl⟩
  obtain ⟨finishTag, hfinish⟩ := hfin (if isIo pi.op then pi.currentDataSize else defaultMetaCost)
    (g.sched.nextStart (pool si.requestSocket).appIndex)
  have hmay : ∀ (s : SfqdFull) item l, s.llistQueue = some l → l ≠ [] →
      ∃ b, sfqdFullMayDispatch s item = .ok b := by
    intro s item l hl hne
    unfold sfqdFullMayDispatch
    split
    · rw [hl]
      cases l with
      | nil => exact absurd rfl hne
      | cons x l => exact ⟨_, rfl⟩
    · exact ⟨_, rfl⟩
  obtain ⟨queue, hqueue⟩ := hadd _
  obtain ⟨q', l, -, rfl, hst⟩ := sfqdFullAddItemToQueue_ok hqueue
  have hne : l ≠ [] := by
    intro hnil
    rw [hnil] at hst
    exact absurd hst.perm.nil_eq (by simp)
  refine Machine.bind_returns hfinish (Machine.bind_returns hqueue ?_)
  refine Exists.elim (hmay _ _ l ?_ hne) fun b hb => Machine.bind_returns hb ⟨_, rfl⟩
  rfl

/-- A dequeue hands out the first item that fits, or only releases slots. -/
theorem sfqdFullDequeue_leaves (hids : (g.sched.queued.map (·.itemId)).Nodup)
    (r : DequeueReason SfqdFullQueueItem) :
    ((sfqdFullDequeue r g).2 = none
      ∧ Releases (g.sched.finish r) (g.sched.reduceDepth r) (sfqdFullDequeue r g).1.sched)
    ∨ ∃ it, (sfqdFullDequeue r g).2 = some it
      ∧ Leaves (g.sched.finish r) (g.sched.reduceDepth r) it (sfqdFullDequeue r g).1.sched := by
  have hreduce : (g.sched.finish r).reduceDepth r = g.sched.reduceDepth r := by
    unfold SfqdFull.reduceDepth
    rw [(finish_config g.sched r).hard]
  have hcases := sfqdFullDequeue_cases r hids
  dsimp only at hcases
  rw [hreduce] at hcases
  rcases hcases with ⟨hnone, hret, hs⟩ | ⟨before, it, after, hq, hbefore, hfit, hret, hs⟩
  · left
    refine ⟨hret, ?_⟩
    rw [hs]
    exact
      { config := ⟨rfl, rfl, rfl, rfl, rfl⟩
        found := by
          rw [finish_queued, List.find?_eq_none]
          intro it hit
          rw [hnone it hit]
          exact Bool.false_ne_true
        current := rfl
        small := rfl
        next := rfl
        queue := rfl }
  · right
    refine ⟨it, hret, ?_⟩
    have hnotmem : it ∉ before := by
      intro hmem
      rw [hbefore it hmem] at hfit
      cases hfit
    rw [hs]
    exact
      { config := ⟨rfl, rfl, rfl, rfl, rfl⟩
        found := by
          rw [finish_queued, hq]
          refine List.find?_eq_some_iff_append.mpr ⟨hfit, before, after, rfl, ?_⟩
          intro it' hit'
          rw [hbefore it' hit']
          rfl
        current := rfl
        small := rfl
        next := rfl
        queue := by
          rw [finish_queued, hq, List.erase_append_right _ hnotmem, List.erase_cons_head] }

/-- A dequeue for a new request finds what the scan of its enqueue found. -/
theorem sfqdFullDequeue_new (hids : (g.sched.queued.map (·.itemId)).Nodup)
    {r : DequeueReason SfqdFullQueueItem} (hr : r.event ≠ .completeIo) {it : SfqdFullItem}
    (hfind : g.sched.queued.find? (g.sched.fits 0) = some it) :
    (sfqdFullDequeue r g).2 = some it
      ∧ Leaves g.sched 0 it (sfqdFullDequeue r g).1.sched := by
  have hcases := sfqdFullDequeue_leaves hids r
  rw [finish_new hr, reduceDepth_new hr] at hcases
  rcases hcases with ⟨-, hrel⟩ | ⟨it', hret, hleaves⟩
  · rw [hrel.found] at hfind
    cases hfind
  · obtain rfl : it' = it := Option.some.inj (hleaves.found.symm.trans hfind)
    exact ⟨hret, hleaves⟩

end calls

end PvfsProxy
