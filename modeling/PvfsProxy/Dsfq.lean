import PvfsProxy.Llist
import PvfsProxy.SchedulerMain

/-!
# The DSFQ scheduler

`scheduler_DSFQ.c`: start-time fair queueing over several proxies. An enqueue
adds what the other proxies served for the application (`dsfq_delay_values`,
filled by the receive thread) to its start tag, so that the shares hold over
all of them. The queue is a list sorted before a dequeue if something was
appended since.

Unlike `get_finish_tag` of SFQD the finish tag is `start_tag` plus
`cost / weight / 1024`, which may add nothing. Each function has one lemma
that says what it can do (`dsfqEnqueue_ok`, `dsfqDequeue_cases`).

Tags, delay values and byte counters are `int`s of the source and unbounded
here: this is the scheduler as long as none of them overflows.
-/

namespace PvfsProxy

open StableSort

structure DsfqQueueItem where
  requestSocket : Int
  startTag : Int
  finishTag : Int
  delayValue : Int
  weight : Int
  dataSocket : Int
  socketTag : Int
  appIndex : Nat
  streamId : Int
  taskSize : Int
  gotSize : Int
  ioType : Int
  bufferSize : Int
deriving Repr, DecidableEq

abbrev DsfqItem := GenericQueueItem DsfqQueueItem

structure DsfqStatistics where
  requestReceiveQueue : Int := 0
  dsfqDelayValues : Int := 0
  dsfqAppDispatch : Int := 0
deriving Repr, DecidableEq

/-- The file-level variables of `scheduler_DSFQ.c`. -/
structure Dsfq where
  depth : Int
  currentDepth : Int
  threshold : Int
  currentIoCounter : Int
  thresholdReady : Bool
  virtualTime : Int
  lastFinishTags : Nat → Int
  stats : Nat → DsfqStatistics
  itemId : Int
  queueSize : Int
  newItemAdded : Bool
  llistQueue : PintLlist DsfqItem

/-- `dsfq_init` after `dsfq_load_data_from_config` -/
def dsfqInit (depth threshold : Int) : Dsfq where
  depth := depth
  currentDepth := 0
  threshold := threshold
  currentIoCounter := 0
  thresholdReady := false
  virtualTime := 0
  lastFinishTags := fun _ => 0
  stats := fun _ => {}
  itemId := 0
  queueSize := 0
  newItemAdded := false
  llistQueue := pintLlistNew

def Dsfq.modifyStats (s : Dsfq) (app : Nat) (f : DsfqStatistics → DsfqStatistics) : Dsfq :=
  { s with stats := Function.update s.stats app (f (s.stats app)) }

def dsfqReducer : Int := 1024

def listDsfqSortComp (a b : DsfqItem) : Int := a.embedded.startTag - b.embedded.startTag

/-- What `dsfq_enqueue` does under `dsfq_broadcast_mutex`. -/
def dsfqCount (appIndex : Nat) (length : Int) (s : Dsfq) : Dsfq :=
  let s := s.modifyStats appIndex fun st =>
    { st with requestReceiveQueue := st.requestReceiveQueue + length }
  let s := { s with currentIoCounter := s.currentIoCounter + length }
  if s.currentIoCounter ≥ s.threshold then { s with thresholdReady := true } else s

/-- The item `dsfq_enqueue` allocates for a request. -/
def dsfqNewItem (pool : Nat → Endpoint) (si : SocketInfo) (pi : PvfsInfo)
    (startTag finishTag delayValue streamId itemId : Int) : DsfqItem where
  itemId := itemId
  socketData := si
  embedded :=
    { requestSocket := (pool si.requestSocket).socket
      startTag := startTag
      finishTag := finishTag
      delayValue := delayValue
      weight := (pool si.requestSocket).weight
      dataSocket := (pool si.dataSocket).socket
      socketTag := pi.tag
      appIndex := (pool si.requestSocket).appIndex
      streamId := streamId
      taskSize := pi.currentDataSize
      gotSize := 0
      ioType := pi.ioType
      bufferSize := pi.reqSize }

/-- `dsfq_enqueue` takes the delay of the application, in units of its weight,
and starts it at 0 again. -/
def dsfqTakeDelay (appIndex : Nat) (weight : Int) (s : Dsfq) : Except Fault (Dsfq × Int) :=
  let delayValue := (s.stats appIndex).dsfqDelayValues
  let s := s.modifyStats appIndex fun st => { st with dsfqDelayValues := 0 }
  if weight * dsfqReducer = 0 then .error .divisionByZero
  else .ok (s, delayValue.tdiv (weight * dsfqReducer))

/-- `dsfq_enqueue` appends the item and takes a slot if one is free. -/
def dsfqInsert (item : DsfqItem) (s : Dsfq) : Except Fault (Dsfq × Bool) :=
  let added := pintLlistAddToTail s.llistQueue item
  if added.1 ≠ 0 then .error (.exit (-1))
  else
    let s := { s with llistQueue := added.2 }
    let dispatched := decide (s.currentDepth < s.depth)
    let s := if dispatched then { s with currentDepth := s.currentDepth + 1 } else s
    .ok ({ s with queueSize := s.queueSize + 1, newItemAdded := true }, dispatched)

/-- `dsfq_enqueue`, returning whether the request may be dispatched at once.
Both cost models compute the same cost. -/
def dsfqEnqueue (pool : Nat → Endpoint) (si : SocketInfo) (pi : PvfsInfo)
    (g : Globals Dsfq) : Except Fault (Globals Dsfq × Bool) := do
  let g := g.modifyApp si.appIndex fun a =>
    { a with receivedRequests := a.receivedRequests + 1 }
  let length := pi.currentDataSize
  let appIndex := (pool si.requestSocket).appIndex
  let weight := (pool si.requestSocket).weight
  let s := dsfqCount appIndex length g.sched
  let (s, delayValue) ← dsfqTakeDelay appIndex weight s
  let startTag := max s.virtualTime (s.lastFinishTags appIndex + delayValue)
  let cost := length
  let finishTag := startTag + (cost.tdiv weight).tdiv dsfqReducer
  let item :=
    dsfqNewItem pool si pi startTag finishTag delayValue (g.appStats appIndex).streamId s.itemId
  let (s, dispatched) ← dsfqInsert item
    { s with
      lastFinishTags := Function.update s.lastFinishTags appIndex finishTag
      itemId := s.itemId + 1 }
  let g := g.modifyApp appIndex fun a => { a with streamId := a.streamId + 1 }
  return ({ g with sched := s }, dispatched)

/-- `dsfq_dequeue`. The reason is not read. -/
def dsfqDequeue (_r : DequeueReason DsfqQueueItem) (g : Globals Dsfq) :
    Globals Dsfq × Option DsfqItem :=
  let s := g.sched
  let s := if s.newItemAdded then
      { s with llistQueue := pintLlistSort s.llistQueue listDsfqSortComp, newItemAdded := false }
    else s
  let (nextItem, queue) :=
    match pintLlistHead s.llistQueue with
    | none => (none, s.llistQueue)
    | some item => pintLlistRem s.llistQueue item.itemId listReqComp
  let s := { s with llistQueue := queue }
  match nextItem with
  | some nextItem =>
    let s := { s with virtualTime := nextItem.embedded.startTag }
    let s := s.modifyStats nextItem.embedded.appIndex fun st =>
      { st with dsfqAppDispatch := st.dsfqAppDispatch + 1 }
    let s := { s with queueSize := s.queueSize - 1 }
    ({ g with sched := s }.modifyApp nextItem.socketData.appIndex fun a =>
      { a with dispatchedRequests := a.dispatchedRequests + 1 }, some nextItem)
  | none => ({ g with sched := { s with currentDepth := s.currentDepth - 1 } }, none)

/-- One entry of a message from another proxy, in `dsfq_proxy_receive_work`:
`period_count` bytes were served there for the application. -/
def dsfqReceive (appIndex : Nat) (periodCount : Int) (g : Globals Dsfq) : Globals Dsfq :=
  { g with
    sched := g.sched.modifyStats appIndex fun st =>
      { st with dsfqDelayValues := st.dsfqDelayValues + periodCount }
    totalThroughput := g.totalThroughput + periodCount }.modifyApp appIndex fun a =>
      { a with
        appThroughput := a.appThroughput + periodCount
        byteCounter := a.byteCounter + periodCount }

def dsfqUpdateOnRequestCompletion (complete : CompleteMessage DsfqQueueItem) :
    Except Fault (DsfqItem × Int) :=
  match complete.currentItem with
  | none => .error .nullPointer
  | some it =>
    let e := { it.embedded with gotSize := it.embedded.gotSize + complete.completeSize }
    if e.gotSize = e.taskSize then .ok ({ it with embedded := e }, e.gotSize)
    else if e.taskSize < e.gotSize then .ok ({ it with embedded := e }, -1)
    else .ok ({ it with embedded := e }, 0)

def dsfqAddTtlTp (thisAmount : Int) (appIndex : Nat) (g : Globals Dsfq) : Globals Dsfq :=
  { g with totalThroughput := g.totalThroughput + thisAmount }.modifyApp appIndex fun a =>
    { a with
      byteCounter := a.byteCounter + thisAmount
      appThroughput := a.appThroughput + thisAmount }

/-- `sch_dsfq`, which leaves `sch_current_size` NULL. -/
def schDsfq : SchedulerMethod Dsfq DsfqQueueItem where
  workConserving := true
  schEnqueue pool si pi g := do
    let (g, dispatched) ← dsfqEnqueue pool si pi g
    return { globals := g, ret := dispatched }
  schDequeue r g :=
    let (g, item) := dsfqDequeue r g
    .ok { globals := g, ret := item }
  schUpdateOnRequestCompletion complete g := do
    let (item, got) ← dsfqUpdateOnRequestCompletion complete
    return { globals := g, ret := (some item, got) }
  schCurrentSize := none
  schAddTtlThroughput := dsfqAddTtlTp
  schCalculateDiff := none
  schSelfDispatch := false
  schAcceptMeta := false

/-! ## What the functions can do -/

namespace Dsfq

def queued (s : Dsfq) : List DsfqItem := s.llistQueue.getD []

/-- The units of delay a request of `app` and `weight` takes with it now. -/
def pendingDelay (s : Dsfq) (app : Nat) (weight : Int) : Int :=
  (s.stats app).dsfqDelayValues.tdiv (weight * dsfqReducer)

/-- The start tag a request of `app` would get now. -/
def nextStart (s : Dsfq) (app : Nat) (weight : Int) : Int :=
  max s.virtualTime (s.lastFinishTags app + s.pendingDelay app weight)

/-- What the requests of `length` bytes add to the clock of their application. -/
def advance (length weight : Int) : Int := (length.tdiv weight).tdiv dsfqReducer

theorem advance_nonneg {length weight : Int} (hw : 0 < weight) (h : 0 ≤ length) :
    0 ≤ advance length weight :=
  Int.tdiv_nonneg (Int.tdiv_nonneg h (Int.le_of_lt hw)) (by decide)

theorem pendingDelay_nonneg {s : Dsfq} {app : Nat} {weight : Int}
    (h : 0 ≤ (s.stats app).dsfqDelayValues) (hw : 0 < weight) : 0 ≤ s.pendingDelay app weight :=
  Int.tdiv_nonneg h (Int.mul_nonneg (Int.le_of_lt hw) (by decide))

end Dsfq

abbrev dsfqLe : DsfqItem → DsfqItem → Bool := compLe listDsfqSortComp

theorem dsfqLe_iff {a b : DsfqItem} :
    dsfqLe a b = true ↔ a.embedded.startTag ≤ b.embedded.startTag := by
  refine decide_eq_true_iff.trans ?_
  show a.embedded.startTag - b.embedded.startTag ≤ 0 ↔ _
  omega

theorem dsfqLe_preorder : TotalPreorder dsfqLe :=
  totalPreorder_sub fun it : DsfqItem => it.embedded.startTag

/-- The fields an enqueue reads after the counters are kept. -/
structure Dsfq.SameQueue (s s' : Dsfq) : Prop where
  virtualTime : s'.virtualTime = s.virtualTime
  clock : s'.lastFinishTags = s.lastFinishTags
  queue : s'.llistQueue = s.llistQueue
  itemId : s'.itemId = s.itemId
  depth : s'.depth = s.depth
  current : s'.currentDepth = s.currentDepth

theorem dsfqCount_frame (app : Nat) (length : Int) (s : Dsfq) :
    s.SameQueue (dsfqCount app length s)
      ∧ ∀ i, ((dsfqCount app length s).stats i).dsfqDelayValues = (s.stats i).dsfqDelayValues := by
  unfold dsfqCount Dsfq.modifyStats
  dsimp only
  constructor
  · split <;> exact ⟨rfl, rfl, rfl, rfl, rfl, rfl⟩
  · intro i
    by_cases hi : i = app
    · subst hi
      split <;> simp
    · split <;> simp [hi]

theorem dsfqTakeDelay_ok {app : Nat} {weight delay : Int} {s s' : Dsfq}
    (h : dsfqTakeDelay app weight s = .ok (s', delay)) :
    weight ≠ 0 ∧ delay = s.pendingDelay app weight ∧ s.SameQueue s'
      ∧ ∀ i, (s'.stats i).dsfqDelayValues = if i = app then 0 else (s.stats i).dsfqDelayValues := by
  unfold dsfqTakeDelay at h
  dsimp only at h
  split at h
  · cases h
  · rename_i hw
    obtain ⟨rfl, rfl⟩ := Prod.mk.inj (Except.ok.inj h)
    refine ⟨fun hz => hw (by rw [hz, Int.zero_mul]), rfl, ⟨rfl, rfl, rfl, rfl, rfl, rfl⟩, ?_⟩
    intro i
    by_cases hi : i = app
    · subst hi
      simp [Dsfq.modifyStats]
    · simp [Dsfq.modifyStats, hi]

theorem dsfqInsert_ok {it : DsfqItem} {s s' : Dsfq} {b : Bool}
    (h : dsfqInsert it s = .ok (s', b)) :
    ∃ q, s.llistQueue = some q ∧ b = decide (s.currentDepth < s.depth)
      ∧ s' = { s with
          llistQueue := some (q ++ [it])
          currentDepth := if b then s.currentDepth + 1 else s.currentDepth
          queueSize := s.queueSize + 1
          newItemAdded := true } := by
  unfold dsfqInsert at h
  cases hq : s.llistQueue with
  | none => simp [hq, pintLlistAddToTail] at h
  | some q =>
      simp only [hq, pintLlistAddToTail, ne_eq, not_true_eq_false, if_false] at h
      obtain ⟨rfl, rfl⟩ := Prod.mk.inj (Except.ok.inj h)
      refine ⟨q, rfl, rfl, ?_⟩
      by_cases hd : s.currentDepth < s.depth <;> simp [hd]

/-- An enqueue that returns appended one item, numbered `itemId` and tagged
from its application's clock and delay, which is used up, and took a slot
exactly when one was free. -/
structure DsfqEnqueued (pool : Nat → Endpoint) (si : SocketInfo) (pi : PvfsInfo)
    (s s' : Dsfq) (b : Bool) (it : DsfqItem) : Prop where
  weight : (pool si.requestSocket).weight ≠ 0
  app : it.embedded.appIndex = (pool si.requestSocket).appIndex
  id : it.itemId = s.itemId
  startTag : it.embedded.startTag
    = s.nextStart (pool si.requestSocket).appIndex (pool si.requestSocket).weight
  finishTag : it.embedded.finishTag
    = it.embedded.startTag + Dsfq.advance pi.currentDataSize (pool si.requestSocket).weight
  taskSize : it.embedded.taskSize = pi.currentDataSize
  itemWeight : it.embedded.weight = (pool si.requestSocket).weight
  queue : ∃ q, s.llistQueue = some q ∧ s'.llistQueue = some (q ++ [it])
  dispatched : b = decide (s.currentDepth < s.depth)
  current : s'.currentDepth = if b then s.currentDepth + 1 else s.currentDepth
  depth : s'.depth = s.depth
  virtualTime : s'.virtualTime = s.virtualTime
  clock : s'.lastFinishTags
    = Function.update s.lastFinishTags (pool si.requestSocket).appIndex it.embedded.finishTag
  delay : ∀ i, (s'.stats i).dsfqDelayValues
    = if i = (pool si.requestSocket).appIndex then 0 else (s.stats i).dsfqDelayValues
  itemId : s'.itemId = s.itemId + 1
  newItemAdded : s'.newItemAdded = true

theorem dsfqEnqueue_ok {pool : Nat → Endpoint} {si : SocketInfo} {pi : PvfsInfo}
    {g g' : Globals Dsfq} {b : Bool} (h : dsfqEnqueue pool si pi g = .ok (g', b)) :
    ∃ it, DsfqEnqueued pool si pi g.sched g'.sched b it := by
  obtain ⟨⟨s₁, delay⟩, hdelay, h⟩ := Machine.bind_eq_ok.mp h
  obtain ⟨⟨s₂, b'⟩, hins, h⟩ := Machine.bind_eq_ok.mp h
  obtain ⟨rfl, rfl⟩ := Prod.mk.inj (Machine.pure_eq_ok.mp h)
  obtain ⟨hcount, hcountd⟩ := dsfqCount_frame (pool si.requestSocket).appIndex
    pi.currentDataSize g.sched
  rw [Globals.modifyApp_sched] at hdelay
  obtain ⟨hw, hd, htake, htaked⟩ := dsfqTakeDelay_ok hdelay
  obtain ⟨q, hq, hb, hs⟩ := dsfqInsert_ok hins
  have hd' : delay = g.sched.pendingDelay (pool si.requestSocket).appIndex
      (pool si.requestSocket).weight := by
    rw [hd]
    unfold Dsfq.pendingDelay
    rw [hcountd]
  have hclock : s₁.lastFinishTags = g.sched.lastFinishTags := htake.clock.trans hcount.clock
  generalize hit : dsfqNewItem .. = it at hins hs
  refine ⟨it, ?_⟩
  exact
    { weight := hw
      app := by rw [← hit]; rfl
      id := by
        rw [← hit]
        exact htake.itemId.trans hcount.itemId
      startTag := by
        rw [← hit]
        show max s₁.virtualTime (s₁.lastFinishTags _ + delay) = _
        rw [htake.virtualTime, hclock, hcount.virtualTime, hd']
        rfl
      finishTag := by rw [← hit]; rfl
      taskSize := by rw [← hit]; rfl
      itemWeight := by rw [← hit]; rfl
      queue := ⟨q, by rw [← hcount.queue, ← htake.queue]; exact hq, by rw [hs]⟩
      dispatched := by
        rw [hb]
        show decide (s₁.currentDepth < s₁.depth) = _
        rw [htake.current, htake.depth, hcount.current, hcount.depth]
      current := by
        rw [hs]
        show (if b' then s₁.currentDepth + 1 else s₁.currentDepth) = _
        rw [htake.current, hcount.current]
      depth := by
        rw [hs]
        exact htake.depth.trans hcount.depth
      virtualTime := by
        rw [hs]
        exact htake.virtualTime.trans hcount.virtualTime
      clock := by
        rw [hs]
        show Function.update s₁.lastFinishTags _ _ = _
        rw [← hit, ← hclock]
        rfl
      delay := by
        intro i
        rw [hs]
        show (s₁.stats i).dsfqDelayValues = _
        rw [htaked, hcountd]
      itemId := by
        rw [hs]
        show s₁.itemId + 1 = _
        rw [htake.itemId, hcount.itemId]
      newItemAdded := by rw [hs] }

namespace DsfqEnqueued

variable {pool : Nat → Endpoint} {si : SocketInfo} {pi : PvfsInfo} {s s' : Dsfq} {b : Bool}
  {it : DsfqItem}

theorem queued (h : DsfqEnqueued pool si pi s s' b it) : s'.queued = s.queued ++ [it] := by
  obtain ⟨q, hq, hq'⟩ := h.queue
  simp [Dsfq.queued, hq, hq']

/-- The clock of the item's application is its finish tag. -/
theorem clock_app (h : DsfqEnqueued pool si pi s s' b it) : s'.lastFinishTags
    = Function.update s.lastFinishTags it.embedded.appIndex it.embedded.finishTag := by
  rw [h.clock, h.app]

/-- Without a negative delay no item starts before the clock, and without a negative length
none ends before it starts. -/
theorem tags (h : DsfqEnqueued pool si pi s s' b it)
    (hdelay : ∀ app, 0 ≤ (s.stats app).dsfqDelayValues)
    (hw : 0 < (pool si.requestSocket).weight) (hlen : 0 ≤ pi.currentDataSize) :
    s.virtualTime ≤ it.embedded.startTag
      ∧ s.lastFinishTags it.embedded.appIndex ≤ it.embedded.startTag
      ∧ it.embedded.startTag ≤ it.embedded.finishTag := by
  have hpending := Dsfq.pendingDelay_nonneg (hdelay (pool si.requestSocket).appIndex) hw
  have hadvance := Dsfq.advance_nonneg hw hlen
  have hstart := h.startTag
  have hfinish := h.finishTag
  unfold Dsfq.nextStart at hstart
  rw [h.app]
  omega

end DsfqEnqueued

theorem dsfqEnqueue_returns {pool : Nat → Endpoint} {si : SocketInfo} (pi : PvfsInfo)
    {g : Globals Dsfq} {q : List DsfqItem} (hw : (pool si.requestSocket).weight ≠ 0)
    (hq : g.sched.llistQueue = some q) :
    ∃ res, dsfqEnqueue pool si pi g = .ok res := by
  have hw' : (pool si.requestSocket).weight * dsfqReducer ≠ 0 :=
    Int.mul_ne_zero hw (by decide)
  have htake : ∀ s : Dsfq, ∃ res, dsfqTakeDelay (pool si.requestSocket).appIndex
      (pool si.requestSocket).weight s = .ok res := by
    intro s
    unfold dsfqTakeDelay
    exact ⟨_, if_neg hw'⟩
  have hinsert : ∀ (it : DsfqItem) (s : Dsfq), s.llistQueue = some q →
      ∃ res, dsfqInsert it s = .ok res := by
    intro it s hs
    unfold dsfqInsert
    rw [hs]
    exact ⟨_, if_neg (by simp [pintLlistAddToTail])⟩
  obtain ⟨⟨s₁, delay⟩, h₁⟩ := htake (dsfqCount (pool si.requestSocket).appIndex
    pi.currentDataSize g.sched)
  refine Machine.bind_returns h₁ ?_
  have hs₁ : s₁.llistQueue = some q := by
    rw [(dsfqTakeDelay_ok h₁).2.2.1.queue, (dsfqCount_frame ..).1.queue]
    exact hq
  exact Machine.bind_returns (hinsert _ _ (by exact hs₁)).choose_spec ⟨_, rfl⟩

/-- A dequeue takes the head of the sorted queue, or gives a slot back when
the queue is empty. -/
theorem dsfqDequeue_cases (r : DequeueReason DsfqQueueItem) (g : Globals Dsfq) :
    (g.sched.queued = []
      ∧ (dsfqDequeue r g).2 = none
      ∧ (dsfqDequeue r g).1.sched =
          { g.sched with
            newItemAdded := false
            currentDepth := g.sched.currentDepth - 1
            llistQueue := if g.sched.newItemAdded then none else g.sched.llistQueue })
    ∨ ∃ it rest, (dsfqDequeue r g).2 = some it
      ∧ (if g.sched.newItemAdded then StableSorted dsfqLe g.sched.queued (it :: rest)
          else g.sched.queued = it :: rest)
      ∧ (dsfqDequeue r g).1.sched =
          { g.sched with
            newItemAdded := false
            virtualTime := it.embedded.startTag
            stats := Function.update g.sched.stats it.embedded.appIndex
              { g.sched.stats it.embedded.appIndex with
                dsfqAppDispatch := (g.sched.stats it.embedded.appIndex).dsfqAppDispatch + 1 }
            queueSize := g.sched.queueSize - 1
            llistQueue := some rest } := by
  have hrem : ∀ (it : DsfqItem) (rest : List DsfqItem),
      pintLlistRem (some (it :: rest)) it.itemId listReqComp = (some it, some rest) := by
    intro it rest
    simp [pintLlistRem, listReqComp]
  cases hadded : g.sched.newItemAdded with
  | false =>
      cases hq : g.sched.llistQueue with
      | none => left; simp [dsfqDequeue, Dsfq.queued, hadded, hq, pintLlistHead]
      | some q =>
          cases q with
          | nil => left; simp [dsfqDequeue, Dsfq.queued, hadded, hq, pintLlistHead]
          | cons it rest =>
              right
              refine ⟨it, rest, ?_⟩
              simp [dsfqDequeue, Dsfq.queued, hadded, hq, pintLlistHead, hrem, Dsfq.modifyStats]
  | true =>
      cases hq : g.sched.llistQueue with
      | none => left; simp [dsfqDequeue, Dsfq.queued, hadded, hq, pintLlistHead, pintLlistSort]
      | some q =>
          cases hne : q with
          | nil => left; simp [dsfqDequeue, Dsfq.queued, hadded, hq, hne, pintLlistHead,
              pintLlistSort]
          | cons a l =>
              right
              obtain ⟨l', hl', hst⟩ := pintLlistSort_spec dsfqLe_preorder (l := a :: l) (by simp)
              cases l' with
              | nil => exact absurd hst.perm.symm.eq_nil (by simp)
              | cons it rest =>
                  refine ⟨it, rest, ?_⟩
                  simp [dsfqDequeue, Dsfq.queued, hadded, hq, hne, pintLlistHead, hl', hrem, hst,
                    Dsfq.modifyStats]

end PvfsProxy
