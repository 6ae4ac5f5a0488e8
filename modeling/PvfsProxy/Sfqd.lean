import PvfsProxy.Llist
import PvfsProxy.SchedulerMain

/-!
# The SFQD scheduler

`scheduler_SFQD.c` with its list queue (`USE_HEAP_QUEUE` is 0). The queue is
sorted lazily: an enqueue appends and clears `sorted`, the next dequeue sorts
by start tag and takes the head. A dequeue that finds the queue empty gives
the slot back by lowering `sfqd_current_depth`.

Enqueue and dequeue come with the one lemma that says what each can do
(`sfqdEnqueue_ok`, `sfqdDequeue_cases`); no later proof unfolds them.
-/

namespace PvfsProxy

open StableSort

structure SfqdQueueItem where
  requestSocket : Int
  startTag : Int
  finishTag : Int
  dataSocket : Int
  requestSocketIndex : Nat
  dataSocketIndex : Nat
  dataFileSize : Int
  stripSize : Int
  serverNr : Int
  fileOffset : Int
  aggregateSize : Int
  serverCount : Int
  socketTag : Int
  appIndex : Nat
  streamId : Int
  taskSize : Int
  overCount : Int
  gotSize : Int
  ioType : Int
  bufferSize : Int
deriving Repr, DecidableEq

abbrev SfqdItem := GenericQueueItem SfqdQueueItem

/-- The file-level variables of `scheduler_SFQD.c`. -/
structure Sfqd where
  sorted : Bool
  depth : Int
  currentDepth : Int
  virtualTime : Int
  lastFinishTags : Nat → Int
  listQueueCount : Nat → Int
  itemId : Int
  llistQueue : PintLlist SfqdItem

/-- `sfqd_init` after `sfqd_load_data_from_config` -/
def sfqdInit (depth : Int) : Sfqd where
  sorted := false
  depth := depth
  currentDepth := 0
  virtualTime := 0
  lastFinishTags := fun _ => 0
  listQueueCount := fun _ => 0
  itemId := 0
  llistQueue := pintLlistNew

def reducer : Int := 1024

/-- `get_finish_tag`; both cost models compute the same cost. -/
def getFinishTag (length weight startTag : Int) : Except Fault Int :=
  let cost := length
  if weight * reducer > cost then .ok (startTag + 1)
  else if weight = 0 then .error .divisionByZero
  else .ok (startTag + (cost.tdiv weight).tdiv reducer)

/-- The leading `int`s of a `struct sfqd_queue_item`. -/
def SfqdQueueItem.ints (e : SfqdQueueItem) : List Int :=
  [e.requestSocket, e.startTag, e.finishTag]

/-- `list_sfqd_sort_comp` takes every embedded item for a `sfqd_queue_item`,
whose `start_tag` is its second `int`; `ints` is what lies there. -/
def listSfqdSortComp {ι : Type} (ints : ι → List Int) (a b : GenericQueueItem ι) : Int :=
  (ints a.embedded).getD 1 0 - (ints b.embedded).getD 1 0

/-- The item `sfqd_enqueue` allocates for a request. -/
def sfqdNewItem (pool : Nat → Endpoint) (si : SocketInfo) (pi : PvfsInfo)
    (startTag finishTag streamId itemId : Int) : SfqdItem where
  itemId := itemId
  socketData := si
  embedded :=
    { requestSocket := (pool si.requestSocket).socket
      startTag := startTag
      finishTag := finishTag
      dataSocket := (pool si.dataSocket).socket
      requestSocketIndex := si.requestSocket
      dataSocketIndex := si.dataSocket
      dataFileSize := 0
      stripSize := pi.stripSize
      serverNr := pi.currentServer
      fileOffset := pi.reqOffset
      aggregateSize := pi.aggregateSize
      serverCount := pi.totalServer
      socketTag := pi.tag
      appIndex := (pool si.requestSocket).appIndex
      streamId := streamId
      taskSize := pi.currentDataSize
      overCount := 0
      gotSize := 0
      ioType := pi.ioType
      bufferSize := pi.reqSize }

/-- `sfqd_enqueue`, returning whether the request may be dispatched at once. -/
def sfqdEnqueue (pool : Nat → Endpoint) (si : SocketInfo) (pi : PvfsInfo)
    (g : Globals Sfqd) : Except Fault (Globals Sfqd × Bool) := do
  let g := g.modifyApp si.appIndex fun a =>
    { a with receivedRequests := a.receivedRequests + 1 }
  let s : Sfqd := { g.sched with sorted := false }
  let length := pi.currentDataSize
  let appIndex := (pool si.requestSocket).appIndex
  let weight := (pool si.requestSocket).weight
  let startTag := max s.virtualTime (s.lastFinishTags appIndex)
  let s := { s with
    listQueueCount := Function.update s.listQueueCount appIndex (s.listQueueCount appIndex + 1) }
  let finishTag ← getFinishTag length weight startTag
  let s := { s with lastFinishTags := Function.update s.lastFinishTags appIndex finishTag }
  let item := sfqdNewItem pool si pi startTag finishTag (g.appStats appIndex).streamId s.itemId
  let g := g.modifyApp appIndex fun a => { a with streamId := a.streamId + 1 }
  let s := { s with itemId := s.itemId + 1 }
  let added := pintLlistAddToTail s.llistQueue item
  if added.1 ≠ 0 then throw (.exit (-1))
  let s : Sfqd := { s with llistQueue := added.2 }
  let dispatched := decide (s.currentDepth < s.depth)
  let s := if dispatched then { s with currentDepth := s.currentDepth + 1 } else s
  let g := g.modifyApp appIndex fun a => { a with reqCome := a.reqCome + 1 }
  return ({ g with sched := s }, dispatched)

/-- `sfqd_dequeue`. The reason is read only for logging. -/
def sfqdDequeue (_r : DequeueReason SfqdQueueItem) (g : Globals Sfqd) :
    Globals Sfqd × Option SfqdItem :=
  let s := g.sched
  let s := if s.sorted then s
    else { s with
      llistQueue := pintLlistSort s.llistQueue (listSfqdSortComp SfqdQueueItem.ints)
      sorted := true }
  match pintLlistHead s.llistQueue with
  | none => ({ g with sched := { s with currentDepth := s.currentDepth - 1 } }, none)
  | some next =>
    match pintLlistRem s.llistQueue next.itemId listReqComp with
    | (none, queue) =>
      ({ g with sched := { s with llistQueue := queue, currentDepth := s.currentDepth - 1 } }, none)
    | (some nextItem, queue) =>
      let app := nextItem.embedded.appIndex
      let s := { s with
        llistQueue := queue
        listQueueCount := Function.update s.listQueueCount app (s.listQueueCount app - 1)
        virtualTime := nextItem.embedded.startTag }
      let g := { g with sched := s }
      (g.modifyApp nextItem.socketData.appIndex fun a =>
        { a with reqGo := a.reqGo + 1, dispatchedRequests := a.dispatchedRequests + 1 },
        some nextItem)

def sfqdUpdateOnRequestCompletion (complete : CompleteMessage SfqdQueueItem) :
    Except Fault (SfqdItem × Int) :=
  match complete.currentItem with
  | none => .error .nullPointer
  | some it =>
    let e := { it.embedded with gotSize := it.embedded.gotSize + complete.completeSize }
    if e.taskSize = e.gotSize then .ok ({ it with embedded := e }, e.gotSize)
    else if e.taskSize < e.gotSize then
      .ok ({ it with embedded := { e with overCount := e.overCount + 1 } }, -1)
    else .ok ({ it with embedded := e }, 0)

/-- `sfqd_current_size`. `get_my_share` is called with five of its six
arguments; the call is the parameter `myShare`. -/
def sfqdCurrentSize (myShare : Int → Int → Int → Int → Int → Int)
    (currentItem : Option SfqdItem) (actualDataFileSize : Int) :
    Except Fault (SfqdItem × Int) :=
  match currentItem with
  | none => .error (.exit (-1))
  | some it =>
    let e := it.embedded
    let share := myShare e.stripSize e.serverCount e.fileOffset e.aggregateSize e.serverNr
    .ok ({ it with embedded := { e with dataFileSize := actualDataFileSize, taskSize := share } },
      share)

def sfqdAddTtlTp (thisAmount : Int) (appIndex : Nat) (g : Globals Sfqd) : Globals Sfqd :=
  { g with totalThroughput := g.totalThroughput + thisAmount }.modifyApp appIndex fun a =>
    { a with
      byteCounter := a.byteCounter + thisAmount
      appThroughput := a.appThroughput + thisAmount }

def schSfqd (myShare : Int → Int → Int → Int → Int → Int) :
    SchedulerMethod Sfqd SfqdQueueItem where
  workConserving := true
  schEnqueue pool si pi g := do
    let (g, dispatched) ← sfqdEnqueue pool si pi g
    return { globals := g, ret := dispatched }
  schDequeue r g :=
    let (g, item) := sfqdDequeue r g
    .ok { globals := g, ret := item }
  schUpdateOnRequestCompletion complete g := do
    let (item, got) ← sfqdUpdateOnRequestCompletion complete
    return { globals := g, ret := (some item, got) }
  schCurrentSize := some fun item size => do
    let (item, share) ← sfqdCurrentSize myShare item size
    return (some item, share)
  schAddTtlThroughput := sfqdAddTtlTp
  schCalculateDiff := none
  schSelfDispatch := false
  schAcceptMeta := false

/-! ## What the two functions can do -/

namespace Sfqd

def queued (s : Sfqd) : List SfqdItem := s.llistQueue.getD []

/-- The start tag a request of `app` would get now. -/
def nextStart (s : Sfqd) (app : Nat) : Int := max s.virtualTime (s.lastFinishTags app)

end Sfqd

abbrev sfqdLe : SfqdItem → SfqdItem → Bool := compLe (listSfqdSortComp SfqdQueueItem.ints)

theorem sfqdLe_iff {a b : SfqdItem} :
    sfqdLe a b = true ↔ a.embedded.startTag ≤ b.embedded.startTag := by
  refine decide_eq_true_iff.trans ?_
  show a.embedded.startTag - b.embedded.startTag ≤ 0 ↔ _
  omega

theorem sfqdLe_preorder : TotalPreorder sfqdLe :=
  totalPreorder_sub fun it : SfqdItem => it.embedded.startTag

/-- An enqueue that returns appended one item, numbered `itemId` and tagged
from the application's clock, and took a slot exactly when one was free. -/
theorem sfqdEnqueue_ok {pool : Nat → Endpoint} {si : SocketInfo} {pi : PvfsInfo}
    {g g' : Globals Sfqd} {b : Bool} (h : sfqdEnqueue pool si pi g = .ok (g', b)) :
    ∃ q finishTag streamId, g.sched.llistQueue = some q
      ∧ getFinishTag pi.currentDataSize (pool si.requestSocket).weight
          (g.sched.nextStart (pool si.requestSocket).appIndex) = .ok finishTag
      ∧ b = decide (g.sched.currentDepth < g.sched.depth)
      ∧ g'.sched =
          { g.sched with
            sorted := false
            currentDepth := if b then g.sched.currentDepth + 1 else g.sched.currentDepth
            lastFinishTags := Function.update g.sched.lastFinishTags
              (pool si.requestSocket).appIndex finishTag
            listQueueCount := Function.update g.sched.listQueueCount
              (pool si.requestSocket).appIndex
              (g.sched.listQueueCount (pool si.requestSocket).appIndex + 1)
            itemId := g.sched.itemId + 1
            llistQueue := some (q ++ [sfqdNewItem pool si pi
              (g.sched.nextStart (pool si.requestSocket).appIndex) finishTag streamId
              g.sched.itemId]) } := by
  simp only [sfqdEnqueue, Machine.bind_eq_ok, Globals.modifyApp_sched] at h
  obtain ⟨finishTag, hfin, h⟩ := h
  cases hq : g.sched.llistQueue with
  | none =>
      simp [hq, pintLlistAddToTail, throw, throwThe, MonadExceptOf.throw, bind,
        Except.bind] at h
  | some q =>
      simp only [hq, pintLlistAddToTail, ne_eq, not_true_eq_false, if_false, Machine.pure_eq_ok,
        Prod.mk.injEq] at h
      obtain ⟨rfl, rfl⟩ := h
      refine ⟨q, finishTag, ((g.modifyApp si.appIndex fun a =>
        { a with receivedRequests := a.receivedRequests + 1 }).appStats
          (pool si.requestSocket).appIndex).streamId, rfl, hfin, rfl, ?_⟩
      by_cases hd : g.sched.currentDepth < g.sched.depth
      · simp only [hd, decide_true, if_true]
        rfl
      · simp only [hd, decide_false, if_false, Bool.false_eq_true]
        rfl

/-- A dequeue takes the head of the sorted queue, or gives a slot back when
the queue is empty. -/
theorem sfqdDequeue_cases (r : DequeueReason SfqdQueueItem) (g : Globals Sfqd) :
    (g.sched.queued = []
      ∧ (sfqdDequeue r g).2 = none
      ∧ (sfqdDequeue r g).1.sched =
          { g.sched with
            sorted := true
            currentDepth := g.sched.currentDepth - 1
            llistQueue := if g.sched.sorted then g.sched.llistQueue else none })
    ∨ ∃ it rest, (sfqdDequeue r g).2 = some it
      ∧ (if g.sched.sorted then g.sched.queued = it :: rest
          else StableSorted sfqdLe g.sched.queued (it :: rest))
      ∧ (sfqdDequeue r g).1.sched =
          { g.sched with
            sorted := true
            virtualTime := it.embedded.startTag
            listQueueCount := Function.update g.sched.listQueueCount
              it.embedded.appIndex (g.sched.listQueueCount it.embedded.appIndex - 1)
            llistQueue := some rest } := by
  have hrem : ∀ (it : SfqdItem) (rest : List SfqdItem),
      pintLlistRem (some (it :: rest)) it.itemId listReqComp = (some it, some rest) := by
    intro it rest
    simp [pintLlistRem, listReqComp]
  cases hsorted : g.sched.sorted with
  | true =>
      cases hq : g.sched.llistQueue with
      | none => left; simp [sfqdDequeue, Sfqd.queued, hsorted, hq, pintLlistHead]
      | some q =>
          cases q with
          | nil => left; simp [sfqdDequeue, Sfqd.queued, hsorted, hq, pintLlistHead]
          | cons it rest =>
              right
              refine ⟨it, rest, ?_⟩
              simp [sfqdDequeue, Sfqd.queued, hsorted, hq, pintLlistHead, hrem]
  | false =>
      cases hq : g.sched.llistQueue with
      | none => left; simp [sfqdDequeue, Sfqd.queued, hsorted, hq, pintLlistHead, pintLlistSort]
      | some q =>
          cases hne : q with
          | nil => left; simp [sfqdDequeue, Sfqd.queued, hsorted, hq, hne, pintLlistHead,
              pintLlistSort]
          | cons a l =>
              right
              obtain ⟨l', hl', hst⟩ := pintLlistSort_spec sfqdLe_preorder (l := a :: l) (by simp)
              cases l' with
              | nil => exact absurd hst.perm.symm.eq_nil (by simp)
              | cons it rest =>
                  refine ⟨it, rest, ?_⟩
                  simp [sfqdDequeue, Sfqd.queued, hsorted, hq, hne, pintLlistHead, hl', hrem, hst]

/-- What is left in the queue and the item taken are what was queued. -/
theorem sfqdDequeue_perm {r : DequeueReason SfqdQueueItem} {g : Globals Sfqd} {it : SfqdItem}
    (h : (sfqdDequeue r g).2 = some it) :
    (it :: (sfqdDequeue r g).1.sched.queued).Perm g.sched.queued := by
  obtain ⟨_, hnone, _⟩ | ⟨it', rest, hit, hq, hs⟩ := sfqdDequeue_cases r g
  · rw [hnone] at h
    cases h
  · rw [hit] at h
    cases h
    rw [hs]
    split at hq
    · exact .of_eq hq.symm
    · exact hq.perm

theorem sfqdDequeue_subset (r : DequeueReason SfqdQueueItem) (g : Globals Sfqd) :
    (sfqdDequeue r g).2.toList ++ (sfqdDequeue r g).1.sched.queued ⊆ g.sched.queued := by
  obtain ⟨hnil, hnone, hs⟩ | ⟨it, rest, hit, -, hs⟩ := sfqdDequeue_cases r g
  · rw [hnone, hs]
    unfold Sfqd.queued at hnil ⊢
    split
    · exact fun _ => id
    · exact List.nil_subset _
  · have hperm := sfqdDequeue_perm hit
    rw [hit]
    exact hperm.subset

/-- With one item queued there is no choice. -/
theorem sfqdDequeue_singleton (r : DequeueReason SfqdQueueItem) {g : Globals Sfqd}
    {it : SfqdItem} (h : g.sched.queued = [it]) :
    (sfqdDequeue r g).2 = some it
      ∧ (sfqdDequeue r g).1.sched =
          { g.sched with
            sorted := true
            virtualTime := it.embedded.startTag
            listQueueCount := Function.update g.sched.listQueueCount
              it.embedded.appIndex (g.sched.listQueueCount it.embedded.appIndex - 1)
            llistQueue := some [] } := by
  obtain ⟨hnil, _, _⟩ | ⟨it', rest, hit, hq, hs⟩ := sfqdDequeue_cases r g
  · rw [h] at hnil
    cases hnil
  · have hperm : (it' :: rest).Perm [it] := by
      rw [← h]
      split at hq
      · exact .of_eq hq.symm
      · exact hq.perm
    obtain ⟨rfl, rfl⟩ := List.cons.inj (List.perm_singleton.mp hperm)
    exact ⟨hit, hs⟩

end PvfsProxy
