import PvfsProxy.Llist
import PvfsProxy.SchedulerMain

/-!
# The two-level scheduler

`scheduler_2LSFQD.c`: a queue for every application that is drained against
credits (SARC), in front of one queue ordered by deadline (EDF), from which
requests are released until the storage holds `timewindow_queue_threshold` of
them. The scheduler releases requests itself, from within its enqueue and its
completion hook and from its two threads.

An item is one object in the source, in the queues and in the request's
`current_item`. Here the queues write to `marks`, by the item's id; what the
size and the completion hook write stays in the item. The clock is a
parameter: `clock n` is what the `n`-th call of `gettimeofday` returns of those
whose value the logic reads.

`twolsfqd_dequeue_all` calls itself through the EDF queue. The recursion is
bounded by the number of requests that wait for credits. The statistics that
only the floating-point part of the window thread reads are left out.
-/

namespace PvfsProxy

open StableSort

/-- The head of a list is found under its own id. -/
theorem pintLlistRem_head {ι : Type} (a : GenericQueueItem ι) (l : List (GenericQueueItem ι)) :
    pintLlistRem (some (a :: l)) a.itemId listReqComp = (some a, some l) := by
  simp [pintLlistRem, listReqComp]

/-! ## `struct timeval` -/

structure Timeval where
  sec : Int
  usec : Int
deriving Repr, DecidableEq

def Timeval.add (a b : Timeval) : Timeval :=
  if a.usec + b.usec ≥ 1000000 then
    { sec := a.sec + b.sec + 1, usec := a.usec + b.usec - 1000000 }
  else { sec := a.sec + b.sec, usec := a.usec + b.usec }

/-- `timercmp(a, b, <)` -/
def Timeval.lt (a b : Timeval) : Bool :=
  if a.sec = b.sec then decide (a.usec < b.usec) else decide (a.sec < b.sec)

/-- `timercmp(a, b, <=)` -/
def Timeval.le (a b : Timeval) : Bool :=
  if a.sec = b.sec then decide (a.usec ≤ b.usec) else decide (a.sec ≤ b.sec)

/-! ## State -/

structure TwolsfqdQueueItem where
  requestSocket : Int
  startTag : Int
  finishTag : Int
  dataSocket : Int
  requestSocketIndex : Nat
  dataSocketIndex : Nat
  dataFileSize : Int
  stripSize : Int
  serverNr : Int
  fileOffset : Int
  aggregateSize : Int
  serverCount : Int
  socketTag : Int
  appIndex : Nat
  streamId : Int
  taskSize : Int
  overCount : Int
  gotSize : Int
  ioType : Int
  bufferSize : Int
deriving Repr, DecidableEq

abbrev TwolsfqdItem := GenericQueueItem TwolsfqdQueueItem

/-- The fields of an item that the queues write. -/
structure TwolsfqdMarks where
  deadline : Timeval
  timewindow : Int
  deadlineInCurrentTimewindow : Bool
  dispatched : Int
deriving Repr, DecidableEq

/-- The file-level variables of `scheduler_2LSFQD.c`, with `num_apps` and the
configured rates and latencies. -/
structure Twolsfqd where
  numApps : Nat
  appRate : Nat → Int
  iedfDeadlinesTimeval : Nat → Timeval
  replenishTime : Int
  virtualTime : Int
  lastFinishTags : Nat → Int
  itemId : Int
  queueIndex : Nat
  sarcCredits : Nat → Int
  sarcCreditList : Nat → PintLlist TwolsfqdItem
  iedfLlistQueue : PintLlist TwolsfqdItem
  edfQueueLength : Int
  marks : Int → TwolsfqdMarks
  timewindowId : Int
  timewindowArrival : Int
  timewindowArrivalDeadline : Int
  timewindowTtlCompleted : Int
  timewindowMaxOutstanding : Int
  timewindowQueueThreshold : Int
  timewindowCurrentQueueLength : Int
  currentTimeWindowEnd : Timeval
  nextTimeWindowEnd : Timeval
  lastReplenishTime : Timeval
  /-- how often the clock was read -/
  ticks : Nat

/-- `twolsfqd_init` after `twolsfqd_load_data_from_config`, before its threads
have run. `junk` is what `malloc` finds in an item. -/
def twolsfqdInit (numApps : Nat) (appRate : Nat → Int) (deadlines : Nat → Timeval)
    (replenishTime threshold : Int) (junk : Int → TwolsfqdMarks) : Twolsfqd where
  numApps := numApps
  appRate := appRate
  iedfDeadlinesTimeval := deadlines
  replenishTime := replenishTime
  virtualTime := 0
  lastFinishTags _ := 0
  itemId := 0
  queueIndex := 0
  sarcCredits i := toInt32 (appRate i * 1048576)
  sarcCreditList _ := pintLlistNew
  iedfLlistQueue := pintLlistNew
  edfQueueLength := 0
  marks := junk
  timewindowId := 0
  timewindowArrival := 0
  timewindowArrivalDeadline := 0
  timewindowTtlCompleted := 0
  timewindowMaxOutstanding := 0
  timewindowQueueThreshold := threshold
  timewindowCurrentQueueLength := 0
  currentTimeWindowEnd := { sec := 0, usec := 0 }
  nextTimeWindowEnd := { sec := 0, usec := 0 }
  lastReplenishTime := { sec := 0, usec := 0 }
  ticks := 0

namespace Twolsfqd

def gettimeofday (clock : Nat → Timeval) (s : Twolsfqd) : Twolsfqd × Timeval :=
  ({ s with ticks := s.ticks + 1 }, clock s.ticks)

def mark (s : Twolsfqd) (id : Int) (f : TwolsfqdMarks → TwolsfqdMarks) : Twolsfqd :=
  { s with marks := Function.update s.marks id (f (s.marks id)) }

/-- The requests of the first `num_apps` applications that wait for credits. -/
def waiting (s : Twolsfqd) : List TwolsfqdItem :=
  (List.range s.numApps).flatMap fun l => (s.sarcCreditList l).getD []

end Twolsfqd

/-- The globals in the middle of a call, with the request states unlocked so
far. -/
structure TwolsfqdCall where
  g : Globals Twolsfqd
  unlocked : List Addr

def TwolsfqdCall.sched (c : TwolsfqdCall) : Twolsfqd := c.g.sched

def TwolsfqdCall.setSched (c : TwolsfqdCall) (s : Twolsfqd) : TwolsfqdCall :=
  { c with g := { c.g with sched := s } }

/-! ## Credits -/

def twolsfqdReplenish (clock : Nat → Timeval) (s : Twolsfqd) : Twolsfqd :=
  let s := { s with
    sarcCredits := fun i =>
      if i < s.numApps then
        toInt32 ((toInt32 (s.appRate i * 1048576)).tdiv 1000 * s.replenishTime)
      else s.sarcCredits i }
  let (s, now) := s.gettimeofday clock
  { s with lastReplenishTime := now }

/-- `twolsfqd_update_spareness`; the comparison with `threshold * 0.9` is exact. -/
def twolsfqdUpdateSpareness (clock : Nat → Timeval) (s : Twolsfqd) : Twolsfqd :=
  if s.timewindowQueueThreshold * 9 > s.timewindowCurrentQueueLength * 10 then
    twolsfqdReplenish clock s
  else s

/-! ## The EDF queue -/

def listEdfSortComp (marks : Int → TwolsfqdMarks) (a b : TwolsfqdItem) : Int :=
  let a := (marks a.itemId).deadline
  let b := (marks b.itemId).deadline
  if a.sec < b.sec then -1 else if a.sec > b.sec then 1 else a.usec - b.usec

def twolsfqdEdfDequeue (c : TwolsfqdCall) : TwolsfqdCall × Option TwolsfqdItem :=
  match pintLlistHead c.sched.iedfLlistQueue with
  | none => (c, none)
  | some item =>
    match pintLlistRem c.sched.iedfLlistQueue item.itemId listReqComp with
    | (none, queue) => (c.setSched { c.sched with iedfLlistQueue := queue }, none)
    | (some next, queue) =>
      let s := { c.sched with iedfLlistQueue := queue }.mark next.itemId fun m =>
        { m with dispatched := 1 }
      let m := s.marks next.itemId
      let s :=
        if m.timewindow = s.timewindowId then
          { s with
            timewindowArrival := s.timewindowArrival - 1
            timewindowArrivalDeadline :=
              if m.deadlineInCurrentTimewindow then s.timewindowArrivalDeadline - 1
              else s.timewindowArrivalDeadline }
        else s
      let s := { s with
        virtualTime := next.embedded.startTag
        timewindowCurrentQueueLength := s.timewindowCurrentQueueLength + 1
        edfQueueLength := s.edfQueueLength - 1 }
      ({ g := { c.g with sched := s }.modifyApp next.embedded.appIndex fun a =>
          { a with reqGo := a.reqGo + 1, dispatchedRequests := a.dispatchedRequests + 1 }
         unlocked := c.unlocked ++ [next.socketData.rs] }, some next)

/-- The first loop of `twolsfqd_edf_dequeue_all`: how many items are released,
those past their deadline and then up to the threshold. -/
def twolsfqdEdfCount (s : Twolsfqd) (now : Timeval) : List TwolsfqdItem → Nat → Nat
  | [], itemCount => itemCount
  | item :: queue, itemCount =>
    if (s.marks item.itemId).deadline.le now
        || decide (s.timewindowCurrentQueueLength + itemCount < s.timewindowQueueThreshold) then
      twolsfqdEdfCount s now queue (itemCount + 1)
    else itemCount

/-- The second loop; tells whether an item of the socket was released. -/
def twolsfqdEdfRelease (enqueuedSocket : Int) :
    Nat → TwolsfqdCall → Bool → Except Fault (TwolsfqdCall × Bool)
  | 0, c, dispatched => .ok (c, dispatched)
  | itemCount + 1, c, dispatched =>
    match twolsfqdEdfDequeue c with
    | (_, none) => .error .nullPointer
    | (c, some item) =>
      twolsfqdEdfRelease enqueuedSocket itemCount c
        (dispatched || item.embedded.requestSocket == enqueuedSocket)

/-- `twolsfqd_edf_dequeue_all`, given `twolsfqd_dequeue_all`. -/
def twolsfqdEdfDequeueAll (clock : Nat → Timeval)
    (dequeueAll : TwolsfqdCall → Except Fault TwolsfqdCall) (enqueuedSocket : Int)
    (c : TwolsfqdCall) : Except Fault (TwolsfqdCall × Bool) :=
  match c.sched.iedfLlistQueue with
  | none => .error .nullPointer
  | some queue => do
    let (s, now) := c.sched.gettimeofday clock
    let itemCount := twolsfqdEdfCount s now queue 0
    let (c, dispatched) ← twolsfqdEdfRelease enqueuedSocket itemCount (c.setSched s) false
    if itemCount > 0 then
      let c ← dequeueAll (c.setSched (twolsfqdUpdateSpareness clock c.sched))
      return (c, dispatched)
    else return (c, dispatched)

/-- `twolsfqd_edf_enqueue`. The deadline is that of the first application. -/
def twolsfqdEdfEnqueue (clock : Nat → Timeval)
    (dequeueAll : TwolsfqdCall → Except Fault TwolsfqdCall) (item : TwolsfqdItem)
    (c : TwolsfqdCall) : Except Fault TwolsfqdCall := do
  let (s, now) := c.sched.gettimeofday clock
  let s := { s with
    timewindowArrival := s.timewindowArrival + 1
    iedfLlistQueue := (pintLlistAddToTail s.iedfLlistQueue item).2
    edfQueueLength := s.edfQueueLength + 1 }
  let deadline := now.add (s.iedfDeadlinesTimeval 0)
  let s := s.mark item.itemId fun m =>
    { m with deadline := deadline, timewindow := s.timewindowId }
  let s :=
    if s.timewindowCurrentQueueLength ≠ 0 then
      { s with iedfLlistQueue := pintLlistSort s.iedfLlistQueue (listEdfSortComp s.marks) }
    else s
  let s :=
    if deadline.lt s.currentTimeWindowEnd then
      { s with timewindowArrivalDeadline := s.timewindowArrivalDeadline + 1 }.mark item.itemId
        fun m => { m with deadlineInCurrentTimewindow := true }
    else s
  let (c, dispatched) ←
    twolsfqdEdfDequeueAll clock dequeueAll item.embedded.requestSocket (c.setSched s)
  let s := c.sched.mark item.itemId fun m => { m with dispatched := if dispatched then 1 else 0 }
  return c.setSched { s with
    timewindowMaxOutstanding := max s.timewindowMaxOutstanding s.timewindowCurrentQueueLength }

/-! ## The SARC queues -/

/-- The loop of `twolsfqd_dequeue`, which tries every application once: the
request it takes from its queue, paid for with credits. -/
def twolsfqdSarcNext : Nat → Twolsfqd → Except Fault (Twolsfqd × Option TwolsfqdItem)
  | 0, s => .ok (s, none)
  | tries + 1, s =>
    let next := { s with queueIndex := (s.queueIndex + 1) % s.numApps }
    match pintLlistHead (s.sarcCreditList s.queueIndex) with
    | none => twolsfqdSarcNext tries next
    | some temp =>
      if s.sarcCredits s.queueIndex ≥ temp.embedded.taskSize then
        match pintLlistRem (s.sarcCreditList s.queueIndex) temp.itemId listReqComp with
        | (none, _) => .error .assertion
        | (some item, queue) =>
          let s := { s with
            sarcCreditList := Function.update s.sarcCreditList s.queueIndex queue
            sarcCredits := Function.update s.sarcCredits s.queueIndex
              (s.sarcCredits s.queueIndex - item.embedded.taskSize) }
          .ok (s.mark item.itemId fun m => { m with dispatched := 0 }, some item)
      else twolsfqdSarcNext tries next

/-- `twolsfqd_dequeue`, given `twolsfqd_dequeue_all`: a request is moved to the
EDF queue. The application is left only after that. -/
def twolsfqdDequeueStep (clock : Nat → Timeval)
    (dequeueAll : TwolsfqdCall → Except Fault TwolsfqdCall) (c : TwolsfqdCall) :
    Except Fault (TwolsfqdCall × Option TwolsfqdItem) := do
  let (s, next) ← twolsfqdSarcNext c.sched.numApps c.sched
  match next with
  | none => return (c.setSched s, none)
  | some next =>
    let c ← twolsfqdEdfEnqueue clock dequeueAll next (c.setSched s)
    return (c.setSched { c.sched with
      queueIndex := (c.sched.queueIndex + 1) % c.sched.numApps }, some next)

/-- The loop of `twolsfqd_dequeue_all`. -/
def twolsfqdDequeueLoop (clock : Nat → Timeval) :
    Nat → TwolsfqdCall → Except Fault TwolsfqdCall
  | 0, _ => .error (.exit (-1))
  | bound + 1, c => do
    let (c, item) ← twolsfqdDequeueStep clock (twolsfqdDequeueLoop clock bound) c
    match item with
    | none => return c
    | some _ => twolsfqdDequeueLoop clock bound c

def twolsfqdDequeueAll (clock : Nat → Timeval) (c : TwolsfqdCall) : Except Fault TwolsfqdCall :=
  twolsfqdDequeueLoop clock (c.sched.waiting.length + 1) c

/-- `twolsfqd_dequeue`, which the framework calls with a reason. -/
def twolsfqdDequeue (clock : Nat → Timeval) (_r : DequeueReason TwolsfqdQueueItem)
    (g : Globals Twolsfqd) : Except Fault (TwolsfqdCall × Option TwolsfqdItem) :=
  twolsfqdDequeueStep clock (twolsfqdDequeueAll clock) { g, unlocked := [] }

/-! ## The hooks -/

/-- The item `twolsfqd_enqueue` allocates for a request. -/
def twolsfqdNewItem (pool : Nat → Endpoint) (si : SocketInfo) (pi : PvfsInfo)
    (startTag finishTag streamId itemId : Int) : TwolsfqdItem where
  itemId := itemId
  socketData := si
  embedded :=
    { requestSocket := (pool si.requestSocket).socket
      startTag := startTag
      finishTag := finishTag
      dataSocket := (pool si.dataSocket).socket
      requestSocketIndex := si.requestSocket
      dataSocketIndex := si.dataSocket
      dataFileSize := 0
      stripSize := pi.stripSize
      serverNr := pi.currentServer
      fileOffset := pi.reqOffset
      aggregateSize := pi.aggregateSize
      serverCount := pi.totalServer
      socketTag := pi.tag
      appIndex := (pool si.requestSocket).appIndex
      streamId := streamId
      taskSize := pi.currentDataSize
      overCount := 0
      gotSize := 0
      ioType := pi.ioType
      bufferSize := pi.reqSize }

def twolsfqdReducer : Int := 1024

/-- The item with its tags, put into the queue of its application. -/
def twolsfqdInsert (pool : Nat → Endpoint) (si : SocketInfo) (pi : PvfsInfo)
    (g : Globals Twolsfqd) : Except Fault (Globals Twolsfqd × TwolsfqdItem) :=
  let g := g.modifyApp si.appIndex fun a =>
    { a with receivedRequests := a.receivedRequests + 1 }
  let s := g.sched
  let appIndex := (pool si.requestSocket).appIndex
  let weight := (pool si.requestSocket).weight
  let startTag := max s.virtualTime (s.lastFinishTags appIndex)
  if weight = 0 then .error .divisionByZero
  else
    let finishTag := startTag + (pi.currentDataSize.tdiv weight).tdiv twolsfqdReducer
    let item :=
      twolsfqdNewItem pool si pi startTag finishTag (g.appStats appIndex).streamId s.itemId
    let s := { s with
      lastFinishTags := Function.update s.lastFinishTags appIndex finishTag
      itemId := s.itemId + 1
      sarcCreditList := Function.update s.sarcCreditList appIndex
        (pintLlistAddToTail (s.sarcCreditList appIndex) item).2 }
    let s := s.mark item.itemId fun m => { m with dispatched := -1 }
    let g := g.modifyApp appIndex fun a => { a with streamId := a.streamId + 1 }
    .ok ({ g with sched := s }, item)

/-- `twolsfqd_dequeue_all` for a new request, whose lock it decides on. -/
def twolsfqdRelease (clock : Nat → Timeval) (item : TwolsfqdItem) (c : TwolsfqdCall) :
    Except Fault (TwolsfqdCall × Bool) := do
  let c ← twolsfqdDequeueAll clock c
  return (c, decide ((c.sched.marks item.itemId).dispatched ≤ 0))

/-- A new request waits unless its application has the credits for it, if need
be after they have been replenished. -/
def twolsfqdTryRelease (clock : Nat → Timeval) (appIndex : Nat) (length : Int)
    (item : TwolsfqdItem) (c : TwolsfqdCall) : Except Fault (TwolsfqdCall × Bool) :=
  if c.sched.sarcCredits appIndex ≥ length then twolsfqdRelease clock item c
  else
    let c := c.setSched (twolsfqdUpdateSpareness clock c.sched)
    if c.sched.sarcCredits appIndex ≥ length then twolsfqdRelease clock item c
    else .ok (c, true)

/-- `twolsfqd_enqueue`, which never says that the request may go. -/
def twolsfqdEnqueue (clock : Nat → Timeval) (pool : Nat → Endpoint) (si : SocketInfo)
    (pi : PvfsInfo) (g : Globals Twolsfqd) :
    Except Fault (EnqueueResult Twolsfqd TwolsfqdQueueItem) := do
  let appIndex := (pool si.requestSocket).appIndex
  let (g, item) ← twolsfqdInsert pool si pi g
  let (c, locked) ←
    twolsfqdTryRelease clock appIndex pi.currentDataSize item { g, unlocked := [] }
  return {
    globals := c.g.modifyApp appIndex fun a => { a with reqCome := a.reqCome + 1 }
    ret := false
    unlocked := c.unlocked
    locksNew := locked
    newItem := some item }

/-- What `twolsfqd_edf_complete` counts for an item that is complete. -/
def twolsfqdCount (item : TwolsfqdItem) (g : Globals Twolsfqd) : Globals Twolsfqd :=
  let s := g.sched
  let m := s.marks item.itemId
  let s :=
    if m.timewindow = s.timewindowId then
      { s with
        timewindowArrival := s.timewindowArrival + 1
        timewindowArrivalDeadline :=
          if m.deadlineInCurrentTimewindow then s.timewindowArrivalDeadline + 1
          else s.timewindowArrivalDeadline }
    else s
  { g with sched := { s with
      timewindowTtlCompleted := s.timewindowTtlCompleted + 1
      timewindowCurrentQueueLength := s.timewindowCurrentQueueLength - 1 } }.modifyApp
    item.embedded.appIndex fun a => { a with completedRequests := a.completedRequests + 1 }

/-- The item after `complete_size` more bytes; anything but a positive number
completes it. -/
def twolsfqdGot (completeSize : Int) (e : TwolsfqdQueueItem) : TwolsfqdQueueItem :=
  { e with gotSize := if completeSize > 0 then e.gotSize + completeSize else e.taskSize }

def twolsfqdEdfComplete (clock : Nat → Timeval) (complete : CompleteMessage TwolsfqdQueueItem)
    (g : Globals Twolsfqd) :
    Except Fault (HookResult Twolsfqd (Option TwolsfqdItem × Int)) :=
  match complete.currentItem with
  | none => .error .nullPointer
  | some it =>
    let e := twolsfqdGot complete.completeSize it.embedded
    if e.taskSize = e.gotSize then do
      let (c, _) ← twolsfqdEdfDequeueAll clock (twolsfqdDequeueAll clock) (-1)
        { g := twolsfqdCount it g, unlocked := [] }
      return { globals := c.g, ret := (some { it with embedded := e }, e.gotSize),
               unlocked := c.unlocked }
    else if e.taskSize < e.gotSize then
      .ok { globals := g,
            ret := (some { it with embedded := { e with overCount := e.overCount + 1 } }, -1) }
    else .ok { globals := g, ret := (some { it with embedded := e }, 0) }

/-- `twolsfqd_current_size`. `get_my_share` is called with five of its six
arguments; the call is the parameter `myShare`. -/
def twolsfqdCurrentSize (myShare : Int → Int → Int → Int → Int → Int)
    (currentItem : Option TwolsfqdItem) (actualDataFileSize : Int) :
    Except Fault (TwolsfqdItem × Int) :=
  match currentItem with
  | none => .error .nullPointer
  | some it =>
    let e := it.embedded
    let share := myShare e.stripSize e.serverCount e.fileOffset e.aggregateSize e.serverNr
    .ok ({ it with embedded := { e with dataFileSize := actualDataFileSize, taskSize := share } },
      share)

def twolsfqdAddTtlTp (thisAmount : Int) (appIndex : Nat) (g : Globals Twolsfqd) :
    Globals Twolsfqd :=
  { g with totalThroughput := g.totalThroughput + thisAmount }.modifyApp appIndex fun a =>
    { a with
      byteCounter := a.byteCounter + thisAmount
      appThroughput := a.appThroughput + thisAmount }

/-- `sch_2lsfqd` -/
def schTwolsfqd (clock : Nat → Timeval) (myShare : Int → Int → Int → Int → Int → Int) :
    SchedulerMethod Twolsfqd TwolsfqdQueueItem where
  workConserving := true
  schEnqueue := twolsfqdEnqueue clock
  schDequeue r g := do
    let (c, item) ← twolsfqdDequeue clock r g
    return { globals := c.g, ret := item, unlocked := c.unlocked }
  schUpdateOnRequestCompletion := twolsfqdEdfComplete clock
  schCurrentSize := some fun item size => do
    let (item, share) ← twolsfqdCurrentSize myShare item size
    return (some item, share)
  schAddTtlThroughput := twolsfqdAddTtlTp
  schCalculateDiff := none
  schSelfDispatch := true
  schAcceptMeta := false

end PvfsProxy
