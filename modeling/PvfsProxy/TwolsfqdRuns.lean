import PvfsProxy.Receiving
import PvfsProxy.TwolsfqdDispatch

/-!
# Runs of 2LSFQD

The framework around the scheduler: requests arrive, flows come in, a read is
answered, which may be the end of its file. Next to it the two threads, one of
which replenishes the credits; the other begins a time window, with a queue
threshold and a load that it computes in floating point and that are arbitrary
here. Every event is one step.

A run keeps the items of all requests that were scheduled, and the history of
the EDF queue.
-/

namespace PvfsProxy

/-! ## The threads -/

/-- The turn of `twolsfqd_time_replenish` in which its time has passed. -/
def twolsfqdTimeReplenish (clock : Nat → Timeval) (g : Globals Twolsfqd) :
    Except Fault TwolsfqdCall :=
  twolsfqdDequeueAll clock
    { g := { g with sched := twolsfqdReplenish clock g.sched }, unlocked := [] }

/-- `twolsfqd_time_window` up to the dispatch, with the length `width` of a
window and the new threshold. -/
def twolsfqdNextWindow (clock : Nat → Timeval) (width : Timeval) (threshold : Int) (s : Twolsfqd) :
    Twolsfqd :=
  let s := { s with
    timewindowId := s.timewindowId + 1
    timewindowQueueThreshold := threshold }
  let (s, now) := s.gettimeofday clock
  { s with
    currentTimeWindowEnd := now.add width
    nextTimeWindowEnd := (now.add width).add width
    timewindowMaxOutstanding := 0
    timewindowTtlCompleted := 0
    timewindowArrival := 0
    timewindowArrivalDeadline := 0 }

def twolsfqdTimeWindow (clock : Nat → Timeval) (width : Timeval) (threshold : Int)
    (overload : Bool) (g : Globals Twolsfqd) : Except Fault TwolsfqdCall := do
  let s := twolsfqdNextWindow clock width threshold g.sched
  let c : TwolsfqdCall := { g := { g with sched := s }, unlocked := [] }
  let c ←
    if overload then
      twolsfqdDequeueAll clock (c.setSched (twolsfqdUpdateSpareness clock c.sched))
    else pure c
  let (c, _) ← twolsfqdEdfDequeueAll clock (twolsfqdDequeueAll clock) (-1) c
  return c

/-- The deadline configured for a latency in milliseconds. -/
def twolsfqdDeadline (latency : Int) : Timeval :=
  let sec := latency.tdiv 1000
  { sec, usec := (latency - sec * 1000) * 1000 }

/-! ## Histories -/

def twolsfqdDequeueAllLog (clock : Nat → Timeval) (c : TwolsfqdCall) : List TwolsfqdEvent :=
  twolsfqdDequeueLoopLog clock (c.sched.waiting.length + 1) c

def twolsfqdTryReleaseLog (clock : Nat → Timeval) (appIndex : Nat) (length : Int)
    (c : TwolsfqdCall) : List TwolsfqdEvent :=
  if c.sched.sarcCredits appIndex ≥ length then twolsfqdDequeueAllLog clock c
  else
    let c := c.setSched (twolsfqdUpdateSpareness clock c.sched)
    if c.sched.sarcCredits appIndex ≥ length then twolsfqdDequeueAllLog clock c
    else []

def twolsfqdEnqueueLog (clock : Nat → Timeval) (pool : Nat → Endpoint) (si : SocketInfo)
    (pi : PvfsInfo) (g : Globals Twolsfqd) : List TwolsfqdEvent :=
  match twolsfqdInsert pool si pi g with
  | .error _ => []
  | .ok (g, _) =>
    twolsfqdTryReleaseLog clock (pool si.requestSocket).appIndex pi.currentDataSize
      { g, unlocked := [] }

def twolsfqdEdfCompleteLog (clock : Nat → Timeval) (complete : CompleteMessage TwolsfqdQueueItem)
    (g : Globals Twolsfqd) : List TwolsfqdEvent :=
  match complete.currentItem with
  | none => []
  | some it =>
    let e := twolsfqdGot complete.completeSize it.embedded
    if e.taskSize = e.gotSize then
      twolsfqdEdfDequeueAllLog clock (twolsfqdDequeueAllLog clock) (-1)
        { g := twolsfqdCount it g, unlocked := [] }
    else []

def twolsfqdTimeReplenishLog (clock : Nat → Timeval) (g : Globals Twolsfqd) :
    List TwolsfqdEvent :=
  twolsfqdDequeueAllLog clock
    { g := { g with sched := twolsfqdReplenish clock g.sched }, unlocked := [] }

def twolsfqdTimeWindowLog (clock : Nat → Timeval) (width : Timeval) (threshold : Int)
    (overload : Bool) (g : Globals Twolsfqd) : List TwolsfqdEvent :=
  let s := twolsfqdNextWindow clock width threshold g.sched
  let c : TwolsfqdCall := { g := { g with sched := s }, unlocked := [] }
  if overload then
    let c := c.setSched (twolsfqdUpdateSpareness clock c.sched)
    twolsfqdDequeueAllLog clock c ++
      match twolsfqdDequeueAll clock c with
      | .error _ => []
      | .ok c => twolsfqdEdfDequeueAllLog clock (twolsfqdDequeueAllLog clock) (-1) c
  else twolsfqdEdfDequeueAllLog clock (twolsfqdDequeueAllLog clock) (-1) c

/-! ## Runs -/

/-- What `twolsfqd_current_size` wrote to `it` is in `a` if they are one item. -/
def twolsfqdWritten (it a : TwolsfqdItem) : TwolsfqdItem :=
  if a.itemId = it.itemId then
    { a with
      embedded := { a.embedded with
        dataFileSize := it.embedded.dataFileSize
        taskSize := it.embedded.taskSize } }
  else a

/-- It is there wherever the item is queued. -/
def Twolsfqd.writeSize (it : TwolsfqdItem) (s : Twolsfqd) : Twolsfqd :=
  { s with
    sarcCreditList := fun l => (s.sarcCreditList l).map (List.map (twolsfqdWritten it))
    iedfLlistQueue := s.iedfLlistQueue.map (List.map (twolsfqdWritten it)) }

structure TwolsfqdRun where
  w : World Twolsfqd TwolsfqdQueueItem
  /-- the items of the requests accepted so far -/
  scheduled : List TwolsfqdItem
  history : List TwolsfqdEvent

namespace TwolsfqdRun

/-- What a run is configured with. -/
structure Settings where
  cfg : Config Twolsfqd TwolsfqdQueueItem
  clock : Nat → Timeval
  myShare : Int → Int → Int → Int → Int → Int
  method : cfg.method = schTwolsfqd clock myShare
  /-- `app_rate` -/
  rate : Nat → Int
  /-- `iedf_deadlines`, in milliseconds -/
  latency : Nat → Int
  /-- `twolsfqd_replenish_time`, in milliseconds -/
  interval : Int
  /-- the queue threshold of the first window -/
  threshold : Int
  /-- `twolsfqd_timewindow` -/
  width : Timeval
  junk : Int → TwolsfqdMarks
  usec : ∀ n, 0 ≤ (clock n).usec ∧ (clock n).usec < 1000000
  monotone : ∀ n, (clock n).le (clock (n + 1)) = true

inductive Event where
  | arrive (a : Arrival TwolsfqdQueueItem)
  /-- a flow of the request at `p`; a small I/O reports -1 -/
  | flow (p : Addr) (completeSize : Int) (read : Bool)
  /-- the response to the read at `p`, with the size of the data file -/
  | respond (p response : Addr) (fileSize : Int) (app : Nat)
  | replenish
  | window (threshold : Int) (overload : Bool)

variable (σ : Settings)

def arrive (s : TwolsfqdRun) (a : Arrival TwolsfqdQueueItem) : Except Fault TwolsfqdRun := do
  let (g, mem, _) ← admitRequest σ.cfg.method a.pool a.si a.pi .newIo a.pi.currentDataSize s.w.g
    (s.w.mem.alloc a.rs a.newRs)
  return {
    w := { s.w with g, mem }
    scheduled := s.scheduled ++ ((mem a.rs).bind (·.currentItem)).toList
    history := s.history ++ twolsfqdEnqueueLog σ.clock a.pool a.si a.pi s.w.g }

def complete (s : TwolsfqdRun) (p : Addr) (completeSize : Int) :
    Except Fault (TwolsfqdRun × Int) := do
  let rs ← s.w.mem.deref p
  let (w, ret) ← callCompletion σ.cfg p completeSize s.w
  let log := twolsfqdEdfCompleteLog σ.clock { currentItem := rs.currentItem, completeSize } s.w.g
  return ({ s with w, history := s.history ++ log }, ret)

/-- `callCurrentSize`. The item may still be queued. -/
def share (s : TwolsfqdRun) (p : Addr) (actual : Int) : Except Fault (TwolsfqdRun × Int) := do
  let (w, size) ← callCurrentSize σ.cfg p actual s.w
  let rs ← w.mem.deref p
  match rs.currentItem with
  | none => return ({ s with w }, size)
  | some it => return ({ s with w := { w with g := { w.g with sched := w.g.sched.writeSize it } } },
      size)

def dequeue (s : TwolsfqdRun) (r : DequeueReason TwolsfqdQueueItem) :
    Except Fault TwolsfqdRun := do
  let (w, _) ← callDequeue σ.cfg r s.w
  let log := twolsfqdDequeueStepLog σ.clock (twolsfqdDequeueAllLog σ.clock)
    { g := s.w.g, unlocked := [] }
  return { s with w, history := s.history ++ log }

def flow (s : TwolsfqdRun) (p : Addr) (completeSize : Int) (read : Bool) :
    Except Fault TwolsfqdRun := do
  let (s, ret) ← s.complete σ p completeSize
  if read ∧ ret = -1 then throw (.exit (-1))
  return s

def respond (s : TwolsfqdRun) (p response : Addr) (fileSize : Int) (app : Nat) :
    Except Fault TwolsfqdRun := do
  let (s, currentSize) ← s.share σ p fileSize
  if currentSize ≠ 0 then return s
  let s := { s with w := { s.w with
    mem := s.w.mem.modify response fun rs => { rs with lastFlow := true } } }
  let (s, _) ← s.share σ p 0
  let (s, _) ← s.complete σ p 0
  let w := { s.w with
    mem := s.w.mem.modify p fun rs =>
      { rs with checkResponseCompletion := true, lastCompletion := 1 } }
  let w := countPassed σ.cfg app (countCompleted app w)
  let rs ← w.mem.deref p
  { s with w }.dequeue σ
    { event := .completeIo, completeSize := rs.readSize, lastAppIndex := app,
      item := rs.currentItem }

def thread (s : TwolsfqdRun) (log : List TwolsfqdEvent) (c : TwolsfqdCall) : TwolsfqdRun :=
  { s with
    w := { s.w with g := c.g, mem := unlockAll c.unlocked s.w.mem }
    history := s.history ++ log }

def step (s : TwolsfqdRun) : Event → Except Fault TwolsfqdRun
  | .arrive a => s.arrive σ a
  | .flow p completeSize read => s.flow σ p completeSize read
  | .respond p response fileSize app => s.respond σ p response fileSize app
  | .replenish => do
    let c ← twolsfqdTimeReplenish σ.clock s.w.g
    return s.thread (twolsfqdTimeReplenishLog σ.clock s.w.g) c
  | .window threshold overload => do
    let c ← twolsfqdTimeWindow σ.clock σ.width threshold overload s.w.g
    return s.thread (twolsfqdTimeWindowLog σ.clock σ.width threshold overload s.w.g) c

/-- The state at `p` is that of a request that was sent on. -/
def Sent (s : TwolsfqdRun) (p : Addr) : Prop :=
  p ∈ s.scheduled.map (·.socketData.rs) ∧ lockedAt s.w.mem p = false

instance (s : TwolsfqdRun) (p : Addr) : Decidable (s.Sent p) :=
  inferInstanceAs (Decidable (_ ∧ _))

/-- Requests come from known applications into fresh memory; flows and
responses belong to requests that were sent on. -/
def Allowed (s : TwolsfqdRun) : Event → Prop
  | .arrive a => (a.pool a.index).appIndex < σ.cfg.numApps ∧ (s.w.mem a.rs).isNone
      ∧ a.newRs.locked = false
  | .flow p _ _ => s.Sent p
  | .respond p _ _ _ => s.Sent p
  | .replenish => True
  | .window _ _ => True

instance (s : TwolsfqdRun) (e : Event) : Decidable (s.Allowed σ e) :=
  match e with
  | .arrive _ => inferInstanceAs (Decidable (_ ∧ _))
  | .flow p _ _ => inferInstanceAs (Decidable (s.Sent p))
  | .respond p _ _ _ => inferInstanceAs (Decidable (s.Sent p))
  | .replenish => inferInstanceAs (Decidable True)
  | .window _ _ => inferInstanceAs (Decidable True)

/-- After `twolsfqd_init`. -/
def init (w : World Twolsfqd TwolsfqdQueueItem) : TwolsfqdRun where
  w := { w with
    mem := fun _ => none
    g := { w.g with
      sched := twolsfqdInit σ.cfg.numApps σ.rate (fun app => twolsfqdDeadline (σ.latency app))
        σ.interval σ.threshold σ.junk } }
  scheduled := []
  history := []

end TwolsfqdRun

/-- The same request. -/
def TwolsfqdSame (a b : TwolsfqdItem) : Prop :=
  a.itemId = b.itemId ∧ a.socketData = b.socketData
    ∧ a.embedded.appIndex = b.embedded.appIndex
    ∧ a.embedded.requestSocket = b.embedded.requestSocket

theorem twolsfqdWritten_same (it a : TwolsfqdItem) : TwolsfqdSame (twolsfqdWritten it a) a := by
  unfold twolsfqdWritten
  split
  · exact ⟨rfl, rfl, rfl, rfl⟩
  · exact ⟨rfl, rfl, rfl, rfl⟩

theorem Twolsfqd.waiting_writeSize (it : TwolsfqdItem) (s : Twolsfqd) :
    (s.writeSize it).waiting = s.waiting.map (twolsfqdWritten it) := by
  unfold Twolsfqd.waiting Twolsfqd.writeSize
  rw [List.map_flatMap]
  refine List.flatMap_congr fun l _ => ?_
  dsimp only
  cases s.sarcCreditList l with
  | none => rfl
  | some list => rfl

/-! ## What the hooks do -/

/-- A new request is put into the queue of its application. -/
structure TwolsfqdInserted (pool : Nat → Endpoint) (si : SocketInfo) (pi : PvfsInfo)
    (s s' : Twolsfqd) (item : TwolsfqdItem) : Prop where
  id : item.itemId = s.itemId
  data : item.socketData = si
  app : item.embedded.appIndex = (pool si.requestSocket).appIndex
  socket : item.embedded.requestSocket = (pool si.requestSocket).socket
  size : item.embedded.taskSize = pi.currentDataSize
  nextId : s'.itemId = s.itemId + 1
  numApps : s'.numApps = s.numApps
  rates : s'.appRate = s.appRate ∧ s'.replenishTime = s.replenishTime
  deadlines : s'.iedfDeadlinesTimeval = s.iedfDeadlinesTimeval
  threshold : s'.timewindowQueueThreshold = s.timewindowQueueThreshold
  index : s'.queueIndex = s.queueIndex
  credits : s'.sarcCredits = s.sarcCredits
  lists : s'.sarcCreditList = Function.update s.sarcCreditList item.embedded.appIndex
    (pintLlistAddToTail (s.sarcCreditList item.embedded.appIndex) item).2
  queue : s'.iedfLlistQueue = s.iedfLlistQueue
  outstanding : s'.timewindowCurrentQueueLength = s.timewindowCurrentQueueLength
  deadline : ∀ id, (s'.marks id).deadline = (s.marks id).deadline
  dispatched : ∀ id, (s'.marks id).dispatched
    = if id = item.itemId then -1 else (s.marks id).dispatched
  ticks : s'.ticks = s.ticks

theorem twolsfqdInsert_inserted {pool : Nat → Endpoint} {si : SocketInfo} {pi : PvfsInfo}
    {g g' : Globals Twolsfqd} {item : TwolsfqdItem}
    (h : twolsfqdInsert pool si pi g = .ok (g', item)) :
    TwolsfqdInserted pool si pi g.sched g'.sched item := by
  unfold twolsfqdInsert at h
  dsimp only at h
  split at h
  · cases h
  · obtain ⟨rfl, rfl⟩ := Prod.mk.inj (Except.ok.inj h)
    have hmark : ∀ (m : Int → TwolsfqdMarks) (i id : Int) (d : Int),
        (Function.update m i { m i with dispatched := d } id).deadline = (m id).deadline
        ∧ (Function.update m i { m i with dispatched := d } id).dispatched
          = if id = i then d else (m id).dispatched := by
      intro m i id d
      by_cases hid : id = i
      · subst hid
        simp
      · simp [hid]
    exact
      { id := rfl, data := rfl, app := rfl, socket := rfl, size := rfl, nextId := rfl
        numApps := rfl, rates := ⟨rfl, rfl⟩, deadlines := rfl, threshold := rfl, index := rfl
        credits := rfl, lists := rfl, queue := rfl, outstanding := rfl
        deadline := fun id => (hmark _ _ id _).1
        dispatched := fun id => (hmark _ _ id _).2
        ticks := rfl }

section inserted

variable {pool : Nat → Endpoint} {si : SocketInfo} {pi : PvfsInfo} {s s' : Twolsfqd}
  {item : TwolsfqdItem}

theorem TwolsfqdInserted.formed (h : TwolsfqdInserted pool si pi s s' item) (hs : s.Formed) :
    s'.Formed where
  index := by
    rw [h.numApps, h.index]
    exact hs.index
  queue := by
    rw [h.queue]
    exact hs.queue

theorem TwolsfqdInserted.lists_isSome (h : TwolsfqdInserted pool si pi s s' item)
    (hlists : ∀ app, (s.sarcCreditList app).isSome = true) (app : Nat) :
    (s'.sarcCreditList app).isSome = true := by
  rw [h.lists]
  by_cases happ : app = item.embedded.appIndex
  · subst happ
    rw [Function.update_self]
    obtain ⟨l, hl⟩ := Option.isSome_iff_exists.mp (hlists item.embedded.appIndex)
    rw [hl]
    rfl
  · rw [Function.update_of_ne happ]
    exact hlists app

end inserted

theorem TwolsfqdInserted.waiting {pool : Nat → Endpoint} {si : SocketInfo} {pi : PvfsInfo}
    {s s' : Twolsfqd} {item : TwolsfqdItem} (h : TwolsfqdInserted pool si pi s s' item)
    (hknown : item.embedded.appIndex < s.numApps)
    (hlist : (s.sarcCreditList item.embedded.appIndex).isSome = true) :
    s'.waiting.Perm (item :: s.waiting) := by
  obtain ⟨list, hlist⟩ := Option.isSome_iff_exists.mp hlist
  unfold Twolsfqd.waiting
  rw [h.numApps, h.lists, hlist]
  have hperm := flatMap_update_perm
    (fun l => ((Function.update s.sarcCreditList item.embedded.appIndex
      (pintLlistAddToTail (some list) item).2) l).getD [])
    List.nodup_range (List.mem_range.mpr hknown) item list (by
      rw [Function.update_self]
      exact List.perm_append_singleton item list)
  refine hperm.trans (List.Perm.cons _ (List.Perm.of_eq (List.flatMap_congr fun l _ => ?_)))
  by_cases hl : l = item.embedded.appIndex
  · subst hl
    rw [Function.update_self, hlist]
    rfl
  · rw [Function.update_of_ne hl, Function.update_of_ne hl]

/-- The rest of `twolsfqd_enqueue`, with the lock it leaves. -/
inductive TwolsfqdTries (clock : Nat → Timeval) (item : TwolsfqdItem) (c : TwolsfqdCall) :
    List TwolsfqdEvent → TwolsfqdCall → Bool → Prop where
  | afford {log : List TwolsfqdEvent} {c' : TwolsfqdCall}
      (hd : TwolsfqdDrains clock c log c') :
      TwolsfqdTries clock item c log c'
        (decide ((c'.sched.marks item.itemId).dispatched ≤ 0))
  | replenish {log : List TwolsfqdEvent} {c' : TwolsfqdCall}
      (hd : TwolsfqdDrains clock (c.setSched (twolsfqdUpdateSpareness clock c.sched)) log c') :
      TwolsfqdTries clock item c log c'
        (decide ((c'.sched.marks item.itemId).dispatched ≤ 0))
  | wait : TwolsfqdTries clock item c []
      (c.setSched (twolsfqdUpdateSpareness clock c.sched)) true

theorem TwolsfqdTries.keeps {clock : Nat → Timeval} {item : TwolsfqdItem} {c c' : TwolsfqdCall}
    {log h : List TwolsfqdEvent} {locked : Bool}
    {P : List TwolsfqdEvent → TwolsfqdCall → Prop} (hP : TwolsfqdKeeps clock P) (hc : P h c)
    (htries : TwolsfqdTries clock item c log c' locked) : P (h ++ log) c' := by
  cases htries with
  | afford hd => exact hP.drains hc hd
  | replenish hd => exact hP.drains (hP.updateSpareness hc) hd
  | wait =>
      rw [List.append_nil]
      exact hP.updateSpareness hc

theorem Twolsfqd.Formed.updateSpareness {s : Twolsfqd} (hs : s.Formed) (clock : Nat → Timeval) :
    (twolsfqdUpdateSpareness clock s).Formed := by
  unfold twolsfqdUpdateSpareness
  split
  · exact ⟨hs.index, hs.queue⟩
  · exact hs

theorem twolsfqdTryRelease_tries (clock : Nat → Timeval) (appIndex : Nat) (length : Int)
    (item : TwolsfqdItem) {c : TwolsfqdCall} (hc : c.sched.Formed) :
    ∃ c' locked, twolsfqdTryRelease clock appIndex length item c = .ok (c', locked)
      ∧ TwolsfqdTries clock item c (twolsfqdTryReleaseLog clock appIndex length c) c' locked := by
  unfold twolsfqdTryRelease twolsfqdTryReleaseLog twolsfqdRelease
  dsimp only
  split
  · obtain ⟨c', hrun, hd⟩ := twolsfqdDequeueAll_drains clock hc
    rw [hrun]
    exact ⟨c', _, rfl, .afford hd⟩
  · split
    · obtain ⟨c', hrun, hd⟩ := twolsfqdDequeueAll_drains clock
        (c := c.setSched (twolsfqdUpdateSpareness clock c.sched)) (hc.updateSpareness clock)
      rw [hrun]
      exact ⟨c', _, rfl, .replenish hd⟩
    · exact ⟨_, true, rfl, .wait⟩

/-- A completed item is taken off the storage; the rest is statistics. -/
theorem twolsfqdCount_sched (it : TwolsfqdItem) (g : Globals Twolsfqd) :
    ∃ arrival deadlines, (twolsfqdCount it g).sched = { g.sched with
      timewindowArrival := arrival
      timewindowArrivalDeadline := deadlines
      timewindowTtlCompleted := g.sched.timewindowTtlCompleted + 1
      timewindowCurrentQueueLength := g.sched.timewindowCurrentQueueLength - 1 } := by
  unfold twolsfqdCount
  dsimp only
  split
  · exact ⟨_, _, rfl⟩
  · exact ⟨_, _, rfl⟩

/-- An item that is not complete changes nothing; else it is counted and a
round follows. -/
theorem twolsfqdEdfComplete_rounds {clock : Nat → Timeval} {it : TwolsfqdItem} {size : Int}
    {g : Globals Twolsfqd} (hg : g.sched.Formed)
    {out : HookResult Twolsfqd (Option TwolsfqdItem × Int)}
    (h : twolsfqdEdfComplete clock { currentItem := some it, completeSize := size } g = .ok out) :
    ∃ it' c, out.ret.1 = some it' ∧ TwolsfqdSame it' it ∧ out.globals = c.g
      ∧ out.unlocked = c.unlocked
      ∧ (((twolsfqdGot size it.embedded).taskSize ≠ (twolsfqdGot size it.embedded).gotSize
          ∧ c = { g, unlocked := [] }
          ∧ twolsfqdEdfCompleteLog clock { currentItem := some it, completeSize := size } g = [])
        ∨ TwolsfqdRounds clock { g := twolsfqdCount it g, unlocked := [] }
          (twolsfqdEdfCompleteLog clock { currentItem := some it, completeSize := size } g) c) := by
  unfold twolsfqdEdfComplete at h
  unfold twolsfqdEdfCompleteLog
  dsimp only at h ⊢
  have hcounted : (TwolsfqdCall.mk (twolsfqdCount it g) []).sched.Formed := by
    obtain ⟨arrival, deadlines, hsched⟩ := twolsfqdCount_sched it g
    rw [TwolsfqdCall.sched, hsched]
    exact ⟨hg.index, hg.queue⟩
  have happ : (twolsfqdGot size it.embedded).appIndex = it.embedded.appIndex
      ∧ (twolsfqdGot size it.embedded).requestSocket = it.embedded.requestSocket := ⟨rfl, rfl⟩
  split at h
  · rename_i hdone
    obtain ⟨⟨c, dispatched⟩, hrun, h⟩ := Machine.bind_eq_ok.mp h
    obtain rfl := Machine.pure_eq_ok.mp h
    obtain ⟨c', dispatched', hrun', hrounds⟩ :=
      twolsfqdEdfDequeueAll_rounds clock (-1) hcounted
    obtain ⟨rfl, rfl⟩ := Prod.mk.inj (Except.ok.inj (hrun.symm.trans hrun'))
    rw [if_pos hdone]
    exact ⟨_, c, rfl, ⟨rfl, rfl, happ⟩, rfl, rfl, .inr hrounds⟩
  · rename_i hmore
    rw [if_neg hmore]
    split at h
    · obtain rfl := Except.ok.inj h
      exact ⟨_, { g, unlocked := [] }, rfl, ⟨rfl, rfl, happ⟩, rfl, rfl, .inl ⟨hmore, rfl, rfl⟩⟩
    · obtain rfl := Except.ok.inj h
      exact ⟨_, { g, unlocked := [] }, rfl, ⟨rfl, rfl, happ⟩, rfl, rfl, .inl ⟨hmore, rfl, rfl⟩⟩

/-- A new window dispatches first when the storage is overloaded, and then
begins a round. -/
theorem twolsfqdTimeWindow_rounds {clock : Nat → Timeval} {width : Timeval} {threshold : Int}
    {overload : Bool} {g : Globals Twolsfqd} {c : TwolsfqdCall}
    (hg : (twolsfqdNextWindow clock width threshold g.sched).Formed)
    (h : twolsfqdTimeWindow clock width threshold overload g = .ok c) :
    ∃ c₀ c₁ log log', c₀.sched = twolsfqdNextWindow clock width threshold g.sched
      ∧ c₀.unlocked = []
      ∧ ((c₁ = c₀ ∧ log = [])
        ∨ TwolsfqdDrains clock (c₀.setSched (twolsfqdUpdateSpareness clock c₀.sched)) log c₁)
      ∧ TwolsfqdRounds clock c₁ log' c
      ∧ twolsfqdTimeWindowLog clock width threshold overload g = log ++ log' := by
  unfold twolsfqdTimeWindow at h
  unfold twolsfqdTimeWindowLog
  dsimp only at h ⊢
  generalize hc₀ : TwolsfqdCall.mk { g with
    sched := twolsfqdNextWindow clock width threshold g.sched } [] = c₀ at h ⊢
  have hsched : c₀.sched = twolsfqdNextWindow clock width threshold g.sched := by
    rw [← hc₀]
    rfl
  have hunlocked : c₀.unlocked = [] := by rw [← hc₀]
  rw [← hsched] at hg
  cases overload with
  | false =>
      obtain ⟨c₁, hpure, h⟩ := Machine.bind_eq_ok.mp h
      obtain rfl := Machine.pure_eq_ok.mp hpure
      obtain ⟨⟨c', dispatched⟩, hround, h⟩ := Machine.bind_eq_ok.mp h
      obtain rfl := Machine.pure_eq_ok.mp h
      obtain ⟨c'', dispatched', hround', hrounds⟩ :=
        twolsfqdEdfDequeueAll_rounds clock (-1) hg
      obtain ⟨rfl, -⟩ := Prod.mk.inj (Except.ok.inj (hround.symm.trans hround'))
      exact ⟨c₀, c₀, [], _, hsched, hunlocked, .inl ⟨rfl, rfl⟩, hrounds, rfl⟩
  | true =>
      obtain ⟨c₁, hdrain, h⟩ := Machine.bind_eq_ok.mp h
      obtain ⟨⟨c', dispatched⟩, hround, h⟩ := Machine.bind_eq_ok.mp h
      obtain rfl := Machine.pure_eq_ok.mp h
      obtain ⟨c₁', hdrain', hd⟩ := twolsfqdDequeueAll_drains clock
        (c := c₀.setSched (twolsfqdUpdateSpareness clock c₀.sched)) (hg.updateSpareness clock)
      obtain rfl := Except.ok.inj (hdrain.symm.trans hdrain')
      obtain ⟨c'', dispatched', hround', hrounds⟩ := twolsfqdEdfDequeueAll_rounds clock
        (-1) (hd.formed (hg.updateSpareness clock)).1
      obtain ⟨rfl, -⟩ := Prod.mk.inj (Except.ok.inj (hround.symm.trans hround'))
      refine ⟨c₀, c₁, _, _, hsched, hunlocked, .inr hd, hrounds, ?_⟩
      rw [if_pos rfl, hdrain]
      rfl

/-! ## What a step does -/

namespace TwolsfqdRun

/-- What `twolsfqd_current_size` returns for the item. -/
def Settings.shareOf (σ : Settings) (it : TwolsfqdItem) : Int :=
  σ.myShare it.embedded.stripSize it.embedded.serverCount it.embedded.fileOffset
    it.embedded.aggregateSize it.embedded.serverNr

/-- The calls a step starts from what was before, with nothing unlocked yet. -/
def call (s : TwolsfqdRun) : TwolsfqdCall := { g := s.w.g, unlocked := [] }

/-- The item of the request at `p`. -/
def item (s : TwolsfqdRun) (p : Addr) : Option TwolsfqdItem := (s.w.mem p).bind (·.currentItem)

variable {σ : Settings} {s t : TwolsfqdRun}

theorem arrive_ok {a : Arrival TwolsfqdQueueItem} (hs : s.w.g.sched.Formed)
    (h : s.arrive σ a = .ok t) :
    ∃ g it c log locked, TwolsfqdInserted a.pool a.si a.pi s.w.g.sched g.sched it
      ∧ TwolsfqdTries σ.clock it { g, unlocked := [] } log c locked
      ∧ t.w.g.sched = c.sched ∧ t.scheduled = s.scheduled ++ [it]
      ∧ t.history = s.history ++ log
      ∧ t.w.mem = (unlockAll c.unlocked (s.w.mem.alloc a.rs a.newRs)).modify a.rs fun rs =>
          { rs with locked := rs.locked || locked, currentItem := some it } := by
  obtain ⟨⟨g', mem, next⟩, hadmit, h⟩ := Machine.bind_eq_ok.mp h
  obtain rfl := Machine.pure_eq_ok.mp h
  rw [σ.method] at hadmit
  obtain ⟨out, hout, hadmit⟩ := Machine.bind_eq_ok.mp hadmit
  obtain ⟨⟨g, it⟩, hinsert, hout⟩ := Machine.bind_eq_ok.mp hout
  obtain ⟨⟨c, locked⟩, htry, hout⟩ := Machine.bind_eq_ok.mp hout
  obtain rfl := Machine.pure_eq_ok.mp hout
  obtain ⟨rfl, hmem⟩ := Prod.mk.inj (Machine.pure_eq_ok.mp hadmit)
  obtain ⟨rfl, -⟩ := Prod.mk.inj hmem
  have hinserted := twolsfqdInsert_inserted hinsert
  have hg : g.sched.Formed := by
    refine ⟨?_, ?_⟩
    · rw [hinserted.numApps, hinserted.index]
      exact hs.index
    · rw [hinserted.queue]
      exact hs.queue
  obtain ⟨c', locked', htry', htries⟩ := twolsfqdTryRelease_tries σ.clock
    (c := { g, unlocked := [] }) (a.pool a.si.requestSocket).appIndex a.pi.currentDataSize it hg
  obtain ⟨rfl, rfl⟩ := Prod.mk.inj (Except.ok.inj (htry.symm.trans htry'))
  have hlog : twolsfqdEnqueueLog σ.clock a.pool a.si a.pi s.w.g
      = twolsfqdTryReleaseLog σ.clock (a.pool a.si.requestSocket).appIndex a.pi.currentDataSize
        { g, unlocked := [] } := by
    unfold twolsfqdEnqueueLog
    rw [hinsert]
  refine ⟨g, it, c, _, locked, hinserted, htries, rfl, ?_, ?_, rfl⟩
  · dsimp only [Arrival.si]
    rw [Mem.modify_self, unlockAll_apply, Mem.alloc_self]
    rfl
  · rw [hlog]

theorem complete_ok {p : Addr} {size ret : Int} (hs : s.w.g.sched.Formed)
    (h : s.complete σ p size = .ok (t, ret)) :
    ∃ it it' c log, s.item p = some it ∧ TwolsfqdSame it' it
      ∧ t.w.g = c.g ∧ t.scheduled = s.scheduled ∧ t.history = s.history ++ log
      ∧ t.w.mem = ((unlockAll c.unlocked s.w.mem).modify p fun rs =>
          { rs with currentItem := some it' })
      ∧ (((twolsfqdGot size it.embedded).taskSize ≠ (twolsfqdGot size it.embedded).gotSize
          ∧ c = s.call ∧ log = [])
        ∨ TwolsfqdRounds σ.clock { g := twolsfqdCount it s.w.g, unlocked := [] } log c) := by
  obtain ⟨rs, hrs, h⟩ := Machine.bind_eq_ok.mp h
  obtain ⟨⟨w, ret'⟩, hcall, h⟩ := Machine.bind_eq_ok.mp h
  obtain ⟨rfl, rfl⟩ := Prod.mk.inj (Machine.pure_eq_ok.mp h)
  obtain ⟨rs', out, hrs', hout, rfl, rfl⟩ := callCompletion_ok hcall
  rw [Mem.deref_eq_ok] at hrs
  obtain rfl : rs = rs' := Option.some.inj (hrs.symm.trans hrs')
  rw [σ.method] at hout
  cases hitem : rs.currentItem with
  | none =>
      rw [hitem] at hout
      cases hout
  | some it =>
      rw [hitem] at hout
      obtain ⟨it', c, hret, hsame, hg, hunlocked, hcases⟩ := twolsfqdEdfComplete_rounds hs hout
      refine ⟨it, it', c, _, ?_, hsame, hg, rfl, rfl, ?_, hcases⟩
      · unfold item
        rw [hrs]
        exact hitem
      · rw [hunlocked, hret]

theorem share_ok {p : Addr} {actual size : Int} (h : s.share σ p actual = .ok (t, size)) :
    ∃ it it', s.item p = some it ∧ TwolsfqdSame it' it
      ∧ t.w.g.sched = s.w.g.sched.writeSize it'
      ∧ t.scheduled = s.scheduled ∧ t.history = s.history
      ∧ t.w.mem = (s.w.mem.modify p fun rs => { rs with currentItem := some it' })
      ∧ size = σ.shareOf it := by
  obtain ⟨⟨w, size'⟩, hcall, h⟩ := Machine.bind_eq_ok.mp h
  obtain ⟨rs, hook, it', hrs, hhook, hsize, rfl⟩ := callCurrentSize_ok hcall
  rw [σ.method] at hhook
  obtain rfl := Option.some.inj hhook
  obtain ⟨⟨it₁, share⟩, hshare, hsize⟩ := Machine.bind_eq_ok.mp hsize
  obtain ⟨rfl, rfl⟩ := Prod.mk.inj (Machine.pure_eq_ok.mp hsize)
  unfold twolsfqdCurrentSize at hshare
  split at hshare
  · cases hshare
  · rename_i it hitem
    obtain ⟨hit₁, hsize⟩ := Prod.mk.inj (Except.ok.inj hshare)
    obtain ⟨rs', hrs', h⟩ := Machine.bind_eq_ok.mp h
    rw [Mem.deref_eq_ok] at hrs'
    dsimp only at hrs'
    rw [Mem.modify_self, hrs] at hrs'
    obtain rfl := Option.some.inj hrs'
    obtain ⟨rfl, rfl⟩ := Prod.mk.inj (Machine.pure_eq_ok.mp h)
    refine ⟨it, it₁, ?_, ?_, rfl, rfl, rfl, rfl, hsize.symm⟩
    · unfold item
      rw [hrs]
      exact hitem
    · rw [← hit₁]
      exact ⟨rfl, rfl, rfl, rfl⟩

/-- The framework moves a request to the EDF queue, which it asserts to be
locked, and unlocks it. -/
theorem dequeue_ok {r : DequeueReason TwolsfqdQueueItem} (hs : s.w.g.sched.Formed)
    (h : s.dequeue σ r = .ok t) :
    ∃ c log next, TwolsfqdSteps σ.clock s.call log c next
      ∧ t.w.g = c.g ∧ t.scheduled = s.scheduled ∧ t.history = s.history ++ log
      ∧ (next = none → t.w.mem = unlockAll c.unlocked s.w.mem)
      ∧ ∀ it, next = some it →
          lockedAt (unlockAll c.unlocked s.w.mem) it.socketData.rs = true
          ∧ t.w.mem = (unlockAll c.unlocked s.w.mem).modify it.socketData.rs fun rs =>
              { rs with currentItem := some it, locked := false } := by
  obtain ⟨⟨w, next'⟩, hcall, h⟩ := Machine.bind_eq_ok.mp h
  obtain rfl := Machine.pure_eq_ok.mp h
  obtain ⟨⟨g, mem, next⟩, hdispatch, hcall⟩ := Machine.bind_eq_ok.mp hcall
  obtain ⟨rfl, rfl⟩ := Prod.mk.inj (Machine.pure_eq_ok.mp hcall)
  rw [σ.method] at hdispatch
  obtain ⟨out, hout, rfl, rfl, hnone, hsome⟩ := dispatchNext_ok hdispatch
  obtain ⟨⟨c, next⟩, hstep, hout⟩ := Machine.bind_eq_ok.mp hout
  obtain rfl := Machine.pure_eq_ok.mp hout
  obtain ⟨c', next', hstep', hsteps⟩ := twolsfqdDequeueStep_returns σ.clock
    (c := s.call) hs
  obtain ⟨rfl, rfl⟩ := Prod.mk.inj (Except.ok.inj (hstep.symm.trans hstep'))
  refine ⟨c, _, next, hsteps, rfl, rfl, rfl, hnone, fun it hit => ?_⟩
  obtain ⟨⟨rs, hrs, hlocked⟩, hmem⟩ := hsome it hit
  refine ⟨?_, hmem⟩
  unfold lockedAt
  rw [hrs]
  exact hlocked

/-- Neither the scheduler nor a lock nor an item is touched. -/
structure Quiet (s t : TwolsfqdRun) : Prop where
  scheduled : t.scheduled = s.scheduled
  history : t.history = s.history
  sched : t.w.g.sched = s.w.g.sched
  locks : s.w.mem.SameLocks t.w.mem
  items : ∀ p, t.item p = s.item p

theorem Quiet.modify {f : RequestState TwolsfqdQueueItem → RequestState TwolsfqdQueueItem}
    {p : Addr} (hscheduled : t.scheduled = s.scheduled) (hhistory : t.history = s.history)
    (hsched : t.w.g.sched = s.w.g.sched) (hmem : t.w.mem = s.w.mem.modify p f)
    (hlocked : ∀ rs, (f rs).locked = rs.locked)
    (hitem : ∀ rs, (f rs).currentItem = rs.currentItem) : s.Quiet t where
  scheduled := hscheduled
  history := hhistory
  sched := hsched
  locks := by
    rw [hmem]
    exact .modify p hlocked
  items q := by
    unfold item
    rw [hmem]
    by_cases hq : q = p
    · subst hq
      rw [Mem.modify_self]
      cases s.w.mem q with
      | none => rfl
      | some rs => exact hitem rs
    · rw [Mem.modify_of_ne _ hq]

/-- A response puts the size right; where the file ends before the read it
completes the read and asks for the next request. -/
theorem respond_ok {p response : Addr} {fileSize : Int} {app : Nat}
    (h : s.respond σ p response fileSize app = .ok t) :
    ∃ s₁ size, s.share σ p fileSize = .ok (s₁, size) ∧ (t = s₁
      ∨ size = 0 ∧ ∃ s₂ s₃ s₄ s₅ size' ret r, s₁.Quiet s₂ ∧ s₂.share σ p 0 = .ok (s₃, size')
        ∧ s₃.complete σ p 0 = .ok (s₄, ret) ∧ s₄.Quiet s₅ ∧ s₅.dequeue σ r = .ok t) := by
  obtain ⟨⟨s₁, size⟩, hshare, h⟩ := Machine.bind_eq_ok.mp h
  refine ⟨s₁, size, hshare, ?_⟩
  dsimp only at h
  split at h
  · obtain rfl := Machine.pure_eq_ok.mp h
    exact .inl rfl
  · rename_i hsize
    obtain ⟨⟨s₃, size'⟩, hshare', h⟩ := Machine.bind_eq_ok.mp h
    obtain ⟨⟨s₄, ret⟩, hcomplete, h⟩ := Machine.bind_eq_ok.mp h
    obtain ⟨rs, -, h⟩ := Machine.bind_eq_ok.mp h
    refine .inr ⟨not_not.mp hsize, _, s₃, s₄, _, size', ret, _, ?_, hshare', hcomplete, ?_, h⟩
    · exact .modify rfl rfl rfl rfl (fun _ => rfl) fun _ => rfl
    · refine .modify rfl rfl ?_ (p := p) (countPassed_mem _ _ _) (fun _ => rfl) fun _ => rfl
      exact countPassed_sched _ _ _

end TwolsfqdRun

/-- What the parts of a step keep of the scheduler and its history. -/
structure TwolsfqdHolds (σ : TwolsfqdRun.Settings)
    (P : List TwolsfqdEvent → Twolsfqd → Prop) : Prop where
  formed : ∀ {h s}, P h s → s.Formed
  parts : TwolsfqdKeeps σ.clock fun h c => P h c.sched
  count : ∀ {h g} it, P h g.sched → P h (twolsfqdCount it g).sched
  write : ∀ {h s} it, P h s → P h (s.writeSize it)

namespace TwolsfqdHolds

variable {σ : TwolsfqdRun.Settings} {P : List TwolsfqdEvent → Twolsfqd → Prop}
  {s t : TwolsfqdRun} {p : Addr}

theorem share (hP : TwolsfqdHolds σ P) {actual size : Int} (hs : P s.history s.w.g.sched)
    (h : s.share σ p actual = .ok (t, size)) : P t.history t.w.g.sched := by
  obtain ⟨it, it', -, -, hsched, -, hhistory, -⟩ := TwolsfqdRun.share_ok h
  rw [hsched, hhistory]
  exact hP.write it' hs

theorem complete (hP : TwolsfqdHolds σ P) {size ret : Int} (hs : P s.history s.w.g.sched)
    (h : s.complete σ p size = .ok (t, ret)) : P t.history t.w.g.sched := by
  obtain ⟨it, it', c, log, -, -, hg, -, hhistory, -, ⟨-, rfl, rfl⟩ | hrounds⟩ :=
    TwolsfqdRun.complete_ok (hP.formed hs) h
  · rw [hg, hhistory, List.append_nil]
    exact hs
  · rw [hg, hhistory]
    refine hrounds.keeps hP.parts ?_
    exact hP.count it hs

theorem quiet (hs : P s.history s.w.g.sched) (hq : s.Quiet t) : P t.history t.w.g.sched := by
  rw [hq.history, hq.sched]
  exact hs

theorem respond (hP : TwolsfqdHolds σ P) {response : Addr} {fileSize : Int} {app : Nat}
    (hs : P s.history s.w.g.sched) (h : s.respond σ p response fileSize app = .ok t) :
    P t.history t.w.g.sched := by
  obtain ⟨s₁, size, hshare, rfl
    | ⟨-, s₂, s₃, s₄, s₅, size', ret, r, hquiet, hshare', hcomplete, hquiet', hdequeue⟩⟩ :=
    TwolsfqdRun.respond_ok h
  · exact hP.share hs hshare
  · have hs₅ := quiet (hP.complete (hP.share (quiet (hP.share hs hshare) hquiet) hshare')
      hcomplete) hquiet'
    obtain ⟨c, log, next, hsteps, hg, -, hhistory, -⟩ :=
      TwolsfqdRun.dequeue_ok (hP.formed hs₅) hdequeue
    rw [hg, hhistory]
    refine hsteps.keeps hP.parts ?_
    exact hs₅

/-- **What the parts keep every step keeps**, if it survives that a request
arrives and that a window begins. -/
theorem step (hP : TwolsfqdHolds σ P) {e : TwolsfqdRun.Event} (hs : P s.history s.w.g.sched)
    (harrive : ∀ a g it, e = .arrive a →
      TwolsfqdInserted a.pool a.si a.pi s.w.g.sched g it → P s.history g)
    (hwindow : ∀ threshold overload, e = .window threshold overload →
      P s.history (twolsfqdNextWindow σ.clock σ.width threshold s.w.g.sched))
    (h : s.step σ e = .ok t) : P t.history t.w.g.sched := by
  cases e with
  | arrive a =>
      obtain ⟨g, it, c, log, locked, hinserted, htries, hsched, -, hhistory, -⟩ :=
        TwolsfqdRun.arrive_ok (hP.formed hs) h
      have hg : P s.history (TwolsfqdCall.mk g []).sched := harrive a g.sched it rfl hinserted
      rw [hsched, hhistory]
      exact htries.keeps hP.parts hg
  | flow p completeSize read =>
      obtain ⟨⟨s₁, ret⟩, hcomplete, h⟩ := Machine.bind_eq_ok.mp h
      dsimp only at h
      split at h
      · cases h
      · obtain rfl := Machine.pure_eq_ok.mp h
        exact hP.complete hs hcomplete
  | respond p response fileSize app => exact hP.respond hs h
  | replenish =>
      obtain ⟨c, hrun, h⟩ := Machine.bind_eq_ok.mp h
      obtain rfl := Machine.pure_eq_ok.mp h
      have hreplenished := hP.parts.replenish (c := s.call) hs
      obtain ⟨c', hrun', hd⟩ := twolsfqdDequeueAll_drains σ.clock
        (hP.formed hreplenished)
      obtain rfl := Except.ok.inj (hrun.symm.trans hrun')
      exact hP.parts.drains hreplenished hd
  | window threshold overload =>
      obtain ⟨c, hrun, h⟩ := Machine.bind_eq_ok.mp h
      obtain rfl := Machine.pure_eq_ok.mp h
      have hbegun := hwindow threshold overload rfl
      obtain ⟨c₀, c₁, log, log', hsched, -, hdispatched, hrounds, hlog⟩ :=
        twolsfqdTimeWindow_rounds (hP.formed hbegun) hrun
      rw [← hsched] at hbegun
      have hlogged : P (s.history ++ twolsfqdTimeWindowLog σ.clock σ.width threshold overload s.w.g)
          c.sched := by
        rw [hlog, ← List.append_assoc]
        refine hrounds.keeps hP.parts ?_
        rcases hdispatched with ⟨rfl, rfl⟩ | hd
        · rw [List.append_nil]
          exact hbegun
        · exact hP.parts.drains (hP.parts.updateSpareness hbegun) hd
      exact hlogged

end TwolsfqdHolds

/-- The configuration stays as it was read, and the queues are there. -/
structure TwolsfqdConfigured (σ : TwolsfqdRun.Settings) (s : Twolsfqd) : Prop
    extends s.Formed where
  numApps : s.numApps = σ.cfg.numApps
  rates : s.appRate = σ.rate
  interval : s.replenishTime = σ.interval
  deadlines : s.iedfDeadlinesTimeval = fun app => twolsfqdDeadline (σ.latency app)
  lists : ∀ app, (s.sarcCreditList app).isSome = true

theorem TwolsfqdConfigured.sameConfig {σ : TwolsfqdRun.Settings} {s s' : Twolsfqd}
    (h : TwolsfqdConfigured σ s) (hs : s.SameConfig s') (hformed : s'.Formed)
    (hlists : ∀ app, (s'.sarcCreditList app).isSome = true) : TwolsfqdConfigured σ s' where
  toFormed := hformed
  numApps := hs.numApps.trans h.numApps
  rates := hs.appRate.trans h.rates
  interval := hs.replenishTime.trans h.interval
  deadlines := hs.deadlines.trans h.deadlines
  lists := hlists

theorem twolsfqdConfigured_holds (σ : TwolsfqdRun.Settings) :
    TwolsfqdHolds σ fun _ s => TwolsfqdConfigured σ s where
  formed h := h.toFormed
  parts :=
    { skip := by
        rintro h c s hc hskips
        refine ⟨hskips.formed hc.toFormed, ?_, ?_, ?_, ?_, ?_⟩ <;>
          rcases hskips with rfl | ⟨i, -, rfl⟩
        all_goals first
          | exact hc.numApps
          | exact hc.rates
          | exact hc.interval
          | exact hc.deadlines
          | exact hc.lists
      replenish := fun hc =>
        ⟨⟨hc.index, hc.queue⟩, hc.numApps, hc.rates, hc.interval, hc.deadlines, hc.lists⟩
      move := by
        rintro h c app item released kept c' hc hmove
        exact hc.sameConfig hmove.config hmove.formed (hmove.lists_isSome hc.lists)
      round := by
        rintro h c released kept c' hc hround
        refine hc.sameConfig hround.sarc.toSameConfig (hround.formed hc.toFormed) ?_
        rw [hround.sarc.lists]
        exact hc.lists
      settle := fun _ _ hc =>
        ⟨⟨hc.index, hc.queue⟩, hc.numApps, hc.rates, hc.interval, hc.deadlines, hc.lists⟩ }
  count := by
    rintro h g it hg
    obtain ⟨arrival, deadlines, hsched⟩ := twolsfqdCount_sched it g
    rw [hsched]
    exact ⟨⟨hg.index, hg.queue⟩, hg.numApps, hg.rates, hg.interval, hg.deadlines, hg.lists⟩
  write := by
    rintro h s it hs
    refine ⟨⟨hs.index, ?_⟩, hs.numApps, hs.rates, hs.interval, hs.deadlines, fun app => ?_⟩
    · exact Option.isSome_map.trans hs.queue
    · exact Option.isSome_map.trans (hs.lists app)

/-- Nothing waits at first. -/
theorem TwolsfqdRun.init_waiting (σ : TwolsfqdRun.Settings)
    (w : World Twolsfqd TwolsfqdQueueItem) : (TwolsfqdRun.init σ w).w.g.sched.waiting = [] :=
  List.flatMap_eq_nil_iff.mpr fun _ _ => rfl

theorem TwolsfqdConfigured.init (σ : TwolsfqdRun.Settings)
    (w : World Twolsfqd TwolsfqdQueueItem) :
    TwolsfqdConfigured σ (TwolsfqdRun.init σ w).w.g.sched :=
  ⟨⟨id, rfl⟩, rfl, rfl, rfl, rfl, fun _ => rfl⟩

theorem TwolsfqdConfigured.inserted {σ : TwolsfqdRun.Settings} {pool : Nat → Endpoint}
    {si : SocketInfo} {pi : PvfsInfo} {s s' : Twolsfqd} {item : TwolsfqdItem}
    (hs : TwolsfqdConfigured σ s) (hi : TwolsfqdInserted pool si pi s s' item) :
    TwolsfqdConfigured σ s' := by
  exact ⟨hi.formed hs.toFormed, hi.numApps.trans hs.numApps, hi.rates.1.trans hs.rates,
    hi.rates.2.trans hs.interval, hi.deadlines.trans hs.deadlines, hi.lists_isSome hs.lists⟩

theorem TwolsfqdConfigured.nextWindow {σ : TwolsfqdRun.Settings} {s : Twolsfqd}
    (hs : TwolsfqdConfigured σ s) (width : Timeval) (threshold : Int) :
    TwolsfqdConfigured σ (twolsfqdNextWindow σ.clock width threshold s) :=
  ⟨⟨hs.index, hs.queue⟩, hs.numApps, hs.rates, hs.interval, hs.deadlines, hs.lists⟩

theorem twolsfqdConfigured_run {σ : TwolsfqdRun.Settings}
    {w : World Twolsfqd TwolsfqdQueueItem} {es : List TwolsfqdRun.Event} {s : TwolsfqdRun}
    {ok : TwolsfqdRun → TwolsfqdRun.Event → Prop}
    (h : Machine.Run ok (TwolsfqdRun.step σ) (TwolsfqdRun.init σ w) es s) :
    TwolsfqdConfigured σ s.w.g.sched := by
  refine h.invariant (P := fun s => TwolsfqdConfigured σ s.w.g.sched) (.init σ w) ?_
  rintro t e u ht - hstep
  exact (twolsfqdConfigured_holds σ).step ht (fun _ _ _ _ hi => ht.inserted hi)
    (fun threshold _ _ => ht.nextWindow σ.width threshold) hstep

/-! ## Applications at one instant -/

/-- A configuration with a clock that stands still. -/
def twolsfqdSettings (numApps : Nat) (rate interval threshold : Int) (latency : Nat → Int) :
    TwolsfqdRun.Settings where
  cfg := { sampleConfig true (schTwolsfqd (fun _ => { sec := 0, usec := 0 })
    fun _ _ _ _ _ => 0) with numApps := numApps }
  clock _ := { sec := 0, usec := 0 }
  myShare _ _ _ _ _ := 0
  method := rfl
  rate _ := rate
  latency := latency
  interval := interval
  threshold := threshold
  width := { sec := 1, usec := 0 }
  junk _ :=
    { deadline := { sec := 0, usec := 0 }, timewindow := 0, deadlineInCurrentTimewindow := false
      dispatched := 0 }
  usec _ := by decide
  monotone _ := rfl

def twolsfqdStart (σ : TwolsfqdRun.Settings) : TwolsfqdRun :=
  .init σ (sampleWorld (twolsfqdInit σ.cfg.numApps σ.rate
    (fun app => twolsfqdDeadline (σ.latency app)) σ.interval σ.threshold σ.junk))

/-- A write of `size` bytes by the application `app`, on one socket. -/
def twolsfqdWrite (app : Nat) (rs : Addr) (size : Int) : Arrival TwolsfqdQueueItem where
  pool i := { socket := i + 5, appIndex := app, weight := 1 }
  index := 2 * app
  dataSocket := 2 * app + 1
  rs := rs
  newRs := default
  pi :=
    { op := .io, tag := 7, reqSize := 64, ioType := pvfsIoWrite, currentDataSize := size
      aggregateSize := size, totalServer := 1, stripSize := 65536 }

end PvfsProxy
