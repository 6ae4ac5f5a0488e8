import PvfsProxy.Broadcast
import PvfsProxy.Dsfq

/-!
# The broadcasts of DSFQ

One DSFQ proxy with its three threads: requests are counted in
`request_receive_queue`, the coordinator turns the counters into a broadcast
once the threshold is reached and the last broadcast is complete, and the
broadcast thread sends it. Every byte is then told to every peer exactly once
(`dsfq_broadcast_conservation`): what was counted is what the broadcasts carry
and what the counter still holds.

`dsfq_enqueue` takes two mutexes one after the other, so that the other threads
run between its two halves, which are steps of their own here.
-/

namespace PvfsProxy

/-- What `dsfq_enqueue` does under `dsfq_queue_mutex`. -/
def dsfqEnqueueQueue (pool : Nat → Endpoint) (si : SocketInfo) (pi : PvfsInfo)
    (g : Globals Dsfq) : Except Fault (Globals Dsfq × Bool) := do
  let length := pi.currentDataSize
  let appIndex := (pool si.requestSocket).appIndex
  let weight := (pool si.requestSocket).weight
  let (s, delayValue) ← dsfqTakeDelay appIndex weight g.sched
  let startTag := max s.virtualTime (s.lastFinishTags appIndex + delayValue)
  let cost := length
  let finishTag := startTag + (cost.tdiv weight).tdiv dsfqReducer
  let item :=
    dsfqNewItem pool si pi startTag finishTag delayValue (g.appStats appIndex).streamId s.itemId
  let (s, dispatched) ← dsfqInsert item
    { s with
      lastFinishTags := Function.update s.lastFinishTags appIndex finishTag
      itemId := s.itemId + 1 }
  let g := g.modifyApp appIndex fun a => { a with streamId := a.streamId + 1 }
  return ({ g with sched := s }, dispatched)

/-- `dsfq_enqueue` up to the release of `dsfq_broadcast_mutex`. -/
def dsfqEnqueueCount (pool : Nat → Endpoint) (si : SocketInfo) (pi : PvfsInfo)
    (g : Globals Dsfq) : Globals Dsfq :=
  let g := g.modifyApp si.appIndex fun a =>
    { a with receivedRequests := a.receivedRequests + 1 }
  { g with sched := dsfqCount (pool si.requestSocket).appIndex pi.currentDataSize g.sched }

theorem dsfqEnqueue_eq (pool : Nat → Endpoint) (si : SocketInfo) (pi : PvfsInfo)
    (g : Globals Dsfq) :
    dsfqEnqueue pool si pi g = dsfqEnqueueQueue pool si pi (dsfqEnqueueCount pool si pi g) :=
  rfl

/-- `new_msg` of `dsfq_broadcast_trigger_work` -/
def dsfqNewMsg (numApps : Nat) (s : Dsfq) : List ProxyMessage :=
  (List.range numApps).map fun i =>
    { appIndex := i, periodCount := (s.stats i).requestReceiveQueue }

/-- The coordinator clears the counters. -/
def dsfqClearCounters (numApps : Nat) (s : Dsfq) : Dsfq :=
  { s with
    thresholdReady := false
    stats := fun i =>
      if i < numApps then { s.stats i with requestReceiveQueue := 0 } else s.stats i
    currentIoCounter := 0 }

/-- A DSFQ proxy, with the requests counted so far: their applications and their
lengths. -/
structure DsfqProxy where
  g : Globals Dsfq
  coordinator : BroadcastCoordinator
  broadcast : Broadcast
  counted : List (Nat × Int)

namespace DsfqProxy

def init (depth threshold : Int) (appStats : Nat → AppStatistics) : DsfqProxy where
  g := { sched := dsfqInit depth threshold, appStats, totalThroughput := 0 }
  coordinator := .completeWait
  broadcast := broadcastInit
  counted := []

/-- The coordinator builds a broadcast. -/
def build (numApps servers : Nat) (s : DsfqProxy) : DsfqProxy :=
  { s with
    g := { s.g with sched := dsfqClearCounters numApps s.g.sched }
    coordinator := .completeWait
    broadcast := s.broadcast.place servers (dsfqNewMsg numApps s.g.sched) }

/-- `dsfq_broadcast_trigger_work` from a point where it takes the mutex to the
next one where it gives it up: it has built a broadcast or waits. -/
def dsfqBroadcastTriggerWork (numApps servers : Nat) (s : DsfqProxy) : DsfqProxy :=
  match s.coordinator with
  | .completeWait =>
    if !s.broadcast.complete then s
    else if !s.g.sched.thresholdReady then { s with coordinator := .thresholdWait }
    else s.build numApps servers
  | .thresholdWait =>
    if !s.g.sched.thresholdReady then s
    else s.build numApps servers

inductive Event where
  | count (pool : Nat → Endpoint) (si : SocketInfo) (pi : PvfsInfo)
  | queue (pool : Nat → Endpoint) (si : SocketInfo) (pi : PvfsInfo)
  | dequeue (r : DequeueReason DsfqQueueItem)
  | receive (appIndex : Nat) (periodCount : Int)
  | coordinate
  | work (revents : Bool)

def step (numApps servers : Nat) (s : DsfqProxy) : Event → Except Fault DsfqProxy
  | .count pool si pi => .ok { s with
      g := dsfqEnqueueCount pool si pi s.g
      counted := s.counted ++ [((pool si.requestSocket).appIndex, pi.currentDataSize)] }
  | .queue pool si pi => do
    let (g, _) ← dsfqEnqueueQueue pool si pi s.g
    return { s with g := g }
  | .dequeue r => .ok { s with g := (dsfqDequeue r s.g).1 }
  | .receive appIndex periodCount => .ok { s with g := dsfqReceive appIndex periodCount s.g }
  | .coordinate => .ok (s.dsfqBroadcastTriggerWork numApps servers)
  | .work revents => .ok { s with broadcast := s.broadcast.proxyBroadcastWork servers revents }

def InApps (numApps : Nat) (_ : DsfqProxy) : Event → Prop
  | .count pool si _ => (pool si.requestSocket).appIndex < numApps
  | _ => True

instance (numApps : Nat) (s : DsfqProxy) (e : Event) : Decidable (s.InApps numApps e) :=
  match e with
  | .count pool si _ => inferInstanceAs (Decidable ((pool si.requestSocket).appIndex < numApps))
  | .queue .. | .dequeue _ | .receive .. | .coordinate | .work _ =>
    inferInstanceAs (Decidable True)

/-- The bytes of an application's requests so far. -/
def countedBytes (app : Nat) (s : DsfqProxy) : Int :=
  (s.counted.map fun c => if c.1 = app then c.2 else 0).sum

end DsfqProxy

theorem periodCounts_newMsg {numApps app : Nat} (happ : app < numApps) (s : Dsfq) :
    periodCounts app [dsfqNewMsg numApps s] = (s.stats app).requestReceiveQueue :=
  periodCounts_range happ fun i => (s.stats i).requestReceiveQueue

/-! ## The counters outside the broadcast mutex -/

/-- What is counted for the next broadcast is kept. -/
structure Dsfq.SameCounters (s s' : Dsfq) : Prop where
  counter : ∀ i, (s'.stats i).requestReceiveQueue = (s.stats i).requestReceiveQueue
  ready : s'.thresholdReady = s.thresholdReady

theorem Dsfq.SameCounters.modifyStats (s : Dsfq) (app : Nat)
    {f : DsfqStatistics → DsfqStatistics}
    (hf : ∀ st, (f st).requestReceiveQueue = st.requestReceiveQueue) :
    s.SameCounters (s.modifyStats app f) where
  counter i := by
    by_cases hi : i = app
    · subst hi
      simp [Dsfq.modifyStats, hf]
    · simp [Dsfq.modifyStats, hi]
  ready := rfl

theorem dsfqEnqueueQueue_counters {pool : Nat → Endpoint} {si : SocketInfo} {pi : PvfsInfo}
    {g g' : Globals Dsfq} {b : Bool} (h : dsfqEnqueueQueue pool si pi g = .ok (g', b)) :
    g.sched.SameCounters g'.sched := by
  obtain ⟨⟨s₁, delay⟩, hdelay, h⟩ := Machine.bind_eq_ok.mp h
  obtain ⟨⟨s₂, b'⟩, hinsert, h⟩ := Machine.bind_eq_ok.mp h
  obtain ⟨rfl, rfl⟩ := Prod.mk.inj (Machine.pure_eq_ok.mp h)
  obtain ⟨q, -, -, hs⟩ := dsfqInsert_ok hinsert
  have htaken : g.sched.SameCounters s₁ := by
    unfold dsfqTakeDelay at hdelay
    dsimp only at hdelay
    split at hdelay
    · cases hdelay
    · obtain ⟨rfl, -⟩ := Prod.mk.inj (Except.ok.inj hdelay)
      exact .modifyStats _ _ fun _ => rfl
  have hkept : s₁.SameCounters s₂ := by
    rw [hs]
    exact ⟨fun _ => rfl, rfl⟩
  exact ⟨fun i => (hkept.counter i).trans (htaken.counter i), hkept.ready.trans htaken.ready⟩

theorem dsfqDequeue_counters (r : DequeueReason DsfqQueueItem) (g : Globals Dsfq) :
    g.sched.SameCounters (dsfqDequeue r g).1.sched := by
  rcases dsfqDequeue_cases r g with ⟨-, -, hs⟩ | ⟨it, rest, -, -, hs⟩
  · rw [hs]
    exact ⟨fun _ => rfl, rfl⟩
  · rw [hs]
    refine ⟨fun i => ?_, rfl⟩
    by_cases hi : i = it.embedded.appIndex
    · subst hi
      simp
    · simp [hi]

theorem dsfqReceive_counters (appIndex : Nat) (periodCount : Int) (g : Globals Dsfq) :
    g.sched.SameCounters (dsfqReceive appIndex periodCount g).sched := by
  unfold dsfqReceive
  rw [Globals.modifyApp_sched]
  have hsame := Dsfq.SameCounters.modifyStats g.sched appIndex
    (f := fun st => { st with dsfqDelayValues := st.dsfqDelayValues + periodCount }) fun _ => rfl
  exact hsame

theorem dsfqCount_counter (app : Nat) (length : Int) (s : Dsfq) (i : Nat) :
    ((dsfqCount app length s).stats i).requestReceiveQueue
      = (s.stats i).requestReceiveQueue + if app = i then length else 0 := by
  have hstats : (dsfqCount app length s).stats
      = (s.modifyStats app fun st =>
          { st with requestReceiveQueue := st.requestReceiveQueue + length }).stats := by
    unfold dsfqCount
    dsimp only
    split <;> rfl
  rw [hstats]
  by_cases hi : i = app
  · subst hi
    simp [Dsfq.modifyStats]
  · simp [Dsfq.modifyStats, hi, Ne.symm hi]

/-! ## Conservation -/

namespace DsfqProxy

/-- What every step of the three threads keeps. -/
structure Conserved (numApps servers : Nat) (s : DsfqProxy) : Prop where
  handed : s.broadcast.Handed servers
  waits : s.coordinator = .thresholdWait → s.broadcast.complete = true
  ready : s.g.sched.thresholdReady = true → 0 < numApps
  bytes : ∀ app < numApps, ∀ i < servers,
    s.countedBytes app = periodCounts app (s.broadcast.placed i)
      + (s.g.sched.stats app).requestReceiveQueue

variable {numApps servers : Nat} {s t : DsfqProxy}

theorem Conserved.init {depth threshold : Int} {appStats : Nat → AppStatistics} :
    Conserved numApps servers (DsfqProxy.init depth threshold appStats) where
  handed := .init
  waits h := BroadcastCoordinator.noConfusion h
  ready h := Bool.noConfusion h
  bytes _ _ _ _ := rfl

/-- A step outside the broadcast mutex. -/
theorem Conserved.queued (h : Conserved numApps servers s) {g : Globals Dsfq}
    (hsame : s.g.sched.SameCounters g.sched) : Conserved numApps servers { s with g := g } where
  handed := h.handed
  waits := h.waits
  ready hready := h.ready (hsame.ready.symm.trans hready)
  bytes app happ i hi := (h.bytes app happ i hi).trans (by rw [hsame.counter app])

/-- The coordinator builds only when the last broadcast is complete. -/
theorem Conserved.trigger_cases (h : Conserved numApps servers s) :
    ((s.dsfqBroadcastTriggerWork numApps servers).g = s.g
      ∧ (s.dsfqBroadcastTriggerWork numApps servers).broadcast = s.broadcast
      ∧ (s.dsfqBroadcastTriggerWork numApps servers).counted = s.counted
      ∧ ((s.dsfqBroadcastTriggerWork numApps servers).coordinator = .thresholdWait →
          s.broadcast.complete = true))
    ∨ s.broadcast.complete = true ∧ s.g.sched.thresholdReady = true
      ∧ s.dsfqBroadcastTriggerWork numApps servers = s.build numApps servers := by
  unfold dsfqBroadcastTriggerWork
  cases hcoordinator : s.coordinator with
  | completeWait =>
      cases hcomplete : s.broadcast.complete with
      | false => simp [hcoordinator]
      | true => cases hready : s.g.sched.thresholdReady <;> simp
  | thresholdWait =>
      have hcomplete := h.waits hcoordinator
      cases hready : s.g.sched.thresholdReady <;> simp [hcomplete]

theorem Conserved.build (h : Conserved numApps servers s)
    (hcomplete : s.broadcast.complete = true) (hready : s.g.sched.thresholdReady = true) :
    Conserved numApps servers (s.build numApps servers) where
  handed := by
    refine h.handed.place hcomplete fun hnil => ?_
    have hlength := congrArg List.length hnil
    have hpos := h.ready hready
    simp only [dsfqNewMsg, List.length_map, List.length_range, List.length_nil] at hlength
    omega
  waits hwaits := BroadcastCoordinator.noConfusion hwaits
  ready hbad := Bool.noConfusion hbad
  bytes app happ i hi := by
    have hplaced : (s.build numApps servers).broadcast.placed i
        = s.broadcast.placed i ++ [dsfqNewMsg numApps s.g.sched] := if_pos hi
    have hcleared : ((s.build numApps servers).g.sched.stats app).requestReceiveQueue = 0 := by
      simp only [DsfqProxy.build, dsfqClearCounters, if_pos happ]
    rw [hplaced, hcleared, periodCounts_append, periodCounts_newMsg happ, Int.add_zero]
    exact h.bytes app happ i hi

theorem Conserved.step (h : Conserved numApps servers s) {e : Event} (hok : s.InApps numApps e)
    (hstep : s.step numApps servers e = .ok t) : Conserved numApps servers t := by
  cases e with
  | count pool si pi =>
      obtain rfl := Except.ok.inj hstep
      refine ⟨h.handed, h.waits, fun _ => Nat.zero_lt_of_lt hok, fun app happ i hi => ?_⟩
      have hcounter : ((dsfqEnqueueCount pool si pi s.g).sched.stats app).requestReceiveQueue
          = (s.g.sched.stats app).requestReceiveQueue
            + if (pool si.requestSocket).appIndex = app then pi.currentDataSize else 0 :=
        dsfqCount_counter _ _ _ _
      have hcounted : DsfqProxy.countedBytes app { s with
            g := dsfqEnqueueCount pool si pi s.g
            counted := s.counted ++ [((pool si.requestSocket).appIndex, pi.currentDataSize)] }
          = s.countedBytes app
            + if (pool si.requestSocket).appIndex = app then pi.currentDataSize else 0 := by
        unfold countedBytes
        rw [List.map_append, List.sum_append, List.map_singleton, List.sum_singleton]
      rw [hcounted, hcounter, h.bytes app happ i hi, Int.add_assoc]
  | queue pool si pi =>
      obtain ⟨⟨g', b⟩, hqueue, hstep⟩ := Machine.bind_eq_ok.mp hstep
      obtain rfl := Machine.pure_eq_ok.mp hstep
      exact h.queued (dsfqEnqueueQueue_counters hqueue)
  | dequeue r =>
      obtain rfl := Except.ok.inj hstep
      exact h.queued (dsfqDequeue_counters r s.g)
  | receive appIndex periodCount =>
      obtain rfl := Except.ok.inj hstep
      exact h.queued (dsfqReceive_counters appIndex periodCount s.g)
  | coordinate =>
      obtain rfl := Except.ok.inj hstep
      rcases h.trigger_cases with ⟨hg, hb, hc, hw⟩ | ⟨hcomplete, hready, hbuild⟩
      · refine ⟨by rw [hb]; exact h.handed, by rw [hb]; exact hw, by rw [hg]; exact h.ready, ?_⟩
        unfold countedBytes
        rw [hg, hb, hc]
        exact h.bytes
      · rw [hbuild]
        exact h.build hcomplete hready
  | work revents =>
      obtain rfl := Except.ok.inj hstep
      refine ⟨h.handed.work revents, fun hwaits => Broadcast.work_complete revents (h.waits hwaits),
        h.ready, fun app happ i hi => ?_⟩
      · show _ = periodCounts app ((s.broadcast.proxyBroadcastWork servers revents).placed i) + _
        rw [Broadcast.work_placed]
        exact h.bytes app happ i hi

theorem Conserved.run {depth threshold : Int} {appStats : Nat → AppStatistics} {es : List Event}
    (hrun : Machine.Run (InApps numApps) (DsfqProxy.step numApps servers)
      (DsfqProxy.init depth threshold appStats) es s) : Conserved numApps servers s := by
  induction hrun with
  | nil => exact .init
  | snoc _ hok hstep ih => exact ih.step hok hstep

theorem run_work (n : Nat) :
    Machine.Run (InApps numApps) (DsfqProxy.step numApps servers) s
      (List.replicate n (.work true))
      { s with broadcast := (Broadcast.proxyBroadcastWork servers true)^[n] s.broadcast } := by
  induction n with
  | zero => exact .nil
  | succ n ih =>
      rw [List.replicate_succ']
      refine ih.snoc trivial ?_
      rw [Function.iterate_succ_apply']
      rfl

end DsfqProxy

/-- **DSFQ broadcast conservation.** In every reachable state the requests
counted are what the broadcasts to any peer tell and what the counter holds; a
step of the coordinator leaves every buffer alone of which something is left to
send; and what was sent to a peer are the broadcasts, the same for every peer
and each of them once, in order, but for the one still in its buffer, which
goes out once the broadcast thread runs on. -/
theorem dsfq_broadcast_conservation {numApps servers : Nat} {depth threshold : Int}
    {appStats : Nat → AppStatistics} {es : List DsfqProxy.Event} {s : DsfqProxy}
    (hrun : Machine.Run (DsfqProxy.InApps numApps) (DsfqProxy.step numApps servers)
      (.init depth threshold appStats) es s) :
    (∀ app < numApps, ∀ i < servers,
      s.countedBytes app = periodCounts app (s.broadcast.placed i)
        + (s.g.sched.stats app).requestReceiveQueue)
    ∧ (∀ i < servers, 0 < s.broadcast.bufferSize i →
        (s.dsfqBroadcastTriggerWork numApps servers).broadcast.buffer i = s.broadcast.buffer i
          ∧ (s.dsfqBroadcastTriggerWork numApps servers).broadcast.bufferSize i
            = s.broadcast.bufferSize i)
    ∧ (∀ i < servers, s.broadcast.placed i = s.broadcast.sent i ++ s.broadcast.unsent i)
    ∧ (∀ i < servers, ∀ j < servers, s.broadcast.placed i = s.broadcast.placed j)
    ∧ ∃ n t, Machine.Run (DsfqProxy.InApps numApps) (DsfqProxy.step numApps servers) s
        (List.replicate n (.work true)) t
      ∧ ∀ i < servers, t.broadcast.sent i = s.broadcast.placed i := by
  have hconserved := DsfqProxy.Conserved.run hrun
  refine ⟨hconserved.bytes, fun i hi hleft => ?_, hconserved.handed.order,
    hconserved.handed.same, ?_⟩
  · rcases hconserved.trigger_cases with ⟨-, hb, -⟩ | ⟨hcomplete, -⟩
    · rw [hb]
      exact ⟨rfl, rfl⟩
    · have hempty := hconserved.handed.empty (.inl hcomplete) i hi
      omega
  · obtain ⟨n, hn⟩ := hconserved.handed.flush
    exact ⟨n, _, DsfqProxy.run_work n, hn⟩

/-- A request of application 1 comes while the broadcast about application 0
has gone to one of two peers. -/
theorem dsfq_broadcast_conservation_example :
    ∃ s : DsfqProxy, s.broadcast.bufferSize 0 = 0 ∧ 0 < s.broadcast.bufferSize 1
      ∧ s.countedBytes 1 = periodCounts 1 (s.broadcast.placed 0)
        + (s.g.sched.stats 1).requestReceiveQueue := by
  obtain ⟨s, hrun, hs⟩ := Machine.Run.exists_of_exec (DsfqProxy.InApps 2) (DsfqProxy.step 2 2)
    (.init 1 10 fun _ => { appWeight := 1 })
    [.count (fun _ => { socket := 5, appIndex := 0, weight := 1 })
        { requestSocket := 0, dataSocket := 0, appIndex := 0, rs := 0 }
        { op := .io, tag := 7, reqSize := 64, currentDataSize := 4096 },
      .coordinate, .work true, .work true,
      .count (fun _ => { socket := 6, appIndex := 1, weight := 1 })
        { requestSocket := 1, dataSocket := 1, appIndex := 1, rs := 0 }
        { op := .io, tag := 7, reqSize := 64, currentDataSize := 512 }]
    (fun s => (s.broadcast.bufferSize 0, s.broadcast.bufferSize 1)) (a := (0, 16))
    (by decide +kernel)
  obtain ⟨hsent, hleft⟩ := Prod.mk.inj hs
  refine ⟨s, hsent, by omega, ?_⟩
  exact (dsfq_broadcast_conservation hrun).1 1 (by decide) 0 (by decide)

end PvfsProxy
