import PvfsProxy.Broadcast
import PvfsProxy.Vdsfq

/-!
# The announcements of vDSFQ

One vDSFQ proxy with its threads. An application's first request makes its
entry in `vapp_entries_local` 1; the coordinator tells the peers of the
applications with entry 1, with a `period_count` of 1, and makes their entries
2. `Announcing` is what ties the entry to the counter that is told and to what
the broadcasts hold: an application is told of once, when its entry becomes 2,
and only if it was served.
-/

namespace PvfsProxy

/-- What `vdsfq_enqueue` does under `vdsfq_queue_mutex`. -/
def vdsfqEnqueueQueue (pool : Nat → Endpoint) (si : SocketInfo) (pi : PvfsInfo)
    (g : Globals Vdsfq) : Except Fault (Globals Vdsfq × Bool) := do
  let length := pi.currentDataSize
  let appIndex := (pool si.requestSocket).appIndex
  let weight := (pool si.requestSocket).weight
  let s := g.sched
  let (startTag, finishTag) ← vdsfqTags s appIndex length weight
  let item := vdsfqNewItem pool si pi startTag finishTag (s.appEntriesRemote appIndex)
    (g.appStats appIndex).streamId s.itemId
  let (s, dispatched) ← vdsfqInsert item
    { s with
      lastFinishTags := Function.update s.lastFinishTags appIndex finishTag
      itemId := s.itemId + 1 }
  let g := g.modifyApp appIndex fun a => { a with streamId := a.streamId + 1 }
  return ({ g with sched := s }, dispatched)

/-- `vdsfq_enqueue` up to the release of `vdsfq_broadcast_mutex`. -/
def vdsfqEnqueueAnnounce (pool : Nat → Endpoint) (si : SocketInfo) (g : Globals Vdsfq) :
    Globals Vdsfq :=
  let g := g.modifyApp si.appIndex fun a =>
    { a with receivedRequests := a.receivedRequests + 1 }
  { g with sched := vdsfqAnnounce (pool si.requestSocket).appIndex g.sched }

theorem vdsfqEnqueue_eq (pool : Nat → Endpoint) (si : SocketInfo) (pi : PvfsInfo)
    (g : Globals Vdsfq) :
    vdsfqEnqueue pool si pi g = vdsfqEnqueueQueue pool si pi (vdsfqEnqueueAnnounce pool si g) :=
  rfl

/-- The `period_count` that `vdsfq_broadcast_trigger_work` tells of an
application. -/
def vdsfqPeriodCount (s : Vdsfq) (i : Nat) : Int :=
  if s.appEntriesLocal i = 1 then (s.stats i).requestReceiveQueue else 0

/-- `new_msg` of `vdsfq_broadcast_trigger_work` -/
def vdsfqNewMsg (numApps : Nat) (s : Vdsfq) : List ProxyMessage :=
  (List.range numApps).map fun i => { appIndex := i, periodCount := vdsfqPeriodCount s i }

/-- One turn of the coordinator's loop with `vdsfq_left` and `found`. -/
def vdsfqLeftStep (s : Vdsfq) (p : Bool × Bool) (i : Nat) : Bool × Bool :=
  let found := p.2 || (s.appEntriesLocal i ≠ 1 && p.1 && s.appEntriesLocal i = 0)
  (p.1 && found, found)

/-- `vdsfq_left` after the loop: whether an application has not come yet. -/
def vdsfqLeft (numApps : Nat) (s : Vdsfq) (left : Bool) : Bool :=
  ((List.range numApps).foldl (vdsfqLeftStep s) (left, false)).1

/-- The coordinator marks what it told and clears the counters. -/
def vdsfqClearCounters (numApps : Nat) (s : Vdsfq) : Vdsfq :=
  { s with
    appEntriesLocal := fun i =>
      if i < numApps ∧ s.appEntriesLocal i = 1 then 2 else s.appEntriesLocal i
    left2 := s.left2 && numApps = 0
    thresholdReady := false
    timeout := false
    stats := fun i =>
      if i < numApps then { s.stats i with requestReceiveQueue := 0 } else s.stats i
    currentIoCounter := 0 }

/-- The receive thread adds a peer's message to its count of proxies. -/
def vdsfqReceive (m : ProxyMessage) (s : Vdsfq) : Vdsfq :=
  { s with
    appEntriesRemote := Function.update s.appEntriesRemote m.appIndex
      (s.appEntriesRemote m.appIndex + m.periodCount) }

/-- A vDSFQ proxy, with the applications of the requests so far. -/
structure VdsfqProxy where
  g : Globals Vdsfq
  left : Bool
  coordinator : BroadcastCoordinator
  broadcast : Broadcast
  served : List Nat

namespace VdsfqProxy

def init (depth threshold : Int) (appStats : Nat → AppStatistics) : VdsfqProxy where
  g := { sched := vdsfqInit depth threshold, appStats, totalThroughput := 0 }
  left := true
  coordinator := .completeWait
  broadcast := broadcastInit
  served := []

/-- The coordinator builds a broadcast. -/
def build (numApps servers : Nat) (s : VdsfqProxy) : VdsfqProxy :=
  { s with
    g := { s.g with sched := vdsfqClearCounters numApps s.g.sched }
    left := vdsfqLeft numApps s.g.sched s.left
    coordinator := .completeWait
    broadcast := s.broadcast.place servers (vdsfqNewMsg numApps s.g.sched) }

/-- `vdsfq_broadcast_trigger_work` from a point where it takes the mutex to the
next one where it gives it up. -/
def vdsfqBroadcastTriggerWork (numApps servers : Nat) (s : VdsfqProxy) : VdsfqProxy :=
  match s.coordinator with
  | .completeWait =>
    if !s.broadcast.complete then s
    else if !s.g.sched.thresholdReady then { s with coordinator := .thresholdWait }
    else s.build numApps servers
  | .thresholdWait =>
    if !s.g.sched.thresholdReady then s
    else s.build numApps servers

inductive Event where
  | announce (pool : Nat → Endpoint) (si : SocketInfo)
  | queue (pool : Nat → Endpoint) (si : SocketInfo) (pi : PvfsInfo)
  | dequeue (r : DequeueReason VdsfqQueueItem)
  | timeout
  | coordinate
  | work (revents : Bool)

def step (numApps servers : Nat) (s : VdsfqProxy) : Event → Except Fault VdsfqProxy
  | .announce pool si => .ok { s with
      g := vdsfqEnqueueAnnounce pool si s.g
      served := s.served ++ [(pool si.requestSocket).appIndex] }
  | .queue pool si pi => do
    let (g, _) ← vdsfqEnqueueQueue pool si pi s.g
    return { s with g := g }
  | .dequeue r => .ok { s with g := (vdsfqDequeue r s.g).1 }
  | .timeout => .ok { s with g := { s.g with sched := { s.g.sched with timeout := true } } }
  | .coordinate => .ok (s.vdsfqBroadcastTriggerWork numApps servers)
  | .work revents => .ok { s with broadcast := s.broadcast.proxyBroadcastWork servers revents }

def InApps (numApps : Nat) (_ : VdsfqProxy) : Event → Prop
  | .announce pool si => (pool si.requestSocket).appIndex < numApps
  | _ => True

instance (numApps : Nat) (s : VdsfqProxy) (e : Event) : Decidable (s.InApps numApps e) :=
  match e with
  | .announce pool si => inferInstanceAs (Decidable ((pool si.requestSocket).appIndex < numApps))
  | .queue .. | .dequeue _ | .timeout | .coordinate | .work _ => inferInstanceAs (Decidable True)

end VdsfqProxy

/-! ## Announcements in a stream of messages -/

/-- The messages that announce an application. -/
def announcements (app : Nat) (ms : List ProxyMessage) : Nat :=
  ms.countP fun m => m.appIndex = app ∧ m.periodCount ≠ 0

/-- A message says of a configured application whether it came. -/
def ProxyMessage.Presence (numApps : Nat) (m : ProxyMessage) : Prop :=
  m.appIndex < numApps ∧ (m.periodCount = 0 ∨ m.periodCount = 1)

theorem announcements_eq {numApps : Nat} {bs : List (List ProxyMessage)}
    (h : ∀ m ∈ bs.flatten, m.Presence numApps) (app : Nat) :
    (announcements app bs.flatten : Int) = periodCounts app bs := by
  unfold announcements periodCounts
  generalize bs.flatten = ms at h
  induction ms with
  | nil => rfl
  | cons m ms ih =>
      obtain ⟨-, hcount⟩ := h m (List.mem_cons_self ..)
      rw [List.countP_cons, List.map_cons, List.sum_cons, Int.natCast_add,
        ih fun m' hm' => h m' (List.mem_cons_of_mem _ hm')]
      by_cases happ : m.appIndex = app
      · rcases hcount with hzero | hone
        · simp [happ, hzero]
        · simp [happ, hone]
          omega
      · simp [happ]

/-- The coordinator's message about an application. -/
theorem periodCounts_vdsfqNewMsg {numApps app : Nat} (happ : app < numApps) (s : Vdsfq) :
    periodCounts app [vdsfqNewMsg numApps s] = vdsfqPeriodCount s app :=
  periodCounts_range happ (vdsfqPeriodCount s)

/-! ## What is kept outside the broadcast mutex -/

/-- The entries and what is to be told are kept. -/
structure Vdsfq.SameEntries (s s' : Vdsfq) : Prop where
  entriesLocal : s'.appEntriesLocal = s.appEntriesLocal
  entriesRemote : s'.appEntriesRemote = s.appEntriesRemote
  counter : ∀ i, (s'.stats i).requestReceiveQueue = (s.stats i).requestReceiveQueue
  ready : s'.thresholdReady = s.thresholdReady

theorem vdsfqInsert_entries {it : VdsfqItem} {s s' : Vdsfq} {b : Bool}
    (h : vdsfqInsert it s = .ok (s', b)) : s.SameEntries s' := by
  unfold vdsfqInsert at h
  dsimp only at h
  split at h
  · cases h
  · split at h
    · obtain ⟨rfl, -⟩ := Prod.mk.inj (Except.ok.inj h)
      exact ⟨rfl, rfl, fun _ => rfl, rfl⟩
    · obtain ⟨rfl, -⟩ := Prod.mk.inj (Except.ok.inj h)
      exact ⟨rfl, rfl, fun _ => rfl, rfl⟩

theorem vdsfqEnqueueQueue_entries {pool : Nat → Endpoint} {si : SocketInfo} {pi : PvfsInfo}
    {g g' : Globals Vdsfq} {b : Bool} (h : vdsfqEnqueueQueue pool si pi g = .ok (g', b)) :
    g.sched.SameEntries g'.sched := by
  obtain ⟨⟨startTag, finishTag⟩, -, h⟩ := Machine.bind_eq_ok.mp h
  obtain ⟨⟨s, dispatched⟩, hinsert, h⟩ := Machine.bind_eq_ok.mp h
  obtain ⟨rfl, rfl⟩ := Prod.mk.inj (Machine.pure_eq_ok.mp h)
  have hkept := vdsfqInsert_entries hinsert
  exact ⟨hkept.entriesLocal, hkept.entriesRemote, hkept.counter, hkept.ready⟩

theorem vdsfqDequeue_entries (r : DequeueReason VdsfqQueueItem) (g : Globals Vdsfq) :
    g.sched.SameEntries (vdsfqDequeue r g).1.sched := by
  unfold vdsfqDequeue
  dsimp only
  split
  · rename_i it heq
    refine ⟨rfl, rfl, fun i => ?_, rfl⟩
    simp only [Globals.modifyApp_sched, Vdsfq.modifyStats]
    by_cases hi : i = it.embedded.appIndex
    · subst hi
      simp
    · simp [hi]
  · exact ⟨rfl, rfl, fun _ => rfl, rfl⟩

/-- A request makes the entry of an application that was not seen before 1. -/
theorem vdsfqAnnounce_entries (app : Nat) (s : Vdsfq) :
    (vdsfqAnnounce app s).appEntriesRemote = s.appEntriesRemote
      ∧ (∀ i, (vdsfqAnnounce app s).appEntriesLocal i
          = if i = app ∧ s.appEntriesLocal app = 0 then 1 else s.appEntriesLocal i)
      ∧ ∀ i, ((vdsfqAnnounce app s).stats i).requestReceiveQueue
          = if i = app ∧ s.appEntriesLocal app = 0 then 1
            else (s.stats i).requestReceiveQueue := by
  by_cases hnew : s.appEntriesLocal app = 0
  · have hentries : (vdsfqAnnounce app s).appEntriesRemote = s.appEntriesRemote
        ∧ (vdsfqAnnounce app s).appEntriesLocal = Function.update s.appEntriesLocal app 1
        ∧ (vdsfqAnnounce app s).stats
          = (s.modifyStats app fun st => { st with requestReceiveQueue := 1 }).stats := by
      unfold vdsfqAnnounce
      simp only [if_pos hnew]
      split <;> exact ⟨rfl, rfl, rfl⟩
    obtain ⟨hremote, hlocal, hstats⟩ := hentries
    rw [hlocal, hstats]
    refine ⟨hremote, fun i => ?_, fun i => ?_⟩
    · by_cases hi : i = app
      · subst hi
        simp [hnew]
      · simp [hi]
    · by_cases hi : i = app
      · subst hi
        simp [hnew, Vdsfq.modifyStats]
      · simp [hi, Vdsfq.modifyStats]
  · have hentries : (vdsfqAnnounce app s).appEntriesRemote = s.appEntriesRemote
        ∧ (vdsfqAnnounce app s).appEntriesLocal = s.appEntriesLocal
        ∧ (vdsfqAnnounce app s).stats = s.stats := by
      unfold vdsfqAnnounce
      simp only [if_neg hnew]
      split <;> exact ⟨rfl, rfl, rfl⟩
    obtain ⟨hremote, hlocal, hstats⟩ := hentries
    rw [hlocal, hstats]
    exact ⟨hremote, fun i => (if_neg fun h => hnew h.2).symm,
      fun i => (if_neg fun h => hnew h.2).symm⟩

namespace VdsfqProxy

/-- What every step of a proxy's threads keeps. -/
structure Announcing (numApps servers : Nat) (s : VdsfqProxy) : Prop where
  handed : s.broadcast.Handed servers
  waits : s.coordinator = .thresholdWait → s.broadcast.complete = true
  ready : s.g.sched.thresholdReady = true → 0 < numApps
  entry : ∀ app < numApps, s.g.sched.appEntriesLocal app = 0
    ∨ s.g.sched.appEntriesLocal app = 1 ∨ s.g.sched.appEntriesLocal app = 2
  counter : ∀ app < numApps, (s.g.sched.stats app).requestReceiveQueue
    = if s.g.sched.appEntriesLocal app = 1 then 1 else 0
  serves : ∀ app < numApps, s.g.sched.appEntriesLocal app ≠ 0 → app ∈ s.served
  told : ∀ app < numApps, ∀ i < servers, periodCounts app (s.broadcast.placed i)
    = if s.g.sched.appEntriesLocal app = 2 then 1 else 0
  messages : ∀ i < servers, ∀ m ∈ (s.broadcast.placed i).flatten, m.Presence numApps

variable {numApps servers : Nat} {s t : VdsfqProxy}

theorem Announcing.init {depth threshold : Int} {appStats : Nat → AppStatistics} :
    Announcing numApps servers (VdsfqProxy.init depth threshold appStats) where
  handed := .init
  waits h := BroadcastCoordinator.noConfusion h
  ready h := Bool.noConfusion h
  entry _ _ := .inl rfl
  counter _ _ := rfl
  serves _ _ h := absurd rfl h
  told _ _ _ _ := rfl
  messages := by
    intro _ _ m hm
    cases hm

/-- A step outside the broadcast mutex. -/
theorem Announcing.queued (h : Announcing numApps servers s) {g : Globals Vdsfq}
    (hsame : s.g.sched.SameEntries g.sched) : Announcing numApps servers { s with g := g } where
  handed := h.handed
  waits := h.waits
  ready hready := h.ready (hsame.ready.symm.trans hready)
  entry := by
    rw [hsame.entriesLocal]
    exact h.entry
  counter := by
    intro app happ
    rw [hsame.entriesLocal, hsame.counter app]
    exact h.counter app happ
  serves := by
    rw [hsame.entriesLocal]
    exact h.serves
  told := by
    rw [hsame.entriesLocal]
    exact h.told
  messages := h.messages

/-- The coordinator builds only when the last broadcast is complete. -/
theorem Announcing.trigger_cases (h : Announcing numApps servers s) :
    (∃ c, s.vdsfqBroadcastTriggerWork numApps servers = { s with coordinator := c }
      ∧ (c = .thresholdWait → s.broadcast.complete = true))
    ∨ s.broadcast.complete = true ∧ s.g.sched.thresholdReady = true
      ∧ s.vdsfqBroadcastTriggerWork numApps servers = s.build numApps servers := by
  unfold vdsfqBroadcastTriggerWork
  cases hcoordinator : s.coordinator with
  | completeWait =>
      cases hcomplete : s.broadcast.complete with
      | false =>
          left
          exact ⟨s.coordinator, rfl, fun hc => absurd (hcoordinator.symm.trans hc) (by decide)⟩
      | true =>
          cases hready : s.g.sched.thresholdReady with
          | false => exact .inl ⟨.thresholdWait, rfl, fun _ => rfl⟩
          | true => exact .inr ⟨rfl, rfl, rfl⟩
  | thresholdWait =>
      have hcomplete := h.waits hcoordinator
      cases hready : s.g.sched.thresholdReady with
      | false => exact .inl ⟨s.coordinator, rfl, fun _ => hcomplete⟩
      | true => exact .inr ⟨hcomplete, rfl, rfl⟩

theorem Announcing.build (h : Announcing numApps servers s)
    (hcomplete : s.broadcast.complete = true) (hready : s.g.sched.thresholdReady = true) :
    Announcing numApps servers (s.build numApps servers) := by
  have hplaced : ∀ i < servers, (s.build numApps servers).broadcast.placed i
      = s.broadcast.placed i ++ [vdsfqNewMsg numApps s.g.sched] := fun i hi => if_pos hi
  have hcleared : ∀ app < numApps,
      ((s.build numApps servers).g.sched.stats app).requestReceiveQueue = 0 := by
    intro app happ
    simp only [VdsfqProxy.build, vdsfqClearCounters, if_pos happ]
  have hlocal : ∀ app < numApps, (s.build numApps servers).g.sched.appEntriesLocal app
      = if s.g.sched.appEntriesLocal app = 1 then 2 else s.g.sched.appEntriesLocal app := by
    intro app happ
    simp only [VdsfqProxy.build, vdsfqClearCounters, happ, true_and]
  refine ⟨?_, ?_, ?_, ?_, ?_, ?_, ?_, ?_⟩
  · refine h.handed.place hcomplete fun hnil => ?_
    have hlength := congrArg List.length hnil
    have hpos := h.ready hready
    simp only [vdsfqNewMsg, List.length_map, List.length_range, List.length_nil] at hlength
    omega
  · exact fun hwaits => BroadcastCoordinator.noConfusion hwaits
  · exact fun hbad => Bool.noConfusion hbad
  · intro app happ
    rw [hlocal app happ]
    rcases h.entry app happ with hentry | hentry | hentry <;> simp [hentry]
  · intro app happ
    rw [hcleared app happ, hlocal app happ]
    rcases h.entry app happ with hentry | hentry | hentry <;> simp [hentry]
  · intro app happ hne
    refine h.serves app happ fun hzero => hne ?_
    rw [hlocal app happ, hzero]
    rfl
  · intro app happ i hi
    rw [hplaced i hi, periodCounts_append, periodCounts_vdsfqNewMsg happ, h.told app happ i hi,
      hlocal app happ]
    unfold vdsfqPeriodCount
    rw [h.counter app happ]
    rcases h.entry app happ with hentry | hentry | hentry <;> simp [hentry]
  · intro i hi m hm
    rw [hplaced i hi, List.flatten_append, List.flatten_singleton] at hm
    rcases List.mem_append.mp hm with hm | hm
    · exact h.messages i hi m hm
    · obtain ⟨app, happ, rfl⟩ := List.mem_map.mp hm
      have happ := List.mem_range.mp happ
      refine ⟨happ, ?_⟩
      show vdsfqPeriodCount _ _ = 0 ∨ vdsfqPeriodCount _ _ = 1
      unfold vdsfqPeriodCount
      rw [h.counter app happ]
      by_cases hentry : s.g.sched.appEntriesLocal app = 1 <;> simp [hentry]

theorem Announcing.announce (h : Announcing numApps servers s) {pool : Nat → Endpoint}
    {si : SocketInfo} (happs : (pool si.requestSocket).appIndex < numApps) :
    Announcing numApps servers { s with
      g := vdsfqEnqueueAnnounce pool si s.g
      served := s.served ++ [(pool si.requestSocket).appIndex] } := by
  obtain ⟨-, hlocal, hcounter⟩ :=
    vdsfqAnnounce_entries (pool si.requestSocket).appIndex s.g.sched
  refine ⟨h.handed, h.waits, fun _ => Nat.zero_lt_of_lt happs, ?_, ?_, ?_, ?_, h.messages⟩
  · intro app happ
    show (vdsfqAnnounce _ s.g.sched).appEntriesLocal app = 0
      ∨ (vdsfqAnnounce _ s.g.sched).appEntriesLocal app = 1
      ∨ (vdsfqAnnounce _ s.g.sched).appEntriesLocal app = 2
    rw [hlocal app]
    split
    · exact .inr (.inl rfl)
    · exact h.entry app happ
  · intro app happ
    show ((vdsfqAnnounce _ s.g.sched).stats app).requestReceiveQueue
      = if (vdsfqAnnounce _ s.g.sched).appEntriesLocal app = 1 then 1 else 0
    rw [hlocal app, hcounter app]
    split
    · rfl
    · exact h.counter app happ
  · intro app happ hne
    have hne : (vdsfqAnnounce _ s.g.sched).appEntriesLocal app ≠ 0 := hne
    rw [hlocal app] at hne
    split at hne
    · rename_i hnew
      exact List.mem_append_right _ (List.mem_singleton.mpr hnew.1)
    · exact List.mem_append_left _ (h.serves app happ hne)
  · intro app happ i hi
    show _ = if (vdsfqAnnounce _ s.g.sched).appEntriesLocal app = 2 then 1 else 0
    rw [hlocal app]
    refine (h.told app happ i hi).trans ?_
    by_cases hnew : app = (pool si.requestSocket).appIndex
        ∧ s.g.sched.appEntriesLocal (pool si.requestSocket).appIndex = 0
    · rw [if_pos hnew, hnew.1, hnew.2]
      rfl
    · rw [if_neg hnew]

theorem Announcing.step (h : Announcing numApps servers s) {e : Event}
    (hok : s.InApps numApps e) (hstep : s.step numApps servers e = .ok t) :
    Announcing numApps servers t := by
  cases e with
  | announce pool si =>
      obtain rfl := Except.ok.inj hstep
      exact h.announce hok
  | queue pool si pi =>
      obtain ⟨⟨g', b⟩, hqueue, hstep⟩ := Machine.bind_eq_ok.mp hstep
      obtain rfl := Machine.pure_eq_ok.mp hstep
      exact h.queued (vdsfqEnqueueQueue_entries hqueue)
  | dequeue r =>
      obtain rfl := Except.ok.inj hstep
      exact h.queued (vdsfqDequeue_entries r s.g)
  | timeout =>
      obtain rfl := Except.ok.inj hstep
      exact h.queued ⟨rfl, rfl, fun _ => rfl, rfl⟩
  | coordinate =>
      obtain rfl := Except.ok.inj hstep
      rcases h.trigger_cases with ⟨c, hwait, hcomplete⟩ | ⟨hcomplete, hready, hbuild⟩
      · rw [hwait]
        exact ⟨h.handed, hcomplete, h.ready, h.entry, h.counter, h.serves, h.told, h.messages⟩
      · rw [hbuild]
        exact h.build hcomplete hready
  | work revents =>
      obtain rfl := Except.ok.inj hstep
      have hplaced : (s.broadcast.proxyBroadcastWork servers revents).placed = s.broadcast.placed :=
        Broadcast.work_placed revents
      refine ⟨h.handed.work revents,
        fun hwaits => Broadcast.work_complete revents (h.waits hwaits), h.ready, h.entry,
        h.counter, h.serves, ?_, ?_⟩
      · simp only [hplaced]
        exact h.told
      · simp only [hplaced]
        exact h.messages

/-- The ways an entry can move in a step. -/
def Moves (before after : Int) : Prop :=
  after = before ∨ before = 0 ∧ after = 1 ∨ before = 1 ∧ after = 2

/-- The entries move from 0 to 1 and from 1 to 2 only. -/
theorem Announcing.moves (h : Announcing numApps servers s) {e : Event}
    (hstep : s.step numApps servers e = .ok t) (app : Nat) :
    Moves (s.g.sched.appEntriesLocal app) (t.g.sched.appEntriesLocal app) := by
  cases e with
  | announce pool si =>
      obtain rfl := Except.ok.inj hstep
      obtain ⟨-, hlocal, -⟩ := vdsfqAnnounce_entries (pool si.requestSocket).appIndex s.g.sched
      show Moves _ ((vdsfqAnnounce _ s.g.sched).appEntriesLocal app)
      rw [hlocal app]
      split
      · rename_i hnew
        rw [hnew.1]
        exact .inr (.inl ⟨hnew.2, rfl⟩)
      · exact .inl rfl
  | queue pool si pi =>
      obtain ⟨⟨g', b⟩, hqueue, hstep⟩ := Machine.bind_eq_ok.mp hstep
      obtain rfl := Machine.pure_eq_ok.mp hstep
      exact .inl (congrFun (vdsfqEnqueueQueue_entries hqueue).entriesLocal app)
  | dequeue r =>
      obtain rfl := Except.ok.inj hstep
      exact .inl (congrFun (vdsfqDequeue_entries r s.g).entriesLocal app)
  | timeout | work _ =>
      obtain rfl := Except.ok.inj hstep
      exact .inl rfl
  | coordinate =>
      obtain rfl := Except.ok.inj hstep
      rcases h.trigger_cases with ⟨c, hwait, -⟩ | ⟨-, -, hbuild⟩
      · rw [hwait]
        exact .inl rfl
      · rw [hbuild]
        show Moves _ (if app < numApps ∧ s.g.sched.appEntriesLocal app = 1 then 2
          else s.g.sched.appEntriesLocal app)
        split
        · rename_i hone
          exact .inr (.inr ⟨hone.2, rfl⟩)
        · exact .inl rfl

/-- A proxy's own threads leave its count of peers alone and send behind what was
sent. -/
theorem Announcing.frame (h : Announcing numApps servers s) {e : Event}
    (hstep : s.step numApps servers e = .ok t) :
    t.g.sched.appEntriesRemote = s.g.sched.appEntriesRemote
      ∧ ∀ i, ∃ extra, t.broadcast.sent i = s.broadcast.sent i ++ extra := by
  have hkept : ∀ i, ∃ extra, s.broadcast.sent i = s.broadcast.sent i ++ extra := fun i =>
    ⟨[], (List.append_nil _).symm⟩
  cases e with
  | announce pool si =>
      obtain rfl := Except.ok.inj hstep
      exact ⟨(vdsfqAnnounce_entries (pool si.requestSocket).appIndex s.g.sched).1, hkept⟩
  | queue pool si pi =>
      obtain ⟨⟨g', b⟩, hqueue, hstep⟩ := Machine.bind_eq_ok.mp hstep
      obtain rfl := Machine.pure_eq_ok.mp hstep
      exact ⟨(vdsfqEnqueueQueue_entries hqueue).entriesRemote, hkept⟩
  | dequeue r =>
      obtain rfl := Except.ok.inj hstep
      exact ⟨(vdsfqDequeue_entries r s.g).entriesRemote, hkept⟩
  | timeout =>
      obtain rfl := Except.ok.inj hstep
      exact ⟨rfl, hkept⟩
  | coordinate =>
      obtain rfl := Except.ok.inj hstep
      rcases h.trigger_cases with ⟨c, hwait, -⟩ | ⟨-, -, hbuild⟩
      · rw [hwait]
        exact ⟨rfl, hkept⟩
      · rw [hbuild]
        exact ⟨rfl, hkept⟩
  | work revents =>
      obtain rfl := Except.ok.inj hstep
      exact ⟨rfl, Broadcast.work_sent revents⟩

/-- An application with entry 2 has been announced in every peer's broadcasts
once, any other not at all. -/
theorem Announcing.announcements (h : Announcing numApps servers s) {app i : Nat}
    (happ : app < numApps) (hi : i < servers) :
    announcements app (s.broadcast.placed i).flatten
      = if s.g.sched.appEntriesLocal app = 2 then 1 else 0 := by
  have heq := announcements_eq (h.messages i hi) app
  rw [h.told app happ i hi] at heq
  split at heq
  · rename_i htwo
    rw [if_pos htwo]
    exact Int.ofNat.inj heq
  · rename_i htwo
    rw [if_neg htwo]
    exact Int.ofNat.inj heq

end VdsfqProxy

end PvfsProxy
