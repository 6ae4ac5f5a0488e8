import PvfsProxy.DsfqLines
import PvfsProxy.VdsfqBroadcast

/-!
# vDSFQ as a line

vDSFQ in the framework, with its receive thread, timeout thread and coordinator running in
between. The queue is sorted only when a request has to wait; a request that goes at once
is dequeued without a sort, so it has to be alone in the queue. That it is, and that the
list is sorted between the calls, is `VdsfqFormed`, which every interleaving keeps.
-/

namespace PvfsProxy

open SlotLine Bypass StableSort

/-- What the other threads of `scheduler_vDSFQ.c` do to the globals. -/
inductive VdsfqThread where
  | receive (m : ProxyMessage)
  | timeout
  | coordinate (numApps : Nat)
  | addTtlTp (thisAmount : Int) (appIndex : Nat)

def VdsfqThread.run : VdsfqThread → Globals Vdsfq → Globals Vdsfq
  | .receive m, g => { g with sched := vdsfqReceive m g.sched }
  | .timeout, g => { g with sched := { g.sched with timeout := true } }
  | .coordinate numApps, g => { g with sched := vdsfqClearCounters numApps g.sched }
  | .addTtlTp thisAmount appIndex, g => vdsfqAddTtlTp thisAmount appIndex g

/-- The number of proxies another one tells of is not negative. -/
def VdsfqThread.Counts : VdsfqThread → Prop
  | .receive m => 0 ≤ m.periodCount
  | .timeout => True
  | .coordinate _ => True
  | .addTtlTp .. => True

instance : DecidablePred VdsfqThread.Counts := fun t =>
  match t with
  | .receive m => inferInstanceAs (Decidable (0 ≤ m.periodCount))
  | .timeout => inferInstanceAs (Decidable True)
  | .coordinate _ => inferInstanceAs (Decidable True)
  | .addTtlTp .. => inferInstanceAs (Decidable True)

def Vdsfq.queued (s : Vdsfq) : List VdsfqItem := s.llistQueue.getD []

/-- A scheduler whose method table is `m`, with vDSFQ's queue and threads. -/
def vdsfqLines (m : SchedulerMethod Vdsfq VdsfqQueueItem) :
    LineScheduler Vdsfq VdsfqQueueItem VdsfqThread where
  method := m
  queued := Vdsfq.queued
  thread := VdsfqThread.run

def vdsfqOrder : Keys VdsfqItem Nat where
  flow it := it.embedded.appIndex
  tag it := it.embedded.startTag
  born it := it.itemId

/-! ## What the functions can do -/

abbrev vdsfqLe : VdsfqItem → VdsfqItem → Bool := compLe listVdsfqSortComp

theorem vdsfqLe_iff {a b : VdsfqItem} :
    vdsfqLe a b = true ↔ a.embedded.startTag ≤ b.embedded.startTag := by
  refine decide_eq_true_iff.trans ?_
  show a.embedded.startTag - b.embedded.startTag ≤ 0 ↔ _
  omega

theorem vdsfqLe_preorder : TotalPreorder vdsfqLe :=
  totalPreorder_sub fun it : VdsfqItem => it.embedded.startTag

/-- The fields an announcement leaves alone. -/
structure Vdsfq.SameQueue (s s' : Vdsfq) : Prop where
  virtualTime : s'.virtualTime = s.virtualTime
  clock : s'.lastFinishTags = s.lastFinishTags
  queue : s'.llistQueue = s.llistQueue
  itemId : s'.itemId = s.itemId
  depth : s'.depth = s.depth
  current : s'.currentDepth = s.currentDepth
  remote : s'.appEntriesRemote = s.appEntriesRemote

theorem vdsfqAnnounce_queue (app : Nat) (s : Vdsfq) : s.SameQueue (vdsfqAnnounce app s) := by
  unfold vdsfqAnnounce Vdsfq.modifyStats
  dsimp only
  split
  · split <;> exact ⟨rfl, rfl, rfl, rfl, rfl, rfl, rfl⟩
  · split <;> exact ⟨rfl, rfl, rfl, rfl, rfl, rfl, rfl⟩

/-- The list after an insertion: sorted, unless the item goes at once. -/
def vdsfqInserted (q : List VdsfqItem) (it : VdsfqItem) (b : Bool) (q' : List VdsfqItem) : Prop :=
  if b then q' = q ++ [it] else StableSorted vdsfqLe (q ++ [it]) q'

theorem vdsfqInsert_ok {it : VdsfqItem} {s s' : Vdsfq} {b : Bool}
    (h : vdsfqInsert it s = .ok (s', b)) :
    ∃ q q', s.llistQueue = some q ∧ b = decide (s.currentDepth < s.depth)
      ∧ vdsfqInserted q it b q'
      ∧ s' = { s with
          llistQueue := some q'
          currentDepth := if b then s.currentDepth + 1 else s.currentDepth
          queueSize := s.queueSize + 1 } := by
  unfold vdsfqInsert at h
  cases hq : s.llistQueue with
  | none => simp [hq, pintLlistAddToTail] at h
  | some q =>
      simp only [hq, pintLlistAddToTail, ne_eq, not_true_eq_false, if_false] at h
      split at h
      · rename_i hfree
        obtain ⟨rfl, rfl⟩ := Prod.mk.inj (Except.ok.inj h)
        exact ⟨q, q ++ [it], rfl, (decide_eq_true hfree).symm, rfl, rfl⟩
      · rename_i hfull
        obtain ⟨rfl, rfl⟩ := Prod.mk.inj (Except.ok.inj h)
        obtain ⟨q', hq', hst⟩ := pintLlistSort_spec vdsfqLe_preorder
          (List.append_ne_nil_of_right_ne_nil q (List.cons_ne_nil it []))
        exact ⟨q, q', rfl, (decide_eq_false hfull).symm, hst, by rw [hq']; rfl⟩

/-- An enqueue that returns put one item into the queue, tagged from its application's
clock and the proxies that serve the application, and took a slot exactly when one was
free. -/
structure VdsfqEnqueued (pool : Nat → Endpoint) (si : SocketInfo) (pi : PvfsInfo)
    (s s' : Vdsfq) (b : Bool) (it : VdsfqItem) : Prop where
  socketData : it.socketData = si
  app : it.embedded.appIndex = (pool si.requestSocket).appIndex
  id : it.itemId = s.itemId
  startTag : it.embedded.startTag = max s.virtualTime
    (s.lastFinishTags (pool si.requestSocket).appIndex
      + (s.appEntriesRemote (pool si.requestSocket).appIndex * pi.currentDataSize).tdiv
        ((pool si.requestSocket).weight * vreducer))
  finishTag : it.embedded.finishTag = it.embedded.startTag
    + (pi.currentDataSize.tdiv (pool si.requestSocket).weight).tdiv vreducer
  queue : ∃ q q', s.llistQueue = some q ∧ s'.llistQueue = some q' ∧ vdsfqInserted q it b q'
  dispatched : b = decide (s.currentDepth < s.depth)
  current : s'.currentDepth = if b then s.currentDepth + 1 else s.currentDepth
  depth : s'.depth = s.depth
  virtualTime : s'.virtualTime = s.virtualTime
  clock : s'.lastFinishTags
    = Function.update s.lastFinishTags (pool si.requestSocket).appIndex it.embedded.finishTag
  remote : s'.appEntriesRemote = s.appEntriesRemote
  itemId : s'.itemId = s.itemId + 1

theorem vdsfqEnqueue_ok {pool : Nat → Endpoint} {si : SocketInfo} {pi : PvfsInfo}
    {g g' : Globals Vdsfq} {b : Bool} (h : vdsfqEnqueue pool si pi g = .ok (g', b)) :
    ∃ it, VdsfqEnqueued pool si pi g.sched g'.sched b it := by
  obtain ⟨⟨startTag, finishTag⟩, htags, h⟩ := Machine.bind_eq_ok.mp h
  obtain ⟨⟨s₂, b'⟩, hins, h⟩ := Machine.bind_eq_ok.mp h
  obtain ⟨rfl, rfl⟩ := Prod.mk.inj (Machine.pure_eq_ok.mp h)
  have hsame := vdsfqAnnounce_queue (pool si.requestSocket).appIndex g.sched
  rw [Globals.modifyApp_sched] at htags hins
  unfold vdsfqTags at htags
  split at htags
  · cases htags
  obtain ⟨hstart, hfinish⟩ := Prod.mk.inj (Except.ok.inj htags)
  obtain ⟨q, q', hq, hb, hq', hs⟩ := vdsfqInsert_ok hins
  generalize hit : vdsfqNewItem .. = it at hq' hs
  refine ⟨it, ?_⟩
  exact
    { socketData := by rw [← hit]; rfl
      app := by rw [← hit]; rfl
      id := by
        rw [← hit]
        exact hsame.itemId
      startTag := by
        rw [← hit]
        show startTag = _
        rw [← hstart, hsame.virtualTime, hsame.clock, hsame.remote]
      finishTag := by
        rw [← hit]
        show finishTag = startTag + _
        rw [← hfinish, hstart]
      queue := ⟨q, q', hsame.queue ▸ hq, by rw [hs], hq'⟩
      dispatched := by
        rw [hb]
        show decide ((vdsfqAnnounce _ _).currentDepth < (vdsfqAnnounce _ _).depth) = _
        rw [hsame.current, hsame.depth]
      current := by
        rw [hs]
        show (if b' then (vdsfqAnnounce _ _).currentDepth + 1
          else (vdsfqAnnounce _ _).currentDepth) = _
        rw [hsame.current]
      depth := by
        rw [hs]
        exact hsame.depth
      virtualTime := by
        rw [hs]
        exact hsame.virtualTime
      clock := by
        rw [hs, ← hit, ← hsame.clock]
        rfl
      remote := by
        rw [hs]
        exact hsame.remote
      itemId := by
        rw [hs]
        show (vdsfqAnnounce _ _).itemId + 1 = _
        rw [hsame.itemId] }

/-- A dequeue takes the head of the queue, or gives a slot back when it is empty. -/
theorem vdsfqDequeue_cases (r : DequeueReason VdsfqQueueItem) (g : Globals Vdsfq) :
    (g.sched.queued = [] ∧ (vdsfqDequeue r g).2 = none
      ∧ (vdsfqDequeue r g).1.sched
        = { g.sched with currentDepth := g.sched.currentDepth - 1 })
    ∨ ∃ it rest, g.sched.queued = it :: rest ∧ (vdsfqDequeue r g).2 = some it
      ∧ (vdsfqDequeue r g).1.sched =
          { g.sched with
            virtualTime := it.embedded.startTag
            stats := Function.update g.sched.stats it.embedded.appIndex
              { g.sched.stats it.embedded.appIndex with
                vdsfqAppDispatch := (g.sched.stats it.embedded.appIndex).vdsfqAppDispatch + 1 }
            queueSize := g.sched.queueSize - 1
            llistQueue := some rest } := by
  have hrem : ∀ (it : VdsfqItem) (rest : List VdsfqItem),
      pintLlistRem (some (it :: rest)) it.itemId listReqComp = (some it, some rest) := by
    intro it rest
    simp [pintLlistRem, listReqComp]
  cases hq : g.sched.llistQueue with
  | none => left; simp [vdsfqDequeue, Vdsfq.queued, hq, pintLlistHead]
  | some q =>
      cases q with
      | nil => left; simp [vdsfqDequeue, Vdsfq.queued, hq, pintLlistHead]
      | cons it rest =>
          right
          refine ⟨it, rest, ?_⟩
          simp [vdsfqDequeue, Vdsfq.queued, hq, pintLlistHead, hrem, Vdsfq.modifyStats]

/-! ## The invariant -/

/-- vDSFQ's queue between the calls: always sorted. -/
structure VdsfqFormed (depth : Int) (s : Vdsfq) : Prop where
  list : s.llistQueue = some s.queued
  queue : LazyQueue vdsfqOrder true s.queued
  depth_eq : s.depth = depth
  remote : ∀ app, 0 ≤ s.appEntriesRemote app

def vdsfqStartTags (depth : Int) : StartTags Vdsfq VdsfqQueueItem where
  order := vdsfqOrder
  books s :=
    { taken := s.currentDepth, vtime := s.virtualTime, clock := s.lastFinishTags,
      number := s.itemId }
  Formed := VdsfqFormed depth

namespace VdsfqFormed

variable {depth threshold : Int} {g g' : Globals Vdsfq}

theorem init : VdsfqFormed depth (vdsfqInit depth threshold) where
  list := rfl
  queue := .nil
  depth_eq := rfl
  remote _ := Int.le_refl 0

theorem thread (h : VdsfqFormed depth g.sched) {t : VdsfqThread} (ht : t.Counts) :
    (t.run g).sched.queued = g.sched.queued
      ∧ (vdsfqStartTags depth).books (t.run g).sched = (vdsfqStartTags depth).books g.sched
      ∧ VdsfqFormed depth (t.run g).sched := by
  cases t with
  | receive m =>
      refine ⟨rfl, rfl, { h with remote := fun i => ?_ }⟩
      show 0 ≤ Function.update g.sched.appEntriesRemote m.appIndex _ i
      by_cases hi : i = m.appIndex
      · rw [hi, Function.update_self]
        exact Int.add_nonneg (h.remote m.appIndex) ht
      · rw [Function.update_of_ne hi]
        exact h.remote i
  | timeout => exact ⟨rfl, rfl, { h with }⟩
  | coordinate numApps => exact ⟨rfl, rfl, { h with }⟩
  | addTtlTp amount app => exact ⟨rfl, rfl, { h with }⟩

variable {a : Arrival VdsfqQueueItem} {it : VdsfqItem} {b : Bool}

/-- The tag of a request that comes is not below the last of its application. -/
theorem enters (h : VdsfqFormed depth g.sched) (ha : a.Weighted)
    (hit : VdsfqEnqueued a.pool a.si a.pi g.sched g'.sched b it) :
    ((vdsfqStartTags depth).books g.sched).Enters vdsfqOrder it
      ((vdsfqStartTags depth).books g'.sched) := by
  have hunit : 0 < (a.pool a.si.requestSocket).weight * vreducer :=
    Int.mul_pos ha.1 (by decide)
  have hdelay : 0 ≤ (g.sched.appEntriesRemote (a.pool a.si.requestSocket).appIndex
      * a.pi.currentDataSize).tdiv ((a.pool a.si.requestSocket).weight * vreducer) :=
    Int.tdiv_nonneg (Int.mul_nonneg (h.remote _) ha.2) hunit.le
  have hadvance : 0 ≤ (a.pi.currentDataSize.tdiv (a.pool a.si.requestSocket).weight).tdiv
      vreducer := Int.tdiv_nonneg (Int.tdiv_nonneg ha.2 ha.1.le) (by decide)
  have hstart := hit.startTag
  have hclock := hit.clock
  rw [← hit.app] at hclock
  exact
    { born := hit.id
      number := hit.itemId
      vtime := hit.virtualTime
      late := by
        show g.sched.virtualTime ≤ it.embedded.startTag
        omega
      flow := by
        show g.sched.lastFinishTags it.embedded.appIndex ≤ it.embedded.startTag
        rw [hit.app]
        omega
      advance := by
        show it.embedded.startTag ≤ g'.sched.lastFinishTags it.embedded.appIndex
        rw [hclock, Function.update_self, hit.finishTag]
        omega
      others := fun i hi => by
        show g'.sched.lastFinishTags i = g.sched.lastFinishTags i
        rw [hclock]
        exact Function.update_of_ne hi .. }

/-- An enqueue inserts an item, and sorts the queue unless the item goes at once. -/
theorem enqueued (h : VdsfqFormed depth g.sched)
    (hit : VdsfqEnqueued a.pool a.si a.pi g.sched g'.sched b it) :
    g'.sched.queued.Perm (it :: g.sched.queued)
      ∧ ((∀ c ∈ g.sched.queued, vdsfqOrder.born c < vdsfqOrder.born it) →
        (b = true → g.sched.queued = []) → VdsfqFormed depth g'.sched) := by
  obtain ⟨q, q', hq, hq', hinserted⟩ := hit.queue
  obtain rfl : g.sched.queued = q := Option.some.inj (h.list.symm.trans hq)
  obtain rfl : g'.sched.queued = q' := by
    unfold Vdsfq.queued
    rw [hq']
    rfl
  have hsingle := List.perm_append_singleton it g.sched.queued
  have hformed : LazyQueue vdsfqOrder true g'.sched.queued → VdsfqFormed depth g'.sched :=
    fun hqueue =>
      { list := hq'
        queue := hqueue
        depth_eq := hit.depth.trans h.depth_eq
        remote := hit.remote ▸ h.remote }
  cases b with
  | true =>
      have hone : g'.sched.queued = g.sched.queued ++ [it] := hinserted
      refine ⟨hone ▸ hsingle, fun _ hempty => hformed ?_⟩
      rw [hone, hempty rfl]
      exact ⟨List.pairwise_singleton .., fun _ => List.pairwise_singleton ..⟩
  | false =>
      have hsorted : StableSorted vdsfqLe (g.sched.queued ++ [it]) g'.sched.queued := hinserted
      refine ⟨hsorted.perm.trans hsingle, fun hyoung _ => hformed ?_⟩
      exact (h.queue.append hyoung).sort vdsfqLe_preorder (fun _ _ => vdsfqLe_iff) hsorted

/-- A dequeue takes the least item that waits. -/
theorem dequeued (h : VdsfqFormed depth g.sched) (m : SchedulerMethod Vdsfq VdsfqQueueItem)
    (r : DequeueReason VdsfqQueueItem) :
    (vdsfqStartTags depth).Dequeues (vdsfqLines m) g.sched
      { globals := (vdsfqDequeue r g).1, ret := (vdsfqDequeue r g).2 } := by
  obtain ⟨hnil, hret, hs⟩ | ⟨it, rest, hcons, hret, hs⟩ := vdsfqDequeue_cases r g
  · have hqueued : (vdsfqDequeue r g).1.sched.queued = [] := by
      rw [hs]
      exact hnil
    exact
      { unlocked := rfl
        queued := by
          show (((vdsfqDequeue r g).2).toList ++ (vdsfqDequeue r g).1.sched.queued).Perm _
          rw [hret, hqueued]
          exact .of_eq hnil.symm
        formed := by
          show VdsfqFormed depth (vdsfqDequeue r g).1.sched
          rw [hs]
          exact { h with }
        frees := fun _ => ⟨hnil, congrArg (vdsfqStartTags depth).books hs⟩
        takes := fun it hit => by
          rw [show (vdsfqDequeue r g).2 = some it from hit] at hret
          cases hret }
  · have hsorted := h.queue
    rw [hcons] at hsorted
    obtain ⟨hrest, hleast⟩ := hsorted.head
    have hqueued : (vdsfqDequeue r g).1.sched.queued = rest := by
      rw [hs]
      rfl
    exact
      { unlocked := rfl
        queued := by
          show (((vdsfqDequeue r g).2).toList ++ (vdsfqDequeue r g).1.sched.queued).Perm _
          rw [hret, hqueued]
          exact .of_eq hcons.symm
        formed := by
          show VdsfqFormed depth (vdsfqDequeue r g).1.sched
          rw [hs]
          exact { list := rfl, queue := hrest, depth_eq := h.depth_eq, remote := h.remote }
        frees := fun hnone => by
          rw [show (vdsfqDequeue r g).2 = none from hnone] at hret
          cases hret
        takes := fun next hnext => by
          obtain rfl := Option.some.inj (hret.symm.trans hnext)
          refine ⟨fun c hc => hleast c ?_, congrArg (vdsfqStartTags depth).books hs⟩
          rw [← hqueued]
          exact hc }

end VdsfqFormed

section runs

variable {m : SchedulerMethod Vdsfq VdsfqQueueItem} {depth threshold : Int}
  {s : LineRun Vdsfq VdsfqQueueItem}

/-- The two tables have the hooks of vDSFQ. -/
theorem vdsfq_hooks (hm : m = schVdsfq ∨ m = schVdsfq2) :
    m.schEnqueue = schVdsfq.schEnqueue ∧ m.schDequeue = schVdsfq.schDequeue
      ∧ m.schSelfDispatch = false := by
  rcases hm with rfl | rfl
  · exact ⟨rfl, rfl, rfl⟩
  · exact ⟨rfl, rfl, rfl⟩

theorem vdsfq_serves (hm : m = schVdsfq ∨ m = schVdsfq2) (depth : Int) :
    (vdsfqStartTags depth).Serves (vdsfqLines m) depth Arrival.Weighted VdsfqThread.Counts where
  self := (vdsfq_hooks hm).2.2
  enqueue := by
    intro g a out hform ha hout
    rw [show (vdsfqLines m).method.schEnqueue = _ from (vdsfq_hooks hm).1] at hout
    obtain ⟨⟨g', b⟩, henq, hout⟩ := Machine.bind_eq_ok.mp hout
    obtain rfl := Machine.pure_eq_ok.mp hout
    obtain ⟨it, hit⟩ := vdsfqEnqueue_ok henq
    obtain ⟨hqueued, hformed⟩ := hform.enqueued hit
    refine ⟨it, hit.socketData, rfl, hqueued, hform.enters ha hit, ?_, hit.current, hformed⟩
    rw [← hform.depth_eq]
    exact hit.dispatched
  dequeue := by
    intro g r hform
    rw [show (vdsfqLines m).method.schDequeue = _ from (vdsfq_hooks hm).2.1]
    exact ⟨_, rfl, hform.dequeued m r⟩
  thread hform ht := hform.thread ht

theorem vdsfq_sound (hm : m = schVdsfq ∨ m = schVdsfq2) (hdepth : 0 ≤ depth)
    (h : (vdsfqLines m).Reachable Arrival.Weighted VdsfqThread.Counts (vdsfqInit depth threshold)
      s) :
    s.Sound (vdsfqLines m) (fun l => Slotted depth l ∧ InOrder vdsfqOrder l)
      (vdsfqStartTags depth).Lined :=
  (vdsfq_serves hm depth).sound hdepth rfl .init rfl h

/-- **Slots and locks of vDSFQ.** In every state the framework can reach around vDSFQ or
vDSFQ2, whatever the other proxies announce in between: the depth counter counts the
outstanding requests and is full while anything waits, exactly the waiting requests are
locked, a request let through at once is alone in the queue, every enqueued request was
returned once or waits, and no completion meets an assertion. -/
theorem vdsfq_slots_and_locks (hm : m = schVdsfq ∨ m = schVdsfq2) (hdepth : 0 ≤ depth)
    (h : (vdsfqLines m).Reachable Arrival.Weighted VdsfqThread.Counts (vdsfqInit depth threshold)
      s) :
    s.g.sched.currentDepth = s.outstanding.length ∧ s.g.sched.currentDepth ≤ depth
      ∧ (s.g.sched.queued ≠ [] → s.g.sched.currentDepth = depth)
      ∧ (∀ p, lockedAt s.mem p = true ↔ ∃ it ∈ s.g.sched.queued, it.socketData.rs = p)
      ∧ (∀ (a : Arrival VdsfqQueueItem) g₁, a.Weighted →
        vdsfqEnqueue a.pool a.si a.pi s.g = .ok (g₁, true) →
        ∃ it, it.socketData = a.si ∧ g₁.sched.queued = [it] ∧ ∀ r, (vdsfqDequeue r g₁).2 = some it)
      ∧ (s.returned ++ s.g.sched.queued).Perm s.enqueued ∧ s.enqueued.Nodup
      ∧ s.outstanding.Sublist s.returned
      ∧ ∀ item ∈ s.outstanding, ∀ size app,
        ∃ t, s.step (vdsfqLines m) (.complete item size app) = .ok t := by
  obtain ⟨hcurrent, hbound, hfull, hlocked, hgoes, hhistory, hnodup, hrunning, hreturns⟩ :=
    (vdsfq_serves hm depth).slots_and_locks (vdsfq_sound hm hdepth h)
  refine ⟨hcurrent, hbound, hfull, hlocked, fun a g₁ ha henq => ?_, hhistory, hnodup, hrunning,
    hreturns⟩
  have hout : (vdsfqLines m).method.schEnqueue a.pool a.si a.pi s.g
      = .ok { globals := g₁, ret := true } := by
    rw [show (vdsfqLines m).method.schEnqueue = _ from (vdsfq_hooks hm).1]
    exact Machine.bind_eq_ok.mpr ⟨_, henq, rfl⟩
  obtain ⟨it, hsi, hone, hdequeue⟩ := hgoes a _ ha hout rfl
  refine ⟨it, hsi, hone, fun r => ?_⟩
  obtain ⟨deq, hdeq, hret⟩ := hdequeue r
  rw [show (vdsfqLines m).method.schDequeue = _ from (vdsfq_hooks hm).2.1] at hdeq
  obtain rfl := Except.ok.inj hdeq
  exact hret

/-- **The order of service of vDSFQ.** In every such state the queue is sorted, the start tags
were served in order and none that waits is below them, and the requests of an application were
returned in the order they came. -/
theorem vdsfq_service_order (hm : m = schVdsfq ∨ m = schVdsfq2) (hdepth : 0 ≤ depth)
    (h : (vdsfqLines m).Reachable Arrival.Weighted VdsfqThread.Counts (vdsfqInit depth threshold)
      s) :
    (s.g.sched.queued.Pairwise (Precedes vdsfqOrder))
      ∧ (s.returned.Pairwise fun a b => a.embedded.startTag ≤ b.embedded.startTag)
      ∧ (∀ a ∈ s.returned, ∀ b ∈ s.g.sched.queued, a.embedded.startTag ≤ b.embedded.startTag)
      ∧ ∀ app, ofFlow vdsfqOrder app s.returned <+: ofFlow vdsfqOrder app s.enqueued := by
  have hs := vdsfq_sound hm hdepth h
  exact ⟨precedes_of_sorted hs.inv.formed.queue, (vdsfqStartTags depth).service_order hs⟩

end runs

/-- The item of a first request of application 0. -/
def vdsfqFirstItem : VdsfqItem :=
  vdsfqNewItem (lineArrival VdsfqQueueItem 1 0).pool (lineArrival VdsfqQueueItem 1 0).si
    (lineArrival VdsfqQueueItem 1 0).pi 0 4 0 0 0

/-- One slot, two requests of application 0, which another proxy serves as well, and one of
application 1; then the first completes, and application 1 is served. -/
theorem vdsfq_three_requests :
    ∃ s, (vdsfqLines schVdsfq2).Reachable Arrival.Weighted VdsfqThread.Counts (vdsfqInit 1 100) s
      ∧ s.returned.map (·.itemId) = [0, 2] ∧ s.outstanding.map (·.itemId) = [2]
      ∧ s.g.sched.queued.map (·.itemId) = [1] := by
  obtain ⟨s, hrun, hs⟩ := Machine.Run.exists_of_exec
    (LineRun.Allowed Arrival.Weighted VdsfqThread.Counts) (LineRun.step (vdsfqLines schVdsfq2))
    (.init { sched := vdsfqInit 1 100, appStats := fun _ => { appWeight := 1 },
             totalThroughput := 0 } fun _ => none)
    [.arrive (lineArrival _ 1 0), .thread (.receive { appIndex := 0, periodCount := 1 }),
      .arrive (lineArrival _ 1 1), .arrive (lineArrival _ 3 2), .complete vdsfqFirstItem 4096 0]
    (fun s => (s.returned.map (·.itemId), s.outstanding.map (·.itemId),
      s.g.sched.queued.map (·.itemId)))
    (a := ([0, 2], [2], [1])) (by decide +kernel)
  obtain ⟨hret, hrest⟩ := Prod.mk.inj hs
  obtain ⟨hout, hqueued⟩ := Prod.mk.inj hrest
  exact ⟨s, ⟨_, _, _, fun _ => rfl, hrun⟩, hret, hout, hqueued⟩

theorem vdsfq_slots_and_locks_example :
    ∃ s : LineRun Vdsfq VdsfqQueueItem, s.outstanding.map (·.itemId) = [2]
      ∧ s.g.sched.currentDepth = s.outstanding.length
      ∧ (s.returned ++ s.g.sched.queued).Perm s.enqueued := by
  obtain ⟨s, hs, -, hout, -⟩ := vdsfq_three_requests
  obtain ⟨hcurrent, -, -, -, -, hhistory, -⟩ :=
    vdsfq_slots_and_locks (.inr rfl) (by decide) hs
  exact ⟨s, hout, hcurrent, hhistory⟩

theorem vdsfq_service_order_example :
    ∃ s : LineRun Vdsfq VdsfqQueueItem, s.returned.map (·.itemId) = [0, 2]
      ∧ s.g.sched.queued.map (·.itemId) = [1]
      ∧ ∀ a ∈ s.returned, ∀ b ∈ s.g.sched.queued,
        a.embedded.startTag ≤ b.embedded.startTag := by
  obtain ⟨s, hs, hret, -, hqueued⟩ := vdsfq_three_requests
  exact ⟨s, hret, hqueued, (vdsfq_service_order (.inr rfl) (by decide) hs).2.2.1⟩

end PvfsProxy
