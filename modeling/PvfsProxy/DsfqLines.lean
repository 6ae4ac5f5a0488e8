import PvfsProxy.DsfqBroadcast
import PvfsProxy.StartTagLines

/-!
# DSFQ as a line

DSFQ in the framework, with its receive thread, its coordinator and the throughput counters
running in between: whatever the interleaving, its hooks are steps of a line that gives its slots
to the least start tag (`dsfq_serves`). What another proxy reports moves the tags of
requests to come, but not the order of those that wait.
-/

namespace PvfsProxy

open SlotLine Bypass StableSort

/-- What the other threads of `scheduler_DSFQ.c` do to the globals. -/
inductive DsfqThread where
  | receive (appIndex : Nat) (periodCount : Int)
  | coordinate (numApps : Nat)
  | addTtlTp (thisAmount : Int) (appIndex : Nat)

def DsfqThread.run : DsfqThread → Globals Dsfq → Globals Dsfq
  | .receive appIndex periodCount, g => dsfqReceive appIndex periodCount g
  | .coordinate numApps, g => { g with sched := dsfqClearCounters numApps g.sched }
  | .addTtlTp thisAmount appIndex, g => dsfqAddTtlTp thisAmount appIndex g

/-- The bytes another proxy served are not negative. -/
def DsfqThread.Counts : DsfqThread → Prop
  | .receive _ periodCount => 0 ≤ periodCount
  | .coordinate _ => True
  | .addTtlTp .. => True

instance : DecidablePred DsfqThread.Counts := fun t =>
  match t with
  | .receive _ periodCount => inferInstanceAs (Decidable (0 ≤ periodCount))
  | .coordinate _ => inferInstanceAs (Decidable True)
  | .addTtlTp .. => inferInstanceAs (Decidable True)

/-- The request is of an application of positive weight, and its length is not negative. -/
def Arrival.Weighted {ι : Type} (a : Arrival ι) : Prop :=
  0 < (a.pool a.index).weight ∧ 0 ≤ a.pi.currentDataSize

instance {ι : Type} : DecidablePred (Arrival.Weighted (ι := ι)) := fun a =>
  inferInstanceAs (Decidable (0 < (a.pool a.index).weight ∧ 0 ≤ a.pi.currentDataSize))

def dsfqLines : LineScheduler Dsfq DsfqQueueItem DsfqThread where
  method := schDsfq
  queued := Dsfq.queued
  thread := DsfqThread.run

/-- The requests of an application, by start tag and then in the order they came. -/
def dsfqOrder : Keys DsfqItem Nat where
  flow it := it.embedded.appIndex
  tag it := it.embedded.startTag
  born it := it.itemId

/-- DSFQ's queue between the calls: sorted, unless the flag says that an item came. -/
structure DsfqFormed (depth : Int) (s : Dsfq) : Prop where
  list : s.llistQueue = some s.queued
  flag : s.newItemAdded = true → s.queued ≠ []
  queue : LazyQueue dsfqOrder (!s.newItemAdded) s.queued
  depth_eq : s.depth = depth
  delay : ∀ app, 0 ≤ (s.stats app).dsfqDelayValues

def dsfqStartTags (depth : Int) : StartTags Dsfq DsfqQueueItem where
  order := dsfqOrder
  books s :=
    { taken := s.currentDepth, vtime := s.virtualTime, clock := s.lastFinishTags,
      number := s.itemId }
  Formed := DsfqFormed depth

theorem dsfqEnqueue_socketData {pool : Nat → Endpoint} {si : SocketInfo} {pi : PvfsInfo}
    {g g' : Globals Dsfq} {b : Bool} (h : dsfqEnqueue pool si pi g = .ok (g', b))
    {q : List DsfqItem} {it : DsfqItem} (hq : g'.sched.llistQueue = some (q ++ [it])) :
    it.socketData = si := by
  obtain ⟨⟨s₁, delay⟩, -, h⟩ := Machine.bind_eq_ok.mp h
  obtain ⟨⟨s₂, b'⟩, hins, h⟩ := Machine.bind_eq_ok.mp h
  obtain ⟨rfl, rfl⟩ := Prod.mk.inj (Machine.pure_eq_ok.mp h)
  obtain ⟨q', -, -, hs⟩ := dsfqInsert_ok hins
  have hlast := congrArg Dsfq.llistQueue hs
  obtain ⟨-, hit⟩ := List.append_inj' (Option.some.inj (hq.symm.trans hlast)) rfl
  rw [List.singleton_inj.mp hit]
  rfl

namespace DsfqFormed

variable {depth threshold : Int} {g g' : Globals Dsfq}

theorem init : DsfqFormed depth (dsfqInit depth threshold) where
  list := rfl
  flag h := by cases h
  queue := .nil
  depth_eq := rfl
  delay _ := Int.le_refl 0

theorem thread (h : DsfqFormed depth g.sched) {t : DsfqThread} (ht : t.Counts) :
    (t.run g).sched.queued = g.sched.queued
      ∧ (dsfqStartTags depth).books (t.run g).sched = (dsfqStartTags depth).books g.sched
      ∧ DsfqFormed depth (t.run g).sched := by
  cases t with
  | receive app periodCount =>
      refine ⟨rfl, rfl, { h with delay := fun i => ?_ }⟩
      show 0 ≤ (Function.update g.sched.stats app _ i).dsfqDelayValues
      by_cases hi : i = app
      · rw [hi, Function.update_self]
        exact Int.add_nonneg (h.delay app) ht
      · rw [Function.update_of_ne hi]
        exact h.delay i
  | coordinate numApps =>
      refine ⟨rfl, rfl, { h with delay := fun i => ?_ }⟩
      show 0 ≤ (if i < numApps then { g.sched.stats i with requestReceiveQueue := 0 }
        else g.sched.stats i).dsfqDelayValues
      split
      · exact h.delay i
      · exact h.delay i
  | addTtlTp amount app => exact ⟨rfl, rfl, { h with }⟩

variable {a : Arrival DsfqQueueItem} {it : DsfqItem} {b : Bool}

/-- The tag of a request that comes is not below the last of its application. -/
theorem enters (h : DsfqFormed depth g.sched) (ha : a.Weighted)
    (hit : DsfqEnqueued a.pool a.si a.pi g.sched g'.sched b it) :
    ((dsfqStartTags depth).books g.sched).Enters dsfqOrder it
      ((dsfqStartTags depth).books g'.sched) := by
  obtain ⟨hlate, hflow, hfinish⟩ := hit.tags h.delay ha.1 ha.2
  exact
    { born := hit.id
      number := hit.itemId
      vtime := hit.virtualTime
      late := hlate
      flow := hflow
      advance := by
        show it.embedded.startTag ≤ g'.sched.lastFinishTags it.embedded.appIndex
        rw [hit.clock_app, Function.update_self]
        exact hfinish
      others := fun i hi => by
        show g'.sched.lastFinishTags i = g.sched.lastFinishTags i
        rw [hit.clock_app]
        exact Function.update_of_ne hi .. }

theorem enqueued (h : DsfqFormed depth g.sched)
    (hit : DsfqEnqueued a.pool a.si a.pi g.sched g'.sched b it)
    (hyoung : ∀ c ∈ g.sched.queued, dsfqOrder.born c < dsfqOrder.born it) :
    DsfqFormed depth g'.sched where
  list := by
    obtain ⟨q, hq, hq'⟩ := hit.queue
    rw [hit.queued, hq']
    simp [Dsfq.queued, hq]
  flag _ := by
    rw [hit.queued]
    exact List.append_ne_nil_of_right_ne_nil _ (List.cons_ne_nil _ _)
  queue := by
    rw [hit.newItemAdded, hit.queued]
    exact h.queue.append hyoung
  depth_eq := hit.depth.trans h.depth_eq
  delay app := by
    rw [hit.delay]
    split
    · exact Int.le_refl 0
    · exact h.delay app

/-- A dequeue takes the least item that waits. -/
theorem dequeued (h : DsfqFormed depth g.sched) (r : DequeueReason DsfqQueueItem) :
    (dsfqStartTags depth).Dequeues dsfqLines g.sched
      { globals := (dsfqDequeue r g).1, ret := (dsfqDequeue r g).2 } := by
  obtain ⟨hnil, hret, hs⟩ | ⟨it, rest, hret, hq, hs⟩ := dsfqDequeue_cases r g
  · -- nothing is queued, so the flag is not set and the list is not sorted away
    have hflag : g.sched.newItemAdded = false := by
      by_contra hf
      exact h.flag (Bool.eq_true_of_not_eq_false hf) hnil
    rw [hflag] at hs
    have hqueued : (dsfqDequeue r g).1.sched.queued = [] := by
      rw [hs]
      exact hnil
    exact
      { unlocked := rfl
        queued := by
          show (((dsfqDequeue r g).2).toList ++ (dsfqDequeue r g).1.sched.queued).Perm _
          rw [hret, hqueued]
          exact .of_eq hnil.symm
        formed := by
          show DsfqFormed depth (dsfqDequeue r g).1.sched
          rw [hs]
          have hsorted := h.queue
          rw [hflag] at hsorted
          exact
            { list := h.list
              flag := fun hf => by cases hf
              queue := hsorted
              depth_eq := h.depth_eq
              delay := h.delay }
        frees := fun _ => ⟨hnil, congrArg (dsfqStartTags depth).books hs⟩
        takes := fun it hit => by
          rw [show (dsfqDequeue r g).2 = some it from hit] at hret
          cases hret }
  · obtain ⟨hperm, hrest, hleast⟩ := h.queue.taken dsfqLe_preorder (fun _ _ => dsfqLe_iff) hq
    have hqueued : (dsfqDequeue r g).1.sched.queued = rest := by
      rw [hs]
      rfl
    exact
      { unlocked := rfl
        queued := by
          show (((dsfqDequeue r g).2).toList ++ (dsfqDequeue r g).1.sched.queued).Perm _
          rw [hret, hqueued]
          exact hperm
        formed := by
          show DsfqFormed depth (dsfqDequeue r g).1.sched
          rw [hs]
          exact
            { list := rfl
              flag := fun hf => by cases hf
              queue := hrest
              depth_eq := h.depth_eq
              delay := fun app => by
                by_cases happ : app = it.embedded.appIndex
                · rw [happ]
                  simpa using h.delay it.embedded.appIndex
                · simpa [happ] using h.delay app }
        frees := fun hnone => by
          rw [show (dsfqDequeue r g).2 = none from hnone] at hret
          cases hret
        takes := fun next hnext => by
          obtain rfl := Option.some.inj (hret.symm.trans hnext)
          refine ⟨fun c hc => hleast c ?_, congrArg (dsfqStartTags depth).books hs⟩
          rw [← hqueued]
          exact hc }

end DsfqFormed

theorem dsfq_serves (depth : Int) :
    (dsfqStartTags depth).Serves dsfqLines depth Arrival.Weighted DsfqThread.Counts where
  self := rfl
  enqueue := by
    intro g a out hform ha hout
    obtain ⟨⟨g', b⟩, henq, hout⟩ := Machine.bind_eq_ok.mp hout
    obtain rfl := Machine.pure_eq_ok.mp hout
    obtain ⟨it, hit⟩ := dsfqEnqueue_ok henq
    obtain ⟨q, -, hq'⟩ := hit.queue
    have hperm : g'.sched.queued.Perm (it :: g.sched.queued) := by
      rw [hit.queued]
      exact List.perm_append_singleton ..
    refine ⟨it, dsfqEnqueue_socketData henq hq', rfl, hperm, hform.enters ha hit, ?_, hit.current,
      fun hyoung _ => hform.enqueued hit hyoung⟩
    rw [← hform.depth_eq]
    exact hit.dispatched
  dequeue r hform := ⟨_, rfl, hform.dequeued r⟩
  thread hform ht := hform.thread ht

theorem dsfq_sound {depth threshold : Int} (hdepth : 0 ≤ depth) {s : LineRun Dsfq DsfqQueueItem}
    (h : dsfqLines.Reachable Arrival.Weighted DsfqThread.Counts (dsfqInit depth threshold) s) :
    s.Sound dsfqLines (fun l => Slotted depth l ∧ InOrder dsfqOrder l)
      (dsfqStartTags depth).Lined :=
  (dsfq_serves depth).sound hdepth rfl .init rfl h

/-- **Slots and locks of DSFQ.** In every state the framework can reach around DSFQ, with
any reports of other proxies in between: the depth counter counts the outstanding requests
and is full while anything waits, exactly the waiting requests are locked, a request let
through at once gets its own item, every enqueued request was returned once or waits, and
no completion meets an assertion. -/
theorem dsfq_slots_and_locks {depth threshold : Int} (hdepth : 0 ≤ depth)
    {s : LineRun Dsfq DsfqQueueItem}
    (h : dsfqLines.Reachable Arrival.Weighted DsfqThread.Counts (dsfqInit depth threshold) s) :
    s.g.sched.currentDepth = s.outstanding.length ∧ s.g.sched.currentDepth ≤ depth
      ∧ (s.g.sched.queued ≠ [] → s.g.sched.currentDepth = depth)
      ∧ (∀ p, lockedAt s.mem p = true ↔ ∃ it ∈ s.g.sched.queued, it.socketData.rs = p)
      ∧ (∀ (a : Arrival DsfqQueueItem) g₁, a.Weighted →
        dsfqEnqueue a.pool a.si a.pi s.g = .ok (g₁, true) →
        ∃ it, it.socketData = a.si ∧ g₁.sched.queued = [it] ∧ ∀ r, (dsfqDequeue r g₁).2 = some it)
      ∧ (s.returned ++ s.g.sched.queued).Perm s.enqueued ∧ s.enqueued.Nodup
      ∧ s.outstanding.Sublist s.returned
      ∧ ∀ item ∈ s.outstanding, ∀ size app,
        ∃ t, s.step dsfqLines (.complete item size app) = .ok t := by
  obtain ⟨hcurrent, hbound, hfull, hlocked, hgoes, hhistory, hnodup, hrunning, hreturns⟩ :=
    (dsfq_serves depth).slots_and_locks (dsfq_sound hdepth h)
  refine ⟨hcurrent, hbound, hfull, hlocked, fun a g₁ ha henq => ?_, hhistory, hnodup, hrunning,
    hreturns⟩
  have hout : dsfqLines.method.schEnqueue a.pool a.si a.pi s.g
      = .ok { globals := g₁, ret := true } := Machine.bind_eq_ok.mpr ⟨_, henq, rfl⟩
  obtain ⟨it, hsi, hone, hdequeue⟩ := hgoes a _ ha hout rfl
  refine ⟨it, hsi, hone, fun r => ?_⟩
  obtain ⟨deq, hdeq, hret⟩ := hdequeue r
  obtain rfl := Except.ok.inj hdeq
  exact hret

/-- **The order of service of DSFQ.** In every such state the start tags were served in order and
none that waits is below them, the requests of an application were returned in the order
they came, and a dequeue returns the least start tag, the eldest of equals. -/
theorem dsfq_service_order {depth threshold : Int} (hdepth : 0 ≤ depth)
    {s : LineRun Dsfq DsfqQueueItem}
    (h : dsfqLines.Reachable Arrival.Weighted DsfqThread.Counts (dsfqInit depth threshold) s) :
    (s.returned.Pairwise fun a b => a.embedded.startTag ≤ b.embedded.startTag)
      ∧ (∀ a ∈ s.returned, ∀ b ∈ s.g.sched.queued, a.embedded.startTag ≤ b.embedded.startTag)
      ∧ (∀ app, ofFlow dsfqOrder app s.returned <+: ofFlow dsfqOrder app s.enqueued)
      ∧ ∀ r it, (dsfqDequeue r s.g).2 = some it →
        it ∈ s.g.sched.queued ∧ ∀ c ∈ s.g.sched.queued, c ≠ it → Precedes dsfqOrder it c := by
  have hs := dsfq_sound hdepth h
  obtain ⟨htags, hlate, horder⟩ := (dsfqStartTags depth).service_order hs
  refine ⟨htags, hlate, horder, fun r it hit => ?_⟩
  have hd := hs.inv.formed.dequeued r
  have hqueued := hd.queued
  rw [show (dsfqDequeue r s.g).2 = some it from hit] at hqueued
  refine ⟨hqueued.subset (List.mem_cons_self ..), fun c hc hne => ?_⟩
  rcases List.mem_cons.mp (hqueued.symm.subset hc) with rfl | hrest
  · exact absurd rfl hne
  · exact (hd.takes it hit).1 c hrest

/-- A request of 4 KB and weight 1; slots 1 and 2 belong to application 0, slots 3 and 4 to
application 1. -/
def lineArrival (ι : Type) (index : Nat) (rs : Addr) : Arrival ι where
  pool i := { socket := i + 5, appIndex := (i - 1) / 2, weight := 1 }
  index := index
  dataSocket := index
  rs := rs
  newRs := default
  pi := { op := .io, tag := 7, reqSize := 64, currentDataSize := 4096 }

/-- The item of the first such request. -/
def dsfqFirstItem : DsfqItem :=
  dsfqNewItem (lineArrival DsfqQueueItem 1 0).pool (lineArrival DsfqQueueItem 1 0).si
    (lineArrival DsfqQueueItem 1 0).pi 0 4 0 0 0

/-- One slot, two requests of application 0 and one of application 1, of which another proxy
has served 8 KB; then the first completes. -/
theorem dsfq_three_requests :
    ∃ s, dsfqLines.Reachable Arrival.Weighted DsfqThread.Counts (dsfqInit 1 100000) s
      ∧ s.returned.map (·.itemId) = [0, 1] ∧ s.outstanding.map (·.itemId) = [1]
      ∧ s.g.sched.queued.map (·.itemId) = [2] := by
  obtain ⟨s, hrun, hs⟩ := Machine.Run.exists_of_exec
    (LineRun.Allowed Arrival.Weighted DsfqThread.Counts) (LineRun.step dsfqLines)
    (.init { sched := dsfqInit 1 100000, appStats := fun _ => { appWeight := 1 },
             totalThroughput := 0 } fun _ => none)
    [.arrive (lineArrival _ 1 0), .thread (.receive 1 8192), .arrive (lineArrival _ 1 1),
      .arrive (lineArrival _ 3 2), .complete dsfqFirstItem 4096 0]
    (fun s => (s.returned.map (·.itemId), s.outstanding.map (·.itemId),
      s.g.sched.queued.map (·.itemId)))
    (a := ([0, 1], [1], [2])) (by decide +kernel)
  obtain ⟨hret, hrest⟩ := Prod.mk.inj hs
  obtain ⟨hout, hqueued⟩ := Prod.mk.inj hrest
  exact ⟨s, ⟨_, _, _, fun _ => rfl, hrun⟩, hret, hout, hqueued⟩

theorem dsfq_slots_and_locks_example :
    ∃ s : LineRun Dsfq DsfqQueueItem, s.outstanding.map (·.itemId) = [1]
      ∧ s.g.sched.currentDepth = s.outstanding.length
      ∧ (s.returned ++ s.g.sched.queued).Perm s.enqueued := by
  obtain ⟨s, hs, -, hout, -⟩ := dsfq_three_requests
  obtain ⟨hcurrent, -, -, -, -, hhistory, -⟩ := dsfq_slots_and_locks (by decide) hs
  exact ⟨s, hout, hcurrent, hhistory⟩

theorem dsfq_service_order_example :
    ∃ s : LineRun Dsfq DsfqQueueItem, s.returned.map (·.itemId) = [0, 1]
      ∧ s.g.sched.queued.map (·.itemId) = [2]
      ∧ ∀ a ∈ s.returned, ∀ b ∈ s.g.sched.queued,
        a.embedded.startTag ≤ b.embedded.startTag := by
  obtain ⟨s, hs, hret, -, hqueued⟩ := dsfq_three_requests
  exact ⟨s, hret, hqueued, (dsfq_service_order (by decide) hs).2.1⟩

end PvfsProxy
