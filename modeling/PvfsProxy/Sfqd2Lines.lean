import PvfsProxy.DsfqLines
import PvfsProxy.Sfqd2

/-!
# SFQD2 as a line

A request that completes with a size of the other class hands its slot to the wrong queue,
and the counters of the two classes no longer tell what is outstanding. Whatever sizes the
completions report, the two counters together do, and neither goes above its depth. A
class has no free slot while a request of it waits, so the two hooks agree on who goes.
-/

namespace PvfsProxy

open SlotLine

/-- `sfqd2_add_ttl_tp` is all that happens next to the queue. -/
def sfqd2Lines (myShare : Int → Int → Int → Int → Int → Int) :
    LineScheduler Sfqd2 Sfqd2QueueItem (Int × Nat) where
  method := schSfqd2 myShare
  queued s := s.queued .large ++ s.queued .small
  thread t g := sfqd2AddTtlTp t.1 t.2 g

/-- Any request may go, wait or be next. -/
def anyOrder (α : Type) : Policy α where
  go _ _ := True
  wait _ _ := True
  next _ _ := True
  idle _ := True

structure Sfqd2Lined (depthLarge : Int) (g : Globals Sfqd2) (l : Line Sfqd2Item) : Prop where
  large : (g.sched.queue .large).depth = depthLarge
  small : (g.sched.queue .small).depth = sfqd2DepthSmall
  bound : ∀ size, (g.sched.queue size).currentDepth ≤ (g.sched.queue size).depth
  full : ∀ size, g.sched.queued size ≠ [] →
    (g.sched.queue size).currentDepth = (g.sched.queue size).depth
  current : (g.sched.queue .large).currentDepth + (g.sched.queue .small).currentDepth
    = l.running.length
  numbered : Numbered (fun it : Sfqd2Item => it.itemId) g.sched.itemId l.accepted

/-- One class's queue gains or loses the items `l`. -/
theorem Sfqd2.queued_perm {s s' : Sfqd2} {size : Sfqd2Size} {l : List Sfqd2Item}
    (h : (l ++ s'.queued size).Perm (s.queued size))
    (hother : ∀ size', size' ≠ size → s'.queue size' = s.queue size') :
    (l ++ (s'.queued .large ++ s'.queued .small)).Perm
      (s.queued .large ++ s.queued .small) := by
  cases size with
  | large =>
      have hsmall : s'.queued .small = s.queued .small := by
        unfold Sfqd2.queued
        rw [hother .small (by decide)]
      rw [hsmall, ← List.append_assoc]
      exact h.append_right _
  | small =>
      have hlarge : s'.queued .large = s.queued .large := by
        unfold Sfqd2.queued
        rw [hother .large (by decide)]
      rw [hlarge]
      have hswap : ∀ a b c : List Sfqd2Item, (a ++ (b ++ c)).Perm (b ++ (a ++ c)) := by
        intro a b c
        rw [← List.append_assoc, ← List.append_assoc]
        exact List.perm_append_comm.append_right _
      exact (hswap ..).trans (h.append_left _)

namespace Sfqd2Lined

variable {depthLarge : Int} {g g' : Globals Sfqd2} {l : Line Sfqd2Item}

theorem init (appStats : Nat → AppStatistics) (hd : 0 ≤ depthLarge) :
    Sfqd2Lined depthLarge { sched := sfqd2Init depthLarge, appStats, totalThroughput := 0 }
      Line.empty where
  large := rfl
  small := rfl
  bound size := by
    cases size with
    | large => exact hd
    | small => exact (by decide : (0 : Int) ≤ sfqd2DepthSmall)
  full size hne := absurd heapInit_values hne
  current := rfl
  numbered := .nil

theorem changed {size : Sfqd2Size} {l' : Line Sfqd2Item} (h : Sfqd2Lined depthLarge g l)
    (hother : ∀ size', size' ≠ size → g'.sched.queue size' = g.sched.queue size')
    (hdepth : (g'.sched.queue size).depth = (g.sched.queue size).depth)
    (hbound : (g'.sched.queue size).currentDepth ≤ (g.sched.queue size).depth)
    (hfull : g'.sched.queued size ≠ [] →
      (g'.sched.queue size).currentDepth = (g.sched.queue size).depth)
    (hcurrent : (g'.sched.queue size).currentDepth - (g.sched.queue size).currentDepth
      = (l'.running.length : Int) - l.running.length)
    (hnumbered : Numbered (fun it : Sfqd2Item => it.itemId) g'.sched.itemId l'.accepted) :
    Sfqd2Lined depthLarge g' l' := by
  have hdepths : ∀ size', (g'.sched.queue size').depth = (g.sched.queue size').depth := by
    intro size'
    by_cases heq : size' = size
    · rw [heq]
      exact hdepth
    · rw [hother size' heq]
  have hsum := h.current
  exact
    { large := (hdepths .large).trans h.large
      small := (hdepths .small).trans h.small
      bound := by
        intro size'
        rw [hdepths]
        by_cases heq : size' = size
        · rw [heq]
          exact hbound
        · rw [hother size' heq]
          exact h.bound size'
      full := by
        intro size'
        rw [hdepths]
        by_cases heq : size' = size
        · rw [heq]
          exact hfull
        · unfold Sfqd2.queued
          rw [hother size' heq]
          exact h.full size'
      current := by
        cases size with
        | large =>
            rw [hother .small (by decide)]
            omega
        | small =>
            rw [hother .large (by decide)]
            omega
      numbered := hnumbered }

/-- A class with a slot free has nothing waiting. -/
theorem queued_nil (h : Sfqd2Lined depthLarge g l) {size : Sfqd2Size}
    (hfree : (g.sched.queue size).currentDepth < (g.sched.queue size).depth) :
    g.sched.queued size = [] := by
  by_contra hne
  have hfull := h.full size hne
  omega

theorem numbered_snoc (h : Sfqd2Lined depthLarge g l) {a : Arrival Sfqd2QueueItem} {b : Bool}
    {it : Sfqd2Item} (hit : Sfqd2Enqueued a.si a.pi g.sched g'.sched b it) :
    Numbered (fun it : Sfqd2Item => it.itemId) g'.sched.itemId (l.accepted ++ [it]) := by
  rw [hit.itemId]
  exact h.numbered.snoc hit.id

theorem waits (h : Sfqd2Lined depthLarge g l) {a : Arrival Sfqd2QueueItem} {it : Sfqd2Item}
    (hit : Sfqd2Enqueued a.si a.pi g.sched g'.sched false it) (waiting : List Sfqd2Item) :
    Sfqd2Lined depthLarge g' (l.waits it waiting) := by
  have hcurrent := hit.current
  rw [if_neg (by decide)] at hcurrent
  have hbound := h.bound (sfqd2Size a.pi.currentDataSize)
  have hno := hit.dispatched
  rw [eq_comm, decide_eq_false_iff_not] at hno
  refine h.changed hit.other hit.depth ?_ (fun _ => ?_) ?_ (h.numbered_snoc hit)
  · rw [hcurrent]
    exact hbound
  · rw [hcurrent]
    omega
  · rw [hcurrent]
    show _ = (l.running.length : Int) - l.running.length
    omega

/-- The request finds nothing of its class waiting, and the dequeue for its size returns it. -/
theorem goes (h : Sfqd2Lined depthLarge g l) {a : Arrival Sfqd2QueueItem} {it : Sfqd2Item}
    (hit : Sfqd2Enqueued a.si a.pi g.sched g'.sched true it) {r : DequeueReason Sfqd2QueueItem}
    (hr : r.completeSize = a.pi.currentDataSize) :
    ∃ g₂, sfqd2Dequeue r g' = .ok (g₂, some it)
      ∧ (g₂.sched.queued .large ++ g₂.sched.queued .small).Perm
        (g.sched.queued .large ++ g.sched.queued .small)
      ∧ ∀ waiting, Sfqd2Lined depthLarge g₂ (l.goes it waiting) := by
  have hfree := hit.dispatched
  rw [eq_comm, decide_eq_true_iff] at hfree
  have hnil := h.queued_nil hfree
  have hone : g'.sched.queued (sfqd2Size a.pi.currentDataSize) = [it] := by
    have hqueued := hit.queued
    rw [hnil] at hqueued
    exact List.perm_singleton.mp hqueued
  obtain ⟨g₂, next, hdeq, hd⟩ := sfqd2Dequeue_exists r g'
  rw [hr] at hd
  have hqueued := hd.queued
  rw [hone] at hqueued
  cases next with
  | none =>
      have hempty := hd.empty rfl
      rw [hone] at hempty
      cases hempty
  | some it' =>
      obtain ⟨rfl, hnone⟩ := List.cons.inj (List.perm_singleton.mp hqueued)
      have hrest : g₂.sched.queued (sfqd2Size a.pi.currentDataSize) = [] := hnone
      have hother : ∀ size', size' ≠ sfqd2Size a.pi.currentDataSize →
          g₂.sched.queue size' = g.sched.queue size' := fun size' hne =>
        (hd.other size' hne).trans (hit.other size' hne)
      have hcurrent := hd.current.trans hit.current
      rw [if_pos rfl] at hcurrent
      refine ⟨g₂, hdeq, ?_, fun waiting => ?_⟩
      · refine Sfqd2.queued_perm (l := []) ?_ hother
        rw [List.nil_append, hrest, hnil]
      · refine h.changed hother (hd.depth.trans hit.depth) ?_ (fun hne => absurd hrest hne) ?_ ?_
        · rw [hcurrent]
          exact hfree
        · rw [hcurrent, Line.goes_taken]
          omega
        · rw [hd.itemId]
          exact h.numbered_snoc hit

/-- A completion of any size hands its slot on, or gives it back. -/
theorem finishes (h : Sfqd2Lined depthLarge g l) {done : Sfqd2Item} (hdone : done ∈ l.running)
    (r : DequeueReason Sfqd2QueueItem) :
    ∃ g₂ next, sfqd2Dequeue r g = .ok (g₂, next)
      ∧ (next.toList ++ (g₂.sched.queued .large ++ g₂.sched.queued .small)).Perm
        (g.sched.queued .large ++ g.sched.queued .small)
      ∧ ∀ waiting, Sfqd2Lined depthLarge g₂ (l.finishes done next waiting) := by
  obtain ⟨g₂, next, hdeq, hd⟩ := sfqd2Dequeue_exists r g
  have hbound := h.bound (sfqd2Size r.completeSize)
  have hcurrent := hd.current
  have hnumbered : Numbered (fun it : Sfqd2Item => it.itemId) g₂.sched.itemId l.accepted := by
    rw [hd.itemId]
    exact h.numbered
  refine ⟨g₂, next, hdeq, ?_, fun waiting => ?_⟩
  · exact Sfqd2.queued_perm hd.queued hd.other
  cases next with
  | none =>
      rw [Option.isNone_none, if_pos rfl] at hcurrent
      have hnil : g₂.sched.queued (sfqd2Size r.completeSize) = [] := by
        have hqueued := hd.queued
        rw [hd.empty rfl] at hqueued
        exact hqueued.eq_nil
      refine h.changed hd.other hd.depth ?_ (fun hne => absurd hnil hne) ?_ hnumbered
      · rw [hcurrent]
        omega
      · rw [hcurrent, Line.finishes_taken hdone, Option.toList_none, List.length_nil]
        omega
  | some it =>
      rw [Option.isNone_some, if_neg (by decide)] at hcurrent
      have hne : g.sched.queued (sfqd2Size r.completeSize) ≠ [] :=
        List.ne_nil_of_mem (hd.queued.subset (List.mem_cons_self ..))
      refine h.changed hd.other hd.depth ?_ (fun _ => ?_) ?_ hnumbered
      · rw [hcurrent]
        exact hbound
      · rw [hcurrent]
        exact h.full _ hne
      · rw [hcurrent, Line.finishes_taken hdone, Option.toList_some, List.length_singleton]
        omega

end Sfqd2Lined

theorem schSfqd2_dequeue {myShare : Int → Int → Int → Int → Int → Int}
    {r : DequeueReason Sfqd2QueueItem} {g g' : Globals Sfqd2} {next : Option Sfqd2Item}
    (h : sfqd2Dequeue r g = .ok (g', next)) :
    (schSfqd2 myShare).schDequeue r g = .ok { globals := g', ret := next } := by
  dsimp only [schSfqd2]
  rw [h]
  rfl

/-- SFQD2 loses and doubles no request. -/
theorem sfqd2_refines (myShare : Int → Int → Int → Int → Int → Int) (depthLarge : Int) :
    (sfqd2Lines myShare).Refines (anyOrder Sfqd2Item) (fun _ => True) (fun _ => True)
      (fun _ => True) (Sfqd2Lined depthLarge) where
  self := rfl
  keeps _ _ _ := trivial
  admits := by
    intro g l a out hinv _ _ hl _ hout
    obtain ⟨⟨g', b⟩, henq, hout⟩ := Machine.bind_eq_ok.mp hout
    obtain rfl := Machine.pure_eq_ok.mp hout
    obtain ⟨it, hit⟩ := sfqd2Enqueue_ok henq
    refine ⟨it, ⟨hit.socketData, rfl, ?_, ?_, ?_⟩⟩
    · rw [hl]
      exact (Sfqd2.queued_perm (l := [it]) hit.queued.symm
        fun size' hne => (hit.other size' hne).symm).symm
    · rintro rfl
      exact ⟨trivial, hinv.waits hit _⟩
    · rintro rfl
      obtain ⟨g₂, hdeq, hperm, hinv'⟩ := hinv.goes hit (r := LineRun.newIo a) rfl
      refine ⟨trivial, { globals := g₂, ret := some it }, schSfqd2_dequeue hdeq, rfl, rfl, ?_, ?_⟩
      · rw [hl]
        exact hperm
      · exact hinv' _
  finishes := by
    intro g l done size app hinv hl hdone
    obtain ⟨g₂, next, hdeq, hperm, hinv'⟩ := hinv.finishes hdone
      (LineRun.completeIo done size app)
    refine ⟨{ globals := g₂, ret := next }, schSfqd2_dequeue hdeq,
      ⟨rfl, ?_, fun _ _ => trivial, fun _ => trivial, ?_⟩⟩
    · rw [hl]
      exact hperm
    · exact hinv' _
  thread := by
    intro g l t hinv _
    exact ⟨rfl, { hinv with }⟩

section runs

variable {myShare : Int → Int → Int → Int → Int → Int} {depthLarge : Int}
  {s : LineRun Sfqd2 Sfqd2QueueItem}

/-- **The slots of SFQD2 together.** In every state the framework can reach around SFQD2,
with completions that report any sizes: the counters of the two classes add up to the
outstanding requests, of which there are never more than the two depths allow, exactly the
waiting requests are locked, every enqueued request was returned once or waits, and no
completion meets an assertion. -/
theorem sfqd2_total_slots (hdepth : 0 ≤ depthLarge)
    (h : (sfqd2Lines myShare).Reachable (fun _ => True) (fun _ => True) (sfqd2Init depthLarge) s) :
    (s.g.sched.queue .large).currentDepth + (s.g.sched.queue .small).currentDepth
        = s.outstanding.length
      ∧ (s.outstanding.length : Int) ≤ depthLarge + sfqd2DepthSmall
      ∧ (∀ size, s.g.sched.queued size ≠ [] →
        (s.g.sched.queue size).currentDepth = (s.g.sched.queue size).depth)
      ∧ (∀ p, lockedAt s.mem p = true ↔ ∃ size, ∃ it ∈ s.g.sched.queued size,
        it.socketData.rs = p)
      ∧ (s.returned ++ (s.g.sched.queued .large ++ s.g.sched.queued .small)).Perm s.enqueued
      ∧ s.enqueued.Nodup ∧ s.outstanding.Sublist s.returned
      ∧ ∀ item ∈ s.outstanding, ∀ size app,
        ∃ t, s.step (sfqd2Lines myShare) (.complete item size app) = .ok t := by
  obtain ⟨appStats, mem, es, hmem, hrun⟩ := h
  have hnil : (sfqd2Lines myShare).queued (sfqd2Init depthLarge) = [] :=
    congrArg₂ (· ++ ·) heapInit_values heapInit_values
  have hs := (sfqd2_refines myShare depthLarge).run
    (.init hnil (Sfqd2Lined.init appStats hdepth) trivial hmem) hrun
  have hcurrent : (s.g.sched.queue .large).currentDepth + (s.g.sched.queue .small).currentDepth
      = s.outstanding.length := hs.inv.current
  refine ⟨hcurrent, ?_, hs.inv.full, fun p => ?_, hs.kept.history, hs.inv.numbered.nodup,
    hs.kept.running, fun item hitem size app => ?_⟩
  · have hlarge := hs.inv.bound .large
    have hsmall := hs.inv.bound .small
    rw [hs.inv.large] at hlarge
    rw [hs.inv.small] at hsmall
    omega
  · rw [hs.locked p]
    constructor
    · rintro ⟨it, hit, rfl⟩
      rcases List.mem_append.mp hit with hlarge | hsmall
      · exact ⟨.large, it, hlarge, rfl⟩
      · exact ⟨.small, it, hsmall, rfl⟩
    · rintro ⟨size, it, hit, rfl⟩
      cases size with
      | large => exact ⟨it, List.mem_append_left _ hit, rfl⟩
      | small => exact ⟨it, List.mem_append_right _ hit, rfl⟩
  · exact (sfqd2_refines myShare depthLarge).complete_returns hs hitem size app

end runs

/-- The item of a first small request. -/
def sfqd2FirstItem : Sfqd2Item :=
  sfqd2NewItem (lineArrival Sfqd2QueueItem 1 0).pool (lineArrival Sfqd2QueueItem 1 0).si
    (lineArrival Sfqd2QueueItem 1 0).pi 0 4 0 0

/-- A small request completes with the size of a large one: the counter of the large class goes
below zero. -/
theorem sfqd2_total_slots_example :
    ∃ s : LineRun Sfqd2 Sfqd2QueueItem, s.returned.map (·.itemId) = [0, 1]
      ∧ (s.g.sched.queue .large).currentDepth = -1
      ∧ (s.g.sched.queue .large).currentDepth + (s.g.sched.queue .small).currentDepth
        = s.outstanding.length := by
  obtain ⟨s, hrun, hs⟩ := Machine.Run.exists_of_exec
    (LineRun.Allowed (fun _ => True) (fun _ => True))
    (LineRun.step (sfqd2Lines fun _ _ _ _ _ => 0))
    (.init { sched := sfqd2Init 1, appStats := fun _ => { appWeight := 1 },
             totalThroughput := 0 } fun _ => none)
    [.arrive (lineArrival _ 1 0), .arrive (lineArrival _ 3 1), .complete sfqd2FirstItem 100000 0]
    (fun s => (s.returned.map (·.itemId), (s.g.sched.queue .large).currentDepth))
    (a := ([0, 1], -1)) (by decide +kernel)
  obtain ⟨hret, hlarge⟩ := Prod.mk.inj hs
  have hreach : (sfqd2Lines fun _ _ _ _ _ => 0).Reachable (fun _ => True) (fun _ => True)
      (sfqd2Init 1) s := ⟨_, _, _, fun _ => rfl, hrun⟩
  exact ⟨s, hret, hlarge, (sfqd2_total_slots (by decide) hreach).1⟩

end PvfsProxy
