import Mathlib.Algebra.Order.Ring.Int
import Mathlib.Algebra.Order.BigOperators.Group.List
import Mathlib.Data.Finset.Prod
import Mathlib.Data.Int.Interval
import Mathlib.Tactic.Abel
import Mathlib.Data.List.TakeWhile
import Mathlib.Data.List.Pairwise
import Mathlib.Data.List.Induction
import Mathlib.Data.List.Perm.Basic
import PvfsProxy.SfqdFullOrder

/-!
# Enqueue and dequeue of SFQD_Full agree

`sfqdfull_enqueue` tells the framework whether the new request may go at once,
by a scan of its own; the framework then calls `sfqdfull_dequeue`, which scans
again. A request that waits is locked until a completion hands it out.

What the two functions do to the scheduler's state is said by `SfqdFull.Enters`,
`SfqdFull.Leaves` and `SfqdFull.Releases`; a step of the framework is then one of four
combinations (`FullRun.arrive_cases`, `FullRun.complete_cases`). `Agrees` is
the invariant of the queue and the locks, for every configuration and
whatever completions the framework reports.
-/

namespace PvfsProxy

open StableSort SfqdFull

/-! ## Runs of the framework -/

/-- A run with its history; an outstanding item stands with what it was
charged when dispatched. -/
structure FullRun where
  g : Globals SfqdFull
  mem : Mem SfqdFullQueueItem
  /-- dispatched and not yet completed -/
  outstanding : List (SfqdFullItem × Int)
  enqueued : List SfqdFullItem
  returned : List SfqdFullItem

namespace FullRun

inductive Event where
  | arrive (a : Arrival SfqdFullQueueItem) (event : DequeueEvent) (completeSize : Int)
  | complete (entry : SfqdFullItem × Int) (r : DequeueReason SfqdFullQueueItem)
  | retire (p : Addr)

variable (myShare : Int → Int → Int → Int → Int → Int → Int)
  (calculateDiff : Nat → Globals SfqdFull → Int)

/-- `check_request` with the request of an arrival. -/
def arrive (s : FullRun) (a : Arrival SfqdFullQueueItem) (event : DequeueEvent)
    (completeSize : Int) : Except Fault FullRun := do
  let (g₁, _) ← sfqdFullEnqueue a.pool a.si a.pi s.g
  let (g, mem, item) ← admitRequest (schSfqdFull myShare calculateDiff) a.pool a.si a.pi event
    completeSize s.g (s.mem.alloc a.rs a.newRs)
  return {
    g, mem
    outstanding :=
      s.outstanding ++ item.toList.map fun it => (it, g₁.sched.tentativeDepth it.embedded)
    -- what the enqueue added to the queue
    enqueued := s.enqueued ++ g₁.sched.queued.diff s.g.sched.queued
    returned := s.returned ++ item.toList }

/-- `check_response` at the completion of a dispatched request. -/
def complete (s : FullRun) (entry : SfqdFullItem × Int) (r : DequeueReason SfqdFullQueueItem) :
    Except Fault FullRun := do
  let (g, mem, next) ← dispatchNext (schSfqdFull myShare calculateDiff) r s.g s.mem
  return {
    g, mem
    outstanding := s.outstanding.erase entry
      ++ next.toList.map fun it => (it, (s.g.sched.finish r).tentativeDepth it.embedded)
    enqueued := s.enqueued
    returned := s.returned ++ next.toList }

def step (s : FullRun) : Event → Except Fault FullRun
  | .arrive a event size => s.arrive myShare calculateDiff a event size
  | .complete entry r => s.complete myShare calculateDiff entry r
  | .retire p => .ok { s with mem := s.mem.free p }

/-- A request arrives in fresh memory, unlocked; whatever is reported as
complete is reported as such; only unlocked states are freed. -/
def Framed (s : FullRun) : Event → Prop
  | .arrive a event _ =>
    s.mem a.rs = none ∧ a.newRs.locked = false ∧ (event = .newIo ∨ event = .newMeta)
  | .complete _ r => r.event = .completeIo
  | .retire p => lockedAt s.mem p = false

instance (s : FullRun) (e : Event) : Decidable (s.Framed e) :=
  match e with
  | .arrive a event _ => inferInstanceAs (Decidable
      (s.mem a.rs = none ∧ a.newRs.locked = false ∧ (event = .newIo ∨ event = .newMeta)))
  | .complete _ r => inferInstanceAs (Decidable (r.event = .completeIo))
  | .retire p => inferInstanceAs (Decidable (lockedAt s.mem p = false))

def init (depth factor : Int) (large hard none : Bool) (appStats : Nat → AppStatistics)
    (mem : Mem SfqdFullQueueItem) : FullRun where
  g := { sched := sfqdFullInit depth factor large hard none, appStats, totalThroughput := 0 }
  mem := mem
  outstanding := []
  enqueued := []
  returned := []

def queued (s : FullRun) : List SfqdFullItem := s.g.sched.queued

/-! ## What a step can do -/

/-- The arriving request is dispatched, or it is locked and waits. -/
structure Arrives (s : FullRun) (a : Arrival SfqdFullQueueItem) (it : SfqdFullItem)
    (g₁ : Globals SfqdFull) (s' : FullRun) : Prop where
  enters : Enters s.g.sched it g₁.sched
  socketData : it.socketData = a.si
  requestSocket : it.embedded.requestSocket = (a.pool a.index).socket
  taskSize : it.embedded.taskSize =
    if isIo a.pi.op then a.pi.currentDataSize else defaultMetaCost
  enqueued : s'.enqueued = s.enqueued ++ [it]
  goes : (Leaves g₁.sched 0 it s'.g.sched
      ∧ s'.outstanding = s.outstanding ++ [(it, g₁.sched.tentativeDepth it.embedded)]
      ∧ s'.returned = s.returned ++ [it]
      ∧ s'.mem = s.mem.alloc a.rs { a.newRs with currentItem := some it, locked := false })
    ∨ (g₁.sched.queued.find? (g₁.sched.fits 0) ≠ some it
      ∧ s'.g = g₁ ∧ s'.outstanding = s.outstanding ∧ s'.returned = s.returned
      ∧ s'.mem = s.mem.alloc a.rs { a.newRs with locked := true })

variable {myShare calculateDiff} {s s' : FullRun}

theorem arrive_cases (hord : ListOrder s.g.sched) {a : Arrival SfqdFullQueueItem}
    {event : DequeueEvent} {size : Int} (hev : event ≠ .completeIo)
    (h : s.arrive myShare calculateDiff a event size = .ok s') :
    ∃ it g₁, s.Arrives a it g₁ s' := by
  obtain ⟨⟨g₁, b⟩, henq, h⟩ := Machine.bind_eq_ok.mp h
  obtain ⟨⟨g, mem, item⟩, hentry, h⟩ := Machine.bind_eq_ok.mp h
  obtain rfl := Machine.pure_eq_ok.mp h
  obtain ⟨it, henters, hsi, hsock, htask, hfirst⟩ := sfqdFullEnqueue_enters hord.fresh henq
  have hids₁ := (hord.enqueue henq).ids
  have hnew : g₁.sched.queued.diff s.g.sched.queued = [it] :=
    diff_of_perm_cons (henters.queued_perm.trans (List.perm_append_singleton ..))
  obtain ⟨out, hout, hcases⟩ := admitRequest_ok (m := schSfqdFull myShare calculateDiff) rfl hentry
  obtain ⟨_, henq', hpure⟩ := Machine.bind_eq_ok.mp hout
  obtain rfl := Except.ok.inj (henq.symm.trans henq')
  obtain rfl := Machine.pure_eq_ok.mp hpure
  refine ⟨it, g₁, henters, hsi, hsock, htask, ?_, ?_⟩
  · show s.enqueued ++ _ = _
    rw [hnew]
  rcases hcases with ⟨hret, deq, hdeq, rfl, rfl, rfl⟩ | ⟨hret, rfl, rfl, rfl⟩
  · left
    generalize hr : DequeueReason.mk event size a.si.appIndex none = r at hdeq
    have hrev : r.event ≠ .completeIo := by rwa [← hr]
    obtain rfl : ⟨(sfqdFullDequeue r g₁).1, (sfqdFullDequeue r g₁).2, []⟩ = deq :=
      Except.ok.inj hdeq
    obtain ⟨hitem, hleaves⟩ := sfqdFullDequeue_new hids₁ hrev (hfirst.mp hret)
    refine ⟨hleaves, ?_, ?_, ?_⟩
    · show s.outstanding ++ _ = _
      rw [hitem]
      rfl
    · show s.returned ++ _ = _
      rw [hitem]
      rfl
    · show Mem.modify _ _ _ = _
      rw [hitem]
      exact Mem.alloc_modify _ _ _ _
  · right
    refine ⟨?_, rfl, ?_, ?_, ?_⟩
    · intro hfind
      rw [hfirst.mpr hfind] at hret
      cases hret
    · exact List.append_nil _
    · exact List.append_nil _
    · exact Mem.alloc_modify _ _ _ _

/-- A request of an application of positive weight is admitted. -/
theorem arrive_ok (hqueue : s.g.sched.llistQueue = some s.queued) {a : Arrival SfqdFullQueueItem}
    (hw : 0 < (a.pool a.index).weight) (event : DequeueEvent) (size : Int) :
    ∃ s', s.arrive myShare calculateDiff a event size = .ok s' := by
  have hreturns : ∃ out, sfqdFullEnqueue a.pool a.si a.pi s.g = .ok out :=
    sfqdFullEnqueue_returns hqueue hw
  obtain ⟨⟨g₁, b⟩, henq⟩ := hreturns
  unfold arrive admitRequest
  rw [henq]
  have hhook : (schSfqdFull myShare calculateDiff).schEnqueue a.pool a.si a.pi s.g
      = .ok { globals := g₁, ret := b } := by
    show (sfqdFullEnqueue a.pool a.si a.pi s.g >>= _) = _
    rw [henq]
    rfl
  rw [hhook]
  cases b <;> exact ⟨_, rfl⟩

/-- A completion hands out a waiting request, which was locked, or releases
slots. -/
structure Completes (s : FullRun) (entry : SfqdFullItem × Int)
    (r : DequeueReason SfqdFullQueueItem) (s' : FullRun) : Prop where
  enqueued : s'.enqueued = s.enqueued
  goes : (Releases (s.g.sched.finish r) (s.g.sched.reduceDepth r) s'.g.sched
      ∧ s'.outstanding = s.outstanding.erase entry ∧ s'.returned = s.returned ∧ s'.mem = s.mem)
    ∨ ∃ it, Leaves (s.g.sched.finish r) (s.g.sched.reduceDepth r) it s'.g.sched
      ∧ s'.outstanding = s.outstanding.erase entry
          ++ [(it, (s.g.sched.finish r).tentativeDepth it.embedded)]
      ∧ s'.returned = s.returned ++ [it]
      ∧ s'.mem = s.mem.modify it.socketData.rs fun rs =>
          { rs with currentItem := some it, locked := false }

theorem complete_cases (hord : ListOrder s.g.sched) {entry : SfqdFullItem × Int}
    {r : DequeueReason SfqdFullQueueItem}
    (h : s.complete myShare calculateDiff entry r = .ok s') : s.Completes entry r s' := by
  obtain ⟨⟨g, mem, next⟩, hdisp, h⟩ := Machine.bind_eq_ok.mp h
  obtain rfl := Machine.pure_eq_ok.mp h
  obtain ⟨out, hout, rfl, rfl, hnone, hsome⟩ := dispatchNext_ok hdisp
  obtain rfl : ⟨(sfqdFullDequeue r s.g).1, (sfqdFullDequeue r s.g).2, []⟩ = out :=
    Except.ok.inj hout
  refine ⟨rfl, ?_⟩
  rcases sfqdFullDequeue_leaves hord.ids r with ⟨hret, hrel⟩ | ⟨it, hret, hleaves⟩
  · left
    refine ⟨hrel, ?_, ?_, hnone hret⟩
    · show _ ++ List.map _ (sfqdFullDequeue r s.g).2.toList = _
      rw [hret]
      exact List.append_nil _
    · show _ ++ (sfqdFullDequeue r s.g).2.toList = _
      rw [hret]
      exact List.append_nil _
  · right
    refine ⟨it, hleaves, ?_, ?_, (hsome it hret).2⟩
    · show _ ++ List.map _ (sfqdFullDequeue r s.g).2.toList = _
      rw [hret]
      rfl
    · show _ ++ (sfqdFullDequeue r s.g).2.toList = _
      rw [hret]
      rfl

/-- A completion whose next item, if any, is locked goes through. -/
theorem complete_ok (hord : ListOrder s.g.sched) (entry : SfqdFullItem × Int)
    (r : DequeueReason SfqdFullQueueItem)
    (hlocked : ∀ it ∈ s.queued, lockedAt s.mem it.socketData.rs = true) :
    ∃ s', s.complete myShare calculateDiff entry r = .ok s' := by
  have hdeq : (schSfqdFull myShare calculateDiff).schDequeue r s.g
      = .ok ⟨(sfqdFullDequeue r s.g).1, (sfqdFullDequeue r s.g).2, []⟩ := rfl
  obtain ⟨⟨g, mem, next⟩, hres⟩ := dispatchNext_exists s.mem hdeq fun it hit => by
    rcases sfqdFullDequeue_leaves hord.ids r with ⟨hret, -⟩ | ⟨it', hret, hleaves⟩
    · rw [hret] at hit
      cases hit
    · obtain rfl : it' = it := Option.some.inj (hret.symm.trans hit)
      exact hlocked it' (by simpa [queued] using hleaves.mem)
  unfold complete
  rw [hres]
  exact ⟨_, rfl⟩

end FullRun

/-! ## The invariant -/

/-- The queue, the locks and the history agree. -/
structure Agrees (s : FullRun) : Prop where
  order : ListOrder s.g.sched
  queue : s.g.sched.llistQueue = some s.queued
  locked : ∀ p, lockedAt s.mem p = true ↔ ∃ it ∈ s.queued, it.socketData.rs = p
  owners : (s.queued.map (·.socketData.rs)).Nodup
  history : (s.returned ++ s.queued).Perm s.enqueued
  fresh : ∀ it ∈ s.enqueued, it.itemId < s.g.sched.itemId
  ids : (s.enqueued.map (·.itemId)).Nodup

theorem lockedAt_free {ι : Type} (mem : Mem ι) (p q : Addr) :
    lockedAt (mem.free p) q = if q = p then false else lockedAt mem q := by
  unfold lockedAt Mem.free
  split
  · rename_i h
    simp [h]
  · rename_i h
    simp [h]

namespace Agrees

open FullRun

variable {s s' : FullRun}

theorem init {depth factor : Int} {large hard none : Bool} {appStats : Nat → AppStatistics}
    {mem : Mem SfqdFullQueueItem} (hmem : ∀ p, lockedAt mem p = false) :
    Agrees (FullRun.init depth factor large hard none appStats mem) where
  order := .init
  queue := rfl
  locked p := by
    constructor
    · intro h
      have hunlocked : lockedAt mem p = false := hmem p
      exact absurd (hunlocked.symm.trans h) Bool.false_ne_true
    · rintro ⟨it, hit, -⟩
      cases hit
  owners := .nil
  history := .nil
  fresh it h := by cases h
  ids := .nil

/-- The arriving item joins the history under a new number. -/
theorem history_enters (h : Agrees s) {it : SfqdFullItem} {sched : SfqdFull}
    (he : Enters s.g.sched it sched) :
    (∀ it' ∈ s.enqueued ++ [it], it'.itemId < sched.itemId)
      ∧ ((s.enqueued ++ [it]).map (·.itemId)).Nodup := by
  have hid := he.id
  constructor
  · intro it' hit'
    rw [he.next]
    rcases List.mem_append.mp hit' with hold | hnew
    · have := h.fresh it' hold
      omega
    · rw [List.mem_singleton.mp hnew]
      omega
  · rw [List.map_append, List.nodup_append]
    refine ⟨h.ids, by simp, ?_⟩
    intro x hx y hy hxy
    obtain ⟨it', hit', rfl⟩ := List.mem_map.mp hx
    have := h.fresh it' hit'
    rw [List.map_singleton, List.mem_singleton] at hy
    omega

/-- The request that arrives is nobody's, and unlocked. -/
theorem new_owner (h : Agrees s) {p : Addr} (hp : s.mem p = none) :
    ∀ it ∈ s.queued, it.socketData.rs ≠ p := by
  intro it hit heq
  have hlocked := (h.locked p).mpr ⟨it, hit, heq⟩
  unfold lockedAt at hlocked
  rw [hp] at hlocked
  cases hlocked

theorem arrives (h : Agrees s) {a : Arrival SfqdFullQueueItem} {it : SfqdFullItem}
    {g₁ : Globals SfqdFull} (hfresh : s.mem a.rs = none) (ha : s.Arrives a it g₁ s') :
    Agrees s' := by
  have hord₁ := h.order.enters ha.enters
  have hrs : it.socketData.rs = a.rs := by rw [ha.socketData]; rfl
  obtain ⟨hnew, hids⟩ := h.history_enters ha.enters
  have howner := h.new_owner hfresh
  have hqueue : g₁.sched.queued.Perm (s.queued ++ [it]) := ha.enters.queued_perm
  rcases ha.goes with ⟨hl, -, hret, hmem⟩ | ⟨-, hg, -, hret, hmem⟩
  · have hperm : s'.queued.Perm s.queued := by
      have hcons : (it :: s'.queued).Perm (it :: s.queued) :=
        (hl.queued_perm.trans hqueue).trans List.perm_append_comm
      exact List.Perm.cons_inv hcons
    exact
      { order := hord₁.leaves hl
        queue := by rw [hl.queue, ← hl.queued]; rfl
        locked := by
          intro p
          rw [hmem, lockedAt_alloc]
          simp only [hperm.mem_iff]
          split
          · rename_i hp
            refine iff_of_false Bool.false_ne_true ?_
            rintro ⟨it', hit', heq⟩
            exact howner it' hit' (heq.trans hp)
          · exact h.locked p
        owners := (hperm.map _).nodup_iff.mpr h.owners
        history := by
          rw [hret, ha.enqueued, List.append_assoc]
          refine (List.Perm.append_left _ (hperm.append_left [it])).trans ?_
          refine (List.Perm.append_left _ List.perm_append_comm).trans ?_
          rw [← List.append_assoc]
          exact h.history.append_right _
        fresh := by
          rw [ha.enqueued, hl.next]
          exact hnew
        ids := by
          rw [ha.enqueued]
          exact hids }
  · have hperm : s'.queued.Perm (s.queued ++ [it]) := by
      show s'.g.sched.queued.Perm _
      rw [hg]
      exact hqueue
    exact
      { order := hg ▸ hord₁
        queue := by
          unfold FullRun.queued
          rw [hg]
          exact ha.enters.queue
        locked := by
          intro p
          rw [hmem, lockedAt_alloc]
          simp only [hperm.mem_iff, List.mem_append, List.mem_singleton]
          split
          · rename_i hp
            exact iff_of_true rfl ⟨it, .inr rfl, hrs.trans hp.symm⟩
          · rename_i hp
            rw [h.locked p]
            constructor
            · rintro ⟨it', hit', heq⟩
              exact ⟨it', .inl hit', heq⟩
            · rintro ⟨it', hold | rfl, heq⟩
              · exact ⟨it', hold, heq⟩
              · exact absurd (heq.symm.trans hrs) hp
        owners := by
          rw [(hperm.map _).nodup_iff, List.map_append, List.nodup_append]
          refine ⟨h.owners, by simp, ?_⟩
          intro x hx y hy hxy
          obtain ⟨it', hit', rfl⟩ := List.mem_map.mp hx
          rw [List.map_singleton, List.mem_singleton] at hy
          exact howner it' hit' (hxy.trans (hy.trans hrs))
        history := by
          rw [hret, ha.enqueued]
          refine (List.Perm.append_left _ hperm).trans ?_
          rw [← List.append_assoc]
          exact h.history.append_right _
        fresh := by
          rw [ha.enqueued, hg]
          exact hnew
        ids := by
          rw [ha.enqueued]
          exact hids }

theorem completes (h : Agrees s) {entry : SfqdFullItem × Int}
    {r : DequeueReason SfqdFullQueueItem} (hc : s.Completes entry r s') : Agrees s' := by
  have hord := h.order.finish r
  have hqueued : (s.g.sched.finish r).queued = s.queued := finish_queued _ _
  rcases hc.goes with ⟨hr, -, hret, hmem⟩ | ⟨it, hl, -, hret, hmem⟩
  · have hsame : s'.queued = s.queued := hr.queued.trans hqueued
    exact
      { order := hord.releases hr
        queue := by rw [hr.queue, finish_queue, h.queue, hsame]
        locked := by
          rw [hmem, hsame]
          exact h.locked
        owners := by
          rw [hsame]
          exact h.owners
        history := by
          rw [hret, hsame, hc.enqueued]
          exact h.history
        fresh := by
          rw [hc.enqueued, hr.next, finish_itemId]
          exact h.fresh
        ids := by
          rw [hc.enqueued]
          exact h.ids }
  · have hperm : (it :: s'.queued).Perm s.queued := hqueued ▸ hl.queued_perm
    have howners : ((it :: s'.queued).map (·.socketData.rs)).Nodup :=
      (hperm.map _).nodup_iff.mpr h.owners
    rw [List.map_cons, List.nodup_cons] at howners
    exact
      { order := hord.leaves hl
        queue := by rw [hl.queue, ← hl.queued]; rfl
        locked := by
          intro p
          rw [hmem, lockedAt_unlock]
          split
          · rename_i hp
            refine iff_of_false Bool.false_ne_true ?_
            rintro ⟨it', hit', heq⟩
            exact howners.1 (List.mem_map.mpr ⟨it', hit', heq.trans hp⟩)
          · rename_i hp
            rw [h.locked p]
            simp only [← hperm.mem_iff, List.mem_cons]
            constructor
            · rintro ⟨it', rfl | hit', heq⟩
              · exact absurd heq.symm hp
              · exact ⟨it', hit', heq⟩
            · rintro ⟨it', hit', heq⟩
              exact ⟨it', .inr hit', heq⟩
        owners := howners.2
        history := by
          rw [hret, hc.enqueued, List.append_assoc]
          exact (hperm.append_left _).trans h.history
        fresh := by
          rw [hc.enqueued, hl.next, finish_itemId]
          exact h.fresh
        ids := by
          rw [hc.enqueued]
          exact h.ids }

theorem retires (h : Agrees s) {p : Addr} (hp : lockedAt s.mem p = false) :
    Agrees { s with mem := s.mem.free p } where
  order := h.order
  queue := h.queue
  locked := by
    intro q
    refine Iff.trans ?_ (h.locked q)
    rw [lockedAt_free]
    split
    · rename_i hq
      rw [hq, hp]
    · rfl
  owners := h.owners
  history := h.history
  fresh := h.fresh
  ids := h.ids

variable {myShare : Int → Int → Int → Int → Int → Int → Int}
  {calculateDiff : Nat → Globals SfqdFull → Int}

theorem step (h : Agrees s) {e : Event} (hok : s.Framed e)
    (hstep : s.step myShare calculateDiff e = .ok s') : Agrees s' := by
  cases e with
  | arrive a event size =>
      obtain ⟨hfresh, -, hev⟩ := hok
      have hne : event ≠ .completeIo := by
        rcases hev with rfl | rfl <;> decide
      obtain ⟨it, g₁, ha⟩ := arrive_cases h.order hne hstep
      exact h.arrives hfresh ha
  | complete entry r => exact h.completes (complete_cases h.order hstep)
  | retire p =>
      obtain rfl := Except.ok.inj hstep
      exact h.retires hok

end Agrees

/-! ## Every interleaving -/

namespace FullRun

/-- The states the framework can reach around SFQD_Full so configured, when
the steps keep to `ok`. -/
def Reaches (ok : FullRun → Event → Prop) (myShare : Int → Int → Int → Int → Int → Int → Int)
    (calculateDiff : Nat → Globals SfqdFull → Int) (depth factor : Int) (large hard : Bool)
    (s : FullRun) : Prop :=
  ∃ none appStats mem es, (∀ p, lockedAt mem p = false)
    ∧ Machine.Run ok (step myShare calculateDiff)
        (init depth factor large hard none appStats mem) es s

variable {ok : FullRun → Event → Prop} {myShare : Int → Int → Int → Int → Int → Int → Int}
  {calculateDiff : Nat → Globals SfqdFull → Int} {depth factor : Int} {large hard : Bool}
  {s : FullRun}

/-- What holds initially and is kept by every step, over states that agree. -/
theorem Reaches.invariant {P : FullRun → Prop}
    (h : Reaches ok myShare calculateDiff depth factor large hard s)
    (hframed : ∀ s e, ok s e → s.Framed e)
    (h0 : ∀ none appStats mem, P (init depth factor large hard none appStats mem))
    (hstep : ∀ s e s', Agrees s → P s → ok s e → s.step myShare calculateDiff e = .ok s' → P s') :
    Agrees s ∧ P s := by
  obtain ⟨none, appStats, mem, es, hmem, hrun⟩ := h
  refine hrun.invariant (P := fun s => Agrees s ∧ P s) ⟨.init hmem, h0 none appStats mem⟩ ?_
  intro s e s' hs hok hs'
  exact ⟨hs.1.step (hframed s e hok) hs', hstep s e s' hs.1 hs.2 hok hs'⟩

theorem Reaches.init (mem : Mem SfqdFullQueueItem) (hmem : ∀ p, lockedAt mem p = false) :
    Reaches ok myShare calculateDiff depth factor large hard
      (init depth factor large hard true (fun _ => { appWeight := 1 }) mem) :=
  ⟨true, _, mem, [], hmem, .nil⟩

theorem Reaches.snoc {s' : FullRun} {e : Event}
    (h : Reaches ok myShare calculateDiff depth factor large hard s) (hok : ok s e)
    (hstep : s.step myShare calculateDiff e = .ok s') :
    Reaches ok myShare calculateDiff depth factor large hard s' := by
  obtain ⟨none, appStats, mem, es, hmem, hrun⟩ := h
  exact ⟨none, appStats, mem, es ++ [e], hmem, hrun.snoc hok hstep⟩

theorem Reaches.agrees (h : Reaches Framed myShare calculateDiff depth factor large hard s) :
    Agrees s :=
  (h.invariant (P := fun _ => True) (fun _ _ h => h) (fun _ _ _ => trivial)
    fun _ _ _ _ _ _ _ => trivial).1

end FullRun

section agree

variable {myShare : Int → Int → Int → Int → Int → Int → Int}
  {calculateDiff : Nat → Globals SfqdFull → Int}

/-- **Enqueue and dequeue agree.** Under every configuration and in every
state the framework can reach: a request `sfqdfull_enqueue` lets through is
the one the dequeue that follows returns; exactly the waiting requests are
locked, so a completion never meets an unlocked one; and every enqueued item
is returned at most once or still queued. -/
theorem sfqdFull_enqueue_dequeue_agree {depth factor : Int} {large hard : Bool} {s : FullRun}
    (h : FullRun.Reaches FullRun.Framed myShare calculateDiff depth factor large hard s) :
    (∀ pool si pi g₁, sfqdFullEnqueue pool si pi s.g = .ok (g₁, true) →
        ∃ it, it.itemId = s.g.sched.itemId ∧ it.socketData = si
          ∧ g₁.sched.queued.Perm (s.queued ++ [it])
          ∧ ∀ r, r.event = .newIo ∨ r.event = .newMeta → (sfqdFullDequeue r g₁).2 = some it)
      ∧ (∀ p, lockedAt s.mem p = true ↔ ∃ it ∈ s.queued, it.socketData.rs = p)
      ∧ (∀ entry r, r.event = .completeIo →
          ∃ s', s.step myShare calculateDiff (.complete entry r) = .ok s')
      ∧ s.enqueued.Nodup ∧ (s.returned ++ s.queued).Perm s.enqueued := by
  have hs := h.agrees
  refine ⟨?_, hs.locked, ?_, hs.ids.of_map _, hs.history⟩
  · intro pool si pi g₁ henq
    obtain ⟨it, henters, hsi, -, -, hfirst⟩ := sfqdFullEnqueue_enters hs.order.fresh henq
    refine ⟨it, henters.id, hsi, henters.queued_perm, ?_⟩
    intro r hr
    have hne : r.event ≠ .completeIo := by
      rcases hr with hr | hr <;> rw [hr] <;> decide
    exact (sfqdFullDequeue_new (hs.order.enqueue henq).ids hne (hfirst.mp rfl)).1
  · intro entry r _
    exact FullRun.complete_ok hs.order entry r fun it hit => (hs.locked _).mpr ⟨it, hit, rfl⟩

end agree

/-- A 4 KB request as `fullArrival` has it, and a request of 128 KB. -/
def fullSize (large : Bool) (a : Arrival SfqdFullQueueItem) : Arrival SfqdFullQueueItem :=
  if large then { a with pi := { a.pi with currentDataSize := 131072 } } else a

/-- With two slots a small request is let through, a large one (three slots)
waits, locked, and a second small one passes it. -/
theorem sfqdFull_enqueue_dequeue_agree_example :
    ∃ s : FullRun, s.returned.map (·.itemId) = [0, 2] ∧ s.queued.map (·.itemId) = [1]
      ∧ s.enqueued.map (·.itemId) = [0, 1, 2] ∧ (s.returned ++ s.queued).Perm s.enqueued := by
  obtain ⟨s, hrun, hs⟩ := Machine.Run.exists_of_exec FullRun.Framed
    (FullRun.step (fun _ _ _ _ _ _ => 0) fun _ _ => 0)
    (FullRun.init 2 3 false true true (fun _ => { appWeight := 1 }) fun _ => none)
    [.arrive (fullArrival 1 0) .newIo 4096,
      .arrive (fullSize true (fullArrival 3 1)) .newIo 131072,
      .arrive (fullArrival 1 2) .newIo 4096]
    (fun s => (s.returned.map (·.itemId), s.queued.map (·.itemId), s.enqueued.map (·.itemId)))
    (a := ([0, 2], [1], [0, 1, 2])) (by decide +kernel)
  obtain ⟨hret, hrest⟩ := Prod.mk.inj hs
  obtain ⟨hqueued, henqueued⟩ := Prod.mk.inj hrest
  have hreach : FullRun.Reaches FullRun.Framed (fun _ _ _ _ _ _ => 0) (fun _ _ => 0) 2 3 false
      true s := ⟨true, _, _, _, fun _ => rfl, hrun⟩
  exact ⟨s, hret, hqueued, henqueued, (sfqdFull_enqueue_dequeue_agree hreach).2.2.2.2⟩

end PvfsProxy
