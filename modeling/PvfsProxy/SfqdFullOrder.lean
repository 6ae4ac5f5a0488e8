import PvfsProxy.SfqdFull

/-!
# Dispatch order of SFQD_Full

The first-fit scan of `sfqdfull_dequeue` is meant to find the waiting request
of least start tag. What it finds is decided by the order of the list, and
the list is sorted by descriptor: `ListOrder` holds of every reachable state,
whatever calls led to it, so the item returned is the fitting one of least
descriptor, the earliest among equals.

`sfqdFull_dispatch_order` says when that is also the fitting one of least
start tag, and `sfqdFull_dispatch_order_fails` shows a run in which it is not.
-/

namespace PvfsProxy

open StableSort SfqdFull

/-- Least start tag first, then arrival order. -/
def StartBefore (a b : SfqdFullItem) : Prop :=
  a.embedded.startTag < b.embedded.startTag
    ∨ a.embedded.startTag = b.embedded.startTag ∧ a.itemId ≤ b.itemId

/-- Least descriptor first, then arrival order. -/
def SocketBefore (a b : SfqdFullItem) : Prop :=
  a.embedded.requestSocket < b.embedded.requestSocket
    ∨ a.embedded.requestSocket = b.embedded.requestSocket ∧ a.itemId ≤ b.itemId

theorem SocketBefore.refl (a : SfqdFullItem) : SocketBefore a a := .inr ⟨rfl, Int.le_refl _⟩

/-- The order and numbering of the list. -/
structure ListOrder (s : SfqdFull) : Prop where
  sorted : s.queued.Pairwise fun a b =>
    sfqdFullLe a b = true ∧ (sfqdFullLe b a = true → a.itemId < b.itemId)
  fresh : ∀ it ∈ s.queued, it.itemId < s.itemId
  ids : (s.queued.map (·.itemId)).Nodup

namespace ListOrder

theorem init {depth factor : Int} {large hard none : Bool} :
    ListOrder (sfqdFullInit depth factor large hard none) where
  sorted := .nil
  fresh it h := by cases h
  ids := .nil

variable {s s' : SfqdFull} {g g' : Globals SfqdFull}

theorem enters (h : ListOrder s) {it : SfqdFullItem} (he : Enters s it s') : ListOrder s' where
  sorted := by
    refine he.sorted.pairwise sfqdFullLe_preorder ?_
    rw [List.pairwise_append]
    refine ⟨h.sorted.imp fun hab _ => hab.2, List.pairwise_singleton .., ?_⟩
    intro a ha c hc _ _
    rw [List.mem_singleton.mp hc, he.id]
    exact h.fresh a ha
  fresh := by
    intro it' hit'
    rw [he.next]
    rcases List.mem_append.mp (he.queued_perm.mem_iff.mp hit') with hold | hnew
    · have := h.fresh it' hold
      omega
    · rw [List.mem_singleton.mp hnew, he.id]
      omega
  ids := by
    rw [(he.queued_perm.map _).nodup_iff, List.map_append, List.nodup_append]
    refine ⟨h.ids, by simp, ?_⟩
    intro x hx y hy hxy
    obtain ⟨it', hit', rfl⟩ := List.mem_map.mp hx
    have := h.fresh it' hit'
    rw [List.map_singleton, List.mem_singleton] at hy
    have := he.id
    omega

theorem finish (h : ListOrder s) (r : DequeueReason SfqdFullQueueItem) :
    ListOrder (s.finish r) where
  sorted := by
    rw [finish_queued]
    exact h.sorted
  fresh := by
    rw [finish_queued, finish_itemId]
    exact h.fresh
  ids := by
    rw [finish_queued]
    exact h.ids

theorem leaves (h : ListOrder s) {reduceDepth : Int} {it : SfqdFullItem}
    (hl : Leaves s reduceDepth it s') : ListOrder s' where
  sorted := by
    rw [hl.queued]
    exact h.sorted.sublist List.erase_sublist
  fresh := by
    rw [hl.queued, hl.next]
    intro it' hit'
    exact h.fresh it' (List.mem_of_mem_erase hit')
  ids := by
    rw [hl.queued]
    exact h.ids.sublist (List.erase_sublist.map _)

theorem releases (h : ListOrder s) {reduceDepth : Int} (hr : Releases s reduceDepth s') :
    ListOrder s' where
  sorted := by
    rw [hr.queued]
    exact h.sorted
  fresh := by
    rw [hr.queued, hr.next]
    exact h.fresh
  ids := by
    rw [hr.queued]
    exact h.ids

theorem enqueue (h : ListOrder g.sched) {pool : Nat → Endpoint} {si : SocketInfo}
    {pi : PvfsInfo} {b : Bool} (henq : sfqdFullEnqueue pool si pi g = .ok (g', b)) :
    ListOrder g'.sched := by
  obtain ⟨it, henters, -⟩ := sfqdFullEnqueue_enters h.fresh henq
  exact h.enters henters

theorem dequeue (h : ListOrder g.sched) (r : DequeueReason SfqdFullQueueItem) :
    ListOrder (sfqdFullDequeue r g).1.sched := by
  rcases sfqdFullDequeue_leaves h.ids r with ⟨-, hreleases⟩ | ⟨it, -, hleaves⟩
  · exact (h.finish r).releases hreleases
  · exact (h.finish r).leaves hleaves

/-- A fitting item with only misfits before it has the least descriptor of
all that fit. -/
theorem first_fit (h : ListOrder g.sched) {fits : SfqdFullItem → Bool} {it : SfqdFullItem}
    {before after : List SfqdFullItem} (hq : g.sched.queued = before ++ it :: after)
    (hbefore : ∀ it' ∈ before, fits it' = false) :
    ∀ y ∈ g.sched.queued, fits y = true → SocketBefore it y := by
  intro y hy hfit
  have hsorted := h.sorted
  rw [hq] at hy hsorted
  rcases List.mem_append.mp hy with hmem | hmem
  · rw [hbefore y hmem] at hfit
    cases hfit
  · rcases List.mem_cons.mp hmem with rfl | hmem
    · exact .refl _
    · obtain ⟨hle, hlt⟩ := (List.pairwise_cons.mp (List.pairwise_append.mp hsorted).2.1).1 y hmem
      rw [sfqdFullLe_iff] at hle
      rcases Int.lt_or_eq_of_le hle with hlt' | heq
      · exact .inl hlt'
      · exact .inr ⟨heq, Int.le_of_lt (hlt (sfqdFullLe_iff.mpr (Int.le_of_eq heq.symm)))⟩

end ListOrder

section order

variable {myShare : Int → Int → Int → Int → Int → Int → Int}
  {calculateDiff : Nat → Globals SfqdFull → Int}

/-- The states of SFQD_Full any sequence of calls can lead to, whatever its
configuration. -/
def SfqdFull.Reachable (myShare : Int → Int → Int → Int → Int → Int → Int)
    (calculateDiff : Nat → Globals SfqdFull → Int) (g : Globals SfqdFull) : Prop :=
  ∃ depth factor large hard none appStats total calls,
    Machine.Run (fun _ _ => True) (callStep (schSfqdFull myShare calculateDiff))
      { sched := sfqdFullInit depth factor large hard none, appStats, totalThroughput := total }
      calls g

theorem SfqdFull.Reachable.order {g : Globals SfqdFull}
    (h : SfqdFull.Reachable myShare calculateDiff g) : ListOrder g.sched := by
  obtain ⟨depth, factor, large, hard, none, appStats, total, calls, hrun⟩ := h
  refine hrun.invariant (P := fun g => ListOrder g.sched) .init ?_
  intro g c g' hg _ hstep
  cases c with
  | enqueue pool si pi =>
      obtain ⟨out, hout, h⟩ := Machine.bind_eq_ok.mp hstep
      obtain rfl := Machine.pure_eq_ok.mp h
      obtain ⟨⟨g₁, b⟩, henq, h⟩ := Machine.bind_eq_ok.mp hout
      obtain rfl := Machine.pure_eq_ok.mp h
      exact hg.enqueue henq
  | dequeue r =>
      obtain rfl := Machine.pure_eq_ok.mp hstep
      exact hg.dequeue r

/-- `it` is queued, fits once the completed request's slots are released, and
no other item that fits comes before it by start tag and arrival. -/
def LeastFitting (before : SfqdFullItem → SfqdFullItem → Prop) (g : Globals SfqdFull)
    (r : DequeueReason SfqdFullQueueItem) (it : SfqdFullItem) : Prop :=
  let s := g.sched.finish r
  it ∈ g.sched.queued ∧ s.fits (s.reduceDepth r) it = true
    ∧ ∀ y ∈ g.sched.queued, s.fits (s.reduceDepth r) y = true → before it y

/-- **Dispatch order.** In every reachable state and for every event, the item
dispatched is the fitting one of least start tag exactly when one item is
first among those that fit both by descriptor and by start tag. -/
theorem sfqdFull_dispatch_order {g : Globals SfqdFull}
    (h : SfqdFull.Reachable myShare calculateDiff g) (r : DequeueReason SfqdFullQueueItem)
    {it : SfqdFullItem} (hret : (sfqdFullDequeue r g).2 = some it) :
    LeastFitting StartBefore g r it
      ↔ ∃ x, LeastFitting SocketBefore g r x ∧ LeastFitting StartBefore g r x := by
  obtain ⟨-, hnone, -⟩ | ⟨before, it', after, hq, hbefore, hfit, hret', -⟩ :=
    sfqdFullDequeue_cases r h.order.ids
  · rw [hnone] at hret
    cases hret
  obtain rfl : it' = it := Option.some.inj (hret'.symm.trans hret)
  have hmem : it' ∈ g.sched.queued := by
    rw [hq]
    exact List.mem_append_right _ (List.mem_cons_self ..)
  have hsocket : LeastFitting SocketBefore g r it' :=
    ⟨hmem, hfit, h.order.first_fit hq hbefore⟩
  refine ⟨fun hstart => ⟨it', hsocket, hstart⟩, ?_⟩
  rintro ⟨x, hx, hxstart⟩
  -- two items first by descriptor carry the same number, so they are one
  have hid : it'.itemId = x.itemId := by
    have h₁ := hsocket.2.2 x hx.1 hx.2.1
    have h₂ := hx.2.2 it' hmem hfit
    unfold SocketBefore at h₁ h₂
    omega
  have heq : it' = x := List.inj_on_of_nodup_map h.order.ids hmem hx.1 hid
  exact heq ▸ hxstart

end order

/-! ## A run -/

/-- A 4 KB request on slot `index`; slots 1 and 2 belong to application 0 and
to the lower descriptor, slots 3 and 4 to application 1. -/
def fullArrival (index : Nat) (rs : Addr) : Arrival SfqdFullQueueItem where
  pool i := { socket := i + 5, appIndex := (i - 1) / 2, weight := 1 }
  index := index
  dataSocket := index
  rs := rs
  newRs := default
  pi := { op := .io, tag := 7, reqSize := 64, currentDataSize := 4096 }

/-- The completion of the first request. -/
def firstComplete : DequeueReason SfqdFullQueueItem where
  event := .completeIo
  completeSize := 4096
  lastAppIndex := 0
  item := some (sfqdFullNewItem (fullArrival 1 0).pool (fullArrival 1 0).si (fullArrival 1 0).pi
    1 0 128 0 4096 0)

/-- With one slot: a request of application 0 is dispatched, one of
application 1 (start tag 0) and a second one of application 0 (start tag 128)
wait. When the first completes the later tag goes first, its client having the
lower descriptor. -/
theorem three_requests :
    ∃ g it y, SfqdFull.Reachable (fun _ _ _ _ _ _ => 0) (fun _ _ => 0) g
      ∧ (sfqdFullDequeue firstComplete g).2 = some it ∧ y ∈ g.sched.queued
      ∧ (g.sched.finish firstComplete).fits
          ((g.sched.finish firstComplete).reduceDepth firstComplete) y = true
      ∧ y.embedded.startTag < it.embedded.startTag := by
  obtain ⟨⟨g, mem⟩, hrun, hobs⟩ := Machine.Run.exists_of_exec (fun _ _ => True)
    (frameStep (schSfqdFull (fun _ _ _ _ _ _ => 0) fun _ _ => 0))
    ({ sched := sfqdFullInit 1 10 false true true, appStats := fun _ => { appWeight := 1 },
       totalThroughput := 0 }, fun _ => none)
    [.arrive (fullArrival 1 0) .newIo 4096, .arrive (fullArrival 3 1) .newIo 4096,
      .arrive (fullArrival 1 2) .newIo 4096]
    (fun s => (sfqdFullDequeue firstComplete s.1).2.any fun it =>
      s.1.sched.queued.any fun y =>
        (s.1.sched.finish firstComplete).fits
            ((s.1.sched.finish firstComplete).reduceDepth firstComplete) y
          && decide (y.embedded.startTag < it.embedded.startTag))
    (a := true) (by decide +kernel)
  obtain ⟨calls, hcalls⟩ := frame_calls hrun
  obtain ⟨it, hit, hobs⟩ := (Option.any_eq_true ..).mp hobs
  obtain ⟨y, hy, hobs⟩ := List.any_eq_true.mp hobs
  obtain ⟨hfit, hlt⟩ := Bool.and_eq_true_iff.mp hobs
  exact ⟨g, it, y, ⟨_, _, _, _, _, _, _, calls, hcalls⟩, hit, hy, hfit, of_decide_eq_true hlt⟩

theorem sfqdFull_dispatch_order_fails :
    ∃ g r it, SfqdFull.Reachable (fun _ _ _ _ _ _ => 0) (fun _ _ => 0) g
      ∧ (sfqdFullDequeue r g).2 = some it ∧ ¬ LeastFitting StartBefore g r it := by
  obtain ⟨g, it, y, hreach, hit, hy, hfit, hlt⟩ := three_requests
  refine ⟨g, firstComplete, it, hreach, hit, fun hleast => ?_⟩
  have := hleast.2.2 y hy hfit
  unfold StartBefore at this
  omega

theorem sfqdFull_dispatch_order_example :
    ∃ g it, (sfqdFullDequeue firstComplete g).2 = some it
      ∧ ¬ ∃ x, LeastFitting SocketBefore g firstComplete x
          ∧ LeastFitting StartBefore g firstComplete x := by
  obtain ⟨g, it, y, hreach, hit, hy, hfit, hlt⟩ := three_requests
  refine ⟨g, it, hit, fun hx => ?_⟩
  have := ((sfqdFull_dispatch_order hreach firstComplete hit).mpr hx).2.2 y hy hfit
  unfold StartBefore at this
  omega

end PvfsProxy
