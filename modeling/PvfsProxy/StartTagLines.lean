import PvfsProxy.SchedulerLines
import PvfsProxy.Lib.TagBooks

/-!
# Schedulers by start tag

DSFQ and vDSFQ tag their requests in ways of their own and keep their queues in order at
different times, but both give the slots to the least start tag and keep the same books.
`StartTags` names what of a scheduler's state these are; `Serves` is what its hooks and
threads have to do with them. A scheduler that does so is a line that gives its slots to
the least start tag (`Serves.refines`), and what follows from that for its slots, its
locks and its order of service is proved here once.
-/

namespace PvfsProxy

open SlotLine Bypass

variable {σ ι ρ : Type}

/-- Where a scheduler keeps its tags, and what holds of its queue between the calls. -/
structure StartTags (σ ι : Type) where
  order : Keys (GenericQueueItem ι) Nat
  books : σ → TagBooks Nat
  Formed : σ → Prop

namespace StartTags

/-- An enqueue tags one item, and takes a slot exactly when one is free. Its queue may be out
of order only where the item would have to pass another. -/
structure Enqueues (T : StartTags σ ι) (S : LineScheduler σ ι ρ) (depth : Int) (s : σ)
    (a : Arrival ι) (out : EnqueueResult σ ι) (it : GenericQueueItem ι) : Prop where
  socketData : it.socketData = a.si
  unlocked : out.unlocked = []
  queued : (S.queued out.globals.sched).Perm (it :: S.queued s)
  enters : (T.books s).Enters T.order it (T.books out.globals.sched)
  ret : out.ret = decide ((T.books s).taken < depth)
  taken : (T.books out.globals.sched).taken
    = if out.ret then (T.books s).taken + 1 else (T.books s).taken
  formed : (∀ c ∈ S.queued s, T.order.born c < T.order.born it) →
    (out.ret = true → S.queued s = []) → T.Formed out.globals.sched

/-- A dequeue takes the item that precedes all others, or gives a slot back. -/
structure Dequeues (T : StartTags σ ι) (S : LineScheduler σ ι ρ) (s : σ)
    (out : HookResult σ (Option (GenericQueueItem ι))) : Prop where
  unlocked : out.unlocked = []
  queued : (out.ret.toList ++ S.queued out.globals.sched).Perm (S.queued s)
  formed : T.Formed out.globals.sched
  frees : out.ret = none → S.queued s = []
    ∧ T.books out.globals.sched = { T.books s with taken := (T.books s).taken - 1 }
  takes : ∀ it, out.ret = some it → (∀ c ∈ S.queued out.globals.sched, Precedes T.order it c)
    ∧ T.books out.globals.sched = { T.books s with vtime := T.order.tag it }

structure Serves (T : StartTags σ ι) (S : LineScheduler σ ι ρ) (depth : Int)
    (comes : Arrival ι → Prop) (runs : ρ → Prop) : Prop where
  self : S.method.schSelfDispatch = false
  enqueue : ∀ {g : Globals σ} {a : Arrival ι} {out}, T.Formed g.sched → comes a →
    S.method.schEnqueue a.pool a.si a.pi g = .ok out → ∃ it, T.Enqueues S depth g.sched a out it
  dequeue : ∀ {g : Globals σ} (r : DequeueReason ι), T.Formed g.sched →
    ∃ out, S.method.schDequeue r g = .ok out ∧ T.Dequeues S g.sched out
  thread : ∀ {g : Globals σ} {t : ρ}, T.Formed g.sched → runs t →
    S.queued (S.thread t g).sched = S.queued g.sched
      ∧ T.books (S.thread t g).sched = T.books g.sched ∧ T.Formed (S.thread t g).sched

/-- The queue is in form and the books agree with the line. -/
structure Lined (T : StartTags σ ι) (g : Globals σ) (l : Line (GenericQueueItem ι)) : Prop where
  formed : T.Formed g.sched
  balanced : (T.books g.sched).Balanced T.order l

variable {T : StartTags σ ι} {S : LineScheduler σ ι ρ} {depth : Int}
  {comes : Arrival ι → Prop} {runs : ρ → Prop} {g : Globals σ}
  {l : Line (GenericQueueItem ι)} {a : Arrival ι} {out : EnqueueResult σ ι}
  {it : GenericQueueItem ι}

namespace Lined

/-- The item that comes is younger than all that wait. -/
theorem young (h : T.Lined g l) (hkept : Kept l) (hl : l.waiting = S.queued g.sched)
    (hit : T.Enqueues S depth g.sched a out it) :
    ∀ c ∈ S.queued g.sched, T.order.born c < T.order.born it := fun c hc =>
  (h.balanced.comes hit.enters).born c
    (hkept.history.subset (List.mem_append_right _ (hl ▸ hc)))

theorem waits (h : T.Lined g l) (hkept : Kept l) (hl : l.waiting = S.queued g.sched)
    (hit : T.Enqueues S depth g.sched a out it) (hret : out.ret = false) :
    (startTime T.order depth).wait l it
      ∧ T.Lined out.globals (l.waits it (S.queued out.globals.sched)) := by
  have hfull := hit.ret
  rw [hret, eq_comm, decide_eq_false_iff_not, h.balanced.taken] at hfull
  have htaken := hit.taken
  rw [hret, if_neg (by decide)] at htaken
  refine ⟨⟨by omega, h.balanced.comes hit.enters⟩, ?_, ?_⟩
  · refine hit.formed (h.young hkept hl hit) fun hgo => ?_
    rw [hret] at hgo
    cases hgo
  · exact h.balanced.waits hit.enters htaken (hl ▸ hit.queued)

/-- The item finds nothing waiting, -/
theorem alone (h : T.Lined g l) (hkept : Kept l) (hslots : Slotted depth l)
    (hl : l.waiting = S.queued g.sched) (hit : T.Enqueues S depth g.sched a out it)
    (hret : out.ret = true) :
    (l.running.length : Int) < depth ∧ l.waiting = []
      ∧ S.queued out.globals.sched = [it] ∧ T.Formed out.globals.sched := by
  have hfree := hit.ret
  rw [hret, eq_comm, decide_eq_true_iff, h.balanced.taken] at hfree
  have hnil := hslots.waiting_nil hfree
  have hempty : S.queued g.sched = [] := hl.symm.trans hnil
  have hqueued := hit.queued
  rw [hempty] at hqueued
  exact ⟨hfree, hnil, List.perm_singleton.mp hqueued,
    hit.formed (h.young hkept hl hit) fun _ => hempty⟩

/-- and any dequeue returns it. -/
theorem goes (hT : T.Serves S depth comes runs) (h : T.Lined g l) (hkept : Kept l)
    (hslots : Slotted depth l) (hl : l.waiting = S.queued g.sched)
    (hit : T.Enqueues S depth g.sched a out it) (hret : out.ret = true) (r : DequeueReason ι) :
    ∃ deq, S.method.schDequeue r out.globals = .ok deq ∧ deq.unlocked = [] ∧ deq.ret = some it
      ∧ S.queued deq.globals.sched = [] ∧ T.Lined deq.globals (l.goes it []) := by
  obtain ⟨-, -, hone, hformed⟩ := h.alone hkept hslots hl hit hret
  have htaken := hit.taken
  rw [hret, if_pos rfl] at htaken
  obtain ⟨deq, hdeq, hd⟩ := hT.dequeue r hformed
  have hqueued := hd.queued
  rw [hone] at hqueued
  cases hnext : deq.ret with
  | none =>
      have hempty := (hd.frees hnext).1
      rw [hone] at hempty
      cases hempty
  | some next =>
      rw [hnext] at hqueued
      obtain ⟨rfl, hnone⟩ := List.cons.inj (List.perm_singleton.mp hqueued)
      refine ⟨deq, hdeq, hd.unlocked, hnext, hnone, hd.formed, ?_⟩
      rw [(hd.takes next hnext).2]
      exact h.balanced.goes hit.enters htaken

/-- A completion takes the least item, or gives the slot back. -/
theorem finishes [DecidableEq ι] (h : T.Lined g l) (hl : l.waiting = S.queued g.sched)
    {done : GenericQueueItem ι} (hdone : done ∈ l.running)
    {out : HookResult σ (Option (GenericQueueItem ι))} (hd : T.Dequeues S g.sched out) :
    S.Finishes (startTime T.order depth) T.Lined l done out where
  unlocked := hd.unlocked
  queued := hl ▸ hd.queued
  next := by
    intro it hret c hc hne
    have hqueued := hd.queued
    rw [hret, ← hl] at hqueued
    rcases List.mem_cons.mp (hqueued.symm.subset hc) with rfl | hrest
    · exact absurd rfl hne
    · exact (hd.takes it hret).1 c hrest
  idle hret := hl.trans (hd.frees hret).1
  inv := by
    refine ⟨hd.formed, ?_⟩
    have hqueued := hd.queued
    cases hret : out.ret with
    | none =>
        obtain ⟨hnil, hbooks⟩ := hd.frees hret
        rw [hret, hnil] at hqueued
        rw [show S.queued out.globals.sched = [] from hqueued.eq_nil, hbooks]
        exact h.balanced.frees hdone
    | some it =>
        obtain ⟨hleast, hbooks⟩ := hd.takes it hret
        rw [hret, ← hl] at hqueued
        rw [hbooks]
        exact h.balanced.takes hdone hqueued hleast

end Lined

namespace Serves

variable [DecidableEq ι]

/-- The slots go to the least start tag. -/
theorem refines (hT : T.Serves S depth comes runs) :
    S.Refines (startTime T.order depth) (fun l => Slotted depth l ∧ InOrder T.order l) comes runs
      T.Lined where
  self := hT.self
  keeps := by
    rintro l l' hkept ⟨hslots, horder⟩ hstep
    exact ⟨hslots.step hstep, horder.step hslots hkept hstep⟩
  admits := by
    intro g l a out hinv hkept hgood hl ha hout
    obtain ⟨it, hit⟩ := hT.enqueue hinv.formed ha hout
    refine ⟨it, hit.socketData, hit.unlocked, hl ▸ hit.queued, hinv.waits hkept hl hit, ?_⟩
    intro hret
    obtain ⟨hfree, hnil, -, -⟩ := hinv.alone hkept hgood.1 hl hit hret
    obtain ⟨deq, hdeq, hunlocked, hnext, hempty, hinv'⟩ :=
      hinv.goes hT hkept hgood.1 hl hit hret (LineRun.newIo a)
    refine ⟨⟨hfree, hinv.balanced.comes hit.enters⟩, deq, hdeq, hunlocked, hnext, ?_, ?_⟩
    · exact .of_eq (hempty.trans hnil.symm)
    · rw [hempty]
      exact hinv'
  finishes := by
    intro g l done size app hinv hl hdone
    obtain ⟨out, hout, hd⟩ := hT.dequeue (LineRun.completeIo done size app) hinv.formed
    exact ⟨out, hout, hinv.finishes hl hdone hd⟩
  thread := by
    intro g l t hinv ht
    obtain ⟨hq, hbooks, hformed⟩ := hT.thread hinv.formed ht
    exact ⟨hq, hformed, hbooks ▸ hinv.balanced⟩

theorem sound (hT : T.Serves S depth comes runs) (hdepth : 0 ≤ depth) {sched : σ}
    (hq : S.queued sched = []) (hformed : T.Formed sched) (htaken : (T.books sched).taken = 0)
    {s : LineRun σ ι} (h : S.Reachable comes runs sched s) :
    s.Sound S (fun l => Slotted depth l ∧ InOrder T.order l) T.Lined := by
  obtain ⟨appStats, mem, es, hmem, hrun⟩ := h
  exact hT.refines.run
    (.init hq ⟨hformed, .empty htaken⟩ ⟨.empty hdepth, .empty⟩ hmem) hrun

variable {s : LineRun σ ι}

/-- Counter, locks and history of a scheduler by start tag. -/
theorem slots_and_locks (hT : T.Serves S depth comes runs)
    (hs : s.Sound S (fun l => Slotted depth l ∧ InOrder T.order l) T.Lined) :
    (T.books s.g.sched).taken = s.outstanding.length
      ∧ (T.books s.g.sched).taken ≤ depth
      ∧ (S.queued s.g.sched ≠ [] → (T.books s.g.sched).taken = depth)
      ∧ (∀ p, lockedAt s.mem p = true ↔ ∃ it ∈ S.queued s.g.sched, it.socketData.rs = p)
      ∧ (∀ (a : Arrival ι) out, comes a → S.method.schEnqueue a.pool a.si a.pi s.g = .ok out →
        out.ret = true → ∃ it, it.socketData = a.si ∧ S.queued out.globals.sched = [it]
          ∧ ∀ r, ∃ deq, S.method.schDequeue r out.globals = .ok deq ∧ deq.ret = some it)
      ∧ (s.returned ++ S.queued s.g.sched).Perm s.enqueued ∧ s.enqueued.Nodup
      ∧ s.outstanding.Sublist s.returned
      ∧ ∀ item ∈ s.outstanding, ∀ size app,
        ∃ t, s.step S (.complete item size app) = .ok t := by
  obtain ⟨hslots, horder⟩ := hs.good
  have htaken : (T.books s.g.sched).taken = s.outstanding.length := hs.inv.balanced.taken
  refine ⟨htaken, htaken ▸ hslots.bound, fun hne => htaken.trans (hslots.full hne), hs.locked,
    fun a out ha hout hret => ?_, hs.kept.history, horder.accepted_nodup, hs.kept.running,
    fun item hitem size app => hT.refines.complete_returns hs hitem size app⟩
  obtain ⟨it, hit⟩ := hT.enqueue hs.inv.formed ha hout
  obtain ⟨-, -, hone, -⟩ := hs.inv.alone hs.kept hslots rfl hit hret
  refine ⟨it, hit.socketData, hone, fun r => ?_⟩
  obtain ⟨deq, hdeq, -, hnext, -⟩ := hs.inv.goes hT hs.kept hslots rfl hit hret r
  exact ⟨deq, hdeq, hnext⟩

end Serves

theorem service_order (T : StartTags σ ι) {s : LineRun σ ι}
    (hs : s.Sound S (fun l => Slotted depth l ∧ InOrder T.order l) T.Lined) :
    (s.returned.Pairwise fun a b => T.order.tag a ≤ T.order.tag b)
      ∧ (∀ a ∈ s.returned, ∀ b ∈ S.queued s.g.sched, T.order.tag a ≤ T.order.tag b)
      ∧ ∀ app, ofFlow T.order app s.returned <+: ofFlow T.order app s.enqueued := by
  obtain ⟨-, horder⟩ := hs.good
  refine ⟨horder.tags, horder.late, fun app => ?_⟩
  obtain ⟨rest, hrest, -⟩ := horder.order app
  exact ⟨rest, hrest.symm⟩

end StartTags

end PvfsProxy
