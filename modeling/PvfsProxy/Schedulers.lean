import PvfsProxy.Sfqd
import PvfsProxy.Dsfq
import PvfsProxy.Vdsfq
import PvfsProxy.Sfqd2
import PvfsProxy.Sfqd3
import PvfsProxy.SfqdFull
import PvfsProxy.Twolsfqd

/-!
# The registered schedulers

`scheduler_main.c` registers eight schedulers in `static_methods`; a proxy
runs the one its options name. `Scheduler.method` is the table.

`SchedulerMethod.Hands` is what they have in common as far as items go: a hook
gives back an item for every item it was given, and a request that may go at
once finds an item to go with. One of them needs a condition for the latter:
`sfqd3_get_next_request` looks for a start tag below `INT_MAX` among its
applications (`Scheduler.Finds`).
-/

namespace PvfsProxy

variable {σ ι : Type}

/-- The entries of `static_methods`, in order. -/
inductive Scheduler where
  | sfqd | dsfq | vdsfq | sfqd2 | sfqd3 | vdsfq2 | twolsfqd | sfqdFull
deriving Repr, DecidableEq

namespace Scheduler

/-- The file-level variables of the scheduler. -/
abbrev State : Scheduler → Type
  | sfqd => Sfqd
  | dsfq => Dsfq
  | vdsfq => Vdsfq
  | sfqd2 => Sfqd2
  | sfqd3 => Sfqd3
  | vdsfq2 => Vdsfq
  | twolsfqd => Twolsfqd
  | sfqdFull => SfqdFull

/-- The item it embeds in the queue. -/
abbrev Item : Scheduler → Type
  | sfqd => SfqdQueueItem
  | dsfq => DsfqQueueItem
  | vdsfq => VdsfqQueueItem
  | sfqd2 => Sfqd2QueueItem
  | sfqd3 => Sfqd3QueueItem
  | vdsfq2 => VdsfqQueueItem
  | twolsfqd => TwolsfqdQueueItem
  | sfqdFull => SfqdFullQueueItem

/-- What the schedulers call that is not modelled: `get_my_share`, which one
of them calls with all of its arguments, `gettimeofday`, and the
floating-point `sfqdfull_calculate_diff`. -/
structure Environment where
  myShare : Int → Int → Int → Int → Int → Int
  myShareFull : Int → Int → Int → Int → Int → Int → Int
  clock : Nat → Timeval
  calculateDiffFull : Nat → Globals SfqdFull → Int

/-- `static_methods` -/
def method (env : Environment) : (k : Scheduler) → SchedulerMethod k.State k.Item
  | sfqd => schSfqd env.myShare
  | dsfq => schDsfq
  | vdsfq => schVdsfq
  | sfqd2 => schSfqd2 env.myShare
  | sfqd3 => schSfqd3 env.myShare
  | vdsfq2 => schVdsfq2
  | twolsfqd => schTwolsfqd env.clock env.myShare
  | sfqdFull => schSfqdFull env.myShareFull env.calculateDiffFull

/-- A request of the application that may go at once is found in its queue. -/
def Finds : (k : Scheduler) → k.State → Nat → Prop
  | sfqd3, s, app => app < s.numApps ∧ s.nextStart app < intMax
  | _, _, _ => True

end Scheduler

/-- How hooks hand on items. `finds` says of which applications a request that
may go at once is found by the dequeue that follows. -/
structure SchedulerMethod.Hands (m : SchedulerMethod σ ι) (finds : σ → Nat → Prop) : Prop where
  /-- unlocking is left to the framework, unless the scheduler dispatches by itself -/
  enqueueUnlocked : m.schSelfDispatch = false → ∀ {pool si pi g out},
    m.schEnqueue pool si pi g = .ok out → out.unlocked = []
  dequeueUnlocked : m.schSelfDispatch = false → ∀ {r g out},
    m.schDequeue r g = .ok out → out.unlocked = []
  completionUnlocked : m.schSelfDispatch = false → ∀ {message g out},
    m.schUpdateOnRequestCompletion message g = .ok out → out.unlocked = []
  newItem : m.schSelfDispatch = true → ∀ {pool si pi g out},
    m.schEnqueue pool si pi g = .ok out → out.newItem.isSome = true
  entry : m.schSelfDispatch = false → ∀ {pool si pi g out}, m.schEnqueue pool si pi g = .ok out →
    out.ret = true → finds g.sched (pool si.requestSocket).appIndex →
    ∀ {event size app deq}, event = .newIo ∧ size = pi.currentDataSize
        ∨ event = .newMeta ∧ m.schAcceptMeta = true →
      m.schDequeue { event, completeSize := size, lastAppIndex := app, item := none } out.globals
        = .ok deq → deq.ret.isSome = true
  completionItem : ∀ {message g out}, m.schUpdateOnRequestCompletion message g = .ok out →
    message.currentItem.isSome = true → out.ret.1.isSome = true
  sizeItem : ∀ {hook}, m.schCurrentSize = some hook → ∀ {item actual out},
    hook item actual = .ok out → item.isSome = true → out.1.isSome = true
  /-- without differences to compute, a completion counts nothing -/
  completionStats : m.schCalculateDiff = none → m.workConserving = false → ∀ {message g out},
    m.schUpdateOnRequestCompletion message g = .ok out → out.globals = g

/-! ## The table -/

section plain

variable {α : Type}

/-- Most hooks leave the request states alone. -/
theorem plainHook_ok {x : Except Fault (Globals σ × α)} {out : HookResult σ α}
    (h : (do let (g, a) ← x; return ({ globals := g, ret := a } : HookResult σ α)) = .ok out) :
    x = .ok (out.globals, out.ret) ∧ out.unlocked = [] := by
  obtain ⟨⟨g, a⟩, hx, h⟩ := Machine.bind_eq_ok.mp h
  obtain rfl := Machine.pure_eq_ok.mp h
  exact ⟨hx, rfl⟩

theorem plainEnqueue_ok {x : Except Fault (Globals σ × Bool)} {out : EnqueueResult σ ι}
    (h : (do let (g, b) ← x; return ({ globals := g, ret := b } : EnqueueResult σ ι))
      = .ok out) : x = .ok (out.globals, out.ret) ∧ out.unlocked = [] := by
  obtain ⟨⟨g, b⟩, hx, h⟩ := Machine.bind_eq_ok.mp h
  obtain rfl := Machine.pure_eq_ok.mp h
  exact ⟨hx, rfl⟩

/-- Most completion hooks only write to the item. -/
theorem plainCompletion_ok {x : Except Fault (GenericQueueItem ι × Int)} {g : Globals σ}
    {out : HookResult σ (Option (GenericQueueItem ι) × Int)}
    (h : (do
        let (item, got) ← x
        return ({ globals := g, ret := (some item, got) } : HookResult σ _)) = .ok out) :
    out.globals = g ∧ out.unlocked = [] ∧ out.ret.1.isSome = true := by
  obtain ⟨⟨item, got⟩, -, h⟩ := Machine.bind_eq_ok.mp h
  obtain rfl := Machine.pure_eq_ok.mp h
  exact ⟨rfl, rfl, rfl⟩

theorem plainSize_ok {x : Except Fault (GenericQueueItem ι × Int)}
    {out : Option (GenericQueueItem ι) × Int}
    (h : (do let (item, share) ← x; return (some item, share)) = .ok out) :
    out.1.isSome = true := by
  obtain ⟨⟨item, share⟩, -, h⟩ := Machine.bind_eq_ok.mp h
  obtain rfl := Machine.pure_eq_ok.mp h
  rfl

end plain

theorem schSfqd_hands (myShare : Int → Int → Int → Int → Int → Int) :
    (schSfqd myShare).Hands fun _ _ => True where
  enqueueUnlocked _ _ _ _ _ _ h := (plainEnqueue_ok h).2
  dequeueUnlocked _ _ _ _ h := by
    obtain rfl := Except.ok.inj h
    rfl
  completionUnlocked _ _ _ _ h := (plainCompletion_ok h).2.1
  newItem hself := by cases hself
  entry := by
    intro _ pool si pi g out h _ _ event size app deq _ hdeq
    obtain ⟨henq, -⟩ := plainEnqueue_ok h
    have hret : deq.ret = (sfqdDequeue
        { event, completeSize := size, lastAppIndex := app, item := none } out.globals).2 := by
      cases hdeq
      rfl
    obtain ⟨q, finishTag, streamId, -, -, -, hs⟩ := sfqdEnqueue_ok henq
    obtain ⟨hempty, -⟩ | ⟨it, rest, hit, -⟩ := sfqdDequeue_cases
      { event, completeSize := size, lastAppIndex := app, item := none } out.globals
    · rw [Sfqd.queued, hs] at hempty
      simp at hempty
    · rw [hret, hit]
      rfl
  completionItem h _ := (plainCompletion_ok h).2.2
  sizeItem := by
    rintro _ ⟨⟩ item actual out h _
    exact plainSize_ok h
  completionStats _ hwork := by cases hwork

theorem schDsfq_hands : schDsfq.Hands fun _ _ => True where
  enqueueUnlocked _ _ _ _ _ _ h := (plainEnqueue_ok h).2
  dequeueUnlocked _ _ _ _ h := by
    obtain rfl := Except.ok.inj h
    rfl
  completionUnlocked _ _ _ _ h := (plainCompletion_ok h).2.1
  newItem hself := by cases hself
  entry := by
    intro _ pool si pi g out h _ _ event size app deq _ hdeq
    obtain ⟨henq, -⟩ := plainEnqueue_ok h
    have hret : deq.ret = (dsfqDequeue
        { event, completeSize := size, lastAppIndex := app, item := none } out.globals).2 := by
      cases hdeq
      rfl
    obtain ⟨it, hit⟩ := dsfqEnqueue_ok henq
    obtain ⟨q, -, hq⟩ := hit.queue
    obtain ⟨hempty, -⟩ | ⟨next, rest, hnext, -⟩ := dsfqDequeue_cases
      { event, completeSize := size, lastAppIndex := app, item := none } out.globals
    · rw [Dsfq.queued, hq] at hempty
      simp at hempty
    · rw [hret, hnext]
      rfl
  completionItem h _ := (plainCompletion_ok h).2.2
  sizeItem hhook := by cases hhook
  completionStats _ hwork := by cases hwork

/-- An enqueue that lets a request go has left an item in the queue. -/
theorem vdsfqEnqueue_queue {pool : Nat → Endpoint} {si : SocketInfo} {pi : PvfsInfo}
    {g g' : Globals Vdsfq} (h : vdsfqEnqueue pool si pi g = .ok (g', true)) :
    ∃ a l, g'.sched.llistQueue = some (a :: l) := by
  obtain ⟨⟨startTag, finishTag⟩, -, h⟩ := Machine.bind_eq_ok.mp h
  obtain ⟨⟨s, dispatched⟩, hinsert, h⟩ := Machine.bind_eq_ok.mp h
  obtain ⟨rfl, rfl⟩ := Prod.mk.inj (Machine.pure_eq_ok.mp h)
  unfold vdsfqInsert at hinsert
  dsimp only at hinsert ⊢
  generalize hq : (vdsfqAnnounce (pool si.requestSocket).appIndex _).llistQueue = queue at hinsert
  cases queue with
  | none => cases hinsert
  | some q =>
      simp only [pintLlistAddToTail, ne_eq, not_true_eq_false, if_false] at hinsert
      split at hinsert
      · obtain ⟨rfl, -⟩ := Prod.mk.inj (Except.ok.inj hinsert)
        cases q with
        | nil => exact ⟨_, _, rfl⟩
        | cons a l => exact ⟨_, _, rfl⟩
      · cases (Prod.mk.inj (Except.ok.inj hinsert)).2

theorem schVdsfq_hands : schVdsfq.Hands fun _ _ => True where
  enqueueUnlocked _ _ _ _ _ _ h := (plainEnqueue_ok h).2
  dequeueUnlocked _ _ _ _ h := by
    obtain rfl := Except.ok.inj h
    rfl
  completionUnlocked _ _ _ _ h := (plainCompletion_ok h).2.1
  newItem hself := by cases hself
  entry := by
    intro _ pool si pi g out h hret _ event size app deq _ hdeq
    obtain ⟨henq, -⟩ := plainEnqueue_ok h
    rw [hret] at henq
    obtain ⟨a, l, hq⟩ := vdsfqEnqueue_queue henq
    have hret : deq.ret = (vdsfqDequeue
        { event, completeSize := size, lastAppIndex := app, item := none } out.globals).2 := by
      cases hdeq
      rfl
    rw [hret]
    simp [vdsfqDequeue, hq, pintLlistHead, pintLlistRem_head]
  completionItem h _ := (plainCompletion_ok h).2.2
  sizeItem hhook := by cases hhook
  completionStats _ hwork := by cases hwork

/-- The hooks are those of `sch_vdsfq`. -/
theorem schVdsfq2_hands : schVdsfq2.Hands fun _ _ => True where
  enqueueUnlocked := schVdsfq_hands.enqueueUnlocked
  dequeueUnlocked := schVdsfq_hands.dequeueUnlocked
  completionUnlocked := schVdsfq_hands.completionUnlocked
  newItem := schVdsfq_hands.newItem
  entry := schVdsfq_hands.entry
  completionItem := schVdsfq_hands.completionItem
  sizeItem := schVdsfq_hands.sizeItem
  completionStats _ _ _ _ _ h := (plainCompletion_ok h).1

theorem schSfqd2_hands (myShare : Int → Int → Int → Int → Int → Int) :
    (schSfqd2 myShare).Hands fun _ _ => True where
  enqueueUnlocked _ _ _ _ _ _ h := (plainEnqueue_ok h).2
  dequeueUnlocked _ _ _ _ h := (plainHook_ok h).2
  completionUnlocked _ _ _ _ h := (plainCompletion_ok h).2.1
  newItem hself := by cases hself
  entry := by
    intro _ pool si pi g out h _ _ event size app deq hevent hdeq
    obtain ⟨henq, -⟩ := plainEnqueue_ok h
    obtain ⟨hnext, -⟩ := plainHook_ok hdeq
    rcases hevent with ⟨-, rfl⟩ | ⟨-, hmeta⟩
    · obtain ⟨it, hit⟩ := sfqd2Enqueue_ok henq
      have hdequeued := sfqd2Dequeue_ok hnext
      by_contra hnone
      rw [Bool.not_eq_true, Option.isSome_eq_false_iff, Option.isNone_iff_eq_none] at hnone
      have hperm := hit.queued
      rw [hdequeued.empty hnone] at hperm
      exact absurd hperm.symm.eq_nil (by simp)
    · cases hmeta
  completionItem h _ := (plainCompletion_ok h).2.2
  sizeItem := by
    rintro _ ⟨⟩ item actual out h _
    exact plainSize_ok h
  completionStats _ hwork := by cases hwork

theorem schSfqd3_hands (myShare : Int → Int → Int → Int → Int → Int) :
    (schSfqd3 myShare).Hands (Scheduler.Finds .sfqd3) where
  enqueueUnlocked _ _ _ _ _ _ h := (plainEnqueue_ok h).2
  dequeueUnlocked _ _ _ _ h := (plainHook_ok h).2
  completionUnlocked _ _ _ _ h := (plainCompletion_ok h).2.1
  newItem hself := by cases hself
  entry := by
    intro _ pool si pi g out h hret hfinds event size app deq hevent hdeq
    obtain ⟨henq, -⟩ := plainEnqueue_ok h
    obtain ⟨hnext, -⟩ := plainHook_ok hdeq
    obtain ⟨it, hit⟩ := sfqd3Enqueue_ok henq
    obtain ⟨hempty, hopen⟩ := hit.dispatched.mp hret
    have hqueued := hit.queued
    rw [hempty] at hqueued
    rcases hevent with ⟨rfl, -⟩ | ⟨-, hmeta⟩
    · refine sfqd3NextRequest_isSome hnext (hit.same.numApps ▸ hfinds.1) hopen ?_ ?_
      · intro hnil
        rw [hnil] at hqueued
        exact absurd hqueued.symm.eq_nil (by simp)
      · intro it' hit'
        obtain rfl := List.mem_singleton.mp (hqueued.mem_iff.mp hit')
        rw [hit.startTag]
        exact hfinds.2
    · cases hmeta
  completionItem h _ := (plainCompletion_ok h).2.2
  sizeItem := by
    rintro _ ⟨⟩ item actual out h _
    exact plainSize_ok h
  completionStats hdiff := by cases hdiff

theorem schSfqdFull_hands (myShare : Int → Int → Int → Int → Int → Int → Int)
    (calculateDiff : Nat → Globals SfqdFull → Int) :
    (schSfqdFull myShare calculateDiff).Hands fun _ _ => True where
  enqueueUnlocked _ _ _ _ _ _ h := (plainEnqueue_ok h).2
  dequeueUnlocked _ _ _ _ h := by
    obtain rfl := Except.ok.inj h
    rfl
  completionUnlocked := by
    intro _ message g out h
    obtain ⟨ret, -, h⟩ := Machine.bind_eq_ok.mp h
    obtain rfl := Machine.pure_eq_ok.mp h
    rfl
  newItem hself := by cases hself
  entry := by
    intro _ pool si pi g out h hret _ event size app deq hevent hdeq
    obtain ⟨henq, -⟩ := plainEnqueue_ok h
    rw [hret] at henq
    obtain ⟨q, finishTag, streamId, small, l, -, -, -, hs, hdispatched⟩ := sfqdFullEnqueue_ok henq
    generalize hr : ({ event, completeSize := size, lastAppIndex := app, item := none } :
      DequeueReason SfqdFullQueueItem) = r at hdeq
    have hnot : r.event ≠ .completeIo := by
      rw [← hr]
      rcases hevent with ⟨rfl, -⟩ | ⟨rfl, -⟩
      · simp
      · simp
    have hdret : deq.ret = (sfqdFullDequeue r out.globals).2 := by
      cases hdeq
      rfl
    have hfinish : out.globals.sched.finish r = out.globals.sched :=
      if_neg fun h => hnot h.1
    have hreduce : out.globals.sched.reduceDepth r = 0 := if_neg hnot
    have hl : out.globals.sched.llistQueue = some l := by rw [hs]
    -- the scan of the enqueue has found an item that fits
    obtain ⟨next, hnext⟩ : ∃ next, l.find? (out.globals.sched.fits 0) = some next := by
      rw [eq_comm, Bool.and_eq_true] at hdispatched
      obtain ⟨next, hnext, -⟩ := (Option.any_eq_true _ _).mp hdispatched.2
      exact ⟨next, hnext⟩
    have hin : ∃ it, pintLlistRem (some l) next.itemId listReqComp = (some it, some
        (l.eraseP fun item => listReqComp next.itemId item == 0)) := by
      have hsome : (l.find? fun item => listReqComp next.itemId item == 0).isSome = true := by
        rw [List.find?_isSome]
        exact ⟨next, List.mem_of_find?_eq_some hnext, by simp [listReqComp]⟩
      obtain ⟨it, hit⟩ := Option.isSome_iff_exists.mp hsome
      exact ⟨it, by rw [pintLlistRem, hit]⟩
    obtain ⟨it, hrem⟩ := hin
    rw [hdret]
    simp [sfqdFullDequeue, hfinish, hreduce, hl, hnext, hrem]
  completionItem := by
    intro message g out h hsome
    obtain ⟨ret, hret, h⟩ := Machine.bind_eq_ok.mp h
    obtain rfl := Machine.pure_eq_ok.mp h
    obtain ⟨it, hit⟩ := Option.isSome_iff_exists.mp hsome
    unfold sfqdFullUpdateOnRequestCompletion at hret
    rw [hit] at hret
    dsimp only at hret ⊢
    split at hret
    · obtain rfl := Except.ok.inj hret
      rfl
    · split at hret
      · obtain rfl := Except.ok.inj hret
        rfl
      · split at hret
        · obtain rfl := Except.ok.inj hret
          rfl
        · obtain rfl := Except.ok.inj hret
          rfl
  sizeItem := by
    rintro _ ⟨⟩ item actual out h hsome
    obtain ⟨it, rfl⟩ := Option.isSome_iff_exists.mp hsome
    obtain rfl := Except.ok.inj h
    rfl
  completionStats _ hwork := by cases hwork

theorem schTwolsfqd_hands (clock : Nat → Timeval)
    (myShare : Int → Int → Int → Int → Int → Int) :
    (schTwolsfqd clock myShare).Hands fun _ _ => True where
  enqueueUnlocked hself := by cases hself
  dequeueUnlocked hself := by cases hself
  completionUnlocked hself := by cases hself
  newItem := by
    intro _ pool si pi g out h
    obtain ⟨⟨g', item⟩, -, h⟩ := Machine.bind_eq_ok.mp h
    obtain ⟨⟨c, locked⟩, -, h⟩ := Machine.bind_eq_ok.mp h
    obtain rfl := Machine.pure_eq_ok.mp h
    rfl
  entry hself := by cases hself
  completionItem := by
    intro message g out h _
    replace h : twolsfqdEdfComplete clock message g = .ok out := h
    unfold twolsfqdEdfComplete at h
    split at h
    · cases h
    · dsimp only at h
      split at h
      · obtain ⟨⟨c, dispatched⟩, -, h⟩ := Machine.bind_eq_ok.mp h
        obtain rfl := Machine.pure_eq_ok.mp h
        rfl
      · split at h
        · obtain rfl := Except.ok.inj h
          rfl
        · obtain rfl := Except.ok.inj h
          rfl
  sizeItem := by
    rintro _ ⟨⟩ item actual out h _
    exact plainSize_ok h
  completionStats _ hwork := by cases hwork

theorem Scheduler.hands (env : Scheduler.Environment) (k : Scheduler) :
    (k.method env).Hands k.Finds := by
  cases k with
  | sfqd => exact schSfqd_hands _
  | dsfq => exact schDsfq_hands
  | vdsfq => exact schVdsfq_hands
  | sfqd2 => exact schSfqd2_hands _
  | sfqd3 => exact schSfqd3_hands _
  | vdsfq2 => exact schVdsfq2_hands
  | twolsfqd => exact schTwolsfqd_hands _ _
  | sfqdFull => exact schSfqdFull_hands _ _

end PvfsProxy
