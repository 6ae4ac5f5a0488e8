import Mathlib.Algebra.Order.Ring.Int
import Mathlib.Algebra.Order.BigOperators.Group.List
import Mathlib.Data.Finset.Prod
import Mathlib.Data.Int.Interval
import Mathlib.Tactic.Abel
import Mathlib.Data.List.TakeWhile
import Mathlib.Data.List.Pairwise
import Mathlib.Data.List.Induction
import Mathlib.Data.List.Perm.Basic
import PvfsProxy.Dsfq
import PvfsProxy.Lib.Bypass

/-!
# Starvation in DSFQ

Every call of `dsfq_enqueue` and `dsfq_dequeue` is a step of the least-tag
discipline, whatever the other proxies report in between: an application is a
flow for its requests of at least 1024 bytes a unit of weight, which move its
clock on. A smaller request adds nothing to its finish tag, so it is a flow of
its own, which it uses once.

A waiting request is then passed by a number of later requests that grows only
with the small ones that arrive (`dsfq_bypass`). A stream of small requests of
an application whose clock stands still passes it without end.
-/

namespace PvfsProxy

open StableSort Bypass

/-- Any sequence of calls, and of entries received from the other proxies. -/
structure DsfqCalls where
  g : Globals Dsfq
  enqueued : List DsfqItem
  dispatched : List DsfqItem

/-- The request's cost adds nothing to its start tag. -/
def DsfqQueueItem.Small (e : DsfqQueueItem) : Prop := e.taskSize < e.weight * dsfqReducer

instance (e : DsfqQueueItem) : Decidable e.Small :=
  inferInstanceAs (Decidable (e.taskSize < e.weight * dsfqReducer))

namespace DsfqCalls

inductive Call where
  | enqueue (pool : Nat → Endpoint) (si : SocketInfo) (pi : PvfsInfo)
  | dequeue (r : DequeueReason DsfqQueueItem)
  | receive (appIndex : Nat) (periodCount : Int)

/-- A request of less than 1024 bytes a unit of weight. -/
def Call.Small : Call → Prop
  | .enqueue pool si pi => pi.currentDataSize < (pool si.requestSocket).weight * dsfqReducer
  | .dequeue _ => False
  | .receive .. => False

instance : DecidablePred Call.Small := fun c =>
  match c with
  | .enqueue pool si pi => inferInstanceAs (Decidable
      (pi.currentDataSize < (pool si.requestSocket).weight * dsfqReducer))
  | .dequeue _ => inferInstanceAs (Decidable False)
  | .receive .. => inferInstanceAs (Decidable False)

def step (s : DsfqCalls) : Call → Except Fault DsfqCalls
  | .enqueue pool si pi => do
    let (g, _) ← dsfqEnqueue pool si pi s.g
    return { s with
      g := g
      enqueued := s.enqueued ++ g.sched.queued.drop s.g.sched.queued.length }
  | .dequeue r =>
    let (g, item) := dsfqDequeue r s.g
    .ok { s with g := g, dispatched := s.dispatched ++ item.toList }
  | .receive appIndex periodCount => .ok { s with g := dsfqReceive appIndex periodCount s.g }

/-- The requests of `numApps` applications of positive weight; lengths and the
byte counts of the other proxies are not negative. -/
def InApps (numApps : Nat) (_ : DsfqCalls) : Call → Prop
  | .enqueue pool si pi =>
    0 < (pool si.requestSocket).weight ∧ (pool si.requestSocket).appIndex < numApps
      ∧ 0 ≤ pi.currentDataSize
  | .dequeue _ => True
  | .receive appIndex periodCount => appIndex < numApps ∧ 0 ≤ periodCount

instance (numApps : Nat) (s : DsfqCalls) (c : Call) : Decidable (s.InApps numApps c) :=
  match c with
  | .enqueue pool si pi => inferInstanceAs (Decidable
      (0 < (pool si.requestSocket).weight ∧ (pool si.requestSocket).appIndex < numApps
        ∧ 0 ≤ pi.currentDataSize))
  | .dequeue _ => inferInstanceAs (Decidable True)
  | .receive appIndex periodCount =>
    inferInstanceAs (Decidable (appIndex < numApps ∧ 0 ≤ periodCount))

def init (depth threshold : Int) (appStats : Nat → AppStatistics) : DsfqCalls where
  g := { sched := dsfqInit depth threshold, appStats, totalThroughput := 0 }
  enqueued := []
  dispatched := []

end DsfqCalls

/-! ## The state as one of the discipline -/

/-- A small request is a flow of its own, the others of an application are one. -/
def dsfqKeys : Keys DsfqItem (Nat × Option Int) where
  flow it := (it.embedded.appIndex, if it.embedded.Small then some it.itemId else none)
  tag it := it.embedded.startTag
  born it := it.itemId

/-- The clock of a small request stands behind it once it has come. -/
def DsfqCalls.clock (s : DsfqCalls) : Nat × Option Int → Int
  | (app, none) => s.g.sched.lastFinishTags app
  | (_, some id) =>
    match s.enqueued.find? fun it => it.itemId == id with
    | some it => it.embedded.startTag + 1
    | none => s.g.sched.virtualTime

def DsfqCalls.waiting (s : DsfqCalls) : Bypass.State DsfqItem (Nat × Option Int) where
  vtime := s.g.sched.virtualTime
  clock := s.clock
  queue := s.g.sched.queued

/-- A request that is not small moves its application's clock on. -/
theorem advance_pos {length weight : Int} (hw : 0 < weight) (h : weight * dsfqReducer ≤ length) :
    0 < Dsfq.advance length weight := by
  have hpos : (0 : Int) < dsfqReducer := by decide
  have hnn : 0 ≤ length := (Int.mul_nonneg hw.le hpos.le).trans h
  have h₁ : dsfqReducer ≤ length.tdiv weight := by
    rw [Int.tdiv_eq_ediv_of_nonneg hnn]
    exact (Int.le_ediv_iff_mul_le hw).mpr (by rwa [mul_comm])
  unfold Dsfq.advance
  rw [Int.tdiv_eq_ediv_of_nonneg (hpos.le.trans h₁)]
  have h₂ : 1 ≤ length.tdiv weight / dsfqReducer :=
    (Int.le_ediv_iff_mul_le hpos).mpr (by rwa [one_mul])
  omega

structure DsfqCalls.Numbered (numApps : Nat) (s : DsfqCalls) : Prop where
  list : LazyQueue dsfqKeys (!s.g.sched.newItemAdded) s.g.sched.queued
  timely : Timely dsfqKeys s.waiting
  delay : ∀ app, 0 ≤ (s.g.sched.stats app).dsfqDelayValues
  ids : s.enqueued.Pairwise fun a b => a.itemId < b.itemId
  fresh : ∀ it ∈ s.enqueued, it.itemId < s.g.sched.itemId
  apps : ∀ it ∈ s.enqueued, it.embedded.appIndex < numApps
  queued : s.g.sched.queued ⊆ s.enqueued

namespace DsfqCalls

variable {numApps : Nat} {s t : DsfqCalls} {cs : List Call}

theorem Numbered.init {depth threshold : Int} {appStats : Nat → AppStatistics} :
    Numbered numApps (DsfqCalls.init depth threshold appStats) where
  list := .nil
  timely := by
    intro it hit
    cases hit
  delay _ := Int.le_refl 0
  ids := .nil
  fresh := by
    intro it hit
    cases hit
  apps := by
    intro it hit
    cases hit
  queued := List.nil_subset _

/-- A number not given out yet has the virtual time for its clock. -/
theorem clock_fresh {app : Nat} {id : Int} (h : ∀ it ∈ s.enqueued, it.itemId ≠ id) :
    s.clock (app, some id) = s.g.sched.virtualTime := by
  have hnone : (s.enqueued.find? fun it => it.itemId == id) = none := by
    refine List.find?_eq_none.mpr ?_
    intro it hit
    simpa using h it hit
  simp only [clock, hnone]

/-- Another number's clock is what it was when a request comes. -/
theorem clock_of_ne {it : DsfqItem} {app : Nat} {id : Int} (hid : it.itemId ≠ id)
    (henq : t.enqueued = s.enqueued ++ [it])
    (hv : t.g.sched.virtualTime = s.g.sched.virtualTime) :
    t.clock (app, some id) = s.clock (app, some id) := by
  have hfind : (t.enqueued.find? fun it => it.itemId == id)
      = s.enqueued.find? fun it => it.itemId == id := by
    rw [henq, List.find?_append, List.find?_singleton, if_neg (by simpa using hid), Option.or_none]
  simp only [clock, hfind, hv]

theorem clock_self {it : DsfqItem} {app : Nat} (hfresh : ∀ c ∈ s.enqueued, c.itemId < it.itemId)
    (henq : t.enqueued = s.enqueued ++ [it]) :
    t.clock (app, some it.itemId) = it.embedded.startTag + 1 := by
  have hfind : (t.enqueued.find? fun c => c.itemId == it.itemId) = some it := by
    have hnone : (s.enqueued.find? fun c => c.itemId == it.itemId) = none := by
      refine List.find?_eq_none.mpr ?_
      intro c hc
      simpa using (hfresh c hc).ne
    rw [henq, List.find?_append, hnone, List.find?_singleton, if_pos (by simp)]
    rfl
  simp only [clock, hfind]

theorem step_enqueue {pool : Nat → Endpoint} {si : SocketInfo} {pi : PvfsInfo}
    (hstep : s.step (.enqueue pool si pi) = .ok t) :
    ∃ b, dsfqEnqueue pool si pi s.g = .ok (t.g, b) ∧ t.dispatched = s.dispatched
      ∧ ∀ it, DsfqEnqueued pool si pi s.g.sched t.g.sched b it →
        t.enqueued = s.enqueued ++ [it] := by
  obtain ⟨⟨g, b⟩, henq, hstep⟩ := Machine.bind_eq_ok.mp hstep
  obtain rfl := Machine.pure_eq_ok.mp hstep
  refine ⟨b, henq, rfl, fun it hit => ?_⟩
  show s.enqueued ++ g.sched.queued.drop s.g.sched.queued.length = _
  rw [show g.sched.queued = _ from hit.queued, List.drop_left]

section enqueue

variable {pool : Nat → Endpoint} {si : SocketInfo} {pi : PvfsInfo} {b : Bool} {it : DsfqItem}

theorem small_iff (hit : DsfqEnqueued pool si pi s.g.sched t.g.sched b it) :
    it.embedded.Small ↔ (Call.enqueue pool si pi).Small := by
  show it.embedded.taskSize < it.embedded.weight * dsfqReducer ↔ _
  rw [hit.taskSize, hit.itemWeight]
  rfl

theorem Numbered.younger (hn : Numbered numApps s)
    (hit : DsfqEnqueued pool si pi s.g.sched t.g.sched b it) :
    ∀ c ∈ s.enqueued, c.itemId < it.itemId := by
  intro c hc
  rw [hit.id]
  exact hn.fresh c hc

/-- The clocks of the small requests: only that of the item moves. -/
theorem Numbered.small_clock (hn : Numbered numApps s)
    (hit : DsfqEnqueued pool si pi s.g.sched t.g.sched b it)
    (henq : t.enqueued = s.enqueued ++ [it]) (hlate : s.g.sched.virtualTime ≤ it.embedded.startTag)
    (app : Nat) (id : Int) : s.clock (app, some id) ≤ t.clock (app, some id) := by
  have hfresh := hn.younger hit
  by_cases hid : it.itemId = id
  · rw [← hid, clock_self hfresh henq, clock_fresh fun c hc => (hfresh c hc).ne]
    omega
  · rw [clock_of_ne hid henq hit.virtualTime]

theorem Numbered.arrives (hn : Numbered numApps s)
    (hok : s.InApps numApps (.enqueue pool si pi))
    (hit : DsfqEnqueued pool si pi s.g.sched t.g.sched b it)
    (henq : t.enqueued = s.enqueued ++ [it]) : Arrives dsfqKeys s.waiting it t.waiting := by
  obtain ⟨hw, -, hlen⟩ := hok
  obtain ⟨hlate, hlast, hfinish⟩ := hit.tags hn.delay hw hlen
  have hfresh := hn.younger hit
  exact
    { vtime := hit.virtualTime
      late := hlate
      clock := by
        show s.clock (it.embedded.appIndex, if it.embedded.Small then some it.itemId else none)
          ≤ it.embedded.startTag
        split
        · rw [clock_fresh fun c hc => (hfresh c hc).ne]
          exact hlate
        · exact hlast
      advance := by
        show it.embedded.startTag
          < t.clock (it.embedded.appIndex, if it.embedded.Small then some it.itemId else none)
        split
        · rw [clock_self hfresh henq]
          omega
        · rename_i hbig
          show it.embedded.startTag < t.g.sched.lastFinishTags it.embedded.appIndex
          rw [hit.clock_app, Function.update_self, hit.finishTag]
          have := advance_pos hw (Int.not_lt.mp fun h => hbig ((small_iff hit).mpr h))
          omega
      others := by
        rintro ⟨app, _ | id⟩ -
        · -- the clock of an application only moves on
          show s.g.sched.lastFinishTags app ≤ t.g.sched.lastFinishTags app
          rw [hit.clock_app]
          by_cases happ : app = it.embedded.appIndex
          · rw [happ, Function.update_self]
            omega
          · rw [Function.update_of_ne happ]
        · exact hn.small_clock hit henq hlate app id
      young := fun c hc => hfresh c (hn.queued hc)
      queue := .of_eq hit.queued }

theorem Numbered.enqueue (hn : Numbered numApps s)
    (hok : s.InApps numApps (.enqueue pool si pi))
    (hit : DsfqEnqueued pool si pi s.g.sched t.g.sched b it)
    (henq : t.enqueued = s.enqueued ++ [it]) : Numbered numApps t where
  list := by
    rw [hit.queued, hit.newItemAdded]
    exact hn.list.append fun c hc => hn.younger hit c (hn.queued hc)
  timely := hn.timely.arrive (hn.arrives hok hit henq)
  delay i := by
    rw [hit.delay i]
    split
    · exact Int.le_refl 0
    · exact hn.delay i
  ids := by
    rw [henq]
    refine List.pairwise_append.mpr ⟨hn.ids, List.pairwise_singleton .., ?_⟩
    intro a ha c hc
    rw [List.mem_singleton.mp hc]
    exact hn.younger hit a ha
  fresh := by
    rw [henq, hit.itemId]
    refine List.forall_mem_append.mpr ⟨?_, List.forall_mem_singleton.mpr ?_⟩
    · intro a ha
      have := hn.fresh a ha
      omega
    · rw [hit.id]
      omega
  apps := by
    rw [henq]
    refine List.forall_mem_append.mpr ⟨hn.apps, List.forall_mem_singleton.mpr ?_⟩
    rw [hit.app]
    exact hok.2.1
  queued := by
    rw [hit.queued, henq]
    exact List.append_subset.mpr ⟨fun c hc => List.mem_append_left _ (hn.queued hc),
      fun c hc => List.mem_append_right _ hc⟩

theorem enqueue_arrives (hn : Numbered numApps s)
    (hok : s.InApps numApps (.enqueue pool si pi))
    (hstep : s.step (.enqueue pool si pi) = .ok t) :
    ∃ it, t.enqueued = s.enqueued ++ [it] ∧ t.dispatched = s.dispatched
      ∧ (it.embedded.Small ↔ (Call.enqueue pool si pi).Small)
      ∧ Numbered numApps t ∧ Arrives dsfqKeys s.waiting it t.waiting := by
  obtain ⟨b, henq, hdispatched, henqueued⟩ := step_enqueue hstep
  obtain ⟨it, hit⟩ := dsfqEnqueue_ok henq
  have henq' := henqueued it hit
  exact ⟨it, henq', hdispatched, small_iff hit, hn.enqueue hok hit henq',
    hn.arrives hok hit henq'⟩

end enqueue

/-- A call that enqueues nothing keeps the numbering if it keeps what follows. -/
theorem Numbered.frame (hn : Numbered numApps s) (henq : t.enqueued = s.enqueued)
    (hid : t.g.sched.itemId = s.g.sched.itemId)
    (hdelay : ∀ app, 0 ≤ (t.g.sched.stats app).dsfqDelayValues)
    (hlist : LazyQueue dsfqKeys (!t.g.sched.newItemAdded) t.g.sched.queued)
    (htimely : Timely dsfqKeys t.waiting) (hsub : t.g.sched.queued ⊆ s.g.sched.queued) :
    Numbered numApps t where
  list := hlist
  timely := htimely
  delay := hdelay
  ids := by
    rw [henq]
    exact hn.ids
  fresh := by
    rw [henq, hid]
    exact hn.fresh
  apps := by
    rw [henq]
    exact hn.apps
  queued := by
    rw [henq]
    exact fun _ hc => hn.queued (hsub hc)

theorem Numbered.dequeue_idle (hn : Numbered numApps s) (hnil : s.g.sched.queued = [])
    (henq : t.enqueued = s.enqueued) (hsched : t.g.sched =
      { s.g.sched with
        newItemAdded := false
        currentDepth := s.g.sched.currentDepth - 1
        llistQueue := if s.g.sched.newItemAdded then none else s.g.sched.llistQueue }) :
    Numbered numApps t ∧ t.waiting = s.waiting := by
  have hqueued : t.g.sched.queued = [] := by
    rw [hsched]
    unfold Dsfq.queued at hnil ⊢
    dsimp only
    split
    · rfl
    · exact hnil
  have hsame : t.waiting = s.waiting := by
    unfold waiting
    rw [hqueued, hnil, hsched]
    congr 1
    funext i
    obtain ⟨app, _ | id⟩ := i <;> simp only [clock, hsched, henq]
  refine ⟨hn.frame henq (by rw [hsched]) ?_ ?_ ?_ ?_, hsame⟩
  · intro app
    rw [hsched]
    exact hn.delay app
  · rw [hqueued]
    exact .nil
  · rw [hsame]
    exact hn.timely
  · rw [hqueued]
    exact List.nil_subset _

theorem Numbered.dequeue_least (hn : Numbered numApps s) {it : DsfqItem} {rest : List DsfqItem}
    (hq : if s.g.sched.newItemAdded then StableSorted dsfqLe s.g.sched.queued (it :: rest)
      else s.g.sched.queued = it :: rest)
    (henq : t.enqueued = s.enqueued) (hsched : t.g.sched =
      { s.g.sched with
        newItemAdded := false
        virtualTime := it.embedded.startTag
        stats := Function.update s.g.sched.stats it.embedded.appIndex
          { s.g.sched.stats it.embedded.appIndex with
            dsfqAppDispatch := (s.g.sched.stats it.embedded.appIndex).dsfqAppDispatch + 1 }
        queueSize := s.g.sched.queueSize - 1
        llistQueue := some rest }) :
    Numbered numApps t ∧ Takes dsfqKeys s.waiting it t.waiting := by
  obtain ⟨hperm, hrest, hleast⟩ := hn.list.taken dsfqLe_preorder (fun _ _ => dsfqLe_iff) hq
  have hqueued : t.g.sched.queued = rest := by
    rw [hsched]
    rfl
  have hvtime : s.g.sched.virtualTime ≤ it.embedded.startTag :=
    hn.timely it (hperm.mem_iff.mp (List.mem_cons_self ..))
  have htakes : Takes dsfqKeys s.waiting it t.waiting :=
    { vtime := by
        show t.g.sched.virtualTime = it.embedded.startTag
        rw [hsched]
      clock := by
        rintro ⟨app, _ | id⟩
        · show s.g.sched.lastFinishTags app ≤ t.g.sched.lastFinishTags app
          rw [hsched]
        · show s.clock (app, some id) ≤ t.clock (app, some id)
          simp only [clock, henq]
          split
          · exact Int.le_refl _
          · rw [hsched]
            exact hvtime
      queue := by
        show s.g.sched.queued.Perm (it :: t.g.sched.queued)
        rw [hqueued]
        exact hperm.symm
      least := by
        show ∀ c ∈ t.g.sched.queued, _
        rw [hqueued]
        exact hleast }
  refine ⟨hn.frame henq (by rw [hsched]) ?_ ?_ (Timely.take htakes) ?_, htakes⟩
  · intro app
    rw [hsched]
    by_cases happ : app = it.embedded.appIndex
    · rw [happ]
      simpa using hn.delay it.embedded.appIndex
    · simpa [happ] using hn.delay app
  · rw [hqueued, hsched]
    exact hrest
  · rw [hqueued]
    exact fun c hc => hperm.subset (List.mem_cons_of_mem _ hc)

theorem dequeue_takes {r : DequeueReason DsfqQueueItem} (hn : Numbered numApps s)
    (hstep : s.step (.dequeue r) = .ok t) :
    t.enqueued = s.enqueued ∧ Numbered numApps t
      ∧ ((t.dispatched = s.dispatched ∧ t.waiting = s.waiting)
        ∨ ∃ it, t.dispatched = s.dispatched ++ [it] ∧ Takes dsfqKeys s.waiting it t.waiting) := by
  have ht : t = { s with
      g := (dsfqDequeue r s.g).1
      dispatched := s.dispatched ++ (dsfqDequeue r s.g).2.toList } := (Except.ok.inj hstep).symm
  have henq : t.enqueued = s.enqueued := by rw [ht]
  have hsched : t.g.sched = (dsfqDequeue r s.g).1.sched := by rw [ht]
  have hdispatched : t.dispatched = s.dispatched ++ (dsfqDequeue r s.g).2.toList := by rw [ht]
  obtain ⟨hnil, hret, hs⟩ | ⟨it, rest, hret, hq, hs⟩ := dsfqDequeue_cases r s.g
  · obtain ⟨hn', hsame⟩ := hn.dequeue_idle hnil henq (hsched.trans hs)
    rw [hret, Option.toList_none, List.append_nil] at hdispatched
    exact ⟨henq, hn', .inl ⟨hdispatched, hsame⟩⟩
  · obtain ⟨hn', htakes⟩ := hn.dequeue_least hq henq (hsched.trans hs)
    rw [hret, Option.toList_some] at hdispatched
    exact ⟨henq, hn', .inr ⟨it, hdispatched, htakes⟩⟩

theorem receive_waits {app : Nat} {periodCount : Int} (hn : Numbered numApps s)
    (hcount : 0 ≤ periodCount) (hstep : s.step (.receive app periodCount) = .ok t) :
    t.enqueued = s.enqueued ∧ t.dispatched = s.dispatched ∧ Numbered numApps t
      ∧ t.waiting = s.waiting := by
  obtain rfl := Except.ok.inj hstep
  refine ⟨rfl, rfl, hn.frame rfl rfl ?_ hn.list hn.timely (List.Subset.refl _), rfl⟩
  intro i
  show 0 ≤ (Function.update s.g.sched.stats app _ i).dsfqDelayValues
  by_cases hi : i = app
  · rw [hi, Function.update_self]
    exact Int.add_nonneg (hn.delay app) hcount
  · rw [Function.update_of_ne hi]
    exact hn.delay i

theorem Numbered.run (hn : Numbered numApps s)
    (hrun : Machine.Run (InApps numApps) DsfqCalls.step s cs t) :
    Numbered numApps t ∧ ∃ as ts, t.enqueued = s.enqueued ++ as ∧ t.dispatched = s.dispatched ++ ts
      ∧ (as.countP fun it => it.embedded.Small) = (cs.countP fun c => c.Small)
      ∧ Bypass.Run dsfqKeys s.waiting as ts t.waiting := by
  induction hrun with
  | nil => exact ⟨hn, [], [], by simp, by simp, rfl, .nil⟩
  | @snoc cs t u c _ hok hstep ih =>
      obtain ⟨ht, as, ts, henq, hdisp, hcount, hrun⟩ := ih
      cases c with
      | enqueue pool si pi =>
          obtain ⟨it, henq', hdisp', hsmall, hu, harr⟩ := enqueue_arrives ht hok hstep
          refine ⟨hu, as ++ [it], ts, ?_, hdisp'.trans hdisp, ?_, hrun.arrive harr⟩
          · rw [henq', henq, List.append_assoc]
          · rw [List.countP_append, List.countP_append, hcount, List.countP_singleton,
              List.countP_singleton]
            simp only [hsmall]
      | dequeue r =>
          obtain ⟨henq', hu, ⟨hdisp', hsame⟩ | ⟨it, hdisp', htakes⟩⟩ := dequeue_takes ht hstep
          · refine ⟨hu, as, ts, henq'.trans henq, hdisp'.trans hdisp, ?_, ?_⟩
            · rw [hcount, List.countP_append]
              rfl
            · rw [hsame]
              exact hrun
          · refine ⟨hu, as, ts ++ [it], henq'.trans henq, ?_, ?_, hrun.take htakes⟩
            · rw [hdisp', hdisp, List.append_assoc]
            · rw [hcount, List.countP_append]
              rfl
      | receive app periodCount =>
          obtain ⟨henq', hdisp', hu, hsame⟩ := receive_waits ht hok.2 hstep
          refine ⟨hu, as, ts, henq'.trans henq, hdisp'.trans hdisp, ?_, ?_⟩
          · rw [hcount, List.countP_append]
            rfl
          · rw [hsame]
            exact hrun

/-- The requests dispatched since the state `s`, before `x`, that arrived after
`x`. -/
def passedBy (s t : DsfqCalls) (x : DsfqItem) : List DsfqItem :=
  (before x (t.dispatched.drop s.dispatched.length)).filter fun y => x.itemId < y.itemId

/-- The applications, and every small request that comes. -/
theorem flows_card {as : List DsfqItem} (happs : ∀ a ∈ as, a.embedded.appIndex < numApps) :
    ∃ flows : Finset (Nat × Option Int), (∀ a ∈ as, dsfqKeys.flow a ∈ flows)
      ∧ flows.card ≤ numApps + as.countP fun it => it.embedded.Small := by
  refine ⟨(Finset.range numApps).image (fun app => (app, none))
    ∪ (as.filter fun it => it.embedded.Small).toFinset.image dsfqKeys.flow, ?_, ?_⟩
  · intro a ha
    rw [Finset.mem_union]
    by_cases hsmall : a.embedded.Small
    · right
      refine Finset.mem_image_of_mem _ (List.mem_toFinset.mpr (List.mem_filter.mpr ⟨ha, ?_⟩))
      simpa using hsmall
    · left
      refine Finset.mem_image.mpr ⟨a.embedded.appIndex, Finset.mem_range.mpr (happs a ha), ?_⟩
      simp [dsfqKeys, hsmall]
  · refine (Finset.card_union_le _ _).trans (Nat.add_le_add ?_ ?_)
    · refine Finset.card_image_le.trans ?_
      rw [Finset.card_range]
    · refine Finset.card_image_le.trans ((List.toFinset_card_le _).trans ?_)
      rw [List.countP_eq_length_filter]

end DsfqCalls

/-- **Bypass in DSFQ.** In every continuation of every reachable state, of the
requests that arrive after a waiting request `x` at most those already queued
pass it, and as many others as the small ones among them allow. -/
theorem dsfq_bypass {numApps : Nat} {depth threshold : Int} {appStats : Nat → AppStatistics}
    {cs cs' : List DsfqCalls.Call} {s t : DsfqCalls} {x : DsfqItem}
    (hrun : Machine.Run (DsfqCalls.InApps numApps) DsfqCalls.step
      (.init depth threshold appStats) cs s)
    (hx : x ∈ s.g.sched.queued)
    (hcont : Machine.Run (DsfqCalls.InApps numApps) DsfqCalls.step s cs' t) :
    ((DsfqCalls.passedBy s t x).length : Int) ≤ s.g.sched.queued.length
      + (numApps + (cs'.countP fun c => c.Small) : Nat)
        * (x.embedded.startTag - s.g.sched.virtualTime) := by
  obtain ⟨hnum, as₀, ts₀, henq₀, -, -, hpast⟩ := DsfqCalls.Numbered.init.run hrun
  obtain ⟨hnum', as, ts, henq, hdisp, hcount, hfuture⟩ := hnum.run hcont
  have henq₀ : s.enqueued = as₀ := henq₀
  have hall : t.enqueued.Nodup := hnum'.ids.imp fun hlt heq => by
    rw [heq] at hlt
    exact absurd hlt (lt_irrefl _)
  have hnodup : (s.g.sched.queued ++ as).Nodup := by
    rw [henq, henq₀] at hall
    have hperm : (ts₀ ++ (s.g.sched.queued ++ as)).Perm (as₀ ++ as) := by
      rw [← List.append_assoc]
      exact hpast.perm.append_right _
    exact (List.nodup_append.mp (hperm.nodup_iff.mpr hall)).2.1
  have happs : ∀ a ∈ as, a.embedded.appIndex < numApps := by
    intro a ha
    refine hnum'.apps a ?_
    rw [henq]
    exact List.mem_append_right _ ha
  obtain ⟨flows, hflows, hcard⟩ := DsfqCalls.flows_card happs
  have hnew := hfuture.bypass_arrivals_le hnum.timely hx hnodup hflows
  have hts : ts.Nodup := (List.nodup_append.mp (hfuture.perm.nodup_iff.mpr hnodup)).1
  -- what was queued with `x` passes it at most once each
  have hold : ((before x ts).filter fun y => ¬ y ∈ as).length ≤ s.g.sched.queued.length := by
    refine List.Subperm.length_le (List.subperm_of_subset
      ((hts.sublist (before_sublist _ _)).filter _) ?_)
    intro y hy
    obtain ⟨hb, hnot⟩ := List.mem_filter.mp hy
    rcases List.mem_append.mp (hfuture.perm.subset
      (List.mem_append_left _ (before_subset _ _ hb))) with hq | ha
    · exact hq
    · exact absurd ha (of_decide_eq_true hnot)
  have hsplit : (before x ts).length = ((before x ts).filter fun y => y ∈ as).length
      + ((before x ts).filter fun y => ¬ y ∈ as).length := by
    rw [List.length_eq_length_filter_add fun y => decide (y ∈ as)]
    simp
  have hpassed : (DsfqCalls.passedBy s t x).length ≤ (before x ts).length := by
    unfold DsfqCalls.passedBy
    rw [hdisp, List.drop_left]
    exact List.length_filter_le _ _
  have hgap : 0 ≤ x.embedded.startTag - s.g.sched.virtualTime :=
    Int.sub_nonneg.mpr (hnum.timely x hx)
  have hbound : (((before x ts).filter fun y => y ∈ as).length : Int)
      ≤ (numApps + (cs'.countP fun c => c.Small) : Nat)
        * (x.embedded.startTag - s.g.sched.virtualTime) := by
    refine hnew.trans (Int.mul_le_mul_of_nonneg_right ?_ hgap)
    rw [← hcount]
    exact_mod_cast hcard
  omega

/-! ## A stream of small requests -/

/-- A request of `length` bytes on slot `index`, of application `index` and
weight 1. -/
def dsfqRequest (index : Nat) (length : Int) : DsfqCalls.Call :=
  .enqueue (fun i => { socket := i + 5, appIndex := i, weight := 1 })
    { requestSocket := index, dataSocket := index, appIndex := index, rs := 0 }
    { op := .io, tag := 7, reqSize := 64, currentDataSize := length }

def dsfqCompletion : DequeueReason DsfqQueueItem where
  event := .completeIo
  completeSize := 0
  lastAppIndex := 0
  item := none

namespace DsfqCalls

variable {s t : DsfqCalls} {x : DsfqItem}

/-- `x` waits alone with a start tag ahead of the virtual time, application 1
would start before it, and `n` later requests have passed it. -/
structure BypassReady (s : DsfqCalls) (x : DsfqItem) (n : Nat) (t : DsfqCalls) : Prop where
  run : ∃ cs, Machine.Run (InApps 2) DsfqCalls.step s cs t
  reach : ∃ cs, Machine.Run (InApps 2) DsfqCalls.step (.init 1 10 fun _ => { appWeight := 1 }) cs t
  queue : t.g.sched.llistQueue = some [x]
  full : ¬ t.g.sched.currentDepth < t.g.sched.depth
  early : t.g.sched.nextStart 1 1 < x.embedded.startTag
  past : ∃ ts, t.dispatched = s.dispatched ++ ts
  waits : x ∉ t.dispatched
  passed : n ≤ (passedBy s t x).length

theorem BypassReady.queued {n : Nat} (h : BypassReady s x n t) : t.g.sched.queued = [x] := by
  unfold Dsfq.queued
  rw [h.queue]
  rfl

theorem passedBy_snoc {u : DsfqCalls} {y : DsfqItem} {ts : List DsfqItem}
    (ht : t.dispatched = s.dispatched ++ ts) (hu : u.dispatched = t.dispatched ++ [y])
    (hx : x ∉ u.dispatched) (hlater : x.itemId < y.itemId) :
    passedBy s u x = passedBy s t x ++ [y] := by
  have hsplit : u.dispatched.drop s.dispatched.length
      = t.dispatched.drop s.dispatched.length ++ [y] := by
    rw [hu, ht, List.append_assoc, List.drop_left, List.drop_left]
  have hxt : x ∉ t.dispatched := by
    intro hmem
    rw [hu] at hx
    exact hx (List.mem_append_left _ hmem)
  unfold passedBy
  rw [hsplit, before_of_notMem, before_of_notMem, List.filter_append]
  · simp [hlater]
  · exact fun hmem => hxt (List.mem_of_mem_drop hmem)
  · intro hmem
    rw [← hsplit] at hmem
    exact hx (List.mem_of_mem_drop hmem)

/-- A small request of application 1 arrives while the slots are taken. -/
theorem small_arrives (hq : t.g.sched.llistQueue = some [x])
    (hfull : ¬ t.g.sched.currentDepth < t.g.sched.depth) :
    ∃ y t₁, t.step (dsfqRequest 1 512) = .ok t₁ ∧ t₁.dispatched = t.dispatched
      ∧ t₁.g.sched.queued = [x, y] ∧ t₁.g.sched.newItemAdded = true
      ∧ t₁.g.sched.currentDepth = t.g.sched.currentDepth ∧ t₁.g.sched.depth = t.g.sched.depth
      ∧ y.itemId = t.g.sched.itemId ∧ y.embedded.startTag = t.g.sched.nextStart 1 1
      ∧ t₁.g.sched.lastFinishTags 1 = y.embedded.startTag
      ∧ (t₁.g.sched.stats 1).dsfqDelayValues = 0 := by
  obtain ⟨⟨g₁, b⟩, henq⟩ : ∃ res, dsfqEnqueue
      (fun i => { socket := i + 5, appIndex := i, weight := 1 })
      { requestSocket := 1, dataSocket := 1, appIndex := 1, rs := 0 }
      { op := .io, tag := 7, reqSize := 64, currentDataSize := 512 } t.g = .ok res :=
    dsfqEnqueue_returns _ (by decide) hq
  obtain ⟨y, hy⟩ := dsfqEnqueue_ok henq
  have hqueued : g₁.sched.queued = [x, y] := by
    obtain ⟨q, hq₀, hq'⟩ := hy.queue
    rw [hq] at hq₀
    obtain rfl := Option.some.inj hq₀
    unfold Dsfq.queued
    rw [hq']
    rfl
  have hfinish : y.embedded.finishTag = y.embedded.startTag := by
    rw [hy.finishTag]
    show y.embedded.startTag + Dsfq.advance 512 1 = _
    rw [show Dsfq.advance 512 1 = 0 from rfl, Int.add_zero]
  have hcurrent : g₁.sched.currentDepth = t.g.sched.currentDepth := by
    rw [hy.current, hy.dispatched, decide_eq_false hfull]
    rfl
  have hclock : g₁.sched.lastFinishTags 1 = y.embedded.startTag := by
    rw [hy.clock, Function.update_self, hfinish]
  exact ⟨y, _, Machine.bind_eq_ok.mpr ⟨_, henq, rfl⟩, rfl, hqueued, hy.newItemAdded, hcurrent,
    hy.depth, hy.id, hy.startTag, hclock, (hy.delay 1).trans rfl⟩

/-- The next completion sorts it ahead of `x` and takes it. -/
theorem small_taken {y : DsfqItem} (hq : t.g.sched.queued = [x, y])
    (hadded : t.g.sched.newItemAdded = true) (hlt : y.embedded.startTag < x.embedded.startTag) :
    ∃ u, t.step (.dequeue dsfqCompletion) = .ok u ∧ u.dispatched = t.dispatched ++ [y]
      ∧ u.g.sched.llistQueue = some [x] ∧ u.g.sched.virtualTime = y.embedded.startTag
      ∧ u.g.sched.currentDepth = t.g.sched.currentDepth ∧ u.g.sched.depth = t.g.sched.depth
      ∧ u.g.sched.lastFinishTags = t.g.sched.lastFinishTags
      ∧ ∀ app, (u.g.sched.stats app).dsfqDelayValues = (t.g.sched.stats app).dsfqDelayValues := by
  obtain ⟨hnil, -⟩ | ⟨z, rest, hret, hsort, hs⟩ := dsfqDequeue_cases dsfqCompletion t.g
  · rw [hq] at hnil
    cases hnil
  rw [hadded, if_pos rfl, hq] at hsort
  have hz : z = y := by
    rcases List.mem_cons.mp (hsort.perm.subset (List.mem_cons_self ..)) with rfl | hmem
    · exfalso
      have hmem : y ∈ rest :=
        (List.Perm.cons_inv hsort.perm).mem_iff.mpr (List.mem_cons_self ..)
      have := dsfqLe_iff.mp ((List.pairwise_cons.mp hsort.sorted).1 y hmem)
      omega
    · exact List.mem_singleton.mp hmem
  subst hz
  have hrest : rest = [x] :=
    List.perm_singleton.mp (List.Perm.cons_inv (hsort.perm.trans (List.Perm.swap ..)))
  subst hrest
  refine ⟨{ t with
    g := (dsfqDequeue dsfqCompletion t.g).1
    dispatched := t.dispatched ++ (dsfqDequeue dsfqCompletion t.g).2.toList }, rfl, ?_, ?_⟩
  · rw [hret]
    rfl
  · dsimp only
    rw [hs]
    refine ⟨rfl, rfl, rfl, rfl, rfl, ?_⟩
    intro app
    by_cases happ : app = z.embedded.appIndex
    · simp [happ]
    · simp [happ]

/-- The small request passes `x` and leaves both clocks where they were. -/
theorem bypass_segment {n : Nat} (h : BypassReady s x n t) : ∃ u, BypassReady s x (n + 1) u := by
  obtain ⟨cs, hrun⟩ := h.run
  obtain ⟨cs₀, hreach⟩ := h.reach
  obtain ⟨ts, hpast⟩ := h.past
  obtain ⟨hnum, -⟩ := Numbered.init.run hreach
  obtain ⟨y, t₁, hstep₁, hdisp₁, hq₁, hadded, hcur₁, hdepth₁, hid, hstart, hclock, hdelay⟩ :=
    small_arrives h.queue h.full
  have hok₁ : t.InApps 2 (dsfqRequest 1 512) := by
    show (0 : Int) < 1 ∧ 1 < 2 ∧ (0 : Int) ≤ 512
    decide
  have hlt : y.embedded.startTag < x.embedded.startTag := by
    rw [hstart]
    exact h.early
  obtain ⟨u, hstep₂, hdisp₂, hq₂, hvtime, hcur₂, hdepth₂, hclock₂, hdelay₂⟩ :=
    small_taken hq₁ hadded hlt
  have hok₂ : t₁.InApps 2 (.dequeue dsfqCompletion) := trivial
  have hdisp : u.dispatched = t.dispatched ++ [y] := by rw [hdisp₂, hdisp₁]
  have hlater : x.itemId < y.itemId := by
    rw [hid]
    refine hnum.fresh x (hnum.queued ?_)
    rw [h.queued]
    exact List.mem_cons_self ..
  have hwaits : x ∉ u.dispatched := by
    intro hmem
    rw [hdisp] at hmem
    rcases List.mem_append.mp hmem with hold | hnew
    · exact h.waits hold
    · rw [List.mem_singleton.mp hnew] at hlater
      omega
  refine ⟨u, ?_⟩
  exact
    { run := ⟨_, (hrun.snoc hok₁ hstep₁).snoc hok₂ hstep₂⟩
      reach := ⟨_, (hreach.snoc hok₁ hstep₁).snoc hok₂ hstep₂⟩
      queue := hq₂
      full := by
        rw [hcur₂, hcur₁, hdepth₂, hdepth₁]
        exact h.full
      early := by
        unfold Dsfq.nextStart Dsfq.pendingDelay
        rw [hvtime, hclock₂, hclock, hdelay₂, hdelay]
        show max y.embedded.startTag (y.embedded.startTag + 0) < _
        omega
      past := ⟨ts ++ [y], by rw [hdisp, hpast, List.append_assoc]⟩
      waits := hwaits
      passed := by
        rw [passedBy_snoc hpast hdisp hwaits hlater, List.length_append, List.length_singleton]
        have := h.passed
        omega }

theorem bypass_start : ∃ s x, x ∈ s.g.sched.queued
    ∧ (∃ cs, Machine.Run (InApps 2) DsfqCalls.step (.init 1 10 fun _ => { appWeight := 1 }) cs s)
    ∧ BypassReady s x 0 s := by
  obtain ⟨s, hrun, hs⟩ := Machine.Run.exists_of_exec (InApps 2) DsfqCalls.step
    (.init 1 10 fun _ => { appWeight := 1 })
    [dsfqRequest 0 4096, .dequeue dsfqCompletion, dsfqRequest 0 4096]
    (fun s => (s.g.sched.llistQueue.map fun q => q.map fun x => (x.itemId, x.embedded.startTag),
      s.dispatched.map (·.itemId), s.g.sched.currentDepth, s.g.sched.depth,
      s.g.sched.nextStart 1 1))
    (a := (some [(1, 4)], [0], 1, 1, 0)) (by decide +kernel)
  obtain ⟨hq, hs⟩ := Prod.mk.inj hs
  obtain ⟨hdisp, hs⟩ := Prod.mk.inj hs
  obtain ⟨hcur, hs⟩ := Prod.mk.inj hs
  obtain ⟨hdepth, hnext⟩ := Prod.mk.inj hs
  obtain ⟨q, hq, hmap⟩ := Option.map_eq_some_iff.mp hq
  obtain ⟨x, rfl, hx⟩ := List.map_eq_singleton_iff.mp hmap
  obtain ⟨hid, hstart⟩ := Prod.mk.inj hx
  refine ⟨s, x, ?_, ⟨_, hrun⟩, ?_⟩
  · unfold Dsfq.queued
    rw [hq]
    exact List.mem_cons_self ..
  · exact
      { run := ⟨[], .nil⟩
        reach := ⟨_, hrun⟩
        queue := hq
        full := by
          rw [hcur, hdepth]
          decide
        early := by
          rw [hnext, hstart]
          decide
        past := ⟨[], (List.append_nil _).symm⟩
        waits := by
          intro hmem
          have := List.mem_map_of_mem (f := fun it : DsfqItem => it.itemId) hmem
          rw [hdisp, hid] at this
          exact absurd this (by decide)
        passed := Nat.zero_le _ }

theorem bypass_stream {n : Nat} (h : BypassReady s x 0 s) : ∃ t, BypassReady s x n t := by
  induction n with
  | zero => exact ⟨s, h⟩
  | succ n ih =>
      obtain ⟨t, ht⟩ := ih
      exact bypass_segment ht

end DsfqCalls

/-- No bound holds over all continuations: application 1 sends one request of
512 bytes after the other, all of them tagged as the first. -/
theorem dsfq_bypass_unbounded :
    ¬ ∀ (numApps : Nat) (depth threshold : Int) (appStats : Nat → AppStatistics)
        (cs : List DsfqCalls.Call) (s : DsfqCalls), 1 ≤ depth → 1 ≤ threshold →
        Machine.Run (DsfqCalls.InApps numApps) DsfqCalls.step
          (.init depth threshold appStats) cs s →
        ∀ x ∈ s.g.sched.queued, ∃ B, ∀ cs' t,
          Machine.Run (DsfqCalls.InApps numApps) DsfqCalls.step s cs' t →
          (DsfqCalls.passedBy s t x).length ≤ B := by
  intro hall
  obtain ⟨s, x, hx, ⟨cs, hreach⟩, hready⟩ := DsfqCalls.bypass_start
  obtain ⟨B, hB⟩ := hall 2 1 10 _ cs s (by decide) (by decide) hreach x hx
  obtain ⟨t, ht⟩ := DsfqCalls.bypass_stream (n := B + 1) hready
  obtain ⟨cs', hrun⟩ := ht.run
  have := hB cs' t hrun
  have := ht.passed
  omega

/-- One small request passes `x`, as the bound allows. -/
theorem dsfq_bypass_example :
    ∃ s t x, ∃ cs' : List DsfqCalls.Call, 1 ≤ (DsfqCalls.passedBy s t x).length
      ∧ ((DsfqCalls.passedBy s t x).length : Int) ≤ s.g.sched.queued.length
        + (2 + (cs'.countP fun c => DsfqCalls.Call.Small c) : Nat)
          * (x.embedded.startTag - s.g.sched.virtualTime) := by
  obtain ⟨s, x, hx, ⟨cs, hreach⟩, hready⟩ := DsfqCalls.bypass_start
  obtain ⟨t, ht⟩ := DsfqCalls.bypass_segment hready
  obtain ⟨cs', hrun⟩ := ht.run
  exact ⟨s, t, x, cs', ht.passed, dsfq_bypass hreach hx hrun⟩

end PvfsProxy
