import Mathlib.Algebra.Order.Ring.Int
import Mathlib.Algebra.Order.BigOperators.Group.List
import Mathlib.Data.Finset.Prod
import Mathlib.Data.Int.Interval
import Mathlib.Tactic.Abel
import Mathlib.Data.List.TakeWhile
import Mathlib.Data.List.Pairwise
import Mathlib.Data.List.Induction
import Mathlib.Data.List.Perm.Basic
import PvfsProxy.Lib.StartTimeFair
import PvfsProxy.SfqdSlots

/-!
# Proportional share of SFQD

`sfqd_enqueue` and `sfqd_dequeue`, called in any order, implement start-time
fair queueing. `Sfqd.flows` reads the scheduler's state as a state of that
discipline, an application a flow, and `enqueue_refines` and
`dequeue_refines` show that every call is a step of it.

The lazily sorted list is what the second needs an argument for: an
application's own items are in order already, so the stable sort leaves them
in their order, and the head of the sorted list heads its application.
-/

namespace PvfsProxy

open StableSort

/-- Any sequence of calls of the two functions, with what was enqueued and
what was dispatched. -/
structure SfqdCalls where
  g : Globals Sfqd
  enqueued : List SfqdItem
  dispatched : List SfqdItem

namespace SfqdCalls

inductive Call where
  | enqueue (pool : Nat → Endpoint) (si : SocketInfo) (pi : PvfsInfo)
  | dequeue (r : DequeueReason SfqdQueueItem)

def step (s : SfqdCalls) : Call → Except Fault SfqdCalls
  | .enqueue pool si pi => do
    let (g, _) ← sfqdEnqueue pool si pi s.g
    return { s with
      g := g
      enqueued := s.enqueued ++ g.sched.queued.drop s.g.sched.queued.length }
  | .dequeue r =>
    let (g, item) := sfqdDequeue r s.g
    .ok { s with g := g, dispatched := s.dispatched ++ item.toList }

/-- Weights are positive and lengths are not negative. -/
def Allowed (_ : SfqdCalls) : Call → Prop
  | .enqueue pool si pi => 0 < (pool si.requestSocket).weight ∧ 0 ≤ pi.currentDataSize
  | .dequeue _ => True

instance (s : SfqdCalls) (c : Call) : Decidable (s.Allowed c) :=
  match c with
  | .enqueue pool si pi =>
    inferInstanceAs (Decidable (0 < (pool si.requestSocket).weight ∧ 0 ≤ pi.currentDataSize))
  | .dequeue _ => inferInstanceAs (Decidable True)

def init (depth : Int) (appStats : Nat → AppStatistics) : SfqdCalls where
  g := { sched := sfqdInit depth, appStats, totalThroughput := 0 }
  enqueued := []
  dispatched := []

end SfqdCalls

/-! ## The scheduler's state as one of the discipline -/

/-- What the item costs its application. -/
def SfqdQueueItem.cost (e : SfqdQueueItem) : Int := e.finishTag - e.startTag

def SfqdQueueItem.tag (e : SfqdQueueItem) : StartTimeFair.Tag Int := ⟨e.startTag, e.finishTag⟩

/-- The items of an application. -/
def ofApp (app : Nat) (l : List SfqdItem) : List SfqdItem :=
  l.filter fun it => it.embedded.appIndex == app

theorem ofApp_cons_self (it : SfqdItem) (l : List SfqdItem) :
    ofApp it.embedded.appIndex (it :: l) = it :: ofApp it.embedded.appIndex l := by
  simp [ofApp]

theorem ofApp_cons_of_ne {app : Nat} {it : SfqdItem} (h : app ≠ it.embedded.appIndex)
    (l : List SfqdItem) : ofApp app (it :: l) = ofApp app l := by
  simp [ofApp, h.symm]

/-- Whether the application has an item queued. -/
def Sfqd.Backlogged (s : Sfqd) (app : Nat) : Prop := ofApp app s.queued ≠ []

instance (s : Sfqd) (app : Nat) : Decidable (s.Backlogged app) :=
  inferInstanceAs (Decidable (ofApp app s.queued ≠ []))

/-- One flow an application. -/
def Sfqd.flows (s : Sfqd) : StartTimeFair.State Nat Int where
  vtime := s.virtualTime
  last := s.lastFinishTags
  queue app := (ofApp app s.queued).map fun it => it.embedded.tag

/-- Cost of the items of an application in a list. -/
def service (app : Nat) (l : List SfqdItem) : Int :=
  ((ofApp app l).map fun it => it.embedded.cost).sum

/-- The largest cost of an item of an application in a list. -/
def largestCost (app : Nat) (l : List SfqdItem) : Int :=
  ((ofApp app l).map fun it => it.embedded.cost).foldr max 0

theorem largestCost_nonneg (app : Nat) (l : List SfqdItem) : 0 ≤ largestCost app l := by
  unfold largestCost
  induction (ofApp app l).map fun it => it.embedded.cost with
  | nil => exact le_refl 0
  | cons c cs ih => exact ih.trans (le_max_right ..)

theorem cost_le_largestCost {it : SfqdItem} {l : List SfqdItem} (h : it ∈ l) :
    it.embedded.cost ≤ largestCost it.embedded.appIndex l := by
  have hmem : it.embedded.cost
      ∈ (ofApp it.embedded.appIndex l).map fun it => it.embedded.cost :=
    List.mem_map.mpr ⟨it, List.mem_filter.mpr ⟨h, by simp⟩, rfl⟩
  unfold largestCost
  generalize (ofApp it.embedded.appIndex l).map _ = costs at hmem
  induction costs with
  | nil => cases hmem
  | cons c cs ih =>
      rcases List.mem_cons.mp hmem with heq | htail
      · exact heq ▸ le_max_left ..
      · exact (ih htail).trans (le_max_right ..)

/-- A request costs its application at least one unit. -/
theorem getFinishTag_cost {length weight startTag finishTag : Int} (hw : 0 < weight)
    (h : getFinishTag length weight startTag = .ok finishTag) : startTag + 1 ≤ finishTag := by
  unfold getFinishTag at h
  simp only [hw.ne', if_false] at h
  split at h
  · exact (Except.ok.inj h).le
  · rename_i hlen
    obtain rfl := Except.ok.inj h
    have hlen : weight * reducer ≤ length := not_lt.mp hlen
    have hpos : (0 : Int) < reducer := by decide
    have h₁ : reducer ≤ length.tdiv weight := by
      have hnn : 0 ≤ length := (Int.mul_nonneg hw.le hpos.le).trans hlen
      rw [Int.tdiv_eq_ediv_of_nonneg hnn]
      exact (Int.le_ediv_iff_mul_le hw).mpr (by rwa [mul_comm])
    have h₂ : 1 ≤ (length.tdiv weight).tdiv reducer := by
      rw [Int.tdiv_eq_ediv_of_nonneg (hpos.le.trans h₁)]
      exact (Int.le_ediv_iff_mul_le hpos).mpr (by rwa [one_mul])
    omega

/-! ## Every call is a step of the discipline -/

/-- What the list queue adds to the discipline: once sorted it is in order. -/
def Sfqd.Ordered (s : Sfqd) : Prop :=
  s.sorted = true → s.queued.Pairwise fun a b => sfqdLe a b = true

theorem enqueue_refines {pool : Nat → Endpoint} {si : SocketInfo} {pi : PvfsInfo}
    {g g' : Globals Sfqd} {b : Bool} (h : sfqdEnqueue pool si pi g = .ok (g', b)) :
    ∃ it, g'.sched.queued = g.sched.queued ++ [it] ∧ g'.sched.Ordered
      ∧ g'.sched.flows = g.sched.flows.enqueue it.embedded.appIndex it.embedded.cost
      ∧ getFinishTag pi.currentDataSize (pool si.requestSocket).weight it.embedded.startTag
          = .ok it.embedded.finishTag := by
  obtain ⟨q, finishTag, streamId, hq, hfin, -, hs⟩ := sfqdEnqueue_ok h
  generalize hit : sfqdNewItem pool si pi _ finishTag streamId g.sched.itemId = it at hs
  have happ : (pool si.requestSocket).appIndex = it.embedded.appIndex := by rw [← hit]; rfl
  have hstart : g.sched.nextStart it.embedded.appIndex = it.embedded.startTag := by
    rw [← happ, ← hit]; rfl
  have hfinish : finishTag = it.embedded.finishTag := by rw [← hit]; rfl
  have hqueued : g'.sched.queued = g.sched.queued ++ [it] := by
    simp [Sfqd.queued, hs, hq]
  refine ⟨it, hqueued, fun hsorted => by simp [hs] at hsorted, ?_, ?_⟩
  · have hstart' : g.sched.flows.startTag it.embedded.appIndex = it.embedded.startTag := hstart
    have hcost : it.embedded.startTag + it.embedded.cost = it.embedded.finishTag := by
      unfold SfqdQueueItem.cost
      omega
    simp only [StartTimeFair.State.enqueue, hstart', hcost]
    simp only [Sfqd.flows, StartTimeFair.State.mk.injEq]
    refine ⟨by simp [hs], by simp [hs, happ, hfinish], funext fun app => ?_⟩
    rw [hqueued]
    by_cases heq : app = it.embedded.appIndex
    · subst heq
      simp [ofApp, SfqdQueueItem.tag]
    · simp [ofApp, heq, Ne.symm heq]
  · rw [← hfinish, ← hstart, ← happ]
    exact hfin

/-- The sort leaves every application's items in their order. -/
theorem ofApp_sorted {s : Sfqd} {B : Nat → Int} (hinv : StartTimeFair.Inv B s.flows)
    {l : List SfqdItem} (h : StableSorted sfqdLe s.queued l) (app : Nat) :
    ofApp app l = ofApp app s.queued := by
  refine h.filter_of_sorted sfqdLe_preorder ?_
  have hpair := (hinv.contiguous app).sorted.1
  simp only [Sfqd.flows, List.pairwise_map] at hpair
  exact hpair.imp fun hle => sfqdLe_iff.mpr hle

theorem dequeue_refines {B : Nat → Int} {r : DequeueReason SfqdQueueItem} {g : Globals Sfqd}
    {it : SfqdItem} (hinv : StartTimeFair.Inv B g.sched.flows) (hord : g.sched.Ordered)
    (h : (sfqdDequeue r g).2 = some it) :
    ∃ rest, g.sched.flows.CanDispatch it.embedded.appIndex it.embedded.tag rest
      ∧ (sfqdDequeue r g).1.sched.flows
          = g.sched.flows.dispatch it.embedded.appIndex it.embedded.tag rest
      ∧ (sfqdDequeue r g).1.sched.Ordered := by
  obtain ⟨_, hnone, _⟩ | ⟨it', rest, hit, hq, hs⟩ := sfqdDequeue_cases r g
  · rw [hnone] at h
    cases h
  rw [hit] at h
  cases h
  -- sorted or not, the list the head is taken from is in order and has the same flows
  have hsort : StableSorted sfqdLe g.sched.queued (it :: rest) := by
    split at hq
    · rename_i hsorted
      rw [← hq]
      exact .of_sorted (hord hsorted)
    · exact hq
  have hflow := fun app => ofApp_sorted hinv hsort app
  have hleast := (List.pairwise_cons.mp hsort.sorted).1
  have hqueued : (sfqdDequeue r g).1.sched.queued = rest := by simp [Sfqd.queued, hs]
  refine ⟨(ofApp it.embedded.appIndex rest).map fun it => it.embedded.tag, ⟨?_, ?_⟩, ?_, ?_⟩
  · simp only [Sfqd.flows, ← hflow, ofApp_cons_self, List.map_cons]
  · intro app t' ht'
    obtain ⟨it', hit', rfl⟩ := List.mem_map.mp ht'
    rcases List.mem_cons.mp (hsort.perm.mem_iff.mpr (List.mem_filter.mp hit').1) with rfl | hmem
    · exact le_refl _
    · exact sfqdLe_iff.mp (hleast it' hmem)
  · simp only [StartTimeFair.State.dispatch, Sfqd.flows, StartTimeFair.State.mk.injEq]
    refine ⟨by simp [hs, SfqdQueueItem.tag], by simp [hs], funext fun app => ?_⟩
    rw [hqueued]
    by_cases heq : app = it.embedded.appIndex
    · simp [heq]
    · rw [Function.update_of_ne heq, ← hflow, ofApp_cons_of_ne heq]
  · intro _
    rw [hqueued]
    exact hsort.sorted.of_cons

/-- A dequeue that finds nothing leaves the flows as they are. -/
theorem dequeue_none_refines {r : DequeueReason SfqdQueueItem} {g : Globals Sfqd}
    (h : (sfqdDequeue r g).2 = none) :
    (sfqdDequeue r g).1.sched.flows = g.sched.flows
      ∧ (sfqdDequeue r g).1.sched.Ordered := by
  obtain ⟨hnil, _, hs⟩ | ⟨it, rest, hit, _⟩ := sfqdDequeue_cases r g
  · have hqueued : (sfqdDequeue r g).1.sched.queued = [] := by
      rw [hs]
      unfold Sfqd.queued at hnil ⊢
      dsimp only
      split
      · exact hnil
      · rfl
    refine ⟨?_, fun _ => by rw [hqueued]; exact .nil⟩
    simp only [Sfqd.flows, hqueued, hnil]
    simp only [hs]
  · rw [hit] at h
    cases h

/-! ## Runs -/

namespace SfqdCalls

/-- A call that dispatches has both applications backlogged before and after. -/
def BusyAround (f g : Nat) (s : SfqdCalls) (c : Call) : Prop :=
  s.Allowed c ∧
    match c with
    | .enqueue .. => True
    | .dequeue r => (sfqdDequeue r s.g).2.isSome = true →
        (s.g.sched.Backlogged f ∧ s.g.sched.Backlogged g)
          ∧ (sfqdDequeue r s.g).1.sched.Backlogged f ∧ (sfqdDequeue r s.g).1.sched.Backlogged g

instance (f g : Nat) (s : SfqdCalls) (c : Call) : Decidable (BusyAround f g s c) :=
  match c with
  | .enqueue pool si pi => inferInstanceAs (Decidable (s.Allowed (.enqueue pool si pi) ∧ True))
  | .dequeue r => inferInstanceAs (Decidable (s.Allowed (.dequeue r) ∧
      ((sfqdDequeue r s.g).2.isSome = true →
        (s.g.sched.Backlogged f ∧ s.g.sched.Backlogged g)
          ∧ (sfqdDequeue r s.g).1.sched.Backlogged f ∧ (sfqdDequeue r s.g).1.sched.Backlogged g)))

/-- No item costs more than its application's bound. -/
def Bounded (B : Nat → Int) (s : SfqdCalls) : Prop :=
  ∀ it ∈ s.enqueued, it.embedded.cost ≤ B it.embedded.appIndex

/-- What an allowed call does: an enqueue step of the discipline, a dequeue
with nothing to do, or a dispatch. -/
theorem step_cases {s t : SfqdCalls} {c : Call} (hok : s.Allowed c) (h : s.step c = .ok t) :
    (∃ it, t.enqueued = s.enqueued ++ [it] ∧ t.dispatched = s.dispatched
        ∧ t.g.sched.Ordered ∧ 0 ≤ it.embedded.cost
        ∧ t.g.sched.flows = s.g.sched.flows.enqueue it.embedded.appIndex it.embedded.cost)
    ∨ ∃ r, c = .dequeue r ∧ t.g = (sfqdDequeue r s.g).1 ∧ t.enqueued = s.enqueued
        ∧ t.dispatched = s.dispatched ++ (sfqdDequeue r s.g).2.toList := by
  cases c with
  | enqueue pool si pi =>
      obtain ⟨⟨g, b⟩, henq, h⟩ := Machine.bind_eq_ok.mp h
      obtain rfl := Machine.pure_eq_ok.mp h
      obtain ⟨it, hqueued, hord, hflows, hfin⟩ := enqueue_refines henq
      have hcost := getFinishTag_cost hok.1 hfin
      refine .inl ⟨it, by simp [hqueued], rfl, hord, ?_, hflows⟩
      unfold SfqdQueueItem.cost
      omega
  | dequeue r =>
      obtain rfl := Except.ok.inj h
      exact .inr ⟨r, rfl, rfl, rfl, rfl⟩

/-- The bounds on a later state cover the earlier ones. -/
theorem Bounded.of_step {B : Nat → Int} {s t : SfqdCalls} {c : Call} (hok : s.Allowed c)
    (h : s.step c = .ok t) (ht : Bounded B t) : Bounded B s := by
  obtain ⟨it, henq, -⟩ | ⟨r, -, -, henq, -⟩ := step_cases hok h
  · exact fun it' h' => ht it' (henq ▸ List.mem_append_left _ h')
  · exact fun it' h' => ht it' (henq ▸ h')

/-- The invariants of the discipline and of the list, kept by every call. -/
theorem step_inv {B : Nat → Int} {s t : SfqdCalls} {c : Call} (hok : s.Allowed c)
    (h : s.step c = .ok t) (ht : Bounded B t)
    (hs : StartTimeFair.Inv B s.g.sched.flows ∧ s.g.sched.Ordered) :
    StartTimeFair.Inv B t.g.sched.flows ∧ t.g.sched.Ordered := by
  obtain ⟨it, henq, -, hord, hcost, hflows⟩ | ⟨r, -, hg, -, -⟩ := step_cases hok h
  · rw [hflows]
    exact ⟨hs.1.enqueue hcost (ht it (by simp [henq])), hord⟩
  · rw [hg]
    cases hret : (sfqdDequeue r s.g).2 with
    | none =>
        obtain ⟨hflows, hord⟩ := dequeue_none_refines hret
        exact ⟨hflows ▸ hs.1, hord⟩
    | some it =>
        obtain ⟨rest, hcan, hflows, hord⟩ := dequeue_refines hs.1 hs.2 hret
        exact ⟨hflows ▸ hs.1.dispatch hcan, hord⟩

theorem run_inv {B : Nat → Int} (hB : ∀ app, 0 ≤ B app) {depth : Int}
    {appStats : Nat → AppStatistics} {cs : List Call} {s : SfqdCalls}
    (h : Machine.Run Allowed step (init depth appStats) cs s) (hs : Bounded B s) :
    StartTimeFair.Inv B s.g.sched.flows ∧ s.g.sched.Ordered := by
  refine h.invariant (P := fun s => Bounded B s →
    StartTimeFair.Inv B s.g.sched.flows ∧ s.g.sched.Ordered) (fun _ => ?_) ?_ hs
  · exact ⟨.init hB, fun _ => .nil⟩
  · exact fun s c t ih hok hstep ht => step_inv hok hstep ht (ih (ht.of_step hok hstep))

/-- The calls of a busy interval are busy steps of the discipline, and what
they dispatch is the work of the flows. -/
theorem busy_run {B : Nat → Int} {f g : Nat} {cs : List Call} {s t : SfqdCalls}
    (h : Machine.Run (BusyAround f g) step s cs t) (ht : Bounded B t)
    (hs : Bounded B s → StartTimeFair.Inv B s.g.sched.flows ∧ s.g.sched.Ordered) :
    ∃ l, t.dispatched = s.dispatched ++ l
      ∧ StartTimeFair.Inv B s.g.sched.flows
      ∧ (StartTimeFair.Inv B t.g.sched.flows ∧ t.g.sched.Ordered)
      ∧ StartTimeFair.Busy B f g s.g.sched.flows t.g.sched.flows fun app => service app l := by
  induction h with
  | nil => exact ⟨[], by simp, (hs ht).1, hs ht, .refl⟩
  | @snoc cs t u c h hok hstep ih =>
      obtain ⟨l, hl, hstart, hinv, hbusy⟩ := ih (ht.of_step hok.1 hstep)
      have hinv' := step_inv hok.1 hstep ht hinv
      obtain ⟨it, henq, hdisp, hord, hcost, hflows⟩ | ⟨r, rfl, hg, -, hdisp⟩ :=
        step_cases hok.1 hstep
      · refine ⟨l, hdisp.trans hl, hstart, hinv', ?_⟩
        rw [hflows]
        exact hbusy.enqueue hcost (ht it (by simp [henq]))
      · cases hret : (sfqdDequeue r t.g).2 with
        | none =>
            refine ⟨l, by simp [hdisp, hret, hl], hstart, hinv', ?_⟩
            rw [hg, (dequeue_none_refines hret).1]
            exact hbusy
        | some it =>
            obtain ⟨rest, hcan, hflows, -⟩ := dequeue_refines hinv.1 hinv.2 hret
            obtain ⟨⟨hf, hg₀⟩, hf', hg'⟩ := hok.2 (by simp [hret])
            refine ⟨l ++ [it], by simp [hdisp, hret, hl], hstart, hinv', ?_⟩
            have hback : ∀ {s : Sfqd} {app : Nat}, s.Backlogged app → s.flows.queue app ≠ [] :=
              fun hb => by simpa [Sfqd.flows, Sfqd.Backlogged] using hb
            have hserve : (fun app => service app (l ++ [it]))
                = Function.update (fun app => service app l) it.embedded.appIndex
                    (service it.embedded.appIndex l
                      + (it.embedded.tag.finish - it.embedded.tag.start)) := by
              funext app
              by_cases heq : app = it.embedded.appIndex
              · subst heq
                simp [service, ofApp, SfqdQueueItem.cost, SfqdQueueItem.tag]
              · simp [service, ofApp, heq, Ne.symm heq]
            rw [hserve, hg, hflows]
            exact hbusy.dispatch hcan (hback hf) (hback hg₀) (hflows ▸ hback hf')
              (hflows ▸ hback hg')

end SfqdCalls

/-- **Proportional share.** Over any part of a run during which two
applications have an item queued before and after every dispatch, the work
dispatched for one differs from the work dispatched for the other by at most
the largest costs the two have brought in so far. -/
theorem sfqd_proportional_share {depth : Int} {appStats : Nat → AppStatistics}
    {cs cs' : List SfqdCalls.Call} {s t : SfqdCalls} {f g : Nat}
    (hrun : Machine.Run SfqdCalls.Allowed SfqdCalls.step (.init depth appStats) cs s)
    (hbusy : Machine.Run (SfqdCalls.BusyAround f g) SfqdCalls.step s cs' t) :
    |service f (t.dispatched.drop s.dispatched.length)
        - service g (t.dispatched.drop s.dispatched.length)|
      ≤ largestCost f t.enqueued + largestCost g t.enqueued := by
  let B := fun app => largestCost app t.enqueued
  have hB : ∀ app, 0 ≤ B app := fun app => largestCost_nonneg app _
  have ht : t.Bounded B := fun it hit => cost_le_largestCost hit
  obtain ⟨l, hl, hs, -, hb⟩ := SfqdCalls.busy_run hbusy ht fun hs => SfqdCalls.run_inv hB hrun hs
  rw [hl, List.drop_left]
  exact hb.fair hs hB

/-- Two applications of equal weight with three requests each: two dispatches
in a busy interval. -/
theorem sfqd_proportional_share_example :
    ∃ t : SfqdCalls, t.dispatched.map (·.embedded.appIndex) = [0, 1]
      ∧ |service 0 t.dispatched - service 1 t.dispatched|
          ≤ largestCost 0 t.enqueued + largestCost 1 t.enqueued := by
  let enqueue (index : Nat) : SfqdCalls.Call :=
    .enqueue (sampleArrival index 0).pool (sampleArrival index 0).si (sampleArrival index 0).pi
  let dequeue : SfqdCalls.Call :=
    .dequeue { event := .completeIo, completeSize := 4096, lastAppIndex := 0, item := none }
  obtain ⟨t, hrun, ht⟩ := Machine.Run.exists_of_exec (SfqdCalls.BusyAround 0 1)
    SfqdCalls.step (.init 1 fun _ => { appWeight := 1 })
    [enqueue 1, enqueue 3, enqueue 1, enqueue 3, enqueue 1, enqueue 3, dequeue, dequeue]
    (fun t => t.dispatched.map (·.embedded.appIndex)) (a := [0, 1]) (by decide +kernel)
  exact ⟨t, ht, by simpa [SfqdCalls.init] using sfqd_proportional_share .nil hrun⟩

/-! ## The framework's runs are such calls -/

namespace SfqdRun

/-- Arrivals as the discipline expects them. -/
def Weighted (s : SfqdRun) (e : Event) : Prop :=
  s.Allowed e ∧
    match e with
    | .arrive a => 0 < (a.pool a.index).weight ∧ 0 ≤ a.pi.currentDataSize
    | .complete .. => True

/-- The state as one of calls, with the same history. -/
def calls (s : SfqdRun) : SfqdCalls := ⟨s.g, s.enqueued, s.returned⟩

/-- The calls the framework makes of an arrival or a completion. -/
theorem step_calls {myShare : Int → Int → Int → Int → Int → Int} {s s' : SfqdRun} {e : Event}
    (h : s.step myShare e = .ok s') :
    (∃ a t, e = .arrive a ∧ s.calls.step (.enqueue a.pool a.si a.pi) = .ok t
        ∧ t.enqueued = s'.enqueued ∧ (t = s'.calls ∨ ∃ r, t.step (.dequeue r) = .ok s'.calls))
      ∨ ∃ item size app r, e = .complete item size app
        ∧ s.calls.step (.dequeue r) = .ok s'.calls := by
  cases e with
  | arrive a =>
      have henqueue : ∀ {g₁ b}, sfqdEnqueue a.pool a.si a.pi s.g = .ok (g₁, b) →
          s.calls.step (.enqueue a.pool a.si a.pi)
            = .ok ⟨g₁, s.enqueued ++ g₁.sched.queued.drop s.g.sched.queued.length,
                s.returned⟩ := by
        intro g₁ b henq
        simp only [SfqdCalls.step, calls, henq]
        rfl
      obtain ⟨g₁, ⟨henq, rfl⟩ | ⟨henq, rfl⟩⟩ := arrive_cases h
      · let r : DequeueReason SfqdQueueItem :=
          { event := .newIo, completeSize := a.pi.currentDataSize, lastAppIndex := a.si.appIndex,
            item := none }
        exact .inl ⟨a, _, rfl, henqueue henq, rfl, .inr ⟨r, rfl⟩⟩
      · exact .inl ⟨a, _, rfl, henqueue henq, rfl, .inl rfl⟩
  | complete item size app =>
      obtain ⟨⟨g, mem, next⟩, hdisp, h⟩ := Machine.bind_eq_ok.mp h
      obtain rfl := Machine.pure_eq_ok.mp h
      obtain ⟨rfl, rfl⟩ := dispatchNext_globals hdisp
      let r : DequeueReason SfqdQueueItem :=
        { event := .completeIo, completeSize := size, lastAppIndex := app, item := some item }
      exact .inr ⟨item, size, app, r, rfl, rfl⟩

/-- What the framework makes of its arrivals and completions is a sequence of
calls, with the same history. -/
theorem exists_calls {myShare : Int → Int → Int → Int → Int → Int} {depth : Int}
    {appStats : Nat → AppStatistics} {mem : Mem SfqdQueueItem} {es : List Event} {s : SfqdRun}
    (h : Machine.Run Weighted (step myShare) (init depth appStats mem) es s) :
    ∃ cs, Machine.Run SfqdCalls.Allowed SfqdCalls.step (.init depth appStats) cs
      ⟨s.g, s.enqueued, s.returned⟩ := by
  induction h with
  | nil => exact ⟨[], .nil⟩
  | snoc h hok hstep ih =>
      obtain ⟨cs, hcs⟩ := ih
      obtain ⟨a, t, rfl, henq, -, rfl | ⟨r, hdeq⟩⟩ | ⟨item, size, app, r, rfl, hdeq⟩ :=
        step_calls hstep
      · exact ⟨_, hcs.snoc (e := SfqdCalls.Call.enqueue a.pool a.si a.pi) hok.2 henq⟩
      · exact ⟨_, (hcs.snoc (e := SfqdCalls.Call.enqueue a.pool a.si a.pi) hok.2 henq).snoc
          (e := SfqdCalls.Call.dequeue r) trivial hdeq⟩
      · exact ⟨_, hcs.snoc (e := SfqdCalls.Call.dequeue r) trivial hdeq⟩

end SfqdRun

end PvfsProxy
