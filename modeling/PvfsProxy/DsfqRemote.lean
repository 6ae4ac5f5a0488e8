import Mathlib.Tactic.Ring
import PvfsProxy.DsfqBypass

/-!
# What the other proxies served

The bytes another proxy reports for an application are added up in
`dsfq_delay_values` until the next request of the application comes, which is
charged for them in units of `weight * 1024`. The accumulator then starts at 0
again, so that the rest of the division is not charged to anyone: every request
may drop up to one unit less a byte, and no more (`dsfq_remote_service`).
-/

namespace PvfsProxy

namespace DsfqCalls

/-- The bytes received for an application. -/
def received (app : Nat) (cs : List Call) : Int :=
  (cs.map fun c =>
    match c with
    | .receive appIndex periodCount => if appIndex = app then periodCount else 0
    | _ => 0).sum

def requestsOf (app : Nat) (s : DsfqCalls) : List DsfqItem :=
  s.enqueued.filter fun it => it.embedded.appIndex == app

/-- What has been applied to its start tags, in units of weight. -/
def applied (app : Nat) (s : DsfqCalls) : Int :=
  ((s.requestsOf app).map fun it => it.embedded.delayValue).sum

/-- The application has this weight, and only bytes are received for it. -/
def OfWeight (app : Nat) (weight : Int) (_ : DsfqCalls) : Call → Prop
  | .enqueue pool si _ =>
    (pool si.requestSocket).appIndex = app → (pool si.requestSocket).weight = weight
  | .dequeue _ => True
  | .receive appIndex periodCount => appIndex = app → 0 ≤ periodCount

instance (app : Nat) (weight : Int) (s : DsfqCalls) (c : Call) :
    Decidable (s.OfWeight app weight c) :=
  match c with
  | .enqueue pool si _ => inferInstanceAs (Decidable
      ((pool si.requestSocket).appIndex = app → (pool si.requestSocket).weight = weight))
  | .dequeue _ => inferInstanceAs (Decidable True)
  | .receive appIndex periodCount => inferInstanceAs (Decidable (appIndex = app → 0 ≤ periodCount))

theorem received_snoc (app : Nat) (cs : List Call) (c : Call) :
    received app (cs ++ [c]) = received app cs + received app [c] := by
  unfold received
  rw [List.map_append, List.sum_append]

end DsfqCalls

/-- The item that an enqueue appends carries the delay that was applied to it. -/
theorem dsfqEnqueue_delay {pool : Nat → Endpoint} {si : SocketInfo} {pi : PvfsInfo}
    {g g' : Globals Dsfq} {b : Bool} (h : dsfqEnqueue pool si pi g = .ok (g', b)) :
    ∃ it, DsfqEnqueued pool si pi g.sched g'.sched b it
      ∧ it.embedded.delayValue = g.sched.pendingDelay (pool si.requestSocket).appIndex
          (pool si.requestSocket).weight := by
  obtain ⟨it, hit⟩ := dsfqEnqueue_ok h
  refine ⟨it, hit, ?_⟩
  obtain ⟨⟨s₁, delay⟩, hdelay, h⟩ := Machine.bind_eq_ok.mp h
  obtain ⟨⟨s₂, b'⟩, hinsert, h⟩ := Machine.bind_eq_ok.mp h
  obtain ⟨rfl, rfl⟩ := Prod.mk.inj (Machine.pure_eq_ok.mp h)
  obtain ⟨-, hd, hsame, -⟩ := dsfqTakeDelay_ok hdelay
  obtain ⟨q, hq, -, hs⟩ := dsfqInsert_ok hinsert
  obtain ⟨q', hq', hadded⟩ := hit.queue
  have hcount := dsfqCount_frame (pool si.requestSocket).appIndex pi.currentDataSize g.sched
  rw [Globals.modifyApp_sched] at hd hsame
  have hdelay' : delay = g.sched.pendingDelay (pool si.requestSocket).appIndex
      (pool si.requestSocket).weight := by
    rw [hd]
    unfold Dsfq.pendingDelay
    rw [hcount.2]
  generalize hnew : dsfqNewItem .. = new at hinsert hs
  have hvalue : new.embedded.delayValue = delay := by
    rw [← hnew]
    rfl
  -- the list ends with the new item, so that is the one
  have hlists : q' ++ [it] = q ++ [new] := by
    have hlist := congrArg Dsfq.llistQueue hs
    exact Option.some.inj (hadded.symm.trans hlist)
  obtain ⟨-, hlast⟩ := List.append_inj' hlists rfl
  rw [(List.cons.inj hlast).1, hvalue, hdelay']

namespace DsfqCalls

/-- What a request drops is what is left of the division. -/
theorem delay_split {bytes unit : Int} (hbytes : 0 ≤ bytes) (hunit : 0 < unit) :
    0 ≤ bytes - unit * bytes.tdiv unit ∧ bytes - unit * bytes.tdiv unit ≤ unit - 1 := by
  rw [Int.tdiv_eq_ediv_of_nonneg hbytes]
  have hsplit := Int.mul_ediv_add_emod bytes unit
  have hlo := Int.emod_nonneg bytes hunit.ne'
  have hhi := Int.emod_lt_of_pos bytes hunit
  omega

/-- What has been received and is neither still accumulated nor applied. -/
def lost (app : Nat) (weight : Int) (cs : List Call) (s : DsfqCalls) : Int :=
  received app cs - (s.g.sched.stats app).dsfqDelayValues - weight * dsfqReducer * s.applied app

structure Accounted (app : Nat) (weight : Int) (cs : List Call) (s : DsfqCalls) : Prop where
  delay : 0 ≤ (s.g.sched.stats app).dsfqDelayValues
  nonneg : 0 ≤ s.lost app weight cs
  le : s.lost app weight cs ≤ (weight * dsfqReducer - 1) * (s.requestsOf app).length

variable {app : Nat} {weight : Int} {cs : List Call} {s t : DsfqCalls}

theorem requestsOf_snoc (app : Nat) {it : DsfqItem} (h : t.enqueued = s.enqueued ++ [it]) :
    t.requestsOf app
      = if it.embedded.appIndex = app then s.requestsOf app ++ [it] else s.requestsOf app := by
  unfold requestsOf
  rw [h, List.filter_append, List.filter_singleton]
  split
  · rename_i happ
    rw [beq_iff_eq.mpr happ, cond_true]
  · rename_i happ
    rw [beq_false_of_ne happ, cond_false, List.append_nil]

/-- A call that receives nothing and leaves the application's requests and its delay alone
loses nothing. -/
theorem Accounted.frame (h : Accounted app weight cs s) {c : Call} (hc : received app [c] = 0)
    (hdelay : (t.g.sched.stats app).dsfqDelayValues = (s.g.sched.stats app).dsfqDelayValues)
    (hrequests : t.requestsOf app = s.requestsOf app) : Accounted app weight (cs ++ [c]) t := by
  have hlost : t.lost app weight (cs ++ [c]) = s.lost app weight cs := by
    unfold lost applied
    rw [received_snoc, hc, hdelay, hrequests, Int.add_zero]
  exact ⟨hdelay ▸ h.delay, hlost ▸ h.nonneg, by rw [hlost, hrequests]; exact h.le⟩

/-- A request of the application drops what is left of the division. -/
theorem Accounted.charged (hweight : 0 < weight) (h : Accounted app weight cs s) {c : Call}
    (hc : received app [c] = 0) {it : DsfqItem}
    (happlied : it.embedded.delayValue = s.g.sched.pendingDelay app weight)
    (hdelay : (t.g.sched.stats app).dsfqDelayValues = 0)
    (hrequests : t.requestsOf app = s.requestsOf app ++ [it]) :
    Accounted app weight (cs ++ [c]) t := by
  have hsum : t.applied app = s.applied app + it.embedded.delayValue := by
    unfold applied
    rw [hrequests]
    simp
  have hlost : t.lost app weight (cs ++ [c])
      = s.lost app weight cs + ((s.g.sched.stats app).dsfqDelayValues
        - weight * dsfqReducer
          * (s.g.sched.stats app).dsfqDelayValues.tdiv (weight * dsfqReducer)) := by
    unfold lost
    rw [received_snoc, hc, hsum, happlied, hdelay]
    unfold Dsfq.pendingDelay
    ring
  have hrest := delay_split h.delay (Int.mul_pos hweight (by decide : 0 < dsfqReducer))
  have hnonneg := h.nonneg
  have hle := h.le
  refine ⟨hdelay.ge, by rw [hlost]; omega, ?_⟩
  rw [hlost, hrequests, List.length_append, Int.natCast_add, Int.mul_add]
  show _ ≤ _ + (weight * dsfqReducer - 1) * 1
  omega

theorem Accounted.enqueue (hweight : 0 < weight) {pool : Nat → Endpoint} {si : SocketInfo}
    {pi : PvfsInfo} (h : Accounted app weight cs s)
    (hok : s.OfWeight app weight (.enqueue pool si pi))
    (hstep : s.step (.enqueue pool si pi) = .ok t) :
    Accounted app weight (cs ++ [.enqueue pool si pi]) t := by
  obtain ⟨b, henq, -, henqueued⟩ := step_enqueue hstep
  obtain ⟨it, hit, happlied⟩ := dsfqEnqueue_delay henq
  have hrequests := requestsOf_snoc app (henqueued it hit)
  have hdelay := hit.delay app
  by_cases happ : (pool si.requestSocket).appIndex = app
  · rw [if_pos happ.symm] at hdelay
    rw [if_pos (hit.app.trans happ)] at hrequests
    rw [hok happ, happ] at happlied
    exact h.charged hweight rfl happlied hdelay hrequests
  · rw [if_neg (Ne.symm happ)] at hdelay
    rw [if_neg (hit.app ▸ happ)] at hrequests
    exact h.frame rfl hdelay hrequests

theorem Accounted.dequeue {r : DequeueReason DsfqQueueItem} (h : Accounted app weight cs s) :
    Accounted app weight (cs ++ [.dequeue r])
      { s with
        g := (dsfqDequeue r s.g).1
        dispatched := s.dispatched ++ (dsfqDequeue r s.g).2.toList } := by
  refine h.frame rfl ?_ rfl
  show ((dsfqDequeue r s.g).1.sched.stats app).dsfqDelayValues = _
  obtain ⟨-, -, hs⟩ | ⟨it, rest, -, -, hs⟩ := dsfqDequeue_cases r s.g
  · rw [hs]
  · rw [hs]
    by_cases happ : app = it.embedded.appIndex
    · subst happ
      simp
    · simp [happ]

theorem Accounted.receive {appIndex : Nat} {periodCount : Int} (h : Accounted app weight cs s)
    (hok : s.OfWeight app weight (.receive appIndex periodCount)) :
    Accounted app weight (cs ++ [.receive appIndex periodCount])
      { s with g := dsfqReceive appIndex periodCount s.g } := by
  have hdelay : ((dsfqReceive appIndex periodCount s.g).sched.stats app).dsfqDelayValues
      = (s.g.sched.stats app).dsfqDelayValues + received app [.receive appIndex periodCount] := by
    unfold dsfqReceive received
    rw [Globals.modifyApp_sched]
    by_cases happ : app = appIndex
    · subst happ
      simp [Dsfq.modifyStats]
    · simp [Dsfq.modifyStats, happ, Ne.symm happ]
  have hbytes : 0 ≤ received app [.receive appIndex periodCount] := by
    unfold received
    by_cases happ : appIndex = app
    · simpa [happ] using hok happ
    · simp [happ]
  -- what came is still in the delay
  have hlost : DsfqCalls.lost app weight (cs ++ [.receive appIndex periodCount])
      { s with g := dsfqReceive appIndex periodCount s.g } = s.lost app weight cs := by
    unfold lost applied requestsOf
    rw [received_snoc, hdelay]
    ring
  have hsum := h.delay
  exact ⟨by rw [hdelay]; omega, by rw [hlost]; exact h.nonneg, by rw [hlost]; exact h.le⟩

theorem Accounted.step (hweight : 0 < weight) {c : Call} (h : Accounted app weight cs s)
    (hok : s.OfWeight app weight c) (hstep : s.step c = .ok t) :
    Accounted app weight (cs ++ [c]) t := by
  cases c with
  | enqueue pool si pi => exact h.enqueue hweight hok hstep
  | dequeue r =>
      obtain rfl := Except.ok.inj hstep
      exact h.dequeue
  | receive appIndex periodCount =>
      obtain rfl := Except.ok.inj hstep
      exact h.receive hok

end DsfqCalls

end PvfsProxy
