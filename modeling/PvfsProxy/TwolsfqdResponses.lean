import PvfsProxy.Lib.CumulativeQuantile
import PvfsProxy.TwolsfqdWindows

/-!
# The response times of 2LSFQD

`twolsfqd_edf_complete` lists the response times of each application, and the window
thread makes a percentile of every list: the time at which the sum of the list, sorted,
comes to 95 percent of the response times of all applications together. The lists hold
what was answered in the window, so that no more than one application gets anything but
its longest time.

When requests were dispatched, what is outstanding and how long it has been are arguments
of the steps.
-/

namespace PvfsProxy

open StableSort CumulativeQuantile

/-- The file-level variables about response times, in milliseconds. -/
structure TwolsfqdResponses where
  iedfLlistResp : Nat → PintLlist Int
  timewindowCompleted : Nat → Int
  timewindowTotalResp : Int
  timewindow95Percentile : Nat → Int
  lastTimewindow95Percentile : Nat → Int

/-- After `twolsfqd_init`. -/
def twolsfqdResponsesInit : TwolsfqdResponses where
  iedfLlistResp _ := pintLlistNew
  timewindowCompleted _ := 0
  timewindowTotalResp := 0
  timewindow95Percentile _ := 0
  lastTimewindow95Percentile _ := 0

/-- What `twolsfqd_edf_complete` records for a request that is complete. -/
def twolsfqdRecord (app : Nat) (respTime : Int) (r : TwolsfqdResponses) : TwolsfqdResponses :=
  { r with
    timewindowCompleted :=
      Function.update r.timewindowCompleted app (r.timewindowCompleted app + 1)
    timewindowTotalResp := r.timewindowTotalResp + respTime
    iedfLlistResp := Function.update r.iedfLlistResp app
      (pintLlistAddToTail (r.iedfLlistResp app) respTime).2 }

/-! ## `nintyfive_percentile` -/

def listRespSortComp (a b : Int) : Int := a - b

theorem totalPreorder_listResp : TotalPreorder (compLe listRespSortComp) :=
  totalPreorder_sub fun t => t

/-- `timewindow_nintyfive`. The product with 0.95 in double precision has this integral
part for every `int`. -/
def timewindowNintyfive (total : Int) : Int := (95 * total).tdiv 100

/-- The loop through `count` sorted times. -/
def percentileLoop (app : Nat) (nintyfive : Int) :
    Nat → List Int → Int → TwolsfqdResponses → TwolsfqdResponses
  | 0, _, _, r => r
  | _ + 1, [], _, r => r
  | count + 1, itemTime :: respList, cumulativetime, r =>
    let cumulativetime := cumulativetime + itemTime
    let r := { r with
      lastTimewindow95Percentile :=
        Function.update r.lastTimewindow95Percentile app (r.timewindow95Percentile app)
      timewindow95Percentile := Function.update r.timewindow95Percentile app itemTime }
    if cumulativetime ≥ nintyfive then r
    else percentileLoop app nintyfive count respList cumulativetime r

/-- The loop through the request states of a socket: the times since the application's
requests there were dispatched, up to as many as are outstanding. -/
def outstandingLoop (currentOutstanding : Int) :
    List Int → Int → PintLlist Int → Int × PintLlist Int
  | [], found, jtime => (found, jtime)
  | respTime :: head, found, jtime =>
    let jtime := pintLlistSort (pintLlistAddToTail jtime respTime).2 listRespSortComp
    if found + 1 ≥ currentOutstanding then (found + 1, jtime)
    else outstandingLoop currentOutstanding head (found + 1) jtime

/-- The loop through the sockets, which goes on when enough were found. -/
def outstandingTimes (currentOutstanding : Int) :
    List (List Int) → Int → PintLlist Int → PintLlist Int
  | [], _, jtime => jtime
  | head :: sockets, found, jtime =>
    let (found, jtime) := outstandingLoop currentOutstanding head found jtime
    outstandingTimes currentOutstanding sockets found jtime

/-- What `nintyfive_percentile` is called with: how many requests of each application are
outstanding, and how long on each socket. -/
structure TwolsfqdOutstanding where
  currentOutstanding : Nat → Int
  times : Nat → List (List Int)

/-- A turn of `nintyfive_percentile`. -/
def percentileTurn (nintyfive : Int) (o : TwolsfqdOutstanding) (r : TwolsfqdResponses)
    (app : Nat) : TwolsfqdResponses :=
  if r.timewindowCompleted app ≠ 0 then
    match pintLlistSort (r.iedfLlistResp app) listRespSortComp with
    | none | some [] => r
    | some respList =>
      percentileLoop app nintyfive (r.timewindowCompleted app).toNat respList 0
        { r with iedfLlistResp := Function.update r.iedfLlistResp app (some respList) }
  else if o.currentOutstanding app ≠ 0 then
    match outstandingTimes (o.currentOutstanding app) (o.times app) 0 pintLlistNew with
    | none | some [] => r
    | some jtime => percentileLoop app nintyfive (o.currentOutstanding app).toNat jtime 0 r
  else
    { r with timewindow95Percentile := Function.update r.timewindow95Percentile app 0 }

def nintyfivePercentile (numApps : Nat) (o : TwolsfqdOutstanding) (r : TwolsfqdResponses) :
    TwolsfqdResponses :=
  (List.range numApps).foldl (percentileTurn (timewindowNintyfive r.timewindowTotalResp) o) r

/-- What `twolsfqd_time_window` clears for the next window. -/
def twolsfqdClearResponses (numApps : Nat) (r : TwolsfqdResponses) : TwolsfqdResponses :=
  { r with
    timewindowTotalResp := 0
    timewindowCompleted := fun app => if app < numApps then 0 else r.timewindowCompleted app
    iedfLlistResp := fun app => if app < numApps then pintLlistNew else r.iedfLlistResp app }

section percentile

variable {app other : Nat} {nintyfive : Int} {o : TwolsfqdOutstanding} {r : TwolsfqdResponses}

theorem percentileLoop_eq : ∀ (count : Nat) (respList : List Int) (cumulativetime : Int)
    (r : TwolsfqdResponses),
    (percentileLoop app nintyfive count respList cumulativetime r).timewindow95Percentile
      = Function.update r.timewindow95Percentile app
        ((scan nintyfive (respList.take count) cumulativetime).getD
          (r.timewindow95Percentile app))
  | 0, _, _, r => by
      rw [List.take_zero]
      exact (Function.update_eq_self ..).symm
  | _ + 1, [], _, r => by
      rw [List.take_nil]
      exact (Function.update_eq_self ..).symm
  | count + 1, itemTime :: respList, cumulativetime, r => by
      rw [percentileLoop, List.take_succ_cons, scan]
      split
      · rfl
      · rw [percentileLoop_eq count respList]
        dsimp only
        rw [Function.update_self, Function.update_idem]
        cases scan nintyfive (respList.take count) (cumulativetime + itemTime) with
        | none => rfl
        | some time => rfl

theorem percentileLoop_lists : ∀ (count : Nat) (respList : List Int) (cumulativetime : Int)
    (r : TwolsfqdResponses),
    (percentileLoop app nintyfive count respList cumulativetime r).iedfLlistResp
        = r.iedfLlistResp
      ∧ (percentileLoop app nintyfive count respList cumulativetime r).timewindowCompleted
        = r.timewindowCompleted
  | 0, _, _, _ => ⟨rfl, rfl⟩
  | _ + 1, [], _, _ => ⟨rfl, rfl⟩
  | count + 1, itemTime :: respList, cumulativetime, r => by
      rw [percentileLoop]
      split
      · exact ⟨rfl, rfl⟩
      · exact percentileLoop_lists count respList _ _

/-- A turn is about one application. -/
theorem percentileTurn_other (nintyfive : Int) (o : TwolsfqdOutstanding) (r : TwolsfqdResponses)
    (hne : other ≠ app) :
    (percentileTurn nintyfive o r app).timewindow95Percentile other
        = r.timewindow95Percentile other
      ∧ (percentileTurn nintyfive o r app).iedfLlistResp other = r.iedfLlistResp other
      ∧ (percentileTurn nintyfive o r app).timewindowCompleted other
        = r.timewindowCompleted other := by
  unfold percentileTurn
  split
  · split
    · exact ⟨rfl, rfl, rfl⟩
    · exact ⟨rfl, rfl, rfl⟩
    · rw [percentileLoop_eq, (percentileLoop_lists ..).1, (percentileLoop_lists ..).2,
        Function.update_of_ne hne]
      exact ⟨rfl, Function.update_of_ne hne .., rfl⟩
  · split
    · split
      · exact ⟨rfl, rfl, rfl⟩
      · exact ⟨rfl, rfl, rfl⟩
      · rw [percentileLoop_eq, (percentileLoop_lists ..).1, (percentileLoop_lists ..).2,
          Function.update_of_ne hne]
        exact ⟨rfl, rfl, rfl⟩
    · exact ⟨Function.update_of_ne hne .., rfl, rfl⟩

/-- The times of an application with answers are scanned in order. -/
theorem percentileTurn_answered {times : List Int} (htimes : r.iedfLlistResp app = some times)
    (hlength : (times.length : Int) = r.timewindowCompleted app) (hne : times ≠ [])
    (hnonneg : ∀ t ∈ times, 0 ≤ t) :
    Quantile times nintyfive ((percentileTurn nintyfive o r app).timewindow95Percentile app) := by
  obtain ⟨sorted, hsort, hsorted⟩ :=
    pintLlistSort_spec totalPreorder_listResp hne
  have hsortedNe : sorted ≠ [] := by
    rintro rfl
    exact hne (List.nil_perm.mp hsorted.perm)
  have hcompleted : r.timewindowCompleted app ≠ 0 := by
    have hpos := List.length_pos_iff.mpr hne
    omega
  have htake : sorted.take (r.timewindowCompleted app).toNat = sorted := by
    refine List.take_of_length_le ?_
    rw [hsorted.perm.length_eq]
    omega
  have hordered : sorted.Pairwise (· ≤ ·) := by
    refine hsorted.sorted.imp ?_
    intro a b hab
    have hle : a - b ≤ 0 := of_decide_eq_true hab
    omega
  obtain ⟨v, hv⟩ := Option.isSome_iff_exists.mp (scan_isSome nintyfive hsortedNe 0)
  have hpercentile : (percentileTurn nintyfive o r app).timewindow95Percentile app = v := by
    unfold percentileTurn
    rw [if_pos hcompleted, htimes, hsort]
    cases sorted with
    | nil => exact absurd rfl hsortedNe
    | cons time sorted =>
        dsimp only
        rw [percentileLoop_eq, htake, hv, Function.update_self]
        rfl
  rw [hpercentile]
  exact (scan_quantile hordered (fun t ht => hnonneg t (hsorted.perm.subset ht)) hv).of_perm
    hsorted.perm

theorem percentileTurns_other (nintyfive : Int) (o : TwolsfqdOutstanding) {apps : List Nat}
    (happ : app ∉ apps) (r : TwolsfqdResponses) :
    (apps.foldl (percentileTurn nintyfive o) r).timewindow95Percentile app
        = r.timewindow95Percentile app
      ∧ (apps.foldl (percentileTurn nintyfive o) r).iedfLlistResp app = r.iedfLlistResp app
      ∧ (apps.foldl (percentileTurn nintyfive o) r).timewindowCompleted app
        = r.timewindowCompleted app := by
  induction apps generalizing r with
  | nil => exact ⟨rfl, rfl, rfl⟩
  | cons first apps ih =>
      obtain ⟨hfirst, happ⟩ := List.ne_and_not_mem_of_not_mem_cons happ
      obtain ⟨hpercentile, hlist, hcompleted⟩ := ih happ (percentileTurn nintyfive o r first)
      obtain ⟨hpercentile', hlist', hcompleted'⟩ :=
        percentileTurn_other nintyfive o r hfirst
      exact ⟨hpercentile.trans hpercentile', hlist.trans hlist', hcompleted.trans hcompleted'⟩

/-- The turns of the applications do not meet. -/
theorem percentileTurns_answered {times : List Int} (hne : times ≠ [])
    (hnonneg : ∀ t ∈ times, 0 ≤ t) {apps : List Nat} (happs : apps.Nodup) (happ : app ∈ apps) :
    ∀ {r : TwolsfqdResponses}, r.iedfLlistResp app = some times →
      (times.length : Int) = r.timewindowCompleted app →
      Quantile times nintyfive
        ((apps.foldl (percentileTurn nintyfive o) r).timewindow95Percentile app) := by
  induction apps with
  | nil => cases happ
  | cons first apps ih =>
      intro r htimes hlength
      obtain ⟨hfirst, happs⟩ := List.nodup_cons.mp happs
      rw [List.foldl_cons]
      rcases List.mem_cons.mp happ with rfl | happ
      · rw [(percentileTurns_other nintyfive o hfirst _).1]
        exact percentileTurn_answered htimes hlength hne hnonneg
      · have hne : app ≠ first := fun heq => hfirst (heq ▸ happ)
        obtain ⟨-, hlist, hcompleted⟩ := percentileTurn_other nintyfive o _ hne
        exact ih happs happ (hlist.trans htimes) (hlength.trans hcompleted.symm)

end percentile

/-! ## What counts completions

`timewindow_ttl_completed` is raised by `twolsfqd_edf_complete` and cleared at the end of a
window; a dispatch leaves it alone. -/

section completions

variable {clock : Nat → Timeval} {dequeueAll : TwolsfqdCall → Except Fault TwolsfqdCall}
  {enqueuedSocket : Int} {c c' : TwolsfqdCall} {dispatched : Bool}

theorem twolsfqdEdfDequeue_completed (c : TwolsfqdCall) :
    (twolsfqdEdfDequeue c).1.sched.timewindowTtlCompleted = c.sched.timewindowTtlCompleted := by
  unfold twolsfqdEdfDequeue
  split
  · rfl
  · split
    · rfl
    · dsimp only
      split
      · rfl
      · rfl

theorem twolsfqdEdfRelease_completed {itemCount : Nat} {d : Bool}
    (h : twolsfqdEdfRelease enqueuedSocket itemCount c d = .ok (c', dispatched)) :
    c'.sched.timewindowTtlCompleted = c.sched.timewindowTtlCompleted := by
  induction itemCount generalizing c d with
  | zero =>
      obtain ⟨rfl, -⟩ := Prod.mk.inj (Except.ok.inj h)
      rfl
  | succ itemCount ih =>
      have hdequeue := twolsfqdEdfDequeue_completed c
      unfold twolsfqdEdfRelease at h
      split at h
      · cases h
      · rename_i c₁ item heq
        rw [heq] at hdequeue
        exact (ih h).trans hdequeue

theorem twolsfqdUpdateSpareness_completed (clock : Nat → Timeval) (s : Twolsfqd) :
    (twolsfqdUpdateSpareness clock s).timewindowTtlCompleted = s.timewindowTtlCompleted := by
  unfold twolsfqdUpdateSpareness
  split
  · rfl
  · rfl

theorem twolsfqdEdfDequeueAll_completed
    (hall : ∀ c c', dequeueAll c = .ok c' →
      c'.sched.timewindowTtlCompleted = c.sched.timewindowTtlCompleted)
    (h : twolsfqdEdfDequeueAll clock dequeueAll enqueuedSocket c = .ok (c', dispatched)) :
    c'.sched.timewindowTtlCompleted = c.sched.timewindowTtlCompleted := by
  unfold twolsfqdEdfDequeueAll at h
  split at h
  · cases h
  · obtain ⟨⟨c₁, d⟩, hrelease, h⟩ := Machine.bind_eq_ok.mp h
    have hreleased := twolsfqdEdfRelease_completed hrelease
    dsimp only at h
    split at h
    · obtain ⟨c₂, hnested, h⟩ := Machine.bind_eq_ok.mp h
      obtain ⟨rfl, -⟩ := Prod.mk.inj (Machine.pure_eq_ok.mp h)
      have hspared := twolsfqdUpdateSpareness_completed clock c₁.sched
      exact (hall _ _ hnested).trans (hspared.trans hreleased)
    · obtain ⟨rfl, -⟩ := Prod.mk.inj (Machine.pure_eq_ok.mp h)
      exact hreleased

theorem twolsfqdEdfAdmit_completed (clock : Nat → Timeval) (item : TwolsfqdItem) (s : Twolsfqd) :
    (twolsfqdEdfAdmit clock item s).timewindowTtlCompleted = s.timewindowTtlCompleted := by
  unfold twolsfqdEdfAdmit
  dsimp only
  split
  · show Twolsfqd.timewindowTtlCompleted (ite _ _ _) = _
    split
    · rfl
    · rfl
  · split
    · rfl
    · rfl

theorem twolsfqdSarcNext_completed {tries : Nat} {s s' : Twolsfqd} {next : Option TwolsfqdItem}
    (h : twolsfqdSarcNext tries s = .ok (s', next)) :
    s'.timewindowTtlCompleted = s.timewindowTtlCompleted := by
  induction tries generalizing s with
  | zero =>
      obtain ⟨rfl, -⟩ := Prod.mk.inj (Except.ok.inj h)
      rfl
  | succ tries ih =>
      unfold twolsfqdSarcNext at h
      dsimp only at h
      split at h
      · have hrest := ih h
        exact hrest
      · split at h
        · split at h
          · cases h
          · obtain ⟨rfl, -⟩ := Prod.mk.inj (Except.ok.inj h)
            rfl
        · have hrest := ih h
          exact hrest

theorem twolsfqdDequeueStep_completed
    (hall : ∀ c c', dequeueAll c = .ok c' →
      c'.sched.timewindowTtlCompleted = c.sched.timewindowTtlCompleted)
    {next : Option TwolsfqdItem}
    (h : twolsfqdDequeueStep clock dequeueAll c = .ok (c', next)) :
    c'.sched.timewindowTtlCompleted = c.sched.timewindowTtlCompleted := by
  obtain ⟨⟨s, item⟩, hnext, h⟩ := Machine.bind_eq_ok.mp h
  have hs := twolsfqdSarcNext_completed hnext
  cases item with
  | none =>
      obtain ⟨rfl, -⟩ := Prod.mk.inj (Machine.pure_eq_ok.mp h)
      exact hs
  | some item =>
      obtain ⟨c₁, henqueue, h⟩ := Machine.bind_eq_ok.mp h
      obtain ⟨rfl, -⟩ := Prod.mk.inj (Machine.pure_eq_ok.mp h)
      rw [twolsfqdEdfEnqueue_eq] at henqueue
      obtain ⟨⟨c₂, d⟩, hround, henqueue⟩ := Machine.bind_eq_ok.mp henqueue
      obtain rfl := Machine.pure_eq_ok.mp henqueue
      have hentered := twolsfqdEdfAdmit_completed clock item s
      exact (twolsfqdEdfDequeueAll_completed hall hround).trans (hentered.trans hs)

theorem twolsfqdDequeueLoop_completed {bound : Nat}
    (h : twolsfqdDequeueLoop clock bound c = .ok c') :
    c'.sched.timewindowTtlCompleted = c.sched.timewindowTtlCompleted := by
  induction bound generalizing c c' with
  | zero => cases h
  | succ bound ih =>
      obtain ⟨⟨c₁, item⟩, hstep, h⟩ := Machine.bind_eq_ok.mp h
      have hstepped := twolsfqdDequeueStep_completed (fun _ _ h => ih h) hstep
      cases item with
      | none =>
          obtain rfl := Machine.pure_eq_ok.mp h
          exact hstepped
      | some item => exact (ih h).trans hstepped

theorem twolsfqdDequeueAll_completed (c c' : TwolsfqdCall)
    (h : twolsfqdDequeueAll clock c = .ok c') :
    c'.sched.timewindowTtlCompleted = c.sched.timewindowTtlCompleted :=
  twolsfqdDequeueLoop_completed h

theorem twolsfqdTryRelease_completed {app : Nat} {length : Int} {item : TwolsfqdItem}
    {locked : Bool} (h : twolsfqdTryRelease clock app length item c = .ok (c', locked)) :
    c'.sched.timewindowTtlCompleted = c.sched.timewindowTtlCompleted := by
  have hrelease : ∀ c₁ : TwolsfqdCall, twolsfqdRelease clock item c₁ = .ok (c', locked) →
      c'.sched.timewindowTtlCompleted = c₁.sched.timewindowTtlCompleted := by
    intro c₁ h
    obtain ⟨c₂, hall, h⟩ := Machine.bind_eq_ok.mp h
    obtain ⟨rfl, -⟩ := Prod.mk.inj (Machine.pure_eq_ok.mp h)
    exact twolsfqdDequeueAll_completed _ _ hall
  have hspared := twolsfqdUpdateSpareness_completed clock c.sched
  unfold twolsfqdTryRelease at h
  split at h
  · exact hrelease c h
  · dsimp only at h
    split at h
    · exact (hrelease _ h).trans hspared
    · obtain ⟨rfl, -⟩ := Prod.mk.inj (Except.ok.inj h)
      exact hspared

theorem twolsfqdInsert_completed {pool : Nat → Endpoint} {si : SocketInfo} {pi : PvfsInfo}
    {g g' : Globals Twolsfqd} {item : TwolsfqdItem}
    (h : twolsfqdInsert pool si pi g = .ok (g', item)) :
    g'.sched.timewindowTtlCompleted = g.sched.timewindowTtlCompleted := by
  unfold twolsfqdInsert at h
  dsimp only at h
  split at h
  · cases h
  · obtain ⟨rfl, -⟩ := Prod.mk.inj (Except.ok.inj h)
    rfl

end completions

/-! ## Runs -/

/-- A state with the responses of the window so far. -/
structure TwolsfqdMeasured where
  g : Globals Twolsfqd
  responses : TwolsfqdResponses
  answered : List (Nat × Int)

/-- The application whose request `twolsfqd_edf_complete` finds complete. -/
def twolsfqdFinishes (complete : CompleteMessage TwolsfqdQueueItem) : Option Nat :=
  match complete.currentItem with
  | none => none
  | some it =>
    let e := twolsfqdGot complete.completeSize it.embedded
    if e.taskSize = e.gotSize then some it.embedded.appIndex else none

/-- The response times of an application, in the order of the responses. -/
def responseTimes (app : Nat) (answered : List (Nat × Int)) : List Int :=
  (answered.filter fun response => response.1 = app).map (·.2)

/-- A step without a response time. -/
def TwolsfqdCalls.Event.untimed : TwolsfqdCalls.Event → Bool
  | .complete _ | .window _ _ _ => false
  | .enqueue _ _ _ | .dequeue _ | .currentSize _ _ | .replenish => true

namespace TwolsfqdMeasured

inductive Event where
  | call (e : TwolsfqdCalls.Event)
  | complete (complete : CompleteMessage TwolsfqdQueueItem) (respTime : Int)
  | window (reached : Bool) (threshold : Int) (overload : Bool) (o : TwolsfqdOutstanding)

variable (numApps : Nat) (clock : Nat → Timeval) (myShare : Int → Int → Int → Int → Int → Int)
  (width : Timeval)

/-- A response is recorded where the request is complete. -/
def record (s : TwolsfqdMeasured) (finished : Option Nat) (respTime : Int) : TwolsfqdMeasured :=
  match finished with
  | none => s
  | some app =>
    { s with
      responses := twolsfqdRecord app respTime s.responses
      answered := s.answered ++ [(app, respTime)] }

/-- The steps of the scheduler; the window thread makes the percentiles first. -/
def step (s : TwolsfqdMeasured) : Event → Except Fault TwolsfqdMeasured
  | .call e => do
    let g ← TwolsfqdCalls.step clock myShare width s.g e
    return { s with g }
  | .complete complete respTime => do
    let g ← TwolsfqdCalls.step clock myShare width s.g (.complete complete)
    return { s with g }.record (twolsfqdFinishes complete) respTime
  | .window reached threshold overload o => do
    let g ← TwolsfqdCalls.step clock myShare width s.g (.window reached threshold overload)
    return {
      g
      responses := twolsfqdClearResponses numApps (nintyfivePercentile numApps o s.responses)
      answered := [] }

/-- Requests belong to the applications, and the clock does not go back. -/
def Allowed (s : TwolsfqdMeasured) : Event → Prop
  | .call e => e.untimed = true ∧ TwolsfqdCalls.Allowed s.g e
  | .complete complete respTime =>
    (twolsfqdFinishes complete).all (fun app => app < numApps) = true ∧ 0 ≤ respTime
  | .window _ _ _ _ => True

instance (s : TwolsfqdMeasured) (e : Event) : Decidable (s.Allowed numApps e) :=
  match e with
  | .call _ => inferInstanceAs (Decidable (_ ∧ _))
  | .complete _ _ => inferInstanceAs (Decidable (_ ∧ _))
  | .window _ _ _ _ => inferInstanceAs (Decidable True)

def init (g : Globals Twolsfqd) : TwolsfqdMeasured := ⟨g, twolsfqdResponsesInit, []⟩

/-- The lists hold the responses of the window, and the counters agree. -/
structure Recorded (s : TwolsfqdMeasured) : Prop where
  lists : ∀ app, s.responses.iedfLlistResp app = some (responseTimes app s.answered)
  completed : ∀ app,
    s.responses.timewindowCompleted app = (responseTimes app s.answered).length
  total : s.responses.timewindowTotalResp = (s.answered.map (·.2)).sum
  counted : s.g.sched.timewindowTtlCompleted = s.answered.length
  apps : ∀ response ∈ s.answered, response.1 < numApps
  nonneg : ∀ response ∈ s.answered, 0 ≤ response.2

end TwolsfqdMeasured

section steps

variable {clock : Nat → Timeval} {myShare : Int → Int → Int → Int → Int → Int} {width : Timeval}
  {g g' : Globals Twolsfqd}

theorem twolsfqdEdfComplete_completed {complete : CompleteMessage TwolsfqdQueueItem}
    {out : HookResult Twolsfqd (Option TwolsfqdItem × Int)}
    (h : twolsfqdEdfComplete clock complete g = .ok out) :
    out.globals.sched.timewindowTtlCompleted = g.sched.timewindowTtlCompleted
      + (twolsfqdFinishes complete).toList.length := by
  obtain ⟨currentItem, completeSize⟩ := complete
  cases currentItem with
  | none => cases h
  | some it =>
      unfold twolsfqdEdfComplete at h
      unfold twolsfqdFinishes
      dsimp only at h ⊢
      by_cases hcomplete : (twolsfqdGot completeSize it.embedded).taskSize
          = (twolsfqdGot completeSize it.embedded).gotSize
      · rw [if_pos hcomplete] at h ⊢
        obtain ⟨⟨c, d⟩, hround, h⟩ := Machine.bind_eq_ok.mp h
        obtain rfl := Machine.pure_eq_ok.mp h
        have hcount : (twolsfqdCount it g).sched.timewindowTtlCompleted
            = g.sched.timewindowTtlCompleted + 1 := by
          unfold twolsfqdCount
          dsimp only
          split
          · rfl
          · rfl
        exact (twolsfqdEdfDequeueAll_completed twolsfqdDequeueAll_completed hround).trans hcount
      · rw [if_neg hcomplete] at h ⊢
        split at h
        · obtain rfl := Except.ok.inj h
          exact (Int.add_zero _).symm
        · obtain rfl := Except.ok.inj h
          exact (Int.add_zero _).symm

theorem twolsfqdWindowTurn_completed {reached overload : Bool} {threshold : Int}
    {c : TwolsfqdCall} (h : twolsfqdWindowTurn clock width reached threshold overload g = .ok c) :
    c.sched.timewindowTtlCompleted = 0 := by
  obtain ⟨stays, -, h⟩ := Machine.bind_eq_ok.mp h
  unfold twolsfqdTimeWindow at h
  dsimp only at h
  have hround : ∀ c₁ : TwolsfqdCall, c₁.sched.timewindowTtlCompleted = 0 →
      (twolsfqdEdfDequeueAll clock (twolsfqdDequeueAll clock) (-1) c₁ >>= fun p => pure p.1)
        = .ok c → c.sched.timewindowTtlCompleted = 0 := by
    intro c₁ hc₁ h
    obtain ⟨⟨c₂, d⟩, hall, h⟩ := Machine.bind_eq_ok.mp h
    obtain rfl := Machine.pure_eq_ok.mp h
    exact (twolsfqdEdfDequeueAll_completed twolsfqdDequeueAll_completed hall).trans hc₁
  split at h
  · obtain ⟨c₁, hall, h⟩ := Machine.bind_eq_ok.mp h
    refine hround c₁ ?_ h
    have hspared := twolsfqdUpdateSpareness_completed clock
      (twolsfqdNextWindow clock width threshold g.sched)
    exact (twolsfqdDequeueAll_completed _ _ hall).trans hspared
  · exact hround _ rfl h

/-- A step without a response time counts no completion. -/
theorem TwolsfqdCalls.step_completed {e : TwolsfqdCalls.Event} (he : e.untimed = true)
    (h : TwolsfqdCalls.step clock myShare width g e = .ok g') :
    g'.sched.timewindowTtlCompleted = g.sched.timewindowTtlCompleted := by
  cases e with
  | enqueue pool si pi =>
      obtain ⟨result, hrun, h⟩ := Machine.bind_eq_ok.mp h
      obtain rfl := Machine.pure_eq_ok.mp h
      obtain ⟨⟨g₁, item⟩, hinsert, hrun⟩ := Machine.bind_eq_ok.mp hrun
      obtain ⟨⟨c, locked⟩, htry, hrun⟩ := Machine.bind_eq_ok.mp hrun
      obtain rfl := Machine.pure_eq_ok.mp hrun
      exact (twolsfqdTryRelease_completed htry).trans (twolsfqdInsert_completed hinsert)
  | dequeue r =>
      obtain ⟨⟨c, next⟩, hrun, h⟩ := Machine.bind_eq_ok.mp h
      obtain rfl := Machine.pure_eq_ok.mp h
      exact twolsfqdDequeueStep_completed twolsfqdDequeueAll_completed hrun
  | complete complete => cases he
  | currentSize currentItem actualDataFileSize =>
      obtain ⟨⟨item, share⟩, -, h⟩ := Machine.bind_eq_ok.mp h
      obtain rfl := Machine.pure_eq_ok.mp h
      rfl
  | replenish =>
      obtain ⟨c, hrun, h⟩ := Machine.bind_eq_ok.mp h
      obtain rfl := Machine.pure_eq_ok.mp h
      exact twolsfqdDequeueAll_completed _ _ hrun
  | window reached threshold overload => cases he

end steps

section times

variable {app : Nat} {answered : List (Nat × Int)}

theorem responseTimes_snoc (app' : Nat) (respTime : Int) :
    responseTimes app (answered ++ [(app', respTime)])
      = responseTimes app answered ++ (if app' = app then [respTime] else []) := by
  unfold responseTimes
  rw [List.filter_append, List.map_append]
  by_cases happ : app' = app
  · rw [if_pos happ, List.filter_cons_of_pos (by simpa using happ)]
    rfl
  · rw [if_neg happ, List.filter_cons_of_neg (by simpa using happ)]
    rfl

theorem responseTimes_nonneg (app : Nat) (h : ∀ response ∈ answered, 0 ≤ response.2) :
    ∀ t ∈ responseTimes app answered, 0 ≤ t := by
  intro t ht
  obtain ⟨response, hresponse, rfl⟩ := List.mem_map.mp ht
  exact h response (List.mem_filter.mp hresponse).1

/-- Two applications share what was answered. -/
theorem responseTimes_sum_le {a b : Nat} (hne : a ≠ b) :
    ∀ {answered : List (Nat × Int)}, (∀ response ∈ answered, 0 ≤ response.2) →
      (responseTimes a answered).sum + (responseTimes b answered).sum
        ≤ (answered.map (·.2)).sum := by
  intro answered
  induction answered with
  | nil => exact fun _ => le_refl _
  | cons response answered ih =>
      intro hnonneg
      obtain ⟨hfirst, hrest⟩ := List.forall_mem_cons.mp hnonneg
      have hle := ih hrest
      unfold responseTimes at hle ⊢
      rw [List.map_cons, List.sum_cons]
      by_cases ha : response.1 = a
      · have hb : response.1 ≠ b := fun heq => hne (ha.symm.trans heq)
        rw [List.filter_cons_of_pos (by simpa using ha),
          List.filter_cons_of_neg (by simpa using hb), List.map_cons, List.sum_cons]
        omega
      · rw [List.filter_cons_of_neg (by simpa using ha)]
        by_cases hb : response.1 = b
        · rw [List.filter_cons_of_pos (by simpa using hb), List.map_cons, List.sum_cons]
          omega
        · rw [List.filter_cons_of_neg (by simpa using hb)]
          omega

end times

namespace TwolsfqdMeasured

variable {numApps : Nat} {clock : Nat → Timeval}
  {myShare : Int → Int → Int → Int → Int → Int} {width : Timeval} {s t : TwolsfqdMeasured}

theorem Recorded.init {g : Globals Twolsfqd} (hg : g.sched.timewindowTtlCompleted = 0) :
    (TwolsfqdMeasured.init g).Recorded numApps where
  lists _ := rfl
  completed _ := rfl
  total := rfl
  counted := hg
  apps _ h := by cases h
  nonneg _ h := by cases h

theorem Recorded.record (hs : s.Recorded numApps) {g : Globals Twolsfqd} {finished : Option Nat}
    {respTime : Int} (happ : finished.all (fun app => app < numApps) = true) (htime : 0 ≤ respTime)
    (hg : g.sched.timewindowTtlCompleted
      = s.g.sched.timewindowTtlCompleted + finished.toList.length) :
    ({ s with g }.record finished respTime).Recorded numApps := by
  have hcounted := hs.counted
  cases finished with
  | none =>
      have hsame : g.sched.timewindowTtlCompleted = s.g.sched.timewindowTtlCompleted :=
        hg.trans (Int.add_zero _)
      exact ⟨hs.lists, hs.completed, hs.total, hsame.trans hcounted, hs.apps, hs.nonneg⟩
  | some app' =>
      have hone : ((some app').toList.length : Int) = 1 := rfl
      refine ⟨fun app => ?_, fun app => ?_, ?_, ?_, ?_, ?_⟩
      · show Function.update s.responses.iedfLlistResp app'
          (pintLlistAddToTail (s.responses.iedfLlistResp app') respTime).2 app
            = some (responseTimes app (s.answered ++ [(app', respTime)]))
        rw [responseTimes_snoc]
        by_cases heq : app' = app
        · subst heq
          rw [Function.update_self, hs.lists, if_pos rfl]
          rfl
        · rw [Function.update_of_ne (Ne.symm heq), if_neg heq, List.append_nil]
          exact hs.lists app
      · show Function.update s.responses.timewindowCompleted app'
          (s.responses.timewindowCompleted app' + 1) app
            = (responseTimes app (s.answered ++ [(app', respTime)])).length
        rw [responseTimes_snoc]
        by_cases heq : app' = app
        · subst heq
          rw [Function.update_self, hs.completed, if_pos rfl, List.length_append]
          rfl
        · rw [Function.update_of_ne (Ne.symm heq), if_neg heq, List.append_nil]
          exact hs.completed app
      · show s.responses.timewindowTotalResp + respTime = _
        rw [hs.total]
        simp [TwolsfqdMeasured.record]
      · show g.sched.timewindowTtlCompleted = ((s.answered ++ [(app', respTime)]).length : Int)
        rw [hg, hone, hcounted, List.length_append]
        rfl
      · refine List.forall_mem_append.mpr ⟨hs.apps, List.forall_mem_singleton.mpr ?_⟩
        exact of_decide_eq_true happ
      · exact List.forall_mem_append.mpr ⟨hs.nonneg, List.forall_mem_singleton.mpr htime⟩

theorem Recorded.clear (hs : s.Recorded numApps) {g : Globals Twolsfqd}
    (hg : g.sched.timewindowTtlCompleted = 0) (o : TwolsfqdOutstanding) :
    Recorded numApps {
      g
      responses := twolsfqdClearResponses numApps (nintyfivePercentile numApps o s.responses)
      answered := [] } := by
  have hother : ∀ app, ¬ app < numApps →
      (nintyfivePercentile numApps o s.responses).iedfLlistResp app = some []
        ∧ (nintyfivePercentile numApps o s.responses).timewindowCompleted app = 0 := by
    intro app happ
    have hnone : responseTimes app s.answered = [] := by
      unfold responseTimes
      rw [List.filter_eq_nil_iff.mpr fun response hresponse => ?_, List.map_nil]
      rw [decide_eq_true_eq]
      rintro rfl
      exact happ (hs.apps response hresponse)
    obtain ⟨-, hlist, hcompleted⟩ := percentileTurns_other
      (timewindowNintyfive s.responses.timewindowTotalResp) o
      (fun hin : app ∈ List.range numApps => happ (List.mem_range.mp hin)) s.responses
    refine ⟨hlist.trans ?_, hcompleted.trans ?_⟩
    · rw [hs.lists, hnone]
    · rw [hs.completed, hnone]
      rfl
  refine ⟨fun app => ?_, fun app => ?_, rfl, hg, fun _ h => ?_, fun _ h => ?_⟩
  · show (if app < numApps then pintLlistNew else _) = _
    split
    · rfl
    · rename_i happ
      exact (hother app happ).1
  · show (if app < numApps then (0 : Int) else _) = _
    split
    · rfl
    · rename_i happ
      exact (hother app happ).2
  · cases h
  · cases h

theorem Recorded.step (hs : s.Recorded numApps) {e : Event} (hok : s.Allowed numApps e)
    (h : s.step numApps clock myShare width e = .ok t) : t.Recorded numApps := by
  cases e with
  | call e =>
      obtain ⟨g, hstep, h⟩ := Machine.bind_eq_ok.mp h
      obtain rfl := Machine.pure_eq_ok.mp h
      have hcompleted := TwolsfqdCalls.step_completed hok.1 hstep
      exact ⟨hs.lists, hs.completed, hs.total, hcompleted.trans hs.counted, hs.apps, hs.nonneg⟩
  | complete complete respTime =>
      obtain ⟨g, hstep, h⟩ := Machine.bind_eq_ok.mp h
      obtain rfl := Machine.pure_eq_ok.mp h
      obtain ⟨out, hcomplete, hstep⟩ := Machine.bind_eq_ok.mp hstep
      obtain rfl := Machine.pure_eq_ok.mp hstep
      exact hs.record hok.1 hok.2 (twolsfqdEdfComplete_completed hcomplete)
  | window reached threshold overload o =>
      obtain ⟨g, hstep, h⟩ := Machine.bind_eq_ok.mp h
      obtain rfl := Machine.pure_eq_ok.mp h
      obtain ⟨c, hturn, hstep⟩ := Machine.bind_eq_ok.mp hstep
      obtain rfl := Machine.pure_eq_ok.mp hstep
      exact hs.clear (twolsfqdWindowTurn_completed hturn) o

theorem Recorded.run {g : Globals Twolsfqd} (hg : g.sched.timewindowTtlCompleted = 0)
    {es : List Event}
    (h : Machine.Run (Allowed numApps) (TwolsfqdMeasured.step numApps clock myShare width)
      (TwolsfqdMeasured.init g) es s) : s.Recorded numApps := by
  refine h.invariant (P := Recorded numApps) (.init hg) ?_
  rintro t e u ht hok hstep
  exact ht.step hok hstep

/-- What `nintyfive_percentile` finds for an application that was answered. -/
theorem Recorded.quantile (hs : s.Recorded numApps) (o : TwolsfqdOutstanding) {app : Nat}
    (happ : app < numApps) (hne : responseTimes app s.answered ≠ []) :
    Quantile (responseTimes app s.answered)
      (timewindowNintyfive s.responses.timewindowTotalResp)
      ((nintyfivePercentile numApps o s.responses).timewindow95Percentile app) :=
  percentileTurns_answered hne (responseTimes_nonneg app hs.nonneg) List.nodup_range
    (List.mem_range.mpr happ) (hs.lists app) (hs.completed app).symm

/-- Where the percentile is not the longest time, 95 percent of all response times and more
belong to the application. -/
theorem Recorded.bound_lt (hs : s.Recorded numApps) (o : TwolsfqdOutstanding) {app : Nat}
    (happ : app < numApps) {time : Int} (htime : time ∈ responseTimes app s.answered)
    (hlt : (nintyfivePercentile numApps o s.responses).timewindow95Percentile app < time) :
    timewindowNintyfive s.responses.timewindowTotalResp
      < (responseTimes app s.answered).sum := by
  have hnonneg := responseTimes_nonneg app hs.nonneg
  have hquantile := hs.quantile o happ (List.ne_nil_of_mem htime)
  have hle := hquantile.add_le hnonneg htime hlt
  have hpos := hnonneg _ hquantile.mem
  omega

end TwolsfqdMeasured

/-- The completion of a request of an application. -/
def twolsfqdAnswer (app : Nat) (respTime : Int) : TwolsfqdMeasured.Event :=
  let a := twolsfqdWrite app 0 64
  .complete
    { currentItem := some (twolsfqdNewItem a.pool a.si a.pi 0 0 0 0), completeSize := -1 } respTime

end PvfsProxy
