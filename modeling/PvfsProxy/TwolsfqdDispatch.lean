import PvfsProxy.Twolsfqd

/-!
# What a dispatch of 2LSFQD does

`twolsfqd_dequeue_all`, `twolsfqd_dequeue`, `twolsfqd_edf_enqueue` and
`twolsfqd_edf_dequeue_all` call each other. `TwolsfqdDrains` says as one
relation what comes of it. A request that its application has the credits for
moves to the EDF queue, and a round follows, which releases the first requests
there (`TwolsfqdMoved`). If it released any, the credits may be replenished and
another dispatch is nested. After that the outcome of the round is written to
the request that was moved (`twolsfqdEdfSettle`), and the dispatch goes on, until
no application has the credits for its first request.

Every fact about a dispatch is an induction over this relation
(`TwolsfqdDrains.keeps`, where nothing depends on what is nested). It speaks of
the dispatch's history as well: what entered the EDF queue when, and what left
it (`TwolsfqdEvent`).
-/

namespace PvfsProxy

open StableSort

/-! ## The parts -/

/-- `twolsfqd_edf_enqueue` up to its call of `twolsfqd_edf_dequeue_all`. -/
def twolsfqdEdfAdmit (clock : Nat → Timeval) (item : TwolsfqdItem) (s : Twolsfqd) : Twolsfqd :=
  let (s, now) := s.gettimeofday clock
  let s := { s with
    timewindowArrival := s.timewindowArrival + 1
    iedfLlistQueue := (pintLlistAddToTail s.iedfLlistQueue item).2
    edfQueueLength := s.edfQueueLength + 1 }
  let deadline := now.add (s.iedfDeadlinesTimeval 0)
  let s := s.mark item.itemId fun m =>
    { m with deadline := deadline, timewindow := s.timewindowId }
  let s :=
    if s.timewindowCurrentQueueLength ≠ 0 then
      { s with iedfLlistQueue := pintLlistSort s.iedfLlistQueue (listEdfSortComp s.marks) }
    else s
  if deadline.lt s.currentTimeWindowEnd then
    { s with timewindowArrivalDeadline := s.timewindowArrivalDeadline + 1 }.mark item.itemId
      fun m => { m with deadlineInCurrentTimewindow := true }
  else s

/-- `twolsfqd_edf_enqueue` after that call. -/
def twolsfqdEdfSettle (item : TwolsfqdItem) (dispatched : Bool) (s : Twolsfqd) : Twolsfqd :=
  let s := s.mark item.itemId fun m => { m with dispatched := if dispatched then 1 else 0 }
  { s with
    timewindowMaxOutstanding := max s.timewindowMaxOutstanding s.timewindowCurrentQueueLength }

theorem twolsfqdEdfEnqueue_eq (clock : Nat → Timeval)
    (dequeueAll : TwolsfqdCall → Except Fault TwolsfqdCall) (item : TwolsfqdItem)
    (c : TwolsfqdCall) :
    twolsfqdEdfEnqueue clock dequeueAll item c = do
      let (c, dispatched) ← twolsfqdEdfDequeueAll clock dequeueAll item.embedded.requestSocket
        (c.setSched (twolsfqdEdfAdmit clock item c.sched))
      return c.setSched (twolsfqdEdfSettle item dispatched c.sched) :=
  rfl

/-- The two loops of `twolsfqd_edf_dequeue_all`; tells whether an item of the
socket was released, and how many were. -/
def twolsfqdEdfRound (clock : Nat → Timeval) (enqueuedSocket : Int) (c : TwolsfqdCall) :
    Except Fault (TwolsfqdCall × Bool × Nat) :=
  match c.sched.iedfLlistQueue with
  | none => .error .nullPointer
  | some queue => do
    let (s, now) := c.sched.gettimeofday clock
    let itemCount := twolsfqdEdfCount s now queue 0
    let (c, dispatched) ← twolsfqdEdfRelease enqueuedSocket itemCount (c.setSched s) false
    return (c, dispatched, itemCount)

theorem twolsfqdEdfDequeueAll_eq (clock : Nat → Timeval)
    (dequeueAll : TwolsfqdCall → Except Fault TwolsfqdCall) (enqueuedSocket : Int)
    (c : TwolsfqdCall) :
    twolsfqdEdfDequeueAll clock dequeueAll enqueuedSocket c = do
      let (c, dispatched, itemCount) ← twolsfqdEdfRound clock enqueuedSocket c
      if itemCount > 0 then
        let c ← dequeueAll (c.setSched (twolsfqdUpdateSpareness clock c.sched))
        return (c, dispatched)
      else return (c, dispatched) := by
  unfold twolsfqdEdfDequeueAll twolsfqdEdfRound
  cases c.sched.iedfLlistQueue with
  | none => rfl
  | some queue =>
      dsimp only
      rw [bind_assoc]
      rfl

/-! ## The history of a dispatch -/

/-- What happens to the EDF queue: an item enters at some time, and an item
leaves; `queue` is what `twolsfqd_edf_dequeue` finds. -/
inductive TwolsfqdEvent where
  | enter (item : TwolsfqdItem) (now : Timeval)
  | leave (item : TwolsfqdItem) (queue : List TwolsfqdItem)

def twolsfqdEdfReleaseLog : Nat → TwolsfqdCall → List TwolsfqdEvent
  | 0, _ => []
  | itemCount + 1, c =>
    match twolsfqdEdfDequeue c with
    | (_, none) => []
    | (c', some item) =>
      .leave item (c.sched.iedfLlistQueue.getD []) :: twolsfqdEdfReleaseLog itemCount c'

/-- `released` leaves one by one in front of `kept`. -/
def twolsfqdLeaves : List TwolsfqdItem → List TwolsfqdItem → List TwolsfqdEvent
  | [], _ => []
  | item :: released, kept =>
    .leave item (item :: released ++ kept) :: twolsfqdLeaves released kept

def twolsfqdEdfRoundLog (clock : Nat → Timeval) (c : TwolsfqdCall) : List TwolsfqdEvent :=
  match c.sched.iedfLlistQueue with
  | none => []
  | some queue =>
    let (s, now) := c.sched.gettimeofday clock
    twolsfqdEdfReleaseLog (twolsfqdEdfCount s now queue 0) (c.setSched s)

def twolsfqdEdfDequeueAllLog (clock : Nat → Timeval)
    (dequeueAllLog : TwolsfqdCall → List TwolsfqdEvent) (enqueuedSocket : Int)
    (c : TwolsfqdCall) : List TwolsfqdEvent :=
  twolsfqdEdfRoundLog clock c ++
    match twolsfqdEdfRound clock enqueuedSocket c with
    | .error _ => []
    | .ok (c, _, itemCount) =>
      if itemCount > 0 then dequeueAllLog (c.setSched (twolsfqdUpdateSpareness clock c.sched))
      else []

def twolsfqdDequeueStepLog (clock : Nat → Timeval)
    (dequeueAllLog : TwolsfqdCall → List TwolsfqdEvent) (c : TwolsfqdCall) :
    List TwolsfqdEvent :=
  match twolsfqdSarcNext c.sched.numApps c.sched with
  | .error _ => []
  | .ok (_, none) => []
  | .ok (s, some next) =>
    .enter next (clock s.ticks) :: twolsfqdEdfDequeueAllLog clock dequeueAllLog
      next.embedded.requestSocket (c.setSched (twolsfqdEdfAdmit clock next s))

def twolsfqdDequeueLoopLog (clock : Nat → Timeval) : Nat → TwolsfqdCall → List TwolsfqdEvent
  | 0, _ => []
  | bound + 1, c =>
    twolsfqdDequeueStepLog clock (twolsfqdDequeueLoopLog clock bound) c ++
      match twolsfqdDequeueStep clock (twolsfqdDequeueLoop clock bound) c with
      | .ok (c, some _) => twolsfqdDequeueLoopLog clock bound c
      | _ => []

/-! ## What a part does -/

/-- The head of the queue at `queue_index` is taken and paid for. -/
def twolsfqdSarcTake (item : TwolsfqdItem) (rest : List TwolsfqdItem) (s : Twolsfqd) : Twolsfqd :=
  { s with
    sarcCreditList := Function.update s.sarcCreditList s.queueIndex (some rest)
    sarcCredits := Function.update s.sarcCredits s.queueIndex
      (s.sarcCredits s.queueIndex - item.embedded.taskSize) }.mark item.itemId
    fun m => { m with dispatched := 0 }

/-- `queue_index` stays or moves on. -/
def Twolsfqd.Skips (s s' : Twolsfqd) : Prop :=
  s' = s ∨ ∃ i, (0 < s.numApps → i < s.numApps) ∧ s' = { s with queueIndex := i }

theorem Twolsfqd.Skips.next (s : Twolsfqd) :
    s.Skips { s with queueIndex := (s.queueIndex + 1) % s.numApps } :=
  .inr ⟨_, fun hpos => Nat.mod_lt _ hpos, rfl⟩

theorem Twolsfqd.Skips.trans {s s' s'' : Twolsfqd} (h : s.Skips s') (h' : s'.Skips s'') :
    s.Skips s'' := by
  rcases h with rfl | ⟨i, hi, rfl⟩
  · exact h'
  · rcases h' with rfl | ⟨j, hj, rfl⟩
    · exact .inr ⟨i, hi, rfl⟩
    · exact .inr ⟨j, hj, rfl⟩

/-- The loop of `twolsfqd_dequeue` finds a head that can be paid for or none. -/
theorem twolsfqdSarcNext_cases {tries : Nat} {s s' : Twolsfqd} {next : Option TwolsfqdItem}
    (h : twolsfqdSarcNext tries s = .ok (s', next)) :
    ∃ s₁, s.Skips s₁ ∧ (next = none ∧ s' = s₁
      ∨ ∃ item rest, next = some item
        ∧ s₁.sarcCreditList s₁.queueIndex = some (item :: rest)
        ∧ item.embedded.taskSize ≤ s₁.sarcCredits s₁.queueIndex
        ∧ s' = twolsfqdSarcTake item rest s₁) := by
  induction tries generalizing s with
  | zero =>
      obtain ⟨rfl, rfl⟩ := Prod.mk.inj (Except.ok.inj h)
      exact ⟨s, .inl rfl, .inl ⟨rfl, rfl⟩⟩
  | succ tries ih =>
      unfold twolsfqdSarcNext at h
      dsimp only at h
      split at h
      · obtain ⟨s₁, hskips, hcases⟩ := ih h
        exact ⟨s₁, (Twolsfqd.Skips.next s).trans hskips, hcases⟩
      · rename_i temp htemp
        split at h
        · rename_i hcredits
          cases hlist : s.sarcCreditList s.queueIndex with
          | none => simp [hlist, pintLlistHead] at htemp
          | some list =>
              cases list with
              | nil => simp [hlist, pintLlistHead] at htemp
              | cons item rest =>
                  rw [hlist] at htemp
                  obtain rfl : item = temp := Option.some.inj htemp
                  rw [hlist, pintLlistRem_head] at h
                  obtain ⟨rfl, rfl⟩ := Prod.mk.inj (Except.ok.inj h)
                  exact ⟨s, .inl rfl, .inr ⟨item, rest, rfl, hlist, hcredits, rfl⟩⟩
        · obtain ⟨s₁, hskips, hcases⟩ := ih h
          exact ⟨s₁, (Twolsfqd.Skips.next s).trans hskips, hcases⟩

/-- The configuration and the time window are the same. -/
structure Twolsfqd.SameConfig (s s' : Twolsfqd) : Prop where
  numApps : s'.numApps = s.numApps
  appRate : s'.appRate = s.appRate
  deadlines : s'.iedfDeadlinesTimeval = s.iedfDeadlinesTimeval
  replenishTime : s'.replenishTime = s.replenishTime
  itemId : s'.itemId = s.itemId
  timewindowId : s'.timewindowId = s.timewindowId
  threshold : s'.timewindowQueueThreshold = s.timewindowQueueThreshold
  windowEnd : s'.currentTimeWindowEnd = s.currentTimeWindowEnd

theorem Twolsfqd.SameConfig.refl (s : Twolsfqd) : s.SameConfig s :=
  ⟨rfl, rfl, rfl, rfl, rfl, rfl, rfl, rfl⟩

theorem Twolsfqd.SameConfig.trans {s s' s'' : Twolsfqd} (h : s.SameConfig s')
    (h' : s'.SameConfig s'') : s.SameConfig s'' where
  numApps := h'.numApps.trans h.numApps
  appRate := h'.appRate.trans h.appRate
  deadlines := h'.deadlines.trans h.deadlines
  replenishTime := h'.replenishTime.trans h.replenishTime
  itemId := h'.itemId.trans h.itemId
  timewindowId := h'.timewindowId.trans h.timewindowId
  threshold := h'.threshold.trans h.threshold
  windowEnd := h'.windowEnd.trans h.windowEnd

/-- The queues of the applications and their credits are the same as well. -/
structure Twolsfqd.SameSarc (s s' : Twolsfqd) : Prop extends s.SameConfig s' where
  queueIndex : s'.queueIndex = s.queueIndex
  credits : s'.sarcCredits = s.sarcCredits
  lists : s'.sarcCreditList = s.sarcCreditList

theorem Twolsfqd.SameSarc.refl (s : Twolsfqd) : s.SameSarc s :=
  ⟨.refl s, rfl, rfl, rfl⟩

theorem Twolsfqd.SameSarc.trans {s s' s'' : Twolsfqd} (h : s.SameSarc s') (h' : s'.SameSarc s'') :
    s.SameSarc s'' where
  toSameConfig := h.toSameConfig.trans h'.toSameConfig
  queueIndex := h'.queueIndex.trans h.queueIndex
  credits := h'.credits.trans h.credits
  lists := h'.lists.trans h.lists

theorem Twolsfqd.SameSarc.waiting {s s' : Twolsfqd} (h : s.SameSarc s') :
    s'.waiting = s.waiting := by
  unfold Twolsfqd.waiting
  rw [h.numApps, h.lists]

/-- The item entered the EDF queue in the current window, and it is due in it. -/
def Twolsfqd.arrived (s : Twolsfqd) (item : TwolsfqdItem) : Bool :=
  decide ((s.marks item.itemId).timewindow = s.timewindowId)

def Twolsfqd.arrivedDue (s : Twolsfqd) (item : TwolsfqdItem) : Bool :=
  s.arrived item && (s.marks item.itemId).deadlineInCurrentTimewindow

/-- `released` leaves the EDF queue, of which `rest` stays. -/
structure TwolsfqdReleased (released rest : List TwolsfqdItem) (c c' : TwolsfqdCall) : Prop where
  queue : c'.sched.iedfLlistQueue = some rest
  unlocked : c'.unlocked = c.unlocked ++ released.map (·.socketData.rs)
  outstanding : c'.sched.timewindowCurrentQueueLength
    = c.sched.timewindowCurrentQueueLength + released.length
  queueLength : c'.sched.edfQueueLength = c.sched.edfQueueLength - released.length
  arrival : c'.sched.timewindowArrival
    = c.sched.timewindowArrival - released.countP c.sched.arrived
  arrivalDeadline : c'.sched.timewindowArrivalDeadline
    = c.sched.timewindowArrivalDeadline - released.countP c.sched.arrivedDue
  marks : ∀ id, c'.sched.marks id
    = if id ∈ released.map (·.itemId) then { c.sched.marks id with dispatched := 1 }
      else c.sched.marks id
  sarc : c.sched.SameSarc c'.sched
  ticks : c'.sched.ticks = c.sched.ticks

theorem TwolsfqdReleased.nil {queue : List TwolsfqdItem} {c : TwolsfqdCall}
    (hqueue : c.sched.iedfLlistQueue = some queue) : TwolsfqdReleased [] queue c c where
  queue := hqueue
  unlocked := (List.append_nil _).symm
  outstanding := (Int.add_zero _).symm
  queueLength := (Int.sub_zero _).symm
  arrival := (Int.sub_zero _).symm
  arrivalDeadline := (Int.sub_zero _).symm
  marks id := (if_neg (by simp)).symm
  sarc := .refl _
  ticks := rfl

/-- What is released is marked as dispatched, and no more. -/
theorem TwolsfqdReleased.window {released rest : List TwolsfqdItem} {c c' : TwolsfqdCall}
    (h : TwolsfqdReleased released rest c c') (id : Int) :
    (c'.sched.marks id).timewindow = (c.sched.marks id).timewindow
      ∧ (c'.sched.marks id).deadlineInCurrentTimewindow
        = (c.sched.marks id).deadlineInCurrentTimewindow := by
  rw [h.marks id]
  split
  · exact ⟨rfl, rfl⟩
  · exact ⟨rfl, rfl⟩

theorem TwolsfqdReleased.arrived {released rest : List TwolsfqdItem} {c c' : TwolsfqdCall}
    (h : TwolsfqdReleased released rest c c') :
    c'.sched.arrived = c.sched.arrived ∧ c'.sched.arrivedDue = c.sched.arrivedDue := by
  have harrived : c'.sched.arrived = c.sched.arrived := by
    funext item
    unfold Twolsfqd.arrived
    rw [(h.window _).1, h.sarc.timewindowId]
  refine ⟨harrived, ?_⟩
  funext item
  unfold Twolsfqd.arrivedDue
  rw [harrived, (h.window _).2]

theorem TwolsfqdReleased.trans {first second rest rest' : List TwolsfqdItem}
    {c c' c'' : TwolsfqdCall} (h : TwolsfqdReleased first rest c c')
    (h' : TwolsfqdReleased second rest' c' c'') :
    TwolsfqdReleased (first ++ second) rest' c c'' where
  queue := h'.queue
  unlocked := by rw [h'.unlocked, h.unlocked, List.map_append, List.append_assoc]
  outstanding := by
    rw [h'.outstanding, h.outstanding, List.length_append]
    omega
  queueLength := by
    rw [h'.queueLength, h.queueLength, List.length_append]
    omega
  arrival := by
    rw [h'.arrival, h.arrival, h.arrived.1, List.countP_append]
    omega
  arrivalDeadline := by
    rw [h'.arrivalDeadline, h.arrivalDeadline, h.arrived.2, List.countP_append]
    omega
  marks id := by
    rw [h'.marks id, h.marks id, List.map_append]
    by_cases hfirst : id ∈ first.map (·.itemId) <;>
      by_cases hsecond : id ∈ second.map (·.itemId) <;> simp [hfirst, hsecond]
  sarc := h.sarc.trans h'.sarc
  ticks := h'.ticks.trans h.ticks

theorem twolsfqdEdfDequeue_cons {item : TwolsfqdItem} {rest : List TwolsfqdItem}
    {c : TwolsfqdCall} (hqueue : c.sched.iedfLlistQueue = some (item :: rest)) :
    ∃ c', twolsfqdEdfDequeue c = (c', some item) ∧ TwolsfqdReleased [item] rest c c' := by
  have hhead : pintLlistHead c.sched.iedfLlistQueue = some item := by
    rw [hqueue]
    rfl
  have hrem : pintLlistRem c.sched.iedfLlistQueue item.itemId listReqComp
      = (some item, some rest) := by
    rw [hqueue, pintLlistRem_head]
  have hmarks : ∀ (m : Int → TwolsfqdMarks) (id : Int), Function.update m item.itemId
      { m item.itemId with dispatched := 1 } id
      = if id ∈ [item].map (·.itemId) then { m id with dispatched := 1 } else m id := by
    intro m id
    by_cases hid : id = item.itemId
    · subst hid
      simp
    · simp [hid]
  refine ⟨(twolsfqdEdfDequeue c).1, ?_, ?_⟩
  · simp only [twolsfqdEdfDequeue, hhead, hrem]
  · simp only [twolsfqdEdfDequeue, hhead, hrem]
    simp only [TwolsfqdCall.sched, Twolsfqd.mark, Function.update_self]
    by_cases hwindow : (c.g.sched.marks item.itemId).timewindow = c.g.sched.timewindowId
    · rw [if_pos hwindow]
      refine ⟨rfl, rfl, rfl, rfl, ?_, ?_, hmarks _,
        ⟨⟨rfl, rfl, rfl, rfl, rfl, rfl, rfl, rfl⟩, rfl, rfl, rfl⟩, rfl⟩
      · simp [TwolsfqdCall.sched, Twolsfqd.arrived, hwindow]
      · simp only [TwolsfqdCall.sched, List.countP_singleton, Twolsfqd.arrivedDue,
          Twolsfqd.arrived, hwindow, decide_true, Bool.true_and]
        split <;> simp
    · rw [if_neg hwindow]
      refine ⟨rfl, rfl, rfl, rfl, ?_, ?_, hmarks _,
        ⟨⟨rfl, rfl, rfl, rfl, rfl, rfl, rfl, rfl⟩, rfl, rfl, rfl⟩, rfl⟩
      · simp [TwolsfqdCall.sched, Twolsfqd.arrived, hwindow]
      · simp [TwolsfqdCall.sched, Twolsfqd.arrivedDue, Twolsfqd.arrived, hwindow]

/-- As many items as are asked for leave from the front. -/
theorem twolsfqdEdfRelease_eq (enqueuedSocket : Int) {released rest : List TwolsfqdItem}
    {c : TwolsfqdCall} (dispatched : Bool)
    (hqueue : c.sched.iedfLlistQueue = some (released ++ rest)) :
    ∃ c', twolsfqdEdfRelease enqueuedSocket released.length c dispatched
        = .ok (c', dispatched || released.any fun item =>
            item.embedded.requestSocket == enqueuedSocket)
      ∧ TwolsfqdReleased released rest c c'
      ∧ twolsfqdEdfReleaseLog released.length c = twolsfqdLeaves released rest := by
  induction released generalizing c dispatched with
  | nil =>
      refine ⟨c, ?_, .nil hqueue, rfl⟩
      rw [List.any_nil, Bool.or_false]
      rfl
  | cons item released ih =>
      obtain ⟨c₁, hdequeue, hfirst⟩ := twolsfqdEdfDequeue_cons hqueue
      obtain ⟨c₂, hrelease, hrest, hlog⟩ :=
        ih (dispatched || item.embedded.requestSocket == enqueuedSocket) hfirst.queue
      refine ⟨c₂, ?_, hfirst.trans hrest, ?_⟩
      · simp only [List.length_cons, twolsfqdEdfRelease, hdequeue]
        rw [hrelease, List.any_cons, Bool.or_assoc]
      · simp only [List.length_cons, twolsfqdEdfReleaseLog, hdequeue]
        rw [hlog, hqueue]
        rfl

/-- The deadline has passed. -/
def Twolsfqd.Due (s : Twolsfqd) (now : Timeval) (item : TwolsfqdItem) : Prop :=
  (s.marks item.itemId).deadline.le now = true

/-- A first part of the queue is counted: what is due or fits under the
threshold, up to the first item that neither is nor does. -/
theorem twolsfqdEdfCount_eq (s : Twolsfqd) (now : Timeval) (queue : List TwolsfqdItem)
    (itemCount : Nat) :
    ∃ released rest, queue = released ++ rest
      ∧ twolsfqdEdfCount s now queue itemCount = itemCount + released.length
      ∧ (∀ item ∈ released, s.Due now item
          ∨ s.timewindowCurrentQueueLength + itemCount < s.timewindowQueueThreshold)
      ∧ (rest ≠ [] → s.timewindowQueueThreshold
          ≤ s.timewindowCurrentQueueLength + itemCount + released.length)
      ∧ ∀ item ∈ rest.head?, ¬ s.Due now item := by
  induction queue generalizing itemCount with
  | nil => exact ⟨[], [], rfl, rfl, by simp, fun hne => absurd rfl hne, by simp⟩
  | cons item queue ih =>
      unfold twolsfqdEdfCount
      split
      · rename_i hgoes
        obtain ⟨released, rest, hqueue, hcount, hreleased, hrest, hundue⟩ := ih (itemCount + 1)
        refine ⟨item :: released, rest, by rw [hqueue, List.cons_append], ?_, ?_, ?_, hundue⟩
        · rw [hcount, List.length_cons]
          omega
        · intro item' hitem'
          rcases List.mem_cons.mp hitem' with rfl | hitem'
          · simpa [Twolsfqd.Due] using hgoes
          · rcases hreleased item' hitem' with hdue | hfits
            · exact .inl hdue
            · right
              push_cast at hfits
              omega
        · intro hne
          have hfull := hrest hne
          rw [List.length_cons]
          push_cast at hfull ⊢
          omega
      · rename_i hstays
        simp only [Bool.or_eq_true, decide_eq_true_eq, not_or] at hstays
        refine ⟨[], item :: queue, rfl, rfl, by simp, fun _ => ?_, ?_⟩
        · simpa using hstays.2
        · rintro _ ⟨⟩
          exact hstays.1

/-- A round releases a first part of the queue. -/
theorem twolsfqdEdfRound_eq (clock : Nat → Timeval) (enqueuedSocket : Int) {c : TwolsfqdCall}
    {queue : List TwolsfqdItem} (hqueue : c.sched.iedfLlistQueue = some queue) :
    ∃ released rest c', queue = released ++ rest
      ∧ twolsfqdEdfRound clock enqueuedSocket c = .ok (c',
          released.any fun item => item.embedded.requestSocket == enqueuedSocket, released.length)
      ∧ TwolsfqdReleased released rest (c.setSched (c.sched.gettimeofday clock).1) c'
      ∧ (∀ item ∈ released, c.sched.Due (clock c.sched.ticks) item
          ∨ c.sched.timewindowCurrentQueueLength < c.sched.timewindowQueueThreshold)
      ∧ (rest ≠ [] → c'.sched.timewindowQueueThreshold ≤ c'.sched.timewindowCurrentQueueLength)
      ∧ (∀ item ∈ rest.head?, ¬ c.sched.Due (clock c.sched.ticks) item)
      ∧ twolsfqdEdfRoundLog clock c = twolsfqdLeaves released rest := by
  obtain ⟨released, rest, rfl, hcount, hreleased, hrest, hundue⟩ :=
    twolsfqdEdfCount_eq (c.sched.gettimeofday clock).1 (clock c.sched.ticks) queue 0
  obtain ⟨c', hrelease, hc', hlog⟩ := twolsfqdEdfRelease_eq enqueuedSocket
    (c := c.setSched (c.sched.gettimeofday clock).1) false hqueue
  rw [Nat.zero_add] at hcount
  refine ⟨released, rest, c', rfl, ?_, hc', ?_, ?_, hundue, ?_⟩
  · unfold twolsfqdEdfRound
    rw [hqueue]
    dsimp only [Twolsfqd.gettimeofday] at hcount hrelease ⊢
    rw [hcount, hrelease]
    rfl
  · intro item hitem
    simpa [Twolsfqd.Due, Twolsfqd.gettimeofday] using hreleased item hitem
  · intro hne
    rw [hc'.sarc.threshold, hc'.outstanding]
    simpa [TwolsfqdCall.setSched, TwolsfqdCall.sched, Twolsfqd.gettimeofday] using hrest hne
  · unfold twolsfqdEdfRoundLog
    rw [hqueue]
    dsimp only [Twolsfqd.gettimeofday] at hcount hlog ⊢
    rw [hcount]
    exact hlog

theorem Timeval.totalPreorder_le {α : Type} (key : α → Timeval) :
    TotalPreorder fun a b => (key a).le (key b) where
  trans a b c := by
    unfold Timeval.le
    intro hab hbc
    split at hab <;> split at hbc <;> split <;> simp only [decide_eq_true_eq] at * <;> omega
  total a b := by
    unfold Timeval.le
    rw [Bool.or_eq_true]
    split <;> split <;> simp only [decide_eq_true_eq] <;> omega

/-- `list_edf_sort_comp` compares the deadlines. -/
theorem compLe_listEdfSortComp (marks : Int → TwolsfqdMarks) :
    compLe (listEdfSortComp marks)
      = fun a b => (marks a.itemId).deadline.le (marks b.itemId).deadline := by
  funext a b
  unfold compLe listEdfSortComp Timeval.le
  dsimp only
  split
  · rename_i hlt
    rw [if_neg (by omega)]
    simpa using hlt.le
  · split
    · rename_i hgt
      rw [if_neg (by omega), decide_eq_false (by omega), decide_eq_false (by omega)]
    · rw [if_pos (by omega)]
      refine decide_eq_decide.mpr ?_
      omega

/-- The deadlines of two items, as the EDF queue compares them. -/
def Twolsfqd.edfLe (s : Twolsfqd) (a b : TwolsfqdItem) : Bool :=
  (s.marks a.itemId).deadline.le (s.marks b.itemId).deadline

/-- What moving a request to the EDF queue does. -/
structure TwolsfqdAdmitted (now : Timeval) (item : TwolsfqdItem) (queue queue' : List TwolsfqdItem)
    (s s' : Twolsfqd) : Prop where
  sorted : if s.timewindowCurrentQueueLength ≠ 0 then
      StableSorted s'.edfLe (queue ++ [item]) queue'
    else queue' = queue ++ [item]
  queue : s'.iedfLlistQueue = some queue'
  outstanding : s'.timewindowCurrentQueueLength = s.timewindowCurrentQueueLength
  queueLength : s'.edfQueueLength = s.edfQueueLength + 1
  deadline : ∀ id, (s'.marks id).deadline
    = if id = item.itemId then now.add (s.iedfDeadlinesTimeval 0) else (s.marks id).deadline
  dispatched : ∀ id, (s'.marks id).dispatched = (s.marks id).dispatched
  sarc : s.SameSarc s'
  ticks : s'.ticks = s.ticks + 1

theorem twolsfqdEdfAdmit_admitted (clock : Nat → Timeval) (item : TwolsfqdItem) {s : Twolsfqd}
    {queue : List TwolsfqdItem} (hqueue : s.iedfLlistQueue = some queue) :
    ∃ queue', TwolsfqdAdmitted (clock s.ticks) item queue queue' s
      (twolsfqdEdfAdmit clock item s) := by
  generalize hs' : twolsfqdEdfAdmit clock item s = s'
  -- the marks differ from those at the sort in nothing the comparison reads
  have hcomp : ∀ m m' : Int → TwolsfqdMarks, (∀ id, (m id).deadline = (m' id).deadline) →
      listEdfSortComp m = listEdfSortComp m' := by
    intro m m' h
    funext a b
    unfold listEdfSortComp
    rw [h, h]
  have hparts : (s'.iedfLlistQueue = if s.timewindowCurrentQueueLength ≠ 0 then
          pintLlistSort (some (queue ++ [item])) (listEdfSortComp s'.marks)
        else some (queue ++ [item]))
      ∧ (∀ id, (s'.marks id).deadline
        = if id = item.itemId then (clock s.ticks).add (s.iedfDeadlinesTimeval 0)
          else (s.marks id).deadline)
      ∧ (∀ id, (s'.marks id).dispatched = (s.marks id).dispatched)
      ∧ s'.timewindowCurrentQueueLength = s.timewindowCurrentQueueLength
      ∧ s'.edfQueueLength = s.edfQueueLength + 1 ∧ s.SameSarc s' ∧ s'.ticks = s.ticks + 1 := by
    rw [← hs']
    unfold twolsfqdEdfAdmit
    simp only [hqueue, Twolsfqd.gettimeofday, Twolsfqd.mark, pintLlistAddToTail]
    by_cases hlength : s.timewindowCurrentQueueLength ≠ 0
    · simp only [if_pos hlength]
      by_cases hwindow : ((clock s.ticks).add (s.iedfDeadlinesTimeval 0)).lt s.currentTimeWindowEnd
      · simp only [if_pos hwindow]
        refine ⟨?_, fun id => ?_, fun id => ?_, trivial, trivial,
            ⟨⟨rfl, rfl, rfl, rfl, rfl, rfl, rfl, rfl⟩, rfl, rfl, rfl⟩, trivial⟩
        · show pintLlistSort _ _ = pintLlistSort _ _
          refine congrArg (pintLlistSort (some (queue ++ [item]))) (hcomp _ _ fun id => ?_)
          by_cases hid : id = item.itemId <;> simp [hid]
        · by_cases hid : id = item.itemId <;> simp [hid]
        · by_cases hid : id = item.itemId <;> simp [hid]
      · simp only [if_neg hwindow]
        refine ⟨?_, fun id => ?_, fun id => ?_, trivial, trivial,
            ⟨⟨rfl, rfl, rfl, rfl, rfl, rfl, rfl, rfl⟩, rfl, rfl, rfl⟩, trivial⟩
        · trivial
        · by_cases hid : id = item.itemId <;> simp [hid]
        · by_cases hid : id = item.itemId <;> simp [hid]
    · simp only [if_neg hlength]
      by_cases hwindow : ((clock s.ticks).add (s.iedfDeadlinesTimeval 0)).lt s.currentTimeWindowEnd
      · simp only [if_pos hwindow]
        refine ⟨?_, fun id => ?_, fun id => ?_, trivial, trivial,
            ⟨⟨rfl, rfl, rfl, rfl, rfl, rfl, rfl, rfl⟩, rfl, rfl, rfl⟩, trivial⟩
        · trivial
        · by_cases hid : id = item.itemId <;> simp [hid]
        · by_cases hid : id = item.itemId <;> simp [hid]
      · simp only [if_neg hwindow]
        refine ⟨?_, fun id => ?_, fun id => ?_, trivial, trivial,
            ⟨⟨rfl, rfl, rfl, rfl, rfl, rfl, rfl, rfl⟩, rfl, rfl, rfl⟩, trivial⟩
        · trivial
        · by_cases hid : id = item.itemId <;> simp [hid]
        · by_cases hid : id = item.itemId <;> simp [hid]
  obtain ⟨hlists, hdeadline, hdispatched, houtstanding, hlength, hsarc, hticks⟩ := hparts
  by_cases hbusy : s.timewindowCurrentQueueLength ≠ 0
  · rw [if_pos hbusy] at hlists
    have horder : TotalPreorder (compLe (listEdfSortComp s'.marks)) := by
      rw [compLe_listEdfSortComp]
      exact Timeval.totalPreorder_le _
    obtain ⟨queue', hsort, hsorted⟩ :=
      pintLlistSort_spec horder (l := queue ++ [item]) (by simp)
    rw [compLe_listEdfSortComp] at hsorted
    refine ⟨queue', ?_, hlists.trans hsort, houtstanding, hlength, hdeadline, hdispatched, hsarc,
      hticks⟩
    rw [if_pos hbusy]
    exact hsorted
  · rw [if_neg hbusy] at hlists
    refine ⟨queue ++ [item], ?_, hlists, houtstanding, hlength, hdeadline, hdispatched, hsarc,
      hticks⟩
    rw [if_neg hbusy]

/-- How the window counts an item that enters the EDF queue, from which `released` leaves. -/
structure TwolsfqdCounted (now : Timeval) (item : TwolsfqdItem) (released : List TwolsfqdItem)
    (s s' : Twolsfqd) : Prop where
  timewindow : ∀ id, (s'.marks id).timewindow
    = if id = item.itemId then s.timewindowId else (s.marks id).timewindow
  due : ∀ id, (s'.marks id).deadlineInCurrentTimewindow
    = ((s.marks id).deadlineInCurrentTimewindow || (decide (id = item.itemId)
      && (now.add (s.iedfDeadlinesTimeval 0)).lt s.currentTimeWindowEnd))
  arrival : s'.timewindowArrival = s.timewindowArrival + 1 - released.countP s'.arrived
  arrivalDeadline : s'.timewindowArrivalDeadline = s.timewindowArrivalDeadline
    + (if (now.add (s.iedfDeadlinesTimeval 0)).lt s.currentTimeWindowEnd then 1 else 0)
    - released.countP s'.arrivedDue

theorem twolsfqdEdfAdmit_counted (clock : Nat → Timeval) (item : TwolsfqdItem) (s : Twolsfqd) :
    TwolsfqdCounted (clock s.ticks) item [] s (twolsfqdEdfAdmit clock item s) := by
  -- the sort, which changes nothing but the list, comes before the deadline is looked at
  have hlook : ∀ s₁ : Twolsfqd, (s₁.marks = Function.update s.marks item.itemId
        { s.marks item.itemId with
          deadline := (clock s.ticks).add (s.iedfDeadlinesTimeval 0), timewindow := s.timewindowId }
      ∧ s₁.timewindowId = s.timewindowId ∧ s₁.currentTimeWindowEnd = s.currentTimeWindowEnd
      ∧ s₁.timewindowArrival = s.timewindowArrival + 1
      ∧ s₁.timewindowArrivalDeadline = s.timewindowArrivalDeadline) →
      TwolsfqdCounted (clock s.ticks) item [] s
        (if ((clock s.ticks).add (s.iedfDeadlinesTimeval 0)).lt s₁.currentTimeWindowEnd then
          { s₁ with timewindowArrivalDeadline := s₁.timewindowArrivalDeadline + 1 }.mark
            item.itemId fun m => { m with deadlineInCurrentTimewindow := true }
        else s₁) := by
    rintro s₁ ⟨hmarks, hid, hend, harrival, hdeadline⟩
    rw [hend]
    split
    · rename_i hwindow
      refine ⟨fun id => ?_, fun id => ?_, ?_, ?_⟩
      · by_cases hsame : id = item.itemId <;> simp [Twolsfqd.mark, hsame, hmarks]
      · by_cases hsame : id = item.itemId <;> simp [Twolsfqd.mark, hsame, hmarks, hwindow]
      · simp [Twolsfqd.mark, harrival]
      · simp [Twolsfqd.mark, hdeadline, hwindow]
    · rename_i hwindow
      refine ⟨fun id => ?_, fun id => ?_, ?_, ?_⟩
      · by_cases hsame : id = item.itemId <;> simp [hsame, hmarks]
      · by_cases hsame : id = item.itemId <;> simp [hsame, hmarks, hwindow]
      · simp [harrival]
      · simp [hdeadline, hwindow]
  exact hlook _ (iteInduction (motive := fun s₁ : Twolsfqd => s₁.marks = _ ∧ s₁.timewindowId = _
      ∧ s₁.currentTimeWindowEnd = _ ∧ s₁.timewindowArrival = _ ∧ s₁.timewindowArrivalDeadline = _)
    (fun _ => ⟨rfl, rfl, rfl, rfl, rfl⟩) fun _ => ⟨rfl, rfl, rfl, rfl, rfl⟩)

/-- What is released afterwards is no longer counted. -/
theorem TwolsfqdCounted.released {now : Timeval} {item : TwolsfqdItem}
    {released kept : List TwolsfqdItem} {s : Twolsfqd} {c c' : TwolsfqdCall}
    (h : TwolsfqdCounted now item [] s c.sched) (hr : TwolsfqdReleased released kept c c') :
    TwolsfqdCounted now item released s c'.sched where
  timewindow id := (hr.window id).1.trans (h.timewindow id)
  due id := (hr.window id).2.trans (h.due id)
  arrival := by
    rw [hr.arrival, h.arrival, hr.arrived.1, List.countP_nil, Nat.cast_zero, Int.sub_zero]
  arrivalDeadline := by
    rw [hr.arrivalDeadline, h.arrivalDeadline, hr.arrived.2, List.countP_nil, Nat.cast_zero,
      Int.sub_zero]

/-! ## The relation -/

namespace Twolsfqd

/-- `queue_index` is an application, and the EDF queue is there. -/
structure Formed (s : Twolsfqd) : Prop where
  index : 0 < s.numApps → s.queueIndex < s.numApps
  queue : s.iedfLlistQueue.isSome = true

/-- The application has the credits for its first request. -/
def Affordable (s : Twolsfqd) (app : Nat) : Prop :=
  ∃ item rest, s.sarcCreditList app = some (item :: rest)
    ∧ item.embedded.taskSize ≤ s.sarcCredits app

theorem Skips.formed {s s' : Twolsfqd} (h : s.Skips s') (hs : s.Formed) : s'.Formed := by
  rcases h with rfl | ⟨i, hi, rfl⟩
  · exact hs
  · exact ⟨hi, hs.queue⟩

end Twolsfqd

/-- The loop of `twolsfqd_dequeue` returns, after it tried one application after
the other. -/
theorem twolsfqdSarcNext_returns (tries : Nat) {s : Twolsfqd} (hindex : s.queueIndex < s.numApps) :
    ∃ s' next, twolsfqdSarcNext tries s = .ok (s', next)
      ∧ (next = none → ∀ k < tries, ¬ s.Affordable ((s.queueIndex + k) % s.numApps)) := by
  induction tries generalizing s with
  | zero => exact ⟨s, none, rfl, fun _ k hk => by omega⟩
  | succ tries ih =>
      have hmod : (s.queueIndex + 0) % s.numApps = s.queueIndex := Nat.mod_eq_of_lt hindex
      have hpass : ¬ s.Affordable s.queueIndex → ∃ s' next,
          twolsfqdSarcNext tries { s with queueIndex := (s.queueIndex + 1) % s.numApps }
            = .ok (s', next)
          ∧ (next = none →
            ∀ k < tries + 1, ¬ s.Affordable ((s.queueIndex + k) % s.numApps)) := by
        intro hno
        obtain ⟨s', next, hnext, hnone⟩ := ih
          (s := { s with queueIndex := (s.queueIndex + 1) % s.numApps })
          (Nat.mod_lt _ (by omega))
        refine ⟨s', next, hnext, fun hnil k hk => ?_⟩
        cases k with
        | zero =>
            rw [hmod]
            exact hno
        | succ k =>
            have hk' := hnone hnil k (by omega)
            rw [Nat.mod_add_mod] at hk'
            rw [Nat.add_comm k 1, ← Nat.add_assoc]
            exact hk'
      unfold twolsfqdSarcNext
      dsimp only
      cases hlist : s.sarcCreditList s.queueIndex with
      | none =>
          refine hpass ?_
          rintro ⟨item, rest, hhead, -⟩
          rw [hlist] at hhead
          cases hhead
      | some list =>
          cases list with
          | nil =>
              refine hpass ?_
              rintro ⟨item, rest, hhead, -⟩
              rw [hlist] at hhead
              cases hhead
          | cons item rest =>
              dsimp only [pintLlistHead, List.head?_cons]
              by_cases hpaid : item.embedded.taskSize ≤ s.sarcCredits s.queueIndex
              · rw [if_pos hpaid, pintLlistRem_head]
                exact ⟨_, _, rfl, fun hnil => by cases hnil⟩
              · rw [if_neg hpaid]
                refine hpass ?_
                rintro ⟨item', rest', hhead, hpaid'⟩
                rw [hlist] at hhead
                obtain ⟨rfl, -⟩ := List.cons.inj (Option.some.inj hhead)
                exact hpaid hpaid'

theorem twolsfqdSarcNext_found {s : Twolsfqd} (hs : s.Formed) :
    ∃ s' next, twolsfqdSarcNext s.numApps s = .ok (s', next)
      ∧ ((next = none ∧ s.Skips s' ∧ ∀ app < s.numApps, ¬ s.Affordable app)
        ∨ ∃ app item rest, next = some item ∧ app < s.numApps
          ∧ s.sarcCreditList app = some (item :: rest)
          ∧ item.embedded.taskSize ≤ s.sarcCredits app
          ∧ s' = twolsfqdSarcTake item rest { s with queueIndex := app }) := by
  by_cases hpos : 0 < s.numApps
  · have hindex := hs.index hpos
    obtain ⟨s', next, hnext, hnone⟩ := twolsfqdSarcNext_returns s.numApps hindex
    refine ⟨s', next, hnext, ?_⟩
    obtain ⟨s₁, hskips, ⟨rfl, rfl⟩ | ⟨item, rest, rfl, hlist, hpaid, rfl⟩⟩ :=
      twolsfqdSarcNext_cases hnext
    · refine .inl ⟨rfl, hskips, fun app happ => ?_⟩
      -- `app` is `k` applications behind the first that is tried
      have hno := hnone rfl ((app + s.numApps - s.queueIndex) % s.numApps) (Nat.mod_lt _ hpos)
      rw [Nat.add_mod_mod, show s.queueIndex + (app + s.numApps - s.queueIndex)
        = app + s.numApps by omega, Nat.add_mod_right, Nat.mod_eq_of_lt happ] at hno
      exact hno
    · right
      rcases hskips with rfl | ⟨i, hi, rfl⟩
      · exact ⟨s₁.queueIndex, item, rest, rfl, hindex, hlist, hpaid, rfl⟩
      · exact ⟨i, item, rest, rfl, hi hpos, hlist, hpaid, rfl⟩
  · have hzero : s.numApps = 0 := by omega
    refine ⟨s, none, ?_, .inl ⟨rfl, .inl rfl, fun app happ => by omega⟩⟩
    rw [hzero]
    rfl

/-- A request moves to the EDF queue, and a round releases `released`. -/
structure TwolsfqdMoved (clock : Nat → Timeval) (app : Nat) (item : TwolsfqdItem)
    (released kept : List TwolsfqdItem) (c c' : TwolsfqdCall) : Prop where
  known : app < c.sched.numApps
  config : c.sched.SameConfig c'.sched
  index : c'.sched.queueIndex = app
  head : ∃ rest, c.sched.sarcCreditList app = some (item :: rest)
    ∧ c'.sched.sarcCreditList = Function.update c.sched.sarcCreditList app (some rest)
  paid : item.embedded.taskSize ≤ c.sched.sarcCredits app
  credits : c'.sched.sarcCredits = Function.update c.sched.sarcCredits app
    (c.sched.sarcCredits app - item.embedded.taskSize)
  entered : ∃ queue, c.sched.iedfLlistQueue = some queue
    ∧ if c.sched.timewindowCurrentQueueLength ≠ 0 then
        StableSorted c'.sched.edfLe (queue ++ [item]) (released ++ kept)
      else released ++ kept = queue ++ [item]
  queue : c'.sched.iedfLlistQueue = some kept
  unlocked : c'.unlocked = c.unlocked ++ released.map (·.socketData.rs)
  outstanding : c'.sched.timewindowCurrentQueueLength
    = c.sched.timewindowCurrentQueueLength + released.length
  queueLength : c'.sched.edfQueueLength = c.sched.edfQueueLength + 1 - released.length
  counted : TwolsfqdCounted (clock c.sched.ticks) item released c.sched c'.sched
  deadline : ∀ id, (c'.sched.marks id).deadline = if id = item.itemId then
      (clock c.sched.ticks).add (c.sched.iedfDeadlinesTimeval 0)
    else (c.sched.marks id).deadline
  dispatched : ∀ id, (c'.sched.marks id).dispatched
    = if id ∈ released.map (·.itemId) then 1 else if id = item.itemId then 0
      else (c.sched.marks id).dispatched
  due : ∀ r ∈ released, c'.sched.Due (clock (c.sched.ticks + 1)) r
    ∨ c.sched.timewindowCurrentQueueLength < c.sched.timewindowQueueThreshold
  full : kept ≠ [] →
    c'.sched.timewindowQueueThreshold ≤ c'.sched.timewindowCurrentQueueLength
  ticks : c'.sched.ticks = c.sched.ticks + 2

/-- The list of `app` gives up `item`, which the credits pay for. -/
structure TwolsfqdTaken (app : Nat) (item : TwolsfqdItem) (rest : List TwolsfqdItem)
    (s s' : Twolsfqd) : Prop where
  config : s.SameConfig s'
  index : s'.queueIndex = app
  lists : s'.sarcCreditList = Function.update s.sarcCreditList app (some rest)
  credits : s'.sarcCredits
    = Function.update s.sarcCredits app (s.sarcCredits app - item.embedded.taskSize)
  queue : s'.iedfLlistQueue = s.iedfLlistQueue
  outstanding : s'.timewindowCurrentQueueLength = s.timewindowCurrentQueueLength
  queueLength : s'.edfQueueLength = s.edfQueueLength
  arrival : s'.timewindowArrival = s.timewindowArrival
  arrivalDeadline : s'.timewindowArrivalDeadline = s.timewindowArrivalDeadline
  ticks : s'.ticks = s.ticks
  deadline : ∀ id, (s'.marks id).deadline = (s.marks id).deadline
  timewindow : ∀ id, (s'.marks id).timewindow = (s.marks id).timewindow
  due : ∀ id,
    (s'.marks id).deadlineInCurrentTimewindow = (s.marks id).deadlineInCurrentTimewindow
  dispatched : ∀ id,
    (s'.marks id).dispatched = if id = item.itemId then 0 else (s.marks id).dispatched

theorem twolsfqdSarcTake_taken (app : Nat) (item : TwolsfqdItem) (rest : List TwolsfqdItem)
    (s : Twolsfqd) :
    TwolsfqdTaken app item rest s (twolsfqdSarcTake item rest { s with queueIndex := app }) := by
  have hmarks : ∀ id,
      (twolsfqdSarcTake item rest { s with queueIndex := app }).marks id
        = { s.marks id with
            dispatched := if id = item.itemId then 0 else (s.marks id).dispatched } := by
    intro id
    unfold twolsfqdSarcTake Twolsfqd.mark
    by_cases hid : id = item.itemId
    · subst hid
      simp
    · simp [hid]
  exact
    { config := ⟨rfl, rfl, rfl, rfl, rfl, rfl, rfl, rfl⟩
      index := rfl
      lists := rfl
      credits := rfl
      queue := rfl
      outstanding := rfl
      queueLength := rfl
      arrival := rfl
      arrivalDeadline := rfl
      ticks := rfl
      deadline := fun id => by rw [hmarks]
      timewindow := fun id => by rw [hmarks]
      due := fun id => by rw [hmarks]
      dispatched := fun id => by rw [hmarks] }

namespace TwolsfqdTaken

variable {app : Nat} {item : TwolsfqdItem} {rest released kept : List TwolsfqdItem}
  {s s₀ s₁ s' : Twolsfqd}

/-- What the window counts is counted from where the item was taken. -/
theorem counted (h : TwolsfqdTaken app item rest s s₀) {now : Timeval}
    (hc : TwolsfqdCounted now item released s₀ s') : TwolsfqdCounted now item released s s' where
  timewindow id := by
    rw [← h.config.timewindowId, ← h.timewindow]
    exact hc.timewindow id
  due id := by
    rw [← h.config.deadlines, ← h.config.windowEnd, ← h.due]
    exact hc.due id
  arrival := by
    rw [← h.arrival]
    exact hc.arrival
  arrivalDeadline := by
    rw [← h.config.deadlines, ← h.config.windowEnd, ← h.arrivalDeadline]
    exact hc.arrivalDeadline

/-- An item that is taken and enters the queue, from which a round releases `released`, has
moved. -/
theorem moved {clock : Nat → Timeval} {c c' : TwolsfqdCall} {queue : List TwolsfqdItem}
    (h : TwolsfqdTaken app item rest c.sched s₀) (happ : app < c.sched.numApps)
    (hlist : c.sched.sarcCreditList app = some (item :: rest))
    (hpaid : item.embedded.taskSize ≤ c.sched.sarcCredits app)
    (hqueue : c.sched.iedfLlistQueue = some queue)
    (ha : TwolsfqdAdmitted (clock s₀.ticks) item queue (released ++ kept) s₀ s₁)
    (hc : TwolsfqdCounted (clock s₀.ticks) item [] s₀ s₁)
    (hr : TwolsfqdReleased released kept (c.setSched (s₁.gettimeofday clock).1) c')
    (hdue : ∀ r ∈ released, s₁.Due (clock s₁.ticks) r
      ∨ s₁.timewindowCurrentQueueLength < s₁.timewindowQueueThreshold)
    (hfull : kept ≠ [] →
      c'.sched.timewindowQueueThreshold ≤ c'.sched.timewindowCurrentQueueLength) :
    TwolsfqdMoved clock app item released kept c c' := by
  have hread : s₁.SameSarc (c.setSched (s₁.gettimeofday clock).1).sched :=
    ⟨⟨rfl, rfl, rfl, rfl, rfl, rfl, rfl, rfl⟩, rfl, rfl, rfl⟩
  have hsarc := ha.sarc.trans (hread.trans hr.sarc)
  have hdeadline : ∀ id, (c'.sched.marks id).deadline = (s₁.marks id).deadline := by
    intro id
    rw [hr.marks id]
    split <;> rfl
  have hsame : c'.sched.edfLe = s₁.edfLe := by
    funext a b
    unfold Twolsfqd.edfLe
    rw [hdeadline, hdeadline]
  exact
    { known := happ
      config := h.config.trans hsarc.toSameConfig
      index := hsarc.queueIndex.trans h.index
      head := ⟨rest, hlist, hsarc.lists.trans h.lists⟩
      paid := hpaid
      credits := hsarc.credits.trans h.credits
      entered := by
        refine ⟨queue, hqueue, ?_⟩
        rw [hsame, ← h.outstanding]
        exact ha.sorted
      queue := hr.queue
      unlocked := hr.unlocked
      outstanding := by
        rw [← h.outstanding, ← ha.outstanding]
        exact hr.outstanding
      queueLength := by
        rw [← h.queueLength, ← ha.queueLength]
        exact hr.queueLength
      counted := by
        have hcounted : TwolsfqdCounted (clock s₀.ticks) item [] s₀
            (c.setSched (s₁.gettimeofday clock).1).sched :=
          ⟨hc.timewindow, hc.due, hc.arrival, hc.arrivalDeadline⟩
        rw [← h.ticks]
        exact h.counted (hcounted.released hr)
      deadline := by
        intro id
        rw [hdeadline, ha.deadline, h.deadline, h.ticks, h.config.deadlines]
      dispatched := by
        intro id
        rw [hr.marks id]
        have hkept := ha.dispatched id
        rw [h.dispatched] at hkept
        split
        · rfl
        · exact hkept
      due := by
        intro r hrel
        have hgoes := hdue r hrel
        unfold Twolsfqd.Due at hgoes ⊢
        rw [hdeadline]
        rw [ha.ticks, h.ticks, ha.outstanding, h.outstanding, ha.sarc.threshold,
          h.config.threshold] at hgoes
        exact hgoes
      full := hfull
      ticks := by
        rw [hr.ticks]
        show s₁.ticks + 1 = _
        rw [ha.ticks, h.ticks] }

end TwolsfqdTaken

theorem twolsfqdMoved_of_round (clock : Nat → Timeval) {c : TwolsfqdCall} {app : Nat}
    {item : TwolsfqdItem} {rest : List TwolsfqdItem} (happ : app < c.sched.numApps)
    (hqueue : c.sched.iedfLlistQueue.isSome = true)
    (hlist : c.sched.sarcCreditList app = some (item :: rest))
    (hpaid : item.embedded.taskSize ≤ c.sched.sarcCredits app) :
    ∃ released kept c', twolsfqdEdfRound clock item.embedded.requestSocket
        (c.setSched (twolsfqdEdfAdmit clock item
          (twolsfqdSarcTake item rest { c.sched with queueIndex := app })))
        = .ok (c', released.any fun r =>
            r.embedded.requestSocket == item.embedded.requestSocket, released.length)
      ∧ twolsfqdEdfRoundLog clock (c.setSched (twolsfqdEdfAdmit clock item
          (twolsfqdSarcTake item rest { c.sched with queueIndex := app })))
        = twolsfqdLeaves released kept
      ∧ TwolsfqdMoved clock app item released kept c c' := by
  obtain ⟨queue, hqueue⟩ := Option.isSome_iff_exists.mp hqueue
  have htaken := twolsfqdSarcTake_taken app item rest c.sched
  generalize twolsfqdSarcTake item rest { c.sched with queueIndex := app } = s₀ at *
  obtain ⟨queue', hadmitted⟩ := twolsfqdEdfAdmit_admitted clock item (htaken.queue.trans hqueue)
  have hcounted := twolsfqdEdfAdmit_counted clock item s₀
  generalize twolsfqdEdfAdmit clock item s₀ = s₁ at *
  obtain ⟨released, kept, c', rfl, hround, hreleased, hdue, hfull, -, hlog⟩ :=
    twolsfqdEdfRound_eq clock item.embedded.requestSocket (c := c.setSched s₁) hadmitted.queue
  exact ⟨released, kept, c', hround, hlog,
    htaken.moved happ hlist hpaid hqueue hadmitted hcounted hreleased hdue hfull⟩

/-- The outcome of its round is written to `item`, and `queue_index` moves on. -/
def TwolsfqdCall.settled (item : TwolsfqdItem) (dispatched : Bool) (c : TwolsfqdCall) :
    TwolsfqdCall :=
  c.setSched { twolsfqdEdfSettle item dispatched c.sched with
    queueIndex := (c.sched.queueIndex + 1) % c.sched.numApps }

/-- `twolsfqd_dequeue_all` leads from one state to another, with this history. -/
inductive TwolsfqdDrains (clock : Nat → Timeval) :
    TwolsfqdCall → List TwolsfqdEvent → TwolsfqdCall → Prop where
  | done {c : TwolsfqdCall} {s : Twolsfqd} (hskips : c.sched.Skips s)
      (hnone : ∀ app < c.sched.numApps, ¬ c.sched.Affordable app) :
      TwolsfqdDrains clock c [] (c.setSched s)
  /-- the round after the move releases nothing -/
  | move {c c₁ c' : TwolsfqdCall} {app : Nat} {item : TwolsfqdItem} {kept : List TwolsfqdItem}
      {log : List TwolsfqdEvent} (hmove : TwolsfqdMoved clock app item [] kept c c₁)
      (hrest : TwolsfqdDrains clock (c₁.settled item false) log c') :
      TwolsfqdDrains clock c (.enter item (clock c.sched.ticks) :: log) c'
  /-- it releases something, and a dispatch is nested -/
  | release {c c₁ c₂ c' : TwolsfqdCall} {app : Nat} {item : TwolsfqdItem}
      {released kept : List TwolsfqdItem} {nested log : List TwolsfqdEvent}
      (hmove : TwolsfqdMoved clock app item released kept c c₁) (hne : released ≠ [])
      (hnested : TwolsfqdDrains clock (c₁.setSched (twolsfqdUpdateSpareness clock c₁.sched))
        nested c₂)
      (hrest : TwolsfqdDrains clock (c₂.settled item (released.any fun r =>
        r.embedded.requestSocket == item.embedded.requestSocket)) log c') :
      TwolsfqdDrains clock c
        (.enter item (clock c.sched.ticks) :: (twolsfqdLeaves released kept ++ nested) ++ log) c'

/-- A round of its own releases `released`. -/
structure TwolsfqdRounded (clock : Nat → Timeval) (released kept : List TwolsfqdItem)
    (c c' : TwolsfqdCall) : Prop where
  found : c.sched.iedfLlistQueue = some (released ++ kept)
  left : TwolsfqdReleased released kept (c.setSched (c.sched.gettimeofday clock).1) c'
  due : ∀ r ∈ released, c.sched.Due (clock c.sched.ticks) r
    ∨ c.sched.timewindowCurrentQueueLength < c.sched.timewindowQueueThreshold
  full : kept ≠ [] →
    c'.sched.timewindowQueueThreshold ≤ c'.sched.timewindowCurrentQueueLength
  undue : ∀ y ∈ kept.head?, ¬ c.sched.Due (clock c.sched.ticks) y

theorem TwolsfqdRounded.sarc {clock : Nat → Timeval} {released kept : List TwolsfqdItem}
    {c c' : TwolsfqdCall} (h : TwolsfqdRounded clock released kept c c') :
    c.sched.SameSarc c'.sched := by
  have hread : c.sched.SameSarc (c.sched.gettimeofday clock).1 :=
    ⟨⟨rfl, rfl, rfl, rfl, rfl, rfl, rfl, rfl⟩, rfl, rfl, rfl⟩
  exact hread.trans h.left.sarc

theorem TwolsfqdRounded.formed {clock : Nat → Timeval} {released kept : List TwolsfqdItem}
    {c c' : TwolsfqdCall} (h : TwolsfqdRounded clock released kept c c')
    (hc : c.sched.Formed) : c'.sched.Formed where
  index := by
    rw [h.sarc.numApps, h.sarc.queueIndex]
    exact hc.index
  queue := by
    rw [h.left.queue]
    rfl

/-- What the parts of a dispatch keep. -/
structure TwolsfqdKeeps (clock : Nat → Timeval)
    (P : List TwolsfqdEvent → TwolsfqdCall → Prop) : Prop where
  skip : ∀ {h c s}, P h c → c.sched.Skips s → P h (c.setSched s)
  replenish : ∀ {h c}, P h c → P h (c.setSched (twolsfqdReplenish clock c.sched))
  move : ∀ {h c app item released kept c'}, P h c →
    TwolsfqdMoved clock app item released kept c c' →
    P (h ++ .enter item (clock c.sched.ticks) :: twolsfqdLeaves released kept) c'
  round : ∀ {h c released kept c'}, P h c → TwolsfqdRounded clock released kept c c' →
    P (h ++ twolsfqdLeaves released kept) c'
  settle : ∀ {h c} item dispatched, P h c →
    P h (c.setSched (twolsfqdEdfSettle item dispatched c.sched))

namespace TwolsfqdKeeps

variable {clock : Nat → Timeval} {P : List TwolsfqdEvent → TwolsfqdCall → Prop}
  {h log : List TwolsfqdEvent} {c c' : TwolsfqdCall}

theorem updateSpareness (hP : TwolsfqdKeeps clock P) (hc : P h c) :
    P h (c.setSched (twolsfqdUpdateSpareness clock c.sched)) := by
  unfold twolsfqdUpdateSpareness
  split
  · exact hP.replenish hc
  · exact hc

theorem settled (hP : TwolsfqdKeeps clock P) (item : TwolsfqdItem) (dispatched : Bool)
    (hc : P h c) : P h (c.settled item dispatched) := by
  have hnext := hP.skip (hP.settle item dispatched hc) (.next _)
  exact hnext

/-- **What every part keeps a dispatch keeps.** -/
theorem drains (hP : TwolsfqdKeeps clock P) (hc : P h c) (hd : TwolsfqdDrains clock c log c') :
    P (h ++ log) c' := by
  induction hd generalizing h with
  | done hskips hnone =>
      rw [List.append_nil]
      exact hP.skip hc hskips
  | @move c c₁ c' app item kept log hmove hrest ih =>
      have hrest := ih (hP.settled item false (hP.move hc hmove))
      rw [List.append_assoc] at hrest
      exact hrest
  | @release c c₁ c₂ c' app item released kept nested log hmove hne hnested hrest ihn ih =>
      have hnested := ihn (hP.updateSpareness (hP.move hc hmove))
      have hrest := ih (hP.settled item _ hnested)
      simpa only [List.append_assoc, List.cons_append] using hrest

end TwolsfqdKeeps

/-! ## A dispatch ends -/

theorem flatMap_update_perm {ι : Type} (lists : Nat → List ι) {apps : List Nat} (hnd : apps.Nodup)
    {app : Nat} (happ : app ∈ apps) (item : ι) (rest : List ι)
    (hlist : (lists app).Perm (item :: rest)) :
    (apps.flatMap lists).Perm (item :: apps.flatMap (Function.update lists app rest)) := by
  induction apps with
  | nil => cases happ
  | cons l apps ih =>
      obtain ⟨hl, hnd⟩ := List.nodup_cons.mp hnd
      rw [List.flatMap_cons, List.flatMap_cons]
      rcases List.mem_cons.mp happ with rfl | happ
      · have hsame : apps.flatMap (Function.update lists app rest) = apps.flatMap lists :=
          List.flatMap_congr fun l' hl' =>
            Function.update_of_ne (fun heq : l' = app => hl (heq ▸ hl')) ..
        rw [hsame, Function.update_self]
        exact hlist.append_right _
      · have hne : l ≠ app := fun heq => hl (heq.symm ▸ happ)
        rw [Function.update_of_ne hne]
        exact ((ih hnd happ).append_left _).trans List.perm_middle

/-- A request that moves to the EDF queue no longer waits for credits. -/
theorem TwolsfqdMoved.waiting {clock : Nat → Timeval} {app : Nat} {item : TwolsfqdItem}
    {released kept : List TwolsfqdItem} {c c' : TwolsfqdCall}
    (h : TwolsfqdMoved clock app item released kept c c') :
    c.sched.waiting.Perm (item :: c'.sched.waiting) := by
  obtain ⟨rest, hlist, hlists⟩ := h.head
  unfold Twolsfqd.waiting
  rw [h.config.numApps, hlists]
  have hperm := flatMap_update_perm (fun l => (c.sched.sarcCreditList l).getD [])
    List.nodup_range (List.mem_range.mpr h.known) item rest
    (by rw [hlist]; exact List.Perm.refl _)
  refine hperm.trans (List.Perm.cons _ (List.Perm.of_eq (List.flatMap_congr fun l _ => ?_)))
  by_cases hl : l = app
  · subst hl
    rw [Function.update_self, Function.update_self]
    rfl
  · rw [Function.update_of_ne hl, Function.update_of_ne hl]

theorem TwolsfqdMoved.formed {clock : Nat → Timeval} {app : Nat} {item : TwolsfqdItem}
    {released kept : List TwolsfqdItem} {c c' : TwolsfqdCall}
    (h : TwolsfqdMoved clock app item released kept c c') : c'.sched.Formed where
  index _ := by
    rw [h.index, h.config.numApps]
    exact h.known
  queue := by
    rw [h.queue]
    rfl

theorem TwolsfqdMoved.lists_isSome {clock : Nat → Timeval} {app : Nat} {item : TwolsfqdItem}
    {released kept : List TwolsfqdItem} {c c' : TwolsfqdCall}
    (h : TwolsfqdMoved clock app item released kept c c')
    (hlists : ∀ l, (c.sched.sarcCreditList l).isSome = true) (l : Nat) :
    (c'.sched.sarcCreditList l).isSome = true := by
  obtain ⟨rest, -, hupdate⟩ := h.head
  rw [hupdate]
  by_cases hl : l = app
  · subst hl
    rw [Function.update_self]
    rfl
  · rw [Function.update_of_ne hl]
    exact hlists l

/-- A dispatch keeps the form of the queues, and no request comes to wait. -/
theorem TwolsfqdKeeps.formed (clock : Nat → Timeval) (n : Nat) :
    TwolsfqdKeeps clock fun _ c => c.sched.Formed ∧ c.sched.waiting.length ≤ n where
  skip := by
    rintro h c s ⟨hformed, hle⟩ hskips
    refine ⟨hskips.formed hformed, ?_⟩
    rcases hskips with rfl | ⟨i, -, rfl⟩
    · exact hle
    · exact hle
  replenish := fun ⟨hformed, hle⟩ => ⟨⟨hformed.index, hformed.queue⟩, hle⟩
  move := by
    rintro h c app item released kept c' ⟨-, hle⟩ hmove
    refine ⟨hmove.formed, ?_⟩
    have hlength := hmove.waiting.length_eq
    rw [List.length_cons] at hlength
    omega
  round := by
    rintro h c released kept c' ⟨hformed, hle⟩ hround
    refine ⟨hround.formed hformed, ?_⟩
    rw [hround.sarc.waiting]
    exact hle
  settle := fun _ _ ⟨hformed, hle⟩ => ⟨⟨hformed.index, hformed.queue⟩, hle⟩

theorem TwolsfqdDrains.formed {clock : Nat → Timeval} {c c' : TwolsfqdCall}
    {log : List TwolsfqdEvent} (hd : TwolsfqdDrains clock c log c') (hc : c.sched.Formed) :
    c'.sched.Formed ∧ c'.sched.waiting.length ≤ c.sched.waiting.length :=
  (TwolsfqdKeeps.formed clock _).drains (h := []) ⟨hc, le_refl _⟩ hd

section step

variable {clock : Nat → Timeval} {c c₁ : TwolsfqdCall} {app : Nat} {item : TwolsfqdItem}
  {rest released kept : List TwolsfqdItem}
  (hfound : twolsfqdSarcNext c.sched.numApps c.sched
    = .ok (twolsfqdSarcTake item rest { c.sched with queueIndex := app }, some item))
  (hround : twolsfqdEdfRound clock item.embedded.requestSocket
      (c.setSched (twolsfqdEdfAdmit clock item
        (twolsfqdSarcTake item rest { c.sched with queueIndex := app })))
    = .ok (c₁, released.any fun r =>
        r.embedded.requestSocket == item.embedded.requestSocket, released.length))

include hfound hround

theorem twolsfqdDequeueStep_move {dequeueAll : TwolsfqdCall → Except Fault TwolsfqdCall}
    (hnone : released = []) :
    twolsfqdDequeueStep clock dequeueAll c = .ok (c₁.settled item false, some item) := by
  subst hnone
  unfold twolsfqdDequeueStep
  rw [hfound]
  dsimp only [bind, Except.bind]
  rw [twolsfqdEdfEnqueue_eq, twolsfqdEdfDequeueAll_eq]
  dsimp only [TwolsfqdCall.sched, TwolsfqdCall.setSched] at hround ⊢
  rw [hround]
  rfl

theorem twolsfqdDequeueStep_release {dequeueAll : TwolsfqdCall → Except Fault TwolsfqdCall}
    (hne : released ≠ []) {c₂ : TwolsfqdCall}
    (hnested : dequeueAll (c₁.setSched (twolsfqdUpdateSpareness clock c₁.sched)) = .ok c₂) :
    twolsfqdDequeueStep clock dequeueAll c = .ok (c₂.settled item (released.any fun r =>
      r.embedded.requestSocket == item.embedded.requestSocket), some item) := by
  have hpos : released.length > 0 := List.length_pos_iff.mpr hne
  unfold twolsfqdDequeueStep
  rw [hfound]
  dsimp only [bind, Except.bind]
  rw [twolsfqdEdfEnqueue_eq, twolsfqdEdfDequeueAll_eq]
  dsimp only [TwolsfqdCall.sched, TwolsfqdCall.setSched] at hround hnested ⊢
  rw [hround]
  dsimp only [bind, Except.bind]
  rw [if_pos hpos, hnested]
  rfl

theorem twolsfqdDequeueStepLog_eq (dequeueAllLog : TwolsfqdCall → List TwolsfqdEvent)
    (hlog : twolsfqdEdfRoundLog clock (c.setSched (twolsfqdEdfAdmit clock item
        (twolsfqdSarcTake item rest { c.sched with queueIndex := app })))
      = twolsfqdLeaves released kept) :
    twolsfqdDequeueStepLog clock dequeueAllLog c = .enter item (clock c.sched.ticks) ::
      (twolsfqdLeaves released kept ++ if released = [] then []
        else dequeueAllLog (c₁.setSched (twolsfqdUpdateSpareness clock c₁.sched))) := by
  unfold twolsfqdDequeueStepLog twolsfqdEdfDequeueAllLog
  rw [hfound]
  dsimp only
  rw [hlog, hround]
  dsimp only
  have hlength : released.length > 0 ↔ ¬ released = [] := by
    rw [gt_iff_lt, List.length_pos_iff]
  by_cases hnone : released = []
  · rw [if_neg (fun hpos => hlength.mp hpos hnone), if_pos hnone]
    rfl
  · rw [if_pos (hlength.mpr hnone), if_neg hnone]
    rfl

end step

/-- `twolsfqd_dequeue` leads from one state to another. -/
inductive TwolsfqdSteps (clock : Nat → Timeval) (c : TwolsfqdCall) :
    List TwolsfqdEvent → TwolsfqdCall → Option TwolsfqdItem → Prop where
  | idle {s : Twolsfqd} (hskips : c.sched.Skips s)
      (hnone : ∀ app < c.sched.numApps, ¬ c.sched.Affordable app) :
      TwolsfqdSteps clock c [] (c.setSched s) none
  | move {c₁ : TwolsfqdCall} {app : Nat} {item : TwolsfqdItem} {kept : List TwolsfqdItem}
      (hmove : TwolsfqdMoved clock app item [] kept c c₁) :
      TwolsfqdSteps clock c [.enter item (clock c.sched.ticks)] (c₁.settled item false) (some item)
  | release {c₁ c₂ : TwolsfqdCall} {app : Nat} {item : TwolsfqdItem}
      {released kept : List TwolsfqdItem} {nested : List TwolsfqdEvent}
      (hmove : TwolsfqdMoved clock app item released kept c c₁) (hne : released ≠ [])
      (hnested : TwolsfqdDrains clock (c₁.setSched (twolsfqdUpdateSpareness clock c₁.sched))
        nested c₂) :
      TwolsfqdSteps clock c
        (.enter item (clock c.sched.ticks) :: (twolsfqdLeaves released kept ++ nested))
        (c₂.settled item (released.any fun r =>
          r.embedded.requestSocket == item.embedded.requestSocket)) (some item)

namespace TwolsfqdSteps

variable {clock : Nat → Timeval} {c c' : TwolsfqdCall} {log : List TwolsfqdEvent}
  {next : Option TwolsfqdItem}

theorem keeps {P : List TwolsfqdEvent → TwolsfqdCall → Prop} (hP : TwolsfqdKeeps clock P)
    {h : List TwolsfqdEvent} (hc : P h c) (hs : TwolsfqdSteps clock c log c' next) :
    P (h ++ log) c' := by
  cases hs with
  | idle hskips _ =>
      rw [List.append_nil]
      exact hP.skip hc hskips
  | move hmove => exact hP.settled _ false (hP.move hc hmove)
  | @release c₁ c₂ app item released kept nested hmove _ hnested =>
      have hnested := hP.drains (hP.updateSpareness (hP.move hc hmove)) hnested
      have hsettled := hP.settled item (released.any fun r =>
        r.embedded.requestSocket == item.embedded.requestSocket) hnested
      simpa only [List.append_assoc, List.cons_append] using hsettled

/-- A request it moves does not wait any longer. -/
theorem formed (hs : TwolsfqdSteps clock c log c' next) (hc : c.sched.Formed) :
    c'.sched.Formed
      ∧ (next.isSome = true → c'.sched.waiting.length < c.sched.waiting.length) := by
  cases hs with
  | idle hskips _ => exact ⟨hskips.formed hc, fun h => by cases h⟩
  | @move c₁ app item kept hmove =>
      have hlength := hmove.waiting.length_eq
      rw [List.length_cons] at hlength
      have hsettled := (TwolsfqdKeeps.formed clock c₁.sched.waiting.length).settled (h := []) item
        false ⟨hmove.formed, le_refl _⟩
      exact ⟨hsettled.1, fun _ => by have := hsettled.2; omega⟩
  | @release c₁ c₂ app item released kept nested hmove _ hnested =>
      have hlength := hmove.waiting.length_eq
      rw [List.length_cons] at hlength
      have hkeeps := TwolsfqdKeeps.formed clock c₁.sched.waiting.length
      have hspared := hkeeps.updateSpareness (h := []) ⟨hmove.formed, le_refl _⟩
      have hdrained := hkeeps.drains (h := []) hspared hnested
      have hsettled := hkeeps.settled (h := []) item (released.any fun r =>
        r.embedded.requestSocket == item.embedded.requestSocket) hdrained
      exact ⟨hsettled.1, fun _ => by have := hsettled.2; omega⟩

end TwolsfqdSteps

/-- `twolsfqd_dequeue` returns if the dispatches it nests do. -/
theorem twolsfqdDequeueStep_steps (clock : Nat → Timeval)
    (dequeueAll : TwolsfqdCall → Except Fault TwolsfqdCall)
    (dequeueAllLog : TwolsfqdCall → List TwolsfqdEvent) {c : TwolsfqdCall} (hc : c.sched.Formed)
    (hnested : ∀ c₁ : TwolsfqdCall, c₁.sched.Formed →
      c₁.sched.waiting.length < c.sched.waiting.length →
      ∃ c₂, dequeueAll c₁ = .ok c₂ ∧ TwolsfqdDrains clock c₁ (dequeueAllLog c₁) c₂) :
    ∃ c' next, twolsfqdDequeueStep clock dequeueAll c = .ok (c', next)
      ∧ TwolsfqdSteps clock c (twolsfqdDequeueStepLog clock dequeueAllLog c) c' next := by
  obtain ⟨s', next, hfound, ⟨rfl, hskips, hnone⟩
    | ⟨app, item, rest, rfl, happ, hlist, hpaid, rfl⟩⟩ := twolsfqdSarcNext_found hc
  · have hstep : twolsfqdDequeueStep clock dequeueAll c = .ok (c.setSched s', none) := by
      unfold twolsfqdDequeueStep
      rw [hfound]
      rfl
    have hlog : twolsfqdDequeueStepLog clock dequeueAllLog c = [] := by
      unfold twolsfqdDequeueStepLog
      rw [hfound]
    rw [hstep, hlog]
    exact ⟨_, _, rfl, .idle hskips hnone⟩
  · obtain ⟨released, kept, c₁, hround, hroundLog, hmove⟩ :=
      twolsfqdMoved_of_round clock happ hc.queue hlist hpaid
    have hlog := twolsfqdDequeueStepLog_eq hfound hround dequeueAllLog hroundLog
    by_cases hnone : released = []
    · rw [twolsfqdDequeueStep_move hfound hround hnone, hlog, if_pos hnone, hnone]
      exact ⟨_, _, rfl, .move (hnone ▸ hmove)⟩
    · have hlength := hmove.waiting.length_eq
      rw [List.length_cons] at hlength
      have hspared := (TwolsfqdKeeps.formed clock c₁.sched.waiting.length).updateSpareness
        (h := []) ⟨hmove.formed, le_refl _⟩
      obtain ⟨c₂, hinner, hdrains⟩ := hnested _ hspared.1 (by have := hspared.2; omega)
      rw [twolsfqdDequeueStep_release hfound hround hnone hinner, hlog, if_neg hnone]
      exact ⟨_, _, rfl, .release hmove hnone hdrains⟩

/-- **A dispatch returns.** Every nested dispatch finds one request less that
waits for credits. -/
theorem twolsfqdDequeueLoop_drains {clock : Nat → Timeval} {bound : Nat} {c : TwolsfqdCall}
    (hc : c.sched.Formed) (hbound : c.sched.waiting.length < bound) :
    ∃ c', twolsfqdDequeueLoop clock bound c = .ok c'
      ∧ TwolsfqdDrains clock c (twolsfqdDequeueLoopLog clock bound c) c' := by
  induction bound generalizing c with
  | zero => omega
  | succ bound ih =>
      obtain ⟨c₁, next, hstep, hsteps⟩ := twolsfqdDequeueStep_steps clock
        (twolsfqdDequeueLoop clock bound) (twolsfqdDequeueLoopLog clock bound) hc
        fun c₂ hc₂ hlt => ih hc₂ (by omega)
      unfold twolsfqdDequeueLoop twolsfqdDequeueLoopLog
      rw [hstep]
      generalize twolsfqdDequeueStepLog clock (twolsfqdDequeueLoopLog clock bound) c = log
        at hsteps ⊢
      have hnext := hsteps.formed hc
      cases hsteps with
      | idle hskips hnone => exact ⟨_, rfl, .done hskips hnone⟩
      | move hmove =>
          obtain ⟨c', hloop, hrest⟩ := ih hnext.1 (by have := hnext.2 rfl; omega)
          exact ⟨c', hloop, .move hmove hrest⟩
      | release hmove hne hnested =>
          obtain ⟨c', hloop, hrest⟩ := ih hnext.1 (by have := hnext.2 rfl; omega)
          exact ⟨c', hloop, .release hmove hne hnested hrest⟩

theorem twolsfqdDequeueAll_drains (clock : Nat → Timeval) {c : TwolsfqdCall}
    (hc : c.sched.Formed) :
    ∃ c', twolsfqdDequeueAll clock c = .ok c' ∧ TwolsfqdDrains clock c
      (twolsfqdDequeueLoopLog clock (c.sched.waiting.length + 1) c) c' :=
  twolsfqdDequeueLoop_drains hc (Nat.lt_succ_self _)

theorem twolsfqdDequeueStep_returns (clock : Nat → Timeval) {c : TwolsfqdCall}
    (hc : c.sched.Formed) :
    ∃ c' next, twolsfqdDequeueStep clock (twolsfqdDequeueAll clock) c = .ok (c', next)
      ∧ TwolsfqdSteps clock c (twolsfqdDequeueStepLog clock
          (fun c => twolsfqdDequeueLoopLog clock (c.sched.waiting.length + 1) c) c) c' next :=
  twolsfqdDequeueStep_steps clock _ _ hc fun _ hc₁ _ => twolsfqdDequeueAll_drains clock hc₁

/-- A dispatch stops when no application has the credits for its first request. -/
theorem TwolsfqdDrains.not_affordable {clock : Nat → Timeval} {c c' : TwolsfqdCall}
    {log : List TwolsfqdEvent} (hd : TwolsfqdDrains clock c log c') :
    ∀ app < c'.sched.numApps, ¬ c'.sched.Affordable app := by
  induction hd with
  | done hskips hnone =>
      rcases hskips with rfl | ⟨i, -, rfl⟩
      · exact hnone
      · exact hnone
  | move _ _ ih => exact ih
  | release _ _ _ _ _ ih => exact ih

/-- `twolsfqd_edf_dequeue_all` leads from one state to another: a round, and a
dispatch if it released something. -/
inductive TwolsfqdRounds (clock : Nat → Timeval) (c : TwolsfqdCall) :
    List TwolsfqdEvent → TwolsfqdCall → Prop where
  | rest {c₁ : TwolsfqdCall} {kept : List TwolsfqdItem}
      (hround : TwolsfqdRounded clock [] kept c c₁) : TwolsfqdRounds clock c [] c₁
  | release {c₁ c' : TwolsfqdCall} {released kept : List TwolsfqdItem}
      {nested : List TwolsfqdEvent} (hround : TwolsfqdRounded clock released kept c c₁)
      (hne : released ≠ [])
      (hnested : TwolsfqdDrains clock (c₁.setSched (twolsfqdUpdateSpareness clock c₁.sched))
        nested c') :
      TwolsfqdRounds clock c (twolsfqdLeaves released kept ++ nested) c'

/-- What the parts keep, a round keeps with all that follows. -/
theorem TwolsfqdRounds.keeps {clock : Nat → Timeval} {P : List TwolsfqdEvent → TwolsfqdCall → Prop}
    (hP : TwolsfqdKeeps clock P) {h log : List TwolsfqdEvent} {c c' : TwolsfqdCall} (hc : P h c)
    (hr : TwolsfqdRounds clock c log c') : P (h ++ log) c' := by
  cases hr with
  | rest hround => exact hP.round hc hround
  | release hround _ hnested =>
      rw [← List.append_assoc]
      exact hP.drains (hP.updateSpareness (hP.round hc hround)) hnested

theorem twolsfqdEdfDequeueAll_rounds (clock : Nat → Timeval) (enqueuedSocket : Int)
    {c : TwolsfqdCall} (hc : c.sched.Formed) :
    ∃ c' dispatched, twolsfqdEdfDequeueAll clock (twolsfqdDequeueAll clock) enqueuedSocket c
        = .ok (c', dispatched)
      ∧ TwolsfqdRounds clock c (twolsfqdEdfDequeueAllLog clock
          (fun c => twolsfqdDequeueLoopLog clock (c.sched.waiting.length + 1) c) enqueuedSocket c)
        c' := by
  obtain ⟨queue, hqueue⟩ := Option.isSome_iff_exists.mp hc.queue
  obtain ⟨released, kept, c₁, rfl, hround, hreleased, hdue, hfull, hundue, hlog⟩ :=
    twolsfqdEdfRound_eq clock enqueuedSocket hqueue
  have hrounded : TwolsfqdRounded clock released kept c c₁ :=
    ⟨hqueue, hreleased, hdue, hfull, hundue⟩
  unfold twolsfqdEdfDequeueAllLog
  rw [twolsfqdEdfDequeueAll_eq, hround, hlog]
  by_cases hnone : released = []
  · subst hnone
    exact ⟨c₁, _, rfl, .rest hrounded⟩
  · have hpos : released.length > 0 := List.length_pos_iff.mpr hnone
    have hkeeps := TwolsfqdKeeps.formed clock c.sched.waiting.length
    have hspared := hkeeps.updateSpareness (h := [])
      (hkeeps.round (h := []) ⟨hc, le_refl _⟩ hrounded)
    obtain ⟨c', hnested, hdrains⟩ := twolsfqdDequeueAll_drains clock hspared.1
    refine ⟨c', released.any fun r => r.embedded.requestSocket == enqueuedSocket, ?_, ?_⟩
    · dsimp only [bind, Except.bind]
      rw [if_pos hpos, hnested]
      rfl
    · dsimp only
      rw [if_pos hpos]
      exact .release hrounded hnone hdrains

end PvfsProxy
