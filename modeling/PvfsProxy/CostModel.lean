import PvfsProxy.Twolsfqd

/-!
# The history cost model

`cost_model_history.c` under `COST_MODEL_GPA`: response times are kept in one set of
arrays for reads and one for writes (`History`), and the functions reach them
through global pointers, which each call redirects (`CostModel`).

`updateHistory` redirects the pointer to the period averages, `getExpectedResp`
does not: it computes from the averages of the last update. `History.step` is the
model of one set of arrays on its own, and a run whose queries find their own
averages keeps to it (`history_eq_foldl`).
-/

namespace PvfsProxy

/-- The two sets of arrays. -/
inductive IoSide where
  | read | write
deriving Repr, DecidableEq

/-- The arrays a call with this `io_type` is about. -/
def IoSide.of (ioType : Int) : IoSide := if ioType = pvfsIoRead then .read else .write

def costMostRecentSlot : Nat := 10
def costMediumRecentSlot : Nat := 20
def costMostDistantSlot : Nat := 30
def costTotalHistory : Nat := costMostRecentSlot + costMediumRecentSlot + costMostDistantSlot

def costMostRecentWeight : Int := 85
def costMediumRecentWeight : Int := 10
def costMostDistantWeight : Int := 5
def costTotalWeight : Int := costMostRecentWeight + costMediumRecentWeight + costMostDistantWeight

def idleThreshold : Int := 10000

/-- One set of arrays, by application, with the slot written next. -/
structure History where
  responseTimes : Nat → Nat → Int
  locations : Nat → Nat → Int
  serviceLengths : Nat → Nat → Int
  periodAverages : Nat → Int × Int × Int
  respTimeValid : Nat → Int
  expectedRespTime : Nat → Int
  lastHistoryIndex : Nat

/-- The globals of the cost model. A pointer is NULL or points at the arrays of
one side. -/
structure CostModel where
  history : IoSide → History
  lastRequest : Nat → Timeval
  historyResponseTimes : Option IoSide
  historyLocations : Option IoSide
  historyServiceLengths : Option IoSide
  historyPeriodAverages : Option IoSide
  respTimeValid : Option IoSide
  expectedRespTime : Option IoSide

def setSlot (array : Nat → Nat → Int) (app slot : Nat) (value : Int) : Nat → Nat → Int :=
  Function.update array app (Function.update (array app) slot value)

def Timeval.sub (a b : Timeval) : Timeval :=
  if a.usec - b.usec < 0 then { sec := a.sec - b.sec - 1, usec := a.usec - b.usec + 1000000 }
  else { sec := a.sec - b.sec, usec := a.usec - b.usec }

/-- `cost_model_history_init` -/
def initHistory : History where
  responseTimes _ _ := 1024
  locations _ _ := 0
  serviceLengths _ _ := 0
  periodAverages _ := (1024, 1024, 1024)
  respTimeValid _ := -1
  -- every byte is set to 1
  expectedRespTime _ := 0x01010101
  lastHistoryIndex := 0

def costModelHistoryInit : CostModel where
  history _ := initHistory
  lastRequest _ := ⟨0, 0⟩
  historyResponseTimes := none
  historyLocations := none
  historyServiceLengths := none
  historyPeriodAverages := none
  respTimeValid := none
  expectedRespTime := none

namespace CostModel

/-- What a pointer points at. -/
def load (s : CostModel) (p : Option IoSide) : Except Fault History :=
  match p with
  | none => .error .nullPointer
  | some side => .ok (s.history side)

def store (s : CostModel) (p : Option IoSide) (f : History → History) :
    Except Fault CostModel :=
  match p with
  | none => .error .nullPointer
  | some side => .ok { s with history := Function.update s.history side (f (s.history side)) }

def movingAverage (slots : Nat) (average value : Int) : Int :=
  (toInt32 (toInt32 (average * (slots - 1)) + value)).tdiv slots

def updateAverage (app : Nat) (newValue1 newValue2 newValue3 ioType : Int) (s : CostModel) :
    Except Fault CostModel := do
  let s := { s with historyPeriodAverages := some (IoSide.of ioType) }
  s.store s.historyPeriodAverages fun h =>
    let (average1, average2, average3) := h.periodAverages app
    { h with
      periodAverages := Function.update h.periodAverages app
        (movingAverage costMostRecentSlot average1 newValue1,
          movingAverage costMediumRecentSlot average2 newValue2,
          movingAverage costMostDistantSlot average3 newValue3) }

def updateHistory (app : Nat) (location length respTime ioType : Int) (s : CostModel) :
    Except Fault CostModel := do
  let side := IoSide.of ioType
  let s := { s with
    historyResponseTimes := some side
    historyLocations := some side
    historyServiceLengths := some side
    respTimeValid := some side }
  let i := (s.history side).lastHistoryIndex
  let s ← s.store s.historyResponseTimes fun h =>
    { h with responseTimes := setSlot h.responseTimes app i respTime }
  let s ← s.store s.historyLocations fun h =>
    { h with locations := setSlot h.locations app i location }
  let s ← s.store s.historyServiceLengths fun h =>
    { h with serviceLengths := setSlot h.serviceLengths app i length }
  let h ← s.load s.historyResponseTimes
  let newValue2 := h.responseTimes app ((i + costMostRecentSlot) % costTotalHistory)
  let newValue3 := h.responseTimes app
    ((i + costMostRecentSlot + costMediumRecentSlot) % costTotalHistory)
  let s ← s.updateAverage app respTime newValue2 newValue3 ioType
  let s := { s with
    history := Function.update s.history side
      { s.history side with lastHistoryIndex := (i + 1) % costTotalHistory } }
  s.store s.respTimeValid fun h =>
    { h with respTimeValid := Function.update h.respTimeValid app (-1) }

/-- The weighted average of the three periods. -/
def weighted (weight1 weight2 weight3 : Int) (averages : Int × Int × Int) : Int :=
  (toInt32 (toInt32 (toInt32 (weight1 * averages.1) + toInt32 (weight2 * averages.2.1))
    + toInt32 (weight3 * averages.2.2))).tdiv costTotalWeight

/-- What is expected now: after long idleness the distant past counts most. -/
def expectation (lastRequest now : Timeval) (averages : Int × Int × Int) : Int :=
  if (now.sub lastRequest).sec ≥ idleThreshold then
    weighted costMostDistantWeight costMediumRecentWeight costMostRecentWeight averages
  else weighted costMostRecentWeight costMediumRecentWeight costMostDistantWeight averages

/-- `get_expected_resp` at the time `now`, with what it returns. -/
def getExpectedResp (app : Nat) (ioType : Int) (now : Timeval) (s : CostModel) :
    Except Fault (CostModel × Int) := do
  let side := IoSide.of ioType
  let s := { s with respTimeValid := some side, expectedRespTime := some side }
  let valid ← s.load s.respTimeValid
  if valid.respTimeValid app ≠ 1 then
    let averages ← s.load s.historyPeriodAverages
    let expected := expectation (s.lastRequest app) now (averages.periodAverages app)
    let s ← s.store s.expectedRespTime fun h =>
      { h with expectedRespTime := Function.update h.expectedRespTime app expected }
    let s ← s.store s.respTimeValid fun h =>
      { h with respTimeValid := Function.update h.respTimeValid app 1 }
    let h ← s.load s.expectedRespTime
    return (s, h.expectedRespTime app)
  else
    let h ← s.load s.expectedRespTime
    return (s, h.expectedRespTime app)

/-! ## Calls -/

inductive Call where
  | update (app : Nat) (location length respTime ioType : Int)
  | expected (app : Nat) (ioType : Int) (now : Timeval)
deriving Repr, DecidableEq

def Call.ioType : Call → Int
  | update _ _ _ _ ioType => ioType
  | expected _ ioType _ => ioType

def Call.isRead (c : Call) : Bool := IoSide.of c.ioType == .read

def step (s : CostModel) : Call → Except Fault CostModel
  | .update app location length respTime ioType =>
    s.updateHistory app location length respTime ioType
  | .expected app ioType now => do
    let (s, _) ← s.getExpectedResp app ioType now
    return s

/-- A read query that has to compute finds the averages of the reads: the last
update was one of a read. -/
def FindsReads (s : CostModel) : Call → Prop
  | .update .. => True
  | .expected app ioType _ => IoSide.of ioType = .read →
      (s.history .read).respTimeValid app ≠ 1 → s.historyPeriodAverages = some .read

instance (s : CostModel) : (c : Call) → Decidable (s.FindsReads c)
  | .update .. => inferInstanceAs (Decidable True)
  | .expected _ _ _ => inferInstanceAs (Decidable (_ → _ → _))

end CostModel

/-! ## One set of arrays on its own -/

namespace History

open CostModel

/-- What an update does to its own side. -/
def updated (app : Nat) (location length respTime : Int) (h : History) : History :=
  let i := h.lastHistoryIndex
  let times := setSlot h.responseTimes app i respTime
  let (average1, average2, average3) := h.periodAverages app
  { responseTimes := times
    locations := setSlot h.locations app i location
    serviceLengths := setSlot h.serviceLengths app i length
    periodAverages := Function.update h.periodAverages app
      (movingAverage costMostRecentSlot average1 respTime,
        movingAverage costMediumRecentSlot average2
          (times app ((i + costMostRecentSlot) % costTotalHistory)),
        movingAverage costMostDistantSlot average3
          (times app ((i + costMostRecentSlot + costMediumRecentSlot) % costTotalHistory)))
    respTimeValid := Function.update h.respTimeValid app (-1)
    expectedRespTime := h.expectedRespTime
    lastHistoryIndex := (i + 1) % costTotalHistory }

/-- What a query finds, or computes from the averages given. -/
def value (lastRequest : Nat → Timeval) (app : Nat) (now : Timeval)
    (averages : Int × Int × Int) (h : History) : Int :=
  if h.respTimeValid app ≠ 1 then expectation (lastRequest app) now averages
  else h.expectedRespTime app

/-- What a query does to its own side. -/
def queried (lastRequest : Nat → Timeval) (app : Nat) (now : Timeval)
    (averages : Int × Int × Int) (h : History) : History :=
  if h.respTimeValid app ≠ 1 then
    { h with
      expectedRespTime := Function.update h.expectedRespTime app
        (expectation (lastRequest app) now averages)
      respTimeValid := Function.update h.respTimeValid app 1 }
  else h

/-- A call on a side that uses its own averages. -/
def step (h : History) : Call → History
  | .update app location length respTime _ => h.updated app location length respTime
  | .expected app _ now => h.queried (fun _ => ⟨0, 0⟩) app now (h.periodAverages app)

end History

/-! ## The calls, on the side they are about -/

namespace CostModel

variable {app : Nat} {location length respTime ioType : Int} {now : Timeval} {s s' : CostModel}

/-- An update writes to its own side, and redirects the pointers there. -/
theorem updateHistory_eq (app : Nat) (location length respTime ioType : Int) (s : CostModel) :
    s.updateHistory app location length respTime ioType = .ok
      { s with
        history := Function.update s.history (IoSide.of ioType)
          ((s.history (IoSide.of ioType)).updated app location length respTime)
        historyResponseTimes := some (IoSide.of ioType)
        historyLocations := some (IoSide.of ioType)
        historyServiceLengths := some (IoSide.of ioType)
        historyPeriodAverages := some (IoSide.of ioType)
        respTimeValid := some (IoSide.of ioType) } := by
  simp [updateHistory, updateAverage, store, load, bind, Except.bind, History.updated]

/-- A query writes to its own side, but computes from the averages the pointer was
left at. -/
theorem getExpectedResp_eq (app : Nat) (ioType : Int) (now : Timeval) (s : CostModel)
    {side : IoSide} (hside : (s.history (IoSide.of ioType)).respTimeValid app ≠ 1 →
      s.historyPeriodAverages = some side) :
    s.getExpectedResp app ioType now = .ok
      ({ s with
        history := Function.update s.history (IoSide.of ioType)
          ((s.history (IoSide.of ioType)).queried s.lastRequest app now
            ((s.history side).periodAverages app))
        respTimeValid := some (IoSide.of ioType)
        expectedRespTime := some (IoSide.of ioType) },
      (s.history (IoSide.of ioType)).value s.lastRequest app now
        ((s.history side).periodAverages app)) := by
  by_cases hvalid : (s.history (IoSide.of ioType)).respTimeValid app = 1
  · simp [getExpectedResp, load, bind, Except.bind, pure, Except.pure, History.queried,
      History.value, hvalid]
  · simp [getExpectedResp, load, store, bind, Except.bind, pure, Except.pure, History.queried,
      History.value, hvalid, hside hvalid]

theorem of_isRead {c : Call} (h : c.isRead = true) : IoSide.of c.ioType = .read := by
  simpa [Call.isRead] using h

theorem of_not_isRead {c : Call} (h : c.isRead = false) : IoSide.of c.ioType = .write := by
  cases hside : IoSide.of c.ioType with
  | read => simp [Call.isRead, hside] at h
  | write => rfl

theorem step_of_isRead {c : Call} (hread : c.isRead = true) (hfinds : s.FindsReads c)
    (hlast : s.lastRequest = fun _ => ⟨0, 0⟩) (h : s.step c = .ok s') :
    s'.history .read = (s.history .read).step c ∧ s'.lastRequest = s.lastRequest := by
  have hside := of_isRead hread
  cases c with
  | update app location length respTime ioType =>
      rw [step, updateHistory_eq] at h
      obtain rfl := Except.ok.inj h
      simp only [Call.ioType] at hside
      simp [hside, History.step]
  | expected app ioType now =>
      simp only [Call.ioType] at hside
      have hown : (s.history (IoSide.of ioType)).respTimeValid app ≠ 1 →
          s.historyPeriodAverages = some .read := by
        rw [hside]
        exact hfinds hside
      rw [step, getExpectedResp_eq app ioType now s hown] at h
      obtain rfl := Except.ok.inj h
      simp [hside, History.step, hlast]

theorem step_of_not_isRead {c : Call} (hwrite : c.isRead = false) (h : s.step c = .ok s') :
    s'.history .read = s.history .read ∧ s'.lastRequest = s.lastRequest := by
  have hside := of_not_isRead hwrite
  cases c with
  | update app location length respTime ioType =>
      rw [step, updateHistory_eq] at h
      obtain rfl := Except.ok.inj h
      simp only [Call.ioType] at hside
      simp [hside]
  | expected app ioType now =>
      simp only [Call.ioType] at hside
      -- a query that returns has found some averages, or did not need them
      obtain ⟨side, hown⟩ : ∃ side, (s.history (IoSide.of ioType)).respTimeValid app ≠ 1 →
          s.historyPeriodAverages = some side := by
        cases hp : s.historyPeriodAverages with
        | some side => exact ⟨side, fun _ => rfl⟩
        | none =>
            refine ⟨.read, fun hvalid => ?_⟩
            simp [step, getExpectedResp, load, bind, Except.bind, hvalid, hp] at h
      rw [step, getExpectedResp_eq app ioType now s hown] at h
      obtain rfl := Except.ok.inj h
      simp [hside]

/-! ## Runs -/

theorem history_eq_foldl {calls : List Call}
    (h : Machine.Run FindsReads step costModelHistoryInit calls s) :
    s.history .read = (calls.filter Call.isRead).foldl History.step initHistory
      ∧ s.lastRequest = fun _ => ⟨0, 0⟩ := by
  induction h with
  | nil => exact ⟨rfl, rfl⟩
  | @snoc calls t u c _ hfinds hstep ih =>
      obtain ⟨hhistory, hlast⟩ := ih
      cases hc : c.isRead with
      | true =>
          obtain ⟨hread, hkept⟩ := step_of_isRead hc hfinds hlast hstep
          simp [List.filter_append, hc, hread, hhistory, hkept, hlast]
      | false =>
          obtain ⟨hread, hkept⟩ := step_of_not_isRead hc hstep
          simp [List.filter_append, hc, hread, hhistory, hkept, hlast]

end CostModel

/-- **Reads do not see writes.** Two runs with the same read calls, in which every
read query that computes finds the last update to be one of a read, answer the next
such query alike, for every application. -/
theorem expected_reads_independent {calls calls' : List CostModel.Call} {s s' : CostModel}
    (h : Machine.Run CostModel.FindsReads CostModel.step costModelHistoryInit calls s)
    (h' : Machine.Run CostModel.FindsReads CostModel.step costModelHistoryInit calls' s')
    (hreads : calls.filter CostModel.Call.isRead = calls'.filter CostModel.Call.isRead)
    {app : Nat} {now : Timeval} (hfinds : s.FindsReads (.expected app pvfsIoRead now))
    (hfinds' : s'.FindsReads (.expected app pvfsIoRead now)) :
    ∃ expected, (s.getExpectedResp app pvfsIoRead now).map Prod.snd = .ok expected
      ∧ (s'.getExpectedResp app pvfsIoRead now).map Prod.snd = .ok expected := by
  obtain ⟨hhistory, hlast⟩ := CostModel.history_eq_foldl h
  obtain ⟨hhistory', hlast'⟩ := CostModel.history_eq_foldl h'
  have hside : IoSide.of pvfsIoRead = .read := rfl
  have hsame : s'.history .read = s.history .read := by rw [hhistory, hhistory', hreads]
  refine ⟨(s.history .read).value s.lastRequest app now
    ((s.history .read).periodAverages app), ?_, ?_⟩
  · rw [CostModel.getExpectedResp_eq app pvfsIoRead now s (hfinds hside)]
    rfl
  · rw [CostModel.getExpectedResp_eq app pvfsIoRead now s' (hfinds' hside), hside, hsame, hlast,
      hlast']
    rfl

/-- A read update, without and with a write update before it. -/
theorem expected_reads_independent_example :
    ∃ s s' : CostModel, ∃ expected,
      (s.getExpectedResp 0 pvfsIoRead ⟨1000000, 0⟩).map Prod.snd = .ok expected
        ∧ (s'.getExpectedResp 0 pvfsIoRead ⟨1000000, 0⟩).map Prod.snd = .ok expected := by
  obtain ⟨s, hrun, hs⟩ := Machine.Run.exists_of_exec CostModel.FindsReads CostModel.step
    costModelHistoryInit [.update 0 0 4096 2000 pvfsIoRead]
    (fun s => decide (s.FindsReads (.expected 0 pvfsIoRead ⟨1000000, 0⟩)))
    (a := true) (by decide +kernel)
  obtain ⟨s', hrun', hs'⟩ := Machine.Run.exists_of_exec CostModel.FindsReads CostModel.step
    costModelHistoryInit
    [.update 0 0 4096 50000 pvfsIoWrite, .update 0 0 4096 2000 pvfsIoRead]
    (fun s => decide (s.FindsReads (.expected 0 pvfsIoRead ⟨1000000, 0⟩)))
    (a := true) (by decide +kernel)
  exact ⟨s, s', expected_reads_independent hrun hrun' (by decide) (of_decide_eq_true hs)
    (of_decide_eq_true hs')⟩

/-- A write update after the read update shows in what is expected of reads. -/
theorem expected_reads_leak :
    ∃ s s' : CostModel, ∃ calls calls' : List CostModel.Call,
      Machine.Run (fun _ _ => True) CostModel.step costModelHistoryInit calls s
      ∧ Machine.Run (fun _ _ => True) CostModel.step costModelHistoryInit calls' s'
      ∧ calls.filter CostModel.Call.isRead = calls'.filter CostModel.Call.isRead
      ∧ .update 0 0 4096 2000 pvfsIoRead ∈ calls ∧ .update 0 0 4096 2000 pvfsIoRead ∈ calls'
      ∧ (s.getExpectedResp 0 pvfsIoRead ⟨1000000, 0⟩).toOption.map Prod.snd = some 1028
      ∧ (s'.getExpectedResp 0 pvfsIoRead ⟨1000000, 0⟩).toOption.map Prod.snd = some 1268 := by
  obtain ⟨s, hrun, hs⟩ := Machine.Run.exists_of_exec (fun _ _ => True) CostModel.step
    costModelHistoryInit [.update 0 0 4096 2000 pvfsIoRead]
    (fun s => (s.getExpectedResp 0 pvfsIoRead ⟨1000000, 0⟩).toOption.map Prod.snd)
    (a := some 1028) (by decide +kernel)
  obtain ⟨s', hrun', hs'⟩ := Machine.Run.exists_of_exec (fun _ _ => True) CostModel.step
    costModelHistoryInit
    [.update 0 0 4096 2000 pvfsIoRead, .update 0 0 4096 50000 pvfsIoWrite]
    (fun s => (s.getExpectedResp 0 pvfsIoRead ⟨1000000, 0⟩).toOption.map Prod.snd)
    (a := some 1268) (by decide +kernel)
  exact ⟨s, s', _, _, hrun, hrun', by decide, by decide, by decide, hs, hs'⟩

end PvfsProxy
