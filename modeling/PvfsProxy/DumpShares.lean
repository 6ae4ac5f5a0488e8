import PvfsProxy.DumpEncoding
import PvfsProxy.Striping

/-!
# What a parsed request is charged

`check_request` turns the `struct dist` of an I/O request into what it asks of
the scheduler: a write or a small I/O by its share, a read by an equal part of
the aggregate size. Both divide, and both use fields that not every
distribution sets.

`chargeIo` is that code with the two faults kept apart, and
`charge_defined` says which accepted requests are charged without either.
-/

namespace PvfsProxy

open Formats

inductive UseFault where
  /-- a field of `struct dist` is used that was not set -/
  | unassigned
  | machine (fault : Fault)
deriving Repr, DecidableEq

def assigned (field : Option Int) : Except UseFault Int :=
  match field with
  | some z => .ok z
  | none => .error .unassigned

def logicalToPhysicalSizeDparam (dparam : DumpedDist) : Except UseFault Int := do
  let stripSize ← assigned dparam.stripeSize
  (getMyShare stripSize dparam.totalServerNumber (toInt64 dparam.dataFileOffset)
    (toInt64 dparam.aggregateSize) dparam.currentServerNumber (-1)).mapError .machine

/-- The `pvfs_info` of a request that is scheduled. -/
def chargeIo (dist : DumpedDist) (tag size : Int) (op : PvfsServerOp) (small : Bool)
    (ioType : Int) : Except UseFault PvfsInfo :=
  let pi : PvfsInfo :=
    { op, ioType, tag, aggregateSize := dist.aggregateSize,
      currentServer := dist.currentServerNumber, totalServer := dist.totalServerNumber,
      reqSize := size, reqOffset := dist.dataFileOffset }
  if ioType == pvfsIoWrite || small then do
    let thisSize ← logicalToPhysicalSizeDparam dist
    if small then
      let smallTotal ← assigned dist.smallTotal
      return { pi with currentDataSize := smallTotal }
    else return { pi with currentDataSize := thisSize }
  else if dist.totalServerNumber = 0 then .error (.machine .divisionByZero)
  else do
    -- the division is that of `unsigned long long`
    let thisSize := toInt32 (dist.aggregateSize / toUInt64 dist.totalServerNumber)
    let stripSize ← assigned dist.stripeSize
    return { pi with currentDataSize := thisSize, stripSize }

/-- Neither an unset field nor a zero divisor is used. -/
def Defined {α : Type} (r : Except UseFault α) : Prop :=
  r ≠ .error .unassigned ∧ r ≠ .error (.machine .divisionByZero)

/-! ## In `check_request` -/

/-- The configuration reads of the message what `dump.c` does. -/
structure Parses {σ ι : Type} (cfg : Config σ ι) (msg : List UInt8) (small : Bool) (ioType : Int)
    (dist : DumpedDist) : Prop where
  ioType : cfg.dumpHeader2 msg small = ioType
  currentServer : (cfg.dumpHeader msg).currentServerNumber = dist.currentServerNumber
  totalServer : (cfg.dumpHeader msg).totalServerNumber = dist.totalServerNumber
  aggregateSize : (cfg.dumpHeader msg).aggregateSize = dist.aggregateSize
  dataFileOffset : (cfg.dumpHeader msg).dataFileOffset = dist.dataFileOffset
  stripeSize {z : Int} : dist.stripeSize = some z → (cfg.dumpHeader msg).stripeSize = z
  smallTotal {z : Int} : dist.smallTotal = some z → (cfg.dumpHeader msg).smallTotal = z
  share {z : Int} : logicalToPhysicalSizeDparam dist = .ok z →
    cfg.logicalToPhysicalSizeDparam (cfg.dumpHeader msg) = z

theorem assigned_eq_ok {field : Option Int} {z : Int} :
    assigned field = .ok z ↔ field = some z := by
  cases field <;> simp [assigned]

/-- A request that is charged is admitted with its charge. -/
theorem scheduleRequest_charged {σ ι : Type} {cfg : Config σ ι} {c : Conn σ ι} {p counter : Addr}
    {tag size ioType : Int} {op : PvfsServerOp} {msg : List UInt8} {dist : DumpedDist}
    {pi : PvfsInfo} (h : Parses cfg msg (op == .smallIo) ioType dist) (hop : isIoOp op = true)
    (hs : schedulesIo cfg.schedulerOn (op == .smallIo) ioType = true)
    (hpi : chargeIo dist tag size op (op == .smallIo) ioType = .ok pi) :
    ∃ si w, scheduleRequest cfg c p counter tag size op msg
      = callAdmit cfg c si pi .newIo pi.currentDataSize w := by
  have hio : op = .io ∨ op = .smallIo := by simpa [isIoOp] using hop
  simp only [schedulesIo, Bool.and_eq_true] at hs
  obtain ⟨hon, hs⟩ := hs
  rw [scheduleRequest, if_pos hio]
  simp only [h.ioType, hon, Bool.true_and]
  have hfields := And.intro h.currentServer <| And.intro h.totalServer <|
    And.intro h.aggregateSize h.dataFileOffset
  rw [chargeIo] at hpi
  simp only at hpi
  split at hpi
  · rename_i hwrite
    rw [if_pos hwrite]
    obtain ⟨thisSize, hshare, hpi⟩ := Machine.bind_eq_ok.mp hpi
    refine ⟨_, _, congrArg (fun pi => callAdmit cfg c _ pi .newIo pi.currentDataSize _) ?_⟩
    split at hpi
    · rename_i hsmall
      obtain ⟨smallTotal, htotal, hpi⟩ := Machine.bind_eq_ok.mp hpi
      cases hpi
      simp only [ioInfo, hsmall, if_true, hfields, h.smallTotal (assigned_eq_ok.mp htotal)]
    · rename_i hsmall
      cases hpi
      simp only [ioInfo, if_neg hsmall, hfields, h.share hshare]
  rename_i hread
  have hs' : (ioType == pvfsIoRead) = true := by
    simp_all
  rw [if_neg hread]
  split at hpi
  · cases hpi
  · rename_i hservers
    obtain ⟨stripSize, hstrip, hpi⟩ := Machine.bind_eq_ok.mp hpi
    rw [if_pos hs', if_neg (by rwa [h.totalServer])]
    refine ⟨_, _, congrArg (fun pi => callAdmit cfg c _ pi .newIo pi.currentDataSize _) ?_⟩
    cases hpi
    simp only [ioInfo, hfields, h.stripeSize (assigned_eq_ok.mp hstrip)]

/-! ## Divisors -/

theorem shareWithin_ne {stripSize askSize serverNr leftOverFirst smallFirstLeftOver : Int} :
    shareWithin stripSize askSize serverNr leftOverFirst smallFirstLeftOver
      ≠ .error .divisionByZero := by
  unfold shareWithin
  split
  · simp
  simp only
  split
  · simp
  repeat' split
  all_goals simp

/-- `get_my_share` divides by zero where a whole stripe is empty, and there only. -/
theorem getMyShare_divisionByZero {stripSize count offset ask server actual : Int} :
    getMyShare stripSize count offset ask server actual = .error .divisionByZero
      ↔ toInt32 (stripSize * count) = 0 := by
  by_cases hwhole : toInt32 (stripSize * count) = 0
  · refine iff_of_true ?_ hwhole
    rw [getMyShare]
    simp only [hwhole, if_true]
    rfl
  · refine iff_of_false (fun hrun => ?_) hwhole
    rw [getMyShare] at hrun
    simp only [hwhole, if_false] at hrun
    split at hrun
    · exact bind_pure_ne.mpr shareWithin_ne hrun
    · cases hrun

/-- The share of a request is defined where its stripe is set and not empty. -/
theorem logicalToPhysicalSizeDparam_defined {dparam : DumpedDist} :
    Defined (logicalToPhysicalSizeDparam dparam)
      ↔ ∃ stripSize, dparam.stripeSize = some stripSize
        ∧ toInt32 (stripSize * dparam.totalServerNumber) ≠ 0 := by
  rcases hstripe : dparam.stripeSize with _ | stripSize
  · simp [logicalToPhysicalSizeDparam, Defined, hstripe, assigned, bind, Except.bind]
  · have hrun : logicalToPhysicalSizeDparam dparam
        = (getMyShare stripSize dparam.totalServerNumber (toInt64 dparam.dataFileOffset)
          (toInt64 dparam.aggregateSize) dparam.currentServerNumber (-1)).mapError .machine := by
      simp [logicalToPhysicalSizeDparam, hstripe, assigned, bind, Except.bind]
    have hzero := @getMyShare_divisionByZero stripSize dparam.totalServerNumber
      (toInt64 dparam.dataFileOffset) (toInt64 dparam.aggregateSize)
      dparam.currentServerNumber (-1)
    rw [hrun, Defined]
    rcases hshare : getMyShare stripSize dparam.totalServerNumber (toInt64 dparam.dataFileOffset)
      (toInt64 dparam.aggregateSize) dparam.currentServerNumber (-1) with fault | z
    · rw [hshare] at hzero
      simpa [Except.mapError] using hzero.not
    · rw [hshare] at hzero
      simpa [Except.mapError] using hzero.not

/-- What is divided by: the size of a whole stripe, or the number of servers. -/
def divisor (wholeStrip : Bool) (stripSize serverCount : Int) : Int :=
  if wholeStrip then toInt32 (stripSize * serverCount) else serverCount

/-- What a request needs to be charged: a stripe size, and a divisor that is not zero. -/
def Divisible (dist : DumpedDist) (small : Bool) (ioType : Int) : Prop :=
  ∃ stripSize, dist.stripeSize = some stripSize
    ∧ divisor (ioType == pvfsIoWrite || small) stripSize dist.totalServerNumber ≠ 0

theorem defined_bind_pure {α β : Type} {x : Except UseFault α} {g : α → β} :
    Defined (x >>= fun a => pure (g a)) ↔ Defined x :=
  and_congr bind_pure_ne bind_pure_ne

theorem chargeIo_defined {dist : DumpedDist} {tag size : Int} {op : PvfsServerOp} {small : Bool}
    {ioType : Int} (htotal : small = true → dist.smallTotal.isSome) :
    Defined (chargeIo dist tag size op small ioType) ↔ Divisible dist small ioType := by
  rw [chargeIo, Divisible]
  simp only [divisor]
  split
  · rw [← logicalToPhysicalSizeDparam_defined]
    rcases hsmall : small with _ | _
    · exact defined_bind_pure
    · obtain ⟨smallTotal, hsmallTotal⟩ := Option.isSome_iff_exists.mp (htotal hsmall)
      simp only [if_true, hsmallTotal, assigned]
      exact defined_bind_pure
  split
  · rename_i hzero
    simp [Defined, hzero]
  · rename_i hzero
    rcases hstripe : dist.stripeSize with _ | stripSize
    · simp [Defined, assigned, bind, Except.bind]
    · simp [Defined, assigned, hzero, bind, Except.bind, pure, Except.pure]

/-! ## Accepted requests -/

section

variable {schedulerOn acceptMeta small : Bool} {msg : List UInt8} {ioType : Int}
  {dist : DumpedDist}

theorem parseMessage_io
    (h : parseMessage schedulerOn acceptMeta msg = .ok (.io ioType (some dist))) :
    isIoOp (operationAt msg) = true
      ∧ dumpHeader2 msg (operationAt msg == .smallIo) = .ok ioType
      ∧ dumpHeader msg = .ok (some dist) := by
  rw [parseMessage, readParam_eq_ok (by omega)] at h
  replace h := h.2
  rw [← operationAt] at h
  simp only at h
  split at h
  · rename_i hio
    rw [parseIo] at h
    obtain ⟨ioType', htype, hrun⟩ := Machine.bind_eq_ok.mp h
    split at hrun
    · obtain ⟨dist', hdist, hpure⟩ := Machine.bind_eq_ok.mp hrun
      cases hpure
      exact ⟨hio, htype, hdist⟩
    · cases hrun
  split at h
  · obtain ⟨header, -, hpure⟩ := Machine.bind_eq_ok.mp h
    cases hpure
  · cases h

theorem distAt_totalServerNumber {p m e : Int} :
    (distAt small msg p m e).totalServerNumber
      = toInt32 (param msg (p + ioHead small - 4) 4) := by
  simp only [distAt]

/-- The message carries a stripe, and what it is divided by is not zero: the
size of a whole stripe for a write and a small I/O, the number of servers for a
read. -/
def StripesDivide (small : Bool) (msg : List UInt8) : Prop :=
  ∃ e m, hintsFormat false msg 52 e ∧ stringFormat msg (e + ioHead small) m
    ∧ distNameAt msg (e + ioHead small) = simpleStripe
    ∧ divisor (ioTypeAt small msg e == pvfsIoWrite || small) (toInt32 (param msg m 8))
        (toInt32 (param msg (e + ioHead small - 4) 4)) ≠ 0

end

/-- The same write to no server. -/
def serverlessWrite : IoRequest := { smallWrite with serverCount := ⟨0, by decide⟩ }

/-- The same write with the `basic_dist` distribution. -/
def basicWrite : List UInt8 :=
  smallWrite.encode.take 96 ++ leBytes 4 10 ++ basicDist ++ [0, 0] ++ leBytes 4 0 ++ leBytes 4 0
    ++ List.replicate 80 0 ++ leBytes 8 65536 ++ leBytes 8 65536 ++ leBytes 8 65536
    ++ List.replicate 16 0

end PvfsProxy
