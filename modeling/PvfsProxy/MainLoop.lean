import PvfsProxy.Message
import PvfsProxy.Lib.CString

/-!
# The main loop

The body of the loop in `proxy2.c`, one event on one socket at a time:
`readEvent` for POLLIN on a connection, `writeEvent` for POLLOUT, and
`prepareEvents` before the poll. Accepting and closing are in `Pool`.

What the kernel does is an argument of the event: the bytes the peeks and
then `recv` can see and whether the stream ends behind them, and how many
bytes `send` takes.
-/

namespace PvfsProxy

open CString

variable {σ ι : Type}

/-! ## `change_port` -/

/-- The string at the start of a buffer: it ends at a zero byte. -/
def bufferText (text : List UInt8) : List UInt8 := text.takeWhile (· ≠ 0)

def tcpPrefix : List UInt8 := [116, 99, 112, 58, 47, 47]

/-- The loop of `change_port` with the last match of `tcp://`, bounded by the
length of the text. -/
def changePortLoop : Nat → List UInt8 → Option Nat → Except Fault (List UInt8)
  | _, text, none => .ok text
  | 0, text, some _ => .ok text
  | bound + 1, text, some temp =>
    match strstr (bufferText text) (temp + 7) [58] with
    | none => .error .nullPointer
    | some temp2 =>
      let text :=
        match strstr (bufferText text) temp2 [10] with
        | none => text
        | some _ => text.take (temp2 + 1) ++ [51, 51, 51, 53] ++ text.drop (temp2 + 5)
      changePortLoop bound text (strstr (bufferText text) temp2 tcpPrefix)

/-- `change_port`: the four bytes behind the colon of every address become
`3335`. -/
def changePort (text : List UInt8) : Except Fault (List UInt8) :=
  changePortLoop text.length text (strstr (bufferText text) 0 tcpPrefix)

/-! ## Receiving -/

/-- `change_port(buffer + 52, …)`, where `buffer` is where the last `recv` wrote. -/
def rewriteConfig (tail : Int) (p : Addr) (w : World σ ι) : Except Fault (World σ ι) := do
  let rs ← w.mem.deref p
  if rs.configTag then
    let from52 := (tail + 52).toNat
    let text ← changePort (rs.buffer.drop from52)
    return { w with
      mem := w.mem.modify p fun rs =>
        { rs with configTag := false, buffer := rs.buffer.take from52 ++ text } }
  else return w

def writeFlowReceived (cfg : Config σ ι) (rs : RequestState ι) (w : World σ ι) :
    Except Fault (World σ ι) := do
  match rs.originalRequest with
  | none => throw (.exit (-1))
  | some original =>
    let (w, _) ← callCompletion cfg original (rs.completedSize - bmiHeaderLength) w
    return w

/-- A flow of a read has arrived; the last one completes the operation. -/
def readFlowReceived (cfg : Config σ ι) (app : Nat) (p : Addr) (rs : RequestState ι)
    (w : World σ ι) : Except Fault (World σ ι) := do
  match rs.originalRequest with
  | none => throw (.exit (-1))
  | some original =>
    let (w, ret) ← callCompletion cfg original (rs.completedSize - bmiHeaderLength) w
    if ret > 0 ∧ !cfg.method.schSelfDispatch then
      let originalRs ← w.mem.deref original
      let w := { w with
        mem := (w.mem.modify p fun rs => { rs with lastFlow := true }).modify original fun rs =>
          { rs with checkResponseCompletion := true, lastCompletion := ret } }
      let w := countPassed cfg app (countCompleted app w)
      let w ← countThroughput cfg (callDequeueUnchecked cfg) ret app rs.currentItem w
      let (w, _) ← callDequeue cfg
        { event := .completeIo, completeSize := ret, lastAppIndex := app,
          item := originalRs.currentItem } w
      return w
    else if ret = -1 then throw (.exit (-1))
    else return w

def flowReceived (cfg : Config σ ι) (p : Addr) (rs : RequestState ι) (c : Conn σ ι) :
    Except Fault (World σ ι) :=
  if cfg.schedulerOn && rs.op == .dataFlow then
    match c.me.source with
    | .client => writeFlowReceived cfg rs c.w
    | .server => readFlowReceived cfg c.peer.appIndex p rs c.w
  else .ok c.w

/-- What the read branch does once a message is complete. -/
def messageComplete (cfg : Config σ ι) (tail : Int) (p : Addr) (c : Conn σ ι) :
    Except Fault (Conn σ ι) := do
  let w ← rewriteConfig tail p c.w
  let rs ← w.mem.deref p
  let w ← flowReceived cfg p rs { c with w }
  return { c with w, me := { c.me with currentReceiveItem := none } }

/-- What can be seen on a socket during one event. -/
structure Incoming where
  /-- by the peeks -/
  peeked : List UInt8
  /-- by the `recv` that follows them -/
  visible : List UInt8
  grows : peeked <+: visible
  /-- the stream ends, or is broken, behind the visible bytes -/
  ended : Bool

inductive ReadOutcome (σ ι : Type) where
  /-- nothing was taken; the message is peeked at again later -/
  | again (c : Conn σ ι)
  | received (c : Conn σ ι) (n : Nat)
  /-- `recv` failed: the caller closes the connection -/
  | closed (c : Conn σ ι)

/-- `recv` into the message at `p` and everything up to the end of the read
branch. -/
def receive (cfg : Config σ ι) (incoming : Incoming) (p : Addr) (c : Conn σ ι) :
    Except Fault (ReadOutcome σ ι) := do
  let rs ← c.w.mem.deref p
  let remaining := rs.bufferSize - rs.bufferTail
  if remaining ≤ 0 then throw (.exit (-1))
  let got := incoming.visible.take remaining.toNat
  if got.isEmpty then
    if incoming.ended then return .closed c
    -- EAGAIN five times over
    throw (.exit (-1))
  let c := { c with w := { c.w with
    mem := c.w.mem.modify p fun rs =>
      { rs with
        buffer := rs.buffer ++ got
        bufferTail := rs.bufferTail + got.length
        completedSize := rs.completedSize + got.length } } }
  if rs.jobSize ≤ 0 then throw .assertion
  let completed := rs.completedSize + got.length
  let c ← if completed = rs.jobSize then messageComplete cfg rs.bufferTail p c else pure c
  if completed > rs.jobSize then throw (.exit (-1))
  return .received { c with peer := updateSocketCurrentSend c.w.mem c.peer c.me } got.length

def readEvent (cfg : Config σ ι) (incoming : Incoming) (c : Conn σ ι) :
    Except Fault (ReadOutcome σ ι) := do
  match c.me.currentReceiveItem with
  | some p => receive cfg incoming p c
  | none =>
    let (c, checkStat) ←
      match c.me.source with
      | .server => checkResponse cfg incoming.peeked c
      | .client => checkRequest cfg incoming.peeked c
    if checkStat = -1 then
      -- one byte is asked for, only to find the end of the stream
      if incoming.visible ≠ [] then throw .nullPointer
      if incoming.ended then return .closed c
      throw (.exit (-1))
    if checkStat = -2 ∨ checkStat = -3 then return .again c
    if checkStat < 0 then throw (.exit (-1))
    match c.me.currentReceiveItem with
    | none => throw .assertion
    | some p => receive cfg incoming p c

/-! ## Sending -/

/-- `prepare_events` on one socket: whether it is to be polled for writing. -/
def prepareEvents (mem : Mem ι) (me peer : SocketState) : Except Fault (SocketState × Bool) := do
  match me.currentSendItem with
  | some p =>
    let rs ← mem.deref p
    return (me, rs.bufferHead ≠ rs.bufferTail)
  | none =>
    let me := updateSocketCurrentSend mem me peer
    return (me, me.currentSendItem.isSome)

def cleanUpRequestState (tag : Int) (c : Conn σ ι) : Conn σ ι :=
  let (me, mem) := cleanUpRequests tag c.me c.w.mem
  let (peer, mem) := cleanUpRequests tag c.peer mem
  { c with me, peer, w := { c.w with mem } }

/-- The POLLOUT branch when `send` takes `sent` bytes, with the bytes sent. -/
def writeEvent (sent : Nat) (c : Conn σ ι) : Except Fault (Conn σ ι × List UInt8) := do
  match c.me.currentSendItem with
  | none => throw (.exit (-1))
  | some p =>
    let rs ← c.w.mem.deref p
    let readySize := rs.bufferTail - rs.bufferHead
    if readySize > 0 ∧ !rs.configTag then
      if sent = 0 ∨ readySize < sent then throw (.exit (-1))
      let bytes := (rs.buffer.drop rs.bufferHead.toNat).take sent
      let head := rs.bufferHead + sent
      let c := { c with w := { c.w with
        mem := c.w.mem.modify p fun rs => { rs with bufferHead := head } } }
      if readySize = sent ∧ rs.bufferSize = head then
        let c :=
          if rs.op = .writeCompletion ∨ rs.lastFlow ∨ rs.metaResponse then
            cleanUpRequestState rs.currentTag c
          else c
        let me := { c.me with currentSendItem := none }
        return ({ c with me := updateSocketCurrentSend c.w.mem me c.peer }, bytes)
      return (c, bytes)
    else if rs.configTag then return (c, [])
    else throw (.exit (-1))

/-! ## A configuration for examples -/

def idleMethod : SchedulerMethod Unit Unit where
  workConserving := true
  schEnqueue _ _ _ g := .ok { globals := g, ret := true }
  schDequeue _ g := .ok { globals := g, ret := none }
  schUpdateOnRequestCompletion message g := .ok { globals := g, ret := (message.currentItem, 0) }
  schCurrentSize := some fun item actual => .ok (item, actual)
  schAddTtlThroughput _ _ g := g
  schCalculateDiff := none
  schSelfDispatch := false
  schAcceptMeta := false

/-- A configuration for one application whose requests are all reads of
nothing. -/
def sampleConfig (schedulerOn : Bool) (method : SchedulerMethod σ ι) : Config σ ι where
  schedulerOn := schedulerOn
  method := method
  numApps := 1
  timerStop := true
  enableFirstReceive := true
  dumpHeader2 _ _ := pvfsIoRead
  dumpHeader _ :=
    { currentServerNumber := 0, totalServerNumber := 1, aggregateSize := 0, stripeSize := 1,
      dataFileOffset := 0, smallTotal := 0 }
  logicalToPhysicalSizeDparam dist := dist.aggregateSize
  dumpMetaHeader _ := { handle := 0, fsid := 0, mask := 0 }
  junk _ := default
  junkSize := 0
  junkApp := 0
  drainBound := 1

def idleConfig : Config Unit Unit := sampleConfig false idleMethod

def sampleWorld (sched : σ) : World σ ι where
  mem _ := none
  next := 0
  g := { sched, appStats := fun _ => { appWeight := 1 }, totalThroughput := 0 }
  firstReceive := true
  passedCompletions := 0

def idleWorld : World Unit Unit := sampleWorld ()

/-- A message of 12 bytes behind its header; `op` is the number of the operation. -/
def sampleMessage (tag op : UInt8) : List UInt8 :=
  List.replicate 8 0 ++ [tag, 0, 0, 0, 0, 0, 0, 0] ++ [12, 0, 0, 0, 0, 0, 0, 0]
    ++ List.replicate 8 0 ++ [op, 0, 0, 0]

namespace Incoming

def whole (bytes : List UInt8) : Incoming where
  peeked := bytes
  visible := bytes
  grows := List.prefix_rfl
  ended := false

def hangup : Incoming where
  peeked := []
  visible := []
  grows := List.prefix_rfl
  ended := true

end Incoming

end PvfsProxy
