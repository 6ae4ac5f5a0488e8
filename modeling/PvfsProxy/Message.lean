import PvfsProxy.SocketPool

/-!
# Peeking at messages

`message.c`: what happens to a message before it is received. `checkRequest`
and `checkResponse` look at the bytes visible on a socket without taking
them, find or create the request state the message will be received into,
and let the scheduler know.

Both work on a `Conn`, the socket at hand (`me`, pool slot `index`) with its
counterpart (`peer`). The bytes `recv` can see are an argument; a peek for
`n` bytes comes back short when fewer are visible.

The request parsers of `dump.c` are parameters of the configuration, as is
what uninitialised memory holds. The loops that drain the queue after a
change of differences are bounded by `drainBound`.
-/

namespace PvfsProxy

variable {σ ι : Type}

def bmiHeaderLength : Int := 24

/-- `struct dist`, as far as it is read -/
structure Dist where
  currentServerNumber : Int
  totalServerNumber : Int
  aggregateSize : Int
  stripeSize : Int
  dataFileOffset : Int
  smallTotal : Int

structure MetaHeader where
  handle : Int
  fsid : Int
  mask : Int
deriving Repr, DecidableEq

structure Config (σ ι : Type) where
  schedulerOn : Bool
  method : SchedulerMethod σ ι
  numApps : Nat
  timerStop : Bool
  enableFirstReceive : Bool
  /-- `dump_header2`: the I/O type of a request -/
  dumpHeader2 : List UInt8 → Bool → Int
  /-- `dump_header` on a request -/
  dumpHeader : List UInt8 → Dist
  logicalToPhysicalSizeDparam : Dist → Int
  dumpMetaHeader : List UInt8 → MetaHeader
  /-- what `malloc` finds in the memory of a request state -/
  junk : Addr → RequestState ι
  /-- what the fields of a `dequeue_reason` hold that are not set -/
  junkSize : Int
  junkApp : Nat
  drainBound : Nat

/-- A socket and its counterpart. -/
structure Conn (σ ι : Type) where
  w : World σ ι
  index : Nat
  me : SocketState
  peer : SocketState
  /-- the pool as the scheduler reads it -/
  pool : Nat → Endpoint

/-! ## Header fields -/

/-- The number a little-endian byte string stands for. -/
def leNat : List UInt8 → Nat
  | [] => 0
  | b :: bs => b.toNat + 256 * leNat bs

/-- `output_param`: eight bytes are signed, four are not. -/
def outputParam (buffer : List UInt8) (pos length : Nat) : Int :=
  let n := leNat ((buffer.drop pos).take length)
  if length = 8 then Int.bmod n (2 ^ 64) else n

def toUInt64 (z : Int) : Int := z % 2 ^ 64

/-- `get_bmi_header`: what the peek for the 24 header bytes returns. -/
def getBmiHeader (visible : List UInt8) : Int :=
  if visible.length = 0 then -1
  else if (visible.length : Int) < bmiHeaderLength then -2
  else bmiHeaderLength

def bmiTag (header : List UInt8) : Int := outputParam header 8 8

def bmiSize (header : List UInt8) : Int := outputParam header 16 8

def pvfsOperation (header : List UInt8) : PvfsServerOp :=
  .ofCode (outputParam header 32 4)

/-- `dump_header` on a response: the size a completion reports, for the two
operations that carry one. -/
def dumpResponse (header : List UInt8) : PvfsServerOp → Option Int
  | .writeCompletion => some (outputParam header 40 8)
  | .smallIo => some (outputParam header 56 8)
  | _ => none

def isMeta (op : PvfsServerOp) : Bool :=
  op ∈ [.getattr, .remove, .create, .crdirent, .rmdirent, .readdir, .listattr, .lookupPath,
    .mkdir, .statfs]

/-! ## What is being sent and received -/

/-- `update_socket_current_send`: an idle socket takes the first state of its
counterpart that has bytes to send and is not locked. -/
def updateSocketCurrentSend (mem : Mem ι) (me peer : SocketState) : SocketState :=
  match me.currentSendItem with
  | some _ => me
  | none =>
    { me with
      currentSendItem :=
        pintLlistSearch peer.reqStateData () (listReqStateBufferNonemptyNonlockComp mem) }

def updateSocketCurrentReceive (mem : Mem ι) (tag : Int) (me : SocketState) :
    Except Fault SocketState :=
  if tag < 0 then .error (.exit (-1))
  else
    match me.currentReceiveItem with
    | some _ => .ok me
    | none => .ok { me with currentReceiveItem := findLastRequest mem me (toInt32 tag) }

/-! ## The hooks as the framework calls them -/

def messageStartThreshold : Int := 10

def checkAllAppStat (cfg : Config σ ι) (w : World σ ι) : World σ ι :=
  if (List.range cfg.numApps).all fun k => messageStartThreshold ≤ (w.g.appStats k).appExist then
    { w with firstReceive := true }
  else w

/-- Until every application has been seen, completions only count towards that. -/
def countPassed (cfg : Config σ ι) (app : Nat) (w : World σ ι) : World σ ι :=
  if w.firstReceive then w
  else
    checkAllAppStat cfg
      { w with
        passedCompletions := w.passedCompletions + 1
        g := w.g.modifyApp app fun a => { a with appExist := a.appExist + 1 } }

def countCompleted (app : Nat) (w : World σ ι) : World σ ι :=
  { w with g := w.g.modifyApp app fun a => { a with completedRequests := a.completedRequests + 1 } }

def callCompletion (cfg : Config σ ι) (owner : Addr) (completeSize : Int) (w : World σ ι) :
    Except Fault (World σ ι × Int) := do
  let rs ← w.mem.deref owner
  let out ← cfg.method.schUpdateOnRequestCompletion
    { currentItem := rs.currentItem, completeSize } w.g
  let mem := (unlockAll out.unlocked w.mem).modify owner fun rs =>
    { rs with currentItem := out.ret.1 }
  return ({ w with g := out.globals, mem }, out.ret.2)

def callCurrentSize (cfg : Config σ ι) (owner : Addr) (actual : Int) (w : World σ ι) :
    Except Fault (World σ ι × Int) := do
  let rs ← w.mem.deref owner
  match cfg.method.schCurrentSize with
  | none => throw .nullPointer
  | some hook =>
    let (item, size) ← hook rs.currentItem actual
    return ({ w with mem := w.mem.modify owner fun rs => { rs with currentItem := item } }, size)

def callDequeue (cfg : Config σ ι) (r : DequeueReason ι) (w : World σ ι) :
    Except Fault (World σ ι × Option (GenericQueueItem ι)) := do
  let (g, mem, item) ← dispatchNext cfg.method r w.g w.mem
  return ({ w with g, mem }, item)

/-- `dispatchNext` without the assertion that the request is locked. -/
def callDequeueUnchecked (cfg : Config σ ι) (r : DequeueReason ι) (w : World σ ι) :
    Except Fault (World σ ι × Option (GenericQueueItem ι)) := do
  let out ← cfg.method.schDequeue r w.g
  let mem := unlockAll out.unlocked w.mem
  match out.ret with
  | none => return ({ w with g := out.globals, mem }, none)
  | some newItem =>
    let _ ← mem.deref newItem.socketData.rs
    let mem := mem.modify newItem.socketData.rs fun rs =>
      { rs with currentItem := some newItem, locked := false }
    return ({ w with g := out.globals, mem }, some newItem)

def drainQueue
    (dequeue : World σ ι → Except Fault (World σ ι × Option (GenericQueueItem ι))) :
    Nat → World σ ι → Except Fault (World σ ι)
  | 0, _ => .error (.exit (-1))
  | bound + 1, w => do
    let (w, item) ← dequeue w
    match item with
    | none => return w
    | some _ => drainQueue dequeue bound w

/-- The differences are computed anew; an application that comes back under the
threshold has its queue drained. `diff` is an `int`, the hook's result a
`long long`. -/
def updateDiffs (cfg : Config σ ι)
    (dequeue : DequeueReason ι → World σ ι →
      Except Fault (World σ ι × Option (GenericQueueItem ι)))
    (item : Option (GenericQueueItem ι)) : List Nat → World σ ι → Except Fault (World σ ι)
  | [], w => .ok w
  | s :: apps, w => do
    match cfg.method.schCalculateDiff with
    | none => throw .nullPointer
    | some hook =>
      let oldDiff := (w.g.appStats s).diff
      let newDiff := toInt32 (hook s w.g)
      let w := { w with g := w.g.modifyApp s fun a => { a with diff := newDiff } }
      let w ←
        if oldDiff > 10240 ∧ newDiff ≤ 10240 then
          drainQueue
            (dequeue { event := .diffChange, completeSize := 0, lastAppIndex := s, item })
            cfg.drainBound w
        else pure w
      updateDiffs cfg dequeue item apps w

def countThroughput (cfg : Config σ ι)
    (dequeue : DequeueReason ι → World σ ι →
      Except Fault (World σ ι × Option (GenericQueueItem ι)))
    (amount : Int) (app : Nat) (item : Option (GenericQueueItem ι)) (w : World σ ι) :
    Except Fault (World σ ι) :=
  if cfg.timerStop || !w.firstReceive then .ok w
  else
    let w := { w with g := cfg.method.schAddTtlThroughput amount app w.g }
    if cfg.method.workConserving then .ok w
    else updateDiffs cfg dequeue item (List.range cfg.numApps) w

/-! ## `check_request` -/

/-- The state the peeked message will be received into: a new one, or in
incomplete mode the last one of the tag. -/
def openRequest (cfg : Config σ ι) (tag size : Int) (c : Conn σ ι) :
    Except Fault (Conn σ ι × Addr) :=
  if c.me.incompleteMode then
    match findLastRequest c.w.mem c.me (toInt32 tag) with
    | none => .error (.exit (-1))
    | some p => .ok (c, p)
  else do
    let (me, w, p) ← addRequestToSocket cfg.junk c.me c.w
    let mem := w.mem.modify p fun rs =>
      { rs with
        lastTag := -1
        currentTag := toInt32 tag
        jobSize := size + bmiHeaderLength
        buffer := []
        bufferHead := 0
        bufferTail := 0
        bufferSize := size + bmiHeaderLength
        completedSize := 0
        locked := false
        pvfsIoType := -1
        metaResponse := false }
    return ({ c with me, w := { w with mem } }, p)

def ioInfo (dist : Dist) (tag size : Int) (op : PvfsServerOp) (ioType currentDataSize
    stripSize : Int) : PvfsInfo where
  op := op
  ioType := ioType
  tag := tag
  currentDataSize := currentDataSize
  aggregateSize := dist.aggregateSize
  currentServer := dist.currentServerNumber
  totalServer := dist.totalServerNumber
  reqSize := size
  reqOffset := dist.dataFileOffset
  stripSize := stripSize

def callAdmit (cfg : Config σ ι) (c : Conn σ ι) (si : SocketInfo) (pi : PvfsInfo)
    (event : DequeueEvent) (completeSize : Int) (w : World σ ι) : Except Fault (World σ ι) := do
  let (g, mem, _) ← admitRequest cfg.method c.pool si pi event completeSize w.g w.mem
  return { w with g, mem }

/-- The scheduler's part of a new request at `p` with its counter state. -/
def scheduleRequest (cfg : Config σ ι) (c : Conn σ ι) (p counter : Addr) (tag size : Int)
    (op : PvfsServerOp) (header2 : List UInt8) : Except Fault (World σ ι) :=
  let si : SocketInfo :=
    { requestSocket := c.index, dataSocket := c.index, appIndex := c.me.appIndex, rs := p }
  if op = .io ∨ op = .smallIo then
    let small := op == .smallIo
    let ioType := cfg.dumpHeader2 header2 small
    let mem := (c.w.mem.modify p fun rs => { rs with pvfsIoType := ioType }).modify counter
      fun rs => { rs with pvfsIoType := ioType }
    let w := { c.w with mem }
    if cfg.schedulerOn && (ioType == pvfsIoWrite || small) then
      let dist := cfg.dumpHeader header2
      let thisSize := cfg.logicalToPhysicalSizeDparam dist
      let pi := ioInfo dist tag size op ioType (if small then dist.smallTotal else thisSize) 0
      callAdmit cfg c si pi .newIo pi.currentDataSize w
    else if cfg.schedulerOn && ioType == pvfsIoRead then
      let dist := cfg.dumpHeader header2
      if dist.totalServerNumber = 0 then .error .divisionByZero
      else
        -- a first estimate, put right by the response; the division is unsigned
        let thisSize := toInt32 (dist.aggregateSize / toUInt64 dist.totalServerNumber)
        let mem := mem.modify p fun rs =>
          { rs with readSize := thisSize, readOffset := dist.dataFileOffset }
        let pi := ioInfo dist tag size op ioType thisSize dist.stripeSize
        callAdmit cfg c { si with dataSocket := c.me.counterSocketIndex } pi .newIo
          pi.currentDataSize { w with mem }
    else .ok w
  else if cfg.schedulerOn && cfg.method.schAcceptMeta && isMeta op then
    let header := cfg.dumpMetaHeader header2
    let pi : PvfsInfo :=
      { op, tag, reqSize := size, handle := header.handle, fsid := header.fsid,
        mask := header.mask }
    callAdmit cfg c { si with dataSocket := 0 } pi .newMeta size c.w
  else .ok c.w

/-- A request whose message is wholly visible: its counter state, the
scheduler, and at last `config_tag`. -/
def newRequest (cfg : Config σ ι) (c : Conn σ ι) (p : Addr) (tag size : Int)
    (header2 : List UInt8) : Except Fault (Conn σ ι) := do
  let me := { c.me with incompleteMode := false }
  let op := pvfsOperation header2
  let w := { c.w with mem := c.w.mem.modify p fun rs => { rs with op := op } }
  let (peer, w, counter) ← createCounterRs cfg.junk p c.peer w
  let newRs ← w.mem.deref p
  let w := { w with
    mem := w.mem.modify counter fun rs =>
      { rs with pvfsIoType := newRs.pvfsIoType, lastTag := -1, currentTag := toInt32 tag } }
  let c := { c with me, peer, w }
  let w ← scheduleRequest cfg c p counter tag size op header2
  let w := { w with mem := w.mem.modify p fun rs => { rs with configTag := false } }
  return { c with w }

/-- A message that continues an operation the server side knows of. -/
def clientFlow (c : Conn σ ι) (p old : Addr) (tag : Int) : Except Fault (Conn σ ι) := do
  let oldRs ← c.w.mem.deref old
  if tag ≠ oldRs.currentTag then throw (.exit (-1))
  match oldRs.originalRequest with
  | none => throw (.exit (-1))
  | some original =>
    let mem := c.w.mem.modify p fun rs =>
      { rs with configTag := false, op := .dataFlow, originalRequest := some original }
    return { c with w := { c.w with mem } }

/-- `check_request`, with its result: 1 when the message can be received, a
negative number when it has to be peeked at again. -/
def checkRequest (cfg : Config σ ι) (visible : List UInt8) (c : Conn σ ι) :
    Except Fault (Conn σ ι × Int) := do
  let ret := getBmiHeader visible
  if ret ≠ bmiHeaderLength then return (c, ret)
  let tag := bmiTag visible
  let size := bmiSize visible
  let (c, p) ← openRequest cfg tag size c
  match findRequest c.w.mem c.peer (toInt32 tag) with
  | some old =>
    let c ← clientFlow c p old tag
    let me ← updateSocketCurrentReceive c.w.mem tag c.me
    return ({ c with me }, 1)
  | none =>
    if (visible.length : Int) < size + bmiHeaderLength then
      return ({ c with me := { c.me with incompleteMode := true } }, -3)
    let header2 := visible.take (size + bmiHeaderLength).toNat
    let c ← newRequest cfg c p tag size header2
    let me ← updateSocketCurrentReceive c.w.mem tag c.me
    return ({ c with me }, 1)

/-! ## `check_response` -/

def responseFields (tag size : Int) (rs : RequestState ι) : RequestState ι :=
  { rs with
    buffer := []
    bufferHead := 0
    bufferTail := 0
    bufferSize := size + bmiHeaderLength
    completedSize := 0
    currentTag := tag
    lastTag := tag
    jobSize := size + bmiHeaderLength }

/-- A flow of a read: its state, unless the message was peeked at before. -/
def serverFlow (cfg : Config σ ι) (response : RequestState ι) (tag size : Int)
    (c : Conn σ ι) : Except Fault (Conn σ ι) :=
  if c.me.incompleteMode then
    match findLastRequest c.w.mem c.me tag with
    | none => .error (.exit (-1))
    | some _ => .ok c
  else do
    let (me, w, p) ← addRequestToSocket cfg.junk c.me c.w
    match response.originalRequest with
    | none => throw .nullPointer
    | some original =>
      let originalRs ← w.mem.deref original
      let mem := w.mem.modify p fun rs =>
        { responseFields tag size rs with
          lastFlow := false
          configTag := false
          op := .dataFlow
          pvfsIoType := originalRs.pvfsIoType
          locked := false
          originalRequest := some original
          metaResponse := false }
      return { c with me, w := { w with mem } }

/-- A read response: the item's size is put right, and a read past the end of
the file completes here. -/
def readResponse (cfg : Config σ ι) (p : Addr) (tag : Int) (header2 : List UInt8)
    (c : Conn σ ι) : Except Fault (World σ ι) := do
  match findRequest c.w.mem c.peer tag with
  | none => throw (.exit (-1))
  | some request =>
    let requestRs ← c.w.mem.deref request
    let (w, currentSize) ← callCurrentSize cfg request (outputParam header2 40 8) c.w
    -- `current_size` is unsigned
    if currentSize ≠ 0 then return w
    let w := { w with mem := w.mem.modify p fun rs => { rs with lastFlow := true } }
    let (w, _) ← callCurrentSize cfg request 0 w
    let (w, _) ← callCompletion cfg request 0 w
    let w := { w with
      mem := w.mem.modify request fun rs =>
        { rs with checkResponseCompletion := true, lastCompletion := 1 } }
    let w := countPassed cfg c.peer.appIndex (countCompleted c.peer.appIndex w)
    let requestRs' ← w.mem.deref request
    let (w, _) ← callDequeue cfg
      { event := .completeIo, completeSize := requestRs.readSize,
        lastAppIndex := c.peer.appIndex, item := requestRs'.currentItem } w
    return w

/-- A write completion, or the response of a small I/O: the operation is over
and its slot goes to the next request. -/
def writeCompletion (cfg : Config σ ι) (p : Addr) (tag : Int) (aggregateSize : Int)
    (c : Conn σ ι) : Except Fault (World σ ι) := do
  let app := c.peer.appIndex
  let w := { c.w with mem := c.w.mem.modify p fun rs => { rs with op := .writeCompletion } }
  match findRequest w.mem c.peer tag with
  | none => throw (.exit (-1))
  | some request =>
    let requestRs ← w.mem.deref request
    let w := countPassed cfg app (countCompleted app w)
    let w ← countThroughput cfg (callDequeue cfg) aggregateSize app none w
    let (w, _) ← callDequeue cfg
      { event := .completeIo, completeSize := aggregateSize, lastAppIndex := app,
        item := requestRs.currentItem } w
    return w

def smallIoSelfDispatch (cfg : Config σ ι) (tag : Int) (c : Conn σ ι) :
    Except Fault (World σ ι) := do
  match findRequest c.w.mem c.peer tag with
  | none => throw (.exit (-1))
  | some request =>
    let (w, _) ← callCompletion cfg request (-1) c.w
    return w

def metaCompletion (cfg : Config σ ι) (tag : Int) (c : Conn σ ι) : Except Fault (World σ ι) := do
  let app := c.peer.appIndex
  match findRequest c.w.mem c.peer tag with
  | none => throw (.exit (-1))
  | some request =>
    let w := countCompleted app c.w
    let (w, _) ← callCompletion cfg request (-1) w
    let requestRs ← w.mem.deref request
    let (w, _) ← callDequeue cfg
      { event := .completeIo, completeSize := cfg.junkSize, lastAppIndex := cfg.junkApp,
        item := requestRs.currentItem } w
    return countPassed cfg app w

def responseRead (cfg : Config σ ι) (p : Addr) (tag : Int) (header2 : List UInt8)
    (operation : PvfsServerOp) (ioType : Int) (c : Conn σ ι) : Except Fault (World σ ι) :=
  if operation = .io ∧ ioType = pvfsIoRead ∧ cfg.schedulerOn then
    readResponse cfg p tag header2 c
  else .ok c.w

def responseSize (cfg : Config σ ι) (p : Addr) (tag : Int) (header2 : List UInt8)
    (operation : PvfsServerOp) (c : Conn σ ι) : Except Fault (World σ ι) :=
  match dumpResponse header2 operation with
  | some aggregateSize =>
    if cfg.schedulerOn && !cfg.method.schSelfDispatch then
      writeCompletion cfg p tag aggregateSize c
    else if cfg.schedulerOn && operation == .smallIo then smallIoSelfDispatch cfg tag c
    else .ok c.w
  | none => .ok c.w

def responseMeta (cfg : Config σ ι) (tag : Int) (operation : PvfsServerOp) (c : Conn σ ι) :
    Except Fault (World σ ι) :=
  if cfg.schedulerOn && isMeta operation && !cfg.method.schSelfDispatch then
    metaCompletion cfg tag c
  else .ok c.w

/-- A response that is wholly visible. The marks that retire the operation are
set here: `meta_response`, `last_flow` and `op`. -/
def newResponse (cfg : Config σ ι) (p : Addr) (tag : Int) (header2 : List UInt8)
    (c : Conn σ ι) : Except Fault (Conn σ ι) := do
  let operation := pvfsOperation header2
  let c := { c with me := { c.me with incompleteMode := false } }
  let io := operation = .io ∨ operation = .writeCompletion ∨ operation = .smallIo
  let mem := c.w.mem.modify p fun rs =>
    { rs with
      op := operation
      metaResponse := rs.metaResponse || !decide io
      configTag := operation == .getconfig }
  let c := { c with w := { c.w with mem } }
  if operation = .getconfig then return c
  let response ← c.w.mem.deref p
  let w ← responseRead cfg p tag header2 operation response.pvfsIoType c
  let w ← responseSize cfg p tag header2 operation { c with w }
  let w ← responseMeta cfg tag operation { c with w }
  return { c with w }

/-- Which state takes the message: the counter state the request left, a new
state for a write completion (both `some`), or that of a read flow. With it
the value of `ret` at this point. -/
def openResponse (cfg : Config σ ι) (tag size : Int) (c : Conn σ ι) :
    Except Fault (Conn σ ι × Option Addr × Int) := do
  match findRequest c.w.mem c.me tag with
  | none => throw (.exit (-1))
  | some p =>
    let response ← c.w.mem.deref p
    if response.jobSize ≤ 0 then
      let mem := c.w.mem.modify p (responseFields tag size)
      return ({ c with w := { c.w with mem } }, some p, bmiHeaderLength)
    else if response.lastTag = tag ∧ response.pvfsIoType ≠ pvfsIoWrite then
      let c ← serverFlow cfg response tag size c
      return (c, none, 1)
    else if (findRequest c.w.mem c.peer tag).any fun q =>
        (c.w.mem q).any fun rs => rs.op == .io then
      let (me, w, p) ← addRequestToSocket cfg.junk c.me c.w
      let mem := w.mem.modify p fun rs =>
        { responseFields tag size rs with metaResponse := false }
      return ({ c with me, w := { w with mem } }, some p, 1)
    else throw (.exit (-1))

/-- `check_response`. Whether the peek of a new response came back short is
noted in an inner `ret`, which the result does not tell. -/
def checkResponse (cfg : Config σ ι) (visible : List UInt8) (c : Conn σ ι) :
    Except Fault (Conn σ ι × Int) := do
  if getBmiHeader visible ≠ bmiHeaderLength then throw (.exit (-1))
  let tag := toInt32 (bmiTag visible)
  let size := bmiSize visible
  let (c, opened, ret) ← openResponse cfg tag size c
  let c ←
    match opened with
    | none => pure c
    | some p =>
      if (visible.length : Int) < size + bmiHeaderLength then
        pure { c with me := { c.me with incompleteMode := true } }
      else newResponse cfg p tag (visible.take (size + bmiHeaderLength).toNat) c
  let me ← updateSocketCurrentReceive c.w.mem tag c.me
  return ({ c with me }, ret)

end PvfsProxy
