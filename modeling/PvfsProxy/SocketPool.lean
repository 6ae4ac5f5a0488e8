import PvfsProxy.Llist
import PvfsProxy.SchedulerMain

/-!
# Sockets and their request states

`socket_pool.c`: the `socket_state` of one socket, and the functions that
search, extend and free its list of request states. They work on a socket
and on the `World` the sockets share: the heap of request states, the
scheduler with the statistics, and the two start-up counters.

`malloc` returns the next unused address; what the fresh memory holds in the
fields `add_request_to_socket` does not set is the parameter `junk`. Buffers
are the bytes received so far, sizes are unbounded integers.
-/

namespace PvfsProxy

variable {σ ι : Type}

structure SocketState extends Endpoint where
  counterSocket : Int
  counterSocketIndex : Nat
  acceptMode : Bool
  incompleteMode : Bool
  source : Node
  target : Node
  reqStateData : PintLlist Addr
  currentSendItem : Option Addr
  currentReceiveItem : Option Addr
deriving DecidableEq

/-- What all sockets share. -/
structure World (σ ι : Type) where
  mem : Mem ι
  /-- every address from here on is unused -/
  next : Addr
  g : Globals σ
  firstReceive : Bool
  passedCompletions : Int

def SocketState.requests (s : SocketState) : List Addr := s.reqStateData.getD []

def hasTag (mem : Mem ι) (tag : Int) (p : Addr) : Bool :=
  (mem p).any fun rs => rs.currentTag == tag

/-- `find_request` of rank 1, the only one asked for. -/
def findRequest (mem : Mem ι) (s : SocketState) (tag : Int) : Option Addr :=
  s.requests.find? (hasTag mem tag)

def findLastRequest (mem : Mem ι) (s : SocketState) (tag : Int) : Option Addr :=
  (s.requests.filter (hasTag mem tag)).getLast?

def listReqStateCompCurr (mem : Mem ι) (tag : Int) (p : Addr) : Int :=
  if hasTag mem tag p then 0 else 1

/-- `list_req_state_buffer_nonempty_nonlock_comp`; the key is not looked at. -/
def listReqStateBufferNonemptyNonlockComp (mem : Mem ι) (_ : Unit) (p : Addr) : Int :=
  if (mem p).any fun rs => rs.bufferTail - rs.bufferHead ≠ 0 && !rs.locked then 0 else 1

/-- `add_request_to_socket`, returning the new state's address. -/
def addRequestToSocket (junk : Addr → RequestState ι) (s : SocketState) (w : World σ ι) :
    Except Fault (SocketState × World σ ι × Addr) :=
  if s.reqStateData.isNone then .error (.exit (-1))
  else
    let newRs := { junk w.next with
      buffer := []
      bufferHead := 0
      bufferSize := 0
      bufferTail := 0
      lastFlow := false
      currentItem := none
      completedSize := 0
      jobSize := 0
      lastTag := -1
      currentTag := -1
      locked := false
      metaResponse := false }
    .ok ({ s with reqStateData := (pintLlistAddToTail s.reqStateData w.next).2 },
      { w with mem := w.mem.alloc w.next newRs, next := w.next + 1 }, w.next)

/-- `create_counter_rs`: the state on the other socket that will take the
response. -/
def createCounterRs (junk : Addr → RequestState ι) (original : Addr) (s : SocketState)
    (w : World σ ι) : Except Fault (SocketState × World σ ι × Addr) := do
  let originalRs ← w.mem.deref original
  let (s, w, counter) ← addRequestToSocket junk s w
  let mem := w.mem.modify counter fun rs =>
    { rs with
      currentTag := originalRs.currentTag
      originalRequest := some original
      pvfsIoType := originalRs.pvfsIoType
      op := originalRs.op
      configTag := false
      locked := false
      jobSize := -1
      bufferSize := 0
      bufferHead := 0
      bufferTail := 0
      metaResponse := false }
  return (s, { w with mem }, counter)

/-- The loop of `remove_socket_by_index`: walk the list, each time removing the
first state of the tag the walk is at. -/
def removeLoop : List Addr → PintLlist Addr → Mem ι → Except Fault (Mem ι)
  | [], _, mem => .ok mem
  | p :: queue, appReqs, mem => do
    let currentItem ← mem.deref p
    match pintLlistRem appReqs currentItem.currentTag (listReqStateCompCurr mem) with
    | (none, _) => throw (.exit (-1))
    | (some removed, appReqs) => removeLoop queue appReqs (mem.free removed)

/-- `remove_socket_by_index` on one socket; `pool_size` is the caller's. -/
def removeSocketByIndex (s : SocketState) (mem : Mem ι) : Except Fault (SocketState × Mem ι) :=
  match s.reqStateData with
  | none => .error (.exit (-1))
  | some queue => do
    let mem ← removeLoop queue s.reqStateData mem
    return ({ s with reqStateData := none }, mem)

def cleanUpRequests (tag : Int) (s : SocketState) (mem : Mem ι) : SocketState × Mem ι :=
  let gone := s.requests.filter (hasTag mem tag)
  ({ s with reqStateData := s.reqStateData.map fun l => l.filter fun p => !hasTag mem tag p },
    gone.foldl Mem.free mem)

end PvfsProxy
