import PvfsProxy.MainLoop

/-!
# The socket pool

`Proxy` is the state of the main loop: the pool of sockets, the descriptors
that are polled, and the world. An event of the loop works on the connection
of one slot (`Proxy.conn`), and its result is put back (`Proxy.put`).

A connection is accepted by `addSocketToPool` into the two slots behind the
last. When a socket turns out to be closed, `closePair` removes its slot and
the one behind it and moves the last pair of the pool into the hole. The pool
never runs out of room here, and its memory comes zeroed from the kernel.
-/

namespace PvfsProxy

variable {σ ι : Type}

structure Proxy (σ ι : Type) where
  w : World σ ι
  slots : Nat → SocketState
  /-- `poll_list[i].fd` -/
  pollFd : Nat → Int
  poolSize : Nat
  listenSocket : Int

/-- What `ip_weight` knows of a client. -/
structure IpApplication where
  weight : Int
  appIndex : Nat

namespace Proxy

/-- The connection an event on slot `i` works on. -/
def conn (s : Proxy σ ι) (i : Nat) : Conn σ ι where
  w := s.w
  index := i
  me := s.slots i
  peer := s.slots (s.slots i).counterSocketIndex
  pool j := (s.slots j).toEndpoint

def put (s : Proxy σ ι) (c : Conn σ ι) : Proxy σ ι :=
  { s with
    w := c.w
    slots := Function.update (Function.update s.slots c.me.counterSocketIndex c.peer)
      c.index c.me }

/-! ## Accepting -/

/-- `add_socket_to_pool`. What the slots held before stays where nothing is
written to it, the two current items in particular. -/
def addSocketToPool (socket counterPart : Int) (acceptMode : Bool) (target source : Node)
    (ipa : IpApplication) (s : Proxy σ ι) : Proxy σ ι :=
  let n := s.poolSize
  let first := { s.slots n with
    socket := socket
    counterSocket := counterPart
    acceptMode := acceptMode
    target := target
    source := source
    incompleteMode := false
    reqStateData := pintLlistNew }
  if counterPart = 0 then
    { s with
      slots := Function.update s.slots n first
      pollFd := Function.update s.pollFd n socket
      poolSize := n + 1 }
  else
    let client := { first with
      counterSocketIndex := n + 1
      weight := ipa.weight
      appIndex := ipa.appIndex }
    let server := { s.slots (n + 1) with
      socket := counterPart
      counterSocket := socket
      acceptMode := false
      incompleteMode := false
      reqStateData := pintLlistNew
      counterSocketIndex := n
      target := source
      source := target }
    { s with
      slots := Function.update (Function.update s.slots n client) (n + 1) server
      pollFd := Function.update (Function.update s.pollFd n socket) (n + 1) counterPart
      poolSize := n + 2 }

/-- A slot nobody has written to. -/
def blankSlot : SocketState where
  socket := 0
  appIndex := 0
  weight := 0
  counterSocket := 0
  counterSocketIndex := 0
  acceptMode := false
  incompleteMode := false
  source := .server
  target := .server
  reqStateData := none
  currentSendItem := none
  currentReceiveItem := none

/-- `setup_socket` in an empty pool. -/
def setupSocket (w : World σ ι) (listenSocket : Int) : Proxy σ ι :=
  addSocketToPool listenSocket 0 true .server .client { weight := 0, appIndex := 0 }
    { w, slots := fun _ => blankSlot, pollFd := fun _ => 0, poolSize := 0, listenSocket }

/-- `accept_socket`, once both descriptors are connected. -/
def acceptSocket (cfg : Config σ ι) (client server : Int) (ipa : IpApplication)
    (s : Proxy σ ι) : Proxy σ ι :=
  let s := addSocketToPool client server false .server .client ipa s
  { s with w := { s.w with firstReceive := s.w.firstReceive || cfg.enableFirstReceive } }

/-! ## Closing -/

/-- `remove_socket_by_index`. A slot outside the pool has no list of its own:
it is NULL, was never set, or is the one of the slot it was copied to. -/
def removeSocket (i : Nat) (s : Proxy σ ι) : Except Fault (Proxy σ ι) := do
  if s.poolSize < i then throw .freed
  let (slot, mem) ← removeSocketByIndex (s.slots i) s.w.mem
  return { s with
    w := { s.w with mem }
    slots := Function.update s.slots i slot
    poolSize := s.poolSize - 1 }

/-- The handler of a closed socket. -/
def closePair (i : Nat) (s : Proxy σ ι) : Except Fault (Proxy σ ι) := do
  let s ← s.removeSocket i
  let s ← s.removeSocket (i + 1)
  if s.poolSize ≤ 1 then return s
  let n := s.poolSize
  let slots := Function.update s.slots i { s.slots n with counterSocketIndex := i + 1 }
  let pollFd := Function.update s.pollFd i (s.pollFd n)
  return { s with
    slots := Function.update slots (i + 1) { slots (n + 1) with counterSocketIndex := i }
    pollFd := Function.update pollFd (i + 1) (pollFd (n + 1)) }

/-! ## The loop -/

def read (cfg : Config σ ι) (i : Nat) (incoming : Incoming) (s : Proxy σ ι) :
    Except Fault (Proxy σ ι) := do
  match ← readEvent cfg incoming (s.conn i) with
  | .again c => return s.put c
  | .received c _ => return s.put c
  | .closed c => (s.put c).closePair i

def write (i sent : Nat) (s : Proxy σ ι) : Except Fault (Proxy σ ι) := do
  let (c, _) ← writeEvent sent (s.conn i)
  return s.put c

/-- `prepare_events` on slot `i`. -/
def prepareSlot (s : Proxy σ ι) (i : Nat) : Except Fault (Proxy σ ι) :=
  if (s.slots i).acceptMode then .ok s
  else do
    let (me, _) ← prepareEvents s.w.mem (s.slots i) (s.slots (s.slots i).counterSocketIndex)
    return { s with slots := Function.update s.slots i me }

def prepare (s : Proxy σ ι) : Except Fault (Proxy σ ι) :=
  (List.range s.poolSize).foldlM prepareSlot s

inductive Event where
  /-- the listening socket is readable; both descriptors are new -/
  | accept (client server : Int) (ipa : IpApplication)
  | read (i : Nat) (incoming : Incoming)
  | write (i sent : Nat)
  | prepare

def step (cfg : Config σ ι) (s : Proxy σ ι) : Event → Except Fault (Proxy σ ι)
  | .accept client server ipa => .ok (s.acceptSocket cfg client server ipa)
  | .read i incoming => s.read cfg i incoming
  | .write i sent => s.write i sent
  | .prepare => s.prepare

end Proxy

end PvfsProxy
