import Mathlib.Algebra.Order.Ring.Int
import Mathlib.Algebra.Order.BigOperators.Group.List
import Mathlib.Data.Finset.Prod
import Mathlib.Data.Int.Interval
import Mathlib.Tactic.Abel
import Mathlib.Data.List.TakeWhile
import Mathlib.Data.List.Pairwise
import Mathlib.Data.List.Induction
import Mathlib.Data.List.Perm.Basic

/-!
# The data types of the proxy

The structures of `proxy2.h`, `scheduler_main.h` and `config.h` that the
program logic reads, and the memory the `request_state`s live in.

A `request_state` pointer is an address (`Addr`); `Mem` maps an address to
the state stored there, and to `none` once it has been freed. Addresses are
never handed out twice, so a dangling pointer stays visible as one. Items of
a scheduler's queue are values, generic in the embedded scheduler item `ι`:
an item has one owner at a time, the queue and then the `current_item` of
its request.

C `int` fields are `Int`, flags that only ever hold 0 and 1 are `Bool`, and
the one place where the width of an `int` is visible to a peer, the message
tag, goes through `toInt32`. Timestamps and fields only logged are left out.
-/

namespace PvfsProxy

/-- How a call of the C program can fail to return. -/
inductive Fault where
  /-- `exit(code)` -/
  | exit (code : Int)
  /-- a failed `assert` -/
  | assertion
  /-- NULL dereferenced, or a NULL hook called -/
  | nullPointer
  /-- a freed `request_state` accessed -/
  | freed
  | divisionByZero
deriving Repr, DecidableEq

/-- The value an `int` holds after `z` is stored in it. -/
def toInt32 (z : Int) : Int := z.bmod (2 ^ 32)

theorem toInt32_eq {z : Int} (h₀ : 0 ≤ z) (h₁ : z < 2 ^ 31) : toInt32 z = z :=
  Int.bmod_eq_of_le (by omega) (by omega)

inductive Node where
  | server
  | client
deriving Repr, DecidableEq

/-- `enum PVFS_server_op`; `unknown` is any other number found in a header. -/
inductive PvfsServerOp where
  | invalid | create | remove | io | getattr | setattr | lookupPath | crdirent
  | rmdirent | chdirent | truncate | mkdir | readdir | getconfig | writeCompletion
  | flush | mgmtSetparam | mgmtNoop | statfs | perfUpdate | mgmtPerfMon
  | mgmtIterateHandles | mgmtDspaceInfoList | mgmtEventMon | mgmtRemoveObject
  | mgmtRemoveDirent | mgmtGetDirdataHandle | jobTimer | protoError | geteattr
  | seteattr | deleattr | listeattr | smallIo | listattr | batchCreate
  | batchRemove | precreatePoolRefiller | unstuff | numOps | dataFlow
  | unknown (code : Int)
deriving Repr, DecidableEq, Inhabited

/-- The enumerators in the order of their numbers. -/
def pvfsServerOps : List PvfsServerOp :=
  [.invalid, .create, .remove, .io, .getattr, .setattr, .lookupPath, .crdirent,
   .rmdirent, .chdirent, .truncate, .mkdir, .readdir, .getconfig, .writeCompletion,
   .flush, .mgmtSetparam, .mgmtNoop, .statfs, .perfUpdate, .mgmtPerfMon,
   .mgmtIterateHandles, .mgmtDspaceInfoList, .mgmtEventMon, .mgmtRemoveObject,
   .mgmtRemoveDirent, .mgmtGetDirdataHandle, .jobTimer, .protoError, .geteattr,
   .seteattr, .deleattr, .listeattr, .smallIo, .listattr, .batchCreate,
   .batchRemove, .precreatePoolRefiller, .unstuff, .numOps, .dataFlow]

def PvfsServerOp.ofCode (code : Int) : PvfsServerOp :=
  if 0 ≤ code then pvfsServerOps.getD code.toNat (.unknown code) else .unknown code

/-- `PVFS_IO_READ` and `PVFS_IO_WRITE` -/
def pvfsIoRead : Int := 1
def pvfsIoWrite : Int := 2

abbrev Addr := Nat

/-- What a scheduler reads of a `socket_state`. -/
structure Endpoint where
  socket : Int
  appIndex : Nat
  weight : Int
deriving Repr, DecidableEq

structure SocketInfo where
  requestSocket : Nat
  dataSocket : Nat
  appIndex : Nat
  rs : Addr
deriving Repr, DecidableEq

structure PvfsInfo where
  op : PvfsServerOp
  handle : Int := 0
  mask : Int := 0
  fsid : Int := 0
  ioType : Int := 0
  tag : Int
  currentDataSize : Int := 0
  aggregateSize : Int := 0
  currentServer : Int := 0
  totalServer : Int := 0
  reqSize : Int
  reqOffset : Int := 0
  stripSize : Int := 0
deriving Repr, DecidableEq

structure GenericQueueItem (ι : Type) where
  itemId : Int
  socketData : SocketInfo
  embedded : ι
deriving Repr, DecidableEq

/-- `list_req_comp`: zero when the item carries the id. -/
def listReqComp {ι : Type} (a : Int) (b : GenericQueueItem ι) : Int :=
  if a = b.itemId then 0 else 1

inductive DequeueEvent where
  | newIo | completeIo | diffChange | newMeta
deriving Repr, DecidableEq

structure DequeueReason (ι : Type) where
  event : DequeueEvent
  completeSize : Int
  lastAppIndex : Nat
  item : Option (GenericQueueItem ι)

structure RequestState (ι : Type) where
  configTag : Bool
  jobSize : Int
  completedSize : Int
  currentTag : Int
  lastTag : Int
  pvfsIoType : Int
  op : PvfsServerOp
  readSize : Int
  readOffset : Int
  /-- the received bytes, the first `bufferTail` of the allocated ones -/
  buffer : List UInt8
  bufferSize : Int
  bufferHead : Int
  bufferTail : Int
  locked : Bool
  checkResponseCompletion : Bool
  lastCompletion : Int
  currentItem : Option (GenericQueueItem ι)
  originalRequest : Option Addr
  lastFlow : Bool
  metaResponse : Bool
deriving Inhabited

/-- The memory holding the `request_state`s; `none` is not allocated or freed. -/
abbrev Mem (ι : Type) := Addr → Option (RequestState ι)

namespace Mem

variable {ι : Type}

/-- `p->field = …` on a live state. -/
def modify (mem : Mem ι) (p : Addr) (f : RequestState ι → RequestState ι) : Mem ι :=
  Function.update mem p ((mem p).map f)

/-- `malloc` and initialisation in one. -/
def alloc (mem : Mem ι) (p : Addr) (rs : RequestState ι) : Mem ι :=
  Function.update mem p (some rs)

def free (mem : Mem ι) (p : Addr) : Mem ι := Function.update mem p none

def deref (mem : Mem ι) (p : Addr) : Except Fault (RequestState ι) :=
  match mem p with
  | some rs => .ok rs
  | none => .error .freed

theorem modify_self (mem : Mem ι) (p : Addr) (f : RequestState ι → RequestState ι) :
    mem.modify p f p = (mem p).map f := by simp [modify]

theorem modify_of_ne (mem : Mem ι) {p q : Addr} (h : q ≠ p)
    (f : RequestState ι → RequestState ι) : mem.modify p f q = mem q := by
  simp [modify, h]

theorem alloc_self (mem : Mem ι) (p : Addr) (rs : RequestState ι) :
    mem.alloc p rs p = some rs := by simp [alloc]

theorem alloc_of_ne (mem : Mem ι) {p q : Addr} (h : q ≠ p) (rs : RequestState ι) :
    mem.alloc p rs q = mem q := by
  simp [alloc, h]

theorem alloc_modify (mem : Mem ι) (p : Addr) (rs : RequestState ι)
    (f : RequestState ι → RequestState ι) :
    (mem.alloc p rs).modify p f = mem.alloc p (f rs) := by
  simp [modify, alloc]

theorem deref_eq_ok {mem : Mem ι} {p : Addr} {rs : RequestState ι} :
    mem.deref p = .ok rs ↔ mem p = some rs := by
  unfold deref
  split <;> simp_all

end Mem

/-- `struct app_statistics`, the counters kept while requests pass. -/
structure AppStatistics where
  appWeight : Int
  receivedRequests : Int := 0
  completedRequests : Int := 0
  dispatchedRequests : Int := 0
  streamId : Int := 0
  byteCounter : Int := 0
  reqGo : Int := 0
  reqCome : Int := 0
  appThroughput : Int := 0
  diff : Int := 0
  appExist : Int := 0
deriving Repr, DecidableEq

/-- The globals the framework shares with the scheduler `σ`. -/
structure Globals (σ : Type) where
  sched : σ
  appStats : Nat → AppStatistics
  totalThroughput : Int

def Globals.modifyApp {σ : Type} (g : Globals σ) (app : Nat)
    (f : AppStatistics → AppStatistics) : Globals σ :=
  { g with appStats := Function.update g.appStats app (f (g.appStats app)) }

@[simp] theorem Globals.modifyApp_sched {σ : Type} (g : Globals σ) (app : Nat)
    (f : AppStatistics → AppStatistics) : (g.modifyApp app f).sched = g.sched := rfl

end PvfsProxy
