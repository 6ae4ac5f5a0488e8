import PvfsProxy.Proxy2
import PvfsProxy.Lib.Machine

/-!
# The scheduler interface

`SchedulerMethod σ ι` is `struct scheduler_method`, generic in the private
state `σ` of a scheduler and in the item `ι` it embeds in the queue. A hook
left NULL in the method table is `none`. What a hook does to request states
it reports: it may unlock some (`unlocked`), and an enqueue hook may lock
the arriving request or hand it its item, as the self-dispatching scheduler
does.

`admitRequest` and `dispatchNext` are the two places where the framework
meets the queue: the first is what `check_request` does with a request it
has parsed, the second what every completion does.
-/

namespace PvfsProxy

variable {σ ι : Type}

structure CompleteMessage (ι : Type) where
  currentItem : Option (GenericQueueItem ι)
  completeSize : Int

/-- What a hook returns, with the request states it unlocked on the way. -/
structure HookResult (σ α : Type) where
  globals : Globals σ
  ret : α
  unlocked : List Addr := []

/-- An enqueue hook may also write the arriving request's own state. -/
structure EnqueueResult (σ ι : Type) extends HookResult σ Bool where
  locksNew : Bool := false
  newItem : Option (GenericQueueItem ι) := none

structure SchedulerMethod (σ ι : Type) where
  workConserving : Bool
  schEnqueue : (Nat → Endpoint) → SocketInfo → PvfsInfo → Globals σ →
    Except Fault (EnqueueResult σ ι)
  schDequeue : DequeueReason ι → Globals σ →
    Except Fault (HookResult σ (Option (GenericQueueItem ι)))
  /-- returns the item it was given, updated, with the C result -/
  schUpdateOnRequestCompletion : CompleteMessage ι → Globals σ →
    Except Fault (HookResult σ (Option (GenericQueueItem ι) × Int))
  /-- likewise on `rs->current_item` -/
  schCurrentSize : Option (Option (GenericQueueItem ι) → Int →
    Except Fault (Option (GenericQueueItem ι) × Int))
  schAddTtlThroughput : Int → Nat → Globals σ → Globals σ
  schCalculateDiff : Option (Nat → Globals σ → Int)
  schSelfDispatch : Bool
  schAcceptMeta : Bool

/-- `rs->locked = 0` for every state of the list. -/
def unlockAll (ps : List Addr) (mem : Mem ι) : Mem ι :=
  ps.foldl (fun mem p => mem.modify p fun rs => { rs with locked := false }) mem

@[simp] theorem unlockAll_nil (mem : Mem ι) : unlockAll [] mem = mem := rfl

/-- Hand a parsed request to the scheduler: enqueue it, and if it may go at
once dequeue and release it, else lock it. The item is the one dequeued. -/
def admitRequest (m : SchedulerMethod σ ι) (pool : Nat → Endpoint) (si : SocketInfo)
    (pi : PvfsInfo) (event : DequeueEvent) (completeSize : Int) (g : Globals σ)
    (mem : Mem ι) : Except Fault (Globals σ × Mem ι × Option (GenericQueueItem ι)) := do
  let out ← m.schEnqueue pool si pi g
  let mem := unlockAll out.unlocked mem
  if out.ret && !m.schSelfDispatch then
    let deq ← m.schDequeue
      { event, completeSize, lastAppIndex := si.appIndex, item := none } out.globals
    let mem := unlockAll deq.unlocked mem
    return (deq.globals,
      mem.modify si.rs fun rs => { rs with currentItem := deq.ret, locked := false }, deq.ret)
  else if !m.schSelfDispatch then
    return (out.globals, mem.modify si.rs fun rs => { rs with locked := true }, none)
  else
    return (out.globals,
      mem.modify si.rs fun rs =>
        { rs with
          locked := rs.locked || out.locksNew
          currentItem := out.newItem.or rs.currentItem },
      none)

/-- Ask the scheduler for the next item and release its request. -/
def dispatchNext (m : SchedulerMethod σ ι) (r : DequeueReason ι) (g : Globals σ)
    (mem : Mem ι) : Except Fault (Globals σ × Mem ι × Option (GenericQueueItem ι)) := do
  let out ← m.schDequeue r g
  let mem := unlockAll out.unlocked mem
  match out.ret with
  | none => return (out.globals, mem, none)
  | some newItem =>
    let newDispatched ← mem.deref newItem.socketData.rs
    if !newDispatched.locked then throw .assertion
    return (out.globals,
      mem.modify newItem.socketData.rs fun rs =>
        { rs with currentItem := some newItem, locked := false },
      some newItem)

/-- A dispatch that returns called the dequeue hook once; an item it got back
belonged to a locked request, which is released. -/
theorem dispatchNext_ok {m : SchedulerMethod σ ι} {r : DequeueReason ι} {g g' : Globals σ}
    {mem mem' : Mem ι} {next : Option (GenericQueueItem ι)}
    (h : dispatchNext m r g mem = .ok (g', mem', next)) :
    ∃ out, m.schDequeue r g = .ok out ∧ g' = out.globals ∧ next = out.ret
      ∧ (next = none → mem' = unlockAll out.unlocked mem)
      ∧ ∀ it, next = some it →
          (∃ rs, unlockAll out.unlocked mem it.socketData.rs = some rs ∧ rs.locked = true)
          ∧ mem' = (unlockAll out.unlocked mem).modify it.socketData.rs fun rs =>
              { rs with currentItem := some it, locked := false } := by
  obtain ⟨out, hout, h⟩ := Machine.bind_eq_ok.mp h
  refine ⟨out, hout, ?_⟩
  cases hret : out.ret with
  | none =>
      simp only [hret, Machine.pure_eq_ok, Prod.mk.injEq] at h
      obtain ⟨rfl, rfl, rfl⟩ := h
      simp
  | some it =>
      simp only [hret] at h
      obtain ⟨rs, hrs, h⟩ := Machine.bind_eq_ok.mp h
      by_cases hlocked : rs.locked = true
      · simp only [hlocked, Bool.not_true, Bool.false_eq_true, if_false] at h
        cases h
        refine ⟨rfl, rfl, by simp, ?_⟩
        rintro _ ⟨⟩
        exact ⟨⟨rs, Mem.deref_eq_ok.mp hrs, hlocked⟩, rfl⟩
      · simp only [hlocked, Bool.not_false, if_true] at h
        cases h

/-! ## Locks -/

/-- Is there a locked state at this address? -/
def lockedAt (mem : Mem ι) (p : Addr) : Bool := (mem p).any (·.locked)

def Mem.SameLocks (mem mem' : Mem ι) : Prop := ∀ p, lockedAt mem' p = lockedAt mem p

namespace Mem.SameLocks

variable {mem mem' mem'' : Mem ι}

theorem refl (mem : Mem ι) : mem.SameLocks mem := fun _ => rfl

theorem trans (h : mem.SameLocks mem') (h' : mem'.SameLocks mem'') : mem.SameLocks mem'' :=
  fun p => (h' p).trans (h p)

theorem modify (p : Addr) {f : RequestState ι → RequestState ι}
    (hf : ∀ rs, (f rs).locked = rs.locked) : mem.SameLocks (mem.modify p f) := by
  intro q
  unfold lockedAt
  by_cases hq : q = p
  · subst hq
    rw [Mem.modify_self]
    cases mem q with
    | none => rfl
    | some rs => exact hf rs
  · rw [Mem.modify_of_ne _ hq]

theorem alloc {p : Addr} {rs : RequestState ι} (hp : mem p = none) (hrs : rs.locked = false) :
    mem.SameLocks (mem.alloc p rs) := by
  intro q
  unfold lockedAt
  by_cases hq : q = p
  · subst hq
    rw [Mem.alloc_self, hp]
    exact hrs
  · rw [Mem.alloc_of_ne _ hq]

theorem of_freed (h : ∀ p, mem' p = mem p ∨ mem' p = none ∧ lockedAt mem p = false) :
    mem.SameLocks mem' := by
  intro p
  rcases h p with hp | ⟨hp, hunlocked⟩
  · unfold lockedAt
    rw [hp]
  · rw [hunlocked]
    unfold lockedAt
    rw [hp]
    rfl

end Mem.SameLocks

theorem lockedAt_alloc (mem : Mem ι) (p q : Addr) (rs : RequestState ι) :
    lockedAt (mem.alloc p rs) q = if q = p then rs.locked else lockedAt mem q := by
  unfold lockedAt
  split
  · rename_i h
    rw [h, Mem.alloc_self]
    rfl
  · rename_i h
    rw [Mem.alloc_of_ne _ h]

theorem lockedAt_unlock (mem : Mem ι) (p q : Addr) (item : Option (GenericQueueItem ι)) :
    lockedAt (mem.modify p fun rs => { rs with currentItem := item, locked := false }) q
      = if q = p then false else lockedAt mem q := by
  unfold lockedAt
  split
  · rename_i h
    rw [h, Mem.modify_self]
    cases mem p <;> rfl
  · rename_i h
    rw [Mem.modify_of_ne _ h]

theorem unlockAll_apply (ps : List Addr) (mem : Mem ι) (p : Addr) :
    unlockAll ps mem p
      = (mem p).map fun rs => { rs with locked := if p ∈ ps then false else rs.locked } := by
  induction ps generalizing mem with
  | nil => simp
  | cons q ps ih =>
      show unlockAll ps (mem.modify q fun rs => { rs with locked := false }) p = _
      rw [ih]
      by_cases hp : p = q
      · subst hp
        rw [Mem.modify_self, Option.map_map]
        refine congrArg (Option.map · (mem p)) (funext fun rs => ?_)
        simp
      · rw [Mem.modify_of_ne _ hp]
        refine congrArg (Option.map · (mem p)) (funext fun rs => ?_)
        simp [hp]

theorem lockedAt_unlockAll (ps : List Addr) (mem : Mem ι) (p : Addr) :
    lockedAt (unlockAll ps mem) p = if p ∈ ps then false else lockedAt mem p := by
  unfold lockedAt
  rw [unlockAll_apply]
  cases mem p with
  | none => simp
  | some rs => rfl

/-- What an admission returns under a framework that dispatches: the request
goes with whatever the dequeue hook hands out, or it is locked. -/
theorem admitRequest_ok {m : SchedulerMethod σ ι} (hself : m.schSelfDispatch = false)
    {pool : Nat → Endpoint} {si : SocketInfo} {pi : PvfsInfo} {event : DequeueEvent} {size : Int}
    {g g' : Globals σ} {mem mem' : Mem ι} {item : Option (GenericQueueItem ι)}
    (h : admitRequest m pool si pi event size g mem = .ok (g', mem', item)) :
    ∃ out, m.schEnqueue pool si pi g = .ok out
      ∧ ((out.ret = true ∧ ∃ deq, m.schDequeue
            { event, completeSize := size, lastAppIndex := si.appIndex, item := none } out.globals
              = .ok deq
          ∧ g' = deq.globals ∧ item = deq.ret
          ∧ mem' = (unlockAll deq.unlocked (unlockAll out.unlocked mem)).modify si.rs fun rs =>
              { rs with currentItem := deq.ret, locked := false })
        ∨ (out.ret = false ∧ g' = out.globals ∧ item = none
          ∧ mem' = (unlockAll out.unlocked mem).modify si.rs fun rs =>
              { rs with locked := true })) := by
  obtain ⟨out, hout, h⟩ := Machine.bind_eq_ok.mp h
  refine ⟨out, hout, ?_⟩
  rw [hself] at h
  cases hret : out.ret with
  | true =>
      simp only [hret, Bool.not_false, Bool.and_self, if_true] at h
      obtain ⟨deq, hdeq, h⟩ := Machine.bind_eq_ok.mp h
      obtain ⟨rfl, hrest⟩ := Prod.mk.inj (Machine.pure_eq_ok.mp h)
      obtain ⟨rfl, rfl⟩ := Prod.mk.inj hrest
      exact .inl ⟨rfl, deq, hdeq, rfl, rfl, rfl⟩
  | false =>
      simp only [hret, Bool.not_false, Bool.false_and, Bool.false_eq_true, if_false, if_true] at h
      obtain ⟨rfl, hrest⟩ := Prod.mk.inj (Machine.pure_eq_ok.mp h)
      obtain ⟨rfl, rfl⟩ := Prod.mk.inj hrest
      exact .inr ⟨rfl, rfl, rfl, rfl⟩

/-- A request that is not let through has nothing that can go wrong. -/
theorem admitRequest_exists {m : SchedulerMethod σ ι} {pool : Nat → Endpoint} {si : SocketInfo}
    {pi : PvfsInfo} {g : Globals σ} {out : EnqueueResult σ ι}
    (hout : m.schEnqueue pool si pi g = .ok out) (hret : out.ret = false) (event : DequeueEvent)
    (size : Int) (mem : Mem ι) : ∃ res, admitRequest m pool si pi event size g mem = .ok res := by
  unfold admitRequest
  rw [hout]
  simp only [bind, Except.bind, hret, Bool.false_and, Bool.false_eq_true, if_false]
  cases m.schSelfDispatch <;> exact ⟨_, rfl⟩

/-- A dispatch goes through if the item handed out, if any, is locked. -/
theorem dispatchNext_exists {m : SchedulerMethod σ ι} {r : DequeueReason ι} {g : Globals σ}
    (mem : Mem ι) {out : HookResult σ (Option (GenericQueueItem ι))}
    (hout : m.schDequeue r g = .ok out)
    (hlocked : ∀ it, out.ret = some it →
      lockedAt (unlockAll out.unlocked mem) it.socketData.rs = true) :
    ∃ res, dispatchNext m r g mem = .ok res := by
  unfold dispatchNext
  rw [hout]
  cases hret : out.ret with
  | none =>
      refine ⟨(out.globals, unlockAll out.unlocked mem, none), ?_⟩
      simp only [bind, Except.bind, hret]
      rfl
  | some it =>
      obtain ⟨rs, hrs, hl⟩ := (Option.any_eq_true ..).mp (hlocked it hret)
      refine ⟨(out.globals, (unlockAll out.unlocked mem).modify it.socketData.rs fun rs =>
        { rs with currentItem := some it, locked := false }, some it), ?_⟩
      simp only [bind, Except.bind, hret, Mem.deref, hrs, hl, Bool.not_true, Bool.false_eq_true,
        if_false]
      rfl

/-! ## Runs around a scheduler -/

/-- What an enqueue added to a queue: what is left once all that waited are taken out. -/
theorem diff_of_perm_cons {α : Type*} [DecidableEq α] {a : α} {l q : List α}
    (h : q.Perm (a :: l)) : q.diff l = [a] := by
  have hlast : (l ++ [a]).diff l = [a] := by
    clear h
    induction l with
    | nil => rfl
    | cons c l ih => rw [List.cons_append, List.diff_cons, List.erase_cons_head, ih]
  have hperm := (h.trans (List.perm_append_singleton a l).symm).diff_right l
  rw [hlast] at hperm
  exact hperm.eq_singleton

/-- A request `check_request` has parsed on pool slot `index`. -/
structure Arrival (ι : Type) where
  pool : Nat → Endpoint
  index : Nat
  dataSocket : Nat
  rs : Addr
  newRs : RequestState ι
  pi : PvfsInfo

/-- The `socket_info` built for it. -/
def Arrival.si (a : Arrival ι) : SocketInfo where
  requestSocket := a.index
  dataSocket := a.dataSocket
  appIndex := (a.pool a.index).appIndex
  rs := a.rs

inductive FrameEvent (ι : Type) where
  | arrive (a : Arrival ι) (event : DequeueEvent) (completeSize : Int)
  | complete (r : DequeueReason ι)

/-- What the framework does around the scheduler: a request arrives in fresh
memory and is admitted, or a completion dispatches the next one. -/
def frameStep (m : SchedulerMethod σ ι) (s : Globals σ × Mem ι) :
    FrameEvent ι → Except Fault (Globals σ × Mem ι)
  | .arrive a event completeSize => do
    let (g, mem, _) ←
      admitRequest m a.pool a.si a.pi event completeSize s.1 (s.2.alloc a.rs a.newRs)
    return (g, mem)
  | .complete r => do
    let (g, mem, _) ← dispatchNext m r s.1 s.2
    return (g, mem)

/-- The calls of the two queue hooks. -/
inductive SchedCall (ι : Type) where
  | enqueue (pool : Nat → Endpoint) (si : SocketInfo) (pi : PvfsInfo)
  | dequeue (r : DequeueReason ι)

def callStep (m : SchedulerMethod σ ι) (g : Globals σ) :
    SchedCall ι → Except Fault (Globals σ)
  | .enqueue pool si pi => do
    let out ← m.schEnqueue pool si pi g
    return out.globals
  | .dequeue r => do
    let out ← m.schDequeue r g
    return out.globals

theorem callStep_enqueue {m : SchedulerMethod σ ι} {pool : Nat → Endpoint} {si : SocketInfo}
    {pi : PvfsInfo} {g : Globals σ} {out : EnqueueResult σ ι}
    (h : m.schEnqueue pool si pi g = .ok out) :
    callStep m g (.enqueue pool si pi) = .ok out.globals := by
  simp only [callStep, h]
  rfl

theorem callStep_dequeue {m : SchedulerMethod σ ι} {r : DequeueReason ι} {g : Globals σ}
    {out : HookResult σ (Option (GenericQueueItem ι))} (h : m.schDequeue r g = .ok out) :
    callStep m g (.dequeue r) = .ok out.globals := by
  simp only [callStep, h]
  rfl

/-- An admission is one enqueue, followed by a dequeue if that returned 1. -/
theorem admitRequest_calls {m : SchedulerMethod σ ι} {pool : Nat → Endpoint} {si : SocketInfo}
    {pi : PvfsInfo} {event : DequeueEvent} {size : Int} {g g' : Globals σ} {mem mem' : Mem ι}
    {item : Option (GenericQueueItem ι)}
    (h : admitRequest m pool si pi event size g mem = .ok (g', mem', item)) :
    ∃ calls, Machine.Run (fun _ _ => True) (callStep m) g calls g' := by
  obtain ⟨out, hout, h⟩ := Machine.bind_eq_ok.mp h
  have henq : Machine.Run (fun _ _ => True) (callStep m) g [.enqueue pool si pi] out.globals :=
    .single trivial (callStep_enqueue hout)
  split at h
  · obtain ⟨deq, hdeq, h⟩ := Machine.bind_eq_ok.mp h
    obtain ⟨rfl, -⟩ := Prod.mk.inj (Machine.pure_eq_ok.mp h)
    exact ⟨_, henq.snoc trivial (callStep_dequeue hdeq)⟩
  · split at h
    · obtain ⟨rfl, -⟩ := Prod.mk.inj (Machine.pure_eq_ok.mp h)
      exact ⟨_, henq⟩
    · obtain ⟨rfl, -⟩ := Prod.mk.inj (Machine.pure_eq_ok.mp h)
      exact ⟨_, henq⟩

/-- A run of the framework is, for the scheduler, a sequence of calls. -/
theorem frame_calls {m : SchedulerMethod σ ι} {ok : Globals σ × Mem ι → FrameEvent ι → Prop}
    {s t : Globals σ × Mem ι} {es : List (FrameEvent ι)}
    (h : Machine.Run ok (frameStep m) s es t) :
    ∃ calls, Machine.Run (fun _ _ => True) (callStep m) s.1 calls t.1 := by
  induction h with
  | nil => exact ⟨[], .nil⟩
  | @snoc es t u e _ _ hstep ih =>
      obtain ⟨calls, hcalls⟩ := ih
      cases e with
      | arrive a event size =>
          obtain ⟨⟨g, mem, item⟩, hentry, h⟩ := Machine.bind_eq_ok.mp hstep
          obtain rfl := Machine.pure_eq_ok.mp h
          obtain ⟨calls', hcalls'⟩ := admitRequest_calls hentry
          exact ⟨_, hcalls.append hcalls'⟩
      | complete r =>
          obtain ⟨⟨g, mem, item⟩, hdisp, h⟩ := Machine.bind_eq_ok.mp hstep
          obtain rfl := Machine.pure_eq_ok.mp h
          obtain ⟨out, hout, rfl, -⟩ := dispatchNext_ok hdisp
          exact ⟨_, hcalls.snoc trivial (callStep_dequeue hout)⟩

end PvfsProxy
