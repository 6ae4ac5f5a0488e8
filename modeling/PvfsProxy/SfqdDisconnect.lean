import PvfsProxy.PoolPairing
import PvfsProxy.SfqdSlots

/-!
# Disconnects under SFQD

The pool around SFQD: connections are accepted, requests arrive on them and
complete, their states are retired, and sockets disconnect. `SfqdPool` is the
proxy with the history of `SfqdRun`, and its events are the functions of the
framework.

The scheduler is not told about a disconnect. What it knows of a request, the
queued item or the slot it occupies, outlives the states that
`remove_socket_by_index` frees. `SfqdPool.Served` is the invariant as long as
closes are seen at clients' sockets and no connection closes with a request
queued or outstanding. `SfqdPool.Served.close_iff` says that it takes no more
than one such request to break it, `SfqdPool.Served.closes_iff` what a close
on any slot does.
-/

namespace PvfsProxy

/-! ## The locks as the scheduler sees them -/

/-- The request at this address waits for nothing and has not been let through. -/
def Mem.Unscheduled {ι : Type} (mem : Mem ι) (p : Addr) : Prop :=
  ∃ rs, mem p = some rs ∧ rs.locked = false ∧ rs.currentItem = none

theorem Mem.Unscheduled.modify {ι : Type} {mem : Mem ι} {p : Addr} (h : mem.Unscheduled p)
    (q : Addr) {f : RequestState ι → RequestState ι}
    (hf : ∀ rs, (f rs).locked = rs.locked ∧ (f rs).currentItem = rs.currentItem) :
    (mem.modify q f).Unscheduled p := by
  obtain ⟨rs, hrs, hunlocked, hitem⟩ := h
  by_cases hpq : p = q
  · subst hpq
    refine ⟨f rs, ?_, (hf rs).1.trans hunlocked, (hf rs).2.trans hitem⟩
    rw [Mem.modify_self, hrs]
    rfl
  · refine ⟨rs, ?_, hunlocked, hitem⟩
    rw [Mem.modify_of_ne _ hpq, hrs]

namespace Slots

variable {s : SfqdRun}

theorem lockedAt_iff (h : Slots s) (p : Addr) :
    lockedAt s.mem p = true ↔ ∃ it ∈ s.queued, it.socketData.rs = p := by
  unfold lockedAt
  constructor
  · intro hp
    obtain ⟨rs, hrs, hlocked⟩ := (Option.any_eq_true _ _).mp hp
    exact (h.locked p rs hrs).mp hlocked
  · rintro ⟨it, hit, rfl⟩
    obtain ⟨rs, hrs, hlocked⟩ := h.queued_locked hit
    rw [hrs]
    exact hlocked

/-- The accounting sees nothing of the memory but the locks. -/
theorem of_locks (h : Slots s) {mem : Mem SfqdQueueItem} (hmem : s.mem.SameLocks mem) :
    Slots { s with mem } := by
  have hiff : ∀ p, lockedAt mem p = true ↔ ∃ it ∈ s.queued, it.socketData.rs = p := by
    intro p
    rw [hmem p]
    exact h.lockedAt_iff p
  exact
    { h with
      locked := by
        intro p rs hp
        have := hiff p
        unfold lockedAt at this
        have hp : mem p = some rs := hp
        rw [hp] at this
        exact this
      live := by
        intro it hit
        have hlocked := (hiff it.socketData.rs).mpr ⟨it, hit, rfl⟩
        obtain ⟨rs, hrs, -⟩ := (Option.any_eq_true _ _).mp hlocked
        exact ⟨rs, hrs⟩ }

end Slots

/-! ## Admissions -/

section admission

variable {myShare : Int → Int → Int → Int → Int → Int} {s : SfqdRun}

/-- The admission of the unlocked request at `si.rs`. Its item is returned or
at the end of the queue. -/
theorem Slots.admission (h : Slots s) {pool : Nat → Endpoint} {si : SocketInfo} {pi : PvfsInfo}
    {mem mem' : Mem SfqdQueueItem} {g' : Globals Sfqd} {item : Option SfqdItem}
    {rs : RequestState SfqdQueueItem} (hmem : s.mem.SameLocks mem) (hrs : mem si.rs = some rs)
    (hunlocked : rs.locked = false) (happ : si.appIndex = (pool si.requestSocket).appIndex)
    (hentry : admitRequest (schSfqd myShare) pool si pi .newIo pi.currentDataSize s.g mem
      = .ok (g', mem', item)) :
    Slots {
      g := g'
      mem := mem'
      outstanding := s.outstanding ++ item.toList
      enqueued := s.enqueued ++ (item.toList ++ g'.sched.queued.drop s.queued.length)
      returned := s.returned ++ item.toList }
      ∧ ∀ it ∈ item.toList ++ g'.sched.queued, it ∈ s.queued ∨ it.socketData = si := by
  -- the request as an arrival in memory that does not hold it yet
  let a : Arrival SfqdQueueItem :=
    { pool, index := si.requestSocket, dataSocket := si.dataSocket, rs := si.rs, newRs := rs, pi }
  have hsi : a.si = si := by
    unfold Arrival.si
    rw [← happ]
  have hother : mem.SameLocks (mem.free si.rs) := by
    refine .of_freed fun p => ?_
    by_cases hp : p = si.rs
    · refine .inr ⟨by simp [Mem.free, hp], ?_⟩
      unfold lockedAt
      rw [hp, hrs]
      exact hunlocked
    · exact .inl (by simp [Mem.free, hp])
  have h₀ := h.of_locks (hmem.trans hother)
  have halloc : (mem.free si.rs).alloc a.rs a.newRs = mem := by
    funext p
    unfold Mem.alloc Mem.free
    by_cases hp : p = si.rs
    · simp [a, hp, hrs]
    · simp [a, hp]
  have hcases : ∃ g₁ b, sfqdEnqueue pool si pi s.g = .ok (g₁, b)
      ∧ g₁.sched.queued.drop s.queued.length = item.toList ++ g'.sched.queued.drop s.queued.length
      ∧ ∀ it ∈ item.toList ++ g'.sched.queued, it ∈ s.queued ∨ it.socketData = si := by
    obtain ⟨g₁, ⟨henq, hdeq, -⟩ | ⟨henq, rfl, rfl, -⟩⟩ := admitRequest_cases hentry
    · obtain ⟨hnil, -, it, -, hit, hone, hown⟩ := h.own_item henq
      obtain ⟨hret, finishTag, hsched⟩ := hown
        { event := .newIo, completeSize := pi.currentDataSize,
          lastAppIndex := si.appIndex, item := none }
      rw [hdeq] at hret hsched
      dsimp only at hret hsched
      refine ⟨g₁, true, henq, ?_, ?_⟩
      · rw [hret, hsched, hnil, hone]
        rfl
      · intro it' hit'
        rw [hret, hsched] at hit'
        obtain rfl : it' = it := by simpa [Sfqd.queued] using hit'
        exact .inr hit
    · obtain ⟨q, finishTag, streamId, hq, -, -, hsched⟩ := sfqdEnqueue_ok henq
      refine ⟨g', false, henq, rfl, ?_⟩
      intro it hit
      have hqueued : s.queued = q := by
        unfold SfqdRun.queued Sfqd.queued
        rw [hq]
        rfl
      rw [hsched, hqueued.symm] at hit
      simp only [Option.toList, Sfqd.queued, Option.getD_some, List.nil_append,
        List.mem_append, List.mem_singleton] at hit
      refine hit.imp id ?_
      rintro rfl
      rfl
  obtain ⟨g₁, b, henq, hdrop, hnew⟩ := hcases
  refine ⟨?_, hnew⟩
  have hstep : SfqdRun.step myShare { s with mem := mem.free si.rs } (.arrive a) = .ok {
      g := g'
      mem := mem'
      outstanding := s.outstanding ++ item.toList
      enqueued := s.enqueued ++ (item.toList ++ g'.sched.queued.drop s.queued.length)
      returned := s.returned ++ item.toList } := by
    simp only [SfqdRun.step, SfqdRun.arrive, hsi, halloc]
    rw [← hdrop]
    simp only [a, henq, hentry, bind, Except.bind]
    rfl
  have hok : SfqdRun.Allowed { s with mem := mem.free si.rs } (.arrive a) :=
    ⟨by simp [a, Mem.free], hunlocked⟩
  exact h₀.step hok hstep

end admission

namespace Conn

variable {σ ι : Type} {c : Conn σ ι} {p : Addr}

theorem opened_locks (hf : c.w.Fresh) (l : List Addr) {rs : RequestState ι}
    (hrs : rs.locked = false) : c.w.mem.SameLocks (c.opened l rs).w.mem :=
  .alloc (hf _ (Nat.le_refl _)) hrs

theorem requested_locks (hf : c.w.Fresh) (cfg : Config σ ι) (hne : p ≠ c.w.next)
    (rs : RequestState ι) (l : List Addr) (tag : Int) (op : PvfsServerOp) :
    c.w.mem.SameLocks (c.requested cfg p rs l tag op).w.mem := by
  refine (Mem.SameLocks.modify p (by intro _; rfl)).trans (.alloc ?_ rfl)
  rw [Mem.modify_of_ne _ hne.symm]
  exact hf _ (Nat.le_refl _)

theorem requested_unscheduled (hp : c.w.mem.Unscheduled p) (cfg : Config σ ι)
    (hne : p ≠ c.w.next) (rs : RequestState ι) (l : List Addr) (tag : Int) (op : PvfsServerOp) :
    (c.requested cfg p rs l tag op).w.mem.Unscheduled p := by
  obtain ⟨rs', hrs', hunlocked, hitem⟩ := hp.modify p
    (f := fun rs => { rs with op := op }) (by intro _; exact ⟨rfl, rfl⟩)
  refine ⟨rs', ?_, hunlocked, hitem⟩
  exact (Mem.alloc_of_ne _ hne _).trans hrs'

end Conn

/-- What a call of the scheduler for the request at `p` may do to the run: the
item returned is the one the request now has. -/
def SfqdRun.Admits (s : SfqdRun) (p : Addr) (w' : World Sfqd SfqdQueueItem) : Prop :=
  ∃ rs, w'.mem p = some rs
    ∧ Slots {
        g := w'.g
        mem := w'.mem
        outstanding := s.outstanding ++ rs.currentItem.toList
        enqueued := s.enqueued
          ++ (rs.currentItem.toList ++ w'.g.sched.queued.drop s.queued.length)
        returned := s.returned ++ rs.currentItem.toList }
    ∧ ∀ it ∈ rs.currentItem.toList ++ w'.g.sched.queued,
        it ∈ s.queued ∨ it.socketData.rs = p

section requests

variable {myShare : Int → Int → Int → Int → Int → Int} {s : SfqdRun}
  {cfg : Config Sfqd SfqdQueueItem}

/-- Nothing is asked of the scheduler. -/
theorem Slots.admits_nothing (h : Slots s) {w : World Sfqd SfqdQueueItem} (hg : w.g = s.g)
    (hmem : s.mem.SameLocks w.mem) {p : Addr} (hp : w.mem.Unscheduled p) : s.Admits p w := by
  obtain ⟨rs, hrs, -, hitem⟩ := hp
  have hqueued : w.g.sched.queued = s.queued := by
    rw [hg]
    rfl
  refine ⟨rs, hrs, ?_, ?_⟩
  · rw [hitem, hqueued, List.drop_length, hg]
    simpa using h.of_locks hmem
  · intro it hit
    rw [hitem, hqueued] at hit
    exact .inl hit

theorem Slots.callAdmit (h : Slots s) (hmethod : cfg.method = schSfqd myShare)
    {c : Conn Sfqd SfqdQueueItem} {si : SocketInfo} {pi : PvfsInfo}
    {w w' : World Sfqd SfqdQueueItem} (hg : w.g = s.g) (hmem : s.mem.SameLocks w.mem)
    (hp : w.mem.Unscheduled si.rs) (happ : si.appIndex = (c.pool si.requestSocket).appIndex)
    (hentry : callAdmit cfg c si pi .newIo pi.currentDataSize w = .ok w') :
    s.Admits si.rs w' := by
  obtain ⟨rs, hrs, hunlocked, hitem⟩ := hp
  obtain ⟨⟨g', mem', item⟩, hcall, hw'⟩ := Machine.bind_eq_ok.mp hentry
  obtain rfl := Machine.pure_eq_ok.mp hw'
  rw [hmethod, hg] at hcall
  obtain ⟨hslots, hnew⟩ := h.admission hmem hrs hunlocked happ hcall
  -- the request has the item it was let through with, if any
  have hown : ∃ rs', mem' si.rs = some rs' ∧ rs'.currentItem = item := by
    obtain ⟨g₁, ⟨-, -, rfl⟩ | ⟨-, -, rfl, rfl⟩⟩ := admitRequest_cases hcall
    · rw [Mem.modify_self, hrs]
      exact ⟨_, rfl, rfl⟩
    · rw [Mem.modify_self, hrs]
      exact ⟨_, rfl, hitem⟩
  obtain ⟨rs', hrs', hitem'⟩ := hown
  refine ⟨rs', hrs', ?_, ?_⟩
  · rw [hitem']
    exact hslots
  · intro it hit
    rw [hitem'] at hit
    rcases hnew it hit with hold | hsi
    · exact .inl hold
    · exact .inr (by rw [hsi])

theorem Slots.scheduleRequest (h : Slots s) (hmethod : cfg.method = schSfqd myShare)
    {c : Conn Sfqd SfqdQueueItem} {p counter : Addr} {tag size : Int} {op : PvfsServerOp}
    {header2 : List UInt8} {w' : World Sfqd SfqdQueueItem} (hg : c.w.g = s.g)
    (hmem : s.mem.SameLocks c.w.mem) (hp : c.w.mem.Unscheduled p)
    (happ : c.me.appIndex = (c.pool c.index).appIndex)
    (hsched : scheduleRequest cfg c p counter tag size op header2 = .ok w') :
    s.Admits p w' := by
  unfold PvfsProxy.scheduleRequest at hsched
  dsimp only at hsched
  split at hsched
  · have htype : ∀ ioType, s.mem.SameLocks ((c.w.mem.modify p fun rs =>
        { rs with pvfsIoType := ioType }).modify counter fun rs =>
          { rs with pvfsIoType := ioType }) := by
      intro ioType
      exact hmem.trans ((Mem.SameLocks.modify p (by intro _; rfl)).trans
        (Mem.SameLocks.modify counter (by intro _; rfl)))
    have hp' : ∀ ioType, Mem.Unscheduled ((c.w.mem.modify p fun rs =>
        { rs with pvfsIoType := ioType }).modify counter fun rs =>
          { rs with pvfsIoType := ioType }) p := by
      intro ioType
      exact (hp.modify p (by intro _; exact ⟨rfl, rfl⟩)).modify counter
        (by intro _; exact ⟨rfl, rfl⟩)
    split at hsched
    · refine h.callAdmit hmethod ?_ ?_ ?_ happ hsched
      · exact hg
      · exact htype _
      · exact hp' _
    · split at hsched
      · split at hsched
        · cases hsched
        · refine h.callAdmit hmethod ?_ ?_ ?_ happ hsched
          · exact hg
          · exact (htype _).trans (Mem.SameLocks.modify p (by intro _; rfl))
          · exact (hp' _).modify p (by intro _; exact ⟨rfl, rfl⟩)
      · obtain rfl := Except.ok.inj hsched
        refine h.admits_nothing ?_ (htype _) (hp' _)
        exact hg
  · -- metadata is not for this scheduler
    have hmeta : cfg.method.schAcceptMeta = false := by
      rw [hmethod]
      rfl
    rw [hmeta] at hsched
    simp only [Bool.and_false, Bool.false_and, Bool.false_eq_true, if_false] at hsched
    obtain rfl := Except.ok.inj hsched
    exact h.admits_nothing hg hmem hp

end requests

/-! ## The lists of the pool -/

namespace Proxy

variable {σ ι : Type}

/-- The state at this address is on the list of a slot in use. -/
def Holds (s : Proxy σ ι) (p : Addr) : Prop :=
  ∃ i, 0 < i ∧ i < s.poolSize ∧ p ∈ (s.slots i).requests

namespace Paired

variable {s : Proxy σ ι} {i : Nat}

theorem holds_me (h : s.Paired) (hi : 0 < i) (hlt : i < s.poolSize) {c : Conn σ ι}
    (hc : (s.conn i).Effect c) {p : Addr} (hp : p ∈ c.me.requests ++ c.peer.requests) :
    (s.put c).Holds p := by
  have hslots := h.slots_put hi hlt hc
  rcases List.mem_append.mp hp with hp | hp
  · refine ⟨i, hi, hlt, ?_⟩
    rw [hslots, if_pos rfl]
    exact hp
  · refine ⟨partner i, partner_pos i hi, partner_lt h.odd hlt, ?_⟩
    rw [hslots, if_neg (partner_ne i hi), if_pos rfl]
    exact hp

/-- What is not dropped from the lists of the connection stays on a list. -/
theorem holds_put (h : s.Paired) (hi : 0 < i) (hlt : i < s.poolSize) {c : Conn σ ι}
    (hc : (s.conn i).Effect c) {p : Addr} (hp : s.Holds p)
    (hstay : p ∈ (s.conn i).me.requests ++ (s.conn i).peer.requests →
      p ∈ c.me.requests ++ c.peer.requests) : (s.put c).Holds p := by
  by_cases hin : p ∈ (s.conn i).me.requests ++ (s.conn i).peer.requests
  · exact h.holds_me hi hlt hc (hstay hin)
  · obtain ⟨j, hj, hjlt, hpj⟩ := hp
    rw [List.mem_append, not_or, h.conn_peer hi hlt] at hin
    refine ⟨j, hj, hjlt, ?_⟩
    rw [h.slots_put hi hlt hc, if_neg, if_neg]
    · exact hpj
    · rintro rfl
      exact hin.2 hpj
    · rintro rfl
      exact hin.1 hpj

theorem holds_live (h : s.Paired) {p : Addr} (hp : s.Holds p) : (s.w.mem p).isSome = true := by
  obtain ⟨i, hi, hlt, hp⟩ := hp
  exact h.live i hi hlt p hp

theorem of_keeps (h : s.Paired) {w : World σ ι} (hf : w.Fresh) (hkeeps : s.w.mem.Keeps w.mem) :
    Paired { s with w } :=
  { h with
    slot := fun j hj hjlt =>
      have hslot := h.slot j hj hjlt
      ⟨hslot.index, hslot.source, hslot.counter, hslot.mode, hslot.opened⟩
    fresh := hf
    live := fun j hj hjlt p hp => hkeeps p (h.live j hj hjlt p hp) }

/-- What a close leaves: the states of the other connections. -/
theorem holds_closePair (h : s.Paired) (hi : i % 2 = 1) (hlt : i < s.poolSize) {s' : Proxy σ ι}
    (hs' : s.closePair i = .ok s') {p : Addr} :
    s'.Holds p ↔ s.Holds p ∧ p ∉ (s.slots i).requests ++ (s.slots (i + 1)).requests := by
  have hodd := h.odd
  obtain ⟨t, n, ht, hn, hsize, -, -, -, hslots⟩ := closePair_ok h hi hlt
  obtain rfl : t = s' := Except.ok.inj (ht.symm.trans hs')
  have hnodd : n % 2 = 1 := by omega
  have hlist : ∀ j, 0 < j → j < n →
      (t.slots j).requests = (s.slots (movedFrom i n j)).requests := by
    intro j hj hjn
    rw [(hslots j hjn).2, if_neg (by omega)]
    rfl
  rw [List.mem_append, not_or]
  constructor
  · rintro ⟨j, hj, hjlt, hp⟩
    have hjn : j < n := by omega
    rw [hlist j hj hjn] at hp
    have hfrom := movedFrom_pos (i := i) hj hjn
    have hfromlt : movedFrom i n j < s.poolSize := hn ▸ movedFrom_lt hjn
    have hne := movedFrom_ne hi hnodd hjn
    exact ⟨⟨_, hfrom, hfromlt, hp⟩,
      fun hin => h.disjoint _ _ hfrom hfromlt (by omega) hlt hne.1 hp hin,
      fun hin => h.disjoint _ _ hfrom hfromlt (by omega) (by omega) hne.2 hp hin⟩
  · rintro ⟨⟨j, hj, hjlt, hp⟩, hpi, hpi'⟩
    have hji : j ≠ i := by
      rintro rfl
      exact hpi hp
    have hji' : j ≠ i + 1 := by
      rintro rfl
      exact hpi' hp
    -- the last pair has moved into the hole
    obtain ⟨k, hk, hkn, hfrom⟩ : ∃ k, 0 < k ∧ k < n ∧ movedFrom i n k = j := by
      unfold movedFrom
      by_cases hjn : j < n
      · exact ⟨j, hj, hjn, by rw [if_neg hji, if_neg hji']⟩
      · by_cases hlast : j = n
        · exact ⟨i, by omega, by omega, by rw [if_pos rfl, hlast]⟩
        · exact ⟨i + 1, by omega, by omega, by rw [if_neg (by omega), if_pos rfl]; omega⟩
    refine ⟨k, hk, by omega, ?_⟩
    rw [hlist k hk hkn, hfrom]
    exact hp

end Paired

end Proxy

/-! ## The pool around the scheduler -/

structure SfqdPool where
  proxy : Proxy Sfqd SfqdQueueItem
  outstanding : List SfqdItem
  enqueued : List SfqdItem
  returned : List SfqdItem

namespace SfqdPool

/-- The run of the scheduler. -/
def run (s : SfqdPool) : SfqdRun where
  g := s.proxy.w.g
  mem := s.proxy.w.mem
  outstanding := s.outstanding
  enqueued := s.enqueued
  returned := s.returned

/-- Everything the scheduler knows of. -/
def items (s : SfqdPool) : List SfqdItem := s.run.queued ++ s.outstanding

inductive Event where
  | accept (client server : Int) (ipa : IpApplication)
  /-- a request that is wholly there arrives on slot `i` -/
  | request (i : Nat) (tag size : Int) (header2 : List UInt8)
  /-- another message, a response or a flow, gets its state on slot `i` -/
  | message (i : Nat)
  | complete (item : SfqdItem) (completeSize : Int) (lastAppIndex : Nat)
  /-- the operation is over on the connection of slot `i` -/
  | retire (i : Nat) (tag : Int)
  /-- the socket in slot `i` is seen to have disconnected -/
  | close (i : Nat)

/-- The request part of `check_request`. -/
def request (cfg : Config Sfqd SfqdQueueItem) (s : SfqdPool) (i : Nat) (tag size : Int)
    (header2 : List UInt8) : Except Fault SfqdPool := do
  let (c, p) ← openRequest cfg tag size (s.proxy.conn i)
  let c ← newRequest cfg c p tag size header2
  let rs ← c.w.mem.deref p
  return {
    proxy := s.proxy.put c
    outstanding := s.outstanding ++ rs.currentItem.toList
    -- what was let through at once, or is at the end of the queue
    enqueued := s.enqueued
      ++ (rs.currentItem.toList ++ c.w.g.sched.queued.drop s.run.queued.length)
    returned := s.returned ++ rs.currentItem.toList }

def complete (cfg : Config Sfqd SfqdQueueItem) (s : SfqdPool) (item : SfqdItem)
    (completeSize : Int) (lastAppIndex : Nat) : Except Fault SfqdPool := do
  let (w, next) ← callDequeue cfg
    { event := .completeIo, completeSize, lastAppIndex, item := some item } s.proxy.w
  return {
    proxy := { s.proxy with w }
    outstanding := s.outstanding.erase item ++ next.toList
    enqueued := s.enqueued
    returned := s.returned ++ next.toList }

def step (cfg : Config Sfqd SfqdQueueItem) (s : SfqdPool) : Event → Except Fault SfqdPool
  | .accept client server ipa => .ok { s with proxy := s.proxy.acceptSocket cfg client server ipa }
  | .request i tag size header2 => s.request cfg i tag size header2
  | .message i => do
    let (me, w, _) ← addRequestToSocket cfg.junk (s.proxy.slots i) s.proxy.w
    return { s with proxy := s.proxy.put { s.proxy.conn i with me, w } }
  | .complete item size app => s.complete cfg item size app
  | .retire i tag => .ok { s with proxy := s.proxy.put (cleanUpRequestState tag (s.proxy.conn i)) }
  | .close i => do
    let proxy ← s.proxy.closePair i
    return { s with proxy }

/-- Requests arrive and complete as in `SfqdRun`, what retires is over for the
scheduler, and a socket in any slot can be seen to close. -/
def Allowed (s : SfqdPool) : Event → Prop
  | .accept _ server _ => server ≠ 0
  | .request i .. => (0 < i ∧ i < s.proxy.poolSize) ∧ (s.proxy.slots i).incompleteMode = false
  | .message i => 0 < i ∧ i < s.proxy.poolSize
  | .complete item .. => item ∈ s.outstanding
  | .retire i tag => (0 < i ∧ i < s.proxy.poolSize)
      ∧ ∀ it ∈ s.items, hasTag s.proxy.w.mem tag it.socketData.rs = true →
          it.socketData.rs ∉ (s.proxy.conn i).me.requests ++ (s.proxy.conn i).peer.requests
  | .close i => 0 < i ∧ i < s.proxy.poolSize

instance (s : SfqdPool) (e : Event) : Decidable (s.Allowed e) := by
  cases e <;> unfold Allowed <;> infer_instance

/-- A request of slots `i` and `i + 1`, a connection when `i` is a client's
slot, is queued or outstanding. -/
def Busy (s : SfqdPool) (i : Nat) : Prop :=
  ∃ it ∈ s.items, it.socketData.rs ∈ (s.proxy.slots i).requests ++ (s.proxy.slots (i + 1)).requests

instance (s : SfqdPool) (i : Nat) : Decidable (s.Busy i) :=
  inferInstanceAs (Decidable (∃ it ∈ _, _))

/-- A connection closes at its client's socket, and when it is not busy. -/
def ClosesIdle (s : SfqdPool) : Event → Prop
  | .close i => (s.proxy.slots i).source = .client ∧ ¬ s.Busy i
  | _ => True

instance (s : SfqdPool) (e : Event) : Decidable (s.ClosesIdle e) := by
  cases e <;> unfold ClosesIdle <;> infer_instance

/-- Is the request at this address one of an open connection? -/
def isOpen (s : SfqdPool) (p : Addr) : Bool :=
  (List.range s.proxy.poolSize).any fun i => 0 < i && (s.proxy.slots i).requests.contains p

/-- No queued item refers to a freed state, and the depth counts the
outstanding requests of the open connections. -/
def Consistent (s : SfqdPool) : Prop :=
  (∀ it ∈ s.run.queued, (s.proxy.w.mem it.socketData.rs).isSome = true)
    ∧ s.proxy.w.g.sched.currentDepth = s.outstanding.countP fun it => s.isOpen it.socketData.rs

/-- The proxy before the first client. -/
def init (depth : Int) (appStats : Nat → AppStatistics) (listenSocket : Int) : SfqdPool where
  proxy := .setupSocket
    { mem := fun _ => none
      next := 0
      g := { sched := sfqdInit depth, appStats, totalThroughput := 0 }
      firstReceive := false
      passedCompletions := 0 }
    listenSocket
  outstanding := []
  enqueued := []
  returned := []

/-- The invariant as long as connections close idle. -/
structure Served (s : SfqdPool) : Prop where
  slots : Slots s.run
  paired : s.proxy.Paired
  owned : ∀ it ∈ s.items, s.proxy.Holds it.socketData.rs

theorem isOpen_iff {s : SfqdPool} {p : Addr} : s.isOpen p = true ↔ s.proxy.Holds p := by
  unfold isOpen Proxy.Holds
  simp only [List.any_eq_true, List.mem_range, Bool.and_eq_true, decide_eq_true_eq,
    List.contains_iff_mem]
  constructor
  · rintro ⟨i, hlt, hi, hp⟩
    exact ⟨i, hi, hlt, hp⟩
  · rintro ⟨i, hi, hlt, hp⟩
    exact ⟨i, hlt, hi, hp⟩

namespace Served

variable {s s' : SfqdPool}

theorem live (h : s.Served) {it : SfqdItem} (hit : it ∈ s.items) :
    (s.proxy.w.mem it.socketData.rs).isSome = true := h.paired.holds_live (h.owned it hit)

theorem consistent (h : s.Served) : s.Consistent := by
  refine ⟨fun it hit => h.live (List.mem_append_left _ hit), ?_⟩
  have hall : s.outstanding.countP (fun it => s.isOpen it.socketData.rs) = s.outstanding.length :=
    List.countP_eq_length.mpr fun it hit =>
      isOpen_iff.mpr (h.owned it (List.mem_append_right _ hit))
  rw [hall]
  exact h.slots.depth

theorem request (h : s.Served) {myShare : Int → Int → Int → Int → Int → Int}
    {cfg : Config Sfqd SfqdQueueItem} (hmethod : cfg.method = schSfqd myShare) {i : Nat}
    {tag size : Int} {header2 : List UInt8} (hi : 0 < i) (hlt : i < s.proxy.poolSize)
    (hinc : (s.proxy.slots i).incompleteMode = false)
    (hstep : s.request cfg i tag size header2 = .ok s') : s'.Served := by
  obtain ⟨⟨c₁, p⟩, hopen, hstep⟩ := Machine.bind_eq_ok.mp hstep
  obtain ⟨c₂, hnew, hstep⟩ := Machine.bind_eq_ok.mp hstep
  obtain ⟨rs, hrs, hstep⟩ := Machine.bind_eq_ok.mp hstep
  obtain rfl := Machine.pure_eq_ok.mp hstep
  have hf := h.paired.fresh
  have hgrows₁ := Conn.Grows.openRequest hf hopen
  have hgrows := hgrows₁.trans (Conn.Grows.newRequest hgrows₁.fresh hnew)
  have heffect := hgrows.effect (h.paired.owned hi hlt)
  -- the request is opened in fresh memory
  have hopened : p ≠ c₁.w.next ∧ p ∈ c₁.me.requests ∧ c₁.w.mem.Unscheduled p
      ∧ s.run.mem.SameLocks c₁.w.mem ∧ c₁.w.g = s.run.g
      ∧ c₁.me.appIndex = (c₁.pool c₁.index).appIndex := by
    obtain ⟨hyes, -⟩ | ⟨-, rfl, l, hl, rfl⟩ := openRequest_ok hopen
    · exact absurd (hinc.symm.trans hyes) (by simp)
    · refine ⟨Nat.ne_of_lt (Nat.lt_succ_self _), ?_, ⟨_, Mem.alloc_self _ _ _, rfl, rfl⟩,
        Conn.opened_locks hf l rfl, rfl, rfl⟩
      simp [Conn.opened, SocketState.requests]
  obtain ⟨hne, hlist, hun, hlocks, hg, happ⟩ := hopened
  obtain ⟨rs₁, l', w, -, hl', hsched, rfl⟩ := newRequest_ok hnew hne
  have hlocks₂ := hlocks.trans
    (Conn.requested_locks hgrows₁.fresh cfg hne rs₁ l' tag (pvfsOperation header2))
  have hun₂ := Conn.requested_unscheduled hun cfg hne rs₁ l' tag (pvfsOperation header2)
  have hg₂ : (c₁.requested cfg p rs₁ l' tag (pvfsOperation header2)).w.g = s.run.g := hg
  obtain ⟨rs', hrs', hslots, hnew⟩ :=
    h.slots.scheduleRequest hmethod hg₂ hlocks₂ hun₂ happ hsched
  obtain rfl : { rs' with configTag := false } = rs := by
    have hrs : (w.mem.modify p fun rs => { rs with configTag := false }) p = some rs :=
      Mem.deref_eq_ok.mp hrs
    rw [Mem.modify_self, hrs'] at hrs
    exact Option.some.inj hrs
  refine ⟨hslots.of_locks (Mem.SameLocks.modify p (by intro _; rfl)),
    h.paired.put hi hlt heffect, fun it hit => ?_⟩
  have hcases : it ∈ s.items ∨ it.socketData.rs = p := by
    simp only [items, List.mem_append] at hit ⊢
    rcases hit with hqueued | hold | hout
    · exact (hnew it (List.mem_append_right _ hqueued)).imp .inl id
    · exact .inl (.inr hold)
    · exact (hnew it (List.mem_append_left _ hout)).imp .inl id
  rcases hcases with hold | rfl
  · refine h.paired.holds_put hi hlt heffect (h.owned it hold) fun hin => ?_
    obtain ⟨l₁, l₂, hme, hpeer, -⟩ := hgrows.lists
    rw [hme, hpeer]
    simp only [List.mem_append] at hin ⊢
    tauto
  · exact h.paired.holds_me hi hlt heffect (List.mem_append_left _ hlist)

theorem accept (h : s.Served) (cfg : Config Sfqd SfqdQueueItem) (client : Int) {server : Int}
    (hserver : server ≠ 0) (ipa : IpApplication) :
    Served { s with proxy := s.proxy.acceptSocket cfg client server ipa } := by
  obtain ⟨hsize, -, hmem, -⟩ := Proxy.acceptSocket_rest (s := s.proxy) cfg client hserver ipa
  have hg : (s.proxy.acceptSocket cfg client server ipa).w.g = s.proxy.w.g := by
    simp [Proxy.acceptSocket, Proxy.addSocketToPool, hserver]
  have hrun : run { s with proxy := s.proxy.acceptSocket cfg client server ipa } = s.run := by
    unfold run
    rw [hg, hmem]
  refine ⟨hrun ▸ h.slots, h.paired.accept cfg client hserver ipa, fun it hit => ?_⟩
  unfold items at hit
  rw [hrun] at hit
  obtain ⟨i, hi, hlt, hp⟩ := h.owned it hit
  refine ⟨i, hi, Nat.lt_of_lt_of_eq (Nat.lt_add_right 2 hlt) hsize.symm, ?_⟩
  simp only [Proxy.acceptSocket_old cfg client hserver ipa hlt]
  exact hp

theorem message (h : s.Served) {cfg : Config Sfqd SfqdQueueItem} {i : Nat} (hi : 0 < i)
    (hlt : i < s.proxy.poolSize) (hstep : s.step cfg (.message i) = .ok s') : s'.Served := by
  obtain ⟨⟨me, w, p⟩, hadd, hstep⟩ := Machine.bind_eq_ok.mp hstep
  obtain rfl := Machine.pure_eq_ok.mp hstep
  obtain ⟨l, hl, rfl, rfl, rfl⟩ := addRequestToSocket_ok hadd
  have hf := h.paired.fresh
  have hgrows :=
    Conn.Grows.opened (c := s.proxy.conn i) hf hl (freshRequest cfg.junk s.proxy.w.next)
  have heffect := hgrows.effect (h.paired.owned hi hlt)
  refine ⟨h.slots.of_locks (Conn.opened_locks (c := s.proxy.conn i) hf l rfl),
    h.paired.put hi hlt heffect, fun it hit => ?_⟩
  refine h.paired.holds_put hi hlt heffect (h.owned it hit) fun hin => ?_
  obtain ⟨l₁, l₂, hme, hpeer, -⟩ := hgrows.lists
  rw [hme, hpeer]
  simp only [List.mem_append] at hin ⊢
  tauto

theorem complete (h : s.Served) {myShare : Int → Int → Int → Int → Int → Int}
    {cfg : Config Sfqd SfqdQueueItem} (hmethod : cfg.method = schSfqd myShare) {item : SfqdItem}
    {size : Int} {app : Nat} (hitem : item ∈ s.outstanding)
    (hstep : s.complete cfg item size app = .ok s') : s'.Served := by
  obtain ⟨⟨w, next⟩, hdeq, hstep⟩ := Machine.bind_eq_ok.mp hstep
  obtain rfl := Machine.pure_eq_ok.mp hstep
  have hres := callDequeue_rescheduled hdeq
  obtain ⟨⟨g, mem, it⟩, hdisp, hw⟩ := Machine.bind_eq_ok.mp hdeq
  obtain ⟨rfl, rfl⟩ := Prod.mk.inj (Machine.pure_eq_ok.mp hw)
  rw [hmethod] at hdisp
  obtain ⟨rfl, rfl⟩ := dispatchNext_globals hdisp
  have hslots : ∀ t, s.run.step myShare (.complete item size app) = .ok t → Slots t :=
    fun _ ht => h.slots.step (e := .complete item size app) hitem ht
  have hrun := hslots _ (by
    simp only [SfqdRun.step, SfqdRun.complete, run, hdisp, bind, Except.bind]
    rfl)
  refine ⟨hrun, h.paired.of_keeps (hres.fresh h.paired.fresh) hres.keeps,
    fun it hit => h.owned it ?_⟩
  have hsubset := sfqdDequeue_subset
    { event := .completeIo, completeSize := size, lastAppIndex := app, item := some item }
    s.proxy.w.g
  simp only [items, List.mem_append] at hit ⊢
  rcases hit with hqueued | hout | hnext
  · exact .inl (hsubset (List.mem_append_right _ hqueued))
  · exact .inr (List.mem_of_mem_erase hout)
  · exact .inl (hsubset (List.mem_append_left _ hnext))

theorem retire (h : s.Served) {i : Nat} {tag : Int} (hi : 0 < i) (hlt : i < s.proxy.poolSize)
    (hover : ∀ it ∈ s.items, hasTag s.proxy.w.mem tag it.socketData.rs = true →
      it.socketData.rs ∉ (s.proxy.conn i).me.requests ++ (s.proxy.conn i).peer.requests) :
    Served { s with proxy := s.proxy.put (cleanUpRequestState tag (s.proxy.conn i)) } := by
  have hshrinks : Conn.Shrinks (hasTag s.proxy.w.mem tag) (s.proxy.conn i)
      (cleanUpRequestState tag (s.proxy.conn i)) := .cleanUp fun _ => rfl
  have heffect := hshrinks.effect (h.paired.owned hi hlt)
  refine ⟨?_, h.paired.put hi hlt heffect, fun it hit => ?_⟩
  · -- what is freed is not locked, as it is not queued
    refine h.slots.of_locks (.of_freed fun p => ?_)
    have hp : (s.proxy.put (cleanUpRequestState tag (s.proxy.conn i))).w.mem p = _ :=
      cleanUpRequestState_mem tag (s.proxy.conn i) p
    rw [hp]
    split
    · rename_i hgone
      refine .inr ⟨rfl, ?_⟩
      by_contra hlocked
      rw [Bool.not_eq_false] at hlocked
      obtain ⟨it, hit, rfl⟩ := (h.slots.lockedAt_iff p).mp hlocked
      exact hover it (List.mem_append_left _ hit) hgone.2 (List.mem_append.mpr hgone.1)
    · exact .inl rfl
  · have hold : it ∈ s.items := hit
    refine h.paired.holds_put hi hlt heffect (h.owned it hold) fun hin => ?_
    have hkeep : hasTag s.proxy.w.mem tag it.socketData.rs = false := by
      by_contra htag
      rw [Bool.not_eq_false] at htag
      exact hover it hold htag hin
    rcases List.mem_append.mp hin with hme | hpeer
    · exact List.mem_append_left _ (hshrinks.meRequests _ hme hkeep)
    · exact List.mem_append_right _ (hshrinks.peerRequests _ hpeer hkeep)

/-- What a close does: the lists of the pair are freed, and the scheduler is
as it was. -/
theorem close_ok (h : s.Served) (cfg : Config Sfqd SfqdQueueItem) {i : Nat} (hi : i % 2 = 1)
    (hlt : i < s.proxy.poolSize) :
    ∃ s', s.step cfg (.close i) = .ok s' ∧ s'.proxy.Paired
      ∧ s'.run = { s.run with mem := s'.proxy.w.mem }
      ∧ (∀ p, s'.proxy.w.mem p
          = if p ∈ (s.proxy.slots i).requests ++ (s.proxy.slots (i + 1)).requests then none
            else s.proxy.w.mem p)
      ∧ ∀ p, s'.proxy.Holds p ↔ s.proxy.Holds p
          ∧ p ∉ (s.proxy.slots i).requests ++ (s.proxy.slots (i + 1)).requests := by
  obtain ⟨proxy, n, hclose, -, -, -, -, hmem, -⟩ := Proxy.closePair_ok h.paired hi hlt
  refine ⟨{ s with proxy }, ?_, h.paired.closePair hi hlt hclose, ?_, ?_, ?_⟩
  · simp [step, hclose, bind, Except.bind, pure, Except.pure]
  · unfold run
    rw [Proxy.closePair_globals hclose]
  · intro p
    simp only [hmem, List.mem_append]
  · intro p
    exact h.paired.holds_closePair hi hlt hclose

/-- An idle connection can close. -/
theorem close (h : s.Served) {cfg : Config Sfqd SfqdQueueItem} {i : Nat} (hi : i % 2 = 1)
    (hlt : i < s.proxy.poolSize) (hidle : ¬ s.Busy i) (hstep : s.step cfg (.close i) = .ok s') :
    s'.Served := by
  obtain ⟨t, ht, hpaired, hrun, hmem, hholds⟩ := h.close_ok cfg hi hlt
  obtain rfl := Except.ok.inj (ht.symm.trans hstep)
  have hitems : t.items = s.items := by
    have hout : t.outstanding = s.outstanding := congrArg SfqdRun.outstanding hrun
    have hqueued : t.run.queued = s.run.queued := by rw [hrun]; rfl
    unfold items
    rw [hqueued, hout]
  have hkeep : ∀ it ∈ s.items, it.socketData.rs
      ∉ (s.proxy.slots i).requests ++ (s.proxy.slots (i + 1)).requests :=
    fun it hit hin => hidle ⟨it, hit, hin⟩
  refine ⟨?_, hpaired, fun it hit => ?_⟩
  · rw [hrun]
    refine h.slots.of_locks (.of_freed fun p => ?_)
    rw [hmem]
    split
    · rename_i hin
      refine .inr ⟨rfl, ?_⟩
      by_contra hlocked
      rw [Bool.not_eq_false] at hlocked
      obtain ⟨it, hit, rfl⟩ := (h.slots.lockedAt_iff p).mp hlocked
      exact hkeep it (List.mem_append_left _ hit) hin
    · exact .inl rfl
  · rw [hitems] at hit
    exact (hholds _).mpr ⟨h.owned it hit, hkeep it hit⟩

/-- One request queued or outstanding is enough to leave the scheduler wrong. -/
theorem close_iff (h : s.Served) {cfg : Config Sfqd SfqdQueueItem} {i : Nat} (hi : i % 2 = 1)
    (hlt : i < s.proxy.poolSize) (hstep : s.step cfg (.close i) = .ok s') :
    s'.Consistent ↔ ¬ s.Busy i := by
  constructor
  · rintro ⟨hqueue, hdepth⟩ ⟨it, hit, hin⟩
    obtain ⟨t, ht, -, hrun, hmem, hholds⟩ := h.close_ok cfg hi hlt
    obtain rfl := Except.ok.inj (ht.symm.trans hstep)
    rcases List.mem_append.mp hit with hqueued | hout
    · -- queued: the item points at a freed state
      have hqueued : it ∈ t.run.queued := by rw [hrun]; exact hqueued
      have hlive := hqueue it hqueued
      rw [hmem, if_pos hin] at hlive
      cases hlive
    · -- outstanding: its slot is counted, though nobody will give it back
      have houtstanding : t.outstanding = s.outstanding := congrArg SfqdRun.outstanding hrun
      have hg : t.proxy.w.g = s.proxy.w.g := congrArg SfqdRun.g hrun
      have hall : t.outstanding.countP (fun it => t.isOpen it.socketData.rs)
          = t.outstanding.length := by
        have hlen : s.proxy.w.g.sched.currentDepth = s.outstanding.length := h.slots.depth
        rw [hg, hlen, ← houtstanding] at hdepth
        omega
      have hopen := List.countP_eq_length.mp hall it (houtstanding ▸ hout)
      exact ((hholds _).mp (isOpen_iff.mp hopen)).2 hin
  · intro hidle
    exact (h.close hi hlt hidle hstep).consistent

/-- On a server's socket the handler takes halves of two connections. -/
theorem closes_iff (h : s.Served) (cfg : Config Sfqd SfqdQueueItem) {i : Nat} (hi : 0 < i)
    (hlt : i < s.proxy.poolSize) :
    (∃ s', s.step cfg (.close i) = .ok s' ∧ s'.proxy.Paired ∧ s'.Consistent)
      ↔ s.ClosesIdle (.close i) := by
  constructor
  · rintro ⟨s', hstep, hpaired, hconsistent⟩
    have hodd : i % 2 = 1 := by
      by_contra heven
      obtain ⟨proxy, hclose, hs'⟩ := Machine.bind_eq_ok.mp hstep
      obtain rfl := Machine.pure_eq_ok.mp hs'
      exact h.paired.server_close hi (by omega) hclose hpaired
    refine ⟨?_, (h.close_iff hodd hlt hstep).mp hconsistent⟩
    rw [(h.paired.slot i hi hlt).source, if_pos hodd]
  · rintro ⟨hclient, hidle⟩
    have hodd := h.paired.client_odd hi hlt hclient
    obtain ⟨s', hstep, hpaired, -⟩ := h.close_ok cfg hodd hlt
    exact ⟨s', hstep, hpaired, (h.close_iff hodd hlt hstep).mpr hidle⟩

/-- Every event but the close of a busy connection or of a server's socket
keeps the scheduler right. -/
theorem step (h : s.Served) {myShare : Int → Int → Int → Int → Int → Int}
    {cfg : Config Sfqd SfqdQueueItem} (hmethod : cfg.method = schSfqd myShare) {e : Event}
    (hok : s.Allowed e) (hidle : s.ClosesIdle e) (hstep : s.step cfg e = .ok s') : s'.Served := by
  cases e with
  | accept client server ipa =>
      obtain rfl := Except.ok.inj hstep
      exact h.accept cfg client hok ipa
  | request i tag size header2 => exact h.request hmethod hok.1.1 hok.1.2 hok.2 hstep
  | message i => exact h.message hok.1 hok.2 hstep
  | complete item size app => exact h.complete hmethod hok hstep
  | retire i tag =>
      obtain rfl := Except.ok.inj hstep
      exact h.retire hok.1.1 hok.1.2 hok.2
  | close i =>
      exact h.close (h.paired.client_odd hok.1 hok.2 hidle.1) hok.2 hidle.2 hstep

end Served

theorem Served.init {depth : Int} (hdepth : 0 ≤ depth) (appStats : Nat → AppStatistics)
    (listenSocket : Int) : (init depth appStats listenSocket).Served where
  slots := Slots.init hdepth fun p rs hp => by cases hp
  paired := Proxy.Paired.setup (fun _ _ => rfl) listenSocket
  owned it hit := by cases hit

/-- The states a run over `depth` slots can be in as long as connections close
idle, and at the client's socket. -/
def Reachable (cfg : Config Sfqd SfqdQueueItem) (depth : Int) (s : SfqdPool) : Prop :=
  ∃ appStats listenSocket es,
    Machine.Run (fun s e => s.Allowed e ∧ s.ClosesIdle e) (step cfg)
      (init depth appStats listenSocket) es s

theorem Reachable.served {myShare : Int → Int → Int → Int → Int → Int}
    {cfg : Config Sfqd SfqdQueueItem} (hmethod : cfg.method = schSfqd myShare) {depth : Int}
    (hdepth : 0 ≤ depth) {s : SfqdPool} (h : Reachable cfg depth s) : s.Served := by
  obtain ⟨appStats, listenSocket, es, hrun⟩ := h
  exact hrun.invariant (.init hdepth appStats listenSocket)
    fun _ _ _ ht hok hstep => ht.step hmethod hok.1 hok.2 hstep

end SfqdPool

/-- **Disconnects under SFQD.** As long as connections close idle, and at the
client's socket, every queued item refers to a state that is there, so does
every item a dequeue returns, and the depth counts the outstanding requests of
the open connections. The next client's socket that closes leaves it so exactly
when none of its connection's requests is queued or outstanding; the next
server's socket leaves halves of two connections in the pool. -/
theorem sfqd_disconnect {myShare : Int → Int → Int → Int → Int → Int}
    {cfg : Config Sfqd SfqdQueueItem} (hmethod : cfg.method = schSfqd myShare) {depth : Int}
    (hdepth : 0 ≤ depth) {s : SfqdPool} (h : SfqdPool.Reachable cfg depth s) :
    s.Consistent
      ∧ (∀ r it, (sfqdDequeue r s.proxy.w.g).2 = some it →
          (s.proxy.w.mem it.socketData.rs).isSome = true)
      ∧ (∀ i, 0 < i → i < s.proxy.poolSize → (s.proxy.slots i).source = .client →
          ∃ s', s.step cfg (.close i) = .ok s' ∧ (s'.Consistent ↔ ¬ s.Busy i))
      ∧ ∀ i, 0 < i → i < s.proxy.poolSize →
          ((∃ s', s.step cfg (.close i) = .ok s' ∧ s'.proxy.Paired ∧ s'.Consistent)
            ↔ (s.proxy.slots i).source = .client ∧ ¬ s.Busy i) := by
  have hserved := h.served hmethod hdepth
  refine ⟨hserved.consistent, fun r it hret => ?_, fun i hi hlt hclient => ?_,
    fun i hi hlt => hserved.closes_iff cfg hi hlt⟩
  · have hsubset := sfqdDequeue_subset r s.proxy.w.g
    rw [hret] at hsubset
    exact hserved.live (List.mem_append_left _ (hsubset (List.mem_cons_self ..)))
  · have hodd := hserved.paired.client_odd hi hlt hclient
    obtain ⟨s', hstep, -⟩ := hserved.close_ok cfg hodd hlt
    exact ⟨s', hstep, hserved.close_iff hodd hlt hstep⟩

/-- The proxy over SFQD, with requests that are reads. -/
def sfqdConfig : Config Sfqd SfqdQueueItem := sampleConfig true (schSfqd fun _ _ _ _ _ => 0)

/-- One slot, taken by a request of the first client; the second disconnects. -/
theorem sfqd_disconnect_example :
    ∃ s : SfqdPool, SfqdPool.Reachable sfqdConfig 1 s
      ∧ s.proxy.poolSize = 3 ∧ s.outstanding.length = 1 ∧ s.Consistent := by
  let ipa : IpApplication := { weight := 1, appIndex := 0 }
  obtain ⟨s, hrun, hs⟩ := Machine.Run.exists_of_exec
    (fun s e => SfqdPool.Allowed s e ∧ s.ClosesIdle e) (SfqdPool.step sfqdConfig)
    (.init 1 (fun _ => { appWeight := 1 }) 3)
    [.accept 5 6 ipa, .accept 7 8 ipa, .request 1 7 12 (sampleMessage 7 3), .close 3]
    (fun s => (s.proxy.poolSize, s.outstanding.length)) (a := (3, 1)) (by decide +kernel)
  have hreach : SfqdPool.Reachable sfqdConfig 1 s := ⟨_, _, _, hrun⟩
  obtain ⟨hsize, hout⟩ := Prod.mk.inj hs
  exact ⟨s, hreach, hsize, hout, (sfqd_disconnect rfl (by decide) hreach).1⟩

/-- The second client waits for the slot when it disconnects. Its item stays
in the queue, and the dequeue of the next completion returns it. -/
theorem sfqd_disconnect_fails :
    ∃ (es : List SfqdPool.Event) (s : SfqdPool),
      Machine.Run SfqdPool.Allowed (SfqdPool.step sfqdConfig)
          (.init 1 (fun _ => { appWeight := 1 }) 3) es s
        ∧ s.run.queued.map (·.socketData.rs) = [2] ∧ (s.proxy.w.mem 2).isSome = false
        ∧ (s.outstanding.map fun it =>
            match s.complete sfqdConfig it 0 0 with
            | .ok _ => none
            | .error fault => some fault) = [some .freed] := by
  let ipa : IpApplication := { weight := 1, appIndex := 0 }
  obtain ⟨s, hrun, hs⟩ := Machine.Run.exists_of_exec SfqdPool.Allowed (SfqdPool.step sfqdConfig)
    (.init 1 (fun _ => { appWeight := 1 }) 3)
    [.accept 5 6 ipa, .accept 7 8 ipa, .request 1 7 12 (sampleMessage 7 3),
      .request 3 9 12 (sampleMessage 9 3), .close 3]
    (fun s => (s.run.queued.map (·.socketData.rs), (s.proxy.w.mem 2).isSome,
      s.outstanding.map fun it =>
        match s.complete sfqdConfig it 0 0 with
        | .ok _ => none
        | .error fault => some fault))
    (a := ([2], false, [some .freed])) (by decide +kernel)
  simp only [Prod.mk.injEq] at hs
  exact ⟨_, s, hrun, hs⟩

end PvfsProxy
