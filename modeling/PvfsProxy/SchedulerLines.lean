import PvfsProxy.SchedulerMain
import PvfsProxy.Lib.SlotLine

/-!
# The framework around a queue

Requests arrive at the framework and are admitted or locked, dispatched requests complete
and the next one is dispatched, request states that are not locked are freed, and other
threads of the scheduler change what it knows. `LineRun` is the state of such a run with
its history.

`Refines` says what a scheduler has to do for these runs to be steps of a line under a
policy: its item goes or waits as the enqueue hook says, and a dequeue hook returns an item
that waits. Then exactly the waiting requests are locked, whatever the interleaving
(`Refines.run`), and no completion meets an assertion (`Refines.complete_returns`).
-/

namespace PvfsProxy

open SlotLine

variable {σ ι ρ : Type}

/-- A scheduler with a queue, and what its other threads do. -/
structure LineScheduler (σ ι ρ : Type) where
  method : SchedulerMethod σ ι
  queued : σ → List (GenericQueueItem ι)
  thread : ρ → Globals σ → Globals σ

structure LineRun (σ ι : Type) where
  g : Globals σ
  mem : Mem ι
  outstanding : List (GenericQueueItem ι)
  enqueued : List (GenericQueueItem ι)
  returned : List (GenericQueueItem ι)

namespace LineRun

inductive Event (ι ρ : Type) where
  | arrive (a : Arrival ι)
  | complete (item : GenericQueueItem ι) (completeSize : Int) (lastAppIndex : Nat)
  | thread (t : ρ)
  | retire (p : Addr)

variable [DecidableEq ι] (S : LineScheduler σ ι ρ)

/-- `check_request` with the request of an arrival. -/
def arrive (s : LineRun σ ι) (a : Arrival ι) : Except Fault (LineRun σ ι) := do
  let out ← S.method.schEnqueue a.pool a.si a.pi s.g
  let (g, mem, item) ← admitRequest S.method a.pool a.si a.pi .newIo a.pi.currentDataSize s.g
    (s.mem.alloc a.rs a.newRs)
  return {
    g, mem
    outstanding := s.outstanding ++ item.toList
    -- what the enqueue added to the queue
    enqueued := s.enqueued ++ (S.queued out.globals.sched).diff (S.queued s.g.sched)
    returned := s.returned ++ item.toList }

def completeIo (item : GenericQueueItem ι) (completeSize : Int) (lastAppIndex : Nat) :
    DequeueReason ι :=
  { event := .completeIo, completeSize, lastAppIndex, item := some item }

def newIo (a : Arrival ι) : DequeueReason ι :=
  { event := .newIo, completeSize := a.pi.currentDataSize, lastAppIndex := a.si.appIndex,
    item := none }

/-- The completion of an outstanding request. -/
def complete (s : LineRun σ ι) (item : GenericQueueItem ι) (completeSize : Int)
    (lastAppIndex : Nat) : Except Fault (LineRun σ ι) := do
  let (g, mem, next) ←
    dispatchNext S.method (completeIo item completeSize lastAppIndex) s.g s.mem
  return {
    g, mem
    outstanding := s.outstanding.erase item ++ next.toList
    enqueued := s.enqueued
    returned := s.returned ++ next.toList }

def step (s : LineRun σ ι) : Event ι ρ → Except Fault (LineRun σ ι)
  | .arrive a => s.arrive S a
  | .complete item size app => s.complete S item size app
  | .thread t => .ok { s with g := S.thread t s.g }
  | .retire p => .ok { s with mem := s.mem.free p }

/-- A request state is allocated fresh and unlocked, a request completes while it is
outstanding, and only unlocked states are freed; `comes` and `runs` are what a scheduler
asks of the requests and of its threads. -/
def Allowed (comes : Arrival ι → Prop) (runs : ρ → Prop) (s : LineRun σ ι) : Event ι ρ → Prop
  | .arrive a => s.mem a.rs = none ∧ a.newRs.locked = false ∧ comes a
  | .complete item _ _ => item ∈ s.outstanding
  | .thread t => runs t
  | .retire p => lockedAt s.mem p = false

instance (comes : Arrival ι → Prop) [DecidablePred comes] (runs : ρ → Prop) [DecidablePred runs]
    (s : LineRun σ ι) (e : Event ι ρ) : Decidable (s.Allowed comes runs e) :=
  match e with
  | .arrive a =>
    inferInstanceAs (Decidable (s.mem a.rs = none ∧ a.newRs.locked = false ∧ comes a))
  | .complete item _ _ => inferInstanceAs (Decidable (item ∈ s.outstanding))
  | .thread t => inferInstanceAs (Decidable (runs t))
  | .retire p => inferInstanceAs (Decidable (lockedAt s.mem p = false))

def init (g : Globals σ) (mem : Mem ι) : LineRun σ ι := ⟨g, mem, [], [], []⟩

def line (s : LineRun σ ι) : Line (GenericQueueItem ι) :=
  ⟨S.queued s.g.sched, s.outstanding, s.enqueued, s.returned⟩

end LineRun

/-! ## What a scheduler has to do -/

/-- The item of a request that comes goes at once, if the enqueue hook says so, or waits. -/
structure LineScheduler.Admits (S : LineScheduler σ ι ρ) (P : Policy (GenericQueueItem ι))
    (Inv : Globals σ → Line (GenericQueueItem ι) → Prop) (l : Line (GenericQueueItem ι))
    (a : Arrival ι) (out : EnqueueResult σ ι) (it : GenericQueueItem ι) : Prop where
  socketData : it.socketData = a.si
  unlocked : out.unlocked = []
  queued : (S.queued out.globals.sched).Perm (it :: l.waiting)
  waits : out.ret = false → P.wait l it ∧ Inv out.globals (l.waits it (S.queued out.globals.sched))
  goes : out.ret = true → P.go l it ∧ ∃ deq,
    S.method.schDequeue (LineRun.newIo a) out.globals = .ok deq ∧ deq.unlocked = []
      ∧ deq.ret = some it ∧ (S.queued deq.globals.sched).Perm l.waiting
      ∧ Inv deq.globals (l.goes it (S.queued deq.globals.sched))

/-- A completion hands the slot to an item that waits, or leaves it free. -/
structure LineScheduler.Finishes [DecidableEq ι] (S : LineScheduler σ ι ρ)
    (P : Policy (GenericQueueItem ι))
    (Inv : Globals σ → Line (GenericQueueItem ι) → Prop) (l : Line (GenericQueueItem ι))
    (done : GenericQueueItem ι) (out : HookResult σ (Option (GenericQueueItem ι))) : Prop where
  unlocked : out.unlocked = []
  queued : (out.ret.toList ++ S.queued out.globals.sched).Perm l.waiting
  next : ∀ it, out.ret = some it → P.next l it
  idle : out.ret = none → P.idle l
  inv : Inv out.globals (l.finishes done out.ret (S.queued out.globals.sched))

/-- The scheduler's hooks and threads, with an invariant of its own; `Good` is what the
steps of the policy keep. -/
structure LineScheduler.Refines [DecidableEq ι] (S : LineScheduler σ ι ρ)
    (P : Policy (GenericQueueItem ι)) (Good : Line (GenericQueueItem ι) → Prop)
    (comes : Arrival ι → Prop) (runs : ρ → Prop)
    (Inv : Globals σ → Line (GenericQueueItem ι) → Prop) : Prop where
  self : S.method.schSelfDispatch = false
  keeps : ∀ {l l'}, Kept l → Good l → Step P l l' → Good l'
  admits : ∀ {g l a out}, Inv g l → Kept l → Good l → l.waiting = S.queued g.sched → comes a →
    S.method.schEnqueue a.pool a.si a.pi g = .ok out → ∃ it, S.Admits P Inv l a out it
  finishes : ∀ {g l} done size app, Inv g l → l.waiting = S.queued g.sched →
    done ∈ l.running → ∃ out,
      S.method.schDequeue (LineRun.completeIo done size app) g = .ok out
        ∧ S.Finishes P Inv l done out
  thread : ∀ {g l t}, Inv g l → runs t →
    S.queued (S.thread t g).sched = S.queued g.sched ∧ Inv (S.thread t g) l

/-- What holds between the steps of a run. -/
structure LineRun.Sound (S : LineScheduler σ ι ρ) (Good : Line (GenericQueueItem ι) → Prop)
    (Inv : Globals σ → Line (GenericQueueItem ι) → Prop) (s : LineRun σ ι) : Prop where
  inv : Inv s.g (s.line S)
  kept : Kept (s.line S)
  good : Good (s.line S)
  locked : ∀ p, lockedAt s.mem p = true ↔ ∃ it ∈ S.queued s.g.sched, it.socketData.rs = p
  owners : ((S.queued s.g.sched).map (·.socketData.rs)).Nodup

theorem lockedAt_lock (mem : Mem ι) (p q : Addr) :
    lockedAt (mem.modify p fun rs => { rs with locked := true }) q
      = if q = p then (mem p).isSome else lockedAt mem q := by
  unfold lockedAt
  split
  · rename_i h
    rw [h, Mem.modify_self]
    cases mem p <;> rfl
  · rename_i h
    rw [Mem.modify_of_ne _ h]

namespace LineRun.Sound

variable {S : LineScheduler σ ι ρ} {Good : Line (GenericQueueItem ι) → Prop}
  {Inv : Globals σ → Line (GenericQueueItem ι) → Prop} {s t : LineRun σ ι}

/-- A fresh address belongs to no request that waits. -/
theorem not_owned (h : s.Sound S Good Inv) {p : Addr} (hp : s.mem p = none) :
    ∀ it ∈ S.queued s.g.sched, it.socketData.rs ≠ p := by
  intro it hit heq
  have hlocked := (h.locked p).mpr ⟨it, hit, heq⟩
  unfold lockedAt at hlocked
  rw [hp] at hlocked
  cases hlocked

/-- The same requests wait and are locked. -/
theorem same_locks (h : s.Sound S Good Inv) (hmem : s.mem.SameLocks t.mem)
    (hq : S.queued t.g.sched = S.queued s.g.sched) (hline : t.line S = s.line S)
    (hinv : Inv t.g (s.line S)) : t.Sound S Good Inv where
  inv := hline ▸ hinv
  kept := hline ▸ h.kept
  good := hline ▸ h.good
  locked p := by
    rw [hmem p, hq]
    exact h.locked p
  owners := by
    rw [hq]
    exact h.owners

theorem init {g : Globals σ} {mem : Mem ι} (hq : S.queued g.sched = [])
    (hinv : Inv g Line.empty) (hgood : Good Line.empty) (hmem : ∀ p, lockedAt mem p = false) :
    (LineRun.init g mem).Sound S Good Inv where
  inv := by
    unfold LineRun.line LineRun.init
    rw [hq]
    exact hinv
  kept := by
    unfold LineRun.line LineRun.init
    rw [hq]
    exact .empty
  good := by
    unfold LineRun.line LineRun.init
    rw [hq]
    exact hgood
  locked p := by
    show lockedAt mem p = true ↔ ∃ it ∈ S.queued g.sched, _
    rw [hq, hmem]
    simp
  owners := by
    show ((S.queued g.sched).map _).Nodup
    rw [hq]
    exact .nil

end LineRun.Sound

namespace LineScheduler.Refines

variable [DecidableEq ι] {S : LineScheduler σ ι ρ} {P : Policy (GenericQueueItem ι)}
  {Good : Line (GenericQueueItem ι) → Prop} {comes : Arrival ι → Prop} {runs : ρ → Prop}
  {Inv : Globals σ → Line (GenericQueueItem ι) → Prop} {s t : LineRun σ ι}

theorem arrive (hS : S.Refines P Good comes runs Inv) (hs : s.Sound S Good Inv) {a : Arrival ι}
    (hfresh : s.mem a.rs = none) (hcomes : comes a) (hstep : s.arrive S a = .ok t) :
    t.Sound S Good Inv ∧ Step P (s.line S) (t.line S) := by
  obtain ⟨out, hout, hstep⟩ := Machine.bind_eq_ok.mp hstep
  obtain ⟨⟨g, mem, item⟩, hadmit, hstep⟩ := Machine.bind_eq_ok.mp hstep
  obtain rfl := Machine.pure_eq_ok.mp hstep
  obtain ⟨out', hout', hcases⟩ := admitRequest_ok hS.self hadmit
  obtain rfl := Except.ok.inj (hout'.symm.trans hout)
  obtain ⟨it, hit⟩ := hS.admits hs.inv hs.kept hs.good rfl hcomes hout
  have hnew : (S.queued out'.globals.sched).diff (S.queued s.g.sched) = [it] :=
    diff_of_perm_cons hit.queued
  have hrs : it.socketData.rs = a.rs := by
    rw [hit.socketData]
    rfl
  have hsi : a.si.rs = a.rs := rfl
  have howner := hs.not_owned hfresh
  rcases hcases with ⟨hret, deq, hdeq, rfl, rfl, hmem⟩ | ⟨hret, rfl, rfl, hmem⟩
  · obtain ⟨hgo, deq', hdeq', hunlocked, hitem, hqueued, hinv⟩ := hit.goes hret
    obtain rfl := Except.ok.inj (hdeq'.symm.trans hdeq)
    have hstep : Step P (s.line S) ((s.line S).goes it (S.queued deq'.globals.sched)) :=
      .go hgo hqueued
    rw [hit.unlocked, hunlocked, unlockAll_nil, unlockAll_nil] at hmem
    have hline : (LineRun.mk deq'.globals mem (s.outstanding ++ deq'.ret.toList)
        (s.enqueued ++ (S.queued out'.globals.sched).diff (S.queued s.g.sched))
        (s.returned ++ deq'.ret.toList)).line S
          = (s.line S).goes it (S.queued deq'.globals.sched) := by
      rw [hitem, hnew]
      rfl
    refine ⟨⟨?_, ?_, ?_, ?_, ?_⟩, ?_⟩
    · rw [hline]
      exact hinv
    · rw [hline]
      exact hs.kept.step hstep
    · rw [hline]
      exact hS.keeps hs.kept hs.good hstep
    · intro p
      show lockedAt mem p = true ↔ ∃ it ∈ S.queued deq'.globals.sched, it.socketData.rs = p
      rw [hmem, hsi, lockedAt_unlock, lockedAt_alloc]
      by_cases hp : p = a.rs
      · subst hp
        rw [if_pos rfl]
        simp only [Bool.false_eq_true, false_iff, not_exists, not_and]
        exact fun c hc => howner c (hqueued.subset hc)
      · rw [if_neg hp, if_neg hp, hs.locked p]
        simp only [hqueued.mem_iff]
        rfl
    · exact (hqueued.map _).nodup_iff.mpr hs.owners
    · rw [hline]
      exact hstep
  · obtain ⟨hwait, hinv⟩ := hit.waits hret
    have hstep : Step P (s.line S) ((s.line S).waits it (S.queued out'.globals.sched)) :=
      .wait hwait hit.queued
    rw [hit.unlocked, unlockAll_nil] at hmem
    have hline : (LineRun.mk out'.globals mem (s.outstanding ++ [])
        (s.enqueued ++ (S.queued out'.globals.sched).diff (S.queued s.g.sched))
        (s.returned ++ [])).line S = (s.line S).waits it (S.queued out'.globals.sched) := by
      rw [hnew, List.append_nil, List.append_nil]
      rfl
    refine ⟨⟨?_, ?_, ?_, ?_, ?_⟩, ?_⟩
    · exact hline ▸ hinv
    · exact hline ▸ hs.kept.step hstep
    · exact hline ▸ hS.keeps hs.kept hs.good hstep
    · intro p
      show lockedAt mem p = true ↔ ∃ it ∈ S.queued out'.globals.sched, it.socketData.rs = p
      rw [hmem, hsi, lockedAt_lock, lockedAt_alloc]
      simp only [hit.queued.mem_iff, List.mem_cons]
      by_cases hp : p = a.rs
      · subst hp
        rw [if_pos rfl, Mem.alloc_self]
        simp only [Option.isSome_some, true_iff]
        exact ⟨it, .inl rfl, hrs⟩
      · rw [if_neg hp, if_neg hp, hs.locked p]
        constructor
        · rintro ⟨c, hc, rfl⟩
          exact ⟨c, .inr hc, rfl⟩
        · rintro ⟨c, rfl | hc, rfl⟩
          · exact absurd hrs hp
          · exact ⟨c, hc, rfl⟩
    · refine ((hit.queued.map _).nodup_iff).mpr (List.nodup_cons.mpr ⟨?_, hs.owners⟩)
      intro hmem'
      obtain ⟨c, hc, heq⟩ := List.mem_map.mp hmem'
      exact howner c hc (heq.trans hrs)
    · exact hline ▸ hstep

theorem complete_returns (hS : S.Refines P Good comes runs Inv) (hs : s.Sound S Good Inv)
    {item : GenericQueueItem ι} (hitem : item ∈ s.outstanding) (size : Int) (app : Nat) :
    ∃ t, s.complete S item size app = .ok t := by
  obtain ⟨out, hout, hfin⟩ := hS.finishes item size app hs.inv rfl hitem
  obtain ⟨res, hres⟩ := dispatchNext_exists s.mem hout fun it hit => by
    rw [hfin.unlocked, unlockAll_nil]
    refine (hs.locked _).mpr ⟨it, ?_, rfl⟩
    refine hfin.queued.subset (List.mem_append_left _ ?_)
    rw [hit]
    exact List.mem_singleton_self it
  exact Machine.bind_returns hres ⟨_, rfl⟩

theorem complete (hS : S.Refines P Good comes runs Inv) (hs : s.Sound S Good Inv)
    {item : GenericQueueItem ι} (hitem : item ∈ s.outstanding) {size : Int} {app : Nat}
    (hstep : s.complete S item size app = .ok t) :
    t.Sound S Good Inv ∧ Step P (s.line S) (t.line S) := by
  obtain ⟨⟨g, mem, next⟩, hdisp, hstep⟩ := Machine.bind_eq_ok.mp hstep
  obtain rfl := Machine.pure_eq_ok.mp hstep
  obtain ⟨out, hout, rfl, rfl, hnone, hsome⟩ := dispatchNext_ok hdisp
  obtain ⟨out', hout', hfin⟩ := hS.finishes item size app hs.inv rfl hitem
  obtain rfl := Except.ok.inj (hout'.symm.trans hout)
  have hstep : Step P (s.line S)
      ((s.line S).finishes item out'.ret (S.queued out'.globals.sched)) :=
    .finish hitem hfin.next hfin.idle hfin.queued
  rw [hfin.unlocked, unlockAll_nil] at hnone hsome
  have howners : ((out'.ret.toList ++ S.queued out'.globals.sched).map (·.socketData.rs)).Nodup :=
    (hfin.queued.map _).nodup_iff.mpr hs.owners
  have hmem : ∀ p, lockedAt s.mem p = true
      ↔ ∃ it ∈ out'.ret.toList ++ S.queued out'.globals.sched, it.socketData.rs = p := by
    intro p
    rw [hs.locked p]
    simp only [hfin.queued.mem_iff]
    rfl
  rw [List.map_append] at howners
  refine ⟨⟨hfin.inv, hs.kept.step hstep, hS.keeps hs.kept hs.good hstep, ?_,
    (List.nodup_append.mp howners).2.1⟩, hstep⟩
  intro p
  show lockedAt mem p = true ↔ ∃ it ∈ S.queued out'.globals.sched, it.socketData.rs = p
  cases hret : out'.ret with
  | none =>
      rw [hnone hret, hmem p, hret]
      rfl
  | some it =>
      rw [(hsome it hret).2, lockedAt_unlock]
      rw [hret] at howners
      by_cases hp : p = it.socketData.rs
      · subst hp
        rw [if_pos rfl]
        simp only [Bool.false_eq_true, false_iff, not_exists, not_and]
        intro c hc heq
        exact (List.nodup_append.mp howners).2.2 _ (List.mem_singleton_self _) _
          (List.mem_map_of_mem hc) heq.symm
      · rw [if_neg hp, hmem p, hret]
        constructor
        · rintro ⟨c, hc, rfl⟩
          rcases List.mem_append.mp hc with hfirst | hrest
          · rw [List.mem_singleton.mp hfirst] at hp
            exact absurd rfl hp
          · exact ⟨c, hrest, rfl⟩
        · rintro ⟨c, hc, rfl⟩
          exact ⟨c, List.mem_append_right _ hc, rfl⟩

/-- Every allowed step is a step of the line, or the line does not see it. -/
theorem step (hS : S.Refines P Good comes runs Inv) (hs : s.Sound S Good Inv)
    {e : LineRun.Event ι ρ} (hok : s.Allowed comes runs e) (hstep : s.step S e = .ok t) :
    t.Sound S Good Inv ∧ (Step P (s.line S) (t.line S) ∨ t.line S = s.line S) := by
  cases e with
  | arrive a =>
      obtain ⟨ht, hline⟩ := hS.arrive hs hok.1 hok.2.2 hstep
      exact ⟨ht, .inl hline⟩
  | complete item size app =>
      obtain ⟨ht, hline⟩ := hS.complete hs hok hstep
      exact ⟨ht, .inl hline⟩
  | thread th =>
      obtain rfl := Except.ok.inj hstep
      obtain ⟨hq, hinv⟩ := hS.thread hs.inv hok
      have hline : LineRun.line S { s with g := S.thread th s.g } = s.line S := by
        unfold LineRun.line
        rw [hq]
      exact ⟨hs.same_locks (.refl _) hq hline hinv, .inr hline⟩
  | retire p =>
      obtain rfl := Except.ok.inj hstep
      refine ⟨hs.same_locks (.of_freed fun q => ?_) rfl rfl hs.inv, .inr rfl⟩
      by_cases hq : q = p
      · subst hq
        exact .inr ⟨by simp [Mem.free], hok⟩
      · exact .inl (by simp [Mem.free, hq])

theorem run (hS : S.Refines P Good comes runs Inv) (hs : s.Sound S Good Inv)
    {es : List (LineRun.Event ι ρ)}
    (hrun : Machine.Run (LineRun.Allowed comes runs) (LineRun.step S) s es t) :
    t.Sound S Good Inv :=
  hrun.invariant hs fun _ _ _ hu hok hstep => (hS.step hu hok hstep).1

end LineScheduler.Refines

/-- The states the framework can reach around a scheduler that starts in `sched`. -/
def LineScheduler.Reachable [DecidableEq ι] (S : LineScheduler σ ι ρ) (comes : Arrival ι → Prop)
    (runs : ρ → Prop) (sched : σ) (s : LineRun σ ι) : Prop :=
  ∃ appStats mem es, (∀ p, lockedAt mem p = false)
    ∧ Machine.Run (LineRun.Allowed comes runs) (LineRun.step S)
      (.init { sched, appStats, totalThroughput := 0 } mem) es s

end PvfsProxy
