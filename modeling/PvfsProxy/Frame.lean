import Mathlib.Algebra.Order.Ring.Int
import Mathlib.Algebra.Order.BigOperators.Group.List
import Mathlib.Data.Finset.Prod
import Mathlib.Data.Int.Interval
import Mathlib.Tactic.Abel
import Mathlib.Data.List.TakeWhile
import Mathlib.Data.List.Pairwise
import Mathlib.Data.List.Induction
import Mathlib.Data.List.Perm.Basic
import PvfsProxy.MainLoop

/-!
# What the scheduler leaves alone

The hooks of a scheduler are handed items and return items; of the request
states they touch the lock, the item and the two notes about completion, and
nothing of the message itself. `Rescheduled` says so of one state, and
`Mem.RescheduledBut` of the memory outside a set of addresses the caller
writes to on its own account.

Every place where the framework calls a hook has one lemma here, and the
handlers of `Message` and `MainLoop` get their frame from these.
-/

namespace PvfsProxy

variable {σ ι : Type}

/-! ## One request state -/

/-- Only what the framework keeps for the scheduler may have changed. -/
def RequestState.Scheduled (rs rs' : RequestState ι) : Prop :=
  rs' = { rs with
    locked := rs'.locked
    currentItem := rs'.currentItem
    checkResponseCompletion := rs'.checkResponseCompletion
    lastCompletion := rs'.lastCompletion
    pvfsIoType := rs'.pvfsIoType
    readSize := rs'.readSize
    readOffset := rs'.readOffset }

/-- A state no request is being admitted for: its lock is at most opened. -/
def RequestState.Rescheduled (rs rs' : RequestState ι) : Prop :=
  (rs'.locked = true → rs.locked = true) ∧ rs' = { rs with
    locked := rs'.locked
    currentItem := rs'.currentItem
    checkResponseCompletion := rs'.checkResponseCompletion
    lastCompletion := rs'.lastCompletion }

namespace RequestState

theorem Scheduled.refl (rs : RequestState ι) : rs.Scheduled rs := rfl

theorem Scheduled.trans {rs rs' rs'' : RequestState ι} (h : rs.Scheduled rs')
    (h' : rs'.Scheduled rs'') : rs.Scheduled rs'' := by
  unfold Scheduled at *
  rw [h', h]

theorem Rescheduled.refl (rs : RequestState ι) : rs.Rescheduled rs := ⟨id, rfl⟩

theorem Rescheduled.trans {rs rs' rs'' : RequestState ι} (h : rs.Rescheduled rs')
    (h' : rs'.Rescheduled rs'') : rs.Rescheduled rs'' := by
  refine ⟨fun hl => h.1 (h'.1 hl), ?_⟩
  rw [h'.2, h.2]

theorem Rescheduled.scheduled {rs rs' : RequestState ι} (h : rs.Rescheduled rs') :
    rs.Scheduled rs' := by
  unfold Scheduled
  rw [h.2]

end RequestState

/-! ## The memory -/

/-- Outside `P` the states are the same, at most rescheduled. -/
def Mem.RescheduledBut (P : Set Addr) (mem mem' : Mem ι) : Prop :=
  ∀ p ∉ P, Option.Rel RequestState.Rescheduled (mem p) (mem' p)

namespace Mem

variable {P Q : Set Addr} {mem mem' mem'' : Mem ι}

theorem RescheduledBut.refl (mem : Mem ι) : mem.RescheduledBut P mem := by
  intro p _
  cases mem p with
  | none => exact .none
  | some rs => exact .some (.refl rs)

theorem RescheduledBut.trans (h : mem.RescheduledBut P mem') (h' : mem'.RescheduledBut P mem'') :
    mem.RescheduledBut P mem'' := by
  intro p hp
  have h₁ := h p hp
  have h₂ := h' p hp
  revert h₁ h₂
  generalize mem p = a, mem' p = b, mem'' p = c
  rintro (hab | _) (hbc | _)
  · exact .some (hab.trans hbc)
  · exact .none

theorem RescheduledBut.mono (h : mem.RescheduledBut P mem') (hPQ : P ⊆ Q) :
    mem.RescheduledBut Q mem' :=
  fun p hp => h p fun hpP => hp (hPQ hpP)

theorem RescheduledBut.live (h : mem.RescheduledBut P mem') {p : Addr} (hp : p ∉ P)
    {rs : RequestState ι} (hrs : mem p = some rs) :
    ∃ rs', mem' p = some rs' ∧ rs.Rescheduled rs' := by
  have hrel := h p hp
  rw [hrs] at hrel
  generalize hrs' : mem' p = o at hrel
  cases hrel with
  | some hr => exact ⟨_, rfl, hr⟩

theorem RescheduledBut.back (h : mem.RescheduledBut P mem') {p : Addr} (hp : p ∉ P)
    {rs' : RequestState ι} (hrs' : mem' p = some rs') :
    ∃ rs, mem p = some rs ∧ rs.Rescheduled rs' := by
  have hrel := h p hp
  rw [hrs'] at hrel
  generalize hrs : mem p = o at hrel
  cases hrel with
  | some hr => exact ⟨_, rfl, hr⟩

theorem RescheduledBut.modify {p : Addr} {f : RequestState ι → RequestState ι}
    (hf : p ∉ P → ∀ rs, mem p = some rs → rs.Rescheduled (f rs)) :
    mem.RescheduledBut P (mem.modify p f) := by
  intro q hq
  by_cases hqp : q = p
  · subst hqp
    rw [modify_self]
    cases hrs : mem q with
    | none => exact .none
    | some rs => exact .some (hf hq rs hrs)
  · rw [modify_of_ne mem hqp]
    exact RescheduledBut.refl mem q hq

theorem RescheduledBut.alloc {p : Addr} (hp : p ∈ P) (rs : RequestState ι) :
    mem.RescheduledBut P (mem.alloc p rs) := by
  intro q hq
  have hqp : q ≠ p := by rintro rfl; exact hq hp
  rw [alloc_of_ne mem hqp]
  exact RescheduledBut.refl mem q hq

def Keeps (mem mem' : Mem ι) : Prop := ∀ p, (mem p).isSome = true → (mem' p).isSome = true

theorem Keeps.refl (mem : Mem ι) : mem.Keeps mem := fun _ => id

theorem Keeps.trans (h : mem.Keeps mem') (h' : mem'.Keeps mem'') : mem.Keeps mem'' :=
  fun p hp => h' p (h p hp)

theorem Keeps.modify (mem : Mem ι) (p : Addr) (f : RequestState ι → RequestState ι) :
    mem.Keeps (mem.modify p f) := by
  intro q hq
  by_cases hqp : q = p
  · subst hqp
    simpa [modify_self] using hq
  · rwa [modify_of_ne mem hqp]

theorem Keeps.alloc (mem : Mem ι) (p : Addr) (rs : RequestState ι) :
    mem.Keeps (mem.alloc p rs) := by
  intro q hq
  by_cases hqp : q = p
  · subst hqp
    simp [alloc_self]
  · rwa [alloc_of_ne mem hqp]

theorem isSome_of_rel {r : RequestState ι → RequestState ι → Prop} {p : Addr}
    (h : Option.Rel r (mem p) (mem' p)) (hp : (mem p).isSome = true) :
    (mem' p).isSome = true := by
  revert h hp
  generalize mem p = a, mem' p = b
  rintro (_ | _) hp
  · rfl
  · exact hp

theorem none_of_rel {r : RequestState ι → RequestState ι → Prop} {p : Addr}
    (h : Option.Rel r (mem p) (mem' p)) (hp : mem p = none) : mem' p = none := by
  revert h hp
  generalize mem p = a, mem' p = b
  rintro (_ | _) hp
  · cases hp
  · rfl

theorem RescheduledBut.keeps (h : mem.RescheduledBut P mem')
    (hP : ∀ p ∈ P, (mem p).isSome = true → (mem' p).isSome = true) : mem.Keeps mem' := by
  intro p hp
  by_cases hpP : p ∈ P
  · exact hP p hpP hp
  · exact isSome_of_rel (h p hpP) hp

end Mem

/-! ## The hooks -/

theorem unlockAll_rescheduled (ps : List Addr) (mem : Mem ι) :
    mem.RescheduledBut ∅ (unlockAll ps mem) := by
  induction ps generalizing mem with
  | nil => exact .refl mem
  | cons p ps ih =>
      have hp : mem.RescheduledBut ∅ (mem.modify p fun rs => { rs with locked := false }) :=
        .modify fun _ rs _ => ⟨by simp, rfl⟩
      exact hp.trans (ih _)

theorem dispatchNext_rescheduled {m : SchedulerMethod σ ι} {r : DequeueReason ι}
    {g g' : Globals σ} {mem mem' : Mem ι} {next : Option (GenericQueueItem ι)}
    (h : dispatchNext m r g mem = .ok (g', mem', next)) : mem.RescheduledBut ∅ mem' := by
  obtain ⟨out, -, -, -, hnone, hsome⟩ := dispatchNext_ok h
  cases next with
  | none =>
      rw [hnone rfl]
      exact unlockAll_rescheduled _ _
  | some it =>
      rw [(hsome it rfl).2]
      exact (unlockAll_rescheduled _ _).trans (.modify fun _ rs _ => ⟨by simp, rfl⟩)

/-- A write of the scheduler's own fields at `p`, after some rescheduling. -/
theorem Mem.RescheduledBut.scheduled_at {mem mem' : Mem ι} (h : mem.RescheduledBut ∅ mem')
    (p : Addr) {f : RequestState ι → RequestState ι}
    (hf : ∀ rs : RequestState ι, rs.Scheduled (f rs)) :
    mem.RescheduledBut {p} (mem'.modify p f)
      ∧ Option.Rel RequestState.Scheduled (mem p) (mem'.modify p f p) := by
  refine ⟨(h.mono (Set.empty_subset _)).trans (.modify fun hp => absurd rfl hp), ?_⟩
  have hrel := h p (by simp)
  rw [Mem.modify_self]
  revert hrel
  generalize mem p = a, mem' p = b
  rintro (hab | _)
  · exact .some (hab.scheduled.trans (hf _))
  · exact .none

/-- What an admission does to the request it is about, and to the others. -/
theorem admitRequest_scheduled {m : SchedulerMethod σ ι} {pool : Nat → Endpoint}
    {si : SocketInfo} {pi : PvfsInfo} {event : DequeueEvent} {size : Int} {g g' : Globals σ}
    {mem mem' : Mem ι} {item : Option (GenericQueueItem ι)}
    (h : admitRequest m pool si pi event size g mem = .ok (g', mem', item)) :
    mem.RescheduledBut {si.rs} mem'
      ∧ Option.Rel RequestState.Scheduled (mem si.rs) (mem' si.rs) := by
  obtain ⟨out, -, h⟩ := Machine.bind_eq_ok.mp h
  have hout := unlockAll_rescheduled out.unlocked mem
  split at h
  · obtain ⟨deq, -, h⟩ := Machine.bind_eq_ok.mp h
    obtain ⟨-, hmem⟩ := Prod.mk.inj (Machine.pure_eq_ok.mp h)
    obtain ⟨rfl, -⟩ := Prod.mk.inj hmem
    exact (hout.trans (unlockAll_rescheduled deq.unlocked _)).scheduled_at si.rs fun _ => rfl
  · split at h
    · obtain ⟨-, hmem⟩ := Prod.mk.inj (Machine.pure_eq_ok.mp h)
      obtain ⟨rfl, -⟩ := Prod.mk.inj hmem
      exact hout.scheduled_at si.rs fun _ => rfl
    · obtain ⟨-, hmem⟩ := Prod.mk.inj (Machine.pure_eq_ok.mp h)
      obtain ⟨rfl, -⟩ := Prod.mk.inj hmem
      exact hout.scheduled_at si.rs fun _ => rfl

/-! ## The hooks in the world -/

/-- The world after calls of hooks only. -/
structure World.Rescheduled (w w' : World σ ι) : Prop where
  mem : w.mem.RescheduledBut ∅ w'.mem
  next : w'.next = w.next

/-- What is unused is not allocated. -/
def World.Fresh (w : World σ ι) : Prop := ∀ p, w.next ≤ p → w.mem p = none

theorem World.Rescheduled.refl (w : World σ ι) : w.Rescheduled w := ⟨.refl _, rfl⟩

theorem World.Rescheduled.trans {w w' w'' : World σ ι} (h : w.Rescheduled w')
    (h' : w'.Rescheduled w'') : w.Rescheduled w'' :=
  ⟨h.mem.trans h'.mem, h'.next.trans h.next⟩

theorem World.Rescheduled.keeps {w w' : World σ ι} (h : w.Rescheduled w') :
    w.mem.Keeps w'.mem := h.mem.keeps (by simp)

theorem World.Rescheduled.fresh {w w' : World σ ι} (h : w.Rescheduled w') (hf : w.Fresh) :
    w'.Fresh := by
  intro p hp
  rw [h.next] at hp
  exact Mem.none_of_rel (h.mem p (by simp)) (hf p hp)

theorem World.Fresh.modify {w : World σ ι} (hf : w.Fresh) (p : Addr)
    (f : RequestState ι → RequestState ι) : World.Fresh { w with mem := w.mem.modify p f } := by
  intro q hq
  by_cases hqp : q = p
  · subst hqp
    simp [Mem.modify_self, hf q hq]
  · simpa only [Mem.modify_of_ne _ hqp] using hf q hq

theorem World.Fresh.alloc {w : World σ ι} (hf : w.Fresh) (rs : RequestState ι) :
    World.Fresh { w with mem := w.mem.alloc w.next rs, next := w.next + 1 } := by
  intro q hq
  have hne : q ≠ w.next := Nat.ne_of_gt hq
  simpa only [Mem.alloc_of_ne _ hne] using hf q (Nat.le_of_succ_le hq)

theorem World.Fresh.ne_next {w : World σ ι} (hf : w.Fresh) {p : Addr} {rs : RequestState ι}
    (hp : w.mem p = some rs) : p ≠ w.next := by
  rintro rfl
  rw [hf w.next (Nat.le_refl _)] at hp
  cases hp

theorem countCompleted_rescheduled (app : Nat) (w : World σ ι) :
    w.Rescheduled (countCompleted app w) := ⟨.refl _, rfl⟩

theorem countPassed_mem (cfg : Config σ ι) (app : Nat) (w : World σ ι) :
    (countPassed cfg app w).mem = w.mem := by
  unfold countPassed checkAllAppStat
  split
  · rfl
  · split
    · rfl
    · rfl

theorem countPassed_sched (cfg : Config σ ι) (app : Nat) (w : World σ ι) :
    (countPassed cfg app w).g.sched = w.g.sched := by
  unfold countPassed checkAllAppStat
  split
  · rfl
  · split
    · rfl
    · rfl

theorem countPassed_rescheduled (cfg : Config σ ι) (app : Nat) (w : World σ ι) :
    w.Rescheduled (countPassed cfg app w) := by
  unfold countPassed checkAllAppStat
  split
  · exact .refl w
  · split
    · exact ⟨.refl _, rfl⟩
    · exact ⟨.refl _, rfl⟩

theorem callCompletion_rescheduled {cfg : Config σ ι} {owner : Addr} {size ret : Int}
    {w w' : World σ ι} (h : callCompletion cfg owner size w = .ok (w', ret)) :
    w.Rescheduled w' := by
  obtain ⟨rs, -, h⟩ := Machine.bind_eq_ok.mp h
  obtain ⟨out, -, h⟩ := Machine.bind_eq_ok.mp h
  obtain ⟨rfl, -⟩ := Prod.mk.inj (Machine.pure_eq_ok.mp h)
  exact ⟨(unlockAll_rescheduled _ _).trans (.modify fun _ rs _ => ⟨id, rfl⟩), rfl⟩

theorem callCurrentSize_rescheduled {cfg : Config σ ι} {owner : Addr} {actual size : Int}
    {w w' : World σ ι} (h : callCurrentSize cfg owner actual w = .ok (w', size)) :
    w.Rescheduled w' := by
  obtain ⟨rs, -, h⟩ := Machine.bind_eq_ok.mp h
  split at h
  · cases h
  · obtain ⟨out, -, h⟩ := Machine.bind_eq_ok.mp h
    obtain ⟨rfl, -⟩ := Prod.mk.inj (Machine.pure_eq_ok.mp h)
    exact ⟨.modify fun _ rs _ => ⟨id, rfl⟩, rfl⟩

theorem callDequeue_rescheduled {cfg : Config σ ι} {r : DequeueReason ι} {w w' : World σ ι}
    {item : Option (GenericQueueItem ι)} (h : callDequeue cfg r w = .ok (w', item)) :
    w.Rescheduled w' := by
  obtain ⟨⟨g, mem, it⟩, hdisp, h⟩ := Machine.bind_eq_ok.mp h
  obtain ⟨rfl, -⟩ := Prod.mk.inj (Machine.pure_eq_ok.mp h)
  exact ⟨dispatchNext_rescheduled hdisp, rfl⟩

theorem callDequeueUnchecked_rescheduled {cfg : Config σ ι} {r : DequeueReason ι}
    {w w' : World σ ι} {item : Option (GenericQueueItem ι)}
    (h : callDequeueUnchecked cfg r w = .ok (w', item)) : w.Rescheduled w' := by
  obtain ⟨out, -, h⟩ := Machine.bind_eq_ok.mp h
  have hun := unlockAll_rescheduled out.unlocked w.mem
  split at h
  · obtain ⟨rfl, -⟩ := Prod.mk.inj (Machine.pure_eq_ok.mp h)
    exact ⟨hun, rfl⟩
  · obtain ⟨rs, -, h⟩ := Machine.bind_eq_ok.mp h
    obtain ⟨rfl, -⟩ := Prod.mk.inj (Machine.pure_eq_ok.mp h)
    exact ⟨hun.trans (.modify fun _ rs _ => ⟨by simp, rfl⟩), rfl⟩

section loops

variable {cfg : Config σ ι}

theorem drainQueue_rescheduled
    {dequeue : World σ ι → Except Fault (World σ ι × Option (GenericQueueItem ι))}
    (hd : ∀ {w w' item}, dequeue w = .ok (w', item) → w.Rescheduled w') :
    ∀ {bound : Nat} {w w' : World σ ι}, drainQueue dequeue bound w = .ok w' → w.Rescheduled w'
  | 0, _, _, h => by cases h
  | bound + 1, w, w', h => by
      obtain ⟨⟨w₁, item⟩, hdeq, h⟩ := Machine.bind_eq_ok.mp h
      cases item with
      | none =>
          obtain rfl := Machine.pure_eq_ok.mp h
          exact hd hdeq
      | some it => exact (hd hdeq).trans (drainQueue_rescheduled hd h)

variable {dequeue : DequeueReason ι → World σ ι →
    Except Fault (World σ ι × Option (GenericQueueItem ι))}
  (hd : ∀ {r w w' item}, dequeue r w = .ok (w', item) → w.Rescheduled w')

include hd in
theorem updateDiffs_rescheduled {item : Option (GenericQueueItem ι)} :
    ∀ {apps : List Nat} {w w' : World σ ι}, updateDiffs cfg dequeue item apps w = .ok w' →
      w.Rescheduled w'
  | [], w, w', h => by
      obtain rfl := Except.ok.inj h
      exact .refl w
  | s :: apps, w, w', h => by
      unfold updateDiffs at h
      split at h
      · cases h
      · dsimp only at h
        split at h
        · obtain ⟨w₁, hdrain, h⟩ := Machine.bind_eq_ok.mp h
          have hw := drainQueue_rescheduled hd hdrain
          exact .trans ⟨hw.mem, hw.next⟩ (updateDiffs_rescheduled h)
        · have hw := updateDiffs_rescheduled h
          exact ⟨hw.mem, hw.next⟩

include hd in
theorem countThroughput_rescheduled {amount : Int} {app : Nat}
    {item : Option (GenericQueueItem ι)} {w w' : World σ ι}
    (h : countThroughput cfg dequeue amount app item w = .ok w') : w.Rescheduled w' := by
  unfold countThroughput at h
  split at h
  · obtain rfl := Except.ok.inj h
    exact .refl w
  · split at h
    · obtain rfl := Except.ok.inj h
      exact ⟨.refl _, rfl⟩
    · have := updateDiffs_rescheduled hd h
      exact ⟨this.mem, this.next⟩

end loops

end PvfsProxy
