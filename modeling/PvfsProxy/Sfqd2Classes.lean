import PvfsProxy.Sfqd2

/-!
# The slots of the two sizes of SFQD2

The runs of the framework around SFQD2: requests arrive, a server answers a
read with the size of the data file, the flows of a read come in, a write or
small I/O is reported done. What a completion passes as `complete_size` decides
whose slot it frees.

A step keeps the accounts of both sizes exactly when that size is the one the
request was enqueued with (`Classes.step`, `Classes.broken`). At end of file it
always is, since the estimate comes back; the share of a read and the byte
count of a write may lie on the other side of 64 KB.
-/

namespace PvfsProxy

/-- A dispatched request, with the length it was enqueued with. -/
structure Sfqd2Entry where
  item : Sfqd2Item
  length : Int
deriving DecidableEq

namespace Sfqd2Entry

def ofItem (it : Sfqd2Item) : Sfqd2Entry := ⟨it, it.embedded.taskSize⟩

def size (e : Sfqd2Entry) : Sfqd2Size := sfqd2Size e.length

end Sfqd2Entry

structure Sfqd2Run where
  g : Globals Sfqd2
  mem : Mem Sfqd2QueueItem
  /-- dispatched and not yet completed -/
  outstanding : List Sfqd2Entry

namespace Sfqd2Run

inductive Event where
  | arrive (a : Arrival Sfqd2QueueItem)
  /-- the response to a read, with the size of the data file -/
  | respond (e : Sfqd2Entry) (fileSize : Int) (lastAppIndex : Nat)
  /-- a flow of a read -/
  | flow (e : Sfqd2Entry) (completeSize : Int) (lastAppIndex : Nat)
  /-- a write completion, or the response to a small I/O -/
  | finish (e : Sfqd2Entry) (byteCount : Int) (lastAppIndex : Nat)

variable (myShare : Int → Int → Int → Int → Int → Int)

/-- `check_request` with the request of an arrival. -/
def arrive (s : Sfqd2Run) (a : Arrival Sfqd2QueueItem) : Except Fault Sfqd2Run := do
  let (g, mem, item) ← admitRequest (schSfqd2 myShare) a.pool a.si a.pi .newIo
    a.pi.currentDataSize s.g (s.mem.alloc a.rs a.newRs)
  return { g, mem, outstanding := s.outstanding ++ item.toList.map .ofItem }

/-- The dequeue of a completion, passing `completeSize`. -/
def complete (s : Sfqd2Run) (e : Sfqd2Entry) (item : Sfqd2Item) (completeSize : Int)
    (lastAppIndex : Nat) : Except Fault Sfqd2Run := do
  let (g, mem, next) ← dispatchNext (schSfqd2 myShare)
    { event := .completeIo, completeSize, lastAppIndex, item := some item } s.g s.mem
  return { g, mem, outstanding := s.outstanding.erase e ++ next.toList.map .ofItem }

/-- The item of an outstanding request was written to. -/
def update (s : Sfqd2Run) (e : Sfqd2Entry) (item : Sfqd2Item) : Sfqd2Run :=
  { s with outstanding := s.outstanding.erase e ++ [{ e with item }] }

/-- A share of 0 is the end of the file: the estimate is passed on. -/
def respond (s : Sfqd2Run) (e : Sfqd2Entry) (fileSize : Int) (lastAppIndex : Nat) :
    Except Fault Sfqd2Run := do
  let (item, share) ← sfqd2CurrentSize myShare (some e.item) fileSize
  if share = 0 then
    let (item, _) ← sfqd2CurrentSize myShare (some item) 0
    let (item, _) ← sfqd2UpdateOnRequestCompletion { currentItem := some item, completeSize := 0 }
    s.complete myShare e item e.length lastAppIndex
  else return s.update e item

def flow (s : Sfqd2Run) (e : Sfqd2Entry) (completeSize : Int) (lastAppIndex : Nat) :
    Except Fault Sfqd2Run := do
  let (item, ret) ← sfqd2UpdateOnRequestCompletion { currentItem := some e.item, completeSize }
  if ret > 0 then s.complete myShare e item ret lastAppIndex
  else if ret = -1 then throw (.exit (-1))
  else return s.update e item

def step (s : Sfqd2Run) : Event → Except Fault Sfqd2Run
  | .arrive a => s.arrive myShare a
  | .respond e fileSize app => s.respond myShare e fileSize app
  | .flow e completeSize app => s.flow myShare e completeSize app
  | .finish e byteCount app => s.complete myShare e e.item byteCount app

/-- A request state is allocated fresh and unlocked; a response belongs to an
outstanding request, a flow to a read. -/
def Allowed (s : Sfqd2Run) : Event → Prop
  | .arrive a => s.mem a.rs = none ∧ a.newRs.locked = false
  | .respond e _ _ => e ∈ s.outstanding ∧ e.item.embedded.ioType = pvfsIoRead
  | .flow e _ _ => e ∈ s.outstanding ∧ e.item.embedded.ioType = pvfsIoRead
  | .finish e _ _ => e ∈ s.outstanding

instance (s : Sfqd2Run) (ev : Event) : Decidable (s.Allowed ev) :=
  match ev with
  | .arrive a => inferInstanceAs (Decidable (s.mem a.rs = none ∧ a.newRs.locked = false))
  | .respond e _ _ =>
    inferInstanceAs (Decidable (e ∈ s.outstanding ∧ e.item.embedded.ioType = pvfsIoRead))
  | .flow e _ _ =>
    inferInstanceAs (Decidable (e ∈ s.outstanding ∧ e.item.embedded.ioType = pvfsIoRead))
  | .finish e _ _ => inferInstanceAs (Decidable (e ∈ s.outstanding))

/-- A completion is of the size the request was enqueued with: the task size of
a read whose last flow came, the byte count reported for a write. -/
def SameSize (_ : Sfqd2Run) : Event → Prop
  | .arrive _ => True
  | .respond .. => True
  | .flow e completeSize _ =>
    e.item.embedded.taskSize = e.item.embedded.gotSize + completeSize →
      0 < e.item.embedded.taskSize → sfqd2Size e.item.embedded.taskSize = e.size
  | .finish e byteCount _ => sfqd2Size byteCount = e.size

instance (s : Sfqd2Run) (ev : Event) : Decidable (s.SameSize ev) :=
  match ev with
  | .arrive _ => inferInstanceAs (Decidable True)
  | .respond .. => inferInstanceAs (Decidable True)
  | .flow e completeSize _ => inferInstanceAs (Decidable
      (e.item.embedded.taskSize = e.item.embedded.gotSize + completeSize →
        0 < e.item.embedded.taskSize → sfqd2Size e.item.embedded.taskSize = e.size))
  | .finish e byteCount _ => inferInstanceAs (Decidable (sfqd2Size byteCount = e.size))

def init (depthLarge : Int) (appStats : Nat → AppStatistics) (mem : Mem Sfqd2QueueItem) :
    Sfqd2Run where
  g := { sched := sfqd2Init depthLarge, appStats, totalThroughput := 0 }
  mem := mem
  outstanding := []

/-- The outstanding requests that were enqueued in a size. -/
def running (s : Sfqd2Run) (size : Sfqd2Size) : Nat :=
  s.outstanding.countP fun e => e.size = size

def Accounted (s : Sfqd2Run) : Prop :=
  ∀ size, (s.g.sched.queue size).currentDepth = s.running size
    ∧ 0 ≤ (s.g.sched.queue size).currentDepth
    ∧ (s.g.sched.queue size).currentDepth ≤ (s.g.sched.queue size).depth

end Sfqd2Run

open Sfqd2Run

/-- What the accounts follow from. -/
structure Classes (s : Sfqd2Run) : Prop where
  sized : ∀ size, ∀ it ∈ s.g.sched.queued size, sfqd2Size it.embedded.taskSize = size
  current : ∀ size, (s.g.sched.queue size).currentDepth = s.running size
  bound : ∀ size, (s.g.sched.queue size).currentDepth ≤ (s.g.sched.queue size).depth
  full : ∀ size, s.g.sched.queued size ≠ [] →
    (s.g.sched.queue size).currentDepth = (s.g.sched.queue size).depth

namespace Classes

variable {myShare : Int → Int → Int → Int → Int → Int} {s t : Sfqd2Run} {e : Sfqd2Entry}

theorem accounted (h : Classes s) : s.Accounted := by
  intro size
  refine ⟨h.current size, ?_, h.bound size⟩
  rw [h.current size]
  exact Int.natCast_nonneg _

theorem init {depthLarge : Int} {appStats : Nat → AppStatistics} {mem : Mem Sfqd2QueueItem}
    (hdepth : 0 ≤ depthLarge) : Classes (.init depthLarge appStats mem) where
  sized size it hit := by
    have hnil : (sfqd2Init depthLarge).queued size = [] := heapInit_values
    have hit : it ∈ (sfqd2Init depthLarge).queued size := hit
    rw [hnil] at hit
    cases hit
  current size := rfl
  bound size := by
    cases size with
    | large => exact hdepth
    | small => show (0 : Int) ≤ 100; decide
  full size hne := absurd heapInit_values hne

end Classes

/-! ## What a step can do -/

/-- One outstanding request was replaced by those of `next`. -/
theorem running_replace {s t : Sfqd2Run} {e : Sfqd2Entry} {next : List Sfqd2Entry}
    (he : e ∈ s.outstanding) (h : t.outstanding = s.outstanding.erase e ++ next)
    (size : Sfqd2Size) :
    t.running size + (if e.size = size then 1 else 0)
      = s.running size + next.countP fun e => e.size = size := by
  unfold running
  rw [h, (List.perm_cons_erase he).countP_eq, List.countP_append, List.countP_cons]
  simp only [decide_eq_true_eq]
  omega

namespace Sfqd2Run

variable {myShare : Int → Int → Int → Int → Int → Int} {s t : Sfqd2Run} {e : Sfqd2Entry}
  {item : Sfqd2Item} {completeSize : Int} {app : Nat}

theorem complete_ok (h : s.complete myShare e item completeSize app = .ok t) :
    ∃ next, Sfqd2Dequeued (sfqd2Size completeSize) s.g.sched t.g.sched next
      ∧ t.outstanding = s.outstanding.erase e ++ next.toList.map .ofItem := by
  obtain ⟨⟨g, mem, next⟩, hdisp, h⟩ := Machine.bind_eq_ok.mp h
  obtain rfl := Machine.pure_eq_ok.mp h
  obtain ⟨out, hout, rfl, rfl, -⟩ := dispatchNext_ok hdisp
  obtain ⟨⟨g', next⟩, hdeq, hout⟩ := Machine.bind_eq_ok.mp hout
  obtain rfl := Machine.pure_eq_ok.mp hout
  exact ⟨next, sfqd2Dequeue_ok hdeq, rfl⟩

theorem arrive_ok {a : Arrival Sfqd2QueueItem} (h : s.arrive myShare a = .ok t) :
    ∃ g₁ b it, Sfqd2Enqueued a.si a.pi s.g.sched g₁ b it
      ∧ ((b = false ∧ t.g.sched = g₁ ∧ t.outstanding = s.outstanding)
        ∨ (b = true ∧ ∃ next, Sfqd2Dequeued (sfqd2Size a.pi.currentDataSize) g₁ t.g.sched next
          ∧ t.outstanding = s.outstanding ++ next.toList.map .ofItem)) := by
  obtain ⟨⟨g, mem, next⟩, hentry, h⟩ := Machine.bind_eq_ok.mp h
  obtain rfl := Machine.pure_eq_ok.mp h
  obtain ⟨out, hout, hcases⟩ := admitRequest_ok (m := schSfqd2 myShare) rfl hentry
  obtain ⟨⟨g₁, b⟩, henq, hout⟩ := Machine.bind_eq_ok.mp hout
  obtain rfl := Machine.pure_eq_ok.mp hout
  obtain ⟨it, hit⟩ := sfqd2Enqueue_ok henq
  refine ⟨g₁.sched, b, it, hit, ?_⟩
  rcases hcases with ⟨hb, deq, hdeq, rfl, rfl, -⟩ | ⟨hb, rfl, rfl, -⟩
  · obtain ⟨⟨g₂, next⟩, hnext, hdeq⟩ := Machine.bind_eq_ok.mp hdeq
    obtain rfl := Machine.pure_eq_ok.mp hdeq
    exact .inr ⟨hb, next, sfqd2Dequeue_ok hnext, rfl⟩
  · exact .inl ⟨hb, rfl, by simp⟩

/-- A response, a flow or a completion writes to the item of an outstanding
request or completes it, with its own size if the event says so. -/
theorem step_cases {ev : Event} (hok : s.Allowed ev) (h : s.step myShare ev = .ok t) :
    (∃ a, ev = .arrive a ∧ s.arrive myShare a = .ok t)
    ∨ (∃ e item, e ∈ s.outstanding ∧ t = s.update e item ∧ s.SameSize ev)
    ∨ ∃ e item completeSize app, e ∈ s.outstanding
      ∧ s.complete myShare e item completeSize app = .ok t
      ∧ (s.SameSize ev ↔ sfqd2Size completeSize = e.size) := by
  cases ev with
  | arrive a => exact .inl ⟨a, rfl, h⟩
  | respond e fileSize app =>
      obtain ⟨⟨item, share⟩, -, h⟩ := Machine.bind_eq_ok.mp h
      dsimp only at h
      split at h
      · obtain ⟨⟨item₁, share₁⟩, -, h⟩ := Machine.bind_eq_ok.mp h
        obtain ⟨⟨item₂, got⟩, -, h⟩ := Machine.bind_eq_ok.mp h
        exact .inr (.inr ⟨e, _, _, _, hok.1, h, ⟨fun _ => rfl, fun _ => trivial⟩⟩)
      · exact .inr (.inl ⟨e, item, hok.1, (Machine.pure_eq_ok.mp h).symm, trivial⟩)
  | flow e size app =>
      obtain ⟨⟨item, ret⟩, hupd, h⟩ := Machine.bind_eq_ok.mp h
      obtain ⟨hpos_iff, htask⟩ := sfqd2UpdateOnRequestCompletion_ok hupd
      dsimp only at h
      split at h
      · rename_i hpos
        refine .inr (.inr ⟨e, item, ret, app, hok.1, h, ?_⟩)
        obtain ⟨hall, htaskpos⟩ := hpos_iff.mp hpos
        rw [htask hpos]
        exact ⟨fun hsame => hsame hall htaskpos, fun hsame _ _ => hsame⟩
      · rename_i hnot
        split at h
        · cases h
        · refine .inr (.inl ⟨e, item, hok.1, (Machine.pure_eq_ok.mp h).symm, ?_⟩)
          exact fun hall htaskpos => absurd (hpos_iff.mpr ⟨hall, htaskpos⟩) hnot
  | finish e byteCount app =>
      exact .inr (.inr ⟨e, e.item, byteCount, app, hok, h, Iff.rfl⟩)

end Sfqd2Run

namespace Classes

variable {myShare : Int → Int → Int → Int → Int → Int} {s t : Sfqd2Run} {e : Sfqd2Entry}

theorem of_queue (h : Classes s) {size : Sfqd2Size}
    (hother : ∀ size', size' ≠ size → t.g.sched.queue size' = s.g.sched.queue size')
    (hrunning : ∀ size', size' ≠ size → t.running size' = s.running size')
    (hsized : ∀ it ∈ t.g.sched.queued size, sfqd2Size it.embedded.taskSize = size)
    (hcurrent : (t.g.sched.queue size).currentDepth = t.running size)
    (hbound : (t.g.sched.queue size).currentDepth ≤ (t.g.sched.queue size).depth)
    (hfull : t.g.sched.queued size ≠ [] →
      (t.g.sched.queue size).currentDepth = (t.g.sched.queue size).depth) : Classes t := by
  have hqueued : ∀ size', size' ≠ size → t.g.sched.queued size' = s.g.sched.queued size' := by
    intro size' hne
    unfold Sfqd2.queued
    rw [hother size' hne]
  constructor
  · intro size'
    by_cases hne : size' = size
    · exact hne ▸ hsized
    · rw [hqueued size' hne]
      exact h.sized size'
  · intro size'
    by_cases hne : size' = size
    · exact hne ▸ hcurrent
    · rw [hother size' hne, hrunning size' hne]
      exact h.current size'
  · intro size'
    by_cases hne : size' = size
    · exact hne ▸ hbound
    · rw [hother size' hne]
      exact h.bound size'
  · intro size'
    by_cases hne : size' = size
    · exact hne ▸ hfull
    · rw [hqueued size' hne, hother size' hne]
      exact h.full size'

/-- The item handed out was enqueued in the size it is taken from. -/
theorem next_size (hsized : ∀ it ∈ s.g.sched.queued size, sfqd2Size it.embedded.taskSize = size)
    {sched : Sfqd2} {next : Option Sfqd2Item} (hd : Sfqd2Dequeued size s.g.sched sched next)
    (size' : Sfqd2Size) :
    ((next.toList.map Sfqd2Entry.ofItem).countP fun e => e.size = size')
      = if next.isSome ∧ size' = size then 1 else 0 := by
  cases next with
  | none => simp
  | some it =>
      have hit := hsized it (hd.queued.subset (List.mem_append_left _ (List.mem_cons_self ..)))
      have hsize : (Sfqd2Entry.ofItem it).size = size := hit
      simp [hsize, eq_comm]

theorem complete (h : Classes s) (he : e ∈ s.outstanding)
    {next : Option Sfqd2Item} (hd : Sfqd2Dequeued e.size s.g.sched t.g.sched next)
    (hout : t.outstanding = s.outstanding.erase e ++ next.toList.map .ofItem) : Classes t := by
  have hcount := running_replace he hout
  simp only [next_size (h.sized _) hd] at hcount
  refine h.of_queue hd.other ?_ ?_ ?_ ?_ ?_
  · intro size' hne
    have := hcount size'
    simp only [hne, hne.symm, and_false, if_false] at this
    omega
  · intro it hit
    exact h.sized _ it (hd.queued.subset (List.mem_append_right _ hit))
  · have hself := hcount e.size
    have hcurrent := h.current e.size
    rw [hd.current]
    cases next with
    | none =>
        simp at hself
        simp only [Option.isNone_none, if_true]
        omega
    | some it =>
        simp at hself
        simp only [Option.isNone_some, Bool.false_eq_true, if_false]
        omega
  · have hbound := h.bound e.size
    rw [hd.current, hd.depth]
    split <;> omega
  · intro hne
    have hsome : next.isNone = false := by
      cases next with
      | some it => rfl
      | none =>
          exfalso
          have hnil := hd.empty rfl
          have hperm := hd.queued
          rw [hnil] at hperm
          exact hne hperm.eq_nil
    rw [hd.current, hd.depth, hsome]
    refine h.full e.size fun hnil => ?_
    have hperm := hd.queued
    rw [hnil] at hperm
    exact hne (List.append_eq_nil_iff.mp hperm.eq_nil).2

/-- A completion of the other size takes a request out of one account and
frees, or hands on, a slot of the other. -/
theorem complete_other (h : Classes s) (he : e ∈ s.outstanding) {size : Sfqd2Size}
    (hne : size ≠ e.size) {next : Option Sfqd2Item}
    (hd : Sfqd2Dequeued size s.g.sched t.g.sched next)
    (hout : t.outstanding = s.outstanding.erase e ++ next.toList.map .ofItem) :
    ¬ t.Accounted := by
  intro hacc
  have hcount := running_replace he hout e.size
  have hnext := next_size (h.sized size) hd e.size
  rw [if_neg (fun hand => hne hand.2.symm)] at hnext
  rw [hnext, if_pos rfl] at hcount
  have hcurrent := (hacc e.size).1
  rw [hd.other e.size hne.symm, h.current e.size] at hcurrent
  omega

theorem update (h : Classes s) (he : e ∈ s.outstanding) (item : Sfqd2Item) :
    Classes (s.update e item) := by
  have hcount := running_replace (t := s.update e item) he rfl
  have hrunning : ∀ size, (s.update e item).running size = s.running size := by
    intro size
    have hsize : Sfqd2Entry.size { e with item } = e.size := rfl
    have := hcount size
    rw [List.countP_singleton, hsize] at this
    simp only [decide_eq_true_eq] at this
    omega
  refine ⟨h.sized, fun size => ?_, h.bound, h.full⟩
  rw [hrunning]
  exact h.current size

theorem arrive (h : Classes s) {a : Arrival Sfqd2QueueItem} (hstep : s.arrive myShare a = .ok t) :
    Classes t := by
  obtain ⟨g₁, b, it, henq, ⟨rfl, rfl, hout⟩ | ⟨rfl, next, hd, hout⟩⟩ := arrive_ok hstep
  · -- no slot is free
    have hfull := of_decide_eq_false henq.dispatched.symm
    have hbound := h.bound (sfqd2Size a.pi.currentDataSize)
    have hrunning : ∀ size, t.running size = s.running size := by
      intro size
      unfold running
      rw [hout]
    refine h.of_queue henq.other (fun size' _ => hrunning size') ?_ ?_ ?_ ?_
    · intro c hc
      rcases List.mem_cons.mp (henq.queued.subset hc) with rfl | hold
      · rw [henq.taskSize]
      · exact h.sized _ c hold
    · rw [henq.current, hrunning]
      exact h.current _
    · rw [henq.current, henq.depth]
      exact hbound
    · intro _
      rw [henq.current, henq.depth]
      simp only [Bool.false_eq_true, if_false]
      omega
  · -- the queue was empty, so the request is handed out at once
    have hfree := of_decide_eq_true henq.dispatched.symm
    have hnil : s.g.sched.queued (sfqd2Size a.pi.currentDataSize) = [] := by
      by_contra hne
      have := h.full _ hne
      omega
    have hqueued := henq.queued
    rw [hnil] at hqueued
    obtain ⟨c, rfl⟩ : ∃ c, next = some c := by
      cases next with
      | some c => exact ⟨c, rfl⟩
      | none =>
          have hempty := hd.empty rfl
          rw [hempty] at hqueued
          exact absurd hqueued.symm.eq_nil (by simp)
    have hperm : [c].Perm [it] ∧ t.g.sched.queued (sfqd2Size a.pi.currentDataSize) = [] := by
      have hall := hd.queued.trans hqueued
      have hlen := hall.length_eq
      have hrest : t.g.sched.queued (sfqd2Size a.pi.currentDataSize) = [] := by
        refine List.length_eq_zero_iff.mp ?_
        simpa using hlen
      rw [hrest] at hall
      exact ⟨hall, hrest⟩
    obtain ⟨hc, hrest⟩ := hperm
    obtain rfl : c = it := by simpa using hc
    have hsize : (Sfqd2Entry.ofItem c).size = sfqd2Size a.pi.currentDataSize := by
      show sfqd2Size c.embedded.taskSize = _
      rw [henq.taskSize]
    have hrunning : ∀ size, t.running size = s.running size
        + if sfqd2Size a.pi.currentDataSize = size then 1 else 0 := by
      intro size
      unfold running
      rw [hout, List.countP_append, Option.toList_some, List.map_singleton, List.countP_singleton,
        hsize]
      simp only [decide_eq_true_eq]
    have hcurrent : (t.g.sched.queue (sfqd2Size a.pi.currentDataSize)).currentDepth
        = (s.g.sched.queue (sfqd2Size a.pi.currentDataSize)).currentDepth + 1 := by
      rw [hd.current, henq.current]
      rfl
    refine h.of_queue (fun size' hne => (hd.other size' hne).trans (henq.other size' hne)) ?_ ?_ ?_
      ?_ ?_
    · intro size' hne
      rw [hrunning, if_neg (Ne.symm hne)]
      omega
    · rw [hrest]
      intro c hc
      cases hc
    · rw [hcurrent, hrunning, if_pos rfl, h.current]
      push_cast
      rfl
    · rw [hcurrent, hd.depth, henq.depth]
      omega
    · intro hne
      exact absurd hrest hne

/-- A step whose completion is of the request's own size keeps the accounts. -/
theorem step (h : Classes s) {ev : Event} (hok : s.Allowed ev) (hsame : s.SameSize ev)
    (hstep : s.step myShare ev = .ok t) : Classes t := by
  rcases step_cases hok hstep with ⟨a, rfl, harrive⟩ | ⟨e, item, he, rfl, -⟩
    | ⟨e, item, size, app, he, hcomplete, hsize⟩
  · exact h.arrive harrive
  · exact h.update he item
  · obtain ⟨next, hd, hout⟩ := complete_ok hcomplete
    rw [hsize.mp hsame] at hd
    exact h.complete he hd hout

/-- Any other completion breaks them. -/
theorem broken (h : Classes s) {ev : Event} (hok : s.Allowed ev) (hother : ¬ s.SameSize ev)
    (hstep : s.step myShare ev = .ok t) : ¬ t.Accounted := by
  rcases step_cases hok hstep with ⟨a, rfl, -⟩ | ⟨e, item, -, rfl, hsame⟩
    | ⟨e, item, size, app, he, hcomplete, hsize⟩
  · exact absurd trivial hother
  · exact absurd hsame hother
  · obtain ⟨next, hd, hout⟩ := complete_ok hcomplete
    exact h.complete_other he (fun heq => hother (hsize.mpr heq)) hd hout

end Classes

/-! ## Runs -/

section runs

variable {myShare : Int → Int → Int → Int → Int → Int} {s t : Sfqd2Run}
  {es : List Sfqd2Run.Event}

theorem Classes.run (h : Classes s)
    (hrun : Machine.Run (fun s ev => s.Allowed ev ∧ s.SameSize ev) (Sfqd2Run.step myShare) s es t) :
    Classes t :=
  hrun.invariant h fun _ _ _ ht hok hstep => ht.step hok.1 hok.2 hstep

/-- **Slots of the two sizes.** In every state a run passes through both
accounts hold, if and only if every completion is of the size its request was
enqueued with. -/
theorem sfqd2_class_accounting {depthLarge : Int} {appStats : Nat → AppStatistics}
    {mem : Mem Sfqd2QueueItem} (hdepth : 0 ≤ depthLarge)
    (hrun : Machine.Run Sfqd2Run.Allowed (Sfqd2Run.step myShare)
      (.init depthLarge appStats mem) es t) :
    (∀ es₁ es₂ u, es₁ ++ es₂ = es →
        Machine.Run Sfqd2Run.Allowed (Sfqd2Run.step myShare) (.init depthLarge appStats mem) es₁ u →
        u.Accounted)
      ↔ Machine.Run (fun s ev => s.Allowed ev ∧ s.SameSize ev) (Sfqd2Run.step myShare)
          (.init depthLarge appStats mem) es t := by
  constructor
  · intro hall
    induction hrun with
    | nil => exact .nil
    | @snoc es t u ev hrun hok hstep ih =>
        have hprev := ih fun es₁ es₂ v heq hv =>
          hall es₁ (es₂ ++ [ev]) v (by rw [← heq, List.append_assoc]) hv
        have hclasses := (Classes.init hdepth).run hprev
        have hacc := hall (es ++ [ev]) [] u (List.append_nil _) (hrun.snoc hok hstep)
        refine hprev.snoc ⟨hok, ?_⟩ hstep
        by_contra hother
        exact hclasses.broken hok hother hstep hacc
  · rintro hsame es₁ es₂ u rfl hu
    obtain ⟨v, hv, -⟩ := hsame.split
    obtain rfl := hu.unique hv
    exact ((Classes.init hdepth).run hv).accounted

end runs

/-! ## A read of 128 KB over two servers -/

/-- It comes to the first server; the estimate is 64 KB. -/
def sfqd2Read (stripSize : Int) : Arrival Sfqd2QueueItem where
  pool i := { socket := i + 5, appIndex := 0, weight := 1 }
  index := 1
  dataSocket := 2
  rs := 0
  newRs := default
  pi :=
    { op := .io, tag := 7, reqSize := 64, ioType := pvfsIoRead, currentDataSize := 65536
      aggregateSize := 131072, totalServer := 2, stripSize }

/-- `get_my_share` on the first server for a request from the start of a
stripe. -/
def firstStrip (stripSize _serverCount _offset askSize _serverNr : Int) : Int :=
  if askSize < stripSize then askSize else stripSize

/-- Its entry when dispatched, and after the response. -/
def sfqd2ReadEntry (stripSize : Int) : Sfqd2Entry :=
  .ofItem (sfqd2NewItem (sfqd2Read stripSize).pool (sfqd2Read stripSize).si
    (sfqd2Read stripSize).pi 0 64 0 0)

def sfqd2ReadAnswered (stripSize share : Int) : Sfqd2Entry :=
  let e := sfqd2ReadEntry stripSize
  { e with
    item :=
      { e.item with
        embedded := { e.item.embedded with dataFileSize := 131072, taskSize := share } } }

/-- In strips of 256 KB all of it lies on the first server: it is enqueued as a
small request and completes as a large one, of which minus one is then in
use. -/
theorem sfqd2_class_accounting_fails :
    ¬ ∀ (myShare : Int → Int → Int → Int → Int → Int) (depthLarge : Int)
        (appStats : Nat → AppStatistics) (mem : Mem Sfqd2QueueItem) (es : List Sfqd2Run.Event)
        (t : Sfqd2Run), 1 ≤ depthLarge →
        Machine.Run Sfqd2Run.Allowed (Sfqd2Run.step myShare) (.init depthLarge appStats mem) es t →
        t.Accounted := by
  intro hall
  obtain ⟨t, hrun, ht⟩ := Machine.Run.exists_of_exec Sfqd2Run.Allowed (Sfqd2Run.step firstStrip)
    (.init 1 (fun _ => { appWeight := 1 }) fun _ => none)
    [.arrive (sfqd2Read 262144), .respond (sfqd2ReadEntry 262144) 131072 0,
      .flow (sfqd2ReadAnswered 262144 131072) 131072 0]
    (fun t => (t.g.sched.queue .large).currentDepth) (a := -1) (by decide +kernel)
  obtain ⟨-, hpos, -⟩ := hall firstStrip 1 _ _ _ t (by decide) hrun .large
  rw [ht] at hpos
  exact absurd hpos (by decide)

/-- In strips of 64 KB the share is the estimate. -/
theorem sfqd2_class_accounting_example :
    ∃ t : Sfqd2Run, t.outstanding = [] ∧ t.Accounted := by
  obtain ⟨t, hrun, ht⟩ := Machine.Run.exists_of_exec (fun s ev => s.Allowed ev ∧ s.SameSize ev)
    (Sfqd2Run.step firstStrip) (.init 1 (fun _ => { appWeight := 1 }) fun _ => none)
    [.arrive (sfqd2Read 65536), .respond (sfqd2ReadEntry 65536) 131072 0,
      .flow (sfqd2ReadAnswered 65536 65536) 65536 0]
    (fun t => t.outstanding) (a := []) (by decide +kernel)
  have hallowed := hrun.mono fun _ _ hok => hok.1
  exact ⟨t, ht, (sfqd2_class_accounting (by decide) hallowed).mpr hrun _ [] t
    (List.append_nil _) hallowed⟩

end PvfsProxy
