import Mathlib.Algebra.Order.Ring.Int
import Mathlib.Algebra.Order.BigOperators.Group.List
import Mathlib.Data.Finset.Prod
import Mathlib.Data.Int.Interval
import Mathlib.Tactic.Abel
import Mathlib.Data.List.TakeWhile
import Mathlib.Data.List.Pairwise
import Mathlib.Data.List.Induction
import Mathlib.Data.List.Perm.Basic
import PvfsProxy.SfqdFullRun

/-!
# Depth accounting of SFQD_Full

A request is charged `tentative_depth` slots when it is dispatched, which
depends on the flags and on `sfqdfull_small_ios` at that moment; its
completion gives back `reduce_depth` slots, which depends on the hard-block
flag alone. `Charged` says what every outstanding request was charged, and
`balanced_complete` that a completion keeps the books exactly when it gives
back what was charged. `sfqdFull_depth_accounting` draws the line between the
configurations that always do and those that do not.
-/

namespace PvfsProxy

open StableSort SfqdFull

/-- A request of at most `SFQD_FULL_LARGE_IO_THRESHOLD` bytes. -/
def smallItem (it : SfqdFullItem) : Bool := decide (it.embedded.taskSize ≤ 65536)

namespace FullRun

/-- Is `r` the completion of `item`? The proxy may have updated the item's
byte counts since it was dispatched. -/
def OwnItem (item : SfqdFullItem) (r : DequeueReason SfqdFullQueueItem) : Prop :=
  r.item.any fun it =>
    decide (it.itemId = item.itemId ∧ it.embedded.depth = item.embedded.depth)

/-- Every dispatched request completes at most once, as itself. -/
def Own (s : FullRun) : Event → Prop
  | .arrive a event size => s.Framed (.arrive a event size)
  | .complete entry r => entry ∈ s.outstanding ∧ r.event = .completeIo ∧ OwnItem entry.1 r
  | .retire p => s.Framed (.retire p)

instance (item : SfqdFullItem) (r : DequeueReason SfqdFullQueueItem) :
    Decidable (OwnItem item r) :=
  inferInstanceAs (Decidable (_ = true))

instance (s : FullRun) (e : Event) : Decidable (s.Own e) :=
  match e with
  | .arrive a event size => inferInstanceAs (Decidable (s.Framed (.arrive a event size)))
  | .complete entry r => inferInstanceAs (Decidable
      (entry ∈ s.outstanding ∧ r.event = .completeIo ∧ OwnItem entry.1 r))
  | .retire p => inferInstanceAs (Decidable (s.Framed (.retire p)))

theorem Own.framed {s : FullRun} {e : Event} (h : s.Own e) : s.Framed e := by
  cases e with
  | arrive a event size => exact h
  | complete entry r => exact h.2.1
  | retire p => exact h

/-- What the completion of an outstanding request gives back. -/
def release (hard : Bool) (entry : SfqdFullItem × Int) : Int :=
  if hard then entry.1.embedded.depth else 1

theorem OwnItem.lastIoDepth {item : SfqdFullItem} {r : DequeueReason SfqdFullQueueItem}
    (h : OwnItem item r) (hr : r.event = .completeIo) :
    lastIoDepth r = item.embedded.depth := by
  obtain ⟨it, hit, hsame⟩ := (Option.any_eq_true ..).mp h
  unfold PvfsProxy.lastIoDepth
  rw [hr, hit]
  exact (of_decide_eq_true hsame).2

theorem OwnItem.reduceDepth {entry : SfqdFullItem × Int} {r : DequeueReason SfqdFullQueueItem}
    (h : OwnItem entry.1 r) (hr : r.event = .completeIo) (s : SfqdFull) :
    s.reduceDepth r = release s.enableHardBlock entry := by
  unfold SfqdFull.reduceDepth release
  rw [if_pos hr, h.lastIoDepth hr]

theorem OwnItem.finish_small {item : SfqdFullItem} {r : DequeueReason SfqdFullQueueItem}
    (h : OwnItem item r) (hr : r.event = .completeIo) (s : SfqdFull) :
    (s.finish r).smallIos = s.smallIos - if item.embedded.depth = 1 then 1 else 0 := by
  unfold SfqdFull.finish
  rw [h.lastIoDepth hr]
  simp only [hr, true_and]
  split <;> simp

end FullRun

open FullRun

namespace SfqdFull

variable {depth factor : Int} {large hard : Bool} {s : SfqdFull}

theorem Configured.isSmall (h : Configured depth factor large hard s) (it : SfqdFullItem) :
    s.isSmall it = smallItem it := by
  unfold SfqdFull.isSmall smallItem
  rw [h.threshold]

/-- With hard blocking an item is charged its depth. -/
theorem Configured.tentative_hard (h : Configured depth factor large true s)
    (e : SfqdFullQueueItem) : s.tentativeDepth e = e.depth := by
  unfold tentativeDepth
  simp [h.hard]

/-- Without any blocking it is charged one slot. -/
theorem Configured.tentative_soft (h : Configured depth factor false false s)
    (e : SfqdFullQueueItem) : s.tentativeDepth e = 1 := by
  unfold tentativeDepth
  simp [h.hard, h.large]

/-- With large-I/O blocking it depends on the small requests counted. -/
theorem Configured.tentative_large (h : Configured depth factor true false s)
    (e : SfqdFullQueueItem) : s.tentativeDepth e = if 0 < s.smallIos then e.depth else 1 := by
  unfold tentativeDepth
  simp [h.hard, h.large]

end SfqdFull

/-- What the items of a run are charged and what `sfqdfull_small_ios` counts. -/
structure Charged (depth factor : Int) (large hard : Bool) (s : FullRun) : Prop where
  config : Configured depth factor large hard s.g.sched
  depths : ∀ it ∈ s.enqueued, it.embedded.depth = if smallItem it then 1 else factor
  dispatched : ∀ e ∈ s.outstanding, e.1 ∈ s.enqueued
  count : factor ≠ 1 → s.g.sched.smallIos
    = s.queued.countP smallItem + s.outstanding.countP fun e => smallItem e.1
  charge : ∀ e ∈ s.outstanding,
    e.2 = e.1.embedded.depth ∨ hard = false ∧ e.2 = 1
  unblocked : hard = false → large = false → ∀ e ∈ s.outstanding, e.2 = 1

namespace Charged

variable {depth factor : Int} {large hard : Bool} {s s' : FullRun}

theorem init {none : Bool} {appStats : Nat → AppStatistics} {mem : Mem SfqdFullQueueItem} :
    Charged depth factor large hard (FullRun.init depth factor large hard none appStats mem) where
  config := ⟨rfl, rfl, rfl, rfl, rfl⟩
  depths it h := by cases h
  dispatched e h := by cases h
  count _ := rfl
  charge e h := by cases h
  unblocked _ _ e h := by cases h

theorem tentative {sched : SfqdFull} (h : Configured depth factor large hard sched)
    (e : SfqdFullQueueItem) :
    (sched.tentativeDepth e = e.depth ∨ hard = false ∧ sched.tentativeDepth e = 1)
      ∧ (hard = false → large = false → sched.tentativeDepth e = 1) := by
  cases hard with
  | true =>
      refine ⟨.inl (h.tentative_hard e), ?_⟩
      intro hf
      cases hf
  | false =>
      cases large with
      | true =>
          rw [h.tentative_large]
          constructor
          · split
            · exact .inl rfl
            · exact .inr ⟨rfl, rfl⟩
          · intro _ hf
            cases hf
      | false => exact ⟨.inr ⟨rfl, h.tentative_soft e⟩, fun _ _ => h.tentative_soft e⟩

theorem queued_enqueued (ha : Agrees s) {it : SfqdFullItem} (hit : it ∈ s.queued) :
    it ∈ s.enqueued := ha.history.subset (List.mem_append_right _ hit)

theorem arrives (h : Charged depth factor large hard s) {a : Arrival SfqdFullQueueItem}
    {it : SfqdFullItem} {g₁ : Globals SfqdFull} (ha : s.Arrives a it g₁ s') :
    Charged depth factor large hard s' := by
  have hconfig₁ := ha.enters.config.configured h.config
  have hsmall : s.g.sched.isSmall it = smallItem it := h.config.isSmall it
  have hdepth : it.embedded.depth = if smallItem it then 1 else factor := by
    rw [ha.enters.depth, hsmall, h.config.factor]
  have hdepths : ∀ it' ∈ s'.enqueued, it'.embedded.depth = if smallItem it' then 1 else factor := by
    intro it' hit'
    rw [ha.enqueued] at hit'
    rcases List.mem_append.mp hit' with hold | hnew
    · exact h.depths it' hold
    · rw [List.mem_singleton.mp hnew]
      exact hdepth
  have hmem : ∀ e ∈ s.outstanding, e.1 ∈ s'.enqueued := by
    intro e he
    rw [ha.enqueued]
    exact List.mem_append_left _ (h.dispatched e he)
  -- the new item is counted, wherever it is
  have hcount : factor ≠ 1 → g₁.sched.smallIos
      = g₁.sched.queued.countP smallItem + s.outstanding.countP fun e => smallItem e.1 := by
    intro hf
    rw [ha.enters.small, h.count hf, hsmall, ha.enters.queued_perm.countP_eq, List.countP_append,
      List.countP_singleton]
    unfold FullRun.queued
    split <;> push_cast <;> omega
  rcases ha.goes with ⟨hl, hout, -, -⟩ | ⟨-, hg, hout, -, -⟩
  · obtain ⟨hcharge, hunblocked⟩ := tentative hconfig₁ it.embedded
    exact
      { config := hl.config.configured hconfig₁
        depths := hdepths
        dispatched := by
          rw [hout]
          refine List.forall_mem_append.mpr ⟨hmem, List.forall_mem_singleton.mpr ?_⟩
          rw [ha.enqueued]
          exact List.mem_append_right _ (List.mem_cons_self ..)
        count := by
          intro hf
          have hq := hl.queued_perm.countP_eq smallItem
          rw [List.countP_cons] at hq
          rw [hl.small, hcount hf, hout, List.countP_append, List.countP_singleton]
          unfold FullRun.queued
          dsimp only
          omega
        charge := by
          rw [hout]
          exact List.forall_mem_append.mpr ⟨h.charge, List.forall_mem_singleton.mpr hcharge⟩
        unblocked := by
          intro hh hla
          rw [hout]
          exact List.forall_mem_append.mpr
            ⟨h.unblocked hh hla, List.forall_mem_singleton.mpr (hunblocked hh hla)⟩ }
  · exact
      { config := hg ▸ hconfig₁
        depths := hdepths
        dispatched := by
          rw [hout]
          exact hmem
        count := by
          intro hf
          unfold FullRun.queued
          rw [hg, hout]
          exact hcount hf
        charge := by
          rw [hout]
          exact h.charge
        unblocked := by
          rw [hout]
          exact h.unblocked }

/-- The small requests left once one completes. -/
theorem count_finish (h : Charged depth factor large hard s) {entry : SfqdFullItem × Int}
    {r : DequeueReason SfqdFullQueueItem} (hentry : entry ∈ s.outstanding)
    (hr : r.event = .completeIo) (hown : OwnItem entry.1 r) (hf : factor ≠ 1) :
    (s.g.sched.finish r).smallIos
      = s.queued.countP smallItem + (s.outstanding.erase entry).countP fun e => smallItem e.1 := by
  have hdepth := h.depths _ (h.dispatched entry hentry)
  have hcount := (List.perm_cons_erase hentry).countP_eq fun e => smallItem e.1
  rw [List.countP_cons] at hcount
  rw [hown.finish_small hr, h.count hf, hcount, hdepth]
  cases smallItem entry.1 with
  | true =>
      simp only [if_true]
      push_cast
      omega
  | false => simp [hf]

theorem completes (ha : Agrees s) (h : Charged depth factor large hard s)
    {entry : SfqdFullItem × Int} {r : DequeueReason SfqdFullQueueItem}
    (hentry : entry ∈ s.outstanding) (hr : r.event = .completeIo) (hown : OwnItem entry.1 r)
    (hc : s.Completes entry r s') : Charged depth factor large hard s' := by
  have hconfig := (finish_config s.g.sched r).configured h.config
  have hqueued : (s.g.sched.finish r).queued = s.queued := finish_queued _ _
  have hcount := h.count_finish hentry hr hown
  have hdepths : ∀ it' ∈ s'.enqueued, it'.embedded.depth = if smallItem it' then 1 else factor := by
    rw [hc.enqueued]
    exact h.depths
  have hrest : ∀ e ∈ s.outstanding.erase entry, e ∈ s.outstanding := fun _ =>
    List.mem_of_mem_erase
  have hmem : ∀ e ∈ s.outstanding.erase entry, e.1 ∈ s'.enqueued := by
    intro e he
    rw [hc.enqueued]
    exact h.dispatched e (hrest e he)
  rcases hc.goes with ⟨hrel, hout, -, -⟩ | ⟨it, hl, hout, -, -⟩
  · exact
      { config := hrel.config.configured hconfig
        depths := hdepths
        dispatched := by
          rw [hout]
          exact hmem
        count := by
          intro hf
          unfold FullRun.queued
          rw [hrel.small, hcount hf, hrel.queued, hqueued, hout]
        charge := by
          rw [hout]
          exact fun e he => h.charge e (hrest e he)
        unblocked := by
          intro hh hla
          rw [hout]
          exact fun e he => h.unblocked hh hla e (hrest e he) }
  · obtain ⟨hcharge, hunblocked⟩ := tentative hconfig it.embedded
    have hit : it ∈ s.queued := hqueued ▸ hl.mem
    exact
      { config := hl.config.configured hconfig
        depths := hdepths
        dispatched := by
          rw [hout]
          refine List.forall_mem_append.mpr ⟨hmem, List.forall_mem_singleton.mpr ?_⟩
          rw [hc.enqueued]
          exact queued_enqueued ha hit
        count := by
          intro hf
          have hq := hl.queued_perm.countP_eq smallItem
          rw [List.countP_cons, hqueued] at hq
          rw [hl.small, hcount hf, hout, List.countP_append, List.countP_singleton]
          unfold FullRun.queued at hq ⊢
          dsimp only
          omega
        charge := by
          rw [hout]
          exact List.forall_mem_append.mpr
            ⟨fun e he => h.charge e (hrest e he), List.forall_mem_singleton.mpr hcharge⟩
        unblocked := by
          intro hh hla
          rw [hout]
          exact List.forall_mem_append.mpr ⟨fun e he => h.unblocked hh hla e (hrest e he),
            List.forall_mem_singleton.mpr (hunblocked hh hla)⟩ }

variable {myShare : Int → Int → Int → Int → Int → Int → Int}
  {calculateDiff : Nat → Globals SfqdFull → Int}

theorem step (ha : Agrees s) (h : Charged depth factor large hard s) {e : Event}
    (hok : s.Own e) (hstep : s.step myShare calculateDiff e = .ok s') :
    Charged depth factor large hard s' := by
  cases e with
  | arrive a event size =>
      have hne : event ≠ .completeIo := by
        rcases hok.2.2 with rfl | rfl <;> decide
      obtain ⟨it, g₁, harr⟩ := arrive_cases ha.order hne hstep
      exact h.arrives harr
  | complete entry r =>
      exact h.completes ha hok.1 hok.2.1 hok.2.2 (complete_cases ha.order hstep)
  | retire p =>
      obtain rfl := Except.ok.inj hstep
      exact ⟨h.config, h.depths, h.dispatched, h.count, h.charge, h.unblocked⟩

end Charged

/-! ## The steps of a run in which requests complete as themselves -/

/-- The states reached when every dispatched request completes at most once,
as itself, after the framework handled the last event. -/
abbrev FullRun.Completing := FullRun.Reaches FullRun.Own

section runs

variable {depth factor : Int} {large hard : Bool} {s s' : FullRun}
  {myShare : Int → Int → Int → Int → Int → Int → Int}
  {calculateDiff : Nat → Globals SfqdFull → Int}

/-- What `P` must survive to hold of every state: an arrival and a completion. -/
theorem FullRun.Reaches.charged_invariant {P : FullRun → Prop}
    (h : Completing myShare calculateDiff depth factor large hard s)
    (h0 : ∀ none appStats mem, P (FullRun.init depth factor large hard none appStats mem))
    (harrive : ∀ s a it g₁ s', Agrees s → Charged depth factor large hard s → P s →
      s.Arrives a it g₁ s' → P s')
    (hcomplete : ∀ s entry r s', Agrees s → Charged depth factor large hard s → P s →
      entry ∈ s.outstanding → r.event = .completeIo → OwnItem entry.1 r →
      s.Completes entry r s' → P s')
    (hretire : ∀ s p, P s → P { s with mem := s.mem.free p }) :
    Agrees s ∧ Charged depth factor large hard s ∧ P s := by
  refine h.invariant (P := fun s => Charged depth factor large hard s ∧ P s) (fun _ _ => Own.framed)
    (fun _ _ _ => ⟨.init, h0 _ _ _⟩) ?_
  intro s e s' ha hs hok hstep
  refine ⟨hs.1.step ha hok hstep, ?_⟩
  cases e with
  | arrive a event size =>
      have hne : event ≠ .completeIo := by
        rcases hok.2.2 with rfl | rfl <;> decide
      obtain ⟨it, g₁, harr⟩ := arrive_cases ha.order hne hstep
      exact harrive s a it g₁ s' ha hs.1 hs.2 harr
  | complete entry r =>
      exact hcomplete s entry r s' ha hs.1 hs.2 hok.1 hok.2.1 hok.2.2
        (complete_cases ha.order hstep)
  | retire p =>
      obtain rfl := Except.ok.inj hstep
      exact hretire s p hs.2

end runs

/-! ## Soft mode -/

section soft

variable {depth factor : Int} {large : Bool} {s s' : FullRun}

/-- An item of one slot is charged one slot. -/
theorem SfqdFull.tentative_one {sched : SfqdFull} {e : SfqdFullQueueItem} (h : e.depth = 1) :
    sched.tentativeDepth e = 1 := by
  unfold SfqdFull.tentativeDepth
  rw [h, ite_self]

theorem Charged.small_depth {hard : Bool} (h : Charged depth factor large hard s)
    {it : SfqdFullItem} (hit : it ∈ s.enqueued) (hsmall : smallItem it = true) :
    it.embedded.depth = 1 := by
  rw [h.depths it hit, if_pos hsmall]

/-- Without hard blocking an item is charged more than a slot only while a
small request is counted. -/
theorem SfqdFull.Configured.tentative_ne_one {sched : SfqdFull}
    (h : Configured depth factor large false sched) {e : SfqdFullQueueItem}
    (hne : sched.tentativeDepth e ≠ 1) :
    0 < sched.smallIos ∧ large = true ∧ sched.tentativeDepth e = e.depth ∧ e.depth ≠ 1 := by
  cases large with
  | false => exact absurd (h.tentative_soft e) hne
  | true =>
      rw [h.tentative_large] at hne ⊢
      split at hne
      · rename_i hpos
        exact ⟨hpos, rfl, if_pos hpos, hne⟩
      · exact absurd rfl hne

theorem SfqdFull.fits_iff {sched : SfqdFull} {reduceDepth : Int} {it : SfqdFullItem} :
    sched.fits reduceDepth it = true
      ↔ sched.tentativeDepth it.embedded + sched.currentDepth - reduceDepth ≤ sched.depth :=
  decide_eq_true_iff

/-- Without hard blocking the depth is never exceeded, and with nothing
outstanding a slot is free and nothing waits. -/
structure Live (s : FullRun) : Prop where
  bound : s.g.sched.currentDepth ≤ s.g.sched.depth
  idle : s.outstanding = [] → s.queued = [] ∧ s.g.sched.currentDepth < s.g.sched.depth

namespace Live

theorem init (hd : 1 ≤ depth) {none : Bool} {appStats : Nat → AppStatistics}
    {mem : Mem SfqdFullQueueItem} :
    Live (FullRun.init depth factor large false none appStats mem) where
  bound := by
    show (0 : Int) ≤ depth
    omega
  idle _ := by
    refine ⟨rfl, ?_⟩
    show (0 : Int) < depth
    omega

/-- A request that arrives with nothing outstanding is charged one slot. -/
theorem charge_idle (h : Live s) (hch : Charged depth factor large false s)
    {a : Arrival SfqdFullQueueItem} {it : SfqdFullItem} {g₁ : Globals SfqdFull}
    (ha : s.Arrives a it g₁ s') (hidle : s.outstanding = []) :
    g₁.sched.tentativeDepth it.embedded = 1 := by
  have hconfig₁ := ha.enters.config.configured hch.config
  have hdepth : it.embedded.depth = if smallItem it then 1 else factor := by
    rw [ha.enters.depth, hch.config.isSmall, hch.config.factor]
  by_contra hne
  obtain ⟨hpos, -, -, hdne⟩ := hconfig₁.tentative_ne_one hne
  cases hsmall : smallItem it with
  | true =>
      rw [hsmall] at hdepth
      exact hdne hdepth
  | false =>
      rw [hsmall] at hdepth
      -- the only small requests counted are queued or outstanding
      have hf : factor ≠ 1 := fun hf => hdne (hdepth.trans hf)
      have hcount := hch.count hf
      rw [(h.idle hidle).1, hidle] at hcount
      rw [ha.enters.small, hch.config.isSmall, hsmall, hcount] at hpos
      exact absurd hpos (by simp)

theorem arrives (h : Live s) (hch : Charged depth factor large false s)
    {a : Arrival SfqdFullQueueItem} {it : SfqdFullItem} {g₁ : Globals SfqdFull}
    (ha : s.Arrives a it g₁ s') : Live s' := by
  rcases ha.goes with ⟨hl, hout, -, -⟩ | ⟨hfind, hg, hout, -, -⟩
  · have hfit := SfqdFull.fits_iff.mp hl.fits
    refine ⟨?_, ?_⟩
    · rw [hl.current, hl.config.depth]
      omega
    · intro hnil
      rw [hout] at hnil
      exact absurd hnil (by simp)
  · refine ⟨?_, ?_⟩
    · rw [hg, ha.enters.current, ha.enters.config.depth]
      exact h.bound
    · intro hnil
      rw [hout] at hnil
      obtain ⟨hqnil, hroom⟩ := h.idle hnil
      refine absurd ?_ hfind
      have hone : g₁.sched.queued = [it] := by
        have hperm := ha.enters.queued_perm
        rw [show s.g.sched.queued = [] from hqnil] at hperm
        exact List.perm_singleton.mp hperm
      have hfit : g₁.sched.fits 0 it = true := by
        rw [SfqdFull.fits_iff, h.charge_idle hch ha hnil, ha.enters.current,
          ha.enters.config.depth]
        omega
      rw [hone, List.find?_singleton, if_pos hfit]

theorem completes (ha : Agrees s) (h : Live s) (hch : Charged depth factor large false s)
    {entry : SfqdFullItem × Int} {r : DequeueReason SfqdFullQueueItem}
    (hentry : entry ∈ s.outstanding) (hr : r.event = .completeIo) (hown : OwnItem entry.1 r)
    (hc : s.Completes entry r s') : Live s' := by
  have hconfig := (finish_config s.g.sched r).configured hch.config
  have hreduce : s.g.sched.reduceDepth r = 1 := by
    rw [hown.reduceDepth hr, hch.config.hard]
    rfl
  have hbound := h.bound
  have hcurrent : (s.g.sched.finish r).currentDepth = s.g.sched.currentDepth := finish_current _ _
  have hdepth : (s.g.sched.finish r).depth = s.g.sched.depth := (finish_config _ r).depth
  rcases hc.goes with ⟨hrel, hout, -, -⟩ | ⟨it, hl, hout, -, -⟩
  · have hnofit : ∀ it ∈ s.queued, 1 < (s.g.sched.finish r).tentativeDepth it.embedded := by
      intro it hit
      have hno := List.find?_eq_none.mp hrel.found it (by rw [finish_queued]; exact hit)
      rw [SfqdFull.fits_iff, hreduce, hcurrent, hdepth] at hno
      omega
    refine ⟨?_, ?_⟩
    · rw [hrel.current, hrel.config.depth, hreduce]
      omega
    · intro hnil
      rw [hout] at hnil
      refine ⟨?_, ?_⟩
      · by_contra hne
        rw [show s'.queued = s.queued from hrel.queued.trans (finish_queued _ _)] at hne
        obtain ⟨it, hit⟩ := List.exists_mem_of_ne_nil _ hne
        have hcharge := hnofit it hit
        obtain ⟨hpos, -, hdep, hdne⟩ := hconfig.tentative_ne_one (Int.ne_of_gt hcharge)
        have hf : factor ≠ 1 := by
          intro hf
          have := hch.depths it (Charged.queued_enqueued ha hit)
          rw [hf, ite_self] at this
          exact hdne this
        -- a small request is counted, so it waits, and it would fit
        rw [hch.count_finish hentry hr hown hf, hnil] at hpos
        obtain ⟨y, hy, hsmall⟩ := List.countP_pos_iff.mp
          (show 0 < s.queued.countP smallItem by
            rw [List.countP_nil] at hpos
            omega)
        have hone := hch.small_depth (Charged.queued_enqueued ha hy) hsmall
        have hy' := hnofit y hy
        rw [SfqdFull.tentative_one hone] at hy'
        omega
      · rw [hrel.current, hrel.config.depth, hreduce]
        omega
  · have hfit := SfqdFull.fits_iff.mp hl.fits
    refine ⟨?_, ?_⟩
    · rw [hl.current, hl.config.depth]
      omega
    · intro hnil
      rw [hout] at hnil
      exact absurd hnil (by simp)

end Live

end soft

/-! ## The books -/

/-- The current depth is what the outstanding requests were charged. -/
def Balanced (s : FullRun) : Prop :=
  s.g.sched.currentDepth = (s.outstanding.map (·.2)).sum

theorem sum_erase {entry : SfqdFullItem × Int} {l : List (SfqdFullItem × Int)}
    (h : entry ∈ l) : ((l.erase entry).map (·.2)).sum = (l.map (·.2)).sum - entry.2 := by
  rw [((List.perm_cons_erase h).map (·.2)).sum_eq, List.map_cons, List.sum_cons]
  omega

section books

variable {depth factor : Int} {large hard : Bool} {s s' : FullRun}

theorem balanced_arrive {a : Arrival SfqdFullQueueItem} {it : SfqdFullItem}
    {g₁ : Globals SfqdFull} (h : Balanced s) (ha : s.Arrives a it g₁ s') : Balanced s' := by
  unfold Balanced at h ⊢
  rcases ha.goes with ⟨hl, hout, -, -⟩ | ⟨-, hg, hout, -, -⟩
  · rw [hl.current, ha.enters.current, hout, h, List.map_append, List.sum_append]
    simp
  · rw [hg, ha.enters.current, hout, h]

/-- A completion keeps them exactly when it gives back what was charged. -/
theorem balanced_complete (hch : Charged depth factor large hard s)
    {entry : SfqdFullItem × Int} {r : DequeueReason SfqdFullQueueItem}
    (hentry : entry ∈ s.outstanding) (hr : r.event = .completeIo) (hown : OwnItem entry.1 r)
    (hc : s.Completes entry r s') (h : Balanced s) :
    Balanced s' ↔ entry.2 = release hard entry := by
  have hreduce : s.g.sched.reduceDepth r = release hard entry := by
    rw [hown.reduceDepth hr, hch.config.hard]
  have hcurrent : (s.g.sched.finish r).currentDepth = s.g.sched.currentDepth := finish_current _ _
  unfold Balanced at h ⊢
  rcases hc.goes with ⟨hrel, hout, -, -⟩ | ⟨it, hl, hout, -, -⟩
  · rw [hrel.current, hcurrent, hreduce, hout, sum_erase hentry, h]
    omega
  · rw [hl.current, hcurrent, hreduce, hout, List.map_append, List.sum_append, sum_erase hentry, h]
    simp only [List.map_cons, List.map_nil, List.sum_cons, List.sum_nil]
    omega

/-- `c` is what the completion of `it` will give back. -/
def Exact (hard : Bool) (it : SfqdFullItem) (c : Int) : Prop := c = release hard (it, c) ∧ 0 ≤ c

/-- The books are kept within the depth, and every charge will be given back. -/
structure Books (hard : Bool) (s : FullRun) : Prop where
  balanced : Balanced s
  bound : s.g.sched.currentDepth ≤ s.g.sched.depth
  exact : ∀ e ∈ s.outstanding, Exact hard e.1 e.2

namespace Books

theorem nonneg (h : Books hard s) : 0 ≤ s.g.sched.currentDepth := by
  rw [h.balanced]
  refine List.sum_nonneg ?_
  intro c hc
  obtain ⟨e, he, rfl⟩ := List.mem_map.mp hc
  exact (h.exact e he).2

theorem empty (h : Books hard s) (hnil : s.outstanding = []) : s.g.sched.currentDepth = 0 := by
  rw [h.balanced, hnil]
  rfl

/-- Without hard blocking every charge is one slot. -/
theorem length (h : Books false s) : s.g.sched.currentDepth = s.outstanding.length := by
  have hone : ∀ c ∈ s.outstanding.map (·.2), c = 1 := by
    intro c hc
    obtain ⟨e, he, rfl⟩ := List.mem_map.mp hc
    exact (h.exact e he).1
  rw [h.balanced, List.eq_replicate_of_mem hone]
  simp

theorem init (hd : 0 ≤ depth) {none : Bool} {appStats : Nat → AppStatistics}
    {mem : Mem SfqdFullQueueItem} :
    Books hard (FullRun.init depth factor large hard none appStats mem) where
  balanced := rfl
  bound := hd
  exact e h := by cases h

theorem arrives (h : Books hard s) {a : Arrival SfqdFullQueueItem} {it : SfqdFullItem}
    {g₁ : Globals SfqdFull} (ha : s.Arrives a it g₁ s')
    (hnew : Leaves g₁.sched 0 it s'.g.sched → Exact hard it (g₁.sched.tentativeDepth it.embedded)) :
    Books hard s' := by
  refine ⟨balanced_arrive h.balanced ha, ?_, ?_⟩
  · rcases ha.goes with ⟨hl, -, -, -⟩ | ⟨-, hg, -, -, -⟩
    · have hfit := SfqdFull.fits_iff.mp hl.fits
      rw [hl.current, hl.config.depth]
      omega
    · rw [hg, ha.enters.current, ha.enters.config.depth]
      exact h.bound
  · rcases ha.goes with ⟨hl, hout, -, -⟩ | ⟨-, -, hout, -, -⟩
    · rw [hout]
      exact List.forall_mem_append.mpr ⟨h.exact, List.forall_mem_singleton.mpr (hnew hl)⟩
    · rw [hout]
      exact h.exact

theorem completes (h : Books hard s) (hch : Charged depth factor large hard s)
    {entry : SfqdFullItem × Int} {r : DequeueReason SfqdFullQueueItem}
    (hentry : entry ∈ s.outstanding) (hr : r.event = .completeIo) (hown : OwnItem entry.1 r)
    (hc : s.Completes entry r s')
    (hnew : ∀ it, Leaves (s.g.sched.finish r) (release hard entry) it s'.g.sched →
      Exact hard it ((s.g.sched.finish r).tentativeDepth it.embedded)) : Books hard s' := by
  obtain ⟨hexact, hpos⟩ := h.exact entry hentry
  have hreduce : s.g.sched.reduceDepth r = release hard entry := by
    rw [hown.reduceDepth hr, hch.config.hard]
  have hcurrent : (s.g.sched.finish r).currentDepth = s.g.sched.currentDepth := finish_current _ _
  have hdepth : (s.g.sched.finish r).depth = s.g.sched.depth := (finish_config _ r).depth
  refine ⟨(balanced_complete hch hentry hr hown hc h.balanced).mpr hexact, ?_, ?_⟩
  · rcases hc.goes with ⟨hrel, -, -, -⟩ | ⟨it, hl, -, -, -⟩
    · have := h.bound
      have : 0 ≤ release hard entry := hexact ▸ hpos
      rw [hrel.current, hrel.config.depth, hreduce]
      omega
    · have hfit := SfqdFull.fits_iff.mp hl.fits
      rw [hl.current, hl.config.depth]
      omega
  · have hrest : ∀ e ∈ s.outstanding.erase entry, Exact hard e.1 e.2 :=
      fun e he => h.exact e (List.mem_of_mem_erase he)
    rcases hc.goes with ⟨-, hout, -, -⟩ | ⟨it, hl, hout, -, -⟩
    · rw [hout]
      exact hrest
    · rw [hreduce] at hl
      rw [hout]
      exact List.forall_mem_append.mpr ⟨hrest, List.forall_mem_singleton.mpr (hnew it hl)⟩

variable {myShare : Int → Int → Int → Int → Int → Int → Int}
  {calculateDiff : Nat → Globals SfqdFull → Int}

/-- Where the charge never depends on the state the books are kept. -/
theorem of_uniform (hd : 0 ≤ depth)
    (hcharge : ∀ sched it, Configured depth factor large hard sched →
      (it.embedded.depth = if smallItem it then 1 else factor) →
      Exact hard it (sched.tentativeDepth it.embedded))
    (h : Completing myShare calculateDiff depth factor large hard s) : Books hard s := by
  refine (h.charged_invariant (P := Books hard) (fun _ _ _ => .init hd) ?_ ?_ ?_).2.2
  · intro s a it g₁ s' ha hch hb harr
    refine hb.arrives harr fun _ => hcharge _ _ (harr.enters.config.configured hch.config) ?_
    rw [harr.enters.depth, hch.config.isSmall, hch.config.factor]
  · intro s entry r s' ha hch hb hentry hr hown hc
    refine hb.completes hch hentry hr hown hc fun it hl => ?_
    refine hcharge _ _ ((finish_config _ r).configured hch.config) (hch.depths it ?_)
    exact Charged.queued_enqueued ha (by simpa [FullRun.queued] using hl.mem)
  · intro s p hb
    exact ⟨hb.balanced, hb.bound, hb.exact⟩

end Books

theorem one_le_tentative (sched : SfqdFull) (hf : 1 ≤ factor) {it : SfqdFullItem}
    (hdepth : it.embedded.depth = if smallItem it then 1 else factor) :
    1 ≤ sched.tentativeDepth it.embedded := by
  have hone : 1 ≤ it.embedded.depth := by
    rw [hdepth]
    split
    · exact Int.le_refl 1
    · exact hf
  unfold SfqdFull.tentativeDepth
  split
  · exact hone
  · exact Int.le_refl 1

/-- With no slots nothing is ever dispatched. -/
theorem Books.of_no_slots (hf : 1 ≤ factor)
    (h : Completing myShare calculateDiff 0 factor large false s) : Books false s := by
  refine (h.charged_invariant (P := Books false) (fun _ _ _ => .init (Int.le_refl 0)) ?_ ?_ ?_).2.2
  · intro s a it g₁ s' ha hch hb harr
    refine hb.arrives harr fun hl => ?_
    exfalso
    have hdepth : it.embedded.depth = if smallItem it then 1 else factor := by
      rw [harr.enters.depth, hch.config.isSmall, hch.config.factor]
    have hone := one_le_tentative g₁.sched hf hdepth
    have hfit := SfqdFull.fits_iff.mp hl.fits
    rw [harr.enters.config.depth, hch.config.depth, harr.enters.current] at hfit
    have := hb.nonneg
    omega
  · intro s entry r s' ha hch hb hentry hr hown hc
    refine hb.completes hch hentry hr hown hc fun it hl => ?_
    exfalso
    have hlen := hb.length
    have hbound := hb.bound
    have hpos := List.length_pos_of_mem hentry
    rw [hch.config.depth] at hbound
    omega
  · intro s p hb
    exact ⟨hb.balanced, hb.bound, hb.exact⟩

/-- While a small request waits no slot is free. -/
def Full (s : FullRun) : Prop :=
  ∀ it ∈ s.queued, smallItem it = true → s.g.sched.depth ≤ s.g.sched.currentDepth

section blocking

/-- A large request needs all the slots, so it goes alone and is charged one
slot only. -/
theorem charge_arriving (hdf : depth ≤ factor)
    (hch : Charged depth factor true false s) (hb : Books false s) (hlive : Live s)
    {a : Arrival SfqdFullQueueItem} {it : SfqdFullItem} {g₁ : Globals SfqdFull}
    (ha : s.Arrives a it g₁ s') (hl : Leaves g₁.sched 0 it s'.g.sched) :
    g₁.sched.tentativeDepth it.embedded = 1 := by
  by_contra hne
  have hconfig₁ := ha.enters.config.configured hch.config
  obtain ⟨-, -, hcharge, hdne⟩ := hconfig₁.tentative_ne_one hne
  have hdepth : it.embedded.depth = if smallItem it then 1 else factor := by
    rw [ha.enters.depth, hch.config.isSmall, hch.config.factor]
  have hlarge : it.embedded.depth = factor := by
    rw [hdepth] at hdne ⊢
    split at hdne
    · exact absurd rfl hdne
    · rename_i hsmall
      rw [if_neg hsmall]
  have hfit := SfqdFull.fits_iff.mp hl.fits
  rw [hcharge, hlarge, hconfig₁.depth, ha.enters.current, hb.length] at hfit
  have hnil : s.outstanding = [] := List.length_eq_zero_iff.mp (by omega)
  exact hne (hlive.charge_idle hch ha hnil)

theorem charge_completing (hf : 1 < factor) (hdf : depth ≤ factor) (ha : Agrees s)
    (hch : Charged depth factor true false s) (hb : Books false s) (hfull : Full s)
    {entry : SfqdFullItem × Int} {r : DequeueReason SfqdFullQueueItem}
    (hentry : entry ∈ s.outstanding) (hr : r.event = .completeIo) (hown : OwnItem entry.1 r)
    {it : SfqdFullItem} (hl : Leaves (s.g.sched.finish r) 1 it s'.g.sched) :
    (s.g.sched.finish r).tentativeDepth it.embedded = 1 := by
  by_contra hne
  have hconfig := (finish_config s.g.sched r).configured hch.config
  obtain ⟨hpos, -, hcharge, hdne⟩ := hconfig.tentative_ne_one hne
  have hit : it ∈ s.queued := by simpa [FullRun.queued] using hl.mem
  have hlarge : it.embedded.depth = factor := by
    have hdepth := hch.depths it (Charged.queued_enqueued ha hit)
    rw [hdepth] at hdne ⊢
    split at hdne
    · exact absurd rfl hdne
    · rename_i hsmall
      rw [if_neg hsmall]
  have hfit := SfqdFull.fits_iff.mp hl.fits
  rw [hcharge, hlarge, hconfig.depth, finish_current, hb.length] at hfit
  have hlen := List.length_erase_of_mem hentry
  have hone := List.length_pos_of_mem hentry
  have hnil : s.outstanding.erase entry = [] := List.length_eq_zero_iff.mp (by omega)
  -- the small request counted waits, so the depth was used up by one request
  rw [hch.count_finish hentry hr hown (by omega), hnil] at hpos
  obtain ⟨y, hy, hsmall⟩ := List.countP_pos_iff.mp
    (show 0 < s.queued.countP smallItem by
      rw [List.countP_nil] at hpos
      omega)
  have hused := hfull y hy hsmall
  rw [hch.config.depth, hb.length] at hused
  omega

theorem Full.arrives (hf : 1 < factor) (hdf : depth ≤ factor) (ha : Agrees s)
    (hch : Charged depth factor true false s) (hb : Books false s) (hlive : Live s) (h : Full s)
    {a : Arrival SfqdFullQueueItem} {it : SfqdFullItem} {g₁ : Globals SfqdFull}
    (harr : s.Arrives a it g₁ s') : Full s' := by
  have hconfig₁ := harr.enters.config.configured hch.config
  have hdepths : ∀ y ∈ g₁.sched.queued,
      y.embedded.depth = if smallItem y then 1 else factor := by
    intro y hy
    rcases List.mem_append.mp (harr.enters.queued_perm.mem_iff.mp hy) with hold | hnew
    · exact hch.depths y (Charged.queued_enqueued ha hold)
    · rw [List.mem_singleton.mp hnew, harr.enters.depth, hch.config.isSmall, hch.config.factor]
  rcases harr.goes with ⟨hl, -, -, -⟩ | ⟨hfind, hg, -, -, -⟩
  · intro y hy hsmall
    have hmem : y ∈ s.queued := by
      have hcons : (it :: s'.queued).Perm (it :: s.queued) :=
        (hl.queued_perm.trans harr.enters.queued_perm).trans List.perm_append_comm
      exact (List.Perm.cons_inv hcons).mem_iff.mp hy
    have hused := h y hmem hsmall
    have hone := one_le_tentative g₁.sched (by omega) (hdepths it hl.mem)
    have hfit := SfqdFull.fits_iff.mp hl.fits
    rw [harr.enters.config.depth, harr.enters.current] at hfit
    omega
  · intro y hy hsmall
    rw [hg, harr.enters.config.depth, harr.enters.current]
    have hy₁ : y ∈ g₁.sched.queued := by
      rw [← hg]
      exact hy
    rcases List.mem_append.mp (harr.enters.queued_perm.mem_iff.mp hy₁) with hold | hnew
    · exact h y hold hsmall
    obtain rfl : y = it := List.mem_singleton.mp hnew
    by_contra hroom
    -- the new request fits, so another one does, which can only be a large one
    have hydepth : y.embedded.depth = 1 := by rw [hdepths y hy₁, if_pos hsmall]
    have hfit : g₁.sched.fits 0 y = true := by
      rw [SfqdFull.fits_iff, SfqdFull.tentative_one hydepth, harr.enters.current,
        harr.enters.config.depth]
      omega
    cases hfound : g₁.sched.queued.find? (g₁.sched.fits 0) with
    | none => exact List.find?_eq_none.mp hfound y hy₁ hfit
    | some x =>
        have hx := List.mem_of_find?_eq_some hfound
        have hxfit := SfqdFull.fits_iff.mp (List.find?_some hfound)
        have hxold : x ∈ s.queued := by
          rcases List.mem_append.mp (harr.enters.queued_perm.mem_iff.mp hx) with hold | hnew
          · exact hold
          · rw [List.mem_singleton.mp hnew] at hfound
            exact absurd hfound hfind
        rw [harr.enters.current, harr.enters.config.depth] at hxfit
        have hxlarge : smallItem x = false := by
          by_contra hxsmall
          have hused := h x hxold (by simpa using hxsmall)
          have := one_le_tentative g₁.sched (by omega) (hdepths x hx)
          omega
        have hpos : 0 < g₁.sched.smallIos := by
          rw [harr.enters.small, hch.config.isSmall, hsmall, hch.count (by omega)]
          simp only [if_true]
          omega
        rw [hconfig₁.tentative_large, if_pos hpos, hdepths x hx, hxlarge, hb.length,
          hch.config.depth] at hxfit
        have hnil : s.outstanding = [] :=
          List.length_eq_zero_iff.mp (by
            simp only [Bool.false_eq_true, if_false] at hxfit
            omega)
        rw [(hlive.idle hnil).1] at hxold
        cases hxold

theorem Full.completes (hf : 1 ≤ factor) (ha : Agrees s)
    (hch : Charged depth factor true false s) (hb : Books false s) (h : Full s)
    {entry : SfqdFullItem × Int} {r : DequeueReason SfqdFullQueueItem}
    (hr : r.event = .completeIo) (hown : OwnItem entry.1 r)
    (hc : s.Completes entry r s') : Full s' := by
  have hreduce : s.g.sched.reduceDepth r = 1 := by
    rw [hown.reduceDepth hr, hch.config.hard]
    rfl
  have hcurrent : (s.g.sched.finish r).currentDepth = s.g.sched.currentDepth := finish_current _ _
  have hdepth : (s.g.sched.finish r).depth = s.g.sched.depth := (finish_config _ r).depth
  intro y hy hsmall
  rcases hc.goes with ⟨hrel, -, -, -⟩ | ⟨it, hl, -, -, -⟩
  · exfalso
    have hsame : s'.queued = s.queued := hrel.queued.trans (finish_queued _ _)
    have hmem : y ∈ s.queued := hsame ▸ hy
    have hone := hch.small_depth (Charged.queued_enqueued ha hmem) hsmall
    have hno := List.find?_eq_none.mp hrel.found y (by rw [finish_queued]; exact hmem)
    rw [SfqdFull.fits_iff, SfqdFull.tentative_one hone, hreduce, hcurrent, hdepth] at hno
    have := hb.bound
    omega
  · have hmem : ∀ x ∈ it :: s'.queued, x ∈ s.queued := by
      intro x hx
      have := hl.queued_perm.mem_iff.mp hx
      rwa [finish_queued] at this
    have hused := h y (hmem y (List.mem_cons_of_mem _ hy)) hsmall
    have hone := one_le_tentative (s.g.sched.finish r) hf
      (hch.depths it (Charged.queued_enqueued ha (hmem it (List.mem_cons_self ..))))
    rw [hl.config.depth, hl.current, hreduce, hcurrent, hdepth]
    omega

/-- With large-I/O blocking the books are kept where a large request needs at
least the whole depth. -/
theorem Books.of_whole_depth (hd : 1 ≤ depth) (hf : 1 < factor) (hdf : depth ≤ factor)
    (h : Completing myShare calculateDiff depth factor true false s) : Books false s := by
  refine (h.charged_invariant (P := fun s => Books false s ∧ Live s ∧ Full s)
    (fun _ _ _ => ⟨.init (by omega), .init hd, fun it hit => by cases hit⟩) ?_ ?_ ?_).2.2.1
  · rintro s a it g₁ s' ha hch ⟨hb, hlive, hfull⟩ harr
    refine ⟨hb.arrives harr fun hl => ?_, hlive.arrives hch harr,
      hfull.arrives hf hdf ha hch hb hlive harr⟩
    rw [charge_arriving hdf hch hb hlive harr hl]
    exact ⟨rfl, by decide⟩
  · rintro s entry r s' ha hch ⟨hb, hlive, hfull⟩ hentry hr hown hc
    refine ⟨hb.completes hch hentry hr hown hc fun it hl => ?_,
      hlive.completes ha hch hentry hr hown hc,
      hfull.completes (by omega) ha hch hb hr hown hc⟩
    rw [charge_completing hf hdf ha hch hb hfull hentry hr hown hl]
    exact ⟨rfl, by decide⟩
  · rintro s p ⟨hb, hlive, hfull⟩
    exact ⟨⟨hb.balanced, hb.bound, hb.exact⟩, ⟨hlive.bound, hlive.idle⟩, hfull⟩

end blocking

end books

/-! ## Which configurations keep them -/

/-- The current depth is what the outstanding requests were charged, lies
within the depth, and is 0 when nothing is outstanding. -/
structure DepthAccounted (s : FullRun) : Prop where
  balanced : Balanced s
  nonneg : 0 ≤ s.g.sched.currentDepth
  bound : s.g.sched.currentDepth ≤ s.g.sched.depth
  idle : s.outstanding = [] → s.g.sched.currentDepth = 0

theorem Books.accounted {hard : Bool} {s : FullRun} (h : Books hard s) : DepthAccounted s :=
  ⟨h.balanced, h.nonneg, h.bound, h.empty⟩

/-- The configurations in which every charge is given back: the depth is not
negative; with hard blocking neither is the large factor; without it, either
large-I/O blocking is off, or a large request is worth one slot or the whole
depth. -/
def DepthSafe (depth factor : Int) (large hard : Bool) : Prop :=
  0 ≤ depth ∧ (hard = true → 0 ≤ factor)
    ∧ (hard = false → large = true → 1 ≤ factor ∧ (factor = 1 ∨ depth ≤ factor))

section accounting

variable {depth factor : Int} {large hard : Bool} {s : FullRun}
  {myShare : Int → Int → Int → Int → Int → Int → Int}
  {calculateDiff : Nat → Globals SfqdFull → Int}

theorem DepthSafe.books (hsafe : DepthSafe depth factor large hard)
    (h : Completing myShare calculateDiff depth factor large hard s) : Books hard s := by
  obtain ⟨hd, hhard, hsoft⟩ := hsafe
  cases hard with
  | true =>
      refine Books.of_uniform hd ?_ h
      intro sched it hconfig hdepth
      have hf := hhard rfl
      rw [hconfig.tentative_hard]
      refine ⟨rfl, ?_⟩
      rw [hdepth]
      split
      · decide
      · exact hf
  | false =>
      cases large with
      | false =>
          refine Books.of_uniform hd ?_ h
          intro sched it hconfig _
          rw [hconfig.tentative_soft]
          exact ⟨rfl, by decide⟩
      | true =>
          obtain ⟨hf, hone | hdf⟩ := hsoft rfl rfl
          · refine Books.of_uniform hd ?_ h
            intro sched it _ hdepth
            rw [hone, ite_self] at hdepth
            rw [SfqdFull.tentative_one hdepth]
            exact ⟨rfl, by decide⟩
          · rcases Int.lt_or_eq_of_le hd with hpos | rfl
            · rcases Int.lt_or_eq_of_le hf with hlt | rfl
              · exact Books.of_whole_depth hpos hlt hdf h
              · refine Books.of_uniform hd ?_ h
                intro sched it _ hdepth
                rw [ite_self] at hdepth
                rw [SfqdFull.tentative_one hdepth]
                exact ⟨rfl, by decide⟩
            · exact Books.of_no_slots hf h

theorem FullRun.Completing.charged
    (h : Completing myShare calculateDiff depth factor large hard s) :
    Agrees s ∧ Charged depth factor large hard s := by
  have hall := h.charged_invariant (P := fun _ => True) (fun _ _ _ => trivial)
    (fun _ _ _ _ _ _ _ _ _ => trivial) (fun _ _ _ _ _ _ _ _ _ _ _ => trivial)
    fun _ _ _ => trivial
  exact ⟨hall.1, hall.2.1⟩

/-- A request of positive weight may arrive at any time. -/
theorem FullRun.Completing.arrival
    (h : Completing myShare calculateDiff depth factor large hard s)
    {a : Arrival SfqdFullQueueItem} (hfresh : s.mem a.rs = none)
    (hunlocked : a.newRs.locked = false)
    (hw : 0 < (a.pool a.index).weight) :
    ∃ e s' it g₁, s.Own e ∧ s.step myShare calculateDiff e = .ok s' ∧ s.Arrives a it g₁ s' := by
  obtain ⟨hagrees, -⟩ := h.charged
  have hadmitted : ∃ s', s.arrive myShare calculateDiff a .newIo a.pi.currentDataSize = .ok s' :=
    arrive_ok hagrees.queue hw _ _
  obtain ⟨s', hs'⟩ := hadmitted
  obtain ⟨it, g₁, harr⟩ := arrive_cases hagrees.order (by decide) hs'
  exact ⟨.arrive a .newIo a.pi.currentDataSize, s', it, g₁, ⟨hfresh, hunlocked, .inl rfl⟩, hs',
    harr⟩

/-- An outstanding request may complete at any time. -/
theorem FullRun.Completing.completion
    (h : Completing myShare calculateDiff depth factor large hard s)
    {entry : SfqdFullItem × Int} (hentry : entry ∈ s.outstanding) :
    ∃ s' r, s.Own (.complete entry r)
      ∧ s.step myShare calculateDiff (.complete entry r) = .ok s' ∧ s.Completes entry r s' := by
  obtain ⟨hagrees, -⟩ := h.charged
  generalize hr : DequeueReason.mk .completeIo 0 0 (some entry.1) = r
  have hev : r.event = .completeIo := by rw [← hr]
  have hown : OwnItem entry.1 r := by
    rw [← hr]
    exact decide_eq_true ⟨rfl, rfl⟩
  have hcompleted : ∃ s', s.complete myShare calculateDiff entry r = .ok s' :=
    complete_ok hagrees.order entry r fun it hit => (hagrees.locked _).mpr ⟨it, hit, rfl⟩
  obtain ⟨s', hs'⟩ := hcompleted
  exact ⟨s', r, ⟨hentry, hev, hown⟩, hs', complete_cases hagrees.order hs'⟩

/-- Books that never fail give back every charge. -/
theorem exact_of_accounted
    (hall : ∀ s, Completing myShare calculateDiff depth factor large hard s → DepthAccounted s)
    (h : Completing myShare calculateDiff depth factor large hard s)
    {entry : SfqdFullItem × Int} (hentry : entry ∈ s.outstanding) :
    entry.2 = release hard entry := by
  obtain ⟨s', r, hok, hstep, hc⟩ := h.completion hentry
  exact (balanced_complete h.charged.2 hentry hok.2.1 hok.2.2 hc (hall s h).balanced).mp
    (hall s' (h.snoc hok hstep)).balanced

/-- A large request that arrives when no other fits is dispatched. -/
theorem large_dispatched {a : Arrival SfqdFullQueueItem} {it : SfqdFullItem}
    {g₁ : Globals SfqdFull} {s' : FullRun} (ha : s.Arrives a it g₁ s')
    (hfit : g₁.sched.fits 0 it = true) (hno : ∀ y ∈ s.queued, g₁.sched.fits 0 y = false) :
    Leaves g₁.sched 0 it s'.g.sched
      ∧ s'.outstanding = s.outstanding ++ [(it, g₁.sched.tentativeDepth it.embedded)] := by
  have hmem : it ∈ g₁.sched.queued := by
    rw [ha.enters.queued_perm.mem_iff]
    exact List.mem_append_right _ (List.mem_cons_self ..)
  have hfind : g₁.sched.queued.find? (g₁.sched.fits 0) = some it := by
    cases hfound : g₁.sched.queued.find? (g₁.sched.fits 0) with
    | none => exact absurd hfit (List.find?_eq_none.mp hfound it hmem)
    | some y =>
        have hy := List.mem_of_find?_eq_some hfound
        rcases List.mem_append.mp (ha.enters.queued_perm.mem_iff.mp hy) with hold | hnew
        · have := (hno y hold).symm.trans (List.find?_some hfound)
          cases this
        · rw [List.mem_singleton.mp hnew]
  rcases ha.goes with ⟨hl, hout, -, -⟩ | ⟨hne, -⟩
  · exact ⟨hl, hout⟩
  · exact absurd hfind hne

/-- With hard blocking and a negative factor a large request takes the depth
below zero. -/
theorem not_accounted_hard (myShare : Int → Int → Int → Int → Int → Int → Int)
    (calculateDiff : Nat → Globals SfqdFull → Int) (large : Bool) (hd : 0 ≤ depth)
    (hf : factor < 0) :
    ∃ s, Completing myShare calculateDiff depth factor large true s ∧ ¬ DepthAccounted s := by
  have hinit : Completing myShare calculateDiff depth factor large true _ :=
    Reaches.init (fun _ => none) fun _ => rfl
  obtain ⟨e, s, y, g₁, hok, hstep, harr⟩ := hinit.arrival (a := fullSize true (fullArrival 1 0))
    rfl rfl (by decide)
  have hs : Completing myShare calculateDiff depth factor large true s := hinit.snoc hok hstep
  have hconfig₁ := harr.enters.config.configured hinit.charged.2.config
  have hdepth : y.embedded.depth = factor := by
    rw [harr.enters.depth, hinit.charged.2.config.isSmall, smallItem, harr.taskSize]
    rfl
  have hcurrent : g₁.sched.currentDepth = 0 := harr.enters.current
  have hfit : g₁.sched.fits 0 y = true := by
    rw [SfqdFull.fits_iff, hconfig₁.tentative_hard, hdepth, hcurrent, hconfig₁.depth]
    omega
  obtain ⟨hl, -⟩ := large_dispatched harr hfit (by intro y hy; cases hy)
  refine ⟨s, hs, fun hacc => ?_⟩
  have hneg := hacc.nonneg
  rw [hl.current, hcurrent, hconfig₁.tentative_hard, hdepth] at hneg
  omega

/-- Without hard blocking a large request dispatched while a small one is
counted is charged more, or less, than it gives back. -/
theorem not_accounted_soft (myShare : Int → Int → Int → Int → Int → Int → Int)
    (calculateDiff : Nat → Globals SfqdFull → Int) (hd : 0 ≤ depth) (hne : factor ≠ 1)
    (hdf : factor < 1 ∨ factor < depth) :
    ∃ s, Completing myShare calculateDiff depth factor true false s ∧ ¬ DepthAccounted s := by
  by_contra hall
  have hall : ∀ s, Completing myShare calculateDiff depth factor true false s →
      DepthAccounted s := by
    intro s hs
    by_contra hacc
    exact hall ⟨s, hs, hacc⟩
  have hinit : Completing myShare calculateDiff depth factor true false _ :=
    Reaches.init (fun _ => none) fun _ => rfl
  obtain ⟨e, s, x, g₁, hok, hstep, harr⟩ := hinit.arrival (a := fullArrival 1 0) rfl rfl (by decide)
  have hs : Completing myShare calculateDiff depth factor true false s := hinit.snoc hok hstep
  have hconfig₁ := harr.enters.config.configured hinit.charged.2.config
  have hxone : x.embedded.depth = 1 := by
    rw [harr.enters.depth, hinit.charged.2.config.isSmall, smallItem, harr.taskSize]
    rfl
  have hsmall₁ : g₁.sched.smallIos = 1 := by
    rw [harr.enters.small, hinit.charged.2.config.isSmall, smallItem, harr.taskSize]
    rfl
  have hcurrent₁ : g₁.sched.currentDepth = 0 := harr.enters.current
  -- the small request runs, or waits because there is no slot at all
  obtain ⟨hsmall, hwait, hroom⟩ : s.g.sched.smallIos = 1
      ∧ (∀ y ∈ s.queued, y = x ∧ depth ≤ s.g.sched.currentDepth)
      ∧ s.g.sched.currentDepth + factor ≤ depth := by
    rcases harr.goes with ⟨hl, -, -, -⟩ | ⟨hfind, hg, -, -, -⟩
    · have hfit := SfqdFull.fits_iff.mp hl.fits
      rw [SfqdFull.tentative_one hxone, hcurrent₁, hconfig₁.depth] at hfit
      refine ⟨hl.small.trans hsmall₁, ?_, ?_⟩
      · intro y hy
        have hperm : (x :: s.queued).Perm [x] := hl.queued_perm.trans harr.enters.queued_perm
        have hnil : s.queued = [] := List.perm_nil.mp (List.Perm.cons_inv hperm)
        rw [hnil] at hy
        cases hy
      · rw [hl.current, SfqdFull.tentative_one hxone, hcurrent₁]
        omega
    · have hone : g₁.sched.queued = [x] := List.perm_singleton.mp harr.enters.queued_perm
      have hnofit : ¬ g₁.sched.fits 0 x = true := by
        intro hfit
        rw [hone, List.find?_singleton, if_pos hfit] at hfind
        exact hfind rfl
      rw [SfqdFull.fits_iff, SfqdFull.tentative_one hxone, hcurrent₁, hconfig₁.depth] at hnofit
      unfold FullRun.queued
      rw [hg, hone, hcurrent₁]
      refine ⟨hsmall₁, ?_, by omega⟩
      intro y hy
      exact ⟨List.mem_singleton.mp hy, by omega⟩
  have hfresh : s.mem 1 = none := by
    rcases harr.goes with ⟨-, -, -, hmem⟩ | ⟨-, -, -, -, hmem⟩
    · rw [hmem, Mem.alloc_of_ne _ (by decide)]
      rfl
    · rw [hmem, Mem.alloc_of_ne _ (by decide)]
      rfl
  obtain ⟨e', s', y, g₂, hok', hstep', harr'⟩ := hs.arrival (a := fullSize true (fullArrival 1 1))
    hfresh rfl (by decide)
  have hconfig := hs.charged.2.config
  have hconfig₂ := harr'.enters.config.configured hconfig
  have hylarge : y.embedded.depth = factor := by
    rw [harr'.enters.depth, hconfig.isSmall, smallItem, harr'.taskSize, hconfig.factor]
    rfl
  have hsmall₂ : g₂.sched.smallIos = 1 := by
    rw [harr'.enters.small, hconfig.isSmall, smallItem, harr'.taskSize, hsmall]
    rfl
  have hcharge : g₂.sched.tentativeDepth y.embedded = factor := by
    rw [hconfig₂.tentative_large, hsmall₂, if_pos (by decide), hylarge]
  obtain ⟨-, hout⟩ := large_dispatched harr'
    (by
      rw [SfqdFull.fits_iff, hcharge, harr'.enters.current, hconfig₂.depth]
      omega)
    (by
      intro z hz
      obtain ⟨rfl, hfull⟩ := hwait z hz
      rw [Bool.eq_false_iff, ne_eq, SfqdFull.fits_iff, SfqdFull.tentative_one hxone,
        harr'.enters.current, hconfig₂.depth]
      omega)
  have hmem : (y, factor) ∈ s'.outstanding := by
    rw [hout, hcharge]
    exact List.mem_append_right _ (List.mem_cons_self ..)
  exact hne (exact_of_accounted hall (hs.snoc hok' hstep') hmem)

/-- **Depth accounting.** The current depth is in every state the sum of what
the outstanding requests were charged, lies between 0 and the depth, and is 0
when nothing is outstanding, exactly under the configurations of `DepthSafe`. -/
theorem sfqdFull_depth_accounting :
    (∀ s, Completing myShare calculateDiff depth factor large hard s → DepthAccounted s)
      ↔ DepthSafe depth factor large hard := by
  constructor
  · intro hall
    have hd : 0 ≤ depth := by
      have hinit := hall _ (Reaches.init (fun _ => none) fun _ => rfl)
      exact hinit.bound
    refine ⟨hd, ?_, ?_⟩
    · rintro rfl
      by_contra hf
      obtain ⟨s, hs, hacc⟩ := not_accounted_hard myShare calculateDiff large hd
        (Int.not_le.mp hf)
      exact hacc (hall s hs)
    · rintro rfl rfl
      by_contra hf
      have hne : factor ≠ 1 := by omega
      obtain ⟨s, hs, hacc⟩ := not_accounted_soft myShare calculateDiff hd hne (by omega)
      exact hacc (hall s hs)
  · intro hsafe s hs
    exact (hsafe.books hs).accounted

end accounting

/-- Eight slots, a large request worth three: dispatched while a small one
runs it is charged three slots, and gives one back. -/
theorem sfqdFull_depth_accounting_fails :
    ¬ ∀ s, Completing (fun _ _ _ _ _ _ => 0) (fun _ _ => 0) 8 3 true false s →
        DepthAccounted s := by
  intro hall
  have hd : (0 : Int) ≤ 8 := by decide
  have hne : (3 : Int) ≠ 1 := by decide
  obtain ⟨s, hs, hacc⟩ := not_accounted_soft (fun _ _ _ _ _ _ => 0) (fun _ _ => 0) hd hne
    (.inr (by decide))
  exact hacc (hall s hs)

end PvfsProxy
