import PvfsProxy.SfqdFullProgress
import PvfsProxy.Lib.Bypass

/-!
# Overtaking in SFQD_Full

The scan takes the first request that fits, so a request that needs fewer
slots may pass one that needs more: a steady stream of small requests keeps a
large one waiting for ever (`sfqdFull_bypass_unbounded`). What the order of
the list does give is that a later request which needs at least as many slots,
from a descriptor not lower, stays behind (`sfqdFull_bypass`).
-/

namespace PvfsProxy

open StableSort SfqdFull FullRun Bypass

/-- The requests that arrived after `x` and were dispatched before it. -/
def overtakers (t : FullRun) (x : SfqdFullItem) : List SfqdFullItem :=
  (before x t.returned).filter fun y => x.itemId < y.itemId

section order

variable {s t u : FullRun} {x it : SfqdFullItem}
  {myShare : Int → Int → Int → Int → Int → Int → Int}
  {calculateDiff : Nat → Globals SfqdFull → Int}

theorem SfqdFull.tentative_mono {sched : SfqdFull} {e e' : SfqdFullQueueItem}
    (h : e.depth ≤ e'.depth) : sched.tentativeDepth e ≤ sched.tentativeDepth e' := by
  unfold SfqdFull.tentativeDepth
  split
  · exact h
  · exact Int.le_refl 1

/-- An item found by the scan passes an earlier one of a descriptor not higher
only if it needs fewer slots. -/
theorem found_passes {g : Globals SfqdFull} (hord : ListOrder g.sched) {sched : SfqdFull}
    {reduceDepth : Int} (hfind : g.sched.queued.find? (sched.fits reduceDepth) = some it)
    (hx : x ∈ g.sched.queued) (hid : x.itemId < it.itemId)
    (hsock : x.embedded.requestSocket ≤ it.embedded.requestSocket) :
    it.embedded.depth < x.embedded.depth := by
  by_contra hdepth
  obtain ⟨hfit, before, after, hq, hbefore⟩ := List.find?_eq_some_iff_append.mp hfind
  have hxfit : sched.fits reduceDepth x = true := by
    have hmono : sched.tentativeDepth x.embedded ≤ sched.tentativeDepth it.embedded :=
      SfqdFull.tentative_mono (Int.not_lt.mp hdepth)
    rw [SfqdFull.fits_iff] at hfit ⊢
    omega
  have hfirst := hord.first_fit hq (by
    intro y hy
    simpa using hbefore y hy) x hx hxfit
  unfold SocketBefore at hfirst
  omega

/-- What a step adds to the history. -/
structure Adds (s s' : FullRun) : Prop where
  enqueued : s'.enqueued = s.enqueued
    ∨ ∃ it, s'.enqueued = s.enqueued ++ [it] ∧ it.itemId = s.g.sched.itemId
  returned : s'.returned = s.returned
    ∨ ∃ it, s'.returned = s.returned ++ [it] ∧ ∀ x ∈ s.queued, x.itemId < it.itemId →
        x.embedded.requestSocket ≤ it.embedded.requestSocket → it.embedded.depth < x.embedded.depth

theorem Adds.of_step (ha : Agrees s) {e : Event} (hok : s.Framed e)
    (hstep : s.step myShare calculateDiff e = .ok t) : Adds s t := by
  cases e with
  | arrive a event size =>
      have hne : event ≠ .completeIo := by
        rcases hok.2.2 with rfl | rfl <;> decide
      obtain ⟨it, g₁, harr⟩ := arrive_cases ha.order hne hstep
      refine ⟨.inr ⟨it, harr.enqueued, harr.enters.id⟩, ?_⟩
      rcases harr.goes with ⟨hl, -, hret, -⟩ | ⟨-, -, -, hret, -⟩
      · refine .inr ⟨it, hret, ?_⟩
        intro x hx
        refine found_passes (ha.order.enters harr.enters) hl.found ?_
        rw [harr.enters.queued_perm.mem_iff]
        exact List.mem_append_left _ hx
      · exact .inl hret
  | complete entry r =>
      have hc := complete_cases ha.order hstep
      refine ⟨.inl hc.enqueued, ?_⟩
      rcases hc.goes with ⟨-, -, hret, -⟩ | ⟨it, hl, -, hret, -⟩
      · exact .inl hret
      · refine .inr ⟨it, hret, ?_⟩
        intro x hx
        have hfind := hl.found
        rw [finish_queued] at hfind
        exact found_passes ha.order hfind hx
  | retire p =>
      obtain rfl := Except.ok.inj hstep
      exact ⟨.inl rfl, .inl rfl⟩

/-- A later request passed an earlier one only as it may. -/
def Passed (t : FullRun) : Prop :=
  ∀ x ∈ t.enqueued, ∀ y ∈ overtakers t x,
    y.embedded.requestSocket < x.embedded.requestSocket ∨ y.embedded.depth < x.embedded.depth

theorem Passed.step (ha : Agrees s) (h : Passed s) {e : Event} (hok : s.Framed e)
    (hstep : s.step myShare calculateDiff e = .ok t) : Passed t := by
  have hadds := Adds.of_step ha hok hstep
  have ht := ha.step hok hstep
  intro x hx y hy
  obtain ⟨hmem, hlater⟩ := List.mem_filter.mp hy
  have hid := of_decide_eq_true hlater
  have hyenq : y ∈ t.enqueued :=
    ht.history.subset (List.mem_append_left _ (before_subset _ _ hmem))
  -- nothing is later than a request that only now arrives
  have hxs : x ∈ s.enqueued := by
    rcases hadds.enqueued with heq | ⟨it, heq, hit⟩
    · exact heq ▸ hx
    · rw [heq] at hx hyenq
      rcases List.mem_append.mp hx with hold | hnew
      · exact hold
      · exfalso
        rw [List.mem_singleton.mp hnew] at hid
        rcases List.mem_append.mp hyenq with hyold | hynew
        · have := ha.fresh y hyold
          omega
        · rw [List.mem_singleton.mp hynew] at hid
          omega
  rcases hadds.returned with heq | ⟨it, heq, hpass⟩
  · exact h x hxs y (List.mem_filter.mpr ⟨heq ▸ hmem, hlater⟩)
  · rw [heq] at hmem
    rcases mem_before_snoc hmem with hbefore | ⟨rfl, hxret⟩
    · exact h x hxs y (List.mem_filter.mpr ⟨hbefore, hlater⟩)
    · -- `x` still waits while the later `y` goes
      have hxq : x ∈ s.queued := by
        rcases List.mem_append.mp (ha.history.mem_iff.mpr hxs) with hret | hq
        · exact absurd hret hxret
        · exact hq
      by_cases hsock : x.embedded.requestSocket ≤ y.embedded.requestSocket
      · exact .inr (hpass x hxq hid hsock)
      · exact .inl (Int.not_le.mp hsock)

/-- **Bounded bypass.** In every reachable state, so in every continuation of
every reachable state, a request that arrived after `x` was dispatched before
`x` only if it comes from a lower descriptor or is charged fewer slots. -/
theorem sfqdFull_bypass {depth factor : Int} {large hard : Bool}
    (h : Reaches Framed myShare calculateDiff depth factor large hard t) (hx : x ∈ t.enqueued) :
    ∀ y ∈ overtakers t x, y.embedded.requestSocket < x.embedded.requestSocket
      ∨ y.embedded.depth < x.embedded.depth := by
  obtain ⟨-, hpassed⟩ := h.invariant (P := Passed) (fun _ _ h => h)
    (fun _ _ _ x hx => by cases hx) fun _ _ _ ha hp hok hstep => hp.step ha hok hstep
  exact hpassed x hx

end order

/-! ## A stream of small requests -/

section stream

variable {s t u : FullRun} {x : SfqdFullItem}

/-- Two slots, one taken by a small request; the large request `x` needs both
and waits, while `n` later requests have passed it. -/
structure BypassReady (s : FullRun) (x : SfqdFullItem) (n : Nat) (t : FullRun) : Prop where
  run : ∃ es, Machine.Run Own (FullRun.step (fun _ _ _ _ _ _ => 0) fun _ _ => 0) s es t
  reach : Completing (fun _ _ _ _ _ _ => 0) (fun _ _ => 0) 2 2 false true t
  queue : t.queued = [x]
  large : x.embedded.depth = 2
  owner : x.socketData.rs ≠ 2
  running : ∃ e, t.outstanding = [e] ∧ e.1.embedded.depth = 1
  current : t.g.sched.currentDepth = 1
  mem : t.mem 2 = none
  passed : n ≤ (overtakers t x).length

/-- A waiting request has not been returned. -/
theorem Agrees.not_returned (h : Agrees t) (hx : x ∈ t.queued) : x ∉ t.returned := by
  intro hret
  have hnodup := h.history.nodup_iff.mpr (h.ids.of_map _)
  exact (List.nodup_append.mp hnodup).2.2 x hret x hx rfl

theorem overtakers_snoc {it : SfqdFullItem} (hret : u.returned = t.returned ++ [it])
    (hx : x ∉ t.returned) (hlater : x.itemId < it.itemId) :
    overtakers u x = overtakers t x ++ [it] := by
  have hne : x ≠ it := by
    rintro rfl
    omega
  have hx' : x ∉ t.returned ++ [it] := by
    intro hmem
    rcases List.mem_append.mp hmem with hold | hnew
    · exact hx hold
    · exact hne (List.mem_singleton.mp hnew)
  unfold overtakers
  rw [hret, before_of_notMem hx', before_of_notMem hx, List.filter_append]
  simp [hlater]

/-- The small request `it` has taken the second slot. -/
structure BypassFull (x it : SfqdFullItem) (t u : FullRun) : Prop where
  step : ∃ ev, t.Own ev ∧ t.step (fun _ _ _ _ _ _ => 0) (fun _ _ => 0) ev = .ok u
  reach : Completing (fun _ _ _ _ _ _ => 0) (fun _ _ => 0) 2 2 false true u
  queue : u.queued = [x]
  running : ∃ e d, u.outstanding = [e, (it, d)] ∧ e.1.embedded.depth = 1
  small : it.embedded.depth = 1
  current : u.g.sched.currentDepth = 2
  returned : u.returned = t.returned ++ [it]

theorem BypassReady.arrives {n : Nat} (h : BypassReady s x n t) :
    ∃ it u, BypassFull x it t u ∧ x.itemId < it.itemId := by
  obtain ⟨e, hout, hone⟩ := h.running
  obtain ⟨hagrees, hch⟩ := h.reach.charged
  obtain ⟨ev, u, it, g₁, hok, hstep, harr⟩ := h.reach.arrival (a := fullArrival 1 2) h.mem rfl
    (by decide)
  have hconfig := harr.enters.config.configured hch.config
  have hsmall : it.embedded.depth = 1 := by
    rw [harr.enters.depth, hch.config.isSmall, smallItem, harr.taskSize]
    rfl
  obtain ⟨hl, hout₁⟩ := large_dispatched harr
    (by
      rw [hconfig.fits_hard, hsmall, harr.enters.current, h.current]
      decide)
    (by
      intro y hy
      rw [h.queue] at hy
      rw [List.mem_singleton.mp hy, Bool.eq_false_iff, ne_eq, hconfig.fits_hard, h.large,
        harr.enters.current, h.current]
      decide)
  have hqueue : u.queued = [x] := by
    have hcons : (it :: u.queued).Perm (it :: t.queued) :=
      (hl.queued_perm.trans harr.enters.queued_perm).trans List.perm_append_comm
    have hperm := List.Perm.cons_inv hcons
    rw [h.queue] at hperm
    exact List.perm_singleton.mp hperm
  have hlater : x.itemId < it.itemId := by
    have hxt : x ∈ t.queued := by
      rw [h.queue]
      exact List.mem_cons_self ..
    rw [harr.enters.id]
    exact hagrees.order.fresh x hxt
  refine ⟨it, u, ?_, hlater⟩
  exact
    { step := ⟨ev, hok, hstep⟩
      reach := h.reach.snoc hok hstep
      queue := hqueue
      running := ⟨e, g₁.sched.tentativeDepth it.embedded, by rw [hout₁, hout]; rfl, hone⟩
      small := hsmall
      current := by
        rw [hl.current, hconfig.tentative_hard, hsmall, harr.enters.current, h.current]
        decide
      returned := by
        rcases harr.goes with ⟨-, -, hret, -⟩ | ⟨hne, -⟩
        · exact hret
        · exact absurd hl.found hne }

/-- The one that ran completes, and with one slot taken `x` does not fit. -/
theorem BypassFull.completes {it : SfqdFullItem} (h : BypassFull x it t u)
    (hlarge : x.embedded.depth = 2) :
    ∃ ev v, u.Own ev ∧ u.step (fun _ _ _ _ _ _ => 0) (fun _ _ => 0) ev = .ok v
      ∧ v.queued = [x] ∧ (∃ d, v.outstanding = [(it, d)]) ∧ v.g.sched.currentDepth = 1
      ∧ v.returned = u.returned := by
  obtain ⟨e, d, hout, hone⟩ := h.running
  have hconfig := h.reach.charged.2.config
  obtain ⟨v, r, hok, hstep, hc⟩ := h.reach.completion (hout ▸ List.mem_cons_self .. : e ∈ _)
  have hreduce : u.g.sched.reduceDepth r = 1 := by
    rw [hok.2.2.reduceDepth hok.2.1, hconfig.hard]
    exact hone
  obtain ⟨hrel, hout', hret, -⟩ : Releases (u.g.sched.finish r) (u.g.sched.reduceDepth r)
      v.g.sched ∧ v.outstanding = u.outstanding.erase e ∧ v.returned = u.returned
      ∧ v.mem = u.mem := by
    rcases hc.goes with hrel | ⟨y, hly, -⟩
    · exact hrel
    · exfalso
      have hmem : y ∈ u.queued := by simpa [FullRun.queued] using hly.mem
      rw [h.queue] at hmem
      have hfit := ((finish_config u.g.sched r).configured hconfig).fits_hard.mp hly.fits
      rw [List.mem_singleton.mp hmem, hlarge, finish_current, h.current, hreduce] at hfit
      exact absurd hfit (by decide)
  refine ⟨_, v, hok, hstep, ?_, ⟨d, by rw [hout', hout]; simp⟩, ?_, hret⟩
  · have hsame : v.queued = u.queued := hrel.queued.trans (finish_queued _ _)
    rw [hsame, h.queue]
  · rw [hrel.current, finish_current, h.current, hreduce]
    decide

/-- A small request arrives and takes the free slot, then the one that ran
completes: `x` still waits, and one more request has passed it. -/
theorem bypass_segment {n : Nat} (h : BypassReady s x n t) : ∃ u, BypassReady s x (n + 1) u := by
  obtain ⟨es, hrun⟩ := h.run
  obtain ⟨it, u, hfull, hlater⟩ := h.arrives
  obtain ⟨ev, hok, hstep⟩ := hfull.step
  obtain ⟨ev', v, hok', hstep', hqueue, ⟨d, hout⟩, hcurrent, hret⟩ := hfull.completes h.large
  have hreach : Completing (fun _ _ _ _ _ _ => 0) (fun _ _ => 0) 2 2 false true v :=
    hfull.reach.snoc hok' hstep'
  have hunlocked : lockedAt v.mem 2 = false := by
    by_contra hlocked
    obtain ⟨y, hy, hrs⟩ := (hreach.charged.1.locked 2).mp (by simpa using hlocked)
    rw [hqueue] at hy
    rw [List.mem_singleton.mp hy] at hrs
    exact h.owner hrs
  have hxt : x ∈ t.queued := by
    rw [h.queue]
    exact List.mem_cons_self ..
  have hretire : v.Own (.retire 2) := hunlocked
  have hfree : v.step (fun _ _ _ _ _ _ => 0) (fun _ _ => 0) (.retire 2)
      = .ok { v with mem := v.mem.free 2 } := rfl
  refine ⟨{ v with mem := v.mem.free 2 }, ?_⟩
  exact
    { run := ⟨_, ((hrun.snoc hok hstep).snoc hok' hstep').snoc hretire hfree⟩
      reach := hreach.snoc hretire hfree
      queue := hqueue
      large := h.large
      owner := h.owner
      running := ⟨(it, d), hout, hfull.small⟩
      current := hcurrent
      mem := by
        show v.mem.free 2 2 = none
        simp [Mem.free]
      passed := by
        have hgrow : overtakers v x = overtakers t x ++ [it] :=
          overtakers_snoc (hret.trans hfull.returned) (h.reach.charged.1.not_returned hxt) hlater
        have hsame : overtakers { v with mem := v.mem.free 2 } x = overtakers v x := rfl
        rw [hsame, hgrow, List.length_append, List.length_singleton]
        have := h.passed
        omega }

theorem bypass_start : ∃ s x, x ∈ s.enqueued ∧ BypassReady s x 0 s := by
  obtain ⟨s, hrun, hs⟩ := Machine.Run.exists_of_exec FullRun.Own
    (FullRun.step (fun _ _ _ _ _ _ => 0) fun _ _ => 0)
    (FullRun.init 2 2 false true true (fun _ => { appWeight := 1 }) fun _ => none)
    [.arrive (fullArrival 1 0) .newIo 4096, .arrive (fullSize true (fullArrival 1 1)) .newIo 131072]
    (fun s => (s.queued.map fun it => (it.embedded.depth, it.socketData.rs),
      s.outstanding.map (·.1.embedded.depth), s.g.sched.currentDepth, (s.mem 2).isNone))
    (a := ([(2, 1)], [1], 1, true)) (by decide +kernel)
  obtain ⟨hq, hrest⟩ := Prod.mk.inj hs
  obtain ⟨hout, hrest⟩ := Prod.mk.inj hrest
  obtain ⟨hcur, hmem⟩ := Prod.mk.inj hrest
  obtain ⟨x, hqueue, hx⟩ := List.map_eq_singleton_iff.mp hq
  obtain ⟨e, hrunning, he⟩ := List.map_eq_singleton_iff.mp hout
  obtain ⟨hlarge, howner⟩ := Prod.mk.inj hx
  have hreach : Completing (fun _ _ _ _ _ _ => 0) (fun _ _ => 0) 2 2 false true s :=
    ⟨true, _, _, _, fun _ => rfl, hrun⟩
  refine ⟨s, x, ?_, ?_⟩
  · refine Charged.queued_enqueued hreach.charged.1 ?_
    rw [hqueue]
    exact List.mem_cons_self ..
  · exact
      { run := ⟨[], .nil⟩
        reach := hreach
        queue := hqueue
        large := hlarge
        owner := by
          rw [howner]
          decide
        running := ⟨e, hrunning, he⟩
        current := hcur
        mem := Option.isNone_iff_eq_none.mp hmem
        passed := Nat.zero_le _ }

theorem bypass_stream {n : Nat} (h : BypassReady s x 0 s) : ∃ t, BypassReady s x n t := by
  induction n with
  | zero => exact ⟨s, h⟩
  | succ n ih =>
      obtain ⟨t, ht⟩ := ih
      exact bypass_segment ht

end stream

/-- No bound holds for a large request: one small request after the other
passes it. -/
theorem sfqdFull_bypass_unbounded :
    ¬ ∀ depth factor : Int, ∀ large, 1 ≤ factor → factor ≤ depth → ∀ s,
        Completing (fun _ _ _ _ _ _ => 0) (fun _ _ => 0) depth factor large true s →
        ∀ x ∈ s.enqueued, ∃ B, ∀ es t,
          Machine.Run Own (FullRun.step (fun _ _ _ _ _ _ => 0) fun _ _ => 0) s es t →
          (overtakers t x).length ≤ B := by
  intro hall
  obtain ⟨s, x, hx, hready⟩ := bypass_start
  obtain ⟨B, hB⟩ := hall 2 2 false (by decide) (by decide) s hready.reach x hx
  obtain ⟨t, ht⟩ := bypass_stream (n := B + 1) hready
  obtain ⟨es, hrun⟩ := ht.run
  have := hB es t hrun
  have := ht.passed
  omega

/-- The first small request to pass the large one needs fewer slots. -/
theorem sfqdFull_bypass_example :
    ∃ t x, ∃ y ∈ overtakers t x, y.embedded.requestSocket < x.embedded.requestSocket
      ∨ y.embedded.depth < x.embedded.depth := by
  obtain ⟨s, x, hx, hready⟩ := bypass_start
  obtain ⟨t, ht⟩ := bypass_segment hready
  obtain ⟨y, hy⟩ := List.exists_mem_of_length_pos (Nat.lt_of_lt_of_le Nat.zero_lt_one ht.passed)
  obtain ⟨none, appStats, mem, es, hmem, hrun⟩ := ht.reach
  have hreach : Reaches Framed (fun _ _ _ _ _ _ => 0) (fun _ _ => 0) 2 2 false true t :=
    ⟨none, appStats, mem, es, hmem, hrun.mono fun _ _ => Own.framed⟩
  have hxt : x ∈ t.queued := by
    rw [ht.queue]
    exact List.mem_cons_self ..
  exact ⟨t, x, y, hy,
    sfqdFull_bypass hreach (Charged.queued_enqueued ht.reach.charged.1 hxt) y hy⟩

end PvfsProxy
