import PvfsProxy.SfqdFullDepth

/-!
# Progress of SFQD_Full

With nothing outstanding no completion will come, so a request that then waits
waits for ever. It does so exactly when hard blocking is on and it is charged
more slots than there are (`sfqdFull_not_stuck`).

The method table declares the scheduler work-conserving, but the framework
asks for one item at each completion. With hard blocking the completion of a
large request frees several slots: if the first in the list is a small request
and another small one waits behind it, the slots left stay idle
(`sfqdFull_work_conserving`).
-/

namespace PvfsProxy

open StableSort SfqdFull FullRun

section hard

variable {depth factor : Int} {large : Bool} {s s' : FullRun}
  {myShare : Int → Int → Int → Int → Int → Int → Int}
  {calculateDiff : Nat → Globals SfqdFull → Int}

/-! ## Hard blocking -/

theorem SfqdFull.Configured.fits_hard {sched : SfqdFull}
    (h : Configured depth factor large true sched) {reduceDepth : Int} {it : SfqdFullItem} :
    sched.fits reduceDepth it = true
      ↔ it.embedded.depth + sched.currentDepth - reduceDepth ≤ depth := by
  rw [SfqdFull.fits_iff, h.tentative_hard, h.depth]

theorem Charged.depth_cases {hard : Bool} (h : Charged depth factor large hard s)
    {it : SfqdFullItem} (hit : it ∈ s.enqueued) :
    it.embedded.depth = 1 ∨ it.embedded.depth = factor := by
  rw [h.depths it hit]
  cases smallItem it with
  | true => exact .inl rfl
  | false => exact .inr rfl

/-- A completion under hard blocking, in terms of the depths. -/
structure Frees (s : FullRun) (d : Int) (s' : FullRun) : Prop where
  goes : (s'.g.sched.currentDepth = s.g.sched.currentDepth - d ∧ s'.queued = s.queued
      ∧ ∀ it ∈ s.queued, s.g.sched.depth < it.embedded.depth + s.g.sched.currentDepth - d)
    ∨ ∃ before it after, s.queued = before ++ it :: after
      ∧ s'.g.sched.currentDepth = s.g.sched.currentDepth + it.embedded.depth - d
      ∧ s'.queued = before ++ after
      ∧ it.embedded.depth + s.g.sched.currentDepth - d ≤ s.g.sched.depth
      ∧ ∀ y ∈ before, s.g.sched.depth < y.embedded.depth + s.g.sched.currentDepth - d
  depth : s'.g.sched.depth = s.g.sched.depth

theorem frees (hch : Charged depth factor large true s) {entry : SfqdFullItem × Int}
    {r : DequeueReason SfqdFullQueueItem} (hr : r.event = .completeIo) (hown : OwnItem entry.1 r)
    (hc : s.Completes entry r s') : Frees s entry.1.embedded.depth s' := by
  have hconfig := (finish_config s.g.sched r).configured hch.config
  have hreduce : s.g.sched.reduceDepth r = entry.1.embedded.depth := by
    rw [hown.reduceDepth hr, hch.config.hard]
    rfl
  have hcurrent : (s.g.sched.finish r).currentDepth = s.g.sched.currentDepth := finish_current _ _
  have hdepth : (s.g.sched.finish r).depth = s.g.sched.depth := (finish_config _ r).depth
  have hqueued : (s.g.sched.finish r).queued = s.queued := finish_queued _ _
  have hnofit : ∀ it, (s.g.sched.finish r).fits entry.1.embedded.depth it = false →
      s.g.sched.depth
        < it.embedded.depth + s.g.sched.currentDepth - entry.1.embedded.depth := by
    intro it hno
    rw [Bool.eq_false_iff, ne_eq, hconfig.fits_hard, hcurrent] at hno
    rw [hch.config.depth]
    omega
  rcases hc.goes with ⟨hrel, -, -, -⟩ | ⟨it, hl, -, -, -⟩
  · rw [hreduce] at hrel
    refine ⟨.inl ⟨?_, hrel.queued.trans hqueued, ?_⟩, hrel.config.depth.trans hdepth⟩
    · rw [hrel.current, hcurrent]
    · intro it hit
      refine hnofit it ?_
      have hnone := List.find?_eq_none.mp hrel.found it (hqueued ▸ hit)
      simpa using hnone
  · rw [hreduce] at hl
    obtain ⟨hfit, before, after, hq, hbefore⟩ := List.find?_eq_some_iff_append.mp hl.found
    rw [hqueued] at hq
    have hnotmem : it ∉ before := by
      intro hmem
      have := hbefore it hmem
      rw [hfit] at this
      cases this
    refine ⟨.inr ⟨before, it, after, hq, ?_, ?_, ?_, ?_⟩, hl.config.depth.trans hdepth⟩
    · rw [hl.current, hconfig.tentative_hard, hcurrent]
    · refine hl.queued.trans ?_
      rw [hqueued, hq, List.erase_append_right _ hnotmem, List.erase_cons_head]
    · rw [hconfig.fits_hard, hcurrent] at hfit
      rw [hch.config.depth]
      exact hfit
    · intro y hy
      exact hnofit y (by simpa using hbefore y hy)

/-- What the other outstanding requests are charged is not negative. -/
theorem Books.rest_nonneg {hard : Bool} (h : Books hard s) {entry : SfqdFullItem × Int}
    (hentry : entry ∈ s.outstanding) : entry.2 ≤ s.g.sched.currentDepth := by
  have hrest : 0 ≤ ((s.outstanding.erase entry).map (·.2)).sum := by
    refine List.sum_nonneg ?_
    intro c hc
    obtain ⟨e, he, rfl⟩ := List.mem_map.mp hc
    exact (h.exact e (List.mem_of_mem_erase he)).2
  rw [sum_erase hentry, ← show s.g.sched.currentDepth = _ from h.balanced] at hrest
  omega

/-- An arriving request that fits where no waiting one does is not left
waiting. -/
theorem arrives_or_full (hch : Charged depth factor large true s)
    {a : Arrival SfqdFullQueueItem} {it : SfqdFullItem} {g₁ : Globals SfqdFull}
    (ha : s.Arrives a it g₁ s')
    (hfull : ∀ y ∈ s.queued, depth < y.embedded.depth + s.g.sched.currentDepth) :
    (s'.g.sched.currentDepth = s.g.sched.currentDepth + it.embedded.depth
      ∧ s'.queued.Perm s.queued ∧ s'.outstanding ≠ [] ∧ s'.returned = s.returned ++ [it]
      ∧ it.embedded.depth + s.g.sched.currentDepth ≤ depth)
    ∨ (s'.g.sched.currentDepth = s.g.sched.currentDepth
      ∧ s'.queued.Perm (s.queued ++ [it]) ∧ s'.outstanding = s.outstanding
      ∧ s'.returned = s.returned ∧ depth < it.embedded.depth + s.g.sched.currentDepth) := by
  have hconfig₁ := ha.enters.config.configured hch.config
  have hfits : ∀ y, g₁.sched.fits 0 y = true
      ↔ y.embedded.depth + s.g.sched.currentDepth ≤ depth := by
    intro y
    rw [hconfig₁.fits_hard, ha.enters.current, Int.sub_zero]
  rcases ha.goes with ⟨hl, hout, hret, -⟩ | ⟨hfind, hg, hout, hret, -⟩
  · left
    have hcons : (it :: s'.queued).Perm (it :: s.queued) :=
      (hl.queued_perm.trans ha.enters.queued_perm).trans List.perm_append_comm
    refine ⟨?_, List.Perm.cons_inv hcons, ?_, hret, (hfits it).mp hl.fits⟩
    · rw [hl.current, hconfig₁.tentative_hard, ha.enters.current, Int.sub_zero]
    · rw [hout]
      simp
  · right
    have hqueued : s'.queued = g₁.sched.queued := by
      unfold FullRun.queued
      rw [hg]
    refine ⟨by rw [hg, ha.enters.current], hqueued ▸ ha.enters.queued_perm, hout, hret, ?_⟩
    by_contra hroom
    obtain ⟨-, hout'⟩ := large_dispatched ha ((hfits it).mpr (by omega)) (by
      intro y hy
      have := hfull y hy
      rw [Bool.eq_false_iff, ne_eq, hfits y]
      omega)
    rw [hout] at hout'
    exact absurd hout' (by simp)

/-! ## Nothing waits for ever -/

/-- With hard blocking a request of more slots than there are is never
dispatched, and with nothing outstanding only such requests wait. -/
structure Unstuck (depth : Int) (s : FullRun) : Prop where
  books : Books true s
  fitting : ∀ it ∈ s.returned, it.embedded.depth ≤ depth
  idle : s.outstanding = [] → ∀ it ∈ s.queued, depth < it.embedded.depth

namespace Unstuck

theorem arrives (hf : 0 ≤ factor) (h : Unstuck depth s)
    (hch : Charged depth factor large true s) {a : Arrival SfqdFullQueueItem} {it : SfqdFullItem}
    {g₁ : Globals SfqdFull} (ha : s.Arrives a it g₁ s') : Unstuck depth s' := by
  have hconfig₁ := ha.enters.config.configured hch.config
  have hexact : Exact true it (g₁.sched.tentativeDepth it.embedded) := by
    rw [hconfig₁.tentative_hard]
    refine ⟨rfl, ?_⟩
    rw [ha.enters.depth, hch.config.isSmall, hch.config.factor]
    split
    · decide
    · exact hf
  refine ⟨h.books.arrives ha fun _ => hexact, ?_, ?_⟩
  · rcases ha.goes with ⟨hl, -, hret, -⟩ | ⟨-, -, -, hret, -⟩
    · have hfit := hconfig₁.fits_hard.mp hl.fits
      have := h.books.nonneg
      rw [ha.enters.current] at hfit
      rw [hret]
      refine List.forall_mem_append.mpr ⟨h.fitting, List.forall_mem_singleton.mpr ?_⟩
      omega
    · rw [hret]
      exact h.fitting
  · intro hnil
    by_cases hidle : s.outstanding = []
    · have hcurrent := h.books.empty hidle
      rcases arrives_or_full hch ha (by
        intro y hy
        have := h.idle hidle y hy
        omega) with ⟨-, -, hne, -, -⟩ | ⟨-, hq, -, -, hover⟩
      · exact absurd hnil hne
      · intro y hy
        rcases List.mem_append.mp (hq.mem_iff.mp hy) with hold | hnew
        · exact h.idle hidle y hold
        · rw [List.mem_singleton.mp hnew]
          omega
    · exfalso
      rcases ha.goes with ⟨-, hout, -, -⟩ | ⟨-, -, hout, -, -⟩
      · rw [hout] at hnil
        exact absurd hnil (by simp)
      · exact hidle (hout.symm.trans hnil)

theorem completes (hf : 0 ≤ factor) (ha : Agrees s) (h : Unstuck depth s)
    (hch : Charged depth factor large true s) {entry : SfqdFullItem × Int}
    {r : DequeueReason SfqdFullQueueItem} (hentry : entry ∈ s.outstanding)
    (hr : r.event = .completeIo) (hown : OwnItem entry.1 r) (hc : s.Completes entry r s') :
    Unstuck depth s' := by
  have hconfig := (finish_config s.g.sched r).configured hch.config
  have hreduce : s.g.sched.reduceDepth r = entry.2 := by
    rw [hown.reduceDepth hr, hch.config.hard]
    exact (h.books.exact entry hentry).1.symm
  have hrest := h.books.rest_nonneg hentry
  refine ⟨h.books.completes hch hentry hr hown hc ?_, ?_, ?_⟩
  · intro it hl
    have hit : it ∈ s.queued := by simpa [FullRun.queued] using hl.mem
    rw [hconfig.tentative_hard]
    refine ⟨rfl, ?_⟩
    rw [hch.depths it (Charged.queued_enqueued ha hit)]
    split
    · decide
    · exact hf
  · rcases hc.goes with ⟨-, -, hret, -⟩ | ⟨it, hl, -, hret, -⟩
    · rw [hret]
      exact h.fitting
    · have hfit := hconfig.fits_hard.mp hl.fits
      rw [hreduce, finish_current] at hfit
      rw [hret]
      refine List.forall_mem_append.mpr ⟨h.fitting, List.forall_mem_singleton.mpr ?_⟩
      omega
  · intro hnil
    rcases hc.goes with ⟨hrel, hout, -, -⟩ | ⟨it, -, hout, -, -⟩
    · have hcurrent := sum_erase hentry
      rw [← hout, hnil, ← show s.g.sched.currentDepth = _ from h.books.balanced] at hcurrent
      simp only [List.map_nil, List.sum_nil] at hcurrent
      intro it hit
      have hno := List.find?_eq_none.mp hrel.found it (hrel.queued ▸ hit)
      rw [hconfig.fits_hard, hreduce, finish_current] at hno
      omega
    · rw [hout] at hnil
      exact absurd hnil (by simp)

theorem of_completing (hd : 0 ≤ depth) (hf : 0 ≤ factor)
    (h : Completing myShare calculateDiff depth factor large true s) : Unstuck depth s := by
  refine (h.charged_invariant (P := Unstuck depth) ?_ ?_ ?_ ?_).2.2
  · intro none appStats mem
    refine ⟨.init hd, ?_, ?_⟩
    · intro it hit
      cases hit
    · intro _ it hit
      cases hit
  · intro s a it g₁ s' _ hch hs harr
    exact hs.arrives hf hch harr
  · intro s entry r s' ha hch hs hentry hr hown hc
    exact hs.completes hf ha hch hentry hr hown hc
  · intro s p hs
    exact ⟨⟨hs.books.balanced, hs.books.bound, hs.books.exact⟩, hs.fitting, hs.idle⟩

end Unstuck

theorem Live.of_completing (hd : 1 ≤ depth)
    (h : Completing myShare calculateDiff depth factor large false s) : Live s := by
  refine (h.charged_invariant (P := Live) (fun _ _ _ => .init hd) ?_ ?_ ?_).2.2
  · intro s a it g₁ s' _ hch hs harr
    exact hs.arrives hch harr
  · intro s entry r s' ha hch hs hentry hr hown hc
    exact hs.completes ha hch hentry hr hown hc
  · intro s p hs
    exact ⟨hs.bound, hs.idle⟩

/-- **Never stuck.** In every reachable state with nothing outstanding the
queue is empty, unless hard blocking is on and a request charged more slots
than there are has arrived; then it is not. -/
theorem sfqdFull_not_stuck {hard : Bool} (hd : 1 ≤ depth) (hf : 1 ≤ factor)
    (h : Completing myShare calculateDiff depth factor large hard s)
    (hidle : s.outstanding = []) :
    s.queued = [] ↔ ¬ (hard = true ∧ ∃ it ∈ s.enqueued, depth < it.embedded.depth) := by
  obtain ⟨hagrees, -⟩ := h.charged
  cases hard with
  | false =>
      refine iff_of_true ((Live.of_completing hd h).idle hidle).1 ?_
      rintro ⟨hhard, -⟩
      cases hhard
  | true =>
      have hs := Unstuck.of_completing (by omega) (by omega) h
      constructor
      · rintro hnil ⟨-, it, hit, hover⟩
        have hret := hagrees.history.mem_iff.mpr hit
        rw [hnil, List.append_nil] at hret
        have := hs.fitting it hret
        omega
      · intro hno
        by_contra hne
        obtain ⟨it, hit⟩ := List.exists_mem_of_ne_nil _ hne
        exact hno ⟨rfl, it, Charged.queued_enqueued hagrees hit, hs.idle hidle it hit⟩

/-! ## Idle slots -/

/-- No waiting request fits into the slots that are left. -/
def WorkConserving (s : FullRun) : Prop :=
  ∀ it ∈ s.queued, s.g.sched.depth - s.g.sched.currentDepth < it.embedded.depth

/-- The completion of a request of more than one slot finds a small request at
the head of the queue and another one behind it. -/
def FullRun.LeavesIdle (s : FullRun) : Event → Prop
  | .complete entry _ => entry.1.embedded.depth ≠ 1
      ∧ ∃ it rest, s.queued = it :: rest ∧ it.embedded.depth = 1
          ∧ ∃ y ∈ rest, y.embedded.depth = 1
  | _ => False

instance (s : FullRun) (e : Event) : Decidable (s.LeavesIdle e) :=
  match e with
  | .arrive _ _ _ => inferInstanceAs (Decidable False)
  | .retire _ => inferInstanceAs (Decidable False)
  | .complete entry _ =>
    match hq : s.queued with
    | [] => .isFalse fun ⟨_, _, _, h, _⟩ => by
        rw [hq] at h
        cases h
    | it :: rest =>
      decidable_of_iff (entry.1.embedded.depth ≠ 1 ∧ it.embedded.depth = 1
          ∧ ∃ y ∈ rest, y.embedded.depth = 1) (by
        constructor
        · rintro ⟨hne, hone, hy⟩
          exact ⟨hne, it, rest, hq, hone, hy⟩
        · rintro ⟨hne, x, xs, h, hone, hy⟩
          obtain ⟨rfl, rfl⟩ := List.cons.inj (hq.symm.trans h)
          exact ⟨hne, hone, hy⟩)

theorem WorkConserving.arrives (h : WorkConserving s) (hf : 1 ≤ factor)
    (hch : Charged depth factor large true s) {a : Arrival SfqdFullQueueItem} {it : SfqdFullItem}
    {g₁ : Globals SfqdFull} (ha : s.Arrives a it g₁ s')
    (hconfig : Configured depth factor large true s'.g.sched) : WorkConserving s' := by
  have hdepth : 1 ≤ it.embedded.depth := by
    rw [ha.enters.depth, hch.config.factor]
    split
    · exact Int.le_refl 1
    · exact hf
  have hfull : ∀ y ∈ s.queued, depth < y.embedded.depth + s.g.sched.currentDepth := by
    intro y hy
    have := h y hy
    rw [hch.config.depth] at this
    omega
  intro y hy
  rw [hconfig.depth]
  rcases arrives_or_full hch ha hfull with ⟨hcur, hq, -⟩ | ⟨hcur, hq, -, -, hover⟩
  · have := hfull y (hq.mem_iff.mp hy)
    omega
  · rcases List.mem_append.mp (hq.mem_iff.mp hy) with hold | hnew
    · have := hfull y hold
      omega
    · rw [List.mem_singleton.mp hnew]
      omega

/-- A completion leaves no usable slot idle exactly when it is not that of a
large request with two small ones waiting, one of them first. -/
theorem WorkConserving.frees (hf : 1 ≤ factor) (hd : s.g.sched.depth = depth)
    (hbound : s.g.sched.currentDepth ≤ depth)
    (hdepths : ∀ it ∈ s.queued, it.embedded.depth = 1 ∨ it.embedded.depth = factor) {d : Int}
    (hd₁ : d = 1 ∨ d = factor) (h : WorkConserving s) (hfr : Frees s d s') :
    WorkConserving s' ↔ ¬ (d ≠ 1 ∧ ∃ it rest, s.queued = it :: rest ∧ it.embedded.depth = 1
      ∧ ∃ y ∈ rest, y.embedded.depth = 1) := by
  have hdepth : s'.g.sched.depth = depth := hfr.depth.trans hd
  have hwc : ∀ it ∈ s.queued, depth < it.embedded.depth + s.g.sched.currentDepth := by
    intro it hit
    have := h it hit
    rw [hd] at this
    omega
  -- a small request at the head means that no slot was free, so it fits now
  have hhead : ∀ it rest, s.queued = it :: rest → it.embedded.depth = 1 →
      s.g.sched.currentDepth = depth ∧ it.embedded.depth + s.g.sched.currentDepth - d ≤ depth := by
    intro it rest hq hone
    have := hwc it (by rw [hq]; exact List.mem_cons_self ..)
    omega
  rcases hfr.goes with ⟨hcur, hq, hnofit⟩ | ⟨before, it, after, hq, hcur, hq', hfit, hbefore⟩
  · refine iff_of_true ?_ ?_
    · intro y hy
      rw [hq] at hy
      have := hnofit y hy
      rw [hd] at this
      rw [hdepth, hcur]
      omega
    · rintro ⟨-, y, rest, hqy, hone, -⟩
      have hy := hnofit y (by rw [hqy]; exact List.mem_cons_self ..)
      have := (hhead y rest hqy hone).2
      rw [hd] at hy
      omega
  · rw [hd] at hfit hbefore
    have hit : it ∈ s.queued := by
      rw [hq]
      exact List.mem_append_right _ (List.mem_cons_self ..)
    have hrest : ∀ y ∈ s'.queued, y ∈ s.queued := by
      intro y hy
      rw [hq'] at hy
      rw [hq]
      rcases List.mem_append.mp hy with hold | hnew
      · exact List.mem_append_left _ hold
      · exact List.mem_append_right _ (List.mem_cons_of_mem _ hnew)
    have hitwc := hwc it hit
    rcases hdepths it hit with hone | hlarge
    · by_cases hd₂ : d = 1
      · refine iff_of_true ?_ (fun hskip => hskip.1 hd₂)
        intro y hy
        have := hwc y (hrest y hy)
        rw [hdepth, hcur]
        omega
      · -- a large request completes: everything fits, so the head was taken
        have hnil : before = [] := by
          cases hb : before with
          | nil => rfl
          | cons y ys =>
              have hy := hbefore y (by rw [hb]; exact List.mem_cons_self ..)
              have := hdepths y (by rw [hq, hb]; exact List.mem_cons_self ..)
              omega
        rw [hnil, List.nil_append] at hq hq'
        constructor
        · rintro hwc' ⟨-, x, rest, hqx, -, y, hy, hyone⟩
          have hsame : rest = after := by
            rw [hqx] at hq
            exact (List.cons.inj hq).2
          have := hwc' y (by rw [hq', ← hsame]; exact hy)
          rw [hdepth, hcur] at this
          omega
        · intro hno y hy
          have hyne : y.embedded.depth ≠ 1 := by
            intro hyone
            exact hno ⟨hd₂, it, after, hq, hone, y, hq' ▸ hy, hyone⟩
          have := hdepths y (hrest y hy)
          rw [hdepth, hcur]
          omega
    · refine iff_of_true ?_ ?_
      · intro y hy
        have := hwc y (hrest y hy)
        rw [hdepth, hcur]
        omega
      · rintro ⟨hd₂, x, rest, hqx, hone, -⟩
        have hxfit := (hhead x rest hqx hone).2
        -- the head is small and fits, so the large request was not taken
        cases hb : before with
        | nil =>
            rw [hb, List.nil_append, hqx] at hq
            have hx : x = it := (List.cons.inj hq).1
            rw [hx] at hone
            omega
        | cons y ys =>
            rw [hb, hqx] at hq
            have hx : x = y := (List.cons.inj hq).1
            have := hbefore y (by rw [hb]; exact List.mem_cons_self ..)
            rw [hx] at hxfit
            omega

theorem Books.of_hard (hd : 0 ≤ depth) (hf : 0 ≤ factor)
    (h : Completing myShare calculateDiff depth factor large true s) : Books true s :=
  (Unstuck.of_completing hd hf h).books

/-- One step keeps every slot a waiting request could use busy, unless it is
the completion described by `LeavesIdle`. -/
theorem WorkConserving.step (hf : 1 ≤ factor) (hdf : factor ≤ depth)
    (hs : Completing myShare calculateDiff depth factor large true s) (h : WorkConserving s)
    {e : Event} (hok : s.Own e) (hstep : s.step myShare calculateDiff e = .ok s') :
    WorkConserving s' ↔ ¬ s.LeavesIdle e := by
  obtain ⟨ha, hch⟩ := hs.charged
  have hconfig' := (hch.step ha hok hstep).config
  cases e with
  | arrive a event size =>
      have hne : event ≠ .completeIo := by
        rcases hok.2.2 with rfl | rfl <;> decide
      obtain ⟨it, g₁, harr⟩ := arrive_cases ha.order hne hstep
      exact iff_of_true (h.arrives hf hch harr hconfig') id
  | complete entry r =>
      obtain ⟨hentry, hr, hown⟩ := hok
      have hbooks := Books.of_hard (by omega) (by omega) hs
      have hbound := hbooks.bound
      rw [hch.config.depth] at hbound
      exact WorkConserving.frees hf hch.config.depth hbound
        (fun it hit => hch.depth_cases (Charged.queued_enqueued ha hit))
        (hch.depth_cases (hch.dispatched entry hentry)) h
        (PvfsProxy.frees hch hr hown (complete_cases ha.order hstep))
  | retire p =>
      obtain rfl := Except.ok.inj hstep
      exact iff_of_true h id

/-- **Work conservation.** With hard blocking and a large factor within the
depth, no waiting request ever fits into the slots left, in every run without a
completion as in `LeavesIdle`; any such completion leaves usable slots idle. -/
theorem sfqdFull_work_conserving (hf : 1 ≤ factor) (hdf : factor ≤ depth) :
    (∀ s, Reaches (fun s e => s.Own e ∧ ¬ s.LeavesIdle e) myShare calculateDiff depth factor
        large true s → WorkConserving s)
      ∧ ∀ s e s', Completing myShare calculateDiff depth factor large true s →
          WorkConserving s → s.Own e → s.step myShare calculateDiff e = .ok s' →
          (WorkConserving s' ↔ ¬ s.LeavesIdle e) := by
  refine ⟨?_, fun s e s' hs h hok hstep => h.step hf hdf hs hok hstep⟩
  rintro s ⟨none, appStats, mem, es, hmem, hrun⟩
  have hinit : Completing myShare calculateDiff depth factor large true
      (FullRun.init depth factor large true none appStats mem) :=
    ⟨none, appStats, mem, [], hmem, .nil⟩
  have hboth : Completing myShare calculateDiff depth factor large true s ∧ WorkConserving s := by
    refine hrun.invariant (P := fun s => Completing myShare calculateDiff depth factor large true s
      ∧ WorkConserving s) ⟨hinit, ?_⟩ ?_
    · intro it hit
      cases hit
    · rintro t e u ⟨ht, hwc⟩ ⟨hok, hkeep⟩ hstep
      exact ⟨ht.snoc hok hstep, (hwc.step hf hdf ht hok hstep).mpr hkeep⟩
  exact hboth.2

end hard

/-- The entry of a first 128 KB request dispatched with hard blocking. -/
def largeEntry (factor : Int) : SfqdFullItem × Int :=
  (sfqdFullNewItem (fullArrival 1 0).pool (fullArrival 1 0).si
    (fullSize true (fullArrival 1 0)).pi factor 0 4096 0 131072 0, factor)

/-- Its completion. -/
def largeComplete (factor : Int) : Event :=
  .complete (largeEntry factor)
    { event := .completeIo, completeSize := 131072, lastAppIndex := 0,
      item := some (largeEntry factor).1 }

/-- Ten slots, all taken by a large request, and two small ones waiting: when
the large one completes one of them is dispatched and nine slots stay idle. -/
theorem sfqdFull_work_conserving_fails :
    ¬ ∀ depth factor : Int, ∀ large, ∀ s, 1 ≤ factor → factor ≤ depth →
        Completing (fun _ _ _ _ _ _ => 0) (fun _ _ => 0) depth factor large true s →
        WorkConserving s := by
  intro hall
  obtain ⟨s, hrun, hs⟩ := Machine.Run.exists_of_exec FullRun.Own
    (FullRun.step (fun _ _ _ _ _ _ => 0) fun _ _ => 0)
    (FullRun.init 10 10 false true true (fun _ => { appWeight := 1 }) fun _ => none)
    [.arrive (fullSize true (fullArrival 1 0)) .newIo 131072, .arrive (fullArrival 1 1) .newIo 4096,
      .arrive (fullArrival 1 2) .newIo 4096, largeComplete 10]
    (fun s => decide (∀ it ∈ s.queued,
      s.g.sched.depth - s.g.sched.currentDepth < it.embedded.depth))
    (a := false) (by decide +kernel)
  exact of_decide_eq_false hs
    (hall 10 10 false s (by decide) (by decide) ⟨true, _, _, _, fun _ => rfl, hrun⟩)

/-- With one small request waiting the completion leaves nothing to dispatch. -/
theorem sfqdFull_work_conserving_example :
    ∃ s : FullRun, s.outstanding.map (·.2) = [1] ∧ WorkConserving s := by
  obtain ⟨s, hrun, hs⟩ := Machine.Run.exists_of_exec
    (fun s e => FullRun.Own s e ∧ ¬ FullRun.LeavesIdle s e)
    (FullRun.step (fun _ _ _ _ _ _ => 0) fun _ _ => 0)
    (FullRun.init 10 10 false true true (fun _ => { appWeight := 1 }) fun _ => none)
    [.arrive (fullSize true (fullArrival 1 0)) .newIo 131072, .arrive (fullArrival 1 1) .newIo 4096,
      largeComplete 10]
    (fun s => s.outstanding.map (·.2))
    (a := [1]) (by decide +kernel)
  exact ⟨s, hs, (sfqdFull_work_conserving (by decide) (by decide)).1 s
    ⟨true, _, _, _, fun _ => rfl, hrun⟩⟩

/-- Eight slots and the default factor of ten: a request of 128 KB that arrives
first waits with nothing outstanding. -/
theorem large_waits :
    ∃ s : FullRun, Completing (fun _ _ _ _ _ _ => 0) (fun _ _ => 0) 8 10 false true s
      ∧ s.outstanding = [] ∧ s.queued ≠ [] := by
  obtain ⟨s, hrun, hs⟩ := Machine.Run.exists_of_exec FullRun.Own
    (FullRun.step (fun _ _ _ _ _ _ => 0) fun _ _ => 0)
    (FullRun.init 8 10 false true true (fun _ => { appWeight := 1 }) fun _ => none)
    [.arrive (fullSize true (fullArrival 1 0)) .newIo 131072]
    (fun s => (s.outstanding.map (·.2), s.queued.map (·.itemId)))
    (a := ([], [0])) (by decide +kernel)
  obtain ⟨hout, hqueued⟩ := Prod.mk.inj hs
  refine ⟨s, ⟨true, _, _, _, fun _ => rfl, hrun⟩, List.map_eq_nil_iff.mp hout, ?_⟩
  intro hnil
  rw [hnil] at hqueued
  cases hqueued

theorem sfqdFull_not_stuck_fails :
    ¬ ∀ depth factor : Int, ∀ large hard, ∀ s, 1 ≤ depth → 1 ≤ factor →
        Completing (fun _ _ _ _ _ _ => 0) (fun _ _ => 0) depth factor large hard s →
        s.outstanding = [] → s.queued = [] := by
  intro hall
  obtain ⟨s, hs, hidle, hne⟩ := large_waits
  exact hne (hall 8 10 false true s (by decide) (by decide) hs hidle)

theorem sfqdFull_not_stuck_example :
    ∃ s : FullRun, Completing (fun _ _ _ _ _ _ => 0) (fun _ _ => 0) 8 10 false true s
      ∧ ∃ it ∈ s.enqueued, 8 < it.embedded.depth := by
  obtain ⟨s, hs, hidle, hne⟩ := large_waits
  refine ⟨s, hs, ?_⟩
  by_contra hno
  exact hne ((sfqdFull_not_stuck (by decide) (by decide) hs hidle).mpr fun h => hno h.2)

end PvfsProxy
