import PvfsProxy.DsfqBroadcast

/-!
# The threshold of DSFQ

A DSFQ proxy collects `dsfq_threshold` bytes before it tells its peers. The counter that is
compared with the threshold is the sum of those the broadcast is made of, so every
broadcast tells at least the threshold, and what is not told yet is less than that once the
coordinator has run.
-/

namespace PvfsProxy

/-- The bytes a broadcast tells. -/
def broadcastBytes (b : List ProxyMessage) : Int := (b.map (·.periodCount)).sum

/-- The bytes of all applications that no broadcast has told yet. -/
def Dsfq.untold (numApps : Nat) (s : Dsfq) : Int :=
  ((List.range numApps).map fun i => (s.stats i).requestReceiveQueue).sum

theorem broadcastBytes_newMsg (numApps : Nat) (s : Dsfq) :
    broadcastBytes (dsfqNewMsg numApps s) = s.untold numApps := by
  unfold broadcastBytes dsfqNewMsg Dsfq.untold
  rw [List.map_map]
  rfl

theorem sum_range_zero (n : Nat) : ((List.range n).map fun _ => (0 : Int)).sum = 0 := by simp

theorem sum_range_add {n k : Nat} (hk : k < n) (f : Nat → Int) (x : Int) :
    ((List.range n).map fun i => f i + if k = i then x else 0).sum
      = ((List.range n).map f).sum + x := by
  induction n with
  | zero => omega
  | succ n ih =>
      rw [List.range_succ, List.map_append, List.map_append, List.sum_append, List.sum_append,
        List.map_singleton, List.map_singleton, List.sum_singleton, List.sum_singleton]
      by_cases heq : k = n
      · subst heq
        have hsame : (List.range k).map (fun i => f i + if k = i then x else 0)
            = (List.range k).map f := by
          refine List.map_congr_left fun i hi => ?_
          rw [if_neg (Nat.ne_of_gt (List.mem_range.mp hi)), Int.add_zero]
        rw [hsame, if_pos rfl]
        omega
      · rw [ih (by omega), if_neg heq]
        omega

/-! ## Outside the broadcast mutex -/

/-- What a broadcast waits for is kept. -/
structure Dsfq.SameThreshold (s s' : Dsfq) : Prop extends s.SameCounters s' where
  counted : s'.currentIoCounter = s.currentIoCounter
  threshold : s'.threshold = s.threshold

theorem dsfqEnqueueQueue_threshold {pool : Nat → Endpoint} {si : SocketInfo} {pi : PvfsInfo}
    {g g' : Globals Dsfq} {b : Bool} (h : dsfqEnqueueQueue pool si pi g = .ok (g', b)) :
    g.sched.SameThreshold g'.sched := by
  have hcounters := dsfqEnqueueQueue_counters h
  obtain ⟨⟨s₁, delay⟩, hdelay, h⟩ := Machine.bind_eq_ok.mp h
  obtain ⟨⟨s₂, b'⟩, hinsert, h⟩ := Machine.bind_eq_ok.mp h
  obtain ⟨rfl, rfl⟩ := Prod.mk.inj (Machine.pure_eq_ok.mp h)
  obtain ⟨q, -, -, hs⟩ := dsfqInsert_ok hinsert
  unfold dsfqTakeDelay at hdelay
  dsimp only at hdelay
  split at hdelay
  · cases hdelay
  · obtain ⟨rfl, -⟩ := Prod.mk.inj (Except.ok.inj hdelay)
    refine ⟨hcounters, ?_, ?_⟩
    · show s₂.currentIoCounter = _
      rw [hs]
      rfl
    · show s₂.threshold = _
      rw [hs]
      rfl

theorem dsfqDequeue_threshold (r : DequeueReason DsfqQueueItem) (g : Globals Dsfq) :
    g.sched.SameThreshold (dsfqDequeue r g).1.sched := by
  have hcounters := dsfqDequeue_counters r g
  rcases dsfqDequeue_cases r g with ⟨-, -, hs⟩ | ⟨it, rest, -, -, hs⟩
  · exact ⟨hcounters, by rw [hs], by rw [hs]⟩
  · exact ⟨hcounters, by rw [hs], by rw [hs]⟩

theorem dsfqReceive_threshold (appIndex : Nat) (periodCount : Int) (g : Globals Dsfq) :
    g.sched.SameThreshold (dsfqReceive appIndex periodCount g).sched :=
  ⟨dsfqReceive_counters appIndex periodCount g, rfl, rfl⟩

/-- A request is counted, and may be the one that reaches the threshold. -/
theorem dsfqCount_threshold (app : Nat) (length : Int) (s : Dsfq) :
    (dsfqCount app length s).currentIoCounter = s.currentIoCounter + length
      ∧ (dsfqCount app length s).threshold = s.threshold
      ∧ (dsfqCount app length s).thresholdReady
        = (s.thresholdReady || decide (s.threshold ≤ s.currentIoCounter + length)) := by
  unfold dsfqCount
  dsimp only
  split
  · rename_i h
    have hreached : s.threshold ≤ s.currentIoCounter + length := h
    refine ⟨rfl, rfl, ?_⟩
    rw [decide_eq_true hreached, Bool.or_true]
  · rename_i h
    have hless : ¬ s.threshold ≤ s.currentIoCounter + length := h
    refine ⟨rfl, rfl, ?_⟩
    rw [decide_eq_false hless, Bool.or_false]
    rfl

/-! ## Batches -/

namespace DsfqProxy

/-- A request has a size. -/
def Sized : Event → Prop
  | .count _ _ pi => 0 ≤ pi.currentDataSize
  | _ => True

instance : DecidablePred Sized
  | .count _ _ pi => inferInstanceAs (Decidable (0 ≤ pi.currentDataSize))
  | .queue .. | .dequeue _ | .receive .. | .coordinate | .work _ =>
    inferInstanceAs (Decidable True)

/-- All bytes counted so far. -/
def totalBytes (s : DsfqProxy) : Int := (s.counted.map (·.2)).sum

/-- The counter, the threshold and the broadcasts fit together. -/
structure Batched (numApps servers : Nat) (threshold : Int) (s : DsfqProxy) : Prop
    extends s.Conserved numApps servers where
  threshold_eq : s.g.sched.threshold = threshold
  nonneg : 0 ≤ s.g.sched.currentIoCounter
  counter : s.g.sched.currentIoCounter = s.g.sched.untold numApps
  reached : s.g.sched.thresholdReady = decide (threshold ≤ s.g.sched.currentIoCounter)
  told : ∀ i < servers, ∀ b ∈ s.broadcast.placed i, threshold ≤ broadcastBytes b
  total : ∀ i < servers, s.totalBytes
    = ((s.broadcast.placed i).map broadcastBytes).sum + s.g.sched.currentIoCounter

variable {numApps servers : Nat} {threshold : Int} {s t : DsfqProxy}

theorem Batched.init (hpos : 0 < threshold) {depth : Int} {appStats : Nat → AppStatistics} :
    Batched numApps servers threshold (DsfqProxy.init depth threshold appStats) where
  toConserved := .init
  threshold_eq := rfl
  nonneg := Int.le_refl 0
  counter := (sum_range_zero numApps).symm
  reached := (decide_eq_false (not_le.mpr hpos)).symm
  told i _ b hb := by cases hb
  total _ _ := rfl

/-- A step outside the broadcast mutex. -/
theorem Batched.queued (h : Batched numApps servers threshold s) {g : Globals Dsfq}
    (hsame : s.g.sched.SameThreshold g.sched) :
    Batched numApps servers threshold { s with g := g } where
  toConserved := h.toConserved.queued hsame.toSameCounters
  threshold_eq := hsame.threshold.trans h.threshold_eq
  nonneg := hsame.counted ▸ h.nonneg
  counter := by
    refine hsame.counted.trans (h.counter.trans ?_)
    unfold Dsfq.untold
    simp only [hsame.counter]
  reached := by
    show g.sched.thresholdReady = decide (threshold ≤ g.sched.currentIoCounter)
    rw [hsame.ready, hsame.counted]
    exact h.reached
  told := h.told
  total i hi := by
    show s.totalBytes = _ + g.sched.currentIoCounter
    rw [hsame.counted]
    exact h.total i hi

theorem Batched.count (h : Batched numApps servers threshold s) {pool : Nat → Endpoint}
    {si : SocketInfo} {pi : PvfsInfo} (hok : s.InApps numApps (.count pool si pi))
    (hsize : 0 ≤ pi.currentDataSize) (ht : s.step numApps servers (.count pool si pi) = .ok t) :
    Batched numApps servers threshold t := by
  have hconserved := h.toConserved.step hok ht
  obtain rfl := Except.ok.inj ht
  obtain ⟨hcounter, hthreshold, hready⟩ :=
    dsfqCount_threshold (pool si.requestSocket).appIndex pi.currentDataSize s.g.sched
  have huntold : (dsfqCount (pool si.requestSocket).appIndex pi.currentDataSize
      s.g.sched).untold numApps = s.g.sched.untold numApps + pi.currentDataSize := by
    unfold Dsfq.untold
    simp only [dsfqCount_counter]
    exact sum_range_add hok _ _
  exact
    { toConserved := hconserved
      threshold_eq := hthreshold.trans h.threshold_eq
      nonneg := by
        have hnonneg := h.nonneg
        show 0 ≤ (dsfqCount _ _ s.g.sched).currentIoCounter
        omega
      counter := by
        rw [← h.counter] at huntold
        exact hcounter.trans huntold.symm
      reached := by
        show (dsfqCount _ _ s.g.sched).thresholdReady
          = decide (threshold ≤ (dsfqCount _ _ s.g.sched).currentIoCounter)
        rw [hready, hcounter, h.reached, h.threshold_eq]
        by_cases hreached : threshold ≤ s.g.sched.currentIoCounter
        · rw [decide_eq_true hreached, Bool.true_or, decide_eq_true (by omega)]
        · rw [decide_eq_false hreached, Bool.false_or]
      told := h.told
      total := by
        intro i hi
        have htotal := h.total i hi
        show ((s.counted ++ [_]).map Prod.snd).sum
          = _ + (dsfqCount _ _ s.g.sched).currentIoCounter
        rw [hcounter, List.map_append, List.sum_append, List.map_singleton, List.sum_singleton,
          ← Int.add_assoc, ← htotal]
        rfl }

theorem Batched.build (h : Batched numApps servers threshold s) (hpos : 0 < threshold)
    (hcomplete : s.broadcast.complete = true) (hready : s.g.sched.thresholdReady = true) :
    Batched numApps servers threshold (s.build numApps servers) where
  toConserved := h.toConserved.build hcomplete hready
  threshold_eq := h.threshold_eq
  nonneg := Int.le_refl 0
  counter := by
    have hcleared : ((List.range numApps).map fun i =>
        ((dsfqClearCounters numApps s.g.sched).stats i).requestReceiveQueue)
        = (List.range numApps).map fun _ => (0 : Int) := by
      refine List.map_congr_left fun i hi => ?_
      simp only [dsfqClearCounters, if_pos (List.mem_range.mp hi)]
    show (0 : Int) = Dsfq.untold numApps (dsfqClearCounters numApps s.g.sched)
    unfold Dsfq.untold
    rw [hcleared, sum_range_zero]
  reached := (decide_eq_false (not_le.mpr hpos)).symm
  told := by
    intro i hi b hb
    have hplaced : (s.build numApps servers).broadcast.placed i
        = s.broadcast.placed i ++ [dsfqNewMsg numApps s.g.sched] := if_pos hi
    rw [hplaced] at hb
    rcases List.mem_append.mp hb with hold | hnew
    · exact h.told i hi b hold
    · rw [List.mem_singleton.mp hnew, broadcastBytes_newMsg, ← h.counter]
      rw [h.reached, decide_eq_true_eq] at hready
      exact hready
  total := by
    intro i hi
    have hplaced : (s.build numApps servers).broadcast.placed i
        = s.broadcast.placed i ++ [dsfqNewMsg numApps s.g.sched] := if_pos hi
    show s.totalBytes = _ + (0 : Int)
    rw [hplaced, List.map_append, List.sum_append, List.map_singleton, List.sum_singleton,
      broadcastBytes_newMsg, ← h.counter, Int.add_zero]
    exact h.total i hi

theorem Batched.step (h : Batched numApps servers threshold s) (hpos : 0 < threshold)
    {e : Event} (hok : s.InApps numApps e) (hsized : Sized e)
    (ht : s.step numApps servers e = .ok t) : Batched numApps servers threshold t := by
  cases e with
  | count pool si pi => exact h.count hok hsized ht
  | queue pool si pi =>
      obtain ⟨⟨g', b⟩, hqueue, ht⟩ := Machine.bind_eq_ok.mp ht
      obtain rfl := Machine.pure_eq_ok.mp ht
      exact h.queued (dsfqEnqueueQueue_threshold hqueue)
  | dequeue r =>
      obtain rfl := Except.ok.inj ht
      exact h.queued (dsfqDequeue_threshold r s.g)
  | receive appIndex periodCount =>
      obtain rfl := Except.ok.inj ht
      exact h.queued (dsfqReceive_threshold appIndex periodCount s.g)
  | coordinate =>
      have hconserved := h.toConserved.step hok ht
      obtain rfl := Except.ok.inj ht
      rcases h.toConserved.trigger_cases with ⟨hg, hb, hc, -⟩ | ⟨hcomplete, hready, hbuild⟩
      · refine ⟨hconserved, ?_, ?_, ?_, ?_, ?_, ?_⟩
        · rw [hg]
          exact h.threshold_eq
        · rw [hg]
          exact h.nonneg
        · rw [hg]
          exact h.counter
        · rw [hg]
          exact h.reached
        · rw [hb]
          exact h.told
        · unfold totalBytes
          rw [hg, hb, hc]
          exact h.total
      · rw [hbuild]
        exact h.build hpos hcomplete hready
  | work revents =>
      have hconserved := h.toConserved.step hok ht
      obtain rfl := Except.ok.inj ht
      refine ⟨hconserved, h.threshold_eq, h.nonneg, h.counter, h.reached, ?_, ?_⟩
      · intro i hi b hb
        have hplaced : (s.broadcast.proxyBroadcastWork servers revents).placed =
            s.broadcast.placed := Broadcast.work_placed revents
        exact h.told i hi b (hplaced ▸ hb)
      · intro i hi
        show s.totalBytes = ((((s.broadcast.proxyBroadcastWork servers revents).placed i).map
          broadcastBytes).sum) + _
        rw [Broadcast.work_placed]
        exact h.total i hi

theorem Batched.run (hpos : 0 < threshold) {depth : Int} {appStats : Nat → AppStatistics}
    {es : List Event}
    (hrun : Machine.Run (fun s e => InApps numApps s e ∧ Sized e)
      (DsfqProxy.step numApps servers) (DsfqProxy.init depth threshold appStats) es s) :
    Batched numApps servers threshold s :=
  hrun.invariant (P := Batched numApps servers threshold) (.init hpos)
    fun _ _ _ hs hok hstep => hs.step hpos hok.1 hok.2 hstep

/-- What is placed tells at least the threshold each time. -/
theorem length_mul_le_sum {bs : List (List ProxyMessage)}
    (h : ∀ b ∈ bs, threshold ≤ broadcastBytes b) :
    (bs.length : Int) * threshold ≤ (bs.map broadcastBytes).sum := by
  induction bs with
  | nil => simp
  | cons b bs ih =>
      obtain ⟨hb, hbs⟩ := List.forall_mem_cons.mp h
      have hrest := ih hbs
      rw [List.length_cons, List.map_cons, List.sum_cons]
      push_cast
      rw [Int.add_mul, Int.one_mul]
      omega

/-- Nothing is told before the threshold is reached. -/
theorem Batched.placed_nil (h : Batched numApps servers threshold s) (hpos : 0 < threshold)
    {i : Nat} (hi : i < servers) (htotal : s.totalBytes < threshold) :
    s.broadcast.placed i = [] := by
  by_contra hne
  have hnonneg := h.nonneg
  have hall := h.total i hi
  have hsum := length_mul_le_sum (h.told i hi)
  have hlength : (1 : Int) ≤ (s.broadcast.placed i).length := by
    have hone := List.length_pos_of_ne_nil hne
    omega
  have hmul := Int.mul_le_mul_of_nonneg_right hlength hpos.le
  omega

theorem Batched.coordinated (h : Batched numApps servers threshold s) (hpos : 0 < threshold)
    (hcomplete : s.broadcast.complete = true) :
    (s.dsfqBroadcastTriggerWork numApps servers).g.sched.currentIoCounter < threshold := by
  have hless : s.g.sched.thresholdReady = false → s.g.sched.currentIoCounter < threshold := by
    intro hready
    have hreached := h.reached
    rw [hready, eq_comm, decide_eq_false_iff_not] at hreached
    exact not_le.mp hreached
  have hbuilt : (s.build numApps servers).g.sched.currentIoCounter < threshold := hpos
  unfold dsfqBroadcastTriggerWork
  rw [hcomplete]
  cases s.coordinator with
  | completeWait =>
      cases hready : s.g.sched.thresholdReady with
      | false => exact hless hready
      | true => exact hbuilt
  | thresholdWait =>
      cases hready : s.g.sched.thresholdReady with
      | false => exact hless hready
      | true => exact hbuilt

end DsfqProxy

/-- **DSFQ tells its peers in batches.** In every state the three threads can reach with a
positive threshold and sizes that are not negative: every broadcast to a peer tells at least
the threshold, all that was counted is in the broadcasts or in the counter, so that there
are no more broadcasts than the bytes pay for, the coordinator is called exactly when the
counter has reached the threshold, and after each of its turns that does not wait for the
last broadcast the counter is below it. -/
theorem dsfq_broadcasts_batched {numApps servers : Nat} {depth threshold : Int}
    (hpos : 0 < threshold) {appStats : Nat → AppStatistics} {es : List DsfqProxy.Event}
    {s : DsfqProxy}
    (hrun : Machine.Run (fun s e => DsfqProxy.InApps numApps s e ∧ DsfqProxy.Sized e)
      (DsfqProxy.step numApps servers) (.init depth threshold appStats) es s) :
    s.g.sched.thresholdReady = decide (threshold ≤ s.g.sched.currentIoCounter)
      ∧ (∀ i < servers, (∀ b ∈ s.broadcast.placed i, threshold ≤ broadcastBytes b)
        ∧ s.totalBytes
          = ((s.broadcast.placed i).map broadcastBytes).sum + s.g.sched.currentIoCounter
        ∧ ((s.broadcast.placed i).length : Int) * threshold + s.g.sched.currentIoCounter
          ≤ s.totalBytes)
      ∧ (s.broadcast.complete = true →
        (s.dsfqBroadcastTriggerWork numApps servers).g.sched.currentIoCounter < threshold) := by
  have hs := DsfqProxy.Batched.run hpos hrun
  refine ⟨hs.reached, fun i hi => ⟨hs.told i hi, hs.total i hi, ?_⟩, hs.coordinated hpos⟩
  have hsum := DsfqProxy.length_mul_le_sum (hs.told i hi)
  have htotal := hs.total i hi
  omega

/-- Two requests of 4 KB, a threshold of 6000 bytes. -/
theorem dsfq_broadcasts_batched_example :
    ∃ s : DsfqProxy, (s.broadcast.placed 0).map broadcastBytes = [8192]
      ∧ ∀ b ∈ s.broadcast.placed 0, 6000 ≤ broadcastBytes b := by
  obtain ⟨s, hrun, hs⟩ := Machine.Run.exists_of_exec
    (fun s e => DsfqProxy.InApps 2 s e ∧ DsfqProxy.Sized e) (DsfqProxy.step 2 1)
    (.init 1 6000 fun _ => { appWeight := 1 })
    [.count (fun _ => { socket := 5, appIndex := 0, weight := 1 })
        { requestSocket := 0, dataSocket := 0, appIndex := 0, rs := 0 }
        { op := .io, tag := 7, reqSize := 64, currentDataSize := 4096 },
      .coordinate,
      .count (fun _ => { socket := 6, appIndex := 1, weight := 1 })
        { requestSocket := 1, dataSocket := 1, appIndex := 1, rs := 0 }
        { op := .io, tag := 7, reqSize := 64, currentDataSize := 4096 },
      .coordinate]
    (fun s => (s.broadcast.placed 0).map broadcastBytes) (a := [8192]) (by decide +kernel)
  exact ⟨s, hs, ((dsfq_broadcasts_batched (by decide) hrun).2.1 0 (by decide)).1⟩

end PvfsProxy
