import Mathlib.Algebra.Order.Ring.Int
import Mathlib.Algebra.Order.BigOperators.Group.List
import Mathlib.Data.Int.Interval
import Mathlib.Logic.Function.Basic
import Mathlib.Logic.Function.Iterate

/-!
# Broadcasts to the other proxies

`scheduler_DSFQ.c` and `scheduler_vDSFQ.c` tell the other proxies about their
applications in the same way. A coordinator builds one message for each
application and copies them to the buffer of every peer; a broadcast thread
sends each buffer out. The two hand over to each other with the flags
`broadcast_begin` and `broadcast_complete`, under the broadcast mutex, and the
broadcast thread polls and sends outside of it.

A step here is what a thread does between two points where another thread can
run. `Broadcast.Handed` is what the two flags ensure: a buffer is written only
when nothing is left of the previous broadcast, so that what was sent to a
peer is what was placed for it, in order (`Handed.place`, `Handed.work`).
-/

namespace PvfsProxy

structure ProxyMessage where
  appIndex : Nat
  periodCount : Int
deriving Repr, DecidableEq

/-- `sizeof(struct proxy_message)` -/
def proxyMessageSize : Nat := 8

/-- What broadcasts tell of an application. -/
def periodCounts (app : Nat) (bs : List (List ProxyMessage)) : Int :=
  (bs.flatten.map fun m => if m.appIndex = app then m.periodCount else 0).sum

theorem periodCounts_append (app : Nat) (bs cs : List (List ProxyMessage)) :
    periodCounts app (bs ++ cs) = periodCounts app bs + periodCounts app cs := by
  unfold periodCounts
  rw [List.flatten_append, List.map_append, List.sum_append]

/-- A broadcast with one message for each application. -/
theorem periodCounts_range {numApps app : Nat} (happ : app < numApps) (f : Nat → Int) :
    periodCounts app
        [(List.range numApps).map fun i => { appIndex := i, periodCount := f i }] = f app := by
  have hsum : ∀ n, ((List.range n).map fun i => if i = app then f i else 0).sum
      = if app < n then f app else 0 := by
    intro n
    induction n with
    | zero => rfl
    | succ n ih =>
        rw [List.range_succ, List.map_append, List.sum_append, ih, List.map_singleton,
          List.sum_singleton]
        rcases Nat.lt_trichotomy app n with hlt | rfl | hgt
        · rw [if_pos hlt, if_neg (Nat.ne_of_gt hlt), if_pos (by omega), Int.add_zero]
        · rw [if_neg (Nat.lt_irrefl _), if_pos rfl, if_pos (Nat.lt_succ_self _), Int.zero_add]
        · rw [if_neg (by omega), if_neg (Nat.ne_of_lt hgt), if_neg (by omega), Int.add_zero]
  unfold periodCounts
  rw [List.flatten_singleton, List.map_map]
  exact (hsum numApps).trans (if_pos happ)

/-- Where the broadcast thread is: it waits for `broadcast_begin`, it is at a
peer of the poll's list, or it is about to report. -/
inductive BroadcastWorker where
  | beginWait
  | polling (i : Nat)
  | completing
deriving Repr, DecidableEq

/-- The coordinator waits for one of two conditions. -/
inductive BroadcastCoordinator where
  | completeWait
  | thresholdWait
deriving Repr, DecidableEq

/-- What the coordinator and the broadcast thread share. `placed` and `sent`
are the broadcasts copied to a peer's buffer and the ones sent to it so far. -/
structure Broadcast where
  complete : Bool
  begins : Bool
  buffer : Nat → List ProxyMessage
  bufferSize : Nat → Nat
  worker : BroadcastWorker
  placed : Nat → List (List ProxyMessage)
  sent : Nat → List (List ProxyMessage)

def broadcastInit : Broadcast where
  complete := true
  begins := false
  buffer _ := []
  bufferSize _ := 0
  worker := .beginWait
  placed _ := []
  sent _ := []

namespace Broadcast

/-- The coordinator copies the new message to every peer's buffer and lets the
broadcast thread begin. -/
def place (servers : Nat) (newMsg : List ProxyMessage) (b : Broadcast) : Broadcast :=
  { b with
    buffer := fun i => if i < servers then newMsg else b.buffer i
    bufferSize := fun i =>
      if i < servers then newMsg.length * proxyMessageSize else b.bufferSize i
    placed := fun i => if i < servers then b.placed i ++ [newMsg] else b.placed i
    complete := false
    begins := true }

/-- What `send` takes from a buffer of which `size` bytes are left. -/
def taken (msg : List ProxyMessage) (size : Nat) : List (List ProxyMessage) :=
  if size = 0 then [] else [msg.take (size / proxyMessageSize)]

/-- The broadcast that a peer's buffer still holds. -/
def unsent (i : Nat) (b : Broadcast) : List (List ProxyMessage) :=
  taken (b.buffer i) (b.bufferSize i)

/-- `send` takes all that is left, so that nothing is moved within the buffer. -/
def send (i : Nat) (b : Broadcast) : Broadcast :=
  let sentSize := b.bufferSize i
  { b with
    bufferSize := Function.update b.bufferSize i (b.bufferSize i - sentSize)
    sent := Function.update b.sent i (b.sent i ++ b.unsent i) }

/-- The next step of `dsfq_proxy_broadcast_work`; at a peer, `revents` is
whether the poll found that it takes output. -/
def proxyBroadcastWork (servers : Nat) (revents : Bool) (b : Broadcast) : Broadcast :=
  match b.worker with
  | .beginWait => if b.begins then { b with worker := .polling 0 } else b
  | .polling i =>
    if i < servers then
      { (if revents then b.send i else b) with worker := .polling (i + 1) }
    else if (List.range servers).all fun i => b.bufferSize i = 0 then
      { b with worker := .completing }
    else { b with worker := .polling 0 }
  | .completing => { b with begins := false, complete := true, worker := .beginWait }

/-- What holds between the coordinator's steps and the broadcast thread's. -/
structure Handed (servers : Nat) (b : Broadcast) : Prop where
  flags : b.begins = !b.complete
  working : b.worker ≠ .beginWait → b.begins = true
  empty : b.complete = true ∨ b.worker = .completing → ∀ i < servers, b.bufferSize i = 0
  order : ∀ i < servers, b.placed i = b.sent i ++ b.unsent i
  same : ∀ i < servers, ∀ j < servers, b.placed i = b.placed j

variable {servers : Nat} {b : Broadcast}

theorem Handed.init : Handed servers broadcastInit where
  flags := rfl
  working h := absurd rfl h
  empty _ _ _ := rfl
  order _ _ := rfl
  same _ _ _ _ := rfl

theorem unsent_of_empty {i : Nat} (h : b.bufferSize i = 0) : b.unsent i = [] := by
  unfold unsent taken
  rw [h, if_pos rfl]

theorem taken_whole {msg : List ProxyMessage} (h : msg ≠ []) :
    taken msg (msg.length * proxyMessageSize) = [msg] := by
  have hpos := List.length_pos_iff.mpr h
  have hsize : msg.length * proxyMessageSize ≠ 0 := by
    unfold proxyMessageSize
    omega
  unfold taken
  rw [if_neg hsize, Nat.mul_div_cancel _ (by decide), List.take_length]

/-- The coordinator may place a broadcast when the last one was reported
complete. -/
theorem Handed.place (h : Handed servers b) (hcomplete : b.complete = true)
    {newMsg : List ProxyMessage} (hmsg : newMsg ≠ []) :
    Handed servers (b.place servers newMsg) := by
  have hidle : b.worker = .beginWait := by
    by_contra hworker
    have hbegins := h.working hworker
    rw [h.flags, hcomplete] at hbegins
    exact Bool.noConfusion hbegins
  have hempty := h.empty (.inl hcomplete)
  refine ⟨rfl, fun _ => rfl, ?_, ?_, ?_⟩
  · rintro (hbad | hbad)
    · exact Bool.noConfusion hbad
    · exact absurd (hidle.symm.trans hbad) (by decide)
  · intro i hi
    have hsent : b.placed i = b.sent i := by
      rw [h.order i hi, unsent_of_empty (hempty i hi), List.append_nil]
    simp only [Broadcast.place, unsent, if_pos hi]
    rw [taken_whole hmsg, hsent]
  · intro i hi j hj
    simp only [Broadcast.place, if_pos hi, if_pos hj, h.same i hi j hj]

theorem Handed.send (h : Handed servers b) (i : Nat) {w : BroadcastWorker}
    (hw : w ≠ .completing) (hbegins : b.begins = true) :
    Handed servers { b.send i with worker := w } := by
  have hcomplete : b.complete = false := by
    have hflags := h.flags
    rw [hbegins] at hflags
    simpa using hflags
  refine ⟨h.flags, fun _ => hbegins, ?_, ?_, h.same⟩
  · rintro (hbad | hbad)
    · exact absurd (hcomplete.symm.trans hbad) (by decide)
    · exact absurd hbad hw
  · intro j hj
    by_cases hij : j = i
    · subst hij
      have horder := h.order j hj
      simpa [Broadcast.send, unsent, taken] using horder
    · have horder := h.order j hj
      simpa [Broadcast.send, unsent, taken, hij] using horder

theorem Handed.moved (h : Handed servers b) {w : BroadcastWorker} (hbegins : b.begins = true)
    (hw : w = .completing → ∀ i < servers, b.bufferSize i = 0) :
    Handed servers { b with worker := w } where
  flags := h.flags
  working _ := hbegins
  empty := by
    rintro (hcomplete | hdone)
    · exact h.empty (.inl hcomplete)
    · exact hw hdone
  order := h.order
  same := h.same

theorem Handed.work (h : Handed servers b) (revents : Bool) :
    Handed servers (b.proxyBroadcastWork servers revents) := by
  unfold proxyBroadcastWork
  cases hworker : b.worker with
  | beginWait =>
      by_cases hbegins : b.begins = true
      · simp only [if_pos hbegins]
        exact h.moved (w := .polling 0) hbegins (by rintro ⟨⟩)
      · simp only [hbegins]
        exact h
  | polling i =>
      have hbegins := h.working (by rw [hworker]; exact BroadcastWorker.noConfusion)
      by_cases hi : i < servers
      · simp only [if_pos hi]
        cases revents with
        | true => exact h.send i BroadcastWorker.noConfusion hbegins
        | false => exact h.moved hbegins (by rintro ⟨⟩)
      · simp only [if_neg hi]
        by_cases hall : ((List.range servers).all fun i => b.bufferSize i = 0) = true
        · rw [if_pos hall]
          refine h.moved hbegins fun _ j hj => ?_
          simpa using List.all_eq_true.mp hall j (List.mem_range.mpr hj)
        · rw [if_neg hall]
          exact h.moved hbegins (by rintro ⟨⟩)
  | completing =>
      have hempty := h.empty (.inr hworker)
      exact ⟨rfl, fun hw => absurd rfl hw, fun _ => hempty, h.order, h.same⟩

/-- Only the coordinator takes the report back. -/
theorem work_complete (revents : Bool) (h : b.complete = true) :
    (b.proxyBroadcastWork servers revents).complete = true := by
  unfold proxyBroadcastWork
  split
  · split <;> exact h
  · split
    · cases revents <;> exact h
    · split <;> exact h
  · rfl

/-- Only the broadcast thread sends, and it sends behind what it sent. -/
theorem work_sent (revents : Bool) (i : Nat) :
    ∃ extra, (b.proxyBroadcastWork servers revents).sent i = b.sent i ++ extra := by
  have hsend : ∀ j, ∃ extra, (b.send j).sent i = b.sent i ++ extra := by
    intro j
    by_cases hij : i = j
    · subst hij
      exact ⟨b.unsent i, Function.update_self ..⟩
    · exact ⟨[], (Function.update_of_ne hij ..).trans (List.append_nil _).symm⟩
  have hkept : ∃ extra, b.sent i = b.sent i ++ extra := ⟨[], (List.append_nil _).symm⟩
  unfold proxyBroadcastWork
  split
  · split <;> exact hkept
  · rename_i j _
    split
    · cases revents with
      | true => exact hsend j
      | false => exact hkept
    · split <;> exact hkept
  · exact hkept

/-! ## Every broadcast goes out

With peers that take output, the broadcast thread needs at most the rest of a
round, one whole round and its report. -/

theorem work_placed (revents : Bool) :
    (b.proxyBroadcastWork servers revents).placed = b.placed := by
  unfold proxyBroadcastWork
  split
  · split <;> rfl
  · split
    · cases revents <;> rfl
    · split <;> rfl
  · rfl

variable (servers) in
/-- The thread reaches the end of the list, and the buffers it passes are empty
then. -/
theorem polling_end {i : Nat} (hworker : b.worker = .polling i) :
    ∃ n k, servers ≤ k ∧ ((proxyBroadcastWork servers true)^[n] b).worker = .polling k
      ∧ ∀ j < servers, i ≤ j ∨ b.bufferSize j = 0 →
        ((proxyBroadcastWork servers true)^[n] b).bufferSize j = 0 := by
  induction hk : servers - i generalizing i b with
  | zero =>
      refine ⟨0, i, by omega, hworker, ?_⟩
      rintro j hj (hij | hsize)
      · omega
      · exact hsize
  | succ k ih =>
      have hlt : i < servers := by omega
      have hstep : b.proxyBroadcastWork servers true
          = { b.send i with worker := .polling (i + 1) } := by
        unfold proxyBroadcastWork
        rw [hworker]
        simp only [if_pos hlt, if_true]
      obtain ⟨n, last, hlast, hend, hrest⟩ :=
        ih (i := i + 1) (b := { b.send i with worker := .polling (i + 1) }) rfl (by omega)
      refine ⟨n + 1, last, hlast, ?_, ?_⟩
      · rw [Function.iterate_succ_apply, hstep, hend]
      · rw [Function.iterate_succ_apply, hstep]
        intro j hj hor
        refine hrest j hj ?_
        by_cases hij : j = i
        · right
          subst hij
          simp [Broadcast.send]
        · rcases hor with hle | hsize
          · exact .inl (by omega)
          · exact .inr (by simpa [Broadcast.send, hij] using hsize)

theorem Handed.iterate (h : Handed servers b) (n : Nat) :
    Handed servers ((proxyBroadcastWork servers true)^[n] b)
      ∧ ((proxyBroadcastWork servers true)^[n] b).placed = b.placed := by
  induction n with
  | zero => exact ⟨h, rfl⟩
  | succ n ih =>
      rw [Function.iterate_succ_apply']
      exact ⟨ih.1.work true, (work_placed true).trans ih.2⟩

theorem Handed.empties (h : Handed servers b) :
    ∃ n, ∀ i < servers, ((proxyBroadcastWork servers true)^[n] b).bufferSize i = 0 := by
  -- a whole round empties everything
  have hround : ∀ c : Broadcast, c.worker = .polling 0 →
      ∃ n, ∀ i < servers, ((proxyBroadcastWork servers true)^[n] c).bufferSize i = 0 := by
    intro c hc
    obtain ⟨n, -, -, -, hrest⟩ := polling_end servers hc
    exact ⟨n, fun i hi => hrest i hi (.inl (Nat.zero_le i))⟩
  cases hworker : b.worker with
  | beginWait =>
      by_cases hbegins : b.begins = true
      · have hstep : b.proxyBroadcastWork servers true = { b with worker := .polling 0 } := by
          unfold proxyBroadcastWork
          simp only [hworker, if_pos hbegins]
        obtain ⟨n, hn⟩ := hround { b with worker := .polling 0 } rfl
        refine ⟨n + 1, ?_⟩
        rw [Function.iterate_succ_apply, hstep]
        exact hn
      · have hcomplete : b.complete = true := by simpa [h.flags] using hbegins
        exact ⟨0, h.empty (.inl hcomplete)⟩
  | polling i =>
      obtain ⟨n, k, hk, hend, -⟩ := polling_end servers hworker
      by_cases hall : ((List.range servers).all fun i =>
          ((proxyBroadcastWork servers true)^[n] b).bufferSize i = 0) = true
      · refine ⟨n, fun j hj => ?_⟩
        simpa using List.all_eq_true.mp hall j (List.mem_range.mpr hj)
      · -- something was left behind the place where the thread was: another round
        generalize hc : (proxyBroadcastWork servers true)^[n] b = c at hend hall
        have hstep : c.proxyBroadcastWork servers true = { c with worker := .polling 0 } := by
          unfold proxyBroadcastWork
          simp only [hend, if_neg (Nat.not_lt.mpr hk), if_neg hall]
        obtain ⟨m, hm⟩ := hround { c with worker := .polling 0 } rfl
        refine ⟨m + (1 + n), ?_⟩
        rw [Function.iterate_add_apply, Function.iterate_add_apply, hc, Function.iterate_one, hstep]
        exact hm
  | completing => exact ⟨0, h.empty (.inr hworker)⟩

/-- The thread alone sends all that was placed. -/
theorem Handed.flush (h : Handed servers b) :
    ∃ n, ∀ i < servers, ((proxyBroadcastWork servers true)^[n] b).sent i = b.placed i := by
  obtain ⟨n, hempty⟩ := h.empties
  obtain ⟨hhanded, hplaced⟩ := h.iterate n
  refine ⟨n, fun i hi => ?_⟩
  rw [← hplaced, hhanded.order i hi, unsent_of_empty (hempty i hi), List.append_nil]

end Broadcast

end PvfsProxy
