import PvfsProxy.TwolsfqdRuns

/-!
# The order of the EDF queue

`twolsfqd_edf_enqueue` adds the latency of the first application to the time an
item enters, whoever it belongs to. The deadlines of the queue are therefore in
the order of entry and the sort changes nothing: the queue is first in, first
out. That is the order of the configured deadlines as long as nothing enters
with a latency so small that it would have to overtake (`TwolsfqdRun.InOrder`).
-/

namespace PvfsProxy

open StableSort

/-! ## Time -/

/-- In microseconds. -/
def Timeval.micros (t : Timeval) : Int := t.sec * 1000000 + t.usec

/-- A `struct timeval` that `gettimeofday` returns. -/
def Timeval.Normal (t : Timeval) : Prop := 0 ≤ t.usec ∧ t.usec < 1000000

theorem Timeval.le_iff {a b : Timeval} (ha : a.Normal) (hb : b.Normal) :
    a.le b = true ↔ a.micros ≤ b.micros := by
  obtain ⟨ha₀, ha₁⟩ := ha
  obtain ⟨hb₀, hb₁⟩ := hb
  unfold Timeval.le Timeval.micros
  split <;> rw [decide_eq_true_eq] <;> omega

theorem Timeval.le_trans {a b c : Timeval} (hab : a.le b = true) (hbc : b.le c = true) :
    a.le c = true :=
  (Timeval.totalPreorder_le (α := Timeval) id).trans a b c hab hbc

/-- What is added may be anything, a negative latency too. -/
theorem Timeval.add_le_add {a b : Timeval} (d : Timeval) (ha : a.Normal) (hb : b.Normal)
    (hab : a.micros ≤ b.micros) : (a.add d).le (b.add d) = true := by
  obtain ⟨ha₀, ha₁⟩ := ha
  obtain ⟨hb₀, hb₁⟩ := hb
  unfold Timeval.micros at hab
  unfold Timeval.le Timeval.add
  split <;> split <;> split <;> simp only [decide_eq_true_eq] at * <;> omega

theorem TwolsfqdRun.Settings.normal (σ : TwolsfqdRun.Settings) (n : Nat) : (σ.clock n).Normal :=
  σ.usec n

theorem TwolsfqdRun.Settings.micros_mono (σ : TwolsfqdRun.Settings) {m n : Nat} (h : m ≤ n) :
    (σ.clock m).micros ≤ (σ.clock n).micros := by
  induction h with
  | refl => exact le_refl _
  | @step n _ ih =>
      exact ih.trans ((Timeval.le_iff (σ.normal n) (σ.normal (n + 1))).mp (σ.monotone n))

/-! ## What a history tells -/

/-- When the item entered the EDF queue. -/
def twolsfqdEnteredAt (history : List TwolsfqdEvent) (id : Int) : Option Timeval :=
  history.findSome? fun e =>
    match e with
    | .enter item now => if item.itemId = id then some now else none
    | .leave _ _ => none

/-- The time it entered and the latency of its own application. -/
def twolsfqdOwnDeadline (σ : TwolsfqdRun.Settings) (history : List TwolsfqdEvent)
    (item : TwolsfqdItem) : Int :=
  (twolsfqdEnteredAt history item.itemId).elim 0 Timeval.micros
    + σ.latency item.embedded.appIndex * 1000

/-- An item that leaves the EDF queue has the earliest deadline there. -/
def TwolsfqdEarliestAt (σ : TwolsfqdRun.Settings) (before : List TwolsfqdEvent) :
    TwolsfqdEvent → Prop
  | .enter _ _ => True
  | .leave item queue =>
    item ∈ queue ∧ ∀ other ∈ queue, (twolsfqdEnteredAt before other.itemId).isSome = true
      ∧ twolsfqdOwnDeadline σ before item ≤ twolsfqdOwnDeadline σ before other

/-- So has whatever leaves it. -/
def TwolsfqdEarliest (σ : TwolsfqdRun.Settings) (history : List TwolsfqdEvent) : Prop :=
  ∀ before e after, history = before ++ e :: after → TwolsfqdEarliestAt σ before e

instance (σ : TwolsfqdRun.Settings) (before : List TwolsfqdEvent) (e : TwolsfqdEvent) :
    Decidable (TwolsfqdEarliestAt σ before e) :=
  match e with
  | .enter _ _ => inferInstanceAs (Decidable True)
  | .leave _ _ => inferInstanceAs (Decidable (_ ∧ _))

theorem twolsfqdEarliest_iff (σ : TwolsfqdRun.Settings) (history : List TwolsfqdEvent) :
    TwolsfqdEarliest σ history
      ↔ ∀ k (hk : k < history.length), TwolsfqdEarliestAt σ (history.take k) history[k] := by
  constructor
  · intro h k hk
    refine h (history.take k) history[k] (history.drop (k + 1)) ?_
    rw [← List.drop_eq_getElem_cons hk, List.take_append_drop]
  · rintro h before e after rfl
    have hat := h before.length (by rw [List.length_append, List.length_cons]; omega)
    rw [List.take_left] at hat
    simpa using hat

instance (σ : TwolsfqdRun.Settings) (history : List TwolsfqdEvent) :
    Decidable (TwolsfqdEarliest σ history) :=
  decidable_of_iff _ (twolsfqdEarliest_iff σ history).symm

section history

variable {σ : TwolsfqdRun.Settings} {h : List TwolsfqdEvent} {item : TwolsfqdItem}
  {queue : List TwolsfqdItem}

theorem twolsfqdEnteredAt_append (h h' : List TwolsfqdEvent) (id : Int) :
    twolsfqdEnteredAt (h ++ h') id
      = (twolsfqdEnteredAt h id).or (twolsfqdEnteredAt h' id) :=
  List.findSome?_append

theorem twolsfqdEnteredAt_enter (h : List TwolsfqdEvent) (item : TwolsfqdItem) (now : Timeval)
    (id : Int) :
    twolsfqdEnteredAt (h ++ [.enter item now]) id
      = (twolsfqdEnteredAt h id).or (if item.itemId = id then some now else none) := by
  rw [twolsfqdEnteredAt_append]
  congr 1
  unfold twolsfqdEnteredAt
  rw [List.findSome?_singleton]

theorem twolsfqdEnteredAt_leave (h : List TwolsfqdEvent) (item : TwolsfqdItem)
    (queue : List TwolsfqdItem) (id : Int) :
    twolsfqdEnteredAt (h ++ [.leave item queue]) id = twolsfqdEnteredAt h id := by
  rw [twolsfqdEnteredAt_append]
  exact Option.or_none

theorem twolsfqdEnteredAt_leaves (h : List TwolsfqdEvent) (released kept : List TwolsfqdItem)
    (id : Int) :
    twolsfqdEnteredAt (h ++ twolsfqdLeaves released kept) id = twolsfqdEnteredAt h id := by
  induction released generalizing h with
  | nil => rw [twolsfqdLeaves, List.append_nil]
  | cons item released ih =>
      rw [twolsfqdLeaves, List.append_cons, ih, twolsfqdEnteredAt_leave]

theorem twolsfqdOwnDeadline_congr {h h' : List TwolsfqdEvent} {item item' : TwolsfqdItem}
    (hentered : twolsfqdEnteredAt h' item'.itemId = twolsfqdEnteredAt h item.itemId)
    (happ : item'.embedded.appIndex = item.embedded.appIndex) :
    twolsfqdOwnDeadline σ h' item' = twolsfqdOwnDeadline σ h item := by
  unfold twolsfqdOwnDeadline
  rw [hentered, happ]

theorem TwolsfqdEarliest.snoc (hh : TwolsfqdEarliest σ h) {e : TwolsfqdEvent}
    (he : TwolsfqdEarliestAt σ h e) : TwolsfqdEarliest σ (h ++ [e]) := by
  intro before e' after heq
  rcases List.eq_nil_or_concat after with rfl | ⟨after', last, rfl⟩
  · obtain ⟨rfl, hlast⟩ := List.append_inj' heq rfl
    obtain ⟨rfl, -⟩ := List.cons.inj hlast
    exact he
  · rw [List.concat_eq_append, ← List.cons_append, ← List.append_assoc] at heq
    obtain ⟨rfl, -⟩ := List.append_inj' heq rfl
    exact hh before e' after' rfl

/-- Items that leave in the order of their deadlines. -/
theorem TwolsfqdEarliest.leaves {released kept : List TwolsfqdItem} (hh : TwolsfqdEarliest σ h)
    (hentered : ∀ x ∈ released ++ kept, (twolsfqdEnteredAt h x.itemId).isSome = true)
    (hsorted : (released ++ kept).Pairwise fun a b =>
      twolsfqdOwnDeadline σ h a ≤ twolsfqdOwnDeadline σ h b) :
    TwolsfqdEarliest σ (h ++ twolsfqdLeaves released kept) := by
  induction released generalizing h with
  | nil =>
      rw [twolsfqdLeaves, List.append_nil]
      exact hh
  | cons item released ih =>
      rw [List.cons_append] at hentered hsorted
      obtain ⟨hfirst, hrest⟩ := List.pairwise_cons.mp hsorted
      have hleft : TwolsfqdEarliest σ (h ++ [.leave item (item :: released ++ kept)]) := by
        refine hh.snoc ⟨List.mem_cons_self .., fun other hother => ⟨hentered other hother, ?_⟩⟩
        rcases List.mem_cons.mp hother with rfl | hother
        · exact le_refl _
        · exact hfirst other hother
      rw [twolsfqdLeaves, List.append_cons]
      refine ih hleft (fun x hx => ?_) (hrest.imp fun {a b} hab => ?_)
      · rw [twolsfqdEnteredAt_leave]
        exact hentered x (List.mem_cons_of_mem _ hx)
      · rw [twolsfqdOwnDeadline_congr (twolsfqdEnteredAt_leave ..) rfl,
          twolsfqdOwnDeadline_congr (twolsfqdEnteredAt_leave ..) rfl]
        exact hab

end history

/-! ## The invariant -/

def Twolsfqd.edf (s : Twolsfqd) : List TwolsfqdItem := s.iedfLlistQueue.getD []

/-- The EDF queue is empty and stays so until as many more requests are let
through. -/
def Twolsfqd.Room (s : Twolsfqd) (threshold : Int) (more : Nat) : Prop :=
  s.edf = [] ∧ s.timewindowCurrentQueueLength + more ≤ threshold

theorem Twolsfqd.edf_eq {s : Twolsfqd} {queue : List TwolsfqdItem}
    (h : s.iedfLlistQueue = some queue) : s.edf = queue := by
  unfold Twolsfqd.edf
  rw [h]
  rfl

theorem Twolsfqd.edf_writeSize (it : TwolsfqdItem) (s : Twolsfqd) :
    (s.writeSize it).edf = s.edf.map (twolsfqdWritten it) := by
  unfold Twolsfqd.edf Twolsfqd.writeSize
  cases s.iedfLlistQueue with
  | none => rfl
  | some queue => rfl

section moved

variable {clock : Nat → Timeval} {app : Nat} {item : TwolsfqdItem}
  {released kept : List TwolsfqdItem} {c c' : TwolsfqdCall}

theorem TwolsfqdMoved.edf_perm (h : TwolsfqdMoved clock app item released kept c c') :
    (released ++ kept).Perm (c.sched.edf ++ [item]) := by
  obtain ⟨queue, hqueue, hentry⟩ := h.entered
  rw [Twolsfqd.edf_eq hqueue]
  split at hentry
  · exact hentry.perm
  · rw [hentry]

/-- Where there is room a request goes at once. -/
theorem TwolsfqdMoved.room (h : TwolsfqdMoved clock app item released kept c c')
    (hroom : c.sched.Room c.sched.timewindowQueueThreshold c.sched.waiting.length) :
    released = [item] ∧ kept = []
      ∧ c'.sched.Room c'.sched.timewindowQueueThreshold c'.sched.waiting.length := by
  obtain ⟨hempty, hle⟩ := hroom
  have hlength := h.waiting.length_eq
  rw [List.length_cons] at hlength
  have hperm := h.edf_perm
  rw [hempty, List.nil_append, List.perm_singleton] at hperm
  have hlen := congrArg List.length hperm
  rw [List.length_append, List.length_singleton] at hlen
  have hnil : kept = [] := by
    by_contra hne
    have hfull := h.full hne
    rw [h.config.threshold, h.outstanding] at hfull
    have hpos := List.length_pos_iff.mpr hne
    omega
  rw [hnil, List.append_nil] at hperm
  refine ⟨hperm, hnil, (Twolsfqd.edf_eq h.queue).trans hnil, ?_⟩
  rw [h.outstanding, h.config.threshold, hperm, List.length_singleton]
  omega

end moved

/-- The requests in `waiting` have one latency, which is such that none of them
has to overtake what is in the EDF queue. -/
def Twolsfqd.Behind (σ : TwolsfqdRun.Settings) (history : List TwolsfqdEvent)
    (waiting : List TwolsfqdItem) (s : Twolsfqd) : Prop :=
  (∀ b ∈ waiting, ∀ b' ∈ waiting,
    σ.latency b.embedded.appIndex = σ.latency b'.embedded.appIndex)
  ∧ ∀ x ∈ s.edf, ∀ b ∈ waiting, twolsfqdOwnDeadline σ history x
    ≤ (σ.clock s.ticks).micros + σ.latency b.embedded.appIndex * 1000

/-- The EDF queue is in the order of entry and of the configured deadlines, and
nothing that waits has to overtake. -/
structure TwolsfqdOrdered (σ : TwolsfqdRun.Settings) (h : List TwolsfqdEvent) (s : Twolsfqd) :
    Prop extends TwolsfqdConfigured σ s where
  ids : (s.waiting.map (·.itemId)).Nodup
  fresh : ∀ b ∈ s.waiting, b.itemId < s.itemId ∧ twolsfqdEnteredAt h b.itemId = none
  known : ∀ id, (twolsfqdEnteredAt h id).isSome = true → id < s.itemId
  entered : ∀ x ∈ s.edf, ∃ t, twolsfqdEnteredAt h x.itemId = some t ∧ t.Normal
    ∧ (s.marks x.itemId).deadline = t.add (twolsfqdDeadline (σ.latency 0))
    ∧ t.micros ≤ (σ.clock s.ticks).micros
  fifo : s.edf.Pairwise fun a b => s.edfLe a b = true
  sorted : s.edf.Pairwise fun a b =>
    twolsfqdOwnDeadline σ h a ≤ twolsfqdOwnDeadline σ h b
  overtakes : s.Room s.timewindowQueueThreshold s.waiting.length ∨ s.Behind σ h s.waiting
  earliest : TwolsfqdEarliest σ h

namespace TwolsfqdOrdered

variable {σ : TwolsfqdRun.Settings} {h : List TwolsfqdEvent} {s s' : Twolsfqd}

/-- Nothing moves; sizes may change, and time passes. -/
theorem quiet (hs : TwolsfqdOrdered σ h s) (hc : TwolsfqdConfigured σ s')
    {f : TwolsfqdItem → TwolsfqdItem} (hid : ∀ x, (f x).itemId = x.itemId)
    (happ : ∀ x, (f x).embedded.appIndex = x.embedded.appIndex)
    (hnext : s'.itemId = s.itemId) (hwaiting : s'.waiting = s.waiting.map f)
    (hqueue : s'.edf = s.edf.map f)
    (hmarks : ∀ id, (s'.marks id).deadline = (s.marks id).deadline)
    (hticks : s.ticks ≤ s'.ticks)
    (hroom : s.Room s.timewindowQueueThreshold s.waiting.length →
      s'.Room s'.timewindowQueueThreshold s'.waiting.length ∨ s'.Behind σ h s'.waiting) :
    TwolsfqdOrdered σ h s' := by
  have hown : ∀ x, twolsfqdOwnDeadline σ h (f x) = twolsfqdOwnDeadline σ h x := fun x =>
    twolsfqdOwnDeadline_congr (by rw [hid]) (happ x)
  have htime := σ.micros_mono hticks
  refine { hc with ids := ?_, fresh := ?_, known := ?_, entered := ?_, fifo := ?_, sorted := ?_,
                   overtakes := ?_, earliest := hs.earliest }
  · rw [hwaiting, List.map_map]
    exact (List.map_congr_left fun x _ => hid x) ▸ hs.ids
  · intro b hb
    rw [hwaiting] at hb
    obtain ⟨b₀, hb₀, rfl⟩ := List.mem_map.mp hb
    rw [hid, hnext]
    exact hs.fresh b₀ hb₀
  · rw [hnext]
    exact hs.known
  · intro x hx
    rw [hqueue] at hx
    obtain ⟨x₀, hx₀, rfl⟩ := List.mem_map.mp hx
    obtain ⟨t, hentered, hnormal, hdeadline, hle⟩ := hs.entered x₀ hx₀
    rw [hid, hmarks]
    exact ⟨t, hentered, hnormal, hdeadline, hle.trans htime⟩
  · rw [hqueue, List.pairwise_map]
    refine hs.fifo.imp fun {a b} hab => ?_
    unfold Twolsfqd.edfLe at hab ⊢
    rw [hid, hid, hmarks, hmarks]
    exact hab
  · rw [hqueue, List.pairwise_map]
    refine hs.sorted.imp fun {a b} hab => ?_
    rw [hown, hown]
    exact hab
  · rcases hs.overtakes with hroom' | ⟨hsame, hbehind⟩
    · exact hroom hroom'
    · right
      unfold Twolsfqd.Behind
      rw [hwaiting, hqueue]
      refine ⟨?_, ?_⟩
      · intro b hb b' hb'
        obtain ⟨b₀, hb₀, rfl⟩ := List.mem_map.mp hb
        obtain ⟨b₁, hb₁, rfl⟩ := List.mem_map.mp hb'
        rw [happ, happ]
        exact hsame b₀ hb₀ b₁ hb₁
      · intro x hx b hb
        obtain ⟨x₀, hx₀, rfl⟩ := List.mem_map.mp hx
        obtain ⟨b₀, hb₀, rfl⟩ := List.mem_map.mp hb
        rw [hown, happ]
        have hle := hbehind x₀ hx₀ b₀ hb₀
        omega

theorem leaves {released kept : List TwolsfqdItem} (hc : TwolsfqdConfigured σ s')
    (hids : (s'.waiting.map (·.itemId)).Nodup)
    (hfresh : ∀ b ∈ s'.waiting, b.itemId < s'.itemId ∧ twolsfqdEnteredAt h b.itemId = none)
    (hknown : ∀ id, (twolsfqdEnteredAt h id).isSome = true → id < s'.itemId)
    (hqueue : s'.edf = kept)
    (hentered : ∀ x ∈ released ++ kept, ∃ t, twolsfqdEnteredAt h x.itemId = some t ∧ t.Normal
      ∧ (s'.marks x.itemId).deadline = t.add (twolsfqdDeadline (σ.latency 0))
      ∧ t.micros ≤ (σ.clock s'.ticks).micros)
    (hfifo : (released ++ kept).Pairwise fun a b => s'.edfLe a b = true)
    (hsorted : (released ++ kept).Pairwise fun a b =>
      twolsfqdOwnDeadline σ h a ≤ twolsfqdOwnDeadline σ h b)
    (hovertakes : s'.Room s'.timewindowQueueThreshold s'.waiting.length
      ∨ s'.Behind σ h s'.waiting)
    (hearliest : TwolsfqdEarliest σ h) :
    TwolsfqdOrdered σ (h ++ twolsfqdLeaves released kept) s' := by
  have hown : ∀ x, twolsfqdOwnDeadline σ (h ++ twolsfqdLeaves released kept) x
      = twolsfqdOwnDeadline σ h x := fun x =>
    twolsfqdOwnDeadline_congr (twolsfqdEnteredAt_leaves ..) rfl
  have hkept : kept.Sublist (released ++ kept) := List.sublist_append_right ..
  refine { hc with ids := hids, fresh := ?_, known := ?_, entered := ?_, fifo := ?_, sorted := ?_,
                   overtakes := ?_, earliest := ?_ }
  · intro b hb
    rw [twolsfqdEnteredAt_leaves]
    exact hfresh b hb
  · intro id hid
    rw [twolsfqdEnteredAt_leaves] at hid
    exact hknown id hid
  · intro x hx
    rw [hqueue] at hx
    rw [twolsfqdEnteredAt_leaves]
    exact hentered x (hkept.subset hx)
  · rw [hqueue]
    exact hfifo.sublist hkept
  · rw [hqueue]
    refine (hsorted.sublist hkept).imp fun {a b} hab => ?_
    rw [hown, hown]
    exact hab
  · rcases hovertakes with hroom | ⟨hsame, hbehind⟩
    · exact .inl hroom
    · refine .inr ⟨hsame, fun x hx b hb => ?_⟩
      rw [hown]
      exact hbehind x hx b hb
  · refine hearliest.leaves (fun x hx => ?_) hsorted
    obtain ⟨t, ht, -⟩ := hentered x hx
    rw [ht]
    rfl

theorem still (hs : TwolsfqdOrdered σ h s) (hc : TwolsfqdConfigured σ s')
    (hnext : s'.itemId = s.itemId) (hwaiting : s'.waiting = s.waiting)
    (hqueue : s'.iedfLlistQueue = s.iedfLlistQueue)
    (hmarks : ∀ id, (s'.marks id).deadline = (s.marks id).deadline)
    (hticks : s.ticks ≤ s'.ticks)
    (houtstanding : s'.timewindowCurrentQueueLength ≤ s.timewindowCurrentQueueLength)
    (hthreshold : s'.timewindowQueueThreshold = s.timewindowQueueThreshold) :
    TwolsfqdOrdered σ h s' := by
  have hedf : s'.edf = s.edf := by
    unfold Twolsfqd.edf
    rw [hqueue]
  refine hs.quiet hc (f := id) (fun _ => rfl) (fun _ => rfl) hnext ?_ ?_ hmarks hticks ?_
  · rw [hwaiting, List.map_id]
  · rw [hedf, List.map_id]
  · rintro ⟨hempty, hle⟩
    left
    refine ⟨hedf.trans hempty, ?_⟩
    rw [hwaiting, hthreshold]
    omega

section enters

variable {app : Nat} {item : TwolsfqdItem} {released kept : List TwolsfqdItem}
  {c c' : TwolsfqdCall}

theorem item_fresh (hs : TwolsfqdOrdered σ h c.sched)
    (hmove : TwolsfqdMoved σ.clock app item released kept c c') :
    item.itemId < c.sched.itemId ∧ twolsfqdEnteredAt h item.itemId = none :=
  hs.fresh item (hmove.waiting.symm.subset (List.mem_cons_self ..))

theorem enteredAt_self (hnone : twolsfqdEnteredAt h item.itemId = none) (now : Timeval) :
    twolsfqdEnteredAt (h ++ [.enter item now]) item.itemId = some now := by
  rw [twolsfqdEnteredAt_enter, hnone, if_pos rfl]
  rfl

theorem enteredAt_old (hs : TwolsfqdOrdered σ h s)
    (hnone : twolsfqdEnteredAt h item.itemId = none) (now : Timeval) {x : TwolsfqdItem}
    (hx : x ∈ s.edf) :
    twolsfqdEnteredAt (h ++ [.enter item now]) x.itemId = twolsfqdEnteredAt h x.itemId
      ∧ x.itemId ≠ item.itemId := by
  obtain ⟨t, ht, -⟩ := hs.entered x hx
  refine ⟨?_, fun heq => ?_⟩
  · rw [twolsfqdEnteredAt_enter, ht]
    rfl
  · rw [heq, hnone] at ht
    cases ht

/-- What is known of the items of the queue is known of the new one. -/
theorem enters_entered (hs : TwolsfqdOrdered σ h c.sched)
    (hmove : TwolsfqdMoved σ.clock app item released kept c c') :
    ∀ x ∈ c.sched.edf ++ [item], ∃ t,
      twolsfqdEnteredAt (h ++ [.enter item (σ.clock c.sched.ticks)]) x.itemId = some t
      ∧ t.Normal ∧ (c'.sched.marks x.itemId).deadline = t.add (twolsfqdDeadline (σ.latency 0))
      ∧ t.micros ≤ (σ.clock c'.sched.ticks).micros := by
  have hnone := (hs.item_fresh hmove).2
  have htime := σ.micros_mono (show c.sched.ticks ≤ c'.sched.ticks by rw [hmove.ticks]; omega)
  intro x hx
  rw [hmove.deadline]
  rcases List.mem_append.mp hx with hx | hx
  · obtain ⟨hsame, hne⟩ := hs.enteredAt_old hnone (σ.clock c.sched.ticks) hx
    obtain ⟨t, ht, hn, hdeadline, hle⟩ := hs.entered x hx
    rw [hsame, if_neg hne]
    exact ⟨t, ht, hn, hdeadline, hle.trans htime⟩
  · obtain rfl := List.mem_singleton.mp hx
    rw [if_pos rfl, hs.deadlines]
    exact ⟨_, enteredAt_self hnone _, σ.normal _, rfl, htime⟩

/-- Its deadline is the latest there. -/
theorem enters_fifo (hs : TwolsfqdOrdered σ h c.sched)
    (hmove : TwolsfqdMoved σ.clock app item released kept c c') :
    (c.sched.edf ++ [item]).Pairwise fun a b => c'.sched.edfLe a b = true := by
  have hnone := (hs.item_fresh hmove).2
  have hold : ∀ a ∈ c.sched.edf, a.itemId ≠ item.itemId := fun a ha =>
    (hs.enteredAt_old hnone (σ.clock c.sched.ticks) ha).2
  refine List.pairwise_append.mpr ⟨?_, List.pairwise_singleton _ _, ?_⟩
  · refine hs.fifo.imp_of_mem fun {a b} ha hb hab => ?_
    unfold Twolsfqd.edfLe at hab ⊢
    rw [hmove.deadline, hmove.deadline, if_neg (hold a ha), if_neg (hold b hb)]
    exact hab
  · intro a ha b hb
    obtain rfl := List.mem_singleton.mp hb
    obtain ⟨t, -, hn, hdeadline, hle⟩ := hs.entered a ha
    unfold Twolsfqd.edfLe
    rw [hmove.deadline, hmove.deadline, if_neg (hold a ha), if_pos rfl, hdeadline, hs.deadlines]
    exact Timeval.add_le_add _ hn (σ.normal _) hle

theorem ownDeadline_self (hnone : twolsfqdEnteredAt h item.itemId = none) (now : Timeval) :
    twolsfqdOwnDeadline σ (h ++ [.enter item now]) item
      = now.micros + σ.latency item.embedded.appIndex * 1000 := by
  unfold twolsfqdOwnDeadline
  rw [enteredAt_self hnone]
  rfl

/-- So is its configured deadline, if it need not overtake. -/
theorem enters_sorted (hs : TwolsfqdOrdered σ h c.sched)
    (hmove : TwolsfqdMoved σ.clock app item released kept c c') :
    (c.sched.edf ++ [item]).Pairwise fun a b =>
      twolsfqdOwnDeadline σ (h ++ [.enter item (σ.clock c.sched.ticks)]) a
        ≤ twolsfqdOwnDeadline σ (h ++ [.enter item (σ.clock c.sched.ticks)]) b := by
  have hnone := (hs.item_fresh hmove).2
  have hown : ∀ x ∈ c.sched.edf, twolsfqdOwnDeadline σ
      (h ++ [.enter item (σ.clock c.sched.ticks)]) x = twolsfqdOwnDeadline σ h x := fun x hx =>
    twolsfqdOwnDeadline_congr (hs.enteredAt_old hnone _ hx).1 rfl
  refine List.pairwise_append.mpr ⟨?_, List.pairwise_singleton _ _, ?_⟩
  · refine hs.sorted.imp_of_mem fun {a b} ha hb hab => ?_
    rw [hown a ha, hown b hb]
    exact hab
  · intro a ha b hb
    obtain rfl := List.mem_singleton.mp hb
    rw [hown a ha, ownDeadline_self hnone]
    rcases hs.overtakes with ⟨hempty, -⟩ | ⟨-, hbehind⟩
    · rw [hempty] at ha
      cases ha
    · exact hbehind a ha b (hmove.waiting.symm.subset (List.mem_cons_self ..))

/-- A request enters at the end of the queue. -/
theorem move (hs : TwolsfqdOrdered σ h c.sched) (hc : TwolsfqdConfigured σ c'.sched)
    (hmove : TwolsfqdMoved σ.clock app item released kept c c') :
    TwolsfqdOrdered σ (h ++ .enter item (σ.clock c.sched.ticks) :: twolsfqdLeaves released kept)
      c'.sched := by
  have hwaiting := hmove.waiting
  obtain ⟨hitemId, hnone⟩ := hs.item_fresh hmove
  have hitem : item ∈ c.sched.waiting := hwaiting.symm.subset (List.mem_cons_self ..)
  have hrest : ∀ b ∈ c'.sched.waiting, b ∈ c.sched.waiting := fun b hb =>
    hwaiting.symm.subset (List.mem_cons_of_mem _ hb)
  have hids := (hwaiting.map (·.itemId)).nodup_iff.mp hs.ids
  rw [List.map_cons] at hids
  obtain ⟨hnotin, hids⟩ := List.nodup_cons.mp hids
  have htime := σ.micros_mono (show c.sched.ticks ≤ c'.sched.ticks by rw [hmove.ticks]; omega)
  -- the sort leaves the queue as it is
  have hqueue : released ++ kept = c.sched.edf ++ [item] := by
    obtain ⟨queue, hqueue, hentry⟩ := hmove.entered
    have hfifo := hs.enters_fifo hmove
    rw [Twolsfqd.edf_eq hqueue] at hfifo ⊢
    split at hentry
    · exact hentry.unique (Timeval.totalPreorder_le _) (.of_sorted hfifo)
    · exact hentry
  have hkept : c'.sched.edf = kept := Twolsfqd.edf_eq hmove.queue
  rw [List.append_cons]
  refine leaves hc hids ?_ ?_ hkept (hqueue ▸ hs.enters_entered hmove)
    (hqueue ▸ hs.enters_fifo hmove) (hqueue ▸ hs.enters_sorted hmove) ?_
    (hs.earliest.snoc trivial)
  · intro b hb
    obtain ⟨hlt, hb'⟩ := hs.fresh b (hrest b hb)
    rw [hmove.config.itemId, twolsfqdEnteredAt_enter, hb', if_neg]
    · exact ⟨hlt, rfl⟩
    · intro heq
      exact hnotin (heq ▸ List.mem_map_of_mem hb)
  · intro id hid
    rw [hmove.config.itemId]
    rw [twolsfqdEnteredAt_enter] at hid
    by_cases hid' : item.itemId = id
    · exact hid' ▸ hitemId
    · rw [if_neg hid', Option.or_none] at hid
      exact hs.known id hid
  · rcases hs.overtakes with ⟨hempty, hroom⟩ | ⟨hsame, hbehind⟩
    · exact .inl (hmove.room ⟨hempty, hroom⟩).2.2
    · right
      refine ⟨fun b hb b' hb' => hsame b (hrest b hb) b' (hrest b' hb'), fun x hx b hb => ?_⟩
      rw [hkept] at hx
      have hx' : x ∈ c.sched.edf ++ [item] := hqueue ▸ List.mem_append_right _ hx
      rcases List.mem_append.mp hx' with hx' | hx'
      · rw [twolsfqdOwnDeadline_congr (hs.enteredAt_old hnone _ hx').1 rfl]
        have hle := hbehind x hx' b (hrest b hb)
        omega
      · obtain rfl := List.mem_singleton.mp hx'
        rw [ownDeadline_self hnone, hsame x hitem b (hrest b hb)]
        omega

end enters

theorem round {released kept : List TwolsfqdItem} {c c' : TwolsfqdCall}
    (hs : TwolsfqdOrdered σ h c.sched) (hc : TwolsfqdConfigured σ c'.sched)
    (hround : TwolsfqdRounded σ.clock released kept c c') :
    TwolsfqdOrdered σ (h ++ twolsfqdLeaves released kept) c'.sched := by
  have hwaiting := hround.sarc.waiting
  have hedf : c.sched.edf = released ++ kept := Twolsfqd.edf_eq hround.found
  have hkept : c'.sched.edf = kept := Twolsfqd.edf_eq hround.left.queue
  have hdeadline : ∀ id, (c'.sched.marks id).deadline = (c.sched.marks id).deadline := by
    intro id
    rw [hround.left.marks]
    split
    · rfl
    · rfl
  have hticks : c'.sched.ticks = c.sched.ticks + 1 := hround.left.ticks
  have htime := σ.micros_mono (show c.sched.ticks ≤ c'.sched.ticks by omega)
  refine leaves hc ?_ ?_ ?_ hkept ?_ ?_ (hedf ▸ hs.sorted) ?_ hs.earliest
  · rw [hwaiting]
    exact hs.ids
  · rw [hwaiting, hround.sarc.itemId]
    exact hs.fresh
  · rw [hround.sarc.itemId]
    exact hs.known
  · intro x hx
    obtain ⟨t, ht, hn, hd, hle⟩ := hs.entered x (hedf.symm ▸ hx)
    rw [hdeadline]
    exact ⟨t, ht, hn, hd, hle.trans htime⟩
  · refine (hedf ▸ hs.fifo).imp fun {a b} hab => ?_
    unfold Twolsfqd.edfLe at hab ⊢
    rw [hdeadline, hdeadline]
    exact hab
  · rw [hwaiting]
    rcases hs.overtakes with ⟨hempty, hroom⟩ | ⟨hsame, hbehind⟩
    · left
      rw [hedf, List.append_eq_nil_iff] at hempty
      refine ⟨hkept.trans hempty.2, ?_⟩
      have houtstanding := hround.left.outstanding
      rw [hempty.1] at houtstanding
      rw [hround.sarc.threshold, houtstanding.trans (Int.add_zero _)]
      exact hroom
    · right
      refine ⟨hsame, fun x hx b hb => ?_⟩
      rw [hkept] at hx
      have hle := hbehind x (hedf ▸ List.mem_append_right _ hx) b hb
      omega

end TwolsfqdOrdered

/-- A run's steps keep it as far as they are ordered themselves. -/
theorem twolsfqdOrdered_holds (σ : TwolsfqdRun.Settings) :
    TwolsfqdHolds σ fun h s => TwolsfqdOrdered σ h s where
  formed hs := hs.toFormed
  parts :=
    { skip := by
        rintro h c s hs hskips
        have hc := (twolsfqdConfigured_holds σ).parts.skip (h := h) hs.toTwolsfqdConfigured hskips
        rcases hskips with rfl | ⟨i, -, rfl⟩
        · exact hs
        · exact hs.still hc rfl rfl rfl (fun _ => rfl) (le_refl _) (le_refl _) rfl
      replenish := fun {h c} hs =>
        hs.still ((twolsfqdConfigured_holds σ).parts.replenish (h := h) hs.toTwolsfqdConfigured)
          rfl rfl rfl (fun _ => rfl) (Nat.le_succ _) (le_refl _) rfl
      move := fun {h c app item released kept c'} hs hmove =>
        hs.move ((twolsfqdConfigured_holds σ).parts.move (h := h) hs.toTwolsfqdConfigured hmove)
          hmove
      round := fun {h c released kept c'} hs hround =>
        hs.round ((twolsfqdConfigured_holds σ).parts.round (h := h) hs.toTwolsfqdConfigured hround)
          hround
      settle := by
        rintro h c item dispatched hs
        refine hs.still ((twolsfqdConfigured_holds σ).parts.settle (h := h) item dispatched
          hs.toTwolsfqdConfigured) rfl rfl rfl (fun id => ?_) (le_refl _) (le_refl _) rfl
        show (Function.update c.sched.marks item.itemId _ id).deadline = _
        by_cases hid : id = item.itemId
        · subst hid
          rw [Function.update_self]
        · rw [Function.update_of_ne hid] }
  count := by
    rintro h g it hs
    have hc := (twolsfqdConfigured_holds σ).count (h := h) it hs.toTwolsfqdConfigured
    obtain ⟨arrival, deadlines, hsched⟩ := twolsfqdCount_sched it g
    rw [hsched] at hc ⊢
    exact hs.still hc rfl rfl rfl (fun _ => rfl) (le_refl _) (Int.sub_le_self _ (by decide)) rfl
  write := by
    rintro h s it hs
    have hc := (twolsfqdConfigured_holds σ).write (h := h) it hs.toTwolsfqdConfigured
    have hwaiting := s.waiting_writeSize it
    have hedf := s.edf_writeSize it
    refine hs.quiet hc (f := twolsfqdWritten it) (fun x => (twolsfqdWritten_same it x).1)
      (fun x => (twolsfqdWritten_same it x).2.2.1) rfl hwaiting hedf (fun _ => rfl) (le_refl _) ?_
    rintro ⟨hempty, hroom⟩
    left
    refine ⟨?_, ?_⟩
    · rw [hedf, hempty, List.map_nil]
    · rw [hwaiting, List.length_map]
      exact hroom

/-! ## Runs -/

/-- A request that arrives goes at once with all that waits, or it has the
latency of all that wait and need not overtake what is in the EDF queue. A
window begins with either true of what waits. -/
def TwolsfqdRun.InOrder (σ : TwolsfqdRun.Settings) (s : TwolsfqdRun) :
    TwolsfqdRun.Event → Prop
  | .arrive a =>
    s.w.g.sched.Room s.w.g.sched.timewindowQueueThreshold (s.w.g.sched.waiting.length + 1)
    ∨ (∀ b ∈ s.w.g.sched.waiting,
        σ.latency b.embedded.appIndex = σ.latency (a.pool a.index).appIndex)
      ∧ ∀ x ∈ s.w.g.sched.edf, twolsfqdOwnDeadline σ s.history x
        ≤ (σ.clock s.w.g.sched.ticks).micros + σ.latency (a.pool a.index).appIndex * 1000
  | .window threshold _ =>
    s.w.g.sched.Room threshold s.w.g.sched.waiting.length
    ∨ s.w.g.sched.Behind σ s.history s.w.g.sched.waiting
  | _ => True

instance (s : Twolsfqd) (threshold : Int) (more : Nat) : Decidable (s.Room threshold more) :=
  inferInstanceAs (Decidable (_ ∧ _))

instance (σ : TwolsfqdRun.Settings) (history : List TwolsfqdEvent) (waiting : List TwolsfqdItem)
    (s : Twolsfqd) : Decidable (s.Behind σ history waiting) :=
  inferInstanceAs (Decidable (_ ∧ _))

instance (σ : TwolsfqdRun.Settings) (s : TwolsfqdRun) (e : TwolsfqdRun.Event) :
    Decidable (s.InOrder σ e) :=
  match e with
  | .arrive _ => inferInstanceAs (Decidable (_ ∨ _ ∧ _))
  | .window _ _ => inferInstanceAs (Decidable (_ ∨ _))
  | .flow _ _ _ => inferInstanceAs (Decidable True)
  | .respond _ _ _ _ => inferInstanceAs (Decidable True)
  | .replenish => inferInstanceAs (Decidable True)

/-- The invariant survives an arrival in order. -/
theorem TwolsfqdOrdered.arrive {σ : TwolsfqdRun.Settings} {s : TwolsfqdRun}
    {a : Arrival TwolsfqdQueueItem} {g : Twolsfqd} {it : TwolsfqdItem}
    (hs : TwolsfqdOrdered σ s.history s.w.g.sched) (hc : TwolsfqdConfigured σ g)
    (hok : s.Allowed σ (.arrive a)) (hin : s.InOrder σ (.arrive a))
    (hi : TwolsfqdInserted a.pool a.si a.pi s.w.g.sched g it) :
    TwolsfqdOrdered σ s.history g := by
  have happ : it.embedded.appIndex = (a.pool a.index).appIndex := hi.app
  have hwaiting := hi.waiting (happ ▸ hs.numApps.symm ▸ hok.1) (hs.lists _)
  have hedf : g.edf = s.w.g.sched.edf := by
    unfold Twolsfqd.edf
    rw [hi.queue]
  refine { hc with ids := ?_, fresh := ?_, known := ?_, entered := ?_, fifo := ?_,
                   sorted := hedf.symm ▸ hs.sorted, overtakes := ?_, earliest := hs.earliest }
  · rw [(hwaiting.map (·.itemId)).nodup_iff, List.map_cons, List.nodup_cons]
    refine ⟨fun hmem => ?_, hs.ids⟩
    obtain ⟨b, hb, hid⟩ := List.mem_map.mp hmem
    have hlt := (hs.fresh b hb).1
    rw [hi.id] at hid
    omega
  · intro b hb
    rw [hi.nextId]
    rcases List.mem_cons.mp (hwaiting.subset hb) with rfl | hb
    · rw [hi.id]
      refine ⟨Int.lt_succ _, ?_⟩
      by_contra hsome
      have hlt := hs.known s.w.g.sched.itemId (Option.isSome_iff_ne_none.mpr hsome)
      omega
    · obtain ⟨hlt, hnone⟩ := hs.fresh b hb
      exact ⟨by omega, hnone⟩
  · intro id hid
    have hlt := hs.known id hid
    rw [hi.nextId]
    omega
  · intro x hx
    rw [hedf] at hx
    rw [hi.deadline, hi.ticks]
    exact hs.entered x hx
  · rw [hedf]
    refine hs.fifo.imp fun {x y} hxy => ?_
    unfold Twolsfqd.edfLe at hxy ⊢
    rw [hi.deadline, hi.deadline]
    exact hxy
  · rcases hin with ⟨hempty, hroom⟩ | ⟨hsame, hbehind⟩
    · left
      refine ⟨hedf.trans hempty, ?_⟩
      rw [hi.threshold, hi.outstanding, hwaiting.length_eq, List.length_cons]
      exact hroom
    · right
      have hlatency : ∀ b ∈ g.waiting,
          σ.latency b.embedded.appIndex = σ.latency (a.pool a.index).appIndex := by
        intro b hb
        rcases List.mem_cons.mp (hwaiting.subset hb) with rfl | hb
        · rw [happ]
        · exact hsame b hb
      refine ⟨fun b hb b' hb' => (hlatency b hb).trans (hlatency b' hb').symm, ?_⟩
      intro x hx b hb
      rw [hi.ticks, hlatency b hb]
      exact hbehind x (hedf ▸ hx)

/-- **Earliest deadline first.** In a run whose arrivals and windows are in order
whatever leaves the EDF queue has the earliest deadline there, for the latencies
as configured. -/
theorem twolsfqd_earliest_first {σ : TwolsfqdRun.Settings}
    {w : World Twolsfqd TwolsfqdQueueItem} {es : List TwolsfqdRun.Event} {s : TwolsfqdRun}
    (h : Machine.Run (fun s e => s.Allowed σ e ∧ s.InOrder σ e) (TwolsfqdRun.step σ)
      (TwolsfqdRun.init σ w) es s) : TwolsfqdEarliest σ s.history := by
  have hordered : TwolsfqdOrdered σ s.history s.w.g.sched := by
    refine h.invariant (P := fun s => TwolsfqdOrdered σ s.history s.w.g.sched) ?_ ?_
    · have hnone := TwolsfqdRun.init_waiting σ w
      refine { TwolsfqdConfigured.init σ w with
        ids := ?_, fresh := ?_, known := ?_, entered := ?_, fifo := .nil, sorted := .nil,
        overtakes := .inr ⟨?_, ?_⟩, earliest := ?_ }
      · rw [hnone]
        exact .nil
      · rw [hnone]
        rintro b ⟨⟩
      · rintro id ⟨⟩
      · rintro x ⟨⟩
      · rw [hnone]
        rintro b ⟨⟩
      · rintro x ⟨⟩
      · intro before e after heq
        cases before with
        | nil => cases heq
        | cons e before => cases heq
    · rintro t e u ht ⟨hok, hin⟩ hstep
      refine (twolsfqdOrdered_holds σ).step ht ?_ ?_ hstep
      · rintro a g it rfl hi
        exact ht.arrive (ht.inserted hi) hok hin hi
      · rintro threshold overload rfl
        refine ht.quiet (ht.nextWindow σ.width threshold) (f := id) (fun _ => rfl) (fun _ => rfl)
          rfl (List.map_id _).symm (List.map_id _).symm (fun _ => rfl) (Nat.le_succ _) fun _ => ?_
        refine hin.imp id fun ⟨hsame, hbehind⟩ => ⟨hsame, fun x hx b hb => ?_⟩
        have htime := σ.micros_mono (Nat.le_succ t.w.g.sched.ticks)
        exact (hbehind x hx b hb).trans (Int.add_le_add_right htime _)
  exact hordered.earliest

/-- Two applications, with latencies of 2 s and of `latency` ms, one request at a
time. -/
def twolsfqdTwoLatencies (latency : Int) : TwolsfqdRun.Settings :=
  twolsfqdSettings 2 100 1000 1 fun app => if app = 0 then 2000 else latency

/-- With one request at the storage one of each application waits in the EDF
queue. The first completes. -/
def twolsfqdOvertakes : List TwolsfqdRun.Event :=
  [.arrive (twolsfqdWrite 0 0 4096), .arrive (twolsfqdWrite 0 1 4096),
    .arrive (twolsfqdWrite 1 2 4096), .flow 0 4096 false]

theorem twolsfqd_earliest_first_example :
    ∃ s : TwolsfqdRun, s.history.length = 5
      ∧ TwolsfqdEarliest (twolsfqdTwoLatencies 3000) s.history := by
  obtain ⟨s, hrun, hlength⟩ := Machine.Run.exists_of_exec
    (fun s e => s.Allowed (twolsfqdTwoLatencies 3000) e ∧ s.InOrder (twolsfqdTwoLatencies 3000) e)
    (TwolsfqdRun.step (twolsfqdTwoLatencies 3000)) (twolsfqdStart (twolsfqdTwoLatencies 3000))
    twolsfqdOvertakes (fun s => s.history.length) (a := 5) (by decide +kernel)
  exact ⟨s, hlength, twolsfqd_earliest_first hrun⟩

/-- With a latency of 100 ms the later request has the earlier deadline. -/
theorem twolsfqd_earliest_first_fails :
    ∃ s, Machine.Run (TwolsfqdRun.Allowed (twolsfqdTwoLatencies 100))
        (TwolsfqdRun.step (twolsfqdTwoLatencies 100)) (twolsfqdStart (twolsfqdTwoLatencies 100))
        twolsfqdOvertakes s
      ∧ ¬ TwolsfqdEarliest (twolsfqdTwoLatencies 100) s.history := by
  obtain ⟨s, hrun, hs⟩ := Machine.Run.exists_of_exec
    (TwolsfqdRun.Allowed (twolsfqdTwoLatencies 100))
    (TwolsfqdRun.step (twolsfqdTwoLatencies 100)) (twolsfqdStart (twolsfqdTwoLatencies 100))
    twolsfqdOvertakes
    (fun s => decide (TwolsfqdEarliest (twolsfqdTwoLatencies 100) s.history)) (a := false)
    (by decide +kernel)
  exact ⟨s, hrun, of_decide_eq_false hs⟩

end PvfsProxy
