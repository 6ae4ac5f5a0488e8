import PvfsProxy.TwolsfqdDeadlines

/-!
# What a dispatch of 2LSFQD moves

The functions of a dispatch call each other while the credits come back in
between: neither the credits nor what is outstanding decreases. What does is the
number of requests that wait for credits, so any bound above it gives one result
(`twolsfqdDequeueLoop_congr`). A request goes from its application's queue to the
EDF queue and from there to the storage, and never back (`TwolsfqdTransferred`).
-/

namespace PvfsProxy

/-! ## What a history tells -/

/-- The items that entered the EDF queue. -/
def twolsfqdEntered (log : List TwolsfqdEvent) : List TwolsfqdItem :=
  log.filterMap fun e =>
    match e with
    | .enter item _ => some item
    | .leave _ _ => none

/-- The items that left it. -/
def twolsfqdLeft (log : List TwolsfqdEvent) : List TwolsfqdItem :=
  log.filterMap fun e =>
    match e with
    | .enter _ _ => none
    | .leave item _ => some item

section history

variable (log log' : List TwolsfqdEvent) (item : TwolsfqdItem) (now : Timeval)
  (released kept : List TwolsfqdItem)

@[simp] theorem twolsfqdEntered_nil : twolsfqdEntered [] = [] := rfl

@[simp] theorem twolsfqdLeft_nil : twolsfqdLeft [] = [] := rfl

@[simp] theorem twolsfqdEntered_append :
    twolsfqdEntered (log ++ log') = twolsfqdEntered log ++ twolsfqdEntered log' :=
  List.filterMap_append ..

@[simp] theorem twolsfqdLeft_append :
    twolsfqdLeft (log ++ log') = twolsfqdLeft log ++ twolsfqdLeft log' :=
  List.filterMap_append ..

@[simp] theorem twolsfqdEntered_enter :
    twolsfqdEntered (.enter item now :: log) = item :: twolsfqdEntered log := rfl

@[simp] theorem twolsfqdLeft_enter :
    twolsfqdLeft (.enter item now :: log) = twolsfqdLeft log := rfl

@[simp] theorem twolsfqdEntered_leaves : twolsfqdEntered (twolsfqdLeaves released kept) = [] := by
  induction released with
  | nil => rfl
  | cons item released ih => exact ih

@[simp] theorem twolsfqdLeft_leaves : twolsfqdLeft (twolsfqdLeaves released kept) = released := by
  induction released with
  | nil => rfl
  | cons item released ih => exact congrArg (item :: ·) ih

end history

/-! ## The bound -/

/-- `twolsfqd_dequeue` depends on a nested dispatch only where fewer requests
wait. -/
theorem twolsfqdDequeueStep_congr (clock : Nat → Timeval)
    {dequeueAll dequeueAll' : TwolsfqdCall → Except Fault TwolsfqdCall}
    {dequeueAllLog dequeueAllLog' : TwolsfqdCall → List TwolsfqdEvent} {c : TwolsfqdCall}
    (hc : c.sched.Formed)
    (hnested : ∀ c₁ : TwolsfqdCall, c₁.sched.Formed →
      c₁.sched.waiting.length < c.sched.waiting.length →
      (∃ c₂, dequeueAll c₁ = .ok c₂ ∧ dequeueAll' c₁ = .ok c₂)
        ∧ dequeueAllLog c₁ = dequeueAllLog' c₁) :
    twolsfqdDequeueStep clock dequeueAll c = twolsfqdDequeueStep clock dequeueAll' c
      ∧ twolsfqdDequeueStepLog clock dequeueAllLog c
        = twolsfqdDequeueStepLog clock dequeueAllLog' c := by
  obtain ⟨s', next, hfound, ⟨rfl, -, -⟩ | ⟨app, item, rest, rfl, happ, hlist, hpaid, rfl⟩⟩ :=
    twolsfqdSarcNext_found hc
  · unfold twolsfqdDequeueStep twolsfqdDequeueStepLog
    rw [hfound]
    exact ⟨rfl, rfl⟩
  · obtain ⟨released, kept, c₁, hround, hroundLog, hmove⟩ :=
      twolsfqdMoved_of_round clock happ hc.queue hlist hpaid
    rw [twolsfqdDequeueStepLog_eq hfound hround dequeueAllLog hroundLog,
      twolsfqdDequeueStepLog_eq hfound hround dequeueAllLog' hroundLog]
    by_cases hnone : released = []
    · rw [twolsfqdDequeueStep_move hfound hround hnone,
        twolsfqdDequeueStep_move hfound hround hnone, if_pos hnone, if_pos hnone]
      exact ⟨rfl, rfl⟩
    · have hlength := hmove.waiting.length_eq
      rw [List.length_cons] at hlength
      have hspared := (TwolsfqdKeeps.formed clock c₁.sched.waiting.length).updateSpareness
        (h := []) ⟨hmove.formed, le_refl _⟩
      obtain ⟨⟨c₂, hinner, hinner'⟩, hlog⟩ :=
        hnested _ hspared.1 (by have := hspared.2; omega)
      rw [twolsfqdDequeueStep_release hfound hround hnone hinner,
        twolsfqdDequeueStep_release hfound hround hnone hinner', if_neg hnone, if_neg hnone, hlog]
      exact ⟨rfl, rfl⟩

/-- **The bound is never reached**: whatever it is, the dispatch is the same. -/
theorem twolsfqdDequeueLoop_congr (clock : Nat → Timeval) {bound bound' : Nat}
    {c : TwolsfqdCall} (hc : c.sched.Formed) (hbound : c.sched.waiting.length < bound)
    (hbound' : c.sched.waiting.length < bound') :
    twolsfqdDequeueLoop clock bound c = twolsfqdDequeueLoop clock bound' c
      ∧ twolsfqdDequeueLoopLog clock bound c = twolsfqdDequeueLoopLog clock bound' c := by
  induction bound generalizing bound' c with
  | zero => omega
  | succ bound ih =>
      cases bound' with
      | zero => omega
      | succ bound' =>
          have hsame : ∀ c₁ : TwolsfqdCall, c₁.sched.Formed →
              c₁.sched.waiting.length < c.sched.waiting.length →
              twolsfqdDequeueLoop clock bound c₁ = twolsfqdDequeueLoop clock bound' c₁
                ∧ twolsfqdDequeueLoopLog clock bound c₁
                  = twolsfqdDequeueLoopLog clock bound' c₁ :=
            fun c₁ hc₁ hlt => ih hc₁ (by omega) (by omega)
          have hreturns : ∀ c₁ : TwolsfqdCall, c₁.sched.Formed →
              c₁.sched.waiting.length < c.sched.waiting.length →
              ∃ c₂, twolsfqdDequeueLoop clock bound c₁ = .ok c₂ :=
            fun c₁ hc₁ hlt => (twolsfqdDequeueLoop_drains hc₁ (by omega)).imp fun _ h => h.1
          obtain ⟨hstep, hlog⟩ := twolsfqdDequeueStep_congr clock hc
            fun c₁ hc₁ hlt => by
              obtain ⟨c₂, hc₂⟩ := hreturns c₁ hc₁ hlt
              obtain ⟨hloop, hloopLog⟩ := hsame c₁ hc₁ hlt
              exact ⟨⟨c₂, hc₂, hloop ▸ hc₂⟩, hloopLog⟩
          obtain ⟨c₁, next, hrun, hsteps⟩ := twolsfqdDequeueStep_steps clock
            (twolsfqdDequeueLoop clock bound) (twolsfqdDequeueLoopLog clock bound) hc
            fun c₁ hc₁ hlt => twolsfqdDequeueLoop_drains hc₁ (by omega)
          have hnext := hsteps.formed hc
          unfold twolsfqdDequeueLoop twolsfqdDequeueLoopLog
          rw [← hstep, ← hlog, hrun]
          cases next with
          | none => exact ⟨rfl, rfl⟩
          | some item =>
              obtain ⟨hloop, hloopLog⟩ := hsame c₁ hnext.1 (hnext.2 rfl)
              exact ⟨hloop, congrArg (_ ++ ·) hloopLog⟩

/-! ## The way of a request -/

/-- From `c` to `c'` the requests of the history went on: those that entered the
EDF queue had waited for credits, those that left it had been in it. -/
structure TwolsfqdTransferred (c : TwolsfqdCall) (log : List TwolsfqdEvent) (c' : TwolsfqdCall) :
    Prop where
  waiting : (twolsfqdEntered log ++ c'.sched.waiting).Perm c.sched.waiting
  edf : (twolsfqdLeft log ++ c'.sched.edf).Perm (c.sched.edf ++ twolsfqdEntered log)
  queueLength : c'.sched.edfQueueLength
    = c.sched.edfQueueLength + (twolsfqdEntered log).length - (twolsfqdLeft log).length
  outstanding : c'.sched.timewindowCurrentQueueLength
    = c.sched.timewindowCurrentQueueLength + (twolsfqdLeft log).length
  unlocked : c'.unlocked = c.unlocked ++ (twolsfqdLeft log).map (·.socketData.rs)

theorem TwolsfqdTransferred.nil (c : TwolsfqdCall) : TwolsfqdTransferred c [] c where
  waiting := List.Perm.refl _
  edf := by
    rw [twolsfqdEntered_nil, List.append_nil]
    exact List.Perm.refl _
  queueLength := by simp
  outstanding := by simp
  unlocked := by simp

/-- Every part of a dispatch moves what its history says. -/
theorem twolsfqdTransferred_keeps (clock : Nat → Timeval) (c₀ : TwolsfqdCall) :
    TwolsfqdKeeps clock fun log c => TwolsfqdTransferred c₀ log c where
  skip := by
    rintro h c s hc hskips
    rcases hskips with rfl | ⟨i, -, rfl⟩
    · exact ⟨hc.waiting, hc.edf, hc.queueLength, hc.outstanding, hc.unlocked⟩
    · exact ⟨hc.waiting, hc.edf, hc.queueLength, hc.outstanding, hc.unlocked⟩
  replenish hc := ⟨hc.waiting, hc.edf, hc.queueLength, hc.outstanding, hc.unlocked⟩
  move := by
    rintro h c app item released kept c' hc hmove
    refine ⟨?_, ?_, ?_, ?_, ?_⟩
    · have hwaiting := hc.waiting
      rw [twolsfqdEntered_append, twolsfqdEntered_enter, twolsfqdEntered_leaves, List.append_assoc]
      exact (hmove.waiting.symm.append_left _).trans hwaiting
    · have hedf := hc.edf
      have hentered := hmove.edf_perm
      rw [Twolsfqd.edf_eq hmove.queue]
      rw [List.perm_iff_count] at hedf hentered ⊢
      intro a
      have h₁ := hedf a
      have h₂ := hentered a
      simp only [twolsfqdEntered_append, twolsfqdEntered_enter, twolsfqdEntered_leaves,
        twolsfqdLeft_append, twolsfqdLeft_enter, twolsfqdLeft_leaves, List.count_append,
        List.count_cons, List.count_nil] at h₁ h₂ ⊢
      omega
    · rw [hmove.queueLength, hc.queueLength]
      simp only [twolsfqdEntered_append, twolsfqdEntered_enter, twolsfqdEntered_leaves,
        twolsfqdLeft_append, twolsfqdLeft_enter, twolsfqdLeft_leaves, List.length_append,
        List.length_cons, List.length_nil]
      omega
    · rw [hmove.outstanding, hc.outstanding]
      simp only [twolsfqdLeft_append, twolsfqdLeft_enter, twolsfqdLeft_leaves, List.length_append]
      omega
    · rw [hmove.unlocked, hc.unlocked]
      simp
  round := by
    rintro h c released kept c' hc hround
    refine ⟨?_, ?_, ?_, ?_, ?_⟩
    · rw [hround.sarc.waiting, twolsfqdEntered_append, twolsfqdEntered_leaves, List.append_nil]
      exact hc.waiting
    · have hedf := hc.edf
      rw [Twolsfqd.edf_eq hround.found] at hedf
      rw [Twolsfqd.edf_eq hround.left.queue, twolsfqdEntered_append, twolsfqdEntered_leaves,
        List.append_nil, twolsfqdLeft_append, twolsfqdLeft_leaves, List.append_assoc]
      exact hedf
    · have hbefore := hc.queueLength
      rw [hround.left.queueLength]
      show c.sched.edfQueueLength - _ = _
      simp only [twolsfqdEntered_append, twolsfqdEntered_leaves, twolsfqdLeft_append,
        twolsfqdLeft_leaves, List.length_append, List.length_nil]
      omega
    · have hbefore := hc.outstanding
      rw [hround.left.outstanding]
      show c.sched.timewindowCurrentQueueLength + _ = _
      simp only [twolsfqdLeft_append, twolsfqdLeft_leaves, List.length_append]
      omega
    · rw [hround.left.unlocked]
      show c.unlocked ++ _ = _
      rw [hc.unlocked]
      simp
  settle _ _ hc := ⟨hc.waiting, hc.edf, hc.queueLength, hc.outstanding, hc.unlocked⟩

/-- No request moves twice. -/
theorem TwolsfqdTransferred.once {c c' : TwolsfqdCall} {log : List TwolsfqdEvent}
    (h : TwolsfqdTransferred c log c')
    (hids : ((c.sched.waiting ++ c.sched.edf).map (·.itemId)).Nodup) :
    ((twolsfqdEntered log).map (·.itemId)).Nodup ∧ ((twolsfqdLeft log).map (·.itemId)).Nodup := by
  have hwaiting := h.waiting
  have hedf := h.edf
  have hparts : (twolsfqdEntered log ++ c'.sched.waiting ++ c.sched.edf).Perm
      (c.sched.waiting ++ c.sched.edf) := hwaiting.append_right _
  have hall := ((hparts.map (·.itemId)).nodup_iff).mpr hids
  have hleft : (twolsfqdLeft log ++ c'.sched.edf ++ c'.sched.waiting).Perm
      (twolsfqdEntered log ++ c'.sched.waiting ++ c.sched.edf) := by
    rw [List.perm_iff_count] at hedf ⊢
    intro a
    have hcount := hedf a
    simp only [List.count_append] at hcount ⊢
    omega
  have hall' := ((hleft.map (·.itemId)).nodup_iff).mpr hall
  rw [List.append_assoc, List.map_append] at hall hall'
  exact ⟨(List.nodup_append.mp hall).1, (List.nodup_append.mp hall').1⟩

/-- **A dispatch ends and moves every request at most one place on.** Whatever the
credits, the threshold, what is outstanding and the clock, `twolsfqd_dequeue_all`
returns, so `twolsfqd_edf_dequeue` finds an item each time it was counted on to.
The queue length and what is outstanding change by what moved. -/
theorem twolsfqd_dequeue_all_transfers (clock : Nat → Timeval) {c : TwolsfqdCall}
    (hc : c.sched.Formed) :
    ∃ c' log, (∀ bound, c.sched.waiting.length < bound →
        twolsfqdDequeueLoop clock bound c = .ok c' ∧ twolsfqdDequeueLoopLog clock bound c = log)
      ∧ twolsfqdDequeueAll clock c = .ok c'
      ∧ TwolsfqdTransferred c log c'
      ∧ (((c.sched.waiting ++ c.sched.edf).map (·.itemId)).Nodup →
        ((twolsfqdEntered log).map (·.itemId)).Nodup
          ∧ ((twolsfqdLeft log).map (·.itemId)).Nodup) := by
  obtain ⟨c', hrun, hdrains⟩ := twolsfqdDequeueAll_drains clock hc
  have htransferred : TwolsfqdTransferred c _ c' :=
    (twolsfqdTransferred_keeps clock c).drains (.nil c) hdrains
  refine ⟨c', _, fun bound hbound => ?_, hrun, htransferred, htransferred.once⟩
  obtain ⟨hloop, hlog⟩ :=
    twolsfqdDequeueLoop_congr clock hc hbound (Nat.lt_succ_self _)
  exact ⟨hloop.trans hrun, hlog⟩

/-- Two requests of one application that its credits pay for. -/
def twolsfqdTwoWaiting (σ : TwolsfqdRun.Settings) : TwolsfqdCall :=
  let c := (twolsfqdStart σ).call
  let request := fun id : Nat =>
    let a := twolsfqdWrite 0 id 64
    twolsfqdNewItem a.pool a.si a.pi 0 0 0 id
  c.setSched { c.sched with
    itemId := 2
    sarcCreditList := Function.update c.sched.sarcCreditList 0 (some [request 0, request 1]) }

/-- The storage has room for one of the two. -/
theorem twolsfqd_dequeue_all_transfers_example :
    let σ := twolsfqdSettings 1 1 1000 1 fun _ => 2000
    ∃ c' log, twolsfqdDequeueAll σ.clock (twolsfqdTwoWaiting σ) = .ok c'
      ∧ TwolsfqdTransferred (twolsfqdTwoWaiting σ) log c'
      ∧ ((twolsfqdEntered log).map (·.itemId)).Nodup
      ∧ ((twolsfqdLeft log).map (·.itemId)).Nodup
      ∧ (twolsfqdEntered log).length = 2 ∧ (twolsfqdLeft log).length = 1 := by
  intro σ
  obtain ⟨c', log, hbound, hrun, htransferred, honce⟩ :=
    twolsfqd_dequeue_all_transfers σ.clock (c := twolsfqdTwoWaiting σ)
      ⟨fun _ => by decide, by decide⟩
  obtain ⟨hentered, hleft⟩ := honce (by decide)
  have hlog := (hbound 3 (by decide)).2
  have hcount : (twolsfqdEntered (twolsfqdDequeueLoopLog σ.clock 3 (twolsfqdTwoWaiting σ))).length
        = 2
      ∧ (twolsfqdLeft (twolsfqdDequeueLoopLog σ.clock 3 (twolsfqdTwoWaiting σ))).length = 1 := by
    decide +kernel
  rw [hlog] at hcount
  exact ⟨c', log, hrun, htransferred, hentered, hleft, hcount⟩

end PvfsProxy
