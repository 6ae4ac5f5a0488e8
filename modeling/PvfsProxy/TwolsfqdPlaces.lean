import PvfsProxy.TwolsfqdMoves

/-!
# Where the requests of 2LSFQD are

A dispatch moves a request from the queue of its application to the EDF queue, and from
there to the storage, and several hooks and two threads dispatch. Over a whole run, with
any clock and any thresholds, every request is in one of the three places, and each
application's requests leave its queue in the order they came.
-/

namespace PvfsProxy

/-- The requests of an application that wait for its credits. -/
def Twolsfqd.sarc (s : Twolsfqd) (app : Nat) : List TwolsfqdItem :=
  (s.sarcCreditList app).getD []

/-- The ids of the application's requests among `l`. -/
def twolsfqdOf (app : Nat) (l : List TwolsfqdItem) : List Int :=
  (l.filter fun it => it.embedded.appIndex = app).map (·.itemId)

section ofApp

variable {app : Nat} {l l' : List TwolsfqdItem} {it : TwolsfqdItem}

@[simp] theorem twolsfqdOf_append :
    twolsfqdOf app (l ++ l') = twolsfqdOf app l ++ twolsfqdOf app l' := by
  unfold twolsfqdOf
  rw [List.filter_append, List.map_append]

theorem twolsfqdOf_self (h : it.embedded.appIndex = app) : twolsfqdOf app [it] = [it.itemId] := by
  unfold twolsfqdOf
  rw [List.filter_cons_of_pos (by simpa using h)]
  rfl

theorem twolsfqdOf_other (h : it.embedded.appIndex ≠ app) : twolsfqdOf app [it] = [] := by
  unfold twolsfqdOf
  rw [List.filter_cons_of_neg (by simpa using h)]
  rfl

end ofApp

/-- What the writes of a size leave of the queues. -/
theorem map_itemId_written (it : TwolsfqdItem) (l : List TwolsfqdItem) :
    (l.map (twolsfqdWritten it)).map (·.itemId) = l.map (·.itemId) := by
  rw [List.map_map]
  exact List.map_congr_left fun a _ => (twolsfqdWritten_same it a).1

/-- Every request of `all` is in one place, and the queues of the applications keep their
order. -/
structure TwolsfqdPlaced (σ : TwolsfqdRun.Settings) (all : List TwolsfqdItem)
    (history : List TwolsfqdEvent) (s : Twolsfqd) : Prop extends TwolsfqdConfigured σ s where
  owners : ∀ app, ∀ it ∈ s.sarc app, it.embedded.appIndex = app
  order : ∀ app, twolsfqdOf app (twolsfqdEntered history) ++ (s.sarc app).map (·.itemId)
    = twolsfqdOf app all
  waited : ((twolsfqdEntered history ++ s.waiting).map (·.itemId)).Perm (all.map (·.itemId))
  passed : ((twolsfqdLeft history ++ s.edf).map (·.itemId)).Perm
    ((twolsfqdEntered history).map (·.itemId))
  numbered : all.map (·.itemId) = (List.range all.length).map Int.ofNat
  next : s.itemId = all.length

namespace TwolsfqdPlaced

variable {σ : TwolsfqdRun.Settings} {all : List TwolsfqdItem} {h : List TwolsfqdEvent}
  {s s' : Twolsfqd}

theorem same (hs : TwolsfqdPlaced σ all h s) (hc : TwolsfqdConfigured σ s')
    (hlists : s'.sarcCreditList = s.sarcCreditList) (hqueue : s'.iedfLlistQueue = s.iedfLlistQueue)
    (hnext : s'.itemId = s.itemId) :
    TwolsfqdPlaced σ all h s' := by
  have hsarc : s'.sarc = s.sarc := by
    funext app
    unfold Twolsfqd.sarc
    rw [hlists]
  have hedf : s'.edf = s.edf := by
    unfold Twolsfqd.edf
    rw [hqueue]
  have hwaiting : s'.waiting = s.waiting := by
    unfold Twolsfqd.waiting
    rw [hc.numApps, hs.numApps, hlists]
  exact
    { toTwolsfqdConfigured := hc
      owners := by
        rw [hsarc]
        exact hs.owners
      order := by
        rw [hsarc]
        exact hs.order
      waited := by
        rw [hwaiting]
        exact hs.waited
      passed := by
        rw [hedf]
        exact hs.passed
      numbered := hs.numbered
      next := hnext.trans hs.next }

/-- The head of an application's queue enters the EDF queue, which some leave. -/
theorem move {clock : Nat → Timeval} {c c' : TwolsfqdCall} {app : Nat} {item : TwolsfqdItem}
    {released kept : List TwolsfqdItem} (hc : TwolsfqdPlaced σ all h c.sched)
    (hc' : TwolsfqdConfigured σ c'.sched)
    (hmove : TwolsfqdMoved clock app item released kept c c') (now : Timeval) :
    TwolsfqdPlaced σ all (h ++ .enter item now :: twolsfqdLeaves released kept) c'.sched := by
  obtain ⟨rest, hhead, hupdate⟩ := hmove.head
  have hsarc : c.sched.sarc app = item :: rest := by
    unfold Twolsfqd.sarc
    rw [hhead]
    rfl
  have hsarc' : c'.sched.sarc app = rest := by
    unfold Twolsfqd.sarc
    rw [hupdate, Function.update_self]
    rfl
  have hother : ∀ app', app' ≠ app → c'.sched.sarc app' = c.sched.sarc app' := by
    intro app' hne
    unfold Twolsfqd.sarc
    rw [hupdate, Function.update_of_ne hne]
  have howner : item.embedded.appIndex = app := by
    refine hc.owners app item ?_
    rw [hsarc]
    exact List.mem_cons_self ..
  have hentered : twolsfqdEntered (h ++ .enter item now :: twolsfqdLeaves released kept)
      = twolsfqdEntered h ++ [item] := by
    rw [twolsfqdEntered_append, twolsfqdEntered_enter, twolsfqdEntered_leaves]
  have hleft : twolsfqdLeft (h ++ .enter item now :: twolsfqdLeaves released kept)
      = twolsfqdLeft h ++ released := by
    rw [twolsfqdLeft_append, twolsfqdLeft_enter, twolsfqdLeft_leaves]
  have hedf : c'.sched.edf = kept := Twolsfqd.edf_eq hmove.queue
  exact
    { toTwolsfqdConfigured := hc'
      owners := by
        intro app' it hit
        by_cases happ : app' = app
        · subst happ
          rw [hsarc'] at hit
          refine hc.owners app' it ?_
          rw [hsarc]
          exact List.mem_cons_of_mem _ hit
        · rw [hother app' happ] at hit
          exact hc.owners app' it hit
      order := by
        intro app'
        have horder := hc.order app'
        rw [hentered, twolsfqdOf_append]
        by_cases happ : app' = app
        · subst happ
          rw [hsarc] at horder
          rw [hsarc', twolsfqdOf_self howner, List.append_assoc]
          exact horder
        · rw [hother app' happ, twolsfqdOf_other (fun heq => happ (heq.symm.trans howner)),
            List.append_nil]
          exact horder
      waited := by
        have hwaiting := hmove.waiting
        rw [hentered, List.append_assoc]
        exact ((hwaiting.symm.append_left _).map _).trans hc.waited
      passed := by
        have hpassed := hc.passed
        have hperm := (hmove.edf_perm).map (·.itemId)
        rw [hentered, hleft, hedf]
        rw [List.perm_iff_count] at hpassed hperm ⊢
        intro a
        have h₁ := hpassed a
        have h₂ := hperm a
        simp only [List.map_append, List.count_append] at h₁ h₂ ⊢
        omega
      numbered := hc.numbered
      next := hmove.config.itemId.trans hc.next }

theorem round {clock : Nat → Timeval} {c c' : TwolsfqdCall} {released kept : List TwolsfqdItem}
    (hc : TwolsfqdPlaced σ all h c.sched) (hc' : TwolsfqdConfigured σ c'.sched)
    (hround : TwolsfqdRounded clock released kept c c') :
    TwolsfqdPlaced σ all (h ++ twolsfqdLeaves released kept) c'.sched := by
  have hsarc : c'.sched.sarc = c.sched.sarc := by
    funext app
    unfold Twolsfqd.sarc
    rw [hround.sarc.lists]
  have hedf : c.sched.edf = released ++ kept := Twolsfqd.edf_eq hround.found
  have hedf' : c'.sched.edf = kept := Twolsfqd.edf_eq hround.left.queue
  have hentered : twolsfqdEntered (h ++ twolsfqdLeaves released kept) = twolsfqdEntered h := by
    rw [twolsfqdEntered_append, twolsfqdEntered_leaves, List.append_nil]
  exact
    { toTwolsfqdConfigured := hc'
      owners := by
        rw [hsarc]
        exact hc.owners
      order := by
        rw [hsarc, hentered]
        exact hc.order
      waited := by
        rw [hentered, hround.sarc.waiting]
        exact hc.waited
      passed := by
        have hpassed := hc.passed
        rw [hedf, ← List.append_assoc] at hpassed
        rw [hentered, hedf', twolsfqdLeft_append, twolsfqdLeft_leaves]
        exact hpassed
      numbered := hc.numbered
      next := hround.sarc.itemId.trans hc.next }

theorem writeSize (hs : TwolsfqdPlaced σ all h s) (it : TwolsfqdItem) :
    TwolsfqdPlaced σ all h (s.writeSize it) := by
  have hsarc : ∀ app, (s.writeSize it).sarc app = (s.sarc app).map (twolsfqdWritten it) := by
    intro app
    show ((s.sarcCreditList app).map (List.map (twolsfqdWritten it))).getD [] = _
    unfold Twolsfqd.sarc
    cases s.sarcCreditList app with
    | none => rfl
    | some l => rfl
  have hedf : (s.writeSize it).edf = s.edf.map (twolsfqdWritten it) := by
    show (s.iedfLlistQueue.map (List.map (twolsfqdWritten it))).getD [] = _
    unfold Twolsfqd.edf
    cases s.iedfLlistQueue with
    | none => rfl
    | some l => rfl
  exact
    { toTwolsfqdConfigured := (twolsfqdConfigured_holds σ).write (h := h) it hs.toTwolsfqdConfigured
      owners := by
        intro app a ha
        rw [hsarc] at ha
        obtain ⟨b, hb, rfl⟩ := List.mem_map.mp ha
        exact (twolsfqdWritten_same it b).2.2.1.trans (hs.owners app b hb)
      order := by
        intro app
        rw [hsarc, map_itemId_written]
        exact hs.order app
      waited := by
        have hwaited := hs.waited
        rw [List.map_append] at hwaited ⊢
        rw [Twolsfqd.waiting_writeSize, map_itemId_written]
        exact hwaited
      passed := by
        have hpassed := hs.passed
        rw [List.map_append] at hpassed ⊢
        rw [hedf, map_itemId_written]
        exact hpassed
      numbered := hs.numbered
      next := hs.next }

theorem inserted {pool : Nat → Endpoint} {si : SocketInfo} {pi : PvfsInfo} {it : TwolsfqdItem}
    (hs : TwolsfqdPlaced σ all h s) (hi : TwolsfqdInserted pool si pi s s' it)
    (hknown : (pool si.requestSocket).appIndex < σ.cfg.numApps) :
    TwolsfqdPlaced σ (all ++ [it]) h s' := by
  have hwaiting := hi.waiting (hi.app ▸ hs.numApps.symm ▸ hknown) (hs.lists _)
  have hedf : s'.edf = s.edf := by
    unfold Twolsfqd.edf
    rw [hi.queue]
  have hsarc : s'.sarc it.embedded.appIndex = s.sarc it.embedded.appIndex ++ [it] := by
    obtain ⟨l, hl⟩ := Option.isSome_iff_exists.mp (hs.lists it.embedded.appIndex)
    unfold Twolsfqd.sarc
    rw [hi.lists, Function.update_self, hl]
    rfl
  have hother : ∀ app, app ≠ it.embedded.appIndex → s'.sarc app = s.sarc app := by
    intro app hne
    unfold Twolsfqd.sarc
    rw [hi.lists, Function.update_of_ne hne]
  exact
    { toTwolsfqdConfigured := hs.toTwolsfqdConfigured.inserted hi
      owners := by
        intro app a ha
        by_cases happ : app = it.embedded.appIndex
        · subst happ
          rw [hsarc] at ha
          rcases List.mem_append.mp ha with hold | hnew
          · exact hs.owners _ a hold
          · rw [List.mem_singleton.mp hnew]
        · rw [hother app happ] at ha
          exact hs.owners app a ha
      order := by
        intro app
        rw [twolsfqdOf_append]
        by_cases happ : app = it.embedded.appIndex
        · subst happ
          rw [hsarc, twolsfqdOf_self rfl, List.map_append, ← List.append_assoc, hs.order]
          rfl
        · rw [hother app happ, twolsfqdOf_other (Ne.symm happ), List.append_nil]
          exact hs.order app
      waited := by
        have hwaited := hs.waited
        have hperm := hwaiting.map (·.itemId)
        rw [List.perm_iff_count] at hwaited hperm ⊢
        intro a
        have h₁ := hwaited a
        have h₂ := hperm a
        simp only [List.map_append, List.map_cons, List.map_nil, List.count_append,
          List.count_cons, List.count_nil] at h₁ h₂ ⊢
        omega
      passed := by
        rw [hedf]
        exact hs.passed
      numbered := by
        rw [List.map_append, List.length_append, List.length_singleton, List.range_succ,
          List.map_append, hs.numbered, List.map_singleton, List.map_singleton, hi.id, hs.next]
        rfl
      next := by
        rw [hi.nextId, hs.next, List.length_append, List.length_singleton]
        push_cast
        rfl }

end TwolsfqdPlaced

/-- Every part of a dispatch keeps the requests where its history says. -/
theorem twolsfqdPlaced_holds (σ : TwolsfqdRun.Settings) (all : List TwolsfqdItem) :
    TwolsfqdHolds σ fun h s => TwolsfqdPlaced σ all h s where
  formed hs := hs.toFormed
  parts :=
    { skip := by
        rintro h c s hc hskips
        have hconfigured := (twolsfqdConfigured_holds σ).parts.skip (h := h)
          hc.toTwolsfqdConfigured hskips
        rcases hskips with rfl | ⟨i, -, rfl⟩
        · exact hc
        · exact hc.same hconfigured rfl rfl rfl
      replenish := by
        rintro h c hc
        exact hc.same ((twolsfqdConfigured_holds σ).parts.replenish (h := h)
          hc.toTwolsfqdConfigured) rfl rfl rfl
      move := by
        rintro h c app item released kept c' hc hmove
        exact hc.move ((twolsfqdConfigured_holds σ).parts.move (h := h)
          hc.toTwolsfqdConfigured hmove) hmove _
      round := by
        rintro h c released kept c' hc hround
        exact hc.round ((twolsfqdConfigured_holds σ).parts.round (h := h)
          hc.toTwolsfqdConfigured hround) hround
      settle := by
        rintro h c item dispatched hc
        exact hc.same ((twolsfqdConfigured_holds σ).parts.settle (h := h) item dispatched
          hc.toTwolsfqdConfigured) rfl rfl rfl }
  count := by
    rintro h g it hg
    have hconfigured := (twolsfqdConfigured_holds σ).count (h := h) it hg.toTwolsfqdConfigured
    obtain ⟨arrival, deadlines, hsched⟩ := twolsfqdCount_sched it g
    rw [hsched] at hconfigured ⊢
    exact hg.same hconfigured rfl rfl rfl
  write it hs := hs.writeSize it

namespace TwolsfqdRun

variable {σ : Settings} {s t : TwolsfqdRun}

theorem complete_scheduled {p : Addr} {size ret : Int} (h : s.complete σ p size = .ok (t, ret)) :
    t.scheduled = s.scheduled := by
  obtain ⟨rs, -, h⟩ := Machine.bind_eq_ok.mp h
  obtain ⟨⟨w, ret'⟩, -, h⟩ := Machine.bind_eq_ok.mp h
  obtain ⟨rfl, -⟩ := Prod.mk.inj (Machine.pure_eq_ok.mp h)
  rfl

theorem dequeue_scheduled {r : DequeueReason TwolsfqdQueueItem} (h : s.dequeue σ r = .ok t) :
    t.scheduled = s.scheduled := by
  obtain ⟨⟨w, next⟩, -, h⟩ := Machine.bind_eq_ok.mp h
  obtain rfl := Machine.pure_eq_ok.mp h
  rfl

theorem share_scheduled {p : Addr} {actual size : Int} (h : s.share σ p actual = .ok (t, size)) :
    t.scheduled = s.scheduled := by
  obtain ⟨-, -, -, -, -, hscheduled, -⟩ := share_ok h
  exact hscheduled

theorem respond_scheduled {p response : Addr} {fileSize : Int} {app : Nat}
    (h : s.respond σ p response fileSize app = .ok t) : t.scheduled = s.scheduled := by
  obtain ⟨s₁, size, hshare, rfl
    | ⟨-, s₂, s₃, s₄, s₅, size', ret, r, hquiet, hshare', hcomplete, hquiet', hdequeue⟩⟩ :=
    respond_ok h
  · exact share_scheduled hshare
  · calc t.scheduled = s₅.scheduled := dequeue_scheduled hdequeue
      _ = s₄.scheduled := hquiet'.scheduled
      _ = s₃.scheduled := complete_scheduled hcomplete
      _ = s₂.scheduled := share_scheduled hshare'
      _ = s₁.scheduled := hquiet.scheduled
      _ = s.scheduled := share_scheduled hshare

/-- Only an arrival schedules a request. -/
theorem step_scheduled {e : Event} (he : ∀ a, e ≠ .arrive a) (h : s.step σ e = .ok t) :
    t.scheduled = s.scheduled := by
  cases e with
  | arrive a => exact absurd rfl (he a)
  | flow p completeSize read =>
      obtain ⟨⟨s₁, ret⟩, hcomplete, h⟩ := Machine.bind_eq_ok.mp h
      dsimp only at h
      split at h
      · cases h
      · obtain rfl := Machine.pure_eq_ok.mp h
        exact complete_scheduled hcomplete
  | respond p response fileSize app => exact respond_scheduled h
  | replenish =>
      obtain ⟨c, -, h⟩ := Machine.bind_eq_ok.mp h
      obtain rfl := Machine.pure_eq_ok.mp h
      rfl
  | window threshold overload =>
      obtain ⟨c, -, h⟩ := Machine.bind_eq_ok.mp h
      obtain rfl := Machine.pure_eq_ok.mp h
      rfl

/-- Every request is where the history says. -/
def Placed (σ : Settings) (s : TwolsfqdRun) : Prop :=
  TwolsfqdPlaced σ s.scheduled s.history s.w.g.sched

theorem Placed.arrive (hs : s.Placed σ) {a : Arrival TwolsfqdQueueItem}
    (hok : s.Allowed σ (.arrive a)) (h : s.step σ (.arrive a) = .ok t) : t.Placed σ := by
  obtain ⟨g, it, c, log, locked, hinserted, htries, hsched, hscheduled, hhistory, -⟩ :=
    arrive_ok hs.toFormed h
  have hplaced : TwolsfqdPlaced σ (s.scheduled ++ [it]) s.history (TwolsfqdCall.mk g []).sched :=
    hs.inserted hinserted hok.1
  unfold Placed
  rw [hsched, hscheduled, hhistory]
  exact htries.keeps (twolsfqdPlaced_holds σ _).parts hplaced

theorem Placed.step (hs : s.Placed σ) {e : Event} (hok : s.Allowed σ e)
    (h : s.step σ e = .ok t) : t.Placed σ := by
  by_cases he : ∃ a, e = .arrive a
  · obtain ⟨a, rfl⟩ := he
    exact hs.arrive hok h
  · have hne : ∀ a, e ≠ .arrive a := fun a heq => he ⟨a, heq⟩
    unfold Placed
    rw [step_scheduled hne h]
    refine (twolsfqdPlaced_holds σ s.scheduled).step hs (fun a _ _ heq => absurd heq (hne a)) ?_ h
    intro threshold overload _
    exact hs.same (hs.toTwolsfqdConfigured.nextWindow σ.width threshold) rfl rfl rfl

theorem Placed.init (w : World Twolsfqd TwolsfqdQueueItem) : (TwolsfqdRun.init σ w).Placed σ where
  toTwolsfqdConfigured := .init σ w
  owners app it hit := by cases hit
  order _ := rfl
  waited := by
    rw [init_waiting]
    exact .nil
  passed := .nil
  numbered := rfl
  next := rfl

theorem Placed.run {w : World Twolsfqd TwolsfqdQueueItem} {es : List Event}
    (h : Machine.Run (TwolsfqdRun.Allowed σ) (TwolsfqdRun.step σ) (TwolsfqdRun.init σ w) es s) :
    s.Placed σ := by
  refine h.invariant (P := Placed σ) (.init w) ?_
  rintro t e u ht hok hstep
  exact ht.step hok hstep

end TwolsfqdRun

/-- **2LSFQD loses and doubles no request.** In every state a run reaches, with any clock,
any credits and any thresholds: the requests are numbered in the order they came, and each
is in exactly one place, in the queue of its application, in the EDF queue or among those
released; and the requests of an application leave its queue in the order they came. -/
theorem twolsfqd_every_request_placed {σ : TwolsfqdRun.Settings}
    {w : World Twolsfqd TwolsfqdQueueItem} {es : List TwolsfqdRun.Event} {s : TwolsfqdRun}
    (h : Machine.Run (TwolsfqdRun.Allowed σ) (TwolsfqdRun.step σ) (TwolsfqdRun.init σ w) es s) :
    s.scheduled.map (·.itemId) = (List.range s.scheduled.length).map Int.ofNat
      ∧ ((twolsfqdLeft s.history ++ (s.w.g.sched.edf ++ s.w.g.sched.waiting)).map
        (·.itemId)).Perm (s.scheduled.map (·.itemId))
      ∧ ((twolsfqdLeft s.history ++ (s.w.g.sched.edf ++ s.w.g.sched.waiting)).map
        (·.itemId)).Nodup
      ∧ ∀ app, twolsfqdOf app (twolsfqdEntered s.history)
          ++ (s.w.g.sched.sarc app).map (·.itemId) = twolsfqdOf app s.scheduled := by
  have hs := TwolsfqdRun.Placed.run h
  have hplaces : ((twolsfqdLeft s.history ++ (s.w.g.sched.edf ++ s.w.g.sched.waiting)).map
      (·.itemId)).Perm (s.scheduled.map (·.itemId)) := by
    have hwaited := hs.waited
    have hpassed := hs.passed
    rw [List.map_append] at hwaited
    rw [← List.append_assoc, List.map_append]
    exact (hpassed.append_right _).trans hwaited
  refine ⟨hs.numbered, hplaces, hplaces.nodup_iff.mpr ?_, hs.order⟩
  rw [hs.numbered]
  exact List.nodup_range.map fun a b hab => Int.ofNat.inj hab

/-- Two applications, of which the first sends two requests. -/
theorem twolsfqd_every_request_placed_example :
    ∃ s : TwolsfqdRun, (twolsfqdLeft s.history).map (·.itemId) = [0]
      ∧ s.w.g.sched.edf.map (·.itemId) = [1, 2]
      ∧ ((twolsfqdLeft s.history ++ (s.w.g.sched.edf ++ s.w.g.sched.waiting)).map
        (·.itemId)).Perm (s.scheduled.map (·.itemId)) := by
  obtain ⟨s, hrun, hs⟩ := Machine.Run.exists_of_exec
    (TwolsfqdRun.Allowed (twolsfqdSettings 2 1 1000 1 fun _ => 2000))
    (TwolsfqdRun.step (twolsfqdSettings 2 1 1000 1 fun _ => 2000))
    (twolsfqdStart (twolsfqdSettings 2 1 1000 1 fun _ => 2000))
    [.arrive (twolsfqdWrite 0 0 64), .arrive (twolsfqdWrite 1 1 64),
      .arrive (twolsfqdWrite 0 2 64)]
    (fun s => ((twolsfqdLeft s.history).map (·.itemId), s.w.g.sched.edf.map (·.itemId)))
    (a := ([0], [1, 2])) (by decide +kernel)
  obtain ⟨hleft, hedf⟩ := Prod.mk.inj hs
  exact ⟨s, hleft, hedf, (twolsfqd_every_request_placed hrun).2.1⟩

end PvfsProxy
