import PvfsProxy.Receiving
import PvfsProxy.Schedulers

/-!
# Items on their way through the hooks

Where the framework hands an item to a hook it gets one back, and a request
that is released gets the item it waited for. `RequestState.Handed` says so of
one request state; every function of `Message` and `MainLoop` that calls a hook
keeps it for every state there is (`Mem.Handed`). An admission is the one place
where a request gets its first item (`admitRequest_handed`).
-/

namespace PvfsProxy

variable {σ ι : Type}

/-! ## The frame -/

/-- An item stays an item, and a lock that the framework opens opens on one. -/
def RequestState.Handed (m : SchedulerMethod σ ι) (rs rs' : RequestState ι) : Prop :=
  (rs.currentItem.isSome = true → rs'.currentItem.isSome = true)
    ∧ (m.schSelfDispatch = false → rs.locked = true → rs'.locked = false →
        rs'.currentItem.isSome = true)

def Mem.Handed (m : SchedulerMethod σ ι) (mem mem' : Mem ι) : Prop :=
  ∀ p rs, mem p = some rs → ∃ rs', mem' p = some rs' ∧ rs.Handed m rs'

section frame

variable {m : SchedulerMethod σ ι} {mem mem' mem'' : Mem ι}

theorem RequestState.Handed.refl (m : SchedulerMethod σ ι) (rs : RequestState ι) :
    rs.Handed m rs := by
  refine ⟨id, fun _ hlocked hopen => ?_⟩
  rw [hlocked] at hopen
  cases hopen

theorem RequestState.Handed.trans {rs rs' rs'' : RequestState ι} (h : rs.Handed m rs')
    (h' : rs'.Handed m rs'') : rs.Handed m rs'' := by
  refine ⟨fun hitem => h'.1 (h.1 hitem), fun hself hlocked hopen => ?_⟩
  cases hl : rs'.locked with
  | true => exact h'.2 hself hl hopen
  | false => exact h'.1 (h.2 hself hlocked hl)

theorem Mem.Handed.refl (m : SchedulerMethod σ ι) (mem : Mem ι) : mem.Handed m mem :=
  fun _ rs hrs => ⟨rs, hrs, .refl m rs⟩

theorem Mem.Handed.trans (h : mem.Handed m mem') (h' : mem'.Handed m mem'') :
    mem.Handed m mem'' := by
  intro p rs hrs
  obtain ⟨rs', hrs', hh⟩ := h p rs hrs
  obtain ⟨rs'', hrs'', hh'⟩ := h' p rs' hrs'
  exact ⟨rs'', hrs'', hh.trans hh'⟩

theorem Mem.Handed.modify {p : Addr} {f : RequestState ι → RequestState ι}
    (hf : ∀ rs, mem p = some rs → rs.Handed m (f rs)) : mem.Handed m (mem.modify p f) := by
  intro q rs hrs
  by_cases hq : q = p
  · subst hq
    exact ⟨f rs, by rw [Mem.modify_self, hrs]; rfl, hf rs hrs⟩
  · exact ⟨rs, by rw [Mem.modify_of_ne _ hq, hrs], .refl m rs⟩

theorem Mem.Handed.write (m : SchedulerMethod σ ι) (mem : Mem ι) (p : Addr)
    {f : RequestState ι → RequestState ι}
    (hf : ∀ rs, (f rs).currentItem = rs.currentItem ∧ (f rs).locked = rs.locked) :
    mem.Handed m (mem.modify p f) := by
  refine .modify fun rs _ => ?_
  have hself := RequestState.Handed.refl m rs
  unfold RequestState.Handed at hself ⊢
  rwa [(hf rs).1, (hf rs).2]

theorem Mem.Handed.alloc (m : SchedulerMethod σ ι) {w : World σ ι} (hf : w.Fresh)
    (rs : RequestState ι) : w.mem.Handed m (w.mem.alloc w.next rs) := by
  intro q rs' hrs'
  have hq : q ≠ w.next := hf.ne_next hrs'
  exact ⟨rs', by rw [Mem.alloc_of_ne _ hq, hrs'], .refl m rs'⟩

/-- Unlocking alone is for schedulers that dispatch by themselves. -/
theorem Mem.Handed.unlockAll {ps : List Addr} (hps : m.schSelfDispatch = false → ps = []) :
    mem.Handed m (unlockAll ps mem) := by
  cases hself : m.schSelfDispatch with
  | false =>
      rw [hps hself]
      exact .refl m mem
  | true =>
      clear hps
      induction ps generalizing mem with
      | nil => exact .refl m mem
      | cons p ps ih =>
          have hp : mem.Handed m (mem.modify p fun rs => { rs with locked := false }) := by
            refine .modify fun rs _ => ⟨id, fun hno => ?_⟩
            rw [hself] at hno
            cases hno
          exact hp.trans ih

end frame

theorem unlockAll_item {ps : List Addr} {mem : Mem ι} {p : Addr} {rs : RequestState ι}
    (h : unlockAll ps mem p = some rs) :
    ∃ rs₀, mem p = some rs₀ ∧ rs₀.currentItem = rs.currentItem
      ∧ (ps = [] → rs₀.locked = rs.locked) := by
  induction ps generalizing mem with
  | nil => exact ⟨rs, h, rfl, fun _ => rfl⟩
  | cons q ps ih =>
      obtain ⟨rs₁, hrs₁, hitem, -⟩ := ih h
      dsimp only at hrs₁
      by_cases hq : p = q
      · subst hq
        rw [Mem.modify_self, Option.map_eq_some_iff] at hrs₁
        obtain ⟨rs₀, hrs₀, rfl⟩ := hrs₁
        exact ⟨rs₀, hrs₀, hitem, fun hno => by cases hno⟩
      · rw [Mem.modify_of_ne _ hq] at hrs₁
        exact ⟨rs₁, hrs₁, hitem, fun hno => by cases hno⟩

/-! ## The calls -/

section calls

variable {cfg : Config σ ι} {finds : σ → Nat → Prop} (hh : cfg.method.Hands finds)
  {w w' : World σ ι}

include hh

theorem dispatchNext_handed {r : DequeueReason ι} {g g' : Globals σ} {mem mem' : Mem ι}
    {next : Option (GenericQueueItem ι)}
    (h : dispatchNext cfg.method r g mem = .ok (g', mem', next)) : mem.Handed cfg.method mem' := by
  obtain ⟨out, hout, -, -, hnone, hsome⟩ := dispatchNext_ok h
  have hunlock : mem.Handed cfg.method (unlockAll out.unlocked mem) :=
    .unlockAll fun hself => hh.dequeueUnlocked hself hout
  cases next with
  | none =>
      rw [hnone rfl]
      exact hunlock
  | some it =>
      rw [(hsome it rfl).2]
      exact hunlock.trans (.modify fun rs _ => ⟨fun _ => rfl, fun _ _ _ => rfl⟩)

theorem callDequeue_handed {r : DequeueReason ι} {item : Option (GenericQueueItem ι)}
    (h : callDequeue cfg r w = .ok (w', item)) : w.mem.Handed cfg.method w'.mem := by
  obtain ⟨⟨g, mem, it⟩, hdisp, h⟩ := Machine.bind_eq_ok.mp h
  obtain ⟨rfl, -⟩ := Prod.mk.inj (Machine.pure_eq_ok.mp h)
  exact dispatchNext_handed hh hdisp

theorem callDequeueUnchecked_handed {r : DequeueReason ι} {item : Option (GenericQueueItem ι)}
    (h : callDequeueUnchecked cfg r w = .ok (w', item)) : w.mem.Handed cfg.method w'.mem := by
  obtain ⟨out, hout, h⟩ := Machine.bind_eq_ok.mp h
  have hunlock : w.mem.Handed cfg.method (unlockAll out.unlocked w.mem) :=
    .unlockAll fun hself => hh.dequeueUnlocked hself hout
  split at h
  · obtain ⟨rfl, -⟩ := Prod.mk.inj (Machine.pure_eq_ok.mp h)
    exact hunlock
  · obtain ⟨rs, -, h⟩ := Machine.bind_eq_ok.mp h
    obtain ⟨rfl, -⟩ := Prod.mk.inj (Machine.pure_eq_ok.mp h)
    exact hunlock.trans (.modify fun rs _ => ⟨fun _ => rfl, fun _ _ _ => rfl⟩)

theorem callCompletion_handed {owner : Addr} {size ret : Int}
    (h : callCompletion cfg owner size w = .ok (w', ret)) : w.mem.Handed cfg.method w'.mem := by
  obtain ⟨rs, hrs, h⟩ := Machine.bind_eq_ok.mp h
  obtain ⟨out, hout, h⟩ := Machine.bind_eq_ok.mp h
  obtain ⟨rfl, -⟩ := Prod.mk.inj (Machine.pure_eq_ok.mp h)
  have hrs := Mem.deref_eq_ok.mp hrs
  have hunlock : w.mem.Handed cfg.method (unlockAll out.unlocked w.mem) :=
    .unlockAll fun hself => hh.completionUnlocked hself hout
  refine hunlock.trans (.modify fun rs₁ hrs₁ => ?_)
  obtain ⟨rs₀, hrs₀, hitem, -⟩ := unlockAll_item hrs₁
  rw [hrs] at hrs₀
  obtain rfl := Option.some.inj hrs₀
  refine ⟨fun hsome => ?_, fun _ hlocked hopen => ?_⟩
  · rw [← hitem] at hsome
    exact hh.completionItem hout hsome
  · rw [hlocked] at hopen
    cases hopen

theorem callCurrentSize_handed {owner : Addr} {actual size : Int}
    (h : callCurrentSize cfg owner actual w = .ok (w', size)) :
    w.mem.Handed cfg.method w'.mem := by
  obtain ⟨rs, hrs, h⟩ := Machine.bind_eq_ok.mp h
  have hrs := Mem.deref_eq_ok.mp hrs
  split at h
  · cases h
  · rename_i hook hhook
    obtain ⟨out, hout, h⟩ := Machine.bind_eq_ok.mp h
    obtain ⟨rfl, -⟩ := Prod.mk.inj (Machine.pure_eq_ok.mp h)
    refine .modify fun rs₀ hrs₀ => ?_
    rw [hrs] at hrs₀
    obtain rfl := Option.some.inj hrs₀
    refine ⟨fun hsome => hh.sizeItem hhook hout hsome, fun _ hlocked hopen => ?_⟩
    rw [hlocked] at hopen
    cases hopen

end calls

section loops

variable {cfg : Config σ ι} {m : SchedulerMethod σ ι}

theorem drainQueue_handed
    {dequeue : World σ ι → Except Fault (World σ ι × Option (GenericQueueItem ι))}
    (hd : ∀ {w w' item}, dequeue w = .ok (w', item) → w.mem.Handed m w'.mem) {bound : Nat}
    {w w' : World σ ι} (h : drainQueue dequeue bound w = .ok w') : w.mem.Handed m w'.mem := by
  induction bound generalizing w with
  | zero => cases h
  | succ bound ih =>
      obtain ⟨⟨w₁, item⟩, hdeq, h⟩ := Machine.bind_eq_ok.mp h
      cases item with
      | none =>
          obtain rfl := Machine.pure_eq_ok.mp h
          exact hd hdeq
      | some it => exact (hd hdeq).trans (ih h)

variable {dequeue : DequeueReason ι → World σ ι →
    Except Fault (World σ ι × Option (GenericQueueItem ι))}
  (hd : ∀ {r w w' item}, dequeue r w = .ok (w', item) → w.mem.Handed m w'.mem)

include hd in
theorem updateDiffs_handed {item : Option (GenericQueueItem ι)} {apps : List Nat}
    {w w' : World σ ι} (h : updateDiffs cfg dequeue item apps w = .ok w') :
    w.mem.Handed m w'.mem := by
  induction apps generalizing w with
  | nil =>
      obtain rfl := Except.ok.inj h
      exact .refl m _
  | cons s apps ih =>
      unfold updateDiffs at h
      split at h
      · cases h
      · dsimp only at h
        split at h
        · obtain ⟨w₁, hdrain, h⟩ := Machine.bind_eq_ok.mp h
          have hw := drainQueue_handed (m := m) hd hdrain
          exact hw.trans (ih h)
        · obtain ⟨w₁, hw₁, h⟩ := Machine.bind_eq_ok.mp h
          obtain rfl := Machine.pure_eq_ok.mp hw₁
          have hw := ih h
          exact hw

include hd in
theorem countThroughput_handed {amount : Int} {app : Nat} {item : Option (GenericQueueItem ι)}
    {w w' : World σ ι} (h : countThroughput cfg dequeue amount app item w = .ok w') :
    w.mem.Handed m w'.mem := by
  unfold countThroughput at h
  split at h
  · obtain rfl := Except.ok.inj h
    exact .refl m _
  · split at h
    · obtain rfl := Except.ok.inj h
      exact .refl m _
    · have hw := updateDiffs_handed hd h
      exact hw

end loops

/-- A request that was enqueued and is not locked has an item. -/
def RequestState.Released (m : SchedulerMethod σ ι) (rs : RequestState ι) : Prop :=
  rs.locked = false ∨ m.schSelfDispatch = true → rs.currentItem.isSome = true

theorem RequestState.Handed.released {m : SchedulerMethod σ ι} {rs rs' : RequestState ι}
    (h : rs.Handed m rs') (hrs : rs.Released m) : rs'.Released m := by
  rintro (hopen | hself)
  · cases hl : rs.locked with
    | false => exact h.1 (hrs (.inl hl))
    | true =>
        cases hself : m.schSelfDispatch with
        | false => exact h.2 hself hl hopen
        | true => exact h.1 (hrs (.inr hself))
  · exact h.1 (hrs (.inr hself))

/-- An admission releases the request with an item, or locks it. -/
theorem admitRequest_handed {m : SchedulerMethod σ ι} {finds : σ → Nat → Prop}
    (hh : m.Hands finds) {pool : Nat → Endpoint} {si : SocketInfo} {pi : PvfsInfo}
    {event : DequeueEvent} {size : Int} {g g' : Globals σ} {mem mem' : Mem ι}
    {item : Option (GenericQueueItem ι)}
    (hfinds : finds g.sched (pool si.requestSocket).appIndex)
    (hevent : event = .newIo ∧ size = pi.currentDataSize
      ∨ event = .newMeta ∧ m.schAcceptMeta = true)
    (h : admitRequest m pool si pi event size g mem = .ok (g', mem', item)) :
    (∀ q rs, q ≠ si.rs → mem q = some rs → ∃ rs', mem' q = some rs' ∧ rs.Handed m rs')
      ∧ ∀ rs', mem' si.rs = some rs' → rs'.Released m := by
  have hothers : ∀ {mem₁ : Mem ι} {f : RequestState ι → RequestState ι}, mem.Handed m mem₁ →
      ∀ q rs, q ≠ si.rs → mem q = some rs →
        ∃ rs', (mem₁.modify si.rs f) q = some rs' ∧ rs.Handed m rs' := by
    intro mem₁ f hmem q rs hq hrs
    obtain ⟨rs', hrs', hh⟩ := hmem q rs hrs
    exact ⟨rs', by rw [Mem.modify_of_ne _ hq, hrs'], hh⟩
  have hown : ∀ {mem₁ : Mem ι} {f : RequestState ι → RequestState ι},
      (∀ rs, (f rs).Released m) → ∀ rs', (mem₁.modify si.rs f) si.rs = some rs' →
        rs'.Released m := by
    intro mem₁ f hf rs' hrs'
    rw [Mem.modify_self, Option.map_eq_some_iff] at hrs'
    obtain ⟨rs, -, rfl⟩ := hrs'
    exact hf rs
  obtain ⟨out, hout, h⟩ := Machine.bind_eq_ok.mp h
  have hunlock : mem.Handed m (unlockAll out.unlocked mem) :=
    .unlockAll fun hself => hh.enqueueUnlocked hself hout
  cases hself : m.schSelfDispatch with
  | true =>
      simp only [hself, Bool.not_true, Bool.and_false, Bool.false_eq_true, if_false] at h
      obtain ⟨-, hmem⟩ := Prod.mk.inj (Machine.pure_eq_ok.mp h)
      obtain ⟨rfl, -⟩ := Prod.mk.inj hmem
      refine ⟨hothers hunlock, hown fun rs _ => ?_⟩
      obtain ⟨it, hit⟩ := Option.isSome_iff_exists.mp (hh.newItem hself hout)
      simp [hit]
  | false =>
      cases hret : out.ret with
      | true =>
          simp only [hself, hret, Bool.not_false, Bool.and_self, if_true] at h
          obtain ⟨deq, hdeq, h⟩ := Machine.bind_eq_ok.mp h
          obtain ⟨-, hmem⟩ := Prod.mk.inj (Machine.pure_eq_ok.mp h)
          obtain ⟨rfl, -⟩ := Prod.mk.inj hmem
          have hunlock' : (unlockAll out.unlocked mem).Handed m
              (unlockAll deq.unlocked (unlockAll out.unlocked mem)) :=
            .unlockAll fun hself => hh.dequeueUnlocked hself hdeq
          exact ⟨hothers (hunlock.trans hunlock'),
            hown fun rs _ => hh.entry hself hout hret hfinds hevent hdeq⟩
      | false =>
          simp only [hself, hret, Bool.not_false, Bool.false_and, Bool.false_eq_true, if_false,
            if_true] at h
          obtain ⟨-, hmem⟩ := Prod.mk.inj (Machine.pure_eq_ok.mp h)
          obtain ⟨rfl, -⟩ := Prod.mk.inj hmem
          refine ⟨hothers hunlock, hown ?_⟩
          rintro rs (hopen | hself')
          · cases hopen
          · rw [hself] at hself'
            cases hself'

/-! ## The handlers -/

section handlers

variable {cfg : Config σ ι} {finds : σ → Nat → Prop} (hh : cfg.method.Hands finds)

include hh

theorem readResponse_handed {p : Addr} {tag : Int} {header2 : List UInt8} {c : Conn σ ι}
    {w' : World σ ι} (h : readResponse cfg p tag header2 c = .ok w') :
    c.w.mem.Handed cfg.method w'.mem := by
  unfold readResponse at h
  split at h
  · cases h
  · rename_i request _
    obtain ⟨requestRs, -, h⟩ := Machine.bind_eq_ok.mp h
    obtain ⟨⟨w₁, currentSize⟩, hsize, h⟩ := Machine.bind_eq_ok.mp h
    have hw₁ := callCurrentSize_handed hh hsize
    dsimp only at h
    split at h
    · obtain rfl := Machine.pure_eq_ok.mp h
      exact hw₁
    · obtain ⟨⟨w₂, _⟩, hsize₂, h⟩ := Machine.bind_eq_ok.mp h
      obtain ⟨⟨w₃, _⟩, hcompletion, h⟩ := Machine.bind_eq_ok.mp h
      obtain ⟨requestRs', -, h⟩ := Machine.bind_eq_ok.mp h
      obtain ⟨⟨w₄, _⟩, hdequeue, h⟩ := Machine.bind_eq_ok.mp h
      obtain rfl := Machine.pure_eq_ok.mp h
      have hlast := hw₁.trans
        (.write cfg.method w₁.mem p (f := fun rs => { rs with lastFlow := true })
          fun _ => ⟨rfl, rfl⟩)
      have hcalls := (callCurrentSize_handed hh hsize₂).trans (callCompletion_handed hh hcompletion)
      have hnote := Mem.Handed.write cfg.method w₃.mem request
        (f := fun rs => { rs with checkResponseCompletion := true, lastCompletion := 1 })
        fun _ => ⟨rfl, rfl⟩
      have hdequeue := callDequeue_handed hh hdequeue
      rw [countPassed_mem] at hdequeue
      exact ((hlast.trans hcalls).trans hnote).trans hdequeue

theorem writeCompletion_handed {p : Addr} {tag size : Int} {c : Conn σ ι} {w' : World σ ι}
    (h : writeCompletion cfg p tag size c = .ok w') : c.w.mem.Handed cfg.method w'.mem := by
  unfold writeCompletion at h
  dsimp only at h
  split at h
  · cases h
  · obtain ⟨requestRs, -, h⟩ := Machine.bind_eq_ok.mp h
    obtain ⟨w₁, hthroughput, h⟩ := Machine.bind_eq_ok.mp h
    obtain ⟨⟨w₂, _⟩, hdequeue, h⟩ := Machine.bind_eq_ok.mp h
    obtain rfl := Machine.pure_eq_ok.mp h
    have hop := Mem.Handed.write cfg.method c.w.mem p
      (f := fun rs => { rs with op := .writeCompletion }) fun _ => ⟨rfl, rfl⟩
    have hthroughput := countThroughput_handed (callDequeue_handed hh) hthroughput
    rw [countPassed_mem] at hthroughput
    exact (hop.trans hthroughput).trans (callDequeue_handed hh hdequeue)

theorem smallIoSelfDispatch_handed {tag : Int} {c : Conn σ ι} {w' : World σ ι}
    (h : smallIoSelfDispatch cfg tag c = .ok w') : c.w.mem.Handed cfg.method w'.mem := by
  unfold smallIoSelfDispatch at h
  split at h
  · cases h
  · obtain ⟨⟨w₁, _⟩, hcompletion, h⟩ := Machine.bind_eq_ok.mp h
    obtain rfl := Machine.pure_eq_ok.mp h
    exact callCompletion_handed hh hcompletion

theorem metaCompletion_handed {tag : Int} {c : Conn σ ι} {w' : World σ ι}
    (h : metaCompletion cfg tag c = .ok w') : c.w.mem.Handed cfg.method w'.mem := by
  unfold metaCompletion at h
  dsimp only at h
  split at h
  · cases h
  · obtain ⟨⟨w₁, _⟩, hcompletion, h⟩ := Machine.bind_eq_ok.mp h
    obtain ⟨requestRs, -, h⟩ := Machine.bind_eq_ok.mp h
    obtain ⟨⟨w₂, _⟩, hdequeue, h⟩ := Machine.bind_eq_ok.mp h
    obtain rfl := Machine.pure_eq_ok.mp h
    rw [countPassed_mem]
    have hcompletion := callCompletion_handed hh hcompletion
    exact hcompletion.trans (callDequeue_handed hh hdequeue)

theorem newResponse_handed {p : Addr} {tag : Int} {header2 : List UInt8} {c c' : Conn σ ι}
    (h : newResponse cfg p tag header2 c = .ok c') : c.w.mem.Handed cfg.method c'.w.mem := by
  unfold newResponse at h
  dsimp only at h
  generalize pvfsOperation header2 = operation at h
  have hmarks := Mem.Handed.write cfg.method c.w.mem p
    (f := fun rs => { rs with
      op := operation
      metaResponse := rs.metaResponse
        || !decide (operation = .io ∨ operation = .writeCompletion ∨ operation = .smallIo)
      configTag := operation == .getconfig }) fun _ => ⟨rfl, rfl⟩
  split at h
  · obtain rfl := Machine.pure_eq_ok.mp h
    exact hmarks
  · obtain ⟨response, -, h⟩ := Machine.bind_eq_ok.mp h
    obtain ⟨w₁, hread, h⟩ := Machine.bind_eq_ok.mp h
    obtain ⟨w₂, hsize, h⟩ := Machine.bind_eq_ok.mp h
    obtain ⟨w₃, hmeta, h⟩ := Machine.bind_eq_ok.mp h
    obtain rfl := Machine.pure_eq_ok.mp h
    have hread := by
      unfold responseRead at hread
      split at hread
      · exact hmarks.trans (readResponse_handed hh hread)
      · obtain rfl := Except.ok.inj hread
        exact hmarks
    have hsize : w₁.mem.Handed cfg.method w₂.mem := by
      unfold responseSize at hsize
      split at hsize
      · split at hsize
        · exact writeCompletion_handed hh hsize
        · split at hsize
          · exact smallIoSelfDispatch_handed hh hsize
          · obtain rfl := Except.ok.inj hsize
            exact .refl _ _
      · obtain rfl := Except.ok.inj hsize
        exact .refl _ _
    have hmeta : w₂.mem.Handed cfg.method w₃.mem := by
      unfold responseMeta at hmeta
      split at hmeta
      · exact metaCompletion_handed hh hmeta
      · obtain rfl := Except.ok.inj hmeta
        exact .refl _ _
    exact (hread.trans hsize).trans hmeta

theorem flowReceived_handed {p : Addr} {rs : RequestState ι} {c : Conn σ ι} {w' : World σ ι}
    (h : flowReceived cfg p rs c = .ok w') : c.w.mem.Handed cfg.method w'.mem := by
  unfold flowReceived at h
  split at h
  · split at h
    · unfold writeFlowReceived at h
      split at h
      · cases h
      · obtain ⟨⟨w₁, _⟩, hcompletion, h⟩ := Machine.bind_eq_ok.mp h
        obtain rfl := Machine.pure_eq_ok.mp h
        exact callCompletion_handed hh hcompletion
    · unfold readFlowReceived at h
      split at h
      · cases h
      · rename_i original _
        obtain ⟨⟨w₁, ret⟩, hcompletion, h⟩ := Machine.bind_eq_ok.mp h
        have hw₁ := callCompletion_handed hh hcompletion
        dsimp only at h
        split at h
        · obtain ⟨originalRs, -, h⟩ := Machine.bind_eq_ok.mp h
          obtain ⟨w₂, hthroughput, h⟩ := Machine.bind_eq_ok.mp h
          obtain ⟨⟨w₃, _⟩, hdequeue, h⟩ := Machine.bind_eq_ok.mp h
          obtain rfl := Machine.pure_eq_ok.mp h
          have hlast := hw₁.trans
            (.write cfg.method w₁.mem p (f := fun rs => { rs with lastFlow := true })
              fun _ => ⟨rfl, rfl⟩)
          have hnote := hlast.trans (.write cfg.method _ original
            (f := fun rs => { rs with checkResponseCompletion := true, lastCompletion := ret })
            fun _ => ⟨rfl, rfl⟩)
          have hthroughput := countThroughput_handed (callDequeueUnchecked_handed hh) hthroughput
          rw [countPassed_mem] at hthroughput
          exact (hnote.trans hthroughput).trans (callDequeue_handed hh hdequeue)
        · split at h
          · cases h
          · obtain rfl := Machine.pure_eq_ok.mp h
            exact hw₁
  · obtain rfl := Except.ok.inj h
    exact .refl _ _

theorem messageComplete_handed {tail : Int} {p : Addr} {c c' : Conn σ ι}
    (h : messageComplete cfg tail p c = .ok c') : c.w.mem.Handed cfg.method c'.w.mem := by
  obtain ⟨w₁, hconfig, h⟩ := Machine.bind_eq_ok.mp h
  obtain ⟨rs, buffer, -, -, rfl⟩ := rewriteConfig_ok hconfig
  obtain ⟨rs₁, -, h⟩ := Machine.bind_eq_ok.mp h
  obtain ⟨w', hflow, h⟩ := Machine.bind_eq_ok.mp h
  obtain rfl := Machine.pure_eq_ok.mp h
  have hrewrite := Mem.Handed.write cfg.method c.w.mem p
    (f := fun rs => { rs with configTag := false, buffer := buffer }) fun _ => ⟨rfl, rfl⟩
  exact hrewrite.trans (flowReceived_handed hh hflow)

end handlers

end PvfsProxy
