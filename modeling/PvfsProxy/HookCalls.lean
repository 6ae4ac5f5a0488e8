import PvfsProxy.HookItems

/-!
# Calls of NULL hooks, and for NULL items

Two method tables are the same but for NULL (`SchedulerMethod.SameButNull`) if
they differ at most in the hooks the first leaves NULL, and in what its hooks do
for an item that is NULL. A function of the framework that does the same under
every such table has called neither a NULL hook nor a hook for a request without
an item. One lemma for each function says when that is so; `check_request` needs
nothing for it.
-/

namespace PvfsProxy

variable {σ ι : Type}

structure SchedulerMethod.SameButNull (m m' : SchedulerMethod σ ι) : Prop where
  workConserving : m'.workConserving = m.workConserving
  selfDispatch : m'.schSelfDispatch = m.schSelfDispatch
  acceptMeta : m'.schAcceptMeta = m.schAcceptMeta
  enqueue : m'.schEnqueue = m.schEnqueue
  addTtlThroughput : m'.schAddTtlThroughput = m.schAddTtlThroughput
  /-- the item of a reason counts only when something completes -/
  dequeue : ∀ r g, (r.event = .completeIo → r.item ≠ none) →
    m'.schDequeue r g = m.schDequeue r g
  completion : ∀ message g, message.currentItem ≠ none →
    m'.schUpdateOnRequestCompletion message g = m.schUpdateOnRequestCompletion message g
  currentSize : ∀ hook, m.schCurrentSize = some hook → ∃ hook', m'.schCurrentSize = some hook'
    ∧ ∀ it actual, hook' (some it) actual = hook (some it) actual
  calculateDiff : ∀ hook, m.schCalculateDiff = some hook → m'.schCalculateDiff = some hook

/-- The proxy with another method table. -/
abbrev Config.using (cfg : Config σ ι) (m' : SchedulerMethod σ ι) : Config σ ι :=
  { cfg with method := m' }

/-- The request at this address, if any, has an item. -/
def Mem.HasItem (mem : Mem ι) (p : Addr) : Prop :=
  ∀ rs, mem p = some rs → rs.currentItem.isSome = true

theorem Mem.Handed.hasItem {m : SchedulerMethod σ ι} {mem mem' : Mem ι}
    (h : mem.Handed m mem') {p : Addr} (hlive : (mem p).isSome = true) (hp : mem.HasItem p) :
    mem'.HasItem p := by
  intro rs' hrs'
  obtain ⟨rs, hrs⟩ := Option.isSome_iff_exists.mp hlive
  obtain ⟨rs'', hrs'', hh⟩ := h p rs hrs
  rw [hrs'] at hrs''
  obtain rfl := Option.some.inj hrs''
  exact hh.1 (hp rs hrs)

theorem Mem.HasItem.write {mem : Mem ι} {p : Addr} (h : mem.HasItem p) (q : Addr)
    {f : RequestState ι → RequestState ι} (hf : ∀ rs, (f rs).currentItem = rs.currentItem) :
    (mem.modify q f).HasItem p := by
  intro rs hrs
  by_cases hp : p = q
  · subst hp
    rw [Mem.modify_self, Option.map_eq_some_iff] at hrs
    obtain ⟨rs₀, hrs₀, rfl⟩ := hrs
    rw [hf rs₀]
    exact h rs₀ hrs₀
  · rw [Mem.modify_of_ne _ hp] at hrs
    exact h rs hrs

section calls

variable {cfg : Config σ ι} {m' : SchedulerMethod σ ι} (hm : cfg.method.SameButNull m')

include hm

theorem dispatchNext_using {r : DequeueReason ι} (hr : r.event = .completeIo → r.item ≠ none)
    (g : Globals σ) (mem : Mem ι) :
    dispatchNext m' r g mem = dispatchNext cfg.method r g mem := by
  unfold dispatchNext
  rw [hm.dequeue r g hr]

theorem callDequeue_using {r : DequeueReason ι} (hr : r.event = .completeIo → r.item ≠ none)
    (w : World σ ι) : callDequeue (cfg.using m') r w = callDequeue cfg r w := by
  unfold callDequeue
  rw [dispatchNext_using hm hr]

theorem callDequeueUnchecked_using {r : DequeueReason ι}
    (hr : r.event = .completeIo → r.item ≠ none) (w : World σ ι) :
    callDequeueUnchecked (cfg.using m') r w = callDequeueUnchecked cfg r w := by
  unfold callDequeueUnchecked
  rw [hm.dequeue r w.g hr]

theorem callCompletion_using {owner : Addr} {size : Int} {w : World σ ι}
    (hitem : w.mem.HasItem owner) :
    callCompletion (cfg.using m') owner size w = callCompletion cfg owner size w := by
  unfold callCompletion Mem.deref
  cases hrs : w.mem owner with
  | none => rfl
  | some rs =>
      have hne : rs.currentItem ≠ none := Option.isSome_iff_ne_none.mp (hitem rs hrs)
      simp only [bind, Except.bind]
      rw [hm.completion _ _ hne]

theorem callCurrentSize_using {owner : Addr} {actual : Int} {w : World σ ι}
    (hhook : cfg.method.schCurrentSize ≠ none) (hitem : w.mem.HasItem owner) :
    callCurrentSize (cfg.using m') owner actual w = callCurrentSize cfg owner actual w := by
  obtain ⟨hook, hhook⟩ := Option.ne_none_iff_exists'.mp hhook
  obtain ⟨hook', hhook', hsame⟩ := hm.currentSize hook hhook
  unfold callCurrentSize Mem.deref
  cases hrs : w.mem owner with
  | none => rfl
  | some rs =>
      obtain ⟨it, hit⟩ := Option.isSome_iff_exists.mp (hitem rs hrs)
      simp only [bind, Except.bind, hhook, hhook', hit, hsame]

/-- Differences can be computed, or are not asked for. -/
def DiffsKnown (cfg : Config σ ι) (w : World σ ι) : Prop :=
  cfg.timerStop = true ∨ w.firstReceive = false ∨ cfg.method.workConserving = true
    ∨ cfg.method.schCalculateDiff ≠ none ∨ cfg.numApps = 0

theorem updateDiffs_using (hdiff : cfg.method.schCalculateDiff ≠ none)
    {dequeue dequeue' : DequeueReason ι → World σ ι →
      Except Fault (World σ ι × Option (GenericQueueItem ι))}
    (hd : ∀ r, r.event ≠ .completeIo → dequeue' r = dequeue r)
    (item : Option (GenericQueueItem ι)) (apps : List Nat) (w : World σ ι) :
    updateDiffs (cfg.using m') dequeue' item apps w = updateDiffs cfg dequeue item apps w := by
  obtain ⟨hook, hhook⟩ := Option.ne_none_iff_exists'.mp hdiff
  have hhook' := hm.calculateDiff hook hhook
  induction apps generalizing w with
  | nil => rfl
  | cons s apps ih =>
      unfold updateDiffs
      have hdeq := hd { event := .diffChange, completeSize := 0, lastAppIndex := s, item }
        (by simp)
      simp only [hhook, hhook', hdeq, ih]

theorem countThroughput_using {dequeue dequeue' : DequeueReason ι → World σ ι →
      Except Fault (World σ ι × Option (GenericQueueItem ι))}
    (hd : ∀ r, r.event ≠ .completeIo → dequeue' r = dequeue r) {amount : Int} {app : Nat}
    {item : Option (GenericQueueItem ι)} {w : World σ ι} (hdiffs : DiffsKnown cfg w) :
    countThroughput (cfg.using m') dequeue' amount app item w
      = countThroughput cfg dequeue amount app item w := by
  unfold countThroughput
  simp only [hm.addTtlThroughput, hm.workConserving]
  split
  · rfl
  · rename_i hcounts
    split
    · rfl
    · rename_i hwork
      rw [Bool.or_eq_true, not_or, Bool.not_eq_true, Bool.not_eq_true'] at hcounts
      rcases hdiffs with htimer | hfirst | hconserving | hdiff | hnone
      · rw [htimer] at hcounts
        cases hcounts.1
      · rw [hfirst] at hcounts
        exact absurd rfl hcounts.2
      · exact absurd hconserving hwork
      · exact updateDiffs_using hm hdiff hd item _ _
      · rw [hnone]
        rfl

/-- `check_request` asks for no item. -/
theorem admitRequest_using {pool : Nat → Endpoint} {si : SocketInfo} {pi : PvfsInfo}
    {event : DequeueEvent} (hevent : event ≠ .completeIo) (size : Int) (g : Globals σ)
    (mem : Mem ι) :
    admitRequest m' pool si pi event size g mem
      = admitRequest cfg.method pool si pi event size g mem := by
  unfold admitRequest
  simp only [hm.enqueue, hm.selfDispatch]
  have hdeq : ∀ g : Globals σ, m'.schDequeue
      { event, completeSize := size, lastAppIndex := si.appIndex, item := none } g
      = cfg.method.schDequeue
        { event, completeSize := size, lastAppIndex := si.appIndex, item := none } g :=
    fun g => hm.dequeue _ g fun h => absurd h hevent
  simp only [hdeq]

theorem callAdmit_using {c : Conn σ ι} {si : SocketInfo} {pi : PvfsInfo} {event : DequeueEvent}
    (hevent : event ≠ .completeIo) (size : Int) (w : World σ ι) :
    callAdmit (cfg.using m') c si pi event size w = callAdmit cfg c si pi event size w := by
  unfold callAdmit
  rw [admitRequest_using hm hevent]

theorem scheduleRequest_using (c : Conn σ ι) (p counter : Addr) (tag size : Int)
    (op : PvfsServerOp) (header2 : List UInt8) :
    scheduleRequest (cfg.using m') c p counter tag size op header2
      = scheduleRequest cfg c p counter tag size op header2 := by
  have hio : ∀ si pi size w, callAdmit (cfg.using m') c si pi .newIo size w
      = callAdmit cfg c si pi .newIo size w := fun _ _ _ _ => callAdmit_using hm (by simp) _ _
  have hmeta : ∀ si pi size w, callAdmit (cfg.using m') c si pi .newMeta size w
      = callAdmit cfg c si pi .newMeta size w := fun _ _ _ _ => callAdmit_using hm (by simp) _ _
  unfold scheduleRequest
  simp only [hio, hmeta, hm.acceptMeta]

theorem checkRequest_using (visible : List UInt8) (c : Conn σ ι) :
    checkRequest (cfg.using m') visible c = checkRequest cfg visible c := by
  have hopen : ∀ tag size, openRequest (cfg.using m') tag size c = openRequest cfg tag size c :=
    fun _ _ => rfl
  have hnew : ∀ c p tag size header2, newRequest (cfg.using m') c p tag size header2
      = newRequest cfg c p tag size header2 := by
    intro c p tag size header2
    unfold newRequest
    simp only [scheduleRequest_using hm]
  unfold checkRequest
  simp only [hopen, hnew]

end calls

/-! ## Responses -/

section responses

variable {cfg : Config σ ι} {m' : SchedulerMethod σ ι} (hm : cfg.method.SameButNull m')

theorem callCurrentSize_live {owner : Addr} {actual size : Int} {w w' : World σ ι}
    (h : callCurrentSize cfg owner actual w = .ok (w', size)) :
    (w.mem owner).isSome = true := by
  obtain ⟨rs, hook, item, hrs, -⟩ := callCurrentSize_ok h
  rw [hrs]
  rfl

theorem callCompletion_live {owner : Addr} {size ret : Int} {w w' : World σ ι}
    (h : callCompletion cfg owner size w = .ok (w', ret)) : (w.mem owner).isSome = true := by
  obtain ⟨rs, out, hrs, -⟩ := callCompletion_ok h
  rw [hrs]
  rfl

theorem findRequest_live {mem : Mem ι} {s : SocketState} {tag : Int} {p : Addr}
    (h : findRequest mem s tag = some p) : (mem p).isSome = true := by
  obtain ⟨rs, hrs, -⟩ := hasTag_eq_true.mp (findRequest_mem h).2
  rw [hrs]
  rfl

/-- Whether all applications have been seen is not asked of the request states. -/
theorem countPassed_firstReceive {app : Nat} {w w' : World σ ι} (hg : w'.g = w.g)
    (hfirst : w'.firstReceive = w.firstReceive) :
    (countPassed cfg app (countCompleted app w')).firstReceive
      = (countPassed cfg app (countCompleted app w)).firstReceive := by
  unfold countPassed checkAllAppStat countCompleted
  rw [hg, hfirst]
  dsimp only
  split
  · rfl
  · split
    · rfl
    · rfl

theorem DiffsKnown.of_same {app : Nat} {w w' : World σ ι}
    (h : DiffsKnown cfg (countPassed cfg app (countCompleted app w))) (hg : w'.g = w.g)
    (hfirst : w'.firstReceive = w.firstReceive) :
    DiffsKnown cfg (countPassed cfg app (countCompleted app w')) := by
  unfold DiffsKnown at h ⊢
  rwa [countPassed_firstReceive hg hfirst]

/-- The item a completion reads back after its hook was called. -/
theorem Mem.HasItem.of_deref {mem : Mem ι} {p : Addr} {rs : RequestState ι} (h : mem.HasItem p)
    (hrs : mem.deref p = .ok rs) : rs.currentItem ≠ none :=
  Option.isSome_iff_ne_none.mp (h rs (Mem.deref_eq_ok.mp hrs))

include hm

theorem readResponse_using {finds : σ → Nat → Prop} (hh : cfg.method.Hands finds) {p : Addr}
    {tag : Int} {header2 : List UInt8} {c : Conn σ ι}
    (hhook : cfg.method.schCurrentSize ≠ none)
    (hitem : ∀ request, findRequest c.w.mem c.peer tag = some request →
      c.w.mem.HasItem request) :
    readResponse (cfg.using m') p tag header2 c = readResponse cfg p tag header2 c := by
  unfold readResponse
  cases hrequest : findRequest c.w.mem c.peer tag with
  | none => rfl
  | some request =>
      have hitem₀ := hitem request hrequest
      dsimp only
      refine Machine.bind_congr_ok fun requestRs hrs => ?_
      rw [callCurrentSize_using hm hhook hitem₀]
      refine Machine.bind_congr_ok fun ⟨w₁, currentSize⟩ hsize => ?_
      have hlive := callCurrentSize_live hsize
      have hhanded₁ := callCurrentSize_handed hh hsize
      dsimp only
      split
      · rfl
      · have hlast := hhanded₁.trans
          (.write cfg.method w₁.mem p (f := fun rs => { rs with lastFlow := true })
            fun _ => ⟨rfl, rfl⟩)
        rw [callCurrentSize_using hm hhook (hlast.hasItem hlive hitem₀)]
        refine Machine.bind_congr_ok fun ⟨w₂, size₂⟩ hsize₂ => ?_
        have hhanded₂ := hlast.trans (callCurrentSize_handed hh hsize₂)
        dsimp only
        rw [callCompletion_using hm (hhanded₂.hasItem hlive hitem₀)]
        refine Machine.bind_congr_ok fun ⟨w₃, ret⟩ hcompletion => ?_
        have hhanded₃ := hhanded₂.trans (callCompletion_handed hh hcompletion)
        have hnote := hhanded₃.trans (.write cfg.method w₃.mem request
          (f := fun rs => { rs with checkResponseCompletion := true, lastCompletion := 1 })
          fun _ => ⟨rfl, rfl⟩)
        dsimp only
        have hpassed : ∀ w : World σ ι, countPassed (cfg.using m') c.peer.appIndex w
            = countPassed cfg c.peer.appIndex w := fun _ => rfl
        rw [hpassed]
        refine Machine.bind_congr_ok fun requestRs' hrs' => ?_
        have hitem₄ : requestRs'.currentItem ≠ none := by
          rw [countPassed_mem] at hrs'
          exact (hnote.hasItem hlive hitem₀).of_deref hrs'
        rw [callDequeue_using hm fun _ => hitem₄]

theorem writeCompletion_using {p : Addr} {tag size : Int} {c : Conn σ ι}
    (hdiffs : DiffsKnown cfg (countPassed cfg c.peer.appIndex (countCompleted c.peer.appIndex c.w)))
    (hitem : ∀ request, findRequest c.w.mem c.peer tag = some request →
      c.w.mem.HasItem request) :
    writeCompletion (cfg.using m') p tag size c = writeCompletion cfg p tag size c := by
  unfold writeCompletion
  dsimp only
  rw [findRequest_modify c.w.mem c.peer tag p (by intro _; rfl)]
  cases hrequest : findRequest c.w.mem c.peer tag with
  | none => rfl
  | some request =>
      dsimp only
      refine Machine.bind_congr_ok fun requestRs hrs => ?_
      have hop := Mem.Handed.write cfg.method c.w.mem p
        (f := fun rs => { rs with op := .writeCompletion }) fun _ => ⟨rfl, rfl⟩
      have hne := (hop.hasItem (findRequest_live hrequest) (hitem request hrequest)).of_deref hrs
      have hdeq : ∀ r : DequeueReason ι, r.event ≠ .completeIo →
          callDequeue (cfg.using m') r = callDequeue cfg r :=
        fun r hr => funext fun w => callDequeue_using hm (fun h => absurd h hr) w
      have hpassed : ∀ w : World σ ι, countPassed (cfg.using m') c.peer.appIndex w
          = countPassed cfg c.peer.appIndex w := fun _ => rfl
      rw [hpassed, countThroughput_using hm hdeq (hdiffs.of_same ?_ ?_)]
      · refine Machine.bind_congr_ok fun w₁ _ => ?_
        rw [callDequeue_using hm fun _ => hne]
      · rfl
      · rfl

theorem smallIoSelfDispatch_using {tag : Int} {c : Conn σ ι}
    (hitem : ∀ request, findRequest c.w.mem c.peer tag = some request →
      c.w.mem.HasItem request) :
    smallIoSelfDispatch (cfg.using m') tag c = smallIoSelfDispatch cfg tag c := by
  unfold smallIoSelfDispatch
  cases hrequest : findRequest c.w.mem c.peer tag with
  | none => rfl
  | some request =>
      dsimp only
      rw [callCompletion_using hm (hitem request hrequest)]

theorem metaCompletion_using {finds : σ → Nat → Prop} (hh : cfg.method.Hands finds) {tag : Int}
    {c : Conn σ ι}
    (hitem : ∀ request, findRequest c.w.mem c.peer tag = some request →
      c.w.mem.HasItem request) :
    metaCompletion (cfg.using m') tag c = metaCompletion cfg tag c := by
  unfold metaCompletion
  cases hrequest : findRequest c.w.mem c.peer tag with
  | none => rfl
  | some request =>
      have hitem₀ := hitem request hrequest
      dsimp only
      rw [callCompletion_using hm (by exact hitem₀)]
      refine Machine.bind_congr_ok fun ⟨w₁, ret⟩ hcompletion => ?_
      have hlive := callCompletion_live hcompletion
      have hhanded := callCompletion_handed hh hcompletion
      dsimp only
      refine Machine.bind_congr_ok fun requestRs hrs => ?_
      have hne : requestRs.currentItem ≠ none := by
        have hitem₁ := Mem.Handed.hasItem hhanded hlive (by exact hitem₀)
        exact hitem₁.of_deref hrs
      rw [callDequeue_using hm fun _ => hne]
      rfl

/-- What a response of this operation needs: an item of the request where the
scheduler is told, the hook for the size of a read, and known differences where
throughput is counted. -/
structure Conn.Answerable (cfg : Config σ ι) (tag : Int) (operation : PvfsServerOp)
    (ioType : Int) (c : Conn σ ι) : Prop where
  item : cfg.schedulerOn = true →
    (operation = .io ∧ ioType = pvfsIoRead ∨ operation = .smallIo
      ∨ (operation = .writeCompletion ∨ isMeta operation = true)
        ∧ cfg.method.schSelfDispatch = false) →
    ∀ request, findRequest c.w.mem c.peer tag = some request → c.w.mem.HasItem request
  size : cfg.schedulerOn = true → operation = .io → ioType = pvfsIoRead →
    cfg.method.schCurrentSize ≠ none
  diffs : cfg.schedulerOn = true → cfg.method.schSelfDispatch = false →
    operation = .writeCompletion ∨ operation = .smallIo →
    DiffsKnown cfg (countPassed cfg c.peer.appIndex (countCompleted c.peer.appIndex c.w))

omit hm in
theorem Conn.Answerable.write {tag : Int} {operation : PvfsServerOp} {ioType : Int}
    {c : Conn σ ι} (h : c.Answerable cfg tag operation ioType) (me : SocketState) (p : Addr)
    {f : RequestState ι → RequestState ι}
    (hf : ∀ rs, (f rs).currentTag = rs.currentTag ∧ (f rs).currentItem = rs.currentItem) :
    Conn.Answerable cfg tag operation ioType
      { c with me, w := { c.w with mem := c.w.mem.modify p f } } where
  item hon hcase request hrequest := by
    dsimp only at hrequest ⊢
    rw [findRequest_modify _ _ _ _ fun rs => (hf rs).1] at hrequest
    exact (h.item hon hcase request hrequest).write p fun rs => (hf rs).2
  size := h.size
  diffs hon hself hop := (h.diffs hon hself hop).of_same rfl rfl

theorem responseSize_using {p : Addr} {tag ioType : Int} {header2 : List UInt8}
    {operation : PvfsServerOp} {c : Conn σ ι} (hans : c.Answerable cfg tag operation ioType) :
    responseSize (cfg.using m') p tag header2 operation c
      = responseSize cfg p tag header2 operation c := by
  unfold responseSize
  rw [hm.selfDispatch]
  cases hsize : dumpResponse header2 operation with
  | none => rfl
  | some aggregateSize =>
      have hop : operation = .writeCompletion ∨ operation = .smallIo := by
        by_contra hne
        rw [not_or] at hne
        rw [dumpResponse_eq_none hne.1 hne.2] at hsize
        cases hsize
      dsimp only
      split
      · rename_i hon
        rw [Bool.and_eq_true, Bool.not_eq_true'] at hon
        refine writeCompletion_using hm (hans.diffs hon.1 hon.2 hop) (hans.item hon.1 ?_)
        rcases hop with hop | hop
        · exact .inr (.inr ⟨.inl hop, hon.2⟩)
        · exact .inr (.inl hop)
      · split
        · rename_i hon
          rw [Bool.and_eq_true, beq_iff_eq] at hon
          exact smallIoSelfDispatch_using hm (hans.item hon.1 (.inr (.inl hon.2)))
        · rfl

theorem responseMeta_using {finds : σ → Nat → Prop} (hh : cfg.method.Hands finds)
    {tag ioType : Int} {operation : PvfsServerOp} {c : Conn σ ι}
    (hans : c.Answerable cfg tag operation ioType) :
    responseMeta (cfg.using m') tag operation c = responseMeta cfg tag operation c := by
  unfold responseMeta
  rw [hm.selfDispatch]
  split
  · rename_i hon
    rw [Bool.and_eq_true, Bool.and_eq_true, Bool.not_eq_true'] at hon
    exact metaCompletion_using hm hh
      (hans.item hon.1.1 (.inr (.inr ⟨.inr hon.1.2, hon.2⟩)))
  · rfl

/-- At most one of the three branches of a response is taken. -/
theorem responseBranches_using {finds : σ → Nat → Prop} (hh : cfg.method.Hands finds) (p : Addr)
    {tag ioType : Int} (header2 : List UInt8) {operation : PvfsServerOp} {c : Conn σ ι}
    (hans : c.Answerable cfg tag operation ioType) :
    (do
      let w ← responseRead (cfg.using m') p tag header2 operation ioType c
      let w ← responseSize (cfg.using m') p tag header2 operation { c with w }
      let w ← responseMeta (cfg.using m') tag operation { c with w }
      return ({ c with w } : Conn σ ι))
    = (do
      let w ← responseRead cfg p tag header2 operation ioType c
      let w ← responseSize cfg p tag header2 operation { c with w }
      let w ← responseMeta cfg tag operation { c with w }
      return ({ c with w } : Conn σ ι)) := by
  by_cases hio : operation = .io
  · have hread : responseRead (cfg.using m') p tag header2 operation ioType c
        = responseRead cfg p tag header2 operation ioType c := by
      unfold responseRead
      split
      · rename_i hread
        exact readResponse_using hm hh (hans.size hread.2.2 hread.1 hread.2.1)
          (hans.item hread.2.2 (.inl ⟨hread.1, hread.2.1⟩))
      · rfl
    have hsize : ∀ (cfg : Config σ ι) (c : Conn σ ι),
        responseSize cfg p tag header2 operation c = .ok c.w := by
      intro cfg c
      unfold responseSize
      rw [hio]
      rfl
    have hmeta : ∀ (cfg : Config σ ι) (c : Conn σ ι),
        responseMeta cfg tag operation c = .ok c.w := by
      intro cfg c
      unfold responseMeta
      rw [hio, if_neg (by simp [isMeta])]
    rw [hread]
    simp only [hsize, hmeta]
  · have hread : ∀ cfg : Config σ ι,
        responseRead cfg p tag header2 operation ioType c = .ok c.w :=
      fun _ => if_neg fun h => hio h.1
    simp only [hread]
    show (responseSize (cfg.using m') p tag header2 operation c >>= _)
      = (responseSize cfg p tag header2 operation c >>= _)
    by_cases hsized : operation = .writeCompletion ∨ operation = .smallIo
    · have hmeta : ∀ (cfg : Config σ ι) (c : Conn σ ι),
          responseMeta cfg tag operation c = .ok c.w := by
        intro cfg c
        unfold responseMeta
        rw [if_neg]
        rcases hsized with rfl | rfl
        · simp [isMeta]
        · simp [isMeta]
      rw [responseSize_using hm hans]
      simp only [hmeta]
    · have hsize : ∀ cfg : Config σ ι, responseSize cfg p tag header2 operation c = .ok c.w := by
        intro cfg
        unfold responseSize
        rw [not_or] at hsized
        rw [dumpResponse_eq_none hsized.1 hsized.2]
      simp only [hsize]
      show (responseMeta (cfg.using m') tag operation c >>= _)
        = (responseMeta cfg tag operation c >>= _)
      rw [responseMeta_using hm hh hans]

theorem newResponse_using {finds : σ → Nat → Prop} (hh : cfg.method.Hands finds) {p : Addr}
    {tag : Int} {header2 : List UInt8} {c : Conn σ ι}
    (hans : ∀ rs, c.w.mem p = some rs →
      c.Answerable cfg tag (pvfsOperation header2) rs.pvfsIoType) :
    newResponse (cfg.using m') p tag header2 c = newResponse cfg p tag header2 c := by
  unfold newResponse
  dsimp only
  generalize pvfsOperation header2 = operation at hans
  split
  · rfl
  · refine Machine.bind_congr_ok fun response hresponse => ?_
    have hresponse := Mem.deref_eq_ok.mp hresponse
    rw [Mem.modify_self, Option.map_eq_some_iff] at hresponse
    obtain ⟨rs, hrs, rfl⟩ := hresponse
    have hans := (hans rs hrs).write { c.me with incompleteMode := false } p
      (f := fun rs => { rs with
        op := operation
        metaResponse := rs.metaResponse
          || !decide (operation = .io ∨ operation = .writeCompletion ∨ operation = .smallIo)
        configTag := operation == .getconfig }) fun _ => ⟨rfl, rfl⟩
    exact responseBranches_using hm hh p header2 hans

theorem checkResponse_using {finds : σ → Nat → Prop} (hh : cfg.method.Hands finds)
    {visible : List UInt8} {c : Conn σ ι}
    (hans : ∀ c₁ p ret rs, bmiSize visible + bmiHeaderLength ≤ visible.length →
      OpenedResponse cfg (toInt32 (bmiTag visible)) (bmiSize visible) c c₁ (some p) ret →
      c₁.w.mem p = some rs → c₁.Answerable cfg (toInt32 (bmiTag visible))
        (pvfsOperation (visible.take (bmiSize visible + bmiHeaderLength).toNat)) rs.pvfsIoType) :
    checkResponse (cfg.using m') visible c = checkResponse cfg visible c := by
  have hopened : ∀ tag size, openResponse (cfg.using m') tag size c = openResponse cfg tag size c :=
    fun _ _ => rfl
  unfold checkResponse
  simp only [hopened]
  by_cases hheader : getBmiHeader visible ≠ bmiHeaderLength
  · rw [if_pos hheader, if_pos hheader]
    exact Machine.throw_bind_congr
  · rw [if_neg hheader, if_neg hheader]
    refine Machine.bind_congr_ok fun ⟨c₁, opened, ret⟩ hopen => ?_
    cases opened with
    | none => rfl
    | some p =>
        dsimp only
        split
        · rfl
        · rename_i hlen
          rw [newResponse_using hm hh fun rs hrs =>
            hans c₁ p ret rs (by omega) (openResponse_ok hopen) hrs]

end responses

/-! ## Flows -/

section flows

variable {cfg : Config σ ι} {m' : SchedulerMethod σ ι} (hm : cfg.method.SameButNull m')
  {finds : σ → Nat → Prop} (hh : cfg.method.Hands finds)

/-- What a flow needs that is complete: an item of the request it belongs to,
and known differences if it may be the last of a read. -/
structure Conn.FlowKnown (cfg : Config σ ι) (rs : RequestState ι) (c : Conn σ ι) : Prop where
  item : ∀ original, rs.originalRequest = some original → c.w.mem.HasItem original
  diffs : c.me.source = .server →
    DiffsKnown cfg (countPassed cfg c.peer.appIndex (countCompleted c.peer.appIndex c.w))

include hh in
/-- A completion counts nothing where differences are unknown. -/
theorem DiffsKnown.completion {app : Nat} {owner : Addr} {size ret : Int} {w w' : World σ ι}
    (h : DiffsKnown cfg (countPassed cfg app (countCompleted app w)))
    (hcall : callCompletion cfg owner size w = .ok (w', ret)) :
    DiffsKnown cfg (countPassed cfg app (countCompleted app w')) := by
  obtain ⟨rs, -, hcall⟩ := Machine.bind_eq_ok.mp hcall
  obtain ⟨out, hout, hcall⟩ := Machine.bind_eq_ok.mp hcall
  obtain ⟨rfl, -⟩ := Prod.mk.inj (Machine.pure_eq_ok.mp hcall)
  by_cases hknown : cfg.method.schCalculateDiff = none ∧ cfg.method.workConserving = false
  · exact h.of_same (hh.completionStats hknown.1 hknown.2 hout) rfl
  · rw [not_and_or, Bool.not_eq_false] at hknown
    rcases hknown with hdiff | hwork
    · exact .inr (.inr (.inr (.inl hdiff)))
    · exact .inr (.inr (.inl hwork))

include hm hh

theorem readFlowReceived_using {p : Addr} {rs : RequestState ι} {c : Conn σ ι}
    (hsource : c.me.source = .server) (hflow : c.FlowKnown cfg rs) :
    readFlowReceived (cfg.using m') c.peer.appIndex p rs c.w
      = readFlowReceived cfg c.peer.appIndex p rs c.w := by
  unfold readFlowReceived
  cases horiginal : rs.originalRequest with
  | none => rfl
  | some original =>
      have hitem := hflow.item original horiginal
      dsimp only
      rw [callCompletion_using hm hitem]
      refine Machine.bind_congr_ok fun ⟨w₁, ret⟩ hcompletion => ?_
      have hlive := callCompletion_live hcompletion
      have hitem₁ := (callCompletion_handed hh hcompletion).hasItem hlive hitem
      have hdiffs := (hflow.diffs hsource).completion hh hcompletion
      dsimp only
      rw [hm.selfDispatch]
      split
      · refine Machine.bind_congr_ok fun originalRs hrs => ?_
        have hne := hitem₁.of_deref hrs
        have hdeq : ∀ r : DequeueReason ι, r.event ≠ .completeIo →
            callDequeueUnchecked (cfg.using m') r = callDequeueUnchecked cfg r :=
          fun r hr => funext fun w => callDequeueUnchecked_using hm (fun h => absurd h hr) w
        have hpassed : ∀ w : World σ ι, countPassed (cfg.using m') c.peer.appIndex w
            = countPassed cfg c.peer.appIndex w := fun _ => rfl
        rw [hpassed, countThroughput_using hm hdeq (hdiffs.of_same ?_ ?_)]
        · refine Machine.bind_congr_ok fun w₂ _ => ?_
          rw [callDequeue_using hm fun _ => hne]
        · rfl
        · rfl
      · rfl

theorem flowReceived_using {p : Addr} {rs : RequestState ι} {c : Conn σ ι}
    (hflow : cfg.schedulerOn = true → rs.op = .dataFlow → c.FlowKnown cfg rs) :
    flowReceived (cfg.using m') p rs c = flowReceived cfg p rs c := by
  unfold flowReceived
  split
  · rename_i hon
    rw [Bool.and_eq_true, beq_iff_eq] at hon
    have hflow := hflow hon.1 hon.2
    cases hsource : c.me.source with
    | client =>
        dsimp only
        unfold writeFlowReceived
        cases horiginal : rs.originalRequest with
        | none => rfl
        | some original =>
            dsimp only
            rw [callCompletion_using hm (hflow.item original horiginal)]
    | server => exact readFlowReceived_using hm hh hsource hflow
  · rfl

theorem messageComplete_using {tail : Int} {p : Addr} {c : Conn σ ι}
    (hflow : ∀ rs, c.w.mem p = some rs → cfg.schedulerOn = true → rs.op = .dataFlow →
      c.FlowKnown cfg rs) :
    messageComplete (cfg.using m') tail p c = messageComplete cfg tail p c := by
  unfold messageComplete
  refine Machine.bind_congr_ok fun w₁ hconfig => ?_
  obtain ⟨rs, buffer, hrs, -, rfl⟩ := rewriteConfig_ok hconfig
  refine Machine.bind_congr_ok fun rs₁ hrs₁ => ?_
  have hrs₁ := Mem.deref_eq_ok.mp hrs₁
  simp only [Mem.modify_self, hrs, Option.map_some, Option.some.injEq] at hrs₁
  subst hrs₁
  rw [flowReceived_using hm hh]
  intro hon hop
  have hknown := hflow rs hrs hon hop
  refine ⟨fun original horiginal => ?_, fun hsource => ?_⟩
  · exact (hknown.item original horiginal).write p fun _ => rfl
  · exact (hknown.diffs hsource).of_same rfl rfl

theorem receive_using {incoming : Incoming} {p : Addr} {c : Conn σ ι}
    (hflow : ∀ rs, c.w.mem p = some rs → cfg.schedulerOn = true → rs.op = .dataFlow →
      rs.completedSize + (incoming.visible.take (rs.bufferSize - rs.bufferTail).toNat).length
        = rs.jobSize → c.FlowKnown cfg rs) :
    receive (cfg.using m') incoming p c = receive cfg incoming p c := by
  unfold receive
  refine Machine.bind_congr_ok fun rs hrs => ?_
  have hrs := Mem.deref_eq_ok.mp hrs
  dsimp only
  generalize hgot : incoming.visible.take (rs.bufferSize - rs.bufferTail).toNat = got
  by_cases hroom : rs.bufferSize - rs.bufferTail ≤ 0
  · rw [if_pos hroom, if_pos hroom]
    exact Machine.throw_bind_congr
  rw [if_neg hroom, if_neg hroom]
  by_cases hnil : got.isEmpty = true
  · rw [if_pos hnil, if_pos hnil]
    by_cases hended : incoming.ended = true
    · rw [if_pos hended, if_pos hended]
    · rw [if_neg hended, if_neg hended]
      exact Machine.throw_bind_congr
  rw [if_neg hnil, if_neg hnil]
  by_cases hjob : rs.jobSize ≤ 0
  · rw [if_pos hjob, if_pos hjob]
    exact Machine.throw_bind_congr
  rw [if_neg hjob, if_neg hjob]
  by_cases hwhole : rs.completedSize + got.length = rs.jobSize
  · rw [if_pos hwhole, if_pos hwhole]
    have hcomplete : messageComplete (cfg.using m') rs.bufferTail p (c.took p got)
        = messageComplete cfg rs.bufferTail p (c.took p got) := by
      refine messageComplete_using hm hh fun rs₁ hrs₁ hon hop => ?_
      simp only [Conn.took, Mem.modify_self, hrs, Option.map_some, Option.some.injEq] at hrs₁
      subst hrs₁
      have hknown := hflow rs hrs hon hop (hgot ▸ hwhole)
      refine ⟨fun original horiginal => ?_, fun hsource => ?_⟩
      · exact (hknown.item original horiginal).write p fun _ => rfl
      · exact (hknown.diffs hsource).of_same rfl rfl
    exact congrArg (· >>= _) hcomplete
  · rw [if_neg hwhole, if_neg hwhole]

end flows

end PvfsProxy
