import PvfsProxy.HookStates

/-!
# What one event does to the items

Each branch of the main loop keeps a connection `Attended`, and does nothing
worse than rescheduling to the states of other connections. The branches that
call hooks do the same under every method table that is the same but for NULL.

Messages are taken to be well formed (`Conn.RequestFormed`,
`Conn.ResponseFormed`): flows and responses belong to operations the server has
seen the request of. `Conn.Provided` is what the scheduler has to bring along.
-/

namespace PvfsProxy

variable {σ ι : Type}

/-! ## Messages -/

/-- The request of an I/O, and the server has seen some of it. -/
def RequestState.Carries (ioType : Int) (rs : RequestState ι) : Prop :=
  rs.op = .io ∧ rs.pvfsIoType = ioType ∧ 0 < rs.bufferHead

/-- As a message was opened: nothing has been received of it. -/
def RequestState.Untouched (rs : RequestState ι) : Prop :=
  rs.bufferHead = 0 ∧ rs.bufferTail = 0 ∧ rs.currentItem.isNone = true

/-- The request a response of this operation answers. -/
def RequestState.AnsweredBy (operation : PvfsServerOp) (rs : RequestState ι) : Prop :=
  0 < rs.bufferHead ∧ match operation with
    | .io => rs.op = .io ∧ (rs.pvfsIoType = pvfsIoRead ∨ rs.pvfsIoType = pvfsIoWrite)
    | .writeCompletion => rs.op = .io ∧ rs.pvfsIoType = pvfsIoWrite
    | operation => rs.op = operation

instance (ioType : Int) (rs : RequestState ι) : Decidable (rs.Carries ioType) :=
  inferInstanceAs (Decidable (_ ∧ _))

instance (rs : RequestState ι) : Decidable rs.Untouched :=
  inferInstanceAs (Decidable (_ ∧ _))

instance (operation : PvfsServerOp) (rs : RequestState ι) :
    Decidable (rs.AnsweredBy operation) := by
  unfold RequestState.AnsweredBy
  cases operation <;> infer_instance

/-- A response that is not the first, where the state found is not a write's: a
flow of the read. -/
def RequestState.Flows (tag : Int) (rs : RequestState ι) : Prop :=
  0 < rs.jobSize ∧ rs.lastTag = tag ∧ rs.pvfsIoType ≠ pvfsIoWrite

instance (tag : Int) (rs : RequestState ι) : Decidable (rs.Flows tag) :=
  inferInstanceAs (Decidable (_ ∧ _))

/-- The bytes of the message, if it is wholly visible. -/
def Whole (visible : List UInt8) : Prop :=
  bmiSize visible + bmiHeaderLength ≤ visible.length

instance (visible : List UInt8) : Decidable (Whole visible) :=
  inferInstanceAs (Decidable (_ ≤ _))

def wholeMessage (visible : List UInt8) : List UInt8 :=
  visible.take (bmiSize visible + bmiHeaderLength).toNat

/-- A peek at the client's socket: a message that is peeked at again is as it was
opened, a flow belongs to a write the server has seen, and anything else is a
request. -/
structure Conn.RequestFormed (visible : List UInt8) (c : Conn σ ι) : Prop where
  repeated : c.me.incompleteMode = true →
    ∀ rs ∈ (findLastRequest c.w.mem c.me (toInt32 (bmiTag visible))).bind c.w.mem, rs.Untouched
  flow : ∀ rs ∈ (findRequest c.w.mem c.peer (toInt32 (bmiTag visible))).bind c.w.mem,
    ∀ original ∈ rs.originalRequest.bind c.w.mem, original.Carries pvfsIoWrite
  request : findRequest c.w.mem c.peer (toInt32 (bmiTag visible)) = none → Whole visible →
    pvfsOperation (wholeMessage visible) ≠ .dataFlow

instance (visible : List UInt8) (c : Conn σ ι) : Decidable (c.RequestFormed visible) :=
  decidable_of_iff
    ((c.me.incompleteMode = true →
        ∀ rs ∈ (findLastRequest c.w.mem c.me (toInt32 (bmiTag visible))).bind c.w.mem,
          rs.Untouched)
      ∧ (∀ rs ∈ (findRequest c.w.mem c.peer (toInt32 (bmiTag visible))).bind c.w.mem,
        ∀ original ∈ rs.originalRequest.bind c.w.mem, original.Carries pvfsIoWrite)
      ∧ (findRequest c.w.mem c.peer (toInt32 (bmiTag visible)) = none → Whole visible →
        pvfsOperation (wholeMessage visible) ≠ .dataFlow))
    ⟨fun h => ⟨h.1, h.2.1, h.2.2⟩, fun h => ⟨h.repeated, h.flow, h.request⟩⟩

/-- The operation of a message that is wholly visible. -/
def peekedOperation (visible : List UInt8) : Option PvfsServerOp :=
  if Whole visible then some (pvfsOperation (wholeMessage visible)) else none

/-- The state the server's side of the connection knows a tag by. -/
def Conn.known (tag : Int) (s : SocketState) (c : Conn σ ι) : Option (RequestState ι) :=
  (findRequest c.w.mem s tag).bind c.w.mem

/-- A peek at the server's socket: a flow belongs to a read the server has seen,
the first response of an operation to the only state of the tag, and a response
answers a request the server has seen, the second one that of a write. -/
structure Conn.ResponseFormed (tag : Int) (operation : Option PvfsServerOp) (c : Conn σ ι) :
    Prop where
  flow : ∀ rs ∈ c.known tag c.me, rs.Flows tag →
    ∀ original ∈ rs.originalRequest.bind c.w.mem, original.Carries pvfsIoRead
  first : ∀ rs ∈ c.known tag c.me, rs.jobSize ≤ 0 →
    findLastRequest c.w.mem c.me tag = findRequest c.w.mem c.me tag
  second : ∀ rs ∈ c.known tag c.me, 0 < rs.jobSize → ¬ rs.Flows tag →
    ∀ op ∈ operation, op = .writeCompletion
  response : ∀ rs ∈ c.known tag c.me, ¬ rs.Flows tag → ∀ op ∈ operation,
    op ≠ .dataFlow ∧ ∀ request ∈ c.known tag c.peer, request.AnsweredBy op

instance (tag : Int) (operation : Option PvfsServerOp) (c : Conn σ ι) :
    Decidable (c.ResponseFormed tag operation) :=
  decidable_of_iff
    ((∀ rs ∈ c.known tag c.me, rs.Flows tag →
        ∀ original ∈ rs.originalRequest.bind c.w.mem, original.Carries pvfsIoRead)
      ∧ (∀ rs ∈ c.known tag c.me, rs.jobSize ≤ 0 →
        findLastRequest c.w.mem c.me tag = findRequest c.w.mem c.me tag)
      ∧ (∀ rs ∈ c.known tag c.me, 0 < rs.jobSize → ¬ rs.Flows tag →
        ∀ op ∈ operation, op = .writeCompletion)
      ∧ ∀ rs ∈ c.known tag c.me, ¬ rs.Flows tag → ∀ op ∈ operation,
        op ≠ .dataFlow ∧ ∀ request ∈ c.known tag c.peer, request.AnsweredBy op)
    ⟨fun h => ⟨h.1, h.2.1, h.2.2.1, h.2.2.2⟩,
      fun h => ⟨h.flow, h.first, h.second, h.response⟩⟩

/-! ## What the scheduler has to bring along -/

/-- A request that is enqueued and may go at once is found. -/
def Conn.RequestProvided (cfg : Config σ ι) (finds : σ → Nat → Prop) (visible : List UInt8)
    (c : Conn σ ι) : Prop :=
  findRequest c.w.mem c.peer (toInt32 (bmiTag visible)) = none → Whole visible →
    Enqueues cfg (pvfsOperation (wholeMessage visible))
      (cfg.dumpHeader2 (wholeMessage visible)
        (pvfsOperation (wholeMessage visible) == .smallIo)) →
    finds c.w.g.sched (c.pool c.index).appIndex

/-- Differences can be computed, if the next completion asks for them. -/
def Conn.DiffsKnown (cfg : Config σ ι) (c : Conn σ ι) : Prop :=
  PvfsProxy.DiffsKnown cfg (countPassed cfg c.peer.appIndex (countCompleted c.peer.appIndex c.w))

/-- The response has what it asks of the scheduler: the hook for the size of a
read, an item for a metadata operation, known differences where throughput is
counted; and memory that is not initialised does not look like a flow. -/
structure Conn.ResponseProvided (cfg : Config σ ι) (tag : Int) (operation : Option PvfsServerOp)
    (c : Conn σ ι) : Prop where
  size : ∀ rs ∈ c.known tag c.me, rs.jobSize ≤ 0 → rs.pvfsIoType = pvfsIoRead →
    .io ∈ operation → cfg.method.schCurrentSize.isSome = true
  item : ∀ rs ∈ c.known tag c.me, ¬ rs.Flows tag → ∀ op ∈ operation, isMeta op = true →
    cfg.method.schSelfDispatch = false → cfg.method.schAcceptMeta = true
  diffs : ∀ rs ∈ c.known tag c.me, ¬ rs.Flows tag →
    .writeCompletion ∈ operation ∨ .smallIo ∈ operation →
      cfg.method.schSelfDispatch = false → c.DiffsKnown cfg
  flow : ∀ rs ∈ c.known tag c.me, rs.op = .dataFlow ∨ rs.Flows tag → c.DiffsKnown cfg
  junk : ∀ rs ∈ c.known tag c.me, 0 < rs.jobSize → ¬ rs.Flows tag → operation = none →
    (cfg.junk c.w.next).op ≠ .dataFlow

section decidable

variable (cfg : Config σ ι) (finds : σ → Nat → Prop) [∀ s app, Decidable (finds s app)]

instance (visible : List UInt8) (c : Conn σ ι) :
    Decidable (c.RequestProvided cfg finds visible) :=
  inferInstanceAs (Decidable (_ → _ → _ → _))

instance (w : World σ ι) : Decidable (DiffsKnown cfg w) :=
  inferInstanceAs (Decidable (_ ∨ _ ∨ _ ∨ _ ∨ _))

instance (c : Conn σ ι) : Decidable (c.DiffsKnown cfg) :=
  inferInstanceAs (Decidable (PvfsProxy.DiffsKnown cfg _))

instance (tag : Int) (operation : Option PvfsServerOp) (c : Conn σ ι) :
    Decidable (c.ResponseProvided cfg tag operation) :=
  decidable_of_iff
    ((∀ rs ∈ c.known tag c.me, rs.jobSize ≤ 0 → rs.pvfsIoType = pvfsIoRead →
        .io ∈ operation → cfg.method.schCurrentSize.isSome = true)
      ∧ (∀ rs ∈ c.known tag c.me, ¬ rs.Flows tag → ∀ op ∈ operation, isMeta op = true →
        cfg.method.schSelfDispatch = false → cfg.method.schAcceptMeta = true)
      ∧ (∀ rs ∈ c.known tag c.me, ¬ rs.Flows tag →
        .writeCompletion ∈ operation ∨ .smallIo ∈ operation →
          cfg.method.schSelfDispatch = false → c.DiffsKnown cfg)
      ∧ (∀ rs ∈ c.known tag c.me, rs.op = .dataFlow ∨ rs.Flows tag → c.DiffsKnown cfg)
      ∧ ∀ rs ∈ c.known tag c.me, 0 < rs.jobSize → ¬ rs.Flows tag → operation = none →
        (cfg.junk c.w.next).op ≠ .dataFlow)
    ⟨fun h => ⟨h.1, h.2.1, h.2.2.1, h.2.2.2.1, h.2.2.2.2⟩,
      fun h => ⟨h.size, h.item, h.diffs, h.flow, h.junk⟩⟩

end decidable

/-! ## States that change little -/

theorem World.Tends.of_same {m : SchedulerMethod σ ι} {P : Set Addr} {w w' : World σ ι}
    (hmem : w'.mem = w.mem) (hnext : w'.next = w.next) : w.Tends m P w' where
  next := Nat.le_of_eq hnext.symm
  others p hp hP := by
    rw [hmem]
    exact (World.Tends.refl (m := m) w).others p hp hP
  items p hp rs' hrs' := ⟨rs', hmem ▸ hrs', id⟩

/-- Items matter only where something is written. -/
theorem World.Tends.of_others {m : SchedulerMethod σ ι} {P : Set Addr} {w w' : World σ ι}
    (hnext : w.next ≤ w'.next)
    (hothers : ∀ p < w.next, p ∉ P →
      Option.Rel (fun rs rs' => rs.Rescheduled rs' ∧ rs.Handed m rs') (w.mem p) (w'.mem p))
    (hitems : ∀ p ∈ P, p < w.next → ∀ rs', w'.mem p = some rs' →
      ∃ rs, w.mem p = some rs ∧ (rs.currentItem.isSome = true → rs'.currentItem.isSome = true)) :
    w.Tends m P w' where
  next := hnext
  others := hothers
  items p hp rs' hrs' := by
    by_cases hP : p ∈ P
    · exact hitems p hP hp rs' hrs'
    · have hrel := hothers p hp hP
      rw [hrs'] at hrel
      generalize w.mem p = o at hrel
      cases hrel with
      | some hr => exact ⟨_, rfl, hr.2.1⟩

theorem findLastRequest_congr {mem mem' : Mem ι} {s : SocketState} {tag : Int}
    (h : ∀ p ∈ s.requests, hasTag mem' tag p = hasTag mem tag p) :
    findLastRequest mem' s tag = findLastRequest mem s tag := by
  unfold findLastRequest
  rw [List.filter_congr h]

namespace Attended

variable {cfg : Config σ ι} {w w' : World σ ι} {client server : SocketState} {p : Addr}

/-- One state is written to, and keeps what counts here. -/
theorem alike (h : Attended cfg w client server) (ht : w.Tends cfg.method {p} w')
    (hclient : ∀ q ∈ client.requests, q < w.next) (hserver : ∀ q ∈ server.requests, q < w.next)
    (hsame : ∀ rs', w'.mem p = some rs' → ∃ rs, w.mem p = some rs ∧ rs.Handed cfg.method rs'
      ∧ rs'.op = rs.op ∧ rs'.pvfsIoType = rs.pvfsIoType ∧ rs'.bufferHead = rs.bufferHead
      ∧ rs'.bufferTail = rs.bufferTail ∧ rs'.currentTag = rs.currentTag
      ∧ rs'.originalRequest = rs.originalRequest)
    (hlive : (w.mem p).isSome = true → (w'.mem p).isSome = true) :
    Attended cfg w' client server := by
  refine h.touch ht hclient hserver ?_ ?_ ?_ ?_ ?_
  · rintro q rfl hq rs' hrs'
    obtain ⟨rs, hrs, hh, hop, hio, hhead, htail, -⟩ := hsame rs' hrs'
    exact (h.ready q hq rs hrs).handed hh hop hio hhead htail
  · rintro q rfl hcurrent - rs' hrs'
    obtain ⟨rs, hrs, hh, hop, hio, -, -, -, horiginal⟩ := hsame rs' hrs'
    obtain ⟨hreleased, hflow⟩ := (h.receiving q hcurrent).2 rs hrs
    refine ⟨fun henqueued => hh.released (hreleased ?_),
      hflow.tends ht (fun hop' => hop ▸ hop') horiginal⟩
    unfold RequestState.Enqueued at henqueued ⊢
    rwa [hop, hio] at henqueued
  · rintro q rfl hcurrent - rs' hrs'
    obtain ⟨rs, hrs, hh, hop, hio, hhead, htail, -⟩ := hsame rs' hrs'
    obtain ⟨hbytes, hitem⟩ := (h.sending q hcurrent).2 rs hrs
    refine ⟨by rwa [hhead, htail], fun henqueued => hh.1 (hitem ?_)⟩
    unfold RequestState.Enqueued at henqueued ⊢
    rwa [hop, hio] at henqueued
  · rintro q rfl hq rs' hrs'
    obtain ⟨rs, hrs, -, hop, -, -, -, htag, horiginal⟩ := hsame rs' hrs'
    exact ⟨rs, hrs, htag, horiginal,
      (h.flows q hq rs hrs).tends ht (fun hop' => hop ▸ hop') horiginal⟩
  · rintro q rfl -
    exact hlive

end Attended

/-- What an event on the connection may write to: its states and new ones. -/
def Conn.reach (c : Conn σ ι) : Set Addr :=
  {p | p ∈ c.me.requests ++ c.peer.requests ∨ c.w.next ≤ p}

theorem Conn.Grows.reach {c c' : Conn σ ι} (h : c.Grows c') : c'.reach ⊆ c.reach := by
  obtain ⟨l, l', hme, hpeer, -, hnew⟩ := h.lists
  rintro p (hp | hp)
  · rw [hme, hpeer] at hp
    simp only [List.mem_append] at hp hnew
    rcases hp with (hp | hp) | hp | hp
    · exact .inl (List.mem_append_left _ hp)
    · exact .inr (hnew p (.inl hp)).1
    · exact .inl (List.mem_append_right _ hp)
    · exact .inr (hnew p (.inr hp)).1
  · exact .inr (h.next.trans hp)

theorem World.Tends.within {m : SchedulerMethod σ ι} {P : Set Addr} {c : Conn σ ι}
    {w w' : World σ ι} (h : w.Tends m P w') (hP : P ⊆ c.reach) : w.Tends m c.reach w' :=
  h.mono fun _ hp _ => hP hp

/-! ## Peeking at the client -/

section requests

variable {cfg : Config σ ι} {finds : σ → Nat → Prop} {visible : List UInt8} {c c' : Conn σ ι}

/-- The state the message will be received into, and what has not changed. -/
structure Conn.OpensRequest (cfg : Config σ ι) (tag : Int) (p : Addr) (c c' : Conn σ ι) :
    Prop where
  attended : Attended cfg c'.w c'.me c'.peer
  tends : c.w.Tends cfg.method ∅ c'.w
  found : findLastRequest c'.w.mem c'.me (toInt32 tag) = some p
  untouched : ∀ rs, c'.w.mem p = some rs → rs.Untouched
  old : ∀ q < c.w.next, c'.w.mem q = c.w.mem q
  g : c'.w.g = c.w.g
  peer : c'.peer = c.peer
  index : c'.index = c.index
  pool : c'.pool = c.pool
  receives : c'.me.currentReceiveItem = c.me.currentReceiveItem

theorem Conn.Owned.lt_next (h : c.Owned) : (∀ q ∈ c.me.requests, q < c.w.next)
    ∧ ∀ q ∈ c.peer.requests, q < c.w.next :=
  ⟨fun q hq => h.fresh.lt_next (h.live q (List.mem_append_left _ hq)),
    fun q hq => h.fresh.lt_next (h.live q (List.mem_append_right _ hq))⟩

theorem openRequest_opens {p : Addr} {size : Int} (hatt : Attended cfg c.w c.me c.peer)
    (howned : c.Owned) (hformed : c.RequestFormed visible)
    (h : openRequest cfg (bmiTag visible) size c = .ok (c', p)) :
    c.OpensRequest cfg (bmiTag visible) p c' := by
  obtain ⟨hme, hpeer⟩ := howned.lt_next
  obtain ⟨hinc, hp, rfl⟩ | ⟨hinc, rfl, l, hl, rfl⟩ := openRequest_ok h
  · exact
      { attended := hatt
        tends := .refl _
        found := hp
        untouched := fun rs hrs => hformed.repeated hinc rs (by rw [hp]; exact hrs)
        old := fun _ _ => rfl
        g := rfl
        peer := rfl
        index := rfl
        pool := rfl
        receives := rfl }
  · have halloc := World.Tends.alloc (m := cfg.method) (P := ∅) c.w
      (openedRequest cfg (bmiTag visible) size c.w.next)
    have hframed := hatt.frame halloc (fun q hq => ⟨hme q hq, Set.notMem_empty q⟩)
      fun q hq => ⟨hpeer q hq, Set.notMem_empty q⟩
    have hself : ∀ rs, (c.opened l (openedRequest cfg (bmiTag visible) size c.w.next)).w.mem
        c.w.next = some rs → rs = openedRequest cfg (bmiTag visible) size c.w.next := by
      intro rs hrs
      simp only [Conn.opened, Mem.alloc_self, Option.some.injEq] at hrs
      exact hrs.symm
    exact
      { attended := hframed.appendClient hl fun rs hrs => by
          obtain rfl := hself rs hrs
          exact .untouched rfl rfl
        tends := halloc
        found := by
          have htag : (openedRequest cfg (bmiTag visible) size c.w.next).currentTag
              = toInt32 (bmiTag visible) := by
            simp only [openedRequest]
          refine findLastRequest_append (l := l) (by rfl) ?_
          exact hasTag_eq_true.mpr ⟨_, Mem.alloc_self _ _ _, htag⟩
        untouched := fun rs hrs => by
          obtain rfl := hself rs hrs
          exact ⟨rfl, rfl, rfl⟩
        old := fun q hq => Mem.alloc_of_ne _ (Nat.ne_of_lt hq) _
        g := rfl
        peer := rfl
        index := rfl
        pool := rfl
        receives := rfl }

/-- The request a flow belongs to has an item, as the server has seen it. -/
theorem Attended.carries {client server : SocketState} {w : World σ ι} {original : Addr}
    {ioType : Int} (h : Attended cfg w client server) (hon : w.On client.requests original)
    (hscheduler : cfg.schedulerOn = true) (hio : ioType = pvfsIoRead ∨ ioType = pvfsIoWrite)
    (hcarries : ∀ rs, w.mem original = some rs → rs.Carries ioType) : w.Itemed original := by
  refine ⟨hon.1, fun rs hrs => ?_⟩
  obtain ⟨hop, htype, hhead⟩ := hcarries rs hrs
  have hin := hon.2 (by rw [hrs]; rfl)
  refine (h.ready original hin rs hrs).seen hhead ⟨hscheduler, .inl ⟨hop, ?_⟩⟩
  rwa [htype]

/-- A flow of a write, to be received next. -/
theorem clientFlow_attended {c₁ : Conn σ ι} {p old : Addr} (hatt : Attended cfg c.w c.me c.peer)
    (hopen : c.OpensRequest cfg (bmiTag visible) p c₁) (howned : c.Owned) (howned₁ : c₁.Owned)
    (hformed : c.RequestFormed visible)
    (hold : findRequest c₁.w.mem c₁.peer (toInt32 (bmiTag visible)) = some old)
    (hidle : c.me.currentReceiveItem = none)
    (h : clientFlow c₁ p old (bmiTag visible) = .ok c') :
    Attended cfg c'.w (c'.me.receiving c'.w.mem (bmiTag visible)) c'.peer
      ∧ c₁.w.Tends cfg.method {p} c'.w := by
  obtain ⟨-, hpeer⟩ := howned.lt_next
  obtain ⟨hme₁, hpeer₁⟩ := howned₁.lt_next
  obtain ⟨oldRs, original, holdRs, -, horiginal, rfl⟩ := clientFlow_ok h
  obtain ⟨hin, hlive⟩ := findLastRequest_mem hopen.found
  have hoff : ∀ q ∈ c₁.peer.requests, q ≠ p := by
    rintro q hq rfl
    exact List.disjoint_of_nodup_append howned₁.nodup hin hq
  -- the state the server's side knows the tag by is an old one
  have hsame : ∀ q ∈ c.peer.requests, c₁.w.mem q = c.w.mem q := fun q hq =>
    hopen.old q (hpeer q hq)
  have hfound : findRequest c.w.mem c.peer (toInt32 (bmiTag visible)) = some old := by
    rw [← hold, hopen.peer]
    refine (findRequest_congr fun q hq => ?_).symm
    unfold hasTag
    rw [hsame q hq]
  have hitem : cfg.schedulerOn = true → c₁.w.Itemed original := by
    intro hon
    rw [hsame old (findRequest_mem hfound).1] at holdRs
    have horig := hatt.originals _ old oldRs hfound holdRs original horiginal
    have hcarries := hatt.carries horig hon (.inr rfl) fun rs hrs =>
      hformed.flow oldRs (by rw [hfound]; exact holdRs) rs (by rw [horiginal]; exact hrs)
    exact hcarries.tends hopen.tends
  let f : RequestState ι → RequestState ι := fun rs =>
    { rs with configTag := false, op := .dataFlow, originalRequest := some original }
  have ht : c₁.w.Tends cfg.method {p} { c₁.w with mem := c₁.w.mem.modify p f } :=
    .write c₁.w p fun _ => ⟨rfl, rfl⟩
  have hp : ∀ rs', c₁.w.mem.modify p f p = some rs' → ∃ rs, c₁.w.mem p = some rs ∧ f rs = rs' :=
    fun rs' hrs' => by rwa [Mem.modify_self, Option.map_eq_some_iff] at hrs'
  have htouched : Attended cfg { c₁.w with mem := c₁.w.mem.modify p f } c₁.me c₁.peer := by
    refine hopen.attended.touchClient ht hme₁ (fun q hq => ⟨hpeer₁ q hq, hoff q hq⟩) ?_ ?_ ?_
    · intro rs' hrs'
      obtain ⟨rs, hrs, rfl⟩ := hp rs' hrs'
      obtain ⟨hhead, htail, -⟩ := hopen.untouched rs hrs
      exact .untouched hhead htail
    · intro hcurrent
      rw [hopen.receives, hidle] at hcurrent
      cases hcurrent
    · intro hcurrent rs' hrs'
      obtain ⟨rs, hrs, rfl⟩ := hp rs' hrs'
      exact ⟨((hopen.attended.sending p hcurrent).2 rs hrs).1,
        fun henqueued => absurd henqueued not_enqueues_dataFlow⟩
  refine ⟨htouched.receive c₁.me.incompleteMode fun q hq => ?_, ht⟩
  have hlast : findLastRequest (c₁.w.mem.modify p f) c₁.me (toInt32 (bmiTag visible)) = some p := by
    rw [← hopen.found]
    exact findLastRequest_congr fun q _ => congrFun (hasTag_modify (by intro _; rfl) _) q
  rw [hopen.receives, hidle, Option.none_or, hlast] at hq
  obtain rfl := Option.some.inj hq
  refine ⟨⟨hme₁ p hin, fun _ => hin⟩, fun rs' hrs' => ?_⟩
  obtain ⟨rs, hrs, rfl⟩ := hp rs' hrs'
  refine ⟨fun henqueued => absurd henqueued not_enqueues_dataFlow, fun hon _ o ho => ?_⟩
  obtain rfl := Option.some.inj ho
  exact (hitem hon).tends ht

theorem callAdmit_handed (hh : cfg.method.Hands finds) {w w₁ : World σ ι} {si : SocketInfo}
    {pi : PvfsInfo} {event : DequeueEvent} {size : Int}
    (hfinds : finds w.g.sched (c.pool si.requestSocket).appIndex)
    (hevent : event = .newIo ∧ size = pi.currentDataSize
      ∨ event = .newMeta ∧ cfg.method.schAcceptMeta = true)
    (h : callAdmit cfg c si pi event size w = .ok w₁) :
    (∀ q rs, q ≠ si.rs → w.mem q = some rs →
        ∃ rs', w₁.mem q = some rs' ∧ rs.Handed cfg.method rs')
      ∧ ∀ rs', w₁.mem si.rs = some rs' → rs'.Released cfg.method := by
  obtain ⟨⟨g, mem, item⟩, hadmitted, hw₁⟩ := Machine.bind_eq_ok.mp h
  obtain rfl := Machine.pure_eq_ok.mp hw₁
  exact admitRequest_handed hh hfinds hevent hadmitted

theorem writeTypes_handed (m : SchedulerMethod σ ι) (mem : Mem ι) (p counter : Addr)
    (ioType : Int) :
    ∀ q rs, mem q = some rs → ∃ rs',
      ((mem.modify p fun rs => { rs with pvfsIoType := ioType }).modify counter
        fun rs => { rs with pvfsIoType := ioType }) q = some rs' ∧ rs.Handed m rs' := by
  have hp := Mem.Handed.write m mem p
    (f := fun rs => { rs with pvfsIoType := ioType }) fun _ => ⟨rfl, rfl⟩
  exact hp.trans (.write m _ counter
    (f := fun rs => { rs with pvfsIoType := ioType }) fun _ => ⟨rfl, rfl⟩)

/-- A request that is passed to `sch_enqueue` is released with an item, or locked. -/
theorem scheduleRequest_handed (hh : cfg.method.Hands finds) {p counter : Addr}
    {tag size : Int} {op : PvfsServerOp} {header2 : List UInt8} {w' : World σ ι}
    (hne : counter ≠ p)
    (hfinds : Enqueues cfg op (cfg.dumpHeader2 header2 (op == .smallIo)) →
      finds c.w.g.sched (c.pool c.index).appIndex)
    (h : scheduleRequest cfg c p counter tag size op header2 = .ok w') :
    (∀ q rs, q ≠ p → c.w.mem q = some rs → ∃ rs', w'.mem q = some rs' ∧ rs.Handed cfg.method rs')
      ∧ ∀ rs', w'.mem p = some rs' → Enqueues cfg op rs'.pvfsIoType → rs'.Released cfg.method := by
  have hadmit : ∀ {w w₁ : World σ ι} {si : SocketInfo} {pi : PvfsInfo} {event : DequeueEvent}
      {size : Int}, callAdmit cfg c si pi event size w = .ok w₁ → si.rs = p →
      si.requestSocket = c.index → w.g = c.w.g →
      Enqueues cfg op (cfg.dumpHeader2 header2 (op == .smallIo)) →
      (event = .newIo ∧ size = pi.currentDataSize
        ∨ event = .newMeta ∧ cfg.method.schAcceptMeta = true) →
      (∀ q rs, q ≠ p → w.mem q = some rs → ∃ rs', w₁.mem q = some rs' ∧ rs.Handed cfg.method rs')
        ∧ ∀ rs', w₁.mem p = some rs' → rs'.Released cfg.method := by
    rintro w w₁ si pi event size hcall rfl hsocket hg henqueues hevent
    refine callAdmit_handed hh ?_ hevent hcall
    rw [hg, hsocket]
    exact hfinds henqueues
  unfold scheduleRequest at h
  dsimp only at h
  split at h
  · rename_i hop
    generalize hio : cfg.dumpHeader2 header2 (op == .smallIo) = ioType at h
    have htypes := writeTypes_handed cfg.method c.w.mem p counter ioType
    split at h
    · rename_i hon
      have henqueues : Enqueues cfg op (cfg.dumpHeader2 header2 (op == .smallIo)) := by
        rw [Bool.and_eq_true, Bool.or_eq_true, beq_iff_eq, beq_iff_eq] at hon
        refine ⟨hon.1, ?_⟩
        rcases hop with hop | hop
        · rcases hon.2 with hwrite | hsmall
          · exact .inl ⟨hop, .inr (hio.trans hwrite)⟩
          · exact .inr (.inl hsmall)
        · exact .inr (.inl hop)
      obtain ⟨hothers, hown⟩ := hadmit h rfl rfl rfl henqueues (.inl ⟨rfl, rfl⟩)
      refine ⟨fun q rs hq hrs => ?_, fun rs' hrs' _ => hown rs' hrs'⟩
      obtain ⟨rs₁, hrs₁, hh₁⟩ := htypes q rs hrs
      obtain ⟨rs', hrs', hh'⟩ := hothers q rs₁ hq hrs₁
      exact ⟨rs', hrs', hh₁.trans hh'⟩
    · rename_i hnone
      split at h
      · rename_i hon
        split at h
        · cases h
        · rw [Bool.and_eq_true, beq_iff_eq] at hon
          have hop : op = .io := by
            rcases hop with hop | hop
            · exact hop
            · exact absurd (by simp [hon.1, hop]) hnone
          have henqueues : Enqueues cfg op (cfg.dumpHeader2 header2 (op == .smallIo)) :=
            ⟨hon.1, .inl ⟨hop, .inl (hio.trans hon.2)⟩⟩
          obtain ⟨hothers, hown⟩ := hadmit h rfl rfl rfl henqueues (.inl ⟨rfl, rfl⟩)
          refine ⟨fun q rs hq hrs => ?_, fun rs' hrs' _ => hown rs' hrs'⟩
          obtain ⟨rs₁, hrs₁, hh₁⟩ := htypes q rs hrs
          obtain ⟨rs', hrs', hh'⟩ := hothers q rs₁ hq ((Mem.modify_of_ne _ hq _).trans hrs₁)
          exact ⟨rs', hrs', hh₁.trans hh'⟩
      · rename_i hread
        obtain rfl := Except.ok.inj h
        refine ⟨fun q rs _ => htypes q rs, fun rs' hrs' henqueues => ?_⟩
        -- neither a read nor a write, nor small: the scheduler is not asked
        simp only [Mem.modify_of_ne _ hne.symm, Mem.modify_self, Option.map_eq_some_iff] at hrs'
        obtain ⟨rs, -, rfl⟩ := hrs'
        obtain ⟨hon, ⟨-, htype⟩ | hsmall | ⟨-, hmeta⟩⟩ := henqueues
        · rcases htype with htype | htype
          · exact absurd (by simpa [hon] using htype) hread
          · exact absurd (by simpa [hon] using .inl htype) hnone
        · exact absurd (by simp [hon, hsmall]) hnone
        · rcases hop with hop | hop
          · simp [hop, isMeta] at hmeta
          · simp [hop, isMeta] at hmeta
  · rename_i hop
    rw [not_or] at hop
    split at h
    · rename_i hon
      rw [Bool.and_eq_true, Bool.and_eq_true] at hon
      have henqueues : Enqueues cfg op (cfg.dumpHeader2 header2 (op == .smallIo)) :=
        ⟨hon.1.1, .inr (.inr ⟨hon.1.2, hon.2⟩)⟩
      obtain ⟨hothers, hown⟩ := hadmit h rfl rfl rfl henqueues (.inr ⟨rfl, hon.1.2⟩)
      exact ⟨hothers, fun rs' hrs' _ => hown rs' hrs'⟩
    · rename_i hmeta
      obtain rfl := Except.ok.inj h
      refine ⟨fun q rs _ hrs => ⟨rs, hrs, .refl _ rs⟩, fun rs' _ henqueues => ?_⟩
      obtain ⟨hon, ⟨hio, -⟩ | hsmall | ⟨haccept, hm⟩⟩ := henqueues
      · exact absurd hio hop.1
      · exact absurd hsmall hop.2
      · exact absurd (by simp [hon, haccept, hm]) hmeta

section asked

variable {c₁ : Conn σ ι} {p : Addr} {rs : RequestState ι} {l : List Addr} {tag : Int}
  {op : PvfsServerOp} {w : World σ ι}

/-- The request is as it was opened, but for its operation and what the scheduler keeps. -/
theorem asked_request (hne : p ≠ c₁.w.next) (hrs : c₁.w.mem p = some rs)
    (hadmits : (c₁.requested cfg p rs l tag op).w.Admits p c₁.w.next w) :
    ∃ rs₂, w.mem p = some rs₂ ∧ RequestState.Scheduled { rs with op := op } rs₂ := by
  have hrel := hadmits.request
  simp only [Conn.requested, Mem.alloc_of_ne _ hne, Mem.modify_self, hrs, Option.map_some]
    at hrel
  generalize w.mem p = o at hrel
  cases hrel with
  | some hsched => exact ⟨_, rfl, hsched⟩

theorem asked_counter (hadmits : (c₁.requested cfg p rs l tag op).w.Admits p c₁.w.next w)
    {rs' : RequestState ι} (hrs' : w.mem c₁.w.next = some rs') :
    rs'.op = op ∧ rs'.originalRequest = some p := by
  have hrel := hadmits.counter
  simp only [Conn.requested, Mem.alloc_self, hrs', Option.rel_some_some] at hrel
  rw [hrel.1]
  exact ⟨rfl, rfl⟩

theorem asked_tends (hrs : c₁.w.mem p = some rs) (hitem : rs.currentItem.isNone = true)
    (hadmits : (c₁.requested cfg p rs l tag op).w.Admits p c₁.w.next w)
    (hothers : ∀ q rs', q ≠ p → (c₁.requested cfg p rs l tag op).w.mem q = some rs' →
      ∃ rs'', w.mem q = some rs'' ∧ rs'.Handed cfg.method rs'') :
    c₁.w.Tends cfg.method {p}
      { w with mem := w.mem.modify p fun rs => { rs with configTag := false } } := by
  have hnext : w.next = c₁.w.next + 1 := hadmits.next
  refine .of_others (hnext ▸ Nat.le_succ _) (fun q hq hqp => ?_) ?_
  · have hqp : q ≠ p := hqp
    have hqn : q ≠ c₁.w.next := Nat.ne_of_lt hq
    have hrel := hadmits.others q (by simp [hqp, hqn])
    have hsame : (c₁.requested cfg p rs l tag op).w.mem q = c₁.w.mem q := by
      simp only [Conn.requested, Mem.alloc_of_ne _ hqn, Mem.modify_of_ne _ hqp]
    have hhanded := hothers q
    rw [hsame] at hrel hhanded
    show Option.Rel _ (c₁.w.mem q) (w.mem.modify p _ q)
    rw [Mem.modify_of_ne _ hqp]
    generalize c₁.w.mem q = a, w.mem q = b at hrel hhanded
    cases hrel with
    | none => exact .none
    | some hr =>
        obtain ⟨rs', hrs', hh'⟩ := hhanded _ hqp rfl
        obtain rfl := Option.some.inj hrs'
        exact .some ⟨hr, hh'⟩
  · rintro q rfl - rs' -
    refine ⟨rs, hrs, fun hsome => ?_⟩
    rw [Option.isNone_iff_eq_none] at hitem
    rw [hitem] at hsome
    cases hsome

end asked

theorem newRequest_attended (hh : cfg.method.Hands finds) {c₁ : Conn σ ι} {p : Addr}
    {tag size : Int} {header2 : List UInt8} (hopen : c.OpensRequest cfg tag p c₁)
    (howned₁ : c₁.Owned) (hidle : c.me.currentReceiveItem = none)
    (hop : pvfsOperation header2 ≠ .dataFlow)
    (hfinds : Enqueues cfg (pvfsOperation header2)
        (cfg.dumpHeader2 header2 (pvfsOperation header2 == .smallIo)) →
      finds c.w.g.sched (c.pool c.index).appIndex)
    (h : newRequest cfg c₁ p tag size header2 = .ok c') :
    Attended cfg c'.w (c'.me.receiving c'.w.mem tag) c'.peer ∧ c₁.w.Tends cfg.method {p} c'.w := by
  obtain ⟨hme₁, hpeer₁⟩ := howned₁.lt_next
  have hin := (findLastRequest_mem hopen.found).1
  have hne : p ≠ c₁.w.next := Nat.ne_of_lt (hme₁ p hin)
  obtain ⟨rs, l, w, hrs, hl, hsched, rfl⟩ := newRequest_ok h hne
  have hadmits := scheduleRequest_ok hne.symm hsched
  obtain ⟨hothers, hown⟩ := scheduleRequest_handed hh hne.symm
    (by rw [← hopen.g, ← hopen.pool, ← hopen.index] at hfinds; exact hfinds) hsched
  obtain ⟨hhead, htail, hitem⟩ := hopen.untouched rs hrs
  have ht := asked_tends hrs hitem hadmits hothers
  obtain ⟨rs₂, hrs₂, hscheduled⟩ := asked_request hne hrs hadmits
  generalize pvfsOperation header2 = op at *
  let w' : World σ ι := { w with mem := w.mem.modify p fun rs => { rs with configTag := false } }
  have hself : w'.mem p = some { rs₂ with configTag := false } := by
    show w.mem.modify p _ p = _
    rw [Mem.modify_self, hrs₂]
    rfl
  have hcounter : ∀ rs', w'.mem c₁.w.next = some rs' →
      rs'.op = op ∧ rs'.originalRequest = some p := fun rs' hrs' =>
    asked_counter hadmits ((Mem.modify_of_ne _ hne.symm _).symm.trans hrs')
  have hkept : rs₂.op = op ∧ rs₂.bufferHead = 0 ∧ rs₂.bufferTail = 0
      ∧ rs₂.currentTag = rs.currentTag := by
    rw [hscheduled]
    exact ⟨rfl, hhead, htail, rfl⟩
  have htouched : Attended cfg w' c₁.me c₁.peer := by
    have hoff : ∀ q ∈ c₁.peer.requests, q ≠ p := by
      rintro q hq rfl
      exact List.disjoint_of_nodup_append howned₁.nodup hin hq
    refine hopen.attended.touchClient ht hme₁ (fun q hq => ⟨hpeer₁ q hq, hoff q hq⟩) ?_ ?_ ?_
    · intro rs' hrs'
      obtain rfl := Option.some.inj (hself.symm.trans hrs')
      exact .untouched hkept.2.1 hkept.2.2.1
    · intro hcurrent
      rw [hopen.receives, hidle] at hcurrent
      cases hcurrent
    · intro hcurrent
      obtain ⟨hbytes, -⟩ := (hopen.attended.sending p hcurrent).2 rs hrs
      omega
  have happended := htouched.appendServer (p := c₁.w.next) hl
    (fun rs' hrs' _ hflow => absurd ((hcounter rs' hrs').1.symm.trans hflow) hop)
    fun rs' hrs' _ o ho => by
      obtain rfl := Option.some.inj ((hcounter rs' hrs').2.symm.trans ho)
      exact ⟨Nat.lt_of_lt_of_le (hme₁ p hin) ht.next, fun _ => hin⟩
  refine ⟨happended.receive false fun q hq => ?_, ht⟩
  -- no tag of the client has changed, so that `p` is still the last with its own
  have htags : ∀ q ∈ c₁.me.requests,
      hasTag w'.mem (toInt32 tag) q = hasTag c₁.w.mem (toInt32 tag) q := by
    intro q hq
    by_cases hqp : q = p
    · subst hqp
      simp [hasTag, hrs, hself, hkept.2.2.2]
    · exact ht.hasTag (hme₁ q hq) hqp _
  have hq : c₁.me.currentReceiveItem.or (findLastRequest w'.mem c₁.me (toInt32 tag)) = some q := hq
  rw [hopen.receives, hidle, Option.none_or, findLastRequest_congr htags, hopen.found] at hq
  obtain rfl := Option.some.inj hq
  refine ⟨⟨Nat.lt_of_lt_of_le (hme₁ p hin) ht.next, fun _ => hin⟩, fun rs' hrs' => ?_⟩
  obtain rfl := Option.some.inj (hself.symm.trans hrs')
  refine ⟨fun henqueued => hown rs₂ hrs₂ ?_,
    fun _ hflow => absurd (hkept.1.symm.trans hflow) hop⟩
  rw [← hkept.1]
  exact henqueued

theorem CheckedRequest.attended (hh : cfg.method.Hands finds) {ret : Int}
    (hatt : Attended cfg c.w c.me c.peer) (howned : c.Owned)
    (hidle : c.me.currentReceiveItem = none) (hformed : c.RequestFormed visible)
    (hprovided : c.RequestProvided cfg finds visible) (h : CheckedRequest cfg visible c c' ret) :
    Attended cfg c'.w c'.me c'.peer ∧ c.w.Tends cfg.method c.reach c'.w := by
  -- what the server's side knows the tag by has not changed
  have hnone : ∀ {c₁ : Conn σ ι} {p : Addr}, c.OpensRequest cfg (bmiTag visible) p c₁ →
      findRequest c₁.w.mem c₁.peer (toInt32 (bmiTag visible)) = none →
      findRequest c.w.mem c.peer (toInt32 (bmiTag visible)) = none := by
    intro c₁ p hopen hold
    rw [← hold, hopen.peer]
    refine (findRequest_congr fun q hq => ?_).symm
    unfold hasTag
    rw [hopen.old q (howned.lt_next.2 q hq)]
  have hreach : ∀ {c₁ : Conn σ ι} {p : Addr}, c.Grows c₁ →
      c.OpensRequest cfg (bmiTag visible) p c₁ → ({p} : Set Addr) ⊆ c.reach := by
    rintro c₁ p hgrows hopen _ rfl
    exact hgrows.reach (.inl (List.mem_append_left _ (findLastRequest_mem hopen.found).1))
  cases h with
  | header h => exact ⟨hatt, .refl _⟩
  | @flow c₁ c₂ p old h hopen hold hflow htag =>
      have hgrows := Conn.Grows.openRequest howned.fresh hopen
      have hopen := openRequest_opens hatt howned hformed hopen
      obtain ⟨hattended, ht⟩ := clientFlow_attended hatt hopen howned
        (hgrows.effect howned).owned hformed hold hidle hflow
      exact ⟨hattended, (hopen.tends.within (Set.empty_subset _)).trans
        (ht.within (hreach hgrows hopen))⟩
  | @short c₁ p h hopen hold hlen =>
      have hopen := openRequest_opens hatt howned hformed hopen
      refine ⟨hopen.attended.receive true fun q hq => ?_,
        hopen.tends.within (Set.empty_subset _)⟩
      rw [hopen.receives, hidle] at hq
      cases hq
  | @new c₁ c₂ p h hopen hold hlen hnew htag =>
      have hgrows := Conn.Grows.openRequest howned.fresh hopen
      have hopen := openRequest_opens hatt howned hformed hopen
      have hwhole : Whole visible := Int.not_lt.mp hlen
      obtain ⟨hattended, ht⟩ := newRequest_attended hh hopen (hgrows.effect howned).owned hidle
        (hformed.request (hnone hopen hold) hwhole)
        (hprovided (hnone hopen hold) hwhole) hnew
      exact ⟨hattended, (hopen.tends.within (Set.empty_subset _)).trans
        (ht.within (hreach hgrows hopen))⟩

end requests

/-! ## Peeking at the server -/

section responses

variable {cfg : Config σ ι} {finds : σ → Nat → Prop} {visible : List UInt8} {c c' : Conn σ ι}

@[simp] theorem flowState_currentTag (tag size : Int) (original : Addr)
    (originalRs : RequestState ι) (p : Addr) :
    (flowState cfg tag size original originalRs p).currentTag = tag := rfl

@[simp] theorem completionState_currentTag (tag size : Int) (p : Addr) :
    (completionState cfg tag size p).currentTag = tag := rfl

/-- A state of a tag the server's side knows is added to its list. -/
theorem Attended.added (hatt : Attended cfg c.w c.peer c.me) (howned : c.Owned) {w' : World σ ι}
    (ht : c.w.Tends cfg.method {c.w.next} w') {l : List Addr} {tag : Int} {p : Addr}
    (hl : c.me.reqStateData = some l) (hp : findRequest c.w.mem c.me tag = some p)
    (hnew : ∀ rs, w'.mem c.w.next = some rs → rs.currentTag = tag ∧ rs.FlowsFor cfg w') :
    Attended cfg w' c.peer { c.me with reqStateData := some (l ++ [c.w.next]) } := by
  obtain ⟨hme, hpeer⟩ := howned.lt_next
  have hframed := hatt.frame ht (fun q hq => ⟨hpeer q hq, Nat.ne_of_lt (hpeer q hq)⟩)
    fun q hq => ⟨hme q hq, Nat.ne_of_lt (hme q hq)⟩
  refine hframed.appendServer hl (fun rs hrs => (hnew rs hrs).2) fun rs hrs hnone => ?_
  rw [(hnew rs hrs).1, findRequest_congr fun q hq =>
    ht.hasTag (hme q hq) (Nat.ne_of_lt (hme q hq)) tag, hp] at hnone
  cases hnone

/-- The first response is received into the counter state. -/
theorem Attended.countered (hatt : Attended cfg c.w c.peer c.me) (size : Int) (howned : c.Owned)
    {p : Addr} {tag : Int} (hp : findRequest c.w.mem c.me tag = some p) :
    Attended cfg { c.w with mem := c.w.mem.modify p (responseFields tag size) } c.peer c.me
      ∧ c.w.Tends cfg.method {p} { c.w with mem := c.w.mem.modify p (responseFields tag size) }
      ∧ ∀ q, hasTag (c.w.mem.modify p (responseFields tag size)) tag q = hasTag c.w.mem tag q := by
  obtain ⟨hme, hpeer⟩ := howned.lt_next
  obtain ⟨hin, hcurrent⟩ := findRequest_mem hp
  obtain ⟨rs, hrs, htag⟩ := hasTag_eq_true.mp hcurrent
  have hself :
      c.w.mem.modify p (responseFields tag size) p = some (responseFields tag size rs) := by
    rw [Mem.modify_self, hrs]
    rfl
  have ht : c.w.Tends cfg.method {p}
      { c.w with mem := c.w.mem.modify p (responseFields tag size) } :=
    .write c.w p fun _ => ⟨rfl, rfl⟩
  refine ⟨hatt.touchServer ht ?_ hme ?_ ?_, ht, fun q => ?_⟩
  · intro q hq
    refine ⟨hpeer q hq, ?_⟩
    rintro rfl
    exact List.disjoint_of_nodup_append howned.nodup hin hq
  · intro rs' hrs'
    obtain rfl := Option.some.inj (hself.symm.trans hrs')
    exact ⟨rs, hrs, htag.symm, rfl, (hatt.flows p hin rs hrs).tends ht id rfl⟩
  · intro _
    exact Option.isSome_iff_exists.mpr ⟨_, hself⟩
  · by_cases hq : q = p
    · subst hq
      simp [hasTag, hself, hrs, htag, responseFields]
    · simp [hasTag, Mem.modify_of_ne _ hq]

theorem responseOp_ne_dataFlow {operation : PvfsServerOp} (h : operation ≠ .dataFlow) :
    responseOp cfg operation ≠ .dataFlow := by
  unfold responseOp
  split
  · intro hno
    cases hno
  · exact h

theorem Attended.serverMode {w : World σ ι} {client server : SocketState}
    (h : Attended cfg w client server) (b : Bool) :
    Attended cfg w client { server with incompleteMode := b } :=
  { h with }

/-- A wholly visible response writes its marks, and the rest is the scheduler's. -/
theorem newResponse_tends (hh : cfg.method.Hands finds) {p : Addr} {tag : Int}
    {header2 : List UInt8} (h : newResponse cfg p tag header2 c = .ok c') :
    ∃ w', c' = { c with me := { c.me with incompleteMode := false }, w := w' }
      ∧ c.w.Tends cfg.method {p} w' ∧ ((c.w.mem p).isSome = true → (w'.mem p).isSome = true)
      ∧ ∀ rs', w'.mem p = some rs' → ∃ rs, c.w.mem p = some rs ∧ rs'.currentTag = rs.currentTag
        ∧ rs'.originalRequest = rs.originalRequest
        ∧ rs'.op = responseOp cfg (pvfsOperation header2) := by
  have hhanded := newResponse_handed hh h
  obtain ⟨w', eof, rfl, -, hmarks⟩ := newResponse_ok h
  refine ⟨w', rfl, hmarks.tends hhanded, hmarks.keeps p, fun rs' hrs' => ?_⟩
  have hrel := hmarks.response
  rw [hrs'] at hrel
  generalize c.w.mem p = o at hrel
  cases hrel with
  | some hr =>
      rw [hr.2]
      exact ⟨_, rfl, rfl, rfl, rfl⟩

/-- What a peek at the server leaves: the connection is attended, and differences
are known if it is a flow that is received next. -/
structure Conn.ServerPeeks (cfg : Config σ ι) (c c' : Conn σ ι) : Prop where
  attended : Attended cfg c'.w c'.peer c'.me
  tends : c.w.Tends cfg.method c.reach c'.w
  diffs : cfg.schedulerOn = true → ∀ p rs, c'.me.currentReceiveItem = some p →
    c'.w.mem p = some rs → rs.op = .dataFlow → c'.DiffsKnown cfg

theorem Conn.ServerPeeks.receiving {d : Conn σ ι} {tag : Int} (hf : d.w.Fresh)
    (hatt : Attended cfg d.w d.peer d.me) (ht : c.w.Tends cfg.method c.reach d.w)
    (hidle : d.me.currentReceiveItem = none)
    (hdiffs : cfg.schedulerOn = true → ∀ p rs,
      findLastRequest d.w.mem d.me (toInt32 tag) = some p → d.w.mem p = some rs →
      rs.op = .dataFlow → d.DiffsKnown cfg) :
    c.ServerPeeks cfg { d with me := d.me.receiving d.w.mem tag } where
  attended := by
    refine hatt.serverReceive d.me.incompleteMode fun p hp => ?_
    rw [hidle, Option.none_or] at hp
    obtain ⟨hin, htag⟩ := findLastRequest_mem hp
    obtain ⟨rs, hrs, -⟩ := hasTag_eq_true.mp htag
    exact ⟨hf.lt_next (by rw [hrs]; rfl), fun _ => hin⟩
  tends := ht
  diffs hon p rs hp hrs hop := by
    have hp : d.me.currentReceiveItem.or (findLastRequest d.w.mem d.me (toInt32 tag))
        = some p := hp
    rw [hidle, Option.none_or] at hp
    exact hdiffs hon p rs hp hrs hop

theorem Conn.known_of {tag : Int} {s : SocketState} {p : Addr} {rs : RequestState ι}
    (hp : findRequest c.w.mem s tag = some p) (hrs : c.w.mem p = some rs) :
    rs ∈ c.known tag s := by
  unfold Conn.known
  rw [hp]
  exact hrs

section peeks

variable {tag size ret : Int} {operation : Option PvfsServerOp} {c₁ : Conn σ ι}
  (htag : toInt32 tag = tag) (hatt : Attended cfg c.w c.peer c.me) (howned : c.Owned)
  (hidle : c.me.currentReceiveItem = none)

include htag hatt howned hidle

omit htag in
theorem OpenedResponse.peeks (hformed : c.ResponseFormed tag operation)
    (hprovided : cfg.schedulerOn = true → c.ResponseProvided cfg tag operation)
    (h : OpenedResponse cfg tag size c c₁ none ret) :
    c.ServerPeeks cfg { c₁ with me := c₁.me.receiving c₁.w.mem tag } := by
  have hgrows := Conn.Grows.openedResponse howned.fresh h
  cases h with
  | seen hp hrs hjob hread hinc hq =>
      exact .receiving howned.fresh hatt (.refl _) hidle fun hon _ _ _ _ _ =>
        (hprovided hon).flow _ (Conn.known_of hp hrs) (.inr ⟨hjob, hread⟩)
  | @flow p original rs originalRs l hp hrs hjob hread hinc hl horiginal horiginalRs =>
      have hknown := Conn.known_of hp hrs
      have ht := World.Tends.alloc (m := cfg.method) (P := {c.w.next}) c.w
        (flowState cfg tag size original originalRs c.w.next)
      refine .receiving hgrows.fresh (hatt.added howned ht hl hp fun rs' hrs' => ?_)
        (ht.within ?_) hidle fun hon _ _ _ _ _ => ?_
      · obtain rfl := Option.some.inj ((Mem.alloc_self ..).symm.trans hrs')
        refine ⟨rfl, fun hon _ o ho => ?_⟩
        obtain rfl := Option.some.inj ho
        have horig := hatt.originals _ p rs hp hrs original horiginal
        have hcarries := hatt.carries horig hon (.inl rfl) fun ors hors =>
          hformed.flow rs hknown ⟨hjob, hread⟩ ors (by rw [horiginal]; exact hors)
        exact hcarries.tends ht
      · rintro _ rfl
        exact .inr (Nat.le_refl _)
      · exact DiffsKnown.of_same ((hprovided hon).flow _ hknown (.inr ⟨hjob, hread⟩)) rfl rfl

/-- A response that is not wholly there keeps the operation its state had. -/
theorem OpenedResponse.short_peeks {p : Addr} (hformed : c.ResponseFormed tag none)
    (hprovided : cfg.schedulerOn = true → c.ResponseProvided cfg tag none)
    (h : OpenedResponse cfg tag size c c₁ (some p) ret) :
    c.ServerPeeks cfg { c₁ with
      me := SocketState.receiving { c₁.me with incompleteMode := true } c₁.w.mem tag } := by
  have hgrows := Conn.Grows.openedResponse howned.fresh h
  let d : Conn σ ι := { c₁ with me := { c₁.me with incompleteMode := true } }
  cases h with
  | @counter _ rs hp hrs hjob =>
      have hknown := Conn.known_of hp hrs
      obtain ⟨hcountered, ht, htags⟩ := hatt.countered size howned hp
      refine .receiving (d := d) hgrows.fresh (hcountered.serverMode true) (ht.within ?_) hidle ?_
      · rintro _ rfl
        exact .inl (List.mem_append_left _ (findRequest_mem hp).1)
      · intro hon q rs' hq hrs' hop
        rw [htag] at hq
        have hlast : findLastRequest c.w.mem c.me tag = some q := by
          rw [← hq]
          exact (findLastRequest_congr fun q _ => htags q).symm
        rw [hformed.first rs hknown hjob, hp] at hlast
        obtain rfl := Option.some.inj hlast
        obtain rfl : responseFields tag size rs = rs' := by
          simpa [d, Mem.modify_self, hrs] using hrs'
        exact DiffsKnown.of_same ((hprovided hon).flow _ hknown (.inl hop)) rfl rfl
  | @completion p q rs requestRs l hp hrs hjob hread hq hrequest hio hl =>
      have ht := World.Tends.alloc (m := cfg.method) (P := {c.w.next}) c.w
        (completionState cfg tag size c.w.next)
      have hnew : ∀ rs', (c.w.mem.alloc c.w.next (completionState cfg tag size c.w.next)) c.w.next
          = some rs' → rs'.currentTag = tag ∧ (cfg.schedulerOn = true → rs'.op ≠ .dataFlow) := by
        intro rs' hrs'
        obtain rfl := Option.some.inj ((Mem.alloc_self ..).symm.trans hrs')
        exact ⟨rfl, fun hon => (hprovided hon).junk rs (Conn.known_of hp hrs) hjob
          (fun hflows => hread hflows.2) rfl⟩
      have hadded := hatt.added howned ht hl hp fun rs' hrs' =>
        ⟨(hnew rs' hrs').1, fun hon hop => absurd hop ((hnew rs' hrs').2 hon)⟩
      refine .receiving (d := d) hgrows.fresh (hadded.serverMode true) (ht.within ?_) hidle ?_
      · rintro _ rfl
        exact .inr (Nat.le_refl _)
      · intro hon q rs' hq hrs' hop
        have hself : d.w.mem c.w.next = some (completionState cfg tag size c.w.next) :=
          Mem.alloc_self ..
        have hlast : hasTag d.w.mem tag c.w.next = true := hasTag_eq_true.mpr ⟨_, hself, rfl⟩
        rw [htag, findLastRequest_append (s := d.me) (l := l) (by rfl) hlast] at hq
        obtain rfl := Option.some.inj hq
        exact absurd hop ((hnew rs' hrs').2 hon)

/-- A wholly visible response gets its operation, which is no flow. -/
theorem OpenedResponse.new_peeks (hh : cfg.method.Hands finds) {p : Addr} {c₂ : Conn σ ι}
    {header2 : List UInt8} (hformed : c.ResponseFormed tag (some (pvfsOperation header2)))
    (h : OpenedResponse cfg tag size c c₁ (some p) ret)
    (hnew : newResponse cfg p tag header2 c₁ = .ok c₂) :
    c.ServerPeeks cfg { c₂ with me := c₂.me.receiving c₂.w.mem tag } := by
  have hgrows := Conn.Grows.openedResponse howned.fresh h
  obtain ⟨hme, hpeer⟩ := howned.lt_next
  obtain ⟨w', rfl, ht', hlive, hp'⟩ := newResponse_tends hh hnew
  have hfresh : w'.Fresh := (hgrows.trans (.newResponse hgrows.fresh hnew)).fresh
  have hop' : ∀ rs ∈ c.known tag c.me, ¬ rs.Flows tag →
      ∀ rs', w'.mem p = some rs' → rs'.op ≠ .dataFlow := by
    intro rs hknown hnot rs' hrs'
    obtain ⟨-, -, -, -, hop⟩ := hp' rs' hrs'
    rw [hop]
    exact responseOp_ne_dataFlow (hformed.response rs hknown hnot _ rfl).1
  let d : Conn σ ι := { c₁ with me := { c₁.me with incompleteMode := false }, w := w' }
  cases h with
  | @counter _ rs hp hrs hjob =>
      have hknown := Conn.known_of hp hrs
      have hin := (findRequest_mem hp).1
      obtain ⟨hcountered, ht, htags⟩ := hatt.countered size howned hp
      have hop' := hop' rs hknown fun hflows => absurd hflows.1 (by omega)
      have hattended : Attended cfg w' c.peer c.me := by
        refine hcountered.touchServer ht' ?_ hme ?_ hlive
        · intro q hq
          refine ⟨hpeer q hq, ?_⟩
          rintro rfl
          exact List.disjoint_of_nodup_append howned.nodup hin hq
        · intro rs' hrs'
          obtain ⟨rs₁, hrs₁, htag', horiginal, -⟩ := hp' rs' hrs'
          exact ⟨rs₁, hrs₁, htag', horiginal, fun _ hop => absurd hop (hop' rs' hrs')⟩
      refine .receiving (d := d) hfresh (hattended.serverMode false)
        ((ht.within ?_).trans (ht'.within ?_)) hidle ?_
      · rintro _ rfl
        exact .inl (List.mem_append_left _ hin)
      · rintro _ rfl
        exact .inl (List.mem_append_left _ hin)
      · intro hon q rs' hq hrs' hop
        rw [htag] at hq
        have hlast : findLastRequest c.w.mem c.me tag = some q := by
          rw [← hq]
          refine (findLastRequest_congr fun r hr => ?_).symm
          rw [← htags r]
          by_cases hrp : r = p
          · subst hrp
            obtain ⟨rs₂, hrs₂⟩ := Option.isSome_iff_exists.mp
              (hlive (by dsimp only; rw [Mem.modify_self, hrs]; rfl))
            obtain ⟨rs₁, hrs₁, htag', -⟩ := hp' rs₂ hrs₂
            dsimp only at hrs₁
            simp [hasTag, d, hrs₁, hrs₂, htag']
          · exact ht'.hasTag (hme r hr) hrp tag
        rw [hformed.first rs hknown hjob, hp] at hlast
        obtain rfl := Option.some.inj hlast
        exact absurd hop (hop' rs' hrs')
  | @completion p q rs requestRs l hp hrs hjob hread hq hrequest hio hl =>
      have hop' := hop' rs (Conn.known_of hp hrs) fun hflows => hread hflows.2
      have ht := (World.Tends.alloc (m := cfg.method) (P := {c.w.next}) c.w
        (completionState cfg tag size c.w.next)).trans ht'
      have htag' : ∀ rs', w'.mem c.w.next = some rs' → rs'.currentTag = tag := by
        intro rs' hrs'
        obtain ⟨rs₁, hrs₁, htag', -⟩ := hp' rs' hrs'
        obtain rfl := Option.some.inj ((Mem.alloc_self ..).symm.trans hrs₁)
        exact htag'
      have hadded := hatt.added howned ht hl hp fun rs' hrs' =>
        ⟨htag' rs' hrs', fun _ hop => absurd hop (hop' rs' hrs')⟩
      refine .receiving (d := d) hfresh (hadded.serverMode false) (ht.within ?_) hidle ?_
      · rintro _ rfl
        exact .inr (Nat.le_refl _)
      · intro hon q rs' hq hrs' hop
        obtain ⟨rs₂, hrs₂⟩ := Option.isSome_iff_exists.mp
          (hlive (by dsimp only [Conn.opened]; rw [Mem.alloc_self]; rfl))
        rw [htag, findLastRequest_append (s := d.me) (l := l) (by rfl)
          (hasTag_eq_true.mpr ⟨rs₂, hrs₂, htag' rs₂ hrs₂⟩)] at hq
        obtain rfl := Option.some.inj hq
        exact absurd hop (hop' rs' hrs')

end peeks

theorem toInt32_toInt32 (z : Int) : toInt32 (toInt32 z) = toInt32 z := Int.bmod_bmod

theorem CheckedResponse.peeks (hh : cfg.method.Hands finds) {ret : Int}
    (hatt : Attended cfg c.w c.peer c.me) (howned : c.Owned)
    (hidle : c.me.currentReceiveItem = none)
    (hformed : c.ResponseFormed (toInt32 (bmiTag visible)) (peekedOperation visible))
    (hprovided : cfg.schedulerOn = true →
      c.ResponseProvided cfg (toInt32 (bmiTag visible)) (peekedOperation visible))
    (h : CheckedResponse cfg visible c c' ret) : c.ServerPeeks cfg c' := by
  have hcode := toInt32_toInt32 (bmiTag visible)
  cases h with
  | flow h hopen htag => exact hopen.peeks hatt howned hidle hformed hprovided
  | short h hopen hlen htag =>
      have hnot : ¬ Whole visible := Int.not_le.mpr hlen
      rw [peekedOperation, if_neg hnot] at hformed hprovided
      exact hopen.short_peeks hcode hatt howned hidle hformed hprovided
  | new h hopen hlen hnew htag =>
      have hwhole : Whole visible := Int.not_lt.mp hlen
      rw [peekedOperation, if_pos hwhole] at hformed
      exact hopen.new_peeks hcode hatt howned hidle hh hformed hnew

/-- What the server has seen of a request that is enqueued, it has seen with an item. -/
theorem Attended.answered {tag : Int} {op : PvfsServerOp} (hatt : Attended cfg c.w c.peer c.me)
    (hon : cfg.schedulerOn = true)
    (hop : op = .io ∨ op = .smallIo ∨ op = .writeCompletion
      ∨ isMeta op = true ∧ cfg.method.schAcceptMeta = true)
    (hrequest : ∀ request ∈ c.known tag c.peer, request.AnsweredBy op) {p : Addr}
    (hp : findRequest c.w.mem c.peer tag = some p) : c.w.mem.HasItem p := by
  intro rs hrs
  obtain ⟨hhead, hanswers⟩ := hrequest rs (Conn.known_of hp hrs)
  refine (hatt.ready p (findRequest_mem hp).1 rs hrs).seen hhead ⟨hon, ?_⟩
  rcases hop with rfl | rfl | rfl | ⟨hmeta, haccept⟩
  · exact .inl hanswers
  · exact .inr (.inl hanswers)
  · exact .inl ⟨hanswers.1, .inr hanswers.2⟩
  · refine .inr (.inr ⟨haccept, ?_⟩)
    cases op <;> first | exact hanswers ▸ hmeta | cases hmeta

theorem OpenedResponse.answerable {tag size ret : Int} {p : Addr} {op : PvfsServerOp}
    {c₁ : Conn σ ι} {rs : RequestState ι} (hatt : Attended cfg c.w c.peer c.me)
    (howned : c.Owned) (hformed : c.ResponseFormed tag (some op))
    (hprovided : cfg.schedulerOn = true → c.ResponseProvided cfg tag (some op))
    (h : OpenedResponse cfg tag size c c₁ (some p) ret) (hrs : c₁.w.mem p = some rs) :
    c₁.Answerable cfg tag op rs.pvfsIoType := by
  obtain ⟨hme, hpeer⟩ := howned.lt_next
  -- the request is not written to
  have hitems : ∀ (rs₀ : RequestState ι), rs₀ ∈ c.known tag c.me → ¬ rs₀.Flows tag →
      c₁.peer = c.peer → (∀ q ∈ c.peer.requests, c₁.w.mem q = c.w.mem q) →
      cfg.schedulerOn = true →
      (op = .io ∧ rs.pvfsIoType = pvfsIoRead ∨ op = .smallIo
        ∨ (op = .writeCompletion ∨ isMeta op = true) ∧ cfg.method.schSelfDispatch = false) →
      ∀ request, findRequest c₁.w.mem c₁.peer tag = some request → c₁.w.mem.HasItem request := by
    intro rs₀ hknown hnot hsame hmem hon hcase request hrequest
    have htags : ∀ q ∈ c.peer.requests, hasTag c₁.w.mem tag q = hasTag c.w.mem tag q := by
      intro q hq
      unfold hasTag
      rw [hmem q hq]
    rw [hsame, findRequest_congr htags] at hrequest
    intro rq hrq
    rw [hmem request (findRequest_mem hrequest).1] at hrq
    refine hatt.answered hon ?_ (hformed.response rs₀ hknown hnot op rfl).2 hrequest rq hrq
    rcases hcase with ⟨hio, -⟩ | hsmall | ⟨hwrite | hmeta, hself⟩
    · exact .inl hio
    · exact .inr (.inl hsmall)
    · exact .inr (.inr (.inl hwrite))
    · exact .inr (.inr (.inr ⟨hmeta, (hprovided hon).item rs₀ hknown hnot op rfl hmeta hself⟩))
  cases h with
  | @counter _ rs₀ hp hrs₀ hjob =>
      have hknown := Conn.known_of hp hrs₀
      have hnot : ¬ rs₀.Flows tag := fun hflows => absurd hflows.1 (by omega)
      have hin := (findRequest_mem hp).1
      obtain rfl : responseFields tag size rs₀ = rs := by simpa [Mem.modify_self, hrs₀] using hrs
      refine ⟨fun hon hcase => hitems rs₀ hknown hnot rfl (fun q hq => Mem.modify_of_ne _ ?_ _)
        hon hcase, fun hon hop htype => ?_, fun hon hself hop => ?_⟩
      · rintro rfl
        exact List.disjoint_of_nodup_append howned.nodup hin hq
      · have hsize := (hprovided hon).size rs₀ hknown hjob htype (by rw [hop]; rfl)
        exact Option.isSome_iff_ne_none.mp hsize
      · refine DiffsKnown.of_same ((hprovided hon).diffs rs₀ hknown hnot ?_ hself) rfl rfl
        exact hop.imp (fun hop => by rw [hop]; rfl) fun hop => by rw [hop]; rfl
  | @completion p₀ q rs₀ requestRs l hp hrs₀ hjob hread hq hrequest hio hl =>
      have hknown := Conn.known_of hp hrs₀
      have hnot : ¬ rs₀.Flows tag := fun hflows => hread hflows.2
      have hwrite := hformed.second rs₀ hknown hjob hnot op rfl
      refine ⟨fun hon hcase => hitems rs₀ hknown hnot rfl
        (fun q hq => Mem.alloc_of_ne _ (Nat.ne_of_lt (hpeer q hq)) _) hon hcase,
        fun hon hop => ?_, fun hon hself hop => ?_⟩
      · rw [hwrite] at hop
        cases hop
      · refine DiffsKnown.of_same ((hprovided hon).diffs rs₀ hknown hnot ?_ hself) rfl rfl
        exact hop.imp (fun hop => by rw [hop]; rfl) fun hop => by rw [hop]; rfl

end responses

/-! ## Receiving -/

section receiving

variable {cfg : Config σ ι} {finds : σ → Nat → Prop} {w : World σ ι}
  {client server : SocketState}

/-- A socket on the server's side looks for something to send. -/
theorem Attended.sendNext (h : Attended cfg w client server) (hf : w.Fresh) :
    Attended cfg w client (updateSocketCurrentSend w.mem server client) := by
  obtain hsame | ⟨-, p, rs, hp, hrs, hne, hlocked, hnext⟩ :=
    updateSocketCurrentSend_cases w.mem server client
  · rw [hsame]
    exact h
  · rw [hnext]
    refine h.send fun q hq => ?_
    obtain rfl := Option.some.inj hq
    exact ⟨hf.lt_next (by rw [hrs]; rfl), rs, hp, hrs, hne, hlocked⟩

theorem Attended.clientSendNext (h : Attended cfg w client server) (hf : w.Fresh) :
    Attended cfg w (updateSocketCurrentSend w.mem client server) server := by
  obtain hsame | ⟨-, p, rs, hp, hrs, -, -, hnext⟩ :=
    updateSocketCurrentSend_cases w.mem client server
  · rw [hsame]
    exact h
  · rw [hnext]
    refine h.clientSend fun q hq => ?_
    obtain rfl := Option.some.inj hq
    exact ⟨hf.lt_next (by rw [hrs]; rfl), fun _ => hp⟩

/-- A complete message changes nothing that counts here. -/
theorem messageComplete_attended (hh : cfg.method.Hands finds) {tail : Int} {p : Addr}
    {c c' : Conn σ ι} (h : messageComplete cfg tail p c = .ok c')
    (hatt : Attended cfg c.w client server) (hclient : ∀ q ∈ client.requests, q < c.w.next)
    (hserver : ∀ q ∈ server.requests, q < c.w.next) :
    Attended cfg c'.w client server ∧ c.w.Tends cfg.method {p} c'.w := by
  have hhanded := messageComplete_handed hh h
  obtain ⟨-, buffer, last, w', -, -, -, rfl, hmarks⟩ := messageComplete_ok h
  refine ⟨hatt.alike (hmarks.tends hhanded) hclient hserver (fun rs' hrs' => ?_) (hmarks.keeps p),
    hmarks.tends hhanded⟩
  have hrel := hmarks.response
  have hback := hhanded p
  rw [hrs'] at hrel
  generalize c.w.mem p = o at hrel hback
  cases hrel with
  | some hr =>
      obtain ⟨rs'', hrs'', hh'⟩ := hback _ rfl
      obtain rfl := Option.some.inj (hrs'.symm.trans hrs'')
      refine ⟨_, rfl, hh', ?_⟩
      rw [hr.2]
      exact ⟨rfl, rfl, rfl, rfl, rfl, rfl⟩

variable {incoming : Incoming} {p : Addr} {c : Conn σ ι} {outcome : ReadOutcome σ ι}

/-- What has been received of a request was released with an item, or is locked. -/
theorem Attended.took (hatt : Attended cfg c.w c.me c.peer) (howned : c.Owned)
    (hp : c.me.currentReceiveItem = some p) (hin : p ∈ c.me.requests) (got : List UInt8) :
    Attended cfg (c.took p got).w c.me c.peer ∧ c.w.Tends cfg.method {p} (c.took p got).w := by
  obtain ⟨hme, hpeer⟩ := howned.lt_next
  have ht : c.w.Tends cfg.method {p} (c.took p got).w := .write c.w p fun _ => ⟨rfl, rfl⟩
  have hback : ∀ rs', (c.took p got).w.mem p = some rs' → ∃ rs, c.w.mem p = some rs ∧
      { rs with
        buffer := rs.buffer ++ got
        bufferTail := rs.bufferTail + got.length
        completedSize := rs.completedSize + got.length } = rs' := by
    intro rs' hrs'
    exact Option.map_eq_some_iff.mp ((Mem.modify_self ..).symm.trans hrs')
  refine ⟨hatt.touchClient ht hme (fun q hq => ⟨hpeer q hq, ?_⟩) ?_ ?_ ?_, ht⟩
  · rintro rfl
    exact List.disjoint_of_nodup_append howned.nodup hin hq
  · intro rs' hrs'
    obtain ⟨rs, hrs, rfl⟩ := hback rs' hrs'
    have hready := hatt.ready p hin rs hrs
    have htail := hready.tail
    exact
      { head := hready.head
        tail := by
          show 0 ≤ rs.bufferTail + got.length
          omega
        released := fun _ henqueued => ((hatt.receiving p hp).2 rs hrs).1 henqueued
        seen := hready.seen }
  · intro _ rs' hrs'
    obtain ⟨rs, hrs, rfl⟩ := hback rs' hrs'
    obtain ⟨hreleased, hflow⟩ := (hatt.receiving p hp).2 rs hrs
    exact ⟨hreleased, hflow.tends ht id rfl⟩
  · intro hcurrent rs' hrs'
    obtain ⟨rs, hrs, rfl⟩ := hback rs' hrs'
    obtain ⟨hbytes, hitem⟩ := (hatt.sending p hcurrent).2 rs hrs
    refine ⟨?_, hitem⟩
    show 0 < rs.bufferTail + got.length ∨ 0 < rs.bufferHead
    have htail := (hatt.ready p hin rs hrs).tail
    omega

theorem Attended.serverTook (hatt : Attended cfg c.w c.peer c.me) (howned : c.Owned)
    (hin : p ∈ c.me.requests) (got : List UInt8) :
    Attended cfg (c.took p got).w c.peer c.me
      ∧ c.w.Tends cfg.method {p} (c.took p got).w := by
  obtain ⟨hme, hpeer⟩ := howned.lt_next
  have ht : c.w.Tends cfg.method {p} (c.took p got).w := .write c.w p fun _ => ⟨rfl, rfl⟩
  refine ⟨hatt.touchServer ht (fun q hq => ⟨hpeer q hq, ?_⟩) hme (fun rs' hrs' => ?_)
    (Mem.Keeps.modify c.w.mem p _ p), ht⟩
  · rintro rfl
    exact List.disjoint_of_nodup_append howned.nodup hin hq
  · obtain ⟨rs, hrs, rfl⟩ := Option.map_eq_some_iff.mp ((Mem.modify_self ..).symm.trans hrs')
    exact ⟨rs, hrs, rfl, rfl, (hatt.flows p hin rs hrs).tends ht id rfl⟩

theorem Received.attended (hh : cfg.method.Hands finds) (hatt : Attended cfg c.w c.me c.peer)
    (howned : c.Owned) (hp : c.me.currentReceiveItem = some p)
    (h : Received cfg incoming p c outcome) :
    Attended cfg outcome.conn.w outcome.conn.me outcome.conn.peer
      ∧ c.w.Tends cfg.method c.reach outcome.conn.w := by
  have hin : ∀ {rs : RequestState ι}, c.w.mem p = some rs → p ∈ c.me.requests := fun hrs =>
    (hatt.receiving p hp).1.2 (by rw [hrs]; rfl)
  have hreach : ∀ {rs : RequestState ι}, c.w.mem p = some rs → ({p} : Set Addr) ⊆ c.reach := by
    rintro rs hrs _ rfl
    exact .inl (List.mem_append_left _ (hin hrs))
  cases h with
  | closed hrs hroom hnone hended => exact ⟨hatt, .refl _⟩
  | @part rs got hrs hroom hgot hne hjob hpart =>
      obtain ⟨htook, ht⟩ := hatt.took howned hp (hin hrs) got
      exact ⟨htook.sendNext (howned.fresh.modify _ _), ht.within (hreach hrs)⟩
  | @whole rs got c₁ hrs hroom hgot hne hjob hwhole hcomplete =>
      obtain ⟨htook, ht⟩ := hatt.took howned hp (hin hrs) got
      obtain ⟨hme, hpeer⟩ := howned.lt_next
      obtain ⟨hatt₁, ht₁⟩ := messageComplete_attended hh hcomplete htook hme hpeer
      have hfresh : c₁.w.Fresh := (Conn.Grows.messageComplete (howned.fresh.modify _ _)
        hcomplete).fresh
      obtain ⟨-, buffer, last, w', -, -, -, rfl, -⟩ := messageComplete_ok hcomplete
      have hidle := hatt₁.receive (o := none) c.me.incompleteMode fun q hq => by cases hq
      exact ⟨hidle.sendNext hfresh, (ht.within (hreach hrs)).trans (ht₁.within (hreach hrs))⟩

theorem Received.serverAttended (hh : cfg.method.Hands finds)
    (hatt : Attended cfg c.w c.peer c.me) (howned : c.Owned)
    (hp : c.me.currentReceiveItem = some p) (h : Received cfg incoming p c outcome) :
    Attended cfg outcome.conn.w outcome.conn.peer outcome.conn.me
      ∧ c.w.Tends cfg.method c.reach outcome.conn.w := by
  have hin : ∀ {rs : RequestState ι}, c.w.mem p = some rs → p ∈ c.me.requests := fun hrs =>
    (hatt.serverReceiving p hp).2 (by rw [hrs]; rfl)
  have hreach : ∀ {rs : RequestState ι}, c.w.mem p = some rs → ({p} : Set Addr) ⊆ c.reach := by
    rintro rs hrs _ rfl
    exact .inl (List.mem_append_left _ (hin hrs))
  cases h with
  | closed hrs hroom hnone hended => exact ⟨hatt, .refl _⟩
  | @part rs got hrs hroom hgot hne hjob hpart =>
      obtain ⟨htook, ht⟩ := hatt.serverTook howned (hin hrs) got
      exact ⟨htook.clientSendNext (howned.fresh.modify _ _), ht.within (hreach hrs)⟩
  | @whole rs got c₁ hrs hroom hgot hne hjob hwhole hcomplete =>
      obtain ⟨htook, ht⟩ := hatt.serverTook howned (hin hrs) got
      obtain ⟨hme, hpeer⟩ := howned.lt_next
      obtain ⟨hatt₁, ht₁⟩ := messageComplete_attended hh hcomplete htook hpeer hme
      have hfresh : c₁.w.Fresh := (Conn.Grows.messageComplete (howned.fresh.modify _ _)
        hcomplete).fresh
      obtain ⟨-, buffer, last, w', -, -, -, rfl, -⟩ := messageComplete_ok hcomplete
      have hidle := hatt₁.serverReceive (o := none) c.me.incompleteMode fun q hq => by cases hq
      exact ⟨hidle.clientSendNext hfresh, (ht.within (hreach hrs)).trans (ht₁.within (hreach hrs))⟩

end receiving

/-! ## The read branch -/

/-- The two sockets of the connection, the client's first. -/
def Conn.Attended (cfg : Config σ ι) (c : Conn σ ι) : Prop :=
  match c.me.source with
  | .client => PvfsProxy.Attended cfg c.w c.me c.peer
  | .server => PvfsProxy.Attended cfg c.w c.peer c.me

def Conn.ReadFormed (incoming : Incoming) (c : Conn σ ι) : Prop :=
  c.me.currentReceiveItem = none →
    match c.me.source with
    | .client => c.RequestFormed incoming.peeked
    | .server => c.ResponseFormed (toInt32 (bmiTag incoming.peeked))
        (peekedOperation incoming.peeked)

/-- The scheduler has what the peek, or the flow that is being received, asks for. -/
def Conn.ReadProvided (cfg : Config σ ι) (finds : σ → Nat → Prop) (incoming : Incoming)
    (c : Conn σ ι) : Prop :=
  match c.me.source, c.me.currentReceiveItem with
  | .client, none => c.RequestProvided cfg finds incoming.peeked
  | .client, some _ => True
  | .server, none => cfg.schedulerOn = true →
      c.ResponseProvided cfg (toInt32 (bmiTag incoming.peeked)) (peekedOperation incoming.peeked)
  | .server, some p => cfg.schedulerOn = true →
      ∀ rs ∈ c.w.mem p, rs.op = .dataFlow → c.DiffsKnown cfg

instance (incoming : Incoming) (c : Conn σ ι) : Decidable (c.ReadFormed incoming) := by
  unfold Conn.ReadFormed
  cases c.me.source <;> infer_instance

instance (cfg : Config σ ι) (finds : σ → Nat → Prop) [∀ s app, Decidable (finds s app)]
    (incoming : Incoming) (c : Conn σ ι) : Decidable (c.ReadProvided cfg finds incoming) := by
  unfold Conn.ReadProvided
  cases c.me.source <;> cases c.me.currentReceiveItem <;> infer_instance

section reading

variable {cfg : Config σ ι} {finds : σ → Nat → Prop} {incoming : Incoming} {c c' : Conn σ ι}
  {outcome : ReadOutcome σ ι}

theorem Conn.attended_client (hsource : c.me.source = .client) :
    c.Attended cfg ↔ PvfsProxy.Attended cfg c.w c.me c.peer := by
  unfold Conn.Attended
  rw [hsource]

theorem Conn.attended_server (hsource : c.me.source = .server) :
    c.Attended cfg ↔ PvfsProxy.Attended cfg c.w c.peer c.me := by
  unfold Conn.Attended
  rw [hsource]

/-- Differences are known if it is a flow of a read that is received. -/
def Conn.FlowProvided (cfg : Config σ ι) (c : Conn σ ι) : Prop :=
  c.me.source = .server → cfg.schedulerOn = true → ∀ p rs, c.me.currentReceiveItem = some p →
    c.w.mem p = some rs → rs.op = .dataFlow → c.DiffsKnown cfg

theorem Peeked.attended (hh : cfg.method.Hands finds) {ret : Int} (hatt : c.Attended cfg)
    (howned : c.Owned) (hidle : c.me.currentReceiveItem = none)
    (hformed : c.ReadFormed incoming) (hprovided : c.ReadProvided cfg finds incoming)
    (h : Peeked cfg incoming.peeked c c' ret) :
    c'.Attended cfg ∧ c.w.Tends cfg.method c.reach c'.w ∧ c'.FlowProvided cfg := by
  have hsame := (Conn.Grows.peeked howned.fresh h).me.source
  have hformed := hformed hidle
  unfold Conn.ReadProvided at hprovided
  rw [hidle] at hprovided
  cases h with
  | request hsource h =>
      rw [hsource] at hformed hprovided hsame
      obtain ⟨hattended, ht⟩ := h.attended hh ((Conn.attended_client hsource).mp hatt) howned
        hidle hformed hprovided
      refine ⟨(Conn.attended_client hsame).mpr hattended, ht, fun hserver => ?_⟩
      rw [hsame] at hserver
      cases hserver
  | response hsource h =>
      rw [hsource] at hformed hprovided hsame
      have hpeeks := h.peeks hh ((Conn.attended_server hsource).mp hatt) howned hidle hformed
        hprovided
      exact ⟨(Conn.attended_server hsame).mpr hpeeks.attended, hpeeks.tends,
        fun _ => hpeeks.diffs⟩

theorem Received.connAttended (hh : cfg.method.Hands finds) {p : Addr} (hatt : c.Attended cfg)
    (howned : c.Owned) (hp : c.me.currentReceiveItem = some p)
    (h : Received cfg incoming p c outcome) :
    outcome.conn.Attended cfg ∧ c.w.Tends cfg.method c.reach outcome.conn.w := by
  have hsame := (h.grows howned.fresh).me.source
  cases hsource : c.me.source with
  | client =>
      rw [hsource] at hsame
      rw [Conn.attended_client hsame]
      exact h.attended hh ((Conn.attended_client hsource).mp hatt) howned hp
  | server =>
      rw [hsource] at hsame
      rw [Conn.attended_server hsame]
      exact h.serverAttended hh ((Conn.attended_server hsource).mp hatt) howned hp

theorem ReadStep.attended (hh : cfg.method.Hands finds) (hatt : c.Attended cfg)
    (howned : c.Owned) (hformed : c.ReadFormed incoming)
    (hprovided : c.ReadProvided cfg finds incoming) (h : ReadStep cfg incoming c outcome) :
    outcome.conn.Attended cfg ∧ c.w.Tends cfg.method c.reach outcome.conn.w := by
  cases h with
  | more hp h => exact h.connAttended hh hatt howned hp
  | closed hp hpeek hnone hended =>
      obtain ⟨hattended, ht, -⟩ := hpeek.attended hh hatt howned hp hformed hprovided
      exact ⟨hattended, ht⟩
  | again hp hpeek hret =>
      obtain ⟨hattended, ht, -⟩ := hpeek.attended hh hatt howned hp hformed hprovided
      exact ⟨hattended, ht⟩
  | first hp hpeek hret hp₁ h =>
      have hgrows := Conn.Grows.peeked howned.fresh hpeek
      obtain ⟨hattended, ht, -⟩ := hpeek.attended hh hatt howned hp hformed hprovided
      obtain ⟨hattended', ht'⟩ := h.connAttended hh hattended (hgrows.effect howned).owned hp₁
      exact ⟨hattended', ht.trans (ht'.within hgrows.reach)⟩

variable {m' : SchedulerMethod σ ι}

/-- The request of the flow that is received has an item. -/
theorem Conn.Attended.flowKnown (hatt : c.Attended cfg) (hprovided : c.FlowProvided cfg)
    {p : Addr} {rs : RequestState ι} (hp : c.me.currentReceiveItem = some p)
    (hrs : c.w.mem p = some rs) (hon : cfg.schedulerOn = true) (hop : rs.op = .dataFlow) :
    c.FlowKnown cfg rs where
  item original horiginal := by
    cases hsource : c.me.source with
    | client =>
        have hatt := (Conn.attended_client hsource).mp hatt
        exact (((hatt.receiving p hp).2 rs hrs).2 hon hop original horiginal).2
    | server =>
        have hatt := (Conn.attended_server hsource).mp hatt
        have hin := (hatt.serverReceiving p hp).2 (by rw [hrs]; rfl)
        exact (hatt.flows p hin rs hrs hon hop original horiginal).2
  diffs hsource := hprovided hsource hon p rs hp hrs hop

/-- The read branch calls no NULL hook, and none for a NULL item. -/
theorem readEvent_using (hh : cfg.method.Hands finds) (hm : cfg.method.SameButNull m')
    (hatt : c.Attended cfg) (howned : c.Owned) (hformed : c.ReadFormed incoming)
    (hprovided : c.ReadProvided cfg finds incoming) :
    readEvent (cfg.using m') incoming c = readEvent cfg incoming c := by
  have hreceive : ∀ {c₁ : Conn σ ι} {p : Addr}, c₁.Attended cfg → c₁.FlowProvided cfg →
      c₁.me.currentReceiveItem = some p →
      receive (cfg.using m') incoming p c₁ = receive cfg incoming p c₁ :=
    fun hatt hflow hp => receive_using hm hh fun _ hrs hon hop _ =>
      hatt.flowKnown hflow hp hrs hon hop
  unfold readEvent
  cases hp : c.me.currentReceiveItem with
  | some p =>
      refine hreceive hatt (fun hsource hon q rs hq hrs hop => ?_) hp
      obtain rfl := Option.some.inj (hp.symm.trans hq)
      unfold Conn.ReadProvided at hprovided
      rw [hsource, hp] at hprovided
      exact hprovided hon rs hrs hop
  | none =>
      have hafter : ∀ {c₁ : Conn σ ι} {ret : Int}, Peeked cfg incoming.peeked c c₁ ret →
          ∀ p, c₁.me.currentReceiveItem = some p →
            receive (cfg.using m') incoming p c₁ = receive cfg incoming p c₁ := by
        intro c₁ ret hpeek p hp₁
        obtain ⟨hattended, -, hflow⟩ := hpeek.attended hh hatt howned hp hformed hprovided
        exact hreceive hattended hflow hp₁
      have hformed := hformed hp
      unfold Conn.ReadProvided at hprovided
      rw [hp] at hprovided
      cases hsource : c.me.source with
      | client =>
          dsimp only
          rw [checkRequest_using hm]
          refine Machine.bind_congr_ok fun ⟨c₁, ret⟩ hcheck => ?_
          have hafter := hafter (.request hsource (checkRequest_ok hcheck))
          dsimp only
          cases hp₁ : c₁.me.currentReceiveItem with
          | none => rfl
          | some p => simp only [hafter p hp₁]
      | server =>
          rw [hsource] at hformed hprovided
          dsimp only
          rw [checkResponse_using hm hh fun c₁ p ret rs hwhole hopen hrs => ?_]
          · refine Machine.bind_congr_ok fun ⟨c₁, ret⟩ hcheck => ?_
            have hafter := hafter (.response hsource (checkResponse_ok hcheck))
            dsimp only
            cases hp₁ : c₁.me.currentReceiveItem with
            | none => rfl
            | some p => simp only [hafter p hp₁]
          · have hvisible : Whole incoming.peeked := hwhole
            rw [peekedOperation, if_pos hvisible] at hformed hprovided
            exact hopen.answerable ((Conn.attended_server hsource).mp hatt) howned hformed
              hprovided hrs

end reading

/-! ## The write branch -/

section writing

variable {cfg : Config σ ι} {w w' : World σ ι} {client client' server server' : SocketState}

/-- States leave the lists as they are freed. -/
theorem Attended.retire (h : Attended cfg w client server) (hnext : w'.next = w.next)
    (hmem : ∀ p rs, w'.mem p = some rs → w.mem p = some rs)
    (hclient : client'.requests ⊆ client.requests) (hserver : server'.requests ⊆ server.requests)
    (hclientKept : ∀ p ∈ client.requests, (w'.mem p).isSome = true → p ∈ client'.requests)
    (hserverKept : ∀ p ∈ server.requests, (w'.mem p).isSome = true → p ∈ server'.requests)
    (hfound : ∀ tag p, findRequest w'.mem server' tag = some p →
      findRequest w.mem server tag = some p)
    (hclientItems : client'.currentReceiveItem = client.currentReceiveItem
      ∧ client'.currentSendItem = client.currentSendItem)
    (hserverItems : server'.currentReceiveItem = server.currentReceiveItem
      ∧ server'.currentSendItem = server.currentSendItem) :
    Attended cfg w' client' server' := by
  have hlive : ∀ p, (w'.mem p).isSome = true → (w.mem p).isSome = true := by
    intro p hp
    obtain ⟨rs, hrs⟩ := Option.isSome_iff_exists.mp hp
    rw [hmem p rs hrs]
    rfl
  have honClient : ∀ p, w.On client.requests p → w'.On client'.requests p := fun p hon =>
    ⟨hnext ▸ hon.1, fun hp => hclientKept p (hon.2 (hlive p hp)) hp⟩
  have honServer : ∀ p, w.On server.requests p → w'.On server'.requests p := fun p hon =>
    ⟨hnext ▸ hon.1, fun hp => hserverKept p (hon.2 (hlive p hp)) hp⟩
  have hflows : ∀ rs : RequestState ι, rs.FlowsFor cfg w → rs.FlowsFor cfg w' :=
    fun rs hrs hon hop o ho => by
      obtain ⟨hlt, hitem⟩ := hrs hon hop o ho
      exact ⟨hnext ▸ hlt, fun ors hors => hitem ors (hmem o ors hors)⟩
  exact
    { ready := fun p hp rs hrs => h.ready p (hclient hp) rs (hmem p rs hrs)
      receiving := fun p hp => by
        obtain ⟨hon, hreceived⟩ := h.receiving p (hclientItems.1 ▸ hp)
        refine ⟨honClient p hon, fun rs hrs => ?_⟩
        obtain ⟨hreleased, hflow⟩ := hreceived rs (hmem p rs hrs)
        exact ⟨hreleased, hflows rs hflow⟩
      sending := fun p hp => by
        obtain ⟨hon, hsent⟩ := h.sending p (hserverItems.2 ▸ hp)
        exact ⟨honClient p hon, fun rs hrs => hsent rs (hmem p rs hrs)⟩
      flows := fun p hp rs hrs => hflows rs (h.flows p (hserver hp) rs (hmem p rs hrs))
      originals := fun tag p rs hp hrs o ho =>
        honClient o (h.originals tag p rs (hfound tag p hp) (hmem p rs hrs) o ho)
      serverReceiving := fun p hp => honServer p (h.serverReceiving p (hserverItems.1 ▸ hp))
      clientSending := fun p hp => honServer p (h.clientSending p (hclientItems.2 ▸ hp)) }

variable {c c' : Conn σ ι}

/-- The state found for a tag after a clean-up is the one found before. -/
theorem cleanUpRequestState_found (howned : c.Owned) {tag tag' : Int} {p : Addr}
    {s s' : SocketState}
    (hs : s = c.me ∧ s' = (cleanUpRequestState tag c).me
      ∨ s = c.peer ∧ s' = (cleanUpRequestState tag c).peer)
    (h : findRequest (cleanUpRequestState tag c).w.mem s' tag' = some p) :
    findRequest c.w.mem s tag' = some p := by
  have hlist : s'.requests = s.requests.filter (fun q => !hasTag c.w.mem tag q)
      ∧ ∀ q ∈ s.requests, q ∈ c.me.requests ∨ q ∈ c.peer.requests := by
    rcases hs with ⟨rfl, rfl⟩ | ⟨rfl, rfl⟩
    · unfold cleanUpRequestState
      simp only [cleanUpRequests_requests]
      exact ⟨trivial, fun q hq => .inl hq⟩
    · unfold cleanUpRequestState
      simp only [cleanUpRequests_requests]
      refine ⟨List.filter_congr fun q hq => ?_, fun q hq => .inr hq⟩
      -- not freed with the first list
      have hme : q ∉ c.me.requests := fun hme =>
        List.disjoint_of_nodup_append howned.nodup hme hq
      unfold hasTag
      rw [cleanUpRequests_mem, if_neg fun hin => hme hin.1]
  obtain ⟨hlist, hin⟩ := hlist
  have hmem := cleanUpRequestState_mem tag c
  have hne : tag' ≠ tag := by
    rintro rfl
    obtain ⟨hp, htag⟩ := findRequest_mem h
    rw [hlist, List.mem_filter, Bool.not_eq_true'] at hp
    unfold hasTag at htag hp
    rw [hmem, if_neg (by rw [hasTag, hp.2]; simp), hp.2] at htag
    cases htag
  unfold findRequest at h ⊢
  rw [hlist, List.find?_filter] at h
  rw [← h]
  refine (find?_eq_of_forall fun q _ => ?_).symm
  cases hq' : hasTag c.w.mem tag q with
  | false =>
      unfold hasTag at hq' ⊢
      rw [hmem, if_neg (by rw [hasTag, hq']; simp)]
      simp
  | true =>
      obtain ⟨rs, hrs, rfl⟩ := hasTag_eq_true.mp hq'
      simpa [hasTag, hrs] using hne.symm

/-- Retiring a tag keeps the connection attended. -/
theorem cleanUpRequestState_attended (hatt : c.Attended cfg) (howned : c.Owned) (tag : Int) :
    (cleanUpRequestState tag c).Attended cfg
      ∧ c.w.Tends cfg.method c.reach (cleanUpRequestState tag c).w := by
  have hmem := cleanUpRequestState_mem tag c
  have hback : ∀ p rs, (cleanUpRequestState tag c).w.mem p = some rs → c.w.mem p = some rs := by
    intro p rs hrs
    rw [hmem] at hrs
    split at hrs
    · cases hrs
    · exact hrs
  have hshrinks : c.Shrinks (hasTag c.w.mem tag) (cleanUpRequestState tag c) :=
    .cleanUp fun _ => rfl
  -- what is still there does not carry the tag
  have hkept : ∀ p, p ∈ c.me.requests ∨ p ∈ c.peer.requests →
      ((cleanUpRequestState tag c).w.mem p).isSome = true → hasTag c.w.mem tag p = false := by
    intro p hp hlive
    by_contra htag
    rw [Bool.not_eq_false] at htag
    rw [hmem, if_pos ⟨hp, htag⟩] at hlive
    cases hlive
  have hme : ∀ p ∈ c.me.requests, ((cleanUpRequestState tag c).w.mem p).isSome = true →
      p ∈ (cleanUpRequestState tag c).me.requests :=
    fun p hp hlive => hshrinks.meRequests p hp (hkept p (.inl hp) hlive)
  have hpeer : ∀ p ∈ c.peer.requests, ((cleanUpRequestState tag c).w.mem p).isSome = true →
      p ∈ (cleanUpRequestState tag c).peer.requests :=
    fun p hp hlive => hshrinks.peerRequests p hp (hkept p (.inr hp) hlive)
  have hfoundMe : ∀ tag' p, findRequest (cleanUpRequestState tag c).w.mem
      (cleanUpRequestState tag c).me tag' = some p → findRequest c.w.mem c.me tag' = some p :=
    fun tag' p => cleanUpRequestState_found howned (.inl ⟨rfl, rfl⟩)
  have hfoundPeer : ∀ tag' p, findRequest (cleanUpRequestState tag c).w.mem
      (cleanUpRequestState tag c).peer tag' = some p → findRequest c.w.mem c.peer tag' = some p :=
    fun tag' p => cleanUpRequestState_found howned (.inr ⟨rfl, rfl⟩)
  have hsame := hshrinks.me.source
  constructor
  · cases hsource : c.me.source with
    | client =>
        rw [hsource] at hsame
        exact (Conn.attended_client hsame).mpr (((Conn.attended_client hsource).mp hatt).retire rfl
          hback hshrinks.meSublist.subset hshrinks.peerSublist.subset hme hpeer hfoundPeer
          ⟨rfl, rfl⟩ ⟨rfl, rfl⟩)
    | server =>
        rw [hsource] at hsame
        exact (Conn.attended_server hsame).mpr (((Conn.attended_server hsource).mp hatt).retire rfl
          hback hshrinks.peerSublist.subset hshrinks.meSublist.subset hpeer hme hfoundMe
          ⟨rfl, rfl⟩ ⟨rfl, rfl⟩)
  · refine ⟨Nat.le_refl _, fun p hp hreach => ?_, fun p _ rs hrs => ⟨rs, hback p rs hrs, id⟩⟩
    rw [hmem, if_neg fun hin => hreach (.inl (List.mem_append.mpr hin.1))]
    exact (World.Tends.refl (m := cfg.method) (P := ∅) c.w).others p hp (Set.notMem_empty p)

theorem Conn.gave_attended (hatt : c.Attended cfg) (howned : c.Owned) {p : Addr}
    {rs : RequestState ι} (hp : c.me.currentSendItem = some p) (hrs : c.w.mem p = some rs)
    {sent : Nat} (hpos : 0 < sent) :
    (c.gave p (rs.bufferHead + sent)).Attended cfg
      ∧ c.w.Tends cfg.method c.reach (c.gave p (rs.bufferHead + sent)).w := by
  obtain ⟨hme, hpeer⟩ := howned.lt_next
  have ht : c.w.Tends cfg.method {p} (c.gave p (rs.bufferHead + sent)).w :=
    .write c.w p fun _ => ⟨rfl, rfl⟩
  have hself : ∀ rs', (c.gave p (rs.bufferHead + sent)).w.mem p = some rs' →
      { rs with bufferHead := rs.bufferHead + sent } = rs' := by
    intro rs' hrs'
    obtain ⟨rs₀, hrs₀, rfl⟩ := Option.map_eq_some_iff.mp ((Mem.modify_self ..).symm.trans hrs')
    rw [Option.some.inj (hrs.symm.trans hrs₀)]
  have hlive : (c.w.mem p).isSome = true := by rw [hrs]; rfl
  have hdis := List.disjoint_of_nodup_append howned.nodup
  have hin : p ∈ c.peer.requests := by
    cases hsource : c.me.source with
    | client => exact (((Conn.attended_client hsource).mp hatt).clientSending p hp).2 hlive
    | server => exact (((Conn.attended_server hsource).mp hatt).sending p hp).1.2 hlive
  refine ⟨?_, ht.within ?_⟩
  · cases hsource : c.me.source with
    | client =>
        have hatt := (Conn.attended_client hsource).mp hatt
        refine (Conn.attended_client (c := c.gave p (rs.bufferHead + sent)) hsource).mpr ?_
        refine hatt.touchServer ht (fun q hq => ⟨hme q hq, ?_⟩) hpeer (fun rs' hrs' => ?_)
          (Mem.Keeps.modify c.w.mem p _ p)
        · rintro rfl
          exact hdis hq hin
        · obtain rfl := hself rs' hrs'
          exact ⟨rs, hrs, rfl, rfl, (hatt.flows p hin rs hrs).tends ht id rfl⟩
    | server =>
        have hatt := (Conn.attended_server hsource).mp hatt
        refine (Conn.attended_server (c := c.gave p (rs.bufferHead + sent)) hsource).mpr ?_
        have hready := hatt.ready p hin rs hrs
        obtain ⟨-, hitem⟩ := (hatt.sending p hp).2 rs hrs
        have hhead : 0 < rs.bufferHead + sent := by
          have := hready.head
          omega
        refine hatt.touchClient ht hpeer (fun q hq => ⟨hme q hq, ?_⟩) ?_ ?_ ?_
        · rintro rfl
          exact hdis hq hin
        · intro rs' hrs'
          obtain rfl := hself rs' hrs'
          exact
            { head := Int.le_of_lt hhead
              tail := hready.tail
              released := hready.released
              seen := fun _ => hitem }
        · intro hcurrent rs' hrs'
          obtain rfl := hself rs' hrs'
          obtain ⟨hreleased, hflow⟩ := (hatt.receiving p hcurrent).2 rs hrs
          exact ⟨hreleased, hflow.tends ht id rfl⟩
        · intro _ rs' hrs'
          obtain rfl := hself rs' hrs'
          exact ⟨.inr hhead, hitem⟩
  · rintro _ rfl
    exact .inl (List.mem_append_right _ hin)

theorem Conn.next_attended (hatt : c.Attended cfg) (hf : c.w.Fresh) :
    c.next.Attended cfg ∧ c.next.w = c.w := by
  refine ⟨?_, rfl⟩
  have hsame : c.next.me.source = c.me.source :=
    (updateSocketCurrentSend_same c.w.mem { c.me with currentSendItem := none } c.peer).source
  cases hsource : c.me.source with
  | client =>
      rw [hsource] at hsame
      have hidle := ((Conn.attended_client hsource).mp hatt).clientSend (o := none)
        fun p hp => by cases hp
      exact (Conn.attended_client hsame).mpr (hidle.clientSendNext hf)
  | server =>
      rw [hsource] at hsame
      have hidle := ((Conn.attended_server hsource).mp hatt).send (o := none)
        fun p hp => by cases hp
      exact (Conn.attended_server hsame).mpr (hidle.sendNext hf)

theorem WriteStep.attended {sent : Nat} {bytes : List UInt8} (hatt : c.Attended cfg)
    (howned : c.Owned) (h : WriteStep sent c c' bytes) :
    c'.Attended cfg ∧ c.w.Tends cfg.method c.reach c'.w := by
  cases h with
  | config hp hrs hconfig => exact ⟨hatt, .refl _⟩
  | part hp hrs hconfig hpos hle hpart => exact Conn.gave_attended hatt howned hp hrs hpos
  | @whole p rs hp hrs hconfig hpos hall hmark =>
      obtain ⟨hgave, ht⟩ := Conn.gave_attended hatt howned hp hrs hpos
      exact ⟨(Conn.next_attended hgave (howned.fresh.modify _ _)).1, ht⟩
  | @last p rs hp hrs hconfig hpos hall hmark =>
      obtain ⟨hgave, ht⟩ := Conn.gave_attended hatt howned hp hrs hpos
      have hmodified : c.Shrinks (fun _ => false) (c.gave p (rs.bufferHead + sent)) :=
        .of_modify _ c _ _
      have howned' := (hmodified.effect howned).owned
      obtain ⟨hclean, ht'⟩ := cleanUpRequestState_attended hgave howned' rs.currentTag
      have hfresh : (cleanUpRequestState rs.currentTag
          (c.gave p (rs.bufferHead + sent))).w.Fresh :=
        (Conn.Shrinks.cleanUp (c := c.gave p (rs.bufferHead + sent)) fun _ => rfl).fresh
          howned'.fresh
      exact ⟨(Conn.next_attended hclean hfresh).1, ht.trans ht'⟩

end writing

end PvfsProxy
