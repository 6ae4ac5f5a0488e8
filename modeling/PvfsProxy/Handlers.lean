import PvfsProxy.Frame

/-!
# What each handler does

One lemma for each function of `Message` and `MainLoop`: which request state
it opens, what it puts there, how the two sockets of the connection change,
and that everything else is at most rescheduled.

`SameConnection` is what no handler changes of a socket. `openedRequest` and
`counterState` are the states a request is given on its own socket and on the
other one.
-/

namespace PvfsProxy

variable {σ ι : Type}

/-! ## The sockets -/

/-- The same socket, later in the same connection. -/
def SocketState.SameConnection (s s' : SocketState) : Prop :=
  s'.reqStateData.isSome = s.reqStateData.isSome ∧ s' = { s with
    incompleteMode := s'.incompleteMode
    reqStateData := s'.reqStateData
    currentSendItem := s'.currentSendItem
    currentReceiveItem := s'.currentReceiveItem }

namespace SocketState

variable {s s' s'' : SocketState}

theorem SameConnection.refl (s : SocketState) : s.SameConnection s := ⟨rfl, rfl⟩

theorem SameConnection.trans (h : s.SameConnection s') (h' : s'.SameConnection s'') :
    s.SameConnection s'' := by
  refine ⟨h'.1.trans h.1, ?_⟩
  rw [h'.2, h.2]

theorem SameConnection.counterSocketIndex (h : s.SameConnection s') :
    s'.counterSocketIndex = s.counterSocketIndex := by rw [h.2]

theorem SameConnection.source (h : s.SameConnection s') : s'.source = s.source := by rw [h.2]

theorem SameConnection.counterSocket (h : s.SameConnection s') :
    s'.counterSocket = s.counterSocket := by rw [h.2]

theorem SameConnection.socket (h : s.SameConnection s') : s'.socket = s.socket := by rw [h.2]

theorem SameConnection.acceptMode (h : s.SameConnection s') :
    s'.acceptMode = s.acceptMode := by rw [h.2]

@[simp] theorem requests_some (s : SocketState) (l : List Addr) :
    { s with reqStateData := some l }.requests = l := rfl

end SocketState

theorem updateSocketCurrentSend_same (mem : Mem ι) (me peer : SocketState) :
    me.SameConnection (updateSocketCurrentSend mem me peer) := by
  unfold updateSocketCurrentSend
  split
  · exact .refl me
  · exact ⟨rfl, rfl⟩

theorem hasTag_eq_true {mem : Mem ι} {tag : Int} {p : Addr} :
    hasTag mem tag p = true ↔ ∃ rs, mem p = some rs ∧ rs.currentTag = tag := by
  unfold hasTag
  simp [Option.any_eq_true]

theorem findLastRequest_mem {mem : Mem ι} {s : SocketState} {tag : Int} {p : Addr}
    (h : findLastRequest mem s tag = some p) : p ∈ s.requests ∧ hasTag mem tag p = true := by
  have := List.mem_of_getLast? h
  exact List.mem_filter.mp this

theorem findRequest_mem {mem : Mem ι} {s : SocketState} {tag : Int} {p : Addr}
    (h : findRequest mem s tag = some p) : p ∈ s.requests ∧ hasTag mem tag p = true :=
  ⟨List.mem_of_find?_eq_some h, List.find?_some h⟩

/-- The last of the list has the tag, so it is the one found. -/
theorem findLastRequest_append {mem : Mem ι} {s : SocketState} {tag : Int} {p : Addr}
    {l : List Addr} (hl : s.reqStateData = some (l ++ [p])) (hp : hasTag mem tag p = true) :
    findLastRequest mem s tag = some p := by
  unfold findLastRequest SocketState.requests
  simp [hl, List.filter_append, hp]

theorem hasTag_modify {mem : Mem ι} {p : Addr} {f : RequestState ι → RequestState ι}
    (hf : ∀ rs, (f rs).currentTag = rs.currentTag) (tag : Int) :
    hasTag (mem.modify p f) tag = hasTag mem tag := by
  funext q
  unfold hasTag
  by_cases hq : q = p
  · subst hq
    rw [Mem.modify_self]
    cases mem q <;> simp [hf]
  · rw [Mem.modify_of_ne _ hq]

/-- An idle socket takes the last state of the tag. -/
theorem updateSocketCurrentReceive_ok {mem : Mem ι} {tag : Int} {me me' : SocketState}
    (h : updateSocketCurrentReceive mem tag me = .ok me') :
    0 ≤ tag ∧ me' = { me with
      currentReceiveItem := me.currentReceiveItem.or (findLastRequest mem me (toInt32 tag)) } := by
  unfold updateSocketCurrentReceive at h
  split at h
  · cases h
  · rename_i htag
    refine ⟨by omega, ?_⟩
    cases hr : me.currentReceiveItem with
    | some p =>
        simp only [hr] at h
        obtain rfl := Except.ok.inj h
        rw [Option.some_or, ← hr]
    | none =>
        simp only [hr] at h
        obtain rfl := Except.ok.inj h
        simp

theorem bufferNonemptyNonlockComp_eq_zero {mem : Mem ι} {p : Addr} :
    listReqStateBufferNonemptyNonlockComp mem () p = 0 ↔
      ∃ rs, mem p = some rs ∧ rs.bufferTail - rs.bufferHead ≠ 0 ∧ rs.locked = false := by
  unfold listReqStateBufferNonemptyNonlockComp
  split
  · rename_i h
    simpa [Option.any_eq_true] using h
  · rename_i h
    simpa [Option.any_eq_true] using h

/-- An idle socket starts with a state of its counterpart that has bytes to
send and is not locked. -/
theorem updateSocketCurrentSend_cases (mem : Mem ι) (me peer : SocketState) :
    updateSocketCurrentSend mem me peer = me
      ∨ me.currentSendItem = none ∧ ∃ p rs, p ∈ peer.requests ∧ mem p = some rs
          ∧ rs.bufferTail - rs.bufferHead ≠ 0 ∧ rs.locked = false
          ∧ updateSocketCurrentSend mem me peer = { me with currentSendItem := some p } := by
  unfold updateSocketCurrentSend
  split
  · exact .inl rfl
  · rename_i hnone
    cases hs : pintLlistSearch peer.reqStateData ()
        (listReqStateBufferNonemptyNonlockComp mem) with
    | none => exact .inl (by rw [← hnone])
    | some p =>
        refine .inr ⟨hnone, ?_⟩
        unfold pintLlistSearch at hs
        split at hs
        · cases hs
        · rename_i l hl
          have hp := List.find?_some hs
          obtain ⟨rs, hrs, hne, hlocked⟩ := bufferNonemptyNonlockComp_eq_zero.mp (beq_iff_eq.mp hp)
          refine ⟨p, rs, ?_, hrs, hne, hlocked, rfl⟩
          unfold SocketState.requests
          rw [hl]
          exact List.mem_of_find?_eq_some hs

/-! ## A message from the client -/

/-- What `open` leaves in the fresh memory of a request. -/
def openedRequest (cfg : Config σ ι) (tag size : Int) (p : Addr) : RequestState ι :=
  { cfg.junk p with
    buffer := []
    bufferHead := 0
    bufferSize := size + bmiHeaderLength
    bufferTail := 0
    lastFlow := false
    currentItem := none
    completedSize := 0
    jobSize := size + bmiHeaderLength
    lastTag := -1
    currentTag := toInt32 tag
    pvfsIoType := -1
    locked := false
    metaResponse := false }

/-- The counter state of the request `rs` at `original`. -/
def counterState (cfg : Config σ ι) (original : Addr) (rs : RequestState ι) (p : Addr) :
    RequestState ι :=
  { cfg.junk p with
    buffer := []
    bufferHead := 0
    bufferSize := 0
    bufferTail := 0
    lastFlow := false
    currentItem := none
    completedSize := 0
    jobSize := -1
    lastTag := -1
    currentTag := rs.currentTag
    originalRequest := some original
    pvfsIoType := rs.pvfsIoType
    op := rs.op
    configTag := false
    locked := false
    metaResponse := false }

/-- What `add_request_to_socket` sets. -/
def freshRequest (junk : Addr → RequestState ι) (p : Addr) : RequestState ι :=
  { junk p with
    buffer := []
    bufferHead := 0
    bufferSize := 0
    bufferTail := 0
    lastFlow := false
    currentItem := none
    completedSize := 0
    jobSize := 0
    lastTag := -1
    currentTag := -1
    locked := false
    metaResponse := false }

theorem addRequestToSocket_ok {junk : Addr → RequestState ι} {s s' : SocketState}
    {w w' : World σ ι} {p : Addr} (h : addRequestToSocket junk s w = .ok (s', w', p)) :
    ∃ l, s.reqStateData = some l ∧ p = w.next
      ∧ s' = { s with reqStateData := some (l ++ [w.next]) }
      ∧ w' = { w with
          mem := w.mem.alloc w.next (freshRequest junk w.next)
          next := w.next + 1 } := by
  unfold addRequestToSocket at h
  cases hl : s.reqStateData with
  | none => simp [hl] at h
  | some l =>
      simp only [hl, Option.isNone_some, Bool.false_eq_true, if_false, Except.ok.injEq,
        Prod.mk.injEq] at h
      obtain ⟨rfl, rfl, rfl⟩ := h
      exact ⟨l, rfl, rfl, rfl, rfl⟩

/-- The connection with a new state on the socket at hand, whose list was `l`. -/
def Conn.opened (c : Conn σ ι) (l : List Addr) (rs : RequestState ι) : Conn σ ι :=
  { c with
    me := { c.me with reqStateData := some (l ++ [c.w.next]) }
    w := { c.w with mem := c.w.mem.alloc c.w.next rs, next := c.w.next + 1 } }

/-- A request is opened in fresh memory, unless it was peeked at before. -/
theorem openRequest_ok {cfg : Config σ ι} {tag size : Int} {c c' : Conn σ ι} {p : Addr}
    (h : openRequest cfg tag size c = .ok (c', p)) :
    (c.me.incompleteMode = true ∧ findLastRequest c.w.mem c.me (toInt32 tag) = some p ∧ c' = c)
      ∨ c.me.incompleteMode = false ∧ p = c.w.next ∧ ∃ l, c.me.reqStateData = some l
          ∧ c' = c.opened l (openedRequest cfg tag size c.w.next) := by
  unfold openRequest at h
  split at h
  · rename_i hinc
    split at h
    · cases h
    · rename_i q hq
      obtain ⟨rfl, rfl⟩ := Prod.mk.inj (Except.ok.inj h)
      exact .inl ⟨hinc, hq, rfl⟩
  · rename_i hinc
    obtain ⟨⟨me, w, q⟩, hadd, h⟩ := Machine.bind_eq_ok.mp h
    obtain ⟨l, hl, rfl, rfl, rfl⟩ := addRequestToSocket_ok hadd
    obtain ⟨rfl, rfl⟩ := Prod.mk.inj (Machine.pure_eq_ok.mp h)
    refine .inr ⟨by simpa using hinc, rfl, l, hl, ?_⟩
    simp only [Mem.alloc_modify]
    rfl

theorem createCounterRs_ok {cfg : Config σ ι} {original counter : Addr} {s s' : SocketState}
    {w w' : World σ ι} (h : createCounterRs cfg.junk original s w = .ok (s', w', counter)) :
    ∃ l rs, s.reqStateData = some l ∧ w.mem original = some rs ∧ counter = w.next
      ∧ s' = { s with reqStateData := some (l ++ [w.next]) }
      ∧ w' = { w with
          mem := w.mem.alloc w.next (counterState cfg original rs w.next)
          next := w.next + 1 } := by
  obtain ⟨rs, hrs, h⟩ := Machine.bind_eq_ok.mp h
  obtain ⟨⟨s₁, w₁, q⟩, hadd, h⟩ := Machine.bind_eq_ok.mp h
  obtain ⟨l, hl, rfl, rfl, rfl⟩ := addRequestToSocket_ok hadd
  obtain ⟨rfl, hw⟩ := Prod.mk.inj (Machine.pure_eq_ok.mp h)
  obtain ⟨rfl, rfl⟩ := Prod.mk.inj hw
  refine ⟨l, rs, hl, Mem.deref_eq_ok.mp hrs, rfl, rfl, ?_⟩
  simp only [Mem.alloc_modify]
  rfl

/-- The effect of a step on the states of a new request: those of `p` and its
counter state only as far as the scheduler goes, the others at most
rescheduled. Only `p` may be locked by it. -/
structure World.Admits (p counter : Addr) (w w' : World σ ι) : Prop where
  others : w.mem.RescheduledBut {p, counter} w'.mem
  request : Option.Rel RequestState.Scheduled (w.mem p) (w'.mem p)
  counter : Option.Rel (fun rs rs' => rs.Scheduled rs' ∧ (rs'.locked = true → rs.locked = true))
    (w.mem counter) (w'.mem counter)
  next : w'.next = w.next

namespace World.Admits

variable {p counter : Addr} {w w' w'' : World σ ι}

theorem refl (p counter : Addr) (w : World σ ι) : w.Admits p counter w where
  others := .refl _
  request := by cases w.mem p <;> simp [RequestState.Scheduled.refl]
  counter := by cases w.mem counter <;> simp [RequestState.Scheduled.refl]
  next := rfl

theorem trans (h : w.Admits p counter w') (h' : w'.Admits p counter w'') :
    w.Admits p counter w'' where
  others := h.others.trans h'.others
  request := by
    have h₁ := h.request
    have h₂ := h'.request
    revert h₁ h₂
    generalize w.mem p = a, w'.mem p = b, w''.mem p = c
    rintro (hab | _) (hbc | _)
    · exact .some (hab.trans hbc)
    · exact .none
  counter := by
    have h₁ := h.counter
    have h₂ := h'.counter
    revert h₁ h₂
    generalize w.mem counter = a, w'.mem counter = b, w''.mem counter = c
    rintro (hab | _) (hbc | _)
    · exact .some ⟨hab.1.trans hbc.1, fun hl => hab.2 (hbc.2 hl)⟩
    · exact .none
  next := h'.next.trans h.next

theorem keeps (h : w.Admits p counter w') : w.mem.Keeps w'.mem := by
  refine h.others.keeps ?_
  rintro q (rfl | rfl) hq
  · exact Mem.isSome_of_rel h.request hq
  · exact Mem.isSome_of_rel h.counter hq

theorem fresh (h : w.Admits p counter w') (hf : w.Fresh) : w'.Fresh := by
  intro q hq
  rw [h.next] at hq
  have hnone := hf q hq
  by_cases hp : q = p
  · subst hp
    exact Mem.none_of_rel h.request hnone
  by_cases hc : q = counter
  · subst hc
    exact Mem.none_of_rel h.counter hnone
  exact Mem.none_of_rel (h.others q (by simp [hp, hc])) hnone

theorem modify_request {f : RequestState ι → RequestState ι}
    (hf : ∀ rs : RequestState ι, rs.Scheduled (f rs)) (hne : counter ≠ p) :
    w.Admits p counter { w with mem := w.mem.modify p f } where
  others := .modify fun hp => absurd (by simp) hp
  request := by
    simp only [Mem.modify_self]
    cases w.mem p <;> simp [hf]
  counter := by
    simp only [Mem.modify_of_ne _ hne]
    exact (refl p counter w).counter
  next := rfl

theorem modify_counter {f : RequestState ι → RequestState ι}
    (hf : ∀ rs : RequestState ι, rs.Scheduled (f rs) ∧ (f rs).locked = rs.locked)
    (hne : counter ≠ p) : w.Admits p counter { w with mem := w.mem.modify counter f } where
  others := .modify fun hp => absurd (by simp) hp
  request := by
    simp only [Mem.modify_of_ne _ hne.symm]
    exact (refl p counter w).request
  counter := by
    simp only [Mem.modify_self]
    cases w.mem counter <;> simp [hf]
  next := rfl

end World.Admits

theorem callAdmit_ok {cfg : Config σ ι} {c : Conn σ ι} {si : SocketInfo} {pi : PvfsInfo}
    {event : DequeueEvent} {size : Int} {w w' : World σ ι} {counter : Addr}
    (hne : counter ≠ si.rs) (h : callAdmit cfg c si pi event size w = .ok w') :
    w.Admits si.rs counter w' := by
  obtain ⟨⟨g, mem, item⟩, hentry, h⟩ := Machine.bind_eq_ok.mp h
  obtain rfl := Machine.pure_eq_ok.mp h
  obtain ⟨hothers, hrequest⟩ := admitRequest_scheduled hentry
  refine ⟨hothers.mono (by simp), hrequest, ?_, rfl⟩
  have hrel := hothers counter (by simpa using hne)
  revert hrel
  simp only
  generalize w.mem counter = a, mem counter = b
  rintro (hab | _)
  · exact .some ⟨hab.scheduled, hab.1⟩
  · exact .none

theorem scheduleRequest_ok {cfg : Config σ ι} {c : Conn σ ι} {p counter : Addr}
    {tag size : Int} {op : PvfsServerOp} {header2 : List UInt8} {w' : World σ ι}
    (hne : counter ≠ p)
    (h : scheduleRequest cfg c p counter tag size op header2 = .ok w') :
    c.w.Admits p counter w' := by
  unfold scheduleRequest at h
  simp only at h
  split at h
  · have htypes : ∀ ioType, c.w.Admits p counter { c.w with
        mem := (c.w.mem.modify p fun rs => { rs with pvfsIoType := ioType }).modify counter
          fun rs => { rs with pvfsIoType := ioType } } := by
      intro ioType
      have hp : c.w.Admits p counter
          { c.w with mem := c.w.mem.modify p fun rs => { rs with pvfsIoType := ioType } } :=
        .modify_request (fun _ => rfl) hne
      exact hp.trans (.modify_counter (fun _ => ⟨rfl, rfl⟩) hne)
    split at h
    · exact (htypes _).trans (callAdmit_ok hne h)
    · split at h
      · split at h
        · cases h
        · have hread : ∀ (w : World σ ι) (size offset : Int), w.Admits p counter { w with
              mem := w.mem.modify p fun rs =>
                { rs with readSize := size, readOffset := offset } } := by
            intro w size offset
            exact .modify_request (fun _ => rfl) hne
          exact (htypes _).trans ((hread _ _ _).trans (callAdmit_ok hne h))
      · obtain rfl := Except.ok.inj h
        exact htypes _
  · split at h
    · exact callAdmit_ok hne h
    · obtain rfl := Except.ok.inj h
      exact .refl _ _ _

/-- The connection when the scheduler is asked about the request `rs` at `p`:
its counter state is the last on the other socket, whose list was `l`. -/
def Conn.requested (cfg : Config σ ι) (c : Conn σ ι) (p : Addr) (rs : RequestState ι)
    (l : List Addr) (tag : Int) (op : PvfsServerOp) : Conn σ ι :=
  { c with
    me := { c.me with incompleteMode := false }
    peer := { c.peer with reqStateData := some (l ++ [c.w.next]) }
    w := { c.w with
      mem := (c.w.mem.modify p fun rs => { rs with op := op }).alloc c.w.next
        { counterState cfg p { rs with op := op } c.w.next with currentTag := toInt32 tag }
      next := c.w.next + 1 } }

theorem newRequest_live {cfg : Config σ ι} {c c' : Conn σ ι} {p : Addr} {tag size : Int}
    {header2 : List UInt8} (h : newRequest cfg c p tag size header2 = .ok c') :
    ∃ rs, c.w.mem p = some rs := by
  obtain ⟨⟨peer, w, counter⟩, hcounter, -⟩ := Machine.bind_eq_ok.mp h
  obtain ⟨l, rs₁, -, hrs₁, -⟩ := createCounterRs_ok hcounter
  simp only [Mem.modify_self, Option.map_eq_some_iff] at hrs₁
  obtain ⟨rs, hrs, -⟩ := hrs₁
  exact ⟨rs, hrs⟩

theorem newRequest_ok {cfg : Config σ ι} {c c' : Conn σ ι} {p : Addr} {tag size : Int}
    {header2 : List UInt8} (h : newRequest cfg c p tag size header2 = .ok c')
    (hne : p ≠ c.w.next) :
    ∃ rs l w, c.w.mem p = some rs ∧ c.peer.reqStateData = some l
      ∧ scheduleRequest cfg (c.requested cfg p rs l tag (pvfsOperation header2)) p c.w.next tag
          size (pvfsOperation header2) header2 = .ok w
      ∧ c' = { c.requested cfg p rs l tag (pvfsOperation header2) with
          w := { w with mem := w.mem.modify p fun rs => { rs with configTag := false } } } := by
  unfold newRequest at h
  obtain ⟨⟨peer, w₁, counter⟩, hcounter, h⟩ := Machine.bind_eq_ok.mp h
  obtain ⟨l, rs₁, hl, hrs₁, rfl, rfl, rfl⟩ := createCounterRs_ok hcounter
  obtain ⟨rs₂, hrs₂, h⟩ := Machine.bind_eq_ok.mp h
  obtain ⟨w, hsched, h⟩ := Machine.bind_eq_ok.mp h
  obtain rfl := Machine.pure_eq_ok.mp h
  simp only [Mem.modify_self, Option.map_eq_some_iff] at hrs₁
  obtain ⟨rs, hrs, rfl⟩ := hrs₁
  have hrs₂ : rs₂ = { rs with op := pvfsOperation header2 } := by
    have := Mem.deref_eq_ok.mp hrs₂
    simp only [Mem.alloc_of_ne _ hne, Mem.modify_self, hrs] at this
    exact (Option.some.inj this).symm
  subst hrs₂
  have hreq : ({ c with
      me := { c.me with incompleteMode := false }
      peer := { c.peer with reqStateData := some (l ++ [c.w.next]) }
      w := { c.w with
        mem := Mem.modify
          ((c.w.mem.modify p fun rs => { rs with op := pvfsOperation header2 }).alloc c.w.next
            (counterState cfg p { rs with op := pvfsOperation header2 } c.w.next)) c.w.next
          fun rs' => { rs' with pvfsIoType := rs.pvfsIoType, lastTag := -1,
                                currentTag := toInt32 tag }
        next := c.w.next + 1 } } : Conn σ ι)
      = c.requested cfg p rs l tag (pvfsOperation header2) := by
    rw [Mem.alloc_modify]
    rfl
  exact ⟨rs, l, w, hrs, hl, hreq ▸ hsched, by rw [← hreq]⟩

theorem clientFlow_ok {c c' : Conn σ ι} {p old : Addr} {tag : Int}
    (h : clientFlow c p old tag = .ok c') :
    ∃ rs original, c.w.mem old = some rs ∧ tag = rs.currentTag
      ∧ rs.originalRequest = some original
      ∧ c' = { c with w := { c.w with
          mem := c.w.mem.modify p fun rs =>
            { rs with
              configTag := false, op := .dataFlow, originalRequest := some original } } } := by
  obtain ⟨rs, hrs, h⟩ := Machine.bind_eq_ok.mp h
  cases horig : rs.originalRequest with
  | none =>
      simp only [horig] at h
      split at h
      · cases h
      · cases h
  | some original =>
      simp only [horig] at h
      split at h
      · cases h
      · rename_i htag
        obtain rfl := Machine.pure_eq_ok.mp h
        exact ⟨rs, original, Mem.deref_eq_ok.mp hrs, by simpa using htag, horig, rfl⟩

/-- The socket with the message it receives next, unless it has one. -/
def SocketState.receiving (me : SocketState) (mem : Mem ι) (tag : Int) : SocketState :=
  { me with
    currentReceiveItem := me.currentReceiveItem.or (findLastRequest mem me (toInt32 tag)) }

/-- The ways a peek at the client's socket can end. -/
inductive CheckedRequest (cfg : Config σ ι) (visible : List UInt8) (c : Conn σ ι) :
    Conn σ ι → Int → Prop where
  /-- not even the header is there -/
  | header (h : getBmiHeader visible ≠ bmiHeaderLength) :
      CheckedRequest cfg visible c c (getBmiHeader visible)
  /-- a message of an operation the server side knows of -/
  | flow {c₁ c₂ : Conn σ ι} {p old : Addr}
      (h : getBmiHeader visible = bmiHeaderLength)
      (hopen : openRequest cfg (bmiTag visible) (bmiSize visible) c = .ok (c₁, p))
      (hold : findRequest c₁.w.mem c₁.peer (toInt32 (bmiTag visible)) = some old)
      (hflow : clientFlow c₁ p old (bmiTag visible) = .ok c₂) (htag : 0 ≤ bmiTag visible) :
      CheckedRequest cfg visible c
        { c₂ with me := c₂.me.receiving c₂.w.mem (bmiTag visible) } 1
  /-- a new request that is not wholly there -/
  | short {c₁ : Conn σ ι} {p : Addr}
      (h : getBmiHeader visible = bmiHeaderLength)
      (hopen : openRequest cfg (bmiTag visible) (bmiSize visible) c = .ok (c₁, p))
      (hold : findRequest c₁.w.mem c₁.peer (toInt32 (bmiTag visible)) = none)
      (hlen : (visible.length : Int) < bmiSize visible + bmiHeaderLength) :
      CheckedRequest cfg visible c { c₁ with me := { c₁.me with incompleteMode := true } } (-3)
  | new {c₁ c₂ : Conn σ ι} {p : Addr}
      (h : getBmiHeader visible = bmiHeaderLength)
      (hopen : openRequest cfg (bmiTag visible) (bmiSize visible) c = .ok (c₁, p))
      (hold : findRequest c₁.w.mem c₁.peer (toInt32 (bmiTag visible)) = none)
      (hlen : ¬ (visible.length : Int) < bmiSize visible + bmiHeaderLength)
      (hnew : newRequest cfg c₁ p (bmiTag visible) (bmiSize visible)
        (visible.take (bmiSize visible + bmiHeaderLength).toNat) = .ok c₂)
      (htag : 0 ≤ bmiTag visible) :
      CheckedRequest cfg visible c
        { c₂ with me := c₂.me.receiving c₂.w.mem (bmiTag visible) } 1

theorem checkRequest_ok {cfg : Config σ ι} {visible : List UInt8} {c c' : Conn σ ι} {ret : Int}
    (h : checkRequest cfg visible c = .ok (c', ret)) : CheckedRequest cfg visible c c' ret := by
  unfold checkRequest at h
  dsimp only at h
  split at h
  · rename_i hheader
    obtain ⟨rfl, rfl⟩ := Prod.mk.inj (Machine.pure_eq_ok.mp h)
    exact .header hheader
  · rename_i hheader
    have hheader : getBmiHeader visible = bmiHeaderLength := by simpa using hheader
    obtain ⟨⟨c₁, p⟩, hopen, h⟩ := Machine.bind_eq_ok.mp h
    cases hold : findRequest c₁.w.mem c₁.peer (toInt32 (bmiTag visible)) with
    | some old =>
        simp only [hold] at h
        obtain ⟨c₂, hflow, h⟩ := Machine.bind_eq_ok.mp h
        obtain ⟨me, hme, h⟩ := Machine.bind_eq_ok.mp h
        obtain ⟨rfl, rfl⟩ := Prod.mk.inj (Machine.pure_eq_ok.mp h)
        obtain ⟨htag, rfl⟩ := updateSocketCurrentReceive_ok hme
        exact .flow hheader hopen hold hflow htag
    | none =>
        simp only [hold] at h
        split at h
        · rename_i hlen
          obtain ⟨rfl, rfl⟩ := Prod.mk.inj (Machine.pure_eq_ok.mp h)
          exact .short hheader hopen hold hlen
        · rename_i hlen
          obtain ⟨c₂, hnew, h⟩ := Machine.bind_eq_ok.mp h
          obtain ⟨me, hme, h⟩ := Machine.bind_eq_ok.mp h
          obtain ⟨rfl, rfl⟩ := Prod.mk.inj (Machine.pure_eq_ok.mp h)
          obtain ⟨htag, rfl⟩ := updateSocketCurrentReceive_ok hme
          exact .new hheader hopen hold hlen hnew htag

end PvfsProxy
