import PvfsProxy.Receiving

/-!
# What an event does to the two sockets

`Conn.Grows` is the effect of the read branch on the sockets of a connection:
they stay the same connection, their lists only grow at the end, and a socket
takes up only messages of the list it belongs to. `Conn.Shrinks` is that of
the write branch, where the states of a retired tag leave both lists.
-/

namespace PvfsProxy

variable {σ ι : Type}

structure Conn.Grows (c c' : Conn σ ι) : Prop where
  index : c'.index = c.index
  pool : c'.pool = c.pool
  me : c.me.SameConnection c'.me
  peer : c.peer.SameConnection c'.peer
  meSend : c'.me.currentSendItem = c.me.currentSendItem
  peerReceive : c'.peer.currentReceiveItem = c.peer.currentReceiveItem
  meReceive : ∀ p, c'.me.currentReceiveItem = some p →
    c.me.currentReceiveItem = some p ∨ p ∈ c'.me.requests
  peerSend : ∀ p, c'.peer.currentSendItem = some p →
    c.peer.currentSendItem = some p ∨ p ∈ c'.me.requests
  next : c.w.next ≤ c'.w.next
  fresh : c'.w.Fresh
  keeps : c.w.mem.Keeps c'.w.mem
  /-- the lists have grown by `l` and `l'`, which are new -/
  lists : ∃ l l', c'.me.requests = c.me.requests ++ l ∧ c'.peer.requests = c.peer.requests ++ l'
    ∧ (l ++ l').Nodup
    ∧ ∀ p ∈ l ++ l', c.w.next ≤ p ∧ p < c'.w.next ∧ (c'.w.mem p).isSome = true

namespace Conn.Grows

variable {c c' c'' : Conn σ ι}

theorem meRequests (h : c.Grows c') : c.me.requests ⊆ c'.me.requests := by
  obtain ⟨l, l', hme, -⟩ := h.lists
  rw [hme]
  exact List.subset_append_left _ _

/-- Sockets as they were but for their modes and current items, and nothing
allocated. -/
theorem of_world {w' : World σ ι} (hnext : w'.next = c.w.next) (hf : w'.Fresh)
    (hkeeps : c.w.mem.Keeps w'.mem) (b : Bool) (o o' : Option Addr)
    (ho : ∀ p, o = some p → c.me.currentReceiveItem = some p ∨ p ∈ c.me.requests)
    (ho' : ∀ p, o' = some p → c.peer.currentSendItem = some p ∨ p ∈ c.me.requests) :
    c.Grows { c with
      w := w'
      me := { c.me with incompleteMode := b, currentReceiveItem := o }
      peer := { c.peer with currentSendItem := o' } } where
  index := rfl
  pool := rfl
  me := ⟨rfl, rfl⟩
  peer := ⟨rfl, rfl⟩
  meSend := rfl
  peerReceive := rfl
  meReceive := ho
  peerSend := ho'
  next := Nat.le_of_eq hnext.symm
  fresh := hf
  keeps := hkeeps
  lists := ⟨[], [], by simp [SocketState.requests], by simp [SocketState.requests], by simp,
    by simp⟩

theorem refl (hf : c.w.Fresh) : c.Grows c :=
  of_world rfl hf (.refl _) _ _ _ (fun _ => .inl) fun _ => .inl

/-- Only the world has changed, and nothing was allocated. -/
theorem of_keeps {w' : World σ ι} (hnext : w'.next = c.w.next) (hf : w'.Fresh)
    (hkeeps : c.w.mem.Keeps w'.mem) : c.Grows { c with w := w' } :=
  of_world hnext hf hkeeps _ _ _ (fun _ => .inl) fun _ => .inl

theorem trans (h : c.Grows c') (h' : c'.Grows c'') : c.Grows c'' where
  index := h'.index.trans h.index
  pool := h'.pool.trans h.pool
  me := h.me.trans h'.me
  peer := h.peer.trans h'.peer
  meSend := h'.meSend.trans h.meSend
  peerReceive := h'.peerReceive.trans h.peerReceive
  meReceive p hp := by
    rcases h'.meReceive p hp with hold | hin
    · exact (h.meReceive p hold).imp id fun hin => h'.meRequests hin
    · exact .inr hin
  peerSend p hp := by
    rcases h'.peerSend p hp with hold | hin
    · exact (h.peerSend p hold).imp id fun hin => h'.meRequests hin
    · exact .inr hin
  next := h.next.trans h'.next
  fresh := h'.fresh
  keeps := h.keeps.trans h'.keeps
  lists := by
    obtain ⟨l₁, l₁', hme₁, hpeer₁, hnd₁, hin₁⟩ := h.lists
    obtain ⟨l₂, l₂', hme₂, hpeer₂, hnd₂, hin₂⟩ := h'.lists
    have hperm : ((l₁ ++ l₂) ++ (l₁' ++ l₂')).Perm ((l₁ ++ l₁') ++ (l₂ ++ l₂')) := by
      simp only [List.append_assoc]
      refine List.Perm.append_left l₁ ?_
      rw [← List.append_assoc, ← List.append_assoc]
      exact List.perm_append_comm.append_right l₂'
    refine ⟨l₁ ++ l₂, l₁' ++ l₂', by rw [hme₂, hme₁, List.append_assoc],
      by rw [hpeer₂, hpeer₁, List.append_assoc], ?_, ?_⟩
    · rw [hperm.nodup_iff, List.nodup_append]
      refine ⟨hnd₁, hnd₂, ?_⟩
      rintro p hp _ hq rfl
      exact absurd (hin₂ p hq).1 (Nat.not_le_of_lt (hin₁ p hp).2.1)
    · intro p hp
      rcases List.mem_append.mp (hperm.mem_iff.mp hp) with hp | hp
      · obtain ⟨hlo, hhi, hlive⟩ := hin₁ p hp
        exact ⟨hlo, Nat.lt_of_lt_of_le hhi h'.next, h'.keeps p hlive⟩
      · obtain ⟨hlo, hhi, hlive⟩ := hin₂ p hp
        exact ⟨h.next.trans hlo, hhi, hlive⟩

/-- A new state at the end of the list of the socket at hand. -/
theorem opened (hf : c.w.Fresh) {l : List Addr} (hl : c.me.reqStateData = some l)
    (rs : RequestState ι) : c.Grows (c.opened l rs) where
  index := rfl
  pool := rfl
  me := ⟨by simp [Conn.opened, hl], rfl⟩
  peer := .refl _
  meSend := rfl
  peerReceive := rfl
  meReceive _ hp := .inl hp
  peerSend _ hp := .inl hp
  next := Nat.le_succ _
  fresh := hf.alloc rs
  keeps := .alloc _ _ _
  lists := ⟨[c.w.next], [], by simp [Conn.opened, SocketState.requests, hl],
    by simp [Conn.opened], by simp, by simp [Conn.opened, Mem.alloc_self]⟩

theorem openRequest {cfg : Config σ ι} {tag size : Int} {p : Addr} (hf : c.w.Fresh)
    (h : openRequest cfg tag size c = .ok (c', p)) : c.Grows c' := by
  obtain ⟨-, -, rfl⟩ | ⟨-, rfl, l, hl, rfl⟩ := openRequest_ok h
  · exact .refl hf
  · exact .opened hf hl _

theorem clientFlow {p old : Addr} {tag : Int} (hf : c.w.Fresh)
    (h : clientFlow c p old tag = .ok c') : c.Grows c' := by
  obtain ⟨rs, original, -, -, -, rfl⟩ := clientFlow_ok h
  exact .of_keeps rfl (hf.modify _ _) (.modify _ _ _)

/-- A new state at the end of the other list. -/
theorem requested (hf : c.w.Fresh) {l : List Addr} (hl : c.peer.reqStateData = some l)
    (cfg : Config σ ι) (p : Addr) (rs : RequestState ι) (tag : Int) (op : PvfsServerOp) :
    c.Grows (c.requested cfg p rs l tag op) where
  index := rfl
  pool := rfl
  me := ⟨rfl, rfl⟩
  peer := ⟨by simp [Conn.requested, hl], rfl⟩
  meSend := rfl
  peerReceive := rfl
  meReceive _ hp := .inl hp
  peerSend _ hp := .inl hp
  next := Nat.le_succ _
  fresh := (hf.modify p fun rs => { rs with op := op }).alloc _
  keeps := (Mem.Keeps.modify _ _ _).trans (.alloc _ _ _)
  lists := ⟨[], [c.w.next], by simp [Conn.requested, SocketState.requests],
    by simp [Conn.requested, SocketState.requests, hl], by simp,
    by simp [Conn.requested, Mem.alloc_self]⟩

theorem newRequest {cfg : Config σ ι} {p : Addr} {tag size : Int} {header2 : List UInt8}
    (hf : c.w.Fresh) (h : newRequest cfg c p tag size header2 = .ok c') : c.Grows c' := by
  obtain ⟨rs, hp⟩ := newRequest_live h
  have hne := hf.ne_next hp
  obtain ⟨rs', l, w, -, hl, hsched, rfl⟩ := newRequest_ok h hne
  have hreq := requested hf hl cfg p rs' tag (pvfsOperation header2)
  have hadmits := scheduleRequest_ok (Ne.symm hne) hsched
  have hw : w.Fresh := hadmits.fresh hreq.fresh
  refine hreq.trans (of_keeps hadmits.next (hw.modify p _) ?_)
  exact hadmits.keeps.trans (.modify _ _ _)

/-- The socket at hand takes up a message of its own list. -/
theorem receiving (hf : c.w.Fresh) (tag : Int) :
    c.Grows { c with me := c.me.receiving c.w.mem tag } :=
  of_world rfl hf (.refl _) _ _ _
    (fun p hp => by
      rcases Option.or_eq_some_iff.mp hp with hold | ⟨-, hlast⟩
      · exact .inl hold
      · exact .inr (findLastRequest_mem hlast).1)
    fun _ => .inl

theorem incomplete (hf : c.w.Fresh) (b : Bool) :
    c.Grows { c with me := { c.me with incompleteMode := b } } :=
  of_world rfl hf (.refl _) _ _ _ (fun _ => .inl) fun _ => .inl

theorem checkRequest {cfg : Config σ ι} {visible : List UInt8} {ret : Int} (hf : c.w.Fresh)
    (h : CheckedRequest cfg visible c c' ret) : c.Grows c' := by
  cases h with
  | header h => exact .refl hf
  | flow h hopen hold hflow htag =>
      have h₁ := openRequest hf hopen
      have h₂ := h₁.trans (clientFlow h₁.fresh hflow)
      exact h₂.trans (receiving h₂.fresh _)
  | short h hopen hold hlen =>
      have h₁ := openRequest hf hopen
      exact h₁.trans (incomplete h₁.fresh _)
  | new h hopen hold hlen hnew htag =>
      have h₁ := openRequest hf hopen
      have h₂ := h₁.trans (newRequest h₁.fresh hnew)
      exact h₂.trans (receiving h₂.fresh _)

theorem openedResponse {cfg : Config σ ι} {tag size ret : Int} {p : Option Addr}
    (hf : c.w.Fresh) (h : OpenedResponse cfg tag size c c' p ret) : c.Grows c' := by
  cases h with
  | counter hp hrs hjob => exact .of_keeps rfl (hf.modify _ _) (.modify _ _ _)
  | seen hp hrs hjob hread hinc hq => exact .refl hf
  | flow hp hrs hjob hread hinc hl horiginal horiginalRs => exact .opened hf hl _
  | completion hp hrs hjob hread hq hrequest hio hl => exact .opened hf hl _

theorem newResponse {cfg : Config σ ι} {p : Addr} {tag : Int} {header2 : List UInt8}
    (hf : c.w.Fresh) (h : newResponse cfg p tag header2 c = .ok c') : c.Grows c' := by
  obtain ⟨w', eof, rfl, -, hmarks⟩ := newResponse_ok h
  exact of_world hmarks.next (hmarks.fresh hf) hmarks.keeps _ _ _ (fun _ => .inl) fun _ => .inl

theorem checkResponse {cfg : Config σ ι} {visible : List UInt8} {ret : Int} (hf : c.w.Fresh)
    (h : CheckedResponse cfg visible c c' ret) : c.Grows c' := by
  cases h with
  | flow h hopen htag =>
      have h₁ := openedResponse hf hopen
      exact h₁.trans (receiving h₁.fresh _)
  | short h hopen hlen htag =>
      have h₁ := openedResponse hf hopen
      have h₂ := h₁.trans (incomplete h₁.fresh true)
      exact h₂.trans (receiving h₂.fresh _)
  | new h hopen hlen hnew htag =>
      have h₁ := openedResponse hf hopen
      have h₂ := h₁.trans (newResponse h₁.fresh hnew)
      exact h₂.trans (receiving h₂.fresh _)

theorem peeked {cfg : Config σ ι} {visible : List UInt8} {ret : Int} (hf : c.w.Fresh)
    (h : Peeked cfg visible c c' ret) : c.Grows c' := by
  cases h with
  | request hsource h => exact checkRequest hf h
  | response hsource h => exact checkResponse hf h

theorem took (hf : c.w.Fresh) (p : Addr) (got : List UInt8) : c.Grows (c.took p got) :=
  .of_keeps rfl (hf.modify _ _) (.modify _ _ _)

theorem messageComplete {cfg : Config σ ι} {tail : Int} {p : Addr} (hf : c.w.Fresh)
    (h : messageComplete cfg tail p c = .ok c') : c.Grows c' := by
  obtain ⟨rs, buffer, last, w', -, -, -, rfl, hmarks⟩ := messageComplete_ok h
  exact of_world hmarks.next (hmarks.fresh hf) hmarks.keeps _ none _ (fun _ hp => by cases hp)
    fun _ => .inl

/-- The other socket takes up a message of this one's list. -/
theorem woken (hf : c.w.Fresh) : c.Grows c.woken := by
  unfold Conn.woken
  obtain hsame | ⟨-, p, rs, hp, -, -, -, hnext⟩ := updateSocketCurrentSend_cases c.w.mem c.peer c.me
  · rw [hsame]
    exact .refl hf
  · rw [hnext]
    exact of_world rfl hf (.refl _) _ _ (some p) (fun _ => .inl)
      fun q hq => .inr (Option.some.inj hq ▸ hp)

end Conn.Grows

/-- The connection a read left behind. -/
def ReadOutcome.conn : ReadOutcome σ ι → Conn σ ι
  | .again c => c
  | .received c _ => c
  | .closed c => c

theorem Received.grows {cfg : Config σ ι} {incoming : Incoming} {p : Addr} {c : Conn σ ι}
    {outcome : ReadOutcome σ ι} (hf : c.w.Fresh) (h : Received cfg incoming p c outcome) :
    c.Grows outcome.conn := by
  cases h with
  | closed hrs hroom hnone hended => exact .refl hf
  | @part rs got hrs hroom hgot hne hjob hpart =>
      have h₁ := Conn.Grows.took hf p got
      exact h₁.trans (.woken h₁.fresh)
  | @whole rs got c₁ hrs hroom hgot hne hjob hwhole hcomplete =>
      have h₁ := Conn.Grows.took hf p got
      have h₂ := h₁.trans (.messageComplete h₁.fresh hcomplete)
      exact h₂.trans (.woken h₂.fresh)

theorem ReadStep.grows {cfg : Config σ ι} {incoming : Incoming} {c : Conn σ ι}
    {outcome : ReadOutcome σ ι} (hf : c.w.Fresh) (h : ReadStep cfg incoming c outcome) :
    c.Grows outcome.conn := by
  cases h with
  | more hp h => exact h.grows hf
  | closed hp hpeek hnone hended => exact .peeked hf hpeek
  | again hp hpeek hret => exact .peeked hf hpeek
  | first hp hpeek hret hp₁ h =>
      have h₁ := Conn.Grows.peeked hf hpeek
      exact h₁.trans (h.grows h₁.fresh)

/-! ## The write branch -/

/-- The states `gone` have left the lists. -/
structure Conn.Shrinks (gone : Addr → Bool) (c c' : Conn σ ι) : Prop where
  index : c'.index = c.index
  pool : c'.pool = c.pool
  me : c.me.SameConnection c'.me
  peer : c.peer.SameConnection c'.peer
  meRequests : ∀ p ∈ c.me.requests, gone p = false → p ∈ c'.me.requests
  peerRequests : ∀ p ∈ c.peer.requests, gone p = false → p ∈ c'.peer.requests
  meReceive : c'.me.currentReceiveItem = c.me.currentReceiveItem
  peerReceive : c'.peer.currentReceiveItem = c.peer.currentReceiveItem
  peerSend : c'.peer.currentSendItem = c.peer.currentSendItem
  meSublist : c'.me.requests.Sublist c.me.requests
  peerSublist : c'.peer.requests.Sublist c.peer.requests
  next : c'.w.next = c.w.next
  fresh : c.w.Fresh → c'.w.Fresh
  /-- what is on neither list is not freed -/
  keeps : ∀ p, (c.w.mem p).isSome = true → p ∉ c.me.requests → p ∉ c.peer.requests →
    (c'.w.mem p).isSome = true
  /-- nor is what stays on one, as long as they share nothing -/
  live : List.Disjoint c.me.requests c.peer.requests →
    ∀ p, p ∈ c'.me.requests ∨ p ∈ c'.peer.requests → (c.w.mem p).isSome = true →
      (c'.w.mem p).isSome = true

/-- The tag `clean_up_request_state` is called for when `send` takes `sent` bytes. -/
def Conn.retiredTag (c : Conn σ ι) (sent : Nat) : Option Int :=
  (c.me.currentSendItem.bind c.w.mem).bind fun rs =>
    if rs.configTag = false ∧ rs.bufferTail - rs.bufferHead = sent
        ∧ rs.bufferSize = rs.bufferHead + sent ∧ rs.Retires then some rs.currentTag
    else none

/-- The states that leave with it. -/
def Conn.retired (c : Conn σ ι) (sent : Nat) (p : Addr) : Bool :=
  (c.retiredTag sent).any fun tag => hasTag c.w.mem tag p

@[simp] theorem cleanUpRequests_requests (tag : Int) (s : SocketState) (mem : Mem ι) :
    (cleanUpRequests tag s mem).1.requests = s.requests.filter fun p => !hasTag mem tag p := by
  unfold cleanUpRequests SocketState.requests
  cases s.reqStateData <;> rfl

theorem cleanUpRequests_same (tag : Int) (s : SocketState) (mem : Mem ι) :
    s.SameConnection (cleanUpRequests tag s mem).1 := by
  unfold cleanUpRequests
  exact ⟨by simp, rfl⟩

theorem free_foldl (l : List Addr) (mem : Mem ι) (p : Addr) :
    l.foldl Mem.free mem p = if p ∈ l then none else mem p := by
  induction l generalizing mem with
  | nil => simp
  | cons q l ih =>
      rw [List.foldl_cons, ih]
      by_cases hpl : p ∈ l
      · simp [hpl]
      · by_cases hpq : p = q
        · simp [hpq, Mem.free]
        · simp [hpl, hpq, Mem.free]

theorem cleanUpRequests_mem (tag : Int) (s : SocketState) (mem : Mem ι) (p : Addr) :
    (cleanUpRequests tag s mem).2 p
      = if p ∈ s.requests ∧ hasTag mem tag p = true then none else mem p := by
  unfold cleanUpRequests
  simp only [free_foldl, List.mem_filter]

theorem cleanUpRequestState_mem (tag : Int) (c : Conn σ ι) (p : Addr) :
    (cleanUpRequestState tag c).w.mem p
      = if (p ∈ c.me.requests ∨ p ∈ c.peer.requests) ∧ hasTag c.w.mem tag p = true then none
        else c.w.mem p := by
  unfold cleanUpRequestState
  simp only [cleanUpRequests_mem]
  have htag : hasTag (cleanUpRequests tag c.me c.w.mem).2 tag p = true →
      hasTag c.w.mem tag p = true := by
    unfold hasTag
    rw [cleanUpRequests_mem]
    split
    · intro h; cases h
    · exact id
  by_cases hp : hasTag c.w.mem tag p = true
  · by_cases hme : p ∈ c.me.requests
    · simp [hp, hme]
    · have hsame : hasTag (cleanUpRequests tag c.me c.w.mem).2 tag p = true := by
        unfold hasTag
        rw [cleanUpRequests_mem, if_neg (by simp [hme])]
        exact hp
      simp [hp, hme, hsame]
  · have hoff : ¬ hasTag (cleanUpRequests tag c.me c.w.mem).2 tag p = true := fun h => hp (htag h)
    simp [hp, hoff]

theorem cleanUpRequests_hasTag_le {tag tag' : Int} {s : SocketState} {mem : Mem ι} {p : Addr}
    (h : hasTag (cleanUpRequests tag s mem).2 tag' p = true) : hasTag mem tag' p = true := by
  unfold hasTag at h ⊢
  rw [cleanUpRequests_mem] at h
  split at h
  · cases h
  · exact h

/-- The socket that is done takes a message of the other one's list. -/
theorem Conn.next_cases (c : Conn σ ι) :
    c.next = { c with me := { c.me with currentSendItem := none } }
      ∨ ∃ p rs, p ∈ c.peer.requests ∧ c.w.mem p = some rs
          ∧ rs.bufferTail - rs.bufferHead ≠ 0 ∧ rs.locked = false
          ∧ c.next = { c with me := { c.me with currentSendItem := some p } } := by
  unfold Conn.next
  obtain hsame | ⟨-, p, rs, hp, hrs, hne, hlocked, hnext⟩ :=
    updateSocketCurrentSend_cases c.w.mem { c.me with currentSendItem := none } c.peer
  · rw [hsame]
    exact .inl rfl
  · rw [hnext]
    exact .inr ⟨p, rs, hp, hrs, hne, hlocked, rfl⟩

namespace Conn.Shrinks

variable {gone : Addr → Bool} {c c' : Conn σ ι}

/-- A write that retires nothing leaves the lists alone. -/
theorem of_modify (gone : Addr → Bool) (c : Conn σ ι) (p : Addr)
    (f : RequestState ι → RequestState ι) :
    c.Shrinks gone { c with w := { c.w with mem := c.w.mem.modify p f } } where
  index := rfl
  pool := rfl
  me := .refl _
  peer := .refl _
  meRequests _ hq _ := hq
  peerRequests _ hq _ := hq
  meReceive := rfl
  peerReceive := rfl
  peerSend := rfl
  meSublist := .refl _
  peerSublist := .refl _
  next := rfl
  fresh hf := hf.modify p f
  keeps q hq _ _ := Mem.Keeps.modify _ _ _ q hq
  live _ q _ hq := Mem.Keeps.modify _ _ _ q hq

theorem refl (gone : Addr → Bool) (c : Conn σ ι) : c.Shrinks gone c where
  index := rfl
  pool := rfl
  me := .refl _
  peer := .refl _
  meRequests _ hq _ := hq
  peerRequests _ hq _ := hq
  meReceive := rfl
  peerReceive := rfl
  peerSend := rfl
  meSublist := .refl _
  peerSublist := .refl _
  next := rfl
  fresh := id
  keeps _ hq _ _ := hq
  live _ _ _ hq := hq

theorem next_message (h : c.Shrinks gone c') : c.Shrinks gone c'.next := by
  have hsend : ∀ o, c.Shrinks gone { c' with me := { c'.me with currentSendItem := o } } :=
    fun o => { h with me := h.me.trans ⟨rfl, rfl⟩ }
  obtain hnext | ⟨p, rs, -, -, -, -, hnext⟩ := c'.next_cases
  · rw [hnext]
    exact hsend none
  · rw [hnext]
    exact hsend (some p)

theorem cleanUp {tag : Int} (hgone : ∀ q, hasTag c.w.mem tag q = gone q) :
    c.Shrinks gone (cleanUpRequestState tag c) where
  index := rfl
  pool := rfl
  me := cleanUpRequests_same _ _ _
  peer := cleanUpRequests_same _ _ _
  meRequests q hq hkeep := by
    rw [← hgone] at hkeep
    unfold cleanUpRequestState
    simp only [cleanUpRequests_requests, List.mem_filter, hkeep]
    exact ⟨hq, rfl⟩
  peerRequests q hq hkeep := by
    rw [← hgone] at hkeep
    unfold cleanUpRequestState
    simp only [cleanUpRequests_requests, List.mem_filter, Bool.not_eq_true']
    refine ⟨hq, ?_⟩
    by_contra hin
    rw [Bool.not_eq_false] at hin
    rw [cleanUpRequests_hasTag_le hin] at hkeep
    cases hkeep
  meReceive := rfl
  peerReceive := rfl
  peerSend := rfl
  meSublist := by
    unfold cleanUpRequestState
    simp only [cleanUpRequests_requests]
    exact List.filter_sublist
  peerSublist := by
    unfold cleanUpRequestState
    simp only [cleanUpRequests_requests]
    exact List.filter_sublist
  next := rfl
  fresh hf q hq := by
    rw [cleanUpRequestState_mem]
    split
    · rfl
    · exact hf q hq
  keeps q hq hme hpeer := by
    rw [cleanUpRequestState_mem, if_neg (by simp [hme, hpeer])]
    exact hq
  live hdis q hq hlive := by
    rw [cleanUpRequestState_mem, if_neg]
    · exact hlive
    rintro ⟨-, htag⟩
    unfold cleanUpRequestState at hq
    simp only [cleanUpRequests_requests, List.mem_filter, Bool.not_eq_true'] at hq
    rcases hq with ⟨-, hno⟩ | ⟨hpeer, hno⟩
    · rw [htag] at hno
      cases hno
    · have hsame : hasTag (cleanUpRequests tag c.me c.w.mem).2 tag q = hasTag c.w.mem tag q := by
        unfold hasTag
        rw [cleanUpRequests_mem, if_neg fun h => hdis h.1 hpeer]
      rw [hsame, htag] at hno
      cases hno

end Conn.Shrinks

namespace WriteStep

variable {sent : Nat} {c c' : Conn σ ι} {bytes : List UInt8}

theorem shrinks (h : WriteStep sent c c' bytes) : c.Shrinks (c.retired sent) c' := by
  cases h with
  | config hp hrs hconfig => exact .refl _ c
  | part hp hrs hconfig hpos hle hpart => exact .of_modify _ c _ _
  | whole hp hrs hconfig hpos hall hmark => exact (Conn.Shrinks.of_modify _ c _ _).next_message
  | @last p rs hp hrs hconfig hpos hall hmark =>
      have hgone : ∀ q, hasTag (c.gave p (rs.bufferHead + sent)).w.mem rs.currentTag q
          = c.retired sent q := by
        intro q
        have hgave : hasTag (c.gave p (rs.bufferHead + sent)).w.mem rs.currentTag
            = hasTag c.w.mem rs.currentTag := hasTag_modify (by intro _; rfl) _
        rw [hgave]
        simp [Conn.retired, Conn.retiredTag, hp, hrs, hconfig, hall.1, hall.2, hmark]
      have hclean := Conn.Shrinks.cleanUp hgone
      have hgave := Mem.Keeps.modify c.w.mem p fun rs' =>
        { rs' with bufferHead := rs.bufferHead + sent }
      have hfirst : c.Shrinks (c.retired sent)
          (cleanUpRequestState rs.currentTag (c.gave p (rs.bufferHead + sent))) :=
        { hclean with
          fresh := fun hf => hclean.fresh (hf.modify _ _)
          keeps := fun q hq => hclean.keeps q (hgave q hq)
          live := fun hdis q hin hq => hclean.live hdis q hin (hgave q hq) }
      exact hfirst.next_message

/-- The states of the retired tag are on neither list any more. -/
theorem left (h : WriteStep sent c c' bytes) (hdis : List.Disjoint c.me.requests c.peer.requests)
    {p : Addr} (hp : c.retired sent p = true) : p ∉ c'.me.requests ∧ p ∉ c'.peer.requests := by
  have hsame : ∀ {c₁ : Conn σ ι}, c₁.next.me.requests = c₁.me.requests
      ∧ c₁.next.peer.requests = c₁.peer.requests := by
    intro c₁
    obtain hnext | ⟨q, rs, -, -, -, -, hnext⟩ := c₁.next_cases
    · rw [hnext]
      exact ⟨rfl, rfl⟩
    · rw [hnext]
      exact ⟨rfl, rfl⟩
  cases h with
  | config hq hrs hconfig => simp [Conn.retired, Conn.retiredTag, hq, hrs, hconfig] at hp
  | @part q rs hq hrs hconfig hpos hle hpart =>
      have hnot : ¬ (rs.bufferTail - rs.bufferHead = sent ∧ rs.bufferSize = rs.bufferHead + sent
          ∧ rs.Retires) := fun h => hpart ⟨h.1, h.2.1⟩
      simp [Conn.retired, Conn.retiredTag, hq, hrs, hnot] at hp
  | whole hq hrs hconfig hpos hall hmark =>
      simp [Conn.retired, Conn.retiredTag, hq, hrs, hmark] at hp
  | @last q rs hq hrs hconfig hpos hall hmark =>
      have hgave : hasTag (c.gave q (rs.bufferHead + sent)).w.mem rs.currentTag
          = hasTag c.w.mem rs.currentTag := hasTag_modify (by intro _; rfl) _
      have htag : hasTag (c.gave q (rs.bufferHead + sent)).w.mem rs.currentTag p = true := by
        rw [hgave]
        simpa [Conn.retired, Conn.retiredTag, hq, hrs, hconfig, hall.1, hall.2, hmark] using hp
      rw [hsame.1, hsame.2]
      unfold cleanUpRequestState
      simp only [cleanUpRequests_requests, List.mem_filter, Bool.not_eq_true']
      constructor
      · rintro ⟨-, hoff⟩
        rw [htag] at hoff
        cases hoff
      rintro ⟨hpeer, hoff⟩
      -- not freed with the first list, so the tag is still seen
      have hme : p ∉ (c.gave q (rs.bufferHead + sent)).me.requests := fun hin => hdis hin hpeer
      unfold hasTag at htag hoff
      rw [cleanUpRequests_mem, if_neg fun hin => hme hin.1, htag] at hoff
      cases hoff

/-- What the socket sends next is of the other one's list, unless it goes on
with its message. -/
theorem sends (h : WriteStep sent c c' bytes) {p : Addr} (hp : c'.me.currentSendItem = some p) :
    (c.me.currentSendItem = some p ∧ c.retiredTag sent = none) ∨ p ∈ c'.peer.requests := by
  have hnext : ∀ {c₁ : Conn σ ι}, c₁.next.me.currentSendItem = some p →
      p ∈ c₁.next.peer.requests := by
    intro c₁ hp
    obtain hidle | ⟨q, rs, hq, -, -, -, hsend⟩ := c₁.next_cases
    · rw [hidle] at hp
      cases hp
    · rw [hsend] at hp ⊢
      exact Option.some.inj hp ▸ hq
  cases h with
  | config hq hrs hconfig =>
      exact .inl ⟨hp, by simp [Conn.retiredTag, hq, hrs, hconfig]⟩
  | @part q rs hq hrs hconfig hpos hle hpart =>
      have hnot : ¬ (rs.bufferTail - rs.bufferHead = sent ∧ rs.bufferSize = rs.bufferHead + sent
          ∧ rs.Retires) := fun h => hpart ⟨h.1, h.2.1⟩
      exact .inl ⟨hp, by simp [Conn.retiredTag, hq, hrs, hnot]⟩
  | whole hq hrs hconfig hpos hall hmark => exact .inr (hnext hp)
  | last hq hrs hconfig hpos hall hmark => exact .inr (hnext hp)

end WriteStep

/-! ## Ownership -/

/-- The lists of a connection share nothing, and what is on them is allocated. -/
structure Conn.Owned (c : Conn σ ι) : Prop where
  fresh : c.w.Fresh
  nodup : (c.me.requests ++ c.peer.requests).Nodup
  live : ∀ p ∈ c.me.requests ++ c.peer.requests, (c.w.mem p).isSome = true

theorem World.Fresh.lt_next {w : World σ ι} (hf : w.Fresh) {p : Addr}
    (hp : (w.mem p).isSome = true) : p < w.next := by
  by_contra hle
  rw [hf p (Nat.le_of_not_lt hle)] at hp
  cases hp

/-- What an event may do to a connection that owns its states. -/
structure Conn.Effect (c c' : Conn σ ι) : Prop where
  index : c'.index = c.index
  me : c.me.SameConnection c'.me
  peer : c.peer.SameConnection c'.peer
  owned : c'.Owned
  next : c.w.next ≤ c'.w.next
  others : ∀ p, (c.w.mem p).isSome = true → p ∉ c.me.requests ++ c.peer.requests →
    (c'.w.mem p).isSome = true
  new : ∀ p ∈ c'.me.requests ++ c'.peer.requests,
    p ∈ c.me.requests ++ c.peer.requests ∨ c.w.next ≤ p

theorem Conn.Grows.effect {c c' : Conn σ ι} (hc : c.Owned) (h : c.Grows c') : c.Effect c' := by
  obtain ⟨l, l', hme, hpeer, hnd, hnew⟩ := h.lists
  have hperm : (c'.me.requests ++ c'.peer.requests).Perm
      ((c.me.requests ++ c.peer.requests) ++ (l ++ l')) := by
    rw [hme, hpeer]
    simp only [List.append_assoc]
    refine List.Perm.append_left _ ?_
    rw [← List.append_assoc, ← List.append_assoc]
    exact List.perm_append_comm.append_right l'
  have hsplit : ∀ p ∈ c'.me.requests ++ c'.peer.requests,
      p ∈ c.me.requests ++ c.peer.requests ∨ p ∈ l ++ l' := fun p hp =>
    List.mem_append.mp (hperm.mem_iff.mp hp)
  exact
    { index := h.index
      me := h.me
      peer := h.peer
      next := h.next
      others := fun p hp _ => h.keeps p hp
      new := fun p hp => (hsplit p hp).imp id fun hp => (hnew p hp).1
      owned :=
        { fresh := h.fresh
          nodup := by
            rw [hperm.nodup_iff, List.nodup_append]
            refine ⟨hc.nodup, hnd, ?_⟩
            rintro p hp _ hq rfl
            exact absurd (hnew p hq).1 (Nat.not_le_of_lt (hc.fresh.lt_next (hc.live p hp)))
          live := fun p hp => by
            rcases hsplit p hp with hold | hin
            · exact h.keeps p (hc.live p hold)
            · exact (hnew p hin).2.2 } }

theorem Conn.Shrinks.effect {gone : Addr → Bool} {c c' : Conn σ ι} (hc : c.Owned)
    (h : c.Shrinks gone c') : c.Effect c' := by
  have hsub : (c'.me.requests ++ c'.peer.requests).Sublist (c.me.requests ++ c.peer.requests) :=
    h.meSublist.append h.peerSublist
  have hdis : List.Disjoint c.me.requests c.peer.requests :=
    List.disjoint_of_nodup_append hc.nodup
  exact
    { index := h.index
      me := h.me
      peer := h.peer
      next := Nat.le_of_eq h.next.symm
      others := fun p hp hno => by
        rw [List.mem_append, not_or] at hno
        exact h.keeps p hp hno.1 hno.2
      new := fun p hp => .inl (hsub.subset hp)
      owned :=
        { fresh := h.fresh hc.fresh
          nodup := hc.nodup.sublist hsub
          live := fun p hp =>
            h.live hdis p (List.mem_append.mp hp) (hc.live p (hsub.subset hp)) } }

end PvfsProxy
