import PvfsProxy.Responses

/-!
# What the read and the write branch do

`receive` takes bytes of one message; when it was the last of them,
`messageComplete` rewrites a configuration and tells the scheduler about
flows (`Completed`). `ReadStep` and `WriteStep` are the two branches of the
main loop as a whole.
-/

namespace PvfsProxy

variable {σ ι : Type}

/-! ## A complete message -/

theorem callCompletion_ok {cfg : Config σ ι} {owner : Addr} {size ret : Int}
    {w w' : World σ ι} (h : callCompletion cfg owner size w = .ok (w', ret)) :
    ∃ rs out, w.mem owner = some rs
      ∧ cfg.method.schUpdateOnRequestCompletion
          { currentItem := rs.currentItem, completeSize := size } w.g = .ok out
      ∧ ret = out.ret.2
      ∧ w' = { w with
        g := out.globals
        mem := (unlockAll out.unlocked w.mem).modify owner fun rs =>
          { rs with currentItem := out.ret.1 } } := by
  obtain ⟨rs, hrs, h⟩ := Machine.bind_eq_ok.mp h
  obtain ⟨out, hout, h⟩ := Machine.bind_eq_ok.mp h
  obtain ⟨rfl, rfl⟩ := Prod.mk.inj (Machine.pure_eq_ok.mp h)
  exact ⟨rs, out, Mem.deref_eq_ok.mp hrs, hout, rfl, rfl⟩

/-- The completion hook reports that the flow `rs` is the last of its read. -/
def ReportsLast (cfg : Config σ ι) (w : World σ ι) (rs : RequestState ι) : Prop :=
  ∃ original originalRs out, rs.originalRequest = some original
    ∧ w.mem original = some originalRs
    ∧ cfg.method.schUpdateOnRequestCompletion
        { currentItem := originalRs.currentItem
          completeSize := rs.completedSize - bmiHeaderLength } w.g = .ok out
    ∧ 0 < out.ret.2

theorem writeFlowReceived_ok {cfg : Config σ ι} {rs : RequestState ι} {w w' : World σ ι}
    (h : writeFlowReceived cfg rs w = .ok w') : w.Rescheduled w' := by
  unfold writeFlowReceived at h
  split at h
  · cases h
  · obtain ⟨⟨w₁, _⟩, hcompletion, h⟩ := Machine.bind_eq_ok.mp h
    obtain rfl := Machine.pure_eq_ok.mp h
    exact callCompletion_rescheduled hcompletion

theorem readFlowReceived_ok {cfg : Config σ ι} {app : Nat} {p : Addr} {rs : RequestState ι}
    {w w' : World σ ι} (h : readFlowReceived cfg app p rs w = .ok w') :
    ∃ last : Bool,
      (last = true ↔ ReportsLast cfg w rs ∧ cfg.method.schSelfDispatch = false)
      ∧ w.Marks p (fun rs => { rs with lastFlow := rs.lastFlow || last }) w' := by
  unfold readFlowReceived at h
  cases horiginal : rs.originalRequest with
  | none => simp [horiginal, throw, throwThe, MonadExceptOf.throw] at h
  | some original =>
      simp only [horiginal] at h
      obtain ⟨⟨w₁, ret⟩, hcompletion, h⟩ := Machine.bind_eq_ok.mp h
      have hw₁ := callCompletion_rescheduled hcompletion
      obtain ⟨originalRs, out, hrs, hout, rfl, -⟩ := callCompletion_ok hcompletion
      have hreports : ReportsLast cfg w rs ↔ 0 < out.ret.2 := by
        constructor
        · rintro ⟨original', rs', out', h₁, h₂, h₃, hpos⟩
          rw [horiginal] at h₁
          obtain rfl := Option.some.inj h₁
          rw [hrs] at h₂
          obtain rfl := Option.some.inj h₂
          rw [hout] at h₃
          obtain rfl := Except.ok.inj h₃
          exact hpos
        · intro hpos
          exact ⟨original, originalRs, out, horiginal, hrs, hout, hpos⟩
      rw [hreports]
      dsimp only at h
      split at h
      · rename_i hlast
        refine ⟨true, by simpa using hlast, ?_⟩
        obtain ⟨originalRs', _, h⟩ := Machine.bind_eq_ok.mp h
        obtain ⟨w₂, hthroughput, h⟩ := Machine.bind_eq_ok.mp h
        obtain ⟨⟨w₃, _⟩, hdequeue, h⟩ := Machine.bind_eq_ok.mp h
        obtain rfl := Machine.pure_eq_ok.mp h
        have hmark := hw₁.marks.trans
          (World.Marks.modify p (fun rs => { rs with lastFlow := true }) w₁)
          fun hr => ⟨hr.1, by rw [hr.2]⟩
        have hnote : ∀ w : World σ ι, w.Rescheduled { w with
            mem := w.mem.modify original fun rs =>
              { rs with checkResponseCompletion := true, lastCompletion := out.ret.2 } } :=
          fun w => ⟨.modify fun _ rs _ => ⟨id, rfl⟩, rfl⟩
        have hcount : ∀ w : World σ ι,
            w.Rescheduled (countPassed cfg app (countCompleted app w)) :=
          fun w => (countCompleted_rescheduled app w).trans (countPassed_rescheduled cfg app _)
        have hcalls := (countThroughput_rescheduled callDequeueUnchecked_rescheduled
          hthroughput).trans (callDequeue_rescheduled hdequeue)
        refine (hmark.rescheduled ((hnote _).trans ((hcount _).trans hcalls))).congr
          fun rs => ?_
        simp
      · rename_i hlast
        split at h
        · cases h
        · obtain rfl := Machine.pure_eq_ok.mp h
          refine ⟨false, by simpa using hlast, ?_⟩
          simp only [Bool.or_false]
          exact hw₁.marks

theorem flowReceived_ok {cfg : Config σ ι} {p : Addr} {rs : RequestState ι} {c : Conn σ ι}
    {w' : World σ ι} (h : flowReceived cfg p rs c = .ok w') :
    ∃ last : Bool,
      (last = true ↔ cfg.schedulerOn = true ∧ rs.op = .dataFlow ∧ c.me.source = .server
        ∧ ReportsLast cfg c.w rs ∧ cfg.method.schSelfDispatch = false)
      ∧ c.w.Marks p (fun rs => { rs with lastFlow := rs.lastFlow || last }) w' := by
  unfold flowReceived at h
  split at h
  · rename_i hflow
    have hflow : cfg.schedulerOn = true ∧ rs.op = .dataFlow := by simpa using hflow
    split at h
    · rename_i hclient
      refine ⟨false, by simp [hclient], ?_⟩
      simp only [Bool.or_false]
      exact (writeFlowReceived_ok h).marks
    · rename_i hserver
      obtain ⟨last, hlast, hmarks⟩ := readFlowReceived_ok h
      exact ⟨last, by simpa [hflow, hserver] using hlast, hmarks⟩
  · rename_i hflow
    obtain rfl := Except.ok.inj h
    refine ⟨false, ?_, ?_⟩
    · simp only [Bool.false_eq_true, false_iff]
      rintro ⟨hon, hop, -⟩
      exact hflow (by simp [hon, hop])
    · simp only [Bool.or_false]
      exact (World.Rescheduled.refl c.w).marks

theorem modify_eq_self {mem : Mem ι} {p : Addr} {f : RequestState ι → RequestState ι}
    (h : ∀ rs, mem p = some rs → f rs = rs) : mem.modify p f = mem := by
  unfold Mem.modify
  rw [Function.update_eq_self_iff]
  cases hrs : mem p with
  | none => rfl
  | some rs => simp [h rs hrs]

/-- The buffer of a complete message: a configuration is rewritten behind the
place where the last `recv` wrote, anything else is left alone. -/
def RewrittenBuffer (tail : Int) (rs : RequestState ι) (buffer : List UInt8) : Prop :=
  (rs.configTag = false → buffer = rs.buffer)
    ∧ (rs.configTag = true → ∃ text, changePort (rs.buffer.drop (tail + 52).toNat) = .ok text
        ∧ buffer = rs.buffer.take (tail + 52).toNat ++ text)

theorem rewriteConfig_ok {tail : Int} {p : Addr} {w w' : World σ ι}
    (h : rewriteConfig tail p w = .ok w') :
    ∃ rs buffer, w.mem p = some rs ∧ RewrittenBuffer tail rs buffer
      ∧ w' = { w with
          mem := w.mem.modify p fun rs => { rs with configTag := false, buffer := buffer } } := by
  obtain ⟨rs, hrs, h⟩ := Machine.bind_eq_ok.mp h
  have hrs := Mem.deref_eq_ok.mp hrs
  split at h
  · rename_i hconfig
    obtain ⟨text, htext, h⟩ := Machine.bind_eq_ok.mp h
    obtain rfl := Machine.pure_eq_ok.mp h
    refine ⟨rs, rs.buffer.take (tail + 52).toNat ++ text, hrs,
      ⟨by simp [hconfig], fun _ => ⟨text, htext, rfl⟩⟩, ?_⟩
    unfold Mem.modify
    simp [hrs]
  · rename_i hconfig
    obtain rfl := Machine.pure_eq_ok.mp h
    have hconfig : rs.configTag = false := by simpa using hconfig
    refine ⟨rs, rs.buffer, hrs, ⟨fun _ => rfl, by simp [hconfig]⟩, ?_⟩
    rw [modify_eq_self]
    intro rs' hrs'
    rw [hrs] at hrs'
    obtain rfl := Option.some.inj hrs'
    rw [← hconfig]

theorem reportsLast_modify {cfg : Config σ ι} {w : World σ ι} {p : Addr}
    {f : RequestState ι → RequestState ι} {rs rs' : RequestState ι}
    (hf : ∀ rs, (f rs).currentItem = rs.currentItem)
    (horiginal : rs'.originalRequest = rs.originalRequest)
    (hsize : rs'.completedSize = rs.completedSize) :
    ReportsLast cfg { w with mem := w.mem.modify p f } rs' ↔ ReportsLast cfg w rs := by
  unfold ReportsLast
  rw [horiginal, hsize]
  refine exists_congr fun original => ?_
  constructor
  · rintro ⟨ors, out, ho, hrs, hout, hpos⟩
    by_cases hq : original = p
    · subst hq
      simp only [Mem.modify_self, Option.map_eq_some_iff] at hrs
      obtain ⟨rs₀, hrs₀, rfl⟩ := hrs
      exact ⟨rs₀, out, ho, hrs₀, hf rs₀ ▸ hout, hpos⟩
    · simp only [Mem.modify_of_ne _ hq] at hrs
      exact ⟨ors, out, ho, hrs, hout, hpos⟩
  · rintro ⟨ors, out, ho, hrs, hout, hpos⟩
    by_cases hq : original = p
    · subst hq
      exact ⟨f ors, out, ho, by simp [Mem.modify_self, hrs], (hf ors).symm ▸ hout, hpos⟩
    · exact ⟨ors, out, ho, by simpa only [Mem.modify_of_ne _ hq] using hrs, hout, hpos⟩

/-- Is the message `rs` that has just been completed the last of a read? -/
def CompletesRead (cfg : Config σ ι) (rs : RequestState ι) (c : Conn σ ι) : Prop :=
  cfg.schedulerOn = true ∧ rs.op = .dataFlow ∧ c.me.source = .server
    ∧ ReportsLast cfg c.w rs ∧ cfg.method.schSelfDispatch = false

theorem messageComplete_ok {cfg : Config σ ι} {tail : Int} {p : Addr} {c c' : Conn σ ι}
    (h : messageComplete cfg tail p c = .ok c') :
    ∃ rs buffer last w', c.w.mem p = some rs ∧ RewrittenBuffer tail rs buffer
      ∧ (last = true ↔ CompletesRead cfg rs c)
      ∧ c' = { c with w := w', me := { c.me with currentReceiveItem := none } }
      ∧ c.w.Marks p (fun rs =>
          { rs with
            configTag := false, buffer := buffer, lastFlow := rs.lastFlow || last }) w' := by
  obtain ⟨w₁, hconfig, h⟩ := Machine.bind_eq_ok.mp h
  obtain ⟨rs, buffer, hrs, hbuffer, rfl⟩ := rewriteConfig_ok hconfig
  obtain ⟨rs₁, hrs₁, h⟩ := Machine.bind_eq_ok.mp h
  obtain ⟨w', hflow, h⟩ := Machine.bind_eq_ok.mp h
  obtain rfl := Machine.pure_eq_ok.mp h
  obtain ⟨last, hlast, hmarks⟩ := flowReceived_ok hflow
  have hrs₁ := Mem.deref_eq_ok.mp hrs₁
  simp only [Mem.modify_self, hrs, Option.map_some, Option.some.injEq] at hrs₁
  subst hrs₁
  refine ⟨rs, buffer, last, w', hrs, hbuffer, ?_, rfl, ?_⟩
  · rw [hlast]
    unfold CompletesRead
    refine and_congr_right fun _ => and_congr_right fun _ => and_congr_right fun _ =>
      and_congr_left fun _ => ?_
    exact reportsLast_modify (fun _ => rfl) rfl rfl
  · have hfirst := World.Marks.modify p
      (fun rs : RequestState ι => { rs with configTag := false, buffer := buffer }) c.w
    exact hfirst.trans hmarks fun hr => ⟨hr.1, by rw [hr.2]⟩

/-! ## The read branch -/

/-- The connection after `got` has been received into the message at `p`. -/
def Conn.took (c : Conn σ ι) (p : Addr) (got : List UInt8) : Conn σ ι :=
  { c with w := { c.w with
      mem := c.w.mem.modify p fun rs =>
        { rs with
          buffer := rs.buffer ++ got
          bufferTail := rs.bufferTail + got.length
          completedSize := rs.completedSize + got.length } } }

/-- The other socket is given something to send. -/
def Conn.woken (c : Conn σ ι) : Conn σ ι :=
  { c with peer := updateSocketCurrentSend c.w.mem c.peer c.me }

/-- The ways a `recv` into the message at `p` can end. -/
inductive Received (cfg : Config σ ι) (incoming : Incoming) (p : Addr) (c : Conn σ ι) :
    ReadOutcome σ ι → Prop where
  | closed {rs : RequestState ι} (hrs : c.w.mem p = some rs)
      (hroom : rs.bufferTail < rs.bufferSize) (hnone : incoming.visible = [])
      (hended : incoming.ended = true) : Received cfg incoming p c (.closed c)
  | part {rs : RequestState ι} {got : List UInt8} (hrs : c.w.mem p = some rs)
      (hroom : rs.bufferTail < rs.bufferSize)
      (hgot : got = incoming.visible.take (rs.bufferSize - rs.bufferTail).toNat)
      (hne : got ≠ []) (hjob : 0 < rs.jobSize)
      (hpart : rs.completedSize + got.length < rs.jobSize) :
      Received cfg incoming p c (.received (c.took p got).woken got.length)
  | whole {rs : RequestState ι} {got : List UInt8} {c₁ : Conn σ ι} (hrs : c.w.mem p = some rs)
      (hroom : rs.bufferTail < rs.bufferSize)
      (hgot : got = incoming.visible.take (rs.bufferSize - rs.bufferTail).toNat)
      (hne : got ≠ []) (hjob : 0 < rs.jobSize)
      (hwhole : rs.completedSize + got.length = rs.jobSize)
      (hcomplete : messageComplete cfg rs.bufferTail p (c.took p got) = .ok c₁) :
      Received cfg incoming p c (.received c₁.woken got.length)

theorem receive_ok {cfg : Config σ ι} {incoming : Incoming} {p : Addr} {c : Conn σ ι}
    {outcome : ReadOutcome σ ι} (h : receive cfg incoming p c = .ok outcome) :
    Received cfg incoming p c outcome := by
  unfold receive at h
  obtain ⟨rs, hrs, h⟩ := Machine.bind_eq_ok.mp h
  have hrs := Mem.deref_eq_ok.mp hrs
  dsimp only at h
  split at h
  · cases h
  · rename_i hroom
    have hroom : rs.bufferTail < rs.bufferSize := by omega
    generalize hgot : incoming.visible.take (rs.bufferSize - rs.bufferTail).toNat = got at h
    split at h
    · rename_i hnil
      have hnil : got = [] := by simpa using hnil
      split at h
      · rename_i hended
        obtain rfl := Machine.pure_eq_ok.mp h
        refine .closed hrs hroom ?_ hended
        rw [hnil, List.take_eq_nil_iff] at hgot
        rcases hgot with hzero | hnone
        · omega
        · exact hnone
      · cases h
    · rename_i hne
      have hne : got ≠ [] := by simpa using hne
      split at h
      · cases h
      · rename_i hjob
        have hjob : 0 < rs.jobSize := by omega
        split at h
        · rename_i hwhole
          obtain ⟨c₁, hcomplete, h⟩ := Machine.bind_eq_ok.mp h
          split at h
          · cases h
          · obtain rfl := Machine.pure_eq_ok.mp h
            exact .whole hrs hroom hgot.symm hne hjob hwhole hcomplete
        · rename_i hpart
          obtain ⟨c₁, hc₁, h⟩ := Machine.bind_eq_ok.mp h
          obtain rfl := Machine.pure_eq_ok.mp hc₁
          split at h
          · cases h
          · obtain rfl := Machine.pure_eq_ok.mp h
            exact .part hrs hroom hgot.symm hne hjob (by omega)

/-- The peek that precedes a new message. -/
inductive Peeked (cfg : Config σ ι) (visible : List UInt8) (c : Conn σ ι) :
    Conn σ ι → Int → Prop where
  | request {c' : Conn σ ι} {ret : Int} (hsource : c.me.source = .client)
      (h : CheckedRequest cfg visible c c' ret) : Peeked cfg visible c c' ret
  | response {c' : Conn σ ι} {ret : Int} (hsource : c.me.source = .server)
      (h : CheckedResponse cfg visible c c' ret) : Peeked cfg visible c c' ret

/-- The ways the read branch can end. -/
inductive ReadStep (cfg : Config σ ι) (incoming : Incoming) (c : Conn σ ι) :
    ReadOutcome σ ι → Prop where
  /-- the message is already being received -/
  | more {p : Addr} {outcome : ReadOutcome σ ι} (hp : c.me.currentReceiveItem = some p)
      (h : Received cfg incoming p c outcome) : ReadStep cfg incoming c outcome
  | closed {c₁ : Conn σ ι} (hp : c.me.currentReceiveItem = none)
      (hpeek : Peeked cfg incoming.peeked c c₁ (-1)) (hnone : incoming.visible = [])
      (hended : incoming.ended = true) : ReadStep cfg incoming c (.closed c₁)
  | again {c₁ : Conn σ ι} {ret : Int} (hp : c.me.currentReceiveItem = none)
      (hpeek : Peeked cfg incoming.peeked c c₁ ret) (hret : ret = -2 ∨ ret = -3) :
      ReadStep cfg incoming c (.again c₁)
  | first {c₁ : Conn σ ι} {ret : Int} {p : Addr} {outcome : ReadOutcome σ ι}
      (hp : c.me.currentReceiveItem = none) (hpeek : Peeked cfg incoming.peeked c c₁ ret)
      (hret : 0 ≤ ret) (hp₁ : c₁.me.currentReceiveItem = some p)
      (h : Received cfg incoming p c₁ outcome) : ReadStep cfg incoming c outcome

/-- What the read branch does once the peek has returned. -/
theorem afterPeek_ok {cfg : Config σ ι} {incoming : Incoming} {c c₁ : Conn σ ι} {ret : Int}
    {outcome : ReadOutcome σ ι} (hnone : c.me.currentReceiveItem = none)
    (hpeek : Peeked cfg incoming.peeked c c₁ ret)
    (h : (if ret = -1 then
        if incoming.visible ≠ [] then throw .nullPointer
        else if incoming.ended then pure (.closed c₁) else throw (.exit (-1))
      else if ret = -2 ∨ ret = -3 then pure (.again c₁)
      else if ret < 0 then throw (.exit (-1))
      else match c₁.me.currentReceiveItem with
        | none => throw .assertion
        | some p => receive cfg incoming p c₁ : Except Fault (ReadOutcome σ ι)) = .ok outcome) :
    ReadStep cfg incoming c outcome := by
  split at h
  · rename_i hret
    subst hret
    split at h
    · cases h
    · rename_i hempty
      split at h
      · rename_i hended
        obtain rfl := Machine.pure_eq_ok.mp h
        exact .closed hnone hpeek (by simpa using hempty) hended
      · cases h
  · split at h
    · rename_i hret
      obtain rfl := Machine.pure_eq_ok.mp h
      exact .again hnone hpeek hret
    · split at h
      · cases h
      · rename_i hret
        split at h
        · cases h
        · rename_i p hp
          exact .first hnone hpeek (by omega) hp (receive_ok h)

theorem readEvent_ok {cfg : Config σ ι} {incoming : Incoming} {c : Conn σ ι}
    {outcome : ReadOutcome σ ι} (h : readEvent cfg incoming c = .ok outcome) :
    ReadStep cfg incoming c outcome := by
  unfold readEvent at h
  split at h
  · rename_i p hp
    exact .more hp (receive_ok h)
  · rename_i hp
    dsimp only at h
    split at h
    · rename_i hsource
      obtain ⟨⟨c₁, ret⟩, hcheck, h⟩ := Machine.bind_eq_ok.mp h
      exact afterPeek_ok hp (.response hsource (checkResponse_ok hcheck)) h
    · rename_i hsource
      obtain ⟨⟨c₁, ret⟩, hcheck, h⟩ := Machine.bind_eq_ok.mp h
      exact afterPeek_ok hp (.request hsource (checkRequest_ok hcheck)) h

/-! ## The write branch -/

/-- The marks that retire the operation when the message has been forwarded. -/
def RequestState.Retires (rs : RequestState ι) : Prop :=
  rs.op = .writeCompletion ∨ rs.lastFlow = true ∨ rs.metaResponse = true

instance (rs : RequestState ι) : Decidable rs.Retires :=
  inferInstanceAs (Decidable (_ ∨ _ ∨ _))

/-- The connection after `send` took the bytes up to `head` of the message at `p`. -/
def Conn.gave (c : Conn σ ι) (p : Addr) (head : Int) : Conn σ ι :=
  { c with w := { c.w with mem := c.w.mem.modify p fun rs => { rs with bufferHead := head } } }

/-- The socket is done with its message and takes the next. -/
def Conn.next (c : Conn σ ι) : Conn σ ι :=
  { c with me := updateSocketCurrentSend c.w.mem { c.me with currentSendItem := none } c.peer }

/-- The ways the write branch can end. -/
inductive WriteStep (sent : Nat) (c : Conn σ ι) : Conn σ ι → List UInt8 → Prop where
  /-- a configuration waits until it has been rewritten -/
  | config {p : Addr} {rs : RequestState ι} (hp : c.me.currentSendItem = some p)
      (hrs : c.w.mem p = some rs) (hconfig : rs.configTag = true) : WriteStep sent c c []
  | part {p : Addr} {rs : RequestState ι} (hp : c.me.currentSendItem = some p)
      (hrs : c.w.mem p = some rs) (hconfig : rs.configTag = false) (hpos : 0 < sent)
      (hle : (sent : Int) ≤ rs.bufferTail - rs.bufferHead)
      (hpart : ¬ (rs.bufferTail - rs.bufferHead = sent ∧ rs.bufferSize = rs.bufferHead + sent)) :
      WriteStep sent c (c.gave p (rs.bufferHead + sent))
        ((rs.buffer.drop rs.bufferHead.toNat).take sent)
  | whole {p : Addr} {rs : RequestState ι} (hp : c.me.currentSendItem = some p)
      (hrs : c.w.mem p = some rs) (hconfig : rs.configTag = false) (hpos : 0 < sent)
      (hall : rs.bufferTail - rs.bufferHead = sent ∧ rs.bufferSize = rs.bufferHead + sent)
      (hmark : ¬ rs.Retires) :
      WriteStep sent c (c.gave p (rs.bufferHead + sent)).next
        ((rs.buffer.drop rs.bufferHead.toNat).take sent)
  | last {p : Addr} {rs : RequestState ι} (hp : c.me.currentSendItem = some p)
      (hrs : c.w.mem p = some rs) (hconfig : rs.configTag = false) (hpos : 0 < sent)
      (hall : rs.bufferTail - rs.bufferHead = sent ∧ rs.bufferSize = rs.bufferHead + sent)
      (hmark : rs.Retires) :
      WriteStep sent c
        (cleanUpRequestState rs.currentTag (c.gave p (rs.bufferHead + sent))).next
        ((rs.buffer.drop rs.bufferHead.toNat).take sent)

theorem writeEvent_ok {sent : Nat} {c c' : Conn σ ι} {bytes : List UInt8}
    (h : writeEvent sent c = .ok (c', bytes)) : WriteStep sent c c' bytes := by
  unfold writeEvent at h
  split at h
  · cases h
  · rename_i p hp
    obtain ⟨rs, hrs, h⟩ := Machine.bind_eq_ok.mp h
    have hrs := Mem.deref_eq_ok.mp hrs
    dsimp only at h
    split at h
    · rename_i hready
      have hconfig : rs.configTag = false := by simpa using hready.2
      split at h
      · cases h
      · rename_i hsent
        rw [not_or] at hsent
        split at h
        · rename_i hall
          obtain ⟨rfl, rfl⟩ := Prod.mk.inj (Machine.pure_eq_ok.mp h)
          split
          · rename_i hmark
            exact .last hp hrs hconfig (by omega) hall hmark
          · rename_i hmark
            exact .whole hp hrs hconfig (by omega) hall hmark
        · rename_i hpart
          obtain ⟨rfl, rfl⟩ := Prod.mk.inj (Machine.pure_eq_ok.mp h)
          exact .part hp hrs hconfig (by omega) (by omega) hpart
    · split at h
      · rename_i hconfig
        obtain ⟨rfl, rfl⟩ := Prod.mk.inj (Machine.pure_eq_ok.mp h)
        exact .config hp hrs hconfig
      · cases h

end PvfsProxy
