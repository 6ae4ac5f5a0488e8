import PvfsProxy.Handlers

/-!
# What a response does

`check_response` in three parts: which state takes the message
(`OpenedResponse`), the marks a wholly visible response is given
(`Responded`), and the peek as a whole (`CheckedResponse`).
-/

namespace PvfsProxy

variable {σ ι : Type}

/-! ## Which state takes the message -/

/-- The state of a flow of the read at `original`. -/
def flowState (cfg : Config σ ι) (tag size : Int) (original : Addr)
    (originalRs : RequestState ι) (p : Addr) : RequestState ι :=
  { responseFields tag size (freshRequest cfg.junk p) with
    lastFlow := false
    configTag := false
    op := .dataFlow
    pvfsIoType := originalRs.pvfsIoType
    locked := false
    originalRequest := some original
    metaResponse := false }

/-- The state of the second response of a write. -/
def completionState (cfg : Config σ ι) (tag size : Int) (p : Addr) : RequestState ι :=
  { responseFields tag size (freshRequest cfg.junk p) with metaResponse := false }

inductive OpenedResponse (cfg : Config σ ι) (tag size : Int) (c : Conn σ ι) :
    Conn σ ι → Option Addr → Int → Prop where
  /-- the first response goes to the counter state -/
  | counter {p : Addr} {rs : RequestState ι}
      (hp : findRequest c.w.mem c.me tag = some p) (hrs : c.w.mem p = some rs)
      (hjob : rs.jobSize ≤ 0) :
      OpenedResponse cfg tag size c
        { c with w := { c.w with mem := c.w.mem.modify p (responseFields tag size) } }
        (some p) bmiHeaderLength
  /-- a flow that was peeked at before -/
  | seen {p q : Addr} {rs : RequestState ι}
      (hp : findRequest c.w.mem c.me tag = some p) (hrs : c.w.mem p = some rs)
      (hjob : 0 < rs.jobSize) (hread : rs.lastTag = tag ∧ rs.pvfsIoType ≠ pvfsIoWrite)
      (hinc : c.me.incompleteMode = true) (hq : findLastRequest c.w.mem c.me tag = some q) :
      OpenedResponse cfg tag size c c none 1
  | flow {p original : Addr} {rs originalRs : RequestState ι} {l : List Addr}
      (hp : findRequest c.w.mem c.me tag = some p) (hrs : c.w.mem p = some rs)
      (hjob : 0 < rs.jobSize) (hread : rs.lastTag = tag ∧ rs.pvfsIoType ≠ pvfsIoWrite)
      (hinc : c.me.incompleteMode = false) (hl : c.me.reqStateData = some l)
      (horiginal : rs.originalRequest = some original)
      (horiginalRs : c.w.mem.alloc c.w.next (freshRequest cfg.junk c.w.next) original
        = some originalRs) :
      OpenedResponse cfg tag size c
        (c.opened l (flowState cfg tag size original originalRs c.w.next)) none 1
  /-- the second response of a write -/
  | completion {p q : Addr} {rs requestRs : RequestState ι} {l : List Addr}
      (hp : findRequest c.w.mem c.me tag = some p) (hrs : c.w.mem p = some rs)
      (hjob : 0 < rs.jobSize) (hread : ¬ (rs.lastTag = tag ∧ rs.pvfsIoType ≠ pvfsIoWrite))
      (hq : findRequest c.w.mem c.peer tag = some q) (hrequest : c.w.mem q = some requestRs)
      (hio : requestRs.op = .io) (hl : c.me.reqStateData = some l) :
      OpenedResponse cfg tag size c
        (c.opened l (completionState cfg tag size c.w.next)) (some c.w.next) 1

theorem serverFlow_ok {cfg : Config σ ι} {response : RequestState ι} {tag size : Int}
    {c c' : Conn σ ι} (h : serverFlow cfg response tag size c = .ok c') :
    (c.me.incompleteMode = true ∧ c' = c ∧ ∃ q, findLastRequest c.w.mem c.me tag = some q)
      ∨ c.me.incompleteMode = false ∧ ∃ l original originalRs, c.me.reqStateData = some l
          ∧ response.originalRequest = some original
          ∧ c.w.mem.alloc c.w.next (freshRequest cfg.junk c.w.next) original = some originalRs
          ∧ c' = c.opened l (flowState cfg tag size original originalRs c.w.next) := by
  unfold serverFlow at h
  split at h
  · rename_i hinc
    split at h
    · cases h
    · rename_i q hq
      obtain rfl := Except.ok.inj h
      exact .inl ⟨hinc, rfl, q, hq⟩
  · rename_i hinc
    obtain ⟨⟨me, w, p⟩, hadd, h⟩ := Machine.bind_eq_ok.mp h
    obtain ⟨l, hl, rfl, rfl, rfl⟩ := addRequestToSocket_ok hadd
    cases horiginal : response.originalRequest with
    | none => simp [horiginal, throw, throwThe, MonadExceptOf.throw] at h
    | some original =>
        simp only [horiginal] at h
        obtain ⟨originalRs, horiginalRs, h⟩ := Machine.bind_eq_ok.mp h
        obtain rfl := Machine.pure_eq_ok.mp h
        refine .inr ⟨by simpa using hinc, l, original, originalRs, hl, rfl,
          Mem.deref_eq_ok.mp horiginalRs, ?_⟩
        rw [Mem.alloc_modify]
        rfl

theorem openResponse_ok {cfg : Config σ ι} {tag size ret : Int} {c c' : Conn σ ι}
    {opened : Option Addr} (h : openResponse cfg tag size c = .ok (c', opened, ret)) :
    OpenedResponse cfg tag size c c' opened ret := by
  unfold openResponse at h
  cases hp : findRequest c.w.mem c.me tag with
  | none => simp [hp, throw, throwThe, MonadExceptOf.throw] at h
  | some p =>
      simp only [hp] at h
      obtain ⟨rs, hrs, h⟩ := Machine.bind_eq_ok.mp h
      have hrs := Mem.deref_eq_ok.mp hrs
      split at h
      · rename_i hjob
        obtain ⟨rfl, hret⟩ := Prod.mk.inj (Machine.pure_eq_ok.mp h)
        obtain ⟨rfl, rfl⟩ := Prod.mk.inj hret
        exact .counter hp hrs hjob
      · rename_i hjob
        have hjob : 0 < rs.jobSize := by omega
        split at h
        · rename_i hread
          obtain ⟨c₁, hflow, h⟩ := Machine.bind_eq_ok.mp h
          obtain ⟨rfl, hret⟩ := Prod.mk.inj (Machine.pure_eq_ok.mp h)
          obtain ⟨rfl, rfl⟩ := Prod.mk.inj hret
          obtain ⟨hinc, rfl, q, hq⟩ | ⟨hinc, l, original, originalRs, hl, ho, hor, rfl⟩ :=
            serverFlow_ok hflow
          · exact .seen hp hrs hjob hread hinc hq
          · exact .flow hp hrs hjob hread hinc hl ho hor
        · rename_i hread
          split at h
          · rename_i hio
            obtain ⟨⟨me, w, p'⟩, hadd, h⟩ := Machine.bind_eq_ok.mp h
            obtain ⟨l, hl, rfl, rfl, rfl⟩ := addRequestToSocket_ok hadd
            obtain ⟨rfl, hret⟩ := Prod.mk.inj (Machine.pure_eq_ok.mp h)
            obtain ⟨rfl, rfl⟩ := Prod.mk.inj hret
            obtain ⟨q, hq, hio⟩ := (Option.any_eq_true _ _).mp hio
            obtain ⟨requestRs, hrequest, hio⟩ := (Option.any_eq_true _ _).mp hio
            rw [Mem.alloc_modify]
            exact .completion hp hrs hjob hread hq hrequest (by simpa using hio) hl
          · cases h

/-! ## The marks of a response -/

/-- The state at `p` is written by `f`, and then nothing but rescheduling. -/
structure World.Marks (p : Addr) (f : RequestState ι → RequestState ι) (w w' : World σ ι) :
    Prop where
  others : w.mem.RescheduledBut {p} w'.mem
  response : Option.Rel (fun rs rs' => (f rs).Rescheduled rs') (w.mem p) (w'.mem p)
  next : w'.next = w.next

namespace World

variable {p : Addr} {f g : RequestState ι → RequestState ι} {w w' w'' : World σ ι}

theorem Rescheduled.marks (h : w.Rescheduled w') : w.Marks p id w' where
  others := h.mem.mono (Set.empty_subset _)
  response := h.mem p (by simp)
  next := h.next

theorem Marks.modify (p : Addr) (f : RequestState ι → RequestState ι) (w : World σ ι) :
    w.Marks p f { w with mem := w.mem.modify p f } where
  others := .modify fun hp => absurd rfl hp
  response := by
    simp only [Mem.modify_self]
    cases w.mem p <;> simp [RequestState.Rescheduled.refl]
  next := rfl

theorem Marks.trans (h : w.Marks p f w') (h' : w'.Marks p g w'')
    (hg : ∀ {rs rs' : RequestState ι}, rs.Rescheduled rs' → (g rs).Rescheduled (g rs')) :
    w.Marks p (g ∘ f) w'' where
  others := h.others.trans h'.others
  response := by
    have h₁ := h.response
    have h₂ := h'.response
    revert h₁ h₂
    generalize w.mem p = a, w'.mem p = b, w''.mem p = c
    rintro (hab | _) (hbc | _)
    · exact .some ((hg hab).trans hbc)
    · exact .none
  next := h'.next.trans h.next

theorem Marks.keeps (h : w.Marks p f w') : w.mem.Keeps w'.mem := by
  refine h.others.keeps ?_
  rintro q rfl hq
  exact Mem.isSome_of_rel h.response hq

theorem Marks.fresh (h : w.Marks p f w') (hf : w.Fresh) : w'.Fresh := by
  intro q hq
  rw [h.next] at hq
  by_cases hp : q = p
  · subst hp
    exact Mem.none_of_rel h.response (hf q hq)
  · exact Mem.none_of_rel (h.others q (by simpa using hp)) (hf q hq)

theorem Marks.congr (h : w.Marks p f w') (hfg : ∀ rs, f rs = g rs) : w.Marks p g w' :=
  funext hfg ▸ h

theorem Marks.rescheduled (h : w.Marks p f w') (h' : w'.Rescheduled w'') : w.Marks p f w'' :=
  h.trans h'.marks id

end World

/-- `sch_current_size` reports that the file ends before the read. -/
def EndOfFile (cfg : Config σ ι) (mem : Mem ι) (peer : SocketState) (tag actual : Int) : Prop :=
  ∃ request rs hook item, findRequest mem peer tag = some request ∧ mem request = some rs
    ∧ cfg.method.schCurrentSize = some hook ∧ hook rs.currentItem actual = .ok (item, 0)

theorem callCurrentSize_ok {cfg : Config σ ι} {owner : Addr} {actual size : Int}
    {w w' : World σ ι} (h : callCurrentSize cfg owner actual w = .ok (w', size)) :
    ∃ rs hook item, w.mem owner = some rs ∧ cfg.method.schCurrentSize = some hook
      ∧ hook rs.currentItem actual = .ok (item, size)
      ∧ w' = { w with mem := w.mem.modify owner fun rs => { rs with currentItem := item } } := by
  obtain ⟨rs, hrs, h⟩ := Machine.bind_eq_ok.mp h
  split at h
  · cases h
  · rename_i hook hhook
    obtain ⟨⟨item, size'⟩, hcall, h⟩ := Machine.bind_eq_ok.mp h
    obtain ⟨rfl, rfl⟩ := Prod.mk.inj (Machine.pure_eq_ok.mp h)
    exact ⟨rs, hook, item, Mem.deref_eq_ok.mp hrs, hhook, hcall, rfl⟩

/-- A read response marks its state when the file ends. -/
theorem readResponse_ok {cfg : Config σ ι} {p : Addr} {tag : Int} {header2 : List UInt8}
    {c : Conn σ ι} {w' : World σ ι} (h : readResponse cfg p tag header2 c = .ok w') :
    ∃ eof : Bool,
      (eof = true ↔ EndOfFile cfg c.w.mem c.peer tag (outputParam header2 40 8))
      ∧ c.w.Marks p (fun rs => { rs with lastFlow := rs.lastFlow || eof }) w' := by
  unfold readResponse at h
  cases hrequest : findRequest c.w.mem c.peer tag with
  | none => simp [hrequest, throw, throwThe, MonadExceptOf.throw] at h
  | some request =>
      simp only [hrequest] at h
      obtain ⟨requestRs, hrs, h⟩ := Machine.bind_eq_ok.mp h
      obtain ⟨⟨w₁, currentSize⟩, hsize, h⟩ := Machine.bind_eq_ok.mp h
      have hw₁ := callCurrentSize_rescheduled hsize
      obtain ⟨rs, hook, item, hrs', hhook, hcall, -⟩ := callCurrentSize_ok hsize
      dsimp only at h
      split at h
      · rename_i hne
        obtain rfl := Machine.pure_eq_ok.mp h
        refine ⟨false, ?_, ?_⟩
        · simp only [Bool.false_eq_true, false_iff]
          rintro ⟨request', rs', hook', item', h₁, h₂, h₃, h₄⟩
          rw [hrequest] at h₁
          obtain rfl := Option.some.inj h₁
          rw [hrs'] at h₂
          obtain rfl := Option.some.inj h₂
          rw [hhook] at h₃
          obtain rfl := Option.some.inj h₃
          rw [hcall] at h₄
          exact hne (Prod.mk.inj (Except.ok.inj h₄)).2
        · simp only [Bool.or_false]
          exact hw₁.marks
      · rename_i heq
        have heq : currentSize = 0 := by simpa using heq
        subst heq
        refine ⟨true, by simpa using ⟨request, rs, hook, item, hrequest, hrs', hhook, hcall⟩, ?_⟩
        obtain ⟨⟨w₂, _⟩, hsize₂, h⟩ := Machine.bind_eq_ok.mp h
        obtain ⟨⟨w₃, _⟩, hcompletion, h⟩ := Machine.bind_eq_ok.mp h
        obtain ⟨requestRs', _, h⟩ := Machine.bind_eq_ok.mp h
        obtain ⟨⟨w₄, _⟩, hdequeue, h⟩ := Machine.bind_eq_ok.mp h
        obtain rfl := Machine.pure_eq_ok.mp h
        have hlast := hw₁.marks.trans (World.Marks.modify p (fun rs => { rs with lastFlow := true })
          w₁) fun hr => ⟨hr.1, by rw [hr.2]⟩
        have hcalls := (callCurrentSize_rescheduled hsize₂).trans
          (callCompletion_rescheduled hcompletion)
        have hnote : w₃.Rescheduled { w₃ with
            mem := w₃.mem.modify request fun rs =>
              { rs with checkResponseCompletion := true, lastCompletion := 1 } } :=
          ⟨.modify fun _ rs _ => ⟨id, rfl⟩, rfl⟩
        have hcount := ((countCompleted_rescheduled c.peer.appIndex _).trans
          (countPassed_rescheduled cfg c.peer.appIndex _)).trans
          (callDequeue_rescheduled hdequeue)
        have hall := hlast.rescheduled ((hcalls.trans hnote).trans hcount)
        have hf : (fun rs : RequestState ι => { rs with lastFlow := rs.lastFlow || true })
            = (fun rs => { rs with lastFlow := true }) ∘ id := by
          funext rs
          simp
        rw [hf]
        exact hall

theorem writeCompletion_ok {cfg : Config σ ι} {p : Addr} {tag size : Int} {c : Conn σ ι}
    {w' : World σ ι} (h : writeCompletion cfg p tag size c = .ok w') :
    c.w.Marks p (fun rs => { rs with op := .writeCompletion }) w' := by
  unfold writeCompletion at h
  dsimp only at h
  have hop := World.Marks.modify p (fun rs => { rs with op := .writeCompletion }) c.w
  split at h
  · cases h
  · obtain ⟨requestRs, _, h⟩ := Machine.bind_eq_ok.mp h
    obtain ⟨w₁, hthroughput, h⟩ := Machine.bind_eq_ok.mp h
    obtain ⟨⟨w₂, _⟩, hdequeue, h⟩ := Machine.bind_eq_ok.mp h
    obtain rfl := Machine.pure_eq_ok.mp h
    have hcount := (countCompleted_rescheduled c.peer.appIndex
      { c.w with mem := c.w.mem.modify p fun rs => { rs with op := .writeCompletion } }).trans
      (countPassed_rescheduled cfg c.peer.appIndex _)
    have hcalls := (countThroughput_rescheduled callDequeue_rescheduled hthroughput).trans
      (callDequeue_rescheduled hdequeue)
    exact hop.rescheduled (hcount.trans hcalls)

theorem smallIoSelfDispatch_ok {cfg : Config σ ι} {tag : Int} {c : Conn σ ι} {w' : World σ ι}
    (h : smallIoSelfDispatch cfg tag c = .ok w') : c.w.Rescheduled w' := by
  unfold smallIoSelfDispatch at h
  split at h
  · cases h
  · obtain ⟨⟨w₁, _⟩, hcompletion, h⟩ := Machine.bind_eq_ok.mp h
    obtain rfl := Machine.pure_eq_ok.mp h
    exact callCompletion_rescheduled hcompletion

theorem metaCompletion_ok {cfg : Config σ ι} {tag : Int} {c : Conn σ ι} {w' : World σ ι}
    (h : metaCompletion cfg tag c = .ok w') : c.w.Rescheduled w' := by
  unfold metaCompletion at h
  dsimp only at h
  split at h
  · cases h
  · obtain ⟨⟨w₁, _⟩, hcompletion, h⟩ := Machine.bind_eq_ok.mp h
    obtain ⟨requestRs, _, h⟩ := Machine.bind_eq_ok.mp h
    obtain ⟨⟨w₂, _⟩, hdequeue, h⟩ := Machine.bind_eq_ok.mp h
    obtain rfl := Machine.pure_eq_ok.mp h
    have hcount := countCompleted_rescheduled c.peer.appIndex c.w
    exact ((hcount.trans (callCompletion_rescheduled hcompletion)).trans
      (callDequeue_rescheduled hdequeue)).trans (countPassed_rescheduled cfg c.peer.appIndex _)

/-- The operation a response state is left with. -/
def responseOp (cfg : Config σ ι) (operation : PvfsServerOp) : PvfsServerOp :=
  if (operation = .writeCompletion ∨ operation = .smallIo)
      ∧ cfg.schedulerOn = true ∧ cfg.method.schSelfDispatch = false then .writeCompletion
  else operation

/-- The marks of a wholly visible response. -/
def responseMarks (cfg : Config σ ι) (operation : PvfsServerOp) (eof : Bool)
    (rs : RequestState ι) : RequestState ι :=
  { rs with
    op := responseOp cfg operation
    metaResponse := rs.metaResponse
      || !decide (operation = .io ∨ operation = .writeCompletion ∨ operation = .smallIo)
    configTag := operation == .getconfig
    lastFlow := rs.lastFlow || eof }

theorem dumpResponse_eq_none {header : List UInt8} {op : PvfsServerOp}
    (hw : op ≠ .writeCompletion) (hs : op ≠ .smallIo) : dumpResponse header op = none := by
  unfold dumpResponse
  split
  · exact absurd rfl hw
  · exact absurd rfl hs
  · rfl

theorem findRequest_modify (mem : Mem ι) (s : SocketState) (tag : Int) (p : Addr)
    {f : RequestState ι → RequestState ι} (hf : ∀ rs, (f rs).currentTag = rs.currentTag) :
    findRequest (mem.modify p f) s tag = findRequest mem s tag := by
  unfold findRequest
  rw [hasTag_modify hf]

theorem endOfFile_modify {cfg : Config σ ι} {mem : Mem ι} {peer : SocketState}
    {tag actual : Int} {p : Addr} {f : RequestState ι → RequestState ι}
    (hf : ∀ rs, (f rs).currentTag = rs.currentTag ∧ (f rs).currentItem = rs.currentItem) :
    EndOfFile cfg (mem.modify p f) peer tag actual ↔ EndOfFile cfg mem peer tag actual := by
  unfold EndOfFile
  rw [findRequest_modify mem peer tag p fun rs => (hf rs).1]
  refine exists_congr fun request => ?_
  constructor
  · rintro ⟨rs, hook, item, hreq, hrs, hhook, hcall⟩
    by_cases hq : request = p
    · subst hq
      rw [Mem.modify_self] at hrs
      obtain ⟨rs₀, hrs₀, rfl⟩ := Option.map_eq_some_iff.mp hrs
      exact ⟨rs₀, hook, item, hreq, hrs₀, hhook, (hf rs₀).2 ▸ hcall⟩
    · rw [Mem.modify_of_ne _ hq] at hrs
      exact ⟨rs, hook, item, hreq, hrs, hhook, hcall⟩
  · rintro ⟨rs, hook, item, hreq, hrs, hhook, hcall⟩
    by_cases hq : request = p
    · subst hq
      refine ⟨f rs, hook, item, hreq, ?_, hhook, (hf rs).2.symm ▸ hcall⟩
      rw [Mem.modify_self, hrs]
      rfl
    · refine ⟨rs, hook, item, hreq, ?_, hhook, hcall⟩
      rw [Mem.modify_of_ne _ hq]
      exact hrs

/-- Does the response at `p` report the end of the file to the scheduler? -/
def ReadsPastEnd (cfg : Config σ ι) (p : Addr) (tag : Int) (header2 : List UInt8)
    (c : Conn σ ι) : Prop :=
  pvfsOperation header2 = .io ∧ (∃ rs, c.w.mem p = some rs ∧ rs.pvfsIoType = pvfsIoRead)
    ∧ cfg.schedulerOn = true ∧ EndOfFile cfg c.w.mem c.peer tag (outputParam header2 40 8)

theorem responseSize_ok {cfg : Config σ ι} {p : Addr} {tag : Int} {header2 : List UInt8}
    {operation : PvfsServerOp} {c : Conn σ ι} {w' : World σ ι}
    (h : responseSize cfg p tag header2 operation c = .ok w') :
    c.w.Marks p (fun rs =>
      if (operation = .writeCompletion ∨ operation = .smallIo)
          ∧ cfg.schedulerOn = true ∧ cfg.method.schSelfDispatch = false then
        { rs with op := .writeCompletion }
      else rs) w' := by
  unfold responseSize at h
  split at h
  · rename_i size hsize
    have hop : operation = .writeCompletion ∨ operation = .smallIo := by
      by_contra hne
      rw [not_or] at hne
      rw [dumpResponse_eq_none hne.1 hne.2] at hsize
      cases hsize
    split at h
    · rename_i hon
      refine (writeCompletion_ok h).congr fun rs => ?_
      rw [if_pos ⟨hop, by simpa using hon⟩]
    · rename_i hoff
      have hoff : ¬ ((operation = .writeCompletion ∨ operation = .smallIo)
          ∧ cfg.schedulerOn = true ∧ cfg.method.schSelfDispatch = false) := by
        simpa [hop] using hoff
      simp only [if_neg hoff]
      split at h
      · exact (smallIoSelfDispatch_ok h).marks
      · obtain rfl := Except.ok.inj h
        exact (World.Rescheduled.refl c.w).marks
  · rename_i hnone
    obtain rfl := Except.ok.inj h
    have hop : ¬ (operation = .writeCompletion ∨ operation = .smallIo) := by
      rintro (rfl | rfl)
      · simp [dumpResponse] at hnone
      · simp [dumpResponse] at hnone
    simp only [hop, false_and, if_false]
    exact (World.Rescheduled.refl c.w).marks

theorem responseMeta_ok {cfg : Config σ ι} {tag : Int} {operation : PvfsServerOp}
    {c : Conn σ ι} {w' : World σ ι} (h : responseMeta cfg tag operation c = .ok w') :
    c.w.Rescheduled w' := by
  unfold responseMeta at h
  split at h
  · exact metaCompletion_ok h
  · obtain rfl := Except.ok.inj h
    exact .refl c.w

theorem responseRead_ok {cfg : Config σ ι} {p : Addr} {tag ioType : Int}
    {header2 : List UInt8} {operation : PvfsServerOp} {c : Conn σ ι} {w' : World σ ι}
    (h : responseRead cfg p tag header2 operation ioType c = .ok w') :
    ∃ eof : Bool,
      (eof = true ↔ operation = .io ∧ ioType = pvfsIoRead ∧ cfg.schedulerOn = true
        ∧ EndOfFile cfg c.w.mem c.peer tag (outputParam header2 40 8))
      ∧ c.w.Marks p (fun rs => { rs with lastFlow := rs.lastFlow || eof }) w' := by
  unfold responseRead at h
  split at h
  · rename_i hread
    obtain ⟨eof, heof, hmarks⟩ := readResponse_ok h
    exact ⟨eof, by simpa [hread] using heof, hmarks⟩
  · rename_i hread
    obtain rfl := Except.ok.inj h
    refine ⟨false, by simp only [Bool.false_eq_true, false_iff]; tauto, ?_⟩
    simp only [Bool.or_false]
    exact (World.Rescheduled.refl c.w).marks

/-- A wholly visible response gets its marks, and the scheduler is told. -/
theorem newResponse_ok {cfg : Config σ ι} {p : Addr} {tag : Int} {header2 : List UInt8}
    {c c' : Conn σ ι} (h : newResponse cfg p tag header2 c = .ok c') :
    ∃ w' eof, c' = { c with me := { c.me with incompleteMode := false }, w := w' }
      ∧ (eof = true ↔ ReadsPastEnd cfg p tag header2 c)
      ∧ c.w.Marks p (responseMarks cfg (pvfsOperation header2) eof) w' := by
  unfold newResponse at h
  unfold ReadsPastEnd
  dsimp only at h
  generalize pvfsOperation header2 = operation at h ⊢
  have hmarks := World.Marks.modify p (fun rs =>
    { rs with
      op := operation
      metaResponse := rs.metaResponse
        || !decide (operation = .io ∨ operation = .writeCompletion ∨ operation = .smallIo)
      configTag := operation == .getconfig }) c.w
  split at h
  · rename_i hget
    subst hget
    obtain rfl := Machine.pure_eq_ok.mp h
    refine ⟨_, false, rfl, by simp, ?_⟩
    exact hmarks.congr fun rs => by simp [responseMarks, responseOp]
  · obtain ⟨response, hresponse, h⟩ := Machine.bind_eq_ok.mp h
    obtain ⟨w₁, hread, h⟩ := Machine.bind_eq_ok.mp h
    obtain ⟨w₂, hsize, h⟩ := Machine.bind_eq_ok.mp h
    obtain ⟨w₃, hmeta, h⟩ := Machine.bind_eq_ok.mp h
    obtain rfl := Machine.pure_eq_ok.mp h
    obtain ⟨eof, heof, hread⟩ := responseRead_ok hread
    refine ⟨w₃, eof, rfl, ?_, ?_⟩
    · have hresponse := Mem.deref_eq_ok.mp hresponse
      simp only [Mem.modify_self, Option.map_eq_some_iff] at hresponse
      obtain ⟨rs, hrs, rfl⟩ := hresponse
      refine heof.trans (and_congr_right fun _ => and_congr ?_ (and_congr_right fun _ => ?_))
      · simp [hrs]
      · exact endOfFile_modify fun _ => ⟨rfl, rfl⟩
    · have hlast := hmarks.trans hread fun hr => ⟨hr.1, by rw [hr.2]⟩
      have hop := hlast.trans (responseSize_ok hsize) fun hr => by
        split
        · exact ⟨hr.1, by rw [hr.2]⟩
        · exact hr
      refine (hop.rescheduled (responseMeta_ok hmeta)).congr fun rs => ?_
      simp only [Function.comp_apply, responseMarks, responseOp]
      split <;> rfl

/-! ## The peek as a whole -/

/-- The ways a peek at the server's socket can end. -/
inductive CheckedResponse (cfg : Config σ ι) (visible : List UInt8) (c : Conn σ ι) :
    Conn σ ι → Int → Prop where
  /-- a flow of a read; how much of it is there does not matter -/
  | flow {c₁ : Conn σ ι} {ret : Int} (h : getBmiHeader visible = bmiHeaderLength)
      (hopen : OpenedResponse cfg (toInt32 (bmiTag visible)) (bmiSize visible) c c₁ none ret)
      (htag : 0 ≤ toInt32 (bmiTag visible)) :
      CheckedResponse cfg visible c
        { c₁ with me := c₁.me.receiving c₁.w.mem (toInt32 (bmiTag visible)) } ret
  /-- a new response that is not wholly there is received all the same -/
  | short {c₁ : Conn σ ι} {p : Addr} {ret : Int} (h : getBmiHeader visible = bmiHeaderLength)
      (hopen : OpenedResponse cfg (toInt32 (bmiTag visible)) (bmiSize visible) c c₁ (some p) ret)
      (hlen : (visible.length : Int) < bmiSize visible + bmiHeaderLength)
      (htag : 0 ≤ toInt32 (bmiTag visible)) :
      CheckedResponse cfg visible c
        { c₁ with
          me := SocketState.receiving { c₁.me with incompleteMode := true } c₁.w.mem
            (toInt32 (bmiTag visible)) } ret
  | new {c₁ c₂ : Conn σ ι} {p : Addr} {ret : Int} (h : getBmiHeader visible = bmiHeaderLength)
      (hopen : OpenedResponse cfg (toInt32 (bmiTag visible)) (bmiSize visible) c c₁ (some p) ret)
      (hlen : ¬ (visible.length : Int) < bmiSize visible + bmiHeaderLength)
      (hnew : newResponse cfg p (toInt32 (bmiTag visible))
        (visible.take (bmiSize visible + bmiHeaderLength).toNat) c₁ = .ok c₂)
      (htag : 0 ≤ toInt32 (bmiTag visible)) :
      CheckedResponse cfg visible c
        { c₂ with me := c₂.me.receiving c₂.w.mem (toInt32 (bmiTag visible)) } ret

theorem checkResponse_ok {cfg : Config σ ι} {visible : List UInt8} {c c' : Conn σ ι}
    {ret : Int} (h : checkResponse cfg visible c = .ok (c', ret)) :
    CheckedResponse cfg visible c c' ret := by
  unfold checkResponse at h
  dsimp only at h
  split at h
  · cases h
  · rename_i hheader
    have hheader : getBmiHeader visible = bmiHeaderLength := by simpa using hheader
    obtain ⟨⟨c₁, opened, ret₁⟩, hopen, h⟩ := Machine.bind_eq_ok.mp h
    have hopen := openResponse_ok hopen
    cases opened with
    | none =>
        obtain ⟨c₂, hc₂, h⟩ := Machine.bind_eq_ok.mp h
        obtain rfl := Machine.pure_eq_ok.mp hc₂
        obtain ⟨me, hme, h⟩ := Machine.bind_eq_ok.mp h
        obtain ⟨rfl, rfl⟩ := Prod.mk.inj (Machine.pure_eq_ok.mp h)
        obtain ⟨htag, rfl⟩ := updateSocketCurrentReceive_ok hme
        exact .flow hheader hopen htag
    | some p =>
        dsimp only at h
        split at h
        · rename_i hlen
          obtain ⟨c₂, hc₂, h⟩ := Machine.bind_eq_ok.mp h
          obtain rfl := Machine.pure_eq_ok.mp hc₂
          obtain ⟨me, hme, h⟩ := Machine.bind_eq_ok.mp h
          obtain ⟨rfl, rfl⟩ := Prod.mk.inj (Machine.pure_eq_ok.mp h)
          obtain ⟨htag, rfl⟩ := updateSocketCurrentReceive_ok hme
          have hshort := CheckedResponse.short hheader hopen hlen htag
          exact hshort
        · rename_i hlen
          obtain ⟨c₂, hnew, h⟩ := Machine.bind_eq_ok.mp h
          obtain ⟨me, hme, h⟩ := Machine.bind_eq_ok.mp h
          obtain ⟨rfl, rfl⟩ := Prod.mk.inj (Machine.pure_eq_ok.mp h)
          obtain ⟨htag, rfl⟩ := updateSocketCurrentReceive_ok hme
          exact .new hheader hopen hlen hnew htag

end PvfsProxy
