import PvfsProxy.HookCalls
import PvfsProxy.Sockets

/-!
# Which requests have an item

A request that was passed to `sch_enqueue` has an item once the server has seen
a byte of it: it is sent only while it is not locked, and then it was released
with one. `Attended` says so of the two sockets of a connection, together with
what is needed of the messages being sent and received and of the states that
flows belong to. `World.Tends` is what an event on another connection does to
them (`Attended.frame`); the rest are the changes of one connection, one lemma
each.
-/

namespace PvfsProxy

variable {σ ι : Type}

/-- Does `check_request` pass the operation to `sch_enqueue`? -/
def Enqueues (cfg : Config σ ι) (op : PvfsServerOp) (ioType : Int) : Prop :=
  cfg.schedulerOn = true ∧ (op = .io ∧ (ioType = pvfsIoRead ∨ ioType = pvfsIoWrite)
    ∨ op = .smallIo ∨ cfg.method.schAcceptMeta = true ∧ isMeta op = true)

instance (cfg : Config σ ι) (op : PvfsServerOp) (ioType : Int) :
    Decidable (Enqueues cfg op ioType) :=
  inferInstanceAs (Decidable (_ ∧ _))

abbrev RequestState.Enqueued (cfg : Config σ ι) (rs : RequestState ι) : Prop :=
  Enqueues cfg rs.op rs.pvfsIoType

theorem not_enqueues_dataFlow {cfg : Config σ ι} {ioType : Int} :
    ¬ Enqueues cfg .dataFlow ioType := by
  rintro ⟨-, h | h | h⟩
  · cases h.1
  · cases h
  · exact absurd h.2 (by simp [isMeta])

/-- A message on the client's list: one that has begun to arrive is released with
an item or waits, and one the server has seen has an item. -/
structure RequestState.Ready (cfg : Config σ ι) (rs : RequestState ι) : Prop where
  head : 0 ≤ rs.bufferHead
  tail : 0 ≤ rs.bufferTail
  released : 0 < rs.bufferTail → rs.Enqueued cfg → rs.Released cfg.method
  seen : 0 < rs.bufferHead → rs.Enqueued cfg → rs.currentItem.isSome = true

/-- The state, if it is still there, is on the list. -/
def World.On (w : World σ ι) (l : List Addr) (p : Addr) : Prop :=
  p < w.next ∧ ((w.mem p).isSome = true → p ∈ l)

/-- The request, if it is still there, has an item. -/
def World.Itemed (w : World σ ι) (p : Addr) : Prop := p < w.next ∧ w.mem.HasItem p

/-- The request a flow belongs to has an item. -/
def RequestState.FlowsFor (cfg : Config σ ι) (w : World σ ι) (rs : RequestState ι) : Prop :=
  cfg.schedulerOn = true → rs.op = .dataFlow → ∀ o, rs.originalRequest = some o → w.Itemed o

structure Attended (cfg : Config σ ι) (w : World σ ι) (client server : SocketState) : Prop where
  ready : ∀ p ∈ client.requests, ∀ rs, w.mem p = some rs → rs.Ready cfg
  receiving : ∀ p, client.currentReceiveItem = some p → w.On client.requests p
    ∧ ∀ rs, w.mem p = some rs → (rs.Enqueued cfg → rs.Released cfg.method) ∧ rs.FlowsFor cfg w
  sending : ∀ p, server.currentSendItem = some p → w.On client.requests p
    ∧ ∀ rs, w.mem p = some rs → (0 < rs.bufferTail ∨ 0 < rs.bufferHead)
      ∧ (rs.Enqueued cfg → rs.currentItem.isSome = true)
  flows : ∀ p ∈ server.requests, ∀ rs, w.mem p = some rs → rs.FlowsFor cfg w
  /-- the state the server's side finds for a tag belongs to a request -/
  originals : ∀ tag p rs, findRequest w.mem server tag = some p → w.mem p = some rs →
    ∀ o, rs.originalRequest = some o → w.On client.requests o
  serverReceiving : ∀ p, server.currentReceiveItem = some p → w.On server.requests p
  clientSending : ∀ p, client.currentSendItem = some p → w.On server.requests p

/-! ## What an event does to other connections -/

/-- Outside `P` what was there is rescheduled at most, and no item gets lost. -/
structure World.Tends (m : SchedulerMethod σ ι) (P : Set Addr) (w w' : World σ ι) : Prop where
  next : w.next ≤ w'.next
  others : ∀ p < w.next, p ∉ P →
    Option.Rel (fun rs rs' => rs.Rescheduled rs' ∧ rs.Handed m rs') (w.mem p) (w'.mem p)
  items : ∀ p < w.next, ∀ rs', w'.mem p = some rs' →
    ∃ rs, w.mem p = some rs ∧ (rs.currentItem.isSome = true → rs'.currentItem.isSome = true)

namespace World

variable {m : SchedulerMethod σ ι} {P Q : Set Addr} {w w' w'' : World σ ι}

theorem Tends.refl (w : World σ ι) : w.Tends m P w where
  next := Nat.le_refl _
  others p _ _ := by
    cases w.mem p with
    | none => exact .none
    | some rs => exact .some ⟨.refl rs, .refl m rs⟩
  items _ _ rs hrs := ⟨rs, hrs, id⟩

theorem Tends.trans (h : w.Tends m P w') (h' : w'.Tends m P w'') : w.Tends m P w'' where
  next := h.next.trans h'.next
  others p hp hP := by
    have h₁ := h.others p hp hP
    have h₂ := h'.others p (Nat.lt_of_lt_of_le hp h.next) hP
    revert h₁ h₂
    generalize w.mem p = a, w'.mem p = b, w''.mem p = c
    rintro (hab | _) (hbc | _)
    · exact .some ⟨hab.1.trans hbc.1, hab.2.trans hbc.2⟩
    · exact .none
  items p hp rs'' hrs'' := by
    obtain ⟨rs', hrs', hitem'⟩ := h'.items p (Nat.lt_of_lt_of_le hp h.next) rs'' hrs''
    obtain ⟨rs, hrs, hitem⟩ := h.items p hp rs' hrs'
    exact ⟨rs, hrs, fun h => hitem' (hitem h)⟩

theorem Tends.mono (h : w.Tends m P w') (hPQ : ∀ p ∈ P, p < w.next → p ∈ Q) :
    w.Tends m Q w' :=
  { h with others := fun p hp hQ => h.others p hp fun hP => hQ (hPQ p hP hp) }

theorem Tends.live (h : w.Tends m P w') {p : Addr} (hp : p < w.next)
    (hlive : (w'.mem p).isSome = true) : (w.mem p).isSome = true := by
  obtain ⟨rs', hrs'⟩ := Option.isSome_iff_exists.mp hlive
  obtain ⟨rs, hrs, -⟩ := h.items p hp rs' hrs'
  rw [hrs]
  rfl

theorem Tends.back (h : w.Tends m P w') {p : Addr} (hp : p < w.next) (hP : p ∉ P)
    {rs' : RequestState ι} (hrs' : w'.mem p = some rs') :
    ∃ rs, w.mem p = some rs ∧ rs.Rescheduled rs' ∧ rs.Handed m rs' := by
  have hrel := h.others p hp hP
  rw [hrs'] at hrel
  generalize hrs : w.mem p = o at hrel
  cases hrel with
  | some hr => exact ⟨_, rfl, hr⟩

theorem Tends.hasTag (h : w.Tends m P w') {p : Addr} (hp : p < w.next) (hP : p ∉ P) (tag : Int) :
    hasTag w'.mem tag p = hasTag w.mem tag p := by
  have hrel := h.others p hp hP
  unfold PvfsProxy.hasTag
  revert hrel
  generalize w.mem p = a, w'.mem p = b
  rintro (hab | _)
  · rw [hab.1.2]
    rfl
  · rfl

theorem On.tends {l : List Addr} {p : Addr} (hp : w.On l p) (h : w.Tends m P w') : w'.On l p :=
  ⟨Nat.lt_of_lt_of_le hp.1 h.next, fun hlive => hp.2 (h.live hp.1 hlive)⟩

theorem On.mono {l l' : List Addr} {p : Addr} (hp : w.On l p) (hl : l ⊆ l') : w.On l' p :=
  ⟨hp.1, fun hlive => hl (hp.2 hlive)⟩

theorem Itemed.tends {p : Addr} (hp : w.Itemed p) (h : w.Tends m P w') : w'.Itemed p := by
  refine ⟨Nat.lt_of_lt_of_le hp.1 h.next, fun rs' hrs' => ?_⟩
  obtain ⟨rs, hrs, hitem⟩ := h.items p hp.1 rs' hrs'
  exact hitem (hp.2 rs hrs)

/-- Nothing but rescheduling outside `P`, and items are handed on everywhere. -/
theorem Tends.of_handed (hnext : w.next ≤ w'.next) (hothers : w.mem.RescheduledBut P w'.mem)
    (hhanded : w.mem.Handed m w'.mem) (hdead : ∀ p < w.next, w.mem p = none → w'.mem p = none) :
    w.Tends m P w' where
  next := hnext
  others p _ hP := by
    have hrel := hothers p hP
    have hh := hhanded p
    revert hrel hh
    generalize w.mem p = a, w'.mem p = b
    rintro (hab | _) hh
    · obtain ⟨rs', hrs', hh⟩ := hh _ rfl
      obtain rfl := Option.some.inj hrs'
      exact .some ⟨hab, hh⟩
    · exact .none
  items p hp rs' hrs' := by
    cases hrs : w.mem p with
    | none =>
        rw [hdead p hp hrs] at hrs'
        cases hrs'
    | some rs =>
        obtain ⟨rs'', hrs'', hh⟩ := hhanded p rs hrs
        rw [hrs'] at hrs''
        obtain rfl := Option.some.inj hrs''
        exact ⟨rs, rfl, hh.1⟩

theorem Rescheduled.tends (h : w.Rescheduled w') (hhanded : w.mem.Handed m w'.mem) :
    w.Tends m P w' :=
  .of_handed (Nat.le_of_eq h.next.symm) (h.mem.mono (Set.empty_subset _)) hhanded
    fun p _ hp => Mem.none_of_rel (h.mem p (Set.notMem_empty p)) hp

theorem Marks.tends {p : Addr} {f : RequestState ι → RequestState ι} (h : w.Marks p f w')
    (hhanded : w.mem.Handed m w'.mem) : w.Tends m {p} w' := by
  refine .of_handed (Nat.le_of_eq h.next.symm) h.others hhanded fun q _ hq => ?_
  by_cases hqp : q = p
  · subst hqp
    exact Mem.none_of_rel h.response hq
  · exact Mem.none_of_rel (h.others q hqp) hq

theorem Tends.write (w : World σ ι) (p : Addr) {f : RequestState ι → RequestState ι}
    (hf : ∀ rs, (f rs).currentItem = rs.currentItem ∧ (f rs).locked = rs.locked) :
    w.Tends m {p} { w with mem := w.mem.modify p f } :=
  (World.Marks.modify p f w).tends (.write m w.mem p hf)

theorem Tends.alloc (w : World σ ι) (rs : RequestState ι) :
    w.Tends m P { w with mem := w.mem.alloc w.next rs, next := w.next + 1 } := by
  have hsame : ∀ p < w.next, w.mem.alloc w.next rs p = w.mem p :=
    fun p hp => Mem.alloc_of_ne _ (Nat.ne_of_lt hp) rs
  refine ⟨Nat.le_succ _, fun p hp hP => ?_, fun p hp rs' hrs' => ?_⟩
  · show Option.Rel _ (w.mem p) (w.mem.alloc w.next rs p)
    rw [hsame p hp]
    exact (Tends.refl (m := m) w).others p hp hP
  · have hrs' : w.mem.alloc w.next rs p = some rs' := hrs'
    rw [hsame p hp] at hrs'
    exact ⟨rs', hrs', id⟩

end World

section states

variable {cfg : Config σ ι} {P : Set Addr} {w w' : World σ ι} {rs rs' : RequestState ι}

theorem RequestState.FlowsFor.tends (h : rs.FlowsFor cfg w) (ht : w.Tends cfg.method P w')
    (hop : rs'.op = .dataFlow → rs.op = .dataFlow)
    (horiginal : rs'.originalRequest = rs.originalRequest) : rs'.FlowsFor cfg w' :=
  fun hon hflow o ho => (h hon (hop hflow) o (horiginal ▸ ho)).tends ht

/-- What of a message is not the scheduler's has stayed. -/
theorem RequestState.Ready.handed (h : rs.Ready cfg) (hh : rs.Handed cfg.method rs')
    (hop : rs'.op = rs.op) (hio : rs'.pvfsIoType = rs.pvfsIoType)
    (hhead : rs'.bufferHead = rs.bufferHead) (htail : rs'.bufferTail = rs.bufferTail) :
    rs'.Ready cfg where
  head := hhead ▸ h.head
  tail := htail ▸ h.tail
  released hpos henqueued := by
    unfold RequestState.Enqueued at henqueued
    rw [hop, hio] at henqueued
    rw [htail] at hpos
    exact hh.released (h.released hpos henqueued)
  seen hpos henqueued := by
    unfold RequestState.Enqueued at henqueued
    rw [hop, hio] at henqueued
    rw [hhead] at hpos
    exact hh.1 (h.seen hpos henqueued)

/-- A message nothing of which is there yet. -/
theorem RequestState.Ready.untouched (hhead : rs.bufferHead = 0) (htail : rs.bufferTail = 0) :
    rs.Ready cfg where
  head := by omega
  tail := by omega
  released hpos := by omega
  seen hpos := by omega

end states

/-! ## One connection at a time -/

theorem find?_eq_of_forall {α : Type} {l : List α} {f g : α → Bool} (h : ∀ a ∈ l, f a = g a) :
    l.find? f = l.find? g := by
  induction l with
  | nil => rfl
  | cons a l ih =>
      rw [List.find?_cons, List.find?_cons, h a (List.mem_cons_self ..),
        ih fun b hb => h b (List.mem_cons_of_mem _ hb)]

theorem findRequest_congr {mem mem' : Mem ι} {s : SocketState} {tag : Int}
    (h : ∀ p ∈ s.requests, hasTag mem' tag p = hasTag mem tag p) :
    findRequest mem' s tag = findRequest mem s tag :=
  find?_eq_of_forall h

namespace Attended

variable {cfg : Config σ ι} {P : Set Addr} {w w' : World σ ι} {client server : SocketState}

/-- The states of `P` are written to, and are left as they should be. -/
theorem touch (h : Attended cfg w client server) (ht : w.Tends cfg.method P w')
    (hclient : ∀ p ∈ client.requests, p < w.next) (hserver : ∀ p ∈ server.requests, p < w.next)
    (hready : ∀ p ∈ P, p ∈ client.requests → ∀ rs, w'.mem p = some rs → rs.Ready cfg)
    (hreceiving : ∀ p ∈ P, client.currentReceiveItem = some p → p ∈ client.requests →
      ∀ rs, w'.mem p = some rs → (rs.Enqueued cfg → rs.Released cfg.method) ∧ rs.FlowsFor cfg w')
    (hsending : ∀ p ∈ P, server.currentSendItem = some p → p ∈ client.requests →
      ∀ rs, w'.mem p = some rs → (0 < rs.bufferTail ∨ 0 < rs.bufferHead)
        ∧ (rs.Enqueued cfg → rs.currentItem.isSome = true))
    (hflows : ∀ p ∈ P, p ∈ server.requests → ∀ rs', w'.mem p = some rs' →
      ∃ rs, w.mem p = some rs ∧ rs'.currentTag = rs.currentTag
        ∧ rs'.originalRequest = rs.originalRequest ∧ rs'.FlowsFor cfg w')
    (hlive : ∀ p ∈ P, p ∈ server.requests → (w.mem p).isSome = true →
      (w'.mem p).isSome = true) : Attended cfg w' client server := by
  have htag : ∀ tag, ∀ p ∈ server.requests, hasTag w'.mem tag p = hasTag w.mem tag p := by
    intro tag p hp
    by_cases hP : p ∈ P
    · cases hrs' : w'.mem p with
      | none =>
          cases hrs : w.mem p with
          | none => simp [hasTag, hrs, hrs']
          | some rs =>
              have hsome := hlive p hP hp (by rw [hrs]; rfl)
              rw [hrs'] at hsome
              cases hsome
      | some rs' =>
          obtain ⟨rs, hrs, hsame, -⟩ := hflows p hP hp rs' hrs'
          simp [hasTag, hrs, hrs', hsame]
    · exact ht.hasTag (hserver p hp) hP tag
  refine ⟨?_, ?_, ?_, ?_, ?_, ?_, ?_⟩
  · intro p hp rs' hrs'
    by_cases hP : p ∈ P
    · exact hready p hP hp rs' hrs'
    · obtain ⟨rs, hrs, hr, hh⟩ := ht.back (hclient p hp) hP hrs'
      exact (h.ready p hp rs hrs).handed hh (by rw [hr.2]) (by rw [hr.2]) (by rw [hr.2])
        (by rw [hr.2])
  · intro p hp
    obtain ⟨hon, hreceived⟩ := h.receiving p hp
    refine ⟨hon.tends ht, fun rs' hrs' => ?_⟩
    have hin := hon.2 (ht.live hon.1 (by rw [hrs']; rfl))
    by_cases hP : p ∈ P
    · exact hreceiving p hP hp hin rs' hrs'
    · obtain ⟨rs, hrs, hr, hh⟩ := ht.back hon.1 hP hrs'
      obtain ⟨hreleased, hflow⟩ := hreceived rs hrs
      refine ⟨fun henqueued => hh.released (hreleased ?_), hflow.tends ht ?_ (by rw [hr.2])⟩
      · rwa [hr.2] at henqueued
      · intro hop
        rwa [hr.2] at hop
  · intro p hp
    obtain ⟨hon, hsent⟩ := h.sending p hp
    refine ⟨hon.tends ht, fun rs' hrs' => ?_⟩
    have hin := hon.2 (ht.live hon.1 (by rw [hrs']; rfl))
    by_cases hP : p ∈ P
    · exact hsending p hP hp hin rs' hrs'
    · obtain ⟨rs, hrs, hr, hh⟩ := ht.back hon.1 hP hrs'
      obtain ⟨hbytes, hitem⟩ := hsent rs hrs
      refine ⟨?_, fun henqueued => hh.1 (hitem ?_)⟩
      · rwa [hr.2]
      · rwa [hr.2] at henqueued
  · intro p hp rs' hrs'
    by_cases hP : p ∈ P
    · obtain ⟨rs, -, -, -, hflow⟩ := hflows p hP hp rs' hrs'
      exact hflow
    · obtain ⟨rs, hrs, hr, -⟩ := ht.back (hserver p hp) hP hrs'
      refine (h.flows p hp rs hrs).tends ht (fun hop => ?_) (by rw [hr.2])
      rwa [hr.2] at hop
  · intro tag p rs' hp hrs' o ho
    rw [findRequest_congr (htag tag)] at hp
    have hin := (findRequest_mem hp).1
    by_cases hP : p ∈ P
    · obtain ⟨rs, hrs, -, horiginal, -⟩ := hflows p hP hin rs' hrs'
      exact (h.originals tag p rs hp hrs o (horiginal ▸ ho)).tends ht
    · obtain ⟨rs, hrs, hr, -⟩ := ht.back (hserver p hin) hP hrs'
      rw [hr.2] at ho
      exact (h.originals tag p rs hp hrs o ho).tends ht
  · exact fun p hp => (h.serverReceiving p hp).tends ht
  · exact fun p hp => (h.clientSending p hp).tends ht

theorem frame (h : Attended cfg w client server) (ht : w.Tends cfg.method P w')
    (hclient : ∀ p ∈ client.requests, p < w.next ∧ p ∉ P)
    (hserver : ∀ p ∈ server.requests, p < w.next ∧ p ∉ P) : Attended cfg w' client server :=
  h.touch ht (fun p hp => (hclient p hp).1) (fun p hp => (hserver p hp).1)
    (fun p hP hp => absurd hP (hclient p hp).2) (fun p hP _ hp => absurd hP (hclient p hp).2)
    (fun p hP _ hp => absurd hP (hclient p hp).2) (fun p hP hp => absurd hP (hserver p hp).2)
    (fun p hP hp => absurd hP (hserver p hp).2)

theorem touchClient {p : Addr} (h : Attended cfg w client server)
    (ht : w.Tends cfg.method {p} w') (hclient : ∀ q ∈ client.requests, q < w.next)
    (hserver : ∀ q ∈ server.requests, q < w.next ∧ q ≠ p)
    (hready : ∀ rs, w'.mem p = some rs → rs.Ready cfg)
    (hreceiving : client.currentReceiveItem = some p → ∀ rs, w'.mem p = some rs →
      (rs.Enqueued cfg → rs.Released cfg.method) ∧ rs.FlowsFor cfg w')
    (hsending : server.currentSendItem = some p → ∀ rs, w'.mem p = some rs →
      (0 < rs.bufferTail ∨ 0 < rs.bufferHead)
        ∧ (rs.Enqueued cfg → rs.currentItem.isSome = true)) :
    Attended cfg w' client server := by
  refine h.touch ht hclient (fun q hq => (hserver q hq).1) ?_ ?_ ?_ ?_ ?_
  · rintro q rfl _
    exact hready
  · rintro q rfl hq _
    exact hreceiving hq
  · rintro q rfl hq _
    exact hsending hq
  · rintro q rfl hq
    exact absurd rfl (hserver q hq).2
  · rintro q rfl hq
    exact absurd rfl (hserver q hq).2

theorem touchServer {p : Addr} (h : Attended cfg w client server)
    (ht : w.Tends cfg.method {p} w') (hclient : ∀ q ∈ client.requests, q < w.next ∧ q ≠ p)
    (hserver : ∀ q ∈ server.requests, q < w.next)
    (hflow : ∀ rs', w'.mem p = some rs' → ∃ rs, w.mem p = some rs
      ∧ rs'.currentTag = rs.currentTag ∧ rs'.originalRequest = rs.originalRequest
      ∧ rs'.FlowsFor cfg w')
    (hlive : (w.mem p).isSome = true → (w'.mem p).isSome = true) :
    Attended cfg w' client server := by
  refine h.touch ht (fun q hq => (hclient q hq).1) hserver ?_ ?_ ?_ ?_ ?_
  · rintro q rfl hq
    exact absurd rfl (hclient q hq).2
  · rintro q rfl _ hq
    exact absurd rfl (hclient q hq).2
  · rintro q rfl _ hq
    exact absurd rfl (hclient q hq).2
  · rintro q rfl _
    exact hflow
  · rintro q rfl _
    exact hlive

theorem appendClient {l : List Addr} {p : Addr} (h : Attended cfg w client server)
    (hl : client.reqStateData = some l) (hready : ∀ rs, w.mem p = some rs → rs.Ready cfg) :
    Attended cfg w { client with reqStateData := some (l ++ [p]) } server := by
  have hsub : client.requests ⊆ l ++ [p] := by
    unfold SocketState.requests
    rw [hl]
    exact List.subset_append_left _ _
  refine
    { h with
      ready := fun q hq rs hrs => ?_
      receiving := fun q hq => ⟨(h.receiving q hq).1.mono hsub, (h.receiving q hq).2⟩
      sending := fun q hq => ⟨(h.sending q hq).1.mono hsub, (h.sending q hq).2⟩
      originals := fun tag q rs hq hrs o ho => (h.originals tag q rs hq hrs o ho).mono hsub }
  rw [SocketState.requests_some, List.mem_append, List.mem_singleton] at hq
  rcases hq with hq | rfl
  · refine h.ready q ?_ rs hrs
    unfold SocketState.requests
    rwa [hl]
  · exact hready rs hrs

theorem appendServer {l : List Addr} {p : Addr} (h : Attended cfg w client server)
    (hl : server.reqStateData = some l) (hflow : ∀ rs, w.mem p = some rs → rs.FlowsFor cfg w)
    (horiginal : ∀ rs, w.mem p = some rs → findRequest w.mem server rs.currentTag = none →
      ∀ o, rs.originalRequest = some o → w.On client.requests o) :
    Attended cfg w client { server with reqStateData := some (l ++ [p]) } := by
  have hlist : server.requests = l := by
    unfold SocketState.requests
    rw [hl]
    rfl
  have hsub : server.requests ⊆ l ++ [p] := hlist ▸ List.subset_append_left _ _
  refine
    { h with
      flows := fun q hq rs hrs => ?_
      originals := fun tag q rs hq hrs o ho => ?_
      serverReceiving := fun q hq => (h.serverReceiving q hq).mono hsub
      clientSending := fun q hq => (h.clientSending q hq).mono hsub }
  · rw [SocketState.requests_some, List.mem_append, List.mem_singleton] at hq
    rcases hq with hq | rfl
    · exact h.flows q (hlist ▸ hq) rs hrs
    · exact hflow rs hrs
  · cases hold : findRequest w.mem server tag with
    | some q' =>
        unfold findRequest at hold hq
        rw [hlist] at hold
        rw [SocketState.requests_some, List.find?_append, hold] at hq
        obtain rfl := Option.some.inj hq
        exact h.originals tag q' rs (by unfold findRequest; rwa [hlist]) hrs o ho
    | none =>
        have htag := (findRequest_mem hq).2
        have hnone := hold
        unfold findRequest at hold hq
        rw [hlist] at hold
        rw [SocketState.requests_some, List.find?_append, hold, Option.none_or] at hq
        obtain rfl := List.mem_singleton.mp (List.mem_of_find?_eq_some hq)
        obtain ⟨rs₀, hrs₀, htag⟩ := hasTag_eq_true.mp htag
        rw [hrs] at hrs₀
        obtain rfl := Option.some.inj hrs₀
        exact horiginal rs hrs (htag ▸ hnone) o ho

/-- The client's socket receives a message, or is done with one. -/
theorem receive (h : Attended cfg w client server) {o : Option Addr} (b : Bool)
    (ho : ∀ p, o = some p → w.On client.requests p ∧ ∀ rs, w.mem p = some rs →
      (rs.Enqueued cfg → rs.Released cfg.method) ∧ rs.FlowsFor cfg w) :
    Attended cfg w { client with currentReceiveItem := o, incompleteMode := b } server :=
  { h with receiving := ho }

/-- The server's socket receives a message, or is done with one. -/
theorem serverReceive (h : Attended cfg w client server) {o : Option Addr} (b : Bool)
    (ho : ∀ p, o = some p → w.On server.requests p) :
    Attended cfg w client { server with currentReceiveItem := o, incompleteMode := b } :=
  { h with serverReceiving := ho }

/-- An idle socket on the client's side takes what the server has sent. -/
theorem clientSend (h : Attended cfg w client server) {o : Option Addr}
    (ho : ∀ p, o = some p → w.On server.requests p) :
    Attended cfg w { client with currentSendItem := o } server :=
  { h with clientSending := ho }

/-- One on the server's side takes a message that is not locked: it has an item. -/
theorem send (h : Attended cfg w client server) {o : Option Addr}
    (ho : ∀ p, o = some p → p < w.next ∧ ∃ rs, p ∈ client.requests ∧ w.mem p = some rs
      ∧ rs.bufferTail - rs.bufferHead ≠ 0 ∧ rs.locked = false) :
    Attended cfg w client { server with currentSendItem := o } := by
  refine { h with sending := fun p hp => ?_ }
  obtain ⟨hnext, rs, hin, hrs, hne, hlocked⟩ := ho p hp
  refine ⟨⟨hnext, fun _ => hin⟩, fun rs' hrs' => ?_⟩
  rw [hrs] at hrs'
  obtain rfl := Option.some.inj hrs'
  have hready := h.ready p hin rs hrs
  have hhead := hready.head
  have htail := hready.tail
  by_cases hpos : 0 < rs.bufferHead
  · exact ⟨.inr hpos, hready.seen hpos⟩
  · have hbytes : 0 < rs.bufferTail := by omega
    exact ⟨.inl hbytes, fun henqueued => hready.released hbytes henqueued (.inl hlocked)⟩

end Attended

end PvfsProxy
