import PvfsProxy.HookSteps
import PvfsProxy.PoolOwnership

/-!
# Every call of a hook

`Proxy.Attends` is the invariant of the pool: every connection is `Attended`. As
long as the messages are well formed and the scheduler brings along what they ask
for (`Proxy.Provided`), no event calls a hook that is NULL, or one for a request
whose item is (`Proxy.UsesExisting`).
-/

namespace PvfsProxy

variable {σ ι : Type}

namespace Proxy

def Attends (cfg : Config σ ι) (s : Proxy σ ι) : Prop :=
  ∀ i, i % 2 = 1 → i < s.poolSize → Attended cfg s.w (s.slots i) (s.slots (i + 1))

def Formed (s : Proxy σ ι) : Event → Prop
  | .read i incoming => (s.conn i).ReadFormed incoming
  | _ => True

/-- What arrives finds what it asks for: of the scheduler, and slots nobody has
left in the middle of a message. -/
def Provided (cfg : Config σ ι) (finds : σ → Nat → Prop) (s : Proxy σ ι) : Event → Prop
  | .accept .. => ¬ s.LeftBehind
  | .read i incoming => (s.conn i).ReadProvided cfg finds incoming
  | _ => True

/-- The event is the same whatever NULL hooks, and hooks for NULL items, would
do: it calls none. -/
def UsesExisting (cfg : Config σ ι) (s : Proxy σ ι) (e : Event) : Prop :=
  ∀ m', cfg.method.SameButNull m' → s.step (cfg.using m') e = s.step cfg e

instance (s : Proxy σ ι) : (e : Event) → Decidable (s.Formed e)
  | .accept .. => inferInstanceAs (Decidable True)
  | .read i incoming => inferInstanceAs (Decidable ((s.conn i).ReadFormed incoming))
  | .write .. => inferInstanceAs (Decidable True)
  | .prepare => inferInstanceAs (Decidable True)

instance (cfg : Config σ ι) (finds : σ → Nat → Prop) [∀ s app, Decidable (finds s app)]
    (s : Proxy σ ι) : (e : Event) → Decidable (s.Provided cfg finds e)
  | .accept .. => inferInstanceAs (Decidable (¬ s.LeftBehind))
  | .read i incoming => inferInstanceAs (Decidable ((s.conn i).ReadProvided cfg finds incoming))
  | .write .. => inferInstanceAs (Decidable True)
  | .prepare => inferInstanceAs (Decidable True)

variable {cfg : Config σ ι} {finds : σ → Nat → Prop} {s s' : Proxy σ ι} {i : Nat}

theorem partner_odd (hi : i % 2 = 1) : partner i = i + 1 := if_pos hi

theorem partner_even (hi : ¬ i % 2 = 1) : partner i = i - 1 := if_neg hi

theorem Attends.conn (h : s.Attends cfg) (hpaired : s.Paired) (hi : 0 < i)
    (hlt : i < s.poolSize) : (s.conn i).Attended cfg := by
  have hsource := (hpaired.slot i hi hlt).source
  have hpeer := hpaired.conn_peer hi hlt
  by_cases hodd : i % 2 = 1
  · rw [if_pos hodd] at hsource
    rw [partner_odd hodd] at hpeer
    rw [Conn.attended_client (c := s.conn i) hsource, hpeer]
    exact h i hodd hlt
  · rw [if_neg hodd] at hsource
    rw [partner_even hodd] at hpeer
    rw [Conn.attended_server (c := s.conn i) hsource, hpeer]
    have hatt := h (i - 1) (by omega) (by omega)
    rwa [show i - 1 + 1 = i from by omega] at hatt

/-- An event on one connection keeps the others attended. -/
theorem Attends.put (h : s.Attends cfg) (hpaired : s.Paired) (hi : 0 < i)
    (hlt : i < s.poolSize) {c : Conn σ ι} (hc : (s.conn i).Effect c) (hatt : c.Attended cfg)
    (ht : s.w.Tends cfg.method (s.conn i).reach c.w) : (s.put c).Attends cfg := by
  have hslots := hpaired.slots_put hi hlt hc
  have hsource := hc.me.source.trans (hpaired.slot i hi hlt).source
  intro j hj hjlt
  have hjlt : j < s.poolSize := hjlt
  have hodd := hpaired.odd
  have hold : ∀ k, 0 < k → k < s.poolSize → k ≠ i → k ≠ partner i →
      ∀ p ∈ (s.slots k).requests, p < s.w.next ∧ p ∉ (s.conn i).reach := by
    intro k hk hklt hki hkp p hp
    have hnext := hpaired.fresh.lt_next (hpaired.live k hk hklt p hp)
    refine ⟨hnext, ?_⟩
    rintro (hin | hge)
    · exact hpaired.separate hi hlt hk hklt hki hkp hp hin
    · exact absurd hnext (Nat.not_lt_of_le hge)
  by_cases hparity : i % 2 = 1
  · have hpartner := partner_odd hparity
    rw [if_pos hparity] at hsource
    by_cases hji : j = i
    · subst hji
      have hatt := (Conn.attended_client hsource).mp hatt
      rw [hslots, hslots, if_pos rfl, if_neg (by omega), if_pos hpartner.symm]
      exact hatt
    · rw [hslots, hslots, if_neg hji, if_neg (by omega), if_neg (by omega), if_neg (by omega)]
      exact (h j hj hjlt).frame ht (hold j (by omega) hjlt hji (by omega))
        (hold (j + 1) (by omega) (by omega) (by omega) (by omega))
  · have hpartner := partner_even hparity
    rw [if_neg hparity] at hsource
    by_cases hji : j + 1 = i
    · subst hji
      have hatt := (Conn.attended_server hsource).mp hatt
      rw [hslots, hslots, if_neg (by omega), if_pos (by omega), if_pos rfl]
      exact hatt
    · rw [hslots, hslots, if_neg (by omega), if_neg (by omega), if_neg hji, if_neg (by omega)]
      exact (h j hj hjlt).frame ht (hold j (by omega) hjlt (by omega) (by omega))
        (hold (j + 1) (by omega) (by omega) hji (by omega))

/-- The same sockets and requests, in a world where nothing else has happened. -/
theorem attended_of_items {w w' : World σ ι} {client client' server server' : SocketState}
    (h : Attended cfg w client server) (ht : w.Tends cfg.method ∅ w')
    (hnext : (∀ p ∈ client.requests, p < w.next) ∧ ∀ p ∈ server.requests, p < w.next)
    (hclient : client' = { client with counterSocketIndex := client'.counterSocketIndex })
    (hserver : server' = { server with counterSocketIndex := server'.counterSocketIndex }) :
    Attended cfg w' client' server' := by
  have hframed := h.frame ht (fun p hp => ⟨hnext.1 p hp, Set.notMem_empty p⟩)
    fun p hp => ⟨hnext.2 p hp, Set.notMem_empty p⟩
  rw [hclient, hserver]
  exact
    { ready := hframed.ready
      receiving := hframed.receiving
      sending := hframed.sending
      flows := hframed.flows
      originals := hframed.originals
      serverReceiving := hframed.serverReceiving
      clientSending := hframed.clientSending }

/-- A connection nothing has arrived on. -/
theorem attended_new {w : World σ ι} {client server : SocketState}
    (hclient : client.requests = [] ∧ client.currentReceiveItem = none
      ∧ client.currentSendItem = none)
    (hserver : server.requests = [] ∧ server.currentReceiveItem = none
      ∧ server.currentSendItem = none) : Attended cfg w client server := by
  obtain ⟨hcr, hcreceive, hcsend⟩ := hclient
  obtain ⟨hsr, hsreceive, hssend⟩ := hserver
  refine ⟨?_, ?_, ?_, ?_, ?_, ?_, ?_⟩
  · simp [hcr]
  · simp [hcreceive]
  · simp [hssend]
  · simp [hsr]
  · simp [findRequest, hsr]
  · simp [hsreceive]
  · simp [hcsend]

theorem Attends.accept (h : s.Attends cfg) (hpaired : s.Paired) {client server : Int}
    (hserver : server ≠ 0) (ipa : IpApplication) (hleft : ¬ s.LeftBehind) :
    (s.acceptSocket cfg client server ipa).Attends cfg := by
  have hodd := hpaired.odd
  obtain ⟨hsize, -, hmem, hnext⟩ := acceptSocket_rest (s := s) cfg client hserver ipa
  have hitems := acceptSocket_items (s := s) cfg client hserver ipa
  have hold := @acceptSocket_old _ _ s cfg client server hserver ipa
  have hnew := @acceptSocket_requests _ _ s cfg client server hserver ipa
  generalize s.acceptSocket cfg client server ipa = s' at *
  intro j hj hjlt
  by_cases hjold : j < s.poolSize
  · have hboth : ∀ k, 0 < k → k < s.poolSize → ∀ p ∈ (s.slots k).requests, p < s.w.next :=
      fun k hk hklt p hp => hpaired.fresh.lt_next (hpaired.live k hk hklt p hp)
    rw [hold hjold, hold (j := j + 1) (by omega)]
    exact attended_of_items (h j hj hjold) (.of_same hmem hnext)
      ⟨hboth j (by omega) hjold, hboth (j + 1) (by omega) (by omega)⟩ rfl rfl
  · -- the new slots were left at no message
    have hidle : ∀ k, k = s.poolSize ∨ k = s.poolSize + 1 → (s'.slots k).requests = []
        ∧ (s'.slots k).currentReceiveItem = none ∧ (s'.slots k).currentSendItem = none := by
      intro k hk
      refine ⟨hnew (by omega) (by omega), ?_⟩
      rw [(hitems k).1, (hitems k).2]
      by_contra hat
      rw [not_and_or] at hat
      refine hleft ⟨k, ?_, hat⟩
      simpa using hk
    exact attended_new (hidle j (by omega)) (hidle (j + 1) (by omega))

theorem Attends.closePair (h : s.Attends cfg) (hpaired : s.Paired) (hi : i % 2 = 1)
    (hlt : i < s.poolSize) (hs' : s.closePair i = .ok s') : s'.Attends cfg := by
  have hodd := hpaired.odd
  obtain ⟨t, n, ht, hn, hsize, -, hnext, hmem, hslots⟩ := closePair_ok hpaired hi hlt
  obtain rfl : t = s' := Except.ok.inj (ht.symm.trans hs')
  have hnodd : n % 2 = 1 := by omega
  have hpos : ∀ j, 0 < j → j < n →
      t.slots j = { s.slots (movedFrom i n j) with
        counterSocketIndex := (t.slots j).counterSocketIndex } := by
    intro j hj hjn
    rw [(hslots j hjn).2, if_neg (by omega)]
  -- what is freed is on the lists of the connection that goes
  have htends : s.w.Tends cfg.method
      {p | p ∈ (s.slots i).requests ∨ p ∈ (s.slots (i + 1)).requests} t.w := by
    refine ⟨Nat.le_of_eq hnext.symm, fun p hp hout => ?_, fun p _ rs hrs => ⟨rs, ?_, id⟩⟩
    · have hout : ¬ (p ∈ (s.slots i).requests ∨ p ∈ (s.slots (i + 1)).requests) := hout
      rw [hmem, if_neg hout]
      exact (World.Tends.refl (m := cfg.method) (P := ∅) s.w).others p hp (Set.notMem_empty p)
    · rw [hmem] at hrs
      split at hrs
      · cases hrs
      · exact hrs
  intro j hj hjlt
  have hjn : j < n := by omega
  have hmoved : movedFrom i n (j + 1) = movedFrom i n j + 1 := by
    unfold movedFrom
    by_cases hji : j = i
    · rw [if_neg (by omega), if_pos (by omega), if_pos hji]
    · rw [if_neg (by omega), if_neg (by omega), if_neg hji, if_neg (by omega)]
  have hfrom := movedFrom_pos (i := i) (by omega : 0 < j) hjn
  have hfromlt := movedFrom_lt (i := i) hjn
  have hne := movedFrom_ne hi hnodd hjn
  have hne' := movedFrom_ne hi hnodd (j := j + 1) (by omega)
  have hmod := movedFrom_mod (j := j) hi hnodd
  rw [hmoved] at hne'
  have hatt := h (movedFrom i n j) (by omega) (by omega)
  have hkept : ∀ k, 0 < k → k < s.poolSize → k ≠ i → k ≠ i + 1 →
      ∀ p ∈ (s.slots k).requests, p < s.w.next
        ∧ p ∉ {p | p ∈ (s.slots i).requests ∨ p ∈ (s.slots (i + 1)).requests} := by
    intro k hk hklt hki hki' p hp
    refine ⟨hpaired.fresh.lt_next (hpaired.live k hk hklt p hp), ?_⟩
    rintro (hin | hin)
    · exact hpaired.disjoint k i hk hklt (by omega) hlt hki hp hin
    · exact hpaired.disjoint k (i + 1) hk hklt (by omega) (by omega) hki' hp hin
  have hclient := hkept _ hfrom (by omega) hne.1 hne.2
  have hserver := hkept (movedFrom i n j + 1) (by omega) (by omega) hne'.1 hne'.2
  have hframed := hatt.frame htends hclient hserver
  have hslot := hpos (j + 1) (by omega) (by omega)
  rw [hmoved] at hslot
  refine attended_of_items hframed (.refl _) ⟨fun p hp => ?_, fun p hp => ?_⟩
    (hpos j (by omega) hjn) hslot
  · exact Nat.lt_of_lt_of_le (hclient p hp).1 htends.next
  · exact Nat.lt_of_lt_of_le (hserver p hp).1 htends.next

theorem Attends.prepareSlot (h : s.Attends cfg) (hpaired : s.Paired)
    (hslot : s.prepareSlot i = .ok s') : s'.Attends cfg := by
  unfold Proxy.prepareSlot at hslot
  split at hslot
  · obtain rfl := Except.ok.inj hslot
    exact h
  obtain ⟨⟨me, out⟩, hprep, hslot⟩ := Machine.bind_eq_ok.mp hslot
  obtain rfl := Machine.pure_eq_ok.mp hslot
  have hodd := hpaired.odd
  intro j hj hjlt
  have hjlt : j < s.poolSize := hjlt
  have hatt := h j hj hjlt
  show Attended cfg s.w (Function.update s.slots i me j) (Function.update s.slots i me (j + 1))
  by_cases hji : j = i
  · subst hji
    rw [Function.update_self, Function.update_of_ne (by omega)]
    rw [(hpaired.slot j (by omega) hjlt).index, partner_odd hj] at hprep
    rcases prepareEvents_ok hprep with rfl | ⟨-, rfl⟩
    · exact hatt
    · exact hatt.clientSendNext hpaired.fresh
  by_cases hji' : j + 1 = i
  · subst hji'
    rw [Function.update_self, Function.update_of_ne (by omega)]
    rw [(hpaired.slot (j + 1) (by omega) (by omega)).index, partner_even (by omega),
      Nat.add_sub_cancel] at hprep
    rcases prepareEvents_ok hprep with rfl | ⟨-, rfl⟩
    · exact hatt
    · exact hatt.sendNext hpaired.fresh
  rw [Function.update_of_ne hji, Function.update_of_ne hji']
  exact hatt

/-! ## One event -/

/-- The read branch, and the close it may end in. -/
theorem Attends.read (h : s.Attends cfg) (hpaired : s.Paired) (hh : cfg.method.Hands finds)
    (hi : 0 < i) (hlt : i < s.poolSize) {incoming : Incoming}
    (hclient : incoming.Closes → (s.slots i).source = .client)
    (hformed : (s.conn i).ReadFormed incoming)
    (hprovided : (s.conn i).ReadProvided cfg finds incoming)
    (hread : s.read cfg i incoming = .ok s') : s'.Attends cfg := by
  obtain ⟨outcome, hevent, hread⟩ := Machine.bind_eq_ok.mp hread
  have hevent := readEvent_ok hevent
  have howned := hpaired.owned hi hlt
  have hput : (s.put outcome.conn).Attends cfg := by
    obtain ⟨hatt, ht⟩ := hevent.attended hh (h.conn hpaired hi hlt) howned hformed hprovided
    exact h.put hpaired hi hlt ((hevent.grows hpaired.fresh).effect howned) hatt ht
  cases outcome with
  | again c =>
      obtain rfl := Machine.pure_eq_ok.mp hread
      exact hput
  | received c n =>
      obtain rfl := Machine.pure_eq_ok.mp hread
      exact hput
  | closed c =>
      have hcloses := hevent.closes
      obtain rfl := ReadOutcome.closed.inj (hevent.of_nil hcloses.1).1
      dsimp only at hread
      rw [Proxy.put_conn] at hread
      exact h.closePair hpaired (hpaired.client_odd hi hlt (hclient hcloses)) hlt hread

theorem Attends.write (h : s.Attends cfg) (hpaired : s.Paired) (hi : 0 < i)
    (hlt : i < s.poolSize) {sent : Nat} (hwrite : s.write i sent = .ok s') : s'.Attends cfg := by
  obtain ⟨⟨c, bytes⟩, hevent, hwrite⟩ := Machine.bind_eq_ok.mp hwrite
  obtain rfl := Machine.pure_eq_ok.mp hwrite
  have hevent := writeEvent_ok hevent
  have howned := hpaired.owned hi hlt
  obtain ⟨hatt, ht⟩ := hevent.attended (h.conn hpaired hi hlt) howned
  exact h.put hpaired hi hlt (hevent.shrinks.effect howned) hatt ht

theorem Attends.prepare (h : s.Attends cfg) (hpaired : s.Paired)
    (hprep : s.prepare = .ok s') : s'.Attends cfg := by
  refine (prepare_induction (P := fun t => t.Paired ∧ t.Attends cfg) hprep ⟨hpaired, h⟩ ?_).2
  rintro t t' i ⟨hpaired, hatt⟩ hslot
  refine ⟨?_, hatt.prepareSlot hpaired hslot⟩
  rcases prepareSlot_ok hslot with rfl | ⟨-, p, -, rfl⟩
  · exact hpaired
  · exact hpaired.of_sends

/-- A read that finds what it asks for calls no NULL hook, and none for a NULL item. -/
theorem Attends.usesExisting (h : s.Attends cfg) (hpaired : s.Paired)
    (hh : cfg.method.Hands finds) {e : Event}
    (hpolled : ∀ i incoming, e = .read i incoming → 0 < i ∧ i < s.poolSize)
    (hformed : s.Formed e) (hprovided : s.Provided cfg finds e) : s.UsesExisting cfg e := by
  intro m' hm
  cases e with
  | accept client server ipa => rfl
  | read i incoming =>
      obtain ⟨hi, hlt⟩ := hpolled i incoming rfl
      show s.read (cfg.using m') i incoming = s.read cfg i incoming
      unfold Proxy.read
      rw [readEvent_using hh hm (h.conn hpaired hi hlt) (hpaired.owned hi hlt) hformed hprovided]
  | write i sent => rfl
  | prepare => rfl

end Proxy

/-! ## Every run -/

namespace PoolRun

/-- What the kernel reports of well formed messages, where only clients close, as
long as it finds what it asks for. -/
def Attending (cfg : Config σ ι) (finds : σ → Nat → Prop) (s : PoolRun σ ι) (e : Proxy.Event) :
    Prop :=
  s.Served e ∧ s.proxy.Formed e ∧ s.proxy.Provided cfg finds e

instance (cfg : Config σ ι) (finds : σ → Nat → Prop) [∀ s app, Decidable (finds s app)]
    (s : PoolRun σ ι) (e : Proxy.Event) : Decidable (s.Attending cfg finds e) :=
  inferInstanceAs (Decidable (_ ∧ _ ∧ _))

theorem Attending.step {cfg : Config σ ι} {finds : σ → Nat → Prop} {s s' : PoolRun σ ι}
    {e : Proxy.Event} (hh : cfg.method.Hands finds) (h : s.proxy.Attends cfg)
    (hpaired : s.proxy.Paired) (hok : s.Attending cfg finds e) (hstep : s.step cfg e = .ok s') :
    s'.proxy.Attends cfg := by
  obtain ⟨⟨hkernel, hclient⟩, hformed, hprovided⟩ := hok
  obtain ⟨proxy, hevent, hs'⟩ := Machine.bind_eq_ok.mp hstep
  obtain rfl := Machine.pure_eq_ok.mp hs'
  cases e with
  | accept client server ipa =>
      obtain rfl := Except.ok.inj hevent
      exact h.accept hpaired hkernel.1 ipa hprovided
  | read i incoming =>
      exact h.read hpaired hh hkernel.1 hkernel.2 hclient hformed hprovided hevent
  | write i sent => exact h.write hpaired hkernel.1 hkernel.2 hevent
  | prepare => exact h.prepare hpaired hevent

end PoolRun

/-- **Only hooks and items that exist are used.** In every run under a registered
scheduler whose events are well formed and find what they ask for, no event calls
a hook the scheduler left NULL, or one for a request without an item. -/
theorem hooks_exist {env : Scheduler.Environment} {k : Scheduler} {cfg : Config k.State k.Item}
    (hk : cfg.method = k.method env) {w : World k.State k.Item} (hw : w.Fresh)
    {listenSocket : Int} {es : List Proxy.Event} {s : PoolRun k.State k.Item}
    (hrun : Machine.Run (PoolRun.Attending cfg k.Finds) (PoolRun.step cfg)
      (.init w listenSocket) es s) {e : Proxy.Event} (he : s.Attending cfg k.Finds e) :
    s.proxy.UsesExisting cfg e := by
  have hh : cfg.method.Hands k.Finds := hk ▸ k.hands env
  have hsize : (PoolRun.init w listenSocket).proxy.poolSize = 1 := rfl
  have hinvariant : s.Tracks ∧ s.proxy.Attends cfg := by
    refine hrun.invariant (P := fun s => s.Tracks ∧ s.proxy.Attends cfg)
      ⟨.init hw listenSocket, fun i hi hlt => by omega⟩ ?_
    rintro t e u ⟨ht, hatt⟩ hok hstep
    exact ⟨ht.step hok.1.1 hok.1.2 hstep, hok.step hh hatt ht.paired hstep⟩
  obtain ⟨htracks, hatt⟩ := hinvariant
  refine hatt.usesExisting htracks.paired hh ?_ he.2.1 he.2.2
  rintro i incoming rfl
  exact he.1.1

/-- The proxy under a scheduler that accepts no metadata operations. -/
def hookConfig : Config Sfqd SfqdQueueItem := sampleConfig true (schSfqd fun _ _ _ _ _ => 0)

instance (s : Sfqd) (app : Nat) : Decidable (Scheduler.Finds .sfqd s app) :=
  inferInstanceAs (Decidable True)

/-- The response of a read that finds the end of the file asks for the item five
times. -/
theorem hooks_exist_example :
    ∃ s : PoolRun Sfqd SfqdQueueItem,
      (s.proxy.slots 1).requests = [0] ∧ s.proxy.poolSize = 3
        ∧ s.proxy.UsesExisting hookConfig (.read 2 (.whole (sampleMessage 7 3))) := by
  obtain ⟨s, hrun, hs⟩ := Machine.Run.exists_of_exec
    (PoolRun.Attending hookConfig (Scheduler.Finds .sfqd)) (PoolRun.step hookConfig)
    (.init (sampleWorld (sfqdInit 1)) 3)
    [.accept 5 6 { weight := 1, appIndex := 0 }, .read 1 (.whole (sampleMessage 7 3)), .write 2 36]
    (fun s => ((s.proxy.slots 1).requests, s.proxy.poolSize,
      decide (s.Attending hookConfig (Scheduler.Finds .sfqd)
        (.read 2 (.whole (sampleMessage 7 3))))))
    (a := ([0], 3, true)) (by decide +kernel)
  simp only [Prod.mk.injEq, decide_eq_true_eq] at hs
  obtain ⟨hlist, hsize, hok⟩ := hs
  let env : Scheduler.Environment :=
    { myShare := fun _ _ _ _ _ => 0, myShareFull := fun _ _ _ _ _ _ => 0
      clock := fun _ => ⟨0, 0⟩, calculateDiffFull := fun _ _ => 0 }
  exact ⟨s, hlist, hsize,
    @hooks_exist env .sfqd hookConfig rfl _ (fun _ _ => rfl) _ _ s hrun _ hok⟩

/-- The table of `hookConfig`, with a completion that returns for a NULL item. -/
def hookMethodAnswering : SchedulerMethod Sfqd SfqdQueueItem :=
  { hookConfig.method with
    schUpdateOnRequestCompletion := fun complete g =>
      match complete.currentItem with
      | none => .ok { globals := g, ret := (none, 0) }
      | some _ => hookConfig.method.schUpdateOnRequestCompletion complete g }

theorem hookMethodAnswering_sameButNull : hookConfig.method.SameButNull hookMethodAnswering where
  workConserving := rfl
  selfDispatch := rfl
  acceptMeta := rfl
  enqueue := rfl
  addTtlThroughput := rfl
  dequeue _ _ _ := rfl
  completion message g hitem := by
    obtain ⟨it, hit⟩ := Option.ne_none_iff_exists'.mp hitem
    simp [hookMethodAnswering, hit]
  currentSize hook hhook := ⟨hook, hhook, fun _ _ => rfl⟩
  calculateDiff _ hhook := hhook

/-- The request of a metadata operation is never enqueued, and its response completed:
what the hook does for the NULL item decides the event. -/
theorem hooks_exist_fails :
    ∃ (es : List Proxy.Event) (s : PoolRun Sfqd SfqdQueueItem) (e : Proxy.Event),
      Machine.Run (fun s e => s.Served e ∧ s.proxy.Formed e) (PoolRun.step hookConfig)
        (.init (sampleWorld (sfqdInit 1)) 3) es s
      ∧ s.Served e ∧ s.proxy.Formed e ∧ ¬ s.proxy.UsesExisting hookConfig e := by
  obtain ⟨s, hrun, hs⟩ := Machine.Run.exists_of_exec
    (fun s e => s.Served e ∧ s.proxy.Formed e) (PoolRun.step hookConfig)
    (.init (sampleWorld (sfqdInit 1)) 3)
    [.accept 5 6 { weight := 1, appIndex := 0 }, .read 1 (.whole (sampleMessage 7 4)), .write 2 36]
    (fun s => (decide (s.Served (.read 2 (.whole (sampleMessage 7 4)))
        ∧ s.proxy.Formed (.read 2 (.whole (sampleMessage 7 4)))),
      (s.proxy.step hookConfig (.read 2 (.whole (sampleMessage 7 4)))).toOption.isSome,
      (s.proxy.step (hookConfig.using hookMethodAnswering)
        (.read 2 (.whole (sampleMessage 7 4)))).toOption.isSome))
    (a := (true, false, true)) (by decide +kernel)
  simp only [Prod.mk.injEq, decide_eq_true_eq] at hs
  obtain ⟨⟨hserved, hformed⟩, hfaults, hreturns⟩ := hs
  refine ⟨_, s, _, hrun, hserved, hformed, fun huses => ?_⟩
  rw [huses _ hookMethodAnswering_sameButNull, hfaults] at hreturns
  cases hreturns

end PvfsProxy
