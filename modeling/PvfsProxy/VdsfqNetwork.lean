import Mathlib.Data.Finset.Card
import PvfsProxy.VdsfqBroadcast

/-!
# Proxies that tell each other of their applications

Any number of vDSFQ proxies, with a channel from each to each of its peers that
keeps the order of what is sent. What a peer has taken from its channel are the
first messages of the stream; the rest is in flight. `vapp_entries_remote` then
counts the peers heard of, since no stream announces an application twice
(`Announced.receive`).
-/

namespace PvfsProxy

/-- Which proxies are connected: the connection `i` of proxy `p` leads to
`peer p i`, another one for each `i`. -/
structure VdsfqPeers where
  proxies : Nat
  servers : Nat → Nat
  peer : Nat → Nat → Nat
  bound : ∀ p < proxies, ∀ i < servers p, peer p i < proxies
  distinct : ∀ p < proxies, ∀ i < servers p, ∀ j < servers p, peer p i = peer p j → i = j

/-- All the proxies, and how much of each stream was received. -/
structure VdsfqNetwork where
  proxy : Nat → VdsfqProxy
  received : Nat → Nat → Nat

namespace VdsfqNetwork

def init (depth threshold : Nat → Int) (appStats : Nat → Nat → AppStatistics) : VdsfqNetwork where
  proxy p := .init (depth p) (threshold p) (appStats p)
  received _ _ := 0

/-- What proxy `p` has sent over its connection `i`. -/
def stream (p i : Nat) (s : VdsfqNetwork) : List ProxyMessage :=
  ((s.proxy p).broadcast.sent i).flatten

/-- What the peer has received of it. -/
def heard (p i : Nat) (s : VdsfqNetwork) : List ProxyMessage :=
  (s.stream p i).take (s.received p i)

inductive Event where
  | proxy (p : Nat) (e : VdsfqProxy.Event)
  | receive (p i : Nat)

/-- A thread of a proxy makes a step, or `vdsfq_proxy_receive_work` of a peer
takes the next message. -/
def step (peers : VdsfqPeers) (numApps : Nat) (s : VdsfqNetwork) :
    Event → Except Fault VdsfqNetwork
  | .proxy p e => do
    let t ← (s.proxy p).step numApps (peers.servers p) e
    return { s with proxy := Function.update s.proxy p t }
  | .receive p i =>
    match (s.stream p i)[s.received p i]? with
    | none => .ok s
    | some m => .ok
      { proxy := Function.update s.proxy (peers.peer p i)
          { s.proxy (peers.peer p i) with
            g := { (s.proxy (peers.peer p i)).g with
              sched := vdsfqReceive m (s.proxy (peers.peer p i)).g.sched } }
        received := Function.update s.received p
          (Function.update (s.received p) i (s.received p i + 1)) }

/-- The steps are of the proxies and their connections. -/
def InNetwork (peers : VdsfqPeers) (numApps : Nat) (s : VdsfqNetwork) : Event → Prop
  | .proxy p e => p < peers.proxies ∧ (s.proxy p).InApps numApps e
  | .receive p i => p < peers.proxies ∧ i < peers.servers p

instance (peers : VdsfqPeers) (numApps : Nat) (s : VdsfqNetwork) (e : Event) :
    Decidable (s.InNetwork peers numApps e) :=
  match e with
  | .proxy p e => inferInstanceAs (Decidable (p < peers.proxies ∧ (s.proxy p).InApps numApps e))
  | .receive p i => inferInstanceAs (Decidable (p < peers.proxies ∧ i < peers.servers p))

/-- Proxy `q` has received an announcement of the application from `p`. -/
def HeardOf (peers : VdsfqPeers) (s : VdsfqNetwork) (q app p : Nat) : Prop :=
  ∃ i < peers.servers p, peers.peer p i = q ∧ 0 < announcements app (s.heard p i)

instance (peers : VdsfqPeers) (s : VdsfqNetwork) (q app : Nat) :
    DecidablePred (s.HeardOf peers q app) := fun p =>
  inferInstanceAs (Decidable
    (∃ i < peers.servers p, peers.peer p i = q ∧ 0 < announcements app (s.heard p i)))

/-- The peers that proxy `q` has received an announcement from. -/
def heardFrom (peers : VdsfqPeers) (q app : Nat) (s : VdsfqNetwork) : Finset Nat :=
  (Finset.range peers.proxies).filter (s.HeardOf peers q app)

variable {peers : VdsfqPeers} {numApps : Nat} {s t : VdsfqNetwork}

theorem announcements_append (app : Nat) (ms ns : List ProxyMessage) :
    announcements app (ms ++ ns) = announcements app ms + announcements app ns :=
  List.countP_append

/-- What holds of all proxies and their streams. -/
structure Announced (peers : VdsfqPeers) (numApps : Nat) (s : VdsfqNetwork) : Prop where
  proxies : ∀ p < peers.proxies, (s.proxy p).Announcing numApps (peers.servers p)
  received : ∀ p < peers.proxies, ∀ i < peers.servers p,
    s.received p i ≤ (s.stream p i).length
  remote : ∀ q < peers.proxies, ∀ app < numApps,
    (s.proxy q).g.sched.appEntriesRemote app = (s.heardFrom peers q app).card

theorem Announced.init {depth threshold : Nat → Int} {appStats : Nat → Nat → AppStatistics} :
    Announced peers numApps (.init depth threshold appStats) where
  proxies _ _ := .init
  received _ _ _ _ := Nat.le_refl 0
  remote q _ app _ := by
    have hnone : (VdsfqNetwork.init depth threshold appStats).heardFrom peers q app = ∅ := by
      refine Finset.filter_eq_empty_iff.mpr ?_
      rintro p - ⟨i, -, -, hpos⟩
      exact absurd hpos (Nat.lt_irrefl 0)
    rw [hnone]
    rfl

/-- Hearing is about the messages received only. -/
theorem heardFrom_congr (h : ∀ p < peers.proxies, ∀ i < peers.servers p, t.heard p i = s.heard p i)
    (q app : Nat) : t.heardFrom peers q app = s.heardFrom peers q app := by
  refine Finset.filter_congr fun p hp => ?_
  have hp := Finset.mem_range.mp hp
  refine exists_congr fun i => and_congr_right fun hi => ?_
  rw [h p hp i hi]

/-- A proxy's stream tells of every application once at most. -/
theorem Announced.once (h : Announced peers numApps s) {p i app : Nat} (hp : p < peers.proxies)
    (hi : i < peers.servers p) (happ : app < numApps) :
    announcements app (s.stream p i) ≤ 1 := by
  have hproxy := h.proxies p hp
  have hplaced := hproxy.announcements happ hi
  rw [hproxy.handed.order i hi, List.flatten_append, announcements_append] at hplaced
  have hle : announcements app (s.stream p i) ≤
      if (s.proxy p).g.sched.appEntriesLocal app = 2 then 1 else 0 :=
    Nat.le_of_add_right_le hplaced.le
  split at hle <;> omega

/-- Every message of a stream says whether a configured application came. -/
theorem Announced.presence (h : Announced peers numApps s) {p i : Nat} (hp : p < peers.proxies)
    (hi : i < peers.servers p) {m : ProxyMessage} (hm : m ∈ s.stream p i) :
    m.Presence numApps := by
  have hproxy := h.proxies p hp
  refine hproxy.messages i hi m ?_
  rw [hproxy.handed.order i hi, List.flatten_append]
  exact List.mem_append_left _ hm

theorem Announced.proxy (h : Announced peers numApps s) {p : Nat} {e : VdsfqProxy.Event}
    (hp : p < peers.proxies) (hok : (s.proxy p).InApps numApps e) {r : VdsfqProxy}
    (hstep : (s.proxy p).step numApps (peers.servers p) e = .ok r) :
    Announced peers numApps { s with proxy := Function.update s.proxy p r } := by
  have hproxy := h.proxies p hp
  obtain ⟨hremote, hsent⟩ := hproxy.frame hstep
  have hstream : ∀ p' i, ∃ extra, VdsfqNetwork.stream p' i
      { s with proxy := Function.update s.proxy p r } = s.stream p' i ++ extra := by
    intro p' i
    by_cases hp' : p' = p
    · subst hp'
      obtain ⟨extra, hextra⟩ := hsent i
      refine ⟨extra.flatten, ?_⟩
      simp only [stream, Function.update_self, hextra, List.flatten_append]
    · refine ⟨[], ?_⟩
      simp only [stream, Function.update_of_ne hp', List.append_nil]
  have hheard : ∀ p' < peers.proxies, ∀ i < peers.servers p', VdsfqNetwork.heard p' i
      { s with proxy := Function.update s.proxy p r } = s.heard p' i := by
    intro p' hp' i hi
    obtain ⟨extra, hextra⟩ := hstream p' i
    unfold heard
    rw [hextra]
    exact List.take_append_of_le_length (h.received p' hp' i hi)
  refine ⟨fun p' hp' => ?_, fun p' hp' i hi => ?_, fun q hq app happ => ?_⟩
  · by_cases hpp : p' = p
    · subst hpp
      simpa using hproxy.step hok hstep
    · simpa [hpp] using h.proxies p' hp'
  · obtain ⟨extra, hextra⟩ := hstream p' i
    rw [hextra, List.length_append]
    exact Nat.le_add_right_of_le (h.received p' hp' i hi)
  · rw [heardFrom_congr hheard]
    by_cases hpq : q = p
    · subst hpq
      simpa [hremote] using h.remote q hq app happ
    · simpa [hpq] using h.remote q hq app happ

/-- The next message of a stream, behind what was received. -/
theorem heard_snoc {p i : Nat} {m : ProxyMessage}
    (hm : (s.stream p i)[s.received p i]? = some m) :
    (s.stream p i).take (s.received p i + 1) = s.heard p i ++ [m] := by
  rw [List.take_add_one, hm]
  rfl

/-- The next message announces its application, which the stream has not done
before, or says nothing. -/
theorem Announced.heardFrom_receive (h : Announced peers numApps s) {p i : Nat}
    (hp : p < peers.proxies) (hi : i < peers.servers p) {m : ProxyMessage}
    (hm : (s.stream p i)[s.received p i]? = some m) (hself : t.heard p i = s.heard p i ++ [m])
    (hother : ∀ p' j, ¬ (p' = p ∧ j = i) → t.heard p' j = s.heard p' j) (q app : Nat) :
    ((t.heardFrom peers q app).card : Int) = (s.heardFrom peers q app).card
      + if q = peers.peer p i ∧ app = m.appIndex then m.periodCount else 0 := by
  obtain ⟨happ, hcount⟩ := h.presence hp hi (List.mem_of_getElem? hm)
  by_cases hnew : (q = peers.peer p i ∧ app = m.appIndex) ∧ m.periodCount = 1
  · obtain ⟨⟨rfl, rfl⟩, hone⟩ := hnew
    have hann : announcements m.appIndex [m] = 1 := by
      simp [announcements, hone]
    have hbefore : announcements m.appIndex (s.heard p i) = 0 := by
      have honce := h.once hp hi happ
      rw [← List.take_append_drop (s.received p i + 1) (s.stream p i), heard_snoc hm,
        announcements_append, announcements_append, hann] at honce
      omega
    have hfresh : p ∉ s.heardFrom peers (peers.peer p i) m.appIndex := by
      intro hmem
      obtain ⟨j, hj, hpeer, hpos⟩ := (Finset.mem_filter.mp hmem).2
      obtain rfl := peers.distinct p hp j hj i hi hpeer
      omega
    have hinsert : t.heardFrom peers (peers.peer p i) m.appIndex
        = insert p (s.heardFrom peers (peers.peer p i) m.appIndex) := by
      ext p'
      simp only [heardFrom, Finset.mem_insert, Finset.mem_filter, Finset.mem_range]
      constructor
      · rintro ⟨hp', j, hj, hpeer, hpos⟩
        by_cases hthis : p' = p ∧ j = i
        · exact .inl hthis.1
        · rw [hother p' j hthis] at hpos
          exact .inr ⟨hp', j, hj, hpeer, hpos⟩
      · rintro (rfl | ⟨hp', j, hj, hpeer, hpos⟩)
        · refine ⟨hp, i, hi, rfl, ?_⟩
          rw [hself, announcements_append, hann]
          omega
        · refine ⟨hp', j, hj, hpeer, ?_⟩
          by_cases hthis : p' = p ∧ j = i
          · rw [hthis.1, hthis.2, hself, announcements_append, hann]
            omega
          · rw [hother p' j hthis]
            exact hpos
    rw [hinsert, Finset.card_insert_of_notMem hfresh, hone]
    simp
  · -- the count of announcements is as before for this proxy and application
    have hsame : t.heardFrom peers q app = s.heardFrom peers q app := by
      refine Finset.filter_congr fun p' _ => exists_congr fun j => and_congr_right fun _ => ?_
      refine and_congr_right fun hpeer => ?_
      by_cases hthis : p' = p ∧ j = i
      · obtain ⟨rfl, rfl⟩ := hthis
        have hnone : announcements app [m] = 0 := by
          refine List.countP_eq_zero.mpr fun m' hm' => ?_
          obtain rfl := List.mem_singleton.mp hm'
          simp only [decide_eq_true_eq]
          rintro ⟨rfl, hne⟩
          rcases hcount with hzero | hone
          · exact hne hzero
          · exact hnew ⟨⟨hpeer.symm, rfl⟩, hone⟩
        rw [hself, announcements_append, hnone]
        rfl
      · rw [hother p' j hthis]
    rw [hsame]
    split
    · rename_i hmatch
      rcases hcount with hzero | hone
      · rw [hzero, Int.add_zero]
      · exact absurd ⟨hmatch, hone⟩ hnew
    · rw [Int.add_zero]

/-- A message received changes no proxy but for its count of peers. -/
theorem receive_announcing {servers : Nat} {r : VdsfqProxy} (h : r.Announcing numApps servers)
    (m : ProxyMessage) : VdsfqProxy.Announcing numApps servers
      { r with g := { r.g with sched := vdsfqReceive m r.g.sched } } :=
  ⟨h.handed, h.waits, h.ready, h.entry, h.counter, h.serves, h.told, h.messages⟩

theorem Announced.receive (h : Announced peers numApps s) {p i : Nat} (hp : p < peers.proxies)
    (hi : i < peers.servers p) (hstep : s.step peers numApps (.receive p i) = .ok t) :
    Announced peers numApps t := by
  unfold step at hstep
  dsimp only at hstep
  split at hstep
  · obtain rfl := Except.ok.inj hstep
    exact h
  · rename_i m hm
    have hproxy : ∀ p', (t.proxy p').broadcast = (s.proxy p').broadcast
        ∧ ((s.proxy p').Announcing numApps (peers.servers p') →
          (t.proxy p').Announcing numApps (peers.servers p')) := by
      obtain rfl := Except.ok.inj hstep
      intro p'
      by_cases hpeer : p' = peers.peer p i
      · subst hpeer
        simp only [Function.update_self]
        exact ⟨trivial, fun hr => receive_announcing hr m⟩
      · simp only [Function.update_of_ne hpeer]
        exact ⟨trivial, id⟩
    have hstream : ∀ p' j, t.stream p' j = s.stream p' j := by
      intro p' j
      unfold stream
      rw [(hproxy p').1]
    have hreceived : ∀ p' j, t.received p' j
        = if p' = p ∧ j = i then s.received p i + 1 else s.received p' j := by
      obtain rfl := Except.ok.inj hstep
      intro p' j
      by_cases hp' : p' = p
      · subst hp'
        by_cases hj : j = i
        · subst hj
          simp
        · simp [hj]
      · simp [hp']
    have hremote : ∀ q app, (t.proxy q).g.sched.appEntriesRemote app
        = (s.proxy q).g.sched.appEntriesRemote app
          + if q = peers.peer p i ∧ app = m.appIndex then m.periodCount else 0 := by
      obtain rfl := Except.ok.inj hstep
      intro q app
      by_cases hq : q = peers.peer p i
      · subst hq
        by_cases happ : app = m.appIndex
        · subst happ
          simp [vdsfqReceive]
        · simp [vdsfqReceive, happ]
      · simp [hq]
    have hself : t.heard p i = s.heard p i ++ [m] := by
      rw [← heard_snoc hm]
      unfold heard
      rw [hstream, hreceived, if_pos ⟨rfl, rfl⟩]
    have hother : ∀ p' j, ¬ (p' = p ∧ j = i) → t.heard p' j = s.heard p' j := by
      intro p' j hne
      unfold heard
      rw [hstream, hreceived, if_neg hne]
    refine ⟨fun p' hp' => (hproxy p').2 (h.proxies p' hp'), fun p' hp' j hj => ?_,
      fun q hq app happ => ?_⟩
    · rw [hstream, hreceived]
      split
      · rename_i hthis
        obtain ⟨hlt, -⟩ := List.getElem?_eq_some_iff.mp hm
        rw [hthis.1, hthis.2]
        exact hlt
      · exact h.received p' hp' j hj
    · rw [hremote, h.remote q hq app happ]
      exact (h.heardFrom_receive hp hi hm hself hother q app).symm

theorem Announced.step (h : Announced peers numApps s) {e : Event}
    (hok : s.InNetwork peers numApps e) (hstep : s.step peers numApps e = .ok t) :
    Announced peers numApps t := by
  cases e with
  | proxy p e =>
      obtain ⟨r, hr, hstep⟩ := Machine.bind_eq_ok.mp hstep
      obtain rfl := Machine.pure_eq_ok.mp hstep
      exact h.proxy hok.1 hok.2 hr
  | receive p i => exact h.receive hok.1 hok.2 hstep

theorem Announced.run {depth threshold : Nat → Int} {appStats : Nat → Nat → AppStatistics}
    {es : List Event} (hrun : Machine.Run (InNetwork peers numApps)
      (VdsfqNetwork.step peers numApps) (VdsfqNetwork.init depth threshold appStats) es s) :
    Announced peers numApps s := by
  induction hrun with
  | nil => exact .init
  | snoc _ hok hstep ih => exact ih.step hok hstep

/-- Every proxy's entries move as in its own steps. -/
theorem Announced.moves (h : Announced peers numApps s) {e : Event}
    (hok : s.InNetwork peers numApps e) (hstep : s.step peers numApps e = .ok t) (p app : Nat) :
    VdsfqProxy.Moves ((s.proxy p).g.sched.appEntriesLocal app)
      ((t.proxy p).g.sched.appEntriesLocal app) := by
  cases e with
  | proxy p' e =>
      obtain ⟨r, hr, hstep⟩ := Machine.bind_eq_ok.mp hstep
      obtain rfl := Machine.pure_eq_ok.mp hstep
      by_cases hp : p = p'
      · subst hp
        simpa using (h.proxies p hok.1).moves hr app
      · simp only [Function.update_of_ne hp]
        exact .inl rfl
  | receive p' i =>
      unfold VdsfqNetwork.step at hstep
      dsimp only at hstep
      split at hstep
      · obtain rfl := Except.ok.inj hstep
        exact .inl rfl
      · obtain rfl := Except.ok.inj hstep
        by_cases hp : p = peers.peer p' i
        · subst hp
          simp only [Function.update_self]
          exact .inl rfl
        · simp only [Function.update_of_ne hp]
          exact .inl rfl

end VdsfqNetwork

/-- **Presence is announced once.** In every reachable state of the proxies and
their channels: a broadcast says of configured applications only whether they
came, of an application that was served there, and once to each peer; the
counts are of the peers heard of. The entries move from 0 to 1 to 2, and the
broadcasts to every peer get their announcement in the very step from 1 to 2. -/
theorem vdsfq_presence {peers : VdsfqPeers} {numApps : Nat} {depth threshold : Nat → Int}
    {appStats : Nat → Nat → AppStatistics} {es : List VdsfqNetwork.Event} {s : VdsfqNetwork}
    (hrun : Machine.Run (VdsfqNetwork.InNetwork peers numApps) (VdsfqNetwork.step peers numApps)
      (.init depth threshold appStats) es s) :
    (∀ p < peers.proxies, ∀ i < peers.servers p,
      (∀ app < numApps, announcements app (s.stream p i) ≤ 1)
      ∧ ∀ m ∈ s.stream p i, m.Presence numApps
        ∧ (m.periodCount = 1 → m.appIndex ∈ (s.proxy p).served))
    ∧ (∀ q < peers.proxies, ∀ app < numApps,
        (s.proxy q).g.sched.appEntriesRemote app = (s.heardFrom peers q app).card)
    ∧ ∀ e t, s.InNetwork peers numApps e → s.step peers numApps e = .ok t →
        ∀ p < peers.proxies, ∀ app < numApps,
          VdsfqProxy.Moves ((s.proxy p).g.sched.appEntriesLocal app)
            ((t.proxy p).g.sched.appEntriesLocal app)
          ∧ ∀ i < peers.servers p,
            announcements app ((t.proxy p).broadcast.placed i).flatten
              = announcements app ((s.proxy p).broadcast.placed i).flatten
                + if (s.proxy p).g.sched.appEntriesLocal app = 1
                    ∧ (t.proxy p).g.sched.appEntriesLocal app = 2 then 1 else 0 := by
  have hs := VdsfqNetwork.Announced.run hrun
  refine ⟨fun p hp i hi => ⟨fun app happ => hs.once hp hi happ, fun m hm => ?_⟩, hs.remote, ?_⟩
  · have hpresence := hs.presence hp hi hm
    refine ⟨hpresence, fun hone => (hs.proxies p hp).serves _ hpresence.1 fun hzero => ?_⟩
    -- an announced application has entry 2
    have hcount := (hs.proxies p hp).announcements hpresence.1 hi
    rw [hzero, (hs.proxies p hp).handed.order i hi, List.flatten_append,
      VdsfqNetwork.announcements_append] at hcount
    have hnone : announcements m.appIndex (s.stream p i) = 0 :=
      Nat.eq_zero_of_add_eq_zero_right hcount
    refine List.countP_eq_zero.mp hnone m hm ?_
    simp [hone]
  · intro e t hok hstep p hp app happ
    have ht := hs.step hok hstep
    have hmoves := hs.moves hok hstep p app
    refine ⟨hmoves, fun i hi => ?_⟩
    rw [(hs.proxies p hp).announcements happ hi, (ht.proxies p hp).announcements happ hi]
    rcases hmoves with hsame | ⟨hzero, hone⟩ | ⟨hone, htwo⟩
    · rw [hsame]
      split <;> simp_all
    · simp [hzero, hone]
    · simp [hone, htwo]

/-- Two proxies, connected both ways. -/
def twoProxies : VdsfqPeers where
  proxies := 2
  servers _ := 1
  peer p _ := 1 - p
  bound := by decide
  distinct := by decide

/-- Application 1 comes to the first proxy, which tells the second. -/
theorem vdsfq_presence_example :
    ∃ s : VdsfqNetwork, (s.proxy 0).g.sched.appEntriesLocal 1 = 2
      ∧ (1 : Int) = (s.heardFrom twoProxies 1 1).card := by
  obtain ⟨s, hrun, hs⟩ := Machine.Run.exists_of_exec (VdsfqNetwork.InNetwork twoProxies 2)
    (VdsfqNetwork.step twoProxies 2)
    (.init (fun _ => 1) (fun _ => 1) fun _ _ => { appWeight := 1 })
    [.proxy 0 (.announce (fun _ => { socket := 5, appIndex := 1, weight := 1 })
        { requestSocket := 0, dataSocket := 0, appIndex := 1, rs := 0 }),
      .proxy 0 .coordinate, .proxy 0 (.work true), .proxy 0 (.work true),
      .receive 0 0, .receive 0 0]
    (fun s => ((s.proxy 0).g.sched.appEntriesLocal 1, (s.proxy 1).g.sched.appEntriesRemote 1))
    (a := (2, 1)) (by decide +kernel)
  obtain ⟨hlocal, hremote⟩ := Prod.mk.inj hs
  have hcount := (vdsfq_presence hrun).2.1 1 (by decide) 1 (by decide)
  exact ⟨s, hlocal, hremote.symm.trans hcount⟩

end PvfsProxy
