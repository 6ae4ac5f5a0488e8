import PvfsProxy.PoolPairing

/-!
# Accepts and closes

Runs of the proxy with the descriptors of its connections as history:
`opened` holds, for every connection whose close has not been seen, the two
descriptors one accept put together. A close is handled well when what the
pool holds afterwards is what is left of `opened`.

`PoolRun.Tracks` is the invariant of the runs in which the kernel reports
closes on client sockets only, and `removesPair_iff` says what one close does
on any slot: on the server's socket it never removes its own pair.
-/

namespace PvfsProxy

open SwapRemove
open Proxy (movedFrom movedFrom_lt movedFrom_inj)

variable {σ ι : Type}

namespace Proxy

/-- The descriptors in slots `2k + 1` and `2k + 2`. -/
def descriptor (s : Proxy σ ι) (k : Nat) : Int × Int :=
  ((s.slots (2 * k + 1)).socket, (s.slots (2 * k + 2)).socket)

def descriptors (s : Proxy σ ι) : List (Int × Int) :=
  entries s.descriptor ((s.poolSize - 1) / 2)

end Proxy

structure PoolRun (σ ι : Type) where
  proxy : Proxy σ ι
  opened : List (Int × Int)

/-- Does the event find the socket closed? -/
def Incoming.Closes (incoming : Incoming) : Prop :=
  incoming.visible = [] ∧ incoming.ended = true

instance (incoming : Incoming) : Decidable incoming.Closes :=
  inferInstanceAs (Decidable (_ ∧ _))

namespace PoolRun

/-- The connection with descriptor `fd` is not open any more. -/
def without (opened : List (Int × Int)) (fd : Int) : List (Int × Int) :=
  opened.filter fun d => d.1 ≠ fd ∧ d.2 ≠ fd

def step (cfg : Config σ ι) (s : PoolRun σ ι) (e : Proxy.Event) :
    Except Fault (PoolRun σ ι) := do
  let proxy ← s.proxy.step cfg e
  return {
    proxy
    opened := match e with
      | .accept client server _ => s.opened ++ [(client, server)]
      | .read i incoming =>
        if incoming.Closes then without s.opened (s.proxy.pollFd i) else s.opened
      | .write _ _ => s.opened
      | .prepare => s.opened }

/-- What the kernel reports: new descriptors are new, and connections are
polled in the slots of the pool. -/
def Kernel (s : PoolRun σ ι) : Proxy.Event → Prop
  | .accept client server _ => server ≠ 0 ∧ client ≠ server
      ∧ ∀ i < s.proxy.poolSize, s.proxy.pollFd i ≠ client ∧ s.proxy.pollFd i ≠ server
  | .read i _ => 0 < i ∧ i < s.proxy.poolSize
  | .write i _ => 0 < i ∧ i < s.proxy.poolSize
  | .prepare => True

instance (s : PoolRun σ ι) (e : Proxy.Event) : Decidable (s.Kernel e) := by
  cases e <;> unfold Kernel <;> infer_instance

/-- A close is observed on a client's socket. -/
def ClosesAtClient (s : PoolRun σ ι) : Proxy.Event → Prop
  | .read i incoming => incoming.Closes → (s.proxy.slots i).source = .client
  | _ => True

instance (s : PoolRun σ ι) (e : Proxy.Event) : Decidable (s.ClosesAtClient e) := by
  cases e <;> unfold ClosesAtClient <;> infer_instance

/-- What the kernel reports as long as only clients close. -/
def Served (s : PoolRun σ ι) (e : Proxy.Event) : Prop := s.Kernel e ∧ s.ClosesAtClient e

instance (s : PoolRun σ ι) (e : Proxy.Event) : Decidable (s.Served e) :=
  inferInstanceAs (Decidable (_ ∧ _))

def init (w : World σ ι) (listenSocket : Int) : PoolRun σ ι where
  proxy := Proxy.setupSocket w listenSocket
  opened := []

structure Tracks (s : PoolRun σ ι) : Prop where
  paired : s.proxy.Paired
  distinct : ∀ i j, i < s.proxy.poolSize → j < s.proxy.poolSize → i ≠ j →
    (s.proxy.slots i).socket ≠ (s.proxy.slots j).socket
  opened : s.proxy.descriptors.Perm s.opened

theorem Tracks.init {w : World σ ι} (hw : w.Fresh) (listenSocket : Int) :
    (init w listenSocket).Tracks := by
  have hsize : (PoolRun.init w listenSocket).proxy.poolSize = 1 := rfl
  exact
    { paired := .setup hw listenSocket
      distinct := fun i j hi hj hij => by omega
      opened := by
        rw [Proxy.descriptors, hsize]
        exact .refl _ }

/-! ## What each event does to the descriptors -/

namespace Tracks

variable {s : PoolRun σ ι}

theorem of_same (h : s.Tracks) {proxy : Proxy σ ι} (hpaired : proxy.Paired)
    (hsize : proxy.poolSize = s.proxy.poolSize)
    (hsocket : ∀ j, (proxy.slots j).socket = (s.proxy.slots j).socket) :
    Tracks { proxy, opened := s.opened } where
  paired := hpaired
  distinct i j hi hj hij := by
    simp only [hsocket]
    rw [hsize] at hi hj
    exact h.distinct i j hi hj hij
  opened := by
    have hsame : proxy.descriptors = s.proxy.descriptors := by
      simp only [Proxy.descriptors, hsize]
      refine entries_congr fun k _ => ?_
      simp only [Proxy.descriptor, hsocket]
    rw [hsame]
    exact h.opened

theorem put (h : s.Tracks) {i : Nat} (hi : 0 < i) (hlt : i < s.proxy.poolSize) {c : Conn σ ι}
    (hc : (s.proxy.conn i).Effect c) :
    Tracks { proxy := s.proxy.put c, opened := s.opened } :=
  h.of_same (h.paired.put hi hlt hc) rfl fun j => (h.paired.put_same hi hlt hc j).socket

theorem accept (h : s.Tracks) (cfg : Config σ ι) {client server : Int} (hserver : server ≠ 0)
    (ipa : IpApplication) (hne : client ≠ server)
    (hnew : ∀ i < s.proxy.poolSize, s.proxy.pollFd i ≠ client ∧ s.proxy.pollFd i ≠ server) :
    Tracks { proxy := s.proxy.acceptSocket cfg client server ipa
             opened := s.opened ++ [(client, server)] } := by
  have hodd := h.paired.odd
  have hsize := (Proxy.acceptSocket_rest (s := s.proxy) cfg client hserver ipa).1
  have hslots := Proxy.acceptSocket_slots (s := s.proxy) cfg client hserver ipa
  have hpaired := h.paired.accept cfg client hserver ipa
  generalize s.proxy.acceptSocket cfg client server ipa = t at *
  have hold : ∀ j < s.proxy.poolSize, (t.slots j).socket = (s.proxy.slots j).socket := by
    intro j hj
    rw [hslots, if_neg (by omega), if_neg (by omega)]
  have hclient : (t.slots s.proxy.poolSize).socket = client := by
    rw [hslots, if_neg (by omega), if_pos rfl]
  have hserver' : (t.slots (s.proxy.poolSize + 1)).socket = server := by
    rw [hslots, if_pos rfl]
  have hfd : ∀ j < s.proxy.poolSize, (t.slots j).socket ≠ client ∧ (t.slots j).socket ≠ server := by
    intro j hj
    rw [hold j hj, ← h.paired.polled j hj]
    exact hnew j hj
  refine ⟨hpaired, ?_, ?_⟩
  · -- an old slot against the others, then the two new ones
    have hone : ∀ i j, i < t.poolSize → j < t.poolSize → i ≠ j → i < s.proxy.poolSize →
        (t.slots i).socket ≠ (t.slots j).socket := by
      intro i j hi hj hij hiold
      by_cases hjold : j < s.proxy.poolSize
      · rw [hold i hiold, hold j hjold]
        exact h.distinct i j hiold hjold hij
      · obtain rfl | rfl : j = s.proxy.poolSize ∨ j = s.proxy.poolSize + 1 := by omega
        · rw [hclient]
          exact (hfd i hiold).1
        · rw [hserver']
          exact (hfd i hiold).2
    intro i j hi hj hij
    have hi : i < t.poolSize := hi
    have hj : j < t.poolSize := hj
    by_cases hiold : i < s.proxy.poolSize
    · exact hone i j hi hj hij hiold
    by_cases hjold : j < s.proxy.poolSize
    · exact (hone j i hj hi hij.symm hjold).symm
    obtain rfl | rfl : i = s.proxy.poolSize ∨ i = s.proxy.poolSize + 1 := by omega
    · obtain rfl : j = s.proxy.poolSize + 1 := by omega
      rw [hclient, hserver']
      exact hne
    · obtain rfl : j = s.proxy.poolSize := by omega
      rw [hclient, hserver']
      exact hne.symm
  · obtain ⟨m, hm⟩ : ∃ m, s.proxy.poolSize = 2 * m + 1 := ⟨s.proxy.poolSize / 2, by omega⟩
    have hold' : entries t.descriptor m = s.proxy.descriptors := by
      have hpairs : (s.proxy.poolSize - 1) / 2 = m := by omega
      rw [Proxy.descriptors, hpairs]
      refine entries_congr fun k hk => ?_
      unfold Proxy.descriptor
      rw [hold _ (by omega), hold _ (by omega)]
    have hlast : t.descriptor m = (client, server) := by
      unfold Proxy.descriptor
      rw [← hclient, ← hserver', hm]
    have hpairs : (t.poolSize - 1) / 2 = m + 1 := by omega
    rw [Proxy.descriptors, hpairs, entries_succ, hold', hlast]
    exact h.opened.append_right _

theorem descriptor_ne (h : s.Tracks) {k l : Nat} (hk : 2 * k + 2 < s.proxy.poolSize)
    (hl : 2 * l + 2 < s.proxy.poolSize) (hkl : k ≠ l) :
    (s.proxy.descriptor k).1 ≠ (s.proxy.descriptor l).1
      ∧ (s.proxy.descriptor k).1 ≠ (s.proxy.descriptor l).2
      ∧ (s.proxy.descriptor k).2 ≠ (s.proxy.descriptor l).1 := by
  unfold Proxy.descriptor
  exact ⟨h.distinct _ _ (by omega) (by omega) (by omega),
    h.distinct _ _ (by omega) (by omega) (by omega),
    h.distinct _ _ (by omega) (by omega) (by omega)⟩

/-- A close on the client's socket in slot `2k + 1`. -/
theorem closePair (h : s.Tracks) {k : Nat} (hk : 2 * k + 1 < s.proxy.poolSize)
    {t : Proxy σ ι} (ht : s.proxy.closePair (2 * k + 1) = .ok t) :
    Tracks { proxy := t, opened := without s.opened (s.proxy.pollFd (2 * k + 1)) } := by
  have hodd := h.paired.odd
  have hmod : (2 * k + 1) % 2 = 1 := by omega
  have hpaired := h.paired.closePair hmod hk ht
  obtain ⟨t', n, ht', hn, hsize, -, -, -, hslots⟩ := Proxy.closePair_ok h.paired hmod hk
  obtain rfl : t' = t := Except.ok.inj (ht'.symm.trans ht)
  obtain ⟨m, rfl⟩ : ∃ m, n = 2 * m + 1 := ⟨n / 2, by omega⟩
  have hsocket : ∀ j < 2 * m + 1, (t'.slots j).socket
      = (s.proxy.slots (movedFrom (2 * k + 1) (2 * m + 1) j)).socket := by
    intro j hj
    rw [(hslots j hj).2]
    clear hslots
    by_cases hzero : j = 0
    · subst hzero
      have hfrom : movedFrom (2 * k + 1) (2 * m + 1) 0 = 0 := by
        unfold movedFrom
        rw [if_neg (by omega), if_neg (by omega)]
      rw [if_pos rfl, hfrom]
    · rw [if_neg hzero]
  refine ⟨hpaired, ?_, ?_⟩
  · intro i j hi hj hij
    have hi : i < 2 * m + 1 := hsize ▸ hi
    have hj : j < 2 * m + 1 := hsize ▸ hj
    simp only [hsocket i hi, hsocket j hj]
    exact h.distinct _ _ (hn ▸ movedFrom_lt hi) (hn ▸ movedFrom_lt hj)
      fun heq => hij (movedFrom_inj hi hj heq)
  · have hmoved : ∀ l < m, t'.descriptor l = swapRemove s.proxy.descriptor m k l := by
      intro l hl
      unfold swapRemove Proxy.descriptor
      rw [hsocket _ (by omega), hsocket _ (by omega), Function.update_apply]
      unfold movedFrom
      by_cases hlk : l = k
      · subst hlk
        simp
      · have h₁ : ¬ 2 * l + 1 = 2 * k + 1 := by omega
        have h₂ : ¬ 2 * l + 1 = 2 * k + 1 + 1 := by omega
        have h₃ : ¬ 2 * l + 2 = 2 * k + 1 := by omega
        have h₄ : ¬ 2 * l + 2 = 2 * k + 1 + 1 := by omega
        simp only [h₁, h₂, h₃, h₄, hlk, if_false]
    have hrest : t'.descriptors = entries (swapRemove s.proxy.descriptor m k) m := by
      have hpairs : (t'.poolSize - 1) / 2 = m := by omega
      rw [Proxy.descriptors, hpairs]
      exact entries_congr hmoved
    have hall : s.proxy.descriptors = entries s.proxy.descriptor (m + 1) := by
      have hpairs : (s.proxy.poolSize - 1) / 2 = m + 1 := by omega
      rw [Proxy.descriptors, hpairs]
    have hperm := swapRemove_perm s.proxy.descriptor (show k ≤ m by omega)
    rw [← hall, ← hrest] at hperm
    have hfd : s.proxy.pollFd (2 * k + 1) = (s.proxy.descriptor k).1 := h.paired.polled _ hk
    -- no other connection has the descriptor
    have hothers : ∀ d ∈ t'.descriptors,
        d.1 ≠ (s.proxy.descriptor k).1 ∧ d.2 ≠ (s.proxy.descriptor k).1 := by
      intro d hd
      rw [hrest, mem_entries] at hd
      obtain ⟨l, hl, rfl⟩ := hd
      unfold swapRemove
      rw [Function.update_apply]
      by_cases hlk : l = k
      · rw [if_pos hlk]
        have hmk := h.descriptor_ne (k := k) (l := m) (by omega) (by omega) (by omega)
        exact ⟨hmk.1.symm, hmk.2.1.symm⟩
      · rw [if_neg hlk]
        have hlk' := h.descriptor_ne (k := k) (l := l) (by omega) (by omega) (Ne.symm hlk)
        exact ⟨hlk'.1.symm, hlk'.2.1.symm⟩
    have hkeep : without t'.descriptors (s.proxy.descriptor k).1 = t'.descriptors := by
      refine List.filter_eq_self.mpr fun d hd => ?_
      simpa using hothers d hd
    have hgone : without (s.proxy.descriptor k :: t'.descriptors) (s.proxy.descriptor k).1
        = t'.descriptors := by
      conv_rhs => rw [← hkeep]
      unfold without
      rw [List.filter_cons_of_neg (by simp)]
    have hopened := (hperm.trans h.opened).filter
      fun d => decide (d.1 ≠ (s.proxy.descriptor k).1 ∧ d.2 ≠ (s.proxy.descriptor k).1)
    rw [hfd]
    unfold without at hgone ⊢
    rw [hgone] at hopened
    exact hopened

end Tracks

end PoolRun

/-! ## Reading from a closed socket -/

/-- Is there room for the message at hand? -/
def Conn.Room (c : Conn σ ι) : Prop :=
  ∀ p, c.me.currentReceiveItem = some p →
    ∃ rs, c.w.mem p = some rs ∧ rs.bufferTail < rs.bufferSize

section closed

variable {cfg : Config σ ι} {incoming : Incoming} {c : Conn σ ι} {outcome : ReadOutcome σ ι}

theorem peeked_nil (hnone : incoming.visible = []) : incoming.peeked = [] := by
  have hgrows := incoming.grows
  rw [hnone] at hgrows
  exact List.prefix_nil.mp hgrows

theorem Peeked.of_nil {visible : List UInt8} {c₁ : Conn σ ι} {ret : Int} (hnil : visible = [])
    (h : Peeked cfg visible c c₁ ret) : c₁ = c ∧ ret = -1 ∧ c.me.source = .client := by
  subst hnil
  cases h with
  | request hsource h =>
      cases h with
      | header h => exact ⟨rfl, rfl, hsource⟩
      | flow h hopen hold hflow htag => exact absurd h (by decide)
      | short h hopen hold hlen => exact absurd h (by decide)
      | new h hopen hold hlen hnew htag => exact absurd h (by decide)
  | response hsource h =>
      cases h with
      | flow h hopen htag => exact absurd h (by decide)
      | short h hopen hlen htag => exact absurd h (by decide)
      | new h hopen hlen hnew htag => exact absurd h (by decide)

/-- With nothing to see a read ends in a close, and on an idle socket only if
that is the client's. -/
theorem ReadStep.of_nil (hnone : incoming.visible = [])
    (h : ReadStep cfg incoming c outcome) :
    outcome = .closed c ∧ c.Room ∧ incoming.ended = true
      ∧ (c.me.currentReceiveItem = none → c.me.source = .client) := by
  have hgot : ∀ {got : List UInt8} {n : Nat}, got = incoming.visible.take n → got = [] := by
    intro got n hgot
    rw [hgot, hnone, List.take_nil]
  cases h with
  | more hp h =>
      cases h with
      | closed hrs hroom _ hended =>
          refine ⟨rfl, fun q hq => ?_, hended, fun hidle => ?_⟩
          · rw [hp] at hq
            obtain rfl := Option.some.inj hq
            exact ⟨_, hrs, hroom⟩
          · rw [hp] at hidle
            cases hidle
      | part hrs hroom hg hne hjob hpart => exact absurd (hgot hg) hne
      | whole hrs hroom hg hne hjob hwhole hcomplete => exact absurd (hgot hg) hne
  | closed hp hpeek _ hended =>
      obtain ⟨rfl, -, hsource⟩ := hpeek.of_nil (peeked_nil hnone)
      refine ⟨rfl, fun q hq => ?_, hended, fun _ => hsource⟩
      rw [hp] at hq
      cases hq
  | again hp hpeek hret =>
      obtain ⟨-, rfl, -⟩ := hpeek.of_nil (peeked_nil hnone)
      omega
  | first hp hpeek hret hp₁ h =>
      obtain ⟨-, rfl, -⟩ := hpeek.of_nil (peeked_nil hnone)
      omega

/-- A close is only found where nothing is to be seen. -/
theorem ReadStep.closes {c' : Conn σ ι} (h : ReadStep cfg incoming c (.closed c')) :
    incoming.Closes := by
  cases h with
  | more hp h =>
      cases h with
      | closed hrs hroom hnone hended => exact ⟨hnone, hended⟩
  | closed hp hpeek hnone hended => exact ⟨hnone, hended⟩
  | first hp hpeek hret hp₁ h =>
      cases h with
      | closed hrs hroom hnone hended => exact ⟨hnone, hended⟩

theorem readEvent_closes (hcloses : incoming.Closes) (hroom : c.Room)
    (hidle : c.me.currentReceiveItem = none → c.me.source = .client) :
    readEvent cfg incoming c = .ok (.closed c) := by
  obtain ⟨hnone, hended⟩ := hcloses
  unfold readEvent
  cases hp : c.me.currentReceiveItem with
  | some p =>
      obtain ⟨rs, hrs, hlt⟩ := hroom p hp
      have hpos : ¬ rs.bufferSize - rs.bufferTail ≤ 0 := by omega
      simp [receive, Mem.deref, hrs, hnone, hended, hpos, bind, Except.bind, pure, Except.pure]
  | none =>
      simp [hidle hp, peeked_nil hnone, checkRequest, getBmiHeader, bmiHeaderLength, hnone, hended,
        bind, Except.bind, pure, Except.pure]

end closed

theorem Proxy.put_conn (s : Proxy σ ι) (i : Nat) : s.put (s.conn i) = s := by
  unfold Proxy.put Proxy.conn
  simp only [Function.update_eq_self]

/-! ## Every run -/

namespace PoolRun

variable {cfg : Config σ ι} {s s' : PoolRun σ ι}

theorem Tracks.read (h : s.Tracks) {i : Nat} {incoming : Incoming} (hi : 0 < i)
    (hlt : i < s.proxy.poolSize)
    (hclient : incoming.Closes → (s.proxy.slots i).source = .client)
    (hstep : s.step cfg (.read i incoming) = .ok s') : s'.Tracks := by
  obtain ⟨proxy, hread, hs'⟩ := Machine.bind_eq_ok.mp hstep
  obtain rfl := Machine.pure_eq_ok.mp hs'
  obtain ⟨outcome, hevent, hread⟩ := Machine.bind_eq_ok.mp hread
  have hevent := readEvent_ok hevent
  have howned := h.paired.owned hi hlt
  have hput : ∀ c, outcome.conn = c → (∀ c', outcome ≠ .closed c') →
      Tracks { proxy := s.proxy.put c
               opened := if incoming.Closes then without s.opened (s.proxy.pollFd i)
                 else s.opened } := by
    rintro c rfl hopen
    rw [if_neg fun hcloses => hopen _ (hevent.of_nil hcloses.1).1]
    exact h.put hi hlt ((hevent.grows h.paired.fresh).effect howned)
  cases outcome with
  | again c =>
      obtain rfl := Machine.pure_eq_ok.mp hread
      exact hput c rfl (by simp)
  | received c n =>
      obtain rfl := Machine.pure_eq_ok.mp hread
      exact hput c rfl (by simp)
  | closed c =>
      have hcloses := hevent.closes
      obtain rfl := ReadOutcome.closed.inj (hevent.of_nil hcloses.1).1
      dsimp only at hread
      rw [Proxy.put_conn] at hread
      simp only [if_pos hcloses]
      have hodd := h.paired.client_odd hi hlt (hclient hcloses)
      obtain ⟨k, rfl⟩ : ∃ k, i = 2 * k + 1 := ⟨i / 2, by omega⟩
      exact h.closePair hlt hread

/-- Every event but a close on a server's socket keeps the pool paired. -/
theorem Tracks.step (h : s.Tracks) {e : Proxy.Event} (hkernel : s.Kernel e)
    (hclient : s.ClosesAtClient e) (hstep : s.step cfg e = .ok s') : s'.Tracks := by
  cases e with
  | accept client server ipa =>
      obtain rfl := Except.ok.inj hstep
      exact h.accept cfg hkernel.1 ipa hkernel.2.1 hkernel.2.2
  | read i incoming => exact h.read hkernel.1 hkernel.2 hclient hstep
  | write i sent =>
      obtain ⟨proxy, hwrite, hs'⟩ := Machine.bind_eq_ok.mp hstep
      obtain rfl := Machine.pure_eq_ok.mp hs'
      obtain ⟨⟨c, bytes⟩, hevent, hwrite⟩ := Machine.bind_eq_ok.mp hwrite
      obtain rfl := Machine.pure_eq_ok.mp hwrite
      have howned := h.paired.owned hkernel.1 hkernel.2
      exact h.put hkernel.1 hkernel.2 ((writeEvent_ok hevent).shrinks.effect howned)
  | prepare =>
      obtain ⟨proxy, hprep, hs'⟩ := Machine.bind_eq_ok.mp hstep
      obtain rfl := Machine.pure_eq_ok.mp hs'
      -- slot by slot, with the same descriptors open
      let P : Proxy σ ι → Prop := fun t => Tracks { proxy := t, opened := s.opened }
      refine Proxy.prepare_induction (P := P) hprep h fun t t' i ht hslot => ?_
      rcases Proxy.prepareSlot_ok hslot with rfl | ⟨-, p, -, rfl⟩
      · exact ht
      · refine Tracks.of_same ht ht.paired.of_sends rfl fun j => ?_
        simp only [Function.update_apply]
        split
        · rename_i hj
          rw [hj]
        · rfl

/-- What is handled here removes the pair of the descriptor it happened on. -/
def RemovesPair (cfg : Config σ ι) (s : PoolRun σ ι) (i : Nat) (incoming : Incoming) : Prop :=
  ∃ s', s.step cfg (.read i incoming) = .ok s' ∧ s'.proxy.descriptors.Perm s'.opened

/-- The close of a client that is not in the middle of a message, or whose
message has room. -/
def ClosesCleanly (s : PoolRun σ ι) (i : Nat) : Prop :=
  (s.proxy.slots i).source = .client ∧ (s.proxy.conn i).Room

end PoolRun

namespace PoolRun

variable {cfg : Config σ ι} {s s' : PoolRun σ ι}

/-- On the server's socket the handler leaves the client's in the pool. -/
theorem Tracks.server_close (h : s.Tracks) {k : Nat} (hlt : 2 * k + 2 < s.proxy.poolSize)
    {t : Proxy σ ι} (ht : s.proxy.closePair (2 * k + 2) = .ok t) :
    ¬ t.descriptors.Perm (without s.opened (s.proxy.pollFd (2 * k + 2))) := by
  intro hperm
  have hodd := h.paired.odd
  obtain ⟨hle, hsize, hslots⟩ := Proxy.closePair_frame ht
  have hin : t.descriptor k ∈ t.descriptors := mem_entries.mpr ⟨k, by omega, rfl⟩
  have hfst : (t.descriptor k).1 = (s.proxy.descriptor k).1 := by
    unfold Proxy.descriptor
    rw [hslots _ (by omega) (by omega)]
  obtain ⟨hopen, hother⟩ := List.mem_filter.mp (hperm.subset hin)
  obtain ⟨l, hl, heq⟩ := mem_entries.mp (h.opened.symm.subset hopen)
  have hlk : l = k := by
    by_contra hne
    refine (h.descriptor_ne (by omega) (by omega) hne).1 ?_
    rw [heq, hfst]
  subst hlk
  rw [h.paired.polled _ hlt, ← heq] at hother
  simp [Proxy.descriptor] at hother

theorem removesPair_iff (h : s.Tracks) {i : Nat} (hi : 0 < i) (hlt : i < s.proxy.poolSize)
    {incoming : Incoming} (hcloses : incoming.Closes) :
    s.RemovesPair cfg i incoming ↔ s.ClosesCleanly i := by
  constructor
  · rintro ⟨s', hstep, hperm⟩
    obtain ⟨proxy, hread, hs'⟩ := Machine.bind_eq_ok.mp hstep
    obtain rfl := Machine.pure_eq_ok.mp hs'
    obtain ⟨outcome, hevent, hread⟩ := Machine.bind_eq_ok.mp hread
    obtain ⟨rfl, hroom, -, -⟩ := (readEvent_ok hevent).of_nil hcloses.1
    refine ⟨?_, hroom⟩
    dsimp only at hread hperm
    rw [Proxy.put_conn] at hread
    rw [if_pos hcloses] at hperm
    rw [(h.paired.slot i hi hlt).source]
    by_cases hodd : i % 2 = 1
    · rw [if_pos hodd]
    · obtain ⟨k, rfl⟩ : ∃ k, i = 2 * k + 2 := ⟨(i - 2) / 2, by omega⟩
      exact absurd hperm (h.server_close hlt hread)
  · rintro ⟨hclient, hroom⟩
    have hodd := h.paired.client_odd hi hlt hclient
    obtain ⟨k, rfl⟩ : ∃ k, i = 2 * k + 1 := ⟨i / 2, by omega⟩
    obtain ⟨t, -, ht, -⟩ := Proxy.closePair_ok h.paired hodd hlt
    have hevent : readEvent cfg incoming (s.proxy.conn (2 * k + 1))
        = .ok (.closed (s.proxy.conn (2 * k + 1))) :=
      readEvent_closes hcloses hroom fun _ => hclient
    have hstep : s.step cfg (.read (2 * k + 1) incoming)
        = .ok { proxy := t, opened := without s.opened (s.proxy.pollFd (2 * k + 1)) } := by
      simp [step, Proxy.step, Proxy.read, hevent, Proxy.put_conn, ht, hcloses, bind, Except.bind,
        pure, Except.pure]
    exact ⟨_, hstep, (h.closePair hlt ht).opened⟩

end PoolRun

namespace PoolRun

/-- The states the proxy can be in as long as only clients close. -/
def Reachable (cfg : Config σ ι) (listenSocket : Int) (s : PoolRun σ ι) : Prop :=
  ∃ w es, World.Fresh w ∧ Machine.Run Served (step cfg) (init w listenSocket) es s

theorem Reachable.tracks {cfg : Config σ ι} {listenSocket : Int} {s : PoolRun σ ι}
    (h : Reachable cfg listenSocket s) : s.Tracks := by
  obtain ⟨w, es, hw, hrun⟩ := h
  exact hrun.invariant (.init hw listenSocket)
    fun _ _ _ ht hok hstep => ht.step hok.1 hok.2 hstep

end PoolRun

/-- **The pairs of the pool.** As long as closes are observed on client
sockets, slot 0 listens and the other slots are the pairs that were accepted
together and not closed since. A close that is observed next removes its own
pair exactly when it is a client's, and the message it interrupts has room. -/
theorem pool_pairing {cfg : Config σ ι} {listenSocket : Int} {s : PoolRun σ ι}
    (h : PoolRun.Reachable cfg listenSocket s) :
    (s.proxy.slots 0).acceptMode = true ∧ s.proxy.pollFd 0 = s.proxy.listenSocket
      ∧ s.proxy.poolSize % 2 = 1
      ∧ (∀ k, 1 ≤ k → 2 * k < s.proxy.poolSize →
          (s.proxy.slots (2 * k - 1)).counterSocketIndex = 2 * k
          ∧ (s.proxy.slots (2 * k)).counterSocketIndex = 2 * k - 1
          ∧ (s.proxy.slots (2 * k - 1)).source = .client
          ∧ (s.proxy.slots (2 * k)).source = .server
          ∧ s.proxy.pollFd (2 * k - 1) = (s.proxy.slots (2 * k - 1)).socket
          ∧ s.proxy.pollFd (2 * k) = (s.proxy.slots (2 * k)).socket
          ∧ (s.proxy.slots (2 * k - 1)).counterSocket = (s.proxy.slots (2 * k)).socket
          ∧ (s.proxy.slots (2 * k)).counterSocket = (s.proxy.slots (2 * k - 1)).socket)
      ∧ s.proxy.descriptors.Perm s.opened
      ∧ ∀ i incoming, 0 < i → i < s.proxy.poolSize → Incoming.Closes incoming →
          (s.RemovesPair cfg i incoming ↔ s.ClosesCleanly i) := by
  have ht := h.tracks
  have hp := ht.paired
  have hodd := hp.odd
  refine ⟨hp.listener.1, (hp.polled 0 (by omega)).trans hp.listener.2, hodd, ?_, ht.opened,
    fun i incoming hi hlt hcloses => PoolRun.removesPair_iff ht hi hlt hcloses⟩
  intro k hk hlt
  have hclient := hp.slot (2 * k - 1) (by omega) (by omega)
  have hserver := hp.slot (2 * k) (by omega) hlt
  have hpc : partner (2 * k - 1) = 2 * k := by
    unfold partner
    rw [if_pos (by omega)]
    omega
  have hps : partner (2 * k) = 2 * k - 1 := by
    unfold partner
    rw [if_neg (by omega)]
  refine ⟨hclient.index.trans hpc, hserver.index.trans hps, ?_, ?_, hp.polled _ (by omega),
    hp.polled _ hlt, ?_, ?_⟩
  · rw [hclient.source, if_pos (by omega)]
  · rw [hserver.source, if_neg (by omega)]
  · rw [hclient.counter, hpc]
  · rw [hserver.counter, hps]

theorem pool_pairing_example :
    ∃ s : PoolRun Unit Unit, PoolRun.Reachable idleConfig 3 s
      ∧ s.proxy.poolSize = 3 ∧ s.opened = [(7, 8)]
      ∧ (s.proxy.slots 1).counterSocketIndex = 2
      ∧ s.proxy.descriptors.Perm s.opened := by
  let ipa : IpApplication := { weight := 1, appIndex := 0 }
  obtain ⟨s, hrun, hs⟩ := Machine.Run.exists_of_exec PoolRun.Served (PoolRun.step idleConfig)
    (.init idleWorld 3)
    [.accept 5 6 ipa, .accept 7 8 ipa, .read 1 .hangup]
    (fun s => (s.proxy.poolSize, s.opened)) (a := (3, [(7, 8)])) (by decide +kernel)
  have hreach : PoolRun.Reachable idleConfig 3 s := ⟨idleWorld, _, fun _ _ => rfl, hrun⟩
  have hpair := pool_pairing hreach
  obtain ⟨hsize, hopened⟩ := Prod.mk.inj hs
  exact ⟨s, hreach, hsize, hopened, (hpair.2.2.2.1 1 le_rfl (by omega)).1, hpair.2.2.2.2.1⟩

/-- A server that hangs up in the middle of a response: its client stays in
the pool, next to the client of the connection behind. -/
theorem pool_pairing_fails :
    ∃ (es : List Proxy.Event) (s : PoolRun Unit Unit),
      Machine.Run PoolRun.Kernel (PoolRun.step idleConfig) (.init idleWorld 3) es s
        ∧ s.opened = [(7, 8)] ∧ s.proxy.descriptors = [(5, 7)]
        ∧ (s.proxy.slots 2).counterSocketIndex = 3 ∧ s.proxy.poolSize = 3 := by
  let ipa : IpApplication := { weight := 1, appIndex := 0 }
  obtain ⟨s, hrun, hs⟩ := Machine.Run.exists_of_exec PoolRun.Kernel (PoolRun.step idleConfig)
    (.init idleWorld 3)
    [.accept 5 6 ipa, .accept 7 8 ipa, .read 1 (.whole (sampleMessage 7 4)),
      .read 2 (.whole ((sampleMessage 7 4).take 24)), .read 2 .hangup]
    (fun s => (s.opened, s.proxy.descriptors, (s.proxy.slots 2).counterSocketIndex,
      s.proxy.poolSize))
    (a := ([(7, 8)], [(5, 7)], 3, 3)) (by decide +kernel)
  simp only [Prod.mk.injEq] at hs
  exact ⟨_, s, hrun, hs⟩

end PvfsProxy
