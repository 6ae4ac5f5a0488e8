import PvfsProxy.Sockets
import PvfsProxy.Pool
import PvfsProxy.Lib.SwapRemove

/-!
# The pairs of the pool

Behind the listening socket the pool holds one connection after the other,
the client's socket in slot `2k + 1` and the server's in slot `2k + 2`.
`Proxy.Paired` says so, together with what the close handler needs: every
request state of a list is allocated and on no other list. It survives every
event but one, a close observed on a server's socket: there the handler
removes the slot behind it, which is the client's socket of the next
connection.
-/

namespace PvfsProxy

open SwapRemove

variable {σ ι : Type}

/-! ## Removing a socket -/

theorem removeLoop_ok {l : List Addr} {mem : Mem ι} (hnd : l.Nodup)
    (hlive : ∀ p ∈ l, (mem p).isSome = true) :
    removeLoop l (some l) mem = .ok (l.foldl Mem.free mem) := by
  induction l generalizing mem with
  | nil => rfl
  | cons p l ih =>
      obtain ⟨rs, hrs⟩ := Option.isSome_iff_exists.mp (hlive p (List.mem_cons_self ..))
      rw [List.nodup_cons] at hnd
      have hrem : pintLlistRem (some (p :: l)) rs.currentTag (listReqStateCompCurr mem)
          = (some p, some l) := by
        simp [pintLlistRem, listReqStateCompCurr, hasTag, hrs]
      unfold removeLoop
      simp only [Mem.deref, hrs, bind, Except.bind, hrem, List.foldl_cons]
      refine ih hnd.2 fun q hq => ?_
      have hne : q ≠ p := by
        rintro rfl
        exact hnd.1 hq
      simpa [Mem.free, hne] using hlive q (List.mem_cons_of_mem _ hq)

theorem removeSocketByIndex_ok {s : SocketState} {mem : Mem ι}
    (hopen : s.reqStateData.isSome = true) (hnd : s.requests.Nodup)
    (hlive : ∀ p ∈ s.requests, (mem p).isSome = true) :
    removeSocketByIndex s mem
      = .ok ({ s with reqStateData := none }, s.requests.foldl Mem.free mem) := by
  obtain ⟨l, hl⟩ := Option.isSome_iff_exists.mp hopen
  unfold removeSocketByIndex SocketState.requests at *
  simp only [hl, Option.getD_some] at *
  rw [removeLoop_ok hnd hlive]
  rfl

/-! ## The invariant -/

/-- The other slot of a connection. -/
def partner (i : Nat) : Nat := if i % 2 = 1 then i + 1 else i - 1

theorem partner_ne (i : Nat) (hi : 0 < i) : partner i ≠ i := by
  unfold partner
  split <;> omega

theorem partner_pos (i : Nat) (hi : 0 < i) : 0 < partner i := by
  unfold partner
  split <;> omega

theorem partner_partner (i : Nat) (hi : 0 < i) : partner (partner i) = i := by
  unfold partner
  split <;> split <;> omega

theorem partner_lt {i n : Nat} (hn : n % 2 = 1) (hi : i < n) : partner i < n := by
  unfold partner
  split <;> omega

namespace Proxy

/-- Slot `i` holds one socket of a connection, and slot `partner i` the other. -/
structure Slot (s : Proxy σ ι) (i : Nat) : Prop where
  index : (s.slots i).counterSocketIndex = partner i
  source : (s.slots i).source = if i % 2 = 1 then .client else .server
  counter : (s.slots i).counterSocket = (s.slots (partner i)).socket
  mode : (s.slots i).acceptMode = false
  opened : (s.slots i).reqStateData.isSome = true

structure Paired (s : Proxy σ ι) : Prop where
  odd : s.poolSize % 2 = 1
  listener : (s.slots 0).acceptMode = true ∧ (s.slots 0).socket = s.listenSocket
  slot : ∀ i, 0 < i → i < s.poolSize → s.Slot i
  polled : ∀ i < s.poolSize, s.pollFd i = (s.slots i).socket
  fresh : s.w.Fresh
  live : ∀ i, 0 < i → i < s.poolSize → ∀ p ∈ (s.slots i).requests, (s.w.mem p).isSome = true
  nodup : ∀ i, 0 < i → i < s.poolSize → (s.slots i).requests.Nodup
  disjoint : ∀ i j, 0 < i → i < s.poolSize → 0 < j → j < s.poolSize → i ≠ j →
    List.Disjoint (s.slots i).requests (s.slots j).requests

namespace Paired

variable {s : Proxy σ ι} {i : Nat}

theorem setup {w : World σ ι} (hw : w.Fresh) (listenSocket : Int) :
    (setupSocket w listenSocket).Paired := by
  have hsize : (setupSocket w listenSocket).poolSize = 1 := rfl
  exact
    { odd := rfl
      listener := ⟨rfl, rfl⟩
      slot := fun i hi hlt => by omega
      polled := fun i hlt => by
        obtain rfl : i = 0 := by omega
        rfl
      fresh := hw
      live := fun i hi hlt => by omega
      nodup := fun i hi hlt => by omega
      disjoint := fun i j hi hlt => by omega }

theorem owned (h : s.Paired) (hi : 0 < i) (hlt : i < s.poolSize) : (s.conn i).Owned := by
  have hpos := partner_pos i hi
  have hplt := partner_lt h.odd hlt
  have hpeer : (s.conn i).peer = s.slots (partner i) := by
    rw [← (h.slot i hi hlt).index]
    rfl
  refine ⟨h.fresh, ?_, ?_⟩
  · rw [hpeer, List.nodup_append]
    refine ⟨h.nodup i hi hlt, h.nodup _ hpos hplt, ?_⟩
    rintro p hp _ hq rfl
    exact h.disjoint i _ hi hlt hpos hplt (partner_ne i hi).symm hp hq
  · intro p hp
    rw [hpeer] at hp
    rcases List.mem_append.mp hp with hp | hp
    · exact h.live i hi hlt p hp
    · exact h.live _ hpos hplt p hp

end Paired

/-- Sockets of the same connections fill the same slots. -/
theorem Slot.of_same {s s' : Proxy σ ι} (hsame : ∀ j, (s.slots j).SameConnection (s'.slots j))
    {i : Nat} (h : s.Slot i) : s'.Slot i where
  index := (hsame i).counterSocketIndex.trans h.index
  source := (hsame i).source.trans h.source
  counter := by rw [(hsame i).counterSocket, (hsame (partner i)).socket, h.counter]
  mode := (hsame i).acceptMode.trans h.mode
  opened := (hsame i).1.trans h.opened

theorem put_slots {s : Proxy σ ι} {c : Conn σ ι} {i : Nat} (hindex : c.index = i)
    (hme : c.me.counterSocketIndex = partner i) (j : Nat) :
    (s.put c).slots j = if j = i then c.me else if j = partner i then c.peer else s.slots j := by
  unfold put
  simp only [hindex, hme, Function.update_apply]

namespace Paired

variable {s : Proxy σ ι} {i : Nat}

theorem conn_peer (h : s.Paired) (hi : 0 < i) (hlt : i < s.poolSize) :
    (s.conn i).peer = s.slots (partner i) := by
  rw [← (h.slot i hi hlt).index]
  rfl

theorem slots_put (h : s.Paired) (hi : 0 < i) (hlt : i < s.poolSize) {c : Conn σ ι}
    (hc : (s.conn i).Effect c) (j : Nat) :
    (s.put c).slots j = if j = i then c.me else if j = partner i then c.peer else s.slots j :=
  put_slots hc.index (hc.me.counterSocketIndex.trans (h.slot i hi hlt).index) j

/-- What an event puts back are sockets of the same connections. -/
theorem put_same (h : s.Paired) (hi : 0 < i) (hlt : i < s.poolSize) {c : Conn σ ι}
    (hc : (s.conn i).Effect c) (j : Nat) : (s.slots j).SameConnection ((s.put c).slots j) := by
  rw [h.slots_put hi hlt hc]
  split
  · rename_i hj
    subst hj
    exact hc.me
  · split
    · rename_i hj
      subst hj
      rw [← h.conn_peer hi hlt]
      exact hc.peer
    · exact .refl _

/-- What is on the lists of the connection is on no other list. -/
theorem separate (h : s.Paired) (hi : 0 < i) (hlt : i < s.poolSize) {j : Nat} (hj : 0 < j)
    (hjlt : j < s.poolSize) (hji : j ≠ i) (hjp : j ≠ partner i) {p : Addr}
    (hp : p ∈ (s.slots j).requests) :
    p ∉ (s.conn i).me.requests ++ (s.conn i).peer.requests := by
  rw [h.conn_peer hi hlt, List.mem_append, not_or]
  have hpos := partner_pos i hi
  have hplt := partner_lt h.odd hlt
  exact ⟨fun hme => h.disjoint j i hj hjlt hi hlt hji hp hme,
    fun hpeer => h.disjoint j _ hj hjlt hpos hplt hjp hp hpeer⟩

theorem put (h : s.Paired) (hi : 0 < i) (hlt : i < s.poolSize) {c : Conn σ ι}
    (hc : (s.conn i).Effect c) : (s.put c).Paired := by
  have hsame := h.put_same hi hlt hc
  have hslots := h.slots_put hi hlt hc
  have hme : ((s.put c).slots i).requests = c.me.requests := by
    rw [hslots, if_pos rfl]
  have hpeer : ((s.put c).slots (partner i)).requests = c.peer.requests := by
    rw [hslots, if_neg (partner_ne i hi), if_pos rfl]
  have hold : ∀ j, j ≠ i → j ≠ partner i →
      ((s.put c).slots j).requests = (s.slots j).requests := by
    intro j hji hjp
    rw [hslots, if_neg hji, if_neg hjp]
  have hnew : ∀ {j p}, 0 < j → j < s.poolSize → j ≠ i → j ≠ partner i →
      p ∈ (s.slots j).requests → p ∉ c.me.requests ++ c.peer.requests := by
    intro j p hj hjlt hji hjp hp hin
    rcases hc.new p hin with hin | hge
    · exact h.separate hi hlt hj hjlt hji hjp hp hin
    · exact absurd (h.fresh.lt_next (h.live j hj hjlt p hp)) (Nat.not_lt_of_le hge)
  exact
    { odd := h.odd
      listener := ⟨(hsame 0).acceptMode.trans h.listener.1,
        (hsame 0).socket.trans h.listener.2⟩
      slot := fun j hj hjlt => (h.slot j hj hjlt).of_same hsame
      polled := fun j hjlt => (h.polled j hjlt).trans (hsame j).socket.symm
      fresh := hc.owned.fresh
      live := fun j hj hjlt p hp => by
        by_cases hji : j = i
        · rw [hji, hme] at hp
          exact hc.owned.live p (List.mem_append_left _ hp)
        by_cases hjp : j = partner i
        · rw [hjp, hpeer] at hp
          exact hc.owned.live p (List.mem_append_right _ hp)
        rw [hold j hji hjp] at hp
        exact hc.others p (h.live j hj hjlt p hp) (h.separate hi hlt hj hjlt hji hjp hp)
      nodup := fun j hj hjlt => by
        have hnd := List.nodup_append.mp hc.owned.nodup
        by_cases hji : j = i
        · rw [hji, hme]
          exact hnd.1
        by_cases hjp : j = partner i
        · rw [hjp, hpeer]
          exact hnd.2.1
        rw [hold j hji hjp]
        exact h.nodup j hj hjlt
      disjoint := by
        have hdis := List.disjoint_of_nodup_append hc.owned.nodup
        -- `j` is not of the connection, `k` may be
        have hone : ∀ j k, 0 < j → j < s.poolSize → 0 < k → k < s.poolSize → j ≠ k →
            j ≠ i → j ≠ partner i →
            List.Disjoint ((s.put c).slots j).requests ((s.put c).slots k).requests := by
          intro j k hj hjlt hk hklt hjk hji hjp p hpj hpk
          rw [hold j hji hjp] at hpj
          by_cases hki : k = i
          · rw [hki, hme] at hpk
            exact hnew hj hjlt hji hjp hpj (List.mem_append_left _ hpk)
          by_cases hkp : k = partner i
          · rw [hkp, hpeer] at hpk
            exact hnew hj hjlt hji hjp hpj (List.mem_append_right _ hpk)
          rw [hold k hki hkp] at hpk
          exact h.disjoint j k hj hjlt hk hklt hjk hpj hpk
        intro j k hj hjlt hk hklt hjk
        by_cases hj' : j ≠ i ∧ j ≠ partner i
        · exact hone j k hj hjlt hk hklt hjk hj'.1 hj'.2
        by_cases hk' : k ≠ i ∧ k ≠ partner i
        · exact fun p hp hq => hone k j hk hklt hj hjlt hjk.symm hk'.1 hk'.2 hq hp
        have hj' : j = i ∨ j = partner i := by tauto
        have hk' : k = i ∨ k = partner i := by tauto
        rcases hj' with rfl | rfl <;> rcases hk' with rfl | rfl
        · exact absurd rfl hjk
        · rw [hme, hpeer]
          exact hdis
        · rw [hme, hpeer]
          exact fun p hp hq => hdis hq hp
        · exact absurd rfl hjk }

/-- Clients are in the odd slots. -/
theorem client_odd (h : s.Paired) (hi : 0 < i) (hlt : i < s.poolSize)
    (hclient : (s.slots i).source = .client) : i % 2 = 1 := by
  by_contra heven
  rw [(h.slot i hi hlt).source, if_neg heven] at hclient
  cases hclient

/-- Only what the sockets send next has changed. -/
theorem of_sends (h : s.Paired) {i : Nat} {o : Option Addr} :
    Paired { s with
      slots := Function.update s.slots i { s.slots i with currentSendItem := o } } := by
  have hsame : ∀ j, (s.slots j).SameConnection
      (Function.update s.slots i { s.slots i with currentSendItem := o } j) := by
    intro j
    by_cases hj : j = i
    · subst hj
      rw [Function.update_self]
      exact ⟨rfl, rfl⟩
    · rw [Function.update_of_ne hj]
      exact .refl _
  have hlist : ∀ j, (Function.update s.slots i { s.slots i with currentSendItem := o } j).requests
      = (s.slots j).requests := by
    intro j
    by_cases hj : j = i
    · subst hj
      rw [Function.update_self]
      rfl
    · rw [Function.update_of_ne hj]
  exact
    { odd := h.odd
      listener := ⟨(hsame 0).acceptMode.trans h.listener.1, (hsame 0).socket.trans h.listener.2⟩
      slot := fun j hj hjlt => (h.slot j hj hjlt).of_same hsame
      polled := fun j hjlt => (h.polled j hjlt).trans (hsame j).socket.symm
      fresh := h.fresh
      live := fun j hj hjlt p hp => h.live j hj hjlt p (hlist j ▸ hp)
      nodup := fun j hj hjlt => by
        simp only [hlist]
        exact h.nodup j hj hjlt
      disjoint := fun j k hj hjlt hk hklt hjk => by
        simp only [hlist]
        exact h.disjoint j k hj hjlt hk hklt hjk }

end Paired

theorem prepareEvents_ok {mem : Mem ι} {me peer me' : SocketState} {out : Bool}
    (h : prepareEvents mem me peer = .ok (me', out)) :
    me' = me ∨ me.currentSendItem = none ∧ me' = updateSocketCurrentSend mem me peer := by
  unfold prepareEvents at h
  split at h
  · obtain ⟨rs, -, h⟩ := Machine.bind_eq_ok.mp h
    exact .inl (Prod.mk.inj (Machine.pure_eq_ok.mp h)).1.symm
  · rename_i hnone
    exact .inr ⟨hnone, (Prod.mk.inj (Machine.pure_eq_ok.mp h)).1.symm⟩

theorem prepareSlot_ok {s s' : Proxy σ ι} {i : Nat} (h : s.prepareSlot i = .ok s') :
    s' = s ∨ ((s.slots i).acceptMode = false ∧ (s.slots i).currentSendItem = none)
      ∧ ∃ p, p ∈ (s.slots (s.slots i).counterSocketIndex).requests
        ∧ s' = { s with slots :=
            Function.update s.slots i { s.slots i with currentSendItem := some p } } := by
  unfold prepareSlot at h
  split at h
  · exact .inl (Except.ok.inj h).symm
  · rename_i hmode
    rw [Bool.not_eq_true] at hmode
    obtain ⟨⟨me, out⟩, hprep, h⟩ := Machine.bind_eq_ok.mp h
    obtain rfl := Machine.pure_eq_ok.mp h
    rcases prepareEvents_ok hprep with rfl | ⟨hnone, rfl⟩
    · exact .inl (by simp)
    · obtain hsame | ⟨-, p, rs, hp, -, -, -, hnext⟩ := updateSocketCurrentSend_cases s.w.mem
        (s.slots i) (s.slots (s.slots i).counterSocketIndex)
      · rw [hsame]
        exact .inl (by simp)
      · rw [hnext]
        exact .inr ⟨⟨hmode, hnone⟩, p, hp, rfl⟩

/-- What holds and is kept for each slot is kept by `prepare_events`. -/
theorem prepare_induction {P : Proxy σ ι → Prop} {s s' : Proxy σ ι} (h : s.prepare = .ok s')
    (hs : P s) (hslot : ∀ t t' i, P t → t.prepareSlot i = .ok t' → P t') : P s' := by
  unfold prepare at h
  generalize List.range s.poolSize = l at h
  induction l generalizing s with
  | nil =>
      obtain rfl := Machine.pure_eq_ok.mp h
      exact hs
  | cons i l ih =>
      rw [List.foldlM_cons] at h
      obtain ⟨t, ht, h⟩ := Machine.bind_eq_ok.mp h
      exact ih (hslot s t i hs ht) h

theorem Paired.prepare {s s' : Proxy σ ι} (h : s.Paired) (hprep : s.prepare = .ok s') :
    s'.Paired := by
  refine prepare_induction hprep h fun t t' i ht hslot => ?_
  rcases prepareSlot_ok hslot with rfl | ⟨-, p, -, rfl⟩
  · exact ht
  · exact ht.of_sends

/-! ## Accepting -/

section accepting

variable {s : Proxy σ ι} (cfg : Config σ ι) (client : Int) {server : Int}
  (hserver : server ≠ 0) (ipa : IpApplication)

include hserver

theorem acceptSocket_slots (j : Nat) : (s.acceptSocket cfg client server ipa).slots j =
    if j = s.poolSize + 1 then
      { s.slots (s.poolSize + 1) with
        socket := server, counterSocket := client, acceptMode := false, incompleteMode := false
        reqStateData := some [], counterSocketIndex := s.poolSize, target := .client
        source := .server }
    else if j = s.poolSize then
      { s.slots s.poolSize with
        socket := client, counterSocket := server, acceptMode := false, target := .server
        source := .client, incompleteMode := false, reqStateData := some []
        counterSocketIndex := s.poolSize + 1, weight := ipa.weight, appIndex := ipa.appIndex }
    else s.slots j := by
  simp only [acceptSocket, addSocketToPool, hserver, if_false, Function.update_apply, pintLlistNew]

theorem acceptSocket_pollFd (j : Nat) : (s.acceptSocket cfg client server ipa).pollFd j =
    if j = s.poolSize + 1 then server else if j = s.poolSize then client else s.pollFd j := by
  simp only [acceptSocket, addSocketToPool, hserver, if_false, Function.update_apply]

theorem acceptSocket_rest : (s.acceptSocket cfg client server ipa).poolSize = s.poolSize + 2
    ∧ (s.acceptSocket cfg client server ipa).listenSocket = s.listenSocket
    ∧ (s.acceptSocket cfg client server ipa).w.mem = s.w.mem
    ∧ (s.acceptSocket cfg client server ipa).w.next = s.w.next := by
  simp [acceptSocket, addSocketToPool, hserver]

/-- The new sockets have no request states yet. -/
theorem acceptSocket_requests {j : Nat} (hj : s.poolSize ≤ j) (hj' : j < s.poolSize + 2) :
    ((s.acceptSocket cfg client server ipa).slots j).requests = [] := by
  rw [acceptSocket_slots cfg client hserver ipa]
  by_cases hlast : j = s.poolSize + 1
  · rw [if_pos hlast]
    rfl
  · rw [if_neg hlast, if_pos (by omega)]
    rfl

theorem acceptSocket_old {j : Nat} (hj : j < s.poolSize) :
    (s.acceptSocket cfg client server ipa).slots j = s.slots j := by
  rw [acceptSocket_slots cfg client hserver ipa, if_neg (by omega), if_neg (by omega)]

theorem Paired.accept (h : s.Paired) : (s.acceptSocket cfg client server ipa).Paired := by
  have hodd := h.odd
  obtain ⟨hsize, hlisten, hmem, hnext⟩ := acceptSocket_rest (s := s) cfg client hserver ipa
  have hslots := acceptSocket_slots (s := s) cfg client hserver ipa
  have hfd := acceptSocket_pollFd (s := s) cfg client hserver ipa
  have hnew := @acceptSocket_requests _ _ s cfg client server hserver ipa
  have hold := @acceptSocket_old _ _ s cfg client server hserver ipa
  generalize s.acceptSocket cfg client server ipa = s' at *
  exact
    { odd := by omega
      listener := by
        rw [hold (by omega), hlisten]
        exact h.listener
      slot := fun j hj hjlt => by
        by_cases hlast : j = s.poolSize + 1
        · have hp : partner j = s.poolSize := by unfold partner; split <;> omega
          refine ⟨?_, ?_, ?_, ?_, ?_⟩ <;> rw [hslots j, if_pos hlast]
          · exact hp.symm
          · rw [if_neg (by omega)]
          · rw [hp, hslots, if_neg (by omega), if_pos rfl]
          · rfl
        by_cases hfirst : j = s.poolSize
        · have hp : partner j = s.poolSize + 1 := by unfold partner; split <;> omega
          refine ⟨?_, ?_, ?_, ?_, ?_⟩ <;> rw [hslots j, if_neg hlast, if_pos hfirst]
          · exact hp.symm
          · rw [if_pos (by omega)]
          · rw [hp, hslots, if_pos rfl]
          · rfl
        have hjold : j < s.poolSize := by omega
        have hslot := h.slot j hj hjold
        refine ⟨?_, ?_, ?_, ?_, ?_⟩ <;> rw [hold hjold]
        · exact hslot.index
        · exact hslot.source
        · rw [hold (partner_lt h.odd hjold)]
          exact hslot.counter
        · exact hslot.mode
        · exact hslot.opened
      polled := fun j hjlt => by
        rw [hfd, hslots]
        by_cases hlast : j = s.poolSize + 1
        · rw [if_pos hlast, if_pos hlast]
        by_cases hfirst : j = s.poolSize
        · rw [if_neg hlast, if_pos hfirst, if_neg hlast, if_pos hfirst]
        rw [if_neg hlast, if_neg hfirst, if_neg hlast, if_neg hfirst]
        exact h.polled j (by omega)
      fresh := fun p hp => by
        rw [hmem]
        exact h.fresh p (hnext ▸ hp)
      live := fun j hj hjlt p hp => by
        by_cases hjold : j < s.poolSize
        · rw [hold hjold] at hp
          rw [hmem]
          exact h.live j hj hjold p hp
        · rw [hnew (by omega) (by omega)] at hp
          cases hp
      nodup := fun j hj hjlt => by
        by_cases hjold : j < s.poolSize
        · rw [hold hjold]
          exact h.nodup j hj hjold
        · rw [hnew (by omega) (by omega)]
          exact List.nodup_nil
      disjoint := fun j k hj hjlt hk hklt hjk p hp hq => by
        by_cases hjold : j < s.poolSize
        · by_cases hkold : k < s.poolSize
          · rw [hold hjold] at hp
            rw [hold hkold] at hq
            exact h.disjoint j k hj hjold hk hkold hjk hp hq
          · rw [hnew (by omega) (by omega)] at hq
            cases hq
        · rw [hnew (by omega) (by omega)] at hp
          cases hp }

end accepting

/-! ## Closing -/

/-- Where the socket in slot `j` was before the pair at `i` was removed from a
pool of `n + 2` slots. -/
def movedFrom (i n j : Nat) : Nat := if j = i then n else if j = i + 1 then n + 1 else j

/-- The proxy with the states of slot `i` freed. -/
def removed (s : Proxy σ ι) (i : Nat) : Proxy σ ι :=
  { s with
    w := { s.w with mem := (s.slots i).requests.foldl Mem.free s.w.mem }
    slots := Function.update s.slots i { s.slots i with reqStateData := none }
    poolSize := s.poolSize - 1 }

theorem removeSocket_ok {s : Proxy σ ι} {i : Nat} (hi : i ≤ s.poolSize)
    (hopen : (s.slots i).reqStateData.isSome = true) (hnd : (s.slots i).requests.Nodup)
    (hlive : ∀ p ∈ (s.slots i).requests, (s.w.mem p).isSome = true) :
    s.removeSocket i = .ok (s.removed i) := by
  unfold removeSocket
  rw [if_neg (by omega), removeSocketByIndex_ok hopen hnd hlive]
  rfl

/-- The scheduler is not told. -/
theorem removeSocket_globals {s s' : Proxy σ ι} {i : Nat} (h : s.removeSocket i = .ok s') :
    s'.w.g = s.w.g := by
  unfold removeSocket at h
  split at h
  · cases h
  · obtain ⟨⟨slot, mem⟩, -, h⟩ := Machine.bind_eq_ok.mp h
    obtain rfl := Machine.pure_eq_ok.mp h
    rfl

theorem closePair_globals {s s' : Proxy σ ι} {i : Nat} (h : s.closePair i = .ok s') :
    s'.w.g = s.w.g := by
  obtain ⟨s₁, h₁, h⟩ := Machine.bind_eq_ok.mp h
  obtain ⟨s₂, h₂, h⟩ := Machine.bind_eq_ok.mp h
  have hg := (removeSocket_globals h₂).trans (removeSocket_globals h₁)
  split at h
  · obtain rfl := Machine.pure_eq_ok.mp h
    exact hg
  · obtain rfl := Machine.pure_eq_ok.mp h
    exact hg

theorem removeSocket_frame {s t : Proxy σ ι} {i : Nat} (h : s.removeSocket i = .ok t) :
    i ≤ s.poolSize ∧ t.poolSize = s.poolSize - 1 ∧ ∀ j, j ≠ i → t.slots j = s.slots j := by
  unfold Proxy.removeSocket at h
  split at h
  · cases h
  · rename_i hi
    obtain ⟨⟨slot, mem⟩, -, h⟩ := Machine.bind_eq_ok.mp h
    obtain rfl := Machine.pure_eq_ok.mp h
    exact ⟨by omega, rfl, fun j hj => Function.update_of_ne hj _ _⟩

/-- The close handler writes to the two slots it removes, wherever it is called. -/
theorem closePair_frame {s t : Proxy σ ι} {i : Nat} (h : s.closePair i = .ok t) :
    i + 1 ≤ s.poolSize - 1 ∧ t.poolSize = s.poolSize - 2
      ∧ ∀ j, j ≠ i → j ≠ i + 1 → t.slots j = s.slots j := by
  obtain ⟨s₁, h₁, h⟩ := Machine.bind_eq_ok.mp h
  obtain ⟨s₂, h₂, h⟩ := Machine.bind_eq_ok.mp h
  obtain ⟨-, hsize₁, hslots₁⟩ := removeSocket_frame h₁
  obtain ⟨hle, hsize₂, hslots₂⟩ := removeSocket_frame h₂
  have hslots : ∀ j, j ≠ i → j ≠ i + 1 → s₂.slots j = s.slots j := fun j hji hji' =>
    (hslots₂ j hji').trans (hslots₁ j hji)
  split at h
  · obtain rfl := Machine.pure_eq_ok.mp h
    exact ⟨by omega, by omega, hslots⟩
  · obtain rfl := Machine.pure_eq_ok.mp h
    refine ⟨by omega, by simp only; omega, fun j hji hji' => ?_⟩
    simp only [Function.update_of_ne hji', Function.update_of_ne hji]
    exact hslots j hji hji'

/-- What it moves into slot `i` gets slot `i + 1` for its counterpart. -/
theorem closePair_index {s t : Proxy σ ι} {i : Nat} (h : s.closePair i = .ok t)
    (hsize : 1 < t.poolSize) : (t.slots i).counterSocketIndex = i + 1 := by
  obtain ⟨s₁, h₁, h⟩ := Machine.bind_eq_ok.mp h
  obtain ⟨s₂, h₂, h⟩ := Machine.bind_eq_ok.mp h
  split at h
  · obtain rfl := Machine.pure_eq_ok.mp h
    omega
  · obtain rfl := Machine.pure_eq_ok.mp h
    simp only [Function.update_of_ne (show i ≠ i + 1 by omega), Function.update_self]

/-- A close on the client's socket: both slots go, and the last pair comes. -/
theorem closePair_ok {s : Proxy σ ι} (h : s.Paired) {i : Nat} (hi : i % 2 = 1)
    (hlt : i < s.poolSize) :
    ∃ s' n, s.closePair i = .ok s' ∧ s.poolSize = n + 2 ∧ s'.poolSize = n
      ∧ s'.listenSocket = s.listenSocket ∧ s'.w.next = s.w.next
      ∧ (∀ p, s'.w.mem p = if p ∈ (s.slots i).requests ∨ p ∈ (s.slots (i + 1)).requests then none
          else s.w.mem p)
      ∧ ∀ j < n, s'.pollFd j = s.pollFd (movedFrom i n j)
        ∧ s'.slots j = if j = 0 then s.slots 0
            else { s.slots (movedFrom i n j) with counterSocketIndex := partner j } := by
  have hodd := h.odd
  obtain ⟨n, hn⟩ : ∃ n, s.poolSize = n + 2 := ⟨s.poolSize - 2, by omega⟩
  have hpos : 0 < i := by omega
  have hlt' : i + 1 < s.poolSize := by omega
  have hne : i + 1 ≠ i := by omega
  have hdis := h.disjoint i (i + 1) hpos hlt (by omega) hlt' hne.symm
  have hfirst := removeSocket_ok (Nat.le_of_lt hlt) (h.slot i hpos hlt).opened
    (h.nodup i hpos hlt) (h.live i hpos hlt)
  have hslot₁ : (s.removed i).slots (i + 1) = s.slots (i + 1) := Function.update_of_ne hne _ _
  have hmem₁ : ∀ p, (s.removed i).w.mem p
      = if p ∈ (s.slots i).requests then none else s.w.mem p := by
    intro p
    exact free_foldl _ _ _
  have hsecond : (s.removed i).removeSocket (i + 1) = .ok ((s.removed i).removed (i + 1)) := by
    refine removeSocket_ok (by simp only [removed]; omega) ?_ ?_ ?_
    · rw [hslot₁]
      exact (h.slot (i + 1) (by omega) hlt').opened
    · rw [hslot₁]
      exact h.nodup (i + 1) (by omega) hlt'
    · intro p hp
      rw [hslot₁] at hp
      rw [hmem₁, if_neg fun hin => hdis hin hp]
      exact h.live (i + 1) (by omega) hlt' p hp
  generalize hs₂ : (s.removed i).removed (i + 1) = s₂ at hsecond
  have hsize : s₂.poolSize = n := by
    rw [← hs₂]
    simp only [removed]
    omega
  have hmem : ∀ p, s₂.w.mem p
      = if p ∈ (s.slots i).requests ∨ p ∈ (s.slots (i + 1)).requests then none
        else s.w.mem p := by
    intro p
    have hfree := free_foldl (s.slots (i + 1)).requests (s.removed i).w.mem p
    rw [← hslot₁, hmem₁] at hfree
    rw [← hs₂]
    refine hfree.trans ?_
    rw [hslot₁]
    by_cases h₁ : p ∈ (s.slots i).requests
    · simp [h₁]
    · simp [h₁]
  have hslots : ∀ j, j ≠ i → j ≠ i + 1 → s₂.slots j = s.slots j := by
    intro j hji hji'
    rw [← hs₂]
    simp only [removed]
    rw [Function.update_of_ne hji', Function.update_of_ne hji]
  have hsame : s₂.pollFd = s.pollFd ∧ s₂.listenSocket = s.listenSocket
      ∧ s₂.w.next = s.w.next := by
    rw [← hs₂]
    exact ⟨rfl, rfl, rfl⟩
  have hself : ∀ j, 0 < j → j < n → j ≠ i → j ≠ i + 1 →
      s₂.slots j = { s.slots j with counterSocketIndex := partner j } := by
    intro j hj hjn hji hji'
    rw [hslots j hji hji', ← (h.slot j hj (by omega)).index]
  unfold closePair
  rw [hfirst]
  simp only [bind, Except.bind, hsecond]
  by_cases hone : s₂.poolSize ≤ 1
  · rw [if_pos hone]
    refine ⟨s₂, n, rfl, hn, hsize, hsame.2.1, hsame.2.2, hmem, fun j hj => ?_⟩
    obtain rfl : j = 0 := by omega
    rw [if_pos rfl, hsame.1, hslots 0 (by omega) (by omega)]
    refine ⟨?_, rfl⟩
    unfold movedFrom
    rw [if_neg (by omega), if_neg (by omega)]
  · rw [if_neg hone]
    refine ⟨_, n, rfl, hn, hsize, hsame.2.1, hsame.2.2, hmem, fun j hj => ?_⟩
    simp only [hsize, hsame.1, movedFrom, Function.update_apply]
    by_cases hji : j = i
    · subst hji
      have hin : n ≠ j ∧ n ≠ j + 1 := by omega
      have hp : partner j = j + 1 := by unfold partner; rw [if_pos hi]
      simp [hp, hslots n hin.1 hin.2, show j ≠ 0 by omega]
    by_cases hji' : j = i + 1
    · subst hji'
      have hin : n + 1 ≠ i ∧ n + 1 ≠ i + 1 := by omega
      have hp : partner (i + 1) = i := by unfold partner; rw [if_neg (by omega)]; omega
      simp [hin.1, hp, hslots (n + 1) hin.1 hin.2]
    by_cases hzero : j = 0
    · subst hzero
      simp [hji, hslots 0 hji hji']
    · simp [hji, hji', hzero, hself j (by omega) hj hji hji']

theorem movedFrom_lt {i n j : Nat} (hj : j < n) : movedFrom i n j < n + 2 := by
  unfold movedFrom
  split
  · omega
  · split <;> omega

theorem movedFrom_pos {i n j : Nat} (hj : 0 < j) (hlt : j < n) : 0 < movedFrom i n j := by
  unfold movedFrom
  split
  · omega
  · split <;> omega

/-- Nothing is moved from the removed slots. -/
theorem movedFrom_ne {i n j : Nat} (hi : i % 2 = 1) (hn : n % 2 = 1) (hj : j < n) :
    movedFrom i n j ≠ i ∧ movedFrom i n j ≠ i + 1 := by
  unfold movedFrom
  split
  · omega
  · split <;> omega

theorem movedFrom_mod {i n j : Nat} (hi : i % 2 = 1) (hn : n % 2 = 1) :
    movedFrom i n j % 2 = j % 2 := by
  unfold movedFrom
  split
  · omega
  · split <;> omega

theorem movedFrom_inj {i n j k : Nat} (hj : j < n) (hk : k < n)
    (h : movedFrom i n j = movedFrom i n k) : j = k := by
  unfold movedFrom at h
  grind

theorem partner_movedFrom {i n j : Nat} (hi : i % 2 = 1) (hn : n % 2 = 1) (hj : 0 < j)
    (hlt : j < n) : partner (movedFrom i n j) = movedFrom i n (partner j) := by
  unfold partner movedFrom
  grind

/-- A close on a server's socket does not: what comes into its slot is paired
with the slot behind it. -/
theorem Paired.server_close {s s' : Proxy σ ι} (h : s.Paired) {i : Nat} (hi : 0 < i)
    (heven : i % 2 = 0) (hs' : s.closePair i = .ok s') : ¬ s'.Paired := by
  intro hpaired
  have hodd := h.odd
  obtain ⟨hle, hsize, -⟩ := closePair_frame hs'
  have hindex := (hpaired.slot i hi (by omega)).index
  rw [closePair_index hs' (by omega)] at hindex
  unfold partner at hindex
  rw [if_neg (by omega)] at hindex
  omega

/-- A close on the client's socket leaves the pool paired. -/
theorem Paired.closePair {s s' : Proxy σ ι} (h : s.Paired) {i : Nat} (hi : i % 2 = 1)
    (hlt : i < s.poolSize) (hs' : s.closePair i = .ok s') : s'.Paired := by
  have hodd := h.odd
  obtain ⟨t, n, ht, hn, hsize, hlisten, hnext, hmem, hslots⟩ := closePair_ok h hi hlt
  obtain rfl : t = s' := Except.ok.inj (ht.symm.trans hs')
  have hnodd : n % 2 = 1 := by omega
  have hrange : ∀ j, 0 < j → j < n → 0 < movedFrom i n j ∧ movedFrom i n j < s.poolSize :=
    fun j hj hjn => ⟨movedFrom_pos hj hjn, hn ▸ movedFrom_lt hjn⟩
  have hlive : ∀ j, 0 < j → j < n → ∀ p ∈ (s.slots (movedFrom i n j)).requests,
      (t.w.mem p).isSome = true := by
    intro j hj hjn p hp
    obtain ⟨hfrom, hfromlt⟩ := hrange j hj hjn
    have hne := movedFrom_ne hi hnodd hjn
    rw [hmem, if_neg]
    · exact h.live _ hfrom hfromlt p hp
    · rintro (hin | hin)
      · exact h.disjoint _ i hfrom hfromlt (by omega) hlt hne.1 hp hin
      · exact h.disjoint _ (i + 1) hfrom hfromlt (by omega) (by omega) hne.2 hp hin
  have hpos : ∀ j, 0 < j → j < n → t.slots j
      = { s.slots (movedFrom i n j) with counterSocketIndex := partner j } := by
    intro j hj hjn
    rw [(hslots j hjn).2, if_neg (by omega)]
  have hlist : ∀ j, 0 < j → j < n →
      (t.slots j).requests = (s.slots (movedFrom i n j)).requests := by
    intro j hj hjn
    rw [hpos j hj hjn]
    rfl
  exact
    { odd := by omega
      listener := by
        rw [(hslots 0 (by omega)).2, if_pos rfl, hlisten]
        exact h.listener
      slot := fun j hj hjlt => by
        have hjn : j < n := by omega
        have hslot := h.slot _ (hrange j hj hjn).1 (hrange j hj hjn).2
        have hplt := partner_lt hnodd hjn
        refine ⟨?_, ?_, ?_, ?_, ?_⟩ <;> rw [hpos j hj hjn]
        · simp only [hslot.source, movedFrom_mod hi hnodd]
        · rw [hpos _ (partner_pos j hj) hplt, ← partner_movedFrom hi hnodd hj hjn]
          exact hslot.counter
        · exact hslot.mode
        · exact hslot.opened
      polled := fun j hjlt => by
        have hjn : j < n := by omega
        rw [(hslots j hjn).1, h.polled _ (hn ▸ movedFrom_lt hjn)]
        by_cases hzero : j = 0
        · subst hzero
          have hfrom : movedFrom i n 0 = 0 := by
            unfold movedFrom
            rw [if_neg (by omega), if_neg (by omega)]
          rw [(hslots 0 hjn).2, if_pos rfl, hfrom]
        · rw [hpos j (by omega) hjn]
      fresh := fun p hp => by
        rw [hmem]
        split
        · rfl
        · exact h.fresh p (hnext ▸ hp)
      live := fun j hj hjlt p hp => by
        have hjn : j < n := by omega
        rw [hlist j hj hjn] at hp
        exact hlive j hj hjn p hp
      nodup := fun j hj hjlt => by
        have hjn : j < n := by omega
        rw [hlist j hj hjn]
        exact h.nodup _ (hrange j hj hjn).1 (hrange j hj hjn).2
      disjoint := fun j k hj hjlt hk hklt hjk => by
        have hjn : j < n := by omega
        have hkn : k < n := by omega
        rw [hlist j hj hjn, hlist k hk hkn]
        obtain ⟨hj₀, hj₁⟩ := hrange j hj hjn
        obtain ⟨hk₀, hk₁⟩ := hrange k hk hkn
        exact h.disjoint _ _ hj₀ hj₁ hk₀ hk₁ fun heq => hjk (movedFrom_inj hjn hkn heq) }

end Proxy

end PvfsProxy
