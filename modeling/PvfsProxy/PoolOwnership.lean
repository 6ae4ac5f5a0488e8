import PvfsProxy.PoolClosing

/-!
# Whose message a socket is at

A socket in the middle of a message points at its state: the message it
receives is on its own list, the one it sends on the list of its counter
socket. `Proxy.Apart` says so for the whole pool.

Two things break it. A connection that is accepted takes its two slots as it
finds them, with the messages the slots were at when they were last in use
(`Proxy.LeftBehind`). And the clean-up behind the last message of an
operation frees what carries the tag, even a message that is just coming in
or going out (`Conn.Abandoned`). `PoolRun.Owned.step_iff` says that nothing
else does.
-/

namespace PvfsProxy

variable {σ ι : Type}

/-- The four current items of a connection are on the lists they belong to. -/
structure Conn.OwnItems (c : Conn σ ι) : Prop where
  meReceive : ∀ p, c.me.currentReceiveItem = some p → p ∈ c.me.requests
  meSend : ∀ p, c.me.currentSendItem = some p → p ∈ c.peer.requests
  peerReceive : ∀ p, c.peer.currentReceiveItem = some p → p ∈ c.peer.requests
  peerSend : ∀ p, c.peer.currentSendItem = some p → p ∈ c.me.requests

/-- A message that is coming in, or going out on the other socket, is freed
with the tag that retires when `send` takes `sent` bytes. -/
def Conn.Abandoned (c : Conn σ ι) (sent : Nat) : Prop :=
  ∃ item ∈ [c.me.currentReceiveItem, c.peer.currentReceiveItem, c.peer.currentSendItem],
    item.any (c.retired sent) = true

instance (c : Conn σ ι) (sent : Nat) : Decidable (c.Abandoned sent) :=
  inferInstanceAs (Decidable (∃ item ∈ _, _))

theorem Conn.Grows.ownItems {c c' : Conn σ ι} (h : c.Grows c') (hc : c.OwnItems) :
    c'.OwnItems := by
  have hpeer : c.peer.requests ⊆ c'.peer.requests := by
    obtain ⟨l, l', -, hpeer, -⟩ := h.lists
    rw [hpeer]
    exact List.subset_append_left _ _
  constructor
  · intro p hp
    rcases h.meReceive p hp with hold | hin
    · exact h.meRequests (hc.meReceive p hold)
    · exact hin
  · intro p hp
    rw [h.meSend] at hp
    exact hpeer (hc.meSend p hp)
  · intro p hp
    rw [h.peerReceive] at hp
    exact hpeer (hc.peerReceive p hp)
  · intro p hp
    rcases h.peerSend p hp with hold | hin
    · exact h.meRequests (hc.peerSend p hold)
    · exact hin

theorem WriteStep.ownItems_iff {sent : Nat} {c c' : Conn σ ι} {bytes : List UInt8}
    (h : WriteStep sent c c' bytes) (howned : c.Owned) (hc : c.OwnItems) :
    c'.OwnItems ↔ ¬ c.Abandoned sent := by
  have hshrinks := h.shrinks
  constructor
  · intro hc'
    rintro ⟨item, hitem, hretired⟩
    obtain ⟨p, rfl, hretired⟩ := (Option.any_eq_true _ _).mp hretired
    obtain ⟨hme, hpeer⟩ := h.left (List.disjoint_of_nodup_append howned.nodup) hretired
    simp only [List.mem_cons, List.not_mem_nil, or_false] at hitem
    rcases hitem with hp | hp | hp
    · exact hme (hc'.meReceive p (hshrinks.meReceive.trans hp.symm))
    · exact hpeer (hc'.peerReceive p (hshrinks.peerReceive.trans hp.symm))
    · exact hme (hc'.peerSend p (hshrinks.peerSend.trans hp.symm))
  · intro hkept
    have hno : ∀ p, some p ∈ [c.me.currentReceiveItem, c.peer.currentReceiveItem,
        c.peer.currentSendItem] → c.retired sent p = false := by
      intro p hp
      by_contra hretired
      rw [Bool.not_eq_false] at hretired
      exact hkept ⟨some p, hp, hretired⟩
    constructor
    · intro p hp
      rw [hshrinks.meReceive] at hp
      exact hshrinks.meRequests p (hc.meReceive p hp) (hno p (by simp [hp]))
    · intro p hp
      rcases h.sends hp with ⟨hold, hnone⟩ | hin
      · refine hshrinks.peerRequests p (hc.meSend p hold) ?_
        unfold Conn.retired
        rw [hnone]
        rfl
      · exact hin
    · intro p hp
      rw [hshrinks.peerReceive] at hp
      exact hshrinks.peerRequests p (hc.peerReceive p hp) (hno p (by simp [hp]))
    · intro p hp
      rw [hshrinks.peerSend] at hp
      exact hshrinks.meRequests p (hc.peerSend p hp) (hno p (by simp [hp]))

namespace Proxy

/-- The message slot `i` receives is of its own list, and the one it sends of
the list of its counter socket. -/
structure OwnItems (s : Proxy σ ι) (i : Nat) : Prop where
  receive : ∀ p, (s.slots i).currentReceiveItem = some p → p ∈ (s.slots i).requests
  send : ∀ p, (s.slots i).currentSendItem = some p →
    p ∈ (s.slots (s.slots i).counterSocketIndex).requests

/-- No message crosses connections. -/
def Apart (s : Proxy σ ι) : Prop := ∀ i < s.poolSize, s.OwnItems i

/-- The slots the next connection takes were left in the middle of a message. -/
def LeftBehind (s : Proxy σ ι) : Prop :=
  ∃ i ∈ [s.poolSize, s.poolSize + 1],
    (s.slots i).currentReceiveItem ≠ none ∨ (s.slots i).currentSendItem ≠ none

instance (s : Proxy σ ι) : Decidable s.LeftBehind :=
  inferInstanceAs (Decidable (∃ i ∈ _, _))

/-- The event neither takes over a message nor frees one that is under way. -/
def Clean (s : Proxy σ ι) : Event → Prop
  | .accept .. => ¬ s.LeftBehind
  | .read .. => True
  | .write i sent => ¬ (s.conn i).Abandoned sent
  | .prepare => True

/-- The listening socket is at no message. -/
def Listens (s : Proxy σ ι) : Prop :=
  (s.slots 0).currentReceiveItem = none ∧ (s.slots 0).currentSendItem = none

theorem Listens.ownItems {s : Proxy σ ι} (h : s.Listens) : s.OwnItems 0 := by
  constructor
  · intro p hp
    rw [h.1] at hp
    cases hp
  · intro p hp
    rw [h.2] at hp
    cases hp

theorem OwnItems.of_eq {s s' : Proxy σ ι} {i j : Nat}
    (hreceive : (s'.slots j).currentReceiveItem = (s.slots i).currentReceiveItem)
    (hsend : (s'.slots j).currentSendItem = (s.slots i).currentSendItem)
    (hlist : (s.slots i).requests ⊆ (s'.slots j).requests)
    (hother : (s.slots (s.slots i).counterSocketIndex).requests
      ⊆ (s'.slots (s'.slots j).counterSocketIndex).requests)
    (h : s.OwnItems i) : s'.OwnItems j where
  receive p hp := hlist (h.receive p (hreceive ▸ hp))
  send p hp := hother (h.send p (hsend ▸ hp))

namespace Paired

variable {s : Proxy σ ι} {i : Nat}

theorem conn_ownItems (h : s.Paired) (hapart : s.Apart) (hi : 0 < i) (hlt : i < s.poolSize) :
    (s.conn i).OwnItems := by
  have hpos := partner_pos i hi
  have hplt := partner_lt h.odd hlt
  have hpeer := h.conn_peer hi hlt
  have hback : (s.slots (partner i)).counterSocketIndex = i := by
    rw [(h.slot _ hpos hplt).index, partner_partner i hi]
  constructor
  · exact (hapart i hlt).receive
  · exact (hapart i hlt).send
  · rw [hpeer]
    exact (hapart _ hplt).receive
  · intro p hp
    rw [hpeer] at hp
    have hin := (hapart _ hplt).send p hp
    rw [hback] at hin
    exact hin

/-- An event on one connection keeps the others apart. -/
theorem apart_put_iff (h : s.Paired) (hlisten : s.Listens) (hapart : s.Apart) (hi : 0 < i)
    (hlt : i < s.poolSize) {c : Conn σ ι} (hc : (s.conn i).Effect c) :
    (s.put c).Apart ↔ c.OwnItems := by
  have hpos := partner_pos i hi
  have hplt := partner_lt h.odd hlt
  have hne := partner_ne i hi
  have hput := h.put hi hlt hc
  have hslots := h.slots_put hi hlt hc
  have hme : (s.put c).slots i = c.me := by rw [hslots, if_pos rfl]
  have hpeer : (s.put c).slots (partner i) = c.peer := by
    rw [hslots, if_neg hne, if_pos rfl]
  have hindex : ∀ j, 0 < j → j < s.poolSize →
      ((s.put c).slots j).counterSocketIndex = partner j := by
    intro j hj hjlt
    exact (hput.slot j hj hjlt).index
  have hother : (s.put c).slots (c.me.counterSocketIndex) = c.peer := by
    rw [← hme, hindex i hi hlt, hpeer]
  have hback : (s.put c).slots (c.peer.counterSocketIndex) = c.me := by
    rw [← hpeer, hindex _ hpos hplt, partner_partner i hi, hme]
  constructor
  · intro hnew
    have hi' := hnew i hlt
    have hp' := hnew (partner i) hplt
    constructor
    · intro p hp
      have hin := hi'.receive p
      rw [hme] at hin
      exact hin hp
    · intro p hp
      have hin := hi'.send p
      rw [hme, hother] at hin
      exact hin hp
    · intro p hp
      have hin := hp'.receive p
      rw [hpeer] at hin
      exact hin hp
    · intro p hp
      have hin := hp'.send p
      rw [hpeer, hback] at hin
      exact hin hp
  · intro hown j hj
    have hj : j < s.poolSize := hj
    by_cases hji : j = i
    · subst hji
      constructor
      · rw [hme]
        exact hown.meReceive
      · rw [hme, hother]
        exact hown.meSend
    by_cases hjp : j = partner i
    · subst hjp
      constructor
      · rw [hpeer]
        exact hown.peerReceive
      · rw [hpeer, hback]
        exact hown.peerSend
    have hsame : (s.put c).slots j = s.slots j := by
      rw [hslots, if_neg hji, if_neg hjp]
    by_cases hzero : j = 0
    · subst hzero
      refine Listens.ownItems ⟨?_, ?_⟩
      · rw [hsame]
        exact hlisten.1
      · rw [hsame]
        exact hlisten.2
    have hjpos : 0 < j := by omega
    -- nor is the other socket of `j` one of the two
    have hpair : (s.put c).slots (partner j) = s.slots (partner j) := by
      rw [hslots, if_neg, if_neg]
      · intro heq
        have hpp := congrArg partner heq
        rw [partner_partner j hjpos, partner_partner i hi] at hpp
        exact hji hpp
      · intro heq
        rw [← heq, partner_partner j hjpos] at hjp
        exact hjp rfl
    refine (hapart j hj).of_eq (by rw [hsame]) (by rw [hsame]) (by rw [hsame]; exact fun _ => id) ?_
    rw [hsame, (h.slot j hjpos hj).index, hpair]
    exact fun _ => id

theorem listens_put (h : s.Paired) (hlisten : s.Listens) (hi : 0 < i) (hlt : i < s.poolSize)
    {c : Conn σ ι} (hc : (s.conn i).Effect c) : (s.put c).Listens := by
  have hpos := partner_pos i hi
  unfold Listens
  rw [h.slots_put hi hlt hc, if_neg (by omega), if_neg (by omega)]
  exact hlisten

end Paired

theorem Apart.of_sends {s : Proxy σ ι} (hapart : s.Apart) {i : Nat} {p : Addr}
    (hp : p ∈ (s.slots (s.slots i).counterSocketIndex).requests) :
    Apart { s with
      slots := Function.update s.slots i { s.slots i with currentSendItem := some p } } := by
  have hlist : ∀ j,
      (Function.update s.slots i { s.slots i with currentSendItem := some p } j).requests
        = (s.slots j).requests := by
    intro j
    by_cases hj : j = i
    · subst hj
      rw [Function.update_self]
      rfl
    · rw [Function.update_of_ne hj]
  intro j hj
  by_cases hji : j = i
  · subst hji
    constructor
    · intro q hq
      simp only [Function.update_self] at hq ⊢
      exact (hapart j hj).receive q hq
    · intro q hq
      simp only [Function.update_self, hlist] at hq ⊢
      exact Option.some.inj hq ▸ hp
  · have hsame : Function.update s.slots i { s.slots i with currentSendItem := some p } j
        = s.slots j := Function.update_of_ne hji _ _
    refine (hapart j hj).of_eq ?_ ?_ ?_ ?_
    · simp only [hsame]
    · simp only [hsame]
    · simp only [hlist]
      exact fun _ => id
    · simp only [hsame, hlist]
      exact fun _ => id

section accepting

variable {s : Proxy σ ι} (cfg : Config σ ι) (client : Int) {server : Int}
  (hserver : server ≠ 0) (ipa : IpApplication)

include hserver

/-- The new slots keep the current items they had. -/
theorem acceptSocket_items (j : Nat) :
    ((s.acceptSocket cfg client server ipa).slots j).currentReceiveItem
        = (s.slots j).currentReceiveItem
      ∧ ((s.acceptSocket cfg client server ipa).slots j).currentSendItem
        = (s.slots j).currentSendItem := by
  rw [acceptSocket_slots cfg client hserver ipa]
  split
  · rename_i hj
    rw [hj]
    exact ⟨rfl, rfl⟩
  · split
    · rename_i hj
      rw [hj]
      exact ⟨rfl, rfl⟩
    · exact ⟨rfl, rfl⟩

theorem Apart.accept_iff (h : s.Paired) (hlisten : s.Listens) (hapart : s.Apart) :
    (s.acceptSocket cfg client server ipa).Apart ↔ ¬ s.LeftBehind := by
  obtain ⟨hsize, -, -, -⟩ := acceptSocket_rest (s := s) cfg client hserver ipa
  have hitems := acceptSocket_items (s := s) cfg client hserver ipa
  have hnew := @acceptSocket_requests _ _ s cfg client server hserver ipa
  have hold := @acceptSocket_old _ _ s cfg client server hserver ipa
  have hpaired := h.accept cfg client hserver ipa
  generalize s.acceptSocket cfg client server ipa = s' at *
  have hpos : 0 < s.poolSize := by have := h.odd; omega
  -- both lists of the new connection are empty
  have hempty : ∀ i, i = s.poolSize ∨ i = s.poolSize + 1 →
      (s'.slots i).requests = [] ∧ (s'.slots (s'.slots i).counterSocketIndex).requests = [] := by
    intro i hi
    refine ⟨hnew (by omega) (by omega), ?_⟩
    rw [(hpaired.slot i (by omega) (by omega)).index]
    have hodd := h.odd
    unfold partner
    split
    · exact hnew (by omega) (by omega)
    · exact hnew (by omega) (by omega)
  constructor
  · intro hapart' hleft
    obtain ⟨i, hi, hat⟩ := hleft
    simp only [List.mem_cons, List.not_mem_nil, or_false] at hi
    have hown := hapart' i (by omega)
    obtain ⟨hme, hother⟩ := hempty i hi
    rcases hat with hat | hat
    · obtain ⟨p, hp⟩ := Option.ne_none_iff_exists'.mp hat
      have hin := hown.receive p ((hitems i).1.trans hp)
      rw [hme] at hin
      cases hin
    · obtain ⟨p, hp⟩ := Option.ne_none_iff_exists'.mp hat
      have hin := hown.send p ((hitems i).2.trans hp)
      rw [hother] at hin
      cases hin
  · intro hclean i hi
    by_cases hiold : i < s.poolSize
    · by_cases hzero : i = 0
      · subst hzero
        exact Listens.ownItems ⟨(hitems 0).1.trans hlisten.1, (hitems 0).2.trans hlisten.2⟩
      have hplt := partner_lt h.odd hiold
      refine (hapart i hiold).of_eq (hitems i).1 (hitems i).2 ?_ ?_
      · rw [hold hiold]
        exact fun _ => id
      · rw [hold hiold, (h.slot i (by omega) hiold).index, hold hplt]
        exact fun _ => id
    · have hin : i ∈ [s.poolSize, s.poolSize + 1] := by
        simp only [List.mem_cons, List.not_mem_nil, or_false]
        omega
      have hidle : ∀ p, (s'.slots i).currentReceiveItem ≠ some p
          ∧ (s'.slots i).currentSendItem ≠ some p := by
        intro p
        rw [(hitems i).1, (hitems i).2]
        constructor
        · intro hp
          exact hclean ⟨i, hin, .inl (by rw [hp]; simp)⟩
        · intro hp
          exact hclean ⟨i, hin, .inr (by rw [hp]; simp)⟩
      exact ⟨fun p hp => absurd hp (hidle p).1, fun p hp => absurd hp (hidle p).2⟩

end accepting

/-- A pair that is moved takes its messages along. -/
theorem Apart.closePair {s s' : Proxy σ ι} (h : s.Paired) (hlisten : s.Listens)
    (hapart : s.Apart) {i : Nat} (hi : i % 2 = 1) (hlt : i < s.poolSize)
    (hs' : s.closePair i = .ok s') : s'.Apart ∧ s'.Listens := by
  have hodd := h.odd
  obtain ⟨t, n, ht, hn, hsize, -, -, -, hslots⟩ := closePair_ok h hi hlt
  obtain rfl : t = s' := Except.ok.inj (ht.symm.trans hs')
  have hnodd : n % 2 = 1 := by omega
  have hzero : t.Listens := by
    unfold Listens
    rw [(hslots 0 (by omega)).2, if_pos rfl]
    exact hlisten
  refine ⟨fun j hj => ?_, hzero⟩
  by_cases hjzero : j = 0
  · subst hjzero
    exact hzero.ownItems
  have hpos : ∀ k, 0 < k → k < n → t.slots k
      = { s.slots (movedFrom i n k) with counterSocketIndex := partner k } := by
    intro k hk hkn
    rw [(hslots k hkn).2, if_neg (by omega)]
  have hj₀ : 0 < j := by omega
  have hjn : j < n := by omega
  have hfrom := movedFrom_pos (i := i) hj₀ hjn
  have hfromlt : movedFrom i n j < s.poolSize := hn ▸ movedFrom_lt hjn
  have hplt := partner_lt hnodd hjn
  refine (hapart _ hfromlt).of_eq ?_ ?_ ?_ ?_
  · rw [hpos j hj₀ hjn]
  · rw [hpos j hj₀ hjn]
  · rw [hpos j hj₀ hjn]
    exact fun _ => id
  · rw [hpos j hj₀ hjn, (h.slot _ hfrom hfromlt).index, partner_movedFrom hi hnodd hj₀ hjn]
    simp only [hpos _ (partner_pos j hj₀) hplt]
    exact fun _ => id

end Proxy

/-! ## Every run -/

namespace PoolRun

variable {cfg : Config σ ι} {s s' : PoolRun σ ι}

structure Owned (s : PoolRun σ ι) : Prop where
  tracks : s.Tracks
  listens : s.proxy.Listens
  apart : s.proxy.Apart

theorem Owned.init {w : World σ ι} (hw : w.Fresh) (listenSocket : Int) :
    (init w listenSocket).Owned where
  tracks := .init hw listenSocket
  listens := ⟨rfl, rfl⟩
  apart i hi := by
    have hsize : (PoolRun.init w listenSocket).proxy.poolSize = 1 := rfl
    obtain rfl : i = 0 := by omega
    exact Proxy.Listens.ownItems ⟨rfl, rfl⟩

/-- An event keeps the connections apart exactly when it is clean. -/
theorem Owned.step_iff (h : s.Owned) {e : Proxy.Event} (hkernel : s.Kernel e)
    (hclient : s.ClosesAtClient e) (hstep : s.step cfg e = .ok s') :
    s'.proxy.Listens ∧ (s'.proxy.Apart ↔ s.proxy.Clean e) := by
  have hpaired := h.tracks.paired
  have hconn : ∀ i, 0 < i → i < s.proxy.poolSize → (s.proxy.conn i).OwnItems :=
    fun i hi hlt => hpaired.conn_ownItems h.apart hi hlt
  cases e with
  | accept client server ipa =>
      obtain rfl := Except.ok.inj hstep
      have hitems := Proxy.acceptSocket_items (s := s.proxy) cfg client hkernel.1 ipa 0
      exact ⟨⟨hitems.1.trans h.listens.1, hitems.2.trans h.listens.2⟩,
        h.apart.accept_iff cfg client hkernel.1 ipa hpaired h.listens⟩
  | read i incoming =>
      obtain ⟨hi, hlt⟩ : 0 < i ∧ i < s.proxy.poolSize := hkernel
      obtain ⟨proxy, hread, hs'⟩ := Machine.bind_eq_ok.mp hstep
      obtain rfl := Machine.pure_eq_ok.mp hs'
      obtain ⟨outcome, hevent, hread⟩ := Machine.bind_eq_ok.mp hread
      have hread' := readEvent_ok hevent
      have hgrows := hread'.grows hpaired.fresh
      have heffect := hgrows.effect (hpaired.owned hi hlt)
      have hown := hgrows.ownItems (hconn i hi hlt)
      have hput : (s.proxy.put outcome.conn).Listens
          ∧ ((s.proxy.put outcome.conn).Apart ↔ True) :=
        ⟨hpaired.listens_put h.listens hi hlt heffect,
          iff_of_true ((hpaired.apart_put_iff h.listens h.apart hi hlt heffect).mpr hown) trivial⟩
      cases outcome with
      | again c =>
          obtain rfl := Machine.pure_eq_ok.mp hread
          exact hput
      | received c n =>
          obtain rfl := Machine.pure_eq_ok.mp hread
          exact hput
      | closed c =>
          have hcloses := hread'.closes
          obtain rfl := ReadOutcome.closed.inj (hread'.of_nil hcloses.1).1
          dsimp only at hread
          rw [Proxy.put_conn] at hread
          have hodd := hpaired.client_odd hi hlt (hclient hcloses)
          obtain ⟨hapart, hlisten⟩ := h.apart.closePair hpaired h.listens hodd hlt hread
          exact ⟨hlisten, iff_of_true hapart trivial⟩
  | write i sent =>
      obtain ⟨hi, hlt⟩ : 0 < i ∧ i < s.proxy.poolSize := hkernel
      obtain ⟨proxy, hwrite, hs'⟩ := Machine.bind_eq_ok.mp hstep
      obtain rfl := Machine.pure_eq_ok.mp hs'
      obtain ⟨⟨c, bytes⟩, hevent, hwrite⟩ := Machine.bind_eq_ok.mp hwrite
      obtain rfl := Machine.pure_eq_ok.mp hwrite
      have howned := hpaired.owned hi hlt
      have hwrite' := writeEvent_ok hevent
      have heffect := hwrite'.shrinks.effect howned
      exact ⟨hpaired.listens_put h.listens hi hlt heffect,
        (hpaired.apart_put_iff h.listens h.apart hi hlt heffect).trans
          (hwrite'.ownItems_iff howned (hconn i hi hlt))⟩
  | prepare =>
      obtain ⟨proxy, hprep, hs'⟩ := Machine.bind_eq_ok.mp hstep
      obtain rfl := Machine.pure_eq_ok.mp hs'
      have hkept : proxy.Paired ∧ proxy.Listens ∧ proxy.Apart := by
        refine Proxy.prepare_induction (P := fun t => t.Paired ∧ t.Listens ∧ t.Apart) hprep
          ⟨hpaired, h.listens, h.apart⟩ ?_
        rintro t t' i ⟨ht, hlisten, hapart⟩ hslot
        rcases Proxy.prepareSlot_ok hslot with rfl | ⟨⟨hmode, -⟩, p, hp, rfl⟩
        · exact ⟨ht, hlisten, hapart⟩
        · have hzero : (0 : Nat) ≠ i := by
            rintro rfl
            rw [ht.listener.1] at hmode
            cases hmode
          refine ⟨ht.of_sends, ?_, hapart.of_sends hp⟩
          unfold Proxy.Listens
          simp only [Function.update_of_ne hzero]
          exact hlisten
      exact ⟨hkept.2.1, iff_of_true hkept.2.2 trivial⟩

theorem Owned.step (h : s.Owned) {e : Proxy.Event} (hkernel : s.Kernel e)
    (hclient : s.ClosesAtClient e) (hclean : s.proxy.Clean e) (hstep : s.step cfg e = .ok s') :
    s'.Owned := by
  obtain ⟨hlisten, hiff⟩ := h.step_iff hkernel hclient hstep
  exact ⟨h.tracks.step hkernel hclient hstep, hlisten, hiff.mpr hclean⟩

/-- The states the proxy can be in as long as every event is clean. -/
def CleanlyReachable (cfg : Config σ ι) (listenSocket : Int) (s : PoolRun σ ι) : Prop :=
  ∃ w es, World.Fresh w
    ∧ Machine.Run (fun s e => s.Served e ∧ s.proxy.Clean e) (step cfg) (init w listenSocket) es s

theorem CleanlyReachable.owned {listenSocket : Int} (h : CleanlyReachable cfg listenSocket s) :
    s.Owned := by
  obtain ⟨w, es, hw, hrun⟩ := h
  exact hrun.invariant (.init hw listenSocket)
    fun _ _ _ ht hok hstep => ht.step hok.1.1 hok.1.2 hok.2 hstep

end PoolRun

instance (s : Proxy σ ι) : (e : Proxy.Event) → Decidable (s.Clean e)
  | .accept .. => inferInstanceAs (Decidable (¬ s.LeftBehind))
  | .read .. => inferInstanceAs (Decidable True)
  | .write i sent => inferInstanceAs (Decidable (¬ (s.conn i).Abandoned sent))
  | .prepare => inferInstanceAs (Decidable True)

/-- **No request state crosses connections** as long as every event is clean,
and the first one that is not makes one cross. -/
theorem current_items_own {cfg : Config σ ι} {listenSocket : Int} {s : PoolRun σ ι}
    (h : PoolRun.CleanlyReachable cfg listenSocket s) :
    (∀ i < s.proxy.poolSize,
      (∀ p, (s.proxy.slots i).currentReceiveItem = some p → p ∈ (s.proxy.slots i).requests)
      ∧ ∀ p, (s.proxy.slots i).currentSendItem = some p →
          p ∈ (s.proxy.slots (s.proxy.slots i).counterSocketIndex).requests)
      ∧ ∀ e s', s.Served e → s.step cfg e = .ok s' → (s'.proxy.Apart ↔ s.proxy.Clean e) := by
  have howned := h.owned
  exact ⟨fun i hi => ⟨(howned.apart i hi).receive, (howned.apart i hi).send⟩,
    fun e s' hserved hstep => (howned.step_iff hserved.1 hserved.2 hstep).2⟩

/-- A server about to send its client's request. -/
theorem current_items_own_example :
    ∃ s : PoolRun Unit Unit, PoolRun.CleanlyReachable idleConfig 3 s
      ∧ (s.proxy.slots 2).currentSendItem = some 0
      ∧ 0 ∈ (s.proxy.slots (s.proxy.slots 2).counterSocketIndex).requests := by
  obtain ⟨s, hrun, hs⟩ := Machine.Run.exists_of_exec
    (fun s e => PoolRun.Served s e ∧ s.proxy.Clean e) (PoolRun.step idleConfig)
    (.init idleWorld 3)
    [.accept 5 6 { weight := 1, appIndex := 0 }, .read 1 (.whole (sampleMessage 7 4)), .prepare]
    (fun s => (s.proxy.poolSize, (s.proxy.slots 2).currentSendItem)) (a := (3, some 0))
    (by decide +kernel)
  have hreach : PoolRun.CleanlyReachable idleConfig 3 s := ⟨idleWorld, _, fun _ _ => rfl, hrun⟩
  obtain ⟨hsize, hsend⟩ := Prod.mk.inj hs
  exact ⟨s, hreach, hsend, ((current_items_own hreach).1 2 (by omega)).2 0 hsend⟩

/-- A client that hangs up in the middle of a data flow leaves its message to
the next client. -/
theorem current_items_own_fails :
    ∃ (es : List Proxy.Event) (s : PoolRun Unit Unit),
      Machine.Run PoolRun.Served (PoolRun.step idleConfig) (.init idleWorld 3) es s
        ∧ s.proxy.poolSize = 3 ∧ (s.proxy.slots 1).socket = 7
        ∧ (s.proxy.slots 1).currentReceiveItem = some 2 ∧ (s.proxy.slots 1).requests = [] := by
  obtain ⟨s, hrun, hs⟩ := Machine.Run.exists_of_exec PoolRun.Served (PoolRun.step idleConfig)
    (.init idleWorld 3)
    [.accept 5 6 { weight := 1, appIndex := 0 }, .read 1 (.whole (sampleMessage 7 4)),
      .read 1 (.whole ((sampleMessage 7 4).take 30)), .read 1 .hangup,
      .accept 7 8 { weight := 1, appIndex := 0 }]
    (fun s => (s.proxy.poolSize, (s.proxy.slots 1).socket,
      (s.proxy.slots 1).currentReceiveItem, (s.proxy.slots 1).requests))
    (a := (3, 7, some 2, [])) (by decide +kernel)
  simp only [Prod.mk.injEq] at hs
  exact ⟨_, s, hrun, hs⟩

end PvfsProxy
