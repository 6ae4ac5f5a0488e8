import PvfsProxy.LlistNodes
import PvfsProxy.PoolPairing

/-!
# Request lists on their nodes

`clean_up_request_state` and `remove_socket_by_index` as loops over
`PINT_llist_rem`: both remove by tag, which takes the first state of that tag
off the list and not the one the caller is at. The heap holds the nodes of
the lists and the request states they point at; whatever follows a pointer
to a freed node or state, or frees one again, faults. What a state owns (its
buffer, its queue item) is freed with it, and `freed` records the states in
the order of their `free`.

`cleanUpList_ends` and `removeSocketByIndexNodes_ends` say what the loops
leave, and `CleanedUp.refines` and `Discarded.refines` that it is what
`cleanUpRequests` and `removeSocketByIndex` have on the lists.
-/

namespace PvfsProxy

open LinkedNodes Loops

variable {ι : Type}

/-- The nodes of the request lists, the states, and the states freed so far. -/
structure RequestHeap (ι : Type) where
  nodes : Nodes (Option Addr)
  mem : Mem ι
  freed : List Addr

def readState (mem : Mem ι) (p : Option Addr) : Except LlistStop (RequestState ι) :=
  match p.bind mem with
  | some rs => .ok rs
  | none => .error (.fault .invalid)

/-- `list_req_state_comp_curr` on a node's item. -/
def reqStateCompCurr (mem : Mem ι) (tag : Int) (p : Option Addr) : Except LlistStop Int := do
  let rs ← readState mem p
  return if tag = rs.currentTag then 0 else 1

/-- `free(removed_rs)`, with what it owns. -/
def RequestHeap.freeState (h : RequestHeap ι) (p : Addr) : Except LlistStop (RequestHeap ι) := do
  let _ ← readState h.mem (some p)
  return { h with mem := h.mem.free p, freed := h.freed ++ [p] }

/-- `PINT_llist_rem(list, tag, list_req_state_comp_curr)`; the state is `none`
where it returns NULL. -/
def RequestHeap.rem (turns : Nat) (list : Ptr) (tag : Int) (h : RequestHeap ι) :
    Except LlistStop (Option Addr × RequestHeap ι) := do
  let (item, nodes) ← pintLlistRemNodes (reqStateCompCurr h.mem tag) turns h.nodes list
  return (item.join, { h with nodes })

/-! ## `clean_up_request_state` -/

/-- The body of `while (removed_rs != NULL)`. -/
def cleanUpTurn (turns : Nat) (list : Ptr) (tag : Int) :
    Option Addr × RequestHeap ι → Except LlistStop (Option Addr × RequestHeap ι)
  | (none, h) => .ok (none, h)
  | (some removedRs, h) => do
    let h ← h.freeState removedRs
    h.rem turns list tag

def cleanUpList (turns : Nat) (list : Ptr) (tag : Int) (h : RequestHeap ι) :
    Except LlistStop (RequestHeap ι) := do
  let removed ← h.rem turns list tag
  let last ← whileLoop (fun s => s.1.isSome) (cleanUpTurn turns list tag) turns removed
  return last.2

/-- `clean_up_request_state`, on the lists of the two sockets. -/
def cleanUpRequestStateNodes (turns : Nat) (list counterList : Ptr) (tag : Int)
    (h : RequestHeap ι) : Except LlistStop (RequestHeap ι) := do
  let h ← cleanUpList turns list tag h
  cleanUpList turns counterList tag h

/-! ## `remove_socket_by_index` -/

/-- The body of `while (queue != NULL)`. -/
def removeTurn (turns : Nat) (appReqs : Ptr) (s : Ptr × RequestHeap ι) :
    Except LlistStop (Ptr × RequestHeap ι) := do
  let node ← readNode s.2.nodes s.1
  match node.item with
  | none => .error (.fault (.exit (-1)))
  | some currentItem => do
    let rs ← readState s.2.mem (some currentItem)
    let queue := node.next
    let (removed, h) ← s.2.rem turns appReqs rs.currentTag
    match removed with
    | none => .error (.fault (.exit (-1)))
    | some removedItem => do
      let h ← h.freeState removedItem
      return (queue, h)

/-- What `remove_socket_by_index` does with the list of the socket: the new
`req_state_data` is NULL. -/
def removeSocketByIndexNodes (turns : Nat) (reqStateData : Ptr) (h : RequestHeap ι) :
    Except LlistStop (Ptr × RequestHeap ι) :=
  match reqStateData with
  | none => .error (.fault (.exit (-1)))
  | some appReqs => do
    let head ← readNode h.nodes (some appReqs)
    let (_, h) ← whileLoop (fun s => s.1.isSome) (removeTurn turns (some appReqs)) turns
      (head.next, h)
    let _ ← readNode h.nodes (some appReqs)
    return (none, { h with nodes := h.nodes.free appReqs })

/-! ## Lists of live states -/

/-- The states of a list, in order. -/
def states (l : List (Nat × Addr)) : List Addr := l.map Prod.snd

/-- The nodes of a request list behind its sentinel. -/
def reqNodes (head : Nat) (l : List (Nat × Addr)) : List (Nat × Option Addr) :=
  (head, none) :: l.map fun y => (y.1, some y.2)

/-- The sentinel at `head` starts a list of live states. -/
structure RequestHeap.Lists (h : RequestHeap ι) (head : Nat) (l : List (Nat × Addr)) : Prop where
  seg : Seg h.nodes (some head) (reqNodes head l) none
  live : ∀ p ∈ states l, (h.mem p).isSome = true

theorem RequestHeap.Lists.congr {h h' : RequestHeap ι} {head : Nat} {l : List (Nat × Addr)}
    (hl : h.Lists head l) (hnodes : ∀ b ∈ head :: addrs l, h'.nodes b = h.nodes b)
    (hmem : ∀ p ∈ states l, h'.mem p = h.mem p) : h'.Lists head l := by
  refine ⟨hl.seg.congr fun b hb => hnodes b ?_, fun p hp => ?_⟩
  · simpa [reqNodes, addrs] using hb
  · rw [hmem p hp]
    exact hl.live p hp

@[simp] theorem states_nil : states [] = [] := rfl

@[simp] theorem states_cons (y : Nat × Addr) (l : List (Nat × Addr)) :
    states (y :: l) = y.2 :: states l := rfl

@[simp] theorem states_append (l l' : List (Nat × Addr)) :
    states (l ++ l') = states l ++ states l' := List.map_append

theorem mem_states {l : List (Nat × Addr)} {y : Nat × Addr} (h : y ∈ l) : y.2 ∈ states l :=
  List.mem_map_of_mem h

theorem states_sublist {l l' : List (Nat × Addr)} (h : l.Sublist l') :
    (states l).Sublist (states l') := h.map _

theorem filter_states (m : Addr → Bool) (l : List (Nat × Addr)) :
    (states l).filter m = states (l.filter fun y => m y.2) := List.filter_map

theorem addrs_reqNodes (head : Nat) (l : List (Nat × Addr)) :
    addrs (reqNodes head l) = head :: addrs l := by
  simp [reqNodes, addrs]

theorem readState_eq {mem : Mem ι} {p : Addr} {rs : RequestState ι} (h : mem p = some rs) :
    readState mem (some p) = .ok rs := by
  simp [readState, h]

theorem RequestHeap.freeState_eq {h : RequestHeap ι} {p : Addr} (hp : (h.mem p).isSome = true) :
    h.freeState p = .ok { h with mem := h.mem.free p, freed := h.freed ++ [p] } := by
  obtain ⟨rs, hrs⟩ := Option.isSome_iff_exists.mp hp
  rw [RequestHeap.freeState, readState_eq hrs]
  rfl

/-! ## The first state of a tag -/

/-- The first match and what is left without it. -/
theorem eraseP_of_find? {α : Type*} {m : α → Bool} {l : List α} {y : α}
    (h : l.find? m = some y) :
    l.filter m = y :: (l.eraseP m).filter m
      ∧ ((l.eraseP m).filter fun z => !m z) = (l.filter fun z => !m z)
      ∧ l.Perm (y :: l.eraseP m) := by
  obtain ⟨hy, as, bs, rfl, has⟩ := List.find?_eq_some_iff_append.mp h
  have has' : ∀ a ∈ as, ¬ m a = true := fun a ha => by simpa using has a ha
  rw [List.eraseP_append_right _ has', List.eraseP_cons_of_pos hy]
  refine ⟨?_, by simp [hy], List.perm_middle⟩
  simp [List.filter_eq_nil_iff.mpr has', hy]

/-- What `PINT_llist_rem` by tag leaves of a list, where `m` are the states of
the tag. -/
structure RequestHeap.Rem (h : RequestHeap ι) (head : Nat) (m : Addr → Bool)
    (l : List (Nat × Addr)) (r : Option Addr × RequestHeap ι) : Prop where
  item : r.1 = (l.find? fun y => m y.2).map Prod.snd
  seg : Seg r.2.nodes (some head) (reqNodes head (l.eraseP fun y => m y.2)) none
  gone : ∀ b ∈ addrs l, b ∉ addrs (l.eraseP fun y => m y.2) → r.2.nodes b = none
  frame : ∀ b ∉ head :: addrs l, r.2.nodes b = h.nodes b
  mem : r.2.mem = h.mem
  freed : r.2.freed = h.freed

theorem RequestHeap.rem_ends {h : RequestHeap ι} {head : Nat} {l : List (Nat × Addr)} {tag : Int}
    {m : Addr → Bool} (hseg : Seg h.nodes (some head) (reqNodes head l) none)
    (hm : ∀ p ∈ states l, (h.mem p).isSome = true ∧ hasTag h.mem tag p = m p) (turns : Nat) :
    Ends (h.rem turns (some head) tag) (h.Rem head m l)
      (fun e => e = .unfinished ∧ turns ≤ l.length) := by
  have hcomp : ∀ y ∈ l.map (fun y => (y.1, some y.2)),
      reqStateCompCurr h.mem tag y.2 = .ok (if y.2.any m then 0 else 1) := by
    intro y hy
    obtain ⟨z, hz, rfl⟩ := List.mem_map.mp hy
    obtain ⟨hlive, htag⟩ := hm z.2 (mem_states hz)
    obtain ⟨rs, hrs⟩ := Option.isSome_iff_exists.mp hlive
    rw [hasTag, hrs, Option.any_some] at htag
    rw [Option.any_some, ← htag, reqStateCompCurr, readState_eq hrs, ok_bind]
    simp only [beq_iff_eq, eq_comm (a := tag)]
    rfl
  rw [RequestHeap.rem]
  have hrem := pintLlistRemNodes_ends (f := fun p => p.any m) hcomp hseg turns
  refine Ends.bind (hrem.mono (fun _ hr => hr) fun e he => ?_) fun r hr => ?_
  · simpa using he
  · obtain ⟨hitem, hlist, hgone, hframe⟩ := hr
    have hfind : (l.map fun y => (y.1, some y.2)).find? (fun y => y.2.any m)
        = (l.find? fun y => m y.2).map fun y => (y.1, some y.2) := List.find?_map
    rw [hfind] at hitem hgone
    refine ⟨?_, ?_, fun b hb hout => ?_, ?_, rfl, rfl⟩
    · rw [hitem]
      cases l.find? fun y => m y.2 <;> rfl
    · rw [List.eraseP_map] at hlist
      exact hlist
    · -- off the list, the node is the one of the first match
      obtain ⟨z, hz⟩ : ∃ z, (l.find? fun y => m y.2) = some z := by
        rw [← Option.ne_none_iff_exists']
        intro hnone
        rw [List.find?_eq_none] at hnone
        rw [List.eraseP_of_forall_not hnone] at hout
        exact hout hb
      have hzperm := ((eraseP_of_find? hz).2.2.map Prod.fst).subset hb
      rcases List.mem_cons.mp hzperm with rfl | hmem
      · exact hgone (z.1, some z.2) (by rw [hz]; rfl)
      · exact absurd hmem hout
    · rw [← addrs_reqNodes]
      exact hframe

/-! ## The clean-up of one list -/

/-- Inside the loop: the state removed last is the first of the tag in `L`,
which the list has been before that removal; the states `done` are freed. -/
structure Cleaning (h₀ : RequestHeap ι) (head : Nat) (m : Addr → Bool) (l L : List (Nat × Addr))
    (done : List Addr) (s : Option Addr × RequestHeap ι) : Prop where
  item : s.1 = (L.find? fun y => m y.2).map Prod.snd
  seg : Seg s.2.nodes (some head) (reqNodes head (L.eraseP fun y => m y.2)) none
  kept : (L.filter fun y => !m y.2) = l.filter fun y => !m y.2
  left : done ++ states (L.filter fun y => m y.2) = states (l.filter fun y => m y.2)
  apart : (done ++ states L).Nodup
  sub : L.Sublist l
  freed : s.2.freed = h₀.freed ++ done
  mem : ∀ q, s.2.mem q = if q ∈ done then none else h₀.mem q
  gone : ∀ b ∈ addrs l, b ∉ addrs (L.eraseP fun y => m y.2) → s.2.nodes b = none
  frame : ∀ b ∉ head :: addrs l, s.2.nodes b = h₀.nodes b

section Clean

variable {h₀ : RequestHeap ι} {head : Nat} {l L : List (Nat × Addr)} {done : List Addr} {tag : Int}
  {s : Option Addr × RequestHeap ι}

theorem Cleaning.turn (hhead : head ∉ addrs l) (hlive : ∀ p ∈ states l, (h₀.mem p).isSome = true)
    (h : Cleaning h₀ head (hasTag h₀.mem tag) l L done s) (hmore : s.1.isSome = true)
    (turns : Nat) :
    Ends (cleanUpTurn turns (some head) tag s)
      (fun t => ∃ L' done', Cleaning h₀ head (hasTag h₀.mem tag) l L' done' t
        ∧ (L'.filter fun y => hasTag h₀.mem tag y.2).length
          < (L.filter fun y => hasTag h₀.mem tag y.2).length)
      (fun e => e = .unfinished ∧ turns ≤ l.length) := by
  obtain ⟨item, heap⟩ := s
  obtain ⟨y, hy⟩ : ∃ y, (L.find? fun y => hasTag h₀.mem tag y.2) = some y := by
    rw [h.item, Option.isSome_map] at hmore
    exact Option.isSome_iff_exists.mp hmore
  obtain ⟨hmatch, hrest, hperm⟩ := eraseP_of_find? hy
  set L' := L.eraseP fun y => hasTag h₀.mem tag y.2 with hL'
  obtain rfl : item = some y.2 := by simpa [hy] using h.item
  have hapart : (done ++ y.2 :: states L').Nodup :=
    ((hperm.map Prod.snd).append_left done).nodup_iff.mp h.apart
  obtain ⟨-, -, hnew⟩ := List.nodup_append.mp hapart
  have hsub : L'.Sublist l := List.eraseP_sublist.trans h.sub
  have hyl : y ∈ l := h.sub.subset (List.mem_of_find?_eq_some hy)
  have hmem : ∀ p ∈ y.2 :: states L', heap.mem p = h₀.mem p := by
    intro p hp
    rw [h.mem p, if_neg fun hdone => hnew p hdone p hp rfl]
  have hylive : (heap.mem y.2).isSome = true := by
    rw [hmem _ (List.mem_cons_self ..)]
    exact hlive _ (mem_states hyl)
  have hmem' : ∀ p ∈ states L', heap.mem.free y.2 p = h₀.mem p := by
    intro p hp
    have hne : p ≠ y.2 := by
      rintro rfl
      exact (List.nodup_cons.mp (List.nodup_append.mp hapart).2.1).1 hp
    rw [Mem.free, Function.update_of_ne hne, hmem p (List.mem_cons_of_mem _ hp)]
  rw [cleanUpTurn, RequestHeap.freeState_eq hylive, ok_bind]
  have htags : ∀ p ∈ states L', (heap.mem.free y.2 p).isSome = true
      ∧ hasTag (heap.mem.free y.2) tag p = hasTag h₀.mem tag p := by
    intro p hp
    rw [hasTag, hmem' p hp]
    exact ⟨hlive p ((states_sublist hsub).subset hp), rfl⟩
  have hrem := @RequestHeap.rem_ends _ { heap with
    mem := heap.mem.free y.2
    freed := heap.freed ++ [y.2] } head L' tag _ h.seg htags turns
  refine hrem.mono (fun r hr => ?_) fun e he => ⟨he.1, he.2.trans hsub.length_le⟩
  · refine ⟨L', done ++ [y.2], ⟨hr.item, hr.seg, hrest.trans h.kept, ?_, by simpa using hapart,
      hsub, ?_, fun q => ?_, fun b hb hgone => ?_, fun b hb => ?_⟩, by simp [hmatch]⟩
    · rw [← h.left, hmatch]
      simp
    · rw [hr.freed, h.freed, List.append_assoc]
    · rw [hr.mem, Mem.free]
      by_cases hq : q = y.2
      · simp [hq]
      · simpa [hq] using h.mem q
    · by_cases hb' : b ∈ addrs L'
      · exact hr.gone b hb' hgone
      · rw [hr.frame b fun hmem => ?_, h.gone b hb hb']
        rcases List.mem_cons.mp hmem with rfl | hmem
        · exact hhead hb
        · exact hb' hmem
    · rw [hr.frame b fun hmem => hb ?_, h.frame b hb]
      exact (List.Sublist.cons_cons head (hsub.map Prod.fst)).subset hmem

/-- What cleaning a list up leaves: the states of `m` are freed, one after the
other, and the others are still there in their order. -/
structure CleanedUp (h₀ : RequestHeap ι) (head : Nat) (m : Addr → Bool) (l : List (Nat × Addr))
    (h : RequestHeap ι) : Prop where
  lists : h.Lists head (l.filter fun y => !m y.2)
  freed : h.freed = h₀.freed ++ states (l.filter fun y => m y.2)
  mem : ∀ q, h.mem q = if q ∈ states (l.filter fun y => m y.2) then none else h₀.mem q
  gone : ∀ b ∈ addrs (l.filter fun y => m y.2), h.nodes b = none
  frame : ∀ b ∉ head :: addrs l, h.nodes b = h₀.nodes b

/-- The loop ends when `PINT_llist_rem` finds no state of the tag. -/
theorem Cleaning.cleaned {m : Addr → Bool} (haddrs : (addrs l).Nodup)
    (hlive : ∀ p ∈ states l, (h₀.mem p).isSome = true)
    (h : Cleaning h₀ head m l L done s) (hend : s.1.isSome = false) :
    CleanedUp h₀ head m l s.2 := by
  have hnone : ∀ y ∈ L, ¬ m y.2 = true := by
    rw [h.item, Option.isSome_map, Option.isSome_eq_false_iff, Option.isNone_iff_eq_none,
      List.find?_eq_none] at hend
    exact hend
  have herase : (L.eraseP fun y => m y.2) = l.filter fun y => !m y.2 := by
    rw [← h.kept, List.eraseP_of_forall_not hnone, List.filter_eq_self.mpr]
    simpa using hnone
  have hdone : done = states (l.filter fun y => m y.2) := by
    rw [← h.left, List.filter_eq_nil_iff.mpr hnone]
    simp [states]
  subst hdone
  refine ⟨⟨herase ▸ h.seg, fun p hp => ?_⟩, h.freed, h.mem, fun b hb => ?_, h.frame⟩
  · obtain ⟨y, hy, rfl⟩ := List.mem_map.mp hp
    rw [List.mem_filter, Bool.not_eq_true'] at hy
    rw [h.mem, if_neg, hlive _ (mem_states hy.1)]
    intro hmem
    obtain ⟨z, hz, heq⟩ := List.mem_map.mp hmem
    rw [← heq, (List.mem_filter.mp hz).2] at hy
    exact absurd hy.2 (by decide)
  · have hsplit : (addrs (l.filter fun y => m y.2) ++ addrs (l.filter fun y => !m y.2)).Nodup := by
      rw [← addrs_append]
      exact ((List.filter_append_perm _ l).map Prod.fst).nodup_iff.mpr haddrs
    refine h.gone b ((List.filter_sublist.map Prod.fst).subset hb) fun hout => ?_
    rw [herase] at hout
    exact (List.nodup_append.mp hsplit).2.2 b hb b hout rfl

theorem cleanUpList_ends {h : RequestHeap ι} (hl : h.Lists head l) (hnodup : (states l).Nodup)
    (tag : Int) (turns : Nat) :
    Ends (cleanUpList turns (some head) tag h) (CleanedUp h head (hasTag h.mem tag) l)
      (fun e => e = .unfinished ∧ turns ≤ l.length) := by
  have hhead : head ∉ addrs l := by
    have haddrs := hl.seg.nodup
    rw [addrs_reqNodes] at haddrs
    exact (List.nodup_cons.mp haddrs).1
  have haddrs : (addrs l).Nodup := by
    have haddrs := hl.seg.nodup
    rw [addrs_reqNodes] at haddrs
    exact (List.nodup_cons.mp haddrs).2
  rw [cleanUpList]
  have hrem := @RequestHeap.rem_ends _ h head l tag _ hl.seg (fun p hp => ⟨hl.live p hp, rfl⟩) turns
  refine Ends.bind hrem fun r hr => ?_
  have hstart : Cleaning h head (hasTag h.mem tag) l l [] r :=
    ⟨hr.item, hr.seg, rfl, rfl, hnodup, List.Sublist.refl l, by simp [hr.freed], by simp [hr.mem],
      hr.gone, hr.frame⟩
  refine Ends.bind (Ends.mono (Ends.loop (X := fun e => e = .unfinished ∧ turns ≤ l.length)
    (k := (l.filter fun y => hasTag h.mem tag y.2).length)
    (I := fun k s => ∃ L done, Cleaning h head (hasTag h.mem tag) l L done s
      ∧ k = (L.filter fun y => hasTag h.mem tag y.2).length)
    (fun k s hs hmore => ?_) ⟨l, [], hstart, rfl⟩) (fun _ hs => hs) fun e he => ?_) fun s hs => ?_
  · obtain ⟨L, done, hclean, rfl⟩ := hs
    refine (hclean.turn hhead hl.live hmore turns).mono (fun t ht => ?_) fun _ he => he
    obtain ⟨L', done', hclean', hless⟩ := ht
    exact ⟨_, hless, L', done', hclean', rfl⟩
  · rcases he with he | ⟨hstop, hturns⟩
    · exact he
    · exact ⟨hstop, hturns.trans (List.length_filter_le _ _)⟩
  · obtain ⟨hend, -, L, done, hclean, -⟩ := hs
    exact hclean.cleaned haddrs hl.live hend

end Clean

/-! ## The walk of `remove_socket_by_index` -/

/-- Inside the walk: every state before the node `queue` is at is gone, so
the list is what is left to visit. -/
structure Walking (h₀ : RequestHeap ι) (head : Nat) (l L : List (Nat × Addr)) (done : List Addr)
    (s : Ptr × RequestHeap ι) : Prop where
  queue : s.1 = L.head?.map Prod.fst
  seg : Seg s.2.nodes (some head) (reqNodes head L) none
  left : done ++ states L = states l
  sub : L.Sublist l
  freed : s.2.freed = h₀.freed ++ done
  mem : ∀ q, s.2.mem q = if q ∈ done then none else h₀.mem q
  gone : ∀ b ∈ addrs l, b ∉ addrs L → s.2.nodes b = none
  frame : ∀ b ∉ head :: addrs l, s.2.nodes b = h₀.nodes b

section Walk

variable {h₀ : RequestHeap ι} {head : Nat} {l L : List (Nat × Addr)} {y : Nat × Addr}
  {done : List Addr} {s : Ptr × RequestHeap ι}

/-- The first state of the visited one's tag is the visited one. -/
theorem Walking.turn (hhead : head ∉ addrs l) (hlive : ∀ p ∈ states l, (h₀.mem p).isSome = true)
    (hnodup : (states l).Nodup) (h : Walking h₀ head l (y :: L) done s) (turns : Nat) :
    Ends (removeTurn turns (some head) s) (Walking h₀ head l L (done ++ [y.2]))
      (fun e => e = .unfinished ∧ turns ≤ l.length) := by
  obtain ⟨queue, heap⟩ := s
  obtain ⟨a, p⟩ := y
  obtain rfl : queue = some a := h.queue
  obtain ⟨-, n, hn, hlist⟩ := h.seg.cons_inv
  obtain ⟨-, m, ha, hrest⟩ := hlist.cons_inv
  have hsub : L.Sublist l := (List.sublist_cons_self _ _).trans h.sub
  have hmem : ∀ q ∈ p :: states L, heap.mem q = h₀.mem q := by
    intro q hq
    rw [← h.left] at hnodup
    rw [h.mem q, if_neg fun hdone => (List.nodup_append.mp hnodup).2.2 q hdone q hq rfl]
  have hlive' : ∀ q ∈ p :: states L, (heap.mem q).isSome = true := by
    intro q hq
    rw [hmem q hq]
    exact hlive q ((states_sublist h.sub).subset hq)
  obtain ⟨rs, hrs⟩ := Option.isSome_iff_exists.mp (hlive' p (List.mem_cons_self ..))
  have htag : hasTag heap.mem rs.currentTag p = true := by simp [hasTag, hrs]
  have hrem := @RequestHeap.rem_ends _ heap head _ rs.currentTag _ h.seg
    (fun q hq => ⟨hlive' q hq, rfl⟩) turns
  simp only [removeTurn, readNode_eq ha, ok_bind, readState_eq hrs]
  refine Ends.bind (hrem.mono (fun _ hr => hr) fun e he => ⟨he.1, he.2.trans h.sub.length_le⟩)
    fun r hr => ?_
  obtain ⟨removed, heap'⟩ := r
  have herase : ((a, p) :: L).eraseP (fun z => hasTag heap.mem rs.currentTag z.2) = L :=
    List.eraseP_cons_of_pos htag
  obtain rfl : removed = some p := by
    have hitem := hr.item
    simp only [List.find?_cons, htag] at hitem
    exact hitem
  have hplive : (heap'.mem p).isSome = true := by
    rw [hr.mem]
    exact hlive' p (List.mem_cons_self ..)
  have hseg := hr.seg
  have hgone := hr.gone
  rw [herase] at hseg hgone
  simp only [RequestHeap.freeState_eq hplive, ok_bind]
  refine ⟨?_, hseg, by simpa using h.left, hsub, ?_, fun q => ?_, fun b hb hout => ?_,
    fun b hb => ?_⟩
  · have hstart := hrest.start
    rw [List.head?_map, Option.map_map] at hstart
    exact hstart
  · rw [hr.freed, h.freed, List.append_assoc]
  · have hsame : heap'.mem = heap.mem := hr.mem
    simp only [hsame, Mem.free]
    by_cases hq : q = p
    · simp [hq]
    · simpa [hq] using h.mem q
  · by_cases hb' : b ∈ addrs ((a, p) :: L)
    · exact hgone b hb' hout
    · rw [hr.frame b fun hmem => ?_, h.gone b hb hb']
      rcases List.mem_cons.mp hmem with rfl | hmem
      · exact hhead hb
      · exact hb' hmem
  · rw [hr.frame b fun hmem => hb ?_, h.frame b hb]
    exact (List.Sublist.cons_cons head (h.sub.map Prod.fst)).subset hmem

/-- What removing the socket leaves of its list: nothing. -/
structure Discarded (h₀ : RequestHeap ι) (head : Nat) (l : List (Nat × Addr))
    (h : RequestHeap ι) : Prop where
  freed : h.freed = h₀.freed ++ states l
  mem : ∀ q, h.mem q = if q ∈ states l then none else h₀.mem q
  gone : ∀ b ∈ head :: addrs l, h.nodes b = none
  frame : ∀ b ∉ head :: addrs l, h.nodes b = h₀.nodes b

theorem removeSocketByIndexNodes_ends {h : RequestHeap ι} (hl : h.Lists head l)
    (hnodup : (states l).Nodup) (turns : Nat) :
    Ends (removeSocketByIndexNodes turns (some head) h)
      (fun r => r.1 = none ∧ Discarded h head l r.2)
      (fun e => e = .unfinished ∧ turns ≤ l.length) := by
  have hhead : head ∉ addrs l := by
    have haddrs := hl.seg.nodup
    rw [addrs_reqNodes] at haddrs
    exact (List.nodup_cons.mp haddrs).1
  obtain ⟨-, n, hn, hlist⟩ := hl.seg.cons_inv
  rw [removeSocketByIndexNodes]
  simp only [readNode_eq hn, ok_bind]
  have hstart : Walking h head l l [] (n, h) := by
    refine ⟨?_, hl.seg, rfl, List.Sublist.refl l, by simp, by simp, fun b hb hout => absurd hb hout,
      fun _ _ => rfl⟩
    have hstart := hlist.start
    rw [List.head?_map, Option.map_map] at hstart
    exact hstart
  refine Ends.bind (Ends.mono (Ends.loop (X := fun e => e = .unfinished ∧ turns ≤ l.length)
    (k := l.length) (I := fun k s => ∃ L done, Walking h head l L done s ∧ k = L.length)
    (fun k s hs hmore => ?_) ⟨l, [], hstart, rfl⟩) (fun _ hs => hs) fun e he => he.elim id id)
    fun s hs => ?_
  · obtain ⟨L, done, hwalk, rfl⟩ := hs
    rcases L with _ | ⟨y, L⟩
    · rw [hwalk.queue] at hmore
      cases hmore
    · refine (hwalk.turn hhead hl.live hnodup turns).mono (fun t ht => ?_) fun _ he => he
      exact ⟨_, Nat.lt_succ_self _, L, _, ht, rfl⟩
  · obtain ⟨queue, heap⟩ := s
    obtain ⟨hend, -, L, done, hwalk, -⟩ := hs
    rcases L with _ | ⟨y, L⟩
    · obtain ⟨-, n', hn', -⟩ := hwalk.seg.cons_inv
      simp only [readNode_eq hn', ok_bind]
      obtain rfl : done = states l := by simpa using hwalk.left
      refine ⟨rfl, hwalk.freed, hwalk.mem, fun b hb => ?_, fun b hb => ?_⟩
      · by_cases hb' : b = head
        · subst hb'
          exact Nodes.free_self _ _
        · exact (Nodes.free_of_ne hb').trans
            (hwalk.gone b ((List.mem_cons.mp hb).resolve_left hb') List.not_mem_nil)
      · have hne : b ≠ head := fun heq => hb (heq ▸ List.mem_cons_self ..)
        exact (Nodes.free_of_ne hne).trans (hwalk.frame b hb)
    · rw [hwalk.queue] at hend
      cases hend

end Walk

/-! ## Both functions, on the lists of a connection -/

/-- The clean-up on the nodes is `cleanUpRequests` on the list. -/
theorem CleanedUp.refines {h₀ h : RequestHeap ι} {head : Nat} {l : List (Nat × Addr)} {tag : Int}
    (h' : CleanedUp h₀ head (hasTag h₀.mem tag) l h) {s : SocketState}
    (hs : s.requests = states l) :
    (cleanUpRequests tag s h₀.mem).1.requests = states (l.filter fun y => !hasTag h₀.mem tag y.2)
      ∧ (cleanUpRequests tag s h₀.mem).2 = h.mem := by
  constructor
  · rw [cleanUpRequests_requests, hs, filter_states (fun p => !hasTag h₀.mem tag p)]
  · funext q
    rw [cleanUpRequests_mem, h'.mem, hs, ← filter_states]
    simp only [List.mem_filter]

/-- Removing the socket's list on the nodes is `removeSocketByIndex`. -/
theorem Discarded.refines {h₀ h : RequestHeap ι} {head : Nat} {l : List (Nat × Addr)}
    (h' : Discarded h₀ head l h) (hl : h₀.Lists head l) (hnodup : (states l).Nodup)
    {s : SocketState} (hs : s.reqStateData = some (states l)) :
    removeSocketByIndex s h₀.mem = .ok ({ s with reqStateData := none }, h.mem) := by
  have hreq : s.requests = states l := by rw [SocketState.requests, hs, Option.getD_some]
  rw [removeSocketByIndex_ok (by rw [hs]; rfl) (hreq ▸ hnodup) (hreq ▸ hl.live), hreq]
  congr 2
  funext q
  rw [free_foldl, h'.mem]

section Lists

variable {h : RequestHeap ι} {head counterHead : Nat} {l counter : List (Nat × Addr)}

/-- **The clean-up of a tag frees every state of it on both lists once, in
order, and keeps the other states in theirs; removing a socket frees every
state of its list once.** -/
theorem clean_up_requests (hl : h.Lists head l) (hcounter : h.Lists counterHead counter)
    (hnodes : (head :: addrs l).Disjoint (counterHead :: addrs counter))
    (hstates : (states l ++ states counter).Nodup) (tag : Int) :
    (∃ turns h', cleanUpRequestStateNodes turns (some head) (some counterHead) tag h = .ok h'
        ∧ h'.Lists head (l.filter fun y => !hasTag h.mem tag y.2)
        ∧ h'.Lists counterHead (counter.filter fun y => !hasTag h.mem tag y.2)
        ∧ h'.freed = h.freed ++ (states l ++ states counter).filter (hasTag h.mem tag)
        ∧ (∀ q, h'.mem q
          = if q ∈ (states l ++ states counter).filter (hasTag h.mem tag) then none else h.mem q)
        ∧ (∀ b ∈ addrs ((l ++ counter).filter fun y => hasTag h.mem tag y.2), h'.nodes b = none)
        ∧ ∀ b ∉ head :: addrs l, b ∉ counterHead :: addrs counter → h'.nodes b = h.nodes b)
      ∧ ∃ turns h', removeSocketByIndexNodes turns (some head) h = .ok (none, h')
        ∧ h'.freed = h.freed ++ states l
        ∧ (∀ q, h'.mem q = if q ∈ states l then none else h.mem q)
        ∧ ∀ b, h'.nodes b = if b ∈ head :: addrs l then none else h.nodes b := by
  obtain ⟨hnodup, hnodup', hapart⟩ := List.nodup_append.mp hstates
  constructor
  · refine ⟨max l.length counter.length + 1, ?_⟩
    generalize hturns : max l.length counter.length + 1 = turns
    obtain ⟨h₁, hfirst, hclean⟩ := (cleanUpList_ends hl hnodup tag turns).exists_ok
      fun e he => by omega
    have hnodes₁ : ∀ b ∈ counterHead :: addrs counter, h₁.nodes b = h.nodes b :=
      fun b hb => hclean.frame b fun hmem => hnodes hmem hb
    have hmem₁ : ∀ p ∈ states counter, h₁.mem p = h.mem p := by
      intro p hp
      rw [hclean.mem, if_neg]
      intro hmem
      exact hapart p ((states_sublist List.filter_sublist).subset hmem) p hp rfl
    have htags : ∀ y ∈ counter, hasTag h₁.mem tag y.2 = hasTag h.mem tag y.2 :=
      fun y hy => by rw [hasTag, hmem₁ y.2 (mem_states hy), hasTag]
    have hkept : (counter.filter fun y => !hasTag h₁.mem tag y.2)
        = counter.filter fun y => !hasTag h.mem tag y.2 :=
      List.filter_congr fun y hy => by rw [htags y hy]
    obtain ⟨h₂, hsecond, hlists, hfreed, hmem, hgone, hframe⟩ :=
      (cleanUpList_ends (hcounter.congr hnodes₁ hmem₁) hnodup' tag turns).exists_ok
        fun e he => by omega
    rw [hkept] at hlists
    simp only [List.filter_congr htags] at hfreed hmem hgone
    refine ⟨h₂, ?_, hclean.lists.congr (fun b hb => ?_) fun p hp => ?_, hlists, ?_, fun q => ?_,
      fun b hb => ?_, fun b hb hb' => ?_⟩
    · rw [cleanUpRequestStateNodes, hfirst, ok_bind, hsecond]
    · have hb' : b ∈ head :: addrs l :=
        (List.Sublist.cons_cons head (List.filter_sublist.map Prod.fst)).subset hb
      exact hframe b fun hmem => hnodes hb' hmem
    · have hp' : p ∈ states l := (states_sublist List.filter_sublist).subset hp
      rw [hmem, if_neg]
      intro hmem'
      exact hapart p hp' p ((states_sublist List.filter_sublist).subset hmem') rfl
    · rw [hfreed, hclean.freed, List.filter_append, filter_states, filter_states,
        List.append_assoc]
    · rw [hmem, hclean.mem]
      simp only [List.filter_append, filter_states, List.mem_append]
      split <;> split <;> simp_all
    · rw [List.filter_append, addrs_append, List.mem_append] at hb
      rcases hb with hb | hb
      · have hb' : b ∈ addrs l := (List.filter_sublist.map Prod.fst).subset hb
        rw [hframe b fun hmem => hnodes (List.mem_cons_of_mem _ hb') hmem]
        exact hclean.gone b hb
      · exact hgone b hb
    · rw [hframe b hb', hclean.frame b hb]
  · obtain ⟨⟨p, h'⟩, hrun, rfl, hgone⟩ :=
      (removeSocketByIndexNodes_ends hl hnodup (l.length + 1)).exists_ok fun e he => by omega
    refine ⟨_, h', hrun, hgone.freed, hgone.mem, fun b => ?_⟩
    split
    · next hb => exact hgone.gone b hb
    · next hb => exact hgone.frame b hb

end Lists

/-- A connection with the states 10, 11 and 13 on one list and 12 on the other;
all but 11 have the tag 7. -/
def fourStates : RequestHeap Unit where
  nodes
    | 0 => some ⟨none, some 1⟩
    | 1 => some ⟨some 10, some 2⟩
    | 2 => some ⟨some 11, some 5⟩
    | 5 => some ⟨some 13, none⟩
    | 3 => some ⟨none, some 4⟩
    | 4 => some ⟨some 12, none⟩
    | _ => none
  mem p := if 10 ≤ p ∧ p ≤ 13 then
      some { (default : RequestState Unit) with currentTag := if p = 11 then 8 else 7 }
    else none
  freed := []

theorem clean_up_requests_example :
    (∃ turns h', cleanUpRequestStateNodes turns (some 0) (some 3) 7 fourStates = .ok h'
        ∧ h'.freed = [10, 13, 12])
      ∧ ∃ turns h', removeSocketByIndexNodes turns (some 0) fourStates = .ok (none, h')
        ∧ h'.freed = [10, 11, 13] := by
  have hl : fourStates.Lists 0 [(1, 10), (2, 11), (5, 13)] :=
    ⟨.cons rfl (.cons rfl (.cons rfl (.cons rfl (.nil none)))), by decide⟩
  have hcounter : fourStates.Lists 3 [(4, 12)] :=
    ⟨.cons rfl (.cons rfl (.nil none)), by decide⟩
  obtain ⟨⟨turns, h', hrun, -, -, hfreed, -⟩, turns', h'', hrun', hfreed', -⟩ :=
    clean_up_requests hl hcounter (by simp [addrs]) (by decide) 7
  exact ⟨⟨turns, h', hrun, hfreed.trans (by decide)⟩, turns', h'', hrun', hfreed'⟩

end PvfsProxy
