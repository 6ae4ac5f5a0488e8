import PvfsProxy.SfqdBypass

/-!
# The order SFQD dispatches in

Whatever calls of `sfqd_enqueue` and `sfqd_dequeue` follow each other, once
something has been enqueued: the list is never lost to the sort, which returns NULL
for an empty one; the item dequeued is the least by tag and number; the virtual time
does not decrease and no queued tag is below it; and each application's requests go
in the order they came (`sfqd_tag_order`).

An application's tags do not decrease with time because its weight does not change
sign: with a positive one the finish tags run ahead of the start tags, with a negative
one they never get ahead of the virtual time.
-/

namespace PvfsProxy

open StableSort Bypass

/-- The order of dispatch: by start tag, then by number. -/
def SfqdItem.precedes (a b : SfqdItem) : Prop :=
  a.embedded.startTag < b.embedded.startTag
    ∨ a.embedded.startTag = b.embedded.startTag ∧ a.itemId < b.itemId

instance (a b : SfqdItem) : Decidable (SfqdItem.precedes a b) :=
  inferInstanceAs (Decidable (_ ∨ _))

namespace SfqdCalls

/-- An application has the weight it was configured with; if that is not positive, its
requests at least have lengths. Nothing is dequeued before something was enqueued. -/
def Steady (weight : Nat → Int) (s : SfqdCalls) : Call → Prop
  | .enqueue pool si pi =>
    (pool si.requestSocket).weight = weight (pool si.requestSocket).appIndex
      ∧ (0 < (pool si.requestSocket).weight ∨ 0 ≤ pi.currentDataSize)
  | .dequeue _ => s.enqueued ≠ []

instance (weight : Nat → Int) (s : SfqdCalls) (c : Call) : Decidable (s.Steady weight c) :=
  match c with
  | .enqueue .. => inferInstanceAs (Decidable (_ ∧ _))
  | .dequeue _ => inferInstanceAs (Decidable (s.enqueued ≠ []))

end SfqdCalls

/-- What holds between calls. -/
structure SfqdTagged (weight : Nat → Int) (s : SfqdCalls) : Prop where
  lined : s.g.sched.Lined
  list : s.g.sched.llistQueue = some s.g.sched.queued
  flag : s.enqueued ≠ [] → s.g.sched.sorted = false → s.g.sched.queued ≠ []
  ids : s.enqueued.Pairwise fun a b => a.itemId < b.itemId
  fresh : ∀ it ∈ s.enqueued, it.itemId < s.g.sched.itemId
  late : ∀ it ∈ s.g.sched.queued, s.g.sched.virtualTime ≤ it.embedded.startTag
  /-- the next tag of an application is not below its earlier ones -/
  clock : ∀ it ∈ s.enqueued, it.embedded.startTag ≤ s.g.sched.nextStart it.embedded.appIndex
  slow : ∀ app, weight app ≤ 0 → s.g.sched.lastFinishTags app ≤ s.g.sched.virtualTime
  tags : s.enqueued.Pairwise fun a b =>
    a.embedded.appIndex = b.embedded.appIndex → a.embedded.startTag ≤ b.embedded.startTag
  /-- what an application has queued came after what was dispatched -/
  order : ∀ app, ∃ rest, ofApp app s.enqueued = ofApp app s.dispatched ++ rest
    ∧ rest.Perm (ofApp app s.g.sched.queued)

/-- Without a positive weight a length moves the finish tag back, if at all. -/
theorem getFinishTag_slow {length weight startTag finishTag : Int} (hw : weight ≤ 0)
    (hlength : 0 ≤ length) (h : getFinishTag length weight startTag = .ok finishTag) :
    finishTag ≤ startTag := by
  unfold getFinishTag at h
  have hreducer : weight * reducer ≤ 0 := by
    unfold reducer
    omega
  rw [if_neg (by omega)] at h
  split at h
  · contradiction
  · obtain rfl := Except.ok.inj h
    have hcost : length.tdiv weight ≤ 0 := Int.tdiv_nonpos_of_nonneg_of_nonpos hlength hw
    have hreduced : 0 ≤ (-length.tdiv weight).tdiv reducer :=
      Int.tdiv_nonneg (by omega) (by decide)
    rw [Int.neg_tdiv] at hreduced
    omega

namespace SfqdTagged

variable {weight : Nat → Int} {s t : SfqdCalls}

theorem init (depth : Int) (appStats : Nat → AppStatistics) :
    SfqdTagged weight (.init depth appStats) where
  lined := ⟨.nil, fun it hit => by cases hit⟩
  list := rfl
  flag h := absurd rfl h
  ids := .nil
  fresh it hit := by cases hit
  late it hit := by cases hit
  clock it hit := by cases hit
  slow app _ := le_refl 0
  tags := .nil
  order app := ⟨[], rfl, .nil⟩

theorem enqueue (h : SfqdTagged weight s) {pool : Nat → Endpoint} {si : SocketInfo}
    {pi : PvfsInfo} (hok : s.Steady weight (.enqueue pool si pi))
    (hstep : s.step (.enqueue pool si pi) = .ok t) : SfqdTagged weight t := by
  obtain ⟨⟨g, b⟩, henq, hstep⟩ := Machine.bind_eq_ok.mp hstep
  obtain rfl := Machine.pure_eq_ok.mp hstep
  obtain ⟨it, finishTag, hfin, happ, hstart, hid, hnext, hqueue, hsorted, hvtime, hlast, hlined⟩ :=
    enqueue_lined h.lined henq
  have hqueued : g.sched.queued = s.g.sched.queued ++ [it] := by
    unfold Sfqd.queued
    rw [hqueue]
    rfl
  have henqueued : s.enqueued ++ g.sched.queued.drop s.g.sched.queued.length
      = s.enqueued ++ [it] := by
    rw [hqueued, List.drop_left]
  -- the application's clock is at or behind the tag, or the virtual time is the tag
  have hahead : it.embedded.startTag ≤ max s.g.sched.virtualTime finishTag := by
    rcases Int.lt_or_le 0 (pool si.requestSocket).weight with hpos | hneg
    · have hcost := getFinishTag_cost hpos hfin
      omega
    · have hslow := h.slow it.embedded.appIndex (by rw [happ, ← hok.1]; exact hneg)
      rw [hstart, Sfqd.nextStart, max_eq_left hslow]
      exact le_max_left ..
  have hyoung : ∀ c ∈ s.enqueued, c.itemId < it.itemId := by
    rw [hid]
    exact h.fresh
  refine ⟨hlined, ?_, ?_, ?_, ?_, ?_, ?_, ?_, ?_, ?_⟩
  · show g.sched.llistQueue = some g.sched.queued
    rw [hqueue, hqueued]
  · intro _ _
    show g.sched.queued ≠ []
    rw [hqueued]
    exact List.append_ne_nil_of_right_ne_nil _ (List.cons_ne_nil _ _)
  · show (s.enqueued ++ _).Pairwise _
    rw [henqueued]
    refine List.pairwise_append.mpr ⟨h.ids, List.pairwise_singleton .., ?_⟩
    exact fun c hc d hd => (List.mem_singleton.mp hd) ▸ hyoung c hc
  · show ∀ c ∈ s.enqueued ++ _, c.itemId < g.sched.itemId
    rw [henqueued, hnext]
    refine List.forall_mem_append.mpr ⟨fun c hc => ?_, List.forall_mem_singleton.mpr ?_⟩
    · have hless := h.fresh c hc
      omega
    · omega
  · show ∀ c ∈ g.sched.queued, g.sched.virtualTime ≤ _
    rw [hqueued, hvtime]
    refine List.forall_mem_append.mpr ⟨h.late, List.forall_mem_singleton.mpr ?_⟩
    rw [hstart]
    exact le_max_left ..
  · show ∀ c ∈ s.enqueued ++ _, _ ≤ max g.sched.virtualTime (g.sched.lastFinishTags _)
    rw [henqueued, hvtime, hlast]
    refine List.forall_mem_append.mpr ⟨fun c hc => ?_, List.forall_mem_singleton.mpr ?_⟩
    · have hclock := h.clock c hc
      by_cases hsame : c.embedded.appIndex = it.embedded.appIndex
      · rw [hsame] at hclock ⊢
        rw [Function.update_self]
        exact (hclock.trans hstart.ge).trans hahead
      · rw [Function.update_of_ne hsame]
        exact hclock
    · rw [Function.update_self]
      exact hahead
  · intro app happ'
    show g.sched.lastFinishTags app ≤ g.sched.virtualTime
    rw [hlast, hvtime]
    by_cases hsame : app = it.embedded.appIndex
    · subst hsame
      have hweight : (pool si.requestSocket).weight ≤ 0 := by
        rw [hok.1, ← happ]
        exact happ'
      have hback := getFinishTag_slow hweight (hok.2.resolve_left (by omega)) hfin
      rw [hstart, Sfqd.nextStart, max_eq_left (h.slow _ happ')] at hback
      rw [Function.update_self]
      exact hback
    · rw [Function.update_of_ne hsame]
      exact h.slow app happ'
  · show (s.enqueued ++ _).Pairwise _
    rw [henqueued]
    refine List.pairwise_append.mpr ⟨h.tags, List.pairwise_singleton .., ?_⟩
    intro c hc d hd hsame
    rw [List.mem_singleton.mp hd] at hsame ⊢
    rw [hstart, ← hsame]
    exact h.clock c hc
  · intro app
    show ∃ rest, ofApp app (s.enqueued ++ _) = ofApp app s.dispatched ++ rest
      ∧ rest.Perm (ofApp app g.sched.queued)
    obtain ⟨rest, hrest, hperm⟩ := h.order app
    rw [henqueued, hqueued]
    refine ⟨rest ++ ofApp app [it], ?_, ?_⟩
    · unfold ofApp at hrest ⊢
      rw [List.filter_append, hrest, List.append_assoc]
    · unfold ofApp at hperm ⊢
      rw [List.filter_append]
      exact hperm.append_right _

/-- The item dequeued is the first its application has queued. -/
theorem order_take (h : SfqdTagged weight s) {it : SfqdItem} {queue : List SfqdItem}
    (hleast : ∀ c ∈ queue, it.precedes c) (hperm : s.g.sched.queued.Perm (it :: queue))
    (app : Nat) :
    ∃ rest, ofApp app s.enqueued = ofApp app (s.dispatched ++ [it]) ++ rest
      ∧ rest.Perm (ofApp app queue) := by
  obtain ⟨rest, hrest, hqueued⟩ := h.order app
  have hleft : rest.Perm (ofApp app (it :: queue)) := hqueued.trans (hperm.filter _)
  by_cases happ : app = it.embedded.appIndex
  · subst happ
    rw [ofApp_cons_self] at hleft
    obtain ⟨before, after, rfl⟩ := List.append_of_mem (hleft.mem_iff.mpr (List.mem_cons_self ..))
    have hothers : (before ++ after).Perm (ofApp it.embedded.appIndex queue) :=
      (List.perm_cons it).mp (List.perm_middle.symm.trans hleft)
    -- an item of the application before `it` has a smaller number and no larger tag
    have hfirst : before = [] := by
      refine List.eq_nil_iff_forall_not_mem.mpr fun c hc => ?_
      obtain ⟨hcq, hcapp⟩ := List.mem_filter.mp (hothers.subset (List.mem_append_left _ hc))
      have hids : (ofApp it.embedded.appIndex s.enqueued).Pairwise
          fun a b => a.itemId < b.itemId := h.ids.filter _
      have htags : (ofApp it.embedded.appIndex s.enqueued).Pairwise
          fun a b => a.embedded.appIndex = b.embedded.appIndex →
            a.embedded.startTag ≤ b.embedded.startTag := h.tags.filter _
      rw [hrest] at hids htags
      have hid := (List.pairwise_append.mp (List.pairwise_append.mp hids).2.1).2.2 c hc it
        (List.mem_cons_self ..)
      have htag := (List.pairwise_append.mp (List.pairwise_append.mp htags).2.1).2.2 c hc it
        (List.mem_cons_self ..) (beq_iff_eq.mp hcapp)
      obtain hless | ⟨-, hless⟩ := hleast c hcq
      · exact absurd htag (Int.not_le.mpr hless)
      · exact absurd hid (Int.not_lt.mpr hless.le)
    subst hfirst
    refine ⟨after, ?_, (List.perm_cons it).mp hleft⟩
    unfold ofApp at hrest ⊢
    rw [hrest, List.filter_append]
    simp
  · rw [ofApp_cons_of_ne happ] at hleft
    refine ⟨rest, ?_, hleft⟩
    unfold ofApp at hrest ⊢
    rw [hrest, List.filter_append]
    have hother : (it.embedded.appIndex == app) = false := beq_false_of_ne (Ne.symm happ)
    simp [hother]

theorem dequeue (h : SfqdTagged weight s) {r : DequeueReason SfqdQueueItem}
    (hok : s.Steady weight (.dequeue r)) (hstep : s.step (.dequeue r) = .ok t) :
    SfqdTagged weight t ∧ s.g.sched.virtualTime ≤ t.g.sched.virtualTime := by
  obtain rfl : SfqdCalls.mk (sfqdDequeue r s.g).1 s.enqueued
      (s.dispatched ++ (sfqdDequeue r s.g).2.toList) = t := Except.ok.inj hstep
  obtain ⟨hlined, hcases⟩ := dequeue_takes r h.lined
  have hsched := sfqdDequeue_cases r s.g
  generalize sfqdDequeue r s.g = out at *
  obtain ⟨g, item⟩ := out
  obtain ⟨hnil, rfl, hs⟩ | ⟨it, rest, rfl, -, hs⟩ := hsched
  · -- nothing is queued, so the flag is set and the empty list is not sorted
    have hsorted : s.g.sched.sorted = true := by
      by_contra hflag
      exact h.flag hok (Bool.eq_false_of_not_eq_true hflag) hnil
    have hsame : g.sched
        = { s.g.sched with sorted := true, currentDepth := s.g.sched.currentDepth - 1 } := by
      rw [hs, if_pos hsorted]
    refine ⟨⟨hlined, ?_, ?_, h.ids, ?_, ?_, ?_, ?_, h.tags, ?_⟩, ?_⟩
    · show g.sched.llistQueue = some g.sched.queued
      rw [hsame]
      exact h.list
    · intro _ hflag
      change g.sched.sorted = false at hflag
      rw [hsame] at hflag
      contradiction
    · show ∀ c ∈ s.enqueued, c.itemId < g.sched.itemId
      rw [hsame]
      exact h.fresh
    · show ∀ c ∈ g.sched.queued, g.sched.virtualTime ≤ _
      rw [hsame]
      exact h.late
    · show ∀ c ∈ s.enqueued, _ ≤ g.sched.nextStart _
      rw [hsame]
      exact h.clock
    · show ∀ app, _ → g.sched.lastFinishTags app ≤ g.sched.virtualTime
      rw [hsame]
      exact h.slow
    · intro app
      show ∃ rest, _ = ofApp app (s.dispatched ++ []) ++ rest ∧ rest.Perm (ofApp app g.sched.queued)
      rw [List.append_nil, hsame]
      exact h.order app
    · show _ ≤ g.sched.virtualTime
      rw [hsame]
  · obtain ⟨hnone, -⟩ | ⟨it', hit', htakes⟩ := hcases
    · contradiction
    obtain rfl := Option.some.inj hit'
    have hmem : it ∈ s.g.sched.queued := htakes.mem
    have hvtime : s.g.sched.virtualTime ≤ it.embedded.startTag := h.late it hmem
    have hperm : s.g.sched.queued.Perm (it :: g.sched.queued) := htakes.queue
    refine ⟨⟨hlined, ?_, ?_, h.ids, ?_, ?_, ?_, ?_, h.tags, ?_⟩, ?_⟩
    · show g.sched.llistQueue = some g.sched.queued
      rw [hs]
      rfl
    · intro _ hflag
      change g.sched.sorted = false at hflag
      rw [hs] at hflag
      contradiction
    · show ∀ c ∈ s.enqueued, c.itemId < g.sched.itemId
      rw [hs]
      exact h.fresh
    · intro c hc
      show g.sched.virtualTime ≤ c.embedded.startTag
      rw [hs]
      obtain hless | ⟨heq, -⟩ := htakes.least c hc
      · exact hless.le
      · exact heq.le
    · intro c hc
      show _ ≤ max g.sched.virtualTime (g.sched.lastFinishTags _)
      rw [hs]
      exact (h.clock c hc).trans (max_le_max_right _ hvtime)
    · intro app happ
      show g.sched.lastFinishTags app ≤ g.sched.virtualTime
      rw [hs]
      exact (h.slow app happ).trans hvtime
    · intro app
      exact h.order_take htakes.least hperm app
    · show _ ≤ g.sched.virtualTime
      rw [hs]
      exact hvtime

/-- Every call keeps it, and the virtual time does not decrease. -/
theorem step (h : SfqdTagged weight s) {c : SfqdCalls.Call} (hok : s.Steady weight c)
    (hstep : s.step c = .ok t) :
    SfqdTagged weight t ∧ s.g.sched.virtualTime ≤ t.g.sched.virtualTime := by
  cases c with
  | enqueue pool si pi =>
      refine ⟨h.enqueue hok hstep, ?_⟩
      obtain ⟨⟨g, b⟩, henq, hstep⟩ := Machine.bind_eq_ok.mp hstep
      obtain rfl := Machine.pure_eq_ok.mp hstep
      obtain ⟨-, -, -, -, -, -, -, -, -, hvtime, -⟩ := enqueue_lined h.lined henq
      exact hvtime.ge
  | dequeue r => exact h.dequeue hok hstep

theorem run {depth : Int} {appStats : Nat → AppStatistics} {cs : List SfqdCalls.Call}
    (hrun : Machine.Run (SfqdCalls.Steady weight) SfqdCalls.step (.init depth appStats) cs s) :
    SfqdTagged weight s :=
  hrun.invariant (init depth appStats) fun _ _ _ hs hok hstep => (hs.step hok hstep).1

end SfqdTagged

/-- **The tag order of SFQD.** After any calls: the queue is not lost; no queued start tag
is below the virtual time; what an application has dispatched are the first of its
requests, in order; a dequeue that returns an item returns the least that is queued;
and the virtual time does not decrease with the next call. -/
theorem sfqd_tag_order {weight : Nat → Int} {depth : Int} {appStats : Nat → AppStatistics}
    {cs : List SfqdCalls.Call} {s : SfqdCalls}
    (hrun : Machine.Run (SfqdCalls.Steady weight) SfqdCalls.step (.init depth appStats) cs s) :
    s.g.sched.llistQueue ≠ none
      ∧ (∀ it ∈ s.g.sched.queued, s.g.sched.virtualTime ≤ it.embedded.startTag)
      ∧ (∀ app, ofApp app s.dispatched <+: ofApp app s.enqueued)
      ∧ (∀ r it, (sfqdDequeue r s.g).2 = some it →
        it ∈ s.g.sched.queued ∧ ∀ c ∈ s.g.sched.queued, c ≠ it → it.precedes c)
      ∧ ∀ c t, s.Steady weight c → s.step c = .ok t →
        s.g.sched.virtualTime ≤ t.g.sched.virtualTime := by
  have hs := SfqdTagged.run hrun
  refine ⟨?_, hs.late, ?_, ?_, ?_⟩
  · rw [hs.list]
    exact Option.some_ne_none _
  · intro app
    obtain ⟨rest, hrest, -⟩ := hs.order app
    exact ⟨rest, hrest.symm⟩
  · intro r it hit
    obtain ⟨-, ⟨hnone, -⟩ | ⟨it', hit', htakes⟩⟩ := dequeue_takes r hs.lined
    · rw [hit] at hnone
      contradiction
    obtain rfl := Option.some.inj (hit.symm.trans hit')
    refine ⟨htakes.mem, fun c hc hne => ?_⟩
    obtain rfl | hleft := List.mem_cons.mp (htakes.queue.subset hc)
    · exact absurd rfl hne
    · exact htakes.least c hleft
  · intro c t hok hstep
    exact (hs.step hok hstep).2

/-- Two applications on one slot: after the first two requests of application 0, one
dispatched, and one of application 1, a dequeue returns the latter. -/
theorem sfqd_tag_order_example :
    ∃ s : SfqdCalls, s.enqueued.map (·.itemId) = [0, 1, 2] ∧ s.dispatched.map (·.itemId) = [0, 2]
      ∧ s.g.sched.llistQueue ≠ none
      ∧ ∀ app, ofApp app s.dispatched <+: ofApp app s.enqueued := by
  let enqueue (index : Nat) : SfqdCalls.Call :=
    .enqueue (sampleArrival index 0).pool (sampleArrival index 0).si (sampleArrival index 0).pi
  let dequeue : SfqdCalls.Call :=
    .dequeue { event := .completeIo, completeSize := 4096, lastAppIndex := 0, item := none }
  obtain ⟨s, hrun, hs⟩ := Machine.Run.exists_of_exec (SfqdCalls.Steady fun _ => 1) SfqdCalls.step
    (.init 1 fun _ => { appWeight := 1 }) [enqueue 1, enqueue 1, dequeue, enqueue 3, dequeue]
    (fun s => (s.enqueued.map (·.itemId), s.dispatched.map (·.itemId)))
    (a := ([0, 1, 2], [0, 2])) (by decide +kernel)
  obtain ⟨henq, hdisp⟩ := Prod.mk.inj hs
  exact ⟨s, henq, hdisp, (sfqd_tag_order hrun).1, (sfqd_tag_order hrun).2.2.1⟩

/-! ## The framework's runs -/

namespace SfqdCalls

variable {s t : SfqdCalls}

theorem enqueue_ne_nil {pool : Nat → Endpoint} {si : SocketInfo} {pi : PvfsInfo}
    (h : s.step (.enqueue pool si pi) = .ok t) : t.enqueued ≠ [] := by
  obtain ⟨⟨g, b⟩, henq, h⟩ := Machine.bind_eq_ok.mp h
  obtain rfl := Machine.pure_eq_ok.mp h
  obtain ⟨q, _, _, hq, -, -, hs⟩ := sfqdEnqueue_ok henq
  have hdrop : g.sched.queued.drop s.g.sched.queued.length ≠ [] := by
    simp [Sfqd.queued, hs, hq]
  exact List.append_ne_nil_of_right_ne_nil _ hdrop

theorem dequeue_enqueued {r : DequeueReason SfqdQueueItem} (h : s.step (.dequeue r) = .ok t) :
    t.enqueued = s.enqueued := by
  obtain rfl : SfqdCalls.mk (sfqdDequeue r s.g).1 s.enqueued
      (s.dispatched ++ (sfqdDequeue r s.g).2.toList) = t := Except.ok.inj h
  rfl

end SfqdCalls

namespace SfqdRun

/-- Arrivals with the weights configured. -/
def Steady (weight : Nat → Int) (s : SfqdRun) (e : Event) : Prop :=
  s.Allowed e ∧
    match e with
    | .arrive a =>
      (a.pool a.index).weight = weight (a.pool a.index).appIndex
        ∧ (0 < (a.pool a.index).weight ∨ 0 ≤ a.pi.currentDataSize)
    | .complete .. => True

/-- The framework dequeues only for what it has enqueued. -/
theorem exists_steady_calls {myShare : Int → Int → Int → Int → Int → Int} {weight : Nat → Int}
    {depth : Int} {appStats : Nat → AppStatistics} {mem : Mem SfqdQueueItem} {es : List Event}
    {s : SfqdRun} (h : Machine.Run (Steady weight) (step myShare) (init depth appStats mem) es s) :
    (∃ cs, Machine.Run (SfqdCalls.Steady weight) SfqdCalls.step (.init depth appStats) cs s.calls)
      ∧ (s.outstanding ≠ [] → s.enqueued ≠ []) := by
  induction h with
  | nil => exact ⟨⟨[], .nil⟩, fun hne => absurd rfl hne⟩
  | snoc h hok hstep ih =>
      obtain ⟨⟨cs, hcs⟩, hout⟩ := ih
      obtain ⟨a, t, rfl, henq, hsame, hnext⟩ | ⟨item, size, app, r, rfl, hdeq⟩ := step_calls hstep
      · have hrun := hcs.snoc (e := SfqdCalls.Call.enqueue a.pool a.si a.pi) hok.2 henq
        have hne := SfqdCalls.enqueue_ne_nil henq
        obtain rfl | ⟨r, hdeq⟩ := hnext
        · exact ⟨⟨_, hrun⟩, fun _ => hne⟩
        · exact ⟨⟨_, hrun.snoc (e := SfqdCalls.Call.dequeue r) hne hdeq⟩, fun _ => hsame ▸ hne⟩
      · have hne := hout (List.ne_nil_of_mem hok.1)
        refine ⟨⟨_, hcs.snoc (e := SfqdCalls.Call.dequeue r) hne hdeq⟩, fun _ => ?_⟩
        exact fun hnil => hne ((SfqdCalls.dequeue_enqueued hdeq).symm.trans hnil)

end SfqdRun

end PvfsProxy
