import PvfsProxy.Lib.Bypass
import PvfsProxy.SfqdFairness

/-!
# No starvation in SFQD

A request that waits in SFQD is passed by at most `numApps * (S - v)` later
ones, `S` its start tag and `v` the virtual time. The calls of `sfqd_enqueue`
and `sfqd_dequeue` are steps of the least-tag discipline (`enqueue_arrives`,
`dequeue_takes`): an application's tags move on with every request because
`get_finish_tag` adds at least 1, and the stable sort serves equal tags in the
order of arrival.
-/

namespace PvfsProxy

open StableSort Bypass

/-- An application's requests are a flow, tagged by start tag. -/
def sfqdKeys : Keys SfqdItem Nat where
  flow it := it.embedded.appIndex
  tag it := it.embedded.startTag
  born it := it.itemId

/-- The scheduler's state as one of the discipline. -/
def Sfqd.waiting (s : Sfqd) : Bypass.State SfqdItem Nat where
  vtime := s.virtualTime
  clock := s.lastFinishTags
  queue := s.queued

/-- The list is sorted lazily, and numbers are not used twice. -/
structure Sfqd.Lined (s : Sfqd) : Prop where
  list : LazyQueue sfqdKeys s.sorted s.queued
  fresh : ∀ it ∈ s.queued, it.itemId < s.itemId

section steps

variable {g g' : Globals Sfqd}

/-- What `sfqd_enqueue` appends, and that the list stays in order. -/
theorem enqueue_lined {pool : Nat → Endpoint} {si : SocketInfo} {pi : PvfsInfo} {b : Bool}
    (hl : g.sched.Lined) (h : sfqdEnqueue pool si pi g = .ok (g', b)) :
    ∃ it finishTag,
      getFinishTag pi.currentDataSize (pool si.requestSocket).weight it.embedded.startTag
          = .ok finishTag
        ∧ it.embedded.appIndex = (pool si.requestSocket).appIndex
        ∧ it.embedded.startTag = g.sched.nextStart it.embedded.appIndex
        ∧ it.itemId = g.sched.itemId ∧ g'.sched.itemId = g.sched.itemId + 1
        ∧ g'.sched.llistQueue = some (g.sched.queued ++ [it]) ∧ g'.sched.sorted = false
        ∧ g'.sched.virtualTime = g.sched.virtualTime
        ∧ g'.sched.lastFinishTags
          = Function.update g.sched.lastFinishTags it.embedded.appIndex finishTag
        ∧ g'.sched.Lined := by
  obtain ⟨q, finishTag, streamId, hq, hfin, -, hs⟩ := sfqdEnqueue_ok h
  have hold : g.sched.queued = q := by simp [Sfqd.queued, hq]
  refine ⟨_, finishTag, hfin, rfl, rfl, rfl, by rw [hs], by rw [hs, hold], by rw [hs],
    by rw [hs], by rw [hs]; rfl, ?_, ?_⟩
  · have hyoung : ∀ c ∈ g.sched.queued, sfqdKeys.born c < g.sched.itemId := hl.fresh
    rw [hs, ← hold]
    exact hl.list.append hyoung
  · intro c hc
    rw [hs] at hc ⊢
    rcases List.mem_append.mp hc with hmem | hnew
    · have hless := hl.fresh c (hold ▸ hmem)
      show c.itemId < g.sched.itemId + 1
      omega
    · rw [List.mem_singleton.mp hnew]
      exact Int.lt_succ g.sched.itemId

theorem enqueue_arrives {pool : Nat → Endpoint} {si : SocketInfo} {pi : PvfsInfo} {b : Bool}
    (hw : 0 < (pool si.requestSocket).weight) (hl : g.sched.Lined)
    (h : sfqdEnqueue pool si pi g = .ok (g', b)) :
    ∃ it, Arrives sfqdKeys g.sched.waiting it g'.sched.waiting
      ∧ g'.sched.Lined ∧ g'.sched.queued = g.sched.queued ++ [it]
      ∧ it.itemId = g.sched.itemId ∧ g'.sched.itemId = g.sched.itemId + 1
      ∧ it.embedded.appIndex = (pool si.requestSocket).appIndex := by
  obtain ⟨it, finishTag, hfin, happ, hstart, hid, hnext, hqueue, -, hvtime, hlast, hlined⟩ :=
    enqueue_lined hl h
  have hcost := getFinishTag_cost hw hfin
  have hqueued : g'.sched.queued = g.sched.queued ++ [it] := by
    unfold Sfqd.queued
    rw [hqueue]
    rfl
  refine ⟨it, ?_, hlined, hqueued, hid, hnext, happ⟩
  exact
    { vtime := hvtime
      late := by
        show g.sched.virtualTime ≤ it.embedded.startTag
        rw [hstart]
        exact le_max_left ..
      clock := by
        show g.sched.lastFinishTags it.embedded.appIndex ≤ it.embedded.startTag
        rw [hstart]
        exact le_max_right ..
      advance := by
        show it.embedded.startTag < g'.sched.lastFinishTags it.embedded.appIndex
        rw [hlast, Function.update_self]
        exact hcost
      others := by
        intro app hne
        have hne' : app ≠ it.embedded.appIndex := hne
        show g.sched.lastFinishTags app ≤ g'.sched.lastFinishTags app
        rw [hlast, Function.update_of_ne hne']
      young := by
        intro c hc
        show c.itemId < it.itemId
        rw [hid]
        exact hl.fresh c hc
      queue := .of_eq hqueued }

/-- A dequeue takes the item of least tag, or leaves nothing to take. -/
theorem dequeue_takes (r : DequeueReason SfqdQueueItem) (hl : g.sched.Lined) :
    (sfqdDequeue r g).1.sched.Lined
      ∧ (((sfqdDequeue r g).2 = none ∧ (sfqdDequeue r g).1.sched.waiting = g.sched.waiting)
        ∨ ∃ it, (sfqdDequeue r g).2 = some it
          ∧ Takes sfqdKeys g.sched.waiting it (sfqdDequeue r g).1.sched.waiting) := by
  obtain ⟨hnil, hret, hs⟩ | ⟨it, rest, hret, hq, hs⟩ := sfqdDequeue_cases r g
  · have hqueued : (sfqdDequeue r g).1.sched.queued = [] := by
      rw [hs]
      unfold Sfqd.queued at hnil ⊢
      dsimp only
      split
      · exact hnil
      · rfl
    refine ⟨⟨?_, ?_⟩, .inl ⟨hret, ?_⟩⟩
    · rw [hqueued]
      exact .nil
    · intro c hc
      rw [hqueued] at hc
      cases hc
    · unfold Sfqd.waiting
      rw [hqueued, hnil, hs]
  · -- sorted already or only now, the head is the least
    have hsorted : LazyQueue sfqdKeys true (it :: rest) := by
      split at hq
      · rename_i hflag
        have hlist := hl.list
        rw [hflag, hq] at hlist
        exact hlist
      · exact hl.list.sort sfqdLe_preorder (fun _ _ => sfqdLe_iff) hq
    obtain ⟨hrest, hleast⟩ := hsorted.head
    have hperm := sfqdDequeue_perm hret
    have hqueued : (sfqdDequeue r g).1.sched.queued = rest := by simp [Sfqd.queued, hs]
    refine ⟨⟨?_, ?_⟩, .inr ⟨it, hret, ?_⟩⟩
    · rw [hqueued, hs]
      exact hrest
    · intro c hc
      rw [hs]
      exact hl.fresh c (hperm.subset (List.mem_cons_of_mem _ hc))
    · exact
        { vtime := by
            show (sfqdDequeue r g).1.sched.virtualTime = it.embedded.startTag
            rw [hs]
          clock := by
            intro app
            show g.sched.lastFinishTags app ≤ (sfqdDequeue r g).1.sched.lastFinishTags app
            rw [hs]
          queue := hperm.symm
          least := by
            show ∀ c ∈ (sfqdDequeue r g).1.sched.queued, _
            rw [hqueued]
            exact hleast }

end steps

/-! ## Runs -/

namespace SfqdCalls

/-- The requests of `numApps` applications of positive weight. -/
def InApps (numApps : Nat) (_ : SfqdCalls) : Call → Prop
  | .enqueue pool si _ =>
    0 < (pool si.requestSocket).weight ∧ (pool si.requestSocket).appIndex < numApps
  | .dequeue _ => True

instance (numApps : Nat) (s : SfqdCalls) (c : Call) : Decidable (s.InApps numApps c) :=
  match c with
  | .enqueue pool si _ => inferInstanceAs (Decidable
      (0 < (pool si.requestSocket).weight ∧ (pool si.requestSocket).appIndex < numApps))
  | .dequeue _ => inferInstanceAs (Decidable True)

/-- The numbers of what was enqueued increase, up to the next one. -/
structure Numbered (numApps : Nat) (s : SfqdCalls) : Prop where
  lined : s.g.sched.Lined
  ids : s.enqueued.Pairwise fun a b => a.itemId < b.itemId
  fresh : ∀ it ∈ s.enqueued, it.itemId < s.g.sched.itemId
  apps : ∀ it ∈ s.enqueued, it.embedded.appIndex < numApps

variable {numApps : Nat} {s t : SfqdCalls} {cs : List Call}

theorem Numbered.init {depth : Int} {appStats : Nat → AppStatistics} :
    Numbered numApps (SfqdCalls.init depth appStats) where
  lined := ⟨.nil, fun it hit => by cases hit⟩
  ids := .nil
  fresh it hit := by cases hit
  apps it hit := by cases hit

/-- A call is a step of the discipline, or changes nothing it looks at. -/
theorem Numbered.step (h : Numbered numApps s) {c : Call} (hok : s.InApps numApps c)
    (hstep : s.step c = .ok t) :
    Numbered numApps t
      ∧ ((∃ it, t.enqueued = s.enqueued ++ [it] ∧ t.dispatched = s.dispatched
          ∧ Arrives sfqdKeys s.g.sched.waiting it t.g.sched.waiting)
        ∨ (t.enqueued = s.enqueued ∧ ((t.dispatched = s.dispatched
            ∧ t.g.sched.waiting = s.g.sched.waiting)
          ∨ ∃ it, t.dispatched = s.dispatched ++ [it]
            ∧ Takes sfqdKeys s.g.sched.waiting it t.g.sched.waiting))) := by
  cases c with
  | enqueue pool si pi =>
      obtain ⟨⟨g, b⟩, henq, hstep⟩ := Machine.bind_eq_ok.mp hstep
      obtain rfl := Machine.pure_eq_ok.mp hstep
      obtain ⟨it, harr, hlined, hqueued, hid, hnext, happ⟩ := enqueue_arrives hok.1 h.lined henq
      have henqueued : s.enqueued ++ g.sched.queued.drop s.g.sched.queued.length
          = s.enqueued ++ [it] := by
        rw [hqueued, List.drop_left]
      refine ⟨⟨hlined, ?_, ?_, ?_⟩, .inl ⟨it, henqueued, rfl, harr⟩⟩
      · show (s.enqueued ++ _).Pairwise _
        rw [henqueued]
        refine List.pairwise_append.mpr ⟨h.ids, List.pairwise_singleton .., ?_⟩
        intro a ha c hc
        rw [List.mem_singleton.mp hc, hid]
        exact h.fresh a ha
      · show ∀ it ∈ s.enqueued ++ _, it.itemId < g.sched.itemId
        rw [henqueued, hnext]
        refine List.forall_mem_append.mpr ⟨?_, List.forall_mem_singleton.mpr (by omega)⟩
        intro a ha
        have := h.fresh a ha
        omega
      · show ∀ it ∈ s.enqueued ++ _, _
        rw [henqueued]
        refine List.forall_mem_append.mpr ⟨h.apps, List.forall_mem_singleton.mpr ?_⟩
        rw [happ]
        exact hok.2
  | dequeue r =>
      obtain rfl := Except.ok.inj hstep
      obtain ⟨hlined, hcases⟩ := dequeue_takes r h.lined
      have hnext : (sfqdDequeue r s.g).1.sched.itemId = s.g.sched.itemId := by
        obtain ⟨-, -, hs⟩ | ⟨it, rest, -, -, hs⟩ := sfqdDequeue_cases r s.g <;> rw [hs]
      refine ⟨⟨hlined, h.ids, ?_, h.apps⟩, .inr ⟨rfl, ?_⟩⟩
      · show ∀ it ∈ s.enqueued, it.itemId < (sfqdDequeue r s.g).1.sched.itemId
        rw [hnext]
        exact h.fresh
      · rcases hcases with ⟨hret, hsame⟩ | ⟨it, hret, htakes⟩
        · refine .inl ⟨?_, hsame⟩
          show s.dispatched ++ (sfqdDequeue r s.g).2.toList = s.dispatched
          rw [hret]
          exact List.append_nil _
        · refine .inr ⟨it, ?_, htakes⟩
          show s.dispatched ++ (sfqdDequeue r s.g).2.toList = s.dispatched ++ [it]
          rw [hret]
          rfl

theorem Numbered.run (h : Numbered numApps s)
    (hrun : Machine.Run (InApps numApps) SfqdCalls.step s cs t) :
    Numbered numApps t ∧ ∃ as ts, t.enqueued = s.enqueued ++ as
      ∧ t.dispatched = s.dispatched ++ ts
      ∧ Bypass.Run sfqdKeys s.g.sched.waiting as ts t.g.sched.waiting := by
  induction hrun with
  | nil => exact ⟨h, [], [], by simp, by simp, .nil⟩
  | snoc _ hok hstep ih =>
      obtain ⟨hnum, as, ts, henq, hdisp, hbypass⟩ := ih
      obtain ⟨hnum', ⟨it, henq', hdisp', harr⟩ | ⟨henq', ⟨hdisp', hsame⟩ | ⟨it, hdisp', ht⟩⟩⟩ :=
        hnum.step hok hstep
      · refine ⟨hnum', as ++ [it], ts, ?_, hdisp'.trans hdisp, hbypass.arrive harr⟩
        rw [henq', henq, List.append_assoc]
      · refine ⟨hnum', as, ts, henq'.trans henq, hdisp'.trans hdisp, ?_⟩
        rw [hsame]
        exact hbypass
      · refine ⟨hnum', as, ts ++ [it], henq'.trans henq, ?_, hbypass.take ht⟩
        rw [hdisp', hdisp, List.append_assoc]

/-- The requests dispatched since the state `s`, before `x`, that arrived after
`x`. -/
def passedBy (s t : SfqdCalls) (x : SfqdItem) : List SfqdItem :=
  (before x (t.dispatched.drop s.dispatched.length)).filter fun y => x.itemId < y.itemId

end SfqdCalls

end PvfsProxy
