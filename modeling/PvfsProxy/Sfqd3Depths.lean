import PvfsProxy.MainLoop
import PvfsProxy.Sfqd3

/-!
# The slots of SFQD3

`sfqd3_enqueue` looks at the application of the new request only, while
`sfqd3_get_next_request` takes the smallest start tag of all applications that
are not resting. The two agree because of the states the framework reaches: an
application that is not resting has nothing queued or no slot free
(`Sfqd3Run.Full`), whatever arrives, completes, or is counted.

An application that rests is looked at again only when the differences are
computed anew, which some completion does. With nothing dispatched there is no
completion to come, and its requests wait for good.
-/

namespace PvfsProxy

/-! ## What a dequeue does to the queues -/

namespace Sfqd3

/-- Some heaps were peeked at. -/
structure Peeked (s s' : Sfqd3) : Prop where
  numApps : s'.numApps = s.numApps
  depths : s'.depths = s.depths
  currentDepths : s'.currentDepths = s.currentDepths
  queued : ∀ app, (s'.queued app).Perm (s.queued app)

/-- `it` left the queue of `app` for one of its slots. -/
structure Handed (app : Nat) (it : Sfqd3Item) (s s' : Sfqd3) : Prop where
  numApps : s'.numApps = s.numApps
  depths : s'.depths = s.depths
  current : s'.currentDepths app = s.currentDepths app + 1
  currentOther : ∀ l, l ≠ app → s'.currentDepths l = s.currentDepths l
  queued : (it :: s'.queued app).Perm (s.queued app)
  queuedOther : ∀ l, l ≠ app → (s'.queued l).Perm (s.queued l)

theorem Peeked.refl (s : Sfqd3) : s.Peeked s := ⟨rfl, rfl, rfl, fun _ => List.Perm.refl _⟩

theorem Peeked.trans {s s' s'' : Sfqd3} (h : s.Peeked s') (h' : s'.Peeked s'') : s.Peeked s'' where
  numApps := h'.numApps.trans h.numApps
  depths := h'.depths.trans h.depths
  currentDepths := h'.currentDepths.trans h.currentDepths
  queued app := (h'.queued app).trans (h.queued app)

theorem Peeked.handed {s s' s'' : Sfqd3} {app : Nat} {it : Sfqd3Item} (h : s.Peeked s')
    (h' : s'.Handed app it s'') : s.Handed app it s'' where
  numApps := h'.numApps.trans h.numApps
  depths := h'.depths.trans h.depths
  current := h'.current.trans (by rw [h.currentDepths])
  currentOther l hl := (h'.currentOther l hl).trans (by rw [h.currentDepths])
  queued := h'.queued.trans (h.queued app)
  queuedOther l hl := (h'.queuedOther l hl).trans (h.queued l)

theorem peeked_heapPeek (s : Sfqd3) (l : Nat) :
    s.Peeked { s with
      heapQueues :=
        Function.update s.heapQueues l (heapPeek sfqd3PacketCmp (s.heapQueues l)).1 } := by
  refine ⟨rfl, rfl, rfl, fun app => ?_⟩
  simp only [queued]
  by_cases happ : app = l
  · subst happ
    rw [Function.update_self]
    exact (heapPeek_values sfqd3PacketCmp (s.heapQueues app)).1
  · rw [Function.update_of_ne happ]

end Sfqd3

/-- A take from a queue that is not empty hands out one of its requests. -/
theorem sfqd3Take_handed {app : Nat} {s : Sfqd3} (h : s.queued app ≠ []) :
    ∃ s' it, sfqd3Take app s = .ok (s', it) ∧ s.Handed app it s' := by
  obtain ⟨heap', it, htake, hvalues⟩ := heapTake_values sfqd3PacketCmp h
  refine ⟨{ s with
    heapQueues := Function.update s.heapQueues app heap'
    virtualTimes := Function.update s.virtualTimes app it.embedded.startTag
    currentDepths := Function.update s.currentDepths app (s.currentDepths app + 1) }, it, ?_, ?_⟩
  · unfold sfqd3Take
    rw [htake]
    rfl
  · refine ⟨rfl, rfl, ?_, ?_, ?_, ?_⟩
    · exact Function.update_self ..
    · intro l hl
      exact Function.update_of_ne hl ..
    · simpa only [Sfqd3.queued, Function.update_self] using hvalues
    · intro l hl
      simp only [Sfqd3.queued, Function.update_of_ne hl]
      exact List.Perm.refl _

/-- The scan returns; what it finds is open and has a request queued. -/
theorem sfqd3OpenApp_found (appStats : Nat → AppStatistics) (apps : List Nat) (smallest : Int)
    (openApp : Option Nat) (s : Sfqd3) :
    ∃ s' o, sfqd3OpenApp appStats apps smallest openApp s = .ok (s', o) ∧ s.Peeked s'
      ∧ ∀ l, o = some l → openApp = some l ∨ l ∈ apps ∧ s.Open appStats l ∧ s.queued l ≠ [] := by
  induction apps generalizing smallest openApp s with
  | nil => exact ⟨s, openApp, rfl, .refl s, fun l hl => .inl hl⟩
  | cons l' apps ih =>
      have hskip : ∃ s' o, sfqd3OpenApp appStats apps smallest openApp s = .ok (s', o)
          ∧ s.Peeked s' ∧ ∀ l, o = some l → openApp = some l
            ∨ l ∈ l' :: apps ∧ s.Open appStats l ∧ s.queued l ≠ [] := by
        obtain ⟨s', o, hscan, hpeeked, hfound⟩ := ih smallest openApp s
        refine ⟨s', o, hscan, hpeeked, fun l hl => ?_⟩
        rcases hfound l hl with hold | ⟨hmem, hopen⟩
        · exact .inl hold
        · exact .inr ⟨List.mem_cons_of_mem _ hmem, hopen⟩
      rw [sfqd3OpenApp]
      split
      · exact hskip
      · rename_i hdiff
        split
        · rename_i hready
          have hne : s.queued l' ≠ [] := by
            intro hnil
            have := (heapEmpty_iff _).mpr hnil
            rw [hready.2] at this
            cases this
          have hopen : s.Open appStats l' := ⟨by omega, hready.1⟩
          have hpeek := s.peeked_heapPeek l'
          obtain ⟨-, -, hnone⟩ := heapPeek_values sfqd3PacketCmp (s.heapQueues l')
          generalize hpeeked : heapPeek sfqd3PacketCmp (s.heapQueues l') = peeked at hpeek hnone
          obtain ⟨heapQueue, next⟩ := peeked
          cases next with
          | none => exact absurd (hnone rfl) hne
          | some next =>
              -- the rest of the scan works on the queues as the peek left them
              have hrest : ∀ smallest' openApp', (∀ l, openApp' = some l →
                    openApp = some l ∨ l = l') →
                  ∃ s' o, sfqd3OpenApp appStats apps smallest' openApp'
                      { s with heapQueues := Function.update s.heapQueues l' heapQueue }
                        = .ok (s', o)
                    ∧ s.Peeked s' ∧ ∀ l, o = some l → openApp = some l
                      ∨ l ∈ l' :: apps ∧ s.Open appStats l ∧ s.queued l ≠ [] := by
                intro smallest' openApp' hopenApp'
                obtain ⟨s', o, hscan, hpeeked', hfound⟩ := ih smallest' openApp'
                  { s with heapQueues := Function.update s.heapQueues l' heapQueue }
                refine ⟨s', o, hscan, hpeek.trans hpeeked', fun l hl => ?_⟩
                rcases hfound l hl with hold | ⟨hmem, hopenl, hnel⟩
                · rcases hopenApp' l hold with hold | rfl
                  · exact .inl hold
                  · exact .inr ⟨List.mem_cons_self .., hopen, hne⟩
                · refine .inr ⟨List.mem_cons_of_mem _ hmem, hopenl, fun hnil => hnel ?_⟩
                  exact (hnil ▸ hpeek.queued l).eq_nil
              dsimp only
              split
              · exact hrest _ _ fun l hl => .inr (Option.some.inj hl).symm
              · exact hrest _ _ fun l hl => .inl hl
        · exact hskip

/-- A request that is not handed out leaves the queues; an application with
requests queued that may go is found unless a start tag is `INT_MAX`. -/
theorem sfqd3NextRequest_cases (g : Globals Sfqd3) :
    ∃ g' next, sfqd3NextRequest g = .ok (g', next)
      ∧ (∀ app, (g'.appStats app).diff = (g.appStats app).diff)
      ∧ ((next = none ∧ g.sched.Peeked g'.sched)
        ∨ ∃ app it, next = some it ∧ app < g.sched.numApps ∧ g.sched.Open g.appStats app
          ∧ g.sched.queued app ≠ [] ∧ g.sched.Handed app it g'.sched) := by
  unfold sfqd3NextRequest
  dsimp only
  split
  · exact ⟨g, none, rfl, fun _ => rfl, .inl ⟨rfl, .refl _⟩⟩
  · obtain ⟨s, o, hscan, hpeeked, hfound⟩ := sfqd3OpenApp_found g.appStats
      (List.range g.sched.numApps) intMax none g.sched
    rw [hscan]
    cases o with
    | none => exact ⟨_, none, rfl, fun _ => rfl, .inl ⟨rfl, hpeeked⟩⟩
    | some app =>
        rcases hfound app rfl with hold | ⟨hmem, hopen, hne⟩
        · cases hold
        · have hne' : s.queued app ≠ [] := fun hnil => hne (hnil ▸ hpeeked.queued app).symm.eq_nil
          obtain ⟨s', it, htake, hhanded⟩ := sfqd3Take_handed hne'
          refine ⟨{ g with sched := s' }.modifyApp it.socketData.appIndex fun a =>
            { a with reqGo := a.reqGo + 1, dispatchedRequests := a.dispatchedRequests + 1 },
            some it, ?_, ?_, .inr ⟨app, it, rfl, List.mem_range.mp hmem, hopen, hne,
              hpeeked.handed hhanded⟩⟩
          · simp only [bind, Except.bind, htake]
            rfl
          · intro l
            rw [modifyApp_diff]
            exact fun _ => rfl

/-- A `DIFF_CHANGE` hands out a request of the application, or it has none or
no slot free. -/
theorem sfqd3DiffChange_cases (app : Nat) (g : Globals Sfqd3) :
    ∃ g' next, sfqd3DiffChange app g = .ok (g', next)
      ∧ (∀ l, (g'.appStats l).diff = (g.appStats l).diff)
      ∧ ((next = none ∧ g' = g
          ∧ (g.sched.queued app = [] ∨ g.sched.depths app ≤ g.sched.currentDepths app))
        ∨ ∃ it, next = some it ∧ g.sched.currentDepths app < g.sched.depths app
          ∧ g.sched.Handed app it g'.sched) := by
  unfold sfqd3DiffChange
  split
  · rename_i hempty
    exact ⟨g, none, rfl, fun _ => rfl, .inl ⟨rfl, rfl, .inl ((heapEmpty_iff _).mp hempty)⟩⟩
  · rename_i hne
    rw [heapEmpty_iff] at hne
    split
    · rename_i hfree
      obtain ⟨s', it, htake, hhanded⟩ := sfqd3Take_handed hne
      refine ⟨{ g with sched := s' }.modifyApp app fun a =>
        { a with dispatchedRequests := a.dispatchedRequests + 1 }, some it, ?_, ?_,
        .inr ⟨it, rfl, hfree, hhanded⟩⟩
      · rw [htake]
        rfl
      · intro l
        rw [modifyApp_diff]
        exact fun _ => rfl
    · exact ⟨g, none, rfl, fun _ => rfl, .inl ⟨rfl, rfl, .inr (by omega)⟩⟩

/-! ## The invariant -/

/-- The outstanding requests of an application. -/
def sfqd3Running (outstanding : List Sfqd3Item) (app : Nat) : Nat :=
  outstanding.countP fun it => it.embedded.appIndex = app

/-- The queues hold their own requests, and the slots in use are those of the
outstanding ones. -/
structure Sfqd3Slots (g : Globals Sfqd3) (outstanding : List Sfqd3Item) : Prop where
  own : ∀ app, ∀ it ∈ g.sched.queued app, it.embedded.appIndex = app
  tagged : ∀ app, ∀ it ∈ g.sched.queued app, it.embedded.startTag < intMax
  known : ∀ it ∈ outstanding, it.embedded.appIndex < g.sched.numApps
  current : ∀ app, app < g.sched.numApps →
    g.sched.currentDepths app = sfqd3Running outstanding app
  bound : ∀ app, app < g.sched.numApps → g.sched.currentDepths app ≤ max (g.sched.depths app) 0

/-- The application rests, has nothing queued or no slot free. -/
def Sfqd3Full (g : Globals Sfqd3) (app : Nat) : Prop :=
  (g.appStats app).diff ≤ 10240 →
    g.sched.queued app = [] ∨ g.sched.depths app ≤ g.sched.currentDepths app

theorem Sfqd3Full.not_open {g : Globals Sfqd3} {app : Nat} (h : Sfqd3Full g app)
    (hopen : g.sched.Open g.appStats app) (hne : g.sched.queued app ≠ []) : False := by
  rcases h hopen.1 with hnil | hfull
  · exact hne hnil
  · have := hopen.2
    omega

theorem Sfqd3Full.of_peeked {g g' : Globals Sfqd3} {app : Nat} (h : Sfqd3Full g app)
    (hdiff : (g'.appStats app).diff = (g.appStats app).diff) (hp : g.sched.Peeked g'.sched) :
    Sfqd3Full g' app := by
  intro hrests
  rw [hdiff] at hrests
  rcases h hrests with hnil | hfull
  · exact .inl (hnil ▸ hp.queued app).eq_nil
  · right
    rw [hp.depths, hp.currentDepths]
    exact hfull

theorem Sfqd3Full.of_handed {g g' : Globals Sfqd3} {app l : Nat} {it : Sfqd3Item}
    (h : Sfqd3Full g l) (hne : l ≠ app)
    (hdiff : (g'.appStats l).diff = (g.appStats l).diff) (hh : g.sched.Handed app it g'.sched) :
    Sfqd3Full g' l := by
  intro hrests
  rw [hdiff] at hrests
  rcases h hrests with hnil | hfull
  · exact .inl (hnil ▸ hh.queuedOther l hne).eq_nil
  · right
    rw [hh.depths, hh.currentOther l hne]
    exact hfull

namespace Sfqd3Slots

variable {g g' : Globals Sfqd3} {outstanding : List Sfqd3Item} {app : Nat} {it : Sfqd3Item}

theorem init {numApps : Nat} {totalWeight : Int} {depths : Nat → Int}
    {appStats : Nat → AppStatistics} {totalThroughput : Int} :
    Sfqd3Slots { sched := sfqd3Init numApps totalWeight depths, appStats, totalThroughput } [] := by
  have hnil : ∀ app, (sfqd3Init numApps totalWeight depths).queued app = [] :=
    fun _ => heapInit_values
  constructor
  · intro app it hit
    rw [hnil] at hit
    cases hit
  · intro app it hit
    rw [hnil] at hit
    cases hit
  · intro it hit
    cases hit
  · intro app _
    rfl
  · intro app _
    exact Int.le_max_right ..

theorem peeked (h : Sfqd3Slots g outstanding) (hp : g.sched.Peeked g'.sched) :
    Sfqd3Slots g' outstanding where
  own app it hit := h.own app it ((hp.queued app).subset hit)
  tagged app it hit := h.tagged app it ((hp.queued app).subset hit)
  known it hit := by
    rw [hp.numApps]
    exact h.known it hit
  current app happ := by
    rw [hp.numApps] at happ
    rw [hp.currentDepths]
    exact h.current app happ
  bound app happ := by
    rw [hp.numApps] at happ
    rw [hp.currentDepths, hp.depths]
    exact h.bound app happ

/-- A request that goes takes a slot of its own application. -/
theorem handed (h : Sfqd3Slots g outstanding) (happ : app < g.sched.numApps)
    (hfree : g.sched.currentDepths app < g.sched.depths app)
    (hh : g.sched.Handed app it g'.sched) : Sfqd3Slots g' (outstanding ++ [it]) := by
  have hit : it.embedded.appIndex = app := h.own app it (hh.queued.subset (List.mem_cons_self ..))
  have hqueued : ∀ l, g'.sched.queued l ⊆ g.sched.queued l := by
    intro l it' hit'
    by_cases hl : l = app
    · subst hl
      exact hh.queued.subset (List.mem_cons_of_mem _ hit')
    · exact (hh.queuedOther l hl).subset hit'
  have hrunning : ∀ l, sfqd3Running (outstanding ++ [it]) l
      = sfqd3Running outstanding l + if l = app then 1 else 0 := by
    intro l
    unfold sfqd3Running
    rw [List.countP_append, List.countP_singleton, hit]
    by_cases hl : l = app
    · simp [hl]
    · simp [hl, Ne.symm hl]
  constructor
  · exact fun l it' hit' => h.own l it' (hqueued l hit')
  · exact fun l it' hit' => h.tagged l it' (hqueued l hit')
  · intro it' hit'
    rw [hh.numApps]
    rcases List.mem_append.mp hit' with hold | hnew
    · exact h.known it' hold
    · rw [List.mem_singleton.mp hnew, hit]
      exact happ
  · intro l hl
    rw [hh.numApps] at hl
    have hcurrent := h.current l hl
    rw [hrunning]
    by_cases heq : l = app
    · subst heq
      rw [hh.current, if_pos rfl]
      push_cast
      omega
    · rw [hh.currentOther l heq, if_neg heq]
      exact hcurrent
  · intro l hl
    rw [hh.numApps] at hl
    rw [hh.depths]
    by_cases heq : l = app
    · subst heq
      rw [hh.current]
      omega
    · rw [hh.currentOther l heq]
      exact h.bound l hl

/-- A request that is queued uses no slot. -/
theorem enqueued {pool : Nat → Endpoint} {si : SocketInfo} {b : Bool}
    (h : Sfqd3Slots g outstanding) (hq : Sfqd3Enqueued pool si g g' b it)
    (htag : g.sched.nextStart (pool si.requestSocket).appIndex < intMax) :
    Sfqd3Slots g' outstanding := by
  have hqueued : ∀ l, ∀ it' ∈ g'.sched.queued l,
      it' ∈ g.sched.queued l ∨ it' = it ∧ l = (pool si.requestSocket).appIndex := by
    intro l it' hit'
    by_cases hl : l = (pool si.requestSocket).appIndex
    · subst hl
      rcases List.mem_cons.mp (hq.queued.subset hit') with rfl | hold
      · exact .inr ⟨rfl, rfl⟩
      · exact .inl hold
    · unfold Sfqd3.queued at hit' ⊢
      rw [hq.other l hl] at hit'
      exact .inl hit'
  constructor
  · intro l it' hit'
    rcases hqueued l it' hit' with hold | ⟨rfl, rfl⟩
    · exact h.own l it' hold
    · exact hq.appIndex
  · intro l it' hit'
    rcases hqueued l it' hit' with hold | ⟨rfl, rfl⟩
    · exact h.tagged l it' hold
    · rw [hq.startTag]
      exact htag
  · rw [hq.same.numApps]
    exact h.known
  · rw [hq.same.numApps, hq.same.currentDepths]
    exact h.current
  · rw [hq.same.numApps, hq.same.currentDepths, hq.same.depths]
    exact h.bound

end Sfqd3Slots

/-! ## The dequeues -/

section dequeues

variable {g g' : Globals Sfqd3} {outstanding : List Sfqd3Item} {next : Option Sfqd3Item}

/-- A dequeue with all applications full but `app`, which has a slot free or
nothing to use it for. -/
theorem sfqd3NextRequest_full {app : Nat} (hslots : Sfqd3Slots g outstanding)
    (hfull : ∀ l, l < g.sched.numApps → l ≠ app → Sfqd3Full g l) (happ : app < g.sched.numApps)
    (h : sfqd3NextRequest g = .ok (g', next)) :
    (∀ l, (g'.appStats l).diff = (g.appStats l).diff)
      ∧ (∀ l, l < g.sched.numApps → l ≠ app → Sfqd3Full g' l)
      ∧ ((next = none ∧ g.sched.Peeked g'.sched ∧ Sfqd3Full g' app)
        ∨ ∃ it, next = some it ∧ g.sched.Open g.appStats app ∧ g.sched.queued app ≠ []
          ∧ g.sched.Handed app it g'.sched) := by
  obtain ⟨g₁, next₁, hnext, hdiff, hcases⟩ := sfqd3NextRequest_cases g
  obtain ⟨rfl, rfl⟩ := Prod.mk.inj (Except.ok.inj (hnext.symm.trans h))
  refine ⟨hdiff, ?_, ?_⟩
  · intro l hl hne
    rcases hcases with ⟨-, hp⟩ | ⟨app', it, -, happ', hopen, hqueued, hh⟩
    · exact (hfull l hl hne).of_peeked (hdiff l) hp
    · by_cases hl' : l = app'
      · subst hl'
        exact ((hfull l hl hne).not_open hopen hqueued).elim
      · exact (hfull l hl hne).of_handed hl' (hdiff l) hh
  · rcases hcases with ⟨rfl, hp⟩ | ⟨app', it, rfl, happ', hopen, hqueued, hh⟩
    · refine .inl ⟨rfl, hp, fun hrests => ?_⟩
      rw [hdiff] at hrests
      -- with a slot free and a request queued the scan would have found it
      by_contra hno
      rw [not_or, hp.depths, hp.currentDepths, not_le] at hno
      have hne : g.sched.queued app ≠ [] := fun hnil =>
        hno.1 (hnil ▸ hp.queued app).eq_nil
      have hsome := sfqd3NextRequest_isSome h happ ⟨hrests, hno.2⟩ hne (hslots.tagged app)
      cases hsome
    · by_cases heq : app' = app
      · subst heq
        exact .inr ⟨it, rfl, hopen, hqueued, hh⟩
      · exact ((hfull app' happ' heq).not_open hopen hqueued).elim

/-- After a completion of one of its requests an application hands out its
next, if it does not rest. -/
theorem sfqd3CompleteIo_keeps {r : DequeueReason Sfqd3QueueItem} {it : Sfqd3Item}
    (hslots : Sfqd3Slots g outstanding) (hfull : ∀ l, l < g.sched.numApps → Sfqd3Full g l)
    (hit : it ∈ outstanding) (hr : r.event = .completeIo)
    (happ : r.lastAppIndex = it.embedded.appIndex) (h : sfqd3Dequeue r g = .ok (g', next)) :
    Sfqd3Slots g' (outstanding.erase it ++ next.toList)
      ∧ (∀ l, l < g'.sched.numApps → Sfqd3Full g' l) ∧ g'.sched.numApps = g.sched.numApps
      ∧ g'.sched.depths = g.sched.depths := by
  unfold sfqd3Dequeue sfqd3GetNextRequest at h
  rw [hr] at h
  dsimp only at h
  rw [happ] at h
  generalize happ' : it.embedded.appIndex = app at h
  have hlt : app < g.sched.numApps := happ' ▸ hslots.known it hit
  -- the slot is given back
  generalize hfreed : ({ g with
      sched := { g.sched with
        currentDepths := Function.update g.sched.currentDepths app
          (g.sched.currentDepths app - 1) } } : Globals Sfqd3) = g₁ at h
  have hcurrent : ∀ l, g₁.sched.currentDepths l
      = g.sched.currentDepths l - if l = app then 1 else 0 := by
    intro l
    rw [← hfreed]
    by_cases hl : l = app
    · subst hl
      simp
    · simp [hl]
  have hrunning : ∀ l, (sfqd3Running (outstanding.erase it) l : Int)
      = sfqd3Running outstanding l - if l = app then 1 else 0 := by
    intro l
    have hcount := (List.perm_cons_erase hit).countP_eq fun it => it.embedded.appIndex = l
    rw [List.countP_cons, happ'] at hcount
    unfold sfqd3Running
    by_cases hl : l = app
    · subst hl
      simp only [decide_true, if_true] at hcount ⊢
      omega
    · simp only [hl, Ne.symm hl, decide_false, Bool.false_eq_true, if_false] at hcount ⊢
      omega
  have hslots₁ : Sfqd3Slots g₁ (outstanding.erase it) := by
    subst hfreed
    refine ⟨hslots.own, hslots.tagged,
      fun it' hit' => hslots.known it' (List.mem_of_mem_erase hit'), fun l hl => ?_,
      fun l hl => ?_⟩
    · rw [hcurrent, hrunning, hslots.current l hl]
    · have hbound := hslots.bound l hl
      rw [hcurrent]
      show _ ≤ max (g.sched.depths l) 0
      split <;> omega
  have hfull₁ : ∀ l, l < g₁.sched.numApps → l ≠ app → Sfqd3Full g₁ l := by
    subst hfreed
    intro l hl hne hrests
    rcases hfull l hl hrests with hnil | hle
    · exact .inl hnil
    · right
      rw [hcurrent, if_neg hne, sub_zero]
      exact hle
  have hlt₁ : app < g₁.sched.numApps := by
    subst hfreed
    exact hlt
  have hconfig : g₁.sched.numApps = g.sched.numApps ∧ g₁.sched.depths = g.sched.depths := by
    subst hfreed
    exact ⟨rfl, rfl⟩
  obtain ⟨hdiff, hother, ⟨rfl, hp, hself⟩ | ⟨it', rfl, hopen, hne, hh⟩⟩ :=
    sfqd3NextRequest_full hslots₁ hfull₁ hlt₁ h
  · refine ⟨?_, fun l hl => ?_, hp.numApps.trans hconfig.1, hp.depths.trans hconfig.2⟩
    · rw [Option.toList_none, List.append_nil]
      exact hslots₁.peeked hp
    · rw [hp.numApps] at hl
      by_cases heq : l = app
      · exact heq ▸ hself
      · exact hother l hl heq
  · refine ⟨hslots₁.handed hlt₁ hopen.2 hh, fun l hl => ?_, hh.numApps.trans hconfig.1,
      hh.depths.trans hconfig.2⟩
    rw [hh.numApps] at hl
    by_cases heq : l = app
    · subst heq
      -- it is as full as it was
      intro hrests
      rw [hdiff] at hrests
      right
      rw [hh.depths, hh.current, hcurrent, if_pos rfl, hconfig.2]
      subst hfreed
      rcases hfull l hlt hrests with hnil | hle
      · exact absurd hnil hne
      · omega
    · exact hother l hl heq

/-- After an enqueue that returns 1 the dequeue hands out the new request. -/
theorem sfqd3NewIo_next {pool : Nat → Endpoint} {si : SocketInfo} {it : Sfqd3Item}
    {g₁ : Globals Sfqd3} {r : DequeueReason Sfqd3QueueItem} (hr : r.event = .newIo)
    (hslots : Sfqd3Slots g outstanding) (hfull : ∀ l, l < g.sched.numApps → Sfqd3Full g l)
    (happ : (pool si.requestSocket).appIndex < g.sched.numApps)
    (htag : g.sched.nextStart (pool si.requestSocket).appIndex < intMax)
    (hq : Sfqd3Enqueued pool si g g₁ true it) :
    ∃ g₂, sfqd3Dequeue r g₁ = .ok (g₂, some it) ∧ Sfqd3Slots g₂ (outstanding ++ [it])
      ∧ (∀ l, l < g₂.sched.numApps → Sfqd3Full g₂ l) ∧ g₂.sched.numApps = g.sched.numApps
      ∧ g₂.sched.depths = g.sched.depths := by
  have hslots₁ := hslots.enqueued hq htag
  obtain ⟨hnil, hopen⟩ := hq.dispatched.mp rfl
  have happ₁ := happ
  rw [← hq.same.numApps] at happ₁
  have hfull₁ : ∀ l, l < g₁.sched.numApps → l ≠ (pool si.requestSocket).appIndex →
      Sfqd3Full g₁ l := by
    intro l hl hne hrests
    rw [hq.same.numApps] at hl
    rw [hq.same.diff] at hrests
    rw [hq.same.depths, hq.same.currentDepths]
    unfold Sfqd3.queued
    rw [hq.other l hne]
    exact hfull l hl hrests
  have hone := hq.queued
  rw [hnil] at hone
  obtain ⟨g₂, next, hnext, -⟩ := sfqd3NextRequest_cases g₁
  obtain ⟨hdiff, hother, hcases⟩ := sfqd3NextRequest_full hslots₁ hfull₁ happ₁ hnext
  have hsome := sfqd3NextRequest_isSome hnext happ₁ hopen
    (fun hempty => by simp [hempty] at hone) (hslots₁.tagged _)
  rcases hcases with ⟨rfl, -⟩ | ⟨it', rfl, -, -, hh⟩
  · cases hsome
  · have hperm := hh.queued.trans hone
    obtain ⟨rfl, hrest⟩ := List.cons.inj (List.perm_singleton.mp hperm)
    refine ⟨g₂, ?_, hslots₁.handed happ₁ hopen.2 hh, fun l hl => ?_,
      hh.numApps.trans hq.same.numApps, hh.depths.trans hq.same.depths⟩
    · unfold sfqd3Dequeue sfqd3GetNextRequest
      rw [hr]
      exact hnext
    · rw [hh.numApps] at hl
      by_cases heq : l = (pool si.requestSocket).appIndex
      · subst heq
        exact fun _ => .inl hrest
      · exact hother l hl heq

/-- A request that waits leaves the application full. -/
theorem sfqd3Enqueue_waits {pool : Nat → Endpoint} {si : SocketInfo} {it : Sfqd3Item}
    (hfull : ∀ l, l < g.sched.numApps → Sfqd3Full g l)
    (hq : Sfqd3Enqueued pool si g g' false it) :
    ∀ l, l < g'.sched.numApps → Sfqd3Full g' l := by
  intro l hl hrests
  rw [hq.same.numApps] at hl
  have hold := hfull l hl (by rwa [← hq.same.diff])
  rw [hq.same.depths, hq.same.currentDepths]
  by_cases heq : l = (pool si.requestSocket).appIndex
  · subst heq
    right
    rcases hold with hnil | hle
    · by_contra hfree
      refine absurd (hq.dispatched.mpr ⟨hnil, hrests, ?_⟩) (by simp)
      rw [hq.same.depths, hq.same.currentDepths]
      omega
    · exact hle
  · unfold Sfqd3.queued
    rw [hq.other l heq]
    exact hold

end dequeues

/-! ## Runs -/

/-- The world around SFQD3, with the requests that were handed out and did not
complete. -/
structure Sfqd3Run where
  w : World Sfqd3 Sfqd3QueueItem
  outstanding : List Sfqd3Item

namespace Sfqd3Run

inductive Event where
  | arrive (a : Arrival Sfqd3QueueItem)
  /-- a request is reported complete -/
  | complete (it : Sfqd3Item) (completeSize : Int)
  /-- `amount` bytes are counted for an application; `check_response` asserts
  that what it releases is locked, the loop of `main` does not -/
  | count (asserts : Bool) (amount : Int) (app : Nat) (item : Option Sfqd3Item)

variable (cfg : Config Sfqd3 Sfqd3QueueItem)

def arrive (s : Sfqd3Run) (a : Arrival Sfqd3QueueItem) : Except Fault Sfqd3Run := do
  let (g, mem, item) ← admitRequest cfg.method a.pool a.si a.pi .newIo a.pi.currentDataSize s.w.g
    (s.w.mem.alloc a.rs a.newRs)
  return { w := { s.w with g, mem }, outstanding := s.outstanding ++ item.toList }

/-- The dequeue of the framework. -/
def callNext (asserts : Bool) :
    DequeueReason Sfqd3QueueItem → World Sfqd3 Sfqd3QueueItem →
      Except Fault (World Sfqd3 Sfqd3QueueItem × Option Sfqd3Item) :=
  if asserts then callDequeue cfg else callDequeueUnchecked cfg

def release (asserts : Bool) (r : DequeueReason Sfqd3QueueItem) (s : Sfqd3Run) :
    Except Fault (Sfqd3Run × Option Sfqd3Item) := do
  let (w, next) ← callNext cfg asserts r s.w
  return ({ w, outstanding := s.outstanding ++ next.toList }, next)

/-- `drainQueue`, with the requests it releases. -/
def drain (asserts : Bool) (r : DequeueReason Sfqd3QueueItem) :
    Nat → Sfqd3Run → Except Fault Sfqd3Run
  | 0, _ => .error (.exit (-1))
  | bound + 1, s => do
    let (s, next) ← s.release cfg asserts r
    match next with
    | none => return s
    | some _ => drain asserts r bound s

/-- `updateDiffs`, with the requests it releases. -/
def updateDiffs (asserts : Bool) (item : Option Sfqd3Item) :
    List Nat → Sfqd3Run → Except Fault Sfqd3Run
  | [], s => .ok s
  | l :: apps, s => do
    let oldDiff := (s.w.g.appStats l).diff
    let newDiff := toInt32 (sfqd3CalculateDiff l s.w.g)
    let s := { s with
      w := { s.w with g := s.w.g.modifyApp l fun a => { a with diff := newDiff } } }
    let s ←
      if oldDiff > 10240 ∧ newDiff ≤ 10240 then
        s.drain cfg asserts { event := .diffChange, completeSize := 0, lastAppIndex := l, item }
          cfg.drainBound
      else pure s
    updateDiffs asserts item apps s

/-- A completion is counted, and the differences are computed anew. -/
def count (s : Sfqd3Run) (asserts : Bool) (amount : Int) (app : Nat) (item : Option Sfqd3Item) :
    Except Fault Sfqd3Run :=
  { s with w := { s.w with g := sfqd3AddTtlTp amount app s.w.g } }.updateDiffs cfg asserts item
    (List.range cfg.numApps)

/-- The slot of a completed request is given back. -/
def complete (s : Sfqd3Run) (it : Sfqd3Item) (completeSize : Int) : Except Fault Sfqd3Run := do
  let (s, _) ← { s with outstanding := s.outstanding.erase it }.release cfg true
    { event := .completeIo, completeSize, lastAppIndex := it.embedded.appIndex, item := some it }
  return s

def step (s : Sfqd3Run) : Event → Except Fault Sfqd3Run
  | .arrive a => s.arrive cfg a
  | .complete it completeSize => s.complete cfg it completeSize
  | .count asserts amount app item => s.count cfg asserts amount app item

/-- Requests come from known applications, and their start tags are below
`INT_MAX`; what completes was handed out. -/
def Allowed (s : Sfqd3Run) : Event → Prop
  | .arrive a => (a.pool a.index).appIndex < cfg.numApps
      ∧ s.w.g.sched.nextStart (a.pool a.index).appIndex < intMax
  | .complete it _ => it ∈ s.outstanding
  | .count .. => True

instance (s : Sfqd3Run) (e : Event) : Decidable (s.Allowed cfg e) :=
  match e with
  | .arrive a => inferInstanceAs (Decidable ((a.pool a.index).appIndex < cfg.numApps
      ∧ s.w.g.sched.nextStart (a.pool a.index).appIndex < intMax))
  | .complete it _ => inferInstanceAs (Decidable (it ∈ s.outstanding))
  | .count .. => inferInstanceAs (Decidable True)

def init (totalWeight : Int) (depths : Nat → Int) (w : World Sfqd3 Sfqd3QueueItem) :
    Sfqd3Run where
  w := { w with g := { w.g with sched := sfqd3Init cfg.numApps totalWeight depths } }
  outstanding := []

end Sfqd3Run

/-! ### The run is the framework's -/

section framework

variable {cfg : Config Sfqd3 Sfqd3QueueItem} {asserts : Bool}

theorem drain_drainQueue (r : DequeueReason Sfqd3QueueItem) (bound : Nat) (s : Sfqd3Run) :
    (s.drain cfg asserts r bound).map (·.w)
      = drainQueue (Sfqd3Run.callNext cfg asserts r) bound s.w := by
  induction bound generalizing s with
  | zero => rfl
  | succ bound ih =>
      unfold Sfqd3Run.drain drainQueue Sfqd3Run.release
      cases hnext : Sfqd3Run.callNext cfg asserts r s.w with
      | error e => rfl
      | ok res =>
          obtain ⟨w, next⟩ := res
          cases next with
          | none => rfl
          | some it => exact ih { w, outstanding := s.outstanding ++ [it] }

theorem updateDiffs_updateDiffs {myShare : Int → Int → Int → Int → Int → Int}
    (hm : cfg.method = schSfqd3 myShare) (item : Option Sfqd3Item) (apps : List Nat)
    (s : Sfqd3Run) :
    (s.updateDiffs cfg asserts item apps).map (·.w)
      = updateDiffs cfg (Sfqd3Run.callNext cfg asserts) item apps s.w := by
  have hdiff : cfg.method.schCalculateDiff = some sfqd3CalculateDiff := by
    rw [hm]
    rfl
  induction apps generalizing s with
  | nil => rfl
  | cons l apps ih =>
      unfold Sfqd3Run.updateDiffs updateDiffs
      rw [hdiff]
      dsimp only
      split
      · rw [← drain_drainQueue _ _ { s with
          w := { s.w with g := s.w.g.modifyApp l fun a =>
            { a with diff := toInt32 (sfqd3CalculateDiff l s.w.g) } } }]
        generalize Sfqd3Run.drain cfg asserts _ cfg.drainBound _ = drained
        cases drained with
        | error e => rfl
        | ok s' => exact ih s'
      · exact ih _

/-- A counted completion is `countThroughput` once all applications were seen. -/
theorem count_countThroughput {myShare : Int → Int → Int → Int → Int → Int}
    (hm : cfg.method = schSfqd3 myShare) {s : Sfqd3Run} (htimer : cfg.timerStop = false)
    (hfirst : s.w.firstReceive = true) (amount : Int) (app : Nat) (item : Option Sfqd3Item) :
    (s.count cfg asserts amount app item).map (·.w)
      = countThroughput cfg (Sfqd3Run.callNext cfg asserts) amount app item s.w := by
  have hadd : cfg.method.schAddTtlThroughput = sfqd3AddTtlTp := by
    rw [hm]
    rfl
  unfold Sfqd3Run.count countThroughput
  rw [updateDiffs_updateDiffs hm, hadd, if_neg (by simp [htimer, hfirst])]
  dsimp only
  rw [if_neg (by simp [hm, schSfqd3])]

end framework

/-! ## What every run keeps -/

/-- The invariant of a run. -/
structure Sfqd3Dispatching (cfg : Config Sfqd3 Sfqd3QueueItem) (depths : Nat → Int)
    (s : Sfqd3Run) : Prop where
  slots : Sfqd3Slots s.w.g s.outstanding
  full : ∀ app, app < s.w.g.sched.numApps → Sfqd3Full s.w.g app
  numApps : s.w.g.sched.numApps = cfg.numApps
  depths : s.w.g.sched.depths = depths

namespace Sfqd3Dispatching

variable {cfg : Config Sfqd3 Sfqd3QueueItem} {myShare : Int → Int → Int → Int → Int → Int}
  {depths : Nat → Int} {s t : Sfqd3Run} {asserts : Bool}

theorem callNext_dequeue (hm : cfg.method = schSfqd3 myShare) {r : DequeueReason Sfqd3QueueItem}
    {w w' : World Sfqd3 Sfqd3QueueItem} {next : Option Sfqd3Item}
    (h : Sfqd3Run.callNext cfg asserts r w = .ok (w', next)) :
    sfqd3Dequeue r w.g = .ok (w'.g, next) := by
  have hhook : ∀ {out}, cfg.method.schDequeue r w.g = .ok out →
      sfqd3Dequeue r w.g = .ok (out.globals, out.ret) := by
    intro out hout
    rw [hm] at hout
    obtain ⟨⟨g, item⟩, hdeq, hout⟩ := Machine.bind_eq_ok.mp hout
    obtain rfl := Machine.pure_eq_ok.mp hout
    exact hdeq
  cases asserts with
  | true =>
      obtain ⟨⟨g, mem, item⟩, hdisp, h⟩ := Machine.bind_eq_ok.mp h
      obtain ⟨rfl, rfl⟩ := Prod.mk.inj (Machine.pure_eq_ok.mp h)
      obtain ⟨out, hout, rfl, rfl, -⟩ := dispatchNext_ok hdisp
      exact hhook hout
  | false =>
      obtain ⟨out, hout, h⟩ := Machine.bind_eq_ok.mp h
      have hdeq := hhook hout
      cases hret : out.ret with
      | none =>
          rw [hret] at h hdeq
          obtain ⟨rfl, rfl⟩ := Prod.mk.inj (Machine.pure_eq_ok.mp h)
          exact hdeq
      | some it =>
          rw [hret] at h hdeq
          obtain ⟨rs, -, h⟩ := Machine.bind_eq_ok.mp h
          obtain ⟨rfl, rfl⟩ := Prod.mk.inj (Machine.pure_eq_ok.mp h)
          exact hdeq

theorem release_ok (hm : cfg.method = schSfqd3 myShare) {r : DequeueReason Sfqd3QueueItem}
    {next : Option Sfqd3Item} (h : s.release cfg asserts r = .ok (t, next)) :
    sfqd3Dequeue r s.w.g = .ok (t.w.g, next)
      ∧ t.outstanding = s.outstanding ++ next.toList := by
  obtain ⟨⟨w, item⟩, hnext, h⟩ := Machine.bind_eq_ok.mp h
  obtain ⟨rfl, rfl⟩ := Prod.mk.inj (Machine.pure_eq_ok.mp h)
  exact ⟨callNext_dequeue hm hnext, rfl⟩

/-- A queue is drained until its application is full. -/
theorem drain_keeps (hm : cfg.method = schSfqd3 myShare) {r : DequeueReason Sfqd3QueueItem}
    (hr : r.event = .diffChange) {bound : Nat} (hslots : Sfqd3Slots s.w.g s.outstanding)
    (happ : r.lastAppIndex < s.w.g.sched.numApps)
    (hfull : ∀ l, l < s.w.g.sched.numApps → l ≠ r.lastAppIndex → Sfqd3Full s.w.g l)
    (h : s.drain cfg asserts r bound = .ok t) :
    Sfqd3Slots t.w.g t.outstanding ∧ (∀ l, l < t.w.g.sched.numApps → Sfqd3Full t.w.g l)
      ∧ t.w.g.sched.numApps = s.w.g.sched.numApps
      ∧ t.w.g.sched.depths = s.w.g.sched.depths := by
  induction bound generalizing s with
  | zero => cases h
  | succ bound ih =>
      obtain ⟨⟨s₁, next⟩, hrelease, h⟩ := Machine.bind_eq_ok.mp h
      obtain ⟨hdeq, hout⟩ := release_ok hm hrelease
      unfold sfqd3Dequeue sfqd3GetNextRequest at hdeq
      rw [hr] at hdeq
      obtain ⟨g', next', hchange, hdiff, hcases⟩ := sfqd3DiffChange_cases r.lastAppIndex s.w.g
      obtain ⟨hg, rfl⟩ := Prod.mk.inj (Except.ok.inj (hchange.symm.trans hdeq))
      rcases hcases with ⟨rfl, hsame, hended⟩ | ⟨it, rfl, hfree, hh⟩
      · obtain rfl := Machine.pure_eq_ok.mp h
        rw [Option.toList_none, List.append_nil] at hout
        rw [← hg, hsame, hout]
        refine ⟨hslots, fun l hl => ?_, rfl, rfl⟩
        by_cases heq : l = r.lastAppIndex
        · subst heq
          exact fun _ => hended
        · exact hfull l hl heq
      · rw [hg] at hh hdiff
        have hslots₁ := hslots.handed happ hfree hh
        rw [Option.toList_some] at hout
        rw [← hout] at hslots₁
        have hfull₁ : ∀ l, l < s₁.w.g.sched.numApps → l ≠ r.lastAppIndex →
            Sfqd3Full s₁.w.g l := by
          intro l hl hne
          rw [hh.numApps] at hl
          exact (hfull l hl hne).of_handed hne (hdiff l) hh
        obtain ⟨hslots', hfull', hnum, hdepths⟩ := ih hslots₁ (hh.numApps ▸ happ) hfull₁ h
        exact ⟨hslots', hfull', hnum.trans hh.numApps, hdepths.trans hh.depths⟩

/-- The differences change one by one; only an application that wakes is
drained. -/
theorem updateDiffs_keeps (hm : cfg.method = schSfqd3 myShare) {item : Option Sfqd3Item}
    {apps : List Nat} (happs : ∀ l ∈ apps, l < cfg.numApps)
    (hs : Sfqd3Dispatching cfg depths s) (h : s.updateDiffs cfg asserts item apps = .ok t) :
    Sfqd3Dispatching cfg depths t := by
  induction apps generalizing s with
  | nil =>
      obtain rfl := Except.ok.inj h
      exact hs
  | cons l apps ih =>
      unfold Sfqd3Run.updateDiffs at h
      dsimp only at h
      have happs' : ∀ l' ∈ apps, l' < cfg.numApps := fun l' hl' =>
        happs l' (List.mem_cons_of_mem _ hl')
      generalize hs₁ : ({ s with
        w := { s.w with g := s.w.g.modifyApp l fun a =>
          { a with diff := toInt32 (sfqd3CalculateDiff l s.w.g) } } } : Sfqd3Run) = s₁ at h
      have hsched : s₁.w.g.sched = s.w.g.sched := by
        rw [← hs₁]
        rfl
      have hdiff : ∀ l', l' ≠ l → (s₁.w.g.appStats l').diff = (s.w.g.appStats l').diff := by
        intro l' hne
        rw [← hs₁]
        show (Function.update s.w.g.appStats l _ l').diff = _
        rw [Function.update_of_ne hne]
      have hnew : (s₁.w.g.appStats l).diff = toInt32 (sfqd3CalculateDiff l s.w.g) := by
        rw [← hs₁]
        show (Function.update s.w.g.appStats l _ l).diff = _
        rw [Function.update_self]
      have hslots₁ : Sfqd3Slots s₁.w.g s₁.outstanding := by
        rw [← hs₁]
        exact ⟨hs.slots.own, hs.slots.tagged, hs.slots.known, hs.slots.current, hs.slots.bound⟩
      have hfull₁ : ∀ l', l' < s₁.w.g.sched.numApps → l' ≠ l → Sfqd3Full s₁.w.g l' := by
        intro l' hl' hne hrests
        rw [hdiff l' hne] at hrests
        rw [hsched] at hl' ⊢
        exact hs.full l' hl' hrests
      have hl : l < s₁.w.g.sched.numApps := by
        rw [hsched, hs.numApps]
        exact happs l (List.mem_cons_self ..)
      split at h
      · obtain ⟨s₂, hdrain, h⟩ := Machine.bind_eq_ok.mp h
        obtain ⟨hslots₂, hfull₂, hnum, hdepths⟩ := drain_keeps hm rfl hslots₁ hl hfull₁ hdrain
        refine ih happs' ⟨hslots₂, hfull₂, ?_, ?_⟩ h
        · rw [hnum, hsched, hs.numApps]
        · rw [hdepths, hsched, hs.depths]
      · rename_i hasleep
        obtain ⟨s₂, hpure, h⟩ := Machine.bind_eq_ok.mp h
        obtain rfl := Machine.pure_eq_ok.mp hpure
        refine ih happs' ⟨hslots₁, fun l' hl' => ?_, ?_, ?_⟩ h
        rotate_left
        · rw [hsched, hs.numApps]
        · rw [hsched, hs.depths]
        by_cases heq : l' = l
        · subst heq
          -- it did not rest before, or it rests now
          intro hrests
          rw [hnew] at hrests
          rw [hsched] at hl' ⊢
          exact hs.full l' hl' (by omega)
        · exact hfull₁ l' hl' heq

theorem step (hm : cfg.method = schSfqd3 myShare) {e : Sfqd3Run.Event}
    (hs : Sfqd3Dispatching cfg depths s) (hok : s.Allowed cfg e) (h : s.step cfg e = .ok t) :
    Sfqd3Dispatching cfg depths t := by
  cases e with
  | arrive a =>
      obtain ⟨happ, htag⟩ := hok
      rw [← hs.numApps] at happ
      obtain ⟨⟨g, mem, item⟩, hentry, h⟩ := Machine.bind_eq_ok.mp h
      obtain rfl := Machine.pure_eq_ok.mp h
      rw [hm] at hentry
      obtain ⟨out, hout, hcases⟩ := admitRequest_ok (m := schSfqd3 myShare) rfl hentry
      obtain ⟨⟨g₁, b⟩, henq, hout⟩ := Machine.bind_eq_ok.mp hout
      obtain rfl := Machine.pure_eq_ok.mp hout
      obtain ⟨it, hq⟩ := sfqd3Enqueue_ok henq
      rcases hcases with ⟨hb, deq, hdeq, rfl, rfl, -⟩ | ⟨hb, rfl, rfl, -⟩
      · obtain rfl : b = true := hb
        obtain ⟨⟨g₂, next⟩, hnext, hdeq⟩ := Machine.bind_eq_ok.mp hdeq
        obtain rfl := Machine.pure_eq_ok.mp hdeq
        obtain ⟨g₂', hnext', hslots, hfull, hnum, hdepths⟩ :=
          sfqd3NewIo_next (r := ⟨.newIo, a.pi.currentDataSize, a.si.appIndex, none⟩) rfl hs.slots
            hs.full happ htag hq
        obtain ⟨rfl, rfl⟩ := Prod.mk.inj (Except.ok.inj (hnext'.symm.trans hnext))
        exact ⟨hslots, hfull, hnum.trans hs.numApps, hdepths.trans hs.depths⟩
      · obtain rfl : b = false := hb
        have hslots := hs.slots.enqueued hq htag
        refine ⟨?_, sfqd3Enqueue_waits hs.full hq, hq.same.numApps.trans hs.numApps,
          hq.same.depths.trans hs.depths⟩
        rw [Option.toList_none, List.append_nil]
        exact hslots
  | complete it completeSize =>
      obtain ⟨⟨s₁, next⟩, hrelease, h⟩ := Machine.bind_eq_ok.mp h
      obtain rfl := Machine.pure_eq_ok.mp h
      obtain ⟨hdeq, hout⟩ := release_ok hm hrelease
      obtain ⟨hslots, hfull, hnum, hdepths⟩ :=
        sfqd3CompleteIo_keeps hs.slots hs.full hok rfl rfl hdeq
      exact ⟨hout ▸ hslots, hfull, hnum.trans hs.numApps, hdepths.trans hs.depths⟩
  | count asserts amount app item =>
      refine updateDiffs_keeps hm (fun l hl => List.mem_range.mp hl) ?_ h
      refine ⟨⟨hs.slots.own, hs.slots.tagged, hs.slots.known, hs.slots.current, hs.slots.bound⟩,
        ?_, hs.numApps, hs.depths⟩
      intro l hl hrests
      refine hs.full l hl ?_
      have hdiff : ((sfqd3AddTtlTp amount app s.w.g).appStats l).diff
          = (s.w.g.appStats l).diff := by
        unfold sfqd3AddTtlTp
        rw [modifyApp_diff]
        exact fun _ => rfl
      rw [← hdiff]
      exact hrests

theorem run (hm : cfg.method = schSfqd3 myShare) {totalWeight : Int}
    {w : World Sfqd3 Sfqd3QueueItem} {es : List Sfqd3Run.Event}
    (h : Machine.Run (Sfqd3Run.Allowed cfg) (Sfqd3Run.step cfg)
      (Sfqd3Run.init cfg totalWeight depths w) es s) : Sfqd3Dispatching cfg depths s :=
  h.invariant ⟨.init, fun _ _ _ => .inl heapInit_values, rfl, rfl⟩
    fun _ _ _ ht hok hstep => ht.step hm hok hstep

end Sfqd3Dispatching

/-! ## Two applications of the same weight -/

def sfqd3Config : Config Sfqd3 Sfqd3QueueItem :=
  { sampleConfig true (schSfqd3 fun _ _ _ _ _ => 0) with numApps := 2, drainBound := 3 }

/-- A write of `size` bytes by the application `app`. -/
def sfqd3Write (app : Nat) (rs : Addr) (size : Int) : Arrival Sfqd3QueueItem where
  pool i := { socket := i + 5, appIndex := app, weight := 1 }
  index := 2 * app
  dataSocket := 2 * app + 1
  rs := rs
  newRs := default
  pi :=
    { op := .io, tag := 7, reqSize := 64, ioType := pvfsIoWrite, currentDataSize := size
      aggregateSize := size, totalServer := 1, stripSize := 65536 }

def sfqd3WriteItem (a : Arrival Sfqd3QueueItem) (startTag finishTag streamId itemId : Int) :
    Sfqd3Item :=
  sfqd3NewItem a.pool a.si a.pi startTag finishTag streamId itemId

/-- The first of two writes of one application completes, which lets it rest. -/
def sfqd3Rests : List Sfqd3Run.Event :=
  [.arrive (sfqd3Write 0 0 65536), .arrive (sfqd3Write 0 1 65536), .count true 65536 0 none,
    .complete (sfqd3WriteItem (sfqd3Write 0 0 65536) 0 65536 0 0) 65536]

/-- A write of the other application wakes it. -/
def sfqd3Wakes : List Sfqd3Run.Event :=
  sfqd3Rests ++ [.arrive (sfqd3Write 1 2 65536), .count true 65536 1 none]

section runs

variable {cfg : Config Sfqd3 Sfqd3QueueItem} {myShare : Int → Int → Int → Int → Int → Int}
  {totalWeight : Int} {depths : Nat → Int} {w : World Sfqd3 Sfqd3QueueItem}
  {es : List Sfqd3Run.Event} {s : Sfqd3Run}

/-- **The right request.** Whatever arrives, completes and is counted: an
application that does not rest has nothing queued or all its slots in use, the
slots in use are those of its outstanding requests, and after an enqueue that
returns 1 the dequeue hands out the request just enqueued. -/
theorem sfqd3_right_request (hm : cfg.method = schSfqd3 myShare)
    (hdepths : ∀ app, app < cfg.numApps → 1 ≤ depths app)
    (h : Machine.Run (Sfqd3Run.Allowed cfg) (Sfqd3Run.step cfg)
      (Sfqd3Run.init cfg totalWeight depths w) es s) :
    (∀ app, app < cfg.numApps → (s.w.g.appStats app).diff ≤ 10240 →
        heapEmpty (s.w.g.sched.heapQueues app) = true
          ∨ s.w.g.sched.currentDepths app = depths app)
      ∧ (∀ app, app < cfg.numApps →
        s.w.g.sched.currentDepths app = sfqd3Running s.outstanding app
          ∧ s.w.g.sched.currentDepths app ≤ depths app)
      ∧ ∀ a g₁ completeSize lastAppIndex item, s.Allowed cfg (.arrive a) →
        sfqd3Enqueue a.pool a.si a.pi s.w.g = .ok (g₁, true) →
        ∃ it g₂, Sfqd3Enqueued a.pool a.si s.w.g g₁ true it
          ∧ sfqd3Dequeue { event := .newIo, completeSize, lastAppIndex, item } g₁
            = .ok (g₂, some it) := by
  obtain ⟨hslots, hfull, hnum, hdep⟩ := Sfqd3Dispatching.run hm h
  have hbound : ∀ app, app < cfg.numApps → s.w.g.sched.currentDepths app ≤ depths app := by
    intro app happ
    have hle := hslots.bound app (hnum ▸ happ)
    have hone := hdepths app happ
    rw [hdep] at hle
    omega
  refine ⟨?_, ?_, ?_⟩
  · intro app happ hawake
    rw [heapEmpty_iff]
    rcases hfull app (hnum ▸ happ) hawake with hnil | hle
    · exact .inl hnil
    · right
      rw [hdep] at hle
      exact le_antisymm (hbound app happ) hle
  · intro app happ
    exact ⟨hslots.current app (hnum ▸ happ), hbound app happ⟩
  · intro a g₁ completeSize lastAppIndex item hok henq
    obtain ⟨it, hq⟩ := sfqd3Enqueue_ok henq
    obtain ⟨g₂, hnext, -⟩ :=
      sfqd3NewIo_next (r := ⟨.newIo, completeSize, lastAppIndex, item⟩) rfl hslots hfull
        (hnum.symm ▸ hok.1) hok.2 hq
    exact ⟨it, g₂, hq, hnext⟩

theorem sfqd3_right_request_example :
    ∃ s : Sfqd3Run, s.outstanding.length = 2 ∧ s.w.g.sched.currentDepths 0 = 1
      ∧ (1 : Int) = sfqd3Running s.outstanding 0 := by
  obtain ⟨s, hrun, hs⟩ := Machine.Run.exists_of_exec (Sfqd3Run.Allowed sfqd3Config)
    (Sfqd3Run.step sfqd3Config)
    (.init sfqd3Config 2 (fun _ => 1) (sampleWorld (sfqd3Init 2 2 fun _ => 1)))
    sfqd3Wakes (fun s => (s.outstanding.length, s.w.g.sched.currentDepths 0))
    (a := (2, 1)) (by decide +kernel)
  obtain ⟨hlength, hcurrent⟩ := Prod.mk.inj hs
  have hslots := (sfqd3_right_request rfl (by decide) hrun).2.1 0 (by decide)
  exact ⟨s, hlength, hcurrent, hcurrent.symm.trans hslots.1⟩

/-- **What can wait for good.** With nothing outstanding, only applications
that rest or have no slots at all have requests queued. -/
theorem sfqd3_unstuck (hm : cfg.method = schSfqd3 myShare)
    (h : Machine.Run (Sfqd3Run.Allowed cfg) (Sfqd3Run.step cfg)
      (Sfqd3Run.init cfg totalWeight depths w) es s) (hnone : s.outstanding = []) :
    ∀ app, app < cfg.numApps → 1 ≤ depths app → (s.w.g.appStats app).diff ≤ 10240 →
      heapEmpty (s.w.g.sched.heapQueues app) = true := by
  intro app happ hone hawake
  obtain ⟨hslots, hfull, hnum, hdep⟩ := Sfqd3Dispatching.run hm h
  have hcurrent := hslots.current app (hnum ▸ happ)
  have hzero : sfqd3Running s.outstanding app = 0 := by
    rw [hnone]
    rfl
  rw [heapEmpty_iff]
  rcases hfull app (hnum ▸ happ) hawake with hnil | hle
  · exact hnil
  · rw [hdep] at hle
    omega

theorem sfqd3_unstuck_example :
    ∃ s : Sfqd3Run, s.outstanding = [] ∧ heapEmpty (s.w.g.sched.heapQueues 0) = true := by
  obtain ⟨s, hrun, hs⟩ := Machine.Run.exists_of_exec (Sfqd3Run.Allowed sfqd3Config)
    (Sfqd3Run.step sfqd3Config)
    (.init sfqd3Config 2 (fun _ => 1) (sampleWorld (sfqd3Init 2 2 fun _ => 1)))
    [.arrive (sfqd3Write 0 0 4096),
      .complete (sfqd3WriteItem (sfqd3Write 0 0 4096) 0 4096 0 0) 4096]
    (fun s => (s.outstanding, decide ((s.w.g.appStats 0).diff ≤ 10240)))
    (a := ([], true)) (by decide +kernel)
  obtain ⟨hnone, hawake⟩ := Prod.mk.inj hs
  exact ⟨s, hnone, sfqd3_unstuck rfl hrun hnone 0 (by decide) (by decide)
    (of_decide_eq_true hawake)⟩

/-- A request waits with nothing outstanding: its application rests, has no
slots, or the start tag is `INT_MAX`. -/
theorem sfqd3_unstuck_fails :
    (∃ s, Machine.Run (Sfqd3Run.Allowed sfqd3Config) (Sfqd3Run.step sfqd3Config)
        (.init sfqd3Config 2 (fun _ => 1) (sampleWorld (sfqd3Init 2 2 fun _ => 1))) sfqd3Rests s
      ∧ (s.outstanding.isEmpty, heapEmpty (s.w.g.sched.heapQueues 0)) = (true, false))
    ∧ (∃ s, Machine.Run (Sfqd3Run.Allowed sfqd3Config) (Sfqd3Run.step sfqd3Config)
        (.init sfqd3Config 2 (fun _ => 0) (sampleWorld (sfqd3Init 2 2 fun _ => 0)))
        [.arrive (sfqd3Write 0 0 65536)] s
      ∧ (s.outstanding.isEmpty, heapEmpty (s.w.g.sched.heapQueues 0)) = (true, false))
    ∧ ∃ s, Machine.Run (fun _ _ => True) (Sfqd3Run.step sfqd3Config)
        (.init sfqd3Config 2 (fun _ => 2) (sampleWorld (sfqd3Init 2 2 fun _ => 2)))
        [.arrive (sfqd3Write 0 0 intMax), .arrive (sfqd3Write 0 1 65536),
          .complete (sfqd3WriteItem (sfqd3Write 0 0 intMax) 0 intMax 0 0) intMax] s
      ∧ (s.outstanding.isEmpty, heapEmpty (s.w.g.sched.heapQueues 0)) = (true, false) := by
  refine ⟨?_, ?_, ?_⟩
  · exact Machine.Run.exists_of_exec _ _ _ _
      (fun s : Sfqd3Run => (s.outstanding.isEmpty, heapEmpty (s.w.g.sched.heapQueues 0)))
      (by decide +kernel)
  · exact Machine.Run.exists_of_exec _ _ _ _
      (fun s : Sfqd3Run => (s.outstanding.isEmpty, heapEmpty (s.w.g.sched.heapQueues 0)))
      (by decide +kernel)
  · exact Machine.Run.exists_of_exec _ _ _ _
      (fun s : Sfqd3Run => (s.outstanding.isEmpty, heapEmpty (s.w.g.sched.heapQueues 0)))
      (by decide +kernel)

end runs

end PvfsProxy
