import PvfsProxy.HeapQueues
import PvfsProxy.Sfqd3Depths
import PvfsProxy.StripingRanges

/-!
# The order SFQD3 dispatches in

An application's heap holds its requests by start tag, then by number. A start tag is
the larger of the application's virtual time and of its last finish tag, both machine
integers: once the finish tag wraps, a request can be tagged below those that already
wait, and goes before them.

The requests of an application go in the order they came, now and later, for as long
as each of them meets only requests that compare below the tag and the number it gets
(`sfqd3_app_order`). They do while no tag and no number wraps (`unwrapped_order`).
-/

namespace PvfsProxy

/-- Start tag first, then number. -/
def Sfqd3QueueItem.key (it : Sfqd3Item) : Int ×ₗ Int :=
  HeapScheduler.sfqd3.key it

theorem sfqd3PacketCmp_iff (a b : Sfqd3Item) :
    sfqd3PacketCmp a b = true ↔ Sfqd3QueueItem.key a < Sfqd3QueueItem.key b :=
  HeapScheduler.sfqd3.packetCmp_iff a b

theorem sfqd3PacketCmp_eq_true {a b : Sfqd3Item} :
    sfqd3PacketCmp a b = true ↔ a.embedded.startTag < b.embedded.startTag
      ∨ a.embedded.startTag = b.embedded.startTag ∧ a.itemId < b.itemId := by
  rw [sfqd3PacketCmp_iff]
  exact Prod.Lex.toLex_lt_toLex

/-! ## The heaps -/

/-- The heaps are in order and hold their own requests. -/
structure Sfqd3Heaped (s : Sfqd3) : Prop where
  ordered : ∀ app, (s.heapQueues app).Ordered Sfqd3QueueItem.key
  own : ∀ app, ∀ it ∈ s.queued app, it.embedded.appIndex = app

/-- Neither tags nor numbers were given out, and the heaps stay in order. -/
structure Sfqd3Kept (s s' : Sfqd3) : Prop where
  lastFinishTags : s'.lastFinishTags = s.lastFinishTags
  itemId : s'.itemId = s.itemId
  ordered : ∀ app, (s'.heapQueues app).Ordered Sfqd3QueueItem.key

theorem Sfqd3Kept.trans {s s' s'' : Sfqd3} (h : Sfqd3Kept s s') (h' : Sfqd3Kept s' s'') :
    Sfqd3Kept s s'' :=
  ⟨h'.lastFinishTags.trans h.lastFinishTags, h'.itemId.trans h.itemId, h'.ordered⟩

section

variable {s s' : Sfqd3} {it : Sfqd3Item}

/-- The scan peeks at heaps. -/
theorem sfqd3OpenApp_kept {appStats : Nat → AppStatistics} {apps : List Nat} {smallest : Int}
    {openApp o : Option Nat} (ho : ∀ app, (s.heapQueues app).Ordered Sfqd3QueueItem.key)
    (h : sfqd3OpenApp appStats apps smallest openApp s = .ok (s', o)) : Sfqd3Kept s s' := by
  induction apps generalizing smallest openApp s with
  | nil =>
      obtain ⟨rfl, -⟩ := Prod.mk.inj (Except.ok.inj h)
      exact ⟨rfl, rfl, ho⟩
  | cons l apps ih =>
      rw [sfqd3OpenApp] at h
      split at h
      · exact ih ho h
      split at h
      · obtain ⟨hpeek, -⟩ := heapPeek_ordered sfqd3PacketCmp_iff (ho l)
        generalize heapPeek sfqd3PacketCmp (s.heapQueues l) = peeked at h hpeek
        obtain ⟨heapQueue, next⟩ := peeked
        have ho₁ : ∀ app, (Function.update s.heapQueues l heapQueue app).Ordered
            Sfqd3QueueItem.key := by
          intro app
          by_cases happ : app = l
          · subst happ
            rw [Function.update_self]
            exact hpeek
          · rw [Function.update_of_ne happ]
            exact ho app
        cases next with
        | none => cases h
        | some next =>
            dsimp only at h
            split at h
            · have hkept := ih ho₁ h
              exact ⟨hkept.lastFinishTags, hkept.itemId, hkept.ordered⟩
            · have hkept := ih ho₁ h
              exact ⟨hkept.lastFinishTags, hkept.itemId, hkept.ordered⟩
      · exact ih ho h

/-- Nothing leaves the queues, or the least of one of them does. -/
inductive Sfqd3Served (queued queued' : Nat → List Sfqd3Item) : Option Sfqd3Item → Prop where
  | none (hsame : ∀ app, (queued' app).Perm (queued app)) : Sfqd3Served queued queued' none
  | some {app : Nat} {it : Sfqd3Item} (hleft : (it :: queued' app).Perm (queued app))
      (hother : ∀ l, l ≠ app → (queued' l).Perm (queued l))
      (hleast : ∀ c ∈ queued app, Sfqd3QueueItem.key it ≤ Sfqd3QueueItem.key c) :
      Sfqd3Served queued queued' (some it)

theorem sfqd3Take_served {app : Nat} (ho : ∀ l, (s.heapQueues l).Ordered Sfqd3QueueItem.key)
    (h : sfqd3Take app s = .ok (s', it)) :
    Sfqd3Kept s s' ∧ Sfqd3Served s.queued s'.queued (some it) := by
  obtain ⟨⟨heapQueue, next⟩, htake, hs⟩ := Machine.bind_eq_ok.mp h
  obtain ⟨hordered, hleast⟩ := heapTake_ordered sfqd3PacketCmp_iff (ho app) htake
  obtain ⟨s₁, it₁, hok, hhanded⟩ := sfqd3Take_handed (List.ne_nil_of_mem (heapTake_mem htake))
  obtain ⟨rfl, rfl⟩ := Prod.mk.inj (Except.ok.inj (hok.symm.trans h))
  obtain ⟨rfl, rfl⟩ := Prod.mk.inj (Machine.pure_eq_ok.mp hs)
  refine ⟨⟨rfl, rfl, fun l => ?_⟩, .some hhanded.queued hhanded.queuedOther hleast⟩
  by_cases hl : l = app
  · subst hl
    simp only [Function.update_self]
    exact hordered
  · simp only [Function.update_of_ne hl]
    exact ho l

theorem Sfqd3Served.subset {queued queued' : Nat → List Sfqd3Item} {next : Option Sfqd3Item}
    (h : Sfqd3Served queued queued' next) (app : Nat) : queued' app ⊆ queued app := by
  cases h with
  | none hsame => exact (hsame app).subset
  | @some app' it hleft hother _ =>
      by_cases happ : app = app'
      · subst happ
        exact fun c hc => hleft.subset (List.mem_cons_of_mem _ hc)
      · exact (hother app happ).subset

/-- What is least after some peeks was least before. -/
theorem Sfqd3Served.after {queued queued' queued'' : Nat → List Sfqd3Item}
    {next : Option Sfqd3Item} (h : Sfqd3Served queued' queued'' next)
    (hp : ∀ app, (queued' app).Perm (queued app)) : Sfqd3Served queued queued'' next := by
  cases h with
  | none hsame => exact .none fun app => (hsame app).trans (hp app)
  | some hleft hother hleast =>
      exact .some (hleft.trans (hp _)) (fun l hl => (hother l hl).trans (hp l))
        fun c hc => hleast c ((hp _).symm.subset hc)

end

section

variable {g g' : Globals Sfqd3} {next : Option Sfqd3Item}

theorem sfqd3NextRequest_served (ho : ∀ l, (g.sched.heapQueues l).Ordered Sfqd3QueueItem.key)
    (h : sfqd3NextRequest g = .ok (g', next)) :
    Sfqd3Kept g.sched g'.sched ∧ Sfqd3Served g.sched.queued g'.sched.queued next := by
  unfold sfqd3NextRequest at h
  dsimp only at h
  split at h
  · obtain ⟨rfl, rfl⟩ := Prod.mk.inj (Machine.pure_eq_ok.mp h)
    exact ⟨⟨rfl, rfl, ho⟩, .none fun _ => .refl _⟩
  obtain ⟨⟨s, openApp⟩, hscan, h⟩ := Machine.bind_eq_ok.mp h
  have hkept := sfqd3OpenApp_kept ho hscan
  obtain ⟨s', o, hfound, hpeeked, -⟩ := sfqd3OpenApp_found g.appStats
    (List.range g.sched.numApps) intMax none g.sched
  obtain ⟨rfl, rfl⟩ := Prod.mk.inj (Except.ok.inj (hfound.symm.trans hscan))
  cases o with
  | none =>
      obtain ⟨rfl, rfl⟩ := Prod.mk.inj (Machine.pure_eq_ok.mp h)
      exact ⟨hkept, .none hpeeked.queued⟩
  | some app =>
      obtain ⟨⟨s₁, it⟩, htake, h⟩ := Machine.bind_eq_ok.mp h
      obtain ⟨rfl, rfl⟩ := Prod.mk.inj (Machine.pure_eq_ok.mp h)
      obtain ⟨hkept₁, hserved⟩ := sfqd3Take_served hkept.ordered htake
      exact ⟨hkept.trans hkept₁, hserved.after hpeeked.queued⟩

theorem sfqd3DiffChange_served {app : Nat}
    (ho : ∀ l, (g.sched.heapQueues l).Ordered Sfqd3QueueItem.key)
    (h : sfqd3DiffChange app g = .ok (g', next)) :
    Sfqd3Kept g.sched g'.sched ∧ Sfqd3Served g.sched.queued g'.sched.queued next := by
  have hsame : Sfqd3Kept g.sched g.sched ∧ Sfqd3Served g.sched.queued g.sched.queued none :=
    ⟨⟨rfl, rfl, ho⟩, .none fun _ => .refl _⟩
  unfold sfqd3DiffChange at h
  split at h
  · obtain ⟨rfl, rfl⟩ := Prod.mk.inj (Except.ok.inj h)
    exact hsame
  split at h
  · obtain ⟨⟨s₁, it⟩, htake, h⟩ := Machine.bind_eq_ok.mp h
    obtain ⟨rfl, rfl⟩ := Prod.mk.inj (Machine.pure_eq_ok.mp h)
    exact sfqd3Take_served ho htake
  · obtain ⟨rfl, rfl⟩ := Prod.mk.inj (Except.ok.inj h)
    exact hsame

/-- A dequeue gives no tags and takes the least of one queue at most. -/
theorem sfqd3Dequeue_served {r : DequeueReason Sfqd3QueueItem}
    (ho : ∀ l, (g.sched.heapQueues l).Ordered Sfqd3QueueItem.key)
    (h : sfqd3Dequeue r g = .ok (g', next)) :
    Sfqd3Kept g.sched g'.sched ∧ Sfqd3Served g.sched.queued g'.sched.queued next := by
  unfold sfqd3Dequeue sfqd3GetNextRequest at h
  dsimp only at h
  split at h
  · exact sfqd3DiffChange_served ho h
  · obtain ⟨hkept, hserved⟩ := sfqd3NextRequest_served (by exact ho) h
    exact ⟨⟨hkept.lastFinishTags, hkept.itemId, hkept.ordered⟩, hserved⟩
  · exact sfqd3NextRequest_served ho h
  · exact sfqd3NextRequest_served ho h

/-- An enqueue that returns gave the request the next tag and the next number. -/
theorem sfqd3Enqueue_inserts {pool : Nat → Endpoint} {si : SocketInfo} {pi : PvfsInfo} {b : Bool}
    (h : sfqd3Enqueue pool si pi g = .ok (g', b)) :
    ∃ app it, app = (pool si.requestSocket).appIndex ∧ it.embedded.appIndex = app
      ∧ it.embedded.startTag = g.sched.nextStart app ∧ it.itemId = g.sched.itemId
      ∧ g'.sched.heapQueues = Function.update g.sched.heapQueues app
        (heapInsert sfqd3PacketCmp (g.sched.heapQueues app) it)
      ∧ sfqd3FinishTag pi.currentDataSize (pool si.requestSocket).weight it.embedded.startTag
        = .ok (g'.sched.lastFinishTags app)
      ∧ (∀ l, l ≠ app → g'.sched.lastFinishTags l = g.sched.lastFinishTags l)
      ∧ g'.sched.itemId = toInt32 (g.sched.itemId + 1) := by
  obtain ⟨finishTag, hfinish, h⟩ := Machine.bind_eq_ok.mp h
  generalize hit : sfqd3NewItem pool si pi _ finishTag _ _ = it at h
  rw [Globals.modifyApp_sched] at h hit hfinish
  obtain ⟨rfl, -⟩ := Prod.mk.inj (Machine.pure_eq_ok.mp h)
  refine ⟨_, it, rfl, ?_, ?_, ?_, rfl, ?_, fun l hl => Function.update_of_ne hl .., rfl⟩
  · rw [← hit]
    rfl
  · rw [← hit]
    rfl
  · rw [← hit]
    rfl
  · have htag : it.embedded.startTag = g.sched.nextStart (pool si.requestSocket).appIndex := by
      rw [← hit]
      rfl
    show _ = Except.ok (Function.update g.sched.lastFinishTags _ finishTag _)
    rw [htag, Function.update_self]
    exact hfinish

end

/-! ## Calls -/

def sfqd3OfApp (app : Nat) (l : List Sfqd3Item) : List Sfqd3Item :=
  l.filter fun it => it.embedded.appIndex == app

theorem sfqd3OfApp_snoc (app : Nat) (l : List Sfqd3Item) (it : Sfqd3Item) :
    sfqd3OfApp app (l ++ [it])
      = sfqd3OfApp app l ++ if it.embedded.appIndex = app then [it] else [] := by
  unfold sfqd3OfApp
  rw [List.filter_append, List.filter_cons, List.filter_nil]
  simp only [beq_iff_eq]

/-- The scheduler, with the requests that came and those that went. -/
structure Sfqd3Calls where
  g : Globals Sfqd3
  enqueued : List Sfqd3Item
  dispatched : List Sfqd3Item

namespace Sfqd3Calls

inductive Call where
  | enqueue (pool : Nat → Endpoint) (si : SocketInfo) (pi : PvfsInfo)
  | dequeue (r : DequeueReason Sfqd3QueueItem)
  /-- the framework counts what it passed on -/
  | count (appStats : Nat → AppStatistics) (totalThroughput : Int)

def step (s : Sfqd3Calls) : Call → Except Fault Sfqd3Calls
  | .enqueue pool si pi => do
    let (g, _) ← sfqd3Enqueue pool si pi s.g
    let app := (pool si.requestSocket).appIndex
    return { s with
      g := g
      enqueued := s.enqueued ++ (g.sched.queued app).diff (s.g.sched.queued app) }
  | .dequeue r => do
    let (g, item) ← sfqd3Dequeue r s.g
    return { s with g := g, dispatched := s.dispatched ++ item.toList }
  | .count appStats totalThroughput =>
    .ok { s with g := { s.g with appStats, totalThroughput } }

def init (numApps : Nat) (totalWeight : Int) (depths : Nat → Int)
    (appStats : Nat → AppStatistics) : Sfqd3Calls where
  g := { sched := sfqd3Init numApps totalWeight depths, appStats, totalThroughput := 0 }
  enqueued := []
  dispatched := []

/-- A request of `app` meets only requests that compare below the tag and the number it
gets. -/
def Steady (app : Nat) (s : Sfqd3Calls) : Call → Prop
  | .enqueue pool si _ =>
    (pool si.requestSocket).appIndex = app → ∀ it ∈ s.g.sched.queued app,
      it.embedded.startTag < s.g.sched.nextStart app
        ∨ it.embedded.startTag = s.g.sched.nextStart app ∧ it.itemId < s.g.sched.itemId
  | .dequeue _ | .count .. => True

instance (app : Nat) (s : Sfqd3Calls) (c : Call) : Decidable (s.Steady app c) :=
  match c with
  | .enqueue .. => inferInstanceAs (Decidable (_ → ∀ it ∈ s.g.sched.queued app, _ ∨ _))
  | .dequeue _ | .count .. => inferInstanceAs (Decidable True)

/-- What an application has dispatched is what came first; the rest waits, and the heap
compares it in the order it came. -/
def InOrder (app : Nat) (s : Sfqd3Calls) : Prop :=
  ∃ rest, sfqd3OfApp app s.enqueued = sfqd3OfApp app s.dispatched ++ rest
    ∧ rest.Perm (s.g.sched.queued app)
    ∧ rest.Pairwise fun a b => sfqd3PacketCmp a b = true

variable {s t : Sfqd3Calls} {app : Nat}

theorem InOrder.first (h : s.InOrder app) :
    sfqd3OfApp app s.dispatched <+: sfqd3OfApp app s.enqueued := by
  obtain ⟨rest, hrest, -⟩ := h
  exact ⟨rest, hrest.symm⟩

theorem init_inOrder (app numApps : Nat) (totalWeight : Int) (depths : Nat → Int)
    (appStats : Nat → AppStatistics) : (init numApps totalWeight depths appStats).InOrder app :=
  ⟨[], rfl, (heapInit_values (α := Sfqd3Item)) ▸ .nil, .nil⟩

/-- What an enqueue does: one more request, with the next tag and the next number. -/
theorem enqueue_ok {pool : Nat → Endpoint} {si : SocketInfo} {pi : PvfsInfo}
    (h : s.step (.enqueue pool si pi) = .ok t) :
    ∃ it, it.embedded.appIndex = (pool si.requestSocket).appIndex
      ∧ it.embedded.startTag = s.g.sched.nextStart it.embedded.appIndex
      ∧ it.itemId = s.g.sched.itemId
      ∧ t.enqueued = s.enqueued ++ [it] ∧ t.dispatched = s.dispatched
      ∧ t.g.sched.heapQueues = Function.update s.g.sched.heapQueues it.embedded.appIndex
        (heapInsert sfqd3PacketCmp (s.g.sched.heapQueues it.embedded.appIndex) it)
      ∧ (t.g.sched.queued it.embedded.appIndex).Perm
        (it :: s.g.sched.queued it.embedded.appIndex)
      ∧ sfqd3FinishTag pi.currentDataSize (pool si.requestSocket).weight it.embedded.startTag
        = .ok (t.g.sched.lastFinishTags it.embedded.appIndex)
      ∧ (∀ l, l ≠ it.embedded.appIndex →
        t.g.sched.lastFinishTags l = s.g.sched.lastFinishTags l)
      ∧ t.g.sched.itemId = toInt32 (s.g.sched.itemId + 1) := by
  obtain ⟨⟨g, b⟩, henq, h⟩ := Machine.bind_eq_ok.mp h
  obtain rfl := Machine.pure_eq_ok.mp h
  obtain ⟨_, it, rfl, happ, hstart, hid, hheaps, hfinish, hother, hnext⟩ :=
    sfqd3Enqueue_inserts henq
  rw [← happ] at hstart hheaps hfinish hother
  have hperm : (g.sched.queued it.embedded.appIndex).Perm
      (it :: s.g.sched.queued it.embedded.appIndex) := by
    unfold Sfqd3.queued
    rw [hheaps, Function.update_self]
    exact heapInsert_values ..
  refine ⟨it, happ, hstart, hid, ?_, rfl, hheaps, hperm, hfinish, hother, hnext⟩
  dsimp only
  rw [← happ, diff_of_perm_cons hperm]

/-! ### The heaps -/

theorem heaped_step (h : Sfqd3Heaped s.g.sched) {c : Call} (hstep : s.step c = .ok t) :
    Sfqd3Heaped t.g.sched := by
  cases c with
  | enqueue pool si pi =>
      obtain ⟨it, -, -, -, -, -, hheaps, hperm, -⟩ := enqueue_ok hstep
      refine ⟨fun app => ?_, fun app => ?_⟩
      · rw [hheaps]
        by_cases happ : app = it.embedded.appIndex
        · subst happ
          rw [Function.update_self]
          exact heapInsert_ordered sfqd3PacketCmp_iff (h.ordered _) it
        · rw [Function.update_of_ne happ]
          exact h.ordered app
      · by_cases happ : app = it.embedded.appIndex
        · subst happ
          intro c hc
          rcases List.mem_cons.mp (hperm.subset hc) with rfl | hold
          · rfl
          · exact h.own _ c hold
        · unfold Sfqd3.queued
          rw [hheaps, Function.update_of_ne happ]
          exact h.own app
  | dequeue r =>
      obtain ⟨⟨g, item⟩, hdeq, hstep⟩ := Machine.bind_eq_ok.mp hstep
      obtain rfl := Machine.pure_eq_ok.mp hstep
      obtain ⟨hkept, hserved⟩ := sfqd3Dequeue_served h.ordered hdeq
      exact ⟨hkept.ordered, fun app it hit => h.own app it (hserved.subset app hit)⟩
  | count appStats totalThroughput =>
      obtain rfl := Except.ok.inj hstep
      exact ⟨h.ordered, h.own⟩

/-! ### The order -/

/-- A request keeps the order exactly if it meets none that compares above it. -/
theorem enqueue_inOrder {pool : Nat → Endpoint} {si : SocketInfo} {pi : PvfsInfo}
    (h : s.InOrder app) (hstep : s.step (.enqueue pool si pi) = .ok t) :
    t.InOrder app ↔ s.Steady app (.enqueue pool si pi) := by
  obtain ⟨rest, hrest, hqueued, hpairs⟩ := h
  obtain ⟨it, happ, hstart, hid, henq, hdisp, hheaps, hperm, -⟩ := enqueue_ok hstep
  change _ ↔ ((pool si.requestSocket).appIndex = app → ∀ c ∈ s.g.sched.queued app, _)
  unfold InOrder
  rw [henq, hdisp, sfqd3OfApp_snoc, hrest, List.append_assoc, ← happ]
  by_cases hsame : it.embedded.appIndex = app
  · subst hsame
    rw [if_pos rfl]
    have hbelow : (∀ c ∈ rest, sfqd3PacketCmp c it = true)
        ↔ ∀ c ∈ s.g.sched.queued it.embedded.appIndex,
          c.embedded.startTag < s.g.sched.nextStart it.embedded.appIndex
            ∨ c.embedded.startTag = s.g.sched.nextStart it.embedded.appIndex
              ∧ c.itemId < s.g.sched.itemId := by
      simp only [sfqd3PacketCmp_eq_true, hstart, hid, hqueued.mem_iff]
    refine Iff.trans ?_ ⟨fun h _ => hbelow.mp h, fun h => hbelow.mpr (h rfl)⟩
    constructor
    · rintro ⟨rest', hrest', -, hpairs'⟩
      obtain rfl := List.append_cancel_left hrest'
      exact fun c hc => (List.pairwise_append.mp hpairs').2.2 c hc it (List.mem_singleton_self it)
    · intro hlast
      refine ⟨rest ++ [it], rfl, ?_, List.pairwise_append.mpr ⟨hpairs, List.pairwise_singleton ..,
        fun c hc d hd => (List.mem_singleton.mp hd) ▸ hlast c hc⟩⟩
      exact (List.perm_append_singleton it rest).trans ((hqueued.cons it).trans hperm.symm)
  · rw [if_neg hsame, List.append_nil]
    refine ⟨fun _ hno => absurd hno hsame, fun _ => ⟨rest, rfl, ?_, hpairs⟩⟩
    unfold Sfqd3.queued at hqueued ⊢
    rw [hheaps, Function.update_of_ne (Ne.symm hsame)]
    exact hqueued

/-- The least of what waits is what came first. -/
theorem dequeue_inOrder {r : DequeueReason Sfqd3QueueItem} (hheaped : Sfqd3Heaped s.g.sched)
    (h : s.InOrder app) (hstep : s.step (.dequeue r) = .ok t) : t.InOrder app := by
  obtain ⟨⟨g, item⟩, hdeq, hstep⟩ := Machine.bind_eq_ok.mp hstep
  obtain rfl := Machine.pure_eq_ok.mp hstep
  obtain ⟨-, hserved⟩ := sfqd3Dequeue_served hheaped.ordered hdeq
  obtain ⟨rest, hrest, hqueued, hpairs⟩ := h
  unfold InOrder
  cases hserved with
  | none hsame =>
      rw [Option.toList_none, List.append_nil]
      exact ⟨rest, hrest, hqueued.trans (hsame app).symm, hpairs⟩
  | @some app' it hleft hother hleast =>
      have hown : it.embedded.appIndex = app' :=
        hheaped.own app' it (hleft.subset (List.mem_cons_self ..))
      rw [Option.toList_some, sfqd3OfApp_snoc, hown]
      by_cases hsame : app' = app
      · subst hsame
        rw [if_pos rfl]
        have hwaits := hqueued.trans hleft.symm
        cases rest with
        | nil => exact absurd hwaits.symm.eq_nil (List.cons_ne_nil _ _)
        | cons first rest =>
            -- what came first compares below all others, and `it` is the least
            have hfirst : it = first := by
              rcases List.mem_cons.mp (hwaits.symm.subset (List.mem_cons_self ..)) with heq | hmem
              · exact heq
              · have hless := (sfqd3PacketCmp_iff ..).mp ((List.pairwise_cons.mp hpairs).1 it hmem)
                exact absurd (hleast first (hqueued.subset (List.mem_cons_self ..))) hless.not_ge
            subst hfirst
            refine ⟨rest, ?_, (List.perm_cons it).mp hwaits, (List.pairwise_cons.mp hpairs).2⟩
            rw [hrest, List.append_assoc, List.singleton_append]
      · rw [if_neg hsame, List.append_nil]
        exact ⟨rest, hrest, hqueued.trans (hother app (Ne.symm hsame)).symm, hpairs⟩

/-- A call keeps the order exactly if it is steady. -/
theorem step_inOrder (hheaped : Sfqd3Heaped s.g.sched) (h : s.InOrder app) {c : Call}
    (hstep : s.step c = .ok t) : t.InOrder app ↔ s.Steady app c := by
  cases c with
  | enqueue pool si pi => exact enqueue_inOrder h hstep
  | dequeue r => exact iff_of_true (dequeue_inOrder hheaped h hstep) trivial
  | count appStats totalThroughput =>
      obtain rfl := Except.ok.inj hstep
      exact iff_of_true h trivial

/-! ### Runs -/

section

variable {numApps : Nat} {totalWeight : Int} {depths : Nat → Int} {appStats : Nat → AppStatistics}
  {cs : List Call}

theorem init_heaped : Sfqd3Heaped (init numApps totalWeight depths appStats).g.sched where
  ordered _ := heapInit_ordered _
  own app it hit := by
    unfold Sfqd3.queued at hit
    change it ∈ (heapInit : Heap Sfqd3Item).values at hit
    rw [heapInit_values] at hit
    cases hit

theorem run_heaped {ok : Sfqd3Calls → Call → Prop}
    (hrun : Machine.Run ok step (init numApps totalWeight depths appStats) cs s) :
    Sfqd3Heaped s.g.sched :=
  hrun.invariant init_heaped fun _ _ _ h _ hstep => heaped_step h hstep

theorem run_inOrder
    (hrun : Machine.Run (Steady app) step (init numApps totalWeight depths appStats) cs s) :
    s.InOrder app := by
  have hboth : Sfqd3Heaped s.g.sched ∧ s.InOrder app := by
    refine hrun.invariant (P := fun s => Sfqd3Heaped s.g.sched ∧ s.InOrder app)
      ⟨init_heaped, init_inOrder ..⟩ fun _ _ _ h hok hstep => ?_
    exact ⟨heaped_step h.1 hstep, (step_inOrder h.1 h.2 hstep).mpr hok⟩
  exact hboth.2

/-- **The order of an application.** In every state a run passes through, the requests
of the application that went are the first of those that came, and those that wait go
in the order they came, if and only if each met only requests that compare below it. -/
theorem sfqd3_app_order
    (hrun : Machine.Run (fun _ _ => True) step (init numApps totalWeight depths appStats) cs s) :
    (∀ cs₁ cs₂ t, cs₁ ++ cs₂ = cs →
        Machine.Run (fun _ _ => True) step (init numApps totalWeight depths appStats) cs₁ t →
        t.InOrder app)
      ↔ Machine.Run (Steady app) step (init numApps totalWeight depths appStats) cs s := by
  constructor
  · intro hall
    induction hrun with
    | nil => exact .nil
    | @snoc cs t u c hrun _ hstep ih =>
        have hprev := ih fun cs₁ cs₂ v heq hv =>
          hall cs₁ (cs₂ ++ [c]) v (by rw [← heq, List.append_assoc]) hv
        have horder := hall (cs ++ [c]) [] u (List.append_nil _) (hrun.snoc trivial hstep)
        exact hprev.snoc ((step_inOrder (run_heaped hprev) (run_inOrder hprev) hstep).mp horder)
          hstep
  · rintro hsteady cs₁ cs₂ t rfl ht
    obtain ⟨u, hu, -⟩ := hsteady.split
    obtain rfl := ht.unique hu
    exact run_inOrder hu

end

/-! ### While nothing wraps -/

/-- The request's cost is not negative, and neither its finish tag nor its number wraps. -/
def Unwrapped (s : Sfqd3Calls) : Call → Prop
  | .enqueue pool si pi =>
    let cost := pi.currentDataSize.tdiv (pool si.requestSocket).weight
    0 ≤ cost ∧ s.g.sched.nextStart (pool si.requestSocket).appIndex + cost ≤ intMax
      ∧ s.g.sched.itemId < intMax
  | .dequeue _ | .count .. => True

/-- The last finish tags are ahead of what is queued. -/
structure Ahead (s : Sfqd3) : Prop where
  finish : ∀ app, 0 ≤ s.lastFinishTags app
  number : 0 ≤ s.itemId
  queued : ∀ app, ∀ it ∈ s.queued app,
    it.embedded.startTag ≤ s.lastFinishTags app ∧ it.itemId < s.itemId

theorem Ahead.steady (h : Ahead s.g.sched) (app : Nat) (c : Call) : s.Steady app c := by
  cases c with
  | enqueue pool si pi =>
      intro happ it hit
      obtain ⟨htag, hid⟩ := h.queued app it hit
      have hnext : s.g.sched.lastFinishTags app ≤ s.g.sched.nextStart app := le_max_right ..
      rcases lt_or_eq_of_le (htag.trans hnext) with hless | hsame
      · exact .inl hless
      · exact .inr ⟨hsame, hid⟩
  | dequeue r => exact trivial
  | count appStats totalThroughput => exact trivial

theorem Ahead.step (hheaped : Sfqd3Heaped s.g.sched) (h : Ahead s.g.sched) {c : Call}
    (hok : s.Unwrapped c) (hstep : s.step c = .ok t) : Ahead t.g.sched := by
  cases c with
  | enqueue pool si pi =>
      obtain ⟨hcost, hfits, hnumber⟩ := hok
      obtain ⟨it, happ, hstart, hid, -, -, hheaps, hperm, hfinish, hother, hnext⟩ :=
        enqueue_ok hstep
      rw [← happ] at hfits
      have hzero := h.finish it.embedded.appIndex
      have hlast : s.g.sched.lastFinishTags it.embedded.appIndex
          ≤ s.g.sched.nextStart it.embedded.appIndex := le_max_right ..
      have hnext' : t.g.sched.itemId = s.g.sched.itemId + 1 := by
        have := h.number
        rw [hnext, toInt32_of_fits (by omega) (by unfold intMax at hnumber; omega)]
      have htag : t.g.sched.lastFinishTags it.embedded.appIndex
          = it.embedded.startTag + pi.currentDataSize.tdiv (pool si.requestSocket).weight := by
        unfold sfqd3FinishTag at hfinish
        split at hfinish
        · cases hfinish
        · unfold intMax at hfits
          rw [← Except.ok.inj hfinish, toInt32_of_fits (by omega) (by omega)]
      refine ⟨fun app => ?_, ?_, fun app c hc => ?_⟩
      · by_cases hsame : app = it.embedded.appIndex
        · subst hsame
          omega
        · rw [hother app hsame]
          exact h.finish app
      · have := h.number
        omega
      · by_cases hsame : app = it.embedded.appIndex
        · subst hsame
          rcases List.mem_cons.mp (hperm.subset hc) with rfl | hold
          · omega
          · have hbelow := h.queued _ c hold
            omega
        · rw [hother app hsame, hnext']
          unfold Sfqd3.queued at hc
          rw [hheaps, Function.update_of_ne hsame] at hc
          have hbelow := h.queued app c hc
          omega
  | dequeue r =>
      obtain ⟨⟨g, item⟩, hdeq, hstep⟩ := Machine.bind_eq_ok.mp hstep
      obtain rfl := Machine.pure_eq_ok.mp hstep
      obtain ⟨hkept, hserved⟩ := sfqd3Dequeue_served hheaped.ordered hdeq
      refine ⟨?_, ?_, fun app c hc => ?_⟩
      · rw [hkept.lastFinishTags]
        exact h.finish
      · rw [hkept.itemId]
        exact h.number
      · rw [hkept.lastFinishTags, hkept.itemId]
        exact h.queued app c (hserved.subset app hc)
  | count appStats totalThroughput =>
      obtain rfl := Except.ok.inj hstep
      exact ⟨h.finish, h.number, h.queued⟩

/-- While tags and numbers fit, every application is served in order. -/
theorem unwrapped_order {numApps : Nat} {totalWeight : Int} {depths : Nat → Int}
    {appStats : Nat → AppStatistics} {cs : List Call}
    (hrun : Machine.Run Unwrapped step (init numApps totalWeight depths appStats) cs s)
    (app : Nat) : s.InOrder app := by
  refine (hrun.invariant (P := fun s => (Sfqd3Heaped s.g.sched ∧ Ahead s.g.sched) ∧ s.InOrder app)
    ⟨⟨init_heaped, ?_, ?_, ?_⟩, init_inOrder ..⟩ fun s c t h hok hstep => ?_).2
  · exact fun _ => le_refl _
  · exact le_refl _
  · intro app it hit
    have hempty : it ∈ (heapInit : Heap Sfqd3Item).values := hit
    rw [heapInit_values] at hempty
    cases hempty
  · obtain ⟨⟨hheaped, hahead⟩, horder⟩ := h
    exact ⟨⟨heaped_step hheaped hstep, hahead.step hheaped hok hstep⟩,
      (step_inOrder hheaped horder hstep).mpr (hahead.steady app c)⟩

/-! ### Requests of 1 GB -/

/-- A request of application 0, of weight 1. -/
def bigRequest : Call :=
  .enqueue (sfqd3Write 0 0 1073741824).pool (sfqd3Write 0 0 1073741824).si
    (sfqd3Write 0 0 1073741824).pi

/-- The slot of a request of application 0 is given back. -/
def bigCompletes : Call :=
  .dequeue { event := .completeIo, completeSize := 1073741824, lastAppIndex := 0, item := none }

/-- The dequeue after an enqueue that returns 1. -/
def bigGoes : Call :=
  .dequeue { event := .newIo, completeSize := 1073741824, lastAppIndex := 0, item := none }

def Weighted (_ : Sfqd3Calls) : Call → Prop
  | .enqueue pool si _ => 1 ≤ (pool si.requestSocket).weight
  | .dequeue _ | .count .. => True

instance (s : Sfqd3Calls) (c : Call) : Decidable (s.Weighted c) :=
  match c with
  | .enqueue pool si _ => inferInstanceAs (Decidable (1 ≤ (pool si.requestSocket).weight))
  | .dequeue _ | .count .. => inferInstanceAs (Decidable True)

/-- On one slot: the finish tag of the second request wraps, the third is tagged 0 and goes
before it. -/
theorem sfqd3_app_order_fails :
    ¬ ∀ (numApps : Nat) (totalWeight : Int) (depths : Nat → Int) (appStats : Nat → AppStatistics)
        (cs : List Call) (s : Sfqd3Calls) (app : Nat),
        Machine.Run Weighted step (init numApps totalWeight depths appStats) cs s →
        sfqd3OfApp app s.dispatched <+: sfqd3OfApp app s.enqueued := by
  intro hall
  obtain ⟨s, hrun, hs⟩ := Machine.Run.exists_of_exec Weighted step
    (init 1 1 (fun _ => 1) fun _ => { appWeight := 1 })
    [bigRequest, bigGoes, bigRequest, bigRequest, bigCompletes]
    (fun s => ((sfqd3OfApp 0 s.enqueued).map (·.itemId),
      (sfqd3OfApp 0 s.dispatched).map (·.itemId)))
    (a := ([0, 1, 2], [0, 2])) (by decide +kernel)
  obtain ⟨henq, hdisp⟩ := Prod.mk.inj hs
  have hfirst := (hall 1 1 _ _ _ s 0 hrun).map (·.itemId)
  rw [henq, hdisp] at hfirst
  exact absurd hfirst (by decide)

/-- With the first two only, they go in the order they came. -/
theorem sfqd3_app_order_example :
    ∃ s : Sfqd3Calls, s.dispatched.map (·.itemId) = [0, 1] ∧ s.InOrder 0 := by
  obtain ⟨s, hrun, hs⟩ := Machine.Run.exists_of_exec (Steady 0) step
    (init 1 1 (fun _ => 1) fun _ => { appWeight := 1 })
    [bigRequest, bigGoes, bigRequest, bigCompletes]
    (fun s => s.dispatched.map (·.itemId)) (a := [0, 1]) (by decide +kernel)
  have hany : Machine.Run (fun _ _ => True) step _ _ s := hrun.mono fun _ _ _ => trivial
  exact ⟨s, hs, (sfqd3_app_order hany).mpr hrun _ [] s (List.append_nil _) hany⟩

end Sfqd3Calls

/-! ## The framework's runs -/

namespace Sfqd3Run

/-- Some calls lead from `g` to `g'`, whatever came and went before. -/
def CallsTo (g g' : Globals Sfqd3) : Prop :=
  ∀ c : Sfqd3Calls, c.g = g →
    ∃ cs c', Machine.Run (fun _ _ => True) Sfqd3Calls.step c cs c' ∧ c'.g = g'

theorem CallsTo.trans {g g' g'' : Globals Sfqd3} (h : CallsTo g g') (h' : CallsTo g' g'') :
    CallsTo g g'' := by
  intro c hc
  obtain ⟨cs, c', hrun, hc'⟩ := h c hc
  obtain ⟨cs', c'', hrun', hc''⟩ := h' c' hc'
  exact ⟨cs ++ cs', c'', hrun.append hrun', hc''⟩

theorem CallsTo.refl (g : Globals Sfqd3) : CallsTo g g :=
  fun c hc => ⟨[], c, .nil, hc⟩

theorem callsTo_dequeue {r : DequeueReason Sfqd3QueueItem} {g g' : Globals Sfqd3}
    {next : Option Sfqd3Item} (h : sfqd3Dequeue r g = .ok (g', next)) : CallsTo g g' := by
  rintro c rfl
  have hstep : c.step (.dequeue r)
      = .ok { c with g := g', dispatched := c.dispatched ++ next.toList } :=
    Machine.bind_eq_ok.mpr ⟨_, h, rfl⟩
  exact ⟨_, _, .single trivial hstep, rfl⟩

theorem callsTo_enqueue {pool : Nat → Endpoint} {si : SocketInfo} {pi : PvfsInfo}
    {g g' : Globals Sfqd3} {b : Bool} (h : sfqd3Enqueue pool si pi g = .ok (g', b)) :
    CallsTo g g' := by
  rintro c rfl
  have hstep : ∃ c', c.step (.enqueue pool si pi) = .ok c' ∧ c'.g = g' :=
    ⟨_, Machine.bind_eq_ok.mpr ⟨_, h, rfl⟩, rfl⟩
  obtain ⟨c', hc', hg⟩ := hstep
  exact ⟨_, c', .single trivial hc', hg⟩

theorem callsTo_count {g g' : Globals Sfqd3} (h : g'.sched = g.sched) : CallsTo g g' := by
  rintro c rfl
  have hg : ({ c.g with appStats := g'.appStats, totalThroughput := g'.totalThroughput } :
      Globals Sfqd3) = g' := by
    show Globals.mk c.g.sched _ _ = g'
    rw [← h]
  exact ⟨[.count g'.appStats g'.totalThroughput], _, .single trivial rfl, hg⟩

variable {cfg : Config Sfqd3 Sfqd3QueueItem} {myShare : Int → Int → Int → Int → Int → Int}
  {s t : Sfqd3Run} {asserts : Bool}

theorem drain_callsTo (hm : cfg.method = schSfqd3 myShare) {r : DequeueReason Sfqd3QueueItem}
    {bound : Nat} (h : s.drain cfg asserts r bound = .ok t) : CallsTo s.w.g t.w.g := by
  induction bound generalizing s with
  | zero => cases h
  | succ bound ih =>
      obtain ⟨⟨s₁, next⟩, hrelease, h⟩ := Machine.bind_eq_ok.mp h
      obtain ⟨hdeq, -⟩ := Sfqd3Dispatching.release_ok hm hrelease
      have hcalls := callsTo_dequeue hdeq
      cases next with
      | none =>
          obtain rfl := Machine.pure_eq_ok.mp h
          exact hcalls
      | some it => exact hcalls.trans (ih h)

theorem updateDiffs_callsTo (hm : cfg.method = schSfqd3 myShare) {item : Option Sfqd3Item}
    {apps : List Nat} (h : s.updateDiffs cfg asserts item apps = .ok t) :
    CallsTo s.w.g t.w.g := by
  induction apps generalizing s with
  | nil =>
      obtain rfl := Except.ok.inj h
      exact .refl _
  | cons l apps ih =>
      unfold updateDiffs at h
      dsimp only at h
      generalize hg : s.w.g.modifyApp l _ = g at h
      have hcount : CallsTo s.w.g g := callsTo_count (by rw [← hg]; rfl)
      refine hcount.trans ?_
      split at h
      · obtain ⟨s₁, hdrained, h⟩ := Machine.bind_eq_ok.mp h
        have hdrain := drain_callsTo hm hdrained
        exact hdrain.trans (ih h)
      · obtain ⟨s₁, hawake, h⟩ := Machine.bind_eq_ok.mp h
        obtain rfl := Machine.pure_eq_ok.mp hawake
        exact ih h

theorem step_callsTo (hm : cfg.method = schSfqd3 myShare) {e : Event}
    (h : s.step cfg e = .ok t) : CallsTo s.w.g t.w.g := by
  cases e with
  | arrive a =>
      obtain ⟨⟨g, mem, item⟩, hadmit, h⟩ := Machine.bind_eq_ok.mp h
      obtain rfl := Machine.pure_eq_ok.mp h
      rw [hm] at hadmit
      obtain ⟨out, hout, hcases⟩ := admitRequest_ok (m := schSfqd3 myShare) rfl hadmit
      obtain ⟨⟨g₁, b⟩, henq, hout⟩ := Machine.bind_eq_ok.mp hout
      obtain rfl := Machine.pure_eq_ok.mp hout
      rcases hcases with ⟨-, deq, hdeq, rfl, -⟩ | ⟨-, rfl, -⟩
      · obtain ⟨⟨g₂, next⟩, hnext, hdeq⟩ := Machine.bind_eq_ok.mp hdeq
        obtain rfl := Machine.pure_eq_ok.mp hdeq
        exact (callsTo_enqueue henq).trans (callsTo_dequeue hnext)
      · exact callsTo_enqueue henq
  | complete it completeSize =>
      obtain ⟨⟨s₁, next⟩, hrelease, h⟩ := Machine.bind_eq_ok.mp h
      obtain rfl := Machine.pure_eq_ok.mp h
      exact callsTo_dequeue (Sfqd3Dispatching.release_ok hm hrelease).1
  | count asserts amount app item =>
      have hupdates := updateDiffs_callsTo hm (show updateDiffs cfg asserts item _ _ = .ok t from h)
      exact CallsTo.trans (callsTo_count (by rfl)) hupdates

/-- What the framework does to the scheduler are calls of it. -/
theorem exists_calls (hm : cfg.method = schSfqd3 myShare) {totalWeight : Int}
    {depths : Nat → Int} {w : World Sfqd3 Sfqd3QueueItem} {es : List Event}
    (h : Machine.Run (Allowed cfg) (step cfg) (init cfg totalWeight depths w) es s) :
    ∃ cs c, Machine.Run (fun _ _ => True) Sfqd3Calls.step
      (.init cfg.numApps totalWeight depths w.g.appStats) cs c ∧ c.g = s.w.g := by
  let c := Sfqd3Calls.init cfg.numApps totalWeight depths w.g.appStats
  have hcalls : CallsTo c.g s.w.g :=
    h.invariant (P := fun s => CallsTo c.g s.w.g) (callsTo_count rfl) fun _ _ _ hs _ hstep =>
      hs.trans (step_callsTo hm hstep)
  exact hcalls c rfl

end Sfqd3Run

end PvfsProxy
