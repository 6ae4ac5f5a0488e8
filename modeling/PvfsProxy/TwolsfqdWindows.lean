import PvfsProxy.TwolsfqdDeadlines

/-!
# The window controller of 2LSFQD

At the end of a time window `twolsfqd_time_window` bounds the load of the next
one from below and from above. An application whose threshold is infinite is
overloaded: either the lower bound shows that the load falls or the upper bound
shows that it does not, and the proxy exits where neither does. The bounds are
made of two counters that are raised when an item enters the EDF queue, lowered
when it leaves and raised again when it completes, as long as that is the window
it entered in, the second counter only for items that are due in it. The lower
bound is never above the upper one (`Twolsfqd.Metered`).
-/

namespace PvfsProxy

/-! ## The decision -/

/-- The loop of `twolsfqd_time_window` over the EDF queue: how many items are due
in the next window. -/
def twolsfqdWindowCount (s : Twolsfqd) : List TwolsfqdItem → Nat → Nat
  | [], itemCount => itemCount
  | item :: queue, itemCount =>
    let deadline := (s.marks item.itemId).deadline
    if deadline.lt s.currentTimeWindowEnd then twolsfqdWindowCount s queue itemCount
    else if deadline.lt s.nextTimeWindowEnd then twolsfqdWindowCount s queue (itemCount + 1)
    else itemCount

namespace Twolsfqd

/-- `next_timewindow_X_lower_length` -/
def nextLowerLength (s : Twolsfqd) : Int :=
  s.timewindowCurrentQueueLength + twolsfqdWindowCount s s.edf 0 + s.timewindowArrivalDeadline

/-- `next_timewindow_X_upper_length` -/
def nextUpperLength (s : Twolsfqd) : Int :=
  s.timewindowCurrentQueueLength + s.edfQueueLength + s.timewindowArrival

/-- `timewindow_ttl_completed`, which the controller sets to 1 where it is 0. -/
def ttlCompleted (s : Twolsfqd) : Int :=
  if s.timewindowTtlCompleted = 0 then 1 else s.timewindowTtlCompleted

/-- The condition of case 5; the product with 0.9 is exact. -/
def LoadFalls (s : Twolsfqd) : Prop :=
  s.nextLowerLength * 10 < max (s.ttlCompleted * 9) 10

def LoadStays (s : Twolsfqd) : Prop :=
  s.nextUpperLength * 10 ≥ s.ttlCompleted * 9

instance (s : Twolsfqd) : Decidable s.LoadFalls := inferInstanceAs (Decidable (_ < _))

instance (s : Twolsfqd) : Decidable s.LoadStays := inferInstanceAs (Decidable (_ ≥ _))

end Twolsfqd

/-- The overloaded case of `twolsfqd_time_window`; tells whether the next window
is overloaded too. -/
def twolsfqdOverloadedCase (s : Twolsfqd) : Except Fault Bool :=
  if s.LoadFalls then .ok false
  else if s.LoadStays then .ok true
  else .error (.exit (-4))

/-- The case is passed over where no application is in it. -/
def twolsfqdOverload (reached : Bool) (s : Twolsfqd) : Except Fault Bool :=
  if reached then twolsfqdOverloadedCase s else .ok true

/-- A turn of `twolsfqd_time_window`. Which applications are in the overloaded
case (`reached` if any is), the new threshold and what the others make of
`overload` are computed in floating point. -/
def twolsfqdWindowTurn (clock : Nat → Timeval) (width : Timeval) (reached : Bool)
    (threshold : Int) (overload : Bool) (g : Globals Twolsfqd) : Except Fault TwolsfqdCall := do
  let stays ← twolsfqdOverload reached g.sched
  twolsfqdTimeWindow clock width threshold (overload && stays) g

theorem twolsfqdWindowCount_le (s : Twolsfqd) (queue : List TwolsfqdItem) (itemCount : Nat) :
    twolsfqdWindowCount s queue itemCount ≤ itemCount + queue.length := by
  induction queue generalizing itemCount with
  | nil => exact le_refl _
  | cons item queue ih =>
      unfold twolsfqdWindowCount
      rw [List.length_cons]
      dsimp only
      split
      · exact (ih itemCount).trans (by omega)
      · split
        · exact (ih (itemCount + 1)).trans (by omega)
        · omega

/-! ## Runs -/

namespace TwolsfqdCalls

inductive Event where
  | enqueue (pool : Nat → Endpoint) (si : SocketInfo) (pi : PvfsInfo)
  | dequeue (r : DequeueReason TwolsfqdQueueItem)
  | complete (complete : CompleteMessage TwolsfqdQueueItem)
  | currentSize (currentItem : Option TwolsfqdItem) (actualDataFileSize : Int)
  | replenish
  | window (reached : Bool) (threshold : Int) (overload : Bool)

variable (clock : Nat → Timeval) (myShare : Int → Int → Int → Int → Int → Int) (width : Timeval)

/-- The hooks, with any arguments, and the turns of the two threads. -/
def step (g : Globals Twolsfqd) : Event → Except Fault (Globals Twolsfqd)
  | .enqueue pool si pi => do
    let result ← twolsfqdEnqueue clock pool si pi g
    return result.globals
  | .dequeue r => do
    let (c, _) ← twolsfqdDequeue clock r g
    return c.g
  | .complete complete => do
    let result ← twolsfqdEdfComplete clock complete g
    return result.globals
  | .currentSize currentItem actualDataFileSize => do
    let (item, _) ← twolsfqdCurrentSize myShare currentItem actualDataFileSize
    return { g with sched := g.sched.writeSize item }
  | .replenish => do
    let c ← twolsfqdTimeReplenish clock g
    return c.g
  | .window reached threshold overload => do
    let c ← twolsfqdWindowTurn clock width reached threshold overload g
    return c.g

/-- A request belongs to one of the applications. -/
def Allowed (g : Globals Twolsfqd) : Event → Prop
  | .enqueue pool si _ => (pool si.requestSocket).appIndex < g.sched.numApps
  | _ => True

instance (g : Globals Twolsfqd) (e : Event) : Decidable (Allowed g e) :=
  match e with
  | .enqueue _ _ _ => inferInstanceAs (Decidable (_ < _))
  | .dequeue _ => inferInstanceAs (Decidable True)
  | .complete _ => inferInstanceAs (Decidable True)
  | .currentSize _ _ => inferInstanceAs (Decidable True)
  | .replenish => inferInstanceAs (Decidable True)
  | .window _ _ _ => inferInstanceAs (Decidable True)

end TwolsfqdCalls

/-! ## The invariant -/

namespace Twolsfqd

/-- The requests that wait and those in the EDF queue. -/
def queuedIds (s : Twolsfqd) : List Int := (s.waiting ++ s.edf).map (·.itemId)

/-- An item of the current window that is not counted as due in it. -/
def arrivedUndue (s : Twolsfqd) (item : TwolsfqdItem) : Bool :=
  s.arrived item && !(s.marks item.itemId).deadlineInCurrentTimewindow

theorem countP_arrived (s : Twolsfqd) (l : List TwolsfqdItem) :
    l.countP s.arrived = l.countP s.arrivedDue + l.countP s.arrivedUndue := by
  induction l with
  | nil => rfl
  | cons item l ih =>
      have hitem : s.arrived item = true ∧ (s.arrivedDue item = true ∧ s.arrivedUndue item = false
            ∨ s.arrivedDue item = false ∧ s.arrivedUndue item = true)
          ∨ s.arrived item = false ∧ s.arrivedDue item = false ∧ s.arrivedUndue item = false := by
        unfold arrivedDue arrivedUndue
        cases s.arrived item with
        | false => simp
        | true => cases (s.marks item.itemId).deadlineInCurrentTimewindow <;> simp
      simp only [List.countP_cons]
      rcases hitem with ⟨h, ⟨h₁, h₂⟩ | ⟨h₁, h₂⟩⟩ | ⟨h, h₁, h₂⟩ <;> simp [h, h₁, h₂] <;> omega

/-- The window counts the same. -/
structure SameWindow (s s' : Twolsfqd) : Prop where
  timewindowId : s'.timewindowId = s.timewindowId
  arrival : s'.timewindowArrival = s.timewindowArrival
  arrivalDeadline : s'.timewindowArrivalDeadline = s.timewindowArrivalDeadline
  queueLength : s'.edfQueueLength = s.edfQueueLength
  marks : ∀ id, (s'.marks id).timewindow = (s.marks id).timewindow
    ∧ (s'.marks id).deadlineInCurrentTimewindow = (s.marks id).deadlineInCurrentTimewindow

theorem arrivedUndue_congr {s s' : Twolsfqd} (hid : s'.timewindowId = s.timewindowId)
    {a b : TwolsfqdItem} (hab : a.itemId = b.itemId)
    (hmarks : (s'.marks a.itemId).timewindow = (s.marks a.itemId).timewindow
      ∧ (s'.marks a.itemId).deadlineInCurrentTimewindow
        = (s.marks a.itemId).deadlineInCurrentTimewindow) :
    s'.arrivedUndue a = s.arrivedUndue b := by
  unfold arrivedUndue arrived
  rw [hmarks.1, hmarks.2, hid, hab]

/-- The counters are right: the queue is as long as was counted,
and more has arrived than is due, by at least what is in the queue and not due. -/
structure Metered (s : Twolsfqd) : Prop extends s.Formed where
  lists : ∀ app, (s.sarcCreditList app).isSome = true
  ids : s.queuedIds.Nodup
  known : ∀ id ∈ s.queuedIds, id < s.itemId
  entered : ∀ x ∈ s.edf, (s.marks x.itemId).timewindow ≤ s.timewindowId
  queueLength : s.edfQueueLength = s.edf.length
  arrivals : s.timewindowArrivalDeadline + s.edf.countP s.arrivedUndue ≤ s.timewindowArrival

end Twolsfqd

section parts

variable {clock : Nat → Timeval} {app : Nat} {item : TwolsfqdItem}
  {released kept : List TwolsfqdItem} {c c' : TwolsfqdCall}

/-- Nothing but what is released is missing after a move. -/
theorem TwolsfqdMoved.queuedIds (h : TwolsfqdMoved clock app item released kept c c') :
    (released.map (·.itemId) ++ c'.sched.queuedIds).Perm c.sched.queuedIds := by
  unfold Twolsfqd.queuedIds
  rw [← List.map_append, Twolsfqd.edf_eq h.queue]
  refine List.Perm.map _ ?_
  have hwaiting := h.waiting
  have hedf := h.edf_perm
  rw [List.perm_iff_count] at hwaiting hedf ⊢
  intro a
  have h₁ := hwaiting a
  have h₂ := hedf a
  simp only [List.count_append, List.count_cons, List.count_nil] at h₁ h₂ ⊢
  omega

/-- The request that moves is none of those in the EDF queue. -/
theorem TwolsfqdMoved.apart_of_ids (h : TwolsfqdMoved clock app item released kept c c')
    (hids : c.sched.queuedIds.Nodup) : ∀ x ∈ c.sched.edf, x.itemId ≠ item.itemId := by
  unfold Twolsfqd.queuedIds at hids
  rw [List.map_append] at hids
  have hitem := h.waiting.symm.subset (List.mem_cons_self ..)
  intro x hx heq
  exact (List.nodup_append.mp hids).2.2 item.itemId (List.mem_map_of_mem hitem) x.itemId
    (List.mem_map_of_mem hx) heq.symm

/-- **A move is counted as an arrival, and what is released no longer is.** -/
theorem Twolsfqd.Metered.move (hs : c.sched.Metered)
    (h : TwolsfqdMoved clock app item released kept c c') : c'.sched.Metered := by
  have hperm := h.queuedIds
  have hapart := h.apart_of_ids hs.ids
  have hedf := h.edf_perm
  have hkept : c'.sched.edf = kept := Twolsfqd.edf_eq h.queue
  have hold : ∀ x ∈ c.sched.edf,
      (c'.sched.marks x.itemId).timewindow = (c.sched.marks x.itemId).timewindow
        ∧ (c'.sched.marks x.itemId).deadlineInCurrentTimewindow
          = (c.sched.marks x.itemId).deadlineInCurrentTimewindow := by
    intro x hx
    rw [h.counted.timewindow, h.counted.due, if_neg (hapart x hx),
      decide_eq_false (hapart x hx), Bool.false_and, Bool.or_false]
    exact ⟨rfl, rfl⟩
  refine { toFormed := h.formed, lists := h.lists_isSome hs.lists, ids := ?_, known := ?_
           entered := ?_, queueLength := ?_, arrivals := ?_ }
  · exact (List.nodup_append.mp (hperm.nodup_iff.mpr hs.ids)).2.1
  · intro id hid
    rw [h.config.itemId]
    exact hs.known id (hperm.subset (List.mem_append_right _ hid))
  · intro x hx
    rw [hkept] at hx
    rw [h.config.timewindowId]
    rcases List.mem_append.mp (hedf.subset (List.mem_append_right _ hx)) with hx | hx
    · rw [(hold x hx).1]
      exact hs.entered x hx
    · obtain rfl := List.mem_singleton.mp hx
      rw [h.counted.timewindow, if_pos rfl]
  · have hlength := hedf.length_eq
    rw [List.length_append, List.length_append, List.length_singleton] at hlength
    rw [h.queueLength, hs.queueLength, hkept]
    omega
  · -- both counters lose what is released, and the item itself is counted in one of two ways
    have hcount := hedf.countP_eq c'.sched.arrivedUndue
    have hsame : c.sched.edf.countP c'.sched.arrivedUndue
        = c.sched.edf.countP c.sched.arrivedUndue :=
      List.countP_congr fun x hx => by
        rw [Twolsfqd.arrivedUndue_congr h.config.timewindowId rfl (hold x hx)]
    rw [List.countP_append, List.countP_append, List.countP_singleton, hsame] at hcount
    have hself : c'.sched.arrivedUndue item = true →
        ((clock c.sched.ticks).add (c.sched.iedfDeadlinesTimeval 0)).lt
          c.sched.currentTimeWindowEnd = false := by
      unfold Twolsfqd.arrivedUndue
      rw [h.counted.due, decide_eq_true rfl, Bool.true_and]
      simp
    have hreleased := c'.sched.countP_arrived released
    have hbefore := hs.arrivals
    rw [h.counted.arrival, h.counted.arrivalDeadline, hkept]
    by_cases hundue : c'.sched.arrivedUndue item = true
    · rw [if_pos hundue] at hcount
      rw [hself hundue]
      simp only [Bool.false_eq_true, if_false]
      omega
    · rw [if_neg hundue] at hcount
      split <;> omega

/-- What a round releases is no longer counted as an arrival. -/
theorem Twolsfqd.Metered.round (hs : c.sched.Metered)
    (h : TwolsfqdRounded clock released kept c c') : c'.sched.Metered := by
  have hkept : c'.sched.edf = kept := Twolsfqd.edf_eq h.left.queue
  have hedf : c.sched.edf = released ++ kept := Twolsfqd.edf_eq h.found
  have hsub : List.Sublist c'.sched.queuedIds c.sched.queuedIds := by
    unfold Twolsfqd.queuedIds
    rw [h.sarc.waiting, hkept, hedf]
    exact ((List.sublist_append_right released kept).append_left _).map _
  have hmarks := h.left.window
  refine { toFormed := h.formed hs.toFormed, lists := ?_, ids := hs.ids.sublist hsub
           known := ?_, entered := ?_, queueLength := ?_, arrivals := ?_ }
  · rw [h.sarc.lists]
    exact hs.lists
  · intro id hid
    rw [h.sarc.itemId]
    exact hs.known id (hsub.subset hid)
  · intro x hx
    rw [hkept] at hx
    rw [h.sarc.timewindowId, (hmarks x.itemId).1]
    exact hs.entered x (hedf ▸ List.mem_append_right _ hx)
  · have hlength := hs.queueLength
    rw [hedf, List.length_append] at hlength
    rw [h.left.queueLength, hkept]
    show c.sched.edfQueueLength - _ = _
    omega
  · have hbefore := hs.arrivals
    rw [hedf, List.countP_append] at hbefore
    have hreleased := c.sched.countP_arrived released
    have hsame : kept.countP c'.sched.arrivedUndue = kept.countP c.sched.arrivedUndue :=
      List.countP_congr fun x _ => by
        rw [Twolsfqd.arrivedUndue_congr h.sarc.timewindowId rfl (hmarks x.itemId)]
    rw [h.left.arrival, h.left.arrivalDeadline, hkept, hsame]
    show c.sched.timewindowArrivalDeadline - (released.countP c.sched.arrivedDue : Int) + _
      ≤ c.sched.timewindowArrival - (released.countP c.sched.arrived : Int)
    omega

/-- Where the window counts the same and the queues hold the same, nothing
changes. -/
theorem Twolsfqd.Metered.same {s s' : Twolsfqd} (hs : s.Metered) (hformed : s'.Formed)
    (hlists : ∀ app, (s'.sarcCreditList app).isSome = true) (hids : s'.queuedIds = s.queuedIds)
    (hitemId : s'.itemId = s.itemId) {f : TwolsfqdItem → TwolsfqdItem}
    (hf : ∀ x, (f x).itemId = x.itemId) (hedf : s'.edf = s.edf.map f) (hsame : s.SameWindow s') :
    s'.Metered where
  toFormed := hformed
  lists := hlists
  ids := by
    rw [hids]
    exact hs.ids
  known := by
    rw [hids, hitemId]
    exact hs.known
  entered := by
    intro x hx
    rw [hedf] at hx
    obtain ⟨y, hy, rfl⟩ := List.mem_map.mp hx
    rw [hsame.timewindowId, (hsame.marks _).1, hf]
    exact hs.entered y hy
  queueLength := by
    rw [hsame.queueLength, hs.queueLength, hedf, List.length_map]
  arrivals := by
    have hcount : s'.edf.countP s'.arrivedUndue = s.edf.countP s.arrivedUndue := by
      rw [hedf, List.countP_map]
      exact List.countP_congr fun x _ => by
        rw [Function.comp_apply,
          Twolsfqd.arrivedUndue_congr hsame.timewindowId (hf x) (hsame.marks _)]
    rw [hsame.arrival, hsame.arrivalDeadline, hcount]
    exact hs.arrivals

end parts

theorem twolsfqdMarks_dispatched (m : Int → TwolsfqdMarks) (i dispatched id : Int) :
    (Function.update m i { m i with dispatched := dispatched } id).timewindow = (m id).timewindow
      ∧ (Function.update m i { m i with dispatched := dispatched } id).deadlineInCurrentTimewindow
        = (m id).deadlineInCurrentTimewindow := by
  by_cases hid : id = i
  · subst hid
    rw [Function.update_self]
    exact ⟨rfl, rfl⟩
  · rw [Function.update_of_ne hid]
    exact ⟨rfl, rfl⟩

/-- Every part of a dispatch keeps the counters right. -/
theorem twolsfqdMetered_keeps (clock : Nat → Timeval) :
    TwolsfqdKeeps clock fun _ c => c.sched.Metered where
  skip := by
    rintro h c s hc hskips
    have hformed := hskips.formed hc.toFormed
    rcases hskips with rfl | ⟨i, -, rfl⟩
    · exact hc
    · exact ⟨hformed, hc.lists, hc.ids, hc.known, hc.entered, hc.queueLength, hc.arrivals⟩
  replenish hc :=
    ⟨⟨hc.index, hc.queue⟩, hc.lists, hc.ids, hc.known, hc.entered, hc.queueLength, hc.arrivals⟩
  move hc hmove := hc.move hmove
  round hc hround := hc.round hround
  settle := by
    rintro h c item dispatched hc
    exact hc.same (f := id) ⟨hc.index, hc.queue⟩ hc.lists rfl rfl (fun _ => rfl)
      (List.map_id _).symm ⟨rfl, rfl, rfl, rfl, twolsfqdMarks_dispatched c.sched.marks _ _⟩

/-! ## The steps -/

/-- `twolsfqd_enqueue` up to the dispatch has nothing to do with the window. -/
theorem twolsfqdInsert_window {pool : Nat → Endpoint} {si : SocketInfo} {pi : PvfsInfo}
    {g g' : Globals Twolsfqd} {item : TwolsfqdItem}
    (h : twolsfqdInsert pool si pi g = .ok (g', item)) : g.sched.SameWindow g'.sched := by
  unfold twolsfqdInsert at h
  dsimp only at h
  split at h
  · cases h
  · obtain ⟨rfl, rfl⟩ := Prod.mk.inj (Except.ok.inj h)
    exact ⟨rfl, rfl, rfl, rfl, twolsfqdMarks_dispatched g.sched.marks _ _⟩

namespace Twolsfqd.Metered

theorem inserted {pool : Nat → Endpoint} {si : SocketInfo} {pi : PvfsInfo}
    {s s' : Twolsfqd} {item : TwolsfqdItem} (hs : s.Metered)
    (hi : TwolsfqdInserted pool si pi s s' item) (hsame : s.SameWindow s')
    (happ : item.embedded.appIndex < s.numApps) : s'.Metered := by
  have hedf : s'.edf = s.edf := by
    unfold Twolsfqd.edf
    rw [hi.queue]
  have hids : s'.queuedIds.Perm (s.itemId :: s.queuedIds) := by
    unfold Twolsfqd.queuedIds
    rw [hedf, ← hi.id]
    exact ((hi.waiting happ (hs.lists _)).append_right s.edf).map (·.itemId)
  have hundue : s.edf.countP s'.arrivedUndue = s.edf.countP s.arrivedUndue :=
    List.countP_congr fun x _ => by
      rw [Twolsfqd.arrivedUndue_congr hsame.timewindowId rfl (hsame.marks _)]
  refine { toFormed := hi.formed hs.toFormed, lists := hi.lists_isSome hs.lists, ids := ?_
           known := ?_, entered := ?_, queueLength := ?_, arrivals := ?_ }
  · refine hids.nodup_iff.mpr (List.nodup_cons.mpr ⟨fun hin => ?_, hs.ids⟩)
    exact absurd (hs.known _ hin) (lt_irrefl _)
  · intro id hid
    rw [hi.nextId]
    rcases List.mem_cons.mp (hids.subset hid) with rfl | hid
    · exact Int.lt_succ _
    · exact (hs.known id hid).trans (Int.lt_succ _)
  · rw [hedf, hsame.timewindowId]
    intro x hx
    rw [(hsame.marks _).1]
    exact hs.entered x hx
  · rw [hsame.queueLength, hedf]
    exact hs.queueLength
  · rw [hsame.arrival, hsame.arrivalDeadline, hedf, hundue]
    exact hs.arrivals

/-- A completion is counted as an arrival again, and as one that is due only with
it. -/
theorem count {g : Globals Twolsfqd} (hg : g.sched.Metered) (it : TwolsfqdItem) :
    (twolsfqdCount it g).sched.Metered := by
  have hbefore := hg.arrivals
  unfold twolsfqdCount
  dsimp only
  split
  · refine ⟨⟨hg.index, hg.queue⟩, hg.lists, hg.ids, hg.known, hg.entered, hg.queueLength, ?_⟩
    have hdue : (if (g.sched.marks it.itemId).deadlineInCurrentTimewindow = true then
          g.sched.timewindowArrivalDeadline + 1 else g.sched.timewindowArrivalDeadline)
        ≤ g.sched.timewindowArrivalDeadline + 1 := by
      split <;> omega
    show (if _ then _ else _) + (g.sched.edf.countP g.sched.arrivedUndue : Int)
      ≤ g.sched.timewindowArrival + 1
    omega
  · exact ⟨⟨hg.index, hg.queue⟩, hg.lists, hg.ids, hg.known, hg.entered, hg.queueLength,
      hbefore⟩

theorem writeSize {s : Twolsfqd} (hs : s.Metered) (it : TwolsfqdItem) :
    (s.writeSize it).Metered := by
  have hwritten : ∀ x, (twolsfqdWritten it x).itemId = x.itemId :=
    fun x => (twolsfqdWritten_same it x).1
  refine hs.same ⟨hs.index, Option.isSome_map.trans hs.queue⟩
    (fun app => Option.isSome_map.trans (hs.lists app)) ?_ rfl hwritten (s.edf_writeSize it)
    ⟨rfl, rfl, rfl, rfl, fun _ => ⟨rfl, rfl⟩⟩
  unfold Twolsfqd.queuedIds
  rw [s.waiting_writeSize it, s.edf_writeSize it, ← List.map_append, List.map_map]
  exact List.map_congr_left fun x _ => hwritten x

/-- A window begins with nothing counted, and nothing in the EDF queue entered in
it. -/
theorem nextWindow {s : Twolsfqd} (hs : s.Metered) (clock : Nat → Timeval) (width : Timeval)
    (threshold : Int) : (twolsfqdNextWindow clock width threshold s).Metered := by
  refine ⟨⟨hs.index, hs.queue⟩, hs.lists, hs.ids, hs.known, fun x hx => ?_, hs.queueLength, ?_⟩
  · exact (hs.entered x hx).trans (Int.lt_succ _).le
  · have hnone : s.edf.countP (twolsfqdNextWindow clock width threshold s).arrivedUndue = 0 := by
      refine List.countP_eq_zero.mpr fun x hx => ?_
      unfold Twolsfqd.arrivedUndue Twolsfqd.arrived
      show ¬ (decide ((s.marks x.itemId).timewindow = s.timewindowId + 1) && _) = true
      rw [decide_eq_false (by have := hs.entered x hx; omega)]
      simp
    show 0 + ((s.edf.countP _ : Nat) : Int) ≤ 0
    rw [hnone]
    rfl

theorem init (numApps : Nat) (appRate : Nat → Int) (deadlines : Nat → Timeval)
    (replenishTime threshold : Int) (junk : Int → TwolsfqdMarks) :
    (twolsfqdInit numApps appRate deadlines replenishTime threshold junk).Metered := by
  have hqueued :
      (twolsfqdInit numApps appRate deadlines replenishTime threshold junk).queuedIds = [] := by
    unfold Twolsfqd.queuedIds
    rw [show (twolsfqdInit numApps appRate deadlines replenishTime threshold junk).waiting = []
      from List.flatMap_eq_nil_iff.mpr fun _ _ => rfl]
    rfl
  refine ⟨⟨id, rfl⟩, fun _ => rfl, ?_, ?_, fun x hx => ?_, rfl, le_refl _⟩
  · rw [hqueued]
    exact List.nodup_nil
  · rw [hqueued]
    exact fun id hid => absurd hid List.not_mem_nil
  · exact absurd hx List.not_mem_nil

end Twolsfqd.Metered

theorem twolsfqdTimeWindow_returns (clock : Nat → Timeval) (width : Timeval) (threshold : Int)
    (overload : Bool) {g : Globals Twolsfqd}
    (hg : (twolsfqdNextWindow clock width threshold g.sched).Formed) :
    ∃ c, twolsfqdTimeWindow clock width threshold overload g = .ok c := by
  have hround : ∀ c : TwolsfqdCall, c.sched.Formed →
      ∃ c', (twolsfqdEdfDequeueAll clock (twolsfqdDequeueAll clock) (-1) c >>= fun p =>
        pure p.1) = .ok c' := by
    intro c hc
    obtain ⟨c', dispatched, hrun, -⟩ := twolsfqdEdfDequeueAll_rounds clock (-1) hc
    exact Machine.bind_returns hrun ⟨c', rfl⟩
  unfold twolsfqdTimeWindow
  dsimp only
  cases overload with
  | false => exact hround { g := { g with sched := _ }, unlocked := [] } hg
  | true =>
      have hspared := hg.updateSpareness clock
      generalize hs : twolsfqdUpdateSpareness clock _ = s at hspared
      obtain ⟨c₁, hdrain, hd⟩ := twolsfqdDequeueAll_drains clock
        (c := { g := { g with sched := s }, unlocked := [] }) hspared
      subst hs
      exact Machine.bind_returns hdrain (hround c₁ (hd.formed hspared).1)

namespace TwolsfqdCalls

variable {clock : Nat → Timeval} {myShare : Int → Int → Int → Int → Int → Int} {width : Timeval}

/-- **Every step keeps the counters right.** -/
theorem metered_step {g g' : Globals Twolsfqd} {e : Event} (hg : g.sched.Metered)
    (hok : Allowed g e) (h : step clock myShare width g e = .ok g') : g'.sched.Metered := by
  have hkeeps := twolsfqdMetered_keeps clock
  cases e with
  | enqueue pool si pi =>
      obtain ⟨result, hrun, h⟩ := Machine.bind_eq_ok.mp h
      obtain rfl := Machine.pure_eq_ok.mp h
      obtain ⟨⟨g₁, item⟩, hinsert, hrun⟩ := Machine.bind_eq_ok.mp hrun
      have hi := twolsfqdInsert_inserted hinsert
      have hg₁ := hg.inserted hi (twolsfqdInsert_window hinsert) (hi.app ▸ hok)
      obtain ⟨⟨c, locked⟩, htry, hrun⟩ := Machine.bind_eq_ok.mp hrun
      obtain rfl := Machine.pure_eq_ok.mp hrun
      obtain ⟨c', locked', htry', htries⟩ := twolsfqdTryRelease_tries clock
        (pool si.requestSocket).appIndex pi.currentDataSize item
        (c := { g := g₁, unlocked := [] }) hg₁.toFormed
      obtain ⟨rfl, -⟩ := Prod.mk.inj (Except.ok.inj (htry.symm.trans htry'))
      exact TwolsfqdTries.keeps (c := { g := g₁, unlocked := [] }) (h := []) hkeeps hg₁ htries
  | dequeue r =>
      obtain ⟨⟨c, next⟩, hrun, h⟩ := Machine.bind_eq_ok.mp h
      obtain rfl := Machine.pure_eq_ok.mp h
      obtain ⟨c', next', hrun', hsteps⟩ :=
        twolsfqdDequeueStep_returns clock (c := { g, unlocked := [] }) hg.toFormed
      obtain ⟨rfl, -⟩ := Prod.mk.inj (Except.ok.inj (hrun.symm.trans hrun'))
      exact TwolsfqdSteps.keeps (c := { g, unlocked := [] }) (h := []) hkeeps hg hsteps
  | complete complete =>
      obtain ⟨result, hrun, h⟩ := Machine.bind_eq_ok.mp h
      obtain rfl := Machine.pure_eq_ok.mp h
      obtain ⟨currentItem, size⟩ := complete
      cases currentItem with
      | none => cases hrun
      | some it =>
          obtain ⟨it', c, -, -, hglobals, -, ⟨-, rfl, -⟩ | hrounds⟩ :=
            twolsfqdEdfComplete_rounds hg.toFormed hrun
          · rw [hglobals]
            exact hg
          · rw [hglobals]
            exact TwolsfqdRounds.keeps (c := { g := twolsfqdCount it g, unlocked := [] }) (h := [])
              hkeeps (hg.count it) hrounds
  | currentSize currentItem actualDataFileSize =>
      obtain ⟨⟨item, share⟩, -, h⟩ := Machine.bind_eq_ok.mp h
      obtain rfl := Machine.pure_eq_ok.mp h
      exact hg.writeSize item
  | replenish =>
      obtain ⟨c, hrun, h⟩ := Machine.bind_eq_ok.mp h
      obtain rfl := Machine.pure_eq_ok.mp h
      have hreplenished := hkeeps.replenish (h := []) (c := { g, unlocked := [] }) hg
      obtain ⟨c', hrun', hd⟩ := twolsfqdDequeueAll_drains clock hreplenished.toFormed
      obtain rfl := Except.ok.inj (hrun.symm.trans hrun')
      exact hkeeps.drains (h := []) hreplenished hd
  | window reached threshold overload =>
      obtain ⟨c, hrun, h⟩ := Machine.bind_eq_ok.mp h
      obtain rfl := Machine.pure_eq_ok.mp h
      unfold twolsfqdWindowTurn at hrun
      obtain ⟨stays, -, hrun⟩ := Machine.bind_eq_ok.mp hrun
      have hbegun := hg.nextWindow clock width threshold
      obtain ⟨c₀, c₁, log, log', hsched, -, hdrained, hrounds, -⟩ :=
        twolsfqdTimeWindow_rounds hbegun.toFormed hrun
      rw [← hsched] at hbegun
      refine hrounds.keeps (h := []) hkeeps ?_
      rcases hdrained with ⟨rfl, -⟩ | hd
      · exact hbegun
      · exact hkeeps.drains (h := []) (hkeeps.updateSpareness (h := []) hbegun) hd

end TwolsfqdCalls

/-! ## The bounds -/

namespace Twolsfqd.Metered

variable {s : Twolsfqd} (hs : s.Metered)

include hs

theorem arrivalDeadline_le : s.timewindowArrivalDeadline ≤ s.timewindowArrival := by
  have harrivals := hs.arrivals
  omega

theorem windowCount_le : (twolsfqdWindowCount s s.edf 0 : Int) ≤ s.edfQueueLength := by
  have hcount := twolsfqdWindowCount_le s s.edf 0
  rw [hs.queueLength]
  omega

theorem lower_le_upper : s.nextLowerLength ≤ s.nextUpperLength := by
  have harrivals := hs.arrivalDeadline_le
  have hcount := hs.windowCount_le
  unfold Twolsfqd.nextLowerLength Twolsfqd.nextUpperLength
  omega

theorem decides : s.LoadFalls ∨ s.LoadStays := by
  have hle := hs.lower_le_upper
  unfold Twolsfqd.LoadFalls Twolsfqd.LoadStays
  omega

theorem overloadedCase : ∃ stays, twolsfqdOverloadedCase s = .ok stays := by
  unfold twolsfqdOverloadedCase
  by_cases hfalls : s.LoadFalls
  · exact ⟨false, if_pos hfalls⟩
  · exact ⟨true, (if_neg hfalls).trans (if_pos (hs.decides.resolve_left hfalls))⟩

end Twolsfqd.Metered

/-- **The controller always decides.** In every state that the hooks and the
threads lead to, whatever the deadlines and the clock, less is due than has
arrived, no more items are counted for the next window than the queue holds, so
the lower bound is at most the upper one and one of the two conditions holds: the
turn of the controller goes through and does not exit. -/
theorem twolsfqd_window_decides {clock : Nat → Timeval}
    {myShare : Int → Int → Int → Int → Int → Int} {width : Timeval} {g₀ g : Globals Twolsfqd}
    {numApps : Nat} {appRate : Nat → Int} {deadlines : Nat → Timeval}
    {replenishTime threshold : Int} {junk : Int → TwolsfqdMarks}
    (h₀ : g₀.sched = twolsfqdInit numApps appRate deadlines replenishTime threshold junk)
    {es : List TwolsfqdCalls.Event}
    (hrun : Machine.Run TwolsfqdCalls.Allowed (TwolsfqdCalls.step clock myShare width) g₀ es g) :
    g.sched.timewindowArrivalDeadline ≤ g.sched.timewindowArrival
      ∧ (twolsfqdWindowCount g.sched g.sched.edf 0 : Int) ≤ g.sched.edfQueueLength
      ∧ g.sched.nextLowerLength ≤ g.sched.nextUpperLength
      ∧ (g.sched.LoadFalls ∨ g.sched.LoadStays)
      ∧ ∀ reached threshold overload,
        ∃ c, twolsfqdWindowTurn clock width reached threshold overload g = .ok c := by
  have hg : g.sched.Metered :=
    hrun.invariant (P := fun g => g.sched.Metered) (h₀ ▸ .init ..) fun _ _ _ ht hok hstep =>
      TwolsfqdCalls.metered_step ht hok hstep
  refine ⟨hg.arrivalDeadline_le, hg.windowCount_le, hg.lower_le_upper, hg.decides, ?_⟩
  intro reached threshold overload
  have hturn : ∀ stays, ∃ c,
      twolsfqdTimeWindow clock width threshold (overload && stays) g = .ok c := fun stays =>
    twolsfqdTimeWindow_returns clock width threshold _
      (hg.nextWindow clock width threshold).toFormed
  cases reached with
  | false => exact Machine.bind_returns (a := true) rfl (hturn true)
  | true =>
      obtain ⟨stays, hstays⟩ := hg.overloadedCase
      exact Machine.bind_returns hstays (hturn stays)

/-- Two requests, of which the second waits behind the first on the storage, at
the end of their window. -/
theorem twolsfqd_window_decides_example :
    ∃ g : Globals Twolsfqd, g.sched.edf.length = 1 ∧ g.sched.timewindowArrival = 1
      ∧ (g.sched.LoadFalls ∨ g.sched.LoadStays)
      ∧ ∃ c, twolsfqdWindowTurn (fun n => { sec := n, usec := 0 }) { sec := 9, usec := 0 } true 1
          true g = .ok c := by
  obtain ⟨g, hrun, hg⟩ := Machine.Run.exists_of_exec TwolsfqdCalls.Allowed
    (TwolsfqdCalls.step (fun n => { sec := n, usec := 0 }) (fun _ _ _ _ _ => 0)
      { sec := 9, usec := 0 })
    (twolsfqdStart (twolsfqdSettings 1 1 1000 1 fun _ => 2000)).w.g
    [.window false 1 false,
      .enqueue (twolsfqdWrite 0 0 64).pool (twolsfqdWrite 0 0 64).si (twolsfqdWrite 0 0 64).pi,
      .enqueue (twolsfqdWrite 0 1 64).pool (twolsfqdWrite 0 1 64).si (twolsfqdWrite 0 1 64).pi]
    (fun g => (g.sched.edf.length, g.sched.timewindowArrival)) (a := (1, 1)) (by decide +kernel)
  obtain ⟨hlength, harrival⟩ := Prod.mk.inj hg
  obtain ⟨-, -, -, hdecides, hreturns⟩ := twolsfqd_window_decides (by rfl) hrun
  exact ⟨g, hlength, harrival, hdecides, hreturns true 1 true⟩

end PvfsProxy
