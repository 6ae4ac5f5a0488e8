import PvfsProxy.Heap
import PvfsProxy.SchedulerMain

/-!
# The SFQD3 scheduler

`scheduler_SFQD3.c`: start-time fair queueing with a heap, a clock and slots of
its own for every application, which does not conserve work. An application
that is more than 10 KB ahead of its share (`app_stats[app].diff`) rests: its
requests wait, and no dequeue takes one until the differences are computed
anew and it is no longer ahead (`DIFF_CHANGE`).

Tags and item numbers are machine integers: they wrap.
-/

namespace PvfsProxy

structure Sfqd3QueueItem where
  requestSocket : Int
  startTag : Int
  finishTag : Int
  dataSocket : Int
  requestSocketIndex : Nat
  dataSocketIndex : Nat
  dataFileSize : Int
  stripSize : Int
  serverNr : Int
  fileOffset : Int
  aggregateSize : Int
  serverCount : Int
  socketTag : Int
  appIndex : Nat
  streamId : Int
  taskSize : Int
  overCount : Int
  gotSize : Int
  ioType : Int
  bufferSize : Int
deriving Repr, DecidableEq

abbrev Sfqd3Item := GenericQueueItem Sfqd3QueueItem

/-- The file-level variables of `scheduler_SFQD3.c`, with `num_apps` and
`total_weight`. -/
structure Sfqd3 where
  numApps : Nat
  totalWeight : Int
  depths : Nat → Int
  currentDepths : Nat → Int
  virtualTimes : Nat → Int
  lastFinishTags : Nat → Int
  heapQueues : Nat → Heap Sfqd3Item
  smallIoSize : Int
  itemId : Int

/-- `sfqd3_init` after `sfqd3_load_data_from_config`, which sets the depths of
two applications only. -/
def sfqd3Init (numApps : Nat) (totalWeight : Int) (depths : Nat → Int) : Sfqd3 where
  numApps := numApps
  totalWeight := totalWeight
  depths := depths
  currentDepths _ := 0
  virtualTimes _ := 0
  lastFinishTags _ := 0
  heapQueues _ := heapInit
  smallIoSize := 0
  itemId := 0

def intMax : Int := 2147483647

def sfqd3PacketCmp (a b : Sfqd3Item) : Bool :=
  if a.embedded.startTag < b.embedded.startTag then true
  else if a.embedded.startTag = b.embedded.startTag then decide (a.itemId < b.itemId)
  else false

/-- `cost` is the length under both cost models, and `REDUCER` is 1. -/
def sfqd3FinishTag (length weight startTag : Int) : Except Fault Int :=
  if weight = 0 then .error .divisionByZero
  else .ok (toInt32 (startTag + length.tdiv weight))

/-- The item `sfqd3_enqueue` allocates for a request. -/
def sfqd3NewItem (pool : Nat → Endpoint) (si : SocketInfo) (pi : PvfsInfo)
    (startTag finishTag streamId itemId : Int) : Sfqd3Item where
  itemId := itemId
  socketData := si
  embedded :=
    { requestSocket := (pool si.requestSocket).socket
      startTag := startTag
      finishTag := finishTag
      dataSocket := (pool si.dataSocket).socket
      requestSocketIndex := si.requestSocket
      dataSocketIndex := si.dataSocket
      dataFileSize := 0
      stripSize := pi.stripSize
      serverNr := pi.currentServer
      fileOffset := pi.reqOffset
      aggregateSize := pi.aggregateSize
      serverCount := pi.totalServer
      socketTag := pi.tag
      appIndex := (pool si.requestSocket).appIndex
      streamId := streamId
      taskSize := pi.currentDataSize
      overCount := 0
      gotSize := 0
      ioType := pi.ioType
      bufferSize := pi.reqSize }

def sfqd3AddItem (app : Nat) (item : Sfqd3Item) (s : Sfqd3) : Sfqd3 :=
  { s with
    heapQueues :=
      Function.update s.heapQueues app (heapInsert sfqd3PacketCmp (s.heapQueues app) item) }

/-- `sfqd3_enqueue`, returning whether the request may be dispatched at once. -/
def sfqd3Enqueue (pool : Nat → Endpoint) (si : SocketInfo) (pi : PvfsInfo)
    (g : Globals Sfqd3) : Except Fault (Globals Sfqd3 × Bool) := do
  let g := g.modifyApp si.appIndex fun a =>
    { a with receivedRequests := a.receivedRequests + 1 }
  let s := g.sched
  let length := pi.currentDataSize
  let appIndex := (pool si.requestSocket).appIndex
  let weight := (pool si.requestSocket).weight
  let startTag := max (s.virtualTimes appIndex) (s.lastFinishTags appIndex)
  let finishTag ← sfqd3FinishTag length weight startTag
  let item := sfqd3NewItem pool si pi startTag finishTag (g.appStats appIndex).streamId s.itemId
  let g := g.modifyApp appIndex fun a =>
    { a with streamId := a.streamId + 1, reqCome := a.reqCome + 1 }
  let waits := decide ((g.appStats appIndex).diff > 10240)
    || decide (s.currentDepths appIndex ≥ s.depths appIndex)
    || !heapEmpty (s.heapQueues appIndex)
  let s := { s with
    lastFinishTags := Function.update s.lastFinishTags appIndex finishTag
    smallIoSize := if length ≤ 65536 then s.smallIoSize + length else s.smallIoSize
    itemId := toInt32 (s.itemId + 1) }
  return ({ g with sched := sfqd3AddItem appIndex item s }, !waits)

/-- The head of an application's heap is taken, for one of its slots. -/
def sfqd3Take (app : Nat) (s : Sfqd3) : Except Fault (Sfqd3 × Sfqd3Item) := do
  let (heapQueue, next) ← heapTake sfqd3PacketCmp (s.heapQueues app)
  return ({ s with
    heapQueues := Function.update s.heapQueues app heapQueue
    virtualTimes := Function.update s.virtualTimes app next.embedded.startTag
    currentDepths := Function.update s.currentDepths app (s.currentDepths app + 1) }, next)

/-- The loop of `sfqd3_get_next_request` over the applications: the smallest
start tag and the application it was found at. -/
def sfqd3OpenApp (appStats : Nat → AppStatistics) :
    List Nat → Int → Option Nat → Sfqd3 → Except Fault (Sfqd3 × Option Nat)
  | [], _, openApp, s => .ok (s, openApp)
  | l :: apps, smallest, openApp, s =>
    if (appStats l).diff > 10240 then sfqd3OpenApp appStats apps smallest openApp s
    else if s.currentDepths l < s.depths l ∧ heapEmpty (s.heapQueues l) = false then
      let (heapQueue, next) := heapPeek sfqd3PacketCmp (s.heapQueues l)
      let s := { s with heapQueues := Function.update s.heapQueues l heapQueue }
      match next with
      | none => .error .nullPointer
      | some next =>
        if next.embedded.startTag < smallest then
          sfqd3OpenApp appStats apps next.embedded.startTag (some l) s
        else sfqd3OpenApp appStats apps smallest openApp s
    else sfqd3OpenApp appStats apps smallest openApp s

/-- `sfqd3_get_next_request` for `DIFF_CHANGE`, which looks at one application
only. -/
def sfqd3DiffChange (app : Nat) (g : Globals Sfqd3) :
    Except Fault (Globals Sfqd3 × Option Sfqd3Item) :=
  if heapEmpty (g.sched.heapQueues app) then .ok (g, none)
  else if g.sched.currentDepths app < g.sched.depths app then do
    let (s, next) ← sfqd3Take app g.sched
    return ({ g with sched := s }.modifyApp app fun a =>
      { a with dispatchedRequests := a.dispatchedRequests + 1 }, some next)
  else .ok (g, none)

/-- `sfqd3_get_next_request` for the other events, once a completed slot has
been given back. -/
def sfqd3NextRequest (g : Globals Sfqd3) : Except Fault (Globals Sfqd3 × Option Sfqd3Item) := do
  let apps := List.range g.sched.numApps
  if apps.all fun l => heapEmpty (g.sched.heapQueues l) then return (g, none)
  let (s, openApp) ← sfqd3OpenApp g.appStats apps intMax none g.sched
  match openApp with
  | none => return ({ g with sched := s }, none)
  | some openApp =>
    let (s, next) ← sfqd3Take openApp s
    return ({ g with sched := s }.modifyApp next.socketData.appIndex fun a =>
      { a with reqGo := a.reqGo + 1, dispatchedRequests := a.dispatchedRequests + 1 }, some next)

def sfqd3GetNextRequest (r : DequeueReason Sfqd3QueueItem) (g : Globals Sfqd3) :
    Except Fault (Globals Sfqd3 × Option Sfqd3Item) :=
  let app := r.lastAppIndex
  match r.event with
  | .diffChange => sfqd3DiffChange app g
  | .completeIo =>
    sfqd3NextRequest { g with
      sched := { g.sched with
        currentDepths := Function.update g.sched.currentDepths app
          (g.sched.currentDepths app - 1) } }
  | .newIo | .newMeta => sfqd3NextRequest g

def sfqd3Dequeue (r : DequeueReason Sfqd3QueueItem) (g : Globals Sfqd3) :
    Except Fault (Globals Sfqd3 × Option Sfqd3Item) :=
  sfqd3GetNextRequest r g

def sfqd3UpdateOnRequestCompletion (complete : CompleteMessage Sfqd3QueueItem) :
    Except Fault (Sfqd3Item × Int) :=
  match complete.currentItem with
  | none => .error .nullPointer
  | some it =>
    let e := { it.embedded with gotSize := it.embedded.gotSize + complete.completeSize }
    if e.taskSize = e.gotSize then .ok ({ it with embedded := e }, e.gotSize)
    else if e.taskSize < e.gotSize then
      .ok ({ it with embedded := { e with overCount := e.overCount + 1 } }, -1)
    else .ok ({ it with embedded := e }, 0)

/-- `sfqd3_current_size`. `get_my_share` is called with five of its six
arguments; the call is the parameter `myShare`. -/
def sfqd3CurrentSize (myShare : Int → Int → Int → Int → Int → Int)
    (currentItem : Option Sfqd3Item) (actualDataFileSize : Int) :
    Except Fault (Sfqd3Item × Int) :=
  match currentItem with
  | none => .error .nullPointer
  | some it =>
    let e := it.embedded
    let share := myShare e.stripSize e.serverCount e.fileOffset e.aggregateSize e.serverNr
    .ok ({ it with embedded := { e with dataFileSize := actualDataFileSize, taskSize := share } },
      share)

def sfqd3AddTtlTp (thisAmount : Int) (appIndex : Nat) (g : Globals Sfqd3) : Globals Sfqd3 :=
  { g with totalThroughput := g.totalThroughput + thisAmount }.modifyApp appIndex fun a =>
    { a with
      byteCounter := a.byteCounter + thisAmount
      appThroughput := a.appThroughput + thisAmount }

def sfqd3CalculateDiff (appIndex : Nat) (g : Globals Sfqd3) : Int :=
  (g.appStats appIndex).appThroughput
    - (g.totalThroughput * (g.appStats appIndex).appWeight).tdiv g.sched.totalWeight

def schSfqd3 (myShare : Int → Int → Int → Int → Int → Int) :
    SchedulerMethod Sfqd3 Sfqd3QueueItem where
  workConserving := false
  schEnqueue pool si pi g := do
    let (g, dispatched) ← sfqd3Enqueue pool si pi g
    return { globals := g, ret := dispatched }
  schDequeue r g := do
    let (g, item) ← sfqd3Dequeue r g
    return { globals := g, ret := item }
  schUpdateOnRequestCompletion complete g := do
    let (item, got) ← sfqd3UpdateOnRequestCompletion complete
    return { globals := g, ret := (some item, got) }
  schCurrentSize := some fun item size => do
    let (item, share) ← sfqd3CurrentSize myShare item size
    return (some item, share)
  schAddTtlThroughput := sfqd3AddTtlTp
  schCalculateDiff := some sfqd3CalculateDiff
  schSelfDispatch := false
  schAcceptMeta := false

/-! ## What the functions can do -/

def Sfqd3.queued (s : Sfqd3) (app : Nat) : List Sfqd3Item := (s.heapQueues app).values

/-- The start tag a request of `app` would get now. -/
def Sfqd3.nextStart (s : Sfqd3) (app : Nat) : Int := max (s.virtualTimes app) (s.lastFinishTags app)

/-- May a queued request of the application go? -/
def Sfqd3.Open (s : Sfqd3) (appStats : Nat → AppStatistics) (app : Nat) : Prop :=
  (appStats app).diff ≤ 10240 ∧ s.currentDepths app < s.depths app

/-- The configuration, the slots and the differences are the same. -/
structure Sfqd3Same (g g' : Globals Sfqd3) : Prop where
  numApps : g'.sched.numApps = g.sched.numApps
  depths : g'.sched.depths = g.sched.depths
  currentDepths : g'.sched.currentDepths = g.sched.currentDepths
  diff : ∀ app, (g'.appStats app).diff = (g.appStats app).diff

/-- A field that an update leaves alone. -/
theorem modifyApp_field {σ β : Type} (g : Globals σ) (app : Nat) (field : AppStatistics → β)
    {f : AppStatistics → AppStatistics} (hf : ∀ a, field (f a) = field a) (app' : Nat) :
    field ((g.modifyApp app f).appStats app') = field (g.appStats app') := by
  unfold Globals.modifyApp
  by_cases happ : app' = app
  · subst happ
    simp only [Function.update_self, hf]
  · simp only [Function.update_of_ne happ]

theorem modifyApp_diff {σ : Type} (g : Globals σ) (app : Nat)
    {f : AppStatistics → AppStatistics} (hf : ∀ a, (f a).diff = a.diff) (app' : Nat) :
    ((g.modifyApp app f).appStats app').diff = (g.appStats app').diff :=
  modifyApp_field g app (·.diff) hf app'

/-- An enqueue that returns put one item into the queue of its application; it
may go at once when that was empty and open. -/
structure Sfqd3Enqueued (pool : Nat → Endpoint) (si : SocketInfo) (g g' : Globals Sfqd3)
    (b : Bool) (it : Sfqd3Item) : Prop where
  socketData : it.socketData = si
  itemId : it.itemId = g.sched.itemId
  startTag : it.embedded.startTag = g.sched.nextStart (pool si.requestSocket).appIndex
  queued : (g'.sched.queued (pool si.requestSocket).appIndex).Perm
    (it :: g.sched.queued (pool si.requestSocket).appIndex)
  other : ∀ app, app ≠ (pool si.requestSocket).appIndex →
    g'.sched.heapQueues app = g.sched.heapQueues app
  dispatched : b = true ↔ g.sched.queued (pool si.requestSocket).appIndex = []
    ∧ g'.sched.Open g'.appStats (pool si.requestSocket).appIndex
  appIndex : it.embedded.appIndex = (pool si.requestSocket).appIndex
  same : Sfqd3Same g g'

theorem sfqd3Enqueue_ok {pool : Nat → Endpoint} {si : SocketInfo} {pi : PvfsInfo}
    {g g' : Globals Sfqd3} {b : Bool} (h : sfqd3Enqueue pool si pi g = .ok (g', b)) :
    ∃ it, Sfqd3Enqueued pool si g g' b it := by
  obtain ⟨finishTag, -, h⟩ := Machine.bind_eq_ok.mp h
  generalize hit : sfqd3NewItem pool si pi _ finishTag _ _ = it at h
  rw [Globals.modifyApp_sched] at h hit
  obtain ⟨rfl, rfl⟩ := Prod.mk.inj (Machine.pure_eq_ok.mp h)
  refine ⟨it, ?_⟩
  exact
    { socketData := by rw [← hit]; rfl
      itemId := by rw [← hit]; rfl
      startTag := by rw [← hit]; rfl
      queued := by
        simp only [Sfqd3.queued, sfqd3AddItem, Function.update_self]
        exact heapInsert_values ..
      other := by
        intro app hne
        exact Function.update_of_ne hne ..
      dispatched := by
        simp only [Sfqd3.queued, Sfqd3.Open, sfqd3AddItem, ← heapEmpty_iff, Bool.not_eq_true',
          Bool.or_eq_false_iff, decide_eq_false_iff_not, Bool.not_eq_false', gt_iff_lt, ge_iff_le,
          not_lt, not_le]
        tauto
      appIndex := by rw [← hit]; rfl
      same :=
        { numApps := rfl
          depths := rfl
          currentDepths := rfl
          diff := by
            intro app
            dsimp only
            rw [modifyApp_diff, modifyApp_diff] <;> exact fun _ => rfl } }

/-- The scan ends at an application if it passes one that is open and whose
requests all have start tags below the smallest so far. -/
theorem sfqd3OpenApp_isSome {appStats : Nat → AppStatistics} {apps : List Nat} {smallest : Int}
    {openApp o : Option Nat} {s s' : Sfqd3}
    (h : sfqd3OpenApp appStats apps smallest openApp s = .ok (s', o))
    (hfound : openApp.isSome = true ∨ ∃ l ∈ apps, s.Open appStats l ∧ s.queued l ≠ []
      ∧ ∀ it ∈ s.queued l, it.embedded.startTag < smallest) : o.isSome = true := by
  induction apps generalizing smallest openApp s with
  | nil =>
      obtain ⟨-, rfl⟩ := Prod.mk.inj (Except.ok.inj h)
      rcases hfound with hsome | ⟨l, hl, -⟩
      · exact hsome
      · cases hl
  | cons l' apps ih =>
      have hrest : ∀ {P : Nat → Prop}, ¬ P l' → (∃ l ∈ l' :: apps, P l) → ∃ l ∈ apps, P l := by
        rintro P hno ⟨l, hl, hP⟩
        rcases List.mem_cons.mp hl with rfl | hl
        · exact absurd hP hno
        · exact ⟨l, hl, hP⟩
      rw [sfqd3OpenApp] at h
      split at h
      · rename_i hdiff
        refine ih h (hfound.imp_right (hrest ?_))
        rintro ⟨hopen, -⟩
        exact absurd hopen.1 (by omega)
      · split at h
        · rename_i hdiff hready
          obtain ⟨hvalues, hmin, hnone⟩ := heapPeek_values sfqd3PacketCmp (s.heapQueues l')
          cases hnext : (heapPeek sfqd3PacketCmp (s.heapQueues l')).2 with
          | none => simp [hnext] at h
          | some next =>
              simp only [hnext] at h
              split at h
              · exact ih h (.inl rfl)
              · rename_i hge
                refine ih h (hfound.imp_right fun hin => ?_)
                obtain ⟨l, hl, hopen, hne, hlt⟩ := hrest (fun hP =>
                  hge (hP.2.2 next (heapPeek_mem hnext))) hin
                by_cases heq : l = l'
                · subst heq
                  exact absurd (hlt next (heapPeek_mem hnext)) hge
                · refine ⟨l, hl, hopen, ?_, ?_⟩
                  · simpa only [Sfqd3.queued, Function.update_of_ne heq] using hne
                  · simpa only [Sfqd3.queued, Function.update_of_ne heq] using hlt
        · rename_i hdiff hidle
          refine ih h (hfound.imp_right (hrest ?_))
          rintro ⟨hopen, hne, -⟩
          refine hidle ⟨hopen.2, ?_⟩
          rw [← Bool.not_eq_true, heapEmpty_iff]
          exact hne

/-- A request that may go at once finds an item to go with, unless no start
tag is below `INT_MAX`. -/
theorem sfqd3NextRequest_isSome {g g' : Globals Sfqd3} {next : Option Sfqd3Item}
    (h : sfqd3NextRequest g = .ok (g', next)) {app : Nat} (happ : app < g.sched.numApps)
    (hopen : g.sched.Open g.appStats app) (hne : g.sched.queued app ≠ [])
    (hlt : ∀ it ∈ g.sched.queued app, it.embedded.startTag < intMax) : next.isSome = true := by
  unfold sfqd3NextRequest at h
  dsimp only at h
  split at h
  · rename_i hall
    rw [List.all_eq_true] at hall
    have hempty := hall app (List.mem_range.mpr happ)
    rw [heapEmpty_iff] at hempty
    exact absurd hempty hne
  · obtain ⟨⟨s, openApp⟩, hscan, h⟩ := Machine.bind_eq_ok.mp h
    have hsome := sfqd3OpenApp_isSome hscan
      (.inr ⟨app, List.mem_range.mpr happ, hopen, hne, hlt⟩)
    obtain ⟨a, rfl⟩ := Option.isSome_iff_exists.mp hsome
    obtain ⟨⟨s₁, it⟩, -, h⟩ := Machine.bind_eq_ok.mp h
    obtain ⟨-, rfl⟩ := Prod.mk.inj (Machine.pure_eq_ok.mp h)
    rfl

end PvfsProxy
