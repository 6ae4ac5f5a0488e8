import PvfsProxy.Schedulers
import PvfsProxy.StripingRanges

/-!
# The size of a read

Five schedulers hook `sch_current_size`, which asks `get_my_share` how much of a
read the server has and stores it as the `task_size` of the item. No header
declares `get_my_share`, and four of the five call it without the size of the data
file; what they get then depends on the register of the missing argument.
-/

namespace PvfsProxy

variable {σ ι : Type}

/-- What an item says about where its read is. -/
structure Extent where
  stripSize : Int
  serverCount : Int
  fileOffset : Int
  aggregateSize : Int
  serverNr : Int
deriving Repr, DecidableEq

def SfqdQueueItem.extent (e : SfqdQueueItem) : Extent :=
  ⟨e.stripSize, e.serverCount, e.fileOffset, e.aggregateSize, e.serverNr⟩

def Sfqd2QueueItem.extent (e : Sfqd2QueueItem) : Extent :=
  ⟨e.stripSize, e.serverCount, e.fileOffset, e.aggregateSize, e.serverNr⟩

def Sfqd3QueueItem.extent (e : Sfqd3QueueItem) : Extent :=
  ⟨e.stripSize, e.serverCount, e.fileOffset, e.aggregateSize, e.serverNr⟩

def TwolsfqdQueueItem.extent (e : TwolsfqdQueueItem) : Extent :=
  ⟨e.stripSize, e.serverCount, e.fileOffset, e.aggregateSize, e.serverNr⟩

def SfqdFullQueueItem.extent (e : SfqdFullQueueItem) : Extent :=
  ⟨e.stripSize, e.serverCount, e.fileOffset, e.aggregateSize, e.serverNr⟩

/-- What `get_pvfs_info` found of it in the request. -/
def PvfsInfo.extent (pi : PvfsInfo) : Extent :=
  ⟨pi.stripSize, pi.totalServer, pi.reqOffset, pi.aggregateSize, pi.currentServer⟩

/-- The items of one request agree, whichever scheduler makes them. -/
theorem newItem_extent (pool : Nat → Endpoint) (si : SocketInfo) (pi : PvfsInfo)
    (depth start finish stream size id : Int) :
    (sfqdNewItem pool si pi start finish stream id).embedded.extent = pi.extent
      ∧ (sfqd2NewItem pool si pi start finish stream id).embedded.extent = pi.extent
      ∧ (sfqd3NewItem pool si pi start finish stream id).embedded.extent = pi.extent
      ∧ (twolsfqdNewItem pool si pi start finish stream id).embedded.extent = pi.extent
      ∧ (sfqdFullNewItem pool si pi depth start finish stream size id).embedded.extent
        = pi.extent :=
  ⟨rfl, rfl, rfl, rfl, rfl⟩

/-- A call of `get_my_share` that returns; of one that exits, nothing is asked. -/
def returnedShare (stripSize serverCount fileOffset aggregateSize serverNr actual : Int) : Int :=
  (getMyShare stripSize serverCount fileOffset aggregateSize serverNr actual).toOption.getD 0

/-- A call without the last argument, for which `register` is taken. -/
def implicitShare (register stripSize serverCount fileOffset aggregateSize serverNr : Int) : Int :=
  returnedShare stripSize serverCount fileOffset aggregateSize serverNr register

/-- The scheduler's hook returns `share` and stores it in the item. -/
def SchedulerMethod.Sizes (m : SchedulerMethod σ ι) (taskSize : ι → Int)
    (item : GenericQueueItem ι) (actualDataFileSize share : Int) : Prop :=
  ∃ hook sized, m.schCurrentSize = some hook
    ∧ hook (some item) actualDataFileSize = .ok (some sized, share)
    ∧ taskSize sized.embedded = share

namespace Extent

variable (x : Extent)

/-- `get_my_share` -/
def share (actualDataFileSize : Int) : Except Fault Int :=
  getMyShare x.stripSize x.serverCount x.fileOffset x.aggregateSize x.serverNr actualDataFileSize

/-- `my_offset` in `get_my_share` -/
def myOffset : Int :=
  let wholeStripSize := toInt32 (x.stripSize * x.serverCount)
  let leftOverFirst := toInt32 (x.fileOffset.tmod wholeStripSize)
  let passed := toInt32 (toInt32 (x.fileOffset.tdiv wholeStripSize) * x.stripSize)
  if leftOverFirst ≤ toInt32 (x.serverNr * x.stripSize) then passed
  else toInt32 (passed + leftOverFirst.tmod x.stripSize)

/-- `my_shared_size` in `get_my_share`, before the end of the file is looked at -/
def mySharedSize : Except Fault Int := do
  let wholeStripSize := toInt32 (x.stripSize * x.serverCount)
  if wholeStripSize = 0 then throw .divisionByZero
  let offsetNrWholeStrip := toInt32 (x.fileOffset.tdiv wholeStripSize)
  let leftOverFirst := toInt32 (x.fileOffset.tmod wholeStripSize)
  if toInt64 (x.aggregateSize + x.fileOffset)
      ≤ toInt32 (toInt32 (offsetNrWholeStrip + 1) * wholeStripSize) then
    shareWithin x.stripSize x.aggregateSize x.serverNr leftOverFirst
      (leftOverFirst.tmod x.stripSize)
  else pure (shareAcross x.stripSize wholeStripSize x.aggregateSize x.serverNr leftOverFirst)

/-- What a data file of a size has behind `my_offset`; a negative size counts as none
given. -/
def room (actualDataFileSize : Int) : Int :=
  max (toInt64 ((if actualDataFileSize < 0 then 0x1fffffffffffffff else actualDataFileSize)
    - x.myOffset)) 0

/-- Two file sizes leave the same room, or both leave room for the whole share. -/
def ClipsAlike (register actual : Int) : Prop :=
  x.room register = x.room actual
    ∨ ∀ mine, x.mySharedSize = .ok mine → mine ≤ x.room register ∧ mine ≤ x.room actual

theorem share_eq (actual : Int) :
    x.share actual = (do
      let mine ← x.mySharedSize
      return toInt32 (min mine (x.room actual))) := by
  unfold share mySharedSize getMyShare
  dsimp only
  split
  · rfl
  split
  · rfl
  · rfl

variable {x}

theorem mySharedSize_fits (h₀ : -2 ^ 31 ≤ x.stripSize) (h₁ : x.stripSize < 2 ^ 31) {mine : Int}
    (h : x.mySharedSize = .ok mine) : -2 ^ 31 ≤ mine ∧ mine < 2 ^ 31 := by
  unfold mySharedSize at h
  dsimp only at h
  split at h
  · contradiction
  split at h
  · exact shareWithin_fits h₀ h₁ h
  · obtain rfl := Except.ok.inj h
    exact shareAcross_fits ..

/-- Whether a call returns does not depend on the file size. -/
theorem share_returns {actual share : Int} (hreturns : x.share actual = .ok share)
    (register : Int) : ∃ share', x.share register = .ok share' := by
  rw [share_eq] at hreturns ⊢
  obtain ⟨mine, hmine, -⟩ := Machine.bind_eq_ok.mp hreturns
  rw [hmine]
  exact ⟨_, rfl⟩

/-- What it returns depends on the file size as far as the share is clipped. -/
theorem share_register (h₀ : -2 ^ 31 ≤ x.stripSize) (h₁ : x.stripSize < 2 ^ 31)
    {actual share : Int} (hreturns : x.share actual = .ok share) (register : Int) :
    x.share register = .ok share ↔ x.ClipsAlike register actual := by
  rw [share_eq] at hreturns ⊢
  obtain ⟨mine, hmine, hshare⟩ := Machine.bind_eq_ok.mp hreturns
  obtain rfl := Machine.pure_eq_ok.mp hshare
  obtain ⟨hlo, hhi⟩ := mySharedSize_fits h₀ h₁ hmine
  have hclip : ∀ size, toInt32 (min mine (x.room size)) = min mine (x.room size) := by
    intro size
    have hroom : 0 ≤ x.room size := le_max_right _ _
    exact toInt32_of_fits (by omega) (by omega)
  have hone : x.ClipsAlike register actual ↔ x.room register = x.room actual
      ∨ mine ≤ x.room register ∧ mine ≤ x.room actual := by
    unfold ClipsAlike
    rw [hmine]
    simp only [Except.ok.injEq, forall_eq']
  rw [hone, hmine]
  show Except.ok _ = Except.ok _ ↔ _
  rw [hclip, hclip, Except.ok.injEq]
  omega

end Extent

/-! ## The hooks -/

theorem SchedulerMethod.sizes_iff {m : SchedulerMethod σ ι} {taskSize : ι → Int}
    {item sized : GenericQueueItem ι} {actual given share : Int}
    {hook : Option (GenericQueueItem ι) → Int → Except Fault (Option (GenericQueueItem ι) × Int)}
    (hhook : m.schCurrentSize = some hook)
    (hcall : hook (some item) actual = .ok (some sized, given))
    (hsize : taskSize sized.embedded = given) :
    m.Sizes taskSize item actual share ↔ given = share := by
  constructor
  · rintro ⟨hook', sized', hhook', hcall', -⟩
    obtain rfl := Option.some.inj (hhook.symm.trans hhook')
    exact (Prod.mk.inj (Except.ok.inj (hcall.symm.trans hcall'))).2
  · rintro rfl
    exact ⟨hook, sized, hhook, hcall, hsize⟩

/-- **The five sizes of one read** are what `get_my_share` gives for the actual size of
the data file if and only if what the four calls find in the register of the missing
argument clips the share alike. -/
theorem current_size_hooks {x : Extent} {actual share : Int} (h₀ : -2 ^ 31 ≤ x.stripSize)
    (h₁ : x.stripSize < 2 ^ 31) (hreturns : x.share actual = .ok share)
    {sfqd : SfqdItem} (hsfqd : sfqd.embedded.extent = x)
    {sfqd2 : Sfqd2Item} (hsfqd2 : sfqd2.embedded.extent = x)
    {sfqd3 : Sfqd3Item} (hsfqd3 : sfqd3.embedded.extent = x)
    {twolsfqd : TwolsfqdItem} (htwolsfqd : twolsfqd.embedded.extent = x)
    {full : SfqdFullItem} (hfull : full.embedded.extent = x)
    (clock : Nat → Timeval) (calculateDiff : Nat → Globals SfqdFull → Int)
    (register : Scheduler → Int) :
    ((schSfqd (implicitShare (register .sfqd))).Sizes (·.taskSize) sfqd actual share
        ∧ (schSfqd2 (implicitShare (register .sfqd2))).Sizes (·.taskSize) sfqd2 actual share
        ∧ (schSfqd3 (implicitShare (register .sfqd3))).Sizes (·.taskSize) sfqd3 actual share
        ∧ (schTwolsfqd clock (implicitShare (register .twolsfqd))).Sizes (·.taskSize) twolsfqd
          actual share
        ∧ (schSfqdFull returnedShare calculateDiff).Sizes (·.taskSize) full actual share)
      ↔ ∀ k ∈ [Scheduler.sfqd, .sfqd2, .sfqd3, .twolsfqd], x.ClipsAlike (register k) actual := by
  have hgives : ∀ size, (x.share size).toOption.getD 0 = share ↔ x.ClipsAlike size actual := by
    intro size
    rw [← Extent.share_register h₀ h₁ hreturns]
    obtain ⟨mine, hmine⟩ := Extent.share_returns hreturns size
    rw [hmine, Except.ok.injEq]
    rfl
  have hown : (x.share actual).toOption.getD 0 = share := by
    rw [hreturns]
    rfl
  rw [SchedulerMethod.sizes_iff rfl rfl rfl, SchedulerMethod.sizes_iff rfl rfl rfl,
    SchedulerMethod.sizes_iff rfl rfl rfl, SchedulerMethod.sizes_iff rfl rfl rfl,
    SchedulerMethod.sizes_iff rfl rfl rfl]
  show ((sfqd.embedded.extent.share _).toOption.getD 0 = _
      ∧ (sfqd2.embedded.extent.share _).toOption.getD 0 = _
      ∧ (sfqd3.embedded.extent.share _).toOption.getD 0 = _
      ∧ (twolsfqd.embedded.extent.share _).toOption.getD 0 = _
      ∧ (full.embedded.extent.share _).toOption.getD 0 = _) ↔ _
  rw [hsfqd, hsfqd2, hsfqd3, htwolsfqd, hfull, hgives, hgives, hgives, hgives]
  simp only [hown, and_true, List.forall_mem_cons, List.not_mem_nil, false_implies,
    implies_true]

/-- Four bytes from the start of a file, all of them on the first of two servers. -/
def headRead : PvfsInfo where
  op := .io
  tag := 0
  aggregateSize := 4
  totalServer := 2
  reqSize := 4
  stripSize := 4

/-- The sockets of a client and its server. -/
def headSockets : SocketInfo where
  requestSocket := 0
  dataSocket := 1
  appIndex := 0
  rs := 0

/-- An empty file, and a register that is zero as well. -/
theorem current_size_hooks_example :
    let pool : Nat → Endpoint := fun _ => ⟨7, 0, 1⟩
    (schSfqd (implicitShare 0)).Sizes (·.taskSize)
        (sfqdNewItem pool headSockets headRead 0 4 0 0) 0 0
      ∧ (schSfqd2 (implicitShare 0)).Sizes (·.taskSize)
        (sfqd2NewItem pool headSockets headRead 0 4 0 0) 0 0
      ∧ (schSfqd3 (implicitShare 0)).Sizes (·.taskSize)
        (sfqd3NewItem pool headSockets headRead 0 4 0 0) 0 0
      ∧ (schTwolsfqd (fun _ => ⟨0, 0⟩) (implicitShare 0)).Sizes (·.taskSize)
        (twolsfqdNewItem pool headSockets headRead 0 4 0 0) 0 0
      ∧ (schSfqdFull returnedShare fun _ _ => 0).Sizes (·.taskSize)
        (sfqdFullNewItem pool headSockets headRead 0 0 4 0 4 0) 0 0 :=
  (@current_size_hooks headRead.extent 0 0 (by decide) (by decide) (by decide) _ rfl _ rfl _ rfl
    _ rfl _ rfl (fun _ => ⟨0, 0⟩) (fun _ _ => 0) fun _ => 0).mpr fun _ _ => .inl rfl

/-- With 4096 in the register the read of an empty file is taken to give four
bytes. -/
theorem current_size_hooks_fails :
    let item := sfqdNewItem (fun _ => ⟨7, 0, 1⟩) headSockets headRead 0 4 0 0
    headRead.extent.share 0 = .ok 0
      ∧ (schSfqd (implicitShare 4096)).Sizes (·.taskSize) item 0 4
      ∧ ¬ (schSfqd (implicitShare 4096)).Sizes (·.taskSize) item 0 0 :=
  ⟨by decide, ⟨_, _, rfl, rfl, rfl⟩,
    fun h => absurd ((SchedulerMethod.sizes_iff rfl rfl rfl).mp h) (by decide)⟩

end PvfsProxy
