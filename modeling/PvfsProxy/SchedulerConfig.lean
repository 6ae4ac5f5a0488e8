import PvfsProxy.ConfigurationLoad
import PvfsProxy.DsfqLines
import PvfsProxy.DsfqThreshold
import PvfsProxy.SfqdSlots
import PvfsProxy.VdsfqLines

/-!
# The settings of the schedulers

`sch_load_data_from_config` reads what a scheduler is run with from the dictionary of the
configuration. DSFQ and the two versions of vDSFQ check what they read, and no such setting
leaves a request behind. SFQD does not check its depth. DSFQ multiplies its threshold, which
the file gives in KB, by 1024, also where the file has none and the value is in bytes.
-/

namespace PvfsProxy

open SlotLine SlotTable

/-- `"%s:%s"` -/
def settingKey (scheduler entry : List Char) : List Char := scheduler ++ ':' :: entry

def depthEntry : List Char := ['d', 'e', 'p', 't', 'h']

def listenPortEntry : List Char := ['l', 'i', 's', 't', 'e', 'n', '_', 'p', 'o', 'r', 't']

def thresholdEntry : List Char := ['t', 'h', 'r', 'e', 's', 'h', 'o', 'l', 'd']

/-- `sfqd_load_data_from_config`: `sfqd_depth` -/
def sfqdLoadDataFromConfig (dict : Dictionary) : Except MemoryFault Int :=
  iniparserGetint dict (settingKey ['S', 'F', 'Q', 'D'] depthEntry) 1

/-- The settings of a scheduler that talks to other proxies. -/
structure ProxySettings where
  depth : Int
  listenPort : Int
  threshold : Int
deriving Repr, DecidableEq

/-- What the three loads have in common. There is no result where the proxy exits; `minShare`
tells whether the share that is read as a floating-point number is above 0.0001. -/
def loadProxySettings (scheduler : List Char) (defaults : ProxySettings) (scale : Int → Int)
    (activePort : Int) (minShare : Dictionary → Bool) (dict : Dictionary) :
    Except MemoryFault (Option ProxySettings) := do
  let depth ← iniparserGetint dict (settingKey scheduler depthEntry) defaults.depth
  let listenPort ← iniparserGetint dict (settingKey scheduler listenPortEntry) defaults.listenPort
  let threshold ← iniparserGetint dict (settingKey scheduler thresholdEntry) defaults.threshold
  if depth ≤ 0 then return none
  else if listenPort ≤ 1024 ∨ listenPort > 65535 then return none
  else if listenPort = activePort then return none
  else if threshold ≤ 0 then return none
  else if !minShare dict then return none
  else return some { depth, listenPort, threshold := scale threshold }

/-- `dsfq_load_data_from_config`. `dsfq_threshold` starts as 10 KB in bytes. -/
def dsfqLoadDataFromConfig := loadProxySettings ['D', 'S', 'F', 'Q']
  { depth := 1, listenPort := 3336, threshold := 10 * 1024 }
  fun threshold => toInt32 (threshold * 1024)

def vdsfqLoadDataFromConfig := loadProxySettings ['V', 'D', 'S', 'F', 'Q']
  { depth := 1, listenPort := 3336, threshold := 10 } id

def vdsfq2LoadDataFromConfig := loadProxySettings ['V', 'D', 'S', 'F', 'Q', '2']
  { depth := 1, listenPort := 3336, threshold := 1 } id

section load

variable {scheduler : List Char} {defaults : ProxySettings} {scale : Int → Int}
  {activePort : Int} {minShare : Dictionary → Bool} {dict : Dictionary} {c : ProxySettings}

theorem loadProxySettings_ok
    (h : loadProxySettings scheduler defaults scale activePort minShare dict = .ok (some c)) :
    1 ≤ c.depth ∧ 1024 < c.listenPort ∧ c.listenPort ≤ 65535 ∧ c.listenPort ≠ activePort
      ∧ ∃ threshold, 0 < threshold ∧ c.threshold = scale threshold
        ∧ iniparserGetint dict (settingKey scheduler thresholdEntry) defaults.threshold
          = .ok threshold := by
  obtain ⟨depth, -, h⟩ := Machine.bind_eq_ok.mp h
  obtain ⟨listenPort, -, h⟩ := Machine.bind_eq_ok.mp h
  obtain ⟨threshold, hthreshold, h⟩ := Machine.bind_eq_ok.mp h
  split at h
  · cases h
  split at h
  · cases h
  split at h
  · cases h
  split at h
  · cases h
  split at h
  · cases h
  · rename_i hdepth hport hconflict hpos hshare
    obtain rfl := Option.some.inj (Except.ok.inj h)
    rw [not_or] at hport
    dsimp only
    refine ⟨by omega, by omega, by omega, hconflict, threshold, by omega, rfl, hthreshold⟩

end load

/-! ## Nothing is left behind -/

/-- **The settings that pass leave no request behind.** Whatever the configuration holds, where
the proxy starts DSFQ, vDSFQ or vDSFQ2 with it: in every state the framework can reach, no
more requests are outstanding than the depth that was read, and once none is outstanding
every request that was enqueued has been returned. -/
theorem proxy_settings_serve_all {activePort : Int} {minShare : Dictionary → Bool}
    (dict : Dictionary) (c : ProxySettings) :
    (dsfqLoadDataFromConfig activePort minShare dict = .ok (some c) →
      ∀ s, dsfqLines.Reachable Arrival.Weighted DsfqThread.Counts (dsfqInit c.depth c.threshold) s →
        (s.outstanding.length : Int) ≤ c.depth
          ∧ (s.outstanding = [] → s.returned.Perm s.enqueued))
      ∧ (vdsfqLoadDataFromConfig activePort minShare dict = .ok (some c) →
        ∀ s, (vdsfqLines schVdsfq).Reachable Arrival.Weighted VdsfqThread.Counts
            (vdsfqInit c.depth c.threshold) s →
          (s.outstanding.length : Int) ≤ c.depth
            ∧ (s.outstanding = [] → s.returned.Perm s.enqueued))
      ∧ (vdsfq2LoadDataFromConfig activePort minShare dict = .ok (some c) →
        ∀ s, (vdsfqLines schVdsfq2).Reachable Arrival.Weighted VdsfqThread.Counts
            (vdsfqInit c.depth c.threshold) s →
          (s.outstanding.length : Int) ≤ c.depth
            ∧ (s.outstanding = [] → s.returned.Perm s.enqueued)) := by
  refine ⟨fun hload s hs => ?_, fun hload s hs => ?_, fun hload s hs => ?_⟩
  · have hdepth := (loadProxySettings_ok hload).1
    have hsound := dsfq_sound (by omega) hs
    exact ⟨hsound.good.1.bound, hsound.good.1.idle hdepth hsound.kept⟩
  · have hdepth := (loadProxySettings_ok hload).1
    have hsound := vdsfq_sound (.inl rfl) (by omega) hs
    exact ⟨hsound.good.1.bound, hsound.good.1.idle hdepth hsound.kept⟩
  · have hdepth := (loadProxySettings_ok hload).1
    have hsound := vdsfq_sound (.inr rfl) (by omega) hs
    exact ⟨hsound.good.1.bound, hsound.good.1.idle hdepth hsound.kept⟩

/-- The proxy of a configuration that says nothing. -/
def defaultSettings : ProxySettings :=
  { depth := 1, listenPort := 3336, threshold := 10 * 1024 * 1024 }

theorem dsfq_default_settings :
    dsfqLoadDataFromConfig 3334 (fun _ => true) (dictionaryNew 0) = .ok (some defaultSettings) := by
  decide +kernel

/-- A request comes and completes. -/
theorem proxy_settings_serve_all_example :
    ∃ s : LineRun Dsfq DsfqQueueItem, s.returned.map (·.itemId) = [0]
      ∧ s.returned.Perm s.enqueued := by
  obtain ⟨s, hrun, hs⟩ := Machine.Run.exists_of_exec
    (LineRun.Allowed Arrival.Weighted DsfqThread.Counts) (LineRun.step dsfqLines)
    (.init { sched := dsfqInit 1 (10 * 1024 * 1024), appStats := fun _ => { appWeight := 1 },
             totalThroughput := 0 } fun _ => none)
    [.arrive (lineArrival _ 1 0), .complete dsfqFirstItem 4096 0]
    (fun s => (s.returned.map (·.itemId), s.outstanding.map (·.itemId)))
    (a := ([0], [])) (by decide +kernel)
  obtain ⟨hreturned, hidle⟩ := Prod.mk.inj hs
  have hserved := (proxy_settings_serve_all (dictionaryNew 0) defaultSettings).1
    dsfq_default_settings s ⟨_, _, _, fun _ => rfl, hrun⟩
  exact ⟨s, hreturned, hserved.2 (List.map_eq_nil_iff.mp hidle)⟩

/-! ## A depth that is not checked -/

theorem sfqd_first_waits (myShare : Int → Int → Int → Int → Int → Int) {depth : Int}
    (hdepth : depth ≤ 0) :
    ∃ s, SfqdRun.Reachable myShare depth s ∧ s.outstanding = [] ∧ s.returned = []
      ∧ s.enqueued ≠ [] := by
  let s₀ : SfqdRun := .init depth (fun _ => { appWeight := 1 }) fun _ => none
  let a := sampleArrival 1 0
  have hstart : ∃ r, sfqdEnqueue a.pool a.si a.pi s₀.g = .ok r := ⟨_, rfl⟩
  obtain ⟨⟨g, b⟩, henq⟩ := hstart
  obtain ⟨q, finishTag, streamId, -, -, hb, hg⟩ := sfqdEnqueue_ok henq
  have hwaits : b = false := by
    rw [hb]
    exact decide_eq_false (not_lt.mpr hdepth)
  subst hwaits
  have hout : (schSfqd myShare).schEnqueue a.pool a.si a.pi s₀.g
      = .ok { globals := g, ret := false } := Machine.bind_eq_ok.mpr ⟨_, henq, rfl⟩
  obtain ⟨⟨g', mem', item⟩, hadmit⟩ := admitRequest_exists hout rfl .newIo a.pi.currentDataSize
    (s₀.mem.alloc a.rs a.newRs)
  obtain ⟨g₁, ⟨henq', -⟩ | ⟨henq', rfl, rfl, rfl⟩⟩ := admitRequest_cases hadmit
  all_goals obtain ⟨rfl, hb'⟩ := Prod.mk.inj (Except.ok.inj (henq.symm.trans henq'))
  · cases hb'
  have hstep : s₀.step myShare (.arrive a) = .ok (s₀.delayed a g) :=
    Machine.bind_eq_ok.mpr ⟨_, henq, Machine.bind_eq_ok.mpr ⟨_, hadmit, rfl⟩⟩
  have hallowed : s₀.Allowed (.arrive a) := ⟨rfl, rfl⟩
  have hunlocked : ∀ p rs, s₀.mem p = some rs → rs.locked = false := by
    intro p rs hrs
    cases hrs
  refine ⟨s₀.delayed a g, ⟨_, _, [.arrive a], hunlocked, .single hallowed hstep⟩, rfl, rfl, ?_⟩
  · show g.sched.queued ≠ []
    unfold Sfqd.queued
    rw [hg]
    exact List.append_ne_nil_of_right_ne_nil _ (List.cons_ne_nil _ _)

theorem sfqd_serves_iff (myShare : Int → Int → Int → Int → Int → Int) (depth : Int) :
    (∀ s, SfqdRun.Reachable myShare depth s → s.outstanding = [] →
      s.returned.Perm s.enqueued) ↔ 0 < depth := by
  refine ⟨fun hall => ?_, fun hpos s hs hidle => ?_⟩
  · by_contra hzero
    obtain ⟨s, hs, hidle, hreturned, hne⟩ := sfqd_first_waits myShare (not_lt.mp hzero)
    have hperm := hall s hs hidle
    rw [hreturned] at hperm
    exact hne hperm.symm.eq_nil
  · have hslots := hs.slots (Int.le_of_lt hpos)
    have hnone : s.queued = [] := by
      by_contra hne
      have hfull := hslots.full hne
      rw [hslots.depth, hs.depth_eq, hidle] at hfull
      simp only [List.length_nil, Nat.cast_zero] at hfull
      omega
    have hhistory := hslots.history
    rw [hnone, List.append_nil] at hhistory
    exact hhistory

theorem iniparserGetint_strlwc (d : Dictionary) (key : List Char) (notfound : Int) :
    iniparserGetint d key notfound = iniparserGetint d (strlwc key) notfound := by
  unfold iniparserGetint iniparserGetstring
  rw [strlwc_idem]

def sfqdDepthKey : List Char := ['s', 'f', 'q', 'd', ':', 'd', 'e', 'p', 't', 'h']

/-- **SFQD takes any depth.** The number the configuration gives as the depth is taken as
it is, whatever its sign. Of the runs over it, every request that was enqueued has been
returned once none is outstanding, in every state the framework can reach, if and only if the
depth is positive. -/
theorem sfqd_depth_unchecked (myShare : Int → Int → Int → Int → Int → Int) {dict : Dictionary}
    (hwf : dict.Wf) {s : List Char} (hs : dict.find sfqdDepthKey = some (some s)) :
    ∃ depth, sfqdLoadDataFromConfig dict = .ok depth ∧ depth = toInt32 (CString.strtol s)
      ∧ (∀ n : Nat, IsNumber (dict.find sfqdDepthKey) n → depth = n)
      ∧ ((∀ s, SfqdRun.Reachable myShare depth s → s.outstanding = [] →
        s.returned.Perm s.enqueued) ↔ 0 < depth) := by
  have hkey : strlwc (settingKey ['S', 'F', 'Q', 'D'] depthEntry) = sfqdDepthKey := by decide
  have hload : sfqdLoadDataFromConfig dict = iniparserGetint dict sfqdDepthKey 1 := by
    unfold sfqdLoadDataFromConfig
    rw [iniparserGetint_strlwc, hkey]
  have hvalue : iniparserGetint dict sfqdDepthKey 1 = .ok (toInt32 (CString.strtol s)) := by
    unfold iniparserGetint
    rw [getstring_value hwf (by decide) hs]
  refine ⟨toInt32 (CString.strtol s), hload.trans hvalue, rfl, fun n hn => ?_, ?_⟩
  · rw [getint_number hwf (by decide) hn] at hvalue
    exact (Except.ok.inj hvalue).symm
  · exact sfqd_serves_iff myShare _

/-- The configuration `depth=-1` -/
def noSlotFile : List (List Char) :=
  [['[', 'S', 'F', 'Q', 'D', ']'], ['d', 'e', 'p', 't', 'h', '=', '-', '1']]

theorem sfqd_depth_unchecked_example :
    ∃ d, iniparserLoad 'x' (iniFile noSlotFile) = .ok (some d)
      ∧ ∃ depth, sfqdLoadDataFromConfig d = .ok depth ∧ depth = -1
        ∧ ¬ ∀ s, SfqdRun.Reachable (fun _ _ _ _ _ => 0) depth s → s.outstanding = [] →
          s.returned.Perm s.enqueued := by
  have hplain : ∀ raw ∈ noSlotFile, PlainLine 'x' raw := by decide
  obtain ⟨d, hd, hwf, hfind⟩ : ∃ d, iniparserLoad 'x' (iniFile noSlotFile) = .ok (some d) ∧ d.Wf
      ∧ d.find = Function.update (Function.update (fun _ => none) ['s', 'f', 'q', 'd'] (some none))
        sfqdDepthKey (some (some ['-', '1'])) := load_lines hplain
  have hdepth : d.find sfqdDepthKey = some (some ['-', '1']) := by
    rw [hfind, Function.update_self]
  obtain ⟨depth, hload, hvalue, -, hiff⟩ := sfqd_depth_unchecked (fun _ _ _ _ _ => 0) hwf hdepth
  obtain rfl : depth = -1 := hvalue.trans (by decide)
  exact ⟨d, hd, -1, hload, rfl, fun hall => absurd (hiff.mp hall) (by decide)⟩

/-! ## The threshold -/

def dsfqThresholdKey : List Char :=
  ['d', 's', 'f', 'q', ':', 't', 'h', 'r', 'e', 's', 'h', 'o', 'l', 'd']

/-- **The threshold of DSFQ and its default.** With a threshold of a number of KB in the
configuration a proxy tells its peers nothing, in any run, before that many KB have been
counted. Without one it waits for 10 MB, since the default of 10 KB is in bytes already when
it is multiplied by 1024. -/
theorem dsfq_threshold_default {activePort : Int} {minShare : Dictionary → Bool}
    {dict : Dictionary} (hwf : dict.Wf) {c : ProxySettings}
    (hload : dsfqLoadDataFromConfig activePort minShare dict = .ok (some c)) {bytes : Int}
    (hbytes : (∃ kb : Nat, IsNumber (dict.find dsfqThresholdKey) kb ∧ kb < 2 ^ 21
        ∧ bytes = kb * 1024)
      ∨ dict.find dsfqThresholdKey = none ∧ bytes = 10 * 1024 * 1024) :
    c.threshold = bytes ∧ 0 < bytes
      ∧ ∀ {numApps servers : Nat} {appStats : Nat → AppStatistics} {es : List DsfqProxy.Event}
          {s : DsfqProxy},
        Machine.Run (fun s e => DsfqProxy.InApps numApps s e ∧ DsfqProxy.Sized e)
          (DsfqProxy.step numApps servers) (.init c.depth c.threshold appStats) es s →
        s.totalBytes < bytes → ∀ i < servers, s.broadcast.placed i = [] := by
  have hkey : strlwc (settingKey ['D', 'S', 'F', 'Q'] thresholdEntry) = dsfqThresholdKey := by
    decide
  obtain ⟨-, -, -, -, threshold, hpos, hscale, hread⟩ := loadProxySettings_ok hload
  rw [iniparserGetint_strlwc, hkey] at hread
  have hthreshold : c.threshold = bytes ∧ 0 < bytes := by
    rcases hbytes with ⟨kb, hkb, hlt, rfl⟩ | ⟨hmissing, rfl⟩
    · rw [getint_number hwf (by decide) hkb] at hread
      obtain rfl := Except.ok.inj hread
      rw [hscale, toInt32_eq (by omega) (by omega)]
      exact ⟨rfl, by omega⟩
    · rw [getint_missing hwf (by decide) hmissing] at hread
      obtain rfl := Except.ok.inj hread
      rw [hscale]
      exact ⟨by decide, by decide⟩
  refine ⟨hthreshold.1, hthreshold.2, fun hrun htotal i hi => ?_⟩
  rw [hthreshold.1] at hrun
  exact (DsfqProxy.Batched.run hthreshold.2 hrun).placed_nil hthreshold.2 hi htotal

/-- 4 KB are counted, with the default threshold. -/
theorem dsfq_threshold_default_example :
    ∃ s : DsfqProxy, s.totalBytes = 4096 ∧ s.broadcast.placed 0 = [] := by
  obtain ⟨s, hrun, hs⟩ := Machine.Run.exists_of_exec
    (fun s e => DsfqProxy.InApps 1 s e ∧ DsfqProxy.Sized e) (DsfqProxy.step 1 1)
    (.init defaultSettings.depth defaultSettings.threshold fun _ => { appWeight := 1 })
    [.count (fun _ => { socket := 5, appIndex := 0, weight := 1 })
        { requestSocket := 0, dataSocket := 0, appIndex := 0, rs := 0 }
        { op := .io, tag := 7, reqSize := 64, currentDataSize := 4096 },
      .coordinate]
    (fun s => s.totalBytes) (a := 4096) (by decide +kernel)
  have hnew := dictionaryNew_holds 0
  have hmissing : (dictionaryNew 0).find dsfqThresholdKey = none := congrFun hnew.find _
  obtain ⟨-, -, hnone⟩ :=
    dsfq_threshold_default hnew.wf dsfq_default_settings (.inr ⟨hmissing, rfl⟩)
  exact ⟨s, hs, hnone hrun (by omega) 0 (by decide)⟩

end PvfsProxy
