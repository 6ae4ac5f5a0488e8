import PvfsProxy.TwolsfqdDeadlines

/-!
# The locks of 2LSFQD

`twolsfqd_edf_dequeue` unlocks the request it releases. Whether a new request is
locked, `twolsfqd_enqueue` reads from the `dispatched` of its item when the
dispatch is over. `twolsfqd_edf_enqueue` has overwritten that: with 1 if the
round of the item released any item of its socket, with 0 if it did not, even
where the item was released later in the same dispatch. A request is locked
exactly while it is queued as long as no arrival meets one of the two
(`TwolsfqdRun.Calm`), and no response at the end of a file lets the framework
dequeue a request itself.
-/

namespace PvfsProxy

open StableSort

/-! ## Nothing is lost -/

/-- What waits, the EDF queue and what was unlocked make up `all`. -/
def TwolsfqdBalanced (all : List TwolsfqdItem) (c : TwolsfqdCall) : Prop :=
  ∃ gone, (c.sched.waiting ++ (c.sched.edf ++ gone)).Perm all
    ∧ c.unlocked = gone.map (·.socketData.rs)

theorem twolsfqdBalanced_keeps (clock : Nat → Timeval) (all : List TwolsfqdItem) :
    TwolsfqdKeeps clock fun _ c => TwolsfqdBalanced all c where
  skip := by
    rintro h c s hc hskips
    rcases hskips with rfl | ⟨i, -, rfl⟩
    · exact hc
    · exact hc
  replenish hc := hc
  move := by
    rintro h c app item released kept c' ⟨gone, hperm, hunlocked⟩ hmove
    refine ⟨gone ++ released, ?_, ?_⟩
    · have hwaiting := hmove.waiting
      have hedf := hmove.edf_perm
      rw [Twolsfqd.edf_eq hmove.queue]
      rw [List.perm_iff_count] at hperm hwaiting hedf ⊢
      intro a
      have h₁ := hperm a
      have h₂ := hwaiting a
      have h₃ := hedf a
      simp only [List.count_append, List.count_cons, List.count_nil] at h₁ h₂ h₃ ⊢
      omega
    · rw [hmove.unlocked, hunlocked, List.map_append]
  round := by
    rintro h c released kept c' ⟨gone, hperm, hunlocked⟩ hround
    refine ⟨gone ++ released, ?_, ?_⟩
    · rw [hround.sarc.waiting, Twolsfqd.edf_eq hround.left.queue]
      rw [Twolsfqd.edf_eq hround.found] at hperm
      rw [List.perm_iff_count] at hperm ⊢
      intro a
      have h₁ := hperm a
      simp only [List.count_append] at h₁ ⊢
      omega
    · rw [hround.left.unlocked, List.map_append]
      exact congrArg (· ++ _) hunlocked
  settle _ _ hc := hc

theorem twolsfqdItemId_keeps (clock : Nat → Timeval) (n : Int) :
    TwolsfqdKeeps clock fun _ c => c.sched.itemId = n where
  skip := by
    rintro h c s hc hskips
    rcases hskips with rfl | ⟨i, -, rfl⟩
    · exact hc
    · exact hc
  replenish hc := hc
  move hc hmove := hmove.config.itemId.trans hc
  round hc hround := hround.sarc.itemId.trans hc
  settle _ _ hc := hc

/-! ## The watched request -/

/-- No clock reading of the step is past the deadline of an item that enters in
it. -/
def TwolsfqdRun.Settings.Prompt (σ : TwolsfqdRun.Settings) (first last : Nat) : Prop :=
  ((σ.clock first).add (twolsfqdDeadline (σ.latency 0))).le (σ.clock last) = false

/-- Nor past that of one that enters later. -/
theorem TwolsfqdRun.Settings.Prompt.mono {σ : TwolsfqdRun.Settings} {first last m : Nat}
    (h : σ.Prompt first last) (hm : first ≤ m) :
    ((σ.clock m).add (twolsfqdDeadline (σ.latency 0))).le (σ.clock last) = false := by
  by_contra hdue
  rw [Bool.not_eq_false] at hdue
  have hadd := Timeval.add_le_add (twolsfqdDeadline (σ.latency 0)) (σ.normal first) (σ.normal m)
    (σ.micros_mono hm)
  rw [TwolsfqdRun.Settings.Prompt, Timeval.le_trans hadd hdue] at h
  cases h

/-- In what is left of the step the EDF queue is left at once by what enters it,
or no item of the socket that is there falls due. -/
def TwolsfqdCalm (σ : TwolsfqdRun.Settings) (socket : Int) (first last slack : Nat)
    (s : Twolsfqd) : Prop :=
  s.Room s.timewindowQueueThreshold s.waiting.length
  ∨ (σ.Prompt first last ∧ first ≤ s.ticks ∧ s.ticks + 3 * s.waiting.length + slack ≤ last + 2
    ∧ (s.edf ≠ [] → s.timewindowQueueThreshold ≤ s.timewindowCurrentQueueLength)
    ∧ ∀ y ∈ s.edf, y.embedded.requestSocket = socket → ¬ s.Due (σ.clock last) y)

/-- How far a request has come, as its mark says: it waits for credits, is in
the EDF queue, or was released. -/
def TwolsfqdStage (x : TwolsfqdItem) (s : Twolsfqd) : Option Bool → Prop
  | none => x ∈ s.waiting ∧ (s.marks x.itemId).dispatched = -1
  | some false => x ∈ s.edf ∧ (s.marks x.itemId).dispatched = 0
  | some true => x ∉ s.waiting ∧ x ∉ s.edf ∧ (s.marks x.itemId).dispatched = 1

section watched

variable {σ : TwolsfqdRun.Settings} {socket : Int} {first last slack : Nat}
  {c c' : TwolsfqdCall} {app : Nat} {item x : TwolsfqdItem} {released kept : List TwolsfqdItem}

theorem Twolsfqd.Due.mono {s : Twolsfqd} {m n : Nat} {y : TwolsfqdItem} (hmn : m ≤ n)
    (h : s.Due (σ.clock m) y) : s.Due (σ.clock n) y :=
  Timeval.le_trans h ((Timeval.le_iff (σ.normal m) (σ.normal n)).mpr (σ.micros_mono hmn))

/-- Of one socket nothing but the item that enters is released, and the rest of
the step is as calm. -/
theorem TwolsfqdCalm.move (h : TwolsfqdCalm σ socket first last slack c.sched)
    (hc : TwolsfqdConfigured σ c.sched)
    (hmove : TwolsfqdMoved σ.clock app item released kept c c') :
    (∀ r ∈ released, r.embedded.requestSocket = socket → r = item)
      ∧ TwolsfqdCalm σ socket first last (slack + 1) c'.sched := by
  have hperm := hmove.edf_perm
  rcases h with hroom | ⟨hprompt, hfirst, hticks, hfull, hnot⟩
  · obtain ⟨rfl, rfl, hroom'⟩ := hmove.room hroom
    exact ⟨fun r hr _ => List.mem_singleton.mp hr, .inl hroom'⟩
  · have hlength := hmove.waiting.length_eq
    rw [List.length_cons] at hlength
    have hnew := hprompt.mono hfirst
    -- neither the item that enters nor those of the socket fall due
    have hnot' : ∀ y ∈ c.sched.edf ++ [item], y.embedded.requestSocket = socket →
        ¬ c'.sched.Due (σ.clock last) y := by
      intro y hy hsocket hdue
      unfold Twolsfqd.Due at hdue
      rw [hmove.deadline, hc.deadlines] at hdue
      split at hdue
      · rw [hnew] at hdue
        cases hdue
      · rename_i hne
        rcases List.mem_append.mp hy with hy | hy
        · exact hnot y hy hsocket hdue
        · exact hne (congrArg _ (List.mem_singleton.mp hy))
    refine ⟨fun r hr hsocket => ?_, .inr ⟨hprompt, ?_, ?_, ?_, ?_⟩⟩
    · have hmem := hperm.subset (List.mem_append_left _ hr)
      rcases List.mem_append.mp hmem with hold | hself
      · -- the queue was not empty, so that only what is due is released
        rcases hmove.due r hr with hdue | hfree
        · exact absurd (hdue.mono (by omega)) (hnot' r hmem hsocket)
        · have hle := hfull (List.ne_nil_of_mem hold)
          omega
      · exact List.mem_singleton.mp hself
    · rw [hmove.ticks]
      omega
    · rw [hmove.ticks]
      omega
    · intro hne
      refine hmove.full fun hnil => hne ?_
      rw [Twolsfqd.edf_eq hmove.queue, hnil]
    · intro y hy hsocket
      rw [Twolsfqd.edf_eq hmove.queue] at hy
      exact hnot' y (hperm.subset (List.mem_append_right _ hy)) hsocket

/-- The credits may be replenished, for which the clock is read. -/
theorem TwolsfqdCalm.spare (h : TwolsfqdCalm σ socket first last (slack + 1) c.sched) :
    TwolsfqdCalm σ socket first last slack
      (c.setSched (twolsfqdUpdateSpareness σ.clock c.sched)).sched := by
  show TwolsfqdCalm σ socket first last slack (twolsfqdUpdateSpareness σ.clock c.sched)
  unfold twolsfqdUpdateSpareness
  rcases h with hroom | ⟨hprompt, hfirst, hticks, hfull, hnot⟩
  · split
    · exact .inl hroom
    · exact .inl hroom
  · split
    · refine .inr ⟨hprompt, hfirst.trans (Nat.le_succ _), ?_, hfull, hnot⟩
      show c.sched.ticks + 1 + 3 * c.sched.waiting.length + slack ≤ last + 2
      omega
    · exact .inr ⟨hprompt, hfirst, by omega, hfull, hnot⟩

theorem TwolsfqdCalm.settled (h : TwolsfqdCalm σ socket first last slack c.sched)
    (item : TwolsfqdItem) (dispatched : Bool) :
    TwolsfqdCalm σ socket first last slack (c.settled item dispatched).sched := by
  rcases h with hroom | ⟨hprompt, hfirst, hticks, hfull, hnot⟩
  · exact .inl hroom
  · refine .inr ⟨hprompt, hfirst, hticks, hfull, fun y hy hsocket hdue => hnot y hy hsocket ?_⟩
    unfold Twolsfqd.Due at hdue ⊢
    have hdeadline : ((c.settled item dispatched).sched.marks y.itemId).deadline
        = (c.sched.marks y.itemId).deadline := by
      show (Function.update c.sched.marks item.itemId _ y.itemId).deadline = _
      by_cases hid : y.itemId = item.itemId
      · rw [hid, Function.update_self]
      · rw [Function.update_of_ne hid]
    rw [← hdeadline]
    exact hdue

theorem TwolsfqdCalm.less (h : TwolsfqdCalm σ socket first last (slack + 1) c.sched) :
    TwolsfqdCalm σ socket first last slack c.sched := by
  rcases h with hroom | ⟨hprompt, hfirst, hticks, hfull, hnot⟩
  · exact .inl hroom
  · exact .inr ⟨hprompt, hfirst, by omega, hfull, hnot⟩

variable {all : List TwolsfqdItem} {k : Option Bool}

/-- Two requests with one id are one. -/
theorem eq_of_mem_of_id (hall : (all.map (·.itemId)).Nodup) {a b : TwolsfqdItem} (ha : a ∈ all)
    (hb : b ∈ all) (hid : a.itemId = b.itemId) : a = b :=
  List.inj_on_of_nodup_map hall ha hb hid

/-- What a move finds where nothing is lost: every request is in one place. -/
structure TwolsfqdApart (all : List TwolsfqdItem) (item : TwolsfqdItem)
    (released : List TwolsfqdItem) (c c' : TwolsfqdCall) : Prop where
  sub : ∀ y ∈ c.sched.edf ++ [item], y ∈ all
  apart : ∀ y ∈ c.sched.waiting, y ∉ c.sched.edf
  waits : item ∈ c.sched.waiting
  left : item ∉ c'.sched.waiting
  found : ∀ r ∈ released, r ∈ c.sched.edf ++ [item]
  kept : c'.sched.edf ⊆ c.sched.edf ++ [item]
  stays : ∀ y ∈ c.sched.edf ++ [item], y ∉ released → y ∈ c'.sched.edf
  gone : ∀ y ∈ released, y ∉ c'.sched.edf

theorem TwolsfqdBalanced.apart (hall : (all.map (·.itemId)).Nodup) (hbal : TwolsfqdBalanced all c)
    (hmove : TwolsfqdMoved σ.clock app item released kept c c') :
    TwolsfqdApart all item released c c' := by
  obtain ⟨gone, hperm, -⟩ := hbal
  have hwaiting := hmove.waiting
  have hentered := hmove.edf_perm
  have hkept : c'.sched.edf = kept := Twolsfqd.edf_eq hmove.queue
  obtain ⟨hw, hrest, hdisjoint⟩ :=
    List.nodup_append.mp (hperm.nodup_iff.mpr (List.Nodup.of_map _ hall))
  have hitem : item ∈ c.sched.waiting := hwaiting.symm.subset (List.mem_cons_self ..)
  have hapart : ∀ y ∈ c.sched.waiting, y ∉ c.sched.edf := fun y hy hy' =>
    hdisjoint y hy y (List.mem_append_left _ hy') rfl
  have hnodup : (released ++ kept).Nodup := by
    rw [hentered.nodup_iff, List.nodup_append]
    refine ⟨(List.nodup_append.mp hrest).1, List.nodup_singleton _, ?_⟩
    rintro y hy z hz rfl
    rw [List.mem_singleton.mp hz] at hy
    exact hapart item hitem hy
  refine { sub := ?_, apart := hapart, waits := hitem, left := ?_, found := ?_, kept := ?_
           stays := ?_, gone := ?_ }
  · intro y hy
    refine hperm.subset ?_
    rcases List.mem_append.mp hy with hy | hy
    · exact List.mem_append_right _ (List.mem_append_left _ hy)
    · exact List.mem_append_left _ (List.mem_singleton.mp hy ▸ hitem)
  · exact (List.nodup_cons.mp (hwaiting.nodup_iff.mp hw)).1
  · exact fun r hr => hentered.subset (List.mem_append_left _ hr)
  · rw [hkept]
    exact fun y hy => hentered.subset (List.mem_append_right _ hy)
  · intro y hy hr
    rw [hkept]
    exact (List.mem_append.mp (hentered.symm.subset hy)).resolve_left hr
  · intro y hy hk
    rw [hkept] at hk
    exact (List.nodup_append.mp hnodup).2.2 y hy y hk rfl

/-- The mark after a move, by what happens to the request itself. -/
theorem TwolsfqdMoved.mark (hall : (all.map (·.itemId)).Nodup) (hx : x ∈ all)
    (hmove : TwolsfqdMoved σ.clock app item released kept c c')
    (hapart : TwolsfqdApart all item released c c') :
    (c'.sched.marks x.itemId).dispatched = if x ∈ released then 1
      else if x = item then 0 else (c.sched.marks x.itemId).dispatched := by
  have hin : x.itemId ∈ released.map (·.itemId) ↔ x ∈ released := by
    refine ⟨fun hid => ?_, fun hr => List.mem_map_of_mem hr⟩
    obtain ⟨r, hr, hid⟩ := List.mem_map.mp hid
    exact eq_of_mem_of_id hall (hapart.sub r (hapart.found r hr)) hx hid ▸ hr
  have hitem := hapart.sub item (List.mem_append_right _ (List.mem_singleton_self _))
  have hself : x.itemId = item.itemId ↔ x = item := ⟨eq_of_mem_of_id hall hx hitem, congrArg _⟩
  rw [hmove.dispatched]
  simp only [hin, hself]

/-- The request that enters the EDF queue is marked with what its round did to
its socket, which was to it if to anything. -/
theorem TwolsfqdStage.enters (hmove : TwolsfqdMoved σ.clock app x released kept c c')
    (hall : (all.map (·.itemId)).Nodup) (hx : x ∈ all)
    (hapart : TwolsfqdApart all x released c c')
    (honly : ∀ r ∈ released, r.embedded.requestSocket = x.embedded.requestSocket → r = x) :
    TwolsfqdStage x c'.sched (some (released.any fun r =>
      r.embedded.requestSocket == x.embedded.requestSocket)) := by
  have hmark := hmove.mark hall hx hapart
  by_cases hr : x ∈ released
  · have hany : (released.any fun r =>
        r.embedded.requestSocket == x.embedded.requestSocket) = true :=
      List.any_eq_true.mpr ⟨x, hr, beq_self_eq_true _⟩
    rw [hany]
    refine ⟨hapart.left, hapart.gone x hr, ?_⟩
    rw [hmark, if_pos hr]
  · have hany : (released.any fun r =>
        r.embedded.requestSocket == x.embedded.requestSocket) = false := by
      rw [List.any_eq_false]
      intro r hr' hsocket
      exact hr (honly r hr' (eq_of_beq hsocket) ▸ hr')
    rw [hany]
    refine ⟨hapart.stays x (List.mem_append_right _ (List.mem_singleton_self _)) hr, ?_⟩
    rw [hmark, if_neg hr, if_pos rfl]

/-- Where another request enters, a request stays where it is. -/
theorem TwolsfqdStage.other (hmove : TwolsfqdMoved σ.clock app item released kept c c')
    (hall : (all.map (·.itemId)).Nodup) (hx : x ∈ all)
    (hapart : TwolsfqdApart all item released c c')
    (honly : ∀ r ∈ released, r.embedded.requestSocket = x.embedded.requestSocket → r = item)
    (hne : x ≠ item) (hk : TwolsfqdStage x c.sched k) : TwolsfqdStage x c'.sched k := by
  have hmark := hmove.mark hall hx hapart
  have hwaiting := hmove.waiting
  have hr : x ∉ released := fun hr => hne (honly x hr rfl)
  rw [if_neg hr, if_neg hne] at hmark
  match k, hk with
  | none, ⟨hin, hold⟩ =>
      exact ⟨(List.mem_cons.mp (hwaiting.subset hin)).resolve_left hne, hmark.trans hold⟩
  | some false, ⟨hin, hold⟩ =>
      exact ⟨hapart.stays x (List.mem_append_left _ hin) hr, hmark.trans hold⟩
  | some true, ⟨hout, hout', hold⟩ =>
      refine ⟨fun hin => hout (hwaiting.symm.subset (List.mem_cons_of_mem _ hin)), ?_,
        hmark.trans hold⟩
      intro hin
      rcases List.mem_append.mp (hapart.kept hin) with hmem | hmem
      · exact hout' hmem
      · exact hne (List.mem_singleton.mp hmem)

/-- What one move means for a request. -/
theorem TwolsfqdStage.move (hall : (all.map (·.itemId)).Nodup) (hbal : TwolsfqdBalanced all c)
    (hx : x ∈ all) (hmove : TwolsfqdMoved σ.clock app item released kept c c')
    (honly : ∀ r ∈ released, r.embedded.requestSocket = x.embedded.requestSocket → r = item)
    (hk : TwolsfqdStage x c.sched k) :
    (item.itemId ≠ x.itemId ∧ TwolsfqdStage x c'.sched k)
      ∨ (item = x ∧ k = none ∧ TwolsfqdStage x c'.sched
        (some (released.any fun r =>
          r.embedded.requestSocket == item.embedded.requestSocket))) := by
  have hapart := hbal.apart hall hmove
  by_cases heq : item = x
  · subst heq
    refine .inr ⟨rfl, ?_, .enters hmove hall hx hapart honly⟩
    match k, hk with
    | none, _ => rfl
    | some false, hk => exact absurd hk.1 (hapart.apart item hapart.waits)
    | some true, hk => exact absurd hapart.waits hk.1
  · refine .inl ⟨fun hid => heq ?_, hk.other hmove hall hx hapart honly (Ne.symm heq)⟩
    have hitem := hapart.sub item (List.mem_append_right _ (List.mem_singleton_self _))
    exact eq_of_mem_of_id hall hitem hx hid

/-- The outcome of its round is what it is already marked with; other marks are
not touched. -/
theorem TwolsfqdStage.settled (item : TwolsfqdItem) (dispatched : Bool)
    (hid : item.itemId = x.itemId → k = some dispatched) (hk : TwolsfqdStage x c.sched k) :
    TwolsfqdStage x (c.settled item dispatched).sched k := by
  have hmark : ((c.settled item dispatched).sched.marks x.itemId).dispatched
      = if item.itemId = x.itemId then if dispatched then 1 else 0
        else (c.sched.marks x.itemId).dispatched := by
    show (Function.update c.sched.marks item.itemId _ x.itemId).dispatched = _
    by_cases heq : item.itemId = x.itemId
    · rw [heq, Function.update_self, if_pos rfl]
    · rw [Function.update_of_ne (Ne.symm heq), if_neg heq]
  have hnew : ∀ d : Int, (c.sched.marks x.itemId).dispatched = d →
      (∀ b, k = some b → d = if b then 1 else 0) →
      ((c.settled item dispatched).sched.marks x.itemId).dispatched = d := by
    intro d hold hd
    rw [hmark]
    split
    · rename_i heq
      exact (hd _ (hid heq)).symm
    · exact hold
  cases k with
  | none => exact ⟨hk.1, hnew _ hk.2 fun b hb => by cases hb⟩
  | some b =>
      cases b with
      | false => exact ⟨hk.1, hnew _ hk.2 fun b hb => by cases hb; rfl⟩
      | true => exact ⟨hk.1, hk.2.1, hnew _ hk.2.2 fun b hb => by cases hb; rfl⟩

theorem TwolsfqdStage.skips {s s' : Twolsfqd} (hskips : s.Skips s') (hk : TwolsfqdStage x s k) :
    TwolsfqdStage x s' k := by
  rcases hskips with rfl | ⟨i, -, rfl⟩
  · exact hk
  · exact hk

theorem TwolsfqdStage.spare (hk : TwolsfqdStage x c.sched k) :
    TwolsfqdStage x (c.setSched (twolsfqdUpdateSpareness σ.clock c.sched)).sched k := by
  show TwolsfqdStage x (twolsfqdUpdateSpareness σ.clock c.sched) k
  unfold twolsfqdUpdateSpareness
  split
  · exact hk
  · exact hk

theorem TwolsfqdCalm.skips {s s' : Twolsfqd} (hskips : s.Skips s')
    (h : TwolsfqdCalm σ socket first last slack s) : TwolsfqdCalm σ socket first last slack s' := by
  rcases hskips with rfl | ⟨i, -, rfl⟩
  · exact h
  · exact h

/-- **The mark tells.** In a calm dispatch a request that waits for credits ends
as its mark says, and where one is in the EDF queue or released it stays so. -/
theorem TwolsfqdDrains.stage {log : List TwolsfqdEvent} (hall : (all.map (·.itemId)).Nodup)
    (hx : x ∈ all) (hd : TwolsfqdDrains σ.clock c log c') (hbal : TwolsfqdBalanced all c)
    (hc : TwolsfqdConfigured σ c.sched)
    (hcalm : TwolsfqdCalm σ x.embedded.requestSocket first last slack c.sched)
    (hk : TwolsfqdStage x c.sched k) :
    (∃ k', (k ≠ none → k' = k) ∧ TwolsfqdStage x c'.sched k')
      ∧ TwolsfqdCalm σ x.embedded.requestSocket first last slack c'.sched := by
  have hbalanced := twolsfqdBalanced_keeps σ.clock all
  have hconfigured := (twolsfqdConfigured_holds σ).parts
  induction hd generalizing k with
  | done hskips hnone => exact ⟨⟨k, fun _ => rfl, hk.skips hskips⟩, hcalm.skips hskips⟩
  | @move c c₁ c' app item kept log hmove hrest ih =>
      have hbal₁ := hbalanced.settled (h := []) item false (hbalanced.move (h := []) hbal hmove)
      have hc₁ := hconfigured.settled (h := []) item false (hconfigured.move (h := []) hc hmove)
      obtain ⟨honly, hcalm₁⟩ := hcalm.move hc hmove
      have hcalm₁ := hcalm₁.less.settled item false
      rcases hk.move hall hbal hx hmove honly with ⟨hne, hk₁⟩ | ⟨rfl, rfl, hk₁⟩
      · exact ih hbal₁ hc₁ hcalm₁ (hk₁.settled item false fun heq => absurd heq hne)
      · obtain ⟨⟨k', hk', hstage⟩, hcalm'⟩ :=
          ih hbal₁ hc₁ hcalm₁ (hk₁.settled item false fun _ => rfl)
        exact ⟨⟨k', fun hno => absurd rfl hno, hstage⟩, hcalm'⟩
  | @release c c₁ c₂ c' app item released kept nested log hmove _ hnested hrest ihn ih =>
      have hbal₁ := hbalanced.updateSpareness (h := []) (hbalanced.move (h := []) hbal hmove)
      have hc₁ := hconfigured.updateSpareness (h := []) (hconfigured.move (h := []) hc hmove)
      have hbal₂ := hbalanced.settled (h := []) item (released.any fun r =>
        r.embedded.requestSocket == item.embedded.requestSocket)
        (hbalanced.drains (h := []) hbal₁ hnested)
      have hc₂ := hconfigured.settled (h := []) item (released.any fun r =>
        r.embedded.requestSocket == item.embedded.requestSocket)
        (hconfigured.drains (h := []) hc₁ hnested)
      obtain ⟨honly, hcalm₁⟩ := hcalm.move hc hmove
      rcases hk.move hall hbal hx hmove honly with ⟨hne, hk₁⟩ | ⟨rfl, rfl, hk₁⟩
      · obtain ⟨⟨k₂, hsame, hk₂⟩, hcalm₂⟩ := ihn hbal₁ hc₁ hcalm₁.spare hk₁.spare
        obtain ⟨⟨k', hsame', hk'⟩, hcalm'⟩ := ih hbal₂ hc₂ (hcalm₂.settled item _)
          (hk₂.settled item _ fun heq => absurd heq hne)
        refine ⟨⟨k', fun hsome => ?_, hk'⟩, hcalm'⟩
        have heq := hsame hsome
        exact (hsame' (heq ▸ hsome)).trans heq
      · -- what the round of the request marked it with is what is written at the end
        obtain ⟨⟨k₂, hsame, hk₂⟩, hcalm₂⟩ := ihn hbal₁ hc₁ hcalm₁.spare hk₁.spare
        obtain ⟨⟨k', -, hk'⟩, hcalm'⟩ := ih hbal₂ hc₂ (hcalm₂.settled item _)
          (hk₂.settled item _ fun _ => hsame (by simp))
        exact ⟨⟨k', fun hno => absurd rfl hno, hk'⟩, hcalm'⟩

/-- So whether a new request is left locked says whether it is queued. -/
theorem TwolsfqdTries.locked_iff {log : List TwolsfqdEvent} {locked : Bool}
    (hall : (all.map (·.itemId)).Nodup) (hx : x ∈ all)
    (htries : TwolsfqdTries σ.clock x c log c' locked) (hbal : TwolsfqdBalanced all c)
    (hc : TwolsfqdConfigured σ c.sched)
    (hcalm : TwolsfqdCalm σ x.embedded.requestSocket first last 1 c.sched)
    (hk : TwolsfqdStage x c.sched none) :
    locked = true ↔ x ∈ c'.sched.waiting ++ c'.sched.edf := by
  have hend : ∀ {s : Twolsfqd} {k : Option Bool}, TwolsfqdStage x s k →
      (decide ((s.marks x.itemId).dispatched ≤ 0) = true ↔ x ∈ s.waiting ++ s.edf) := by
    intro s k hk
    rw [decide_eq_true_iff, List.mem_append]
    match k, hk with
    | none, ⟨hin, hmark⟩ => exact ⟨fun _ => .inl hin, fun _ => by omega⟩
    | some false, ⟨hin, hmark⟩ => exact ⟨fun _ => .inr hin, fun _ => by omega⟩
    | some true, ⟨hout, hout', hmark⟩ =>
        exact ⟨fun hle => by omega, fun hin => absurd hin (not_or.mpr ⟨hout, hout'⟩)⟩
  cases htries with
  | afford hd =>
      obtain ⟨⟨k', -, hk'⟩, -⟩ := hd.stage hall hx hbal hc hcalm.less hk
      exact hend hk'
  | replenish hd =>
      have hbal' := (twolsfqdBalanced_keeps σ.clock all).updateSpareness (h := []) hbal
      have hc' := (twolsfqdConfigured_holds σ).parts.updateSpareness (h := []) hc
      obtain ⟨⟨k', -, hk'⟩, -⟩ := hd.stage hall hx hbal' hc' hcalm.spare hk.spare
      exact hend hk'
  | wait =>
      have hstage : TwolsfqdStage x
        (c.setSched (twolsfqdUpdateSpareness σ.clock c.sched)).sched none := hk.spare
      exact ⟨fun _ => List.mem_append_left _ hstage.1, fun _ => rfl⟩

end watched

/-! ## The invariant of a run -/

/-- A scheduled request is locked exactly while it is queued. -/
def TwolsfqdRun.LocksQueued (s : TwolsfqdRun) : Prop :=
  ∀ x ∈ s.scheduled, lockedAt s.w.mem x.socketData.rs = true
    ↔ x.itemId ∈ (s.w.g.sched.waiting ++ s.w.g.sched.edf).map (·.itemId)

instance (s : TwolsfqdRun) : Decidable s.LocksQueued :=
  inferInstanceAs (Decidable (∀ x ∈ s.scheduled, _))

/-- Only a full storage keeps items in the EDF queue. -/
def Twolsfqd.Filled (s : Twolsfqd) : Prop :=
  s.edf ≠ [] → s.timewindowQueueThreshold ≤ s.timewindowCurrentQueueLength

structure TwolsfqdDisciplined (σ : TwolsfqdRun.Settings) (s : TwolsfqdRun) : Prop
    extends TwolsfqdConfigured σ s.w.g.sched where
  known : ∀ x ∈ s.scheduled, x.itemId < s.w.g.sched.itemId
  ids : (s.scheduled.map (·.itemId)).Nodup
  states : (s.scheduled.map (·.socketData.rs)).Nodup
  alive : ∀ x ∈ s.scheduled, ∃ it, s.item x.socketData.rs = some it ∧ TwolsfqdSame it x
  queued : ∃ gone, (s.w.g.sched.waiting ++ (s.w.g.sched.edf ++ gone)).Perm s.scheduled
  locks : ∀ x ∈ s.scheduled, lockedAt s.w.mem x.socketData.rs = true
    ↔ x ∈ s.w.g.sched.waiting ++ s.w.g.sched.edf
  filled : s.w.g.sched.Filled

theorem twolsfqdFilled_keeps (clock : Nat → Timeval) :
    TwolsfqdKeeps clock fun _ c => c.sched.Filled where
  skip := by
    rintro h c s hc hskips
    rcases hskips with rfl | ⟨i, -, rfl⟩
    · exact hc
    · exact hc
  replenish hc := hc
  move _ hmove hne := hmove.full fun hnil => hne ((Twolsfqd.edf_eq hmove.queue).trans hnil)
  round _ hround hne := hround.full fun hnil => hne ((Twolsfqd.edf_eq hround.left.queue).trans hnil)
  settle _ _ hc := hc

/-- A round leaves no more in the EDF queue than has to stay. -/
theorem TwolsfqdRounds.filled {clock : Nat → Timeval} {c c' : TwolsfqdCall}
    {log : List TwolsfqdEvent} (h : TwolsfqdRounds clock c log c') : c'.sched.Filled := by
  have hkeeps := twolsfqdFilled_keeps clock
  have hafter : ∀ {released kept c₁}, TwolsfqdRounded clock released kept c c₁ →
      c₁.sched.Filled := by
    intro released kept c₁ hround hne
    exact hround.full fun hnil => hne ((Twolsfqd.edf_eq hround.left.queue).trans hnil)
  cases h with
  | rest hround => exact hafter hround
  | release hround _ hnested =>
      exact hkeeps.drains (h := []) (hkeeps.updateSpareness (h := []) (hafter hround)) hnested

/-- What was unlocked is no longer queued, the rest of what was queued is. -/
theorem TwolsfqdBalanced.locked_iff {all scheduled : List TwolsfqdItem} {c : TwolsfqdCall}
    (hbal : TwolsfqdBalanced all c) (hnd : all.Nodup) (hsub : all ⊆ scheduled)
    (hstates : (scheduled.map (·.socketData.rs)).Nodup) {x : TwolsfqdItem}
    (hx : x ∈ scheduled) {locked : Bool} (hlocked : locked = true ↔ x ∈ all) :
    (if x.socketData.rs ∈ c.unlocked then false else locked) = true
      ↔ x ∈ c.sched.waiting ++ c.sched.edf := by
  obtain ⟨gone, hperm, hunlocked⟩ := hbal
  have hgone : x.socketData.rs ∈ c.unlocked ↔ x ∈ gone := by
    rw [hunlocked]
    refine ⟨fun hrs => ?_, fun hg => List.mem_map_of_mem hg⟩
    obtain ⟨y, hy, hrs⟩ := List.mem_map.mp hrs
    have hy' : y ∈ scheduled := hsub (hperm.subset
      (List.mem_append_right _ (List.mem_append_right _ hy)))
    exact List.inj_on_of_nodup_map hstates hy' hx hrs ▸ hy
  have hall : x ∈ all ↔ x ∈ c.sched.waiting ++ c.sched.edf ∨ x ∈ gone := by
    rw [← hperm.mem_iff, ← List.append_assoc, List.mem_append]
  have hdisjoint : x ∈ gone → x ∉ c.sched.waiting ++ c.sched.edf := by
    intro hg hq
    rw [← hperm.nodup_iff, ← List.append_assoc] at hnd
    exact (List.nodup_append.mp hnd).2.2 x hq x hg rfl
  by_cases hg : x ∈ gone
  · rw [if_pos (hgone.mpr hg)]
    exact ⟨fun hno => absurd hno Bool.false_ne_true, fun hq => absurd hq (hdisjoint hg)⟩
  · rw [if_neg fun h => hg (hgone.mp h), hlocked, hall]
    exact or_iff_left hg

/-- A round and a dispatch would do the same. -/
structure Twolsfqd.Alike (s s' : Twolsfqd) : Prop where
  edf : s'.edf = s.edf
  affordable : ∀ app < s.numApps, s'.Affordable app → s.Affordable app
  numApps : s'.numApps = s.numApps
  outstanding : s'.timewindowCurrentQueueLength - s'.timewindowQueueThreshold
    = s.timewindowCurrentQueueLength - s.timewindowQueueThreshold
  marks : s'.marks = s.marks
  ticks : s'.ticks = s.ticks

theorem Twolsfqd.Alike.refl (s : Twolsfqd) : s.Alike s :=
  ⟨rfl, fun _ _ h => h, rfl, rfl, rfl, rfl⟩

theorem Twolsfqd.Alike.trans {s s' s'' : Twolsfqd} (h : s.Alike s') (h' : s'.Alike s'') :
    s.Alike s'' where
  edf := h'.edf.trans h.edf
  affordable app happ haff := h.affordable app happ (h'.affordable app (h.numApps ▸ happ) haff)
  numApps := h'.numApps.trans h.numApps
  outstanding := h'.outstanding.trans h.outstanding
  marks := h'.marks.trans h.marks
  ticks := h'.ticks.trans h.ticks

/-- The queue of a known application is part of what waits. -/
theorem Twolsfqd.mem_waiting {s : Twolsfqd} {app : Nat} (happ : app < s.numApps)
    {list : List TwolsfqdItem} (hlist : s.sarcCreditList app = some list) {y : TwolsfqdItem}
    (hy : y ∈ list) : y ∈ s.waiting :=
  List.mem_flatMap.mpr ⟨app, List.mem_range.mpr happ, by rw [hlist]; exact hy⟩

/-! ## Calm runs -/

/-- A request that arrives goes at once with all that waits, or no deadline of
its socket is reached before its dispatch is over. The end of a file leaves
nothing to dequeue. -/
def TwolsfqdRun.Calm (σ : TwolsfqdRun.Settings) (s : TwolsfqdRun) : TwolsfqdRun.Event → Prop
  | .arrive a =>
    s.w.g.sched.Room s.w.g.sched.timewindowQueueThreshold (s.w.g.sched.waiting.length + 1)
    ∨ σ.Prompt s.w.g.sched.ticks (s.w.g.sched.ticks + 3 * s.w.g.sched.waiting.length + 2)
      ∧ ∀ y ∈ s.w.g.sched.edf, y.embedded.requestSocket = (a.pool a.index).socket →
        ¬ s.w.g.sched.Due (σ.clock (s.w.g.sched.ticks + 3 * s.w.g.sched.waiting.length + 2)) y
  | .respond p _ _ _ =>
    (∀ it ∈ s.item p, σ.shareOf it ≠ 0)
    ∨ (∀ app < σ.cfg.numApps, ¬ s.w.g.sched.Affordable app)
    ∨ ∃ head ∈ s.w.g.sched.edf.head?, s.w.g.sched.Due (σ.clock s.w.g.sched.ticks) head
      ∨ s.w.g.sched.timewindowCurrentQueueLength ≤ s.w.g.sched.timewindowQueueThreshold
  | _ => True

instance (s : Twolsfqd) (now : Timeval) (item : TwolsfqdItem) : Decidable (s.Due now item) :=
  inferInstanceAs (Decidable (_ = true))

instance (σ : TwolsfqdRun.Settings) (first last : Nat) : Decidable (σ.Prompt first last) :=
  inferInstanceAs (Decidable (_ = false))

instance (s : Twolsfqd) (app : Nat) : Decidable (s.Affordable app) :=
  match h : s.sarcCreditList app with
  | some (item :: rest) =>
    decidable_of_iff (item.embedded.taskSize ≤ s.sarcCredits app)
      ⟨fun hpaid => ⟨item, rest, h, hpaid⟩, fun ⟨_, _, hlist, hpaid⟩ => by
        rw [h] at hlist
        obtain ⟨rfl, -⟩ := List.cons.inj (Option.some.inj hlist)
        exact hpaid⟩
  | some [] => isFalse fun ⟨_, _, hlist, _⟩ => by
      rw [h] at hlist
      cases hlist
  | none => isFalse fun ⟨_, _, hlist, _⟩ => by
      rw [h] at hlist
      cases hlist

instance (σ : TwolsfqdRun.Settings) (s : TwolsfqdRun) (e : TwolsfqdRun.Event) :
    Decidable (s.Calm σ e) :=
  match e with
  | .arrive _ => inferInstanceAs (Decidable (_ ∨ _ ∧ _))
  | .respond _ _ _ _ => inferInstanceAs (Decidable (_ ∨ _ ∨ _))
  | .flow _ _ _ => inferInstanceAs (Decidable True)
  | .replenish => inferInstanceAs (Decidable True)
  | .window _ _ => inferInstanceAs (Decidable True)

namespace TwolsfqdDisciplined

variable {σ : TwolsfqdRun.Settings} {s t : TwolsfqdRun}

theorem queued_subset (hs : TwolsfqdDisciplined σ s) :
    s.w.g.sched.waiting ++ s.w.g.sched.edf ⊆ s.scheduled := by
  obtain ⟨gone, hperm⟩ := hs.queued
  rw [← List.append_assoc] at hperm
  exact fun x hx => hperm.subset (List.mem_append_left _ hx)

theorem queued_ids (hs : TwolsfqdDisciplined σ s) :
    ((s.w.g.sched.waiting ++ s.w.g.sched.edf).map (·.itemId)).Nodup := by
  obtain ⟨gone, hperm⟩ := hs.queued
  rw [← List.append_assoc] at hperm
  have hids := (hperm.map (·.itemId)).nodup_iff.mpr hs.ids
  rw [List.map_append] at hids
  exact (List.nodup_append.mp hids).1

theorem locksQueued (hs : TwolsfqdDisciplined σ s) : s.LocksQueued := by
  intro x hx
  rw [hs.locks x hx]
  refine ⟨fun hq => List.mem_map_of_mem hq, fun hid => ?_⟩
  obtain ⟨y, hy, hid⟩ := List.mem_map.mp hid
  exact eq_of_mem_of_id hs.ids (hs.queued_subset hy) hx hid ▸ hy

/-- A step in which the scheduler releases requests that were queued, and
nothing else is locked or unlocked. -/
theorem balanced (hs : TwolsfqdDisciplined σ s) {c : TwolsfqdCall}
    (hc : TwolsfqdConfigured σ t.w.g.sched) (hfilled : t.w.g.sched.Filled)
    (hsched : t.w.g.sched = c.sched) (hid : c.sched.itemId = s.w.g.sched.itemId)
    (hbal : TwolsfqdBalanced (s.w.g.sched.waiting ++ s.w.g.sched.edf) c)
    (hscheduled : t.scheduled = s.scheduled)
    (hlocks : ∀ p, lockedAt t.w.mem p
      = if p ∈ c.unlocked then false else lockedAt s.w.mem p)
    (hitems : ∀ p it, s.item p = some it → ∃ it', t.item p = some it' ∧ TwolsfqdSame it' it) :
    TwolsfqdDisciplined σ t where
  toTwolsfqdConfigured := hc
  known := by
    rw [hscheduled, hsched, hid]
    exact hs.known
  ids := hscheduled ▸ hs.ids
  states := hscheduled ▸ hs.states
  alive := by
    rw [hscheduled]
    intro x hx
    obtain ⟨it, hit, hsame⟩ := hs.alive x hx
    obtain ⟨it', hit', hsame'⟩ := hitems _ it hit
    exact ⟨it', hit', hsame'.1.trans hsame.1, hsame'.2.1.trans hsame.2.1,
      hsame'.2.2.1.trans hsame.2.2.1, hsame'.2.2.2.trans hsame.2.2.2⟩
  queued := by
    obtain ⟨gone₀, hperm₀⟩ := hs.queued
    obtain ⟨gone, hperm, -⟩ := hbal
    refine ⟨gone ++ gone₀, ?_⟩
    rw [hscheduled, hsched]
    refine List.Perm.trans ?_ hperm₀
    have happend := hperm.append_right gone₀
    simpa only [List.append_assoc] using happend
  locks := by
    rw [hscheduled, hsched]
    intro x hx
    rw [hlocks]
    exact hbal.locked_iff (List.Nodup.of_map _ hs.queued_ids) hs.queued_subset hs.states hx
      (hs.locks x hx)
  filled := hfilled

/-- A step that touches neither the queues nor a lock. -/
theorem untouched (hs : TwolsfqdDisciplined σ s) (hc : TwolsfqdConfigured σ t.w.g.sched)
    (hid : t.w.g.sched.itemId = s.w.g.sched.itemId)
    (hwaiting : t.w.g.sched.waiting = s.w.g.sched.waiting)
    (hedf : t.w.g.sched.edf = s.w.g.sched.edf)
    (hfilled : t.w.g.sched.Filled) (hscheduled : t.scheduled = s.scheduled)
    (hlocks : s.w.mem.SameLocks t.w.mem)
    (hitems : ∀ p it, s.item p = some it → ∃ it', t.item p = some it' ∧ TwolsfqdSame it' it) :
    TwolsfqdDisciplined σ t := by
  refine hs.balanced (c := t.call) hc hfilled rfl hid ⟨[], ?_, rfl⟩ hscheduled (fun p => ?_) hitems
  · show (t.w.g.sched.waiting ++ (t.w.g.sched.edf ++ [])).Perm _
    rw [List.append_nil, hwaiting, hedf]
  · exact (hlocks p).trans (if_neg (by simp [TwolsfqdRun.call])).symm

theorem quiet (hs : TwolsfqdDisciplined σ s) (hq : s.Quiet t) : TwolsfqdDisciplined σ t := by
  refine hs.untouched ?_ ?_ ?_ ?_ ?_ hq.scheduled hq.locks fun p it hit => ?_
  · rw [hq.sched]
    exact hs.toTwolsfqdConfigured
  · rw [hq.sched]
  · rw [hq.sched]
  · rw [hq.sched]
  · rw [hq.sched]
    exact hs.filled
  · exact ⟨it, (hq.items p).trans hit, rfl, rfl, rfl, rfl⟩

/-- The item of a request that was sent on is not queued. -/
theorem item_sent (hs : TwolsfqdDisciplined σ s) {p : Addr} (hp : s.Sent p) {it : TwolsfqdItem}
    (hit : s.item p = some it) :
    ∀ y ∈ s.w.g.sched.waiting ++ s.w.g.sched.edf, y.itemId ≠ it.itemId := by
  obtain ⟨hmem, hunlocked⟩ := hp
  obtain ⟨x, hx, rfl⟩ := List.mem_map.mp hmem
  obtain ⟨it₀, hit₀, hid, -⟩ := hs.alive x hx
  obtain rfl := Option.some.inj (hit.symm.trans hit₀)
  intro y hy heq
  have hxy := eq_of_mem_of_id hs.ids (hs.queued_subset hy) hx (heq.trans hid)
  have hlocked := (hs.locks x hx).mpr (hxy ▸ hy)
  rw [hunlocked] at hlocked
  cases hlocked

/-- Where an item is not queued its size is written to nothing else. -/
theorem map_written {it : TwolsfqdItem} {l : List TwolsfqdItem}
    (h : ∀ y ∈ l, y.itemId ≠ it.itemId) : l.map (twolsfqdWritten it) = l := by
  refine (List.map_congr_left fun y hy => ?_).trans (List.map_id l)
  exact if_neg (h y hy)

theorem arriving (hs : TwolsfqdDisciplined σ s) {a : Arrival TwolsfqdQueueItem} {g : Twolsfqd}
    {it : TwolsfqdItem} (hok : s.Allowed σ (.arrive a)) (hcalm : s.Calm σ (.arrive a))
    (hi : TwolsfqdInserted a.pool a.si a.pi s.w.g.sched g it) :
    ∃ first last, TwolsfqdCalm σ it.embedded.requestSocket first last 1 g := by
  have hwaiting := hi.waiting (hi.app ▸ hs.numApps.symm ▸ hok.1) (hs.lists _)
  have hedf : g.edf = s.w.g.sched.edf := by
    unfold Twolsfqd.edf
    rw [hi.queue]
  have hsocket : it.embedded.requestSocket = (a.pool a.index).socket := hi.socket
  refine ⟨s.w.g.sched.ticks, s.w.g.sched.ticks + 3 * s.w.g.sched.waiting.length + 2, ?_⟩
  rcases hcalm with ⟨hempty, hroom⟩ | ⟨hprompt, hnot⟩
  · refine .inl ⟨hedf.trans hempty, ?_⟩
    rw [hi.threshold, hi.outstanding, hwaiting.length_eq, List.length_cons]
    exact hroom
  · refine .inr ⟨hprompt, hi.ticks.ge, ?_, ?_, fun y hy hsame hdue => ?_⟩
    · rw [hi.ticks, hwaiting.length_eq, List.length_cons]
      omega
    · rw [hedf, hi.threshold, hi.outstanding]
      exact hs.filled
    · refine hnot y (hedf ▸ hy) (hsame.trans hsocket) ?_
      unfold Twolsfqd.Due at hdue ⊢
      rw [← hi.deadline]
      exact hdue

/-- The new request is none of those before. -/
theorem fresh (hs : TwolsfqdDisciplined σ s) {a : Arrival TwolsfqdQueueItem} {g : Twolsfqd}
    {x : TwolsfqdItem} (hok : s.Allowed σ (.arrive a))
    (hi : TwolsfqdInserted a.pool a.si a.pi s.w.g.sched g x) :
    ∀ y ∈ s.scheduled, y.itemId ≠ x.itemId ∧ y.socketData.rs ≠ x.socketData.rs := by
  intro y hy
  refine ⟨?_, fun hsame => ?_⟩
  · have hlt := hs.known y hy
    rw [hi.id]
    omega
  · obtain ⟨it, hit, -⟩ := hs.alive y hy
    obtain ⟨rs, hold, -⟩ := Option.bind_eq_some_iff.mp hit
    rw [hsame, hi.data] at hold
    have hnone := hok.2.1
    rw [show s.w.mem a.rs = some rs from hold] at hnone
    cases hnone

theorem nodup_snoc {ι κ : Type} {f : ι → κ} {l : List ι} {x : ι} (hl : (l.map f).Nodup)
    (hx : ∀ y ∈ l, f y ≠ f x) : ((l ++ [x]).map f).Nodup := by
  rw [List.map_append, List.nodup_append]
  refine ⟨hl, List.nodup_singleton _, ?_⟩
  rintro k hk k' hself rfl
  obtain ⟨y, hy, rfl⟩ := List.mem_map.mp hk
  exact hx y hy (List.mem_singleton.mp hself)

theorem queued_inserted (hs : TwolsfqdDisciplined σ s) {a : Arrival TwolsfqdQueueItem}
    {g : Twolsfqd} {x : TwolsfqdItem} (hok : s.Allowed σ (.arrive a))
    (hi : TwolsfqdInserted a.pool a.si a.pi s.w.g.sched g x) :
    (g.waiting ++ g.edf).Perm (x :: (s.w.g.sched.waiting ++ s.w.g.sched.edf)) := by
  have hwaiting := hi.waiting (hi.app ▸ hs.numApps.symm ▸ hok.1) (hs.lists _)
  have hedf : g.edf = s.w.g.sched.edf := by
    unfold Twolsfqd.edf
    rw [hi.queue]
  rw [hedf]
  exact hwaiting.append_right _

/-- The requests before it keep their items, and a lock unless they are released. -/
theorem mem_arrived {a : Arrival TwolsfqdQueueItem} {x : TwolsfqdItem} {locked : Bool}
    {unlocked : List Addr}
    (hmem : t.w.mem = (unlockAll unlocked (s.w.mem.alloc a.rs a.newRs)).modify a.rs fun rs =>
      { rs with locked := rs.locked || locked, currentItem := some x }) {p : Addr}
    (hp : p ≠ a.rs) : t.item p = s.item p
      ∧ lockedAt t.w.mem p = if p ∈ unlocked then false else lockedAt s.w.mem p := by
  have hsame : t.w.mem p = unlockAll unlocked s.w.mem p := by
    rw [hmem, Mem.modify_of_ne _ hp, unlockAll_apply, unlockAll_apply, Mem.alloc_of_ne _ hp]
  refine ⟨?_, ?_⟩
  · unfold TwolsfqdRun.item
    rw [hsame, unlockAll_apply]
    cases s.w.mem p with
    | none => rfl
    | some rs => rfl
  · rw [← lockedAt_unlockAll]
    unfold lockedAt
    rw [hsame]

/-- It has its item, and the lock the scheduler left. -/
theorem mem_arrived_self {a : Arrival TwolsfqdQueueItem} {x : TwolsfqdItem} {locked : Bool}
    {unlocked : List Addr} (hnew : a.newRs.locked = false)
    (hmem : t.w.mem = (unlockAll unlocked (s.w.mem.alloc a.rs a.newRs)).modify a.rs fun rs =>
      { rs with locked := rs.locked || locked, currentItem := some x }) :
    t.item a.rs = some x ∧ lockedAt t.w.mem a.rs = locked := by
  unfold TwolsfqdRun.item lockedAt
  rw [hmem, Mem.modify_self, unlockAll_apply, Mem.alloc_self]
  refine ⟨rfl, ?_⟩
  by_cases hu : a.rs ∈ unlocked
  · simp [hu]
  · simp [hu, hnew]

theorem arrive (hs : TwolsfqdDisciplined σ s) {a : Arrival TwolsfqdQueueItem}
    (hok : s.Allowed σ (.arrive a)) (hcalm : s.Calm σ (.arrive a))
    (h : s.arrive σ a = .ok t) : TwolsfqdDisciplined σ t := by
  obtain ⟨g, x, c, log, locked, hi, htries, hsched, hscheduled, -, hmem⟩ :=
    TwolsfqdRun.arrive_ok hs.toFormed h
  have hconfigured : TwolsfqdConfigured σ (TwolsfqdCall.mk g []).sched :=
    hs.toTwolsfqdConfigured.inserted hi
  obtain ⟨first, last, hstart⟩ := hs.arriving hok hcalm hi
  have hfresh := hs.fresh hok hi
  have hqueued := hs.queued_inserted hok hi
  have hrs : x.socketData.rs = a.rs := congrArg SocketInfo.rs hi.data
  have hother : ∀ y ∈ s.scheduled, y.socketData.rs ≠ a.rs := fun y hy => hrs ▸ (hfresh y hy).2
  have hedf : g.sched.edf = s.w.g.sched.edf := by
    unfold Twolsfqd.edf
    rw [hi.queue]
  obtain ⟨hitem, hlock⟩ := mem_arrived_self hok.2.2 hmem
  -- the dispatch starts with the new request among what waits
  have hall : ((g.sched.waiting ++ g.sched.edf).map (·.itemId)).Nodup := by
    rw [(hqueued.map (·.itemId)).nodup_iff, List.map_cons, List.nodup_cons]
    refine ⟨fun hmem => ?_, hs.queued_ids⟩
    obtain ⟨y, hy, hid⟩ := List.mem_map.mp hmem
    exact (hfresh y (hs.queued_subset hy)).1 hid
  have hx : x ∈ g.sched.waiting ++ g.sched.edf := hqueued.symm.subset (List.mem_cons_self ..)
  have hbal : TwolsfqdBalanced (g.sched.waiting ++ g.sched.edf) { g, unlocked := [] } := by
    refine ⟨[], ?_, rfl⟩
    rw [List.append_nil]
    exact List.Perm.refl _
  have hstage : TwolsfqdStage x (TwolsfqdCall.mk g []).sched none := by
    have hwaiting := hi.waiting (hi.app ▸ hs.numApps.symm ▸ hok.1) (hs.lists _)
    refine ⟨hwaiting.symm.subset (List.mem_cons_self ..), ?_⟩
    exact (hi.dispatched _).trans (if_pos rfl)
  -- and ends with the lock telling where it is, and nothing lost
  have hlocked := htries.locked_iff hall hx hbal hconfigured hstart hstage
  have hbal' : TwolsfqdBalanced _ c :=
    htries.keeps (h := []) (twolsfqdBalanced_keeps σ.clock _) hbal
  have hsub : g.sched.waiting ++ g.sched.edf ⊆ s.scheduled ++ [x] := by
    intro y hy
    rcases List.mem_cons.mp (hqueued.subset hy) with rfl | hy
    · exact List.mem_append_right _ (List.mem_singleton_self _)
    · exact List.mem_append_left _ (hs.queued_subset hy)
  have hstates := nodup_snoc hs.states fun y hy => (hfresh y hy).2
  refine
    { toTwolsfqdConfigured := ?_, known := ?_, ids := ?_, states := hscheduled ▸ hstates
      alive := ?_, queued := ?_, locks := ?_, filled := ?_ }
  · rw [hsched]
    exact htries.keeps (h := []) (twolsfqdConfigured_holds σ).parts hconfigured
  · have hnext : c.sched.itemId = g.sched.itemId :=
      htries.keeps (h := []) (twolsfqdItemId_keeps σ.clock g.sched.itemId) rfl
    rw [hscheduled, hsched, hnext, hi.nextId]
    intro y hy
    rcases List.mem_append.mp hy with hy | hy
    · have hlt := hs.known y hy
      omega
    · rw [List.mem_singleton.mp hy, hi.id]
      exact Int.lt_succ _
  · exact hscheduled ▸ nodup_snoc hs.ids fun y hy => (hfresh y hy).1
  · rw [hscheduled]
    intro y hy
    rcases List.mem_append.mp hy with hy | hy
    · rw [(mem_arrived hmem (hother y hy)).1]
      exact hs.alive y hy
    · obtain rfl := List.mem_singleton.mp hy
      exact ⟨y, hrs ▸ hitem, rfl, rfl, rfl, rfl⟩
  · obtain ⟨gone₀, hperm₀⟩ := hs.queued
    obtain ⟨gone, hperm, -⟩ := hbal'
    refine ⟨gone ++ gone₀, ?_⟩
    rw [hscheduled, hsched]
    have hbefore := (hperm.trans hqueued).append_right gone₀
    simp only [List.cons_append, List.append_assoc] at hbefore ⊢
    refine hbefore.trans ?_
    exact (hperm₀.cons x).trans (List.perm_append_singleton x _).symm
  · rw [hscheduled, hsched]
    intro y hy
    rcases List.mem_append.mp hy with hold | hnew
    · have hold' : lockedAt s.w.mem y.socketData.rs = true
          ↔ y ∈ g.sched.waiting ++ g.sched.edf := by
        rw [hs.locks y hold, hqueued.mem_iff, List.mem_cons]
        refine ⟨.inr, fun hq => hq.resolve_left ?_⟩
        rintro rfl
        exact (hfresh _ hold).1 rfl
      rw [(mem_arrived hmem (hother y hold)).2]
      exact hbal'.locked_iff (List.Nodup.of_map _ hall) hsub hstates hy hold'
    · obtain rfl := List.mem_singleton.mp hnew
      rw [← hlocked, hrs, hlock]
  · rw [hsched]
    refine htries.keeps (h := []) (twolsfqdFilled_keeps σ.clock) ?_
    intro hne
    show g.sched.timewindowQueueThreshold ≤ g.sched.timewindowCurrentQueueLength
    rw [hi.threshold, hi.outstanding]
    exact hs.filled (hedf ▸ hne)

theorem share (hs : TwolsfqdDisciplined σ s) {p : Addr} (hp : s.Sent p) {actual size : Int}
    (h : s.share σ p actual = .ok (t, size)) :
    TwolsfqdDisciplined σ t ∧ t.Sent p ∧ s.w.g.sched.Alike t.w.g.sched := by
  obtain ⟨it, it', hit, hsame, hsched, hscheduled, -, hmem, -⟩ := TwolsfqdRun.share_ok h
  have hnot : ∀ y ∈ s.w.g.sched.waiting ++ s.w.g.sched.edf, y.itemId ≠ it'.itemId := by
    rw [hsame.1]
    exact hs.item_sent hp hit
  have hwaiting : t.w.g.sched.waiting = s.w.g.sched.waiting := by
    rw [hsched, Twolsfqd.waiting_writeSize]
    exact map_written fun y hy => hnot y (List.mem_append_left _ hy)
  have hedf : t.w.g.sched.edf = s.w.g.sched.edf := by
    rw [hsched, Twolsfqd.edf_writeSize]
    exact map_written fun y hy => hnot y (List.mem_append_right _ hy)
  have hlocks : s.w.mem.SameLocks t.w.mem := by
    rw [hmem]
    exact .modify p fun _ => rfl
  refine ⟨hs.untouched ?_ ?_ hwaiting hedf ?_ hscheduled hlocks fun q it₀ hit₀ => ?_, ?_, ?_⟩
  · rw [hsched]
    exact (twolsfqdConfigured_holds σ).write (h := []) it' hs.toTwolsfqdConfigured
  · rw [hsched]
    rfl
  · unfold Twolsfqd.Filled
    rw [hedf, hsched]
    exact hs.filled
  · unfold TwolsfqdRun.item at hit hit₀ ⊢
    rw [hmem]
    by_cases hq : q = p
    · subst hq
      obtain rfl := Option.some.inj (hit.symm.trans hit₀)
      obtain ⟨rs, hrs, -⟩ := Option.bind_eq_some_iff.mp hit
      rw [Mem.modify_self, hrs]
      exact ⟨it', rfl, hsame⟩
    · rw [Mem.modify_of_ne _ hq]
      exact ⟨it₀, hit₀, rfl, rfl, rfl, rfl⟩
  · obtain ⟨hmemp, hunlocked⟩ := hp
    exact ⟨hscheduled ▸ hmemp, (hlocks p).trans hunlocked⟩
  · refine ⟨hedf, fun app happ => ?_, ?_, ?_, ?_, ?_⟩
    · rintro ⟨head, rest, hlist, hpaid⟩
      rw [hsched] at hlist hpaid
      obtain ⟨list, hlist', hmap⟩ := Option.map_eq_some_iff.mp hlist
      rw [map_written fun y hy => hnot y (List.mem_append_left _
        (Twolsfqd.mem_waiting happ hlist' hy))] at hmap
      exact ⟨head, rest, hmap ▸ hlist', hpaid⟩
    all_goals rw [hsched]; rfl

theorem complete (hs : TwolsfqdDisciplined σ s) {p : Addr} {size ret : Int}
    (h : s.complete σ p size = .ok (t, ret)) : TwolsfqdDisciplined σ t := by
  obtain ⟨it, it', c, log, hit, hsame, hg, hscheduled, -, hmem, hcases⟩ :=
    TwolsfqdRun.complete_ok hs.toFormed h
  have hlocks : ∀ q, lockedAt t.w.mem q
      = if q ∈ c.unlocked then false else lockedAt s.w.mem q := by
    intro q
    rw [hmem, ← lockedAt_unlockAll]
    refine Mem.SameLocks.modify p ?_ q
    intro rs
    rfl
  have hitems : ∀ q it₀, s.item q = some it₀ →
      ∃ it₁, t.item q = some it₁ ∧ TwolsfqdSame it₁ it₀ := by
    intro q it₀ hit₀
    unfold TwolsfqdRun.item at hit hit₀ ⊢
    rw [hmem]
    by_cases hq : q = p
    · subst hq
      obtain rfl := Option.some.inj (hit.symm.trans hit₀)
      obtain ⟨rs, hrs, -⟩ := Option.bind_eq_some_iff.mp hit
      rw [Mem.modify_self, unlockAll_apply, hrs]
      exact ⟨it', rfl, hsame⟩
    · obtain ⟨rs, hrs, hitem⟩ := Option.bind_eq_some_iff.mp hit₀
      rw [Mem.modify_of_ne _ hq, unlockAll_apply, hrs]
      exact ⟨it₀, hitem, rfl, rfl, rfl, rfl⟩
  have hsched : t.w.g.sched = c.sched := congrArg _ hg
  rcases hcases with ⟨-, rfl, -⟩ | hrounds
  · refine hs.balanced ?_ ?_ hsched rfl ?_ hscheduled hlocks hitems
    · rw [hsched]
      exact hs.toTwolsfqdConfigured
    · rw [hsched]
      exact hs.filled
    · exact ⟨[], by rw [List.append_nil]; exact List.Perm.refl _, rfl⟩
  · obtain ⟨arrival, deadlines, hcount⟩ := twolsfqdCount_sched it s.w.g
    have hc := (twolsfqdConfigured_holds σ).count (h := []) it hs.toTwolsfqdConfigured
    have hbal : TwolsfqdBalanced (s.w.g.sched.waiting ++ s.w.g.sched.edf)
        { g := twolsfqdCount it s.w.g, unlocked := [] } := by
      refine ⟨[], ?_, rfl⟩
      rw [List.append_nil, TwolsfqdCall.sched, hcount]
      exact List.Perm.refl _
    refine hs.balanced ?_ ?_ hsched ?_ ?_ hscheduled hlocks hitems
    · rw [hsched]
      refine hrounds.keeps (h := []) (twolsfqdConfigured_holds σ).parts ?_
      exact hc
    · rw [hsched]
      exact hrounds.filled
    · refine hrounds.keeps (h := []) (twolsfqdItemId_keeps σ.clock s.w.g.sched.itemId) ?_
      rw [TwolsfqdCall.sched, hcount]
    · exact hrounds.keeps (h := []) (twolsfqdBalanced_keeps σ.clock _) hbal

/-- After the completion at the end of a file no application has the credits for
its first request, if that was so before or the round releases something. -/
theorem complete_idle (hs : TwolsfqdDisciplined σ s) {p : Addr} {ret : Int}
    (h : s.complete σ p 0 = .ok (t, ret))
    (hidle : (∀ app < σ.cfg.numApps, ¬ s.w.g.sched.Affordable app)
      ∨ ∃ head ∈ s.w.g.sched.edf.head?, s.w.g.sched.Due (σ.clock s.w.g.sched.ticks) head
        ∨ s.w.g.sched.timewindowCurrentQueueLength ≤ s.w.g.sched.timewindowQueueThreshold) :
    ∀ app < t.w.g.sched.numApps, ¬ t.w.g.sched.Affordable app := by
  obtain ⟨it, it', c, log, -, -, hg, -, -, -, ⟨hmore, -⟩ | hrounds⟩ :=
    TwolsfqdRun.complete_ok hs.toFormed h
  · exact absurd rfl hmore
  · have hsched : t.w.g.sched = c.sched := congrArg _ hg
    rw [hsched]
    obtain ⟨arrival, deadlines, hcount⟩ := twolsfqdCount_sched it s.w.g
    generalize hc₀ : TwolsfqdCall.mk (twolsfqdCount it s.w.g) [] = c₀ at hrounds
    have hsched₀ : c₀.sched = (twolsfqdCount it s.w.g).sched := by
      rw [← hc₀]
      rfl
    cases hrounds with
    | @rest _ kept hround =>
        rcases hidle with hno | ⟨head, hhead, hgoes⟩
        · intro app happ
          rw [hround.sarc.numApps, hsched₀, hcount] at happ
          unfold Twolsfqd.Affordable
          rw [hround.sarc.lists, hround.sarc.credits, hsched₀, hcount]
          exact hno app (hs.numApps ▸ happ)
        · -- the head of the EDF queue would have been released
          have hfound := Twolsfqd.edf_eq hround.found
          rw [hsched₀, hcount, List.nil_append] at hfound
          have hkept : s.w.g.sched.edf = kept := hfound
          rw [hkept] at hhead
          have hne : kept ≠ [] := by
            rintro rfl
            cases hhead
          rcases hgoes with hdue | hle
          · refine absurd ?_ (hround.undue head hhead)
            unfold Twolsfqd.Due
            rw [hsched₀, hcount]
            exact hdue
          · have hfull := hround.full hne
            have hout : c.sched.timewindowCurrentQueueLength
                = c₀.sched.timewindowCurrentQueueLength + 0 := hround.left.outstanding
            rw [hround.sarc.threshold, hout, hsched₀, hcount] at hfull
            dsimp only at hfull
            omega
    | release _ _ hnested => exact hnested.not_affordable

/-- A dequeue that finds nothing to move changes nothing. -/
theorem dequeue (hs : TwolsfqdDisciplined σ s) {r : DequeueReason TwolsfqdQueueItem}
    (hidle : ∀ app < s.w.g.sched.numApps, ¬ s.w.g.sched.Affordable app)
    (h : s.dequeue σ r = .ok t) : TwolsfqdDisciplined σ t := by
  obtain ⟨c, log, next, hsteps, hg, hscheduled, -, hnone, -⟩ :=
    TwolsfqdRun.dequeue_ok hs.toFormed h
  have hno : ∀ {app item released kept c₁},
      ¬ TwolsfqdMoved σ.clock app item released kept s.call c₁ := by
    intro app item released kept c₁ hmove
    obtain ⟨rest, hlist, -⟩ := hmove.head
    exact hidle app hmove.known ⟨item, rest, hlist, hmove.paid⟩
  cases hsteps with
  | @idle s' hskips _ =>
      have hsched : t.w.g.sched = s' := congrArg _ hg
      have hmem : t.w.mem = s.w.mem := hnone rfl
      have hc : TwolsfqdConfigured σ s' := (twolsfqdConfigured_holds σ).parts.skip (h := [])
        (c := s.call) hs.toTwolsfqdConfigured hskips
      have hfilled : s'.Filled := (twolsfqdFilled_keeps σ.clock).skip (h := [])
        (c := s.call) hs.filled hskips
      have hsame : s'.waiting = s.w.g.sched.waiting ∧ s'.edf = s.w.g.sched.edf
          ∧ s'.itemId = s.w.g.sched.itemId := by
        rcases hskips with rfl | ⟨i, -, rfl⟩
        · exact ⟨rfl, rfl, rfl⟩
        · exact ⟨rfl, rfl, rfl⟩
      rw [← hsched] at hc hfilled hsame
      refine hs.untouched hc hsame.2.2 hsame.1 hsame.2.1 hfilled hscheduled ?_ fun p it hit => ?_
      · rw [hmem]
        exact .refl _
      · refine ⟨it, ?_, rfl, rfl, rfl, rfl⟩
        unfold TwolsfqdRun.item at hit ⊢
        rw [hmem]
        exact hit
  | move hmove => exact absurd hmove hno
  | release hmove _ _ => exact absurd hmove hno

/-- The response to a read, if it is not the end of the file or leaves nothing to
dequeue. -/
theorem respond (hs : TwolsfqdDisciplined σ s) {p response : Addr} {fileSize : Int} {app : Nat}
    (hp : s.Sent p) (hcalm : s.Calm σ (.respond p response fileSize app))
    (h : s.respond σ p response fileSize app = .ok t) : TwolsfqdDisciplined σ t := by
  obtain ⟨s₁, size, hshare, rfl
    | ⟨hsize, s₂, s₃, s₄, s₅, size', ret, r, hquiet, hshare', hcomplete, hquiet', hdequeue⟩⟩ :=
    TwolsfqdRun.respond_ok h
  · exact (hs.share hp hshare).1
  · obtain ⟨hs₁, hp₁, halike⟩ := hs.share hp hshare
    have hs₂ := hs₁.quiet hquiet
    have hp₂ : s₂.Sent p := ⟨hquiet.scheduled ▸ hp₁.1, (hquiet.locks p).trans hp₁.2⟩
    obtain ⟨hs₃, -, halike'⟩ := hs₂.share hp₂ hshare'
    rw [hquiet.sched] at halike'
    have hsame := halike.trans halike'
    have hs₅ := (hs₃.complete hcomplete).quiet hquiet'
    refine hs₅.dequeue ?_ hdequeue
    rw [hquiet'.sched]
    refine hs₃.complete_idle hcomplete ?_
    rcases hcalm with hmore | hno | ⟨head, hhead, hgoes⟩
    · obtain ⟨it, it', hit, -, -, -, -, -, hof⟩ := TwolsfqdRun.share_ok hshare
      exact absurd (hof.symm.trans hsize) (hmore it hit)
    · left
      intro l hl haff
      exact hno l hl (hsame.affordable l (hs.numApps ▸ hl) haff)
    · right
      refine ⟨head, by rw [hsame.edf]; exact hhead, ?_⟩
      rcases hgoes with hdue | hle
      · left
        unfold Twolsfqd.Due at hdue ⊢
        rw [hsame.marks, hsame.ticks]
        exact hdue
      · right
        have hout := hsame.outstanding
        omega

theorem thread (hs : TwolsfqdDisciplined σ s) {c : TwolsfqdCall} (log : List TwolsfqdEvent)
    (hc : TwolsfqdConfigured σ c.sched) (hfilled : c.sched.Filled)
    (hid : c.sched.itemId = s.w.g.sched.itemId)
    (hbal : TwolsfqdBalanced (s.w.g.sched.waiting ++ s.w.g.sched.edf) c) :
    TwolsfqdDisciplined σ (s.thread log c) := by
  refine hs.balanced hc hfilled rfl hid hbal rfl (fun p => ?_) fun p it hit => ?_
  · exact lockedAt_unlockAll _ _ _
  · refine ⟨it, ?_, rfl, rfl, rfl, rfl⟩
    unfold TwolsfqdRun.item at hit ⊢
    obtain ⟨rs, hrs, hitem⟩ := Option.bind_eq_some_iff.mp hit
    show (unlockAll c.unlocked s.w.mem p).bind _ = _
    rw [unlockAll_apply, hrs]
    exact hitem

/-- Before anything is unlocked nothing is lost. -/
theorem balanced_start {s s' : Twolsfqd} {c : TwolsfqdCall} (hsched : c.sched = s')
    (hunlocked : c.unlocked = []) (hwaiting : s'.waiting = s.waiting) (hedf : s'.edf = s.edf) :
    TwolsfqdBalanced (s.waiting ++ s.edf) c := by
  refine ⟨[], ?_, hunlocked⟩
  rw [hsched, List.append_nil, hwaiting, hedf]

theorem replenish (hs : TwolsfqdDisciplined σ s) (h : s.step σ .replenish = .ok t) :
    TwolsfqdDisciplined σ t := by
  obtain ⟨c, hrun, h⟩ := Machine.bind_eq_ok.mp h
  obtain rfl := Machine.pure_eq_ok.mp h
  have hc := (twolsfqdConfigured_holds σ).parts
  have hreplenished := hc.replenish (h := []) (c := s.call) hs.toTwolsfqdConfigured
  obtain ⟨c', hrun', hd⟩ := twolsfqdDequeueAll_drains σ.clock hreplenished.toFormed
  obtain rfl := Except.ok.inj (hrun.symm.trans hrun')
  refine hs.thread _ (hc.drains (h := []) hreplenished hd) ?_ ?_ ?_
  · refine (twolsfqdFilled_keeps σ.clock).drains (h := []) ?_ hd
    exact hs.filled
  · exact (twolsfqdItemId_keeps σ.clock s.w.g.sched.itemId).drains (h := []) rfl hd
  · refine (twolsfqdBalanced_keeps σ.clock _).drains (h := []) ?_ hd
    exact balanced_start rfl rfl rfl rfl

/-- A window begins. Its round leaves in the EDF queue what has to stay under the
new threshold. -/
theorem window (hs : TwolsfqdDisciplined σ s) {threshold : Int} {overload : Bool}
    (h : s.step σ (.window threshold overload) = .ok t) : TwolsfqdDisciplined σ t := by
  obtain ⟨c, hrun, h⟩ := Machine.bind_eq_ok.mp h
  obtain rfl := Machine.pure_eq_ok.mp h
  have hbegun := hs.toTwolsfqdConfigured.nextWindow σ.width threshold
  obtain ⟨c₀, c₁, log, log', hsched, hunlocked, hdispatched, hrounds, -⟩ :=
    twolsfqdTimeWindow_rounds hbegun.toFormed hrun
  -- what holds of the window holds when its round is over
  have hkeeps : ∀ {P : List TwolsfqdEvent → TwolsfqdCall → Prop}, TwolsfqdKeeps σ.clock P →
      P [] c₀ → P ([] ++ log ++ log') c := by
    intro P hP h₀
    refine hrounds.keeps hP ?_
    rcases hdispatched with ⟨rfl, rfl⟩ | hd
    · exact h₀
    · exact hP.drains (hP.updateSpareness h₀) hd
  rw [← hsched] at hbegun
  refine hs.thread _ (hkeeps (twolsfqdConfigured_holds σ).parts hbegun) hrounds.filled ?_ ?_
  · refine hkeeps (twolsfqdItemId_keeps σ.clock s.w.g.sched.itemId) ?_
    rw [hsched]
    rfl
  · exact hkeeps (twolsfqdBalanced_keeps σ.clock _) (balanced_start hsched hunlocked rfl rfl)

theorem step (hs : TwolsfqdDisciplined σ s) {e : TwolsfqdRun.Event} (hok : s.Allowed σ e)
    (hcalm : s.Calm σ e) (h : s.step σ e = .ok t) : TwolsfqdDisciplined σ t := by
  cases e with
  | arrive a => exact hs.arrive hok hcalm h
  | flow p completeSize read =>
      obtain ⟨⟨s₁, ret⟩, hcomplete, h⟩ := Machine.bind_eq_ok.mp h
      dsimp only at h
      split at h
      · cases h
      · obtain rfl := Machine.pure_eq_ok.mp h
        exact hs.complete hcomplete
  | respond p response fileSize app => exact hs.respond hok hcalm h
  | replenish => exact hs.replenish h
  | window threshold overload => exact hs.window h

theorem init (w : World Twolsfqd TwolsfqdQueueItem) :
    TwolsfqdDisciplined σ (TwolsfqdRun.init σ w) where
  toTwolsfqdConfigured := .init σ w
  known := by rintro x ⟨⟩
  ids := .nil
  states := .nil
  alive := by rintro x ⟨⟩
  queued := by
    refine ⟨[], ?_⟩
    rw [TwolsfqdRun.init_waiting]
    exact .nil
  locks := by rintro x ⟨⟩
  filled hne := absurd rfl hne

end TwolsfqdDisciplined

/-- **A request is locked exactly while it is queued**, in a calm run. -/
theorem twolsfqd_locks_queued {σ : TwolsfqdRun.Settings}
    {w : World Twolsfqd TwolsfqdQueueItem} {es : List TwolsfqdRun.Event} {s : TwolsfqdRun}
    (h : Machine.Run (fun s e => s.Allowed σ e ∧ s.Calm σ e) (TwolsfqdRun.step σ)
      (TwolsfqdRun.init σ w) es s) : s.LocksQueued := by
  have hdisciplined : TwolsfqdDisciplined σ s := by
    refine h.invariant (P := TwolsfqdDisciplined σ) (.init w) ?_
    rintro t e u ht ⟨hok, hcalm⟩ hstep
    exact ht.step hok hcalm hstep
  exact hdisciplined.locksQueued

/-- One request at a time, 2 s of latency. The clock is read `n` times before 3 s
pass at once. -/
def twolsfqdLater (n : Nat) : TwolsfqdRun.Settings where
  cfg := sampleConfig true (schTwolsfqd (fun k => { sec := if k < n then 0 else 3, usec := 0 })
    fun _ _ _ _ _ => 0)
  clock k := { sec := if k < n then 0 else 3, usec := 0 }
  myShare _ _ _ _ _ := 0
  method := rfl
  rate _ := 100
  latency _ := 2000
  interval := 1000
  threshold := 1
  width := { sec := 1, usec := 0 }
  junk _ :=
    { deadline := { sec := 0, usec := 0 }, timewindow := 0, deadlineInCurrentTimewindow := false
      dispatched := 0 }
  usec _ := by simp
  monotone k := by
    by_cases h : k + 1 < n
    · rw [if_pos h, if_pos (by omega)]
      rfl
    · rw [if_neg h]
      split
      · rfl
      · rfl

/-- Three requests of one socket. The first goes, the other two wait for it in
the EDF queue. -/
def twolsfqdThree : List TwolsfqdRun.Event :=
  [.arrive (twolsfqdWrite 0 0 4096), .arrive (twolsfqdWrite 0 1 4096),
    .arrive (twolsfqdWrite 0 2 4096)]

theorem twolsfqd_locks_queued_example :
    ∃ s : TwolsfqdRun, s.w.g.sched.edf.length = 1 ∧ s.LocksQueued := by
  obtain ⟨s, hrun, hlength⟩ := Machine.Run.exists_of_exec
    (fun s e => s.Allowed (twolsfqdLater 100) e ∧ s.Calm (twolsfqdLater 100) e)
    (TwolsfqdRun.step (twolsfqdLater 100)) (twolsfqdStart (twolsfqdLater 100))
    (twolsfqdThree ++ [.flow 0 4096 false]) (fun s => s.w.g.sched.edf.length) (a := 1)
    (by decide +kernel)
  exact ⟨s, hlength, twolsfqd_locks_queued hrun⟩

/-- When the third arrives the deadline of the second has passed. It is the
second that is released, and the third, still in the EDF queue, is not locked. -/
theorem twolsfqd_locks_queued_fails :
    ∃ s, Machine.Run (TwolsfqdRun.Allowed (twolsfqdLater 4)) (TwolsfqdRun.step (twolsfqdLater 4))
        (twolsfqdStart (twolsfqdLater 4)) twolsfqdThree s
      ∧ ¬ s.LocksQueued := by
  obtain ⟨s, hrun, hs⟩ := Machine.Run.exists_of_exec (TwolsfqdRun.Allowed (twolsfqdLater 4))
    (TwolsfqdRun.step (twolsfqdLater 4)) (twolsfqdStart (twolsfqdLater 4)) twolsfqdThree
    (fun s => decide s.LocksQueued) (a := false) (by decide +kernel)
  exact ⟨s, hrun, of_decide_eq_false hs⟩

end PvfsProxy
