import PvfsProxy.Sfqd3Depths
import PvfsProxy.StripingRanges
import Mathlib.Algebra.BigOperators.Group.Finset.Piecewise
import Mathlib.Algebra.BigOperators.Ring.Finset
import Mathlib.Algebra.Order.BigOperators.Group.Finset

/-!
# Who rests under SFQD3

`sfqd3_calculate_diff` takes from what an application got its share of the total, by
weight and rounded. The total is the sum of what the applications got, so not all of
them are ahead of their shares: whatever arrives, completes and is counted, once the
differences have been computed some application is not ahead at all
(`sfqd3_some_awake`).

The counters are 64 bits wide in the source. They are integers here, as long as they
do not overflow.
-/

namespace PvfsProxy

open Finset

/-- Amounts with the total `t`, and shares of `t` by weight: some amount is no more than
its share. -/
theorem exists_le_share {n : Nat} {amount weight : Nat → Int} {t w : Int} (hn : 0 < n)
    (ht : t = ∑ i ∈ range n, amount i) (hw : w = ∑ i ∈ range n, weight i)
    (hpos : ∀ i, i < n → 0 < weight i) :
    ∃ i, i < n ∧ amount i - (t * weight i).tdiv w ≤ 0 := by
  have hne : (range n).Nonempty := nonempty_range_iff.mpr hn.ne'
  have hw₀ : 0 < w := by
    rw [hw]
    exact sum_pos (fun i hi => hpos i (mem_range.mp hi)) hne
  have hsums : ∑ i ∈ range n, amount i * w ≤ ∑ i ∈ range n, t * weight i := by
    rw [← sum_mul, ← mul_sum, ← ht, ← hw]
  obtain ⟨i, hi, hle⟩ := exists_le_of_sum_le hne hsums
  have hshare : amount i ≤ (t * weight i) / w := (Int.le_ediv_iff_mul_le hw₀).mpr hle
  -- the quotient of the source is not below the floor
  have hround : (t * weight i) / w ≤ (t * weight i).tdiv w := by
    rw [Int.tdiv_eq_ediv, Int.sign_eq_one_of_pos hw₀]
    split <;> omega
  exact ⟨i, mem_range.mp hi, by omega⟩

/-! ## What is measured -/

/-- What the differences are computed from is the same. -/
structure Sfqd3Measured (g g' : Globals Sfqd3) : Prop where
  total : g'.totalThroughput = g.totalThroughput
  totalWeight : g'.sched.totalWeight = g.sched.totalWeight
  throughput : ∀ app, (g'.appStats app).appThroughput = (g.appStats app).appThroughput
  weight : ∀ app, (g'.appStats app).appWeight = (g.appStats app).appWeight

namespace Sfqd3Measured

variable {g g' g'' : Globals Sfqd3}

theorem refl (g : Globals Sfqd3) : Sfqd3Measured g g :=
  ⟨rfl, rfl, fun _ => rfl, fun _ => rfl⟩

theorem trans (h : Sfqd3Measured g g') (h' : Sfqd3Measured g' g'') : Sfqd3Measured g g'' where
  total := h'.total.trans h.total
  totalWeight := h'.totalWeight.trans h.totalWeight
  throughput app := (h'.throughput app).trans (h.throughput app)
  weight app := (h'.weight app).trans (h.weight app)

theorem calculateDiff (h : Sfqd3Measured g g') (app : Nat) :
    sfqd3CalculateDiff app g' = sfqd3CalculateDiff app g := by
  unfold sfqd3CalculateDiff
  rw [h.total, h.totalWeight, h.throughput, h.weight]

theorem modifyApp (g : Globals Sfqd3) (app : Nat) {f : AppStatistics → AppStatistics}
    (hf : ∀ a, (f a).appThroughput = a.appThroughput ∧ (f a).appWeight = a.appWeight) :
    Sfqd3Measured g (g.modifyApp app f) where
  total := rfl
  totalWeight := rfl
  throughput := modifyApp_field g app (·.appThroughput) fun a => (hf a).1
  weight := modifyApp_field g app (·.appWeight) fun a => (hf a).2

end Sfqd3Measured

/-- Nothing was measured, and no difference was computed. -/
structure Sfqd3Unmeasured (g g' : Globals Sfqd3) : Prop where
  measured : Sfqd3Measured g g'
  diff : ∀ app, (g'.appStats app).diff = (g.appStats app).diff

namespace Sfqd3Unmeasured

variable {g g' g'' : Globals Sfqd3}

theorem refl (g : Globals Sfqd3) : Sfqd3Unmeasured g g := ⟨.refl g, fun _ => rfl⟩

theorem trans (h : Sfqd3Unmeasured g g') (h' : Sfqd3Unmeasured g' g'') : Sfqd3Unmeasured g g'' :=
  ⟨h.measured.trans h'.measured, fun app => (h'.diff app).trans (h.diff app)⟩

theorem modifyApp (g : Globals Sfqd3) (app : Nat) {f : AppStatistics → AppStatistics}
    (hf : ∀ a, (f a).appThroughput = a.appThroughput ∧ (f a).appWeight = a.appWeight
      ∧ (f a).diff = a.diff) : Sfqd3Unmeasured g (g.modifyApp app f) :=
  ⟨.modifyApp g app fun a => ⟨(hf a).1, (hf a).2.1⟩, modifyApp_diff g app fun a => (hf a).2.2⟩

theorem sched (g : Globals Sfqd3) {s : Sfqd3} (h : s.totalWeight = g.sched.totalWeight) :
    Sfqd3Unmeasured g { g with sched := s } :=
  ⟨⟨rfl, h, fun _ => rfl, fun _ => rfl⟩, fun _ => rfl⟩

end Sfqd3Unmeasured

section

variable {g g' : Globals Sfqd3} {next : Option Sfqd3Item}

theorem sfqd3OpenApp_totalWeight {appStats : Nat → AppStatistics} {apps : List Nat}
    {smallest : Int} {openApp o : Option Nat} {s s' : Sfqd3}
    (h : sfqd3OpenApp appStats apps smallest openApp s = .ok (s', o)) :
    s'.totalWeight = s.totalWeight := by
  induction apps generalizing smallest openApp s with
  | nil =>
      obtain ⟨rfl, -⟩ := Prod.mk.inj (Except.ok.inj h)
      rfl
  | cons l apps ih =>
      rw [sfqd3OpenApp] at h
      split at h
      · exact ih h
      split at h
      · dsimp only at h
        split at h
        · cases h
        split at h
        · exact (ih h :)
        · exact (ih h :)
      · exact ih h

theorem sfqd3Take_totalWeight {app : Nat} {s s' : Sfqd3} {it : Sfqd3Item}
    (h : sfqd3Take app s = .ok (s', it)) : s'.totalWeight = s.totalWeight := by
  obtain ⟨⟨heapQueue, node⟩, -, h⟩ := Machine.bind_eq_ok.mp h
  obtain ⟨rfl, -⟩ := Prod.mk.inj (Machine.pure_eq_ok.mp h)
  rfl

theorem sfqd3NextRequest_unmeasured (h : sfqd3NextRequest g = .ok (g', next)) :
    Sfqd3Unmeasured g g' := by
  unfold sfqd3NextRequest at h
  dsimp only at h
  split at h
  · obtain ⟨rfl, -⟩ := Prod.mk.inj (Machine.pure_eq_ok.mp h)
    exact .refl g
  obtain ⟨⟨s, openApp⟩, hscan, h⟩ := Machine.bind_eq_ok.mp h
  have hs := sfqd3OpenApp_totalWeight hscan
  cases openApp with
  | none =>
      obtain ⟨rfl, -⟩ := Prod.mk.inj (Machine.pure_eq_ok.mp h)
      exact .sched g hs
  | some app =>
      obtain ⟨⟨s₁, it⟩, htake, h⟩ := Machine.bind_eq_ok.mp h
      obtain ⟨rfl, -⟩ := Prod.mk.inj (Machine.pure_eq_ok.mp h)
      exact (Sfqd3Unmeasured.sched g ((sfqd3Take_totalWeight htake).trans hs)).trans
        (.modifyApp _ _ fun _ => ⟨rfl, rfl, rfl⟩)

theorem sfqd3Dequeue_unmeasured {r : DequeueReason Sfqd3QueueItem}
    (h : sfqd3Dequeue r g = .ok (g', next)) : Sfqd3Unmeasured g g' := by
  unfold sfqd3Dequeue sfqd3GetNextRequest at h
  dsimp only at h
  split at h
  · unfold sfqd3DiffChange at h
    split at h
    · obtain ⟨rfl, -⟩ := Prod.mk.inj (Except.ok.inj h)
      exact .refl g
    split at h
    · obtain ⟨⟨s₁, it⟩, htake, h⟩ := Machine.bind_eq_ok.mp h
      obtain ⟨rfl, -⟩ := Prod.mk.inj (Machine.pure_eq_ok.mp h)
      exact (Sfqd3Unmeasured.sched g (sfqd3Take_totalWeight htake)).trans
        (.modifyApp _ _ fun _ => ⟨rfl, rfl, rfl⟩)
    · obtain ⟨rfl, -⟩ := Prod.mk.inj (Except.ok.inj h)
      exact .refl g
  · have hnext := sfqd3NextRequest_unmeasured h
    exact Sfqd3Unmeasured.trans (Sfqd3Unmeasured.sched g (by rfl)) hnext
  · exact sfqd3NextRequest_unmeasured h
  · exact sfqd3NextRequest_unmeasured h

theorem sfqd3Enqueue_unmeasured {pool : Nat → Endpoint} {si : SocketInfo} {pi : PvfsInfo}
    {b : Bool} (h : sfqd3Enqueue pool si pi g = .ok (g', b)) : Sfqd3Unmeasured g g' := by
  obtain ⟨finishTag, -, h⟩ := Machine.bind_eq_ok.mp h
  obtain ⟨rfl, -⟩ := Prod.mk.inj (Machine.pure_eq_ok.mp h)
  have hreceived := Sfqd3Unmeasured.modifyApp g si.appIndex
    (f := fun a => { a with receivedRequests := a.receivedRequests + 1 }) fun _ => ⟨rfl, rfl, rfl⟩
  have hcame := fun g : Globals Sfqd3 =>
    Sfqd3Unmeasured.modifyApp g (pool si.requestSocket).appIndex
      (f := fun a => { a with streamId := a.streamId + 1, reqCome := a.reqCome + 1 })
      fun _ => ⟨rfl, rfl, rfl⟩
  exact hreceived.trans ((hcame _).trans (.sched _ rfl))

theorem sfqd3AddTtlTp_throughput (amount : Int) (app : Nat) (g : Globals Sfqd3) {n : Nat}
    (happ : app < n) (h : g.totalThroughput = ∑ l ∈ range n, (g.appStats l).appThroughput) :
    (sfqd3AddTtlTp amount app g).totalThroughput
      = ∑ l ∈ range n, ((sfqd3AddTtlTp amount app g).appStats l).appThroughput := by
  have hupdate : ∀ l, ((sfqd3AddTtlTp amount app g).appStats l).appThroughput
      = Function.update (fun l => (g.appStats l).appThroughput) app
        ((g.appStats app).appThroughput + amount) l := by
    intro l
    unfold sfqd3AddTtlTp Globals.modifyApp
    by_cases hl : l = app
    · subst hl
      simp only [Function.update_self]
    · simp only [Function.update_of_ne hl]
  rw [sum_congr rfl fun l _ => hupdate l, sum_update_of_mem (mem_range.mpr happ)]
  show g.totalThroughput + amount = _
  rw [h, ← add_sum_erase _ _ (mem_range.mpr happ), sdiff_singleton_eq_erase]
  omega

end

/-! ## Runs -/

namespace Sfqd3Run

/-- What is counted is no negative amount of a known application, and the differences
fit. -/
def Metered (cfg : Config Sfqd3 Sfqd3QueueItem) (s : Sfqd3Run) : Event → Prop
  | .arrive _ | .complete .. => True
  | .count _ amount app _ => 0 ≤ amount ∧ app < cfg.numApps
      ∧ ∀ l, l < cfg.numApps →
        -2 ^ 31 ≤ sfqd3CalculateDiff l (sfqd3AddTtlTp amount app s.w.g)
          ∧ sfqd3CalculateDiff l (sfqd3AddTtlTp amount app s.w.g) < 2 ^ 31

instance (cfg : Config Sfqd3 Sfqd3QueueItem) (s : Sfqd3Run) (e : Event) :
    Decidable (s.Metered cfg e) :=
  match e with
  | .arrive _ | .complete .. => inferInstanceAs (Decidable True)
  | .count _ amount app _ => inferInstanceAs (Decidable (0 ≤ amount ∧ app < cfg.numApps
      ∧ ∀ l, l < cfg.numApps →
        -2 ^ 31 ≤ sfqd3CalculateDiff l (sfqd3AddTtlTp amount app s.w.g)
          ∧ sfqd3CalculateDiff l (sfqd3AddTtlTp amount app s.w.g) < 2 ^ 31))

/-- Something is counted, and the differences are computed anew. -/
def Event.Counts : Event → Prop
  | .arrive _ | .complete .. => False
  | .count .. => True

variable {cfg : Config Sfqd3 Sfqd3QueueItem} {myShare : Int → Int → Int → Int → Int → Int}
  {s t : Sfqd3Run} {asserts : Bool}

theorem drain_unmeasured (hm : cfg.method = schSfqd3 myShare) {r : DequeueReason Sfqd3QueueItem}
    {bound : Nat} (h : s.drain cfg asserts r bound = .ok t) : Sfqd3Unmeasured s.w.g t.w.g := by
  induction bound generalizing s with
  | zero => cases h
  | succ bound ih =>
      obtain ⟨⟨s₁, next⟩, hrelease, h⟩ := Machine.bind_eq_ok.mp h
      obtain ⟨hdeq, -⟩ := Sfqd3Dispatching.release_ok hm hrelease
      have hfirst := sfqd3Dequeue_unmeasured hdeq
      cases next with
      | none =>
          obtain rfl := Machine.pure_eq_ok.mp h
          exact hfirst
      | some it => exact hfirst.trans (ih h)

/-- The differences are computed from what was counted, whatever they wake on the way. -/
theorem updateDiffs_measured (hm : cfg.method = schSfqd3 myShare) {item : Option Sfqd3Item}
    {apps : List Nat} (h : s.updateDiffs cfg asserts item apps = .ok t) :
    Sfqd3Measured s.w.g t.w.g ∧ ∀ l, (t.w.g.appStats l).diff
      = if l ∈ apps then toInt32 (sfqd3CalculateDiff l s.w.g) else (s.w.g.appStats l).diff := by
  induction apps generalizing s with
  | nil =>
      obtain rfl := Except.ok.inj h
      exact ⟨.refl _, fun l => (if_neg List.not_mem_nil).symm⟩
  | cons l' apps ih =>
      unfold updateDiffs at h
      dsimp only at h
      have hupdate : Sfqd3Measured s.w.g (s.w.g.modifyApp l' fun a =>
          { a with diff := toInt32 (sfqd3CalculateDiff l' s.w.g) }) :=
        .modifyApp _ _ fun _ => ⟨rfl, rfl⟩
      have hdiffs : ∀ l, ((s.w.g.modifyApp l' fun a =>
          { a with diff := toInt32 (sfqd3CalculateDiff l' s.w.g) }).appStats l).diff
          = if l = l' then toInt32 (sfqd3CalculateDiff l' s.w.g)
            else (s.w.g.appStats l).diff := by
        intro l
        unfold Globals.modifyApp
        by_cases hl : l = l'
        · subst hl
          simp only [Function.update_self, if_pos]
        · simp only [Function.update_of_ne hl, if_neg hl]
      generalize s.w.g.modifyApp l' _ = g at h hupdate hdiffs
      -- the rest of the loop starts where the drained queue left the world
      have hrest : ∀ s₁ : Sfqd3Run, Sfqd3Unmeasured g s₁.w.g →
          s₁.updateDiffs cfg asserts item apps = .ok t →
          Sfqd3Measured s.w.g t.w.g ∧ ∀ l, (t.w.g.appStats l).diff
            = if l ∈ l' :: apps then toInt32 (sfqd3CalculateDiff l s.w.g)
              else (s.w.g.appStats l).diff := by
        intro s₁ hun h
        obtain ⟨hmeasured, hdiff⟩ := ih h
        have hbefore := hupdate.trans hun.measured
        refine ⟨hbefore.trans hmeasured, fun l => ?_⟩
        rw [hdiff, hun.diff, hdiffs, hbefore.calculateDiff]
        by_cases hl : l ∈ apps
        · rw [if_pos hl, if_pos (List.mem_cons_of_mem _ hl)]
        · rw [if_neg hl]
          by_cases heq : l = l'
          · subst heq
            rw [if_pos rfl, if_pos (List.mem_cons_self ..)]
          · have hnot : l ∉ l' :: apps := fun hmem =>
              (List.mem_cons.mp hmem).elim heq hl
            rw [if_neg heq, if_neg hnot]
      split at h
      · obtain ⟨s₁, hdrained, h⟩ := Machine.bind_eq_ok.mp h
        exact hrest s₁ (drain_unmeasured hm hdrained) h
      · obtain ⟨s₁, hawake, h⟩ := Machine.bind_eq_ok.mp h
        obtain rfl := Machine.pure_eq_ok.mp hawake
        exact hrest _ (.refl g) h

theorem step_unmeasured (hm : cfg.method = schSfqd3 myShare) {e : Event} (he : ¬ e.Counts)
    (h : s.step cfg e = .ok t) : Sfqd3Unmeasured s.w.g t.w.g := by
  cases e with
  | arrive a =>
      obtain ⟨⟨g, mem, item⟩, hadmit, h⟩ := Machine.bind_eq_ok.mp h
      obtain rfl := Machine.pure_eq_ok.mp h
      rw [hm] at hadmit
      obtain ⟨out, hout, hcases⟩ := admitRequest_ok (m := schSfqd3 myShare) rfl hadmit
      obtain ⟨⟨g₁, b⟩, henq, hout⟩ := Machine.bind_eq_ok.mp hout
      obtain rfl := Machine.pure_eq_ok.mp hout
      have hun := sfqd3Enqueue_unmeasured henq
      rcases hcases with ⟨-, deq, hdeq, rfl, -⟩ | ⟨-, rfl, -⟩
      · obtain ⟨⟨g₂, next⟩, hnext, hdeq⟩ := Machine.bind_eq_ok.mp hdeq
        obtain rfl := Machine.pure_eq_ok.mp hdeq
        exact hun.trans (sfqd3Dequeue_unmeasured hnext)
      · exact hun
  | complete it completeSize =>
      obtain ⟨⟨s₁, next⟩, hrelease, h⟩ := Machine.bind_eq_ok.mp h
      obtain rfl := Machine.pure_eq_ok.mp h
      exact sfqd3Dequeue_unmeasured (Sfqd3Dispatching.release_ok hm hrelease).1
  | count asserts amount app item => exact absurd trivial he

end Sfqd3Run

/-- What holds between events: the total is the sum, and the weights are those configured. -/
structure Sfqd3Shared (n : Nat) (g : Globals Sfqd3) : Prop where
  total : g.totalThroughput = ∑ app ∈ range n, (g.appStats app).appThroughput
  totalWeight : g.sched.totalWeight = ∑ app ∈ range n, (g.appStats app).appWeight
  weight : ∀ app, app < n → 0 < (g.appStats app).appWeight

namespace Sfqd3Shared

variable {n : Nat} {g g' : Globals Sfqd3}

theorem measured (h : Sfqd3Shared n g) (hm : Sfqd3Measured g g') : Sfqd3Shared n g' where
  total := by
    rw [hm.total, h.total]
    exact sum_congr rfl fun app _ => (hm.throughput app).symm
  totalWeight := by
    rw [hm.totalWeight, h.totalWeight]
    exact sum_congr rfl fun app _ => (hm.weight app).symm
  weight app happ := by
    rw [hm.weight]
    exact h.weight app happ

theorem addTtlTp (h : Sfqd3Shared n g) (amount : Int) {app : Nat} (happ : app < n) :
    Sfqd3Shared n (sfqd3AddTtlTp amount app g) := by
  have hweight : ∀ l, ((sfqd3AddTtlTp amount app g).appStats l).appWeight
      = (g.appStats l).appWeight :=
    modifyApp_field { g with totalThroughput := g.totalThroughput + amount } app (·.appWeight)
      fun _ => rfl
  refine ⟨sfqd3AddTtlTp_throughput amount app g happ h.total, ?_, fun l hl => ?_⟩
  · exact h.totalWeight.trans (sum_congr rfl fun l _ => (hweight l).symm)
  · rw [hweight]
    exact h.weight l hl

/-- Some application is not ahead of its share. -/
theorem exists_behind (h : Sfqd3Shared n g) (hn : 0 < n) :
    ∃ app, app < n ∧ sfqd3CalculateDiff app g ≤ 0 :=
  exists_le_share hn h.total h.totalWeight h.weight

end Sfqd3Shared

section runs

variable {cfg : Config Sfqd3 Sfqd3QueueItem} {myShare : Int → Int → Int → Int → Int → Int}
  {s t : Sfqd3Run}

/-- The differences that a counted completion leaves. -/
theorem Sfqd3Shared.count (hm : cfg.method = schSfqd3 myShare)
    (h : Sfqd3Shared cfg.numApps s.w.g) {asserts : Bool} {amount : Int} {app : Nat}
    {item : Option Sfqd3Item} (hok : s.Metered cfg (.count asserts amount app item))
    (hstep : s.step cfg (.count asserts amount app item) = .ok t) :
    Sfqd3Shared cfg.numApps t.w.g
      ∧ ∃ l, l < cfg.numApps ∧ (t.w.g.appStats l).diff ≤ 0 := by
  obtain ⟨-, happ, hfits⟩ := hok
  have hadd := h.addTtlTp amount happ
  obtain ⟨hmeasured, hdiff⟩ := Sfqd3Run.updateDiffs_measured hm
    (show Sfqd3Run.updateDiffs cfg asserts item _ _ = .ok t from hstep)
  refine ⟨hadd.measured hmeasured, ?_⟩
  obtain ⟨l, hl, hle⟩ := hadd.exists_behind (by omega)
  refine ⟨l, hl, ?_⟩
  obtain ⟨hlow, hhigh⟩ := hfits l hl
  rw [hdiff, if_pos (List.mem_range.mpr hl)]
  exact (toInt32_of_fits hlow hhigh).trans_le hle

/-- **Not all rest.** Whatever arrives, completes and is counted: the total is the sum of
what the applications got, and once the differences were computed some application is
not ahead of its share, so that the dispatcher does not pass over all of them. -/
theorem sfqd3_some_awake (hm : cfg.method = schSfqd3 myShare) {totalWeight : Int}
    {depths : Nat → Int} {w : World Sfqd3 Sfqd3QueueItem} {es : List Sfqd3Run.Event}
    (htotal : w.g.totalThroughput = 0)
    (hzero : ∀ app, app < cfg.numApps → (w.g.appStats app).appThroughput = 0)
    (hweight : ∀ app, app < cfg.numApps → 0 < (w.g.appStats app).appWeight)
    (htotalWeight : totalWeight = ∑ app ∈ range cfg.numApps, (w.g.appStats app).appWeight)
    (hrun : Machine.Run (Sfqd3Run.Metered cfg) (Sfqd3Run.step cfg)
      (.init cfg totalWeight depths w) es s) :
    s.w.g.totalThroughput = ∑ app ∈ range cfg.numApps, (s.w.g.appStats app).appThroughput
      ∧ ((∃ e ∈ es, e.Counts) → ∃ app, app < cfg.numApps ∧ (s.w.g.appStats app).diff ≤ 0
        ∧ ¬ (s.w.g.appStats app).diff > 10240) := by
  have hinv : Sfqd3Shared cfg.numApps s.w.g
      ∧ ((∃ e ∈ es, e.Counts) → ∃ l, l < cfg.numApps ∧ (s.w.g.appStats l).diff ≤ 0) := by
    induction hrun with
    | nil =>
        refine ⟨⟨?_, htotalWeight, hweight⟩, fun ⟨e, he, _⟩ => absurd he List.not_mem_nil⟩
        exact htotal.trans (sum_eq_zero fun app happ => hzero app (mem_range.mp happ)).symm
    | @snoc es s t e hrun hok hstep ih =>
        obtain ⟨hshared, hbehind⟩ := ih
        by_cases he : e.Counts
        · cases e with
          | arrive | complete => exact he.elim
          | count asserts amount app item =>
              obtain ⟨hshared', hbehind'⟩ := hshared.count hm hok hstep
              exact ⟨hshared', fun _ => hbehind'⟩
        · have hun := Sfqd3Run.step_unmeasured hm he hstep
          refine ⟨hshared.measured hun.measured, fun ⟨e', he', hcounts⟩ => ?_⟩
          have hold : e' ∈ es := by
            rcases List.mem_append.mp he' with hold | hnew
            · exact hold
            · exact absurd (List.mem_singleton.mp hnew ▸ hcounts) he
          obtain ⟨l, hl, hle⟩ := hbehind ⟨e', hold, hcounts⟩
          exact ⟨l, hl, (hun.diff l).trans_le hle⟩
  refine ⟨hinv.1.total, fun hcounts => ?_⟩
  obtain ⟨l, hl, hle⟩ := hinv.2 hcounts
  exact ⟨l, hl, hle, by omega⟩

/-- After a write of each of two applications, one of them counted, the other is not
ahead. -/
theorem sfqd3_some_awake_example :
    ∃ s : Sfqd3Run, s.w.g.totalThroughput = 131072
      ∧ ∃ app, app < 2 ∧ (s.w.g.appStats app).diff ≤ 0 ∧ ¬ (s.w.g.appStats app).diff > 10240 := by
  obtain ⟨s, hrun, hs⟩ := Machine.Run.exists_of_exec (Sfqd3Run.Metered sfqd3Config)
    (Sfqd3Run.step sfqd3Config)
    (.init sfqd3Config 2 (fun _ => 1) (sampleWorld (sfqd3Init 2 2 fun _ => 1)))
    sfqd3Wakes (fun s => s.w.g.totalThroughput) (a := 131072) (by decide +kernel)
  refine ⟨s, hs, ?_⟩
  exact (sfqd3_some_awake rfl rfl (fun _ _ => rfl) (fun _ _ => Int.one_pos) rfl hrun).2
    ⟨.count true 65536 1 none, by simp [sfqd3Wakes], trivial⟩

end runs

end PvfsProxy
