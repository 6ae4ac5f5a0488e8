import PvfsProxy.TwolsfqdRuns

/-!
# The credits of 2LSFQD

`twolsfqd_replenish` sets the credits of an application to an amount that
depends on its rate and the interval alone, and that is computed in 32 bits. A
dispatch takes a request from every application whose credits then cover its
first request. Where that request is larger than the amount, no replenishment
ever pays for it, and what is queued behind it waits as well.
-/

namespace PvfsProxy

/-! ## The amount -/

/-- What an application gets before the last product wraps; the product of the
rate with 1048576 wraps in steps of 4096. -/
def twolsfqdGrant (rate interval : Int) : Int :=
  (((rate + 2048) % 4096 - 2048) * 1048576).tdiv 1000 * interval

theorem toInt32_def (z : Int) :
    toInt32 z = if z % 2 ^ 32 < 2 ^ 31 then z % 2 ^ 32 else z % 2 ^ 32 - 2 ^ 32 := by
  unfold toInt32
  rw [Int.bmod_def]
  rfl

theorem toInt32_rate (rate : Int) :
    toInt32 (rate * 1048576) = ((rate + 2048) % 4096 - 2048) * 1048576 := by
  rw [toInt32_def]
  split <;> omega

theorem twolsfqdReplenish_credits {clock : Nat → Timeval} {s : Twolsfqd} {app : Nat}
    (happ : app < s.numApps) :
    (twolsfqdReplenish clock s).sarcCredits app
      = toInt32 (twolsfqdGrant (s.appRate app) s.replenishTime) := by
  show (if app < s.numApps then _ else _) = _
  rw [if_pos happ, toInt32_rate]
  rfl

/-- An `int` is not negative if what is stored in it is below `2 ^ 31`, up to
wrapping. -/
theorem toInt32_covers (z size : Int) :
    0 ≤ toInt32 z ∧ size ≤ toInt32 z ↔ z % 2 ^ 32 < 2 ^ 31 ∧ size ≤ z % 2 ^ 32 := by
  rw [toInt32_def]
  split
  · rename_i hlow
    exact ⟨fun ⟨_, hsize⟩ => ⟨hlow, hsize⟩, fun ⟨_, hsize⟩ => ⟨by omega, hsize⟩⟩
  · rename_i hhigh
    exact ⟨fun ⟨hpos, _⟩ => by omega, fun ⟨hlow, _⟩ => absurd hlow hhigh⟩

/-! ## What a dispatch takes -/

/-- The queue of `app` is still `list`, with the whole amount to spend on it, or
it is shorter. -/
def TwolsfqdServed (σ : TwolsfqdRun.Settings) (app : Nat) (list : List TwolsfqdItem)
    (s : Twolsfqd) : Prop :=
  (s.sarcCreditList app = some list
      ∧ toInt32 (twolsfqdGrant (σ.rate app) σ.interval) ≤ s.sarcCredits app)
    ∨ ((s.sarcCreditList app).getD []).length < list.length

theorem twolsfqdServed_keeps (σ : TwolsfqdRun.Settings) {app : Nat} (happ : app < σ.cfg.numApps)
    (list : List TwolsfqdItem) :
    TwolsfqdKeeps σ.clock fun _ c =>
      TwolsfqdConfigured σ c.sched ∧ TwolsfqdServed σ app list c.sched where
  skip := by
    rintro h c s ⟨hc, hserved⟩ hskips
    refine ⟨(twolsfqdConfigured_holds σ).parts.skip (h := h) hc hskips, ?_⟩
    rcases hskips with rfl | ⟨i, -, rfl⟩
    · exact hserved
    · exact hserved
  replenish := by
    rintro h c ⟨hc, hserved⟩
    refine ⟨(twolsfqdConfigured_holds σ).parts.replenish (h := h) hc, ?_⟩
    rcases hserved with ⟨hlist, -⟩ | hshort
    · refine .inl ⟨hlist, le_of_eq ?_⟩
      show _ = (twolsfqdReplenish σ.clock c.sched).sarcCredits app
      rw [twolsfqdReplenish_credits (hc.numApps ▸ happ), hc.rates, hc.interval]
    · exact .inr hshort
  move := by
    rintro h c app' item released kept c' ⟨hc, hserved⟩ hmove
    refine ⟨(twolsfqdConfigured_holds σ).parts.move (h := h) hc hmove, ?_⟩
    obtain ⟨rest, hhead, hlists⟩ := hmove.head
    unfold TwolsfqdServed
    rw [hlists, hmove.credits]
    by_cases heq : app = app'
    · subst heq
      right
      rw [Function.update_self]
      rcases hserved with ⟨hlist, -⟩ | hshort
      · rw [hhead] at hlist
        obtain rfl := Option.some.inj hlist
        exact Nat.lt_succ_self _
      · rw [hhead] at hshort
        exact Nat.lt_of_succ_lt hshort
    · rw [Function.update_of_ne heq, Function.update_of_ne heq]
      exact hserved
  round := by
    rintro h c released kept c' ⟨hc, hserved⟩ hround
    refine ⟨(twolsfqdConfigured_holds σ).parts.round (h := h) hc hround, ?_⟩
    unfold TwolsfqdServed
    rw [hround.sarc.lists, hround.sarc.credits]
    exact hserved
  settle := fun item dispatched ⟨hc, hserved⟩ =>
    ⟨(twolsfqdConfigured_holds σ).parts.settle (h := []) item dispatched hc, hserved⟩

/-- A dispatch that begins with the whole amount takes a request that the amount
covers. -/
theorem TwolsfqdDrains.serves {σ : TwolsfqdRun.Settings} {app : Nat}
    (happ : app < σ.cfg.numApps) {item : TwolsfqdItem} {rest : List TwolsfqdItem}
    {c c' : TwolsfqdCall} {log : List TwolsfqdEvent} (hc : TwolsfqdConfigured σ c.sched)
    (hserved : TwolsfqdServed σ app (item :: rest) c.sched)
    (hcovers : item.embedded.taskSize ≤ toInt32 (twolsfqdGrant (σ.rate app) σ.interval))
    (hd : TwolsfqdDrains σ.clock c log c') :
    ((c'.sched.sarcCreditList app).getD []).length < (item :: rest).length := by
  obtain ⟨hc', ⟨hlist, hcredits⟩ | hshort⟩ :=
    (twolsfqdServed_keeps σ happ (item :: rest)).drains (h := []) ⟨hc, hserved⟩ hd
  · -- the dispatch would not have ended
    have hno := hd.not_affordable app (hc'.numApps ▸ happ)
    exact absurd ⟨item, rest, hlist, hcovers.trans hcredits⟩ hno
  · exact hshort

/-! ## What a replenishment is enough for -/

/-- After a replenishment the credits of every application are enough for its
first request, and the dispatch that follows takes one from every queue. -/
def TwolsfqdRun.CreditsSuffice (σ : TwolsfqdRun.Settings) (s : TwolsfqdRun) : Prop :=
  (∀ app < σ.cfg.numApps,
    0 ≤ (twolsfqdReplenish σ.clock s.w.g.sched).sarcCredits app
      ∧ ∀ item ∈ pintLlistHead (s.w.g.sched.sarcCreditList app),
        item.embedded.taskSize ≤ (twolsfqdReplenish σ.clock s.w.g.sched).sarcCredits app)
  ∧ ∃ c, twolsfqdTimeReplenish σ.clock s.w.g = .ok c
    ∧ ∀ app < σ.cfg.numApps, (s.w.g.sched.sarcCreditList app).getD [] ≠ [] →
      ((c.sched.sarcCreditList app).getD []).length
        < ((s.w.g.sched.sarcCreditList app).getD []).length

/-- **When credits suffice.** What an application gets, up to wrapping, is not
negative and covers its first request. -/
theorem twolsfqd_credits_suffice {σ : TwolsfqdRun.Settings}
    {w : World Twolsfqd TwolsfqdQueueItem} {es : List TwolsfqdRun.Event} {s : TwolsfqdRun}
    (h : Machine.Run (TwolsfqdRun.Allowed σ) (TwolsfqdRun.step σ) (TwolsfqdRun.init σ w) es s) :
    s.CreditsSuffice σ ↔ ∀ app < σ.cfg.numApps,
      twolsfqdGrant (σ.rate app) σ.interval % 2 ^ 32 < 2 ^ 31
        ∧ ∀ item ∈ pintLlistHead (s.w.g.sched.sarcCreditList app),
          item.embedded.taskSize ≤ twolsfqdGrant (σ.rate app) σ.interval % 2 ^ 32 := by
  have hs := twolsfqdConfigured_run h
  have hcredits : ∀ app < σ.cfg.numApps,
      (twolsfqdReplenish σ.clock s.w.g.sched).sarcCredits app
        = toInt32 (twolsfqdGrant (σ.rate app) σ.interval) := by
    intro app happ
    rw [twolsfqdReplenish_credits (hs.numApps ▸ happ), hs.rates, hs.interval]
  constructor
  · rintro ⟨hcovers, -⟩ app happ
    obtain ⟨hpos, hhead⟩ := hcovers app happ
    rw [hcredits app happ] at hpos hhead
    obtain ⟨hlow, -⟩ := (toInt32_covers _ 0).mp ⟨hpos, hpos⟩
    exact ⟨hlow, fun item hitem => ((toInt32_covers _ _).mp ⟨hpos, hhead item hitem⟩).2⟩
  · intro hgrant
    have hcovers : ∀ app < σ.cfg.numApps,
        0 ≤ toInt32 (twolsfqdGrant (σ.rate app) σ.interval)
          ∧ ∀ item ∈ pintLlistHead (s.w.g.sched.sarcCreditList app),
            item.embedded.taskSize ≤ toInt32 (twolsfqdGrant (σ.rate app) σ.interval) := by
      intro app happ
      obtain ⟨hlow, hhead⟩ := hgrant app happ
      have hpos := (toInt32_covers _ 0).mpr ⟨hlow, Int.emod_nonneg _ (by decide)⟩
      exact ⟨hpos.1, fun item hitem =>
        ((toInt32_covers _ _).mpr ⟨hlow, hhead item hitem⟩).2⟩
    refine ⟨fun app happ => ?_, ?_⟩
    · rw [hcredits app happ]
      exact hcovers app happ
    · have hreplenished := (twolsfqdConfigured_holds σ).parts.replenish (h := []) (c := s.call) hs
      obtain ⟨c, hrun, hd⟩ := twolsfqdDequeueAll_drains σ.clock
        hreplenished.toFormed
      refine ⟨c, hrun, fun app happ hne => ?_⟩
      cases hlist : s.w.g.sched.sarcCreditList app with
      | none => exact absurd (by rw [hlist]; rfl) hne
      | some list =>
          cases list with
          | nil => exact absurd (by rw [hlist]; rfl) hne
          | cons item rest =>
              have hfirst : item.embedded.taskSize
                  ≤ toInt32 (twolsfqdGrant (σ.rate app) σ.interval) :=
                (hcovers app happ).2 item (by rw [hlist]; rfl)
              exact hd.serves happ hreplenished
                (.inl ⟨hlist, le_of_eq (hcredits app happ).symm⟩) hfirst

theorem twolsfqd_credits_suffice_example :
    ∃ s : TwolsfqdRun, (s.w.g.sched.sarcCreditList 0).getD [] ≠ []
      ∧ s.CreditsSuffice (twolsfqdSettings 1 1 10 1 fun _ => 2000) := by
  obtain ⟨s, hrun, hs⟩ := Machine.Run.exists_of_exec
    (TwolsfqdRun.Allowed (twolsfqdSettings 1 1 10 1 fun _ => 2000))
    (TwolsfqdRun.step (twolsfqdSettings 1 1 10 1 fun _ => 2000))
    (twolsfqdStart (twolsfqdSettings 1 1 10 1 fun _ => 2000))
    [.replenish, .arrive (twolsfqdWrite 0 0 8192), .arrive (twolsfqdWrite 0 1 8192)]
    (fun s => (decide ((s.w.g.sched.sarcCreditList 0).getD [] ≠ []),
      decide (∀ app < 1, twolsfqdGrant 1 10 % 2 ^ 32 < 2 ^ 31
        ∧ ∀ item ∈ pintLlistHead (s.w.g.sched.sarcCreditList app),
          item.embedded.taskSize ≤ twolsfqdGrant 1 10 % 2 ^ 32)))
    (a := (true, true)) (by decide +kernel)
  obtain ⟨hwaits, hgrant⟩ := Prod.mk.inj hs
  exact ⟨s, of_decide_eq_true hwaits,
    (twolsfqd_credits_suffice hrun).mpr (of_decide_eq_true hgrant)⟩

/-- At a rate of 1 and an interval of 1 ms an application gets 1048 credits. A
request of 4096 bytes waits for good. -/
theorem twolsfqd_credits_suffice_fails :
    ∃ s, Machine.Run (TwolsfqdRun.Allowed (twolsfqdSettings 1 1 1 1 fun _ => 2000))
        (TwolsfqdRun.step (twolsfqdSettings 1 1 1 1 fun _ => 2000))
        (twolsfqdStart (twolsfqdSettings 1 1 1 1 fun _ => 2000))
        [.replenish, .arrive (twolsfqdWrite 0 0 4096)] s
      ∧ ¬ s.CreditsSuffice (twolsfqdSettings 1 1 1 1 fun _ => 2000) := by
  obtain ⟨s, hrun, hs⟩ := Machine.Run.exists_of_exec
    (TwolsfqdRun.Allowed (twolsfqdSettings 1 1 1 1 fun _ => 2000))
    (TwolsfqdRun.step (twolsfqdSettings 1 1 1 1 fun _ => 2000))
    (twolsfqdStart (twolsfqdSettings 1 1 1 1 fun _ => 2000))
    [.replenish, .arrive (twolsfqdWrite 0 0 4096)]
    (fun s => decide (∀ item ∈ pintLlistHead (s.w.g.sched.sarcCreditList 0),
      item.embedded.taskSize ≤ (twolsfqdReplenish (fun _ => { sec := 0, usec := 0 })
        s.w.g.sched).sarcCredits 0)) (a := false) (by decide +kernel)
  exact ⟨s, hrun, fun ⟨hcovers, _⟩ => of_decide_eq_false hs (hcovers 0 (by decide)).2⟩

end PvfsProxy
