import Mathlib.Algebra.Order.Ring.Int
import Mathlib.Algebra.Order.BigOperators.Group.List
import Mathlib.Data.Finset.Prod
import Mathlib.Data.Int.Interval
import Mathlib.Tactic.Abel
import Mathlib.Data.List.TakeWhile
import Mathlib.Data.List.Pairwise
import Mathlib.Data.List.Induction
import Mathlib.Data.List.Perm.Basic
import PvfsProxy.Lib.StableSort

/-!
# Overtaking in a queue served by least tag

Items of several flows wait in a queue and are taken least tag first, the
elder of two with equal tags. An arriving item gets a tag that is neither
before the tag taken last (`vtime`) nor before its flow's `clock`, and moves
that clock past its own tag.

Then an item `x` that waits is passed only by items with tags from `vtime` up
to its own (`Run.window`), of which every flow has at most one for each tag
(`Run.distinct`): `Run.bypass_le` bounds how many younger ones pass it,
whatever arrives later.

`LazyQueue` is a list kept for such a queue by appending and, before an item
is taken, sorting stably by tag.
-/

namespace Bypass

variable {α ι : Type*}

/-! ## What comes before an item -/

section before

variable [DecidableEq α]

/-- The items of a list in front of the first `x`. -/
def before (x : α) (l : List α) : List α := l.takeWhile fun y => y ≠ x

theorem before_subset (x : α) (l : List α) : before x l ⊆ l := List.takeWhile_subset _

theorem before_sublist (x : α) (l : List α) : (before x l).Sublist l :=
  List.takeWhile_sublist _

theorem before_of_notMem {x : α} {l : List α} (h : x ∉ l) : before x l = l := by
  refine List.takeWhile_eq_self_iff.mpr ?_
  intro y hy
  refine decide_eq_true ?_
  rintro rfl
  exact h hy

/-- A further item is before `x` only if `x` has not come. -/
theorem mem_before_snoc {x y z : α} {l : List α} (h : y ∈ before x (l ++ [z])) :
    y ∈ before x l ∨ y = z ∧ x ∉ l := by
  by_cases hx : x ∈ l
  · left
    obtain ⟨l₁, l₂, rfl⟩ := List.append_of_mem hx
    unfold before at h ⊢
    rw [List.append_assoc, List.cons_append] at h
    rw [List.takeWhile_append] at h ⊢
    split at h
    · rename_i hall
      rw [if_pos hall]
      simpa using h
    · rename_i hall
      rw [if_neg hall]
      exact h
  · rw [before_of_notMem hx]
    rcases List.mem_append.mp (before_subset _ _ h) with hold | hnew
    · exact .inl hold
    · exact .inr ⟨List.mem_singleton.mp hnew, hx⟩

end before

/-- Items with different flows or tags are at most as many as there are pairs
of a flow and a tag. -/
theorem length_le_of_window {l : List α} (hn : l.Nodup) (flow : α → ι) (tag : α → ℤ)
    {flows : Finset ι} {lo hi : ℤ} (hle : lo ≤ hi) (hflow : ∀ y ∈ l, flow y ∈ flows)
    (hwindow : ∀ y ∈ l, lo ≤ tag y ∧ tag y < hi)
    (hinj : ∀ y ∈ l, ∀ z ∈ l, flow y = flow z → tag y = tag z → y = z) :
    (l.length : ℤ) ≤ flows.card * (hi - lo) := by
  classical
  have hnodup : (l.map fun y => (flow y, tag y)).Nodup := by
    refine hn.map_on ?_
    intro y hy z hz heq
    obtain ⟨hf, ht⟩ := Prod.mk.inj heq
    exact hinj y hy z hz hf ht
  have hsub : (l.map fun y => (flow y, tag y)).toFinset ⊆ flows ×ˢ Finset.Ico lo hi := by
    intro p hp
    obtain ⟨y, hy, rfl⟩ := List.mem_map.mp (List.mem_toFinset.mp hp)
    exact Finset.mem_product.mpr ⟨hflow y hy, Finset.mem_Ico.mpr (hwindow y hy)⟩
  have hcard := Finset.card_le_card hsub
  rw [List.toFinset_card_of_nodup hnodup, List.length_map, Finset.card_product, Int.card_Ico]
    at hcard
  have hnat : ((flows.card * (hi - lo).toNat : ℕ) : ℤ) = flows.card * (hi - lo) := by
    rw [Nat.cast_mul, Int.toNat_of_nonneg (sub_nonneg.mpr hle)]
  rw [← hnat]
  exact_mod_cast hcard

/-! ## The discipline -/

/-- What the discipline looks at: an item's flow, its tag and its number in
the order of arrival. -/
structure Keys (α ι : Type*) where
  flow : α → ι
  tag : α → ℤ
  born : α → ℤ

structure State (α ι : Type*) where
  vtime : ℤ
  clock : ι → ℤ
  queue : List α

variable {K : Keys α ι} {s t u : State α ι} {a x : α} {as ts : List α}

structure Arrives (K : Keys α ι) (s : State α ι) (a : α) (t : State α ι) : Prop where
  vtime : t.vtime = s.vtime
  late : s.vtime ≤ K.tag a
  clock : s.clock (K.flow a) ≤ K.tag a
  advance : K.tag a < t.clock (K.flow a)
  others : ∀ i, i ≠ K.flow a → s.clock i ≤ t.clock i
  young : ∀ b ∈ s.queue, K.born b < K.born a
  queue : t.queue.Perm (s.queue ++ [a])

structure Takes (K : Keys α ι) (s : State α ι) (a : α) (t : State α ι) : Prop where
  vtime : t.vtime = K.tag a
  clock : ∀ i, s.clock i ≤ t.clock i
  queue : s.queue.Perm (a :: t.queue)
  least : ∀ b ∈ t.queue, K.tag a < K.tag b ∨ K.tag a = K.tag b ∧ K.born a < K.born b

/-- The items `as` arrive and the items `ts` are taken between two states. -/
inductive Run (K : Keys α ι) (s : State α ι) : List α → List α → State α ι → Prop where
  | nil : Run K s [] [] s
  | arrive {as ts : List α} {t u : State α ι} {a : α} (h : Run K s as ts t)
      (ha : Arrives K t a u) : Run K s (as ++ [a]) ts u
  | take {as ts : List α} {t u : State α ι} {a : α} (h : Run K s as ts t)
      (ht : Takes K t a u) : Run K s as (ts ++ [a]) u

/-- No waiting item is tagged before the one taken last. -/
def Timely (K : Keys α ι) (s : State α ι) : Prop := ∀ a ∈ s.queue, s.vtime ≤ K.tag a

theorem Timely.arrive (h : Timely K s) (ha : Arrives K s a t) : Timely K t := by
  intro b hb
  rw [ha.vtime]
  rcases List.mem_append.mp (ha.queue.mem_iff.mp hb) with hold | hnew
  · exact h b hold
  · rw [List.mem_singleton.mp hnew]
    exact ha.late

theorem Timely.take (ht : Takes K s a t) : Timely K t := by
  intro b hb
  rw [ht.vtime]
  rcases ht.least b hb with hlt | ⟨heq, -⟩
  · exact hlt.le
  · exact heq.le

theorem Takes.mem (h : Takes K s a t) : a ∈ s.queue :=
  h.queue.mem_iff.mpr (List.mem_cons_self ..)

namespace Run

theorem timely (h : Run K s as ts t) (hs : Timely K s) : Timely K t ∧ s.vtime ≤ t.vtime := by
  induction h with
  | nil => exact ⟨hs, le_refl _⟩
  | arrive _ ha ih => exact ⟨ih.1.arrive ha, by rw [ha.vtime]; exact ih.2⟩
  | take _ ht ih =>
      refine ⟨Timely.take ht, ?_⟩
      rw [ht.vtime]
      exact ih.2.trans (ih.1 _ ht.mem)

/-- What was there and what came was taken or is still there. -/
theorem perm (h : Run K s as ts t) : (ts ++ t.queue).Perm (s.queue ++ as) := by
  induction h with
  | nil => simp
  | arrive _ ha ih =>
      refine (ha.queue.append_left _).trans ?_
      rw [← List.append_assoc, ← List.append_assoc]
      exact ih.append_right _
  | take _ ht ih =>
      rw [List.append_assoc, List.singleton_append]
      exact (ht.queue.symm.append_left _).trans ih

theorem clock_le (h : Run K s as ts t) (i : ι) : s.clock i ≤ t.clock i := by
  induction h with
  | nil => exact le_refl _
  | @arrive as ts t u a _ ha ih =>
      by_cases hi : i = K.flow a
      · subst hi
        exact ih.trans (ha.clock.trans ha.advance.le)
      · exact ih.trans (ha.others i hi)
  | take _ ht ih => exact ih.trans (ht.clock i)

/-- Items of one flow arrive with increasing tags, from the clock on. -/
theorem increasing (h : Run K s as ts t) :
    as.Pairwise (fun a b => K.flow a = K.flow b → K.tag a < K.tag b)
      ∧ ∀ a ∈ as, s.clock (K.flow a) ≤ K.tag a ∧ K.tag a < t.clock (K.flow a) := by
  induction h with
  | nil => exact ⟨.nil, fun a ha => by cases ha⟩
  | @arrive as ts t u a h ha ih =>
      obtain ⟨hpair, hclock⟩ := ih
      constructor
      · refine List.pairwise_append.mpr ⟨hpair, List.pairwise_singleton .., ?_⟩
        intro b hb c hc hflow
        rw [List.mem_singleton.mp hc] at hflow ⊢
        exact (hflow ▸ (hclock b hb).2).trans_le ha.clock
      · intro b hb
        rcases List.mem_append.mp hb with hold | hnew
        · refine ⟨(hclock b hold).1, ?_⟩
          by_cases hflow : K.flow b = K.flow a
          · rw [hflow]
            exact (hflow ▸ (hclock b hold).2).trans_le (ha.clock.trans ha.advance.le)
          · exact (hclock b hold).2.trans_le (ha.others _ hflow)
        · rw [List.mem_singleton.mp hnew]
          exact ⟨(h.clock_le _).trans ha.clock, ha.advance⟩
  | take _ ht ih =>
      refine ⟨ih.1, ?_⟩
      intro a ha
      exact ⟨(ih.2 a ha).1, (ih.2 a ha).2.trans_le (ht.clock _)⟩

/-- Two arrivals of a flow never have the same tag. -/
theorem arrivals_distinct (h : Run K s as ts t) :
    ∀ a ∈ as, ∀ b ∈ as, K.flow a = K.flow b → K.tag a = K.tag b → a = b := by
  have hpair := h.increasing.1
  have hsym : as.Pairwise fun a b => K.flow a = K.flow b → K.tag a = K.tag b → a = b :=
    hpair.imp fun hlt hflow htag => absurd htag (hlt hflow).ne
  have : Std.Symm fun a b : α => K.flow a = K.flow b → K.tag a = K.tag b → a = b :=
    ⟨fun _ _ hab hflow htag => (hab hflow.symm htag.symm).symm⟩
  intro a ha b hb
  exact hsym.forall_of_forall (fun _ _ _ _ => rfl) ha hb

/-- While `x` waits everything that arrives is younger. -/
theorem younger (h : Run K s as ts t) (hx : x ∈ s.queue) (hts : x ∉ ts) :
    x ∈ t.queue ∧ ∀ a ∈ as, K.born x < K.born a := by
  induction h with
  | nil => exact ⟨hx, fun a ha => by cases ha⟩
  | arrive _ ha ih =>
      obtain ⟨hq, hyoung⟩ := ih hts
      refine ⟨ha.queue.mem_iff.mpr (List.mem_append_left _ hq), ?_⟩
      intro b hb
      rcases List.mem_append.mp hb with hold | hnew
      · exact hyoung b hold
      · rw [List.mem_singleton.mp hnew]
        exact ha.young x hq
  | @take as ts t u a _ ht ih =>
      have hne : x ≠ a := fun heq => hts (heq ▸ List.mem_append_right _ (List.mem_cons_self ..))
      obtain ⟨hq, hyoung⟩ := ih fun hmem => hts (List.mem_append_left _ hmem)
      refine ⟨?_, hyoung⟩
      rcases List.mem_cons.mp (ht.queue.mem_iff.mp hq) with heq | hmem
      · exact absurd heq hne
      · exact hmem

/-- The waiting items of a flow have different tags, all before its clock. -/
structure Settled (K : Keys α ι) (s : State α ι) : Prop where
  distinct : ∀ a ∈ s.queue, ∀ b ∈ s.queue, K.flow a = K.flow b → K.tag a = K.tag b → a = b
  clock : ∀ a ∈ s.queue, K.tag a < s.clock (K.flow a)

/-- From a settled state, two items of a flow never have the same tag. -/
theorem distinct (h : Run K s as ts t) (hset : Settled K s) :
    ∀ a ∈ s.queue ++ as, ∀ b ∈ s.queue ++ as, K.flow a = K.flow b → K.tag a = K.tag b → a = b := by
  have hcross : ∀ a ∈ s.queue, ∀ b ∈ as, K.flow a = K.flow b → K.tag a ≠ K.tag b := by
    intro a ha b hb hflow
    have hclock := (h.increasing.2 b hb).1
    rw [← hflow] at hclock
    exact ((hset.clock a ha).trans_le hclock).ne
  intro a ha b hb hflow htag
  rcases List.mem_append.mp ha with ha | ha <;> rcases List.mem_append.mp hb with hb | hb
  · exact hset.distinct a ha b hb hflow htag
  · exact absurd htag (hcross a ha b hb hflow)
  · exact absurd htag.symm (hcross b hb a ha hflow.symm)
  · exact h.arrivals_distinct a ha b hb hflow htag

section bound

variable [DecidableEq α]

/-- A younger item that passes `x` has a tag between `vtime` and that of `x`. -/
theorem window (h : Run K s as ts t) (hs : Timely K s) (hx : x ∈ s.queue) :
    ∀ y ∈ before x ts, K.born x < K.born y → s.vtime ≤ K.tag y ∧ K.tag y < K.tag x := by
  induction h with
  | nil =>
      intro y hy
      cases hy
  | arrive _ _ ih => exact ih
  | @take as ts t u a h ht ih =>
      intro y hy hyoung
      rcases mem_before_snoc hy with hold | ⟨rfl, hts⟩
      · exact ih y hold hyoung
      · have hq := (h.younger hx hts).1
        refine ⟨(h.timely hs).2.trans ((h.timely hs).1 y ht.mem), ?_⟩
        rcases List.mem_cons.mp (ht.queue.mem_iff.mp hq) with rfl | hmem
        · exact absurd hyoung (lt_irrefl _)
        · rcases ht.least x hmem with hlt | ⟨-, helder⟩
          · exact hlt
          · exact absurd (hyoung.trans helder) (lt_irrefl _)

/-- An item that arrives and passes `x` is younger. -/
theorem young_of_before (h : Run K s as ts t) (hn : (s.queue ++ as).Nodup) (hx : x ∈ s.queue) :
    ∀ y ∈ before x ts, y ∈ as → K.born x < K.born y := by
  induction h with
  | nil =>
      intro y hy
      cases hy
  | @arrive as ts t u a h ha ih =>
      intro y hy hmem
      rw [← List.append_assoc] at hn
      obtain ⟨hn', -, hdisj⟩ := List.nodup_append.mp hn
      rcases List.mem_append.mp hmem with hold | hnew
      · exact ih hn' y hy hold
      · exfalso
        have hty : y ∈ s.queue ++ as :=
          h.perm.subset (List.mem_append_left _ (before_subset _ _ hy))
        exact hdisj y hty y hnew rfl
  | take h _ ih =>
      intro y hy hmem
      rcases mem_before_snoc hy with hold | ⟨rfl, hts⟩
      · exact ih hn y hold hmem
      · exact (h.younger hx hts).2 y hmem

/-- Of the items that arrive, at most one for each flow and tag passes `x`. -/
theorem bypass_arrivals_le (h : Run K s as ts t) (hs : Timely K s) (hx : x ∈ s.queue)
    (hn : (s.queue ++ as).Nodup) {flows : Finset ι} (hflows : ∀ a ∈ as, K.flow a ∈ flows) :
    (((before x ts).filter fun y => y ∈ as).length : ℤ)
      ≤ flows.card * (K.tag x - s.vtime) := by
  have hts : ts.Nodup := ((List.nodup_append.mp (h.perm.nodup_iff.mpr hn)).1)
  have hmem : ∀ y ∈ (before x ts).filter fun y => y ∈ as, y ∈ before x ts ∧ y ∈ as := by
    intro y hy
    obtain ⟨hb, ha⟩ := List.mem_filter.mp hy
    exact ⟨hb, of_decide_eq_true ha⟩
  refine length_le_of_window ((hts.sublist (before_sublist _ _)).filter _) K.flow K.tag (hs x hx)
    (fun y hy => hflows y (hmem y hy).2) ?_ ?_
  · intro y hy
    exact h.window hs hx y (hmem y hy).1 (h.young_of_before hn hx y (hmem y hy).1 (hmem y hy).2)
  · intro y hy z hz
    exact h.arrivals_distinct y (hmem y hy).2 z (hmem z hz).2

/-- **Bounded bypass.** From a settled state at most one younger item for each
flow and each tag passes `x`. -/
theorem bypass_le (h : Run K s as ts t) (hs : Timely K s) (hset : Settled K s) (hx : x ∈ s.queue)
    (hn : (s.queue ++ as).Nodup) {flows : Finset ι}
    (hflows : ∀ a ∈ s.queue ++ as, K.flow a ∈ flows) :
    (((before x ts).filter fun y => K.born x < K.born y).length : ℤ)
      ≤ flows.card * (K.tag x - s.vtime) := by
  have hts : ts.Nodup := ((List.nodup_append.mp (h.perm.nodup_iff.mpr hn)).1)
  have hmem : ∀ y ∈ (before x ts).filter fun y => K.born x < K.born y,
      y ∈ before x ts ∧ K.born x < K.born y ∧ y ∈ s.queue ++ as := by
    intro y hy
    obtain ⟨hb, hyoung⟩ := List.mem_filter.mp hy
    exact ⟨hb, of_decide_eq_true hyoung,
      h.perm.subset (List.mem_append_left _ (before_subset _ _ hb))⟩
  refine length_le_of_window ((hts.sublist (before_sublist _ _)).filter _) K.flow K.tag (hs x hx)
    (fun y hy => hflows y (hmem y hy).2.2) ?_ ?_
  · intro y hy
    exact h.window hs hx y (hmem y hy).1 (hmem y hy).2.1
  · intro y hy z hz hflow htag
    exact h.distinct hset y (hmem y hy).2.2 z (hmem z hz).2.2 hflow htag

end bound

end Run

/-! ## A list sorted lazily -/

/-- Equal tags stand in the order of arrival; sorted, so do all tags. -/
structure LazyQueue (K : Keys α ι) (sorted : Bool) (l : List α) : Prop where
  ties : l.Pairwise fun a b => K.tag b ≤ K.tag a → K.born a < K.born b
  tags : sorted = true → l.Pairwise fun a b => K.tag a ≤ K.tag b

namespace LazyQueue

variable {b : Bool} {l l' : List α}

theorem nil : LazyQueue K b [] := ⟨.nil, fun _ => .nil⟩

theorem append (h : LazyQueue K b l) (hyoung : ∀ c ∈ l, K.born c < K.born a) :
    LazyQueue K false (l ++ [a]) := by
  refine ⟨?_, fun hf => by cases hf⟩
  refine List.pairwise_append.mpr ⟨h.ties, List.pairwise_singleton .., ?_⟩
  intro c hc d hd _
  rw [List.mem_singleton.mp hd]
  exact hyoung c hc

open StableSort in
theorem sort {le : α → α → Bool} (hle : TotalPreorder le)
    (htag : ∀ a b, le a b = true ↔ K.tag a ≤ K.tag b) (h : LazyQueue K b l)
    (hs : StableSorted le l l') : LazyQueue K true l' := by
  have hpair := hs.pairwise hle (h.ties.imp fun hab _ hba => hab ((htag _ _).mp hba))
  refine ⟨hpair.imp fun hab hba => hab.2 ((htag _ _).mpr hba), fun _ => ?_⟩
  exact hs.sorted.imp fun hab => (htag _ _).mp hab

/-- The head of the sorted list is the item to take. -/
theorem head (h : LazyQueue K true (a :: l)) :
    LazyQueue K true l
      ∧ ∀ c ∈ l, K.tag a < K.tag c ∨ K.tag a = K.tag c ∧ K.born a < K.born c := by
  obtain ⟨hties, htiesl⟩ := List.pairwise_cons.mp h.ties
  obtain ⟨htags, htagsl⟩ := List.pairwise_cons.mp (h.tags rfl)
  refine ⟨⟨htiesl, fun _ => htagsl⟩, ?_⟩
  intro c hc
  rcases lt_or_eq_of_le (htags c hc) with hlt | heq
  · exact .inl hlt
  · exact .inr ⟨heq, hties c hc heq.ge⟩

open StableSort in
/-- The list is sorted if an item was `added` to it, and its head is taken. -/
theorem taken {le : α → α → Bool} (hle : TotalPreorder le)
    (htag : ∀ a b, le a b = true ↔ K.tag a ≤ K.tag b) {added : Bool}
    (h : LazyQueue K (!added) l)
    (hs : if added then StableSorted le l (a :: l') else l = a :: l') :
    (a :: l').Perm l ∧ LazyQueue K true l'
      ∧ ∀ c ∈ l', K.tag a < K.tag c ∨ K.tag a = K.tag c ∧ K.born a < K.born c := by
  cases added with
  | true =>
      have hsorted : StableSorted le l (a :: l') := hs
      exact ⟨hsorted.perm, (h.sort hle htag hsorted).head⟩
  | false =>
      obtain rfl : l = a :: l' := hs
      exact ⟨.refl _, h.head⟩

end LazyQueue

end Bypass
