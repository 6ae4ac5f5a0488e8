import Mathlib.Algebra.Order.Ring.Int
import Mathlib.Algebra.Order.BigOperators.Group.List
import Mathlib.Data.Finset.Prod
import Mathlib.Data.Int.Interval
import Mathlib.Tactic.Abel
import Mathlib.Algebra.Order.Group.Abs
import Mathlib.Data.List.TakeWhile
import Mathlib.Data.List.Pairwise
import Mathlib.Data.List.Induction
import Mathlib.Data.List.Perm.Basic

/-!
# Start-time fair queueing

The discipline in its own terms: flows `ι`, tags in a linearly ordered group
`T`, one queue per flow. An enqueued request is tagged from the virtual time
or the end of its flow's last request, whichever is later; a dispatch takes a
head of least start tag, whose start becomes the virtual time.

`Inv B s` says that every flow's tags are contiguous, that nothing queued
starts before the virtual time, and that no flow's head is further than the
bound `B i` ahead of it. `Busy.fair` is the discipline's promise: while two
flows stay backlogged, the work dispatched for one is within `B f + B g` of
the work dispatched for the other.
-/

namespace StartTimeFair

variable {ι T : Type*}

structure Tag (T : Type*) where
  start : T
  finish : T

structure State (ι T : Type*) where
  vtime : T
  last : ι → T
  queue : ι → List (Tag T)

/-- The first tag starts at `h`, every other where the one before it
finishes, and `l` is where the last one does. -/
def Contiguous [LE T] : T → List (Tag T) → T → Prop
  | h, [], l => h = l
  | h, t :: ts, l => t.start = h ∧ t.start ≤ t.finish ∧ Contiguous t.finish ts l

theorem Contiguous.append [LE T] {t : Tag T} (ht : t.start ≤ t.finish) :
    ∀ {ts : List (Tag T)} {h l : T}, Contiguous h ts l → t.start = l →
      Contiguous h (ts ++ [t]) t.finish
  | [], _, _, hc, hs => ⟨hs.trans hc.symm, ht, rfl⟩
  | _ :: _, _, _, ⟨h₁, h₂, hc⟩, hs => ⟨h₁, h₂, hc.append ht hs⟩

/-- Contiguous tags are in order of their start, none before `h`. -/
theorem Contiguous.sorted [Preorder T] :
    ∀ {ts : List (Tag T)} {h l : T}, Contiguous h ts l →
      ts.Pairwise (fun a b => a.start ≤ b.start) ∧ (∀ t ∈ ts, h ≤ t.start) ∧ h ≤ l
  | [], _, _, hc => ⟨.nil, by simp, hc.le⟩
  | t :: ts, h, l, ⟨h₁, h₂, hc⟩ => by
      obtain ⟨hs, hm, hl⟩ := hc.sorted
      have hle : h ≤ t.finish := h₁ ▸ h₂
      refine ⟨List.pairwise_cons.mpr ⟨fun t' ht' => h₂.trans (hm t' ht'), hs⟩, ?_, hle.trans hl⟩
      intro t' ht'
      rcases List.mem_cons.mp ht' with rfl | ht'
      · exact h₁.symm.le
      · exact hle.trans (hm t' ht')

namespace State

section basics

variable (s : State ι T) (i j : ι)

/-- Where the next request of the flow to be dispatched starts. -/
def head : T :=
  match s.queue i with
  | [] => s.last i
  | t :: _ => t.start

/-- The start tag of a request of flow `i` arriving now. -/
def startTag [LinearOrder T] : T := max s.vtime (s.last i)

/-- `t` may be dispatched: it heads its flow and no queued tag starts before it. -/
structure CanDispatch [LE T] (t : Tag T) (rest : List (Tag T)) : Prop where
  queue : s.queue i = t :: rest
  least : ∀ j, ∀ t' ∈ s.queue j, t.start ≤ t'.start

variable {s i j}

theorem head_nil (h : s.queue i = []) : s.head i = s.last i := by simp [head, h]

theorem head_cons {t : Tag T} {rest : List (Tag T)} (h : s.queue i = t :: rest) :
    s.head i = t.start := by simp [head, h]

end basics

variable [DecidableEq ι] (s : State ι T) (i j : ι)

def enqueue [AddCommGroup T] [LinearOrder T] (cost : T) : State ι T where
  vtime := s.vtime
  last := Function.update s.last i (s.startTag i + cost)
  queue := Function.update s.queue i (s.queue i ++ [⟨s.startTag i, s.startTag i + cost⟩])

/-- Take the head `t` of flow `i`, leaving `rest`. -/
def dispatch (t : Tag T) (rest : List (Tag T)) : State ι T where
  vtime := t.start
  last := s.last
  queue := Function.update s.queue i rest

variable {s i j}

theorem head_enqueue [AddCommGroup T] [LinearOrder T] {cost : T} (h : s.queue i ≠ []) :
    (s.enqueue j cost).head i = s.head i := by
  by_cases hij : i = j
  · subst hij
    cases hq : s.queue i with
    | nil => exact absurd hq h
    | cons t ts => simp [head, enqueue, hq]
  · simp [head, enqueue, hij]

theorem head_dispatch_of_ne {t : Tag T} {rest : List (Tag T)} (hij : i ≠ j) :
    (s.dispatch j t rest).head i = s.head i := by
  simp [head, dispatch, hij]

end State

/-! ## The invariant -/

variable [AddCommGroup T] [LinearOrder T]

/-- `B i` bounds the cost of every request of flow `i`. -/
structure Inv (B : ι → T) (s : State ι T) : Prop where
  bounded : ∀ i, ∀ t ∈ s.queue i, t.finish ≤ t.start + B i
  ahead : ∀ i, ∀ t ∈ s.queue i, s.vtime ≤ t.start
  contiguous : ∀ i, Contiguous (s.head i) (s.queue i) (s.last i)
  near : ∀ i, s.head i ≤ s.vtime + B i

namespace Inv

variable {B : ι → T} {s : State ι T} {i : ι}

/-- After a dispatch the flow's head is where the dispatched request ends. -/
theorem head_dispatch [DecidableEq ι] (h : Inv B s) {t : Tag T} {rest : List (Tag T)}
    (hq : s.queue i = t :: rest) :
    Contiguous t.finish rest (s.last i) ∧ (s.dispatch i t rest).head i = t.finish := by
  have hc := h.contiguous i
  rw [hq] at hc
  have hrest := hc.2.2
  refine ⟨hrest, ?_⟩
  cases rest with
  | nil => exact (State.head_nil (by simp [State.dispatch])).trans hrest.symm
  | cons t' rest' =>
      have hq' : (s.dispatch i t (t' :: rest')).queue i = t' :: rest' := by
        simp [State.dispatch]
      exact (State.head_cons hq').trans hrest.1

/-- A dispatch moves the head of its own flow by the work it does. -/
theorem head_served [DecidableEq ι] {n : ι → T} {tag : Tag T} {rest : List (Tag T)}
    (h : Inv B s) (hd : s.CanDispatch i tag rest) (j : ι) :
    (s.dispatch i tag rest).head j
      = s.head j + (Function.update n i (n i + (tag.finish - tag.start)) j - n j) := by
  by_cases hji : j = i
  · subst hji
    rw [(h.head_dispatch hd.queue).2, State.head_cons hd.queue, Function.update_self]
    abel
  · rw [State.head_dispatch_of_ne hji, Function.update_of_ne hji]
    abel

/-- A request that joins a backlogged flow starts where the flow ends. -/
theorem startTag_of_backlogged (h : Inv B s) (hq : s.queue i ≠ []) : s.startTag i = s.last i := by
  refine max_eq_right ?_
  cases hqi : s.queue i with
  | nil => exact absurd hqi hq
  | cons t ts =>
      have hv : s.vtime ≤ t.start := h.ahead i t (by simp [hqi])
      have hc := (h.contiguous i).sorted.2.2
      rw [State.head_cons hqi] at hc
      exact hv.trans hc

variable [IsOrderedAddMonoid T]

theorem init {v : T} (hB : ∀ i, 0 ≤ B i) : Inv B ⟨v, fun _ => v, fun _ => []⟩ where
  bounded _ _ h := by simp at h
  ahead _ _ h := by simp at h
  contiguous _ := rfl
  near i := by simpa [State.head] using hB i

/-- Of two flows, a backlogged one is not behind the other by more than the
other's bound. -/
theorem spread (h : Inv B s) {f g : ι} (hg : s.queue g ≠ []) : s.head f - s.head g ≤ B f := by
  have hv : s.vtime ≤ s.head g := by
    cases hq : s.queue g with
    | nil => exact absurd hq hg
    | cons t ts =>
        rw [State.head_cons hq]
        exact h.ahead g t (by simp [hq])
  rw [sub_le_iff_le_add']
  exact (h.near f).trans (add_le_add_left hv _)

variable [DecidableEq ι]

theorem enqueue (h : Inv B s) {cost : T} (h₀ : 0 ≤ cost) (hc : cost ≤ B i) :
    Inv B (s.enqueue i cost) := by
  have hnew : s.vtime ≤ s.startTag i := le_max_left ..
  have hle : s.startTag i ≤ s.startTag i + cost := le_add_of_nonneg_right h₀
  have hqueue : ∀ j t, t ∈ (s.enqueue i cost).queue j →
      t ∈ s.queue j ∨ j = i ∧ t = ⟨s.startTag i, s.startTag i + cost⟩ := by
    intro j t ht
    by_cases hji : j = i
    · subst hji
      simpa [State.enqueue] using ht
    · exact .inl (by simpa [State.enqueue, hji] using ht)
  have hhead : (s.enqueue i cost).head i
      = if s.queue i = [] then s.startTag i else s.head i := by
    split
    · simp [State.head, State.enqueue, *]
    · exact State.head_enqueue ‹_›
  refine ⟨fun j t ht => ?_, fun j t ht => ?_, fun j => ?_, fun j => ?_⟩
  · obtain ht | ⟨rfl, rfl⟩ := hqueue j t ht
    · exact h.bounded j t ht
    · exact add_le_add_right hc _
  · obtain ht | ⟨rfl, rfl⟩ := hqueue j t ht
    · exact h.ahead j t ht
    · exact hnew
  · by_cases hji : j = i
    · subst hji
      rw [hhead]
      simp only [State.enqueue, Function.update_self]
      split
      · simp [*, Contiguous]
      · exact (h.contiguous j).append hle (h.startTag_of_backlogged ‹_›)
    · have := h.contiguous j
      rwa [← show (s.enqueue i cost).head j = s.head j by simp [State.head, State.enqueue, hji],
        ← show (s.enqueue i cost).queue j = s.queue j by simp [State.enqueue, hji],
        ← show (s.enqueue i cost).last j = s.last j by simp [State.enqueue, hji]] at this
  · by_cases hji : j = i
    · subst hji
      rw [hhead]
      split
      · have hnear := h.near j
        rw [State.head_nil ‹_›] at hnear
        exact max_le (le_add_of_nonneg_right (h₀.trans hc)) hnear
      · exact h.near j
    · have := h.near j
      rwa [← show (s.enqueue i cost).head j = s.head j by
        simp [State.head, State.enqueue, hji]] at this

theorem dispatch (h : Inv B s) {t : Tag T} {rest : List (Tag T)}
    (hd : s.CanDispatch i t rest) : Inv B (s.dispatch i t rest) := by
  have ht : t ∈ s.queue i := by simp [hd.queue]
  have hv : s.vtime ≤ t.start := h.ahead i t ht
  obtain ⟨hrest, hhead⟩ := h.head_dispatch hd.queue
  have hqueue : ∀ j t', t' ∈ (s.dispatch i t rest).queue j → t' ∈ s.queue j := by
    intro j t' ht'
    by_cases hji : j = i
    · subst hji
      rw [hd.queue]
      exact List.mem_cons_of_mem _ (by simpa [State.dispatch] using ht')
    · simpa [State.dispatch, hji] using ht'
  refine ⟨fun j t' ht' => h.bounded j t' (hqueue j t' ht'),
    fun j t' ht' => hd.least j t' (hqueue j t' ht'), fun j => ?_, fun j => ?_⟩
  · by_cases hji : j = i
    · subst hji
      rw [hhead]
      simpa [State.dispatch] using hrest
    · rw [State.head_dispatch_of_ne hji]
      simpa [State.dispatch, hji] using h.contiguous j
  · by_cases hji : j = i
    · subst hji
      rw [hhead]
      exact h.bounded j t ht
    · rw [State.head_dispatch_of_ne hji]
      exact (h.near j).trans (add_le_add_left hv _)

end Inv

/-! ## Fairness -/

variable [DecidableEq ι] [IsOrderedAddMonoid T]

/-- Steps from `s` with `f` and `g` backlogged around every dispatch; the last
index is the work dispatched for each flow. -/
inductive Busy (B : ι → T) (f g : ι) (s : State ι T) : State ι T → (ι → T) → Prop where
  | refl : Busy B f g s s 0
  | enqueue {t : State ι T} {n : ι → T} {i : ι} {cost : T} (h : Busy B f g s t n)
      (h₀ : 0 ≤ cost) (hc : cost ≤ B i) : Busy B f g s (t.enqueue i cost) n
  | dispatch {u : State ι T} {n : ι → T} {i : ι} {t : Tag T} {rest : List (Tag T)}
      (h : Busy B f g s u n) (hd : u.CanDispatch i t rest)
      (hf : u.queue f ≠ []) (hg : u.queue g ≠ [])
      (hf' : (u.dispatch i t rest).queue f ≠ []) (hg' : (u.dispatch i t rest).queue g ≠ []) :
      Busy B f g s (u.dispatch i t rest)
        (Function.update n i (n i + (t.finish - t.start)))

namespace Busy

variable {B : ι → T} {f g i : ι} {s t : State ι T} {n : ι → T}

theorem inv (h : Busy B f g s t n) (hs : Inv B s) : Inv B t := by
  induction h with
  | refl => exact hs
  | enqueue _ h₀ hc ih => exact ih.enqueue h₀ hc
  | dispatch _ hd _ _ _ _ ih => exact ih.dispatch hd

/-- The work done for `f` and `g` since the first dispatch is how far their
heads have moved. -/
theorem heads (h : Busy B f g s t n) (hs : Inv B s) :
    (n f = 0 ∧ n g = 0) ∨
      (t.queue f ≠ [] ∧ t.queue g ≠ [] ∧ ∃ u, Inv B u ∧ u.queue f ≠ [] ∧ u.queue g ≠ []
        ∧ t.head f = u.head f + n f ∧ t.head g = u.head g + n g) := by
  induction h with
  | refl => exact .inl ⟨rfl, rfl⟩
  | @enqueue t n i cost h _ _ ih =>
      rcases ih with hzero | ⟨hf, hg, u, hu, huf, hug, hhf, hhg⟩
      · exact .inl hzero
      · have hmono : ∀ j, t.queue j ≠ [] → (t.enqueue i cost).queue j ≠ [] := fun j hj => by
          by_cases hji : j = i
          · subst hji
            simp [State.enqueue]
          · simpa [State.enqueue, hji] using hj
        exact .inr ⟨hmono f hf, hmono g hg, u, hu, huf, hug,
          (State.head_enqueue hf).trans hhf, (State.head_enqueue hg).trans hhg⟩
  | @dispatch t n i tag rest h hd hf hg hf' hg' ih =>
      have ht := h.inv hs
      refine .inr ⟨hf', hg', ?_⟩
      rcases ih with ⟨hnf, hng⟩ | ⟨-, -, u, hu, huf, hug, hhf, hhg⟩
      · refine ⟨t, ht, hf, hg, ?_, ?_⟩
        · rw [ht.head_served (n := n) hd, hnf, sub_zero]
        · rw [ht.head_served (n := n) hd, hng, sub_zero]
      · refine ⟨u, hu, huf, hug, ?_, ?_⟩
        · rw [ht.head_served (n := n) hd, hhf]
          abel
        · rw [ht.head_served (n := n) hd, hhg]
          abel

/-- While two flows stay backlogged the work dispatched for them differs by
at most the sum of their bounds. -/
theorem fair (h : Busy B f g s t n) (hs : Inv B s) (hB : ∀ i, 0 ≤ B i) :
    |n f - n g| ≤ B f + B g := by
  rcases h.heads hs with ⟨hf, hg⟩ | ⟨hf, hg, u, hu, huf, hug, hhf, hhg⟩
  · rw [hf, hg, sub_zero, abs_zero]
    exact add_nonneg (hB f) (hB g)
  · have ht := h.inv hs
    rw [abs_sub_le_iff]
    constructor
    · calc n f - n g = (t.head f - t.head g) + (u.head g - u.head f) := by
            rw [hhf, hhg]; abel
        _ ≤ B f + B g := add_le_add (ht.spread hg) (hu.spread huf)
    · calc n g - n f = (u.head f - u.head g) + (t.head g - t.head f) := by
            rw [hhf, hhg]; abel
        _ ≤ B f + B g := add_le_add (hu.spread hug) (ht.spread hf)

end Busy

end StartTimeFair
