import PvfsProxy.Lib.StableSort

/-!
# The linked list of `llist.c`

A `PINT_llist_p` is NULL or points at a sentinel; the model keeps the items
behind the sentinel. The list functions are total on that view, with NULL
as `none`.

`pintLlistSort` keeps the three loops of the source: the outer loop doubling
`insize`, the pass over pairs of runs, and the merge with its two counters.
Every loop carries a bound on its turns, and `pintLlistSort_spec` shows the
bounds suffice: the result is the stable sort of the input. On an empty list
the function returns NULL rather than the sentinel.
-/

namespace PvfsProxy

open StableSort

variable {α κ : Type*}

/-- `PINT_llist_p`: NULL, or the items behind the sentinel. -/
abbrev PintLlist (α : Type*) := Option (List α)

def pintLlistNew : PintLlist α := some []

/-- Returns the C result (`0` or `-1`) with the list. -/
def pintLlistAddToTail : PintLlist α → α → Int × PintLlist α
  | none, _ => (-1, none)
  | some l, item => (0, some (l ++ [item]))

def pintLlistHead : PintLlist α → Option α
  | none => none
  | some l => l.head?

/-- First match from the list; `comp` returns zero on a match. -/
def pintLlistSearch (l : PintLlist α) (key : κ) (comp : κ → α → Int) : Option α :=
  match l with
  | none => none
  | some l => l.find? fun item => comp key item == 0

/-- Removes the first match; the removed item with the list that is left. -/
def pintLlistRem (l : PintLlist α) (key : κ) (comp : κ → α → Int) :
    Option α × PintLlist α :=
  match l with
  | none => (none, none)
  | some l => (l.find? fun item => comp key item == 0,
      some (l.eraseP fun item => comp key item == 0))

/-! ## `PINT_llist_sort` -/

/-- `for (i = 0; i < insize; i++)`: `psize`, and where `q` stands after it. -/
def stepAlong : Nat → List α → Nat × List α
  | 0, q => (0, q)
  | _ + 1, [] => (0, [])
  | i + 1, _ :: q => ((stepAlong i q).1 + 1, (stepAlong i q).2)

/-- `while (psize > 0 || (qsize > 0 && q))`: what the loop appends to the
merged list, and where `q` stands after it. Every turn lowers
`psize + qsize`, which bounds the first argument. -/
def mergeWhile (listComp : α → α → Int) :
    Nat → Nat → List α → Nat → List α → List α × List α
  | 0, _, _, _, q => ([], q)
  | n + 1, 0, p, qsize + 1, e :: q =>
    let r := mergeWhile listComp n 0 p qsize q
    (e :: r.1, r.2)
  | n + 1, psize + 1, e :: p, 0, q =>
    let r := mergeWhile listComp n psize p 0 q
    (e :: r.1, r.2)
  | n + 1, psize + 1, e :: p, qsize + 1, [] =>
    let r := mergeWhile listComp n psize p (qsize + 1) []
    (e :: r.1, r.2)
  | n + 1, psize + 1, e :: p, qsize + 1, f :: q =>
    if listComp e f ≤ 0 then
      let r := mergeWhile listComp n psize p (qsize + 1) (f :: q)
      (e :: r.1, r.2)
    else
      let r := mergeWhile listComp n (psize + 1) (e :: p) qsize q
      (f :: r.1, r.2)
  | _ + 1, _, _, _, q => ([], q)

/-- `while (p)`: the list one pass builds, with `nmerges`. -/
def sortPass (listComp : α → α → Int) (insize : Nat) : Nat → List α → List α × Nat
  | 0, _ => ([], 0)
  | _ + 1, [] => ([], 0)
  | n + 1, e :: p =>
    let s := stepAlong insize (e :: p)
    let m := mergeWhile listComp (s.1 + insize) s.1 (e :: p) insize s.2
    let r := sortPass listComp insize n m.2
    (m.1 ++ r.1, r.2 + 1)

/-- `while (1)`: passes over runs of doubling length until one merge is left. -/
def sortPasses (listComp : α → α → Int) : Nat → Nat → List α → List α
  | 0, _, list => list
  | n + 1, insize, list =>
    let r := sortPass listComp insize list.length list
    if r.2 ≤ 1 then r.1 else sortPasses listComp n (insize * 2) r.1

def pintLlistSort (list : PintLlist α) (listComp : α → α → Int) : PintLlist α :=
  match list with
  | none => none
  | some [] => none
  | some list => some (sortPasses listComp list.length 1 list)

/-! ## The loops, one lemma each -/

/-- The order a comparison function stands for. -/
def compLe (listComp : α → α → Int) (a b : α) : Bool := decide (listComp a b ≤ 0)

theorem stepAlong_eq : ∀ (i : Nat) (q : List α),
    stepAlong i q = (min i q.length, q.drop i)
  | 0, q => by simp [stepAlong]
  | i + 1, [] => by simp [stepAlong]
  | i + 1, _ :: q => by
      rw [stepAlong, stepAlong_eq i q]
      simp

theorem mergeWhile_eq (listComp : α → α → Int) :
    ∀ {n psize qsize : Nat} {p q : List α}, psize + qsize ≤ n → psize ≤ p.length →
      mergeWhile listComp n psize p qsize q
        = (List.merge (p.take psize) (q.take qsize) (compLe listComp), q.drop qsize)
  | 0, psize, qsize, p, q, hn, _ => by
      obtain ⟨rfl, rfl⟩ : psize = 0 ∧ qsize = 0 := by omega
      simp [mergeWhile]
  | n + 1, psize + 1, _, [], q, _, hp => absurd hp (by simp)
  | n + 1, 0, 0, p, q, _, _ => by simp [mergeWhile]
  | n + 1, 0, qsize + 1, p, [], _, _ => by simp [mergeWhile]
  | n + 1, 0, qsize + 1, p, e :: q, hn, hp => by
      rw [mergeWhile, mergeWhile_eq listComp (by omega) (Nat.zero_le _)]
      simp
  | n + 1, psize + 1, 0, e :: p, q, hn, hp => by
      rw [mergeWhile, mergeWhile_eq listComp (by omega) (by simpa using hp)]
      simp
  | n + 1, psize + 1, qsize + 1, e :: p, [], hn, hp => by
      rw [mergeWhile, mergeWhile_eq listComp (by omega) (by simpa using hp)]
      simp
  | n + 1, psize + 1, qsize + 1, e :: p, f :: q, hn, hp => by
      rw [mergeWhile]
      split
      · next hle =>
          rw [mergeWhile_eq listComp (by omega) (by simpa using hp)]
          simp [List.take_succ_cons, compLe, hle]
      · next hle =>
          rw [mergeWhile_eq listComp (by omega) hp]
          simp [List.take_succ_cons, compLe, hle]

/-- One turn of a pass merges the first two runs and goes on behind them. -/
theorem sortPass_cons (listComp : α → α → Int) (insize n : Nat) (e : α) (p : List α) :
    sortPass listComp insize (n + 1) (e :: p)
      = (List.merge ((e :: p).take insize) (((e :: p).drop insize).take insize)
            (compLe listComp) ++ (sortPass listComp insize n ((e :: p).drop (2 * insize))).1,
          (sortPass listComp insize n ((e :: p).drop (2 * insize))).2 + 1) := by
  have hmerge : mergeWhile listComp ((stepAlong insize (e :: p)).1 + insize)
      (stepAlong insize (e :: p)).1 (e :: p) insize (stepAlong insize (e :: p)).2
      = (List.merge ((e :: p).take insize) (((e :: p).drop insize).take insize)
          (compLe listComp), (e :: p).drop (2 * insize)) := by
    rw [stepAlong_eq, mergeWhile_eq listComp (Nat.le_refl _) (Nat.min_le_right _ _)]
    simp only [List.drop_drop, ← Nat.two_mul]
    congr 2
    by_cases hle : insize ≤ (e :: p).length
    · rw [Nat.min_eq_left hle]
    · rw [Nat.min_eq_right (by omega), List.take_length, List.take_of_length_le (by omega)]
  rw [sortPass, hmerge]

/-- A pass of the source is a bottom-up merge pass, and `nmerges` tells how
many pairs of runs there were. -/
theorem sortPass_spec (listComp : α → α → Int) {insize : Nat} (hin : 0 < insize) :
    ∀ {n : Nat} {l : List α}, l.length ≤ n →
      MergePass (compLe listComp) insize l (sortPass listComp insize n l).1
        ∧ ((sortPass listComp insize n l).2 ≤ 1 ↔ l.length ≤ 2 * insize)
        ∧ ((sortPass listComp insize n l).2 = 0 ↔ l = [])
  | 0, [], _ => ⟨.nil, by simp [sortPass], by simp [sortPass]⟩
  | n + 1, [], _ => ⟨.nil, by simp [sortPass], by simp [sortPass]⟩
  | n + 1, e :: p, hn => by
      have hrest : ((e :: p).drop (2 * insize)).length ≤ n := by
        simp only [List.length_drop, List.length_cons] at hn ⊢
        omega
      obtain ⟨hpass, -, hzero⟩ := sortPass_spec listComp hin hrest
      rw [sortPass_cons]
      refine ⟨.cons (by simp) hpass, ?_, by simp⟩
      rw [← List.drop_eq_nil_iff, ← hzero]
      simp

/-- A pass makes no more merges than there are pairs of runs. -/
theorem sortPass_merges (listComp : α → α → Int) {insize : Nat} (hin : 0 < insize) :
    ∀ {n : Nat} {l : List α}, l.length ≤ n →
      (sortPass listComp insize n l).2 * (2 * insize) < l.length + 2 * insize
  | 0, [], _ => by simpa [sortPass] using hin
  | n + 1, [], _ => by simpa [sortPass] using hin
  | n + 1, e :: p, hn => by
      have hrest : ((e :: p).drop (2 * insize)).length ≤ n := by
        simp only [List.length_drop, List.length_cons] at hn ⊢
        omega
      have ih := sortPass_merges listComp hin hrest
      rw [sortPass_cons]
      simp only [List.length_drop, List.length_cons, Nat.add_mul, Nat.one_mul] at ih ⊢
      rcases Nat.lt_or_ge (p.length + 1) (2 * insize) with hlt | hge
      · rw [Nat.sub_eq_zero_of_le hlt.le, Nat.zero_add] at ih
        have hzero : (sortPass listComp insize n ((e :: p).drop (2 * insize))).2 = 0 := by
          rw [List.drop_of_length_le (by simpa using hlt.le)]
          cases n <;> rfl
        rw [hzero, Nat.zero_mul]
        omega
      · omega

theorem sortPasses_perm (listComp : α → α → Int) :
    ∀ (n : Nat) {insize : Nat} (l : List α), 0 < insize →
      (sortPasses listComp n insize l).Perm l
  | 0, _, l, _ => List.Perm.refl l
  | n + 1, insize, l, hin => by
      have hpass := (sortPass_spec listComp hin (Nat.le_refl l.length)).1.perm
      simp only [sortPasses]
      split
      · exact hpass
      · exact (sortPasses_perm listComp n _ (by omega)).trans hpass

theorem sortPasses_spec {listComp : α → α → Int}
    (h : TotalPreorder (compLe listComp)) {l₀ : List α} :
    ∀ {n insize : Nat} {l : List α}, 0 < insize → l.length ≤ insize * 2 ^ n → 0 < n →
      SortedRuns (compLe listComp) insize l → l.Perm l₀ →
      (∀ x, l.filter (cls (compLe listComp) x) = l₀.filter (cls (compLe listComp) x)) →
      StableSorted (compLe listComp) l₀ (sortPasses listComp n insize l)
  | n + 1, insize, l, hin, hlen, _, hruns, hperm, hst => by
      obtain ⟨hpass, hmerges, -⟩ := sortPass_spec listComp hin (Nat.le_refl l.length)
      simp only [sortPasses]
      split
      · next hle => exact hpass.stableSorted h hruns (hmerges.mp hle) hperm hst
      · next hle =>
          have hlong : ¬ l.length ≤ 2 * insize := fun hh => hle (hmerges.mpr hh)
          have hn : 0 < n := by
            rcases n with _ | n
            · simp only [Nat.zero_add, Nat.pow_one] at hlen; omega
            · omega
          refine sortPasses_spec h (by omega) ?_ hn ?_ (hpass.perm.trans hperm)
            fun x => (hpass.stable h hruns x).trans (hst x)
          · rw [hpass.perm.length_eq, Nat.mul_assoc, ← Nat.pow_succ']
            exact hlen
          · rw [Nat.mul_comm]
            exact hpass.sortedRuns h hruns

/-- **`PINT_llist_sort` is a stable sort.** On a list with an item it
terminates with the sentinel kept and the items in stable order. -/
theorem pintLlistSort_spec {listComp : α → α → Int}
    (h : TotalPreorder (compLe listComp)) {l : List α} (hne : l ≠ []) :
    ∃ l', pintLlistSort (some l) listComp = some l'
      ∧ StableSorted (compLe listComp) l l' := by
  cases l with
  | nil => exact absurd rfl hne
  | cons a l =>
      refine ⟨_, rfl, sortPasses_spec h Nat.one_pos ?_ (by simp) (sortedRuns_one _)
        (List.Perm.refl _) fun _ => rfl⟩
      rw [Nat.one_mul]
      exact Nat.le_of_lt Nat.lt_two_pow_self

/-- Comparing a key by subtraction, as the comparators of `llist.c` do. -/
theorem totalPreorder_sub (key : α → Int) :
    TotalPreorder (compLe fun a b => key a - key b) where
  trans a b c hab hbc := by
    simp only [compLe, decide_eq_true_eq] at *
    omega
  total a b := by
    simp only [compLe, Bool.or_eq_true, decide_eq_true_eq]
    omega

end PvfsProxy
