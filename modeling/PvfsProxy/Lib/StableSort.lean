import Mathlib.Algebra.Order.Ring.Int
import Mathlib.Algebra.Order.BigOperators.Group.List
import Mathlib.Data.Finset.Prod
import Mathlib.Data.Int.Interval
import Mathlib.Tactic.Abel
import Mathlib.Data.List.TakeWhile
import Mathlib.Data.List.Pairwise
import Mathlib.Data.List.Induction
import Mathlib.Data.List.Perm.Basic

/-!
# Stable sorting

What a stable sort promises, stated for an arbitrary total preorder, and the
one bottom-up pass every merge sort on runs is made of.

`StableSorted le l l'` says that `l'` is `l` in order, with every class of
equal keys left in its original order (`cls le a` is the class of `a`). The
two facts clients use are `StableSorted.unique`, which makes the result a
function of the input, and `StableSorted.filter_of_sorted`: whatever part of
the input was in order already keeps its order.

`MergePass le w l l'` is one pass over `l` merging neighbouring runs of `w`
elements. It turns sorted runs of `w` into sorted runs of `2 * w` and moves
no element past an equal one.
-/

namespace StableSort

variable {α : Type*} {le : α → α → Bool}

/-- The comparisons a sort may be run with. -/
structure TotalPreorder (le : α → α → Bool) : Prop where
  trans : ∀ a b c, le a b = true → le b c = true → le a c = true
  total : ∀ a b, (le a b || le b a) = true

theorem TotalPreorder.refl (h : TotalPreorder le) (a : α) : le a a = true := by
  simpa using h.total a a

/-- Membership in the class of elements whose key equals that of `a`. -/
def cls (le : α → α → Bool) (a b : α) : Bool := le a b && le b a

theorem TotalPreorder.cls_self (h : TotalPreorder le) (a : α) : cls le a a = true := by
  simp [cls, h.refl a]

/-- `l'` is `l` sorted, equal keys in their original order. -/
structure StableSorted (le : α → α → Bool) (l l' : List α) : Prop where
  perm : l'.Perm l
  sorted : l'.Pairwise (fun a b => le a b = true)
  stable : ∀ a, l'.filter (cls le a) = l.filter (cls le a)

/-! ## The result is a function of the input -/

/-- The head of a sorted list is below any element of a list with the same
classes. -/
theorem head_le_of_classes (h : TotalPreorder le) {a b : α} {l l' : List α}
    (hl : (a :: l).Pairwise (fun x y => le x y = true))
    (hc : ∀ x, (a :: l).filter (cls le x) = (b :: l').filter (cls le x)) :
    le a b = true := by
  have hb : b ∈ (a :: l).filter (cls le b) := by
    rw [hc b]
    exact List.mem_filter.mpr ⟨List.mem_cons_self .., h.cls_self b⟩
  rcases List.mem_cons.mp (List.mem_filter.mp hb).1 with rfl | hmem
  · exact h.refl _
  · exact (List.pairwise_cons.mp hl).1 b hmem

/-- Two sorted lists with the same classes, each in the same order, are equal. -/
theorem eq_of_sorted_of_classes (h : TotalPreorder le) :
    ∀ {l l' : List α}, l.Pairwise (fun a b => le a b = true) →
      l'.Pairwise (fun a b => le a b = true) →
      (∀ x, l.filter (cls le x) = l'.filter (cls le x)) → l = l'
  | [], [], _, _, _ => rfl
  | [], b :: l', _, _, hc => by
      have := hc b
      simp [h.cls_self b] at this
  | a :: l, [], _, _, hc => by
      have := hc a
      simp [h.cls_self a] at this
  | a :: l, b :: l', hl, hl', hc => by
      have hab : le a b = true := head_le_of_classes h hl hc
      have hba : le b a = true := head_le_of_classes h hl' fun x => (hc x).symm
      have heq : a = b := by
        have := hc a
        rw [List.filter_cons_of_pos (h.cls_self a),
          List.filter_cons_of_pos (by simp [cls, hab, hba])] at this
        exact (List.cons.inj this).1
      subst heq
      have htail : ∀ x, l.filter (cls le x) = l'.filter (cls le x) := fun x => by
        have := hc x
        by_cases hx : cls le x a = true
        · rw [List.filter_cons_of_pos hx, List.filter_cons_of_pos hx] at this
          exact (List.cons.inj this).2
        · rwa [List.filter_cons_of_neg hx, List.filter_cons_of_neg hx] at this
      rw [eq_of_sorted_of_classes h hl.of_cons hl'.of_cons htail]

theorem StableSorted.unique (h : TotalPreorder le) {l l₁ l₂ : List α}
    (h₁ : StableSorted le l l₁) (h₂ : StableSorted le l l₂) : l₁ = l₂ :=
  eq_of_sorted_of_classes h h₁.sorted h₂.sorted
    fun x => (h₁.stable x).trans (h₂.stable x).symm

/-- A part of the input that is in order already is left as it is. -/
theorem StableSorted.filter_of_sorted (h : TotalPreorder le) {l l' : List α}
    (hs : StableSorted le l l') {p : α → Bool}
    (hp : (l.filter p).Pairwise (fun a b => le a b = true)) :
    l'.filter p = l.filter p := by
  refine eq_of_sorted_of_classes h (hs.sorted.filter _) hp fun x => ?_
  rw [List.filter_filter, List.filter_filter]
  simp only [Bool.and_comm, ← List.filter_filter, hs.stable x]

/-- Equal keys whose input order obeys `R` obey it in the result. -/
theorem StableSorted.pairwise (h : TotalPreorder le) {l l' : List α} (hs : StableSorted le l l')
    {R : α → α → Prop} (hR : l.Pairwise fun a b => le a b = true → le b a = true → R a b) :
    l'.Pairwise fun a b => le a b = true ∧ (le b a = true → R a b) := by
  rw [List.pairwise_iff_forall_sublist]
  intro a b hab
  have hle : le a b = true := List.pairwise_iff_forall_sublist.mp hs.sorted hab
  refine ⟨hle, fun hba => ?_⟩
  have hcls : [a, b].Sublist (l.filter (cls le a)) := by
    rw [← hs.stable a]
    have := hab.filter (cls le a)
    rwa [List.filter_cons_of_pos (h.cls_self a),
      List.filter_cons_of_pos (by simp [cls, hle, hba]), List.filter_nil] at this
  exact List.pairwise_iff_forall_sublist.mp hR (hcls.trans List.filter_sublist) hle hba

theorem StableSorted.of_sorted {l : List α}
    (hl : l.Pairwise (fun a b => le a b = true)) : StableSorted le l l :=
  ⟨List.Perm.refl l, hl, fun _ => rfl⟩

/-! ## Merging two runs -/

/-- A merge of two sorted runs keeps every class, those of the first run
first. -/
theorem filter_merge (h : TotalPreorder le) (x : α) :
    ∀ {l r : List α}, l.Pairwise (fun a b => le a b = true) →
      (List.merge l r le).filter (cls le x)
        = l.filter (cls le x) ++ r.filter (cls le x)
  | [], r, _ => by simp
  | a :: l, [], _ => by simp
  | a :: l, b :: r, hl => by
      by_cases hab : le a b = true
      · rw [List.cons_merge_cons_pos le l r hab, List.filter_cons, List.filter_cons,
          filter_merge h x hl.of_cons]
        split <;> simp
      · rw [List.cons_merge_cons_neg le l r hab, List.filter_cons,
          filter_merge h x (r := r) hl]
        by_cases hxb : cls le x b = true
        · -- `b` goes first, so no element of the first run shares its class
          have hnone : (a :: l).filter (cls le x) = [] := by
            refine List.filter_eq_nil_iff.mpr fun c hc hxc => hab ?_
            simp only [cls, Bool.and_eq_true] at hxb hxc
            have hac : le a c = true := by
              rcases List.mem_cons.mp hc with rfl | hmem
              · exact h.refl _
              · exact (List.pairwise_cons.mp hl).1 c hmem
            exact h.trans a c b hac (h.trans c x b hxc.2 hxb.1)
          rw [if_pos hxb, hnone, List.filter_cons_of_pos hxb]
          simp
        · rw [if_neg hxb, List.filter_cons_of_neg hxb]

/-! ## One pass over the runs -/

/-- Every run of `w` consecutive elements, counted from the front, is sorted. -/
def SortedRuns (le : α → α → Bool) (w : Nat) (l : List α) : Prop :=
  ∀ k, ((l.drop (k * w)).take w).Pairwise (fun a b => le a b = true)

/-- One bottom-up pass: neighbouring runs of `w` elements are merged. -/
inductive MergePass (le : α → α → Bool) (w : Nat) : List α → List α → Prop where
  | nil : MergePass le w [] []
  | cons {l rest : List α} (hne : l ≠ []) (hrest : MergePass le w (l.drop (2 * w)) rest) :
      MergePass le w l (List.merge (l.take w) ((l.drop w).take w) le ++ rest)

theorem SortedRuns.drop {w : Nat} {l : List α} (h : SortedRuns le w l) (j : Nat) :
    SortedRuns le w (l.drop (j * w)) := fun k => by
  have := h (j + k)
  rwa [Nat.add_mul, ← List.drop_drop] at this

theorem sortedRuns_one (l : List α) : SortedRuns le 1 l := fun k => by
  cases l.drop (k * 1) with
  | nil => simp
  | cons a t => simp

theorem SortedRuns.sorted {w : Nat} {l : List α} (h : SortedRuns le w l)
    (hw : l.length ≤ w) : l.Pairwise (fun a b => le a b = true) := by
  simpa [List.take_of_length_le hw] using h 0

theorem take_append_take_drop (w : Nat) (l : List α) :
    l.take w ++ (l.drop w).take w = l.take (2 * w) := by
  rw [Nat.two_mul, List.take_add]

theorem MergePass.perm {w : Nat} {l l' : List α} (hp : MergePass le w l l') :
    l'.Perm l := by
  induction hp with
  | nil => exact List.Perm.refl _
  | @cons l rest _ _ ih =>
      refine (List.Perm.append (List.merge_perm_append le) ih).trans ?_
      rw [take_append_take_drop, List.take_append_drop]

theorem MergePass.stable (h : TotalPreorder le) {w : Nat} {l l' : List α}
    (hp : MergePass le w l l') (hl : SortedRuns le w l) (x : α) :
    l'.filter (cls le x) = l.filter (cls le x) := by
  induction hp with
  | nil => rfl
  | @cons l rest _ _ ih =>
      have hrun : (l.take w).Pairwise (fun a b => le a b = true) := by simpa using hl 0
      rw [List.filter_append, filter_merge h x hrun, ih (hl.drop 2), ← List.filter_append,
        ← List.filter_append, take_append_take_drop, List.take_append_drop]

theorem MergePass.of_nil {w : Nat} {l' : List α} (hp : MergePass le w [] l') : l' = [] := by
  cases hp with
  | nil => rfl
  | cons hne _ => exact absurd rfl hne

theorem MergePass.sortedRuns (h : TotalPreorder le) {w : Nat} {l l' : List α}
    (hp : MergePass le w l l') (hl : SortedRuns le w l) : SortedRuns le (2 * w) l' := by
  induction hp with
  | nil => intro k; simp
  | @cons l rest _ hrest ih =>
      have hsorted : (List.merge (l.take w) ((l.drop w).take w) le).Pairwise
          (fun a b => le a b = true) :=
        List.pairwise_merge h.trans h.total _ _ (by simpa using hl 0) (by simpa using hl 1)
      have hlen : (List.merge (l.take w) ((l.drop w).take w) le).length
          = min (2 * w) l.length := by
        rw [List.length_merge, ← List.length_append, take_append_take_drop, List.length_take]
      by_cases hshort : l.length ≤ 2 * w
      · -- a single, possibly short, run is left
        rw [List.drop_eq_nil_of_le hshort] at hrest
        rw [hrest.of_nil, List.append_nil]
        exact fun k => (hsorted.sublist (List.drop_sublist _ _)).sublist (List.take_sublist _ _)
      · have hfull : (List.merge (l.take w) ((l.drop w).take w) le).length = 2 * w := by omega
        intro k
        cases k with
        | zero => simpa [List.take_append_of_le_length, ← hfull] using hsorted
        | succ k =>
            have hdrop : (k + 1) * (2 * w)
                = (List.merge (l.take w) ((l.drop w).take w) le).length + k * (2 * w) := by
              rw [hfull, Nat.add_mul, Nat.one_mul, Nat.add_comm]
            rw [hdrop, List.drop_length_add_append]
            exact ih (hl.drop 2) k

/-- Passes over runs of length `1, 2, 4, …` that end once a single run is
left give the stable sort of the input. -/
theorem MergePass.stableSorted (h : TotalPreorder le) {w : Nat} {l₀ l l' : List α}
    (hp : MergePass le w l l') (hl : SortedRuns le w l) (hlen : l.length ≤ 2 * w)
    (hperm : l.Perm l₀) (hst : ∀ x, l.filter (cls le x) = l₀.filter (cls le x)) :
    StableSorted le l₀ l' :=
  ⟨hp.perm.trans hperm,
    (hp.sortedRuns h hl).sorted (hp.perm.length_eq ▸ hlen),
    fun x => (hp.stable h hl x).trans (hst x)⟩

end StableSort
