import Mathlib.Algebra.Order.BigOperators.Group.List
import Mathlib.Data.List.Pairwise

/-!
# Quantiles by running sums

A scan through a sorted list adds its elements up and stops at the one that takes the sum
to a bound, or at the last. What it finds does not depend on the scan: the elements below
it do not add up to the bound, those up to it do (`Quantile`). Where it is not the largest
element, the bound and any larger element fit into the sum of the list together
(`Quantile.add_le`).
-/

namespace CumulativeQuantile

variable {α : Type*} [AddCommMonoid α] [LinearOrder α]

/-- The element that takes the running sum to `bound`, or the last one. -/
def scan (bound : α) : List α → α → Option α
  | [], _ => none
  | a :: l, sum => if bound ≤ sum + a then some a else (scan bound l (sum + a)).or (some a)

/-- `v` is where the sum of the elements of `l`, the smallest first, comes to `bound`. -/
structure Quantile (l : List α) (bound v : α) : Prop where
  mem : v ∈ l
  below : (∀ a ∈ l, v ≤ a) ∨ (l.filter (· < v)).sum < bound
  upto : (∀ a ∈ l, a ≤ v) ∨ bound ≤ (l.filter (· ≤ v)).sum

variable {l l' : List α} {bound v : α}

theorem scan_isSome (bound : α) (hne : l ≠ []) (sum : α) : (scan bound l sum).isSome = true := by
  cases l with
  | nil => exact absurd rfl hne
  | cons a l =>
      rw [scan]
      split
      · rfl
      · rw [Option.isSome_or, Option.isSome_some, Bool.or_true]

theorem Quantile.of_perm (h : Quantile l bound v) (hperm : l.Perm l') : Quantile l' bound v where
  mem := hperm.subset h.mem
  below := by
    rw [← (hperm.filter _).sum_eq]
    exact h.below.imp_left fun hle a ha => hle a (hperm.symm.subset ha)
  upto := by
    rw [← (hperm.filter _).sum_eq]
    exact h.upto.imp_left fun hle a ha => hle a (hperm.symm.subset ha)

section ordered

variable [IsOrderedAddMonoid α]

/-- The elements before `a` are those below it, but for equal ones. -/
theorem below_of_split {done rest : List α} {a : α}
    (hsorted : (done ++ a :: rest).Pairwise (· ≤ ·)) (hnonneg : ∀ b ∈ done, 0 ≤ b)
    (hbefore : done ≠ [] → done.sum < bound) :
    (∀ b ∈ done ++ a :: rest, a ≤ b)
      ∨ ((done ++ a :: rest).filter (· < a)).sum < bound := by
  obtain ⟨-, hrest, -⟩ := List.pairwise_append.mp hsorted
  have hle := (List.pairwise_cons.mp hrest).1
  by_cases hdone : done = []
  · subst hdone
    exact .inl (List.forall_mem_cons.mpr ⟨le_refl a, hle⟩)
  · have hnone : (a :: rest).filter (· < a) = [] := by
      refine List.filter_eq_nil_iff.mpr fun b hb => ?_
      rw [decide_eq_true_eq, not_lt]
      exact (List.forall_mem_cons.mpr ⟨le_refl a, hle⟩ : ∀ b ∈ a :: rest, a ≤ b) b hb
    right
    rw [List.filter_append, hnone, List.append_nil]
    exact (List.filter_sublist.sum_le_sum hnonneg).trans_lt (hbefore hdone)

theorem scan_quantile_from {rest : List α} : ∀ (done : List α),
    (done ++ rest).Pairwise (· ≤ ·) → (∀ a ∈ done ++ rest, 0 ≤ a) →
    (done ≠ [] → done.sum < bound) → scan bound rest done.sum = some v →
    Quantile (done ++ rest) bound v := by
  induction rest with
  | nil =>
      intro done _ _ _ h
      cases h
  | cons a rest ih =>
      intro done hsorted hnonneg hbefore h
      have hdone : ∀ b ∈ done, 0 ≤ b := fun b hb => hnonneg b (List.mem_append_left _ hb)
      have hbelow := below_of_split hsorted hdone hbefore
      have ha : ∀ b ∈ done, b ≤ a := fun b hb =>
        (List.pairwise_append.mp hsorted).2.2 b hb a List.mem_cons_self
      have hsplit : done ++ a :: rest = (done ++ [a]) ++ rest := by simp
      rw [scan] at h
      split at h
      · -- the sum comes to the bound here
        rename_i hbound
        obtain rfl := Option.some.inj h
        refine ⟨List.mem_append_right _ List.mem_cons_self, hbelow, .inr ?_⟩
        have hall : (done ++ [a]).filter (· ≤ a) = done ++ [a] := by
          refine List.filter_eq_self.mpr fun b hb => decide_eq_true ?_
          rcases List.mem_append.mp hb with hb | hb
          · exact ha b hb
          · exact (List.mem_singleton.mp hb).le
        have hsub : (done ++ [a]).Sublist ((done ++ a :: rest).filter (· ≤ a)) := by
          rw [hsplit, List.filter_append, hall]
          exact List.sublist_append_left _ _
        have hle : (done ++ [a]).sum ≤ ((done ++ a :: rest).filter (· ≤ a)).sum :=
          hsub.sum_le_sum fun b hb => hnonneg b (List.mem_filter.mp hb).1
        rw [List.sum_append, List.sum_singleton] at hle
        exact hbound.trans hle
      · rename_i hbound
        cases hfound : scan bound rest (done.sum + a) with
        | none =>
            -- `a` is the last one
            rw [hfound] at h
            obtain rfl := Option.some.inj h
            have hlast : rest = [] := by
              by_contra hne
              have hsome := scan_isSome bound hne (done.sum + a)
              rw [hfound] at hsome
              cases hsome
            subst hlast
            refine ⟨List.mem_append_right _ List.mem_cons_self, hbelow, .inl fun b hb => ?_⟩
            rcases List.mem_append.mp hb with hb | hb
            · exact ha b hb
            · exact (List.mem_singleton.mp hb).le
        | some w =>
            rw [hfound] at h
            obtain rfl := Option.some.inj h
            rw [hsplit] at hsorted hnonneg ⊢
            refine ih (done ++ [a]) hsorted hnonneg (fun _ => ?_) ?_
            · rw [List.sum_append, List.sum_singleton]
              exact not_le.mp hbound
            · rw [List.sum_append, List.sum_singleton]
              exact hfound

/-- **What the scan of a sorted list finds.** -/
theorem scan_quantile (hsorted : l.Pairwise (· ≤ ·)) (hnonneg : ∀ a ∈ l, 0 ≤ a)
    (h : scan bound l 0 = some v) : Quantile l bound v :=
  scan_quantile_from [] hsorted hnonneg (fun hne => absurd rfl hne) h

/-- The bound and a larger element fit into the sum. -/
theorem Quantile.add_le (h : Quantile l bound v) (hnonneg : ∀ a ∈ l, 0 ≤ a) {t : α} (ht : t ∈ l)
    (hlt : v < t) : bound + t ≤ l.sum := by
  have hbound := h.upto.resolve_left fun hle => (hle t ht).not_gt hlt
  have hsub : ((l.filter (· ≤ v)) ++ [t]).Subperm l := by
    obtain ⟨before, after, rfl⟩ := List.append_of_mem ht
    have hnone : [t].filter (· ≤ v) = [] := by simpa using hlt
    have hfilter : (before ++ t :: after).filter (· ≤ v)
        = before.filter (· ≤ v) ++ after.filter (· ≤ v) := by
      rw [List.filter_append, List.filter_cons_of_neg (by simpa using hlt)]
    rw [hfilter]
    refine (List.perm_append_singleton _ _).subperm.trans ?_
    refine List.Subperm.trans ?_ (List.perm_middle.symm.subperm)
    refine (List.subperm_cons t).mpr ?_
    exact (List.filter_sublist.append List.filter_sublist).subperm
  obtain ⟨l₁, hperm, hsublist⟩ := hsub
  have hle := hsublist.sum_le_sum hnonneg
  rw [hperm.sum_eq, List.sum_append, List.sum_singleton] at hle
  exact (add_le_add_left hbound t).trans hle

end ordered

end CumulativeQuantile
