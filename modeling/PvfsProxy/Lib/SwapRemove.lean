import Mathlib.Algebra.Order.Ring.Int
import Mathlib.Algebra.Order.BigOperators.Group.List
import Mathlib.Data.Finset.Prod
import Mathlib.Data.Int.Interval
import Mathlib.Tactic.Abel
import Mathlib.Data.List.TakeWhile
import Mathlib.Data.List.Pairwise
import Mathlib.Data.List.Induction
import Mathlib.Data.List.Perm.Basic

/-!
# Filling a hole with the last entry

A table of `n` entries, kept as a function of the position, loses the entry
at `k` when the last entry is moved there and the table ends one earlier.
`swapRemove_perm` says that exactly the entry at `k` is gone.
-/

namespace SwapRemove

variable {α : Type*}

/-- The first `n` entries of a table. -/
def entries (f : Nat → α) (n : Nat) : List α := (List.range n).map f

/-- The last of `n + 1` entries moved to `k`. -/
def swapRemove (f : Nat → α) (n k : Nat) : Nat → α := Function.update f k (f n)

theorem mem_entries {f : Nat → α} {n : Nat} {a : α} :
    a ∈ entries f n ↔ ∃ k < n, f k = a := by
  simp [entries]

theorem entries_congr {f g : Nat → α} {n : Nat} (h : ∀ k < n, f k = g k) :
    entries f n = entries g n := by
  unfold entries
  refine List.map_congr_left fun k hk => h k ?_
  simpa using hk

theorem entries_succ (f : Nat → α) (n : Nat) : entries f (n + 1) = entries f n ++ [f n] := by
  simp [entries, List.range_succ]

/-- Overwriting one entry exchanges it. -/
theorem update_perm (f : Nat → α) {n k : Nat} (hk : k < n) (a : α) :
    (f k :: entries (Function.update f k a) n).Perm (a :: entries f n) := by
  induction n with
  | zero => omega
  | succ n ih =>
      rw [entries_succ, entries_succ]
      by_cases hlast : k = n
      · subst hlast
        have hsame : entries (Function.update f k a) k = entries f k :=
          entries_congr fun j hj => Function.update_of_ne (by omega) _ _
        rw [hsame, Function.update_self]
        exact ((List.perm_append_singleton _ _).cons _).trans
          ((List.Perm.swap _ _ _).trans ((List.perm_append_singleton _ _).symm.cons _))
      · rw [Function.update_of_ne (Ne.symm hlast), ← List.cons_append, ← List.cons_append]
        exact (ih (by omega)).append_right _

/-- **Exactly the entry at `k` is gone.** -/
theorem swapRemove_perm (f : Nat → α) {n k : Nat} (hk : k ≤ n) :
    (f k :: entries (swapRemove f n k) n).Perm (entries f (n + 1)) := by
  rw [entries_succ]
  rcases Nat.lt_or_eq_of_le hk with hlt | rfl
  · exact (update_perm f hlt (f n)).trans (List.perm_append_singleton _ _).symm
  · have hsame : entries (swapRemove f k k) k = entries f k :=
      entries_congr fun j hj => Function.update_of_ne (by omega) _ _
    rw [hsame]
    exact (List.perm_append_singleton _ _).symm

end SwapRemove
