import Mathlib.Algebra.Order.Ring.Int
import Mathlib.Algebra.Order.BigOperators.Group.List
import Mathlib.Data.Finset.Prod
import Mathlib.Data.Int.Interval
import Mathlib.Tactic.Abel
import Mathlib.Data.List.TakeWhile
import Mathlib.Data.List.Pairwise
import Mathlib.Data.List.Induction
import Mathlib.Data.List.Perm.Basic

/-!
# Machines that may fault

A machine is a step function `step : S → E → Except F S`: an event either
leads to the next state or faults, and a fault ends the run. `Run ok step s
es t` says that the events `es`, each allowed by `ok` in the state it meets,
lead from `s` to `t` without a fault.

`Run.invariant` is the one induction clients need for what holds in every
reachable state; `Run.append` and `Run.split` cut a run at an inner state.
`exec` runs a list of events, and `Run.exists_of_exec` turns an evaluated
execution into a run.
-/

namespace Machine

universe u

variable {S E F : Type*}

/-- A computation in sequence returns exactly when both parts do. -/
theorem bind_eq_ok {α β : Type u} {x : Except F α} {f : α → Except F β} {b : β} :
    (x >>= f) = .ok b ↔ ∃ a, x = .ok a ∧ f a = .ok b := by
  cases x with
  | error e => simp [bind, Except.bind]
  | ok a => simp [bind, Except.bind]

theorem bind_returns {α β : Type u} {x : Except F α} {f : α → Except F β} {a : α}
    (hx : x = .ok a) (hf : ∃ b, f a = .ok b) : ∃ b, (x >>= f) = .ok b := by
  obtain ⟨b, hb⟩ := hf
  exact ⟨b, bind_eq_ok.mpr ⟨a, hx, hb⟩⟩

/-- What follows a computation matters only where it returns. -/
theorem bind_congr_ok {α β : Type u} {x : Except F α} {f g : α → Except F β}
    (h : ∀ a, x = .ok a → f a = g a) : (x >>= f) = (x >>= g) := by
  cases x with
  | error e => rfl
  | ok a => exact h a rfl

/-- Nothing follows a fault. -/
theorem throw_bind_congr {α β : Type u} {e : F} {f g : α → Except F β} :
    ((throw e : Except F α) >>= f) = ((throw e : Except F α) >>= g) := rfl

theorem pure_eq_ok {α : Type*} {a b : α} :
    (pure a : Except F α) = .ok b ↔ a = b := by
  simp [pure, Except.pure]

/-- The allowed events `es` lead from `s` to the last index. -/
inductive Run (ok : S → E → Prop) (step : S → E → Except F S) (s : S) :
    List E → S → Prop where
  | nil : Run ok step s [] s
  | snoc {es : List E} {t u : S} {e : E} (h : Run ok step s es t) (hok : ok t e)
      (hstep : step t e = .ok u) : Run ok step s (es ++ [e]) u

variable {ok ok' : S → E → Prop} {step : S → E → Except F S}

/-- What holds at the start and survives every allowed step holds throughout. -/
theorem Run.invariant {P : S → Prop} {s t : S} {es : List E} (h : Run ok step s es t)
    (h0 : P s) (hstep : ∀ t e u, P t → ok t e → step t e = .ok u → P u) : P t := by
  induction h with
  | nil => exact h0
  | snoc _ hok hs ih => exact hstep _ _ _ ih hok hs

theorem Run.single {s u : S} {e : E} (hok : ok s e) (hs : step s e = .ok u) :
    Run ok step s [e] u := .snoc .nil hok hs

theorem Run.append {s t u : S} {es es' : List E} (h : Run ok step s es t)
    (h' : Run ok step t es' u) : Run ok step s (es ++ es') u := by
  induction h' with
  | nil => simpa using h
  | snoc _ hok hs ih => rw [← List.append_assoc]; exact .snoc ih hok hs

/-- The events of a run determine where it ends. -/
theorem Run.unique {s t u : S} {es : List E} (h : Run ok step s es t) (h' : Run ok' step s es u) :
    t = u := by
  induction h generalizing u with
  | nil =>
      generalize hl : ([] : List E) = l at h'
      cases h' with
      | nil => rfl
      | snoc => exact absurd hl.symm (by simp)
  | @snoc es t v e _ _ hstep ih =>
      generalize hl : es ++ [e] = l at h'
      cases h' with
      | nil => simp at hl
      | snoc h' _ hstep' =>
          obtain ⟨rfl, he⟩ := List.append_inj' hl rfl
          obtain rfl := (List.cons.inj he).1
          obtain rfl := ih h'
          exact Except.ok.inj (hstep.symm.trans hstep')

/-- A run over `es ++ es'` passes through a state reached by `es`. -/
theorem Run.split {s u : S} {es es' : List E} (h : Run ok step s (es ++ es') u) :
    ∃ t, Run ok step s es t ∧ Run ok step t es' u := by
  induction es' using List.reverseRecOn generalizing u with
  | nil => exact ⟨u, by simpa using h, .nil⟩
  | append_singleton es' e ih =>
      rw [← List.append_assoc] at h
      generalize hl : (es ++ es') ++ [e] = l at h
      cases h with
      | nil => simp at hl
      | snoc h hok hs =>
          obtain ⟨rfl, rfl⟩ := List.append_inj' hl rfl |>.imp id (List.cons.inj · |>.1)
          obtain ⟨t, h₁, h₂⟩ := ih h
          exact ⟨t, h₁, .snoc h₂ hok hs⟩

/-- A run under a stricter discipline is a run under a laxer one. -/
theorem Run.mono {s t : S} {es : List E} (h : Run ok step s es t)
    (hok : ∀ s e, ok s e → ok' s e) : Run ok' step s es t := by
  induction h with
  | nil => exact .nil
  | snoc _ ho hs ih => exact .snoc ih (hok _ _ ho) hs

/-- Running the events one after the other; `none` on a fault and on an event
that is not allowed. -/
def exec (ok : S → E → Prop) [∀ s e, Decidable (ok s e)] (step : S → E → Except F S) :
    S → List E → Option S
  | s, [] => some s
  | s, e :: es =>
    if ok s e then
      match step s e with
      | .ok t => exec ok step t es
      | .error _ => none
    else none

theorem Run.of_exec [∀ s e, Decidable (ok s e)] :
    ∀ {es : List E} {s t : S}, exec ok step s es = some t → Run ok step s es t
  | [], s, t, h => by
      obtain rfl := Option.some.inj h
      exact .nil
  | e :: es, s, t, h => by
      rw [exec] at h
      split at h
      · rename_i hok
        split at h
        · rename_i u hu
          exact (Run.single hok hu).append (of_exec h)
        · cases h
      · cases h

/-- What an observation of the executed run shows holds of a run's end. -/
theorem Run.exists_of_exec (ok : S → E → Prop) [∀ s e, Decidable (ok s e)]
    (step : S → E → Except F S) (s : S) (es : List E) {α : Type*} (f : S → α) {a : α}
    (h : (exec ok step s es).map f = some a) :
    ∃ t, Run ok step s es t ∧ f t = a := by
  obtain ⟨t, ht, rfl⟩ := Option.map_eq_some_iff.mp h
  exact ⟨t, .of_exec ht, rfl⟩

end Machine
