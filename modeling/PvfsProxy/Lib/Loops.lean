import PvfsProxy.Lib.Machine

/-!
# Loops with a bound on their turns

`whileLoop cond body n s` runs `while (cond) body` from `s` for at most `n`
turns. The body may fault, and a loop that has used its turns up stops as
`unfinished`, which keeps a loop that does not end apart from one that goes
wrong.

`Ends r Q X` is the triple the loops are verified with: the computation `r`
returns in `Q`, or it stops in `X`. `Ends.loop` is the rule for the loop, with
an invariant that says how much is left to go: with more turns than that the
loop is not unfinished, and with fewer its result, if there is one, is still
the right one.
-/

namespace Loops

variable {F S α β : Type*}

/-- Why a computation with loops has no result. -/
inductive Stop (F : Type*) where
  | fault (f : F)
  | unfinished
deriving DecidableEq

/-- `while (cond) body`, for at most so many turns. -/
def whileLoop (cond : S → Bool) (body : S → Except (Stop F) S) : Nat → S → Except (Stop F) S
  | 0, s => if cond s then .error .unfinished else .ok s
  | n + 1, s =>
    if cond s then
      match body s with
      | .ok t => whileLoop cond body n t
      | .error e => .error e
    else .ok s

/-- `r` returns in `Q` or stops in `X`. -/
def Ends (r : Except F α) (Q : α → Prop) (X : F → Prop) : Prop :=
  match r with
  | .ok a => Q a
  | .error e => X e

section Ends

universe u

variable {α β : Type u} {r : Except F α} {f : α → Except F β} {P Q : α → Prop} {R : β → Prop}
  {X Y : F → Prop}

theorem Ends.mono (h : Ends r P X) (hQ : ∀ a, P a → Q a) (hY : ∀ e, X e → Y e) :
    Ends r Q Y := by
  cases r with
  | ok a => exact hQ a h
  | error e => exact hY e h

theorem Ends.bind (h : Ends r P X) (hf : ∀ a, P a → Ends (f a) R X) : Ends (r >>= f) R X := by
  cases r with
  | ok a => exact hf a h
  | error e => exact h

theorem ok_bind (a : α) (f : α → Except F β) : (Except.ok a >>= f) = f a := rfl

/-- The result of a computation that returns is the one its triple promises. -/
theorem Ends.of_ok (h : Ends r Q X) {a : α} (hr : r = .ok a) : Q a := by
  subst hr
  exact h

theorem Ends.exists_ok (h : Ends r Q X) (hX : ∀ e, ¬ X e) : ∃ a, r = .ok a ∧ Q a := by
  cases r with
  | ok a => exact ⟨a, rfl, h⟩
  | error e => exact absurd h (hX e)

end Ends

theorem whileLoop_done {cond : S → Bool} {body : S → Except (Stop F) S} {s : S}
    (h : cond s = false) : ∀ n, whileLoop cond body n s = .ok s
  | 0 => by simp [whileLoop, h]
  | n + 1 => by simp [whileLoop, h]

/-- A loop that goes on has the result of its rest. -/
theorem exists_whileLoop_iff {cond : S → Bool} {body : S → Except (Stop F) S} {s u : S}
    (h : cond s = true) : (∃ n, whileLoop cond body n s = .ok u)
      ↔ ∃ t, body s = .ok t ∧ ∃ n, whileLoop cond body n t = .ok u := by
  constructor
  · rintro ⟨_ | n, hn⟩
    · rw [whileLoop, if_pos h] at hn
      cases hn
    · rw [whileLoop, if_pos h] at hn
      cases hb : body s with
      | ok t => exact ⟨t, rfl, n, by rwa [hb] at hn⟩
      | error e =>
          rw [hb] at hn
          cases hn
  · rintro ⟨t, hb, n, hn⟩
    exact ⟨n + 1, by rw [whileLoop, if_pos h, hb]; exact hn⟩

/-- What every turn keeps holds of the result, where the condition does not. -/
theorem whileLoop_invariant {cond : S → Bool} {body : S → Except (Stop F) S} {I : S → Prop}
    (hbody : ∀ s t, I s → cond s = true → body s = .ok t → I t) :
    ∀ {n : Nat} {s t : S}, I s → whileLoop cond body n s = .ok t → I t ∧ cond t = false
  | n, s, t, hs, h => by
      rcases hc : cond s with _ | _
      · rw [whileLoop_done hc] at h
        obtain rfl := Except.ok.inj h
        exact ⟨hs, hc⟩
      · cases n with
        | zero =>
            rw [whileLoop, if_pos hc] at h
            cases h
        | succ n =>
            rw [whileLoop, if_pos hc] at h
            cases hb : body s with
            | ok u =>
                rw [hb] at h
                exact whileLoop_invariant hbody (hbody s u hs hc hb) h
            | error e =>
                rw [hb] at h
                cases h

/-- The rule for the loop: `I k` is the invariant with `k` left to go, and a
turn keeps it with less to go, or stops in `X`. -/
theorem Ends.loop {cond : S → Bool} {body : S → Except (Stop F) S} {I : Nat → S → Prop}
    {X : Stop F → Prop}
    (hbody : ∀ k s, I k s → cond s = true → Ends (body s) (fun t => ∃ j < k, I j t) X) :
    ∀ {n k : Nat} {s : S}, I k s → Ends (whileLoop cond body n s)
      (fun t => cond t = false ∧ ∃ j, I j t) (fun e => X e ∨ e = .unfinished ∧ n ≤ k)
  | n, k, s, hs => by
      rcases hc : cond s with _ | _
      · rw [whileLoop_done hc]
        exact ⟨hc, k, hs⟩
      · cases n with
        | zero =>
            rw [whileLoop, if_pos hc]
            exact .inr ⟨rfl, Nat.zero_le _⟩
        | succ n =>
            have hturn := hbody k s hs hc
            rw [whileLoop, if_pos hc]
            cases hb : body s with
            | ok t =>
                rw [hb] at hturn
                obtain ⟨j, hlt, ht⟩ := hturn
                exact (Ends.loop hbody ht).mono (fun _ h => h) fun e he =>
                  he.imp_right fun ⟨hu, hle⟩ => ⟨hu, by omega⟩
            | error e =>
                rw [hb] at hturn
                exact .inl hturn

end Loops
