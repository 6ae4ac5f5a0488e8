import Mathlib.Logic.Relation
import Mathlib.Order.Basic
import Mathlib.Data.List.Infix
import PvfsProxy.Lib.Machine

/-!
# Formats and the walks over them

A *format* relates the position where something begins to the position behind
it. Formats are sequenced with `Relation.Comp`; `optional` and `Repeated` are
what a message makes of its flags and counts.

`Checked e x R` says what a computation with checked accesses does: it returns
the values of `R`, each and no others, and where `R` has none it fails with
`e`. The rules follow a `do` block. `Walks e w R` is the same of a walk from
position to position over a format that does not lead backwards.

`SitsAt` places a piece of a text, for the way from an encoding to its format.

A client whose computations also fail otherwise asks whether `e` is avoided,
and `Checked.bind_ne` reads that off one step at a time.
-/

namespace Formats

universe u

variable {F : Type*} {α β : Type u} {e : F} {x : Except F α} {f : α → Except F β}

/-- Whether a computation fails in a given way can be tested, whatever it returns. -/
instance decidableFails {γ : Type*} [DecidableEq F] (y : Except F γ) (e : F) :
    Decidable (y = .error e) :=
  match y with
  | .ok _ => .isFalse (by simp)
  | .error e' => decidable_of_iff (e' = e) (by simp)

/-- The computation returns the values of `R`, and fails with `e` without any. -/
structure Checked (e : F) (x : Except F α) (R : α → Prop) : Prop where
  ok_iff (a : α) : x = .ok a ↔ R a
  error_eq {e' : F} : x = .error e' → e' = e

section Checked

variable {R : α → Prop} {S : α → β → Prop}

theorem Checked.error_iff (h : Checked e x R) : x = .error e ↔ ∀ a, ¬ R a := by
  constructor
  · intro hx a ha
    cases hx.symm.trans ((h.ok_iff a).mpr ha)
  · intro hnone
    rcases hx : x with e' | a
    · rw [h.error_eq hx]
    · exact absurd ((h.ok_iff a).mp hx) (hnone a)

theorem Checked.ne_iff (h : Checked e x R) : x ≠ .error e ↔ ∃ a, R a := by
  simp [h.error_iff]

theorem Checked.congr {R' : α → Prop} (h : Checked e x R) (hR : ∀ a, R a ↔ R' a) :
    Checked e x R' :=
  ⟨fun a => (h.ok_iff a).trans (hR a), h.error_eq⟩

theorem Checked.unique {a b : α} (h : Checked e x R) (ha : R a) (hb : R b) : a = b :=
  Except.ok.inj (((h.ok_iff a).mpr ha).symm.trans ((h.ok_iff b).mpr hb))

theorem Checked.pure (a : α) : Checked e (pure a) fun b => b = a :=
  ⟨fun b => by simp [Pure.pure, Except.pure, eq_comm], by simp [Pure.pure, Except.pure]⟩

theorem Checked.guard (c : Prop) [Decidable c] (a : α) :
    Checked e (if c then .ok a else .error e) fun b => c ∧ b = a := by
  by_cases hc : c
  · exact ⟨fun b => by simp [hc, eq_comm], by simp [hc]⟩
  · exact ⟨fun b => by simp [hc], by simp [hc, eq_comm]⟩

theorem Checked.bind (h : Checked e x R) (hf : ∀ a, R a → Checked e (f a) (S a)) :
    Checked e (x >>= f) fun b => ∃ a, R a ∧ S a b := by
  constructor
  · intro b
    rw [Machine.bind_eq_ok]
    refine exists_congr fun a => ?_
    rw [h.ok_iff]
    exact and_congr_right fun ha => (hf a ha).ok_iff b
  · intro e' hx
    rcases hx' : x with e'' | a
    · rw [hx'] at hx
      obtain rfl := Except.error.inj hx
      exact h.error_eq hx'
    · rw [hx'] at hx
      exact (hf a ((h.ok_iff a).mp hx')).error_eq hx

theorem Checked.ite (c : Prop) [Decidable c] {y : Except F α} {R' : α → Prop}
    (h : c → Checked e x R) (h' : ¬ c → Checked e y R') :
    Checked e (if c then x else y) fun a => if c then R a else R' a := by
  by_cases hc : c
  · simpa only [hc, if_true] using h hc
  · simpa only [hc, if_false] using h' hc

/-- A sequence avoids the fault when its first part returns and what follows avoids it. -/
theorem Checked.bind_ne (h : Checked e x R) :
    (x >>= f) ≠ .error e ↔ ∃ a, R a ∧ f a ≠ .error e := by
  rcases hx : x with e' | a
  · have hnone : ∀ a, ¬ R a := h.error_iff.mp (by rw [hx, h.error_eq hx])
    obtain rfl := h.error_eq hx
    simp [Bind.bind, Except.bind, hnone]
  · have honly : ∀ b, R b ↔ b = a := fun b => by rw [← h.ok_iff, hx]; simp [eq_comm]
    simp [Bind.bind, Except.bind, honly]

/-- A sequence returns when its first part does and what follows returns. -/
theorem Checked.bind_eq_ok (h : Checked e x R) {b : β} :
    (x >>= f) = .ok b ↔ ∃ a, R a ∧ f a = .ok b := by
  simp only [Machine.bind_eq_ok, h.ok_iff]

/-- A walk that also returns a value it has read. -/
theorem Checked.bind_value_eq_ok {γ : Type u} {y : Except F (α × γ)} {v : γ}
    {g : α × γ → Except F β} (h : Checked e y fun r => R r.1 ∧ r.2 = v) {b : β} :
    (y >>= g) = .ok b ↔ ∃ a, R a ∧ g (a, v) = .ok b := by
  rw [h.bind_eq_ok]
  constructor
  · rintro ⟨⟨a, _⟩, ⟨ha, rfl⟩, hg⟩
    exact ⟨a, ha, hg⟩
  · rintro ⟨a, ha, hg⟩
    exact ⟨(a, v), ⟨ha, rfl⟩, hg⟩

theorem Checked.bind_value_ne {γ : Type u} {y : Except F (α × γ)} {v : γ}
    {g : α × γ → Except F β} (h : Checked e y fun r => R r.1 ∧ r.2 = v) :
    (y >>= g) ≠ .error e ↔ ∃ a, R a ∧ g (a, v) ≠ .error e := by
  rw [h.bind_ne]
  constructor
  · rintro ⟨⟨a, _⟩, ⟨ha, rfl⟩, hg⟩
    exact ⟨a, ha, hg⟩
  · rintro ⟨a, ha, hg⟩
    exact ⟨(a, v), ⟨ha, rfl⟩, hg⟩

/-- What only changes the value does not fail. -/
theorem bind_pure_ne {g : α → β} :
    (x >>= fun a => Pure.pure (g a)) ≠ .error e ↔ x ≠ .error e := by
  cases x <;> simp [Bind.bind, Except.bind, Pure.pure, Except.pure]

end Checked

/-! ## Formats -/

abbrev Format := Int → Int → Prop

/-- There only under a condition. -/
def optional (c : Prop) (R : Format) : Format := fun p q => c ∧ R p q ∨ ¬ c ∧ q = p

/-- So many times in a row. -/
inductive Repeated (R : Format) : Nat → Format where
  | none (p : Int) : Repeated R 0 p p
  | more {n : Nat} {p m q : Int} (h : R p m) (hs : Repeated R n m q) : Repeated R (n + 1) p q

theorem repeated_zero {R : Format} {p q : Int} : Repeated R 0 p q ↔ q = p := by
  constructor
  · rintro ⟨⟩
    rfl
  · rintro rfl
    exact .none q

theorem repeated_succ {R : Format} {n : Nat} {p q : Int} :
    Repeated R (n + 1) p q ↔ Relation.Comp R (Repeated R n) p q := by
  constructor
  · rintro (_ | ⟨h, hs⟩)
    exact ⟨_, h, hs⟩
  · rintro ⟨m, h, hs⟩
    exact .more h hs

/-- A walk of so many equal steps. -/
def iterate (w : Int → Except F Int) : Nat → Int → Except F Int
  | 0, p => pure p
  | n + 1, p => w p >>= iterate w n

/-- Something of the format begins at `p`. -/
def Fits (R : Format) (p : Int) : Prop := ∃ q, R p q

theorem fits_comp {R S : Format} {p : Int} :
    Fits (Relation.Comp R S) p ↔ ∃ q, R p q ∧ Fits S q := by
  constructor
  · rintro ⟨r, q, hR, hS⟩
    exact ⟨q, hR, r, hS⟩
  · rintro ⟨q, hR, r, hS⟩
    exact ⟨r, q, hR, hS⟩

/-- `w` walks over the format `R`. -/
structure Walks (e : F) (w : Int → Except F Int) (R : Format) : Prop where
  forward {p q : Int} : R p q → p ≤ q
  checked {p : Int} : 0 ≤ p → Checked e (w p) (R p)

section Walks

variable {β : Type} {w w' : Int → Except F Int} {R R' : Format}

theorem Walks.comp (h : Walks e w R) (h' : Walks e w' R') :
    Walks e (fun p => w p >>= w') (Relation.Comp R R') where
  forward := fun ⟨_, hR, hR'⟩ => (h.forward hR).trans (h'.forward hR')
  checked := fun hp => (h.checked hp).bind fun _ hm => h'.checked (hp.trans (h.forward hm))

theorem Walks.optional (c : Prop) [Decidable c] (h : Walks e w R) :
    Walks e (fun p => if c then w p else pure p) (optional c R) where
  forward := by
    rintro p q (⟨-, hR⟩ | ⟨-, rfl⟩)
    · exact h.forward hR
    · exact le_rfl
  checked := by
    intro p hp
    refine (Checked.ite c (fun _ => h.checked hp) fun _ => Checked.pure p).congr fun q => ?_
    by_cases hc : c <;> simp [Formats.optional, hc]

theorem Walks.congr {S : Format} (h : Walks e w R) (hR : ∀ p q, R p q ↔ S p q) : Walks e w S where
  forward := fun hS => h.forward ((hR _ _).mpr hS)
  checked := fun hp => (h.checked hp).congr (hR _)

theorem Walks.iterate (h : Walks e w R) (n : Nat) : Walks e (iterate w n) (Repeated R n) := by
  induction n with
  | zero =>
    exact ⟨fun hq => (repeated_zero.mp hq).ge,
      fun _ => (Checked.pure _).congr fun _ => repeated_zero.symm⟩
  | succ n ih => exact (h.comp ih).congr fun _ _ => repeated_succ.symm

/-- A walk and what follows avoid the fault where both formats fit. -/
theorem Walks.bind_fits {p : Int} {f : Int → Except F β} (h : Walks e w R) (hp : 0 ≤ p)
    (hf : ∀ q, 0 ≤ q → (f q ≠ .error e ↔ Fits R' q)) :
    (w p >>= f) ≠ .error e ↔ Fits (Relation.Comp R R') p := by
  rw [(h.checked hp).bind_ne, fits_comp]
  exact exists_congr fun q => and_congr_right fun hq => hf q (hp.trans (h.forward hq))

theorem Walks.bind_pure_fits {p : Int} {b : β} (h : Walks e w R) (hp : 0 ≤ p) :
    (w p >>= fun _ => pure b) ≠ .error e ↔ Fits R p := by
  rw [(h.checked hp).bind_ne]
  simp [Fits, Pure.pure, Except.pure]

end Walks

/-! ## Texts -/

/-- `s` sits at position `p` of `text`. -/
def SitsAt {γ : Type*} (text : List γ) (p : Int) (s : List γ) : Prop :=
  0 ≤ p ∧ s <+: text.drop p.toNat

section SitsAt

variable {γ : Type*} {text s t : List γ} {p : Int}

theorem SitsAt.self (text : List γ) : SitsAt text 0 text := ⟨le_rfl, by simp⟩

theorem SitsAt.append :
    SitsAt text p (s ++ t) ↔ SitsAt text p s ∧ SitsAt text (p + s.length) t := by
  constructor
  · rintro ⟨hp, rest, hrest⟩
    refine ⟨⟨hp, t ++ rest, by rw [← hrest, List.append_assoc]⟩, by omega, rest, ?_⟩
    rw [show (p + s.length).toNat = p.toNat + s.length by omega, ← List.drop_drop, ← hrest,
      List.append_assoc, List.drop_left]
  · rintro ⟨⟨hp, rest, hrest⟩, -, rest', hrest'⟩
    refine ⟨hp, rest', ?_⟩
    rw [show (p + s.length).toNat = p.toNat + s.length by omega, ← List.drop_drop, ← hrest,
      List.drop_left] at hrest'
    rw [List.append_assoc, hrest', hrest]

theorem SitsAt.take (h : SitsAt text p s) : (text.drop p.toNat).take s.length = s :=
  (List.prefix_iff_eq_take.mp h.2).symm

theorem SitsAt.length_le (h : SitsAt text p s) (hs : s ≠ []) : p + s.length ≤ text.length := by
  have hle := h.2.length_le
  have hpos := List.length_pos_iff.mpr hs
  have hp := h.1
  simp only [List.length_drop] at hle
  omega

end SitsAt

end Formats
