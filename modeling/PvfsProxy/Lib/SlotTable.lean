import Mathlib.Data.List.Basic
import Mathlib.Data.List.Nodup
import Mathlib.Logic.Function.Basic

/-!
# Tables of slots

A table is a list of slots, and `entry` reads a slot: nothing where it is free,
a key with its value where it is taken. `lookup` is what a search through the
slots finds. Every operation on a table writes one slot, and what that does to
`lookup`, to the distinctness of the keys and to the number of slots taken is
one lemma each, about the table cut at the slot.
-/

namespace SlotTable

variable {σ κ ν : Type*} (entry : σ → Option (κ × ν))

/-- What the table holds, in slot order. -/
def entries (slots : List σ) : List (κ × ν) := slots.filterMap entry

def keys (slots : List σ) : List κ := (entries entry slots).map Prod.fst

/-- No key is in two slots. -/
def Distinct (slots : List σ) : Prop := (keys entry slots).Nodup

/-- How many slots are taken. -/
def used (slots : List σ) : Nat := (entries entry slots).length

section Lookup

variable [DecidableEq κ]

/-- The value a slot holds for a key. -/
def valueAt (k : κ) (slot : σ) : Option ν :=
  (entry slot).bind fun e => if e.1 = k then some e.2 else none

/-- The value of the first slot that holds the key. -/
def lookup (slots : List σ) (k : κ) : Option ν := slots.findSome? (valueAt entry k)

end Lookup

variable {entry} {l r slots : List σ} {s s' : σ} {k : κ} {v : ν}

theorem entries_append (l r : List σ) :
    entries entry (l ++ r) = entries entry l ++ entries entry r := List.filterMap_append

theorem entries_cons (s : σ) (r : List σ) :
    entries entry (s :: r) = (entry s).toList ++ entries entry r := by
  cases h : entry s <;> simp [entries, h]

theorem mem_keys : k ∈ keys entry slots ↔ ∃ s ∈ slots, ∃ v, entry s = some (k, v) := by
  simp only [keys, entries, List.mem_map, List.mem_filterMap]
  constructor
  · rintro ⟨e, ⟨s, hs, he⟩, rfl⟩
    exact ⟨s, hs, e.2, he⟩
  · rintro ⟨s, hs, v, he⟩
    exact ⟨(k, v), ⟨s, hs, he⟩, rfl⟩

theorem keys_cut (l : List σ) (s : σ) (r : List σ) :
    keys entry (l ++ s :: r)
      = keys entry l ++ ((entry s).map Prod.fst).toList ++ keys entry r := by
  unfold keys
  rw [entries_append, entries_cons, List.map_append, List.map_append, List.append_assoc]
  cases entry s <;> rfl

theorem used_cut (l : List σ) (s : σ) (r : List σ) :
    used entry (l ++ s :: r) = used entry l + (entry s).toList.length + used entry r := by
  unfold used
  rw [entries_append, entries_cons, List.length_append, List.length_append, Nat.add_assoc]

theorem used_le (slots : List σ) : used entry slots ≤ slots.length :=
  List.length_filterMap_le entry slots

/-- A table that is not full has a free slot. -/
theorem exists_free (h : used entry slots < slots.length) : ∃ s ∈ slots, entry s = none := by
  induction slots with
  | nil => exact absurd h (Nat.not_lt_zero _)
  | cons s slots ih =>
      cases hs : entry s with
      | none => exact ⟨s, List.mem_cons_self, hs⟩
      | some e =>
          have hlt : used entry slots < slots.length := by
            have hused : used entry ([] ++ s :: slots) = used entry []
                + (entry s).toList.length + used entry slots := used_cut [] s slots
            simp only [List.nil_append, hs, Option.toList_some, List.length_singleton] at hused
            simp only [used, entries, List.filterMap_nil, List.length_nil, List.length_cons]
              at hused h ⊢
            omega
          obtain ⟨t, ht, hfree⟩ := ih hlt
          exact ⟨t, List.mem_cons_of_mem s ht, hfree⟩

/-! ## Writing one slot -/

/-- A free slot may be cleared again; a key that is written must be in no other slot. -/
theorem Distinct.write (h : Distinct entry (l ++ s :: r))
    (hk : ∀ e, entry s' = some e → e.1 ∉ keys entry l ∧ e.1 ∉ keys entry r) :
    Distinct entry (l ++ s' :: r) := by
  unfold Distinct at h ⊢
  rw [keys_cut, List.append_assoc] at h ⊢
  have hrest : (keys entry l ++ keys entry r).Nodup :=
    h.sublist (List.Sublist.append_left (List.sublist_append_right _ _) _)
  cases hs : entry s' with
  | none => simpa using hrest
  | some e =>
      obtain ⟨hl, hr⟩ := hk e hs
      rw [Option.map_some, Option.toList_some, List.singleton_append, List.nodup_middle,
        List.nodup_cons, List.mem_append]
      exact ⟨fun hin => hin.elim hl hr, hrest⟩

theorem Distinct.others (h : Distinct entry (l ++ s :: r)) (hs : entry s = some (k, v)) :
    k ∉ keys entry l ∧ k ∉ keys entry r := by
  unfold Distinct at h
  rw [keys_cut, hs, Option.map_some, Option.toList_some, List.append_assoc, List.singleton_append,
    List.nodup_middle, List.nodup_cons, List.mem_append, not_or] at h
  exact h.1

section Lookup

variable [DecidableEq κ]

theorem lookup_append (l r : List σ) (k : κ) :
    lookup entry (l ++ r) k = (lookup entry l k).or (lookup entry r k) := List.findSome?_append

theorem lookup_cons (s : σ) (r : List σ) (k : κ) :
    lookup entry (s :: r) k = (valueAt entry k s).or (lookup entry r k) := by
  unfold lookup
  rw [List.findSome?_cons]
  cases valueAt entry k s <;> rfl

theorem valueAt_eq_some : valueAt entry k s = some v ↔ entry s = some (k, v) := by
  unfold valueAt
  cases hs : entry s with
  | none => simp
  | some e =>
      obtain ⟨k', v'⟩ := e
      by_cases hk : k' = k <;> simp [hk]

theorem lookup_eq_none : lookup entry slots k = none ↔ k ∉ keys entry slots := by
  unfold lookup
  rw [List.findSome?_eq_none_iff, mem_keys]
  constructor
  · rintro h ⟨s, hs, v, he⟩
    have hv := h s hs
    rw [valueAt_eq_some.mpr he] at hv
    cases hv
  · intro h s hs
    cases hv : valueAt entry k s with
    | none => rfl
    | some v => exact absurd ⟨s, hs, v, valueAt_eq_some.mp hv⟩ h

/-- The lookup of the key written is what the slot holds then, every other lookup
is as before. -/
theorem lookup_write (hl : k ∉ keys entry l) (hr : k ∉ keys entry r)
    (hother : ∀ k', k' ≠ k → valueAt entry k' s' = valueAt entry k' s) :
    lookup entry (l ++ s' :: r)
      = Function.update (lookup entry (l ++ s :: r)) k (valueAt entry k s') := by
  funext k'
  rw [lookup_append, lookup_cons]
  by_cases hk : k' = k
  · subst hk
    rw [Function.update_self, lookup_eq_none.mpr hl, lookup_eq_none.mpr hr, Option.none_or,
      Option.or_none]
  · rw [Function.update_of_ne hk, lookup_append, lookup_cons, hother k' hk]

theorem valueAt_of_entry (hs : entry s = some (k, v)) : valueAt entry k s = some v :=
  valueAt_eq_some.mpr hs

theorem valueAt_of_free (hs : entry s = none) (k : κ) : valueAt entry k s = none := by
  rw [valueAt, hs]
  rfl

theorem valueAt_of_ne (hs : entry s = some (k, v)) {k' : κ} (hk : k' ≠ k) :
    valueAt entry k' s = none := by
  rw [valueAt, hs]
  exact if_neg fun h => hk h.symm

/-- Where no key is there twice, a search finds every entry. -/
theorem Distinct.lookup (h : Distinct entry slots) (he : (k, v) ∈ entries entry slots) :
    lookup entry slots k = some v := by
  obtain ⟨s, hs, hentry⟩ := List.mem_filterMap.mp he
  obtain ⟨l, r, rfl⟩ := List.append_of_mem hs
  have hl := lookup_eq_none.mpr (h.others hentry).1
  rw [lookup_append, lookup_cons, hl, valueAt_of_entry hentry, Option.none_or, Option.some_or]

/-- Free slots behind the table change nothing. -/
theorem lookup_append_free (h : ∀ s ∈ r, entry s = none) :
    lookup entry (l ++ r) = lookup entry l := by
  funext k
  have hr : lookup entry r k = none := List.findSome?_eq_none_iff.mpr fun s hs =>
    valueAt_of_free (h s hs) k
  rw [lookup_append, hr, Option.or_none]

end Lookup

theorem entries_append_free (h : ∀ s ∈ r, entry s = none) :
    entries entry (l ++ r) = entries entry l := by
  have hr : entries entry r = [] := List.filterMap_eq_nil_iff.mpr h
  rw [entries_append, hr, List.append_nil]

end SlotTable
