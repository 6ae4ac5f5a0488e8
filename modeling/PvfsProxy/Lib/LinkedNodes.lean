import Mathlib.Data.List.Nodup
import Mathlib.Data.List.Basic

/-!
# Singly linked nodes

A heap of nodes `{item, next}` at addresses, with NULL as `none`. `Seg nodes
p l r` says that the walk from `p` along `next` passes the nodes `l` (address
and item of each, in order) and arrives at `r`; with `r = none` that is a
whole list.

A segment depends on its own nodes only (`Seg.congr`), so writing or freeing
a node elsewhere leaves it alone. The walk from a pointer is determined by
the heap (`Seg.unique`), and a walk that reaches NULL passes no node twice
(`Seg.nodup`).
-/

namespace LinkedNodes

variable {α : Type*}

abbrev Ptr := Option Nat

structure Node (α : Type*) where
  item : α
  next : Ptr
deriving DecidableEq

/-- `none` where no node is allocated. -/
abbrev Nodes (α : Type*) := Nat → Option (Node α)

/-- `p->next = n`, on an allocated node. -/
def Nodes.setNext (nodes : Nodes α) (a : Nat) (n : Ptr) : Nodes α :=
  fun b => if b = a then (nodes b).map fun node => { node with next := n } else nodes b

/-- `free(p)` -/
def Nodes.free (nodes : Nodes α) (a : Nat) : Nodes α :=
  fun b => if b = a then none else nodes b

@[simp] theorem Nodes.setNext_of_ne {nodes : Nodes α} {a b : Nat} {n : Ptr} (h : b ≠ a) :
    nodes.setNext a n b = nodes b := if_neg h

theorem Nodes.setNext_self {nodes : Nodes α} {a : Nat} {x : α} {n m : Ptr}
    (h : nodes a = some ⟨x, m⟩) : nodes.setNext a n a = some ⟨x, n⟩ := by
  simp [Nodes.setNext, h]

@[simp] theorem Nodes.free_of_ne {nodes : Nodes α} {a b : Nat} (h : b ≠ a) :
    nodes.free a b = nodes b := if_neg h

@[simp] theorem Nodes.free_self (nodes : Nodes α) (a : Nat) : nodes.free a a = none := if_pos rfl

/-- The addresses of a list of nodes. -/
def addrs (l : List (Nat × α)) : List Nat := l.map Prod.fst

@[simp] theorem addrs_nil : addrs ([] : List (Nat × α)) = [] := rfl

@[simp] theorem addrs_cons (a : Nat) (x : α) (l : List (Nat × α)) :
    addrs ((a, x) :: l) = a :: addrs l := rfl

@[simp] theorem addrs_append (l l' : List (Nat × α)) : addrs (l ++ l') = addrs l ++ addrs l' :=
  List.map_append

/-- The walk from one pointer to another, by the nodes it passes. -/
inductive Seg (nodes : Nodes α) : Ptr → List (Nat × α) → Ptr → Prop where
  | nil (p : Ptr) : Seg nodes p [] p
  | cons {a : Nat} {x : α} {n r : Ptr} {l : List (Nat × α)} (h : nodes a = some ⟨x, n⟩)
      (hl : Seg nodes n l r) : Seg nodes (some a) ((a, x) :: l) r

namespace Seg

variable {nodes nodes' : Nodes α} {p q r : Ptr} {l l' : List (Nat × α)} {a : Nat} {x : α}

theorem nil_inv (h : Seg nodes p [] r) : p = r := by
  cases h
  rfl

theorem cons_inv (h : Seg nodes p ((a, x) :: l) r) :
    p = some a ∧ ∃ n, nodes a = some ⟨x, n⟩ ∧ Seg nodes n l r := by
  cases h with
  | cons h hl => exact ⟨rfl, _, h, hl⟩

theorem append (h : Seg nodes p l q) (h' : Seg nodes q l' r) : Seg nodes p (l ++ l') r := by
  induction h with
  | nil => exact h'
  | cons h _ ih => exact .cons h (ih h')

theorem split : ∀ {l : List (Nat × α)} {p : Ptr}, Seg nodes p (l ++ l') r →
    ∃ q, Seg nodes p l q ∧ Seg nodes q l' r
  | [], p, h => ⟨p, .nil p, h⟩
  | (a, x) :: l, p, h => by
      obtain ⟨rfl, n, ha, hl⟩ := cons_inv h
      obtain ⟨q, hl, hl'⟩ := split hl
      exact ⟨q, .cons ha hl, hl'⟩

/-- A segment sees no other node than its own. -/
theorem congr (h : Seg nodes p l r) (hsame : ∀ a ∈ addrs l, nodes' a = nodes a) :
    Seg nodes' p l r := by
  induction h with
  | nil p => exact .nil p
  | cons h _ ih =>
      refine .cons ((hsame _ (List.mem_cons_self ..)).trans h) (ih fun a ha => ?_)
      exact hsame a (List.mem_cons_of_mem _ ha)

theorem setNext {n : Ptr} (h : Seg nodes p l r) (ha : a ∉ addrs l) :
    Seg (nodes.setNext a n) p l r :=
  h.congr fun _ hb => Nodes.setNext_of_ne fun hab => ha (hab ▸ hb)

theorem free (h : Seg nodes p l r) (ha : a ∉ addrs l) : Seg (nodes.free a) p l r :=
  h.congr fun _ hb => Nodes.free_of_ne fun hab => ha (hab ▸ hb)

/-- A segment whose end is written to: the list becomes one node longer. -/
theorem snoc {m n : Ptr} (h : Seg nodes p l (some a)) (hx : nodes a = some ⟨x, m⟩)
    (ha : a ∉ addrs l) : Seg (nodes.setNext a n) p (l ++ [(a, x)]) n :=
  (h.setNext ha).append (.cons (Nodes.setNext_self hx) (.nil n))

/-- The walk to NULL is determined by where it starts. -/
theorem unique : ∀ {l l' : List (Nat × α)} {p : Ptr},
    Seg nodes p l none → Seg nodes p l' none → l = l'
  | [], [], _, _, _ => rfl
  | [], (_, _) :: _, _, h, h' => by
      obtain rfl := nil_inv h
      obtain ⟨hp, -⟩ := cons_inv h'
      cases hp
  | (_, _) :: _, [], _, h, h' => by
      obtain rfl := nil_inv h'
      obtain ⟨hp, -⟩ := cons_inv h
      cases hp
  | (a, x) :: l, (b, y) :: l', _, h, h' => by
      obtain ⟨rfl, n, ha, hl⟩ := cons_inv h
      obtain ⟨hb, m, hb', hl'⟩ := cons_inv h'
      obtain rfl := Option.some.inj hb
      obtain ⟨rfl, rfl⟩ : x = y ∧ n = m := by
        simpa [ha] using hb'
      rw [unique hl hl']

theorem start (h : Seg nodes p l none) : p = l.head?.map Prod.fst := by
  cases h with
  | nil => rfl
  | cons => rfl

/-- A list that ends passes no node twice. -/
theorem nodup (h : Seg nodes p l none) : (addrs l).Nodup := by
  induction l generalizing p with
  | nil => exact List.nodup_nil
  | cons b l ih =>
      obtain ⟨a, x⟩ := b
      obtain ⟨rfl, n, ha, hl⟩ := cons_inv h
      refine List.nodup_cons.mpr ⟨fun hmem => ?_, ih hl⟩
      -- a second visit would start the same walk again, and it is shorter
      obtain ⟨⟨_, y⟩, hb, rfl⟩ := List.mem_map.mp hmem
      obtain ⟨l₁, l₂, rfl⟩ := List.append_of_mem hb
      obtain ⟨q, -, hq⟩ := split hl
      obtain ⟨rfl, -⟩ := cons_inv hq
      have hlen := congrArg List.length (unique h hq)
      simp only [List.length_cons, List.length_append] at hlen
      omega

end Seg

/-- The list on the addresses `0, …, n`, each node pointing at the next. -/
def Nodes.row (n : Nat) (x : Nat → α) : Nodes α :=
  fun a => if a ≤ n then some ⟨x a, if a < n then some (a + 1) else none⟩ else none

theorem Seg.row (x : Nat → α) : ∀ {n : Nat} (m k : Nat), k + m = n →
    Seg (Nodes.row n x) (some k) ((List.range' k (m + 1)).map fun a => (a, x a)) none
  | n, 0, k, h => by
      refine .cons (n := none) ?_ (.nil none)
      simp [Nodes.row, ← h]
  | n, m + 1, k, h => by
      rw [List.range'_succ, List.map_cons]
      refine .cons ?_ (Seg.row x m (k + 1) (by omega))
      simp only [Nodes.row]
      rw [if_pos (by omega), if_pos (by omega)]

end LinkedNodes
