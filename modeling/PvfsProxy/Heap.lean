import Mathlib.Algebra.Order.Ring.Int
import Mathlib.Algebra.Order.BigOperators.Group.List
import Mathlib.Data.Finset.Prod
import Mathlib.Data.Int.Interval
import Mathlib.Tactic.Abel
import Mathlib.Data.List.TakeWhile
import Mathlib.Data.List.Pairwise
import Mathlib.Data.List.Induction
import Mathlib.Data.List.Perm.Basic
import PvfsProxy.Proxy2

/-!
# The binomial heap of `heap.c`

A root list and a list of children are lists in `next` order; `parent` and
`ref`, which no scheduler follows, are left out, and `HeapQueues` adds the
counters. The heap caches one extracted node in `min`: an insert that has priority over the
cached node takes its place, a take empties the cache.

The two loops over root lists keep the source's cases: `heapMerge` interleaves
by degree, `heapUnionLoop` links neighbours of one degree. What every operation
does to the values held is one lemma each.
-/

namespace PvfsProxy

variable {α : Type}

/-- `struct heap_node` with the nodes below it. -/
inductive HeapNode (α : Type) where
  | mk (value : α) (degree : Nat) (child : List (HeapNode α))
deriving Repr

namespace HeapNode

def value : HeapNode α → α
  | mk v _ _ => v

def degree : HeapNode α → Nat
  | mk _ d _ => d

def child : HeapNode α → List (HeapNode α)
  | mk _ _ c => c

end HeapNode

structure Heap (α : Type) where
  head : List (HeapNode α)
  min : Option α
deriving Repr

def heapInit : Heap α where
  head := []
  min := none

def heapEmpty (heap : Heap α) : Bool := heap.head.isEmpty && heap.min.isNone

def heapLink (root child : HeapNode α) : HeapNode α :=
  .mk root.value (root.degree + 1) (child :: root.child)

/-- The loop of `__heap_merge` while `a` heads the first list; `rest` merges
what follows it. -/
def heapMergeLoop (a : HeapNode α) (rest : List (HeapNode α) → List (HeapNode α)) :
    List (HeapNode α) → List (HeapNode α)
  | [] => a :: rest []
  | b :: bs => if a.degree < b.degree then a :: rest (b :: bs) else b :: heapMergeLoop a rest bs

def heapMerge : List (HeapNode α) → List (HeapNode α) → List (HeapNode α)
  | [] => fun b => b
  | a :: as => heapMergeLoop a (heapMerge as)

/-- The loop of `__heap_union` at the root `x`; `done` are the roots before it,
last first. -/
def heapUnionLoop (higherPrio : α → α → Bool) (done : List (HeapNode α)) (x : HeapNode α) :
    List (HeapNode α) → List (HeapNode α)
  | [] => done.reverse ++ [x]
  | next :: rest =>
    if x.degree ≠ next.degree ∨ (rest.head?.any fun n => n.degree == x.degree) then
      heapUnionLoop higherPrio (x :: done) next rest
    else if higherPrio x.value next.value then
      heapUnionLoop higherPrio done (heapLink x next) rest
    else heapUnionLoop higherPrio done (heapLink next x) rest

def heapUnion (higherPrio : α → α → Bool) (head h2 : List (HeapNode α)) : List (HeapNode α) :=
  if h2.isEmpty then head
  else if head.isEmpty then h2
  else
    match heapMerge head h2 with
    | [] => []
    | x :: next => heapUnionLoop higherPrio [] x next

/-- The loop of `__heap_min`: the node found so far, where it stands in the
root list, and where the loop stands. -/
def heapMinLoop (higherPrio : α → α → Bool) (node : HeapNode α) (at_ : Nat) :
    Nat → List (HeapNode α) → HeapNode α × Nat
  | _, [] => (node, at_)
  | i, cur :: rest =>
    if higherPrio cur.value node.value then heapMinLoop higherPrio cur i (i + 1) rest
    else heapMinLoop higherPrio node at_ (i + 1) rest

/-- `__heap_extract_min`: the root list that is left, and the value. -/
def heapExtractMin (higherPrio : α → α → Bool) :
    List (HeapNode α) → List (HeapNode α) × Option α
  | [] => ([], none)
  | h :: roots =>
    let (node, at_) := heapMinLoop higherPrio h 0 1 roots
    (heapUnion higherPrio ((h :: roots).eraseIdx at_) node.child.reverse, some node.value)

def heapInsert (higherPrio : α → α → Bool) (heap : Heap α) (value : α) : Heap α :=
  match heap.min with
  | some min =>
    if higherPrio value min then
      { head := heapUnion higherPrio heap.head [.mk min 0 []], min := some value }
    else { heap with head := heapUnion higherPrio heap.head [.mk value 0 []] }
  | none => { heap with head := heapUnion higherPrio heap.head [.mk value 0 []] }

def heapPeek (higherPrio : α → α → Bool) (heap : Heap α) : Heap α × Option α :=
  match heap.min with
  | some min => (heap, some min)
  | none =>
    let (head, min) := heapExtractMin higherPrio heap.head
    ({ head, min }, min)

/-- `heap_take`, which looks into the node it found. -/
def heapTake (higherPrio : α → α → Bool) (heap : Heap α) : Except Fault (Heap α × α) :=
  match heapPeek higherPrio heap with
  | (heap, some node) => .ok ({ heap with min := none }, node)
  | (_, none) => .error .nullPointer

/-! ## The values held -/

mutual

def HeapNode.values : HeapNode α → List α
  | .mk value _ child => value :: forestValues child

def forestValues : List (HeapNode α) → List α
  | [] => []
  | h :: roots => h.values ++ forestValues roots

end

/-- The values of a heap, in no order that matters. -/
def Heap.values (heap : Heap α) : List α := heap.min.toList ++ forestValues heap.head

theorem HeapNode.values_eq (h : HeapNode α) : h.values = h.value :: forestValues h.child := by
  cases h
  simp [HeapNode.values, HeapNode.value, HeapNode.child]

theorem forestValues_eq (roots : List (HeapNode α)) :
    forestValues roots = roots.flatMap HeapNode.values := by
  induction roots with
  | nil => simp [forestValues]
  | cons h roots ih => rw [forestValues, ih, List.flatMap_cons]

theorem forestValues_perm {roots roots' : List (HeapNode α)} (h : roots.Perm roots') :
    (forestValues roots).Perm (forestValues roots') := by
  rw [forestValues_eq, forestValues_eq]
  exact h.flatMap_right _

theorem forestValues_append (roots roots' : List (HeapNode α)) :
    forestValues (roots ++ roots') = forestValues roots ++ forestValues roots' := by
  rw [forestValues_eq, forestValues_eq, forestValues_eq, List.flatMap_append]

@[simp] theorem forestValues_singleton (value : α) : forestValues [.mk value 0 []] = [value] := by
  simp [forestValues, HeapNode.values]

theorem heapLink_values (root child : HeapNode α) :
    (heapLink root child).values.Perm (root.values ++ child.values) := by
  rw [heapLink, HeapNode.values, forestValues, root.values_eq]
  exact List.Perm.cons _ List.perm_append_comm

theorem heapMergeLoop_perm {a : HeapNode α} {as : List (HeapNode α)}
    {rest : List (HeapNode α) → List (HeapNode α)} (h : ∀ bs, (rest bs).Perm (as ++ bs)) :
    ∀ bs, (heapMergeLoop a rest bs).Perm (a :: as ++ bs)
  | [] => List.Perm.cons _ (h [])
  | b :: bs => by
      rw [heapMergeLoop]
      split
      · exact List.Perm.cons _ (h _)
      · exact (List.Perm.cons b (heapMergeLoop_perm h bs)).trans List.perm_middle.symm

theorem heapMerge_perm : ∀ as bs : List (HeapNode α), (heapMerge as bs).Perm (as ++ bs)
  | [], bs => List.Perm.refl bs
  | _ :: as, bs => heapMergeLoop_perm (heapMerge_perm as) bs

theorem heapUnionLoop_values (higherPrio : α → α → Bool) :
    ∀ (rest done : List (HeapNode α)) (x : HeapNode α),
      (forestValues (heapUnionLoop higherPrio done x rest)).Perm
        (forestValues done ++ (x.values ++ forestValues rest))
  | [], done, x => by
      rw [heapUnionLoop, forestValues_append, forestValues]
      exact (forestValues_perm (List.reverse_perm done)).append_right _
  | next :: rest, done, x => by
      have hlink : ∀ a b : HeapNode α, (a.values ++ b.values).Perm (x.values ++ next.values) →
          (forestValues done ++ ((heapLink a b).values ++ forestValues rest)).Perm
            (forestValues done ++ (x.values ++ forestValues (next :: rest))) := by
        intro a b h
        refine List.Perm.append_left _ ?_
        rw [forestValues, ← List.append_assoc]
        exact ((heapLink_values a b).trans h).append_right _
      rw [heapUnionLoop]
      split
      · refine (heapUnionLoop_values higherPrio rest (x :: done) next).trans ?_
        rw [forestValues, forestValues, ← List.append_assoc (forestValues done)]
        exact List.perm_append_comm.append_right _
      · split
        · exact (heapUnionLoop_values higherPrio rest done _).trans
            (hlink x next (List.Perm.refl _))
        · exact (heapUnionLoop_values higherPrio rest done _).trans
            (hlink next x List.perm_append_comm)

theorem heapUnion_values (higherPrio : α → α → Bool) (head h2 : List (HeapNode α)) :
    (forestValues (heapUnion higherPrio head h2)).Perm (forestValues head ++ forestValues h2) := by
  unfold heapUnion
  split
  · rename_i h
    rw [List.isEmpty_iff.mp h, forestValues, List.append_nil]
  · split
    · rename_i h
      rw [List.isEmpty_iff.mp h, forestValues, List.nil_append]
    · have hmerge := forestValues_perm (heapMerge_perm head h2)
      rw [forestValues_append] at hmerge
      split
      · rename_i h
        rw [h] at hmerge
        exact hmerge
      · rename_i x next h
        rw [h] at hmerge
        exact (heapUnionLoop_values higherPrio next [] x).trans hmerge

theorem heapMinLoop_mem {higherPrio : α → α → Bool} {roots : List (HeapNode α)} :
    ∀ (rest : List (HeapNode α)) {node : HeapNode α} {at_ i : Nat},
      roots[at_]? = some node → roots.drop i = rest →
      roots[(heapMinLoop higherPrio node at_ i rest).2]?
        = some (heapMinLoop higherPrio node at_ i rest).1
  | [], _, _, _, hnode, _ => hnode
  | cur :: rest, node, at_, i, hnode, hrest => by
      have hcur : roots[i]? = some cur := by
        rw [← List.head?_drop, hrest]
        rfl
      have htail : roots.drop (i + 1) = rest := by
        rw [← List.tail_drop, hrest]
        rfl
      rw [heapMinLoop]
      split
      · exact heapMinLoop_mem rest hcur htail
      · exact heapMinLoop_mem rest hnode htail

/-- Extracting takes one value out, and finds one if there is any. -/
theorem heapExtractMin_values (higherPrio : α → α → Bool) (roots : List (HeapNode α)) :
    ((heapExtractMin higherPrio roots).2.toList
      ++ forestValues (heapExtractMin higherPrio roots).1).Perm (forestValues roots)
    ∧ ((heapExtractMin higherPrio roots).2 = none ↔ roots = []) := by
  cases roots with
  | nil => simp [heapExtractMin, forestValues]
  | cons h roots =>
      refine ⟨?_, by simp [heapExtractMin]⟩
      have hmem : (h :: roots)[(heapMinLoop higherPrio h 0 1 roots).2]?
          = some (heapMinLoop higherPrio h 0 1 roots).1 := heapMinLoop_mem roots rfl rfl
      rw [heapExtractMin]
      generalize heapMinLoop higherPrio h 0 1 roots = found at hmem
      obtain ⟨node, at_⟩ := found
      obtain ⟨hlt, hget⟩ := List.getElem?_eq_some_iff.mp hmem
      dsimp only at hget hlt ⊢
      have hperm := forestValues_perm (List.getElem_cons_eraseIdx_perm hlt)
      rw [hget, forestValues, node.values_eq] at hperm
      refine List.Perm.trans ?_ hperm
      rw [Option.toList_some, List.singleton_append, List.cons_append]
      refine List.Perm.cons _ ((heapUnion_values ..).trans ?_)
      exact ((forestValues_perm (List.reverse_perm _)).append_left _).trans List.perm_append_comm

theorem heapInit_values : (heapInit : Heap α).values = [] := by
  simp [heapInit, Heap.values, forestValues]

theorem heapEmpty_iff (heap : Heap α) : heapEmpty heap = true ↔ heap.values = [] := by
  unfold heapEmpty Heap.values
  rw [Bool.and_eq_true, List.isEmpty_iff, Option.isNone_iff_eq_none, List.append_eq_nil_iff,
    Option.toList_eq_nil_iff]
  constructor
  · rintro ⟨hhead, hmin⟩
    rw [hhead]
    exact ⟨hmin, by simp [forestValues]⟩
  · rintro ⟨hmin, hvalues⟩
    refine ⟨?_, hmin⟩
    cases hhead : heap.head with
    | nil => rfl
    | cons h roots =>
        rw [hhead, forestValues, h.values_eq] at hvalues
        cases hvalues

theorem heapInsert_values (higherPrio : α → α → Bool) (heap : Heap α) (value : α) :
    (heapInsert higherPrio heap value).values.Perm (value :: heap.values) := by
  have hunion : ∀ v : α, (forestValues (heapUnion higherPrio heap.head [.mk v 0 []])).Perm
      (v :: forestValues heap.head) := by
    intro v
    refine (heapUnion_values ..).trans ?_
    rw [forestValues_singleton]
    exact List.perm_append_comm
  unfold heapInsert Heap.values
  cases hmin : heap.min with
  | none => exact hunion value
  | some min =>
      dsimp only
      split
      · exact List.Perm.cons _ (hunion min)
      · exact ((hunion value).cons min).trans (List.Perm.swap ..)

theorem heapPeek_values (higherPrio : α → α → Bool) (heap : Heap α) :
    (heapPeek higherPrio heap).1.values.Perm heap.values
      ∧ (heapPeek higherPrio heap).2 = (heapPeek higherPrio heap).1.min
      ∧ ((heapPeek higherPrio heap).2 = none → heap.values = []) := by
  unfold heapPeek
  cases hmin : heap.min with
  | some min => exact ⟨List.Perm.refl _, hmin.symm, fun h => by cases h⟩
  | none =>
      obtain ⟨hvalues, hnone⟩ := heapExtractMin_values higherPrio heap.head
      refine ⟨?_, rfl, ?_⟩
      · unfold Heap.values
        rw [hmin]
        exact hvalues
      · intro h
        unfold Heap.values
        rw [hmin, hnone.mp h]
        simp [forestValues]

theorem heapPeek_mem {higherPrio : α → α → Bool} {heap : Heap α} {value : α}
    (h : (heapPeek higherPrio heap).2 = some value) : value ∈ heap.values := by
  obtain ⟨hvalues, hmin, -⟩ := heapPeek_values higherPrio heap
  rw [← hvalues.mem_iff, Heap.values, ← hmin, h]
  simp

theorem heapTake_mem {higherPrio : α → α → Bool} {heap heap' : Heap α} {value : α}
    (h : heapTake higherPrio heap = .ok (heap', value)) : value ∈ heap.values := by
  unfold heapTake at h
  split at h
  · rename_i heap₁ node hpeek
    obtain ⟨-, rfl⟩ := Prod.mk.inj (Except.ok.inj h)
    exact heapPeek_mem (congrArg Prod.snd hpeek)
  · cases h

theorem heapTake_values (higherPrio : α → α → Bool) {heap : Heap α} (h : heap.values ≠ []) :
    ∃ heap' value, heapTake higherPrio heap = .ok (heap', value)
      ∧ (value :: heap'.values).Perm heap.values := by
  obtain ⟨hvalues, hmin, hnone⟩ := heapPeek_values higherPrio heap
  unfold heapTake
  generalize heapPeek higherPrio heap = peeked at hvalues hmin hnone
  obtain ⟨heap', node⟩ := peeked
  cases node with
  | none => exact absurd (hnone rfl) h
  | some node =>
      refine ⟨_, _, rfl, List.Perm.trans ?_ hvalues⟩
      unfold Heap.values
      dsimp only at hmin ⊢
      rw [← hmin]
      exact List.Perm.refl _

end PvfsProxy
