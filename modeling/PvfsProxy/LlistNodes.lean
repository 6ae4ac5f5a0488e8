import PvfsProxy.Lib.LinkedNodes
import PvfsProxy.Lib.Loops
import PvfsProxy.Llist

/-!
# `llist.c` on its nodes

`Llist.lean` gives the list functions on the items behind the sentinel; here
are `PINT_llist_sort` and `PINT_llist_rem` as the source has them, on a heap
of nodes that they relink and free. Following or writing a pointer that is
NULL or freed is a fault, and so is an `int` that overflows: `nmerges` and
`insize` count in `int`.

`pintLlistSortNodes_ends` says that the sort relinks the nodes into the order
of `pintLlistSort`, for as many nodes as `insize` can count, and touches no
other node. `pintLlistRemNodes_ends` says that the first match is unlinked and
its node freed, as `pintLlistRem` has it.
-/

namespace PvfsProxy

open StableSort LinkedNodes Loops

variable {α : Type}

inductive LlistFault where
  /-- a pointer followed that is NULL or freed -/
  | invalid
  /-- an `int` past `INT_MAX` -/
  | overflow
  | exit (code : Int)
deriving DecidableEq

abbrev LlistStop := Stop LlistFault

def readNode (nodes : Nodes α) (p : Ptr) : Except LlistStop (LinkedNodes.Node α) :=
  match p.bind nodes with
  | some node => .ok node
  | none => .error (.fault .invalid)

/-- `p->next = next` -/
def writeNext (nodes : Nodes α) (p next : Ptr) : Except LlistStop (Nodes α) :=
  match p with
  | none => .error (.fault .invalid)
  | some a => if (nodes a).isSome then .ok (nodes.setNext a next) else .error (.fault .invalid)

def checkedInt (n : Nat) : Except LlistStop Nat :=
  if n < 2 ^ 31 then .ok n else .error (.fault .overflow)

theorem readNode_eq {nodes : Nodes α} {a : Nat} {node : LinkedNodes.Node α}
    (h : nodes a = some node) : readNode nodes (some a) = .ok node := by
  simp [readNode, h]

theorem writeNext_eq {nodes : Nodes α} {a : Nat} {node : LinkedNodes.Node α}
    (h : nodes a = some node) (next : Ptr) :
    writeNext nodes (some a) next = .ok (nodes.setNext a next) := by
  simp [writeNext, h]

/-! ## `PINT_llist_sort` -/

/-- `for (i = 0; i < insize; i++)`, with so many turns left: `psize` and `q`
after it. -/
def stepAlongNodes (nodes : Nodes α) : Nat → Nat → Ptr → Except LlistStop (Nat × Ptr)
  | 0, psize, q => .ok (psize, q)
  | i + 1, psize, q => do
    let node ← readNode nodes q
    match node.next with
    | none => .ok (psize + 1, none)
    | some q => stepAlongNodes nodes i (psize + 1) (some q)

/-- The merged list: `list` and `tail`. -/
structure Merged (α : Type) where
  nodes : Nodes α
  list : Ptr
  tail : Ptr

/-- Add the next element to the merged list. -/
def Merged.add (m : Merged α) (e : Ptr) : Except LlistStop (Merged α) :=
  match m.tail with
  | some tail => do
    let nodes ← writeNext m.nodes (some tail) e
    return { m with nodes, tail := e }
  | none => .ok { m with list := e, tail := e }

/-- The variables of the merge. -/
structure Merging (α : Type) where
  merged : Merged α
  p : Ptr
  psize : Nat
  q : Ptr
  qsize : Nat

/-- `psize > 0 || (qsize > 0 && q)` -/
def Merging.unmerged (s : Merging α) : Bool :=
  decide (0 < s.psize) || (decide (0 < s.qsize) && s.q.isSome)

/-- `e = p; p = p->next; psize--;` -/
def Merging.takeP (s : Merging α) : Except LlistStop (Merging α) := do
  let e ← readNode s.merged.nodes s.p
  let merged ← s.merged.add s.p
  return { s with merged, p := e.next, psize := s.psize - 1 }

/-- `e = q; q = q->next; qsize--;` -/
def Merging.takeQ (s : Merging α) : Except LlistStop (Merging α) := do
  let e ← readNode s.merged.nodes s.q
  let merged ← s.merged.add s.q
  return { s with merged, q := e.next, qsize := s.qsize - 1 }

/-- One turn of the merge: the next element comes from `p` or `q`. -/
def Merging.turn (listComp : α → α → Int) (s : Merging α) : Except LlistStop (Merging α) :=
  if s.psize = 0 then s.takeQ
  else if s.qsize = 0 ∨ s.q = none then s.takeP
  else do
    let a ← readNode s.merged.nodes s.p
    let b ← readNode s.merged.nodes s.q
    if listComp a.item b.item ≤ 0 then s.takeP else s.takeQ

/-- The variables of a pass. -/
structure Passing (α : Type) where
  merged : Merged α
  p : Ptr
  nmerges : Nat

/-- One turn of `while (p)`: merge two runs of `insize` nodes. -/
def Passing.turn (listComp : α → α → Int) (turns insize : Nat) (s : Passing α) :
    Except LlistStop (Passing α) := do
  let nmerges ← checkedInt (s.nmerges + 1)
  let (psize, q) ← stepAlongNodes s.merged.nodes insize 0 s.p
  let m ← whileLoop Merging.unmerged (Merging.turn listComp) turns
    { merged := s.merged, p := s.p, psize, q, qsize := insize }
  return { merged := m.merged, p := m.q, nmerges }

/-- `while (1)`: passes over runs of doubling length. -/
def sortNodes (listComp : α → α → Int) (turns : Nat) :
    Nat → Nat → Nodes α → Ptr → Except LlistStop (Nodes α × Ptr)
  | 0, _, _, _ => .error .unfinished
  | n + 1, insize, nodes, list => do
    let s ← whileLoop (fun s => s.p.isSome) (Passing.turn listComp turns insize) turns
      { merged := { nodes, list := none, tail := none }, p := list, nmerges := 0 }
    let nodes ← writeNext s.merged.nodes s.merged.tail none
    if s.nmerges ≤ 1 then return (nodes, s.merged.list)
    let insize ← checkedInt (insize * 2)
    sortNodes listComp turns n insize nodes s.merged.list

/-- `PINT_llist_sort`, every loop for at most `turns` turns. -/
def pintLlistSortNodes (listComp : α → α → Int) (turns : Nat) (nodes : Nodes α) :
    Ptr → Except LlistStop (Nodes α × Ptr)
  | none => .ok (nodes, none)
  | some tempHead => do
    let head ← readNode nodes (some tempHead)
    if head.next = none then return (nodes, none)
    let (nodes, list) ← sortNodes listComp turns turns 1 nodes head.next
    let nodes ← writeNext nodes (some tempHead) list
    return (nodes, some tempHead)

/-! ## The merged list -/

/-- The merged list is the nodes `out`; what the last of them points at is
left open. -/
inductive Merged.Holds (m : Merged α) : List (Nat × α) → Prop where
  | empty (hlist : m.list = none) (htail : m.tail = none) : m.Holds []
  | snoc {l : List (Nat × α)} {a : Nat} {x : α} {n : Ptr} (htail : m.tail = some a)
      (hlist : Seg m.nodes m.list l (some a)) (ha : m.nodes a = some ⟨x, n⟩) :
      m.Holds (l ++ [(a, x)])

/-- Adding an element writes to the last node of the merged list only. -/
theorem Merged.Holds.add {m : Merged α} {out : List (Nat × α)} (h : m.Holds out) {e : Nat} {x : α}
    {n : Ptr} (he : m.nodes e = some ⟨x, n⟩) {others : List Nat}
    (hnodup : (addrs out ++ e :: others).Nodup) :
    ∃ m', m.add (some e) = .ok m' ∧ m'.Holds (out ++ [(e, x)])
      ∧ (∀ b ∉ addrs out, m'.nodes b = m.nodes b) ∧ ∀ b ∈ others, m'.nodes b = m.nodes b := by
  obtain ⟨hout, -, hapart⟩ := List.nodup_append.mp hnodup
  have hothers : ∀ b ∈ others, b ∉ addrs out := fun b hb hmem =>
    hapart b hmem b (List.mem_cons_of_mem _ hb) rfl
  cases h with
  | empty hlist htail =>
      refine ⟨{ m with list := some e, tail := some e }, by simp [Merged.add, htail], ?_, ?_, ?_⟩
      · exact .snoc rfl (.nil _) he
      · exact fun _ _ => rfl
      · exact fun _ _ => rfl
  | @snoc l a y r htail hlist ha =>
      have hal : a ∉ addrs l := by
        simp only [addrs_append, List.nodup_append] at hout
        exact fun hmem => hout.2.2 a hmem a (by simp) rfl
      have hea : e ≠ a := fun heq => hapart a (by simp) e (List.mem_cons_self ..) heq.symm
      have hframe : ∀ b ∉ addrs (l ++ [(a, y)]), m.nodes.setNext a (some e) b = m.nodes b :=
        fun b hb => Nodes.setNext_of_ne fun heq => hb (by simp [heq])
      refine ⟨{ m with nodes := m.nodes.setNext a (some e), tail := some e }, ?_, ?_, hframe,
        fun b hb => hframe b (hothers b hb)⟩
      · simp only [Merged.add, htail, writeNext_eq ha]
        rfl
      · exact .snoc rfl (hlist.snoc ha hal) ((Nodes.setNext_of_ne hea).trans he)

/-- `tail->next = NULL;` makes the merged list end. -/
theorem Merged.Holds.close {m : Merged α} {out : List (Nat × α)} (h : m.Holds out)
    (hne : out ≠ []) (hnodup : (addrs out).Nodup) :
    ∃ nodes, writeNext m.nodes m.tail none = .ok nodes ∧ Seg nodes m.list out none
      ∧ ∀ b ∉ addrs out, nodes b = m.nodes b := by
  cases h with
  | empty => exact absurd rfl hne
  | @snoc l a x n htail hlist ha =>
      have hal : a ∉ addrs l := by
        simp only [addrs_append, List.nodup_append] at hnodup
        exact fun hmem => hnodup.2.2 a hmem a (by simp) rfl
      refine ⟨m.nodes.setNext a none, by rw [htail, writeNext_eq ha], hlist.snoc ha hal, ?_⟩
      intro b hb
      exact Nodes.setNext_of_ne fun heq => hb (by simp [heq])

/-! ## The merge -/

/-- The nodes `whole` are split between the merged list, what is left of the
run at `p`, and the list from `q` on; no other node has changed. -/
structure Merging.At (nodes₀ : Nodes α) (whole : List Nat) (out P L : List (Nat × α))
    (s : Merging α) : Prop where
  holds : s.merged.Holds out
  left : ∃ r, Seg s.merged.nodes s.p P r
  psize : s.psize = P.length
  right : Seg s.merged.nodes s.q L none
  perm : (addrs out ++ (addrs P ++ addrs L)).Perm whole
  frame : ∀ b ∉ whole, s.merged.nodes b = nodes₀ b

section Merge

variable {nodes₀ : Nodes α} {whole : List Nat} {out P L target rest : List (Nat × α)}
  {s : Merging α} {x : Nat × α}

theorem Merging.At.takeP (hnodup : whole.Nodup) (h : s.At nodes₀ whole out (x :: P) L) :
    ∃ t, s.takeP = .ok t ∧ t.At nodes₀ whole (out ++ [x]) P L ∧ t.qsize = s.qsize := by
  obtain ⟨a, x⟩ := x
  obtain ⟨r, hleft⟩ := h.left
  obtain ⟨hp, n, ha, hleft⟩ := hleft.cons_inv
  obtain ⟨m, hadd, hholds, hframe, hothers⟩ := h.holds.add ha (h.perm.nodup_iff.mpr hnodup)
  refine ⟨{ s with merged := m, p := n, psize := s.psize - 1 }, ?_, ?_, rfl⟩
  · simp only [Merging.takeP, hp, readNode_eq ha, hadd]
    rfl
  · refine ⟨hholds, ⟨r, hleft.congr fun b hb => hothers b ?_⟩, by simp [h.psize],
      h.right.congr fun b hb => hothers b ?_, by simpa using h.perm, fun b hb => ?_⟩
    · exact List.mem_append_left _ hb
    · exact List.mem_append_right _ hb
    · rw [hframe b fun hout => hb (h.perm.subset (List.mem_append_left _ hout)), h.frame b hb]

theorem Merging.At.takeQ (hnodup : whole.Nodup) (h : s.At nodes₀ whole out P (x :: L)) :
    ∃ t, s.takeQ = .ok t ∧ t.At nodes₀ whole (out ++ [x]) P L ∧ t.qsize = s.qsize - 1 := by
  obtain ⟨a, x⟩ := x
  obtain ⟨r, hleft⟩ := h.left
  obtain ⟨hq, n, ha, hright⟩ := h.right.cons_inv
  have hperm : (addrs out ++ (a :: (addrs P ++ addrs L))).Perm whole :=
    (List.Perm.append_left _ List.perm_middle.symm).trans h.perm
  obtain ⟨m, hadd, hholds, hframe, hothers⟩ := h.holds.add ha (hperm.nodup_iff.mpr hnodup)
  refine ⟨{ s with merged := m, q := n, qsize := s.qsize - 1 }, ?_, ?_, rfl⟩
  · simp only [Merging.takeQ, hq, readNode_eq ha, hadd]
    rfl
  · refine ⟨hholds, ⟨r, hleft.congr fun b hb => hothers b ?_⟩, h.psize,
      hright.congr fun b hb => hothers b ?_, by simpa using hperm, fun b hb => ?_⟩
    · exact List.mem_append_left _ hb
    · exact List.mem_append_right _ hb
    · rw [hframe b fun hout => hb (h.perm.subset (List.mem_append_left _ hout)), h.frame b hb]

/-- A turn moves the head of the merge of the two runs to the merged list. -/
theorem Merging.At.turn {listComp : α → α → Int} (hnodup : whole.Nodup)
    (h : s.At nodes₀ whole out P L) (hmore : s.unmerged = true) :
    ∃ t x P' L', s.turn listComp = .ok t ∧ t.At nodes₀ whole (out ++ [x]) P' L'
      ∧ List.merge P (L.take s.qsize) (compLe fun a b => listComp a.2 b.2)
        = x :: List.merge P' (L'.take t.qsize) (compLe fun a b => listComp a.2 b.2)
      ∧ L'.drop t.qsize = L.drop s.qsize ∧ P'.length + t.qsize < P.length + s.qsize := by
  have hpsize := h.psize
  have hq : s.q = none → L = [] := by
    intro hnone
    have hright := h.right
    rw [hnone] at hright
    exact hright.unique (.nil none)
  rcases P with _ | ⟨x, P⟩
  · -- only the second run is left
    have hzero : s.psize = 0 := hpsize
    obtain ⟨hqsize, hsome⟩ : 0 < s.qsize ∧ s.q.isSome := by
      simpa [Merging.unmerged, hzero] using hmore
    rcases L with _ | ⟨y, L⟩
    · rw [h.right.nil_inv] at hsome
      cases hsome
    · obtain ⟨t, ht, hat, htq⟩ := h.takeQ hnodup
      obtain ⟨k, hk⟩ : ∃ k, s.qsize = k + 1 := ⟨s.qsize - 1, by omega⟩
      refine ⟨t, y, [], L, by rw [Merging.turn, if_pos hzero, ht], hat, ?_, ?_, ?_⟩
      · simp [htq, hk]
      · simp [htq, hk]
      · simp only [htq]
        omega
  · have hpos : ¬ s.psize = 0 := by simp [hpsize]
    by_cases hout : s.qsize = 0 ∨ s.q = none
    · -- only the first run is left
      obtain ⟨t, ht, hat, htq⟩ := h.takeP hnodup
      have hempty : L.take s.qsize = [] := by
        rcases hout with hzero | hnone
        · rw [hzero, List.take_zero]
        · rw [hq hnone, List.take_nil]
      refine ⟨t, x, P, L, by rw [Merging.turn, if_neg hpos, if_pos hout, ht], hat, ?_, ?_, ?_⟩
      · rw [htq, hempty]
        simp
      · rw [htq]
      · simp only [htq, List.length_cons]
        omega
    · -- both are: the smaller head, the first run's at equal keys
      obtain ⟨hqsize, hsome⟩ := not_or.mp hout
      rcases L with _ | ⟨y, L⟩
      · exact absurd h.right.nil_inv hsome
      · obtain ⟨k, hk⟩ : ∃ k, s.qsize = k + 1 := ⟨s.qsize - 1, by omega⟩
        obtain ⟨r, hleft⟩ := h.left
        obtain ⟨hp, n, ha, -⟩ := hleft.cons_inv
        obtain ⟨hq', m, hb, -⟩ := h.right.cons_inv
        have hturn : s.turn listComp = if listComp x.2 y.2 ≤ 0 then s.takeP else s.takeQ := by
          rw [Merging.turn, if_neg hpos, if_neg hout, hp, hq', readNode_eq ha, readNode_eq hb]
          rfl
        rw [hturn, hk, List.take_succ_cons, List.cons_merge_cons]
        by_cases hle : listComp x.2 y.2 ≤ 0
        · obtain ⟨t, ht, hat, htq⟩ := h.takeP hnodup
          refine ⟨t, x, P, y :: L, by rw [if_pos hle, ht], hat, ?_, ?_, ?_⟩
          · rw [if_pos (by simpa [compLe] using hle), htq, hk, List.take_succ_cons]
          · rw [htq, hk]
          · simp only [htq, hk, List.length_cons]
            omega
        · obtain ⟨t, ht, hat, htq⟩ := h.takeQ hnodup
          refine ⟨t, y, x :: P, L, by rw [if_neg hle, ht], hat, ?_, ?_, ?_⟩
          · rw [if_neg (by simpa [compLe] using hle), htq, hk, Nat.add_sub_cancel]
          · rw [htq, hk, Nat.add_sub_cancel, List.drop_succ_cons]
          · simp only [htq, hk, List.length_cons]
            omega

/-- The merge loop merges the two runs behind what is merged already. -/
theorem Merging.At.merge {listComp : α → α → Int} (hnodup : whole.Nodup)
    (h : s.At nodes₀ whole out P L) (turns : Nat) :
    Ends (whileLoop Merging.unmerged (Merging.turn listComp) turns s)
      (fun t => t.At nodes₀ whole
        (out ++ List.merge P (L.take s.qsize) (compLe fun a b => listComp a.2 b.2)) []
        (L.drop s.qsize))
      (fun e => e = .unfinished ∧ turns ≤ P.length + s.qsize) := by
  refine Ends.mono (Ends.loop (X := fun _ => False) (k := P.length + s.qsize)
    (I := fun k t => ∃ out' P' L', t.At nodes₀ whole out' P' L'
      ∧ out' ++ List.merge P' (L'.take t.qsize) (compLe fun a b => listComp a.2 b.2)
        = out ++ List.merge P (L.take s.qsize) (compLe fun a b => listComp a.2 b.2)
      ∧ L'.drop t.qsize = L.drop s.qsize ∧ k = P'.length + t.qsize)
    (fun k t ht hmore => ?_) ⟨out, P, L, h, rfl, rfl, rfl⟩) (fun t ht => ?_)
    fun e he => he.resolve_left id
  · obtain ⟨out', P', L', hat, hmerge, hdrop, rfl⟩ := ht
    obtain ⟨u, x, P'', L'', hturn, hat', hnext, hrest, hless⟩ := hat.turn hnodup hmore
    rw [hturn]
    refine ⟨_, hless, out' ++ [x], P'', L'', hat', ?_, hrest.trans hdrop, rfl⟩
    rw [← hmerge, hnext, List.append_assoc]
    rfl
  · obtain ⟨hdone, -, out', P', L', hat, hmerge, hdrop, -⟩ := ht
    obtain ⟨hzero, hq⟩ : t.psize = 0 ∧ (t.qsize = 0 ∨ t.q = none) := by
      simpa [Merging.unmerged, imp_iff_not_or] using hdone
    obtain rfl : P' = [] := List.eq_nil_of_length_eq_zero (hat.psize ▸ hzero)
    obtain ⟨htake, hdrop'⟩ : L'.take t.qsize = [] ∧ L'.drop t.qsize = L' := by
      rcases hq with hzero | hnone
      · simp [hzero]
      · have hright := hat.right
        rw [hnone] at hright
        simp [hright.unique (.nil none)]
    simp only [htake, List.nil_merge, List.append_nil] at hmerge
    rw [← hmerge, ← hdrop, hdrop']
    exact hat

end Merge

/-! ## The pass -/

/-- `q` after the first run: `psize` counts the nodes it has passed. -/
theorem stepAlongNodes_eq {nodes : Nodes α} : ∀ (i psize : Nat) {p : Ptr} {l : List (Nat × α)},
    Seg nodes p l none → l ≠ [] →
      ∃ q, stepAlongNodes nodes i psize p = .ok (psize + min i l.length, q)
        ∧ Seg nodes p (l.take i) q ∧ Seg nodes q (l.drop i) none
  | 0, psize, p, l, h, _ => ⟨p, by simp [stepAlongNodes], by simpa using .nil p, by simpa using h⟩
  | i + 1, psize, p, [], _, hne => absurd rfl hne
  | i + 1, psize, p, (a, x) :: l, h, _ => by
      obtain ⟨rfl, n, ha, hl⟩ := h.cons_inv
      rcases n with _ | b
      · obtain rfl : l = [] := hl.unique (.nil none)
        refine ⟨none, ?_, by simpa using h, by simpa using .nil none⟩
        simp only [stepAlongNodes, readNode_eq ha]
        simp
        rfl
      · have hne : l ≠ [] := by
          rintro rfl
          cases hl
        obtain ⟨q, hstep, hrun, hrest⟩ := stepAlongNodes_eq i (psize + 1) hl hne
        refine ⟨q, ?_, .cons ha hrun, hrest⟩
        simp only [stepAlongNodes, readNode_eq ha]
        have hmin : psize + 1 + min i l.length = psize + min (i + 1) (l.length + 1) := by omega
        exact hstep.trans (by rw [hmin, List.length_cons])

/-- The nodes `whole` are split between the merged list and the list from `p`
on; no other node has changed. -/
structure Passing.At (nodes₀ : Nodes α) (whole : List Nat) (out L : List (Nat × α))
    (s : Passing α) : Prop where
  holds : s.merged.Holds out
  left : Seg s.merged.nodes s.p L none
  perm : (addrs out ++ addrs L).Perm whole
  frame : ∀ b ∉ whole, s.merged.nodes b = nodes₀ b

section Pass

variable {nodes₀ : Nodes α} {whole : List Nat} {out L : List (Nat × α)} {s : Passing α}

/-- A turn of the pass appends the merge of the next two runs. -/
theorem Passing.At.turn {listComp : α → α → Int} (hnodup : whole.Nodup) (turns insize : Nat)
    (h : s.At nodes₀ whole out L) (hne : L ≠ []) :
    Ends (s.turn listComp turns insize)
      (fun t => t.At nodes₀ whole
          (out ++ List.merge (L.take insize) ((L.drop insize).take insize)
            (compLe fun a b => listComp a.2 b.2)) (L.drop (2 * insize))
        ∧ t.nmerges = s.nmerges + 1 ∧ s.nmerges + 1 < 2 ^ 31)
      (fun e => e = .fault .overflow ∧ 2 ^ 31 ≤ s.nmerges + 1
        ∨ e = .unfinished ∧ turns ≤ 2 * insize) := by
  rw [Passing.turn]
  by_cases hint : s.nmerges + 1 < 2 ^ 31
  · obtain ⟨q, hstep, hrun, hrest⟩ := stepAlongNodes_eq insize 0 h.left hne
    rw [checkedInt, if_pos hint, ok_bind, hstep, ok_bind]
    have hat : Merging.At nodes₀ whole out (L.take insize) (L.drop insize)
        { merged := s.merged, p := s.p, psize := 0 + min insize L.length, q, qsize := insize } := by
      refine ⟨h.holds, ⟨q, hrun⟩, by simp, hrest, ?_, h.frame⟩
      rw [← addrs_append, List.take_append_drop]
      exact h.perm
    have hmerge := @Merging.At.merge _ _ _ _ _ _ _ listComp hnodup hat turns
    simp only [List.drop_drop, ← Nat.two_mul] at hmerge
    refine Ends.bind (hmerge.mono (fun _ ht => ht) fun e he => .inr ⟨he.1, ?_⟩) fun m hm => ?_
    · have hturns := he.2
      rw [List.length_take] at hturns
      omega
    · refine ⟨⟨hm.holds, hm.right, ?_, hm.frame⟩, rfl, hint⟩
      simpa only [addrs_nil, List.nil_append] using hm.perm
  · rw [checkedInt, if_neg hint]
    exact .inl ⟨rfl, Nat.le_of_not_lt hint⟩

/-- The pass builds the list of `sortPass`, in as many merges, or has more
merges than `nmerges` can count. -/
theorem Passing.pass {listComp : α → α → Int} (hnodup : whole.Nodup) (turns : Nat)
    {insize : Nat} (hin : 0 < insize) {nodes : Nodes α} {list : Ptr} (h : Seg nodes list L none)
    (hwhole : addrs L = whole) (hnodes : ∀ b ∉ whole, nodes b = nodes₀ b) :
    Ends (whileLoop (fun s => s.p.isSome) (Passing.turn listComp turns insize) turns
        { merged := { nodes, list := none, tail := none }, p := list, nmerges := 0 })
      (fun t => t.At nodes₀ whole
          (sortPass (fun a b => listComp a.2 b.2) insize L.length L).1 []
        ∧ t.nmerges = (sortPass (fun a b => listComp a.2 b.2) insize L.length L).2)
      (fun e => e = .fault .overflow
          ∧ 2 ^ 31 ≤ (sortPass (fun a b => listComp a.2 b.2) insize L.length L).2
        ∨ e = .unfinished ∧ (turns ≤ 2 * insize ∨ turns ≤ L.length)) := by
  refine Ends.mono (Ends.loop (k := L.length)
    (X := fun e => e = .fault .overflow
        ∧ 2 ^ 31 ≤ (sortPass (fun a b => listComp a.2 b.2) insize L.length L).2
      ∨ e = .unfinished ∧ turns ≤ 2 * insize)
    (I := fun k t => ∃ out' L', t.At nodes₀ whole out' L' ∧ L'.length ≤ k
      ∧ out' ++ (sortPass (fun a b => listComp a.2 b.2) insize k L').1
        = (sortPass (fun a b => listComp a.2 b.2) insize L.length L).1
      ∧ t.nmerges + (sortPass (fun a b => listComp a.2 b.2) insize k L').2
        = (sortPass (fun a b => listComp a.2 b.2) insize L.length L).2)
    (fun k t ht hmore => ?_)
    ⟨[], L, ⟨.empty rfl rfl, h, by simp [hwhole], hnodes⟩, Nat.le_refl _, rfl, by simp⟩)
    (fun t ht => ?_) fun e he => ?_
  · obtain ⟨out', L', hat, hlen, hlist, hmerges⟩ := ht
    rcases L' with _ | ⟨e, L'⟩
    · rw [hat.left.nil_inv] at hmore
      cases hmore
    · obtain ⟨k, rfl⟩ : ∃ n, k = n + 1 := ⟨k - 1, by simp only [List.length_cons] at hlen; omega⟩
      rw [sortPass_cons] at hlist hmerges
      refine (hat.turn hnodup turns insize (List.cons_ne_nil _ _)).mono (fun u hu => ?_)
        fun e he => ?_
      · obtain ⟨hat', hcount, -⟩ := hu
        refine ⟨k, Nat.lt_succ_self k, _, _, hat', ?_, ?_, ?_⟩
        · simp only [List.length_cons, List.length_drop] at hlen ⊢
          omega
        · rw [List.append_assoc]
          exact hlist
        · rw [hcount, ← hmerges]
          omega
      · refine he.imp_left fun ⟨hover, hcount⟩ => ⟨hover, ?_⟩
        rw [← hmerges]
        omega
  · obtain ⟨hdone, k, out', L', hat, -, hlist, hmerges⟩ := ht
    have hleft := hat.left
    rw [Option.isSome_eq_false_iff, Option.isNone_iff_eq_none] at hdone
    rw [hdone] at hleft
    obtain rfl : L' = [] := hleft.unique (.nil none)
    have hnil : sortPass (fun a b : Nat × α => listComp a.2 b.2) insize k [] = ([], 0) := by
      cases k <;> rfl
    rw [hnil] at hlist hmerges
    rw [← hlist, List.append_nil]
    exact ⟨hat, by simpa using hmerges⟩
  · rcases he with (hover | hturns) | hturns
    · exact .inl hover
    · exact .inr ⟨hturns.1, .inl hturns.2⟩
    · exact .inr ⟨hturns.1, .inr hturns.2⟩

end Pass

/-! ## The sort -/

/-- The passes relink the nodes into the list of `sortPasses`, and stop when
`insize` or `nmerges` would pass `INT_MAX`: that is with more than `2 ^ 31`
nodes. -/
theorem sortNodes_ends {listComp : α → α → Int} {nodes₀ : Nodes α} {whole : List Nat}
    (hnodup : whole.Nodup) (turns : Nat) :
    ∀ {k n j : Nat} {nodes : Nodes α} {list : Ptr} {L : List (Nat × α)},
      Seg nodes list L none → (addrs L).Perm whole → (∀ b ∉ whole, nodes b = nodes₀ b) → L ≠ [] →
      j ≤ 30 → 2 ^ j ≤ L.length → L.length ≤ 2 ^ j * 2 ^ n → 0 < n →
      Ends (sortNodes listComp turns k (2 ^ j) nodes list)
        (fun r => Seg r.1 r.2 (sortPasses (fun a b => listComp a.2 b.2) n (2 ^ j) L) none
          ∧ (∀ b ∉ whole, r.1 b = nodes₀ b) ∧ L.length ≤ 2 ^ 31)
        (fun e => e = .fault .overflow ∧ 2 ^ 31 < L.length
          ∨ e = .unfinished ∧ (turns ≤ 2 * L.length ∨ k < n))
  | 0, n, j, nodes, list, L, _, _, _, _, _, _, _, hn => .inr ⟨rfl, .inr hn⟩
  | k + 1, n + 1, j, nodes, list, L, h, hperm, hframe, hne, hj, hle, hlen, _ => by
      have hin : 0 < 2 ^ j := Nat.two_pow_pos j
      have hint : 2 ^ j ≤ 2 ^ 30 := Nat.pow_le_pow_right (by decide) hj
      obtain ⟨hpass, hmerges, -⟩ := sortPass_spec (fun a b : Nat × α => listComp a.2 b.2) hin
        (Nat.le_refl L.length)
      have hbound := sortPass_merges (fun a b : Nat × α => listComp a.2 b.2) hin
        (Nat.le_refl L.length)
      have hloop := @Passing.pass _ nodes _ _ listComp h.nodup turns _ hin _ _ h rfl fun _ _ => rfl
      generalize hres : sortPass (fun a b : Nat × α => listComp a.2 b.2) (2 ^ j) L.length L = res
        at hpass hmerges hbound hloop
      obtain ⟨l', m⟩ := res
      dsimp only at hpass hmerges hbound hloop
      have hlen' : l'.length = L.length := hpass.perm.length_eq
      simp only [sortNodes, sortPasses, hres]
      refine Ends.bind (hloop.mono (fun _ hs => hs) fun e he => ?_) fun s hs => ?_
      · rcases he with ⟨hover, hcount⟩ | ⟨hstop, hturns⟩
        · refine .inl ⟨hover, ?_⟩
          have hmul : (2 ^ 31 - 1) * (2 * 2 ^ j) ≤ (m - 1) * (2 * 2 ^ j) :=
            Nat.mul_le_mul_right _ (by omega)
          rw [Nat.sub_mul m] at hmul
          omega
        · exact .inr ⟨hstop, .inl (by omega)⟩
      · obtain ⟨hat, hcount⟩ := hs
        have hne' : l' ≠ [] := by
          rintro rfl
          exact hne (List.eq_nil_of_length_eq_zero hlen'.symm)
        have hperm' : (addrs l').Perm (addrs L) := by simpa using hat.perm
        obtain ⟨nodes', hclose, hseg, hkept⟩ :=
          hat.holds.close hne' (hperm'.nodup_iff.mpr h.nodup)
        have hframe' : ∀ b ∉ whole, nodes' b = nodes₀ b := by
          intro b hb
          have hbL : b ∉ addrs L := fun hmem => hb (hperm.subset hmem)
          rw [hkept b fun hmem => hbL (hperm'.subset hmem), hat.frame b hbL, hframe b hb]
        rw [hclose, ok_bind, hcount]
        by_cases hone : m ≤ 1
        · rw [if_pos hone]
          have hlong : L.length ≤ 2 * 2 ^ j := hmerges.mp hone
          refine ⟨?_, hframe', by omega⟩
          rw [if_pos hone]
          exact hseg
        · rw [if_neg hone]
          have hlong : ¬ L.length ≤ 2 * 2 ^ j := fun hh => hone (hmerges.mpr hh)
          rw [if_neg hone, ← Nat.pow_succ]
          by_cases hj' : j < 30
          · have hlt : 2 ^ (j + 1) < 2 ^ 31 := Nat.pow_lt_pow_right (by decide) (by omega)
            rw [checkedInt, if_pos hlt, ok_bind, ← hlen']
            refine (sortNodes_ends hnodup turns hseg (hperm'.trans hperm) hframe' hne' hj' ?_ ?_
              ?_).mono (fun _ hr => hr) fun e he => ?_
            · rw [Nat.pow_succ]
              omega
            · rw [hlen', Nat.pow_succ, Nat.mul_assoc, ← Nat.pow_succ']
              exact hlen
            · rcases n with _ | n
              · rw [Nat.pow_one] at hlen
                omega
              · exact Nat.succ_pos n
            · exact he.imp_right fun hstop => ⟨hstop.1, hstop.2.imp_right (by omega)⟩
          · obtain rfl : j = 30 := by omega
            exact .inl ⟨rfl, by omega⟩

section Llist

variable {listComp : α → α → Int} {nodes : Nodes α} {tempHead : Nat} {x : α}
  {items : List (Nat × α)}

/-- `PINT_llist_sort` on the nodes is `pintLlistSort` on the items, as long as
its counters hold. -/
theorem pintLlistSortNodes_ends (turns : Nat)
    (h : Seg nodes (some tempHead) ((tempHead, x) :: items) none) (hne : items ≠ []) :
    Ends (pintLlistSortNodes listComp turns nodes (some tempHead))
      (fun r => r.2 = some tempHead ∧ (∃ items',
          pintLlistSort (some items) (fun a b => listComp a.2 b.2) = some items'
            ∧ Seg r.1 (some tempHead) ((tempHead, x) :: items') none)
        ∧ (∀ b ∉ tempHead :: addrs items, r.1 b = nodes b) ∧ items.length ≤ 2 ^ 31)
      (fun e => e = .fault .overflow ∧ 2 ^ 31 < items.length
        ∨ e = .unfinished ∧ turns ≤ 2 * items.length) := by
  obtain ⟨-, list, hhead, hitems⟩ := h.cons_inv
  obtain ⟨hout, hnodup⟩ := List.nodup_cons.mp h.nodup
  have hlist : list ≠ none := by
    rintro rfl
    exact hne (hitems.unique (.nil none))
  have hsort := @sortNodes_ends _ listComp nodes _ hnodup turns turns items.length 0 _ _ _ hitems
    (List.Perm.refl _) (fun _ _ => rfl) hne (by decide) (List.length_pos_iff.mpr hne) ?_
    (List.length_pos_iff.mpr hne)
  · rw [pintLlistSortNodes, readNode_eq hhead, ok_bind, if_neg hlist]
    refine Ends.bind (hsort.mono (fun _ hr => hr) fun e he => ?_) fun r hr => ?_
    · exact he.imp_right fun ⟨hstop, hless⟩ => ⟨hstop, by omega⟩
    · obtain ⟨nodes', list'⟩ := r
      obtain ⟨hseg, hframe, hlen⟩ := hr
      have hperm := sortPasses_perm (fun a b : Nat × α => listComp a.2 b.2) items.length items
        Nat.one_pos
      generalize hitems' : sortPasses (fun a b : Nat × α => listComp a.2 b.2) items.length 1 items
        = items' at hseg hperm
      have hhead' : nodes' tempHead = some ⟨x, list⟩ := (hframe tempHead hout).trans hhead
      have hout' : tempHead ∉ addrs items' := fun hmem => hout ((hperm.map Prod.fst).subset hmem)
      simp only [writeNext_eq hhead', ok_bind]
      refine ⟨rfl, ⟨items', ?_, .cons (Nodes.setNext_self hhead') (hseg.setNext hout')⟩, ?_, hlen⟩
      · cases items with
        | nil => exact absurd rfl hne
        | cons a items => rw [← hitems']; rfl
      · intro b hb
        rw [List.mem_cons, not_or] at hb
        rw [← hframe b hb.2]
        exact Nodes.setNext_of_ne hb.1
  · rw [Nat.pow_zero, Nat.one_mul]
    exact Nat.le_of_lt Nat.lt_two_pow_self

/-- **`PINT_llist_sort` sorts the nodes behind the sentinel in place and
stably, exactly when they are at most `2 ^ 31`.** -/
theorem llist_sort_nodes (hcomp : TotalPreorder (compLe listComp))
    (h : Seg nodes (some tempHead) ((tempHead, x) :: items) none) (hne : items ≠ []) :
    (∃ turns nodes' items',
        pintLlistSortNodes listComp turns nodes (some tempHead) = .ok (nodes', some tempHead)
          ∧ Seg nodes' (some tempHead) ((tempHead, x) :: items') none
          ∧ StableSorted (compLe fun a b => listComp a.2 b.2) items items')
      ↔ items.length ≤ 2 ^ 31 := by
  constructor
  · rintro ⟨turns, nodes', items', hsort, -, -⟩
    exact ((pintLlistSortNodes_ends turns h hne).of_ok hsort).2.2.2
  · intro hlen
    have hends := @pintLlistSortNodes_ends _ listComp _ _ _ _ (2 * items.length + 1) h hne
    obtain ⟨⟨nodes', list'⟩, hsort, rfl, ⟨items', hitems', hseg⟩, -, -⟩ :=
      hends.exists_ok fun e he => by omega
    have hcomp' : TotalPreorder (compLe fun a b : Nat × α => listComp a.2 b.2) :=
      ⟨fun a b c => hcomp.trans a.2 b.2 c.2, fun a b => hcomp.total a.2 b.2⟩
    obtain ⟨l', hl', hstable⟩ := pintLlistSort_spec hcomp' hne
    obtain rfl : items' = l' := Option.some.inj (hitems'.symm.trans hl')
    exact ⟨_, nodes', items', hsort, hseg, hstable⟩

end Llist

/-- Three nodes behind the sentinel. -/
theorem llist_sort_nodes_example :
    ∃ turns nodes' items', pintLlistSortNodes (fun a b : Int => a - b) turns
        (Nodes.row 3 fun a => 3 - (a : Int)) (some 0) = .ok (nodes', some 0)
      ∧ Seg nodes' (some 0) ((0, 3) :: items') none
      ∧ StableSorted (compLe fun a b => a.2 - b.2) [(1, 2), (2, 1), (3, 0)] items' :=
  (llist_sort_nodes (totalPreorder_sub id) (Seg.row (fun a => 3 - (a : Int)) 3 0 rfl)
    (List.cons_ne_nil _ _)).mpr (by decide)

/-- With one node more than `2 ^ 31` the doubling of `insize` overflows,
however many turns the loops are given. -/
theorem llist_sort_nodes_overflow :
    ∃ items, items.length = 2 ^ 31 + 1
      ∧ Seg (Nodes.row (2 ^ 31 + 1) fun a => (a : Int)) (some 0) ((0, 0) :: items) none
      ∧ ∀ turns r, pintLlistSortNodes (fun a b : Int => a - b) turns
          (Nodes.row (2 ^ 31 + 1) fun a => (a : Int)) (some 0) ≠ .ok r := by
  generalize hn : 2 ^ 31 + 1 = n
  have hseg := Seg.row (fun a => (a : Int)) n 0 (Nat.zero_add n)
  rw [List.range'_succ, List.map_cons] at hseg
  generalize hitems : (List.range' (0 + 1) n).map (fun a : Nat => (a, (a : Int))) = items at hseg
  have hlen : items.length = n := by simp [← hitems]
  refine ⟨items, hlen, hseg, fun turns r hsort => ?_⟩
  have hne : items ≠ [] := by
    rw [← List.length_pos_iff]
    omega
  have hle := ((pintLlistSortNodes_ends turns hseg hne).of_ok hsort).2.2.2
  omega

/-! ## `PINT_llist_rem` -/

/-- The loop of `PINT_llist_rem`, from the node before the one it looks at. -/
def remFrom (comp : α → Except LlistStop Int) :
    Nat → Nodes α → Ptr → Except LlistStop (Option α × Nodes α)
  | 0, _, _ => .error .unfinished
  | n + 1, nodes, lP => do
    let node ← readNode nodes lP
    match node.next with
    | none => return (none, nodes)
    | some remP => do
      let rem ← readNode nodes (some remP)
      let differs ← comp rem.item
      if differs = 0 then
        let nodes ← writeNext nodes lP rem.next
        return (some rem.item, nodes.free remP)
      else remFrom comp n nodes (some remP)

/-- `PINT_llist_rem` with the comparison at its key, for at most `turns`
nodes; the item is `none` where the source returns NULL. -/
def pintLlistRemNodes (comp : α → Except LlistStop Int) (turns : Nat) (nodes : Nodes α) :
    Ptr → Except LlistStop (Option α × Nodes α)
  | none => .ok (none, nodes)
  | some lP => do
    let head ← readNode nodes (some lP)
    if head.next = none then return (none, nodes)
    remFrom comp turns nodes (some lP)

section Rem

variable {comp : α → Except LlistStop Int} {f : α → Bool}

/-- What removing the first match leaves behind a node `a`. -/
structure Removed (f : α → Bool) (nodes : Nodes α) (a : Nat) (x : α) (l : List (Nat × α))
    (r : Option α × Nodes α) : Prop where
  item : r.1 = (l.find? fun y => f y.2).map Prod.snd
  list : Seg r.2 (some a) ((a, x) :: l.eraseP fun y => f y.2) none
  gone : ∀ y, l.find? (fun y => f y.2) = some y → r.2 y.1 = none
  frame : ∀ b ∉ a :: addrs l, r.2 b = nodes b

theorem remFrom_ends {nodes : Nodes α} : ∀ {turns : Nat} {a : Nat} {x : α} {l : List (Nat × α)},
    (∀ y ∈ l, comp y.2 = .ok (if f y.2 then 0 else 1)) →
      Seg nodes (some a) ((a, x) :: l) none →
      Ends (remFrom comp turns nodes (some a)) (Removed f nodes a x l)
        (fun e => e = .unfinished ∧ turns ≤ l.length)
  | 0, a, x, l, _, _ => ⟨rfl, Nat.zero_le _⟩
  | turns + 1, a, x, [], _, h => by
      obtain ⟨-, n, ha, hn⟩ := h.cons_inv
      obtain rfl := hn.nil_inv
      rw [remFrom, readNode_eq ha, ok_bind]
      exact ⟨rfl, h, fun y hy => by simp at hy, fun _ _ => rfl⟩
  | turns + 1, a, x, (b, y) :: l, hcomp, h => by
      obtain ⟨-, n, ha, hl⟩ := h.cons_inv
      obtain ⟨rfl, m, hb, hrest⟩ := hl.cons_inv
      have hnodup := h.nodup
      simp only [addrs_cons, List.nodup_cons, List.mem_cons, not_or] at hnodup
      obtain ⟨⟨hab, hal⟩, hbl, -⟩ := hnodup
      have hhead : comp y = .ok (if f y then 0 else 1) := hcomp (b, y) (List.mem_cons_self ..)
      rw [remFrom, readNode_eq ha, ok_bind]
      simp only [readNode_eq hb, ok_bind, hhead]
      rcases hf : f y with _ | _
      · have ih := @remFrom_ends nodes turns b y l (fun z hz => hcomp z (List.mem_cons_of_mem _ hz))
          hl
        refine ih.mono (fun r hr => ?_) fun e he => ⟨he.1, Nat.succ_le_succ he.2⟩
        have hkept : r.2 a = nodes a := hr.frame a (by simp [hab, hal])
        refine ⟨?_, ?_, fun z hz => hr.gone z ?_, fun c hc => hr.frame c ?_⟩
        · simpa [hf] using hr.item
        · simpa [hf] using Seg.cons (hkept.trans ha) hr.list
        · simpa [hf] using hz
        · exact fun hmem => hc (List.mem_cons_of_mem _ hmem)
      · have ha' : (nodes.setNext a m).free b a = some ⟨x, m⟩ :=
          (Nodes.free_of_ne hab).trans (Nodes.setNext_self ha)
        simp only [if_true, writeNext_eq ha, ok_bind]
        refine ⟨by simp [hf], ?_, fun z hz => ?_, fun c hc => ?_⟩
        · simpa [hf] using Seg.cons ha' ((hrest.setNext hal).free hbl)
        · obtain rfl : (b, y) = z := by simpa [hf] using hz
          exact Nodes.free_self _ b
        · simp only [addrs_cons, List.mem_cons, not_or] at hc
          exact (Nodes.free_of_ne hc.2.1).trans (Nodes.setNext_of_ne hc.1)

/-- `PINT_llist_rem` on the nodes unlinks and frees the node of the item
`pintLlistRem` returns, and no other node is written. -/
theorem pintLlistRemNodes_ends {nodes : Nodes α} {a : Nat} {x : α} {l : List (Nat × α)}
    (hcomp : ∀ y ∈ l, comp y.2 = .ok (if f y.2 then 0 else 1))
    (h : Seg nodes (some a) ((a, x) :: l) none) (turns : Nat) :
    Ends (pintLlistRemNodes comp turns nodes (some a)) (Removed f nodes a x l)
      (fun e => e = .unfinished ∧ turns ≤ l.length) := by
  obtain ⟨-, n, ha, hl⟩ := h.cons_inv
  rw [pintLlistRemNodes, readNode_eq ha, ok_bind]
  rcases n with _ | b
  · obtain rfl : l = [] := hl.unique (.nil none)
    exact ⟨rfl, h, fun y hy => by simp at hy, fun _ _ => rfl⟩
  · exact remFrom_ends hcomp h

end Rem

end PvfsProxy
