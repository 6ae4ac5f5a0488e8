import Mathlib.Algebra.Order.BigOperators.Group.List
import Mathlib.Data.List.Count
import Mathlib.Data.List.Sort
import PvfsProxy.Heap

/-!
# The shape of the binomial heap

Every tree of degree `k` is binomial: its children have the degrees from `k - 1`
down to 0, and it holds `2 ^ k` values. The roots have increasing degrees, so that
there are no more of them than a logarithm of the number of values.

Merging two root lists leaves each degree twice at most. The loop of
`__heap_union` then meets a degree three times at most, with the tree it has just
linked; it passes over the first of three and links the other two.
-/

namespace PvfsProxy

variable {α : Type}

inductive HeapNode.Binomial : HeapNode α → Prop where
  | mk {value : α} {degree : Nat} {child : List (HeapNode α)}
      (hchild : ∀ c ∈ child, c.Binomial)
      (hdegrees : child.map HeapNode.degree = (List.range degree).reverse) :
      Binomial (.mk value degree child)

namespace HeapNode

variable {h root sub : HeapNode α}

theorem Binomial.leaf (value : α) : Binomial (.mk value 0 []) :=
  .mk (fun c hc => by cases hc) rfl

theorem Binomial.child (hb : h.Binomial) : ∀ c ∈ h.child, c.Binomial := by
  cases hb with
  | mk hchild _ => exact hchild

theorem Binomial.degrees (hb : h.Binomial) :
    h.child.map HeapNode.degree = (List.range h.degree).reverse := by
  cases hb with
  | mk _ hdegrees => exact hdegrees

/-- Two trees of one degree are linked to one of the next. -/
theorem Binomial.link (hroot : root.Binomial) (hsub : sub.Binomial)
    (hdegree : root.degree = sub.degree) : (heapLink root sub).Binomial := by
  refine .mk (List.forall_mem_cons.mpr ⟨hsub, hroot.child⟩) ?_
  rw [List.map_cons, hroot.degrees, List.range_succ, List.reverse_concat, hdegree]

theorem degree_heapLink : (heapLink root sub).degree = root.degree + 1 := rfl

end HeapNode

theorem sum_two_pow_range (n : Nat) : ((List.range n).map (2 ^ ·)).sum + 1 = 2 ^ n := by
  induction n with
  | zero => rfl
  | succ n ih =>
      rw [List.range_succ, List.map_append, List.sum_append, Nat.pow_succ]
      simp only [List.map_cons, List.map_nil, List.sum_cons, List.sum_nil]
      omega

theorem length_forestValues : ∀ {roots : List (HeapNode α)},
    (∀ h ∈ roots, h.values.length = 2 ^ h.degree) →
    (forestValues roots).length = ((roots.map HeapNode.degree).map (2 ^ ·)).sum
  | [], _ => by simp [forestValues]
  | h :: roots, hsize => by
      rw [List.forall_mem_cons] at hsize
      rw [forestValues, List.length_append, hsize.1, length_forestValues hsize.2, List.map_cons,
        List.map_cons, List.sum_cons]

/-- A tree of degree `k` holds `2 ^ k` values. -/
theorem HeapNode.Binomial.size {h : HeapNode α} (hb : h.Binomial) :
    h.values.length = 2 ^ h.degree := by
  induction hb with
  | @mk value degree child hchild hdegrees ih =>
      have hsum := sum_two_pow_range degree
      rw [HeapNode.values, List.length_cons, length_forestValues ih, hdegrees, List.map_reverse,
        List.sum_reverse, hsum]
      rfl

/-! ## Root lists -/

/-- The degrees of the roots increase. -/
def Ascending (roots : List (HeapNode α)) : Prop := (roots.map HeapNode.degree).Pairwise (· < ·)

/-- The degrees do not decrease, and none is there more than twice. -/
structure Twice (roots : List (HeapNode α)) : Prop where
  sorted : (roots.map HeapNode.degree).Pairwise (· ≤ ·)
  count : ∀ k, (roots.map HeapNode.degree).count k ≤ 2

theorem Twice.tail {h : HeapNode α} {roots : List (HeapNode α)} (ht : Twice (h :: roots)) :
    Twice roots where
  sorted := (List.pairwise_cons.mp ht.sorted).2
  count k := (List.count_le_count_cons ..).trans (ht.count k)

theorem Twice.le {h : HeapNode α} {roots : List (HeapNode α)} (ht : Twice (h :: roots)) :
    ∀ r ∈ roots, h.degree ≤ r.degree := by
  intro r hr
  exact (List.pairwise_cons.mp ht.sorted).1 _ (List.mem_map_of_mem hr)

/-- Behind two trees of one degree the degrees are larger. -/
theorem Twice.lt {a b : HeapNode α} {roots : List (HeapNode α)} (ht : Twice (a :: b :: roots))
    (hab : a.degree = b.degree) : ∀ r ∈ roots, b.degree < r.degree := by
  intro r hr
  rcases Nat.lt_or_eq_of_le (ht.tail.le r hr) with hlt | heq
  · exact hlt
  · have hcount := ht.count b.degree
    have hpos : 0 < (roots.map HeapNode.degree).count b.degree :=
      List.count_pos_iff.mpr (List.mem_map.mpr ⟨r, hr, heq.symm⟩)
    rw [List.map_cons, List.map_cons, hab, List.count_cons_self, List.count_cons_self] at hcount
    omega

theorem heapMergeLoop_sorted {a : HeapNode α} {as : List (HeapNode α)}
    {rest : List (HeapNode α) → List (HeapNode α)}
    (hperm : ∀ bs, (rest bs).Perm (as ++ bs))
    (hrest : ∀ bs, (bs.map HeapNode.degree).Pairwise (· ≤ ·) →
      ((rest bs).map HeapNode.degree).Pairwise (· ≤ ·))
    (ha : ∀ c ∈ as, a.degree ≤ c.degree) :
    ∀ bs, (bs.map HeapNode.degree).Pairwise (· ≤ ·) →
      ((heapMergeLoop a rest bs).map HeapNode.degree).Pairwise (· ≤ ·)
  | [], hbs => by
      rw [heapMergeLoop, List.map_cons, List.pairwise_cons]
      refine ⟨?_, hrest [] hbs⟩
      intro k hk
      obtain ⟨c, hc, rfl⟩ := List.mem_map.mp hk
      rw [(hperm []).mem_iff, List.append_nil] at hc
      exact ha c hc
  | b :: bs, hbs => by
      have hb : ∀ c ∈ bs, b.degree ≤ c.degree := fun c hc =>
        (List.pairwise_cons.mp hbs).1 _ (List.mem_map_of_mem hc)
      rw [heapMergeLoop]
      split
      · rename_i hlt
        rw [List.map_cons, List.pairwise_cons]
        refine ⟨?_, hrest (b :: bs) hbs⟩
        intro k hk
        obtain ⟨c, hc, rfl⟩ := List.mem_map.mp hk
        rw [(hperm _).mem_iff, List.mem_append, List.mem_cons] at hc
        rcases hc with hc | rfl | hc
        · exact ha c hc
        · exact hlt.le
        · exact hlt.le.trans (hb c hc)
      · rename_i hge
        rw [List.map_cons, List.pairwise_cons]
        refine ⟨?_, heapMergeLoop_sorted hperm hrest ha bs (List.pairwise_cons.mp hbs).2⟩
        intro k hk
        obtain ⟨c, hc, rfl⟩ := List.mem_map.mp hk
        rw [(heapMergeLoop_perm hperm bs).mem_iff, List.mem_append, List.mem_cons] at hc
        have hle : b.degree ≤ a.degree := Nat.le_of_not_lt hge
        rcases hc with (rfl | hc) | hc
        · exact hle
        · exact hle.trans (ha c hc)
        · exact hb c hc

theorem heapMerge_sorted : ∀ {as bs : List (HeapNode α)},
    (as.map HeapNode.degree).Pairwise (· ≤ ·) → (bs.map HeapNode.degree).Pairwise (· ≤ ·) →
    ((heapMerge as bs).map HeapNode.degree).Pairwise (· ≤ ·)
  | [], _, _, hbs => hbs
  | a :: as, bs, has, hbs => by
      obtain ⟨ha, has⟩ := List.pairwise_cons.mp has
      exact heapMergeLoop_sorted (heapMerge_perm as) (fun cs hcs => heapMerge_sorted has hcs)
        (fun c hc => ha _ (List.mem_map_of_mem hc)) bs hbs

theorem heapMerge_twice {as bs : List (HeapNode α)} (has : Ascending as) (hbs : Ascending bs) :
    Twice (heapMerge as bs) where
  sorted := heapMerge_sorted (has.imp Nat.le_of_lt) (hbs.imp Nat.le_of_lt)
  count k := by
    have hone : ∀ {cs : List (HeapNode α)}, Ascending cs → (cs.map HeapNode.degree).count k ≤ 1 :=
      fun hcs => List.nodup_iff_count_le_one.mp (hcs.imp Nat.ne_of_lt) k
    have ha := hone has
    have hb := hone hbs
    rw [((heapMerge_perm as bs).map HeapNode.degree).count_eq, List.map_append, List.count_append]
    omega

theorem ascending_concat {done : List (HeapNode α)} {x : HeapNode α}
    (hdone : Ascending done.reverse) (hlt : ∀ d ∈ done, d.degree < x.degree) :
    Ascending (done.reverse ++ [x]) := by
  unfold Ascending
  rw [List.map_append, List.pairwise_append]
  refine ⟨hdone, List.pairwise_singleton _ _, ?_⟩
  intro k hk m hm
  obtain ⟨d, hd, rfl⟩ := List.mem_map.mp hk
  rw [List.map_singleton, List.mem_singleton] at hm
  rw [hm]
  exact hlt d (List.mem_reverse.mp hd)

/-- A tree linked to the next degree may stand behind what stood before the two. -/
theorem linked_lt {done : List (HeapNode α)} {x a b : HeapNode α}
    (hle : ∀ d ∈ done, d.degree ≤ x.degree) (ha : a.degree = x.degree) :
    ∀ d ∈ done, d.degree < (heapLink a b).degree := by
  intro d hd
  have := hle d hd
  rw [HeapNode.degree_heapLink]
  omega

/-- **The loop of `__heap_union`.** The trees before `x` have smaller degrees, or
the last of them has the degree of `x` and `x` is about to be linked. -/
theorem heapUnionLoop_shape (higherPrio : α → α → Bool) :
    ∀ {rest done : List (HeapNode α)} {x : HeapNode α},
      (∀ h ∈ done, h.Binomial) → x.Binomial → (∀ h ∈ rest, h.Binomial) →
      Ascending done.reverse → Twice rest →
      ((∀ d ∈ done, d.degree < x.degree) ∧ (∀ r ∈ rest, x.degree ≤ r.degree)
        ∨ (∀ d ∈ done, d.degree ≤ x.degree)
          ∧ ∃ next rest', rest = next :: rest' ∧ next.degree = x.degree
            ∧ ∀ r ∈ rest', x.degree < r.degree) →
      (∀ h ∈ heapUnionLoop higherPrio done x rest, h.Binomial)
        ∧ Ascending (heapUnionLoop higherPrio done x rest)
  | [], done, x, hdone, hx, _, hasc, _, hstate => by
      rcases hstate with ⟨hlt, -⟩ | ⟨-, next, rest', hnil, -⟩
      · refine ⟨?_, ascending_concat hasc hlt⟩
        intro h hh
        rcases List.mem_append.mp hh with hh | hh
        · exact hdone h (List.mem_reverse.mp hh)
        · rw [List.mem_singleton.mp hh]
          exact hx
      · cases hnil
  | next :: rest, done, x, hdone, hx, hrest, hasc, htwice, hstate => by
      obtain ⟨hnext, hrest⟩ := List.forall_mem_cons.mp hrest
      -- what a link of the two trees leads to
      have hlinked : next.degree = x.degree → (∀ d ∈ done, d.degree ≤ x.degree) →
          (∀ r ∈ rest, x.degree < r.degree) → ∀ a b : HeapNode α, a.Binomial → b.Binomial →
          a.degree = x.degree → b.degree = x.degree →
          (∀ h ∈ heapUnionLoop higherPrio done (heapLink a b) rest, h.Binomial)
            ∧ Ascending (heapUnionLoop higherPrio done (heapLink a b) rest) := by
        intro _ hle hgt a b ha hb hda hdb
        refine heapUnionLoop_shape higherPrio hdone (ha.link hb (hda.trans hdb.symm)) hrest hasc
          htwice.tail (.inl ⟨linked_lt hle hda, fun r hr => ?_⟩)
        have := hgt r hr
        rw [HeapNode.degree_heapLink]
        omega
      rw [heapUnionLoop]
      rcases hstate with ⟨hlt, hge⟩ | ⟨hle, n, rest', hcons, heq, hgt⟩
      · have hdone' : ∀ h ∈ x :: done, h.Binomial := List.forall_mem_cons.mpr ⟨hx, hdone⟩
        have hasc' : Ascending (x :: done).reverse := by
          rw [List.reverse_cons]
          exact ascending_concat hasc hlt
        have hxnext := hge next List.mem_cons_self
        have hnextle := htwice.le
        split
        · rename_i hadvance
          by_cases heq : x.degree = next.degree
          · -- the first of three trees of one degree is passed over
            refine heapUnionLoop_shape higherPrio hdone' hnext hrest hasc' htwice.tail
              (.inr ⟨?_, ?_⟩)
            · exact List.forall_mem_cons.mpr ⟨hxnext, fun d hd => (hlt d hd).le.trans hxnext⟩
            · cases rest with
              | nil => exact absurd hadvance (by simp [heq])
              | cons third rest =>
                  have hthird : third.degree = x.degree := by simpa [heq] using hadvance
                  have heq' : next.degree = third.degree := (hthird.trans heq).symm
                  have hbehind := htwice.lt heq'
                  refine ⟨third, rest, rfl, heq'.symm, fun r hr => ?_⟩
                  rw [heq']
                  exact hbehind r hr
          · refine heapUnionLoop_shape higherPrio hdone' hnext hrest hasc' htwice.tail
              (.inl ⟨?_, ?_⟩)
            · refine List.forall_mem_cons.mpr ⟨by omega, fun d hd => ?_⟩
              have := hlt d hd
              omega
            · exact hnextle
        · rename_i hlink
          rw [not_or, not_not] at hlink
          obtain ⟨heq, hhead⟩ := hlink
          have hgt : ∀ r ∈ rest, x.degree < r.degree := by
            cases rest with
            | nil => exact fun r hr => by cases hr
            | cons third rest =>
                have hne : third.degree ≠ x.degree := by simpa using hhead
                have hthird := hnextle third List.mem_cons_self
                intro r hr
                have hr' : third.degree ≤ r.degree := by
                  rcases List.mem_cons.mp hr with rfl | hr
                  · exact Nat.le_refl _
                  · exact htwice.tail.le r hr
                omega
          have hledone : ∀ d ∈ done, d.degree ≤ x.degree := fun d hd => (hlt d hd).le
          split
          · exact hlinked heq.symm hledone hgt x next hx hnext rfl heq.symm
          · exact hlinked heq.symm hledone hgt next x hnext hx heq.symm rfl
      · obtain ⟨rfl, rfl⟩ := List.cons.inj hcons
        have hno : ¬ (x.degree ≠ next.degree
            ∨ (rest.head?.any fun n => n.degree == x.degree) = true) := by
          rw [not_or, not_not]
          refine ⟨heq.symm, ?_⟩
          cases rest with
          | nil => simp
          | cons third rest =>
              have := hgt third List.mem_cons_self
              simp only [List.head?_cons, Option.any_some, beq_iff_eq]
              omega
        rw [if_neg hno]
        split
        · exact hlinked heq hle hgt x next hx hnext rfl heq
        · exact hlinked heq hle hgt next x hnext hx heq rfl

/-- The trees are binomial and their degrees increase. -/
structure ForestShape (roots : List (HeapNode α)) : Prop where
  binomial : ∀ h ∈ roots, h.Binomial
  ascending : Ascending roots

theorem ForestShape.nil : ForestShape ([] : List (HeapNode α)) :=
  ⟨fun h hh => (by cases hh), List.Pairwise.nil⟩

theorem ForestShape.leaf (value : α) : ForestShape [.mk value 0 []] where
  binomial h hh := by
    rw [List.mem_singleton.mp hh]
    exact .leaf value
  ascending := List.pairwise_singleton _ _

theorem ForestShape.union {head h2 : List (HeapNode α)} (hhead : ForestShape head)
    (hh2 : ForestShape h2) (higherPrio : α → α → Bool) :
    ForestShape (heapUnion higherPrio head h2) := by
  unfold heapUnion
  split
  · exact hhead
  split
  · exact hh2
  have hbinomial : ∀ h ∈ heapMerge head h2, h.Binomial := by
    intro h hh
    rw [(heapMerge_perm head h2).mem_iff, List.mem_append] at hh
    exact hh.elim (hhead.binomial h) (hh2.binomial h)
  have htwice := heapMerge_twice hhead.ascending hh2.ascending
  split
  · exact .nil
  · rename_i x next hmerge
    rw [hmerge] at hbinomial htwice
    obtain ⟨hx, hnext⟩ := List.forall_mem_cons.mp hbinomial
    have hdone : ∀ h ∈ ([] : List (HeapNode α)), h.Binomial := List.forall_mem_nil _
    obtain ⟨hb, ha⟩ := heapUnionLoop_shape higherPrio hdone hx hnext
      List.Pairwise.nil htwice.tail (.inl ⟨List.forall_mem_nil _, htwice.le⟩)
    exact ⟨hb, ha⟩

theorem ForestShape.extractMin {roots : List (HeapNode α)} (h : ForestShape roots)
    (higherPrio : α → α → Bool) : ForestShape (heapExtractMin higherPrio roots).1 := by
  cases roots with
  | nil => exact .nil
  | cons r roots =>
      have hmem : (r :: roots)[(heapMinLoop higherPrio r 0 1 roots).2]?
          = some (heapMinLoop higherPrio r 0 1 roots).1 := heapMinLoop_mem roots rfl rfl
      rw [heapExtractMin]
      generalize heapMinLoop higherPrio r 0 1 roots = found at hmem
      obtain ⟨node, at_⟩ := found
      have hnode := h.binomial node (List.mem_of_getElem? hmem)
      have hsub : List.Sublist ((r :: roots).eraseIdx at_) (r :: roots) := List.eraseIdx_sublist ..
      refine ForestShape.union ⟨?_, ?_⟩ ⟨?_, ?_⟩ higherPrio
      · exact fun c hc => h.binomial c (hsub.subset hc)
      · exact h.ascending.sublist (hsub.map _)
      · exact fun c hc => hnode.child c (List.mem_reverse.mp hc)
      · unfold Ascending
        rw [List.map_reverse, hnode.degrees, List.reverse_reverse]
        exact List.pairwise_lt_range

/-! ## Runs -/

/-- A call the schedulers make on a heap. -/
inductive HeapCall (α : Type) where
  | insert (value : α)
  | peek
  | take

def Heap.call (higherPrio : α → α → Bool) (heap : Heap α) : HeapCall α → Except Fault (Heap α)
  | .insert value => .ok (heapInsert higherPrio heap value)
  | .peek => .ok (heapPeek higherPrio heap).1
  | .take => (heapTake higherPrio heap).map Prod.fst

variable {higherPrio : α → α → Bool} {heap heap' : Heap α}

theorem heapInsert_shape (h : ForestShape heap.head) (value : α) :
    ForestShape (heapInsert higherPrio heap value).head := by
  unfold heapInsert
  split
  · split
    · exact h.union (.leaf _) higherPrio
    · exact h.union (.leaf _) higherPrio
  · exact h.union (.leaf _) higherPrio

theorem heapPeek_shape (h : ForestShape heap.head) :
    ForestShape (heapPeek higherPrio heap).1.head := by
  unfold heapPeek
  split
  · exact h
  · exact h.extractMin higherPrio

theorem Heap.call_shape (h : ForestShape heap.head) {c : HeapCall α}
    (hcall : heap.call higherPrio c = .ok heap') : ForestShape heap'.head := by
  cases c with
  | insert value =>
      cases hcall
      exact heapInsert_shape h value
  | peek =>
      cases hcall
      exact heapPeek_shape h
  | take =>
      have hpeek : ForestShape (heapPeek higherPrio heap).1.head := heapPeek_shape h
      change (heapTake higherPrio heap).map Prod.fst = _ at hcall
      unfold heapTake at hcall
      generalize heapPeek higherPrio heap = peeked at hpeek hcall
      obtain ⟨heap₁, node⟩ := peeked
      cases node with
      | none => cases hcall
      | some node =>
          cases hcall
          exact hpeek

theorem heapCalls_shape : ∀ {cs : List (HeapCall α)} {heap heap' : Heap α},
    ForestShape heap.head → cs.foldlM (Heap.call higherPrio) heap = .ok heap' →
    ForestShape heap'.head
  | [], heap, heap', h, hrun => by
      cases hrun
      exact h
  | c :: cs, heap, heap', h, hrun => by
      rw [List.foldlM_cons] at hrun
      cases hcall : heap.call higherPrio c with
      | error e =>
          rw [hcall] at hrun
          cases hrun
      | ok heap₁ =>
          rw [hcall] at hrun
          exact heapCalls_shape (Heap.call_shape h hcall) hrun

/-- Different degrees need at least the values of the smallest ones. -/
theorem two_pow_length_le : ∀ {ks : List Nat} {m : Nat}, ks.Pairwise (· < ·) → (∀ k ∈ ks, m ≤ k) →
    2 ^ m * 2 ^ ks.length ≤ (ks.map (2 ^ ·)).sum + 2 ^ m
  | [], m, _, _ => by simp
  | k :: ks, m, hks, hm => by
      obtain ⟨hk, hks⟩ := List.pairwise_cons.mp hks
      have hmk : m ≤ k := hm k List.mem_cons_self
      have hrest := two_pow_length_le (m := m + 1) hks fun j hj => Nat.lt_of_le_of_lt hmk (hk j hj)
      have hpow : 2 ^ m ≤ 2 ^ k := Nat.pow_le_pow_right (by decide) hmk
      have hdouble : 2 ^ m * 2 ^ (ks.length + 1) = 2 ^ (m + 1) * 2 ^ ks.length := by
        rw [Nat.pow_succ, Nat.pow_succ, Nat.mul_assoc, Nat.mul_comm 2]
      rw [List.map_cons, List.sum_cons, List.length_cons, hdouble]
      refine hrest.trans ?_
      rw [Nat.pow_succ]
      omega

/-- **The heap stays binomial.** After any calls on a new heap, with any priority, a root of
degree `k` has a tree of `2 ^ k` values and children of the degrees `k - 1` to 0, the degrees of
the roots increase, and for `n` values in the trees `2 ^ r - 1 ≤ n`, where `r` is the number of
roots that `__heap_min` looks at. -/
theorem heap_stays_binomial (higherPrio : α → α → Bool) {cs : List (HeapCall α)} {heap : Heap α}
    (hrun : cs.foldlM (Heap.call higherPrio) heapInit = .ok heap) :
    (∀ root ∈ heap.head, root.values.length = 2 ^ root.degree
        ∧ root.child.map HeapNode.degree = (List.range root.degree).reverse)
      ∧ (heap.head.map HeapNode.degree).Pairwise (· < ·)
      ∧ 2 ^ heap.head.length ≤ (forestValues heap.head).length + 1 := by
  have hshape : ForestShape heap.head := heapCalls_shape .nil hrun
  have hsize : ∀ h ∈ heap.head, h.values.length = 2 ^ h.degree := fun h hh =>
    (hshape.binomial h hh).size
  refine ⟨fun root hroot => ⟨hsize root hroot, (hshape.binomial root hroot).degrees⟩,
    hshape.ascending, ?_⟩
  have hle := two_pow_length_le (m := 0) hshape.ascending fun k _ => Nat.zero_le k
  rw [Nat.pow_zero, Nat.one_mul, List.length_map] at hle
  rw [length_forestValues hsize]
  exact hle

/-- 3 and 1 are inserted, 1 is taken and 2 inserted. -/
def sampleHeap : Heap Nat where
  head := [.mk 2 1 [.mk 3 0 []]]
  min := none

theorem heap_stays_binomial_example :
    (∀ root ∈ sampleHeap.head, root.values.length = 2 ^ root.degree
        ∧ root.child.map HeapNode.degree = (List.range root.degree).reverse)
      ∧ (sampleHeap.head.map HeapNode.degree).Pairwise (· < ·)
      ∧ 2 ^ sampleHeap.head.length ≤ (forestValues sampleHeap.head).length + 1 :=
  @heap_stays_binomial _ (fun a b => decide (a < b)) [.insert 3, .insert 1, .take, .insert 2] _ rfl

end PvfsProxy
