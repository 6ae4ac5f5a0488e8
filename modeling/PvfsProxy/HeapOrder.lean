import PvfsProxy.Heap

/-!
# The order of the heap

A priority that compares keys of a linear order: every node of the root list is the
least of its tree, a cached node is the least of all (`Heap.Ordered`), and every
operation keeps it so. What `heap_peek` finds and `heap_take` returns is the least
value held.
-/

namespace PvfsProxy

variable {α β : Type} [LinearOrder β]

/-- No node has a key below the nodes above it. -/
inductive HeapNode.Ordered (key : α → β) : HeapNode α → Prop where
  | mk {value : α} {degree : Nat} {child : List (HeapNode α)}
      (hchild : ∀ c ∈ child, c.Ordered key)
      (hleast : ∀ v ∈ forestValues child, key value ≤ key v) :
      Ordered key (.mk value degree child)

namespace HeapNode

variable {key : α → β} {h root sub : HeapNode α}

theorem Ordered.leaf (key : α → β) (value : α) (degree : Nat) :
    Ordered key (.mk value degree []) :=
  .mk (fun c hc => by cases hc) fun v hv => by
    rw [forestValues] at hv
    cases hv

theorem Ordered.child (ho : h.Ordered key) : ∀ c ∈ h.child, c.Ordered key := by
  cases ho with
  | mk hchild _ => exact hchild

theorem Ordered.le (ho : h.Ordered key) : ∀ v ∈ h.values, key h.value ≤ key v := by
  cases ho with
  | mk _ hleast =>
      intro v hv
      rw [values] at hv
      rcases List.mem_cons.mp hv with rfl | hbelow
      · exact le_refl _
      · exact hleast v hbelow

theorem Ordered.link (hroot : root.Ordered key) (hsub : sub.Ordered key)
    (hle : key root.value ≤ key sub.value) : (heapLink root sub).Ordered key := by
  refine .mk ?_ ?_
  · intro c hc
    rcases List.mem_cons.mp hc with rfl | hold
    · exact hsub
    · exact hroot.child c hold
  · intro v hv
    rw [forestValues] at hv
    rcases List.mem_append.mp hv with hnew | hold
    · exact hle.trans (hsub.le v hnew)
    · refine hroot.le v ?_
      rw [root.values_eq]
      exact List.mem_cons_of_mem _ hold

end HeapNode

/-! ## Root lists -/

def ForestOrdered (key : α → β) (roots : List (HeapNode α)) : Prop :=
  ∀ h ∈ roots, h.Ordered key

section

variable {key : α → β} {higherPrio : α → α → Bool}
  (hprio : ∀ a b, higherPrio a b = true ↔ key a < key b)

include hprio

theorem heapUnionLoop_ordered :
    ∀ {rest done : List (HeapNode α)} {x : HeapNode α},
      ForestOrdered key done → x.Ordered key → ForestOrdered key rest →
      ForestOrdered key (heapUnionLoop higherPrio done x rest)
  | [], done, x, hdone, hx, _ => by
      intro h hh
      rw [heapUnionLoop] at hh
      rcases List.mem_append.mp hh with hmem | hmem
      · exact hdone h (List.mem_reverse.mp hmem)
      · exact List.mem_singleton.mp hmem ▸ hx
  | next :: rest, done, x, hdone, hx, hrest => by
      have hnext := hrest next (List.mem_cons_self ..)
      have hrest' : ForestOrdered key rest := fun h hh => hrest h (List.mem_cons_of_mem _ hh)
      rw [heapUnionLoop]
      split
      · exact heapUnionLoop_ordered (List.forall_mem_cons.mpr ⟨hx, hdone⟩) hnext hrest'
      split
      · rename_i hless
        exact heapUnionLoop_ordered hdone (hx.link hnext ((hprio ..).mp hless).le) hrest'
      · rename_i hless
        have hle : key next.value ≤ key x.value :=
          not_lt.mp fun hlt => hless ((hprio ..).mpr hlt)
        exact heapUnionLoop_ordered hdone (hnext.link hx hle) hrest'

theorem heapUnion_ordered {head h2 : List (HeapNode α)} (hhead : ForestOrdered key head)
    (hh2 : ForestOrdered key h2) : ForestOrdered key (heapUnion higherPrio head h2) := by
  unfold heapUnion
  split
  · exact hhead
  split
  · exact hh2
  have hmerged : ForestOrdered key (heapMerge head h2) := by
    intro h hh
    rcases List.mem_append.mp ((heapMerge_perm head h2).mem_iff.mp hh) with hmem | hmem
    · exact hhead h hmem
    · exact hh2 h hmem
  split
  · exact fun h hh => by cases hh
  · rename_i x next hmerge
    rw [hmerge] at hmerged
    obtain ⟨hx, hnext⟩ := List.forall_mem_cons.mp hmerged
    exact heapUnionLoop_ordered hprio (fun h hh => by cases hh) hx hnext

/-- The node the loop ends with has no larger key than any it has seen. -/
theorem heapMinLoop_least :
    ∀ (rest : List (HeapNode α)) (node : HeapNode α) (at_ i : Nat),
      key (heapMinLoop higherPrio node at_ i rest).1.value ≤ key node.value
        ∧ ∀ c ∈ rest, key (heapMinLoop higherPrio node at_ i rest).1.value ≤ key c.value
  | [], node, at_, i => ⟨le_refl _, fun c hc => by cases hc⟩
  | cur :: rest, node, at_, i => by
      rw [heapMinLoop]
      split
      · rename_i hless
        obtain ⟨hcur, hrest⟩ := heapMinLoop_least rest cur i (i + 1)
        exact ⟨hcur.trans ((hprio ..).mp hless).le, List.forall_mem_cons.mpr ⟨hcur, hrest⟩⟩
      · rename_i hless
        obtain ⟨hnode, hrest⟩ := heapMinLoop_least rest node at_ (i + 1)
        have hle : key node.value ≤ key cur.value :=
          not_lt.mp fun hlt => hless ((hprio ..).mpr hlt)
        exact ⟨hnode, List.forall_mem_cons.mpr ⟨hnode.trans hle, hrest⟩⟩

theorem heapExtractMin_ordered {roots : List (HeapNode α)} (hroots : ForestOrdered key roots) :
    ForestOrdered key (heapExtractMin higherPrio roots).1
      ∧ ∀ v ∈ (heapExtractMin higherPrio roots).2, ∀ w ∈ forestValues roots, key v ≤ key w := by
  cases roots with
  | nil => exact ⟨fun h hh => absurd hh List.not_mem_nil, fun v hv => by cases hv⟩
  | cons h roots =>
      have hmem : (h :: roots)[(heapMinLoop higherPrio h 0 1 roots).2]?
          = some (heapMinLoop higherPrio h 0 1 roots).1 := heapMinLoop_mem roots rfl rfl
      have hleast := heapMinLoop_least hprio roots h 0 1
      rw [heapExtractMin]
      generalize heapMinLoop higherPrio h 0 1 roots = found at hmem hleast
      obtain ⟨node, at_⟩ := found
      have hnode := hroots node (List.mem_of_getElem? hmem)
      refine ⟨heapUnion_ordered hprio ?_ ?_, ?_⟩
      · exact fun c hc => hroots c (List.mem_of_mem_eraseIdx hc)
      · exact fun c hc => hnode.child c (List.mem_reverse.mp hc)
      · intro v hv w hw
        obtain rfl := Option.some.inj hv
        rw [forestValues_eq] at hw
        obtain ⟨root, hroot, hw⟩ := List.mem_flatMap.mp hw
        have hle : key node.value ≤ key root.value := by
          rcases List.mem_cons.mp hroot with rfl | hroot
          · exact hleast.1
          · exact hleast.2 root hroot
        exact hle.trans ((hroots root hroot).le w hw)

end

/-! ## The operations -/

/-- The trees are ordered, and a cached value is the least. -/
structure Heap.Ordered (key : α → β) (heap : Heap α) : Prop where
  head : ForestOrdered key heap.head
  min : ∀ m ∈ heap.min, ∀ w ∈ forestValues heap.head, key m ≤ key w

theorem heapInit_ordered (key : α → β) : (heapInit : Heap α).Ordered key where
  head h hh := by cases hh
  min m hm := by cases hm

section

variable {key : α → β} {higherPrio : α → α → Bool}
  (hprio : ∀ a b, higherPrio a b = true ↔ key a < key b) {heap : Heap α}

include hprio

theorem heapInsert_ordered (h : heap.Ordered key) (value : α) :
    (heapInsert higherPrio heap value).Ordered key := by
  have hunion : ∀ v, ForestOrdered key (heapUnion higherPrio heap.head [.mk v 0 []]) :=
    fun v => heapUnion_ordered hprio h.head
      fun c hc => List.mem_singleton.mp hc ▸ HeapNode.Ordered.leaf key v 0
  have hvalues : ∀ v w, w ∈ forestValues (heapUnion higherPrio heap.head [.mk v 0 []]) →
      w ∈ forestValues heap.head ∨ w = v := by
    intro v w hw
    have hmem := (heapUnion_values higherPrio heap.head [.mk v 0 []]).mem_iff.mp hw
    rwa [forestValues_singleton, List.mem_append, List.mem_singleton] at hmem
  unfold heapInsert
  cases hmin : heap.min with
  | none => exact ⟨hunion value, fun m hm => by cases hm⟩
  | some min =>
      have hleast := h.min min hmin
      dsimp only
      split
      · rename_i hless
        have hlt := (hprio ..).mp hless
        refine ⟨hunion min, fun m hm w hw => ?_⟩
        obtain rfl := Option.some.inj hm
        rcases hvalues min w hw with hold | rfl
        · exact hlt.le.trans (hleast w hold)
        · exact hlt.le
      · rename_i hless
        refine ⟨hunion value, fun m hm w hw => ?_⟩
        obtain rfl := Option.some.inj hm
        rcases hvalues value w hw with hold | rfl
        · exact hleast w hold
        · exact not_lt.mp fun hlt => hless ((hprio ..).mpr hlt)

theorem heapPeek_ordered (h : heap.Ordered key) :
    (heapPeek higherPrio heap).1.Ordered key
      ∧ ∀ v ∈ (heapPeek higherPrio heap).2, ∀ w ∈ heap.values, key v ≤ key w := by
  unfold heapPeek Heap.values
  cases hmin : heap.min with
  | some min =>
      refine ⟨h, fun v hv w hw => ?_⟩
      obtain rfl := Option.some.inj hv
      rcases List.mem_append.mp hw with hsame | hbelow
      · rw [List.mem_singleton.mp hsame]
      · exact h.min min hmin w hbelow
  | none =>
      obtain ⟨hrest, hleast⟩ := heapExtractMin_ordered hprio h.head
      refine ⟨⟨hrest, fun m hm w hw => ?_⟩, fun v hv w hw => hleast v hv w hw⟩
      obtain ⟨hvalues, -⟩ := heapExtractMin_values higherPrio heap.head
      exact hleast m hm w (hvalues.subset (List.mem_append_right _ hw))

/-- What is taken is the least, and what is left is in order. -/
theorem heapTake_ordered (h : heap.Ordered key) {heap' : Heap α} {value : α}
    (htake : heapTake higherPrio heap = .ok (heap', value)) :
    heap'.Ordered key ∧ ∀ w ∈ heap.values, key value ≤ key w := by
  obtain ⟨hpeek, hleast⟩ := heapPeek_ordered hprio h
  unfold heapTake at htake
  generalize heapPeek higherPrio heap = peeked at hpeek hleast htake
  obtain ⟨heap₁, node⟩ := peeked
  cases node with
  | none => cases htake
  | some node =>
      obtain ⟨rfl, rfl⟩ := Prod.mk.inj (Except.ok.inj htake)
      exact ⟨⟨hpeek.head, fun m hm => by cases hm⟩, hleast node rfl⟩

end

end PvfsProxy
