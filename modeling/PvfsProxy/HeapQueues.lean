import PvfsProxy.HeapOrder
import PvfsProxy.Sfqd2
import PvfsProxy.Sfqd3
import Mathlib.Data.Prod.Lex

/-!
# The heap queues of SFQD2 and SFQD3

A heap with the counters that `heap_insert` and `heap_take` keep, used under
`sfqd2_packet_cmp` or `sfqd3_packet_cmp`: whatever calls follow each other, a take
returns the least node by start tag and number, and the counters count what is held
(`heap_queue_order`).

The counters find the application of a node through `struct sfqd_queue_item`,
although the nodes hold items of SFQD2 and SFQD3 (`app_index_offset`).
-/

namespace PvfsProxy

/-! ## Where `app_index` is -/

/-- The C types of the fields, aligned to their sizes. -/
inductive CType where
  | int | longLong | pointer
deriving Repr, DecidableEq

def CType.size : CType → Nat
  | int => 4
  | longLong => 8
  | pointer => 8

/-- The fields of the items up to `app_index`. -/
inductive ItemField where
  | requestSocket | startTag | finishTag | dataPort | dataIp | dataSocket | requestPort
  | requestSocketIndex | dataFileSize | stripSize | serverNr | fileOffset | aggregateSize
  | serverCount | dataSocketIndex | socketTag | appIndex
deriving Repr, DecidableEq

/-- Where a field starts, if the fields are laid out from `at_` on. -/
def offsetFrom (field : ItemField) : Nat → List (ItemField × CType) → Option Nat
  | _, [] => none
  | at_, (f, t) :: fields =>
    let start := (at_ + t.size - 1) / t.size * t.size
    if f = field then some start else offsetFrom field (start + t.size) fields

/-- `struct sfqd_queue_item` -/
def sfqdFields : List (ItemField × CType) :=
  [(.requestSocket, .int), (.startTag, .int), (.finishTag, .int), (.dataPort, .int),
    (.dataIp, .pointer), (.dataSocket, .int), (.requestPort, .int), (.requestSocketIndex, .int),
    (.dataFileSize, .int), (.stripSize, .int), (.serverNr, .int), (.fileOffset, .longLong),
    (.aggregateSize, .longLong), (.serverCount, .int), (.dataSocketIndex, .int),
    (.socketTag, .int), (.appIndex, .int)]

/-- `struct sfqd2_queue_item` and `struct sfqd3_queue_item` -/
def sfqd2Fields : List (ItemField × CType) :=
  [(.requestSocket, .int), (.startTag, .int), (.finishTag, .int), (.dataPort, .int),
    (.dataIp, .pointer), (.dataSocket, .int), (.requestSocketIndex, .int), (.dataFileSize, .int),
    (.stripSize, .int), (.serverNr, .int), (.fileOffset, .longLong), (.aggregateSize, .longLong),
    (.serverCount, .int), (.dataSocketIndex, .int), (.socketTag, .int), (.appIndex, .int)]

/-- The port that only one of them has is made up for by padding before `file_offset`. -/
theorem app_index_offset :
    offsetFrom .appIndex 0 sfqdFields = some 76 ∧ offsetFrom .appIndex 0 sfqd2Fields = some 76 := by
  decide

/-! ## The counters -/

/-- A heap with `count` and `all_count`. -/
structure CountedHeap (α : Type) where
  heap : Heap α
  count : Nat → Int
  allCount : Int

namespace CountedHeap

variable {α : Type}

def init : CountedHeap α where
  heap := heapInit
  count := fun _ => 0
  allCount := 0

def insert (higherPrio : α → α → Bool) (appIndex : α → Nat) (h : CountedHeap α) (value : α) :
    CountedHeap α where
  heap := heapInsert higherPrio h.heap value
  count := Function.update h.count (appIndex value) (h.count (appIndex value) + 1)
  allCount := h.allCount + 1

def peek (higherPrio : α → α → Bool) (h : CountedHeap α) : CountedHeap α × Option α :=
  let (heap, node) := heapPeek higherPrio h.heap
  ({ h with heap }, node)

def take (higherPrio : α → α → Bool) (appIndex : α → Nat) (h : CountedHeap α) :
    Except Fault (CountedHeap α × α) := do
  let (heap, node) ← heapTake higherPrio h.heap
  return ({
    heap
    count := Function.update h.count (appIndex node) (h.count (appIndex node) - 1)
    allCount := h.allCount - 1 }, node)

/-- The counters count the values held. -/
structure Counts (appIndex : α → Nat) (h : CountedHeap α) : Prop where
  all : h.allCount = h.heap.values.length
  app : ∀ a, h.count a = h.heap.values.countP fun v => appIndex v == a

variable {higherPrio : α → α → Bool} {appIndex : α → Nat} {h : CountedHeap α}

theorem Counts.init : Counts appIndex (init : CountedHeap α) where
  all := by simp [CountedHeap.init, heapInit_values]
  app a := by simp [CountedHeap.init, heapInit_values]

/-- One more value counts for its application. -/
theorem countP_update (appIndex : α → Nat) {value : α} {values values' : List α}
    (hperm : values'.Perm (value :: values)) (a : Nat) :
    (values'.countP (fun v => appIndex v == a) : Int)
      = values.countP (fun v => appIndex v == a) + if a = appIndex value then 1 else 0 := by
  rw [hperm.countP_eq, List.countP_cons]
  by_cases hsame : a = appIndex value
  · simp [hsame]
  · simp [hsame, Ne.symm hsame]

theorem Counts.insert (hc : Counts appIndex h) (value : α) :
    Counts appIndex (h.insert higherPrio appIndex value) := by
  have hperm := heapInsert_values higherPrio h.heap value
  refine ⟨?_, fun a => ?_⟩
  · show h.allCount + 1 = ((heapInsert higherPrio h.heap value).values.length : Int)
    rw [hperm.length_eq, hc.all, List.length_cons, Nat.cast_add, Nat.cast_one]
  · show Function.update h.count _ _ a = _
    rw [Function.update_apply, hc.app, hc.app]
    refine Eq.trans ?_ (countP_update appIndex hperm a).symm
    split
    · rename_i hsame
      rw [hsame]
    · rw [Int.add_zero]

theorem Counts.peek (hc : Counts appIndex h) : Counts appIndex (h.peek higherPrio).1 := by
  obtain ⟨hperm, -⟩ := heapPeek_values higherPrio h.heap
  exact ⟨hc.all.trans (congrArg _ hperm.length_eq.symm), fun a =>
    (hc.app a).trans (congrArg _ (hperm.countP_eq _).symm)⟩

theorem take_ok {h' : CountedHeap α} {value : α}
    (htake : h.take higherPrio appIndex = .ok (h', value)) :
    heapTake higherPrio h.heap = .ok (h'.heap, value)
      ∧ h'.count = Function.update h.count (appIndex value) (h.count (appIndex value) - 1)
      ∧ h'.allCount = h.allCount - 1 := by
  obtain ⟨⟨heap, node⟩, hheap, htake⟩ := Machine.bind_eq_ok.mp htake
  obtain ⟨rfl, rfl⟩ := Prod.mk.inj (Machine.pure_eq_ok.mp htake)
  exact ⟨hheap, rfl, rfl⟩

theorem Counts.take (hc : Counts appIndex h) {h' : CountedHeap α} {value : α}
    (htake : h.take higherPrio appIndex = .ok (h', value))
    (hperm : (value :: h'.heap.values).Perm h.heap.values) : Counts appIndex h' := by
  obtain ⟨-, hcount, hall⟩ := take_ok htake
  refine ⟨?_, fun a => ?_⟩
  · rw [hall, hc.all, ← hperm.length_eq, List.length_cons]
    omega
  · have hone := countP_update appIndex hperm.symm a
    rw [hcount, Function.update_apply, hc.app, hc.app]
    split
    · rename_i hsame
      rw [if_pos hsame] at hone
      rw [← hsame]
      omega
    · rename_i hother
      rw [if_neg hother] at hone
      omega

end CountedHeap

/-! ## Runs -/

/-- The schedulers that queue by start tag in a heap. -/
inductive HeapScheduler where
  | sfqd2 | sfqd3
deriving Repr, DecidableEq

namespace HeapScheduler

abbrev Item : HeapScheduler → Type
  | sfqd2 => Sfqd2QueueItem
  | sfqd3 => Sfqd3QueueItem

instance : (k : HeapScheduler) → DecidableEq k.Item
  | sfqd2 => inferInstanceAs (DecidableEq Sfqd2QueueItem)
  | sfqd3 => inferInstanceAs (DecidableEq Sfqd3QueueItem)

def packetCmp : (k : HeapScheduler) → GenericQueueItem k.Item → GenericQueueItem k.Item → Bool
  | sfqd2 => sfqd2PacketCmp
  | sfqd3 => sfqd3PacketCmp

def startTag : (k : HeapScheduler) → GenericQueueItem k.Item → Int
  | sfqd2 => fun it => it.embedded.startTag
  | sfqd3 => fun it => it.embedded.startTag

def appIndex : (k : HeapScheduler) → GenericQueueItem k.Item → Nat
  | sfqd2 => fun it => it.embedded.appIndex
  | sfqd3 => fun it => it.embedded.appIndex

/-- Start tag first, then number. -/
def key (k : HeapScheduler) (it : GenericQueueItem k.Item) : Int ×ₗ Int :=
  toLex (k.startTag it, it.itemId)

theorem packetCmp_iff (k : HeapScheduler) (a b : GenericQueueItem k.Item) :
    k.packetCmp a b = true ↔ k.key a < k.key b := by
  have hcmp : ∀ s t i j : Int,
      (if s < t then true else if s = t then decide (i < j) else false) = true
        ↔ s < t ∨ s = t ∧ i < j := by
    intro s t i j
    split
    · simp [*]
    split
    · simp [*]
    · simp [*]
  unfold key
  rw [Prod.Lex.toLex_lt_toLex]
  cases k with
  | sfqd2 => exact hcmp ..
  | sfqd3 => exact hcmp ..

end HeapScheduler

/-- One heap, with what was inserted and what was taken. -/
structure HeapRun (k : HeapScheduler) where
  queue : CountedHeap (GenericQueueItem k.Item)
  inserted : List (GenericQueueItem k.Item)
  taken : List (GenericQueueItem k.Item)

namespace HeapRun

variable {k : HeapScheduler}

inductive Call (k : HeapScheduler) where
  | insert (it : GenericQueueItem k.Item)
  | peek
  | take

def step (s : HeapRun k) : Call k → Except Fault (HeapRun k)
  | .insert it =>
    .ok { s with
      queue := s.queue.insert k.packetCmp k.appIndex it
      inserted := s.inserted ++ [it] }
  | .peek => .ok { s with queue := (s.queue.peek k.packetCmp).1 }
  | .take => do
    let (queue, it) ← s.queue.take k.packetCmp k.appIndex
    return { s with queue, taken := s.taken ++ [it] }

/-- Numbers are new, and nothing is looked for in an empty heap. -/
def Allowed (s : HeapRun k) : Call k → Prop
  | .insert it => ∀ c ∈ s.inserted, c.itemId ≠ it.itemId
  | .peek | .take => heapEmpty s.queue.heap = false

instance (s : HeapRun k) (c : Call k) : Decidable (s.Allowed c) :=
  match c with
  | .insert it => inferInstanceAs (Decidable (∀ c ∈ s.inserted, c.itemId ≠ it.itemId))
  | .peek => inferInstanceAs (Decidable (heapEmpty s.queue.heap = false))
  | .take => inferInstanceAs (Decidable (heapEmpty s.queue.heap = false))

def init (k : HeapScheduler) : HeapRun k where
  queue := .init
  inserted := []
  taken := []

/-- Inserted and not yet taken. -/
def pending (s : HeapRun k) : List (GenericQueueItem k.Item) :=
  s.inserted.filter fun it => it ∉ s.taken

end HeapRun

/-- What holds between calls. -/
structure HeapServes {k : HeapScheduler} (s : HeapRun k) : Prop where
  ordered : s.queue.heap.Ordered k.key
  counts : s.queue.Counts k.appIndex
  ids : (s.inserted.map (·.itemId)).Nodup
  history : (s.taken ++ s.queue.heap.values).Perm s.inserted

namespace HeapServes

variable {k : HeapScheduler} {s t : HeapRun k}

theorem init (k : HeapScheduler) : HeapServes (.init k) where
  ordered := heapInit_ordered k.key
  counts := .init
  ids := .nil
  history := by simp [HeapRun.init, CountedHeap.init, heapInit_values]

theorem nodup (h : HeapServes s) : (s.taken ++ s.queue.heap.values).Nodup :=
  h.history.nodup_iff.mpr (.of_map _ h.ids)

/-- The heap holds what was inserted and not taken. -/
theorem pending (h : HeapServes s) : s.queue.heap.values.Perm s.pending := by
  have hfilter := h.history.filter fun it => it ∉ s.taken
  rw [List.filter_append] at hfilter
  have htaken : (s.taken.filter fun it => it ∉ s.taken) = [] := by
    refine List.filter_eq_nil_iff.mpr fun it hit => ?_
    simp [hit]
  have hheld : (s.queue.heap.values.filter fun it => it ∉ s.taken) = s.queue.heap.values := by
    refine List.filter_eq_self.mpr fun it hit => ?_
    have hnew := (List.nodup_append.mp h.nodup).2.2
    simp only [decide_eq_true_eq]
    exact fun hold => hnew it hold it hit rfl
  rw [htaken, hheld, List.nil_append] at hfilter
  exact hfilter

theorem take_returns (h : HeapServes s) (hne : heapEmpty s.queue.heap = false) :
    ∃ queue it, s.queue.take k.packetCmp k.appIndex = .ok (queue, it)
      ∧ (it :: queue.heap.values).Perm s.queue.heap.values
      ∧ queue.heap.Ordered k.key ∧ ∀ c ∈ s.queue.heap.values, k.key it ≤ k.key c := by
  have hvalues : s.queue.heap.values ≠ [] := by
    intro hnil
    rw [(heapEmpty_iff _).mpr hnil] at hne
    contradiction
  obtain ⟨heap, it, htake, hperm⟩ := heapTake_values k.packetCmp hvalues
  obtain ⟨hordered, hleast⟩ := heapTake_ordered k.packetCmp_iff h.ordered htake
  have hreturns : s.queue.take k.packetCmp k.appIndex = .ok (⟨heap, Function.update s.queue.count
      (k.appIndex it) (s.queue.count (k.appIndex it) - 1), s.queue.allCount - 1⟩, it) := by
    unfold CountedHeap.take
    rw [htake]
    rfl
  exact ⟨_, it, hreturns, hperm, hordered, hleast⟩

theorem step (h : HeapServes s) {c : HeapRun.Call k} (hok : s.Allowed c)
    (hstep : s.step c = .ok t) : HeapServes t := by
  cases c with
  | insert it =>
      obtain rfl := Except.ok.inj hstep
      refine ⟨heapInsert_ordered k.packetCmp_iff h.ordered it, h.counts.insert it, ?_, ?_⟩
      · show ((s.inserted ++ [it]).map _).Nodup
        rw [List.map_append]
        refine List.nodup_append.mpr ⟨h.ids, List.nodup_singleton _, ?_⟩
        intro i hi j hj
        obtain ⟨c, hc, rfl⟩ := List.mem_map.mp hi
        rw [List.mem_singleton.mp hj]
        exact hok c hc
      · show (s.taken ++ (heapInsert k.packetCmp s.queue.heap it).values).Perm (s.inserted ++ [it])
        refine ((heapInsert_values ..).append_left _).trans ?_
        refine List.perm_middle.trans ((h.history.cons it).trans ?_)
        exact (List.perm_append_singleton it s.inserted).symm
  | peek =>
      obtain rfl := Except.ok.inj hstep
      have hpeek := heapPeek_ordered k.packetCmp_iff h.ordered
      have hvalues := heapPeek_values k.packetCmp s.queue.heap
      exact ⟨hpeek.1, h.counts.peek, h.ids, (hvalues.1.append_left _).trans h.history⟩
  | take =>
      obtain ⟨queue, it, htake, hperm, hordered, -⟩ := h.take_returns hok
      obtain ⟨out, hout, hstep⟩ := Machine.bind_eq_ok.mp hstep
      obtain rfl := Except.ok.inj (htake.symm.trans hout)
      obtain rfl := Machine.pure_eq_ok.mp hstep
      refine ⟨hordered, h.counts.take htake hperm, h.ids, ?_⟩
      show ((s.taken ++ [it]) ++ queue.heap.values).Perm s.inserted
      rw [List.append_assoc, List.singleton_append]
      exact (hperm.append_left _).trans h.history

end HeapServes

/-- **The order of the heap queues.** After any calls: a heap is empty if and only if
nothing inserted is left to take; the counters count what is left, of all applications
and of each; and a take returns the least of it. -/
theorem heap_queue_order (k : HeapScheduler) {cs : List (HeapRun.Call k)} {s : HeapRun k}
    (hrun : Machine.Run HeapRun.Allowed HeapRun.step (.init k) cs s) :
    (heapEmpty s.queue.heap = true ↔ s.pending = [])
      ∧ s.queue.allCount = s.pending.length
      ∧ (∀ app, s.queue.count app = s.pending.countP fun it => k.appIndex it == app)
      ∧ (heapEmpty s.queue.heap = false →
        ∃ queue it, s.queue.take k.packetCmp k.appIndex = .ok (queue, it) ∧ it ∈ s.pending
          ∧ ∀ c ∈ s.pending, c ≠ it → k.startTag it < k.startTag c
            ∨ k.startTag it = k.startTag c ∧ it.itemId < c.itemId) := by
  have hs : HeapServes s :=
    hrun.invariant (HeapServes.init k) fun _ _ _ h hok hstep => h.step hok hstep
  have hpending := hs.pending
  refine ⟨?_, ?_, fun app => ?_, fun hne => ?_⟩
  · rw [heapEmpty_iff, ← List.perm_nil, ← List.perm_nil]
    exact ⟨hpending.symm.trans, hpending.trans⟩
  · rw [hs.counts.all, hpending.length_eq]
  · rw [hs.counts.app, hpending.countP_eq]
  · obtain ⟨queue, it, htake, hperm, -, hleast⟩ := hs.take_returns hne
    have hmem : it ∈ s.queue.heap.values := hperm.subset (List.mem_cons_self ..)
    refine ⟨queue, it, htake, hpending.subset hmem, fun c hc hne' => ?_⟩
    have hheld := hpending.symm.subset hc
    have hle := hleast c hheld
    -- nodes with different numbers differ in their keys
    have hid : it.itemId ≠ c.itemId := by
      intro hsame
      have hinserted : ∀ x ∈ s.queue.heap.values, x ∈ s.inserted :=
        fun x hx => hs.history.subset (List.mem_append_right _ hx)
      exact hne' (List.inj_on_of_nodup_map hs.ids (hinserted c hheld) (hinserted it hmem)
        hsame.symm)
    rcases Prod.Lex.toLex_le_toLex.mp hle with hless | ⟨hsame, hle⟩
    · exact .inl hless
    · exact .inr ⟨hsame, lt_of_le_of_ne hle hid⟩

/-- An item of SFQD3 with the given start tag and number. -/
def heapSample (startTag itemId : Int) : GenericQueueItem HeapScheduler.sfqd3.Item :=
  sfqd3NewItem (fun _ => ⟨7, 0, 1⟩) ⟨0, 1, 0, 0⟩ { op := .io, tag := 0, reqSize := 4 } startTag
    (startTag + 4) 0 itemId

/-- Three items, a peek and two takes: the two with the lesser start tag, in the order
of their numbers, although the heap cached one of them in between. -/
theorem heap_queue_order_example :
    ∃ s : HeapRun .sfqd3, s.taken.map (·.itemId) = [0, 2]
      ∧ s.queue.allCount = s.pending.length := by
  obtain ⟨s, hrun, hs⟩ := Machine.Run.exists_of_exec HeapRun.Allowed HeapRun.step (.init .sfqd3)
    [.insert (heapSample 8 1), .insert (heapSample 4 0), .peek, .insert (heapSample 4 2), .take,
      .take] (fun s => s.taken.map (·.itemId)) (a := [0, 2]) (by decide +kernel)
  exact ⟨s, hs, (heap_queue_order .sfqd3 hrun).2.1⟩

end PvfsProxy
