import Mathlib.Logic.Function.Basic
import PvfsProxy.Lib.SlotLine

/-!
# The books of a start-tag scheduler

A scheduler that serves by start tag does not see its line. It keeps `TagBooks`: how many
slots are taken, the tag served last, a clock for every flow and the number of the next
job. A job `Enters` with a tag neither before the one served last nor before the clock of
its flow, and moves that clock past its tag.

Where the books are `Balanced`, what the scheduler reads from them is what `startTime`
asks of the line, and every kind of step keeps them so.
-/

namespace SlotLine

open Bypass

variable {α ι : Type*}

/-- The jobs `l` were numbered as they came, and `number` is the next. -/
structure Numbered (born : α → ℤ) (number : ℤ) (l : List α) : Prop where
  below : ∀ a ∈ l, born a < number
  rising : l.Pairwise fun a b => born a < born b

namespace Numbered

variable {born : α → ℤ} {number : ℤ} {l : List α} {a : α}

theorem nil : Numbered born number [] := ⟨List.forall_mem_nil _, .nil⟩

theorem snoc (h : Numbered born number l) (ha : born a = number) :
    Numbered born (number + 1) (l ++ [a]) where
  below := by
    refine List.forall_mem_append.mpr ⟨fun b hb => ?_, List.forall_mem_singleton.mpr ?_⟩
    · exact (h.below b hb).trans (Int.lt_succ number)
    · rw [ha]
      exact Int.lt_succ number
  rising := by
    refine List.pairwise_append.mpr ⟨h.rising, List.pairwise_singleton .., ?_⟩
    intro b hb c hc
    rw [List.mem_singleton.mp hc, ha]
    exact h.below b hb

theorem nodup (h : Numbered born number l) : l.Nodup :=
  h.rising.imp fun hab heq => by
    rw [heq] at hab
    exact absurd hab (lt_irrefl _)

end Numbered

structure TagBooks (ι : Type*) where
  taken : ℤ
  vtime : ℤ
  clock : ι → ℤ
  number : ℤ

/-- A job is numbered and tagged. -/
structure TagBooks.Enters (K : Keys α ι) (b : TagBooks ι) (a : α) (b' : TagBooks ι) : Prop where
  born : K.born a = b.number
  number : b'.number = b.number + 1
  vtime : b'.vtime = b.vtime
  late : b.vtime ≤ K.tag a
  flow : b.clock (K.flow a) ≤ K.tag a
  advance : K.tag a ≤ b'.clock (K.flow a)
  others : ∀ i, i ≠ K.flow a → b'.clock i = b.clock i

/-- The books agree with the line. -/
structure TagBooks.Balanced (K : Keys α ι) (b : TagBooks ι) (l : Line α) : Prop where
  taken : b.taken = l.running.length
  numbered : Numbered K.born b.number l.accepted
  clock : ∀ a ∈ l.accepted, K.tag a ≤ b.clock (K.flow a)
  late : ∀ a ∈ l.served, K.tag a ≤ b.vtime
  timely : ∀ a ∈ l.waiting, b.vtime ≤ K.tag a

namespace TagBooks.Balanced

variable {K : Keys α ι} {b b' : TagBooks ι} {l : Line α} {a : α}

theorem empty (htaken : b.taken = 0) : b.Balanced K Line.empty where
  taken := htaken
  numbered := .nil
  clock := List.forall_mem_nil _
  late := List.forall_mem_nil _
  timely := List.forall_mem_nil _

theorem comes (h : b.Balanced K l) (ha : b.Enters K a b') : Comes K l a where
  born c hc := by
    rw [ha.born]
    exact h.numbered.below c hc
  tag c hc hflow := (h.clock c hc).trans (hflow ▸ ha.flow)
  late c hc := (h.late c hc).trans ha.late

/-- The clocks are past the tags given out, the last one included. -/
theorem clock_snoc (h : b.Balanced K l) (ha : b.Enters K a b') :
    ∀ c ∈ l.accepted ++ [a], K.tag c ≤ b'.clock (K.flow c) := by
  refine List.forall_mem_append.mpr ⟨fun c hc => ?_, List.forall_mem_singleton.mpr ha.advance⟩
  by_cases hflow : K.flow c = K.flow a
  · rw [hflow]
    exact ((h.comes ha).tag c hc hflow).trans ha.advance
  · rw [ha.others _ hflow]
    exact h.clock c hc

theorem numbered_snoc (h : b.Balanced K l) (ha : b.Enters K a b') :
    Numbered K.born b'.number (l.accepted ++ [a]) := by
  rw [ha.number]
  exact h.numbered.snoc ha.born

theorem waits (h : b.Balanced K l) (ha : b.Enters K a b') (htaken : b'.taken = b.taken)
    {waiting : List α} (hq : waiting.Perm (a :: l.waiting)) :
    b'.Balanced K (l.waits a waiting) where
  taken := htaken.trans h.taken
  numbered := h.numbered_snoc ha
  clock := h.clock_snoc ha
  late c hc := by
    rw [ha.vtime]
    exact h.late c hc
  timely c hc := by
    rw [ha.vtime]
    rcases List.mem_cons.mp (hq.subset hc) with rfl | hold
    · exact ha.late
    · exact h.timely c hold

/-- A job starts at once, and its tag is the one served last. -/
theorem goes (h : b.Balanced K l) (ha : b.Enters K a b') (htaken : b'.taken = b.taken + 1) :
    Balanced K { b' with vtime := K.tag a } (l.goes a []) where
  taken := by
    show b'.taken = _
    rw [Line.goes_taken, htaken, h.taken]
  numbered := (h.numbered_snoc ha :)
  clock := (h.clock_snoc ha :)
  late := by
    refine List.forall_mem_append.mpr ⟨?_, List.forall_mem_singleton.mpr le_rfl⟩
    exact (h.comes ha).late
  timely := List.forall_mem_nil _

variable [DecidableEq α] {done : α}

/-- A slot is handed to a job that no waiting one precedes. -/
theorem takes (h : b.Balanced K l) (hdone : done ∈ l.running) {waiting : List α}
    (hq : (a :: waiting).Perm l.waiting) (hleast : ∀ c ∈ waiting, Precedes K a c) :
    Balanced K { b with vtime := K.tag a } (l.finishes done (some a) waiting) where
  taken := by
    show b.taken = _
    rw [Line.finishes_taken hdone, h.taken]
    simp
  numbered := h.numbered
  clock := h.clock
  late := by
    refine List.forall_mem_append.mpr ⟨fun c hc => ?_, List.forall_mem_singleton.mpr le_rfl⟩
    exact (h.late c hc).trans (h.timely a (hq.subset (List.mem_cons_self ..)))
  timely c hc := by
    rcases hleast c hc with hlt | ⟨heq, -⟩
    · exact hlt.le
    · exact heq.le

theorem frees (h : b.Balanced K l) (hdone : done ∈ l.running) :
    Balanced K { b with taken := b.taken - 1 } (l.finishes done none []) where
  taken := by
    show b.taken - 1 = _
    rw [Line.finishes_taken hdone, h.taken]
    simp
  numbered := h.numbered
  clock := h.clock
  late := by
    show ∀ c ∈ l.served ++ [], _
    rw [List.append_nil]
    exact h.late
  timely := List.forall_mem_nil _

end TagBooks.Balanced

end SlotLine
