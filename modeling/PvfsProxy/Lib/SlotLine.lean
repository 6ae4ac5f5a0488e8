import PvfsProxy.Lib.Bypass

/-!
# A line in front of slots

Jobs come to a place with slots. A job starts at once or waits in line; a job that is
done hands its slot to one that waits, or leaves it free. `Line` is the place with its
history, a `Policy` says which job may do what, and `Step` is a step under a policy.

Whatever the policy, a job waits or was served, and that once (`Kept`). `startTime` is the
policy of a number of slots and a least tag: no slot is free while a job waits
(`Slotted`), and the jobs of a flow are served in the order they came (`InOrder`).
-/

namespace SlotLine

open Bypass

variable {α ι : Type*}

structure Line (α : Type*) where
  waiting : List α
  running : List α
  accepted : List α
  served : List α

namespace Line

def empty : Line α := ⟨[], [], [], []⟩

/-- A job starts at once. -/
def goes (l : Line α) (a : α) (waiting : List α) : Line α :=
  ⟨waiting, l.running ++ [a], l.accepted ++ [a], l.served ++ [a]⟩

/-- A job joins the line. -/
def waits (l : Line α) (a : α) (waiting : List α) : Line α :=
  { l with waiting, accepted := l.accepted ++ [a] }

/-- A job is done, and another may have its slot. -/
def finishes [DecidableEq α] (l : Line α) (done : α) (next : Option α) (waiting : List α) :
    Line α :=
  { l with
    waiting
    running := l.running.erase done ++ next.toList
    served := l.served ++ next.toList }

variable {l : Line α} {a done : α}

theorem goes_taken (waiting : List α) :
    ((l.goes a waiting).running.length : ℤ) = l.running.length + 1 := by
  show ((l.running ++ [a]).length : ℤ) = _
  rw [List.length_append, List.length_singleton, Nat.cast_add, Nat.cast_one]

/-- A job that is done leaves one slot, which the next one takes. -/
theorem finishes_taken [DecidableEq α] (hdone : done ∈ l.running) (next : Option α)
    (waiting : List α) : ((l.finishes done next waiting).running.length : ℤ)
      = l.running.length - 1 + next.toList.length := by
  have hpos := List.length_pos_of_mem hdone
  show ((l.running.erase done ++ next.toList).length : ℤ) = _
  rw [List.length_append, List.length_erase_of_mem hdone, Nat.cast_add, Nat.cast_sub hpos,
    Nat.cast_one]

end Line

structure Policy (α : Type*) where
  go : Line α → α → Prop
  wait : Line α → α → Prop
  next : Line α → α → Prop
  idle : Line α → Prop

variable [DecidableEq α] {P Q : Policy α} {l l' : Line α}

inductive Step (P : Policy α) (l : Line α) : Line α → Prop where
  | go {a : α} {waiting : List α} (hok : P.go l a) (hq : waiting.Perm l.waiting) :
      Step P l (l.goes a waiting)
  | wait {a : α} {waiting : List α} (hok : P.wait l a) (hq : waiting.Perm (a :: l.waiting)) :
      Step P l (l.waits a waiting)
  | finish {done : α} {next : Option α} {waiting : List α} (hdone : done ∈ l.running)
      (hnext : ∀ a, next = some a → P.next l a) (hidle : next = none → P.idle l)
      (hq : (next.toList ++ waiting).Perm l.waiting) :
      Step P l (l.finishes done next waiting)

/-! ## The history -/

structure Kept (l : Line α) : Prop where
  history : (l.served ++ l.waiting).Perm l.accepted
  running : l.running.Sublist l.served

omit [DecidableEq α] in
theorem Kept.empty : Kept (Line.empty : Line α) := ⟨.nil, .slnil⟩

theorem Kept.step (h : Kept l) (hstep : Step P l l') : Kept l' := by
  cases hstep with
  | @go a waiting hok hq =>
      refine ⟨?_, h.running.append (.refl _)⟩
      show (l.served ++ [a] ++ waiting).Perm (l.accepted ++ [a])
      rw [List.append_assoc]
      refine (List.Perm.append_left _ (List.perm_append_comm.trans (hq.append_right _))).trans ?_
      rw [← List.append_assoc]
      exact h.history.append_right _
  | @wait a waiting hok hq =>
      refine ⟨?_, h.running⟩
      show (l.served ++ waiting).Perm (l.accepted ++ [a])
      refine (List.Perm.append_left _ (hq.trans (List.perm_append_singleton ..).symm)).trans ?_
      rw [← List.append_assoc]
      exact h.history.append_right _
  | @finish done next waiting hdone hnext hidle hq =>
      refine ⟨?_, ((List.erase_sublist ..).trans h.running).append (.refl _)⟩
      show (l.served ++ next.toList ++ waiting).Perm l.accepted
      rw [List.append_assoc]
      exact (hq.append_left _).trans h.history

/-! ## The slots -/

/-- No slot is free while a job waits. -/
structure Slotted (depth : ℤ) (l : Line α) : Prop where
  bound : (l.running.length : ℤ) ≤ depth
  full : l.waiting ≠ [] → (l.running.length : ℤ) = depth

omit [DecidableEq α] in
/-- Where all slots are free nothing waits, so that everything was served. -/
theorem Slotted.idle {depth : ℤ} {l : Line α} (h : Slotted depth l) (hdepth : 1 ≤ depth)
    (hkept : Kept l) (hidle : l.running = []) : l.served.Perm l.accepted := by
  have hnone : l.waiting = [] := by
    by_contra hne
    have hfull := h.full hne
    rw [hidle] at hfull
    simp only [List.length_nil, Nat.cast_zero] at hfull
    omega
  have hhistory := hkept.history
  rw [hnone, List.append_nil] at hhistory
  exact hhistory

/-- What came last may be compared with what came before. -/
structure Comes (K : Keys α ι) (l : Line α) (a : α) : Prop where
  born : ∀ b ∈ l.accepted, K.born b < K.born a
  tag : ∀ b ∈ l.accepted, K.flow b = K.flow a → K.tag b ≤ K.tag a
  late : ∀ b ∈ l.served, K.tag b ≤ K.tag a

/-- `a` is taken before `b`. -/
def Precedes (K : Keys α ι) (a b : α) : Prop :=
  K.tag a < K.tag b ∨ K.tag a = K.tag b ∧ K.born a < K.born b

omit [DecidableEq α] in
/-- A sorted list is taken from the front. -/
theorem precedes_of_sorted {K : Keys α ι} {l : List α} (h : LazyQueue K true l) :
    l.Pairwise (Precedes K) := by
  refine h.ties.imp₂ (fun a b hties htag => ?_) (h.tags rfl)
  rcases lt_or_eq_of_le htag with hlt | heq
  · exact .inl hlt
  · exact .inr ⟨heq, hties heq.ge⟩

/-- The slots go to the least tag. -/
def startTime (K : Keys α ι) (depth : ℤ) : Policy α where
  go l a := (l.running.length : ℤ) < depth ∧ Comes K l a
  wait l a := depth ≤ l.running.length ∧ Comes K l a
  next l a := ∀ b ∈ l.waiting, b ≠ a → Precedes K a b
  idle l := l.waiting = []

variable {K : Keys α ι} {depth : ℤ}

omit [DecidableEq α] in
theorem Slotted.empty (hd : 0 ≤ depth) : Slotted depth (Line.empty : Line α) where
  bound := hd
  full h := absurd rfl h

omit [DecidableEq α] in
theorem Slotted.waiting_nil (h : Slotted depth l) (hfree : (l.running.length : ℤ) < depth) :
    l.waiting = [] := by
  by_contra hne
  have hfull := h.full hne
  omega

theorem Slotted.step (h : Slotted depth l) (hstep : Step (startTime K depth) l l') :
    Slotted depth l' := by
  cases hstep with
  | @go a waiting hok hq =>
      have hnil := h.waiting_nil hok.1
      refine ⟨?_, fun hne => absurd ?_ hne⟩
      · rw [Line.goes_taken]
        exact hok.1
      · rw [hnil] at hq
        exact hq.eq_nil
  | @wait a waiting hok hq =>
      refine ⟨h.bound, fun _ => ?_⟩
      exact le_antisymm h.bound hok.1
  | @finish done next waiting hdone hnext hidle hq =>
      have htaken := Line.finishes_taken hdone next waiting
      cases next with
      | none =>
          have hnil : waiting = [] := (hidle rfl ▸ hq).eq_nil
          refine ⟨?_, fun hne => absurd hnil hne⟩
          have hbound := h.bound
          rw [htaken]
          simp only [Option.toList_none, List.length_nil, Nat.cast_zero]
          omega
      | some a =>
          have hne : l.waiting ≠ [] := List.ne_nil_of_mem (hq.subset (List.mem_cons_self ..))
          have hagain : ((l.finishes done (some a) waiting).running.length : ℤ) = depth := by
            rw [htaken, h.full hne]
            simp
          exact ⟨hagain.le, fun _ => hagain⟩

/-! ## The order -/

/-- The jobs of a flow. -/
def ofFlow [DecidableEq ι] (K : Keys α ι) (f : ι) (l : List α) : List α :=
  l.filter fun a => K.flow a == f

variable [DecidableEq ι]

structure InOrder (K : Keys α ι) (l : Line α) : Prop where
  born : l.accepted.Pairwise fun a b => K.born a < K.born b
  flows : l.accepted.Pairwise fun a b => K.flow a = K.flow b → K.tag a ≤ K.tag b
  tags : l.served.Pairwise fun a b => K.tag a ≤ K.tag b
  late : ∀ a ∈ l.served, ∀ b ∈ l.waiting, K.tag a ≤ K.tag b
  order : ∀ f, ∃ rest, ofFlow K f l.accepted = ofFlow K f l.served ++ rest
    ∧ rest.Perm (ofFlow K f l.waiting)

omit [DecidableEq α] in
theorem InOrder.empty : InOrder K (Line.empty : Line α) where
  born := .nil
  flows := .nil
  tags := .nil
  late a ha := by cases ha
  order f := ⟨[], rfl, .nil⟩

omit [DecidableEq α] in
theorem InOrder.accepted_nodup (h : InOrder K l) : l.accepted.Nodup :=
  h.born.imp fun hab heq => by
    rw [heq] at hab
    exact absurd hab (lt_irrefl _)

omit [DecidableEq α] in
theorem InOrder.snoc (h : InOrder K l) {a : α} (ha : Comes K l a) :
    (l.accepted ++ [a]).Pairwise (fun a b => K.born a < K.born b)
      ∧ (l.accepted ++ [a]).Pairwise fun a b => K.flow a = K.flow b → K.tag a ≤ K.tag b := by
  constructor
  · refine List.pairwise_append.mpr ⟨h.born, List.pairwise_singleton .., ?_⟩
    intro b hb c hc
    rw [List.mem_singleton.mp hc]
    exact ha.born b hb
  · refine List.pairwise_append.mpr ⟨h.flows, List.pairwise_singleton .., ?_⟩
    intro b hb c hc
    rw [List.mem_singleton.mp hc]
    exact ha.tag b hb

omit [DecidableEq α] in
/-- The job of least tag is the first its flow has waiting. -/
theorem InOrder.first (h : InOrder K l) {a : α} {waiting : List α}
    (hleast : ∀ b ∈ waiting, Precedes K a b) (hq : (a :: waiting).Perm l.waiting) (f : ι) :
    ∃ rest, ofFlow K f l.accepted = ofFlow K f (l.served ++ [a]) ++ rest
      ∧ rest.Perm (ofFlow K f waiting) := by
  obtain ⟨rest, hrest, hwaiting⟩ := h.order f
  have hleft : rest.Perm (ofFlow K f (a :: waiting)) := hwaiting.trans (hq.symm.filter _)
  by_cases hf : K.flow a = f
  · have hcons : ofFlow K f (a :: waiting) = a :: ofFlow K f waiting :=
      List.filter_cons_of_pos (beq_iff_eq.mpr hf)
    have hsnoc : ofFlow K f (l.served ++ [a]) = ofFlow K f l.served ++ [a] := by
      simp [ofFlow, hf]
    rw [hcons] at hleft
    obtain ⟨before, after, rfl⟩ := List.append_of_mem (hleft.mem_iff.mpr (List.mem_cons_self ..))
    have hothers : (before ++ after).Perm (ofFlow K f waiting) :=
      (List.perm_cons a).mp (List.perm_middle.symm.trans hleft)
    -- a job of the flow before `a` would be older, and its tag no larger
    have hfirst : before = [] := by
      refine List.eq_nil_iff_forall_not_mem.mpr fun b hb => ?_
      obtain ⟨hbw, hbf⟩ := List.mem_filter.mp (hothers.subset (List.mem_append_left _ hb))
      have hborn : (ofFlow K f l.accepted).Pairwise fun a b => K.born a < K.born b :=
        h.born.filter _
      have hflows : (ofFlow K f l.accepted).Pairwise
          fun a b => K.flow a = K.flow b → K.tag a ≤ K.tag b := h.flows.filter _
      rw [hrest] at hborn hflows
      have hold := (List.pairwise_append.mp (List.pairwise_append.mp hborn).2.1).2.2 b hb a
        (List.mem_cons_self ..)
      have htag := (List.pairwise_append.mp (List.pairwise_append.mp hflows).2.1).2.2 b hb a
        (List.mem_cons_self ..) ((beq_iff_eq.mp hbf).trans hf.symm)
      rcases hleast b hbw with hlt | ⟨-, hyoung⟩
      · omega
      · omega
    subst hfirst
    refine ⟨after, ?_, (List.perm_cons a).mp hleft⟩
    rw [hrest, hsnoc, List.append_assoc]
    rfl
  · have hcons : ofFlow K f (a :: waiting) = ofFlow K f waiting :=
      List.filter_cons_of_neg (by simpa using hf)
    have hsnoc : ofFlow K f (l.served ++ [a]) = ofFlow K f l.served := by
      simp [ofFlow, hf]
    rw [hcons] at hleft
    exact ⟨rest, by rw [hrest, hsnoc], hleft⟩

theorem InOrder.step (h : InOrder K l) (hslots : Slotted depth l) (hkept : Kept l)
    (hstep : Step (startTime K depth) l l') : InOrder K l' := by
  cases hstep with
  | @go a waiting hok hq =>
      have hnil := hslots.waiting_nil hok.1
      obtain ⟨hborn, hflows⟩ := h.snoc hok.2
      obtain rfl : waiting = [] := (hnil ▸ hq).eq_nil
      refine ⟨hborn, hflows, ?_, fun b _ c hc => (by cases hc), fun f => ⟨[], ?_, .nil⟩⟩
      · refine List.pairwise_append.mpr ⟨h.tags, List.pairwise_singleton .., ?_⟩
        intro b hb c hc
        rw [List.mem_singleton.mp hc]
        exact hok.2.late b hb
      · obtain ⟨rest, hrest, hwaiting⟩ := h.order f
        rw [hnil] at hwaiting
        rw [hwaiting.eq_nil, List.append_nil] at hrest
        show ofFlow K f (l.accepted ++ [a]) = ofFlow K f (l.served ++ [a]) ++ []
        unfold ofFlow at hrest ⊢
        rw [List.filter_append, List.filter_append, hrest, List.append_nil]
  | @wait a waiting hok hq =>
      obtain ⟨hborn, hflows⟩ := h.snoc hok.2
      refine ⟨hborn, hflows, h.tags, ?_, fun f => ?_⟩
      · intro b hb c hc
        rcases List.mem_cons.mp (hq.subset hc) with rfl | hold
        · exact hok.2.late b hb
        · exact h.late b hb c hold
      · obtain ⟨rest, hrest, hwaiting⟩ := h.order f
        refine ⟨rest ++ ofFlow K f [a], ?_, ?_⟩
        · show ofFlow K f (l.accepted ++ [a]) = ofFlow K f l.served ++ (rest ++ ofFlow K f [a])
          unfold ofFlow at hrest ⊢
          rw [List.filter_append, hrest, List.append_assoc]
        · refine (hwaiting.append_right _).trans ?_
          show (ofFlow K f l.waiting ++ ofFlow K f [a]).Perm (ofFlow K f waiting)
          unfold ofFlow
          rw [← List.filter_append]
          exact ((List.perm_append_singleton ..).trans hq.symm).filter _
  | @finish done next waiting hdone hnext hidle hq =>
      cases next with
      | none =>
          refine ⟨h.born, h.flows, ?_, ?_, fun f => ?_⟩
          · show (l.served ++ []).Pairwise _
            rw [List.append_nil]
            exact h.tags
          · show ∀ b ∈ l.served ++ [], ∀ c ∈ waiting, _
            rw [List.append_nil]
            exact fun b hb c hc => h.late b hb c (hq.subset hc)
          · obtain ⟨rest, hrest, hwaiting⟩ := h.order f
            refine ⟨rest, ?_, hwaiting.trans (hq.symm.filter _)⟩
            show ofFlow K f l.accepted = ofFlow K f (l.served ++ []) ++ rest
            rw [List.append_nil]
            exact hrest
      | some a =>
          have hmem : a ∈ l.waiting := hq.subset (List.mem_cons_self ..)
          have hnodup : l.waiting.Nodup := by
            have hall := hkept.history.nodup_iff.mpr h.accepted_nodup
            exact (List.nodup_append.mp hall).2.1
          have hleast : ∀ b ∈ waiting, Precedes K a b := by
            intro b hb
            refine hnext a rfl b (hq.subset (List.mem_cons_of_mem _ hb)) ?_
            rintro rfl
            exact (List.nodup_cons.mp (hq.nodup_iff.mpr hnodup)).1 hb
          refine ⟨h.born, h.flows, ?_, ?_, fun f => h.first hleast hq f⟩
          · refine List.pairwise_append.mpr ⟨h.tags, List.pairwise_singleton .., ?_⟩
            intro b hb c hc
            rw [List.mem_singleton.mp hc]
            exact h.late b hb a hmem
          · intro b hb c hc
            rcases List.mem_append.mp hb with hold | hnew
            · exact h.late b hold c (hq.subset (List.mem_cons_of_mem _ hc))
            · rw [List.mem_singleton.mp hnew]
              rcases hleast c hc with hlt | ⟨heq, -⟩
              · exact hlt.le
              · exact heq.le

end SlotLine
