import PvfsProxy.PoolPairing

/-!
# The arrays of the socket pool

`socket_state_list` and `poll_list` are allocated for `pool_capacity` entries and
grown by `increase_socket_pool`. `PoolArrays` is what the growing looks at: the
fields of `s_pool` with the length the arrays were last allocated with, which the
program does not keep. A write outside them is an `Overrun`.

Growing does not raise `pool_capacity`, so the arrays never hold more than twice the
capacity the pool was created with.
-/

namespace PvfsProxy

/-- An index written, and the number of entries there are. -/
structure Overrun where
  index : Nat
  allocated : Nat
deriving Repr, DecidableEq

structure PoolArrays where
  poolSize : Nat
  poolCapacity : Nat
  /-- what both arrays were last allocated with -/
  allocated : Nat
deriving Repr, DecidableEq

namespace PoolArrays

def createSocketPool (capacity : Nat) : PoolArrays where
  poolSize := 0
  poolCapacity := capacity
  allocated := capacity

/-- A write to entry `i` of both arrays. -/
def writeEntry (i : Nat) (s : PoolArrays) : Except Overrun PoolArrays :=
  if i < s.allocated then .ok s else .error ⟨i, s.allocated⟩

/-- `increase_socket_pool`: the entries in use are copied into the new arrays. -/
def increaseSocketPool (s : PoolArrays) : Except Overrun PoolArrays :=
  let newSize := s.poolCapacity * 2
  if s.poolSize ≤ newSize then .ok { s with allocated := newSize }
  else .error ⟨newSize, newSize⟩

/-- One entry of `add_socket_to_pool`: grow at the capacity, write, count. -/
def addEntry (s : PoolArrays) : Except Overrun PoolArrays := do
  let s ← if s.poolSize = s.poolCapacity then s.increaseSocketPool else pure s
  let s ← s.writeEntry s.poolSize
  return { s with poolSize := s.poolSize + 1 }

/-- `add_socket_to_pool`. The listening socket has no counterpart. -/
def addSocketToPool (counterPart : Bool) (s : PoolArrays) : Except Overrun PoolArrays := do
  let s ← s.addEntry
  if counterPart then
    let s ← s.writeEntry (s.poolSize - 1)
    s.addEntry
  else return s

/-- `remove_socket_by_index`, as far as the arrays are concerned. -/
def removeSocketByIndex (i : Nat) (s : PoolArrays) : Except Overrun PoolArrays :=
  { s with poolSize := s.poolSize - 1 }.writeEntry i

/-- The handler of a closed socket: the last pair is moved to where it was. -/
def removePair (i : Nat) (s : PoolArrays) : Except Overrun PoolArrays := do
  let s ← s.removeSocketByIndex i
  let s ← s.removeSocketByIndex (i + 1)
  if s.poolSize ≤ 1 then return s
  let s ← s.writeEntry i
  s.writeEntry (i + 1)

inductive Event where
  | add
  | remove (i : Nat)
deriving Repr, DecidableEq

def step (s : PoolArrays) : Event → Except Overrun PoolArrays
  | .add => s.addSocketToPool true
  | .remove i => s.removePair i

/-- Only connections that are open are removed, by the slot of their client. -/
def Allowed (s : PoolArrays) : Event → Prop
  | .add => True
  | .remove i => i % 2 = 1 ∧ i + 1 < s.poolSize

instance (s : PoolArrays) : (e : Event) → Decidable (s.Allowed e)
  | .add => inferInstanceAs (Decidable True)
  | .remove _ => inferInstanceAs (Decidable (_ ∧ _))

/-- There is room for what the event adds. -/
def HasRoom (s : PoolArrays) : Event → Prop
  | .add => s.poolSize + 2 ≤ 2 * s.poolCapacity
  | .remove _ => True

instance (s : PoolArrays) : (e : Event) → Decidable (s.HasRoom e)
  | .add => inferInstanceAs (Decidable (_ ≤ _))
  | .remove _ => inferInstanceAs (Decidable True)

/-! ## What the arrays hold -/

/-- The representation: the entries in use are allocated, and the arrays have been
grown if there are more than the capacity. -/
structure Fits (s : PoolArrays) : Prop where
  inside : s.poolSize ≤ s.allocated
  allocated : s.allocated = s.poolCapacity ∧ s.poolSize ≤ s.poolCapacity
    ∨ s.allocated = 2 * s.poolCapacity

variable {s s' : PoolArrays} {e : Event}

theorem writeEntry_eq_ok {i : Nat} : s.writeEntry i = .ok s' ↔ i < s.allocated ∧ s = s' := by
  unfold writeEntry
  split <;> simp_all

/-- What the entry is written into: the arrays, grown at the capacity. -/
theorem addEntry_eq_ok (h : s.Fits) : s.addEntry = .ok s' ↔ s.poolSize + 1 ≤ 2 * s.poolCapacity
    ∧ { s with
        poolSize := s.poolSize + 1
        allocated := if s.poolSize = s.poolCapacity then 2 * s.poolCapacity
          else s.allocated } = s' := by
  obtain ⟨hinside, hallocated⟩ := h
  unfold addEntry increaseSocketPool
  by_cases hfull : s.poolSize = s.poolCapacity
  · have hfits : s.poolCapacity ≤ 2 * s.poolCapacity := by omega
    simp only [hfull, if_pos, hfits, Machine.bind_eq_ok, Except.ok.injEq, exists_eq_left',
      writeEntry_eq_ok, Machine.pure_eq_ok, Nat.mul_comm s.poolCapacity 2]
    constructor
    · rintro ⟨_, ⟨hlt, rfl⟩, rfl⟩
      exact ⟨by omega, rfl⟩
    · rintro ⟨hroom, rfl⟩
      exact ⟨_, ⟨by omega, rfl⟩, rfl⟩
  · simp only [hfull, if_false, Machine.bind_eq_ok, Machine.pure_eq_ok, exists_eq_left',
      writeEntry_eq_ok]
    constructor
    · rintro ⟨_, ⟨hlt, rfl⟩, rfl⟩
      exact ⟨by omega, rfl⟩
    · rintro ⟨hroom, rfl⟩
      exact ⟨_, ⟨by omega, rfl⟩, rfl⟩

theorem Fits.addEntry (h : s.Fits) (hs' : s.addEntry = .ok s') :
    s'.Fits ∧ s'.poolSize = s.poolSize + 1 ∧ s'.poolCapacity = s.poolCapacity := by
  obtain ⟨hroom, rfl⟩ := (addEntry_eq_ok h).mp hs'
  obtain ⟨hinside, hallocated⟩ := h
  refine ⟨⟨?_, ?_⟩, rfl, rfl⟩
  · dsimp only
    split <;> omega
  · dsimp only
    split <;> omega

/-- A connection is added in the arrays exactly when there is room for it. -/
theorem addSocketToPool_returns (h : s.Fits) : (∃ s', s.addSocketToPool true = .ok s')
    ↔ s.poolSize + 2 ≤ 2 * s.poolCapacity := by
  simp only [addSocketToPool, Machine.bind_eq_ok, if_true, writeEntry_eq_ok]
  constructor
  · rintro ⟨t, u, hu, v, ⟨-, rfl⟩, ht⟩
    obtain ⟨hfits, hsize, hcapacity⟩ := h.addEntry hu
    have hroom := ((addEntry_eq_ok hfits).mp ht).1
    omega
  · intro hroom
    have hu := (addEntry_eq_ok h).mpr ⟨by omega, rfl⟩
    obtain ⟨hfits, hsize, hcapacity⟩ := h.addEntry hu
    have hinside := hfits.inside
    exact ⟨_, _, hu, _, ⟨by omega, rfl⟩, (addEntry_eq_ok hfits).mpr ⟨by omega, rfl⟩⟩

theorem Fits.addSocketToPool (h : s.Fits) (hs' : s.addSocketToPool true = .ok s') :
    s'.Fits ∧ s'.poolSize = s.poolSize + 2 ∧ s'.poolCapacity = s.poolCapacity := by
  simp only [PoolArrays.addSocketToPool, Machine.bind_eq_ok, if_true, writeEntry_eq_ok] at hs'
  obtain ⟨u, hu, v, ⟨-, rfl⟩, ht⟩ := hs'
  obtain ⟨hfits, hsize, hcapacity⟩ := h.addEntry hu
  obtain ⟨hfits', hsize', hcapacity'⟩ := hfits.addEntry ht
  exact ⟨hfits', by omega, by omega⟩

/-- The entries of a connection that goes, and those the last pair is moved to, are
among the ones in use. -/
theorem removePair_eq (h : s.Fits) {i : Nat} (hi : i + 1 < s.poolSize) :
    s.removePair i = .ok { s with poolSize := s.poolSize - 1 - 1 } := by
  have hinside := h.inside
  have hfirst : i < s.allocated := by omega
  have hsecond : i + 1 < s.allocated := by omega
  simp [removePair, removeSocketByIndex, writeEntry, hfirst, hsecond, bind, Except.bind, pure,
    Except.pure]

/-! ## Runs -/

theorem Fits.step (h : s.Fits) (he : s.Allowed e) (hs' : s.step e = .ok s') : s'.Fits := by
  cases e with
  | add => exact (h.addSocketToPool hs').1
  | remove i =>
      obtain ⟨hinside, hallocated⟩ := h
      rw [PoolArrays.step, removePair_eq ⟨hinside, hallocated⟩ he.2] at hs'
      obtain rfl := Except.ok.inj hs'
      refine ⟨?_, ?_⟩
      · dsimp only
        omega
      · dsimp only
        omega

theorem step_returns (h : s.Fits) (he : s.Allowed e) :
    (∃ s', s.step e = .ok s') ↔ s.HasRoom e := by
  cases e with
  | add => exact addSocketToPool_returns h
  | remove i => exact iff_of_true ⟨_, removePair_eq h he.2⟩ trivial

/-- The arrays hold as many connections as leave room for the next. -/
theorem adds {s₀ : PoolArrays} (h : s₀.Fits) : ∀ {n : Nat},
    s₀.poolSize + 2 * n ≤ 2 * s₀.poolCapacity →
    ∃ s, Machine.Run PoolArrays.Allowed PoolArrays.step s₀ (List.replicate n .add) s ∧ s.Fits
      ∧ s.poolSize = s₀.poolSize + 2 * n ∧ s.poolCapacity = s₀.poolCapacity
  | 0, _ => ⟨s₀, .nil, h, rfl, rfl⟩
  | n + 1, hroom => by
      obtain ⟨s, hrun, hfits, hsize, hcapacity⟩ := adds h (n := n) (by omega)
      obtain ⟨s', hs'⟩ := (addSocketToPool_returns hfits).mpr (by omega)
      obtain ⟨hfits', hsize', hcapacity'⟩ := hfits.addSocketToPool hs'
      rw [List.replicate_succ']
      exact ⟨s', hrun.snoc trivial hs', hfits', by omega, hcapacity'.trans hcapacity⟩

/-- With one entry left in the arrays, the socket of a connection's server is written
behind them. -/
theorem add_overruns (h : s.Fits) (hcapacity : 2 ≤ s.poolCapacity)
    (hsize : s.poolSize + 1 = 2 * s.poolCapacity) :
    s.step .add = .error ⟨2 * s.poolCapacity, 2 * s.poolCapacity⟩ := by
  obtain ⟨-, ⟨-, hle⟩ | hallocated⟩ := h
  · omega
  have hfirst : ¬ s.poolSize = s.poolCapacity := by omega
  have hsecond : ¬ 2 * s.poolCapacity = s.poolCapacity := by omega
  have hclient : s.poolSize < 2 * s.poolCapacity := by omega
  have hcounter : 2 * s.poolCapacity - 1 < 2 * s.poolCapacity := by omega
  simp [step, addSocketToPool, addEntry, writeEntry, bind, Except.bind, pure, Except.pure, hfirst,
    hclient, hsize, hcounter, hsecond, hallocated]

end PoolArrays

/-- **The arrays are not overrun while there is room.** In every state that a pool
of any capacity reaches, with the listening socket first and connections added and
removed since, the next event writes inside the arrays if and only if it has room:
twice the capacity holds the entries there are with what the event adds. -/
theorem socket_pool_inside {capacity : Nat} {s₀ s : PoolArrays}
    (hlisten : (PoolArrays.createSocketPool capacity).addSocketToPool false = .ok s₀)
    {es : List PoolArrays.Event}
    (hrun : Machine.Run PoolArrays.Allowed PoolArrays.step s₀ es s) {e : PoolArrays.Event}
    (he : s.Allowed e) : (∃ s', s.step e = .ok s') ↔ s.HasRoom e := by
  have hempty : (PoolArrays.createSocketPool capacity).Fits :=
    ⟨Nat.zero_le _, .inl ⟨rfl, Nat.zero_le _⟩⟩
  have hfits₀ : s₀.Fits := by
    simp only [PoolArrays.addSocketToPool, Machine.bind_eq_ok, Bool.false_eq_true, if_false,
      Machine.pure_eq_ok, exists_eq_right] at hlisten
    exact (hempty.addEntry hlisten).1
  exact PoolArrays.step_returns (hrun.invariant hfits₀ fun _ _ _ h he hs => h.step he hs) he

/-- A pool for two entries takes the listening socket and one connection. -/
theorem socket_pool_inside_example :
    ∃ s : PoolArrays, s.poolSize = 1 ∧ ∃ s', s.step .add = .ok s' := by
  obtain ⟨s, hrun, hs⟩ := Machine.Run.exists_of_exec PoolArrays.Allowed PoolArrays.step
    { poolSize := 1, poolCapacity := 2, allocated := 2 } [.add, .remove 1]
    (fun s => (s.poolSize, decide (s.HasRoom .add))) (a := (1, true)) (by decide)
  simp only [Prod.mk.injEq, decide_eq_true_eq] at hs
  exact ⟨s, hs.1, (@socket_pool_inside 2 _ s (by decide) _ hrun .add trivial).mpr hs.2⟩

/-- With the capacity of the program, the 10000th connection is written behind the arrays. -/
theorem socket_pool_overrun :
    (PoolArrays.createSocketPool 10000).addSocketToPool false
        = .ok { poolSize := 1, poolCapacity := 10000, allocated := 10000 }
      ∧ ∃ s : PoolArrays, Machine.Run PoolArrays.Allowed PoolArrays.step
          { poolSize := 1, poolCapacity := 10000, allocated := 10000 } (List.replicate 9999 .add) s
        ∧ s.Allowed .add ∧ s.step .add = .error { index := 20000, allocated := 20000 } := by
  have hfits : PoolArrays.Fits { poolSize := 1, poolCapacity := 10000, allocated := 10000 } :=
    ⟨by decide, .inl ⟨rfl, by decide⟩⟩
  obtain ⟨s, hrun, hs, hsize, hcapacity⟩ := PoolArrays.adds hfits (n := 9999) (by decide)
  dsimp only at hsize hcapacity
  have hover := PoolArrays.add_overruns hs (by omega) (by omega)
  rw [hcapacity] at hover
  exact ⟨by decide, s, hrun, trivial, hover⟩

/-! ## The proxy's pool -/

variable {σ ι : Type}

/-- The arrays count the entries of the pool: a connection accepted, -/
theorem PoolArrays.Fits.accept {a a' : PoolArrays} (h : a.Fits) {s : Proxy σ ι}
    (hsize : a.poolSize = s.poolSize) (ha' : a.step .add = .ok a') (cfg : Config σ ι)
    (client : Int) {server : Int} (hserver : server ≠ 0) (ipa : IpApplication) :
    a'.poolSize = (s.acceptSocket cfg client server ipa).poolSize := by
  rw [(h.addSocketToPool ha').2.1, (Proxy.acceptSocket_rest cfg client hserver ipa).1, hsize]

/-- and one closed. -/
theorem PoolArrays.Fits.closePair {a a' : PoolArrays} (h : a.Fits) {s s' : Proxy σ ι}
    (hsize : a.poolSize = s.poolSize) (hpaired : s.Paired) {i : Nat} (hi : i % 2 = 1)
    (hlt : i < s.poolSize) (ha' : a.step (.remove i) = .ok a') (hs' : s.closePair i = .ok s') :
    a'.poolSize = s'.poolSize := by
  have hodd := hpaired.odd
  obtain ⟨t, n, ht, hn, hsize', -⟩ := Proxy.closePair_ok hpaired hi hlt
  obtain rfl : t = s' := Except.ok.inj (ht.symm.trans hs')
  rw [PoolArrays.step, removePair_eq h (by omega)] at ha'
  obtain rfl := Except.ok.inj ha'
  dsimp only
  omega

end PvfsProxy
