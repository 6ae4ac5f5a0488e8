import Mathlib.Data.List.TakeWhile
import PvfsProxy.Lib.SlotTable

/-!
# The dictionary of `dictionary.c`

The arrays `key`, `val` and `hash` are one list of slots, and `size` is its
length. A set looks for the key in the slots; where it finds it the value is
replaced, else the arrays are doubled if they are full and the first free slot
is written. An unset frees the slot of its key, wherever that is.

A slot matches when its hash and its key are equal to the key's. The hash of a
taken slot is that of its key, so that a match is equality of the keys, and the
dictionary is a table of slots: what `dictionary_get` finds after any calls is
what a map from keys to values holds after them.
-/

namespace PvfsProxy

open SlotTable

/-- What an access outside of an object, or through NULL, ends in. -/
inductive MemoryFault where
  | outside
  | nullPointer
deriving Repr, DecidableEq

/-- A `char *` that `dictionary_get` hands out: NULL, `(char*)-1`, or a string. -/
inductive CharPtr where
  | null
  | invalidKey
  | str (s : List Char)
deriving Repr, DecidableEq

/-- The pointer to a value, which may be NULL. -/
def CharPtr.ofVal : Option (List Char) → CharPtr
  | none => .null
  | some s => .str s

/-- One place of the arrays `key`, `val` and `hash`. -/
structure DictSlot where
  key : Option (List Char)
  val : Option (List Char)
  hash : UInt32
deriving Repr, DecidableEq

/-- What `calloc` leaves in a place. -/
def freeSlot : DictSlot := ⟨none, none, 0⟩

structure Dictionary where
  n : Int
  slots : List DictSlot
deriving Repr, DecidableEq

def Dictionary.size (d : Dictionary) : Nat := d.slots.length

def dictminsz : Nat := 128

/-- `mem_double` on the three arrays. -/
def memDouble (slots : List DictSlot) : List DictSlot :=
  slots ++ List.replicate slots.length freeSlot

/-- `(unsigned)key[i]`: a `char` is signed. -/
def unsignedOfChar (c : Char) : UInt32 :=
  if c.toNat < 128 then UInt32.ofNat c.toNat else UInt32.ofNat c.toNat - 256

def dictionaryHash (key : List Char) : UInt32 :=
  let hash := key.foldl (fun hash c =>
    let hash := hash + unsignedOfChar c
    let hash := hash + hash <<< 10
    hash ^^^ (hash >>> 6)) 0
  let hash := hash + hash <<< 3
  let hash := hash ^^^ (hash >>> 11)
  hash + hash <<< 15

def dictionaryNew (size : Int) : Dictionary where
  n := 0
  slots := List.replicate (if size < dictminsz then dictminsz else size.toNat) freeSlot

/-- The tests of the loops of `dictionary.c` on one slot. -/
def DictSlot.holds (hash : UInt32) (key : List Char) (slot : DictSlot) : Bool :=
  match slot.key with
  | none => false
  | some k => hash == slot.hash && key == k

def dictionaryGet (d : Dictionary) (key : List Char) (deflt : CharPtr) : CharPtr :=
  match d.slots.find? (DictSlot.holds (dictionaryHash key) key) with
  | some slot => .ofVal slot.val
  | none => deflt

/-- What `dictionary_set` does once the key was not found. -/
def dictionaryAdd (d : Dictionary) (key : List Char) (val : Option (List Char)) :
    Except MemoryFault Dictionary :=
  let slots := if d.n = d.size then memDouble d.slots else d.slots
  match slots.findIdx? (·.key.isNone) with
  | some i => .ok { n := d.n + 1, slots := slots.set i ⟨some key, val, dictionaryHash key⟩ }
  | none => .error .outside

/-- `dictionary_set`, with the value it returns. Only the key may be NULL. -/
def dictionarySet (d : Dictionary) (key val : Option (List Char)) :
    Except MemoryFault (Dictionary × Int) :=
  match key with
  | none => .ok (d, -1)
  | some key =>
    match if d.n > 0 then d.slots.findIdx? (DictSlot.holds (dictionaryHash key) key) else none with
    | some i => .ok ({ d with slots := d.slots.modify i fun slot => { slot with val } }, 0)
    | none => do
      let d ← dictionaryAdd d key val
      return (d, 0)

def dictionaryUnset (d : Dictionary) (key : Option (List Char)) : Dictionary :=
  match key with
  | none => d
  | some key =>
    match d.slots.findIdx? (DictSlot.holds (dictionaryHash key) key) with
    | some i => { n := d.n - 1, slots := d.slots.set i freeSlot }
    | none => d

/-! ## The dictionary as a table of slots -/

/-- A taken slot, read as an entry of a table. -/
def DictSlot.entry (slot : DictSlot) : Option (List Char × Option (List Char)) :=
  slot.key.map fun k => (k, slot.val)

@[simp] theorem entry_freeSlot : freeSlot.entry = none := rfl

theorem entry_eq_none {slot : DictSlot} : slot.entry = none ↔ slot.key.isNone = true := by
  cases slot with
  | mk key val hash => cases key <;> simp [DictSlot.entry]

theorem entry_eq_some {slot : DictSlot} {key : List Char} {val : Option (List Char)} :
    slot.entry = some (key, val) ↔ slot.key = some key ∧ slot.val = val := by
  cases slot with
  | mk k v hash => cases k <;> simp [DictSlot.entry]

/-- The value a key has, NULL included. -/
def Dictionary.find (d : Dictionary) (key : List Char) : Option (Option (List Char)) :=
  lookup DictSlot.entry d.slots key

def Dictionary.keys (d : Dictionary) : List (List Char) := SlotTable.keys DictSlot.entry d.slots

/-- What every call keeps: there are slots, a taken slot has its key's hash, no
key is there twice, and `n` counts the taken slots. -/
structure Dictionary.Wf (d : Dictionary) : Prop where
  size_pos : 0 < d.size
  hashed : ∀ slot ∈ d.slots, ∀ key, slot.key = some key → slot.hash = dictionaryHash key
  distinct : Distinct DictSlot.entry d.slots
  counts : d.n = used DictSlot.entry d.slots

variable {d : Dictionary} {key : List Char}

/-- With the hash of the key in the slot, the tests compare keys. -/
theorem holds_iff {slot : DictSlot}
    (h : ∀ key, slot.key = some key → slot.hash = dictionaryHash key) :
    slot.holds (dictionaryHash key) key = true ↔ slot.key = some key := by
  cases slot with
  | mk k v hash =>
      cases k with
      | none => simp [DictSlot.holds]
      | some k =>
          have hhash : hash = dictionaryHash k := h k rfl
          simp only [DictSlot.holds, hhash, Bool.and_eq_true, beq_iff_eq, Option.some.injEq]
          constructor
          · rintro ⟨-, rfl⟩
            rfl
          · rintro rfl
            exact ⟨rfl, rfl⟩

theorem find?_holds : ∀ {slots : List DictSlot},
    (∀ slot ∈ slots, ∀ key, slot.key = some key → slot.hash = dictionaryHash key) →
    (slots.find? (DictSlot.holds (dictionaryHash key) key)).map DictSlot.val
      = lookup DictSlot.entry slots key
  | [], _ => rfl
  | slot :: slots, h => by
      have hslot : slot.holds (dictionaryHash key) key = true ↔ slot.key = some key :=
        holds_iff (h slot List.mem_cons_self)
      rw [List.find?_cons, lookup_cons]
      by_cases hkey : slot.key = some key
      · rw [hslot.mpr hkey, valueAt_of_entry (entry_eq_some.mpr ⟨hkey, rfl⟩)]
        rfl
      · have hno : valueAt DictSlot.entry key slot = none := by
          cases hv : valueAt DictSlot.entry key slot with
          | none => rfl
          | some v => exact absurd (entry_eq_some.mp (valueAt_eq_some.mp hv)).1 hkey
        rw [Bool.eq_false_iff.mpr (mt hslot.mp hkey), hno, Option.none_or]
        exact find?_holds fun s hs => h s (List.mem_cons_of_mem slot hs)

theorem Dictionary.Wf.get (h : d.Wf) (key : List Char) (deflt : CharPtr) :
    dictionaryGet d key deflt = ((d.find key).map CharPtr.ofVal).getD deflt := by
  unfold dictionaryGet Dictionary.find
  rw [← find?_holds h.hashed]
  cases d.slots.find? (DictSlot.holds (dictionaryHash key) key) <;> rfl

theorem findIdx?_cut {p : DictSlot → Bool} : ∀ {slots : List DictSlot} {i : Nat},
    slots.findIdx? p = some i →
    ∃ l slot r, slots = l ++ slot :: r ∧ i = l.length ∧ p slot = true
  | [], _, h => by simp at h
  | slot :: slots, i, h => by
      rw [List.findIdx?_cons] at h
      split at h
      · rename_i hp
        obtain rfl := Option.some.inj h
        exact ⟨[], slot, slots, rfl, rfl, hp⟩
      · obtain ⟨j, hj, rfl⟩ := Option.map_eq_some_iff.mp h
        obtain ⟨l, s, r, rfl, rfl, hp⟩ := findIdx?_cut hj
        exact ⟨slot :: l, s, r, rfl, rfl, hp⟩

theorem set_cut (l r : List DictSlot) (slot slot' : DictSlot) :
    (l ++ slot :: r).set l.length slot' = l ++ slot' :: r := by
  rw [List.set_append_right _ _ (Nat.le_refl _), Nat.sub_self]
  rfl

theorem modify_cut (l r : List DictSlot) (slot : DictSlot) (f : DictSlot → DictSlot) :
    (l ++ slot :: r).modify l.length f = l ++ f slot :: r := by
  induction l with
  | nil => rfl
  | cons s l ih => rw [List.cons_append, List.length_cons, List.modify_succ_cons, ih,
      List.cons_append]

/-! ## The calls -/

theorem hashed_key {slot : DictSlot} (h : d.Wf) (hslot : slot ∈ d.slots) :
    slot.holds (dictionaryHash key) key = true ↔ slot.key = some key :=
  holds_iff (h.hashed slot hslot)

theorem Dictionary.Wf.notMem (h : d.Wf)
    (hnone : d.slots.findIdx? (DictSlot.holds (dictionaryHash key) key) = none) :
    key ∉ d.keys := by
  intro hin
  obtain ⟨slot, hslot, v, hentry⟩ := mem_keys.mp hin
  have hno := List.findIdx?_eq_none_iff.mp hnone slot hslot
  rw [(hashed_key h hslot).mpr (entry_eq_some.mp hentry).1] at hno
  cases hno

theorem Dictionary.Wf.cut (h : d.Wf) {i : Nat}
    (hi : d.slots.findIdx? (DictSlot.holds (dictionaryHash key) key) = some i) :
    ∃ l slot r, d.slots = l ++ slot :: r ∧ i = l.length
      ∧ slot.entry = some (key, slot.val)
      ∧ key ∉ SlotTable.keys DictSlot.entry l ∧ key ∉ SlotTable.keys DictSlot.entry r := by
  obtain ⟨l, slot, r, hcut, hlen, hp⟩ := findIdx?_cut hi
  have hslot : slot ∈ d.slots := by
    rw [hcut]
    exact List.mem_append_right l List.mem_cons_self
  have hentry := entry_eq_some.mpr ⟨(hashed_key h hslot).mp hp, rfl⟩
  have hdistinct := h.distinct
  rw [hcut] at hdistinct
  obtain ⟨hl, hr⟩ := hdistinct.others hentry
  exact ⟨l, slot, r, hcut, hlen, hentry, hl, hr⟩

theorem hashed_cut {l r : List DictSlot} {slot slot' : DictSlot}
    (h : ∀ s ∈ l ++ slot :: r, ∀ k, s.key = some k → s.hash = dictionaryHash k)
    (hslot : ∀ k, slot'.key = some k → slot'.hash = dictionaryHash k) :
    ∀ s ∈ l ++ slot' :: r, ∀ k, s.key = some k → s.hash = dictionaryHash k := by
  intro s hs
  rw [List.mem_append, List.mem_cons] at hs
  rcases hs with hs | rfl | hs
  · exact h s (List.mem_append_left _ hs)
  · exact hslot
  · exact h s (List.mem_append_right _ (List.mem_cons_of_mem _ hs))

theorem Dictionary.Wf.replace (h : d.Wf) {i : Nat} (val : Option (List Char))
    (hi : d.slots.findIdx? (DictSlot.holds (dictionaryHash key) key) = some i) :
    let d' : Dictionary := { d with slots := d.slots.modify i fun slot => { slot with val } }
    d'.Wf ∧ d'.find = Function.update d.find key (some val) ∧ d'.size = d.size := by
  obtain ⟨l, slot, r, hcut, rfl, hentry, hl, hr⟩ := h.cut hi
  obtain ⟨hkey, -⟩ := entry_eq_some.mp hentry
  have hentry' : DictSlot.entry { slot with val } = some (key, val) :=
    entry_eq_some.mpr ⟨hkey, rfl⟩
  obtain ⟨hpos, hhash, hdistinct, hcount⟩ := h
  rw [hcut, modify_cut]
  rw [hcut] at hhash hdistinct hcount
  dsimp only
  refine ⟨⟨?_, ?_, ?_, ?_⟩, ?_, ?_⟩
  · rw [Dictionary.size, List.length_append, List.length_cons]
    omega
  · refine hashed_cut hhash fun k hk => ?_
    exact hhash slot (List.mem_append_right l List.mem_cons_self) k hk
  · refine hdistinct.write fun e he => ?_
    obtain rfl := Option.some.inj (hentry'.symm.trans he)
    exact ⟨hl, hr⟩
  · rw [used_cut, hentry] at hcount
    rw [used_cut, hentry']
    exact hcount
  · unfold Dictionary.find
    rw [hcut, lookup_write (s := slot) hl hr fun k' hk' => ?_, valueAt_of_entry hentry']
    rw [valueAt_of_ne hentry' hk', valueAt_of_ne hentry hk']
  · rw [Dictionary.size, Dictionary.size, hcut, List.length_append, List.length_append]
    rfl

theorem memDouble_free (slots : List DictSlot) :
    ∀ s ∈ List.replicate slots.length freeSlot, DictSlot.entry s = none := by
  intro s hs
  rw [List.eq_of_mem_replicate hs]
  rfl

/-- The arrays `dictionary_set` adds a key to: what they hold is the same, and they
are not full. -/
theorem Dictionary.Wf.grown (h : d.Wf) :
    ∃ slots, (if d.n = d.size then memDouble d.slots else d.slots) = slots
      ∧ entries DictSlot.entry slots = entries DictSlot.entry d.slots
      ∧ lookup DictSlot.entry slots = lookup DictSlot.entry d.slots
      ∧ used DictSlot.entry slots < slots.length
      ∧ (∀ s ∈ slots, ∀ k, s.key = some k → s.hash = dictionaryHash k)
      ∧ (slots.length = d.size ∨ d.n = d.size ∧ slots.length = 2 * d.size) := by
  have hpos := h.size_pos
  have hcount := h.counts
  unfold Dictionary.size at hpos ⊢
  split
  · rename_i hfull
    have hentries := entries_append_free (l := d.slots) (memDouble_free d.slots)
    have hlen : (memDouble d.slots).length = 2 * d.slots.length := by
      rw [memDouble, List.length_append, List.length_replicate]
      omega
    refine ⟨memDouble d.slots, rfl, hentries, lookup_append_free (memDouble_free d.slots), ?_, ?_,
      .inr ⟨hfull, hlen⟩⟩
    · have hused : used DictSlot.entry (memDouble d.slots) = used DictSlot.entry d.slots :=
        congrArg List.length hentries
      omega
    · intro s hs k hk
      rcases List.mem_append.mp hs with hs | hs
      · exact h.hashed s hs k hk
      · rw [List.eq_of_mem_replicate hs] at hk
        cases hk
  · rename_i hroom
    have hle : used DictSlot.entry d.slots ≤ d.slots.length := used_le d.slots
    exact ⟨d.slots, rfl, rfl, rfl, by omega, h.hashed, .inl rfl⟩

theorem Dictionary.Wf.add (h : d.Wf) (val : Option (List Char)) (hkey : key ∉ d.keys) :
    ∃ d', dictionaryAdd d key val = .ok d' ∧ d'.Wf
      ∧ d'.find = Function.update d.find key (some val)
      ∧ (d'.size = d.size ∨ d.n = d.size ∧ d'.size = 2 * d.size) ∧ d'.n ≤ d.n + 1 := by
  obtain ⟨slots, hslots, hentries, hlookup, hroom, hhash, hsize⟩ := h.grown
  obtain ⟨free, hfree, hentry⟩ := exists_free hroom
  obtain ⟨i, hi⟩ : ∃ i, slots.findIdx? (·.key.isNone) = some i := by
    rw [← Option.isSome_iff_exists, List.findIdx?_isSome, List.any_eq_true]
    exact ⟨free, hfree, entry_eq_none.mp hentry⟩
  obtain ⟨l, slot, r, rfl, rfl, hp⟩ := findIdx?_cut hi
  have hnone : slot.entry = none := entry_eq_none.mpr hp
  have hnew : DictSlot.entry ⟨some key, val, dictionaryHash key⟩ = some (key, val) := rfl
  have hkeys : key ∉ SlotTable.keys DictSlot.entry (l ++ slot :: r) := by
    unfold SlotTable.keys
    rw [hentries]
    exact hkey
  rw [keys_cut, List.mem_append, List.mem_append, not_or, not_or] at hkeys
  refine ⟨⟨d.n + 1, l ++ ⟨some key, val, dictionaryHash key⟩ :: r⟩, ?_, ⟨?_, ?_, ?_, ?_⟩, ?_, ?_,
    Int.le_refl _⟩
  · simp only [dictionaryAdd, hslots, hi, set_cut]
  · rw [Dictionary.size, List.length_append, List.length_cons]
    omega
  · refine hashed_cut hhash fun k hk => ?_
    rw [Option.some.inj hk]
  · have hdistinct : Distinct DictSlot.entry (l ++ slot :: r) := by
      unfold Distinct SlotTable.keys
      rw [hentries]
      exact h.distinct
    refine hdistinct.write fun e he => ?_
    obtain rfl := Option.some.inj (hnew.symm.trans he)
    exact ⟨hkeys.1.1, hkeys.2⟩
  · have hcount := h.counts
    have hused : used DictSlot.entry (l ++ slot :: r) = used DictSlot.entry d.slots :=
      congrArg List.length hentries
    rw [used_cut, hnone] at hused
    rw [used_cut, hnew, hcount, ← hused]
    simp only [Option.toList_none, Option.toList_some, List.length_nil, List.length_singleton]
    omega
  · unfold Dictionary.find
    rw [← hlookup, lookup_write (s := slot) hkeys.1.1 hkeys.2 fun k' hk' => ?_,
      valueAt_of_entry hnew]
    rw [valueAt_of_ne hnew hk', valueAt_of_free hnone]
  · rw [List.length_append, List.length_cons] at hsize
    rw [Dictionary.size, List.length_append, List.length_cons]
    exact hsize

/-- `dictionary_set` gives the key the value and changes no other key. -/
theorem Dictionary.Wf.set (h : d.Wf) (key : List Char) (val : Option (List Char)) :
    ∃ d', dictionarySet d (some key) val = .ok (d', 0) ∧ d'.Wf
      ∧ d'.find = Function.update d.find key (some val)
      ∧ (d'.size = d.size ∨ d.n = d.size ∧ d'.size = 2 * d.size) ∧ d'.n ≤ d.n + 1 := by
  cases hi : (if d.n > 0 then d.slots.findIdx? (DictSlot.holds (dictionaryHash key) key)
      else none) with
  | some i =>
      have hfind : d.slots.findIdx? (DictSlot.holds (dictionaryHash key) key) = some i := by
        split at hi
        · exact hi
        · cases hi
      obtain ⟨hwf, hupdate, hsize⟩ := h.replace val hfind
      exact ⟨_, by simp only [dictionarySet, hi], hwf, hupdate, .inl hsize,
        Int.le_add_of_nonneg_right (by decide)⟩
  | none =>
      have hkey : key ∉ d.keys := by
        split at hi
        · exact h.notMem hi
        · rename_i hn
          -- an empty dictionary is not searched
          have hcount := h.counts
          have hempty : used DictSlot.entry d.slots = 0 := by omega
          have hnil : SlotTable.keys DictSlot.entry d.slots = [] := by
            rw [SlotTable.keys, List.length_eq_zero_iff.mp hempty]
            rfl
          unfold Dictionary.keys
          rw [hnil]
          exact List.not_mem_nil
      obtain ⟨d', hadd, hrest⟩ := h.add val hkey
      refine ⟨d', ?_, hrest⟩
      simp only [dictionarySet, hi, hadd]
      rfl

/-- `dictionary_unset` takes the key out and changes no other key. -/
theorem Dictionary.Wf.unset (h : d.Wf) (key : List Char) :
    (dictionaryUnset d (some key)).Wf
      ∧ (dictionaryUnset d (some key)).find = Function.update d.find key none
      ∧ (dictionaryUnset d (some key)).size = d.size
      ∧ (dictionaryUnset d (some key)).n ≤ d.n + 1 := by
  cases hi : d.slots.findIdx? (DictSlot.holds (dictionaryHash key) key) with
  | none =>
      have hnone : d.find key = none := lookup_eq_none.mpr (h.notMem hi)
      have hsame : dictionaryUnset d (some key) = d := by simp only [dictionaryUnset, hi]
      rw [hsame, ← hnone, Function.update_eq_self]
      exact ⟨h, rfl, rfl, by omega⟩
  | some i =>
      obtain ⟨l, slot, r, hcut, rfl, hentry, hl, hr⟩ := h.cut hi
      obtain ⟨hpos, hhash, hdistinct, hcount⟩ := h
      rw [hcut] at hhash hdistinct hcount
      have hset : d.slots.set l.length freeSlot = l ++ freeSlot :: r := by rw [hcut, set_cut]
      simp only [dictionaryUnset, hi]
      rw [hset]
      refine ⟨⟨?_, ?_, ?_, ?_⟩, ?_, ?_, ?_⟩
      · rw [Dictionary.size, List.length_append, List.length_cons]
        omega
      · refine hashed_cut hhash fun k hk => ?_
        cases hk
      · exact hdistinct.write fun e he => by cases he
      · rw [used_cut, hentry] at hcount
        rw [used_cut, entry_freeSlot, hcount]
        simp only [Option.toList_none, Option.toList_some, List.length_nil, List.length_singleton]
        omega
      · unfold Dictionary.find
        rw [hcut, lookup_write (s := slot) hl hr fun k' hk' => ?_,
          valueAt_of_free entry_freeSlot]
        rw [valueAt_of_ne hentry hk', valueAt_of_free entry_freeSlot]
      · rw [Dictionary.size, Dictionary.size, hcut, List.length_append, List.length_append]
        rfl
      · omega

/-! ## Runs -/

/-- A call that changes the dictionary. -/
inductive DictCall where
  | set (key val : Option (List Char))
  | unset (key : Option (List Char))
deriving Repr, DecidableEq

def Dictionary.call (d : Dictionary) : DictCall → Except MemoryFault Dictionary
  | .set key val => (dictionarySet d key val).map Prod.fst
  | .unset key => .ok (dictionaryUnset d key)

/-- What a dictionary is for: the value each key has, which may be NULL. -/
abbrev Settings := List Char → Option (Option (List Char))

def Settings.call (m : Settings) : DictCall → Settings
  | .set none _ | .unset none => m
  | .set (some key) val => Function.update m key (some val)
  | .unset (some key) => Function.update m key none

/-- The dictionary after some calls stands for the settings after them. -/
structure Dictionary.Holds (size count : Nat) (d : Dictionary) (m : Settings) : Prop where
  wf : d.Wf
  find : d.find = m
  n_le : d.n ≤ count
  size_le : d.size = size ∨ d.size < 2 * count

variable {size count : Nat} {m : Settings}

theorem Dictionary.Holds.none (h : d.Holds size count m) : d.Holds size (count + 1) m where
  wf := h.wf
  find := h.find
  n_le := by
    have := h.n_le
    omega
  size_le := h.size_le.imp_right fun hsize => by omega

theorem Dictionary.Holds.call (h : d.Holds size count m) (c : DictCall) :
    ∃ d', d.call c = .ok d' ∧ d'.Holds size (count + 1) (m.call c) := by
  have hcount := h.n_le
  have hused := h.wf.counts
  cases c with
  | set key val =>
      cases key with
      | none => exact ⟨d, rfl, h.none⟩
      | some key =>
          obtain ⟨d', hset, hwf, hfind, hsize, hn⟩ := h.wf.set key val
          refine ⟨d', by rw [Dictionary.call, hset]; rfl, hwf, ?_, by omega, ?_⟩
          · rw [hfind, h.find]
            rfl
          · -- the arrays grow when every slot is taken
            rcases h.size_le with hs | hs <;> omega
  | unset key =>
      cases key with
      | none => exact ⟨d, rfl, h.none⟩
      | some key =>
          obtain ⟨hwf, hfind, hsize, hn⟩ := h.wf.unset key
          refine ⟨_, rfl, hwf, ?_, by omega, ?_⟩
          · rw [hfind, h.find]
            rfl
          · rw [hsize]
            exact h.size_le.imp_right fun hs => by omega

theorem Dictionary.Holds.calls : ∀ (cs : List DictCall) {d : Dictionary} {count : Nat}
    {m : Settings}, d.Holds size count m →
    ∃ d', cs.foldlM Dictionary.call d = .ok d'
      ∧ d'.Holds size (count + cs.length) (cs.foldl Settings.call m)
  | [], d, _, _, h => ⟨d, rfl, h⟩
  | c :: cs, d, count, m, h => by
      obtain ⟨d₁, hcall, h₁⟩ := h.call c
      obtain ⟨d₂, hcalls, h₂⟩ := Dictionary.Holds.calls cs h₁
      refine ⟨d₂, ?_, ?_⟩
      · rw [List.foldlM_cons, hcall]
        exact hcalls
      · rw [List.length_cons, Nat.add_comm cs.length, ← Nat.add_assoc]
        exact h₂

theorem entries_replicate (n : Nat) :
    entries DictSlot.entry (List.replicate n freeSlot) = [] :=
  List.filterMap_eq_nil_iff.mpr fun s hs => by rw [List.eq_of_mem_replicate hs]; rfl

theorem dictionaryNew_holds (size : Int) :
    (dictionaryNew size).Holds (dictionaryNew size).size 0 (fun _ => none) where
  wf :=
    { size_pos := by
        rw [Dictionary.size, dictionaryNew, List.length_replicate, dictminsz]
        split <;> omega
      hashed := by
        intro slot hslot k hk
        rw [List.eq_of_mem_replicate hslot] at hk
        cases hk
      distinct := by
        rw [Distinct, SlotTable.keys, dictionaryNew, entries_replicate]
        exact List.nodup_nil
      counts := by
        rw [used, dictionaryNew, entries_replicate]
        rfl }
  find := by
    funext key
    refine lookup_eq_none.mpr ?_
    rw [SlotTable.keys, dictionaryNew, entries_replicate]
    exact List.not_mem_nil
  n_le := Int.le_refl 0
  size_le := .inl rfl

end PvfsProxy
