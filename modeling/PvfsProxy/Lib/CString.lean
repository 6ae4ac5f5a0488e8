import Mathlib.Data.List.Infix
import Mathlib.Data.List.TakeWhile

/-!
# Strings of the C library

A string is the list of its characters, without the NUL that ends it. `strtok`
keeps what is left of the string it was started on in a hidden variable; here the
variable is an argument and a result. A pointer into a string is an offset.
-/

namespace CString

/-- `strtok` for one delimiter. `str` is NULL where the last string is continued,
and `saved` is what is left of it; the token comes with what is left then. -/
def strtok (delim : Char) (str : Option (List Char)) (saved : List Char) :
    Option (List Char) × List Char :=
  match (str.getD saved).dropWhile (· == delim) with
  | [] => (none, [])
  | c :: rest =>
    (some ((c :: rest).takeWhile (· != delim)), ((c :: rest).dropWhile (· != delim)).tail)

def isspace (c : Char) : Bool := c ∈ [' ', '\t', '\n', '\x0b', '\x0c', '\r']

/-- The number a string of digits stands for. -/
def decimal (s : List Char) : Nat := s.foldl (fun n c => 10 * n + (c.toNat - 48)) 0

/-- `atoi`: it stops at the first character that is no digit. -/
def atoi (s : List Char) : Int :=
  match s.dropWhile isspace with
  | '-' :: s => -(decimal (s.takeWhile Char.isDigit) : Int)
  | '+' :: s => decimal (s.takeWhile Char.isDigit)
  | s => decimal (s.takeWhile Char.isDigit)

/-- Where the first occurrence of `pat` starts. -/
def firstAt {α : Type*} [DecidableEq α] (pat : List α) : List α → Option Nat
  | [] => if pat = [] then some 0 else none
  | c :: s => if pat <+: c :: s then some 0 else (firstAt pat s).map (· + 1)

/-- `strstr`, from an offset into the string. -/
def strstr {α : Type*} [DecidableEq α] (s : List α) (off : Nat) (pat : List α) : Option Nat :=
  (firstAt pat (s.drop off)).map (off + ·)

/-! ## Tokens -/

variable {delim : Char} {token rest saved : List Char}

theorem ne_of_notMem (h : delim ∉ token) : ∀ c ∈ token, (c != delim) = true := by
  intro c hc
  rw [bne_iff_ne]
  rintro rfl
  exact h hc

theorem strtok_cons {c : Char} {s : List Char} (hc : (c != delim) = true) :
    strtok delim (some (c :: s)) saved
      = (some ((c :: s).takeWhile (· != delim)), ((c :: s).dropWhile (· != delim)).tail) := by
  have hskip : (c :: s).dropWhile (· == delim) = c :: s := by
    rw [List.dropWhile_cons, if_neg]
    simpa using hc
  unfold strtok
  rw [Option.getD_some, hskip]

theorem strtok_append (hne : token ≠ []) (h : delim ∉ token) :
    strtok delim (some (token ++ delim :: rest)) saved = (some token, rest) := by
  have hall := ne_of_notMem h
  cases token with
  | nil => exact absurd rfl hne
  | cons c token =>
      rw [List.cons_append, strtok_cons (hall c List.mem_cons_self), ← List.cons_append,
        List.takeWhile_append_of_pos hall, List.dropWhile_append_of_pos hall]
      simp

theorem strtok_last (hne : token ≠ []) (h : delim ∉ token) :
    strtok delim (some token) saved = (some token, []) := by
  have hall := ne_of_notMem h
  cases token with
  | nil => exact absurd rfl hne
  | cons c token =>
      rw [strtok_cons (hall c List.mem_cons_self), List.takeWhile_eq_self_iff.mpr hall,
        List.dropWhile_eq_nil_iff.mpr hall]
      rfl

@[simp] theorem strtok_nil : strtok delim (some []) saved = (none, []) := rfl

/-- Going on is starting on what is left. -/
@[simp] theorem strtok_none : strtok delim none saved = strtok delim (some saved) saved := rfl

/-! ## Occurrences -/

section Occurrences

variable {α : Type*} [DecidableEq α] {c d : α} {pat g s pre : List α}

theorem strstr_append :
    strstr (pre ++ s) pre.length pat = (firstAt pat s).map (pre.length + ·) := by
  rw [strstr, List.drop_left]

theorem firstAt_prefix (hne : pat ≠ []) : firstAt pat (pat ++ s) = some 0 := by
  cases pat with
  | nil => exact absurd rfl hne
  | cons c pat => exact if_pos (List.prefix_append (c :: pat) s)

/-- A character the pattern does not start with is skipped. -/
theorem firstAt_cons_ne (h : d ≠ c) :
    firstAt (c :: pat) (d :: s) = (firstAt (c :: pat) s).map (· + 1) := by
  rw [firstAt, if_neg]
  rw [List.cons_prefix_cons]
  exact fun hpre => h hpre.1.symm

/-- No occurrence starts inside `g` and ends behind it where the text goes on
with the pattern's first character, which the pattern does not repeat. -/
theorem firstAt_append (hc : c ∉ pat) (hs : s = [] ∨ ∃ s', s = c :: s') :
    ∀ {g : List α}, ¬ (c :: pat) <:+: g →
      firstAt (c :: pat) (g ++ s) = (firstAt (c :: pat) s).map (g.length + ·)
  | [], _ => by simp
  | d :: g, h => by
      have hrest : ¬ (c :: pat) <:+: g := fun hin => h (hin.trans (List.suffix_cons d g).isInfix)
      rw [List.cons_append, firstAt, if_neg, firstAt_append hc hs hrest, Option.map_map]
      · congr 1
        funext n
        simp only [Function.comp, List.length_cons]
        omega
      · intro hpre
        obtain ⟨rfl, htail⟩ := List.cons_prefix_cons.mp hpre
        rcases List.prefix_or_prefix_of_prefix htail (List.prefix_append g s) with hin | ⟨t, rfl⟩
        · exact h (List.cons_prefix_cons.mpr ⟨rfl, hin⟩).isInfix
        · have ht : t <+: s := (List.prefix_append_right_inj g).mp htail
          rcases t with _ | ⟨b, t⟩
          · exact h (by simp)
          · rcases hs with rfl | ⟨s', rfl⟩
            · exact absurd (List.prefix_nil.mp ht) (List.cons_ne_nil b t)
            · obtain ⟨rfl, -⟩ := List.cons_prefix_cons.mp ht
              exact hc (List.mem_append_right g List.mem_cons_self)

/-- A string without the pattern's first character is skipped. -/
theorem firstAt_skip : ∀ {g : List α}, c ∉ g →
    firstAt (c :: pat) (g ++ s) = (firstAt (c :: pat) s).map (g.length + ·)
  | [], _ => by simp
  | d :: g, h => by
      rw [List.mem_cons, not_or] at h
      rw [List.cons_append, firstAt_cons_ne fun heq => h.1 heq.symm, firstAt_skip h.2,
        Option.map_map]
      congr 1
      funext n
      simp only [Function.comp, List.length_cons]
      omega

theorem firstAt_char (h : c ∉ g) : firstAt [c] (g ++ c :: s) = some g.length := by
  have hc : firstAt [c] (c :: s) = some 0 := firstAt_prefix (List.cons_ne_nil c [])
  rw [firstAt_skip h, hc]
  rfl

theorem firstAt_char_eq_none : ∀ {s : List α}, firstAt [c] s = none ↔ c ∉ s
  | [] => by simp [firstAt]
  | d :: s => by
      by_cases h : d = c
      · subst h
        rw [firstAt, if_pos (List.cons_prefix_cons.mpr ⟨rfl, List.nil_prefix⟩)]
        simp
      · rw [firstAt_cons_ne h, Option.map_eq_none_iff, firstAt_char_eq_none, List.mem_cons, not_or]
        exact (and_iff_right fun heq => h heq.symm).symm

end Occurrences

/-! ## Numerals -/

/-- The string is a decimal numeral of the number, leading zeros allowed. -/
structure Numeral (s : List Char) (n : Nat) : Prop where
  ne_nil : s ≠ []
  digits : ∀ c ∈ s, c.isDigit = true
  value : decimal s = n

instance (s : List Char) (n : Nat) : Decidable (Numeral s n) :=
  decidable_of_iff (s ≠ [] ∧ s.all Char.isDigit = true ∧ decimal s = n)
    ⟨fun h => ⟨h.1, List.all_eq_true.mp h.2.1, h.2.2⟩,
      fun h => ⟨h.ne_nil, List.all_eq_true.mpr h.digits, h.value⟩⟩

theorem not_isspace_of_isDigit {c : Char} (h : c.isDigit = true) : isspace c = false := by
  simp only [isspace, decide_eq_false_iff_not, List.mem_cons, List.not_mem_nil, or_false, not_or]
  refine ⟨?_, ?_, ?_, ?_, ?_, ?_⟩ <;> rintro rfl <;> revert h <;> decide

theorem Numeral.notMem {s : List Char} {n : Nat} (h : Numeral s n) {c : Char}
    (hc : c.isDigit = false) : c ∉ s := by
  intro hin
  rw [h.digits c hin] at hc
  cases hc

theorem Numeral.atoi {s : List Char} {n : Nat} (h : Numeral s n) : atoi s = n := by
  obtain ⟨hne, hdigits, hvalue⟩ := h
  cases s with
  | nil => exact absurd rfl hne
  | cons c s =>
      have hc := hdigits c List.mem_cons_self
      have htake : (c :: s).takeWhile Char.isDigit = c :: s :=
        List.takeWhile_eq_self_iff.mpr hdigits
      unfold CString.atoi
      rw [List.dropWhile_cons, not_isspace_of_isDigit hc]
      simp only [Bool.false_eq_true, if_false]
      split
      · rename_i heq
        obtain rfl := (List.cons.inj heq).1
        exact absurd hc (by decide)
      · rename_i heq
        obtain rfl := (List.cons.inj heq).1
        exact absurd hc (by decide)
      · rw [htake, hvalue]

end CString
