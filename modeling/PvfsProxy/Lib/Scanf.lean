import Mathlib.Algebra.Order.Ring.Int
import Mathlib.Data.List.DropRight
import PvfsProxy.Lib.CString

/-!
# Reading text with the C library

`sscanf` for formats made of sets, literal characters and blanks, `fgets`, `strtol`
with base 0, and stripping the blanks around a string. A string is the list of its
characters, without the NUL that ends it.
-/

namespace CString

/-! ## `sscanf` -/

/-- A part of a format: `%[...]`, a character, or a blank, which skips blanks. -/
inductive Directive where
  | set (accept : Char → Bool)
  | char (c : Char)
  | blank

/-- The strings `sscanf` assigns, up to the first part that does not match. -/
def sscanf : List Directive → List Char → List (List Char)
  | [], _ => []
  | .set accept :: format, s =>
    if s.takeWhile accept = [] then []
    else s.takeWhile accept :: sscanf format (s.dropWhile accept)
  | .char _ :: _, [] => []
  | .char c :: format, d :: s => if d = c then sscanf format s else []
  | .blank :: format, s => sscanf format (s.dropWhile isspace)

section Sscanf

variable {accept : Char → Bool} {format : List Directive} {c : Char} {token s : List Char}

/-- A set takes a token up to the first character it does not accept. -/
theorem sscanf_set (hne : token ≠ []) (h : ∀ c ∈ token, accept c = true)
    (hs : s.head?.all fun c => !accept c) :
    sscanf (.set accept :: format) (token ++ s) = token :: sscanf format s := by
  have hnil : s.takeWhile accept = [] ∧ s.dropWhile accept = s := by
    cases s with
    | nil => exact ⟨rfl, rfl⟩
    | cons d s =>
        have hd : accept d = false := by simpa using hs
        simp [hd]
  rw [sscanf, List.takeWhile_append_of_pos h, List.dropWhile_append_of_pos h, hnil.1, hnil.2,
    List.append_nil, if_neg hne]

theorem sscanf_set_nil (hs : s.head?.all fun c => !accept c) :
    sscanf (.set accept :: format) s = [] := by
  have hnil : s.takeWhile accept = [] := by
    cases s with
    | nil => rfl
    | cons d s =>
        have hd : accept d = false := by simpa using hs
        simp [hd]
  rw [sscanf, if_pos hnil]

@[simp] theorem sscanf_char : sscanf (.char c :: format) (c :: s) = sscanf format s := if_pos rfl

theorem sscanf_char_ne {d : Char} (h : d ≠ c) : sscanf (.char c :: format) (d :: s) = [] :=
  if_neg h

@[simp] theorem sscanf_char_nil : sscanf (.char c :: format) [] = [] := rfl

@[simp] theorem sscanf_blank : sscanf (.blank :: format) s = sscanf format (s.dropWhile isspace) :=
  rfl

@[simp] theorem sscanf_nil : sscanf [] s = [] := rfl

/-- There is a string for each set at most. -/
theorem length_sscanf_le : ∀ (format : List Directive) (s : List Char),
    (sscanf format s).length ≤ (format.filter fun d => d matches .set _).length
  | [], _ => Nat.le_refl 0
  | .set accept :: format, s => by
      rw [sscanf]
      split
      · exact Nat.zero_le _
      · exact Nat.succ_le_succ (length_sscanf_le format _)
  | .char c :: format, [] => Nat.zero_le _
  | .char c :: format, d :: s => by
      rw [sscanf]
      split
      · exact length_sscanf_le format s
      · exact Nat.zero_le _
  | .blank :: format, s => length_sscanf_le format _

end Sscanf

/-! ## Blanks around a string -/

/-- The string without the blanks at its two ends. -/
def strip (s : List Char) : List Char := (s.dropWhile isspace).rdropWhile isspace

section Strip

variable {p q s : List Char}

theorem rdropWhile_append (hq : ∀ c ∈ q, isspace c = true) (s : List Char) :
    (s ++ q).rdropWhile isspace = s.rdropWhile isspace := by
  have hrev : ∀ c ∈ q.reverse, isspace c = true := fun c hc => hq c (List.mem_reverse.mp hc)
  rw [List.rdropWhile, List.rdropWhile, List.reverse_append, List.dropWhile_append_of_pos hrev]

theorem strip_eq_nil (h : ∀ c ∈ s, isspace c = true) : strip s = [] := by
  rw [strip, List.dropWhile_eq_nil_iff.mpr h]
  rfl

theorem dropWhile_of_head (h : s.head?.all fun c => !isspace c) : s.dropWhile isspace = s := by
  cases s with
  | nil => rfl
  | cons c s =>
      have hc : isspace c = false := by simpa using h
      simp [hc]

theorem rdropWhile_of_getLast (h : s.getLast?.all fun c => !isspace c) :
    s.rdropWhile isspace = s := by
  rw [List.rdropWhile_eq_self_iff]
  intro hne
  rw [List.getLast?_eq_some_getLast hne] at h
  simpa using h

/-- What is between the blanks is left. -/
theorem strip_pad (hp : ∀ c ∈ p, isspace c = true) (hq : ∀ c ∈ q, isspace c = true)
    (hhead : s.head?.all fun c => !isspace c) (hlast : s.getLast?.all fun c => !isspace c) :
    strip (p ++ s ++ q) = s := by
  cases s with
  | nil =>
      refine strip_eq_nil fun c hc => ?_
      rw [List.append_nil, List.mem_append] at hc
      exact hc.elim (hp c) (hq c)
  | cons d s =>
      rw [strip, List.append_assoc, List.dropWhile_append_of_pos hp, List.cons_append,
        dropWhile_of_head (by simpa using hhead), ← List.cons_append, rdropWhile_append hq,
        rdropWhile_of_getLast hlast]

/-- A string that starts and ends with other characters than blanks. -/
structure Stripped (s : List Char) : Prop where
  head : s.head?.all fun c => !isspace c
  last : s.getLast?.all fun c => !isspace c

instance (s : List Char) : Decidable (Stripped s) :=
  decidable_of_iff ((s.head?.all fun c => !isspace c) ∧ (s.getLast?.all fun c => !isspace c))
    ⟨fun h => ⟨h.1, h.2⟩, fun h => ⟨h.head, h.last⟩⟩

theorem Stripped.strip (h : Stripped s) : strip s = s := by
  have hpad := strip_pad (p := []) (q := []) (fun c hc => by cases hc) (fun c hc => by cases hc)
    h.head h.last
  simpa using hpad

theorem Stripped.nil : Stripped [] := ⟨rfl, rfl⟩

end Strip

/-! ## `fgets` -/

/-- The characters up to the first newline, the newline with them, `n` at most. -/
def lineOf : Nat → List Char → List Char × List Char
  | 0, s => ([], s)
  | _ + 1, [] => ([], [])
  | n + 1, c :: s =>
    if c = '\n' then ([c], s) else (c :: (lineOf n s).1, (lineOf n s).2)

/-- `fgets` on what is left of a file: NULL at the end of it. -/
def fgets (size : Nat) (file : List Char) : Option (List Char × List Char) :=
  match file with
  | [] => none
  | c :: s => some (lineOf (size - 1) (c :: s))

theorem lineOf_newline : ∀ {line rest : List Char} {n : Nat}, '\n' ∉ line → line.length < n →
    lineOf n (line ++ '\n' :: rest) = (line ++ ['\n'], rest)
  | [], rest, n + 1, _, _ => by simp [lineOf]
  | c :: line, rest, n + 1, h, hn => by
      rw [List.mem_cons, not_or] at h
      have ih : lineOf n (line ++ '\n' :: rest) = (line ++ ['\n'], rest) :=
        lineOf_newline h.2 (Nat.lt_of_succ_lt_succ hn)
      rw [List.cons_append, lineOf, if_neg fun heq => h.1 heq.symm, ih]
      rfl

/-- A line that fits into the buffer is read whole. -/
theorem fgets_line {line rest : List Char} {size : Nat} (h : '\n' ∉ line)
    (hsize : line.length + 2 ≤ size) :
    fgets size (line ++ '\n' :: rest) = some (line ++ ['\n'], rest) := by
  have hline : lineOf (size - 1) (line ++ '\n' :: rest) = (line ++ ['\n'], rest) :=
    lineOf_newline h (by omega)
  cases line with
  | nil => rw [← hline]; rfl
  | cons c line => rw [← hline]; rfl

/-! ## `strtol` -/

/-- A digit of a base up to 16. -/
def digitValue (c : Char) : Nat :=
  if c.isDigit then c.toNat - 48
  else if 'a' ≤ c ∧ c ≤ 'f' then c.toNat - 87
  else if 'A' ≤ c ∧ c ≤ 'F' then c.toNat - 55
  else 16

/-- The number a string of digits stands for in a base. -/
def numeral (base : Nat) (s : List Char) : Nat := s.foldl (fun n c => base * n + digitValue c) 0

/-- The digits a string starts with. -/
def digitsOf (base : Nat) (s : List Char) : List Char := s.takeWhile fun c => digitValue c < base

/-- `strtol` with base 0 behind the sign: `0x` starts a hexadecimal, `0` an octal number. -/
def magnitude : List Char → Nat
  | '0' :: 'x' :: s | '0' :: 'X' :: s => numeral 16 (digitsOf 16 s)
  | '0' :: s => numeral 8 (digitsOf 8 s)
  | s => numeral 10 (digitsOf 10 s)

/-- `strtol` with base 0; a `long` has 64 bits. -/
def strtol (s : List Char) : Int :=
  match s.dropWhile isspace with
  | '-' :: s => max (-(magnitude s : Int)) (-2 ^ 63)
  | '+' :: s => min (magnitude s : Int) (2 ^ 63 - 1)
  | s => min (magnitude s : Int) (2 ^ 63 - 1)

theorem digitValue_of_isDigit {c : Char} (h : c.isDigit = true) : digitValue c = c.toNat - 48 :=
  if_pos h

theorem digitValue_lt_ten {c : Char} (h : c.isDigit = true) : digitValue c < 10 := by
  rw [digitValue_of_isDigit h]
  have hle : c.toNat ≤ 57 := by
    simp only [Char.isDigit, Bool.and_eq_true, decide_eq_true_eq] at h
    exact h.2
  omega

theorem numeral_ten {s : List Char} (h : ∀ c ∈ s, c.isDigit = true) : numeral 10 s = decimal s := by
  unfold numeral decimal
  refine List.foldl_ext _ _ 0 fun n c hc => ?_
  rw [digitValue_of_isDigit (h c hc)]

theorem Numeral.magnitude {s : List Char} {n : Nat} (h : Numeral s n) (h0 : s.head? ≠ some '0') :
    magnitude s = n := by
  obtain ⟨hne, hdigits, hvalue⟩ := h
  have hall : digitsOf 10 s = s := List.takeWhile_eq_self_iff.mpr fun c hc =>
    decide_eq_true (digitValue_lt_ten (hdigits c hc))
  unfold CString.magnitude
  split
  · exact absurd rfl h0
  · exact absurd rfl h0
  · exact absurd rfl h0
  · rw [hall, numeral_ten hdigits, hvalue]

/-- A decimal numeral that does not start with 0 is read as its number. -/
theorem Numeral.strtol {s : List Char} {n : Nat} (h : Numeral s n) (h0 : s.head? ≠ some '0')
    (hn : n < 2 ^ 63) : strtol s = n := by
  have hmagnitude := h.magnitude h0
  obtain ⟨hne, hdigits, -⟩ := h
  cases s with
  | nil => exact absurd rfl hne
  | cons c s =>
      have hc := hdigits c List.mem_cons_self
      unfold CString.strtol
      rw [List.dropWhile_cons, not_isspace_of_isDigit hc]
      simp only [Bool.false_eq_true, if_false]
      split
      · rename_i heq
        obtain rfl := (List.cons.inj heq).1
        exact absurd hc (by decide)
      · rename_i heq
        obtain rfl := (List.cons.inj heq).1
        exact absurd hc (by decide)
      · rw [hmagnitude]
        omega

end CString
