import PvfsProxy.IniparserLines

/-!
# Loading a configuration file

What `iniparser_load` makes of a file of plain lines: lines that fit into the
buffer, end in a newline and are not continued. The loop turns once for each
line, and the dictionary it fills stands for the settings that the lines give,
read one after the other.
-/

namespace PvfsProxy

open CString

/-- The file of some lines. -/
def iniFile (raws : List (List Char)) : List Char := raws.flatMap fun raw => raw ++ ['\n']

@[simp] theorem iniFile_nil : iniFile [] = [] := rfl

theorem iniFile_cons (raw : List Char) (raws : List (List Char)) :
    iniFile (raw :: raws) = raw ++ '\n' :: iniFile raws := by
  simp [iniFile]

theorem iniFile_append (raws raws' : List (List Char)) :
    iniFile (raws ++ raws') = iniFile raws ++ iniFile raws' := List.flatMap_append

theorem length_le_iniFile (raws : List (List Char)) : raws.length ≤ (iniFile raws).length := by
  induction raws with
  | nil => exact Nat.le_refl 0
  | cons raw raws ih =>
      rw [iniFile_cons, List.length_append, List.length_cons, List.length_cons]
      omega

/-- A line that is read whole and is not continued on the next one. The line of
blanks is such a line where no backslash is found in front of the buffer. -/
structure PlainLine (below : Char) (raw : List Char) : Prop where
  newline : '\n' ∉ raw
  nul : '\x00' ∉ raw
  short : raw.length + 2 ≤ asciilinesz
  ends : (raw.rdropWhile isspace).getLast?.getD below ≠ '\\'

instance (below : Char) (raw : List Char) : Decidable (PlainLine below raw) :=
  decidable_of_iff ('\n' ∉ raw ∧ '\x00' ∉ raw ∧ raw.length + 2 ≤ asciilinesz
      ∧ (raw.rdropWhile isspace).getLast?.getD below ≠ '\\')
    ⟨fun h => ⟨h.1, h.2.1, h.2.2.1, h.2.2.2⟩, fun h => ⟨h.newline, h.nul, h.short, h.ends⟩⟩

variable {below : Char} {raw : List Char}

/-! ## One line -/

theorem strip_append {q : List Char} (hq : ∀ c ∈ q, isspace c = true) (s : List Char) :
    strip (s ++ q) = strip s := by
  unfold strip
  rw [List.dropWhile_append]
  split
  · rename_i h
    rw [List.isEmpty_iff.mp h, List.dropWhile_eq_nil_iff.mpr hq]
  · exact rdropWhile_append hq _

theorem rdropWhile_blanks (s : List Char) :
    ∃ q, s = s.rdropWhile isspace ++ q ∧ ∀ c ∈ q, isspace c = true := by
  refine ⟨s.rtakeWhile isspace, (List.rdropWhile_append_rtakeWhile ..).symm, ?_⟩
  intro c hc
  exact List.mem_rtakeWhile_imp hc

theorem strip_rdropWhile (s : List Char) : strip (s.rdropWhile isspace) = strip s := by
  obtain ⟨q, hs, hq⟩ := rdropWhile_blanks s
  have happend := strip_append hq (s.rdropWhile isspace)
  rw [← hs] at happend
  exact happend.symm

/-- Blanks at the end of a line do not matter. -/
theorem store_rdropWhile (s : IniReader) (raw : List Char) :
    s.store (raw.rdropWhile isspace) = s.store raw := by
  have hline : iniparserLine (raw.rdropWhile isspace) s.section_
      = iniparserLine raw s.section_ := by
    unfold iniparserLine strstrip
    rw [strip_rdropWhile]
  unfold IniReader.store
  rw [hline]

theorem turn_plain {s : IniReader} (hs : s.line = []) (h : PlainLine below raw) :
    s.turn below (raw ++ ['\n']) = (s.store raw).map some := by
  have hnul : (raw ++ ['\n']).takeWhile (· != '\x00') = raw ++ ['\n'] := by
    refine List.takeWhile_eq_self_iff.mpr fun c hc => bne_iff_ne.mpr ?_
    rintro rfl
    rw [List.mem_append, List.mem_singleton] at hc
    exact hc.elim h.nul (by decide)
  have hblank : (raw ++ ['\n']).rdropWhile isspace = raw.rdropWhile isspace :=
    rdropWhile_append (fun c hc => by rw [List.mem_singleton.mp hc]; decide) raw
  have hlast : (raw ++ ['\n']).getLast?.getD below = '\n' := by
    rw [List.getLast?_concat]
    rfl
  unfold IniReader.turn
  simp only [hs, List.nil_append, hnul, hblank, hlast, ne_eq, not_true_eq_false, if_false,
    if_neg h.ends, store_rdropWhile]

theorem dictionarySet_returns {d d' : Dictionary} {key : List Char} {val : Option (List Char)}
    {r : Int} (h : dictionarySet d (some key) val = .ok (d', r)) : r = 0 := by
  unfold dictionarySet at h
  dsimp only at h
  split at h
  · exact (Prod.mk.inj (Except.ok.inj h)).2.symm
  · cases hadd : dictionaryAdd d key val with
    | error e =>
        rw [hadd] at h
        cases h
    | ok d₁ =>
        rw [hadd] at h
        exact (Prod.mk.inj (Except.ok.inj h)).2.symm

theorem bind_set_eq_ok {d : Dictionary} {key : List Char} {val : Option (List Char)}
    {α : Type} {f : Dictionary × Int → Except MemoryFault α} {a : α}
    (h : dictionarySet d (some key) val >>= f = .ok a) :
    ∃ d', dictionarySet d (some key) val = .ok (d', 0) ∧ f (d', 0) = .ok a := by
  cases hset : dictionarySet d (some key) val with
  | error e =>
      rw [hset] at h
      cases h
  | ok p =>
      obtain ⟨d', r⟩ := p
      obtain rfl := dictionarySet_returns hset
      rw [hset] at h
      exact ⟨d', rfl, h⟩

/-- The reader is ready for the next line. -/
theorem store_ready {s s' : IniReader} (h : s.store raw = .ok s') (herrs : 0 ≤ s.errs) :
    s'.line = [] ∧ 0 ≤ s'.errs := by
  unfold IniReader.store at h
  split at h
  · cases h
    exact ⟨rfl, herrs⟩
  · cases h
    exact ⟨rfl, herrs⟩
  · obtain ⟨d', -, hs⟩ := bind_set_eq_ok h
    cases hs
    exact ⟨rfl, Int.le_refl 0⟩
  · split at h
    · cases h
    · obtain ⟨d', -, hs⟩ := bind_set_eq_ok h
      cases hs
      exact ⟨rfl, Int.le_refl 0⟩
  · cases h
    exact ⟨rfl, Int.add_nonneg herrs (by decide)⟩

/-- **The loop turns once for each line.** -/
theorem iniparserLoop_lines : ∀ {raws : List (List Char)} {turns : Nat} {s : IniReader},
    (∀ raw ∈ raws, PlainLine below raw) → raws.length ≤ turns → s.line = [] → 0 ≤ s.errs →
    iniparserLoop below turns s (iniFile raws) = (raws.foldlM IniReader.store s).map some
  | [], 0, s, _, _, _, _ => rfl
  | [], turns + 1, s, _, _, _, _ => rfl
  | raw :: raws, turns + 1, s, h, hturns, hs, herrs => by
      have hraw := h raw List.mem_cons_self
      have hread : fgets (asciilinesz - s.line.length) (iniFile (raw :: raws))
          = some (raw ++ ['\n'], iniFile raws) := by
        rw [hs, iniFile_cons]
        exact fgets_line hraw.newline hraw.short
      rw [iniparserLoop, hread]
      dsimp only
      rw [turn_plain hs hraw, List.foldlM_cons]
      cases hstore : s.store raw with
      | error e => rfl
      | ok s' =>
          obtain ⟨hline, herrs'⟩ := store_ready hstore herrs
          have ih : iniparserLoop below turns s' (iniFile raws)
              = (raws.foldlM IniReader.store s').map some :=
            iniparserLoop_lines (fun r hr => h r (List.mem_cons_of_mem raw hr))
              (Nat.le_of_succ_le_succ hturns) hline herrs'
          show (if s'.errs < 0 then _ else _) = _
          rw [if_neg (by omega), ih]
          rfl

/-! ## The settings of a file -/

/-- What the lines of a file mean: the section they are in, the settings so far,
and how many syntax errors there were since the last setting. -/
structure IniSettings where
  section_ : List Char
  values : Settings
  errs : Nat

def IniSettings.init : IniSettings where
  section_ := []
  values _ := none
  errs := 0

/-- What one line adds. Section and key must fit into a string together. -/
def IniSettings.read (m : IniSettings) (raw : List Char) : Option IniSettings :=
  match iniparserLine raw m.section_ with
  | .empty | .comment => some m
  | .section_ name => some
    { section_ := name, values := Function.update m.values name (some none), errs := 0 }
  | .value key value =>
    if m.section_.length + 1 + key.length > asciilinesz then none
    else some { m with
      values := Function.update m.values (m.section_ ++ ':' :: key) (some (some value))
      errs := 0 }
  | .error => some { m with errs := m.errs + 1 }

/-- The reader stands for the settings. -/
structure IniReader.Reads (s : IniReader) (m : IniSettings) : Prop where
  section_ : s.section_ = m.section_
  wf : s.dict.Wf
  find : s.dict.find = m.values
  errs : s.errs = m.errs

theorem IniReader.Reads.store {s : IniReader} {m : IniSettings} (h : s.Reads m)
    (raw : List Char) :
    match m.read raw with
    | none => s.store raw = .error .outside
    | some m' => ∃ s', s.store raw = .ok s' ∧ s'.Reads m' := by
  unfold IniSettings.read IniReader.store
  rw [h.section_]
  cases iniparserLine raw m.section_ with
  | error => exact ⟨_, rfl, rfl, h.wf, h.find, congrArg (· + 1) h.errs⟩
  | empty => exact ⟨_, rfl, rfl, h.wf, h.find, h.errs⟩
  | comment => exact ⟨_, rfl, rfl, h.wf, h.find, h.errs⟩
  | section_ name =>
      obtain ⟨d', hset, hwf, hfind, -⟩ := h.wf.set name none
      refine ⟨_, by simp only [hset]; rfl, rfl, hwf, ?_, rfl⟩
      rw [hfind, h.find]
  | value key value =>
      by_cases hroom : m.section_.length + 1 + key.length > asciilinesz
      · simp only [if_pos hroom]
      · obtain ⟨d', hset, hwf, hfind, -⟩ := h.wf.set (m.section_ ++ ':' :: key) (some value)
        simp only [if_neg hroom, hset]
        refine ⟨_, rfl, rfl, hwf, ?_, rfl⟩
        rw [hfind, h.find]

theorem IniReader.Reads.lines : ∀ (raws : List (List Char)) {s : IniReader} {m : IniSettings},
    s.Reads m →
    match raws.foldlM IniSettings.read m with
    | none => raws.foldlM IniReader.store s = .error .outside
    | some m' => ∃ s', raws.foldlM IniReader.store s = .ok s' ∧ s'.Reads m'
  | [], s, m, h => ⟨s, rfl, h⟩
  | raw :: raws, s, m, h => by
      have hstore := h.store raw
      rw [List.foldlM_cons, List.foldlM_cons]
      cases hread : m.read raw with
      | none =>
          rw [hread] at hstore
          dsimp only at hstore
          rw [hstore]
          rfl
      | some m' =>
          rw [hread] at hstore
          obtain ⟨s', hs', h'⟩ := hstore
          rw [hs']
          exact IniReader.Reads.lines raws h'

/-- **What a file loads as.** A file of plain lines is loaded line by line: the
buffer for keys overruns where a section and a key do not fit into it, the file
is given up if there are syntax errors behind the last setting, and otherwise
the dictionary holds the settings of the lines. -/
theorem load_lines {raws : List (List Char)} (h : ∀ raw ∈ raws, PlainLine below raw) :
    match raws.foldlM IniSettings.read .init with
    | none => iniparserLoad below (iniFile raws) = .error .outside
    | some m =>
      if m.errs = 0 then ∃ d, iniparserLoad below (iniFile raws) = .ok (some d) ∧ d.Wf
        ∧ d.find = m.values
      else iniparserLoad below (iniFile raws) = .ok none := by
  have hnew := dictionaryNew_holds 0
  let s : IniReader := { line := [], section_ := [], dict := dictionaryNew 0, errs := 0 }
  have hstart : s.Reads .init := ⟨rfl, hnew.wf, hnew.find, rfl⟩
  have hlines := hstart.lines raws
  have hloop : iniparserLoop below (iniFile raws).length s (iniFile raws)
      = (raws.foldlM IniReader.store s).map some :=
    iniparserLoop_lines h (length_le_iniFile raws) rfl (Int.le_refl 0)
  unfold iniparserLoad
  dsimp only
  rw [hloop]
  cases hread : raws.foldlM IniSettings.read .init with
  | none =>
      rw [hread] at hlines
      dsimp only at hlines ⊢
      rw [hlines]
      rfl
  | some m =>
      rw [hread] at hlines
      obtain ⟨s', hs', hreads⟩ := hlines
      rw [hs']
      have herrs := hreads.errs
      dsimp only
      split
      · rename_i hzero
        refine ⟨s'.dict, ?_, hreads.wf, hreads.find⟩
        show (pure (if s'.errs ≠ 0 then none else some s'.dict) : Except MemoryFault _) = _
        rw [if_neg (by omega)]
        rfl
      · show (pure (if s'.errs ≠ 0 then none else some s'.dict) : Except MemoryFault _) = _
        rw [if_pos (by omega)]
        rfl

/-! ## Syntax errors -/

/-- A line that names a section or sets a key. -/
def Sets (raw : List Char) : Prop :=
  strip raw ≠ [] ∧ (strip raw).head? ≠ some '#' ∧ ¬ SyntaxError raw

/-- A syntax error counts until a line sets something. -/
theorem IniSettings.read_errs {m m' : IniSettings} (h : m.read raw = some m') :
    m'.errs ≠ 0 ↔ SyntaxError raw ∨ m.errs ≠ 0 ∧ ¬ Sets raw := by
  unfold IniSettings.read at h
  rcases iniparserLine_cases raw m.section_ with ⟨hnil, hline⟩ | ⟨hcomment, hline⟩
    | ⟨hne, hcomment, hsection, name, hline⟩ | ⟨herror, hline⟩ | ⟨k, rest, hsplit, hline⟩
  · rw [hline] at h
    cases h
    have hsets : ¬ Sets raw := fun hs => hs.1 hnil
    have herror : ¬ SyntaxError raw := fun he => he.ne_nil hnil
    simp [hsets, herror]
  · rw [hline] at h
    cases h
    have hsets : ¬ Sets raw := fun hs => hs.2.1 hcomment
    have herror : ¬ SyntaxError raw := fun he => he.comment hcomment
    simp [hsets, herror]
  · rw [hline] at h
    cases h
    have herror : ¬ SyntaxError raw := by
      intro he
      rw [he.section_] at hsection
      cases hsection
    have hsets : Sets raw := ⟨hne, hcomment, herror⟩
    simp [hsets, herror]
  · rw [hline] at h
    cases h
    simp [herror]
  · rw [hline] at h
    have herror : ¬ SyntaxError raw := fun he => he.not_splitsAt hsplit
    have hne : strip raw ≠ [] := by
      rw [hsplit.split]
      exact List.append_ne_nil_of_right_ne_nil k (List.cons_ne_nil _ _)
    have hsets : Sets raw := ⟨hne, hsplit.comment, herror⟩
    dsimp only at h
    split at h
    · cases h
    · cases h
      simp [hsets, herror]

theorem IniSettings.lines_errs : ∀ {raws : List (List Char)} {m m' : IniSettings},
    raws.foldlM IniSettings.read m = some m' →
    (m'.errs ≠ 0 ↔ (∃ pre raw post, raws = pre ++ raw :: post ∧ SyntaxError raw
        ∧ ∀ r ∈ post, ¬ Sets r) ∨ m.errs ≠ 0 ∧ ∀ r ∈ raws, ¬ Sets r)
  | [], m, m', h => by
      cases h
      simp
  | raw :: raws, m, m', h => by
      rw [List.foldlM_cons] at h
      obtain ⟨m₁, hread, hlines⟩ := Option.bind_eq_some_iff.mp h
      have hfirst := IniSettings.read_errs hread
      rw [IniSettings.lines_errs hlines, hfirst]
      constructor
      · rintro (⟨pre, r, post, rfl, hr, hpost⟩ | ⟨herror | ⟨hm, hraw⟩, hraws⟩)
        · exact .inl ⟨raw :: pre, r, post, rfl, hr, hpost⟩
        · exact .inl ⟨[], raw, raws, rfl, herror, hraws⟩
        · exact .inr ⟨hm, List.forall_mem_cons.mpr ⟨hraw, hraws⟩⟩
      · rintro (⟨pre, r, post, hsplit, hr, hpost⟩ | ⟨hm, hall⟩)
        · rcases List.cons_eq_append_iff.mp hsplit with ⟨rfl, heq⟩ | ⟨pre', rfl, hraws⟩
          · obtain ⟨rfl, rfl⟩ := List.cons.inj heq
            exact .inr ⟨.inl hr, hpost⟩
          · exact .inl ⟨pre', r, post, hraws, hr, hpost⟩
        · rw [List.forall_mem_cons] at hall
          exact .inr ⟨.inr ⟨hm, hall.1⟩, hall.2⟩

/-- **Which syntax errors count.** A file of plain lines whose keys fit into the buffer is
given up exactly if it has a syntax error with no setting behind it: any line that
names a section or sets a key makes the loader forget the errors above. -/
theorem load_gives_up {raws : List (List Char)} (h : ∀ raw ∈ raws, PlainLine below raw)
    (hroom : (raws.foldlM IniSettings.read .init).isSome = true) :
    iniparserLoad below (iniFile raws) = .ok none
      ↔ ∃ pre raw post, raws = pre ++ raw :: post ∧ SyntaxError raw ∧ ∀ r ∈ post, ¬ Sets r := by
  obtain ⟨m, hm⟩ := Option.isSome_iff_exists.mp hroom
  have hload := load_lines h
  have herrs := IniSettings.lines_errs hm
  rw [hm] at hload
  dsimp only at hload
  simp only [IniSettings.init, ne_eq, not_true_eq_false, false_and, or_false] at herrs
  rw [← herrs]
  split at hload
  · rename_i hzero
    obtain ⟨d, hd, -⟩ := hload
    rw [hd]
    simp [hzero]
  · rename_i hpos
    rw [hload]
    simp [hpos]

/-- The error in the first line is forgotten at the second one. -/
theorem load_gives_up_example :
    iniparserLoad 'x' (iniFile [['x'], ['[', 'a', ']']]) = .ok none
      ↔ ∃ pre raw post, [['x'], ['[', 'a', ']']] = pre ++ raw :: post ∧ SyntaxError raw
        ∧ ∀ r ∈ post, ¬ Sets r :=
  load_gives_up (by decide) (by decide)

end PvfsProxy
