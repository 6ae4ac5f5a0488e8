import PvfsProxy.IniparserText

/-!
# Writing a configuration file and loading it again

`iniparser_dump_ini` writes a line for each section and each key of it. Every
line stands for a setting of the dictionary, so that loading the file gives the
dictionary's settings back, if the names and values are such that their lines
can be read: a value with a `;` is not written in quotes, and would be cut.
-/

namespace PvfsProxy

open CString SlotTable

/-! ## Lines that are written -/

/-- The characters of a string fit into a line and survive `strlwc`. -/
structure PlainText (s : List Char) : Prop where
  newline : '\n' ∉ s
  nul : '\x00' ∉ s
  stripped : Stripped s

/-- A section name that is read back. -/
structure PlainName (name : List Char) : Prop extends PlainText name where
  ne_nil : name ≠ []
  bracket : ']' ∉ name
  short : name.length + 4 ≤ asciilinesz
  lower : name.map Char.toLower = name

/-- A key that is read back. -/
structure PlainKey (key : List Char) : Prop extends PlainText key where
  ne_nil : key ≠ []
  sign : '=' ∉ key
  comment : key.head? ≠ some '#'
  bracket : key.head? ≠ some '['
  lower : key.map Char.toLower = key

/-- A value that is read back from behind the `=`. -/
structure PlainValue (value : List Char) : Prop extends PlainText value where
  remark : ∀ c ∈ value, c ≠ ';' ∧ c ≠ '#'
  quote : value.head? ≠ some '"' ∧ value.head? ≠ some '\''
  backslash : value.getLast? ≠ some '\\'

theorem strlwc_of_lower {s : List Char} (h : s.map Char.toLower = s)
    (hlen : s.length ≤ asciilinesz) : strlwc s = s := by
  rw [strlwc, List.take_of_length_le hlen, h]

theorem iniparserLine_nil (section_ : List Char) : iniparserLine [] section_ = .empty := rfl

/-- A name in brackets is a section. -/
theorem iniparserLine_section {name : List Char} (h : PlainName name) (section_ : List Char) :
    iniparserLine ('[' :: name ++ [']']) section_ = .section_ name := by
  have hstripped : Stripped ('[' :: name ++ [']']) :=
    ⟨rfl, by rw [List.getLast?_concat]; rfl⟩
  have hscan : sscanf sectionFormat ('[' :: name ++ [']']) = [name] := by
    rw [sectionFormat, List.cons_append, sscanf_char,
      sscanf_set h.ne_nil (ne_of_notMem h.bracket) rfl, sscanf_nil]
  have hsection : isSectionLine ('[' :: name ++ [']']) = true := by
    rw [isSectionLine, List.getLast?_concat]
    rfl
  unfold iniparserLine strstrip
  rw [hstripped.strip, if_neg (by simp), if_neg (by simp), if_pos hsection, hscan]
  have hlower := strlwc_of_lower h.lower (by have := h.short; omega)
  rw [List.head?_cons, Option.getD_some, h.stripped.strip, hlower]

/-- The text of `dumpEntry` in front of the newline. -/
def entryLine (key value : List Char) : List Char := padTo30 key ++ [' ', '=', ' '] ++ value

theorem blanks_replicate (n : Nat) : ∀ c ∈ List.replicate n ' ', isspace c = true := by
  intro c hc
  rw [List.eq_of_mem_replicate hc]
  decide

/-- The key, the blanks behind it, the `=`, and the value behind a blank. -/
theorem entryLine_eq (key value : List Char) :
    ∃ blanks, (∀ c ∈ blanks, isspace c = true)
      ∧ entryLine key value = key ++ blanks ++ '=' :: ' ' :: value := by
  refine ⟨List.replicate (30 - key.length) ' ' ++ [' '], ?_, ?_⟩
  · intro c hc
    rw [List.mem_append, List.mem_singleton] at hc
    rcases hc with hc | rfl
    · exact blanks_replicate _ c hc
    · decide
  · simp [entryLine, padTo30]

theorem notMem_blanks {blanks : List Char} (h : ∀ c ∈ blanks, isspace c = true) {c : Char}
    (hc : isspace c = false) : c ∉ blanks := by
  intro hin
  rw [h c hin] at hc
  cases hc

theorem dropWhile_value {value : List Char} (h : PlainValue value) :
    (' ' :: value).dropWhile isspace = value := dropWhile_of_head h.stripped.head

theorem settingValue_plain {value : List Char} (h : PlainValue value) :
    settingValue (' ' :: value) = value := by
  have hquotes : ∀ quote, value.head? ≠ some quote → inQuotes quote value = [] := by
    intro quote hquote
    cases value with
    | nil => rfl
    | cons c s => exact if_neg fun hc => hquote (by rw [List.head?_cons, hc])
  have htake : value.takeWhile (fun c => c != ';' && c != '#') = value :=
    List.takeWhile_eq_self_iff.mpr fun c hc => by
      rw [Bool.and_eq_true, bne_iff_ne, bne_iff_ne]
      exact h.remark c hc
  have hraw : rawValue (' ' :: value) = value := by
    rw [rawValue, dropWhile_value h, hquotes '"' h.quote.1, hquotes '\'' h.quote.2]
    simp only [ne_eq, not_true_eq_false, if_false, htake]
  have hnot : ¬ (value = ['"', '"'] ∨ value = ['\'', '\'']) := by
    rintro (rfl | rfl)
    · exact h.quote.1 rfl
    · exact h.quote.2 rfl
  rw [settingValue, hraw, h.stripped.strip, if_neg hnot]

theorem PlainKey.head {key : List Char} (h : PlainKey key) (rest : List Char) :
    ∃ c s, key ++ rest = c :: s ∧ isspace c = false ∧ c ≠ '#' ∧ c ≠ '[' := by
  obtain ⟨⟨-, -, hstripped⟩, hne, -, hcomment, hbracket, -⟩ := h
  cases key with
  | nil => exact absurd rfl hne
  | cons c s =>
      have hspace := hstripped.head
      refine ⟨c, s ++ rest, rfl, by simpa using hspace, ?_, ?_⟩
      · rintro rfl
        exact hcomment rfl
      · rintro rfl
        exact hbracket rfl

/-- What is left of the line of a key: the blank behind the `=` goes with an empty value. -/
theorem strip_entryLine {key value : List Char} (hkey : PlainKey key) (hvalue : PlainValue value) :
    ∃ blanks rest, (∀ c ∈ blanks, isspace c = true)
      ∧ strip (entryLine key value) = key ++ blanks ++ '=' :: rest
      ∧ settingValue rest = value := by
  obtain ⟨blanks, hblanks, hline⟩ := entryLine_eq key value
  have hhead : ∀ rest, (key ++ blanks ++ rest).head?.all fun c => !isspace c := by
    intro rest
    obtain ⟨c, s, hcons, hspace, -⟩ := hkey.head (blanks ++ rest)
    rw [List.append_assoc, hcons]
    simpa using hspace
  rw [hline]
  by_cases hnil : value = []
  · subst hnil
    have hstripped : Stripped (key ++ blanks ++ ['=']) :=
      ⟨hhead ['='], by rw [List.getLast?_concat]; rfl⟩
    have hcut := strip_append (q := [' ']) (fun c hc => by rw [List.mem_singleton.mp hc]; decide)
      (key ++ blanks ++ ['='])
    rw [hstripped.strip, List.append_assoc] at hcut
    exact ⟨blanks, [], hblanks, hcut, rfl⟩
  · have hlast : (key ++ blanks ++ '=' :: ' ' :: value).getLast? = value.getLast? := by
      rw [show key ++ blanks ++ '=' :: ' ' :: value = key ++ blanks ++ ['=', ' '] ++ value by simp,
        List.getLast?_append_of_ne_nil _ hnil]
    have hstripped : Stripped (key ++ blanks ++ '=' :: ' ' :: value) :=
      ⟨hhead _, by rw [hlast]; exact hvalue.stripped.last⟩
    exact ⟨blanks, ' ' :: value, hblanks, hstripped.strip, settingValue_plain hvalue⟩

/-- The line of a key sets the key to its value. -/
theorem iniparserLine_entry {key value : List Char} (hkey : PlainKey key)
    (hvalue : PlainValue value) (hlen : key.length ≤ asciilinesz) (section_ : List Char) :
    iniparserLine (entryLine key value) section_ = .value key value := by
  obtain ⟨blanks, rest, hblanks, hstrip, hrest⟩ := strip_entryLine hkey hvalue
  obtain ⟨c, s, hcons, -, hcomment, hbracket⟩ := hkey.head (blanks ++ '=' :: rest)
  have hhead : (strip (entryLine key value)).head? = some c := by
    rw [hstrip, List.append_assoc, hcons, List.head?_cons]
  have hsign : '=' ∉ key ++ blanks := by
    rw [List.mem_append, not_or]
    exact ⟨hkey.sign, notMem_blanks hblanks (by decide)⟩
  have hnocomment : (strip (entryLine key value)).head? ≠ some '#' := by
    rw [hhead]
    exact fun h => hcomment (Option.some.inj h)
  have hnosection : isSectionLine (strip (entryLine key value)) = false := by
    rw [isSectionLine, hhead, Bool.and_eq_false_imp]
    intro h
    exact absurd (Option.some.inj (beq_iff_eq.mp h)) hbracket
  have hblank : strip (key ++ blanks) = key := by
    rw [strip_append hblanks, hkey.stripped.strip]
  rw [iniparserLine_value section_ hstrip (List.append_ne_nil_of_left_ne_nil hkey.ne_nil blanks)
    hsign hnocomment hnosection, hblank, strlwc_of_lower hkey.lower hlen, hrest]

/-! ## The file of a dictionary -/

/-- The keys without a colon. -/
def Dictionary.sections (d : Dictionary) : List (List Char) := d.keys.filter (':' ∉ ·)

/-- The entries `iniparser_dump_ini` writes for a section. -/
def Dictionary.entriesOf (d : Dictionary) (name : List Char) :
    List (List Char × Option (List Char)) :=
  (entries DictSlot.entry d.slots).filter fun e => (name ++ [':']).isPrefixOf e.1

/-- The lines `iniparser_dump_ini` writes for a section. -/
def Dictionary.sectionLines (d : Dictionary) (name : List Char) : List (List Char) :=
  [] :: ('[' :: name ++ [']']) ::
    (d.entriesOf name).map fun e => entryLine (e.1.drop (name.length + 1)) (e.2.getD [])

variable {d : Dictionary} {name : List Char}

theorem dumpSection_eq (h : name.length + 1 ≤ asciilinesz) :
    dumpSection d name = .ok (iniFile (d.sectionLines name)) := by
  have hentries : ∀ es : List (List Char × Option (List Char)),
      (es.flatMap fun e => dumpEntry (e.1.drop (name.length + 1)) e.2)
        = iniFile (es.map fun e => entryLine (e.1.drop (name.length + 1)) (e.2.getD [])) := by
    intro es
    rw [iniFile, List.flatMap_map]
    rfl
  rw [dumpSection, if_neg (by omega)]
  simp only [hentries, Dictionary.sectionLines, iniFile_cons, Dictionary.entriesOf]
  simp

theorem dumpSections_eq (h : ∀ name ∈ d.sections, name.length + 1 ≤ asciilinesz) :
    ∀ {nsec i : Nat}, nsec + i = d.sections.length →
      dumpSections d nsec i = .ok (iniFile ((d.sections.drop i).flatMap d.sectionLines))
  | 0, i, hi => by
      rw [List.drop_of_length_le (by omega)]
      rfl
  | nsec + 1, i, hi => by
      have hlt : i < d.sections.length := by omega
      have hname : iniparserGetsecname d i = some d.sections[i] := List.getElem?_eq_getElem hlt
      rw [dumpSections, hname]
      dsimp only
      rw [dumpSection_eq (h _ (List.getElem_mem hlt)), dumpSections_eq h (by omega),
        List.drop_eq_getElem_cons hlt, List.flatMap_cons, iniFile_append]
      rfl

/-- What can be written and loaded again: sections with values NULL and names that
are read back, and keys of such sections with values that are read back. -/
structure Dumpable (d : Dictionary) : Prop where
  wf : d.Wf
  names : ∀ name ∈ d.keys, ':' ∉ name → PlainName name ∧ d.find name = some none
  settings : ∀ k ∈ d.keys, ':' ∈ k → ∃ name key value,
    k = name ++ ':' :: key ∧ name ∈ d.keys ∧ ':' ∉ name ∧ d.find k = some (some value)
      ∧ PlainKey key ∧ PlainValue value ∧ name.length + 1 + key.length ≤ asciilinesz
      ∧ (entryLine key value).length + 2 ≤ asciilinesz

theorem mem_sections : name ∈ d.sections ↔ name ∈ d.keys ∧ ':' ∉ name := by
  rw [Dictionary.sections, List.mem_filter, decide_eq_true_eq]

theorem notMem_append_cons_inj {a b x y : List Char} {c : Char} (ha : c ∉ a) (hb : c ∉ b)
    (h : a ++ c :: x = b ++ c :: y) : a = b ∧ x = y := by
  have htake : ∀ {s t : List Char}, c ∉ s → (s ++ c :: t).takeWhile (· != c) = s := by
    intro s t hs
    rw [List.takeWhile_append_of_pos (ne_of_notMem hs)]
    simp
  have hab : a = b := by rw [← htake (t := x) ha, h, htake hb]
  subst hab
  exact ⟨rfl, (List.cons.inj (List.append_cancel_left h)).2⟩

theorem Dumpable.entryOf (h : Dumpable d) (hname : name ∈ d.sections)
    {e : List Char × Option (List Char)} (he : e ∈ d.entriesOf name) :
    ∃ key value, e = (name ++ ':' :: key, some value) ∧ d.find e.1 = some (some value)
      ∧ PlainKey key ∧ PlainValue value ∧ name.length + 1 + key.length ≤ asciilinesz
      ∧ (entryLine key value).length + 2 ≤ asciilinesz := by
  obtain ⟨hin, hprefix⟩ := List.mem_filter.mp he
  obtain ⟨k, v⟩ := e
  have hkey : k ∈ d.keys := List.mem_map.mpr ⟨(k, v), hin, rfl⟩
  have hfind : d.find k = some v := h.wf.distinct.lookup hin
  obtain ⟨t, ht : name ++ [':'] ++ t = k⟩ := List.isPrefixOf_iff_prefix.mp hprefix
  rw [List.append_assoc, List.singleton_append] at ht
  have hcolon : ':' ∈ k := by
    rw [← ht]
    exact List.mem_append_right name List.mem_cons_self
  obtain ⟨name', key, value, hk, -, hname', hvalue, hplain⟩ := h.settings k hkey hcolon
  obtain ⟨rfl, rfl⟩ := notMem_append_cons_inj (mem_sections.mp hname).2 hname' (ht.trans hk)
  obtain rfl : v = some value := Option.some.inj (hfind.symm.trans hvalue)
  exact ⟨t, value, by rw [ht], hvalue, hplain⟩

theorem Dumpable.written (h : Dumpable d) (k : List Char) :
    (k ∈ d.sections.flatMap fun name => name :: (d.entriesOf name).map Prod.fst) ↔ k ∈ d.keys := by
  rw [List.mem_flatMap]
  constructor
  · rintro ⟨name, hname, hk⟩
    rcases List.mem_cons.mp hk with rfl | hk
    · exact (mem_sections.mp hname).1
    · obtain ⟨e, he, rfl⟩ := List.mem_map.mp hk
      exact List.mem_map.mpr ⟨e, (List.mem_filter.mp he).1, rfl⟩
  · intro hk
    by_cases hcolon : ':' ∈ k
    · obtain ⟨name, key, value, hsplit, hname, hno, -⟩ := h.settings k hk hcolon
      obtain ⟨e, he, rfl⟩ := List.mem_map.mp hk
      refine ⟨name, mem_sections.mpr ⟨hname, hno⟩, List.mem_cons_of_mem _ ?_⟩
      refine List.mem_map.mpr ⟨e, List.mem_filter.mpr ⟨he, ?_⟩, rfl⟩
      rw [List.isPrefixOf_iff_prefix, hsplit]
      exact ⟨key, by simp⟩
    · exact ⟨k, mem_sections.mpr ⟨hk, hcolon⟩, List.mem_cons_self⟩

/-! ## Every line is plain -/

theorem plain_nil (hbelow : below ≠ '\\') : PlainLine below [] where
  newline := List.not_mem_nil
  nul := List.not_mem_nil
  short := by decide
  ends := hbelow

theorem PlainName.line (h : PlainName name) : PlainLine below ('[' :: name ++ [']']) where
  newline := by
    have hn := h.newline
    simp [hn]
  nul := by
    have hn := h.nul
    simp [hn]
  short := by
    have hshort := h.short
    simp only [List.length_append, List.length_cons, List.length_nil]
    omega
  ends := by
    rw [rdropWhile_of_getLast (by rw [List.getLast?_concat]; rfl), List.getLast?_concat,
      Option.getD_some]
    decide

theorem PlainKey.line {key value : List Char} (hkey : PlainKey key) (hvalue : PlainValue value)
    (hlen : (entryLine key value).length + 2 ≤ asciilinesz) :
    PlainLine below (entryLine key value) where
  newline := by
    have h₁ := hkey.newline
    have h₂ := hvalue.newline
    simp [entryLine, padTo30, h₁, h₂]
  nul := by
    have h₁ := hkey.nul
    have h₂ := hvalue.nul
    simp [entryLine, padTo30, h₁, h₂]
  short := hlen
  ends := by
    by_cases hnil : value = []
    · subst hnil
      have hline : entryLine key [] = padTo30 key ++ [' ', '='] ++ [' '] := by
        simp [entryLine]
      rw [hline, rdropWhile_append (fun c hc => by rw [List.mem_singleton.mp hc]; decide),
        rdropWhile_of_getLast (by rw [List.getLast?_append_cons]; rfl), List.getLast?_append_cons]
      show ¬ '=' = '\\'
      decide
    · have hlast : (entryLine key value).getLast? = value.getLast? :=
        List.getLast?_append_of_ne_nil _ hnil
      rw [rdropWhile_of_getLast (by rw [hlast]; exact hvalue.stripped.last), hlast,
        List.getLast?_eq_some_getLast hnil, Option.getD_some]
      have hback := hvalue.backslash
      rw [List.getLast?_eq_some_getLast hnil] at hback
      exact fun heq => hback (congrArg some heq)

theorem Dumpable.line (h : Dumpable d) (hbelow : below ≠ '\\') (hname : name ∈ d.sections) :
    ∀ raw ∈ d.sectionLines name, PlainLine below raw := by
  obtain ⟨hkey, hno⟩ := mem_sections.mp hname
  intro raw hraw
  rcases List.mem_cons.mp hraw with rfl | hraw
  · exact plain_nil hbelow
  rcases List.mem_cons.mp hraw with rfl | hraw
  · exact (h.names name hkey hno).1.line
  · obtain ⟨e, he, rfl⟩ := List.mem_map.mp hraw
    obtain ⟨key, value, rfl, -, hplain, hvalue, -, hlen⟩ := h.entryOf hname he
    rw [show (name ++ ':' :: key).drop (name.length + 1) = key by simp]
    exact hplain.line hvalue hlen

/-! ## Reading the lines -/

theorem foldl_update {κ ν : Type*} [DecidableEq κ] (values : κ → ν) :
    ∀ (ks : List κ) (f : κ → ν),
      ks.foldl (fun f k => Function.update f k (values k)) f
        = fun k => if k ∈ ks then values k else f k
  | [], f => by simp
  | k :: ks, f => by
      rw [List.foldl_cons, foldl_update values ks]
      funext k'
      by_cases hin : k' ∈ ks
      · simp [hin]
      · by_cases hk : k' = k
        · subst hk
          simp [hin]
        · simp [hin, hk]

/-- The settings with the keys of a list as the dictionary has them. -/
def IniSettings.setAll (m : IniSettings) (d : Dictionary) (ks : List (List Char)) : IniSettings :=
  { m with
    values := ks.foldl (fun f k => Function.update f k (d.find k)) m.values
    errs := 0 }

theorem Dumpable.read_entries (h : Dumpable d) (hname : name ∈ d.sections) :
    ∀ (es : List (List Char × Option (List Char))) (m : IniSettings),
      (∀ e ∈ es, e ∈ d.entriesOf name) → m.section_ = name → m.errs = 0 →
      (es.map fun e => entryLine (e.1.drop (name.length + 1)) (e.2.getD [])).foldlM
        IniSettings.read m = some (m.setAll d (es.map Prod.fst))
  | [], m, _, _, herrs => by
      rw [IniSettings.setAll, ← herrs]
      rfl
  | e :: es, m, hes, hsection, herrs => by
      obtain ⟨key, value, rfl, hfind, hkey, hvalue, hroom, -⟩ :=
        h.entryOf hname (hes e List.mem_cons_self)
      have hline := iniparserLine_entry hkey hvalue (by omega) m.section_
      rw [List.map_cons, List.foldlM_cons,
        show (name ++ ':' :: key).drop (name.length + 1) = key by simp, Option.getD_some,
        IniSettings.read, hline]
      dsimp only
      rw [hsection, if_neg (by omega)]
      have ih := h.read_entries hname es
        { section_ := name,
          values := Function.update m.values (name ++ ':' :: key) (some (some value)), errs := 0 }
        (fun e' he' => hes e' (List.mem_cons_of_mem _ he')) rfl rfl
      rw [← hsection] at ih ⊢
      refine ih.trans ?_
      dsimp only at hfind
      simp only [IniSettings.setAll, List.map_cons, List.foldl_cons, hsection, hfind]

theorem Dumpable.read_section (h : Dumpable d) (hname : name ∈ d.sections) (m : IniSettings) :
    (d.sectionLines name).foldlM IniSettings.read m
      = some ({ m with section_ := name }.setAll d
        (name :: (d.entriesOf name).map Prod.fst)) := by
  obtain ⟨hkey, hno⟩ := mem_sections.mp hname
  obtain ⟨hplain, hnull⟩ := h.names name hkey hno
  have hsection := iniparserLine_section hplain m.section_
  have hentries := h.read_entries hname (d.entriesOf name)
    { section_ := name, values := Function.update m.values name (some none), errs := 0 }
    (fun _ he => he) rfl rfl
  rw [Dictionary.sectionLines, List.foldlM_cons, IniSettings.read, iniparserLine_nil]
  show List.foldlM _ m _ = _
  rw [List.foldlM_cons, IniSettings.read, hsection]
  refine hentries.trans ?_
  simp only [IniSettings.setAll, List.foldl_cons, hnull]

theorem Dumpable.read_sections (h : Dumpable d) :
    ∀ (names : List (List Char)) (m : IniSettings), (∀ name ∈ names, name ∈ d.sections) →
      m.errs = 0 →
      ∃ m', (names.flatMap d.sectionLines).foldlM IniSettings.read m = some m' ∧ m'.errs = 0
        ∧ m'.values = (m.setAll d
          (names.flatMap fun name => name :: (d.entriesOf name).map Prod.fst)).values
  | [], m, _, herrs => ⟨m, rfl, herrs, rfl⟩
  | name :: names, m, hnames, herrs => by
      have hfirst := h.read_section (hnames name List.mem_cons_self) m
      obtain ⟨m', hm', herrs', hvalues⟩ := h.read_sections names
        ({ m with section_ := name }.setAll d (name :: (d.entriesOf name).map Prod.fst))
        (fun n hn => hnames n (List.mem_cons_of_mem name hn)) rfl
      refine ⟨m', ?_, herrs', ?_⟩
      · rw [List.flatMap_cons, List.foldlM_append, hfirst]
        exact hm'
      · rw [hvalues]
        simp only [IniSettings.setAll, List.flatMap_cons, List.foldl_append]

def Dictionary.lines (d : Dictionary) : List (List Char) :=
  if d.sections = [] then [] else d.sections.flatMap d.sectionLines ++ [[]]

theorem Dumpable.dump (h : Dumpable d) : iniparserDumpIni d = .ok (iniFile d.lines) := by
  have hlen : ∀ name ∈ d.sections, name.length + 1 ≤ asciilinesz := by
    intro name hname
    obtain ⟨hkey, hno⟩ := mem_sections.mp hname
    have hshort := (h.names name hkey hno).1.short
    omega
  unfold iniparserDumpIni Dictionary.lines
  by_cases hnil : d.sections = []
  · have hsec : iniparserGetnsec d = 0 := List.length_eq_zero_iff.mpr hnil
    -- a key with a colon would need its section
    have hkeys : ∀ k, k ∉ d.keys := by
      intro k hk
      rw [← h.written, hnil] at hk
      exact List.not_mem_nil hk
    have hentries : entries DictSlot.entry d.slots = [] := by
      rw [List.eq_nil_iff_forall_not_mem]
      intro e he
      exact hkeys e.1 (List.mem_map.mpr ⟨e, he, rfl⟩)
    rw [if_pos (by omega), if_pos hnil, hentries]
    rfl
  · have hpos : 0 < iniparserGetnsec d := List.length_pos_of_ne_nil hnil
    have hsections : dumpSections d (iniparserGetnsec d) 0
        = .ok (iniFile ((d.sections.drop 0).flatMap d.sectionLines)) := dumpSections_eq hlen rfl
    rw [if_neg (by omega), if_neg hnil, hsections, List.drop_zero, iniFile_append]
    rfl

/-- **What is written is loaded again.** `iniparser_load` of the file that
`iniparser_dump_ini` writes for a dictionary is a dictionary with the same settings. -/
theorem dump_ini_load (h : Dumpable d) (hbelow : below ≠ '\\') :
    ∃ file d', iniparserDumpIni d = .ok file ∧ iniparserLoad below file = .ok (some d')
      ∧ ∀ key deflt, dictionaryGet d' key deflt = dictionaryGet d key deflt := by
  have hplain : ∀ raw ∈ d.lines, PlainLine below raw := by
    intro raw hraw
    unfold Dictionary.lines at hraw
    split at hraw
    · cases hraw
    · rcases List.mem_append.mp hraw with hraw | hraw
      · obtain ⟨name, hname, hraw⟩ := List.mem_flatMap.mp hraw
        exact h.line hbelow hname raw hraw
      · rw [List.mem_singleton.mp hraw]
        exact plain_nil hbelow
  obtain ⟨m, hm, herrs, hvalues⟩ := h.read_sections d.sections .init (fun _ hn => hn) rfl
  have hread : d.lines.foldlM IniSettings.read .init = some m := by
    unfold Dictionary.lines
    split
    · rename_i hnil
      rw [hnil] at hm
      exact hm
    · rw [List.foldlM_append, hm]
      rfl
  have hload := load_lines hplain
  rw [hread] at hload
  dsimp only at hload
  rw [if_pos herrs] at hload
  obtain ⟨d', hd', hwf, hfind⟩ := hload
  refine ⟨_, d', h.dump, hd', fun key deflt => ?_⟩
  have hsame : d'.find = d.find := by
    rw [hfind, hvalues, IniSettings.setAll, foldl_update]
    funext k
    dsimp only
    split
    · rfl
    · rename_i hk
      rw [h.written] at hk
      exact (lookup_eq_none.mpr hk).symm
  rw [hwf.get, h.wf.get, hsame]

/-- One section `a` with one key `b`, set to `c`. -/
def sampleDictionary : Dictionary where
  n := 2
  slots := [⟨some ['a'], none, dictionaryHash ['a']⟩,
    ⟨some ['a', ':', 'b'], some ['c'], dictionaryHash ['a', ':', 'b']⟩, freeSlot]

theorem sampleDictionary_wf : sampleDictionary.Wf where
  size_pos := by decide
  hashed := by
    intro slot hslot key hkey
    simp only [sampleDictionary, List.mem_cons, List.not_mem_nil, or_false] at hslot
    rcases hslot with rfl | rfl | rfl
    · rw [← Option.some.inj hkey]
    · rw [← Option.some.inj hkey]
    · cases hkey
  distinct := by
    show [['a'], ['a', ':', 'b']].Nodup
    decide
  counts := rfl

theorem sampleDictionary_dumpable : Dumpable sampleDictionary where
  wf := sampleDictionary_wf
  names := by
    intro name hname hcolon
    rcases List.mem_cons.mp hname with rfl | hname
    · exact ⟨⟨⟨by decide, by decide, by decide⟩, by decide, by decide, by decide, by decide⟩, rfl⟩
    · rw [List.mem_singleton.mp hname] at hcolon
      exact absurd hcolon (by decide)
  settings := by
    intro k hk hcolon
    rcases List.mem_cons.mp hk with rfl | hk
    · exact absurd hcolon (by decide)
    · obtain rfl := List.mem_singleton.mp hk
      refine ⟨['a'], ['b'], ['c'], rfl, List.mem_cons_self, by decide, rfl, ?_, ?_, by decide,
        by decide⟩
      · exact ⟨⟨by decide, by decide, by decide⟩, by decide, by decide, by decide, by decide,
          by decide⟩
      · refine ⟨⟨by decide, by decide, by decide⟩, ?_, by decide, by decide⟩
        intro c hc
        rw [List.mem_singleton.mp hc]
        decide

theorem dump_ini_load_example :
    ∃ file d', iniparserDumpIni sampleDictionary = .ok file ∧ iniparserLoad 'x' file = .ok (some d')
      ∧ ∀ key deflt, dictionaryGet d' key deflt = dictionaryGet sampleDictionary key deflt :=
  dump_ini_load sampleDictionary_dumpable (by decide)

end PvfsProxy
