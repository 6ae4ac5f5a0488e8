import PvfsProxy.Iniparser

/-!
# Lines of a configuration file

What `iniparser_line` makes of a line, said without its formats: the key is what
stands before the first `=`, the value is what stands in quotes behind it, or
what stands there up to a `;` or a `#`. What is neither that, nor a section name,
nor a comment, is a syntax error.
-/

namespace PvfsProxy

open CString

variable {k rest line : List Char}

theorem dropWhile_sign : ('=' :: rest).dropWhile isspace = '=' :: rest := rfl

/-- A line of a key and a value splits at the first `=`. -/
theorem sscanf_key (format : List Directive) (hk : k ≠ []) (heq : '=' ∉ k) :
    sscanf (.set (· != '=') :: .blank :: .char '=' :: .blank :: format) (k ++ '=' :: rest)
      = k :: sscanf format (rest.dropWhile isspace) := by
  have hall := ne_of_notMem heq
  rw [sscanf_set hk hall (by simp), sscanf_blank, dropWhile_sign, sscanf_char,
    sscanf_blank]

theorem sscanf_bare (hk : k ≠ []) (heq : '=' ∉ k) :
    ∃ signs, sscanf bareFormat (k ++ '=' :: rest) = [k, signs] := by
  have hall := ne_of_notMem heq
  refine ⟨('=' :: rest).takeWhile (· == '='), ?_⟩
  rw [bareFormat, sscanf_set hk hall (by simp), sscanf_blank, dropWhile_sign,
    sscanf, if_neg (by simp)]
  rfl

theorem sscanf_no_key (format : List Directive) (h : line.head?.all fun c => c == '=') :
    sscanf (.set (· != '=') :: format) line = [] := by
  refine sscanf_set_nil ?_
  cases line with
  | nil => rfl
  | cons c line => simpa using h

theorem sscanf_no_equals (format : List Directive) (hne : line ≠ []) (h : '=' ∉ line) :
    sscanf (.set (· != '=') :: .blank :: .char '=' :: format) line = [line]
      ∧ sscanf bareFormat line = [line] := by
  have hall := ne_of_notMem h
  constructor
  · have hset : sscanf (.set (· != '=') :: .blank :: .char '=' :: format) (line ++ [])
        = line :: sscanf (.blank :: .char '=' :: format) [] := sscanf_set hne hall rfl
    rw [List.append_nil] at hset
    rw [hset]
    rfl
  · have hset : sscanf [.set (· != '='), .blank, .set (· == '=')] (line ++ [])
        = line :: sscanf [.blank, .set (· == '=')] [] := sscanf_set hne hall rfl
    rw [List.append_nil] at hset
    rw [bareFormat, hset]
    rfl

/-- What stands in quotes at the front of a text. -/
def inQuotes (quote : Char) : List Char → List Char
  | [] => []
  | c :: s => if c = quote then s.takeWhile (· != quote) else []

/-- The value before the blanks around it are cut off. -/
def rawValue (rest : List Char) : List Char :=
  let v := rest.dropWhile isspace
  if inQuotes '"' v ≠ [] then inQuotes '"' v
  else if inQuotes '\'' v ≠ [] then inQuotes '\'' v
  else v.takeWhile fun c => c != ';' && c != '#'

/-- The value that a text behind the `=` stands for. -/
def settingValue (rest : List Char) : List Char :=
  let value := strip (rawValue rest)
  if value = ['"', '"'] ∨ value = ['\'', '\''] then [] else value

theorem sscanf_quoted (quote : Char) (v : List Char) :
    sscanf [.char quote, .set (· != quote), .char quote] v
      = if inQuotes quote v = [] then [] else [inQuotes quote v] := by
  cases v with
  | nil => rfl
  | cons c s =>
      by_cases hc : c = quote
      · subst hc
        rw [sscanf_char, sscanf, inQuotes, if_pos rfl]
        split
        · rfl
        · cases s.dropWhile (· != c) with
          | nil => rfl
          | cons d t => rw [sscanf, sscanf_nil, ite_self]
      · rw [sscanf_char_ne hc, inQuotes, if_neg hc, if_pos rfl]

theorem firstPair_cons {format : List Directive} {formats : List (List Directive)}
    {value : List Char} (h : sscanf format line = k :: if value = [] then [] else [value]) :
    firstPair line (format :: formats)
      = if value = [] then firstPair line formats else some (k, value) := by
  rw [firstPair, h]
  by_cases hvalue : value = []
  · rw [if_pos hvalue, if_pos hvalue]
  · rw [if_neg hvalue, if_neg hvalue]

theorem firstPair_values (hk : k ≠ []) (heq : '=' ∉ k) :
    firstPair (k ++ '=' :: rest) [quotedFormat '"', quotedFormat '\'', plainFormat]
      = if rawValue rest = [] then none else some (k, rawValue rest) := by
  have hquoted : ∀ quote, sscanf (quotedFormat quote) (k ++ '=' :: rest)
      = k :: if inQuotes quote (rest.dropWhile isspace) = [] then []
        else [inQuotes quote (rest.dropWhile isspace)] := by
    intro quote
    rw [quotedFormat, sscanf_key _ hk heq, sscanf_quoted]
  have hplain : sscanf plainFormat (k ++ '=' :: rest)
      = k :: if (rest.dropWhile isspace).takeWhile (fun c => c != ';' && c != '#') = [] then []
        else [(rest.dropWhile isspace).takeWhile fun c => c != ';' && c != '#'] := by
    rw [plainFormat, sscanf_key _ hk heq, sscanf]
    rfl
  rw [firstPair_cons (hquoted _), firstPair_cons (hquoted _), firstPair_cons hplain]
  unfold rawValue
  by_cases hdouble : inQuotes '"' (rest.dropWhile isspace) = []
  · by_cases hsingle : inQuotes '\'' (rest.dropWhile isspace) = []
    · simp only [hdouble, hsingle, ne_eq, not_true_eq_false, if_true, if_false]
      rfl
    · simp only [hdouble, hsingle, ne_eq, not_true_eq_false, not_false_eq_true, if_true, if_false]
  · simp only [hdouble, ne_eq, not_false_eq_true, if_true, if_false]

/-- **A line with a key and a value.** -/
theorem iniparserLine_value {raw : List Char} (section_ : List Char)
    (hline : strip raw = k ++ '=' :: rest) (hk : k ≠ []) (heq : '=' ∉ k)
    (hcomment : (strip raw).head? ≠ some '#') (hsection : isSectionLine (strip raw) = false) :
    iniparserLine raw section_ = .value (strlwc (strip k)) (settingValue rest) := by
  have hne : strip raw ≠ [] := by
    rw [hline]
    exact List.append_ne_nil_of_right_ne_nil k (List.cons_ne_nil _ _)
  simp only [iniparserLine, strstrip, if_neg hne, if_neg hcomment, hsection, Bool.false_eq_true,
    if_false]
  rw [hline, firstPair_values hk heq]
  split
  · rename_i key value h
    split at h
    · cases h
    · cases h
      rfl
  · rename_i h
    split at h
    · rename_i hnil
      have hvalue : settingValue rest = [] := by
        rw [settingValue, hnil]
        rfl
      -- one of the two formats for an empty value matches
      have hremark : sscanf (.set (· != '=') :: .blank :: .char '=' :: .blank ::
          [.set fun c => c == ';' || c == '#']) (k ++ '=' :: rest)
          = k :: sscanf [.set fun c => c == ';' || c == '#'] (rest.dropWhile isspace) :=
        sscanf_key _ hk heq
      obtain ⟨signs, hbare⟩ : ∃ signs, sscanf bareFormat (k ++ '=' :: rest) = [k, signs] :=
        sscanf_bare hk heq
      rw [hvalue]
      simp only [firstPair, remarkFormat, hremark, hbare, sscanf]
      by_cases hsigns : (rest.dropWhile isspace).takeWhile (fun c => c == ';' || c == '#') = []
      · rw [if_pos hsigns]
      · rw [if_neg hsigns]
    · cases h

/-- What is no line of a key and a value. -/
def NoSetting (line : List Char) : Prop := line.head? = some '=' ∨ '=' ∉ line

theorem iniparserLine_error {raw : List Char} (section_ : List Char) (hne : strip raw ≠ [])
    (hcomment : (strip raw).head? ≠ some '#') (hsection : isSectionLine (strip raw) = false)
    (hno : NoSetting (strip raw)) : iniparserLine raw section_ = .error := by
  simp only [iniparserLine, strstrip, if_neg hne, if_neg hcomment, hsection, Bool.false_eq_true,
    if_false]
  rcases hno with hhead | hno
  · have hnil : ∀ format, sscanf (.set (· != '=') :: format) (strip raw) = [] := fun format =>
      sscanf_no_key format (by simp [hhead])
    simp only [firstPair, quotedFormat, plainFormat, remarkFormat, bareFormat, hnil]
  · have hone := fun format => (sscanf_no_equals format hne hno).1
    have hbare := (sscanf_no_equals [] hne hno).2
    simp only [firstPair, quotedFormat, plainFormat, remarkFormat, hone, hbare]

/-- A line that is no syntax error and sets something splits at its first `=`. -/
theorem exists_split (h : ¬ NoSetting line) :
    ∃ k rest, line = k ++ '=' :: rest ∧ k ≠ [] ∧ '=' ∉ k := by
  unfold NoSetting at h
  rw [not_or, not_not] at h
  obtain ⟨hhead, hmem⟩ := h
  obtain ⟨k, rest, rfl, hk⟩ := List.eq_append_cons_of_mem hmem
  refine ⟨k, rest, rfl, ?_, hk⟩
  rintro rfl
  exact hhead rfl

theorem NoSetting.not_split (h : NoSetting line) (hline : line = k ++ '=' :: rest) (hk : k ≠ [])
    (heq : '=' ∉ k) : False := by
  subst hline
  rcases h with h | h
  · cases k with
    | nil => exact hk rfl
    | cons c k =>
        obtain rfl := Option.some.inj h
        exact heq List.mem_cons_self
  · exact h (List.mem_append_right k List.mem_cons_self)

/-- What `iniparser_line` reports as a syntax error. -/
structure SyntaxError (raw : List Char) : Prop where
  ne_nil : strip raw ≠ []
  comment : (strip raw).head? ≠ some '#'
  section_ : isSectionLine (strip raw) = false
  noSetting : NoSetting (strip raw)

/-- A line that splits into a key and the text behind its `=`. -/
structure SplitsAt (raw k rest : List Char) : Prop where
  split : strip raw = k ++ '=' :: rest
  ne_nil : k ≠ []
  notMem : '=' ∉ k
  comment : (strip raw).head? ≠ some '#'
  section_ : isSectionLine (strip raw) = false

theorem SyntaxError.not_splitsAt {raw : List Char} (h : SyntaxError raw) : ¬ SplitsAt raw k rest :=
  fun hs => h.noSetting.not_split hs.split hs.ne_nil hs.notMem

theorem iniparserLine_cases (raw section_ : List Char) :
    (strip raw = [] ∧ iniparserLine raw section_ = .empty)
    ∨ ((strip raw).head? = some '#' ∧ iniparserLine raw section_ = .comment)
    ∨ (strip raw ≠ [] ∧ (strip raw).head? ≠ some '#' ∧ isSectionLine (strip raw) = true
      ∧ ∃ name, iniparserLine raw section_ = .section_ name)
    ∨ (SyntaxError raw ∧ iniparserLine raw section_ = .error)
    ∨ ∃ k rest, SplitsAt raw k rest
      ∧ iniparserLine raw section_ = .value (strlwc (strip k)) (settingValue rest) := by
  by_cases hne : strip raw = []
  · refine .inl ⟨hne, ?_⟩
    unfold iniparserLine strstrip
    rw [if_pos hne]
  by_cases hcomment : (strip raw).head? = some '#'
  · refine .inr (.inl ⟨hcomment, ?_⟩)
    unfold iniparserLine strstrip
    rw [if_neg hne, if_pos hcomment]
  by_cases hsection : isSectionLine (strip raw) = true
  · refine .inr (.inr (.inl ⟨hne, hcomment, hsection, ?_⟩))
    simp only [iniparserLine, strstrip, if_neg hne, if_neg hcomment, hsection, if_true]
    exact ⟨_, rfl⟩
  rw [Bool.not_eq_true] at hsection
  by_cases hno : NoSetting (strip raw)
  · exact .inr (.inr (.inr (.inl ⟨⟨hne, hcomment, hsection, hno⟩,
      iniparserLine_error section_ hne hcomment hsection hno⟩)))
  · obtain ⟨k, rest, hsplit, hk, heq⟩ := exists_split hno
    exact .inr (.inr (.inr (.inr ⟨k, rest, ⟨hsplit, hk, heq, hcomment, hsection⟩,
      iniparserLine_value section_ hsplit hk heq hcomment hsection⟩)))

theorem iniparserLine_eq_error {raw section_ : List Char} :
    iniparserLine raw section_ = .error ↔ SyntaxError raw := by
  rcases iniparserLine_cases raw section_ with ⟨hnil, hline⟩ | ⟨hcomment, hline⟩
    | ⟨-, -, hsection, name, hline⟩ | ⟨herror, hline⟩ | ⟨k, rest, hsplit, hline⟩
  · rw [hline]
    exact ⟨fun h => (by cases h), fun h => absurd hnil h.ne_nil⟩
  · rw [hline]
    exact ⟨fun h => (by cases h), fun h => absurd hcomment h.comment⟩
  · rw [hline]
    refine ⟨fun h => (by cases h), fun h => ?_⟩
    rw [h.section_] at hsection
    cases hsection
  · exact ⟨fun _ => herror, fun _ => hline⟩
  · rw [hline]
    exact ⟨fun h => (by cases h), fun h => absurd hsplit h.not_splitsAt⟩

/-- **What a line is.** It is a syntax error exactly when it is not empty, no comment,
no section name, and has no `=` behind a first other character. It sets a key exactly when
it has one: what stands before the first `=`, in small letters, to what `settingValue`
says of the text behind it. -/
theorem iniparser_line_outcome (raw section_ : List Char) :
    (iniparserLine raw section_ = .error ↔ SyntaxError raw)
    ∧ ∀ key value, iniparserLine raw section_ = .value key value
      ↔ ∃ k rest, SplitsAt raw k rest ∧ key = strlwc (strip k) ∧ value = settingValue rest := by
  refine ⟨iniparserLine_eq_error, fun key value => ?_⟩
  constructor
  · intro h
    rcases iniparserLine_cases raw section_ with ⟨-, hline⟩ | ⟨-, hline⟩ | ⟨-, -, -, name, hline⟩
      | ⟨-, hline⟩ | ⟨k, rest, hsplit, hline⟩
    · rw [hline] at h
      cases h
    · rw [hline] at h
      cases h
    · rw [hline] at h
      cases h
    · rw [hline] at h
      cases h
    · rw [hline] at h
      cases h
      exact ⟨k, rest, hsplit, rfl, rfl⟩
  · rintro ⟨k, rest, hsplit, rfl, rfl⟩
    exact iniparserLine_value section_ hsplit.split hsplit.ne_nil hsplit.notMem hsplit.comment
      hsplit.section_

end PvfsProxy
