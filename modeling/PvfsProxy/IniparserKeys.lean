import PvfsProxy.IniparserDump

/-!
# The keys of a loaded file

Whatever a file holds, `iniparser_load` sets keys in small letters only, and
looking up turns every letter into a small one: a key that is there is found
under its own name, in any case.
-/

namespace PvfsProxy

open CString SlotTable

theorem strlwc_length (s : List Char) : (strlwc s).length ≤ asciilinesz := by
  rw [strlwc, List.length_map, List.length_take]
  exact Nat.min_le_left _ _

theorem toLower_idem (c : Char) : c.toLower.toLower = c.toLower := by
  unfold Char.toLower
  split
  · rename_i hupper
    split
    · rename_i hagain
      simp only [UInt32.le_iff_toNat_le, UInt32.toNat_add] at hupper hagain
      simp at hupper hagain
      omega
    · rfl
  · rfl

@[simp] theorem map_toLower_idem (s : List Char) :
    (s.map Char.toLower).map Char.toLower = s.map Char.toLower := by
  rw [List.map_map]
  refine List.map_congr_left fun c _ => ?_
  exact toLower_idem c

@[simp] theorem strlwc_idem (s : List Char) : strlwc (strlwc s) = strlwc s := by
  rw [strlwc, List.take_of_length_le (strlwc_length s), strlwc, map_toLower_idem]

theorem strlwc_eq_self {s : List Char} :
    strlwc s = s ↔ s.map Char.toLower = s ∧ s.length ≤ asciilinesz := by
  constructor
  · intro h
    have hlen := strlwc_length s
    rw [h] at hlen
    rw [strlwc, List.take_of_length_le hlen] at h
    exact ⟨h, hlen⟩
  · rintro ⟨h, hlen⟩
    exact strlwc_of_lower h hlen

/-- The name or the key is in small letters. -/
def IniLine.Lower : IniLine → Prop
  | .section_ name => strlwc name = name
  | .value key _ => strlwc key = key
  | _ => True

theorem iniparserLine_lower (raw section_ : List Char) : (iniparserLine raw section_).Lower := by
  unfold iniparserLine
  dsimp only
  split
  · trivial
  split
  · trivial
  split
  · exact strlwc_idem _
  split
  · exact strlwc_idem _
  split
  · exact strlwc_idem _
  · trivial

/-- Section and key in small letters give a key in small letters where they fit. -/
theorem strlwc_join {name key : List Char} (hname : strlwc name = name) (hkey : strlwc key = key)
    (hlen : ¬ name.length + 1 + key.length > asciilinesz) :
    strlwc (name ++ ':' :: key) = name ++ ':' :: key := by
  rw [strlwc_eq_self] at hname hkey ⊢
  refine ⟨?_, by simp only [List.length_append, List.length_cons]; omega⟩
  rw [List.map_append, List.map_cons, hname.1, hkey.1]
  rfl

/-- What the loop keeps. -/
structure IniReader.Lower (s : IniReader) : Prop where
  wf : s.dict.Wf
  section_ : strlwc s.section_ = s.section_
  keys : ∀ k, s.dict.find k ≠ none → strlwc k = k

theorem Dictionary.Wf.set_lower {d d' : Dictionary} {key : List Char} {val : Option (List Char)}
    {r : Int} (h : d.Wf) (hkeys : ∀ k, d.find k ≠ none → strlwc k = k) (hkey : strlwc key = key)
    (hset : dictionarySet d (some key) val = .ok (d', r)) :
    d'.Wf ∧ ∀ k, d'.find k ≠ none → strlwc k = k := by
  obtain ⟨d₁, hset₁, hwf, hfind, -⟩ := h.set key val
  obtain ⟨rfl, -⟩ := Prod.mk.inj (Except.ok.inj (hset.symm.trans hset₁))
  refine ⟨hwf, fun k hk => ?_⟩
  by_cases hsame : k = key
  · rw [hsame, hkey]
  · rw [hfind, Function.update_of_ne hsame] at hk
    exact hkeys k hk

theorem IniReader.Lower.store {s s' : IniReader} (h : s.Lower) {raw : List Char}
    (hstore : s.store raw = .ok s') : s'.Lower := by
  have hline := iniparserLine_lower raw s.section_
  unfold IniReader.store at hstore
  split at hstore
  · cases hstore
    exact ⟨h.wf, h.section_, h.keys⟩
  · cases hstore
    exact ⟨h.wf, h.section_, h.keys⟩
  · rename_i name heq
    rw [heq] at hline
    obtain ⟨d', hset, hs⟩ := bind_set_eq_ok hstore
    cases hs
    obtain ⟨hwf, hkeys⟩ := h.wf.set_lower h.keys hline hset
    exact ⟨hwf, hline, hkeys⟩
  · rename_i key value heq
    rw [heq] at hline
    split at hstore
    · cases hstore
    · rename_i hroom
      obtain ⟨d', hset, hs⟩ := bind_set_eq_ok hstore
      cases hs
      obtain ⟨hwf, hkeys⟩ := h.wf.set_lower h.keys (strlwc_join h.section_ hline hroom) hset
      exact ⟨hwf, h.section_, hkeys⟩
  · cases hstore
    exact ⟨h.wf, h.section_, h.keys⟩

theorem IniReader.Lower.turn {below : Char} {s s' : IniReader} (h : s.Lower) {chunk : List Char}
    (hturn : s.turn below chunk = .ok (some s')) : s'.Lower := by
  unfold IniReader.turn at hturn
  dsimp only at hturn
  split at hturn
  · cases hturn
  · split at hturn
    · split at hturn
      · cases hturn
      · cases hturn
        exact ⟨h.wf, h.section_, h.keys⟩
    · cases hstore :
          s.store ((List.takeWhile (· != '\x00') (s.line ++ chunk)).rdropWhile isspace) with
      | error e =>
          rw [hstore] at hturn
          cases hturn
      | ok s₁ =>
          rw [hstore] at hturn
          cases hturn
          exact h.store hstore

theorem IniReader.Lower.loop {below : Char} : ∀ {turns : Nat} {s s' : IniReader}
    {file : List Char}, s.Lower → iniparserLoop below turns s file = .ok (some s') → s'.Lower
  | 0, s, s', file, h, hloop => by
      cases hloop
      exact h
  | turns + 1, s, s', file, h, hloop => by
      rw [iniparserLoop] at hloop
      split at hloop
      · cases hloop
        exact h
      · rename_i chunk rest hread
        cases hturn : s.turn below chunk with
        | error e =>
            rw [hturn] at hloop
            cases hloop
        | ok r =>
            rw [hturn] at hloop
            cases r with
            | none => cases hloop
            | some s₁ =>
                have h₁ := h.turn hturn
                change (if s₁.errs < 0 then .ok (some s₁) else iniparserLoop below turns s₁ rest)
                  = _ at hloop
                split at hloop
                · cases hloop
                  exact h₁
                · exact h₁.loop hloop

/-- **The keys of a loaded file.** In the dictionary `iniparser_load` returns for any
file, a key is there exactly if `iniparser_find_entry` finds it, whatever the case of
its letters is in the question, and every key that is there is found under its own name. -/
theorem load_finds_keys {below : Char} {file : List Char} {d : Dictionary}
    (h : iniparserLoad below file = .ok (some d)) :
    (∀ entry, iniparserFindEntry d entry = 1 ↔ strlwc entry ∈ d.keys)
      ∧ ∀ key ∈ d.keys, ∀ entry, entry.map Char.toLower = key → iniparserFindEntry d entry = 1 := by
  have hnew := dictionaryNew_holds 0
  have hstart : IniReader.Lower
      { line := [], section_ := [], dict := dictionaryNew 0, errs := 0 } :=
    ⟨hnew.wf, rfl, fun k hk => absurd (congrFun hnew.find k) hk⟩
  obtain ⟨s, hloop, hs⟩ : ∃ s, iniparserLoop below file.length
      { line := [], section_ := [], dict := dictionaryNew 0, errs := 0 } file = .ok (some s)
        ∧ s.dict = d := by
    unfold iniparserLoad at h
    dsimp only at h
    cases hloop : iniparserLoop below file.length
        { line := [], section_ := [], dict := dictionaryNew 0, errs := 0 } file with
    | error e =>
        rw [hloop] at h
        cases h
    | ok r =>
        rw [hloop] at h
        cases r with
        | none => cases h
        | some s =>
            change Except.ok (if s.errs ≠ 0 then none else some s.dict) = _ at h
            split at h
            · cases h
            · cases h
              exact ⟨s, rfl, rfl⟩
  have hlower := hstart.loop hloop
  subst hs
  have hfound : ∀ entry, iniparserFindEntry s.dict entry = 1 ↔ strlwc entry ∈ s.dict.keys := by
    intro entry
    rw [iniparserFindEntry, iniparserGetstring, hlower.wf.get]
    cases hfind : s.dict.find (strlwc entry) with
    | none =>
        have hno : strlwc entry ∉ s.dict.keys := lookup_eq_none.mp hfind
        simp [hno]
    | some val =>
        have hin : strlwc entry ∈ s.dict.keys := by
          by_contra hno
          have hnone : s.dict.find (strlwc entry) = none := lookup_eq_none.mpr hno
          rw [hnone] at hfind
          cases hfind
        cases val <;> simp [hin, CharPtr.ofVal]
  refine ⟨hfound, fun key hkey entry hentry => ?_⟩
  have hkey' : strlwc key = key := hlower.keys key fun hnone => lookup_eq_none.mp hnone hkey
  have hlen := (strlwc_eq_self.mp hkey').2
  rw [← hentry, List.length_map] at hlen
  rw [hfound, strlwc, List.take_of_length_le hlen, hentry]
  exact hkey

/-- The section of the file is in large letters. -/
theorem load_finds_keys_example :
    ∃ d, iniparserLoad 'x' (iniFile [['[', 'A', ']']]) = .ok (some d)
      ∧ ((∀ entry, iniparserFindEntry d entry = 1 ↔ strlwc entry ∈ d.keys)
        ∧ ∀ key ∈ d.keys, ∀ entry, entry.map Char.toLower = key →
          iniparserFindEntry d entry = 1) := by
  have hplain : ∀ raw ∈ [['[', 'A', ']']], PlainLine 'x' raw := by decide
  obtain ⟨d, hd, -⟩ : ∃ d, iniparserLoad 'x' (iniFile [['[', 'A', ']']]) = .ok (some d) ∧ d.Wf
      ∧ d.find = Function.update (fun _ => none) ['a'] (some none) := load_lines hplain
  exact ⟨d, hd, load_finds_keys hd⟩

end PvfsProxy
