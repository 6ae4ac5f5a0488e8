import PvfsProxy.IpRanges

/-!
# Location values

What `load_configuration` makes of location values that are lists of addresses and
ranges in dotted notation. The kind of an entry is taken from the length of its
token: what is shorter than 16 characters is read as an address.
-/

namespace PvfsProxy

open CString

/-! ## Splitting -/

/-- The tokens, with commas between them. -/
def commaJoin (texts : List (List Char)) : List Char := [','].intercalate texts

@[simp] theorem commaJoin_nil : commaJoin [] = [] := rfl

@[simp] theorem commaJoin_singleton (t : List Char) : commaJoin [t] = t := by
  simp [commaJoin]

@[simp] theorem commaJoin_cons_cons (t u : List Char) (texts : List (List Char)) :
    commaJoin (t :: u :: texts) = t ++ ',' :: commaJoin (u :: texts) := by
  simp [commaJoin]

/-- A token of a location value. -/
structure IsToken (t : List Char) : Prop where
  ne_nil : t ≠ []
  notMem : ',' ∉ t

theorem strtok_commaJoin {texts : List (List Char)} (h : ∀ t ∈ texts, IsToken t)
    (saved : List Char) :
    strtok ',' (some (commaJoin texts)) saved = (texts.head?, commaJoin texts.tail) := by
  match texts with
  | [] => rfl
  | [t] =>
      have ht := h t List.mem_cons_self
      rw [commaJoin_singleton, strtok_last ht.ne_nil ht.notMem]
      rfl
  | t :: u :: texts =>
      have ht := h t List.mem_cons_self
      rw [commaJoin_cons_cons, strtok_append ht.ne_nil ht.notMem]
      rfl

theorem length_le_commaJoin : ∀ {texts : List (List Char)}, (∀ t ∈ texts, IsToken t) →
    texts.length ≤ (commaJoin texts).length
  | [], _ => Nat.le_refl 0
  | [t], h => by
      have hpos := List.length_pos_of_ne_nil (h t List.mem_cons_self).ne_nil
      rwa [commaJoin_singleton, List.length_singleton]
  | t :: u :: texts, h => by
      have hpos := List.length_pos_of_ne_nil (h t List.mem_cons_self).ne_nil
      have ih := length_le_commaJoin fun t' ht' => h t' (List.mem_cons_of_mem t ht')
      simp only [commaJoin_cons_cons, List.length_append, List.length_cons] at ih ⊢
      omega

/-- The entry that is made of a token, before its addresses are read. -/
structure Location.Split (appIndex : Nat) (t : List Char) (ipa : Location) : Prop where
  suppliedValue : ipa.suppliedValue = t
  appIndex : ipa.appIndex = appIndex
  range : ipa.range = if 16 ≤ t.length then .range else .ip

variable {appIndex : Nat} {weight : Int} {junk : Nat → Location}

theorem splitLoop_eq : ∀ {n : Nat} {texts : List (List Char)} (list : List Location),
    (∀ t ∈ texts, IsToken t) → texts.length ≤ n →
    ∃ new, splitLoop appIndex junk n texts.head? list (commaJoin texts.tail) = (list ++ new, [])
      ∧ List.Forall₂ (Location.Split appIndex) texts new
  | 0, [], list, _, _ => ⟨[], by simp [splitLoop], .nil⟩
  | n + 1, [], list, _, _ => ⟨[], by simp [splitLoop], .nil⟩
  | n + 1, t :: texts, list, h, hn => by
      have htexts : ∀ u ∈ texts, IsToken u := fun u hu => h u (List.mem_cons_of_mem t hu)
      let ipa : Location := { junk list.length with
        suppliedValue := t
        appIndex := appIndex
        range := if 16 ≤ t.length then .range else .ip }
      obtain ⟨new, hnew, hall⟩ := splitLoop_eq (list ++ [ipa]) htexts (Nat.le_of_succ_le_succ hn)
      refine ⟨ipa :: new, ?_, .cons ⟨rfl, rfl, rfl⟩ hall⟩
      simp only [List.head?_cons, List.tail_cons, splitLoop, strtok_none,
        strtok_commaJoin htexts]
      rw [hnew]
      simp

theorem splitIntoRanges_eq {texts : List (List Char)} (h : ∀ t ∈ texts, IsToken t)
    (list : List Location) (saved : List Char) :
    ∃ new, splitIntoRanges appIndex junk (some (commaJoin texts)) list saved = (list ++ new, [])
      ∧ List.Forall₂ (Location.Split appIndex) texts new := by
  simp only [splitIntoRanges, Option.getD_some, strtok_commaJoin h]
  exact splitLoop_eq list h (length_le_commaJoin h)

theorem splitEach_eq : ∀ {values : List (List (List Char))},
    (∀ texts ∈ values, ∀ t ∈ texts, IsToken t) → ∀ (list : List Location) (saved : List Char),
    ∃ new saved', (values.map fun texts => some (commaJoin texts)).foldl
        (fun s value => splitIntoRanges appIndex junk value s.1 s.2) (list, saved)
      = (list ++ new, saved') ∧ List.Forall₂ (Location.Split appIndex) values.flatten new
  | [], _, list, saved => ⟨[], saved, by simp, .nil⟩
  | texts :: values, h, list, saved => by
      obtain ⟨new, hnew, hall⟩ : ∃ new,
          splitIntoRanges appIndex junk (some (commaJoin texts)) list saved = (list ++ new, [])
            ∧ List.Forall₂ (Location.Split appIndex) texts new :=
        splitIntoRanges_eq (h texts List.mem_cons_self) list saved
      obtain ⟨rest, saved', hrest, hall'⟩ := splitEach_eq
        (fun texts' h' => h texts' (List.mem_cons_of_mem texts h')) (list ++ new) []
      refine ⟨new ++ rest, saved', ?_, List.rel_append hall hall'⟩
      simp only [List.map_cons, List.foldl_cons, hnew, hrest, List.append_assoc]

/-! ## Reading the addresses -/

theorem Dotted.chars {s : List Char} {q : IpNumbers} (h : Dotted s q) :
    ∀ c ∈ s, c.isDigit = true ∨ c = '.' := by
  obtain ⟨a, b, c, d, n₁, n₂, n₃, n₄, ha, hb, hc, hd, rfl, -⟩ := h
  intro x hx
  simp only [List.mem_append, List.mem_cons] at hx
  rcases hx with hx | rfl | hx | rfl | hx | rfl | hx
  · exact .inl (ha.digits x hx)
  · exact .inr rfl
  · exact .inl (hb.digits x hx)
  · exact .inr rfl
  · exact .inl (hc.digits x hx)
  · exact .inr rfl
  · exact .inl (hd.digits x hx)

theorem Dotted.notMem {s : List Char} {q : IpNumbers} (h : Dotted s q) {c : Char}
    (hdigit : c.isDigit = false) (hdot : c ≠ '.') : c ∉ s := by
  intro hc
  rcases h.chars c hc with hd | rfl
  · rw [hdigit] at hd
    cases hd
  · exact hdot rfl

theorem Dotted.ne_nil {s : List Char} {q : IpNumbers} (h : Dotted s q) : s ≠ [] := by
  obtain ⟨a, b, c, d, n₁, n₂, n₃, n₄, -, -, -, -, rfl, -⟩ := h
  simp

/-- What a token of a location value stands for. -/
inductive LocationToken where
  | address (a : IpNumbers)
  | pair (a b : IpNumbers)

namespace LocationToken

def IsPair : LocationToken → Prop
  | address _ => False
  | pair .. => True

/-- The string is the token as it is written. -/
def Written (s : List Char) : LocationToken → Prop
  | address a => Dotted s a
  | pair a b => ∃ s₁ s₂, s = s₁ ++ '-' :: s₂ ∧ Dotted s₁ a ∧ Dotted s₂ b

/-- The entry is of the token's type and has its addresses. -/
def Loaded (ipa : Location) : LocationToken → Prop
  | address a => ipa.range = .ip ∧ ipa.start = a
  | pair a b => ipa.range = .range ∧ ipa.start = a ∧ ipa.stop = b

theorem Written.isToken {s : List Char} {t : LocationToken} (h : t.Written s) : IsToken s := by
  cases t with
  | address a => exact ⟨Dotted.ne_nil h, Dotted.notMem h (by decide) (by decide)⟩
  | pair a b =>
      obtain ⟨s₁, s₂, rfl, ha, hb⟩ := h
      refine ⟨by simp, ?_⟩
      have hdash : ',' ≠ '-' := by decide
      simp [ha.notMem (c := ',') (by decide) (by decide), hdash,
        hb.notMem (c := ',') (by decide) (by decide)]

end LocationToken

theorem setStartEnd_range (text : List Char) (ipa : Location) (saved : List Char) :
    (setStartEnd text ipa saved).2.1.range = ipa.range := by
  unfold setStartEnd
  split
  · rfl
  · split
    · rfl
    · dsimp only
      split <;> rfl

theorem loadLocation_range (ipa : Location) (saved : List Char) :
    (loadLocation weight ipa saved).1.range = ipa.range := by
  unfold loadLocation
  split
  · exact setStartEnd_range _ _ _
  · rfl

/-- A pair is read as it is written. -/
theorem setStartEnd_pair {s₁ s₂ : List Char} {a b : IpNumbers} (ha : Dotted s₁ a)
    (hb : Dotted s₂ b) (ipa : Location) (saved : List Char) :
    setStartEnd (s₁ ++ '-' :: s₂) ipa saved = (0, { ipa with start := a, stop := b }, []) := by
  have hfirst : strtok '-' (some (s₁ ++ '-' :: s₂)) saved = (some s₁, s₂) :=
    strtok_append ha.ne_nil (ha.notMem (by decide) (by decide))
  have hsecond : strtok '-' (some s₂) s₂ = (some s₂, []) :=
    strtok_last hb.ne_nil (hb.notMem (by decide) (by decide))
  simp [setStartEnd, hfirst, hsecond, setIpNumbers_dotted ha, setIpNumbers_dotted hb]

/-- A token is loaded as what it is if its length shows what it is. -/
theorem loadLocation_loaded {s : List Char} {t : LocationToken} (ht : t.Written s)
    {ipa : Location} (hsplit : ipa.Split appIndex s) (saved : List Char) :
    t.Loaded (loadLocation weight ipa saved).1 ↔ (16 ≤ s.length ↔ t.IsPair) := by
  have hrange : (loadLocation weight ipa saved).1.range = ipa.range := loadLocation_range ipa saved
  rw [hsplit.range] at hrange
  cases t with
  | address a =>
      simp only [LocationToken.Loaded, LocationToken.IsPair, iff_false]
      constructor
      · rintro ⟨hip, -⟩ hlong
        rw [hrange, if_pos hlong] at hip
        cases hip
      · intro hshort
        refine ⟨by rw [hrange, if_neg hshort], ?_⟩
        have hip := hsplit.range
        rw [if_neg hshort] at hip
        simp [loadLocation, hip, hsplit.suppliedValue, setIpNumbers_dotted ht]
  | pair a b =>
      simp only [LocationToken.Loaded, LocationToken.IsPair, iff_true]
      constructor
      · rintro ⟨hip, -⟩
        by_contra hshort
        rw [hrange, if_neg hshort] at hip
        cases hip
      · intro hlong
        refine ⟨by rw [hrange, if_pos hlong], ?_⟩
        have hip := hsplit.range
        rw [if_pos hlong] at hip
        obtain ⟨s₁, s₂, rfl, ha, hb⟩ := ht
        simp [loadLocation, hip, hsplit.suppliedValue, setStartEnd_pair ha hb]

/-! ## The application and the weight of an entry -/

theorem setStartEnd_appIndex (text : List Char) (ipa : Location) (saved : List Char) :
    (setStartEnd text ipa saved).2.1.appIndex = ipa.appIndex := by
  unfold setStartEnd
  split
  · rfl
  · split
    · rfl
    · dsimp only
      split <;> rfl

theorem loadLocation_appIndex (ipa : Location) (saved : List Char) :
    (loadLocation weight ipa saved).1.appIndex = ipa.appIndex := by
  unfold loadLocation
  split
  · exact setStartEnd_appIndex _ _ _
  · rfl

theorem loadEach_appIndex : ∀ {ipas : List Location} {saved : List Char},
    (∀ ipa ∈ ipas, ipa.appIndex = appIndex) →
    ∀ ipa ∈ (loadEach weight ipas saved).1, ipa.appIndex = appIndex
  | [], _, _, ipa, hin => by cases hin
  | p :: ps, saved, h, ipa, hin => by
      simp only [loadEach, List.mem_cons] at hin
      rcases hin with rfl | hin
      · rw [loadLocation_appIndex]
        exact h p List.mem_cons_self
      · exact loadEach_appIndex (fun q hq => h q (List.mem_cons_of_mem p hq)) ipa hin

theorem loadLocation_weight (ipa : Location) (saved : List Char) :
    (loadLocation weight ipa saved).1.weight = weight := by
  unfold loadLocation
  split <;> rfl

theorem loadEach_weight : ∀ (ipas : List Location) (saved : List Char),
    ∀ ipa ∈ (loadEach weight ipas saved).1, ipa.weight = weight
  | [], _, ipa, hin => by cases hin
  | p :: ps, saved, ipa, hin => by
      simp only [loadEach, List.mem_cons] at hin
      rcases hin with rfl | hin
      · exact loadLocation_weight p saved
      · exact loadEach_weight ps _ ipa hin

/-! ## The whole configuration -/

theorem loadEach_loaded : ∀ {tokens : List (List Char × LocationToken)} {ipas : List Location},
    List.Forall₂ (fun t ipa => ipa.Split appIndex t.1) tokens ipas →
    (∀ t ∈ tokens, t.2.Written t.1) → ∀ saved : List Char,
    (List.Forall₂ (fun t ipa => t.2.Loaded ipa) tokens (loadEach weight ipas saved).1
      ↔ ∀ t ∈ tokens, (16 ≤ t.1.length ↔ t.2.IsPair))
  | [], [], _, _, saved => by simp [loadEach]
  | t :: tokens, ipa :: ipas, .cons hsplit hrest, hw, saved => by
      have hone : t.2.Loaded (loadLocation weight ipa saved).1
          ↔ (16 ≤ t.1.length ↔ t.2.IsPair) :=
        loadLocation_loaded (hw t List.mem_cons_self) hsplit saved
      have ih := loadEach_loaded hrest (fun t' ht' => hw t' (List.mem_cons_of_mem t ht'))
        (loadLocation weight ipa saved).2
      simp only [loadEach, List.forall₂_cons, List.forall_mem_cons, hone, ih]

/-- Every token is an entry before the addresses are read. -/
theorem loadLocations_eq {values : List (List (List Char × LocationToken))}
    (hw : ∀ tokens ∈ values, ∀ t ∈ tokens, t.2.Written t.1) (appIndex : Nat) (weight : Int)
    (junk : Nat → Location) (saved : List Char) :
    ∃ new saved', loadLocations appIndex weight junk
        (values.map fun tokens => some (commaJoin (tokens.map Prod.fst))) saved
          = loadEach weight new saved'
      ∧ List.Forall₂ (fun t ipa => Location.Split appIndex t.1 ipa) values.flatten new := by
  have htokens : ∀ texts ∈ values.map (List.map Prod.fst), ∀ t ∈ texts, IsToken t := by
    intro texts htexts t ht
    obtain ⟨tokens, htokens, rfl⟩ := List.mem_map.mp htexts
    obtain ⟨token, htoken, rfl⟩ := List.mem_map.mp ht
    exact (hw tokens htokens token htoken).isToken
  obtain ⟨new, saved', hnew, hall⟩ : ∃ new saved',
      ((values.map (List.map Prod.fst)).map fun texts => some (commaJoin texts)).foldl
          (fun s value => splitIntoRanges appIndex junk value s.1 s.2) ([], saved)
        = ([] ++ new, saved')
      ∧ List.Forall₂ (Location.Split appIndex) (values.map (List.map Prod.fst)).flatten new :=
    splitEach_eq htokens [] saved
  rw [← List.map_flatten, List.forall₂_map_left_iff] at hall
  rw [List.map_map, List.nil_append] at hnew
  refine ⟨new, saved', ?_, hall⟩
  unfold loadLocations
  rw [show (fun tokens : List (List Char × LocationToken) =>
    some (commaJoin (tokens.map Prod.fst)))
      = (fun texts => some (commaJoin texts)) ∘ List.map Prod.fst from rfl, hnew]

/-- **Location values are loaded as written.** The entries of an application are of
the type and have the addresses of the tokens, one for one, if and only if the
tokens of at least 16 characters are exactly the pairs. -/
theorem load_locations {values : List (List (List Char × LocationToken))}
    (hw : ∀ tokens ∈ values, ∀ t ∈ tokens, t.2.Written t.1) (appIndex : Nat) (weight : Int)
    (junk : Nat → Location) (saved : List Char) :
    List.Forall₂ (fun t ipa => t.2.Loaded ipa) values.flatten
        (loadLocations appIndex weight junk
          (values.map fun tokens => some (commaJoin (tokens.map Prod.fst))) saved).1
      ↔ ∀ t ∈ values.flatten, (16 ≤ t.1.length ↔ t.2.IsPair) := by
  obtain ⟨new, saved', hload, hall⟩ := loadLocations_eq hw appIndex weight junk saved
  rw [hload]
  refine loadEach_loaded hall ?_ saved'
  intro t ht
  obtain ⟨tokens, htokens, hin⟩ := List.mem_flatten.mp ht
  exact hw tokens htokens t hin

/-- An address and a range. -/
def sampleTokens : List (List Char × LocationToken) :=
  [(['1', '0', '.', '0', '.', '0', '.', '1'], .address ⟨10, 0, 0, 1⟩),
    (['1', '0', '.', '0', '.', '0', '.', '0', '-', '1', '0', '.', '0', '.', '2', '.', '5'],
      .pair ⟨10, 0, 0, 0⟩ ⟨10, 0, 2, 5⟩)]

/-- The location value `10.0.0.1,10.0.0.0-10.0.2.5`. -/
theorem load_locations_example :
    commaJoin (sampleTokens.map Prod.fst)
        = ['1', '0', '.', '0', '.', '0', '.', '1', ',', '1', '0', '.', '0', '.', '0', '.', '0',
          '-', '1', '0', '.', '0', '.', '2', '.', '5']
      ∧ List.Forall₂ (fun t ipa => t.2.Loaded ipa) [sampleTokens].flatten
        (loadLocations 0 1 (fun _ => sampleLocation)
          [some (commaJoin (sampleTokens.map Prod.fst))] []).1 := by
  refine ⟨by decide, (@load_locations [sampleTokens] ?_ 0 1 _ []).mpr ?_⟩
  · intro tokens htokens t ht
    obtain rfl := List.mem_singleton.mp htokens
    simp only [sampleTokens, List.mem_cons, List.not_mem_nil, or_false] at ht
    rcases ht with rfl | rfl
    · exact ⟨['1', '0'], ['0'], ['0'], ['1'], 10, 0, 0, 1, by decide, by decide, by decide,
        by decide, rfl, rfl⟩
    · exact ⟨['1', '0', '.', '0', '.', '0', '.', '0'], ['1', '0', '.', '0', '.', '2', '.', '5'],
        rfl, ⟨['1', '0'], ['0'], ['0'], ['0'], 10, 0, 0, 0, by decide, by decide, by decide,
          by decide, rfl, rfl⟩,
        ⟨['1', '0'], ['0'], ['2'], ['5'], 10, 0, 2, 5, by decide, by decide, by decide,
          by decide, rfl, rfl⟩⟩
  · simp [sampleTokens, LocationToken.IsPair]

/-- The range `1.1.1.1-2.2.2.2` is loaded as the address `1.1.1.1`. -/
theorem load_locations_short_pair :
    (LocationToken.pair ⟨1, 1, 1, 1⟩ ⟨2, 2, 2, 2⟩).Written
        ['1', '.', '1', '.', '1', '.', '1', '-', '2', '.', '2', '.', '2', '.', '2']
      ∧ (loadLocations 0 1 (fun _ => sampleLocation)
          [some ['1', '.', '1', '.', '1', '.', '1', '-', '2', '.', '2', '.', '2', '.', '2']]
          []).1.map (fun ipa => (ipa.range, ipa.start)) = [(.ip, ⟨1, 1, 1, 1⟩)] := by
  refine ⟨⟨['1', '.', '1', '.', '1', '.', '1'], ['2', '.', '2', '.', '2', '.', '2'], rfl,
    ⟨['1'], ['1'], ['1'], ['1'], 1, 1, 1, 1, by decide, by decide, by decide, by decide,
      rfl, rfl⟩,
    ⟨['2'], ['2'], ['2'], ['2'], 2, 2, 2, 2, by decide, by decide, by decide, by decide,
      rfl, rfl⟩⟩, by decide⟩

/-! ## The entries of an application -/

/-- The location values of an application, with what their tokens stand for. -/
abbrev LocationValues := List (List (List Char × LocationToken))

/-- The strings `load_configuration` reads. -/
def LocationValues.texts (values : LocationValues) : List (Option (List Char)) :=
  values.map fun tokens => some (commaJoin (tokens.map Prod.fst))

/-- The values are written as their tokens say, and the ranges are the long tokens. -/
structure LocationValues.Written (values : LocationValues) : Prop where
  tokens : ∀ tokens ∈ values, ∀ t ∈ tokens, t.2.Written t.1
  long : ∀ t ∈ values.flatten, (16 ≤ t.1.length ↔ t.2.IsPair)

/-- The entries of an application are its tokens, where the length of a token shows what it
is, and know the application and its weight. -/
theorem loadLocations_entries {values : LocationValues}
    (hw : ∀ tokens ∈ values, ∀ t ∈ tokens, t.2.Written t.1) (i : Nat) (weight : Int)
    (junk : Nat → Location) (saved : List Char) :
    (List.Forall₂ (fun t ipa => t.2.Loaded ipa) values.flatten
        (loadLocations i weight junk values.texts saved).1
      ↔ ∀ t ∈ values.flatten, (16 ≤ t.1.length ↔ t.2.IsPair))
      ∧ ∀ ipa ∈ (loadLocations i weight junk values.texts saved).1,
          ipa.appIndex = i ∧ ipa.weight = weight := by
  obtain ⟨new, saved', hload, hall⟩ := loadLocations_eq hw i weight junk saved
  unfold LocationValues.texts
  rw [hload]
  refine ⟨loadEach_loaded hall ?_ saved', fun ipa hin =>
    ⟨loadEach_appIndex (fun ipa hin => ?_) ipa hin, loadEach_weight new saved' ipa hin⟩⟩
  · intro t ht
    obtain ⟨tokens, htokens, hin⟩ := List.mem_flatten.mp ht
    exact hw tokens htokens t hin
  · obtain ⟨k, hk, rfl⟩ := List.getElem_of_mem hin
    have hlen := hall.length_eq
    have hsplit : Location.Split i _ new[k] := hall.get (by omega) hk
    exact hsplit.appIndex

end PvfsProxy
