import Mathlib.Algebra.BigOperators.Group.List.Basic
import PvfsProxy.StripingRanges
import PvfsProxy.Configuration

/-!
# From the configuration file to the applications

A file of plain lines whose settings name applications, with their weights,
response times and location values as decimal numbers and strings, is loaded as
those applications. The keys are printed from the numbers of the applications
and are in small letters, so that each is found; the location values are then
read one after the other by one `strtok`.
-/

namespace PvfsProxy

open CString SlotTable

/-! ## The keys -/

theorem toLower_of_isDigit {c : Char} (h : c.isDigit = true) : c.toLower = c := by
  unfold Char.toLower
  split
  · rename_i hupper
    simp only [Char.isDigit, Bool.and_eq_true, decide_eq_true_eq, UInt32.le_iff_toNat_le] at h
    simp only [UInt32.le_iff_toNat_le] at hupper
    exact absurd (Nat.le_trans hupper.1 h.2) (by decide)
  · rfl

theorem map_toLower_digits (n : Nat) :
    (Nat.toDigits 10 n).map Char.toLower = Nat.toDigits 10 n := by
  refine (List.map_congr_left fun c hc => ?_).trans (List.map_id _)
  exact toLower_of_isDigit (Nat.isDigit_of_mem_toDigits (by decide) (by decide) hc)

/-- The number of an application or a location has two digits at most. -/
theorem length_digits {n : Nat} (h : n < 100) : (Nat.toDigits 10 n).length ≤ 2 :=
  (Nat.length_toDigits_le_iff (by decide) (by decide)).mpr h

section Keys

variable {i j : Nat}

theorem currApp_lower : (currApp i).map Char.toLower = currApp i := by
  rw [currApp, List.map_append, map_toLower_digits]
  rfl

theorem currApp_length (h : i < 99) : (currApp i).length ≤ 5 := by
  have hdigits : (Nat.toDigits 10 (i + 1)).length ≤ 2 := length_digits (by omega)
  rw [currApp, List.length_append]
  simp only [List.length_cons, List.length_nil]
  omega

theorem strlwc_key {s : List Char} (hlower : s.map Char.toLower = s) (hlen : s.length ≤ 40) :
    strlwc s = s := strlwc_of_lower hlower (Nat.le_trans hlen (by decide))

theorem appNameKey_strlwc (h : i < 99) : strlwc (appNameKey i) = appNameKey i := by
  have hlen := currApp_length h
  refine strlwc_key ?_ ?_
  · rw [appNameKey, List.map_append, currApp_lower]
    rfl
  · rw [appNameKey, List.length_append]
    simp only [List.length_cons, List.length_nil]
    omega

theorem weightKey_strlwc (h : i < 99) : strlwc (weightKey i) = weightKey i := by
  have hlen := currApp_length h
  refine strlwc_key ?_ ?_
  · rw [weightKey, List.map_append, currApp_lower]
    rfl
  · rw [weightKey, List.length_append]
    simp only [List.length_cons, List.length_nil]
    omega

theorem latencyKey_strlwc (h : i < 99) : strlwc (latencyKey i) = latencyKey i := by
  have hlen := currApp_length h
  refine strlwc_key ?_ ?_
  · rw [latencyKey, List.map_append, currApp_lower]
    rfl
  · rw [latencyKey, List.length_append]
    simp only [List.length_cons, List.length_nil]
    omega

theorem countKey_strlwc (h : i < 99) : strlwc (countKey i) = countKey i := by
  have hlen := currApp_length h
  refine strlwc_key ?_ ?_
  · rw [countKey, currLocation, List.map_append, List.map_append, currApp_lower]
    rfl
  · rw [countKey, currLocation, List.length_append, List.length_append]
    simp only [List.length_cons, List.length_nil]
    omega

theorem locationKey_strlwc (h : i < 99) (hj : j < 99) :
    strlwc (locationKey i j) = locationKey i j := by
  have hlen := currApp_length h
  have hdigits : (Nat.toDigits 10 (j + 1)).length ≤ 2 := length_digits (by omega)
  refine strlwc_key ?_ ?_
  · rw [locationKey, currLocation, List.map_append, List.map_append, List.map_append,
      currApp_lower, map_toLower_digits]
    rfl
  · rw [locationKey, currLocation, List.length_append, List.length_append, List.length_append]
    simp only [List.length_cons, List.length_nil]
    omega

end Keys

/-! ## Numbers and strings in the dictionary -/

/-- The setting is the decimal numeral of a number that fits into an `int`. -/
structure IsNumber (val : Option (Option (List Char))) (n : Nat) : Prop where
  numeral : ∃ s, val = some (some s) ∧ Numeral s n ∧ (s.head? = some '0' → s = ['0'])
  lt : n < 2 ^ 31

variable {d : Dictionary} {key : List Char}

theorem strtol_number {s : List Char} {n : Nat} (h : Numeral s n)
    (h0 : s.head? = some '0' → s = ['0']) (hn : n < 2 ^ 31) : strtol s = n := by
  by_cases hzero : s.head? = some '0'
  · obtain rfl := h0 hzero
    rw [← h.value]
    rfl
  · exact h.strtol hzero (by omega)

theorem getint_number (hwf : d.Wf) (hkey : strlwc key = key) {n : Nat}
    (h : IsNumber (d.find key) n) (notfound : Int) : iniparserGetint d key notfound = .ok n := by
  obtain ⟨⟨s, hs, hnumeral, h0⟩, hn⟩ := h
  unfold iniparserGetint iniparserGetstring
  rw [hkey, hwf.get, hs]
  simp only [Option.map_some, Option.getD_some, CharPtr.ofVal, strtol_number hnumeral h0 hn,
    toInt32_eq (Int.natCast_nonneg n) (by omega)]

theorem getint_missing (hwf : d.Wf) (hkey : strlwc key = key) (h : d.find key = none)
    (notfound : Int) : iniparserGetint d key notfound = .ok notfound := by
  unfold iniparserGetint iniparserGetstring
  rw [hkey, hwf.get, h]
  rfl

theorem getstring_value (hwf : d.Wf) (hkey : strlwc key = key) {s : List Char}
    (h : d.find key = some (some s)) (deflt : CharPtr) :
    iniparserGetstring d key deflt = .str s := by
  unfold iniparserGetstring
  rw [hkey, hwf.get, h]
  rfl

/-! ## One application -/

/-- An application as the file describes it. -/
structure AppEntry where
  name : List Char
  weight : Nat
  response : Nat
  locations : LocationValues

/-- The settings for the application at index `i`. -/
structure AppEntry.Written (m : Settings) (i : Nat) (e : AppEntry) : Prop where
  name : m (appNameKey i) = some (some e.name)
  weight : IsNumber (m (weightKey i)) e.weight
  weight_pos : 0 < e.weight
  response : IsNumber (m (latencyKey i)) e.response
  response_pos : 0 < e.response
  count : IsNumber (m (countKey i)) e.locations.length
  few : e.locations.length < 100
  locations : ∀ j value, e.locations.texts[j]? = some value → m (locationKey i j) = some value
  tokens : ∀ tokens ∈ e.locations, ∀ t ∈ tokens, t.2.Written t.1

/-- The application is loaded as it is described; its locations are so exactly if the length
of each token shows what it is. -/
structure AppEntry.LoadedAs (i : Nat) (e : AppEntry) (app : ConfiguredApp) : Prop where
  weight : app.appWeight = e.weight
  response : app.appResponse = e.response
  locations : List.Forall₂ (fun t ipa => t.2.Loaded ipa) e.locations.flatten
      app.applicationLocations
    ↔ ∀ t ∈ e.locations.flatten, (16 ≤ t.1.length ↔ t.2.IsPair)
  entries : ∀ ipa ∈ app.applicationLocations, ipa.appIndex = i ∧ ipa.weight = e.weight

variable {i : Nat} {e : AppEntry}

theorem locationValues_eq (hwf : d.Wf) (hi : i < 99) : ∀ {values : LocationValues} {j : Nat},
    j + values.length < 100 →
    (∀ k value, values.texts[k]? = some value → d.find (locationKey i (j + k)) = some value) →
    locationValues d i values.length j = .ok values.texts
  | [], j, _, _ => rfl
  | tokens :: values, j, hfew, h => by
      rw [List.length_cons] at hfew
      have hfirst := getstring_value hwf (locationKey_strlwc hi (j := j) (by omega))
        (h 0 (some (commaJoin (tokens.map Prod.fst))) rfl) .null
      have hdigits : (Nat.toDigits 10 (j + 1)).length ≤ 2 := length_digits (by omega)
      have hrest : locationValues d i values.length (j + 1) = .ok (LocationValues.texts values) :=
        locationValues_eq hwf hi (by omega) fun k v hv => by
          rw [Nat.add_assoc, Nat.add_comm 1 k]
          exact h (k + 1) v hv
      rw [List.length_cons, locationValues, if_neg (by omega), hrest, hfirst]
      rfl

theorem applicationLocations_eq (i : Nat) (weight : Int) (junk : Nat → Location)
    (values : LocationValues) (saved : Option (List Char)) :
    ∃ saved₁ saved₂, applicationLocations i weight junk values.texts saved
      = .ok ((loadLocations i weight junk values.texts saved₁).1, saved₂) := by
  cases saved with
  | some s => exact ⟨s, _, rfl⟩
  | none =>
      cases values with
      | nil => exact ⟨[], none, rfl⟩
      | cons value values => exact ⟨[], _, rfl⟩

theorem loadApplication_eq (hwf : d.Wf) (hi : i < 99) (h : e.Written d.find i)
    (junk : Nat → Location) (saved : Option (List Char)) :
    ∃ app saved', loadApplication d junk i saved = .ok (some (app, saved'))
      ∧ app.appName = .value e.name ∧ e.LoadedAs i app := by
  have hroom := currApp_length hi
  have hweight := getint_number hwf (weightKey_strlwc hi) h.weight 0
  have hresponse := getint_number hwf (latencyKey_strlwc hi) h.response 0
  have hcount := getint_number hwf (countKey_strlwc hi) h.count 0
  have hname := getstring_value hwf (appNameKey_strlwc hi) h.name .null
  have hfew := h.few
  have hvalues : locationValues d i e.locations.length 0 = .ok e.locations.texts :=
    locationValues_eq hwf hi (by omega) fun k value hk => by
      rw [Nat.zero_add]
      exact h.locations k value hk
  have hweight_pos := h.weight_pos
  have hresponse_pos := h.response_pos
  obtain ⟨saved₁, saved₂, hlocations⟩ :=
    applicationLocations_eq i (e.weight : Int) junk e.locations saved
  obtain ⟨hloaded, hentries⟩ := loadLocations_entries h.tokens i e.weight junk saved₁
  refine ⟨⟨0, .value e.name, e.weight, e.response, _⟩, saved₂, ?_, rfl, rfl, rfl, hloaded,
    hentries⟩
  unfold loadApplication
  rw [if_neg (by omega), hweight, hresponse]
  simp only [bind, Except.bind]
  rw [if_neg (by omega), if_neg (by omega), hcount]
  dsimp only
  rw [Int.toNat_natCast, hvalues]
  dsimp only
  rw [hlocations, hname]
  rfl

/-! ## All applications -/

theorem loadApplications_eq (hwf : d.Wf) (junk : Nat → Nat → Location) :
    ∀ {entries : List AppEntry} {i : Nat} (saved : Option (List Char)), i + entries.length < 100 →
      (∀ k (e : AppEntry), entries[k]? = some e → e.Written d.find (i + k)) →
      ∃ apps, loadApplications d junk entries.length i saved = .ok (some apps)
        ∧ apps.length = entries.length
        ∧ ∀ k (e : AppEntry), entries[k]? = some e → ∃ app, apps[k]? = some app
          ∧ app.appName = .value e.name ∧ e.LoadedAs (i + k) app
  | [], i, saved, _, _ => ⟨[], rfl, rfl, fun k e he => by simp at he⟩
  | e :: entries, i, saved, hfew, h => by
      rw [List.length_cons] at hfew
      have hi : i < 99 := by omega
      have hwritten : e.Written d.find i := h 0 e rfl
      obtain ⟨app, saved', happ, hname, hloaded⟩ :=
        loadApplication_eq hwf hi hwritten (junk i) saved
      have hwritten' : ∀ k (e' : AppEntry), entries[k]? = some e' →
          e'.Written d.find (i + 1 + k) := by
        intro k e' he'
        rw [Nat.add_assoc, Nat.add_comm 1 k]
        exact h (k + 1) e' he'
      obtain ⟨apps, happs, hlength, hall⟩ :=
        loadApplications_eq hwf junk saved' (by omega) hwritten'
      refine ⟨app :: apps, ?_, congrArg (· + 1) hlength, ?_⟩
      · rw [List.length_cons, loadApplications, happ]
        simp only [bind, Except.bind, happs]
        rfl
      · intro k e' he'
        cases k with
        | zero =>
            obtain rfl := Option.some.inj he'
            exact ⟨app, rfl, hname, hloaded⟩
        | succ k =>
            obtain ⟨app', happ', hname', hloaded'⟩ := hall k e' he'
            refine ⟨app', happ', hname', ?_⟩
            rw [Nat.add_assoc, Nat.add_comm 1 k] at hloaded'
            exact hloaded'

theorem intSum_eq (ns : List Int) : intSum ns = toInt32 ns.sum := by
  have hfold : ∀ (ns : List Int) (z : Int),
      ns.foldl (fun total n => toInt32 (total + n)) (toInt32 z) = toInt32 (z + ns.sum) := by
    intro ns
    induction ns with
    | nil => simp
    | cons n ns ih =>
        intro z
        rw [List.foldl_cons, toInt32_add_left, ih, List.sum_cons, Int.add_assoc]
  have h := hfold ns 0
  rwa [Int.zero_add, show toInt32 0 = 0 by decide] at h

/-- The settings of the file name these applications. -/
structure DescribesApps (m : Settings) (entries : List AppEntry) (interval : Nat) : Prop where
  count : IsNumber (m appsCountKey) entries.length
  few : entries.length < 100
  interval : IsNumber (m intervalKey) interval ∨ m intervalKey = none ∧ interval = 5
  entries : ∀ i (e : AppEntry), entries[i]? = some e → e.Written m i

theorem map_loaded {entries : List AppEntry} {apps : List ConfiguredApp} {f : AppEntry → Int}
    {g : ConfiguredApp → Int} (hlength : apps.length = entries.length)
    (h : ∀ (k : Nat) (e : AppEntry), entries[k]? = some e →
      ∃ app, apps[k]? = some app ∧ g app = f e) :
    apps.map g = entries.map f := by
  refine List.ext_getElem? fun k => ?_
  rw [List.getElem?_map, List.getElem?_map]
  cases he : entries[k]? with
  | none =>
      rw [List.getElem?_eq_none_iff] at he
      rw [List.getElem?_eq_none_iff.mpr (by omega)]
      rfl
  | some e =>
      obtain ⟨app, happ, heq⟩ := h k e he
      rw [happ, Option.map_some, Option.map_some, heq]

/-- **The applications are loaded as the file describes them.** A file of plain lines
whose settings describe fewer than 100 applications, each with fewer than 100 location values,
is loaded as these applications, in order, with the weights and response times written there;
the locations are those written there exactly where the tokens of at least 16 characters are
the pairs; the totals are the sums, as an `int` holds them. The names are gone with the
dictionary. -/
theorem load_configuration {below : Char} {raws : List (List Char)}
    (h : ∀ raw ∈ raws, PlainLine below raw) {m : IniSettings}
    (hread : raws.foldlM IniSettings.read .init = some m) (herrs : m.errs = 0)
    {entries : List AppEntry} {interval : Nat} (hfile : DescribesApps m.values entries interval)
    (junk : Nat → Nat → Location) :
    ∃ cfg, loadConfiguration below junk (iniFile raws) = .ok (some cfg)
      ∧ cfg.numApps = entries.length ∧ cfg.performanceInterval = interval
      ∧ cfg.appStats.length = entries.length
      ∧ (∀ i (e : AppEntry), entries[i]? = some e → ∃ app, cfg.appStats[i]? = some app
        ∧ app.appName = .freed ∧ e.LoadedAs i app)
      ∧ cfg.totalWeight = toInt32 (entries.map fun e => (e.weight : Int)).sum
      ∧ cfg.totalResponse = toInt32 (entries.map fun e => (e.response : Int)).sum := by
  have hload := load_lines h
  rw [hread] at hload
  dsimp only at hload
  rw [if_pos herrs] at hload
  obtain ⟨d, hd, hwf, hfind⟩ := hload
  rw [← hfind] at hfile
  obtain ⟨hcount, hfew, hinterval, hentries⟩ := hfile
  have happs : iniparserGetint d appsCountKey 0 = .ok (entries.length : Int) :=
    getint_number hwf (by decide) hcount 0
  have hperiod : iniparserGetint d intervalKey 5 = .ok (interval : Int) := by
    rcases hinterval with hnumber | ⟨hmissing, rfl⟩
    · exact getint_number hwf (by decide) hnumber 5
    · exact getint_missing hwf (by decide) hmissing 5
  have hwritten : ∀ k (e : AppEntry), entries[k]? = some e → e.Written d.find (0 + k) := by
    intro k e he
    rw [Nat.zero_add]
    exact hentries k e he
  obtain ⟨apps, hloaded, hlength, hall⟩ :=
    loadApplications_eq hwf junk none (by omega) hwritten
  simp only [Nat.zero_add] at hall
  refine ⟨⟨entries.length, interval,
    apps.map fun app => { app with appName := app.appName.freedict },
    intSum (apps.map ConfiguredApp.appWeight), intSum (apps.map ConfiguredApp.appResponse)⟩,
    ?_, rfl, rfl, (List.length_map _).trans hlength, ?_, ?_, ?_⟩
  · unfold loadConfiguration
    rw [hd]
    simp only [bind, Except.bind, happs, hperiod]
    rw [if_neg (by omega), Int.toNat_natCast, hloaded]
    rfl
  · intro i e he
    obtain ⟨app, happ, hname, hloaded⟩ := hall i e he
    refine ⟨{ app with appName := app.appName.freedict }, ?_, ?_, ?_⟩
    · rw [List.getElem?_map, happ]
      rfl
    · rw [hname]
      rfl
    · exact ⟨hloaded.weight, hloaded.response, hloaded.locations, hloaded.entries⟩
  · dsimp only
    rw [intSum_eq, map_loaded hlength fun k e he => ?_]
    obtain ⟨app, happ, -, hloaded⟩ := hall k e he
    exact ⟨app, happ, hloaded.weight⟩
  · dsimp only
    rw [intSum_eq, map_loaded hlength fun k e he => ?_]
    obtain ⟨app, happ, -, hloaded⟩ := hall k e he
    exact ⟨app, happ, hloaded.response⟩

/-- The location value `10.0.0.1`. -/
def sampleValues : LocationValues :=
  [[(['1', '0', '.', '0', '.', '0', '.', '1'], .address ⟨10, 0, 0, 1⟩)]]

theorem sampleValues_dotted :
    Dotted ['1', '0', '.', '0', '.', '0', '.', '1'] ⟨10, 0, 0, 1⟩ :=
  ⟨['1', '0'], ['0'], ['0'], ['1'], 10, 0, 0, 1, by decide, by decide, by decide, by decide, rfl,
    rfl⟩

theorem sampleValues_written : sampleValues.Written where
  tokens := by
    intro tokens htokens t ht
    obtain rfl := List.mem_singleton.mp htokens
    obtain rfl := List.mem_singleton.mp ht
    exact sampleValues_dotted
  long := by
    intro t ht
    obtain rfl := List.mem_singleton.mp ht
    simp [LocationToken.IsPair]

/-- One application with weight 2 at the address 10.0.0.1. -/
def sampleFile : List (List Char) :=
  [['[', 'a', 'p', 'p', 's', ']'],
    ['c', 'o', 'u', 'n', 't', '=', '1'],
    ['a', 'p', 'p', '1', '=', 'a'],
    ['[', 'w', 'e', 'i', 'g', 'h', 't', 's', ']'],
    ['a', 'p', 'p', '1', '=', '2'],
    ['[', 'l', 'a', 't', 'e', 'n', 'c', 'i', 'e', 's', ']'],
    ['a', 'p', 'p', '1', '=', '9'],
    ['[', 'a', 'p', 'p', '1', '_', 'l', 'o', 'c', 'a', 't', 'i', 'o', 'n', 's', ']'],
    ['c', 'o', 'u', 'n', 't', '=', '1'],
    ['l', 'o', 'c', 'a', 't', 'i', 'o', 'n', '1', '=', '1', '0', '.', '0', '.', '0', '.', '1']]

def sampleEntry : AppEntry where
  name := ['a']
  weight := 2
  response := 9
  locations := sampleValues

def sampleSettings : IniSettings := (sampleFile.foldlM IniSettings.read .init).getD .init

theorem sampleFile_read : sampleFile.foldlM IniSettings.read .init = some sampleSettings := by
  have hsome : (sampleFile.foldlM IniSettings.read .init).isSome = true := by decide
  obtain ⟨m, hm⟩ := Option.isSome_iff_exists.mp hsome
  rw [sampleSettings, hm, Option.getD_some]

theorem sampleFile_describes : DescribesApps sampleSettings.values [sampleEntry] 5 where
  count := ⟨⟨['1'], by decide, by decide, by decide⟩, by decide⟩
  few := by decide
  interval := .inr ⟨by decide, rfl⟩
  entries := by
    intro i e he
    cases i with
    | succ i => simp at he
    | zero =>
        obtain rfl := Option.some.inj he
        exact
          { name := by decide
            weight := ⟨⟨['2'], by decide, by decide, by decide⟩, by decide⟩
            weight_pos := by decide
            response := ⟨⟨['9'], by decide, by decide, by decide⟩, by decide⟩
            response_pos := by decide
            count := ⟨⟨['1'], by decide, by decide, by decide⟩, by decide⟩
            few := by decide
            locations := by
              intro j value hj
              cases j with
              | succ j => simp [sampleEntry, sampleValues, LocationValues.texts] at hj
              | zero =>
                  obtain rfl := Option.some.inj hj
                  decide
            tokens := sampleValues_written.tokens }

theorem load_configuration_example :
    ∃ cfg, loadConfiguration 'x' (fun _ _ => sampleLocation) (iniFile sampleFile) = .ok (some cfg)
      ∧ cfg.numApps = 1 ∧ cfg.totalWeight = 2
      ∧ ∃ app, cfg.appStats[0]? = some app
        ∧ List.Forall₂ (fun t ipa => t.2.Loaded ipa) sampleValues.flatten
          app.applicationLocations := by
  have hplain : ∀ raw ∈ sampleFile, PlainLine 'x' raw := by decide
  obtain ⟨cfg, hload, happs, -, -, hentries, hweight, -⟩ :=
    load_configuration hplain sampleFile_read (by decide) sampleFile_describes
      fun _ _ => sampleLocation
  obtain ⟨app, happ, -, hloaded⟩ := hentries 0 sampleEntry rfl
  refine ⟨cfg, hload, happs, hweight.trans ?_, app, happ,
    hloaded.locations.mpr sampleValues_written.long⟩
  decide

end PvfsProxy
