import PvfsProxy.ConfigurationLoad

/-!
# The application of a client

`ip_weight` takes the first location entry that has the client, over the lists
that `load_configuration` made of the location values. The values are lists of
addresses and ranges, and the client belongs to the first application one of
whose addresses or ranges has it, where `in_range` is right about it: it lets
some clients past the end of a range in.
-/

namespace PvfsProxy

open CString

/-! ## What an entry admits -/

/-- The client has the address, or an address in the range. -/
def LocationToken.Admits (ip : IpNumbers) : LocationToken → Prop
  | address a => a = ip
  | pair a b => a ≤ ip ∧ ip ≤ b

/-- The range is not empty, and the client is not past its edge. -/
def LocationToken.Sharp (ip : IpNumbers) : LocationToken → Prop
  | address _ => True
  | pair a b => a ≤ b ∧ ¬ PastEdge a.toList b.toList ip.toList

theorem inRange_loaded {text : List Char} {ip : IpNumbers} (hip : Dotted text ip)
    {t : LocationToken} {ipa : Location} (hloaded : t.Loaded ipa) (hsharp : t.Sharp ip)
    (junk : IpNumbers) (saved : List Char) :
    inRange text ipa junk saved = 0 ↔ t.Admits ip := by
  cases t with
  | address a =>
      obtain ⟨hrange, rfl⟩ := hloaded
      simp only [inRange, setIpNumbers_dotted hip, hrange, LocationToken.Admits]
      by_cases heq : ipa.start = ip <;> simp [heq]
  | pair a b =>
      obtain ⟨hrange, rfl, rfl⟩ := hloaded
      obtain ⟨hle, hedge⟩ := hsharp
      have hzero : rangeResult ipa.start.toList ipa.stop.toList ip.toList = 0
          ↔ ¬ ip < ipa.start ∧ (¬ ipa.stop < ip
            ∨ PastEdge ipa.start.toList ipa.stop.toList ip.toList) :=
        rangeResult_eq_zero rfl rfl hle
      rw [inRange_eq hip hrange, hzero]
      exact and_congr_right fun _ => or_iff_left hedge

/-! ## The first application that has the client -/

/-- The client is at one of the application's locations. -/
def LocationValues.Has (values : LocationValues) (ip : IpNumbers) : Prop :=
  ∃ t ∈ values.flatten, t.2.Admits ip

theorem find?_flatten {p : Location → Bool} : ∀ {lists : List (List Location)} {ipa : Location},
    lists.flatten.find? p = some ipa → ∃ pre list post, lists = pre ++ list :: post ∧ ipa ∈ list
      ∧ p ipa = true ∧ ∀ l ∈ pre, ∀ x ∈ l, p x = false
  | [], ipa, h => by simp at h
  | list :: lists, ipa, h => by
      rw [List.flatten_cons, List.find?_append] at h
      cases hfirst : list.find? p with
      | some x =>
          rw [hfirst, Option.some_or] at h
          obtain rfl := Option.some.inj h
          exact ⟨[], list, lists, rfl, List.mem_of_find?_eq_some hfirst,
            List.find?_some hfirst, fun l hl => by cases hl⟩
      | none =>
          rw [hfirst, Option.none_or] at h
          obtain ⟨pre, l, post, rfl, hin, hp, hpre⟩ := find?_flatten h
          refine ⟨list :: pre, l, post, rfl, hin, hp, List.forall_mem_cons.mpr ⟨?_, hpre⟩⟩
          intro x hx
          exact Bool.eq_false_iff.mpr (List.find?_eq_none.mp hfirst x hx)

/-- One entry of the list is the client's exactly if the application has the client. -/
theorem exists_inRange {text : List Char} {ip : IpNumbers} (hip : Dotted text ip)
    {values : LocationValues} (hsharp : ∀ t ∈ values.flatten, t.2.Sharp ip) {list : List Location}
    (h : List.Forall₂ (fun t ipa => t.2.Loaded ipa) values.flatten list) (junk : IpNumbers)
    (saved : List Char) :
    (∃ ipa ∈ list, inRange text ipa junk saved = 0) ↔ values.Has ip := by
  unfold LocationValues.Has
  revert hsharp
  generalize List.flatten values = tokens at h
  intro hsharp
  induction h with
  | nil => simp
  | @cons t ipa tokens list hloaded _ ih =>
      rw [List.forall_mem_cons] at hsharp
      rw [List.exists_mem_cons_iff, List.exists_mem_cons_iff, ih hsharp.2,
        inRange_loaded hip hloaded hsharp.1]

/-- **A client belongs to the first application that has it.** With the locations that were
loaded for each application from tokens whose length shows what they are, and for a client
that is not past the edge of a range, `ip_weight` returns an entry of application `i` exactly if the
client is at one of the locations of `i` and at none of an application before it, and
the proxy exits exactly if no application has the client. -/
theorem client_application {text : List Char} {ip : IpNumbers} (hip : Dotted text ip)
    {apps : List LocationValues} (hw : ∀ values ∈ apps, values.Written)
    (hsharp : ∀ values ∈ apps, ∀ t ∈ values.flatten, t.2.Sharp ip)
    {lists : List (List Location)} (hlength : lists.length = apps.length)
    (hlists : ∀ (i : Nat) (values : LocationValues), apps[i]? = some values →
      ∃ weight junk saved, lists[i]? = some (loadLocations i weight junk values.texts saved).1)
    (junk : IpNumbers) (saved : List Char) :
    (∀ i, (∃ ipa, ipWeight text lists junk saved = .ok ipa ∧ ipa.appIndex = i)
        ↔ ∃ values, apps[i]? = some values ∧ values.Has ip
          ∧ ∀ j < i, ∀ values', apps[j]? = some values' → ¬ values'.Has ip)
      ∧ (ipWeight text lists junk saved = .error (.exit (-1))
        ↔ ∀ values ∈ apps, ¬ values.Has ip) := by
  -- what is known of the list at an index
  have hlist : ∀ (i : Nat) (list : List Location), lists[i]? = some list →
      ∃ values, apps[i]? = some values ∧ (∀ ipa ∈ list, ipa.appIndex = i)
        ∧ ((∃ ipa ∈ list, inRange text ipa junk saved = 0) ↔ values.Has ip) := by
    intro i list hi
    have hlt : i < lists.length := (List.getElem?_eq_some_iff.mp hi).1
    obtain ⟨values, hvalues⟩ : ∃ values, apps[i]? = some values :=
      ⟨apps[i], List.getElem?_eq_getElem (by omega)⟩
    obtain ⟨weight, junk', saved', heq⟩ := hlists i values hvalues
    obtain rfl := Option.some.inj (hi.symm.trans heq)
    have hin : values ∈ apps := List.mem_of_getElem? hvalues
    obtain ⟨hloaded, hknown⟩ :=
      loadLocations_entries (hw values hin).tokens i weight junk' saved'
    have hloaded := hloaded.mpr (hw values hin).long
    have hindex := fun ipa hipa => (hknown ipa hipa).1
    exact ⟨values, hvalues, hindex, exists_inRange hip (hsharp values hin) hloaded junk saved⟩
  unfold ipWeight
  cases hfind : lists.flatten.find? fun ipa => inRange text ipa junk saved == 0 with
  | none =>
      have hno : ∀ values ∈ apps, ¬ values.Has ip := by
        intro values hin hhas
        obtain ⟨i, hi, rfl⟩ := List.getElem_of_mem hin
        obtain ⟨values, hvalues, -, hiff⟩ := hlist i lists[i] (List.getElem?_eq_getElem (by omega))
        rw [List.getElem?_eq_getElem hi] at hvalues
        obtain rfl := Option.some.inj hvalues
        obtain ⟨ipa, hipa, hzero⟩ := hiff.mpr hhas
        have hnot := List.find?_eq_none.mp hfind ipa
          (List.mem_flatten_of_mem (List.getElem_mem _) hipa)
        exact hnot (beq_iff_eq.mpr hzero)
      refine ⟨fun i => ⟨?_, ?_⟩, ⟨fun _ => hno, fun _ => rfl⟩⟩
      · rintro ⟨ipa, hok, -⟩
        cases hok
      · rintro ⟨values, hvalues, hhas, -⟩
        exact absurd hhas (hno values (List.mem_of_getElem? hvalues))
  | some ipa =>
      obtain ⟨pre, list, post, hsplit, hin, hp, hpre⟩ := find?_flatten hfind
      have hget : lists[pre.length]? = some list := by simp [hsplit]
      obtain ⟨values, hvalues, hindex, hiff⟩ := hlist pre.length list hget
      have hhas : values.Has ip := hiff.mp ⟨ipa, hin, beq_iff_eq.mp hp⟩
      have hbefore : ∀ j < pre.length, ∀ values', apps[j]? = some values' → ¬ values'.Has ip := by
        intro j hj values' hvalues' hhas'
        have hgetj : lists[j]? = some pre[j] := by
          rw [hsplit, List.getElem?_append_left hj, List.getElem?_eq_getElem hj]
        obtain ⟨values'', hvalues'', -, hiff'⟩ := hlist j pre[j] hgetj
        obtain rfl := Option.some.inj (hvalues'.symm.trans hvalues'')
        obtain ⟨x, hx, hzero⟩ := hiff'.mpr hhas'
        have hno := hpre pre[j] (List.getElem_mem hj) x hx
        rw [beq_eq_false_iff_ne] at hno
        exact hno hzero
      refine ⟨fun i => ⟨?_, ?_⟩, ⟨fun h => (by cases h), fun h => ?_⟩⟩
      · rintro ⟨ipa', hok, rfl⟩
        obtain rfl := Except.ok.inj hok
        rw [hindex ipa hin]
        exact ⟨values, hvalues, hhas, hbefore⟩
      · rintro ⟨values', hvalues', hhas', hfirst⟩
        refine ⟨ipa, rfl, ?_⟩
        rw [hindex ipa hin]
        rcases Nat.lt_trichotomy pre.length i with hlt | heq | hgt
        · exact absurd hhas (hfirst pre.length hlt values hvalues)
        · exact heq
        · exact absurd hhas' (hbefore i hgt values' hvalues')
      · exact absurd hhas (h values (List.mem_of_getElem? hvalues))

theorem client_application_example :
    ∃ ipa, ipWeight ['1', '0', '.', '0', '.', '0', '.', '1']
        [(loadLocations 0 1 (fun _ => sampleLocation) sampleValues.texts []).1] ⟨0, 0, 0, 0⟩ []
          = .ok ipa ∧ ipa.appIndex = 0 := by
  refine ((@client_application _ _ sampleValues_dotted [sampleValues] ?_ ?_ _ rfl ?_
    ⟨0, 0, 0, 0⟩ []).1 0).mpr ⟨sampleValues, rfl, ?_, fun j hj => absurd hj (Nat.not_lt_zero j)⟩
  · intro values hvalues
    obtain rfl := List.mem_singleton.mp hvalues
    exact sampleValues_written
  · intro values hvalues t ht
    obtain rfl := List.mem_singleton.mp hvalues
    obtain rfl := List.mem_singleton.mp ht
    trivial
  · intro i values hi
    cases i with
    | zero =>
        obtain rfl := Option.some.inj hi
        exact ⟨1, fun _ => sampleLocation, [], rfl⟩
    | succ i => simp at hi
  · exact ⟨_, List.mem_singleton.mpr rfl, rfl⟩

end PvfsProxy
