import PvfsProxy.Lib.CString
import PvfsProxy.Pool

/-!
# The locations of an application

`config.c`: which clients belong to an application. A location value of the
configuration is split into tokens (`splitIntoRanges`), each a single address or a
range of addresses, and `loadLocations` is what `load_configuration` makes of the
values of one application. `inRange` decides for a client, and `ipWeight` looks for
the first entry that has it.

The four numbers of an address are compared as lists, in lexicographic order.
-/

namespace PvfsProxy

open CString

inductive RangeType where
  | ip | range | hostname
deriving Repr, DecidableEq

/-- The four numbers of an address, `short`s. -/
structure IpNumbers where
  i1 : Int
  i2 : Int
  i3 : Int
  i4 : Int
deriving Repr, DecidableEq

def IpNumbers.toList (q : IpNumbers) : List Int := [q.i1, q.i2, q.i3, q.i4]

instance : LT IpNumbers := ⟨fun q r => q.toList < r.toList⟩

instance : LE IpNumbers := ⟨fun q r => ¬ r < q⟩

instance (q r : IpNumbers) : Decidable (q < r) := inferInstanceAs (Decidable (q.toList < r.toList))

instance (q r : IpNumbers) : Decidable (q ≤ r) := inferInstanceAs (Decidable (¬ r < q))

/-- `struct ip_application`, as far as it is read. -/
structure Location extends IpApplication where
  range : RangeType
  suppliedValue : List Char
  start : IpNumbers
  stop : IpNumbers

/-! ## Addresses -/

/-- One of the four numbers: `none` where the token is missing or no byte. -/
def ipByte (tok : Option (List Char)) : Option Int :=
  tok.bind fun s => if atoi s > 255 ∨ atoi s < 0 then none else some (atoi s)

/-- `set_IP_numbers`: the C result, the numbers, and what `strtok` keeps. -/
def setIpNumbers (ip2 : List Char) (q : IpNumbers) (saved : List Char) :
    Int × IpNumbers × List Char :=
  let (tok, saved) := strtok '.' (some ip2) saved
  match ipByte tok with
  | none => (-1, q, saved)
  | some i1 =>
    let q := { q with i1 }
    let (tok, saved) := strtok '.' none saved
    match ipByte tok with
    | none => (-1, q, saved)
    | some i2 =>
      let q := { q with i2 }
      let (tok, saved) := strtok '.' none saved
      match ipByte tok with
      | none => (-1, q, saved)
      | some i3 =>
        let q := { q with i3 }
        let (tok, saved) := strtok '.' none saved
        match ipByte tok with
        | none => (-1, q, saved)
        | some i4 => (0, { q with i4 }, saved)

/-- `set_start_end` with the splitter `-`. -/
def setStartEnd (range : List Char) (ipRange : Location) (saved : List Char) :
    Int × Location × List Char :=
  match strtok '-' (some range) saved with
  | (none, saved) => (-1, ipRange, saved)
  | (some range1, saved) =>
    match strtok '-' none saved with
    | (none, saved) => (-1, ipRange, saved)
    | (some range2, saved) =>
      let (ret, start, saved) := setIpNumbers range1 ipRange.start saved
      let ipRange := { ipRange with start }
      if ret = -1 then (-1, ipRange, saved)
      else
        let (ret, stop, saved) := setIpNumbers range2 ipRange.stop saved
        (if ret = -1 then -1 else 0, { ipRange with stop }, saved)

/-! ## Loading -/

/-- The loop of `split_into_ranges`. Every token takes at least a character, which
bounds the turns. -/
def splitLoop (appIndex : Nat) (junk : Nat → Location) :
    Nat → Option (List Char) → List Location → List Char → List Location × List Char
  | 0, _, currentList, saved => (currentList, saved)
  | _ + 1, none, currentList, saved => (currentList, saved)
  | n + 1, some tmpStr, currentList, saved =>
    let ipa := { junk currentList.length with
      suppliedValue := tmpStr
      appIndex := appIndex
      range := if 16 ≤ tmpStr.length then .range else .ip }
    let (tmpStr, saved) := strtok ',' none saved
    splitLoop appIndex junk n tmpStr (currentList ++ [ipa]) saved

/-- `split_into_ranges`. What fresh memory holds is the parameter `junk`. -/
def splitIntoRanges (appIndex : Nat) (junk : Nat → Location) (value : Option (List Char))
    (currentList : List Location) (saved : List Char) : List Location × List Char :=
  let length := (value.getD saved).length
  let (tmpStr, saved) := strtok ',' value saved
  splitLoop appIndex junk length tmpStr currentList saved

/-- What `load_configuration` does to one entry of the list. -/
def loadLocation (weight : Int) (ipa : Location) (saved : List Char) : Location × List Char :=
  match ipa.range with
  | .range =>
    let (_, ipa, saved) := setStartEnd ipa.suppliedValue ipa saved
    ({ ipa with weight }, saved)
  | _ =>
    let (_, start, saved) := setIpNumbers ipa.suppliedValue ipa.start saved
    ({ ipa with start, weight }, saved)

def loadEach (weight : Int) : List Location → List Char → List Location × List Char
  | [], saved => ([], saved)
  | ipa :: p, saved =>
    let (ipa, saved) := loadLocation weight ipa saved
    let (p, saved) := loadEach weight p saved
    (ipa :: p, saved)

/-- `load_configuration`, for one application with these location values. -/
def loadLocations (appIndex : Nat) (weight : Int) (junk : Nat → Location)
    (values : List (Option (List Char))) (saved : List Char) : List Location × List Char :=
  let (currentList, saved) := values.foldl
    (fun s value => splitIntoRanges appIndex junk value s.1 s.2) ([], saved)
  loadEach weight currentList saved

/-! ## Membership -/

inductive Edge where
  | top | bottom
deriving Repr, DecidableEq

/-- `check_edge` on what is left of the two addresses. Its loop goes on to the next
number as its call of itself does. -/
def checkEdge (e : Edge) : List Int → List Int → Int
  | a :: against, s :: source =>
    match e with
    | .top => if a > s then -1 else if a < s then 0 else checkEdge e against source
    | .bottom =>
      if a > s then 0 else if a > s then -1
      else if a = s then checkEdge e against source else checkEdge e against source
  | _, _ => 0

/-- The last loop of `in_range`. -/
def rangeLoop : List Int → List Int → List Int → Int
  | s :: ipStart, e :: ipEnd, p :: ip =>
    if s > p then -1
    else if e < p then -1
    else if s < p ∧ e > p then 0
    else if s = p then checkEdge .top ipStart ip
    else if e = p then checkEdge .bottom ipEnd ip
    else rangeLoop ipStart ipEnd ip
  | _, _, _ => 0

/-- The position of the first number in which the ends of a range differ. -/
def rangeStart (start stop : IpNumbers) : Nat :=
  if start.i1 ≠ stop.i1 then 0
  else if start.i2 ≠ stop.i2 then 1
  else if start.i3 ≠ stop.i3 then 2
  else if start.i4 ≠ stop.i4 then 3
  else 4

/-- `in_range`. What the four locals hold before they are set is `junk`. -/
def inRange (ipFrom : List Char) (ipaRange : Location) (junk : IpNumbers) (saved : List Char) :
    Int :=
  match setIpNumbers ipFrom junk saved with
  | (ret, ip, _) =>
    if ret = -1 then -1
    else if ipaRange.range = .ip then
      if ipaRange.start = ip then 0 else 1
    else
      let n := rangeStart ipaRange.start ipaRange.stop
      if ip.toList.take n ≠ ipaRange.start.toList.take n then -1
      else rangeLoop (ipaRange.start.toList.drop n) (ipaRange.stop.toList.drop n)
        (ip.toList.drop n)

/-- `ip_weight`: the first entry in the lists of the applications that has the
client, else the proxy exits. -/
def ipWeight (ip : List Char) (applications : List (List Location)) (junk : IpNumbers)
    (saved : List Char) : Except Fault Location :=
  match applications.flatten.find? fun ipa => inRange ip ipa junk saved == 0 with
  | some ipa => .ok ipa
  | none => .error (.exit (-1))

/-! ## Dotted quads -/

/-- A numeral of a byte. -/
structure ByteNumeral (s : List Char) (n : Nat) : Prop extends Numeral s n where
  le : n ≤ 255

instance (s : List Char) (n : Nat) : Decidable (ByteNumeral s n) :=
  decidable_of_iff (Numeral s n ∧ n ≤ 255) ⟨fun h => ⟨h.1, h.2⟩, fun h => ⟨h.toNumeral, h.le⟩⟩

/-- The string is the address, in dotted notation. -/
def Dotted (s : List Char) (q : IpNumbers) : Prop :=
  ∃ (a b c d : List Char) (n₁ n₂ n₃ n₄ : Nat), ByteNumeral a n₁ ∧ ByteNumeral b n₂
    ∧ ByteNumeral c n₃ ∧ ByteNumeral d n₄
    ∧ s = a ++ '.' :: (b ++ '.' :: (c ++ '.' :: d)) ∧ q = ⟨n₁, n₂, n₃, n₄⟩

theorem ByteNumeral.ipByte {s : List Char} {n : Nat} (h : ByteNumeral s n) :
    ipByte (some s) = some (n : Int) := by
  have hle := h.le
  rw [PvfsProxy.ipByte, Option.bind_some, h.toNumeral.atoi, if_neg (by omega)]

theorem ByteNumeral.strtok {s rest saved : List Char} {n : Nat} (h : ByteNumeral s n) :
    strtok '.' (some (s ++ '.' :: rest)) saved = (some s, rest) :=
  strtok_append h.ne_nil (h.toNumeral.notMem (by decide))

/-- A dotted quad is read as it is written, whatever the string it is cut from. -/
theorem setIpNumbers_dotted {s : List Char} {q : IpNumbers} (h : Dotted s q) (old : IpNumbers)
    (saved : List Char) : setIpNumbers s old saved = (0, q, []) := by
  obtain ⟨a, b, c, d, n₁, n₂, n₃, n₄, ha, hb, hc, hd, rfl, rfl⟩ := h
  have hlast : strtok '.' (some d) d = (some d, []) :=
    strtok_last hd.ne_nil (hd.toNumeral.notMem (by decide))
  simp only [setIpNumbers, ha.strtok, ha.ipByte, strtok_none, hb.strtok, hb.ipByte, hc.strtok,
    hc.ipByte, hlast, hd.ipByte]

/-! ## The ends of a range -/

/-- Lexicographic order, from the front. -/
theorem not_cons_lt_cons {a b : Int} {l m : List Int} :
    ¬ b :: m < a :: l ↔ a < b ∨ a = b ∧ ¬ m < l := by
  rw [List.cons_lt_cons_iff]
  rcases lt_trichotomy a b with h | h | h
  · simp [h, h.not_gt, h.ne']
  · simp [h]
  · simp [h, h.not_gt, h.ne']

theorem checkEdge_top : ∀ {against source : List Int}, against.length = source.length →
    (checkEdge .top against source = 0 ↔ ¬ source < against)
  | [], [], _ => by simp [checkEdge]
  | a :: against, s :: source, h => by
      have ih := checkEdge_top (Nat.succ.inj h)
      rw [checkEdge, not_cons_lt_cons]
      rcases lt_trichotomy a s with hlt | rfl | hgt
      · simp [hlt, hlt.not_gt]
      · simpa using ih
      · simp [hgt, hgt.not_gt, hgt.ne']

/-- The upper edge lets everything through. -/
theorem checkEdge_bottom : ∀ against source : List Int, checkEdge .bottom against source = 0
  | [], _ => by simp [checkEdge]
  | _ :: _, [] => by simp [checkEdge]
  | a :: against, s :: source => by
      have ih := checkEdge_bottom against source
      rw [checkEdge]
      rcases lt_trichotomy a s with hlt | rfl | hgt
      · simp [hlt.not_gt, ih]
      · simp [ih]
      · simp [hgt]

/-! ## Ranges -/

/-- How far the ends of a range agree. -/
def commonPrefix : List Int → List Int → Nat
  | s :: start, e :: stop => if s = e then commonPrefix start stop + 1 else 0
  | _, _ => 0

theorem rangeStart_eq (start stop : IpNumbers) :
    rangeStart start stop = commonPrefix start.toList stop.toList := by
  simp only [rangeStart, IpNumbers.toList, commonPrefix, ne_eq, ite_not]
  split_ifs <;> rfl

/-- The address is above the range, but agrees with its end through the first
number in which start and end differ. -/
def PastEdge : List Int → List Int → List Int → Prop
  | s :: start, e :: stop, p :: ip => p = e ∧ if s = e then PastEdge start stop ip else stop < ip
  | _, _, _ => False

instance decidablePastEdge : ∀ start stop ip, Decidable (PastEdge start stop ip)
  | s :: start, e :: stop, p :: ip =>
    have := decidablePastEdge start stop ip
    inferInstanceAs (Decidable (p = e ∧ if s = e then PastEdge start stop ip else stop < ip))
  | [], _, _ => inferInstanceAs (Decidable False)
  | _ :: _, [], _ => inferInstanceAs (Decidable False)
  | _ :: _, _ :: _, [] => inferInstanceAs (Decidable False)

/-- The number in which the ends of the range differ decides, with an edge on either
side of it. -/
theorem rangeLoop_eq_zero {s e p : Int} {start stop ip : List Int} (hlt : s < e)
    (hlen : start.length = ip.length) :
    rangeLoop (s :: start) (e :: stop) (p :: ip) = 0
      ↔ (s < p ∨ s = p ∧ ¬ ip < start) ∧ p ≤ e := by
  rw [rangeLoop]
  rcases lt_trichotomy s p with hsp | rfl | hsp
  · rcases lt_trichotomy p e with hpe | rfl | hpe
    · simp [hsp, hsp.not_gt, hpe, hpe.not_gt, hpe.le]
    · simp [hsp, hsp.not_gt, hsp.ne, checkEdge_bottom]
    · simp [hsp.not_gt, hpe, hpe.not_ge]
  · simp [hlt.not_gt, hlt.le, checkEdge_top hlen]
  · simp [hsp, hsp.not_gt, hsp.ne']

/-- What `in_range` does once the address is read: the numbers in which the ends
agree are compared first. -/
def rangeResult (start stop ip : List Int) : Int :=
  let n := commonPrefix start stop
  if ip.take n ≠ start.take n then -1 else rangeLoop (start.drop n) (stop.drop n) (ip.drop n)

/-- The address is not below the start, and above the end only past the edge. -/
theorem rangeResult_eq_zero : ∀ {start stop ip : List Int}, start.length = stop.length →
    start.length = ip.length → ¬ stop < start →
    (rangeResult start stop ip = 0
      ↔ ¬ ip < start ∧ (¬ stop < ip ∨ PastEdge start stop ip))
  | [], [], [], _, _, _ => by simp [rangeResult, commonPrefix, rangeLoop]
  | s :: start, e :: stop, p :: ip, hstop, hip, hle => by
      rw [not_cons_lt_cons] at hle
      rw [not_cons_lt_cons, not_cons_lt_cons, PastEdge]
      rcases hle with hlt | ⟨rfl, hle⟩
      · have hzero := @rangeLoop_eq_zero s e p start stop ip hlt (Nat.succ.inj hip)
        simp only [rangeResult, commonPrefix, if_neg hlt.ne, List.take_zero, ne_eq,
          not_true_eq_false, if_false, List.drop_zero, hzero]
        refine and_congr_right fun _ => ?_
        have hem : ¬ stop < ip ∨ stop < ip := (em _).symm
        rw [le_iff_lt_or_eq, or_assoc, ← and_or_left, and_iff_left hem]
      · have ih := rangeResult_eq_zero (Nat.succ.inj hstop) (Nat.succ.inj hip) hle
        by_cases hp : p = s
        · subst hp
          simpa [rangeResult, commonPrefix] using ih
        · have hout : rangeResult (s :: start) (s :: stop) (p :: ip) ≠ 0 := by
            simp [rangeResult, commonPrefix, hp]
          simp [hout, hp]
          omega

theorem PastEdge.above : ∀ {start stop ip : List Int}, ¬ stop < start → PastEdge start stop ip →
    stop < ip ∧ ¬ ip < start
  | s :: start, e :: stop, p :: ip, hle, h => by
      rw [not_cons_lt_cons] at hle
      rw [not_cons_lt_cons, List.cons_lt_cons_iff]
      obtain ⟨rfl, hrest⟩ := h
      rcases hle with hlt | ⟨rfl, hle⟩
      · rw [if_neg hlt.ne] at hrest
        exact ⟨.inr ⟨rfl, hrest⟩, .inl hlt⟩
      · rw [if_pos rfl] at hrest
        obtain ⟨habove, hnot⟩ := PastEdge.above hle hrest
        exact ⟨.inr ⟨rfl, habove⟩, .inr ⟨rfl, hnot⟩⟩

theorem inRange_eq {text : List Char} {ip : IpNumbers} (hip : Dotted text ip) {ipa : Location}
    (hrange : ipa.range = .range) (junk : IpNumbers) (saved : List Char) :
    inRange text ipa junk saved
      = rangeResult ipa.start.toList ipa.stop.toList ip.toList := by
  simp only [inRange, setIpNumbers_dotted hip, hrange, reduceCtorEq, if_false, rangeResult,
    rangeStart_eq]

/-- **Who is in a range.** `in_range` is zero exactly for the addresses from start
to end in lexicographic order, if and only if the address is not past the edge. -/
theorem in_range_lexicographic {text : List Char} {ip : IpNumbers} (hip : Dotted text ip)
    {ipa : Location} (hrange : ipa.range = .range) (hle : ipa.start ≤ ipa.stop)
    (junk : IpNumbers) (saved : List Char) :
    (inRange text ipa junk saved = 0 ↔ ipa.start ≤ ip ∧ ip ≤ ipa.stop)
      ↔ ¬ PastEdge ipa.start.toList ipa.stop.toList ip.toList := by
  have hzero : rangeResult ipa.start.toList ipa.stop.toList ip.toList = 0
      ↔ ¬ ip < ipa.start ∧ (¬ ipa.stop < ip
        ∨ PastEdge ipa.start.toList ipa.stop.toList ip.toList) :=
    rangeResult_eq_zero rfl rfl hle
  have hpast : PastEdge ipa.start.toList ipa.stop.toList ip.toList →
      ipa.stop < ip ∧ ¬ ip < ipa.start := PastEdge.above hle
  rw [inRange_eq hip hrange, hzero]
  show (¬ ip < ipa.start ∧ (¬ ipa.stop < ip ∨ _) ↔ ¬ ip < ipa.start ∧ ¬ ipa.stop < ip) ↔ _
  constructor
  · intro h hedge
    obtain ⟨habove, hnot⟩ := hpast hedge
    exact (h.mp ⟨hnot, .inr hedge⟩).2 habove
  · intro hedge
    simp [hedge]

/-- The range from 10.0.0.0 to 10.0.2.5. -/
def sampleLocation : Location where
  weight := 1
  appIndex := 0
  range := .range
  suppliedValue := []
  start := ⟨10, 0, 0, 0⟩
  stop := ⟨10, 0, 2, 5⟩

theorem in_range_lexicographic_example :
    inRange ['1', '0', '.', '0', '.', '2', '.', '4'] sampleLocation ⟨0, 0, 0, 0⟩ [] = 0
        ↔ sampleLocation.start ≤ ⟨10, 0, 2, 4⟩ ∧ ⟨10, 0, 2, 4⟩ ≤ sampleLocation.stop :=
  (in_range_lexicographic
    ⟨['1', '0'], ['0'], ['2'], ['4'], 10, 0, 2, 4, by decide, by decide, by decide, by decide,
      rfl, rfl⟩ rfl (by decide) _ _).mpr (by decide)

/-- 10.0.2.9 is above the end, and let in. -/
theorem in_range_past_edge :
    Dotted ['1', '0', '.', '0', '.', '2', '.', '9'] ⟨10, 0, 2, 9⟩
      ∧ sampleLocation.start ≤ sampleLocation.stop
      ∧ inRange ['1', '0', '.', '0', '.', '2', '.', '9'] sampleLocation ⟨0, 0, 0, 0⟩ [] = 0
      ∧ ¬ (⟨10, 0, 2, 9⟩ : IpNumbers) ≤ sampleLocation.stop :=
  ⟨⟨['1', '0'], ['0'], ['2'], ['9'], 10, 0, 2, 9, by decide, by decide, by decide, by decide,
    rfl, rfl⟩, by decide, by decide, by decide⟩

end PvfsProxy
