import PvfsProxy.Proxy2
import PvfsProxy.Lib.RoundRobin

/-!
# The share of a server

`get_my_share` in `utility.c`: how many bytes of a range of a striped file one
server holds. The arithmetic is C's, `int` and `long long` with wrapping.

A range may lie inside one whole stripe (`shareWithin`) or reach across several
(`shareAcross`); in both cases the share is clipped at the end of the server's
data file (`clipShare`).
-/

namespace PvfsProxy

open RoundRobin

/-- The value a `long long` holds after `z` is stored in it. -/
def toInt64 (z : Int) : Int := z.bmod (2 ^ 64)

theorem toInt64_eq {z : Int} (h₀ : 0 ≤ z) (h₁ : z < 2 ^ 63) : toInt64 z = z :=
  Int.bmod_eq_of_le (by omega) (by omega)

/-- `MIN(my_shared_size, MAX(actual_data_file_size - my_offset, 0))` -/
def clipShare (mySharedSize myOffset actualDataFileSize : Int) : Int :=
  toInt32 (min mySharedSize (max (toInt64 (actualDataFileSize - myOffset)) 0))

/-- The share of a range that stays in the whole stripe it starts in. -/
def shareWithin (stripSize askSize serverNr leftOverFirst smallFirstLeftOver : Int) :
    Except Fault Int :=
  if leftOverFirst > toInt32 (toInt32 (serverNr + 1) * stripSize) then .error (.exit (-1))
  else
    let serverNr := toInt32 (serverNr - leftOverFirst.tdiv stripSize)
    let asked := toInt64 (smallFirstLeftOver + askSize)
    let numberStrips := toInt32 (asked.tdiv stripSize + 1)
    if numberStrips = 1 ∧ asked > stripSize then .error (.exit (-1))
    else if numberStrips = 1 ∧ asked ≤ stripSize then .ok (toInt32 askSize)
    else if asked ≥ toInt32 (serverNr * stripSize) then
      if serverNr = 0 then .ok (toInt32 (stripSize - smallFirstLeftOver)) else .ok stripSize
    else .ok (toInt32 (asked.tmod stripSize))

/-- The share of a range that reaches into further whole stripes. -/
def shareAcross (stripSize wholeStripSize askSize serverNr leftOverFirst : Int) : Int :=
  let leftOverSecond := if leftOverFirst > 0 then toInt32 (wholeStripSize - leftOverFirst) else 0
  let rest := toInt64 (askSize - leftOverSecond)
  let dataNrWholeStrip := toInt32 (rest.tdiv wholeStripSize)
  let leftOverThird := toInt32 (rest.tmod wholeStripSize)
  let start := toInt32 (serverNr * stripSize)
  let stop := toInt32 (toInt32 (serverNr + 1) * stripSize)
  let bottom :=
    if leftOverThird ≥ start then
      if leftOverThird < stop then toInt32 (leftOverThird - start) else stripSize
    else 0
  let bottom :=
    if leftOverFirst ≥ start then
      if leftOverFirst < stop then toInt32 (bottom - toInt32 (leftOverFirst - start))
      else toInt32 (bottom - stripSize)
    else bottom
  let all := toInt32 (dataNrWholeStrip * stripSize)
  let all := if leftOverFirst > 0 then toInt32 (all + stripSize) else all
  toInt32 (all + bottom)

def getMyShare (stripSize serverCount offset askSize serverNr actualDataFileSize : Int) :
    Except Fault Int := do
  let actualDataFileSize :=
    if actualDataFileSize < 0 then 0x1fffffffffffffff else actualDataFileSize
  let wholeStripSize := toInt32 (stripSize * serverCount)
  if wholeStripSize = 0 then throw .divisionByZero
  let offsetNrWholeStrip := toInt32 (offset.tdiv wholeStripSize)
  let leftOverFirst := toInt32 (offset.tmod wholeStripSize)
  let smallFirstLeftOver := leftOverFirst.tmod stripSize
  let passed := toInt32 (offsetNrWholeStrip * stripSize)
  let myOffset :=
    if leftOverFirst ≤ toInt32 (serverNr * stripSize) then passed
    else toInt32 (passed + smallFirstLeftOver)
  let mySharedSize ←
    if toInt64 (askSize + offset)
        ≤ toInt32 (toInt32 (offsetNrWholeStrip + 1) * wholeStripSize) then
      shareWithin stripSize askSize serverNr leftOverFirst smallFirstLeftOver
    else pure (shareAcross stripSize wholeStripSize askSize serverNr leftOverFirst)
  return clipShare mySharedSize myOffset actualDataFileSize

/-! ## Without overflow -/

section

variable {strip count s : Int}

theorem strip_le_stripe (hstrip : 0 < strip) (hs : 0 ≤ s) (hlt : s < count) :
    0 ≤ s * strip ∧ (s + 1) * strip = s * strip + strip ∧ (s + 1) * strip ≤ strip * count := by
  refine ⟨Int.mul_nonneg hs hstrip.le, by ring, ?_⟩
  rw [Int.mul_comm strip count]
  exact Int.mul_le_mul_of_nonneg_right (by omega) hstrip.le

theorem clipShare_eq {mine myOffset actual : Int} (hmine : 0 ≤ mine) (hfits : mine < 2 ^ 31)
    (hoffset : 0 ≤ myOffset) (hactual : actual < 2 ^ 63) (hclip : mine ≤ actual - myOffset) :
    clipShare mine myOffset actual = mine := by
  unfold clipShare
  rw [toInt64_eq (by omega) (by omega), max_eq_left (by omega), min_eq_left hclip,
    toInt32_eq hmine hfits]

/-- What the locals of `get_my_share` hold. -/
theorem getMyShare_eq (hstrip : 0 < strip) (hs : 0 ≤ s) (hlt : s < count) {offset ask : Int}
    (hoffset : 0 ≤ offset) (hask : 0 ≤ ask)
    (hfits : (offset / (strip * count) + 1) * (strip * count) < 2 ^ 31)
    (hend : offset + ask < 2 ^ 63) (actual : Int) :
    getMyShare strip count offset ask s actual = (do
      let mine ←
        if offset + ask ≤ (offset / (strip * count) + 1) * (strip * count) then
          shareWithin strip ask s (offset % (strip * count)) (offset % (strip * count) % strip)
        else pure (shareAcross strip (strip * count) ask s (offset % (strip * count)))
      return clipShare mine
        (if offset % (strip * count) ≤ s * strip then offset / (strip * count) * strip
          else offset / (strip * count) * strip + offset % (strip * count) % strip)
        (if actual < 0 then 0x1fffffffffffffff else actual)) := by
  obtain ⟨hstart, hlen, hstop⟩ := strip_le_stripe hstrip hs hlt
  have hpos : 0 < strip * count := by omega
  have hk : 0 ≤ offset / (strip * count) := Int.ediv_nonneg hoffset hpos.le
  have hr : 0 ≤ offset % (strip * count) := Int.emod_nonneg offset hpos.ne'
  have hrlt : offset % (strip * count) < strip * count := Int.emod_lt_of_pos offset hpos
  have hnext : (offset / (strip * count) + 1) * (strip * count)
      = offset / (strip * count) * (strip * count) + strip * count := by ring
  have hrounds : 0 ≤ offset / (strip * count) * (strip * count) := Int.mul_nonneg hk hpos.le
  have hless : offset / (strip * count) ≤ offset / (strip * count) * (strip * count) :=
    le_mul_of_one_le_right hk (by omega)
  have hpassed : offset / (strip * count) * strip ≤ offset / (strip * count) * (strip * count) :=
    Int.mul_le_mul_of_nonneg_left (by omega) hk
  have hpassed₀ : 0 ≤ offset / (strip * count) * strip := Int.mul_nonneg hk hstrip.le
  have hsmall : 0 ≤ offset % (strip * count) % strip := Int.emod_nonneg _ hstrip.ne'
  have hsmall' : offset % (strip * count) % strip < strip := Int.emod_lt_of_pos _ hstrip
  have hwhole : toInt32 (strip * count) = strip * count := toInt32_eq (by omega) (by omega)
  have hnr : toInt32 (offset.tdiv (strip * count)) = offset / (strip * count) := by
    rw [Int.tdiv_eq_ediv_of_nonneg hoffset]
    exact toInt32_eq hk (by omega)
  have hfirst : toInt32 (offset.tmod (strip * count)) = offset % (strip * count) := by
    rw [Int.tmod_eq_emod_of_nonneg hoffset]
    exact toInt32_eq hr (by omega)
  have hrest : (offset % (strip * count)).tmod strip = offset % (strip * count) % strip :=
    Int.tmod_eq_emod_of_nonneg hr
  have hmine : toInt32 (offset / (strip * count) * strip) = offset / (strip * count) * strip :=
    toInt32_eq hpassed₀ (by omega)
  have hmine' : toInt32 (offset / (strip * count) * strip + offset % (strip * count) % strip)
      = offset / (strip * count) * strip + offset % (strip * count) % strip :=
    toInt32_eq (by omega) (by omega)
  have hserver : toInt32 (s * strip) = s * strip := toInt32_eq hstart (by omega)
  have hsum : toInt64 (ask + offset) = offset + ask := by
    rw [toInt64_eq (by omega) (by omega), Int.add_comm]
  have hone : toInt32 (offset / (strip * count) + 1) = offset / (strip * count) + 1 :=
    toInt32_eq (by omega) (by omega)
  have hbound : toInt32 ((offset / (strip * count) + 1) * (strip * count))
      = (offset / (strip * count) + 1) * (strip * count) := toInt32_eq (by omega) hfits
  unfold getMyShare
  simp only [hwhole, if_neg hpos.ne', hnr, hfirst, hrest, hmine, hmine', hserver, hsum, hone,
    hbound]

/-! ## Inside one whole stripe -/

/-- The number of strips is 1 only if it should be, even where it overflows. -/
theorem toInt32_succ_eq_one {q : Int} (h₀ : 0 ≤ q) (h₁ : q < 2 ^ 31) :
    toInt32 (q + 1) = 1 ↔ q = 0 := by
  by_cases hmax : q + 1 < 2 ^ 31
  · rw [toInt32_eq (by omega) hmax]
    omega
  · obtain rfl : q = 2 ^ 31 - 1 := by omega
    decide

/-- What the branch of a single whole stripe computes; its second `exit` is never
reached. -/
theorem shareWithin_cases (hstrip : 0 < strip) {ask r : Int} (hr : 0 ≤ r) (hask : 0 ≤ ask)
    (hfits : (s + 1) * strip < 2 ^ 31) (hasked : r + ask < 2 ^ 31) (hs : 0 ≤ s) :
    shareWithin strip ask s r (r % strip)
      = if (s + 1) * strip < r then .error (.exit (-1))
        else if r % strip + ask < strip then .ok ask
        else if (s - r / strip) * strip ≤ r % strip + ask then
          .ok (if s = r / strip then strip - r % strip else strip)
        else .ok ((r % strip + ask) % strip) := by
  have hsmall : 0 ≤ r % strip := Int.emod_nonneg _ hstrip.ne'
  have hsmall' : r % strip < strip := Int.emod_lt_of_pos _ hstrip
  have hfirst : 0 ≤ r / strip := Int.ediv_nonneg hr hstrip.le
  have hless : r / strip ≤ r / strip * strip := le_mul_of_one_le_right hfirst hstrip
  have hsplit : r / strip * strip + r % strip = r := Int.ediv_mul_add_emod r strip
  have hone : s + 1 ≤ (s + 1) * strip := le_mul_of_one_le_right (by omega) hstrip
  have hlen : (s + 1) * strip = s * strip + strip := by ring
  have hstart : 0 ≤ s * strip := Int.mul_nonneg hs hstrip.le
  have hserver : toInt32 (s - r.tdiv strip) = s - r / strip := by
    rw [Int.tdiv_eq_ediv_of_nonneg hr]
    exact Int.bmod_eq_of_le (by omega) (by omega)
  have hsum : toInt64 (r % strip + ask) = r % strip + ask := toInt64_eq (by omega) (by omega)
  have hstart' : toInt32 ((s - r / strip) * strip) = (s - r / strip) * strip := by
    have hdiff : (s - r / strip) * strip = s * strip - r / strip * strip := by ring
    exact Int.bmod_eq_of_le (by omega) (by omega)
  have hquot : (r % strip + ask) / strip ≤ r % strip + ask :=
    Int.ediv_le_self _ (by omega)
  have hquot₀ : 0 ≤ (r % strip + ask) / strip := Int.ediv_nonneg (by omega) hstrip.le
  have hsingle : toInt32 ((r % strip + ask).tdiv strip + 1) = 1 ↔ r % strip + ask < strip := by
    rw [Int.tdiv_eq_ediv_of_nonneg (by omega), toInt32_succ_eq_one hquot₀ (by omega)]
    constructor
    · intro h
      have hzero : (r % strip + ask) / strip < 1 := by omega
      rwa [Int.ediv_lt_iff_lt_mul hstrip, Int.one_mul] at hzero
    · exact Int.ediv_eq_zero_of_lt (by omega)
  have hrest : (r % strip + ask).tmod strip = (r % strip + ask) % strip :=
    Int.tmod_eq_emod_of_nonneg (by omega)
  have hrest₀ : 0 ≤ (r % strip + ask) % strip := Int.emod_nonneg _ hstrip.ne'
  have hrest' : (r % strip + ask) % strip < strip := Int.emod_lt_of_pos _ hstrip
  have hsucc : toInt32 (s + 1) = s + 1 := toInt32_eq (by omega) (by omega)
  have hnext : toInt32 ((s + 1) * strip) = (s + 1) * strip := toInt32_eq (by omega) hfits
  unfold shareWithin
  simp only [hserver, hsum, hsingle, hstart', hsucc, hnext, hrest]
  split
  · rfl
  rw [if_neg (by omega)]
  by_cases hshort : r % strip + ask < strip
  · rw [if_pos ⟨hshort, by omega⟩, if_pos hshort]
    exact congrArg Except.ok (toInt32_eq hask (by omega))
  rw [if_neg fun h => hshort h.1, if_neg hshort]
  split
  · by_cases hone' : s = r / strip
    · rw [if_pos (by omega), if_pos hone']
      exact congrArg Except.ok (toInt32_eq (by omega) (by omega))
    · rw [if_neg (by omega), if_neg hone']
  · exact congrArg Except.ok (toInt32_eq hrest₀ (by omega))

/-- What `get_my_share` finds for a server that holds a byte of the range: to the
server the range starts with it gives what is there, to the others a whole strip. -/
theorem shareWithin_eq (hstrip : 0 < strip) {ask r : Int} (hr : 0 ≤ r)
    (hbefore : r < (s + 1) * strip) (hask : 0 < ask) (hfits : (s + 1) * strip < 2 ^ 31)
    (hasked : r + ask < 2 ^ 31) (hs : 0 ≤ s) (hholds : s * strip < r + ask) :
    shareWithin strip ask s r (r % strip)
      = .ok (if s = r / strip then min ask (strip - r % strip) else strip) := by
  have hfirst' : r / strip < s + 1 := (Int.ediv_lt_iff_lt_mul hstrip).mpr hbefore
  have hsplit : r / strip * strip + r % strip = r := Int.ediv_mul_add_emod r strip
  have hdiff : (s - r / strip) * strip = s * strip - r / strip * strip := by ring
  rw [shareWithin_cases hstrip hr hask.le hfits hasked hs, if_neg (by omega)]
  by_cases hshort : r % strip + ask < strip
  · -- the range ends in the strip it starts in
    have hone' : s = r / strip := by
      by_contra hne
      have hgap : 1 * strip ≤ (s - r / strip) * strip :=
        Int.mul_le_mul_of_nonneg_right (by omega) hstrip.le
      omega
    rw [if_pos hshort, if_pos hone', min_eq_left (by omega)]
  · rw [if_neg hshort, if_pos (by omega), min_eq_right (by omega)]

/-- The range starts in the strip of `s`, or covers that strip to its end. -/
def CoversStrip (strip count offset ask s : Int) : Prop :=
  holder strip count offset = s
    ∨ offset / (strip * count) * (strip * count) + (s + 1) * strip ≤ offset + ask

instance (strip count offset ask s : Int) : Decidable (CoversStrip strip count offset ask s) :=
  inferInstanceAs (Decidable (_ ∨ _))

/-- **The share of a range inside one whole stripe** is right for a server unless
the range ends within its strip and has started before. -/
theorem striping_share_within {strip count offset ask s : Int} (hstrip : 1 ≤ strip)
    (hcount : 1 ≤ count) (hoffset : 0 ≤ offset) (hask : 1 ≤ ask)
    (hwithin : offset + ask ≤ (offset / (strip * count) + 1) * strip * count)
    (hfits : (offset / (strip * count) + 1) * strip * count < 2 ^ 31) (hs : 0 ≤ s)
    (hlt : s < count) (hholds : 0 < held strip count s offset (offset + ask)) :
    getMyShare strip count offset ask s (-1) = .ok (held strip count s offset (offset + ask) : Int)
      ↔ CoversStrip strip count offset ask s := by
  replace hstrip : 0 < strip := hstrip
  have hpos : 0 < strip * count := Int.mul_pos hstrip hcount
  rw [Int.mul_assoc] at hwithin hfits
  obtain ⟨hstart, hlen, hstop⟩ := strip_le_stripe hstrip hs hlt
  have hsplit := Int.ediv_mul_add_emod offset (strip * count)
  have hr : 0 ≤ offset % (strip * count) := Int.emod_nonneg offset hpos.ne'
  have hrlt : offset % (strip * count) < strip * count := Int.emod_lt_of_pos offset hpos
  have hk : 0 ≤ offset / (strip * count) := Int.ediv_nonneg hoffset hpos.le
  have hshare := getMyShare_eq hstrip hs hlt hoffset (by omega : 0 ≤ ask) hfits (by omega) (-1)
  unfold CoversStrip
  have hnext : (offset / (strip * count) + 1) * (strip * count)
      = offset / (strip * count) * (strip * count) + strip * count := by ring
  have hheld := held_round hstrip hs hlt (k := offset / (strip * count)) hr
    (show offset % (strip * count) + ask ≤ strip * count by omega)
  have hholder := holder_eq_iff hstrip hs hlt (k := offset / (strip * count)) hr hrlt
  rw [← Int.add_assoc, hsplit] at hheld
  rw [hsplit] at hholder
  generalize hrr : offset % (strip * count) = r at *
  -- a byte is held: the range reaches into the strip of `s`
  have hbefore : r < (s + 1) * strip := by omega
  have hreaches : s * strip < r + ask := by omega
  have hsmall : 0 ≤ r % strip := Int.emod_nonneg _ hstrip.ne'
  have hsmall' : r % strip < strip := Int.emod_lt_of_pos _ hstrip
  have hfirst : s = r / strip ↔ s * strip ≤ r := by
    rw [← Int.le_ediv_iff_mul_le hstrip]
    have hle : r / strip < s + 1 := (Int.ediv_lt_iff_lt_mul hstrip).mpr hbefore
    omega
  have hdiv : r / strip * strip + r % strip = r := Int.ediv_mul_add_emod r strip
  have hpassed : offset / (strip * count) * strip ≤ offset / (strip * count) * (strip * count) :=
    Int.mul_le_mul_of_nonneg_left (by omega) hk
  have hpassed₀ : 0 ≤ offset / (strip * count) * strip := Int.mul_nonneg hk hstrip.le
  have hmine := shareWithin_eq hstrip hr hbefore hask (by omega) (by omega) hs hreaches
  have hclip : ∀ mine, 0 ≤ mine → mine ≤ strip → clipShare mine
      (if r ≤ s * strip then offset / (strip * count) * strip
        else offset / (strip * count) * strip + r % strip) 0x1fffffffffffffff = mine := by
    intro mine h₀ h₁
    refine clipShare_eq h₀ (by omega) ?_ (by norm_num) ?_
    · split <;> omega
    · split <;> omega
  rw [hshare, if_pos hwithin, hmine]
  show Except.ok (clipShare _ _ 0x1fffffffffffffff) = _ ↔ _
  rw [hclip _ (by split <;> omega) (by split <;> omega), hheld, hholder, Except.ok.injEq]
  by_cases hs₀ : s * strip ≤ r
  · rw [if_pos (hfirst.mpr hs₀)]
    obtain rfl := hfirst.mpr hs₀
    omega
  · rw [if_neg fun h => hs₀ (hfirst.mp h)]
    omega

/-- Six bytes from the start of a file in strips of four, on two servers: the
first server. -/
theorem striping_share_within_example :
    getMyShare 4 2 0 6 0 (-1) = .ok (held 4 2 0 0 (0 + 6) : Int) ↔ CoversStrip 4 2 0 6 0 :=
  striping_share_within (by decide) (by decide) (by decide) (by decide) (by decide) (by decide)
    (by decide) (by decide) (by decide)

/-- The second server holds two of them and is given a whole strip. -/
theorem striping_share_within_fails :
    (0 + 6 : Int) ≤ (0 / (4 * 2) + 1) * 4 * 2 ∧ held 4 2 1 0 (0 + 6) = 2
      ∧ getMyShare 4 2 0 6 1 (-1) = .ok 4 := by
  decide

end

end PvfsProxy
