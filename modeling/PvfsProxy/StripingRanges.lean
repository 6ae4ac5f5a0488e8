import PvfsProxy.Striping
import Mathlib.Order.Bounds.Basic
import Mathlib.Order.Interval.Set.Basic

/-!
# Shares of longer ranges

`get_my_share` with its wrapping arithmetic: which of its two branches a range
takes (`getMyShare_unclipped`), what it gives for a range that reaches across whole
stripes, where it puts the end of the server's data file, and where it depends on
how many whole stripes lie before the range.
-/

namespace PvfsProxy

open RoundRobin

theorem toInt32_of_fits {z : Int} (h₀ : -2 ^ 31 ≤ z) (h₁ : z < 2 ^ 31) : toInt32 z = z :=
  Int.bmod_eq_of_le (by omega) (by omega)

theorem toInt32_fits (z : Int) : -2 ^ 31 ≤ toInt32 z ∧ toInt32 z < 2 ^ 31 := by
  have hlo := Int.le_bmod (x := z) (m := 2 ^ 32) (by norm_num)
  have hhi := Int.bmod_lt (x := z) (m := 2 ^ 32) (by norm_num)
  unfold toInt32
  omega

theorem toInt32_wraps {z : Int} (h : 2 ^ 31 ≤ z) : toInt32 z ≤ z - 2 ^ 32 := by
  unfold toInt32
  rw [Int.bmod_def]
  split <;> omega

/-- What is added to an `int` before it wraps is added after. -/
theorem toInt32_add_left (a b : Int) : toInt32 (toInt32 a + b) = toInt32 (a + b) :=
  Int.bmod_add_bmod

theorem toInt32_mul_left (a b : Int) : toInt32 (toInt32 a * b) = toInt32 (a * b) :=
  Int.bmod_mul_bmod

/-- Without a file size nothing is clipped, wherever the range starts. -/
theorem clipShare_unclipped {mine myOffset : Int} (h₀ : -2 ^ 31 ≤ mine) (h₁ : mine < 2 ^ 31)
    (hoff₀ : -2 ^ 31 ≤ myOffset) (hoff₁ : myOffset < 2 ^ 31) :
    clipShare mine myOffset 0x1fffffffffffffff = mine := by
  unfold clipShare
  rw [toInt64_eq (by omega) (by omega), max_eq_left (by omega), min_eq_left (by omega),
    toInt32_of_fits h₀ h₁]

/-- The amounts the branch of a single whole stripe can give are `int`s. -/
theorem shareWithin_fits {strip ask s r small mine : Int} (hstrip₀ : -2 ^ 31 ≤ strip)
    (hstrip₁ : strip < 2 ^ 31) (h : shareWithin strip ask s r small = .ok mine) :
    -2 ^ 31 ≤ mine ∧ mine < 2 ^ 31 := by
  unfold shareWithin at h
  dsimp only at h
  split at h
  · contradiction
  split at h
  · contradiction
  split at h
  · obtain rfl := Except.ok.inj h
    exact toInt32_fits _
  split at h
  · split at h
    · obtain rfl := Except.ok.inj h
      exact toInt32_fits _
    · obtain rfl := Except.ok.inj h
      exact ⟨hstrip₀, hstrip₁⟩
  · obtain rfl := Except.ok.inj h
    exact toInt32_fits _

theorem shareAcross_fits (strip whole ask s r : Int) :
    -2 ^ 31 ≤ shareAcross strip whole ask s r ∧ shareAcross strip whole ask s r < 2 ^ 31 :=
  toInt32_fits _

section

variable {strip count s : Int} (hstrip : 0 < strip) (hs : 0 ≤ s) (hlt : s < count)
  (hwhole : strip * count < 2 ^ 31)

include hstrip hs hlt hwhole

/-- **The branch a range takes.** It is taken for one that stays in its whole stripe
only if it does and the end of that stripe is an `int`. -/
theorem getMyShare_unclipped {offset ask : Int} (hoffset : 0 ≤ offset) (hask : 0 ≤ ask)
    (hend : offset + ask < 2 ^ 63) :
    getMyShare strip count offset ask s (-1)
      = if (offset / (strip * count) + 1) * (strip * count) < 2 ^ 31
            ∧ offset % (strip * count) + ask ≤ strip * count then
          shareWithin strip ask s (offset % (strip * count)) (offset % (strip * count) % strip)
        else .ok (shareAcross strip (strip * count) ask s (offset % (strip * count))) := by
  obtain ⟨hstart, hlen, hstop⟩ := strip_le_stripe hstrip hs hlt
  have hpos : 0 < strip * count := by omega
  have hr : 0 ≤ offset % (strip * count) := Int.emod_nonneg offset hpos.ne'
  have hrlt : offset % (strip * count) < strip * count := Int.emod_lt_of_pos offset hpos
  have hsplit := Int.ediv_mul_add_emod offset (strip * count)
  have hnext : (offset / (strip * count) + 1) * (strip * count)
      = offset / (strip * count) * (strip * count) + strip * count := by ring
  have hnr : offset.tdiv (strip * count) = offset / (strip * count) :=
    Int.tdiv_eq_ediv_of_nonneg hoffset
  have hfirst : toInt32 (offset.tmod (strip * count)) = offset % (strip * count) := by
    rw [Int.tmod_eq_emod_of_nonneg hoffset]
    exact toInt32_eq hr (by omega)
  have hsmall : (offset % (strip * count)).tmod strip = offset % (strip * count) % strip :=
    Int.tmod_eq_emod_of_nonneg hr
  have hsum : toInt64 (ask + offset) = offset + ask := by
    rw [toInt64_eq (by omega) (by omega), Int.add_comm]
  have hbound : offset + ask
        ≤ toInt32 ((offset / (strip * count) + 1) * (strip * count))
      ↔ (offset / (strip * count) + 1) * (strip * count) < 2 ^ 31
        ∧ offset % (strip * count) + ask ≤ strip * count := by
    by_cases hfits : (offset / (strip * count) + 1) * (strip * count) < 2 ^ 31
    · rw [toInt32_of_fits (by omega) hfits]
      omega
    · -- a product that wraps ends up before the range
      have hwrapped := toInt32_fits ((offset / (strip * count) + 1) * (strip * count))
      have hless := toInt32_wraps (Int.not_lt.mp hfits)
      omega
  unfold getMyShare
  simp only [toInt32_eq hpos.le hwhole, if_neg hpos.ne', hnr, hfirst, hsmall, hsum,
    toInt32_add_left, toInt32_mul_left, hbound]
  have hoff : ∀ P : Prop, [Decidable P] → ∀ a b : Int,
      -2 ^ 31 ≤ (if P then toInt32 a else toInt32 b)
        ∧ (if P then toInt32 a else toInt32 b) < 2 ^ 31 := by
    intro P _ a b
    split <;> exact toInt32_fits _
  split
  · cases hmine : shareWithin strip ask s (offset % (strip * count))
        (offset % (strip * count) % strip) with
    | error fault => rfl
    | ok mine =>
        obtain ⟨h₀, h₁⟩ := shareWithin_fits (by omega) (by omega) hmine
        exact congrArg Except.ok (clipShare_unclipped h₀ h₁ (hoff _ _ _).1 (hoff _ _ _).2)
  · exact congrArg Except.ok (clipShare_unclipped (shareAcross_fits ..).1 (shareAcross_fits ..).2
      (hoff _ _ _).1 (hoff _ _ _).2)

/-- What the locals of `shareAcross` hold; only the product with the number of whole
stripes can wrap. -/
theorem shareAcross_eq {ask r : Int} (hr : 0 ≤ r) (hround : r < strip * count) (hask : 0 ≤ ask)
    (hfits : ask < 2 ^ 63) :
    shareAcross strip (strip * count) ask s r
      = toInt32 ((ask - if r > 0 then strip * count - r else 0).tdiv (strip * count) * strip
          + (if r > 0 then strip else 0)
          + max 0 (min strip
            ((ask - if r > 0 then strip * count - r else 0).tmod (strip * count) - s * strip))
          - max 0 (min strip (r - s * strip))) := by
  obtain ⟨hstart, hlen, hstop⟩ := strip_le_stripe hstrip hs hlt
  have hpos : 0 < strip * count := by omega
  have hone : s + 1 ≤ (s + 1) * strip := le_mul_of_one_le_right (by omega) hstrip
  have hsecond : (if r > 0 then toInt32 (strip * count - r) else 0)
      = if r > 0 then strip * count - r else 0 := by
    split
    · exact toInt32_eq (by omega) (by omega)
    · rfl
  have hrest : toInt64 (ask - if r > 0 then strip * count - r else 0)
      = ask - if r > 0 then strip * count - r else 0 := by
    refine Int.bmod_eq_of_le ?_ ?_
    · split <;> omega
    · split <;> omega
  have hthird : ∀ rest : Int, toInt32 (rest.tmod (strip * count)) = rest.tmod (strip * count) := by
    intro rest
    have hlo := Int.lt_tmod_of_pos rest hpos
    have hhi := Int.tmod_lt_of_pos rest hpos
    exact toInt32_of_fits (by omega) (by omega)
  have hbottom : ∀ third : Int, third < strip * count →
      (if third ≥ s * strip then
          if third < (s + 1) * strip then toInt32 (third - s * strip) else strip
        else 0) = max 0 (min strip (third - s * strip)) := by
    intro third hthird
    split
    · split
      · rw [toInt32_eq (by omega) (by omega)]
        omega
      · omega
    · omega
  have hless : ∀ bottom : Int, 0 ≤ bottom → bottom ≤ strip →
      (if r ≥ s * strip then
          if r < (s + 1) * strip then toInt32 (bottom - toInt32 (r - s * strip))
          else toInt32 (bottom - strip)
        else bottom) = bottom - max 0 (min strip (r - s * strip)) := by
    intro bottom h₀ h₁
    split
    · split
      · have hinner : toInt32 (r - s * strip) = r - s * strip := toInt32_eq (by omega) (by omega)
        rw [hinner, toInt32_of_fits (by omega) (by omega)]
        omega
      · rw [toInt32_of_fits (by omega) (by omega)]
        omega
    · omega
  unfold shareAcross
  simp only [hsecond, hrest, hthird, toInt32_eq hstart (by omega : s * strip < 2 ^ 31),
    toInt32_eq (by omega : (0 : Int) ≤ s + 1) (by omega : s + 1 < 2 ^ 31),
    toInt32_eq (by omega : 0 ≤ (s + 1) * strip) (by omega : (s + 1) * strip < 2 ^ 31)]
  rw [hbottom _ (Int.tmod_lt_of_pos _ hpos), hless _ (by omega) (by omega)]
  split
  · rw [toInt32_add_left, toInt32_mul_left, Int.add_assoc, toInt32_add_left]
    congr 1
    omega
  · rw [toInt32_mul_left, toInt32_add_left, Int.add_zero, Int.add_sub_assoc]

/-- A range of which `s` has an `int` of bytes is no longer than a `long long`. -/
theorem ask_fits {offset ask : Int} (hoffset : 0 ≤ offset) (hask : 0 ≤ ask)
    (hheld : held strip count s offset (offset + ask) < 2 ^ 31) : ask < 2 ^ 62 := by
  have hlength := length_le_held hstrip hs hlt hoffset (b := offset + ask) (by omega)
  have hcount : count ≤ strip * count := le_mul_of_one_le_left (by omega) hstrip
  have hmine : (held strip count s offset (offset + ask) : Int) * count
      ≤ (2 ^ 31 - 1) * count := Int.mul_le_mul_of_nonneg_right (by omega) (by omega)
  rw [Int.add_mul] at hlength
  omega

/-- Across whole stripes the share is what `s` has of the range, up to wrapping. -/
theorem shareAcross_held {offset ask : Int} (hoffset : 0 ≤ offset) (hfits : ask < 2 ^ 63)
    (hacross : strip * count < offset % (strip * count) + ask) :
    shareAcross strip (strip * count) ask s (offset % (strip * count))
      = toInt32 (held strip count s offset (offset + ask)) := by
  have hpos : 0 < strip * count := Int.mul_pos hstrip (by omega)
  have hr : 0 ≤ offset % (strip * count) := Int.emod_nonneg offset hpos.ne'
  have hrlt : offset % (strip * count) < strip * count := Int.emod_lt_of_pos offset hpos
  have hk : 0 ≤ offset / (strip * count) := Int.ediv_nonneg hoffset hpos.le
  have hsplit := Int.ediv_mul_add_emod offset (strip * count)
  rw [shareAcross_eq hstrip hs hlt hwhole hr hrlt (by omega) hfits]
  generalize offset % (strip * count) = r, offset / (strip * count) = k at *
  -- what is left after the stripe the range starts in
  generalize hrest : (ask - if r > 0 then strip * count - r else 0) = rest
  have hrest₀ : 0 ≤ rest := by
    split at hrest <;> omega
  rw [Int.tdiv_eq_ediv_of_nonneg hrest₀, Int.tmod_eq_emod_of_nonneg hrest₀]
  have hdiv := Int.ediv_mul_add_emod rest (strip * count)
  have hd := Int.ediv_nonneg hrest₀ hpos.le
  have ht := Int.emod_nonneg rest hpos.ne'
  have htlt := Int.emod_lt_of_pos rest hpos
  generalize rest / (strip * count) = d, rest % (strip * count) = third at *
  have hstop : offset + ask
      = (k + d + if r > 0 then 1 else 0) * (strip * count) + third := by
    split at hrest
    · rw [if_pos ‹_›, ← hsplit]
      linarith
    · rw [if_neg ‹_›, ← hsplit]
      have hzero : r = 0 := by omega
      linarith
  have hrounds : 0 ≤ k + d + if r > 0 then 1 else 0 := by split <;> omega
  have hbetween := held_between hstrip hs hlt hk hrounds hr hrlt.le ht htlt.le (by omega)
  rw [hsplit, ← hstop] at hbetween
  rw [hbetween]
  congr 1
  split
  · ring
  · ring

end

/-! ## Across whole stripes -/

/-- **The share of a range across whole stripes** is what the server has of it, so
together the servers give the whole range. -/
theorem striping_share_across {strip count offset ask : Int} (hstrip : 1 ≤ strip)
    (hcount : 1 ≤ count) (hoffset : 0 ≤ offset)
    (hacross : (offset / (strip * count) + 1) * strip * count < offset + ask)
    (hfits : (offset / (strip * count) + 1) * strip * count < 2 ^ 31) :
    (∀ s, 0 ≤ s → s < count → held strip count s offset (offset + ask) < 2 ^ 31 →
      getMyShare strip count offset ask s (-1)
        = .ok (held strip count s offset (offset + ask) : Int))
      ∧ ((∀ s, 0 ≤ s → s < count → held strip count s offset (offset + ask) < 2 ^ 31) →
        ∑ s ∈ Finset.Ico 0 count, (getMyShare strip count offset ask s (-1)).toOption.getD 0
          = ask) := by
  have hpos : 0 < strip * count := Int.mul_pos hstrip hcount
  have hsplit := Int.ediv_mul_add_emod offset (strip * count)
  have hrlt := Int.emod_lt_of_pos offset hpos
  have hnext : (offset / (strip * count) + 1) * strip * count
      = offset / (strip * count) * (strip * count) + strip * count := by ring
  have hpassed : 0 ≤ offset / (strip * count) * (strip * count) :=
    Int.mul_nonneg (Int.ediv_nonneg hoffset hpos.le) hpos.le
  have hwhole : strip * count < 2 ^ 31 := by omega
  have hpast : strip * count < offset % (strip * count) + ask := by omega
  have hask : 0 ≤ ask := by omega
  have hshare : ∀ s, 0 ≤ s → s < count → held strip count s offset (offset + ask) < 2 ^ 31 →
      getMyShare strip count offset ask s (-1)
        = .ok (held strip count s offset (offset + ask) : Int) := by
    intro s hs hlt hheld
    have hlong := ask_fits hstrip hs hlt hwhole hoffset hask hheld
    rw [getMyShare_unclipped hstrip hs hlt hwhole hoffset hask (by omega), if_neg (by omega),
      shareAcross_held hstrip hs hlt hwhole hoffset (by omega) hpast,
      toInt32_eq (by omega) (by omega)]
  refine ⟨hshare, fun hheld => ?_⟩
  calc ∑ s ∈ Finset.Ico 0 count, (getMyShare strip count offset ask s (-1)).toOption.getD 0
      = ∑ s ∈ Finset.Ico 0 count, (held strip count s offset (offset + ask) : Int) := by
        refine Finset.sum_congr rfl fun s hs => ?_
        obtain ⟨hs₀, hs₁⟩ := Finset.mem_Ico.mp hs
        rw [hshare s hs₀ hs₁ (hheld s hs₀ hs₁)]
        rfl
    _ = ask := by
        rw [held_sum hcount (by omega)]
        omega

/-- Fourteen bytes from the fourth on, in strips of four on two servers: six and
eight of them. -/
theorem striping_share_across_example :
    (getMyShare 4 2 3 14 0 (-1) = .ok 6 ∧ getMyShare 4 2 3 14 1 (-1) = .ok 8)
      ∧ ∑ s ∈ Finset.Ico 0 2, (getMyShare 4 2 3 14 s (-1)).toOption.getD 0 = (14 : Int) := by
  have hshares := @striping_share_across 4 2 3 14 (by decide) (by decide) (by decide) (by decide)
    (by decide)
  refine ⟨⟨hshares.1 0 (by decide) (by decide) (by decide),
    hshares.1 1 (by decide) (by decide) (by decide)⟩, hshares.2 fun s h₀ h₁ => ?_⟩
  obtain rfl | rfl : s = 0 ∨ s = 1 := by omega
  · decide
  · decide

/-! ## The end of the file -/

section

variable {strip count s : Int} (hstrip : 0 < strip) (hs : 0 ≤ s) (hlt : s < count)

include hstrip hs hlt

/-- The first byte of a range that `s` has: in the stripe the range starts in, if that
has not passed the strip of `s`, or else at the start of the strip in the next one. -/
theorem first_held {offset first : Int}
    (hfirst : IsLeast {x | offset ≤ x ∧ holder strip count x = s} first) :
    first = if offset % (strip * count) < (s + 1) * strip then
        offset / (strip * count) * (strip * count) + max (offset % (strip * count)) (s * strip)
      else (offset / (strip * count) + 1) * (strip * count) + s * strip := by
  obtain ⟨hstart, hlen, hstop⟩ := strip_le_stripe hstrip hs hlt
  have hpos : 0 < strip * count := by omega
  have hsplit := Int.ediv_mul_add_emod offset (strip * count)
  have hr := Int.emod_nonneg offset hpos.ne'
  have hrlt := Int.emod_lt_of_pos offset hpos
  generalize offset / (strip * count) = k, offset % (strip * count) = r at *
  have hnext : (k + 1) * (strip * count) = k * (strip * count) + strip * count := by ring
  obtain ⟨⟨hfrom, hmine⟩, hleast⟩ := hfirst
  have hround : ∀ y, 0 ≤ y → y < strip * count →
      (holder strip count (k * (strip * count) + y) = s ↔ s * strip ≤ y ∧ y < (s + 1) * strip) :=
    fun y hy hylt => holder_eq_iff hstrip hs hlt hy hylt
  split
  · have hle : first ≤ k * (strip * count) + max r (s * strip) :=
      hleast ⟨by omega, (hround _ (by omega) (by omega)).mpr (by omega)⟩
    have hin := (hround (first - k * (strip * count)) (by omega) (by omega)).mp
      (by rwa [add_sub_cancel])
    omega
  · have hnew := (holder_eq_iff hstrip hs hlt (k := k + 1) hstart (by omega)).mpr (by omega)
    have hle : first ≤ (k + 1) * (strip * count) + s * strip := hleast ⟨by omega, hnew⟩
    rcases lt_or_ge first ((k + 1) * (strip * count)) with hsame | hlater
    · have hin := (hround (first - k * (strip * count)) (by omega) (by omega)).mp
        (by rwa [add_sub_cancel])
      omega
    · have hin := (holder_eq_iff hstrip hs hlt (k := k + 1)
        (y := first - (k + 1) * (strip * count)) (by omega) (by omega)).mp
        (by rwa [add_sub_cancel])
      omega

/-- Where the data file of `s` has byte `y` of round `k`. -/
theorem position_eq {k y : Int} (hlo : s * strip ≤ y) (hhi : y < (s + 1) * strip) :
    (k * (strip * count) + y) / (strip * count) * strip + (k * (strip * count) + y) % strip
      = k * strip + (y - s * strip) := by
  obtain ⟨hstart, hlen, hstop⟩ := strip_le_stripe hstrip hs hlt
  have hpos : 0 < strip * count := by omega
  have hround : (k * (strip * count) + y) / (strip * count) = k := by
    rw [Int.add_comm, Int.add_mul_ediv_right _ _ hpos.ne', Int.ediv_eq_zero_of_lt (by omega)
      (by omega), Int.zero_add]
  have hsmall : (k * (strip * count) + y) % strip = y - s * strip := by
    have hsplit : k * (strip * count) + y = (y - s * strip) + (k * count + s) * strip := by ring
    rw [hsplit, Int.add_mul_emod_self_right, Int.emod_eq_of_lt (by omega) (by omega)]
  rw [hround, hsmall]

/-- Where the data file of `s` has the first byte of a range that `s` has. -/
theorem position_first {offset first : Int}
    (hfirst : IsLeast {x | offset ≤ x ∧ holder strip count x = s} first) :
    first / (strip * count) * strip + first % strip
      = if offset % (strip * count) < (s + 1) * strip then
          offset / (strip * count) * strip + max 0 (offset % (strip * count) - s * strip)
        else (offset / (strip * count) + 1) * strip := by
  obtain ⟨hstart, hlen, hstop⟩ := strip_le_stripe hstrip hs hlt
  rw [first_held hstrip hs hlt hfirst]
  split
  · rw [position_eq hstrip hs hlt (by omega) (by omega)]
    omega
  · rw [position_eq hstrip hs hlt (by omega) (by omega)]
    omega

/-- **Where the code puts the start of the share.** The share is clipped at `actual`,
counted from there; if the range starts behind the strip of `s`, the share is what `s`
has of the range. -/
theorem getMyShare_clipped {offset ask : Int} (hoffset : 0 ≤ offset) (hask : 0 ≤ ask)
    (hfits : (offset / (strip * count) + 1) * (strip * count) < 2 ^ 31)
    (hheld : held strip count s offset (offset + ask) < 2 ^ 31)
    (hholds : 0 < held strip count s offset (offset + ask)) :
    ∃ mine : Int, ((s + 1) * strip ≤ offset % (strip * count) →
        mine = held strip count s offset (offset + ask))
      ∧ getMyShare strip count offset ask s (-1) = .ok mine
      ∧ ∀ actual, 0 ≤ actual → actual < 2 ^ 63 →
        getMyShare strip count offset ask s actual = .ok (min mine (max 0 (actual
          - if offset % (strip * count) ≤ s * strip then offset / (strip * count) * strip
            else offset / (strip * count) * strip + offset % (strip * count) % strip))) := by
  obtain ⟨hstart, hlen, hstop⟩ := strip_le_stripe hstrip hs hlt
  have hpos : 0 < strip * count := by omega
  have hsplit := Int.ediv_mul_add_emod offset (strip * count)
  have hr := Int.emod_nonneg offset hpos.ne'
  have hrlt := Int.emod_lt_of_pos offset hpos
  have hk : 0 ≤ offset / (strip * count) := Int.ediv_nonneg hoffset hpos.le
  have hnext : (offset / (strip * count) + 1) * (strip * count)
      = offset / (strip * count) * (strip * count) + strip * count := by ring
  have hpassed : offset / (strip * count) * strip ≤ offset / (strip * count) * (strip * count) :=
    Int.mul_le_mul_of_nonneg_left (by omega) hk
  have hpassed₀ : 0 ≤ offset / (strip * count) * strip := Int.mul_nonneg hk hstrip.le
  have hsmall : 0 ≤ offset % (strip * count) % strip := Int.emod_nonneg _ hstrip.ne'
  have hsmall' : offset % (strip * count) % strip < strip := Int.emod_lt_of_pos _ hstrip
  have hwhole : strip * count < 2 ^ 31 := by omega
  have hlong := ask_fits hstrip hs hlt hwhole hoffset hask hheld
  -- the branch taken gives an amount that is not negative
  obtain ⟨mine, h₀, h₁, hmine, hbranch⟩ : ∃ mine : Int, 0 ≤ mine ∧ mine < 2 ^ 31
      ∧ ((s + 1) * strip ≤ offset % (strip * count) →
        mine = held strip count s offset (offset + ask))
      ∧ ∀ actual, getMyShare strip count offset ask s actual = .ok (clipShare mine
        (if offset % (strip * count) ≤ s * strip then offset / (strip * count) * strip
          else offset / (strip * count) * strip + offset % (strip * count) % strip)
        (if actual < 0 then 0x1fffffffffffffff else actual)) := by
    by_cases hwithin : offset + ask ≤ (offset / (strip * count) + 1) * (strip * count)
    · have hround := held_round hstrip hs hlt (k := offset / (strip * count)) hr
        (show offset % (strip * count) + ask ≤ strip * count by omega)
      rw [← Int.add_assoc, hsplit] at hround
      have hshare := shareWithin_eq hstrip hr (by omega : _ < (s + 1) * strip)
        (by omega : 0 < ask) (by omega) (by omega) hs (by omega)
      generalize hgiven : (if s = offset % (strip * count) / strip then
        min ask (strip - offset % (strip * count) % strip) else strip) = given at hshare
      have hamount : 0 ≤ given ∧ given ≤ strip := by
        split at hgiven <;> omega
      refine ⟨given, hamount.1, by omega, fun hbehind => by omega, fun actual => ?_⟩
      rw [getMyShare_eq hstrip hs hlt hoffset hask hfits (by omega), if_pos hwithin, hshare]
      rfl
    · refine ⟨held strip count s offset (offset + ask), by omega, by omega, fun _ => rfl,
        fun actual => ?_⟩
      rw [getMyShare_eq hstrip hs hlt hoffset hask hfits (by omega), if_neg hwithin,
        shareAcross_held hstrip hs hlt hwhole hoffset (by omega) (by omega),
        toInt32_eq (by omega) (by omega)]
      rfl
  refine ⟨mine, hmine, ?_, fun actual hactual hactual' => ?_⟩
  · rw [hbranch]
    refine congrArg Except.ok (clipShare_unclipped (by omega) h₁ ?_ ?_)
    · split <;> omega
    · split <;> omega
  · rw [hbranch, if_neg (Int.not_lt.mpr hactual)]
    refine congrArg Except.ok ?_
    unfold clipShare
    rw [toInt64, Int.bmod_eq_of_le (by split <;> omega) (by split <;> omega), max_comm]
    exact toInt32_eq (by omega) (by omega)

end

/-- **Clipping a share at the end of the file** works unless the range starts behind
the strip of the server: the code then takes the server to start in the stripe of the
offset, and only a file that ends before that, or behind all of the share, is clipped
right. -/
theorem striping_share_clipped {strip count offset ask s first actual : Int} (hstrip : 1 ≤ strip)
    (hoffset : 0 ≤ offset) (hask : 0 ≤ ask)
    (hfits : (offset / (strip * count) + 1) * strip * count < 2 ^ 31)
    (hheld : held strip count s offset (offset + ask) < 2 ^ 31) (hs : 0 ≤ s) (hlt : s < count)
    (hholds : 0 < held strip count s offset (offset + ask))
    (hfirst : IsLeast {x | offset ≤ x ∧ holder strip count x = s} first) (hactual : 0 ≤ actual)
    (hactual' : actual < 2 ^ 63) :
    (∃ mine, getMyShare strip count offset ask s (-1) = .ok mine
        ∧ getMyShare strip count offset ask s actual = .ok
          (min mine (max 0 (actual - (first / (strip * count) * strip + first % strip)))))
      ↔ offset % (strip * count) < (s + 1) * strip
        ∨ actual ≤ offset / (strip * count) * strip + offset % (strip * count) % strip
        ∨ (offset / (strip * count) + 1) * strip + held strip count s offset (offset + ask)
          ≤ actual := by
  rw [Int.mul_assoc] at hfits
  obtain ⟨hstart, hlen, hstop⟩ := strip_le_stripe hstrip hs hlt
  obtain ⟨mine, hmine, hwhole, hclipped⟩ :=
    getMyShare_clipped hstrip hs hlt hoffset hask hfits hheld hholds
  rw [position_first hstrip hs hlt hfirst, hwhole, hclipped actual hactual hactual']
  have hr := Int.emod_nonneg offset (show strip * count ≠ 0 by omega)
  have hdiv := Int.ediv_mul_add_emod (offset % (strip * count)) strip
  have hsmall : 0 ≤ offset % (strip * count) % strip := Int.emod_nonneg _ (by omega)
  have hsmall' : offset % (strip * count) % strip < strip := Int.emod_lt_of_pos _ hstrip
  have hlater : (offset / (strip * count) + 1) * strip
      = offset / (strip * count) * strip + strip := by ring
  simp only [Except.ok.injEq, exists_eq_left']
  by_cases hbefore : offset % (strip * count) < (s + 1) * strip
  · have hstarts : (if offset % (strip * count) ≤ s * strip then offset / (strip * count) * strip
        else offset / (strip * count) * strip + offset % (strip * count) % strip)
        = offset / (strip * count) * strip + max 0 (offset % (strip * count) - s * strip) := by
      split
      · omega
      · have hin : offset % (strip * count) % strip = offset % (strip * count) - s * strip := by
          rw [← Int.sub_mul_emod_self_right _ s, Int.emod_eq_of_lt (by omega) (by omega)]
        omega
    rw [if_pos hbefore, hstarts]
    exact iff_of_true rfl (.inl hbefore)
  · have hheld' := hmine (by omega)
    rw [if_neg hbefore, if_neg (by omega)]
    omega

/-- A range from the sixth byte on, in strips of four on two servers: the second
server starts with it, and its data file ends two bytes later. -/
theorem striping_share_clipped_example :
    ∃ mine, getMyShare 4 2 5 8 1 (-1) = .ok mine
      ∧ getMyShare 4 2 5 8 1 3 = .ok (min mine (max 0 (3 - (5 / (4 * 2) * 4 + 5 % 4)))) :=
  (@striping_share_clipped 4 2 5 8 1 5 3 (by decide) (by decide) (by decide) (by decide)
    (by decide) (by decide) (by decide) (by decide) ⟨⟨by decide, by decide⟩, fun _ hx => hx.1⟩
    (by decide) (by decide)).mpr (.inl (by decide))

/-- The first server has four bytes of it, from the fifth of its data file on. If
that ends after two, it is still given one. -/
theorem striping_share_clipped_fails :
    IsLeast {x | 5 ≤ x ∧ holder 4 2 x = 0} 8 ∧ held 4 2 0 5 (5 + 8) = 4
      ∧ getMyShare 4 2 5 8 0 (-1) = .ok 4 ∧ getMyShare 4 2 5 8 0 2 = .ok 1
      ∧ (min 4 (max 0 (2 - (8 / (4 * 2) * 4 + 8 % 4))) : Int) = 0 := by
  refine ⟨⟨⟨by decide, by decide⟩, ?_⟩, by decide, by decide, by decide, by decide⟩
  rintro x ⟨hfrom, hmine⟩
  unfold holder at hmine
  omega

/-! ## Whole stripes further on -/

/-- When the two branches agree on `ask` bytes from byte `r` of a whole stripe on that
stay in it. From its start: for its first strip, and for another one if none of it,
all of it or nothing but earlier whole strips are asked for. From inside it: if the
range leaves the strip it starts in and reaches the strip of `s`, which it may start
in. -/
def BranchesAgree (strip r ask s : Int) : Prop :=
  if r = 0 then
    s = 0 ∨ ask = 0 ∨ (s + 1) * strip ≤ ask ∨ strip ≤ ask ∧ ask < s * strip ∧ ask % strip = 0
  else
    ask = 0 ∧ r = (s + 1) * strip
      ∨ r < (s + 1) * strip ∧ strip ≤ r % strip + ask
        ∧ (s - r / strip) * strip ≤ r % strip + ask

instance (strip r ask s : Int) : Decidable (BranchesAgree strip r ask s) :=
  inferInstanceAs (Decidable (ite (r = 0) _ _))

section

variable {strip count s : Int} (hstrip : 0 < strip) (hs : 0 ≤ s) (hlt : s < count)
  (hwhole : strip * count < 2 ^ 31)

include hstrip hs hlt hwhole

/-- What the branch for several whole stripes gives for a range that stays in one. -/
theorem shareAcross_within {ask r : Int} (hr : 0 ≤ r) (hrlt : r < strip * count) (hask : 0 ≤ ask)
    (hround : r + ask ≤ strip * count) :
    shareAcross strip (strip * count) ask s r
      = if r = 0 then max 0 (min strip (ask - s * strip))
        else strip - max 0 (min strip (r - s * strip)) := by
  obtain ⟨hstart, hlen, hstop⟩ := strip_le_stripe hstrip hs hlt
  rw [shareAcross_eq hstrip hs hlt hwhole hr hrlt hask (by omega)]
  by_cases hzero : r = 0
  · subst hzero
    rw [if_neg (by omega), if_neg (by omega), if_pos rfl, Int.sub_zero,
      Int.tdiv_eq_ediv_of_nonneg hask, Int.tmod_eq_emod_of_nonneg hask]
    rcases Int.lt_or_eq_of_le (show ask ≤ strip * count by omega) with hlt' | rfl
    · rw [Int.ediv_eq_zero_of_lt hask hlt', Int.emod_eq_of_lt hask hlt',
        toInt32_of_fits (by omega) (by omega)]
      omega
    · rw [Int.ediv_self (by omega), Int.emod_self, toInt32_of_fits (by omega) (by omega)]
      omega
  · -- nothing is left after the stripe the range starts in
    have hdiv : (ask - (strip * count - r)).tdiv (strip * count) = 0 := by
      rw [← Int.neg_neg (ask - _), Int.neg_tdiv, Int.tdiv_eq_zero_of_lt (by omega) (by omega)]
      rfl
    have hmod := Int.tmod_add_mul_tdiv (ask - (strip * count - r)) (strip * count)
    rw [hdiv, Int.mul_zero, Int.add_zero] at hmod
    rw [if_pos (by omega), if_pos (by omega), if_neg hzero, hdiv, hmod,
      toInt32_of_fits (by omega) (by omega)]
    omega

theorem branchesAgree_iff {ask r : Int} (hr : 0 ≤ r) (hrlt : r < strip * count) (hask : 0 ≤ ask)
    (hround : r + ask ≤ strip * count) :
    shareWithin strip ask s r (r % strip) = .ok (shareAcross strip (strip * count) ask s r)
      ↔ BranchesAgree strip r ask s := by
  obtain ⟨hstart, hlen, hstop⟩ := strip_le_stripe hstrip hs hlt
  rw [shareWithin_cases hstrip hr hask (by omega) (by omega) hs,
    shareAcross_within hstrip hs hlt hwhole hr hrlt hask hround]
  unfold BranchesAgree
  have hsmall : 0 ≤ r % strip := Int.emod_nonneg _ hstrip.ne'
  have hsmall' : r % strip < strip := Int.emod_lt_of_pos _ hstrip
  have hrest : 0 ≤ (r % strip + ask) % strip := Int.emod_nonneg _ hstrip.ne'
  have hrest' : (r % strip + ask) % strip < strip := Int.emod_lt_of_pos _ hstrip
  have hsplit : r / strip * strip + r % strip = r := Int.ediv_mul_add_emod r strip
  have hdiff : (s - r / strip) * strip = s * strip - r / strip * strip := by ring
  by_cases hzero : r = 0
  · subst hzero
    rw [if_pos rfl, if_pos rfl, if_neg (by omega)]
    simp only [Int.zero_emod, Int.zero_ediv, Int.zero_add, Int.sub_zero, ite_self]
    by_cases hfirst : s = 0
    · have hstart' : s * strip = 0 := by rw [hfirst, Int.zero_mul]
      split
      · simp only [Except.ok.injEq]
        omega
      · rw [if_pos (by omega)]
        simp only [Except.ok.injEq]
        omega
    · have hone : 1 * strip ≤ s * strip := Int.mul_le_mul_of_nonneg_right (by omega) hstrip.le
      split
      · simp only [Except.ok.injEq]
        omega
      split
      · simp only [Except.ok.injEq]
        omega
      · simp only [Int.zero_emod, Int.zero_add] at hrest hrest'
        simp only [Except.ok.injEq]
        omega
  rw [if_neg hzero, if_neg hzero]
  have hstarted : r < (s + 1) * strip ↔ r / strip < s + 1 := (Int.ediv_lt_iff_lt_mul hstrip).symm
  rcases Int.lt_trichotomy ((s + 1) * strip) r with hpast | hjust | hbefore
  · -- the range starts behind the strip of `s`, and the code exits
    rw [if_pos hpast]
    refine iff_of_false nofun ?_
    omega
  · have hnone : r % strip = 0 := by rw [← hjust, Int.mul_emod_left]
    have hall : r / strip = s + 1 := by rw [← hjust, Int.mul_ediv_cancel _ hstrip.ne']
    have hdiff' : r / strip * strip = s * strip + strip := by rw [hall, hlen]
    rw [if_neg (by omega)]
    split
    · simp only [Except.ok.injEq]
      omega
    · rw [if_pos (by omega), if_neg (by omega)]
      simp only [Except.ok.injEq]
      omega
  · rw [if_neg (by omega)]
    rcases Int.lt_or_eq_of_le (Int.le_of_lt_add_one (hstarted.mp hbefore)) with hlater | hfirst
    · -- the strip of `s` is a later one
      have hgap : (r / strip + 1) * strip ≤ s * strip :=
        Int.mul_le_mul_of_nonneg_right (by omega) hstrip.le
      rw [Int.add_mul, Int.one_mul] at hgap
      split
      · simp only [Except.ok.injEq]
        omega
      split
      · rw [if_neg (by omega)]
        simp only [Except.ok.injEq]
        omega
      · simp only [Except.ok.injEq]
        omega
    · -- the range starts in the strip of `s`
      have hsame : r / strip * strip = s * strip := by rw [hfirst]
      split
      · simp only [Except.ok.injEq]
        omega
      · rw [if_pos (by omega), if_pos hfirst.symm]
        simp only [Except.ok.injEq]
        omega

end

/-- **A share `k` whole stripes further on** is the same unless the range stays in its
whole stripe, the end of that stripe stops being an `int` on the way, and the two
branches differ. -/
theorem striping_share_translated {strip count offset ask s k : Int} (hstrip : 1 ≤ strip)
    (hwhole : strip * count < 2 ^ 31) (hoffset : 0 ≤ offset) (hask : 0 ≤ ask) (hs : 0 ≤ s)
    (hlt : s < count) (hheld : held strip count s offset (offset + ask) < 2 ^ 31) (hk : 0 ≤ k)
    (hend : offset + k * strip * count < 2 ^ 62) :
    getMyShare strip count (offset + k * strip * count) ask s (-1)
        = getMyShare strip count offset ask s (-1)
      ↔ strip * count < offset % (strip * count) + ask
        ∨ (offset / (strip * count) + k + 1) * (strip * count) < 2 ^ 31
        ∨ 2 ^ 31 ≤ (offset / (strip * count) + 1) * (strip * count)
        ∨ BranchesAgree strip (offset % (strip * count)) ask s := by
  replace hstrip : 0 < strip := hstrip
  have hpos : 0 < strip * count := Int.mul_pos hstrip (by omega)
  have hr := Int.emod_nonneg offset hpos.ne'
  have hrlt := Int.emod_lt_of_pos offset hpos
  have hpast : 0 ≤ k * (strip * count) := Int.mul_nonneg hk hpos.le
  have hlong := ask_fits hstrip hs hlt hwhole hoffset hask hheld
  rw [Int.mul_assoc] at hend ⊢
  have hdiv : (offset + k * (strip * count)) / (strip * count)
      = offset / (strip * count) + k := Int.add_mul_ediv_right _ _ hpos.ne'
  have hmod : (offset + k * (strip * count)) % (strip * count) = offset % (strip * count) :=
    Int.add_mul_emod_self_right ..
  have hgrows : (offset / (strip * count) + k + 1) * (strip * count)
      = (offset / (strip * count) + 1) * (strip * count) + k * (strip * count) := by ring
  rw [getMyShare_unclipped hstrip hs hlt hwhole (by omega) hask (by omega),
    getMyShare_unclipped hstrip hs hlt hwhole hoffset hask (by omega), hdiv, hmod]
  by_cases hacross : strip * count < offset % (strip * count) + ask
  · rw [if_neg (by omega), if_neg (by omega)]
    exact iff_of_true rfl (.inl hacross)
  by_cases hnow : 2 ^ 31 ≤ (offset / (strip * count) + 1) * (strip * count)
  · rw [if_neg (by omega), if_neg (by omega)]
    exact iff_of_true rfl (.inr (.inr (.inl hnow)))
  have hwithin : offset % (strip * count) + ask ≤ strip * count := by omega
  rw [if_pos (show (offset / (strip * count) + 1) * (strip * count) < 2 ^ 31 ∧ _
    from ⟨by omega, hwithin⟩)]
  by_cases hthen : (offset / (strip * count) + k + 1) * (strip * count) < 2 ^ 31
  · rw [if_pos ⟨hthen, hwithin⟩]
    exact iff_of_true rfl (.inr (.inl hthen))
  · rw [if_neg fun h => hthen h.1, eq_comm (a := Except.ok _),
      branchesAgree_iff hstrip hs hlt hwhole hr hrlt hask hwithin]
    simp only [hacross, hthen, hnow, false_or]

/-- Two bytes from the second on, and the two bytes 2 GiB later. -/
theorem striping_share_translated_example :
    getMyShare 4 2 (1 + 3 * 4 * 2) 2 0 (-1) = getMyShare 4 2 1 2 0 (-1) :=
  (@striping_share_translated 4 2 1 2 0 3 (by decide) (by decide) (by decide) (by decide)
    (by decide) (by decide) (by decide) (by decide) (by decide)).mpr (.inr (.inl (by decide)))

theorem striping_share_translated_fails :
    held 4 2 0 1 (1 + 2) = 2 ∧ getMyShare 4 2 1 2 0 (-1) = .ok 2
      ∧ getMyShare 4 2 (1 + 2 ^ 28 * 4 * 2) 2 0 (-1) = .ok 3 := by
  decide

end PvfsProxy
