import Mathlib.Algebra.Order.Floor.Ring
import Mathlib.Data.Rat.Floor
import OpenMV.Filters.Clahe
import OpenMV.Schemes.CheckedRun
import OpenMV.Schemes.Refill

/-! Clipping the histograms of the regions | scheme:fold | source:src/src/openmv/omv/img/clahe.c

    `ClipHistogram` cuts the bins at the clip limit, adds the mean of the excess to each bin, and puts the rest into
    the bins that are still below the limit, again and again until it is used up. An `unsigned long` has 64 bits. -/

namespace OpenMV.Filters
open Schemes

/-! ### The code -/

/-- Subtraction of `unsigned long`. -/
def ulSub (a b : ℕ) : ℕ := (a + 18446744073709551616 - b) % 18446744073709551616

/-- `(long) a` -/
def toLong (a : ℕ) : ℤ := if a < 9223372036854775808 then a else (a : ℤ) - 18446744073709551616

/-- The excess of a bin is added, if the difference is a `long`. -/
def addExcess (ulClipLimit : ℕ) (ulNrExcess bin : ℕ) : Option ℕ :=
  let lBinExcess := toLong bin - toLong ulClipLimit
  if -9223372036854775808 ≤ lBinExcess ∧ lBinExcess < 9223372036854775808 then
    some (if 0 < lBinExcess then (ulNrExcess + lBinExcess.toNat) % 18446744073709551616 else ulNrExcess)
  else none

/-- The first loop. -/
def countExcess (uiNrGreylevels ulClipLimit : ℕ) (pulHistogram : ℕ → ℕ) : Option ℕ :=
  (List.range uiNrGreylevels).foldlM (fun e i => addExcess ulClipLimit e (pulHistogram i)) 0

/-- A round of the second loop. -/
def clipBin (ulClipLimit ulBinIncr ulUpper : ℕ) (s : Bins ℕ) (i : ℕ) : Bins ℕ :=
  if ulClipLimit < s.hist i then { s with hist := Function.update s.hist i ulClipLimit }
  else if ulUpper < s.hist i then
    { hist := Function.update s.hist i ulClipLimit, excess := ulSub s.excess (s.hist i - ulUpper) }
  else
    { hist := Function.update s.hist i ((s.hist i + ulBinIncr) % 18446744073709551616)
      excess := ulSub s.excess ulBinIncr }

/-- `uiNrGreylevels / ulNrExcess`, at least 1. -/
def stepSize (uiNrGreylevels ulNrExcess : ℕ) : ℕ :=
  if uiNrGreylevels / ulNrExcess < 1 then 1 else uiNrGreylevels / ulNrExcess

theorem stepSize_pos (n e : ℕ) : 0 < stepSize n e := by
  unfold stepSize
  split_ifs with h
  · exact Nat.one_pos
  · omega

/-- The innermost loop, from the bin `p` on. -/
def spread (uiNrGreylevels ulClipLimit step : ℕ) (hstep : 0 < step) (p : ℕ) (s : Bins ℕ) : Bins ℕ :=
  if p < uiNrGreylevels ∧ s.excess ≠ 0 then
    spread uiNrGreylevels ulClipLimit step hstep (p + step) (giveOne ulClipLimit s p)
  else s
termination_by uiNrGreylevels - p

/-- The loop around it, with `pulHisto` at each bin in turn. -/
def redistribute (uiNrGreylevels ulClipLimit : ℕ) (s : Bins ℕ) : Bins ℕ :=
  (List.range uiNrGreylevels).foldl (fun s pulHisto =>
    if s.excess ≠ 0 then
      spread uiNrGreylevels ulClipLimit (stepSize uiNrGreylevels s.excess) (stepSize_pos _ _) pulHisto s
    else s) s

def clipHistogram (fuel uiNrGreylevels ulClipLimit : ℕ) (pulHistogram : ℕ → ℕ) : Option (ℕ → ℕ) :=
  (countExcess uiNrGreylevels ulClipLimit pulHistogram).bind fun ulNrExcess =>
    let ulBinIncr := ulNrExcess / uiNrGreylevels
    let ulUpper := ulSub ulClipLimit ulBinIncr
    let s := (List.range uiNrGreylevels).foldl (clipBin ulClipLimit ulBinIncr ulUpper) ⟨pulHistogram, ulNrExcess⟩
    (whileLeft (redistribute uiNrGreylevels ulClipLimit) fuel s).map Bins.hist

/-- The checks of `CLAHE`, before the clip limit is looked at. -/
def claheCheck (uiXRes uiYRes : ℕ) (min max : UInt8) (uiNrX uiNrY : ℕ) : Option ℤ :=
  if uiMaxRegX < uiNrX then some (-1)
  else if uiMaxRegY < uiNrY then some (-2)
  else if uiXRes % uiNrX ≠ 0 then some (-3)
  else if uiYRes % uiNrY ≠ 0 then some (-4)
  else if 256 ≤ max.toNat then some (-5)
  else if max ≤ min then some (-6)
  else if uiNrX < 2 ∨ uiNrY < 2 then some (-7)
  else none

/-- The number of pixels of a region, as an `unsigned int`, times the normalised limit over the number of bins. -/
def scaledLimit (s : ClaheSize) (fCliplimit : ℚ) : ℕ :=
  ⌊fCliplimit * (s.uiXSize * s.uiYSize % 4294967296 : ℕ) / 256⌋₊

/-- `ulClipLimit`, if the value is an `unsigned long`. -/
def claheClipLimit (s : ClaheSize) (fCliplimit : ℚ) : Option ℕ :=
  if 0 < fCliplimit then
    if scaledLimit s fCliplimit < 18446744073709551616 then
      some (if scaledLimit s fCliplimit < 1 then 1 else scaledLimit s fCliplimit)
    else none
  else some 16384

/-- The histograms that `imlib_clahe_histeq` gives to `ClipHistogram`, in order, if each call ends. -/
def clipCalls {Pixel : Type} (s : ClaheSize) (toGray : Pixel → UInt8) (img : ℕ × ℕ → Pixel) (clipLimit : ℚ) :
    List (ℕ → ℕ) :=
  if claheCheck s.pImageW s.pImageH 0 255 s.xTileSize s.yTileSize ≠ none then []
  else if clipLimit = 1 then []
  else (regionHistograms s (makeLut 0 255 256) (copyIn s toGray img)).map Tally.hist

/-! ### What a call should do -/

/-- The call ends. -/
def ClipEnds (n limit : ℕ) (hist : ℕ → ℕ) : Prop := ∃ fuel hist', clipHistogram fuel n limit hist = some hist'

/-- The call ends, keeps the total, and leaves no bin above the limit. -/
def ClipOk (n limit : ℕ) (hist : ℕ → ℕ) : Prop := ∃ fuel hist', clipHistogram fuel n limit hist = some hist' ∧
  ∑ i ∈ Finset.range n, hist' i = ∑ i ∈ Finset.range n, hist i ∧ ∀ i < n, hist' i ≤ limit

/-- Every call that is made is right: one is made if those before it have ended. -/
def EveryCallOk {Pixel : Type} (s : ClaheSize) (toGray : Pixel → UInt8) (img : ℕ × ℕ → Pixel) (clipLimit : ℚ) : Prop :=
  ∀ done hist rest, clipCalls s toGray img clipLimit = done ++ hist :: rest →
    (∀ h ∈ done, ∃ limit, claheClipLimit s clipLimit = some limit ∧ ClipEnds 256 limit h) →
      ∃ limit, claheClipLimit s clipLimit = some limit ∧ ClipOk 256 limit hist

/-- The mean of what is above the limit. -/
def meanExcess (n limit : ℕ) (hist : ℕ → ℕ) : ℕ := (∑ i ∈ Finset.range n, (hist i - limit)) / n

/-- The bins that are set to the limit although they are not above it. -/
def highBins (n limit : ℕ) (hist : ℕ → ℕ) : Finset ℕ :=
  (Finset.range n).filter fun i => limit - meanExcess n limit hist < hist i ∧ hist i ≤ limit

/-- The bins have room for the total, and what the high bins get is what is taken for them. A limit that is negative as
    a `long` counts all bins as excess, which has to vanish. -/
def Clippable (n limit : ℕ) (hist : ℕ → ℕ) : Prop :=
  if limit < 9223372036854775808 then
    ∑ i ∈ Finset.range n, hist i ≤ n * limit ∧
      ∑ i ∈ highBins n limit hist, (limit - hist i) =
        ∑ i ∈ highBins n limit hist, (hist i - (limit - meanExcess n limit hist))
  else (∀ i < n, 9223372036854775808 + hist i < limit) ∧
    (18446744073709551616 : ℤ) ∣ n * limit - ∑ i ∈ Finset.range n, (hist i : ℤ)

/-! ### Putting back what is left -/

section Redistribute
variable {n limit step : ℕ}

theorem spread_filled (hstep : 0 < step) (p : ℕ) (s : Bins ℕ) :
    Filled (Finset.range n) limit s (spread n limit step hstep p s) := by
  fun_induction spread n limit step hstep p s with
  | case1 p s h ih => exact (Filled.giveOne s (Finset.mem_range.mpr h.1)).trans ih
  | case2 p s h => exact Filled.refl s

/-- The bin that a pass begins with gets one. -/
theorem spread_lt (hstep : 0 < step) {p : ℕ} {s : Bins ℕ} (hp : p < n) (hexcess : s.excess ≠ 0)
    (hlt : s.hist p < limit) : (spread n limit step hstep p s).excess < s.excess := by
  rw [spread, if_pos ⟨hp, hexcess⟩]
  exact (spread_filled hstep _ _).excess_le.trans_lt (giveOne_lt hexcess hlt)

theorem redistribute_round_filled (n limit : ℕ) (s : Bins ℕ) (p : ℕ) : Filled (Finset.range n) limit s
    (if s.excess ≠ 0 then spread n limit (stepSize n s.excess) (stepSize_pos _ _) p s else s) := by
  split_ifs with h
  · exact spread_filled _ p s
  · exact Filled.refl s

theorem redistribute_filled (n limit : ℕ) (s : Bins ℕ) : Filled (Finset.range n) limit s (redistribute n limit s) :=
  filled_foldl _ (fun p _ s => redistribute_round_filled n limit s p) s

/-- A round misses no bin. -/
theorem redistribute_lt {s : Bins ℕ} (hexcess : s.excess ≠ 0) (hex : ∃ q ∈ Finset.range n, s.hist q < limit) :
    (redistribute n limit s).excess < s.excess := by
  obtain ⟨q, hq, hlt⟩ := hex
  have hqn := Finset.mem_range.mp hq
  refine lt_of_le_of_ne (redistribute_filled n limit s).excess_le fun heq => ?_
  have hsame := foldl_same (fun p _ s => redistribute_round_filled n limit s p) heq q (List.mem_range.mpr hqn)
  rw [if_pos hexcess] at hsame
  have hless := spread_lt (stepSize_pos n s.excess) hqn hexcess hlt
  rw [hsame] at hless
  exact absurd hless (lt_irrefl _)

theorem redistribute_ends_iff (s : Bins ℕ) : (∃ fuel s', whileLeft (redistribute n limit) fuel s = some s') ↔
    s.excess ≤ room (Finset.range n) limit s.hist :=
  whileLeft_ends_iff (redistribute_filled n limit) fun _ => redistribute_lt

end Redistribute

/-! ### The second loop -/

section Clip
variable {n limit incr upper : ℕ}

/-- What the second loop makes of a bin. -/
def clipped (limit incr upper h : ℕ) : ℕ := if limit < h then limit else if upper < h then limit else h + incr

/-- What it takes from the excess for it. -/
def taken (limit incr upper h : ℕ) : ℕ := if limit < h then 0 else if upper < h then h - upper else incr

theorem ulSub_of_le {a b : ℕ} (hle : b ≤ a) (hlt : a < 18446744073709551616) : ulSub a b = a - b := by
  unfold ulSub
  omega

theorem clipBin_eq {s : Bins ℕ} {i : ℕ} (hle : taken limit incr upper (s.hist i) ≤ s.excess)
    (hlt : s.excess < 18446744073709551616) (hbin : s.hist i + incr < 18446744073709551616) :
    clipBin limit incr upper s i = { hist := Function.update s.hist i (clipped limit incr upper (s.hist i))
                                     excess := s.excess - taken limit incr upper (s.hist i) } := by
  unfold clipBin clipped taken at *
  split_ifs at * with h1 h2
  · rfl
  · rw [ulSub_of_le hle hlt]
  · rw [ulSub_of_le hle hlt, Nat.mod_eq_of_lt hbin]

theorem foldl_clipBin (hist : ℕ → ℕ) {e : ℕ} (he : e < 18446744073709551616)
    (hbin : ∀ i < n, hist i + incr < 18446744073709551616) :
    ∀ m ≤ n, ∑ i ∈ Finset.range m, taken limit incr upper (hist i) ≤ e →
      (List.range m).foldl (clipBin limit incr upper) ⟨hist, e⟩ =
        { hist := fun i => if i < m then clipped limit incr upper (hist i) else hist i
          excess := e - ∑ i ∈ Finset.range m, taken limit incr upper (hist i) }
  | 0, _, _ => by simp
  | m + 1, hm, hle => by
      rw [Finset.sum_range_succ] at hle
      rw [List.range_succ, List.foldl_append, foldl_clipBin hist he hbin m (by omega) (by omega), List.foldl_cons,
        List.foldl_nil, clipBin_eq]
      · simp only [lt_irrefl, if_false, Bins.mk.injEq]
        refine ⟨?_, ?_⟩
        · funext i
          by_cases hi : i = m
          · simp [hi]
          · have hiff : i < m + 1 ↔ i < m := by omega
            simp [hi, hiff]
        · rw [Finset.sum_range_succ]
          omega
      · simp only [lt_irrefl, if_false]
        omega
      · simp only
        omega
      · simp only [lt_irrefl, if_false]
        exact hbin m (by omega)

/-- The whole call, given what has been counted. -/
theorem clipOk_iff_state {hist : ℕ → ℕ} {e : ℕ} (hcount : countExcess n limit hist = some e)
    (he : e < 18446744073709551616) (hbin : ∀ i < n, hist i + e / n < 18446744073709551616)
    (htaken : ∑ i ∈ Finset.range n, taken limit (e / n) (ulSub limit (e / n)) (hist i) ≤ e) :
    ClipOk n limit hist ↔
      e - ∑ i ∈ Finset.range n, taken limit (e / n) (ulSub limit (e / n)) (hist i) ≤
          ∑ i ∈ Finset.range n, (limit - clipped limit (e / n) (ulSub limit (e / n)) (hist i)) ∧
        ∑ i ∈ Finset.range n, clipped limit (e / n) (ulSub limit (e / n)) (hist i) +
          (e - ∑ i ∈ Finset.range n, taken limit (e / n) (ulSub limit (e / n)) (hist i)) =
            ∑ i ∈ Finset.range n, hist i ∧
        ∀ i < n, clipped limit (e / n) (ulSub limit (e / n)) (hist i) ≤ limit := by
  have hspec := whileLeft_spec_iff (s := (List.range n).foldl (clipBin limit (e / n) (ulSub limit (e / n))) ⟨hist, e⟩)
    (redistribute_filled n limit) (fun _ => redistribute_lt) (∑ i ∈ Finset.range n, hist i)
  have hcall : ClipOk n limit hist ↔ ∃ fuel s', whileLeft (redistribute n limit) fuel
      ((List.range n).foldl (clipBin limit (e / n) (ulSub limit (e / n))) ⟨hist, e⟩) = some s' ∧
        ∑ i ∈ Finset.range n, s'.hist i = ∑ i ∈ Finset.range n, hist i ∧ ∀ i ∈ Finset.range n, s'.hist i ≤ limit := by
    simp only [ClipOk, clipHistogram, hcount, Option.bind_some, Option.map_eq_some_iff, Finset.mem_range]
    constructor
    · rintro ⟨fuel, _, ⟨s', hs', rfl⟩, h⟩
      exact ⟨fuel, s', hs', h⟩
    · rintro ⟨fuel, s', hs', h⟩
      exact ⟨fuel, _, ⟨s', hs', rfl⟩, h⟩
  have hhist : ∀ i ∈ Finset.range n, (if i < n then clipped limit (e / n) (ulSub limit (e / n)) (hist i) else hist i) =
      clipped limit (e / n) (ulSub limit (e / n)) (hist i) := fun i hi => if_pos (Finset.mem_range.mp hi)
  rw [hcall, hspec, foldl_clipBin hist he hbin n (le_refl n) htaken]
  simp only [room]
  rw [Finset.sum_congr rfl hhist, Finset.sum_congr rfl fun i hi => congrArg (limit - ·) (hhist i hi)]
  refine and_congr_right fun _ => and_congr_right fun _ => ?_
  refine forall_congr' fun i => ?_
  rw [Finset.mem_range]
  refine forall_congr' fun hi => ?_
  rw [if_pos hi]

end Clip

/-! ### The first loop -/

section Count
variable {n limit : ℕ} {hist : ℕ → ℕ}

theorem addExcess_of_lt {e h : ℕ} (hlimit : limit < 9223372036854775808) (hh : h < 9223372036854775808)
    (he : e + (h - limit) < 18446744073709551616) : addExcess limit e h = some (e + (h - limit)) := by
  have hdiff : toLong h - toLong limit = (h : ℤ) - limit := by
    rw [toLong, toLong, if_pos hh, if_pos hlimit]
  rw [addExcess, hdiff, if_pos (by omega)]
  split_ifs with hpos
  · have htoNat : ((h : ℤ) - limit).toNat = h - limit := by omega
    rw [htoNat, Nat.mod_eq_of_lt he]
  · have hzero : h - limit = 0 := by omega
    rw [hzero, Nat.add_zero]

/-- A limit that is negative as a `long`. -/
theorem addExcess_of_le {e h : ℕ} (hlimit : 9223372036854775808 ≤ limit) (hlt : limit < 18446744073709551616)
    (hh : h < 9223372036854775808) : addExcess limit e h =
      if 9223372036854775808 + h < limit then
        some ((e + (h + 18446744073709551616 - limit)) % 18446744073709551616)
      else none := by
  have hdiff : toLong h - toLong limit = (h : ℤ) - (limit - 18446744073709551616) := by
    rw [toLong, toLong, if_pos hh, if_neg (by omega)]
  rw [addExcess, hdiff]
  split_ifs with h1 h2 h3
  · have htoNat : ((h : ℤ) - (limit - 18446744073709551616)).toNat = h + 18446744073709551616 - limit := by omega
    rw [htoNat]
  · omega
  · omega
  · omega
  · omega
  · rfl

theorem le_sum {i : ℕ} (hi : i < n) : hist i ≤ ∑ j ∈ Finset.range n, hist j :=
  Finset.single_le_sum (fun _ _ => Nat.zero_le _) (Finset.mem_range.mpr hi)

theorem countExcess_of_lt (hlimit : limit < 9223372036854775808)
    (hsum : ∑ i ∈ Finset.range n, hist i < 9223372036854775808) :
    countExcess n limit hist = some (∑ i ∈ Finset.range n, (hist i - limit)) := by
  induction n with
  | zero => rfl
  | succ n ih =>
    rw [Finset.sum_range_succ] at hsum
    rw [countExcess] at ih ⊢
    have hle : ∑ i ∈ Finset.range n, (hist i - limit) ≤ ∑ i ∈ Finset.range n, hist i :=
      Finset.sum_le_sum fun i _ => Nat.sub_le _ _
    rw [List.range_succ, List.foldlM_append, ih (by omega), Finset.sum_range_succ]
    show (addExcess limit _ (hist n)).bind _ = _
    rw [addExcess_of_lt hlimit (by omega) (by omega)]
    rfl

theorem countExcess_of_le (hlimit : 9223372036854775808 ≤ limit) (hlt : limit < 18446744073709551616)
    (hbound : ∀ i < n, 9223372036854775808 + hist i < limit) :
    countExcess n limit hist =
      some ((∑ i ∈ Finset.range n, (hist i + 18446744073709551616 - limit)) % 18446744073709551616) := by
  induction n with
  | zero => rfl
  | succ n ih =>
    have hn := hbound n (Nat.lt_succ_self n)
    rw [countExcess] at ih ⊢
    rw [List.range_succ, List.foldlM_append, ih fun i hi => hbound i (by omega), Finset.sum_range_succ]
    show (addExcess limit _ (hist n)).bind _ = _
    rw [addExcess_of_le hlimit hlt (by omega), if_pos hn, Nat.mod_add_mod]
    rfl

/-- The difference of a bin and the limit has to be a `long`. -/
theorem bound_of_countExcess {e : ℕ} (hlimit : 9223372036854775808 ≤ limit) (hlt : limit < 18446744073709551616)
    (hbins : ∀ i < n, hist i < 9223372036854775808) (hcount : countExcess n limit hist = some e) :
    ∀ i < n, 9223372036854775808 + hist i < limit := by
  intro i hi
  obtain ⟨s, t, hst⟩ := exists_of_foldlM hcount i (List.mem_range.mpr hi)
  rw [addExcess_of_le hlimit hlt (hbins i hi)] at hst
  by_contra hno
  rw [if_neg hno] at hst
  exact absurd hst (Option.some_ne_none t).symm

end Count

/-! ### When a call is right -/

section Call
variable {n limit : ℕ} {hist : ℕ → ℕ}

theorem sum_mul_div_le {f : ℕ → ℕ} {e : ℕ} (hle : ∀ i < n, f i ≤ e / n) : ∑ i ∈ Finset.range n, f i ≤ e := by
  have hcard : ∑ i ∈ Finset.range n, f i ≤ ∑ _i ∈ Finset.range n, e / n :=
    Finset.sum_le_sum fun i hi => hle i (Finset.mem_range.mp hi)
  rw [Finset.sum_const, Finset.card_range, smul_eq_mul] at hcard
  exact hcard.trans (Nat.mul_div_le e n)

/-- What is put into the bins and what is taken for it differ at the high bins only. -/
theorem clipped_balance {incr h : ℕ} (hincr : incr ≤ limit) :
    (limit - clipped limit incr (limit - incr) h) + taken limit incr (limit - incr) h +
        (if limit - incr < h ∧ h ≤ limit then limit - h else 0) =
      (limit - h) + (if limit - incr < h ∧ h ≤ limit then h - (limit - incr) else 0) ∧
    clipped limit incr (limit - incr) h + (h - limit) +
        (if limit - incr < h ∧ h ≤ limit then h - (limit - incr) else 0) =
      h + taken limit incr (limit - incr) h + (if limit - incr < h ∧ h ≤ limit then limit - h else 0) := by
  unfold clipped taken
  split_ifs with h1 h2 h3 h4
  · omega
  · omega
  · omega
  · omega
  · omega
  · omega

/-- The mean fits under the limit. -/
theorem clipOk_iff_of_mean_le (hlimit : limit < 9223372036854775808)
    (hsum : ∑ i ∈ Finset.range n, hist i < 9223372036854775808) (hmean : meanExcess n limit hist ≤ limit) :
    ClipOk n limit hist ↔ Clippable n limit hist := by
  have hcount := countExcess_of_lt hlimit hsum
  have hexcess : ∑ i ∈ Finset.range n, (hist i - limit) ≤ ∑ i ∈ Finset.range n, hist i :=
    Finset.sum_le_sum fun i _ => Nat.sub_le _ _
  have hupper : ulSub limit (meanExcess n limit hist) = limit - meanExcess n limit hist := ulSub_of_le hmean (by omega)
  have htaken : ∑ i ∈ Finset.range n, taken limit (meanExcess n limit hist) (limit - meanExcess n limit hist) (hist i) ≤
      ∑ i ∈ Finset.range n, (hist i - limit) := by
    refine sum_mul_div_le fun i _ => ?_
    show _ ≤ meanExcess n limit hist
    unfold taken
    split_ifs
    · omega
    · omega
    · omega
  have hbin : ∀ i < n, hist i + meanExcess n limit hist < 18446744073709551616 := by
    intro i hi
    have hle : hist i ≤ ∑ j ∈ Finset.range n, hist j := le_sum hi
    omega
  have hiff := clipOk_iff_state hcount (by omega) hbin
    (by rwa [show (∑ i ∈ Finset.range n, (hist i - limit)) / n = meanExcess n limit hist from rfl, hupper])
  rw [show (∑ i ∈ Finset.range n, (hist i - limit)) / n = meanExcess n limit hist from rfl, hupper] at hiff
  have hbelow : ∀ i < n,
      clipped limit (meanExcess n limit hist) (limit - meanExcess n limit hist) (hist i) ≤ limit := by
    intro i _
    unfold clipped
    split_ifs
    · omega
    · omega
    · omega
  -- the balance of each bin, added up
  have hroom := Finset.sum_congr rfl fun i (_ : i ∈ Finset.range n) => (clipped_balance (h := hist i) hmean).1
  have htotal := Finset.sum_congr rfl fun i (_ : i ∈ Finset.range n) => (clipped_balance (h := hist i) hmean).2
  have hall : ∑ i ∈ Finset.range n, hist i + ∑ i ∈ Finset.range n, (limit - hist i) =
      n * limit + ∑ i ∈ Finset.range n, (hist i - limit) := by
    rw [← Finset.sum_add_distrib, Finset.sum_congr rfl fun i _ =>
      (by omega : hist i + (limit - hist i) = limit + (hist i - limit)), Finset.sum_add_distrib, Finset.sum_const,
      Finset.card_range, smul_eq_mul]
  simp only [Finset.sum_add_distrib] at hroom htotal
  rw [hiff, Clippable, if_pos hlimit, highBins, Finset.sum_filter, Finset.sum_filter]
  constructor
  · rintro ⟨h1, h2, -⟩
    exact ⟨by omega, by omega⟩
  · rintro ⟨h1, h2⟩
    exact ⟨by omega, by omega, hbelow⟩

/-- The mean does not fit: a bin that was low is above the limit then, or all are full and something is left. -/
theorem not_clipOk_of_lt_mean (hlimit : limit < 9223372036854775808)
    (hsum : ∑ i ∈ Finset.range n, hist i < 9223372036854775808) (hmean : limit < meanExcess n limit hist) :
    ¬ ClipOk n limit hist ∧ ¬ Clippable n limit hist := by
  have hcount := countExcess_of_lt hlimit hsum
  have hexcess : ∑ i ∈ Finset.range n, (hist i - limit) ≤ ∑ i ∈ Finset.range n, hist i :=
    Finset.sum_le_sum fun i _ => Nat.sub_le _ _
  have hmul : n * meanExcess n limit hist ≤ ∑ i ∈ Finset.range n, (hist i - limit) := Nat.mul_div_le _ _
  have hself : meanExcess n limit hist ≤ ∑ i ∈ Finset.range n, (hist i - limit) := Nat.div_le_self _ _
  have hn : 0 < n := by
    rcases Nat.eq_zero_or_pos n with rfl | h
    · simp [meanExcess] at hmean
    · exact h
  have hupper : ∀ i < n, ¬ ulSub limit (meanExcess n limit hist) < hist i := by
    intro i hi
    have hle : hist i ≤ ∑ j ∈ Finset.range n, hist j := le_sum hi
    unfold ulSub
    omega
  have htaken : ∑ i ∈ Finset.range n,
      taken limit (meanExcess n limit hist) (ulSub limit (meanExcess n limit hist)) (hist i) ≤
        ∑ i ∈ Finset.range n, (hist i - limit) := by
    refine sum_mul_div_le fun i hi => ?_
    show _ ≤ meanExcess n limit hist
    rw [taken, if_neg (hupper i hi)]
    split_ifs
    · exact Nat.zero_le _
    · exact le_refl _
  have hbin : ∀ i < n, hist i + meanExcess n limit hist < 18446744073709551616 := by
    intro i hi
    have hle : hist i ≤ ∑ j ∈ Finset.range n, hist j := le_sum hi
    omega
  have hiff := clipOk_iff_state hcount (by omega) hbin htaken
  rw [show (∑ i ∈ Finset.range n, (hist i - limit)) / n = meanExcess n limit hist from rfl] at hiff
  constructor
  · rw [hiff]
    rintro ⟨hroom, -, hbelow⟩
    have hhigh : ∀ i < n, limit < hist i := by
      intro i hi
      have hle := hbelow i hi
      rw [clipped, if_neg (hupper i hi)] at hle
      by_contra hno
      rw [if_neg hno] at hle
      omega
    have hnone : ∑ i ∈ Finset.range n,
        taken limit (meanExcess n limit hist) (ulSub limit (meanExcess n limit hist)) (hist i) = 0 :=
      Finset.sum_eq_zero fun i hi => if_pos (hhigh i (Finset.mem_range.mp hi))
    have hfull : ∑ i ∈ Finset.range n,
        (limit - clipped limit (meanExcess n limit hist) (ulSub limit (meanExcess n limit hist)) (hist i)) = 0 := by
      refine Finset.sum_eq_zero fun i hi => ?_
      rw [clipped, if_pos (hhigh i (Finset.mem_range.mp hi)), Nat.sub_self]
    rw [hnone, hfull] at hroom
    omega
  · rw [Clippable, if_pos hlimit]
    rintro ⟨hle, -⟩
    have hlt : n * limit < n * meanExcess n limit hist := Nat.mul_lt_mul_of_pos_left hmean hn
    omega

/-- A limit that is negative as a `long`. -/
theorem clipOk_iff_of_le (hn : 2 ≤ n) (hlimit : 9223372036854775808 ≤ limit) (hlt : limit < 18446744073709551616)
    (hsum : ∑ i ∈ Finset.range n, hist i < 9223372036854775808) : ClipOk n limit hist ↔ Clippable n limit hist := by
  have hbins : ∀ i < n, hist i < 9223372036854775808 := fun i hi => (le_sum hi).trans_lt hsum
  rw [Clippable, if_neg (by omega)]
  by_cases hbound : ∀ i < n, 9223372036854775808 + hist i < limit
  · have hcount := countExcess_of_le hlimit hlt hbound
    obtain ⟨e, he⟩ : ∃ e, e = (∑ i ∈ Finset.range n, (hist i + 18446744073709551616 - limit)) %
      18446744073709551616 := ⟨_, rfl⟩
    rw [← he] at hcount
    have helt : e < 18446744073709551616 := by
      rw [he]
      exact Nat.mod_lt _ (by decide)
    have hmean : e / n < 9223372036854775808 := by
      rw [Nat.div_lt_iff_lt_mul (by omega)]
      omega
    have hupper : ulSub limit (e / n) = limit - e / n := ulSub_of_le (by omega) hlt
    have hlow : ∀ i < n, ¬ limit < hist i ∧ ¬ limit - e / n < hist i := by
      intro i hi
      have hb := hbound i hi
      omega
    have hclipped : ∀ i ∈ Finset.range n, clipped limit (e / n) (limit - e / n) (hist i) = hist i + e / n := by
      intro i hi
      obtain ⟨h1, h2⟩ := hlow i (Finset.mem_range.mp hi)
      rw [clipped, if_neg h1, if_neg h2]
    have htaken : ∑ i ∈ Finset.range n, taken limit (e / n) (limit - e / n) (hist i) = n * (e / n) := by
      have heach : ∀ i ∈ Finset.range n, taken limit (e / n) (limit - e / n) (hist i) = e / n := by
        intro i hi
        obtain ⟨h1, h2⟩ := hlow i (Finset.mem_range.mp hi)
        rw [taken, if_neg h1, if_neg h2]
      rw [Finset.sum_congr rfl heach, Finset.sum_const, Finset.card_range, smul_eq_mul]
    have hdiv := Nat.div_add_mod e n
    have hmod := Nat.mod_lt e (show 0 < n by omega)
    have hbin : ∀ i < n, hist i + e / n < 18446744073709551616 := by
      intro i hi
      have hb := hbound i hi
      omega
    have hiff := clipOk_iff_state hcount helt hbin (by rw [hupper, htaken]; omega)
    rw [hupper, htaken, Finset.sum_congr rfl hclipped, Finset.sum_add_distrib, Finset.sum_const, Finset.card_range,
      smul_eq_mul, Finset.sum_congr rfl fun i hi => congrArg (limit - ·) (hclipped i hi)] at hiff
    have hroom : n ≤ ∑ i ∈ Finset.range n, (limit - (hist i + e / n)) := by
      have hcard : ∑ _i ∈ Finset.range n, 1 ≤ ∑ i ∈ Finset.range n, (limit - (hist i + e / n)) := by
        refine Finset.sum_le_sum fun i hi => ?_
        have hb := hbound i (Finset.mem_range.mp hi)
        omega
      simpa using hcard
    have hzero : ClipOk n limit hist ↔ e = 0 := by
      rw [hiff]
      constructor
      · rintro ⟨-, htotal, -⟩
        omega
      · rintro rfl
        refine ⟨by omega, by simp, fun i hi => ?_⟩
        rw [hclipped i (Finset.mem_range.mpr hi)]
        have hb := hbound i hi
        omega
    have hcast : ((∑ i ∈ Finset.range n, (hist i + 18446744073709551616 - limit) : ℕ) : ℤ) =
        ∑ i ∈ Finset.range n, (hist i : ℤ) + n * 18446744073709551616 - n * limit := by
      rw [Nat.cast_sum, Finset.sum_congr rfl fun i _ =>
        (by omega : ((hist i + 18446744073709551616 - limit : ℕ) : ℤ) = (hist i : ℤ) + (18446744073709551616 - limit)),
        Finset.sum_add_distrib, Finset.sum_const, Finset.card_range, nsmul_eq_mul]
      ring
    rw [hzero, he, ← Nat.dvd_iff_mod_eq_zero, ← Int.natCast_dvd_natCast, hcast]
    constructor
    · intro hdvd
      refine ⟨hbound, ?_⟩
      omega
    · rintro ⟨-, hdvd⟩
      omega
  · refine iff_of_false ?_ fun h => hbound h.1
    rintro ⟨fuel, hist', h, -⟩
    rw [clipHistogram] at h
    obtain ⟨e, hcount, -⟩ := Option.bind_eq_some_iff.mp h
    exact hbound (bound_of_countExcess hlimit hlt hbins hcount)

theorem clipOk_iff (hn : 2 ≤ n) (hlt : limit < 18446744073709551616)
    (hsum : ∑ i ∈ Finset.range n, hist i < 9223372036854775808) : ClipOk n limit hist ↔ Clippable n limit hist := by
  rcases Nat.lt_or_ge limit 9223372036854775808 with hlimit | hlimit
  · rcases Nat.lt_or_ge limit (meanExcess n limit hist) with hmean | hmean
    · obtain ⟨h1, h2⟩ := not_clipOk_of_lt_mean hlimit hsum hmean
      exact iff_of_false h1 h2
    · exact clipOk_iff_of_mean_le hlimit hsum hmean
  · exact clipOk_iff_of_le hn hlimit hlt hsum

end Call

/-! ### The calls -/

/-- Every pixel of a region is counted once. -/
theorem makeHistogram_total {lut : UInt8 → UInt8} {mem : GrayMemory} {uiXRes uiSizeX : ℕ} (hle : uiSizeX ≤ uiXRes)
    (uiSizeY p : ℕ) : ∑ i ∈ Finset.range 256, (makeHistogram lut mem uiXRes uiSizeX uiSizeY p).hist i =
      uiSizeY * uiSizeX := by
  rw [← length_blockAddrs, ← makeHistogram_accesses hle uiSizeY p]
  refine tour_induct _ _ _ _ (P := fun t : Tally => ∑ i ∈ Finset.range 256, t.hist i = t.accesses.length) ?_
    Finset.sum_const_zero
  intro _ _ pImage t ht
  have hmem : (lut (mem pImage)).toNat ∈ Finset.range 256 := Finset.mem_range.mpr (lut (mem pImage)).toNat_lt
  have hupdate := Finset.sum_update_of_mem hmem t.hist (t.hist (lut (mem pImage)).toNat + 1)
  have hrest := Finset.add_sum_erase _ t.hist hmem
  rw [← Finset.erase_eq] at hupdate
  simp only [countPixel, List.length_append, List.length_singleton]
  omega

section Calls
variable {Pixel : Type} {s : ClaheSize} {toGray : Pixel → UInt8} {img : ℕ × ℕ → Pixel} {clipLimit : ℚ}

theorem claheCheck_eq_none (s : ClaheSize) :
    claheCheck s.pImageW s.pImageH 0 255 s.xTileSize s.yTileSize = none := by
  obtain ⟨hx2, hx16⟩ := s.xTileSize_bounds
  obtain ⟨hy2, hy16⟩ := s.yTileSize_bounds
  have hmodX : s.pImageW % s.xTileSize = 0 := by rw [← s.xTileSize_mul, Nat.mul_mod_right]
  have hmodY : s.pImageH % s.yTileSize = 0 := by rw [← s.yTileSize_mul, Nat.mul_mod_right]
  rw [claheCheck, if_neg (by unfold uiMaxRegX; omega), if_neg (by unfold uiMaxRegY; omega), if_neg (by omega),
    if_neg (by omega), if_neg (by decide), if_neg (by decide), if_neg (by omega)]

theorem sum_of_mem_clipCalls {hist : ℕ → ℕ} (hmem : hist ∈ clipCalls s toGray img clipLimit) :
    ∑ i ∈ Finset.range 256, hist i = s.uiYSize * s.uiXSize := by
  unfold clipCalls at hmem
  split_ifs at hmem with h1 h2
  · simp at hmem
  · simp at hmem
  · obtain ⟨t, ht, rfl⟩ := List.mem_map.mp hmem
    obtain ⟨p, rfl⟩ := s.exists_of_mem_regionHistograms _ _ ht
    exact makeHistogram_total s.uiXSize_le _ p

theorem region_lt (s : ClaheSize) : s.uiYSize * s.uiXSize < 2147483648 := by
  have hle : s.uiYSize * s.uiXSize ≤ s.pImageH * s.pImageW :=
    Nat.mul_le_mul (Nat.div_le_self _ _) (Nat.div_le_self _ _)
  rw [Nat.mul_comm s.pImageH] at hle
  exact hle.trans_lt s.fits'

theorem claheClipLimit_lt {limit : ℕ} (hlimit : claheClipLimit s clipLimit = some limit) :
    limit < 18446744073709551616 := by
  unfold claheClipLimit at hlimit
  split_ifs at hlimit with h1 h2 h3
  · obtain rfl := Option.some.inj hlimit
    decide
  · obtain rfl := Option.some.inj hlimit
    exact h2
  · obtain rfl := Option.some.inj hlimit
    decide

/-- If each element has `Q` as soon as those before it have `P`, and `Q` gives `P`, all have `Q`. -/
theorem forall_of_prefix {α : Type*} {P Q : α → Prop} (hQP : ∀ a, Q a → P a) : ∀ l : List α,
    (∀ done a rest, l = done ++ a :: rest → (∀ b ∈ done, P b) → Q a) → ∀ a ∈ l, Q a
  | [], _ => by simp
  | a :: l, h => by
      have ha : Q a := h [] a l rfl (by simp)
      refine List.forall_mem_cons.mpr ⟨ha, forall_of_prefix hQP l fun done b rest hl hdone => ?_⟩
      refine h (a :: done) b rest (by rw [hl, List.cons_append]) ?_
      exact List.forall_mem_cons.mpr ⟨hQP a ha, hdone⟩

theorem everyCallOk_iff : EveryCallOk s toGray img clipLimit ↔ ∀ hist ∈ clipCalls s toGray img clipLimit,
    ∃ limit, claheClipLimit s clipLimit = some limit ∧ ClipOk 256 limit hist := by
  constructor
  · intro hevery
    refine forall_of_prefix (fun hist => ?_) _ hevery
    rintro ⟨limit, hlimit, fuel, hist', h, -⟩
    exact ⟨limit, hlimit, fuel, hist', h⟩
  · intro hall done hist rest hcalls _
    exact hall hist (by simp [hcalls])

end Calls

/-- Every call of `ClipHistogram` ends, keeps the total and leaves no bin above the limit exactly if there is no call,
    or the limit is an `unsigned long` and the histogram of each region can be clipped with it. -/
theorem imlib_clahe_histeq_clip_iff {Pixel : Type} (s : ClaheSize) (toGray : Pixel → UInt8) (img : ℕ × ℕ → Pixel)
    (clipLimit : ℚ) (hclip : 0 < clipLimit) : EveryCallOk s toGray img clipLimit ↔
      clipLimit = 1 ∨ scaledLimit s clipLimit < 18446744073709551616 ∧
        ∀ t ∈ regionHistograms s (makeLut 0 255 256) (copyIn s toGray img),
          Clippable 256 (max 1 (scaledLimit s clipLimit)) t.hist := by
  rw [everyCallOk_iff]
  by_cases hone : clipLimit = 1
  · have hnone : clipCalls s toGray img clipLimit = [] := by
      rw [clipCalls, if_pos hone, ite_self]
    exact iff_of_true (by simp [hnone]) (Or.inl hone)
  have hcalls : clipCalls s toGray img clipLimit =
      (regionHistograms s (makeLut 0 255 256) (copyIn s toGray img)).map Tally.hist := by
    rw [clipCalls, claheCheck_eq_none, if_neg (not_not.mpr rfl), if_neg hone]
  have hsum : ∀ hist ∈ clipCalls s toGray img clipLimit, ∑ i ∈ Finset.range 256, hist i < 9223372036854775808 := by
    intro hist hmem
    rw [sum_of_mem_clipCalls hmem]
    exact (region_lt s).trans (by decide)
  have hex := s.exists_mem_regionHistograms (makeLut 0 255 256) (copyIn s toGray img)
  have hlimit : scaledLimit s clipLimit < 18446744073709551616 →
      claheClipLimit s clipLimit = some (max 1 (scaledLimit s clipLimit)) := by
    intro hlt
    rw [claheClipLimit, if_pos hclip, if_pos hlt]
    split_ifs
    · rw [max_eq_left (by omega)]
    · rw [max_eq_right (by omega)]
  rw [hcalls] at hsum ⊢
  constructor
  · intro hall
    refine Or.inr ?_
    have hlt : scaledLimit s clipLimit < 18446744073709551616 := by
      obtain ⟨t, ht⟩ := hex
      obtain ⟨limit, hsome, -⟩ := hall t.hist (List.mem_map_of_mem ht)
      by_contra hno
      rw [claheClipLimit, if_pos hclip, if_neg hno] at hsome
      exact absurd hsome (Option.some_ne_none limit).symm
    refine ⟨hlt, fun t ht => ?_⟩
    obtain ⟨limit, hsome, hok⟩ := hall t.hist (List.mem_map_of_mem ht)
    have hbound := claheClipLimit_lt hsome
    rw [hlimit hlt] at hsome
    obtain rfl := Option.some.inj hsome
    exact (clipOk_iff (by decide) hbound (hsum _ (List.mem_map_of_mem ht))).mp hok
  · rintro (h | ⟨hlt, hall⟩)
    · exact absurd h hone
    intro hist hmem
    refine ⟨_, hlimit hlt, ?_⟩
    have hbound := claheClipLimit_lt (hlimit hlt)
    have hlist := hsum hist hmem
    obtain ⟨t, ht, rfl⟩ := List.mem_map.mp hmem
    exact (clipOk_iff (by decide) hbound hlist).mpr (hall t ht)

def square64 : ClaheSize := ⟨64, 64, by decide⟩

/-- A clip limit less than 1: the four regions of a black image have 1024 pixels, and their 256 bins hold 512. -/
theorem clip_limit_half_no_room : ¬ EveryCallOk square64 id (fun _ => 0) (1 / 2) := by
  rw [everyCallOk_iff]
  intro hall
  have hscaled : scaledLimit square64 (1 / 2) = 2 := by
    have hsize : square64.uiXSize * square64.uiYSize % 4294967296 = 1024 := by decide
    rw [scaledLimit, hsize]
    norm_num
  have hlimit : claheClipLimit square64 (1 / 2) = some 2 := by
    rw [claheClipLimit, hscaled, if_pos (by norm_num)]
    rfl
  have hcalls : clipCalls square64 id (fun _ => 0) (1 / 2) =
      (regionHistograms square64 (makeLut 0 255 256) (copyIn square64 id fun _ => 0)).map Tally.hist := by
    rw [clipCalls, claheCheck_eq_none, if_neg (not_not.mpr rfl), if_neg (by norm_num)]
  obtain ⟨t, ht⟩ := square64.exists_mem_regionHistograms (makeLut 0 255 256) (copyIn square64 id fun _ => 0)
  have hmem : t.hist ∈ clipCalls square64 id (fun _ => 0) (1 / 2) := hcalls ▸ List.mem_map_of_mem ht
  have hsum : ∑ i ∈ Finset.range 256, t.hist i = 1024 := sum_of_mem_clipCalls hmem
  obtain ⟨limit, hsome, hok⟩ := hall t.hist hmem
  obtain rfl := Option.some.inj (hlimit.symm.trans hsome)
  rw [clipOk_iff (by decide) (by decide) (by omega), Clippable, if_pos (by decide)] at hok
  omega

theorem imlib_clahe_histeq_clip_iff_half : EveryCallOk square64 id (fun _ => 0) (1 / 2) ↔
    (1 / 2 : ℚ) = 1 ∨ scaledLimit square64 (1 / 2) < 18446744073709551616 ∧
      ∀ t ∈ regionHistograms square64 (makeLut 0 255 256) (copyIn square64 id fun _ => 0),
        Clippable 256 (max 1 (scaledLimit square64 (1 / 2))) t.hist :=
  imlib_clahe_histeq_clip_iff square64 id (fun _ => 0) (1 / 2) (by norm_num)

end OpenMV.Filters
