import OpenMV.Filters.Kernel
import Mathlib.Algebra.Order.Floor.Ring
import Mathlib.Data.Rat.Floor

/-! Median filter | scheme:histogram | source:src/src/openmv/omv/img/filter.c

    `imlib_median_filter` keeps a histogram of the window, 64 levels for a grayscale image and one for each
    channel of an RGB565 image, in counters of eight bits, and adds the counters up from below until
    they reach `percentile * n`. A binary image has only the number of its ones to go by.

    The histogram is that of the original window, modulo 256. The level that is found has the rank
    asked for as long as the rank is at least one and the counters up to it have not lost too much; and
    the binary branch counts from the other end. -/

namespace OpenMV.Filters
open Schemes Vision Io

/-! ### The filter -/

/-- `hist_median`: the index after the last counter that was added, less one, in a `uint8_t`. -/
def histMedian (data : ℕ → ℕ) (len : ℕ) (cutoff : ℤ) : ℕ := (((scan data cutoff len 0 0 : ℤ) - 1) % 256).toNat

/-- `fast_floorf(percentile * (float)n)`; `mulf` is the product as the target computes it. -/
def medianCutoff (mulf : ℚ → ℤ → ℚ) (ksize : ℕ) (percentile : ℚ) : ℤ := ⌊mulf percentile (kernelN ksize)⌋

/-- The level of a grayscale pixel. -/
def grayBin (u : ℕ) : ℕ := (getPixel .grayscale u).toNat >>> 2

def medianBinary (img : Image) (ksize : ℕ) (cutoff : ℤ) (t : Threshold) (mask : Option Image) :
    RowFilter ℕ ℤ :=
  sliding .binary img ksize mask (sumSlider (getPixel .binary)) (fun sum => sum) fun sum orig =>
    thresholdBinary t (if sum ≥ cutoff then 1 else 0) orig

def medianGrayscale (img : Image) (ksize : ℕ) (cutoff : ℤ) (t : Threshold) (mask : Option Image) :
    RowFilter ℕ (ℕ → ℕ) :=
  sliding .grayscale img ksize mask (histSlider 256 grayBin) (fun data => data) fun data orig =>
    thresholdGrayscale t ((histMedian data 64 cutoff * 4 % 256 : ℕ) : ℤ) orig

/-- `r_data`, `g_data` and `b_data` side by side. -/
def medianRgb565 (img : Image) (ksize : ℕ) (cutoff : ℤ) (t : Threshold) (mask : Option Image) :
    RowFilter ℕ ((ℕ → ℕ) × (ℕ → ℕ) × (ℕ → ℕ)) :=
  sliding .rgb565 img ksize mask ((histSlider 256 fun u => (redOf u).toNat).pair
      ((histSlider 256 fun u => (greenOf u).toNat).pair (histSlider 256 fun u => (blueOf u).toNat)))
    (fun data => data) fun data orig => thresholdRgb565 t (colorR5G6B5ToRgb565
      (histMedian data.1 32 cutoff) (histMedian data.2.1 64 cutoff) (histMedian data.2.2 32 cutoff)) orig

/-- `buf` and `data` are what the line buffer and the tables hold when the filter gets them. -/
def imlibMedianFilter (mulf : ℚ → ℤ → ℚ) (buf : ℤ → ℤ → ℕ) (data : ℕ → ℕ → ℕ) (img : Image) (ksize : ℕ)
    (percentile : ℚ) (t : Threshold) (mask : Option Image) : Image :=
  let cutoff := medianCutoff mulf ksize percentile
  match img.bpp with
  | .binary => filtered img (medianBinary img ksize cutoff t mask) buf 0
  | .grayscale => filtered img (medianGrayscale img ksize cutoff t mask) buf (data 0)
  | .rgb565 => filtered img (medianRgb565 img ksize cutoff t mask) buf (data 0, data 1, data 2)
  | .bayer | .jpeg => img

/-- The histograms that a pixel is computed from. -/
def medianData (mulf : ℚ → ℤ → ℚ) (buf : ℤ → ℤ → ℕ) (data : ℕ → ℕ → ℕ) (img : Image) (ksize : ℕ)
    (percentile : ℚ) (t : Threshold) (mask : Option Image) (x y : ℤ) : List (ℕ → ℕ) :=
  let cutoff := medianCutoff mulf ksize percentile
  match img.bpp with
  | .grayscale => [keptAt img (medianGrayscale img ksize cutoff t mask) buf (data 0) x y]
  | .rgb565 =>
    let kept := keptAt img (medianRgb565 img ksize cutoff t mask) buf (data 0, data 1, data 2) x y
    [kept.1, kept.2.1, kept.2.2]
  | .binary | .bayer | .jpeg => []

/-! ### The search -/

theorem histMedian_of_pos (data : ℕ → ℕ) {len : ℕ} {cutoff : ℤ} (hc : 1 ≤ cutoff) (hlen : 0 < len)
    (hlen256 : len ≤ 256) : histMedian data len cutoff = scan data cutoff len 0 0 - 1 ∧
      histMedian data len cutoff < len := by
  obtain ⟨-, hr, -, hafter⟩ := scan_spec data cutoff len 0
  rw [show ((sumBelow data 0 : ℕ) : ℤ) = 0 from rfl, zero_add] at hr hafter
  unfold histMedian
  generalize scan data cutoff len 0 0 = r at *
  have hr0 : 0 < r := by
    rcases Nat.eq_zero_or_pos r with rfl | h
    · rcases hafter with h | h
      · omega
      · rw [show sumBelow data 0 = 0 from rfl] at h
        omega
    · exact h
  omega

theorem histMedian_of_nonpos (data : ℕ → ℕ) {len : ℕ} {cutoff : ℤ} (hc : cutoff ≤ 0) (hlen : 0 < len) :
    histMedian data len cutoff = 255 := by
  obtain ⟨len, rfl⟩ := Nat.exists_eq_succ_of_ne_zero hlen.ne'
  unfold histMedian scan
  rw [if_neg (by omega)]
  rfl

/-- The counters lead to the level that is asked for: there is one of that rank, and it is the last
    level, or the counters up to it still reach the cutoff. -/
def RankKept (cutoff : ℤ) (len : ℕ) (l : List ℕ) : Prop :=
  ∃ v, IsNth (max 1 cutoff) l v ∧
    (v + 1 = len ∨ 1 ≤ cutoff ∧ cutoff ≤ sumBelow (fun j => l.count j % 256) (v + 1))

/-- The level that is found; below rank one the index is -1, and that is the last level when it is
    stored in a pixel. -/
def medianLevel (cutoff : ℤ) (len : ℕ) (l : List ℕ) : ℕ :=
  if 1 ≤ cutoff then histMedian (fun j => l.count j % 256) len cutoff else len - 1

theorem medianLevel_lt (cutoff : ℤ) {len : ℕ} (l : List ℕ) (hlen : 0 < len) (hlen256 : len ≤ 256) :
    medianLevel cutoff len l < len := by
  unfold medianLevel
  split
  · rename_i hc
    exact (histMedian_of_pos _ hc hlen hlen256).2
  · omega

theorem isNth_medianLevel_iff {cutoff : ℤ} {len : ℕ} {l : List ℕ} (hl : ∀ a ∈ l, a < len) (hlen : 0 < len)
    (hlen256 : len ≤ 256) : IsNth (max 1 cutoff) l (medianLevel cutoff len l) ↔ RankKept cutoff len l := by
  unfold medianLevel RankKept
  split
  · rename_i hc
    rw [(histMedian_of_pos _ hc hlen hlen256).1, max_eq_right hc, isNth_scan_iff hl hc hlen]
    simp only [hc, true_and]
  · rename_i hc
    constructor
    · intro h
      exact ⟨len - 1, h, .inl (by omega)⟩
    · rintro ⟨v, hv, hlast⟩
      rwa [show len - 1 = v by omega]

/-- With a rank of at least one and at most 255 pixels nothing is lost. -/
theorem rankKept_of_le {cutoff : ℤ} {len : ℕ} {l : List ℕ} (hl : ∀ a ∈ l, a < len) (h1 : 1 ≤ cutoff)
    (h2 : cutoff ≤ l.length) (h3 : l.length ≤ 255) : RankKept cutoff len l := by
  obtain ⟨v, hv⟩ := exists_isNth h1 h2 hl
  refine ⟨v, by rwa [max_eq_right h1], .inr ⟨h1, ?_⟩⟩
  rw [sumBelow_eq (by omega)]
  exact (isNth_iff.mp hv).2

/-! ### The levels of an image -/

/-- The scale of a channel: the level of a pixel, and how many levels there are. -/
structure Scale where
  level : ℤ → ℕ
  len : ℕ

def medianScales : Bpp → List Scale
  | .grayscale => [⟨fun p => p.toNat >>> 2, 64⟩]
  | .rgb565 => [⟨fun p => (colorRgb565ToR5 p).toNat, 32⟩, ⟨fun p => (colorRgb565ToG6 p).toNat, 64⟩,
      ⟨fun p => (colorRgb565ToB5 p).toNat, 32⟩]
  | .binary | .bayer | .jpeg => []

section Levels

variable (buf : ℤ → ℤ → ℕ) {img : Image} (ksize : ℕ) (cutoff : ℤ) (t : Threshold) {mask : Option Image}
  {x y : ℤ}

theorem medianGrayscale_level (data : ℕ → ℕ) (hb : img.bpp = .grayscale) (ht : t.threshold = false)
    (hm : img.Mem (x, y)) (hs : skipped mask x y = false) :
    let l := windowLevels (fun p => p.toNat >>> 2) img ksize x y
    keptAt img (medianGrayscale img ksize cutoff t mask) buf data x y = (fun j => l.count j % 256) ∧
      (filtered img (medianGrayscale img ksize cutoff t mask) buf data).pixel x y =
        medianLevel cutoff 64 l * 4 := by
  intro l
  have hkept : keptAt img (medianGrayscale img ksize cutoff t mask) buf data x y =
      fun j => l.count j % 256 :=
    (sliding_holds (histSlider_tracks (by norm_num) _ grayBin) hm hs).trans
      (tally_window hb 256 ksize x y fun p => p.toNat >>> 2)
  refine ⟨hkept, ?_⟩
  have hpix : (filtered img (medianGrayscale img ksize cutoff t mask) buf data).pixel x y =
      getPixel .grayscale (putPixel .grayscale (thresholdGrayscale t
        ((histMedian (keptAt img (medianGrayscale img ksize cutoff t mask) buf data x y) 64 cutoff * 4 % 256 :
          ℕ) : ℤ) (img.pixel x y))) :=
    filtered_pixel_of_not hb hm hs
  rw [hpix, hkept, thresholdGrayscale, if_neg (Bool.eq_false_iff.mp ht),
    getPixel_putPixel_of_mem (Int.natCast_nonneg _) (by simp only [levels]; omega)]
  unfold medianLevel
  split
  · rename_i hc
    have := (histMedian_of_pos (fun j => l.count j % 256) hc (show 0 < 64 by norm_num) (by norm_num)).2
    omega
  · rename_i hc
    rw [histMedian_of_nonpos _ (by omega) (by norm_num)]
    rfl

theorem medianRgb565_level (data : (ℕ → ℕ) × (ℕ → ℕ) × (ℕ → ℕ)) (hb : img.bpp = .rgb565)
    (ht : t.threshold = false) (hm : img.Mem (x, y)) (hs : skipped mask x y = false) :
    let r := windowLevels (fun p => (colorRgb565ToR5 p).toNat) img ksize x y
    let g := windowLevels (fun p => (colorRgb565ToG6 p).toNat) img ksize x y
    let b := windowLevels (fun p => (colorRgb565ToB5 p).toNat) img ksize x y
    keptAt img (medianRgb565 img ksize cutoff t mask) buf data x y =
        (fun j => r.count j % 256, fun j => g.count j % 256, fun j => b.count j % 256) ∧
      (filtered img (medianRgb565 img ksize cutoff t mask) buf data).pixel x y =
        medianLevel cutoff 32 r * 2048 + medianLevel cutoff 64 g * 32 + medianLevel cutoff 32 b := by
  intro r g b
  have hkept : keptAt img (medianRgb565 img ksize cutoff t mask) buf data x y =
      (fun j => r.count j % 256, fun j => g.count j % 256, fun j => b.count j % 256) := by
    have hT : ∀ bin : ℕ → ℕ, _ := fun bin =>
      histSlider_tracks (show 0 < 256 by norm_num) ((2 * ksize + 1) ^ 2) bin
    refine (sliding_holds ((hT _).pair_eq ((hT _).pair_eq (hT _))) hm hs).trans ?_
    refine Prod.ext ?_ (Prod.ext ?_ ?_)
    · exact tally_window hb 256 ksize x y fun p => (colorRgb565ToR5 p).toNat
    · exact tally_window hb 256 ksize x y fun p => (colorRgb565ToG6 p).toNat
    · exact tally_window hb 256 ksize x y fun p => (colorRgb565ToB5 p).toNat
  refine ⟨hkept, ?_⟩
  have hpix : (filtered img (medianRgb565 img ksize cutoff t mask) buf data).pixel x y =
      getPixel .rgb565 (putPixel .rgb565 (thresholdRgb565 t (colorR5G6B5ToRgb565
        (histMedian (keptAt img (medianRgb565 img ksize cutoff t mask) buf data x y).1 32 cutoff)
        (histMedian (keptAt img (medianRgb565 img ksize cutoff t mask) buf data x y).2.1 64 cutoff)
        (histMedian (keptAt img (medianRgb565 img ksize cutoff t mask) buf data x y).2.2 32 cutoff))
        (img.pixel x y))) :=
    filtered_pixel_of_not hb hm hs
  have hlt := colorR5G6B5ToRgb565_lt (histMedian (fun j => r.count j % 256) 32 cutoff)
    (histMedian (fun j => g.count j % 256) 64 cutoff) (histMedian (fun j => b.count j % 256) 32 cutoff)
  rw [hpix, hkept, thresholdRgb565, if_neg (Bool.eq_false_iff.mp ht), getPixel_putPixel_rgb565 hlt]
  unfold medianLevel
  split
  · rename_i hc
    have h1 := (histMedian_of_pos (fun j => r.count j % 256) hc (show 0 < 32 by norm_num) (by norm_num)).2
    have h2 := (histMedian_of_pos (fun j => g.count j % 256) hc (show 0 < 64 by norm_num) (by norm_num)).2
    have h3 := (histMedian_of_pos (fun j => b.count j % 256) hc (show 0 < 32 by norm_num) (by norm_num)).2
    exact colorR5G6B5ToRgb565_of_mem ⟨Int.natCast_nonneg _, by omega⟩ ⟨Int.natCast_nonneg _, by omega⟩
      ⟨Int.natCast_nonneg _, by omega⟩
  · rename_i hc
    rw [histMedian_of_nonpos _ (by omega) (by norm_num), histMedian_of_nonpos _ (by omega) (by norm_num),
      histMedian_of_nonpos _ (by omega) (by norm_num)]
    rfl

end Levels

/-- A channel whose level in the pixel is the one that is found for the window. -/
theorem rank_of_level {level : ℤ → ℕ} {len : ℕ} {img : Image} {ksize : ℕ} {x y out cutoff : ℤ}
    (hlev : ∀ i j, level (img.pixel i j) < len) (hlen : 0 < len) (hlen256 : len ≤ 256)
    (hout : level out = medianLevel cutoff len (windowLevels level img ksize x y)) :
    let l := windowLevels level img ksize x y
    (IsNth (max 1 cutoff) l (level out) ↔ RankKept cutoff len l) ∧
      (1 ≤ cutoff → cutoff ≤ ((2 * ksize + 1) ^ 2 : ℕ) → (2 * ksize + 1) ^ 2 ≤ 255 → RankKept cutoff len l) := by
  intro l
  have hl : ∀ a ∈ l, a < len := lt_of_mem_windowLevels hlev
  have hlength : l.length = (2 * ksize + 1) ^ 2 := length_windowLevels level img ksize x y
  refine ⟨?_, fun h1 h2 h3 => rankKept_of_le hl h1 (by rw [hlength]; exact h2) (by omega)⟩
  rw [hout]
  exact isNth_medianLevel_iff hl hlen hlen256

/-- The grayscale image of a binary one, with the levels the median filter gives back. -/
def asGrayscale (img : Image) : Image :=
  ⟨img.w, img.h, .grayscale, fun x y => if img.data x y % 2 = 1 then 252 else 0⟩

theorem windowLevels_asGrayscale (img : Image) (ksize : ℕ) (x y : ℤ) :
    windowLevels (fun p => p.toNat >>> 2) (asGrayscale img) ksize x y =
      (window img.data img.w img.h ksize x y).map fun u => if u % 2 = 1 then 63 else 0 := by
  rw [windowLevels, window_pixel (show (asGrayscale img).bpp = .grayscale from rfl), List.map_map]
  have hdata : window (asGrayscale img).data img.w img.h ksize x y =
      (window img.data img.w img.h ksize x y).map fun u => if u % 2 = 1 then 252 else 0 :=
    window_map (fun u : ℕ => (if u % 2 = 1 then 252 else 0 : ℕ)) img.data img.w img.h ksize x y
  rw [show (asGrayscale img).w = img.w from rfl, show (asGrayscale img).h = img.h from rfl, hdata, List.map_map]
  refine List.map_congr_left fun u _ => ?_
  dsimp only [Function.comp]
  split <;> rfl

/-- The pixels below a level in between are the zeros. -/
theorem countP_lt_add_sum {j : ℕ} (h1 : 0 < j) (h2 : j < 64) : ∀ us : List ℕ,
    (((us.map fun u => if u % 2 = 1 then 63 else 0).countP (· < j) : ℕ) : ℤ) +
      (us.map (getPixel .binary)).sum = us.length
  | [] => rfl
  | u :: us => by
      have ih := countP_lt_add_sum h1 h2 us
      rw [List.map_cons, List.map_cons, List.countP_cons, List.sum_cons, List.length_cons]
      have hu : getPixel .binary u = (u % 2 : ℕ) := rfl
      rcases Nat.mod_two_eq_zero_or_one u with h | h
      · simp only [h, hu, Nat.zero_ne_one, if_false, h1, decide_true, if_true]
        push_cast
        omega
      · have hj : ¬ 63 < j := by omega
        simp only [h, hu, if_true, hj, decide_false, Bool.false_eq_true, if_false]
        push_cast
        omega

/-- A grayscale pixel comes out white when the zeros do not reach the cutoff. -/
theorem medianLevel_asGrayscale (img : Image) {ksize : ℕ} (hb : img.bpp = .binary)
    (hn : (2 * ksize + 1) ^ 2 ≤ 255) {cutoff : ℤ} (hc : 1 ≤ cutoff) (x y : ℤ) :
    medianLevel cutoff 64 (windowLevels (fun p => p.toNat >>> 2) (asGrayscale img) ksize x y) =
      if ((2 * ksize + 1) ^ 2 : ℕ) - windowSum id img ksize x y < cutoff then 63 else 0 := by
  have hlen := length_windowLevels (fun p => p.toNat >>> 2) (asGrayscale img) ksize x y
  have hbelow : ∀ j, 0 < j → j < 64 →
      ((sumBelow (fun i => (windowLevels (fun p => p.toNat >>> 2) (asGrayscale img) ksize x y).count i % 256) j :
        ℕ) : ℤ) = ((2 * ksize + 1) ^ 2 : ℕ) - windowSum id img ksize x y := by
    intro j h1 h2
    have hsum := windowSum_eq hb ksize x y id
    rw [Multiset.map_coe, Multiset.sum_coe] at hsum
    have := countP_lt_add_sum h1 h2 (window img.data img.w img.h ksize x y)
    rw [length_window] at this
    rw [sumBelow_eq (by omega), windowLevels_asGrayscale, ← hsum]
    exact eq_sub_of_add_eq this
  unfold medianLevel
  rw [if_pos hc, (histMedian_of_pos _ hc (by norm_num) (by norm_num)).1]
  split
  · rename_i hlt
    rw [scan_eq (show 63 < 64 by norm_num) (by rw [hbelow 63 (by norm_num) (by norm_num)]; exact hlt) (.inl rfl)]
  · rename_i hge
    have h0 : ((sumBelow (fun i => (windowLevels (fun p => p.toNat >>> 2) (asGrayscale img) ksize x y).count i
      % 256) 0 : ℕ) : ℤ) < cutoff := hc
    rw [scan_eq (by norm_num) h0 (.inr (by rw [hbelow 1 (by norm_num) (by norm_num)]; exact not_lt.mp hge))]

/-- A binary pixel comes out white when the ones reach the cutoff. -/
theorem medianBinary_pixel (buf : ℤ → ℤ → ℕ) {img : Image} {ksize : ℕ} (cutoff : ℤ) {t : Threshold}
    {mask : Option Image} {x y : ℤ} (hb : img.bpp = .binary) (hn : (2 * ksize + 1) ^ 2 ≤ 255)
    (ht : t.threshold = false) (hm : img.Mem (x, y)) (hs : skipped mask x y = false) :
    (filtered img (medianBinary img ksize cutoff t mask) buf 0).pixel x y =
      if windowSum id img ksize x y ≥ cutoff then 1 else 0 := by
  obtain ⟨s, hH, hpix⟩ : ∃ s, s = int32 ((window img.data img.w img.h ksize x y : Multiset ℕ).map
      (getPixel .binary)).sum ∧ (filtered img (medianBinary img ksize cutoff t mask) buf 0).pixel x y =
        getPixel .binary (putPixel .binary (thresholdBinary t (if s ≥ cutoff then 1 else 0)
          (img.pixel x y))) :=
    sliding_pixel (sumSlider_tracks _ _) hb hm hs
  obtain ⟨h0, h1⟩ := windowSum_mem ksize x y (pixel_le (t := 1) hb le_rfl)
  have hsum := windowSum_eq hb ksize x y id
  rw [show ((window img.data img.w img.h ksize x y : Multiset ℕ).map (getPixel .binary)).sum =
    windowSum id img ksize x y from hsum, int32_of_mem (by omega) (by omega)] at hH
  rw [hpix, hH, thresholdBinary, if_neg (Bool.eq_false_iff.mp ht)]
  split <;> rfl

/-- A binary image and its grayscale image come out alike at a pixel if and only if the ones of its window
    are fewer than both the cutoff and the rank from the other end, or as many as the larger of the two. -/
theorem median_formats_agree_iff (mulf : ℚ → ℤ → ℚ) (buf buf' : ℤ → ℤ → ℕ) (data data' : ℕ → ℕ → ℕ)
    (img : Image) (hb : img.bpp = .binary) (ksize : ℕ) (hn : (2 * ksize + 1) ^ 2 ≤ 255) (percentile : ℚ)
    (hc : 1 ≤ ⌊mulf percentile ((2 * ksize + 1) ^ 2 : ℕ)⌋) (offset : ℤ) (invert : Bool)
    (mask : Option Image) (x y : ℤ) (hm : img.Mem (x, y)) (hs : skipped mask x y = false) :
    let n : ℤ := ((2 * ksize + 1) ^ 2 : ℕ)
    let cutoff := ⌊mulf percentile n⌋
    let t : Threshold := ⟨false, offset, invert⟩
    let b := (imlibMedianFilter mulf buf data img ksize percentile t mask).pixel x y
    let g := (imlibMedianFilter mulf buf' data' (asGrayscale img) ksize percentile t mask).pixel x y
    let ones := windowSum id img ksize x y
    ((b = 1 ↔ g = 252) ∧ (b = 0 ↔ g = 0)) ↔
      ones < min cutoff (n + 1 - cutoff) ∨ max cutoff (n + 1 - cutoff) ≤ ones := by
  intro n cutoff t b g ones
  have hcut : medianCutoff mulf ksize percentile = cutoff := by
    unfold medianCutoff
    rw [kernelN_eq (by omega)]
  have hbin : b = if ones ≥ cutoff then 1 else 0 := by
    simp only [b, imlibMedianFilter, hb, hcut]
    exact medianBinary_pixel buf cutoff hb hn rfl hm hs
  have hgray : g = (if n - ones < cutoff then 63 else 0 : ℕ) * 4 := by
    simp only [g, imlibMedianFilter, asGrayscale, hcut]
    rw [← medianLevel_asGrayscale img hb hn hc x y]
    have hbpp : (asGrayscale img).bpp = .grayscale := rfl
    exact (medianGrayscale_level buf' ksize cutoff t (data' 0) hbpp rfl hm hs).2
  rw [hbin, hgray]
  split_ifs <;> omega

/-- A zero between ones in both formats, with six ones in the window. -/
theorem median_formats_at_six_ones :
    let img : Image := ⟨3, 3, .binary, fun x y => if x = y then 0 else 1⟩
    let t : Threshold := ⟨false, 0, false⟩
    let b := (imlibMedianFilter (fun p n => p * n) (fun _ _ => 0) (fun _ _ => 0) img 1 (1 / 2) t none).pixel 1 1
    let g := (imlibMedianFilter (fun p n => p * n) (fun _ _ => 0) (fun _ _ => 0) (asGrayscale img) 1 (1 / 2) t
      none).pixel 1 1
    windowSum id img 1 1 1 = 6 ∧ (b = 1 ↔ g = 252) ∧ (b = 0 ↔ g = 0) := by
  intro img t b g
  have hones : windowSum id img 1 1 1 = 6 := by decide
  have hcut : ⌊(1 / 2 : ℚ) * (9 : ℕ)⌋ = 4 := by decide +kernel
  refine ⟨hones, (median_formats_agree_iff (fun p n => p * n) (fun _ _ => 0) (fun _ _ => 0) (fun _ _ => 0)
    (fun _ _ => 0) img rfl 1 (by decide) (1 / 2) (hcut ▸ by decide) 0 false none 1 1
    ⟨by decide, by decide, by decide, by decide⟩ rfl).2 (.inr ?_)⟩
  rw [hones]
  exact hcut ▸ by decide

/-- At percentile 1 a binary pixel with a zero beside it is cleared, and the grayscale pixel is not. -/
theorem median_formats_differ :
    let img : Image := ⟨2, 1, .binary, fun x _ => if x = 0 then 0 else 1⟩
    let t : Threshold := ⟨false, 0, false⟩
    (imlibMedianFilter (fun p n => p * n) (fun _ _ => 0) (fun _ _ => 0) img 1 1 t none).pixel 1 0 = 0 ∧
      (imlibMedianFilter (fun p n => p * n) (fun _ _ => 0) (fun _ _ => 0) (asGrayscale img) 1 1 t none).pixel
        1 0 = 252 := by
  decide +kernel

end OpenMV.Filters
