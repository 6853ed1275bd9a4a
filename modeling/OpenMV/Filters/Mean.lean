import OpenMV.Filters.Kernel
import Mathlib.Data.Nat.Prime.Basic
import Mathlib.Tactic.Positivity

/-! Mean filter | scheme:sliding-window | source:src/src/openmv/omv/img/filter.c

    `imlib_mean_filter` keeps the sum of the window, one for each channel, and divides by multiplying with
    `over32_n = 65536 / n` and dropping sixteen bits. The sums are those of the original image, whatever
    the sizes of image and kernel. The quotient is cut off before it is used, so the mean comes out
    too small whenever what remains of the sum does not make up for it. -/

namespace OpenMV.Filters
open Schemes Vision Io

/-! ### The filter -/

def over32N (ksize : ℕ) : ℤ := int32 (Int.tdiv 65536 (kernelN ksize))

/-- `(acc * over32_n)>>16`. -/
def meanOf (ksize : ℕ) (acc : ℤ) : ℤ := int32 (acc * over32N ksize) / 65536

def meanBinary (img : Image) (ksize : ℕ) (t : Threshold) (mask : Option Image) : RowFilter ℕ ℤ :=
  sliding .binary img ksize mask (sumSlider (getPixel .binary)) (fun _ => 0) fun acc orig =>
    thresholdBinary t (meanOf ksize acc) orig

def meanGrayscale (img : Image) (ksize : ℕ) (t : Threshold) (mask : Option Image) : RowFilter ℕ ℤ :=
  sliding .grayscale img ksize mask (sumSlider (getPixel .grayscale)) (fun _ => 0) fun acc orig =>
    thresholdGrayscale t (meanOf ksize acc) orig

/-- `r_acc`, `g_acc` and `b_acc` side by side. -/
def meanRgb565 (img : Image) (ksize : ℕ) (t : Threshold) (mask : Option Image) : RowFilter ℕ (ℤ × ℤ × ℤ) :=
  sliding .rgb565 img ksize mask
    ((sumSlider redOf).pair ((sumSlider greenOf).pair (sumSlider blueOf))) (fun _ => (0, 0, 0))
    fun acc orig => thresholdRgb565 t
      (colorR5G6B5ToRgb565 (meanOf ksize acc.1) (meanOf ksize acc.2.1) (meanOf ksize acc.2.2)) orig

/-- `buf` is what the line buffer holds when the filter gets it. -/
def imlibMeanFilter (buf : ℤ → ℤ → ℕ) (img : Image) (ksize : ℕ) (t : Threshold) (mask : Option Image) :
    Image :=
  match img.bpp with
  | .binary => filtered img (meanBinary img ksize t mask) buf 0
  | .grayscale => filtered img (meanGrayscale img ksize t mask) buf 0
  | .rgb565 => filtered img (meanRgb565 img ksize t mask) buf (0, 0, 0)
  | .bayer | .jpeg => img

/-! ### The quotient -/

/-- The mean as the filter computes it, in whole numbers. -/
def meanQuot (ksize : ℕ) (sum : ℤ) : ℤ := sum * (65536 / ((2 * ksize + 1) ^ 2 : ℕ)) / 65536

/-- No overflow gets through to the mean: with a kernel that large the multiplier is zero. -/
theorem meanOf_int32 {ksize : ℕ} (hn : (2 * ksize + 1) ^ 2 < 2147483648) {sum : ℤ} (h0 : 0 ≤ sum)
    (h : sum ≤ ((2 * ksize + 1) ^ 2 : ℕ) * 255) : meanOf ksize (int32 sum) = meanQuot ksize sum := by
  have hpos : 0 < (2 * ksize + 1) ^ 2 := pow_pos (Nat.succ_pos _) 2
  unfold meanOf meanQuot over32N
  rw [kernelN_eq hn]
  generalize (2 * ksize + 1) ^ 2 = n at *
  rw [Int.tdiv_eq_ediv_of_nonneg (by norm_num)]
  have hq0 : (0 : ℤ) ≤ 65536 / n := Int.ediv_nonneg (by norm_num) (Int.natCast_nonneg n)
  have hqn : (65536 / n : ℤ) * n ≤ 65536 := Int.ediv_mul_le _ (by omega)
  have hq1 : (65536 / n : ℤ) ≤ 65536 := Int.ediv_le_self _ (by norm_num)
  have hq : int32 (65536 / n) = 65536 / n := int32_of_mem (by omega) (by omega)
  rw [hq]
  generalize (65536 / n : ℤ) = q at *
  rcases le_or_gt n 65536 with hle | hgt
  · have hs : int32 sum = sum := int32_of_mem (by omega) (by omega)
    have hprod : sum * q ≤ 65536 * 255 := by nlinarith
    have hprod0 : 0 ≤ sum * q := mul_nonneg h0 hq0
    rw [hs, int32_of_mem (by omega) (by omega)]
  · obtain rfl : q = 0 := by nlinarith
    rw [mul_zero, mul_zero]
    rfl

theorem meanQuot_mem {ksize : ℕ} {sum c : ℤ} (h0 : 0 ≤ sum) (hc : 0 ≤ c)
    (h : sum ≤ ((2 * ksize + 1) ^ 2 : ℕ) * c) : 0 ≤ meanQuot ksize sum ∧ meanQuot ksize sum ≤ c := by
  have hpos : 0 < (2 * ksize + 1) ^ 2 := pow_pos (Nat.succ_pos _) 2
  unfold meanQuot
  generalize (2 * ksize + 1) ^ 2 = n at *
  have hq0 : (0 : ℤ) ≤ 65536 / n := Int.ediv_nonneg (by norm_num) (Int.natCast_nonneg n)
  have hqn : (65536 / n : ℤ) * n ≤ 65536 := Int.ediv_mul_le _ (by omega)
  generalize (65536 / n : ℤ) = q at *
  refine ⟨Int.ediv_nonneg (mul_nonneg h0 hq0) (by norm_num), ?_⟩
  have hprod : sum * q ≤ c * 65536 := calc
    sum * q ≤ n * c * q := mul_le_mul_of_nonneg_right h hq0
    _ = c * (q * n) := by ring
    _ ≤ c * 65536 := mul_le_mul_of_nonneg_left hqn hc
  omega

/-- What is computed from a sum that is kept in an `int` is the mean of the window. -/
theorem meanOf_kept {img : Image} {bpp : Bpp} (hb : img.bpp = bpp) {ksize : ℕ}
    (hn : (2 * ksize + 1) ^ 2 < 2147483648) {x y c s : ℤ} {chan : ℤ → ℤ}
    (hc : ∀ i j, 0 ≤ chan (img.pixel i j) ∧ chan (img.pixel i j) ≤ c) (hc255 : c ≤ 255)
    (hs : s = int32 ((window img.data img.w img.h ksize x y : Multiset ℕ).map
      fun u => chan (getPixel bpp u)).sum) :
    meanOf ksize s = meanQuot ksize (windowSum chan img ksize x y) := by
  obtain ⟨h0, hle⟩ := windowSum_mem ksize x y hc
  rw [hs, windowSum_eq hb]
  exact meanOf_int32 hn h0 (hle.trans (mul_le_mul_of_nonneg_left hc255 (Int.natCast_nonneg _)))

theorem meanQuot_windowSum_mem {img : Image} (ksize : ℕ) (x y : ℤ) {c : ℤ} {chan : ℤ → ℤ}
    (hc : ∀ i j, 0 ≤ chan (img.pixel i j) ∧ chan (img.pixel i j) ≤ c) :
    0 ≤ meanQuot ksize (windowSum chan img ksize x y) ∧
      meanQuot ksize (windowSum chan img ksize x y) ≤ c := by
  obtain ⟨h0, hle⟩ := windowSum_mem ksize x y hc
  exact meanQuot_mem h0 ((hc 0 0).1.trans (hc 0 0).2) hle

/-! ### The image -/

/-- The rule for a pixel: the mean of each channel from its sum, then the threshold test. -/
def meanRule (bpp : Bpp) (ksize : ℕ) (t : Threshold) (sum : (ℤ → ℤ) → ℤ) (orig : ℤ) : ℤ :=
  match bpp with
  | .binary => thresholdBinary t (meanQuot ksize (sum id)) orig
  | .grayscale => thresholdGrayscale t (meanQuot ksize (sum id)) orig
  | .rgb565 => thresholdRgb565 t (colorR5G6B5ToRgb565 (meanQuot ksize (sum colorRgb565ToR5))
      (meanQuot ksize (sum colorRgb565ToG6)) (meanQuot ksize (sum colorRgb565ToB5))) orig
  | .bayer | .jpeg => orig

section Formats

variable (buf : ℤ → ℤ → ℕ) {img : Image} {ksize : ℕ} (t : Threshold) {mask : Option Image} {x y : ℤ}

/-- The two formats with one channel. -/
theorem mean_pixel_of_one {bpp : Bpp} (hb : img.bpp = bpp) (hbpp : levels bpp ≤ 256)
    (hn : (2 * ksize + 1) ^ 2 < 2147483648) (hm : img.Mem (x, y)) (hs : skipped mask x y = false)
    (rule : ℤ → ℤ → ℤ) :
    (filtered img (sliding bpp img ksize mask (sumSlider (getPixel bpp)) (fun _ => 0) fun acc orig =>
        rule (meanOf ksize acc) orig) buf 0).pixel x y =
      getPixel bpp (putPixel bpp (rule (meanQuot ksize (windowSum id img ksize x y)) (img.pixel x y))) := by
  have hmem : ∀ i j, 0 ≤ id (img.pixel i j) ∧ id (img.pixel i j) ≤ 255 := pixel_le hb (by exact_mod_cast hbpp)
  obtain ⟨s, hH, hpix⟩ : ∃ s, s = int32 ((window img.data img.w img.h ksize x y : Multiset ℕ).map
      (getPixel bpp)).sum ∧ _ = getPixel bpp (putPixel bpp (rule (meanOf ksize s) (img.pixel x y))) :=
    sliding_pixel (sumSlider_tracks _ _) hb hm hs
  rw [← meanOf_kept hb hn hmem le_rfl hH]
  exact hpix

theorem meanBinary_pixel (hb : img.bpp = .binary) (hn : (2 * ksize + 1) ^ 2 < 2147483648)
    (hm : img.Mem (x, y)) (hs : skipped mask x y = false) :
    (filtered img (meanBinary img ksize t mask) buf 0).pixel x y =
      thresholdBinary t (meanQuot ksize (windowSum id img ksize x y)) (img.pixel x y) := by
  obtain ⟨h0, h1⟩ := meanQuot_windowSum_mem ksize x y (pixel_le (t := 1) hb le_rfl)
  obtain ⟨h2, h3⟩ := thresholdBinary_mem t (img.pixel x y) h0 h1
  rw [meanBinary, mean_pixel_of_one buf hb (by decide) hn hm hs (thresholdBinary t)]
  exact getPixel_putPixel_of_mem h2 h3

theorem meanGrayscale_pixel (hb : img.bpp = .grayscale) (hn : (2 * ksize + 1) ^ 2 < 2147483648)
    (hm : img.Mem (x, y)) (hs : skipped mask x y = false) :
    (filtered img (meanGrayscale img ksize t mask) buf 0).pixel x y =
      thresholdGrayscale t (meanQuot ksize (windowSum id img ksize x y)) (img.pixel x y) := by
  obtain ⟨h0, h1⟩ := meanQuot_windowSum_mem ksize x y (pixel_le (t := 255) hb le_rfl)
  obtain ⟨h2, h3⟩ := thresholdGrayscale_mem t (img.pixel x y) h0 h1
  rw [meanGrayscale, mean_pixel_of_one buf hb (by decide) hn hm hs (thresholdGrayscale t)]
  exact getPixel_putPixel_of_mem h2 h3

theorem meanRgb565_pixel (hb : img.bpp = .rgb565) (hn : (2 * ksize + 1) ^ 2 < 2147483648)
    (hm : img.Mem (x, y)) (hs : skipped mask x y = false) :
    (filtered img (meanRgb565 img ksize t mask) buf (0, 0, 0)).pixel x y =
      thresholdRgb565 t (colorR5G6B5ToRgb565 (meanQuot ksize (windowSum colorRgb565ToR5 img ksize x y))
        (meanQuot ksize (windowSum colorRgb565ToG6 img ksize x y))
        (meanQuot ksize (windowSum colorRgb565ToB5 img ksize x y))) (img.pixel x y) := by
  obtain ⟨s, ⟨hr, hg, hbl⟩, hpix⟩ : ∃ s, _ ∧ _ = getPixel .rgb565 (putPixel .rgb565 (thresholdRgb565 t
      (colorR5G6B5ToRgb565 (meanOf ksize s.1) (meanOf ksize s.2.1) (meanOf ksize s.2.2))
      (img.pixel x y))) :=
    sliding_pixel ((sumSlider_tracks _ redOf).pair
      ((sumSlider_tracks _ greenOf).pair (sumSlider_tracks _ blueOf))) hb hm hs
  rw [← meanOf_kept hb hn (fun i j => red_mem _) (by norm_num) hr,
    ← meanOf_kept hb hn (fun i j => green_mem _) (by norm_num) hg,
    ← meanOf_kept hb hn (fun i j => blue_mem _) (by norm_num) hbl]
  obtain ⟨h0, h1⟩ := colorR5G6B5ToRgb565_lt (meanOf ksize s.1) (meanOf ksize s.2.1) (meanOf ksize s.2.2)
  obtain ⟨h2, h3⟩ := thresholdRgb565_mem t (img.pixel x y) h0 h1
  exact hpix.trans (getPixel_putPixel_of_mem h2 h3)

/-- Every pixel of the filtered image comes by the rule from the sums over the original image. -/
theorem imlibMeanFilter_pixel (hn : (2 * ksize + 1) ^ 2 < 2147483648) (hm : img.Mem (x, y)) :
    (imlibMeanFilter buf img ksize t mask).pixel x y =
      if skipped mask x y then img.pixel x y
      else meanRule img.bpp ksize t (fun chan => windowSum chan img ksize x y) (img.pixel x y) := by
  unfold imlibMeanFilter meanRule
  split <;> rename_i hb <;> split <;> rename_i hs
  · exact filtered_pixel_of_skipped hb hm hs
  · exact meanBinary_pixel buf t hb hn hm (Bool.eq_false_iff.mpr hs)
  · exact filtered_pixel_of_skipped hb hm hs
  · exact meanGrayscale_pixel buf t hb hn hm (Bool.eq_false_iff.mpr hs)
  · exact filtered_pixel_of_skipped hb hm hs
  · exact meanRgb565_pixel buf t hb hn hm (Bool.eq_false_iff.mpr hs)
  all_goals rfl

end Formats

theorem imlibMeanFilter_shape (buf : ℤ → ℤ → ℕ) (img : Image) (ksize : ℕ) (t : Threshold)
    (mask : Option Image) : (imlibMeanFilter buf img ksize t mask).w = img.w ∧
      (imlibMeanFilter buf img ksize t mask).h = img.h ∧
      (imlibMeanFilter buf img ksize t mask).bpp = img.bpp := by
  unfold imlibMeanFilter
  split <;> exact ⟨rfl, rfl, rfl⟩

/-- The filter works on the original image: at each pixel it leaves what its rule gives for the sums
    over the original window and the original pixel, and a pixel that the mask leaves alone is as it was. -/
theorem mean_filter_of_original (buf : ℤ → ℤ → ℕ) (img : Image) (ksize : ℕ)
    (hk : (2 * ksize + 1) ^ 2 * 255 < 2 ^ 31) (t : Threshold) (mask : Option Image) :
    let out := imlibMeanFilter buf img ksize t mask
    out.w = img.w ∧ out.h = img.h ∧ out.bpp = img.bpp ∧ ∀ x y, img.Mem (x, y) →
      out.pixel x y = if skipped mask x y then img.pixel x y
        else meanRule img.bpp ksize t (fun chan => windowSum chan img ksize x y) (img.pixel x y) := by
  obtain ⟨hw, hh, hbpp⟩ := imlibMeanFilter_shape buf img ksize t mask
  exact ⟨hw, hh, hbpp, fun x y hm => imlibMeanFilter_pixel buf t (by omega) hm⟩

/-- A kernel that is larger than the image. -/
theorem mean_filter_of_two_pixels :
    (imlibMeanFilter (fun _ _ => 0) ⟨2, 1, .grayscale, fun x _ => if x = 0 then 90 else 180⟩ 3
      ⟨false, 0, false⟩ none).pixel 1 0 =
    meanRule .grayscale 3 ⟨false, 0, false⟩ (fun chan => windowSum chan
      ⟨2, 1, .grayscale, fun x _ => if x = 0 then 90 else 180⟩ 3 1 0) 180 :=
  (mean_filter_of_original (fun _ _ => 0) ⟨2, 1, .grayscale, fun x _ => if x = 0 then 90 else 180⟩ 3
    (by decide) ⟨false, 0, false⟩ none).2.2.2 1 0
    ⟨by decide, by decide, by decide, by decide⟩

/-! ### When it is the mean -/

/-- The channels of a format. -/
def channels : Bpp → List (ℤ → ℤ)
  | .binary | .grayscale => [id]
  | .rgb565 => [colorRgb565ToR5, colorRgb565ToG6, colorRgb565ToB5]
  | .bayer | .jpeg => []

/-- The cut-off quotient is the mean when what remains of the sum makes up for the cut. -/
theorem meanQuot_eq_iff (ksize : ℕ) {sum : ℤ} (h0 : 0 ≤ sum) :
    meanQuot ksize sum = sum / ((2 * ksize + 1) ^ 2 : ℕ) ↔
      sum / ((2 * ksize + 1) ^ 2 : ℕ) * (65536 % ((2 * ksize + 1) ^ 2 : ℕ)) ≤
        sum % ((2 * ksize + 1) ^ 2 : ℕ) * (65536 / ((2 * ksize + 1) ^ 2 : ℕ)) := by
  have hpos : 0 < (2 * ksize + 1) ^ 2 := pow_pos (Nat.succ_pos _) 2
  unfold meanQuot
  generalize (2 * ksize + 1) ^ 2 = n at *
  have hn : (0 : ℤ) < n := by exact_mod_cast hpos
  have hsum := Int.mul_ediv_add_emod sum n
  have h65536 := Int.mul_ediv_add_emod 65536 n
  have hlt := Int.emod_lt_of_pos sum hn
  have hr0 := Int.emod_nonneg 65536 hn.ne'
  have ha : 0 ≤ sum / n := Int.ediv_nonneg h0 hn.le
  have hq : (0 : ℤ) ≤ 65536 / n := Int.ediv_nonneg (by norm_num) hn.le
  generalize sum / (n : ℤ) = a at *
  generalize sum % (n : ℤ) = b at *
  generalize (65536 / n : ℤ) = q at *
  generalize (65536 % n : ℤ) = r at *
  have hprod : sum * q = n * a * q + b * q := by rw [← hsum]; ring
  have hall : 65536 * a = n * a * q + a * r := by rw [← h65536]; ring
  have hbq : b * q ≤ n * q := mul_le_mul_of_nonneg_right hlt.le hq
  -- the quotient is never above the mean
  have htop : sum * q < 65536 * a + 65536 := by
    rcases hq.eq_or_lt with hq0 | hq0
    · rw [← hq0, mul_zero]
      omega
    · have : b * q < n * q := mul_lt_mul_of_pos_right hlt hq0
      have : 0 ≤ a * r := mul_nonneg ha hr0
      omega
  rw [hprod] at htop ⊢
  omega

theorem channel_mem {bpp : Bpp} {chan : ℤ → ℤ} (hc : chan ∈ channels bpp) {p : ℤ} (h0 : 0 ≤ p)
    (h : p < levels bpp) : 0 ≤ chan p ∧ chan p ≤ 255 := by
  cases bpp with
  | binary =>
    obtain rfl := List.mem_singleton.mp hc
    simp only [levels, Nat.cast_ofNat] at h
    exact ⟨h0, by rw [id]; omega⟩
  | grayscale =>
    obtain rfl := List.mem_singleton.mp hc
    simp only [levels, Nat.cast_ofNat] at h
    exact ⟨h0, by rw [id]; omega⟩
  | rgb565 =>
    simp only [channels, List.mem_cons, List.not_mem_nil, or_false] at hc
    rcases hc with rfl | rfl | rfl
    · exact ⟨(red_mem p).1, (red_mem p).2.trans (by norm_num)⟩
    · exact ⟨(green_mem p).1, (green_mem p).2.trans (by norm_num)⟩
    · exact ⟨(blue_mem p).1, (blue_mem p).2.trans (by norm_num)⟩
  | bayer => exact absurd hc List.not_mem_nil
  | jpeg => exact absurd hc List.not_mem_nil

/-- A pixel is made of its channels. -/
theorem eq_of_channels {bpp : Bpp} {p q : ℤ} (hp : 0 ≤ p ∧ p < levels bpp) (hq : 0 ≤ q ∧ q < levels bpp)
    (h : ∀ chan ∈ channels bpp, chan p = chan q) : p = q := by
  cases bpp with
  | binary => exact h id (List.mem_singleton.mpr rfl)
  | grayscale => exact h id (List.mem_singleton.mpr rfl)
  | rgb565 =>
    have hr := h colorRgb565ToR5 (by simp [channels])
    have hg := h colorRgb565ToG6 (by simp [channels])
    have hb := h colorRgb565ToB5 (by simp [channels])
    unfold colorRgb565ToR5 at hr
    unfold colorRgb565ToG6 at hg
    unfold colorRgb565ToB5 at hb
    simp only [levels, Nat.cast_ofNat] at hp hq
    omega
  | bayer => simp only [levels, Nat.cast_one] at hp hq; omega
  | jpeg => simp only [levels, Nat.cast_one] at hp hq; omega

theorem channel_zero {bpp : Bpp} {chan : ℤ → ℤ} (hc : chan ∈ channels bpp) : chan 0 = 0 := by
  cases bpp <;> simp only [channels, List.mem_cons, List.not_mem_nil, or_false] at hc
  · exact hc ▸ rfl
  · exact hc ▸ rfl
  · rcases hc with rfl | rfl | rfl <;> rfl

section Channels

variable (buf : ℤ → ℤ → ℕ) {img : Image} {ksize : ℕ} {t : Threshold} {mask : Option Image} {x y : ℤ}

theorem imlibMeanFilter_channel (hn : (2 * ksize + 1) ^ 2 < 2147483648) (ht : t.threshold = false)
    (hm : img.Mem (x, y)) (hs : skipped mask x y = false) {chan : ℤ → ℤ} (hc : chan ∈ channels img.bpp) :
    chan ((imlibMeanFilter buf img ksize t mask).pixel x y) =
      meanQuot ksize (windowSum chan img ksize x y) := by
  rw [imlibMeanFilter_pixel buf t hn hm, if_neg (Bool.eq_false_iff.mp hs)]
  unfold meanRule
  cases hb : img.bpp with
  | binary =>
    rw [hb] at hc
    obtain rfl := List.mem_singleton.mp hc
    exact if_neg (Bool.eq_false_iff.mp ht)
  | grayscale =>
    rw [hb] at hc
    obtain rfl := List.mem_singleton.mp hc
    exact if_neg (Bool.eq_false_iff.mp ht)
  | rgb565 =>
    have hr := meanQuot_windowSum_mem ksize x y fun i j => red_mem (img.pixel i j)
    have hg := meanQuot_windowSum_mem ksize x y fun i j => green_mem (img.pixel i j)
    have hbl := meanQuot_windowSum_mem ksize x y fun i j => blue_mem (img.pixel i j)
    dsimp only
    rw [show ∀ p o, thresholdRgb565 t p o = p from fun p o => if_neg (Bool.eq_false_iff.mp ht),
      colorR5G6B5ToRgb565_of_mem ⟨hr.1, by omega⟩ ⟨hg.1, by omega⟩ ⟨hbl.1, by omega⟩]
    simp only [hb, channels, List.mem_cons, List.not_mem_nil, or_false] at hc
    rcases hc with rfl | rfl | rfl
    · exact red_of_parts (by omega) (by omega) (by omega)
    · exact green_of_parts (by omega) (by omega)
    · exact blue_of_parts (by omega)
  | bayer => rw [hb] at hc; exact absurd hc List.not_mem_nil
  | jpeg => rw [hb] at hc; exact absurd hc List.not_mem_nil

end Channels

/-! ### Constant images -/

theorem windowSum_of_constant {img : Image} (ksize : ℕ) {x y v : ℤ} (hm : img.Mem (x, y))
    (hv : ∀ i j, img.Mem (i, j) → img.pixel i j = v) (chan : ℤ → ℤ) :
    windowSum chan img ksize x y = ((2 * ksize + 1) ^ 2 : ℕ) * chan v := by
  have hw : 0 < img.w := lt_of_le_of_lt hm.1 hm.2.1
  have hh : 0 < img.h := lt_of_le_of_lt hm.2.2.1 hm.2.2.2
  have hall : (window img.pixel img.w img.h ksize x y).map chan =
      List.replicate ((2 * ksize + 1) ^ 2) (chan v) := by
    rw [List.eq_replicate_iff, List.length_map, length_window]
    refine ⟨rfl, fun a ha => ?_⟩
    obtain ⟨p, hp, rfl⟩ := List.mem_map.mp ha
    obtain ⟨i, j, hi, hj, rfl⟩ := exists_mem_of_mem_window hw hh hp
    rw [hv i j ⟨hi.1, hi.2, hj.1, hj.2⟩]
  rw [windowSum, hall, List.sum_replicate, nsmul_eq_mul]

/-- A kernel of more than one pixel has an odd number of them, and does not divide 65536. -/
theorem mod_kernel_eq_zero_iff (ksize : ℕ) : 65536 % (2 * ksize + 1) ^ 2 = 0 ↔ ksize = 0 := by
  constructor
  · intro h
    have hcop : Nat.Coprime ((2 * ksize + 1) ^ 2) (2 ^ 16) :=
      Nat.Coprime.pow 2 16 ((Nat.coprime_mul_left_add_left 1 2 ksize).mpr (by norm_num))
    have hone := hcop.eq_one_of_dvd (Nat.dvd_of_mod_eq_zero h)
    nlinarith
  · rintro rfl
    rfl

theorem meanQuot_of_constant (ksize : ℕ) {c : ℤ} (hc : 0 ≤ c) :
    meanQuot ksize (((2 * ksize + 1) ^ 2 : ℕ) * c) = c ↔ ksize = 0 ∨ c = 0 := by
  have hpos : 0 < (2 * ksize + 1) ^ 2 := pow_pos (Nat.succ_pos _) 2
  have hzero := mod_kernel_eq_zero_iff ksize
  have hiff := meanQuot_eq_iff ksize (mul_nonneg (Int.natCast_nonneg ((2 * ksize + 1) ^ 2)) hc)
  rw [Int.mul_ediv_cancel_left _ (by positivity), Int.mul_emod_right, zero_mul] at hiff
  rw [hiff, ← hzero]
  have hr : (0 : ℤ) ≤ 65536 % ((2 * ksize + 1) ^ 2 : ℕ) := Int.emod_nonneg _ (by positivity)
  constructor
  · intro h
    rcases mul_eq_zero.mp (le_antisymm h (mul_nonneg hc hr)) with h0 | h0
    · exact .inr h0
    · exact .inl (by exact_mod_cast h0)
  · rintro (h0 | rfl)
    · rw [show (65536 : ℤ) % ((2 * ksize + 1) ^ 2 : ℕ) = 0 by exact_mod_cast h0, mul_zero]
    · rw [zero_mul]

end OpenMV.Filters
