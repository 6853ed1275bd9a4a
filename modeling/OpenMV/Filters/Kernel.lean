import OpenMV.Io.Pixels
import OpenMV.Schemes.Histogram
import OpenMV.Schemes.RowRing
import Mathlib.Algebra.Order.BigOperators.Group.List

/-! Neighbourhood filters | scheme:sliding-window | source:src/src/openmv/omv/img/filter.c

    What the mean, median, mode and midpoint filters have in common: the pixel macros of the three formats,
    the mask, the threshold test against the pixel that was there, and the loop over the image with its
    line buffer. The mean, the median and the mode keep a value for the window that slides along the row;
    `sliding` is their loop. -/

namespace OpenMV.Filters
open Schemes Vision Io

/-! ### Pixels -/

/-- The number of values of a storage unit: a bit, a byte or a 16-bit word. -/
def levels : Bpp → ℕ
  | .binary => 2
  | .grayscale => 256
  | .rgb565 => 65536
  | .bayer | .jpeg => 1

/-- `IMAGE_GET_…_PIXEL_FAST`: a storage unit as the format's macro reads it. -/
def getPixel (bpp : Bpp) (u : ℕ) : ℤ := (u % levels bpp : ℕ)

/-- `IMAGE_PUT_…_PIXEL_FAST`: what is stored of a value. -/
def putPixel (bpp : Bpp) (v : ℤ) : ℕ := (v % levels bpp).toNat

theorem levels_pos (bpp : Bpp) : 0 < levels bpp := by
  cases bpp <;> decide

theorem image_pixel (img : Image) (x y : ℤ) : img.pixel x y = getPixel img.bpp (img.data x y) := by
  unfold Image.pixel getPixel
  cases img.bpp with
  | binary => rfl
  | grayscale => rfl
  | rgb565 => rfl
  | bayer => exact congrArg Nat.cast (Nat.mod_one _).symm
  | jpeg => exact congrArg Nat.cast (Nat.mod_one _).symm

theorem getPixel_mem (bpp : Bpp) (u : ℕ) : 0 ≤ getPixel bpp u ∧ getPixel bpp u < levels bpp :=
  ⟨Int.natCast_nonneg _, Int.ofNat_lt.mpr (Nat.mod_lt u (levels_pos bpp))⟩

@[simp] theorem getPixel_putPixel (bpp : Bpp) (v : ℤ) :
    getPixel bpp (putPixel bpp v) = v % levels bpp := by
  have hpos : (0 : ℤ) < levels bpp := by exact_mod_cast levels_pos bpp
  have h0 := Int.emod_nonneg v hpos.ne'
  rw [getPixel, putPixel, Int.natCast_mod, Int.toNat_of_nonneg h0, Int.emod_emod]

/-- A value that fits is read back as it was put. -/
theorem getPixel_putPixel_of_mem {bpp : Bpp} {v : ℤ} (h0 : 0 ≤ v) (h : v < levels bpp) :
    getPixel bpp (putPixel bpp v) = v := by
  rw [getPixel_putPixel, Int.emod_eq_of_lt h0 h]

theorem getPixel_putPixel_rgb565 {v : ℤ} (h : 0 ≤ v ∧ v < 65536) : getPixel .rgb565 (putPixel .rgb565 v) = v :=
  getPixel_putPixel_of_mem h.1 h.2

/-- The low 16 bits of `COLOR_R5_G6_B5_TO_RGB565`; no more of it is stored or compared. -/
def colorR5G6B5ToRgb565 (r5 g6 b5 : ℤ) : ℤ :=
  ((r5 * 2048 % 65536).toNat ||| (g6 * 32 % 65536).toNat ||| (b5 % 65536).toNat : ℕ)

theorem colorR5G6B5ToRgb565_lt (r g b : ℤ) :
    0 ≤ colorR5G6B5ToRgb565 r g b ∧ colorR5G6B5ToRgb565 r g b < 65536 := by
  refine ⟨Int.natCast_nonneg _, Int.ofNat_lt.mpr ?_⟩
  exact Nat.or_lt_two_pow (n := 16) (Nat.or_lt_two_pow (by omega) (by omega)) (by omega)

def colorRgb888ToY (r8 g8 b8 : ℕ) : ℤ := ((r8 * 38 + g8 * 75 + b8 * 15) >>> 7 : ℕ)

def colorRgb565ToY (pixel : ℤ) : ℤ :=
  colorRgb888ToY (colorRgb565ToR8 pixel.toNat) (colorRgb565ToG8 pixel.toNat) (colorRgb565ToB8 pixel.toNat)

def colorGrayscaleToBinary (pixel : ℤ) : Bool := pixel > 127
def colorRgb565ToBinary (pixel : ℤ) : Bool := colorRgb565ToY pixel > 127

/-- Three channels that fit are found again in the pixel. -/
theorem colorR5G6B5ToRgb565_of_mem {r g b : ℤ} (hr : 0 ≤ r ∧ r < 32) (hg : 0 ≤ g ∧ g < 64)
    (hb : 0 ≤ b ∧ b < 32) : colorR5G6B5ToRgb565 r g b = r * 2048 + g * 32 + b := by
  obtain ⟨r, rfl⟩ := Int.eq_ofNat_of_zero_le hr.1
  obtain ⟨g, rfl⟩ := Int.eq_ofNat_of_zero_le hg.1
  obtain ⟨b, rfl⟩ := Int.eq_ofNat_of_zero_le hb.1
  have h1 : (((r : ℤ) * 2048) % 65536).toNat = 2 ^ 11 * r := by omega
  have h2 : (((g : ℤ) * 32) % 65536).toNat = 2 ^ 5 * g := by omega
  have h3 : ((b : ℤ) % 65536).toNat = b := by omega
  unfold colorR5G6B5ToRgb565
  rw [h1, h2, h3, Nat.or_assoc, ← Nat.two_pow_add_eq_or_of_lt (show b < 2 ^ 5 by omega),
    ← Nat.two_pow_add_eq_or_of_lt (show 2 ^ 5 * g + b < 2 ^ 11 by omega)]
  omega

section Parts

variable {r g b : ℤ} (hr : 0 ≤ r ∧ r < 32) (hg : 0 ≤ g ∧ g < 64) (hb : 0 ≤ b ∧ b < 32)
include hr hg hb

theorem red_of_parts : colorRgb565ToR5 (r * 2048 + g * 32 + b) = r := by
  unfold colorRgb565ToR5
  omega

omit hr in
theorem green_of_parts : colorRgb565ToG6 (r * 2048 + g * 32 + b) = g := by
  unfold colorRgb565ToG6
  omega

omit hr hg in
theorem blue_of_parts : colorRgb565ToB5 (r * 2048 + g * 32 + b) = b := by
  unfold colorRgb565ToB5
  omega

end Parts

theorem red_mem (p : ℤ) : 0 ≤ colorRgb565ToR5 p ∧ colorRgb565ToR5 p ≤ 31 := by
  unfold colorRgb565ToR5
  omega

theorem green_mem (p : ℤ) : 0 ≤ colorRgb565ToG6 p ∧ colorRgb565ToG6 p ≤ 63 := by
  unfold colorRgb565ToG6
  omega

theorem blue_mem (p : ℤ) : 0 ≤ colorRgb565ToB5 p ∧ colorRgb565ToB5 p ≤ 31 := by
  unfold colorRgb565ToB5
  omega

theorem pixel_mem (img : Image) (i j : ℤ) : 0 ≤ img.pixel i j ∧ img.pixel i j < levels img.bpp := by
  rw [image_pixel]
  exact getPixel_mem _ _

/-- A format with one channel: the pixel is up to the top of its scale. -/
theorem pixel_le {img : Image} {bpp : Bpp} {t : ℤ} (hb : img.bpp = bpp) (ht : (levels bpp : ℤ) ≤ t + 1)
    (i j : ℤ) : 0 ≤ id (img.pixel i j) ∧ id (img.pixel i j) ≤ t := by
  obtain ⟨h0, h1⟩ := pixel_mem img i j
  rw [hb] at h1
  exact ⟨h0, Int.lt_add_one_iff.mp (h1.trans_le ht)⟩

def redOf (u : ℕ) : ℤ := colorRgb565ToR5 (getPixel .rgb565 u)
def greenOf (u : ℕ) : ℤ := colorRgb565ToG6 (getPixel .rgb565 u)
def blueOf (u : ℕ) : ℤ := colorRgb565ToB5 (getPixel .rgb565 u)

/-! ### Masks and thresholds -/

def imageGetMaskPixel (ptr : Image) (x y : ℤ) : Bool :=
  if 0 ≤ x ∧ x < ptr.w ∧ 0 ≤ y ∧ y < ptr.h then
    match ptr.bpp with
    | .binary => imageGetBinaryPixel ptr x y ≠ 0
    | .grayscale => colorGrayscaleToBinary (imageGetGrayscalePixel ptr x y)
    | .rgb565 => colorRgb565ToBinary (imageGetRgb565Pixel ptr x y)
    | .bayer | .jpeg => false
  else false

/-- `mask && (!image_get_mask_pixel(mask, x, y))`. -/
def skipped (mask : Option Image) (x y : ℤ) : Bool :=
  match mask with
  | none => false
  | some ptr => !imageGetMaskPixel ptr x y

/-- The arguments of the threshold test. -/
structure Threshold where
  threshold : Bool
  offset : ℤ
  invert : Bool
deriving DecidableEq, Repr

/-- A binary pixel is read as a `uint32_t`, so the difference is compared as one. -/
def thresholdBinary (t : Threshold) (pixel orig : ℤ) : ℤ :=
  if t.threshold then
    if decide ((pixel - t.offset) % 4294967296 < orig) ^^ t.invert then 1 else 0
  else pixel

def thresholdGrayscale (t : Threshold) (pixel orig : ℤ) : ℤ :=
  if t.threshold then
    if decide (int32 (pixel - t.offset) < orig) ^^ t.invert then 0xFF else 0x00
  else pixel

def thresholdRgb565 (t : Threshold) (pixel orig : ℤ) : ℤ :=
  if t.threshold then
    if decide (int32 (colorRgb565ToY pixel - t.offset) < colorRgb565ToY orig) ^^ t.invert then 0xFFFF
    else 0x0000
  else pixel

theorem thresholdBinary_mem (t : Threshold) {pixel : ℤ} (orig : ℤ) (h0 : 0 ≤ pixel) (h : pixel ≤ 1) :
    0 ≤ thresholdBinary t pixel orig ∧ thresholdBinary t pixel orig < 2 := by
  unfold thresholdBinary
  split_ifs <;> omega

theorem thresholdGrayscale_mem (t : Threshold) {pixel : ℤ} (orig : ℤ) (h0 : 0 ≤ pixel) (h : pixel ≤ 255) :
    0 ≤ thresholdGrayscale t pixel orig ∧ thresholdGrayscale t pixel orig < 256 := by
  unfold thresholdGrayscale
  split_ifs <;> omega

theorem thresholdRgb565_mem (t : Threshold) {pixel : ℤ} (orig : ℤ) (h0 : 0 ≤ pixel) (h : pixel < 65536) :
    0 ≤ thresholdRgb565 t pixel orig ∧ thresholdRgb565 t pixel orig < 65536 := by
  unfold thresholdRgb565
  split_ifs <;> omega

/-! ### The loops -/

section Loops

variable {σ : Type*} (bpp : Bpp) (img : Image) (ksize : ℕ) (mask : Option Image)

/-- The loop over an image: `cell` is what is done at a pixel that the mask does not leave alone, and `pixel` the
    value it gets, from the value that was there. -/
def rowFilter (start : σ → σ) (cell : (ℤ → ℤ → ℕ) → ℤ → ℤ → σ → σ) (pixel : σ → ℤ → ℤ) :
    RowFilter ℕ σ where
  ksize := ksize
  w := img.w
  h := img.h
  skip := skipped mask
  start := start
  cell := cell
  keep u := putPixel bpp (getPixel bpp u)
  emit s u := putPixel bpp (pixel s (getPixel bpp u))

/-- The loop of the mean, median and mode filters. -/
def sliding (S : Slider ℕ σ) (start : σ → σ) (pixel : σ → ℤ → ℤ) : RowFilter ℕ σ :=
  rowFilter bpp img ksize mask start (S.cell img.w img.h ksize mask.isSome) pixel

/-- The image with what a loop leaves in its pixels; `buf` is what the line buffer held before. -/
def filtered (F : RowFilter ℕ σ) (buf : ℤ → ℤ → ℕ) (acc : σ) : Image :=
  { img with data := (F.run ⟨img.data, buf, acc⟩).img }

/-- The value that the loop keeps, when it is done with a pixel. -/
def keptAt (F : RowFilter ℕ σ) (buf : ℤ → ℤ → ℕ) (acc : σ) (x y : ℤ) : σ :=
  F.accAt ⟨img.data, buf, acc⟩ x.toNat y.toNat

variable {bpp img ksize mask}

section Pixel

variable {start : σ → σ} {cell : (ℤ → ℤ → ℕ) → ℤ → ℤ → σ → σ} {pixel : σ → ℤ → ℤ} {buf : ℤ → ℤ → ℕ} {acc : σ}
  {x y : ℤ}

theorem filtered_pixel {x y : ℕ} (hb : img.bpp = bpp) (hx : (x : ℤ) < img.w) (hy : (y : ℤ) < img.h) :
    (filtered img (rowFilter bpp img ksize mask start cell pixel) buf acc).pixel x y =
      getPixel bpp ((rowFilter bpp img ksize mask start cell pixel).out ⟨img.data, buf, acc⟩ x y) := by
  rw [image_pixel, show (filtered img _ buf acc).bpp = bpp from hb]
  exact congrArg _ (RowFilter.run_img (F := rowFilter bpp img ksize mask start cell pixel) _ hx hy)

/-- A pixel that the mask leaves alone is as it was. -/
theorem filtered_pixel_of_skipped (hb : img.bpp = bpp) (hm : img.Mem (x, y))
    (hs : skipped mask x y = true) :
    (filtered img (rowFilter bpp img ksize mask start cell pixel) buf acc).pixel x y = img.pixel x y := by
  obtain ⟨hx0, hxw, hy0, hyh⟩ := hm
  obtain ⟨x, rfl⟩ := Int.eq_ofNat_of_zero_le hx0
  obtain ⟨y, rfl⟩ := Int.eq_ofNat_of_zero_le hy0
  rw [filtered_pixel hb hxw hyh, image_pixel, hb, RowFilter.out_of_skip hs]
  exact getPixel_putPixel_of_mem (getPixel_mem bpp _).1 (getPixel_mem bpp _).2

/-- The others are computed from the value that is kept. -/
theorem filtered_pixel_of_not (hb : img.bpp = bpp) (hm : img.Mem (x, y)) (hs : skipped mask x y = false) :
    (filtered img (rowFilter bpp img ksize mask start cell pixel) buf acc).pixel x y =
      getPixel bpp (putPixel bpp (pixel
        (keptAt img (rowFilter bpp img ksize mask start cell pixel) buf acc x y) (img.pixel x y))) := by
  obtain ⟨hx0, hxw, hy0, hyh⟩ := hm
  obtain ⟨x, rfl⟩ := Int.eq_ofNat_of_zero_le hx0
  obtain ⟨y, rfl⟩ := Int.eq_ofNat_of_zero_le hy0
  rw [filtered_pixel hb hxw hyh, image_pixel, hb, RowFilter.out_of_not hs]
  rfl

end Pixel

/-- Without a mask the value at a pixel is a step from that at the pixel before, on an image whose rows are the
    original ones as far as the step looks. -/
theorem keptAt_sliding {S : Slider ℕ σ} {start : σ → σ} {pixel : σ → ℤ → ℤ} {buf : ℤ → ℤ → ℕ} {acc : σ}
    {x y : ℤ} (hm : img.Mem (x, y)) : ∃ img' s, (∀ c r, y - ksize ≤ r → img' c r = img.data c r) ∧
      (0 < x → s = keptAt img (sliding bpp img ksize none S start pixel) buf acc (x - 1) y) ∧
      keptAt img (sliding bpp img ksize none S start pixel) buf acc x y =
        S.cell img.w img.h ksize false img' x y s := by
  obtain ⟨hx0, -, hy0, -⟩ := hm
  obtain ⟨x, rfl⟩ := Int.eq_ofNat_of_zero_le hx0
  obtain ⟨y, rfl⟩ := Int.eq_ofNat_of_zero_le hy0
  cases x with
  | zero =>
    exact ⟨_, _, fun c r hr => RowFilter.before_img _ c hr, fun h => absurd h (lt_irrefl _),
      RowFilter.accAt_zero (F := sliding bpp img ksize none S start pixel) ⟨img.data, buf, acc⟩ rfl⟩
  | succ x =>
    refine ⟨_, _, fun c r hr => RowFilter.before_img _ c hr, fun _ => ?_,
      RowFilter.accAt_succ (F := sliding bpp img ksize none S start pixel) ⟨img.data, buf, acc⟩ rfl⟩
    have hcast : (((x + 1 : ℕ) : ℤ) - 1).toNat = x := by omega
    rw [keptAt, hcast]

/-- What a slider keeps stands for the window of the original image. -/
theorem sliding_holds {S : Slider ℕ σ} {B M H : σ → Multiset ℕ → Prop} {start : σ → σ} {pixel : σ → ℤ → ℤ}
    {buf : ℤ → ℤ → ℕ} {acc : σ} {x y : ℤ} (T : S.Tracks ((2 * ksize + 1) ^ 2) B M H)
    (hm : img.Mem (x, y)) (hs : skipped mask x y = false) :
    H (keptAt img (sliding bpp img ksize mask S start pixel) buf acc x y)
      (window img.data img.w img.h ksize x y) := by
  obtain ⟨hx0, hxw, hy0, hyh⟩ := hm
  obtain ⟨x, rfl⟩ := Int.eq_ofNat_of_zero_le hx0
  obtain ⟨y, rfl⟩ := Int.eq_ofNat_of_zero_le hy0
  refine RowFilter.accAt_ok (F := sliding bpp img ksize mask S start pixel) ⟨img.data, buf, acc⟩
    (fun x y s => H s (window img.data img.w img.h ksize x y)) ?_ hxw hyh hs
  intro img' c r a hc hcw hr hrh hcr himg hprev
  refine T.cell_holds rfl hrh himg fun hmask hpos => hprev hpos ?_
  -- without a mask no pixel is left alone
  cases mask with
  | none => rfl
  | some _ => exact absurd hmask (by simp)

/-- A pixel is computed from a value that stands for the window of the original image. -/
theorem sliding_pixel {S : Slider ℕ σ} {B M H : σ → Multiset ℕ → Prop} {start : σ → σ} {pixel : σ → ℤ → ℤ}
    {buf : ℤ → ℤ → ℕ} {acc : σ} {x y : ℤ} (T : S.Tracks ((2 * ksize + 1) ^ 2) B M H)
    (hb : img.bpp = bpp) (hm : img.Mem (x, y)) (hs : skipped mask x y = false) :
    ∃ s, H s (window img.data img.w img.h ksize x y) ∧
      (filtered img (sliding bpp img ksize mask S start pixel) buf acc).pixel x y =
        getPixel bpp (putPixel bpp (pixel s (img.pixel x y))) :=
  ⟨_, sliding_holds T hm hs, filtered_pixel_of_not hb hm hs⟩

/-- A filter that folds over the window at each pixel folds over the window of the original image. -/
theorem keptAt_scan {step : σ → ℕ → σ} {init : σ} {start : σ → σ} {pixel : σ → ℤ → ℤ} {buf : ℤ → ℤ → ℕ}
    {acc : σ} {x y : ℤ} (hm : img.Mem (x, y)) (hs : skipped mask x y = false) :
    keptAt img (rowFilter bpp img ksize mask start
      (fun data x y _ => scanWindow img.w img.h ksize step init data x y) pixel) buf acc x y =
      (window img.data img.w img.h ksize x y).foldl step init := by
  obtain ⟨hx0, hxw, hy0, hyh⟩ := hm
  obtain ⟨x, rfl⟩ := Int.eq_ofNat_of_zero_le hx0
  obtain ⟨y, rfl⟩ := Int.eq_ofNat_of_zero_le hy0
  refine RowFilter.accAt_ok (F := rowFilter bpp img ksize mask start
    (fun data x y _ => scanWindow img.w img.h ksize step init data x y) pixel) ⟨img.data, buf, acc⟩
    (fun x y s => s = (window img.data img.w img.h ksize x y).foldl step init) ?_ hxw hyh hs
  intro img' c r a _ _ _ hrh _ himg _
  have hwindow : window img' img.w img.h ksize c r = window img.data img.w img.h ksize c r :=
    window_congr hrh himg
  change scanWindow img.w img.h ksize step init img' c r = _
  rw [scanWindow_eq, hwindow]

end Loops

/-! ### The kernel -/

/-- `((ksize*2)+1)*((ksize*2)+1)`. -/
def kernelN (ksize : ℕ) : ℤ := int32 (int32 (int32 (ksize * 2) + 1) * int32 (int32 (ksize * 2) + 1))

theorem kernelN_eq {ksize : ℕ} (hn : (2 * ksize + 1) ^ 2 < 2147483648) :
    kernelN ksize = ((2 * ksize + 1) ^ 2 : ℕ) := by
  have hk : 2 * ksize + 1 < 2147483648 := by nlinarith
  have h1 : int32 (int32 (ksize * 2) + 1) = ((2 * ksize + 1 : ℕ) : ℤ) := by
    unfold int32
    omega
  unfold kernelN
  rw [h1, ← Nat.cast_mul, ← sq, int32_of_mem (by omega) (by omega)]

/-- The sum of a channel over the window, in an `int`. -/
def sumSlider (chan : ℕ → ℤ) : Slider ℕ ℤ where
  fresh _ := 0
  add acc u := int32 (acc + chan u)
  swap acc u v := int32 (int32 (acc - chan u) + chan v)
  settle acc := acc

/-! ### Sums -/

/-- The sum of a channel over the window of a pixel. -/
def windowSum (chan : ℤ → ℤ) (img : Image) (ksize : ℕ) (x y : ℤ) : ℤ :=
  ((window img.pixel img.w img.h ksize x y).map chan).sum

theorem sumSlider_tracks (n : ℕ) (chan : ℕ → ℤ) :
    (sumSlider chan).Tracks n (fun s m => s = int32 (m.map chan).sum)
      (fun s m => s = int32 (m.map chan).sum) (fun s m => s = int32 (m.map chan).sum) := by
  refine Slider.tracks_of_eq n (fun m => int32 (m.map chan).sum) (fun _ => rfl) ?_ ?_ fun _ => rfl
  · intro m u
    change int32 (int32 _ + chan u) = _
    rw [int32_add_left, Multiset.map_cons, Multiset.sum_cons, add_comm]
  · intro m u v
    change int32 (int32 (int32 _ - chan u) + chan v) = _
    rw [int32_add_left, Multiset.map_cons, Multiset.sum_cons, Multiset.map_cons, Multiset.sum_cons,
      sub_eq_add_neg, add_assoc, int32_add_left]
    congr 1
    ring

theorem window_pixel {img : Image} {bpp : Bpp} (hb : img.bpp = bpp) (ksize : ℕ) (x y : ℤ) :
    window img.pixel img.w img.h ksize x y =
      (window img.data img.w img.h ksize x y).map (getPixel bpp) := by
  have hpix : img.pixel = fun c r => getPixel bpp (img.data c r) :=
    funext fun c => funext fun r => by rw [image_pixel, hb]
  rw [hpix, window_map]

/-- The sum of the storage units is that of the pixels. -/
theorem windowSum_eq {img : Image} {bpp : Bpp} (hb : img.bpp = bpp) (ksize : ℕ) (x y : ℤ) (chan : ℤ → ℤ) :
    ((window img.data img.w img.h ksize x y : Multiset ℕ).map fun u => chan (getPixel bpp u)).sum =
      windowSum chan img ksize x y := by
  rw [windowSum, window_pixel hb, Multiset.map_coe, Multiset.sum_coe, List.map_map]
  rfl

theorem windowSum_mem {img : Image} (ksize : ℕ) (x y : ℤ) {c : ℤ} {chan : ℤ → ℤ}
    (h : ∀ i j, 0 ≤ chan (img.pixel i j) ∧ chan (img.pixel i j) ≤ c) :
    0 ≤ windowSum chan img ksize x y ∧ windowSum chan img ksize x y ≤ ((2 * ksize + 1) ^ 2 : ℕ) * c := by
  have hmem : ∀ a ∈ (window img.pixel img.w img.h ksize x y).map chan, 0 ≤ a ∧ a ≤ c := by
    intro a ha
    obtain ⟨p, hp, rfl⟩ := List.mem_map.mp ha
    obtain ⟨i, j, rfl⟩ := exists_of_mem_window hp
    exact h i j
  refine ⟨List.sum_nonneg fun a ha => (hmem a ha).1, ?_⟩
  have hle := List.sum_le_card_nsmul _ c fun a ha => (hmem a ha).2
  rwa [List.length_map, length_window, nsmul_eq_mul] at hle

/-! ### Levels -/

/-- The levels of the window of a pixel. -/
def windowLevels (level : ℤ → ℕ) (img : Image) (ksize : ℕ) (x y : ℤ) : List ℕ :=
  (window img.pixel img.w img.h ksize x y).map level

theorem length_windowLevels (level : ℤ → ℕ) (img : Image) (ksize : ℕ) (x y : ℤ) :
    (windowLevels level img ksize x y).length = (2 * ksize + 1) ^ 2 := by
  rw [windowLevels, List.length_map, length_window]

theorem windowLevels_ne_nil (level : ℤ → ℕ) (img : Image) (ksize : ℕ) (x y : ℤ) :
    windowLevels level img ksize x y ≠ [] := by
  rw [windowLevels, Ne, List.map_eq_nil_iff]
  exact window_ne_nil _ _ _ _ _ _

theorem lt_of_mem_windowLevels {level : ℤ → ℕ} {img : Image} {ksize : ℕ} {x y : ℤ} {len : ℕ}
    (h : ∀ i j, level (img.pixel i j) < len) : ∀ a ∈ windowLevels level img ksize x y, a < len := by
  intro a ha
  obtain ⟨p, hp, rfl⟩ := List.mem_map.mp ha
  obtain ⟨i, j, rfl⟩ := exists_of_mem_window hp
  exact h i j

/-- The histogram of the storage units is that of the levels. -/
theorem tally_window {img : Image} {bpp : Bpp} (hb : img.bpp = bpp) (m ksize : ℕ) (x y : ℤ) (level : ℤ → ℕ) :
    tally m (fun u => level (getPixel bpp u)) (window img.data img.w img.h ksize x y : Multiset ℕ) =
      fun j => (windowLevels level img ksize x y).count j % m := by
  funext j
  rw [tally, windowLevels, window_pixel hb, List.map_map, Multiset.map_coe, Multiset.coe_count]
  rfl

end OpenMV.Filters
