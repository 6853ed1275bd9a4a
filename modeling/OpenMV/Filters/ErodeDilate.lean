import OpenMV.Filters.Kernel

/-! Erosion and dilation | scheme:sliding-window | source:src/src/openmv/omv/img/binary.c

    `imlib_erode_dilate` counts the set pixels of the window around a pixel and clears it, or sets it, when
    the count is below, or above, a threshold. The count is an `int` that is carried along the row while the
    window is away from the borders, and taken anew everywhere else. It is that of the original image as
    long as it fits. With a mask it is not: a pixel the mask leaves alone is passed over before
    its column is exchanged, so that the next count is behind by what changed there. -/

namespace OpenMV.Filters
open Schemes Vision Io

/-! ### The filter -/

/-- `COLOR_BINARY_MAX`, `COLOR_GRAYSCALE_BINARY_MAX` and `COLOR_RGB565_BINARY_MAX`. -/
def colorBinaryMax : Bpp → ℤ
  | .binary => 1
  | .grayscale => 0xFF
  | .rgb565 => 0xFFFF
  | .bayer | .jpeg => 0

/-- `COLOR_BINARY_MIN`, `COLOR_GRAYSCALE_BINARY_MIN` and `COLOR_RGB565_BINARY_MIN`. -/
def colorBinaryMin : Bpp → ℤ := fun _ => 0

/-- What is counted of a pixel where columns are exchanged. -/
def fastBit (bpp : Bpp) (u : ℕ) : ℤ :=
  match bpp with
  | .binary => getPixel bpp u
  | _ => getPixel bpp u % 2

/-- What is counted of a pixel where the whole window is gone through. -/
def slowBit (bpp : Bpp) (u : ℕ) : ℤ :=
  match bpp with
  | .binary => getPixel bpp u
  | .grayscale => getPixel bpp u / 128
  | _ => getPixel bpp u % 2

/-- `acc`, from `start` on. -/
def countSlider (fast slow : ℕ → ℤ) (start : ℤ) : Slider ℕ ℤ where
  fresh _ := start
  add acc u := int32 (acc + slow u)
  swap acc u v := int32 (int32 (acc - fast u) + fast v)
  settle acc := acc

/-- `e_or_d ? 0 : -1`: an erosion does not count the center. -/
def countStart (eOrD : Bool) : ℤ := if eOrD then 0 else -1

def erodeDilatePixel (bpp : Bpp) (threshold : ℤ) (eOrD : Bool) (acc pixel : ℤ) : ℤ :=
  if eOrD then
    if acc > threshold then colorBinaryMax bpp else pixel
  else
    if acc < threshold then colorBinaryMin bpp else pixel

/-- The loop of a format. The mask does not keep the count from being carried along. -/
def erodeDilateLoop (bpp : Bpp) (img : Image) (ksize : ℕ) (threshold : ℤ) (eOrD : Bool)
    (mask : Option Image) : RowFilter ℕ ℤ :=
  rowFilter bpp img ksize mask (fun _ => 0)
    ((countSlider (fastBit bpp) (slowBit bpp) (countStart eOrD)).cell img.w img.h ksize false)
    (erodeDilatePixel bpp threshold eOrD)

/-- `buf` is what the buffer image holds before. -/
def imlibErodeDilate (buf : ℤ → ℤ → ℕ) (img : Image) (ksize : ℕ) (threshold : ℤ) (eOrD : Bool)
    (mask : Option Image) : Image :=
  match img.bpp with
  | .binary => filtered img (erodeDilateLoop .binary img ksize threshold eOrD mask) buf 0
  | .grayscale => filtered img (erodeDilateLoop .grayscale img ksize threshold eOrD mask) buf 0
  | .rgb565 => filtered img (erodeDilateLoop .rgb565 img ksize threshold eOrD mask) buf 0
  | .bayer | .jpeg => img

def imlibErode (buf : ℤ → ℤ → ℕ) (img : Image) (ksize : ℕ) (threshold : ℤ) (mask : Option Image) : Image :=
  imlibErodeDilate buf img ksize threshold false mask

def imlibDilate (buf : ℤ → ℤ → ℕ) (img : Image) (ksize : ℕ) (threshold : ℤ) (mask : Option Image) : Image :=
  imlibErodeDilate buf img ksize threshold true mask

/-! ### Images of two values -/

/-- A binary image, or one of another format that is cleared or set at each pixel. -/
def TwoValued (img : Image) : Prop :=
  (img.bpp = .binary ∨ img.bpp = .grayscale ∨ img.bpp = .rgb565) ∧
    ∀ x y, img.Mem (x, y) →
      img.pixel x y = colorBinaryMin img.bpp ∨ img.pixel x y = colorBinaryMax img.bpp

/-- The set pixels of the window, a pixel of the border as often as the window repeats it. -/
def setCount (img : Image) (ksize : ℕ) (x y : ℤ) : ℕ :=
  (window img.pixel img.w img.h ksize x y).countP (· ≠ 0)

theorem twoValued_of_binary {img : Image} (hb : img.bpp = .binary) : TwoValued img := by
  refine ⟨.inl hb, fun x y _ => ?_⟩
  have hp := pixel_mem img x y
  simp only [hb, levels, colorBinaryMin, colorBinaryMax] at hp ⊢
  omega

theorem setCount_le (img : Image) (ksize : ℕ) (x y : ℤ) : setCount img ksize x y ≤ (2 * ksize + 1) ^ 2 := by
  rw [← length_window img.pixel img.w img.h ksize x y]
  exact List.countP_le_length

theorem sum_map_eq_countP {α : Type*} {f : α → ℤ} {p : α → Bool} : ∀ {l : List α},
    (∀ a ∈ l, f a = if p a then 1 else 0) → (l.map f).sum = l.countP p
  | [], _ => rfl
  | a :: l, h => by
      rw [List.map_cons, List.sum_cons, h a List.mem_cons_self, List.countP_cons,
        sum_map_eq_countP fun b hb => h b (List.mem_cons_of_mem a hb)]
      split <;> push_cast <;> ring

/-- A storage unit that holds one of the two values. -/
def IsBit (bpp : Bpp) (u : ℕ) : Prop :=
  getPixel bpp u = colorBinaryMin bpp ∨ getPixel bpp u = colorBinaryMax bpp

theorem TwoValued.isBit {img : Image} (hv : TwoValued img) {x y : ℤ} (hm : img.Mem (x, y)) :
    IsBit img.bpp (img.data x y) := by
  have h := hv.2 x y hm
  rwa [image_pixel] at h

/-- On these the two ways to read a bit agree. -/
theorem fastBit_eq {bpp : Bpp} {u : ℕ} (h : IsBit bpp u) : fastBit bpp u = slowBit bpp u := by
  cases bpp with
  | grayscale =>
    simp only [IsBit, colorBinaryMin, colorBinaryMax] at h
    simp only [fastBit, slowBit]
    omega
  | _ => rfl

theorem slowBit_eq {bpp : Bpp} {u : ℕ} (hb : bpp = .binary ∨ bpp = .grayscale ∨ bpp = .rgb565)
    (h : IsBit bpp u) : slowBit bpp u = if decide (getPixel bpp u ≠ 0) then 1 else 0 := by
  rcases hb with rfl | rfl | rfl <;> rcases h with h | h <;>
    simp [slowBit, h, colorBinaryMin, colorBinaryMax]

/-- The bits of the window of a pixel of the image add up to the number of its set pixels. -/
theorem sum_slowBit {img : Image} (hv : TwoValued img) (hw : 0 < img.w) (hh : 0 < img.h) (ksize : ℕ)
    (x y : ℤ) :
    ((window img.data img.w img.h ksize x y : Multiset ℕ).map (slowBit img.bpp)).sum =
      setCount img ksize x y := by
  rw [Multiset.map_coe, Multiset.sum_coe, setCount, window_pixel rfl, List.countP_map]
  refine sum_map_eq_countP fun u hu => ?_
  obtain ⟨c, r, hc, hr, rfl⟩ := exists_mem_of_mem_window hw hh hu
  exact slowBit_eq hv.1 (hv.isBit ⟨hc.1, hc.2, hr.1, hr.2⟩)

/-! ### The count -/

theorem countSlider_tracks (n : ℕ) (bit : ℕ → ℤ) (e : ℤ) :
    (countSlider bit bit (int32 e)).Tracks n (fun s m => s = int32 (e + (m.map bit).sum))
      (fun s m => s = int32 (e + (m.map bit).sum)) (fun s m => s = int32 (e + (m.map bit).sum)) := by
  refine Slider.tracks_of_eq n (fun m => int32 (e + (m.map bit).sum)) (fun _ => ?_) ?_ ?_ fun _ => rfl
  · rw [Multiset.map_zero, Multiset.sum_zero, add_zero]
    rfl
  · intro m u
    change int32 (int32 _ + bit u) = _
    rw [int32_add_left, Multiset.map_cons, Multiset.sum_cons]
    congr 1
    ring
  · intro m u v
    change int32 (int32 (int32 _ - bit u) + bit v) = _
    rw [int32_add_left, Multiset.map_cons, Multiset.sum_cons, Multiset.map_cons, Multiset.sum_cons,
      sub_eq_add_neg, add_assoc, int32_add_left]
    congr 1
    ring

theorem int32_countStart (eOrD : Bool) : int32 (countStart eOrD) = countStart eOrD := by
  cases eOrD <;> rfl

/-- One step along a row: where columns are exchanged the count stays as far off as it was, and elsewhere it
    is right. -/
theorem countSlider_cell {img : Image} {ksize : ℕ} (hv : TwoValued img) {eOrD : Bool} {x y e : ℤ}
    {data : ℤ → ℤ → ℕ} (hm : img.Mem (x, y)) (hdata : ∀ c r, y - ksize ≤ r → data c r = img.data c r) :
    (countSlider (fastBit img.bpp) (slowBit img.bpp) (countStart eOrD)).cell img.w img.h ksize false data x y
        (int32 (countStart eOrD - e + setCount img ksize (x - 1) y)) =
      int32 (countStart eOrD - (if Slider.Inner img.w img.h ksize x y then e else 0) +
        setCount img ksize x y) := by
  obtain ⟨hx0, hxw, hy0, hyh⟩ : 0 ≤ x ∧ x < img.w ∧ 0 ≤ y ∧ y < img.h := hm
  have hw : 0 < img.w := lt_of_le_of_lt hx0 hxw
  have hh : 0 < img.h := lt_of_le_of_lt hy0 hyh
  have hwindow : window data img.w img.h ksize x y = window img.data img.w img.h ksize x y :=
    window_congr hyh hdata
  rw [Slider.cell_congr (S := countSlider (fastBit img.bpp) (slowBit img.bpp) (countStart eOrD))
    (T := countSlider (slowBit img.bpp) (slowBit img.bpp) (countStart eOrD))
    (IsBit img.bpp) hw hyh ?bits (fun _ => rfl) (fun _ _ _ => rfl) ?swap (fun _ => rfl) _ hy0]
  case bits =>
    intro c r hc0 hcw hr hr0 hrh
    rw [hdata c r hr]
    exact hv.isBit ⟨hc0, hcw, hr0, hrh⟩
  case swap =>
    intro s a b ha hb
    simp only [countSlider, fastBit_eq ha, fastBit_eq hb]
  unfold Slider.cell
  by_cases hin : Slider.Inner img.w img.h ksize x y
  · rw [if_pos ⟨rfl, hin⟩, if_pos hin]
    have hbefore : int32 (countStart eOrD - e + setCount img ksize (x - 1) y) = int32 (countStart eOrD - e +
        ((window data img.w img.h ksize (x - 1) y : Multiset ℕ).map (slowBit img.bpp)).sum) := by
      rw [window_congr hyh hdata, sum_slowBit hv hw hh]
    have hs := (countSlider_tracks ((2 * ksize + 1) ^ 2) (slowBit img.bpp) (countStart eOrD - e)).slide rfl
      hin hbefore
    rw [hwindow, sum_slowBit hv hw hh] at hs
    exact hs
  · rw [if_neg fun h => hin h.2, if_neg hin, sub_zero]
    have hs := (countSlider_tracks ((2 * ksize + 1) ^ 2) (slowBit img.bpp) (countStart eOrD)).fill
      (w := img.w) (h := img.h) rfl data x y (int32 (countStart eOrD - e + setCount img ksize (x - 1) y))
    rw [hwindow, sum_slowBit hv hw hh, int32_countStart] at hs
    exact hs

/-- How far the count that reaches column `x` is behind the one of the window before it. It misses what
    changes at a pixel that the mask leaves alone, until a window is gone through again. A row starts
    with a count of zero. -/
def behind (img : Image) (ksize : ℕ) (eOrD : Bool) (mask : Option Image) (y : ℤ) : ℕ → ℤ
  | 0 => countStart eOrD + setCount img ksize (-1) y
  | x + 1 =>
      if skipped mask x y then
        behind img ksize eOrD mask y x + (setCount img ksize x y - setCount img ksize (x - 1) y)
      else if Slider.Inner img.w img.h ksize x y then behind img ksize eOrD mask y x
      else 0

/-- The count at a pixel of the image is off by what it is behind. -/
theorem erodeDilate_kept {img : Image} {ksize : ℕ} (hv : TwoValued img) (threshold : ℤ) {eOrD : Bool}
    {mask : Option Image} (buf : ℤ → ℤ → ℕ) {x y : ℤ} (hm : img.Mem (x, y)) :
    keptAt img (erodeDilateLoop img.bpp img ksize threshold eOrD mask) buf 0 x y =
      int32 (countStart eOrD - behind img ksize eOrD mask y (x + 1).toNat + setCount img ksize x y) := by
  obtain ⟨hx0, hxw, hy0, hyh⟩ := hm
  obtain ⟨x, rfl⟩ := Int.eq_ofNat_of_zero_le hx0
  obtain ⟨y, rfl⟩ := Int.eq_ofNat_of_zero_le hy0
  refine (RowFilter.accAt_carried (F := erodeDilateLoop img.bpp img ksize threshold eOrD mask)
    ⟨img.data, buf, 0⟩ (fun x y a => a =
      int32 (countStart eOrD - behind img ksize eOrD mask y (x + 1).toNat + setCount img ksize x y))
    ?start ?skip ?cell hxw hyh)
  case start =>
    intro y a
    have hzero : countStart eOrD - (countStart eOrD + setCount img ksize (-1) y) + setCount img ksize (-1) y =
        0 := by ring
    change 0 = int32 (countStart eOrD - (countStart eOrD + setCount img ksize (-1) y) + setCount img ksize (-1) y)
    rw [hzero]
    rfl
  case skip =>
    intro x y a hx hs ha
    change skipped mask x y = true at hs
    obtain ⟨x, rfl⟩ := Int.eq_ofNat_of_zero_le hx
    have hx1 : ((x : ℤ) - 1 + 1).toNat = x := by omega
    rw [hx1] at ha
    rw [ha, Int.toNat_natCast_add_one, behind, if_pos hs]
    congr 1
    ring
  case cell =>
    intro data x y a hx hxw hy hyh hs hdata ha
    change skipped mask x y = false at hs
    obtain ⟨x, rfl⟩ := Int.eq_ofNat_of_zero_le hx
    have hx1 : ((x : ℤ) - 1 + 1).toNat = x := by omega
    rw [hx1] at ha
    rw [ha, Int.toNat_natCast_add_one, behind, if_neg (Bool.eq_false_iff.mp hs)]
    exact countSlider_cell hv ⟨hx, hxw, hy, hyh⟩ hdata

theorem skipped_none (x y : ℤ) : ¬ skipped none x y = true := Bool.false_ne_true

/-- Without a mask nothing is missed. -/
theorem behind_of_none (img : Image) (ksize : ℕ) (eOrD : Bool) (y : ℤ) :
    ∀ x, behind img ksize eOrD none y (x + 1) = 0
  | 0 => by
      rw [behind, if_neg (skipped_none _ _), if_neg]
      exact fun h => absurd h.1 (not_lt.mpr (Int.natCast_nonneg ksize))
  | x + 1 => by
      rw [behind, if_neg (skipped_none _ _), behind_of_none img ksize eOrD y x, ite_self]

/-! ### The image -/

theorem imlibErodeDilate_shape (buf : ℤ → ℤ → ℕ) (img : Image) (ksize : ℕ) (threshold : ℤ) (eOrD : Bool)
    (mask : Option Image) : (imlibErodeDilate buf img ksize threshold eOrD mask).w = img.w ∧
      (imlibErodeDilate buf img ksize threshold eOrD mask).h = img.h ∧
      (imlibErodeDilate buf img ksize threshold eOrD mask).bpp = img.bpp := by
  unfold imlibErodeDilate
  split <;> exact ⟨rfl, rfl, rfl⟩

theorem erodeDilatePixel_mem {bpp : Bpp} (threshold : ℤ) (eOrD : Bool) (acc : ℤ) {pixel : ℤ}
    (h : 0 ≤ pixel ∧ pixel < levels bpp) : 0 ≤ erodeDilatePixel bpp threshold eOrD acc pixel ∧
      erodeDilatePixel bpp threshold eOrD acc pixel < levels bpp := by
  have hmin : 0 ≤ colorBinaryMin bpp ∧ colorBinaryMin bpp < levels bpp :=
    ⟨le_rfl, Int.natCast_pos.mpr (levels_pos bpp)⟩
  have hmax : 0 ≤ colorBinaryMax bpp ∧ colorBinaryMax bpp < levels bpp := by
    cases bpp <;> decide
  unfold erodeDilatePixel
  split_ifs
  · exact hmax
  · exact h
  · exact hmin
  · exact h

section Pixel

variable (buf : ℤ → ℤ → ℕ) {img : Image} {ksize : ℕ} (threshold : ℤ) (eOrD : Bool) {x y : ℤ}

/-- What is left at a pixel: the mask leaves it alone, or the count decides. -/
theorem imlibErodeDilate_pixel (hv : TwoValued img) (mask : Option Image) (hm : img.Mem (x, y)) :
    (imlibErodeDilate buf img ksize threshold eOrD mask).pixel x y =
      if skipped mask x y then img.pixel x y
      else erodeDilatePixel img.bpp threshold eOrD (int32 (countStart eOrD -
        behind img ksize eOrD mask y (x + 1).toNat + setCount img ksize x y)) (img.pixel x y) := by
  have hloop : imlibErodeDilate buf img ksize threshold eOrD mask =
      filtered img (erodeDilateLoop img.bpp img ksize threshold eOrD mask) buf 0 := by
    unfold imlibErodeDilate
    rcases hv.1 with hb | hb | hb <;> simp only [hb]
  rw [hloop]
  split
  · rename_i hs
    exact filtered_pixel_of_skipped rfl hm hs
  · rename_i hs
    have hpix := erodeDilatePixel_mem threshold eOrD (keptAt img
      (erodeDilateLoop img.bpp img ksize threshold eOrD mask) buf 0 x y) (pixel_mem img x y)
    rw [← erodeDilate_kept hv threshold buf hm, erodeDilateLoop,
      filtered_pixel_of_not rfl hm (Bool.eq_false_iff.mpr hs)]
    exact getPixel_putPixel_of_mem hpix.1 hpix.2

theorem imlibErodeDilate_pixel_of_none (hv : TwoValued img) (hm : img.Mem (x, y)) :
    (imlibErodeDilate buf img ksize threshold eOrD none).pixel x y =
      erodeDilatePixel img.bpp threshold eOrD (int32 (countStart eOrD + setCount img ksize x y))
        (img.pixel x y) := by
  obtain ⟨x, rfl⟩ := Int.eq_ofNat_of_zero_le hm.1
  rw [imlibErodeDilate_pixel buf threshold eOrD hv none hm, if_neg (skipped_none _ _), Int.toNat_natCast_add_one,
    behind_of_none, sub_zero]

end Pixel

/-! ### The original image -/

/-- An erosion as it should be: a pixel is cleared when too few of the others in its window are set. -/
def ErodesOriginal (img : Image) (ksize : ℕ) (threshold : ℤ) (out : Image) : Prop :=
  (out.w = img.w ∧ out.h = img.h ∧ out.bpp = img.bpp) ∧ ∀ x y, img.Mem (x, y) →
    out.pixel x y = if (setCount img ksize x y : ℤ) - 1 < threshold then colorBinaryMin img.bpp
      else img.pixel x y

/-- A dilation as it should be: a pixel is set when enough of its window is set. -/
def DilatesOriginal (img : Image) (ksize : ℕ) (threshold : ℤ) (out : Image) : Prop :=
  (out.w = img.w ∧ out.h = img.h ∧ out.bpp = img.bpp) ∧ ∀ x y, img.Mem (x, y) →
    out.pixel x y = if threshold < (setCount img ksize x y : ℤ) then colorBinaryMax img.bpp
      else img.pixel x y

/-- Whether a pixel that the operation can change is changed comes down to the test. -/
theorem ite_eq_ite_iff {p q : Prop} [Decidable p] [Decidable q] {a b : ℤ} :
    (if p then a else b) = (if q then a else b) ↔ (b ≠ a → (p ↔ q)) := by
  by_cases hp : p <;> by_cases hq : q <;> simp [hp, hq, eq_comm]

section Original

variable (buf : ℤ → ℤ → ℕ) {img : Image} (hv : TwoValued img) (ksize : ℕ) (threshold : ℤ)
include hv

theorem imlibErode_pixel {x y : ℤ} (hm : img.Mem (x, y)) :
    (imlibErode buf img ksize threshold none).pixel x y =
      if int32 ((setCount img ksize x y : ℤ) - 1) < threshold then colorBinaryMin img.bpp
      else img.pixel x y := by
  simp only [imlibErode, imlibErodeDilate_pixel_of_none buf threshold false hv hm, erodeDilatePixel, countStart,
    Bool.false_eq_true, if_false, sub_eq_neg_add]

theorem imlibDilate_pixel {x y : ℤ} (hm : img.Mem (x, y)) :
    (imlibDilate buf img ksize threshold none).pixel x y =
      if threshold < int32 (setCount img ksize x y) then colorBinaryMax img.bpp else img.pixel x y := by
  simp only [imlibDilate, imlibErodeDilate_pixel_of_none buf threshold true hv hm, erodeDilatePixel, countStart,
    if_true, zero_add, gt_iff_lt]

theorem erodesOriginal_iff :
    ErodesOriginal img ksize threshold (imlibErode buf img ksize threshold none) ↔
      ∀ x y, img.Mem (x, y) → img.pixel x y ≠ colorBinaryMin img.bpp →
        (int32 ((setCount img ksize x y : ℤ) - 1) < threshold ↔ (setCount img ksize x y : ℤ) - 1 < threshold) := by
  have hshape := imlibErodeDilate_shape buf img ksize threshold false none
  constructor
  · intro h x y hm
    have hpix := h.2 x y hm
    rwa [imlibErode_pixel buf hv ksize threshold hm, ite_eq_ite_iff] at hpix
  · intro h
    refine ⟨hshape, fun x y hm => ?_⟩
    rw [imlibErode_pixel buf hv ksize threshold hm, ite_eq_ite_iff]
    exact h x y hm

theorem dilatesOriginal_iff :
    DilatesOriginal img ksize threshold (imlibDilate buf img ksize threshold none) ↔
      ∀ x y, img.Mem (x, y) → img.pixel x y ≠ colorBinaryMax img.bpp →
        (threshold < int32 (setCount img ksize x y) ↔ threshold < (setCount img ksize x y : ℤ)) := by
  have hshape := imlibErodeDilate_shape buf img ksize threshold true none
  constructor
  · intro h x y hm
    have hpix := h.2 x y hm
    rwa [imlibDilate_pixel buf hv ksize threshold hm, ite_eq_ite_iff] at hpix
  · intro h
    refine ⟨hshape, fun x y hm => ?_⟩
    rw [imlibDilate_pixel buf hv ksize threshold hm, ite_eq_ite_iff]
    exact h x y hm

end Original

/-- A window of one of these kernels has no more pixels than an `int` counts. -/
theorem setCount_lt {ksize : ℕ} (hk : ksize ≤ 23169) (img : Image) (x y : ℤ) :
    setCount img ksize x y < 2147483648 := by
  have hle := setCount_le img ksize x y
  have hpow : (2 * ksize + 1) ^ 2 ≤ (2 * 23169 + 1) ^ 2 := Nat.pow_le_pow_left (by omega) 2
  omega

/-- One set pixel, which a window shows over and over. -/
def onePixel : Image := ⟨1, 1, .binary, fun _ _ => 1⟩

theorem onePixel_mem {x y : ℤ} : onePixel.Mem (x, y) ↔ x = 0 ∧ y = 0 := by
  simp only [Image.Mem, onePixel]
  omega

theorem setCount_onePixel (ksize : ℕ) (x y : ℤ) : setCount onePixel ksize x y = (2 * ksize + 1) ^ 2 := by
  rw [← length_window onePixel.pixel onePixel.w onePixel.h ksize x y, setCount, List.countP_eq_length]
  intro p hp
  obtain ⟨c, r, rfl⟩ := exists_of_mem_window hp
  rfl

end OpenMV.Filters
