import OpenMV.Filters.ErodeDilate

/-! Erosion and dilation with a mask | scheme:sliding-window | source:src/src/openmv/omv/img/binary.c

    A pixel that the mask leaves alone is passed over before its column is exchanged. So the count that is
    carried on from there is still that of an earlier column, or the zero that the row started with.
    The next count is right again if the window is gone through anew, near the left border; away from the
    borders it is right only when the mask selects the pixel before. -/

namespace OpenMV.Filters
open Schemes Vision Io

/-- A mask as it should be: the pixels it selects are as without a mask, and the others as they were. -/
def MaskSelects (img mask out plain : Image) : Prop :=
  (out.w = img.w ∧ out.h = img.h ∧ out.bpp = img.bpp) ∧ ∀ x y, img.Mem (x, y) →
    out.pixel x y = if imageGetMaskPixel mask x y then plain.pixel x y else img.pixel x y

/-- Away from the borders the mask selects no pixel without the one before it. -/
def NoRunBegins (mask : Image) (ksize : ℕ) : Prop :=
  ∀ x y, Slider.Inner mask.w mask.h ksize x y → imageGetMaskPixel mask x y = true →
    imageGetMaskPixel mask (x - 1) y = true

theorem skipped_some {mask : Image} {x y : ℤ} : skipped (some mask) x y = !imageGetMaskPixel mask x y := rfl

theorem mem_of_inner {img : Image} {ksize : ℕ} {x y : ℤ} (h : Slider.Inner img.w img.h ksize x y) :
    img.Mem (x, y) := by
  obtain ⟨hx1, hx2, hy1, hy2⟩ := h
  exact ⟨by dsimp only; omega, by dsimp only; omega, by dsimp only; omega, by dsimp only; omega⟩

/-! ### An image -/

section Image

variable (buf buf' : ℤ → ℤ → ℕ) {img : Image} (hv : TwoValued img) (mask : Image) (ksize : ℕ) (threshold : ℤ)
include hv

/-- The mask only selects, when at each selected pixel away from the borders the count that is behind and
    the right one have the same effect. -/
theorem maskSelects_iff (eOrD : Bool) :
    MaskSelects img mask (imlibErodeDilate buf img ksize threshold eOrD (some mask))
        (imlibErodeDilate buf' img ksize threshold eOrD none) ↔
      ∀ x y, Slider.Inner img.w img.h ksize x y → imageGetMaskPixel mask x y = true →
        erodeDilatePixel img.bpp threshold eOrD (int32 (countStart eOrD -
            behind img ksize eOrD (some mask) y x.toNat + setCount img ksize x y)) (img.pixel x y) =
          erodeDilatePixel img.bpp threshold eOrD (int32 (countStart eOrD + setCount img ksize x y))
            (img.pixel x y) := by
  constructor
  · intro h x y hin hsel
    have hm := mem_of_inner hin
    have hpix := h.2 x y hm
    rw [imlibErodeDilate_pixel buf threshold eOrD hv _ hm, skipped_some, hsel, if_neg (by decide), if_pos rfl,
      imlibErodeDilate_pixel_of_none buf' threshold eOrD hv hm] at hpix
    obtain ⟨x, rfl⟩ := Int.eq_ofNat_of_zero_le hm.1
    rwa [Int.toNat_natCast_add_one, behind, skipped_some, hsel, if_neg (by decide), if_pos hin] at hpix
  · intro h
    refine ⟨imlibErodeDilate_shape buf img ksize threshold eOrD _, fun x y hm => ?_⟩
    rw [imlibErodeDilate_pixel buf threshold eOrD hv _ hm, skipped_some]
    cases hsel : imageGetMaskPixel mask x y with
    | false => rfl
    | true =>
      rw [if_neg (by decide), if_pos rfl, imlibErodeDilate_pixel_of_none buf' threshold eOrD hv hm]
      obtain ⟨x, rfl⟩ := Int.eq_ofNat_of_zero_le hm.1
      rw [Int.toNat_natCast_add_one, behind, skipped_some, hsel, if_neg (by decide)]
      split
      · rename_i hin
        exact h x y hin hsel
      · rw [sub_zero]

end Image

/-! ### A mask -/

section Row

variable {img mask : Image} {ksize : ℕ} {eOrD : Bool} {y : ℤ}

/-- Where the mask has selected all there is away from the borders, the count is not behind. -/
theorem behind_of_selected : ∀ {x : ℕ}, (∀ c : ℕ, c ≤ x → Slider.Inner img.w img.h ksize c y →
    imageGetMaskPixel mask c y = true → imageGetMaskPixel mask (c - 1) y = true) →
    Slider.Inner img.w img.h ksize x y → imageGetMaskPixel mask x y = true →
    behind img ksize eOrD (some mask) y x = 0
  | 0, _, hin, _ => absurd hin.1 (not_lt.mpr (Int.natCast_nonneg ksize))
  | x + 1, hrun, hin, hsel => by
      have hprev : imageGetMaskPixel mask x y = true := by
        have hcast : ((x + 1 : ℕ) : ℤ) - 1 = x := by omega
        rw [← hcast]
        exact hrun (x + 1) le_rfl hin hsel
      rw [behind, skipped_some, hprev, if_neg (by decide)]
      split
      · rename_i hin'
        exact behind_of_selected (fun c hc => hrun c (by omega)) hin' hprev
      · rfl

variable (img eOrD) in
/-- Until a run of the mask begins away from the borders, what is carried is the count of the last selected
    pixel, or zero. -/
theorem behind_until : ∀ {x : ℕ}, (∀ c : ℕ, c < x → Slider.Inner img.w img.h ksize c y →
    imageGetMaskPixel mask c y = true → imageGetMaskPixel mask (c - 1) y = true) →
    behind img ksize eOrD (some mask) y x = countStart eOrD + setCount img ksize (x - 1) y ∨
      ∃ c : ℕ, c < x ∧ imageGetMaskPixel mask c y = true ∧
        behind img ksize eOrD (some mask) y x = setCount img ksize (x - 1) y - setCount img ksize c y
  | 0, _ => .inl (by rw [behind, Nat.cast_zero, zero_sub])
  | x + 1, hrun => by
      have hcast : ((x + 1 : ℕ) : ℤ) - 1 = x := by omega
      rw [hcast]
      cases hsel : imageGetMaskPixel mask x y with
      | true =>
        refine .inr ⟨x, Nat.lt_succ_self x, hsel, ?_⟩
        rw [behind, skipped_some, hsel, if_neg (by decide), sub_self]
        split
        · rename_i hin
          exact behind_of_selected (fun c hc => hrun c (by omega)) hin hsel
        · rfl
      | false =>
        rw [behind, skipped_some, hsel, if_pos (by decide)]
        rcases behind_until (x := x) fun c hc => hrun c (by omega) with h | ⟨c, hc, hc', h⟩
        · exact .inl (by rw [h]; ring)
        · exact .inr ⟨c, by omega, hc', by rw [h]; ring⟩

end Row

/-! ### A spot -/

/-- A binary image with one pixel that differs from the others: set for a dilation, clear for an erosion. -/
def spot (w h : ℤ) (p : ℤ × ℤ) (eOrD : Bool) : Image :=
  ⟨w, h, .binary, fun x y => if decide ((x, y) = p) = eOrD then 1 else 0⟩

/-- How often a window shows a pixel. -/
def shows (w h : ℤ) (ksize : ℕ) (x y : ℤ) (p : ℤ × ℤ) : ℕ :=
  (window (fun c r => (c, r)) w h ksize x y).countP fun q => decide (q = p)

theorem spot_pixel (w h : ℤ) (p : ℤ × ℤ) (eOrD : Bool) (x y : ℤ) :
    (spot w h p eOrD).pixel x y = if decide ((x, y) = p) = eOrD then 1 else 0 := by
  simp only [spot, Image.pixel, imageGetBinaryPixel]
  split <;> rfl

theorem setCount_spot (w h : ℤ) (p : ℤ × ℤ) (eOrD : Bool) (ksize : ℕ) (x y : ℤ) :
    (setCount (spot w h p eOrD) ksize x y : ℤ) =
      if eOrD then (shows w h ksize x y p : ℤ)
      else ((2 * ksize + 1) ^ 2 : ℕ) - shows w h ksize x y p := by
  have hcount : setCount (spot w h p eOrD) ksize x y = (window (fun c r => (c, r)) w h ksize x y).countP
      fun q => decide (decide (q = p) = eOrD) := by
    have hwindow := window_map (fun q : ℤ × ℤ => (spot w h p eOrD).pixel q.1 q.2) (fun c r => (c, r)) w h
      ksize x y
    change (window (spot w h p eOrD).pixel w h ksize x y).countP _ = _
    rw [hwindow, List.countP_map]
    refine List.countP_congr fun q _ => ?_
    simp [spot_pixel]
  have hlen := List.length_eq_countP_add_countP (l := window (fun c r => (c, r)) w h ksize x y)
    fun q => decide (q = p)
  rw [length_window] at hlen
  rw [hcount]
  cases eOrD with
  | true => simp [shows]
  | false =>
    simp only [Bool.false_eq_true, if_false, shows, hlen]
    simp

/-- A window inside the picture shows each of its pixels once. -/
theorem shows_eq_one {w h : ℤ} {ksize : ℕ} {x y : ℤ} {p : ℤ × ℤ} (hx : (ksize : ℤ) ≤ x ∧ x < w - ksize)
    (hy : (ksize : ℤ) ≤ y ∧ y < h - ksize) (hp : p ∈ squareCells ksize x y) : shows w h ksize x y p = 1 := by
  have hcells : window (fun c r => (c, r)) w h ksize x y = squareCells ksize x y := by
    rw [window_eq_map]
    conv_rhs => rw [← List.map_id (squareCells ksize x y)]
    refine List.map_congr_left fun q hq => ?_
    have hq' := mem_squareCells.mp hq
    rw [clamp_of_mem (by omega) (by omega), clamp_of_mem (by omega) (by omega)]
    rfl
  have hone := List.count_eq_one_of_mem (nodup_squareCells ksize x y) hp
  rw [shows, hcells, ← hone, List.count]
  exact List.countP_congr fun q _ => by simp

/-- It does not show what is further to the right. -/
theorem shows_eq_zero {w h : ℤ} {ksize : ℕ} {x y : ℤ} {p : ℤ × ℤ} (h0 : 0 < p.1) (hp : x + ksize < p.1) :
    shows w h ksize x y p = 0 := by
  rw [shows, window_eq_map, List.countP_map, List.countP_eq_zero]
  intro q hq
  have hq' := mem_squareCells.mp hq
  have hne : clamp q.1 w ≠ p.1 := by
    unfold clamp
    omega
  simpa using fun h => absurd (congrArg Prod.fst h) hne

/-- Counts that differ are told apart by a threshold, at a pixel that can change. -/
theorem exists_threshold {a b : ℤ} (hne : a ≠ b) (eOrD : Bool) : ∃ threshold,
    erodeDilatePixel .binary threshold eOrD a (if eOrD then 0 else 1) ≠
      erodeDilatePixel .binary threshold eOrD b (if eOrD then 0 else 1) := by
  cases eOrD with
  | true =>
    refine ⟨min a b, ?_⟩
    simp only [erodeDilatePixel, colorBinaryMax, if_true]
    split_ifs <;> omega
  | false =>
    refine ⟨max a b, ?_⟩
    simp only [erodeDilatePixel, colorBinaryMin, Bool.false_eq_true, if_false]
    split_ifs <;> omega

/-- Where a run begins away from the borders, the count for a spot just left behind is off by an odd
    number. -/
theorem behind_spot_odd {mask : Image} {ksize x : ℕ} {y : ℤ} (eOrD : Bool)
    (hin : Slider.Inner mask.w mask.h ksize x y) (hprev : imageGetMaskPixel mask (x - 1) y = false)
    (hrun : ∀ c : ℕ, c < x → Slider.Inner mask.w mask.h ksize c y → imageGetMaskPixel mask c y = true →
      imageGetMaskPixel mask (c - 1) y = true) :
    behind (spot mask.w mask.h (x - 1 + ksize, y + ksize) eOrD) ksize eOrD (some mask) y x % 2 = 1 := by
  obtain ⟨hx1, hx2, hy1, hy2⟩ := hin
  have hone : shows mask.w mask.h ksize (x - 1) y (x - 1 + ksize, y + ksize) = 1 :=
    shows_eq_one (by omega) ⟨hy1, hy2⟩ (mem_squareCells.mpr (by omega))
  have hodd : (((2 * ksize + 1) ^ 2 : ℕ) : ℤ) % 2 = 1 := by
    have hsq : (2 * ksize + 1) ^ 2 = 2 * (2 * ksize * ksize + 2 * ksize) + 1 := by ring
    omega
  rcases behind_until (spot mask.w mask.h (x - 1 + ksize, y + ksize) eOrD) eOrD hrun with
    h | ⟨c, hc, hsel, h⟩
  · rw [h, setCount_spot, hone]
    cases eOrD <;> simp only [countStart, Bool.false_eq_true, if_false, if_true] <;> omega
  · have hcx : (c : ℤ) ≠ x - 1 := by
      rintro heq
      rw [heq, hprev] at hsel
      exact absurd hsel (by decide)
    have hzero : shows mask.w mask.h ksize c y (x - 1 + ksize, y + ksize) = 0 :=
      shows_eq_zero (by dsimp only; omega) (by dsimp only; omega)
    rw [h, setCount_spot, setCount_spot, hone, hzero]
    cases eOrD <;> simp only [Bool.false_eq_true, if_false, if_true] <;> omega

/-! ### When a mask only selects -/

/-- A mask only selects, whatever the image and the threshold, when no run of it begins away from the
    borders. -/
theorem forall_maskSelects_iff (mask : Image) (ksize : ℕ) (eOrD : Bool) :
    (∀ buf buf' img threshold, img.bpp = .binary → img.w = mask.w → img.h = mask.h →
      MaskSelects img mask (imlibErodeDilate buf img ksize threshold eOrD (some mask))
        (imlibErodeDilate buf' img ksize threshold eOrD none)) ↔ NoRunBegins mask ksize := by
  constructor
  · intro h x y hin hsel
    have hx0 : 0 ≤ x := (mem_of_inner hin).1
    obtain ⟨x, rfl⟩ := Int.eq_ofNat_of_zero_le hx0
    induction x using Nat.strong_induction_on with
    | _ x ih =>
    by_contra hprev
    have hrun : ∀ c : ℕ, c < x → Slider.Inner mask.w mask.h ksize c y → imageGetMaskPixel mask c y = true →
        imageGetMaskPixel mask (c - 1) y = true := fun c hc hin' hsel' =>
      ih c hc hin' hsel' (Int.natCast_nonneg c)
    have hodd := behind_spot_odd eOrD hin (Bool.eq_false_iff.mpr hprev) hrun
    set img := spot mask.w mask.h (x - 1 + ksize, y + ksize) eOrD with himg
    have hpixel : img.pixel x y = if eOrD then 0 else 1 := by
      have hne : ((x : ℤ), y) ≠ ((x : ℤ) - 1 + ksize, y + ksize) := by
        intro heq
        have h1 := congrArg Prod.fst heq
        have h2 := congrArg Prod.snd heq
        dsimp only at h1 h2
        omega
      rw [himg, spot_pixel, decide_eq_false hne]
      cases eOrD <;> rfl
    have hcounts : int32 (countStart eOrD - behind img ksize eOrD (some mask) y x + setCount img ksize x y) ≠
        int32 (countStart eOrD + setCount img ksize x y) := by
      unfold int32
      omega
    obtain ⟨threshold, hthr⟩ := exists_threshold hcounts eOrD
    rw [← hpixel] at hthr
    have hsame := (maskSelects_iff (fun _ _ => 0) (fun _ _ => 0) (twoValued_of_binary rfl) mask ksize threshold
      eOrD).mp (h _ _ img threshold rfl rfl rfl) x y hin hsel
    exact hthr hsame
  · intro h buf buf' img threshold hb hw hh
    refine (maskSelects_iff buf buf' (twoValued_of_binary hb) mask ksize threshold eOrD).mpr
      fun x y hin hsel => ?_
    obtain ⟨x, rfl⟩ := Int.eq_ofNat_of_zero_le (mem_of_inner hin).1
    rw [Int.toNat_natCast, behind_of_selected (fun c _ hin' hsel' => ?_) hin hsel, sub_zero]
    rw [hw, hh] at hin'
    exact h c y hin' hsel'

end OpenMV.Filters
