import OpenMV.Filters.Kernel
import OpenMV.Vision.FloodFill

/-! Flood fill with a mask | scheme:worklist | source:src/src/openmv/omv/img/draw.c

    `imlib_flood_fill` lets `imlib_flood_fill_int` grow a region in a bitmap and then paints the pixels whose bit
    is set. The mask is copied into that bitmap before. So to the fill a pixel of the mask is one it has visited,
    which it does not enter, and to the painting it is one of the region. -/

namespace OpenMV.Vision
open Schemes.ScanFill Filters

instance (img : Image) (p : Cell) : Decidable (img.Mem p) := inferInstanceAs (Decidable (_ ∧ _ ∧ _ ∧ _))

/-- The bits of `out` before the fill. -/
def maskBits (img : Image) (mask : Option Image) (p : Cell) : Bool :=
  match mask with
  | none => false
  | some mask => decide (img.Mem p) && imageGetMaskPixel mask p.1 p.2

/-- The threshold as the format compares it, `f k` being `fast_floorf(threshold * k)`. -/
def colorThresholdOf (bpp : Bpp) (f : ℤ → ℤ) : ℤ :=
  match bpp with
  | .binary => f 1
  | .grayscale => f 255
  | .rgb565 => colorR5G6B5ToRgb565 (f 31) (f 63) (f 31)
  | .bayer | .jpeg => 0

/-- `out` after the fill, for at most `fuel` rounds. -/
def floodOut (lifoLen fuel : ℕ) (img : Image) (x y : ℤ) (seedThreshold floatingThreshold : ℤ → ℤ)
    (mask : Option Image) : Option (State (List Span)) :=
  imlibFloodFillInt lifoLen fuel (maskBits img mask) img x y
    (colorThresholdOf img.bpp seedThreshold) (colorThresholdOf img.bpp floatingThreshold)

/-- The loops over the image after the fill. -/
def paint (img : Image) (out : Cell → Bool) (c : ℤ) (invert clearBackground : Bool) : Image :=
  { img with
    data := fun x y =>
      if img.Mem (x, y) then
        if out (x, y) ^^ invert then putPixel img.bpp c
        else if clearBackground then putPixel img.bpp 0 else img.data x y
      else img.data x y }

def imlibFloodFill (lifoLen fuel : ℕ) (img : Image) (x y : ℤ) (seedThreshold floatingThreshold : ℤ → ℤ) (c : ℤ)
    (invert clearBackground : Bool) (mask : Option Image) : Option Image :=
  if img.Mem (x, y) then
    (floodOut lifoLen fuel img x y seedThreshold floatingThreshold mask).map fun s =>
      match img.bpp with
      | .binary | .grayscale | .rgb565 => paint img s.vis c invert clearBackground
      | .bayer | .jpeg => img
  else some img

/-! ### What is painted -/

/-- The pixels that should be painted: those of the mask that are reachable from the seed through pixels of the
    mask, or without a mask all that are reachable. -/
def Wanted (img : Image) (seed : Cell) (seedThreshold floatingThreshold : ℤ) (mask : Option Image) (p : Cell) : Prop :=
  match mask with
  | none => FloodReach img seed seedThreshold floatingThreshold p
  | some _ => maskBits img mask p = true ∧
    Relation.ReflTransGen (fun p q => FloodStep img seed seedThreshold floatingThreshold p q ∧
      maskBits img mask q = true)
      seed p

/-- The pixels that are reachable from the seed around the mask. -/
def Around (img : Image) (seed : Cell) (seedThreshold floatingThreshold : ℤ) (mask : Option Image) : Cell → Prop :=
  Relation.ReflTransGen (fun p q => FloodStep img seed seedThreshold floatingThreshold p q ∧
      maskBits img mask q = false) seed

section

variable {lifoLen fuel : ℕ} {img : Image} {x y : ℤ} {seedThreshold floatingThreshold : ℤ → ℤ} {mask : Option Image}

theorem wanted_painted {seed p : Cell} {s f : ℤ} (h : Wanted img seed s f mask p) :
    maskBits img mask p = true ∨ Around img seed s f mask p := by
  cases mask with
  | none =>
    refine .inr ?_
    change FloodReach img seed s f p at h
    induction h with
    | refl => exact .refl
    | tail _ hstep ih => exact ih.tail ⟨hstep, rfl⟩
  | some m => exact .inl h.1

/-- After the fill a bit is set if it is one of the mask, or if the pixel was reached around the mask. -/
theorem floodOut_spec (hbpp : img.bpp = .binary ∨ img.bpp = .grayscale ∨ img.bpp = .rgb565)
    (hw : img.w ≤ 32767) (hh : img.h ≤ 32768) (hseed : img.Mem (x, y))
    (hfuel : 3 * (img.w.toNat * img.h.toNat) ≤ fuel) :
    ∃ s, floodOut lifoLen fuel img x y seedThreshold floatingThreshold mask = some s ∧
      (img.w.toNat * img.h.toNat ≤ lifoLen → s.full = false) ∧
      (s.full = false → ∀ p, s.vis p = true ↔ maskBits img mask p = true ∨
        Around img (x, y) (colorThresholdOf img.bpp seedThreshold)
          (colorThresholdOf img.bpp floatingThreshold) mask p) := by
  generalize hst : colorThresholdOf img.bpp seedThreshold = st
  generalize hft : colorThresholdOf img.bpp floatingThreshold = ft
  -- the fill does not look at the bit of the seed, so it may be taken as clear
  have hpack : ∀ c : Ctx, c.Fits (floodFill lifoLen img (x, y) st ft).toGrid → xylr c = c := fun c hc =>
    xylr_of_fits (by simp [floodFill]) hw (by simp [floodFill]) hh hc
  have hvis : ∀ p ≠ (x, y), maskBits img mask p = Function.update (maskBits img mask) (x, y) false p := fun p hp =>
    (Function.update_of_ne hp _ _).symm
  have hfree : Function.update (maskBits img mask) (x, y) false (x, y) = false := Function.update_self ..
  obtain ⟨s, hx, -, -, -, hmark, hs, hreach, hall⟩ :=
    fill_spec (M := floodFill lifoLen img (x, y) st ft) hpack (Function.update (maskBits img mask) (x, y) false) (x, y)
      hseed hfree [] (by simpa [floodFill] using hfuel)
  have hlink : (floodFill lifoLen img (x, y) st ft).Reach (maskBits img mask) (x, y) =
      Around img (x, y) st ft mask := by
    have : (floodFill lifoLen img (x, y) st ft).Link (maskBits img mask) =
        fun p q => FloodStep img (x, y) st ft p q ∧ maskBits img mask q = false := by
      funext p q
      simp only [Grid.Link, FloodStep, floodFill, floodEdge, Grid.Mem, Image.Mem, Bool.and_eq_true, and_assoc]
    funext p
    rw [Grid.Reach, Around, this]
  refine ⟨s, ?_, fun hcap => ?_, fun hf p => ?_⟩
  · rw [floodOut, hst, hft]
    rw [← exec_start_congr (M := floodFill lifoLen img (x, y) st ft) hseed hvis] at hx
    rcases hbpp with h | h | h <;> simp only [imlibFloodFillInt, h] <;> exact hx
  · exact exec_not_full hpack hseed hfree [] (by simpa [floodFill] using hcap) hx
  · rw [hs, ← hlink]
    constructor
    · rintro (h | h)
      · by_cases hp : p = (x, y)
        · rw [hp] at h
          exact absurd h (by simp)
        · rw [← hvis p hp] at h
          exact .inl h
      · exact .inr (Grid.reach_congr (fun p hp => (hvis p hp).symm) (hreach p h))
    · rintro (h | h)
      · by_cases hp : p = (x, y)
        · rw [hp]
          exact .inr hmark
        · rw [hvis p hp] at h
          exact .inl h
      · exact .inr (hall hf p (Grid.reach_congr hvis h))

end

/-- With `invert` and `clear_background` off, the painting is the wanted one if and only if every pixel that is
    painted too much (one of the mask, or one reached around it) has the colour already. -/
theorem flood_fill_mask_iff (img : Image) (hbpp : img.bpp = .binary ∨ img.bpp = .grayscale ∨ img.bpp = .rgb565)
    (hw : img.w ≤ 32767) (hh : img.h ≤ 32768) (x y : ℤ) (hseed : img.Mem (x, y))
    (seedThreshold floatingThreshold : ℤ → ℤ) (c : ℤ) (mask : Option Image) (lifoLen fuel : ℕ)
    (hfuel : 3 * (img.w.toNat * img.h.toNat) ≤ fuel) :
    let st := colorThresholdOf img.bpp seedThreshold
    let ft := colorThresholdOf img.bpp floatingThreshold
    let color := c % levels img.bpp
    ∃ s out, floodOut lifoLen fuel img x y seedThreshold floatingThreshold mask = some s ∧
      imlibFloodFill lifoLen fuel img x y seedThreshold floatingThreshold c false false mask = some out ∧
      (img.w.toNat * img.h.toNat ≤ lifoLen → s.full = false) ∧
      (s.full = false →
        ((∀ p, (Wanted img (x, y) st ft mask p → img.Mem p → out.pixel p.1 p.2 = color) ∧
            (¬ Wanted img (x, y) st ft mask p → out.pixel p.1 p.2 = img.pixel p.1 p.2)) ↔
          ∀ p, img.Mem p → maskBits img mask p = true ∨ Around img (x, y) st ft mask p →
            ¬ Wanted img (x, y) st ft mask p → img.pixel p.1 p.2 = color)) := by
  intro st ft color
  obtain ⟨s, hs, hcap, hvis⟩ := floodOut_spec hbpp hw hh hseed hfuel
  refine ⟨s, paint img s.vis c false false, hs, ?_, hcap, fun hf => ?_⟩
  · rw [imlibFloodFill, if_pos hseed, hs, Option.map_some]
    rcases hbpp with h | h | h <;> rw [h]
  have hin : ∀ p, img.Mem p → (paint img s.vis c false false).pixel p.1 p.2 =
      if s.vis p = true then color else img.pixel p.1 p.2 := by
    intro p hp
    rw [image_pixel]
    simp only [paint, if_pos hp, Bool.xor_false, Bool.false_eq_true, if_false]
    split_ifs
    · rw [getPixel_putPixel]
    · rw [image_pixel]
  have hout : ∀ p, ¬ img.Mem p → (paint img s.vis c false false).pixel p.1 p.2 = img.pixel p.1 p.2 := by
    intro p hp
    rw [image_pixel, image_pixel]
    simp only [paint, if_neg hp]
  constructor
  · intro h p hp hpaint hnot
    rw [← (h p).2 hnot, hin p hp, if_pos ((hvis hf p).mpr hpaint)]
  · intro h p
    constructor
    · intro hwant hp
      rw [hin p hp, if_pos ((hvis hf p).mpr (wanted_painted hwant))]
    · intro hnot
      by_cases hp : img.Mem p
      · rw [hin p hp]
        split_ifs with hv
        · exact (h p hp ((hvis hf p).mp hv) hnot).symm
        · rfl
      · exact hout p hp

/-- A dark row of three pixels, and a mask with its last pixel only. -/
def darkRow : Image := ⟨3, 1, .grayscale, fun _ _ => 0⟩

def lastMask : Image := ⟨3, 1, .binary, fun x _ => if x = 2 then 1 else 0⟩

theorem flood_fill_mask_of_dark_row :
    let st := colorThresholdOf .grayscale fun _ => 0
    ∃ s out, floodOut 8192 9 darkRow 2 0 (fun _ => 0) (fun _ => 0) (some lastMask) = some s ∧
      imlibFloodFill 8192 9 darkRow 2 0 (fun _ => 0) (fun _ => 0) 255 false false (some lastMask) = some out ∧
      (darkRow.w.toNat * darkRow.h.toNat ≤ 8192 → s.full = false) ∧
      (s.full = false →
        ((∀ p, (Wanted darkRow (2, 0) st st (some lastMask) p → darkRow.Mem p →
            out.pixel p.1 p.2 = 255 % levels .grayscale) ∧
            (¬ Wanted darkRow (2, 0) st st (some lastMask) p → out.pixel p.1 p.2 = darkRow.pixel p.1 p.2)) ↔
          ∀ p, darkRow.Mem p → maskBits darkRow (some lastMask) p = true ∨
            Around darkRow (2, 0) st st (some lastMask) p →
            ¬ Wanted darkRow (2, 0) st st (some lastMask) p → darkRow.pixel p.1 p.2 = 255 % levels .grayscale)) :=
  flood_fill_mask_iff darkRow (.inr (.inl rfl)) (by decide) (by decide) 2 0 (by decide) (fun _ => 0) (fun _ => 0) 255
    (some lastMask) 8192 9 (by decide)

/-- From the first pixel of the row everything is painted: the pixel of the mask, and the two that are not in the
    mask. -/
theorem flood_fill_paints_outside_mask :
    ((imlibFloodFill 8192 9 darkRow 0 0 (fun _ => 0) (fun _ => 0) 255 false false (some lastMask)).map fun out =>
      (out.pixel 0 0, out.pixel 1 0, out.pixel 2 0)) = some (255, 255, 255) ∧
    maskBits darkRow (some lastMask) (0, 0) = false ∧ maskBits darkRow (some lastMask) (1, 0) = false ∧
    darkRow.pixel 0 0 = 0 ∧ darkRow.pixel 1 0 = 0 := by
  decide

end OpenMV.Vision
