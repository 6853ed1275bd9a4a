import Mathlib.Algebra.BigOperators.Ring.Finset
import OpenMV.Schemes.Subblocks

/-! The grid of contextual regions | scheme:tiling | source:src/src/openmv/omv/img/clahe.c

    `imlib_clahe_histeq` copies the image into the middle of a buffer whose sides are multiples of the numbers of
    regions, lets `CLAHE` work on the buffer, and copies back. The copies use the width of the image for the rows of
    the buffer, and `CLAHE` uses the width of the buffer. A pointer has 64 bits here, and the lines that `CLAHE` skips
    are counted in an `unsigned int`. -/

namespace OpenMV.Filters
open Schemes

/-! ### The code -/

def uiMaxRegX : ℕ := 16
def uiMaxRegY : ℕ := 16

def imLog2_2 (x : ℕ) : ℕ := if x &&& 0x2 ≠ 0 then 2 else 1
def imLog2_4 (x : ℕ) : ℕ := if x &&& 0xC ≠ 0 then 2 + imLog2_2 (x >>> 2) else imLog2_2 x
def imLog2_8 (x : ℕ) : ℕ := if x &&& 0xF0 ≠ 0 then 4 + imLog2_4 (x >>> 4) else imLog2_4 x
def imLog2_16 (x : ℕ) : ℕ := if x &&& 0xFF00 ≠ 0 then 8 + imLog2_8 (x >>> 8) else imLog2_8 x
def imLog2_32 (x : ℕ) : ℕ := if x &&& 0xFFFF0000 ≠ 0 then 16 + imLog2_16 (x >>> 16) else imLog2_16 x

/-- `xTileSize` and `yTileSize`: the number of regions. -/
def tileSize (maxReg size : ℕ) : ℕ := max (maxReg >>> (10 - min (imLog2_32 size) 10)) 2

/-- `pImageW` and `pImageH`. -/
def padded (tile size : ℕ) : ℕ := size + if size % tile ≠ 0 then tile - size % tile else 0

/-- The sizes of an image. The size of the buffer is an `int`. -/
structure ClaheSize where
  w : ℕ
  h : ℕ
  fits : padded (tileSize uiMaxRegX w) w * padded (tileSize uiMaxRegY h) h < 2147483648

namespace ClaheSize
variable (s : ClaheSize)

def xTileSize : ℕ := tileSize uiMaxRegX s.w
def yTileSize : ℕ := tileSize uiMaxRegY s.h
def pImageW : ℕ := padded s.xTileSize s.w
def pImageH : ℕ := padded s.yTileSize s.h
def xOffset : ℕ := (s.pImageW - s.w) / 2
def yOffset : ℕ := (s.pImageH - s.h) / 2

/-- `uiXSize` and `uiYSize`, the size of a region. -/
def uiXSize : ℕ := s.pImageW / s.xTileSize
def uiYSize : ℕ := s.pImageH / s.yTileSize

/-- The pixels, row by row. -/
def pixels : List (ℕ × ℕ) := (List.range s.h).flatMap fun y => (List.range s.w).map fun x => (x, y)

/-- Where both copies have the pixel: `temp.w` is the width of the image. -/
def claheAt (p : ℕ × ℕ) : ℕ := s.w * (p.2 + s.yOffset) + (p.1 + s.xOffset)

end ClaheSize

abbrev GrayMemory := ℕ → UInt8

/-- The copy into the buffer, which is cleared before; `toGray` is the conversion for the format. -/
def copyIn {Pixel : Type} (s : ClaheSize) (toGray : Pixel → UInt8) (img : ℕ × ℕ → Pixel) : GrayMemory :=
  s.pixels.foldl (fun mem p => Function.update mem (s.claheAt p) (toGray (img p))) fun _ => 0

/-- The copy back, without the pixels that the mask leaves out; `ofGray` is the conversion, which uses the old pixel. -/
def copyOut {Pixel : Type} (s : ClaheSize) (ofGray : UInt8 → Pixel → Pixel) (mask : ℕ × ℕ → Bool) (mem : GrayMemory)
    (img : ℕ × ℕ → Pixel) : ℕ × ℕ → Pixel :=
  s.pixels.foldl (fun img p =>
    if mask p then Function.update img p (ofGray (mem (s.claheAt p)) (img p)) else img) img

/-- `(ySize-1)*uiXRes`, as an `unsigned int`. -/
def skipLines (uiXRes ySize : ℕ) : ℕ := (ySize + 4294967296 - 1) % 4294967296 * uiXRes % 4294967296

def makeLut (min max : UInt8) (uiNrBins : ℕ) (i : UInt8) : UInt8 :=
  let binSize : UInt8 := .ofNat (1 + (max.toNat - min.toNat) / uiNrBins)
  .ofNat ((i.toNat - min.toNat) / binSize.toNat)

/-- A histogram, and the places its pixels were read from. -/
structure Tally where
  hist : ℕ → ℕ
  accesses : List ℕ

/-- `pulHistogram[pLookupTable[*pImage++]]++` -/
def countPixel (lut : UInt8 → UInt8) (mem : GrayMemory) (pImage : ℕ) (t : Tally) : Tally :=
  let bin := (lut (mem pImage)).toNat
  { hist := Function.update t.hist bin (t.hist bin + 1), accesses := t.accesses ++ [pImage] }

def makeHistogram (lut : UInt8 → UInt8) (mem : GrayMemory) (uiXRes uiSizeX uiSizeY pImage : ℕ) : Tally :=
  (tour (fun _ => 1) (fun _ => uiXRes - uiSizeX) uiSizeX uiSizeY (fun _ _ p t => countPixel lut mem p t)
    (pImage, ⟨fun _ => 0, []⟩)).2

/-- The first two loops of `CLAHE`: the histograms of the regions, in order. -/
def regionHistograms (s : ClaheSize) (lut : UInt8 → UInt8) (mem : GrayMemory) : List Tally :=
  (tour (fun _ => s.uiXSize) (fun _ => skipLines s.pImageW s.uiYSize) s.xTileSize s.yTileSize
    (fun _ _ p ts => ts ++ [makeHistogram lut mem s.pImageW s.uiXSize s.uiYSize p]) (0, [])).2

/-- The buffer, and the places that were read and written. -/
structure Traced where
  mem : GrayMemory
  accesses : List ℕ

/-- The new grey level: `uiNum` divides, with a shift if it is a power of two. -/
def blendMaps (lu ru lb rb : ℕ) (uiXSize uiYSize uiXCoef uiYCoef : ℕ) : UInt8 :=
  let uiNum := uiXSize * uiYSize % 4294967296
  let sum := (uiYSize - uiYCoef) * ((uiXSize - uiXCoef) * lu + uiXCoef * ru) +
    uiYCoef * ((uiXSize - uiXCoef) * lb + uiXCoef * rb)
  .ofNat (if uiNum &&& (uiNum - 1) ≠ 0 then sum / uiNum else sum >>> Nat.log2 uiNum)

def interpolate (lut : UInt8 → UInt8) (mapLU mapRU mapLB mapRB : ℕ → ℕ) (uiXRes uiXSize uiYSize pImage : ℕ)
    (t : Traced) : Traced :=
  (tour (fun _ => 1) (fun _ => (uiXRes + 4294967296 - uiXSize) % 4294967296) uiXSize uiYSize
    (fun uiYCoef uiXCoef p t =>
      let greyValue := (lut (t.mem p)).toNat
      { mem := Function.update t.mem p (blendMaps (mapLU greyValue) (mapRU greyValue) (mapLB greyValue)
          (mapRB greyValue) uiXSize uiYSize uiXCoef uiYCoef)
        accesses := t.accesses ++ [p] }) (pImage, t)).2

/-- `uiSubX` and `uiSubY`: half a region at the borders. -/
def subSize (nr size i : ℕ) : ℕ := if i = 0 then size >>> 1 else if i = nr then (size + 1) >>> 1 else size

/-- `uiXL` and `uiYU`, the region before. -/
def regionBefore (nr i : ℕ) : ℕ := if i = 0 then 0 else if i = nr then nr - 1 else i - 1

/-- `uiXR` and `uiYB`, the region behind. -/
def regionBehind (nr i : ℕ) : ℕ := if i = 0 then 0 else if i = nr then nr - 1 else i

/-- The last two loops of `CLAHE`. `maps` is `pulMapArray` with the number of the region. -/
def interpolateLoop (s : ClaheSize) (lut : UInt8 → UInt8) (maps : ℕ → ℕ → ℕ) (mem : GrayMemory) : Traced :=
  (tour (subSize s.xTileSize s.uiXSize) (fun uiY => skipLines s.pImageW (subSize s.yTileSize s.uiYSize uiY))
    (s.xTileSize + 1) (s.yTileSize + 1)
    (fun uiY uiX p t =>
      let uiXL := regionBefore s.xTileSize uiX
      let uiXR := regionBehind s.xTileSize uiX
      let uiYU := regionBefore s.yTileSize uiY
      let uiYB := regionBehind s.yTileSize uiY
      interpolate lut (maps (uiYU * s.xTileSize + uiXL)) (maps (uiYU * s.xTileSize + uiXR))
        (maps (uiYB * s.xTileSize + uiXL)) (maps (uiYB * s.xTileSize + uiXR)) s.pImageW
        (subSize s.xTileSize s.uiXSize uiX) (subSize s.yTileSize s.uiYSize uiY) p t)
    (0, ⟨mem, []⟩)).2

/-! ### What padding should keep -/

/-- Pixel `(x, y)` is at column `x + xOffset` and row `y + yOffset` of the grid, and is read back from there; all
    places are in the buffer; and the blocks have each pixel of the grid once. -/
structure PaddingKept (s : ClaheSize) : Prop where
  placed : ∀ (Pixel : Type) (toGray : Pixel → UInt8) (img : ℕ × ℕ → Pixel) (x y : ℕ), x < s.w → y < s.h →
    copyIn s toGray img ((y + s.yOffset) * s.pImageW + (x + s.xOffset)) = toGray (img (x, y))
  readBack : ∀ (Pixel : Type) (ofGray : UInt8 → Pixel → Pixel) (mask : ℕ × ℕ → Bool) (mem : GrayMemory)
    (img : ℕ × ℕ → Pixel) (x y : ℕ), x < s.w → y < s.h → mask (x, y) →
      copyOut s ofGray mask mem img (x, y) = ofGray (mem ((y + s.yOffset) * s.pImageW + (x + s.xOffset))) (img (x, y))
  copyInside : ∀ p ∈ s.pixels, s.claheAt p < s.pImageW * s.pImageH
  histInside : ∀ lut mem, ∀ t ∈ regionHistograms s lut mem, ∀ a ∈ t.accesses, a < s.pImageW * s.pImageH
  loopInside : ∀ lut maps mem, ∀ a ∈ (interpolateLoop s lut maps mem).accesses, a < s.pImageW * s.pImageH
  coverOnce : ∀ lut maps mem,
    (interpolateLoop s lut maps mem).accesses.Perm (List.range (s.pImageW * s.pImageH))

/-! ### Numbers of regions -/

theorem tileSize_le (size : ℕ) : 2 ≤ tileSize 16 size ∧ tileSize 16 size ≤ 16 := by
  refine ⟨le_max_right _ _, max_le ?_ (by decide)⟩
  rw [Nat.shiftRight_eq_div_pow]
  exact Nat.div_le_self _ _

theorem tileSize_of_lt : ∀ size < 128, tileSize 16 size = 2 := by decide

section Padded
variable {tile size : ℕ}

theorem dvd_padded (htile : 0 < tile) : tile ∣ padded tile size := by
  unfold padded
  have hmod := Nat.mod_lt size htile
  have hdiv := Nat.div_add_mod size tile
  split_ifs with h
  · refine ⟨size / tile + 1, ?_⟩
    rw [Nat.mul_succ]
    omega
  · rw [not_not] at h
    exact Nat.dvd_of_mod_eq_zero h

theorem le_padded : size ≤ padded tile size := Nat.le_add_right _ _

theorem padded_eq_iff (htile : 0 < tile) : padded tile size = size ↔ tile ∣ size := by
  unfold padded
  have hmod := Nat.mod_lt size htile
  rw [Nat.dvd_iff_mod_eq_zero]
  split_ifs with h
  · omega
  · simpa using h

theorem padded_zero : padded tile 0 = 0 := by simp [padded]

end Padded

namespace ClaheSize
variable (s : ClaheSize)

theorem xTileSize_bounds : 2 ≤ s.xTileSize ∧ s.xTileSize ≤ 16 := tileSize_le s.w

theorem yTileSize_bounds : 2 ≤ s.yTileSize ∧ s.yTileSize ≤ 16 := tileSize_le s.h

theorem fits' : s.pImageW * s.pImageH < 2147483648 := s.fits

theorem w_le : s.w ≤ s.pImageW := le_padded

theorem h_le : s.h ≤ s.pImageH := le_padded

theorem xTileSize_mul : s.xTileSize * s.uiXSize = s.pImageW :=
  Nat.mul_div_cancel' (dvd_padded (by have := s.xTileSize_bounds; omega))

theorem yTileSize_mul : s.yTileSize * s.uiYSize = s.pImageH :=
  Nat.mul_div_cancel' (dvd_padded (by have := s.yTileSize_bounds; omega))

/-- Two rows of regions of one line each for one or two lines, and regions of more lines else. -/
theorem uiYSize_cases : s.h = 0 ∧ s.uiYSize = 0 ∨ (s.h = 1 ∨ s.h = 2) ∧ s.uiYSize = 1 ∨ 3 ≤ s.h ∧ 2 ≤ s.uiYSize := by
  have hmul := s.yTileSize_mul
  have hle := s.h_le
  obtain ⟨h2, h16⟩ := s.yTileSize_bounds
  rcases Nat.lt_or_ge s.h 3 with hlt | hge
  · have htile : s.yTileSize = 2 := tileSize_of_lt s.h (by omega)
    have hpad : s.pImageH = padded 2 s.h := by rw [pImageH, htile]
    rw [htile, hpad] at hmul
    obtain h | h | h : s.h = 0 ∨ s.h = 1 ∨ s.h = 2 := by omega
    · rw [h] at hmul
      exact Or.inl ⟨h, by simpa [padded] using hmul⟩
    · rw [h] at hmul
      exact Or.inr (Or.inl ⟨Or.inl h, by simpa [padded] using hmul⟩)
    · rw [h] at hmul
      exact Or.inr (Or.inl ⟨Or.inr h, by simpa [padded] using hmul⟩)
  · refine Or.inr (Or.inr ⟨hge, ?_⟩)
    by_contra hlt
    have hone : s.yTileSize * s.uiYSize ≤ s.yTileSize * 1 := Nat.mul_le_mul_left _ (by omega)
    rcases Nat.lt_or_ge s.h 128 with hs | hs
    · have htile : s.yTileSize = 2 := tileSize_of_lt s.h hs
      omega
    · omega

theorem uiXSize_pos (hw : 0 < s.w) : 0 < s.uiXSize := by
  rcases Nat.eq_zero_or_pos s.uiXSize with h | h
  · have hmul := s.xTileSize_mul
    have hle := s.w_le
    rw [h] at hmul
    omega
  · exact h

end ClaheSize

/-! ### Places -/

theorem makeHistogram_accesses {lut : UInt8 → UInt8} {mem : GrayMemory} {uiXRes uiSizeX : ℕ} (hle : uiSizeX ≤ uiXRes)
    (uiSizeY p : ℕ) :
    (makeHistogram lut mem uiXRes uiSizeX uiSizeY p).accesses = blockAddrs uiXRes p uiSizeX uiSizeY := by
  rw [makeHistogram, tour_log _ _ _ _ Tally.accesses (fun _ _ p => [p]) fun _ _ _ _ => rfl, List.nil_append]
  exact flatMap_pixels _ (by omega)

theorem interpolate_accesses {lut : UInt8 → UInt8} {mapLU mapRU mapLB mapRB : ℕ → ℕ} {uiXRes uiXSize : ℕ}
    (hle : uiXSize ≤ uiXRes) (hlt : uiXRes < 4294967296) (uiYSize p : ℕ) (t : Traced) :
    (interpolate lut mapLU mapRU mapLB mapRB uiXRes uiXSize uiYSize p t).accesses =
      t.accesses ++ blockAddrs uiXRes p uiXSize uiYSize := by
  rw [interpolate, tour_log _ _ _ _ Traced.accesses (fun _ _ p => [p]) fun _ _ _ _ => rfl]
  congr 1
  exact flatMap_pixels _ (by omega)

/-! ### The blocks of the loops -/

theorem subSize_le (nr size i : ℕ) : subSize nr size i ≤ size := by
  unfold subSize
  rw [Nat.shiftRight_eq_div_pow, Nat.shiftRight_eq_div_pow]
  split_ifs with h0 hn
  · exact Nat.div_le_self _ _
  · omega
  · exact le_refl _

/-- The halves at the borders make one region. -/
theorem sum_subSize {nr : ℕ} (hnr : 0 < nr) (size : ℕ) :
    ∑ i ∈ Finset.range (nr + 1), subSize nr size i = nr * size := by
  obtain ⟨n, rfl⟩ : ∃ n, nr = n + 1 := ⟨nr - 1, by omega⟩
  rw [Finset.sum_range_succ, Finset.sum_range_succ']
  have hmiddle : ∀ i ∈ Finset.range n, subSize (n + 1) size (i + 1) = size := by
    intro i hi
    have hlt := Finset.mem_range.mp hi
    rw [subSize, if_neg (by omega), if_neg (by omega)]
  have hfirst : subSize (n + 1) size 0 = size / 2 := by
    rw [subSize, if_pos rfl, Nat.shiftRight_eq_div_pow, pow_one]
  have hlast : subSize (n + 1) size (n + 1) = (size + 1) / 2 := by
    rw [subSize, if_neg (by omega), if_pos rfl, Nat.shiftRight_eq_div_pow, pow_one]
  rw [Finset.sum_congr rfl hmiddle, hfirst, hlast, Finset.sum_const, Finset.card_range, smul_eq_mul, Nat.succ_mul]
  omega

theorem skipLines_of_pos {uiXRes ySize : ℕ} (hpos : 0 < ySize) (hlt : (ySize - 1) * uiXRes < 4294967296)
    (hy : ySize < 4294967296) : skipLines uiXRes ySize = (ySize - 1) * uiXRes := by
  have hdec : (ySize + 4294967296 - 1) % 4294967296 = ySize - 1 := by omega
  rw [skipLines, hdec, Nat.mod_eq_of_lt hlt]

theorem skipLines_zero {uiXRes : ℕ} (hpos : 0 < uiXRes) (hlt : uiXRes < 4294967296) :
    skipLines uiXRes 0 = 4294967296 - uiXRes := by
  have hmul : (0 + 4294967296 - 1) % 4294967296 * uiXRes = 4294967296 - uiXRes + (uiXRes - 1) * 4294967296 := by omega
  rw [skipLines, hmul, Nat.add_mul_mod_self_right]
  exact Nat.mod_eq_of_lt (by omega)

/-- Where the loops come to, if no block of lines is empty. -/
theorem tourPtr_of_pos {f g : ℕ → ℕ} {nx width total j : ℕ} (hf : ∑ i ∈ Finset.range nx, f i = width)
    (hg : ∀ k < j, 0 < g k ∧ g k ≤ total) (htotal : total * width < 2147483648) (hwidth : 0 < width) (i : ℕ) :
    tourPtr f (fun k => skipLines width (g k)) nx j i =
      (∑ k ∈ Finset.range j, g k) * width + ∑ k ∈ Finset.range i, f k := by
  rw [tourPtr, hf, Finset.sum_mul]
  congr 1
  refine Finset.sum_congr rfl fun k hk => ?_
  obtain ⟨hpos, hle⟩ := hg k (Finset.mem_range.mp hk)
  have hprod : g k * width ≤ total * width := Nat.mul_le_mul_right _ hle
  have hself : g k ≤ g k * width := Nat.le_mul_of_pos_right _ hwidth
  have hsucc : (g k - 1) * width + width = g k * width := by
    rw [← Nat.succ_mul, Nat.succ_eq_add_one, Nat.sub_add_cancel hpos]
  rw [skipLines_of_pos hpos (by omega) (by omega)]
  omega

namespace ClaheSize
variable (s : ClaheSize) (lut : UInt8 → UInt8) (mem : GrayMemory)

theorem pImageW_lt (hh : 0 < s.h) : s.pImageW < 2147483648 := by
  have hle : s.pImageW * 1 ≤ s.pImageW * s.pImageH := Nat.mul_le_mul_left _ (hh.trans_le s.h_le)
  have hfits := s.fits'
  omega

theorem uiXSize_le : s.uiXSize ≤ s.pImageW := Nat.div_le_self _ _

theorem interpolateLoop_accesses (maps : ℕ → ℕ → ℕ) : (interpolateLoop s lut maps mem).accesses =
    (List.range (s.yTileSize + 1)).flatMap fun j => (List.range (s.xTileSize + 1)).flatMap fun i =>
      blockAddrs s.pImageW (tourPtr (subSize s.xTileSize s.uiXSize)
        (fun uiY => skipLines s.pImageW (subSize s.yTileSize s.uiYSize uiY)) (s.xTileSize + 1) j i)
        (subSize s.xTileSize s.uiXSize i) (subSize s.yTileSize s.uiYSize j) := by
  rw [interpolateLoop, tour_log _ _ _ _ Traced.accesses fun j i p =>
    blockAddrs s.pImageW p (subSize s.xTileSize s.uiXSize i) (subSize s.yTileSize s.uiYSize j)]
  · simp only [List.nil_append, Nat.zero_add]
  · intro j i p t
    rcases Nat.eq_zero_or_pos s.h with hh | hh
    · -- there are no lines
      have hsize : s.uiYSize = 0 := by
        rcases s.uiYSize_cases with ⟨-, h⟩ | ⟨h, -⟩ | ⟨h, -⟩
        · exact h
        · omega
        · omega
      have hsub : subSize s.yTileSize s.uiYSize j = 0 := by
        have hle := subSize_le s.yTileSize s.uiYSize j
        omega
      simp only [hsub, blockAddrs_zero_right, List.append_nil]
      rfl
    · have hlt := s.pImageW_lt hh
      exact interpolate_accesses ((subSize_le _ _ _).trans s.uiXSize_le) (by omega) _ p t

/-- The blocks make up the grid. -/
theorem interpolateLoop_perm (maps : ℕ → ℕ → ℕ) (hw : 0 < s.w) (hh : 3 ≤ s.h) :
    (interpolateLoop s lut maps mem).accesses.Perm (List.range (s.pImageW * s.pImageH)) := by
  have hx := s.xTileSize_bounds
  have hy := s.yTileSize_bounds
  have hW : 0 < s.pImageW := hw.trans_le s.w_le
  have hsumX : ∑ i ∈ Finset.range (s.xTileSize + 1), subSize s.xTileSize s.uiXSize i = s.pImageW := by
    rw [sum_subSize (by omega), s.xTileSize_mul]
  have hsumY : ∑ j ∈ Finset.range (s.yTileSize + 1), subSize s.yTileSize s.uiYSize j = s.pImageH := by
    rw [sum_subSize (by omega), s.yTileSize_mul]
  have htwo : 2 ≤ s.uiYSize := by
    rcases s.uiYSize_cases with ⟨h, -⟩ | ⟨h, -⟩ | ⟨-, h⟩
    · omega
    · omega
    · exact h
  have hpos : ∀ k, 0 < subSize s.yTileSize s.uiYSize k ∧ subSize s.yTileSize s.uiYSize k ≤ s.pImageH := by
    intro k
    refine ⟨?_, (subSize_le _ _ _).trans (Nat.div_le_self _ _)⟩
    rw [subSize, Nat.shiftRight_eq_div_pow, Nat.shiftRight_eq_div_pow, pow_one]
    split_ifs with h0 hn
    · omega
    · omega
    · omega
  have hfits : s.pImageH * s.pImageW < 2147483648 := by
    rw [Nat.mul_comm]
    exact s.fits'
  rw [interpolateLoop_accesses]
  simp only [tourPtr_of_pos hsumX (fun k _ => hpos k) hfits hW]
  have hcols := fun j => flatMap_columns_perm s.pImageW
    ((∑ k ∈ Finset.range j, subSize s.yTileSize s.uiYSize k) * s.pImageW) (subSize s.yTileSize s.uiYSize j)
    (subSize s.xTileSize s.uiXSize) (s.xTileSize + 1)
  refine (List.Perm.flatMap_left _ fun j _ => hcols j).trans (List.Perm.of_eq ?_)
  have hbands := flatMap_bands s.pImageW 0 s.pImageW (subSize s.yTileSize s.uiYSize) (s.yTileSize + 1)
  simp only [Nat.zero_add] at hbands
  rw [hsumX, hbands, hsumY, blockAddrs_all, Nat.mul_comm]

/-- There is nothing to visit in an empty image. -/
theorem interpolateLoop_empty (maps : ℕ → ℕ → ℕ) (hempty : s.w = 0 ∨ s.h = 0) :
    (interpolateLoop s lut maps mem).accesses.Perm (List.range (s.pImageW * s.pImageH)) := by
  have hsize : s.pImageW * s.pImageH = 0 ∧ (s.uiXSize = 0 ∨ s.uiYSize = 0) := by
    rcases hempty with h | h
    · have hW : s.pImageW = 0 := by rw [pImageW, h, padded_zero]
      exact ⟨by rw [hW, Nat.zero_mul], Or.inl (by rw [uiXSize, hW, Nat.zero_div])⟩
    · have hH : s.pImageH = 0 := by rw [pImageH, h, padded_zero]
      exact ⟨by rw [hH, Nat.mul_zero], Or.inr (by rw [uiYSize, hH, Nat.zero_div])⟩
  obtain ⟨hprod, hzero⟩ := hsize
  rw [hprod, List.range_zero, List.perm_nil, interpolateLoop_accesses, List.flatMap_eq_nil_iff]
  intro j _
  rw [List.flatMap_eq_nil_iff]
  intro i _
  rcases hzero with h | h
  · rw [Nat.le_zero.mp ((subSize_le s.xTileSize s.uiXSize i).trans h.le), blockAddrs_zero_left]
  · rw [Nat.le_zero.mp ((subSize_le s.yTileSize s.uiYSize j).trans h.le), blockAddrs_zero_right]

/-- The regions are counted from where the loops come to. -/
theorem regionHistograms_eq : regionHistograms s lut mem = (List.range s.yTileSize).flatMap fun j =>
    (List.range s.xTileSize).flatMap fun i => [makeHistogram lut mem s.pImageW s.uiXSize s.uiYSize
      (tourPtr (fun _ => s.uiXSize) (fun _ => skipLines s.pImageW s.uiYSize) s.xTileSize j i)] := by
  rw [regionHistograms, tour_log _ _ _ _ (fun ts => ts) (fun _ _ p =>
    [makeHistogram lut mem s.pImageW s.uiXSize s.uiYSize p]) fun _ _ _ _ => rfl]
  simp only [List.nil_append, Nat.zero_add]

theorem exists_of_mem_regionHistograms {t : Tally} (ht : t ∈ regionHistograms s lut mem) :
    ∃ p, makeHistogram lut mem s.pImageW s.uiXSize s.uiYSize p = t := by
  rw [regionHistograms_eq] at ht
  simp only [List.mem_flatMap, List.mem_singleton] at ht
  obtain ⟨j, -, i, -, rfl⟩ := ht
  exact ⟨_, rfl⟩

theorem exists_mem_regionHistograms : ∃ t, t ∈ regionHistograms s lut mem := by
  have hx := s.xTileSize_bounds
  have hy := s.yTileSize_bounds
  rw [regionHistograms_eq]
  exact ⟨_, List.mem_flatMap.mpr ⟨0, List.mem_range.mpr (by omega), List.mem_flatMap.mpr
    ⟨0, List.mem_range.mpr (by omega), List.mem_singleton_self _⟩⟩⟩

/-- Every region is read inside the buffer. -/
theorem regionHistograms_inside : ∀ t ∈ regionHistograms s lut mem, ∀ a ∈ t.accesses,
    a < s.pImageW * s.pImageH := by
  intro t ht a ha
  rw [regionHistograms_eq] at ht
  simp only [List.mem_flatMap, List.mem_range, List.mem_singleton] at ht
  obtain ⟨j, hj, i, hi, rfl⟩ := ht
  rw [makeHistogram_accesses s.uiXSize_le, mem_blockAddrs] at ha
  obtain ⟨y, hy, x, hx, rfl⟩ := ha
  have hmulX := s.xTileSize_mul
  have hmulY := s.yTileSize_mul
  have hW : 0 < s.pImageW := by
    have hle := s.uiXSize_le
    omega
  have hsumX : ∑ i ∈ Finset.range s.xTileSize, s.uiXSize = s.pImageW := by
    rw [Finset.sum_const, Finset.card_range, smul_eq_mul, hmulX]
  have hfits : s.uiYSize * s.pImageW < 2147483648 := by
    have hle : s.uiYSize * s.pImageW ≤ s.pImageH * s.pImageW := Nat.mul_le_mul_right _ (Nat.div_le_self _ _)
    have hall := s.fits'
    rw [Nat.mul_comm] at hall
    omega
  have hptr := tourPtr_of_pos (g := fun _ => s.uiYSize) (j := j) hsumX
    (fun _ _ => ⟨by omega, le_refl s.uiYSize⟩) hfits hW i
  rw [hptr, Finset.sum_const, Finset.card_range, smul_eq_mul, Finset.sum_const, Finset.card_range, smul_eq_mul]
  have hcol : i * s.uiXSize + x < s.pImageW := by
    have hle : (i + 1) * s.uiXSize ≤ s.xTileSize * s.uiXSize := Nat.mul_le_mul_right _ hi
    rw [Nat.succ_mul] at hle
    omega
  have hrow : (j * s.uiYSize + y + 1) * s.pImageW ≤ s.pImageH * s.pImageW := by
    refine Nat.mul_le_mul_right _ ?_
    have hle : (j + 1) * s.uiYSize ≤ s.yTileSize * s.uiYSize := Nat.mul_le_mul_right _ hj
    rw [Nat.succ_mul] at hle
    omega
  rw [Nat.succ_mul, Nat.add_mul, Nat.mul_comm s.pImageH] at hrow
  omega

/-- With one line in a region the first band is empty, and the pointer is moved a long way on. -/
theorem interpolateLoop_outside (maps : ℕ → ℕ → ℕ) (hw : 0 < s.w) (hh : 0 < s.h) (hone : s.uiYSize = 1) :
    ∃ a ∈ (interpolateLoop s lut maps mem).accesses, ¬ a < s.pImageW * s.pImageH := by
  have hx := s.xTileSize_bounds
  have hy := s.yTileSize_bounds
  have hlt := s.pImageW_lt hh
  have hW : 0 < s.pImageW := hw.trans_le s.w_le
  have hfirst : subSize s.yTileSize s.uiYSize 0 = 0 := by
    rw [hone]
    rfl
  have hsecond : subSize s.yTileSize s.uiYSize 1 = 1 := by
    rw [subSize, if_neg (by omega), if_neg (by omega), hone]
  have hcol : subSize s.xTileSize s.uiXSize 1 = s.uiXSize := by
    rw [subSize, if_neg (by omega), if_neg (by omega)]
  refine ⟨tourPtr (subSize s.xTileSize s.uiXSize)
    (fun uiY => skipLines s.pImageW (subSize s.yTileSize s.uiYSize uiY)) (s.xTileSize + 1) 1 1, ?_, ?_⟩
  · rw [interpolateLoop_accesses, List.mem_flatMap]
    refine ⟨1, List.mem_range.mpr (by omega), List.mem_flatMap.mpr ⟨1, List.mem_range.mpr (by omega), ?_⟩⟩
    rw [mem_blockAddrs, hsecond, hcol]
    exact ⟨0, Nat.one_pos, 0, s.uiXSize_pos hw, by omega⟩
  · rw [tourPtr, sum_subSize (by omega), s.xTileSize_mul, Finset.sum_range_one, hfirst, skipLines_zero hW (by omega)]
    have hfits := s.fits'
    omega

end ClaheSize

/-! ### The copies -/

section Copies
variable {ι κ β : Type} [DecidableEq κ]

/-- Stores of one value at a place leave it there. -/
theorem foldl_update_apply {f : ι → κ} {g : ι → β} {a : κ} {v : β} : ∀ {l : List ι} {m : κ → β},
    (∀ q ∈ l, f q = a → g q = v) → (m a = v ∨ ∃ q ∈ l, f q = a) →
      l.foldl (fun m q => Function.update m (f q) (g q)) m a = v
  | [], m, _, h => by simpa using h
  | q :: l, m, hall, h => by
      rw [List.foldl_cons]
      refine foldl_update_apply (fun r hr => hall r (List.mem_cons_of_mem q hr)) ?_
      by_cases hq : f q = a
      · left
        rw [← hq, Function.update_self]
        exact hall q List.mem_cons_self hq
      · rw [Function.update_of_ne (Ne.symm hq)]
        rcases h with h | ⟨r, hr, hra⟩
        · exact Or.inl h
        · rcases List.mem_cons.mp hr with rfl | hr
          · exact absurd hra hq
          · exact Or.inr ⟨r, hr, hra⟩

/-- Every place is changed once. -/
theorem foldl_update_self {p : κ → Bool} {g : κ → β → β} {a : κ} : ∀ {l : List κ} {m : κ → β}, l.Nodup →
    l.foldl (fun m q => if p q then Function.update m q (g q (m q)) else m) m a =
      if a ∈ l ∧ p a then g a (m a) else m a
  | [], m, _ => by simp
  | q :: l, m, hnodup => by
      obtain ⟨hq, hl⟩ := List.nodup_cons.mp hnodup
      rw [List.foldl_cons, foldl_update_self hl]
      by_cases ha : a = q
      · subst ha
        by_cases hp : p a
        · simp [hq, hp]
        · simp [hq, hp]
      · by_cases hp : p q
        · simp [ha, hp]
        · simp [ha, hp]

end Copies

namespace ClaheSize
variable {s : ClaheSize}

theorem mem_pixels {x y : ℕ} : (x, y) ∈ s.pixels ↔ x < s.w ∧ y < s.h := by
  simp [pixels, and_comm]

theorem nodup_pixels : s.pixels.Nodup := by
  rw [pixels, List.nodup_flatMap]
  refine ⟨fun y _ => List.nodup_range.map fun _ _ h => (Prod.mk.inj h).1, ?_⟩
  refine List.nodup_range.imp fun hne => ?_
  intro p hp hp'
  obtain ⟨x, -, rfl⟩ := List.mem_map.mp hp
  obtain ⟨x', -, heq⟩ := List.mem_map.mp hp'
  exact hne (Prod.mk.inj heq).2.symm

theorem claheAt_inj {p q : ℕ × ℕ} (hp : p ∈ s.pixels) (hq : q ∈ s.pixels) (h : s.claheAt p = s.claheAt q) : p = q := by
  obtain ⟨x, y⟩ := p
  obtain ⟨x', y'⟩ := q
  obtain ⟨hx, -⟩ := mem_pixels.mp hp
  obtain ⟨hx', -⟩ := mem_pixels.mp hq
  simp only [claheAt] at h
  obtain hlt | heq | hlt := Nat.lt_trichotomy y y'
  · have hle : s.w * (y + s.yOffset + 1) ≤ s.w * (y' + s.yOffset) := Nat.mul_le_mul_left _ (by omega)
    rw [Nat.mul_succ] at hle
    omega
  · subst heq
    have hxx : x = x' := by omega
    rw [hxx]
  · have hle : s.w * (y' + s.yOffset + 1) ≤ s.w * (y + s.yOffset) := Nat.mul_le_mul_left _ (by omega)
    rw [Nat.mul_succ] at hle
    omega

theorem claheAt_lt {p : ℕ × ℕ} (hp : p ∈ s.pixels) : s.claheAt p < s.pImageW * s.pImageH := by
  obtain ⟨x, y⟩ := p
  obtain ⟨hx, hy⟩ := mem_pixels.mp hp
  have hw := s.w_le
  have hh := s.h_le
  simp only [claheAt, xOffset, yOffset]
  have hrow : s.w * (y + (s.pImageH - s.h) / 2) ≤ s.pImageW * (s.pImageH - 1) :=
    Nat.mul_le_mul hw (by omega)
  have hmul : s.pImageW * (s.pImageH - 1) + s.pImageW = s.pImageW * s.pImageH := by
    rw [← Nat.mul_succ, Nat.succ_eq_add_one, Nat.sub_add_cancel (by omega)]
  omega

theorem copyIn_claheAt {Pixel : Type} (toGray : Pixel → UInt8) (img : ℕ × ℕ → Pixel) {p : ℕ × ℕ} (hp : p ∈ s.pixels) :
    copyIn s toGray img (s.claheAt p) = toGray (img p) := by
  refine foldl_update_apply (fun q hq h => ?_) (Or.inr ⟨p, hp, rfl⟩)
  rw [claheAt_inj hq hp h]

theorem copyOut_apply {Pixel : Type} (ofGray : UInt8 → Pixel → Pixel) {mask : ℕ × ℕ → Bool} (mem : GrayMemory)
    (img : ℕ × ℕ → Pixel) {p : ℕ × ℕ} (hp : p ∈ s.pixels) (hmask : mask p) :
    copyOut s ofGray mask mem img p = ofGray (mem (s.claheAt p)) (img p) :=
  (foldl_update_self nodup_pixels).trans (if_pos ⟨hp, hmask⟩)

end ClaheSize

/-- The grid has the pixels at their places, and the loops stay in it, exactly if the width is a multiple of the number
    of regions and there are three lines, or there is nothing to do. -/
theorem clahe_padding_iff (s : ClaheSize) :
    PaddingKept s ↔ s.w = 0 ∨ s.h = 0 ∨ s.xTileSize ∣ s.w ∧ 3 ≤ s.h := by
  have hx := s.xTileSize_bounds
  constructor
  · intro hkept
    by_contra hno
    obtain ⟨hw, hno⟩ := not_or.mp hno
    obtain ⟨hh, hno⟩ := not_or.mp hno
    rcases s.uiYSize_cases with ⟨h, -⟩ | ⟨-, hone⟩ | ⟨hthree, -⟩
    · exact hh h
    · obtain ⟨a, ha, hout⟩ := s.interpolateLoop_outside id (fun _ => 0) (fun _ _ => 0) (by omega) (by omega) hone
      exact hout (hkept.loopInside id (fun _ _ => 0) (fun _ => 0) a ha)
    · -- the pixel of the second line that is read back from somewhere else
      refine hno ⟨?_, hthree⟩
      rw [← padded_eq_iff (by omega)]
      have hread := hkept.readBack UInt8 (fun g _ => g) (fun _ => true)
        (fun a => if a = s.claheAt (0, 1) then 1 else 0) (fun _ => 0) 0 1 (by omega) (by omega) rfl
      rw [ClaheSize.copyOut_apply _ _ _ (ClaheSize.mem_pixels.mpr ⟨by omega, by omega⟩) rfl, if_pos rfl] at hread
      have heq : (1 + s.yOffset) * s.pImageW + (0 + s.xOffset) = s.claheAt (0, 1) := by
        by_contra hne
        rw [if_neg hne] at hread
        exact absurd hread (by decide)
      simp only [ClaheSize.claheAt] at heq
      rw [Nat.mul_comm s.w, Nat.add_right_cancel_iff] at heq
      exact Nat.eq_of_mul_eq_mul_left (by omega) heq
  · intro hcond
    have hat : ∀ x y, x < s.w → y < s.h →
        (y + s.yOffset) * s.pImageW + (x + s.xOffset) = s.claheAt (x, y) := by
      intro x y hxw hyh
      rcases hcond with h | h | ⟨hdvd, -⟩
      · omega
      · omega
      · have hW : s.pImageW = s.w := (padded_eq_iff (by omega)).mpr hdvd
        simp only [ClaheSize.claheAt]
        rw [hW, Nat.mul_comm]
    have hcover : ∀ lut maps mem,
        (interpolateLoop s lut maps mem).accesses.Perm (List.range (s.pImageW * s.pImageH)) := by
      intro lut maps mem
      rcases Nat.eq_zero_or_pos s.w with hw | hw
      · exact s.interpolateLoop_empty lut mem maps (Or.inl hw)
      · rcases hcond with h | h | ⟨-, hthree⟩
        · omega
        · exact s.interpolateLoop_empty lut mem maps (Or.inr h)
        · exact s.interpolateLoop_perm lut mem maps hw hthree
    constructor
    · intro Pixel toGray img x y hxw hyh
      rw [hat x y hxw hyh]
      exact ClaheSize.copyIn_claheAt toGray img (ClaheSize.mem_pixels.mpr ⟨hxw, hyh⟩)
    · intro Pixel ofGray mask mem img x y hxw hyh hmask
      rw [hat x y hxw hyh]
      exact ClaheSize.copyOut_apply ofGray mem img (ClaheSize.mem_pixels.mpr ⟨hxw, hyh⟩) hmask
    · exact fun p hp => ClaheSize.claheAt_lt hp
    · exact fun lut mem => s.regionHistograms_inside lut mem
    · exact fun lut maps mem a ha => List.mem_range.mp ((hcover lut maps mem).mem_iff.mp ha)
    · exact hcover

/-- Three columns, in a grid of four. -/
def threeColumns : ClaheSize := ⟨3, 4, by decide⟩

/-- The first pixel of the second line is read from column 3 of the line before. -/
theorem clahe_padding_three_columns : ¬ PaddingKept threeColumns := by
  intro hkept
  have hread := hkept.readBack UInt8 (fun g _ => g) (fun _ => true) (fun a => if a = 4 then 1 else 0) (fun _ => 0) 0 1
    (by decide) (by decide) rfl
  have hout : copyOut threeColumns (fun g (_ : UInt8) => g) (fun _ => true) (fun a => if a = 4 then 1 else 0)
      (fun _ => 0) (0, 1) = 0 := by decide
  have hgrid : (1 + threeColumns.yOffset) * threeColumns.pImageW + (0 + threeColumns.xOffset) = 4 := by decide
  rw [hout, hgrid] at hread
  exact absurd hread (by decide)

end OpenMV.Filters
