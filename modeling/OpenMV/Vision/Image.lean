import Mathlib.Data.Int.Notation
import Mathlib.Data.Nat.Notation

/-! Images and colours | scheme:data | source:src/src/openmv/omv/img/imlib.h

    An image is a width, a height, a format and the pixels stored for it. The macros that read a
    pixel and compare colours are here, one of each per format, with the machine integers they end
    up in. -/

namespace OpenMV.Vision

/-- The value an `int16_t` holds after `x` is stored in it. -/
def int16 (x : ℤ) : ℤ := (x + 32768) % 65536 - 32768

/-- The value an `int` holds after `x` is computed in it. -/
def int32 (x : ℤ) : ℤ := (x + 2147483648) % 4294967296 - 2147483648

theorem int16_of_mem {x : ℤ} (h1 : -32768 ≤ x) (h2 : x ≤ 32767) : int16 x = x := by
  unfold int16
  omega

theorem int32_of_mem {x : ℤ} (h1 : -2147483648 ≤ x) (h2 : x ≤ 2147483647) : int32 x = x := by
  unfold int32
  omega

/-- A sum may be cut to an `int` at the end. -/
theorem int32_add_left (a b : ℤ) : int32 (int32 a + b) = int32 (a + b) := by
  unfold int32
  omega

inductive Bpp where
  | binary
  | grayscale
  | rgb565
  | bayer
  | jpeg
deriving DecidableEq, Repr

/-- `data x y` is the storage unit of the pixel: a bit, a byte or a 16-bit word. -/
structure Image where
  w : ℤ
  h : ℤ
  bpp : Bpp
  data : ℤ → ℤ → ℕ

def Image.Mem (img : Image) (p : ℤ × ℤ) : Prop := 0 ≤ p.1 ∧ p.1 < img.w ∧ 0 ≤ p.2 ∧ p.2 < img.h

def imageGetBinaryPixel (img : Image) (x y : ℤ) : ℤ := (img.data x y % 2 : ℕ)
def imageGetGrayscalePixel (img : Image) (x y : ℤ) : ℤ := (img.data x y % 256 : ℕ)
def imageGetRgb565Pixel (img : Image) (x y : ℤ) : ℤ := (img.data x y % 65536 : ℕ)

/-- The pixel as the format's own macro reads it. The other formats have no pixels of their own. -/
def Image.pixel (img : Image) (x y : ℤ) : ℤ :=
  match img.bpp with
  | .binary => imageGetBinaryPixel img x y
  | .grayscale => imageGetGrayscalePixel img x y
  | .rgb565 => imageGetRgb565Pixel img x y
  | .bayer | .jpeg => 0

/-! ### Colour channels and bounds -/

def colorRgb565ToR5 (pixel : ℤ) : ℤ := pixel / 2048 % 32
def colorRgb565ToG6 (pixel : ℤ) : ℤ := pixel / 32 % 64
def colorRgb565ToB5 (pixel : ℤ) : ℤ := pixel % 32

def colorBoundGrayscale (pixel0 pixel1 threshold : ℤ) : Bool :=
  ((pixel0 - pixel1).natAbs : ℤ) ≤ threshold

def colorBoundBinary : ℤ → ℤ → ℤ → Bool := colorBoundGrayscale

/-- The threshold is itself read as an RGB565 value, one bound for each channel. -/
def colorBoundRgb565 (pixel0 pixel1 threshold : ℤ) : Bool :=
  ((colorRgb565ToR5 pixel0 - colorRgb565ToR5 pixel1).natAbs : ℤ) ≤ colorRgb565ToR5 threshold &&
  ((colorRgb565ToG6 pixel0 - colorRgb565ToG6 pixel1).natAbs : ℤ) ≤ colorRgb565ToG6 threshold &&
  ((colorRgb565ToB5 pixel0 - colorRgb565ToB5 pixel1).natAbs : ℤ) ≤ colorRgb565ToB5 threshold

/-- The format's own `COLOR_BOUND`. -/
def colorBound : Bpp → ℤ → ℤ → ℤ → Bool
  | .binary => colorBoundBinary
  | .rgb565 => colorBoundRgb565
  | _ => colorBoundGrayscale

/-! ### Colour thresholds -/

/-- `color_thresholds_list_lnk_data_t`: L or the gray level, A and B. -/
structure ColorThresholds where
  LMin : UInt8
  LMax : UInt8
  AMin : Int8
  AMax : Int8
  BMin : Int8
  BMax : Int8
deriving DecidableEq, Repr

/-- `lab_table`: the L, A and B of an RGB565 pixel. -/
abbrev LabTable := ℤ → UInt8 × Int8 × Int8

def colorThresholdGrayscale (pixel : ℤ) (t : ColorThresholds) (invert : Bool) : Bool :=
  ((t.LMin.toNat : ℤ) ≤ pixel && pixel ≤ (t.LMax.toNat : ℤ)) ^^ invert

def colorThresholdBinary : ℤ → ColorThresholds → Bool → Bool := colorThresholdGrayscale

def colorThresholdRgb565 (lab : LabTable) (pixel : ℤ) (t : ColorThresholds) (invert : Bool) : Bool :=
  let l := (lab pixel).1
  let a := (lab pixel).2.1
  let b := (lab pixel).2.2
  (t.LMin ≤ l && l ≤ t.LMax && t.AMin ≤ a && a ≤ t.AMax && t.BMin ≤ b && b ≤ t.BMax) ^^ invert

/-- The format's own `COLOR_THRESHOLD`. -/
def colorThreshold (lab : LabTable) : Bpp → ℤ → ColorThresholds → Bool → Bool
  | .binary => colorThresholdBinary
  | .rgb565 => colorThresholdRgb565 lab
  | _ => colorThresholdGrayscale

end OpenMV.Vision
