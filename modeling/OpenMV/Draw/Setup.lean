import OpenMV.Vision.FindBlobs
import Mathlib.Algebra.Order.Floor.Ring
import Mathlib.Data.Rat.Floor
import Mathlib.Tactic.FieldSimp
import Mathlib.Tactic.Linarith
import Mathlib.Tactic.Positivity

/-! Where an image is drawn | scheme:geometry | source:src/src/openmv/omv/img/draw.c

    The first part of `imlib_draw_image`, and `imlib_draw_image_rectangle`: the scaled image is clipped
    to the destination, in both directions in the same way, and the source position of the first column
    and the step to the next one are written as fixed-point numbers with 16 bits after the point. The
    scales are rational and everything is computed exactly, also `src_x_start << 16`, which in an `int`
    wraps around from 32768 hidden columns on. -/

namespace OpenMV.Draw
open Vision

/-- The hints that choose the algorithm or the place. -/
structure Hint where
  area : Bool
  bilinear : Bool
  bicubic : Bool
  center : Bool
  extractRgbChannelFirst : Bool
  applyColorPaletteFirst : Bool
deriving DecidableEq, Repr

/-! ### One direction -/

/-- `dst_x_start`, `dst_x_end` and `src_x_start`. -/
structure Placed where
  start : ℤ
  stop : ℤ
  src : ℤ
deriving DecidableEq, Repr

/-- The place of the image before it is cut. -/
def posOf (scaled offset : ℤ) (center : Bool) : ℤ := if center then offset - scaled / 2 else offset

/-- The clamping to the bounds of the destination. -/
def clip (dstSize scaled offset : ℤ) (center : Bool) : Option Placed :=
  let pos := posOf scaled offset center
  let src := if pos < 0 then -pos else 0
  let start := if pos < 0 then 0 else pos
  if start ≥ dstSize then none
  else if scaled - src ≤ 0 then none
  else some ⟨start, min (start + (scaled - src)) dstSize, src⟩

/-- `src_width_scaled`. -/
def scaledSize (size : ℤ) (scale : ℚ) : ℤ := ⌊|scale| * size⌋

/-- The variables of the loop over one direction. -/
structure Axis where
  /-- `src_img_w`: the width of the source or of the region of interest. -/
  size : ℤ
  start : ℤ
  stop : ℤ
  /-- `dst_delta_x`. -/
  delta : ℤ
  srcStart : ℤ
  frac : ℤ
  accumReset : ℤ
deriving DecidableEq, Repr

/-- `src_x_start` of a direction that is drawn backwards: the offset slides forward by as much as is
    left. -/
def flipStart (scaled : ℤ) (p : Placed) : ℤ := min p.start (scaled - (p.stop - p.start))

/-- `src_x_start` before the offset of the region of interest is added. -/
def hidden (scaled : ℤ) (scale : ℚ) (p : Placed) : ℤ := if scale < 0 then flipStart scaled p else p.src

/-- The loop variables for a clipped image; `roi` is the start of the region of interest, 0 if there is
    none. -/
def Placed.axis (size roi : ℤ) (scale : ℚ) (p : Placed) : Axis :=
  let srcStart := hidden (scaledSize size scale) scale p + ⌊roi * |scale|⌋
  { size := size
    start := p.start
    stop := p.stop
    delta := if scale < 0 then -1 else 1
    srcStart := srcStart
    frac := ⌊65536 / |scale|⌋
    accumReset := ⌊(srcStart * 65536 : ℤ) / |scale|⌋ }

def setupAxis (dstSize size roi offset : ℤ) (scale : ℚ) (center : Bool) : Option Axis :=
  let scaled := scaledSize size scale
  if scaled < 1 then none else (clip dstSize scaled offset center).map (Placed.axis size roi scale)

namespace Axis

variable (a : Axis)

/-- `dst_x_reset`. -/
def reset : ℤ := if a.delta < 0 then a.stop - 1 else a.start

/-- `src_x_frac_size`. -/
def fracSize : ℤ := (a.frac + 65535) / 65536

/-- The number of rounds of the loop. -/
def count : ℕ := (a.stop - a.start).toNat

/-- The accumulator in round `k`. -/
def accum (k : ℤ) : ℤ := a.accumReset + k * a.frac

/-- The accumulator when position `x` is drawn. -/
def accumAt (x : ℤ) : ℤ := a.accum ((x - a.reset) * a.delta)

def shift (d : ℤ) : Axis := { a with accumReset := a.accumReset - d }

end Axis

/-- What the clamping leaves lies in the destination and in the scaled image. -/
theorem clip_bounds {dstSize scaled offset : ℤ} {center : Bool} {p : Placed}
    (h : clip dstSize scaled offset center = some p) : 0 ≤ p.start ∧ p.start < p.stop ∧
    p.stop ≤ dstSize ∧ 0 ≤ p.src ∧ p.src + (p.stop - p.start) ≤ scaled := by
  simp only [clip] at h
  split_ifs at h <;> cases h <;> simp only <;> omega

/-- Some of the image lies in the destination. -/
def Visible (dstSize size pos : ℤ) : Prop := 0 < size ∧ 0 < dstSize ∧ pos < dstSize ∧ 0 < pos + size

theorem clip_eq_some_iff {dstSize size offset : ℤ} {center : Bool} (hsize : 1 ≤ size) {p : Placed} :
    clip dstSize size offset center = some p ↔ Visible dstSize size (posOf size offset center) ∧
      p = ⟨max (posOf size offset center) 0, min (posOf size offset center + size) dstSize,
        max (-posOf size offset center) 0⟩ := by
  unfold clip
  generalize posOf size offset center = pos
  obtain ⟨start, stop, src⟩ := p
  simp only [Visible]
  split_ifs <;> simp only [false_iff, Option.some.injEq, Placed.mk.injEq] <;> omega

theorem setupAxis_eq_some {dstSize size roi offset : ℤ} {scale : ℚ} {center : Bool} {a : Axis} :
    setupAxis dstSize size roi offset scale center = some a ↔ 1 ≤ scaledSize size scale ∧
    ∃ p, clip dstSize (scaledSize size scale) offset center = some p ∧ p.axis size roi scale = a := by
  simp only [setupAxis]
  split_ifs with h
  · simp [h]
  · simp [not_lt.mp h]

theorem hidden_bounds {scaled : ℤ} {scale : ℚ} {p : Placed} (h0 : 0 ≤ p.start) (hsrc : 0 ≤ p.src)
    (h : p.src + (p.stop - p.start) ≤ scaled) :
    0 ≤ hidden scaled scale p ∧ hidden scaled scale p + (p.stop - p.start) ≤ scaled := by
  unfold hidden flipStart
  split_ifs <;> omega

/-! At scale 1 or -1 the accumulator steps from column to column. -/

theorem scaledSize_unit {scale : ℚ} (hs : |scale| = 1) (size : ℤ) : scaledSize size scale = size := by
  simp [scaledSize, hs]

theorem Placed.axis_unit {scale : ℚ} (hs : |scale| = 1) (size roi : ℤ) (p : Placed) :
    p.axis size roi scale = {
      size := size
      start := p.start
      stop := p.stop
      delta := if scale < 0 then -1 else 1
      srcStart := hidden size scale p + roi
      frac := 65536
      accumReset := (hidden size scale p + roi) * 65536 } := by
  have hroi : ⌊(roi : ℚ) * 1⌋ = roi := by simp
  have hfrac : ⌊(65536 : ℚ) / 1⌋ = 65536 := by norm_num
  have hreset : ⌊(((hidden size scale p + roi) * 65536 : ℤ) : ℚ) / 1⌋ =
      (hidden size scale p + roi) * 65536 := by
    rw [div_one, Int.floor_intCast]
  simp only [Placed.axis, scaledSize_unit hs, hs, hroi, hfrac, hreset]

/-- What the set-up of a direction guarantees: positions of the destination, and accumulators whose
    whole parts lie in the source. -/
structure Axis.Good (a : Axis) (dstSize : ℤ) : Prop where
  start_nonneg : 0 ≤ a.start
  start_lt : a.start < a.stop
  stop_le : a.stop ≤ dstSize
  delta : a.delta = 1 ∨ a.delta = -1
  frac_nonneg : 0 ≤ a.frac
  reset_nonneg : 0 ≤ a.accumReset
  last : a.accumReset + (a.stop - a.start - 1) * a.frac < a.size * 65536

theorem setupAxis_good {dstSize size offset : ℤ} {scale : ℚ} {center : Bool} {a : Axis}
    (hs : scale ≠ 0) (h : setupAxis dstSize size 0 offset scale center = some a) : a.Good dstSize := by
  obtain ⟨-, p, hp, rfl⟩ := setupAxis_eq_some.mp h
  obtain ⟨h1, h2, h3, h4, h5⟩ := clip_bounds hp
  obtain ⟨h6, h7⟩ : 0 ≤ hidden (scaledSize size scale) scale p ∧ _ := hidden_bounds h1 h4 h5
  have hpos : 0 < |scale| := abs_pos.mpr hs
  have hroi : ⌊((0 : ℤ) : ℚ) * |scale|⌋ = 0 := by simp
  unfold Placed.axis
  simp only [hroi, add_zero]
  set src := hidden (scaledSize size scale) scale p
  refine ⟨h1, h2, h3, ?_, Int.floor_nonneg.mpr (by positivity), ?_, ?_⟩
  · simp only
    split_ifs <;> simp
  · have h0 : (0 : ℚ) ≤ (src * 65536 : ℤ) := by exact_mod_cast mul_nonneg h6 (by norm_num)
    exact Int.floor_nonneg.mpr (div_nonneg h0 hpos.le)
  · -- the truncated steps stay behind the exact position of the last column
    simp only
    have hsize : ((src + (p.stop - p.start) : ℤ) : ℚ) ≤ |scale| * size :=
      le_trans (by exact_mod_cast h7) (Int.floor_le _)
    have hreset := Int.floor_le (((src * 65536 : ℤ) : ℚ) / |scale|)
    have hn : (0 : ℚ) ≤ ((p.stop - p.start - 1 : ℤ) : ℚ) := by exact_mod_cast (by omega)
    have hfrac := mul_le_mul_of_nonneg_left (Int.floor_le (65536 / |scale|)) hn
    have hsum : ((⌊((src * 65536 : ℤ) : ℚ) / |scale|⌋ + (p.stop - p.start - 1) * ⌊65536 / |scale|⌋ : ℤ) : ℚ)
        < (size * 65536 : ℤ) := by
      push_cast at hreset hn hfrac hsize ⊢
      calc _ ≤ (src : ℚ) * 65536 / |scale| + (p.stop - p.start - 1) * (65536 / |scale|) := by linarith
        _ = (src + (p.stop - p.start) - 1) * 65536 / |scale| := by ring
        _ < size * 65536 := by
          rw [div_lt_iff₀ hpos]
          linarith
    exact_mod_cast hsum

/-! ### The algorithm -/

structure Flags where
  area : Bool
  bicubic : Bool
  bilinear : Bool
deriving DecidableEq, Repr

def noFlags : Flags := ⟨false, false, false⟩

/-- The hints that stay when some algorithms are not needed or not possible. -/
def normalize (hint : Hint) (ax ay : Axis) (xScale yScale : ℚ) : Flags :=
  let f : Flags := ⟨hint.area, hint.bicubic, hint.bilinear⟩
  let f := if ax.frac = 65536 ∧ ay.frac = 65536 then noFlags else f
  let f := if f.area ∧ 1 ≤ |xScale| ∧ 1 ≤ |yScale| then noFlags else f
  let f := if ax.size ≤ 3 ∨ ay.size ≤ 3 then
    { f with bilinear := f.bicubic || f.bilinear, bicubic := false } else f
  if ax.size ≤ 1 ∨ ay.size ≤ 1 then { f with area := false, bilinear := false } else f

inductive Algorithm where
  | areaFast
  | areaSlow
  | bicubic
  | bilinear
  | copy
  | nearest
deriving DecidableEq, Repr

def Flags.algorithm (f : Flags) (ax ay : Axis) : Algorithm :=
  if f.area then
    if ax.frac % 65536 = 0 ∧ ay.frac % 65536 = 0 then .areaFast else .areaSlow
  else if f.bicubic then .bicubic
  else if f.bilinear then .bilinear
  else if ax.delta = 1 ∧ ax.start = 0 ∧ ax.srcStart = 0 ∧ ax.frac = 65536 ∧ ay.frac = 65536 then .copy
  else .nearest

/-- What the loops work with. -/
structure Plan where
  x : Axis
  y : Axis
  algorithm : Algorithm
deriving DecidableEq, Repr

/-- Bicubic and bilinear shift the image by half a pixel, which is undone here; also when the area
    algorithm takes precedence. -/
def Flags.plan (f : Flags) (ax ay : Axis) : Plan :=
  let d := if f.bicubic || f.bilinear then 32768 else 0
  ⟨ax.shift d, ay.shift d, f.algorithm ax ay⟩

/-- The arguments of a call that decide where and how it draws. -/
structure Placement where
  dstW : ℤ
  dstH : ℤ
  x : ℤ
  y : ℤ
  xScale : ℚ
  yScale : ℚ
  hint : Hint
deriving DecidableEq, Repr

/-- The part of the source that is drawn. -/
def roiOf (srcW srcH : ℤ) (roi : Option Rectangle) : Rectangle := roi.getD ⟨0, 0, srcW, srcH⟩

theorem normalize_unit {hint : Hint} {ax ay : Axis} {xScale yScale : ℚ} (hx : ax.frac = 65536)
    (hy : ay.frac = 65536) : normalize hint ax ay xScale yScale = noFlags := by
  simp [normalize, hx, hy, noFlags]

namespace Placement

variable (p : Placement)

def xAxis (r : Rectangle) : Option Axis := setupAxis p.dstW r.w r.x p.x p.xScale p.hint.center

def yAxis (r : Rectangle) : Option Axis := setupAxis p.dstH r.h r.y p.y p.yScale p.hint.center

/-- `none` if there is nothing to draw. -/
def plan (r : Rectangle) : Option Plan := do
  let ax ← p.xAxis r
  let ay ← p.yAxis r
  some ((normalize p.hint ax ay p.xScale p.yScale).plan ax ay)

end Placement

/-- `imlib_draw_image_rectangle`: `x0`, `x1`, `y0` and `y1`, or `none` for false. The last argument
    says whether `alpha` is 0 or the alpha palette has zeros only. -/
def imlibDrawImageRectangle (p : Placement) (r : Rectangle) (transparent : Bool) :
    Option (ℤ × ℤ × ℤ × ℤ) :=
  if transparent then none
  else do
    let px ← clip p.dstW (scaledSize r.w p.xScale) p.x p.hint.center
    let py ← clip p.dstH (scaledSize r.h p.yScale) p.y p.hint.center
    some (px.start, px.stop, py.start, py.stop)

end OpenMV.Draw
