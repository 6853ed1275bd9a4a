import OpenMV.Draw.Samples
import OpenMV.Schemes.Sweep

/-! Drawing one image on another | scheme:loop | source:src/src/openmv/omv/img/draw.c

    The loops of `imlib_draw_image`: for each row of the destination a row buffer is filled with pixels
    in the format of the source, and `imlib_draw_row` brings them to the destination. What it makes of a
    pixel depends on that pixel and on the one that was there; for `alpha` 256 it is written out here.
    `drawPlan_apply` says what the loops leave at each pixel of the destination. -/

namespace OpenMV.Draw
open Vision Filters Schemes

/-! ### A row -/

inductive RgbChannel where
  | r
  | g
  | b
deriving DecidableEq, Repr

/-- The gray level of a pixel, which also is its index in a colour palette. -/
def grayOf (bpp : Bpp) (rgbChannel : Option RgbChannel) (pixel : ℤ) : ℤ :=
  match bpp with
  | .rgb565 =>
    match rgbChannel with
    | none => colorRgb565ToY pixel
    | some .r => Io.colorRgb565ToR8 pixel.toNat
    | some .g => Io.colorRgb565ToG8 pixel.toNat
    | some .b => Io.colorRgb565ToB8 pixel.toNat
  | .grayscale => pixel
  | .binary | .bayer | .jpeg => if pixel = 0 then 0 else 255

def colorYToRgb565 (pixel : ℤ) : ℤ := pixel / 8 % 32 * 0x0801 + pixel / 4 % 64 * 32

/-- A gray level in the format of the destination. -/
def ofGray (bpp : Bpp) (gray : ℤ) : ℤ :=
  match bpp with
  | .rgb565 => colorYToRgb565 gray
  | .grayscale => gray
  | .binary | .bayer | .jpeg => if gray > 127 then 1 else 0

/-- What `imlib_draw_row` makes of a pixel when `alpha` is 256 and there is no alpha palette. -/
def rowPixel (dst src : Bpp) (rgbChannel : Option RgbChannel) (palette : Option (ℤ → ℤ)) (pixel : ℤ) : ℤ :=
  match palette with
  | some pal =>
    let color := pal (grayOf src rgbChannel pixel)
    if dst = .rgb565 then color else ofGray dst (colorRgb565ToY color)
  | none =>
    if dst = .rgb565 ∧ src = .rgb565 ∧ rgbChannel = none then pixel
    else ofGray dst (grayOf src rgbChannel pixel)

/-- What `imlib_draw_row` makes of a pixel of the row buffer and the pixel of the destination, for a
    format of the source, a channel and a palette. -/
abbrev RowFunction := Bpp → Option RgbChannel → Option (ℤ → ℤ) → ℕ → ℕ → ℕ

def opaqueRow (dst : Bpp) : RowFunction := fun src rgbChannel palette unit _ =>
  putPixel dst (rowPixel dst src rgbChannel palette (getPixel src unit))

/-- `imlib_draw_row`. -/
def drawRow (blend : ℕ → ℕ → ℕ) (xStart xEnd yRow : ℤ) (rowBuffer : ℤ → ℕ) (canvas : ℤ × ℤ → ℕ) :
    ℤ × ℤ → ℕ := fun q =>
  if q.2 = yRow then
    if xStart ≤ q.1 ∧ q.1 < xEnd then blend (rowBuffer q.1) (canvas q) else canvas q
  else canvas q

/-! ### The loops -/

/-- The loop over one direction. -/
def Axis.loop {γ σ : Type} (a : Axis) (load : ℤ → γ) (body : γ → ℤ → ℤ → σ → σ) (s : σ) : σ :=
  cachedSweep (· / 65536) load body a.frac a.delta a.count none a.accumReset a.reset s

/-- The row buffer after the loop over the columns. -/
def fillRow (plan : Plan) (bpp : Bpp) (R : Resampler) (rows : R.Rows) (ya : ℤ) (buffer : ℤ → ℕ) : ℤ → ℕ :=
  plan.x.loop (R.cols rows ya)
    (fun cols xa x buffer => Function.update buffer x (putPixel bpp (R.out ya cols xa))) buffer

/-- The loop over the rows. The row buffer is used again for each row. -/
def resampleRows (plan : Plan) (bpp : Bpp) (R : Resampler) (blend : ℕ → ℕ → ℕ)
    (s : (ℤ × ℤ → ℕ) × (ℤ → ℕ)) : (ℤ × ℤ → ℕ) × (ℤ → ℕ) :=
  plan.y.loop R.rows
    (fun rows ya y s =>
      let buffer := fillRow plan bpp R rows ya s.2
      (drawRow blend plan.x.start plan.x.stop y buffer s.1, buffer)) s

/-- The rows of the source are taken as they are. -/
def copyRows (plan : Plan) (bpp : Bpp) (px : ℤ → ℤ → ℤ) (blend : ℕ → ℕ → ℕ) (canvas : ℤ × ℤ → ℕ) :
    ℤ × ℤ → ℕ :=
  sweep (fun ya y canvas => drawRow blend plan.x.start plan.x.stop y
    (fun x => putPixel bpp (px x (ya / 65536))) canvas)
    plan.y.frac plan.y.delta plan.y.count plan.y.accumReset plan.y.reset canvas

/-- The loops of the chosen algorithm; a row buffer starts with any content. -/
def drawPlan (plan : Plan) (bpp : Bpp) (px : ℤ → ℤ → ℤ) (blend : ℕ → ℕ → ℕ) (junk : ℤ → ℕ)
    (canvas : ℤ × ℤ → ℕ) : ℤ × ℤ → ℕ :=
  if plan.algorithm = .copy then copyRows plan bpp px blend canvas
  else (resampleRows plan bpp (plan.algorithm.resampler bpp plan.x plan.y px) blend (canvas, junk)).1

/-- The formats that the loops and `imlib_draw_row` have a case for. -/
def drawable : Bpp → Bool
  | .binary | .grayscale | .rgb565 => true
  | .bayer | .jpeg => false

def Image.canvas (img : Image) (q : ℤ × ℤ) : ℕ := img.data q.1 q.2

/-- The loops on two images; other formats have no case in the `switch`. -/
def drawOn (plan : Plan) (src : Image) (blend : ℕ → ℕ → ℕ) (junk : ℤ → ℕ) (dst : Image) : Image :=
  if drawable src.bpp && drawable dst.bpp then
    { dst with data := fun x y => drawPlan plan src.bpp src.pixel blend junk (Image.canvas dst) (x, y) }
  else dst

/-- Where the channel or the palette is applied: at the upper left of the source, in its size. -/
def extractPlacement (r : Rectangle) : Placement :=
  ⟨r.w, r.h, 0, 0, 1, 1, ⟨false, false, false, false, false, false⟩⟩

/-- The image with the channel taken out or the palette applied, in new memory. -/
def extracted (src : Image) (r : Rectangle) (rgbChannel : Option RgbChannel) (palette : Option (ℤ → ℤ))
    (junk : ℤ → ℤ → ℕ) : Image :=
  let bpp := if palette.isSome then Bpp.rgb565 else .grayscale
  let new : Image := ⟨r.w, r.h, bpp, junk⟩
  match (extractPlacement r).plan ⟨0, 0, src.w, src.h⟩ with
  | none => new
  | some plan => drawOn plan src (opaqueRow bpp src.bpp rgbChannel palette) (junk 0) new

/-- The arguments of `imlib_draw_image` after the two images. -/
structure DrawArgs where
  x : ℤ
  y : ℤ
  xScale : ℚ
  yScale : ℚ
  roi : Option Rectangle
  rgbChannel : Option RgbChannel
  palette : Option (ℤ → ℤ)
  hint : Hint

def DrawArgs.placement (a : DrawArgs) (dst : Image) : Placement :=
  ⟨dst.w, dst.h, a.x, a.y, a.xScale, a.yScale, a.hint⟩

def DrawArgs.extractsFirst (a : DrawArgs) (src : Image) : Bool :=
  (a.hint.extractRgbChannelFirst && src.bpp = .rgb565 && a.rgbChannel.isSome) ||
  (a.hint.applyColorPaletteFirst && a.palette.isSome)

theorem drawOn_frame (plan : Plan) (src : Image) (blend : ℕ → ℕ → ℕ) (junk : ℤ → ℕ) (dst : Image) :
    drawOn plan src blend junk dst = { dst with data := (drawOn plan src blend junk dst).data } := by
  unfold drawOn
  split_ifs <;> rfl

/-- The image that the loops read. -/
def DrawArgs.source (a : DrawArgs) (src : Image) (r : Rectangle) (junk : ℤ → ℤ → ℕ) : Image :=
  if a.extractsFirst src then extracted src r a.rgbChannel a.palette junk else src

/-- What the rows are drawn with. -/
def DrawArgs.blend (a : DrawArgs) (row : RowFunction) (src new : Image) : ℕ → ℕ → ℕ :=
  if a.extractsFirst src then row new.bpp none none else row new.bpp a.rgbChannel a.palette

/-- `imlib_draw_image`. `row` is what `imlib_draw_row` makes of a pixel, which says all about `alpha`,
    the alpha palette and the format of the destination; `transparent` is true if `alpha` is 0 or the
    alpha palette has zeros only. `junk` is what is in memory that was just allocated. -/
def imlibDrawImage (row : RowFunction) (transparent : Bool) (junk : ℤ → ℤ → ℕ) (dst src : Image)
    (a : DrawArgs) : Image :=
  let r := roiOf src.w src.h a.roi
  if transparent then dst
  else match (a.placement dst).plan r with
    | none => dst
    | some plan =>
      let new := a.source src r junk
      drawOn plan new (a.blend row src new) (junk 0) dst

/-- Only the pixels of the destination change. -/
theorem imlibDrawImage_frame (row : RowFunction) (transparent : Bool) (junk : ℤ → ℤ → ℕ) (dst src : Image)
    (a : DrawArgs) : imlibDrawImage row transparent junk dst src a =
      { dst with data := (imlibDrawImage row transparent junk dst src a).data } := by
  unfold imlibDrawImage
  simp only
  split_ifs
  · rfl
  · split
    · rfl
    · exact drawOn_frame _ _ _ _ _

theorem imlibDrawImage_of_none {a : DrawArgs} {dst src : Image}
    (h : (a.placement dst).plan (roiOf src.w src.h a.roi) = none) (row : RowFunction) (transparent : Bool)
    (junk : ℤ → ℤ → ℕ) : imlibDrawImage row transparent junk dst src a = dst := by
  unfold imlibDrawImage
  simp only [h]
  split_ifs <;> rfl

/-! ### Every pixel -/

theorem Axis.loop_eq {γ σ : Type} (a : Axis) (load : ℤ → γ) (body : γ → ℤ → ℤ → σ → σ) (s : σ) :
    a.loop load body s = sweep (fun acc pos s => body (load (acc / 65536)) acc pos s) a.frac a.delta
      a.count a.accumReset a.reset s :=
  cachedSweep_eq_sweep _ _ _ _ _ (by simp)

/-- The loop gets to the positions from `start` to `stop`. -/
theorem Axis.reaches_iff {a : Axis} (hδ : a.delta = 1 ∨ a.delta = -1) (x : ℤ) :
    0 ≤ (x - a.reset) * a.delta ∧ (x - a.reset) * a.delta < a.count ↔ a.start ≤ x ∧ x < a.stop := by
  unfold Axis.reset Axis.count
  rcases hδ with h | h <;> rw [h] <;> simp only [Int.reduceNeg, Int.reduceLT, if_true, if_false] <;> omega

theorem fillRow_apply {plan : Plan} (hδ : plan.x.delta = 1 ∨ plan.x.delta = -1) (bpp : Bpp) (R : Resampler)
    (rows : R.Rows) (ya : ℤ) (buffer : ℤ → ℕ) (x : ℤ) : fillRow plan bpp R rows ya buffer x =
      if plan.x.start ≤ x ∧ x < plan.x.stop then
        putPixel bpp (R.out ya (R.cols rows ya (plan.x.accumAt x / 65536)) (plan.x.accumAt x))
      else buffer x := by
  have hbody : ∀ acc pos (s : ℤ → ℕ) q,
      Function.update s pos (putPixel bpp (R.out ya (R.cols rows ya (acc / 65536)) acc)) q =
      if q = pos then putPixel bpp (R.out ya (R.cols rows ya (acc / 65536)) acc) else s q := by
    intro acc pos s q
    rw [Function.update_apply]
  rw [fillRow, Axis.loop_eq, sweep_apply id
    (fun acc _ _ => putPixel bpp (R.out ya (R.cols rows ya (acc / 65536)) acc)) hδ hbody]
  exact if_congr (Axis.reaches_iff hδ x) rfl rfl

/-- The pixels that are drawn. -/
def Plan.Covers (plan : Plan) (q : ℤ × ℤ) : Prop :=
  (plan.x.start ≤ q.1 ∧ q.1 < plan.x.stop) ∧ plan.y.start ≤ q.2 ∧ q.2 < plan.y.stop

instance (plan : Plan) (q : ℤ × ℤ) : Decidable (plan.Covers q) :=
  inferInstanceAs (Decidable ((plan.x.start ≤ q.1 ∧ q.1 < plan.x.stop) ∧ plan.y.start ≤ q.2 ∧ q.2 < plan.y.stop))

section

variable {plan : Plan} (bpp : Bpp) (blend : ℕ → ℕ → ℕ) (canvas : ℤ × ℤ → ℕ)

theorem resampleRows_apply (hx : plan.x.delta = 1 ∨ plan.x.delta = -1)
    (hy : plan.y.delta = 1 ∨ plan.y.delta = -1) (R : Resampler) (junk : ℤ → ℕ) (q : ℤ × ℤ) :
    (resampleRows plan bpp R blend (canvas, junk)).1 q = if plan.Covers q then
      blend (putPixel bpp (R.sample (plan.x.accumAt q.1) (plan.y.accumAt q.2))) (canvas q)
      else canvas q := by
  -- the content of the row buffer does not count, all of it that is used is overwritten
  have hfst : ∀ ya y (canvas : ℤ × ℤ → ℕ) (buffer : ℤ → ℕ),
      drawRow blend plan.x.start plan.x.stop y (fillRow plan bpp R (R.rows (ya / 65536)) ya buffer) canvas =
      fun q => if q.2 = y then
        (if plan.x.start ≤ q.1 ∧ q.1 < plan.x.stop then
          blend (putPixel bpp (R.sample (plan.x.accumAt q.1) ya)) (canvas q) else canvas q)
        else canvas q := by
    intro ya y canvas buffer
    funext q
    unfold drawRow
    rw [fillRow_apply hx]
    split_ifs <;> rfl
  rw [resampleRows, Axis.loop_eq, sweep_fst hfst]
  rw [sweep_apply Prod.snd (fun ya q old => if plan.x.start ≤ q.1 ∧ q.1 < plan.x.stop then
    blend (putPixel bpp (R.sample (plan.x.accumAt q.1) ya)) old else old) hy fun _ _ _ _ => rfl]
  simp only [Axis.reaches_iff hy, ← ite_and]
  exact if_congr and_comm rfl rfl

theorem copyRows_apply (hy : plan.y.delta = 1 ∨ plan.y.delta = -1) (px : ℤ → ℤ → ℤ) (q : ℤ × ℤ) :
    copyRows plan bpp px blend canvas q =
    if plan.Covers q then blend (putPixel bpp (px q.1 (plan.y.accumAt q.2 / 65536))) (canvas q)
    else canvas q := by
  have hbody : ∀ ya y (canvas : ℤ × ℤ → ℕ) (q : ℤ × ℤ), drawRow blend plan.x.start plan.x.stop y
      (fun x => putPixel bpp (px x (ya / 65536))) canvas q = if q.2 = y then
        (if plan.x.start ≤ q.1 ∧ q.1 < plan.x.stop then blend (putPixel bpp (px q.1 (ya / 65536))) (canvas q)
          else canvas q) else canvas q := fun _ _ _ _ => rfl
  rw [copyRows, sweep_apply Prod.snd (fun ya q old => if plan.x.start ≤ q.1 ∧ q.1 < plan.x.stop then
    blend (putPixel bpp (px q.1 (ya / 65536))) old else old) hy hbody]
  simp only [Axis.reaches_iff hy, ← ite_and]
  exact if_congr and_comm rfl rfl

end

/-- What holds of the plan of every placement. -/
structure Plan.Regular (plan : Plan) : Prop where
  xDelta : plan.x.delta = 1 ∨ plan.x.delta = -1
  yDelta : plan.y.delta = 1 ∨ plan.y.delta = -1
  copy : plan.algorithm = .copy → ∀ x, plan.x.accumAt x / 65536 = x

theorem Flags.algorithm_eq_copy {f : Flags} {ax ay : Axis} (h : f.algorithm ax ay = .copy) :
    f.bicubic = false ∧ f.bilinear = false ∧
    ax.delta = 1 ∧ ax.start = 0 ∧ ax.srcStart = 0 ∧ ax.frac = 65536 ∧ ay.frac = 65536 := by
  unfold Flags.algorithm at h
  split_ifs at h with h1 h2 h3 h4 h5
  simp only [Bool.not_eq_true] at h3 h4
  exact ⟨h3, h4, h5⟩

theorem Placement.plan_eq_some {p : Placement} {r : Rectangle} {plan : Plan} :
    p.plan r = some plan ↔ ∃ ax, p.xAxis r = some ax ∧ ∃ ay, p.yAxis r = some ay ∧
      (normalize p.hint ax ay p.xScale p.yScale).plan ax ay = plan := by
  simp only [Placement.plan, Option.bind_eq_bind, Option.bind_eq_some_iff, Option.some.injEq]

theorem setupAxis_delta {dstSize size roi offset : ℤ} {scale : ℚ} {center : Bool} {a : Axis}
    (h : setupAxis dstSize size roi offset scale center = some a) : a.delta = 1 ∨ a.delta = -1 := by
  obtain ⟨-, p, -, rfl⟩ := setupAxis_eq_some.mp h
  simp only [Placed.axis]
  split_ifs <;> simp

theorem setupAxis_reset {dstSize size roi offset : ℤ} {scale : ℚ} {center : Bool} {a : Axis}
    (h : setupAxis dstSize size roi offset scale center = some a) :
    a.accumReset = ⌊(a.srcStart * 65536 : ℤ) / |scale|⌋ := by
  obtain ⟨-, p, -, rfl⟩ := setupAxis_eq_some.mp h
  rfl

theorem plan_regular {p : Placement} {r : Rectangle} {plan : Plan} (h : p.plan r = some plan) :
    plan.Regular := by
  obtain ⟨ax, hax, ay, hay, rfl⟩ := Placement.plan_eq_some.mp h
  have hx := setupAxis_delta hax
  have hy := setupAxis_delta hay
  refine ⟨hx, hy, ?_⟩
  intro hcopy x
  obtain ⟨h1, h2, h3, h4, h5, h6, -⟩ := Flags.algorithm_eq_copy hcopy
  have h7 := setupAxis_reset hax
  rw [h5] at h7
  have h8 : ax.accumReset = 0 := by simpa using h7
  simp only [Flags.plan, h1, h2, Axis.accumAt, Axis.accum, Axis.reset, Axis.shift, h3, h4, h6, h8]
  norm_num

/-- Each pixel of the drawn rectangle is brought together once with what the algorithm computes for it,
    and no other pixel is touched. -/
theorem drawPlan_apply {plan : Plan} (h : plan.Regular) (bpp : Bpp) (px : ℤ → ℤ → ℤ) (blend : ℕ → ℕ → ℕ)
    (junk : ℤ → ℕ) (canvas : ℤ × ℤ → ℕ) (q : ℤ × ℤ) : drawPlan plan bpp px blend junk canvas q =
      if plan.Covers q then
        blend (putPixel bpp ((plan.algorithm.resampler bpp plan.x plan.y px).sample
          (plan.x.accumAt q.1) (plan.y.accumAt q.2))) (canvas q)
      else canvas q := by
  unfold drawPlan
  by_cases hc : plan.algorithm = .copy
  · rw [if_pos hc, copyRows_apply _ _ _ h.yDelta, hc]
    simp only [Algorithm.resampler, Resampler.sample, nearestResampler, h.copy hc, id]
  · rw [if_neg hc, resampleRows_apply _ _ _ h.xDelta h.yDelta]

theorem drawOn_data {plan : Plan} (h : plan.Regular) {src dst : Image} (hs : drawable src.bpp)
    (hd : drawable dst.bpp) (blend : ℕ → ℕ → ℕ) (junk : ℤ → ℕ) (x y : ℤ) :
    (drawOn plan src blend junk dst).data x y = if plan.Covers (x, y) then
      blend (putPixel src.bpp ((plan.algorithm.resampler src.bpp plan.x plan.y src.pixel).sample
        (plan.x.accumAt x) (plan.y.accumAt y))) (dst.data x y)
      else dst.data x y := by
  rw [drawOn, hs, hd]
  exact drawPlan_apply h src.bpp src.pixel blend junk (Image.canvas dst) (x, y)

theorem getPixel_putPixel_pixel (img : Image) (x y : ℤ) :
    getPixel img.bpp (putPixel img.bpp (img.pixel x y)) = img.pixel x y := by
  rw [image_pixel]
  exact getPixel_putPixel_of_mem (getPixel_mem _ _).1 (getPixel_mem _ _).2

/-! ### Scale 1 -/

/-- The source column drawn at position `x`. -/
def Axis.unitIndex (a : Axis) (x : ℤ) : ℤ := a.srcStart + (x - a.reset) * a.delta

theorem Axis.accumAt_unit {a : Axis} (hf : a.frac = 65536) (hr : a.accumReset = a.srcStart * 65536)
    (x : ℤ) : a.accumAt x / 65536 = a.unitIndex x := by
  rw [Axis.accumAt, Axis.accum, hf, hr, ← add_mul]
  exact Int.mul_ediv_cancel _ (by norm_num)

theorem plan_unit {p : Placement} {r : Rectangle} {plan : Plan} (hx : |p.xScale| = 1) (hy : |p.yScale| = 1)
    (h : p.plan r = some plan) :
    (plan.algorithm = .copy ∨ plan.algorithm = .nearest) ∧
    (∀ x, plan.x.accumAt x / 65536 = plan.x.unitIndex x) ∧
    ∀ y, plan.y.accumAt y / 65536 = plan.y.unitIndex y := by
  obtain ⟨ax, hax, ay, hay, rfl⟩ := Placement.plan_eq_some.mp h
  obtain ⟨-, px, -, rfl⟩ := setupAxis_eq_some.mp hax
  obtain ⟨-, py, -, rfl⟩ := setupAxis_eq_some.mp hay
  rw [Placed.axis_unit hx, Placed.axis_unit hy, normalize_unit rfl rfl]
  refine ⟨?_, ?_, ?_⟩
  · simp only [Flags.plan, Flags.algorithm, noFlags, Bool.false_eq_true, if_false]
    split_ifs <;> simp
  · exact Axis.accumAt_unit rfl (sub_zero _)
  · exact Axis.accumAt_unit rfl (sub_zero _)

theorem sample_nearest {alg : Algorithm} (h : alg = .copy ∨ alg = .nearest) (bpp : Bpp) (ax ay : Axis)
    (px : ℤ → ℤ → ℤ) (xa ya : ℤ) :
    (alg.resampler bpp ax ay px).sample xa ya = px (xa / 65536) (ya / 65536) := by
  rcases h with rfl | rfl <;> rfl

/-- The format of the image with the channel taken out or the palette applied. -/
theorem extracted_bpp (src : Image) (r : Rectangle) (rgbChannel : Option RgbChannel)
    (palette : Option (ℤ → ℤ)) (junk : ℤ → ℤ → ℕ) :
    (extracted src r rgbChannel palette junk).bpp = if palette.isSome then Bpp.rgb565 else .grayscale := by
  unfold extracted drawOn
  simp only
  split
  · rfl
  · split_ifs <;> rfl

theorem clip_origin {d s : ℤ} (hd : 0 < d) (hs : d ≤ s) : clip d s 0 false = some ⟨0, d, 0⟩ := by
  have hmin : min s d = d := min_eq_right hs
  simp [clip, posOf, hmin, hd, lt_of_lt_of_le hd hs]

theorem setupAxis_origin {d s : ℤ} (hd : 0 < d) (hs : d ≤ s) :
    setupAxis d s 0 0 1 false = some ⟨s, 0, d, 1, 0, 65536, 0⟩ := by
  rw [setupAxis_eq_some, scaledSize_unit abs_one, clip_origin hd hs]
  refine ⟨by omega, _, rfl, ?_⟩
  rw [Placed.axis_unit abs_one]
  simp [hidden]

theorem extractPlacement_plan {srcW srcH : ℤ} {r : Rectangle} (hw : 0 < r.w ∧ r.w ≤ srcW)
    (hh : 0 < r.h ∧ r.h ≤ srcH) : (extractPlacement r).plan ⟨0, 0, srcW, srcH⟩ =
      some ⟨⟨srcW, 0, r.w, 1, 0, 65536, 0⟩, ⟨srcH, 0, r.h, 1, 0, 65536, 0⟩, .copy⟩ := by
  rw [Placement.plan_eq_some]
  refine ⟨_, setupAxis_origin hw.1 hw.2, _, setupAxis_origin hh.1 hh.2, ?_⟩
  rw [normalize_unit rfl rfl]
  rfl

/-- The new image holds what the rows make of the upper left part of the source. -/
theorem extracted_data {src : Image} {r : Rectangle} (hs : drawable src.bpp) (hw : r.w ≤ src.w)
    (hh : r.h ≤ src.h) (rgbChannel : Option RgbChannel) (palette : Option (ℤ → ℤ)) (junk : ℤ → ℤ → ℕ)
    {x y : ℤ} (hx : 0 ≤ x ∧ x < r.w) (hy : 0 ≤ y ∧ y < r.h) :
    (extracted src r rgbChannel palette junk).data x y =
      putPixel (if palette.isSome then Bpp.rgb565 else .grayscale)
        (rowPixel (if palette.isSome then Bpp.rgb565 else .grayscale) src.bpp rgbChannel palette
          (src.pixel x y)) := by
  have hplan : (extractPlacement r).plan ⟨0, 0, src.w, src.h⟩ = _ :=
    extractPlacement_plan ⟨by omega, hw⟩ ⟨by omega, hh⟩
  have hbpp : drawable (if palette.isSome then Bpp.rgb565 else .grayscale) := by split_ifs <;> rfl
  unfold extracted
  simp only [hplan]
  rw [drawOn_data (plan_regular hplan) hs hbpp, if_pos ⟨hx, hy⟩, sample_nearest (.inl rfl), opaqueRow]
  rw [Axis.accumAt_unit rfl rfl, Axis.accumAt_unit rfl rfl]
  rw [getPixel_putPixel_pixel]
  simp [Axis.unitIndex, Axis.reset]

/-- What is stored for a pixel of the source when `alpha` is 256. -/
def unitOf (dst src : Bpp) (rgbChannel : Option RgbChannel) (palette : Option (ℤ → ℤ)) (extracts : Bool)
    (pixel : ℤ) : ℕ :=
  if extracts then
    let new := if palette.isSome then Bpp.rgb565 else .grayscale
    putPixel dst (rowPixel dst new none none
      (getPixel new (putPixel new (rowPixel new src rgbChannel palette pixel))))
  else putPixel dst (rowPixel dst src rgbChannel palette pixel)

/-- A pixel drawn without interpolation from inside the source. -/
theorem blend_source {a : DrawArgs} {src : Image} {dst : Bpp} (hs : drawable src.bpp) {r : Rectangle}
    (hw : r.w ≤ src.w) (hh : r.h ≤ src.h) (junk : ℤ → ℤ → ℕ) {i j : ℤ}
    (hi : 0 ≤ i ∧ i < r.w) (hj : 0 ≤ j ∧ j < r.h) (old : ℕ) :
    a.blend (opaqueRow dst) src (a.source src r junk)
      (putPixel (a.source src r junk).bpp ((a.source src r junk).pixel i j)) old =
      unitOf dst src.bpp a.rgbChannel a.palette (a.extractsFirst src) (src.pixel i j) := by
  by_cases h : a.extractsFirst src
  · simp only [DrawArgs.blend, unitOf, opaqueRow, h, if_true, getPixel_putPixel_pixel]
    simp only [DrawArgs.source, h, if_true]
    rw [image_pixel, extracted_bpp, extracted_data hs hw hh a.rgbChannel a.palette junk hi hj]
  · simp only [DrawArgs.blend, unitOf, opaqueRow, h, if_false, Bool.false_eq_true,
      getPixel_putPixel_pixel]
    simp only [DrawArgs.source, h, if_false, Bool.false_eq_true]

theorem source_drawable {a : DrawArgs} {src : Image} (hs : drawable src.bpp) (r : Rectangle)
    (junk : ℤ → ℤ → ℕ) : drawable (a.source src r junk).bpp := by
  unfold DrawArgs.source
  split_ifs
  · rw [extracted_bpp]
    split_ifs <;> rfl
  · exact hs

/-! ### Black and white -/

/-- The unit of a white pixel. -/
def white (bpp : Bpp) : ℕ := levels bpp - 1

theorem unitOf_black_ne_white {dst src : Bpp} (hd : drawable dst) (hs : drawable src)
    (rgbChannel : Option RgbChannel) (extracts : Bool) :
    unitOf dst src rgbChannel none extracts (getPixel src 0) ≠
      unitOf dst src rgbChannel none extracts (getPixel src (white src)) := by
  revert extracts
  rcases rgbChannel with _ | _ | _ | _ <;> cases dst <;> cases src <;>
    first | exact absurd hd (by decide) | exact absurd hs (by decide) | decide

end OpenMV.Draw
