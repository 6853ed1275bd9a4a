import OpenMV.Draw.Cover

/-! Regions of interest | scheme:geometry | source:src/src/openmv/omv/img/draw.c

    Drawing a region of the source is meant to be drawing a copy of the region. The region shifts the first
    accumulator, by the offset times the scale cut to a whole number; the limits of the interpolations and
    the image with the channel taken out are those of a region at the upper left. So the two are the
    same at the upper left, and elsewhere if the scaled offset is whole and nothing is interpolated. -/

namespace OpenMV.Draw
open Vision Filters

/-! ### One direction -/

/-- The offset of the region is whole in the scaled image. -/
def WholeOffset (roi : ℤ) (scale : ℚ) : Prop := (⌊roi * scale⌋ : ℚ) = roi * scale

/-- The direction for a region that starts at `roi`. -/
def Axis.offset (a : Axis) (roi n : ℤ) : Axis :=
  { a with srcStart := a.srcStart + n, accumReset := a.accumReset + roi * 65536 }

theorem Axis.offset_accumAt (a : Axis) (roi n d x : ℤ) :
    ((a.offset roi n).shift d).accumAt x = (a.shift d).accumAt x + roi * 65536 := by
  have hreset : ((a.offset roi n).shift d).reset = (a.shift d).reset := rfl
  unfold Axis.accumAt Axis.accum
  rw [hreset]
  simp only [Axis.shift, Axis.offset]
  ring

theorem accumReset_offset {roi cut : ℤ} {scale : ℚ} (hs : 0 < scale) (h : WholeOffset roi scale) :
    ⌊(((cut + ⌊roi * scale⌋) * 65536 : ℤ) : ℚ) / scale⌋ =
      ⌊((cut * 65536 : ℤ) : ℚ) / scale⌋ + roi * 65536 := by
  have hsplit : (((cut + ⌊roi * scale⌋) * 65536 : ℤ) : ℚ) / scale =
      ((cut * 65536 : ℤ) : ℚ) / scale + ((roi * 65536 : ℤ) : ℚ) := by
    push_cast
    rw [h]
    field_simp
  rw [hsplit, Int.floor_add_intCast]

theorem setupAxis_roi (dstSize size offset : ℤ) (center : Bool) {roi : ℤ} {scale : ℚ} (hs : 0 < scale)
    (h : WholeOffset roi scale) : setupAxis dstSize size roi offset scale center =
      (setupAxis dstSize size 0 offset scale center).map fun a => a.offset roi ⌊roi * scale⌋ := by
  unfold setupAxis
  simp only
  split_ifs
  · rfl
  · rw [Option.map_map]
    congr 1
    funext p
    simp only [Placed.axis, abs_of_pos hs, Axis.offset, Function.comp]
    rw [accumReset_offset hs h]
    simp

/-- The first accumulator for a region. -/
def firstAccum (roi : ℤ) (scale : ℚ) : ℤ := ⌊((⌊roi * scale⌋ * 65536 : ℤ) : ℚ) / scale⌋

/-- It does not get to the offset of the region if that is not whole. -/
theorem firstAccum_lt {roi : ℤ} {scale : ℚ} (hs : 0 < scale) (h : ¬ WholeOffset roi scale) :
    firstAccum roi scale < roi * 65536 := by
  rw [firstAccum, Int.floor_lt, div_lt_iff₀ hs]
  have hlt : (⌊roi * scale⌋ : ℚ) < roi * scale := lt_of_le_of_ne (Int.floor_le _) h
  push_cast
  linarith

theorem firstAccum_le (roi : ℤ) {scale : ℚ} (hs : 0 < scale) : firstAccum roi scale ≤ roi * 65536 := by
  have hle := Int.floor_le ((roi : ℚ) * scale)
  have hq : ((⌊roi * scale⌋ * 65536 : ℤ) : ℚ) / scale ≤ ((roi * 65536 : ℤ) : ℚ) := by
    rw [div_le_iff₀ hs]
    push_cast
    linarith
  exact le_trans (Int.floor_le_floor hq) (Int.floor_intCast _).le

theorem index_of_cut (cut : ℤ) (scale : ℚ) :
    ⌊((cut * 65536 : ℤ) : ℚ) / scale⌋ / 65536 = ⌊(cut : ℚ) / scale⌋ := by
  have hmul : ((cut * 65536 : ℤ) : ℚ) / scale = (cut : ℚ) / scale * (65536 : ℤ) := by
    push_cast
    ring
  rw [hmul, Int.mul_cast_floor_div_cancel_of_pos (by norm_num)]

theorem last_index_lt (size : ℤ) {scale : ℚ} (hs : 0 < scale) :
    ⌊((scaledSize size scale - 1 : ℤ) : ℚ) / scale⌋ < size := by
  rw [Int.floor_lt, div_lt_iff₀ hs]
  have hle := Int.floor_le (|scale| * size)
  rw [← scaledSize, abs_of_pos hs] at hle
  push_cast
  linarith

/-- Where the image is drawn so that column `cut` comes to 0. -/
def offsetOf (scaled cut : ℤ) (center : Bool) : ℤ := if center then scaled / 2 - cut else -cut

/-- A column of the scaled region can be drawn alone. -/
theorem setupAxis_single (size roi : ℤ) {scale : ℚ} (hs : 0 < scale) (center : Bool) {cut : ℤ}
    (hcut : 0 ≤ cut ∧ cut < scaledSize size scale) : ∃ a,
      setupAxis 1 size roi (offsetOf (scaledSize size scale) cut center) scale center = some a ∧
      (a.start ≤ 0 ∧ 0 < a.stop) ∧ a.size = size ∧
      ∀ d, (a.shift d).accumAt 0 = ⌊(((cut + ⌊roi * scale⌋) * 65536 : ℤ) : ℚ) / scale⌋ - d := by
  have hclip : clip 1 (scaledSize size scale) (offsetOf (scaledSize size scale) cut center) center =
      some ⟨0, 1, cut⟩ := by
    rw [clip_eq_some_iff (by omega)]
    unfold Visible posOf offsetOf
    cases center <;> simp <;> omega
  refine ⟨_, setupAxis_eq_some.mpr ⟨by omega, _, hclip, rfl⟩, ⟨le_rfl, zero_lt_one⟩, rfl, fun d => ?_⟩
  rw [Axis.shift_accumAt]
  simp [Axis.accumAt, Axis.accum, Axis.reset, Placed.axis, hidden, not_lt.mpr hs.le, abs_of_pos hs]

/-- No accumulator gets beyond the last column of the scaled image. -/
theorem setupAxis_last {dstSize size offset : ℤ} {scale : ℚ} {center : Bool} {a : Axis} (hs : 0 < scale)
    (h : setupAxis dstSize size 0 offset scale center = some a) {x : ℤ} (hx : a.start ≤ x ∧ x < a.stop) :
    a.accumAt x / 65536 ≤ ⌊((scaledSize size scale - 1 : ℤ) : ℚ) / scale⌋ := by
  obtain ⟨h0, h1⟩ := (Axis.reaches_iff (setupAxis_delta h) x).mpr hx
  have hstart := (setupAxis_good hs.ne' h).start_lt
  obtain ⟨-, p, hp, rfl⟩ := setupAxis_eq_some.mp h
  obtain ⟨c1, c2, c3, c4, c5⟩ := clip_bounds hp
  obtain ⟨-, hcut⟩ : 0 ≤ hidden (scaledSize size scale) scale p ∧ _ := hidden_bounds c1 c4 c5
  rw [Axis.count, Int.toNat_of_nonneg (by omega)] at h1
  simp only [Axis.accumAt, Axis.accum]
  generalize (x - (p.axis size 0 scale).reset) * (p.axis size 0 scale).delta = k at h0 h1
  have hroi : ⌊((0 : ℤ) : ℚ) * scale⌋ = 0 := by simp
  simp only [Placed.axis, abs_of_pos hs, hroi, add_zero] at h1 ⊢
  set cut := hidden (scaledSize size scale) scale p
  have hk : (0 : ℚ) ≤ k := by exact_mod_cast h0
  have hsum : ((cut + k : ℤ) : ℚ) ≤ ((scaledSize size scale - 1 : ℤ) : ℚ) := by exact_mod_cast (by omega)
  have hreset := Int.floor_le (((cut * 65536 : ℤ) : ℚ) / scale)
  have hfrac := mul_le_mul_of_nonneg_left (Int.floor_le (65536 / scale)) hk
  have hacc : ((⌊((cut * 65536 : ℤ) : ℚ) / scale⌋ + k * ⌊65536 / scale⌋ : ℤ) : ℚ) ≤
      ((scaledSize size scale - 1 : ℤ) : ℚ) / scale * 65536 := by
    calc _ ≤ ((cut * 65536 : ℤ) : ℚ) / scale + k * (65536 / scale) := by
          push_cast at hreset ⊢
          linarith
      _ = ((cut + k : ℤ) : ℚ) / scale * 65536 := by
          push_cast
          ring
      _ ≤ _ := by gcongr
  rw [Int.le_floor]
  refine le_of_mul_le_mul_right (le_trans ?_ hacc) (by norm_num : (0 : ℚ) < 65536)
  exact_mod_cast Int.ediv_mul_le _ (by norm_num)

/-- The nearer of two columns is the column of the accumulator with the half pixel put back. -/
theorem nearer_eq {size acc : ℤ} (hsize : 1 ≤ size) (hacc : -32768 ≤ acc) :
    nearer size acc = min ((acc + 32768) / 65536) (size - 1) := by
  unfold nearer tap2
  split_ifs <;> simp only <;> omega

/-! ### The hints -/

/-- The hints that are left for a size of the source and scales. -/
def flagsOf (hint : Hint) (w h : ℤ) (xScale yScale : ℚ) : Flags :=
  normalize hint ⟨w, 0, 0, 1, 0, stepOf xScale, 0⟩ ⟨h, 0, 0, 1, 0, stepOf yScale, 0⟩ xScale yScale

theorem setupAxis_frac {dstSize size roi offset : ℤ} {scale : ℚ} {center : Bool} {a : Axis}
    (h : setupAxis dstSize size roi offset scale center = some a) : a.size = size ∧ a.frac = stepOf scale := by
  obtain ⟨-, p, -, rfl⟩ := setupAxis_eq_some.mp h
  exact ⟨rfl, rfl⟩

theorem plan_eq_some_flagsOf {p : Placement} {r : Rectangle} {plan : Plan} :
    p.plan r = some plan ↔ ∃ ax, p.xAxis r = some ax ∧ ∃ ay, p.yAxis r = some ay ∧
      (flagsOf p.hint r.w r.h p.xScale p.yScale).plan ax ay = plan := by
  rw [Placement.plan_eq_some]
  refine exists_congr fun ax => and_congr_right fun hax => exists_congr fun ay => and_congr_right fun hay => ?_
  obtain ⟨h1, h2⟩ := setupAxis_frac hax
  obtain ⟨h3, h4⟩ := setupAxis_frac hay
  unfold flagsOf normalize
  rw [h1, h2, h3, h4]

/-! ### What is meant -/

/-- A copy of the region. -/
structure IsCrop (c src : Image) (r : Rectangle) : Prop where
  w : c.w = r.w
  h : c.h = r.h
  bpp : c.bpp = src.bpp
  data : ∀ x y, 0 ≤ x ∧ x < r.w → 0 ≤ y ∧ y < r.h → c.data x y = src.data (r.x + x) (r.y + y)

/-- The pixel is read for some pixel of the destination. -/
def Plan.Reads (plan : Plan) (bpp : Bpp) (i j : ℤ) : Prop :=
  ∃ q, plan.Covers q ∧ i ∈ plan.algorithm.taps plan.x (plan.x.accumAt q.1) ∧
    j ∈ plan.algorithm.readRows bpp plan.y (plan.y.accumAt q.2)

/-- The pixels of the source that a call reads: in the loops, or when the channel or the palette is
    applied. -/
def DrawArgs.Reads (a : DrawArgs) (dst src : Image) (i j : ℤ) : Prop :=
  ∃ plan, a.loops false dst src = some plan ∧
    if a.extractsFirst src then
      ∃ inner, (extractPlacement (roiOf src.w src.h a.roi)).plan ⟨0, 0, src.w, src.h⟩ = some inner ∧
        inner.Reads src.bpp i j
    else plan.Reads src.bpp i j

def InRoi (r : Rectangle) (i j : ℤ) : Prop := (r.x ≤ i ∧ i < r.x + r.w) ∧ r.y ≤ j ∧ j < r.y + r.h

section

variable (src : Image) (r : Rectangle) (xScale yScale : ℚ) (rgbChannel : Option RgbChannel)
  (palette : Option (ℤ → ℤ)) (hint : Hint)

/-- Wherever and whatever is drawn, the region is drawn as a copy of it, and nothing else is read. -/
def DrawsCrop : Prop := ∀ (dst : Image) (x y : ℤ) (sd : ℤ → ℤ → ℕ) (c : Image) (junk junk' : ℤ → ℤ → ℕ),
  IsCrop c { src with data := sd } r →
    imlibDrawImage (opaqueRow dst.bpp) false junk dst { src with data := sd }
        ⟨x, y, xScale, yScale, some r, rgbChannel, palette, hint⟩ =
      imlibDrawImage (opaqueRow dst.bpp) false junk' dst c
        ⟨x, y, xScale, yScale, none, rgbChannel, palette, hint⟩ ∧
    ∀ i j, DrawArgs.Reads ⟨x, y, xScale, yScale, some r, rgbChannel, palette, hint⟩ dst src i j → InRoi r i j

/-- Nothing is drawn; or the region is at the upper left and the area algorithm reads nothing outside; or
    its offset is whole, the image is drawn as it is, and either there is no interpolation, or it is the one
    for binary images, down from the top where its lower limit does no harm. -/
def Crops (f : Flags) : Prop :=
  (scaledSize r.w xScale < 1 ∨ scaledSize r.h yScale < 1) ∨
  (r.x = 0 ∧ r.y = 0 ∧ (f.area → f.bicubic = false ∧ f.bilinear = false ∧
    ((stepOf xScale % 65536 = 0 ∧ stepOf yScale % 65536 = 0) ∨ (xScale ≤ 65536 ∧ yScale ≤ 65536)))) ∨
  (DrawArgs.extractsFirst ⟨0, 0, xScale, yScale, some r, rgbChannel, palette, hint⟩ src = false ∧
    f.area = false ∧ f.bicubic = false ∧ WholeOffset r.y yScale ∧
    ((f.bilinear = false ∧ WholeOffset r.x xScale) ∨
      (f.bilinear ∧ src.bpp = .binary ∧ r.x = 0 ∧
        r.y + ⌊((scaledSize r.h yScale - 1 : ℤ) : ℚ) / yScale⌋ < r.h)))

end

/-! ### When it is so -/

/-- Both calls draw nothing, or their loops differ in the first accumulator. -/
theorem plan_offset {p : Placement} {r : Rectangle} (hx : 0 < p.xScale) (hy : 0 < p.yScale)
    (hwx : WholeOffset r.x p.xScale) (hwy : WholeOffset r.y p.yScale) :
    (p.plan r = none ∧ p.plan ⟨0, 0, r.w, r.h⟩ = none) ∨
    ∃ ax ay, p.xAxis ⟨0, 0, r.w, r.h⟩ = some ax ∧ p.yAxis ⟨0, 0, r.w, r.h⟩ = some ay ∧
      p.plan r = some ((flagsOf p.hint r.w r.h p.xScale p.yScale).plan (ax.offset r.x ⌊r.x * p.xScale⌋)
        (ay.offset r.y ⌊r.y * p.yScale⌋)) ∧
      p.plan ⟨0, 0, r.w, r.h⟩ = some ((flagsOf p.hint r.w r.h p.xScale p.yScale).plan ax ay) := by
  have hxa : p.xAxis r = (p.xAxis ⟨0, 0, r.w, r.h⟩).map fun a => a.offset r.x ⌊r.x * p.xScale⌋ :=
    setupAxis_roi _ _ _ _ hx hwx
  have hya : p.yAxis r = (p.yAxis ⟨0, 0, r.w, r.h⟩).map fun a => a.offset r.y ⌊r.y * p.yScale⌋ :=
    setupAxis_roi _ _ _ _ hy hwy
  cases hax : p.xAxis ⟨0, 0, r.w, r.h⟩ with
  | none => exact .inl ⟨by simp [Placement.plan, hxa, hax], by simp [Placement.plan, hax]⟩
  | some ax =>
    cases hay : p.yAxis ⟨0, 0, r.w, r.h⟩ with
    | none => exact .inl ⟨by simp [Placement.plan, hya, hay], by simp [Placement.plan, hay]⟩
    | some ay =>
      rw [hax, Option.map_some] at hxa
      rw [hay, Option.map_some] at hya
      refine .inr ⟨ax, ay, rfl, rfl, ?_, ?_⟩
      · exact plan_eq_some_flagsOf.mpr ⟨_, hxa, _, hya, rfl⟩
      · exact plan_eq_some_flagsOf.mpr ⟨_, hax, _, hay, rfl⟩

/-- The pixels of the region are those of the copy. -/
def PixelsAgree (r : Rectangle) (px px' : ℤ → ℤ → ℤ) : Prop :=
  ∀ i j, 0 ≤ i ∧ i < r.w → 0 ≤ j ∧ j < r.h → px (r.x + i) (r.y + j) = px' i j

/-- Two plans draw the same from images of one format whose pixels agree, and the first one reads the
    region only. -/
def SameDrawing (bpp : Bpp) (r : Rectangle) (plan plan' : Plan) : Prop :=
  (∀ q, plan.Covers q ↔ plan'.Covers q) ∧
  (∀ px px', PixelsAgree r px px' → ∀ q, plan.Covers q →
    (plan.algorithm.resampler bpp plan.x plan.y px).sample (plan.x.accumAt q.1) (plan.y.accumAt q.2) =
    (plan'.algorithm.resampler bpp plan'.x plan'.y px').sample (plan'.x.accumAt q.1) (plan'.y.accumAt q.2)) ∧
  ∀ i j, plan.Reads bpp i j → InRoi r i j

/-- At the upper left it is the same plan. -/
theorem sameDrawing_origin (bpp : Bpp) {r : Rectangle} (hr : r.x = 0 ∧ r.y = 0) {plan : Plan}
    (hsize : plan.x.size = r.w ∧ plan.y.size = r.h) (h : plan.Inside) : SameDrawing bpp r plan plan := by
  obtain ⟨hx, hy⟩ := h
  unfold Axis.Inside at hx hy
  rw [hsize.1] at hx
  rw [hsize.2] at hy
  refine ⟨fun q => Iff.rfl, fun px px' hagree q hq => sample_congr _ fun i hi j hj => ?_, ?_⟩
  · have hpx := hagree i j (hx _ hq.1 i hi) (hy _ hq.2 j (Algorithm.readRows_subset hj))
    rwa [hr.1, hr.2, zero_add, zero_add] at hpx
  · rintro i j ⟨q, hq, hi, hj⟩
    have h1 := hx _ hq.1 i hi
    have h2 := hy _ hq.2 j (Algorithm.readRows_subset hj)
    unfold InRoi
    omega

section

variable {f : Flags} {r : Rectangle} {ax ay : Axis} {dstW dstH n m : ℤ} (hgx : ax.Good dstW) (hgy : ay.Good dstH)
  (hsx : ax.size = r.w) (hsy : ay.size = r.h) (harea : f.area = false) (hbicubic : f.bicubic = false)

include hgx hgy hsx hsy harea hbicubic

theorem sameDrawing_nearest (bpp : Bpp) (hbilinear : f.bilinear = false) :
    SameDrawing bpp r (f.plan (ax.offset r.x n) (ay.offset r.y m)) (f.plan ax ay) := by
  have halg : ∀ ax ay : Axis, f.algorithm ax ay = .copy ∨ f.algorithm ax ay = .nearest := by
    intro ax ay
    unfold Flags.algorithm
    rw [harea, hbicubic, hbilinear]
    simp only [Bool.false_eq_true, if_false]
    split_ifs <;> simp
  have hd : (if f.bicubic || f.bilinear then 32768 else 0 : ℤ) = 0 := by simp [hbicubic, hbilinear]
  have hindex : ∀ {a : Axis} (roi k x : ℤ),
      ((a.offset roi k).shift 0).accumAt x / 65536 = roi + (a.shift 0).accumAt x / 65536 := by
    intro a roi k x
    rw [Axis.offset_accumAt]
    omega
  unfold Flags.plan
  rw [hd]
  refine ⟨fun q => Iff.rfl, fun px px' hagree q hq => ?_, ?_⟩
  · rw [sample_nearest (halg _ _), sample_nearest (halg _ _), hindex, hindex]
    refine hagree _ _ ?_ ?_
    · exact hsx ▸ hgx.inside_nearest (.inr rfl) _ hq.1 _ (by simp [Algorithm.taps])
    · exact hsy ▸ hgy.inside_nearest (.inr rfl) _ hq.2 _ (by simp [Algorithm.taps])
  · rintro i j ⟨q, hq, hi, hj⟩
    have hi' : i = ((ax.offset r.x n).shift 0).accumAt q.1 / 65536 := by
      rcases halg (ax.offset r.x n) (ay.offset r.y m) with h | h <;> simpa [h, Algorithm.taps] using hi
    have hj' : j = ((ay.offset r.y m).shift 0).accumAt q.2 / 65536 := by
      have hj := Algorithm.readRows_subset hj
      rcases halg (ax.offset r.x n) (ay.offset r.y m) with h | h <;> simpa [h, Algorithm.taps] using hj
    rw [hindex] at hi' hj'
    have h1 := hgx.inside_nearest (.inr rfl) _ hq.1 _ (List.mem_singleton.mpr rfl)
    have h2 := hgy.inside_nearest (.inr rfl) _ hq.2 _ (List.mem_singleton.mpr rfl)
    rw [Axis.shift_size, hsx] at h1
    rw [Axis.shift_size, hsy] at h2
    unfold InRoi
    omega

/-- Bilinear for a binary image, when the lower limit does no harm. -/
theorem sameDrawing_binary (hbilinear : f.bilinear) (hrx : r.x = 0) (hry : 0 ≤ r.y)
    (hlast : ∀ y, ay.start ≤ y ∧ y < ay.stop → r.y + ay.accumAt y / 65536 < r.h) :
    SameDrawing .binary r (f.plan (ax.offset r.x 0) (ay.offset r.y m)) (f.plan ax ay) := by
  have halg : ∀ ax ay : Axis, f.algorithm ax ay = .bilinear := by
    intro ax ay
    simp [Flags.algorithm, harea, hbicubic, hbilinear]
  have hd : (if f.bicubic || f.bilinear then 32768 else 0 : ℤ) = 32768 := by simp [hbilinear]
  have hox : ax.offset r.x 0 = ax := by simp [Axis.offset, hrx]
  have hrow : ∀ y, ay.start ≤ y ∧ y < ay.stop →
      nearer ay.size (((ay.offset r.y m).shift 32768).accumAt y) = r.y + ay.accumAt y / 65536 ∧
      nearer ay.size ((ay.shift 32768).accumAt y) = ay.accumAt y / 65536 := by
    intro y hy
    have hacc := hgy.accumAt_bounds hy
    have h0 := hgy.reset_nonneg
    have hl := hlast y hy
    rw [Axis.offset_accumAt, Axis.shift_accumAt, nearer_eq (by omega) (by omega),
      nearer_eq (by omega) (by omega), hsy]
    omega
  have hmem : ∀ y, ay.start ≤ y ∧ y < ay.stop → 0 ≤ ay.accumAt y / 65536 ∧ ay.accumAt y / 65536 < r.h := by
    intro y hy
    have hacc := hgy.accumAt_bounds hy
    have h0 := hgy.reset_nonneg
    omega
  unfold Flags.plan
  rw [hd, hox]
  simp only [halg]
  refine ⟨fun q => Iff.rfl, fun px px' hagree q hq => ?_, ?_⟩
  · rw [bilinear_sample_binary (by decide), bilinear_sample_binary (by decide)]
    have hcol := hgx.inside_bilinear 32768 _ hq.1 (nearer ax.size ((ax.shift 32768).accumAt q.1))
      (by unfold nearer Algorithm.taps; split_ifs <;> simp)
    have hpx := hagree _ _ ⟨hcol.1, hcol.2.trans_eq hsx⟩ (hmem _ hq.2)
    rw [hrx, zero_add] at hpx
    have hsize : (ay.offset r.y m).size = ay.size := rfl
    rw [Axis.shift_size, Axis.shift_size, Axis.shift_size, hsize, (hrow _ hq.2).1, (hrow _ hq.2).2]
    exact hpx
  · rintro i j ⟨q, hq, hi, hj⟩
    have h1 := hgx.inside_bilinear 32768 _ hq.1 _ hi
    rw [Axis.shift_size, hsx] at h1
    rw [Algorithm.readRows, if_pos ⟨rfl, by decide, by decide⟩, List.mem_singleton] at hj
    have h2 := hj.trans (hrow _ hq.2).1
    have h3 := hlast _ hq.2
    have h4 := hmem _ hq.2
    unfold InRoi
    omega

end

section

variable {src c dst : Image} {r : Rectangle} {a : DrawArgs}

theorem IsCrop.pixel (hc : IsCrop c src r) {i j : ℤ} (hi : 0 ≤ i ∧ i < r.w) (hj : 0 ≤ j ∧ j < r.h) :
    src.pixel (r.x + i) (r.y + j) = c.pixel i j := by
  rw [image_pixel, image_pixel, hc.bpp, hc.data i j hi hj]

theorem IsCrop.extractsFirst (hc : IsCrop c src r) (roi : Option Rectangle) :
    DrawArgs.extractsFirst { a with roi := roi } c = a.extractsFirst src := by
  unfold DrawArgs.extractsFirst
  rw [hc.bpp]

/-- What the loops read agrees, if the channel or the palette is not applied to a part somewhere else. -/
theorem IsCrop.source (hc : IsCrop c src r) (hs : drawable src.bpp) (hw : r.w ≤ src.w) (hh : r.h ≤ src.h)
    (h0 : a.extractsFirst src → r.x = 0 ∧ r.y = 0) (junk junk' : ℤ → ℤ → ℕ) :
    (a.source src r junk).bpp = (DrawArgs.source { a with roi := none } c ⟨0, 0, r.w, r.h⟩ junk').bpp ∧
    PixelsAgree r (a.source src r junk).pixel
      (DrawArgs.source { a with roi := none } c ⟨0, 0, r.w, r.h⟩ junk').pixel := by
  unfold DrawArgs.source
  rw [hc.extractsFirst]
  by_cases he : a.extractsFirst src
  · obtain ⟨hx, hy⟩ := h0 he
    have hcs : drawable c.bpp := by rw [hc.bpp]; exact hs
    simp only [he, if_true, extracted_bpp, true_and]
    intro i j hi hj
    have hpx := hc.pixel hi hj
    rw [hx, hy, zero_add, zero_add] at hpx ⊢
    rw [image_pixel, image_pixel, extracted_bpp, extracted_bpp, extracted_data hs hw hh _ _ _ hi hj,
      extracted_data (r := ⟨0, 0, r.w, r.h⟩) hcs hc.w.ge hc.h.ge _ _ _ hi hj, hpx, hc.bpp]
  · simp only [he, if_false, Bool.false_eq_true]
    exact ⟨hc.bpp.symm, fun i j hi hj => hc.pixel hi hj⟩

/-- Two plans that draw the same leave the same image. -/
theorem SameDrawing.drawOn_eq {plan plan' : Plan} {new new' : Image} (hregular : plan.Regular)
    (hregular' : plan'.Regular) (h : SameDrawing new.bpp r plan plan') (hbpp : new.bpp = new'.bpp)
    (hagree : PixelsAgree r new.pixel new'.pixel) (blend : ℕ → ℕ → ℕ) (junk junk' : ℤ → ℕ) :
    drawOn plan new blend junk dst = drawOn plan' new' blend junk' dst := by
  by_cases hd : drawable new.bpp ∧ drawable dst.bpp
  · have hd' : drawable new'.bpp := hbpp ▸ hd.1
    rw [drawOn_frame plan, drawOn_frame plan']
    congr 1
    funext x y
    rw [drawOn_data hregular hd.1 hd.2, drawOn_data hregular' hd' hd.2]
    refine ite_congr (propext (h.1 (x, y))) (fun hq => ?_) (fun _ => rfl)
    rw [← hbpp, h.2.1 _ _ hagree (x, y) ((h.1 _).mpr hq)]
  · have hd' : ¬ (drawable new'.bpp && drawable dst.bpp) := by rw [← hbpp]; simpa using hd
    rw [drawOn, drawOn, if_neg (by simpa using hd), if_neg hd']

/-- The whole call. -/
theorem imlibDrawImage_crop_eq (hc : IsCrop c src r) (hs : drawable src.bpp) (hw : r.w ≤ src.w) (hh : r.h ≤ src.h)
    (h0 : a.extractsFirst src → r.x = 0 ∧ r.y = 0) (ha : a.roi = some r) (junk junk' : ℤ → ℤ → ℕ)
    (h : ((a.placement dst).plan r = none ∧ (a.placement dst).plan ⟨0, 0, r.w, r.h⟩ = none) ∨
      ∃ plan plan', (a.placement dst).plan r = some plan ∧ (a.placement dst).plan ⟨0, 0, r.w, r.h⟩ = some plan' ∧
        SameDrawing (a.source src r junk).bpp r plan plan') :
    imlibDrawImage (opaqueRow dst.bpp) false junk dst src a =
      imlibDrawImage (opaqueRow dst.bpp) false junk' dst c { a with roi := none } := by
  have hplace : DrawArgs.placement { a with roi := none } dst = a.placement dst := rfl
  unfold imlibDrawImage
  simp only [ha, roiOf, Option.getD_some, Option.getD_none, hc.w, hc.h, hplace, Bool.false_eq_true, if_false]
  rcases h with ⟨h1, h2⟩ | ⟨plan, plan', h1, h2, hsame⟩
  · rw [h1, h2]
  · obtain ⟨hbpp, hagree⟩ := hc.source (a := a) hs hw hh h0 junk junk'
    have hblend : DrawArgs.blend { a with roi := none } (opaqueRow dst.bpp) c
        (DrawArgs.source { a with roi := none } c ⟨0, 0, r.w, r.h⟩ junk') =
        a.blend (opaqueRow dst.bpp) src (a.source src r junk) := by
      unfold DrawArgs.blend
      rw [hc.extractsFirst, ← hbpp]
    rw [h1, h2]
    simp only at hbpp hagree hblend ⊢
    rw [hblend]
    exact hsame.drawOn_eq (plan_regular h1) (plan_regular h2) hbpp hagree _ _ _

end

theorem plan_none_of_scaled {p : Placement} {r : Rectangle}
    (h : scaledSize r.w p.xScale < 1 ∨ scaledSize r.h p.yScale < 1) : p.plan r = none := by
  rw [Option.eq_none_iff_forall_ne_some]
  intro plan hplan
  obtain ⟨ax, hax, ay, hay, -⟩ := Placement.plan_eq_some.mp hplan
  have h1 := (setupAxis_eq_some.mp hax).1
  have h2 := (setupAxis_eq_some.mp hay).1
  omega

theorem flagsOf_area (hint : Hint) (w h : ℤ) (xScale yScale : ℚ) :
    (flagsOf hint w h xScale yScale).area ↔ usesArea hint w h xScale yScale := normalize_area hint rfl rfl

theorem cutOff_nonneg {dstSize scaled pos : ℤ} {scale : ℚ} (hs : 0 < scale) :
    (0 : ℚ) ≤ cutOff dstSize scaled pos scale := by
  rw [cutOff, if_neg (not_lt.mpr hs.le)]
  exact_mod_cast le_max_right _ _

/-- Without the half pixel the area algorithm stays in the region, unless a step is 0. -/
theorem areaReads_of_le {fast : Bool} {scale : ℚ} {dstSize scaled pos : ℤ} (hs : 0 < scale)
    (h : fast ∨ scale ≤ 65536) : AreaReads fast false scale (cutOff dstSize scaled pos scale) := by
  right
  rw [if_neg Bool.false_ne_true, if_neg, add_zero, mul_zero]
  · exact cutOff_nonneg hs
  · rintro ⟨hf, hlt⟩
    rw [abs_of_pos hs] at hlt
    exact h.elim hf (not_le.mpr hlt)

section

variable {src : Image} {r : Rectangle} {xScale yScale : ℚ} {rgbChannel : Option RgbChannel}
  {palette : Option (ℤ → ℤ)} {hint : Hint}

/-- Where the two calls draw something they draw the same. -/
theorem sameDrawing_of_crops {p : Placement} (hx : 0 < p.xScale) (hy : 0 < p.yScale) (hry : 0 ≤ r.y)
    (h : Crops src r p.xScale p.yScale rgbChannel palette p.hint (flagsOf p.hint r.w r.h p.xScale p.yScale))
    {bpp : Bpp} (hbpp : DrawArgs.extractsFirst ⟨0, 0, p.xScale, p.yScale, some r, rgbChannel, palette, p.hint⟩ src
      = false → bpp = src.bpp) :
    (p.plan r = none ∧ p.plan ⟨0, 0, r.w, r.h⟩ = none) ∨
    ∃ plan plan', p.plan r = some plan ∧ p.plan ⟨0, 0, r.w, r.h⟩ = some plan' ∧ SameDrawing bpp r plan plan' := by
  rcases h with h | ⟨hrx, hry, harea⟩ | ⟨he, harea, hbicubic, hwy, h⟩
  · exact .inl ⟨plan_none_of_scaled h, plan_none_of_scaled h⟩
  · have hr : (⟨0, 0, r.w, r.h⟩ : Rectangle) = r := by rw [← hrx]; nth_rewrite 2 [hrx]; rw [← hry]
    rw [hr]
    cases hplan : p.plan r with
    | none => exact .inl ⟨rfl, rfl⟩
    | some plan =>
      refine .inr ⟨plan, plan, rfl, rfl, sameDrawing_origin bpp ⟨hrx, hry⟩ ?_ ?_⟩
      · obtain ⟨ax, hax, ay, hay, rfl⟩ := plan_eq_some_flagsOf.mp hplan
        exact ⟨(setupAxis_frac hax).1, (setupAxis_frac hay).1⟩
      · refine (plan_inside_iff ⟨hrx, hry⟩ hx.ne' hy.ne' hplan).2.mpr fun huses => ?_
        have hf := (flagsOf_area _ _ _ _ _).mpr huses
        obtain ⟨h1, h2, h3⟩ := harea hf
        have hhalf : (p.hint.bicubic || p.hint.bilinear) = false := by
          rw [← normalize_half _ _ _ _ _ hf, ← flagsOf, h1, h2]
          rfl
        unfold AreaInside
        simp only [hhalf]
        refine ⟨areaReads_of_le hx ?_, areaReads_of_le hy ?_⟩
        · exact h3.imp (fun h => by simpa using h) And.left
        · exact h3.imp (fun h => by simpa using h) And.right
  · have hwx : WholeOffset r.x p.xScale := by
      rcases h with h | ⟨-, -, hrx, -⟩
      · exact h.2
      · rw [hrx]
        simp [WholeOffset]
    rcases plan_offset hx hy hwx hwy with hnone | ⟨ax, ay, hax, hay, hplan, hplan'⟩
    · exact .inl hnone
    · refine .inr ⟨_, _, hplan, hplan', ?_⟩
      have hgx := setupAxis_good hx.ne' hax
      have hgy := setupAxis_good hy.ne' hay
      have hsx : ax.size = r.w := (setupAxis_frac hax).1
      have hsy : ay.size = r.h := (setupAxis_frac hay).1
      rcases h with ⟨hbilinear, -⟩ | ⟨hbilinear, hbinary, hrx, hlast⟩
      · exact sameDrawing_nearest hgx hgy hsx hsy harea hbicubic bpp hbilinear
      · have hzero : ⌊(r.x : ℚ) * p.xScale⌋ = 0 := by simp [hrx]
        rw [hbpp he, hbinary, hzero]
        refine sameDrawing_binary hgx hgy hsx hsy harea hbicubic hbilinear hrx hry fun y hv => ?_
        exact lt_of_le_of_lt (add_le_add_right (setupAxis_last hy hay hv) _) hlast

/-- When the channel or the palette is applied, the upper left part is read. -/
theorem inner_reads_iff {bpp : Bpp} {srcW srcH : ℤ} (hw : 0 < r.w ∧ r.w ≤ srcW) (hh : 0 < r.h ∧ r.h ≤ srcH)
    (i j : ℤ) : (∃ inner, (extractPlacement r).plan ⟨0, 0, srcW, srcH⟩ = some inner ∧ inner.Reads bpp i j) ↔
      (0 ≤ i ∧ i < r.w) ∧ 0 ≤ j ∧ j < r.h := by
  rw [extractPlacement_plan hw hh]
  simp only [Option.some.injEq, exists_eq_left', Plan.Reads, Plan.Covers, Algorithm.readRows, Algorithm.taps,
    reduceCtorEq, false_and, if_false, List.mem_singleton]
  have hacc : ∀ size stop x : ℤ, Axis.accumAt ⟨size, 0, stop, 1, 0, 65536, 0⟩ x / 65536 = x := by
    intro size stop x
    simp [Axis.accumAt, Axis.accum, Axis.reset]
  simp only [hacc]
  constructor
  · rintro ⟨q, hq, rfl, rfl⟩
    exact hq
  · intro h
    exact ⟨(i, j), h, rfl, rfl⟩

/-- A region that is drawn has a width. -/
theorem pos_of_scaled {size : ℤ} {scale : ℚ} (h : 1 ≤ scaledSize size scale) : 0 < size := by
  by_contra hle
  have hq : (size : ℚ) ≤ 0 := by exact_mod_cast not_lt.mp hle
  have h1 : (1 : ℚ) ≤ |scale| * size := by
    have := Int.le_floor.mp h
    simpa using this
  nlinarith [abs_nonneg scale]

variable (hs : drawable src.bpp) (hr : 0 ≤ r.x ∧ 0 ≤ r.y) (hw : r.x + r.w ≤ src.w)
  (hh : r.y + r.h ≤ src.h) (hx : 0 < xScale) (hy : 0 < yScale)

include hr hw hh hx hy

/-- The channel or the palette is applied to a region at the upper left only, and what is read is in it. -/
theorem reads_of_crops (h : Crops src r xScale yScale rgbChannel palette hint (flagsOf hint r.w r.h xScale yScale))
    (dst : Image) (x y : ℤ) {i j : ℤ}
    (hreads : DrawArgs.Reads ⟨x, y, xScale, yScale, some r, rgbChannel, palette, hint⟩ dst src i j) :
    InRoi r i j := by
  obtain ⟨plan, hplan, hreads⟩ := hreads
  have hplan : Placement.plan ⟨dst.w, dst.h, x, y, xScale, yScale, hint⟩ r = some plan := hplan
  split_ifs at hreads with he
  · obtain ⟨ax, hax, ay, hay, -⟩ := plan_eq_some_flagsOf.mp hplan
    have h1 := (setupAxis_eq_some.mp hax).1
    have h2 := (setupAxis_eq_some.mp hay).1
    have hw0 := pos_of_scaled h1
    have hh0 := pos_of_scaled h2
    rw [show roiOf src.w src.h (some r) = r from rfl, inner_reads_iff ⟨hw0, by omega⟩ ⟨hh0, by omega⟩] at hreads
    rcases h with h | ⟨hrx, hry, -⟩ | ⟨hne, -⟩
    · exact absurd h (by simp only at h1 h2; omega)
    · unfold InRoi
      omega
    · exact absurd (he.symm.trans hne) (by decide)
  · rcases sameDrawing_of_crops (p := ⟨dst.w, dst.h, x, y, xScale, yScale, hint⟩) hx hy hr.2 h fun _ => rfl with
      hnone | ⟨plan', plan'', hplan', -, hsame⟩
    · rw [hplan] at hnone
      cases hnone.1
    · rw [hplan] at hplan'
      cases hplan'
      exact hsame.2.2 i j hreads

include hs

/-- The condition is enough. -/
theorem drawsCrop_of_crops
    (h : Crops src r xScale yScale rgbChannel palette hint (flagsOf hint r.w r.h xScale yScale)) :
    DrawsCrop src r xScale yScale rgbChannel palette hint := by
  intro dst x y sd c junk junk' hc
  refine ⟨?_, fun i j => reads_of_crops hr hw hh hx hy h dst x y⟩
  set a : DrawArgs := ⟨x, y, xScale, yScale, some r, rgbChannel, palette, hint⟩
  by_cases hscaled : scaledSize r.w xScale < 1 ∨ scaledSize r.h yScale < 1
  · have hnone : (a.placement dst).plan r = none := plan_none_of_scaled hscaled
    have hnone' : (a.placement dst).plan ⟨0, 0, c.w, c.h⟩ = none := by
      rw [hc.w, hc.h]
      exact plan_none_of_scaled hscaled
    exact (imlibDrawImage_of_none (a := a) hnone _ _ _).trans
      (imlibDrawImage_of_none (a := { a with roi := none }) hnone' _ _ _).symm
  · have h0 : a.extractsFirst src → r.x = 0 ∧ r.y = 0 := by
      intro hex
      rcases h with h | ⟨hrx, hry, -⟩ | ⟨hne, -⟩
      · exact absurd h hscaled
      · exact ⟨hrx, hry⟩
      · exact absurd (hex.symm.trans hne) (by decide)
    have hbpp : a.extractsFirst src = false → (a.source { src with data := sd } r junk).bpp = src.bpp := by
      intro hex
      have hex' : a.extractsFirst { src with data := sd } = false := hex
      rw [DrawArgs.source, hex', if_neg Bool.false_ne_true]
    exact imlibDrawImage_crop_eq hc hs (by simp only; omega) (by simp only; omega) h0 rfl junk junk'
      (sameDrawing_of_crops (p := a.placement dst) hx hy hr.2 h hbpp)

end

/-! ### When it is not -/

theorem firstAccum_nonneg {roi : ℤ} {scale : ℚ} (hroi : 0 ≤ roi) (hs : 0 < scale) : 0 ≤ firstAccum roi scale := by
  have hq : (0 : ℚ) ≤ roi := by exact_mod_cast hroi
  have hfloor : 0 ≤ ⌊roi * scale⌋ := Int.floor_nonneg.mpr (mul_nonneg hq hs.le)
  have hnum : (0 : ℚ) ≤ ((⌊roi * scale⌋ * 65536 : ℤ) : ℚ) := by exact_mod_cast mul_nonneg hfloor (by norm_num)
  exact Int.floor_nonneg.mpr (div_nonneg hnum hs.le)

/-- The first of four columns lies before the region. -/
theorem tap4_lt (size : ℤ) {roi acc : ℤ} (hroi : 0 < roi) (h : acc ≤ roi * 65536) :
    (tap4 size ((acc - 32768) / 65536)).1 < roi := by
  unfold tap4
  split_ifs <;> simp only <;> omega

theorem tap2_lt (size : ℤ) {roi acc : ℤ} (hroi : 0 < roi) (h : acc ≤ roi * 65536) :
    (tap2 size ((acc - 32768) / 65536)).1 < roi := by
  unfold tap2
  split_ifs <;> simp only <;> omega

section

variable {src : Image} {r : Rectangle} {xScale yScale : ℚ} {rgbChannel : Option RgbChannel}
  {palette : Option (ℤ → ℤ)} {hint : Hint}

/-- The copy of a region. -/
def cropOf (src : Image) (r : Rectangle) : Image :=
  ⟨r.w, r.h, src.bpp, fun x y => src.data (r.x + x) (r.y + y)⟩

theorem cropOf_isCrop (src : Image) (r : Rectangle) : IsCrop (cropOf src r) src r :=
  ⟨rfl, rfl, rfl, fun _ _ _ _ => rfl⟩

theorem DrawsCrop.reads (h : DrawsCrop src r xScale yScale rgbChannel palette hint) (dst : Image) (x y : ℤ) {i j : ℤ}
    (hreads : DrawArgs.Reads ⟨x, y, xScale, yScale, some r, rgbChannel, palette, hint⟩ dst src i j) :
    InRoi r i j :=
  (h dst x y src.data (cropOf src r) (fun _ _ => 0) (fun _ _ => 0) (cropOf_isCrop src r)).2 i j hreads

/-- One pixel of the scaled region drawn alone. -/
theorem exists_plan_single (r : Rectangle) (hx : 0 < xScale) (hy : 0 < yScale) (hint : Hint) {cutX cutY : ℤ}
    (hcx : 0 ≤ cutX ∧ cutX < scaledSize r.w xScale) (hcy : 0 ≤ cutY ∧ cutY < scaledSize r.h yScale) :
    ∃ ax ay, Placement.plan ⟨1, 1, offsetOf (scaledSize r.w xScale) cutX hint.center,
        offsetOf (scaledSize r.h yScale) cutY hint.center, xScale, yScale, hint⟩ r =
        some ((flagsOf hint r.w r.h xScale yScale).plan ax ay) ∧
      Plan.Covers ((flagsOf hint r.w r.h xScale yScale).plan ax ay) (0, 0) ∧ ax.size = r.w ∧ ay.size = r.h ∧
      (∀ d, (ax.shift d).accumAt 0 = ⌊(((cutX + ⌊r.x * xScale⌋) * 65536 : ℤ) : ℚ) / xScale⌋ - d) ∧
      ∀ d, (ay.shift d).accumAt 0 = ⌊(((cutY + ⌊r.y * yScale⌋) * 65536 : ℤ) : ℚ) / yScale⌋ - d := by
  obtain ⟨ax, hax, hcovx, hsx, haccx⟩ := setupAxis_single r.w r.x hx hint.center hcx
  obtain ⟨ay, hay, hcovy, hsy, haccy⟩ := setupAxis_single r.h r.y hy hint.center hcy
  exact ⟨ax, ay, plan_eq_some_flagsOf.mpr ⟨ax, hax, ay, hay, rfl⟩, ⟨hcovx, hcovy⟩, hsx, hsy, haccx, haccy⟩

/-- A pixel of a binary image drawn with the bilinear hint. -/
theorem imlibDrawImage_bilinear_binary {a : DrawArgs} {dst src : Image} {plan : Plan}
    (hplan : (a.placement dst).plan (roiOf src.w src.h a.roi) = some plan) (halg : plan.algorithm = .bilinear)
    (hb : src.bpp = .binary) (hd : drawable dst.bpp) (he : a.extractsFirst src = false)
    (hq : plan.Covers (0, 0)) (junk : ℤ → ℤ → ℕ) :
    (imlibDrawImage (opaqueRow dst.bpp) false junk dst src a).data 0 0 =
      unitOf dst.bpp .binary a.rgbChannel a.palette false
        (src.pixel (nearer plan.x.size (plan.x.accumAt 0)) (nearer plan.y.size (plan.y.accumAt 0))) := by
  have hsource : ∀ r, a.source src r junk = src := by
    intro r
    rw [DrawArgs.source, he, if_neg Bool.false_ne_true]
  have hblend : a.blend (opaqueRow dst.bpp) src src = opaqueRow dst.bpp src.bpp a.rgbChannel a.palette := by
    rw [DrawArgs.blend, he, if_neg Bool.false_ne_true]
  unfold imlibDrawImage
  simp only [Bool.false_eq_true, if_false, hplan, hsource, hblend]
  rw [drawOn_data (plan_regular hplan) (by rw [hb]; rfl) hd, if_pos hq, halg,
    bilinear_sample_binary (by rw [hb]; decide), opaqueRow, getPixel_putPixel_pixel, hb]
  rfl

theorem binary_single (img : Image) {roi : Option Rectangle} (hroi : roiOf img.w img.h roi = r)
    (hb : img.bpp = .binary) (halg : ∀ ax ay, (flagsOf hint r.w r.h xScale yScale).algorithm ax ay = .bilinear)
    (hbilinear : (flagsOf hint r.w r.h xScale yScale).bilinear) (hx : 0 < xScale) (hy : 0 < yScale)
    {cutX cutY : ℤ} (hcx : 0 ≤ cutX ∧ cutX < scaledSize r.w xScale)
    (hcy : 0 ≤ cutY ∧ cutY < scaledSize r.h yScale) (a : DrawArgs)
    (ha : a = ⟨offsetOf (scaledSize r.w xScale) cutX hint.center, offsetOf (scaledSize r.h yScale) cutY hint.center,
      xScale, yScale, roi, rgbChannel, palette, hint⟩) (he : a.extractsFirst img = false) (junk : ℤ → ℤ → ℕ) :
    (imlibDrawImage (opaqueRow .grayscale) false junk ⟨1, 1, .grayscale, fun _ _ => 0⟩ img a).data 0 0 =
      unitOf .grayscale .binary rgbChannel palette false (img.pixel
        (nearer r.w (⌊(((cutX + ⌊r.x * xScale⌋) * 65536 : ℤ) : ℚ) / xScale⌋ - 32768))
        (nearer r.h (⌊(((cutY + ⌊r.y * yScale⌋) * 65536 : ℤ) : ℚ) / yScale⌋ - 32768))) := by
  obtain ⟨ax, ay, hplan, hcov, hsizex, hsizey, haccx, haccy⟩ := exists_plan_single r hx hy hint hcx hcy
  have hplan' : (a.placement ⟨1, 1, .grayscale, fun _ _ => 0⟩).plan (roiOf img.w img.h a.roi) =
      some ((flagsOf hint r.w r.h xScale yScale).plan ax ay) := by
    rw [ha, ← hplan]
    simp only [DrawArgs.placement, hroi]
  have hd : (if (flagsOf hint r.w r.h xScale yScale).bicubic || (flagsOf hint r.w r.h xScale yScale).bilinear then
      32768 else 0 : ℤ) = 32768 := by rw [hbilinear, Bool.or_true, if_pos rfl]
  have hdata := imlibDrawImage_bilinear_binary hplan' (halg ax ay) hb rfl he hcov junk
  simp only [Flags.plan, hd, haccx, haccy, Axis.shift_size, hsizex, hsizey] at hdata
  rw [hdata, ha]

section

variable (hr : 0 ≤ r.x ∧ 0 ≤ r.y) (hw : r.x + r.w ≤ src.w) (hh : r.y + r.h ≤ src.h) (hx : 0 < xScale)
  (hy : 0 < yScale) (hsx : 1 ≤ scaledSize r.w xScale) (hsy : 1 ≤ scaledSize r.h yScale)
  (h : DrawsCrop src r xScale yScale rgbChannel palette hint)

include hr hw hh hx hy hsx hsy h

/-- If the channel or the palette is applied first the region is at the upper left. -/
theorem DrawsCrop.origin_of_extracts
    (he : DrawArgs.extractsFirst ⟨0, 0, xScale, yScale, some r, rgbChannel, palette, hint⟩ src) :
    r.x = 0 ∧ r.y = 0 := by
  obtain ⟨ax, ay, hplan, -⟩ := exists_plan_single r hx hy hint ⟨le_rfl, hsx⟩ ⟨le_rfl, hsy⟩
  have hw0 := pos_of_scaled hsx
  have hh0 := pos_of_scaled hsy
  have hin := h.reads ⟨1, 1, .grayscale, fun _ _ => 0⟩ _ _ (i := 0) (j := 0) ⟨_, hplan, ?_⟩
  · unfold InRoi at hin
    omega
  · rw [if_pos (by exact he)]
    exact (inner_reads_iff (r := r) ⟨hw0, by omega⟩ ⟨hh0, by omega⟩ 0 0).mpr ⟨⟨le_rfl, hw0⟩, le_rfl, hh0⟩

omit hr hw hh in
/-- What is read for the first pixel of the region. -/
theorem DrawsCrop.first
    (he : DrawArgs.extractsFirst ⟨0, 0, xScale, yScale, some r, rgbChannel, palette, hint⟩ src = false)
    (harea : (flagsOf hint r.w r.h xScale yScale).area = false) :
    let f := flagsOf hint r.w r.h xScale yScale
    let i := (firstAccum r.x xScale - 32768) / 65536
    let j := (firstAccum r.y yScale - 32768) / 65536
    (f.bicubic → InRoi r (tap4 r.w i).1 (tap4 r.h j).1) ∧
    (f.bicubic = false → f.bilinear →
      InRoi r (tap2 r.w i).1 (if src.bpp ≠ .grayscale ∧ src.bpp ≠ .rgb565 then
        nearer r.h (firstAccum r.y yScale - 32768) else (tap2 r.h j).1)) ∧
    (f.bicubic = false → f.bilinear = false →
      InRoi r (firstAccum r.x xScale / 65536) (firstAccum r.y yScale / 65536)) := by
  obtain ⟨ax, ay, hplan, hcov, hsizex, hsizey, haccx, haccy⟩ :=
    exists_plan_single r hx hy hint ⟨le_rfl, hsx⟩ ⟨le_rfl, hsy⟩
  simp only [zero_add] at haccx haccy
  rw [← firstAccum] at haccx haccy
  intro f i j
  have hin : ∀ i j, i ∈ (f.algorithm ax ay).taps (f.plan ax ay).x ((f.plan ax ay).x.accumAt 0) →
      j ∈ (f.algorithm ax ay).readRows src.bpp (f.plan ax ay).y ((f.plan ax ay).y.accumAt 0) → InRoi r i j := by
    intro i j hi hj
    refine h.reads ⟨1, 1, .grayscale, fun _ _ => 0⟩ _ _ ⟨_, hplan, ?_⟩
    rw [if_neg (by exact ne_true_of_eq_false he)]
    exact ⟨(0, 0), hcov, hi, hj⟩
  simp only [Flags.plan, haccx, haccy] at hin
  change f.area = false at harea
  refine ⟨fun hb => ?_, fun hb hl => ?_, fun hb hl => ?_⟩
  · have halg : f.algorithm ax ay = .bicubic := by simp [Flags.algorithm, harea, hb]
    apply hin <;> simp [halg, hb, Algorithm.readRows, Algorithm.taps, hsizex, hsizey, i, j]
  · have halg : f.algorithm ax ay = .bilinear := by simp [Flags.algorithm, harea, hb, hl]
    apply hin
    · simp [halg, hb, hl, Algorithm.taps, hsizex, i]
    · rw [halg, Algorithm.readRows]
      simp only [true_and]
      split_ifs <;> simp_all [Algorithm.taps, j]
  · have halg : f.algorithm ax ay = .copy ∨ f.algorithm ax ay = .nearest := by
      simp only [Flags.algorithm, harea, hb, hl]
      split_ifs <;> simp_all
    rcases halg with halg | halg <;> apply hin <;>
      simp [halg, hb, hl, Algorithm.readRows, Algorithm.taps]

omit hr hw hh in
/-- The lower limit of bilinear for a binary image is seen in the last row. -/
theorem DrawsCrop.lower_limit (hb : src.bpp = .binary) (hpal : palette = none)
    (he : DrawArgs.extractsFirst ⟨0, 0, xScale, yScale, some r, rgbChannel, palette, hint⟩ src = false)
    (halg : ∀ ax ay, (flagsOf hint r.w r.h xScale yScale).algorithm ax ay = .bilinear)
    (hbilinear : (flagsOf hint r.w r.h xScale yScale).bilinear) (hwhole : WholeOffset r.y yScale) :
    r.y + ⌊((scaledSize r.h yScale - 1 : ℤ) : ℚ) / yScale⌋ < r.h := by
  by_contra hge
  have hcy : 0 ≤ scaledSize r.h yScale - 1 ∧ scaledSize r.h yScale - 1 < scaledSize r.h yScale := by omega
  have hcx : (0 : ℤ) ≤ 0 ∧ 0 < scaledSize r.w xScale := ⟨le_rfl, hsx⟩
  -- a picture that is black in the last row the limit allows, and white elsewhere
  set pic : Image := { src with data := fun _ y => if y = r.h - 1 then 0 else white .binary }
  have heq := (h ⟨1, 1, .grayscale, fun _ _ => 0⟩ (offsetOf (scaledSize r.w xScale) 0 hint.center)
    (offsetOf (scaledSize r.h yScale) (scaledSize r.h yScale - 1) hint.center) pic.data (cropOf pic r)
    (fun _ _ => 0) (fun _ _ => 0) (cropOf_isCrop pic r)).1
  have hpixel := congrArg (fun img : Image => img.data 0 0) heq
  simp only at hpixel
  rw [binary_single pic (r := r) rfl hb halg hbilinear hx hy hcx hcy _ rfl he,
    binary_single (cropOf pic r) (r := ⟨0, 0, r.w, r.h⟩) rfl hb halg hbilinear hx hy hcx hcy _ rfl he,
    image_pixel, image_pixel, accumReset_offset hy hwhole] at hpixel
  simp only [cropOf, pic, hb, hpal, Int.cast_zero, zero_mul, Int.floor_zero, add_zero] at hpixel
  -- the last row of the scaled region comes from row `m` of the region
  have hm := index_of_cut (scaledSize r.h yScale - 1) yScale
  have hm0 : 0 ≤ ⌊((scaledSize r.h yScale - 1 : ℤ) : ℚ) / yScale⌋ :=
    Int.floor_nonneg.mpr (div_nonneg (by exact_mod_cast hcy.1) hy.le)
  have hlt := last_index_lt r.h hy
  generalize ⌊(((scaledSize r.h yScale - 1) * 65536 : ℤ) : ℚ) / yScale⌋ = acc at hpixel hm
  generalize ⌊((scaledSize r.h yScale - 1 : ℤ) : ℚ) / yScale⌋ = m at hge hm hm0 hlt
  have hrow : nearer r.h (acc + r.y * 65536 - 32768) = r.h - 1 := by
    rw [nearer_eq (by omega) (by omega)]
    omega
  have hrow' : r.y + nearer r.h (acc - 32768) ≠ r.h - 1 := by
    rw [nearer_eq (by omega) (by omega)]
    omega
  rw [if_pos hrow, if_neg hrow'] at hpixel
  exact unitOf_black_ne_white rfl rfl _ _ hpixel

/-- Outside the area algorithm the condition is needed. -/
theorem DrawsCrop.crops (harea : (flagsOf hint r.w r.h xScale yScale).area = false)
    (hpal : (flagsOf hint r.w r.h xScale yScale).bilinear → src.bpp = .binary → palette = none)
    (hs : drawable src.bpp) :
    Crops src r xScale yScale rgbChannel palette hint (flagsOf hint r.w r.h xScale yScale) := by
  have horigin : r.x = 0 → r.y = 0 →
      Crops src r xScale yScale rgbChannel palette hint (flagsOf hint r.w r.h xScale yScale) :=
    fun h1 h2 => .inr (.inl ⟨h1, h2, fun hf => absurd (hf.symm.trans harea) (by decide)⟩)
  have hlex := firstAccum_le r.x hx
  have hley := firstAccum_le r.y hy
  by_cases he : DrawArgs.extractsFirst ⟨0, 0, xScale, yScale, some r, rgbChannel, palette, hint⟩ src
  · obtain ⟨h1, h2⟩ := h.origin_of_extracts hr hw hh hx hy hsx hsy he
    exact horigin h1 h2
  rw [Bool.not_eq_true] at he
  obtain ⟨hbicubic, hbilinear, hnearest⟩ := h.first hx hy hsx hsy he harea
  cases hb : (flagsOf hint r.w r.h xScale yScale).bicubic with
  | true =>
    obtain ⟨h1, h2⟩ := hbicubic hb
    have hx0 := fun h0 => tap4_lt r.w h0 hlex
    have hy0 := fun h0 => tap4_lt r.h h0 hley
    exact horigin (by omega) (by omega)
  | false =>
    cases hl : (flagsOf hint r.w r.h xScale yScale).bilinear with
    | true =>
      obtain ⟨h1, h2⟩ := hbilinear hb hl
      have hx0 := fun h0 => tap2_lt r.w h0 hlex
      have hrx : r.x = 0 := by omega
      by_cases hbin : src.bpp ≠ .grayscale ∧ src.bpp ≠ .rgb565
      · have hbinary : src.bpp = .binary := by
          cases hbpp : src.bpp <;> simp_all [drawable]
        rw [if_pos hbin] at h2
        have hwhole : WholeOffset r.y yScale := by
          by_contra hne
          have hlt := firstAccum_lt hy hne
          have hnonneg := firstAccum_nonneg hr.2 hy
          rw [nearer_eq (pos_of_scaled hsy) (by omega)] at h2
          omega
        refine .inr (.inr ⟨he, harea, hb, hwhole, .inr ⟨hl, hbinary, hrx, ?_⟩⟩)
        have halg : ∀ ax ay, (flagsOf hint r.w r.h xScale yScale).algorithm ax ay = .bilinear := by
          intro ax ay
          simp [Flags.algorithm, harea, hb, hl]
        exact h.lower_limit hx hy hsx hsy hbinary (hpal hl hbinary) he halg hl hwhole
      · rw [if_neg hbin] at h2
        have hy0 := fun h0 => tap2_lt r.h h0 hley
        exact horigin hrx (by omega)
    | false =>
      obtain ⟨h1, h2⟩ := hnearest hb hl
      refine .inr (.inr ⟨he, harea, hb, ?_, .inl ⟨hl, ?_⟩⟩)
      · by_contra hne
        have hlt := firstAccum_lt hy hne
        omega
      · by_contra hne
        have hlt := firstAccum_lt hx hne
        omega

end

end

/-- Drawing a region is drawing a copy of it, wherever and whatever is drawn, if the condition holds; and,
    for all algorithms but the area one, only then. -/
theorem drawImage_crop_iff (src : Image) (r : Rectangle) (xScale yScale : ℚ) (rgbChannel : Option RgbChannel)
    (palette : Option (ℤ → ℤ)) (hint : Hint) (hs : drawable src.bpp) (hr : 0 ≤ r.x ∧ 0 ≤ r.y)
    (hw : r.x + r.w ≤ src.w) (hh : r.y + r.h ≤ src.h) (hx : 0 < xScale) (hy : 0 < yScale) :
    let f := flagsOf hint r.w r.h xScale yScale
    (Crops src r xScale yScale rgbChannel palette hint f →
      DrawsCrop src r xScale yScale rgbChannel palette hint) ∧
    (f.area = false → (f.bilinear → src.bpp = .binary → palette = none) →
      (DrawsCrop src r xScale yScale rgbChannel palette hint ↔
        Crops src r xScale yScale rgbChannel palette hint f)) := by
  intro f
  have henough : Crops src r xScale yScale rgbChannel palette hint f →
      DrawsCrop src r xScale yScale rgbChannel palette hint := drawsCrop_of_crops hs hr hw hh hx hy
  refine ⟨henough, fun harea hpal => ⟨fun h => ?_, henough⟩⟩
  by_cases hscaled : scaledSize r.w xScale < 1 ∨ scaledSize r.h yScale < 1
  · exact .inl hscaled
  · exact h.crops hr hw hh hx hy (by omega) (by omega) harea hpal hs

/-- A region at a whole offset, drawn as it is: the condition holds and with it the property. -/
theorem drawImage_crop_whole :
    let src : Image := ⟨4, 1, .grayscale, fun _ _ => 0⟩
    let hint : Hint := ⟨false, false, false, false, false, false⟩
    DrawsCrop src ⟨2, 0, 2, 1⟩ (1 / 2) 1 none none hint := by
  intro src hint
  refine (drawImage_crop_iff src ⟨2, 0, 2, 1⟩ (1 / 2) 1 none none hint rfl (by decide) (by decide) (by decide)
    (by norm_num) (by norm_num)).1 (.inr (.inr ⟨rfl, ?_⟩))
  have hflags : flagsOf hint 2 1 (1 / 2) 1 = noFlags := by decide
  rw [hflags]
  norm_num [noFlags, WholeOffset]

/-- A region that starts in the second column: half of its size shows the first column instead. -/
theorem drawImage_not_crop :
    let src : Image := ⟨4, 1, .grayscale, fun x _ => if x = 0 then 10 else 20⟩
    let dst : Image := ⟨1, 1, .grayscale, fun _ _ => 0⟩
    let hint : Hint := ⟨false, false, false, false, false, false⟩
    imlibDrawImage (opaqueRow .grayscale) false (fun _ _ => 0) dst src
        ⟨0, 0, 1 / 2, 1, some ⟨1, 0, 2, 1⟩, none, none, hint⟩ ≠
      imlibDrawImage (opaqueRow .grayscale) false (fun _ _ => 0) dst (cropOf src ⟨1, 0, 2, 1⟩)
        ⟨0, 0, 1 / 2, 1, none, none, none, hint⟩ := by
  intro src dst hint h
  have hpixel := congrArg (fun img : Image => img.data 0 0) h
  revert hpixel
  decide +kernel

end OpenMV.Draw
