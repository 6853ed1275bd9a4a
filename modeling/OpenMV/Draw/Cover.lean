import OpenMV.Draw.Image

/-! What is written and what is read | scheme:geometry | source:src/src/openmv/omv/img/draw.c

    A call writes each pixel of the rectangle that `imlib_draw_image_rectangle` reports once, and no other
    one. What it reads lies in the source, but for the area algorithm: the half pixel of bilinear and
    bicubic is taken off there too if their hints are set as well, and a step of 0 makes the last column the
    one before the first. -/

namespace OpenMV.Draw
open Vision Filters

/-! ### One direction -/

/-- `src_x_frac`. -/
def stepOf (scale : ℚ) : ℤ := ⌊65536 / |scale|⌋

/-- How much of the scaled image comes before the first column that is drawn. -/
def cutOff (dstSize scaled pos : ℤ) (scale : ℚ) : ℤ :=
  if scale < 0 then min (max pos 0) (scaled - (min (pos + scaled) dstSize - max pos 0)) else max (-pos) 0

theorem Axis.shift_accumAt (a : Axis) (d x : ℤ) : (a.shift d).accumAt x = a.accumAt x - d := by
  have hreset : (a.shift d).reset = a.reset := rfl
  unfold Axis.accumAt Axis.accum
  rw [hreset]
  simp only [Axis.shift]
  ring

@[simp] theorem Axis.shift_size (a : Axis) (d : ℤ) : (a.shift d).size = a.size := rfl
@[simp] theorem Axis.shift_fracSize (a : Axis) (d : ℤ) : (a.shift d).fracSize = a.fracSize := rfl

theorem Axis.accumAt_reset (a : Axis) : a.accumAt a.reset = a.accumReset := by
  simp [Axis.accumAt, Axis.accum]

/-- The whole part of every accumulator is a column of the source. -/
theorem Axis.Good.accumAt_bounds {a : Axis} {dstSize : ℤ} (h : a.Good dstSize) {x : ℤ}
    (hx : a.start ≤ x ∧ x < a.stop) :
    a.accumReset ≤ a.accumAt x ∧ a.accumAt x < a.size * 65536 := by
  obtain ⟨h0, h1⟩ := (Axis.reaches_iff h.delta x).mpr hx
  have hcount : (a.count : ℤ) = a.stop - a.start := Int.toNat_of_nonneg (by have := h.start_lt; omega)
  have hlast := h.last
  have hfrac := h.frac_nonneg
  simp only [Axis.accumAt, Axis.accum]
  generalize (x - a.reset) * a.delta = k at h0 h1
  constructor
  · nlinarith
  · nlinarith

theorem Axis.Good.reset_mem {a : Axis} {dstSize : ℤ} (h : a.Good dstSize) :
    a.start ≤ a.reset ∧ a.reset < a.stop := by
  have := h.start_lt
  unfold Axis.reset
  split_ifs <;> omega

/-- Every index that is read lies in the source. -/
def Axis.Inside (a : Axis) (alg : Algorithm) : Prop :=
  ∀ x, a.start ≤ x ∧ x < a.stop → ∀ i ∈ alg.taps a (a.accumAt x), 0 ≤ i ∧ i < a.size

section

variable {a : Axis} {dstSize : ℤ}

theorem Axis.Good.inside_nearest (h : a.Good dstSize) {alg : Algorithm} (halg : alg = .copy ∨ alg = .nearest) :
    (a.shift 0).Inside alg := by
  intro x hx i hi
  have hacc := h.accumAt_bounds hx
  have h0 := h.reset_nonneg
  have hmem : i = (a.accumAt x - 0) / 65536 := by
    rcases halg with rfl | rfl <;> simpa [Algorithm.taps, Axis.shift_accumAt] using hi
  simp only [Axis.shift]
  omega

theorem Axis.Good.inside_bilinear (h : a.Good dstSize) (d : ℤ) : (a.shift d).Inside .bilinear := by
  intro x hx i hi
  have hacc := h.accumAt_bounds hx
  have h0 := h.reset_nonneg
  simp only [Algorithm.taps, tap2, Axis.shift_accumAt, Axis.shift_size, List.mem_cons, List.not_mem_nil,
    or_false] at hi ⊢
  split_ifs at hi <;> omega

theorem Axis.Good.inside_bicubic (h : a.Good dstSize) {d : ℤ} (hd : 0 ≤ d) (hsize : 3 < a.size) :
    (a.shift d).Inside .bicubic := by
  intro x hx i hi
  have hacc := h.accumAt_bounds hx
  simp only [Algorithm.taps, tap4, Axis.shift_accumAt, Axis.shift_size, List.mem_cons, List.not_mem_nil,
    or_false] at hi ⊢
  split_ifs at hi <;> dsimp only at hi <;> omega

theorem Axis.fracSize_eq_zero (h : 0 ≤ a.frac) : a.fracSize = 0 ↔ a.frac = 0 := by
  unfold Axis.fracSize
  omega

/-- The fast algorithm reads nothing if the step is 0. -/
theorem Axis.Good.inside_areaFast_iff (h : a.Good dstSize) {d : ℤ} (hd : 0 ≤ d ∧ d < 65536) :
    (a.shift d).Inside .areaFast ↔ a.frac = 0 ∨ d ≤ a.accumReset := by
  have h0 := h.reset_nonneg
  have hfrac := h.frac_nonneg
  constructor
  · intro hin
    by_contra hne
    push Not at hne
    have hfirst := hin a.reset h.reset_mem (-1)
    simp only [Algorithm.taps, mem_span, areaEnd, Axis.shift_accumAt, Axis.accumAt_reset,
      Axis.shift_size, Axis.shift_fracSize] at hfirst
    have hlt : 1 ≤ a.fracSize := by
      unfold Axis.fracSize
      omega
    have hpos := h.accumAt_bounds h.reset_mem
    rw [Axis.accumAt_reset] at hpos
    omega
  · intro hor x hx i hi
    have hacc := h.accumAt_bounds hx
    simp only [Algorithm.taps, mem_span, areaEnd, Axis.shift_accumAt, Axis.shift_size, Axis.shift_fracSize] at hi ⊢
    rcases hor with hz | hz
    · rw [(Axis.fracSize_eq_zero hfrac).mpr hz] at hi
      omega
    · omega

/-- The slow algorithm reads the last column before the first one if the step is 0. -/
theorem Axis.Good.inside_areaSlow_iff (h : a.Good dstSize) {d : ℤ} (hd : 0 ≤ d) :
    (a.shift d).Inside .areaSlow ↔ d + (if a.frac = 0 then 65536 else 0) ≤ a.accumReset := by
  have hfrac := h.frac_nonneg
  have hzero := Axis.fracSize_eq_zero hfrac
  have hfs0 : 0 ≤ a.fracSize := by
    unfold Axis.fracSize
    omega
  constructor
  · intro hin
    have hfirst := hin a.reset h.reset_mem
    simp only [Algorithm.taps, List.forall_mem_cons, edges_index, edges_stop, Axis.shift_accumAt,
      Axis.accumAt_reset, Axis.shift_size, Axis.shift_fracSize] at hfirst
    obtain ⟨h1, h2, -⟩ := hfirst
    split_ifs with hz
    · rw [hzero.mpr hz] at h2
      omega
    · omega
  · intro hle x hx
    have hacc := h.accumAt_bounds hx
    have hpos : 1 ≤ (a.accumAt x - d) / 65536 + a.fracSize := by
      split_ifs at hle <;> omega
    have hnonneg : 0 ≤ a.accumAt x - d := by
      split_ifs at hle <;> omega
    simp only [Algorithm.taps, List.forall_mem_cons, edges_index, edges_stop, Axis.shift_accumAt,
      Axis.shift_size, Axis.shift_fracSize, mem_span]
    refine ⟨by omega, by omega, fun i hi => by omega⟩

end

/-! The conditions on the loop variables are conditions on the arguments. -/

theorem stepOf_eq_zero_iff {scale : ℚ} (hs : scale ≠ 0) : stepOf scale = 0 ↔ 65536 < |scale| := by
  have hpos : 0 < |scale| := abs_pos.mpr hs
  rw [stepOf, Int.floor_eq_zero_iff, Set.mem_Ico, div_lt_one hpos]
  exact and_iff_right (by positivity)

theorem le_reset_iff {scale : ℚ} (hs : scale ≠ 0) (d cut : ℤ) :
    d ≤ ⌊((cut * 65536 : ℤ) : ℚ) / |scale|⌋ ↔ |scale| * (d / 65536) ≤ cut := by
  have hpos : 0 < |scale| := abs_pos.mpr hs
  rw [Int.le_floor, le_div_iff₀ hpos, mul_div_assoc', div_le_iff₀ (by norm_num)]
  push_cast
  rw [mul_comm]

theorem hidden_eq_cutOff {dstSize scaled offset : ℤ} {center : Bool} {p : Placed} (scale : ℚ)
    (hsize : 1 ≤ scaled) (h : clip dstSize scaled offset center = some p) :
    hidden scaled scale p = cutOff dstSize scaled (posOf scaled offset center) scale := by
  obtain ⟨-, rfl⟩ := (clip_eq_some_iff hsize).mp h
  simp only [hidden, flipStart, cutOff]

/-- Where the area algorithm begins to read: so much of the scaled image has to be cut off that the half
    pixel, and the pixel before the first one if the step is 0, lie in the source. -/
def AreaReads (fast halfPixel : Bool) (scale : ℚ) (cut : ℤ) : Prop :=
  (fast ∧ 65536 < |scale|) ∨
  |scale| * ((if halfPixel then 1 / 2 else 0) + (if ¬ fast ∧ 65536 < |scale| then 1 else 0)) ≤ cut

/-- What the set-up of a direction without a region of interest computes. -/
theorem setupAxis_values {dstSize size offset : ℤ} {scale : ℚ} {center : Bool} {a : Axis}
    (h : setupAxis dstSize size 0 offset scale center = some a) :
    a.size = size ∧ a.frac = stepOf scale ∧ a.accumReset =
      ⌊((cutOff dstSize (scaledSize size scale) (posOf (scaledSize size scale) offset center) scale * 65536 : ℤ)
        : ℚ) / |scale|⌋ := by
  obtain ⟨hsize, p, hp, rfl⟩ := setupAxis_eq_some.mp h
  have hroi : ⌊((0 : ℤ) : ℚ) * |scale|⌋ = 0 := by simp
  refine ⟨rfl, rfl, ?_⟩
  simp only [Placed.axis, hroi, add_zero]
  rw [hidden_eq_cutOff scale hsize hp]

section

variable {dstSize size offset : ℤ} {scale : ℚ} {center : Bool} {a : Axis}

/-- `halfPixel` says whether the half pixel is taken off. -/
theorem inside_area_iff (hs : scale ≠ 0) (h : setupAxis dstSize size 0 offset scale center = some a)
    (fast halfPixel : Bool) :
    (a.shift (if halfPixel then 32768 else 0)).Inside (if fast then .areaFast else .areaSlow) ↔
      AreaReads fast halfPixel scale
        (cutOff dstSize (scaledSize size scale) (posOf (scaledSize size scale) offset center) scale) := by
  have hgood := setupAxis_good hs h
  obtain ⟨-, hfrac, hreset⟩ := setupAxis_values h
  have hstep := stepOf_eq_zero_iff hs
  rw [← hfrac] at hstep
  have hd : 0 ≤ (if halfPixel then 32768 else 0 : ℤ) ∧ (if halfPixel then 32768 else 0 : ℤ) < 65536 := by
    split_ifs <;> omega
  cases fast with
  | true =>
    rw [if_pos rfl, hgood.inside_areaFast_iff hd, hstep, hreset, le_reset_iff hs]
    cases halfPixel <;> norm_num [AreaReads]
  | false =>
    rw [if_neg Bool.false_ne_true, hgood.inside_areaSlow_iff hd.1, hreset, le_reset_iff hs]
    by_cases hlarge : 65536 < |scale| <;> cases halfPixel <;> norm_num [AreaReads, hstep, hlarge]

end

/-! ### The algorithm -/

/-- The hints that leave the area algorithm. -/
def usesArea (hint : Hint) (w h : ℤ) (xScale yScale : ℚ) : Prop :=
  hint.area ∧ 1 < w ∧ 1 < h ∧ ¬ (stepOf xScale = 65536 ∧ stepOf yScale = 65536) ∧
  ¬ (1 ≤ |xScale| ∧ 1 ≤ |yScale|)

section

variable (hint : Hint) {ax ay : Axis} {xScale yScale : ℚ}

theorem normalize_area (hx : ax.frac = stepOf xScale) (hy : ay.frac = stepOf yScale) :
    (normalize hint ax ay xScale yScale).area ↔ usesArea hint ax.size ay.size xScale yScale := by
  unfold normalize usesArea noFlags
  rw [hx, hy]
  simp only
  split_ifs <;> simp_all
  omega

variable (ax ay xScale yScale)

theorem normalize_half (h : (normalize hint ax ay xScale yScale).area) :
    ((normalize hint ax ay xScale yScale).bicubic || (normalize hint ax ay xScale yScale).bilinear) =
      (hint.bicubic || hint.bilinear) := by
  revert h
  unfold normalize noFlags
  simp only
  split_ifs <;> simp_all

theorem normalize_bicubic (h : (normalize hint ax ay xScale yScale).bicubic) : 3 < ax.size ∧ 3 < ay.size := by
  revert h
  unfold normalize noFlags
  simp only
  split_ifs <;> simp_all

end

theorem Flags.algorithm_area {f : Flags} (h : f.area) (ax ay : Axis) :
    f.algorithm ax ay = if ax.frac % 65536 = 0 ∧ ay.frac % 65536 = 0 then .areaFast else .areaSlow := by
  rw [Flags.algorithm, if_pos h]

/-- Without the area algorithm the half pixel is taken off for bicubic and bilinear only. -/
theorem Flags.algorithm_not_area {f : Flags} (h : f.area = false) (ax ay : Axis) :
    (f.algorithm ax ay = .bicubic ∧ f.bicubic) ∨ f.algorithm ax ay = .bilinear ∨
    ((f.algorithm ax ay = .copy ∨ f.algorithm ax ay = .nearest) ∧ (f.bicubic || f.bilinear) = false) := by
  unfold Flags.algorithm
  rw [h]
  split_ifs <;> simp_all

/-! ### The indices of the interpolations -/

def clampTo (size i : ℤ) : ℤ := max 0 (min i (size - 1))

theorem tap2_eq_clampTo {size i : ℤ} (hsize : 1 ≤ size) (hi : -1 ≤ i) :
    tap2 size i = (clampTo size i, clampTo size (i + 1)) := by
  unfold tap2 clampTo
  split_ifs <;> rw [Prod.mk.injEq] <;> omega

theorem tap4_eq_clampTo {size i : ℤ} (hsize : 3 < size) (hi : -1 ≤ i ∧ i < size) : tap4 size i =
    (clampTo size (i - 1), clampTo size i, clampTo size (i + 1), clampTo size (i + 2)) := by
  unfold tap4 clampTo
  split_ifs <;> simp only [Prod.mk.injEq] <;> omega

/-- The two or four indices around each position are those next to it, clamped to the source. -/
def Axis.Clamps (a : Axis) (alg : Algorithm) : Prop := ∀ x, a.start ≤ x ∧ x < a.stop →
  let i := a.accumAt x / 65536
  (alg = .bilinear → tap2 a.size i = (clampTo a.size i, clampTo a.size (i + 1))) ∧
  (alg = .bicubic →
    tap4 a.size i = (clampTo a.size (i - 1), clampTo a.size i, clampTo a.size (i + 1), clampTo a.size (i + 2)))

theorem Axis.Good.clamps {a : Axis} {dstSize d : ℤ} (h : a.Good dstSize) (hd : 0 ≤ d ∧ d < 65536)
    {alg : Algorithm} (hsize : alg = .bicubic → 3 < a.size) : (a.shift d).Clamps alg := by
  intro x hx
  have hacc := h.accumAt_bounds hx
  have h0 := h.reset_nonneg
  rw [Axis.shift_accumAt, Axis.shift_size]
  refine ⟨fun _ => tap2_eq_clampTo (by omega) (by omega), fun hb => tap4_eq_clampTo (hsize hb) (by omega)⟩

def Plan.Inside (plan : Plan) : Prop := plan.x.Inside plan.algorithm ∧ plan.y.Inside plan.algorithm

def Plan.Clamps (plan : Plan) : Prop := plan.x.Clamps plan.algorithm ∧ plan.y.Clamps plan.algorithm

section

variable {f : Flags} {ax ay : Axis} {dstW dstH : ℤ} (hgx : ax.Good dstW) (hgy : ay.Good dstH)
  (hcubic : f.bicubic → 3 < ax.size ∧ 3 < ay.size)

include hgx hgy hcubic

theorem Flags.plan_clamps : (f.plan ax ay).Clamps := by
  have hd : 0 ≤ (if f.bicubic || f.bilinear then 32768 else 0 : ℤ) ∧
      (if f.bicubic || f.bilinear then 32768 else 0 : ℤ) < 65536 := by
    split_ifs <;> omega
  have hsize : f.algorithm ax ay = .bicubic → 3 < ax.size ∧ 3 < ay.size := by
    intro hb
    refine hcubic ?_
    unfold Flags.algorithm at hb
    split_ifs at hb
    assumption
  exact ⟨hgx.clamps hd fun hb => (hsize hb).1, hgy.clamps hd fun hb => (hsize hb).2⟩

theorem Flags.plan_inside_of_not_area (hf : f.area = false) : (f.plan ax ay).Inside := by
  have hd : 0 ≤ (if f.bicubic || f.bilinear then 32768 else 0 : ℤ) := by
    split_ifs <;> omega
  unfold Plan.Inside Flags.plan
  simp only
  rcases f.algorithm_not_area hf ax ay with ⟨halg, hb⟩ | halg | ⟨halg, hz⟩
  · rw [halg]
    exact ⟨hgx.inside_bicubic hd (hcubic hb).1, hgy.inside_bicubic hd (hcubic hb).2⟩
  · rw [halg]
    exact ⟨hgx.inside_bilinear _, hgy.inside_bilinear _⟩
  · rw [if_neg (by simp [hz])]
    exact ⟨hgx.inside_nearest halg, hgy.inside_nearest halg⟩

end

/-- The area algorithm is used, in the fast way or not, and the half pixel is taken off or not; this is
    when it finds what it reads. -/
def AreaInside (p : Placement) (w h : ℤ) : Prop :=
  let fast : Bool := stepOf p.xScale % 65536 = 0 ∧ stepOf p.yScale % 65536 = 0
  let halfPixel := p.hint.bicubic || p.hint.bilinear
  AreaReads fast halfPixel p.xScale
    (cutOff p.dstW (scaledSize w p.xScale) (posOf (scaledSize w p.xScale) p.x p.hint.center) p.xScale) ∧
  AreaReads fast halfPixel p.yScale
    (cutOff p.dstH (scaledSize h p.yScale) (posOf (scaledSize h p.yScale) p.y p.hint.center) p.yScale)

/-- Outside the area algorithm everything that is read lies in the source; with it, if enough is cut off
    in both directions. -/
theorem plan_inside_iff {p : Placement} {r : Rectangle} {plan : Plan} (hr : r.x = 0 ∧ r.y = 0)
    (hx : p.xScale ≠ 0) (hy : p.yScale ≠ 0) (h : p.plan r = some plan) :
    plan.Clamps ∧ (plan.Inside ↔ (usesArea p.hint r.w r.h p.xScale p.yScale → AreaInside p r.w r.h)) := by
  obtain ⟨ax, hax, ay, hay, rfl⟩ := Placement.plan_eq_some.mp h
  rw [Placement.xAxis, hr.1] at hax
  rw [Placement.yAxis, hr.2] at hay
  have hgx := setupAxis_good hx hax
  have hgy := setupAxis_good hy hay
  obtain ⟨hxsize, hxfrac, -⟩ := setupAxis_values hax
  obtain ⟨hysize, hyfrac, -⟩ := setupAxis_values hay
  have harea := normalize_area p.hint hxfrac hyfrac
  have hhalf := normalize_half p.hint ax ay p.xScale p.yScale
  have hcubic := normalize_bicubic p.hint ax ay p.xScale p.yScale
  rw [hxsize, hysize] at harea
  generalize normalize p.hint ax ay p.xScale p.yScale = f at harea hhalf hcubic ⊢
  refine ⟨f.plan_clamps hgx hgy hcubic, ?_⟩
  by_cases hf : f.area
  · have hfast : f.algorithm ax ay = if decide (stepOf p.xScale % 65536 = 0 ∧ stepOf p.yScale % 65536 = 0) then
        .areaFast else .areaSlow := by
      rw [Flags.algorithm_area hf, hxfrac, hyfrac]
      simp only [decide_eq_true_eq]
    unfold Plan.Inside Flags.plan
    simp only
    rw [hfast, hhalf hf, inside_area_iff hx hax, inside_area_iff hy hay]
    exact ⟨fun hin _ => hin, fun hin => hin (harea.mp hf)⟩
  · rw [Bool.not_eq_true] at hf
    exact iff_of_true (f.plan_inside_of_not_area hgx hgy hcubic hf)
      (fun hu => absurd (harea.mpr hu) (by simp [hf]))

/-! ### The pixels that are written -/

/-- The loops that a call runs. -/
def DrawArgs.loops (a : DrawArgs) (transparent : Bool) (dst src : Image) : Option Plan :=
  if transparent then none else (a.placement dst).plan (roiOf src.w src.h a.roi)

/-- A pixel of the rectangle that was reported. -/
def InRectangle (rect : Option (ℤ × ℤ × ℤ × ℤ)) (x y : ℤ) : Prop :=
  match rect with
  | none => False
  | some (x0, x1, y0, y1) => (x0 ≤ x ∧ x < x1) ∧ y0 ≤ y ∧ y < y1

instance (rect : Option (ℤ × ℤ × ℤ × ℤ)) (x y : ℤ) : Decidable (InRectangle rect x y) :=
  match rect with
  | none => inferInstanceAs (Decidable False)
  | some (x0, x1, y0, y1) => inferInstanceAs (Decidable ((x0 ≤ x ∧ x < x1) ∧ y0 ≤ y ∧ y < y1))

/-- What is written is counted in the pixels themselves. -/
def countRow : RowFunction := fun _ _ _ _ n => n + 1

/-- Both functions cut the image in the same way. -/
theorem clip_eq_setupAxis (dstSize size roi offset : ℤ) (scale : ℚ) (center : Bool) :
    (clip dstSize (scaledSize size scale) offset center).map (fun p => (p.start, p.stop)) =
      (setupAxis dstSize size roi offset scale center).map fun a => (a.start, a.stop) := by
  unfold setupAxis
  simp only
  split_ifs with h
  · rw [Option.map_none, Option.map_eq_none_iff]
    unfold clip
    simp only
    split_ifs <;> first | rfl | omega
  · rw [Option.map_map]
    rfl

theorem imlibDrawImageRectangle_eq (p : Placement) (r : Rectangle) (transparent : Bool) :
    imlibDrawImageRectangle p r transparent = if transparent then none else
      (p.plan r).map fun plan => (plan.x.start, plan.x.stop, plan.y.start, plan.y.stop) := by
  unfold imlibDrawImageRectangle Placement.plan
  split_ifs with h
  · rfl
  · have hx := clip_eq_setupAxis p.dstW r.w r.x p.x p.xScale p.hint.center
    have hy := clip_eq_setupAxis p.dstH r.h r.y p.y p.yScale p.hint.center
    rw [← Placement.xAxis] at hx
    rw [← Placement.yAxis] at hy
    cases hcx : clip p.dstW (scaledSize r.w p.xScale) p.x p.hint.center <;>
      cases hax : p.xAxis r <;> rw [hcx, hax] at hx <;>
      cases hcy : clip p.dstH (scaledSize r.h p.yScale) p.y p.hint.center <;>
      cases hay : p.yAxis r <;> rw [hcy, hay] at hy <;> simp_all [Flags.plan, Axis.shift]

/-- The pixels of the rectangle are written once, all others never. -/
theorem drawImage_written_once (junk : ℤ → ℤ → ℕ) (transparent : Bool) {dst src : Image} (a : DrawArgs)
    (hd : drawable dst.bpp) (hs : drawable src.bpp) (x y : ℤ) :
    (imlibDrawImage countRow transparent junk dst src a).data x y = dst.data x y +
      if InRectangle (imlibDrawImageRectangle (a.placement dst) (roiOf src.w src.h a.roi) transparent) x y then 1
      else 0 := by
  rw [imlibDrawImageRectangle_eq]
  unfold imlibDrawImage
  simp only
  cases transparent with
  | true => simp [InRectangle]
  | false =>
    simp only [Bool.false_eq_true, if_false]
    cases hplan : (a.placement dst).plan (roiOf src.w src.h a.roi) with
    | none => simp [InRectangle]
    | some plan =>
      have hblend : ∀ new unit n, a.blend countRow src new unit n = n + 1 := by
        intro new unit n
        unfold DrawArgs.blend
        split_ifs <;> rfl
      simp only [Option.map_some]
      rw [drawOn_data (plan_regular hplan) (source_drawable hs _ _) hd, hblend]
      by_cases hq : plan.Covers (x, y)
      · rw [if_pos hq, if_pos (by exact hq)]
      · rw [if_neg hq, if_neg (by exact hq), add_zero]

/-- Every pixel of the reported rectangle is written once and nothing else, the interpolations read the
    clamped neighbours, and what is read lies in the source; all of it if and only if, where the area
    algorithm draws something, enough of the image is cut off for the half pixel of the other hints and for
    the pixel before the first one. -/
theorem drawImage_covers_iff (junk : ℤ → ℤ → ℕ) (transparent : Bool) (dst src : Image) (a : DrawArgs)
    (hd : drawable dst.bpp) (hs : drawable src.bpp) (hroi : a.roi = none) (hx : a.xScale ≠ 0)
    (hy : a.yScale ≠ 0) :
    ((∀ u v, (imlibDrawImage countRow transparent junk dst src a).data u v = dst.data u v +
        if InRectangle (imlibDrawImageRectangle (a.placement dst) ⟨0, 0, src.w, src.h⟩ transparent) u v then 1
        else 0) ∧
      ∀ plan, a.loops transparent dst src = some plan → plan.Clamps ∧ plan.Inside) ↔
    ((imlibDrawImageRectangle (a.placement dst) ⟨0, 0, src.w, src.h⟩ transparent).isSome →
      usesArea a.hint src.w src.h a.xScale a.yScale → AreaInside (a.placement dst) src.w src.h) := by
  have hr : roiOf src.w src.h a.roi = ⟨0, 0, src.w, src.h⟩ := by rw [hroi]; rfl
  have hwritten := drawImage_written_once junk transparent a hd hs
  rw [hr] at hwritten
  rw [and_iff_right hwritten, imlibDrawImageRectangle_eq, DrawArgs.loops, hr]
  cases transparent with
  | true => simp
  | false =>
    simp only [Bool.false_eq_true, if_false]
    cases hplan : (a.placement dst).plan ⟨0, 0, src.w, src.h⟩ with
    | none => simp
    | some plan =>
      obtain ⟨hclamps, hinside⟩ := plan_inside_iff ⟨rfl, rfl⟩ hx hy hplan
      simp only [Option.some.injEq, forall_eq', Option.map_some, Option.isSome_some, true_implies]
      rw [and_iff_right hclamps, hinside]
      rfl

/-- Half of four by four pixels: all is as it should be with the area hint alone. -/
theorem drawImage_covers_half :
    let dst : Image := ⟨2, 2, .grayscale, fun _ _ => 0⟩
    let src : Image := ⟨4, 4, .grayscale, fun _ _ => 0⟩
    let a : DrawArgs := ⟨0, 0, 1 / 2, 1 / 2, none, none, none, ⟨true, false, false, false, false, false⟩⟩
    (∀ u v, (imlibDrawImage countRow false (fun _ _ => 0) dst src a).data u v = dst.data u v +
      if InRectangle (imlibDrawImageRectangle (a.placement dst) ⟨0, 0, src.w, src.h⟩ false) u v then 1 else 0) ∧
    ∀ plan, a.loops false dst src = some plan → plan.Clamps ∧ plan.Inside := by
  intro dst src a
  refine (drawImage_covers_iff (fun _ _ => 0) false dst src a rfl rfl rfl (by norm_num [a])
    (by norm_num [a])).mpr fun _ _ => ?_
  norm_num [AreaInside, AreaReads, cutOff, posOf, scaledSize, DrawArgs.placement, a]

/-- With the bilinear hint as well, the first column that is read is the one before the source. -/
theorem drawImage_reads_outside :
    let dst : Image := ⟨2, 2, .grayscale, fun _ _ => 0⟩
    let src : Image := ⟨4, 4, .grayscale, fun _ _ => 0⟩
    let a : DrawArgs := ⟨0, 0, 1 / 2, 1 / 2, none, none, none, ⟨true, true, false, false, false, false⟩⟩
    ¬ ∀ plan, a.loops false dst src = some plan → plan.Clamps ∧ plan.Inside := by
  intro dst src a h
  have hplan : a.loops false dst src =
      some ⟨⟨4, 0, 2, 1, 0, 131072, -32768⟩, ⟨4, 0, 2, 1, 0, 131072, -32768⟩, .areaFast⟩ := by
    decide +kernel
  have hinside := (h _ hplan).2.1 0 (by decide) (-1) (by decide)
  exact absurd hinside.1 (by decide)

end OpenMV.Draw
