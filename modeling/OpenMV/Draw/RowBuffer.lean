import Mathlib.Data.Int.Log
import OpenMV.Draw.Cover
import OpenMV.Memory.FbAllocFilters

/-! The row buffer | scheme:memory | source:src/src/openmv/omv/img/draw.c

    `imlib_draw_row_setup` allocates as many bytes as a row of the destination has; the loops fill them in
    the format of the source. Here every access is checked against the block, and a call that leaves it has
    no result: that depends on the two formats and on the right edge of what is drawn. The edge is taken from
    products of floats, so the set-up is written once more with these. -/

namespace OpenMV.Draw
open Vision Filters Schemes

/-! ### The block -/

/-- `image_size(dst) / h`, rounded up by `fb_alloc`. -/
def rowBufferSize (dst : Image) : ℤ :=
  FbAlloc.roundUp (FbAlloc.lineLenBytes dst * dst.h / dst.h % 4294967296).toNat

/-- The first byte of pixel `x` and the number of bytes that are read or written for it; a binary pixel
    takes its whole word. -/
def pixelBytes (bpp : Bpp) (x : ℤ) : ℤ × ℤ :=
  match bpp with
  | .binary => (x / 32 * 4, 4)
  | .grayscale => (x, 1)
  | .rgb565 => (2 * x, 2)
  | .bayer | .jpeg => (0, 0)

/-- The access lies in a block of `size` bytes. -/
def InBlock (size : ℤ) (bpp : Bpp) (x : ℤ) : Prop :=
  0 ≤ (pixelBytes bpp x).1 ∧ (pixelBytes bpp x).1 + (pixelBytes bpp x).2 ≤ size

instance (size : ℤ) (bpp : Bpp) (x : ℤ) : Decidable (InBlock size bpp x) :=
  inferInstanceAs (Decidable (_ ∧ _))

/-- The number of bytes of a row up to position `stop`. -/
def bytesTo (bpp : Bpp) (stop : ℤ) : ℤ := (pixelBytes bpp (stop - 1)).1 + (pixelBytes bpp (stop - 1)).2

theorem inBlock_iff (size : ℤ) {start stop : ℤ} (bpp : Bpp) (h0 : 0 ≤ start) (h : start < stop) :
    (∀ x, start ≤ x ∧ x < stop → InBlock size bpp x) ↔ bytesTo bpp stop ≤ size := by
  constructor
  · intro hall
    exact (hall (stop - 1) (by omega)).2
  · intro hle x hx
    unfold InBlock bytesTo pixelBytes at *
    cases bpp <;> simp only at hle ⊢ <;> omega

/-! ### The loops with checks -/

/-- A store to the row buffer. -/
def storePixel (size : ℤ) (bpp : Bpp) (x : ℤ) (unit : ℕ) (buffer : ℤ → ℕ) : Option (ℤ → ℕ) :=
  if InBlock size bpp x then some (Function.update buffer x unit) else none

def checkedFillRow (size : ℤ) (plan : Plan) (bpp : Bpp) (R : Resampler) (rows : R.Rows) (ya : ℤ)
    (buffer : ℤ → ℕ) : Option (ℤ → ℕ) :=
  plan.x.loop (R.cols rows ya)
    (fun cols xa x buffer => buffer.bind (storePixel size bpp x (putPixel bpp (R.out ya cols xa)))) (some buffer)

/-- `imlib_draw_row`, which loads the pixels from `xStart` to `xEnd`. -/
def checkedDrawRow (size : ℤ) (bpp : Bpp) (blend : ℕ → ℕ → ℕ) (xStart xEnd yRow : ℤ) (rowBuffer : ℤ → ℕ)
    (canvas : ℤ × ℤ → ℕ) : Option (ℤ × ℤ → ℕ) :=
  if ∀ x ∈ span xStart xEnd, InBlock size bpp x then some (drawRow blend xStart xEnd yRow rowBuffer canvas)
  else none

def checkedRows (size : ℤ) (plan : Plan) (bpp : Bpp) (R : Resampler) (blend : ℕ → ℕ → ℕ)
    (s : Option ((ℤ × ℤ → ℕ) × (ℤ → ℕ))) : Option ((ℤ × ℤ → ℕ) × (ℤ → ℕ)) :=
  plan.y.loop R.rows
    (fun rows ya y s => s.bind fun s =>
      (checkedFillRow size plan bpp R rows ya s.2).bind fun buffer =>
        (checkedDrawRow size bpp blend plan.x.start plan.x.stop y buffer s.1).map fun canvas => (canvas, buffer)) s

/-- In the copying mode the rows of the source take the place of the row buffer. -/
def checkedDrawOn (plan : Plan) (src : Image) (blend : ℕ → ℕ → ℕ) (junk : ℤ → ℕ) (dst : Image) : Option Image :=
  if drawable src.bpp && drawable dst.bpp then
    if plan.algorithm = .copy then some (drawOn plan src blend junk dst)
    else
      (checkedRows (rowBufferSize dst) plan src.bpp (plan.algorithm.resampler src.bpp plan.x plan.y src.pixel) blend
        (some (Image.canvas dst, junk))).map fun s => { dst with data := fun x y => s.1 (x, y) }
  else some dst

/-! ### Floats -/

/-- The nearest integer, of two the even one. -/
def roundEven (q : ℚ) : ℤ := if q - ⌊q⌋ < 1 / 2 ∨ q - ⌊q⌋ = 1 / 2 ∧ ⌊q⌋ % 2 = 0 then ⌊q⌋ else ⌊q⌋ + 1

/-- The nearest `float`: it has 24 bits. Where its exponent ends does not matter to `fast_floorf`. -/
def float32 (q : ℚ) : ℚ :=
  let ulp : ℚ := 2 ^ (Int.log 2 |q| - 23)
  roundEven (q / ulp) * ulp

/-- `(int)floorf(x)`, which stops at the ends of the range. -/
def fastFloorf (x : ℚ) : ℤ := max (-2147483648) (min ⌊x⌋ 2147483647)

/-- What `fast_floorf` makes of the product of a scale, without its sign, and a number, and of the quotient of
    a number by a scale. -/
structure Floors where
  mul : ℚ → ℤ → ℤ
  div : ℤ → ℚ → ℤ
  mul_zero : ∀ scale, mul scale 0 = 0
  div_one : div 65536 1 = 65536
  zero_div : div 0 1 = 0

/-- Computed exactly. -/
def Floors.exact : Floors where
  mul scale n := ⌊n * |scale|⌋
  div n scale := ⌊n / |scale|⌋
  mul_zero scale := by simp
  div_one := by norm_num
  zero_div := by norm_num

/-- Every operation is rounded, and what is divided is an `int`. -/
def Floors.single : Floors where
  mul scale n := fastFloorf (float32 (float32 n * |scale|))
  div n scale := fastFloorf (float32 (float32 (int32 n) / |scale|))
  mul_zero scale := by simp [float32, roundEven, fastFloorf]
  div_one := by decide +kernel
  zero_div := by decide +kernel

namespace Floors

variable (F : Floors)

/-- The loop variables for a clipped image. -/
def axis (size roi : ℤ) (scale : ℚ) (p : Placed) : Axis :=
  let srcStart := hidden (F.mul scale size) scale p + F.mul scale roi
  { size := size
    start := p.start
    stop := p.stop
    delta := if scale < 0 then -1 else 1
    srcStart := srcStart
    frac := F.div 65536 scale
    accumReset := F.div (srcStart * 65536) scale }

def setupAxis (dstSize size roi offset : ℤ) (scale : ℚ) (center : Bool) : Option Axis :=
  let scaled := F.mul scale size
  if scaled < 1 then none else (clip dstSize scaled offset center).map (F.axis size roi scale)

def plan (p : Placement) (r : Rectangle) : Option Plan := do
  let ax ← F.setupAxis p.dstW r.w r.x p.x p.xScale p.hint.center
  let ay ← F.setupAxis p.dstH r.h r.y p.y p.yScale p.hint.center
  some ((normalize p.hint ax ay p.xScale p.yScale).plan ax ay)

def extracted (src : Image) (r : Rectangle) (rgbChannel : Option RgbChannel) (palette : Option (ℤ → ℤ))
    (junk : ℤ → ℤ → ℕ) : Image :=
  let bpp := if palette.isSome then Bpp.rgb565 else .grayscale
  let new : Image := ⟨r.w, r.h, bpp, junk⟩
  match F.plan (extractPlacement r) ⟨0, 0, src.w, src.h⟩ with
  | none => new
  | some plan => drawOn plan src (opaqueRow bpp src.bpp rgbChannel palette) (junk 0) new

def source (a : DrawArgs) (src : Image) (r : Rectangle) (junk : ℤ → ℤ → ℕ) : Image :=
  if a.extractsFirst src then F.extracted src r a.rgbChannel a.palette junk else src

/-- `imlib_draw_image` with these numbers. -/
def drawImage (row : RowFunction) (transparent : Bool) (junk : ℤ → ℤ → ℕ) (dst src : Image)
    (a : DrawArgs) : Image :=
  let r := roiOf src.w src.h a.roi
  if transparent then dst
  else match F.plan (a.placement dst) r with
    | none => dst
    | some plan =>
      let new := F.source a src r junk
      drawOn plan new (a.blend row src new) (junk 0) dst

/-- The call that takes the channel out or applies the palette. -/
def checkedExtracted (src : Image) (r : Rectangle) (rgbChannel : Option RgbChannel) (palette : Option (ℤ → ℤ))
    (junk : ℤ → ℤ → ℕ) : Option Image :=
  let bpp := if palette.isSome then Bpp.rgb565 else .grayscale
  let new : Image := ⟨r.w, r.h, bpp, junk⟩
  match F.plan (extractPlacement r) ⟨0, 0, src.w, src.h⟩ with
  | none => some new
  | some plan => checkedDrawOn plan src (opaqueRow bpp src.bpp rgbChannel palette) (junk 0) new

def checkedSource (a : DrawArgs) (src : Image) (r : Rectangle) (junk : ℤ → ℤ → ℕ) : Option Image :=
  if a.extractsFirst src then F.checkedExtracted src r a.rgbChannel a.palette junk else some src

/-- `imlib_draw_image`, with no result if an access to a row buffer lies outside its block. -/
def checkedDrawImage (row : RowFunction) (transparent : Bool) (junk : ℤ → ℤ → ℕ) (dst src : Image)
    (a : DrawArgs) : Option Image :=
  let r := roiOf src.w src.h a.roi
  if transparent then some dst
  else match F.plan (a.placement dst) r with
    | none => some dst
    | some plan => (F.checkedSource a src r junk).bind fun new =>
        checkedDrawOn plan new (a.blend row src new) (junk 0) dst

end Floors

/-! Exact numbers give the set-up of the other results. -/

theorem Floors.exact_axis (size roi : ℤ) (scale : ℚ) (p : Placed) :
    Floors.exact.axis size roi scale p = p.axis size roi scale := by
  simp only [axis, Placed.axis, exact, scaledSize, mul_comm, Int.cast_ofNat]

theorem Floors.exact_setupAxis (dstSize size roi offset : ℤ) (scale : ℚ) (center : Bool) :
    Floors.exact.setupAxis dstSize size roi offset scale center =
      Draw.setupAxis dstSize size roi offset scale center := by
  have haxis : Floors.exact.axis size roi scale = Placed.axis size roi scale :=
    funext fun p => exact_axis size roi scale p
  simp only [setupAxis, Draw.setupAxis, haxis]
  simp only [exact, scaledSize, mul_comm]
  rfl

theorem Floors.exact_plan (p : Placement) (r : Rectangle) : Floors.exact.plan p r = p.plan r := by
  simp only [plan, Placement.plan, exact_setupAxis, Placement.xAxis, Placement.yAxis]

theorem Floors.exact_drawImage (row : RowFunction) (transparent : Bool) (junk : ℤ → ℤ → ℕ) (dst src : Image)
    (a : DrawArgs) :
    Floors.exact.drawImage row transparent junk dst src a = imlibDrawImage row transparent junk dst src a := by
  have hsource : ∀ r, Floors.exact.source a src r junk = a.source src r junk := fun r => by
    cases hplan : (extractPlacement r).plan ⟨0, 0, src.w, src.h⟩ <;>
      simp only [source, DrawArgs.source, extracted, Draw.extracted, exact_plan, hplan]
  cases hplan : (a.placement dst).plan (roiOf src.w src.h a.roi) <;>
    simp only [drawImage, imlibDrawImage, exact_plan, hsource, hplan]

/-! ### When the checks go through -/

section

variable {plan : Plan} {size : ℤ} {bpp : Bpp}

theorem reset_add_mem (hδ : plan.x.delta = 1 ∨ plan.x.delta = -1) (P : ℤ → Prop) :
    (∀ k < plan.x.count, P (plan.x.reset + k * plan.x.delta)) ↔ ∀ x, plan.x.start ≤ x ∧ x < plan.x.stop → P x := by
  constructor
  · intro h x hx
    obtain ⟨h0, h1⟩ := (Axis.reaches_iff hδ x).mpr hx
    have hk := h ((x - plan.x.reset) * plan.x.delta).toNat (by omega)
    rw [Int.toNat_of_nonneg h0] at hk
    rwa [show plan.x.reset + (x - plan.x.reset) * plan.x.delta * plan.x.delta = x by
      rcases hδ with h | h <;> rw [h] <;> ring] at hk
  · intro h k hk
    refine h _ ((Axis.reaches_iff hδ _).mp ?_)
    rw [show (plan.x.reset + k * plan.x.delta - plan.x.reset) * plan.x.delta = (k : ℤ) by
      rcases hδ with h | h <;> rw [h] <;> ring]
    omega

theorem checkedFillRow_eq (hδ : plan.x.delta = 1 ∨ plan.x.delta = -1) (R : Resampler) (rows : R.Rows) (ya : ℤ)
    (buffer : ℤ → ℕ) : checkedFillRow size plan bpp R rows ya buffer =
      if ∀ x ∈ span plan.x.start plan.x.stop, InBlock size bpp x then some (fillRow plan bpp R rows ya buffer)
      else none := by
  rw [checkedFillRow, fillRow, Axis.loop_eq, Axis.loop_eq]
  unfold storePixel
  rw [sweep_guard]
  refine if_congr ?_ rfl rfl
  simp only [mem_span]
  exact reset_add_mem hδ _

theorem checkedRows_eq (hδ : plan.x.delta = 1 ∨ plan.x.delta = -1) (R : Resampler) (blend : ℕ → ℕ → ℕ)
    (s : (ℤ × ℤ → ℕ) × (ℤ → ℕ)) (hcount : 0 < plan.y.count) :
    checkedRows size plan bpp R blend (some s) =
      if ∀ x ∈ span plan.x.start plan.x.stop, InBlock size bpp x then some (resampleRows plan bpp R blend s)
      else none := by
  have hbody : ∀ (rows : R.Rows) (ya y : ℤ) (s : (ℤ × ℤ → ℕ) × (ℤ → ℕ)),
      ((checkedFillRow size plan bpp R rows ya s.2).bind fun buffer =>
        (checkedDrawRow size bpp blend plan.x.start plan.x.stop y buffer s.1).map fun canvas => (canvas, buffer)) =
      if ∀ x ∈ span plan.x.start plan.x.stop, InBlock size bpp x then
        some (drawRow blend plan.x.start plan.x.stop y (fillRow plan bpp R rows ya s.2) s.1,
          fillRow plan bpp R rows ya s.2) else none := by
    intro rows ya y s
    rw [checkedFillRow_eq hδ]
    unfold checkedDrawRow
    split_ifs <;> rfl
  rw [checkedRows, resampleRows, Axis.loop_eq, Axis.loop_eq]
  simp only [hbody]
  rw [sweep_guard (p := fun _ => ∀ x ∈ span plan.x.start plan.x.stop, InBlock size bpp x)]
  refine if_congr ⟨fun h => h 0 hcount, fun h _ _ => h⟩ rfl rfl

end

theorem checkedDrawOn_eq {plan : Plan} {src dst : Image} (hδ : plan.x.delta = 1 ∨ plan.x.delta = -1)
    (hs : drawable src.bpp) (hd : drawable dst.bpp) (hx : 0 ≤ plan.x.start ∧ plan.x.start < plan.x.stop)
    (hy : plan.y.start < plan.y.stop) (blend : ℕ → ℕ → ℕ) (junk : ℤ → ℕ) :
    checkedDrawOn plan src blend junk dst =
      if plan.algorithm = .copy ∨ bytesTo src.bpp plan.x.stop ≤ rowBufferSize dst then
        some (drawOn plan src blend junk dst)
      else none := by
  have hcount : 0 < plan.y.count := by
    unfold Axis.count
    omega
  unfold checkedDrawOn
  rw [hs, hd, Bool.and_self, if_pos rfl]
  by_cases hc : plan.algorithm = .copy
  · rw [if_pos hc, if_pos (.inl hc)]
  · rw [if_neg hc, checkedRows_eq hδ _ _ _ hcount]
    have hblock := inBlock_iff (rowBufferSize dst) src.bpp hx.1 hx.2
    simp only [← mem_span] at hblock
    by_cases hb : bytesTo src.bpp plan.x.stop ≤ rowBufferSize dst
    · rw [if_pos (hblock.mpr hb), if_pos (.inr hb), drawOn, hs, hd, Bool.and_self, if_pos rfl, Option.map_some]
      unfold drawPlan
      rw [if_neg hc]
    · rw [if_neg (fun h => hb (hblock.mp h)), if_neg (not_or.mpr ⟨hc, hb⟩)]
      rfl

theorem checkedDrawOn_copy {plan : Plan} (h : plan.algorithm = .copy) (src : Image) (blend : ℕ → ℕ → ℕ)
    (junk : ℤ → ℕ) (dst : Image) : checkedDrawOn plan src blend junk dst = some (drawOn plan src blend junk dst) := by
  unfold checkedDrawOn
  split_ifs with hf
  · rfl
  · rw [drawOn, if_neg hf]

/-! ### The conditions on the arguments -/

namespace Floors

variable (F : Floors)

/-- The rows of the source are drawn as they are. -/
def Copies (p : Placement) (r : Rectangle) : Prop :=
  (F.div 65536 p.xScale = 65536 ∧ F.div 65536 p.yScale = 65536) ∧ 0 ≤ p.xScale ∧
  posOf (F.mul p.xScale r.w) p.x p.hint.center ≤ 0 ∧
  F.mul p.xScale r.x = posOf (F.mul p.xScale r.w) p.x p.hint.center

/-- The end of what is drawn of a row. -/
def rightEdge (p : Placement) (w : ℤ) : ℤ :=
  min (posOf (F.mul p.xScale w) p.x p.hint.center + F.mul p.xScale w) p.dstW

/-- Some of the scaled image lies in the destination. -/
def Seen (p : Placement) (r : Rectangle) : Prop :=
  Visible p.dstW (F.mul p.xScale r.w) (posOf (F.mul p.xScale r.w) p.x p.hint.center) ∧
  Visible p.dstH (F.mul p.yScale r.h) (posOf (F.mul p.yScale r.h) p.y p.hint.center)

variable {F}

theorem setupAxis_eq_some {dstSize size roi offset : ℤ} {scale : ℚ} {center : Bool} {a : Axis} :
    F.setupAxis dstSize size roi offset scale center = some a ↔
      Visible dstSize (F.mul scale size) (posOf (F.mul scale size) offset center) ∧
      F.axis size roi scale ⟨max (posOf (F.mul scale size) offset center) 0,
        min (posOf (F.mul scale size) offset center + F.mul scale size) dstSize,
        max (-posOf (F.mul scale size) offset center) 0⟩ = a := by
  simp only [setupAxis]
  split_ifs with h
  · simp only [Visible, false_iff, not_and]
    omega
  · simp only [Option.map_eq_some_iff, clip_eq_some_iff (not_lt.mp h), and_assoc, exists_eq_left,
      exists_and_left]

theorem plan_eq_some {p : Placement} {r : Rectangle} {plan : Plan} : F.plan p r = some plan ↔
    ∃ ax, F.setupAxis p.dstW r.w r.x p.x p.xScale p.hint.center = some ax ∧
    ∃ ay, F.setupAxis p.dstH r.h r.y p.y p.yScale p.hint.center = some ay ∧
      (normalize p.hint ax ay p.xScale p.yScale).plan ax ay = plan := by
  simp only [Floors.plan, Option.bind_eq_bind, Option.bind_eq_some_iff, Option.some.injEq]

theorem seen_of_plan {p : Placement} {r : Rectangle} {plan : Plan} (h : F.plan p r = some plan) : F.Seen p r := by
  obtain ⟨ax, hax, ay, hay, -⟩ := plan_eq_some.mp h
  exact ⟨(setupAxis_eq_some.mp hax).1, (setupAxis_eq_some.mp hay).1⟩

theorem plan_eq_none {p : Placement} {r : Rectangle} (h : F.plan p r = none) : ¬ F.Seen p r := by
  rintro ⟨hx, hy⟩
  have hplan := plan_eq_some.mpr
    ⟨_, setupAxis_eq_some.mpr ⟨hx, rfl⟩, _, setupAxis_eq_some.mpr ⟨hy, rfl⟩, rfl⟩
  exact nomatch h.symm.trans hplan

section

variable {p : Placement} {r : Rectangle} {plan : Plan} (h : F.plan p r = some plan)

include h

theorem plan_bounds : (plan.x.delta = 1 ∨ plan.x.delta = -1) ∧ (0 ≤ plan.x.start ∧ plan.x.start < plan.x.stop) ∧
    plan.y.start < plan.y.stop ∧ plan.x.stop = F.rightEdge p r.w := by
  obtain ⟨ax, hax, ay, hay, rfl⟩ := plan_eq_some.mp h
  obtain ⟨⟨hw, hdw, hlo, hhi⟩, rfl⟩ := setupAxis_eq_some.mp hax
  obtain ⟨⟨hh, hdh, hlo', hhi'⟩, rfl⟩ := setupAxis_eq_some.mp hay
  simp only [Flags.plan, Axis.shift, axis]
  refine ⟨?_, ⟨?_, ?_⟩, ?_, rfl⟩
  · split_ifs
    · exact .inr rfl
    · exact .inl rfl
  · exact le_max_right _ _
  · omega
  · omega

theorem plan_copy_iff : plan.algorithm = .copy ↔ F.Copies p r := by
  obtain ⟨ax, hax, ay, hay, rfl⟩ := plan_eq_some.mp h
  obtain ⟨-, rfl⟩ := setupAxis_eq_some.mp hax
  obtain ⟨-, rfl⟩ := setupAxis_eq_some.mp hay
  unfold Copies
  generalize posOf (F.mul p.xScale r.w) p.x p.hint.center = pos
  constructor
  · intro hcopy
    obtain ⟨-, -, hdelta, hstart, hsrc, hfx, hfy⟩ := Flags.algorithm_eq_copy hcopy
    have hneg : ¬ p.xScale < 0 := by
      intro hlt
      simp [axis, hlt] at hdelta
    simp only [axis, hidden, hneg, if_false] at hstart hsrc
    exact ⟨⟨hfx, hfy⟩, not_lt.mp hneg, by omega, by omega⟩
  · rintro ⟨⟨hfx, hfy⟩, hpos, hle, hroi⟩
    have hneg : ¬ p.xScale < 0 := not_lt.mpr hpos
    rw [normalize_unit hfx hfy, Flags.plan]
    simp only [Flags.algorithm, noFlags, Bool.false_eq_true, if_false]
    refine if_pos ⟨?_, ?_, ?_, hfx, hfy⟩
    · simp [axis, hneg]
    · simp only [axis]
      omega
    · simp only [axis, hidden, hneg, if_false]
      omega

end

/-- The channel and the palette are applied without a row buffer. -/
theorem checkedExtracted_eq (src : Image) (r : Rectangle) (rgbChannel : Option RgbChannel)
    (palette : Option (ℤ → ℤ)) (junk : ℤ → ℤ → ℕ) :
    F.checkedExtracted src r rgbChannel palette junk = some (F.extracted src r rgbChannel palette junk) := by
  unfold checkedExtracted extracted
  simp only
  cases hplan : F.plan (extractPlacement r) ⟨0, 0, src.w, src.h⟩ with
  | none => rfl
  | some plan =>
    have hcopy : plan.algorithm = .copy := by
      rw [plan_copy_iff hplan]
      simp [Copies, extractPlacement, posOf, F.div_one, F.mul_zero]
    exact checkedDrawOn_copy hcopy _ _ _ _

theorem checkedSource_eq (a : DrawArgs) (src : Image) (r : Rectangle) (junk : ℤ → ℤ → ℕ) :
    F.checkedSource a src r junk = some (F.source a src r junk) := by
  unfold checkedSource source
  split_ifs
  · exact checkedExtracted_eq _ _ _ _ _
  · rfl

end Floors

/-- The format of the row buffer. -/
def DrawArgs.rowFormat (a : DrawArgs) (src : Image) : Bpp :=
  if a.extractsFirst src then (if a.palette.isSome then Bpp.rgb565 else .grayscale) else src.bpp

theorem Floors.source_bpp (F : Floors) (a : DrawArgs) (src : Image) (r : Rectangle) (junk : ℤ → ℤ → ℕ) :
    (F.source a src r junk).bpp = a.rowFormat src := by
  unfold Floors.source DrawArgs.rowFormat
  by_cases h : a.extractsFirst src
  · rw [if_pos h, if_pos h]
    unfold Floors.extracted
    simp only
    split
    · rfl
    · rw [drawOn_frame]
  · rw [if_neg h, if_neg h]

theorem rowFormat_drawable {a : DrawArgs} {src : Image} (hs : drawable src.bpp) : drawable (a.rowFormat src) := by
  unfold DrawArgs.rowFormat
  split_ifs
  · rfl
  · rfl
  · exact hs

/-- No access to the row buffer lies outside of the block, and the result is that of the call, if and only
    if nothing is drawn, or the rows are drawn as they are, or the bytes of a row in the format that is drawn,
    up to the right edge of the drawing, are not more than the block has. -/
theorem drawImage_rowBuffer_iff (F : Floors) (row : RowFunction) (transparent : Bool) (junk : ℤ → ℤ → ℕ)
    (dst src : Image) (a : DrawArgs) (hd : drawable dst.bpp) (hs : drawable src.bpp) :
    F.checkedDrawImage row transparent junk dst src a = some (F.drawImage row transparent junk dst src a) ↔
    (transparent = true ∨ ¬ F.Seen (a.placement dst) (roiOf src.w src.h a.roi) ∨
      F.Copies (a.placement dst) (roiOf src.w src.h a.roi) ∨
      bytesTo (a.rowFormat src) (F.rightEdge (a.placement dst) (roiOf src.w src.h a.roi).w) ≤ rowBufferSize dst) := by
  unfold Floors.checkedDrawImage Floors.drawImage
  simp only
  cases transparent with
  | true => simp
  | false =>
    simp only [Bool.false_eq_true, if_false, false_or]
    cases hplan : F.plan (a.placement dst) (roiOf src.w src.h a.roi) with
    | none => exact iff_of_true rfl (.inl (Floors.plan_eq_none hplan))
    | some plan =>
      obtain ⟨hdelta, hx, hy, hstop⟩ := Floors.plan_bounds hplan
      have hbpp := F.source_bpp a src (roiOf src.w src.h a.roi) junk
      have hsource : drawable (F.source a src (roiOf src.w src.h a.roi) junk).bpp :=
        hbpp.symm ▸ rowFormat_drawable hs
      simp only [Floors.checkedSource_eq, Option.bind_some, not_true, Floors.seen_of_plan hplan, false_or]
      rw [checkedDrawOn_eq hdelta hsource hd hx hy, hbpp, hstop, ← Floors.plan_copy_iff hplan]
      split_ifs with hc
      · exact iff_of_true rfl hc
      · exact iff_of_false (by simp) hc

/-- A grayscale image on an RGB565 one of the same size. -/
theorem drawImage_rowBuffer_fits :
    let dst : Image := ⟨8, 1, .rgb565, fun _ _ => 0⟩
    let src : Image := ⟨8, 1, .grayscale, fun _ _ => 0⟩
    let a : DrawArgs := ⟨1, 0, 1, 1, none, none, none, ⟨false, false, false, false, false, false⟩⟩
    Floors.single.checkedDrawImage (opaqueRow .rgb565) false (fun _ _ => 0) dst src a =
      some (Floors.single.drawImage (opaqueRow .rgb565) false (fun _ _ => 0) dst src a) := by
  intro dst src a
  exact (drawImage_rowBuffer_iff .single (opaqueRow .rgb565) false (fun _ _ => 0) dst src a rfl rfl).mpr
    (.inr (.inr (.inr (by decide +kernel))))

/-- A grayscale image on a binary one: the eighth byte is stored in a block of four. -/
theorem drawImage_rowBuffer_overflows :
    let dst : Image := ⟨8, 1, .binary, fun _ _ => 0⟩
    let src : Image := ⟨8, 1, .grayscale, fun _ _ => 0⟩
    let a : DrawArgs := ⟨1, 0, 1, 1, none, none, none, ⟨false, false, false, false, false, false⟩⟩
    Floors.single.checkedDrawImage (opaqueRow .binary) false (fun _ _ => 0) dst src a = none := by
  intro dst src a
  rw [← Option.isNone_iff_eq_none]
  decide +kernel

/-- The scale 0.7 as a float on ten pixels of RGB565: the product is rounded up to 7, and the bytes end behind
    the twelve of the block. -/
example : 12 < bytesTo .rgb565 (Floors.single.rightEdge ⟨12, 1, 0, 0, 11744051 / 16777216, 1,
    ⟨false, false, false, false, false, false⟩⟩ 10) := by decide +kernel

end OpenMV.Draw
