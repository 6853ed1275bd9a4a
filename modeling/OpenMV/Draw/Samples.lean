import OpenMV.Draw.Setup
import OpenMV.Filters.Kernel

/-! What is computed for a pixel | scheme:resampling | source:src/src/openmv/omv/img/draw.c

    The five algorithms of `imlib_draw_image` in the three formats. Each is given as what it keeps for a
    source row, what it keeps for a source column, and the pixel it computes from that; `taps` are the
    rows or columns it reads for a value of the accumulator. The two halves of the dual 16-bit
    multiplications never run into each other, so they are written as two products. -/

namespace OpenMV.Draw
open Vision Filters

/-- The value of a `uint32_t`. -/
def u32 (x : ℤ) : ℤ := x % 4294967296

/-- The sum of `f` over `lo`, `lo + 1`, .. below `hi`. -/
def spanSum (lo hi : ℤ) (f : ℤ → ℤ) : ℤ := ((List.range (hi - lo).toNat).map fun k : ℕ => f (lo + k)).sum

/-! ### Channels -/

structure Channel where
  get : ℤ → ℤ
  bits : ℕ

/-- The whole pixel is the only channel of a binary or grayscale image. -/
def perChannel (bpp : Bpp) (k : Channel → ℤ) : ℤ :=
  match bpp with
  | .rgb565 => colorR5G6B5ToRgb565 (k ⟨colorRgb565ToR5, 5⟩) (k ⟨colorRgb565ToG6, 6⟩) (k ⟨colorRgb565ToB5, 5⟩)
  | .grayscale => k ⟨id, 8⟩
  | .binary | .bayer | .jpeg => k ⟨id, 1⟩

/-! ### Area -/

/-- `(acc + (area >> 1)) / area`. -/
def areaMean (acc area : ℤ) : ℤ := u32 (acc + area / 2) / area

/-- `src_x_index_end` of the fast algorithm. -/
def areaEnd (a : Axis) (acc : ℤ) : ℤ := min (acc / 65536 + a.fracSize) a.size

def fastMean (ax ay : Axis) (xa ya : ℤ) (f : ℤ → ℤ → ℤ) : ℤ :=
  let x0 := xa / 65536
  let x1 := areaEnd ax xa
  let y0 := ya / 65536
  let y1 := areaEnd ay ya
  areaMean (u32 (spanSum y0 y1 fun y => spanSum x0 x1 fun x => f x y)) (u32 ((x1 - x0) * (y1 - y0)))

/-- The first and the last column of an area and their weights. -/
structure Edges where
  index : ℤ
  stop : ℤ
  lo : ℤ
  hi : ℤ
deriving DecidableEq, Repr

/-- A weight has `bits` bits after the point: 8, or 7 for RGB565. -/
def edges (bits : ℕ) (a : Axis) (acc : ℤ) : Edges :=
  let index := acc / 65536
  let stop := index + a.fracSize - 1
  let lo := 2 ^ bits - acc / 2 ^ (16 - bits) % 2 ^ bits
  let hi := (acc + a.frac) / 2 ^ (16 - bits) % 2 ^ bits
  -- the end is off the edge: it is not needed, or its last part is cut off
  if stop > a.size - 1 then
    ⟨index, a.size - 1, lo, if a.size - 1 = index then 0 else 2 ^ bits⟩
  else ⟨index, stop, lo, if hi = 0 then 2 ^ bits else hi⟩

/-- `x_width_m_2`. -/
def Edges.inner (e : Edges) : ℤ := e.stop - e.index - 1

/-- The weights of the corners. For RGB565 they are added with saturation. -/
def cornerArea (bpp : Bpp) (ex ey : Edges) : ℤ :=
  match bpp with
  | .rgb565 => min (ex.lo * ey.lo + ex.lo * ey.hi) 32767 + min (ex.hi * ey.lo + ex.hi * ey.hi) 32767
  | _ => ey.lo * ex.lo + ey.lo * ex.hi + ey.hi * ex.lo + ey.hi * ex.hi

/-- The weight is rounded up after the corners and after the sides. -/
def slowArea (bits : ℕ) (ex ey : Edges) (corners : ℤ) : ℤ :=
  let corners := u32 (corners + (2 ^ bits - 1)) / 2 ^ bits
  let sides := (if 0 < ex.inner then ex.inner * (ey.lo + ey.hi) else 0) +
    (if 0 < ey.inner then ey.inner * (ex.lo + ex.hi) else 0)
  let middle := if 0 < ex.inner ∧ 0 < ey.inner then ex.inner * ey.inner else 0
  u32 (u32 (corners + sides + (2 ^ bits - 1)) / 2 ^ bits + middle)

/-- The sum is rounded to the nearest at the same places. -/
def slowSum (bits : ℕ) (ex ey : Edges) (f : ℤ → ℤ → ℤ) : ℤ :=
  let corners := u32 (f ex.index ey.index * (ey.lo * ex.lo) + f ex.stop ey.index * (ey.lo * ex.hi) +
    f ex.index ey.stop * (ey.hi * ex.lo) + f ex.stop ey.stop * (ey.hi * ex.hi) + 2 ^ (bits - 1)) / 2 ^ bits
  let topBottom := if 0 < ex.inner then
    spanSum (ex.index + 1) ex.stop fun x => f x ey.index * ey.lo + f x ey.stop * ey.hi else 0
  let leftRight := if 0 < ey.inner then
    spanSum (ey.index + 1) ey.stop fun y => f ex.index y * ex.lo + f ex.stop y * ex.hi else 0
  let middle := if 0 < ex.inner ∧ 0 < ey.inner then
    spanSum (ey.index + 1) ey.stop fun y => spanSum (ex.index + 1) ex.stop fun x => f x y else 0
  u32 (u32 (corners + topBottom + leftRight + 2 ^ (bits - 1)) / 2 ^ bits + middle)

def weightBits : Bpp → ℕ
  | .rgb565 => 7
  | _ => 8

def slowMean (bpp : Bpp) (ax ay : Axis) (xa ya : ℤ) (f : ℤ → ℤ → ℤ) : ℤ :=
  let ex := edges (weightBits bpp) ax xa
  let ey := edges (weightBits bpp) ay ya
  areaMean (slowSum (weightBits bpp) ex ey f) (slowArea (weightBits bpp) ex ey (cornerArea bpp ex ey))

/-! ### Bicubic -/

/-- The four rows or columns around `i`, kept in bounds. -/
def tap4 (size i : ℤ) : ℤ × ℤ × ℤ × ℤ :=
  if i < 0 then (0, 0, 0, 1)
  else if i = 0 then (0, 0, 1, 2)
  else if i = size - 2 then (i - 1, size - 2, size - 1, size - 1)
  else if i ≥ size - 1 then (i - 1, size - 1, size - 1, size - 1)
  else (i - 1, i, i + 1, i + 2)

/-- One step of the interpolation, at the 15-bit fraction of the accumulator. -/
def cubic (acc p0 p1 p2 p3 : ℤ) : ℤ :=
  let d := acc / 2 % 32768
  let d2 := d * d / 32768
  let d3 := d2 * d / 32768
  let a0 := p2 - p0
  let a1 := p0 * 2 + p2 * 4 - 5 * p1 - p3
  let a2 := 3 * (p1 - p2) + p3 - p0
  d * a0 + d2 * a1 + (d3 * a2 + (p1 * 65536 + 32768))

/-- `__USAT_ASR`. -/
def usatAsr (v : ℤ) (bits shift : ℕ) : ℤ := max 0 (min (v / 2 ^ shift) (2 ^ bits - 1))

/-- A column of a channel, interpolated between the rows. -/
def cubicColumn (rows : ℤ × ℤ × ℤ × ℤ) (ya x : ℤ) (f : ℤ → ℤ → ℤ) : ℤ :=
  cubic ya (f x rows.1) (f x rows.2.1) (f x rows.2.2.1) (f x rows.2.2.2) / 65536

/-! ### Bilinear -/

/-- The two rows or columns around `i`, kept in bounds. -/
def tap2 (size i : ℤ) : ℤ × ℤ :=
  if i < 0 then (0, 0) else if i ≥ size - 1 then (size - 1, size - 1) else (i, i + 1)

def mixGrayscale (acc p0 p1 : ℤ) : ℤ :=
  let w := acc / 256 % 256
  ((256 - w) * p0 + w * p1 + 128) / 256

/-- Red and blue of an RGB565 pixel, ten bits apart, and green where it is. -/
def rbOf (pixel : ℤ) : ℤ := colorRgb565ToR5 pixel * 1024 + colorRgb565ToB5 pixel
def gOf (pixel : ℤ) : ℤ := colorRgb565ToG6 pixel * 32

/-- `& 0x7c1f` and `& 0x07e0`. -/
def maskRb (v : ℤ) : ℤ := v / 1024 % 32 * 1024 + v % 32
def maskG (v : ℤ) : ℤ := v / 32 % 64 * 32

/-- `__SMLAD(smuad, .., avg) >> 5` with the 5-bit fraction of the accumulator. -/
def mixRgb565 (acc avg v0 v1 : ℤ) : ℤ :=
  let w := acc / 2048 % 32
  ((32 - w) * v0 + w * v1 + avg) / 32

/-! ### The algorithms -/

/-- What is kept for a source row, what is kept for a source column, and the pixel computed from it. The
    accumulators are those of the two loops. -/
structure Resampler where
  Rows : Type
  Cols : Type
  rows : ℤ → Rows
  cols : Rows → ℤ → ℤ → Cols
  out : ℤ → Cols → ℤ → ℤ

namespace Resampler

/-- The pixel without anything kept. -/
def sample (R : Resampler) (xa ya : ℤ) : ℤ :=
  R.out ya (R.cols (R.rows (ya / 65536)) ya (xa / 65536)) xa

end Resampler

section

variable (bpp : Bpp) (ax ay : Axis) (px : ℤ → ℤ → ℤ)

def nearestResampler : Resampler where
  Rows := ℤ
  Cols := ℤ
  rows := id
  cols := fun row _ i => px i row
  out := fun _ pixel _ => pixel

/-- In a binary image the nearer of the two pixels is taken. -/
def bilinearBinary : Resampler where
  Rows := ℤ × ℤ
  Cols := ℤ × ℤ
  rows := tap2 ay.size
  cols := fun rows ya i =>
    let row := if ya / 32768 % 2 = 1 then rows.2 else rows.1
    (px (tap2 ax.size i).1 row, px (tap2 ax.size i).2 row)
  out := fun _ pixels xa => if xa / 32768 % 2 = 1 then pixels.2 else pixels.1

def bilinearGrayscale : Resampler where
  Rows := ℤ × ℤ
  Cols := ℤ × ℤ
  rows := tap2 ay.size
  cols := fun rows ya i =>
    let c := tap2 ax.size i
    (mixGrayscale ya (px c.1 rows.1) (px c.1 rows.2), mixGrayscale ya (px c.2 rows.1) (px c.2 rows.2))
  out := fun _ pixels xa => mixGrayscale xa pixels.1 pixels.2

def bilinearRgb565 : Resampler where
  Rows := ℤ × ℤ
  Cols := (ℤ × ℤ) × (ℤ × ℤ)
  rows := tap2 ay.size
  cols := fun rows ya i =>
    let side := fun x =>
      (maskRb (mixRgb565 ya 0x4010 (rbOf (px x rows.1)) (rbOf (px x rows.2))),
       maskG (mixRgb565 ya 0x200 (gOf (px x rows.1)) (gOf (px x rows.2))))
    (side (tap2 ax.size i).1, side (tap2 ax.size i).2)
  out := fun _ sides xa =>
    let rb := mixRgb565 xa 0x4010 sides.1.1 sides.2.1
    let g := mixRgb565 xa 0x200 sides.1.2 sides.2.2
    rb / 1024 % 32 * 2048 + maskG g + rb % 32

def bilinearResampler : Resampler :=
  match bpp with
  | .rgb565 => bilinearRgb565 ax ay px
  | .grayscale => bilinearGrayscale ax ay px
  | .binary | .bayer | .jpeg => bilinearBinary ax ay px

/-- The pixels of a binary image are multiplied by 255 and the result is shifted by seven more bits. -/
def bicubicResampler : Resampler where
  Rows := ℤ × ℤ × ℤ × ℤ
  Cols := (ℤ → ℤ) → ℤ × ℤ × ℤ × ℤ
  rows := tap4 ay.size
  cols := fun rows ya i ch =>
    let c := tap4 ax.size i
    let column := fun x => cubicColumn rows ya x fun x y => ch (px x y)
    (column c.1, column c.2.1, column c.2.2.1, column c.2.2.2)
  out := fun _ d xa =>
    let value := fun ch => cubic xa (d ch).1 (d ch).2.1 (d ch).2.2.1 (d ch).2.2.2
    match bpp with
    | .binary | .bayer | .jpeg => usatAsr (value fun pixel => pixel * 255) 1 23
    | _ => perChannel bpp fun ch => usatAsr (value ch.get) ch.bits 16

/-- The area algorithms keep nothing. -/
def areaResampler (area : (ℤ → ℤ → ℤ) → ℤ → ℤ → ℤ) : Resampler where
  Rows := Unit
  Cols := Unit
  rows := fun _ => ()
  cols := fun _ _ _ => ()
  out := fun ya _ xa => perChannel bpp fun ch => area (fun x y => ch.get (px x y)) xa ya

theorem areaResampler_sample (area : (ℤ → ℤ → ℤ) → ℤ → ℤ → ℤ) (xa ya : ℤ) :
    (areaResampler bpp px area).sample xa ya =
      perChannel bpp fun ch => area (fun x y => ch.get (px x y)) xa ya := rfl

def Algorithm.resampler : Algorithm → Resampler
  | .areaFast => areaResampler bpp px fun f xa ya => fastMean ax ay xa ya f
  | .areaSlow => areaResampler bpp px fun f xa ya => slowMean bpp ax ay xa ya f
  | .bicubic => bicubicResampler bpp ax ay px
  | .bilinear => bilinearResampler bpp ax ay px
  | .copy | .nearest => nearestResampler px

end

/-! ### What is read -/

/-- `lo`, `lo + 1`, .. below `hi`. -/
def span (lo hi : ℤ) : List ℤ := (List.range (hi - lo).toNat).map fun k : ℕ => lo + k

theorem mem_span {lo hi x : ℤ} : x ∈ span lo hi ↔ lo ≤ x ∧ x < hi := by
  simp only [span, List.mem_map, List.mem_range]
  constructor
  · rintro ⟨k, hk, rfl⟩
    omega
  · rintro ⟨h1, h2⟩
    exact ⟨(x - lo).toNat, by omega, by omega⟩

/-- The columns that are read when the accumulator is `acc`, and the rows in the same way. -/
def Algorithm.taps (a : Axis) (acc : ℤ) : Algorithm → List ℤ
  | .areaFast => span (acc / 65536) (areaEnd a acc)
  | .areaSlow => (edges 8 a acc).index :: (edges 8 a acc).stop ::
      span ((edges 8 a acc).index + 1) (edges 8 a acc).stop
  | .bicubic =>
    let t := tap4 a.size (acc / 65536)
    [t.1, t.2.1, t.2.2.1, t.2.2.2]
  | .bilinear => [(tap2 a.size (acc / 65536)).1, (tap2 a.size (acc / 65536)).2]
  | .copy | .nearest => [acc / 65536]

/-- The nearer of the two rows or columns, which bilinear takes in a binary image. -/
def nearer (size acc : ℤ) : ℤ :=
  if acc / 32768 % 2 = 1 then (tap2 size (acc / 65536)).2 else (tap2 size (acc / 65536)).1

/-- The rows of which pixels are read. For a binary image bilinear chooses the row first. -/
def Algorithm.readRows (bpp : Bpp) (a : Axis) (acc : ℤ) (alg : Algorithm) : List ℤ :=
  if alg = .bilinear ∧ bpp ≠ .grayscale ∧ bpp ≠ .rgb565 then [nearer a.size acc] else alg.taps a acc

theorem Algorithm.readRows_subset {bpp : Bpp} {a : Axis} {acc : ℤ} {alg : Algorithm} :
    alg.readRows bpp a acc ⊆ alg.taps a acc := by
  unfold Algorithm.readRows
  split_ifs with h
  · rw [h.1]
    unfold nearer Algorithm.taps
    split_ifs <;> simp
  · exact List.Subset.refl _

@[simp] theorem edges_index (bits : ℕ) (a : Axis) (acc : ℤ) : (edges bits a acc).index = acc / 65536 := by
  unfold edges
  simp only
  split_ifs <;> rfl

@[simp] theorem edges_stop (bits : ℕ) (a : Axis) (acc : ℤ) :
    (edges bits a acc).stop = min (acc / 65536 + a.fracSize - 1) (a.size - 1) := by
  unfold edges
  simp only
  split_ifs <;> simp only <;> omega

theorem spanSum_congr {lo hi : ℤ} {f g : ℤ → ℤ} (h : ∀ x ∈ span lo hi, f x = g x) :
    spanSum lo hi f = spanSum lo hi g := by
  unfold spanSum
  congr 1
  refine List.map_congr_left fun k hk => h _ ?_
  exact List.mem_map.mpr ⟨k, hk, rfl⟩

section Reads

variable {bpp : Bpp} {ax ay : Axis} {xa ya : ℤ} {f g px px' : ℤ → ℤ → ℤ}

theorem perChannel_congr {k k' : Channel → ℤ} (h : ∀ ch, k ch = k' ch) : perChannel bpp k = perChannel bpp k' := by
  rw [funext h]

theorem fastMean_congr (h : ∀ x ∈ Algorithm.areaFast.taps ax xa, ∀ y ∈ Algorithm.areaFast.taps ay ya,
    f x y = g x y) : fastMean ax ay xa ya f = fastMean ax ay xa ya g := by
  unfold fastMean
  simp only
  rw [spanSum_congr fun y hy => spanSum_congr fun x hx => h x hx y hy]

theorem slowSum_congr {bits : ℕ} {ex ey : Edges}
    (h : ∀ x ∈ ex.index :: ex.stop :: span (ex.index + 1) ex.stop,
      ∀ y ∈ ey.index :: ey.stop :: span (ey.index + 1) ey.stop, f x y = g x y) :
    slowSum bits ex ey f = slowSum bits ex ey g := by
  simp only [List.forall_mem_cons] at h
  obtain ⟨⟨h1, h2, h3⟩, ⟨h4, h5, h6⟩, h7⟩ := h
  have hx : spanSum (ex.index + 1) ex.stop (fun x => f x ey.index * ey.lo + f x ey.stop * ey.hi) =
      spanSum (ex.index + 1) ex.stop fun x => g x ey.index * ey.lo + g x ey.stop * ey.hi :=
    spanSum_congr fun x hx => by rw [(h7 x hx).1, (h7 x hx).2.1]
  have hy : spanSum (ey.index + 1) ey.stop (fun y => f ex.index y * ex.lo + f ex.stop y * ex.hi) =
      spanSum (ey.index + 1) ey.stop fun y => g ex.index y * ex.lo + g ex.stop y * ex.hi :=
    spanSum_congr fun y hy => by rw [h3 y hy, h6 y hy]
  have hxy : spanSum (ey.index + 1) ey.stop (fun y => spanSum (ex.index + 1) ex.stop fun x => f x y) =
      spanSum (ey.index + 1) ey.stop fun y => spanSum (ex.index + 1) ex.stop fun x => g x y :=
    spanSum_congr fun y hy => spanSum_congr fun x hx => (h7 x hx).2.2 y hy
  simp only [slowSum, h1, h2, h4, h5, hx, hy, hxy]

theorem slowMean_congr (h : ∀ x ∈ Algorithm.areaSlow.taps ax xa, ∀ y ∈ Algorithm.areaSlow.taps ay ya,
    f x y = g x y) : slowMean bpp ax ay xa ya f = slowMean bpp ax ay xa ya g := by
  unfold slowMean
  simp only
  rw [slowSum_congr]
  simpa [Algorithm.taps] using h

/-- In a binary image bilinear draws the nearest pixel. -/
theorem bilinear_sample_binary (hb : bpp ≠ .grayscale ∧ bpp ≠ .rgb565) :
    (Algorithm.bilinear.resampler bpp ax ay px).sample xa ya = px (nearer ax.size xa) (nearer ay.size ya) := by
  have hbinary : bilinearResampler bpp ax ay px = bilinearBinary ax ay px := by
    cases bpp <;> first | rfl | exact absurd rfl hb.1 | exact absurd rfl hb.2
  rw [Algorithm.resampler, hbinary]
  unfold Resampler.sample bilinearBinary nearer
  simp only
  split_ifs <;> rfl

/-- A pixel depends on nothing but the rows and columns that are read. -/
theorem sample_congr (alg : Algorithm)
    (h : ∀ x ∈ alg.taps ax xa, ∀ y ∈ alg.readRows bpp ay ya, px x y = px' x y) :
    (alg.resampler bpp ax ay px).sample xa ya = (alg.resampler bpp ax ay px').sample xa ya := by
  by_cases hb : alg = .bilinear ∧ bpp ≠ .grayscale ∧ bpp ≠ .rgb565
  · rw [Algorithm.readRows, if_pos hb] at h
    rw [hb.1, bilinear_sample_binary hb.2, bilinear_sample_binary hb.2]
    refine h _ ?_ _ (by simp)
    rw [hb.1]
    unfold nearer Algorithm.taps
    split_ifs <;> simp
  rw [Algorithm.readRows, if_neg hb] at h
  cases alg with
  | areaFast =>
    simp only [Algorithm.resampler, areaResampler_sample]
    exact perChannel_congr fun ch => fastMean_congr fun x hx y hy => congrArg ch.get (h x hx y hy)
  | areaSlow =>
    simp only [Algorithm.resampler, areaResampler_sample]
    exact perChannel_congr fun ch => slowMean_congr fun x hx y hy => congrArg ch.get (h x hx y hy)
  | bicubic =>
    simp only [Algorithm.taps, List.forall_mem_cons, List.not_mem_nil, false_implies, implies_true,
      and_true] at h
    simp only [Algorithm.resampler, Resampler.sample, bicubicResampler, cubicColumn, h]
  | bilinear =>
    simp only [Algorithm.taps, List.forall_mem_cons, List.not_mem_nil, false_implies, implies_true,
      and_true] at h
    obtain ⟨⟨h1, h2⟩, h3, h4⟩ := h
    cases bpp with
    | grayscale | rgb565 =>
      simp only [Algorithm.resampler, Resampler.sample, bilinearResampler, bilinearGrayscale, bilinearRgb565,
        h1, h2, h3, h4]
    | binary | bayer | jpeg => exact absurd ⟨rfl, by decide, by decide⟩ hb
  | copy | nearest =>
    simp only [Algorithm.taps, List.forall_mem_cons, List.not_mem_nil, false_implies, implies_true,
      and_true] at h
    exact h

end Reads

end OpenMV.Draw
