import OpenMV.Vision.FloodFill

/-! Blob detection | scheme:worklist | source:src/src/openmv/omv/img/blob.c

    `imlib_find_blobs` goes over the region of interest once for each threshold; every pixel that
    passes and is not yet in the bitmap starts a scanline fill, during which the size, the moments,
    the perimeter and the corners of the blob are added up. The bitmap is shared by the thresholds.
    Left out are the histograms, the `float` results and the merging pass. -/

namespace OpenMV.Vision
open Schemes.ScanFill

structure Rectangle where
  x : ℤ
  y : ℤ
  w : ℤ
  h : ℤ
deriving DecidableEq, Repr

def Rectangle.Mem (roi : Rectangle) (p : Cell) : Prop :=
  roi.x ≤ p.1 ∧ p.1 < roi.x + roi.w ∧ roi.y ≤ p.2 ∧ p.2 < roi.y + roi.h

/-! ### Sums over a span -/

def sumMToN (m n : ℤ) : ℤ := (int32 (n * (n + 1) - m * (m - 1))).tdiv 2

def sum2MToN (m n : ℤ) : ℤ :=
  (int32 (n * (n + 1) * (2 * n + 1) - m * (m - 1) * (2 * m - 1))).tdiv 6

/-- At most one value per row or column of a blob goes into an average, so nothing overflows here. -/
def cumulativeMovingAverage (avg x n : ℤ) : ℤ := (x + n * avg).tdiv (n + 1)

/-! ### Corners

    Corner `i` is the point of the blob that lies furthest against the direction of angle `18 * i`.
    The tables are those of `sincos_tab.c` at these angles, in millionths; `z` is computed exactly,
    as it is in `float` at the multiples of 90 degrees. -/

def cosTable : List ℤ :=
  [1000000, 951057, 809017, 587785, 309017, 0, -309017, -587785, -809017, -951057,
   -1000000, -951057, -809017, -587785, -309017, 0, 309017, 587785, 809017, 951057]

def sinTable : List ℤ :=
  [0, 309017, 587785, 809017, 951057, 1000000, 951057, 809017, 587785, 309017,
   0, -309017, -587785, -809017, -951057, -1000000, -951057, -809017, -587785, -309017]

structure Corner where
  x : ℤ
  y : ℤ
  acc : ℤ
  n : ℤ
deriving DecidableEq, Repr

/-- `IM_MAX(IM_MIN(m * sign(c), m), 0)`. For `c = 0` the sign is not a number and `IM_MIN` returns
    its second argument. -/
def cornerStart (m c : ℤ) : ℤ := max (if c < 0 then min (-m) m else m) 0

def Corner.init (xMax yMax c s : ℤ) : Corner :=
  let x := int16 (cornerStart xMax c)
  let y := int16 (cornerStart yMax s)
  ⟨x, y, x * c + y * s, 1⟩

def Corner.add (c s : ℤ) (k : Corner) (sp : Span) : Corner :=
  let avg := (sumMToN sp.l sp.r).tdiv (sp.r - sp.l + 1)
  let xNew := if c > 0 then sp.l else if c = 0 then avg else sp.r
  let z := xNew * c + sp.y * s
  if z < k.acc then ⟨int16 xNew, int16 sp.y, z, 1⟩
  else if z = k.acc then
    ⟨int16 (cumulativeMovingAverage k.x xNew k.n), int16 (cumulativeMovingAverage k.y sp.y k.n), k.acc,
     k.n + 1⟩
  else k

/-! ### One blob -/

/-- The variables `corners`, `blob_pixels`, `blob_perimeter` and so on. -/
structure BlobAcc where
  corners : ℕ → Corner
  pixels : ℤ
  perimeter : ℤ
  cx : ℤ
  cy : ℤ
  a : ℤ
  b : ℤ
  c : ℤ

def BlobAcc.init (xMax yMax : ℤ) : BlobAcc where
  corners := fun i => Corner.init xMax yMax (cosTable.getD i 0) (sinTable.getD i 0)
  pixels := 0
  perimeter := 0
  cx := 0
  cy := 0
  a := 0
  b := 0
  c := 0

/-- A filled span is added up. -/
def BlobAcc.add (t : BlobAcc) (sp : Span) : BlobAcc :=
  let sum := sumMToN sp.l sp.r
  let cnt := sp.r - sp.l + 1
  { corners := fun i => (t.corners i).add (cosTable.getD i 0) (sinTable.getD i 0) sp
    pixels := t.pixels + cnt
    perimeter := int32 (t.perimeter + 2)
    cx := int32 (t.cx + sum)
    cy := int32 (t.cy + int32 (sp.y * cnt))
    a := t.a + sum2MToN sp.l sp.r
    b := t.b + int32 (sp.y * sum)
    c := t.c + int32 (sp.y * sp.y * cnt) }

def BlobAcc.addPerimeter (t : BlobAcc) (n : ℤ) : BlobAcc := { t with perimeter := int32 (t.perimeter + n) }

/-- The fill of one blob. A pixel above or below the span that fails the threshold adds to the
    perimeter unless it is at an end of the span; so does each pixel of the span at the border of the
    region of interest, and on both sides when the lifo is full. -/
def blobFill (lifoLen : ℕ) (roi : Rectangle) (passes : Cell → Bool) : Machine BlobAcc where
  x0 := roi.x
  x1 := roi.x + roi.w
  y0 := roi.y
  y1 := roi.y + roi.h
  edge := fun _ q => passes q
  cap := lifoLen
  pack := xylr
  hooks :=
    { mark := BlobAcc.add
      miss := fun t sp i vis => if !vis && i ≠ sp.l && i ≠ sp.r then t.addPerimeter 1 else t
      border := fun t sp => t.addPerimeter (sp.r - sp.l + 1)
      full := fun t sp => t.addPerimeter ((sp.r - sp.l + 1) * 2)
      finish := fun t _ => t }

/-- The part of `find_blobs_list_lnk_data_t` that is kept, with the sums the `float` fields are
    computed from. -/
structure Blob where
  corners : List (ℤ × ℤ)
  rect : Rectangle
  pixels : ℤ
  perimeter : ℤ
  code : ℕ
  count : ℕ
  cx : ℤ
  cy : ℤ
  a : ℤ
  b : ℤ
  c : ℤ
deriving DecidableEq, Repr

def BlobAcc.rect (t : BlobAcc) : Rectangle where
  x := (t.corners 0).x
  y := (t.corners 5).y
  w := int16 ((t.corners 10).x - (t.corners 0).x + 1)
  h := int16 ((t.corners 15).y - (t.corners 5).y + 1)

/-- The code is `1 << code`; the shift of a 32-bit value uses the low five bits of `code`. -/
def BlobAcc.toBlob (t : BlobAcc) (code : ℕ) : Blob where
  corners := (List.range 20).map fun i => ((t.corners i).x, (t.corners i).y)
  rect := t.rect
  pixels := t.pixels
  perimeter := t.perimeter
  code := 2 ^ (code % 32)
  count := 1
  cx := t.cx
  cy := t.cy
  a := t.a
  b := t.b
  c := t.c

/-! ### The search -/

structure BlobOptions where
  xStride : ℕ
  yStride : ℕ
  areaThreshold : ℕ
  pixelsThreshold : ℕ
  thresholdCb : Option (Blob → Bool)

/-- The bitmap, the list of blobs, and whether the lifo ever ran full. -/
structure Search where
  bmp : Cell → Bool
  out : List Blob
  full : Bool

def Search.init : Search := ⟨fun _ => false, [], false⟩

/-- The values `i`, `i + stride`, ... below `stop`. -/
def strided (i stop : ℤ) (stride : ℕ) : List ℤ :=
  (List.range (((stop - i).toNat + stride - 1) / stride)).map fun k : ℕ => i + stride * k

/-- The pixels in the order of the two `for` loops. -/
def rasterCells (roi : Rectangle) (xStride yStride : ℕ) : List Cell :=
  (strided roi.y (roi.y + roi.h) yStride).flatMap fun y =>
    (strided (roi.x + y % xStride) (roi.x + roi.w) xStride).map fun x => (x, y)

section

variable (lifoLen fuel : ℕ) (roi : Rectangle) (opts : BlobOptions)

/-- The pixel at hand: a blob starts here if the pixel passes and is not in the bitmap. -/
def searchAt (passes : Cell → Bool) (code : ℕ) (s : Search) (p : Cell) : Option Search :=
  if !s.bmp p && passes p then do
    let f ← (blobFill lifoLen roi passes).exec fuel
      (start s.bmp p (BlobAcc.init (roi.x + roi.w - 1) (roi.y + roi.h - 1)))
    let blob := f.acc.toBlob code
    let big := opts.areaThreshold ≤ (blob.rect.w * blob.rect.h) % 2 ^ 32 &&
      opts.pixelsThreshold ≤ blob.pixels
    let add := big && match opts.thresholdCb with
      | none => true
      | some cb => cb blob
    some ⟨f.vis, if add then s.out ++ [blob] else s.out, s.full || f.full⟩
  else some s

/-- The body of the loop over the thresholds. -/
def searchThreshold (passes : Cell → Bool) (code : ℕ) (s : Search) : Option Search :=
  (rasterCells roi opts.xStride opts.yStride).foldlM (searchAt lifoLen fuel roi opts passes code) s

/-- The loop over the thresholds, numbered from `code`. -/
def searchThresholds (passes : ColorThresholds → Cell → Bool) :
    ℕ → List ColorThresholds → Search → Option Search
  | _, [], s => some s
  | code, t :: ts, s => do
    let s ← searchThreshold lifoLen fuel roi opts (passes t) code s
    searchThresholds passes (code + 1) ts s

/-- Does the pixel pass the threshold? -/
def pixelPasses (lab : LabTable) (img : Image) (invert : Bool) (t : ColorThresholds) (p : Cell) : Bool :=
  colorThreshold lab img.bpp (img.pixel p.1 p.2) t invert

/-- `imlib_find_blobs` without its merging pass. Other formats have no case in the `switch`. -/
def imlibFindBlobs (lab : LabTable) (img : Image) (thresholds : List ColorThresholds) (invert : Bool) :
    Option Search :=
  match img.bpp with
  | .binary | .grayscale | .rgb565 =>
    searchThresholds lifoLen fuel roi opts (pixelPasses lab img invert) 0 thresholds Search.init
  | .bayer | .jpeg => some Search.init

end

end OpenMV.Vision
