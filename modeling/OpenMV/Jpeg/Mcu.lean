import OpenMV.Io.Pixels
import OpenMV.Jpeg.Geometry
import OpenMV.Schemes.Fetch

/-! MCU fetch | scheme:footprint | source:src/src/openmv/omv/img/jpeg.c

    The input side of `jpeg_compress`: how each of its branches fills the arrays `YDU`, `UDU` and `VDU`
    on the stack, block after block, and what of the image it reads for that. The arrays live through
    the whole call and are not initialised, so a block that fills only a part of them leaves the rest as
    the block before did, or as the stack was.

    Addresses count pixels of `img->pixels`; of a binary image they count bits. The DCT and the
    quantisation in `float` are a parameter. -/

namespace OpenMV.Jpeg
open Schemes

/-! ### Samples -/

/-- The value an `int8_t` holds after `x` is stored in it. -/
def int8 (x : ℤ) : ℤ := (x + 128) % 256 - 128

/-- `.299*r + .587*g + .114*b`, less 128 -/
def sampleY (r g b : ℕ) : ℤ := int8 (((r * 9770 + g * 19182 + b * 3736) / 32768 % 256 : ℕ) - 128)

/-- `-0.168736*r + -0.331264*g + 0.5*b` -/
def sampleU (r g b : ℕ) : ℤ := int8 (((b * 16384 - r * 5529 - g * 10855 : ℤ) / 32768) % 256)

/-- `0.5*r + -0.418688*g + -0.081312*b` -/
def sampleV (r g b : ℕ) : ℤ := int8 (((r * 16384 - g * 13682 - b * 2664 : ℤ) / 32768) % 256)

/-- A place in one of the arrays. -/
abbrev Loc := Comp × ℕ

/-- The arrays `YDU`, `UDU` and `VDU`. -/
abbrev Bufs := Loc → ℤ

abbrev McuStores := List (Loc × Fetch ℤ)

/-- `memset` of the arrays. -/
def memsets (ny nuv : ℕ) : McuStores :=
  (List.range ny).map (fun i => ((.y, i), Fetch.pure 0)) ++
    (List.range nuv).map (fun i => ((.u, i), Fetch.pure 0)) ++
    (List.range nuv).map fun i => ((.v, i), Fetch.pure 0)

/-- The three channels of a pixel. -/
abbrev Rgb := ℕ × ℕ × ℕ

def storeY (i : ℕ) (p : Fetch Rgb) : Loc × Fetch ℤ := ((.y, i), p.map fun c => sampleY c.1 c.2.1 c.2.2)

def storeU (i : ℕ) (p : Fetch Rgb) : Loc × Fetch ℤ := ((.u, i), p.map fun c => sampleU c.1 c.2.1 c.2.2)

def storeV (i : ℕ) (p : Fetch Rgb) : Loc × Fetch ℤ := ((.v, i), p.map fun c => sampleV c.1 c.2.1 c.2.2)

/-! ### jpeg_get_mcu -/

/-- The number of 32-bit words in a row of a binary image. -/
def binaryLineLen (w : ℕ) : ℕ := (w + 31) / 32

/-- `jpeg_get_mcu` with `bpp` 0: bit by bit where the block is clipped, and otherwise by bytes, with rows
    of `iPitch` bytes. -/
def getMcuBinary (w h xOffs yOffs : ℕ) : McuStores :=
  if yOffs + 8 > h ∨ xOffs + 8 > w then
    (List.range 8).flatMap fun y => (List.range 8).map fun x => ((.y, y * 8 + x),
      if xOffs + x ≥ w ∨ yOffs + y ≥ h then Fetch.pure 0
      else (Fetch.read (((yOffs + y) * (binaryLineLen w * 32) + (xOffs + x) : ℕ) : ℤ)).map
        fun p => int8 ((p % 2 * 255 : ℕ) - 128))
  else
    let iPitch := (w + 31) / 8 % 65536 / 4 * 4
    (List.range 8).flatMap fun y => (List.range 8).map fun x => ((.y, y * 8 + x),
      (Fetch.read ((((yOffs + y) * iPitch + xOffs / 8) * 8 + x : ℕ) : ℤ)).map
        fun p => int8 (((p % 2 * 255) ^^^ 0x80 : ℕ) : ℤ))

/-- With `bpp` 1, where the block is not clipped four pixels are read at a time. -/
def getMcuGrayscale (w h xOffs yOffs : ℕ) : McuStores :=
  if yOffs + 8 > h ∨ xOffs + 8 > w then
    (List.range 8).flatMap fun y => (List.range 8).map fun x => ((.y, y * 8 + x),
      if xOffs + x ≥ w ∨ yOffs + y ≥ h then Fetch.pure 0
      else (Fetch.read (((yOffs + y) * w + (xOffs + x) : ℕ) : ℤ)).map fun p => int8 ((p % 256 : ℕ) - 128))
  else
    (List.range 8).flatMap fun y => (List.range 8).map fun x => ((.y, y * 8 + x),
      (Fetch.read (((yOffs + y) * w + (xOffs + x) : ℕ) : ℤ)).map
        fun p => int8 (((p % 256) ^^^ 0x80 : ℕ) : ℤ))

/-! ### The RGB565 branches -/

/-- `pRow[k]` for `pRow` at the given pixel of the image. -/
def rgb565At (a : ℕ) : Fetch Rgb := (Fetch.read (a : ℤ)).map fun p =>
  (Io.colorRgb565ToR8 (p % 65536), Io.colorRgb565ToG8 (p % 65536), Io.colorRgb565ToB8 (p % 65536))

/-- How much of a block of `n` from `offs` on is in the image. -/
def clipped (n len offs : ℕ) : ℕ := if offs + n > len then len - offs else n

def fetchRgb565Full (w h x y : ℕ) : McuStores :=
  let dy := clipped 8 h y
  let dx := clipped 8 w x
  (if dx ≠ 8 ∨ dy ≠ 8 then memsets 64 64 else []) ++
    (List.range dy).flatMap fun ty => (List.range dx).flatMap fun tx =>
      let p := rgb565At (w * (y + ty) + x + tx)
      [storeY (ty * 8 + tx) p, storeU (ty * 8 + tx) p, storeV (ty * 8 + tx) p]

/-- Where the sample of a column goes: the columns from the ninth on are in the block behind. -/
def columnY (tx : ℕ) : ℕ := if tx ≥ 8 then tx + (64 - 8) else tx

/-- Column pairs, the colour of the left one counts for both. There is no `memset` here. -/
def fetchRgb565Half (w h x y : ℕ) : McuStores :=
  let dy := clipped 8 h y
  let dx := clipped 16 w x
  (List.range dy).flatMap fun ty => (List.range ((dx + 1) / 2)).flatMap fun i =>
    let a := w * (y + ty) + x + 2 * i
    let iY := ty * 8 + columnY (2 * i)
    [storeY iY (rgb565At a), storeU (ty * 8 + i) (rgb565At a), storeV (ty * 8 + i) (rgb565At a),
      storeY (iY + 1) (rgb565At (a + 1))]

/-- Row pairs and column pairs. -/
def fetchRgb565Quarter (w h x y : ℕ) : McuStores :=
  let dy := clipped 16 h y
  let dx := clipped 16 w x
  (if dx ≠ 16 ∨ dy ≠ 16 then memsets 256 64 else []) ++
    (List.range ((dy + 1) / 2)).flatMap fun j => (List.range ((dx + 1) / 2)).flatMap fun i =>
      let ty := 2 * j
      let a := w * (y + ty) + x + 2 * i
      let iY := ty * 8 + (if ty ≥ 8 then 128 - 64 else 0) + columnY (2 * i)
      [storeY iY (rgb565At a), storeU (ty * 4 + i) (rgb565At a), storeV (ty * 4 + i) (rgb565At a),
        storeY (iY + 1) (rgb565At (a + 1)), storeY (iY + 8) (rgb565At (a + w)),
        storeY (iY + 9) (rgb565At (a + 1 + w))]

/-! ### The Bayer branches -/

/-- Two bytes of a line, `s[k]` of a pointer to 16-bit words. -/
def pairAt (a : ℤ) : Fetch (ℕ × ℕ) :=
  ((Fetch.read a).zip (Fetch.read (a + 1))).map fun p => (p.1 % 256, p.2 % 256)

/-- A register with two pairs of pixels, the right ones in the upper half. -/
def register (lo hi : Fetch (ℕ × ℕ)) : Fetch ℕ :=
  (lo.zip hi).map fun p => p.1.1 + p.1.2 * 2 ^ 8 + p.2.1 * 2 ^ 16 + p.2.2 * 2 ^ 24

/-- The colour of the left pixel of a pair, the upper half of the registers being the pair. -/
def leftRgb (odd : Bool) (l0 l1 l2 : ℕ) : Rgb :=
  if odd then
    ((((l1 >>> 8) &&& 0xff) + (l1 >>> 24)) >>> 1, (l1 &&& 0xff0000) >>> 16,
      ((l0 &&& 0xff0000) + (l2 &&& 0xff0000)) >>> 17)
  else
    ((((l0 >>> 8) &&& 0xff) + (l0 >>> 24) + ((l2 >>> 8) &&& 0xff) + (l2 >>> 24)) >>> 2,
      (((l1 >>> 8) &&& 0xff) + (l1 >>> 24) + ((l0 >>> 16) &&& 0xff) + ((l2 >>> 16) &&& 0xff)) >>> 2,
      (l1 &&& 0xff0000) >>> 16)

/-- The colour of the right one, after the pair was shifted to the lower half. -/
def rightRgb (odd : Bool) (l0 l1 l2 : ℕ) : Rgb :=
  if odd then
    ((l1 &&& 0xff00) >>> 8,
      (((l1 >>> 16) &&& 0xff) + (l1 &&& 0xff) + ((l0 >>> 8) &&& 0xff) + ((l2 >>> 8) &&& 0xff)) >>> 2,
      ((l0 &&& 0xff) + (l2 &&& 0xff) + ((l0 >>> 16) &&& 0xff) + ((l2 >>> 16) &&& 0xff)) >>> 2)
  else
    (((l0 &&& 0xff00) + (l2 &&& 0xff00)) >>> 9, (l1 &&& 0xff00) >>> 8,
      ((l1 &&& 0xff) + ((l1 >>> 16) &&& 0xff)) >>> 1)

/-- `prev_offset`, in 16-bit words; the line below is used twice in the top line. -/
def prevOffset (w2 : ℤ) (row : ℕ) : ℤ := if row = 0 then w2 else -w2

/-- `next_offset`; the line above is used twice in the bottom line, unless that is the top line. -/
def nextOffset (w2 : ℤ) (h row : ℕ) : ℤ := if row ≠ 0 ∧ row + 1 = h then -w2 else w2

/-- `bayer_to_ycbcr` into the arrays from `base` on. At the left edge the first pair stands for the one
    before it, at the right edge the last pair for the one behind it. -/
def bayerToYcbcr (w h xOffset yOffset base : ℕ) : McuStores :=
  (List.range (clipped 8 h yOffset)).flatMap fun y => (List.range 4).flatMap fun (j : ℕ) =>
    let row := yOffset + y
    let s : ℤ := row * w + xOffset
    let pair (off : ℤ) (k : ℤ) : Fetch (ℕ × ℕ) := pairAt (s + 2 * (off + k))
    let left (off : ℤ) : Fetch ℕ :=
      register (if j = 0 ∧ xOffset = 0 then pair off 0 else pair off (j - 1)) (pair off j)
    let right (off : ℤ) : Fetch ℕ :=
      register (pair off j) (if j = 3 ∧ xOffset + 8 ≥ w then pair off 3 else pair off (j + 1))
    let odd : Bool := y % 2 = 1
    let p := (((left (prevOffset (w / 2) row)).zip (left 0)).zip (left (nextOffset (w / 2) h row))).map
      fun l => leftRgb odd l.1.1 l.1.2 l.2
    let q := (((right (prevOffset (w / 2) row)).zip (right 0)).zip (right (nextOffset (w / 2) h row))).map
      fun l => rightRgb odd l.1.1 l.1.2 l.2
    let i : ℕ := base + y * 8 + 2 * j
    [storeY i p, storeU i p, storeV i p, storeY (i + 1) q, storeU (i + 1) q, storeV (i + 1) q]

/-- The mean of the colours of two blocks side by side. -/
def blendHalf (b : Bufs) : Bufs := fun l =>
  if l.1 ≠ .y ∧ l.2 < 64 then int8 ((b l + b (l.1, l.2 + 64) + 1) / 2) else b l

/-- The mean of the colours of four blocks. -/
def blendQuarter (b : Bufs) : Bufs := fun l =>
  if l.1 ≠ .y ∧ l.2 < 64 then
    int8 ((b l + b (l.1, l.2 + 64) + b (l.1, l.2 + 128) + b (l.1, l.2 + 192) + 2) / 4)
  else b l

/-! ### A whole image -/

/-- A branch of `jpeg_compress`: the blocks in order, in the groups after which the overflow flag is
    tested, what is stored for each, what is done with the arrays then, and where the data units are. -/
structure Plan where
  mcus : List (List (ℕ × ℕ))
  stores : ℕ → ℕ → McuStores
  blend : Bufs → Bufs
  units : List Loc

/-- `for (y=0; y<h; y+=dy) for (x=0; x<w; x+=dx)`, row by row -/
def mcuRows (w h dx dy : ℕ) : List (List (ℕ × ℕ)) :=
  (List.range ((h + dy - 1) / dy)).map fun j => (List.range ((w + dx - 1) / dx)).map fun i =>
    (i * dx, j * dy)

/-- The branches for RGB565 images. -/
def planRgb565 (w h quality : ℕ) : Plan :=
  if quality ≥ 60 then ⟨mcuRows w h 8 8, fetchRgb565Full w h, id, [(.y, 0), (.u, 0), (.v, 0)]⟩
  else if quality > 35 then
    ⟨mcuRows w h 16 8, fetchRgb565Half w h, id, [(.y, 0), (.y, 64), (.u, 0), (.v, 0)]⟩
  else ⟨mcuRows w h 16 16, fetchRgb565Quarter w h, id,
    [(.y, 0), (.y, 64), (.y, 128), (.y, 192), (.u, 0), (.v, 0)]⟩

/-- The branches for Bayer images. -/
def planBayer (w h quality : ℕ) : Plan :=
  if quality ≥ 60 then ⟨(mcuRows w h 8 8).flatten.map ([·]), fun x y => bayerToYcbcr w h x y 0, id,
    [(.y, 0), (.u, 0), (.v, 0)]⟩
  else if quality > 35 then
    ⟨mcuRows w h 16 8, fun x y => bayerToYcbcr w h x y 0 ++ bayerToYcbcr w h (x + 8) y 64, blendHalf,
      [(.y, 0), (.y, 64), (.u, 0), (.v, 0)]⟩
  else ⟨mcuRows w h 16 16, fun x y => bayerToYcbcr w h x y 0 ++ bayerToYcbcr w h (x + 8) y 64 ++
      bayerToYcbcr w h x (y + 8) 128 ++ bayerToYcbcr w h (x + 8) (y + 8) 192, blendQuarter,
    [(.y, 0), (.y, 64), (.y, 128), (.y, 192), (.u, 0), (.v, 0)]⟩

/-- The branch for the format and the subsampling. -/
def plan (w h bpp quality : ℕ) : Plan :=
  match bpp with
  | 0 => ⟨mcuRows w h 8 8, getMcuBinary w h, id, [(.y, 0)]⟩
  | 1 => ⟨mcuRows w h 8 8, getMcuGrayscale w h, id, [(.y, 0)]⟩
  | 2 => planRgb565 w h quality
  | _ => planBayer w h quality

/-- The samples of a data unit. -/
def samplesAt (b : Bufs) (l : Loc) : List ℤ := (List.range 64).map fun i => b (l.1, l.2 + i)

def Plan.mcu (p : Plan) (m : ℤ → ℕ) (b : Bufs) (xy : ℕ × ℕ) : Bufs :=
  p.blend (storeFetched m b (p.stores xy.1 xy.2))

/-- The samples that are handed to `jpeg_processDU` in a group, and the arrays after it. -/
def Plan.group (p : Plan) (m : ℤ → ℕ) : Bufs → List (ℕ × ℕ) → List (Comp × List ℤ) × Bufs
  | b, [] => ([], b)
  | b, xy :: xys =>
    let b := p.mcu m b xy
    let r := p.group m b xys
    (p.units.map (fun l => (l.1, samplesAt b l)) ++ r.1, r.2)

def Plan.groups (p : Plan) (m : ℤ → ℕ) : Bufs → List (List (ℕ × ℕ)) → List (List (Comp × List ℤ))
  | _, [] => []
  | b, g :: gs => (p.group m b g).1 :: p.groups m (p.group m b g).2 gs

/-- All addresses read. -/
def Plan.reads (p : Plan) : List ℤ :=
  p.mcus.flatten.flatMap fun xy => (p.stores xy.1 xy.2).flatMap fun s => s.2.reads

/-- `jpeg_compress` of the image in memory, with the arrays on the stack as they are, and `t` as the calls
    before have left it. `quantize` is what DCT and quantisation make of samples with the tables. -/
def jpegCompressImage (quantize : QuantTables → Comp → List ℤ → List ℤ) (t : QuantTables) (src : Source)
    (m : ℤ → ℕ) (stack : Bufs) (length quality : ℕ) (realloc : Bool) : JpegBuf × Bool :=
  let p := plan src.w src.h src.bpp quality
  let groups := (p.groups m stack p.mcus).map fun g =>
    g.map fun u => (u.1, quantize (jpegInit t quality) u.1 u.2)
  jpegCompress t src groups length quality realloc

/-- The tables after images of these qualities were compressed. -/
def tablesAfter (before : List ℕ) : QuantTables := before.foldl jpegInit zeroTables

/-- The pixels of the image. -/
def InImage (src : Source) (a : ℤ) : Prop :=
  if src.bpp = 0 then ∃ x y : ℕ, x < src.w ∧ y < src.h ∧ a = y * (binaryLineLen src.w * 32) + x
  else 0 ≤ a ∧ a < src.w * src.h

end OpenMV.Jpeg
