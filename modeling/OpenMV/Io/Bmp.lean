import OpenMV.Io.Pixels

/-! BMP files | scheme:codec | source:src/src/openmv/omv/img/bmp.c

    The reader takes the header field by field, checks it in the arithmetic of the machine, and stores
    the pixels line by line. The writer has no choice of format but the depth: the lines go from top to
    bottom, filled up to words. -/

namespace OpenMV.Io
open Schemes Vision

/-! ### The header -/

/-- `bmp_read_settings_t` -/
structure BmpReadSettings where
  bmpW : ℤ
  bmpH : ℤ
  bmpBpp : ℕ
  bmpFmt : ℕ
  bmpRowBytes : ℕ
deriving DecidableEq, Repr

/-- `abs` of an `int`; the least one has no counterpart. -/
def intAbs (x : ℤ) : ℤ := int32 x.natAbs

/-- `(((w * bpp) + 31) / 32) * 4`, as the `uint32_t` it is stored in. -/
def rowBytes (w : ℤ) (bpp : ℕ) : ℕ :=
  uint32 (int32 ((int32 (int32 (w * bpp) + 31)).tdiv 32 * 4))

/-- An entry of the table of grays. -/
def grayEntry (i : ℕ) : ℕ := i <<< 16 ||| i <<< 8 ||| i

def readLongsIgnore : ℕ → Fil Unit
  | 0 => pure ()
  | n + 1 => do
    readLongIgnore
    readLongsIgnore n

/-- Skip past the fields that came with this type of header. -/
def skipSince (headerType since n : ℕ) : Fil Unit :=
  if headerType ≥ since then readLongsIgnore n else pure ()

/-- Skip past the remaining bytes of the third and later headers. -/
def skipSinceV3 (headerType : ℕ) : Fil Unit := do
  skipSince headerType 56 1
  skipSince headerType 108 13
  skipSince headerType 124 4

/-- The colour table or the bit masks. -/
def bmpReadTables (headerType bmpBpp bmpFmt : ℕ) : Fil Unit :=
  if bmpBpp = 8 then do
    raiseIf (bmpFmt ≠ 0) .unsupportedFormat
    skipSince headerType 52 3
    skipSinceV3 headerType
    (List.range 256).forM fun i => readLongExpect (grayEntry i)
  else if bmpBpp = 16 then do
    raiseIf (bmpFmt ≠ 3) .unsupportedFormat
    readLongExpect (0x1F <<< 11)
    readLongExpect (0x3F <<< 5)
    readLongExpect 0x1F
    skipSinceV3 headerType
  else if bmpBpp = 24 then do
    if bmpFmt = 3 then
      readLongExpect (0xFF <<< 16)
      readLongExpect (0xFF <<< 8)
      readLongExpect 0xFF
    else skipSince headerType 52 3
    skipSinceV3 headerType
  else pure ()

/-- The image is upside down in the file exactly if `bmpH` is not negative, which is what the function
    returns in the source. -/
def bmpReadGeometry : Fil (Shape × BmpReadSettings) := do
  readByteExpect 0x42
  readByteExpect 0x4D
  let fileSize ← readLong
  readWordIgnore
  readWordIgnore
  let headerSize ← readLong
  raiseIf (fileSize ≤ headerSize) .fileCorrupted
  let dataSize := fileSize - headerSize
  raiseIf (dataSize % 4 ≠ 0) .fileCorrupted
  let headerType ← readLong
  raiseIf (headerType ∉ [40, 52, 56, 108, 124]) .unsupportedFormat
  let w ← readLong
  let h ← readLong
  let bmpW := int32 w
  let bmpH := int32 h
  raiseIf (bmpW = 0 ∨ bmpH = 0) .fileCorrupted
  readWordExpect 1
  let bmpBpp ← readWord
  raiseIf (bmpBpp ≠ 8 ∧ bmpBpp ≠ 16 ∧ bmpBpp ≠ 24) .unsupportedFormat
  let bmpFmt ← readLong
  raiseIf (bmpFmt ≠ 0 ∧ bmpFmt ≠ 3) .unsupportedFormat
  readLongExpect dataSize
  readLongsIgnore 4
  bmpReadTables headerType bmpBpp bmpFmt
  let img : Shape := ⟨intAbs bmpW, intAbs bmpH, if bmpBpp = 8 then .grayscale else .rgb565⟩
  let bmpRowBytes := rowBytes img.w bmpBpp
  raiseIf (dataSize ≠ uint32 (bmpRowBytes * img.h)) .fileCorrupted
  return (img, ⟨bmpW, bmpH, bmpBpp, bmpFmt, bmpRowBytes⟩)

/-! ### The pixels -/

/-- Where column `j` of line `i` of the file goes. -/
def bmpTarget (img : Shape) (rs : BmpReadSettings) (i j : ℤ) : ℤ :=
  pixelIndex img (if rs.bmpW < 0 then int32 (img.w - j - 1) else j)
    (if rs.bmpH < 0 then i else img.h - i - 1)

/-- The rest of a line of the file is not part of the image. -/
def bmpPut (img : Shape) (rs : BmpReadSettings) (i j : ℤ) (pixel : ℕ) : Stores :=
  if j < img.w then [(bmpTarget img rs i j, pixel)] else []

/-- The loop over the columns; `j` is an `int`. -/
def bmpReadLine (img : Shape) (rs : BmpReadSettings) (pixel : Fil ℕ) (cols i : ℕ) : Fil Stores := do
  let puts ← (List.range cols).mapM fun j : ℕ => do
    let p ← pixel
    return bmpPut img rs i (int32 j) p
  return puts.flatten

def bmpReadLines (nLines : ℤ) (line : ℕ → Fil Stores) : Fil Stores := do
  let lines ← (List.range nLines.toNat).mapM line
  return lines.flatten

def readGray : Fil ℕ := do
  let pixel ← readByte
  return pixel.toNat

def readBgr : Fil ℕ := do
  let b ← readByte
  let g ← readByte
  let r ← readByte
  return colorR8G8B8ToRgb565 r.toNat g.toNat b.toNat

def readBytesIgnore : ℕ → Fil Unit
  | 0 => pure ()
  | n + 1 => do
    readByteIgnore
    readBytesIgnore n

/-- The lines lie in the file as they do in memory. -/
def bmpFast (img : Shape) (rs : BmpReadSettings) : Prop :=
  rs.bmpBpp = 8 ∧ rs.bmpH < 0 ∧ 0 ≤ rs.bmpW ∧ uint32 img.w = rs.bmpRowBytes

instance (img : Shape) (rs : BmpReadSettings) : Decidable (bmpFast img rs) :=
  inferInstanceAs (Decidable (_ ∧ _))

def bmpReadPixels (img : Shape) (nLines : ℤ) (rs : BmpReadSettings) : Fil Stores :=
  if bmpFast img rs then do
    let data ← readData (uint32 (nLines * img.w))
    return data.mapIdx fun k b => ((k : ℤ), b.toNat)
  else if rs.bmpBpp = 8 then
    bmpReadLines nLines (bmpReadLine img rs readGray rs.bmpRowBytes)
  else if rs.bmpBpp = 16 then
    bmpReadLines nLines (bmpReadLine img rs readWord (rs.bmpRowBytes / 2))
  else if rs.bmpBpp = 24 then
    bmpReadLines nLines fun i => do
      let line ← bmpReadLine img rs readBgr (rs.bmpRowBytes / 3) i
      readBytesIgnore (rs.bmpRowBytes % 3)
      return line
  else pure []

/-- With `img->pixels` not set yet; the allocation is taken to succeed. -/
def bmpRead : Fil Loaded := do
  let (img, rs) ← bmpReadGeometry
  let stores ← bmpReadPixels img img.h rs
  return ⟨img, allocSize img, stores⟩

/-! ### The writer -/

/-- A byte of the pixels of an image, counted from the first. -/
def pixelByte (img : Image) (o : ℤ) : UInt8 := .ofNat (img.data (o % img.w) (o / img.w))

/-- What `write_data(fp, img->pixels + start, size)` writes. -/
def writePixels (img : Image) (start : ℤ) (size : ℕ) : List UInt8 :=
  (List.range size).map fun k : ℕ => pixelByte img (start + k)

/-- `IM_GET_RGB565_PIXEL`; `words` is what lies in memory under the pixels of an image that does not
    have sixteen bits per pixel. -/
def rgb565At (words : ℤ → ℤ → ℕ) (img : Image) (x y : ℤ) : ℕ :=
  (if img.bpp = .rgb565 then img.data x y else words x y) % 65536

/-- File header and info header, with the table that follows. -/
def bmpHeader (rect : Rectangle) (bits fmt : ℕ) (dataSize : ℤ) (table : List UInt8) : List UInt8 :=
  ([0x42, 0x4D] : List UInt8) ++ le32 (uint32 (14 + 40 + table.length + dataSize)) ++ le16 0 ++ le16 0 ++
    le32 (14 + 40 + table.length) ++ le32 40 ++ le32 (uint32 rect.w) ++ le32 (uint32 (-rect.h)) ++
    le16 1 ++ le16 bits ++ le32 fmt ++ le32 (uint32 dataSize) ++ le32 0 ++ le32 0 ++ le32 0 ++ le32 0 ++
    table

def colorTable : List UInt8 := (List.range 256).flatMap fun i => le32 (grayEntry i)

def bitMasks : List UInt8 := le32 (0x1F <<< 11) ++ le32 (0x3F <<< 5) ++ le32 0x1F

/-- `row_bytes` of the writer. -/
def writeRowBytes (w : ℤ) (bits : ℕ) : ℤ := (w * bits + 31).tdiv 32 * 4

/-- The bytes written to the file. -/
def bmpWriteSubimg (words : ℤ → ℤ → ℕ) (img : Image) (r : Rectangle) : Except FileError (List UInt8) :=
  match rectangleSubimg img.w img.h r with
  | none => .error .noIntersection
  | some rect =>
    if img.bpp = .grayscale then
      let rowBytes := writeRowBytes rect.w 8
      let header := bmpHeader rect 8 0 (rowBytes * rect.h) colorTable
      if rect.x = 0 ∧ rect.w = img.w ∧ img.w = rowBytes then
        .ok (header ++ writePixels img (rect.y * img.w) (uint32 (rect.w * rect.h)))
      else
        .ok (header ++ (List.range rect.h.toNat).flatMap fun i : ℕ =>
          writePixels img ((rect.y + i) * img.w + rect.x) (uint32 rect.w) ++
            List.replicate (rowBytes - rect.w).toNat 0)
    else
      let rowBytes := writeRowBytes rect.w 16
      let header := bmpHeader rect 16 3 (rowBytes * rect.h) bitMasks
      .ok (header ++ (List.range rect.h.toNat).flatMap fun i : ℕ =>
        ((List.range rect.w.toNat).flatMap fun j : ℕ =>
          le16 (rgb565At words img (rect.x + j) (rect.y + i))) ++
            (List.range (rowBytes / 2 - rect.w).toNat).flatMap fun _ => le16 0)

end OpenMV.Io
