import Mathlib.Data.Nat.Digits.Defs
import OpenMV.Io.Bmp

/-! PPM and PGM files | scheme:codec | source:src/src/openmv/omv/img/ppm.c

    Numbers are read one character at a time, and the character that ends a number is kept for the next
    one. After the header the samples are numbers again, or bytes that start right behind the kept
    character. `file_tell_w_buf` and `file_size_w_buf` are taken to return what their names say. -/

namespace OpenMV.Io
open Schemes Vision

/-! ### Numbers -/

/-- The states of `read_int`. -/
inductive Mode where
  | eatWhitespace
  | eatComment
  | eatNumber
deriving DecidableEq, Repr

def isDigit (c : UInt8) : Prop := 0x30 ≤ c.toNat ∧ c.toNat ≤ 0x39

instance (c : UInt8) : Decidable (isDigit c) := inferInstanceAs (Decidable (_ ∧ _))

/-- What one character does to the state and the number; `none` if it ends the number. -/
def readIntStep : Mode → ℕ → UInt8 → Option (Mode × ℕ)
  | .eatWhitespace, i, c =>
    if c = 0x23 then some (.eatComment, i)
    else if isDigit c then some (.eatNumber, c.toNat - 0x30)
    else some (.eatWhitespace, i)
  | .eatComment, i, c => if c = 0x0A ∨ c = 0x0D then some (.eatWhitespace, i) else some (.eatComment, i)
  | .eatNumber, i, c =>
    if isDigit c then some (.eatNumber, (i * 10 + c.toNat - 0x30) % 4294967296) else none

/-- The loop: the number, the character kept, and what is unread. -/
def readIntLoop : Mode → ℕ → List UInt8 → ℕ × Option UInt8 × List UInt8
  | _, i, [] => (i, none, [])
  | mode, i, c :: s =>
    match readIntStep mode i c with
    | some (mode, i) => readIntLoop mode i s
    | none => (i, some c, s)

/-- `c` is `read_int_c` while `read_int_c_valid` is set. -/
def readInt (c : Option UInt8) : Fil (ℕ × Option UInt8) := fun s =>
  match readIntLoop .eatWhitespace 0 (c.toList ++ s) with
  | (i, c, s) => .ok ((i, c), s)

/-! ### The reader -/

/-- `ppm_read_settings_t` -/
structure PpmReadSettings where
  readIntC : Option UInt8
  ppmFmt : UInt8
deriving DecidableEq, Repr

def ppmReadGeometry : Fil (Shape × PpmReadSettings) := do
  readByteExpect 0x50
  let ppmFmt ← readByte
  raiseIf (ppmFmt ≠ 0x32 ∧ ppmFmt ≠ 0x33 ∧ ppmFmt ≠ 0x35 ∧ ppmFmt ≠ 0x36) .unsupportedFormat
  let (w, c) ← readInt none
  let (h, c) ← readInt c
  let img : Shape := ⟨int32 w, int32 h, if ppmFmt = 0x32 ∨ ppmFmt = 0x35 then .grayscale else .rgb565⟩
  raiseIf (img.w = 0 ∨ img.h = 0) .fileCorrupted
  let (max, c) ← readInt c
  raiseIf (max ≠ 255) .unsupportedFormat
  return (img, ⟨c, ppmFmt⟩)

/-- The pixels of the first `n` lines, in the order of the loops. -/
def linePixels (img : Shape) (n : ℤ) : List (ℤ × ℤ) :=
  (List.range n.toNat).flatMap fun i : ℕ => (List.range img.w.toNat).map fun j : ℕ => ((j : ℤ), (i : ℤ))

/-- The loops over lines and columns, with a reader for one pixel. -/
def ppmReadLoop (img : Shape) (pixel : Option UInt8 → Fil (ℕ × Option UInt8)) :
    List (ℤ × ℤ) → Option UInt8 → Fil (Stores × Option UInt8)
  | [], c => pure ([], c)
  | (x, y) :: ps, c => do
    let (p, c) ← pixel c
    let (stores, c) ← ppmReadLoop img pixel ps c
    return ((pixelIndex img x y, p) :: stores, c)

/-- A sample is stored in a byte. -/
def readGrayNumber (c : Option UInt8) : Fil (ℕ × Option UInt8) := do
  let (pixel, c) ← readInt c
  return (pixel % 256, c)

def readRgbNumbers (c : Option UInt8) : Fil (ℕ × Option UInt8) := do
  let (r, c) ← readInt c
  let (g, c) ← readInt c
  let (b, c) ← readInt c
  return (colorR8G8B8ToRgb565 r g b % 65536, c)

def readRgbBytes (c : Option UInt8) : Fil (ℕ × Option UInt8) := do
  let r ← readByte
  let g ← readByte
  let b ← readByte
  return (colorR8G8B8ToRgb565 r.toNat g.toNat b.toNat, c)

def ppmReadPixels (img : Shape) (nLines : ℤ) (rs : PpmReadSettings) : Fil (Stores × PpmReadSettings) := do
  if rs.ppmFmt = 0x32 then
    let (stores, c) ← ppmReadLoop img readGrayNumber (linePixels img nLines) rs.readIntC
    return (stores, { rs with readIntC := c })
  else if rs.ppmFmt = 0x33 then
    let (stores, c) ← ppmReadLoop img readRgbNumbers (linePixels img nLines) rs.readIntC
    return (stores, { rs with readIntC := c })
  else if rs.ppmFmt = 0x35 then
    let data ← readData (uint32 (nLines * img.w))
    return (data.mapIdx fun k b => ((k : ℤ), b.toNat), rs)
  else if rs.ppmFmt = 0x36 then
    let (stores, c) ← ppmReadLoop img readRgbBytes (linePixels img nLines) rs.readIntC
    return (stores, { rs with readIntC := c })
  else return ([], rs)

/-- With `img->pixels` not set yet; the allocation is taken to succeed. -/
def ppmRead : Fil Loaded := do
  let (img, rs) ← ppmReadGeometry
  let (stores, _) ← ppmReadPixels img img.h rs
  return ⟨img, allocSize img, stores⟩

/-! ### The writer -/

/-- A number in decimal. -/
def decimalNat (n : ℕ) : List UInt8 :=
  if n = 0 then [0x30] else (Nat.digits 10 n).reverse.map fun d => .ofNat (0x30 + d)

/-- What `%d` prints. -/
def decimal (n : ℤ) : List UInt8 := if n < 0 then 0x2D :: decimalNat n.natAbs else decimalNat n.natAbs

/-- `snprintf(buffer, 20, ...)` and then `write_data` of as many bytes as the text has: what does not
    fit is replaced by the end of the string and by what is behind the buffer. -/
def writeBuffer (stack : ℕ → UInt8) (text : List UInt8) : List UInt8 :=
  text.mapIdx fun k c => if k < 19 then c else if k = 19 then 0 else stack k

def ppmHeader (fmt : UInt8) (rect : Rectangle) : List UInt8 :=
  [0x50, fmt, 0x0A] ++ decimal rect.w ++ [0x20] ++ decimal rect.h ++ [0x0A, 0x32, 0x35, 0x35, 0x0A]

/-- The bytes written to the file. -/
def ppmWriteSubimg (stack : ℕ → UInt8) (words : ℤ → ℤ → ℕ) (img : Image) (r : Rectangle) :
    Except FileError (List UInt8) :=
  match rectangleSubimg img.w img.h r with
  | none => .error .noIntersection
  | some rect =>
    if img.bpp = .grayscale then
      let header := writeBuffer stack (ppmHeader 0x35 rect)
      if rect.x = 0 ∧ rect.w = img.w then
        .ok (header ++ writePixels img (rect.y * img.w) (uint32 (rect.w * rect.h)))
      else
        .ok (header ++ (List.range rect.h.toNat).flatMap fun i : ℕ =>
          writePixels img ((rect.y + i) * img.w + rect.x) (uint32 rect.w))
    else
      let header := writeBuffer stack (ppmHeader 0x36 rect)
      .ok (header ++ (List.range rect.h.toNat).flatMap fun i : ℕ =>
        (List.range rect.w.toNat).flatMap fun j : ℕ =>
          let pixel := rgb565At words img (rect.x + j) (rect.y + i)
          [.ofNat (colorRgb565ToR8 pixel), .ofNat (colorRgb565ToG8 pixel),
            .ofNat (colorRgb565ToB8 pixel)])

end OpenMV.Io
