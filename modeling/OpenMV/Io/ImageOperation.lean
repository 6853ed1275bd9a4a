import OpenMV.Io.Ppm

/-! Operations with an image in a file | scheme:streaming | source:src/src/openmv/omv/img/imlib.c

    `imlib_image_operation` runs a line operation over an image together with a second one. If the
    second image is in a file, it is read into a window of as many lines as there is room for, and the
    operation is run on the lines of the window before the next ones are read. Files that are upside
    down are read from their last line, and fill the window from its end. -/

namespace OpenMV.Io
open Schemes Vision

/-- `img_read_settings_t` -/
inductive ImgReadSettings where
  | bmp (rs : BmpReadSettings)
  | pnm (rs : PpmReadSettings)
  | jpg
deriving DecidableEq, Repr

/-- The first two bytes of a PNM file. -/
def isPnm (magic : List UInt8) : Prop :=
  magic ∈ [[0x50, 0x32], [0x50, 0x33], [0x50, 0x35], [0x50, 0x36]]

instance (magic : List UInt8) : Decidable (isPnm magic) := inferInstanceAs (Decidable (_ ∈ _))

/-- The file is opened again after its first bytes were looked at. -/
def readMagic : Fil (List UInt8) := fun s =>
  match readData 2 s with
  | .ok (magic, _) => .ok (magic, s)
  | .error e => .error e

/-- Enforce extension! -/
def enforceExtension (bpp : Bpp) (path : List Char) : Fil Unit := fun s =>
  match imblibParseExtension bpp path with
  | .ok _ => .ok ((), s)
  | .error e => .error e

/-- What is set in the image and the settings, and whether the file is upside down. -/
def imlibReadGeometry (jpeg : Fil Shape) (path : List Char) : Fil (Shape × ImgReadSettings × Bool) := do
  let magic ← readMagic
  if isPnm magic then
    let (img, rs) ← ppmReadGeometry
    enforceExtension img.bpp path
    return (img, .pnm rs, false)
  else if magic = [0x42, 0x4D] then
    let (img, rs) ← bmpReadGeometry
    enforceExtension img.bpp path
    return (img, .bmp rs, 0 ≤ rs.bmpH)
  else
    let img ← jpeg
    enforceExtension img.bpp path
    return (img, .jpg, false)

def imlibReadPixels (img : Shape) (nLines : ℤ) : ImgReadSettings → Fil (Stores × ImgReadSettings)
  | .bmp rs => do
    let stores ← bmpReadPixels img nLines rs
    return (stores, .bmp rs)
  | .pnm rs => do
    let (stores, rs) ← ppmReadPixels img nLines rs
    return (stores, .pnm rs)
  | .jpg => return ([], .jpg)

def imlibLoadImage (jpeg : Fil Loaded) (path : List Char) : Fil Loaded := do
  let magic ← readMagic
  let img ←
    if isPnm magic then ppmRead
    else if magic = [0x42, 0x4D] then bmpRead
    else if magic = [0xFF, 0xD8] then jpeg
    else throw .unsupportedFormat
  enforceExtension img.shape.bpp path
  return img

/-! ### Line operations -/

/-- Lines of an image, and an operation that changes one of them, given its number and a row of pixels
    of the other image. -/
abbrev LineOp (α : Type) := ℤ → List ℕ → α → α

/-- The row of pixels that starts `w * j` pixels into the memory. -/
def rowOf (w : ℤ) (mem : ℤ → ℕ) (j : ℤ) : List ℕ :=
  (List.range w.toNat).map fun x : ℕ => mem (w * j + x)

/-- Runs the operation on line `target j` of the image and row `j` of the memory, for each `j` below
    `n`. -/
def opLines {α : Type} (op : LineOp α) (w : ℤ) (mem : ℤ → ℕ) (target : ℕ → ℤ) :
    ℕ → (ℤ → α) → ℤ → α
  | 0, img => img
  | j + 1, img =>
    let img := opLines op w mem target j img
    Function.update img (target j) (op (target j) (rowOf w mem j) (img (target j)))

/-- The loop over the windows; it is left after as many rounds as there are lines, at the latest. -/
def windowLoop {α : Type} (op : LineOp α) (h : ℤ) (temp : Shape) (vflipped : Bool) :
    ℕ → ℤ → (ℤ → ℕ) → ImgReadSettings → (ℤ → α) → Fil (ℤ → α)
  | 0, _, _, _, img => pure img
  | fuel + 1, i, mem, rs, img =>
    if i < h then do
      let lines := min temp.h (h - i)
      let (stores, rs) ← imlibReadPixels temp lines rs
      let mem := storeAll mem stores
      let target := fun j : ℕ => if vflipped then h - i - lines + j else i + j
      let img := opLines op temp.w mem target lines.toNat img
      windowLoop op h temp vflipped fuel (i + temp.h) mem rs img
    else pure img

/-- The height of the window for this much memory. -/
def windowHeight (img : Shape) (avail : ℕ) : ℤ :=
  min img.h (avail / 2 / (img.w * bppNum img.bpp).toNat : ℕ)

/-- With a path: `shape` and `img` are the image, `mem` is what was in the memory of the window. -/
def imlibImageOperationPath {α : Type} (jpeg : Fil Shape) (avail : ℕ) (mem : ℤ → ℕ) (shape : Shape)
    (path : List Char) (op : LineOp α) (img : ℤ → α) : Fil (ℤ → α) := do
  let (temp, rs, vflipped) ← imlibReadGeometry jpeg path
  raiseIf (shape ≠ temp) .notEqual
  let temp := { temp with h := windowHeight shape avail }
  raiseIf (temp.h = 0) .noMemory
  windowLoop op shape.h temp vflipped shape.h.toNat 0 mem rs img

/-- With another image in memory. -/
def imlibImageOperationOther {α : Type} (shape other : Shape) (mem : ℤ → ℕ) (op : LineOp α)
    (img : ℤ → α) : Except FileError (ℤ → α) :=
  if shape ≠ other then .error .notEqual
  else .ok (opLines op other.w mem (fun j => j) shape.h.toNat img)

end OpenMV.Io
