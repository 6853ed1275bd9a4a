import OpenMV.Io.Pixels
import OpenMV.Jpeg.Save

/-! MJPEG files | scheme:codec | source:src/src/openmv/omv/img/mjpeg.c

    An AVI file is written with the sizes left open in its header, frame by frame, and the open fields
    are filled in when it is closed. -/

namespace OpenMV.Io
open Schemes Vision Jpeg

def fourcc (a b c d : Char) : List UInt8 := [a, b, c, d].map fun c => .ofNat c.toNat

/-! ### The header -/

/-- The words in the order they are written, with their numbers. -/
def mjpegHeader (width height : ℤ) : List (List UInt8) :=
  [fourcc 'R' 'I' 'F' 'F', -- 0
   le32 0, -- size - updated on close - 1
   fourcc 'A' 'V' 'I' ' ', -- 2
   fourcc 'L' 'I' 'S' 'T', -- 3
   le32 192, -- 4
   fourcc 'h' 'd' 'r' 'l', -- 5
   fourcc 'a' 'v' 'i' 'h', -- 6
   le32 56, -- 7
   le32 0, -- dwMicroSecPerFrame; micros - updated on close - 8
   le32 0, -- dwMaxBytesPerSec; updated on close - 9
   le32 4, -- dwPaddingGranularity; - 10
   le32 0, -- dwFlags; - 11
   le32 0, -- dwTotalFrames; frames - updated on close - 12
   le32 0, -- dwInitialFrames; - 13
   le32 1, -- dwStreams; - 14
   le32 0, -- dwSuggestedBufferSize; - 15
   le32 (uint32 width), -- dwWidth; - 16
   le32 (uint32 height), -- dwHeight; - 17
   le32 1000, -- dwScale; - 18
   le32 0, -- dwRate; rate - updated on close - 19
   le32 0, -- dwStart; - 20
   le32 0, -- dwLength; length - updated on close - 21
   fourcc 'L' 'I' 'S' 'T', -- 22
   le32 116, -- 23
   fourcc 's' 't' 'r' 'l', -- 24
   fourcc 's' 't' 'r' 'h', -- 25
   le32 56, -- 26
   fourcc 'v' 'i' 'd' 's', -- fccType; - 27
   fourcc 'M' 'J' 'P' 'G', -- fccHandler; - 28
   le32 0, -- dwFlags; - 29
   le16 0 ++ le16 0, -- wPriority; wLanguage; - 30
   le32 0, -- dwInitialFrames; - 31
   le32 1000, -- dwScale; - 32
   le32 0, -- dwRate; rate - updated on close - 33
   le32 0, -- dwStart; - 34
   le32 0, -- dwLength; length - updated on close - 35
   le32 0, -- dwSuggestedBufferSize; - 36
   le32 10000, -- dwQuality; - 37
   le32 0, -- dwSampleSize; - 38
   le16 0 ++ le16 0, -- left; top; - 39
   le16 0 ++ le16 0, -- right; bottom; - 40
   fourcc 's' 't' 'r' 'f', -- 41
   le32 40, -- 42
   le32 40, -- biSize; - 43
   le32 (uint32 width), -- biWidth; - 44
   le32 (uint32 height), -- biHeight; - 45
   le16 1 ++ le16 24, -- biPlanes; biBitCount; - 46
   fourcc 'M' 'J' 'P' 'G', -- biCompression; - 47
   le32 0, -- biSizeImage; - 48
   le32 0, -- biXPelsPerMeter; - 49
   le32 0, -- biYPelsPerMeter; - 50
   le32 0, -- biClrUsed; - 51
   le32 0, -- biClrImportant; - 52
   fourcc 'L' 'I' 'S' 'T', -- 53
   le32 0, -- movi - updated on close - 54
   fourcc 'm' 'o' 'v' 'i'] -- 55

def mjpegOpen (fp : WFil) (width height : ℤ) : WFil := (mjpegHeader width height).foldl writeData fp

/-! ### Frames -/

/-- The file, the counters kept with it, and the tables `jpeg_compress` works with. -/
structure Mjpeg where
  fp : WFil
  frames : ℕ
  bytes : ℕ
  tables : QuantTables

/-- A frame: JPEG data, whose size is an `int`, or an image with the buffer `fb_alloc_all` has for it. -/
inductive Frame where
  | jpeg (data : List UInt8) (isJpeg : 4 ≤ data.length) (isInt : data.length < 2147483648)
  | image (src : Source) (groups : List (List DataUnit)) (size : ℕ) (isInt : size < 2147483648)

/-- `(((bpp + 3) / 4) * 4) - bpp` -/
def framePad (bpp : ℤ) : ℤ := int32 (int32 ((int32 (bpp + 3)).tdiv 4 * 4) - bpp)

/-- Size and data of a frame of `bpp` bytes at `mem`; reading past them is okay. -/
def writeFrame (m : Mjpeg) (bpp : ℕ) (mem : ℕ → UInt8) : Mjpeg :=
  let size := uint32 (int32 (bpp + framePad bpp))
  { m with
    fp := writeData (writeLong m.fp size) ((List.range size).map mem)
    bytes := (m.bytes + size) % 4294967296 }

/-- `past` is what is in memory behind the data. A buffer that is too small is outside of the heap, and
    `xrealloc` fails. -/
def mjpegAddFrame (m : Mjpeg) (frame : Frame) (quality : ℕ) (past : ℕ → UInt8) :
    Except FileError Mjpeg :=
  let m := { m with fp := writeData m.fp (fourcc '0' '0' 'd' 'c'), frames := (m.frames + 1) % 4294967296 }
  match frame with
  | .jpeg data _ _ => .ok (writeFrame m data.length fun k => data.getD k (past k))
  | .image src groups size _ =>
    let r := jpegCompress m.tables src groups size quality true
    if r.1.length ≠ size then .error .noMemory
    else
      .ok (writeFrame { m with tables := jpegInit m.tables quality }
        (if r.2 then r.1.buf.length else size) fun k => r.1.buf.getD k (past k))

/-- A call of `mjpeg_add_frame` with what is in memory behind the data. -/
structure Shot where
  frame : Frame
  quality : ℕ
  past : ℕ → UInt8

def mjpegAddFrames : Mjpeg → List Shot → Except FileError Mjpeg
  | m, [] => .ok m
  | m, s :: ss =>
    match mjpegAddFrame m s.frame s.quality s.past with
    | .ok m => mjpegAddFrames m ss
    | .error e => .error e

/-! ### Closing -/

/-- What `fast_roundf` makes of the numbers that depend on `fps`. -/
structure Fps where
  /-- `fps` -/
  rounded : ℤ
  /-- `1000000 / fps` -/
  micros : ℤ
  /-- `(total * fps) / frames` -/
  perSecond : ℕ → ℕ → ℤ
  /-- `fps * 1000` -/
  rate : ℤ
  /-- `thousands / fps` -/
  length : ℕ → ℤ

def Fps.microsField (fps : Fps) : ℕ := if fps.rounded = 0 then 0 else uint32 fps.micros

def Fps.perSecondField (fps : Fps) (frames bytes : ℕ) : ℕ :=
  if frames = 0 then 0 else uint32 (fps.perSecond ((frames * 8 + bytes) % 4294967296) frames)

def Fps.lengthField (fps : Fps) (frames : ℕ) : ℕ :=
  if fps.rounded = 0 then 0 else uint32 (fps.length (frames * 1000 % 4294967296))

def mjpegClose (m : Mjpeg) (fps : Fps) : WFil :=
  let fp := writeLong (fileSeek m.fp (1 * 4)) (216 + m.frames * 8 + m.bytes)
  let fp := writeLong (fileSeek fp (8 * 4)) fps.microsField
  let fp := writeLong fp (fps.perSecondField m.frames m.bytes)
  let fp := writeLong (fileSeek fp (12 * 4)) m.frames
  let fp := writeLong (fileSeek fp (19 * 4)) (uint32 fps.rate)
  let fp := writeLong (fileSeek fp (21 * 4)) (fps.lengthField m.frames)
  let fp := writeLong (fileSeek fp (33 * 4)) (uint32 fps.rate)
  let fp := writeLong (fileSeek fp (35 * 4)) (fps.lengthField m.frames)
  writeLong (fileSeek fp (54 * 4)) (4 + m.frames * 8 + m.bytes)

end OpenMV.Io
