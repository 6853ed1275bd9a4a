import OpenMV.Schemes.Bytes

/-! JPEG framebuffer | scheme:lock | source:src/src/openmv/omv/framebuffer.c,
    src/src/openmv/omv/hal/k210/omvhal-mutex.c, src/src/openmv/omv/mutex.h

    The frame the IDE previews lies in one buffer, shared between the interpreter's thread, which
    stores a new frame after every snapshot, and the debugger's thread, which sends it. A try-lock
    keeps them apart. `fb_update_jpeg_buffer` is not one step: between taking the lock and giving it
    back it makes one memory write after the other, and the debugger may run between any two. So the
    update is given as the list of writes it makes. -/

namespace OpenMV.Debug
open Schemes

/-! ### The lock -/

/-- `omvhal_mutex_t`. -/
structure Mutex where
  lock : ℕ
  tid : ℕ
  deriving DecidableEq, Repr

def MUTEX_TID_IDE : ℕ := 1
def MUTEX_TID_OMV : ℕ := 2

def Mutex.free : Mutex := ⟨0, 0⟩

/-- `mutex_unlock`. -/
def mutexUnlock (m : Mutex) (tid : ℕ) : Mutex := if m.tid = tid then ⟨0, 0⟩ else m

/-- `mutex_try_lock`: the owner who tries again gives the lock back. -/
def mutexTryLock (m : Mutex) (tid : ℕ) : Bool × Mutex :=
  if m.tid = tid then (false, mutexUnlock m tid)
  else if m.lock = 0 then (true, ⟨1, tid⟩)
  else (false, m)

/-! ### The buffer -/

def OMV_JPEG_BUF_SIZE : ℕ := 32 * 1024
def CONSERVATIVE_JPEG_BUF_SIZE : ℕ := OMV_JPEG_BUF_SIZE - 64
def JPEG_QUALITY_THRESH : ℤ := 1920 * 1080 * 2
def JPEG_QUALITY_LOW : ℤ := 50
def JPEG_QUALITY_HIGH : ℤ := 90

/-- `jpegbuffer_t`; `pixels` is the memory behind the pointer. -/
structure JpegFb where
  w : ℤ
  h : ℤ
  size : ℤ
  enabled : ℕ
  quality : ℤ
  lock : Mutex
  pixels : ℕ → UInt8

def JpegFb.init : JpegFb := ⟨0, 0, 0, 0, 0, Mutex.free, fun _ => 0⟩

/-- The `n` bytes of the frame from `start` on. -/
def JpegFb.slice (fb : JpegFb) (start n : ℕ) : List UInt8 :=
  (List.range n).map (fun i => fb.pixels (start + i))

/-- One memory write of `fb_update_jpeg_buffer`. -/
inductive Write where
  | w (v : ℤ)
  | h (v : ℤ)
  | size (v : ℤ)
  | quality (v : ℤ)
  | pixel (i : ℕ) (b : UInt8)
  deriving DecidableEq

def Write.apply (fb : JpegFb) : Write → JpegFb
  | .w v => { fb with w := v }
  | .h v => { fb with h := v }
  | .size v => { fb with size := v }
  | .quality v => { fb with quality := v }
  | .pixel i b => { fb with pixels := Function.update fb.pixels i b }

/-- `memcpy(pixels, bytes, n)`, and the stores of `jpeg_compress`: the bytes from the first on. -/
def pixelWrites (bytes : List UInt8) : List Write :=
  bytes.zipIdx.map (fun x => .pixel x.2 x.1)

/-- `initialize_jpeg_buf_from_image`. -/
def headerWrites (w h size : ℤ) : List Write := [.w w, .h h, .size size]

/-! ### The update -/

/-- What a call of `fb_update_jpeg_buffer` finds in the main framebuffer: the image, and the bytes
    `jpeg_compress` makes of it when it is not compressed yet. `fits` is what `jpeg_put_char` and
    `jpeg_put_bytes` check before they store: without overflow the last byte is below the end. -/
structure Job where
  streamingEnabled : Bool
  w : ℤ
  h : ℤ
  bpp : ℤ
  pixels : List UInt8
  imageSize : ℤ
  compressed : List UInt8
  overflow : Bool
  src : 3 < bpp → (pixels.length : ℤ) = bpp
  fits : overflow = false → compressed.length < CONSERVATIVE_JPEG_BUF_SIZE

/-- `jpeg_framebuffer->quality` and `overflow_count` after the compression. -/
def nextQuality (j : Job) (quality : ℤ) (overflowCount : ℕ) : ℤ × ℕ :=
  if j.overflow then
    if 1 < quality then (max 1 (quality / 2), 60) else (quality, overflowCount)
  else
    let c := overflowCount - 1
    let top := if j.imageSize > JPEG_QUALITY_THRESH then JPEG_QUALITY_LOW else JPEG_QUALITY_HIGH
    (if c = 0 ∧ quality < top then quality + 1 else quality, c)

/-- The writes of a call that got the lock, in order. -/
def updateWrites (j : Job) (quality : ℤ) (overflowCount : ℕ) : List Write :=
  if 3 < j.bpp then
    if (CONSERVATIVE_JPEG_BUF_SIZE : ℤ) < j.bpp then headerWrites 0 0 0
    else headerWrites j.w j.h j.bpp ++ pixelWrites j.pixels
  else
    pixelWrites j.compressed ++ .quality (nextQuality j quality overflowCount).1 ::
      (if j.overflow then headerWrites 0 0 0 else headerWrites j.w j.h j.compressed.length)

/-- A frame as one update stored it. -/
structure Frame where
  w : ℤ
  h : ℤ
  bytes : List UInt8

/-- The frame a call that got the lock stores; `none` when it leaves an empty header instead. -/
def Job.frame (j : Job) : Option Frame :=
  if 3 < j.bpp then
    if (CONSERVATIVE_JPEG_BUF_SIZE : ℤ) < j.bpp then none else some ⟨j.w, j.h, j.pixels⟩
  else if j.overflow then none
  else some ⟨j.w, j.h, j.compressed⟩

end OpenMV.Debug
