import Mathlib.Data.Int.Notation
import OpenMV.Schemes.Run

/-! Camera sensor | scheme:state-machine | source:src/src/openmv/omv/sensor.c

    The sensor layer keeps the pixel format and the frame geometry in several places: `sensor`, the
    camera bus inside it, and the main frame buffer. The setters and the snapshot are steps on all of
    them; what the sensor driver and the capture answer is part of the input. -/

namespace OpenMV.Sensor
open Schemes

/-! ### State -/

inductive PixFormat where
  | invalid
  | binary
  | grayscale
  | rgb565
  | yuv422
  | bayer
  | jpeg
  /-- Any other number a script passes. -/
  | other (n : ℕ)
deriving DecidableEq, Repr

/-- `omvhal_cambus_t` -/
structure Cambus where
  pixformat : PixFormat
  width : ℕ
  height : ℕ
deriving DecidableEq, Repr

/-- `framebuffer_t`; its pixels are the whole of `g_fb_buf`. -/
structure Framebuffer where
  x : ℤ
  y : ℤ
  w : ℤ
  h : ℤ
  u : ℤ
  v : ℤ
  bpp : ℤ
  bufsz : ℕ
deriving DecidableEq, Repr

/-- `sensor_t` and the main frame buffer. `hung` says that a loop of the code was not left. -/
structure State where
  pixformat : PixFormat
  framesize : ℕ
  transpose : Bool
  autoRotation : Bool
  cambus : Cambus
  fb : Framebuffer
  hung : Bool
deriving DecidableEq, Repr

/-- `OMV_RAW_BUF_SIZE`; the buffer is twice as long. -/
def rawBufSize : ℕ := 409600

def fbBufSize : ℕ := rawBufSize * 2

/-- The static data at start. -/
def boot : State where
  pixformat := .invalid
  framesize := 0
  transpose := false
  autoRotation := false
  cambus := ⟨.invalid, 0, 0⟩
  fb := ⟨0, 0, 0, 0, 0, 0, 0, rawBufSize⟩
  hung := false

def resolution : List (ℕ × ℕ) :=
  [(0, 0), (88, 72), (176, 144), (352, 288), (88, 60), (176, 120), (352, 240), (40, 30), (80, 60),
   (160, 120), (320, 240), (640, 480), (60, 40), (120, 80), (240, 160), (64, 32), (64, 64), (128, 64),
   (128, 128), (128, 160), (128, 160), (720, 480), (752, 480), (800, 600), (1024, 768), (1280, 1024),
   (1600, 1200), (1280, 720), (1920, 1080), (2560, 1440), (2048, 1536), (2560, 1600), (2592, 1944)]

/-- What is not decided by the code itself: the memory behind the table `resolution` (there are more
    frame sizes than rows), the steps of the crop that are found in floating point, and the number of
    rounds after which its loop counts as hung. -/
structure Env where
  beyond : ℕ → ℕ × ℕ
  cropSub : ℤ → ℤ → ℤ × ℤ
  cropFuel : ℕ

/-- `resolution[framesize]` -/
def Env.res (env : Env) (framesize : ℕ) : ℕ × ℕ := (resolution[framesize]?).getD (env.beyond framesize)

/-- A comparison of a product of `int`s with a `uint32_t`. -/
def exceeds (n : ℤ) (size : ℕ) : Prop := n % 4294967296 > size

instance (n : ℤ) (size : ℕ) : Decidable (exceeds n size) := inferInstanceAs (Decidable (_ < _))

/-! ### Camera bus -/

/-- The formats the DVP has a mode for. -/
def Supported (f : PixFormat) : Prop := f = .rgb565 ∨ f = .yuv422 ∨ f = .grayscale

instance (f : PixFormat) : Decidable (Supported f) := inferInstanceAs (Decidable (_ ∨ _))

/-- The format goes into the bus whether or not there is a mode for it. The second result is the format
    as the caller gets it back. -/
def cambusSetPixformat (bus : Cambus) : PixFormat → Cambus × PixFormat × ℤ
  | .rgb565 => ({ bus with pixformat := .rgb565 }, .rgb565, 0)
  | .yuv422 => ({ bus with pixformat := .rgb565 }, .rgb565, 0)
  | .grayscale => ({ bus with pixformat := .grayscale }, .grayscale, 0)
  | f => ({ bus with pixformat := f }, f, -1)

def cambusSetImageSize (bus : Cambus) (width height : ℕ) : Cambus :=
  { bus with width := width, height := height }

/-- The memory a capture writes, as offsets into `g_fb_buf` and lengths: the picture, and the three
    planes behind it. -/
def captureRegions (bus : Cambus) : (ℕ × ℕ) × (ℕ × ℕ) :=
  ((0, bus.width * bus.height * 2), (rawBufSize, 3 * (bus.width * bus.height)))

/-! ### Setters -/

def cropped (env : Env) (s : State) : Prop :=
  s.fb.x ≠ 0 ∨ s.fb.y ≠ 0 ∨ s.fb.u ≠ (env.res s.framesize).1 ∨ s.fb.v ≠ (env.res s.framesize).2

instance (env : Env) (s : State) : Decidable (cropped env s) := inferInstanceAs (Decidable (_ ∨ _))

/-- `driver` is whether the sensor has a function for it that returns 0. -/
def sensorSetPixformat (env : Env) (s : State) (pixformat : PixFormat) (driver : Bool) : State × ℤ :=
  if s.pixformat = pixformat then (s, 0)
  else if s.pixformat = .bayer ∧ pixformat = .rgb565 ∧ exceeds (s.fb.u * s.fb.v * 2) s.fb.bufsz ∧
      ¬exceeds (s.fb.u * s.fb.v * 1) s.fb.bufsz then (s, 0)
  else if pixformat = .jpeg ∧ (cropped env s ∨ s.transpose ∨ s.autoRotation) then (s, -1)
  else if driver = false then (s, -1)
  else
    let (bus, pixformat, ret) := cambusSetPixformat s.cambus pixformat
    if ret ≠ 0 then ({ s with cambus := bus }, -1)
    else ({ s with cambus := bus, pixformat := pixformat, fb := { s.fb with bpp := -1 } }, 0)

def sensorSetFramesize (env : Env) (s : State) (framesize : ℕ) (driver : Bool) : State × ℤ :=
  if s.framesize = framesize then (s, 0)
  else if driver = false then (s, -1)
  else
    let (w, h) := env.res framesize
    ({ s with
        cambus := cambusSetImageSize s.cambus w h
        framesize := framesize
        fb := { s.fb with bpp := -1, x := 0, y := 0, w := w, u := w, h := h, v := h } }, 0)

def sensorSetWindowing (s : State) (x y w h : ℤ) : State × ℤ :=
  if s.pixformat = .jpeg then (s, -1)
  else
    ({ s with fb := { s.fb with
        x := x / 2 * 2, y := y / 2 * 2, w := w / 2 * 2, u := w / 2 * 2, h := h / 2 * 2, v := h / 2 * 2 } }, 0)

/-- The checks of `py_sensor_set_windowing`: without them it raises. -/
def windowAllowed (env : Env) (s : State) (x y w h : ℤ) : Prop :=
  8 ≤ w ∧ 8 ≤ h ∧ 0 ≤ x ∧ x + w ≤ (env.res s.framesize).1 ∧ 0 ≤ y ∧ y + h ≤ (env.res s.framesize).2

instance (env : Env) (s : State) (x y w h : ℤ) : Decidable (windowAllowed env s x y w h) :=
  inferInstanceAs (Decidable (_ ∧ _))

def sensorSetTranspose (s : State) (enable : Bool) : State × ℤ :=
  if s.pixformat = .jpeg then (s, -1) else ({ s with transpose := enable }, 0)

def sensorSetAutoRotation (s : State) (enable : Bool) : State × ℤ :=
  if s.pixformat = .jpeg then (s, -1) else ({ s with autoRotation := enable }, 0)

/-- `sensor_init` clears the whole of `sensor`, the bus with it; the frame buffer stays. -/
def sensorReset (s : State) : State :=
  { s with
    pixformat := .invalid, framesize := 0, transpose := false, autoRotation := false
    cambus := ⟨.invalid, 0, 0⟩ }

/-! ### Snapshot -/

/-- Crop the frame buffer while keeping the aspect ratio and keeping the width/height even. -/
def cropLoop (bpp : ℤ) (size : ℕ) (sub : ℤ × ℤ) : ℕ → ℤ × ℤ → Option (ℤ × ℤ)
  | 0, _ => none
  | fuel + 1, (u, v) =>
    if exceeds (u * v * bpp) size ∨ u % 2 ≠ 0 ∨ v % 2 ≠ 0 then
      cropLoop bpp size sub fuel (u - sub.1, v - sub.2)
    else some (u, v)

/-- Center the new window using the previous offset and keep the offset even. -/
def center (offset window cropped : ℤ) : ℤ :=
  let x := offset + (window - cropped).tdiv 2
  if x.tmod 2 ≠ 0 then x - 1 else x

def crop (env : Env) (s : State) (bpp : ℤ) : State :=
  match cropLoop bpp s.fb.bufsz (env.cropSub s.fb.u s.fb.v) env.cropFuel (s.fb.u, s.fb.v) with
  | none => { s with hung := true }
  | some (u, v) =>
    { s with fb := { s.fb with u := u, v := v, x := center s.fb.x s.fb.u u, y := center s.fb.y s.fb.v v } }

/-- The bytes per pixel `sensor_check_buffsize` reckons with. -/
def checkBpp : PixFormat → Option ℤ
  | .grayscale | .bayer => some 1
  | .rgb565 | .yuv422 => some 2
  | _ => none

/-- The result of the inner `sensor_set_pixformat` is not looked at. -/
def sensorCheckBuffsize (env : Env) (s : State) (driver : Bool) : State :=
  match checkBpp s.pixformat with
  | none => s
  | some bpp =>
    if ¬exceeds (s.fb.u * s.fb.v * bpp) s.fb.bufsz then s
    else if s.pixformat = .rgb565 then
      let s := (sensorSetPixformat env s .bayer driver).1
      if ¬exceeds (s.fb.u * s.fb.v) s.fb.bufsz then s else crop env s 1
    else crop env s bpp

/-- The image a snapshot returns. -/
structure Snapshot where
  w : ℤ
  h : ℤ
  bpp : ℤ
deriving DecidableEq, Repr

def imageSize (img : Snapshot) : ℤ :=
  if img.bpp < 0 then 0
  else if img.bpp = 0 then (img.w + 31) / 32 * 4 * img.h
  else if img.bpp = 1 then img.w * img.h
  else if img.bpp = 2 then img.w * 2 * img.h
  else if img.bpp = 3 then img.w * img.h
  else img.bpp

/-- Fix the BPP. -/
def fixBpp (bpp : ℤ) : PixFormat → ℤ
  | .grayscale => 1
  | .yuv422 | .rgb565 => 2
  | .bayer => 3
  | _ => bpp

/-- The image if 0 is returned; `capture` is whether the frame arrives in time. -/
def sensorSnapshot (env : Env) (s : State) (driver capture : Bool) : State × Option Snapshot :=
  let s := sensorCheckBuffsize env s driver
  if s.hung then (s, none)
  else if capture = false then (s, none)
  else
    let bpp := fixBpp s.fb.bpp s.pixformat
    ({ s with fb := { s.fb with bpp := bpp } }, some ⟨s.fb.w, s.fb.h, bpp⟩)

/-! ### Runs -/

inductive Event where
  | setPixformat (pixformat : PixFormat) (driver : Bool)
  | setFramesize (framesize : ℕ) (driver : Bool)
  | setWindowing (x y w h : ℤ)
  | setTranspose (enable : Bool)
  | setAutoRotation (enable : Bool)
  | reset
  | snapshot (driver capture : Bool)
deriving DecidableEq, Repr

def step (env : Env) (s : State) (e : Event) : State :=
  if s.hung then s
  else match e with
    | .setPixformat f driver => (sensorSetPixformat env s f driver).1
    | .setFramesize n driver => (sensorSetFramesize env s n driver).1
    | .setWindowing x y w h => if windowAllowed env s x y w h then (sensorSetWindowing s x y w h).1 else s
    | .setTranspose enable => (sensorSetTranspose s enable).1
    | .setAutoRotation enable => (sensorSetAutoRotation s enable).1
    | .reset => sensorReset s
    | .snapshot driver capture => (sensorSnapshot env s driver capture).1

end OpenMV.Sensor
