import Mathlib.Algebra.Group.Int.Defs
import Mathlib.Algebra.Group.Nat.Defs
import Mathlib.Data.Int.Notation
import OpenMV.Jpeg.Tables

/-! JPEG encoder | scheme:codec | source:src/src/openmv/omv/img/jpeg.c

    The output side of `jpeg_compress`: the byte buffer with its overflow flag, the bit buffer, the
    run-length and Huffman coding of a data unit, the header segments, and the order in which all
    this is written. The pixels come in as the quantised coefficients of the data units; fetching
    them, the DCT and the quantisation in `float` are not modelled. -/

namespace OpenMV.Jpeg

/-! ### The buffer -/

/-- `jpeg_buf_t`. `buf` holds the bytes stored so far, so `idx` is its length. -/
structure JpegBuf where
  buf : List UInt8
  length : ℕ
  bitc : ℕ
  bitb : ℕ
  realloc : Bool
  overflow : Bool
deriving DecidableEq, Repr

/-- Both writers give up without storing anything when the data does not fit and the buffer may not
    be moved. -/
def jpegPutBytes (b : JpegBuf) (data : List UInt8) : JpegBuf :=
  if b.buf.length + data.length ≥ b.length then
    if b.realloc = false then { b with overflow := true }
    else { b with length := b.length + 1024, buf := b.buf ++ data }
  else { b with buf := b.buf ++ data }

def jpegPutChar (b : JpegBuf) (c : UInt8) : JpegBuf := jpegPutBytes b [c]

/-- The body of the loop of `jpeg_writeBits`: the next eight bits go out, with a zero byte after
    0xFF. -/
def jpegShiftOut (b : JpegBuf) : JpegBuf :=
  let c := UInt8.ofNat ((b.bitb >>> 16) % 256)
  let b := jpegPutChar b c
  let b := if c = 255 then jpegPutChar b 0 else b
  { b with bitb := (b.bitb <<< 8) % 2 ^ 32, bitc := b.bitc - 8 }

def jpegShiftOutLoop : ℕ → JpegBuf → JpegBuf
  | 0, b => b
  | n + 1, b => if b.bitc > 7 then jpegShiftOutLoop n (jpegShiftOut b) else b

/-- `bs` is the bit string as a pair of its value and its length. -/
def jpegWriteBits (b : JpegBuf) (bs : ℕ × ℕ) : JpegBuf :=
  let bitc := b.bitc + bs.2
  let b := { b with bitc := bitc, bitb := b.bitb ||| (bs.1 <<< (24 - bitc)) }
  jpegShiftOutLoop b.bitc b

/-- Huffman-encoded magnitude value. Not called with zero. -/
def jpegCalcBits (val : ℤ) : ℕ × ℕ :=
  let t1 := val.natAbs
  let val := if val < 0 then val - 1 else val
  let size := t1.log2 + 1
  ((val % 2 ^ size).toNat, size)

/-! ### A data unit -/

/-- The AC part of `jpeg_processDU`: the bit strings written for the coefficients from `i` to
    `end0pos` when `nrzeroes` zeroes have been passed. -/
def acStrings (HTAC : List (ℕ × ℕ)) : ℕ → List ℤ → List (ℕ × ℕ)
  | _, [] => []
  | nrzeroes, c :: cs =>
    if c = 0 then acStrings HTAC (nrzeroes + 1) cs
    else
      let bits := jpegCalcBits c
      List.replicate (nrzeroes / 16) (HTAC.getD 0xF0 (0, 0)) ++
        [HTAC.getD (nrzeroes % 16 * 16 + bits.2) (0, 0), bits] ++ acStrings HTAC 0 cs

/-- The DC part: the difference to the last DC value of the component. -/
def dcStrings (HTDC : List (ℕ × ℕ)) (diff : ℤ) : List (ℕ × ℕ) :=
  if diff = 0 then [HTDC.getD 0 (0, 0)]
  else [HTDC.getD (jpegCalcBits diff).2 (0, 0), jpegCalcBits diff]

/-- First non-zero element in reverse order. -/
def end0pos (DUQ : List ℤ) : ℕ :=
  sJpegZigZag.foldl (fun e z => if z > e ∧ DUQ.getD z 0 ≠ 0 then z else e) 0

/-- All bit strings `jpeg_processDU` writes for the quantised coefficients `DUQ` (in zigzag order). -/
def duStrings (DUQ : List ℤ) (DC : ℤ) (HTDC HTAC : List (ℕ × ℕ)) : List (ℕ × ℕ) :=
  let e := end0pos DUQ
  let eob := HTAC.getD 0x00 (0, 0)
  dcStrings HTDC (DUQ.getD 0 0 - DC) ++
    if e = 0 then [eob]
    else acStrings HTAC 0 ((DUQ.take (e + 1)).drop 1) ++ if e ≠ 63 then [eob] else []

/-- `jpeg_processDU` from the quantised coefficients on; returns the new DC value. -/
def jpegProcessDU (b : JpegBuf) (DUQ : List ℤ) (DC : ℤ) (HTDC HTAC : List (ℕ × ℕ)) : JpegBuf × ℤ :=
  ((duStrings DUQ DC HTDC HTAC).foldl jpegWriteBits b, DUQ.getD 0 0)

/-! ### The quantisation tables -/

/-- The static tables and the transformed quality they were made for. -/
structure QuantTables where
  q : ℕ
  yTable : List UInt8
  uvTable : List UInt8
  yTable_length : yTable.length = 64
  uvTable_length : uvTable.length = 64

def scaleTable (qt : List ℕ) (quality : ℕ) (t : List UInt8) : List UInt8 :=
  (List.range 64).foldl (fun t i =>
    t.set (sJpegZigZag.getD i 0) (UInt8.ofNat (max 1 (min 255 ((qt.getD i 0 * quality + 50) / 100))))) t

theorem length_scaleTable (qt : List ℕ) (quality : ℕ) (t : List UInt8) :
    (scaleTable qt quality t).length = t.length := by
  unfold scaleTable
  induction List.range 64 generalizing t with
  | nil => rfl
  | cons i is ih => rw [List.foldl_cons, ih, List.length_set]

/-- If the quality changed, update the quantisation matrices. -/
def jpegInit (t : QuantTables) (quality : ℕ) : QuantTables :=
  let quality := if quality < 50 then 5000 / quality else 200 - quality * 2
  if t.q ≠ quality then
    { q := quality
      yTable := scaleTable yqt quality t.yTable
      uvTable := scaleTable uvqt quality t.uvTable
      yTable_length := (length_scaleTable _ _ _).trans t.yTable_length
      uvTable_length := (length_scaleTable _ _ _).trans t.uvTable_length }
  else t

/-! ### The headers -/

/-- A length or a size as its two bytes, most significant first. -/
def word (n : ℕ) : List UInt8 := [UInt8.ofNat (n / 256), UInt8.ofNat (n % 256)]

def jpegWriteHeaders (b : JpegBuf) (w h bpp : ℕ) (jpegSubsample : UInt8) (t : QuantTables) : JpegBuf :=
  let nrComp := if bpp = 1 then 1 else 3
  let b := jpegPutBytes b [0xFF, 0xD8]
  let b := jpegPutBytes b ([0xFF, 0xE0] ++
    [0x00, 0x10, 74, 70, 73, 70, 0x00, 0x01, 0x01, 0x00, 0x00, 0x01, 0x00, 0x01, 0x00, 0x00])
  -- DQT
  let b := jpegPutBytes b ([0xFF, 0xDB] ++ word (bpp * 65 + 2))
  let b := jpegPutChar b 0
  let b := jpegPutBytes b t.yTable
  let b := if bpp > 1 then jpegPutBytes (jpegPutChar b 1) t.uvTable else b
  -- SOF0
  let b := jpegPutBytes b ([0xFF, 0xC0] ++ word (nrComp * 3 + 8) ++ [0x08] ++ word h ++ word w ++
    [UInt8.ofNat nrComp])
  let b := (List.range nrComp).foldl (fun b i => jpegPutBytes b
    [UInt8.ofNat (i + 1), if i = 0 ∧ bpp = 2 then jpegSubsample else 0x11, if i > 0 then 1 else 0]) b
  -- DHT
  let b := jpegPutBytes b ([0xFF, 0xC4] ++ word (bpp * 208 + 2))
  let b := jpegPutChar b 0x00
  let b := jpegPutBytes b (stdDcLuminanceNrcodes.drop 1)
  let b := jpegPutBytes b stdDcLuminanceValues
  let b := jpegPutChar b 0x10
  let b := jpegPutBytes b (stdAcLuminanceNrcodes.drop 1)
  let b := jpegPutBytes b stdAcLuminanceValues
  let b := if bpp > 1 then
      let b := jpegPutChar b 0x01
      let b := jpegPutBytes b (stdDcChrominanceNrcodes.drop 1)
      let b := jpegPutBytes b stdDcChrominanceValues
      let b := jpegPutChar b 0x11
      let b := jpegPutBytes b (stdAcChrominanceNrcodes.drop 1)
      jpegPutBytes b stdAcChrominanceValues
    else b
  -- SOS
  let b := jpegPutBytes b ([0xFF, 0xDA] ++ word (nrComp * 2 + 6) ++ [UInt8.ofNat nrComp])
  let b := (List.range nrComp).foldl (fun b i => jpegPutBytes b
    [UInt8.ofNat (i + 1), if i = 0 then 0x00 else 0x11]) b
  jpegPutBytes b [0x00, 0x3F, 0x00]

/-! ### The stream -/

inductive Comp where
  | y
  | u
  | v
deriving DecidableEq, Repr

/-- A component and the 64 quantised coefficients of one of its blocks, in zigzag order. -/
abbrev DataUnit := Comp × List ℤ

/-- The buffer and the last DC value of each component. -/
structure EncState where
  buf : JpegBuf
  DCY : ℤ
  DCU : ℤ
  DCV : ℤ

/-- The component's own tables and DC value are used. -/
def encodeUnit (s : EncState) (u : DataUnit) : EncState :=
  match u.1 with
  | .y => let r := jpegProcessDU s.buf u.2 s.DCY ydcHT yacHT; { s with buf := r.1, DCY := r.2 }
  | .u => let r := jpegProcessDU s.buf u.2 s.DCU uvdcHT uvacHT; { s with buf := r.1, DCU := r.2 }
  | .v => let r := jpegProcessDU s.buf u.2 s.DCV uvdcHT uvacHT; { s with buf := r.1, DCV := r.2 }

def encodeUnits (s : EncState) (us : List DataUnit) : EncState := us.foldl encodeUnit s

/-- The data units in the groups after which the overflow flag is tested: a row of blocks, or one
    block for Bayer images without subsampling. The flag says whether the end was reached. -/
def encodeGroups : EncState → List (List DataUnit) → EncState × Bool
  | s, [] => (s, true)
  | s, g :: gs =>
    let s := encodeUnits s g
    if s.buf.overflow then (s, false) else encodeGroups s gs

/-- Bits 0x7F of length 7, which fill the last byte. -/
def fillBits : ℕ × ℕ := (0x7F, 7)

structure Source where
  w : ℕ
  h : ℕ
  bpp : ℕ

def subsample (quality : ℕ) : UInt8 := if quality ≥ 60 then 0x11 else if quality > 35 then 0x21 else 0x22

/-- The number of bytes per pixel the headers are written for. -/
def headerBpp (bpp : ℕ) : ℕ := if bpp = 3 then 2 else if bpp = 0 then 1 else bpp

/-- `jpeg_compress` of an image whose data units are `groups`, into a buffer of `length` bytes. The
    result is the buffer, and whether `dst` was set to it. -/
def jpegCompress (t : QuantTables) (src : Source) (groups : List (List DataUnit)) (length quality : ℕ)
    (realloc : Bool) : JpegBuf × Bool :=
  let t := jpegInit t quality
  let b : JpegBuf := ⟨[], length, 0, 0, realloc, false⟩
  let b := jpegWriteHeaders b src.w src.h (headerBpp src.bpp) (subsample quality) t
  match encodeGroups ⟨b, 0, 0, 0⟩ groups with
  | (s, false) => (s.buf, false)
  | (s, true) => (jpegPutChar (jpegPutChar (jpegWriteBits s.buf fillBits) 0xFF) 0xD9, true)

end OpenMV.Jpeg
