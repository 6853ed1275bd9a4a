import Mathlib.Data.Int.Order.Basic
import Mathlib.Data.List.Nodup
import OpenMV.Schemes.ByteBits
import OpenMV.Vision.QrCorrect

/-! The cells of QR codes | scheme:sweep | source:src/src/openmv/omv/img/qrcode.c

    The format is read from one of two places. The data cells are read in two columns at a time, up and down in turn,
    from the right to the left; cells that belong to the patterns are left out, and the mask is taken away. -/

namespace OpenMV.Vision
open Schemes

/-! ### The code -/

/-- `struct quirc_version_info` -/
structure VersionInfo where
  dataBytes : ℕ
  apat : List ℕ
  ecc : List RsParams

def quircMaxVersion : ℕ := 40
def quircMaxAlignment : ℕ := 7

/-- The alignment patterns end with a 0; the rest of the array is 0, too. -/
def quircVersionDb : List VersionInfo :=
  [⟨0, [], []⟩,
   ⟨26, [0], [⟨26, 16, 1⟩, ⟨26, 19, 1⟩, ⟨26, 9, 1⟩, ⟨26, 13, 1⟩]⟩,
   ⟨44, [6, 18, 0], [⟨44, 28, 1⟩, ⟨44, 34, 1⟩, ⟨44, 16, 1⟩, ⟨44, 22, 1⟩]⟩,
   ⟨70, [6, 22, 0], [⟨70, 44, 1⟩, ⟨70, 55, 1⟩, ⟨35, 13, 2⟩, ⟨35, 17, 2⟩]⟩,
   ⟨100, [6, 26, 0], [⟨50, 32, 2⟩, ⟨100, 80, 1⟩, ⟨25, 9, 4⟩, ⟨50, 24, 2⟩]⟩,
   ⟨134, [6, 30, 0], [⟨67, 43, 2⟩, ⟨134, 108, 1⟩, ⟨33, 11, 2⟩, ⟨33, 15, 2⟩]⟩,
   ⟨172, [6, 34, 0], [⟨43, 27, 4⟩, ⟨86, 68, 2⟩, ⟨43, 15, 4⟩, ⟨43, 19, 4⟩]⟩,
   ⟨196, [6, 22, 38, 0], [⟨49, 31, 4⟩, ⟨98, 78, 2⟩, ⟨39, 13, 4⟩, ⟨32, 14, 2⟩]⟩,
   ⟨242, [6, 24, 42, 0], [⟨60, 38, 2⟩, ⟨121, 97, 2⟩, ⟨40, 14, 4⟩, ⟨40, 18, 4⟩]⟩,
   ⟨292, [6, 26, 46, 0], [⟨58, 36, 3⟩, ⟨146, 116, 2⟩, ⟨36, 12, 4⟩, ⟨36, 16, 4⟩]⟩,
   ⟨346, [6, 28, 50, 0], [⟨69, 43, 4⟩, ⟨86, 68, 2⟩, ⟨43, 15, 6⟩, ⟨43, 19, 6⟩]⟩,
   ⟨404, [6, 30, 54, 0], [⟨80, 50, 1⟩, ⟨101, 81, 4⟩, ⟨36, 12, 3⟩, ⟨50, 22, 4⟩]⟩,
   ⟨466, [6, 32, 58, 0], [⟨58, 36, 6⟩, ⟨116, 92, 2⟩, ⟨42, 14, 7⟩, ⟨46, 20, 4⟩]⟩,
   ⟨532, [6, 34, 62, 0], [⟨59, 37, 8⟩, ⟨133, 107, 4⟩, ⟨33, 11, 12⟩, ⟨44, 20, 8⟩]⟩,
   ⟨581, [6, 26, 46, 66, 0], [⟨64, 40, 4⟩, ⟨145, 115, 3⟩, ⟨36, 12, 11⟩, ⟨36, 16, 11⟩]⟩,
   ⟨655, [6, 26, 48, 70, 0], [⟨65, 41, 5⟩, ⟨109, 87, 5⟩, ⟨36, 12, 11⟩, ⟨54, 24, 5⟩]⟩,
   ⟨733, [6, 26, 50, 74, 0], [⟨73, 45, 7⟩, ⟨122, 98, 5⟩, ⟨45, 15, 3⟩, ⟨43, 19, 15⟩]⟩,
   ⟨815, [6, 30, 54, 78, 0], [⟨74, 46, 10⟩, ⟨135, 107, 1⟩, ⟨42, 14, 2⟩, ⟨50, 22, 1⟩]⟩,
   ⟨901, [6, 30, 56, 82, 0], [⟨69, 43, 9⟩, ⟨150, 120, 5⟩, ⟨42, 14, 2⟩, ⟨50, 22, 17⟩]⟩,
   ⟨991, [6, 30, 58, 86, 0], [⟨70, 44, 3⟩, ⟨141, 113, 3⟩, ⟨39, 13, 9⟩, ⟨47, 21, 17⟩]⟩,
   ⟨1085, [6, 34, 62, 90, 0], [⟨67, 41, 3⟩, ⟨135, 107, 3⟩, ⟨43, 15, 15⟩, ⟨54, 24, 15⟩]⟩,
   ⟨1156, [6, 28, 50, 72, 92, 0], [⟨68, 42, 17⟩, ⟨144, 116, 4⟩, ⟨46, 16, 19⟩, ⟨50, 22, 17⟩]⟩,
   ⟨1258, [6, 26, 50, 74, 98, 0], [⟨74, 46, 17⟩, ⟨139, 111, 2⟩, ⟨37, 13, 34⟩, ⟨54, 24, 7⟩]⟩,
   ⟨1364, [6, 30, 54, 78, 102, 0], [⟨75, 47, 4⟩, ⟨151, 121, 4⟩, ⟨45, 15, 16⟩, ⟨54, 24, 11⟩]⟩,
   ⟨1474, [6, 28, 54, 80, 106, 0], [⟨73, 45, 6⟩, ⟨147, 117, 6⟩, ⟨46, 16, 30⟩, ⟨54, 24, 11⟩]⟩,
   ⟨1588, [6, 32, 58, 84, 110, 0], [⟨75, 47, 8⟩, ⟨132, 106, 8⟩, ⟨45, 15, 22⟩, ⟨54, 24, 7⟩]⟩,
   ⟨1706, [6, 30, 58, 86, 114, 0], [⟨74, 46, 19⟩, ⟨142, 114, 10⟩, ⟨46, 16, 33⟩, ⟨50, 22, 28⟩]⟩,
   ⟨1828, [6, 34, 62, 90, 118, 0], [⟨73, 45, 22⟩, ⟨152, 122, 8⟩, ⟨45, 15, 12⟩, ⟨53, 23, 8⟩]⟩,
   ⟨1921, [6, 26, 50, 74, 98, 122, 0], [⟨73, 45, 3⟩, ⟨147, 117, 3⟩, ⟨45, 15, 11⟩, ⟨54, 24, 4⟩]⟩,
   ⟨2051, [6, 30, 54, 78, 102, 126, 0], [⟨73, 45, 21⟩, ⟨146, 116, 7⟩, ⟨45, 15, 19⟩, ⟨53, 23, 1⟩]⟩,
   ⟨2185, [6, 26, 52, 78, 104, 130, 0], [⟨75, 47, 19⟩, ⟨145, 115, 5⟩, ⟨45, 15, 23⟩, ⟨54, 24, 15⟩]⟩,
   ⟨2323, [6, 30, 56, 82, 108, 134, 0], [⟨74, 46, 2⟩, ⟨145, 115, 13⟩, ⟨45, 15, 23⟩, ⟨54, 24, 42⟩]⟩,
   ⟨2465, [6, 34, 60, 86, 112, 138, 0], [⟨74, 46, 10⟩, ⟨145, 115, 17⟩, ⟨45, 15, 19⟩, ⟨54, 24, 10⟩]⟩,
   ⟨2611, [6, 30, 58, 86, 114, 142, 0], [⟨74, 46, 14⟩, ⟨145, 115, 17⟩, ⟨45, 15, 11⟩, ⟨54, 24, 29⟩]⟩,
   ⟨2761, [6, 34, 62, 90, 118, 146, 0], [⟨74, 46, 14⟩, ⟨145, 115, 13⟩, ⟨46, 16, 59⟩, ⟨54, 24, 44⟩]⟩,
   ⟨2876, [6, 30, 54, 78, 102, 126, 150], [⟨75, 47, 12⟩, ⟨151, 121, 12⟩, ⟨45, 15, 22⟩, ⟨54, 24, 39⟩]⟩,
   ⟨3034, [6, 24, 50, 76, 102, 128, 154], [⟨75, 47, 6⟩, ⟨151, 121, 6⟩, ⟨45, 15, 2⟩, ⟨54, 24, 46⟩]⟩,
   ⟨3196, [6, 28, 54, 80, 106, 132, 158], [⟨74, 46, 29⟩, ⟨152, 122, 17⟩, ⟨45, 15, 24⟩, ⟨54, 24, 49⟩]⟩,
   ⟨3362, [6, 32, 58, 84, 110, 136, 162], [⟨74, 46, 13⟩, ⟨152, 122, 4⟩, ⟨45, 15, 42⟩, ⟨54, 24, 48⟩]⟩,
   ⟨3532, [6, 26, 54, 82, 110, 138, 166], [⟨75, 47, 40⟩, ⟨147, 117, 20⟩, ⟨45, 15, 10⟩, ⟨54, 24, 43⟩]⟩,
   ⟨3706, [6, 30, 58, 86, 114, 142, 170], [⟨75, 47, 18⟩, ⟨148, 118, 19⟩, ⟨45, 15, 20⟩, ⟨54, 24, 34⟩]⟩]

/-- `struct quirc_code` -/
structure QuircCode where
  size : ℤ
  cellBitmap : ℕ → BitVec 8

/-- `quirc_decode_error_t`, without success. -/
inductive QuircError where
  | invalidGridSize
  | invalidVersion
  | formatEcc
  | dataEcc
  | unknownDataType
  | dataOverflow
  | dataUnderflow
deriving DecidableEq, Repr

section Code
variable (code : QuircCode)

def gridBit (x y : ℤ) : Bool :=
  let p := (y * code.size + x).toNat
  (code.cellBitmap (p / 8)).getLsbD (p % 8)

def formatXs : List ℤ := [8, 8, 8, 8, 8, 8, 8, 8, 7, 5, 4, 3, 2, 1, 0]
def formatYs : List ℤ := [0, 1, 2, 3, 4, 5, 7, 8, 8, 8, 8, 8, 8, 8, 8]

/-- `(format << 1) | grid_bit(...)` for cells in a row. -/
def shiftIn (cells : List (ℤ × ℤ)) : BitVec 16 :=
  cells.foldl (fun format q => format <<< 1 ||| if gridBit code q.1 q.2 then 1#16 else 0#16) 0#16

/-- The cells that are read for the format, one after the other. -/
def formatCells (which : Bool) : List (ℤ × ℤ) :=
  if which then
    (List.range 7).map (fun (i : ℕ) => (8, code.size - 1 - i)) ++
      (List.range 8).map fun (i : ℕ) => (code.size - 8 + i, 8)
  else (List.range 15).reverse.map fun i => (formatXs.getD i 0, formatYs.getD i 0)

/-- The error correction level and the mask. -/
def readFormat (which : Bool) : Except QuircError (ℕ × ℕ) :=
  match correctFormat (shiftIn code (formatCells code which) ^^^ 0x5412#16) with
  | none => .error .formatEcc
  | some format =>
    let fdata := format.toNat >>> 10
    .ok (fdata >>> 3, fdata &&& 7)

/-- Row `i` and column `j` are not negative where this is called. -/
def maskBit (mask : ℕ) (i j : ℤ) : Bool :=
  match mask with
  | 0 => (i + j) % 2 = 0
  | 1 => i % 2 = 0
  | 2 => j % 3 = 0
  | 3 => (i + j) % 3 = 0
  | 4 => (i / 2 + j / 3) % 2 = 0
  | 5 => i * j % 2 + i * j % 3 = 0
  | 6 => (i * j % 2 + i * j % 3) % 2 = 0
  | 7 => (i * j % 3 + (i + j) % 2) % 2 = 0
  | _ => false

/-- The loop over the alignment patterns, with `ai`, `aj` and `a` as it is left. -/
def alignmentLoop (apat : List ℕ) (i j : ℤ) : ℕ → ℕ → ℤ → ℤ → ℤ × ℤ × ℤ
  | 0, a, ai, aj => (ai, aj, a)
  | fuel + 1, a, ai, aj =>
    let p := apat.getD a 0
    if p = 0 then (ai, aj, a)
    else alignmentLoop apat i j fuel (a + 1) (if ((p - i : ℤ)).natAbs < 3 then a else ai)
      (if ((p - j : ℤ)).natAbs < 3 then a else aj)

def reservedCell (version : ℕ) (i j : ℤ) : Bool :=
  let ver := quircVersionDb.getD version ⟨0, [], []⟩
  let size : ℤ := version * 4 + 17
  if i < 9 ∧ j < 9 then true
  else if i + 8 ≥ size ∧ j < 9 then true
  else if i < 9 ∧ j + 8 ≥ size then true
  else if i = 6 ∨ j = 6 then true
  else if version ≥ 7 ∧ i < 6 ∧ j + 11 ≥ size then true
  else if version ≥ 7 ∧ i + 11 ≥ size ∧ j < 6 then true
  else
    let (ai, aj, a) := alignmentLoop ver.apat i j quircMaxAlignment 0 (-1) (-1)
    if ai ≥ 0 ∧ aj ≥ 0 then
      let a := a - 1
      if ai > 0 ∧ ai < a then true
      else if aj > 0 ∧ aj < a then true
      else decide (aj = a ∧ ai = a)
    else false

/-- `raw` and `data_bits` of the stream. -/
structure RawStream where
  raw : ℕ → BitVec 8
  dataBits : ℕ

def RawStream.empty : RawStream := ⟨fun _ => 0#8, 0⟩

def readBit (mask : ℕ) (ds : RawStream) (i j : ℤ) : RawStream :=
  let bitpos := ds.dataBits % 8
  let bytepos := ds.dataBits / 8
  let v := gridBit code j i ^^ maskBit mask i j
  { raw := if v then Function.update ds.raw bytepos (ds.raw bytepos ||| 0x80#8 >>> bitpos) else ds.raw
    dataBits := ds.dataBits + 1 }

/-- A cell, unless it is reserved. -/
def readCell (version mask : ℕ) (ds : RawStream) (q : ℤ × ℤ) : RawStream :=
  if reservedCell version q.2 q.1 then ds else readBit code mask ds q.2 q.1

/-- The loop of `read_data`, of which there are as many rounds as two columns have rows at most. -/
def readDataLoop (version mask : ℕ) : ℕ → ℤ → ℤ → ℤ → RawStream → Option RawStream
  | 0, _, _, _, _ => none
  | fuel + 1, x, y, dir, ds =>
    if x > 0 then
      let x := if x = 6 then x - 1 else x
      let ds := readCell code version mask ds (x, y)
      let ds := readCell code version mask ds (x - 1, y)
      let y := y + dir
      if y < 0 ∨ y ≥ code.size then readDataLoop version mask fuel (x - 2) (y - dir) (-dir) ds
      else readDataLoop version mask fuel x y dir ds
    else some ds

def readData (version mask : ℕ) (fuel : ℕ) : Option RawStream :=
  readDataLoop code version mask fuel (code.size - 1) (code.size - 1) (-1) .empty

end Code

/-! ### The order of the cells -/

/-- The cells of two columns, `x` on the right. -/
def pairCells (x : ℤ) (ys : List ℤ) : List (ℤ × ℤ) := ys.flatMap fun y => [(x, y), (x - 1, y)]

/-- The right column of a pair. The column of the timing pattern is in none. -/
def pairColumn (n c : ℕ) : ℤ := let x : ℤ := n - 1 - 2 * c; if x ≤ 6 then x - 1 else x

/-- The rows of a pair: up and down in turn. -/
def pairRows (n c : ℕ) : List ℤ :=
  (if c % 2 = 0 then (List.range n).reverse else List.range n).map fun (y : ℕ) => (y : ℤ)

/-- The cells of a code of `n` by `n` cells in the order in which they are visited. -/
def zigzag (n : ℕ) : List (ℤ × ℤ) :=
  (List.range ((n - 1) / 2)).flatMap fun c => pairCells (pairColumn n c) (pairRows n c)

/-- The cells of the data. -/
def dataCells (version n : ℕ) : List (ℤ × ℤ) := (zigzag n).filter fun q => !reservedCell version q.2 q.1

/-- Where the loop is when it comes to a pair. -/
def startColumn (n c : ℕ) : ℤ := let x : ℤ := n - 1 - 2 * c; if x < 6 then x - 1 else x

def startRow (n c : ℕ) : ℤ := if c % 2 = 0 then n - 1 else 0

def rowStep (c : ℕ) : ℤ := if c % 2 = 0 then -1 else 1

section Loop
variable {code : QuircCode} (version mask : ℕ)

/-- At the timing pattern the loop goes on as it does one column further. -/
theorem readDataLoop_six (fuel : ℕ) (y dir : ℤ) (ds : RawStream) :
    readDataLoop code version mask (fuel + 1) 6 y dir ds = readDataLoop code version mask (fuel + 1) 5 y dir ds := by
  simp [readDataLoop]

/-- A round elsewhere. -/
theorem readDataLoop_succ {x : ℤ} (hx : 0 < x) (hsix : x ≠ 6) (fuel : ℕ) (y dir : ℤ) (ds : RawStream) :
    readDataLoop code version mask (fuel + 1) x y dir ds =
      let ds := (pairCells x [y]).foldl (readCell code version mask) ds
      if y + dir < 0 ∨ y + dir ≥ code.size then readDataLoop code version mask fuel (x - 2) y (-dir) ds
      else readDataLoop code version mask fuel x (y + dir) dir ds := by
  simp [readDataLoop, hx, hsix, pairCells]

variable {n : ℕ} (hn : code.size = n)
include hn

/-- The rest of two columns on the way up. -/
theorem readDataLoop_up {x : ℤ} (hx : 0 < x) (hsix : x ≠ 6) (fuel : ℕ) (y : ℕ) (ds : RawStream) (hy : y < n) :
    readDataLoop code version mask (fuel + (y + 1)) x y (-1) ds =
      readDataLoop code version mask fuel (x - 2) 0 1
        ((pairCells x ((List.range (y + 1)).reverse.map fun (y : ℕ) => (y : ℤ))).foldl
          (readCell code version mask) ds) := by
  induction y generalizing ds with
  | zero => simp [readDataLoop_succ _ _ hx hsix]
  | succ y ih =>
    have hge : ¬ ((y : ℤ) < 0 ∨ (y : ℤ) ≥ code.size) := by omega
    have hback : ((y + 1 : ℕ) : ℤ) + -1 = y := by omega
    rw [← add_assoc, readDataLoop_succ _ _ hx hsix, hback]
    simp only [hge, if_false]
    rw [ih _ (by omega), List.range_succ (n := y + 1)]
    simp [pairCells]

/-- The rest of two columns on the way down. -/
theorem readDataLoop_down {x : ℤ} (hx : 0 < x) (hsix : x ≠ 6) (fuel k : ℕ) (y : ℕ) (ds : RawStream)
    (hy : y + (k + 1) = n) :
    readDataLoop code version mask (fuel + (k + 1)) x y 1 ds =
      readDataLoop code version mask fuel (x - 2) (n - 1) (-1)
        ((pairCells x ((List.range' y (k + 1)).map fun (y : ℕ) => (y : ℤ))).foldl (readCell code version mask) ds) := by
  induction k generalizing y ds with
  | zero =>
    have hend : (y : ℤ) + 1 < 0 ∨ (y : ℤ) + 1 ≥ code.size := by omega
    have hlast : (n : ℤ) - 1 = y := by omega
    rw [zero_add, readDataLoop_succ _ _ hx hsix, hlast]
    simp [hend]
  | succ k ih =>
    have hgo : ¬ ((y : ℤ) + 1 < 0 ∨ (y : ℤ) + 1 ≥ code.size) := by omega
    rw [← add_assoc, readDataLoop_succ _ _ hx hsix]
    simp only [hgo, if_false]
    have hih := ih (y + 1) ((pairCells x [(y : ℤ)]).foldl (readCell code version mask) ds) (by omega)
    rw [Nat.cast_add, Nat.cast_one] at hih
    rw [hih, List.range'_succ (s := y)]
    simp [pairCells]

/-- Two columns. -/
theorem readDataLoop_pair {c : ℕ} (hc : 2 * c + 2 < n) (fuel : ℕ) (ds : RawStream) :
    readDataLoop code version mask (fuel + n) (startColumn n c) (startRow n c) (rowStep c) ds =
      readDataLoop code version mask fuel (pairColumn n c - 2) (startRow n (c + 1)) (rowStep (c + 1))
        ((pairCells (pairColumn n c) (pairRows n c)).foldl (readCell code version mask) ds) := by
  obtain ⟨m, rfl⟩ : ∃ m, n = m + 1 := ⟨n - 1, by omega⟩
  have hstart :
      readDataLoop code version mask (fuel + (m + 1)) (startColumn (m + 1) c) (startRow (m + 1) c) (rowStep c) ds =
        readDataLoop code version mask (fuel + (m + 1)) (pairColumn (m + 1) c) (startRow (m + 1) c) (rowStep c)
          ds := by
    by_cases hsix : startColumn (m + 1) c = 6
    · have hpair : pairColumn (m + 1) c = 5 := by
        simp only [startColumn, pairColumn] at hsix ⊢
        split at hsix <;> split <;> omega
      rw [hsix, hpair, ← add_assoc, readDataLoop_six]
    · congr 1
      simp only [startColumn, pairColumn] at hsix ⊢
      split at hsix <;> split <;> omega
  have hx : 0 < pairColumn (m + 1) c ∧ pairColumn (m + 1) c ≠ 6 := by
    simp only [pairColumn]
    split <;> omega
  rw [hstart]
  rcases Nat.mod_two_eq_zero_or_one c with hpar | hpar
  · have hpar' : ¬ (c + 1) % 2 = 0 := by omega
    have hlast : ((m + 1 : ℕ) : ℤ) - 1 = m := by omega
    simp only [startRow, rowStep, pairRows, hpar, hpar', if_true, if_false, hlast]
    exact readDataLoop_up version mask hn hx.1 hx.2 fuel m ds (Nat.lt_succ_self m)
  · have hpar' : (c + 1) % 2 = 0 := by omega
    have hne : ¬ c % 2 = 0 := by omega
    simp only [startRow, rowStep, pairRows, hne, hpar', if_true, if_false, List.range_eq_range']
    exact readDataLoop_down version mask hn hx.1 hx.2 fuel m 0 ds (Nat.zero_add _)

/-- The rest of the pairs. -/
theorem readDataLoop_pairs (hodd : n % 2 = 1) (fuel k : ℕ) (c : ℕ) (ds : RawStream) (hk : 2 * (c + k) + 1 = n) :
    readDataLoop code version mask (fuel + 1 + k * n) (startColumn n c) (startRow n c) (rowStep c) ds =
      some (((List.range' c k).flatMap fun c => pairCells (pairColumn n c) (pairRows n c)).foldl
        (readCell code version mask) ds) := by
  induction k generalizing c ds with
  | zero =>
    have hend : ¬ startColumn n c > 0 := by
      simp only [startColumn]
      split <;> omega
    rw [Nat.zero_mul, Nat.add_zero, readDataLoop, if_neg hend]
    rfl
  | succ k ih =>
    have hnext : pairColumn n c - 2 = startColumn n (c + 1) := by
      simp only [startColumn, pairColumn]
      split <;> split <;> omega
    rw [Nat.succ_mul, ← add_assoc, readDataLoop_pair version mask hn (by omega), hnext, ih _ _ (by omega),
      List.range'_succ, List.flatMap_cons, List.foldl_append]

end Loop

/-- The cells are visited in this order, and one round for each pair of cells is enough. -/
theorem readData_eq {code : QuircCode} (version mask : ℕ) {n : ℕ} (hn : code.size = n) (hodd : n % 2 = 1)
    (hlarge : 6 < n) {fuel : ℕ} (hfuel : (n - 1) / 2 * n < fuel) :
    readData code version mask fuel = some ((zigzag n).foldl (readCell code version mask) .empty) := by
  obtain ⟨extra, rfl⟩ : ∃ extra, fuel = extra + 1 + (n - 1) / 2 * n := ⟨fuel - ((n - 1) / 2 * n) - 1, by omega⟩
  have hrun := readDataLoop_pairs version mask hn hodd extra ((n - 1) / 2) 0 .empty (by omega)
  rw [zigzag, List.range_eq_range', ← hrun, readData, hn]
  congr 1
  simp only [startColumn]
  split <;> omega

/-! ### The bits that are read -/

section Bits
variable (code : QuircCode) (version mask : ℕ)

/-- The bit of a cell, without the mask. -/
def cellBit (q : ℤ × ℤ) : Bool := gridBit code q.1 q.2 ^^ maskBit mask q.2 q.1

/-- The bits of the data cells of the cells up to some point. -/
def bitsAt (cells : List (ℤ × ℤ)) : List Bool :=
  (cells.filter fun q => !reservedCell version q.2 q.1).map (cellBit code mask)

theorem readCell_keeps {ds : RawStream} {bits : List Bool} (hlen : ds.dataBits = bits.length) (h : Keeps ds.raw bits)
    (q : ℤ × ℤ) :
    (readCell code version mask ds q).dataBits = (bits ++ bitsAt code version mask [q]).length ∧
      Keeps (readCell code version mask ds q).raw (bits ++ bitsAt code version mask [q]) := by
  rw [readCell]
  split
  case isTrue hres => simpa [bitsAt, hres] using ⟨hlen, h⟩
  case isFalse hres =>
    have hbits : bitsAt code version mask [q] = [cellBit code mask q] := by simp [bitsAt, hres]
    have hpush := h.push (cellBit code mask q)
    rw [← hlen] at hpush
    rw [hbits]
    exact ⟨by simp [readBit, hlen], hpush⟩

/-- The bits of the data cells are in the stream in the order of the cells. -/
theorem foldl_readCell_keeps (cells : List (ℤ × ℤ)) :
    (cells.foldl (readCell code version mask) .empty).dataBits = (bitsAt code version mask cells).length ∧
      Keeps (cells.foldl (readCell code version mask) .empty).raw (bitsAt code version mask cells) := by
  induction cells using List.reverseRecOn with
  | nil => exact ⟨rfl, Keeps.nil⟩
  | append_singleton cells q ih =>
    have happ : bitsAt code version mask (cells ++ [q]) =
        bitsAt code version mask cells ++ bitsAt code version mask [q] := by simp [bitsAt]
    rw [List.foldl_append, happ]
    exact readCell_keeps code version mask ih.1 ih.2 q

end Bits

/-! ### Every cell once -/

/-- The cells of two columns, between the edges. -/
theorem mem_pairCells {n c : ℕ} {q : ℤ × ℤ} : q ∈ pairCells (pairColumn n c) (pairRows n c) ↔
    (q.1 = pairColumn n c ∨ q.1 = pairColumn n c - 1) ∧ 0 ≤ q.2 ∧ q.2 < n := by
  obtain ⟨x, y⟩ := q
  have hrows : ∀ y : ℤ, y ∈ pairRows n c ↔ 0 ≤ y ∧ y < n := by
    intro y
    have hmem : y ∈ pairRows n c ↔ ∃ a : ℕ, a < n ∧ (a : ℤ) = y := by
      rw [pairRows]
      split <;> simp
    rw [hmem]
    exact ⟨by rintro ⟨a, ha, rfl⟩; omega, fun h => ⟨y.toNat, by omega, by omega⟩⟩
  simp only [pairCells, List.mem_flatMap, List.mem_cons, Prod.mk.injEq, List.not_mem_nil, or_false, hrows]
  constructor
  · rintro ⟨y', hy', ⟨rfl, rfl⟩ | ⟨rfl, rfl⟩⟩ <;> simp [hy']
  · rintro ⟨rfl | rfl, hy⟩
    · exact ⟨y, hy, .inl ⟨rfl, rfl⟩⟩
    · exact ⟨y, hy, .inr ⟨rfl, rfl⟩⟩

theorem nodup_pairCells (n c : ℕ) : (pairCells (pairColumn n c) (pairRows n c)).Nodup := by
  rw [pairCells, List.nodup_flatMap]
  refine ⟨fun y _ => by simp; omega, ?_⟩
  have hrows : (pairRows n c).Nodup := by
    rw [pairRows]
    refine List.Nodup.map Nat.cast_injective ?_
    split
    · exact List.nodup_reverse.mpr List.nodup_range
    · exact List.nodup_range
  refine hrows.imp fun hne q hq hq' => ?_
  simp only [List.mem_cons, List.not_mem_nil, or_false] at hq hq'
  rcases hq with rfl | rfl <;> rcases hq' with h | h <;> simp_all

/-- All cells but those of the column of the timing pattern. -/
theorem mem_zigzag {n : ℕ} (hodd : n % 2 = 1) (hlarge : 6 < n) {q : ℤ × ℤ} :
    q ∈ zigzag n ↔ (0 ≤ q.1 ∧ q.1 < n ∧ q.1 ≠ 6) ∧ 0 ≤ q.2 ∧ q.2 < n := by
  simp only [zigzag, List.mem_flatMap, List.mem_range, mem_pairCells, ← and_assoc, exists_and_right]
  refine and_congr_left fun _ => and_congr_left fun _ => ?_
  simp only [pairColumn]
  constructor
  · rintro ⟨c, hc, hx⟩
    split at hx <;> omega
  · rintro ⟨⟨h0, hlt⟩, hne⟩
    by_cases hsix : q.1 < 6
    · refine ⟨(n - 2 - q.1.toNat) / 2, by omega, ?_⟩
      split <;> omega
    · refine ⟨(n - 1 - q.1.toNat) / 2, by omega, ?_⟩
      split <;> omega

theorem nodup_zigzag (n : ℕ) : (zigzag n).Nodup := by
  rw [zigzag, List.nodup_flatMap]
  refine ⟨fun c _ => nodup_pairCells n c, List.nodup_range.imp_of_mem fun {c c'} _ _ hne q hq hq' => hne ?_⟩
  have hx := (mem_pairCells.mp hq).1
  have hx' := (mem_pairCells.mp hq').1
  simp only [pairColumn] at hx hx'
  split at hx <;> split at hx' <;> omega

theorem length_zigzag (n : ℕ) : (zigzag n).length = (n - 1) / 2 * (2 * n) := by
  have hpair : ∀ c, (pairCells (pairColumn n c) (pairRows n c)).length = 2 * n := by
    intro c
    have hrows : (pairRows n c).length = n := by
      rw [pairRows]
      split <;> simp
    simp [pairCells, List.length_flatMap, hrows, mul_comm]
  simp [zigzag, List.length_flatMap, hpair]

theorem reservedCell_six (version : ℕ) (i : ℤ) : reservedCell version i 6 = true := by simp [reservedCell]

def quircMaxPayload : ℕ := 8896

/-- The cells that are not reserved, each of them once, in the order of the zigzag: the bits of the stream are theirs,
    and the stream ends within the array. -/
theorem read_data_each_cell_once (code : QuircCode) {version : ℕ} (mask : ℕ) {n fuel : ℕ}
    (hsize : code.size = n) (hn : n = version * 4 + 17) (hversion : version ≤ quircMaxVersion)
    (hfuel : (n - 1) / 2 * n < fuel) :
    (dataCells version n).Nodup ∧
    (∀ q, q ∈ dataCells version n ↔
      (0 ≤ q.1 ∧ q.1 < n) ∧ (0 ≤ q.2 ∧ q.2 < n) ∧ reservedCell version q.2 q.1 = false) ∧
    ∃ ds, readData code version mask fuel = some ds ∧ ds.dataBits = (dataCells version n).length ∧
      ds.dataBits ≤ 8 * quircMaxPayload ∧
      ∀ k, byteBit ds.raw k = if h : k < (dataCells version n).length
        then cellBit code mask ((dataCells version n).get ⟨k, h⟩) else false := by
  have hodd : n % 2 = 1 := by omega
  have hlarge : 6 < n := by omega
  have hle : (dataCells version n).length ≤ 88 * (2 * 177) :=
    (List.length_filter_le ..).trans (by
      rw [length_zigzag]
      exact Nat.mul_le_mul (by have : version ≤ 40 := hversion; omega) (by have : version ≤ 40 := hversion; omega))
  refine ⟨(nodup_zigzag n).filter _, fun q => ?_, _, readData_eq version mask hsize hodd hlarge hfuel, ?_⟩
  · rw [dataCells, List.mem_filter, mem_zigzag hodd hlarge, Bool.not_eq_true']
    constructor
    · rintro ⟨⟨⟨h0, h1, -⟩, hy⟩, hres⟩
      exact ⟨⟨h0, h1⟩, hy, hres⟩
    · rintro ⟨⟨h0, h1⟩, hy, hres⟩
      refine ⟨⟨⟨h0, h1, fun hsix => ?_⟩, hy⟩, hres⟩
      rw [hsix, reservedCell_six] at hres
      cases hres
  · obtain ⟨hlen, hkeeps⟩ := foldl_readCell_keeps code version mask (zigzag n)
    have hbits : bitsAt code version mask (zigzag n) = (dataCells version n).map (cellBit code mask) := rfl
    rw [hbits] at hlen hkeeps
    rw [List.length_map] at hlen
    refine ⟨hlen, ?_, fun k => ?_⟩
    · rw [hlen]
      exact hle.trans (by decide)
    · rw [hkeeps k]
      split
      case isTrue hk => simp [hk]
      case isFalse hk => exact List.getD_eq_default _ _ (by simpa using hk)

theorem read_data_each_cell_once_blank :
    (dataCells 1 21).Nodup ∧
    (∀ q, q ∈ dataCells 1 21 ↔ (0 ≤ q.1 ∧ q.1 < 21) ∧ (0 ≤ q.2 ∧ q.2 < 21) ∧ reservedCell 1 q.2 q.1 = false) ∧
    ∃ ds, readData ⟨21, fun _ => 0#8⟩ 1 3 211 = some ds ∧ ds.dataBits = (dataCells 1 21).length ∧
      ds.dataBits ≤ 8 * quircMaxPayload ∧
      ∀ k, byteBit ds.raw k = if h : k < (dataCells 1 21).length
        then cellBit ⟨21, fun _ => 0#8⟩ 3 ((dataCells 1 21).get ⟨k, h⟩) else false :=
  read_data_each_cell_once ⟨21, fun _ => 0#8⟩ 3 rfl rfl (by decide) (by decide)

end OpenMV.Vision
