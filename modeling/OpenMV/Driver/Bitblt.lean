import OpenMV.Schemes.Moves
import OpenMV.Vision.Image

/-! Block copy of the LCD driver | scheme:encoding | source:src/src/bsp/driver/drv_lcd.c

    A rectangle of one buffer is copied to a place of another. Each side of the one that sticks out of
    its buffer is cut off, with the same part of the other. Both rectangles stay apart by the same shift
    all the way, so a column is left over exactly if it lies in both buffers. -/

namespace OpenMV.Driver
open Schemes Vision

/-! ### The code -/

/-- The first cell of a buffer, the length of its rows and their number. -/
structure PixelBuffer where
  base : ℤ
  segment : ℤ
  common : ℤ
deriving DecidableEq, Repr

/-- The address `base + (y * segment) + x`. -/
def PixelBuffer.address (b : PixelBuffer) (x y : ℤ) : ℤ := b.base + int32 (y * b.segment) + x

/-- The ends of a range of the source and of the destination, both included. -/
structure Ends where
  s0 : ℤ
  s1 : ℤ
  d0 : ℤ
  d1 : ℤ
deriving DecidableEq, Repr

/-- `if (p < 0) { q -= p; p = 0; }` -/
def clipLow (p q : ℤ) : ℤ × ℤ := if p < 0 then (0, int32 (q - p)) else (p, q)

/-- `if (p >= n) { q -= (p - n + 1); p = n - 1; }` -/
def clipHigh (p q n : ℤ) : ℤ × ℤ :=
  if n ≤ p then (int32 (n - 1), int32 (q - int32 (int32 (p - n) + 1))) else (p, q)

/-- The four steps for one direction. Those for `x` and for `y` take turns in the source. -/
def clipAxis (s d size srcSize destSize : ℤ) : Ends :=
  let s1 := int32 (int32 (s + size) - 1)
  let d1 := int32 (int32 (d + size) - 1)
  let (s0, d0) := clipLow s d
  let (s1, d1) := clipHigh s1 d1 srcSize
  let (d0, s0) := clipLow d0 s0
  let (d1, s1) := clipHigh d1 s1 destSize
  ⟨s0, s1, d0, d1⟩

/-- Whether a range lies behind an end of one of the buffers, where nothing is copied. -/
def Ends.isOut (e : Ends) (srcSize destSize : ℤ) : Bool :=
  e.s1 < 0 || srcSize ≤ e.s0 || e.d1 < 0 || destSize ≤ e.d0

/-- The rounds of `for (x = a; x <= b; x++)`, `none` if it never ends. -/
def roundsUp (a b : ℤ) : Option ℕ := if b = 2147483647 then none else some (b + 1 - a).toNat

/-- The rounds of `for (x = b; x >= a; x--)` -/
def roundsDown (a b : ℤ) : Option ℕ := if a = -2147483648 then none else some (b + 1 - a).toNat

/-- The two loops. If there is no row, the loop over the columns is not entered. -/
def copyLoops (step srcStep destStep : ℤ) (rows cols : Option ℕ) (buffSrc buffDest : ℤ) :
    Option Moves :=
  match rows, cols with
  | none, _ => none
  | some 0, _ => some []
  | some (_ + 1), none => none
  | some (r + 1), some c => some (rectMoves step srcStep destStep c (r + 1) buffSrc buffDest)

/-- The copies `rt_bitblt` makes, `none` if it never returns. -/
def rtBitblt (dest : PixelBuffer) (destX destY width height : ℤ) (src : PixelBuffer)
    (srcX srcY : ℤ) : Option Moves :=
  if width ≤ 0 then some []
  else if height ≤ 0 then some []
  else
    let x := clipAxis srcX destX width src.segment dest.segment
    let y := clipAxis srcY destY height src.common dest.common
    if x.isOut src.segment dest.segment || y.isOut src.common dest.common then some []
    else if dest.base < src.base then
      copyLoops 1 src.segment dest.segment (roundsUp y.s0 y.s1) (roundsUp x.s0 x.s1)
        (src.address x.s0 y.s0) (dest.address x.d0 y.d0)
    else
      copyLoops (-1) (-src.segment) (-dest.segment) (roundsDown y.s0 y.s1) (roundsDown x.s0 x.s1)
        (src.address x.s1 y.s1) (dest.address x.d1 y.d1)

/-! ### What it is for -/

/-- A point of the buffer. -/
def PixelBuffer.Inside (b : PixelBuffer) (x y : ℤ) : Prop :=
  (0 ≤ x ∧ x < b.segment) ∧ 0 ≤ y ∧ y < b.common

/-- Where the pixel of a point is. -/
def PixelBuffer.cell (b : PixelBuffer) (x y : ℤ) : ℤ := b.base + (y * b.segment + x)

def PixelBuffer.Holds (b : PixelBuffer) (a : ℤ) : Prop := ∃ x y, b.Inside x y ∧ a = b.cell x y

section
variable (dest : PixelBuffer) (destX destY width height : ℤ) (src : PixelBuffer) (srcX srcY : ℤ)

/-- A pixel of the rectangle that lies in both buffers. -/
def InBoth (i j : ℤ) : Prop :=
  (0 ≤ i ∧ i < width) ∧ (0 ≤ j ∧ j < height) ∧
    src.Inside (srcX + i) (srcY + j) ∧ dest.Inside (destX + i) (destY + j)

/-- The copy is made: it ends, touches the two buffers only, copies each pixel that lies in both, and
    changes nothing else. -/
structure IsCopied (copy : Option Moves) (moves : Moves) : Prop where
  returns : copy = some moves
  touches : ∀ p ∈ moves, src.Holds p.1 ∧ dest.Holds p.2
  copied : ∀ (mem : ℤ → ℕ) (i j : ℤ), InBoth dest destX destY width height src srcX srcY i j →
    moveAll mem moves (dest.cell (destX + i) (destY + j)) = mem (src.cell (srcX + i) (srcY + j))
  kept : ∀ (mem : ℤ → ℕ) (a : ℤ), (∀ i j, InBoth dest destX destY width height src srcX srcY i j →
    dest.cell (destX + i) (destY + j) ≠ a) → moveAll mem moves a = mem a

end

/-- The sums and differences that one direction takes fit an `int`. -/
structure AxisFits (s d size srcSize destSize : ℤ) : Prop where
  src_low : -2147483648 ≤ s
  dest_low : -2147483648 ≤ d
  src_high : s + size ≤ 2147483648
  dest_high : d + size ≤ 2147483648
  shift_low : -2147483648 < d - s
  shift_high : d - s < 2147483648
  src_size : -2147483648 < srcSize
  src_int : srcSize < 2147483648
  dest_size : -2147483648 < destSize
  src_clip : -2147483648 < srcSize + (d - s)
  dest_clip : -2147483648 < destSize - (d - s)

/-- No `int` of a copy overflows: the sums and differences of its two directions, and the offsets of the
    rows of both buffers. -/
structure BlitFits (dest : PixelBuffer) (destX destY width height : ℤ) (src : PixelBuffer)
    (srcX srcY : ℤ) : Prop where
  x : AxisFits srcX destX width src.segment dest.segment
  y : AxisFits srcY destY height src.common dest.common
  src_offsets : src.segment * src.common ≤ 2147483648
  dest_offsets : dest.segment * dest.common ≤ 2147483648

/-! ### Clipping -/

/-- A range that starts before its buffer is moved to its start, the other one by as much. -/
theorem clipLow_shift {p q shift : ℤ} (hq : q = p + shift) (hlow : -2147483648 ≤ shift)
    (hhigh : shift < 2147483648) : clipLow p q = (max p 0, max p 0 + shift) := by
  subst hq
  unfold clipLow
  split
  case isTrue hp =>
    rw [max_eq_right hp.le, add_sub_cancel_left, int32_of_mem hlow (by omega), zero_add]
  case isFalse hp => rw [max_eq_left (by omega)]

theorem clipHigh_shift {p q shift n : ℤ} (hq : q = p + shift) (hp : p < 2147483648)
    (hqhigh : q < 2147483648) (hn : -2147483648 < n) (hnlow : -2147483648 < n + shift) :
    clipHigh p q n = (min p (n - 1), min p (n - 1) + shift) := by
  subst hq
  unfold clipHigh
  split
  case isTrue h =>
    -- what the inner differences lose is a multiple of 2 ^ 32
    have hwrap : int32 (p + shift - int32 (int32 (p - n) + 1)) = int32 (n - 1 + shift) := by
      unfold int32
      omega
    rw [min_eq_right (by omega), hwrap, int32_of_mem (by omega) (by omega),
      int32_of_mem (by omega) (by omega)]
  case isFalse h => rw [min_eq_left (by omega)]

theorem int32_last {s size : ℤ} (hlow : -2147483648 ≤ s) (hsize : 0 < size)
    (hhigh : s + size ≤ 2147483648) : int32 (int32 (s + size) - 1) = s + size - 1 := by
  unfold int32
  omega

section
variable {s d size srcSize destSize : ℤ}

/-- Both ranges stay apart by the shift from `s` to `d`. -/
theorem clipAxis_eq (hsize : 0 < size) (h : AxisFits s d size srcSize destSize) :
    clipAxis s d size srcSize destSize =
      ⟨max (max s 0 + (d - s)) 0 + (s - d),
        min (min (s + size - 1) (srcSize - 1) + (d - s)) (destSize - 1) + (s - d),
        max (max s 0 + (d - s)) 0,
        min (min (s + size - 1) (srcSize - 1) + (d - s)) (destSize - 1)⟩ := by
  obtain ⟨hs, hd, hse, hde, hlow, hhigh, hS, -, hD, hSc, hDc⟩ := h
  have hs0 : clipLow s d = (max s 0, max s 0 + (d - s)) :=
    clipLow_shift (by ring) hlow.le hhigh
  have hs1 : clipHigh (s + size - 1) (d + size - 1) srcSize =
      (min (s + size - 1) (srcSize - 1), min (s + size - 1) (srcSize - 1) + (d - s)) :=
    clipHigh_shift (by ring) (by omega) (by omega) hS hSc
  have hd0 : clipLow (max s 0 + (d - s)) (max s 0) =
      (max (max s 0 + (d - s)) 0, max (max s 0 + (d - s)) 0 + (s - d)) :=
    clipLow_shift (by ring) (by omega) (by omega)
  have hd1 : clipHigh (min (s + size - 1) (srcSize - 1) + (d - s))
        (min (s + size - 1) (srcSize - 1)) destSize =
      (min (min (s + size - 1) (srcSize - 1) + (d - s)) (destSize - 1),
        min (min (s + size - 1) (srcSize - 1) + (d - s)) (destSize - 1) + (s - d)) :=
    clipHigh_shift (by ring) (by omega) (by omega) hD (by omega)
  simp only [clipAxis, int32_last hs hsize hse, int32_last hd hsize hde, hs0, hs1, hd0, hd1]

/-- The places of a range that lie in both buffers. -/
def AxisInBoth (s d size srcSize destSize i : ℤ) : Prop :=
  (0 ≤ i ∧ i < size) ∧ (0 ≤ s + i ∧ s + i < srcSize) ∧ 0 ≤ d + i ∧ d + i < destSize

/-- They are what is left over. -/
theorem mem_clipAxis (hsize : 0 < size) (h : AxisFits s d size srcSize destSize) (i : ℤ) :
    ((clipAxis s d size srcSize destSize).s0 ≤ s + i ∧ s + i ≤ (clipAxis s d size srcSize destSize).s1) ↔
      AxisInBoth s d size srcSize destSize i := by
  rw [clipAxis_eq hsize h]
  unfold AxisInBoth
  simp only []
  omega

theorem clipAxis_shift (hsize : 0 < size) (h : AxisFits s d size srcSize destSize) :
    (clipAxis s d size srcSize destSize).d0 = (clipAxis s d size srcSize destSize).s0 + (d - s) ∧
      (clipAxis s d size srcSize destSize).d1 = (clipAxis s d size srcSize destSize).s1 + (d - s) := by
  rw [clipAxis_eq hsize h]
  constructor
  · ring
  · ring

/-- Behind an end of a buffer nothing is left. -/
theorem isOut_clipAxis (hsize : 0 < size) (h : AxisFits s d size srcSize destSize)
    (hout : (clipAxis s d size srcSize destSize).isOut srcSize destSize = true) (i : ℤ) :
    ¬ AxisInBoth s d size srcSize destSize i := by
  rw [clipAxis_eq hsize h] at hout
  simp only [Ends.isOut, Bool.or_eq_true, decide_eq_true_eq] at hout
  unfold AxisInBoth
  omega

/-- No loop runs to an end of the `int`s. -/
theorem clipAxis_ends (hsize : 0 < size) (h : AxisFits s d size srcSize destSize) :
    0 ≤ (clipAxis s d size srcSize destSize).s0 ∧
      (clipAxis s d size srcSize destSize).s1 < 2147483647 := by
  rw [clipAxis_eq hsize h]
  have := h.src_int
  simp only []
  omega

end

/-! ### The moves -/

namespace PixelBuffer
variable (b : PixelBuffer)

theorem address_eq {b : PixelBuffer} (hb : b.segment * b.common ≤ 2147483648) {x y : ℤ}
    (h : b.Inside x y) : b.address x y = b.cell x y := by
  obtain ⟨⟨hx0, hx⟩, hy0, hy⟩ := h
  have hnonneg : 0 ≤ y * b.segment := mul_nonneg hy0 (by omega)
  have hlt : y * b.segment < 2147483648 := by nlinarith
  rw [address, cell, int32_of_mem (by omega) (by omega), add_assoc]

/-- `i` columns and `j` rows on, in the direction of `step`. -/
theorem cell_add (step x y i j : ℤ) :
    b.cell x y + j * (step * b.segment) + i * step = b.cell (x + i * step) (y + j * step) := by
  unfold cell
  ring

theorem cell_inj {b : PixelBuffer} {x y x' y' : ℤ} (h : b.Inside x y) (h' : b.Inside x' y')
    (he : b.cell x y = b.cell x' y') : y = y' ∧ x = x' :=
  rowMajor_inj h.1 h'.1 (by unfold cell at he; linarith)

end PixelBuffer

theorem mem_rounds_up {a b c : ℤ} :
    (∃ i : ℕ, i < (b + 1 - a).toNat ∧ c = a + i * 1) ↔ a ≤ c ∧ c ≤ b := by
  constructor
  · rintro ⟨i, hi, rfl⟩
    omega
  · intro hc
    exact ⟨(c - a).toNat, by omega, by omega⟩

theorem mem_rounds_down {a b c : ℤ} :
    (∃ i : ℕ, i < (b + 1 - a).toNat ∧ c = b + i * -1) ↔ a ≤ c ∧ c ≤ b := by
  constructor
  · rintro ⟨i, hi, rfl⟩
    omega
  · intro hc
    exact ⟨(b - c).toNat, by omega, by omega⟩

theorem copyLoops_some (step srcStep destStep : ℤ) (r c : ℕ) (s d : ℤ) :
    copyLoops step srcStep destStep (some r) (some c) s d =
      some (rectMoves step srcStep destStep c r s d) := by
  cases r with
  | zero => rfl
  | succ r => rfl

section
variable {dest src : PixelBuffer} {destX destY width height srcX srcY : ℤ}

/-- What is left over in both directions lies in both buffers. -/
theorem inBoth_of_clip (hw : 0 < width) (hh : 0 < height)
    (h : BlitFits dest destX destY width height src srcX srcY) {a b : ℤ} :
    InBoth dest destX destY width height src srcX srcY (a - srcX) (b - srcY) ↔
      ((clipAxis srcX destX width src.segment dest.segment).s0 ≤ a ∧
        a ≤ (clipAxis srcX destX width src.segment dest.segment).s1) ∧
      (clipAxis srcY destY height src.common dest.common).s0 ≤ b ∧
        b ≤ (clipAxis srcY destY height src.common dest.common).s1 := by
  have hx := mem_clipAxis hw h.x (a - srcX)
  have hy := mem_clipAxis hh h.y (b - srcY)
  rw [add_sub_cancel] at hx hy
  rw [hx, hy]
  constructor
  · rintro ⟨hi, hj, ⟨hsx, hsy⟩, hdx, hdy⟩
    exact ⟨⟨hi, hsx, hdx⟩, hj, hsy, hdy⟩
  · rintro ⟨⟨hi, hsx, hdx⟩, hj, hsy, hdy⟩
    exact ⟨hi, hj, ⟨hsx, hsy⟩, hdx, hdy⟩

/-- From a corner on, in the direction of `step`, the loops copy what is left over. -/
theorem mem_rectMoves_clip (hw : 0 < width) (hh : 0 < height)
    (h : BlitFits dest destX destY width height src srcX srcY) {step cx cy : ℤ} {rows cols : ℕ}
    (hcols : ∀ a, (∃ i : ℕ, i < cols ∧ a = cx + i * step) ↔
      (clipAxis srcX destX width src.segment dest.segment).s0 ≤ a ∧
        a ≤ (clipAxis srcX destX width src.segment dest.segment).s1)
    (hrows : ∀ b, (∃ j : ℕ, j < rows ∧ b = cy + j * step) ↔
      (clipAxis srcY destY height src.common dest.common).s0 ≤ b ∧
        b ≤ (clipAxis srcY destY height src.common dest.common).s1) (p : ℤ × ℤ) :
    p ∈ rectMoves step (step * src.segment) (step * dest.segment) cols rows (src.address cx cy)
        (dest.address (cx + (destX - srcX)) (cy + (destY - srcY))) ↔
      ∃ i j, InBoth dest destX destY width height src srcX srcY i j ∧
        p = (src.cell (srcX + i) (srcY + j), dest.cell (destX + i) (destY + j)) := by
  have hcorner : 0 < cols → 0 < rows → src.address cx cy = src.cell cx cy ∧
      dest.address (cx + (destX - srcX)) (cy + (destY - srcY)) =
        dest.cell (cx + (destX - srcX)) (cy + (destY - srcY)) := by
    intro hc hr
    obtain ⟨-, -, hsrc, hdest⟩ := (inBoth_of_clip hw hh h).2
      ⟨(hcols cx).1 ⟨0, hc, by simp⟩, (hrows cy).1 ⟨0, hr, by simp⟩⟩
    rw [add_sub_cancel, add_sub_cancel] at hsrc
    rw [add_sub_left_comm, add_sub_left_comm destY] at hdest
    exact ⟨PixelBuffer.address_eq h.src_offsets hsrc, PixelBuffer.address_eq h.dest_offsets hdest⟩
  have hmove : ∀ i j : ℕ, i < cols → j < rows →
      (src.address cx cy + j * (step * src.segment) + i * step,
        dest.address (cx + (destX - srcX)) (cy + (destY - srcY)) + j * (step * dest.segment) +
          i * step) =
      (src.cell (cx + i * step) (cy + j * step),
        dest.cell (cx + i * step + (destX - srcX)) (cy + j * step + (destY - srcY))) := by
    intro i j hi hj
    obtain ⟨hs, hd⟩ := hcorner (Nat.zero_lt_of_lt hi) (Nat.zero_lt_of_lt hj)
    rw [hs, hd, PixelBuffer.cell_add, PixelBuffer.cell_add, add_right_comm cx, add_right_comm cy]
  rw [mem_rectMoves]
  constructor
  · rintro ⟨j, hj, i, hi, rfl⟩
    refine ⟨cx + i * step - srcX, cy + j * step - srcY, (inBoth_of_clip hw hh h).2
      ⟨(hcols _).1 ⟨i, hi, rfl⟩, (hrows _).1 ⟨j, hj, rfl⟩⟩, ?_⟩
    rw [hmove i j hi hj, add_sub_cancel, add_sub_cancel, add_sub_left_comm, add_sub_left_comm destY]
  · rintro ⟨a, b, hin, rfl⟩
    rw [← add_sub_cancel_left srcX a, ← add_sub_cancel_left srcY b] at hin
    obtain ⟨ha, hb⟩ := (inBoth_of_clip hw hh h).1 hin
    obtain ⟨i, hi, hai⟩ := (hcols _).2 ha
    obtain ⟨j, hj, hbj⟩ := (hrows _).2 hb
    refine ⟨j, hj, i, hi, ?_⟩
    rw [hmove i j hi hj, ← hai, ← hbj]
    congr 2 <;> ring

/-- What `rt_bitblt` copies, in whichever direction. -/
theorem mem_rtBitblt (h : 0 < width → 0 < height →
    BlitFits dest destX destY width height src srcX srcY) :
    ∃ moves, rtBitblt dest destX destY width height src srcX srcY = some moves ∧
      ∀ p, p ∈ moves ↔ ∃ i j, InBoth dest destX destY width height src srcX srcY i j ∧
        p = (src.cell (srcX + i) (srcY + j), dest.cell (destX + i) (destY + j)) := by
  have hnone : (∀ i j, ¬ InBoth dest destX destY width height src srcX srcY i j) →
      ∀ p, p ∈ ([] : Moves) ↔ ∃ i j, InBoth dest destX destY width height src srcX srcY i j ∧
        p = (src.cell (srcX + i) (srcY + j), dest.cell (destX + i) (destY + j)) := by
    intro hno p
    refine iff_of_false List.not_mem_nil ?_
    rintro ⟨i, j, hin, -⟩
    exact hno i j hin
  by_cases hw : width ≤ 0
  · refine ⟨[], by rw [rtBitblt, if_pos hw], hnone fun i j hin => ?_⟩
    have := hin.1
    omega
  by_cases hh : height ≤ 0
  · refine ⟨[], by rw [rtBitblt, if_neg hw, if_pos hh], hnone fun i j hin => ?_⟩
    have := hin.2.1
    omega
  rw [not_le] at hw hh
  replace h := h hw hh
  obtain ⟨hx0, hx1⟩ := clipAxis_shift hw h.x
  obtain ⟨hy0, hy1⟩ := clipAxis_shift hh h.y
  obtain ⟨hxlow, hxhigh⟩ := clipAxis_ends hw h.x
  obtain ⟨hylow, hyhigh⟩ := clipAxis_ends hh h.y
  have hcopy := @mem_rectMoves_clip dest src destX destY width height srcX srcY hw hh h
  have houtx := isOut_clipAxis hw h.x
  have houty := isOut_clipAxis hh h.y
  simp only [rtBitblt, if_neg (not_le.2 hw), if_neg (not_le.2 hh)]
  generalize clipAxis srcX destX width src.segment dest.segment = x at *
  generalize clipAxis srcY destY height src.common dest.common = y at *
  split
  case isTrue hout =>
    refine ⟨[], rfl, hnone fun i j hin => ?_⟩
    obtain ⟨hi, hj, ⟨hsx, hsy⟩, hdx, hdy⟩ := hin
    rcases Bool.or_eq_true_iff.1 hout with hout | hout
    · exact houtx hout i ⟨hi, hsx, hdx⟩
    · exact houty hout j ⟨hj, hsy, hdy⟩
  case isFalse =>
    split
    case isTrue =>
      rw [roundsUp, roundsUp, if_neg hyhigh.ne, if_neg hxhigh.ne, copyLoops_some, hx0, hy0]
      refine ⟨_, rfl, fun p => ?_⟩
      have hup := hcopy (fun _ => mem_rounds_up) (fun _ => mem_rounds_up) p
      rwa [one_mul, one_mul] at hup
    case isFalse =>
      rw [roundsDown, roundsDown, if_neg (by omega), if_neg (by omega), copyLoops_some, hx1, hy1]
      refine ⟨_, rfl, fun p => ?_⟩
      have hdown := hcopy (fun _ => mem_rounds_down) (fun _ => mem_rounds_down) p
      rwa [neg_one_mul, neg_one_mul] at hdown

/-- Moves that are those of the pixels in both buffers make the copy, if the buffers are apart. -/
theorem isCopied_of_mem {moves : Moves} {copy : Option Moves} (hcopy : copy = some moves)
    (hmem : ∀ p, p ∈ moves ↔ ∃ i j, InBoth dest destX destY width height src srcX srcY i j ∧
      p = (src.cell (srcX + i) (srcY + j), dest.cell (destX + i) (destY + j)))
    (hapart : ∀ a, ¬ (src.Holds a ∧ dest.Holds a)) :
    IsCopied dest destX destY width height src srcX srcY copy moves := by
  have hholds : ∀ p ∈ moves, src.Holds p.1 ∧ dest.Holds p.2 := by
    intro p hp
    obtain ⟨i, j, hin, rfl⟩ := (hmem p).1 hp
    exact ⟨⟨_, _, hin.2.2.1, rfl⟩, _, _, hin.2.2.2, rfl⟩
  have hread : ReadsApart moves := by
    intro p hp q hq he
    exact hapart p.1 ⟨(hholds p hp).1, he ▸ (hholds q hq).2⟩
  refine ⟨hcopy, hholds, fun mem i j hin => ?_, fun mem a ha => ?_⟩
  · refine moveAll_of_mem hread ((hmem _).2 ⟨i, j, hin, rfl⟩) fun q hq he => ?_
    obtain ⟨i', j', hin', rfl⟩ := (hmem q).1 hq
    obtain ⟨hy, hx⟩ := PixelBuffer.cell_inj hin'.2.2.2 hin.2.2.2 he
    rw [add_left_cancel hx, add_left_cancel hy]
  · refine moveAll_of_notMem hread fun p hp he => ?_
    obtain ⟨i, j, hin, rfl⟩ := (hmem p).1 hp
    exact ha i j hin he

/-- The block copy copies the pixels that lie in both buffers. -/
theorem rt_bitblt_copies (h : 0 < width → 0 < height →
      BlitFits dest destX destY width height src srcX srcY)
    (hapart : ∀ a, ¬ (src.Holds a ∧ dest.Holds a)) :
    ∃ moves, IsCopied dest destX destY width height src srcX srcY
      (rtBitblt dest destX destY width height src srcX srcY) moves := by
  obtain ⟨moves, hmoves, hmem⟩ := mem_rtBitblt h
  exact ⟨moves, isCopied_of_mem hmoves hmem hapart⟩

end

/-! ### The caller -/

section
variable (rectBuffer framebuffer : ℤ) (lcdWidth lcdHeight x1 y1 width height : UInt16)

/-- The copy in `drv_lcd_rect_update`, of a part of the screen to a buffer of its own. -/
def rectUpdateCopy : Option Moves :=
  rtBitblt ⟨rectBuffer, width.toNat, height.toNat⟩ 0 0 width.toNat height.toNat
    ⟨framebuffer, lcdWidth.toNat, lcdHeight.toNat⟩ x1.toNat y1.toNat

/-- All its arguments have 16 bits, so only the offsets in a buffer could be too large for an `int`. -/
theorem rectUpdateCopy_fits (hlcd : (lcdWidth.toNat : ℤ) * lcdHeight.toNat ≤ 2147483648)
    (hrect : (width.toNat : ℤ) * height.toNat ≤ 2147483648) :
    BlitFits ⟨rectBuffer, width.toNat, height.toNat⟩ 0 0 width.toNat height.toNat
      ⟨framebuffer, lcdWidth.toNat, lcdHeight.toNat⟩ x1.toNat y1.toNat := by
  have haxis : ∀ s size srcSize : UInt16,
      AxisFits s.toNat 0 size.toNat srcSize.toNat size.toNat := by
    intro s size srcSize
    have hs := s.toNat_lt
    have hsize := size.toNat_lt
    have hsrc := srcSize.toNat_lt
    constructor <;> omega
  exact ⟨haxis x1 width lcdWidth, haxis y1 height lcdHeight, hlcd, hrect⟩

/-- The part of the screen gets to the buffer, also where it reaches over the edge of the screen. -/
theorem rectUpdateCopy_copies (hlcd : (lcdWidth.toNat : ℤ) * lcdHeight.toNat ≤ 2147483648)
    (hrect : (width.toNat : ℤ) * height.toNat ≤ 2147483648)
    (hapart : ∀ a, ¬ (PixelBuffer.Holds ⟨framebuffer, lcdWidth.toNat, lcdHeight.toNat⟩ a ∧
      PixelBuffer.Holds ⟨rectBuffer, width.toNat, height.toNat⟩ a)) :
    ∃ moves, IsCopied ⟨rectBuffer, width.toNat, height.toNat⟩ 0 0 width.toNat height.toNat
      ⟨framebuffer, lcdWidth.toNat, lcdHeight.toNat⟩ x1.toNat y1.toNat
      (rectUpdateCopy rectBuffer framebuffer lcdWidth lcdHeight x1 y1 width height) moves := by
  obtain ⟨moves, hmoves, hmem⟩ := mem_rtBitblt fun _ _ =>
    rectUpdateCopy_fits rectBuffer framebuffer lcdWidth lcdHeight x1 y1 width height hlcd hrect
  exact ⟨moves, isCopied_of_mem hmoves hmem hapart⟩

end

/-- A part of the screen whose last columns lie behind its right edge. -/
theorem rt_bitblt_copies_screen :
    ∃ moves, IsCopied ⟨0, 40, 20⟩ 0 0 40 20 ⟨4096, 320, 240⟩ 300 10
      (rtBitblt ⟨0, 40, 20⟩ 0 0 40 20 ⟨4096, 320, 240⟩ 300 10) moves := by
  refine rt_bitblt_copies (fun _ _ =>
    rectUpdateCopy_fits 0 4096 320 240 300 10 40 20 (by decide) (by decide)) ?_
  rintro a ⟨⟨x, y, ⟨hx, hy⟩, rfl⟩, x', y', ⟨hx', hy'⟩, he⟩
  simp only [PixelBuffer.cell] at hx hy hx' hy' he
  omega

/-- With a width of `INT_MAX` the last column overflows and nothing is copied, and in a buffer of
    65536 x 65536 pixels the offset of a row does and a pixel outside it is copied. -/
theorem rt_bitblt_overflows :
    (¬ ∃ moves, IsCopied ⟨100, 10, 1⟩ 5 0 2147483647 1 ⟨0, 10, 1⟩ 5 0
      (rtBitblt ⟨100, 10, 1⟩ 5 0 2147483647 1 ⟨0, 10, 1⟩ 5 0) moves) ∧
    ¬ ∃ moves, IsCopied ⟨0, 1, 1⟩ 0 0 1 1 ⟨4294967296, 65536, 65536⟩ 0 32768
      (rtBitblt ⟨0, 1, 1⟩ 0 0 1 1 ⟨4294967296, 65536, 65536⟩ 0 32768) moves := by
  constructor
  · rintro ⟨moves, h⟩
    obtain rfl : [] = moves := Option.some.inj ((by decide : some [] = _).trans h.returns)
    have hin : InBoth ⟨100, 10, 1⟩ 5 0 2147483647 1 ⟨0, 10, 1⟩ 5 0 0 0 := by
      simp [InBoth, PixelBuffer.Inside]
    have := h.copied (fun a => if a = 5 then 1 else 0) 0 0 hin
    simp [moveAll, PixelBuffer.cell] at this
  · rintro ⟨moves, h⟩
    obtain rfl : ([(2147483648, 0)] : Moves) = moves :=
      Option.some.inj ((by decide : some ([(2147483648, 0)] : Moves) = _).trans h.returns)
    obtain ⟨⟨x, y, ⟨hx, hy⟩, he⟩, -⟩ := h.touches _ (List.mem_cons_self ..)
    simp only [PixelBuffer.cell] at hx hy he
    omega

end OpenMV.Driver
