import OpenMV.Io.Pixels
import OpenMV.Schemes.Fetch
import OpenMV.Schemes.Reader

/-! Bayer to RGB565 | scheme:footprint | source:src/src/openmv/omv/img/imlib.c

    `imlib_bayer_to_rgb565` has two ways to convert a row. One looks at the neighbours of every pixel, with
    checks at the edges. The other keeps two pairs of pixels of three rows in registers and writes two pixels
    at a time; it treats the first and the last column of the rectangle as edges of the sensor. Between them
    both compute the same.

    The row above is `s[-w2]`, and `w2` is unsigned. So on a target with pointers of 64 bits the index is
    `2^32 - w2`. The model takes it as a parameter. -/

namespace OpenMV.Vision
open Schemes Io

/-! ### One pixel at a time -/

/-- `img->w` and `img->h`; the bytes at `img->pixels` are the memory that is read. -/
structure Raw where
  w : ℕ
  h : ℕ

namespace Raw

variable (img : Raw)

/-- `IM_GET_RAW_PIXEL` -/
def getPixel (x y : ℤ) : Fetch ℕ := (Fetch.read (y * img.w + x)).map (· % 256)

/-- `_x = (_x < 0) ? 0 : (_x >= img->w) ? (img->w -1): _x` -/
def checked (len : ℕ) (x : ℤ) : ℤ := if x < 0 then 0 else if x ≥ len then len - 1 else x

def getPixelCheckBoundsX (x y : ℤ) : Fetch ℕ := img.getPixel (checked img.w x) y

def getPixelCheckBoundsY (x y : ℤ) : Fetch ℕ := img.getPixel x (checked img.h y)

def getPixelCheckBoundsXY (x y : ℤ) : Fetch ℕ := img.getPixel (checked img.w x) (checked img.h y)

end Raw

/-- `r`, `g` and `b` of a pixel. -/
def slowRgb (img : Raw) (x y : ℤ) : Fetch ℕ × Fetch ℕ × Fetch ℕ :=
  let corners := (img.getPixelCheckBoundsXY (x - 1) (y - 1) + img.getPixelCheckBoundsXY (x + 1) (y - 1) +
    img.getPixelCheckBoundsXY (x - 1) (y + 1) + img.getPixelCheckBoundsXY (x + 1) (y + 1)).map (· >>> 2)
  let sides := (img.getPixelCheckBoundsY x (y - 1) + img.getPixelCheckBoundsY x (y + 1) +
    img.getPixelCheckBoundsX (x - 1) y + img.getPixelCheckBoundsX (x + 1) y).map (· >>> 2)
  let rows := (img.getPixelCheckBoundsY x (y - 1) + img.getPixelCheckBoundsY x (y + 1)).map (· >>> 1)
  let columns := (img.getPixelCheckBoundsX (x - 1) y + img.getPixelCheckBoundsX (x + 1) y).map (· >>> 1)
  let here := img.getPixel x y
  if y % 2 = 0 then if x % 2 = 0 then (corners, sides, here) else (rows, here, columns)
  else if x % 2 = 0 then (columns, here, rows) else (here, sides, corners)

def slowPixel (img : Raw) (x y : ℤ) : Fetch ℕ :=
  let c := slowRgb img x y
  ((c.1.zip c.2.1).zip c.2.2).map fun p => colorR8G8B8ToRgb565 p.1.1 p.1.2 p.2 % 65536

def slowRow (img : Raw) (w xoffs y : ℕ) : List (Fetch ℕ) :=
  (List.range w).map fun j => slowPixel img (xoffs + j : ℕ) y

/-! ### Two pixels at a time -/

/-- `COLOR_R5_G6_B5_TO_RGB565`, and what of it is stored. -/
def packR5G6B5 (c : ℕ × ℕ × ℕ) : ℕ := ((c.1 <<< 11) ||| (c.2.1 <<< 5) ||| c.2.2) % 65536

/-- A load of 16 bits through `s`, at the address of its first byte. -/
def word (a : ℤ) : Fetch ℕ :=
  ((Fetch.read a).zip (Fetch.read (a + 1))).map fun p => p.1 % 256 + p.2 % 256 * 256

/-- The three lines: the row above, the row and the row below. -/
abbrev Lines := ℕ × ℕ × ℕ

/-- The registers after the three loads `l0 |= (s[-w2] << 16); l1 |= (s[0] << 16); l2 |= (s[w2] << 16);` -/
def grab (l next : Lines) : Lines :=
  (l.1 ||| (next.1 <<< 16), l.2.1 ||| (next.2.1 <<< 16), l.2.2 ||| (next.2.2 <<< 16))

/-- `l0 >>= 16; l1 >>= 16; l2 >>= 16;` -/
def advance (l : Lines) : Lines := (l.1 >>> 16, l.2.1 >>> 16, l.2.2 >>> 16)

/-- The first pixel of a row, which has no left neighbours. -/
def firstCol (odd : Bool) : Lines → ℕ × ℕ × ℕ
  | (l0, l1, l2) =>
    if odd then
      ((l1 &&& 0xff00) >>> 11, (l1 &&& 0xff) >>> 2, ((l0 &&& 0xff) + (l2 &&& 0xff)) >>> 4)
    else
      (((l0 &&& 0xff00) + (l2 &&& 0xff00)) >>> 12, ((l0 &&& 0xff) + (l2 &&& 0xff)) >>> 3, (l1 &&& 0xff) >>> 3)

def currentLeft (odd : Bool) : Lines → ℕ × ℕ × ℕ
  | (l0, l1, l2) =>
    if odd then
      ((l1 &&& 0xff00) >>> 11,
        (((l1 >>> 16) &&& 0xff) + (l1 &&& 0xff) + ((l0 >>> 8) &&& 0xff) + ((l2 >>> 8) &&& 0xff)) >>> 4,
        ((l0 &&& 0xff) + (l2 &&& 0xff) + ((l0 >>> 16) &&& 0xff) + ((l2 >>> 16) &&& 0xff)) >>> 5)
    else
      (((l0 &&& 0xff00) + (l2 &&& 0xff00)) >>> 12, (l1 &&& 0xff00) >>> 10,
        ((l1 &&& 0xff) + ((l1 >>> 16) &&& 0xff)) >>> 4)

def currentRight (odd : Bool) : Lines → ℕ × ℕ × ℕ
  | (l0, l1, l2) =>
    if odd then
      ((((l1 >>> 8) &&& 0xff) + (l1 >>> 24)) >>> 4, (l1 &&& 0xff0000) >>> 18,
        (((l0 >>> 16) &&& 0xff) + ((l2 >>> 16) &&& 0xff)) >>> 4)
    else
      ((((l0 >>> 8) &&& 0xff) + (l0 >>> 24) + ((l2 >>> 8) &&& 0xff) + (l2 >>> 24)) >>> 5,
        (((l1 >>> 8) &&& 0xff) + (l1 >>> 24) + ((l0 >>> 16) &&& 0xff) + ((l2 >>> 16) &&& 0xff)) >>> 4,
        (l1 &&& 0xff0000) >>> 19)

/-- The last pixel of a row, with the blue of the pixel before it. -/
def lastCol (odd : Bool) (b : ℕ) : Lines → ℕ × ℕ × ℕ
  | (l0, l1, l2) =>
    if odd then (l1 >>> 11, ((l0 >>> 8) + (l2 >>> 8)) >>> 3, b)
    else (((l0 >>> 8) + (l2 >>> 8)) >>> 4, l1 >>> 10, b)

section Faster

variable (up w2 : ℤ) (odd : Bool)

/-- The words at `s[-w2]`, `s[0]` and `s[w2]`, `up` being the index for the row above. -/
def loads (s : ℤ) : Fetch Lines := (word (s + 2 * up)).zip ((word s).zip (word (s + 2 * w2)))

/-- `n` rounds of the loop over the middle, and the last column. -/
def middle : ℕ → ℤ → Fetch Lines → Fetch ℕ → List (Fetch ℕ)
  | 0, _, l, b => [(l.zip b).map fun p => packR5G6B5 (lastCol odd p.2 p.1)]
  | n + 1, s, l, _ =>
    let l := (l.zip (loads up w2 s)).map fun p => grab p.1 p.2
    (l.map fun l => packR5G6B5 (currentLeft odd l)) :: (l.map fun l => packR5G6B5 (currentRight odd l)) ::
      middle n (s + 2) (l.map advance) (l.map fun l => (currentRight odd l).2.2)

/-- `(w - 1) / 2` is the number of rounds of `for (int x = xoffs+1; x < xoffs+w-1; x+=2)`. -/
def fasterRow (w : ℕ) (s : ℤ) : List (Fetch ℕ) :=
  let l := loads up w2 s
  (l.map fun l => packR5G6B5 (firstCol odd l)) ::
    middle up w2 odd ((w - 1) / 2) (s + 2) l (l.map fun l => (firstCol odd l).2.2)

end Faster

/-- The rows that need the checks: one that starts in an odd column, the top row of the image, and the bottom
    row of the rectangle. -/
def isSlow (h xoffs yoffs y : ℕ) : Prop := xoffs % 2 = 1 ∨ y = 0 ∨ yoffs + h ≤ y + 1

instance (h xoffs yoffs y : ℕ) : Decidable (isSlow h xoffs yoffs y) := inferInstanceAs (Decidable (_ ∨ _ ∨ _))

def bayerRow (img : Raw) (up : ℤ) (w h xoffs yoffs y : ℕ) : List (Fetch ℕ) :=
  if isSlow h xoffs yoffs y then slowRow img w xoffs y
  else fasterRow up (img.w / 2 : ℕ) (y % 2 = 1) w (y * img.w + xoffs : ℕ)

/-- What is written through `rgbbuf`, with what is read for it. -/
def imlibBayerToRgb565 (img : Raw) (up : ℤ) (w h xoffs yoffs : ℕ) : List (Fetch ℕ) :=
  (List.range h).flatMap fun i => bayerRow img up w h xoffs yoffs (yoffs + i)

/-- `-w2` for a `uint32_t` -/
def negW2 (w2 : ℕ) : ℤ := -w2 % 2 ^ 32


/-! ### The registers -/

/-- Four bytes in a row, as a register holds them. -/
def fourBytes (m : ℤ → ℕ) (a : ℤ) : ℕ :=
  m a % 256 + m (a + 1) % 256 * 2 ^ 8 + m (a + 2) % 256 * 2 ^ 16 + m (a + 3) % 256 * 2 ^ 24

theorem and_mask (l k n : ℕ) : l &&& ((2 ^ k - 1) <<< n) = (l / 2 ^ n % 2 ^ k) * 2 ^ n := by
  rw [← Nat.and_two_pow_sub_one_eq_mod, ← Nat.shiftRight_eq_div_pow, ← Nat.shiftLeft_eq]
  apply Nat.eq_of_testBit_eq
  intro i
  simp only [Nat.testBit_and, Nat.testBit_shiftLeft, Nat.testBit_shiftRight]
  by_cases hi : n ≤ i
  · rw [Nat.add_sub_cancel' hi]
    simp [hi]
  · simp [hi]

theorem and_ff (l : ℕ) : l &&& 0xff = l % 2 ^ 8 := Nat.and_two_pow_sub_one_eq_mod l 8

theorem and_ff00 (l : ℕ) : l &&& 0xff00 = (l / 2 ^ 8 % 2 ^ 8) * 2 ^ 8 := and_mask l 8 8

theorem and_ff0000 (l : ℕ) : l &&& 0xff0000 = (l / 2 ^ 16 % 2 ^ 8) * 2 ^ 16 := and_mask l 8 16

theorem word_val_lt (m : ℤ → ℕ) (a : ℤ) : (word a).val m < 2 ^ 16 := by
  show m a % 256 + m (a + 1) % 256 * 256 < 2 ^ 16
  omega

/-- Two pairs side by side in a register. -/
theorem grab_word (m : ℤ → ℕ) (a : ℤ) :
    (word a).val m ||| ((word (a + 2)).val m <<< 16) = fourBytes m a := by
  rw [Nat.or_comm, ← Nat.shiftLeft_add_eq_or_of_lt (word_val_lt m a), Nat.shiftLeft_eq, fourBytes]
  show (m (a + 2) % 256 + m (a + 2 + 1) % 256 * 256) * 2 ^ 16 + (m a % 256 + m (a + 1) % 256 * 256) = _
  rw [add_assoc a 2 1]
  norm_num
  omega

theorem advance_fourBytes (m : ℤ → ℕ) (a : ℤ) : fourBytes m a >>> 16 = (word (a + 2)).val m := by
  show _ = m (a + 2) % 256 + m (a + 2 + 1) % 256 * 256
  rw [Nat.shiftRight_eq_div_pow, fourBytes, add_assoc a 2 1]
  norm_num
  omega

section Bytes

variable (m : ℤ → ℕ) (a : ℤ)

theorem fourBytes_byte0 : fourBytes m a % 2 ^ 8 = m a % 256 := by
  unfold fourBytes
  omega

theorem fourBytes_byte1 : fourBytes m a / 2 ^ 8 % 2 ^ 8 = m (a + 1) % 256 := by
  unfold fourBytes
  omega

theorem fourBytes_byte2 : fourBytes m a / 2 ^ 16 % 2 ^ 8 = m (a + 2) % 256 := by
  unfold fourBytes
  omega

theorem fourBytes_byte3 : fourBytes m a / 2 ^ 24 = m (a + 3) % 256 := by
  unfold fourBytes
  omega

end Bytes

/-! ### Two pixels at a time are as good as one -/

/-- The colour as three bytes, packed. -/
theorem packR5G6B5_shift {r g b : ℕ} (hr : r < 256) (hg : g < 256) :
    packR5G6B5 (r >>> 3, g >>> 2, b >>> 3) = colorR8G8B8ToRgb565 r g b % 65536 := by
  have hf8 : (r &&& 0xF8) <<< 8 = (r >>> 3) <<< 11 := by
    rw [show r &&& 0xF8 = (r / 2 ^ 3 % 2 ^ 5) * 2 ^ 3 from and_mask r 5 3, Nat.shiftLeft_eq, Nat.shiftLeft_eq,
      Nat.shiftRight_eq_div_pow]
    omega
  have hfc : (g &&& 0xFC) <<< 3 = (g >>> 2) <<< 5 := by
    rw [show g &&& 0xFC = (g / 2 ^ 2 % 2 ^ 6) * 2 ^ 2 from and_mask g 6 2, Nat.shiftLeft_eq, Nat.shiftLeft_eq,
      Nat.shiftRight_eq_div_pow]
    omega
  unfold packR5G6B5 colorR8G8B8ToRgb565
  rw [hf8, hfc]

/-- The means of the bytes around a pair, as the registers have them, are those of the bytes. -/
theorem currentLeft_fourBytes (odd : Bool) (m : ℤ → ℕ) (a b c : ℤ) :
    let p : ℤ → ℕ := fun a => m a % 256
    currentLeft odd (fourBytes m a, fourBytes m b, fourBytes m c) =
      if odd then (p (b + 1) >>> 3, ((p (a + 1) + p (c + 1) + p b + p (b + 2)) >>> 2) >>> 2,
        ((p a + p (a + 2) + p c + p (c + 2)) >>> 2) >>> 3)
      else (((p (a + 1) + p (c + 1)) >>> 1) >>> 3, p (b + 1) >>> 2, ((p b + p (b + 2)) >>> 1) >>> 3) := by
  intro p
  unfold currentLeft
  simp only [and_ff, and_ff00, Nat.shiftRight_eq_div_pow, fourBytes_byte0, fourBytes_byte1, fourBytes_byte2]
  cases odd
  · simp only [Bool.false_eq_true, if_false, Prod.mk.injEq]
    refine ⟨?_, ?_, ?_⟩ <;> simp only [p] <;> omega
  · simp only [if_true, Prod.mk.injEq]
    refine ⟨?_, ?_, ?_⟩ <;> simp only [p] <;> omega

theorem currentRight_fourBytes (odd : Bool) (m : ℤ → ℕ) (a b c : ℤ) :
    let p : ℤ → ℕ := fun a => m a % 256
    currentRight odd (fourBytes m a, fourBytes m b, fourBytes m c) =
      if odd then (((p (b + 1) + p (b + 3)) >>> 1) >>> 3, p (b + 2) >>> 2,
        ((p (a + 2) + p (c + 2)) >>> 1) >>> 3)
      else (((p (a + 1) + p (a + 3) + p (c + 1) + p (c + 3)) >>> 2) >>> 3,
        ((p (a + 2) + p (c + 2) + p (b + 1) + p (b + 3)) >>> 2) >>> 2, p (b + 2) >>> 3) := by
  intro p
  unfold currentRight
  simp only [and_ff, and_ff0000, Nat.shiftRight_eq_div_pow, fourBytes_byte1, fourBytes_byte2, fourBytes_byte3]
  cases odd
  · simp only [Bool.false_eq_true, if_false, Prod.mk.injEq]
    refine ⟨?_, ?_, ?_⟩ <;> simp only [p] <;> omega
  · simp only [if_true, Prod.mk.injEq]
    refine ⟨?_, ?_, ?_⟩ <;> simp only [p] <;> omega

/-- What the registers hold in a round of the loop: the pairs from `a` on, and from the same column on in the
    rows above and below. -/
def quads (m : ℤ → ℕ) (up w2 a : ℤ) : Lines :=
  (fourBytes m (a + 2 * up), fourBytes m a, fourBytes m (a + 2 * w2))

section Loop

variable (m : ℤ → ℕ) (up w2 : ℤ) (odd : Bool)

theorem grab_loads (a : ℤ) :
    grab ((loads up w2 a).val m) ((loads up w2 (a + 2)).val m) = quads m up w2 a := by
  have hup := grab_word m (a + 2 * up)
  have hdown := grab_word m (a + 2 * w2)
  rw [add_right_comm] at hup hdown
  exact Prod.ext hup (Prod.ext (grab_word m a) hdown)

theorem advance_quads (a : ℤ) : advance (quads m up w2 a) = (loads up w2 (a + 2)).val m := by
  have hup := advance_fourBytes m (a + 2 * up)
  have hdown := advance_fourBytes m (a + 2 * w2)
  rw [add_right_comm] at hup hdown
  exact Prod.ext hup (Prod.ext (advance_fourBytes m a) hdown)

theorem length_middle : ∀ (n : ℕ) (s : ℤ) (l : Fetch Lines) (b : Fetch ℕ),
    (middle up w2 odd n s l b).length = 2 * n + 1
  | 0, _, _, _ => rfl
  | n + 1, s, l, b => by
    rw [middle, List.length_cons, List.length_cons, length_middle n]
    omega

theorem length_fasterRow (w : ℕ) (s : ℤ) : (fasterRow up w2 odd w s).length = 2 * ((w - 1) / 2) + 2 := by
  rw [fasterRow, List.length_cons, length_middle]

/-- The invariant of the loop: the lower halves of the registers are the pairs before the ones that come next. So
    the pixels of each round are computed from the four columns around them. -/
theorem middle_pair : ∀ {n i : ℕ} {a : ℤ} {l : Fetch Lines} {b : Fetch ℕ}, i < n →
    l.val m = (loads up w2 a).val m →
    ((middle up w2 odd n (a + 2) l b)[2 * i]?).map (·.val m) =
        some (packR5G6B5 (currentLeft odd (quads m up w2 (a + 2 * i)))) ∧
      ((middle up w2 odd n (a + 2) l b)[2 * i + 1]?).map (·.val m) =
        some (packR5G6B5 (currentRight odd (quads m up w2 (a + 2 * i))))
  | n + 1, i, a, l, b, hi, hl => by
    have hgrab : grab (l.val m) ((loads up w2 (a + 2)).val m) = quads m up w2 a := by rw [hl, grab_loads]
    cases i with
    | zero =>
      rw [show a + 2 * ((0 : ℕ) : ℤ) = a by simp, ← hgrab]
      exact ⟨rfl, rfl⟩
    | succ i =>
      have ih := middle_pair (n := n) (i := i) (a := a + 2)
        (l := ((l.zip (loads up w2 (a + 2))).map fun p => grab p.1 p.2).map advance)
        (b := ((l.zip (loads up w2 (a + 2))).map fun p => grab p.1 p.2).map fun l => (currentRight odd l).2.2)
        (by omega) (by
          rw [Fetch.val_map, Fetch.val_map, Fetch.val_zip]
          exact (congrArg advance hgrab).trans (advance_quads m up w2 a))
      rw [show a + 2 * ((i + 1 : ℕ) : ℤ) = a + 2 + 2 * i by push_cast; ring]
      exact ih

end Loop

section Pixel

variable {img : Raw} {x y : ℤ}

theorem checked_of_mem {len : ℕ} {x : ℤ} (h0 : 0 ≤ x) (h1 : x < len) : Raw.checked len x = x := by
  unfold Raw.checked
  rw [if_neg (by omega), if_neg (by omega)]

/-- Away from the edges no check changes a coordinate. -/
theorem slowRgb_val (m : ℤ → ℕ) (hx : 0 < x ∧ x + 1 < img.w) (hy : 0 < y ∧ y + 1 < img.h) :
    let p : ℤ → ℤ → ℕ := fun i j => m (j * img.w + i) % 256
    let corners := (p (x - 1) (y - 1) + p (x + 1) (y - 1) + p (x - 1) (y + 1) + p (x + 1) (y + 1)) >>> 2
    let sides := (p x (y - 1) + p x (y + 1) + p (x - 1) y + p (x + 1) y) >>> 2
    let rows := (p x (y - 1) + p x (y + 1)) >>> 1
    let columns := (p (x - 1) y + p (x + 1) y) >>> 1
    let c := slowRgb img x y
    (c.1.val m, c.2.1.val m, c.2.2.val m) =
      if y % 2 = 0 then if x % 2 = 0 then (corners, sides, p x y) else (rows, p x y, columns)
      else if x % 2 = 0 then (columns, p x y, rows) else (p x y, sides, corners) := by
  have hl : Raw.checked img.w (x - 1) = x - 1 := checked_of_mem (by omega) (by omega)
  have hr : Raw.checked img.w (x + 1) = x + 1 := checked_of_mem (by omega) (by omega)
  have hu : Raw.checked img.h (y - 1) = y - 1 := checked_of_mem (by omega) (by omega)
  have hd : Raw.checked img.h (y + 1) = y + 1 := checked_of_mem (by omega) (by omega)
  intro p corners sides rows columns c
  simp only [c, slowRgb, Raw.getPixelCheckBoundsX, Raw.getPixelCheckBoundsY, Raw.getPixelCheckBoundsXY, hl, hr, hu,
    hd]
  split_ifs <;> rfl

/-- The slow pixel from the three channels, as the fast loop would pack them. -/
theorem slowPixel_val {m : ℤ → ℕ} {r g b : ℕ} (hr : r < 256) (hg : g < 256)
    (h : ((slowRgb img x y).1.val m, (slowRgb img x y).2.1.val m, (slowRgb img x y).2.2.val m) = (r, g, b)) :
    (slowPixel img x y).val m = packR5G6B5 (r >>> 3, g >>> 2, b >>> 3) := by
  obtain ⟨h1, h2, h3⟩ : _ ∧ _ ∧ _ := by simpa only [Prod.mk.injEq] using h
  rw [packR5G6B5_shift hr hg, ← h1, ← h2, ← h3]
  rfl

/-- The three registers from the given column on. -/
def rowQuads (m : ℤ → ℕ) (img : Raw) (x y : ℤ) : Lines :=
  (fourBytes m ((y - 1) * img.w + x), fourBytes m (y * img.w + x), fourBytes m ((y + 1) * img.w + x))

theorem currentLeft_eq_slowPixel (m : ℤ → ℕ) (img : Raw) {x y : ℤ} (hx : 0 < x ∧ x + 1 < img.w)
    (hy : 0 < y ∧ y + 1 < img.h)
    (hodd : x % 2 = 1) :
    packR5G6B5 (currentLeft (y % 2 = 1) (rowQuads m img (x - 1) y)) = (slowPixel img x y).val m := by
  have hslow := slowRgb_val m hx hy
  dsimp only at hslow
  rw [rowQuads, currentLeft_fourBytes]
  have h1 : ∀ a : ℤ, a + (x - 1) + 1 = a + x := fun a => by ring
  have h2 : ∀ a : ℤ, a + (x - 1) + 2 = a + (x + 1) := fun a => by ring
  simp only [h1, h2]
  rw [if_neg (show ¬ x % 2 = 0 by omega), if_neg (show ¬ x % 2 = 0 by omega)] at hslow
  rcases Int.emod_two_eq_zero_or_one y with hy2 | hy2
  · rw [if_pos hy2] at hslow
    rw [slowPixel_val (by rw [Nat.shiftRight_eq_div_pow]; omega) (by omega) hslow]
    simp [hy2]
  · rw [if_neg (by omega)] at hslow
    rw [slowPixel_val (by omega) (by rw [Nat.shiftRight_eq_div_pow]; omega) hslow]
    simp [hy2]

theorem currentRight_eq_slowPixel (m : ℤ → ℕ) (img : Raw) {x y : ℤ} (hx : 0 < x ∧ x + 1 < img.w)
    (hy : 0 < y ∧ y + 1 < img.h)
    (heven : x % 2 = 0) :
    packR5G6B5 (currentRight (y % 2 = 1) (rowQuads m img (x - 2) y)) = (slowPixel img x y).val m := by
  have hslow := slowRgb_val m hx hy
  dsimp only at hslow
  rw [rowQuads, currentRight_fourBytes]
  have h1 : ∀ a : ℤ, a + (x - 2) + 1 = a + (x - 1) := fun a => by ring
  have h2 : ∀ a : ℤ, a + (x - 2) + 2 = a + x := fun a => by ring
  have h3 : ∀ a : ℤ, a + (x - 2) + 3 = a + (x + 1) := fun a => by ring
  simp only [h1, h2, h3]
  rw [if_pos heven, if_pos heven] at hslow
  rcases Int.emod_two_eq_zero_or_one y with hy2 | hy2
  · rw [if_pos hy2] at hslow
    rw [slowPixel_val (by rw [Nat.shiftRight_eq_div_pow]; omega) (by rw [Nat.shiftRight_eq_div_pow]; omega) hslow]
    simp [hy2]
  · rw [if_neg (by omega)] at hslow
    rw [slowPixel_val (by rw [Nat.shiftRight_eq_div_pow]; omega) (by omega) hslow]
    simp [hy2]

end Pixel

theorem not_isSlow {h xoffs yoffs y : ℕ} (hx : xoffs % 2 = 0) (hy : 0 < y) (hlast : y + 1 < yoffs + h) :
    ¬ isSlow h xoffs yoffs y := by
  rintro (h | h | h) <;> omega

theorem length_bayerRow {img : Raw} {up : ℤ} {w h xoffs yoffs : ℕ} (hw : 2 ≤ w) (heven : w % 2 = 0) (y : ℕ) :
    (bayerRow img up w h xoffs yoffs y).length = w := by
  unfold bayerRow
  split_ifs
  · rw [slowRow, List.length_map, List.length_range]
  · rw [length_fasterRow]
    omega

/-- The rows are written one after the other. -/
theorem imlibBayerToRgb565_getElem {img : Raw} {up : ℤ} {w h xoffs yoffs i j : ℕ} (hw : 2 ≤ w)
    (heven : w % 2 = 0) (hi : i < h) (hj : j < w) :
    (imlibBayerToRgb565 img up w h xoffs yoffs)[i * w + j]? = (bayerRow img up w h xoffs yoffs (yoffs + i))[j]? := by
  have hpiece := flatMap_range_piece (f := fun i => bayerRow img up w h xoffs yoffs (yoffs + i))
    (fun i => length_bayerRow hw heven (yoffs + i)) hi
  rw [← hpiece, List.getElem?_take, if_pos hj, List.getElem?_drop]
  rfl

/-- With an even width the words at `s[-w2]` and `s[w2]` are those above and below. -/
theorem quads_eq_rowQuads (m : ℤ → ℕ) {img : Raw} (heven : img.w % 2 = 0) (y : ℕ) (x : ℤ) :
    quads m (-(img.w / 2 : ℕ)) (img.w / 2 : ℕ) ((y * img.w : ℕ) + x) = rowQuads m img x y := by
  have hw : (2 : ℤ) * (img.w / 2 : ℕ) = img.w := by omega
  have hup : ((y * img.w : ℕ) : ℤ) + x + 2 * -(img.w / 2 : ℕ) = (y - 1) * img.w + x := by
    rw [mul_neg, hw, Nat.cast_mul]
    ring
  have hdown : ((y * img.w : ℕ) : ℤ) + x + 2 * (img.w / 2 : ℕ) = (y + 1) * img.w + x := by
    rw [hw, Nat.cast_mul]
    ring
  rw [quads, hup, hdown, rowQuads, Nat.cast_mul]

/-- A whole image, the row above taken for what it is meant to be: a pixel between the edges is written by the
    fast loop, and is what the checks of the slow one would have given. -/
theorem bayer_to_rgb565_fast_eq_slow (img : Raw) (hw : 4 ≤ img.w) (heven : img.w % 2 = 0) (hh : 3 ≤ img.h)
    (m : ℤ → ℕ) (x y : ℕ) (hx : 1 ≤ x ∧ x ≤ img.w - 2) (hy : 1 ≤ y ∧ y ≤ img.h - 2) :
    let w2 := img.w / 2
    bayerRow img (-w2) img.w img.h 0 0 y = fasterRow (-w2) w2 (y % 2 = 1) img.w (y * img.w : ℕ) ∧
    ((imlibBayerToRgb565 img (-w2) img.w img.h 0 0)[y * img.w + x]?).map (·.val m) =
      some ((slowPixel img x y).val m) := by
  intro w2
  have hrow : bayerRow img (-w2) img.w img.h 0 0 y = fasterRow (-w2) w2 (y % 2 = 1) img.w (y * img.w : ℕ) :=
    if_neg (not_isSlow rfl (by omega) (by omega))
  refine ⟨hrow, ?_⟩
  rw [imlibBayerToRgb565_getElem (by omega) heven (by omega) (by omega), Nat.zero_add, hrow, fasterRow]
  have hodd : decide (y % 2 = 1) = decide ((y : ℤ) % 2 = 1) := decide_eq_decide.mpr (by omega)
  obtain ⟨i, rfl | rfl⟩ : ∃ i, x = 2 * i + 1 ∨ x = 2 * i + 1 + 1 := ⟨(x - 1) / 2, by omega⟩
  · have hpixel := currentLeft_eq_slowPixel m img (x := (2 * i + 1 : ℕ)) (y := y) (by omega) (by omega) (by omega)
    rw [show ((2 * i + 1 : ℕ) : ℤ) - 1 = 2 * i by omega, ← hodd] at hpixel
    rw [List.getElem?_cons_succ, (middle_pair m (-w2) w2 (y % 2 = 1) (by omega) rfl).1, ← hpixel,
      quads_eq_rowQuads m heven]
  · have hpixel := currentRight_eq_slowPixel m img (x := (2 * i + 1 + 1 : ℕ)) (y := y) (by omega) (by omega)
      (by omega)
    rw [show ((2 * i + 1 + 1 : ℕ) : ℤ) - 2 = 2 * i by omega, ← hodd] at hpixel
    rw [List.getElem?_cons_succ, (middle_pair m (-w2) w2 (y % 2 = 1) (by omega) rfl).2, ← hpixel,
      quads_eq_rowQuads m heven]

theorem bayer_to_rgb565_fast_eq_slow_of_four_by_three :
    bayerRow ⟨4, 3⟩ (-(2 : ℕ)) 4 3 0 0 1 = fasterRow (-(2 : ℕ)) (2 : ℕ) true 4 (4 : ℕ) ∧
    ((imlibBayerToRgb565 ⟨4, 3⟩ (-(2 : ℕ)) 4 3 0 0)[1 * 4 + 2]?).map (·.val fun a => a.toNat * 20) =
      some ((slowPixel ⟨4, 3⟩ (2 : ℕ) (1 : ℕ)).val fun a => a.toNat * 20) :=
  bayer_to_rgb565_fast_eq_slow ⟨4, 3⟩ (by decide) (by decide) (by decide) (fun a => a.toNat * 20) 2 1
    (by decide) (by decide)

/-! ### What is read and written -/

section Inside

variable {α β : Type} (img : Raw)

/-- A value that is computed from the pixels of the image alone. -/
def Inside (x : Fetch α) : Prop := ∀ a ∈ x.reads, 0 ≤ a ∧ a < img.w * img.h

variable {img}

theorem Inside.add {x y : Fetch ℕ} (hx : Inside img x) (hy : Inside img y) : Inside img (x + y) :=
  Fetch.forall_add hx hy

theorem Inside.zip {x : Fetch α} {y : Fetch β} (hx : Inside img x) (hy : Inside img y) : Inside img (x.zip y) :=
  Fetch.forall_zip hx hy

theorem Inside.map {x : Fetch α} (hx : Inside img x) (f : α → β) : Inside img (x.map f) := hx

theorem inside_getPixel {x y : ℤ} (hx : 0 ≤ x ∧ x < img.w) (hy : 0 ≤ y ∧ y < img.h) :
    Inside img (img.getPixel x y) := by
  intro a ha
  obtain rfl : a = y * img.w + x := List.mem_singleton.mp ha
  have h0 : 0 ≤ y * img.w := mul_nonneg hy.1 (Int.natCast_nonneg _)
  have h1 : (y + 1) * img.w ≤ img.h * img.w := mul_le_mul_of_nonneg_right hy.2 (Int.natCast_nonneg _)
  rw [add_mul, one_mul] at h1
  exact ⟨by omega, by rw [mul_comm (img.w : ℤ)]; omega⟩

theorem checked_mem {len : ℕ} (h : 0 < len) (x : ℤ) : 0 ≤ Raw.checked len x ∧ Raw.checked len x < len := by
  unfold Raw.checked
  split_ifs <;> omega

theorem inside_slowPixel {x y : ℤ} (hx : 0 ≤ x ∧ x < img.w) (hy : 0 ≤ y ∧ y < img.h) :
    Inside img (slowPixel img x y) := by
  have hxs : ∀ i, 0 ≤ Raw.checked img.w i ∧ Raw.checked img.w i < img.w := checked_mem (by omega)
  have hys : ∀ j, 0 ≤ Raw.checked img.h j ∧ Raw.checked img.h j < img.h := checked_mem (by omega)
  have hhere := inside_getPixel hx hy
  have hX : ∀ i, Inside img (img.getPixelCheckBoundsX i y) := fun i => inside_getPixel (hxs i) hy
  have hY : ∀ j, Inside img (img.getPixelCheckBoundsY x j) := fun j => inside_getPixel hx (hys j)
  have hXY : ∀ i j, Inside img (img.getPixelCheckBoundsXY i j) := fun i j => inside_getPixel (hxs i) (hys j)
  have hrgb : Inside img (slowRgb img x y).1 ∧ Inside img (slowRgb img x y).2.1 ∧
      Inside img (slowRgb img x y).2.2 := by
    have hcorners := (((hXY (x - 1) (y - 1)).add (hXY (x + 1) (y - 1))).add (hXY (x - 1) (y + 1))).add
      (hXY (x + 1) (y + 1))
    have hsides := (((hY (y - 1)).add (hY (y + 1))).add (hX (x - 1))).add (hX (x + 1))
    have hrows := (hY (y - 1)).add (hY (y + 1))
    have hcolumns := (hX (x - 1)).add (hX (x + 1))
    unfold slowRgb
    split_ifs
    · exact ⟨hcorners.map _, hsides.map _, hhere⟩
    · exact ⟨hrows.map _, hhere, hcolumns.map _⟩
    · exact ⟨hcolumns.map _, hhere, hrows.map _⟩
    · exact ⟨hhere, hsides.map _, hcorners.map _⟩
  exact ((hrgb.1.zip hrgb.2.1).zip hrgb.2.2).map _

end Inside

/-- No row is left to the fast loop: the rows start in an odd column, or there are only the last row of the
    rectangle and the top row of the image. -/
def NoFastRow (h xoffs yoffs : ℕ) : Prop := xoffs % 2 = 1 ∨ h ≤ 1 ∨ (h = 2 ∧ yoffs = 0)

instance (h xoffs yoffs : ℕ) : Decidable (NoFastRow h xoffs yoffs) := inferInstanceAs (Decidable (_ ∨ _ ∨ _ ∧ _))

theorem isSlow_of_noFastRow {h xoffs yoffs i : ℕ} (hno : NoFastRow h xoffs yoffs) (hi : i < h) :
    isSlow h xoffs yoffs (yoffs + i) := by
  rcases hno with hno | hno | hno
  · exact .inl hno
  · exact .inr (.inr (by omega))
  · by_cases h0 : i = 0
    · exact .inr (.inl (by omega))
    · exact .inr (.inr (by omega))

theorem exists_fastRow {h xoffs yoffs : ℕ} (hno : ¬ NoFastRow h xoffs yoffs) :
    ∃ i < h, ¬ isSlow h xoffs yoffs (yoffs + i) := by
  unfold NoFastRow at hno
  push Not at hno
  by_cases h0 : yoffs = 0
  · exact ⟨1, by omega, not_isSlow (by omega) (by omega) (by omega)⟩
  · exact ⟨0, by omega, not_isSlow (by omega) (by omega) (by omega)⟩

theorem le_length_flatMap {α : Type} {f : ℕ → List α} {w : ℕ} (hf : ∀ i, w ≤ (f i).length) :
    ∀ l : List ℕ, l.length * w ≤ (l.flatMap f).length
  | [] => by rw [List.length_nil, Nat.zero_mul]; exact Nat.zero_le _
  | i :: l => by
    have ih := le_length_flatMap hf l
    have hi := hf i
    rw [List.flatMap_cons, List.length_append, List.length_cons, Nat.succ_mul]
    omega

/-- Pieces of no less than `w` that are `w` in the mean are all as long. -/
theorem length_eq_of_flatMap {α : Type} {f : ℕ → List α} {w : ℕ} (hf : ∀ i, w ≤ (f i).length) :
    ∀ {l : List ℕ}, (l.flatMap f).length = l.length * w → ∀ i ∈ l, (f i).length = w
  | j :: l, h, i, hi => by
    have hl := le_length_flatMap hf l
    have hj := hf j
    rw [List.flatMap_cons, List.length_append, List.length_cons, Nat.succ_mul] at h
    rcases List.mem_cons.mp hi with rfl | hi
    · omega
    · exact length_eq_of_flatMap hf (by omega) i hi

theorem le_length_bayerRow (img : Raw) (up : ℤ) (w h xoffs yoffs y : ℕ) :
    w ≤ (bayerRow img up w h xoffs yoffs y).length := by
  unfold bayerRow
  split_ifs
  · rw [slowRow, List.length_map, List.length_range]
  · rw [length_fasterRow]
    omega

/-- The first load of a fast row is four gigabytes, less a row or two, behind the pixel it is for. -/
theorem not_inside_firstCol {img : Raw} (hsize : img.w * img.h < 2 ^ 31) (hw : 2 ≤ img.w) (hh : 0 < img.h)
    (odd : Bool) (s : ℕ) :
    ¬ Inside img ((loads (negW2 (img.w / 2)) (img.w / 2 : ℕ) s).map fun l => packR5G6B5 (firstCol odd l)) := by
  intro h
  have hread := h (s + 2 * negW2 (img.w / 2)) (List.mem_cons_self ..)
  have hwle : img.w ≤ img.w * img.h := Nat.le_mul_of_pos_right _ hh
  have hneg : negW2 (img.w / 2) = 2 ^ 32 - (img.w / 2 : ℕ) := by
    unfold negW2
    omega
  rw [hneg, ← Nat.cast_mul] at hread
  omega

/-- A rectangle is converted within its bounds if and only if no row of it is left to the fast loop. -/
theorem bayer_to_rgb565_in_bounds_iff (img : Raw) (hsize : img.w * img.h < 2 ^ 31) (w h xoffs yoffs : ℕ)
    (hx : xoffs + w ≤ img.w) (hy : yoffs + h ≤ img.h) :
    let out := imlibBayerToRgb565 img (negW2 (img.w / 2)) w h xoffs yoffs
    (out.length = w * h ∧ ∀ p ∈ out, Inside img p) ↔ NoFastRow h xoffs yoffs := by
  intro out
  constructor
  · rintro ⟨hlen, hin⟩
    by_contra hno
    obtain ⟨i, hi, hfast⟩ := exists_fastRow hno
    have hrow : bayerRow img (negW2 (img.w / 2)) w h xoffs yoffs (yoffs + i) =
        fasterRow (negW2 (img.w / 2)) (img.w / 2 : ℕ) ((yoffs + i) % 2 = 1) w ((yoffs + i) * img.w + xoffs : ℕ) :=
      if_neg hfast
    -- the row has as many pixels as the rectangle is wide, so the width is even and not 0
    have hw := length_eq_of_flatMap (fun i => le_length_bayerRow img (negW2 (img.w / 2)) w h xoffs yoffs (yoffs + i))
      (l := List.range h) (by rw [List.length_range, mul_comm h]; exact hlen) i (List.mem_range.mpr hi)
    rw [hrow, length_fasterRow] at hw
    refine not_inside_firstCol hsize (by omega) (by omega) ((yoffs + i) % 2 = 1) ((yoffs + i) * img.w + xoffs) ?_
    refine hin _ (List.mem_flatMap.mpr ⟨i, List.mem_range.mpr hi, ?_⟩)
    rw [hrow]
    exact List.mem_cons_self ..
  · intro hno
    have hout : out = (List.range h).flatMap fun i => slowRow img w xoffs (yoffs + i) :=
      List.flatMap_congr fun i hi => if_pos (isSlow_of_noFastRow hno (List.mem_range.mp hi))
    rw [hout]
    constructor
    · rw [length_flatMap_range (n := w) (fun i => by rw [slowRow, List.length_map, List.length_range]), mul_comm]
    · intro p hp
      obtain ⟨i, hi, hp⟩ := List.mem_flatMap.mp hp
      obtain ⟨j, hj, rfl⟩ := List.mem_map.mp hp
      rw [List.mem_range] at hi hj
      exact inside_slowPixel ⟨by omega, by omega⟩ ⟨by omega, by omega⟩

theorem bayer_to_rgb565_in_bounds_of_one_pixel :
    let out := imlibBayerToRgb565 ⟨4, 3⟩ (negW2 (4 / 2)) 1 1 2 1
    (out.length = 1 * 1 ∧ ∀ p ∈ out, Inside ⟨4, 3⟩ p) ↔ NoFastRow 1 2 1 :=
  bayer_to_rgb565_in_bounds_iff ⟨4, 3⟩ (by decide) 1 1 2 1 (by decide) (by decide)

/-- A whole image of 4 × 3 pixels: the first load of its second row is almost at pixel `2^33`. And of 3 × 3
    pixels ten are written. -/
theorem bayer_to_rgb565_out_of_bounds :
    (∃ p ∈ imlibBayerToRgb565 ⟨4, 3⟩ (negW2 (4 / 2)) 4 3 0 0, ¬ Inside ⟨4, 3⟩ p) ∧
      (imlibBayerToRgb565 ⟨3, 3⟩ (negW2 (3 / 2)) 3 3 0 0).length = 10 := by
  refine ⟨⟨(loads (negW2 (4 / 2)) (4 / 2 : ℕ) (4 : ℕ)).map fun l => packR5G6B5 (firstCol true l), ?_,
    not_inside_firstCol (by decide) (by decide) (by decide) true 4⟩, rfl⟩
  exact List.mem_flatMap.mpr ⟨1, by decide, List.mem_cons_self ..⟩

end OpenMV.Vision
