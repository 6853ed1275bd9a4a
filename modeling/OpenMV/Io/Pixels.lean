import OpenMV.Io.File
import OpenMV.Schemes.Stores
import OpenMV.Vision.Image
import Mathlib.Tactic.IntervalCases

/-! Pixels of loaded images | scheme:data | source:src/src/openmv/omv/img/imlib.h

    The readers set width, height and format of an image and then store its pixels one by one into
    memory; the writers take the part of an image that a rectangle cuts out. Colours go from sixteen
    bits to three bytes and back. -/

namespace OpenMV.Io
open Schemes Vision

/-- The value a `uint32_t` holds after `x` is stored in it. -/
def uint32 (x : ℤ) : ℕ := (x % 4294967296).toNat

theorem uint32_of_mem {x : ℤ} (h1 : 0 ≤ x) (h2 : x < 4294967296) : (uint32 x : ℤ) = x := by
  unfold uint32
  omega

/-- `image_t` without its pixels. -/
structure Shape where
  w : ℤ
  h : ℤ
  bpp : Bpp
deriving DecidableEq, Repr

/-- The number in the field `bpp`; that of a JPEG image is its size. -/
def bppNum : Bpp → ℤ
  | .binary => 0
  | .grayscale => 1
  | .rgb565 => 2
  | .bayer => 3
  | .jpeg => 4

/-- `img->w * img->h * img->bpp`, as passed to `xalloc`. -/
def allocSize (img : Shape) : ℕ := uint32 (int32 (int32 (img.w * img.h) * bppNum img.bpp))

/-- The bytes of memory there are: `LENGTH` of `ram` in `kendryte.ld`. -/
def ramSize : ℤ := 6 * 1024 * 1024

/-- The index of `IM_SET_GS_PIXEL` and `IM_SET_RGB565_PIXEL`. -/
def pixelIndex (img : Shape) (x y : ℤ) : ℤ := int32 (int32 (y * img.w) + x)

/-- An image a reader returns: the bytes it allocated and the stores it made, as indices of pixels. -/
structure Loaded where
  shape : Shape
  alloc : ℕ
  stores : Stores
deriving DecidableEq, Repr

/-- The image, if `mem` was in the memory before. -/
def Loaded.image (l : Loaded) (mem : ℤ → ℕ) : Image where
  w := l.shape.w
  h := l.shape.h
  bpp := l.shape.bpp
  data x y := storeAll mem l.stores (y * l.shape.w + x)

theorem map_fst_mapIdx {s : List UInt8} {n : ℕ} (h : s.length = n) :
    (s.mapIdx fun k b => ((k : ℤ), b.toNat)).map Prod.fst = (List.range n).map (Nat.cast : ℕ → ℤ) := by
  apply List.ext_getElem
  · simp [h]
  · intro k h1 h2
    simp

/-- Bytes that are read in one go are stored one after the other. -/
theorem storeAll_bytes_of_lt (s : List UInt8) (mem : ℤ → ℕ) {k : ℕ} (hk : k < s.length) :
    storeAll mem (s.mapIdx fun k b => ((k : ℤ), b.toNat)) k = (s.getD k 0).toNat := by
  refine storeAll_of_mem ?_ ?_
  · rw [map_fst_mapIdx rfl]
    exact List.nodup_range.map fun a b h => Int.ofNat.inj h
  · rw [List.mem_mapIdx]
    exact ⟨k, hk, by simp [hk]⟩

theorem storeAll_bytes_of_not (s : List UInt8) (mem : ℤ → ℕ) {k : ℤ} (hk : ¬ (0 ≤ k ∧ k < s.length)) :
    storeAll mem (s.mapIdx fun k b => ((k : ℤ), b.toNat)) k = mem k := by
  refine storeAll_of_notMem fun hmem => hk ?_
  rw [map_fst_mapIdx rfl] at hmem
  obtain ⟨a, ha, rfl⟩ := List.mem_map.1 hmem
  have ha := List.mem_range.1 ha
  omega

/-! ### Colours -/

def colorRgb565ToR8 (pixel : ℕ) : ℕ :=
  let p := (pixel >>> 8) &&& 0xF8
  p ||| (p >>> 5)

def colorRgb565ToG8 (pixel : ℕ) : ℕ :=
  let p := (pixel >>> 3) &&& 0xFC
  p ||| (p >>> 6)

def colorRgb565ToB8 (pixel : ℕ) : ℕ :=
  let p := (pixel <<< 3) &&& 0xF8
  p ||| (p >>> 5)

def colorR8G8B8ToRgb565 (r8 g8 b8 : ℕ) : ℕ :=
  ((r8 &&& 0xF8) <<< 8) ||| ((g8 &&& 0xFC) <<< 3) ||| (b8 >>> 3)

/-- A mask of `k` ones from bit `n` on. -/
theorem testBit_mask (k n j : ℕ) : Nat.testBit ((2 ^ k - 1) <<< n) j = decide (n ≤ j ∧ j < n + k) := by
  rw [Nat.testBit_shiftLeft, Nat.testBit_two_pow_sub_one, ← Bool.decide_and]
  exact decide_eq_decide.mpr (by omega)

theorem testBit_f8 (j : ℕ) : Nat.testBit 0xF8 j = decide (3 ≤ j ∧ j < 8) := testBit_mask 5 3 j

theorem testBit_fc (j : ℕ) : Nat.testBit 0xFC j = decide (2 ≤ j ∧ j < 8) := testBit_mask 6 2 j

/-- No colour is lost on the way through three bytes. -/
theorem colorR8G8B8ToRgb565_of_rgb565 {pixel : ℕ} (h : pixel < 65536) :
    colorR8G8B8ToRgb565 (colorRgb565ToR8 pixel) (colorRgb565ToG8 pixel) (colorRgb565ToB8 pixel) =
      pixel := by
  unfold colorR8G8B8ToRgb565 colorRgb565ToR8 colorRgb565ToG8 colorRgb565ToB8
  apply Nat.eq_of_testBit_eq
  intro i
  simp only [Nat.testBit_or, Nat.testBit_and, Nat.testBit_shiftLeft, Nat.testBit_shiftRight,
    testBit_f8, testBit_fc]
  by_cases hi : i < 16
  · interval_cases i <;> simp
  · -- above the sixteen bits both sides are zero
    have hp : pixel.testBit i = false :=
      Nat.testBit_lt_two_pow (lt_of_lt_of_le (show pixel < 2 ^ 16 from h)
        (Nat.pow_le_pow_right (by omega) (not_lt.1 hi)))
    rw [hp, decide_eq_false (by omega : ¬ (3 ≤ i - 8 ∧ i - 8 < 8)),
      decide_eq_false (by omega : ¬ (2 ≤ i - 3 ∧ i - 3 < 8)),
      decide_eq_false (by omega : ¬ (3 ≤ 3 + i ∧ 3 + i < 8)),
      decide_eq_false (by omega : ¬ (3 ≤ 5 + (3 + i) ∧ 5 + (3 + i) < 8))]
    simp

/-! ### Rectangles -/

/-- `rectangle_t`; the fields are `int16_t`. -/
structure Rectangle where
  x : ℤ
  y : ℤ
  w : ℤ
  h : ℤ
deriving DecidableEq, Repr

/-- The fields hold what an `int16_t` can hold. -/
structure Rectangle.Ok (r : Rectangle) : Prop where
  x : -32768 ≤ r.x ∧ r.x ≤ 32767
  y : -32768 ≤ r.y ∧ r.y ≤ 32767
  w : -32768 ≤ r.w ∧ r.w ≤ 32767
  h : -32768 ≤ r.h ∧ r.h ≤ 32767

def rectangleIntersects (r1 r2 : Rectangle) : Prop :=
  r1.x < r2.x + r2.w ∧ r1.y < r2.y + r2.h ∧ r1.x + r1.w > r2.x ∧ r1.y + r1.h > r2.y

instance (r1 r2 : Rectangle) : Decidable (rectangleIntersects r1 r2) :=
  inferInstanceAs (Decidable (_ ∧ _))

/-- The part of the image inside the rectangle, `none` if there is none. -/
def rectangleSubimg (w h : ℤ) (r : Rectangle) : Option Rectangle :=
  let rImg : Rectangle := ⟨0, 0, int16 w, int16 h⟩
  if rectangleIntersects rImg r then
    let x := int16 (max rImg.x r.x)
    let y := int16 (max rImg.y r.y)
    some
      { x := x
        y := y
        w := int16 (min (rImg.x + rImg.w) (r.x + r.w) - x)
        h := int16 (min (rImg.y + rImg.h) (r.y + r.h) - y) }
  else none

/-- The rectangle shares a pixel with an image of this size. -/
structure Meets (w h : ℤ) (r : Rectangle) : Prop where
  x : max 0 r.x < min w (r.x + r.w)
  y : max 0 r.y < min h (r.y + r.h)

/-- The common part of the rectangle and an image of this size. -/
def Rectangle.clip (r : Rectangle) (w h : ℤ) : Rectangle where
  x := max 0 r.x
  y := max 0 r.y
  w := min w (r.x + r.w) - max 0 r.x
  h := min h (r.y + r.h) - max 0 r.y

/-- The sizes of the image, cut to the sixteen bits of a rectangle, still end where they should. -/
def SubimgFits (w h : ℤ) (r : Rectangle) : Prop :=
  min (int16 w) (r.x + r.w) = min w (r.x + r.w) ∧ min (int16 h) (r.y + r.h) = min h (r.y + r.h)

theorem rectangleSubimg_of_some {w h : ℤ} {r rect : Rectangle} (hr : r.Ok)
    (hsub : rectangleSubimg w h r = some rect) :
    rect = ⟨max 0 r.x, max 0 r.y, min (int16 w) (r.x + r.w) - max 0 r.x,
      min (int16 h) (r.y + r.h) - max 0 r.y⟩ ∧
    (-32767 ≤ rect.w ∧ rect.w ≤ 32767) ∧ (-32767 ≤ rect.h ∧ rect.h ≤ 32767) := by
  obtain ⟨hx, hy, hw, hh⟩ := hr
  simp only [rectangleSubimg] at hsub
  split_ifs at hsub with hmeet
  obtain ⟨h1, h2, h3, h4⟩ := hmeet
  have hiw : -32768 ≤ int16 w ∧ int16 w ≤ 32767 := by
    unfold int16
    omega
  have hih : -32768 ≤ int16 h ∧ int16 h ≤ 32767 := by
    unfold int16
    omega
  obtain rfl := Option.some.inj hsub
  dsimp only at *
  generalize int16 w = iw at *
  generalize int16 h = ih at *
  rw [int16_of_mem (x := max 0 r.x) (by omega) (by omega),
    int16_of_mem (x := max 0 r.y) (by omega) (by omega),
    int16_of_mem (by omega) (by omega), int16_of_mem (by omega) (by omega), zero_add, zero_add]
  exact ⟨rfl, by omega, by omega⟩

theorem rectangleSubimg_eq_clip {w h : ℤ} {r : Rectangle} (hr : r.Ok) (hmeet : Meets w h r)
    (hfit : SubimgFits w h r) : rectangleSubimg w h r = some (r.clip w h) := by
  obtain ⟨hx, hy⟩ := hmeet
  obtain ⟨hfx, hfy⟩ := hfit
  have hsome : ∃ rect, rectangleSubimg w h r = some rect := by
    unfold rectangleSubimg
    rw [if_pos ⟨by dsimp only; omega, by dsimp only; omega, by dsimp only; omega, by dsimp only; omega⟩]
    exact ⟨_, rfl⟩
  obtain ⟨rect, hrect⟩ := hsome
  rw [hrect, (rectangleSubimg_of_some hr hrect).1, hfx, hfy]
  rfl

/-- `img'` is the part of `img` in the rectangle. -/
structure IsSubimage (img : Image) (rect : Rectangle) (img' : Image) : Prop where
  w : img'.w = rect.w
  h : img'.h = rect.h
  bpp : img'.bpp = img.bpp
  pixel : ∀ x y, 0 ≤ x → x < rect.w → 0 ≤ y → y < rect.h →
    img'.pixel x y = img.pixel (rect.x + x) (rect.y + y)

/-! ### File names -/

/-- `save_image_format_t` -/
inductive SaveImageFormat where
  | dontCare
  | bmp
  | pnm
  | jpg
  | raw
deriving DecidableEq, Repr

/-- The path ends so, in small or capital letters. -/
def hasExtension (path ext : List Char) : Prop :=
  (path.reverse.take ext.length).map Char.toLower = ext.reverse

instance (path ext : List Char) : Decidable (hasExtension path ext) :=
  inferInstanceAs (Decidable (_ = _))

def imblibParseExtension (bpp : Bpp) (path : List Char) : Except FileError SaveImageFormat :=
  if hasExtension path ['.', 'j', 'p', 'e', 'g'] then .ok .jpg
  else if hasExtension path ['.', 'j', 'p', 'g'] then .ok .jpg
  else if hasExtension path ['.', 'b', 'm', 'p'] then
    if bpp = .jpeg ∨ bpp = .bayer then .error .notBmp else .ok .bmp
  else if hasExtension path ['.', 'p', 'p', 'm'] then
    if bpp ≠ .rgb565 then .error .notPpm else .ok .pnm
  else if hasExtension path ['.', 'p', 'g', 'm'] then
    if bpp ≠ .grayscale then .error .notPgm else .ok .pnm
  else if hasExtension path ['.', 'r', 'a', 'w'] then
    if bpp ≠ .bayer then .error .notBayer else .ok .raw
  else .ok .dontCare

end OpenMV.Io
