import OpenMV.Filters.Kernel

/-! Negation | scheme:sweep | source:src/src/openmv/omv/img/mathop.c

    `imlib_negate` turns over the pixels of a row many at a time, as long as there are that many left, and
    the rest one by one. -/

namespace OpenMV.Filters
open Schemes Vision Io

/-- The unit with all bits turned over. -/
def complementUnit (bpp : Bpp) (u : ℕ) : ℕ := levels bpp - 1 - u % levels bpp

/-- `s[0] = ~s[0]`: the `n` pixels from `x` on. -/
def negateWord (bpp : Bpp) (n : ℕ) (y : ℤ) (data : ℤ → ℤ → ℕ) (x : ℕ) : ℤ → ℤ → ℕ :=
  fun c r => if r = y ∧ (x : ℤ) ≤ c ∧ c < x + n then complementUnit bpp (data c r) else data c r

/-- `(COLOR_…_MAX - COLOR_…_MIN) - dataPixel`; for RGB565 it is `~dataPixel`, which leaves the same 16 bits. -/
def negatePixel (bpp : Bpp) (y : ℤ) (data : ℤ → ℤ → ℕ) (x : ℕ) : ℤ → ℤ → ℕ :=
  put data x y (putPixel bpp (levels bpp - 1 - getPixel bpp (data x y)))

/-- A row of `w` pixels: words of `n`, and the rest. -/
def negateRow (bpp : Bpp) (n words w : ℕ) (data : ℤ → ℤ → ℕ) (y : ℤ) : ℤ → ℤ → ℕ :=
  let data := (List.range words).foldl (fun data i => negateWord bpp n y data (n * i)) data
  (List.range' (n * words) (w - n * words)).foldl (negatePixel bpp y) data

def negateRows (bpp : Bpp) (n words : ℕ) (img : Image) : Image :=
  let rows := (List.range img.h.toNat).foldl
    (fun data (y : ℕ) => negateRow bpp n words img.w.toNat data y) img.data
  { img with data := rows }

/-- 32 bits, or two words of four bytes, at a time. -/
def imlibNegate (img : Image) : Image :=
  match img.bpp with
  | .binary => negateRows .binary 32 (img.w.toNat / 32) img
  | .grayscale => negateRows .grayscale 8 (img.w.toNat / 8) img
  | .rgb565 => negateRows .rgb565 1 0 img
  | .bayer | .jpeg => img

/-! ### A row -/

variable {bpp : Bpp} {n : ℕ} {y : ℤ}

theorem complementUnit_eq (bpp : Bpp) (u : ℕ) :
    (complementUnit bpp u : ℤ) = levels bpp - 1 - getPixel bpp u := by
  have hlt := Nat.mod_lt u (levels_pos bpp)
  unfold complementUnit getPixel
  omega

theorem putPixel_complement (bpp : Bpp) (u : ℕ) :
    putPixel bpp (levels bpp - 1 - getPixel bpp u) = complementUnit bpp u := by
  have hmem := getPixel_mem bpp u
  rw [putPixel, Int.emod_eq_of_lt (by omega) (by omega), ← complementUnit_eq, Int.toNat_natCast]

/-- The words turn over the pixels up to where they end. -/
theorem foldl_negateWord (data : ℤ → ℤ → ℕ) (c r : ℤ) (hc : 0 ≤ c) : ∀ m,
    (List.range m).foldl (fun data i => negateWord bpp n y data (n * i)) data c r =
      if r = y ∧ c < n * m then complementUnit bpp (data c r) else data c r
  | 0 => (if_neg fun h => by simpa using h.2.trans_le hc).symm
  | m + 1 => by
      rw [List.range_succ, List.foldl_append, List.foldl_cons, List.foldl_nil, negateWord,
        foldl_negateWord data c r hc m]
      push_cast
      rw [show (n : ℤ) * (m + 1) = n * m + n by ring]
      by_cases hr : r = y
      · by_cases hm : c < n * m
        · rw [if_neg (by omega), if_pos ⟨hr, hm⟩, if_pos ⟨hr, by omega⟩]
        · rw [if_neg (by omega : ¬ (r = y ∧ c < n * m))]
          by_cases hm' : c < n * m + n
          · rw [if_pos ⟨hr, by omega, hm'⟩, if_pos ⟨hr, hm'⟩]
          · rw [if_neg (by omega), if_neg (by omega)]
      · rw [if_neg (by omega), if_neg (by omega), if_neg (by omega)]

/-- Pixels one by one. -/
theorem foldl_negatePixel (data : ℤ → ℤ → ℕ) (c r : ℤ) (s : ℕ) : ∀ m,
    (List.range' s m).foldl (negatePixel bpp y) data c r =
      if r = y ∧ (s : ℤ) ≤ c ∧ c < s + m then complementUnit bpp (data c r) else data c r
  | 0 => (if_neg (by omega)).symm
  | m + 1 => by
      have ih := foldl_negatePixel data c r s m
      rw [List.range'_1_concat, List.foldl_append, List.foldl_cons, List.foldl_nil, negatePixel, put]
      by_cases hlast : c = (s + m : ℕ) ∧ r = y
      · rw [if_pos hlast, ← hlast.1, putPixel_complement]
        rw [hlast.2] at ih ⊢
        rw [ih, if_neg (by omega), if_pos (by omega)]
      · rw [if_neg hlast, ih]
        refine if_congr ?_ rfl rfl
        push_cast at hlast ⊢
        omega

theorem negateRow_apply (words : ℕ) {w : ℕ} (hw : n * words ≤ w) (data : ℤ → ℤ → ℕ) (c r : ℤ)
    (hc : 0 ≤ c) : negateRow bpp n words w data y c r =
      if r = y ∧ c < w then complementUnit bpp (data c r) else data c r := by
  have hcast : ((n * words : ℕ) : ℤ) + ((w - n * words : ℕ) : ℤ) = w := by omega
  rw [negateRow, foldl_negatePixel, foldl_negateWord data c r hc, hcast]
  push_cast at hcast ⊢
  by_cases hr : r = y
  · by_cases hm : c < n * words
    · rw [if_neg (by omega), if_pos ⟨hr, hm⟩, if_pos ⟨hr, by omega⟩]
    · rw [if_neg (by omega : ¬ (r = y ∧ c < n * words))]
      refine if_congr ?_ rfl rfl
      omega
  · rw [if_neg (by omega), if_neg (by omega), if_neg (by omega)]

/-! ### The image -/

theorem negateRows_data (words : ℕ) {w : ℕ} (hw : n * words ≤ w) (data : ℤ → ℤ → ℕ) (c r : ℤ)
    (hc : 0 ≤ c) (hcw : c < w) (hr : 0 ≤ r) : ∀ h,
    (List.range h).foldl (fun data (y : ℕ) => negateRow bpp n words w data y) data c r =
      if r < h then complementUnit bpp (data c r) else data c r
  | 0 => (if_neg (by omega)).symm
  | h + 1 => by
      rw [List.range_succ, List.foldl_append, List.foldl_cons, List.foldl_nil, negateRow_apply words hw _ c r hc,
        negateRows_data words hw data c r hc hcw hr h]
      by_cases hrow : r = h
      · rw [if_pos ⟨hrow, hcw⟩, if_neg (by omega), if_pos (by push_cast; omega)]
      · rw [if_neg (fun h' => hrow h'.1)]
        refine if_congr ?_ rfl rfl
        push_cast
        omega

theorem negateRows_pixel {img : Image} (hb : img.bpp = bpp) {words : ℕ} (hw : n * words ≤ img.w.toNat)
    {x y : ℤ} (hm : img.Mem (x, y)) :
    (negateRows bpp n words img).pixel x y = levels bpp - 1 - img.pixel x y := by
  obtain ⟨hx0, hxw, hy0, hyh⟩ : 0 ≤ x ∧ x < img.w ∧ 0 ≤ y ∧ y < img.h := hm
  have hdata : (negateRows bpp n words img).data x y = complementUnit bpp (img.data x y) := by
    change (List.range img.h.toNat).foldl
      (fun data (y : ℕ) => negateRow bpp n words img.w.toNat data y) img.data x y = _
    rw [negateRows_data words hw img.data x y hx0 (by omega) hy0, if_pos (by omega)]
  have hlt : complementUnit bpp (img.data x y) < levels bpp := by
    have := levels_pos bpp
    unfold complementUnit
    omega
  rw [image_pixel, image_pixel, show (negateRows bpp n words img).bpp = bpp from hb, hb, hdata, getPixel,
    Nat.mod_eq_of_lt hlt, complementUnit_eq]

theorem imlibNegate_shape (img : Image) :
    (imlibNegate img).w = img.w ∧ (imlibNegate img).h = img.h ∧ (imlibNegate img).bpp = img.bpp := by
  unfold imlibNegate
  split <;> exact ⟨rfl, rfl, rfl⟩

/-- Every pixel of the image is turned over. -/
theorem imlibNegate_pixel {img : Image} (hb : img.bpp = .binary ∨ img.bpp = .grayscale ∨ img.bpp = .rgb565)
    {x y : ℤ} (hm : img.Mem (x, y)) :
    (imlibNegate img).pixel x y = levels img.bpp - 1 - img.pixel x y := by
  unfold imlibNegate
  rcases hb with hb | hb | hb <;> simp only [hb]
  · exact negateRows_pixel hb (Nat.mul_div_le _ _) hm
  · exact negateRows_pixel hb (Nat.mul_div_le _ _) hm
  · exact negateRows_pixel hb (Nat.zero_le _) hm

end OpenMV.Filters
