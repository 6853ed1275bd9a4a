import OpenMV.Filters.Kernel
import Mathlib.Algebra.Order.Floor.Ring
import Mathlib.Data.Rat.Floor
import Mathlib.Order.Bounds.Basic

/-! Midpoint filter | scheme:fold | source:src/src/openmv/omv/img/filter.c

    `imlib_midpoint_filter` looks for the smallest and the largest value of the window in one pass and takes a
    value between them, with a table for the way from the one to the other. A pixel that lowers the minimum
    is not looked at for the maximum. So the first pixel of the window does not count for it, unless it is
    the top value; when no later pixel is as large, the maximum is missed, and the difference that the table is
    read with can be negative. -/

namespace OpenMV.Filters
open Schemes Vision Io

/-! ### The filter -/

/-- `if (pixel < min) min = pixel; else if (pixel > max) max = pixel;` -/
def extreme (s : ℤ × ℤ) (pixel : ℤ) : ℤ × ℤ :=
  if pixel < s.1 then (pixel, s.2) else if pixel > s.2 then (s.1, pixel) else s

/-- The same of the three channels. -/
def extremeRgb (s : (ℤ × ℤ) × (ℤ × ℤ) × ℤ × ℤ) (u : ℕ) : (ℤ × ℤ) × (ℤ × ℤ) × ℤ × ℤ :=
  (extreme s.1 (redOf u), extreme s.2.1 (greenOf u), extreme s.2.2 (blueOf u))

/-- `min &= pixel; max |= pixel;` -/
def extremeBinary (s : ℕ × ℕ) (u : ℕ) : ℕ × ℕ :=
  (s.1 &&& (getPixel .binary u).toNat, s.2 ||| (getPixel .binary u).toNat)

/-- `u8BiasTable`, and what else a load from it may find: `mulf` is the product of a float and an `int` as the
    target computes it, and `mem` the memory around the table. -/
def biasTable (mulf : ℚ → ℤ → ℚ) (mem : ℤ → ℕ) (bias : ℚ) (i : ℤ) : ℕ :=
  if 0 ≤ i ∧ i < 256 then (⌊mulf bias i⌋ % 256).toNat else mem i % 256

section Branches

variable (img : Image) (ksize : ℕ) (t : Threshold) (mask : Option Image)

/-- `blendf` is `(min*min_bias)+(max*max_bias)` as the target computes it. -/
def midpointBinary (blendf : ℕ → ℕ → ℚ → ℚ) (bias : ℚ) : RowFilter ℕ (ℕ × ℕ) :=
  rowFilter .binary img ksize mask id
    (fun data x y _ => scanWindow img.w img.h ksize extremeBinary (1, 0) data x y)
    fun s orig => thresholdBinary t ⌊blendf s.1 s.2 bias⌋ orig

def midpointGrayscale (table : ℤ → ℕ) : RowFilter ℕ (ℤ × ℤ) :=
  rowFilter .grayscale img ksize mask id
    (fun data x y _ => scanWindow img.w img.h ksize (fun s u => extreme s (getPixel .grayscale u)) (255, 0)
      data x y)
    fun s orig => thresholdGrayscale t (s.1 + table (s.2 - s.1)) orig

def midpointRgb565 (table : ℤ → ℕ) : RowFilter ℕ ((ℤ × ℤ) × (ℤ × ℤ) × ℤ × ℤ) :=
  rowFilter .rgb565 img ksize mask id
    (fun data x y _ => scanWindow img.w img.h ksize extremeRgb ((31, 0), (63, 0), (31, 0)) data x y)
    fun s orig => thresholdRgb565 t (colorR5G6B5ToRgb565 (s.1.1 + table (s.1.2 - s.1.1))
      (s.2.1.1 + table (s.2.1.2 - s.2.1.1)) (s.2.2.1 + table (s.2.2.2 - s.2.2.1))) orig

end Branches

/-- `buf` is what the line buffer holds when the filter gets it. -/
def imlibMidpointFilter (mulf : ℚ → ℤ → ℚ) (blendf : ℕ → ℕ → ℚ → ℚ) (mem : ℤ → ℕ) (buf : ℤ → ℤ → ℕ)
    (img : Image) (ksize : ℕ) (bias : ℚ) (t : Threshold) (mask : Option Image) : Image :=
  match img.bpp with
  | .binary => filtered img (midpointBinary img ksize t mask blendf bias) buf (1, 0)
  | .grayscale => filtered img (midpointGrayscale img ksize t mask (biasTable mulf mem bias)) buf (255, 0)
  | .rgb565 => filtered img (midpointRgb565 img ksize t mask (biasTable mulf mem bias)) buf
      ((31, 0), (63, 0), (31, 0))
  | .bayer | .jpeg => img

/-- The minimum and the maximum that a pixel is computed from, one of each for a channel. -/
def midpointExtremes (mulf : ℚ → ℤ → ℚ) (mem : ℤ → ℕ) (buf : ℤ → ℤ → ℕ) (img : Image) (ksize : ℕ) (bias : ℚ)
    (t : Threshold) (mask : Option Image) (x y : ℤ) : List (ℤ × ℤ) :=
  match img.bpp with
  | .grayscale => [keptAt img (midpointGrayscale img ksize t mask (biasTable mulf mem bias)) buf (255, 0) x y]
  | .rgb565 =>
    let s := keptAt img (midpointRgb565 img ksize t mask (biasTable mulf mem bias)) buf
      ((31, 0), (63, 0), (31, 0)) x y
    [s.1, s.2.1, s.2.2]
  | .binary | .bayer | .jpeg => []

/-! ### One pass -/

theorem extreme_fst (s : ℤ × ℤ) (p : ℤ) : (extreme s p).1 = min s.1 p := by
  unfold extreme
  grind

theorem extreme_snd (s : ℤ × ℤ) (p : ℤ) : (extreme s p).2 = if p < s.1 then s.2 else max s.2 p := by
  unfold extreme
  grind

/-- The minimum is found. The maximum is none of the pixels or one of them, and no pixel that is above the
    minimum at the start is larger. -/
theorem extremes_spec : ∀ (l : List ℤ) (s : ℤ × ℤ),
    ((l.foldl extreme s).1 ≤ s.1 ∧ (∀ p ∈ l, (l.foldl extreme s).1 ≤ p) ∧
      ((l.foldl extreme s).1 = s.1 ∨ (l.foldl extreme s).1 ∈ l)) ∧
    (s.2 ≤ (l.foldl extreme s).2 ∧ (∀ p ∈ l, s.1 ≤ p → p ≤ (l.foldl extreme s).2) ∧
      ((l.foldl extreme s).2 = s.2 ∨ (l.foldl extreme s).2 ∈ l))
  | [], s => ⟨⟨le_rfl, by simp, .inl rfl⟩, le_rfl, by simp, .inl rfl⟩
  | p :: l, s => by
      obtain ⟨⟨h1, h2, h3⟩, h4, h5, h6⟩ := extremes_spec l (extreme s p)
      rw [List.foldl_cons]
      generalize l.foldl extreme (extreme s p) = r at *
      have hmin := extreme_fst s p
      have hmax := extreme_snd s p
      generalize extreme s p = e at *
      have hmax' : s.2 ≤ e.2 ∧ (s.1 ≤ p → p ≤ e.2) ∧ (e.2 = s.2 ∨ e.2 = p) := by
        rw [hmax]
        split_ifs <;> omega
      have hall : ∀ q ∈ p :: l, r.1 ≤ q := List.forall_mem_cons.mpr ⟨by omega, h2⟩
      have hall' : ∀ q ∈ p :: l, s.1 ≤ q → q ≤ r.2 :=
        List.forall_mem_cons.mpr ⟨fun h => (hmax'.2.1 h).trans h4, fun q hq hsq => h5 q hq (by omega)⟩
      refine ⟨⟨by omega, hall, ?_⟩, hmax'.1.trans h4, hall', ?_⟩
      · rcases h3 with h3 | h3
        · rcases min_choice s.1 p with h | h
          · exact .inl (by omega)
          · exact .inr (List.mem_cons.mpr (.inl (by omega)))
        · exact .inr (List.mem_cons_of_mem _ h3)
      · rcases h6 with h6 | h6
        · rcases hmax'.2.2 with h | h
          · exact .inl (h6.trans h)
          · exact .inr (List.mem_cons.mpr (.inl (h6.trans h)))
        · exact .inr (List.mem_cons_of_mem _ h6)

/-- The first pixel of the window is at an end of the scale, or there is another one as large. -/
def MaxFound (top : ℤ) : List ℤ → Prop
  | [] => False
  | p :: l => p = 0 ∨ p = top ∨ ∃ q ∈ l, p ≤ q

instance (top : ℤ) (l : List ℤ) : Decidable (MaxFound top l) := by
  cases l with
  | nil => exact instDecidableFalse
  | cons p l => exact inferInstanceAs (Decidable (_ ∨ _ ∨ ∃ q ∈ l, p ≤ q))

theorem extremes_min {top : ℤ} {l : List ℤ} (hl : l ≠ []) (h : ∀ p ∈ l, 0 ≤ p ∧ p ≤ top) :
    IsLeast {p | p ∈ l} (l.foldl extreme (top, 0)).1 := by
  obtain ⟨⟨-, h2, h3⟩, -⟩ := extremes_spec l (top, 0)
  refine ⟨h3.elim (fun heq => ?_) id, h2⟩
  -- a minimum that was never lowered is that of a window of top values
  obtain ⟨p, hp⟩ := List.exists_mem_of_ne_nil l hl
  have hle := h2 p hp
  have htop := (h p hp).2
  rw [Set.mem_ofPred_eq, heq]
  rw [heq] at hle
  rwa [show (top, (0 : ℤ)).1 = p from le_antisymm hle htop]

theorem extremes_max_iff {top : ℤ} (htop : 0 < top) {l : List ℤ} (hl : l ≠ []) (h : ∀ p ∈ l, 0 ≤ p ∧ p ≤ top) :
    IsGreatest {p | p ∈ l} (l.foldl extreme (top, 0)).2 ↔ MaxFound top l := by
  cases l with
  | nil => exact absurd rfl hl
  | cons p l =>
    obtain ⟨hp, hrest⟩ := List.forall_mem_cons.mp h
    rw [List.foldl_cons]
    by_cases hlt : p < top
    · rw [show extreme (top, 0) p = (p, 0) from if_pos hlt]
      obtain ⟨-, h4, h5, h6⟩ := extremes_spec l (p, 0)
      dsimp only at h4 h5 h6
      generalize (l.foldl extreme (p, 0)).2 = m at *
      constructor
      · rintro ⟨hm, hall⟩
        have hpm : p ≤ m := hall (List.mem_cons_self ..)
        rcases h6 with rfl | hml
        · exact .inl (le_antisymm hpm hp.1)
        · exact .inr (.inr ⟨m, hml, hpm⟩)
      · intro hfound
        have hpm : p ≤ m := by
          rcases hfound with rfl | rfl | ⟨q, hq, hpq⟩
          · exact h4
          · exact absurd hlt (lt_irrefl _)
          · exact hpq.trans (h5 q hq hpq)
        refine ⟨?_, ?_⟩
        · rcases h6 with rfl | hml
          · exact List.mem_cons.mpr (.inl (le_antisymm hp.1 hpm))
          · exact List.mem_cons_of_mem _ hml
        · intro q hq
          rcases List.mem_cons.mp hq with rfl | hq
          · exact hpm
          · rcases le_or_gt p q with hpq | hqp
            · exact h5 q hq hpq
            · exact hqp.le.trans hpm
    · obtain rfl : p = top := le_antisymm hp.2 (not_lt.mp hlt)
      refine ⟨fun _ => .inr (.inl rfl), fun _ => ?_⟩
      have hstep : extreme (p, 0) p = (p, p) := by
        unfold extreme
        rw [if_neg (lt_irrefl _), if_pos (show p > 0 from htop)]
      rw [hstep]
      obtain ⟨-, h4, -, h6⟩ := extremes_spec l (p, p)
      have hle : (l.foldl extreme (p, p)).2 ≤ p :=
        h6.elim (fun heq => heq.le) fun hmem => (hrest _ hmem).2
      rw [le_antisymm hle h4]
      exact ⟨List.mem_cons_self .., fun q hq => (h q hq).2⟩

/-! ### The image -/

/-- The channels that are looked at, with the top of their scales. -/
def midpointChannels : Bpp → List ((ℤ → ℤ) × ℤ)
  | .grayscale => [(id, 255)]
  | .rgb565 => [(colorRgb565ToR5, 31), (colorRgb565ToG6, 63), (colorRgb565ToB5, 31)]
  | .binary | .bayer | .jpeg => []

/-- The values of a channel in the window of a pixel, in the order they are read. -/
def windowValues (chan : ℤ → ℤ) (img : Image) (ksize : ℕ) (x y : ℤ) : List ℤ :=
  (window img.pixel img.w img.h ksize x y).map chan

theorem windowValues_ne_nil (chan : ℤ → ℤ) (img : Image) (ksize : ℕ) (x y : ℤ) :
    windowValues chan img ksize x y ≠ [] := by
  rw [windowValues, Ne, List.map_eq_nil_iff]
  exact window_ne_nil _ _ _ _ _ _

theorem windowValues_mem {chan : ℤ → ℤ} {img : Image} {ksize : ℕ} {x y top : ℤ}
    (h : ∀ i j, 0 ≤ chan (img.pixel i j) ∧ chan (img.pixel i j) ≤ top) :
    ∀ p ∈ windowValues chan img ksize x y, 0 ≤ p ∧ p ≤ top := by
  intro a ha
  obtain ⟨p, hp, rfl⟩ := List.mem_map.mp ha
  obtain ⟨i, j, rfl⟩ := exists_of_mem_window hp
  exact h i j

theorem foldl_window {img : Image} {bpp : Bpp} (hb : img.bpp = bpp) (ksize : ℕ) (x y : ℤ) (chan : ℤ → ℤ)
    (s : ℤ × ℤ) :
    (window img.data img.w img.h ksize x y).foldl (fun s u => extreme s (chan (getPixel bpp u))) s =
      (windowValues chan img ksize x y).foldl extreme s := by
  rw [windowValues, window_pixel hb, List.map_map, List.foldl_map]
  rfl

theorem foldl_extremeRgb : ∀ (us : List ℕ) (s : (ℤ × ℤ) × (ℤ × ℤ) × ℤ × ℤ), us.foldl extremeRgb s =
    (us.foldl (fun s u => extreme s (redOf u)) s.1, us.foldl (fun s u => extreme s (greenOf u)) s.2.1,
      us.foldl (fun s u => extreme s (blueOf u)) s.2.2)
  | [], _ => rfl
  | u :: us, s => foldl_extremeRgb us (extremeRgb s u)

/-- What is computed for a channel is right: the extremes, the place in the table, and, where the value is not
    made a mask, a value between the extremes. -/
def MidpointOk (t : Threshold) (l : List ℤ) (s : ℤ × ℤ) (out : ℤ) : Prop :=
  IsLeast {p | p ∈ l} s.1 ∧ IsGreatest {p | p ∈ l} s.2 ∧ (0 ≤ s.2 - s.1 ∧ s.2 - s.1 ≤ 255) ∧
    (t.threshold = false → s.1 ≤ out ∧ out ≤ s.2)

/-- A product with a float between 0 and 1 is between 0 and the other factor. -/
def MulShrinks (mulf : ℚ → ℤ → ℚ) : Prop :=
  ∀ bias i, 0 ≤ bias → bias ≤ 1 → 0 ≤ i → i ≤ 255 → 0 ≤ mulf bias i ∧ mulf bias i ≤ i

theorem biasTable_le {mulf : ℚ → ℤ → ℚ} (hmul : MulShrinks mulf) (mem : ℤ → ℕ) {bias : ℚ} (h0 : 0 ≤ bias)
    (h1 : bias ≤ 1) {i : ℤ} (hi0 : 0 ≤ i) (hi : i ≤ 255) : (biasTable mulf mem bias i : ℤ) ≤ i := by
  obtain ⟨hm0, hm1⟩ := hmul bias i h0 h1 hi0 hi
  have hf0 : 0 ≤ ⌊mulf bias i⌋ := Int.floor_nonneg.mpr hm0
  have hf1 : ⌊mulf bias i⌋ ≤ i := by
    have := Int.floor_le_floor hm1
    rwa [Int.floor_intCast] at this
  unfold biasTable
  rw [if_pos (by omega)]
  omega

/-- A channel whose extremes come from one pass over the window, with the value between them. -/
theorem extremes_of_found {mulf : ℚ → ℤ → ℚ} (hmul : MulShrinks mulf) (mem : ℤ → ℕ) {bias : ℚ} (h0 : 0 ≤ bias)
    (h1 : bias ≤ 1) {top : ℤ} (htop : 0 < top) (htop255 : top ≤ 255) {l : List ℤ} (hl : l ≠ [])
    (h : ∀ p ∈ l, 0 ≤ p ∧ p ≤ top) (hfound : MaxFound top l) {s : ℤ × ℤ}
    (hs : s = l.foldl extreme (top, 0)) :
    let out := s.1 + biasTable mulf mem bias (s.2 - s.1)
    (IsLeast {p | p ∈ l} s.1 ∧ IsGreatest {p | p ∈ l} s.2 ∧ 0 ≤ s.2 - s.1 ∧ s.2 - s.1 ≤ 255) ∧
      (s.1 ≤ out ∧ out ≤ s.2) ∧ 0 ≤ out ∧ out ≤ top := by
  intro out
  have hmin := extremes_min hl h
  have hmax := (extremes_max_iff htop hl h).mpr hfound
  rw [← hs] at hmin hmax
  have hle : s.1 ≤ s.2 := hmin.2 hmax.1
  have hmin0 := (h _ hmin.1).1
  have hmaxt := (h _ hmax.1).2
  have htable := biasTable_le hmul mem h0 h1 (show 0 ≤ s.2 - s.1 by omega) (by omega)
  exact ⟨⟨hmin, hmax, by omega, by omega⟩, ⟨by omega, by omega⟩, by omega, by omega⟩

section Images

variable {mulf : ℚ → ℤ → ℚ} (mem : ℤ → ℕ) (buf : ℤ → ℤ → ℕ) {img : Image} (ksize : ℕ) {bias : ℚ} (t : Threshold)
  {mask : Option Image} {x y : ℤ}

theorem midpointGrayscale_kept (hb : img.bpp = .grayscale) (hm : img.Mem (x, y))
    (hs : skipped mask x y = false) (table : ℤ → ℕ) (acc : ℤ × ℤ) :
    keptAt img (midpointGrayscale img ksize t mask table) buf acc x y =
      (windowValues id img ksize x y).foldl extreme (255, 0) :=
  (keptAt_scan hm hs).trans (foldl_window hb ksize x y id (255, 0))

theorem midpointRgb565_kept (hb : img.bpp = .rgb565) (hm : img.Mem (x, y)) (hs : skipped mask x y = false)
    (table : ℤ → ℕ) (acc : (ℤ × ℤ) × (ℤ × ℤ) × ℤ × ℤ) :
    keptAt img (midpointRgb565 img ksize t mask table) buf acc x y =
      ((windowValues colorRgb565ToR5 img ksize x y).foldl extreme (31, 0),
        (windowValues colorRgb565ToG6 img ksize x y).foldl extreme (63, 0),
        (windowValues colorRgb565ToB5 img ksize x y).foldl extreme (31, 0)) := by
  rw [← foldl_window hb, ← foldl_window hb, ← foldl_window hb]
  exact (keptAt_scan hm hs).trans (foldl_extremeRgb _ _)

/-- The extremes are found, if all three are right. -/
theorem maxFound_of_ok {chan : ℤ → ℤ} {top out : ℤ} (htop : 0 < top)
    (hmem : ∀ i j, 0 ≤ chan (img.pixel i j) ∧ chan (img.pixel i j) ≤ top)
    (hok : MidpointOk t (windowValues chan img ksize x y)
      ((windowValues chan img ksize x y).foldl extreme (top, 0)) out) :
    MaxFound top (windowValues chan img ksize x y) :=
  (extremes_max_iff htop (windowValues_ne_nil _ _ _ _ _) (windowValues_mem hmem)).mp hok.2.1

theorem midpointGrayscale_iff (hmul : MulShrinks mulf) (h0 : 0 ≤ bias) (h1 : bias ≤ 1)
    (hb : img.bpp = .grayscale) (hm : img.Mem (x, y)) (hs : skipped mask x y = false) :
    let F := midpointGrayscale img ksize t mask (biasTable mulf mem bias)
    MidpointOk t (windowValues id img ksize x y) (keptAt img F buf (255, 0) x y)
        ((filtered img F buf (255, 0)).pixel x y) ↔
      MaxFound 255 (windowValues id img ksize x y) := by
  intro F
  have hmem : ∀ i j, 0 ≤ id (img.pixel i j) ∧ id (img.pixel i j) ≤ 255 := pixel_le hb le_rfl
  have hkept : keptAt img F buf (255, 0) x y = (windowValues id img ksize x y).foldl extreme (255, 0) :=
    midpointGrayscale_kept buf ksize t hb hm hs (biasTable mulf mem bias) (255, 0)
  have hout : (filtered img F buf (255, 0)).pixel x y = getPixel .grayscale (putPixel .grayscale
      (thresholdGrayscale t ((keptAt img F buf (255, 0) x y).1 + biasTable mulf mem bias
        ((keptAt img F buf (255, 0) x y).2 - (keptAt img F buf (255, 0) x y).1)) (img.pixel x y))) :=
    filtered_pixel_of_not hb hm hs
  rw [hout, hkept]
  refine ⟨maxFound_of_ok ksize t (by norm_num) hmem, fun hfound => ?_⟩
  obtain ⟨⟨hmin, hmax, hrange⟩, hbetween, hlow, hhigh⟩ := extremes_of_found hmul mem h0 h1 (by norm_num) le_rfl
    (windowValues_ne_nil _ _ _ _ _) (windowValues_mem hmem) hfound rfl
  refine ⟨hmin, hmax, hrange, fun ht => ?_⟩
  rwa [thresholdGrayscale, if_neg (Bool.eq_false_iff.mp ht),
    getPixel_putPixel_of_mem hlow (by simp only [levels]; omega)]

theorem midpointRgb565_iff (hmul : MulShrinks mulf) (h0 : 0 ≤ bias) (h1 : bias ≤ 1)
    (hb : img.bpp = .rgb565) (hm : img.Mem (x, y)) (hs : skipped mask x y = false) :
    let F := midpointRgb565 img ksize t mask (biasTable mulf mem bias)
    let s := keptAt img F buf ((31, 0), (63, 0), (31, 0)) x y
    let out := (filtered img F buf ((31, 0), (63, 0), (31, 0))).pixel x y
    (MidpointOk t (windowValues colorRgb565ToR5 img ksize x y) s.1 (colorRgb565ToR5 out) ∧
      MidpointOk t (windowValues colorRgb565ToG6 img ksize x y) s.2.1 (colorRgb565ToG6 out) ∧
      MidpointOk t (windowValues colorRgb565ToB5 img ksize x y) s.2.2 (colorRgb565ToB5 out)) ↔
    MaxFound 31 (windowValues colorRgb565ToR5 img ksize x y) ∧
      MaxFound 63 (windowValues colorRgb565ToG6 img ksize x y) ∧
      MaxFound 31 (windowValues colorRgb565ToB5 img ksize x y) := by
  intro F s out
  have hs' : s = ((windowValues colorRgb565ToR5 img ksize x y).foldl extreme (31, 0),
      (windowValues colorRgb565ToG6 img ksize x y).foldl extreme (63, 0),
      (windowValues colorRgb565ToB5 img ksize x y).foldl extreme (31, 0)) :=
    midpointRgb565_kept buf ksize t hb hm hs (biasTable mulf mem bias) _
  have hout : out = getPixel .rgb565 (putPixel .rgb565 (thresholdRgb565 t (colorR5G6B5ToRgb565
      (s.1.1 + biasTable mulf mem bias (s.1.2 - s.1.1)) (s.2.1.1 + biasTable mulf mem bias (s.2.1.2 - s.2.1.1))
      (s.2.2.1 + biasTable mulf mem bias (s.2.2.2 - s.2.2.1))) (img.pixel x y))) :=
    filtered_pixel_of_not hb hm hs
  have hlt := colorR5G6B5ToRgb565_lt (s.1.1 + biasTable mulf mem bias (s.1.2 - s.1.1))
    (s.2.1.1 + biasTable mulf mem bias (s.2.1.2 - s.2.1.1)) (s.2.2.1 + biasTable mulf mem bias (s.2.2.2 - s.2.2.1))
  constructor
  · rintro ⟨hr, hg, hbl⟩
    rw [hs'] at hr hg hbl
    exact ⟨maxFound_of_ok ksize t (by norm_num) (fun i j => red_mem _) hr,
      maxFound_of_ok ksize t (by norm_num) (fun i j => green_mem _) hg,
      maxFound_of_ok ksize t (by norm_num) (fun i j => blue_mem _) hbl⟩
  · rintro ⟨hr, hg, hbl⟩
    obtain ⟨⟨hrmin, hrmax, hrr⟩, hrb, hr2, hr3⟩ := extremes_of_found hmul mem h0 h1 (by norm_num) (by norm_num)
      (windowValues_ne_nil _ _ _ _ _) (windowValues_mem fun i j => red_mem _) hr (congrArg Prod.fst hs')
    obtain ⟨⟨hgmin, hgmax, hgr⟩, hgb, hg2, hg3⟩ := extremes_of_found hmul mem h0 h1 (by norm_num) (by norm_num)
      (windowValues_ne_nil _ _ _ _ _) (windowValues_mem fun i j => green_mem _) hg
      (congrArg (fun s => s.2.1) hs')
    obtain ⟨⟨hbmin, hbmax, hbr⟩, hbb, hb2, hb3⟩ := extremes_of_found hmul mem h0 h1 (by norm_num) (by norm_num)
      (windowValues_ne_nil _ _ _ _ _) (windowValues_mem fun i j => blue_mem _) hbl
      (congrArg (fun s => s.2.2) hs')
    -- without a mask the pixel is the three values put together
    have hparts : t.threshold = false → colorRgb565ToR5 out = s.1.1 + biasTable mulf mem bias (s.1.2 - s.1.1) ∧
        colorRgb565ToG6 out = s.2.1.1 + biasTable mulf mem bias (s.2.1.2 - s.2.1.1) ∧
        colorRgb565ToB5 out = s.2.2.1 + biasTable mulf mem bias (s.2.2.2 - s.2.2.1) := by
      intro ht
      rw [hout, thresholdRgb565, if_neg (Bool.eq_false_iff.mp ht), getPixel_putPixel_rgb565 hlt,
        colorR5G6B5ToRgb565_of_mem (by omega) (by omega) (by omega)]
      exact ⟨red_of_parts (by omega) (by omega) (by omega), green_of_parts (by omega) (by omega),
        blue_of_parts (by omega)⟩
    refine ⟨⟨hrmin, hrmax, hrr, fun ht => ?_⟩, ⟨hgmin, hgmax, hgr, fun ht => ?_⟩,
      ⟨hbmin, hbmax, hbr, fun ht => ?_⟩⟩
    · rwa [(hparts ht).1]
    · rwa [(hparts ht).2.1]
    · rwa [(hparts ht).2.2]

end Images

theorem mulShrinks_mul : MulShrinks fun bias i => bias * i := by
  intro bias i h0 h1 hi0 _
  have hi : (0 : ℚ) ≤ i := by exact_mod_cast hi0
  exact ⟨mul_nonneg h0 hi, mul_le_of_le_one_left hi h1⟩

end OpenMV.Filters
