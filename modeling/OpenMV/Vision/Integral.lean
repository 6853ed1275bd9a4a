import OpenMV.Schemes.CheckedRun
import OpenMV.Schemes.Area
import OpenMV.Schemes.Stores
import OpenMV.Vision.Image
import Mathlib.Tactic.Linarith
import Mathlib.Tactic.Positivity
import Mathlib.Tactic.Ring

/-! Integral images | scheme:prefix-sum | source:src/src/openmv/omv/img/integral.c

    A table with the sum of all pixels up to each place, row by row in one array, and the sum of a rectangle
    from four of its entries. The row above the first one and the column left of it are not in the
    table, so the lookup has a branch for each border. The scaled variant goes over the source with ratios in
    sixteen bits behind the point, which fit an `int` up to 32767 columns and rows. -/

namespace OpenMV.Vision
open Schemes Finset

/-! ### The code -/

/-- `i_image_t`; a read or a write outside the array fails. -/
structure IImage where
  w : ℕ
  h : ℕ
  data : ℤ → ℤ

def IImage.get (t : IImage) (i : ℤ) : Option ℤ := if 0 ≤ i ∧ i < t.w * t.h then some (t.data i) else none

def IImage.set (t : IImage) (i v : ℤ) : Option IImage :=
  if 0 ≤ i ∧ i < t.w * t.h then some { t with data := Function.update t.data i v } else none

/-- `img_data[i]`. -/
def srcGet (src : Image) (i : ℤ) : Option ℤ :=
  if 0 ≤ i ∧ i < src.w * src.h then some (imageGetGrayscalePixel src (i % src.w) (i / src.w)) else none

/-- `sum_data[(y-1)*src->w+x]`; on top of the first row there is nothing to add. -/
def entryAbove (t : IImage) (w y x : ℕ) : Option ℤ := if y = 0 then some 0 else t.get (((y : ℤ) - 1) * w + x)

/-- A round of the loop over a row: `s` is added to, and stored on top of the entry above. -/
def sumCell (px : ℕ → Option ℤ) (wrap : ℤ → ℤ) (w y : ℕ) (st : ℤ × IImage) (x : ℕ) : Option (ℤ × IImage) := do
  let p ← px x
  let s := wrap (st.1 + p)
  let above ← entryAbove st.2 w y x
  let t ← st.2.set ((y : ℤ) * w + x) ((s + above) % 4294967296)
  some (s, t)

def sumRow (px : ℕ → Option ℤ) (wrap : ℤ → ℤ) (w y : ℕ) (t : IImage) : Option IImage :=
  ((List.range w).foldlM (sumCell px wrap w y) (0, t)).map Prod.snd

/-- The first row, and the others. -/
def sumRows (px : ℕ → ℕ → Option ℤ) (wrap : ℤ → ℤ) (w h : ℕ) (t : IImage) : Option IImage := do
  let t ← sumRow (px 0) wrap w 0 t
  (List.range' 1 (h - 1)).foldlM (fun t y => sumRow (px y) wrap w y t) t

/-- The sums of a row are an `int`. -/
def imlibIntegralImage (src : Image) (sum : IImage) : Option IImage :=
  sumRows (fun y x => srcGet src (y * src.w + x)) int32 src.w.toNat src.h.toNat sum

/-- Here they are a `uint32_t`. -/
def imlibIntegralImageSq (src : Image) (sum : IImage) : Option IImage :=
  sumRows (fun y x => (srcGet src (y * src.w + x)).map fun p => p * p) (· % 4294967296) src.w.toNat src.h.toNat sum

/-- `(int)((src->w<<16)/sum->w) +1`. -/
def scaleRatio (n m : ℤ) : ℤ := int32 ((int32 (n * 65536)).tdiv m + 1)

/-- `(x*x_ratio)>>16`. -/
def scaleIndex (n m x : ℤ) : ℤ := int32 (x * scaleRatio n m) / 65536

def imlibIntegralImageScaled (src : Image) (sum : IImage) : Option IImage :=
  sumRows (fun y x => srcGet src (scaleIndex src.h sum.h y * src.w + scaleIndex src.w sum.w x)) int32
    sum.w sum.h sum

/-- `PIXEL_AT`. -/
def pixelAt (sum : IImage) (x y : ℤ) : Option ℤ := sum.get ((y - 1) * sum.w + (x - 1))

def imlibIntegralLookup (sum : IImage) (x y w h : ℤ) : Option ℤ :=
  if x = 0 ∧ y = 0 then pixelAt sum w h
  else if y = 0 then do
    let a ← pixelAt sum (w + x) h
    let b ← pixelAt sum x h
    some ((a - b) % 4294967296)
  else if x = 0 then do
    let a ← pixelAt sum w (h + y)
    let b ← pixelAt sum w y
    some ((a - b) % 4294967296)
  else do
    let a ← pixelAt sum (w + x) (h + y)
    let b ← pixelAt sum x y
    let c ← pixelAt sum (w + x) y
    let d ← pixelAt sum x (h + y)
    some ((a + b - c - d) % 4294967296)

/-! ### Tables -/

/-- The table holds the sums of `F`. -/
structure Table (F : ℕ → ℕ → ℤ) (w h : ℕ) (t : IImage) : Prop where
  width : t.w = w
  height : t.h = h
  data : ∀ y < h, ∀ x < w, t.data ((y : ℤ) * w + x) = corner F (y + 1) (x + 1) % 4294967296

section Lookup

variable {F : ℕ → ℕ → ℤ} {w h : ℕ} {t : IImage}

theorem index_lt {w h x y : ℕ} (hx : x < w) (hy : y < h) : (y : ℤ) * w + x < w * h :=
  (rowMajor_mem ⟨Int.natCast_nonneg x, Int.ofNat_lt.2 hx⟩ ⟨Int.natCast_nonneg y, Int.ofNat_lt.2 hy⟩).2

theorem IImage.get_of_mem {x y : ℕ} (hw : t.w = w) (hh : t.h = h) (hx : x < w) (hy : y < h) :
    t.get ((y : ℤ) * w + x) = some (t.data ((y : ℤ) * w + x)) := by
  have hlt := index_lt hx hy
  refine if_pos ⟨by positivity, ?_⟩
  rw [hw, hh]
  exact hlt

theorem IImage.set_of_mem {x y : ℕ} (hw : t.w = w) (hh : t.h = h) (hx : x < w) (hy : y < h) (v : ℤ) :
    t.set ((y : ℤ) * w + x) v = some { t with data := Function.update t.data ((y : ℤ) * w + x) v } := by
  have hlt := index_lt hx hy
  refine if_pos ⟨by positivity, ?_⟩
  rw [hw, hh]
  exact hlt

theorem Table.pixelAt (ht : Table F w h t) {x y : ℕ} (hx : 1 ≤ x) (hxw : x ≤ w) (hy : 1 ≤ y) (hyh : y ≤ h) :
    pixelAt t x y = some (corner F y x % 4294967296) := by
  obtain ⟨x, rfl⟩ := Nat.exists_eq_add_of_le' hx
  obtain ⟨y, rfl⟩ := Nat.exists_eq_add_of_le' hy
  have hidx : (((y + 1 : ℕ) : ℤ) - 1) * t.w + (((x + 1 : ℕ) : ℤ) - 1) = (y : ℤ) * w + x := by
    rw [ht.width]
    push_cast
    ring
  rw [Vision.pixelAt, hidx, IImage.get_of_mem ht.width ht.height hxw hyh, ht.data y hyh x hxw]

/-- Each branch of the lookup gives the sum over the rectangle. -/
theorem Table.lookup (ht : Table F w h t) {x y a b : ℕ} (ha : 1 ≤ a) (hb : 1 ≤ b) (hx : x + a ≤ w)
    (hy : y + b ≤ h) : imlibIntegralLookup t x y a b =
      some ((∑ i ∈ range b, ∑ j ∈ range a, F (y + i) (x + j)) % 4294967296) := by
  have hd : Vision.pixelAt t (a + x) (b + y) = some (corner F (y + b) (x + a) % 4294967296) := by
    have := ht.pixelAt (x := x + a) (y := y + b) (by omega) hx (by omega) hy
    push_cast at this
    rwa [add_comm (a : ℤ), add_comm (b : ℤ)]
  rw [← sum_rectangle_corners F y x b a, imlibIntegralLookup]
  rcases Nat.eq_zero_or_pos x with rfl | hx0 <;> rcases Nat.eq_zero_or_pos y with rfl | hy0
  · rw [if_pos ⟨rfl, rfl⟩]
    simpa using hd
  · have hc := ht.pixelAt (x := a) (y := y) ha (by omega) hy0 (by omega)
    rw [if_neg (by omega), if_neg (by omega), if_pos Nat.cast_zero]
    simp only [Nat.cast_zero, add_zero, zero_add, corner_zero_right] at hd hc ⊢
    rw [hd, hc]
    simp only [Option.bind_eq_bind, Option.bind_some, ← Int.sub_emod, sub_zero]
  · have hc := ht.pixelAt (x := x) (y := b) hx0 (by omega) hb (by omega)
    rw [if_neg (by omega), if_pos Nat.cast_zero]
    simp only [Nat.cast_zero, add_zero, zero_add, corner_zero_left] at hd hc ⊢
    rw [hd, hc]
    simp only [Option.bind_eq_bind, Option.bind_some, ← Int.sub_emod, sub_zero]
  · have h1 := ht.pixelAt (x := x) (y := y) hx0 (by omega) hy0 (by omega)
    have h2 := ht.pixelAt (x := x + a) (y := y) (by omega) hx hy0 (by omega)
    have h3 := ht.pixelAt (x := x) (y := y + b) hx0 (by omega) (by omega) hy
    push_cast at h2 h3
    rw [if_neg (by omega), if_neg (by omega), if_neg (by omega), hd, h1, add_comm (a : ℤ), h2,
      add_comm (b : ℤ), h3]
    simp only [Option.bind_eq_bind, Option.bind_some]
    congr 1
    omega

end Lookup

/-! ### The loops -/

section Loops

variable {F : ℕ → ℕ → ℤ} {px : ℕ → ℕ → Option ℤ} {wrap : ℤ → ℤ} {w h : ℕ}

/-- The rows before `y`, and the entries of row `y` before `n`. -/
structure Summed (F : ℕ → ℕ → ℤ) (w h y n : ℕ) (t : IImage) : Prop where
  width : t.w = w
  height : t.h = h
  rows : ∀ r < y, ∀ x < w, t.data ((r : ℤ) * w + x) = corner F (r + 1) (x + 1) % 4294967296
  row : ∀ x < n, t.data ((y : ℤ) * w + x) = corner F (y + 1) (x + 1) % 4294967296

/-- An entry that is stored is another one than those before it. -/
theorem Summed.set {y n : ℕ} {t : IImage} (ht : Summed F w h y n t) (hn : n < w) :
    Summed F w h y (n + 1) { t with
      data := Function.update t.data ((y : ℤ) * w + n) (corner F (y + 1) (n + 1) % 4294967296) } where
  width := ht.width
  height := ht.height
  rows r hr x hx := by
    have hne : (r : ℤ) * w + x ≠ (y : ℤ) * w + n := by
      have hlt := index_lt hx hr
      nlinarith
    exact (Function.update_of_ne hne _ _).trans (ht.rows r hr x hx)
  row x hx := by
    rcases Nat.lt_succ_iff_lt_or_eq.mp hx with hlt | rfl
    · have hne : (y : ℤ) * w + x ≠ (y : ℤ) * w + n := by omega
      exact (Function.update_of_ne hne _ _).trans (ht.row x hlt)
    · exact Function.update_self _ _ _

/-- A row is summed up, when its pixels can be read and nothing of the sum is lost but multiples of `2 ^ 32`. -/
theorem foldlM_sumCell (hwrap : ∀ v, wrap v % 4294967296 = v % 4294967296) {y : ℕ} (hy : y < h)
    (hpx : ∀ x < w, px y x = some (F y x)) {t : IImage} (ht : Summed F w h y 0 t) : ∀ n ≤ w, ∃ s t',
      (List.range n).foldlM (sumCell (px y) wrap w y) (0, t) = some (s, t') ∧
        s % 4294967296 = (∑ j ∈ range n, F y j) % 4294967296 ∧ Summed F w h y n t'
  | 0, _ => ⟨0, t, rfl, rfl, ht⟩
  | n + 1, hn => by
      obtain ⟨s, t', hfold, hs, ht'⟩ := foldlM_sumCell hwrap hy hpx ht n (by omega)
      have hs' : wrap (s + F y n) % 4294967296 = (∑ j ∈ range (n + 1), F y j) % 4294967296 := by
        rw [hwrap, sum_range_succ]
        omega
      have habove : entryAbove t' w y n = some (corner F y (n + 1) % 4294967296) := by
        unfold entryAbove
        rcases Nat.eq_zero_or_pos y with rfl | hpos
        · simp
        · obtain ⟨r, rfl⟩ := Nat.exists_eq_add_of_le' hpos
          have hcast : (((r + 1 : ℕ) : ℤ) - 1) = r := by omega
          rw [if_neg (by omega), hcast, IImage.get_of_mem ht'.width ht'.height hn (by omega),
            ht'.rows r (by omega) n hn]
      have hentry : (wrap (s + F y n) + corner F y (n + 1) % 4294967296) % 4294967296 =
          corner F (y + 1) (n + 1) % 4294967296 := by
        rw [corner_succ]
        omega
      refine ⟨wrap (s + F y n), _, ?_, hs', ht'.set hn⟩
      rw [List.range_succ, List.foldlM_append, hfold]
      simp only [Option.bind_eq_bind, Option.bind_some, List.foldlM_cons, List.foldlM_nil, sumCell, hpx n hn,
        habove, IImage.set_of_mem ht'.width ht'.height hn hy, hentry]
      rfl

theorem sumRow_filled (hwrap : ∀ v, wrap v % 4294967296 = v % 4294967296) {y : ℕ} (hy : y < h)
    (hpx : ∀ x < w, px y x = some (F y x)) {t : IImage} (ht : Summed F w h y 0 t) :
    ∃ t', sumRow (px y) wrap w y t = some t' ∧ Summed F w h (y + 1) 0 t' := by
  obtain ⟨s, t', hfold, -, ht'⟩ := foldlM_sumCell hwrap hy hpx ht w le_rfl
  refine ⟨t', by rw [sumRow, hfold]; rfl, ht'.width, ht'.height, fun r hr x hx => ?_, fun x hx => absurd hx (by omega)⟩
  rcases Nat.lt_succ_iff_lt_or_eq.mp hr with hlt | rfl
  · exact ht'.rows r hlt x hx
  · exact ht'.row x hx

theorem sumRows_table (hwrap : ∀ v, wrap v % 4294967296 = v % 4294967296) (hh : 0 < h)
    (hpx : ∀ y < h, ∀ x < w, px y x = some (F y x)) {t : IImage} (hw : t.w = w) (hth : t.h = h) :
    ∃ t', sumRows px wrap w h t = some t' ∧ Table F w h t' := by
  have hrows : ∀ n < h, ∃ t', (do
      let t ← sumRow (px 0) wrap w 0 t
      (List.range' 1 n).foldlM (fun t y => sumRow (px y) wrap w y t) t) = some t' ∧
        Summed F w h (n + 1) 0 t' := by
    intro n hn
    induction n with
    | zero =>
      obtain ⟨t', hrow, ht'⟩ := sumRow_filled hwrap hh (hpx 0 hh)
        (show Summed F w h 0 0 t from ⟨hw, hth, fun _ h => absurd h (by omega), fun _ h => absurd h (by omega)⟩)
      exact ⟨t', by rw [hrow]; rfl, ht'⟩
    | succ n ih =>
      obtain ⟨t₁, hfold, ht₁⟩ := ih (by omega)
      obtain ⟨t', hrow, ht'⟩ := sumRow_filled hwrap hn (hpx (n + 1) hn) ht₁
      refine ⟨t', ?_, ht'⟩
      obtain ⟨t₀, h0, hfold⟩ := Option.bind_eq_some_iff.mp hfold
      rw [h0]
      simp only [Option.bind_eq_bind, Option.bind_some, List.range'_1_concat, List.foldlM_append, hfold,
        List.foldlM_cons, List.foldlM_nil, Nat.add_comm 1 n, hrow]
      rfl
  obtain ⟨t', ht, hfill⟩ := hrows (h - 1) (by omega)
  exact ⟨t', ht, hfill.width, hfill.height, fun y hy x hx => hfill.rows y (by omega) x hx⟩

end Loops

/-! ### Ratios -/

/-- The column, or row, of `n` that a column of `m` is taken from, with sixteen bits behind the point. -/
def nearest (n m x : ℕ) : ℕ := x * (n * 65536 / m + 1) / 65536

theorem nearest_lt {n m x : ℕ} (hm : m ≤ n) (hx : x < m) (hx' : x < 65536) :
    x * (n * 65536 / m + 1) < n * 65536 := by
  have hq : 65536 ≤ n * 65536 / m := (Nat.le_div_iff_mul_le (by omega)).mpr (by nlinarith)
  have hqm : n * 65536 / m * m ≤ n * 65536 := Nat.div_mul_le_self _ _
  generalize n * 65536 / m = q at *
  have hxq : (x + 1) * q ≤ m * q := Nat.mul_le_mul_right q hx
  nlinarith

theorem scaleIndex_zero (n m : ℤ) : scaleIndex n m 0 = 0 := by
  rw [scaleIndex, zero_mul]
  rfl

/-- Up to 32767 nothing is lost. -/
theorem scaleIndex_eq {n m x : ℕ} (hn : n < 32768) (hm : m ≤ n) (hx : x < m) :
    scaleIndex n m x = nearest n m x := by
  have hlt := nearest_lt hm hx (by omega)
  have hq : 65536 ≤ n * 65536 / m := (Nat.le_div_iff_mul_le (by omega)).mpr (by nlinarith)
  have hqn : n * 65536 / m ≤ n * 65536 := Nat.div_le_self _ _
  have hsize : int32 ((n : ℤ) * 65536) = (n * 65536 : ℕ) := by
    rw [int32_of_mem (by omega) (by omega)]
    push_cast
    rfl
  have hratio : scaleRatio n m = (n * 65536 / m + 1 : ℕ) := by
    rw [scaleRatio, hsize, Int.tdiv_eq_ediv_of_nonneg (Int.natCast_nonneg _), ← Int.natCast_ediv,
      int32_of_mem (by omega) (by omega)]
    push_cast
    rfl
  rw [scaleIndex, hratio, ← Nat.cast_mul, int32_of_mem (by omega) (by omega), nearest, Int.natCast_ediv]
  rfl

/-- From 32768 on some column comes from the wrong place, when there is more than one. -/
theorem exists_scaleIndex_ne {n m : ℕ} (hn : 32768 ≤ n) (hm2 : 2 ≤ m) (hm : m ≤ n) :
    ∃ x < m, nearest n m x < n ∧ scaleIndex n m x ≠ nearest n m x := by
  have hq : 65536 ≤ n * 65536 / m := (Nat.le_div_iff_mul_le (by omega)).mpr (by nlinarith)
  have hlt : ∀ x < m, x < 65536 → nearest n m x < n := fun x hx hx' =>
    (Nat.div_lt_iff_lt_mul (by norm_num)).mpr (nearest_lt hm hx hx')
  rcases Nat.lt_or_ge n 65536 with hn' | hn'
  · -- the shifted size is negative, and so is the ratio
    refine ⟨1, by omega, hlt 1 (by omega) (by norm_num), ?_⟩
    have hone : 1 ≤ nearest n m 1 := by
      unfold nearest
      omega
    have hsize : int32 ((n : ℤ) * 65536) = -((65536 - n : ℕ) * 65536 : ℕ) := by
      unfold int32
      omega
    have hpos : 1 ≤ (65536 - n) * 65536 / m := (Nat.le_div_iff_mul_le (by omega)).mpr (by omega)
    have hle : (65536 - n) * 65536 / m ≤ (65536 - n) * 65536 := Nat.div_le_self _ _
    have hratio : scaleRatio n m = 1 - ((65536 - n) * 65536 / m : ℕ) := by
      rw [scaleRatio, hsize, Int.neg_tdiv, Int.tdiv_eq_ediv_of_nonneg (Int.natCast_nonneg _),
        ← Int.natCast_ediv, int32_of_mem (by omega) (by omega)]
      ring
    have hneg : scaleIndex n m (1 : ℕ) ≤ 0 := by
      rw [scaleIndex, hratio, Nat.cast_one, one_mul, int32_of_mem (by omega) (by omega)]
      omega
    omega
  · -- the shifted product has no more than fifteen bits
    have hsmall : ∀ x : ℕ, scaleIndex n m x ≤ 32767 := fun x => by
      unfold scaleIndex int32
      omega
    have hqm : n * 65536 < m * (n * 65536 / m + 1) := Nat.lt_mul_div_succ _ (by omega)
    rcases Nat.lt_or_ge 32768 m with hm' | hm'
    · refine ⟨32768, hm', hlt _ hm' (by norm_num), ?_⟩
      have hlarge : 32768 ≤ nearest n m 32768 := by
        unfold nearest
        omega
      have := hsmall 32768
      omega
    · refine ⟨m - 1, by omega, hlt _ (by omega) (by omega), ?_⟩
      have hlarge : 32768 ≤ nearest n m (m - 1) := by
        refine (Nat.le_div_iff_mul_le (by norm_num)).mpr ?_
        generalize n * 65536 / m = q at *
        have hhalf : m * (q + 1) ≤ 2 * (m - 1) * (q + 1) := Nat.mul_le_mul_right _ (by omega)
        nlinarith
      have := hsmall (m - 1)
      omega

/-! ### Every rectangle -/

/-- The table was built, and a lookup in it gives the sum of `F` over each rectangle, modulo `2 ^ 32`. -/
def Answers (F : ℕ → ℕ → ℤ) (W H : ℕ) (built : Option IImage) : Prop :=
  ∃ t, built = some t ∧ ∀ x y w h : ℕ, 1 ≤ w → 1 ≤ h → x + w ≤ W → y + h ≤ H →
    imlibIntegralLookup t x y w h = some ((∑ i ∈ range h, ∑ j ∈ range w, F (y + i) (x + j)) % 4294967296)

def pixels (src : Image) (y x : ℕ) : ℤ := imageGetGrayscalePixel src x y

/-- The pixels of the source scaled to `w` by `h`. -/
def nearestPixels (src : Image) (w h y x : ℕ) : ℤ :=
  pixels src (nearest src.h.toNat h y) (nearest src.w.toNat w x)

theorem pixels_mem (src : Image) (x y : ℤ) :
    0 ≤ imageGetGrayscalePixel src x y ∧ imageGetGrayscalePixel src x y < 256 := by
  unfold imageGetGrayscalePixel
  omega

theorem srcGet_of_mem {src : Image} {W H x y : ℕ} (hw : src.w = W) (hh : src.h = H) (hx : x < W) (hy : y < H) :
    srcGet src ((y : ℤ) * src.w + x) = some (pixels src y x) := by
  have hlt := index_lt hx hy
  have hxW : ((x : ℤ) + W * y) % W = x := by
    rw [Int.add_mul_emod_self_left, Int.emod_eq_of_lt (by omega) (by omega)]
  have hyW : ((x : ℤ) + W * y) / W = y := by
    rw [Int.add_mul_ediv_left _ _ (by omega), Int.ediv_eq_zero_of_lt (by omega) (by omega), zero_add]
  have hcomm : (y : ℤ) * W + x = x + W * y := by ring
  rw [srcGet, hw, hh, if_pos ⟨by positivity, hlt⟩, hcomm, hxW, hyW]
  rfl

theorem srcGet_mem {src : Image} {i p : ℤ} (h : srcGet src i = some p) : 0 ≤ p ∧ p < 256 := by
  obtain ⟨-, hp⟩ := Option.ite_none_right_eq_some.mp h
  exact Option.some.inj hp ▸ pixels_mem src _ _

theorem int32_emod (v : ℤ) : int32 v % 4294967296 = v % 4294967296 := by
  unfold int32
  omega

theorem exists_px_of_sumRow {px : ℕ → Option ℤ} {wrap : ℤ → ℤ} {w y : ℕ} {t t' : IImage}
    (h : sumRow px wrap w y t = some t') {x : ℕ} (hx : x < w) : ∃ p, px x = some p := by
  obtain ⟨r, hr, -⟩ := Option.map_eq_some_iff.mp h
  obtain ⟨b, c, hcell⟩ := exists_of_foldlM hr x (List.mem_range.mpr hx)
  obtain ⟨p, hp, -⟩ := Option.bind_eq_some_iff.mp hcell
  exact ⟨p, hp⟩

/-- A table that was built has read each of its pixels. -/
theorem exists_px_of_sumRows {px : ℕ → ℕ → Option ℤ} {wrap : ℤ → ℤ} {w h : ℕ} {t t' : IImage}
    (hs : sumRows px wrap w h t = some t') {y x : ℕ} (hy : y < h) (hx : x < w) : ∃ p, px y x = some p := by
  obtain ⟨t₁, hfirst, hrest⟩ := Option.bind_eq_some_iff.mp hs
  rcases Nat.eq_zero_or_pos y with rfl | hpos
  · exact exists_px_of_sumRow hfirst hx
  · obtain ⟨b, c, hrow⟩ := exists_of_foldlM hrest y (List.mem_range'_1.mpr (by omega))
    exact exists_px_of_sumRow hrow hx

theorem answers_of_px {F : ℕ → ℕ → ℤ} {px : ℕ → ℕ → Option ℤ} {wrap : ℤ → ℤ} {w h : ℕ} {t : IImage}
    (hwrap : ∀ v, wrap v % 4294967296 = v % 4294967296) (hh : 0 < h) (hw : t.w = w) (hth : t.h = h)
    (hpx : ∀ y < h, ∀ x < w, px y x = some (F y x)) : Answers F w h (sumRows px wrap w h t) := by
  obtain ⟨t', hs, ht'⟩ := sumRows_table hwrap hh hpx hw hth
  exact ⟨t', hs, fun x y a b ha hb hx hy => ht'.lookup ha hb hx hy⟩

/-- It answers every rectangle only if it has read the right pixels. -/
theorem answers_iff_px {F : ℕ → ℕ → ℤ} {px : ℕ → ℕ → Option ℤ} {wrap : ℤ → ℤ} {w h : ℕ} {t : IImage}
    (hwrap : ∀ v, wrap v % 4294967296 = v % 4294967296) (hh : 0 < h) (hw : t.w = w) (hth : t.h = h)
    (hF : ∀ y x, 0 ≤ F y x ∧ F y x < 256) (hpx : ∀ y x p, px y x = some p → 0 ≤ p ∧ p < 256) :
    Answers F w h (sumRows px wrap w h t) ↔ ∀ y < h, ∀ x < w, px y x = some (F y x) := by
  constructor
  · rintro ⟨t', hs, hlookup⟩ y hy x hx
    have hread : ∀ y < h, ∀ x < w, px y x = some ((px y x).getD 0) := fun y hy x hx => by
      obtain ⟨p, hp⟩ := exists_px_of_sumRows hs hy hx
      rw [hp, Option.getD_some]
    obtain ⟨t'', hs'', htable⟩ := sumRows_table hwrap hh hread hw hth
    obtain rfl : t' = t'' := Option.some.inj (hs.symm.trans hs'')
    have hone := (hlookup x y 1 1 le_rfl le_rfl hx hy).symm.trans
      (htable.lookup le_rfl le_rfl (show x + 1 ≤ w from hx) (show y + 1 ≤ h from hy))
    simp only [sum_range_one, add_zero, Option.some.injEq] at hone
    have h1 := hF y x
    have h2 := hpx y x _ (hread y hy x hx)
    rw [hread y hy x hx, Option.some.injEq]
    omega
  · exact answers_of_px hwrap hh hw hth

theorem imlibIntegralImage_answers {src : Image} {t : IImage} {W H : ℕ} (hH : 0 < H) (hw : src.w = W)
    (hh : src.h = H) (htw : t.w = W) (hth : t.h = H) :
    Answers (pixels src) W H (imlibIntegralImage src t) ∧
      Answers (fun y x => pixels src y x * pixels src y x) W H (imlibIntegralImageSq src t) := by
  have hW : src.w.toNat = W := by omega
  have hH' : src.h.toNat = H := by omega
  rw [imlibIntegralImage, imlibIntegralImageSq, hW, hH']
  refine ⟨answers_of_px int32_emod hH htw hth fun y hy x hx => srcGet_of_mem hw hh hx hy,
    answers_of_px (fun v => Int.emod_emod _ _) hH htw hth fun y hy x hx => ?_⟩
  rw [srcGet_of_mem hw hh hx hy]
  rfl

section Scaled

variable {W H w h : ℕ}

/-- The scaled table is right when each of its pixels is read from the right place. -/
theorem imlibIntegralImageScaled_answers_iff (src : Image) {t : IImage} (hh : 0 < h) (htw : t.w = w)
    (hth : t.h = h) : Answers (nearestPixels src w h) w h (imlibIntegralImageScaled src t) ↔
      ∀ y < h, ∀ x < w, srcGet src (scaleIndex src.h h y * src.w + scaleIndex src.w w x) =
        some (nearestPixels src w h y x) := by
  rw [imlibIntegralImageScaled, htw, hth]
  exact answers_iff_px int32_emod hh htw hth (fun y x => pixels_mem src _ _) fun y x p hp => srcGet_mem hp

/-- A picture with one light pixel. -/
def lightPixel (W H a b : ℕ) : Image := ⟨W, H, .grayscale, fun x y => if x = a ∧ y = b then 1 else 0⟩

theorem index_of_light {W H a b : ℕ} {i : ℤ} (h : srcGet (lightPixel W H a b) i = some 1) :
    i = (b : ℤ) * W + a := by
  obtain ⟨-, hpix⟩ := Option.ite_none_right_eq_some.mp h
  simp only [imageGetGrayscalePixel, lightPixel] at hpix
  split at hpix
  · rename_i hab
    have hdiv := Int.mul_ediv_add_emod i W
    rw [hab.1, hab.2] at hdiv
    linarith
  · exact absurd hpix (by decide)

/-- It is right for every picture of a size just when every index is. -/
theorem forall_scaled_answers_iff (hw : 1 ≤ w) (hwW : w ≤ W) (hh : 1 ≤ h) (hhH : h ≤ H) :
    (∀ (src : Image) (t : IImage), src.w = W → src.h = H → t.w = w → t.h = h →
      Answers (nearestPixels src w h) w h (imlibIntegralImageScaled src t)) ↔
        (w = 1 ∨ W < 32768) ∧ (h = 1 ∨ H < 32768) := by
  constructor
  · intro hall
    -- the pixel that a place of the scaled picture should show
    have hindex : ∀ y < h, ∀ x < w, scaleIndex H h y * W + scaleIndex W w x =
        (nearest H h y : ℤ) * W + nearest W w x := by
      intro y hy x hx
      set src := lightPixel W H (nearest W w x) (nearest H h y)
      have hread := (imlibIntegralImageScaled_answers_iff _ hh rfl rfl).mp
        (hall src ⟨w, h, fun _ => 0⟩ rfl rfl rfl rfl) y hy x hx
      have hone : nearestPixels src w h y x = 1 := by
        simp [nearestPixels, pixels, src, lightPixel, imageGetGrayscalePixel]
      rw [hone] at hread
      exact index_of_light hread
    constructor
    · by_contra hnot
      obtain ⟨x, hx, -, hne⟩ := exists_scaleIndex_ne (n := W) (m := w) (by omega) (by omega) hwW
      have hcol := hindex 0 (by omega) x hx
      rw [Nat.cast_zero, scaleIndex_zero, nearest, Nat.zero_mul, Nat.zero_div, Nat.cast_zero, zero_mul, zero_add,
        zero_add] at hcol
      exact hne hcol
    · by_contra hnot
      obtain ⟨y, hy, -, hne⟩ := exists_scaleIndex_ne (n := H) (m := h) (by omega) (by omega) hhH
      have hrow := hindex y hy 0 (by omega)
      rw [Nat.cast_zero, scaleIndex_zero, nearest.eq_def W, Nat.zero_mul, Nat.zero_div, Nat.cast_zero, add_zero,
        add_zero] at hrow
      exact hne (mul_right_cancel₀ (by omega) hrow)
  · rintro ⟨hcol, hrow⟩ src t hsw hsh htw hth
    have hfits : ∀ {n m x : ℕ}, m = 1 ∨ n < 32768 → m ≤ n → x < m →
        scaleIndex n m x = nearest n m x ∧ nearest n m x < n := by
      intro n m x hfit hm hx
      rcases hfit with rfl | hn
      · obtain rfl : x = 0 := by omega
        rw [Nat.cast_zero, scaleIndex_zero, nearest, Nat.zero_mul, Nat.zero_div]
        exact ⟨rfl, hm⟩
      · exact ⟨scaleIndex_eq hn hm hx, (Nat.div_lt_iff_lt_mul (by norm_num)).mpr (nearest_lt hm hx (by omega))⟩
    refine (imlibIntegralImageScaled_answers_iff _ hh htw hth).mpr fun y hy x hx => ?_
    obtain ⟨hx1, hx2⟩ := hfits hcol hwW hx
    obtain ⟨hy1, hy2⟩ := hfits hrow hhH hy
    rw [hsw, hsh, hx1, hy1, ← hsw, srcGet_of_mem hsw hsh hx2 hy2, nearestPixels, hsw, hsh]
    rfl

/-- The tables of the pixels and of their squares answer every rectangle. That of the scaled picture does when
    each of its pixels is read from its place in the source; for all pictures of a size this is so just when
    the source has at most 32767 columns, or the table a single one, and the same for the rows. -/
theorem integral_image_answers_iff (W H : ℕ) (hH : 1 ≤ H) :
    (∀ (src : Image) (t : IImage), src.w = W → src.h = H → t.w = W → t.h = H →
      Answers (pixels src) W H (imlibIntegralImage src t) ∧
        Answers (fun y x => pixels src y x * pixels src y x) W H (imlibIntegralImageSq src t)) ∧
    ∀ w h, 1 ≤ w → w ≤ W → 1 ≤ h → h ≤ H →
      (∀ (src : Image) (t : IImage), src.w = W → src.h = H → t.w = w → t.h = h →
        (Answers (nearestPixels src w h) w h (imlibIntegralImageScaled src t) ↔
          ∀ y < h, ∀ x < w, srcGet src (scaleIndex H h y * W + scaleIndex W w x) =
            some (nearestPixels src w h y x))) ∧
      ((∀ (src : Image) (t : IImage), src.w = W → src.h = H → t.w = w → t.h = h →
        Answers (nearestPixels src w h) w h (imlibIntegralImageScaled src t)) ↔
          (w = 1 ∨ W < 32768) ∧ (h = 1 ∨ H < 32768)) := by
  refine ⟨fun src t hw hh htw hth => imlibIntegralImage_answers hH hw hh htw hth,
    fun w h hw hwW hh hhH => ⟨fun src t hsw hsh htw hth => ?_, forall_scaled_answers_iff hw hwW hh hhH⟩⟩
  have hiff := imlibIntegralImageScaled_answers_iff src hh htw hth
  rwa [hsw, hsh] at hiff

end Scaled

/-- Three by two pixels, scaled to two by one. -/
theorem integral_image_answers_three :
    ∃ t, imlibIntegralImageScaled ⟨3, 2, .grayscale, fun _ _ => 255⟩ ⟨2, 1, fun _ => 0⟩ = some t ∧
      imlibIntegralLookup t 0 0 2 1 = some 510 := by
  obtain ⟨t, ht, hlookup⟩ := ((integral_image_answers_iff 3 2 (by decide)).2 2 1 (by decide) (by decide)
    (by decide) (by decide)).2.mpr ⟨.inr (by decide), .inr (by decide)⟩ ⟨3, 2, .grayscale, fun _ _ => 255⟩
    ⟨2, 1, fun _ => 0⟩ rfl rfl rfl rfl
  exact ⟨t, ht, (hlookup 0 0 2 1 (by decide) (by decide) (by decide) (by decide)).trans (by decide)⟩

/-- The ratio is negative: the second of two columns is read from before the picture. -/
theorem integral_image_scaled_reads_outside :
    let src : Image := ⟨32768, 1, .grayscale, fun _ _ => 0⟩
    ¬ Answers (nearestPixels src 2 1) 2 1 (imlibIntegralImageScaled src ⟨2, 1, fun _ => 0⟩) := by
  rintro src ⟨t, ht, -⟩
  have hnone : (imlibIntegralImageScaled src ⟨2, 1, fun _ => 0⟩).isNone := by decide
  rw [ht] at hnone
  exact Bool.false_ne_true hnone

end OpenMV.Vision
