import OpenMV.Schemes.Area
import OpenMV.Vision.FindBlobs
import OpenMV.Filters.Kernel

/-! Moving integral images | scheme:prefix-sum | source:src/src/openmv/omv/img/integral_mw.c

    An integral image of a few rows that moves down a scaled ROI. The rows stay where they are and the pointers
    to them move:

        row of the ROI   Y    Y+1  Y+2  …         after a shift by one   Y+1  Y+2  …    Y+h
        data             p₀   p₁   p₂   …  pₕ₋₁                           p₁   p₂   …    p₀

    A new row is the sum along the row and the row above it, so `data[i]` holds the sums over all rows of the
    ROI from its first one up to `Y + i`, also those that have been given up. -/

namespace OpenMV.Vision
open Schemes Filters

/-! ### The code -/

/-- `IM_TO_GS_PIXEL`. -/
def imToGsPixel (img : Image) (x y : ℤ) : ℤ :=
  if img.bpp = .grayscale then imageGetGrayscalePixel img x y else colorRgb565ToY (imageGetRgb565Pixel img x y)

/-- `mw_image_t`, with the rows its pointers point to; these are different rows. -/
structure MwImage where
  w : ℕ
  h : ℕ
  yOffs : ℕ
  xRatio : ℤ
  yRatio : ℤ
  data : ℕ → ℕ
  swap : ℕ → ℕ
  rows : ℕ → ℕ → ℤ
  distinct : ∀ i < h, ∀ j < h, data i = data j → i = j

/-- A row that has been stored to. -/
def store (rows : ℕ → ℕ → ℤ) (p x : ℕ) (v : ℤ) : ℕ → ℕ → ℤ :=
  Function.update rows p (Function.update (rows p) x v)

/-- `imlib_integral_mw_alloc`. -/
def imlibIntegralMwAlloc (w h : ℕ) : MwImage where
  w := w
  h := h
  yOffs := 0
  xRatio := 65537
  yRatio := 65537
  data := id
  swap := id
  rows := fun _ _ => 0
  distinct := fun _ _ _ _ h => h

/-- `imlib_integral_mw_scale`. -/
def imlibIntegralMwScale (roi : Rectangle) (sum : MwImage) (w h : ℕ) : MwImage :=
  { sum with
    w := w
    yOffs := 0
    xRatio := int32 ((int32 (roi.w * 65536)).tdiv w + 1)
    yRatio := int32 ((int32 (roi.h * 65536)).tdiv h + 1) }

/-- `roi->x+((x*sum->x_ratio)>>16)`. -/
def sourceX (roi : Rectangle) (sum : MwImage) (x : ℕ) : ℤ := int32 (roi.x + int32 (x * sum.xRatio) / 65536)

/-- `roi->y+((y*sum->y_ratio)>>16)`. -/
def sourceY (roi : Rectangle) (sum : MwImage) (y : ℕ) : ℤ := int32 (roi.y + int32 (y * sum.yRatio) / 65536)

/-- The loop over the columns of a row: `s += px; data[y][x] = s + above`. A `uint32_t` is stored. -/
def rowLoop (px : ℕ → ℤ) (above : (ℕ → ℕ → ℤ) → ℕ → ℤ) (p : ℕ) (rows : ℕ → ℕ → ℤ) : ℕ → ℤ × (ℕ → ℕ → ℤ)
  | 0 => (0, rows)
  | x + 1 =>
    let r := rowLoop px above p rows x
    let s := r.1 + px x
    (s, store r.2 p x ((s + above r.2 x) % 4294967296))

/-- The loop over the rows from `y` on, the first of them for row `line` of the ROI: each is added to the
    one above. -/
def rowsLoop (px : ℕ → ℕ → ℤ) (w : ℕ) (data : ℕ → ℕ) (y line : ℕ) (rows : ℕ → ℕ → ℤ) : ℕ → ℕ → ℕ → ℤ
  | 0 => rows
  | n + 1 =>
    (rowLoop (px (line + n)) (fun rows x => rows (data (y + n - 1)) x) (data (y + n)) (rowsLoop px w data y line rows n)
      w).2

/-- What is summed up for column `x` of row `y`: `f` is the identity for `sum` and the square for `ssq`. -/
def scaled (src : Image) (roi : Rectangle) (sum : MwImage) (f : ℤ → ℤ) (y x : ℕ) : ℤ :=
  f (imToGsPixel src (sourceX roi sum x) (sourceY roi sum y))

/-- `imlib_integral_mw_ss`, for one of its two images. The sizes and ratios are those of `sum` for both. -/
def ssPass (src : Image) (roi : Rectangle) (sum : MwImage) (f : ℤ → ℤ) (m : MwImage) : MwImage :=
  let first := rowLoop (fun x => f (imToGsPixel src (sourceX roi sum x) roi.y)) (fun _ _ => 0) (m.data 0) m.rows sum.w
  { m with
    rows := rowsLoop (scaled src roi sum f) sum.w m.data 1 1 first.2 (sum.h - 1)
    yOffs := sum.h }

def imlibIntegralMwSs (src : Image) (sum ssq : MwImage) (roi : Rectangle) : MwImage × MwImage :=
  (ssPass src roi sum id sum, ssPass src roi sum (fun p => p * p) ssq)

theorem shift_distinct (m : MwImage) (n : ℕ) : ∀ i < m.h, ∀ j < m.h,
    m.data ((i + n) % m.h) = m.data ((j + n) % m.h) → i = j := by
  intro i hi j hj h
  have hmod := m.distinct _ (Nat.mod_lt _ (by omega)) _ (Nat.mod_lt _ (by omega)) h
  have hij : i % m.h = j % m.h := Nat.ModEq.add_right_cancel' n hmod
  rwa [Nat.mod_eq_of_lt hi, Nat.mod_eq_of_lt hj] at hij

/-- The first loop of `imlib_integral_mw_shift_ss` and `SWAP_PTRS`. -/
def shiftPtrs (m : MwImage) (n : ℕ) : MwImage :=
  { m with
    data := fun y => m.data ((y + n) % m.h)
    swap := m.data
    distinct := shift_distinct m n }

/-- `imlib_integral_mw_shift_ss`, for one of its two images. -/
def shiftPass (src : Image) (roi : Rectangle) (sum : MwImage) (f : ℤ → ℤ) (n : ℕ) (m : MwImage) : MwImage :=
  let m := shiftPtrs m n
  { m with
    rows := rowsLoop (scaled src roi sum f) sum.w m.data (sum.h - n) sum.yOffs m.rows n
    yOffs := m.yOffs + n }

def imlibIntegralMwShiftSs (src : Image) (sum ssq : MwImage) (roi : Rectangle) (n : ℕ) : MwImage × MwImage :=
  (shiftPass src roi sum id n sum, shiftPass src roi sum (fun p => p * p) n ssq)

/-- `imlib_integral_mw_lookup`. -/
def imlibIntegralMwLookup (sum : MwImage) (x y w h : ℕ) : ℤ :=
  (sum.rows (sum.data (h + y)) (w + x) + sum.rows (sum.data y) x - sum.rows (sum.data y) (w + x) -
    sum.rows (sum.data (h + y)) x) % 4294967296

/-! ### A row -/

section

variable {px : ℕ → ℤ} {above : (ℕ → ℕ → ℤ) → ℕ → ℤ} {p : ℕ} {rows : ℕ → ℕ → ℤ} {A : ℕ → ℤ}

theorem store_self (rows : ℕ → ℕ → ℤ) (p x : ℕ) (v : ℤ) : store rows p x v p x = v := by simp [store]

theorem store_column {p x x' : ℕ} (h : x' ≠ x) (rows : ℕ → ℕ → ℤ) (v : ℤ) : store rows p x v p x' = rows p x' := by
  simp [store, h]

theorem store_row {p q : ℕ} (h : q ≠ p) (rows : ℕ → ℕ → ℤ) (x : ℕ) (v : ℤ) : store rows p x v q = rows q := by
  simp [store, h]

variable (px above p rows) in
/-- The row above is another one, so it stays as it is while the row is written. -/
theorem rowLoop_spec (habove : ∀ rows', (∀ q ≠ p, rows' q = rows q) → ∀ x, above rows' x = A x) (n : ℕ) :
    (rowLoop px above p rows n).1 = ∑ j ∈ Finset.range n, px j ∧
    (∀ q ≠ p, (rowLoop px above p rows n).2 q = rows q) ∧
    ∀ x < n, (rowLoop px above p rows n).2 p x = (∑ j ∈ Finset.range (x + 1), px j + A x) % 4294967296 := by
  induction n with
  | zero => exact ⟨rfl, fun _ _ => rfl, fun x hx => absurd hx (Nat.not_lt_zero x)⟩
  | succ n ih =>
    obtain ⟨hsum, hother, hrow⟩ := ih
    rw [rowLoop, habove _ hother, hsum, ← Finset.sum_range_succ]
    refine ⟨rfl, fun q hq => (store_row hq _ _ _).trans (hother q hq), fun x hx => ?_⟩
    rcases Nat.lt_succ_iff_lt_or_eq.mp hx with hlt | rfl
    · exact (store_column (Nat.ne_of_lt hlt) _ _).trans (hrow x hlt)
    · exact store_self _ _ _ _

end

/-! ### Rows -/

section

variable {px : ℕ → ℕ → ℤ} {w h : ℕ} {data : ℕ → ℕ} {rows : ℕ → ℕ → ℤ}

variable (px w data rows) in
/-- Rows on top of one that is right: they are right, and the others are left alone. -/
theorem rowsLoop_spec (hdata : ∀ i < h, ∀ j < h, data i = data j → i = j) (y line : ℕ)
    (hfirst : ∀ x < w, rows (data y) x = area px line x % 4294967296) (n : ℕ) (hn : y + n < h) :
    (∀ q, (∀ k < n, q ≠ data (y + 1 + k)) → rowsLoop px w data (y + 1) (line + 1) rows n q = rows q) ∧
    ∀ k < n, ∀ x < w, rowsLoop px w data (y + 1) (line + 1) rows n (data (y + 1 + k)) x =
      area px (line + 1 + k) x % 4294967296 := by
  induction n with
  | zero => exact ⟨fun _ _ => rfl, fun k hk => absurd hk (Nat.not_lt_zero k)⟩
  | succ n ih =>
    obtain ⟨hother, hdone⟩ := ih (by omega)
    have hlast : ∀ x < w, rowsLoop px w data (y + 1) (line + 1) rows n (data (y + n)) x =
        area px (line + n) x % 4294967296 := by
      intro x hx
      cases n with
      | zero => exact hfirst x hx
      | succ m =>
        have := hdone m (Nat.lt_succ_self m) x hx
        rwa [show y + 1 + m = y + (m + 1) by omega, show line + 1 + m = line + (m + 1) by omega] at this
    have hne : data (y + n) ≠ data (y + 1 + n) := fun h => by
      have := hdata _ (by omega) _ (by omega) h
      omega
    have hidx : y + 1 + n - 1 = y + n := by omega
    rw [rowsLoop, hidx]
    obtain ⟨-, hkeep, hrow⟩ := rowLoop_spec (px (line + 1 + n)) (fun rows x => rows (data (y + n)) x)
      (data (y + 1 + n)) (rowsLoop px w data (y + 1) (line + 1) rows n)
      (A := rowsLoop px w data (y + 1) (line + 1) rows n (data (y + n)))
      (fun rows' h x => congrFun (h _ hne) x) w
    refine ⟨fun q hq => ?_, fun k hk x hx => ?_⟩
    · rw [hkeep q (hq n (Nat.lt_succ_self n)), hother q fun k hk => hq k (Nat.lt_succ_of_lt hk)]
    · rcases Nat.lt_succ_iff_lt_or_eq.mp hk with hlt | rfl
      · have hother : data (y + 1 + k) ≠ data (y + 1 + n) := fun h => by
          have := hdata _ (by omega) _ (by omega) h
          omega
        rw [hkeep _ hother, hdone k hlt x hx]
      · have harea : area px (line + 1 + k) x = area px (line + k) x + rowSum px (line + 1 + k) x := by
          rw [show line + 1 + k = line + k + 1 by omega, area_succ]
        rw [hrow x hx, hlast x hx, harea, Int.add_emod_emod, add_comm]
        rfl

end

/-! ### The moving window -/

/-- The image holds the sums of the rows from `Y` on. -/
structure Moved (F : ℕ → ℕ → ℤ) (w h Y : ℕ) (m : MwImage) : Prop where
  size : m.h = h
  offs : m.yOffs = Y + h
  rows : ∀ i < h, ∀ x < w, m.rows (m.data i) x = area F (Y + i) x % 4294967296

section

variable {src : Image} {roi : Rectangle} {sum m : MwImage} {f : ℤ → ℤ} {h Y : ℕ}

theorem ssPass_moved (hsum : sum.h = h) (hm : m.h = h) (hpos : 0 < h) (hy : sourceY roi sum 0 = roi.y) :
    Moved (scaled src roi sum f) sum.w h 0 (ssPass src roi sum f m) := by
  obtain ⟨-, -, hfirst⟩ := rowLoop_spec (fun x => f (imToGsPixel src (sourceX roi sum x) roi.y))
    (fun _ _ => 0) (m.data 0) m.rows (A := fun _ => 0) (fun _ _ _ => rfl) sum.w
  refine ⟨hm, ?_, fun i hi x hx => ?_⟩
  · simp [ssPass, hsum]
  · obtain ⟨hother, hrows⟩ := rowsLoop_spec (scaled src roi sum f) sum.w (h := h) m.data
      (rowLoop (fun x => f (imToGsPixel src (sourceX roi sum x) roi.y)) (fun _ _ => 0) (m.data 0) m.rows
        sum.w).2 (fun i hi j hj => m.distinct i (by omega) j (by omega)) 0 0 (by
        intro x hx
        rw [hfirst x hx, area_zero, add_zero, rowSum]
        simp only [scaled, hy]) (h - 1) (by omega)
    simp only [ssPass, hsum]
    cases i with
    | zero =>
      rw [hother _ fun k hk h0 => by
        have := m.distinct 0 (by omega) _ (by omega) h0
        omega]
      rw [hfirst x hx, add_zero, Nat.zero_add, area_zero, rowSum]
      simp only [scaled, hy]
    | succ k =>
      simpa [Nat.add_comm 1 k] using hrows k (by omega) x hx

/-- A shift: the kept rows change their numbers, and the new ones are put on top of the last of them. -/
theorem shiftPass_moved (hsum : sum.h = h) (hoffs : sum.yOffs = Y + h)
    (hm : Moved (scaled src roi sum f) sum.w h Y m) {n : ℕ} (hn : n < h) :
    Moved (scaled src roi sum f) sum.w h (Y + n) (shiftPass src roi sum f n m) := by
  set px := scaled src roi sum f with hpx
  set data := fun y => m.data ((y + n) % m.h) with hdata
  have hkept : ∀ i < h - n, data i = m.data (i + n) := fun i hi => by
    rw [hdata]
    exact congrArg m.data (Nat.mod_eq_of_lt (by rw [hm.size]; omega))
  obtain ⟨y, hy⟩ : ∃ y, h - n = y + 1 := ⟨h - n - 1, by omega⟩
  obtain ⟨hother, hrows⟩ := rowsLoop_spec px sum.w (h := h) data m.rows
    (by rw [← hm.size]; exact shift_distinct m n) y (Y + n + y) (by
      intro x hx
      rw [hkept y (by omega), hm.rows (y + n) (by omega) x hx, show Y + n + y = Y + (y + n) by omega]) n (by omega)
  refine ⟨hm.size, ?_, fun i hi x hx => ?_⟩
  · simp only [shiftPass, shiftPtrs, hm.offs]
    omega
  · simp only [shiftPass, shiftPtrs, hsum, hoffs, hy, show Y + h = Y + n + y + 1 by omega]
    rw [← hdata, ← hpx]
    by_cases hi' : i < y + 1
    · rw [hother _ fun k hk h0 => by
        have := shift_distinct m n i (by rw [hm.size]; omega) (y + 1 + k) (by rw [hm.size]; omega) h0
        omega]
      rw [show m.data ((i + n) % m.h) = m.data (i + n) from hkept i (by omega), hm.rows (i + n) (by omega) x hx,
        show Y + n + i = Y + (i + n) by omega]
    · obtain ⟨k, rfl⟩ := Nat.exists_eq_add_of_le (Nat.not_lt.mp hi')
      refine (hrows k (by omega) x hx).trans ?_
      rw [show Y + n + y + 1 + k = Y + n + (y + 1 + k) by omega]

end

theorem Moved.lookup {F : ℕ → ℕ → ℤ} {W H Y : ℕ} {m : MwImage} (hm : Moved F W H Y m) {x y w h : ℕ} (hx : x + w < W)
    (hy : y + h < H) : imlibIntegralMwLookup m x y w h =
      (∑ r ∈ Finset.Ico (Y + y + 1) (Y + y + h + 1), ∑ c ∈ Finset.Ico (x + 1) (x + w + 1), F r c) % 4294967296 := by
  rw [imlibIntegralMwLookup, hm.rows _ (by omega) _ (by omega), hm.rows _ (by omega) _ (by omega),
    hm.rows _ (by omega) _ (by omega), hm.rows _ (by omega) _ (by omega), ← sum_rectangle F (Y + y) x h w,
    show Y + (h + y) = Y + y + h by omega, show w + x = x + w by omega]
  have hmod : ∀ a b c d : ℤ, (a % 4294967296 + b % 4294967296 - c % 4294967296 - d % 4294967296) % 4294967296 =
      (a + b - c - d) % 4294967296 := by
    intro a b c d
    omega
  exact hmod _ _ _ _

/-! ### Runs -/

/-- A rectangle as it is stored. -/
structure Rectangle.Int16 (r : Rectangle) : Prop where
  x : -32768 ≤ r.x ∧ r.x ≤ 32767
  y : -32768 ≤ r.y ∧ r.y ≤ 32767
  w : r.w ≤ 32767
  h : r.h ≤ 32767

/-- The two images after shifts by `Y` rows in all, with what they started with. -/
structure MovedBoth (src : Image) (roi : Rectangle) (m : MwImage) (Y : ℕ) (r : MwImage × MwImage) : Prop where
  w : r.1.w = m.w
  xRatio : r.1.xRatio = m.xRatio
  yRatio : r.1.yRatio = m.yRatio
  sum : Moved (scaled src roi m id) m.w m.h Y r.1
  ssq : Moved (scaled src roi m fun p => p * p) m.w m.h Y r.2

section

variable {src : Image} {roi : Rectangle} {m : MwImage}

theorem scaled_congr {m' : MwImage} (hx : m'.xRatio = m.xRatio) (hy : m'.yRatio = m.yRatio) (f : ℤ → ℤ) :
    scaled src roi m' f = scaled src roi m f := by
  funext y x
  simp only [scaled, sourceX, sourceY, hx, hy]

theorem sourceY_zero (hroi : roi.Int16) : sourceY roi m 0 = roi.y := by
  have hy := hroi.y
  have hzero : ((0 : ℕ) : ℤ) * m.yRatio = 0 := by simp
  rw [sourceY, hzero]
  unfold int32
  omega

theorem ss_movedBoth (hroi : roi.Int16) {ssq : MwImage} (hh : ssq.h = m.h) (hpos : 0 < m.h) :
    MovedBoth src roi m 0 (imlibIntegralMwSs src m ssq roi) :=
  ⟨rfl, rfl, rfl, ssPass_moved rfl rfl hpos (sourceY_zero hroi), ssPass_moved rfl hh hpos (sourceY_zero hroi)⟩

theorem MovedBoth.shift {Y n : ℕ} {r : MwImage × MwImage} (h : MovedBoth src roi m Y r) (hn : n < m.h) :
    MovedBoth src roi m (Y + n) (imlibIntegralMwShiftSs src r.1 r.2 roi n) := by
  have hpx : ∀ f, scaled src roi r.1 f = scaled src roi m f := scaled_congr h.xRatio h.yRatio
  refine ⟨h.w, h.xRatio, h.yRatio, ?_, ?_⟩
  · have := shiftPass_moved h.sum.size h.sum.offs (by rw [hpx, h.w]; exact h.sum) hn
    rwa [hpx, h.w] at this
  · have := shiftPass_moved h.sum.size h.sum.offs (by rw [hpx, h.w]; exact h.ssq) hn
    rwa [hpx, h.w] at this

/-- Any number of shifts. -/
theorem MovedBoth.shifts {ns : List ℕ} (hns : ∀ n ∈ ns, 1 ≤ n ∧ n ≤ m.h - 1) :
    ∀ {Y : ℕ} {r : MwImage × MwImage}, MovedBoth src roi m Y r →
    MovedBoth src roi m (Y + ns.sum) (ns.foldl (fun r n => imlibIntegralMwShiftSs src r.1 r.2 roi n) r) := by
  induction ns with
  | nil => exact fun h => h
  | cons n ns ih =>
    intro Y r h
    rw [List.forall_mem_cons] at hns
    rw [List.sum_cons, ← Nat.add_assoc]
    exact ih hns.2 (h.shift (by omega))

end

/-! ### The offsets -/

/-- A ratio is rounded up: up to the last row or column it stays below the size of the ROI, and it reaches
    it right behind. -/
theorem ratio_bounds {a : ℤ} {w : ℕ} (hw : 0 < w) (hwa : (w : ℤ) ≤ a) :
    65536 ≤ a * 65536 / w ∧ w * (a * 65536 / w) ≤ a * 65536 ∧ a * 65536 < w * (a * 65536 / w + 1) := by
  have hpos : (0 : ℤ) < w := by omega
  refine ⟨(Int.le_ediv_iff_mul_le hpos).mpr (by nlinarith), Int.mul_ediv_self_le (by omega), ?_⟩
  have := Int.lt_ediv_add_one_mul_self (a * 65536) hpos
  linarith

theorem ratio_eq {a : ℤ} {w : ℕ} (hw : 0 < w) (hwa : (w : ℤ) ≤ a) (ha : a ≤ 32767) :
    int32 ((int32 (a * 65536)).tdiv w + 1) = a * 65536 / w + 1 := by
  obtain ⟨hq, hle, -⟩ := ratio_bounds hw hwa
  have hbound : a * 65536 / w ≤ a * 65536 := by nlinarith
  have hin : int32 (a * 65536) = a * 65536 := int32_of_mem (by omega) (by omega)
  rw [hin, Int.tdiv_eq_ediv_of_nonneg (by omega), int32_of_mem (by omega) (by omega)]

/-- A place of the scaled image lies in the ROI. -/
theorem offset_lt {a : ℤ} {w x : ℕ} (hwa : (w : ℤ) ≤ a) (ha : a ≤ 32767) (hx : x < w) :
    0 ≤ (x : ℤ) * (a * 65536 / w + 1) ∧ (x : ℤ) * (a * 65536 / w + 1) < a * 65536 := by
  obtain ⟨hq, hle, -⟩ := ratio_bounds (by omega) hwa
  refine ⟨by positivity, ?_⟩
  have hx' : (x : ℤ) ≤ w - 1 := by omega
  nlinarith

/-- The offset as it is computed, if the product fits. -/
theorem offset_exact {b p : ℤ} (hb : -32768 ≤ b ∧ b ≤ 32767) (h0 : 0 ≤ p) (hp : p < 2147483648) :
    int32 (b + int32 p / 65536) = b + p / 65536 := by
  rw [int32_of_mem (x := p) (by omega) (by omega), int32_of_mem (by omega) (by omega)]

/-- The last row that is kept after the shifts: within the scaled image, or up to twice as far in a ROI of
    half the height. -/
theorem row_offset_lt {a : ℤ} {h k Y y : ℕ} (hh : 0 < h) (hha : (h : ℤ) ≤ a) (ha : a ≤ 32767) (hk : k ≤ h)
    (htotal : Y + k ≤ h ∨ Y ≤ h ∧ a ≤ 16383) (hy : y < Y + k) :
    0 ≤ (y : ℤ) * (a * 65536 / h + 1) ∧ (y : ℤ) * (a * 65536 / h + 1) < 2147483648 := by
  rcases htotal with htotal | ⟨hY, ha'⟩
  · obtain ⟨h0, hlt⟩ := offset_lt hha ha (show y < h by omega)
    exact ⟨h0, by omega⟩
  · obtain ⟨hq, hle, -⟩ := ratio_bounds hh hha
    have hy' : (y : ℤ) ≤ 2 * h := by omega
    refine ⟨by positivity, ?_⟩
    nlinarith

/-- After any shifts, a lookup is the sum over its rectangle of the scaled image; in `ssq` that of the squares. -/
theorem integralMw_lookup (src : Image) (roi : Rectangle) (hroi : roi.Int16) (sum ssq : MwImage) (hh : ssq.h = sum.h)
    (szw szh : ℕ) (hszw : (szw : ℤ) ≤ roi.w) (hszh : (szh : ℤ) ≤ roi.h) (hbuf : sum.h ≤ szh)
    (ns : List ℕ) (hns : ∀ n ∈ ns, 1 ≤ n ∧ n ≤ sum.h - 1)
    (htotal : ns.sum + sum.h ≤ szh ∨ ns.sum ≤ szh ∧ roi.h ≤ 16383)
    (x y w h : ℕ) (hx : x + w < szw) (hy : y + h < sum.h) :
    let m := imlibIntegralMwScale roi sum szw szh
    let r := ns.foldl (fun r n => imlibIntegralMwShiftSs src r.1 r.2 roi n)
      (imlibIntegralMwSs src m (imlibIntegralMwScale roi ssq szw szh) roi)
    let Y := ns.sum
    let pixel := fun (y x : ℕ) => imToGsPixel src (roi.x + x * m.xRatio / 65536) (roi.y + y * m.yRatio / 65536)
    imlibIntegralMwLookup r.1 x y w h = (∑ r ∈ Finset.Ico (Y + y + 1) (Y + y + h + 1),
        ∑ c ∈ Finset.Ico (x + 1) (x + w + 1), pixel r c) % 4294967296 ∧
      imlibIntegralMwLookup r.2 x y w h = (∑ r ∈ Finset.Ico (Y + y + 1) (Y + y + h + 1),
        ∑ c ∈ Finset.Ico (x + 1) (x + w + 1), pixel r c * pixel r c) % 4294967296 := by
  intro m r Y pixel
  have hfirst : MovedBoth src roi m 0 (imlibIntegralMwSs src m (imlibIntegralMwScale roi ssq szw szh) roi) :=
    ss_movedBoth hroi hh (show 0 < sum.h by omega)
  have hmoved : MovedBoth src roi m (0 + ns.sum) r := MovedBoth.shifts (m := m) hns hfirst
  rw [Nat.zero_add] at hmoved
  have hxRatio : m.xRatio = roi.w * 65536 / szw + 1 := ratio_eq (by omega) hszw hroi.w
  have hyRatio : m.yRatio = roi.h * 65536 / szh + 1 := ratio_eq (by omega) hszh hroi.h
  -- where nothing overflows, the place that is read is the exact one
  have hpixel : ∀ f : ℤ → ℤ, ∀ i ∈ Finset.Ico (Y + y + 1) (Y + y + h + 1), ∀ c ∈ Finset.Ico (x + 1) (x + w + 1),
      scaled src roi m f i c = f (pixel i c) := by
    intro f i hi c hc
    rw [Finset.mem_Ico] at hi hc
    obtain ⟨hc0, hclt⟩ := offset_lt hszw hroi.w (show c < szw by omega)
    obtain ⟨hi0, hilt⟩ := row_offset_lt (by omega) hszh hroi.h hbuf htotal (show i < ns.sum + sum.h by omega)
    have hw := hroi.w
    simp only [scaled, sourceX, sourceY, pixel, hxRatio, hyRatio]
    rw [offset_exact hroi.x hc0 (by omega), offset_exact hroi.y hi0 hilt]
  have hsums : ∀ f : ℤ → ℤ, ∑ i ∈ Finset.Ico (Y + y + 1) (Y + y + h + 1), ∑ c ∈ Finset.Ico (x + 1) (x + w + 1),
      scaled src roi m f i c = ∑ i ∈ Finset.Ico (Y + y + 1) (Y + y + h + 1),
        ∑ c ∈ Finset.Ico (x + 1) (x + w + 1), f (pixel i c) := fun f =>
    Finset.sum_congr rfl fun i hi => Finset.sum_congr rfl fun c hc => hpixel f i hi c hc
  constructor
  · rw [hmoved.sum.lookup hx hy, hsums]
    rfl
  · rw [hmoved.ssq.lookup hx hy, hsums]

/-- A window of three rows in an image of 4 x 4 pixels that is not scaled, moved by one row. -/
theorem integralMw_lookup_shifted :
    let src : Image := ⟨4, 4, .grayscale, fun x y => (x + 10 * y).toNat⟩
    let roi : Rectangle := ⟨0, 0, 4, 4⟩
    let m := imlibIntegralMwScale roi (imlibIntegralMwAlloc 4 3) 4 4
    let r := [1].foldl (fun r n => imlibIntegralMwShiftSs src r.1 r.2 roi n) (imlibIntegralMwSs src m m roi)
    imlibIntegralMwLookup r.1 0 0 2 2 = (21 + 22) + (31 + 32) := by
  intro src roi m r
  have h := (integralMw_lookup src roi ⟨by decide, by decide, by decide, by decide⟩ (imlibIntegralMwAlloc 4 3)
    (imlibIntegralMwAlloc 4 3) rfl 4 4 (by decide) (by decide) (by decide) [1] (by decide) (Or.inl (by decide)) 0 0 2 2
    (by decide) (by decide)).1
  exact h.trans (by decide)

end OpenMV.Vision
