import OpenMV.Vision.IntegralMw
import Mathlib.Algebra.Order.Chebyshev

/-! The cascade of classifiers | scheme:prefix-sum | source:src/src/openmv/omv/img/haar.c

    `run_cascade_classifier` takes mean and variance of a window from two integral images, skips the window
    if it is flat, and gives the others to the stages of the cascade, whose thresholds go with the standard
    deviation. The variance test is in whole numbers and exact. What the root is taken of is
    `n * ssq - sum * sum` in 32 bits; it fits for every window of up to 514 pixels, and for larger ones
    unless the window is too contrasty. -/

namespace OpenMV.Vision
open Schemes Finset

/-! ### The code -/

/-- The tables of a `cascade_t`. `stageBelow` is `stage_sum < (cascade->threshold * thresh)`. -/
structure Classifier where
  windowW : ℕ
  windowH : ℕ
  stageBelow : ℤ → ℤ → Bool
  nStages : ℕ
  stagesArray : ℕ → ℕ
  stagesThreshArray : ℕ → ℤ
  treeThreshArray : ℕ → ℤ
  alpha1Array : ℕ → ℤ
  alpha2Array : ℕ → ℤ
  numRectanglesArray : ℕ → ℕ
  weightsArray : ℕ → ℤ
  rectanglesArray : ℕ → ℕ

/-- Where the loops are in the tables. -/
structure Cursor where
  wIdx : ℕ
  rIdx : ℕ
  tIdx : ℕ

def evalWeakClassifier (c : Classifier) (std : ℤ) (sum : MwImage) (ptX : ℕ) (k : Cursor) : ℤ :=
  let t := int32 (c.treeThreshArray k.tIdx * std)
  let sumw := (List.range (c.numRectanglesArray k.tIdx)).foldl (fun sumw i =>
    let x := c.rectanglesArray (k.rIdx + i * 4)
    let y := c.rectanglesArray (k.rIdx + i * 4 + 1)
    let w := c.rectanglesArray (k.rIdx + i * 4 + 2)
    let h := c.rectanglesArray (k.rIdx + i * 4 + 3)
    int32 (sumw + imlibIntegralMwLookup sum (ptX + x) y w h * (c.weightsArray (k.wIdx + i) * 4096))) 0
  if sumw ≥ t then c.alpha2Array k.tIdx else c.alpha1Array k.tIdx

/-- The features of a stage: their sum, and where the next stage goes on. -/
def runStage (c : Classifier) (std : ℤ) (sum : MwImage) (ptX : ℕ) : ℕ → Cursor → ℤ × Cursor
  | 0, k => (0, k)
  | n + 1, k =>
    let r := runStage c std sum ptX n k
    (int32 (r.1 + evalWeakClassifier c std sum ptX r.2),
      ⟨r.2.wIdx + c.numRectanglesArray r.2.tIdx, r.2.rIdx + c.numRectanglesArray r.2.tIdx * 4, r.2.tIdx + 1⟩)

/-- The stages from `i` on, as many as `n`. -/
def runStages (c : Classifier) (std : ℤ) (sum : MwImage) (ptX : ℕ) : ℕ → ℕ → Cursor → Bool
  | 0, _, _ => true
  | n + 1, i, k =>
    let r := runStage c std sum ptX (c.stagesArray i) k
    if c.stageBelow r.1 (c.stagesThreshArray i) then false else runStages c std sum ptX n (i + 1) r.2

/-- The numbers that `run_cascade_classifier` starts from, in 32 bits: `v` is tested against `50*50`, and the
    root is taken of `radicand`. -/
structure WindowStats where
  n : ℤ
  iS : ℤ
  iSq : ℤ
  m : ℤ
  v : ℤ
  radicand : ℤ

def windowStats (sum ssq : MwImage) (ptX winW winH : ℕ) : WindowStats :=
  let n := (winW * winH : ℤ) % 4294967296
  let iS := imlibIntegralMwLookup sum ptX 0 winW winH
  let iSq := imlibIntegralMwLookup ssq ptX 0 winW winH
  let m := iS / n
  { n := n
    iS := iS
    iSq := iSq
    m := m
    v := (iSq / n - m * m % 4294967296) % 4294967296
    radicand := (iSq * n % 4294967296 - iS * iS % 4294967296) % 4294967296 }

/-- `fastSqrtf` is the root of the converted number, cut off to an `int`. -/
def runCascadeClassifier (fastSqrtf : ℤ → ℤ) (c : Classifier) (sum ssq : MwImage) (ptX : ℕ) : Bool :=
  let st := windowStats sum ssq ptX c.windowW c.windowH
  if st.v < 50 * 50 then false
  else runStages c (fastSqrtf st.radicand) sum ptX c.nStages 0 ⟨0, 0, 0⟩

/-! ### A window -/

section Window

variable {F : ℕ → ℕ → ℤ} {w h : ℕ}

/-- The sum over a window of `h` rows and `w` columns. -/
def windowTotal (P : ℕ → ℕ → ℤ) (w h : ℕ) : ℤ := ∑ r ∈ range h, ∑ c ∈ range w, P r c

theorem windowTotal_eq (P : ℕ → ℕ → ℤ) (w h : ℕ) :
    windowTotal P w h = ∑ p ∈ range h ×ˢ range w, P p.1 p.2 := (sum_product' _ _ _).symm

theorem windowTotal_mem {P : ℕ → ℕ → ℤ} {b : ℤ} (hP : ∀ r c, 0 ≤ P r c ∧ P r c ≤ b) (w h : ℕ) :
    0 ≤ windowTotal P w h ∧ windowTotal P w h ≤ (w * h : ℕ) * b := by
  rw [windowTotal_eq]
  refine ⟨sum_nonneg fun p _ => (hP p.1 p.2).1, ?_⟩
  have hle := sum_le_card_nsmul (range h ×ˢ range w) (fun p => P p.1 p.2) b fun p _ => (hP p.1 p.2).2
  rwa [card_product, card_range, card_range, nsmul_eq_mul, Nat.mul_comm h w] at hle

/-- The square of the sum is never above the sum of the squares times the number. -/
theorem sq_windowTotal_le (P : ℕ → ℕ → ℤ) (w h : ℕ) :
    windowTotal P w h * windowTotal P w h ≤ (w * h : ℕ) * windowTotal (fun r c => P r c * P r c) w h := by
  have hcs := sq_sum_le_card_mul_sum_sq (s := range h ×ˢ range w) (f := fun p => P p.1 p.2)
  rw [card_product, card_range, card_range, Nat.mul_comm h w] at hcs
  simp only [windowTotal_eq]
  simpa only [sq] using hcs

/-- The sum of the squares of pixels. -/
theorem windowTotal_sq_le {P : ℕ → ℕ → ℤ} (hP : ∀ r c, 0 ≤ P r c ∧ P r c ≤ 255) (w h : ℕ) :
    windowTotal (fun r c => P r c * P r c) w h ≤ 255 * windowTotal P w h := by
  simp only [windowTotal_eq, mul_sum]
  exact sum_le_sum fun p _ => mul_le_mul_of_nonneg_right (hP p.1 p.2).2 (hP p.1 p.2).1

end Window

/-- The pixels of the window at column `x` of images that start with row `Y`; the tables have one more row above and
    one more column on the left. -/
def windowPixels (F : ℕ → ℕ → ℤ) (Y x r c : ℕ) : ℤ := F (Y + 1 + r) (x + 1 + c)

theorem Moved.lookup_window {F : ℕ → ℕ → ℤ} {W H Y : ℕ} {m : MwImage} (hm : Moved F W H Y m) {x w h : ℕ}
    (hx : x + w < W) (hh : h < H) :
    imlibIntegralMwLookup m x 0 w h = windowTotal (windowPixels F Y x) w h % 4294967296 := by
  have hrows : Y + 0 + h + 1 - (Y + 0 + 1) = h := by omega
  have hcols : x + w + 1 - (x + 1) = w := by omega
  rw [hm.lookup hx (by omega)]
  simp only [sum_Ico_eq_sum_range, hrows, hcols]
  rfl

/-! ### Its statistics -/

/-- Images that hold the sums of the pixels, and of their squares, of a window of 8-bit pixels. -/
structure Holds8 (F : ℕ → ℕ → ℤ) (W H Y : ℕ) (sum ssq : MwImage) : Prop where
  mem : ∀ r c, 0 ≤ F r c ∧ F r c ≤ 255
  sum : Moved F W H Y sum
  ssq : Moved (fun r c => F r c * F r c) W H Y ssq

section Stats

variable {F : ℕ → ℕ → ℤ} {W H Y : ℕ} {sum ssq : MwImage} {x w h : ℕ}

/-- Neither of the two totals wraps. -/
theorem windowStats_totals (hs : Holds8 F W H Y sum ssq) (hn : w * h ≤ 1024) (hx : x + w < W) (hh : h < H) :
    (windowStats sum ssq x w h).n = (w * h : ℕ) ∧
      (windowStats sum ssq x w h).iS = windowTotal (windowPixels F Y x) w h ∧
      (windowStats sum ssq x w h).iSq =
        windowTotal (fun r c => windowPixels F Y x r c * windowPixels F Y x r c) w h := by
  have hP : ∀ r c, 0 ≤ windowPixels F Y x r c ∧ windowPixels F Y x r c ≤ 255 := fun r c => hs.mem _ _
  obtain ⟨h0, h1⟩ := windowTotal_mem hP w h
  obtain ⟨h2, h3⟩ := windowTotal_mem (b := 65025) (fun r c => ⟨mul_nonneg (hP r c).1 (hP r c).1,
    mul_le_mul (hP r c).2 (hP r c).2 (hP r c).1 (by norm_num)⟩) w h
  refine ⟨?_, ?_, ?_⟩
  · simp only [windowStats]
    push_cast
    exact Int.emod_eq_of_lt (by positivity) (by exact_mod_cast (by omega : w * h < 4294967296))
  · simp only [windowStats, hs.sum.lookup_window hx hh]
    exact Int.emod_eq_of_lt h0 (by omega)
  · have hq : imlibIntegralMwLookup ssq x 0 w h = windowTotal (fun r c =>
        windowPixels F Y x r c * windowPixels F Y x r c) w h % 4294967296 := hs.ssq.lookup_window hx hh
    simp only [windowStats, hq]
    exact Int.emod_eq_of_lt h2 (by omega)

/-- The variance that is tested is exact. -/
theorem windowStats_v (hs : Holds8 F W H Y sum ssq) (hpos : 1 ≤ w * h) (hn : w * h ≤ 1024) (hx : x + w < W)
    (hh : h < H) : (windowStats sum ssq x w h).v =
      windowTotal (fun r c => windowPixels F Y x r c * windowPixels F Y x r c) w h / (w * h : ℕ) -
        (windowTotal (windowPixels F Y x) w h / (w * h : ℕ)) ^ 2 := by
  have hP : ∀ r c, 0 ≤ windowPixels F Y x r c ∧ windowPixels F Y x r c ≤ 255 := fun r c => hs.mem _ _
  obtain ⟨h0, h1⟩ := windowTotal_mem hP w h
  have hsq := windowTotal_sq_le hP w h
  have hcs := sq_windowTotal_le (windowPixels F Y x) w h
  obtain ⟨hn', hS, hQ⟩ := windowStats_totals hs hn hx hh
  have hv : (windowStats sum ssq x w h).v = ((windowStats sum ssq x w h).iSq / (windowStats sum ssq x w h).n -
      (windowStats sum ssq x w h).iS / (windowStats sum ssq x w h).n *
        ((windowStats sum ssq x w h).iS / (windowStats sum ssq x w h).n) % 4294967296) % 4294967296 := rfl
  rw [hv, hn', hS, hQ]
  generalize windowTotal (fun r c => windowPixels F Y x r c * windowPixels F Y x r c) w h = q at *
  generalize windowTotal (windowPixels F Y x) w h = s at *
  generalize w * h = n at *
  have hnpos : (0 : ℤ) < n := by exact_mod_cast hpos
  have hm0 : 0 ≤ s / n := Int.ediv_nonneg h0 hnpos.le
  have hm1 : s / n ≤ 255 := Int.ediv_le_of_le_mul hnpos (by linarith)
  have hms : s / n * n ≤ s := Int.ediv_mul_le s hnpos.ne'
  -- the square of the mean is not above the mean of the squares
  have hle : s / n * (s / n) ≤ q / n := by
    refine (Int.le_ediv_iff_mul_le hnpos).mpr ?_
    have hmn : (s / n * n) * (s / n * n) ≤ s * s := mul_le_mul hms hms (mul_nonneg hm0 hnpos.le) h0
    have hcancel : (s / n * (s / n) * n) * n ≤ q * n := by
      calc (s / n * (s / n) * n) * n = (s / n * n) * (s / n * n) := by ring
        _ ≤ s * s := hmn
        _ ≤ q * n := by
          rw [mul_comm q]
          exact hcs
    exact le_of_mul_le_mul_right hcancel hnpos
  have hmm : s / n * (s / n) ≤ 65025 := mul_le_mul hm1 hm1 hm0 (by norm_num)
  have hqn : q / n ≤ 65025 := Int.ediv_le_of_le_mul hnpos (by linarith only [hsq, h1])
  rw [Int.emod_eq_of_lt (mul_nonneg hm0 hm0) (by omega), sq, Int.emod_eq_of_lt (by omega) (by
    have := mul_nonneg hm0 hm0
    omega)]

theorem windowStats_radicand (hs : Holds8 F W H Y sum ssq) (hn : w * h ≤ 1024) (hx : x + w < W) (hh : h < H) :
    (windowStats sum ssq x w h).radicand =
      ((w * h : ℕ) * windowTotal (fun r c => windowPixels F Y x r c * windowPixels F Y x r c) w h -
        windowTotal (windowPixels F Y x) w h ^ 2) % 4294967296 := by
  obtain ⟨hn', hS, hQ⟩ := windowStats_totals hs hn hx hh
  have hr : (windowStats sum ssq x w h).radicand =
      ((windowStats sum ssq x w h).iSq * (windowStats sum ssq x w h).n % 4294967296 -
        (windowStats sum ssq x w h).iS * (windowStats sum ssq x w h).iS % 4294967296) % 4294967296 := rfl
  rw [hr, hn', hS, hQ, ← Int.sub_emod, sq, mul_comm]

/-- What the root is taken of is exact when it fits. -/
theorem windowStats_radicand_iff (hs : Holds8 F W H Y sum ssq) (hn : w * h ≤ 1024) (hx : x + w < W)
    (hh : h < H) : (windowStats sum ssq x w h).radicand =
      (w * h : ℕ) * windowTotal (fun r c => windowPixels F Y x r c * windowPixels F Y x r c) w h -
        windowTotal (windowPixels F Y x) w h ^ 2 ↔
      (w * h : ℕ) * windowTotal (fun r c => windowPixels F Y x r c * windowPixels F Y x r c) w h -
        windowTotal (windowPixels F Y x) w h ^ 2 < 4294967296 := by
  have hcs := sq_windowTotal_le (windowPixels F Y x) w h
  rw [windowStats_radicand hs hn hx hh, sq]
  constructor
  · intro heq
    rw [← heq]
    exact Int.emod_lt_of_pos _ (by norm_num)
  · intro hlt
    exact Int.emod_eq_of_lt (by linarith) hlt

end Stats

/-! ### The stages -/

namespace Classifier
variable (c : Classifier)

/-- The features before a stage, and the rectangles before a feature. -/
def featuresBefore (i : ℕ) : ℕ := ∑ j ∈ range i, c.stagesArray j

def rectanglesBefore (t : ℕ) : ℕ := ∑ j ∈ range t, c.numRectanglesArray j

/-- Where the loops are in the tables when they come to a feature. -/
def cursor (t : ℕ) : Cursor := ⟨c.rectanglesBefore t, c.rectanglesBefore t * 4, t⟩

/-- The side of a rectangle: left, top, width or height. -/
def side (t i k : ℕ) : ℕ := c.rectanglesArray (c.rectanglesBefore t * 4 + i * 4 + k)

/-- The weighted pixels of a feature's rectangles. -/
def weighted (P : ℕ → ℕ → ℤ) (t : ℕ) : ℤ :=
  ∑ i ∈ range (c.numRectanglesArray t),
    windowTotal (fun r k => P (c.side t i 1 + r) (c.side t i 0 + k)) (c.side t i 2) (c.side t i 3) *
      (c.weightsArray (c.rectanglesBefore t + i) * 4096)

/-- What a feature adds to its stage. -/
def feature (P : ℕ → ℕ → ℤ) (std : ℤ) (t : ℕ) : ℤ :=
  if int32 (c.weighted P t) ≥ int32 (c.treeThreshArray t * std) then c.alpha2Array t else c.alpha1Array t

def stageSum (P : ℕ → ℕ → ℤ) (std : ℤ) (i : ℕ) : ℤ :=
  ∑ j ∈ range (c.stagesArray i), c.feature P std (c.featuresBefore i + j)

/-- The rectangles are inside the window. -/
def Inside : Prop := ∀ t i, i < c.numRectanglesArray t →
  c.side t i 0 + c.side t i 2 ≤ c.windowW ∧ c.side t i 1 + c.side t i 3 ≤ c.windowH

end Classifier

/-- Sums in an `int` of table entries that have been cut to 32 bits. -/
theorem int32_add_emod_mul (a s k : ℤ) : int32 (int32 a + s % 4294967296 * k) = int32 (a + s * k) := by
  have hcut : s % 4294967296 * k = s * k - 4294967296 * (s / 4294967296 * k) := by
    rw [Int.emod_def]
    ring
  rw [int32_add_left, hcut]
  generalize s / 4294967296 * k = q
  unfold int32
  omega

theorem foldl_weighted (s k : ℕ → ℤ) (n : ℕ) :
    (List.range n).foldl (fun sumw i => int32 (sumw + s i % 4294967296 * k i)) 0 =
      int32 (∑ i ∈ range n, s i * k i) := by
  induction n with
  | zero => rfl
  | succ n ih =>
    rw [List.range_succ, List.foldl_append, ih, List.foldl_cons, List.foldl_nil, int32_add_emod_mul, sum_range_succ]

section Stages

variable {c : Classifier} {F : ℕ → ℕ → ℤ} {W H Y ptX : ℕ} {sum : MwImage}

/-- A feature is computed from the pixels of its rectangles. -/
theorem evalWeakClassifier_eq (hsum : Moved F W H Y sum) (hin : c.Inside) (hx : ptX + c.windowW < W)
    (hh : c.windowH < H) (std : ℤ) (t : ℕ) :
    evalWeakClassifier c std sum ptX (c.cursor t) = c.feature (windowPixels F Y ptX) std t := by
  have hrect : ∀ i < c.numRectanglesArray t,
      imlibIntegralMwLookup sum (ptX + c.side t i 0) (c.side t i 1) (c.side t i 2) (c.side t i 3) =
        windowTotal (fun r k => windowPixels F Y ptX (c.side t i 1 + r) (c.side t i 0 + k)) (c.side t i 2)
          (c.side t i 3) % 4294967296 := by
    intro i hi
    obtain ⟨hw, hb⟩ := hin t i hi
    rw [hsum.lookup (by omega) (by omega)]
    simp only [sum_Ico_eq_sum_range, windowTotal, windowPixels]
    congr 1
    refine sum_congr (by congr 1; omega) fun r _ => sum_congr (by congr 1; omega) fun k _ => ?_
    congr 1 <;> omega
  have hweighted := foldl_weighted (fun i => windowTotal (fun r k =>
    windowPixels F Y ptX (c.side t i 1 + r) (c.side t i 0 + k)) (c.side t i 2) (c.side t i 3))
    (fun i => c.weightsArray (c.rectanglesBefore t + i) * 4096) (c.numRectanglesArray t)
  have hfold : (List.range (c.numRectanglesArray t)).foldl (fun sumw i =>
      int32 (sumw + imlibIntegralMwLookup sum (ptX + c.side t i 0) (c.side t i 1) (c.side t i 2) (c.side t i 3) *
        (c.weightsArray (c.rectanglesBefore t + i) * 4096))) 0 = int32 (c.weighted (windowPixels F Y ptX) t) :=
    (List.foldl_ext _ _ _ fun sumw i hi => by rw [hrect i (List.mem_range.mp hi)]).trans hweighted
  unfold Classifier.feature
  rw [← hfold]
  rfl

theorem runStage_eq {std : ℤ} {g : ℕ → ℤ} (hg : ∀ t, evalWeakClassifier c std sum ptX (c.cursor t) = g t) (t : ℕ) :
    ∀ n, runStage c std sum ptX n (c.cursor t) = (int32 (∑ j ∈ range n, g (t + j)), c.cursor (t + n))
  | 0 => rfl
  | n + 1 => by
    rw [runStage, runStage_eq hg t n, hg, sum_range_succ, int32_add_left]
    simp only [Classifier.cursor, Classifier.rectanglesBefore, sum_range_succ, add_mul, ← add_assoc]

/-- A window gets through the stages that are left if and only if it gets through each of them. -/
theorem runStages_iff {std : ℤ} {g : ℕ → ℤ} (hg : ∀ t, evalWeakClassifier c std sum ptX (c.cursor t) = g t) :
    ∀ n i, runStages c std sum ptX n i (c.cursor (c.featuresBefore i)) = true ↔ ∀ j < n,
      c.stageBelow (int32 (∑ k ∈ range (c.stagesArray (i + j)), g (c.featuresBefore (i + j) + k)))
        (c.stagesThreshArray (i + j)) = false
  | 0, i => by simp [runStages]
  | n + 1, i => by
    have hnext : c.cursor (c.featuresBefore i + c.stagesArray i) = c.cursor (c.featuresBefore (i + 1)) := by
      rw [Classifier.featuresBefore, Classifier.featuresBefore, sum_range_succ]
    have ih := runStages_iff hg n (i + 1)
    rw [runStages, runStage_eq hg, hnext]
    constructor
    · intro h
      split at h
      · exact nomatch h
      next hbelow =>
        rintro (_ | j) hj
        · exact Bool.eq_false_iff.mpr hbelow
        · have := ih.mp h j (by omega)
          rwa [Nat.add_right_comm i 1 j] at this
    · intro h
      have hfirst := h 0 (Nat.succ_pos n)
      rw [Nat.add_zero] at hfirst
      rw [if_neg (Bool.eq_false_iff.mp hfirst)]
      refine ih.mpr fun j hj => ?_
      rw [Nat.add_right_comm i 1 j]
      exact h (j + 1) (by omega)

/-- What the cascade says of a window of 8-bit pixels: it takes it if and only if its variance is at least `50*50` and
    none of the stages, with the features taken of the pixels, stays below its threshold. -/
theorem runCascadeClassifier_iff {ssq : MwImage} (hs : Holds8 F W H Y sum ssq) (hin : c.Inside)
    (hpos : 1 ≤ c.windowW * c.windowH) (hn : c.windowW * c.windowH ≤ 1024) (hx : ptX + c.windowW < W)
    (hh : c.windowH < H) (fastSqrtf : ℤ → ℤ) :
    let P := windowPixels F Y ptX
    let n : ℤ := (c.windowW * c.windowH : ℕ)
    let S := windowTotal P c.windowW c.windowH
    let Q := windowTotal (fun r k => P r k * P r k) c.windowW c.windowH
    runCascadeClassifier fastSqrtf c sum ssq ptX = true ↔ 50 * 50 ≤ Q / n - (S / n) ^ 2 ∧ ∀ i < c.nStages,
      c.stageBelow (int32 (c.stageSum P (fastSqrtf ((n * Q - S ^ 2) % 4294967296)) i)) (c.stagesThreshArray i) =
        false := by
  intro P n S Q
  have hstages := runStages_iff (evalWeakClassifier_eq hs.sum hin hx hh
    (fastSqrtf ((n * Q - S ^ 2) % 4294967296))) c.nStages 0
  simp only [Nat.zero_add] at hstages
  unfold runCascadeClassifier
  dsimp only
  rw [windowStats_v hs hpos hn hx hh, windowStats_radicand hs hn hx hh]
  split
  next hlow => exact iff_of_false Bool.false_ne_true fun h => absurd h.1 (not_le.mpr hlow)
  next hhigh => exact hstages.trans (and_iff_right (not_lt.mp hhigh)).symm

end Stages

/-! ### Windows that fit -/

/-- A picture with the first `k` pixels of a window light. -/
def lightCells (w k r c : ℕ) : ℤ := if 1 ≤ r ∧ 1 ≤ c ∧ c ≤ w ∧ (r - 1) * w + (c - 1) < k then 255 else 0

/-- The tables of a picture. -/
def tableOf (w h : ℕ) (F : ℕ → ℕ → ℤ) : MwImage :=
  { imlibIntegralMwAlloc w h with
    yOffs := h
    rows := fun r c => area F r c % 4294967296 }

theorem tableOf_moved (F : ℕ → ℕ → ℤ) (w h : ℕ) : Moved F w h 0 (tableOf w h F) :=
  ⟨rfl, (Nat.zero_add h).symm, fun i _ x _ => by rw [Nat.zero_add]; rfl⟩

theorem sum_grid (g : ℕ → ℤ) (w : ℕ) : ∀ h, ∑ r ∈ range h, ∑ c ∈ range w, g (r * w + c) = ∑ i ∈ range (h * w), g i
  | 0 => by simp
  | h + 1 => by rw [sum_range_succ, sum_grid g w h, Nat.succ_mul, sum_range_add]

theorem sum_first (v : ℤ) {n k : ℕ} (hk : k ≤ n) : ∑ i ∈ range n, (if i < k then v else 0) = k * v := by
  obtain ⟨m, rfl⟩ := Nat.exists_eq_add_of_le hk
  rw [sum_range_add, sum_eq_zero (s := range m) fun i _ => if_neg (by omega), add_zero,
    sum_congr rfl fun i hi => if_pos (mem_range.mp hi), sum_const, card_range, nsmul_eq_mul]

theorem windowTotal_light {w h k : ℕ} (hk : k ≤ w * h) (f : ℤ → ℤ) (hf : f 0 = 0) :
    windowTotal (fun r c => f (windowPixels (lightCells w k) 0 0 r c)) w h = k * f 255 := by
  have hcell : ∀ r, ∀ c ∈ range w, f (windowPixels (lightCells w k) 0 0 r c) =
      if r * w + c < k then f 255 else 0 := by
    intro r c hc
    have hc' := mem_range.mp hc
    have hr : 0 + 1 + r - 1 = r := by omega
    have hc1 : 0 + 1 + c - 1 = c := by omega
    rw [windowPixels, lightCells, hr, hc1]
    by_cases hlt : r * w + c < k
    · rw [if_pos ⟨by omega, by omega, by omega, hlt⟩, if_pos hlt]
    · rw [if_neg fun h => hlt h.2.2.2, if_neg hlt, hf]
  rw [windowTotal, sum_congr rfl fun r _ => sum_congr rfl (hcell r),
    sum_grid (fun i => if i < k then f 255 else 0) w h, sum_first (f 255) (by rw [Nat.mul_comm]; exact hk)]

theorem light_holds8 (w h k : ℕ) : Holds8 (lightCells w k) (w + 1) (h + 1) 0
    (tableOf (w + 1) (h + 1) (lightCells w k))
    (tableOf (w + 1) (h + 1) fun r c => lightCells w k r c * lightCells w k r c) where
  mem r c := by
    unfold lightCells
    split <;> decide
  sum := tableOf_moved _ _ _
  ssq := tableOf_moved _ _ _

/-- Both statistics of a window of 8-bit pixels: the variance that is tested is always the exact one. The
    number that the root is taken of is exact just when it is below `2 ^ 32`; for all windows of a size this is
    so up to 514 pixels. -/
theorem cascade_statistics_iff (w h : ℕ) (hpos : 1 ≤ w * h) (hn : w * h ≤ 1024) :
    (∀ F W H Y sum ssq x, Holds8 F W H Y sum ssq → x + w < W → h < H →
      let P := windowPixels F Y x
      let S := windowTotal P w h
      let Q := windowTotal (fun r c => P r c * P r c) w h
      ((windowStats sum ssq x w h).radicand = (w * h : ℕ) * Q - S ^ 2 ↔ (w * h : ℕ) * Q - S ^ 2 < 4294967296) ∧
        (windowStats sum ssq x w h).v = Q / (w * h : ℕ) - (S / (w * h : ℕ)) ^ 2) ∧
    ((∀ F W H Y sum ssq x, Holds8 F W H Y sum ssq → x + w < W → h < H →
      (windowStats sum ssq x w h).radicand =
        (w * h : ℕ) * windowTotal (fun r c => windowPixels F Y x r c * windowPixels F Y x r c) w h -
          windowTotal (windowPixels F Y x) w h ^ 2) ↔ w * h ≤ 514) := by
  refine ⟨fun F W H Y sum ssq x hs hx hh => ⟨windowStats_radicand_iff hs hn hx hh,
    windowStats_v hs hpos hn hx hh⟩, fun hall => ?_, fun hle F W H Y sum ssq x hs hx hh => ?_⟩
  · by_contra hlt
    -- half of the pixels light
    have hk : w * h / 2 ≤ w * h := Nat.div_le_self _ _
    have hs := light_holds8 w h (w * h / 2)
    have hexact := hall _ _ _ _ _ _ 0 hs (by omega) (by omega)
    have hS : windowTotal (windowPixels (lightCells w (w * h / 2)) 0 0) w h = (w * h / 2 : ℕ) * 255 :=
      windowTotal_light hk id rfl
    rw [windowStats_radicand_iff hs hn (by omega) (by omega), hS,
      windowTotal_light hk (fun p => p * p) rfl] at hexact
    generalize w * h = n at *
    have hprod : (257 : ℤ) * 258 ≤ (n / 2 : ℕ) * (n - (n / 2 : ℕ)) := by
      have h1 : (257 : ℤ) ≤ (n / 2 : ℕ) := by omega
      have h2 : (258 : ℤ) ≤ n - (n / 2 : ℕ) := by omega
      exact mul_le_mul h1 h2 (by norm_num) (by omega)
    linarith only [hprod, hexact]
  · rw [windowStats_radicand_iff hs hn hx hh]
    have hP : ∀ r c, 0 ≤ windowPixels F Y x r c ∧ windowPixels F Y x r c ≤ 255 := fun r c => hs.mem _ _
    have hsq := windowTotal_sq_le hP w h
    generalize windowTotal (fun r c => windowPixels F Y x r c * windowPixels F Y x r c) w h = q at *
    generalize windowTotal (windowPixels F Y x) w h = s at *
    generalize w * h = n at *
    have hn0 : (n : ℤ) ≤ 514 := by exact_mod_cast hle
    have hn1 : (1 : ℤ) ≤ n := by exact_mod_cast hpos
    have hq : (n : ℤ) * q ≤ n * (255 * s) := mul_le_mul_of_nonneg_left hsq (by omega)
    -- the difference is largest where `s` is half of `255 * n`
    have hroot : (2 * s - 255 * n) ^ 2 = 4 * s ^ 2 - 4 * (n * (255 * s)) + (255 * n) ^ 2 := by ring
    have htop : (255 * (n : ℤ)) ^ 2 ≤ 131070 ^ 2 := pow_le_pow_left₀ (by omega) (by omega) 2
    linarith only [hq, hroot, htop, sq_nonneg (2 * s - 255 * n)]

/-- Four pixels, two of them light. -/
theorem cascade_statistics_four :
    (windowStats (tableOf 3 3 (lightCells 2 2))
      (tableOf 3 3 fun r c => lightCells 2 2 r c * lightCells 2 2 r c) 0 2 2).radicand = 4 * 130050 - 510 ^ 2 :=
  ((cascade_statistics_iff 2 2 (by decide) (by decide)).2.mpr (by decide) _ _ _ _ _ _ 0 (light_holds8 2 2 2)
    (by decide) (by decide)).trans (by decide)

/-- Half of the pixels of the usual window light: the number is 5393433600. -/
theorem cascade_radicand_wraps :
    let P := windowPixels (lightCells 24 288) 0 0
    (windowStats (tableOf 25 25 (lightCells 24 288))
      (tableOf 25 25 fun r c => lightCells 24 288 r c * lightCells 24 288 r c) 0 24 24).radicand ≠
        (24 * 24 : ℕ) * windowTotal (fun r c => P r c * P r c) 24 24 - windowTotal P 24 24 ^ 2 := by
  intro P hexact
  have hS : windowTotal P 24 24 = (288 : ℕ) * 255 := windowTotal_light (w := 24) (h := 24) (by decide) id rfl
  have hQ : windowTotal (fun r c => P r c * P r c) 24 24 = (288 : ℕ) * (255 * 255) :=
    windowTotal_light (w := 24) (h := 24) (by decide) (fun p => p * p) rfl
  rw [windowStats_radicand_iff (light_holds8 24 24 288) (by decide) (by decide) (by decide)] at hexact
  rw [hS, hQ] at hexact
  norm_num at hexact

end OpenMV.Vision
