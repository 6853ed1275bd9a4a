import OpenMV.Vision.IntegralMw
import Mathlib.Algebra.Order.Archimedean.Basic
import Mathlib.Data.Rat.Floor

/-! Object detection | scheme:loop | source:src/src/openmv/omv/img/haar.c

    `imlib_detect_objects` goes through a pyramid of scaled images, and at each scale down the image with two
    moving integral images of one row more than the window. What it reads of the image are the rows these are
    filled with; the classifier looks at the integral images only. The scale factor is a rational number here. -/

namespace OpenMV.Vision
open Schemes

/-! ### What is read -/

/-- The pixels of one row of the scaled image. -/
def rowReads (roi : Rectangle) (sum : MwImage) (y : ℕ) : List (ℤ × ℤ) :=
  (List.range sum.w).map fun x => (sourceX roi sum x, sourceY roi sum y)

/-- The pixels read by `imlib_integral_mw_ss`. -/
def ssReads (roi : Rectangle) (sum : MwImage) : List (ℤ × ℤ) :=
  ((List.range sum.w).map fun x => (sourceX roi sum x, roi.y)) ++
    (List.range' 1 (sum.h - 1)).flatMap (rowReads roi sum)

/-- The pixels read by `imlib_integral_mw_shift_ss`. -/
def shiftReads (roi : Rectangle) (sum : MwImage) (n : ℕ) : List (ℤ × ℤ) :=
  (List.range' sum.yOffs n).flatMap (rowReads roi sum)

section

variable {src src' : Image} {roi : Rectangle} {sum : MwImage}

theorem rowLoop_congr {px px' : ℕ → ℤ} (above : (ℕ → ℕ → ℤ) → ℕ → ℤ) (p : ℕ) (rows : ℕ → ℕ → ℤ) :
    ∀ n, (∀ x < n, px x = px' x) → rowLoop px above p rows n = rowLoop px' above p rows n
  | 0, _ => rfl
  | n + 1, h => by
      rw [rowLoop, rowLoop, rowLoop_congr above p rows n fun x hx => h x (Nat.lt_succ_of_lt hx),
        h n (Nat.lt_succ_self n)]

theorem rowsLoop_congr {px px' : ℕ → ℕ → ℤ} {w : ℕ} (data : ℕ → ℕ) (y line : ℕ) (rows : ℕ → ℕ → ℤ) :
    ∀ n, (∀ k < n, ∀ x < w, px (line + k) x = px' (line + k) x) →
      rowsLoop px w data y line rows n = rowsLoop px' w data y line rows n
  | 0, _ => rfl
  | n + 1, h => by
      rw [rowsLoop, rowsLoop, rowsLoop_congr data y line rows n fun k hk => h k (Nat.lt_succ_of_lt hk),
        rowLoop_congr _ _ _ w (h n (Nat.lt_succ_self n))]

/-- No other pixel matters to `imlib_integral_mw_ss`. -/
theorem ss_congr (ssq : MwImage) (h : ∀ p ∈ ssReads roi sum, imToGsPixel src p.1 p.2 = imToGsPixel src' p.1 p.2) :
    imlibIntegralMwSs src sum ssq roi = imlibIntegralMwSs src' sum ssq roi := by
  have hpass : ∀ f m, ssPass src roi sum f m = ssPass src' roi sum f m := by
    intro f m
    have hfirst : ∀ x < sum.w, f (imToGsPixel src (sourceX roi sum x) roi.y) =
        f (imToGsPixel src' (sourceX roi sum x) roi.y) := fun x hx =>
      congrArg f (h (sourceX roi sum x, roi.y) (List.mem_append_left _
        (List.mem_map.mpr ⟨x, List.mem_range.mpr hx, rfl⟩)))
    have hrest : ∀ k < sum.h - 1, ∀ x < sum.w, scaled src roi sum f (1 + k) x = scaled src' roi sum f (1 + k) x :=
      fun k hk x hx => congrArg f (h (sourceX roi sum x, sourceY roi sum (1 + k)) (List.mem_append_right _
        (List.mem_flatMap.mpr ⟨1 + k, by simpa using hk, List.mem_map.mpr ⟨x, List.mem_range.mpr hx, rfl⟩⟩)))
    simp only [ssPass, rowLoop_congr _ _ _ _ hfirst, rowsLoop_congr _ _ _ _ _ hrest]
  rw [imlibIntegralMwSs, imlibIntegralMwSs, hpass, hpass]

/-- Nor to `imlib_integral_mw_shift_ss`. -/
theorem shift_congr (ssq : MwImage) {n : ℕ}
    (h : ∀ p ∈ shiftReads roi sum n, imToGsPixel src p.1 p.2 = imToGsPixel src' p.1 p.2) :
    imlibIntegralMwShiftSs src sum ssq roi n = imlibIntegralMwShiftSs src' sum ssq roi n := by
  have hpass : ∀ f m, shiftPass src roi sum f n m = shiftPass src' roi sum f n m := by
    intro f m
    have hrows : ∀ k < n, ∀ x < sum.w,
        scaled src roi sum f (sum.yOffs + k) x = scaled src' roi sum f (sum.yOffs + k) x :=
      fun k hk x hx => congrArg f (h (sourceX roi sum x, sourceY roi sum (sum.yOffs + k))
        (List.mem_flatMap.mpr ⟨sum.yOffs + k, by simpa using hk, List.mem_map.mpr ⟨x, List.mem_range.mpr hx, rfl⟩⟩))
    simp only [shiftPass, rowsLoop_congr _ _ _ _ _ hrows]
  rw [imlibIntegralMwShiftSs, imlibIntegralMwShiftSs, hpass, hpass]

end

/-! ### The detector -/

/-- What the loops use of a cascade. -/
structure Cascade where
  windowW : ℕ
  windowH : ℕ
  scaleFactor : ℚ

/-- The scanning step to begin with. -/
def firstStep (c : Cascade) (roi : Rectangle) : ℕ := min (roi.w * 50 / 1000).toNat c.windowH

/-- The step at the next scale. -/
def scaleStep (step : ℕ) (factor : ℚ) : ℕ := if ⌊(step : ℚ) / factor⌋₊ = 0 then 1 else ⌊(step : ℚ) / factor⌋₊

/-- The loop over `y`: what is read, and the images. The step is at least 1, so `fuel` is enough from `y2` on. -/
def scanLoop (src : Image) (roi : Rectangle) (step y2 : ℕ) :
    ℕ → ℕ → MwImage × MwImage → List (ℤ × ℤ) × (MwImage × MwImage)
  | 0, _, r => ([], r)
  | fuel + 1, y, r =>
    if y < y2 then
      if y + step < y2 then
        let rest := scanLoop src roi step y2 fuel (y + step) (imlibIntegralMwShiftSs src r.1 r.2 roi step)
        (shiftReads roi r.1 step ++ rest.1, rest.2)
      else scanLoop src roi step y2 fuel (y + step) r
    else ([], r)

/-- The loop over the scales of `imlib_detect_objects`. -/
def detectLoop (src : Image) (roi : Rectangle) (c : Cascade) : ℕ → ℚ → ℕ → MwImage × MwImage → List (ℤ × ℤ)
  | 0, _, _, _ => []
  | fuel + 1, factor, step, r =>
    let szw := ⌊(roi.w : ℚ) / factor⌋₊
    let szh := ⌊(roi.h : ℚ) / factor⌋₊
    if szw < c.windowW ∨ szh < c.windowH then []
    else
      let sum := imlibIntegralMwScale roi r.1 szw szh
      let ssq := imlibIntegralMwScale roi r.2 szw szh
      let step := scaleStep step factor
      let y2 := szh - c.windowH
      let scan := scanLoop src roi step y2 y2 0 (imlibIntegralMwSs src sum ssq roi)
      ssReads roi sum ++ scan.1 ++ detectLoop src roi c fuel (factor * c.scaleFactor) step scan.2

/-- The pixels `imlib_detect_objects` reads at the first `fuel` scales. -/
def imlibDetectObjectsReads (src : Image) (roi : Rectangle) (c : Cascade) (fuel : ℕ) : List (ℤ × ℤ) :=
  detectLoop src roi c fuel 1 (firstStep c roi)
    (imlibIntegralMwAlloc roi.w.toNat (c.windowH + 1), imlibIntegralMwAlloc roi.w.toNat (c.windowH + 1))

/-! ### One scale -/

section

variable {roi : Rectangle} {m : MwImage} {szw szh : ℕ}

/-- The ratios of a scale. -/
structure ScaledTo (roi : Rectangle) (szw szh : ℕ) (m : MwImage) : Prop where
  w : m.w = szw
  xRatio : m.xRatio = roi.w * 65536 / szw + 1
  yRatio : m.yRatio = roi.h * 65536 / szh + 1

theorem scale_scaledTo (hroi : roi.Int16) (hw : 0 < szw) (hszw : (szw : ℤ) ≤ roi.w) (hh : 0 < szh)
    (hszh : (szh : ℤ) ≤ roi.h) (sum : MwImage) : ScaledTo roi szw szh (imlibIntegralMwScale roi sum szw szh) :=
  ⟨rfl, ratio_eq hw hszw hroi.w, ratio_eq hh hszh hroi.h⟩

/-- The rows of the scaled image lie in the ROI, and the one behind them right below it. -/
theorem rowReads_inside (hroi : roi.Int16) (hm : ScaledTo roi szw szh m) (hszw : (szw : ℤ) ≤ roi.w)
    (hszh : (szh : ℤ) ≤ roi.h) {y : ℕ} (hy : y < szh) : ∀ p ∈ rowReads roi m y, roi.Mem p := by
  intro p hp
  obtain ⟨x, hx, rfl⟩ := List.mem_map.mp hp
  rw [List.mem_range, hm.w] at hx
  obtain ⟨hx0, hxlt⟩ := offset_lt hszw hroi.w hx
  obtain ⟨hy0, hylt⟩ := offset_lt hszh hroi.h hy
  have hw := hroi.w
  have hh := hroi.h
  simp only [Rectangle.Mem, sourceX, sourceY, hm.xRatio, hm.yRatio]
  rw [offset_exact hroi.x hx0 (by omega), offset_exact hroi.y hy0 (by omega)]
  omega

theorem sourceY_below (hroi : roi.Int16) (hm : ScaledTo roi szw szh m) (hh : 0 < szh) (hszh : (szh : ℤ) ≤ roi.h) :
    sourceY roi m szh = roi.y + roi.h := by
  obtain ⟨-, hle, hlt⟩ := ratio_bounds hh hszh
  have hroih := hroi.h
  have hprod : (szh : ℤ) * (roi.h * 65536 / szh + 1) ≤ roi.h * 65536 + szh := by linarith
  rw [sourceY, hm.yRatio, offset_exact hroi.y (by omega) (by omega)]
  omega

theorem ssReads_inside_iff (hroi : roi.Int16) (hm : ScaledTo roi szw szh m) (hw : 0 < szw) (hszw : (szw : ℤ) ≤ roi.w)
    (hszh : (szh : ℤ) ≤ roi.h) (hh : 1 < m.h) (hrows : m.h ≤ szh + 1) :
    (∀ p ∈ ssReads roi m, roi.Mem p) ↔ m.h ≤ szh := by
  constructor
  · intro hall
    by_contra hlt
    have hread : (sourceX roi m 0, sourceY roi m szh) ∈ ssReads roi m := by
      refine List.mem_append_right _ (List.mem_flatMap.mpr ⟨szh, ?_, ?_⟩)
      · rw [List.mem_range'_1]
        omega
      · exact List.mem_map.mpr ⟨0, List.mem_range.mpr (hm.w ▸ hw), rfl⟩
    have hbelow := (hall _ hread).2.2.2
    rw [sourceY_below hroi hm (by omega) hszh] at hbelow
    exact Int.lt_irrefl _ hbelow
  · intro hle p hp
    rcases List.mem_append.mp hp with hp | hp
    · have hfirst := rowReads_inside hroi hm hszw hszh (y := 0) (by omega)
      rw [rowReads, sourceY_zero hroi] at hfirst
      exact hfirst p hp
    · obtain ⟨y, hy, hp⟩ := List.mem_flatMap.mp hp
      rw [List.mem_range'_1] at hy
      exact rowReads_inside hroi hm hszw hszh (by omega) p hp

end

section

variable {src : Image} {roi : Rectangle} {szw szh : ℕ}

/-- The rows below the window at `y` have been read, and the last one a shift reads is in the scaled image. -/
theorem scanLoop_inside (hroi : roi.Int16) (hszw : (szw : ℤ) ≤ roi.w) (hszh : (szh : ℤ) ≤ roi.h) {wh step y2 : ℕ}
    (hy2 : wh + y2 = szh) : ∀ (fuel y : ℕ) (r : MwImage × MwImage), ScaledTo roi szw szh r.1 → r.1.yOffs = wh + 1 + y →
    ∀ p ∈ (scanLoop src roi step y2 fuel y r).1, roi.Mem p := by
  intro fuel
  induction fuel with
  | zero =>
    intro y r _ _ p hp
    simp [scanLoop] at hp
  | succ fuel ih =>
    intro y r hm hoffs p hp
    rw [scanLoop] at hp
    split_ifs at hp with hlt hshift
    · rcases List.mem_append.mp hp with hp | hp
      · obtain ⟨line, hline, hp⟩ := List.mem_flatMap.mp hp
        rw [List.mem_range'_1] at hline
        exact rowReads_inside hroi hm hszw hszh (by omega) p hp
      · refine ih (y + step) (imlibIntegralMwShiftSs src r.1 r.2 roi step) ⟨hm.w, hm.xRatio, hm.yRatio⟩ ?_ p hp
        show r.1.yOffs + step = _
        omega
    · -- no shift: there is no other round, as `y + step` is behind the last row
      cases fuel with
      | zero => simp [scanLoop] at hp
      | succ fuel =>
        rw [scanLoop, if_neg hshift] at hp
        simp at hp
    · simp at hp

theorem scanLoop_h {step y2 : ℕ} : ∀ (fuel y : ℕ) (r : MwImage × MwImage),
    (scanLoop src roi step y2 fuel y r).2.1.h = r.1.h
  | 0, _, _ => rfl
  | fuel + 1, y, r => by
      rw [scanLoop]
      split_ifs
      · exact scanLoop_h fuel (y + step) (imlibIntegralMwShiftSs src r.1 r.2 roi step)
      · exact scanLoop_h fuel (y + step) r
      · rfl

end

/-! ### All scales -/

section

variable {src : Image} {roi : Rectangle} {c : Cascade}

/-- The size at a scale. -/
def scaledSize (a : ℤ) (factor : ℚ) : ℕ := ⌊(a : ℚ) / factor⌋₊

theorem scaledSize_le {a : ℤ} {factor : ℚ} (hf : 1 ≤ factor) (hpos : 0 < scaledSize a factor) :
    (scaledSize a factor : ℤ) ≤ a := by
  have hquot : (0 : ℚ) ≤ (a : ℚ) / factor := by
    by_contra hneg
    rw [scaledSize, Nat.floor_of_nonpos (by linarith)] at hpos
    exact Nat.lt_irrefl 0 hpos
  have ha : (0 : ℚ) ≤ a := by
    have := mul_nonneg hquot (by linarith : (0 : ℚ) ≤ factor)
    rwa [div_mul_cancel₀ _ (by linarith)] at this
  have hle : ((scaledSize a factor : ℕ) : ℚ) ≤ a := (Nat.floor_le hquot).trans (div_le_self ha hf)
  exact_mod_cast hle

theorem scaledSize_mono {a : ℤ} {f g : ℚ} (hf : 0 < f) (hfg : f ≤ g) : scaledSize a g ≤ scaledSize a f := by
  by_cases ha : (0 : ℚ) ≤ a
  · exact Nat.floor_mono (div_le_div_of_nonneg_left ha hf hfg)
  · have hneg : (a : ℚ) / g ≤ 0 := div_nonpos_of_nonpos_of_nonneg (by linarith) (by linarith)
    rw [scaledSize, Nat.floor_of_nonpos hneg]
    exact Nat.zero_le _

/-- One round: what is read of the image is inside the ROI unless the scaled ROI is just as high as the window. -/
theorem detectLoop_round (hroi : roi.Int16) (hww : 1 ≤ c.windowW) (hwh : 1 ≤ c.windowH) {factor : ℚ}
    (hf : 1 ≤ factor) {r : MwImage × MwImage} (hr : r.1.h = c.windowH + 1) (step : ℕ)
    (hw : c.windowW ≤ scaledSize roi.w factor) (hh : c.windowH ≤ scaledSize roi.h factor) :
    ∃ reads step' r', r'.1.h = c.windowH + 1 ∧
      (∀ fuel, detectLoop src roi c (fuel + 1) factor step r =
        reads ++ detectLoop src roi c fuel (factor * c.scaleFactor) step' r') ∧
      ((∀ p ∈ reads, roi.Mem p) ↔ scaledSize roi.h factor ≠ c.windowH) := by
  set szw := scaledSize roi.w factor with hszw
  set szh := scaledSize roi.h factor with hszh
  have hszw_le : (szw : ℤ) ≤ roi.w := scaledSize_le hf (by omega)
  have hszh_le : (szh : ℤ) ≤ roi.h := scaledSize_le hf (by omega)
  set sum := imlibIntegralMwScale roi r.1 szw szh with hsum
  set ssq := imlibIntegralMwScale roi r.2 szw szh with hssq
  set ss := imlibIntegralMwSs src sum ssq roi with hss
  have hm : ScaledTo roi szw szh sum := scale_scaledTo hroi (by omega) hszw_le (by omega) hszh_le r.1
  set scan := scanLoop src roi (scaleStep step factor) (szh - c.windowH) (szh - c.windowH) 0 ss with hscan
  have hloop : ∀ fuel, detectLoop src roi c (fuel + 1) factor step r =
      ssReads roi sum ++ scan.1 ++
        detectLoop src roi c fuel (factor * c.scaleFactor) (scaleStep step factor) scan.2 := by
    intro fuel
    rw [detectLoop]
    exact if_neg (by rw [← scaledSize, ← scaledSize]; omega)
  have hfirst := ssReads_inside_iff hroi hm (by omega) hszw_le hszh_le (show 1 < r.1.h by omega)
    (show r.1.h ≤ szh + 1 by omega)
  have hsumh : sum.h = c.windowH + 1 := hr
  have hinside : ∀ p ∈ scan.1, roi.Mem p := scanLoop_inside hroi hszw_le hszh_le
    (show c.windowH + (szh - c.windowH) = szh by omega) _ 0 ss
    ⟨hm.w, hm.xRatio, hm.yRatio⟩ (show sum.h = _ by omega)
  refine ⟨ssReads roi sum ++ scan.1, scaleStep step factor, scan.2, (scanLoop_h _ _ ss).trans hr, hloop, ?_⟩
  rw [List.forall_mem_append, hfirst, and_iff_left hinside, show sum.h = c.windowH + 1 from hr]
  omega

theorem detectLoop_stops {factor : ℚ} (h : scaledSize roi.w factor < c.windowW ∨ scaledSize roi.h factor < c.windowH) :
    ∀ (fuel step : ℕ) (r : MwImage × MwImage), detectLoop src roi c fuel factor step r = []
  | 0, _, _ => rfl
  | fuel + 1, step, r => by
      rw [detectLoop]
      exact if_pos h

/-- The loop over the scales ends, as soon as the scaled ROI is narrower than the window. -/
theorem detectLoop_ends (fuel : ℕ) : ∀ (k : ℕ) (factor : ℚ) (step : ℕ) (r : MwImage × MwImage),
    scaledSize roi.w (factor * c.scaleFactor ^ k) < c.windowW →
    detectLoop src roi c (k + fuel) factor step r = detectLoop src roi c k factor step r := by
  intro k
  induction k with
  | zero =>
    intro factor step r h
    rw [pow_zero, mul_one] at h
    rw [detectLoop_stops (Or.inl h), detectLoop_stops (Or.inl h)]
  | succ k ih =>
    intro factor step r h
    rw [pow_succ', ← mul_assoc] at h
    rw [Nat.succ_add, detectLoop, detectLoop]
    simp only [ih _ _ _ h]

variable (src) in
theorem detectLoop_all_inside_iff (hroi : roi.Int16) (hww : 1 ≤ c.windowW) (hwh : 1 ≤ c.windowH)
    (hscale : 1 < c.scaleFactor) {factor : ℚ} (hf : 1 ≤ factor) {r : MwImage × MwImage} (hr : r.1.h = c.windowH + 1)
    (step : ℕ) : (∀ fuel, ∀ p ∈ detectLoop src roi c fuel factor step r, roi.Mem p) ↔
      ∀ k : ℕ, scaledSize roi.h (factor * c.scaleFactor ^ k) = c.windowH →
        scaledSize roi.w (factor * c.scaleFactor ^ k) < c.windowW := by
  constructor
  · intro hall k
    induction k generalizing factor step r with
    | zero =>
      intro heq
      rw [pow_zero, mul_one] at heq ⊢
      by_contra hge
      obtain ⟨reads, step', r', -, hloop, hiff⟩ := detectLoop_round hroi hww hwh hf hr step
        (Nat.not_lt.mp hge) heq.symm.le
      exact hiff.mp (fun p hp => hall 1 p (by rw [hloop]; exact List.mem_append_left _ hp)) heq
    | succ k ih =>
      intro heq
      have hpow : factor * c.scaleFactor ^ (k + 1) = factor * c.scaleFactor * c.scaleFactor ^ k := by
        rw [pow_succ', mul_assoc]
      have hge1 : factor ≤ factor * c.scaleFactor ^ (k + 1) :=
        le_mul_of_one_le_right (by linarith) (one_le_pow₀ hscale.le)
      by_contra hge
      -- the scaled sizes only get smaller, so this round is not the last one
      have hw := (Nat.not_lt.mp hge).trans (scaledSize_mono (a := roi.w) (by linarith) hge1)
      have hh := heq.symm.le.trans (scaledSize_mono (a := roi.h) (by linarith) hge1)
      obtain ⟨reads, step', r', hr', hloop, -⟩ := detectLoop_round hroi hww hwh hf hr step hw hh
      rw [hpow] at heq hge
      refine hge (ih (by nlinarith) hr' step' (fun fuel p hp => hall (fuel + 1) p ?_) heq)
      rw [hloop]
      exact List.mem_append_right _ hp
  · intro hcond fuel
    induction fuel generalizing factor step r with
    | zero =>
      intro p hp
      simp [detectLoop] at hp
    | succ fuel ih =>
      intro p hp
      by_cases hstop : scaledSize roi.w factor < c.windowW ∨ scaledSize roi.h factor < c.windowH
      · rw [detectLoop_stops hstop] at hp
        exact absurd hp List.not_mem_nil
      · push Not at hstop
        obtain ⟨reads, step', r', hr', hloop, hiff⟩ := detectLoop_round hroi hww hwh hf hr step
          hstop.1 hstop.2
        rw [hloop] at hp
        rcases List.mem_append.mp hp with hp | hp
        · refine hiff.mpr (fun heq => ?_) p hp
          have := hcond 0
          rw [pow_zero, mul_one] at this
          exact absurd hstop.1 (Nat.not_le.mpr (this heq))
        · refine ih (by nlinarith) hr' step' (fun k => ?_) p hp
          have := hcond (k + 1)
          rwa [pow_succ', ← mul_assoc] at this

end

/-- The detector reads its ROI only, exactly if at no scale the ROI is just as high as the window while it is wide
    enough for it. -/
theorem detectObjects_reads_roi_iff (src : Image) (roi : Rectangle) (hroi : roi.Int16) (c : Cascade)
    (hww : 1 ≤ c.windowW) (hwh : 1 ≤ c.windowH) (hscale : 1 < c.scaleFactor) :
    (∀ fuel, ∀ p ∈ imlibDetectObjectsReads src roi c fuel, roi.Mem p) ↔
      ∀ k : ℕ, ⌊(roi.h : ℚ) / c.scaleFactor ^ k⌋₊ = c.windowH → ⌊(roi.w : ℚ) / c.scaleFactor ^ k⌋₊ < c.windowW := by
  have h := detectLoop_all_inside_iff src hroi hww hwh hscale (le_refl 1)
    (r := (imlibIntegralMwAlloc roi.w.toNat (c.windowH + 1), imlibIntegralMwAlloc roi.w.toNat (c.windowH + 1))) rfl
    (firstStep c roi)
  simp only [one_mul, scaledSize] at h
  exact h

/-- A window of 3 x 3 in 8 x 8 pixels: the scaled images are 8, 4 and 2 rows high. -/
theorem detectObjects_three_inside :
    {p | ∃ fuel, p ∈ imlibDetectObjectsReads ⟨8, 8, .grayscale, fun _ _ => 0⟩ ⟨0, 0, 8, 8⟩ ⟨3, 3, 2⟩ fuel} ⊆
      {p | Rectangle.Mem ⟨0, 0, 8, 8⟩ p} := by
  rintro p ⟨fuel, hp⟩
  refine (detectObjects_reads_roi_iff _ _ ⟨by decide, by decide, by decide, by decide⟩ ⟨3, 3, 2⟩ (by decide)
    (by decide) (by norm_num)).mpr (fun k heq => ?_) fuel p hp
  match k with
  | 0 => norm_num at heq
  | 1 => norm_num at heq
  | k + 2 =>
    have hle : scaledSize 8 (2 ^ (k + 2)) ≤ scaledSize 8 (2 ^ 2) :=
      scaledSize_mono (by norm_num) (pow_le_pow_right₀ (by norm_num) (Nat.le_add_left 2 k))
    have htwo : scaledSize 8 (2 ^ 2) = 2 := by norm_num [scaledSize]
    rw [htwo] at hle
    exact absurd hle (Nat.not_le.mpr (lt_of_lt_of_eq (by decide) heq.symm))

/-- A window of 4 x 4 in 8 x 8 pixels: at the second scale row 8 is read. -/
theorem detectObjects_reads_below :
    ¬ ∀ fuel, ∀ p ∈ imlibDetectObjectsReads ⟨8, 8, .grayscale, fun _ _ => 0⟩ ⟨0, 0, 8, 8⟩ ⟨4, 4, 2⟩ fuel,
      Rectangle.Mem ⟨0, 0, 8, 8⟩ p := by
  intro hall
  have hcond := (detectLoop_all_inside_iff _ (c := ⟨4, 4, 2⟩)
    ⟨by decide, by decide, by decide, by decide⟩ (by decide) (by decide) (by norm_num) (le_refl 1) rfl _).mp hall 1
  norm_num [scaledSize] at hcond

end OpenMV.Vision
