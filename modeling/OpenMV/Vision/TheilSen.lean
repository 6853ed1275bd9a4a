import OpenMV.Schemes.LowerMedian
import OpenMV.Vision.Moments

/-! Theil-Sen regression | scheme:histogram | source:src/src/openmv/omv/img/stats.c

    `imlib_get_regression` with `robust` takes a line from medians: of the columns and the rows of the
    pixels that pass, and of the differences of the columns and of the rows of every two of them. Each median is
    found with a histogram; the index of a difference is moved by the width or the height of the image. -/

namespace OpenMV.Vision
open Schemes ScanFill

/-! ### The code -/

/-- The value a `long long` holds after `x` is computed in it. -/
def int64 (x : ℤ) : ℤ := (x + 9223372036854775808) % 18446744073709551616 - 9223372036854775808

/-- `point_init`. -/
def pointInit (x y : ℤ) : ℤ × ℤ := (int16 x, int16 y)

def getMedian (array : ℤ → ℤ) (arraySum arrayLen : ℤ) : ℤ :=
  medianScan int32 array ((int32 (arraySum + 1)).tdiv 2) arrayLen.toNat 0 0

def getMedianL (array : ℤ → ℤ) (arraySum arrayLen : ℤ) : ℤ :=
  medianScan int64 array ((int64 (arraySum + 1)).tdiv 2) arrayLen.toNat 0 0

/-- The variables of the loops over the pixels. -/
structure RobustAcc where
  x1 : ℤ
  y1 : ℤ
  x2 : ℤ
  y2 : ℤ
  pixels : ℤ
  xHistogram : ℤ → ℤ
  yHistogram : ℤ → ℤ
  points : List (ℤ × ℤ)

def RobustAcc.init (roi : Rectangle) : RobustAcc where
  x1 := roi.x + roi.w - 1
  y1 := roi.y + roi.h - 1
  x2 := roi.x
  y2 := roi.y
  pixels := 0
  xHistogram _ := 0
  yHistogram _ := 0
  points := []

section Code

variable (img : Image) (pointsMax : ℕ)

def RobustAcc.add (t : RobustAcc) (p : Cell) : Option RobustAcc := do
  let xHistogram ← bump int32 img.w t.xHistogram p.1
  let yHistogram ← bump int32 img.h t.yHistogram p.2
  some {
    x1 := min t.x1 p.1
    y1 := min t.y1 p.2
    x2 := max t.x2 p.1
    y2 := max t.y2 p.2
    pixels := int32 (t.pixels + 1)
    xHistogram := xHistogram
    yHistogram := yHistogram
    points := if t.points.length < pointsMax then t.points ++ [pointInit p.1 p.2] else t.points }

/-- The two loops over the pixels, for one threshold. -/
def RobustAcc.collect (roi : Rectangle) (xStride yStride : ℕ) (passes : Cell → Bool) (t : RobustAcc) :
    Option RobustAcc :=
  (rasterCells roi xStride yStride).foldlM (fun t p => if passes p then t.add img pointsMax p else some t) t

/-- The loop over the thresholds. -/
def regressionPoints (roi : Rectangle) (xStride yStride : ℕ) (lab : LabTable) (thresholds : List ColorThresholds)
    (invert : Bool) : Option RobustAcc :=
  match img.bpp with
  | .binary | .grayscale | .rgb565 =>
    thresholds.foldlM (fun t th => t.collect img pointsMax roi xStride yStride (pixelPasses lab img invert th))
      (RobustAcc.init roi)
  | .bayer | .jpeg => some (RobustAcc.init roi)

/-- A pair of points is counted in the two histograms of differences. -/
def addDelta (p0 : ℤ × ℤ) (d : (ℤ → ℤ) × (ℤ → ℤ)) (p1 : ℤ × ℤ) : Option ((ℤ → ℤ) × (ℤ → ℤ)) := do
  let xDelta ← bump int64 (2 * img.w) d.1 (p0.1 - p1.1 + img.w)
  let yDelta ← bump int64 (2 * img.h) d.2 (p0.2 - p1.2 + img.h)
  some (xDelta, yDelta)

/-- The loops over the pairs. -/
def addDeltas : List (ℤ × ℤ) → (ℤ → ℤ) × (ℤ → ℤ) → Option ((ℤ → ℤ) × (ℤ → ℤ))
  | [], d => some d
  | p0 :: points, d => (points.foldlM (addDelta img p0) d).bind (addDeltas points)

end Code

/-- The histograms and the medians that are taken of them. -/
structure TheilSen where
  xHistogram : ℤ → ℤ
  yHistogram : ℤ → ℤ
  xDeltaHistogram : ℤ → ℤ
  yDeltaHistogram : ℤ → ℤ
  deltaSum : ℤ
  mx : ℤ
  my : ℤ
  mdx : ℤ
  mdy : ℤ

def takeMedians (img : Image) (t : RobustAcc) (deltaSum : ℤ) (d : (ℤ → ℤ) × (ℤ → ℤ)) : TheilSen where
  xHistogram := t.xHistogram
  yHistogram := t.yHistogram
  xDeltaHistogram := d.1
  yDeltaHistogram := d.2
  deltaSum := deltaSum
  mx := getMedian t.xHistogram t.pixels img.w
  my := getMedian t.yHistogram t.pixels img.h
  mdx := getMedianL d.1 deltaSum (2 * img.w) - img.w
  mdy := getMedianL d.2 deltaSum (2 * img.h) - img.h

/-- `imlib_get_regression` with `robust`, up to the medians. `size` is what `fb_alloc_all` gives for the points. The
    result is `some none` if the pixels are too few or lie too close together. -/
def imlibGetRegressionRobust (size : ℕ) (roi : Rectangle) (xStride yStride : ℕ) (lab : LabTable) (img : Image)
    (thresholds : List ColorThresholds) (invert : Bool) (areaThreshold pixelsThreshold : ℕ) :
    Option (Option TheilSen) :=
  let pointsMax := size / 4
  if pointsMax = 0 then some none
  else do
    let t ← regressionPoints img pointsMax roi xStride yStride lab thresholds invert
    if t.pixels ≠ 0 ∧ (areaThreshold : ℤ) ≤ ((t.x2 - t.x1) * (t.y2 - t.y1)) % 2 ^ 32 ∧
        (pixelsThreshold : ℤ) ≤ t.pixels % 2 ^ 32 then
      let deltaSum : ℤ := ((t.points.length * (t.points.length - 1)) % 18446744073709551616 / 2 : ℕ)
      if deltaSum ≠ 0 then
        (addDeltas img t.points (fun _ => 0, fun _ => 0)).map fun d => some (takeMedians img t deltaSum d)
      else some none
    else some none

/-! ### Medians of counters -/

theorem int64_add_one (a : ℤ) : int64 (int64 a + 1) = int64 (a + 1) := by
  unfold int64
  omega

theorem int64_of_mem {x : ℤ} (h1 : 0 ≤ x) (h2 : x ≤ 9223372036854775807) : int64 x = x := by
  unfold int64
  omega

/-- Counters that fit have the lower median where the scan stops. -/
theorem isLowerMedian_scan {wrap : ℤ → ℤ} {len : ℤ} {is : List ℤ} {array : ℤ → ℤ} (h : Counts wrap len is array)
    (his : is ≠ []) (hfit : ∀ k : ℕ, k ≤ is.length + 1 → wrap k = k) (hlen : 0 ≤ len) :
    IsLowerMedian is (medianScan wrap array ((wrap (is.length + 1)).tdiv 2) len.toNat 0 0) := by
  have hpos : 0 < is.length := List.length_pos_iff.mpr his
  have hthreshold : (wrap (is.length + 1)).tdiv 2 = ((is.length + 1) / 2 : ℕ) := by
    have hwrap := hfit (is.length + 1) le_rfl
    push_cast at hwrap
    rw [hwrap, Int.tdiv_eq_ediv_of_nonneg (by omega)]
    push_cast
    rfl
  have hzero : is.countP (· < 0) = 0 :=
    List.countP_eq_zero.mpr fun a ha => by simpa using (h.inside a ha).1
  have hspec := medianScan_spec h (fun k hk => hfit k (by omega))
    (show (((is.length + 1) / 2 : ℕ) : ℤ) ≤ is.length by omega) len.toNat 0 (by omega) (by rw [hzero]; omega)
  rw [hzero] at hspec
  rw [hthreshold]
  exact ⟨by exact_mod_cast hspec.1, by exact_mod_cast hspec.2⟩

/-! ### The pixels -/

section Pixels

variable {img : Image} {pointsMax : ℕ}

/-- The loops have counted the pixels `cells`. -/
structure Tallied (img : Image) (cells : List Cell) (t : RobustAcc) : Prop where
  pixels : t.pixels = int32 cells.length
  xs : Counts int32 img.w (cells.map Prod.fst) t.xHistogram
  ys : Counts int32 img.h (cells.map Prod.snd) t.yHistogram
  points : t.points = cells.map fun p => pointInit p.1 p.2

theorem tallied_init (img : Image) (roi : Rectangle) : Tallied img [] (RobustAcc.init roi) :=
  ⟨rfl, counts_nil rfl, counts_nil rfl, rfl⟩

theorem Tallied.add {cells : List Cell} {t : RobustAcc} (h : Tallied img cells t) {p : Cell} (hp : img.Mem p)
    (hroom : cells.length < pointsMax) :
    ∃ t', t.add img pointsMax p = some t' ∧ Tallied img (cells ++ [p]) t' := by
  obtain ⟨hx0, hxw, hy0, hyh⟩ := hp
  obtain ⟨xHistogram, hxs, hxc⟩ := h.xs.bump (int32_add_left · 1) ⟨hx0, hxw⟩
  obtain ⟨yHistogram, hys, hyc⟩ := h.ys.bump (int32_add_left · 1) ⟨hy0, hyh⟩
  refine ⟨_, by rw [RobustAcc.add, hxs, hys]; rfl, ⟨?_, ?_, ?_, ?_⟩⟩
  · rw [h.pixels, int32_add_left, List.length_append, List.length_singleton]
    push_cast
    rfl
  · rwa [List.map_append, List.map_singleton]
  · rwa [List.map_append, List.map_singleton]
  · dsimp only
    rw [if_pos (by rw [h.points, List.length_map]; exact hroom), h.points, List.map_append, List.map_singleton]

/-- The run over the pixels. -/
theorem tally_run (passes : Cell → Bool) : ∀ {cells before : List Cell} {t : RobustAcc}, Tallied img before t →
    (∀ p ∈ cells, img.Mem p) → (before ++ cells.filter passes).length ≤ pointsMax →
      ∃ t', cells.foldlM (fun t p => if passes p then t.add img pointsMax p else some t) t = some t' ∧
        Tallied img (before ++ cells.filter passes) t'
  | [], before, t, h, _, _ => ⟨t, rfl, by rwa [List.filter_nil, List.append_nil]⟩
  | p :: cells, before, t, h, hmem, hroom => by
      have hrest := fun q hq => hmem q (List.mem_cons_of_mem p hq)
      rw [List.foldlM_cons]
      cases hp : passes p with
      | false =>
        rw [List.filter_cons_of_neg (by rw [hp]; exact Bool.false_ne_true)] at hroom ⊢
        rw [if_neg Bool.false_ne_true]
        exact tally_run passes h hrest hroom
      | true =>
        rw [List.filter_cons_of_pos hp] at hroom ⊢
        rw [← List.singleton_append (l := cells.filter passes), ← List.append_assoc] at hroom ⊢
        have hlt : before.length < pointsMax := by
          simp only [List.length_append, List.length_singleton] at hroom
          omega
        obtain ⟨t₁, h1, hc₁⟩ := h.add (hmem p List.mem_cons_self) hlt
        rw [if_pos rfl, h1]
        exact tally_run passes hc₁ hrest hroom

end Pixels

/-! ### The pairs -/

section Pairs

variable {img : Image}

/-- The histograms of differences have counted `xs` and `ys`. -/
structure Paired (img : Image) (xs ys : List ℤ) (d : (ℤ → ℤ) × (ℤ → ℤ)) : Prop where
  xs : Counts int64 (2 * img.w) (xs.map fun a => a + img.w) d.1
  ys : Counts int64 (2 * img.h) (ys.map fun a => a + img.h) d.2

/-- The indexes of all pairs are in the histograms. -/
def Close (img : Image) (points : List (ℤ × ℤ)) : Prop :=
  ∀ p ∈ points, ∀ q ∈ points, (-img.w ≤ p.1 - q.1 ∧ p.1 - q.1 < img.w) ∧ -img.h ≤ p.2 - q.2 ∧ p.2 - q.2 < img.h

theorem paired_nil (img : Image) : Paired img [] [] (fun _ => 0, fun _ => 0) := ⟨counts_nil rfl, counts_nil rfl⟩

theorem Paired.addDelta {xs ys : List ℤ} {d : (ℤ → ℤ) × (ℤ → ℤ)} (h : Paired img xs ys d) {p0 p1 : ℤ × ℤ}
    (hx : -img.w ≤ p0.1 - p1.1 ∧ p0.1 - p1.1 < img.w) (hy : -img.h ≤ p0.2 - p1.2 ∧ p0.2 - p1.2 < img.h) :
    ∃ d', Vision.addDelta img p0 d p1 = some d' ∧ Paired img (xs ++ [p0.1 - p1.1]) (ys ++ [p0.2 - p1.2]) d' := by
  obtain ⟨xDelta, hxs, hxc⟩ := h.xs.bump (i := p0.1 - p1.1 + img.w) int64_add_one ⟨by omega, by omega⟩
  obtain ⟨yDelta, hys, hyc⟩ := h.ys.bump (i := p0.2 - p1.2 + img.h) int64_add_one ⟨by omega, by omega⟩
  refine ⟨(xDelta, yDelta), by rw [Vision.addDelta, hxs, hys]; rfl, ⟨?_, ?_⟩⟩
  · rwa [List.map_append, List.map_singleton]
  · rwa [List.map_append, List.map_singleton]

/-- One point with all later ones. -/
theorem Paired.foldlM_addDelta (p0 : ℤ × ℤ) {points : List (ℤ × ℤ)} {xs ys : List ℤ} {d : (ℤ → ℤ) × (ℤ → ℤ)}
    (h : Paired img xs ys d) (hclose : ∀ q ∈ points, (-img.w ≤ p0.1 - q.1 ∧ p0.1 - q.1 < img.w) ∧
      -img.h ≤ p0.2 - q.2 ∧ p0.2 - q.2 < img.h) :
    ∃ d', points.foldlM (Vision.addDelta img p0) d = some d' ∧
      Paired img (xs ++ points.map fun q => p0.1 - q.1) (ys ++ points.map fun q => p0.2 - q.2) d' := by
  refine exists_foldlM (fun (done : List (ℤ × ℤ)) d => Paired img (xs ++ done.map fun q => p0.1 - q.1)
    (ys ++ done.map fun q => p0.2 - q.2) d) (by simpa using h) fun q hq done d hd => ?_
  obtain ⟨hx, hy⟩ := hclose q hq
  obtain ⟨d', h1, hd'⟩ := hd.addDelta hx hy
  exact ⟨d', h1, by simpa using hd'⟩

/-- All pairs. -/
theorem Paired.addDeltas : ∀ {points : List (ℤ × ℤ)} {xs ys : List ℤ} {d : (ℤ → ℤ) × (ℤ → ℤ)}, Paired img xs ys d →
    Close img points → ∃ d', Vision.addDeltas img points d = some d' ∧
      Paired img (xs ++ differences (points.map Prod.fst)) (ys ++ differences (points.map Prod.snd)) d'
  | [], xs, ys, d, h, _ => ⟨d, rfl, by simpa [differences] using h⟩
  | p0 :: points, xs, ys, d, h, hclose => by
      obtain ⟨d₁, h1, hd₁⟩ := h.foldlM_addDelta p0 fun q hq =>
        hclose p0 List.mem_cons_self q (List.mem_cons_of_mem p0 hq)
      obtain ⟨d', h2, hd'⟩ := hd₁.addDeltas fun p hp q hq =>
        hclose p (List.mem_cons_of_mem p0 hp) q (List.mem_cons_of_mem p0 hq)
      refine ⟨d', by rw [Vision.addDeltas, h1]; exact h2, ?_⟩
      rw [List.append_assoc, List.append_assoc] at hd'
      simpa only [List.map_cons, differences, List.map_map, Function.comp_def] using hd'

end Pairs

/-! ### The medians -/

/-- The pixels that pass, in the order they are gone over. -/
def passingPixels (roi : Rectangle) (xStride yStride : ℕ) (passes : Cell → Bool) : List Cell :=
  (rasterCells roi xStride yStride).filter passes

/-- What the histograms and the medians of a list of pixels are. -/
structure TheilSen.Medians (m : TheilSen) (img : Image) (S : List Cell) : Prop where
  mx : IsLowerMedian (S.map Prod.fst) m.mx
  my : IsLowerMedian (S.map Prod.snd) m.my
  mdx : IsLowerMedian (differences (S.map Prod.fst)) m.mdx
  mdy : IsLowerMedian (differences (S.map Prod.snd)) m.mdy
  xSum : ∑ i ∈ Finset.range img.w.toNat, m.xHistogram i = S.length
  ySum : ∑ i ∈ Finset.range img.h.toNat, m.yHistogram i = S.length
  xDeltaSum : ∑ i ∈ Finset.range (2 * img.w).toNat, m.xDeltaHistogram i = (S.length * (S.length - 1) / 2 : ℕ)
  yDeltaSum : ∑ i ∈ Finset.range (2 * img.h).toNat, m.yDeltaHistogram i = (S.length * (S.length - 1) / 2 : ℕ)

section Medians

variable {wrap : ℤ → ℤ} {w : ℤ} {l : List ℤ} {array : ℤ → ℤ}

/-- The median of the differences, from counters that are moved by the length. -/
theorem isLowerMedian_delta (h : Counts int64 (2 * w) (l.map fun a => a + w) array) (hw : 0 ≤ w) (hl : l ≠ [])
    (hfit : l.length < 9223372036854775807) : IsLowerMedian l (getMedianL array l.length (2 * w) - w) := by
  have hmono : StrictMono fun a : ℤ => a + w := fun a b hab => Int.add_lt_add_right hab w
  have hmedian := isLowerMedian_scan h (fun hnil => hl (List.map_eq_nil_iff.mp hnil))
    (fun k hk => int64_of_mem (Int.natCast_nonneg k) (by rw [List.length_map] at hk; omega)) (by omega)
  rw [List.length_map] at hmedian
  refine (isLowerMedian_map hmono l _).mp ?_
  rw [Int.sub_add_cancel]
  exact hmedian

end Medians

/-- The medians of the pixels that were counted. -/
theorem medians_of_tallied {img : Image} {S : List Cell} {t : RobustAcc} (h : Tallied img S t)
    (hS : ∀ p ∈ S, img.Mem p) (htwo : 2 ≤ S.length) (hroom : S.length ≤ 1073741823)
    (hpoint : ∀ p ∈ S, p.1 ≤ 32767 ∧ p.2 ≤ 32767) :
    ∃ d, addDeltas img t.points (fun _ => 0, fun _ => 0) = some d ∧
      (takeMedians img t (S.length * (S.length - 1) / 2 : ℕ) d).Medians img S := by
  obtain ⟨p, hp⟩ := List.exists_mem_of_length_pos (show 0 < S.length by omega)
  obtain ⟨hx0, hxw, hy0, hyh⟩ := hS p hp
  have hpoints : t.points = S := by
    rw [h.points]
    refine (List.map_congr_left fun q hq => ?_).trans (List.map_id S)
    obtain ⟨h1, h2, h3, h4⟩ := hS q hq
    obtain ⟨h5, h6⟩ := hpoint q hq
    exact Prod.ext (int16_of_mem (by omega) h5) (int16_of_mem (by omega) h6)
  have hclose : Close img S := by
    intro a ha b hb
    obtain ⟨h1, h2, h3, h4⟩ := hS a ha
    obtain ⟨h5, h6, h7, h8⟩ := hS b hb
    omega
  obtain ⟨d, hd, hpaired⟩ := (paired_nil img).addDeltas hclose
  rw [List.nil_append, List.nil_append] at hpaired
  have hpixels : t.pixels = S.length := by rw [h.pixels, int32_of_mem (by omega) (by omega)]
  have hne : ∀ f : Cell → ℤ, S.map f ≠ [] := fun f hnil => by
    rw [List.map_eq_nil_iff.mp hnil] at htwo
    exact absurd htwo (by decide)
  have hlen : ∀ f : Cell → ℤ, (differences (S.map f)).length = S.length * (S.length - 1) / 2 := fun f => by
    rw [length_differences, List.length_map]
  have hpairs : 1 ≤ S.length * (S.length - 1) / 2 ∧ S.length * (S.length - 1) / 2 < 1152921504606846976 := by
    obtain ⟨n, hn⟩ := Nat.exists_eq_add_of_le' (show 1 ≤ S.length by omega)
    rw [hn, Nat.add_sub_cancel]
    have hlow : 2 ≤ (n + 1) * n := by nlinarith
    have hhigh : (n + 1) * n ≤ 1073741823 * 1073741823 := Nat.mul_le_mul (by omega) (by omega)
    omega
  have hdne : ∀ f : Cell → ℤ, differences (S.map f) ≠ [] := fun f => by
    rw [← List.length_pos_iff, hlen]
    exact hpairs.1
  have hmedian : ∀ {f : Cell → ℤ} {len : ℤ} {array : ℤ → ℤ}, Counts int32 len (S.map f) array → 0 ≤ len →
      IsLowerMedian (S.map f) (getMedian array t.pixels len) ∧ ∑ i ∈ Finset.range len.toNat, array i = S.length := by
    intro f len array hcounts hlen0
    have hfit : ∀ k : ℕ, k ≤ (S.map f).length + 1 → int32 k = k := fun k hk =>
      int32_of_mem (by omega) (by rw [List.length_map] at hk; omega)
    have hscan := isLowerMedian_scan hcounts (hne f) hfit hlen0
    have hsum := hcounts.sum fun k hk => hfit k (by omega)
    rw [List.length_map] at hscan hsum
    rw [hpixels]
    exact ⟨hscan, hsum⟩
  have hdelta : ∀ {f : Cell → ℤ} {len : ℤ} {array : ℤ → ℤ},
      Counts int64 (2 * len) ((differences (S.map f)).map fun a => a + len) array → 0 ≤ len →
      IsLowerMedian (differences (S.map f)) (getMedianL array (S.length * (S.length - 1) / 2 : ℕ) (2 * len) - len) ∧
        ∑ i ∈ Finset.range (2 * len).toNat, array i = (S.length * (S.length - 1) / 2 : ℕ) := by
    intro f len array hcounts hlen0
    have hscan := isLowerMedian_delta hcounts hlen0 (hdne f) (by rw [hlen]; omega)
    have hsum := hcounts.sum fun k hk => int64_of_mem (Int.natCast_nonneg k) (by
      rw [List.length_map, hlen] at hk
      omega)
    rw [List.length_map, hlen] at hsum
    rw [hlen] at hscan
    exact ⟨hscan, hsum⟩
  obtain ⟨hmx, hxSum⟩ := hmedian h.xs (by omega)
  obtain ⟨hmy, hySum⟩ := hmedian h.ys (by omega)
  obtain ⟨hmdx, hxDeltaSum⟩ := hdelta hpaired.xs (by omega)
  obtain ⟨hmdy, hyDeltaSum⟩ := hdelta hpaired.ys (by omega)
  exact ⟨d, by rw [hpoints]; exact hd, ⟨hmx, hmy, hmdx, hmdy, hxSum, hySum, hxDeltaSum, hyDeltaSum⟩⟩

/-- For every image, ROI in it, strides and threshold, with two pixels that pass or more, room for all of them and
    no column or row that a `point_t` cannot hold (the caller cuts the region to `int16_t` sizes): the indexes are in
    the histograms, and the medians are those of the columns, the rows and their differences. -/
theorem theil_sen_medians (size : ℕ) (hsize : size < 4294967296) (roi : Rectangle) (xStride yStride : ℕ)
    (hx : 0 < xStride) (hy : 0 < yStride) (lab : LabTable) (img : Image) (hroi : roi.Within img.w img.h)
    (hbpp : img.bpp = .binary ∨ img.bpp = .grayscale ∨ img.bpp = .rgb565) (t : ColorThresholds) (invert : Bool)
    (areaThreshold pixelsThreshold : ℕ)
    (htwo : 2 ≤ (passingPixels roi xStride yStride (pixelPasses lab img invert t)).length)
    (hroom : (passingPixels roi xStride yStride (pixelPasses lab img invert t)).length ≤ size / 4)
    (hpoint : ∀ p ∈ passingPixels roi xStride yStride (pixelPasses lab img invert t), p.1 ≤ 32767 ∧ p.2 ≤ 32767) :
    ∃ r, imlibGetRegressionRobust size roi xStride yStride lab img [t] invert areaThreshold pixelsThreshold = some r ∧
      (areaThreshold = 0 → pixelsThreshold ≤ (passingPixels roi xStride yStride (pixelPasses lab img invert t)).length →
        r ≠ none) ∧
      ∀ m, r = some m → m.Medians img (passingPixels roi xStride yStride (pixelPasses lab img invert t)) := by
  have hmem : ∀ p ∈ rasterCells roi xStride yStride, img.Mem p := by
    intro p hp
    obtain ⟨h1, h2, h3, h4⟩ := rasterCells_mem hx hy hp
    have := hroi.x_nonneg
    have := hroi.y_nonneg
    have := hroi.right_le
    have := hroi.bottom_le
    exact ⟨by omega, by omega, by omega, by omega⟩
  obtain ⟨acc, hacc, htally⟩ := tally_run (pixelPasses lab img invert t) (tallied_init img roi) hmem hroom
  rw [List.nil_append, ← passingPixels] at htally
  have hpoints : regressionPoints img (size / 4) roi xStride yStride lab [t] invert = some acc := by
    unfold regressionPoints
    rcases hbpp with hb | hb | hb <;> rw [hb] <;> simp only [List.foldlM_cons, List.foldlM_nil]
    all_goals
      rw [RobustAcc.collect, hacc]
      rfl
  have hS : ∀ p ∈ passingPixels roi xStride yStride (pixelPasses lab img invert t), img.Mem p := fun p hp =>
    hmem p (List.mem_filter.mp hp).1
  generalize passingPixels roi xStride yStride (pixelPasses lab img invert t) = S at *
  obtain ⟨d, hd, hmedians⟩ := medians_of_tallied htally hS htwo (by omega) hpoint
  have hpixels : acc.pixels = S.length := by rw [htally.pixels, int32_of_mem (by omega) (by omega)]
  have hmax : size / 4 ≠ 0 := by omega
  have hdelta : ((acc.points.length * (acc.points.length - 1)) % 18446744073709551616 / 2 : ℕ) =
      S.length * (S.length - 1) / 2 ∧ S.length * (S.length - 1) / 2 ≠ 0 := by
    rw [htally.points, List.length_map]
    obtain ⟨n, hn⟩ := Nat.exists_eq_add_of_le' (show 1 ≤ S.length by omega)
    rw [hn, Nat.add_sub_cancel]
    have hlow : 2 ≤ (n + 1) * n := by nlinarith
    have hhigh : (n + 1) * n ≤ 1073741824 * 1073741824 := Nat.mul_le_mul (by omega) (by omega)
    rw [Nat.mod_eq_of_lt (by omega)]
    exact ⟨rfl, by omega⟩
  have hne : ((S.length * (S.length - 1) / 2 : ℕ) : ℤ) ≠ 0 := by exact_mod_cast hdelta.2
  unfold imlibGetRegressionRobust
  simp only [if_neg hmax, hpoints, Option.bind_eq_bind, Option.bind_some, hdelta.1, hd, Option.map_some, if_pos hne]
  split
  · exact ⟨_, rfl, fun _ _ => Option.some_ne_none _, fun m hm => Option.some.inj hm ▸ hmedians⟩
  · rename_i hsmall
    refine ⟨none, rfl, fun harea hcount => absurd ?_ hsmall, fun m hm => absurd hm.symm (Option.some_ne_none m)⟩
    have hnonneg := Int.emod_nonneg ((acc.x2 - acc.x1) * (acc.y2 - acc.y1)) (show (2 : ℤ) ^ 32 ≠ 0 by decide)
    rw [hpixels, harea]
    exact ⟨by omega, by exact_mod_cast hnonneg, by omega⟩

/-- A ring of eight pixels. -/
theorem theil_sen_medians_ring :
    ∃ m, imlibGetRegressionRobust 1000 ⟨0, 0, 3, 3⟩ 1 1 (fun _ => (0, 0, 0)) ringImage [darkThreshold] false 0 0 =
        some (some m) ∧
      m.Medians ringImage (passingPixels ⟨0, 0, 3, 3⟩ 1 1
        (pixelPasses (fun _ => (0, 0, 0)) ringImage false darkThreshold)) := by
  obtain ⟨r, hr, hsome, hmedians⟩ := theil_sen_medians 1000 (by decide) ⟨0, 0, 3, 3⟩ 1 1 (by decide) (by decide)
    (fun _ => (0, 0, 0)) ringImage ⟨by decide, by decide, by decide, by decide⟩ (.inr (.inl rfl)) darkThreshold false
    0 0 (by decide) (by decide) (by decide)
  obtain ⟨m, rfl⟩ := Option.ne_none_iff_exists'.mp (hsome rfl (Nat.zero_le _))
  exact ⟨m, hr, hmedians m rfl⟩

end OpenMV.Vision
