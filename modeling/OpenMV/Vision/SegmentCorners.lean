import Mathlib.Data.Nat.Find
import OpenMV.Schemes.Bisection
import OpenMV.Schemes.SegmentTest
import OpenMV.Vision.Corners
import OpenMV.Vision.Moments

/-! Corners by the segment test | scheme:checker | source:src/src/openmv/omv/img/fast.c,
    src/src/openmv/omv/img/agast.c

    What both detectors share: the comparisons of the pixels on a circle with the one in the middle, the loops over
    the image that stop when the array of corners is full, the score found by bisection, and what a corner and its
    score are meant to be. -/

namespace OpenMV.Vision
open Schemes

/-! ### The code -/

/-- A grayscale image, with the bytes that `pixels` points to. -/
structure GrayImage where
  w : ℤ
  h : ℤ
  pixels : ℤ → UInt8

def GrayImage.byte (img : GrayImage) (i : ℤ) : ℤ := (img.pixels i).toNat

section Code
variable (img : GrayImage) (offsets : List ℤ)

/-- `p[pixel[k]] > cb` for the pixel at `p`. -/
def brighter (p b : ℤ) (k : ℕ) : Bool := img.byte p + b < img.byte (p + offsets.getD k 0)

/-- `p[pixel[k]] < c_b` -/
def darker (p b : ℤ) (k : ℕ) : Bool := img.byte (p + offsets.getD k 0) < img.byte p - b

/-- The tests of a corner at `p`. -/
def treeAt (tree : TestTree Bool) (p b : ℤ) : Bool := tree.eval (brighter img offsets p b) (darker img offsets p b)

/-- The loop of the two functions that score a corner; more than 256 rounds are not needed. -/
def cornerScore (tree : TestTree Bool) (p bstart : ℤ) : Option ℤ :=
  bisect (treeAt img offsets tree p) 256 bstart 255 ((bstart + 255).tdiv 2)

end Code

/-- What a pair of `uint16_t` holds of a position. -/
def stored (x y : ℤ) : ℕ × ℕ := ((x % 65536).toNat, (y % 65536).toNat)

/-- The loop over `x` in a row; whether the array has been filled, and what is in it. -/
def scanRow (isCorner : ℤ → ℤ → Bool) (maxCorners : ℕ) (y : ℤ) : List ℤ → List (ℕ × ℕ) → Bool × List (ℕ × ℕ)
  | [], corners => (false, corners)
  | x :: xs, corners =>
    if isCorner x y then
      let corners := corners ++ [stored x y]
      if corners.length = maxCorners then (true, corners) else scanRow isCorner maxCorners y xs corners
    else scanRow isCorner maxCorners y xs corners

/-- The loop over `y`, for a loop over `x`. -/
def scanRows (row : ℤ → List (ℕ × ℕ) → Bool × List (ℕ × ℕ)) : List ℤ → List (ℕ × ℕ) → List (ℕ × ℕ)
  | [], corners => corners
  | y :: ys, corners =>
    let (done, corners) := row y corners
    if done then corners else scanRows row ys corners

/-- The values of a loop counter. -/
def intRange (first last : ℤ) : List ℤ := (List.range (last - first).toNat).map fun (i : ℕ) => first + i

/-- The room for corners. -/
def cornerLimit (fbAvail : ℕ) : ℕ := min maxCorners (fbAvail / 6)

/-- The scores are put into the corners, and those that are not suppressed become keypoints. -/
def keypointsOf (score : ℕ × ℕ → Option ℤ) (gcInfo : ℕ → ℕ) (found : List (ℕ × ℕ)) : Option (List CornerT) :=
  if found = [] then some []
  else do
    let corners ← found.mapM fun c => (score c).map fun s => (⟨c.1, c.2, (s % 65536).toNat⟩ : CornerT)
    nonmaxSuppression corners gcInfo

/-! ### Corners and their scores -/

/-- The places on the circle around a pixel, and how many in a row make a corner. -/
structure TestCircle where
  places : List (ℤ × ℤ)
  inRow : ℕ
  /-- How far the places are away. -/
  radius : ℤ
  places_near : ∀ d ∈ places, -radius ≤ d.1 ∧ d.1 ≤ radius ∧ -radius ≤ d.2 ∧ d.2 ≤ radius
  inRow_pos : 0 < inRow
  inRow_lt : inRow < places.length

def GrayImage.at (img : GrayImage) (x y : ℤ) : ℤ := img.byte (y * img.w + x)

section Places
variable (img : GrayImage) (circle : TestCircle) (b x y : ℤ) (k : ℕ)

/-- The pixel at place `k` of the circle. -/
def atPlace : ℤ := img.at (x + (circle.places.getD k 0).1) (y + (circle.places.getD k 0).2)

def brighterAt : Bool := img.at x y + b < atPlace img circle x y k

def darkerAt : Bool := atPlace img circle x y k < img.at x y - b

end Places

/-- So many pixels in a row on the circle are all brighter than the middle by more than `b`, or all darker. -/
def IsCorner (img : GrayImage) (circle : TestCircle) (b x y : ℤ) : Prop :=
  SegmentTest circle.places.length circle.inRow (brighterAt img circle b x y) (darkerAt img circle b x y)

instance (img : GrayImage) (circle : TestCircle) (b x y : ℤ) : Decidable (IsCorner img circle b x y) := by
  unfold IsCorner; infer_instance

/-- The greatest threshold at which there still is a corner. -/
def scoreAt (img : GrayImage) (circle : TestCircle) (x y : ℤ) : ℕ :=
  Nat.findGreatest (fun b => IsCorner img circle b x y) 254

/-- The corners of a region in raster order, as many as there is room for. -/
def cornersIn (img : GrayImage) (circle : TestCircle) (b : ℤ) (roi : Rectangle) (limit : ℕ) : List (ℤ × ℤ) :=
  (((intRange (roi.y + circle.radius) (roi.y + roi.h - circle.radius)).flatMap fun y =>
    (intRange (roi.x + circle.radius) (roi.x + roi.w - circle.radius)).map fun x => (x, y)).filter
      fun q => IsCorner img circle b q.1 q.2).take limit

def scoredIn (img : GrayImage) (circle : TestCircle) (b : ℤ) (roi : Rectangle) (limit : ℕ) : List CornerT :=
  (cornersIn img circle b roi limit).map fun q => ⟨q.1.toNat, q.2.toNat, scoreAt img circle q.1 q.2⟩

/-- The keypoints are the corners with a greater score than all corners around them, or the first of these when memory
    for keypoints runs out. -/
def AreKeypoints (scored : List CornerT) (gcInfo : ℕ → ℕ) (kpts : List CornerT) : Prop :=
  kpts <+: scored.filter (fun c => ¬ Beaten scored c) ∧
    (kpts = scored.filter (fun c => ¬ Beaten scored c) ∨ ∃ t, gcInfo t < minMem ∧ gcInfo (t + 1) < minMem)

/-! ### The loops find the corners -/

theorem scanRow_eq (isCorner : ℤ → ℤ → Bool) {limit : ℕ} (y : ℤ) : ∀ (xs : List ℤ) (corners : List (ℕ × ℕ)),
    corners.length < limit →
    scanRow isCorner limit y xs corners =
      let all := corners ++ ((xs.map fun x => (x, y)).filter fun q => isCorner q.1 q.2).map fun q => stored q.1 q.2
      (decide (limit ≤ all.length), all.take limit)
  | [], corners, hlt => by simp [scanRow, hlt, List.take_of_length_le hlt.le]
  | x :: xs, corners, hlt => by
      cases h : isCorner x y with
      | false => simp [scanRow, h, scanRow_eq isCorner y xs corners hlt]
      | true =>
        rcases Nat.lt_or_ge (corners.length + 1) limit with hlt' | hge
        · have hrec := scanRow_eq isCorner y xs (corners ++ [stored x y]) (by simpa using hlt')
          simp [scanRow, h, hlt'.ne, hrec]
        · obtain rfl : limit = corners.length + 1 := by omega
          simp [scanRow, h, List.take_append]

theorem scanRows_eq (isCorner : ℤ → ℤ → Bool) {limit : ℕ} (xs : List ℤ) : ∀ (ys : List ℤ) {corners : List (ℕ × ℕ)},
    corners.length < limit →
    scanRows (fun y => scanRow isCorner limit y xs) ys corners =
      (corners ++ ((ys.flatMap fun y => xs.map fun x => (x, y)).filter fun q => isCorner q.1 q.2).map
        fun q => stored q.1 q.2).take limit
  | [], corners, hlt => by simp [scanRows, List.take_of_length_le hlt.le]
  | y :: ys, corners, hlt => by
      rw [scanRows, scanRow_eq isCorner y xs corners hlt, List.flatMap_cons, List.filter_append, List.map_append,
        ← List.append_assoc]
      generalize corners ++ ((xs.map fun x => (x, y)).filter fun q => isCorner q.1 q.2).map
        (fun q => stored q.1 q.2) = all
      rcases Nat.lt_or_ge all.length limit with hlt' | hge
      · simp only [hlt'.not_ge, decide_false, Bool.false_eq_true, if_false, List.take_of_length_le hlt'.le]
        exact scanRows_eq isCorner xs ys hlt'
      · simp [hge, List.take_append_of_le_length hge]

section Circles
variable (img : GrayImage) (circle : TestCircle)

/-- What the tables of offsets hold. -/
def TestCircle.offsets (w : ℤ) : List ℤ := circle.places.map fun d => d.1 + w * d.2

theorem getD_offsets (w : ℤ) (k : ℕ) :
    (circle.offsets w).getD k 0 = (circle.places.getD k 0).1 + w * (circle.places.getD k 0).2 := by
  rw [TestCircle.offsets, List.getD_eq_getElem?_getD, List.getD_eq_getElem?_getD, List.getElem?_map]
  cases circle.places[k]? <;> simp

theorem byte_offset (x y : ℤ) (k : ℕ) : img.byte (y * img.w + x + (circle.offsets img.w).getD k 0) =
    atPlace img circle x y k := by
  rw [getD_offsets, atPlace, GrayImage.at]
  congr 1
  ring

theorem brighter_eq (b x y : ℤ) :
    brighter img (circle.offsets img.w) (y * img.w + x) b = brighterAt img circle b x y :=
  funext fun k => by rw [brighter, brighterAt, byte_offset, GrayImage.at]

theorem darker_eq (b x y : ℤ) : darker img (circle.offsets img.w) (y * img.w + x) b = darkerAt img circle b x y :=
  funext fun k => by rw [darker, darkerAt, byte_offset, GrayImage.at]

/-- A tree that passes the check finds the corners. -/
theorem treeAt_eq {tree : TestTree Bool}
    (hcheck : tree.check (arcMasks circle.places.length circle.inRow) Known.nothing) {b : ℤ} (hb : 0 ≤ b) (x y : ℤ) :
    treeAt img (circle.offsets img.w) tree (y * img.w + x) b = decide (IsCorner img circle b x y) := by
  rw [treeAt, brighter_eq, darker_eq, TestTree.eval_eq_decide hcheck]
  · rfl
  · intro k
    simp only [brighterAt, darkerAt, decide_eq_true_eq, decide_eq_false_iff_not]
    omega

theorem IsCorner.mono {circle : TestCircle} {b b' x y : ℤ} (hle : b ≤ b') (h : IsCorner img circle b' x y) :
    IsCorner img circle b x y := by
  refine SegmentTest.mono (fun k hk => ?_) (fun k hk => ?_) h
  · simp only [brighterAt, decide_eq_true_eq] at hk ⊢
    omega
  · simp only [darkerAt, decide_eq_true_eq] at hk ⊢
    omega

theorem byte_bounds (i : ℤ) : 0 ≤ img.byte i ∧ img.byte i ≤ 255 := by
  have := (img.pixels i).toNat_lt
  rw [GrayImage.byte]
  omega

/-- Bytes do not differ by more than 255. -/
theorem not_isCorner_255 (x y : ℤ) : ¬ IsCorner img circle 255 x y := by
  rintro ⟨s, -, h⟩
  have hk : (s + 0) % circle.places.length ∈ arc circle.places.length circle.inRow s :=
    List.mem_map.mpr ⟨0, List.mem_range.mpr circle.inRow_pos, rfl⟩
  generalize (s + 0) % circle.places.length = k at hk
  have h1 : 0 ≤ img.at x y ∧ img.at x y ≤ 255 := byte_bounds img _
  have h2 : 0 ≤ atPlace img circle x y k ∧ atPlace img circle x y k ≤ 255 := byte_bounds img _
  rcases h with h | h
  · have := h k hk
    simp only [brighterAt, decide_eq_true_eq] at this
    omega
  · have := h k hk
    simp only [darkerAt, decide_eq_true_eq] at this
    omega

/-- For a corner the loop ends, with its score. -/
theorem cornerScore_eq {tree : TestTree Bool}
    (hcheck : tree.check (arcMasks circle.places.length circle.inRow) Known.nothing) {b x y : ℤ} (hb : 0 ≤ b)
    (hcorner : IsCorner img circle b x y) :
    cornerScore img (circle.offsets img.w) tree (y * img.w + x) b = some (scoreAt img circle x y : ℤ) := by
  have htree : ∀ b', 0 ≤ b' → (treeAt img (circle.offsets img.w) tree (y * img.w + x) b' = true ↔
      IsCorner img circle b' x y) := fun b' hb' => by rw [treeAt_eq img circle hcheck hb', decide_eq_true_eq]
  have hlt : b < 255 := by
    by_contra hge
    exact not_isCorner_255 img circle x y (hcorner.mono img (by omega))
  obtain ⟨s, hs, hbs, hs255, hiff⟩ := bisect_greatest 256 hb hlt (by omega)
    (fun b₁ b₂ h1 h12 h => (htree b₁ (by omega)).mpr (((htree b₂ (by omega)).mp h).mono img h12))
    ((htree b hb).mpr hcorner)
    (Bool.eq_false_iff.mpr fun h => not_isCorner_255 img circle x y ((htree 255 (by omega)).mp h))
  obtain ⟨n, rfl⟩ := Int.eq_ofNat_of_zero_le (hb.trans hbs)
  have hn : scoreAt img circle x y = n := by
    rw [scoreAt, Nat.findGreatest_eq_iff]
    refine ⟨by omega, fun _ => (htree n (by omega)).mp ((hiff n hbs).mpr le_rfl), fun m hm _ h => ?_⟩
    have := (hiff m (by omega)).mp ((htree m (by omega)).mpr h)
    omega
  rw [cornerScore, hs, hn]

end Circles

/-! ### From corners to keypoints -/

theorem mem_intRange {first last i : ℤ} : i ∈ intRange first last ↔ first ≤ i ∧ i < last := by
  simp only [intRange, List.mem_map, List.mem_range]
  constructor
  · rintro ⟨n, hn, rfl⟩
    omega
  · rintro ⟨h1, h2⟩
    exact ⟨(i - first).toNat, by omega, by omega⟩

theorem pairwise_intRange (first last : ℤ) : (intRange first last).Pairwise (· < ·) := by
  rw [intRange, List.pairwise_map]
  exact List.pairwise_lt_range.imp fun h => by omega

/-- The region lies in the image, no column is too far right for a `uint16_t` and no row too far down for the table
    of rows. -/
structure RoiOk (img : GrayImage) (circle : TestCircle) (roi : Rectangle) : Prop where
  within : roi.Within img.w img.h
  right_le : img.w ≤ 65536
  bottom_le : roi.y + roi.h - circle.radius ≤ maxRow + 1

section Keypoints
variable {img : GrayImage} {circle : TestCircle} {b : ℤ} {roi : Rectangle} {limit : ℕ}

theorem mem_cornersIn {q : ℤ × ℤ} (h : q ∈ cornersIn img circle b roi limit) :
    IsCorner img circle b q.1 q.2 ∧ roi.x + circle.radius ≤ q.1 ∧ q.1 < roi.x + roi.w - circle.radius ∧
      roi.y + circle.radius ≤ q.2 ∧ q.2 < roi.y + roi.h - circle.radius := by
  have h := List.mem_of_mem_take h
  simp only [List.mem_filter, List.mem_flatMap, List.mem_map, mem_intRange, decide_eq_true_eq] at h
  obtain ⟨⟨y, hy, x, hx, rfl⟩, hcorner⟩ := h
  exact ⟨hcorner, hx.1, hx.2, hy.1, hy.2⟩

theorem TestCircle.radius_nonneg (circle : TestCircle) : 0 ≤ circle.radius := by
  obtain ⟨d, hd⟩ := List.exists_mem_of_length_pos (Nat.zero_lt_of_lt circle.inRow_lt)
  have := circle.places_near d hd
  omega

theorem RoiOk.bounds (hroi : RoiOk img circle roi) {q : ℤ × ℤ} (h : q ∈ cornersIn img circle b roi limit) :
    0 ≤ q.1 ∧ q.1 < 65536 ∧ 0 ≤ q.2 ∧ q.2 < maxRow + 1 := by
  obtain ⟨-, h1, h2, h3, h4⟩ := mem_cornersIn h
  obtain ⟨⟨hx, hy, hw, -⟩, hright, hbottom⟩ := hroi
  have := circle.radius_nonneg
  omega

theorem RoiOk.stored_eq (hroi : RoiOk img circle roi) {q : ℤ × ℤ} (h : q ∈ cornersIn img circle b roi limit) :
    stored q.1 q.2 = (q.1.toNat, q.2.toNat) := by
  obtain ⟨h1, h2, h3, h4⟩ := hroi.bounds h
  rw [maxRow] at h4
  rw [stored, Int.emod_eq_of_lt h1 h2, Int.emod_eq_of_lt h3 (by omega)]

theorem pairwise_cornersIn : (cornersIn img circle b roi limit).Pairwise fun q q' =>
    q.2 < q'.2 ∨ q.2 = q'.2 ∧ q.1 < q'.1 := by
  refine List.Pairwise.sublist (List.take_sublist ..) (List.Pairwise.filter _ ?_)
  rw [List.pairwise_flatMap]
  refine ⟨fun y _ => ?_, (pairwise_intRange ..).imp fun {y y'} hy q hq q' hq' => ?_⟩
  · rw [List.pairwise_map]
    exact (pairwise_intRange ..).imp fun h => .inr ⟨rfl, h⟩
  · obtain ⟨x, -, rfl⟩ := List.mem_map.mp hq
    obtain ⟨x', -, rfl⟩ := List.mem_map.mp hq'
    exact .inl hy

theorem RoiOk.pairwise_scoredIn (hroi : RoiOk img circle roi) :
    (scoredIn img circle b roi limit).Pairwise CornerT.Before := by
  rw [scoredIn, List.pairwise_map]
  refine pairwise_cornersIn.imp_of_mem fun {q q'} hq hq' h => ?_
  obtain ⟨h1, -, h2, -⟩ := hroi.bounds hq
  obtain ⟨h3, -, h4, -⟩ := hroi.bounds hq'
  simp only [CornerT.Before]
  omega

/-- Scoring goes through all the corners. -/
theorem mapM_score {tree : TestTree Bool}
    (hcheck : tree.check (arcMasks circle.places.length circle.inRow) Known.nothing) (hb : 0 ≤ b)
    (hroi : RoiOk img circle roi) : ∀ (qs : List (ℤ × ℤ)), (∀ q ∈ qs, q ∈ cornersIn img circle b roi limit) →
    (qs.map fun q => stored q.1 q.2).mapM (fun c =>
      (cornerScore img (circle.offsets img.w) tree (c.2 * img.w + c.1) b).map fun s =>
        (⟨c.1, c.2, (s % 65536).toNat⟩ : CornerT)) =
      some (qs.map fun q => ⟨q.1.toNat, q.2.toNat, scoreAt img circle q.1 q.2⟩)
  | [], _ => rfl
  | q :: qs, h => by
      have hq := h q List.mem_cons_self
      obtain ⟨h1, -, h2, -⟩ := hroi.bounds hq
      have hscore := cornerScore_eq img circle hcheck hb (mem_cornersIn hq).1
      have hle : scoreAt img circle q.1 q.2 ≤ 254 := Nat.findGreatest_le 254
      have hmod : ((scoreAt img circle q.1 q.2 : ℤ) % 65536).toNat = scoreAt img circle q.1 q.2 := by omega
      have hrest := mapM_score hcheck hb hroi qs fun q' hq' => h q' (List.mem_cons_of_mem q hq')
      rw [List.map_cons, List.mapM_cons, hrest, hroi.stored_eq hq]
      simp [Int.toNat_of_nonneg h1, Int.toNat_of_nonneg h2, hscore, hmod]

/-- From the corners in the array to the keypoints. -/
theorem keypointsOf_eq {tree : TestTree Bool}
    (hcheck : tree.check (arcMasks circle.places.length circle.inRow) Known.nothing) (hb : 0 ≤ b)
    (hroi : RoiOk img circle roi) (gcInfo : ℕ → ℕ) :
    keypointsOf (fun c => cornerScore img (circle.offsets img.w) tree (c.2 * img.w + c.1) b) gcInfo
        ((cornersIn img circle b roi limit).map fun q => stored q.1 q.2) =
      if scoredIn img circle b roi limit = [] then some []
      else nonmaxSuppression (scoredIn img circle b roi limit) gcInfo := by
  by_cases hnil : cornersIn img circle b roi limit = []
  · simp [keypointsOf, scoredIn, hnil]
  · rw [keypointsOf, if_neg (by simpa using hnil), mapM_score hcheck hb hroi _ fun q hq => hq,
      if_neg (by simpa [scoredIn] using hnil)]
    rfl

theorem RoiOk.areKeypoints (hroi : RoiOk img circle roi) (gcInfo : ℕ → ℕ) :
    ∃ kpts, (if scoredIn img circle b roi limit = [] then some []
        else nonmaxSuppression (scoredIn img circle b roi limit) gcInfo) = some kpts ∧
      AreKeypoints (scoredIn img circle b roi limit) gcInfo kpts := by
  split
  case isTrue hnil => exact ⟨[], rfl, by simp [AreKeypoints, hnil]⟩
  case isFalse hne =>
    refine nonmaxSuppression_eq hne hroi.pairwise_scoredIn (fun c hc => ?_) gcInfo
    obtain ⟨q, hq, rfl⟩ := List.mem_map.mp hc
    have := (hroi.bounds hq).2.2
    simp only
    omega

end Keypoints

/-! ### Only the image is read -/

/-- The same bytes inside of the image. -/
structure SameImage (img img' : GrayImage) : Prop where
  w_eq : img'.w = img.w
  h_eq : img'.h = img.h
  byte_eq : ∀ i, 0 ≤ i → i < img.w * img.h → img'.byte i = img.byte i

section Same
variable {img img' : GrayImage} (hsame : SameImage img img') {circle : TestCircle} {roi : Rectangle}
include hsame

theorem SameImage.at_eq {x y : ℤ} (hx0 : 0 ≤ x) (hxw : x < img.w) (hy0 : 0 ≤ y) (hyh : y < img.h) :
    img'.at x y = img.at x y := by
  rw [GrayImage.at, GrayImage.at, hsame.w_eq]
  have hrow : y * img.w ≤ (img.h - 1) * img.w := mul_le_mul_of_nonneg_right (by omega) (by omega)
  have hy : 0 ≤ y * img.w := mul_nonneg hy0 (by omega)
  refine hsame.byte_eq _ (by omega) ?_
  rw [sub_mul, one_mul] at hrow
  rw [mul_comm img.w]
  omega

/-- Around a pixel that is as far from the border as the circle needs. -/
theorem SameImage.isCorner_iff {x y : ℤ} (hx : circle.radius ≤ x) (hxw : x < img.w - circle.radius)
    (hy : circle.radius ≤ y) (hyh : y < img.h - circle.radius) (b : ℤ) :
    IsCorner img' circle b x y ↔ IsCorner img circle b x y := by
  have h0 := circle.radius_nonneg
  have hat : img'.at x y = img.at x y := hsame.at_eq (by omega) (by omega) (by omega) (by omega)
  have hplace : ∀ k, atPlace img' circle x y k = atPlace img circle x y k := by
    intro k
    have hd : -circle.radius ≤ (circle.places.getD k 0).1 ∧ (circle.places.getD k 0).1 ≤ circle.radius ∧
        -circle.radius ≤ (circle.places.getD k 0).2 ∧ (circle.places.getD k 0).2 ≤ circle.radius := by
      rw [List.getD_eq_getElem?_getD]
      cases hk : circle.places[k]? with
      | none => simpa using h0
      | some d => exact circle.places_near d (List.mem_of_getElem? hk)
    exact hsame.at_eq (by omega) (by omega) (by omega) (by omega)
  have hbrighter : brighterAt img' circle b x y = brighterAt img circle b x y :=
    funext fun k => by rw [brighterAt, brighterAt, hat, hplace]
  have hdarker : darkerAt img' circle b x y = darkerAt img circle b x y :=
    funext fun k => by rw [darkerAt, darkerAt, hat, hplace]
  rw [IsCorner, IsCorner, hbrighter, hdarker]

theorem SameImage.scoredIn_eq (hroi : roi.Within img.w img.h) (b : ℤ) (limit : ℕ) :
    scoredIn img' circle b roi limit = scoredIn img circle b roi limit := by
  obtain ⟨h1, h2, h3, h4⟩ := hroi
  have hcorners : cornersIn img' circle b roi limit = cornersIn img circle b roi limit := by
    rw [cornersIn, cornersIn]
    congr 1
    refine List.filter_congr fun q hq => decide_eq_decide.mpr ?_
    simp only [List.mem_flatMap, List.mem_map, mem_intRange] at hq
    obtain ⟨y, hy, x, hx, rfl⟩ := hq
    exact hsame.isCorner_iff (by omega) (by omega) (by omega) (by omega) b
  rw [scoredIn, scoredIn, hcorners]
  refine List.map_congr_left fun q hq => ?_
  obtain ⟨-, hx, hx', hy, hy'⟩ := mem_cornersIn hq
  have hiff : ∀ b' : ℕ, IsCorner img' circle b' q.1 q.2 ↔ IsCorner img circle b' q.1 q.2 := fun b' =>
    hsame.isCorner_iff (by omega) (by omega) (by omega) (by omega) b'
  simp only [scoreAt, hiff]

end Same

end OpenMV.Vision
