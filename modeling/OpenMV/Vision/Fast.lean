import OpenMV.Vision.SegmentCorners

/-! The FAST-9 corner detector | scheme:checker | source:src/src/openmv/omv/img/fast.c

    `fast_detect` looks for pixels with nine in a row, of the sixteen on a circle around them, that are all brighter or
    all darker. The tests of `fast9_corner_score` and of `fast9_detect` are the same generated tree of nearly a
    thousand comparisons; a few of them are enough for most pixels. -/

namespace OpenMV.Vision
open Schemes Schemes.TestTree

/-! ### The code -/

def makeOffsets (rowStride : ℤ) : List ℤ :=
  [0 + rowStride * 3, 1 + rowStride * 3, 2 + rowStride * 2, 3 + rowStride * 1, 3 + rowStride * 0, 3 + rowStride * -1,
    2 + rowStride * -2, 1 + rowStride * -3, 0 + rowStride * -3, -1 + rowStride * -3, -2 + rowStride * -2,
    -3 + rowStride * -1, -3 + rowStride * 0, -3 + rowStride * 1, -2 + rowStride * 2, -1 + rowStride * 3]

namespace Fast9

/-- `goto is_a_corner`, `{}` -/
def corner : TestTree Bool := leaf true
/-- `goto is_not_a_corner`, `continue` -/
def no : TestTree Bool := leaf false
def ifHis : List ℕ → TestTree Bool → TestTree Bool := allHi no
def ifLos : List ℕ → TestTree Bool → TestTree Bool := allLo no

/-- The tests, with `cb` above and `c_b` below. -/
def tree : TestTree Bool :=
  ifHiLo 0
   (ifHiLo 1
    (ifHiLo 2
     (ifHiLo 3
      (ifHiLo 4
       (ifHiLo 5
        (ifHiLo 6
         (ifHiLo 7 (ifHi 8 corner (ifHis [15] corner))
          (ifHiLo 14 (ifHis [15] corner)
           (ifLos [8, 9, 10, 11, 12, 13, 15] corner)
           no)
          (ifHis [14, 15] corner))
         (ifHi 15
          (ifHiLo 13 (ifHis [14] corner)
           (ifLos [7, 8, 9, 10, 11, 12, 14] corner)
           no)
          (ifLos [7, 8, 9, 10, 11, 12, 13, 14] corner))
         (ifHiLo 13 (ifHis [14, 15] corner)
          (ifLos [7, 8, 9, 10, 11, 12, 14, 15] corner)
          no))
        (ifHiLo 14
         (ifHiLo 12
          (ifHis [13] (ifHi 15 corner (ifHis [6, 7, 8, 9, 10, 11] corner)))
          (ifLos [6, 7, 8, 9, 10, 11, 13] corner)
          no)
         (ifLos [7, 8, 9, 10, 11, 12, 13] (ifLo 6 corner (ifLos [15] corner)))
         (ifLos [6, 7, 8, 9, 10, 11, 12, 13] corner))
        (ifHiLo 12
         (ifHis [13, 14] (ifHi 15 corner (ifHis [6, 7, 8, 9, 10, 11] corner)))
         (ifLos [7, 8, 9, 10, 11, 13, 14] (ifLo 6 corner (ifLos [15] corner)))
         no))
       (ifHiLo 13
        (ifHiLo 11
         (ifHis [12]
          (ifHi 14 (ifHi 15 corner (ifHis [6, 7, 8, 9, 10] corner))
           (ifHis [5, 6, 7, 8, 9, 10] corner)))
         (ifLos [5, 6, 7, 8, 9, 10, 12] corner)
         no)
        (ifLos [7, 8, 9, 10, 11, 12]
         (ifLo 6 (ifLo 5 corner (ifLos [14] corner)) (ifLos [14, 15] corner)))
        (ifLos [5, 6, 7, 8, 9, 10, 11, 12] corner))
       (ifHiLo 11
        (ifHis [12, 13]
         (ifHi 14 (ifHi 15 corner (ifHis [6, 7, 8, 9, 10] corner))
          (ifHis [5, 6, 7, 8, 9, 10] corner)))
        (ifLos [7, 8, 9, 10, 12, 13]
         (ifLo 6 (ifLo 5 corner (ifLos [14] corner)) (ifLos [14, 15] corner)))
        no))
      (ifHiLo 10
       (ifHis [11, 12]
        (ifHi 13
         (ifHi 14 (ifHi 15 corner (ifHis [6, 7, 8, 9] corner))
          (ifHis [5, 6, 7, 8, 9] corner))
         (ifHis [4, 5, 6, 7, 8, 9] corner)))
       (ifLos [7, 8, 9, 11]
        (ifLo 6
         (ifLo 5 (ifLo 4 corner (ifLos [12, 13] corner))
          (ifLos [12, 13, 14] corner))
         (ifLos [12, 13, 14, 15] corner)))
       no)
      (ifHiLo 10
       (ifHis [11, 12]
        (ifHi 13
         (ifHi 14 (ifHi 15 corner (ifHis [6, 7, 8, 9] corner))
          (ifHis [5, 6, 7, 8, 9] corner))
         (ifHis [4, 5, 6, 7, 8, 9] corner)))
       (ifLos [7, 8, 9, 11, 12]
        (ifLo 6
         (ifLo 5 (ifLo 4 corner (ifLos [13] corner)) (ifLos [13, 14] corner))
         (ifLos [13, 14, 15] corner)))
       no))
     (ifHiLo 9
      (ifHis [10, 11]
       (ifHi 12
        (ifHi 13
         (ifHi 14 (ifHi 15 corner (ifHis [6, 7, 8] corner))
          (ifHis [5, 6, 7, 8] corner))
         (ifHis [4, 5, 6, 7, 8] corner))
        (ifHis [3, 4, 5, 6, 7, 8] corner)))
      (ifLos [7, 8, 10]
       (ifLo 6
        (ifLo 5
         (ifLo 4 (ifLo 3 corner (ifLos [11, 12] corner))
          (ifLos [11, 12, 13] corner))
         (ifLos [11, 12, 13, 14] corner))
        (ifLos [11, 12, 13, 14, 15] corner)))
      no)
     (ifHiLo 9
      (ifHis [10, 11]
       (ifHi 12
        (ifHi 13
         (ifHi 14 (ifHi 15 corner (ifHis [6, 7, 8] corner))
          (ifHis [5, 6, 7, 8] corner))
         (ifHis [4, 5, 6, 7, 8] corner))
        (ifHis [3, 4, 5, 6, 7, 8] corner)))
      (ifLos [7, 8, 10, 11]
       (ifLo 6
        (ifLo 5
         (ifLo 4 (ifLo 3 corner (ifLos [12] corner)) (ifLos [12, 13] corner))
         (ifLos [12, 13, 14] corner))
        (ifLos [12, 13, 14, 15] corner)))
      no))
    (ifHiLo 8
     (ifHis [9, 10]
      (ifHi 11
       (ifHi 12
        (ifHi 13
         (ifHi 14 (ifHi 15 corner (ifHis [6, 7] corner)) (ifHis [5, 6, 7] corner))
         (ifHis [4, 5, 6, 7] corner))
        (ifHis [3, 4, 5, 6, 7] corner))
       (ifHis [2, 3, 4, 5, 6, 7] corner)))
     (ifLos [7, 9]
      (ifLo 6
       (ifLo 5
        (ifLo 4
         (ifLo 3 (ifLo 2 corner (ifLos [10, 11] corner))
          (ifLos [10, 11, 12] corner))
         (ifLos [10, 11, 12, 13] corner))
        (ifLos [10, 11, 12, 13, 14] corner))
       (ifLos [10, 11, 12, 13, 14, 15] corner)))
     no)
    (ifHiLo 8
     (ifHis [9, 10]
      (ifHi 11
       (ifHi 12
        (ifHi 13
         (ifHi 14 (ifHi 15 corner (ifHis [6, 7] corner)) (ifHis [5, 6, 7] corner))
         (ifHis [4, 5, 6, 7] corner))
        (ifHis [3, 4, 5, 6, 7] corner))
       (ifHis [2, 3, 4, 5, 6, 7] corner)))
     (ifLos [7, 9, 10]
      (ifLo 6
       (ifLo 5
        (ifLo 4
         (ifLo 3 (ifLo 2 corner (ifLos [11] corner)) (ifLos [11, 12] corner))
         (ifLos [11, 12, 13] corner))
        (ifLos [11, 12, 13, 14] corner))
       (ifLos [11, 12, 13, 14, 15] corner)))
     no))
   (ifHiLo 1
    (ifHiLo 8
     (ifHis [7, 9]
      (ifHi 6
       (ifHi 5
        (ifHi 4
         (ifHi 3 (ifHi 2 corner (ifHis [10, 11] corner))
          (ifHis [10, 11, 12] corner))
         (ifHis [10, 11, 12, 13] corner))
        (ifHis [10, 11, 12, 13, 14] corner))
       (ifHis [10, 11, 12, 13, 14, 15] corner)))
     (ifLos [9, 10]
      (ifLo 11
       (ifLo 12
        (ifLo 13
         (ifLo 14 (ifLo 15 corner (ifLos [6, 7] corner)) (ifLos [5, 6, 7] corner))
         (ifLos [4, 5, 6, 7] corner))
        (ifLos [3, 4, 5, 6, 7] corner))
       (ifLos [2, 3, 4, 5, 6, 7] corner)))
     no)
    (ifHiLo 2
     (ifHiLo 9
      (ifHis [7, 8, 10]
       (ifHi 6
        (ifHi 5
         (ifHi 4 (ifHi 3 corner (ifHis [11, 12] corner))
          (ifHis [11, 12, 13] corner))
         (ifHis [11, 12, 13, 14] corner))
        (ifHis [11, 12, 13, 14, 15] corner)))
      (ifLos [10, 11]
       (ifLo 12
        (ifLo 13
         (ifLo 14 (ifLo 15 corner (ifLos [6, 7, 8] corner))
          (ifLos [5, 6, 7, 8] corner))
         (ifLos [4, 5, 6, 7, 8] corner))
        (ifLos [3, 4, 5, 6, 7, 8] corner)))
      no)
     (ifHiLo 3
      (ifHiLo 10
       (ifHis [7, 8, 9, 11]
        (ifHi 6
         (ifHi 5 (ifHi 4 corner (ifHis [12, 13] corner))
          (ifHis [12, 13, 14] corner))
         (ifHis [12, 13, 14, 15] corner)))
       (ifLos [11, 12]
        (ifLo 13
         (ifLo 14 (ifLo 15 corner (ifLos [6, 7, 8, 9] corner))
          (ifLos [5, 6, 7, 8, 9] corner))
         (ifLos [4, 5, 6, 7, 8, 9] corner)))
       no)
      (ifHiLo 4
       (ifHiLo 13
        (ifHis [7, 8, 9, 10, 11, 12]
         (ifHi 6 (ifHi 5 corner (ifHis [14] corner)) (ifHis [14, 15] corner)))
        (ifHiLo 11 (ifHis [5, 6, 7, 8, 9, 10, 12] corner)
         (ifLos [12]
          (ifLo 14 (ifLo 15 corner (ifLos [6, 7, 8, 9, 10] corner))
           (ifLos [5, 6, 7, 8, 9, 10] corner)))
         no)
        (ifHis [5, 6, 7, 8, 9, 10, 11, 12] corner))
       (ifHiLo 5
        (ifHiLo 14
         (ifHis [7, 8, 9, 10, 11, 12, 13] (ifHi 6 corner (ifHis [15] corner)))
         (ifHiLo 12 (ifHis [6, 7, 8, 9, 10, 11, 13] corner)
          (ifLos [13] (ifLo 15 corner (ifLos [6, 7, 8, 9, 10, 11] corner)))
          no)
         (ifHis [6, 7, 8, 9, 10, 11, 12, 13] corner))
        (ifHiLo 6
         (ifLo 15
          (ifHiLo 13 (ifHis [7, 8, 9, 10, 11, 12, 14] corner)
           (ifLos [14] corner)
           no)
          (ifHis [7, 8, 9, 10, 11, 12, 13, 14] corner))
         (ifHiLo 7
          (ifHiLo 14 (ifHis [8, 9, 10, 11, 12, 13, 15] corner)
           (ifLos [15] corner)
           no)
          (ifLo 8 corner (ifLos [15] corner))
          (ifLos [14, 15] corner))
         (ifHiLo 13 (ifHis [7, 8, 9, 10, 11, 12, 14, 15] corner)
          (ifLos [14, 15] corner)
          no))
        (ifHiLo 12
         (ifHis [7, 8, 9, 10, 11, 13, 14] (ifHi 6 corner (ifHis [15] corner)))
         (ifLos [13, 14] (ifLo 15 corner (ifLos [6, 7, 8, 9, 10, 11] corner)))
         no))
       (ifHiLo 11
        (ifHis [7, 8, 9, 10, 12, 13]
         (ifHi 6 (ifHi 5 corner (ifHis [14] corner)) (ifHis [14, 15] corner)))
        (ifLos [12, 13]
         (ifLo 14 (ifLo 15 corner (ifLos [6, 7, 8, 9, 10] corner))
          (ifLos [5, 6, 7, 8, 9, 10] corner)))
        no))
      (ifHiLo 10
       (ifHis [7, 8, 9, 11, 12]
        (ifHi 6
         (ifHi 5 (ifHi 4 corner (ifHis [13] corner)) (ifHis [13, 14] corner))
         (ifHis [13, 14, 15] corner)))
       (ifLos [11, 12]
        (ifLo 13
         (ifLo 14 (ifLo 15 corner (ifLos [6, 7, 8, 9] corner))
          (ifLos [5, 6, 7, 8, 9] corner))
         (ifLos [4, 5, 6, 7, 8, 9] corner)))
       no))
     (ifHiLo 9
      (ifHis [7, 8, 10, 11]
       (ifHi 6
        (ifHi 5
         (ifHi 4 (ifHi 3 corner (ifHis [12] corner)) (ifHis [12, 13] corner))
         (ifHis [12, 13, 14] corner))
        (ifHis [12, 13, 14, 15] corner)))
      (ifLos [10, 11]
       (ifLo 12
        (ifLo 13
         (ifLo 14 (ifLo 15 corner (ifLos [6, 7, 8] corner))
          (ifLos [5, 6, 7, 8] corner))
         (ifLos [4, 5, 6, 7, 8] corner))
        (ifLos [3, 4, 5, 6, 7, 8] corner)))
      no))
    (ifHiLo 8
     (ifHis [7, 9, 10]
      (ifHi 6
       (ifHi 5
        (ifHi 4
         (ifHi 3 (ifHi 2 corner (ifHis [11] corner)) (ifHis [11, 12] corner))
         (ifHis [11, 12, 13] corner))
        (ifHis [11, 12, 13, 14] corner))
       (ifHis [11, 12, 13, 14, 15] corner)))
     (ifLos [9, 10]
      (ifLo 11
       (ifLo 12
        (ifLo 13
         (ifLo 14 (ifLo 15 corner (ifLos [6, 7] corner)) (ifLos [5, 6, 7] corner))
         (ifLos [4, 5, 6, 7] corner))
        (ifLos [3, 4, 5, 6, 7] corner))
       (ifLos [2, 3, 4, 5, 6, 7] corner)))
     no))
   (ifHiLo 7
    (ifHis [8, 9]
     (ifHi 6
      (ifHi 5
       (ifHi 4
        (ifHi 3
         (ifHi 2 (ifHi 1 corner (ifHis [10] corner)) (ifHis [10, 11] corner))
         (ifHis [10, 11, 12] corner))
        (ifHis [10, 11, 12, 13] corner))
       (ifHis [10, 11, 12, 13, 14] corner))
      (ifHis [10, 11, 12, 13, 14, 15] corner)))
    (ifLos [8, 9]
     (ifLo 6
      (ifLo 5
       (ifLo 4
        (ifLo 3
         (ifLo 2 (ifLo 1 corner (ifLos [10] corner)) (ifLos [10, 11] corner))
         (ifLos [10, 11, 12] corner))
        (ifLos [10, 11, 12, 13] corner))
       (ifLos [10, 11, 12, 13, 14] corner))
      (ifLos [10, 11, 12, 13, 14, 15] corner)))
    no)

end Fast9

section Code
variable (img : GrayImage)

def fast9CornerScore (p bstart : ℤ) : Option ℤ := cornerScore img (makeOffsets img.w) Fast9.tree p bstart

def fast9Detect (roi : Rectangle) (b : ℤ) (fbAvail : ℕ) : List (ℕ × ℕ) :=
  scanRows (fun y => scanRow (fun x y => treeAt img (makeOffsets img.w) Fast9.tree (y * img.w + x) b)
    (cornerLimit fbAvail) y (intRange (roi.x + 3) (roi.x + roi.w - 3))) (intRange (roi.y + 3) (roi.y + roi.h - 3)) []

/-- The keypoints that are added to the array. -/
def fastDetect (roi : Rectangle) (threshold : ℤ) (fbAvail : ℕ) (gcInfo : ℕ → ℕ) : Option (List CornerT) :=
  keypointsOf (fun c => fast9CornerScore img (c.2 * img.w + c.1) threshold) gcInfo
    (fast9Detect img roi threshold fbAvail)

end Code

/-! ### What it finds -/

def fast9Circle : TestCircle where
  places := [(0, 3), (1, 3), (2, 2), (3, 1), (3, 0), (3, -1), (2, -2), (1, -3), (0, -3), (-1, -3), (-2, -2), (-3, -1),
    (-3, 0), (-3, 1), (-2, 2), (-1, 3)]
  inRow := 9
  radius := 3
  places_near := by decide
  inRow_pos := by decide
  inRow_lt := by decide

theorem makeOffsets_eq (w : ℤ) : makeOffsets w = fast9Circle.offsets w := rfl

/-- At every leaf the comparisons on the way decide the segment test. -/
theorem check_fast9Tree : Fast9.tree.check (arcMasks fast9Circle.places.length fast9Circle.inRow) Known.nothing := by
  unfold Fast9.tree
  refine TestTree.check_ifHiLo (TestTree.check_ifHiLo (TestTree.check_ifHiLo ?_ ?_ ?_) ?_ ?_)
    (TestTree.check_ifHiLo ?_ (TestTree.check_ifHiLo ?_ ?_ ?_) ?_) ?_ <;> decide +kernel

section Found
variable (img : GrayImage) {roi : Rectangle} {threshold : ℤ} {fbAvail : ℕ} (hthreshold : 0 ≤ threshold)
  (hroom : 0 < cornerLimit fbAvail)
include hthreshold hroom

theorem fast9Detect_eq : fast9Detect img roi threshold fbAvail =
    (cornersIn img fast9Circle threshold roi (cornerLimit fbAvail)).map fun q => stored q.1 q.2 := by
  rw [fast9Detect, scanRows_eq _ _ _ hroom, List.nil_append, makeOffsets_eq, cornersIn, List.map_take]
  simp only [treeAt_eq img fast9Circle check_fast9Tree hthreshold]
  rfl

theorem fastDetect_eq (hok : RoiOk img fast9Circle roi) (gcInfo : ℕ → ℕ) :
    fastDetect img roi threshold fbAvail gcInfo =
      if scoredIn img fast9Circle threshold roi (cornerLimit fbAvail) = [] then some []
      else nonmaxSuppression (scoredIn img fast9Circle threshold roi (cornerLimit fbAvail)) gcInfo := by
  rw [fastDetect, fast9Detect_eq img hthreshold hroom]
  exact keypointsOf_eq check_fast9Tree hthreshold hok gcInfo

end Found

/-- The keypoints are the local maxima, by the score, among the corners of the region; the detector always ends and
    reads nothing but the image. -/
theorem fast_detect_local_maxima (img : GrayImage) (roi : Rectangle) (threshold : ℤ) (fbAvail : ℕ) (gcInfo : ℕ → ℕ)
    (hthreshold : 0 ≤ threshold) (hroom : 0 < cornerLimit fbAvail) (hok : RoiOk img fast9Circle roi) :
    (∃ kpts, fastDetect img roi threshold fbAvail gcInfo = some kpts ∧
      AreKeypoints (scoredIn img fast9Circle threshold roi (cornerLimit fbAvail)) gcInfo kpts) ∧
    ∀ img', SameImage img img' →
      fastDetect img' roi threshold fbAvail gcInfo = fastDetect img roi threshold fbAvail gcInfo := by
  constructor
  · rw [fastDetect_eq img hthreshold hroom hok]
    exact hok.areKeypoints gcInfo
  · intro img' hsame
    have hok' : RoiOk img' fast9Circle roi :=
      ⟨by rw [hsame.w_eq, hsame.h_eq]; exact hok.within, hsame.w_eq ▸ hok.right_le, hok.bottom_le⟩
    rw [fastDetect_eq img hthreshold hroom hok, fastDetect_eq img' hthreshold hroom hok',
      hsame.scoredIn_eq hok.within]

/-- A bright pixel on black. -/
def brightPixel : GrayImage := ⟨16, 16, fun i => if i = 8 * 16 + 8 then 200 else 0⟩

theorem fast_detect_local_maxima_brightPixel :
    (∃ kpts, fastDetect brightPixel ⟨0, 0, 16, 16⟩ 20 12000 (fun _ => 100000) = some kpts ∧
      AreKeypoints (scoredIn brightPixel fast9Circle 20 ⟨0, 0, 16, 16⟩ (cornerLimit 12000)) (fun _ => 100000) kpts) ∧
    ∀ img', SameImage brightPixel img' → fastDetect img' ⟨0, 0, 16, 16⟩ 20 12000 (fun _ => 100000) =
      fastDetect brightPixel ⟨0, 0, 16, 16⟩ 20 12000 (fun _ => 100000) :=
  fast_detect_local_maxima brightPixel ⟨0, 0, 16, 16⟩ 20 12000 _ (by decide) (by decide)
    ⟨⟨by decide, by decide, by decide, by decide⟩, by decide, by decide⟩

end OpenMV.Vision
