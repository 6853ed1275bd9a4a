import OpenMV.Vision.SegmentCorners

/-! The AGAST 5-8 corner detector | scheme:checker | source:src/src/openmv/omv/img/agast.c

    `agast_detect` looks for pixels with five in a row, of the eight around them, that are all brighter or all darker.
    It has two trees of comparisons, for flat and for structured surroundings, and goes from one to the other as the
    pixels suggest. The offsets are kept from call to call and are computed again when the width changes. -/

namespace OpenMV.Vision
open Schemes Schemes.TestTree

/-! ### The code -/

/-- `s_width` and the eight offsets. -/
structure Pattern58 where
  sWidth : ℤ
  offsets : List ℤ

def Pattern58.start : Pattern58 := ⟨-1, List.replicate 8 0⟩

def init58Pattern (s : Pattern58) (imageWidth : ℤ) : Pattern58 :=
  if imageWidth = s.sWidth then s
  else
    let w := imageWidth
    ⟨w, [-1 + 0 * w, -1 + -1 * w, 0 + -1 * w, 1 + -1 * w, 1 + 0 * w, 1 + 1 * w, 0 + 1 * w, -1 + 1 * w]⟩

namespace Agast58

/-- Where the tests lead: to one of the two labels `success_` or not, for one of the two trees. -/
structure Label where
  success : Bool
  structured : Bool
deriving DecidableEq

/-- `success_homogeneous` -/
def sh : TestTree Label := leaf ⟨true, false⟩
/-- `success_structured` -/
def ss : TestTree Label := leaf ⟨true, true⟩
/-- `homogeneous` -/
def h : TestTree Label := leaf ⟨false, false⟩
/-- `structured` -/
def s : TestTree Label := leaf ⟨false, true⟩
def ifHis : List ℕ → TestTree Label → TestTree Label := allHi h
def ifLos : List ℕ → TestTree Label → TestTree Label := allLo h

def homogeneous : TestTree Label :=
  ifHiLo 0
   (ifHi 2
    (ifHi 3
     (ifHi 5 (ifHi 1 (ifHi 4 ss (ifHis [7] ss)) (ifHis [4, 6] ss))
      (ifHis [1] (ifHi 4 sh (ifHis [7] sh))))
     (ifHi 7
      (ifHis [6] (ifHi 5 (ifHi 1 ss (ifHis [4] ss)) (ifHis [1] sh)))
      (ifLos [5, 3, 7, 4] (ifLo 6 ss s))))
    (ifHiLo 5 (ifHis [7, 6] (ifHi 1 sh (ifHis [4] sh)))
     (ifLos [3]
      (ifLo 2 (ifLo 1 (ifLos [4] ss) (ifLos [4, 6] ss)) (ifLos [7, 4, 6] ss)))
     h))
   (ifLo 2
    (ifHiLo 7
     (ifLo 3
      (ifLo 5 (ifLo 1 (ifLo 4 ss s) (ifLos [4] (ifLo 6 ss s)))
       (ifLos [1, 4] ss))
      (ifHis [5, 3, 4] (ifHi 6 ss s)))
     (ifLo 3
      (ifLo 5 (ifLo 1 ss (ifLos [4] (ifLo 6 ss s))) (ifLos [1] sh))
      (ifLos [6] (ifLo 5 (ifLo 1 ss (ifLos [4] ss)) (ifLos [1] sh))))
     (ifLos [3]
      (ifLo 5 (ifLo 1 (ifLos [4] ss) (ifLos [4, 6] ss)) (ifLos [1, 4] sh))))
    (ifHiLo 5
     (ifHis [3]
      (ifHi 2 (ifHi 1 (ifHis [4] ss) (ifHis [4, 6] ss)) (ifHis [7, 4, 6] ss)))
     (ifLos [7, 6] (ifLo 1 sh (ifLos [4] sh)))
     h))
   (ifHiLo 3
    (ifHis [5]
     (ifHi 2 (ifHi 1 (ifHis [4] sh) (ifHis [4, 6] sh)) (ifHis [7, 4, 6] sh)))
    (ifLos [5]
     (ifLo 2 (ifLo 1 (ifLos [4] sh) (ifLos [4, 6] sh)) (ifLos [7, 4, 6] sh)))
    h)

def structured : TestTree Label :=
  ifHiLo 0
   (ifHi 2
    (ifHi 3
     (ifHi 5
      (ifHi 7 (ifHi 1 ss (ifHi 4 (ifHi 6 ss s) s))
       (ifHi 1 (ifHi 4 ss s) (ifHi 4 (ifHi 6 ss s) s)))
      (ifHi 7 (ifHi 1 ss s) (ifHi 1 (ifHi 4 ss s) s)))
     (ifHi 7
      (ifHi 6 (ifHi 5 (ifHi 1 ss (ifHi 4 ss s)) (ifHi 1 ss s)) s)
      (ifLo 5 (ifLos [3, 7] (ifLo 4 (ifLo 6 ss s) s)) s)))
    (ifHiLo 5 (ifHi 7 (ifHi 6 (ifHi 1 ss (ifHi 4 ss s)) s) s)
     (ifLo 3
      (ifLo 2 (ifLo 1 (ifLo 4 ss s) (ifLo 4 (ifLo 6 ss s) s))
       (ifLos [7, 4, 6] sh))
      s)
     h))
   (ifLo 2
    (ifHiLo 7
     (ifLo 3
      (ifLo 5 (ifLo 1 (ifLo 4 ss s) (ifLo 4 (ifLo 6 ss s) s))
       (ifLo 1 (ifLo 4 ss s) s))
      (ifHi 5 (ifHis [3] (ifHi 4 (ifHi 6 ss s) s)) s))
     (ifLo 3
      (ifLo 5 (ifLo 1 ss (ifLo 4 (ifLo 6 ss s) s)) (ifLo 1 ss s))
      (ifLo 6 (ifLo 5 (ifLo 1 ss (ifLo 4 ss s)) (ifLo 1 ss s)) s))
     (ifLos [3]
      (ifLo 5 (ifLo 1 (ifLos [4] sh) (ifLos [4, 6] sh)) (ifLos [1, 4] sh))))
    (ifHiLo 5
     (ifHi 3
      (ifHi 2 (ifHi 1 (ifHi 4 ss s) (ifHi 4 (ifHi 6 ss s) s))
       (ifHis [7, 4, 6] sh))
      s)
     (ifLo 7 (ifLo 6 (ifLo 1 ss (ifLo 4 ss s)) s) s)
     h))
   (ifHiLo 3
    (ifHis [5]
     (ifHi 2 (ifHi 1 (ifHis [4] sh) (ifHis [4, 6] sh)) (ifHis [7, 4, 6] sh)))
    (ifLos [5]
     (ifLo 2 (ifLo 1 (ifLos [4] sh) (ifLos [4, 6] sh)) (ifLos [7, 4, 6] sh)))
    h)

/-- `is_a_corner` -/
def yes : TestTree Bool := leaf true
/-- `is_not_a_corner` -/
def no : TestTree Bool := leaf false

def score : TestTree Bool :=
  ifHiLo 0
   (ifHi 2
    (ifHi 3
     (ifHi 5
      (ifHi 1 (ifHi 4 yes (allHi no [7] yes)) (allHi no [4, 6] yes))
      (allHi no [1] (ifHi 4 yes (allHi no [7] yes))))
     (ifHi 7
      (allHi no [6] (ifHi 5 (ifHi 1 yes (allHi no [4] yes)) (allHi no [1] yes)))
      (allLo no [5, 3, 7, 4, 6] yes)))
    (ifHiLo 5 (allHi no [7, 6] (ifHi 1 yes (allHi no [4] yes)))
     (allLo no [3]
      (ifLo 2 (ifLo 1 (allLo no [4] yes) (allLo no [4, 6] yes)) (allLo no [7, 4, 6] yes)))
     no))
   (ifLo 2
    (ifHiLo 7
     (ifLo 3
      (ifLo 5 (ifLo 1 (allLo no [4] yes) (allLo no [4, 6] yes)) (allLo no [1, 4] yes))
      (allHi no [5, 3, 4, 6] yes))
     (ifLo 3
      (ifLo 5 (ifLo 1 yes (allLo no [4, 6] yes)) (allLo no [1] yes))
      (allLo no [6] (ifLo 5 (ifLo 1 yes (allLo no [4] yes)) (allLo no [1] yes))))
     (allLo no [3]
      (ifLo 5 (ifLo 1 (allLo no [4] yes) (allLo no [4, 6] yes)) (allLo no [1, 4] yes))))
    (ifHiLo 5
     (allHi no [3]
      (ifHi 2 (ifHi 1 (allHi no [4] yes) (allHi no [4, 6] yes)) (allHi no [7, 4, 6] yes)))
     (allLo no [7, 6] (ifLo 1 yes (allLo no [4] yes)))
     no))
   (ifHiLo 3
    (allHi no [5]
     (ifHi 2 (ifHi 1 (allHi no [4] yes) (allHi no [4, 6] yes)) (allHi no [7, 4, 6] yes)))
    (allLo no [5]
     (ifLo 2 (ifLo 1 (allLo no [4] yes) (allLo no [4, 6] yes)) (allLo no [7, 4, 6] yes)))
    no)

end Agast58

section Code
variable (img : GrayImage) (offsets : List ℤ)

/-- The loop over `x` in a row, in one of the two trees; whether the array has been filled, and what is in it. -/
def agast58Row (b y : ℤ) (maxCorners : ℕ) : Bool → List ℤ → List (ℕ × ℕ) → Bool × List (ℕ × ℕ)
  | _, [], corners => (false, corners)
  | structured, x :: xs, corners =>
    let p := y * img.w + x
    let label := (if structured then Agast58.structured else Agast58.homogeneous).eval
      (brighter img offsets p b) (darker img offsets p b)
    if label.success then
      let corners := corners ++ [stored x y]
      if corners.length = maxCorners then (true, corners)
      else agast58Row b y maxCorners label.structured xs corners
    else agast58Row b y maxCorners label.structured xs corners

/-- Each row begins with the tree for flat surroundings. -/
def agast58Detect (roi : Rectangle) (b : ℤ) (fbAvail : ℕ) : List (ℕ × ℕ) :=
  let xsizeB := roi.x + roi.w - 2
  let ysizeB := roi.y + roi.h - 1
  scanRows (fun y => agast58Row img offsets b y (cornerLimit fbAvail) false (intRange (roi.x + 1) (xsizeB + 1)))
    (intRange (roi.y + 1) ysizeB) []

def agast58Score (p bstart : ℤ) : Option ℤ := cornerScore img offsets Agast58.score p bstart

end Code

/-- The offsets as they are after the call, and the keypoints that are added to the array. -/
def agastDetect (s : Pattern58) (img : GrayImage) (roi : Rectangle) (threshold : ℤ) (fbAvail : ℕ) (gcInfo : ℕ → ℕ) :
    Pattern58 × Option (List CornerT) :=
  let s := init58Pattern s img.w
  (s, keypointsOf (fun c => agast58Score img s.offsets (c.2 * img.w + c.1) threshold) gcInfo
    (agast58Detect img s.offsets roi threshold fbAvail))

/-! ### What it finds -/

def agast58Circle : TestCircle where
  places := [(-1, 0), (-1, -1), (0, -1), (1, -1), (1, 0), (1, 1), (0, 1), (-1, 1)]
  inRow := 5
  radius := 1
  places_near := by decide
  inRow_pos := by decide
  inRow_lt := by decide

/-- The offsets belong to the width they are kept with. -/
def Pattern58.Ok (s : Pattern58) : Prop := s.sWidth = -1 ∨ s.offsets = agast58Circle.offsets s.sWidth

theorem init58Pattern_offsets {s : Pattern58} (hs : s.Ok) {w : ℤ} (hw : 0 ≤ w) :
    (init58Pattern s w).Ok ∧ (init58Pattern s w).offsets = agast58Circle.offsets w := by
  rw [init58Pattern]
  split
  case isTrue hsame =>
    rcases hs with hs | hs
    · omega
    · exact ⟨.inr hs, hsame ▸ hs⟩
  case isFalse =>
    have hoffsets : [-1 + 0 * w, -1 + -1 * w, 0 + -1 * w, 1 + -1 * w, 1 + 0 * w, 1 + 1 * w, 0 + 1 * w, -1 + 1 * w] =
        agast58Circle.offsets w := by
      simp [agast58Circle, TestCircle.offsets]
    exact ⟨.inr hoffsets, hoffsets⟩

theorem check_homogeneous : (Agast58.homogeneous.map Agast58.Label.success).check
    (arcMasks agast58Circle.places.length agast58Circle.inRow) Known.nothing := by
  decide

theorem check_structured : (Agast58.structured.map Agast58.Label.success).check
    (arcMasks agast58Circle.places.length agast58Circle.inRow) Known.nothing := by
  decide

theorem check_score : Agast58.score.check (arcMasks agast58Circle.places.length agast58Circle.inRow)
    Known.nothing := by
  decide

section Found
variable (img : GrayImage) {b : ℤ} (hb : 0 ≤ b)
include hb

/-- The one tree is as good as the other: which of them has been left for the pixel does not matter. -/
theorem agast58Row_eq (y : ℤ) (limit : ℕ) : ∀ (structured : Bool) (xs : List ℤ) (corners : List (ℕ × ℕ)),
    agast58Row img (agast58Circle.offsets img.w) b y limit structured xs corners =
      scanRow (fun x y => decide (IsCorner img agast58Circle b x y)) limit y xs corners
  | _, [], _ => rfl
  | structured, x :: xs, corners => by
      have hsuccess : ((if structured then Agast58.structured else Agast58.homogeneous).eval
          (brighter img (agast58Circle.offsets img.w) (y * img.w + x) b)
          (darker img (agast58Circle.offsets img.w) (y * img.w + x) b)).success =
            decide (IsCorner img agast58Circle b x y) := by
        refine (eval_map _ _ Agast58.Label.success _).symm.trans ?_
        cases structured with
        | true => exact treeAt_eq img agast58Circle check_structured hb x y
        | false => exact treeAt_eq img agast58Circle check_homogeneous hb x y
      simp only [agast58Row, scanRow, hsuccess, agast58Row_eq y limit]

theorem agast58Detect_eq {roi : Rectangle} {fbAvail : ℕ} (hroom : 0 < cornerLimit fbAvail) :
    agast58Detect img (agast58Circle.offsets img.w) roi b fbAvail =
      (cornersIn img agast58Circle b roi (cornerLimit fbAvail)).map fun q => stored q.1 q.2 := by
  have hlast : roi.x + roi.w - 2 + 1 = roi.x + roi.w - 1 := by omega
  have hrow : ∀ y xs, agast58Row img (agast58Circle.offsets img.w) b y (cornerLimit fbAvail) false xs =
      scanRow (fun x y => decide (IsCorner img agast58Circle b x y)) (cornerLimit fbAvail) y xs := fun y xs =>
    funext fun corners => agast58Row_eq img hb y (cornerLimit fbAvail) false xs corners
  rw [agast58Detect]
  simp only [hrow, hlast]
  rw [scanRows_eq _ _ _ hroom, List.nil_append, cornersIn, List.map_take]
  rfl

end Found

theorem agastDetect_eq {s : Pattern58} (hs : s.Ok) (img : GrayImage) {roi : Rectangle} {threshold : ℤ} {fbAvail : ℕ}
    (hthreshold : 0 ≤ threshold) (hroom : 0 < cornerLimit fbAvail) (hok : RoiOk img agast58Circle roi)
    (hw : 0 ≤ img.w) (gcInfo : ℕ → ℕ) :
    (agastDetect s img roi threshold fbAvail gcInfo).2 =
      if scoredIn img agast58Circle threshold roi (cornerLimit fbAvail) = [] then some []
      else nonmaxSuppression (scoredIn img agast58Circle threshold roi (cornerLimit fbAvail)) gcInfo := by
  simp only [agastDetect, (init58Pattern_offsets hs hw).2, agast58Detect_eq img hthreshold hroom]
  exact keypointsOf_eq check_score hthreshold hok gcInfo

/-- The offsets after calls for images of these widths, since the start. -/
def patternAfter (widths : List ℕ) : Pattern58 := widths.foldl (fun s (w : ℕ) => init58Pattern s w) Pattern58.start

theorem patternAfter_ok (widths : List ℕ) : (patternAfter widths).Ok := by
  induction widths using List.reverseRecOn with
  | nil => exact .inl rfl
  | append_singleton widths w ih =>
    rw [patternAfter, List.foldl_append]
    exact (init58Pattern_offsets ih (Int.natCast_nonneg w)).1

/-- Whatever images came before, the keypoints are the local maxima, by the score, among the corners of the region;
    the detector always ends and reads nothing but the image. -/
theorem agast_detect_local_maxima (widths : List ℕ) (img : GrayImage) (roi : Rectangle) (threshold : ℤ) (fbAvail : ℕ)
    (gcInfo : ℕ → ℕ) (hthreshold : 0 ≤ threshold) (hroom : 0 < cornerLimit fbAvail)
    (hok : RoiOk img agast58Circle roi) (hw : 0 ≤ img.w) :
    (∃ kpts, (agastDetect (patternAfter widths) img roi threshold fbAvail gcInfo).2 = some kpts ∧
      AreKeypoints (scoredIn img agast58Circle threshold roi (cornerLimit fbAvail)) gcInfo kpts) ∧
    ∀ img', SameImage img img' → (agastDetect (patternAfter widths) img' roi threshold fbAvail gcInfo).2 =
      (agastDetect (patternAfter widths) img roi threshold fbAvail gcInfo).2 := by
  have hs := patternAfter_ok widths
  constructor
  · rw [agastDetect_eq hs img hthreshold hroom hok hw]
    exact hok.areKeypoints gcInfo
  · intro img' hsame
    have hok' : RoiOk img' agast58Circle roi :=
      ⟨by rw [hsame.w_eq, hsame.h_eq]; exact hok.within, hsame.w_eq ▸ hok.right_le, hok.bottom_le⟩
    rw [agastDetect_eq hs img hthreshold hroom hok hw,
      agastDetect_eq hs img' hthreshold hroom hok' (hsame.w_eq ▸ hw), hsame.scoredIn_eq hok.within]

/-- A bright pixel on black. -/
def brightPixel58 : GrayImage := ⟨8, 8, fun i => if i = 3 * 8 + 3 then 200 else 0⟩

theorem agast_detect_local_maxima_brightPixel58 :
    (∃ kpts, (agastDetect (patternAfter [320, 8]) brightPixel58 ⟨0, 0, 8, 8⟩ 20 12000 fun _ => 100000).2 = some kpts ∧
      AreKeypoints (scoredIn brightPixel58 agast58Circle 20 ⟨0, 0, 8, 8⟩ (cornerLimit 12000)) (fun _ => 100000) kpts) ∧
    ∀ img', SameImage brightPixel58 img' →
      (agastDetect (patternAfter [320, 8]) img' ⟨0, 0, 8, 8⟩ 20 12000 fun _ => 100000).2 =
        (agastDetect (patternAfter [320, 8]) brightPixel58 ⟨0, 0, 8, 8⟩ 20 12000 fun _ => 100000).2 :=
  agast_detect_local_maxima [320, 8] brightPixel58 ⟨0, 0, 8, 8⟩ 20 12000 _ (by decide) (by decide)
    ⟨⟨by decide, by decide, by decide, by decide⟩, by decide, by decide⟩ (by decide)

end OpenMV.Vision
