import Mathlib.Data.Nat.Sqrt
import OpenMV.Draw.ClipLine
import OpenMV.Vision.FindLines

/-! Merging line segments | scheme:fixpoint | source:src/src/openmv/omv/img/line.c

    Two segments are merged if their angles are close and an end of the shorter one is close to a pixel of the longer
    one. The first segment decides along which axis, and its slope extends the longer one to the extent of both. A
    first segment that is a single point has no slope. -/

namespace OpenMV.Vision
open Schemes.MergeLoop
open Draw (Line)

/-! ### The code -/

/-- The square root, rounded to the nearest integer. -/
def roundSqrt (n : ℕ) : ℕ := if n.sqrt * n.sqrt + n.sqrt < n then n.sqrt + 1 else n.sqrt

/-- `fast_roundf(fast_sqrtf((x_diff * x_diff) + (y_diff * y_diff)))`, exactly. -/
def distance (xDiff yDiff : ℤ) : ℕ := roundSqrt (xDiff * xDiff + yDiff * yDiff).toNat

/-- A `find_lines_list_lnk_data_t` with its segment. -/
structure LnkSegment extends LnkLine where
  line : Line
deriving DecidableEq, Repr

def xDiff (l : Line) : ℤ := l.x2.toInt - l.x1.toInt
def yDiff (l : Line) : ℤ := l.y2.toInt - l.y1.toInt

def lineLength (l : Line) : ℕ := distance (xDiff l) (yDiff l)

/-- An end of the segment is within the threshold of the point. -/
def nearEnd (small : Line) (threshold : ℕ) (px py : ℤ) : Bool :=
  distance (px - small.x1.toInt) (py - small.y1.toInt) ≤ threshold ||
    distance (px - small.x2.toInt) (py - small.y2.toInt) ≤ threshold

/-- The loop over the pixels of the longer segment, with the longer axis first; `err` is `y` or `x`. -/
def walkLine (near : ℤ → ℤ → Bool) (major minor sMajor sMinor : ℤ) : ℕ → ℤ → ℤ → ℤ → Bool
  | 0, _, _, _ => false
  | n + 1, err, p, q =>
    let carry := decide (major ≤ err + minor)
    let err := if carry then err + minor - major else err + minor
    let q := if carry then q + sMinor else q
    near (p + sMajor) q || walkLine near major minor sMajor sMinor n err (p + sMajor) q

/-- `merge_line` -/
def mergeLineNear (big small : Line) (threshold : ℕ) : Bool :=
  let dxabs := |xDiff big|
  let dyabs := |yDiff big|
  let sdx := (xDiff big).sign
  let sdy := (yDiff big).sign
  let px := big.x1.toInt
  let py := big.y1.toInt
  nearEnd small threshold px py ||
    if dyabs ≤ dxabs then
      walkLine (fun px py => nearEnd small threshold px py) dxabs dyabs sdx sdy dxabs.toNat (dxabs / 2) px py
    else walkLine (fun py px => nearEnd small threshold px py) dyabs dxabs sdy sdx dyabs.toNat (dyabs / 2) py px

/-- `theta_diff_2` -/
def segmentThetaDiff (a b : LnkSegment) : ℤ :=
  let thetaDiff := |a.theta - b.theta|
  if 90 ≤ thetaDiff then 180 - thetaDiff else thetaDiff

/-- The ends are swapped. -/
def flipLine (l : Line) : Line := ⟨l.x2, l.y2, l.x1, l.y1⟩

/-- The axes are swapped. -/
def transposeLine (l : Line) : Line := ⟨l.y1, l.x1, l.y2, l.x2⟩

/-- The division of `int`. What it gives for 0 is left open by the language, and is this on the processor. -/
def divInt (a b : ℤ) : ℤ := if b = 0 then -1 else a.tdiv b

/-- Make sure the difference along the axis is not negative. -/
def orderLine (l : Line) : Line := if xDiff l < 0 then flipLine l else l

/-- The branch for a first segment that is more horizontal than vertical. `longer` is `length_0 > length_1`. -/
def extendHorizontal (longer : Bool) (lnk tmp : Line) : Line :=
  let lnk := orderLine lnk
  let tmp := orderLine tmp
  let base := if longer then lnk else tmp
  let xMin := min lnk.x1.toInt tmp.x1.toInt
  let xMax := max lnk.x2.toInt tmp.x2.toInt
  { x1 := .ofInt xMin
    y1 := .ofInt (base.y1.toInt - divInt (int32 (yDiff lnk * (base.x1.toInt - xMin))) (xDiff lnk))
    x2 := .ofInt xMax
    y2 := .ofInt (base.y2.toInt + divInt (int32 (yDiff lnk * (xMax - base.x2.toInt))) (xDiff lnk)) }

/-- `abs(x_diff_0) >= abs(y_diff_0)` -/
def Horizontal (l : Line) : Prop := |yDiff l| ≤ |xDiff l|

instance (l : Line) : Decidable (Horizontal l) := inferInstanceAs (Decidable (_ ≤ _))

/-- The other branch does the same with the axes swapped. -/
def extendLine (longer : Bool) (lnk tmp : Line) : Line :=
  if Horizontal lnk then extendHorizontal longer lnk tmp
  else transposeLine (extendHorizontal longer (transposeLine lnk) (transposeLine tmp))

/-- `tmp_line` is merged into `lnk_line`. -/
def mergeSegment (lnk tmp : LnkSegment) : LnkSegment :=
  { lnk with line := extendLine (lineLength tmp.line < lineLength lnk.line) lnk.line tmp.line }

def segmentMerger (threshold thetaThreshold : ℤ) : Merger Unit LnkSegment where
  test := fun _ a b =>
    let longer := decide (lineLength b.line < lineLength a.line)
    (decide (segmentThetaDiff a b ≤ thetaThreshold) &&
      mergeLineNear (if longer then a.line else b.line) (if longer then b.line else a.line)
        (threshold % 4294967296).toNat, ())
  join := mergeSegment

/-- `merge_alot`, with at most `fuel` passes. -/
def mergeAlot (threshold thetaThreshold : ℤ) (fuel : ℕ) (out : List LnkSegment) : Option (State Unit LnkSegment) :=
  (segmentMerger threshold thetaThreshold).loop fuel ⟨out, (), false, []⟩

/-! ### What a merge should do -/

/-- The extent of a segment along the axis. -/
def extent (horizontal : Bool) (l : Line) : ℤ × ℤ :=
  if horizontal then (min l.x1.toInt l.x2.toInt, max l.x1.toInt l.x2.toInt)
  else (min l.y1.toInt l.y2.toInt, max l.y1.toInt l.y2.toInt)

/-- The smallest range that holds two. -/
def hull (a b : ℤ × ℤ) : ℤ × ℤ := (min a.1 b.1, max a.2 b.2)

/-- What the merge divides by: the difference along the chosen axis. -/
def divisor (l : Line) : ℤ := if Horizontal l then xDiff l else yDiff l

/-- No division by zero, and the extents are put together along the chosen axis. -/
structure ExtendsOver (a b : LnkSegment) : Prop where
  divides : divisor a.line ≠ 0
  extent : extent (Horizontal a.line) (mergeSegment a b).line =
    hull (extent (Horizontal a.line) a.line) (Vision.extent (Horizontal a.line) b.line)

def SinglePoint (l : Line) : Prop := l.x1 = l.x2 ∧ l.y1 = l.y2

/-- The loop ends, and each merge extends over both segments. -/
def MergesExtend (threshold thetaThreshold : ℤ) (out : List LnkSegment) : Prop :=
  ∃ fuel s, mergeAlot threshold thetaThreshold fuel out = some s ∧ ∀ p ∈ s.log, ExtendsOver p.1 p.2

/-! ### Distances -/

/-- Twice the square root is at most 1 away from twice the rounded one. -/
theorem roundSqrt_spec (n : ℕ) : 4 * n < (2 * roundSqrt n + 1) ^ 2 ∧
    (roundSqrt n = 0 ∨ (2 * roundSqrt n - 1) ^ 2 < 4 * n) := by
  have hle := Nat.sqrt_le n
  have hlt := Nat.lt_succ_sqrt n
  rw [Nat.succ_eq_add_one] at hlt
  unfold roundSqrt
  generalize n.sqrt = r at *
  split_ifs with h
  · refine ⟨by nlinarith, Or.inr ?_⟩
    rw [show 2 * (r + 1) - 1 = 2 * r + 1 by omega]
    nlinarith
  · refine ⟨by nlinarith, ?_⟩
    rcases Nat.eq_zero_or_pos r with h0 | h0
    · exact Or.inl h0
    · right
      obtain ⟨k, rfl⟩ : ∃ k, r = k + 1 := ⟨r - 1, by omega⟩
      rw [show 2 * (k + 1) - 1 = 2 * k + 1 by omega]
      nlinarith

/-! ### Extents -/

theorem toInt_ofInt_min (a b : Int16) : (Int16.ofInt (min a.toInt b.toInt)).toInt = min a.toInt b.toInt := by
  rcases min_choice a.toInt b.toInt with h | h
  · rw [h, Int16.ofInt_toInt]
  · rw [h, Int16.ofInt_toInt]

theorem toInt_ofInt_max (a b : Int16) : (Int16.ofInt (max a.toInt b.toInt)).toInt = max a.toInt b.toInt := by
  rcases max_choice a.toInt b.toInt with h | h
  · rw [h, Int16.ofInt_toInt]
  · rw [h, Int16.ofInt_toInt]

theorem extent_true (l : Line) : extent true l = (min l.x1.toInt l.x2.toInt, max l.x1.toInt l.x2.toInt) := rfl

theorem extent_false (l : Line) : extent false l = (min l.y1.toInt l.y2.toInt, max l.y1.toInt l.y2.toInt) := rfl

/-- The extent from end to end. -/
theorem orderLine_extent (l : Line) : ((orderLine l).x1.toInt, (orderLine l).x2.toInt) = extent true l := by
  rw [extent_true]
  unfold orderLine
  split_ifs with h
  · rw [xDiff] at h
    rw [min_eq_right (by omega), max_eq_left (by omega)]
    rfl
  · rw [xDiff] at h
    rw [min_eq_left (by omega), max_eq_right (by omega)]

theorem extendHorizontal_extent (longer : Bool) (lnk tmp : Line) :
    extent true (extendHorizontal longer lnk tmp) = hull (extent true lnk) (extent true tmp) := by
  have hends : ((extendHorizontal longer lnk tmp).x1.toInt, (extendHorizontal longer lnk tmp).x2.toInt) =
      hull (extent true lnk) (extent true tmp) := by
    rw [← orderLine_extent, ← orderLine_extent, hull]
    exact Prod.ext (toInt_ofInt_min _ _) (toInt_ofInt_max _ _)
  have hle : (hull (extent true lnk) (extent true tmp)).1 ≤ (hull (extent true lnk) (extent true tmp)).2 := by
    have hlnk : (extent true lnk).1 ≤ (extent true lnk).2 := min_le_max
    simp only [hull]
    omega
  rw [← hends] at hle
  rw [extent_true, min_eq_left hle, max_eq_right hle, hends]

theorem extent_transpose (l : Line) : extent true (transposeLine l) = extent false l := by
  rw [extent_true, extent_false]
  rfl

theorem transpose_transpose (l : Line) : transposeLine (transposeLine l) = l := rfl

/-- Along the chosen axis the extents are put together, whatever the other coordinates are. -/
theorem extendLine_extent (longer : Bool) (lnk tmp : Line) :
    extent (Horizontal lnk) (extendLine longer lnk tmp) =
      hull (extent (Horizontal lnk) lnk) (extent (Horizontal lnk) tmp) := by
  unfold extendLine
  by_cases h : Horizontal lnk
  · rw [if_pos h, decide_eq_true h]
    exact extendHorizontal_extent longer lnk tmp
  · rw [if_neg h, decide_eq_false h]
    rw [← extent_transpose, transpose_transpose, extendHorizontal_extent, extent_transpose, extent_transpose]

theorem divisor_ne_zero_iff (l : Line) : divisor l ≠ 0 ↔ ¬ SinglePoint l := by
  have hx : l.x1 = l.x2 ↔ xDiff l = 0 := by
    rw [xDiff, sub_eq_zero, Int16.toInt_inj]
    exact eq_comm
  have hy : l.y1 = l.y2 ↔ yDiff l = 0 := by
    rw [yDiff, sub_eq_zero, Int16.toInt_inj]
    exact eq_comm
  rw [SinglePoint, hx, hy, divisor, ne_eq, not_iff_not]
  split_ifs with h
  · constructor
    · intro h0
      rw [Horizontal, h0, abs_zero] at h
      exact ⟨h0, abs_eq_zero.mp (le_antisymm h (abs_nonneg _))⟩
    · exact fun h0 => h0.1
  · constructor
    · intro h0
      rw [Horizontal, h0, abs_zero] at h
      exact absurd (abs_nonneg _) h
    · exact fun h0 => h0.2

theorem extendsOver_iff (a b : LnkSegment) : ExtendsOver a b ↔ ¬ SinglePoint a.line := by
  rw [← divisor_ne_zero_iff]
  exact ⟨fun h => h.divides, fun h => ⟨h, extendLine_extent _ a.line b.line⟩⟩

/-! ### Runs -/

section Runs
variable {threshold thetaThreshold : ℤ} {out : List LnkSegment}

theorem mergeAlot_ends (threshold thetaThreshold : ℤ) (out : List LnkSegment) : ∃ fuel s,
    mergeAlot threshold thetaThreshold fuel out = some s ∧ Merges mergeSegment out s.log s.out := by
  obtain ⟨s, new, hs, hm, hlog⟩ := loop_terminates (M := segmentMerger threshold thetaThreshold) (out.length + 1)
    ⟨out, (), false, []⟩ (Nat.lt_succ_self _)
  refine ⟨out.length + 1, s, hs, ?_⟩
  rw [hlog, List.nil_append]
  exact hm

theorem mergeAlot_unique {fuel fuel' : ℕ} {s s' : State Unit LnkSegment}
    (h : mergeAlot threshold thetaThreshold fuel out = some s)
    (h' : mergeAlot threshold thetaThreshold fuel' out = some s') : s = s' := by
  have h1 := loop_mono h (le_max_left fuel fuel')
  have h2 := loop_mono h' (le_max_right fuel fuel')
  exact Option.some.inj (h1.symm.trans h2)

/-- A segment that has a length keeps it: its extent along the chosen axis is held by that of the merged one. -/
theorem not_singlePoint_mergeSegment {a b : LnkSegment} (ha : ¬ SinglePoint a.line) :
    ¬ SinglePoint (mergeSegment a b).line := by
  have hextent := extendLine_extent (lineLength b.line < lineLength a.line) a.line b.line
  have hne := (divisor_ne_zero_iff a.line).mpr ha
  rintro ⟨hx, hy⟩
  simp only [mergeSegment] at hx hy
  unfold divisor at hne
  split_ifs at hne with h
  · rw [decide_eq_true h] at hextent
    have h1 := congrArg Prod.fst hextent
    have h2 := congrArg Prod.snd hextent
    simp only [extent, hull, if_true, hx] at h1 h2
    rw [xDiff] at hne
    omega
  · rw [decide_eq_false h] at hextent
    have h1 := congrArg Prod.fst hextent
    have h2 := congrArg Prod.snd hextent
    simp only [extent, hull, hy, Bool.false_eq_true, if_false] at h1 h2
    rw [yDiff] at hne
    omega

/-- A list without single points is merged as it should be. -/
theorem mergesExtend_of_not_singlePoint (hout : ∀ a ∈ out, ¬ SinglePoint a.line) :
    MergesExtend threshold thetaThreshold out := by
  obtain ⟨fuel, s, hs, hm⟩ := mergeAlot_ends threshold thetaThreshold out
  have hall := (hm.forall_mem (P := fun a => ¬ SinglePoint a.line)
    (fun a b ha _ => not_singlePoint_mergeSegment ha) hout).2
  exact ⟨fuel, s, hs, fun p hp => (extendsOver_iff p.1 p.2).mpr (hall p hp).1⟩

end Runs

/-- The loop ends, and its merges divide and extend as they should, exactly if no merge of the run has a single point
    as its first segment. -/
theorem merge_alot_iff (threshold thetaThreshold : ℤ) (out : List LnkSegment) :
    MergesExtend threshold thetaThreshold out ↔ ∀ fuel s, mergeAlot threshold thetaThreshold fuel out = some s →
      ∀ p ∈ s.log, ¬ SinglePoint p.1.line := by
  constructor
  · rintro ⟨fuel, s, hs, hall⟩ fuel' s' hs' p hp
    obtain rfl := mergeAlot_unique hs hs'
    exact (extendsOver_iff p.1 p.2).mp (hall p hp)
  · intro hall
    obtain ⟨fuel, s, hs, -⟩ := mergeAlot_ends threshold thetaThreshold out
    exact ⟨fuel, s, hs, fun p hp => (extendsOver_iff p.1 p.2).mpr (hall fuel s hs p hp)⟩

/-- A segment of one pixel. -/
def onePixel : LnkSegment := { magnitude := 100, theta := 0, rho := 5, line := ⟨5, 5, 5, 5⟩ }

/-- Two of them are merged. -/
theorem merge_alot_two_points : ¬ MergesExtend 1 15 [onePixel, onePixel] := by
  rintro ⟨fuel, s, hs, hall⟩
  have hrun : (mergeAlot 1 15 3 [onePixel, onePixel]).map (fun s => s.log.head?) =
      some (some (onePixel, onePixel)) := by
    decide
  obtain ⟨s', hs', hhead⟩ := Option.map_eq_some_iff.mp hrun
  obtain rfl := mergeAlot_unique hs hs'
  exact (hall _ (List.mem_of_head? hhead)).divides (by decide)

end OpenMV.Vision
