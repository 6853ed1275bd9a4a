import Mathlib.Data.List.Induction
import Mathlib.Algebra.Order.Ring.Int
import OpenMV.Schemes.RasterWindow

/-! Non-maximum suppression of corners | scheme:two-pointers | source:src/src/openmv/omv/img/fast.c,
    src/src/openmv/omv/img/agast.c

    The corners come in raster order. `nonmax_suppression`, of which both detectors have a copy, keeps a pointer into
    the row above and one into the row below and looks at a few corners from there on; a corner becomes a keypoint
    when none of its neighbours has a score as high. -/

namespace OpenMV.Vision
open Schemes

/-! ### The code -/

/-- `corner_t` -/
structure CornerT where
  x : ℕ
  y : ℕ
  score : ℕ
deriving DecidableEq, Repr

def maxRow : ℕ := 480
def maxCorners : ℕ := 2000
def minMem : ℕ := 10 * 1024

section Code
variable (corners : List CornerT)

/-- `row_start`: `none` is a row that has not been initialised, `some none` is -1. -/
abbrev RowStart := ℕ → Option (Option ℕ)

/-- A round of the loop that finds the rows, with `prev_row`; a store behind the array has no result. -/
def markRow (s : RowStart × Option ℕ) (c : CornerT × ℕ) : Option (RowStart × Option ℕ) :=
  if some c.1.y ≠ s.2 then
    if c.1.y < maxRow + 1 then some (Function.update s.1 c.1.y (some (some c.2)), some c.1.y) else none
  else some s

/-- The two loops. An index fits into an `int16_t`: there are not more than `MAX_CORNERS`. -/
def rowStarts (lastRow : ℕ) : Option RowStart :=
  if lastRow < maxRow + 1 then
    (corners.zipIdx.foldlM markRow (fun row => if row < lastRow + 1 then some none else none, none)).map Prod.fst
  else none

/-- `Compare` for the corner beside `pos` in its row. -/
def beside (pos c : CornerT) (x : ℤ) : Bool := (c.x : ℤ) = x && c.y = pos.y && pos.score ≤ c.score

def checkLeft (i : ℕ) (pos : CornerT) : Option Bool :=
  if 0 < i then corners[i - 1]?.map fun c => beside pos c (pos.x - 1) else some false

def checkRight (i : ℕ) (pos : CornerT) : Option Bool :=
  if i + 1 < corners.length then corners[i + 1]?.map fun c => beside pos c (pos.x + 1) else some false

/-- The test for a corner in the row above or below. -/
def near (pos c : CornerT) : Bool :=
  ((c.x : ℤ) = pos.x - 1 || c.x = pos.x || c.x = pos.x + 1) && pos.score ≤ c.score

/-- The pointer comes back as it has been moved. -/
def checkAbove (rowStart : RowStart) (pos : CornerT) (pointAbove : ℕ) : Option (Bool × ℕ) :=
  if pos.y = 0 then some (false, pointAbove)
  else (rowStart (pos.y - 1)).bind fun
    | none => some (false, pointAbove)
    | some start => do
      let c ← corners[pointAbove]?
      let pointAbove := if (c.y : ℤ) < pos.y - 1 then start else pointAbove
      let pointAbove ← skipWhile (fun c => c.y < pos.y && (c.x : ℤ) < pos.x - 1) (fun _ => none)
        (corners.drop pointAbove) pointAbove
      let hit ← lookWhile (fun c => c.y < pos.y && c.x ≤ pos.x + 1) (near pos) none (corners.drop pointAbove)
      return (hit, pointAbove)

def checkBelow (rowStart : RowStart) (lastRow : ℕ) (pos : CornerT) (pointBelow : ℕ) : Option (Bool × ℕ) :=
  if pos.y = lastRow then some (false, pointBelow)
  else (rowStart (pos.y + 1)).bind fun
    | none => some (false, pointBelow)
    | some start =>
      if pointBelow < corners.length then do
        let c ← corners[pointBelow]?
        let pointBelow := if c.y < pos.y + 1 then start else pointBelow
        let pointBelow ← skipWhile (fun c => c.y = pos.y + 1 && (c.x : ℤ) < pos.x - 1) some
          (corners.drop pointBelow) pointBelow
        let hit ← lookWhile (fun c => c.y = pos.y + 1 && c.x ≤ pos.x + 1) (near pos) (some false)
          (corners.drop pointBelow)
        return (hit, pointBelow)
      else some (false, pointBelow)

/-- Whether the code goes to `nonmax`, and the two pointers. -/
def goesNonmax (rowStart : RowStart) (lastRow i : ℕ) (pos : CornerT) (above below : ℕ) : Option (Bool × ℕ × ℕ) := do
  if ← checkLeft corners i pos then return (true, above, below)
  if ← checkRight corners i pos then return (true, above, below)
  let (hit, above) ← checkAbove corners rowStart pos above
  if hit then return (true, above, below)
  let (hit, below) ← checkBelow corners rowStart lastRow pos below
  return (hit, above, below)

/-- Whether there is memory for a keypoint, after a collection if need be, and the calls of `gc_info` so far. -/
def findRoom (gcInfo : ℕ → ℕ) (calls : ℕ) : Bool × ℕ :=
  if gcInfo calls < minMem then (!decide (gcInfo (calls + 1) < minMem), calls + 2) else (true, calls + 1)

/-- The loop over `i`, from the corners that are left on; the keypoints that it pushes. -/
def nonmaxLoop (rowStart : RowStart) (lastRow : ℕ) (gcInfo : ℕ → ℕ) :
    List CornerT → ℕ → ℕ → ℕ → ℕ → Option (List CornerT)
  | [], _, _, _, _ => some []
  | pos :: rest, i, above, below, calls => do
    let (nonmax, above, below) ← goesNonmax corners rowStart lastRow i pos above below
    if nonmax then nonmaxLoop rowStart lastRow gcInfo rest (i + 1) above below calls
    else
      let (room, calls) := findRoom gcInfo calls
      if room then
        let kpts ← nonmaxLoop rowStart lastRow gcInfo rest (i + 1) above below calls
        return pos :: kpts
      else return []

/-- The keypoints that are pushed: `alloc_keypoint` takes over all of a corner. -/
def nonmaxSuppression (gcInfo : ℕ → ℕ) : Option (List CornerT) := do
  let last ← corners.getLast?
  let rowStart ← rowStarts corners last.y
  nonmaxLoop corners rowStart last.y gcInfo corners 0 0 0 0

end Code

/-! ### Corners in raster order -/

/-- `a` comes before `b` in raster order. -/
def CornerT.Before (a b : CornerT) : Prop := a.y < b.y ∨ a.y = b.y ∧ a.x < b.x

/-- A corner at one of the eight places around `c` has a score as high. -/
def Beaten (corners : List CornerT) (c : CornerT) : Prop :=
  ∃ d ∈ corners, (d.x ≠ c.x ∨ d.y ≠ c.y) ∧ d.x ≤ c.x + 1 ∧ c.x ≤ d.x + 1 ∧ d.y ≤ c.y + 1 ∧ c.y ≤ d.y + 1 ∧
    c.score ≤ d.score

instance (corners : List CornerT) (c : CornerT) : Decidable (Beaten corners c) := by
  unfold Beaten; infer_instance

section Sorted
variable {corners : List CornerT} (hsorted : corners.Pairwise CornerT.Before)
include hsorted

theorem before_of_lt {i j : ℕ} {a b : CornerT} (ha : corners[i]? = some a) (hb : corners[j]? = some b) (hij : i < j) :
    a.Before b := by
  obtain ⟨hi, rfl⟩ := List.getElem?_eq_some_iff.mp ha
  obtain ⟨hj, rfl⟩ := List.getElem?_eq_some_iff.mp hb
  exact List.pairwise_iff_getElem.mp hsorted i j hi hj hij

theorem lt_of_before {i j : ℕ} {a b : CornerT} (ha : corners[i]? = some a) (hb : corners[j]? = some b)
    (hab : a.Before b) : i < j := by
  rcases lt_trichotomy i j with hij | rfl | hji
  · exact hij
  · cases Option.some.inj (ha.symm.trans hb)
    simp [CornerT.Before] at hab
  · have := before_of_lt hsorted hb ha hji
    simp only [CornerT.Before] at hab this
    omega

/-- Only the corner in front of `pos` can be its left neighbour. -/
theorem checkLeft_eq {i : ℕ} {pos : CornerT} (hpos : corners[i]? = some pos) :
    ∃ r, checkLeft corners i pos = some r ∧
      (r = true ↔ ∃ d ∈ corners, d.y = pos.y ∧ d.x + 1 = pos.x ∧ pos.score ≤ d.score) := by
  obtain ⟨hi, -⟩ := List.getElem?_eq_some_iff.mp hpos
  rw [checkLeft]
  split
  case isTrue h0 =>
    obtain ⟨c, hc⟩ : ∃ c, corners[i - 1]? = some c := ⟨corners[i - 1], List.getElem?_eq_getElem (by omega)⟩
    refine ⟨beside pos c (pos.x - 1), by simp [hc], ?_⟩
    simp only [beside, Bool.and_eq_true, decide_eq_true_eq]
    constructor
    · rintro ⟨⟨hx, hy⟩, hs⟩
      exact ⟨c, List.mem_of_getElem? hc, hy, by omega, hs⟩
    · rintro ⟨d, hd, hy, hx, hs⟩
      obtain ⟨j, hj⟩ := List.mem_iff_getElem?.mp hd
      have hji : j < i := lt_of_before hsorted hj hpos (by simp only [CornerT.Before]; omega)
      rcases (Nat.le_sub_one_of_lt hji).lt_or_eq with hlt | rfl
      · have h1 := before_of_lt hsorted hj hc hlt
        have h2 := before_of_lt hsorted hc hpos (by omega)
        simp only [CornerT.Before] at h1 h2
        omega
      · cases Option.some.inj (hc.symm.trans hj)
        exact ⟨⟨by omega, hy⟩, hs⟩
  case isFalse h0 =>
    refine ⟨false, rfl, by simp, ?_⟩
    rintro ⟨d, hd, hy, hx, -⟩
    obtain ⟨j, hj⟩ := List.mem_iff_getElem?.mp hd
    have := lt_of_before hsorted hj hpos (by simp only [CornerT.Before]; omega)
    omega

theorem checkRight_eq {i : ℕ} {pos : CornerT} (hpos : corners[i]? = some pos) :
    ∃ r, checkRight corners i pos = some r ∧
      (r = true ↔ ∃ d ∈ corners, d.y = pos.y ∧ d.x = pos.x + 1 ∧ pos.score ≤ d.score) := by
  rw [checkRight]
  split
  case isTrue h0 =>
    obtain ⟨c, hc⟩ : ∃ c, corners[i + 1]? = some c := ⟨corners[i + 1], List.getElem?_eq_getElem h0⟩
    refine ⟨beside pos c (pos.x + 1), by simp [hc], ?_⟩
    simp only [beside, Bool.and_eq_true, decide_eq_true_eq]
    constructor
    · rintro ⟨⟨hx, hy⟩, hs⟩
      exact ⟨c, List.mem_of_getElem? hc, hy, by omega, hs⟩
    · rintro ⟨d, hd, hy, hx, hs⟩
      obtain ⟨j, hj⟩ := List.mem_iff_getElem?.mp hd
      have hij : i < j := lt_of_before hsorted hpos hj (by simp only [CornerT.Before]; omega)
      rcases (Nat.succ_le_of_lt hij).lt_or_eq with hlt | rfl
      · have h1 := before_of_lt hsorted hc hj hlt
        have h2 := before_of_lt hsorted hpos hc (by omega)
        simp only [CornerT.Before] at h1 h2
        omega
      · cases Option.some.inj (hc.symm.trans hj)
        exact ⟨⟨by omega, hy⟩, hs⟩
  case isFalse h0 =>
    refine ⟨false, rfl, by simp, ?_⟩
    rintro ⟨d, hd, hy, hx, -⟩
    obtain ⟨j, hj⟩ := List.mem_iff_getElem?.mp hd
    have hij := lt_of_before hsorted hpos hj (by simp only [CornerT.Before]; omega)
    obtain ⟨hj, -⟩ := List.getElem?_eq_some_iff.mp hj
    omega

end Sorted

/-! ### Where the rows begin -/

/-- What `row_start` says of a row. -/
def RowIs (corners : List CornerT) (rowStart : RowStart) (row : ℕ) : Prop :=
  rowStart row = some none ∧ (∀ c ∈ corners, c.y ≠ row) ∨
  ∃ k c, rowStart row = some (some k) ∧ corners[k]? = some c ∧ c.y = row ∧
    ∀ j a, j < k → corners[j]? = some a → a.y < row

theorem RowIs.append {corners : List CornerT} {rowStart : RowStart} {row : ℕ} (h : RowIs corners rowStart row)
    (hsome : ∀ k, rowStart row = some (some k) → k < corners.length) {c : CornerT}
    (hc : c.y ≠ row ∨ ∃ d ∈ corners, d.y = row) : RowIs (corners ++ [c]) rowStart row := by
  rcases h with ⟨hrow, hnone⟩ | ⟨k, d, hrow, hk, hd, hbefore⟩
  · rcases hc with hc | ⟨d, hd, hdrow⟩
    · exact .inl ⟨hrow, by simpa [or_imp, forall_and, hc] using hnone⟩
    · exact absurd hdrow (hnone d hd)
  · have hlt := hsome k hrow
    refine .inr ⟨k, d, hrow, by rwa [List.getElem?_append_left hlt], hd, fun j a hj ha => hbefore j a hj ?_⟩
    rwa [List.getElem?_append_left (hj.trans hlt)] at ha

/-- After the corners so far each row has its start, and `prev_row` is the row of the last one. -/
theorem foldlM_markRow (lastRow : ℕ) (corners : List CornerT) (hsorted : corners.Pairwise CornerT.Before)
    (hrow : ∀ c ∈ corners, c.y < maxRow + 1) :
    ∃ rowStart, corners.zipIdx.foldlM markRow
        ((fun row => if row < lastRow + 1 then some none else none, none) : RowStart × Option ℕ) =
          some (rowStart, corners.getLast?.map CornerT.y) ∧
      (∀ row k, rowStart row = some (some k) → k < corners.length) ∧
      ∀ row ≤ lastRow, RowIs corners rowStart row := by
  induction corners using List.reverseRecOn with
  | nil => exact ⟨_, rfl, by intro row k h; split at h <;> simp at h, fun row h => .inl ⟨if_pos (by omega), by simp⟩⟩
  | append_singleton l c ih =>
    rw [List.pairwise_append] at hsorted
    obtain ⟨rowStart, hrun, hlt, his⟩ := ih hsorted.1 fun d hd => hrow d (by simp [hd])
    have hbefore : ∀ d ∈ l, d.Before c := fun d hd => hsorted.2.2 d hd c (by simp)
    rw [List.zipIdx_append, List.foldlM_append, hrun]
    simp only [List.getLast?_append, List.getLast?_singleton, Option.some_or, Option.map_some, Nat.zero_add]
    by_cases hsame : some c.y = l.getLast?.map CornerT.y
    · obtain ⟨last, hlast, hy⟩ := Option.map_eq_some_iff.mp hsame.symm
      have hmem := List.mem_of_getLast? hlast
      refine ⟨rowStart, by simp [markRow, hsame], fun row k h => ?_, fun row hle => ?_⟩
      · have := hlt row k h
        simp only [List.length_append, List.length_singleton]
        omega
      · refine (his row hle).append (hlt row) ?_
        by_cases hrow : c.y = row
        · exact .inr ⟨last, hmem, hy.trans hrow⟩
        · exact .inl hrow
    · -- no corner so far is in this row: the last one would be
      have hnew : ∀ d ∈ l, d.y < c.y := by
        intro d hd
        have hd' := hbefore d hd
        obtain ⟨i, hi⟩ := List.mem_iff_getElem?.mp hd
        obtain ⟨last, hlast⟩ := Option.isSome_iff_exists.mp (List.getLast?_isSome.mpr (List.ne_nil_of_mem hd))
        have hlastc := hbefore last (List.mem_of_getLast? hlast)
        have hne : last.y ≠ c.y := fun h => hsame (by simp [hlast, h])
        rw [List.getLast?_eq_getElem?] at hlast
        have hile : i ≤ l.length - 1 := by
          have := (List.getElem?_eq_some_iff.mp hi).1
          omega
        rcases hile.lt_or_eq with hlt | rfl
        · have := before_of_lt hsorted.1 hi hlast hlt
          simp only [CornerT.Before] at this hlastc hd'
          omega
        · cases Option.some.inj (hi.symm.trans hlast)
          simp only [CornerT.Before] at hd'
          omega
      refine ⟨Function.update rowStart c.y (some (some l.length)),
        by simp [markRow, hsame, hrow c (by simp)], fun row k h => ?_, fun row hle => ?_⟩
      · rcases eq_or_ne row c.y with rfl | hne
        · simp only [Function.update_self, Option.some.injEq] at h
          simp [← h]
        · rw [Function.update_of_ne hne] at h
          have := hlt row k h
          simp only [List.length_append, List.length_singleton]
          omega
      · rcases eq_or_ne row c.y with rfl | hne
        · refine .inr ⟨l.length, c, Function.update_self .., by simp, rfl, fun j a hj ha => ?_⟩
          rw [List.getElem?_append_left hj] at ha
          exact hnew a (List.mem_of_getElem? ha)
        · have h := (his row hle).append (hlt row) (.inl hne.symm)
          simpa only [RowIs, Function.update_of_ne hne] using h

theorem rowStarts_eq {corners : List CornerT} (hsorted : corners.Pairwise CornerT.Before)
    (hrow : ∀ c ∈ corners, c.y < maxRow + 1) {lastRow : ℕ} (hlast : lastRow < maxRow + 1) :
    ∃ rowStart, rowStarts corners lastRow = some rowStart ∧ ∀ row ≤ lastRow, RowIs corners rowStart row := by
  obtain ⟨rowStart, hrun, -, his⟩ := foldlM_markRow lastRow corners hsorted hrow
  exact ⟨rowStart, by rw [rowStarts, if_pos hlast, hrun]; rfl, his⟩

/-! ### The two pointers -/

/-- Nothing that is in front of `point_above` is near a corner from `i` on, in the row above. -/
structure AboveOk (corners : List CornerT) (i pointAbove : ℕ) : Prop where
  le : pointAbove ≤ i
  past : ∀ j a i' c, j < pointAbove → i ≤ i' → corners[j]? = some a → corners[i']? = some c →
    a.y + 1 = c.y → a.x + 1 < c.x

/-- Nothing that is in front of `point_below` is near a corner from `i` on, in the row below. -/
def BelowOk (corners : List CornerT) (i pointBelow : ℕ) : Prop :=
  ∀ j a i' c, j < pointBelow → i ≤ i' → corners[j]? = some a → corners[i']? = some c →
    a.y = c.y + 1 → a.x + 1 < c.x

theorem AboveOk.succ {corners : List CornerT} {i p : ℕ} (h : AboveOk corners i p) : AboveOk corners (i + 1) p :=
  ⟨h.le.trans i.le_succ, fun j a i' c hj hi => h.past j a i' c hj (by omega)⟩

theorem BelowOk.succ {corners : List CornerT} {i p : ℕ} (h : BelowOk corners i p) : BelowOk corners (i + 1) p :=
  fun j a i' c hj hi => h j a i' c hj (by omega)

section Pointers
variable {corners : List CornerT} (hsorted : corners.Pairwise CornerT.Before) {rowStart : RowStart}
  {i : ℕ} {pos : CornerT} (hpos : corners[i]? = some pos)
include hsorted hpos

/-- From the corner of `pos` on there are only this row and the rows below. -/
theorem y_le_of_le {i' : ℕ} {c : CornerT} (hle : i ≤ i') (hc : corners[i']? = some c) :
    pos.y < c.y ∨ pos.y = c.y ∧ pos.x ≤ c.x := by
  rcases hle.eq_or_lt with rfl | hlt
  · cases Option.some.inj (hpos.symm.trans hc)
    exact .inr ⟨rfl, le_rfl⟩
  · have := before_of_lt hsorted hpos hc hlt
    simp only [CornerT.Before] at this
    omega

theorem checkAbove_eq {above : ℕ} (hok : AboveOk corners i above) (hrow : RowIs corners rowStart (pos.y - 1)) :
    ∃ r above', checkAbove corners rowStart pos above = some (r, above') ∧ AboveOk corners i above' ∧
      (r = true ↔ ∃ d ∈ corners, d.y + 1 = pos.y ∧ d.x ≤ pos.x + 1 ∧ pos.x ≤ d.x + 1 ∧ pos.score ≤ d.score) := by
  have hi : i < corners.length := (List.getElem?_eq_some_iff.mp hpos).1
  rw [checkAbove]
  split
  case isTrue h0 => exact ⟨false, above, rfl, hok, by simp [h0]⟩
  case isFalse h0 =>
    rcases hrow with ⟨hnone, hrow⟩ | ⟨k, first, hsome, hk, hfirst, hbefore⟩
    · refine ⟨false, above, by simp [hnone], hok, by simp, ?_⟩
      rintro ⟨d, hd, hy, -⟩
      exact absurd (by omega) (hrow d hd)
    · have habove : above < corners.length := hok.le.trans_lt hi
      obtain ⟨c, hc⟩ : ∃ c, corners[above]? = some c := ⟨corners[above], List.getElem?_eq_getElem habove⟩
      -- the pointer stands in the row above, or behind it
      obtain ⟨p, hp, hpok, hprow⟩ : ∃ p, (if (c.y : ℤ) < pos.y - 1 then k else above) = p ∧ AboveOk corners i p ∧
          ∀ d ∈ corners.drop p, pos.y ≤ d.y + 1 := by
        refine ⟨_, rfl, ?_⟩
        split
        · refine ⟨⟨?_, fun j a i' c' hj hle ha hc' hy => ?_⟩, fun d hd => ?_⟩
          · exact (lt_of_before hsorted hk hpos (by simp only [CornerT.Before]; omega)).le
          · have h1 := hbefore j a hj ha
            have h2 := y_le_of_le hsorted hpos hle hc'
            omega
          · obtain ⟨j, hj, hd⟩ := mem_drop_iff.mp hd
            have := y_le_of_le hsorted hk hj hd
            omega
        · refine ⟨hok, fun d hd => ?_⟩
          obtain ⟨j, hj, hd⟩ := mem_drop_iff.mp hd
          have := y_le_of_le hsorted hc hj hd
          omega
      have hposmem : pos ∈ corners.drop p := mem_drop_iff.mpr ⟨i, hpok.le, hpos⟩
      obtain ⟨p', hskip, hle, hall, -⟩ := skipWhile_eq (l := corners)
        (fun c => decide (c.y < pos.y) && decide ((c.x : ℤ) < pos.x - 1)) (fun _ => none)
        rfl (.inl ⟨pos, hposmem, by simp⟩)
      have hp'i : p' ≤ i := by
        by_contra hgt
        simpa using hall i pos hpok.le (by omega) hpos
      have hp'ok : AboveOk corners i p' := by
        refine ⟨hp'i, fun j a i' c' hj hi' ha hc' hy => ?_⟩
        rcases lt_or_ge j p with hjp | hjp
        · exact hpok.past j a i' c' hjp hi' ha hc' hy
        · have h1 := hall j a hjp hj ha
          have h2 := y_le_of_le hsorted hpos hi' hc'
          simp only [Bool.and_eq_true, decide_eq_true_eq] at h1
          omega
      have hsub : ∀ d ∈ corners.drop p', d ∈ corners.drop p := fun d hd => by
        obtain ⟨j, hj, hd⟩ := mem_drop_iff.mp hd
        exact mem_drop_iff.mpr ⟨j, hle.trans hj, hd⟩
      obtain ⟨r, hlook, hiff⟩ := lookWhile_eq
        (fun c => decide (c.y < pos.y) && decide (c.x ≤ pos.x + 1)) (near pos) none (corners.drop p')
        (.inl ⟨pos, mem_drop_iff.mpr ⟨i, hp'i, hpos⟩, by simp⟩) <| by
          refine (hsorted.sublist (List.drop_sublist ..)).imp_of_mem fun {a b} ha _ hab hgo => ?_
          have h1 := hprow a (hsub a ha)
          simp only [CornerT.Before] at hab
          simp only [Bool.and_eq_true, decide_eq_true_eq] at hgo ⊢
          omega
      refine ⟨r, p', by simp [hsome, hc, hp, hskip, hlook], hp'ok, hiff.trans ?_⟩
      simp only [near, Bool.and_eq_true, Bool.or_eq_true, decide_eq_true_eq]
      constructor
      · rintro ⟨d, hd, ⟨hy, hx⟩, hnear, hs⟩
        have := hprow d (hsub d hd)
        exact ⟨d, List.mem_of_mem_drop hd, by omega, hx, by omega, hs⟩
      · rintro ⟨d, hd, hy, hx, hx', hs⟩
        obtain ⟨j, hj⟩ := List.mem_iff_getElem?.mp hd
        refine ⟨d, mem_drop_iff.mpr ⟨j, ?_, hj⟩, ⟨by omega, hx⟩, by omega, hs⟩
        by_contra hlt
        have := hp'ok.past j d i pos (by omega) le_rfl hj hpos hy
        omega

theorem checkBelow_eq {lastRow below : ℕ} (hok : BelowOk corners i below)
    (hrow : pos.y ≠ lastRow → RowIs corners rowStart (pos.y + 1)) (hlast : ∀ c ∈ corners, c.y ≤ lastRow) :
    ∃ r below', checkBelow corners rowStart lastRow pos below = some (r, below') ∧ BelowOk corners i below' ∧
      (r = true ↔ ∃ d ∈ corners, d.y = pos.y + 1 ∧ d.x ≤ pos.x + 1 ∧ pos.x ≤ d.x + 1 ∧ pos.score ≤ d.score) := by
  rw [checkBelow]
  split
  case isTrue h0 =>
    refine ⟨false, below, rfl, hok, by simp, ?_⟩
    rintro ⟨d, hd, hy, -⟩
    have := hlast d hd
    omega
  case isFalse h0 =>
    rcases hrow h0 with ⟨hnone, hrow⟩ | ⟨k, first, hsome, hk, hfirst, hbefore⟩
    · refine ⟨false, below, by simp [hnone], hok, by simp, ?_⟩
      rintro ⟨d, hd, hy, -⟩
      exact absurd hy (hrow d hd)
    by_cases hlen : below < corners.length
    case neg =>
      -- the pointer is behind the last row, and so behind all that is near
      refine ⟨false, below, by simp [hsome, hlen], hok, by simp, ?_⟩
      rintro ⟨d, hd, hy, -, hx, -⟩
      obtain ⟨j, hj⟩ := List.mem_iff_getElem?.mp hd
      have hjlt := (List.getElem?_eq_some_iff.mp hj).1
      have := hok j d i pos (by omega) le_rfl hj hpos hy
      omega
    case pos =>
      have hc : corners[below]? = some corners[below] := List.getElem?_eq_getElem hlen
      generalize corners[below] = c at hc
      obtain ⟨p, hp, hpok, hprow⟩ : ∃ p, (if c.y < pos.y + 1 then k else below) = p ∧ BelowOk corners i p ∧
          ∀ d ∈ corners.drop p, pos.y + 1 ≤ d.y := by
        refine ⟨_, rfl, ?_⟩
        split
        · refine ⟨fun j a i' c' hj hle ha hc' hy => ?_, fun d hd => ?_⟩
          · have h1 := hbefore j a hj ha
            have h2 := y_le_of_le hsorted hpos hle hc'
            omega
          · obtain ⟨j, hj, hd⟩ := mem_drop_iff.mp hd
            have := y_le_of_le hsorted hk hj hd
            omega
        · refine ⟨hok, fun d hd => ?_⟩
          obtain ⟨j, hj, hd⟩ := mem_drop_iff.mp hd
          have := y_le_of_le hsorted hc hj hd
          omega
      obtain ⟨p', hskip, hle, hall, -⟩ := skipWhile_eq (l := corners)
        (fun c => decide (c.y = pos.y + 1) && decide ((c.x : ℤ) < pos.x - 1)) some
        (k := p) rfl (.inr fun _ => rfl)
      have hp'ok : BelowOk corners i p' := by
        intro j a i' c' hj hi' ha hc' hy
        rcases lt_or_ge j p with hjp | hjp
        · exact hpok j a i' c' hjp hi' ha hc' hy
        · have h1 := hall j a hjp hj ha
          have h2 := y_le_of_le hsorted hpos hi' hc'
          simp only [Bool.and_eq_true, decide_eq_true_eq] at h1
          omega
      have hsub : ∀ d ∈ corners.drop p', d ∈ corners.drop p := fun d hd => by
        obtain ⟨j, hj, hd⟩ := mem_drop_iff.mp hd
        exact mem_drop_iff.mpr ⟨j, hle.trans hj, hd⟩
      obtain ⟨r, hlook, hiff⟩ := lookWhile_eq
        (fun c => decide (c.y = pos.y + 1) && decide (c.x ≤ pos.x + 1)) (near pos)
        (some false) (corners.drop p') (.inr rfl) <| by
          refine (hsorted.sublist (List.drop_sublist ..)).imp_of_mem fun {a b} ha _ hab hgo => ?_
          have h1 := hprow a (hsub a ha)
          simp only [CornerT.Before] at hab
          simp only [Bool.and_eq_true, decide_eq_true_eq] at hgo ⊢
          omega
      refine ⟨r, p', ?_, hp'ok, hiff.trans ?_⟩
      · simp only [hsome, Option.bind_some, if_pos hlen, hc, Option.bind_eq_bind, hp, hskip, hlook, Option.pure_def]
      simp only [near, Bool.and_eq_true, Bool.or_eq_true, decide_eq_true_eq]
      constructor
      · rintro ⟨d, hd, ⟨hy, hx⟩, hnear, hs⟩
        exact ⟨d, List.mem_of_mem_drop hd, hy, hx, by omega, hs⟩
      · rintro ⟨d, hd, hy, hx, hx', hs⟩
        obtain ⟨j, hj⟩ := List.mem_iff_getElem?.mp hd
        refine ⟨d, mem_drop_iff.mpr ⟨j, ?_, hj⟩, ⟨hy, hx⟩, by omega, hs⟩
        by_contra hlt
        have := hp'ok j d i pos (by omega) le_rfl hj hpos hy
        omega

end Pointers

/-! ### The keypoints -/

theorem beaten_iff {corners : List CornerT} {c : CornerT} : Beaten corners c ↔
    (∃ d ∈ corners, d.y = c.y ∧ d.x + 1 = c.x ∧ c.score ≤ d.score) ∨
    (∃ d ∈ corners, d.y = c.y ∧ d.x = c.x + 1 ∧ c.score ≤ d.score) ∨
    (∃ d ∈ corners, d.y + 1 = c.y ∧ d.x ≤ c.x + 1 ∧ c.x ≤ d.x + 1 ∧ c.score ≤ d.score) ∨
    ∃ d ∈ corners, d.y = c.y + 1 ∧ d.x ≤ c.x + 1 ∧ c.x ≤ d.x + 1 ∧ c.score ≤ d.score := by
  simp only [Beaten, ← exists_or, ← and_or_left]
  exact exists_congr fun d => and_congr_right fun _ => by omega

section Run
variable {corners : List CornerT} (hsorted : corners.Pairwise CornerT.Before) {rowStart : RowStart} {lastRow : ℕ}
  (hrow : ∀ row ≤ lastRow, RowIs corners rowStart row) (hlast : ∀ c ∈ corners, c.y ≤ lastRow)
include hsorted hrow hlast

theorem goesNonmax_eq {i above below : ℕ} {pos : CornerT} (hpos : corners[i]? = some pos)
    (habove : AboveOk corners i above) (hbelow : BelowOk corners i below) :
    ∃ r above' below', goesNonmax corners rowStart lastRow i pos above below = some (r, above', below') ∧
      AboveOk corners i above' ∧ BelowOk corners i below' ∧ (r = true ↔ Beaten corners pos) := by
  have hle := hlast pos (List.mem_of_getElem? hpos)
  obtain ⟨rl, hl, hleft⟩ := checkLeft_eq hsorted hpos
  obtain ⟨rr, hr, hright⟩ := checkRight_eq hsorted hpos
  obtain ⟨ra, above', ha, haok, hup⟩ := checkAbove_eq hsorted hpos habove (hrow (pos.y - 1) (by omega))
  obtain ⟨rb, below', hb, hbok, hdown⟩ := checkBelow_eq hsorted hpos hbelow
    (fun hne => hrow (pos.y + 1) (by omega)) hlast
  rw [beaten_iff, ← hleft, ← hright, ← hup, ← hdown]
  cases rl with
  | true => exact ⟨true, above, below, by simp [goesNonmax, hl], habove, hbelow, by simp⟩
  | false =>
    cases rr with
    | true => exact ⟨true, above, below, by simp [goesNonmax, hl, hr], habove, hbelow, by simp⟩
    | false =>
      cases ra with
      | true => exact ⟨true, above', below, by simp [goesNonmax, hl, hr, ha], haok, hbelow, by simp⟩
      | false => exact ⟨rb, above', below', by simp [goesNonmax, hl, hr, ha, hb], haok, hbok, by simp⟩

/-- The keypoints from index `i` on are the corners that nobody beats, or the first of them when memory runs out. -/
theorem nonmaxLoop_eq (gcInfo : ℕ → ℕ) : ∀ {rest : List CornerT} {i above below : ℕ} (calls : ℕ),
    corners.drop i = rest → AboveOk corners i above → BelowOk corners i below →
    ∃ kpts, nonmaxLoop corners rowStart lastRow gcInfo rest i above below calls = some kpts ∧
      kpts <+: rest.filter (fun c => ¬ Beaten corners c) ∧
      (kpts = rest.filter (fun c => ¬ Beaten corners c) ∨ ∃ t, gcInfo t < minMem ∧ gcInfo (t + 1) < minMem) := by
  intro rest
  induction rest with
  | nil => intro i above below calls _ _ _; exact ⟨[], rfl, by simp, .inl rfl⟩
  | cons pos rest ih =>
    intro i above below calls hdrop habove hbelow
    have hpos : corners[i]? = some pos := by
      rw [← Nat.add_zero i, ← List.getElem?_drop, hdrop, List.getElem?_cons_zero]
    have hdrop' : corners.drop (i + 1) = rest := by rw [← List.drop_drop, hdrop, List.drop_one, List.tail_cons]
    obtain ⟨r, above', below', hgo, haok, hbok, hiff⟩ := goesNonmax_eq hsorted hrow hlast hpos habove hbelow
    cases r with
    | true =>
      obtain ⟨kpts, hrun, hpre, hend⟩ := ih calls hdrop' haok.succ hbok.succ
      have hbeaten : Beaten corners pos := hiff.mp rfl
      exact ⟨kpts, by simp [nonmaxLoop, hgo, hrun], by simpa [hbeaten] using hpre, by simpa [hbeaten] using hend⟩
    | false =>
      have hbest : ¬ Beaten corners pos := fun h => by simpa using hiff.mpr h
      by_cases hroom : (findRoom gcInfo calls).1
      · obtain ⟨kpts, hrun, hpre, hend⟩ := ih (findRoom gcInfo calls).2 hdrop' haok.succ hbok.succ
        refine ⟨pos :: kpts, by simp [nonmaxLoop, hgo, hroom, hrun], ?_, ?_⟩
        · simpa [hbest, List.prefix_cons_inj] using hpre
        · simpa [hbest] using hend
      · refine ⟨[], by simp [nonmaxLoop, hgo, hroom], List.nil_prefix, .inr ⟨calls, ?_⟩⟩
        rw [findRoom] at hroom
        split at hroom
        case isTrue hlow => exact ⟨hlow, by simpa using hroom⟩
        case isFalse => simp at hroom

end Run

/-- Corners in raster order, not too low in the image: the code finds for each row and each pointer what it looks for,
    and the keypoints are the corners that no neighbour beats. -/
theorem nonmaxSuppression_eq {corners : List CornerT} (hne : corners ≠ []) (hsorted : corners.Pairwise CornerT.Before)
    (hrow : ∀ c ∈ corners, c.y < maxRow + 1) (gcInfo : ℕ → ℕ) :
    ∃ kpts, nonmaxSuppression corners gcInfo = some kpts ∧ kpts <+: corners.filter (fun c => ¬ Beaten corners c) ∧
      (kpts = corners.filter (fun c => ¬ Beaten corners c) ∨ ∃ t, gcInfo t < minMem ∧ gcInfo (t + 1) < minMem) := by
  have hlast := List.getLast?_eq_some_getLast hne
  have hmem := List.getLast_mem hne
  have hle : ∀ c ∈ corners, c.y ≤ (corners.getLast hne).y := by
    intro c hc
    obtain ⟨i, hi⟩ := List.mem_iff_getElem?.mp hc
    have hlast' := hlast
    rw [List.getLast?_eq_getElem?] at hlast'
    have := y_le_of_le hsorted hi (Nat.le_sub_one_of_lt (List.getElem?_eq_some_iff.mp hi).1) hlast'
    omega
  obtain ⟨rowStart, hstarts, his⟩ := rowStarts_eq hsorted hrow (hrow _ hmem)
  have habove : AboveOk corners 0 0 := ⟨le_rfl, by intro j a i' c hj; omega⟩
  have hbelow : BelowOk corners 0 0 := by intro j a i' c hj; omega
  obtain ⟨kpts, hrun, hpre, hend⟩ := nonmaxLoop_eq hsorted his hle gcInfo 0 List.drop_zero habove hbelow
  refine ⟨kpts, ?_, hpre, hend⟩
  simp only [nonmaxSuppression, hlast, Option.bind_eq_bind, Option.bind_some, hstarts, hrun]

end OpenMV.Vision
