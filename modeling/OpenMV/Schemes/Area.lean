import Mathlib.Algebra.BigOperators.Intervals
import Mathlib.Tactic.Abel

/-! Summed areas | scheme:prefix-sum

    The sum over all rows and columns up to a place, and the sum over a rectangle from four of them:

        ┌─────┬───┐
        │  a  │ b │     d − b − c + a
        ├─────┼───┤
        │  c  │ d │
        └─────┴───┘ -/

namespace OpenMV.Schemes

open Finset

variable {G : Type*} [AddCommGroup G] (f : ℕ → ℕ → G)

/-- The part of row `r` up to column `c`. -/
def rowSum (r c : ℕ) : G := ∑ j ∈ range (c + 1), f r j

/-- All rows up to `r`, as far as column `c`. -/
def area (r c : ℕ) : G := ∑ i ∈ range (r + 1), rowSum f i c

theorem area_zero (c : ℕ) : area f 0 c = rowSum f 0 c := by simp [area]

theorem area_succ (r c : ℕ) : area f (r + 1) c = area f r c + rowSum f (r + 1) c := sum_range_succ _ _

/-- The rectangle of `h` rows below `r` and `w` columns right of `c`. -/
theorem sum_rectangle (r c h w : ℕ) :
    area f (r + h) (c + w) + area f r c - area f r (c + w) - area f (r + h) c =
      ∑ i ∈ Ico (r + 1) (r + h + 1), ∑ j ∈ Ico (c + 1) (c + w + 1), f i j := by
  have hcols : ∀ i, ∑ j ∈ Ico (c + 1) (c + w + 1), f i j = rowSum f i (c + w) - rowSum f i c := fun i =>
    sum_Ico_eq_sub _ (by omega)
  have hrows : ∀ k, area f (r + h) k - area f r k = ∑ i ∈ Ico (r + 1) (r + h + 1), rowSum f i k := fun k =>
    (sum_Ico_eq_sub _ (by omega)).symm
  simp only [hcols, sum_sub_distrib, ← hrows]
  abel

/-! ### Corners

    The same with the border: nothing is above the first row, nor left of the first column. -/

/-- The rows before `r`, as far as the columns before `c`. -/
def corner (r c : ℕ) : G := ∑ i ∈ range r, ∑ j ∈ range c, f i j

@[simp] theorem corner_zero_left (c : ℕ) : corner f 0 c = 0 := rfl

@[simp] theorem corner_zero_right (r : ℕ) : corner f r 0 = 0 := by simp [corner]

theorem corner_succ (r c : ℕ) : corner f (r + 1) c = corner f r c + ∑ j ∈ range c, f r j := sum_range_succ _ _

theorem sum_rectangle_corners (r c h w : ℕ) :
    corner f (r + h) (c + w) + corner f r c - corner f r (c + w) - corner f (r + h) c =
      ∑ i ∈ range h, ∑ j ∈ range w, f (r + i) (c + j) := by
  have hcols : ∀ i, ∑ j ∈ range w, f i (c + j) = ∑ j ∈ range (c + w), f i j - ∑ j ∈ range c, f i j := fun i => by
    rw [sum_range_add, add_sub_cancel_left]
  have hrows : ∀ k, corner f (r + h) k - corner f r k = ∑ i ∈ range h, ∑ j ∈ range k, f (r + i) j := fun k => by
    rw [corner, corner, sum_range_add, add_sub_cancel_left]
  simp only [hcols, sum_sub_distrib, ← hrows]
  abel

end OpenMV.Schemes
