import Mathlib.Tactic.Linarith
import Mathlib.Tactic.Ring
import Mathlib.Algebra.Order.Group.Unbundled.Abs

/-! Digital lines | scheme:loop

    `m` steps are to be spread over `M` places. At each place a rest is reduced by `m`, and where it would become
    negative a step is made and `M` is added. The rest says how far the steps are from the ideal line: at most half
    a step, and at the last place not at all. -/

namespace OpenMV.Schemes

/-- The rest and the number of steps before place `n`. -/
def digitalLine (M m : ℤ) : ℕ → ℤ × ℤ
  | 0 => (M / 2, 0)
  | n + 1 =>
    let s := digitalLine M m n
    if s.1 < m then (s.1 - m + M, s.2 + 1) else (s.1 - m, s.2)

variable {M m : ℤ}

theorem digitalLine_succ (M m : ℤ) (n : ℕ) : digitalLine M m (n + 1) =
    if (digitalLine M m n).1 < m then ((digitalLine M m n).1 - m + M, (digitalLine M m n).2 + 1)
    else ((digitalLine M m n).1 - m, (digitalLine M m n).2) := rfl

theorem digitalLine_spec (h0 : 0 ≤ m) (hm : m ≤ M) (hM : 0 < M) : ∀ n : ℕ,
    0 ≤ (digitalLine M m n).1 ∧ (digitalLine M m n).1 < M ∧
      M * (digitalLine M m n).2 = n * m + (digitalLine M m n).1 - M / 2
  | 0 => by
      refine ⟨?_, ?_, ?_⟩
      · exact Int.ediv_nonneg hM.le (by norm_num)
      · exact Int.ediv_lt_self_of_pos_of_ne_one hM (by norm_num)
      · simp [digitalLine]
  | n + 1 => by
      obtain ⟨hlow, hhigh, heq⟩ := digitalLine_spec h0 hm hM n
      rw [digitalLine_succ]
      split_ifs with h
      · refine ⟨by linarith, by linarith, ?_⟩
        rw [mul_add, heq]
        push_cast
        ring
      · refine ⟨by linarith, by linarith, ?_⟩
        rw [heq]
        push_cast
        ring

/-- The steps are at most half a step away from the line. -/
theorem digitalLine_near (h0 : 0 ≤ m) (hm : m ≤ M) (hM : 0 < M) (n : ℕ) :
    2 * |M * (digitalLine M m n).2 - n * m| ≤ M := by
  obtain ⟨hlow, hhigh, heq⟩ := digitalLine_spec h0 hm hM n
  have hdiff : M * (digitalLine M m n).2 - n * m = (digitalLine M m n).1 - M / 2 := by linarith
  rw [hdiff]
  rcases abs_cases ((digitalLine M m n).1 - M / 2) with ⟨h, -⟩ | ⟨h, -⟩
  · rw [h]
    omega
  · rw [h]
    omega

/-- All steps have been made at the last place. -/
theorem digitalLine_last (h0 : 0 ≤ m) {n : ℕ} (hm : m ≤ n) (hn : 0 < n) : (digitalLine n m n).2 = m := by
  have hpos : (0 : ℤ) < n := Int.natCast_pos.2 hn
  obtain ⟨hlow, hhigh, heq⟩ := digitalLine_spec h0 hm hpos n
  have hhalf := Int.ediv_lt_self_of_pos_of_ne_one hpos (show (2 : ℤ) ≠ 1 by norm_num)
  have hhalf0 := Int.ediv_nonneg hpos.le (show (0 : ℤ) ≤ 2 by norm_num)
  -- the difference is a multiple of `n` and smaller than `n`
  have hdiff : (n : ℤ) * ((digitalLine n m n).2 - m) = (digitalLine n m n).1 - n / 2 := by linarith
  have hlt : (digitalLine n m n).2 - m < 1 := by
    by_contra hge
    nlinarith
  have hgt : -1 < (digitalLine n m n).2 - m := by
    by_contra hle
    nlinarith
  omega

theorem digitalLine_step (M m : ℤ) (n : ℕ) : (digitalLine M m (n + 1)).2 = (digitalLine M m n).2 ∨
    (digitalLine M m (n + 1)).2 = (digitalLine M m n).2 + 1 := by
  rw [digitalLine_succ]
  split_ifs
  · exact Or.inr rfl
  · exact Or.inl rfl

theorem digitalLine_mono (M m : ℤ) {n n' : ℕ} (h : n ≤ n') : (digitalLine M m n).2 ≤ (digitalLine M m n').2 := by
  have hmono : Monotone fun n => (digitalLine M m n).2 := by
    refine monotone_nat_of_le_succ fun n => ?_
    rcases digitalLine_step M m n with h | h
    · exact h.ge
    · rw [h]
      exact (lt_add_one _).le
  exact hmono h

/-- As many steps as places: there is one at each. -/
theorem digitalLine_diagonal (hM : 0 < M) (n : ℕ) : (digitalLine M M n).2 = n := by
  induction n with
  | zero => rfl
  | succ n ih =>
    rw [digitalLine_succ, if_pos (digitalLine_spec hM.le le_rfl hM n).2.1, ih]
    push_cast
    rfl

end OpenMV.Schemes
