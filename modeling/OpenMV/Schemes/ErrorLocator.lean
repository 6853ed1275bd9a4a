import Mathlib.Algebra.BigOperators.Intervals
import Mathlib.Algebra.Ring.GeomSum
import Mathlib.Algebra.Polynomial.BigOperators
import OpenMV.Schemes.KeyEquation

/-! Locating errors | scheme:polynomials

    The sums `a_k x_k^j` over some places `k` are the beginning of a sequence. Its recurrence is the product of the
    `1 - x_k X`: the roots of this polynomial tell the places, and a second polynomial has the values `a_k` in it. -/

namespace OpenMV.Schemes
open Polynomial

variable {F ι : Type*} [Field F] (x a : ι → F) (E : Finset ι)

/-- The locator of the places in `E`. -/
noncomputable def locator : F[X] := ∏ k ∈ E, (1 - C (x k) * X)

theorem locator_coeff_zero : (locator x E).coeff 0 = 1 := by
  rw [locator, coeff_zero_prod]
  exact Finset.prod_eq_one fun k _ => by simp

theorem degree_factor_le (r : F) : (1 - C r * X : F[X]).degree ≤ (1 : ℕ) := by
  refine (degree_sub_le _ _).trans (max_le (degree_one_le.trans (by norm_num)) ?_)
  exact degree_C_mul_X_le r

theorem degree_locator_le : (locator x E).degree ≤ (E.card : ℕ) := by
  refine (degree_prod_le _ _).trans ?_
  refine (Finset.sum_le_sum fun k _ => degree_factor_le (x k)).trans ?_
  simp

theorem eval_locator (y : F) : (locator x E).eval y = ∏ k ∈ E, (1 - x k * y) := by
  rw [locator, eval_prod]
  exact Finset.prod_congr rfl fun k _ => by simp

/-- The roots of the locator are the inverses of the `x_k`. -/
theorem eval_locator_inv {y : F} (hy : y ≠ 0) : (locator x E).eval y⁻¹ = 0 ↔ ∃ k ∈ E, x k = y := by
  rw [eval_locator, Finset.prod_eq_zero_iff]
  refine exists_congr fun k => and_congr_right fun _ => ?_
  rw [sub_eq_zero, eq_comm, mul_inv_eq_one₀ hy]

variable [DecidableEq ι]

/-- The evaluator for the values `a`. -/
noncomputable def evaluator : F[X] := ∑ k ∈ E, C (a k) * locator x (E.erase k)

theorem degree_evaluator_lt : (evaluator x a E).degree < (E.card : ℕ) := by
  rw [evaluator]
  refine (degree_sum_le _ _).trans_lt ((Finset.sup_lt_iff (WithBot.bot_lt_coe _)).mpr fun k hk => ?_)
  refine (degree_mul_le _ _).trans_lt ?_
  have hcard : (E.erase k).card < E.card := Finset.card_erase_lt_of_mem hk
  calc (C (a k)).degree + (locator x (E.erase k)).degree
      ≤ 0 + ((E.erase k).card : ℕ) := add_le_add degree_C_le (degree_locator_le x _)
    _ < (E.card : ℕ) := by rw [zero_add]; exact_mod_cast hcard

theorem locator_eq_mul {k : ι} (hk : k ∈ E) : locator x E = (1 - C (x k) * X) * locator x (E.erase k) :=
  (Finset.mul_prod_erase E (fun k => 1 - C (x k) * X) hk).symm

section Places
variable {x a E} (hx : ∀ k ∈ E, x k ≠ 0)
include hx

theorem eval_evaluator {k : ι} (hk : k ∈ E) :
    (evaluator x a E).eval (x k)⁻¹ = a k * (locator x (E.erase k)).eval (x k)⁻¹ := by
  rw [evaluator, eval_finsetSum, Finset.sum_eq_single k]
  · simp
  · intro l hl hne
    have hroot : (locator x (E.erase l)).eval (x k)⁻¹ = 0 :=
      (eval_locator_inv x _ (hx k hk)).mpr ⟨k, Finset.mem_erase.mpr ⟨hne.symm, hk⟩, rfl⟩
    simp [hroot]
  · exact fun h => absurd hk h

/-- At the place `k` the evaluator and the derivative of the locator have a quotient that tells the value. -/
theorem eval_derivative_locator {k : ι} (hk : k ∈ E) :
    (derivative (locator x E)).eval (x k)⁻¹ = -(x k * (locator x (E.erase k)).eval (x k)⁻¹) := by
  have hroot : (1 - C (x k) * X : F[X]).eval (x k)⁻¹ = 0 := by simp [mul_inv_cancel₀ (hx k hk)]
  rw [locator_eq_mul x E hk, derivative_mul, eval_add, eval_mul, eval_mul, hroot]
  simp

theorem eval_evaluator_eq {k : ι} (hk : k ∈ E) :
    (evaluator x (fun k => a k * x k) E).eval (x k)⁻¹ = -(a k * (derivative (locator x E)).eval (x k)⁻¹) := by
  rw [eval_evaluator hx hk, eval_derivative_locator hx hk]
  ring

variable (hinj : Set.InjOn x E)
include hinj

theorem eval_locator_erase_ne {k : ι} (hk : k ∈ E) : (locator x (E.erase k)).eval (x k)⁻¹ ≠ 0 := by
  rw [Ne, eval_locator_inv x _ (hx k hk)]
  rintro ⟨l, hl, heq⟩
  obtain ⟨hne, hl⟩ := Finset.mem_erase.mp hl
  exact hne (hinj hl hk heq)

theorem eval_derivative_ne {k : ι} (hk : k ∈ E) : (derivative (locator x E)).eval (x k)⁻¹ ≠ 0 := by
  rw [eval_derivative_locator hx hk]
  exact neg_ne_zero.mpr (mul_ne_zero (hx k hk) (eval_locator_erase_ne hx hinj hk))

/-- The two polynomials have no common factor when no value is zero. -/
theorem isCoprime_locator (ha : ∀ k ∈ E, a k ≠ 0) : IsCoprime (locator x E) (evaluator x a E) := by
  refine IsCoprime.prod_left fun k hk => ?_
  have hfactor : (1 - C (x k) * X : F[X]) = C (-x k) * (X - C (x k)⁻¹) := by
    rw [mul_sub, ← C_mul, neg_mul, mul_inv_cancel₀ (hx k hk)]
    simp only [map_neg, map_one]
    ring
  rw [hfactor]
  have hunit : IsUnit (C (-x k)) := isUnit_C.mpr (isUnit_iff_ne_zero.mpr (neg_ne_zero.mpr (hx k hk)))
  rw [isCoprime_mul_unit_left_left hunit]
  refine ((irreducible_X_sub_C (x k)⁻¹).coprime_iff_not_dvd).mpr fun hdvd => ?_
  rw [dvd_iff_isRoot, IsRoot, eval_evaluator hx hk] at hdvd
  revert hdvd
  exact mul_ne_zero (ha k hk) (eval_locator_erase_ne hx hinj hk)

end Places

/-- The polynomial with the first `n` sums is a solution with the locator and the evaluator. -/
theorem key_equation {S : F[X]} {n : ℕ} (hS : ∀ j < n, S.coeff j = ∑ k ∈ E, a k * x k ^ j) :
    X ^ n ∣ locator x E * S - evaluator x a E := by
  have hsum : X ^ n ∣ S - ∑ k ∈ E, C (a k) * ∑ j ∈ Finset.range n, (C (x k) * X) ^ j := by
    rw [X_pow_dvd_iff]
    intro j hj
    simp only [coeff_sub, finsetSum_coeff, coeff_C_mul, mul_pow, ← C_pow, coeff_X_pow, mul_ite, mul_one, mul_zero,
      Finset.sum_ite_eq, Finset.mem_range, hj, if_true, hS j hj, sub_self]
  have hplace : ∀ k ∈ E, X ^ n ∣
      locator x E * (C (a k) * ∑ j ∈ Finset.range n, (C (x k) * X) ^ j) - C (a k) * locator x (E.erase k) := by
    intro k hk
    have hgeom := mul_neg_geom_sum (C (x k) * X) n
    refine ⟨-(C (a k) * C (x k) ^ n * locator x (E.erase k)), ?_⟩
    rw [locator_eq_mul x E hk]
    rw [mul_pow] at hgeom
    linear_combination C (a k) * locator x (E.erase k) * hgeom
  have hall := Finset.dvd_sum hplace
  rw [Finset.sum_sub_distrib, ← Finset.mul_sum] at hall
  have := (hsum.mul_left (locator x E)).add hall
  rwa [mul_sub, sub_add_sub_cancel] at this

/-! ### Encoding -/

/-- High coefficients can be chosen as one likes: the low ones are set right by the remainder of a division. -/
theorem exists_multiple {F : Type*} [Field F] (x m : ℕ → F) {bs npar : ℕ} (hle : npar ≤ bs) :
    ∃ c : ℕ → F, (∀ i < npar, ∑ j ∈ Finset.range bs, c j * x i ^ j = 0) ∧ ∀ j, npar ≤ j → j < bs → c j = m j := by
  obtain ⟨g, hgdef⟩ : ∃ g : F[X], g = ∏ i ∈ Finset.range npar, (X - C (x i)) := ⟨_, rfl⟩
  obtain ⟨P, hPdef⟩ : ∃ P : F[X], P = ∑ j ∈ Finset.range bs, monomial j (if npar ≤ j then m j else 0) := ⟨_, rfl⟩
  have hg : g.Monic := hgdef ▸ monic_prod_of_monic _ _ fun i _ => monic_X_sub_C _
  have hdeg : g.natDegree = npar := by
    rw [hgdef, natDegree_prod_of_monic _ _ fun i _ => monic_X_sub_C _]
    simp only [natDegree_X_sub_C, Finset.sum_const, Finset.card_range, smul_eq_mul, mul_one]
  have hP : ∀ j, P.coeff j = if j < bs then if npar ≤ j then m j else 0 else 0 := by
    intro j
    simp only [hPdef, finsetSum_coeff, coeff_monomial, Finset.sum_ite_eq', Finset.mem_range]
  have hhigh : ∀ j, npar ≤ j → (P - P %ₘ g).coeff j = P.coeff j := by
    intro j hj
    have hrem : (P %ₘ g).degree < j := by
      refine (degree_modByMonic_lt P hg).trans_le ?_
      rw [degree_eq_natDegree hg.ne_zero, hdeg]
      exact_mod_cast hj
    rw [coeff_sub, coeff_eq_zero_of_degree_lt hrem, sub_zero]
  have hroot : ∀ i < npar, (P - P %ₘ g).eval (x i) = 0 := by
    intro i hi
    have hmul : g ∣ P - P %ₘ g := ⟨P /ₘ g, by rw [modByMonic_eq_sub_mul_div, sub_sub_cancel]⟩
    have hfactor : X - C (x i) ∣ g := hgdef ▸ Finset.dvd_prod_of_mem _ (Finset.mem_range.mpr hi)
    exact dvd_iff_isRoot.mp (hfactor.trans hmul)
  generalize P - P %ₘ g = Q at hhigh hroot
  refine ⟨Q.coeff, fun i hi => ?_, fun j hj hlt => ?_⟩
  · have hlt : Q.natDegree < bs := by
      rw [Nat.lt_iff_le_pred (by omega), natDegree_le_iff_coeff_eq_zero]
      intro j hj
      rw [hhigh j (by omega), hP, if_neg (by omega)]
    rw [← eval_eq_sum_range' hlt, hroot i hi]
  · rw [hhigh j hj, hP, if_pos hlt, if_pos hj]

end OpenMV.Schemes
