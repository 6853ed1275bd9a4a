import Mathlib.Algebra.Polynomial.FieldDivision
import Mathlib.Algebra.Polynomial.Degree.Lemmas
import Mathlib.RingTheory.PrincipalIdealDomain
import Mathlib.Tactic.LinearCombination

/-! The shortest recurrence of a sequence | scheme:invariant

    The algorithm of Berlekamp and Massey goes once along a sequence, here the coefficients of a polynomial `S`. It
    keeps a solution `(C, P)` of `C S = P mod X^n` and a second pair `(D, Q)` that fails at `X^n`, with which the first
    one is mended. A solution without common factor and of less than half the degree is the one that is found. -/

namespace OpenMV.Schemes
open Polynomial

variable {F : Type*} [Field F]

/-- After `n` rounds: the two pairs, the length `L` and the coefficient `b` at which the second pair fails. -/
structure Massey (S : F[X]) (n L : ℕ) (C P D Q : F[X]) (b : F) : Prop where
  le : L ≤ n
  b_ne : b ≠ 0
  C_zero : C.coeff 0 = 1
  D_zero : D.coeff 0 = 0
  C_degree : C.degree ≤ L
  P_degree : P.degree < L
  D_degree : D.degree ≤ (n + 1 - L : ℕ)
  Q_degree : Q.degree < (n + 1 - L : ℕ)
  first : X ^ n ∣ C * S - P
  second : X ^ (n + 1) ∣ D * S - Q - monomial n b

namespace Massey

variable {S C P D Q : F[X]} {n L : ℕ} {b : F}

theorem start (S : F[X]) : Massey S 0 0 1 0 X (-1) 1 where
  le := le_rfl
  b_ne := one_ne_zero
  C_zero := coeff_one_zero
  D_zero := coeff_X_zero
  C_degree := degree_one_le
  P_degree := by simp
  D_degree := by simp
  Q_degree := by simp
  first := by simp
  second := by simp

/-- The discrepancy: what the first pair misses at `X^n`. -/
noncomputable def discrepancy (S C : F[X]) (n : ℕ) : F := (C * S).coeff n

theorem coeff_of_lt (h : Massey S n L C P D Q b) : P.coeff n = 0 :=
  coeff_eq_zero_of_degree_lt (h.P_degree.trans_le (by exact_mod_cast h.le))

/-- One more coefficient of the first pair. -/
theorem first_next (h : Massey S n L C P D Q b) : X ^ (n + 1) ∣ C * S - P - monomial n (discrepancy S C n) := by
  rw [X_pow_dvd_iff]
  intro k hk
  rcases (Nat.le_of_lt_succ hk).lt_or_eq with hlt | rfl
  · have := X_pow_dvd_iff.mp h.first k hlt
    rw [coeff_sub, this, coeff_monomial, if_neg hlt.ne', sub_zero]
  · simp [discrepancy, h.coeff_of_lt]

theorem degree_X_mul {p : F[X]} {k : ℕ} (h : p.degree ≤ k) : (X * p).degree ≤ ((k + 1 : ℕ) : WithBot ℕ) := by
  refine (degree_mul_le _ _).trans ?_
  rw [degree_X, add_comm, Nat.cast_add, Nat.cast_one]
  exact add_le_add_left h 1

theorem degree_X_mul_lt {p : F[X]} {k : ℕ} (h : p.degree < k) : (X * p).degree < ((k + 1 : ℕ) : WithBot ℕ) := by
  by_cases hp : p = 0
  · simp [hp]
  · rw [degree_mul, degree_X, degree_eq_natDegree hp] at *
    have h : p.natDegree < k := by exact_mod_cast h
    exact_mod_cast (by omega : 1 + p.natDegree < k + 1)

theorem X_mul_second {A B M : F[X]} {k : ℕ} (h : X ^ k ∣ A * S - B - M) :
    X ^ (k + 1) ∣ X * A * S - X * B - X * M := by
  obtain ⟨t, ht⟩ := h
  exact ⟨t, by linear_combination X * ht⟩

theorem X_mul_monomial (k : ℕ) (c : F) : X * monomial k c = monomial (k + 1) c := by
  rw [X_mul, monomial_mul_X]

/-- The mended pair. -/
theorem mended (h : Massey S n L C P D Q b) {c : F} (hc : c * b = discrepancy S C n) :
    X ^ (n + 1) ∣ (C - Polynomial.C c * D) * S - (P - Polynomial.C c * Q) := by
  have hmono : Polynomial.C c * monomial n b = monomial n (discrepancy S C n) := by rw [C_mul_monomial, hc]
  obtain ⟨t, ht⟩ := h.first_next
  obtain ⟨u, hu⟩ := h.second
  exact ⟨t - Polynomial.C c * u, by linear_combination ht - Polynomial.C c * hu - hmono⟩

theorem mended_zero (h : Massey S n L C P D Q b) (c : F) : (C - Polynomial.C c * D).coeff 0 = 1 := by
  simp [h.C_zero, h.D_zero]

theorem degree_C_mul_le {p : F[X]} {k : WithBot ℕ} (c : F) (h : p.degree ≤ k) : (Polynomial.C c * p).degree ≤ k :=
  (degree_mul_le _ _).trans (by simpa using add_le_add degree_C_le h)

theorem degree_C_mul_lt {p : F[X]} {k : ℕ} (c : F) (h : p.degree < k) : (Polynomial.C c * p).degree < k :=
  lt_of_le_of_lt (by simpa using (degree_mul_le (Polynomial.C c) p).trans (add_le_add degree_C_le le_rfl)) h

/-- The second pair is moved on. -/
theorem second_moved (h : Massey S n L C P D Q b) :
    (X * D).degree ≤ ((n + 1 + 1 - L : ℕ) : WithBot ℕ) ∧ (X * Q).degree < ((n + 1 + 1 - L : ℕ) : WithBot ℕ) ∧
      X ^ (n + 1 + 1) ∣ X * D * S - X * Q - monomial (n + 1) b := by
  have hle := h.le
  have hsucc : n + 1 + 1 - L = n + 1 - L + 1 := by omega
  rw [hsucc, ← X_mul_monomial]
  exact ⟨degree_X_mul h.D_degree, degree_X_mul_lt h.Q_degree, X_mul_second h.second⟩

/-- No discrepancy. -/
theorem keep (h : Massey S n L C P D Q b) (hd : discrepancy S C n = 0) :
    Massey S (n + 1) L C P (X * D) (X * Q) b := by
  obtain ⟨hD, hQ, hsecond⟩ := h.second_moved
  refine ⟨h.le.trans n.le_succ, h.b_ne, h.C_zero, by simp, h.C_degree, h.P_degree, hD, hQ, ?_, hsecond⟩
  simpa [hd] using h.first_next

/-- A discrepancy that can be mended within the length. -/
theorem mend (h : Massey S n L C P D Q b) {c : F} (hc : c * b = discrepancy S C n) (hlong : n < 2 * L) :
    Massey S (n + 1) L (C - Polynomial.C c * D) (P - Polynomial.C c * Q) (X * D) (X * Q) b := by
  obtain ⟨hD, hQ, hsecond⟩ := h.second_moved
  have hle : n + 1 - L ≤ L := by omega
  refine ⟨h.le.trans n.le_succ, h.b_ne, h.mended_zero c, by simp, ?_, ?_, hD, hQ, h.mended hc, hsecond⟩
  · refine (degree_sub_le _ _).trans (max_le h.C_degree (degree_C_mul_le c (h.D_degree.trans ?_)))
    exact_mod_cast hle
  · refine (degree_sub_le _ _).trans_lt (max_lt h.P_degree (degree_C_mul_lt c (h.Q_degree.trans_le ?_)))
    exact_mod_cast hle

/-- A discrepancy for which the recurrence has to become longer; the first pair becomes the second one. -/
theorem lengthen (h : Massey S n L C P D Q b) {c : F} (hc : c * b = discrepancy S C n)
    (hd : discrepancy S C n ≠ 0) (hshort : 2 * L ≤ n) :
    Massey S (n + 1) (n + 1 - L) (C - Polynomial.C c * D) (P - Polynomial.C c * Q) (X * C) (X * P)
      (discrepancy S C n) := by
  have hle : L ≤ n + 1 - L := by omega
  have hsub : n + 1 + 1 - (n + 1 - L) = L + 1 := by omega
  refine ⟨by omega, hd, h.mended_zero c, by simp, ?_, ?_, ?_, ?_, h.mended hc, ?_⟩
  · refine (degree_sub_le _ _).trans (max_le (h.C_degree.trans ?_) (degree_C_mul_le c h.D_degree))
    exact_mod_cast hle
  · refine (degree_sub_le _ _).trans_lt (max_lt (h.P_degree.trans_le ?_) (degree_C_mul_lt c h.Q_degree))
    exact_mod_cast hle
  · rw [hsub]
    exact degree_X_mul h.C_degree
  · rw [hsub]
    exact degree_X_mul_lt h.P_degree
  · rw [← X_mul_monomial]
    exact X_mul_second h.first_next

/-! ### What is found -/

theorem degree_mul_lt {A B : F[X]} {i j k : ℕ} (hA : A.degree ≤ i) (hB : B.degree < j) (hk : i + j ≤ k) :
    (A * B).degree < k := by
  by_cases hB0 : B = 0
  · simp [hB0]
  by_cases hA0 : A = 0
  · simp [hA0]
  rw [degree_eq_natDegree hA0] at hA
  rw [degree_eq_natDegree hB0] at hB
  rw [degree_mul, degree_eq_natDegree hA0, degree_eq_natDegree hB0]
  have hA : A.natDegree ≤ i := by exact_mod_cast hA
  have hB : B.natDegree < j := by exact_mod_cast hB
  exact_mod_cast (by omega : A.natDegree + B.natDegree < k)

/-- Multiples of `X^k` of a small degree. -/
theorem eq_zero_of_X_pow_dvd {A : F[X]} {k : ℕ} (h : X ^ k ∣ A) (hk : A.degree < k) : A = 0 :=
  eq_zero_of_dvd_of_degree_lt h (by rwa [degree_X_pow])

/-- Two solutions of small degree are the same fraction. -/
theorem cross_eq {A B U V : F[X]} {k : ℕ} (hA : X ^ k ∣ A * S - U) (hB : X ^ k ∣ B * S - V)
    (hAV : (A * V).degree < k) (hBU : (B * U).degree < k) : A * V = B * U := by
  obtain ⟨t, ht⟩ := hA
  obtain ⟨u, hu⟩ := hB
  have hdvd : X ^ k ∣ A * V - B * U := ⟨B * t - A * u, by linear_combination B * ht - A * hu⟩
  exact sub_eq_zero.mp (eq_zero_of_X_pow_dvd hdvd ((degree_sub_le _ _).trans_lt (max_lt hAV hBU)))

/-- The two pairs are as different as they can be. -/
theorem cross_sub (h : Massey S n L C P D Q b) : D * P - C * Q = monomial n b := by
  have hle := h.le
  obtain ⟨t, ht⟩ := h.first_next
  obtain ⟨u, hu⟩ := h.second
  obtain ⟨c, hc⟩ : X ∣ C - 1 := X_dvd_iff.mpr (by simp [h.C_zero])
  obtain ⟨d, hd⟩ : X ∣ D := X_dvd_iff.mpr h.D_zero
  have hmono : ∀ a : F, monomial n a = Polynomial.C a * X ^ n := fun a => (C_mul_X_pow_eq_monomial).symm
  have hdvd : X ^ (n + 1) ∣ D * P - C * Q - monomial n b := by
    refine ⟨C * u - D * t + c * Polynomial.C b - d * Polynomial.C (discrepancy S C n), ?_⟩
    rw [hmono] at ht hu ⊢
    linear_combination C * hu - D * ht + Polynomial.C b * X ^ n * hc -
      Polynomial.C (discrepancy S C n) * X ^ n * hd
  refine sub_eq_zero.mp (eq_zero_of_X_pow_dvd hdvd ?_)
  refine (degree_sub_le _ _).trans_lt (max_lt ((degree_sub_le _ _).trans_lt (max_lt ?_ ?_)) ?_)
  · exact degree_mul_lt h.D_degree h.P_degree (by omega)
  · exact degree_mul_lt h.C_degree h.Q_degree (by omega)
  · exact (degree_monomial_le n b).trans_lt (by exact_mod_cast n.lt_succ_self)

/-- A divisor of `X^n` that is 1 at 0. -/
theorem eq_one_of_dvd_X_pow {R : F[X]} (hR : R ∣ X ^ n) (h0 : R.coeff 0 = 1) : R = 1 := by
  have hX : ¬ X ∣ R := by rw [X_dvd_iff, h0]; exact one_ne_zero
  have hcop : IsCoprime R (X ^ n) :=
    ((irreducible_X : Irreducible (X : F[X])).coprime_iff_not_dvd.mpr hX).symm.pow_right
  have hunit : IsUnit R := hcop.isUnit_of_dvd' dvd_rfl hR
  obtain ⟨r, -, rfl⟩ := isUnit_iff.mp hunit
  rw [coeff_C_zero] at h0
  rw [h0, map_one]

/-- A solution without common factor that is short enough is the first pair. -/
theorem unique (h : Massey S n L C P D Q b) {Λ Ω : F[X]} {v : ℕ} (hΛ : Λ.coeff 0 = 1) (hdeg : Λ.degree ≤ v)
    (hΩ : Ω.degree < v) (hkey : X ^ n ∣ Λ * S - Ω) (hcop : IsCoprime Λ Ω) (hv : 2 * v ≤ n) : C = Λ := by
  have hle := h.le
  have hΛ0 : Λ ≠ 0 := by rintro rfl; simp at hΛ
  rcases le_or_gt (L + v) n with hshort | hlong
  · -- the two fractions are the same, and the one without common factor divides the other
    have hcross : Λ * P = C * Ω := cross_eq hkey h.first
      (degree_mul_lt hdeg h.P_degree (by omega)) (degree_mul_lt h.C_degree hΩ hshort)
    obtain ⟨R, rfl⟩ : Λ ∣ C := hcop.dvd_of_dvd_mul_right ⟨P, hcross.symm⟩
    obtain rfl : P = R * Ω := mul_left_cancel₀ hΛ0 (by rw [hcross, mul_assoc])
    have hR : R ∣ X ^ n := by
      have hsub : R * (D * Ω - Λ * Q) = Polynomial.C b * X ^ n := by
        rw [C_mul_X_pow_eq_monomial, ← h.cross_sub]
        ring
      have hdvd : R ∣ Polynomial.C b * X ^ n := ⟨_, hsub.symm⟩
      exact (isUnit_C.mpr (isUnit_iff_ne_zero.mpr h.b_ne)).dvd_mul_left.mp hdvd
    have hR0 : R.coeff 0 = 1 := by simpa [mul_coeff_zero, hΛ] using h.C_zero
    rw [eq_one_of_dvd_X_pow hR hR0, mul_one]
  · -- otherwise the second pair is short, and it would be a multiple, which it is not at `X^n`
    have hmono : (X ^ n : F[X]) ∣ monomial n b := ⟨Polynomial.C b, by rw [← C_mul_X_pow_eq_monomial, mul_comm]⟩
    have hsecond : X ^ n ∣ D * S - Q := by
      have := ((pow_dvd_pow X n.le_succ).trans h.second).add hmono
      rwa [sub_add_cancel] at this
    have hcross : Λ * Q = D * Ω := cross_eq hkey hsecond
      (degree_mul_lt hdeg h.Q_degree (by omega)) (degree_mul_lt h.D_degree hΩ (by omega))
    obtain ⟨R, rfl⟩ : Λ ∣ D := hcop.dvd_of_dvd_mul_right ⟨Q, hcross.symm⟩
    obtain rfl : Q = R * Ω := mul_left_cancel₀ hΛ0 (by rw [hcross, mul_assoc])
    obtain ⟨r, rfl⟩ : X ∣ R := X_dvd_iff.mpr (by simpa [mul_coeff_zero, hΛ] using h.D_zero)
    obtain ⟨t, ht⟩ := hkey
    obtain ⟨u, hu⟩ := h.first
    have hdvd : X ^ (n + 1) ∣ monomial n b := by
      rw [← h.cross_sub]
      exact ⟨r * (C * t - Λ * u), by linear_combination r * X * (C * ht - Λ * hu)⟩
    have := X_pow_dvd_iff.mp hdvd n n.lt_succ_self
    rw [coeff_monomial_same] at this
    exact absurd this h.b_ne

end Massey

end OpenMV.Schemes
