import Mathlib.Algebra.Order.Ring.Int
import Mathlib.Tactic.Basic

/-! Bisection | scheme:search

    Between a value with a property and one without it, halving finds two neighbours of which only the lower one has
    it. Where the property is lost only once, the lower one is the greatest value with it. -/

namespace OpenMV.Schemes

variable (p : ℤ → Bool)

/-- The loop, from its start with `b`: the half that `p b` rules out is given up. -/
def bisect : ℕ → ℤ → ℤ → ℤ → Option ℤ
  | 0, _, _, _ => none
  | fuel + 1, bmin, bmax, b =>
    let (bmin, bmax) := if p b then (b, bmax) else (bmin, b)
    if bmin = bmax - 1 ∨ bmin = bmax then some bmin else bisect fuel bmin bmax ((bmin + bmax).tdiv 2)

variable {p}

theorem tdiv_two_bounds {a : ℤ} (h0 : 0 ≤ a) : a.tdiv 2 * 2 ≤ a ∧ a < a.tdiv 2 * 2 + 2 := by
  rw [Int.tdiv_eq_ediv_of_nonneg h0]
  omega

/-- The two ends differ in the property all the time, and come nearer until they are neighbours. -/
theorem bisect_spec {fuel : ℕ} {bmin bmax : ℤ} (h0 : 0 ≤ bmin) (hlt : bmin < bmax) (hfuel : bmax - bmin < fuel)
    (hmin : p bmin = true) (hmax : p bmax = false) :
    ∃ b, bisect p fuel bmin bmax ((bmin + bmax).tdiv 2) = some b ∧ bmin ≤ b ∧ b < bmax ∧
      p b = true ∧ p (b + 1) = false := by
  induction fuel generalizing bmin bmax with
  | zero => omega
  | succ fuel ih =>
    obtain ⟨hlow, hhigh⟩ := tdiv_two_bounds (a := bmin + bmax) (by omega)
    have hround : ∀ {bmin' bmax' : ℤ}, bmin ≤ bmin' → bmin' < bmax' → bmax' ≤ bmax →
        bmax' - bmin' < bmax - bmin ∨ bmax' - bmin' = 1 → p bmin' = true → p bmax' = false →
        ∃ b, (if bmin' = bmax' - 1 ∨ bmin' = bmax' then some bmin'
          else bisect p fuel bmin' bmax' ((bmin' + bmax').tdiv 2)) = some b ∧ bmin ≤ b ∧ b < bmax ∧
          p b = true ∧ p (b + 1) = false := by
      intro bmin' bmax' hge hlt' hle hnear hmin' hmax'
      by_cases hend : bmin' = bmax' - 1 ∨ bmin' = bmax'
      · have hnext : bmin' + 1 = bmax' := by omega
        exact ⟨bmin', if_pos hend, hge, by omega, hmin', by rwa [hnext]⟩
      · obtain ⟨b, hb, h1, h2, h3⟩ := ih (le_trans h0 hge) hlt' (by omega) hmin' hmax'
        exact ⟨b, by rwa [if_neg hend], le_trans hge h1, lt_of_lt_of_le h2 hle, h3⟩
    cases hp : p ((bmin + bmax).tdiv 2) with
    | true =>
      simp only [bisect, hp, if_true]
      exact hround (by omega) (by omega) le_rfl (by omega) hp hmax
    | false =>
      have hne : bmin ≠ (bmin + bmax).tdiv 2 := fun h => by rw [← h, hmin] at hp; cases hp
      simp only [bisect, hp, Bool.false_eq_true, if_false]
      exact hround le_rfl (by omega) (by omega) (by omega) hmin hp

/-- A property that only small values have: bisection finds the greatest of them. -/
theorem bisect_greatest (fuel : ℕ) {bmin bmax : ℤ} (h0 : 0 ≤ bmin) (hlt : bmin < bmax) (hfuel : bmax - bmin < fuel)
    (hdown : ∀ b b', bmin ≤ b → b ≤ b' → p b' = true → p b = true) (hmin : p bmin = true) (hmax : p bmax = false) :
    ∃ b, bisect p fuel bmin bmax ((bmin + bmax).tdiv 2) = some b ∧ bmin ≤ b ∧ b < bmax ∧
      ∀ b', bmin ≤ b' → (p b' = true ↔ b' ≤ b) := by
  obtain ⟨b, hb, hge, hltb, hpb, hnext⟩ := bisect_spec h0 hlt hfuel hmin hmax
  refine ⟨b, hb, hge, hltb, fun b' hb' => ⟨fun hp => ?_, fun hle => hdown b' b hb' hle hpb⟩⟩
  by_contra hgt
  rw [hdown (b + 1) b' (by omega) (by omega) hp] at hnext
  cases hnext

end OpenMV.Schemes
