import Mathlib.Algebra.BigOperators.Group.Finset.Basic
import Mathlib.Algebra.BigOperators.Group.Finset.Piecewise
import Mathlib.Algebra.BigOperators.Group.Finset.Sigma
import Mathlib.Data.Finset.Range
import Mathlib.Tactic.Linarith

/-! Rebinning of histograms | scheme:histogram

    A table over `c` positions that is kept in `n ≤ c` bins has position `i` in bin `i * n / c`. Going
    over the positions of such a table and adding up what is found there in another one counts a bin
    several times, unless it is emptied when it is first met. `Gathers` says what the outcome should
    be: each entry of the old tables goes to exactly one entry of the new one. -/

namespace OpenMV.Schemes.Rebin

/-! ### Positions and bins -/

/-- The bin of position `i`, for `c` positions in `n` bins. -/
def bin (n c i : ℕ) : ℕ := i * n / c

theorem bin_lt {n c i : ℕ} (hn : 0 < n) (hi : i < c) : bin n c i < n := by
  unfold bin
  rw [Nat.div_lt_iff_lt_mul (by omega), mul_comm n c]
  exact Nat.mul_lt_mul_of_pos_right hi hn

/-- No bin is left out. -/
theorem exists_bin_eq {n c j : ℕ} (hnc : n ≤ c) (hj : j < n) : ∃ i < c, bin n c i = j := by
  -- the first position at or behind the left edge `j * c / n` of the bin
  have hn : 0 < n := by omega
  have hlow : j * c ≤ (j * c + (n - 1)) / n * n := by
    have := Nat.lt_div_mul_add hn (a := j * c + (n - 1))
    omega
  have hhigh : (j * c + (n - 1)) / n * n ≤ j * c + (n - 1) := Nat.div_mul_le_self _ _
  have hnext : j * c + c ≤ n * c := by
    calc j * c + c = (j + 1) * c := (Nat.succ_mul j c).symm
      _ ≤ n * c := Nat.mul_le_mul_right c hj
  refine ⟨(j * c + (n - 1)) / n, ?_, ?_⟩
  · refine Nat.lt_of_mul_lt_mul_right (a := n) ?_
    rw [mul_comm c n]
    omega
  · unfold bin
    rw [Nat.div_eq_iff (by omega)]
    omega

/-! ### Tables -/

section Tables

variable {κ ι M : Type*} [DecidableEq ι] [AddCommMonoid M]

/-- Each entry `k ∈ K` of the table `h` is added once, to the entry `φ k ∈ J` of the table `n`. -/
structure Gathers (φ : κ → ι) (K : Finset κ) (h : κ → M) (J : Finset ι) (n : ι → M) : Prop where
  mem : ∀ k ∈ K, φ k ∈ J
  eq : ∀ j ∈ J, n j = ∑ k ∈ K, if φ k = j then h k else 0

theorem Gathers.sum {φ : κ → ι} {K : Finset κ} {h : κ → M} {J : Finset ι} {n : ι → M}
    (hg : Gathers φ K h J n) : ∑ j ∈ J, n j = ∑ k ∈ K, h k := by
  rw [Finset.sum_congr rfl hg.eq, Finset.sum_comm]
  refine Finset.sum_congr rfl fun k hk => ?_
  rw [Finset.sum_ite_eq, if_pos (hg.mem k hk)]

variable [DecidableEq κ]

/-- The move of entry `m.1` of the first table to entry `m.2` of the second. -/
def carry (s : (κ → M) × (ι → M)) (m : κ × ι) : (κ → M) × (ι → M) :=
  (Function.update s.1 m.1 0, Function.update s.2 m.2 (s.2 m.2 + s.1 m.1))

/-- After a list of moves each entry is where its first move has taken it. -/
theorem foldl_carry (K : Finset κ) (j : ι) : ∀ (ms : List (κ × ι)) (h : κ → M) (n : ι → M),
    (∀ m ∈ ms, m.1 ∈ K) →
    (ms.foldl carry (h, n)).2 j = n j + ∑ k ∈ K, if ms.lookup k = some j then h k else 0
  | [], h, n, _ => by simp
  | (k₀, j₀) :: ms, h, n, hK => by
      obtain ⟨hk₀, hrest⟩ := List.forall_mem_cons.mp hK
      rw [List.foldl_cons, carry, foldl_carry K j ms _ _ hrest]
      -- the entry that is moved is taken out of both sums
      rw [← Finset.add_sum_erase K _ hk₀, ← Finset.add_sum_erase K _ hk₀, ← add_assoc, ← add_assoc]
      congr 1
      · simp only [Function.update_apply, List.lookup_cons_self, Option.some.injEq, eq_comm (a := j)]
        split_ifs with h1 <;> simp [h1]
      · refine Finset.sum_congr rfl fun k hk => ?_
        have hne := Finset.ne_of_mem_erase hk
        have hbeq : (k == k₀) = false := beq_eq_false_iff_ne.mpr hne
        rw [Function.update_of_ne hne, List.lookup_cons, hbeq]

/-- Moves that meet every entry gather the table. -/
theorem gathers_foldl_carry [Nonempty ι] {K : Finset κ} {J : Finset ι} {ms : List (κ × ι)} (h : κ → M)
    (hin : ∀ m ∈ ms, m.1 ∈ K ∧ m.2 ∈ J) (hall : ∀ k ∈ K, ∃ j, (k, j) ∈ ms) :
    ∃ φ, Gathers φ K h J (ms.foldl carry (h, fun _ => 0)).2 := by
  have hsome : ∀ k ∈ K, ∃ j ∈ J, ms.lookup k = some j := by
    intro k hk
    obtain ⟨j, hj⟩ := hall k hk
    have hlook : (ms.lookup k).isSome := List.lookup_isSome_iff.mpr ⟨(k, j), hj, beq_self_eq_true k⟩
    obtain ⟨j', hj'⟩ := Option.isSome_iff_exists.mp hlook
    obtain ⟨l₁, l₂, hms, -⟩ := List.lookup_eq_some_iff.mp hj'
    exact ⟨j', (hin (k, j') (by simp [hms])).2, hj'⟩
  choose! φ hφ hlook using hsome
  refine ⟨φ, hφ, fun j _ => ?_⟩
  rw [foldl_carry K j ms h _ fun m hm => (hin m hm).1, zero_add]
  refine Finset.sum_congr rfl fun k hk => ?_
  simp [hlook k hk]

end Tables

end OpenMV.Schemes.Rebin
