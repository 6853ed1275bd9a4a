import Mathlib.Order.Lattice
import Mathlib.Tactic.Basic

/-! The nearest of a list | scheme:fold

    A loop over a list keeps the index of the element with the least value so far. The value to be less than, at the
    start, is given; nothing is found when no element is below it. -/

namespace OpenMV.Schemes

variable {α L : Type*} [LinearOrder L] (d : α → L)

/-- `j` is the index of the head of the list, `nearest` what was found before it, with the value `distance`. -/
def nearestScan : List α → ℕ → L → Option ℕ → Option ℕ
  | [], _, _, nearest => nearest
  | c :: cs, j, distance, nearest =>
    if d c < distance then nearestScan cs (j + 1) (d c) (some j) else nearestScan cs (j + 1) distance nearest

variable {d}

theorem nearestScan_of_le : ∀ {cs : List α} {j : ℕ} {distance : L} {nearest : Option ℕ},
    (∀ c ∈ cs, distance ≤ d c) → nearestScan d cs j distance nearest = nearest
  | [], _, _, _, _ => rfl
  | c :: cs, j, distance, nearest, h => by
      rw [nearestScan, if_neg (h c List.mem_cons_self).not_gt]
      exact nearestScan_of_le fun c' hc' => h c' (List.mem_cons_of_mem c hc')

/-- Before what is found everything is farther, behind it nothing is nearer. -/
theorem nearestScan_of_lt : ∀ {cs : List α} (j : ℕ) {distance : L} (nearest : Option ℕ),
    (∃ c ∈ cs, d c < distance) →
    ∃ l c r, cs = l ++ c :: r ∧ nearestScan d cs j distance nearest = some (j + l.length) ∧ d c < distance ∧
      (∀ c' ∈ l, d c < d c') ∧ ∀ c' ∈ r, d c ≤ d c'
  | [], _, _, _, h => by simp at h
  | c :: cs, j, distance, nearest, h => by
      rw [nearestScan]
      by_cases hc : d c < distance
      · rw [if_pos hc]
        by_cases hcs : ∃ c' ∈ cs, d c' < d c
        · obtain ⟨l, c', r, rfl, hscan, hlt, hl, hr⟩ := nearestScan_of_lt (j + 1) (some j) hcs
          refine ⟨c :: l, c', r, rfl, ?_, hlt.trans hc, ?_, hr⟩
          · rw [hscan, List.length_cons, Nat.add_assoc, Nat.add_comm 1]
          · rintro c'' hc''
            rcases List.mem_cons.mp hc'' with rfl | hc''
            · exact hlt
            · exact hl c'' hc''
        · have hle : ∀ c' ∈ cs, d c ≤ d c' := fun c' hc' => not_lt.mp fun hlt => hcs ⟨c', hc', hlt⟩
          exact ⟨[], c, cs, rfl, nearestScan_of_le hle, hc, by simp, hle⟩
      · rw [if_neg hc]
        have hcs : ∃ c' ∈ cs, d c' < distance := by
          obtain ⟨c', hc', hlt⟩ := h
          rcases List.mem_cons.mp hc' with rfl | hc'
          · exact absurd hlt hc
          · exact ⟨c', hc', hlt⟩
        obtain ⟨l, c', r, rfl, hscan, hlt, hl, hr⟩ := nearestScan_of_lt (j + 1) nearest hcs
        refine ⟨c :: l, c', r, rfl, ?_, hlt, ?_, hr⟩
        · rw [hscan, List.length_cons, Nat.add_assoc, Nat.add_comm 1]
        · rintro c'' hc''
          rcases List.mem_cons.mp hc'' with rfl | hc''
          · exact hlt.trans_le (not_lt.mp hc)
          · exact hl c'' hc''

end OpenMV.Schemes
