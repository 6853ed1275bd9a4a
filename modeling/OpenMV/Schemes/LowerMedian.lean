import Mathlib.Algebra.BigOperators.Group.Finset.Basic
import Mathlib.Algebra.Ring.Int.Defs
import Mathlib.Order.Monotone.Basic
import Mathlib.Tactic.Ring
import OpenMV.Schemes.CheckedRun

/-! Lower medians | scheme:histogram

    The lower median of a list of integers is found with a counter for each value: add the counters up until half
    of the list is reached. `bump` is a counter that is not there outside its array, and that wraps. -/

namespace OpenMV.Schemes

/-! ### Medians -/

/-- Half of the list, rounded up, is up to `v`, and less than that is below it. -/
def IsLowerMedian {α : Type} [LinearOrder α] (l : List α) (v : α) : Prop :=
  l.countP (· < v) < (l.length + 1) / 2 ∧ (l.length + 1) / 2 ≤ l.countP (· ≤ v)

theorem isLowerMedian_map {α β : Type} [LinearOrder α] [LinearOrder β] {f : α → β} (hf : StrictMono f) (l : List α)
    (v : α) : IsLowerMedian (l.map f) (f v) ↔ IsLowerMedian l v := by
  simp only [IsLowerMedian, List.countP_map, List.length_map, Function.comp_def, hf.lt_iff_lt, hf.le_iff_le]

/-- All differences of an element and a later one. -/
def differences : List ℤ → List ℤ
  | [] => []
  | a :: l => (l.map fun b => a - b) ++ differences l

theorem two_mul_length_differences : ∀ l : List ℤ, 2 * (differences l).length = l.length * (l.length - 1)
  | [] => rfl
  | a :: l => by
      rw [differences, List.length_append, List.length_map, mul_add, two_mul_length_differences l, List.length_cons,
        Nat.add_sub_cancel]
      cases l.length with
      | zero => rfl
      | succ n =>
        rw [Nat.add_sub_cancel]
        ring

theorem length_differences (l : List ℤ) : (differences l).length = l.length * (l.length - 1) / 2 := by
  rw [← two_mul_length_differences, Nat.mul_div_cancel_left _ (by decide)]

theorem mem_differences {d : ℤ} : ∀ {l : List ℤ}, d ∈ differences l → ∃ a ∈ l, ∃ b ∈ l, d = a - b
  | [], h => absurd h List.not_mem_nil
  | a :: l, h => by
      rcases List.mem_append.mp h with h | h
      · obtain ⟨b, hb, rfl⟩ := List.mem_map.mp h
        exact ⟨a, List.mem_cons_self, b, List.mem_cons_of_mem a hb, rfl⟩
      · obtain ⟨b, hb, c, hc, rfl⟩ := mem_differences h
        exact ⟨b, List.mem_cons_of_mem a hb, c, List.mem_cons_of_mem a hc, rfl⟩

/-! ### Counters -/

/-- `array[i]++`. There is nothing outside the array. -/
def bump (wrap : ℤ → ℤ) (len : ℤ) (array : ℤ → ℤ) (i : ℤ) : Option (ℤ → ℤ) :=
  if 0 ≤ i ∧ i < len then some (Function.update array i (wrap (array i + 1))) else none

/-- The counters hold how often each index was in `is`. -/
structure Counts (wrap : ℤ → ℤ) (len : ℤ) (is : List ℤ) (array : ℤ → ℤ) : Prop where
  inside : ∀ i ∈ is, 0 ≤ i ∧ i < len
  count : ∀ i, array i = wrap (is.count i)

section Counters

variable {wrap : ℤ → ℤ} {len : ℤ} {is js : List ℤ} {array : ℤ → ℤ}

theorem counts_nil (h0 : wrap 0 = 0) : Counts wrap len [] fun _ => 0 :=
  ⟨fun _ h => absurd h List.not_mem_nil, fun _ => h0.symm⟩

theorem Counts.bump (hwrap : ∀ a, wrap (wrap a + 1) = wrap (a + 1)) (h : Counts wrap len is array) {i : ℤ}
    (hi : 0 ≤ i ∧ i < len) : ∃ array', Schemes.bump wrap len array i = some array' ∧
      Counts wrap len (is ++ [i]) array' := by
  refine ⟨_, if_pos hi, ?_, fun k => ?_⟩
  · intro k hk
    rcases List.mem_append.mp hk with hk | hk
    · exact h.inside k hk
    · exact List.mem_singleton.mp hk ▸ hi
  · rw [List.count_append]
    by_cases hki : k = i
    · subst hki
      rw [Function.update_self, h.count, hwrap, List.count_singleton_self]
      rfl
    · have hnone : [i].count k = 0 := List.count_eq_zero_of_not_mem (by simpa using hki)
      rw [Function.update_of_ne hki, h.count, hnone, add_zero]

theorem Counts.foldlM (hwrap : ∀ a, wrap (wrap a + 1) = wrap (a + 1)) (h : Counts wrap len is array)
    (hjs : ∀ i ∈ js, 0 ≤ i ∧ i < len) :
    ∃ array', js.foldlM (Schemes.bump wrap len) array = some array' ∧ Counts wrap len (is ++ js) array' :=
  foldlM_carries (Counts wrap len) h fun i hi _ _ hcounts => hcounts.bump hwrap (hjs i hi)

theorem countP_lt_add_one : ∀ (l : List ℤ) (i : ℤ), l.countP (· < i + 1) = l.countP (· < i) + l.count i
  | [], _ => rfl
  | a :: l, i => by
      rw [List.countP_cons, List.countP_cons, List.count_cons, countP_lt_add_one l i]
      rcases lt_trichotomy a i with h | h | h
      · simp [h, h.ne, show a < i + 1 by omega]
        omega
      · subst h
        simp
        omega
      · simp [h.ne', show ¬a < i by omega, show ¬a < i + 1 by omega]

theorem sum_count : ∀ {is : List ℤ}, (∀ i ∈ is, 0 ≤ i ∧ i < len) →
    ∑ i ∈ Finset.range len.toNat, (is.count (i : ℤ) : ℤ) = is.length
  | [], _ => by simp
  | a :: is, h => by
      obtain ⟨h0, h1⟩ := h a List.mem_cons_self
      have ih := sum_count fun i hi => h i (List.mem_cons_of_mem a hi)
      have hone : ∑ i ∈ Finset.range len.toNat, (if a = (i : ℤ) then 1 else 0 : ℤ) = 1 := by
        rw [Finset.sum_eq_single a.toNat]
        · rw [if_pos (by omega)]
        · intro i _ hi
          exact if_neg (by omega)
        · intro hn
          exact absurd (Finset.mem_range.mpr (by omega)) hn
      have hcons : ∀ i : ℕ, ((a :: is).count (i : ℤ) : ℤ) = is.count (i : ℤ) + if a = (i : ℤ) then 1 else 0 := by
        intro i
        rw [List.count_cons]
        simp only [beq_iff_eq]
        push_cast
        rfl
      rw [Finset.sum_congr rfl fun i _ => hcons i, Finset.sum_add_distrib, ih, hone, List.length_cons]
      push_cast
      rfl

/-- The counters that fit add up to the number of indexes. -/
theorem Counts.sum (h : Counts wrap len is array) (hfit : ∀ k : ℕ, k ≤ is.length → wrap k = k) :
    ∑ i ∈ Finset.range len.toNat, array i = is.length := by
  rw [← sum_count h.inside]
  exact Finset.sum_congr rfl fun i _ => by rw [h.count, hfit _ List.count_le_length]

/-! ### The search -/

/-- Go on to the counter with which `threshold` is reached; the last one, if there is none. -/
def medianScan (wrap : ℤ → ℤ) (array : ℤ → ℤ) (threshold : ℤ) : ℕ → ℤ → ℤ → ℤ
  | 0, i, _ => i - 1
  | rem + 1, i, count =>
    if count < threshold ∧ threshold ≤ wrap (count + array i) then i
    else medianScan wrap array threshold rem (i + 1) (wrap (count + array i))

theorem medianScan_spec (h : Counts wrap len is array) (hfit : ∀ k : ℕ, k ≤ is.length → wrap k = k) {threshold : ℤ}
    (hle : threshold ≤ is.length) : ∀ (rem : ℕ) (i : ℤ), i + rem = len → (is.countP (· < i) : ℤ) < threshold →
    (is.countP (· < medianScan wrap array threshold rem i (is.countP (· < i))) : ℤ) < threshold ∧
      threshold ≤ is.countP (· ≤ medianScan wrap array threshold rem i (is.countP (· < i)))
  | 0, i, hi, hlt => by
      have hall : is.countP (· < i) = is.length :=
        List.countP_eq_length.mpr fun a ha => decide_eq_true (by have := h.inside a ha; omega)
      omega
  | rem + 1, i, hi, hlt => by
      have hnext : wrap (is.countP (· < i) + array i) = (is.countP (· < i + 1) : ℕ) := by
        rw [h.count, hfit _ List.count_le_length, ← Nat.cast_add, ← countP_lt_add_one, hfit _ List.countP_le_length]
      rw [medianScan, hnext]
      split
      · rename_i hfound
        have hcount : is.countP (· ≤ i) = is.countP (· < i + 1) := by simp only [Int.lt_add_one_iff]
        exact ⟨hlt, hcount ▸ hfound.2⟩
      · exact medianScan_spec h hfit hle rem (i + 1) (by push_cast at hi; omega) (by omega)

end Counters

end OpenMV.Schemes
