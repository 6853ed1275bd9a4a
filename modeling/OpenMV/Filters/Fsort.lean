import OpenMV.Schemes.SortingNetwork

/-! Sorting nine and twenty-five values | scheme:sorting network | source:src/src/openmv/omv/img/fsort.c

    The filters sort the pixels under small kernels with fixed networks. That for 25 values sorts the first twelve and
    the last thirteen, with steps of the two interleaved, before it merges them. -/

namespace OpenMV.Filters
open Schemes

/-! ### The code -/

section Code
variable {α : Type*} [LinearOrder α]

/-- `cmpswp(data+a, data+b)` -/
def cmpswp (a b : ℕ) (data : ℕ → α) : ℕ → α :=
  if data b < data a then
    let tmp := data a
    Function.update (Function.update data a (data b)) b tmp
  else data

/-- The calls of `fsort9`, in order. -/
def fsort9Calls : List (ℕ × ℕ) :=
  [(0, 1), (3, 4), (6, 7),
   (1, 2), (4, 5), (7, 8),
   (0, 1), (3, 4), (6, 7), (2, 5),
   (0, 3), (1, 4), (5, 8),
   (3, 6), (4, 7), (2, 5),
   (0, 3), (1, 4), (5, 7), (2, 6),
   (1, 3), (4, 6),
   (2, 4), (5, 6),
   (2, 3)]

/-- The calls of `fsort25`, in order. -/
def fsort25Calls : List (ℕ × ℕ) :=
  [(1, 2), (4, 5), (7, 8), (10, 11), (13, 14), (16, 17), (19, 20), (21, 22), (23, 24),
   (0, 2), (3, 5), (6, 8), (9, 11), (12, 14), (15, 17), (18, 20), (21, 23), (22, 24),
   (0, 1), (3, 4), (2, 5), (6, 7), (9, 10), (8, 11), (12, 13), (15, 16), (14, 17), (18, 19), (22, 23), (20, 24),
   (0, 3), (1, 4), (6, 9), (7, 10), (5, 11), (12, 15), (13, 16), (18, 22), (19, 23), (17, 24),
   (2, 4), (1, 3), (8, 10), (7, 9), (0, 6), (14, 16), (13, 15), (18, 21), (20, 23), (11, 24),
   (2, 3), (8, 9), (1, 7), (4, 10), (14, 15), (19, 21), (20, 22), (16, 23),
   (2, 8), (1, 6), (3, 9), (5, 10), (20, 21), (12, 19), (15, 22), (17, 23),
   (2, 7), (4, 9), (12, 18), (13, 20), (14, 21), (16, 22), (10, 23),
   (2, 6), (5, 9), (4, 7), (14, 20), (13, 18), (17, 22), (11, 23),
   (3, 6), (5, 8), (14, 19), (16, 20), (17, 21), (0, 13), (9, 22),
   (5, 7), (4, 6), (14, 18), (15, 19), (17, 20), (0, 12), (8, 21), (10, 22),
   (5, 6), (15, 18), (17, 19), (1, 14), (7, 20), (11, 22),
   (16, 18), (2, 15), (1, 12), (6, 19), (8, 20), (11, 21),
   (17, 18), (2, 14), (3, 16), (7, 19), (10, 20),
   (2, 13), (4, 17), (5, 18), (8, 19), (11, 20),
   (2, 12), (5, 17), (4, 16), (3, 13), (9, 19),
   (5, 16), (3, 12), (4, 14), (10, 19),
   (5, 15), (4, 12), (11, 19), (9, 16), (10, 17),
   (5, 14), (8, 15), (11, 18), (10, 16),
   (5, 13), (7, 14), (11, 17),
   (5, 12), (6, 13), (8, 14), (11, 16),
   (6, 12), (8, 13), (10, 14), (11, 15),
   (7, 12), (9, 13), (11, 14),
   (8, 12), (11, 13),
   (9, 12),
   (10, 12),
   (11, 12)]

def fsort9 (data : ℕ → α) : ℕ → α := fsort9Calls.foldl (fun data p => cmpswp p.1 p.2 data) data

def fsort25 (data : ℕ → α) : ℕ → α := fsort25Calls.foldl (fun data p => cmpswp p.1 p.2 data) data

/-- The first `n` values are in order and those of before, and the values behind them stay. -/
structure SortsFirst (n : ℕ) (before after : ℕ → α) : Prop where
  sorted : ∀ i, i + 1 < n → after i ≤ after (i + 1)
  perm : ((List.range n).map after).Perm ((List.range n).map before)
  rest : ∀ i, n ≤ i → after i = before i

end Code

section Proofs
variable {α : Type*} [LinearOrder α]

theorem cmpswp_eq (p : ℕ × ℕ) (data : ℕ → α) : cmpswp p.1 p.2 data = Network.compareSwap p data := by
  funext i
  unfold Network.compareSwap
  by_cases hlt : data p.2 < data p.1
  · rw [cmpswp, if_pos hlt, min_eq_right hlt.le, max_eq_left hlt.le]
    simp only [Function.update_apply]
    by_cases hi2 : i = p.2
    · have hi1 : i ≠ p.1 := by
        rintro hi1
        rw [← hi1, ← hi2] at hlt
        exact lt_irrefl _ hlt
      rw [if_pos hi2, if_neg hi1, if_pos hi2]
    · rw [if_neg hi2, if_neg hi2]
  · have hle := not_lt.mp hlt
    rw [cmpswp, if_neg hlt, min_eq_left hle, max_eq_right hle]
    split_ifs with hi1 hi2
    · rw [hi1]
    · rw [hi2]
    · rfl

theorem foldl_cmpswp (calls : List (ℕ × ℕ)) (data : ℕ → α) :
    calls.foldl (fun data p => cmpswp p.1 p.2 data) data = Network.run calls data := by
  simp only [cmpswp_eq]
  rfl

/-- A network whose plan works out sorts. -/
theorem sortsFirst_of_plan {calls : List (ℕ × ℕ)} {n : ℕ} {plan : Network.Plan} (hplan : plan.sorts calls 0 n = true)
    (data : ℕ → α) : SortsFirst n data (calls.foldl (fun data p => cmpswp p.1 p.2 data) data) := by
  have hcalls : ∀ p ∈ calls, p.1 < n ∧ p.2 < n := by
    intro p hp
    obtain ⟨⟨-, h1⟩, -, h2⟩ := Network.inside_iff.mp (plan.inside_of_sorts hplan p hp)
    exact ⟨h1, h2⟩
  rw [foldl_cmpswp]
  have hsorted := Network.zero_one (plan.sorts_sound hplan) data
  exact ⟨fun i hi => hsorted i (Nat.zero_le i) hi, Network.run_perm hcalls data,
    fun i hi => Network.run_of_le hcalls hi⟩

theorem fsort9_plan : Network.Plan.all.sorts fsort9Calls 0 9 = true := by decide +kernel

/-- Twelve and thirteen values, each again in halves. -/
theorem fsort25_plan :
    (Network.Plan.split 12 (.split 6 .all .all) (.split 18 .all .all)).sorts fsort25Calls 0 25 = true := by
  refine Network.Plan.sorts_split (by decide) ?_ ?_ ?_ ?_ ?_
  · decide +kernel
  · decide +kernel
  · decide +kernel
  · decide +kernel
  · decide +kernel

/-- Both networks sort. -/
theorem fsort9_fsort25_sort (data : ℕ → α) :
    SortsFirst 9 data (fsort9 data) ∧ SortsFirst 25 data (fsort25 data) :=
  ⟨sortsFirst_of_plan fsort9_plan data, sortsFirst_of_plan fsort25_plan data⟩

end Proofs

end OpenMV.Filters
