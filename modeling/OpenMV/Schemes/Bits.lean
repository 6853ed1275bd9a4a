import Mathlib.Data.Nat.Bitwise

/-! Groups of bits | scheme:regrouping

    A number is its list of bits, least significant first. Numbers put side by side with shifts are lists
    one after the other, and the list can be cut again at other places. -/

namespace OpenMV.Schemes

/-- The `n` low bits. -/
def bits (n x : ℕ) : List Bool := (List.range n).map x.testBit

@[simp] theorem bits_length (n x : ℕ) : (bits n x).length = n := by simp [bits]

@[simp] theorem bits_of_zero (n : ℕ) : bits n 0 = List.replicate n false := by
  simp [bits, List.eq_replicate_iff]

/-- A cut. -/
theorem bits_add (m n x : ℕ) : bits (m + n) x = bits m x ++ bits n (x >>> m) := by
  simp [bits, List.range_add, Nat.testBit_shiftRight, Function.comp_def]

/-- Groups of `w` bits. -/
theorem bits_flatMap (w x : ℕ) : ∀ n : ℕ, (List.range n).flatMap (fun k => bits w (x >>> (w * k))) = bits (w * n) x
  | 0 => by simp [bits]
  | n + 1 => by
      rw [List.range_succ, List.flatMap_append, bits_flatMap w x n, Nat.mul_succ, bits_add]
      simp

/-- Two numbers side by side. -/
theorem bits_or_shiftLeft {a m : ℕ} (ha : a < 2 ^ m) (b n : ℕ) :
    bits (m + n) (a ||| b <<< m) = bits m a ++ bits n b := by
  have hlow : bits m (a ||| b <<< m) = bits m a := by
    refine List.map_congr_left fun i hi => ?_
    rw [List.mem_range] at hi
    simp [Nat.testBit_shiftLeft, hi]
  have hhigh : (a ||| b <<< m) >>> m = b := by
    rw [Nat.shiftRight_or_distrib, Nat.shiftRight_eq_zero a m ha, Nat.shiftLeft_shiftRight, Nat.zero_or]
  rw [bits_add, hlow, hhigh]

theorem bits_of_lt {x m : ℕ} (h : x < 2 ^ m) (n : ℕ) : bits (m + n) x = bits m x ++ List.replicate n false := by
  rw [bits_add, Nat.shiftRight_eq_zero x m h, bits_of_zero]

theorem bits_injective {n x y : ℕ} (hx : x < 2 ^ n) (hy : y < 2 ^ n) (h : bits n x = bits n y) : x = y := by
  refine Nat.eq_of_testBit_eq fun i => ?_
  by_cases hi : i < n
  · exact List.map_inj_left.mp h i (List.mem_range.mpr hi)
  · have hle : 2 ^ n ≤ 2 ^ i := Nat.pow_le_pow_right (by decide) (Nat.not_lt.mp hi)
    rw [Nat.testBit_lt_two_pow (hx.trans_le hle), Nat.testBit_lt_two_pow (hy.trans_le hle)]

/-- Groups of one width are found again. -/
theorem flatMap_bits_injective {n : ℕ} (hn : 0 < n) : ∀ {xs ys : List ℕ}, (∀ x ∈ xs, x < 2 ^ n) →
    (∀ y ∈ ys, y < 2 ^ n) → xs.flatMap (bits n) = ys.flatMap (bits n) → xs = ys
  | [], [], _, _, _ => rfl
  | [], y :: ys, _, _, h => by
      have := congrArg List.length h
      simp at this
      omega
  | x :: xs, [], _, _, h => by
      have := congrArg List.length h
      simp at this
      omega
  | x :: xs, y :: ys, hx, hy, h => by
      rw [List.forall_mem_cons] at hx hy
      obtain ⟨hhead, htail⟩ := List.append_inj h (by simp)
      rw [bits_injective hx.1 hy.1 hhead, flatMap_bits_injective hn hx.2 hy.2 htail]

end OpenMV.Schemes
