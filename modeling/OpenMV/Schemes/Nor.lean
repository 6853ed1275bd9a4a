import Mathlib.Data.Nat.Notation
import Mathlib.Tactic.Ring

/-! NOR flash | scheme:memory

    A chip is an array of bytes. Erasing sets an aligned block to ones, and programming can only turn ones
    into zeros: the data is put on top of what is there. A page that is programmed from its middle goes on
    at its own start. -/

namespace OpenMV.Schemes.Nor

abbrev Chip := ℕ → UInt8

/-- The block of `n` bytes that holds the address `a` is erased. -/
def erase (n : ℕ) (c : Chip) (a : ℕ) : Chip := fun x => if x / n = a / n then 0xFF else c x

/-- A whole page of `n` bytes is programmed, beginning at the address `a`. -/
def programPage (n : ℕ) (c : Chip) (a : ℕ) (data : ℕ → UInt8) : Chip := fun x =>
  if x / n = a / n then c x &&& data ((x % n + n - a % n) % n) else c x

/-- `k` pages one after the other. -/
def programPages (n : ℕ) : ℕ → Chip → ℕ → (ℕ → UInt8) → Chip
  | 0, c, _, _ => c
  | k + 1, c, a, data => programPages n k (programPage n c a data) (a + n) fun i => data (i + n)

theorem and_ones (x : UInt8) : 0xFF &&& x = x := by
  rw [UInt8.and_comm]
  exact UInt8.and_neg_one

theorem same_block {n : ℕ} (hn : 0 < n) {a : ℕ} (ha : a % n = 0) (x : ℕ) :
    x / n = a / n ↔ a ≤ x ∧ x < a + n := by
  have h1 := Nat.div_add_mod a n
  have h2 := Nat.div_add_mod x n
  have h3 := Nat.mod_lt x hn
  constructor
  · intro h
    rw [h] at h2
    omega
  · rintro ⟨h4, h5⟩
    rw [Nat.div_eq_iff hn, Nat.mul_comm]
    omega

theorem erase_apply {n : ℕ} (hn : 0 < n) (c : Chip) {a : ℕ} (ha : a % n = 0) (x : ℕ) :
    erase n c a x = if a ≤ x ∧ x < a + n then 0xFF else c x := by
  rw [erase, if_congr (same_block hn ha x) rfl rfl]

theorem programPage_apply {n : ℕ} (hn : 0 < n) (c : Chip) {a : ℕ} (ha : a % n = 0) (data : ℕ → UInt8)
    (x : ℕ) : programPage n c a data x = if a ≤ x ∧ x < a + n then c x &&& data (x - a) else c x := by
  rw [programPage, if_congr (same_block hn ha x) rfl rfl]
  by_cases hin : a ≤ x ∧ x < a + n
  · have h1 := Nat.div_add_mod a n
    have h2 := Nat.div_add_mod x n
    have hoff : (x % n + n - a % n) % n = x - a := by
      rw [ha, Nat.sub_zero, Nat.add_mod_right, Nat.mod_mod]
      rw [(same_block hn ha x).2 hin] at h2
      omega
    rw [if_pos hin, if_pos hin, hoff]
  · rw [if_neg hin, if_neg hin]

/-- Pages that begin at a page are programmed as one piece. -/
theorem programPages_apply {n : ℕ} (hn : 0 < n) (x : ℕ) : ∀ (k : ℕ) (c : Chip) {a : ℕ}, a % n = 0 →
    ∀ data : ℕ → UInt8, programPages n k c a data x =
      if a ≤ x ∧ x < a + k * n then c x &&& data (x - a) else c x
  | 0, c, a, _, data => by
    rw [programPages, if_neg (by omega)]
  | k + 1, c, a, ha, data => by
    rw [programPages, programPages_apply hn x k _ (by rw [Nat.add_mod_right]; exact ha),
      programPage_apply hn c ha, Nat.add_mul, Nat.one_mul]
    by_cases h1 : a ≤ x ∧ x < a + n
    · rw [if_neg (by omega), if_pos h1, if_pos (by omega)]
    · by_cases h2 : a + n ≤ x ∧ x < a + n + k * n
      · rw [if_pos h2, if_neg h1, if_pos (by omega), show x - (a + n) + n = x - a by omega]
      · rw [if_neg h2, if_neg h1, if_neg (by omega)]

end OpenMV.Schemes.Nor
