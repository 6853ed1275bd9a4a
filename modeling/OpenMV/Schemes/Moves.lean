import Mathlib.Tactic.Ring
import OpenMV.Schemes.Stores

/-! Copies cell by cell | scheme:encoding

    A loop that copies is the list of its moves, each a cell that is read and a cell that is written.
    If no cell that is read is ever written, the order of the moves does not matter and they are stores
    of what was there at the start. -/

namespace OpenMV.Schemes

abbrev Moves := List (ℤ × ℤ)

/-- The memory after the moves `*p.2 = *p.1` were made in order. -/
def moveAll (mem : ℤ → ℕ) : Moves → ℤ → ℕ
  | [] => mem
  | p :: s => moveAll (Function.update mem p.2 (mem p.1)) s

/-- No cell that is read is one that is written. -/
def ReadsApart (s : Moves) : Prop := ∀ p ∈ s, ∀ q ∈ s, p.1 ≠ q.2

theorem moveAll_eq_storeAll : ∀ {s : Moves} {mem : ℤ → ℕ}, ReadsApart s →
    moveAll mem s = storeAll mem (s.map fun p => (p.2, mem p.1))
  | [], _, _ => rfl
  | p :: s, mem, h => by
    have hrest : ReadsApart s := fun q hq r hr =>
      h q (List.mem_cons_of_mem p hq) r (List.mem_cons_of_mem p hr)
    have hread : ∀ q ∈ s, Function.update mem p.2 (mem p.1) q.1 = mem q.1 := fun q hq =>
      Function.update_of_ne (h q (List.mem_cons_of_mem p hq) p (List.mem_cons_self ..)) ..
    rw [moveAll, moveAll_eq_storeAll hrest, List.map_cons, storeAll]
    congr 1
    refine List.map_congr_left fun q hq => ?_
    rw [hread q hq]

/-- A cell that is written from one place only holds what was there. -/
theorem moveAll_of_mem {s : Moves} {mem : ℤ → ℕ} {p : ℤ × ℤ} (h : ReadsApart s) (hp : p ∈ s)
    (honly : ∀ q ∈ s, q.2 = p.2 → q.1 = p.1) : moveAll mem s p.2 = mem p.1 := by
  rw [moveAll_eq_storeAll h]
  apply storeAll_of_unique (List.mem_map.2 ⟨p, hp, rfl⟩)
  intro v hv
  obtain ⟨q, hq, he⟩ := List.mem_map.1 hv
  rw [Prod.mk.injEq] at he
  rw [← he.2, honly q hq he.1]

theorem moveAll_of_notMem {s : Moves} {mem : ℤ → ℕ} {a : ℤ} (h : ReadsApart s)
    (ha : ∀ p ∈ s, p.2 ≠ a) : moveAll mem s a = mem a := by
  rw [moveAll_eq_storeAll h]
  apply storeAll_of_notMem
  rw [List.map_map, List.mem_map]
  rintro ⟨p, hp, he⟩
  exact ha p hp he

/-! ### Two pointers over a rectangle -/

/-- `n` rounds of a copy with both pointers moved by `step` each time. -/
def rowMoves (step : ℤ) : ℕ → ℤ → ℤ → Moves
  | 0, _, _ => []
  | n + 1, src, dest => (src, dest) :: rowMoves step n (src + step) (dest + step)

/-- `rows` rows of `cols` cells, the next row `srcStep` and `destStep` cells on. -/
def rectMoves (step srcStep destStep : ℤ) (cols : ℕ) : ℕ → ℤ → ℤ → Moves
  | 0, _, _ => []
  | rows + 1, src, dest =>
    rowMoves step cols src dest ++
      rectMoves step srcStep destStep cols rows (src + srcStep) (dest + destStep)

theorem mem_rowMoves {step : ℤ} {p : ℤ × ℤ} : ∀ {n : ℕ} {src dest : ℤ},
    p ∈ rowMoves step n src dest ↔ ∃ i : ℕ, i < n ∧ p = (src + i * step, dest + i * step)
  | 0, _, _ => by simp [rowMoves]
  | n + 1, src, dest => by
    rw [rowMoves, List.mem_cons, mem_rowMoves]
    constructor
    · rintro (rfl | ⟨i, hi, rfl⟩)
      · exact ⟨0, Nat.succ_pos n, by simp⟩
      · refine ⟨i + 1, Nat.succ_lt_succ hi, ?_⟩
        rw [Prod.mk.injEq]
        push_cast
        exact ⟨by ring, by ring⟩
    · rintro ⟨i, hi, rfl⟩
      cases i with
      | zero => exact .inl (by simp)
      | succ i =>
        refine .inr ⟨i, Nat.lt_of_succ_lt_succ hi, ?_⟩
        rw [Prod.mk.injEq]
        push_cast
        exact ⟨by ring, by ring⟩

theorem mem_rectMoves {step srcStep destStep : ℤ} {cols : ℕ} {p : ℤ × ℤ} :
    ∀ {rows : ℕ} {src dest : ℤ}, p ∈ rectMoves step srcStep destStep cols rows src dest ↔
      ∃ j : ℕ, j < rows ∧ ∃ i : ℕ, i < cols ∧
        p = (src + j * srcStep + i * step, dest + j * destStep + i * step)
  | 0, _, _ => by simp [rectMoves]
  | rows + 1, src, dest => by
    rw [rectMoves, List.mem_append, mem_rowMoves, mem_rectMoves]
    constructor
    · rintro (⟨i, hi, rfl⟩ | ⟨j, hj, i, hi, rfl⟩)
      · exact ⟨0, Nat.succ_pos rows, i, hi, by simp⟩
      · refine ⟨j + 1, Nat.succ_lt_succ hj, i, hi, ?_⟩
        rw [Prod.mk.injEq]
        push_cast
        exact ⟨by ring, by ring⟩
    · rintro ⟨j, hj, i, hi, rfl⟩
      cases j with
      | zero => exact .inl ⟨i, hi, by simp⟩
      | succ j =>
        refine .inr ⟨j, Nat.lt_of_succ_lt_succ hj, i, hi, ?_⟩
        rw [Prod.mk.injEq]
        push_cast
        exact ⟨by ring, by ring⟩

end OpenMV.Schemes
