import Mathlib.Algebra.Order.Ring.Nat
import Mathlib.Data.List.Basic

/-! Batches | scheme:fold

    A run over `h` items that takes in one after the other, and after every `m` of them and after the last one
    hands out what it has and starts anew. -/

namespace OpenMV.Schemes

variable {σ α β : Type}

/-- `hand g s` is what is handed out of `s` for batch `g`, and `clear s` what is left of it. -/
structure Batches (σ α β : Type) where
  m : ℕ
  h : ℕ
  add : σ → α → σ
  clear : σ → σ
  hand : ℕ → σ → List β

structure BatchState (σ β : Type) where
  acc : σ
  out : List β
  count : ℕ

namespace Batches

variable (B : Batches σ α β)

def step (s : BatchState σ β) (a : α) : BatchState σ β :=
  if s.count + 1 = B.h ∨ (s.count + 1) % B.m = 0 then
    ⟨B.clear (B.add s.acc a), s.out ++ B.hand (s.count / B.m) (B.add s.acc a), s.count + 1⟩
  else ⟨B.add s.acc a, s.out, s.count + 1⟩

/-- The first `n` items of batch `g`. -/
def batch (zero : σ) (items : ℕ → α) (g n : ℕ) : σ :=
  (List.range n).foldl (fun s i => B.add s (items (g * B.m + i))) zero

theorem batch_succ (zero : σ) (items : ℕ → α) (g n : ℕ) :
    B.batch zero items g (n + 1) = B.add (B.batch zero items g n) (items (g * B.m + n)) := by
  rw [batch, List.range_succ, List.foldl_append]
  rfl

/-- What is handed out: one batch after the other, of `m` items, or fewer at the end. -/
def handed (zero : σ) (items : ℕ → α) : List β :=
  (List.range ((B.h + (B.m - 1)) / B.m)).flatMap fun g =>
    B.hand g (B.batch zero items g (min (B.h - g * B.m) B.m))

/-- An item is the last of its batch, or it is followed by another one of it. -/
theorem div_mod_succ {m : ℕ} (hm : 0 < m) (k : ℕ) :
    (k % m + 1 = m ∧ (k + 1) / m = k / m + 1 ∧ (k + 1) % m = 0) ∨
      (k % m + 1 ≠ m ∧ (k + 1) / m = k / m ∧ (k + 1) % m = k % m + 1) := by
  have hdiv := Nat.mod_add_div k m
  have hlt := Nat.mod_lt k hm
  by_cases hlast : k % m + 1 = m
  · refine .inl ⟨hlast, (Nat.div_mod_unique hm).mpr ⟨?_, hm⟩⟩
    rw [Nat.mul_succ]
    omega
  · exact .inr ⟨hlast, (Nat.div_mod_unique hm).mpr ⟨by omega, by omega⟩⟩

section Run

variable {B} {zero : σ} {items : ℕ → α} (hm : 0 < B.m) (P : σ → Prop) (hzero : P zero)
  (hadd : ∀ s a, P s → P (B.add s a)) (hclear : ∀ s, P s → B.clear s = zero)
include hm hzero hadd hclear

omit hm hclear in
theorem batch_property (g n : ℕ) : P (B.batch zero items g n) := by
  induction n with
  | zero => exact hzero
  | succ n ih =>
    rw [batch_succ]
    exact hadd _ _ ih

/-- Before the last item: whole batches are handed out, and the rest is kept. -/
theorem run_before : ∀ k < B.h, ((List.range k).map items).foldl B.step ⟨zero, [], 0⟩ =
    ⟨B.batch zero items (k / B.m) (k % B.m),
      (List.range (k / B.m)).flatMap fun g => B.hand g (B.batch zero items g B.m), k⟩
  | 0, _ => by simp [batch]
  | k + 1, hk => by
      rw [List.range_succ, List.map_append, List.foldl_append, run_before k (by omega), List.map_singleton,
        List.foldl_cons, List.foldl_nil, step]
      have hdiv := Nat.div_add_mod k B.m
      have hitem : items k = items (k / B.m * B.m + k % B.m) := by rw [mul_comm, hdiv]
      dsimp only
      rw [hitem, ← batch_succ]
      rcases div_mod_succ hm k with ⟨hlast, hnext, hend⟩ | ⟨hlast, hsame, hmod⟩
      · rw [if_pos (.inr hend), hlast, hend, hnext, List.range_succ, List.flatMap_append, List.flatMap_singleton,
          hclear _ (batch_property P hzero hadd _ _)]
        rfl
      · rw [if_neg (by omega), hsame, hmod]

/-- The whole run hands out all the batches. -/
theorem run_out : (((List.range B.h).map items).foldl B.step ⟨zero, [], 0⟩).out = B.handed zero items := by
  rcases Nat.eq_zero_or_pos B.h with h0 | hpos
  · rw [handed, h0, Nat.div_eq_of_lt (by omega)]
    rfl
  · obtain ⟨k, hk⟩ := Nat.exists_eq_add_of_le' hpos
    have hdiv := Nat.div_add_mod k B.m
    have hlt := Nat.mod_lt k hm
    have hitem : items k = items (k / B.m * B.m + k % B.m) := by rw [mul_comm, hdiv]
    have hgroups : (B.h + (B.m - 1)) / B.m = k / B.m + 1 := by
      rw [hk, add_assoc, Nat.add_sub_cancel' hm, Nat.add_div_right k hm]
    have hlast : min (B.h - k / B.m * B.m) B.m = k % B.m + 1 := by
      rw [mul_comm]
      omega
    rw [hk, List.range_succ, List.map_append, List.foldl_append, run_before hm P hzero hadd hclear k (by omega),
      List.map_singleton, List.foldl_cons, List.foldl_nil, step, if_pos (.inl hk.symm), handed, hgroups,
      List.range_succ, List.flatMap_append, List.flatMap_singleton, hlast, batch_succ, ← hitem]
    dsimp only
    congr 1
    refine List.flatMap_congr fun g hg => ?_
    have hle : (g + 1) * B.m ≤ k / B.m * B.m := Nat.mul_le_mul_right _ (List.mem_range.mp hg)
    rw [add_mul, one_mul] at hle
    rw [mul_comm (k / B.m)] at hle
    rw [min_eq_right (by omega)]

end Run

end Batches

end OpenMV.Schemes
