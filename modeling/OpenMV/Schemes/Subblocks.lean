import Mathlib.Algebra.BigOperators.Group.Finset.Basic
import Mathlib.Algebra.Group.Action.Defs
import Mathlib.Data.List.Perm.Basic
import Mathlib.Tactic.Ring

/-! Blocks in a buffer | scheme:tiling

    The addresses of a block of `xs` columns and `ys` rows in a buffer with rows of `width`. Blocks that stand side by
    side, and bands one below the other, have the addresses of the whole between them, each once. Two loops that move
    a pointer get from block to block, or within a block from pixel to pixel. -/

namespace OpenMV.Schemes

open Finset (sum_range_succ)

/-- The addresses from `p`, row by row. -/
def blockAddrs (width p xs ys : ℕ) : List ℕ :=
  (List.range ys).flatMap fun y => (List.range xs).map fun x => p + y * width + x

variable {width p xs ys : ℕ}

theorem mem_blockAddrs {a : ℕ} : a ∈ blockAddrs width p xs ys ↔ ∃ y < ys, ∃ x < xs, a = p + y * width + x := by
  simp [blockAddrs, eq_comm]

theorem length_blockAddrs : (blockAddrs width p xs ys).length = ys * xs := by
  simp [blockAddrs, List.length_flatMap]

@[simp] theorem blockAddrs_zero_left : blockAddrs width p 0 ys = [] := by simp [blockAddrs]

@[simp] theorem blockAddrs_zero_right : blockAddrs width p xs 0 = [] := rfl

theorem blockAddrs_add_right (ys' : ℕ) : blockAddrs width p xs (ys + ys') =
    blockAddrs width p xs ys ++ blockAddrs width (p + ys * width) xs ys' := by
  rw [blockAddrs, List.range_add, List.flatMap_append, List.flatMap_map]
  congr 1
  refine List.flatMap_congr fun y _ => List.map_congr_left fun x _ => ?_
  ring

theorem blockAddrs_add_left (xs' : ℕ) : (blockAddrs width p xs ys ++ blockAddrs width (p + xs) xs' ys).Perm
    (blockAddrs width p (xs + xs') ys) := by
  refine (List.flatMap_append_perm _ _ _).trans (List.Perm.of_eq ?_)
  refine List.flatMap_congr fun y _ => ?_
  rw [List.range_add, List.map_append, List.map_map]
  congr 1
  refine List.map_congr_left fun x _ => ?_
  simp only [Function.comp_apply]
  ring

/-- Blocks side by side. -/
theorem flatMap_columns_perm (width p ys : ℕ) (f : ℕ → ℕ) : ∀ n,
    ((List.range n).flatMap fun i => blockAddrs width (p + ∑ k ∈ Finset.range i, f k) (f i) ys).Perm
      (blockAddrs width p (∑ k ∈ Finset.range n, f k) ys)
  | 0 => by simp
  | n + 1 => by
      rw [List.range_succ, List.flatMap_append, List.flatMap_singleton, sum_range_succ]
      exact ((flatMap_columns_perm width p ys f n).append_right _).trans (blockAddrs_add_left _)

/-- Bands one below the other. -/
theorem flatMap_bands (width p xs : ℕ) (f : ℕ → ℕ) : ∀ n,
    ((List.range n).flatMap fun j => blockAddrs width (p + (∑ k ∈ Finset.range j, f k) * width) xs (f j)) =
      blockAddrs width p xs (∑ k ∈ Finset.range n, f k)
  | 0 => by simp
  | n + 1 => by
      rw [List.range_succ, List.flatMap_append, List.flatMap_singleton, sum_range_succ, flatMap_bands width p xs f n,
        ← blockAddrs_add_right]

/-- The whole buffer. -/
theorem blockAddrs_all : ∀ ys, blockAddrs width 0 width ys = List.range (ys * width)
  | 0 => by simp
  | ys + 1 => by
      rw [blockAddrs_add_right, blockAddrs_all ys, Nat.succ_mul, List.range_add]
      simp [blockAddrs]

/-! ### Two loops with a pointer -/

section Tour
variable {σ : Type*} (step skip : ℕ → ℕ) (nx ny : ℕ) (body : ℕ → ℕ → ℕ → σ → σ)

/-- One row: after column `i` the pointer moves by `step i`. -/
def tourRow (j : ℕ) (s : ℕ × σ) : ℕ × σ :=
  (List.range nx).foldl (fun s i => (s.1 + step i, body j i s.1 s.2)) s

/-- All rows: after row `j` the pointer moves by `skip j`. -/
def tour (s : ℕ × σ) : ℕ × σ :=
  (List.range ny).foldl (fun s j => ((tourRow step nx body j s).1 + skip j, (tourRow step nx body j s).2)) s

/-- Where the loops are at column `i` of row `j`. -/
def tourPtr (j i : ℕ) : ℕ :=
  (∑ k ∈ Finset.range j, (∑ i ∈ Finset.range nx, step i + skip k)) + ∑ k ∈ Finset.range i, step k

variable {body} {α : Type*} (log : σ → List α) (addrs : ℕ → ℕ → ℕ → List α)

theorem tourRow_log (hbody : ∀ j i p s, log (body j i p s) = log s ++ addrs j i p) (j : ℕ) (s : ℕ × σ) :
    (tourRow step nx body j s).1 = s.1 + ∑ k ∈ Finset.range nx, step k ∧
      log (tourRow step nx body j s).2 = log s.2 ++ (List.range nx).flatMap fun i =>
        addrs j i (s.1 + ∑ k ∈ Finset.range i, step k) := by
  induction nx with
  | zero => simp [tourRow]
  | succ n ih =>
    obtain ⟨h1, h2⟩ := ih
    rw [tourRow] at h1 h2 ⊢
    rw [List.range_succ, List.foldl_append, List.flatMap_append, List.flatMap_singleton, sum_range_succ]
    simp only [List.foldl_cons, List.foldl_nil]
    rw [hbody, h1, h2, List.append_assoc, add_assoc]
    exact ⟨rfl, rfl⟩

/-- What each round writes down is written down for each place the loops come to. -/
theorem tour_log (hbody : ∀ j i p s, log (body j i p s) = log s ++ addrs j i p) (s : ℕ × σ) :
    log (tour step skip nx ny body s).2 = log s.2 ++ (List.range ny).flatMap fun j =>
      (List.range nx).flatMap fun i => addrs j i (s.1 + tourPtr step skip nx j i) := by
  have hrun : (tour step skip nx ny body s).1 = s.1 + tourPtr step skip nx ny 0 ∧
      log (tour step skip nx ny body s).2 = log s.2 ++ (List.range ny).flatMap fun j =>
        (List.range nx).flatMap fun i => addrs j i (s.1 + tourPtr step skip nx j i) := by
    induction ny with
    | zero => simp [tour, tourPtr]
    | succ n ih =>
      obtain ⟨h1, h2⟩ := ih
      rw [tour] at h1 h2 ⊢
      rw [List.range_succ, List.foldl_append, List.flatMap_append, List.flatMap_singleton]
      simp only [List.foldl_cons, List.foldl_nil]
      obtain ⟨r1, r2⟩ := tourRow_log step nx log addrs hbody n (List.foldl (fun s j =>
        ((tourRow step nx body j s).1 + skip j, (tourRow step nx body j s).2)) s (List.range n))
      rw [r1, r2, h1, h2, List.append_assoc]
      refine ⟨?_, ?_⟩
      · simp only [tourPtr, sum_range_succ, Finset.sum_range_zero]
        ring
      · simp only [tourPtr, Finset.sum_range_zero, Nat.add_zero, Nat.add_assoc]
  exact hrun.2

/-- What each round keeps holds at the end. -/
theorem tour_induct {P : σ → Prop} (hbody : ∀ j i p s, P s → P (body j i p s)) {s : ℕ × σ} (h : P s.2) :
    P (tour step skip nx ny body s).2 := by
  refine List.foldlRecOn (List.range ny) _ (motive := fun s : ℕ × σ => P s.2) h fun s hs j _ => ?_
  exact List.foldlRecOn (List.range nx) _ (motive := fun s : ℕ × σ => P s.2) hs fun s hs i _ => hbody j i s.1 s.2 hs

end Tour

/-- A tour of the pixels of a block. -/
theorem flatMap_pixels (incr : ℕ) (h : xs + incr = width) :
    ((List.range ys).flatMap fun j => (List.range xs).flatMap fun i =>
      [p + tourPtr (fun _ => 1) (fun _ => incr) xs j i]) = blockAddrs width p xs ys := by
  refine List.flatMap_congr fun j _ => ?_
  rw [← List.map_eq_flatMap]
  refine List.map_congr_left fun i _ => ?_
  simp only [tourPtr, Finset.sum_const, Finset.card_range, smul_eq_mul, mul_one, h]
  ring

end OpenMV.Schemes
