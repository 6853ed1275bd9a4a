import Mathlib.Algebra.BigOperators.Group.List.Basic
import Mathlib.Data.List.Nodup
import Mathlib.Data.Prod.Basic
import Mathlib.Tactic.Ring

/-! Blocks of a grid | scheme:loop

    Two nested loops go over the cells of a block, row by row. What they do at a cell may fail; then all of it
    fails. `foldBlock` carries a value through the block, and `storesAt` lists what is stored at each cell. -/

namespace OpenMV.Schemes

variable {σ α : Type*}

/-- The cells of a block, row by row. -/
def blockCells (x₀ y₀ : ℤ) (w h : ℕ) : List (ℤ × ℤ) :=
  (List.range h).flatMap fun (i : ℕ) => (List.range w).map fun (j : ℕ) => (x₀ + j, y₀ + i)

theorem mem_blockCells {x₀ y₀ c r : ℤ} {w h : ℕ} :
    (c, r) ∈ blockCells x₀ y₀ w h ↔ (x₀ ≤ c ∧ c < x₀ + w) ∧ y₀ ≤ r ∧ r < y₀ + h := by
  simp only [blockCells, List.mem_flatMap, List.mem_map, List.mem_range, Prod.mk.injEq]
  constructor
  · rintro ⟨i, hi, j, hj, rfl, rfl⟩
    omega
  · rintro ⟨hc, hr⟩
    exact ⟨(r - y₀).toNat, by omega, (c - x₀).toNat, by omega, by omega, by omega⟩

theorem nodup_blockCells (x₀ y₀ : ℤ) (w h : ℕ) : (blockCells x₀ y₀ w h).Nodup := by
  refine List.nodup_flatMap.mpr ⟨fun i _ => List.nodup_range.map fun j j' hj => ?_, ?_⟩
  · have := congrArg Prod.fst hj
    omega
  · refine (List.nodup_range (n := h)).imp fun {i i'} hne => List.disjoint_left.mpr fun p hp hp' => hne ?_
    obtain ⟨j, -, rfl⟩ := List.mem_map.mp hp
    obtain ⟨j', -, hj'⟩ := List.mem_map.mp hp'
    have := congrArg Prod.snd hj'
    omega

/-- The number of a cell in its block. -/
def rank (x₀ y₀ : ℤ) (w : ℕ) (p : ℤ × ℤ) : ℤ := (p.2 - y₀) * w + (p.1 - x₀)

/-- The cells of a block are numbered one after the other. -/
theorem map_rank_blockCells (x₀ y₀ : ℤ) (w : ℕ) : ∀ h : ℕ,
    (blockCells x₀ y₀ w h).map (rank x₀ y₀ w) = (List.range (h * w)).map fun (k : ℕ) => (k : ℤ)
  | 0 => by simp [blockCells]
  | h + 1 => by
      have ih := map_rank_blockCells x₀ y₀ w h
      rw [blockCells] at ih ⊢
      rw [List.range_succ, List.flatMap_append, List.map_append, ih, Nat.add_one_mul, List.range_add,
        List.map_append, List.flatMap_singleton, List.map_map, List.map_map]
      congr 1
      refine List.map_congr_left fun j _ => ?_
      simp only [Function.comp_apply, rank]
      push_cast
      ring

theorem length_blockCells (x₀ y₀ : ℤ) (w h : ℕ) : (blockCells x₀ y₀ w h).length = h * w := by
  have hlen := congrArg List.length (map_rank_blockCells x₀ y₀ w h)
  simpa using hlen

/-! ### Loops -/

section Loops

variable (get : ℤ → ℤ → Option α) (f : σ → α → σ)

/-- The two loops over a block. -/
def foldBlock (w h : ℕ) (s : σ) (x₀ y₀ : ℤ) : Option σ :=
  (List.range h).foldlM (fun s (i : ℕ) =>
    (List.range w).foldlM (fun s (j : ℕ) => (get (x₀ + j) (y₀ + i)).map (f s)) s) s

variable {get}

theorem foldlM_map_of_some {β : Type*} {g : β → Option α} {v : β → α} : ∀ {l : List β},
    (∀ b ∈ l, g b = some (v b)) → ∀ s, l.foldlM (fun s b => (g b).map (f s)) s = some ((l.map v).foldl f s)
  | [], _, s => rfl
  | b :: l, h, s => by
      rw [List.foldlM_cons, h b List.mem_cons_self]
      exact foldlM_map_of_some (fun b hb => h b (List.mem_cons_of_mem _ hb)) (f s (v b))

theorem foldlM_map_map {β γ : Type*} (g : γ → Option α) (e : β → γ) : ∀ (l : List β) (s : σ),
    l.foldlM (fun s b => (g (e b)).map (f s)) s = (l.map e).foldlM (fun s c => (g c).map (f s)) s
  | [], s => rfl
  | b :: l, s => by
      rw [List.foldlM_cons, List.map_cons, List.foldlM_cons]
      exact bind_congr fun s => foldlM_map_map g e l s

/-- When every cell of the block can be read, the loops are the fold over what is there. -/
theorem foldBlock_eq {w h : ℕ} {x₀ y₀ : ℤ} {v : ℤ × ℤ → α}
    (hget : ∀ p ∈ blockCells x₀ y₀ w h, get p.1 p.2 = some (v p)) (s : σ) :
    foldBlock get f w h s x₀ y₀ = some (((blockCells x₀ y₀ w h).map v).foldl f s) := by
  rw [← foldlM_map_of_some f (g := fun p => get p.1 p.2) hget, blockCells]
  have hflat : ∀ (rows : List ℕ) (s : σ), rows.foldlM (fun s (i : ℕ) =>
      (List.range w).foldlM (fun s (j : ℕ) => (get (x₀ + j) (y₀ + i)).map (f s)) s) s =
      (rows.flatMap fun (i : ℕ) => (List.range w).map fun (j : ℕ) => (x₀ + j, y₀ + i)).foldlM
        (fun s p => (get p.1 p.2).map (f s)) s := by
    intro rows
    induction rows with
    | nil => exact fun s => rfl
    | cons i rows ih =>
      intro s
      rw [List.foldlM_cons, List.flatMap_cons, List.foldlM_append,
        ← foldlM_map_map f (fun p : ℤ × ℤ => get p.1 p.2) fun j : ℕ => (x₀ + (j : ℤ), y₀ + (i : ℤ))]
      exact bind_congr ih
  exact hflat _ s

end Loops

/-- What is stored at each of the cells, in their order. -/
def storesAt (value : ℤ × ℤ → Option α) : List (ℤ × ℤ) → Option (List ((ℤ × ℤ) × α))
  | [] => some []
  | p :: ps => do
    let v ← value p
    let stores ← storesAt value ps
    some ((p, v) :: stores)

theorem storesAt_of_some {value : ℤ × ℤ → Option α} {v : ℤ × ℤ → α} : ∀ {ps : List (ℤ × ℤ)},
    (∀ p ∈ ps, value p = some (v p)) → storesAt value ps = some (ps.map fun p => (p, v p))
  | [], _ => rfl
  | p :: ps, h => by
      rw [storesAt, h p List.mem_cons_self, storesAt_of_some fun q hq => h q (List.mem_cons_of_mem p hq)]
      rfl

theorem storesAt_of_none {value : ℤ × ℤ → Option α} : ∀ {ps : List (ℤ × ℤ)} {p : ℤ × ℤ},
    p ∈ ps → value p = none → storesAt value ps = none
  | q :: ps, p, hp, hnone => by
      rw [storesAt]
      rcases List.mem_cons.mp hp with rfl | hp
      · rw [hnone]
        rfl
      · cases hq : value q with
        | none => rfl
        | some v =>
          rw [storesAt_of_none hp hnone]
          rfl

/-! ### Sums -/

/-- Cells are filled up to `top` one after the other, until `s` is used up. -/
def poured (top s : ℕ) (k : ℕ) : ℕ := min top (s - top * k)

theorem sum_poured (top s : ℕ) : ∀ n, ((List.range n).map (poured top s)).sum = min s (top * n)
  | 0 => by simp
  | n + 1 => by
      rw [List.range_succ, List.map_append, List.sum_append, sum_poured top s n, List.map_singleton,
        List.sum_singleton, poured, Nat.mul_succ]
      omega

end OpenMV.Schemes
