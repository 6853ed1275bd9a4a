import Mathlib.Data.Int.Notation
import Mathlib.Data.List.Nodup
import Mathlib.Logic.Function.Basic
import Mathlib.Tactic.Linarith

/-! Stores into a row-major array | scheme:encoding

    A loop that fills an array is the list of its stores, each an offset and a value. The last store at
    an offset counts, so if no offset comes twice then every store does. Offsets of a two-dimensional
    array are `y * w + x`. -/

namespace OpenMV.Schemes

abbrev Stores := List (ℤ × ℕ)

/-- The memory after the stores were made in order. -/
def storeAll (mem : ℤ → ℕ) : Stores → ℤ → ℕ
  | [] => mem
  | p :: s => storeAll (Function.update mem p.1 p.2) s

theorem storeAll_append : ∀ (s t : Stores) (mem : ℤ → ℕ),
    storeAll mem (s ++ t) = storeAll (storeAll mem s) t
  | [], _, _ => rfl
  | p :: s, t, mem => storeAll_append s t (Function.update mem p.1 p.2)

theorem storeAll_of_notMem {o : ℤ} : ∀ {s : Stores} {mem : ℤ → ℕ}, o ∉ s.map Prod.fst →
    storeAll mem s o = mem o
  | [], _, _ => rfl
  | p :: s, mem, h => by
    rw [List.map_cons, List.mem_cons, not_or] at h
    rw [storeAll, storeAll_of_notMem h.2, Function.update_of_ne h.1]

theorem storeAll_of_mem {o : ℤ} {v : ℕ} : ∀ {s : Stores} {mem : ℤ → ℕ}, (s.map Prod.fst).Nodup →
    (o, v) ∈ s → storeAll mem s o = v
  | p :: s, mem, hnd, hmem => by
    rw [List.map_cons, List.nodup_cons] at hnd
    rcases List.mem_cons.1 hmem with rfl | hmem
    · rw [storeAll, storeAll_of_notMem hnd.1, Function.update_self]
    · rw [storeAll]
      exact storeAll_of_mem hnd.2 hmem

/-- If all stores at an offset are of one value, it is what is there at the end. -/
theorem storeAll_of_unique {o : ℤ} {v : ℕ} : ∀ {s : Stores} {mem : ℤ → ℕ}, (o, v) ∈ s →
    (∀ v', (o, v') ∈ s → v' = v) → storeAll mem s o = v
  | p :: s, mem, hmem, hall => by
    rw [storeAll]
    by_cases hlater : o ∈ s.map Prod.fst
    · obtain ⟨q, hq, rfl⟩ := List.mem_map.1 hlater
      have hv := hall q.2 (List.mem_cons_of_mem p hq)
      exact storeAll_of_unique (hv ▸ hq) fun v' hv' => hall v' (List.mem_cons_of_mem p hv')
    · rcases List.mem_cons.1 hmem with rfl | hmem
      · rw [storeAll_of_notMem hlater, Function.update_self]
      · exact absurd (List.mem_map_of_mem hmem) hlater

/-! ### Row-major offsets -/

theorem rowMajor_inj {w x y x' y' : ℤ} (hx : 0 ≤ x ∧ x < w) (hx' : 0 ≤ x' ∧ x' < w)
    (h : y * w + x = y' * w + x') : y = y' ∧ x = x' := by
  have hw : 0 < w := lt_of_le_of_lt hx.1 hx.2
  have hy : y = y' := by
    rcases lt_trichotomy y y' with hlt | heq | hgt
    · nlinarith
    · exact heq
    · nlinarith
  subst hy
  exact ⟨rfl, by linarith⟩

theorem rowMajor_mem {w h x y : ℤ} (hx : 0 ≤ x ∧ x < w) (hy : 0 ≤ y ∧ y < h) :
    0 ≤ y * w + x ∧ y * w + x < w * h := by
  have hw : 0 < w := lt_of_le_of_lt hx.1 hx.2
  constructor
  · nlinarith
  · nlinarith

/-- Every offset belongs to a column and a row. -/
theorem rowMajor_split {w h k : ℤ} (hw : 0 < w) (hk : 0 ≤ k ∧ k < w * h) :
    (0 ≤ k % w ∧ k % w < w) ∧ (0 ≤ k / w ∧ k / w < h) ∧ k = k / w * w + k % w := by
  have h1 := Int.emod_nonneg k hw.ne'
  have h2 := Int.emod_lt_of_pos k hw
  have h3 := Int.ediv_nonneg hk.1 hw.le
  have h4 : k / w < h := Int.ediv_lt_of_lt_mul hw (by rw [mul_comm]; exact hk.2)
  exact ⟨⟨h1, h2⟩, ⟨h3, h4⟩, (Int.ediv_mul_add_emod k w).symm⟩

/-- A loop over rows and columns that meets each row and each column at most once meets each offset
    at most once. -/
theorem nodup_rowMajor {α β : Type} {w : ℤ} {rows : List α} {cols : List β} {y : α → ℤ} {x : β → ℤ}
    (hrows : (rows.map y).Nodup) (hcols : (cols.map x).Nodup)
    (hx : ∀ j ∈ cols, 0 ≤ x j ∧ x j < w) :
    (rows.flatMap fun i => cols.map fun j => y i * w + x j).Nodup := by
  rw [List.nodup_flatMap]
  constructor
  · intro i _
    refine (List.nodup_map_iff_inj_on hcols.of_map).2 ?_
    intro j hj j' hj' he
    exact List.inj_on_of_nodup_map hcols hj hj' (rowMajor_inj (hx j hj) (hx j' hj') he).2
  · rw [List.Nodup, List.pairwise_map] at hrows
    refine hrows.imp ?_
    intro i i' hne o ho ho'
    obtain ⟨j, hj, rfl⟩ := List.mem_map.1 ho
    obtain ⟨j', hj', he⟩ := List.mem_map.1 ho'
    exact hne (rowMajor_inj (hx j hj) (hx j' hj') he.symm).1

end OpenMV.Schemes
