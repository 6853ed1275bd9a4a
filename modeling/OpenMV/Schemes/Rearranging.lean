import Mathlib.Data.Int.Notation
import Mathlib.Data.List.Nodup
import Mathlib.Logic.Equiv.Basic
import Mathlib.Tactic.Linarith

/-! Rearranging a range of slots | scheme:order

    A sort in place is a chain of rearrangements of ranges. What holds of all slots of a range still
    does when it is rearranged, so a cut with nothing greater in front of it than behind it stays one
    while the two sides are sorted, and then the whole is sorted. -/

namespace OpenMV.Schemes

variable {α : Type} {lo hi : ℤ} {mem mem' mem'' : ℤ → α}

/-- The values in the slots `lo..hi` were put in another order, and nothing else was changed. -/
def Rearranged (lo hi : ℤ) (mem mem' : ℤ → α) : Prop :=
  ∃ σ : Equiv.Perm ℤ, (∀ i, i < lo ∨ hi < i → σ i = i) ∧ mem' = mem ∘ σ

/-- A permutation that moves no slot outside a range moves none into it or out of it. -/
theorem perm_stays {σ : Equiv.Perm ℤ} (hσ : ∀ i, i < lo ∨ hi < i → σ i = i) {i : ℤ} :
    (lo ≤ σ i ∧ σ i ≤ hi) ↔ lo ≤ i ∧ i ≤ hi := by
  by_cases hout : i < lo ∨ hi < i
  · rw [hσ i hout]
  · have hin : ¬ (σ i < lo ∨ hi < σ i) := fun h => hout (σ.injective (hσ (σ i) h) ▸ h)
    omega

theorem rearranged_refl (lo hi : ℤ) (mem : ℤ → α) : Rearranged lo hi mem mem :=
  ⟨.refl ℤ, fun _ _ => rfl, rfl⟩

theorem rearranged_swap {p q : ℤ} (hp : lo ≤ p ∧ p ≤ hi) (hq : lo ≤ q ∧ q ≤ hi) (mem : ℤ → α) :
    Rearranged lo hi mem (mem ∘ Equiv.swap p q) := by
  refine ⟨Equiv.swap p q, fun i hout => Equiv.swap_apply_of_ne_of_ne ?_ ?_, rfl⟩
  · omega
  · omega

namespace Rearranged

theorem trans (h : Rearranged lo hi mem mem') (h' : Rearranged lo hi mem' mem'') :
    Rearranged lo hi mem mem'' := by
  obtain ⟨σ, hσ, rfl⟩ := h
  obtain ⟨τ, hτ, rfl⟩ := h'
  refine ⟨τ.trans σ, fun i hout => ?_, rfl⟩
  rw [Equiv.trans_apply, hτ i hout, hσ i hout]

theorem mono {lo' hi' : ℤ} (h : Rearranged lo' hi' mem mem') (hlo : lo ≤ lo') (hhi : hi' ≤ hi) :
    Rearranged lo hi mem mem' := by
  obtain ⟨σ, hσ, rfl⟩ := h
  exact ⟨σ, fun i hout => hσ i (by omega), rfl⟩

theorem outside (h : Rearranged lo hi mem mem') {i : ℤ} (hout : i < lo ∨ hi < i) :
    mem' i = mem i := by
  obtain ⟨σ, hσ, rfl⟩ := h
  rw [Function.comp_apply, hσ i hout]

/-- The values of the range come from the range. -/
theorem source (h : Rearranged lo hi mem mem') {i : ℤ} (hin : lo ≤ i ∧ i ≤ hi) :
    ∃ j, (lo ≤ j ∧ j ≤ hi) ∧ mem' i = mem j := by
  obtain ⟨σ, hσ, rfl⟩ := h
  exact ⟨σ i, (perm_stays hσ).2 hin, rfl⟩

theorem forall_of {P : α → Prop} (h : Rearranged lo hi mem mem')
    (hP : ∀ i, lo ≤ i ∧ i ≤ hi → P (mem i)) : ∀ i, lo ≤ i ∧ i ≤ hi → P (mem' i) := by
  intro i hin
  obtain ⟨j, hj, he⟩ := h.source hin
  rw [he]
  exact hP j hj

end Rearranged

/-! ### The values of a range -/

/-- The slots `lo..hi`, in order. -/
def slotRange (lo hi : ℤ) : List ℤ := (List.range (hi + 1 - lo).toNat).map fun i : ℕ => lo + i

theorem mem_slotRange {i : ℤ} : i ∈ slotRange lo hi ↔ lo ≤ i ∧ i ≤ hi := by
  rw [slotRange, List.mem_map]
  constructor
  · rintro ⟨j, hj, rfl⟩
    rw [List.mem_range] at hj
    omega
  · intro hi
    exact ⟨(i - lo).toNat, List.mem_range.2 (by omega), by omega⟩

theorem slotRange_sorted : (slotRange lo hi).Pairwise (· < ·) := by
  refine List.pairwise_map.2 (List.pairwise_lt_range.imp fun h => ?_)
  omega

/-- The values in the slots `lo..hi`. -/
def slotValues (lo hi : ℤ) (mem : ℤ → α) : List α := (slotRange lo hi).map mem

theorem Rearranged.perm (h : Rearranged lo hi mem mem') :
    (slotValues lo hi mem').Perm (slotValues lo hi mem) := by
  obtain ⟨σ, hσ, rfl⟩ := h
  have hnodup : (slotRange lo hi).Nodup := slotRange_sorted.imp fun h => h.ne
  have hrange : ((slotRange lo hi).map σ).Perm (slotRange lo hi) := by
    refine (List.perm_ext_iff_of_nodup (hnodup.map σ.injective) hnodup).2 fun i => ?_
    rw [List.mem_map, mem_slotRange]
    constructor
    · rintro ⟨j, hj, rfl⟩
      exact (perm_stays hσ).2 (mem_slotRange.1 hj)
    · intro hin
      refine ⟨σ.symm i, mem_slotRange.2 ((perm_stays hσ).1 ?_), σ.apply_symm_apply i⟩
      rwa [σ.apply_symm_apply]
  unfold slotValues
  rw [← List.map_map]
  exact hrange.map mem

/-! ### Sorted ranges -/

section
variable {le : α → α → Prop} {c d : ℤ}

def OrderedOn (le : α → α → Prop) (lo hi : ℤ) (mem : ℤ → α) : Prop :=
  ∀ i j, lo ≤ i → i < j → j ≤ hi → le (mem i) (mem j)

/-- No slot up to `c` holds more than one behind it. -/
def CutAt (le : α → α → Prop) (lo c hi : ℤ) (mem : ℤ → α) : Prop :=
  ∀ i j, lo ≤ i ∧ i ≤ c → c + 1 ≤ j ∧ j ≤ hi → le (mem i) (mem j)

theorem OrderedOn.pairwise (h : OrderedOn le lo hi mem) : (slotValues lo hi mem).Pairwise le := by
  refine List.pairwise_map.2 (slotRange_sorted.imp_of_mem fun {i j} hi hj hij => ?_)
  exact h i j (mem_slotRange.1 hi).1 hij (mem_slotRange.1 hj).2

theorem OrderedOn.congr (h : OrderedOn le lo hi mem) (heq : ∀ i, lo ≤ i → i ≤ hi → mem' i = mem i) :
    OrderedOn le lo hi mem' := by
  intro i j hi hij hj
  rw [heq i hi (by omega), heq j (by omega) hj]
  exact h i j hi hij hj

namespace CutAt

theorem left (h : CutAt le lo c hi mem) (hr : Rearranged lo c mem mem') : CutAt le lo c hi mem' := by
  intro i j hleft hright
  rw [hr.outside (i := j) (.inr (by omega))]
  exact hr.forall_of (P := fun x => le x (mem j)) (fun k hk => h k j hk hright) i hleft

theorem right (h : CutAt le lo c hi mem) (hr : Rearranged (c + 1) hi mem mem') :
    CutAt le lo c hi mem' := by
  intro i j hleft hright
  rw [hr.outside (i := i) (.inl (by omega))]
  exact hr.forall_of (P := fun x => le (mem i) x) (fun k hk => h i k hleft hk) j hright

end CutAt

/-- Two sorted sides with at most one slot between them, and a cut on either side of that. -/
theorem orderedOn_of_cuts (hcd : c = d ∨ c = d - 1) (hleft : OrderedOn le lo c mem)
    (hright : OrderedOn le (d + 1) hi mem) (hc : CutAt le lo c hi mem) (hd : CutAt le lo d hi mem) :
    OrderedOn le lo hi mem := by
  intro i j hi hij hj
  by_cases hjc : j ≤ c
  · exact hleft i j hi hij hjc
  by_cases hid : d + 1 ≤ i
  · exact hright i j hid hij hj
  by_cases hic : i ≤ c
  · exact hc i j ⟨hi, hic⟩ (by omega)
  · exact hd i j (by omega) (by omega)

end

end OpenMV.Schemes
