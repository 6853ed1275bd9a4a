import Mathlib.Algebra.BigOperators.Group.Finset.Basic
import Mathlib.Algebra.Order.BigOperators.Group.Finset
import Mathlib.Data.Fintype.Basic

/-! Counting over threads and slots | scheme:invariant

    Threads that share a counter and a table of slots take their steps one at a time. What they hold in
    hand is a sum over all of them, of which a step changes one term, and the free slots are a set to
    which a step adds or from which it takes one slot. -/

namespace OpenMV.Schemes

section
variable {T σ : Type*} [Fintype T]

/-- What all threads hold in hand. -/
def inHand (f : σ → ℕ) (g : T → σ) : ℕ := ∑ t, f (g t)

/-- The step of one thread changes its own term. -/
theorem inHand_update [DecidableEq T] (f : σ → ℕ) (g : T → σ) (t : T) (x : σ) :
    inHand f (Function.update g t x) + f (g t) = inHand f g + f x := by
  have hsum : ∀ g : T → σ, ∑ u, f (g u) = f (g t) + ∑ u ∈ Finset.univ.erase t, f (g u) :=
    fun g => (Finset.add_sum_erase _ _ (Finset.mem_univ t)).symm
  have hrest : ∑ u ∈ Finset.univ.erase t, f (Function.update g t x u) =
      ∑ u ∈ Finset.univ.erase t, f (g u) := by
    refine Finset.sum_congr rfl fun u hu => ?_
    rw [Function.update_of_ne (Finset.ne_of_mem_erase hu)]
  rw [inHand, inHand, hsum, hsum g, hrest, Function.update_self]
  omega

theorem le_inHand (f : σ → ℕ) (g : T → σ) (t : T) : f (g t) ≤ inHand f g :=
  Finset.single_le_sum (f := fun t => f (g t)) (fun _ _ => Nat.zero_le _) (Finset.mem_univ t)

theorem inHand_eq_zero {f : σ → ℕ} {g : T → σ} (h : ∀ t, f (g t) = 0) : inHand f g = 0 :=
  Finset.sum_eq_zero fun t _ => h t

end

/-! ### Slots -/

/-- The slots below `n` that are free. -/
def freeSlots (n : ℕ) (used : ℕ → Bool) : Finset ℕ := (Finset.range n).filter fun i => used i = false

theorem mem_freeSlots {n : ℕ} {used : ℕ → Bool} {i : ℕ} : i ∈ freeSlots n used ↔ i < n ∧ used i = false := by
  rw [freeSlots, Finset.mem_filter, Finset.mem_range]

section
variable {n c : ℕ} {used : ℕ → Bool}

theorem card_freeSlots_take (hc : c < n) (hfree : used c = false) :
    (freeSlots n (Function.update used c true)).card + 1 = (freeSlots n used).card := by
  have heq : freeSlots n (Function.update used c true) = (freeSlots n used).erase c := by
    ext i
    rw [Finset.mem_erase, mem_freeSlots, mem_freeSlots]
    by_cases hi : i = c
    · subst hi
      simp
    · simp [hi]
  rw [heq]
  exact Finset.card_erase_add_one (mem_freeSlots.2 ⟨hc, hfree⟩)

theorem card_freeSlots_give (hc : c < n) (hused : used c = true) :
    (freeSlots n (Function.update used c false)).card = (freeSlots n used).card + 1 := by
  have heq : freeSlots n (Function.update used c false) = insert c (freeSlots n used) := by
    ext i
    rw [Finset.mem_insert, mem_freeSlots, mem_freeSlots]
    by_cases hi : i = c
    · subst hi
      simp [hc]
    · simp [hi]
  rw [heq]
  refine Finset.card_insert_of_notMem fun hmem => ?_
  rw [(mem_freeSlots.1 hmem).2] at hused
  cases hused

end

end OpenMV.Schemes
