import Mathlib.Algebra.Order.Ring.Int
import Mathlib.Tactic.Ring

/-! Sweeps over positions with an accumulator | scheme:loop

    A loop goes over `n` positions, forwards or backwards, while an accumulator is advanced by a fixed
    amount. What is loaded for the whole part of the accumulator is kept as long as that part stays
    the same. `sweep_apply` says what is left in a memory when the loop changes, at each position, the
    places of that position alone. -/

namespace OpenMV.Schemes

variable {γ σ τ : Type*}

/-- The loop `while (..) { load; do { body } while (the index is the same); }`. -/
def cachedSweep (index : ℤ → ℤ) (load : ℤ → γ) (body : γ → ℤ → ℤ → σ → σ) (frac delta : ℤ) :
    ℕ → Option (ℤ × γ) → ℤ → ℤ → σ → σ
  | 0, _, _, _, s => s
  | n + 1, cache, acc, pos, s =>
    let i := index acc
    let c := match cache with
      | some (j, c) => if j = i then c else load i
      | none => load i
    cachedSweep index load body frac delta n (some (i, c)) (acc + frac) (pos + delta) (body c acc pos s)

/-- The loop without the cache. -/
def sweep (body : ℤ → ℤ → σ → σ) (frac delta : ℤ) : ℕ → ℤ → ℤ → σ → σ
  | 0, _, _, s => s
  | n + 1, acc, pos, s => sweep body frac delta n (acc + frac) (pos + delta) (body acc pos s)

/-- What is kept is what would be loaded again. -/
theorem cachedSweep_eq_sweep {index : ℤ → ℤ} {load : ℤ → γ} {body : γ → ℤ → ℤ → σ → σ}
    {frac delta : ℤ} : ∀ (n : ℕ) (cache : Option (ℤ × γ)) (acc pos : ℤ) (s : σ),
    (∀ e ∈ cache, e.2 = load e.1) → cachedSweep index load body frac delta n cache acc pos s =
      sweep (fun acc pos s => body (load (index acc)) acc pos s) frac delta n acc pos s
  | 0, _, _, _, _, _ => rfl
  | n + 1, none, acc, pos, s, _ => by
      rw [cachedSweep, sweep]
      exact cachedSweep_eq_sweep n _ _ _ _ (by simp)
  | n + 1, some (j, c), acc, pos, s, h => by
      have hc : (if j = index acc then c else load (index acc)) = load (index acc) := by
        split_ifs with hj
        · rw [← hj]
          exact h (j, c) rfl
        · rfl
      rw [cachedSweep, sweep]
      simp only [hc]
      exact cachedSweep_eq_sweep n _ _ _ _ (by simp)

/-- A part of the state that the loop changes without looking at the rest. -/
theorem sweep_fst {body : ℤ → ℤ → σ × τ → σ × τ} {body' : ℤ → ℤ → σ → σ} {frac delta : ℤ}
    (h : ∀ acc pos s t, (body acc pos (s, t)).1 = body' acc pos s) : ∀ (n : ℕ) (acc pos : ℤ) (s : σ) (t : τ),
    (sweep body frac delta n acc pos (s, t)).1 = sweep body' frac delta n acc pos s
  | 0, _, _, _, _ => rfl
  | n + 1, acc, pos, s, t => by
      rw [sweep, sweep, ← h acc pos s t]
      exact sweep_fst h n _ _ _ _

/-- A loop that may fail at a position: it goes through if no position fails, with the same result. -/
theorem sweep_guard {p : ℤ → Prop} [DecidablePred p] {body : ℤ → ℤ → σ → σ} {frac delta : ℤ} :
    ∀ (n : ℕ) (acc pos : ℤ) (s : Option σ),
    sweep (fun acc pos s => s.bind fun s => if p pos then some (body acc pos s) else none) frac delta n acc pos s =
      if ∀ k < n, p (pos + k * delta) then s.map (sweep body frac delta n acc pos) else none
  | 0, acc, pos, s => by
      rw [sweep, if_pos (by simp)]
      simp [sweep]
  | n + 1, acc, pos, s => by
      rw [sweep, sweep_guard n]
      have hsplit : (∀ k < n + 1, p (pos + k * delta)) ↔ p pos ∧ ∀ k < n, p (pos + delta + k * delta) := by
        rw [Nat.forall_lt_succ_left]
        refine and_congr (by simp) (forall₂_congr fun k _ => ?_)
        rw [show pos + ((k + 1 : ℕ) : ℤ) * delta = pos + delta + k * delta by push_cast; ring]
      rw [if_congr hsplit rfl rfl]
      cases s with
      | none => simp
      | some s =>
        by_cases hp : p pos
        · simp [hp, sweep]
        · simp [hp]

variable {Q β : Type*}

/-- The place `q` belongs to position `key q`; it is changed once if the loop gets there, when the
    accumulator has been advanced as many times as positions lie before it. -/
theorem sweep_apply {body : ℤ → ℤ → (Q → β) → Q → β} (key : Q → ℤ) (g : ℤ → Q → β → β)
    {frac delta : ℤ} (hδ : delta = 1 ∨ delta = -1)
    (hbody : ∀ acc pos s q, body acc pos s q = if key q = pos then g acc q (s q) else s q) :
    ∀ (n : ℕ) (acc pos : ℤ) (s : Q → β) (q : Q), sweep body frac delta n acc pos s q =
      if 0 ≤ (key q - pos) * delta ∧ (key q - pos) * delta < n then
        g (acc + (key q - pos) * delta * frac) q (s q) else s q
  | 0, acc, pos, s, q => by
      rw [sweep, if_neg]
      rintro ⟨h1, h2⟩
      exact absurd h1 (not_le.mpr h2)
  | n + 1, acc, pos, s, q => by
      rw [sweep, sweep_apply key g hδ hbody n, hbody]
      have hstep : (key q - (pos + delta)) * delta = (key q - pos) * delta - 1 := by
        rcases hδ with rfl | rfl <;> ring
      rw [hstep]
      by_cases hq : key q = pos
      · -- the position at hand; the rest of the loop does not come back to it
        subst hq
        rw [if_neg (by simp), if_pos rfl, if_pos (by simp)]
        simp
      · have hne : (key q - pos) * delta ≠ 0 := by
          rcases hδ with rfl | rfl <;> omega
        rw [if_neg hq]
        have hacc : acc + frac + ((key q - pos) * delta - 1) * frac =
            acc + (key q - pos) * delta * frac := by ring
        rw [hacc]
        refine if_congr ?_ rfl rfl
        push_cast
        omega

end OpenMV.Schemes
