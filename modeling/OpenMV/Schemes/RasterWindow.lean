import Mathlib.Data.List.Basic
import Mathlib.Tactic.Basic

/-! Windows in a sorted array | scheme:two-pointers

    The elements that belong to a window stand side by side in a sorted array. One loop skips those before it, another
    one looks at elements until it is past the window. -/

namespace OpenMV.Schemes

variable {α : Type*} (skip go hit : α → Bool)

/-- The loop that skips, over what is left of the array from index `k` on; `past` is its answer at the end. -/
def skipWhile (past : ℕ → Option ℕ) : List α → ℕ → Option ℕ
  | [], k => past k
  | a :: as, k => if skip a then skipWhile past as (k + 1) else some k

/-- The loop that looks; `past` is its answer at the end. -/
def lookWhile (past : Option Bool) : List α → Option Bool
  | [] => past
  | a :: as => if go a then if hit a then some true else lookWhile past as else some false

theorem mem_drop_iff {l : List α} {k : ℕ} {a : α} : a ∈ l.drop k ↔ ∃ j, k ≤ j ∧ l[j]? = some a := by
  rw [List.mem_iff_getElem?]
  constructor
  · rintro ⟨i, hi⟩
    exact ⟨k + i, by omega, by rwa [List.getElem?_drop] at hi⟩
  · rintro ⟨j, hj, ha⟩
    exact ⟨j - k, by rwa [List.getElem?_drop, Nat.add_sub_cancel' hj]⟩

/-- All elements from the start to where the loop stops are skipped, the one there is not. -/
theorem skipWhile_eq (past : ℕ → Option ℕ) {l : List α} : ∀ {as : List α} {k : ℕ}, l.drop k = as →
    (∃ a ∈ as, skip a = false) ∨ (∀ k, past k = some k) →
    ∃ k', skipWhile skip past as k = some k' ∧ k ≤ k' ∧
      (∀ j a, k ≤ j → j < k' → l[j]? = some a → skip a = true) ∧ ∀ a, l[k']? = some a → skip a = false
  | [], k, hdrop, h => by
      rcases h with ⟨a, ha, _⟩ | h
      · cases ha
      · have hend : l[k]? = none := List.getElem?_eq_none (List.drop_eq_nil_iff.mp hdrop)
        exact ⟨k, h k, Nat.le_refl k, by intro j a h1 h2; omega, by simp [hend]⟩
  | a :: as, k, hdrop, h => by
      have hat : l[k]? = some a := by
        rw [← Nat.add_zero k, ← List.getElem?_drop, hdrop, List.getElem?_cons_zero]
      cases ha : skip a with
      | false =>
        refine ⟨k, by simp [skipWhile, ha], Nat.le_refl k, by intro j b h1 h2; omega, fun b hb => ?_⟩
        cases Option.some.inj (hat.symm.trans hb)
        exact ha
      | true =>
        have h' : (∃ b ∈ as, skip b = false) ∨ ∀ k, past k = some k := by
          rcases h with ⟨b, hb, hskip⟩ | h
          · rcases List.mem_cons.mp hb with rfl | hb
            · rw [ha] at hskip; cases hskip
            · exact .inl ⟨b, hb, hskip⟩
          · exact .inr h
        have hdrop' : l.drop (k + 1) = as := by rw [← List.drop_drop, hdrop, List.drop_one, List.tail_cons]
        obtain ⟨k', hrun, hle, hall, hstop⟩ := skipWhile_eq past hdrop' h'
        refine ⟨k', by simp [skipWhile, ha, hrun], by omega, fun j b hj hlt hb => ?_, hstop⟩
        rcases Nat.eq_or_lt_of_le hj with rfl | hj
        · cases Option.some.inj (hat.symm.trans hb)
          exact ha
        · exact hall j b hj hlt hb

/-- The elements to look at stand in front: everything in the window is seen. -/
theorem lookWhile_eq (past : Option Bool) : ∀ (as : List α), (∃ a ∈ as, go a = false) ∨ past = some false →
    as.Pairwise (fun a b => go b → go a) →
    ∃ r, lookWhile go hit past as = some r ∧ (r = true ↔ ∃ a ∈ as, go a ∧ hit a)
  | [], h, _ => by
      rcases h with ⟨a, ha, _⟩ | rfl
      · cases ha
      · exact ⟨false, rfl, by simp⟩
  | a :: as, h, hsorted => by
      rw [List.pairwise_cons] at hsorted
      cases ha : go a with
      | false =>
        refine ⟨false, by simp [lookWhile, ha], by simp, ?_⟩
        rintro ⟨b, hb, hgo, _⟩
        rcases List.mem_cons.mp hb with rfl | hb
        · simp [ha] at hgo
        · simp [hsorted.1 b hb hgo] at ha
      | true =>
        cases hhit : hit a with
        | true => exact ⟨true, by simp [lookWhile, ha, hhit], by simp [ha, hhit]⟩
        | false =>
          have h' : (∃ a ∈ as, go a = false) ∨ past = some false := by
            rcases h with ⟨b, hb, hgo⟩ | h
            · rcases List.mem_cons.mp hb with rfl | hb
              · rw [ha] at hgo; cases hgo
              · exact .inl ⟨b, hb, hgo⟩
            · exact .inr h
          obtain ⟨r, hr, hiff⟩ := lookWhile_eq past as h' hsorted.2
          exact ⟨r, by simp [lookWhile, ha, hhit, hr], by simp [hiff, ha, hhit]⟩

end OpenMV.Schemes
