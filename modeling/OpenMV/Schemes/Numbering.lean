import Mathlib.Data.Finset.Card
import Mathlib.Logic.Function.Basic

/-! Numbering | scheme:first-come table

    Keys come in one by one, each is looked up among those before it, and a new one gets the next number. The table
    has room for as many keys as there are different ones. -/

namespace OpenMV.Schemes

/-- The keys with a number, in order. -/
structure KeyTable (κ : Type*) where
  next : ℕ
  keys : ℕ → κ

section Code
variable {κ : Type*} [DecidableEq κ]

/-- The loop through `k` keys from the one at `i` on, in an array of `num`. It ends at the key or behind the last. -/
def KeyTable.scan (num : ℤ) (keys : ℕ → κ) (c : κ) : ℕ → ℕ → Option ℕ
  | 0, i => some i
  | k + 1, i => if (i : ℤ) < num then if keys i = c then some i else scan num keys c k (i + 1) else none

/-- The number of the key, which is stored if it is new. -/
def KeyTable.number (num : ℤ) (t : KeyTable κ) (c : κ) : Option (ℕ × KeyTable κ) :=
  (KeyTable.scan num t.keys c t.next 0).bind fun i =>
    if i = t.next then
      if (i : ℤ) < num then some (i, ⟨t.next + 1, Function.update t.keys i c⟩) else none
    else some (i, t)

end Code

/-- The keys with a number are those that have come in, and no two numbers have one key. -/
structure KeyTable.Numbers {κ : Type*} [DecidableEq κ] (t : KeyTable κ) (seen : Finset κ) : Prop where
  image : (Finset.range t.next).image t.keys = seen
  inj : ∀ i < t.next, ∀ j < t.next, t.keys i = t.keys j → i = j

namespace KeyTable
variable {κ : Type*} [DecidableEq κ] {num : ℤ} {t : KeyTable κ} {seen : Finset κ} {c : κ}

theorem scan_spec {keys : ℕ → κ} : ∀ {k i : ℕ}, (i + k : ℕ) ≤ num → ∃ j, scan num keys c k i = some j ∧
    i ≤ j ∧ j ≤ i + k ∧ (j < i + k → keys j = c) ∧ ∀ l, i ≤ l → l < j → keys l ≠ c
  | 0, i, _ => ⟨i, rfl, le_refl i, le_refl i, fun h => absurd h (lt_irrefl i), fun l h1 h2 => by omega⟩
  | k + 1, i, h => by
      have hi : (i : ℤ) < num := by omega
      rw [scan, if_pos hi]
      by_cases hkey : keys i = c
      · rw [if_pos hkey]
        exact ⟨i, rfl, le_refl i, by omega, fun _ => hkey, fun l h1 h2 => by omega⟩
      · rw [if_neg hkey]
        obtain ⟨j, hj, hle, hle', hfound, hnot⟩ := scan_spec (k := k) (i := i + 1) (by omega)
        refine ⟨j, hj, by omega, by omega, fun h => hfound (by omega), fun l h1 h2 => ?_⟩
        rcases Nat.eq_or_lt_of_le h1 with rfl | hlt
        · exact hkey
        · exact hnot l hlt h2

theorem Numbers.card_eq (h : t.Numbers seen) : seen.card = t.next := by
  rw [← h.image, Finset.card_image_of_injOn, Finset.card_range]
  intro i hi j hj hij
  exact h.inj i (Finset.mem_range.mp hi) j (Finset.mem_range.mp hj) hij

theorem Numbers.mem_iff (h : t.Numbers seen) : c ∈ seen ↔ ∃ i < t.next, t.keys i = c := by
  rw [← h.image]
  simp only [Finset.mem_image, Finset.mem_range]

/-- A key that has come in keeps its number, a new one gets the next, and the array is large enough. -/
theorem number_spec (h : t.Numbers seen) (hnum : ((insert c seen).card : ℤ) ≤ num) :
    ∃ i t', number num t c = some (i, t') ∧ t'.Numbers (insert c seen) ∧ i < t'.next ∧ t'.keys i = c ∧
      t.next ≤ t'.next ∧ ∀ j < t.next, t'.keys j = t.keys j := by
  have hcard := h.card_eq
  have hle : seen.card ≤ (insert c seen).card := Finset.card_le_card (Finset.subset_insert c seen)
  obtain ⟨i, hi, -, hi', hfound, hnot⟩ := @scan_spec κ _ num c t.keys t.next 0 (by omega)
  rw [number, hi]
  show ∃ i' t', (if i = t.next then _ else _) = some (i', t') ∧ _
  by_cases hnew : i = t.next
  · subst hnew
    have hfresh : c ∉ seen := by
      rw [h.mem_iff]
      rintro ⟨j, hj, hjc⟩
      exact hnot j (Nat.zero_le j) hj hjc
    rw [Finset.card_insert_of_notMem hfresh] at hnum
    rw [if_pos rfl, if_pos (by omega)]
    have hold : ∀ j < t.next, Function.update t.keys t.next c j = t.keys j := fun j hj =>
      Function.update_of_ne (by omega) _ _
    refine ⟨_, _, rfl, ⟨?_, ?_⟩, Nat.lt_succ_self _, Function.update_self _ _ _, Nat.le_succ _, hold⟩
    · show (Finset.range (t.next + 1)).image (Function.update t.keys t.next c) = _
      rw [Finset.range_add_one, Finset.image_insert, Function.update_self, ← h.image]
      congr 1
      exact Finset.image_congr fun j hj => hold j (Finset.mem_range.mp hj)
    · -- only the last number has the new key
      have hne : ∀ j < t.next, t.keys j ≠ c := fun j hj hjc => hfresh (h.mem_iff.mpr ⟨j, hj, hjc⟩)
      intro j hj k hk hjk
      simp only [Function.update_apply] at hjk
      split_ifs at hjk with hj' hk' hk'
      · omega
      · exact absurd hjk.symm (hne k (by simp only at hk; omega))
      · exact absurd hjk (hne j (by simp only at hj; omega))
      · exact h.inj j (by simp only at hj; omega) k (by simp only at hk; omega) hjk
  · rw [if_neg hnew]
    have hkey := hfound (by omega)
    have hmem : c ∈ seen := h.mem_iff.mpr ⟨i, by omega, hkey⟩
    refine ⟨i, t, rfl, ?_, by omega, hkey, le_refl _, fun j _ => rfl⟩
    rwa [Finset.insert_eq_of_mem hmem]

end KeyTable

end OpenMV.Schemes
