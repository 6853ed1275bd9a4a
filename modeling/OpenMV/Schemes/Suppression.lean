import Mathlib.Data.List.Nodup
import Mathlib.Logic.Function.Basic

/-! Greedy suppression | scheme:greedy

    Candidates come in an order, each with a score. One after the other, each whose score is not zero sets the scores
    of the later ones that it excludes to zero. Whatever the relation is, no two of those that are left exclude each
    other in that order, and each that is gone is excluded by an earlier one that is left. -/

namespace OpenMV.Schemes

variable {ι S : Type*} [DecidableEq ι] [Zero S] [DecidableEq S] (R : ι → ι → Prop) [DecidableRel R]

def suppress (k : ι) (score : ι → S) (q : ι) : ι → S := if R k q then Function.update score q 0 else score

def suppressAll : List ι → (ι → S) → ι → S
  | [], score => score
  | k :: ks, score => suppressAll ks (if score k = 0 then score else ks.foldl (suppress R k) score)

/-- What is left of the scores `s` of the candidates `l`. -/
structure Suppressed (l : List ι) (s s' : ι → S) : Prop where
  values : ∀ q, s' q = s q ∨ q ∈ l ∧ s' q = 0
  apart : l.Pairwise fun a b => s' a ≠ 0 → s' b ≠ 0 → ¬ R a b
  covered : ∀ T : ι → ι → Prop, l.Pairwise T → ∀ q ∈ l, s q ≠ 0 → s' q = 0 → ∃ p ∈ l, s' p ≠ 0 ∧ R p q ∧ T p q

variable {R}

omit [DecidableEq S] in
theorem foldl_suppress (k q : ι) : ∀ (ks : List ι) (s : ι → S),
    ks.foldl (suppress R k) s q = if q ∈ ks ∧ R k q then 0 else s q
  | [], s => by simp
  | k' :: ks, s => by
      rw [List.foldl_cons, foldl_suppress k q ks, suppress]
      by_cases hmem : q ∈ ks ∧ R k q
      · rw [if_pos hmem, if_pos ⟨List.mem_cons_of_mem k' hmem.1, hmem.2⟩]
      · rw [if_neg hmem]
        by_cases hq : q = k'
        · subst hq
          by_cases hR : R k q <;> simp [hR]
        · have hsame : (if R k k' then Function.update s k' 0 else s) q = s q := by
            split_ifs
            · exact Function.update_of_ne hq _ _
            · rfl
          rw [hsame, if_neg fun h => hmem ⟨(List.mem_cons.1 h.1).resolve_left hq, h.2⟩]

theorem suppressAll_spec : ∀ {l : List ι} (s : ι → S), l.Nodup → Suppressed R l s (suppressAll R l s)
  | [], s, _ => ⟨fun _ => Or.inl rfl, List.Pairwise.nil, fun _ _ q hq => absurd hq List.not_mem_nil⟩
  | k :: ks, s, hnd => by
      rw [List.nodup_cons] at hnd
      rw [suppressAll]
      set s₁ := if s k = 0 then s else ks.foldl (suppress R k) s with hs₁
      have hfirst : ∀ q, s₁ q = s q ∨ (q ∈ ks ∧ R k q ∧ s k ≠ 0) ∧ s₁ q = 0 := by
        intro q
        rw [hs₁]
        split_ifs with h0
        · exact Or.inl rfl
        · rw [foldl_suppress]
          split_ifs with h
          · exact Or.inr ⟨⟨h.1, h.2, h0⟩, rfl⟩
          · exact Or.inl rfl
      obtain ⟨hvalues, hapart, hcovered⟩ := suppressAll_spec s₁ hnd.2
      have hk : suppressAll R ks s₁ k = s k := by
        rcases hvalues k with h | ⟨hmem, -⟩
        · rw [h]
          exact (hfirst k).resolve_right fun h => hnd.1 h.1.1
        · exact absurd hmem hnd.1
      refine ⟨fun q => ?_, List.pairwise_cons.2 ⟨fun b hb hleft hbleft hR => hbleft ?_, hapart⟩,
        fun T hT q hq hsq hgone => ?_⟩
      · rcases hvalues q with h | ⟨hmem, h0⟩
        · rcases hfirst q with h' | ⟨⟨hmem, -⟩, h0⟩
          · exact Or.inl (h.trans h')
          · exact Or.inr ⟨List.mem_cons_of_mem k hmem, h.trans h0⟩
        · exact Or.inr ⟨List.mem_cons_of_mem k hmem, h0⟩
      · -- the first candidate is left, so it has set `b` to zero at once
        rw [hk] at hleft
        have hzero : s₁ b = 0 := by
          rw [hs₁, if_neg hleft, foldl_suppress, if_pos ⟨hb, hR⟩]
        rcases hvalues b with h | ⟨-, h0⟩
        · exact h.trans hzero
        · exact h0
      · rw [List.pairwise_cons] at hT
        rcases List.mem_cons.1 hq with rfl | hmem
        · exact absurd (hk.symm.trans hgone) hsq
        · rcases hfirst q with h | ⟨⟨-, hR, hsk⟩, -⟩
          · obtain ⟨p, hp, hrest⟩ := hcovered T hT.2 q hmem (by rwa [h]) hgone
            exact ⟨p, List.mem_cons_of_mem k hp, hrest⟩
          · exact ⟨k, List.mem_cons_self, by rwa [hk], hR, hT.1 q hmem⟩

end OpenMV.Schemes
