import OpenMV.Schemes.DisjointSet

/-! Contraction | scheme:quotient of a graph

    Two classes touch if an edge leads from one to the other. When one class absorbs another it touches what either
    has touched, the absorbed one touches nothing, and all else stays as it was. A symmetric table of what touches is
    brought up to date in place, in one pass over the rows and columns of the two. -/

namespace OpenMV.Schemes

/-- Two different classes with an edge between them. -/
def Touching {ι κ : Type*} (E : ι → ι → Prop) (rep : ι → κ) (i j : κ) : Prop :=
  i ≠ j ∧ ∃ v w, E v w ∧ rep v = i ∧ rep w = j

section Touching
variable {ι κ : Type*} {E : ι → ι → Prop} {rep : ι → κ} {i j : κ}

theorem Touching.symm (hsymm : ∀ v w, E v w → E w v) (h : Touching E rep i j) : Touching E rep j i := by
  obtain ⟨hne, v, w, hvw, hv, hw⟩ := h
  exact ⟨hne.symm, w, v, hsymm v w hvw, hw, hv⟩

end Touching

/-- What touches after the class `b` has been absorbed by the class `a`. -/
def Absorbed {κ : Type*} (T : κ → κ → Prop) (a b i j : κ) : Prop :=
  i ≠ b ∧ j ≠ b ∧ i ≠ j ∧ (T i j ∨ (i = a ∧ T b j) ∨ (j = a ∧ T i b))

theorem touching_relabel {ι : Type*} [DecidableEq ι] {E : ι → ι → Prop} {rep : ι → ι} {a b : ι} (hab : a ≠ b)
    (i j : ι) : Touching E (relabel b a rep) i j ↔ Absorbed (Touching E rep) a b i j := by
  have hlabel : ∀ v, relabel b a rep v = (if rep v = b then a else rep v) := fun _ => rfl
  constructor
  · rintro ⟨hne, v, w, hvw, rfl, rfl⟩
    have hvb : relabel b a rep v ≠ b := relabel_ne hab.symm v
    have hwb : relabel b a rep w ≠ b := relabel_ne hab.symm w
    refine ⟨hvb, hwb, hne, ?_⟩
    simp only [hlabel] at hne hvb hwb ⊢
    by_cases hv : rep v = b
    · by_cases hw : rep w = b
      · simp [hv, hw] at hne
      · simp only [if_pos hv, if_neg hw] at hne ⊢
        exact Or.inr (Or.inl ⟨trivial, fun h => hw h.symm, v, w, hvw, hv, rfl⟩)
    · by_cases hw : rep w = b
      · simp only [if_neg hv, if_pos hw] at hne ⊢
        exact Or.inr (Or.inr ⟨trivial, hv, v, w, hvw, rfl, hw⟩)
      · simp only [if_neg hv, if_neg hw] at hne ⊢
        exact Or.inl ⟨hne, v, w, hvw, rfl, rfl⟩
  · rintro ⟨hi, hj, hne, ⟨-, v, w, hvw, rfl, rfl⟩ | ⟨rfl, -, v, w, hvw, hv, rfl⟩ | ⟨rfl, -, v, w, hvw, rfl, hw⟩⟩
    · exact ⟨hne, v, w, hvw, if_neg hi, if_neg hj⟩
    · exact ⟨hne, v, w, hvw, if_pos hv, if_neg hj⟩
    · exact ⟨hne, v, w, hvw, if_neg hi, if_pos hw⟩

/-! ### Tables -/

def setEntry {β : Type*} (m : ℕ → ℕ → β) (i j : ℕ) (b : β) : ℕ → ℕ → β := fun u v =>
  if u = i ∧ v = j then b else m u v

/-- The round `i` of the pass: the entries of `b` are added to those of `a` and deleted. -/
def contractAt (a b : ℕ) (m : ℕ → ℕ → Bool) (i : ℕ) : ℕ → ℕ → Bool :=
  let m := setEntry m a i (m a i || m b i)
  let m := setEntry m i a (m i a || m i b)
  setEntry (setEntry m i b false) b i false

/-- The pass over `n` rows and columns. -/
def contract (n a b : ℕ) (m : ℕ → ℕ → Bool) : ℕ → ℕ → Bool :=
  setEntry ((List.range n).foldl (contractAt a b) m) a a false

/-- The table after the first `k` rounds: `b` is absorbed as far as they have come. -/
structure ContractedTo (a b : ℕ) (m : ℕ → ℕ → Bool) (k : ℕ) (m' : ℕ → ℕ → Bool) : Prop where
  other : ∀ u v, u ≠ a → u ≠ b → v ≠ a → v ≠ b → m' u v = m u v
  row : ∀ v, v ≠ a → v ≠ b → m' a v = (m a v || (decide (v < k) && m b v))
  column : ∀ u, u ≠ a → u ≠ b → m' u a = (m u a || (decide (u < k) && m u b))
  rowOld : ∀ v, v ≠ b → m' b v = (decide (k ≤ v) && m b v)
  columnOld : ∀ u, u ≠ b → m' u b = (decide (k ≤ u) && m u b)
  corner : m' b b = false

theorem contractAt_spec {a b k : ℕ} {m m' : ℕ → ℕ → Bool} (hab : a < b) (h : ContractedTo a b m k m') :
    ContractedTo a b m (k + 1) (contractAt a b m' k) := by
  have hne : a ≠ b := Nat.ne_of_lt hab
  constructor
  · intro u v hua hub hva hvb
    rw [← h.other u v hua hub hva hvb]
    simp [contractAt, setEntry, hua, hub, hva, hvb]
  · intro v hva hvb
    have hrow := h.row v hva hvb
    have hold := h.rowOld v hvb
    by_cases hvk : v = k
    · subst hvk
      simp [contractAt, setEntry, hne, hva, hvb, hrow, hold]
    · have hlt : (v < k + 1) = (v < k) := by simp only [eq_iff_iff]; omega
      simp [contractAt, setEntry, hne, hva, hvb, hvk, hrow, hlt]
  · intro u hua hub
    have hcolumn := h.column u hua hub
    have hold := h.columnOld u hub
    by_cases huk : u = k
    · subst huk
      simp [contractAt, setEntry, hne, hua, hub, hcolumn, hold]
    · have hlt : (u < k + 1) = (u < k) := by simp only [eq_iff_iff]; omega
      simp [contractAt, setEntry, hne, hua, hub, huk, hcolumn, hlt]
  · intro v hvb
    have hold := h.rowOld v hvb
    have hcorner := h.corner
    by_cases hvk : v = k
    · subst hvk
      simp [contractAt, setEntry]
    · have hle : (k + 1 ≤ v) = (k ≤ v) := by simp only [eq_iff_iff]; omega
      by_cases hva : v = a
      · subst hva
        by_cases hkb : k = b
        · subst hkb
          simp [contractAt, setEntry, hne, hne.symm, hold, hcorner, hle]
        · simp [contractAt, setEntry, hne, hne.symm, hvk, Ne.symm hkb, hold, hle]
      · simp [contractAt, setEntry, hne.symm, hva, hvb, hvk, hold, hle]
  · intro u hub
    have hold := h.columnOld u hub
    have hcorner := h.corner
    by_cases huk : u = k
    · subst huk
      simp [contractAt, setEntry, hub]
    · have hle : (k + 1 ≤ u) = (k ≤ u) := by simp only [eq_iff_iff]; omega
      by_cases hua : u = a
      · subst hua
        by_cases hkb : k = b
        · subst hkb
          simp [contractAt, setEntry, hne, hold, hcorner, hle]
        · simp [contractAt, setEntry, hne, hne.symm, huk, Ne.symm hkb, hold, hle]
      · simp [contractAt, setEntry, hne.symm, hua, hub, huk, hold, hle]
  · have hcorner := h.corner
    simp [contractAt, setEntry, hne.symm, hcorner]

theorem contractedTo_run {a b : ℕ} {m : ℕ → ℕ → Bool} (hab : a < b) (hdiag : m b b = false) :
    ∀ k, ContractedTo a b m k ((List.range k).foldl (contractAt a b) m)
  | 0 =>
    { other := fun _ _ _ _ _ _ => rfl
      row := fun _ _ _ => by simp
      column := fun _ _ _ => by simp
      rowOld := fun _ _ => by simp
      columnOld := fun _ _ => by simp
      corner := hdiag }
  | k + 1 => by
    rw [List.range_succ, List.foldl_append]
    exact contractAt_spec hab (contractedTo_run hab hdiag k)

/-- The pass absorbs `b`, and nothing touches itself. -/
theorem contract_eq_true_iff {n a b : ℕ} {m : ℕ → ℕ → Bool} (hab : a < b) (hb : b < n)
    (hdiag : ∀ i < n, m i i = false) {i j : ℕ} (hi : i < n) (hj : j < n) :
    contract n a b m i j = true ↔ Absorbed (fun i j => m i j = true) a b i j := by
  have hrun := contractedTo_run hab (hdiag b hb) n
  have hne : a ≠ b := Nat.ne_of_lt hab
  unfold contract Absorbed
  generalize (List.range n).foldl (contractAt a b) m = m' at hrun
  by_cases hib : i = b
  · subst hib
    by_cases hjb : j = i
    · subst hjb
      simp [setEntry, hne.symm, hrun.corner]
    · simp [setEntry, hne.symm, hrun.rowOld j hjb, hj]
  · by_cases hjb : j = b
    · subst hjb
      simp [setEntry, hne.symm, hrun.columnOld i hib, hi]
    · by_cases hia : i = a
      · subst hia
        by_cases hja : j = i
        · subst hja
          simp [setEntry]
        · simp [setEntry, hja, hjb, hib, hrun.row j hja hjb, hj, Ne.symm hja]
      · by_cases hja : j = a
        · subst hja
          simp [setEntry, hia, hib, hjb, hrun.column i hia hib, hi]
        · have hother := hrun.other i j hia hib hja hjb
          simp only [setEntry, hia, false_and, if_false, hother, hja, or_false]
          constructor
          · intro hm
            refine ⟨hib, hjb, fun hij => ?_, hm⟩
            rw [hij, hdiag j hj] at hm
            exact absurd hm (by decide)
          · exact fun h => h.2.2.2

end OpenMV.Schemes
