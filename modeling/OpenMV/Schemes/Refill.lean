import Mathlib.Algebra.BigOperators.Group.Finset.Piecewise
import Mathlib.Algebra.Order.BigOperators.Group.Finset

/-! Filling bins up | scheme:fold

    What is left over is put into bins one at a time, wherever a bin is not full. However the bins are chosen, what is
    left and the room in the bins go down together, so a loop that misses no bin ends exactly if there is room for all
    that is left. -/

namespace OpenMV.Schemes

variable {ι : Type*}

structure Bins (ι : Type*) where
  hist : ι → ℕ
  excess : ℕ

/-- One is put into a bin that is not full. -/
def giveOne [DecidableEq ι] (limit : ℕ) (s : Bins ι) (q : ι) : Bins ι :=
  if s.excess ≠ 0 ∧ s.hist q < limit then
    { hist := Function.update s.hist q (s.hist q + 1), excess := s.excess - 1 }
  else s

variable (bins : Finset ι) (limit : ℕ)

/-- How many the bins can take. -/
def room (hist : ι → ℕ) : ℕ := ∑ i ∈ bins, (limit - hist i)

/-- Some of what was left has been put into the bins. -/
structure Filled (s s' : Bins ι) : Prop where
  total : ∑ i ∈ bins, s'.hist i + s'.excess = ∑ i ∈ bins, s.hist i + s.excess
  room : room bins limit s'.hist + s.excess = room bins limit s.hist + s'.excess
  excess_le : s'.excess ≤ s.excess
  le : ∀ i ∈ bins, s.hist i ≤ s'.hist i
  le_max : ∀ i ∈ bins, s'.hist i ≤ max limit (s.hist i)
  same : s'.excess = s.excess → s' = s

variable {bins limit} {s s' s'' : Bins ι}

theorem Filled.refl (s : Bins ι) : Filled bins limit s s where
  total := rfl
  room := rfl
  excess_le := le_refl _
  le := fun _ _ => le_refl _
  le_max := fun _ _ => le_max_right _ _
  same := fun _ => rfl

theorem Filled.trans (h : Filled bins limit s s') (h' : Filled bins limit s' s'') : Filled bins limit s s'' where
  total := h'.total.trans h.total
  room := by
    have h1 := h.room
    have h2 := h'.room
    omega
  excess_le := h'.excess_le.trans h.excess_le
  le := fun i hi => (h.le i hi).trans (h'.le i hi)
  le_max := fun i hi => (h'.le_max i hi).trans (max_le (le_max_left _ _) (h.le_max i hi))
  same := by
    intro heq
    have h1 := h.excess_le
    have h2 := h'.excess_le
    rw [h'.same (by omega), h.same (by omega)]

theorem Filled.giveOne [DecidableEq ι] (s : Bins ι) {q : ι} (hq : q ∈ bins) :
    Filled bins limit s (giveOne limit s q) := by
  unfold Schemes.giveOne
  split_ifs with h
  · obtain ⟨hexcess, hlt⟩ := h
    have htotal := Finset.sum_update_of_mem hq s.hist (s.hist q + 1)
    have hself := Finset.add_sum_erase bins s.hist hq
    have hroom := Finset.add_sum_erase bins (fun i => limit - s.hist i) hq
    have hroom' := Finset.add_sum_erase bins (fun i => limit - Function.update s.hist q (s.hist q + 1) i) hq
    have hrest : ∑ i ∈ bins.erase q, (limit - Function.update s.hist q (s.hist q + 1) i) =
        ∑ i ∈ bins.erase q, (limit - s.hist i) := by
      refine Finset.sum_congr rfl fun i hi => ?_
      rw [Function.update_of_ne (Finset.ne_of_mem_erase hi)]
    rw [← Finset.erase_eq] at htotal
    rw [hrest, Function.update_self] at hroom'
    refine ⟨?_, ?_, by simp, ?_, ?_, ?_⟩
    · simp only
      omega
    · simp only [Schemes.room]
      omega
    · intro i _
      by_cases hi : i = q
      · simp [hi]
      · simp [hi]
    · intro i _
      by_cases hi : i = q
      · subst hi
        simp only [Function.update_self]
        omega
      · simp [hi]
    · intro heq
      simp only at heq
      omega
  · exact Filled.refl s

theorem giveOne_lt [DecidableEq ι] {q : ι} (hexcess : s.excess ≠ 0) (hq : s.hist q < limit) :
    (giveOne limit s q).excess < s.excess := by
  rw [giveOne, if_pos ⟨hexcess, hq⟩]
  simp only
  omega

section Loop
variable {round : Bins ι → Bins ι}

/-- `while (excess) { round }` -/
def whileLeft (round : Bins ι → Bins ι) : ℕ → Bins ι → Option (Bins ι)
  | 0, _ => none
  | fuel + 1, s => if s.excess ≠ 0 then whileLeft round fuel (round s) else some s

theorem filled_foldl {α : Type*} {f : Bins ι → α → Bins ι} : ∀ l : List α,
    (∀ a ∈ l, ∀ s, Filled bins limit s (f s a)) → ∀ s, Filled bins limit s (l.foldl f s)
  | [], _, s => Filled.refl s
  | a :: l, h, s => (h a List.mem_cons_self s).trans
      (filled_foldl l (fun b hb => h b (List.mem_cons_of_mem a hb)) (f s a))

/-- Rounds that leave all that is left leave everything as it is. -/
theorem foldl_same {α : Type*} {f : Bins ι → α → Bins ι} : ∀ {l : List α} {s : Bins ι},
    (∀ a ∈ l, ∀ s, Filled bins limit s (f s a)) → (l.foldl f s).excess = s.excess → ∀ a ∈ l, f s a = s
  | a :: l, s, h, heq, b, hb => by
      obtain ⟨ha, hl⟩ := List.forall_mem_cons.mp h
      have h1 := (ha s).excess_le
      have h2 := (filled_foldl l hl (f s a)).excess_le
      rw [List.foldl_cons] at heq
      have hsame : f s a = s := (ha s).same (by omega)
      rcases List.mem_cons.mp hb with rfl | hb
      · exact hsame
      · rw [hsame] at heq
        exact foldl_same hl heq b hb

theorem whileLeft_filled (hround : ∀ s, Filled bins limit s (round s)) : ∀ {fuel : ℕ} {s s' : Bins ι},
    whileLeft round fuel s = some s' → Filled bins limit s s' ∧ s'.excess = 0
  | fuel + 1, s, s', h => by
      rw [whileLeft] at h
      split_ifs at h with hexcess
      · obtain ⟨hfilled, hzero⟩ := whileLeft_filled hround h
        exact ⟨(hround s).trans hfilled, hzero⟩
      · obtain rfl := Option.some.inj h
        exact ⟨Filled.refl _, not_not.mp hexcess⟩

/-- The loop ends exactly if there is room for all that is left. -/
theorem whileLeft_ends_iff (hround : ∀ s, Filled bins limit s (round s))
    (hprogress : ∀ s : Bins ι, s.excess ≠ 0 → (∃ q ∈ bins, s.hist q < limit) → (round s).excess < s.excess) :
    (∃ fuel s', whileLeft round fuel s = some s') ↔ s.excess ≤ room bins limit s.hist := by
  constructor
  · rintro ⟨fuel, s', h⟩
    obtain ⟨hfilled, hzero⟩ := whileLeft_filled hround h
    have hroom := hfilled.room
    omega
  · intro hle
    -- what is left gets less in each round
    induction hn : s.excess using Nat.strongRecOn generalizing s with
    | ind n ih =>
      by_cases hzero : s.excess = 0
      · exact ⟨1, s, by rw [whileLeft, if_neg (not_not.mpr hzero)]⟩
      · have hex : ∃ q ∈ bins, s.hist q < limit := by
          by_contra hno
          push Not at hno
          have hnone : room bins limit s.hist = 0 :=
            Finset.sum_eq_zero fun i hi => Nat.sub_eq_zero_of_le (hno i hi)
          omega
        have hlt := hprogress s hzero hex
        have hroom := (hround s).room
        obtain ⟨fuel, s', h⟩ := ih (round s).excess (by omega) (by omega) rfl
        exact ⟨fuel + 1, s', by rw [whileLeft, if_pos hzero, h]⟩

/-- How the bins are at the end. -/
theorem whileLeft_spec_iff (hround : ∀ s, Filled bins limit s (round s))
    (hprogress : ∀ s : Bins ι, s.excess ≠ 0 → (∃ q ∈ bins, s.hist q < limit) → (round s).excess < s.excess) (t : ℕ) :
    (∃ fuel s', whileLeft round fuel s = some s' ∧ ∑ i ∈ bins, s'.hist i = t ∧ ∀ i ∈ bins, s'.hist i ≤ limit) ↔
      s.excess ≤ room bins limit s.hist ∧ ∑ i ∈ bins, s.hist i + s.excess = t ∧ ∀ i ∈ bins, s.hist i ≤ limit := by
  constructor
  · rintro ⟨fuel, s', h, htotal, hle⟩
    obtain ⟨hfilled, hzero⟩ := whileLeft_filled hround h
    refine ⟨(whileLeft_ends_iff hround hprogress).mp ⟨fuel, s', h⟩, ?_, fun i hi => (hfilled.le i hi).trans (hle i hi)⟩
    rw [← hfilled.total, hzero, htotal, Nat.add_zero]
  · rintro ⟨hroom, htotal, hle⟩
    obtain ⟨fuel, s', h⟩ := (whileLeft_ends_iff hround hprogress).mpr hroom
    obtain ⟨hfilled, hzero⟩ := whileLeft_filled hround h
    refine ⟨fuel, s', h, ?_, fun i hi => (hfilled.le_max i hi).trans (max_le (le_refl _) (hle i hi))⟩
    rw [← htotal, ← hfilled.total, hzero, Nat.add_zero]

end Loop

end OpenMV.Schemes
