import OpenMV.Schemes.CheckedRun
import OpenMV.Schemes.TwoBest
import OpenMV.Vision.Popcount
import OpenMV.Vision.RectangleMerge

/-! The two nearest keypoints | scheme:fold | source:src/src/openmv/omv/img/orb.c

    `find_best_match` goes once through an array of keypoints and returns the nearest one that is not matched, with
    two distances for the ratio test. The second one is that of the keypoint that the nearest one replaced, so it
    depends on the order of the array. -/

namespace OpenMV.Vision
open Schemes

/-! ### The code -/

structure Keypoint where
  x : UInt16
  y : UInt16
  angle : UInt16
  matched : UInt16
  desc : Desc

def maxKpDist : ℕ := kdescSize * 8

/-- `min_kp`, the distances and the index. -/
structure BestMatch where
  minKp : Option Pointer
  minDist1 : ℕ
  minDist2 : ℕ
  index : ℕ
deriving DecidableEq, Repr

section Code
variable (heap : Pointer → Keypoint)

/-- A round of the loop, for `kp2` and its index. A `kp1` that is missing cannot be read. -/
def findBestRound (kp1 : Option Pointer) (s : BestMatch) (kp2 : Pointer × ℕ) : Option BestMatch :=
  if (heap kp2.1).matched = 0 then
    kp1.map fun kp1 =>
      let dist := descDist (heap kp1).desc (heap kp2.1).desc
      if dist < s.minDist1 then ⟨some kp2.1, dist, s.minDist1, kp2.2⟩ else s
  else some s

/-- The index is 0 before. -/
def findBestMatch (kp1 : Option Pointer) (kpts : List Pointer) : Option BestMatch :=
  kpts.zipIdx.foldlM (findBestRound heap kp1) ⟨none, maxKpDist, maxKpDist, 0⟩

/-- `(min_dist1*100/min_dist2) > threshold` -/
def ambiguous (threshold : ℤ) (b : BestMatch) : Option Bool :=
  if b.minDist2 = 0 then none else some (threshold < (b.minDist1 * 100 / b.minDist2 : ℕ))

end Code

/-! ### What is found -/

section Found
variable (heap : Pointer → Keypoint)

/-- The distances of the keypoints that are not matched, in the order of the array. -/
def unmatchedDists (kp1 : Pointer) (kpts : List Pointer) : List ℕ :=
  (kpts.filter fun q => (heap q).matched = 0).map fun q => descDist (heap kp1).desc (heap q).desc

/-- The keypoint is in the array and not matched, and the first distance is its own; or there is none. -/
inductive FoundIn (kp1 : Pointer) (kpts : List Pointer) (b : BestMatch) : Prop
  | missing (hkp : b.minKp = none) (hdist : b.minDist1 = maxKpDist)
  | found (q : Pointer) (hkp : b.minKp = some q) (hat : kpts[b.index]? = some q) (hfree : (heap q).matched = 0)
      (hdist : b.minDist1 = descDist (heap kp1).desc (heap q).desc)

variable {heap}

theorem unmatchedDists_append_singleton (kp1 : Pointer) (kpts : List Pointer) (q : Pointer) :
    unmatchedDists heap kp1 (kpts ++ [q]) = unmatchedDists heap kp1 kpts ++
      if (heap q).matched = 0 then [descDist (heap kp1).desc (heap q).desc] else [] := by
  unfold unmatchedDists
  rw [List.filter_append, List.map_append, List.filter_singleton]
  split_ifs with h
  · simp [h]
  · simp [h]

/-- A keypoint that is not matched is a step of the pass. -/
theorem findBestRound_free (kp1 : Pointer) (b : BestMatch) {q : Pointer} (i : ℕ) (hfree : (heap q).matched = 0) :
    ∃ b', findBestRound heap (some kp1) b (q, i) = some b' ∧
      (b'.minDist1, b'.minDist2) = takeBetter (b.minDist1, b.minDist2) (descDist (heap kp1).desc (heap q).desc) ∧
      (b' = b ∨ b'.minKp = some q ∧ b'.index = i ∧ b'.minDist1 = descDist (heap kp1).desc (heap q).desc) := by
  simp only [findBestRound, if_pos hfree, Option.map_some]
  generalize descDist (heap kp1).desc (heap q).desc = dist
  rw [takeBetter]
  by_cases hlt : dist < b.minDist1
  · rw [if_pos hlt, if_pos hlt]
    exact ⟨_, rfl, rfl, Or.inr ⟨rfl, rfl, rfl⟩⟩
  · rw [if_neg hlt, if_neg hlt]
    exact ⟨b, rfl, rfl, Or.inl rfl⟩

variable (heap) in
theorem findBestMatch_some (kp1 : Pointer) (kpts : List Pointer) : ∃ b, findBestMatch heap (some kp1) kpts = some b ∧
    (b.minDist1, b.minDist2) = twoBest maxKpDist (unmatchedDists heap kp1 kpts) ∧ FoundIn heap kp1 kpts b := by
  have hrun : ∃ b, findBestMatch heap (some kp1) kpts = some b ∧
      ((b.minDist1, b.minDist2) = twoBest maxKpDist (unmatchedDists heap kp1 (kpts.zipIdx.map Prod.fst)) ∧
        FoundIn heap kp1 kpts b) := by
    refine exists_foldlM (fun (done : List (Pointer × ℕ)) b =>
      (b.minDist1, b.minDist2) = twoBest maxKpDist (unmatchedDists heap kp1 (done.map Prod.fst)) ∧
        FoundIn heap kp1 kpts b) ?_ ?_
    · exact ⟨rfl, .missing rfl rfl⟩
    rintro ⟨q, i⟩ hq done b ⟨hdists, hfound⟩
    rw [List.map_append, List.map_singleton, unmatchedDists_append_singleton]
    by_cases hfree : (heap q).matched = 0
    · obtain ⟨b', hb', hstep, hkeep⟩ := findBestRound_free kp1 b i hfree
      rw [if_pos hfree, twoBest_append_singleton, ← hdists, ← hstep]
      refine ⟨b', hb', rfl, ?_⟩
      rcases hkeep with rfl | ⟨hkp, rfl, hdist⟩
      · exact hfound
      · exact .found q hkp (List.mem_zipIdx_iff_getElem?.mp hq) hfree hdist
    · rw [if_neg hfree, List.append_nil]
      exact ⟨b, if_neg hfree, hdists, hfound⟩
  rwa [List.zipIdx_map_fst] at hrun

theorem descDist_lt (desc1 desc2 : Desc) : descDist desc1 desc2 < maxKpDist := by
  rw [descDist_eq]
  exact (List.countP_le_length.trans (List.length_range).le).trans_lt (by decide)

/-- A keypoint is missing exactly if all are matched. -/
theorem FoundIn.none_iff {kp1 : Pointer} {kpts : List Pointer} {b : BestMatch} (hfound : FoundIn heap kp1 kpts b)
    (hdists : (b.minDist1, b.minDist2) = twoBest maxKpDist (unmatchedDists heap kp1 kpts)) :
    b.minKp = none ↔ ∀ q ∈ kpts, (heap q).matched ≠ 0 := by
  have hleast := twoBest_fst maxKpDist (unmatchedDists heap kp1 kpts)
  rw [← hdists] at hleast
  cases hfound with
  | missing hkp hdist =>
    refine iff_of_true hkp fun q hq hfree => ?_
    have hle : maxKpDist ≤ descDist (heap kp1).desc (heap q).desc := by
      rw [← hdist]
      exact hleast.2 (Or.inr (List.mem_map.mpr ⟨q, by simp [hq, hfree], rfl⟩))
    exact absurd hle (not_le.mpr (descDist_lt _ _))
  | found q hkp hat hfree hdist =>
    refine iff_of_false (by rw [hkp]; exact Option.some_ne_none q) fun h => ?_
    exact h q (List.mem_of_getElem? hat) hfree

theorem pos_minDist2 {ds : List ℕ} {d1 d2 : ℕ} (h : (d1, d2) = twoBest maxKpDist ds) : d2 ≠ 0 := by
  have hsnd : d2 = (twoBest maxKpDist ds).2 := congrArg Prod.snd h
  rcases twoBest_snd maxKpDist ds with h' | ⟨-, h', -⟩
  · rw [hsnd, h']
    decide
  · rw [hsnd]
    omega

theorem unmatchedDists_perm {kp1 : Pointer} {kpts kpts' : List Pointer} (h : kpts'.Perm kpts) :
    (unmatchedDists heap kp1 kpts').Perm (unmatchedDists heap kp1 kpts) := (h.filter _).map _

theorem unmatchedDists_cons {kp1 q : Pointer} (kpts : List Pointer) (hfree : (heap q).matched = 0) :
    unmatchedDists heap kp1 (q :: kpts) = descDist (heap kp1).desc (heap q).desc :: unmatchedDists heap kp1 kpts := by
  unfold unmatchedDists
  rw [List.filter_cons_of_pos (by simpa using hfree), List.map_cons]

theorem exists_of_mem_unmatchedDists {kp1 : Pointer} {kpts : List Pointer} {d : ℕ}
    (h : d ∈ unmatchedDists heap kp1 kpts) :
    ∃ q ∈ kpts, (heap q).matched = 0 ∧ descDist (heap kp1).desc (heap q).desc = d := by
  obtain ⟨q, hq, rfl⟩ := List.mem_map.mp h
  obtain ⟨hmem, hfree⟩ := List.mem_filter.mp hq
  exact ⟨q, hmem, by simpa using hfree, rfl⟩

end Found

/-! ### The ratio test -/

section Ratio
variable (heap : Pointer → Keypoint) (kp1 : Pointer) (kpts : List Pointer) (threshold : ℤ)

/-- The numbers of fields in which the keypoints that are not matched differ from `kp1`. -/
def unmatchedFields : List ℕ :=
  (kpts.filter fun q => (heap q).matched = 0).map fun q => differingFields (heap kp1).desc (heap q).desc

/-- The two distances are the least ones, and in another order of the array the test has the same outcome. -/
def TwoDistancesOk : Prop := ∃ b, findBestMatch heap (some kp1) kpts = some b ∧
  TwoLeast (capped maxKpDist (unmatchedFields heap kp1 kpts)) b.minDist1 b.minDist2 ∧
  ∀ kpts', kpts'.Perm kpts → (findBestMatch heap (some kp1) kpts').bind (ambiguous threshold) = ambiguous threshold b

/-- The test has one outcome whatever distance above the least one it is made with. -/
def OutcomeClear : Prop := ∀ d ∈ unmatchedFields heap kp1 kpts, ∀ s ∈ unmatchedFields heap kp1 kpts,
  (∀ x ∈ unmatchedFields heap kp1 kpts, d ≤ x) → d < s → s < maxKpDist →
    (threshold < (d * 100 / s : ℕ) ↔ threshold < (d * 100 / maxKpDist : ℕ))

variable {heap kp1 kpts threshold}

theorem unmatchedFields_eq : unmatchedFields heap kp1 kpts = unmatchedDists heap kp1 kpts :=
  List.map_congr_left fun _ _ => (descDist_eq _ _).symm

/-- The outcome for an array. -/
theorem bind_ambiguous (kpts : List Pointer) : (findBestMatch heap (some kp1) kpts).bind (ambiguous threshold) =
    some (decide (threshold < ((twoBest maxKpDist (unmatchedDists heap kp1 kpts)).1 * 100 /
      (twoBest maxKpDist (unmatchedDists heap kp1 kpts)).2 : ℕ))) := by
  obtain ⟨b, hb, hdists, -⟩ := findBestMatch_some heap kp1 kpts
  rw [hb, ← hdists, Option.bind_some, ambiguous, if_neg (pos_minDist2 hdists)]

/-- The order does not matter exactly if the outcome is clear. -/
theorem outcome_perm_iff : (∀ kpts', kpts'.Perm kpts →
    (findBestMatch heap (some kp1) kpts').bind (ambiguous threshold) =
      (findBestMatch heap (some kp1) kpts).bind (ambiguous threshold)) ↔ OutcomeClear heap kp1 kpts threshold := by
  rw [OutcomeClear, unmatchedFields_eq]
  constructor
  · intro hall d hd s hs hleast hds hsM
    obtain ⟨q, hq, hqfree, hqd⟩ := exists_of_mem_unmatchedDists hd
    obtain ⟨r, hr, hrfree, hrs⟩ := exists_of_mem_unmatchedDists hs
    have hne : r ≠ q := by
      rintro rfl
      omega
    have hr' : r ∈ kpts.erase q := (List.mem_erase_of_ne hne).mpr hr
    have hleast' : ∀ l : List Pointer, (∀ p ∈ l, p ∈ kpts) → ∀ x ∈ unmatchedDists heap kp1 l, d ≤ x := by
      intro l hl x hx
      obtain ⟨p, hp, hpfree, rfl⟩ := exists_of_mem_unmatchedDists hx
      exact hleast _ (List.mem_map.mpr ⟨p, List.mem_filter.mpr ⟨hl p hp, by simpa using hpfree⟩, rfl⟩)
    -- the nearest one first, and the other one before it
    have hfirst : (q :: kpts.erase q).Perm kpts := (List.perm_cons_erase hq).symm
    have hsecond : (r :: q :: (kpts.erase q).erase r).Perm kpts :=
      (List.Perm.swap q r _).trans (((List.perm_cons_erase hr').symm.cons q).trans hfirst)
    have h1 := hall _ hfirst
    rw [← hall _ hsecond, bind_ambiguous, bind_ambiguous, unmatchedDists_cons _ hqfree, unmatchedDists_cons _ hrfree,
      unmatchedDists_cons _ hqfree, hqd, hrs, twoBest_cons (hds.trans hsM) (hleast' _ fun p => List.mem_of_mem_erase),
      twoBest_cons_cons hsM hds (hleast' _ fun p hp => List.mem_of_mem_erase (List.mem_of_mem_erase hp)),
      Option.some.injEq, decide_eq_decide] at h1
    exact h1.symm
  · intro hclear
    have hsame : ∀ kpts', kpts'.Perm kpts → (findBestMatch heap (some kp1) kpts').bind (ambiguous threshold) =
        some (decide (threshold < ((twoBest maxKpDist (unmatchedDists heap kp1 kpts)).1 * 100 / maxKpDist : ℕ))) := by
      intro kpts' hperm
      have hdists : (unmatchedDists heap kp1 kpts').Perm (unmatchedDists heap kp1 kpts) := unmatchedDists_perm hperm
      rw [bind_ambiguous, ← twoBest_fst_perm hdists]
      rcases twoBest_snd maxKpDist (unmatchedDists heap kp1 kpts') with h | ⟨hmem, hlt, hM⟩
      · rw [h]
      · have hbest := twoBest_fst maxKpDist (unmatchedDists heap kp1 kpts')
        have hin := hbest.1.resolve_left (hlt.trans hM).ne
        exact congrArg some (decide_eq_decide.mpr (hclear _ (hdists.mem_iff.mp hin) _ (hdists.mem_iff.mp hmem)
          (fun x hx => hbest.2 (Or.inr (hdists.mem_iff.mpr hx))) hlt hM))
    intro kpts' hperm
    rw [hsame kpts' hperm, hsame kpts (List.Perm.refl kpts)]

/-- The test is made with the two least distances exactly if no keypoint behind the nearest one is nearer than all
    before it, and its outcome is the same in every order exactly if it is clear. -/
theorem find_best_match_iff (heap : Pointer → Keypoint) (kp1 : Pointer) (kpts : List Pointer) (threshold : ℤ) :
    TwoDistancesOk heap kp1 kpts threshold ↔
      ¬ LateBetter maxKpDist (unmatchedFields heap kp1 kpts) ∧ OutcomeClear heap kp1 kpts threshold := by
  obtain ⟨b, hb, hdists, -⟩ := findBestMatch_some heap kp1 kpts
  have hfst : b.minDist1 = (twoBest maxKpDist (unmatchedDists heap kp1 kpts)).1 := congrArg Prod.fst hdists
  have hsnd : b.minDist2 = (twoBest maxKpDist (unmatchedDists heap kp1 kpts)).2 := congrArg Prod.snd hdists
  rw [← outcome_perm_iff, ← twoBest_twoLeast_iff, TwoDistancesOk, hb, unmatchedFields_eq, ← hfst, ← hsnd]
  constructor
  · rintro ⟨b', hb', hleast, hperm⟩
    obtain rfl := Option.some.inj hb'
    exact ⟨hleast, hperm⟩
  · rintro ⟨hleast, hperm⟩
    exact ⟨b, rfl, hleast, hperm⟩

end Ratio

/-- Three keypoints: `kp1`, one that differs from it in 10 fields, and one that differs in 11. -/
def threeKeypoints (p : Pointer) : Keypoint where
  x := 0
  y := 0
  angle := 0
  matched := 0
  desc := fun i => if p = 0 then 0 else if i < 2 then 0x55 else if i = 2 then (if p = 1 then 0x05 else 0x15) else 0

/-- If the nearer one comes first, the second distance is that of no keypoint. -/
theorem find_best_match_misses_second : ¬ TwoDistancesOk threeKeypoints 0 [1, 2] 85 := by
  rintro ⟨b, hb, hleast, -⟩
  have hfields : unmatchedFields threeKeypoints 0 [1, 2] = [10, 11] := by decide
  have hdists := hfields
  rw [unmatchedFields_eq] at hdists
  obtain ⟨b', hb', htwo, -⟩ := findBestMatch_some threeKeypoints 0 [1, 2]
  obtain rfl := Option.some.inj (hb.symm.trans hb')
  have h1 : b.minDist1 = _ := congrArg Prod.fst htwo
  have h2 : b.minDist2 = _ := congrArg Prod.snd htwo
  rw [hfields, h1, h2, hdists, twoBest_twoLeast_iff] at hleast
  exact hleast ⟨[], 10, [11], rfl, by decide, by simp, by simp, 11, by simp, by decide, by simp⟩

end OpenMV.Vision
