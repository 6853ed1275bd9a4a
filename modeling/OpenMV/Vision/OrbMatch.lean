import OpenMV.Vision.Orb

/-! Matching two sets of keypoints | scheme:fold | source:src/src/openmv/omv/img/orb.c,
    src/src/openmv/omv/img/rectangle.c

    `orb_match_keypoints` looks up the nearest keypoint of the second array, looks that one up in the first array, and
    takes the two if this leads back. What it takes of the second array is flagged and not found again. A keypoint
    that is missing gets past the ratio test for one threshold only. -/

namespace OpenMV.Vision
open Schemes

/-! ### The code -/

structure Point where
  x : ℤ
  y : ℤ
deriving DecidableEq, Repr

def rectangleExpand (r : Io.Rectangle) (x y : ℤ) : Io.Rectangle :=
  { x := if x < r.x then int16 x else r.x
    y := if y < r.y then int16 y else r.y
    w := if x > r.w then int16 x else r.w
    h := if y > r.h then int16 y else r.h }

/-- `matchCount` is `matches`, and `stored` is what has been written through `match`. -/
structure MatchState where
  heap : Pointer → Keypoint
  matchCount : ℕ
  cx : ℤ
  cy : ℤ
  angles : ℕ → ℕ
  r : Io.Rectangle
  stored : List (ℕ × ℕ)

def matchInit (heap : Pointer → Keypoint) : MatchState where
  heap := heap
  matchCount := 0
  cx := 0
  cy := 0
  angles := fun _ => 0
  r := { x := 20000, y := 20000, w := 0, h := 0 }
  stored := []

/-- `min_kp->matched = 1` -/
def setMatched (heap : Pointer → Keypoint) (q : Pointer) : Pointer → Keypoint :=
  Function.update heap q { heap q with matched := 1 }

/-- `kp1` and `min_kp` pass the cross-match test. -/
def takeMatch (s : MatchState) (kp1 minKp : Pointer) (kpIndex1 kpIndex2 : ℕ) : MatchState :=
  let x : ℤ := (s.heap minKp).x.toNat
  let y : ℤ := (s.heap minKp).y.toNat
  let angle := (((s.heap minKp).angle.toNat : ℤ) - (s.heap kp1).angle.toNat).natAbs
  { heap := setMatched s.heap minKp
    matchCount := s.matchCount + 1
    cx := int32 (s.cx + x)
    cy := int32 (s.cy + y)
    angles := if angle < 360 then Function.update s.angles angle ((s.angles angle + 1) % 65536) else s.angles
    r := rectangleExpand s.r x y
    stored := s.stored ++ [(kpIndex1, kpIndex2)] }

/-- A round of the loop. -/
def matchRound (kpts1 kpts2 : List Pointer) (threshold : ℤ) (s : MatchState) (kp1 : Pointer) : Option MatchState := do
  let b ← findBestMatch s.heap (some kp1) kpts2
  if ← ambiguous threshold b then
    return s
  let b' ← findBestMatch s.heap b.minKp kpts1
  if ← ambiguous threshold b' then
    return s
  if some kp1 = b'.minKp then
    b.minKp.map fun minKp => takeMatch s kp1 minKp b'.index b.index
  else
    return s

/-- What is returned, and what `r`, `c` and `angle` point to then. -/
structure Matching where
  heap : Pointer → Keypoint
  stored : List (ℕ × ℕ)
  count : ℕ
  r : Io.Rectangle
  c : Point
  angle : ℕ

/-- The centroid, the rectangle and the angle. -/
def matchResult (c : Point) (angle : ℕ) (s : MatchState) : Matching :=
  if s.matchCount = 0 then
    { heap := s.heap, stored := s.stored, count := 0, r := { s.r with x := 0, y := 0 }, c := c, angle := angle }
  else
    { heap := s.heap
      stored := s.stored
      count := s.matchCount
      r := { s.r with w := int16 (s.r.w - s.r.x), h := int16 (s.r.h - s.r.y) }
      c := { x := int16 (s.cx.tdiv s.matchCount), y := int16 (s.cy.tdiv s.matchCount) }
      angle := ((List.range 360).foldl (fun (m : ℕ × ℕ) i => if m.1 < s.angles i then (s.angles i, i) else m)
        (0, angle)).2 }

def orbMatchKeypoints (heap : Pointer → Keypoint) (kpts1 kpts2 : List Pointer) (threshold : ℤ) (c : Point)
    (angle : ℕ) : Option Matching :=
  (kpts1.foldlM (matchRound kpts1 kpts2 threshold) (matchInit heap)).map (matchResult c angle)

/-! ### Mutual matchings -/

/-- The two keypoints are not matched, and none that is not matched is nearer to one of them than the other one. -/
structure Mutual (heap : Pointer → Keypoint) (kpts1 kpts2 : List Pointer) (p q : Pointer) : Prop where
  mem1 : p ∈ kpts1
  mem2 : q ∈ kpts2
  free1 : (heap p).matched = 0
  free2 : (heap q).matched = 0
  nearest1 : ∀ q' ∈ kpts2, (heap q').matched = 0 →
    differingFields (heap p).desc (heap q).desc ≤ differingFields (heap p).desc (heap q').desc
  nearest2 : ∀ p' ∈ kpts1, (heap p').matched = 0 →
    differingFields (heap q).desc (heap p).desc ≤ differingFields (heap q).desc (heap p').desc

/-- The flags that pairs of indices put on the keypoints of the second array. -/
def flagged (heap : Pointer → Keypoint) (kpts2 : List Pointer) (pairs : List (ℕ × ℕ)) (q : Pointer) : Keypoint :=
  { heap q with matched := if ∃ ij ∈ pairs, kpts2[ij.2]? = some q then 1 else (heap q).matched }

/-- Each pair is a mutual match under the flags of the pairs before it. -/
def EachMutual (heap : Pointer → Keypoint) (kpts1 kpts2 : List Pointer) (pairs : List (ℕ × ℕ)) : Prop :=
  ∀ before i j after, pairs = before ++ (i, j) :: after → ∃ p q, kpts1[i]? = some p ∧ kpts2[j]? = some q ∧
    Mutual (flagged heap kpts2 before) kpts1 kpts2 p q

/-- A one-to-one mutual matching is returned. -/
structure OneToOne (heap : Pointer → Keypoint) (kpts1 kpts2 : List Pointer) (m : Matching) : Prop where
  nodup1 : (m.stored.map Prod.fst).Nodup
  nodup2 : (m.stored.map Prod.snd).Nodup
  eachMutual : EachMutual heap kpts1 kpts2 m.stored
  flags : m.heap = flagged heap kpts2 m.stored
  marked : ∀ j q, kpts2[j]? = some q → ((m.heap q).matched = 1 ↔ j ∈ m.stored.map Prod.snd)
  count : m.count = m.stored.length

/-- Where the ratio test lets all through, a round that is reached finds a keypoint of the second array, or there is
    none to compare with in the first. -/
def CandidatesLeft (heap : Pointer → Keypoint) (kpts1 kpts2 : List Pointer) (threshold : ℤ) : Prop :=
  threshold = 100 → ∀ done kp1 rest, kpts1 = done ++ kp1 :: rest →
    ∀ s, done.foldlM (matchRound kpts1 kpts2 threshold) (matchInit heap) = some s →
      (∃ q ∈ kpts2, (s.heap q).matched = 0) ∨ ∀ p ∈ kpts1, (s.heap p).matched ≠ 0

/-! ### Rounds -/

section Rounds
variable {heap : Pointer → Keypoint} {kpts1 kpts2 : List Pointer} {threshold : ℤ}

/-- A keypoint cannot be compared with a missing one. -/
theorem findBestMatch_none_of_free (h : ∃ q ∈ kpts2, (heap q).matched = 0) : findBestMatch heap none kpts2 = none := by
  obtain ⟨q, hq, hfree⟩ := h
  obtain ⟨i, hi⟩ := List.getElem?_of_mem hq
  cases hrun : findBestMatch heap none kpts2 with
  | none => rfl
  | some b =>
    obtain ⟨s, t, hst⟩ := exists_of_foldlM hrun (q, i) (List.mem_zipIdx_iff_getElem?.mpr hi)
    rw [findBestRound, if_pos hfree] at hst
    exact absurd hst (Option.some_ne_none t).symm

theorem findBestMatch_none_of_matched (h : ∀ q ∈ kpts2, (heap q).matched ≠ 0) :
    findBestMatch heap none kpts2 = some ⟨none, maxKpDist, maxKpDist, 0⟩ := by
  obtain ⟨b, hb, rfl⟩ : ∃ b, findBestMatch heap none kpts2 = some b ∧ b = ⟨none, maxKpDist, maxKpDist, 0⟩ := by
    refine exists_foldlM (fun _ (b : BestMatch) => b = ⟨none, maxKpDist, maxKpDist, 0⟩) rfl ?_
    rintro ⟨q, i⟩ hq done b rfl
    have hmem : q ∈ kpts2 := List.mem_of_getElem? (List.mem_zipIdx_iff_getElem?.mp hq)
    exact ⟨_, if_neg (h q hmem), rfl⟩
  exact hb

/-- Without a keypoint both distances are the greatest. -/
theorem FoundIn.dists_of_none {kp1 : Pointer} {b : BestMatch} (hfound : FoundIn heap kp1 kpts2 b)
    (hdists : (b.minDist1, b.minDist2) = twoBest maxKpDist (unmatchedDists heap kp1 kpts2)) (hnone : b.minKp = none) :
    b.minDist1 = maxKpDist ∧ b.minDist2 = maxKpDist := by
  have hall := (hfound.none_iff hdists).mp hnone
  have hempty : unmatchedDists heap kp1 kpts2 = [] := by
    rw [unmatchedDists, List.filter_eq_nil_iff.mpr fun q hq => by simpa using hall q hq, List.map_nil]
  rw [hempty] at hdists
  exact ⟨congrArg Prod.fst hdists, congrArg Prod.snd hdists⟩

theorem ambiguous_of_max {b : BestMatch} (h1 : b.minDist1 = maxKpDist) (h2 : b.minDist2 = maxKpDist) :
    ambiguous threshold b = some (decide (threshold < 100)) := by
  rw [ambiguous, h1, h2]
  rfl

variable (threshold) in
/-- The ratio test can be made for what is found. -/
theorem ambiguous_isSome {kp1 : Pointer} {b : BestMatch}
    (hdists : (b.minDist1, b.minDist2) = twoBest maxKpDist (unmatchedDists heap kp1 kpts2)) :
    ∃ skip, ambiguous threshold b = some skip := ⟨_, if_neg (pos_minDist2 hdists)⟩

/-- A keypoint that is found is the nearest one. -/
theorem FoundIn.nearest {kp1 q : Pointer} {b : BestMatch} (hfound : FoundIn heap kp1 kpts2 b)
    (hdists : (b.minDist1, b.minDist2) = twoBest maxKpDist (unmatchedDists heap kp1 kpts2)) (hq : b.minKp = some q) :
    kpts2[b.index]? = some q ∧ (heap q).matched = 0 ∧ ∀ q' ∈ kpts2, (heap q').matched = 0 →
      differingFields (heap kp1).desc (heap q).desc ≤ differingFields (heap kp1).desc (heap q').desc := by
  cases hfound with
  | missing hkp hdist => simp [hkp] at hq
  | found q₁ hkp hat hfree hdist =>
    obtain rfl : q₁ = q := Option.some.inj (hkp.symm.trans hq)
    refine ⟨hat, hfree, fun q' hq' hfree' => ?_⟩
    have hleast := twoBest_fst maxKpDist (unmatchedDists heap kp1 kpts2)
    rw [← hdists] at hleast
    rw [← descDist_eq, ← descDist_eq, ← hdist]
    exact hleast.2 (Or.inr (List.mem_map.mpr ⟨q', by simp [hq', hfree'], rfl⟩))

/-- A round takes nothing, or a mutual match. -/
theorem matchRound_cases {s : MatchState} {kp1 : Pointer} (hmem : kp1 ∈ kpts1) (hle : threshold ≤ 100)
    (hleft : threshold = 100 → (∃ q ∈ kpts2, (s.heap q).matched = 0) ∨ ∀ p ∈ kpts1, (s.heap p).matched ≠ 0) :
    matchRound kpts1 kpts2 threshold s kp1 = some s ∨
      ∃ q i j, matchRound kpts1 kpts2 threshold s kp1 = some (takeMatch s kp1 q i j) ∧
        kpts1[i]? = some kp1 ∧ kpts2[j]? = some q ∧ Mutual s.heap kpts1 kpts2 kp1 q := by
  obtain ⟨b, hb, hdists, hfound⟩ := findBestMatch_some s.heap kp1 kpts2
  obtain ⟨skip, hskip⟩ := ambiguous_isSome threshold hdists
  simp only [matchRound, hb, hskip, Option.bind_eq_bind, Option.bind_some]
  cases skip with
  | true => exact Or.inl rfl
  | false =>
    rw [if_neg Bool.false_ne_true]
    cases hq : b.minKp with
    | none =>
      -- the test lets a missing keypoint through only for 100
      obtain ⟨h1, h2⟩ := hfound.dists_of_none hdists hq
      rw [ambiguous_of_max h1 h2, Option.some.injEq, decide_eq_false_iff_not, not_lt] at hskip
      have hall := (hfound.none_iff hdists).mp hq
      rcases hleft (le_antisymm hle hskip) with ⟨q, hqmem, hfree⟩ | hmatched
      · exact absurd hfree (hall q hqmem)
      rw [findBestMatch_none_of_matched hmatched, Option.bind_some, ambiguous_of_max rfl rfl]
      left
      simp
    | some q =>
      obtain ⟨b', hb', hdists', hfound'⟩ := findBestMatch_some s.heap q kpts1
      obtain ⟨skip', hskip'⟩ := ambiguous_isSome threshold hdists'
      rw [hb', Option.bind_some, hskip', Option.bind_some]
      cases skip' with
      | true => exact Or.inl rfl
      | false =>
        rw [if_neg Bool.false_ne_true]
        by_cases hback : some kp1 = b'.minKp
        · right
          obtain ⟨hat, hfree, hnearest⟩ := hfound.nearest hdists hq
          obtain ⟨hat', hfree', hnearest'⟩ := hfound'.nearest hdists' hback.symm
          refine ⟨q, b'.index, b.index, ?_, hat', hat, hmem, List.mem_of_getElem? hat, hfree', hfree, hnearest,
            hnearest'⟩
          rw [if_pos hback, Option.map_some]
        · rw [if_neg hback]
          exact Or.inl rfl

end Rounds

/-! ### Flags and pairs -/

section Run
variable {heap : Pointer → Keypoint} {kpts1 kpts2 : List Pointer} {pairs : List (ℕ × ℕ)}

theorem flagged_nil : flagged heap kpts2 [] = heap := by
  funext q
  simp [flagged]

theorem flagged_append_singleton {i j : ℕ} {q : Pointer} (hj : kpts2[j]? = some q) :
    flagged heap kpts2 (pairs ++ [(i, j)]) = setMatched (flagged heap kpts2 pairs) q := by
  funext r
  by_cases hr : r = q
  · subst hr
    have hex : ∃ ij ∈ pairs ++ [(i, j)], kpts2[ij.2]? = some r := ⟨(i, j), by simp, hj⟩
    rw [setMatched, Function.update_self, flagged, if_pos hex]
    rfl
  · have hiff : (∃ ij ∈ pairs ++ [(i, j)], kpts2[ij.2]? = some r) ↔ ∃ ij ∈ pairs, kpts2[ij.2]? = some r := by
      constructor
      · rintro ⟨ij, hij, hat⟩
        rcases List.mem_append.mp hij with hij | hij
        · exact ⟨ij, hij, hat⟩
        · obtain rfl := List.mem_singleton.mp hij
          exact absurd (Option.some.inj (hat.symm.trans hj)) hr
      · rintro ⟨ij, hij, hat⟩
        exact ⟨ij, List.mem_append_left _ hij, hat⟩
    rw [setMatched, Function.update_of_ne hr, flagged, flagged]
    simp only [hiff]

/-- The flag of a keypoint of the second array. -/
theorem flagged_matched_iff (hnodup : kpts2.Nodup) (hfree : ∀ q ∈ kpts2, (heap q).matched = 0) {j : ℕ} {q : Pointer}
    (hj : kpts2[j]? = some q) : (flagged heap kpts2 pairs q).matched = 1 ↔ j ∈ pairs.map Prod.snd := by
  have hiff : (∃ ij ∈ pairs, kpts2[ij.2]? = some q) ↔ j ∈ pairs.map Prod.snd := by
    rw [List.mem_map]
    refine exists_congr fun ij => and_congr_right fun _ => ?_
    constructor
    · intro hat
      obtain ⟨hlt, -⟩ := List.getElem?_eq_some_iff.mp hat
      exact (List.getElem?_inj hlt hnodup).mp (hat.trans hj.symm)
    · rintro rfl
      exact hj
  rw [← hiff, flagged]
  simp only
  split_ifs with h
  · exact iff_of_true rfl h
  · rw [hfree q (List.mem_of_getElem? hj)]
    exact iff_of_false (by decide) h

/-- What the rounds over `done` have led to. -/
structure MatchInv (heap : Pointer → Keypoint) (kpts1 kpts2 done : List Pointer) (s : MatchState) : Prop where
  below : ∀ ij ∈ s.stored, ij.1 < done.length
  nodup1 : (s.stored.map Prod.fst).Nodup
  nodup2 : (s.stored.map Prod.snd).Nodup
  eachMutual : EachMutual heap kpts1 kpts2 s.stored
  flags : s.heap = flagged heap kpts2 s.stored
  count : s.matchCount = s.stored.length

theorem MatchInv.init : MatchInv heap kpts1 kpts2 [] (matchInit heap) where
  below := by simp [matchInit]
  nodup1 := List.nodup_nil
  nodup2 := List.nodup_nil
  eachMutual := by
    intro before i j after h
    simp [matchInit] at h
  flags := flagged_nil.symm
  count := rfl

theorem EachMutual.append_singleton {i j : ℕ} {p q : Pointer} (h : EachMutual heap kpts1 kpts2 pairs)
    (hi : kpts1[i]? = some p) (hj : kpts2[j]? = some q) (hpq : Mutual (flagged heap kpts2 pairs) kpts1 kpts2 p q) :
    EachMutual heap kpts1 kpts2 (pairs ++ [(i, j)]) := by
  intro before i' j' after heq
  rcases List.eq_nil_or_concat after with rfl | ⟨after', x, rfl⟩
  · obtain ⟨rfl, hlast⟩ := List.append_inj' heq rfl
    obtain ⟨rfl, rfl⟩ := Prod.mk.inj (List.singleton_inj.mp hlast)
    exact ⟨p, q, hi, hj, hpq⟩
  · rw [List.concat_eq_append, ← List.cons_append, ← List.append_assoc] at heq
    obtain ⟨hinit, -⟩ := List.append_inj' heq rfl
    exact h before i' j' after' hinit

/-- A round keeps the invariant. -/
theorem MatchInv.takeMatch {done rest : List Pointer} {kp1 q : Pointer} {i j : ℕ} {s : MatchState}
    (hinv : MatchInv heap kpts1 kpts2 done s) (hnodup1 : kpts1.Nodup) (hsplit : kpts1 = done ++ kp1 :: rest)
    (hi : kpts1[i]? = some kp1) (hj : kpts2[j]? = some q) (hmutual : Mutual s.heap kpts1 kpts2 kp1 q) :
    MatchInv heap kpts1 kpts2 (done ++ [kp1]) (takeMatch s kp1 q i j) := by
  have hidx : i = done.length := by
    obtain ⟨hlt, -⟩ := List.getElem?_eq_some_iff.mp hi
    refine (List.getElem?_inj hlt hnodup1).mp (hi.trans ?_)
    simp [hsplit]
  rw [hinv.flags] at hmutual
  -- a keypoint that has been reported is flagged
  have hfresh : j ∉ s.stored.map Prod.snd := by
    intro hmem
    obtain ⟨ij, hij, rfl⟩ := List.mem_map.mp hmem
    have hfree := hmutual.free2
    rw [flagged] at hfree
    simp only [if_pos (⟨ij, hij, hj⟩ : ∃ ij ∈ s.stored, kpts2[ij.2]? = some q)] at hfree
    exact absurd hfree (by decide)
  refine ⟨?_, ?_, ?_, hinv.eachMutual.append_singleton hi hj hmutual, ?_, ?_⟩
  · intro ij hij
    rw [List.length_append, List.length_singleton]
    rcases List.mem_append.mp hij with hij | hij
    · have hlt := hinv.below ij hij
      omega
    · obtain rfl := List.mem_singleton.mp hij
      simp only
      omega
  · show ((s.stored ++ [(i, j)]).map Prod.fst).Nodup
    rw [List.map_append, List.map_singleton, List.nodup_append]
    refine ⟨hinv.nodup1, List.nodup_singleton i, ?_⟩
    rintro a ha b hb rfl
    obtain ⟨ij, hij, rfl⟩ := List.mem_map.mp ha
    have hlt := hinv.below ij hij
    rw [List.mem_singleton.mp hb] at hlt
    omega
  · show ((s.stored ++ [(i, j)]).map Prod.snd).Nodup
    rw [List.map_append, List.map_singleton, List.nodup_append]
    refine ⟨hinv.nodup2, List.nodup_singleton j, ?_⟩
    rintro a ha b hb rfl
    rw [List.mem_singleton.mp hb] at ha
    exact hfresh ha
  · show setMatched s.heap q = _
    rw [hinv.flags]
    exact (flagged_append_singleton hj).symm
  · show s.matchCount + 1 = (s.stored ++ [(i, j)]).length
    rw [List.length_append, List.length_singleton, hinv.count]

theorem MatchInv.skip {done : List Pointer} {kp1 : Pointer} {s : MatchState} (hinv : MatchInv heap kpts1 kpts2 done s) :
    MatchInv heap kpts1 kpts2 (done ++ [kp1]) s :=
  { hinv with
    below := fun ij hij => by
      have hlt := hinv.below ij hij
      rw [List.length_append]
      omega }

/-- A round that finds nothing in the second array, and passes the test, has nothing to look up in the first. -/
theorem matchRound_eq_none {s : MatchState} {kp1 : Pointer} (hall : ∀ q ∈ kpts2, (s.heap q).matched ≠ 0)
    (hfree : ∃ p ∈ kpts1, (s.heap p).matched = 0) : matchRound kpts1 kpts2 100 s kp1 = none := by
  obtain ⟨b, hb, hdists, hfound⟩ := findBestMatch_some s.heap kp1 kpts2
  have hq := (hfound.none_iff hdists).mpr hall
  obtain ⟨h1, h2⟩ := hfound.dists_of_none hdists hq
  simp only [matchRound, hb, ambiguous_of_max h1 h2, hq, Option.bind_eq_bind, Option.bind_some,
    findBestMatch_none_of_free hfree]
  rfl

theorem matchResult_fields (c : Point) (angle : ℕ) (s : MatchState) : (matchResult c angle s).heap = s.heap ∧
    (matchResult c angle s).stored = s.stored ∧ (matchResult c angle s).count = s.matchCount := by
  unfold matchResult
  split_ifs with h
  · exact ⟨rfl, rfl, h.symm⟩
  · exact ⟨rfl, rfl, rfl⟩

end Run

/-- A one-to-one mutual matching is returned, and no missing keypoint is read, exactly if where the ratio test lets all
    through no round looks for a missing keypoint. -/
theorem orb_match_keypoints_iff (heap : Pointer → Keypoint) (kpts1 kpts2 : List Pointer) (threshold : ℤ) (c : Point)
    (angle : ℕ) (hnodup1 : kpts1.Nodup) (hnodup2 : kpts2.Nodup)
    (hfree : ∀ p ∈ kpts1 ++ kpts2, (heap p).matched = 0) (hthreshold : 0 ≤ threshold ∧ threshold ≤ 100) :
    (∃ m, orbMatchKeypoints heap kpts1 kpts2 threshold c angle = some m ∧ OneToOne heap kpts1 kpts2 m) ↔
      CandidatesLeft heap kpts1 kpts2 threshold := by
  constructor
  · rintro ⟨m, hm, -⟩ rfl done kp1 rest hsplit s hs
    by_contra hno
    obtain ⟨hall, hsome⟩ := not_or.mp hno
    push Not at hall hsome
    have hround : matchRound kpts1 kpts2 100 s kp1 = none := matchRound_eq_none hall hsome
    have hnone : kpts1.foldlM (matchRound kpts1 kpts2 100) (matchInit heap) = none := by
      conv_lhs => arg 3; rw [hsplit]
      rw [List.foldlM_append, hs]
      show (matchRound kpts1 kpts2 100 s kp1).bind _ = none
      rw [hround, Option.bind_none]
    rw [orbMatchKeypoints, hnone] at hm
    exact absurd hm (Option.some_ne_none m).symm
  · intro hleft
    have hrun : ∃ s, kpts1.foldlM (matchRound kpts1 kpts2 threshold) (matchInit heap) = some s ∧
        MatchInv heap kpts1 kpts2 kpts1 s := by
      refine exists_foldlM_split (MatchInv heap kpts1 kpts2) MatchInv.init kpts1 ?_
      intro done kp1 rest hsplit t ht hinv
      have hmem : kp1 ∈ kpts1 := by simp [hsplit]
      rcases matchRound_cases hmem hthreshold.2 fun h => hleft h done kp1 rest hsplit t ht with
        hskip | ⟨q, i, j, htake, hi, hj, hmutual⟩
      · exact ⟨t, hskip, hinv.skip⟩
      · exact ⟨_, htake, hinv.takeMatch hnodup1 hsplit hi hj hmutual⟩
    obtain ⟨s, hs, hinv⟩ := hrun
    obtain ⟨hheap, hstored, hcount⟩ := matchResult_fields c angle s
    refine ⟨matchResult c angle s, by rw [orbMatchKeypoints, hs, Option.map_some], ?_⟩
    have hfree2 : ∀ q ∈ kpts2, (heap q).matched = 0 := fun q hq => hfree q (List.mem_append_right _ hq)
    constructor
    · rw [hstored]
      exact hinv.nodup1
    · rw [hstored]
      exact hinv.nodup2
    · rw [hstored]
      exact hinv.eachMutual
    · rw [hheap, hstored]
      exact hinv.flags
    · intro j q hj
      rw [hheap, hstored, hinv.flags]
      exact flagged_matched_iff hnodup2 hfree2 hj
    · rw [hcount, hstored]
      exact hinv.count
/-- Two keypoints, and one that the first of them takes. -/
theorem orb_match_keypoints_exhausted : ¬ ∃ m, orbMatchKeypoints threeKeypoints [1, 0] [2] 100 ⟨0, 0⟩ 0 = some m ∧
    OneToOne threeKeypoints [1, 0] [2] m := by
  rintro ⟨m, hm, -⟩
  have hfirst : (matchRound [1, 0] [2] 100 (matchInit threeKeypoints) 1).map
      (fun s => ((s.heap 2).matched, (s.heap 0).matched)) = some (1, 0) := by decide
  obtain ⟨s, hs, hflags⟩ := Option.map_eq_some_iff.mp hfirst
  obtain ⟨htaken, hleft⟩ := Prod.mk.inj hflags
  have hnone : matchRound [1, 0] [2] 100 s 0 = none := by
    refine matchRound_eq_none ?_ ⟨0, by simp, hleft⟩
    simp [htaken]
  simp [orbMatchKeypoints, hs, hnone] at hm

theorem orb_match_keypoints_iff_two : (∃ m, orbMatchKeypoints threeKeypoints [0] [1, 2] 100 ⟨0, 0⟩ 0 = some m ∧
    OneToOne threeKeypoints [0] [1, 2] m) ↔ CandidatesLeft threeKeypoints [0] [1, 2] 100 :=
  orb_match_keypoints_iff threeKeypoints [0] [1, 2] 100 ⟨0, 0⟩ 0 (by simp) (by simp) (fun _ _ => rfl) (by decide)

end OpenMV.Vision
