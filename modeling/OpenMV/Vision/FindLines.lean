import Mathlib.Algebra.Order.Ring.Abs
import Mathlib.Tactic.Linarith
import OpenMV.Schemes.MergeLoop
import OpenMV.Vision.Image

/-! Lines of the Hough transform | scheme:fixpoint | source:src/src/openmv/omv/img/hough.c

    The peaks of the accumulator become lines, and lines that are close to each other are made one until no such
    pair is left. A line is given by an angle and a distance, and with the angle turned by 180 degrees and the
    distance negated it is the same line. The code compares two lines with distances made nonnegative. -/

namespace OpenMV.Vision
open Schemes.MergeLoop

/-! ### The code -/

/-- A `find_lines_list_lnk_data_t`. -/
structure LnkLine where
  magnitude : ℕ
  theta : ℤ
  rho : ℤ
deriving DecidableEq, Repr

/-- 1 + ((180 + hough_divide - 1) / hough_divide) + 1 -/
def thetaSize (houghDivide : ℕ) : ℕ := 1 + (180 + houghDivide - 1) / houghDivide + 1

/-- A cell of the accumulator is compared with its neighbours. -/
def isPeak (acc : ℕ → ℕ) (thetaSize threshold i : ℕ) : Bool :=
  threshold ≤ acc i && acc (i - thetaSize - 1) ≤ acc i && acc (i - thetaSize) ≤ acc i &&
    acc (i - thetaSize + 1) ≤ acc i && acc (i - 1) ≤ acc i && acc (i + 1) ≤ acc i &&
    acc (i + thetaSize - 1) ≤ acc i && acc (i + thetaSize) ≤ acc i && acc (i + thetaSize + 1) ≤ acc i

def findPeaks (acc : ℕ → ℕ) (houghDivide rDiagLenDiv threshold : ℕ) : List LnkLine :=
  let size := thetaSize houghDivide
  let rSize := rDiagLenDiv * 2 + 1
  (List.range' 1 (rSize - 2)).flatMap fun y =>
    (List.range' 1 (size - 2)).filterMap fun x =>
      if isPeak acc size threshold (size * y + x) then
        some ⟨acc (size * y + x), int16 (((x : ℤ) - 1) * houghDivide), int16 (((y : ℤ) - rDiagLenDiv) * houghDivide)⟩
      else none

/-- `theta_0_temp` or `theta_1_temp`. -/
def thetaTemp (l : LnkLine) : ℤ := if l.rho < 0 then l.theta + 180 else l.theta

def rhoTemp (l : LnkLine) : ℤ := if l.rho < 0 then -l.rho else l.rho

/-- `theta_diff_2` -/
def thetaDiff (a b : LnkLine) : ℤ :=
  let thetaDiff := |thetaTemp a - thetaTemp b|
  if thetaDiff ≥ 180 then 360 - thetaDiff else thetaDiff

/-- The tables and the functions on the numbers of a float type. -/
structure LineFloat (F : Type) where
  sinTable : ℤ → F
  cosTable : ℤ → F
  fastAtan2f : F → F → F
  /-- A multiplication by 57.295780. -/
  degrees : F → F
  fastRoundf : F → ℤ

section Merging

variable {F : Type} [Add F] [Mul F] [Div F] [NatCast F] (T : LineFloat F)

/-- `tmp_line` is merged into `lnk_line`. -/
def mergeLine (lnk tmp : LnkLine) : LnkLine :=
  let magnitude := (lnk.magnitude + tmp.magnitude) % 4294967296
  let sinMean := (T.sinTable (thetaTemp lnk) * (lnk.magnitude : F) + T.sinTable (thetaTemp tmp) * (tmp.magnitude : F)) /
    (magnitude : F)
  let cosMean := (T.cosTable (thetaTemp lnk) * (lnk.magnitude : F) + T.cosTable (thetaTemp tmp) * (tmp.magnitude : F)) /
    (magnitude : F)
  let theta := int16 ((T.fastRoundf (T.degrees (T.fastAtan2f sinMean cosMean))).tmod 360)
  let theta := if theta < 0 then int16 (theta + 360) else theta
  let rhoSum := (rhoTemp lnk * lnk.magnitude + rhoTemp tmp * tmp.magnitude) % 4294967296
  let rho := int16 (T.fastRoundf ((rhoSum / (magnitude : ℤ)).toNat : F))
  if theta ≥ 180 then ⟨magnitude / 2, int16 (theta - 180), int16 (-rho)⟩ else ⟨magnitude / 2, theta, rho⟩

/-- The tables are read at the angles of the two lines. -/
def lineMerger (thetaMargin rhoMargin : ℕ) : Merger Unit LnkLine where
  test := fun _ a b => (decide (thetaDiff a b < thetaMargin) && decide (|rhoTemp a - rhoTemp b| < rhoMargin), ())
  join := mergeLine T

/-- The merging loop of `imlib_find_lines`, with at most `fuel` passes. -/
def mergeLines (thetaMargin rhoMargin fuel : ℕ) (out : List LnkLine) : Option (State Unit LnkLine) :=
  (lineMerger T thetaMargin rhoMargin).loop fuel ⟨out, (), false, []⟩

end Merging

/-! ### Undirected lines -/

/-- The two ways to write down a line. -/
def Represents (l : LnkLine) (theta rho : ℤ) : Prop :=
  (theta = l.theta ∧ rho = l.rho) ∨ (theta = l.theta + 180 ∧ rho = -l.rho)

/-- The difference of two angles on the circle. -/
def circularDiff (a b : ℤ) : ℤ := min ((a - b) % 360) ((b - a) % 360)

/-- The two are within the margins as undirected lines. -/
def NearLines (thetaMargin rhoMargin : ℕ) (a b : LnkLine) : Prop :=
  ∃ theta rho theta' rho', Represents a theta rho ∧ Represents b theta' rho' ∧
    circularDiff theta theta' < thetaMargin ∧ |rho - rho'| < rhoMargin

/-- The two are near each other, one of them with a negative distance, and not in the way the code compares them. -/
def Missed (thetaMargin rhoMargin : ℕ) (a b : LnkLine) : Prop :=
  thetaMargin ≤ thetaDiff a b ∧ 180 - thetaDiff a b < thetaMargin ∧ rhoTemp a + rhoTemp b < rhoMargin

def ThetaFits (l : LnkLine) : Prop := 0 ≤ l.theta ∧ l.theta < 180

theorem rhoTemp_nonneg (l : LnkLine) : 0 ≤ rhoTemp l := by
  unfold rhoTemp
  split_ifs with h
  · exact (neg_pos.2 h).le
  · exact not_lt.1 h

/-- The index of a table. -/
theorem thetaTemp_range {l : LnkLine} (hl : ThetaFits l) : 0 ≤ thetaTemp l ∧ thetaTemp l < 360 := by
  obtain ⟨h0, h180⟩ := hl
  unfold thetaTemp
  split_ifs with h
  · exact ⟨by omega, by omega⟩
  · exact ⟨h0, by omega⟩

theorem thetaDiff_range {a b : LnkLine} (ha : ThetaFits a) (hb : ThetaFits b) :
    0 ≤ thetaDiff a b ∧ thetaDiff a b ≤ 180 := by
  obtain ⟨ha0, ha1⟩ := thetaTemp_range ha
  obtain ⟨hb0, hb1⟩ := thetaTemp_range hb
  have hdiff : |thetaTemp a - thetaTemp b| < 360 := abs_sub_lt_iff.2 ⟨by omega, by omega⟩
  have hdiff0 := abs_nonneg (thetaTemp a - thetaTemp b)
  simp only [thetaDiff]
  split_ifs with h
  · exact ⟨by omega, by omega⟩
  · exact ⟨hdiff0, by omega⟩

/-- What the code compares is the difference on the circle, -/
theorem circularDiff_same {p q : ℤ} (hp : 0 ≤ p ∧ p < 360) (hq : 0 ≤ q ∧ q < 360) :
    circularDiff p q = if |p - q| ≥ 180 then 360 - |p - q| else |p - q| := by
  unfold circularDiff
  rcases abs_cases (p - q) with ⟨h, h'⟩ | ⟨h, h'⟩
  · rw [h]
    split_ifs <;> omega
  · rw [h]
    split_ifs <;> omega

/-- and after one of the angles is turned it is what is left of 180 degrees. -/
theorem circularDiff_turned {p q : ℤ} (hp : 0 ≤ p ∧ p < 360) (hq : 0 ≤ q ∧ q < 360) :
    circularDiff (p + 180) q = 180 - if |p - q| ≥ 180 then 360 - |p - q| else |p - q| := by
  unfold circularDiff
  rcases abs_cases (p - q) with ⟨h, h'⟩ | ⟨h, h'⟩
  · rw [h]
    split_ifs <;> omega
  · rw [h]
    split_ifs <;> omega

theorem circularDiff_congr {p q : ℤ} (p' q' : ℤ) (h : (p - q - (p' - q')) % 360 = 0) :
    circularDiff p q = circularDiff p' q' := by
  unfold circularDiff
  congr 1 <;> omega

theorem represents_temp (l : LnkLine) : Represents l (thetaTemp l) (rhoTemp l) := by
  unfold thetaTemp rhoTemp
  split_ifs
  · exact Or.inr ⟨rfl, rfl⟩
  · exact Or.inl ⟨rfl, rfl⟩

theorem represents_turned (l : LnkLine) : ∃ theta, Represents l theta (-rhoTemp l) ∧
    (theta - (thetaTemp l + 180)) % 360 = 0 := by
  unfold thetaTemp rhoTemp
  split_ifs
  · exact ⟨l.theta, Or.inl ⟨rfl, neg_neg _⟩, by omega⟩
  · exact ⟨l.theta + 180, Or.inr ⟨rfl, rfl⟩, by omega⟩

theorem represents_cases {l : LnkLine} {theta rho : ℤ} (h : Represents l theta rho) :
    (theta - thetaTemp l) % 360 = 0 ∧ rho = rhoTemp l ∨ (theta - (thetaTemp l + 180)) % 360 = 0 ∧ rho = -rhoTemp l := by
  unfold thetaTemp rhoTemp
  rcases h with ⟨rfl, rfl⟩ | ⟨rfl, rfl⟩
  · split_ifs
    · exact Or.inr ⟨by omega, by omega⟩
    · exact Or.inl ⟨by omega, rfl⟩
  · split_ifs
    · exact Or.inl ⟨by omega, rfl⟩
    · exact Or.inr ⟨by omega, rfl⟩

/-- Of the four pairs of representations two compare the lines as the code does, and two compare one line with the
    other turned. -/
theorem nearLines_iff_turned (thetaMargin rhoMargin : ℕ) (a b : LnkLine) : NearLines thetaMargin rhoMargin a b ↔
    (circularDiff (thetaTemp a) (thetaTemp b) < thetaMargin ∧ |rhoTemp a - rhoTemp b| < rhoMargin) ∨
    (circularDiff (thetaTemp a + 180) (thetaTemp b) < thetaMargin ∧ rhoTemp a + rhoTemp b < rhoMargin) := by
  have hsum : 0 ≤ rhoTemp a + rhoTemp b := add_nonneg (rhoTemp_nonneg a) (rhoTemp_nonneg b)
  constructor
  · rintro ⟨theta, rho, theta', rho', ha, hb, htheta, hrho⟩
    rcases represents_cases ha with ⟨hta, rfl⟩ | ⟨hta, rfl⟩ <;>
      rcases represents_cases hb with ⟨htb, rfl⟩ | ⟨htb, rfl⟩
    · rw [circularDiff_congr (thetaTemp a) (thetaTemp b) (by omega)] at htheta
      exact Or.inl ⟨htheta, hrho⟩
    · rw [circularDiff_congr (thetaTemp a + 180) (thetaTemp b) (by omega)] at htheta
      rw [sub_neg_eq_add, abs_of_nonneg hsum] at hrho
      exact Or.inr ⟨htheta, hrho⟩
    · rw [circularDiff_congr (thetaTemp a + 180) (thetaTemp b) (by omega)] at htheta
      rw [← neg_add', abs_neg, abs_of_nonneg hsum] at hrho
      exact Or.inr ⟨htheta, hrho⟩
    · rw [circularDiff_congr (thetaTemp a) (thetaTemp b) (by omega)] at htheta
      rw [neg_sub_neg, abs_sub_comm] at hrho
      exact Or.inl ⟨htheta, hrho⟩
  · rintro (⟨htheta, hrho⟩ | ⟨htheta, hrho⟩)
    · exact ⟨_, _, _, _, represents_temp a, represents_temp b, htheta, hrho⟩
    · obtain ⟨theta, ha, hta⟩ := represents_turned a
      refine ⟨theta, _, _, _, ha, represents_temp b, ?_, ?_⟩
      · rwa [circularDiff_congr (thetaTemp a + 180) (thetaTemp b) (by omega)]
      · rwa [← neg_add', abs_neg, abs_of_nonneg hsum]

/-- NearLines lines are those that the code merges and those that it misses. -/
theorem nearLines_iff (thetaMargin rhoMargin : ℕ) {a b : LnkLine} (ha : ThetaFits a) (hb : ThetaFits b) :
    NearLines thetaMargin rhoMargin a b ↔
      (thetaDiff a b < thetaMargin ∧ |rhoTemp a - rhoTemp b| < rhoMargin) ∨ Missed thetaMargin rhoMargin a b := by
  have hsame : circularDiff (thetaTemp a) (thetaTemp b) = thetaDiff a b :=
    circularDiff_same (thetaTemp_range ha) (thetaTemp_range hb)
  have hturned : circularDiff (thetaTemp a + 180) (thetaTemp b) = 180 - thetaDiff a b :=
    circularDiff_turned (thetaTemp_range ha) (thetaTemp_range hb)
  rw [nearLines_iff_turned, hsame, hturned]
  constructor
  · rintro (h | ⟨htheta, hrho⟩)
    · exact Or.inl h
    · -- the difference of two distances is at most their sum
      have hle : |rhoTemp a - rhoTemp b| ≤ rhoTemp a + rhoTemp b :=
        abs_sub_le_iff.2 ⟨by linarith [rhoTemp_nonneg b], by linarith [rhoTemp_nonneg a]⟩
      rcases lt_or_ge (thetaDiff a b) thetaMargin with hlt | hge
      · exact Or.inl ⟨hlt, hle.trans_lt hrho⟩
      · exact Or.inr ⟨hge, htheta, hrho⟩
  · rintro (h | ⟨-, htheta, hrho⟩)
    · exact Or.inl h
    · exact Or.inr ⟨htheta, hrho⟩

/-- Margins for which no pair is missed. -/
def MarginsOk (thetaMargin rhoMargin : ℕ) : Prop :=
  thetaMargin = 0 ∨ rhoMargin = 0 ∨ 180 < thetaMargin ∨ rhoMargin = 1 ∧ (thetaMargin = 1 ∨ thetaMargin = 180)

instance (thetaMargin rhoMargin : ℕ) : Decidable (MarginsOk thetaMargin rhoMargin) :=
  inferInstanceAs (Decidable (_ ∨ _))

theorem not_missed_of_marginsOk {thetaMargin rhoMargin : ℕ} (hok : MarginsOk thetaMargin rhoMargin) {a b : LnkLine}
    (ha : ThetaFits a) (hb : ThetaFits b) : ¬ Missed thetaMargin rhoMargin a b := by
  rintro ⟨hge, hturned, hrho⟩
  have hr := rhoTemp_nonneg a
  have hr' := rhoTemp_nonneg b
  obtain ⟨h0, h180⟩ := thetaDiff_range ha hb
  rcases hok with h | h | h | ⟨h, h'⟩
  · omega
  · omega
  · omega
  · -- both distances are 0, so the angles differ by at most 179 degrees
    have hzero : ∀ l, rhoTemp l = 0 → thetaTemp l = l.theta := by
      intro l hl
      unfold thetaTemp
      rw [if_neg]
      intro hneg
      rw [rhoTemp, if_pos hneg] at hl
      omega
    have hlt : |a.theta - b.theta| < 180 := abs_sub_lt_iff.2 ⟨by linarith [ha.2, hb.1], by linarith [hb.2, ha.1]⟩
    have hdiff : thetaDiff a b = |a.theta - b.theta| := by
      rw [thetaDiff, hzero a (by omega), hzero b (by omega)]
      exact if_neg (not_le.2 hlt)
    rw [← hdiff] at hlt
    omega

/-- For other margins there are two lines that the code misses. -/
theorem exists_missed {thetaMargin rhoMargin : ℕ} (hok : ¬ MarginsOk thetaMargin rhoMargin) :
    ∃ a b, ThetaFits a ∧ ThetaFits b ∧ 0 < a.magnitude ∧ 0 < b.magnitude ∧ Missed thetaMargin rhoMargin a b := by
  simp only [MarginsOk, not_or, not_and] at hok
  obtain ⟨ht0, hr0, ht, hr1⟩ := hok
  rcases eq_or_ne rhoMargin 1 with rfl | hne
  · obtain ⟨ht1, ht180⟩ := hr1 rfl
    have hdiff : thetaDiff ⟨1, 0, 0⟩ ⟨1, 179, 0⟩ = 179 := by decide
    refine ⟨⟨1, 0, 0⟩, ⟨1, 179, 0⟩, ⟨by decide, by decide⟩, ⟨by decide, by decide⟩, by decide, by decide, ?_, ?_, ?_⟩
    · rw [hdiff]
      omega
    · rw [hdiff]
      omega
    · decide
  · have hdiff : thetaDiff ⟨1, 0, 0⟩ ⟨1, 0, -1⟩ = 180 := by decide
    have hsum : rhoTemp ⟨1, 0, 0⟩ + rhoTemp ⟨1, 0, -1⟩ = 1 := by decide
    refine ⟨⟨1, 0, 0⟩, ⟨1, 0, -1⟩, ⟨by decide, by decide⟩, ⟨by decide, by decide⟩, by decide, by decide, ?_, ?_, ?_⟩
    · rw [hdiff]
      omega
    · rw [hdiff]
      omega
    · rw [hsum]
      omega

/-! ### The run -/

section Run

variable {F : Type} [Add F] [Mul F] [Div F] [NatCast F] {T : LineFloat F} {thetaMargin rhoMargin : ℕ}

theorem thetaFits_ite {theta : ℤ} (h0 : 0 ≤ theta) (h360 : theta < 360) (m : ℕ) (r r' : ℤ) :
    ThetaFits (if theta ≥ 180 then ⟨m, int16 (theta - 180), r⟩ else ⟨m, theta, r'⟩) := by
  split_ifs with h
  · rw [int16_of_mem (by omega) (by omega)]
    exact ⟨sub_nonneg.2 h, sub_lt_iff_lt_add.2 h360⟩
  · exact ⟨h0, not_le.1 h⟩

/-- Whatever the float functions return, the angle of the merged line fits. -/
theorem thetaFits_mergeLine (a b : LnkLine) : ThetaFits (mergeLine T a b) := by
  have hrange : ∀ x : ℤ, 0 ≤ (if int16 (x.tmod 360) < 0 then int16 (int16 (x.tmod 360) + 360) else int16 (x.tmod 360)) ∧
      (if int16 (x.tmod 360) < 0 then int16 (int16 (x.tmod 360) + 360) else int16 (x.tmod 360)) < 360 := by
    intro x
    have hlow : -360 < x.tmod 360 := Int.lt_tmod_of_pos x (by norm_num)
    have hhigh : x.tmod 360 < 360 := Int.tmod_lt_of_pos x (by norm_num)
    rw [int16_of_mem (by omega) (by omega)]
    split_ifs
    · rw [int16_of_mem (by omega) (by omega)]
      exact ⟨by omega, by omega⟩
    · exact ⟨by omega, hhigh⟩
  exact thetaFits_ite (hrange _).1 (hrange _).2 _ _ _

theorem apart_iff {a b : LnkLine} : Apart (lineMerger T thetaMargin rhoMargin) a b ↔
    ¬ (thetaDiff a b < thetaMargin ∧ |rhoTemp a - rhoTemp b| < rhoMargin) := by
  simp [Apart, lineMerger]

/-- Two lines that do not merge are left as they are. -/
theorem mergeLines_pair {a b : LnkLine} (h : ¬ (thetaDiff a b < thetaMargin ∧ |rhoTemp a - rhoTemp b| < rhoMargin)) :
    mergeLines T thetaMargin rhoMargin 1 [a, b] = some ⟨[a, b], (), false, []⟩ := by
  have htest : ((lineMerger T thetaMargin rhoMargin).test () a b).1 = false := by
    simpa [lineMerger] using h
  simp [mergeLines, Merger.loop, Merger.pass, Merger.drain, Merger.absorb, htest]

/-- Of a list without merging pairs, those that are near each other are those that the code misses. -/
theorem pairwise_nearLines_iff {l : List LnkLine} (hl : ∀ a ∈ l, ThetaFits a)
    (hapart : l.Pairwise (Apart (lineMerger T thetaMargin rhoMargin))) :
    (l.Pairwise fun a b => ¬ NearLines thetaMargin rhoMargin a b) ↔
      l.Pairwise fun a b => ¬ Missed thetaMargin rhoMargin a b := by
  constructor
  · intro h
    refine h.imp_of_mem fun ha hb hfar hmissed => hfar ?_
    exact (nearLines_iff _ _ (hl _ ha) (hl _ hb)).2 (Or.inr hmissed)
  · intro h
    refine (h.and hapart).imp_of_mem fun ha hb hboth hnear => ?_
    rcases (nearLines_iff _ _ (hl _ ha) (hl _ hb)).1 hnear with hmerge | hmissed
    · exact apart_iff.1 hboth.2 hmerge
    · exact hboth.1 hmissed

variable (T)

/-- The loop ends, the tables are read at 0 to 359 only, and the angles of the lines that are left fit. These are
    distinct lines if and only if the last pass, which merges nothing, compares no pair that the code misses. This
    is so for all lists exactly for the margins for which there is no such pair. -/
theorem merge_lines_iff (thetaMargin rhoMargin : ℕ) :
    (∀ ls : List LnkLine, (∀ l ∈ ls, ThetaFits l) → ∃ s t,
      (∀ fuel, ls.length < fuel → mergeLines T thetaMargin rhoMargin fuel ls = some s) ∧
      (∀ p ∈ s.log, (0 ≤ thetaTemp p.1 ∧ thetaTemp p.1 < 360) ∧ 0 ≤ thetaTemp p.2 ∧ thetaTemp p.2 < 360) ∧
      (∀ l ∈ s.out, 0 ≤ l.theta ∧ l.theta < 180) ∧
      LastPass (lineMerger T thetaMargin rhoMargin) ⟨ls, (), false, []⟩ t ∧
      s = (lineMerger T thetaMargin rhoMargin).pass t ∧
      ((s.out.Pairwise fun a b => ¬ NearLines thetaMargin rhoMargin a b) ↔
        t.out.Pairwise fun a b => ¬ Missed thetaMargin rhoMargin a b)) ∧
    ((∀ ls : List LnkLine, (∀ l ∈ ls, ThetaFits l ∧ 0 < l.magnitude) → ∀ fuel s,
      mergeLines T thetaMargin rhoMargin fuel ls = some s →
        s.out.Pairwise fun a b => ¬ NearLines thetaMargin rhoMargin a b) ↔ MarginsOk thetaMargin rhoMargin) := by
  have hrun : ∀ ls : List LnkLine, (∀ l ∈ ls, ThetaFits l) → ∃ s t,
      (∀ fuel, ls.length < fuel → mergeLines T thetaMargin rhoMargin fuel ls = some s) ∧
      (∀ p ∈ s.log, ThetaFits p.1 ∧ ThetaFits p.2) ∧ (∀ l ∈ s.out, ThetaFits l) ∧
      LastPass (lineMerger T thetaMargin rhoMargin) ⟨ls, (), false, []⟩ t ∧
      s = (lineMerger T thetaMargin rhoMargin).pass t ∧
      ((s.out.Pairwise fun a b => ¬ NearLines thetaMargin rhoMargin a b) ↔
        t.out.Pairwise fun a b => ¬ Missed thetaMargin rhoMargin a b) := by
    intro ls hls
    obtain ⟨s, new, hs, hm, hlog⟩ := loop_terminates (M := lineMerger T thetaMargin rhoMargin)
      (ls.length + 1) ⟨ls, (), false, []⟩ (Nat.lt_succ_self _)
    obtain ⟨hout, hpairs⟩ := hm.forall_mem (fun a b _ _ => thetaFits_mergeLine a b) hls
    obtain ⟨t, ht, rfl⟩ := loop_lastPass hs
    obtain ⟨hsame, hapart⟩ := pass_quiet t ht.quiet
    refine ⟨_, t, fun fuel hfuel => loop_mono hs hfuel, ?_, hout, ht, rfl, ?_⟩
    · rw [hlog]
      exact hpairs
    · rw [hsame] at hout ⊢
      exact pairwise_nearLines_iff hout hapart
  refine ⟨fun ls hls => ?_, fun hall => ?_, fun hok ls hls fuel s hs => ?_⟩
  · obtain ⟨s, t, hs, hlog, hout, ht⟩ := hrun ls hls
    exact ⟨s, t, hs, fun p hp => ⟨thetaTemp_range (hlog p hp).1, thetaTemp_range (hlog p hp).2⟩, hout, ht⟩
  · by_contra hbad
    obtain ⟨a, b, ha, hb, hma, hmb, hmissed⟩ := exists_missed hbad
    have hres := hall [a, b] (by simp [ha, hb, hma, hmb]) 1 _
      (mergeLines_pair fun h => absurd h.1 (not_lt.2 hmissed.1))
    have hfar : ¬ NearLines thetaMargin rhoMargin a b := by simpa using hres
    exact hfar ((nearLines_iff _ _ ha hb).2 (Or.inr hmissed))
  · obtain ⟨s', t, hs', -, hout, -⟩ := hrun ls fun l hl => (hls l hl).1
    have hmax := hs' (max fuel (ls.length + 1)) (by omega)
    rw [mergeLines, loop_mono hs (le_max_left ..), Option.some.injEq] at hmax
    subst hmax
    refine (pairwise_nearLines_iff hout (loop_pairwise hs)).2 (List.pairwise_of_forall_mem_list fun a ha b hb => ?_)
    exact not_missed_of_marginsOk hok (hout a ha) (hout b hb)

end Run

/-- Two lines at 135 degrees with the distances 1 and -1, and margins of 25: whatever the float functions are, the
    lines are not merged. -/
theorem merge_lines_keeps_both : ¬ ∃ T : LineFloat ℚ, ∀ s,
    mergeLines T 25 25 1 [⟨1000, 135, 1⟩, ⟨1000, 135, -1⟩] = some s →
      s.out.Pairwise fun a b => ¬ NearLines 25 25 a b := by
  rintro ⟨T, hdistinct⟩
  have hpair := hdistinct _ (mergeLines_pair (by decide))
  simp only [List.pairwise_pair] at hpair
  exact hpair ⟨135, 1, 135, -1, Or.inl ⟨rfl, rfl⟩, Or.inl ⟨rfl, rfl⟩, by decide, by decide⟩

/-! ### The peaks -/

/-- The lines that the merging starts with. -/
theorem thetaFits_findPeaks {acc : ℕ → ℕ} {houghDivide : ℕ} (h : houghDivide = 1 ∨ houghDivide = 2 ∨ houghDivide = 4)
    (rDiagLenDiv : ℕ) {threshold : ℕ} (hpos : 0 < threshold) :
    ∀ l ∈ findPeaks acc houghDivide rDiagLenDiv threshold, ThetaFits l ∧ 0 < l.magnitude := by
  intro l hl
  simp only [findPeaks, List.mem_flatMap, List.mem_filterMap, List.mem_range'_1, Option.ite_none_right_eq_some,
    Option.some.injEq] at hl
  obtain ⟨y, -, x, ⟨hx1, hx⟩, hpeak, rfl⟩ := hl
  have hmag : threshold ≤ acc (thetaSize houghDivide * y + x) := by
    simp only [isPeak, Bool.and_eq_true, decide_eq_true_eq] at hpeak
    exact hpeak.1.1.1.1.1.1.1.1
  have htheta : 0 ≤ ((x : ℤ) - 1) * houghDivide ∧ ((x : ℤ) - 1) * houghDivide < 180 := by
    unfold thetaSize at hx
    rcases h with rfl | rfl | rfl <;> omega
  refine ⟨?_, hpos.trans_le hmag⟩
  rw [ThetaFits, int16_of_mem (by omega) (by omega)]
  exact htheta

end OpenMV.Vision
