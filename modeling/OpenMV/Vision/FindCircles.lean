import Mathlib.Algebra.Group.Action.Defs
import Mathlib.Algebra.Order.BigOperators.Group.List
import Mathlib.Data.Finset.Card
import Mathlib.Data.Fintype.Prod
import Mathlib.Data.Int.Interval
import OpenMV.Schemes.MergeLoop
import OpenMV.Schemes.Stores
import OpenMV.Vision.Image

/-! Circles of the Hough transform | scheme:fixpoint | source:src/src/openmv/omv/img/hough.c

    For each radius the pixels vote for the two centres that their gradients point to, and the peaks of the
    accumulator become circles. Circles that are close to each other are made one, with the means of their centres and
    radii, weighted with their magnitudes, until no such pair is left. A magnitude is kept in 16 bits. -/

namespace OpenMV.Vision
open Schemes.MergeLoop

/-! ### Voting -/

/-- `theta_acc` and `magnitude_acc`. -/
structure GradientField where
  theta : ℕ → Fin 360
  magnitude : ℕ → UInt16

/-- What a round of the loop over the radii works with: the size of the region, the radius, and the tables for it. -/
structure HoughRound where
  w : ℕ
  h : ℕ
  roiX : ℤ
  roiY : ℤ
  r : ℕ
  rcos : Fin 360 → ℤ
  rsin : Fin 360 → ℤ

namespace HoughRound
variable (R : HoughRound) (shift : ℕ)

def wSize : ℤ := R.w - 2 * R.r
def hSize : ℤ := R.h - 2 * R.r

def aSize : ℤ := 1 + (R.wSize + 2 ^ shift - 1).tdiv (2 ^ shift) + 1
def bSize : ℤ := 1 + (R.hSize + 2 ^ shift - 1).tdiv (2 ^ shift) + 1

/-- `hough_shift`: the accumulator has to fit into the buffer, or the allocation fails. -/
def houghShift (fbAvail : ℤ) : Option ℕ := [0, 1, 2].find? fun shift => 4 * R.aSize shift * R.bSize shift ≤ fbAvail

/-- The two edge directions of each pixel, in the order of the loops. -/
def places : List (ℤ × ℕ × ℕ) :=
  (List.range R.h).flatMap fun y => (List.range R.w).flatMap fun x => [(1, x, y), (-1, x, y)]

/-- `a` and `b` for an edge direction. -/
def aOf (field : GradientField) (p : ℤ × ℕ × ℕ) : ℤ := p.2.1 + p.1 * R.rcos (field.theta (R.w * p.2.2 + p.2.1)) - R.r
def bOf (field : GradientField) (p : ℤ × ℕ × ℕ) : ℤ := p.2.2 + p.1 * R.rsin (field.theta (R.w * p.2.2 + p.2.1)) - R.r

def accIndex (a b : ℤ) : ℤ := ((b / 2 ^ shift) + 1) * R.aSize shift + ((a / 2 ^ shift) + 1)

/-- The cell and the magnitude that is added to it, if the circle fits in the window. -/
def vote (field : GradientField) (p : ℤ × ℕ × ℕ) : Option (ℤ × ℕ) :=
  let a := R.aOf field p
  let b := R.bOf field p
  if field.magnitude (R.w * p.2.2 + p.2.1) = 0 then none
  else if a < 0 ∨ R.wSize ≤ a then none
  else if b < 0 ∨ R.hSize ≤ b then none
  else some (R.accIndex shift a b, (field.magnitude (R.w * p.2.2 + p.2.1)).toNat)

def votes (field : GradientField) : List (ℤ × ℕ) := R.places.filterMap (R.vote shift field)

end HoughRound

/-- `acc[acc_index] += magnitude` -/
def addVote (acc : ℤ → ℕ) (v : ℤ × ℕ) : ℤ → ℕ := Function.update acc v.1 ((acc v.1 + v.2) % 4294967296)

def addVotes (votes : List (ℤ × ℕ)) : ℤ → ℕ := votes.foldl addVote fun _ => 0

/-! ### Peaks -/

/-- A `find_circles_list_lnk_data_t`. -/
structure Circle where
  x : ℤ
  y : ℤ
  r : UInt16
  magnitude : UInt16
deriving DecidableEq, Repr

section Peaks
variable (R : HoughRound) (shift : ℕ) (threshold : ℕ) (acc : ℤ → ℕ)

def isCirclePeak (i : ℤ) : Bool :=
  threshold ≤ acc i && acc (i - R.aSize shift - 1) ≤ acc i && acc (i - R.aSize shift) ≤ acc i &&
    acc (i - R.aSize shift + 1) ≤ acc i && acc (i - 1) ≤ acc i && acc (i + 1) ≤ acc i &&
    acc (i + R.aSize shift - 1) ≤ acc i && acc (i + R.aSize shift) ≤ acc i && acc (i + R.aSize shift + 1) ≤ acc i

/-- `lnk_data`: the fields are narrower than the values. -/
def pushCircle (x y : ℤ) (r val : ℕ) : Circle := ⟨int16 x, int16 y, .ofNat r, .ofNat val⟩

/-- The loop over `x`; at most one more round than there are columns left. -/
def peaksOfRow (y : ℤ) : ℕ → ℤ → List Circle
  | 0, _ => []
  | fuel + 1, x =>
    if x < R.aSize shift - 1 then
      let i := R.aSize shift * y + x
      if isCirclePeak R shift threshold acc i then
        pushCircle ((x - 1) * 2 ^ shift + R.r + R.roiX) ((y - 1) * 2 ^ shift + R.r + R.roiY) R.r (acc i) ::
          peaksOfRow y fuel (if acc (i + 1) < acc i then x + 2 else x + 1)
      else peaksOfRow y fuel (x + 1)
    else []

def circlePeaks : List Circle :=
  (List.range (R.bSize shift - 2).toNat).flatMap fun (y : ℕ) =>
    peaksOfRow R shift threshold acc (y + 1) (R.aSize shift).toNat 1

end Peaks

/-- A round of the loop over the radii. -/
def circlesOfRadius (R : HoughRound) (field : GradientField) (threshold : ℕ) (fbAvail : ℤ) : Option (List Circle) :=
  (R.houghShift fbAvail).map fun shift => circlePeaks R shift threshold (addVotes (R.votes shift field))

/-! ### Merging -/

/-- The division of `uint32_t`. What it gives for 0 is left open by the language, and is this on the processor. -/
def divu (a : ℤ) (b : ℕ) : ℕ := if b = 0 then 4294967295 else (a % 4294967296).toNat / b

/-- `tmp_data` is merged into `lnk_data`. -/
def mergeCircle (lnk tmp : Circle) : Circle :=
  let magnitude := lnk.magnitude.toNat + tmp.magnitude.toNat
  { x := int16 (divu (lnk.x * lnk.magnitude.toNat + tmp.x * tmp.magnitude.toNat) magnitude)
    y := int16 (divu (lnk.y * lnk.magnitude.toNat + tmp.y * tmp.magnitude.toNat) magnitude)
    r := .ofNat (divu (lnk.r.toNat * lnk.magnitude.toNat + tmp.r.toNat * tmp.magnitude.toNat) magnitude)
    magnitude := .ofNat (magnitude / 2) }

def circleMerger (xMargin yMargin rMargin : ℕ) : Merger Unit Circle where
  test := fun _ a b => (decide (|a.x - b.x| < xMargin) && decide (|a.y - b.y| < yMargin) &&
    decide (|(a.r.toNat : ℤ) - b.r.toNat| < rMargin), ())
  join := mergeCircle

/-- The merging loop of `imlib_find_circles`, with at most `fuel` passes. -/
def mergeCircles (xMargin yMargin rMargin fuel : ℕ) (out : List Circle) : Option (State Unit Circle) :=
  (circleMerger xMargin yMargin rMargin).loop fuel ⟨out, (), false, []⟩

/-! ### What merging and voting should do -/

/-- The weighted mean, rounded down, and between the two values. -/
structure IsMean (a b : ℤ) (m n : ℕ) (c : ℤ) : Prop where
  eq : c = (a * m + b * n) / (m + n : ℕ)
  between : min a b ≤ c ∧ c ≤ max a b

/-- The merging of two circles divides by a number that is not zero, and gives the means. -/
structure Averages (a b : Circle) : Prop where
  pos : a.magnitude.toNat + b.magnitude.toNat ≠ 0
  x : IsMean a.x b.x a.magnitude.toNat b.magnitude.toNat (mergeCircle a b).x
  y : IsMean a.y b.y a.magnitude.toNat b.magnitude.toNat (mergeCircle a b).y
  r : IsMean a.r.toNat b.r.toNat a.magnitude.toNat b.magnitude.toNat (mergeCircle a b).r.toNat

/-- Both magnitudes are 0, or the sum for the radius does not fit in 32 bits. -/
def Unweighted (a b : Circle) : Prop := a.magnitude.toNat + b.magnitude.toNat = 0 ∨
  4294967296 ≤ a.r.toNat * a.magnitude.toNat + b.r.toNat * b.magnitude.toNat

/-- The centre is in an image of at most 640 x 480 pixels. -/
def Circle.InImage (c : Circle) : Prop := (0 ≤ c.x ∧ c.x < 640) ∧ 0 ≤ c.y ∧ c.y < 480

/-- The sums of the accumulator are smaller than `2 ^ 32` whenever a vote is added. -/
def VotesFit (votes : List (ℤ × ℕ)) : Prop := ∀ done v rest, votes = done ++ v :: rest →
  addVotes done v.1 + v.2 < 4294967296

/-- The loop ends, and each merge averages. -/
def MergesAverage (xMargin yMargin rMargin : ℕ) (out : List Circle) : Prop :=
  ∃ fuel s, mergeCircles xMargin yMargin rMargin fuel out = some s ∧ ∀ p ∈ s.log, Averages p.1 p.2

/-! ### Means -/

section Mean
variable {a b : ℤ} {m n : ℕ}

theorem sum_bounds (a b : ℤ) (m n : ℕ) :
    min a b * (m + n : ℕ) ≤ a * m + b * n ∧ a * m + b * n ≤ max a b * (m + n : ℕ) := by
  have hm := Int.natCast_nonneg m
  have hn := Int.natCast_nonneg n
  rw [Nat.cast_add, mul_add, mul_add]
  constructor
  · exact add_le_add (mul_le_mul_of_nonneg_right (min_le_left a b) hm)
      (mul_le_mul_of_nonneg_right (min_le_right a b) hn)
  · exact add_le_add (mul_le_mul_of_nonneg_right (le_max_left a b) hm)
      (mul_le_mul_of_nonneg_right (le_max_right a b) hn)

theorem mean_between (h : m + n ≠ 0) :
    min a b ≤ (a * m + b * n) / (m + n : ℕ) ∧ (a * m + b * n) / (m + n : ℕ) ≤ max a b := by
  have hpos : (0 : ℤ) < (m + n : ℕ) := by omega
  obtain ⟨hlow, hhigh⟩ := sum_bounds a b m n
  exact ⟨(Int.le_ediv_iff_mul_le hpos).mpr hlow, Int.ediv_le_of_le_mul hpos hhigh⟩

/-- The division gives the mean of two values that are not too large. -/
theorem divu_eq (h : m + n ≠ 0) (ha : 0 ≤ a) (hb : 0 ≤ b) (hlt : a * m + b * n < 4294967296) :
    ((divu (a * m + b * n) (m + n) : ℕ) : ℤ) = (a * m + b * n) / (m + n : ℕ) := by
  have hsum : 0 ≤ a * m + b * n := by positivity
  rw [divu, if_neg h, Int.emod_eq_of_lt hsum hlt, Int.natCast_ediv, Int.toNat_of_nonneg hsum]

theorem isMean_of_lt {bound : ℤ} (h : m + n ≠ 0) (ha : 0 ≤ a ∧ a < bound) (hb : 0 ≤ b ∧ b < bound)
    (hm : m < 65536) (hn : n < 65536) (hbound : bound ≤ 32768) :
    IsMean a b m n (int16 (divu (a * m + b * n) (m + n))) := by
  obtain ⟨hlow, hhigh⟩ := mean_between (a := a) (b := b) h
  have hsum := (sum_bounds a b m n).2
  have hmax : max a b * (m + n : ℕ) ≤ 32767 * 131070 :=
    mul_le_mul (by omega) (by omega) (by omega) (by omega)
  have hdivu := divu_eq h ha.1 hb.1 (by omega)
  have hfits : int16 (divu (a * m + b * n) (m + n)) = (a * m + b * n) / (m + n : ℕ) := by
    rw [hdivu, int16]
    omega
  exact ⟨hfits, by rw [hfits]; exact ⟨hlow, hhigh⟩⟩

end Mean

section Merge
variable {a b : Circle}

theorem magnitude_lt (c : Circle) : c.magnitude.toNat < 65536 := c.magnitude.toNat_lt

/-- What is lost is more than the divisor. -/
theorem mod_div_lt {s k m : ℕ} (hm : 0 < m) (hmk : m ≤ k) (hks : k ≤ s) : s % k / m < s / m := by
  have hsplit := Nat.mod_add_div s k
  have hquot : 1 ≤ s / k := (Nat.one_le_div_iff (hm.trans_le hmk)).mpr hks
  have hprod : k ≤ k * (s / k) := Nat.le_mul_of_pos_right k hquot
  have hstep : (s % k + m) / m ≤ s / m := Nat.div_le_div_right (by omega)
  rw [Nat.add_div_right _ hm] at hstep
  exact hstep

theorem divu_natCast {m : ℕ} (h : m ≠ 0) (s : ℕ) : divu (s : ℤ) m = s % 4294967296 / m := by
  rw [divu, if_neg h]
  congr 1

theorem mergeCircle_r_toNat (a b : Circle) : (mergeCircle a b).r.toNat =
    divu ((a.r.toNat * a.magnitude.toNat + b.r.toNat * b.magnitude.toNat : ℕ) : ℤ)
      (a.magnitude.toNat + b.magnitude.toNat) % 65536 := by
  rw [Nat.cast_add, Nat.cast_mul, Nat.cast_mul]
  exact UInt16.toNat_ofNat'

/-- The radius: the sum has to fit. -/
theorem radius_mean_iff (h : a.magnitude.toNat + b.magnitude.toNat ≠ 0) :
    IsMean a.r.toNat b.r.toNat a.magnitude.toNat b.magnitude.toNat (mergeCircle a b).r.toNat ↔
      a.r.toNat * a.magnitude.toNat + b.r.toNat * b.magnitude.toNat < 4294967296 := by
  obtain ⟨hlow, hhigh⟩ := mean_between (a := (a.r.toNat : ℤ)) (b := (b.r.toNat : ℤ)) h
  have hr := mergeCircle_r_toNat a b
  have hsum : (a.r.toNat : ℤ) * a.magnitude.toNat + b.r.toNat * b.magnitude.toNat =
      (a.r.toNat * a.magnitude.toNat + b.r.toNat * b.magnitude.toNat : ℕ) := by push_cast; rfl
  have hma := magnitude_lt a
  have hmb := magnitude_lt b
  rw [divu_natCast h] at hr
  rw [hsum, ← Int.natCast_ediv] at hlow hhigh
  generalize a.r.toNat * a.magnitude.toNat + b.r.toNat * b.magnitude.toNat = sum at *
  constructor
  · rintro ⟨heq, -⟩
    by_contra hge
    have hlost := mod_div_lt (s := sum) (k := 4294967296) (m := a.magnitude.toNat + b.magnitude.toNat)
      (by omega) (by omega) (not_lt.mp hge)
    have hle := Nat.mod_le (sum % 4294967296 / (a.magnitude.toNat + b.magnitude.toNat)) 65536
    rw [hsum, ← Int.natCast_ediv, Nat.cast_inj, hr] at heq
    omega
  · intro hlt
    have hra := a.r.toNat_lt
    have hrb := b.r.toNat_lt
    rw [Nat.mod_eq_of_lt hlt, Nat.mod_eq_of_lt (by omega)] at hr
    have hfits : (((mergeCircle a b).r.toNat : ℕ) : ℤ) =
        ((a.r.toNat : ℤ) * a.magnitude.toNat + b.r.toNat * b.magnitude.toNat) /
          (a.magnitude.toNat + b.magnitude.toNat : ℕ) := by
      rw [hr, hsum, Int.natCast_ediv]
    refine ⟨hfits, ?_⟩
    rw [hr]
    exact ⟨hlow, hhigh⟩

theorem averages_iff (ha : a.InImage) (hb : b.InImage) : Averages a b ↔ ¬ Unweighted a b := by
  rw [Unweighted, not_or, not_le]
  constructor
  · intro h
    exact ⟨h.pos, (radius_mean_iff h.pos).mp h.r⟩
  · rintro ⟨hpos, hlt⟩
    refine ⟨hpos, ?_, ?_, (radius_mean_iff hpos).mpr hlt⟩
    · exact isMean_of_lt hpos ha.1 hb.1 (magnitude_lt a) (magnitude_lt b) (by decide)
    · exact isMean_of_lt hpos ha.2 hb.2 (magnitude_lt a) (magnitude_lt b) (by decide)

theorem Averages.inImage (h : Averages a b) (ha : a.InImage) (hb : b.InImage) : (mergeCircle a b).InImage := by
  obtain ⟨⟨hax, hax'⟩, hay, hay'⟩ := ha
  obtain ⟨⟨hbx, hbx'⟩, hby, hby'⟩ := hb
  obtain ⟨hx, hx'⟩ := h.x.between
  obtain ⟨hy, hy'⟩ := h.y.between
  exact ⟨⟨by omega, by omega⟩, by omega, by omega⟩

end Merge

/-- The loop ends, and what it has merged comes from the list. -/
theorem mergeCircles_ends (xMargin yMargin rMargin : ℕ) (out : List Circle) : ∃ fuel s,
    mergeCircles xMargin yMargin rMargin fuel out = some s ∧ Merges mergeCircle out s.log s.out := by
  obtain ⟨s, new, hs, hm, hlog⟩ := loop_terminates (M := circleMerger xMargin yMargin rMargin) (out.length + 1)
    ⟨out, (), false, []⟩ (Nat.lt_succ_self _)
  refine ⟨out.length + 1, s, hs, ?_⟩
  rw [hlog, List.nil_append]
  exact hm

theorem mergeCircles_unique {xMargin yMargin rMargin fuel fuel' : ℕ} {out : List Circle} {s s' : State Unit Circle}
    (h : mergeCircles xMargin yMargin rMargin fuel out = some s)
    (h' : mergeCircles xMargin yMargin rMargin fuel' out = some s') : s = s' := by
  have h1 := loop_mono h (le_max_left fuel fuel')
  have h2 := loop_mono h' (le_max_right fuel fuel')
  exact Option.some.inj (h1.symm.trans h2)

/-- The run averages exactly if no merge of it is of two circles without weight. -/
theorem mergesAverage_iff {xMargin yMargin rMargin : ℕ} {out : List Circle} (hin : ∀ c ∈ out, c.InImage) :
    MergesAverage xMargin yMargin rMargin out ↔
      ∀ fuel s, mergeCircles xMargin yMargin rMargin fuel out = some s → ∀ p ∈ s.log, ¬ Unweighted p.1 p.2 := by
  obtain ⟨fuel, s, hs, hm⟩ := mergeCircles_ends xMargin yMargin rMargin out
  constructor
  · rintro ⟨fuel', s', hs', hall⟩ fuel'' s'' hs''
    obtain rfl := mergeCircles_unique hs hs'
    obtain rfl := mergeCircles_unique hs hs''
    have hlog := hm.forall_mem_log (fun p hp h1 h2 => (hall p hp).inImage h1 h2) hin
    exact fun p hp => (averages_iff (hlog p hp).1 (hlog p hp).2).mp (hall p hp)
  · intro hall
    have hlog := hm.forall_mem_log
      (fun p hp h1 h2 => ((averages_iff h1 h2).mpr (hall fuel s hs p hp)).inImage h1 h2) hin
    exact ⟨fuel, s, hs, fun p hp => (averages_iff (hlog p hp).1 (hlog p hp).2).mpr (hall fuel s hs p hp)⟩

/-- A circle with a magnitude, and a radius that is not too large. -/
def Circle.Weighted (c : Circle) : Prop := 0 < c.magnitude.toNat ∧ c.r.toNat ≤ 32767

theorem Circle.Weighted.not_unweighted {a b : Circle} (ha : a.Weighted) (hb : b.Weighted) : ¬ Unweighted a b := by
  have hra : a.r.toNat * a.magnitude.toNat ≤ 32767 * 65535 :=
    Nat.mul_le_mul ha.2 (Nat.le_of_lt_succ (magnitude_lt a))
  have hrb : b.r.toNat * b.magnitude.toNat ≤ 32767 * 65535 :=
    Nat.mul_le_mul hb.2 (Nat.le_of_lt_succ (magnitude_lt b))
  rw [Unweighted, not_or]
  exact ⟨by have := ha.1; omega, by omega⟩

theorem Circle.Weighted.mergeCircle {a b : Circle} (ha : a.Weighted) (hb : b.Weighted) :
    (mergeCircle a b).Weighted := by
  have hweight := ha.not_unweighted hb
  rw [Unweighted, not_or, not_le] at hweight
  obtain ⟨-, hhigh⟩ := ((radius_mean_iff hweight.1).mpr hweight.2).between
  have hma := magnitude_lt a
  have hmb := magnitude_lt b
  have hmag : (Vision.mergeCircle a b).magnitude.toNat = (a.magnitude.toNat + b.magnitude.toNat) / 2 % 65536 :=
    UInt16.toNat_ofNat'
  obtain ⟨ha0, har⟩ := ha
  obtain ⟨hb0, hbr⟩ := hb
  exact ⟨by omega, by omega⟩

/-- No magnitude gets lost on the way: circles that have one are averaged. -/
theorem mergesAverage_of_weighted (xMargin yMargin rMargin : ℕ) {out : List Circle} (hin : ∀ c ∈ out, c.InImage)
    (hweight : ∀ c ∈ out, c.Weighted) : MergesAverage xMargin yMargin rMargin out := by
  rw [mergesAverage_iff hin]
  intro fuel s hs p hp
  obtain ⟨fuel', s', hs', hm⟩ := mergeCircles_ends xMargin yMargin rMargin out
  obtain rfl := mergeCircles_unique hs hs'
  obtain ⟨h1, h2⟩ := (hm.forall_mem (fun a b => Circle.Weighted.mergeCircle) hweight).2 p hp
  exact h1.not_unweighted h2

/-! ### Votes for a cell -/

theorem addVotes_le (i : ℤ) (l : List (ℤ × ℕ)) : addVotes l i ≤ ((l.filter fun v => v.1 = i).map Prod.snd).sum := by
  induction l using List.reverseRecOn with
  | nil => exact le_refl _
  | append_singleton l v ih =>
    rw [addVotes] at ih ⊢
    rw [List.foldl_append, List.foldl_cons, List.foldl_nil, addVote, List.filter_append, List.map_append,
      List.sum_append]
    by_cases hv : v.1 = i
    · rw [hv, Function.update_self]
      simp only [hv, List.filter_cons_of_pos, decide_true, List.filter_nil, List.map_cons, List.map_nil,
        List.sum_singleton]
      exact (Nat.mod_le _ _).trans (Nat.add_le_add_right ih _)
    · rw [Function.update_of_ne (Ne.symm hv)]
      exact ih.trans (Nat.le_add_right _ _)

namespace HoughRound
variable {R : HoughRound} {shift : ℕ} {field : GradientField}

theorem mem_places {p : ℤ × ℕ × ℕ} (h : p ∈ R.places) : p.1 = 1 ∨ p.1 = -1 := by
  simp only [places, List.mem_flatMap, List.mem_cons, List.not_mem_nil, or_false] at h
  obtain ⟨y, -, x, -, rfl | rfl⟩ := h
  · exact Or.inl rfl
  · exact Or.inr rfl

theorem nodup_places : R.places.Nodup := by
  have hrow : ∀ y : ℕ, ((List.range R.w).flatMap fun x => [((1 : ℤ), x, y), (-1, x, y)]).Nodup := by
    intro y
    rw [List.nodup_flatMap]
    refine ⟨fun x _ => by simp, List.nodup_range.imp fun hne => ?_⟩
    simpa [Function.onFun] using hne.symm
  rw [places, List.nodup_flatMap]
  refine ⟨fun y _ => hrow y, List.nodup_range.imp fun hne => ?_⟩
  intro p hp hp'
  simp only [List.mem_flatMap, List.mem_cons, List.not_mem_nil, or_false] at hp hp'
  obtain ⟨x, -, hp⟩ := hp
  obtain ⟨x', -, hp'⟩ := hp'
  rcases hp with rfl | rfl
  · simp [hne] at hp'
  · simp [hne] at hp'

/-- A vote is for a centre in the window. -/
theorem vote_eq_some {p : ℤ × ℕ × ℕ} {v : ℤ × ℕ} (h : R.vote shift field p = some v) :
    (0 ≤ R.aOf field p ∧ R.aOf field p < R.wSize) ∧ R.accIndex shift (R.aOf field p) (R.bOf field p) = v.1 ∧
      v.2 ≤ 65535 := by
  simp only [vote] at h
  split_ifs at h with h1 h2 h3
  obtain rfl := Option.some.inj h
  have hmag := (field.magnitude (R.w * p.2.2 + p.2.1)).toNat_lt
  exact ⟨⟨by omega, by omega⟩, rfl, by simp only; omega⟩

theorem accIndex_inj {a b a' b' : ℤ} (ha : 0 ≤ a ∧ a < R.wSize) (ha' : 0 ≤ a' ∧ a' < R.wSize)
    (h : R.accIndex shift a b = R.accIndex shift a' b') :
    a / 2 ^ shift = a' / 2 ^ shift ∧ b / 2 ^ shift = b' / 2 ^ shift := by
  have hpos : (0 : ℤ) < 2 ^ shift := by positivity
  have hcol : ∀ a, 0 ≤ a ∧ a < R.wSize → 0 ≤ a / 2 ^ shift + 1 ∧ a / 2 ^ shift + 1 < R.aSize shift := by
    intro a ha
    have h0 : 0 ≤ a / 2 ^ shift := Int.ediv_nonneg ha.1 hpos.le
    have hle : a / 2 ^ shift ≤ (R.wSize + 2 ^ shift - 1) / 2 ^ shift := Int.ediv_le_ediv hpos (by omega)
    rw [aSize, Int.tdiv_eq_ediv_of_nonneg (by omega)]
    omega
  obtain ⟨hb, ha⟩ := Schemes.rowMajor_inj (hcol a ha) (hcol a' ha') h
  exact ⟨by omega, by omega⟩

/-- A direction, an angle, and a place in a cell. -/
def voteKey (R : HoughRound) (shift : ℕ) (field : GradientField) (p : ℤ × ℕ × ℕ) : ℤ × Fin 360 × ℕ × ℕ :=
  (p.1, field.theta (R.w * p.2.2 + p.2.1), (R.aOf field p % 2 ^ shift).toNat, (R.bOf field p % 2 ^ shift).toNat)

def voteKeys (angles : Finset (Fin 360)) (side : ℕ) : Finset (ℤ × Fin 360 × ℕ × ℕ) :=
  {1, -1} ×ˢ (angles ×ˢ (Finset.range side ×ˢ Finset.range side))

theorem card_voteKeys (angles : Finset (Fin 360)) (side : ℕ) :
    (voteKeys angles side).card = 2 * (angles.card * (side * side)) := by
  rw [voteKeys, Finset.card_product, Finset.card_product, Finset.card_product, Finset.card_pair (by decide),
    Finset.card_range]

theorem voteKey_mem {angles : Finset (Fin 360)} (hangles : ∀ theta, theta ∈ angles) {p : ℤ × ℕ × ℕ}
    (hp : p ∈ R.places) : R.voteKey shift field p ∈ voteKeys angles (2 ^ shift) := by
  have hpos : (0 : ℤ) < 2 ^ shift := by positivity
  have hmod : ∀ c : ℤ, (c % 2 ^ shift).toNat ∈ Finset.range (2 ^ shift) := by
    intro c
    rw [Finset.mem_range, Int.toNat_lt (Int.emod_nonneg c hpos.ne')]
    exact_mod_cast Int.emod_lt_of_pos c hpos
  have hsign : p.1 ∈ ({1, -1} : Finset ℤ) := by simpa using mem_places hp
  simp only [voteKeys, voteKey, Finset.mem_product]
  exact ⟨hsign, hangles _, hmod _, hmod _⟩

theorem emod_eq_of_toNat {c d : ℤ} (h : (c % 2 ^ shift).toNat = (d % 2 ^ shift).toNat) :
    c % 2 ^ shift = d % 2 ^ shift := by
  have hpos : (0 : ℤ) < 2 ^ shift := by positivity
  rw [← Int.toNat_of_nonneg (Int.emod_nonneg c hpos.ne'), h, Int.toNat_of_nonneg (Int.emod_nonneg d hpos.ne')]

/-- The places whose vote is for the cell. -/
def placesFor (R : HoughRound) (shift : ℕ) (field : GradientField) (i : ℤ) : List (ℤ × ℕ × ℕ) :=
  R.places.filter fun p => (R.vote shift field p).any fun v => v.1 = i

theorem mem_placesFor {i : ℤ} {p : ℤ × ℕ × ℕ} (h : p ∈ R.placesFor shift field i) :
    p ∈ R.places ∧ ∃ v, R.vote shift field p = some v ∧ v.1 = i := by
  obtain ⟨hmem, hany⟩ := List.mem_filter.mp h
  obtain ⟨v, hv, hvi⟩ := (Option.any_eq_true _ _).mp hany
  exact ⟨hmem, v, hv, by simpa using hvi⟩

/-- The key leaves one pixel for a cell. -/
theorem length_placesFor_le (R : HoughRound) (shift : ℕ) (field : GradientField) {angles : Finset (Fin 360)}
    (hangles : ∀ theta, theta ∈ angles) (i : ℤ) :
    (R.placesFor shift field i).length ≤ 2 * (angles.card * (2 ^ shift * 2 ^ shift)) := by
  have hnodup : (R.placesFor shift field i).Nodup := nodup_places.filter _
  rw [← List.length_map (f := R.voteKey shift field), ← card_voteKeys,
    ← List.toFinset_card_of_nodup ((List.nodup_map_iff_inj_on hnodup).mpr ?_)]
  · refine Finset.card_le_card fun k hk => ?_
    obtain ⟨p, hp, rfl⟩ := List.mem_map.mp (List.mem_toFinset.mp hk)
    exact voteKey_mem hangles (mem_placesFor hp).1
  · intro p hp q hq hkey
    obtain ⟨-, v, hv, hvi⟩ := mem_placesFor hp
    obtain ⟨-, v', hv', hvi'⟩ := mem_placesFor hq
    obtain ⟨hpa, hpi, -⟩ := vote_eq_some hv
    obtain ⟨hqa, hqi, -⟩ := vote_eq_some hv'
    obtain ⟨hdiv, hdiv'⟩ := accIndex_inj hpa hqa (by rw [hpi, hqi, hvi, hvi'])
    simp only [voteKey, Prod.mk.injEq] at hkey
    obtain ⟨hsign, htheta, hmod, hmod'⟩ := hkey
    have ha : R.aOf field p = R.aOf field q := by
      rw [← Int.mul_ediv_add_emod (R.aOf field p) (2 ^ shift), hdiv, emod_eq_of_toNat hmod, Int.mul_ediv_add_emod]
    have hb : R.bOf field p = R.bOf field q := by
      rw [← Int.mul_ediv_add_emod (R.bOf field p) (2 ^ shift), hdiv', emod_eq_of_toNat hmod', Int.mul_ediv_add_emod]
    rw [aOf, aOf, hsign, htheta] at ha
    rw [bOf, bOf, hsign, htheta] at hb
    exact Prod.ext hsign (Prod.ext (by omega) (by omega))

theorem length_placesFor_le_of_shift (R : HoughRound) (field : GradientField) (hshift : shift ≤ 2) (i : ℤ) :
    (R.placesFor shift field i).length ≤ 11520 := by
  have hle := length_placesFor_le R shift field Finset.mem_univ i
  rw [Finset.card_univ, Fintype.card_fin] at hle
  obtain rfl | rfl | rfl : shift = 0 ∨ shift = 1 ∨ shift = 2 := by omega
  · exact hle.trans (by decide)
  · exact hle.trans (by decide)
  · exact hle.trans (by decide)

theorem votesFit (R : HoughRound) (field : GradientField) (hshift : shift ≤ 2) : VotesFit (R.votes shift field) := by
  intro done v rest hsplit
  have hle := addVotes_le v.1 done
  have hall : ((done.filter fun u => u.1 = v.1).map Prod.snd).sum + v.2 ≤
      (((R.votes shift field).filter fun u => u.1 = v.1).map Prod.snd).sum := by
    rw [hsplit, List.filter_append, List.filter_cons_of_pos (by simp), List.map_append, List.map_cons, List.sum_append,
      List.sum_cons]
    omega
  have hcount : ((R.votes shift field).filter fun u => u.1 = v.1).length ≤ 11520 := by
    refine le_of_eq_of_le ?_ (length_placesFor_le_of_shift R field hshift v.1)
    rw [placesFor, ← List.countP_eq_length_filter, ← List.countP_eq_length_filter, votes, List.countP_filterMap]
    refine List.countP_congr fun p _ => ?_
    cases R.vote shift field p with
    | none => simp
    | some u => simp
  have hsum : (((R.votes shift field).filter fun u => u.1 = v.1).map Prod.snd).sum ≤ 11520 * 65535 := by
    refine (List.sum_le_card_nsmul _ 65535 ?_).trans ?_
    · intro m hm
      obtain ⟨u, hu, rfl⟩ := List.mem_map.mp hm
      obtain ⟨p, -, hp⟩ := List.mem_filterMap.mp (List.mem_of_mem_filter hu)
      exact (vote_eq_some hp).2.2
    · rw [List.length_map, smul_eq_mul]
      exact Nat.mul_le_mul_right _ hcount
  omega

/-- The accumulator is divided by at most 4. -/
theorem houghShift_le {fbAvail : ℤ} (h : R.houghShift fbAvail = some shift) : shift ≤ 2 := by
  have hmem := List.mem_of_find?_eq_some h
  simp only [List.mem_cons, List.not_mem_nil, or_false] at hmem
  omega

end HoughRound

/-! ### Where the peaks are -/

/-- A cell with its offset removed is in the window again. -/
theorem cell_lt {shift : ℕ} {x : ℤ} (size : ℤ) (hsize : 0 ≤ size) (hx1 : 1 ≤ x)
    (hx : x < 1 + (size + 2 ^ shift - 1).tdiv (2 ^ shift) + 1 - 1) :
    0 ≤ (x - 1) * 2 ^ shift ∧ (x - 1) * 2 ^ shift < size := by
  have hpos : (0 : ℤ) < 2 ^ shift := by positivity
  refine ⟨mul_nonneg (by omega) hpos.le, ?_⟩
  rw [Int.tdiv_eq_ediv_of_nonneg (by omega)] at hx
  have hmul : x * 2 ^ shift ≤ size + 2 ^ shift - 1 := (Int.le_ediv_iff_mul_le hpos).mp (by omega)
  rw [sub_mul, one_mul]
  omega

section PeaksInImage
variable {R : HoughRound} {shift threshold : ℕ} {acc : ℤ → ℕ}

/-- The region is in an image of at most 640 x 480 pixels, and a circle fits into it. -/
structure HoughRound.Fits (R : HoughRound) : Prop where
  x : 0 ≤ R.roiX ∧ R.roiX + R.w ≤ 640
  y : 0 ≤ R.roiY ∧ R.roiY + R.h ≤ 480
  r : 2 * R.r ≤ R.w ∧ 2 * R.r ≤ R.h

theorem pushCircle_inImage (hR : R.Fits) {x y : ℤ} (hx : 1 ≤ x ∧ x < R.aSize shift - 1)
    (hy : 1 ≤ y ∧ y < R.bSize shift - 1) (val : ℕ) :
    (pushCircle ((x - 1) * 2 ^ shift + R.r + R.roiX) ((y - 1) * 2 ^ shift + R.r + R.roiY) R.r val).InImage := by
  obtain ⟨hX, hX'⟩ := hR.x
  obtain ⟨hY, hY'⟩ := hR.y
  obtain ⟨hrw, hrh⟩ := hR.r
  obtain ⟨hcx, hcx'⟩ := cell_lt R.wSize (by unfold HoughRound.wSize; omega) hx.1 hx.2
  obtain ⟨hcy, hcy'⟩ := cell_lt R.hSize (by unfold HoughRound.hSize; omega) hy.1 hy.2
  rw [HoughRound.wSize] at hcx'
  rw [HoughRound.hSize] at hcy'
  simp only [pushCircle, Circle.InImage, int16]
  omega

theorem peaksOfRow_inImage (hR : R.Fits) {y : ℤ} (hy : 1 ≤ y ∧ y < R.bSize shift - 1) : ∀ (fuel : ℕ) (x : ℤ),
    1 ≤ x → ∀ c ∈ peaksOfRow R shift threshold acc y fuel x, c.InImage
  | 0, x, _ => by simp [peaksOfRow]
  | fuel + 1, x, hx1 => by
      rw [peaksOfRow]
      simp only
      split_ifs with hx hpeak hskip
      · exact List.forall_mem_cons.mpr
          ⟨pushCircle_inImage hR ⟨hx1, hx⟩ hy _, peaksOfRow_inImage hR hy fuel (x + 2) (by omega)⟩
      · exact List.forall_mem_cons.mpr
          ⟨pushCircle_inImage hR ⟨hx1, hx⟩ hy _, peaksOfRow_inImage hR hy fuel (x + 1) (by omega)⟩
      · exact peaksOfRow_inImage hR hy fuel (x + 1) (by omega)
      · simp

/-- All circles of a round have their centres in the image. -/
theorem circlesOfRadius_inImage {field : GradientField} {fbAvail : ℤ} {circles : List Circle} (hR : R.Fits)
    (h : circlesOfRadius R field threshold fbAvail = some circles) : ∀ c ∈ circles, c.InImage := by
  obtain ⟨shift, -, rfl⟩ := Option.map_eq_some_iff.mp h
  intro c hc
  obtain ⟨y, hy, hc⟩ := List.mem_flatMap.mp hc
  have hlt := List.mem_range.mp hy
  exact peaksOfRow_inImage hR ⟨by omega, by omega⟩ _ 1 (le_refl _) c hc

end PeaksInImage

/-- The merging loop ends and averages, and the votes fit, exactly if no merge of the run is of two circles without
    weight. -/
theorem imlib_find_circles_iff (xMargin yMargin rMargin : ℕ) (out : List Circle) (hin : ∀ c ∈ out, c.InImage) :
    (MergesAverage xMargin yMargin rMargin out ∧ ∀ (R : HoughRound) (field : GradientField) (fbAvail : ℤ) (shift : ℕ),
      R.houghShift fbAvail = some shift → VotesFit (R.votes shift field)) ↔
      ∀ fuel s, mergeCircles xMargin yMargin rMargin fuel out = some s → ∀ p ∈ s.log, ¬ Unweighted p.1 p.2 := by
  rw [mergesAverage_iff hin]
  exact and_iff_left fun R field fbAvail shift h => R.votesFit field (HoughRound.houghShift_le h)

/-- Circles of weight are merged to one. -/
theorem imlib_find_circles_iff_two :
    (MergesAverage 10 10 10 [⟨20, 30, 5, 2000⟩, ⟨22, 31, 7, 3000⟩] ∧
      ∀ (R : HoughRound) (field : GradientField) (fbAvail : ℤ) (shift : ℕ),
        R.houghShift fbAvail = some shift → VotesFit (R.votes shift field)) ↔
      ∀ fuel s, mergeCircles 10 10 10 fuel [⟨20, 30, 5, 2000⟩, ⟨22, 31, 7, 3000⟩] = some s →
        ∀ p ∈ s.log, ¬ Unweighted p.1 p.2 :=
  imlib_find_circles_iff 10 10 10 [⟨20, 30, 5, 2000⟩, ⟨22, 31, 7, 3000⟩] (by simp [Circle.InImage])

/-- A region of six by six pixels without any gradient. -/
def flatRound : HoughRound := ⟨6, 6, 0, 0, 2, fun _ => 0, fun _ => 0⟩

def flatField : GradientField := ⟨fun _ => 0, fun _ => 0⟩

/-- With a threshold of 0 all cells are peaks of magnitude 0, and the first two are merged. -/
theorem find_circles_threshold_zero :
    ¬ MergesAverage 10 10 10 (circlePeaks flatRound 0 0 (addVotes (flatRound.votes 0 flatField))) := by
  have hvotes : addVotes (flatRound.votes 0 flatField) = fun _ => 0 := by
    have hnone : flatRound.votes 0 flatField = [] := by decide
    rw [hnone]
    rfl
  have hlist : circlePeaks flatRound 0 0 (fun _ => 0) = [⟨2, 2, 2, 0⟩, ⟨3, 2, 2, 0⟩, ⟨2, 3, 2, 0⟩, ⟨3, 3, 2, 0⟩] := by
    decide
  rw [hvotes, hlist, mergesAverage_iff (by simp [Circle.InImage])]
  intro hall
  have hrun : (mergeCircles 10 10 10 5 [⟨2, 2, 2, 0⟩, ⟨3, 2, 2, 0⟩, ⟨2, 3, 2, 0⟩, ⟨3, 3, 2, 0⟩]).map
      (fun s => s.log.head?) = some (some (⟨2, 2, 2, 0⟩, ⟨3, 2, 2, 0⟩)) := by decide
  obtain ⟨s, hs, hhead⟩ := Option.map_eq_some_iff.mp hrun
  exact hall 5 s hs _ (List.mem_of_head? hhead) (Or.inl rfl)

end OpenMV.Vision
