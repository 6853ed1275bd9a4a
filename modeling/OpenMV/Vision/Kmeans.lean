import Mathlib.Algebra.Order.Ring.Abs
import OpenMV.Schemes.CheckedRun
import OpenMV.Schemes.Nearest
import OpenMV.Vision.BlobComponents

/-! K-means | scheme:nearest | source:src/src/openmv/omv/img/kmeans.c

    The points of all clusters are taken back, each is given to the cluster with the nearest centroid, and the
    centroids are moved; this is repeated until a centroid stays where it was. The sums of a cluster start from its
    old centroid, and the first cluster that stays ends the run, whatever the clusters behind it would do. -/

namespace OpenMV.Vision
open Schemes

/-! ### The code -/

structure Kp where
  x : UInt16
  y : UInt16
deriving DecidableEq, Repr

structure Cluster where
  x : ℤ
  y : ℤ
  w : ℤ
  h : ℤ
  points : List Kp
deriving DecidableEq, Repr

/-- The points that are in no cluster, and the clusters. -/
structure Kmeans where
  points : List Kp
  clusters : List Cluster
deriving DecidableEq, Repr

def clusterAlloc (cx cy : ℤ) : Cluster where
  x := cx
  y := cy
  w := 0
  h := 0
  points := []

/-- The inner loop of `cluster_reset`, for one cluster. -/
def Cluster.empty (c : Cluster) : Cluster := { c with points := [] }

def clusterReset (s : Kmeans) : Kmeans where
  points := s.clusters.foldl (fun points c => points ++ c.points.reverse) s.points
  clusters := s.clusters.map Cluster.empty

def Cluster.push (c : Cluster) (p : Kp) : Cluster := { c with points := c.points ++ [p] }

/-- The loop over the points of a cluster. -/
def Cluster.addPoint (c : Cluster) (p : Kp) : Cluster where
  x := int32 (c.x + p.x.toNat)
  y := int32 (c.y + p.y.toNat)
  w := if c.w < p.x.toNat then p.x.toNat else c.w
  h := if c.h < p.y.toNat then p.y.toNat else c.h
  points := c.points

/-- One round of the loop in `cluster_update`. There is no quotient by zero. -/
def Cluster.update (c : Cluster) : Option Cluster :=
  let clSize : ℤ := c.points.length
  let s := c.points.foldl Cluster.addPoint c
  if clSize = 0 then none
  else some {
    x := s.x.tdiv clSize
    y := s.y.tdiv clSize
    w := int32 (int32 (s.w - s.x.tdiv clSize) * 2)
    h := int32 (int32 (s.h - s.y.tdiv clSize) * 2)
    points := c.points }

/-- The flag is what is returned: whether all centroids changed. -/
def clusterUpdate : List Cluster → Option (Bool × List Cluster)
  | [] => some (true, [])
  | c :: cs => do
    let c' ← c.update
    if c'.x = c.x ∧ c'.y = c.y then some (false, c' :: cs)
    else
      let r ← clusterUpdate cs
      some (r.1, c' :: r.2)

inductive Outcome where
  | running (s : Kmeans)
  | returned (clusters : List Cluster)
  | nullCluster
  | dividedByZero
deriving DecidableEq, Repr

/-- A `dist_func`. -/
def squaredDistance (cx cy : ℤ) (p : Kp) : ℤ := (cx - p.x.toNat) ^ 2 + (cy - p.y.toNat) ^ 2

/-- `FLT_MAX`. -/
def floatMax : ℤ := (2 ^ 24 - 1) * 2 ^ 104

section Code

variable {L : Type} [LinearOrder L] (dist : ℤ → ℤ → Kp → L) (fltMax : L)

/-- The loop over the clusters in `cluster_points`. -/
def nearestCluster (clusters : List Cluster) (p : Kp) : Option ℕ :=
  nearestScan (fun c => dist c.x c.y p) clusters 0 fltMax none

def addToNearest (clusters : List Cluster) (p : Kp) : Option (List Cluster) := do
  let j ← nearestCluster dist fltMax clusters p
  some (clusters.modify j (Cluster.push · p))

def clusterPoints (s : Kmeans) : Option (List Cluster) :=
  s.points.reverse.foldlM (addToNearest dist fltMax) s.clusters

/-- The body of the loop in `cluster_kmeans`, with its condition. -/
def kmeansRound (s : Kmeans) : Outcome :=
  match clusterPoints dist fltMax (clusterReset s) with
  | none => .nullCluster
  | some groups =>
    match clusterUpdate groups with
    | none => .dividedByZero
    | some (true, clusters) => .running ⟨[], clusters⟩
    | some (false, clusters) => .returned clusters

/-- The clusters before the loop. `rng i` is the `i`-th index from `rng_randint`. -/
def kmeansSeeds (points : List Kp) (k : ℕ) (rng : ℕ → Fin points.length) : Kmeans where
  points := points
  clusters := (List.range k).map fun i => clusterAlloc (points.get (rng i)).x.toNat (points.get (rng i)).y.toNat

/-- `cluster_kmeans`, up to `n` rounds of its loop. -/
def clusterKmeans (points : List Kp) (k : ℕ) (rng : ℕ → Fin points.length) : ℕ → Outcome
  | 0 => .running (kmeansSeeds points k rng)
  | n + 1 =>
    match clusterKmeans points k rng n with
    | .running s => kmeansRound dist fltMax s
    | o => o

end Code

/-! ### One cluster -/

/-- The quotient for the coordinates `v` when their sum starts from `old`. -/
def shiftedMean (old : ℤ) (v : List ℤ) : ℤ := (int32 (old + v.sum)).tdiv v.length

def truncatedMean (v : List ℤ) : ℤ := v.sum.tdiv v.length

/-- What is left of the sum behind the last multiple of the size, and the old centroid, are less than the size. -/
theorem shiftedMean_eq_truncatedMean_iff {old : ℤ} {v : List ℤ} (h0 : 0 ≤ old) (hv : v ≠ []) (hs : 0 ≤ v.sum)
    (hint : old + v.sum < 2147483648) :
    shiftedMean old v = truncatedMean v ↔ old + v.sum % v.length < v.length := by
  have hn : (0 : ℤ) < v.length := by exact_mod_cast List.length_pos_iff.mpr hv
  rw [shiftedMean, truncatedMean, int32_of_mem (by linarith) (by linarith),
    Int.tdiv_eq_ediv_of_nonneg (add_nonneg h0 hs), Int.tdiv_eq_ediv_of_nonneg hs, Int.ediv_eq_iff_of_pos hn]
  have hdiv := Int.mul_ediv_add_emod v.sum v.length
  have hmod := Int.emod_nonneg v.sum hn.ne'
  constructor
  · rintro ⟨-, h⟩
    linarith [mul_comm (v.sum / v.length) v.length]
  · intro h
    constructor <;> linarith [mul_comm (v.sum / v.length) v.length]

def InInt (x : ℤ) : Prop := -2147483648 ≤ x ∧ x < 2147483648

theorem inInt_int32 (x : ℤ) : InInt (int32 x) := by
  unfold InInt int32
  omega

theorem InInt.tdiv {x : ℤ} (h : InInt x) (n : ℕ) : InInt (x.tdiv n) := by
  obtain ⟨h1, h2⟩ := h
  rcases le_total 0 x with h0 | h0
  · have hle : x.tdiv n ≤ x := Int.tdiv_le_self _ h0
    have hnonneg : 0 ≤ x.tdiv n := Int.tdiv_nonneg h0 (Int.natCast_nonneg n)
    constructor <;> linarith
  · have hle : (-x).tdiv n ≤ -x := Int.tdiv_le_self _ (neg_nonneg.mpr h0)
    have hnonneg : 0 ≤ (-x).tdiv n := Int.tdiv_nonneg (neg_nonneg.mpr h0) (Int.natCast_nonneg n)
    rw [Int.neg_tdiv] at hle hnonneg
    constructor <;> linarith

theorem squaredDistance_lt_floatMax (x y : ℤ) (p : Kp) (hx : InInt x) (hy : InInt y) :
    squaredDistance x y p < floatMax := by
  have hsq : ∀ {v : ℤ} (w : UInt16), InInt v → (v - w.toNat) ^ 2 ≤ 4294967296 ^ 2 := by
    intro v w hv
    have hw := UInt16.toNat_lt w
    rw [InInt] at hv
    refine sq_le_sq' ?_ ?_ <;> omega
  calc squaredDistance x y p ≤ 4294967296 ^ 2 + 4294967296 ^ 2 := add_le_add (hsq p.x hx) (hsq p.y hy)
    _ < floatMax := by norm_num [floatMax]

theorem inInt_shiftedMean (old : ℤ) (v : List ℤ) : InInt (shiftedMean old v) := (inInt_int32 _).tdiv _

namespace Cluster

variable (c : Cluster)

def xs : List ℤ := c.points.map fun p => (p.x.toNat : ℤ)

def ys : List ℤ := c.points.map fun p => (p.y.toNat : ℤ)

/-- The centroid that the next round of sums gives the cluster. -/
def newX : ℤ := shiftedMean c.x c.xs

def newY : ℤ := shiftedMean c.y c.ys

def meanX : ℤ := truncatedMean c.xs

def meanY : ℤ := truncatedMean c.ys

theorem foldl_addPoint {g : Cluster → ℤ} {f : Kp → ℤ} (h : ∀ c p, g (addPoint c p) = int32 (g c + f p)) :
    ∀ {ps : List Kp} (c : Cluster), ps ≠ [] → g (ps.foldl addPoint c) = int32 (g c + (ps.map f).sum)
  | [], _, hps => absurd rfl hps
  | [p], c, _ => by simp [h]
  | p :: q :: ps, c, _ => by
      rw [List.foldl_cons, foldl_addPoint h (addPoint c p) (List.cons_ne_nil q ps), h, int32_add_left]
      simp only [List.map_cons, List.sum_cons, add_assoc]

/-- `update` where there is a quotient. -/
def moved : Cluster := c.update.getD c

variable {c}

theorem update_eq_none (h : c.points = []) : c.update = none := by
  simp [update, h]

theorem update_eq_moved (h : c.points ≠ []) : c.update = some c.moved := by
  simp [moved, update, h]

theorem moved_x (h : c.points ≠ []) : c.moved.x = c.newX := by
  have hx := foldl_addPoint (fun _ _ => rfl) c h (g := Cluster.x) (f := fun p => (p.x.toNat : ℤ))
  simp [moved, update, h, hx, newX, shiftedMean, xs]

theorem moved_y (h : c.points ≠ []) : c.moved.y = c.newY := by
  have hy := foldl_addPoint (fun _ _ => rfl) c h (g := Cluster.y) (f := fun p => (p.y.toNat : ℤ))
  simp [moved, update, h, hy, newY, shiftedMean, ys]

@[simp] theorem moved_points : c.moved.points = c.points := by
  by_cases h : c.points = []
  · rw [moved, update_eq_none h, Option.getD_none]
  · simp [moved, update, h]

/-- The centroid of the cluster stays where it was, which ends the run. -/
def Stays (c : Cluster) : Prop := c.points ≠ [] ∧ c.newX = c.x ∧ c.newY = c.y

instance (c : Cluster) : Decidable c.Stays := inferInstanceAs (Decidable (_ ∧ _))

/-- The old centroid, left in the sums, does not change the quotients. -/
def Unshifted (c : Cluster) : Prop := c.newX = c.meanX ∧ c.newY = c.meanY

def AtMean (c : Cluster) : Prop := c.x = c.meanX ∧ c.y = c.meanY

theorem stays_iff (h : c.points ≠ []) : c.Stays ↔ c.moved.x = c.x ∧ c.moved.y = c.y := by
  rw [Stays, moved_x h, moved_y h]
  exact and_iff_right h

end Cluster

/-! ### Moving the centroids -/

/-- The clusters before the first that stays. -/
def movers (groups : List Cluster) : List Cluster := groups.takeWhile fun c => ¬ c.Stays

/-- The first cluster that stays, and all behind it. -/
def stayers (groups : List Cluster) : List Cluster := groups.dropWhile fun c => ¬ c.Stays

theorem movers_append_stayers (groups : List Cluster) : movers groups ++ stayers groups = groups :=
  List.takeWhile_append_dropWhile

theorem movers_cons_of_stays {c : Cluster} (h : c.Stays) (cs : List Cluster) : movers (c :: cs) = [] := by
  simp [movers, h]

theorem stayers_cons_of_stays {c : Cluster} (h : c.Stays) (cs : List Cluster) : stayers (c :: cs) = c :: cs := by
  simp [stayers, h]

theorem movers_cons_of_not_stays {c : Cluster} (h : ¬ c.Stays) (cs : List Cluster) :
    movers (c :: cs) = c :: movers cs := by
  simp [movers, h]

theorem stayers_cons_of_not_stays {c : Cluster} (h : ¬ c.Stays) (cs : List Cluster) :
    stayers (c :: cs) = stayers cs := by
  simp [stayers, h]

/-- Every cluster up to the first that stays has a point. -/
def Fed (groups : List Cluster) : Prop := ∀ c ∈ movers groups, c.points ≠ []

/-- The clusters after `clusterUpdate`. -/
def updated (groups : List Cluster) : List Cluster :=
  (movers groups).map Cluster.moved ++ (stayers groups).modifyHead Cluster.moved

theorem clusterUpdate_of_fed : ∀ {groups : List Cluster}, Fed groups →
    clusterUpdate groups = some (decide (stayers groups = []), updated groups)
  | [], _ => rfl
  | c :: cs, h => by
      by_cases hc : c.Stays
      · have heq := (Cluster.stays_iff hc.1).mp hc
        rw [clusterUpdate, Cluster.update_eq_moved hc.1]
        simp [heq, updated, movers_cons_of_stays hc, stayers_cons_of_stays hc]
      · rw [Fed, movers_cons_of_not_stays hc, List.forall_mem_cons] at h
        obtain ⟨hne, hcs⟩ := h
        have heq := mt (Cluster.stays_iff hne).mpr hc
        rw [clusterUpdate, Cluster.update_eq_moved hne]
        simp [heq, updated, movers_cons_of_not_stays hc, stayers_cons_of_not_stays hc, clusterUpdate_of_fed hcs]

theorem clusterUpdate_of_not_fed : ∀ {groups : List Cluster}, ¬ Fed groups → clusterUpdate groups = none
  | [], h => absurd (by simp [Fed, movers]) h
  | c :: cs, h => by
      by_cases hc : c.Stays
      · exact absurd (by simp [Fed, movers_cons_of_stays hc]) h
      · rw [Fed, movers_cons_of_not_stays hc, List.forall_mem_cons, not_and] at h
        by_cases hne : c.points = []
        · rw [clusterUpdate, Cluster.update_eq_none hne]
          rfl
        · have heq := mt (Cluster.stays_iff hne).mpr hc
          rw [clusterUpdate, Cluster.update_eq_moved hne]
          simp [heq, clusterUpdate_of_not_fed (h hne)]

theorem forall_modifyHead_stayers {P : ℤ → ℤ → List Kp → Prop} : ∀ groups : List Cluster,
    (∀ c ∈ (stayers groups).modifyHead Cluster.moved, P c.x c.y c.points) ↔ ∀ c ∈ stayers groups, P c.x c.y c.points
  | [] => Iff.rfl
  | c :: cs => by
      by_cases hc : c.Stays
      · obtain ⟨hx, hy⟩ := (Cluster.stays_iff hc.1).mp hc
        rw [stayers_cons_of_stays hc, List.modifyHead_cons, List.forall_mem_cons, List.forall_mem_cons, hx, hy,
          Cluster.moved_points]
      · rw [stayers_cons_of_not_stays hc]
        exact forall_modifyHead_stayers cs

/-- What holds of all clusters after the update. Only those before the first that stays have a new centroid. -/
theorem forall_updated {groups : List Cluster} (h : Fed groups) {P : ℤ → ℤ → List Kp → Prop} :
    (∀ c ∈ updated groups, P c.x c.y c.points) ↔
      (∀ c ∈ movers groups, P c.newX c.newY c.points) ∧ ∀ c ∈ stayers groups, P c.x c.y c.points := by
  rw [updated, List.forall_mem_append, forall_modifyHead_stayers, List.forall_mem_map]
  refine and_congr_left' (forall₂_congr fun c hc => ?_)
  rw [Cluster.moved_x (h c hc), Cluster.moved_y (h c hc), Cluster.moved_points]

theorem flatMap_updated (groups : List Cluster) :
    (updated groups).flatMap Cluster.points = groups.flatMap Cluster.points := by
  have hhead : ∀ l : List Cluster, (l.modifyHead Cluster.moved).flatMap Cluster.points = l.flatMap Cluster.points := by
    intro l
    cases l <;> simp
  rw [updated, List.flatMap_append, hhead, List.flatMap_map]
  simp only [Cluster.moved_points]
  rw [← List.flatMap_append, movers_append_stayers]

/-! ### The shares of the centroids -/

variable {L : Type} [LinearOrder L] {dist : ℤ → ℤ → Kp → L} {fltMax : L}

/-- A centroid with the points it gets. -/
structure Share where
  x : ℤ
  y : ℤ
  points : Multiset Kp

namespace Share

variable (c : Share)

def sumX : ℤ := (c.points.map fun p => (p.x.toNat : ℤ)).sum

def sumY : ℤ := (c.points.map fun p => (p.y.toNat : ℤ)).sum

def size : ℤ := c.points.card

/-- The sums stay in an `int`. -/
def InRange : Prop := c.x + c.sumX < 2147483648 ∧ c.y + c.sumY < 2147483648

/-- The sum, with the old centroid in it, divides to the old centroid again. -/
def Rests : Prop :=
  (c.x * (c.size - 1) ≤ c.sumX ∧ c.sumX < c.x * (c.size - 1) + c.size) ∧
  (c.y * (c.size - 1) ≤ c.sumY ∧ c.sumY < c.y * (c.size - 1) + c.size)

/-- The old centroid fits in what the division of the sum leaves. -/
def Small : Prop := c.x + c.sumX % c.size < c.size ∧ c.y + c.sumY % c.size < c.size

instance : Decidable c.InRange := inferInstanceAs (Decidable (_ ∧ _))
instance : Decidable c.Rests := inferInstanceAs (Decidable ((_ ∧ _) ∧ _ ∧ _))
instance : Decidable c.Small := inferInstanceAs (Decidable (_ ∧ _))

end Share

section Shares

variable (dist)

/-- The position of the first of the nearest centroids. -/
def firstNearest (centroids : List (ℤ × ℤ)) (p : Kp) : ℕ :=
  centroids.findIdx fun c => ∀ c' ∈ centroids, dist c.1 c.2 p ≤ dist c'.1 c'.2 p

/-- The points of `input` at the centroid that is nearest to them. -/
def shares (input : Multiset Kp) (centroids : List (ℤ × ℤ)) : List Share :=
  centroids.mapIdx fun j c => ⟨c.1, c.2, input.filter fun p => firstNearest dist centroids p = j⟩

end Shares

/-- The sums are in range, and the centroids stay together or move together. -/
structure Together (shares : List Share) : Prop where
  inRange : ∀ c ∈ shares, c.InRange
  rest : ∀ c ∈ shares, c.Rests → ∀ c' ∈ shares, c'.Rests

/-- No share is empty, and where centroids stay they are small. -/
structure Occupied (shares : List Share) : Prop where
  fed : ∀ c ∈ shares, c.points ≠ 0
  small : ∀ c ∈ shares, c.Rests → c.Small

def Cluster.centroid (c : Cluster) : ℤ × ℤ := (c.x, c.y)

def Cluster.share (c : Cluster) : Share := ⟨c.x, c.y, c.points⟩

@[simp] theorem Cluster.share_x (c : Cluster) : c.share.x = c.x := rfl

@[simp] theorem Cluster.share_y (c : Cluster) : c.share.y = c.y := rfl

@[simp] theorem Cluster.share_sumX (c : Cluster) : c.share.sumX = c.xs.sum := by
  simp [Share.sumX, Cluster.share, Cluster.xs]

@[simp] theorem Cluster.share_sumY (c : Cluster) : c.share.sumY = c.ys.sum := by
  simp [Share.sumY, Cluster.share, Cluster.ys]

@[simp] theorem Cluster.share_size (c : Cluster) : c.share.size = c.points.length := by
  simp [Share.size, Cluster.share]

@[simp] theorem Cluster.length_xs (c : Cluster) : c.xs.length = c.points.length := List.length_map _

@[simp] theorem Cluster.length_ys (c : Cluster) : c.ys.length = c.points.length := List.length_map _

theorem Cluster.sum_xs_nonneg (c : Cluster) : 0 ≤ c.xs.sum := by
  refine List.sum_nonneg fun x hx => ?_
  obtain ⟨p, -, rfl⟩ := List.mem_map.mp hx
  exact Int.natCast_nonneg _

theorem Cluster.sum_ys_nonneg (c : Cluster) : 0 ≤ c.ys.sum := by
  refine List.sum_nonneg fun y hy => ?_
  obtain ⟨p, -, rfl⟩ := List.mem_map.mp hy
  exact Int.natCast_nonneg _

theorem shiftedMean_eq_self_iff {old : ℤ} {v : List ℤ} (h0 : 0 ≤ old) (hv : v ≠ []) (hs : 0 ≤ v.sum)
    (hint : old + v.sum < 2147483648) :
    shiftedMean old v = old ↔ old * (v.length - 1) ≤ v.sum ∧ v.sum < old * (v.length - 1) + v.length := by
  have hn : (0 : ℤ) < v.length := by exact_mod_cast List.length_pos_iff.mpr hv
  rw [shiftedMean, int32_of_mem (by linarith) (by linarith), Int.tdiv_eq_ediv_of_nonneg (add_nonneg h0 hs),
    Int.ediv_eq_iff_of_pos hn, mul_sub, mul_one]
  constructor <;> rintro ⟨h1, h2⟩ <;> constructor <;> linarith

theorem shiftedMean_nonneg {old : ℤ} {v : List ℤ} (h0 : 0 ≤ old) (hs : 0 ≤ v.sum)
    (hint : old + v.sum < 2147483648) : 0 ≤ shiftedMean old v := by
  rw [shiftedMean, int32_of_mem (by linarith) (by linarith)]
  exact Int.tdiv_nonneg (add_nonneg h0 hs) (Int.natCast_nonneg _)

namespace Cluster

variable {c : Cluster} (h0 : 0 ≤ c.x ∧ 0 ≤ c.y) (hne : c.points ≠ []) (hr : c.share.InRange)
include h0 hne hr

theorem rests_iff : c.share.Rests ↔ c.Stays := by
  have hx := shiftedMean_eq_self_iff h0.1 (v := c.xs) (by simpa [xs] using hne) c.sum_xs_nonneg
    (by simpa using hr.1)
  have hy := shiftedMean_eq_self_iff h0.2 (v := c.ys) (by simpa [ys] using hne) c.sum_ys_nonneg
    (by simpa using hr.2)
  rw [length_xs] at hx
  rw [length_ys] at hy
  simp only [Share.Rests, share_sumX, share_sumY, share_size, ← hx, ← hy, Stays, hne, ne_eq, not_false_eq_true,
    true_and, newX, newY, share_x, share_y]

theorem small_iff : c.share.Small ↔ c.Unshifted := by
  have hx := shiftedMean_eq_truncatedMean_iff h0.1 (v := c.xs) (by simpa [xs] using hne) c.sum_xs_nonneg
    (by simpa using hr.1)
  have hy := shiftedMean_eq_truncatedMean_iff h0.2 (v := c.ys) (by simpa [ys] using hne) c.sum_ys_nonneg
    (by simpa using hr.2)
  rw [length_xs] at hx
  rw [length_ys] at hy
  simp only [Share.Small, share_sumX, share_sumY, share_size, ← hx, ← hy, Unshifted, newX, newY, meanX, meanY, share_x,
    share_y]

end Cluster

theorem modify_middle {α : Type} {l r : List α} {a : α} {f : α → α} {n : ℕ} (hn : n = l.length) :
    (l ++ a :: r).modify n f = l ++ f a :: r := by
  subst hn
  simp [List.modify_eq_take_cons_drop]

theorem coe_append_singleton (ps : List Kp) (p : Kp) : ((ps ++ [p] : List Kp) : Multiset Kp) = p ::ₘ ps :=
  Multiset.coe_eq_coe.mpr (List.perm_append_singleton p ps)

/-- One more point is in the share of its centroid. -/
theorem shares_cons (dist : ℤ → ℤ → Kp → L) (input : Multiset Kp) (centroids : List (ℤ × ℤ)) (p : Kp) :
    shares dist (p ::ₘ input) centroids =
      (shares dist input centroids).modify (firstNearest dist centroids p) fun c =>
        { c with points := p ::ₘ c.points } := by
  refine List.ext_getElem? fun i => ?_
  simp only [shares, List.getElem?_mapIdx, List.getElem?_modify, Option.map_eq_map, Option.map_map]
  refine Option.map_congr fun c _ => ?_
  simp only [Function.comp_apply, Multiset.filter_cons]
  split_ifs <;> simp

theorem shares_zero (dist : ℤ → ℤ → Kp → L) (centroids : List (ℤ × ℤ)) :
    shares dist 0 centroids = centroids.map fun c => ⟨c.1, c.2, 0⟩ := by
  refine List.ext_getElem? fun i => ?_
  simp only [shares, List.getElem?_mapIdx, List.getElem?_map, Multiset.filter_zero]

theorem firstNearest_eq {l r : List Cluster} {c : Cluster} {p : Kp} (hl : ∀ c' ∈ l, dist c.x c.y p < dist c'.x c'.y p)
    (hmin : ∀ c' ∈ l ++ c :: r, dist c.x c.y p ≤ dist c'.x c'.y p) :
    firstNearest dist ((l ++ c :: r).map Cluster.centroid) p = l.length := by
  have hc : c.centroid ∈ (l ++ c :: r).map Cluster.centroid := List.mem_map_of_mem (by simp)
  rw [firstNearest, List.findIdx_eq (by simp)]
  constructor
  · have hget : ∀ h : l.length < ((l ++ c :: r).map Cluster.centroid).length,
        ((l ++ c :: r).map Cluster.centroid)[l.length] = c.centroid := fun _ => by simp
    simp only [hget]
    exact decide_eq_true (List.forall_mem_map.mpr hmin)
  · intro j hj
    have hlt := hl _ (List.getElem_mem hj)
    simp only [List.getElem_map, List.getElem_append_left hj, decide_eq_false_iff_not]
    exact fun h => absurd (h _ hc) hlt.not_ge

/-! ### Giving the points to the clusters -/

section Points

variable (dist)

/-- The points `input` are in the clusters, each in the first of those nearest to it. -/
structure Assigned (input : List Kp) (clusters : List Cluster) : Prop where
  some : clusters ≠ []
  inInt : ∀ c ∈ clusters, InInt c.x ∧ InInt c.y
  near : ∀ c ∈ clusters, ∀ p ∈ c.points, ∀ c' ∈ clusters, dist c.x c.y p ≤ dist c'.x c'.y p
  perm : (clusters.flatMap Cluster.points).Perm input
  shares : clusters.map Cluster.share = shares dist input (clusters.map Cluster.centroid)

end Points

theorem Assigned.perm_input {input input' : List Kp} {clusters : List Cluster} (h : Assigned dist input clusters)
    (hp : input.Perm input') : Assigned dist input' clusters :=
  ⟨h.some, h.inInt, h.near, h.perm.trans hp, h.shares.trans (by rw [Multiset.coe_eq_coe.mpr hp])⟩

theorem nearestCluster_eq (hd : ∀ x y p, InInt x → InInt y → dist x y p < fltMax) {clusters : List Cluster}
    (hsome : clusters ≠ []) (hint : ∀ c ∈ clusters, InInt c.x ∧ InInt c.y) (p : Kp) :
    ∃ l c r, clusters = l ++ c :: r ∧ nearestCluster dist fltMax clusters p = some l.length ∧
      (∀ c' ∈ l, dist c.x c.y p < dist c'.x c'.y p) ∧ ∀ c' ∈ clusters, dist c.x c.y p ≤ dist c'.x c'.y p := by
  obtain ⟨c₀, hc₀⟩ := List.exists_mem_of_ne_nil clusters hsome
  have hlt : dist c₀.x c₀.y p < fltMax := hd _ _ _ (hint c₀ hc₀).1 (hint c₀ hc₀).2
  obtain ⟨l, c, r, rfl, hscan, -, hl, hr⟩ :=
    nearestScan_of_lt (d := fun c : Cluster => dist c.x c.y p) 0 none ⟨c₀, hc₀, hlt⟩
  refine ⟨l, c, r, rfl, by rw [nearestCluster, hscan, Nat.zero_add], hl, fun c' hc' => ?_⟩
  rcases List.mem_append.mp hc' with hc' | hc'
  · exact (hl c' hc').le
  · rcases List.mem_cons.mp hc' with rfl | hc'
    · exact le_rfl
    · exact hr c' hc'

/-- A cluster of `l ++ c.push p :: r` is one of `l ++ c :: r` with, at most, the point `p` more. -/
theorem mem_of_mem_push {l r : List Cluster} {c c' : Cluster} {p : Kp} (h : c' ∈ l ++ c.push p :: r) :
    ∃ c₀ ∈ l ++ c :: r, c'.x = c₀.x ∧ c'.y = c₀.y ∧ ∀ q ∈ c'.points, q ∈ c₀.points ∨ q = p ∧ c₀ = c := by
  rcases List.mem_append.mp h with h | h
  · exact ⟨c', List.mem_append_left _ h, rfl, rfl, fun q hq => Or.inl hq⟩
  · rcases List.mem_cons.mp h with rfl | h
    · refine ⟨c, by simp, rfl, rfl, fun q hq => ?_⟩
      rcases List.mem_append.mp hq with hq | hq
      · exact Or.inl hq
      · exact Or.inr ⟨List.mem_singleton.mp hq, rfl⟩
    · exact ⟨c', List.mem_append_right _ (List.mem_cons_of_mem c h), rfl, rfl, fun q hq => Or.inl hq⟩

theorem Assigned.exists_addToNearest (hd : ∀ x y p, InInt x → InInt y → dist x y p < fltMax) {input : List Kp}
    {clusters : List Cluster} (h : Assigned dist input clusters) (p : Kp) :
    ∃ clusters', addToNearest dist fltMax clusters p = .some clusters' ∧
      clusters'.map Cluster.centroid = clusters.map Cluster.centroid ∧ Assigned dist (p :: input) clusters' := by
  obtain ⟨l, c, r, rfl, hscan, hl, hmin⟩ := nearestCluster_eq hd h.some h.inInt p
  have hcentroid : (l ++ c.push p :: r).map Cluster.centroid = (l ++ c :: r).map Cluster.centroid := by
    simp [Cluster.push, Cluster.centroid]
  refine ⟨l ++ c.push p :: r, ?_, hcentroid, ?_⟩
  · simp [addToNearest, hscan, modify_middle]
  constructor
  · simp
  · intro c' hc'
    obtain ⟨c₀, hc₀, hx, hy, -⟩ := mem_of_mem_push hc'
    rw [hx, hy]
    exact h.inInt c₀ hc₀
  · intro c₁ hc₁ q hq c₂ hc₂
    obtain ⟨c₁', hc₁', hx₁, hy₁, hq₁⟩ := mem_of_mem_push hc₁
    obtain ⟨c₂', hc₂', hx₂, hy₂, -⟩ := mem_of_mem_push hc₂
    rw [hx₁, hy₁, hx₂, hy₂]
    rcases hq₁ q hq with hq | ⟨rfl, rfl⟩
    · exact h.near c₁' hc₁' q hq c₂' hc₂'
    · exact hmin c₂' hc₂'
  · have hperm := h.perm
    simp only [List.flatMap_append, List.flatMap_cons, Cluster.push, List.append_assoc,
      List.singleton_append] at hperm ⊢
    refine List.Perm.trans ?_ (hperm.cons p)
    rw [← List.append_assoc, ← List.append_assoc]
    exact List.perm_middle
  · have hpush : (c.push p).share = { c.share with points := p ::ₘ c.points } := by
      simp [Cluster.share, Cluster.push, coe_append_singleton]
    rw [hcentroid, ← Multiset.cons_coe, shares_cons, firstNearest_eq hl hmin, ← h.shares, List.map_append,
      List.map_append, List.map_cons, List.map_cons, hpush, modify_middle (List.length_map _).symm]
    rfl

theorem Assigned.exists_foldlM (hd : ∀ x y p, InInt x → InInt y → dist x y p < fltMax) (ps : List Kp)
    {input : List Kp} {clusters : List Cluster} (h : Assigned dist input clusters) :
    ∃ clusters', ps.foldlM (addToNearest dist fltMax) clusters = .some clusters' ∧
      clusters'.map Cluster.centroid = clusters.map Cluster.centroid ∧ Assigned dist (ps ++ input) clusters' := by
  refine Schemes.exists_foldlM (fun done clusters' => clusters'.map Cluster.centroid = clusters.map Cluster.centroid ∧
    Assigned dist (done ++ input) clusters') ⟨rfl, h⟩ fun p _ done clusters₁ hdone => ?_
  obtain ⟨clusters', hadd, hcentroid, h'⟩ := hdone.2.exists_addToNearest hd p
  refine ⟨clusters', hadd, hcentroid.trans hdone.1, h'.perm_input ?_⟩
  rw [List.append_assoc]
  exact List.perm_middle.symm

/-- Between two rounds no point is lost, and the centroids are values of an `int`. -/
structure Whole (input : List Kp) (s : Kmeans) : Prop where
  some : s.clusters ≠ []
  inInt : ∀ c ∈ s.clusters, InInt c.x ∧ InInt c.y
  perm : (s.points ++ s.clusters.flatMap Cluster.points).Perm input

theorem foldl_reverse_perm : ∀ (clusters : List Cluster) (points : List Kp),
    (clusters.foldl (fun points c => points ++ c.points.reverse) points).Perm
      (points ++ clusters.flatMap Cluster.points)
  | [], points => by simp
  | c :: cs, points => by
      rw [List.foldl_cons, List.flatMap_cons, ← List.append_assoc]
      refine (foldl_reverse_perm cs _).trans ?_
      exact ((List.reverse_perm c.points).append_left points).append_right _

section Groups

variable (dist fltMax)

/-- The clusters of a round, with their points, before the centroids are moved. -/
def roundGroups (s : Kmeans) : List Cluster := (clusterPoints dist fltMax (clusterReset s)).getD []

end Groups

theorem Whole.clusterPoints_reset (hd : ∀ x y p, InInt x → InInt y → dist x y p < fltMax) {input : List Kp} {s : Kmeans}
    (h : Whole input s) :
    clusterPoints dist fltMax (clusterReset s) = .some (roundGroups dist fltMax s) ∧
      (roundGroups dist fltMax s).map Cluster.centroid = s.clusters.map Cluster.centroid ∧
      Assigned dist input (roundGroups dist fltMax s) := by
  have hreset : Assigned dist [] (clusterReset s).clusters := by
    constructor
    · simpa [clusterReset] using h.some
    · intro c hc
      obtain ⟨c₀, hc₀, rfl⟩ := List.mem_map.mp hc
      exact h.inInt c₀ hc₀
    · intro c hc p hp
      obtain ⟨c₀, -, rfl⟩ := List.mem_map.mp hc
      exact absurd hp List.not_mem_nil
    · simp [clusterReset, List.flatMap_map, Cluster.empty]
    · simp [clusterReset, shares_zero, Cluster.empty, Cluster.share, Cluster.centroid]
  have hcentroid : (clusterReset s).clusters.map Cluster.centroid = s.clusters.map Cluster.centroid := by
    simp [clusterReset, Cluster.empty, Cluster.centroid]
  obtain ⟨clusters, heq, hsame, ha⟩ := hreset.exists_foldlM hd (clusterReset s).points.reverse
  have hgroups : roundGroups dist fltMax s = clusters := by
    rw [roundGroups, clusterPoints, heq, Option.getD_some]
  rw [hgroups]
  refine ⟨heq, hsame.trans hcentroid, ha.perm_input ?_⟩
  rw [List.append_nil]
  exact (List.reverse_perm _).trans ((foldl_reverse_perm s.clusters s.points).trans h.perm)

/-! ### The clustering -/

section Clustering

variable (dist)

structure Clustering (input : List Kp) (clusters : List Cluster) : Prop where
  partition : (clusters.flatMap Cluster.points).Perm input
  near : ∀ c ∈ clusters, ∀ p ∈ c.points, ∀ c' ∈ clusters, dist c.x c.y p ≤ dist c'.x c'.y p
  mean : ∀ c ∈ clusters, c.points ≠ [] ∧ c.AtMean

/-- What the groups have to be when the round is the last one. Only for the clusters that are moved behind the
    assignment of the points is there something to say on the distances. -/
structure Final (groups : List Cluster) : Prop where
  fed : ∀ c ∈ groups, c.points ≠ []
  moved : ∀ c ∈ movers groups, c.Unshifted
  stayed : ∀ c ∈ stayers groups, c.AtMean
  near : ∀ c ∈ groups, ∀ p ∈ c.points, ∀ c' ∈ groups, c ∈ movers groups ∨ c' ∈ movers groups →
    dist c.meanX c.meanY p ≤ dist c'.meanX c'.meanY p

/-- No cluster without points is reached by the update, and a cluster that stays does so in good order. -/
structure Sound (groups : List Cluster) : Prop where
  fed : Fed groups
  final : stayers groups ≠ [] → Final dist groups

end Clustering

theorem mem_groups_iff {groups : List Cluster} {c : Cluster} :
    c ∈ groups ↔ c ∈ movers groups ∨ c ∈ stayers groups := by
  conv_lhs => rw [← movers_append_stayers groups]
  exact List.mem_append

theorem updated_mean_iff {groups : List Cluster} (hfed : Fed groups) :
    (∀ c ∈ updated groups, c.points ≠ [] ∧ c.AtMean) ↔
      (∀ c ∈ groups, c.points ≠ []) ∧ (∀ c ∈ movers groups, c.Unshifted) ∧ ∀ c ∈ stayers groups, c.AtMean := by
  rw [show (∀ c ∈ updated groups, c.points ≠ [] ∧ c.AtMean) ↔ _ from forall_updated hfed
    (P := fun x y ps => ps ≠ [] ∧ x = truncatedMean (ps.map fun p => (p.x.toNat : ℤ)) ∧
      y = truncatedMean (ps.map fun p => (p.y.toNat : ℤ)))]
  constructor
  · rintro ⟨hm, hs⟩
    refine ⟨fun c hc => ?_, fun c hc => (hm c hc).2, fun c hc => (hs c hc).2⟩
    rcases mem_groups_iff.mp hc with hc | hc
    · exact (hm c hc).1
    · exact (hs c hc).1
  · rintro ⟨hne, hm, hs⟩
    exact ⟨fun c hc => ⟨hne c (mem_groups_iff.mpr (Or.inl hc)), hm c hc⟩,
      fun c hc => ⟨hne c (mem_groups_iff.mpr (Or.inr hc)), hs c hc⟩⟩

/-- Where all centroids end at the means, the distances after the update are those from the means. -/
theorem updated_near_iff {groups : List Cluster} (hfed : Fed groups) (hm : ∀ c ∈ movers groups, c.Unshifted)
    (hs : ∀ c ∈ stayers groups, c.AtMean) :
    (∀ c ∈ updated groups, ∀ p ∈ c.points, ∀ c' ∈ updated groups, dist c.x c.y p ≤ dist c'.x c'.y p) ↔
      ∀ c ∈ groups, ∀ p ∈ c.points, ∀ c' ∈ groups, dist c.meanX c.meanY p ≤ dist c'.meanX c'.meanY p := by
  have hall : ∀ P : ℤ → ℤ → List Kp → Prop,
      (∀ c ∈ updated groups, P c.x c.y c.points) ↔ ∀ c ∈ groups, P c.meanX c.meanY c.points := by
    intro P
    rw [forall_updated hfed]
    constructor
    · rintro ⟨h1, h2⟩ c hc
      rcases mem_groups_iff.mp hc with hc | hc
      · rw [← (hm c hc).1, ← (hm c hc).2]
        exact h1 c hc
      · rw [← (hs c hc).1, ← (hs c hc).2]
        exact h2 c hc
    · intro h
      constructor
      · intro c hc
        rw [(hm c hc).1, (hm c hc).2]
        exact h c (mem_groups_iff.mpr (Or.inl hc))
      · intro c hc
        rw [(hs c hc).1, (hs c hc).2]
        exact h c (mem_groups_iff.mpr (Or.inr hc))
  rw [hall fun x y ps => ∀ p ∈ ps, ∀ c' ∈ updated groups, dist x y p ≤ dist c'.x c'.y p]
  refine forall₂_congr fun c _ => forall₂_congr fun p _ => ?_
  exact hall fun x y _ => dist c.meanX c.meanY p ≤ dist x y p

theorem clustering_updated_iff {input : List Kp} {groups : List Cluster} (ha : Assigned dist input groups)
    (hfed : Fed groups) : Clustering dist input (updated groups) ↔ Final dist groups := by
  constructor
  · intro h
    obtain ⟨hne, hm, hs⟩ := (updated_mean_iff hfed).mp h.mean
    have hnear := (updated_near_iff hfed hm hs).mp h.near
    exact ⟨hne, hm, hs, fun c hc p hp c' hc' _ => hnear c hc p hp c' hc'⟩
  · intro h
    refine ⟨?_, ?_, (updated_mean_iff hfed).mpr ⟨h.fed, h.moved, h.stayed⟩⟩
    · rw [flatMap_updated]
      exact ha.perm
    · refine (updated_near_iff hfed h.moved h.stayed).mpr fun c hc p hp c' hc' => ?_
      -- Two clusters that stay were at their means when the point was given to the nearer one.
      rcases mem_groups_iff.mp hc with hcm | hcs
      · exact h.near c hc p hp c' hc' (Or.inl hcm)
      · rcases mem_groups_iff.mp hc' with hcm' | hcs'
        · exact h.near c hc p hp c' hc' (Or.inr hcm')
        · rw [← (h.stayed c hcs).1, ← (h.stayed c hcs).2, ← (h.stayed c' hcs').1, ← (h.stayed c' hcs').2]
          exact ha.near c hc p hp c' hc'

/-! ### Full shares -/

theorem movers_eq_nil {groups : List Cluster} (h : ∀ c ∈ groups, c.Stays) : movers groups = [] := by
  cases groups with
  | nil => rfl
  | cons c cs => exact movers_cons_of_stays (h c List.mem_cons_self) cs

theorem exists_stays : ∀ {groups : List Cluster}, stayers groups ≠ [] → ∃ c ∈ groups, c.Stays
  | [], h => absurd rfl h
  | c :: cs, h => by
      by_cases hc : c.Stays
      · exact ⟨c, List.mem_cons_self, hc⟩
      · rw [stayers_cons_of_not_stays hc] at h
        obtain ⟨c', hc', hst⟩ := exists_stays h
        exact ⟨c', List.mem_cons_of_mem c hc', hst⟩

theorem Sound.fed_all {groups : List Cluster} (h : Sound dist groups) : ∀ c ∈ groups, c.points ≠ [] := by
  by_cases hst : stayers groups = []
  · intro c hc
    refine h.fed c ((mem_groups_iff.mp hc).resolve_right ?_)
    simp [hst]
  · exact (h.final hst).fed

/-- The stop test and the sums do no harm where all centroids stay at once, are small, and no share is empty. -/
theorem sound_iff_occupied {groups : List Cluster} (h0 : ∀ c ∈ groups, 0 ≤ c.x ∧ 0 ≤ c.y)
    (ht : Together (groups.map Cluster.share)) : Sound dist groups ↔ Occupied (groups.map Cluster.share) := by
  have hrange : ∀ c ∈ groups, c.share.InRange := List.forall_mem_map.mp ht.inRange
  -- one centroid that stays, and the others stay with it
  have hrest : (∀ c ∈ groups, c.points ≠ []) → (∃ c ∈ groups, c.Stays) → ∀ c ∈ groups, c.Stays := by
    rintro hne ⟨c, hc, hst⟩ c' hc'
    have hall := ht.rest c.share (List.mem_map_of_mem hc)
      ((Cluster.rests_iff (h0 c hc) (hne c hc) (hrange c hc)).mpr hst)
    exact (Cluster.rests_iff (h0 c' hc') (hne c' hc') (hrange c' hc')).mp (hall c'.share (List.mem_map_of_mem hc'))
  constructor
  · intro h
    have hne := h.fed_all
    refine ⟨List.forall_mem_map.mpr fun c hc => by simpa [Cluster.share] using hne c hc,
      List.forall_mem_map.mpr fun c hc hr => ?_⟩
    have hst := (Cluster.rests_iff (h0 c hc) (hne c hc) (hrange c hc)).mp hr
    have hmovers := movers_eq_nil (hrest hne ⟨c, hc, hst⟩)
    have hmem : c ∈ stayers groups := (mem_groups_iff.mp hc).resolve_left (by simp [hmovers])
    have hmean := (h.final (List.ne_nil_of_mem hmem)).stayed c hmem
    exact (Cluster.small_iff (h0 c hc) (hne c hc) (hrange c hc)).mpr
      ⟨hst.2.1.trans hmean.1, hst.2.2.trans hmean.2⟩
  · intro h
    have hne : ∀ c ∈ groups, c.points ≠ [] := fun c hc => by
      simpa [Cluster.share] using h.fed c.share (List.mem_map_of_mem hc)
    refine ⟨fun c hc => hne c (mem_groups_iff.mpr (.inl hc)), fun hst => ?_⟩
    have hstays := hrest hne (exists_stays hst)
    have hmovers := movers_eq_nil hstays
    refine ⟨hne, by simp [hmovers], fun c hc => ?_, by simp [hmovers]⟩
    have hc : c ∈ groups := mem_groups_iff.mpr (.inr hc)
    have hr := (Cluster.rests_iff (h0 c hc) (hne c hc) (hrange c hc)).mpr (hstays c hc)
    have hsmall := (Cluster.small_iff (h0 c hc) (hne c hc) (hrange c hc)).mp
      (h.small c.share (List.mem_map_of_mem hc) hr)
    exact ⟨(hstays c hc).2.1.symm.trans hsmall.1, (hstays c hc).2.2.symm.trans hsmall.2⟩

/-! ### Runs -/

section Rounds

variable (hd : ∀ x y p, InInt x → InInt y → dist x y p < fltMax) {input : List Kp} {s : Kmeans}
include hd

theorem kmeansRound_of_fed (hs : Whole input s) (hfed : Fed (roundGroups dist fltMax s)) :
    kmeansRound dist fltMax s =
      if stayers (roundGroups dist fltMax s) = [] then .running ⟨[], updated (roundGroups dist fltMax s)⟩
      else .returned (updated (roundGroups dist fltMax s)) := by
  rw [kmeansRound, (hs.clusterPoints_reset hd).1]
  simp only [clusterUpdate_of_fed hfed]
  by_cases h : stayers (roundGroups dist fltMax s) = []
  · rw [if_pos h, decide_eq_true h]
  · rw [if_neg h, decide_eq_false h]

theorem kmeansRound_of_not_fed (hs : Whole input s) (hfed : ¬ Fed (roundGroups dist fltMax s)) :
    kmeansRound dist fltMax s = .dividedByZero := by
  rw [kmeansRound, (hs.clusterPoints_reset hd).1]
  simp only [clusterUpdate_of_not_fed hfed]

/-- The round neither divides by zero nor returns anything but a clustering just when its groups are sound. -/
theorem kmeansRound_iff (hs : Whole input s) :
    (kmeansRound dist fltMax s ≠ .dividedByZero ∧
      ∀ clusters, kmeansRound dist fltMax s = .returned clusters → Clustering dist input clusters) ↔
      Sound dist (roundGroups dist fltMax s) := by
  by_cases hfed : Fed (roundGroups dist fltMax s)
  · rw [kmeansRound_of_fed hd hs hfed]
    have hiff := clustering_updated_iff (hs.clusterPoints_reset hd).2.2 hfed
    by_cases h : stayers (roundGroups dist fltMax s) = []
    · rw [if_pos h]
      exact ⟨fun _ => ⟨hfed, fun hne => absurd h hne⟩, fun _ => ⟨by simp, by simp⟩⟩
    · rw [if_neg h]
      constructor
      · rintro ⟨-, hret⟩
        exact ⟨hfed, fun _ => hiff.mp (hret _ rfl)⟩
      · intro hsound
        refine ⟨by simp, fun clusters heq => ?_⟩
        cases heq
        exact hiff.mpr (hsound.final h)
  · rw [kmeansRound_of_not_fed hd hs hfed]
    exact ⟨fun h => absurd rfl h.1, fun h => absurd h.fed hfed⟩

theorem kmeansRound_running {s' : Kmeans} (hs : Whole input s) (h : kmeansRound dist fltMax s = .running s') :
    Fed (roundGroups dist fltMax s) ∧ stayers (roundGroups dist fltMax s) = [] ∧
      s' = ⟨[], updated (roundGroups dist fltMax s)⟩ := by
  by_cases hfed : Fed (roundGroups dist fltMax s)
  · rw [kmeansRound_of_fed hd hs hfed] at h
    by_cases hst : stayers (roundGroups dist fltMax s) = []
    · rw [if_pos hst] at h
      cases h
      exact ⟨hfed, hst, rfl⟩
    · rw [if_neg hst] at h
      cases h
  · rw [kmeansRound_of_not_fed hd hs hfed] at h
    cases h

theorem Whole.kmeansRound {s' : Kmeans} (hs : Whole input s)
    (h : OpenMV.Vision.kmeansRound dist fltMax s = .running s') : Whole input s' := by
  obtain ⟨hfed, hst, rfl⟩ := kmeansRound_running hd hs h
  obtain ⟨-, -, ha⟩ := hs.clusterPoints_reset hd
  refine ⟨?_, ?_, ?_⟩
  · intro hnil
    have hmap : (movers (roundGroups dist fltMax s)).map Cluster.moved = [] := by
      simpa [updated, hst] using hnil
    refine ha.some ?_
    rw [← movers_append_stayers (roundGroups dist fltMax s), hst, List.map_eq_nil_iff.mp hmap, List.nil_append]
  · refine (forall_updated hfed (P := fun x y _ => InInt x ∧ InInt y)).mpr ⟨?_, ?_⟩
    · exact fun c _ => ⟨inInt_shiftedMean _ _, inInt_shiftedMean _ _⟩
    · exact fun c hc => ha.inInt c (mem_groups_iff.mpr (Or.inr hc))
  · rw [List.nil_append, flatMap_updated]
    exact ha.perm

end Rounds

variable {points : List Kp} {k : ℕ} (rng : ℕ → Fin points.length)

theorem whole_kmeansSeeds (hk : 1 ≤ k) : Whole points (kmeansSeeds points k rng) := by
  constructor
  · simp [kmeansSeeds, Nat.one_le_iff_ne_zero.mp hk]
  · intro c hc
    obtain ⟨i, -, rfl⟩ := List.mem_map.mp hc
    have hx := UInt16.toNat_lt (points.get (rng i)).x
    have hy := UInt16.toNat_lt (points.get (rng i)).y
    simp only [clusterAlloc, InInt]
    omega
  · have hnil : (kmeansSeeds points k rng).clusters.flatMap Cluster.points = [] := by
      rw [List.flatMap_eq_nil_iff]
      intro c hc
      obtain ⟨i, -, rfl⟩ := List.mem_map.mp hc
      rfl
    rw [hnil, List.append_nil]
    exact List.Perm.refl points

theorem whole_clusterKmeans (hd : ∀ x y p, InInt x → InInt y → dist x y p < fltMax) (hk : 1 ≤ k) :
    ∀ (n : ℕ) {s : Kmeans}, clusterKmeans dist fltMax points k rng n = .running s → Whole points s
  | 0, s, h => by
      cases h
      exact whole_kmeansSeeds rng hk
  | n + 1, s, h => by
      rw [clusterKmeans] at h
      cases hn : clusterKmeans dist fltMax points k rng n with
      | running s₀ =>
        rw [hn] at h
        exact (whole_clusterKmeans hd hk n hn).kmeansRound hd h
      | returned clusters => simp [hn] at h
      | nullCluster => simp [hn] at h
      | dividedByZero => simp [hn] at h

theorem clusterKmeans_ne_nullCluster (hd : ∀ x y p, InInt x → InInt y → dist x y p < fltMax) (hk : 1 ≤ k) :
    ∀ n, clusterKmeans dist fltMax points k rng n ≠ .nullCluster
  | 0 => by simp [clusterKmeans]
  | n + 1 => by
      rw [clusterKmeans]
      have ih := clusterKmeans_ne_nullCluster hd hk n
      cases hn : clusterKmeans dist fltMax points k rng n with
      | running s =>
        have hs := whole_clusterKmeans rng hd hk n hn
        by_cases hfed : Fed (roundGroups dist fltMax s)
        · simp only [kmeansRound_of_fed hd hs hfed]
          split <;> simp
        · simp [kmeansRound_of_not_fed hd hs hfed]
      | returned clusters => simp
      | nullCluster => exact absurd hn ih
      | dividedByZero => simp

theorem clusterKmeans_of_returned {n : ℕ} {clusters : List Cluster}
    (h : clusterKmeans dist fltMax points k rng n = .returned clusters) :
    ∀ m, clusterKmeans dist fltMax points k rng (n + m) = .returned clusters
  | 0 => h
  | m + 1 => by
      rw [← Nat.add_assoc, clusterKmeans, clusterKmeans_of_returned h m]

/-- No run divides by zero or returns anything but a clustering just when all rounds of the run have sound groups. -/
theorem clusterKmeans_sound_iff (hd : ∀ x y p, InInt x → InInt y → dist x y p < fltMax) (hk : 1 ≤ k) :
    (∀ n, clusterKmeans dist fltMax points k rng n ≠ .dividedByZero ∧
      ∀ clusters, clusterKmeans dist fltMax points k rng n = .returned clusters →
        Clustering dist points clusters) ↔
      ∀ n s, clusterKmeans dist fltMax points k rng n = .running s → Sound dist (roundGroups dist fltMax s) := by
  constructor
  · intro h n s hn
    have hround := h (n + 1)
    rw [clusterKmeans, hn] at hround
    exact (kmeansRound_iff hd (whole_clusterKmeans rng hd hk n hn)).mp hround
  · intro h n
    induction n with
    | zero => simp [clusterKmeans]
    | succ n ih =>
      rw [clusterKmeans]
      cases hn : clusterKmeans dist fltMax points k rng n with
      | running s => exact (kmeansRound_iff hd (whole_clusterKmeans rng hd hk n hn)).mpr (h n s hn)
      | returned clusters =>
        rw [hn] at ih
        exact ih
      | nullCluster => simp
      | dividedByZero =>
        rw [hn] at ih
        exact ih

/-- The shares of the centroids that a round starts from. -/
def Kmeans.shares (dist : ℤ → ℤ → Kp → L) (points : List Kp) (s : Kmeans) : List Share :=
  Vision.shares dist points (s.clusters.map Cluster.centroid)

theorem Whole.shares_eq (hd : ∀ x y p, InInt x → InInt y → dist x y p < fltMax) {s : Kmeans} (hs : Whole points s) :
    s.shares dist points = (roundGroups dist fltMax s).map Cluster.share := by
  obtain ⟨-, hcentroid, ha⟩ := hs.clusterPoints_reset hd
  rw [Kmeans.shares, ← hcentroid, ha.shares]

/-- The centroids that a round starts from are not negative. -/
def Kmeans.Positive (s : Kmeans) : Prop := ∀ c ∈ s.clusters, 0 ≤ c.x ∧ 0 ≤ c.y

theorem Whole.roundGroups_positive (hd : ∀ x y p, InInt x → InInt y → dist x y p < fltMax) {s : Kmeans}
    (hs : Whole points s) (h0 : s.Positive) : ∀ c ∈ roundGroups dist fltMax s, 0 ≤ c.x ∧ 0 ≤ c.y := by
  obtain ⟨-, hcentroid, -⟩ := hs.clusterPoints_reset hd
  intro c hc
  have hmem : c.centroid ∈ s.clusters.map Cluster.centroid := hcentroid ▸ List.mem_map_of_mem hc
  obtain ⟨c₀, hc₀, heq⟩ := List.mem_map.mp hmem
  obtain ⟨hx, hy⟩ := Prod.mk.injEq .. ▸ heq
  exact ⟨hx ▸ (h0 c₀ hc₀).1, hy ▸ (h0 c₀ hc₀).2⟩

theorem Kmeans.Positive.kmeansRound (hd : ∀ x y p, InInt x → InInt y → dist x y p < fltMax) {s s' : Kmeans}
    (hs : Whole points s) (h0 : s.Positive) (ht : Together (s.shares dist points))
    (h : OpenMV.Vision.kmeansRound dist fltMax s = .running s') : s'.Positive := by
  obtain ⟨hfed, -, rfl⟩ := kmeansRound_running hd hs h
  have hgroups := hs.roundGroups_positive hd h0
  rw [hs.shares_eq hd] at ht
  refine (forall_updated hfed (P := fun x y _ => 0 ≤ x ∧ 0 ≤ y)).mpr ⟨fun c hc => ?_, fun c hc => ?_⟩
  · have hc : c ∈ roundGroups dist fltMax s := mem_groups_iff.mpr (.inl hc)
    have hr : c.share.InRange := ht.inRange c.share (List.mem_map_of_mem hc)
    exact ⟨shiftedMean_nonneg (hgroups c hc).1 c.sum_xs_nonneg (by simpa using hr.1),
      shiftedMean_nonneg (hgroups c hc).2 c.sum_ys_nonneg (by simpa using hr.2)⟩
  · exact hgroups c (mem_groups_iff.mpr (.inr hc))

theorem positive_clusterKmeans (hd : ∀ x y p, InInt x → InInt y → dist x y p < fltMax) (hk : 1 ≤ k)
    (ht : ∀ n s, clusterKmeans dist fltMax points k rng n = .running s → Together (s.shares dist points)) :
    ∀ (n : ℕ) {s : Kmeans}, clusterKmeans dist fltMax points k rng n = .running s → s.Positive
  | 0, s, h => by
      cases h
      intro c hc
      obtain ⟨i, -, rfl⟩ := List.mem_map.mp hc
      exact ⟨Int.natCast_nonneg _, Int.natCast_nonneg _⟩
  | n + 1, s, h => by
      rw [clusterKmeans] at h
      cases hn : clusterKmeans dist fltMax points k rng n with
      | running s₀ =>
        rw [hn] at h
        exact (positive_clusterKmeans hd hk ht n hn).kmeansRound hd (whole_clusterKmeans rng hd hk n hn) (ht n s₀ hn) h
      | returned clusters => simp [hn] at h
      | nullCluster => simp [hn] at h
      | dividedByZero => simp [hn] at h

/-- What `cluster_kmeans` is to do, whatever the number of its rounds. -/
def Clusters (dist : ℤ → ℤ → Kp → L) (fltMax : L) (points : List Kp) (k : ℕ) (rng : ℕ → Fin points.length) : Prop :=
  ∀ n, clusterKmeans dist fltMax points k rng n ≠ .dividedByZero ∧
    ∀ clusters, clusterKmeans dist fltMax points k rng n = .returned clusters → Clustering dist points clusters

/-- In a run whose centroids stay together or move together in every round, with their sums in range, nothing is
    divided by zero and nothing but a clustering is returned just when no share is ever empty and the centroids that
    stay are small. In any run an empty share is one too many. -/
theorem cluster_kmeans_iff (hd : ∀ x y p, InInt x → InInt y → dist x y p < fltMax) (hk : 1 ≤ k) :
    ((∀ n s, clusterKmeans dist fltMax points k rng n = .running s → Together (s.shares dist points)) →
      (Clusters dist fltMax points k rng ↔
        ∀ n s, clusterKmeans dist fltMax points k rng n = .running s → Occupied (s.shares dist points))) ∧
    (Clusters dist fltMax points k rng → ∀ n s, clusterKmeans dist fltMax points k rng n = .running s →
      ∀ c ∈ s.shares dist points, c.points ≠ 0) := by
  have hsound := clusterKmeans_sound_iff rng hd hk
  constructor
  · intro ht
    refine hsound.trans (forall₂_congr fun n s => forall_congr' fun hn => ?_)
    have hs := whole_clusterKmeans rng hd hk n hn
    have h0 := hs.roundGroups_positive hd (positive_clusterKmeans rng hd hk ht n hn)
    have hst := ht n s hn
    rw [hs.shares_eq hd] at hst ⊢
    exact sound_iff_occupied h0 hst
  · intro h n s hn
    have hs := whole_clusterKmeans rng hd hk n hn
    rw [hs.shares_eq hd]
    refine List.forall_mem_map.mpr fun c hc => ?_
    simpa [Cluster.share] using (hsound.mp h n s hn).fed_all c hc

/-- Three points around 1 and six around 5, and two of them to start from. -/
def twoGroups : List Kp := [⟨0, 0⟩, ⟨1, 0⟩, ⟨2, 0⟩, ⟨4, 0⟩, ⟨5, 0⟩, ⟨5, 0⟩, ⟨5, 0⟩, ⟨5, 0⟩, ⟨6, 0⟩]

def twoSeeds (i : ℕ) : Fin twoGroups.length := if i = 0 then ⟨0, by decide⟩ else ⟨3, by decide⟩

/-- The clusters around 1 and 5. -/
def groupsFound : List Cluster :=
  [⟨1, 0, 2, 0, [⟨2, 0⟩, ⟨1, 0⟩, ⟨0, 0⟩]⟩, ⟨5, 0, 2, 0, [⟨6, 0⟩, ⟨5, 0⟩, ⟨5, 0⟩, ⟨5, 0⟩, ⟨5, 0⟩, ⟨4, 0⟩]⟩]

/-- Both centroids move in the first round and stay in the second. -/
theorem cluster_kmeans_of_two_groups : Clustering squaredDistance twoGroups groupsFound := by
  have hmoved : clusterKmeans squaredDistance floatMax twoGroups 2 twoSeeds 1 = .running ⟨[], groupsFound⟩ := by
    decide +kernel
  have hret : clusterKmeans squaredDistance floatMax twoGroups 2 twoSeeds 2 = .returned groupsFound := by
    decide +kernel
  have hstates : ∀ n s, clusterKmeans squaredDistance floatMax twoGroups 2 twoSeeds n = .running s →
      s = kmeansSeeds twoGroups 2 twoSeeds ∨ s = ⟨[], groupsFound⟩ := by
    intro n s hs
    match n with
    | 0 =>
      cases hs
      exact .inl rfl
    | 1 =>
      rw [hmoved] at hs
      cases hs
      exact .inr rfl
    | n + 2 =>
      rw [Nat.add_comm, clusterKmeans_of_returned _ hret n] at hs
      cases hs
  have htogether : ∀ n s, clusterKmeans squaredDistance floatMax twoGroups 2 twoSeeds n = .running s →
      Together (s.shares squaredDistance twoGroups) := by
    intro n s hs
    rcases hstates n s hs with rfl | rfl <;> exact ⟨by decide, by decide⟩
  have hoccupied : ∀ n s, clusterKmeans squaredDistance floatMax twoGroups 2 twoSeeds n = .running s →
      Occupied (s.shares squaredDistance twoGroups) := by
    intro n s hs
    rcases hstates n s hs with rfl | rfl <;> exact ⟨by decide, by decide⟩
  have hiff := cluster_kmeans_iff twoSeeds squaredDistance_lt_floatMax (show 1 ≤ 2 by decide)
  exact ((hiff.1 htogether).mpr hoccupied 2).2 _ hret

/-- In the first of the two runs the seeds are in one place and the second cluster gets no point. In the other the
    first cluster is already at its mean, so the second is left at its seed. -/
theorem cluster_kmeans_not_clustering :
    clusterKmeans squaredDistance floatMax [⟨0, 0⟩, ⟨4, 0⟩] 2 (fun _ => 0) 1 = .dividedByZero ∧
      clusterKmeans squaredDistance floatMax [⟨0, 0⟩, ⟨10, 0⟩, ⟨20, 0⟩] 2 (fun i => if i = 0 then 0 else 1) 1 =
        .returned [⟨0, 0, 0, 0, [⟨0, 0⟩]⟩, ⟨10, 0, 0, 0, [⟨20, 0⟩, ⟨10, 0⟩]⟩] ∧
      ¬ Clustering squaredDistance [⟨0, 0⟩, ⟨10, 0⟩, ⟨20, 0⟩]
        [⟨0, 0, 0, 0, [⟨0, 0⟩]⟩, ⟨10, 0, 0, 0, [⟨20, 0⟩, ⟨10, 0⟩]⟩] := by
  refine ⟨by decide, by decide, fun h => ?_⟩
  have hmean := (h.mean ⟨10, 0, 0, 0, [⟨20, 0⟩, ⟨10, 0⟩]⟩ (by simp)).2.1
  exact absurd hmean (by decide)

end OpenMV.Vision
