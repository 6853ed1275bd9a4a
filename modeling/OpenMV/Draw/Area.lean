import OpenMV.Draw.Samples
import Mathlib.Tactic.Linarith

/-! The means of the area algorithm | scheme:resampling | source:src/src/openmv/omv/img/draw.c

    The fast mean is the rounded mean of the pixels. The slow one divides a weighted sum, rounded to the
    nearest, by the sum of the weights, rounded up to whole pixels; the roundings after the corners and
    after the sides come down to one. So a constant is kept only where the weight that is added by rounding
    up is small against the area. -/

namespace OpenMV.Draw
open Vision Filters

theorem u32_of_lt {x : ℤ} (h : 0 ≤ x ∧ x < 4294967296) : u32 x = x := Int.emod_eq_of_lt h.1 h.2

/-! ### Sums -/

theorem range_sum_bounds (g : ℕ → ℤ) {lo hi : ℤ} : ∀ n : ℕ, (∀ k < n, lo ≤ g k ∧ g k ≤ hi) →
    lo * n ≤ ((List.range n).map g).sum ∧ ((List.range n).map g).sum ≤ hi * n
  | 0, _ => by simp
  | n + 1, h => by
      obtain ⟨h1, h2⟩ := range_sum_bounds g n fun k hk => h k (by omega)
      obtain ⟨h3, h4⟩ := h n (by omega)
      rw [List.range_succ, List.map_append, List.sum_append, List.map_singleton, List.sum_singleton]
      push_cast
      constructor <;> linarith

/-- A sum of values between two bounds. -/
theorem spanSum_bounds {a b lo hi : ℤ} {f : ℤ → ℤ} (h : ∀ x ∈ span a b, lo ≤ f x ∧ f x ≤ hi) :
    lo * max (b - a) 0 ≤ spanSum a b f ∧ spanSum a b f ≤ hi * max (b - a) 0 := by
  have hn : ((b - a).toNat : ℤ) = max (b - a) 0 := Int.toNat_eq_max _
  rw [← hn]
  refine range_sum_bounds _ _ fun k hk => h _ ?_
  rw [mem_span]
  omega

/-- A rounded mean lies between the bounds. -/
theorem areaMean_bounds {acc area lo hi : ℤ} (ha : 0 < area) (hlo : 0 ≤ lo) (h1 : lo * area ≤ acc)
    (h2 : acc ≤ hi * area) (hfit : hi * area + area < 4294967296) :
    lo ≤ areaMean acc area ∧ areaMean acc area ≤ hi := by
  have h0 : 0 ≤ lo * area := mul_nonneg hlo ha.le
  unfold areaMean
  rw [u32_of_lt (by omega)]
  constructor
  · rw [Int.le_ediv_iff_mul_le ha]
    omega
  · rw [← Int.lt_add_one_iff, Int.ediv_lt_iff_lt_mul ha, add_mul, one_mul]
    omega

/-! ### The fast mean -/

section

variable {ax ay : Axis} {xa ya lo hi : ℤ} {f : ℤ → ℤ → ℤ}

/-- The width of the box. -/
def boxSize (a : Axis) (acc : ℤ) : ℤ := areaEnd a acc - acc / 65536

theorem fastMean_bounds (hx : 0 < boxSize ax xa) (hy : 0 < boxSize ay ya)
    (hfit : boxSize ax xa * boxSize ay ya ≤ 8388608) (hlo : 0 ≤ lo) (hhi : hi ≤ 255)
    (h : ∀ x ∈ Algorithm.areaFast.taps ax xa, ∀ y ∈ Algorithm.areaFast.taps ay ya, lo ≤ f x y ∧ f x y ≤ hi) :
    lo ≤ fastMean ax ay xa ya f ∧ fastMean ax ay xa ya f ≤ hi := by
  unfold boxSize at hx hy hfit
  have hrow : ∀ y ∈ span (ya / 65536) (areaEnd ay ya),
      lo * (areaEnd ax xa - xa / 65536) ≤ spanSum (xa / 65536) (areaEnd ax xa) (fun x => f x y) ∧
      spanSum (xa / 65536) (areaEnd ax xa) (fun x => f x y) ≤ hi * (areaEnd ax xa - xa / 65536) := by
    intro y hy
    have hsum := spanSum_bounds (f := fun x => f x y) fun x hx => h x hx y hy
    rwa [max_eq_left hx.le] at hsum
  obtain ⟨h1, h2⟩ := spanSum_bounds hrow
  rw [max_eq_left hy.le] at h1 h2
  unfold fastMean
  simp only
  generalize spanSum (ya / 65536) (areaEnd ay ya) (fun y => spanSum (xa / 65536) (areaEnd ax xa) fun x => f x y) =
    acc at h1 h2 ⊢
  generalize areaEnd ax xa - xa / 65536 = n at hx hfit h1 h2 ⊢
  generalize areaEnd ay ya - ya / 65536 = m at hy hfit h1 h2 ⊢
  have hpos : 0 < n * m := mul_pos hx hy
  have hacc0 : 0 ≤ lo * (n * m) := mul_nonneg hlo hpos.le
  have hacc1 : hi * (n * m) ≤ 255 * 8388608 := by nlinarith
  rw [mul_assoc] at h1 h2
  rw [u32_of_lt (x := acc) (by omega), u32_of_lt (x := n * m) (by omega)]
  exact areaMean_bounds hpos hlo h1 h2 (by omega)

end

/-! ### The slow mean -/

namespace Edges

variable (e : Edges)

/-- The weights of the first and the last column. -/
def ends : ℤ := e.lo + e.hi

/-- The number of columns between them. -/
def between : ℤ := max e.inner 0

/-- The weight of all columns. -/
def weight (bits : ℕ) : ℤ := e.ends + e.between * 2 ^ bits

end Edges

section

variable (bits : ℕ) (ex ey : Edges)

def cornerWeight : ℤ := ex.ends * ey.ends
def sideWeight : ℤ := ex.between * ey.ends + ey.between * ex.ends
def middleWeight : ℤ := ex.between * ey.between

/-- The weight of the whole area, rounded up to pixels. -/
def wholeArea : ℤ := (ex.weight bits * ey.weight bits + (2 ^ bits * 2 ^ bits - 1)) / (2 ^ bits * 2 ^ bits)

/-- What the two roundings to the nearest add before the division. -/
def halves : ℤ := 2 ^ (bits - 1) + 2 ^ (bits - 1) * 2 ^ bits

variable (f : ℤ → ℤ → ℤ)

def cornerSum : ℤ := f ex.index ey.index * (ey.lo * ex.lo) + f ex.stop ey.index * (ey.lo * ex.hi) +
  f ex.index ey.stop * (ey.hi * ex.lo) + f ex.stop ey.stop * (ey.hi * ex.hi)

def sideSum : ℤ :=
  (if 0 < ex.inner then spanSum (ex.index + 1) ex.stop fun x => f x ey.index * ey.lo + f x ey.stop * ey.hi else 0) +
  (if 0 < ey.inner then spanSum (ey.index + 1) ey.stop fun y => f ex.index y * ex.lo + f ex.stop y * ex.hi else 0)

def middleSum : ℤ := if 0 < ex.inner ∧ 0 < ey.inner then
  spanSum (ey.index + 1) ey.stop fun y => spanSum (ex.index + 1) ex.stop fun x => f x y else 0

/-- The weighted sum without roundings. -/
def exactSum : ℤ := cornerSum ex ey f + sideSum ex ey f * 2 ^ bits + middleSum ex ey f * (2 ^ bits * 2 ^ bits)

theorem weight_mul_weight : ex.weight bits * ey.weight bits =
    cornerWeight ex ey + sideWeight ex ey * 2 ^ bits + middleWeight ex ey * (2 ^ bits * 2 ^ bits) := by
  unfold Edges.weight cornerWeight sideWeight middleWeight
  ring

variable {ex ey f}

/-- The weights of an edge that are possible, and as many columns as an image in memory has. -/
structure Edges.Ok (bits : ℕ) (ex ey : Edges) : Prop where
  xlo : 1 ≤ ex.lo ∧ ex.lo ≤ 2 ^ bits
  xhi : 0 ≤ ex.hi ∧ ex.hi ≤ 2 ^ bits
  ylo : 1 ≤ ey.lo ∧ ey.lo ≤ 2 ^ bits
  yhi : 0 ≤ ey.hi ∧ ey.hi ≤ 2 ^ bits
  sides : ex.between + ey.between ≤ 4194306
  middle : ex.between * ey.between ≤ 8388608

theorem Edges.inner_eq (e : Edges) : e.stop - (e.index + 1) = e.inner := by
  unfold Edges.inner
  ring

theorem sum_bounds_if {a b l u : ℤ} {p : Prop} [Decidable p] {g : ℤ → ℤ} (h : ∀ x ∈ span a b, l ≤ g x ∧ g x ≤ u)
    (hp : p ↔ 0 < b - a) : l * max (b - a) 0 ≤ (if p then spanSum a b g else 0) ∧
      (if p then spanSum a b g else 0) ≤ u * max (b - a) 0 := by
  split_ifs with hc
  · exact spanSum_bounds h
  · rw [hp] at hc
    rw [max_eq_right (by omega)]
    simp

variable {lo hi : ℤ}

/-- What is read lies between the bounds. -/
def Between (lo hi : ℤ) (ex ey : Edges) (f : ℤ → ℤ → ℤ) : Prop :=
  ∀ x ∈ ex.index :: ex.stop :: span (ex.index + 1) ex.stop,
    ∀ y ∈ ey.index :: ey.stop :: span (ey.index + 1) ey.stop, lo ≤ f x y ∧ f x y ≤ hi

theorem weighted_bounds {v w lo hi : ℤ} (hv : lo ≤ v ∧ v ≤ hi) (hw : 0 ≤ w) : lo * w ≤ v * w ∧ v * w ≤ hi * w :=
  ⟨mul_le_mul_of_nonneg_right hv.1 hw, mul_le_mul_of_nonneg_right hv.2 hw⟩

section Bounds

variable {bits} (hok : Edges.Ok bits ex ey) (h : Between lo hi ex ey f)

include hok h

theorem cornerSum_bounds :
    lo * cornerWeight ex ey ≤ cornerSum ex ey f ∧ cornerSum ex ey f ≤ hi * cornerWeight ex ey := by
  obtain ⟨hxlo, hxhi, hylo, hyhi, -, -⟩ := hok
  have h1 := weighted_bounds (h ex.index (by simp) ey.index (by simp))
    (mul_nonneg (by omega : 0 ≤ ey.lo) (by omega : 0 ≤ ex.lo))
  have h2 := weighted_bounds (h ex.stop (by simp) ey.index (by simp)) (mul_nonneg (by omega : 0 ≤ ey.lo) hxhi.1)
  have h3 := weighted_bounds (h ex.index (by simp) ey.stop (by simp)) (mul_nonneg hyhi.1 (by omega : 0 ≤ ex.lo))
  have h4 := weighted_bounds (h ex.stop (by simp) ey.stop (by simp)) (mul_nonneg hyhi.1 hxhi.1)
  have hw : cornerWeight ex ey = ey.lo * ex.lo + ey.lo * ex.hi + ey.hi * ex.lo + ey.hi * ex.hi := by
    unfold cornerWeight Edges.ends
    ring
  rw [hw, mul_add, mul_add, mul_add, mul_add, mul_add, mul_add]
  unfold cornerSum
  constructor <;> linarith [h1.1, h1.2, h2.1, h2.2, h3.1, h3.2, h4.1, h4.2]

theorem sideSum_bounds : lo * sideWeight ex ey ≤ sideSum ex ey f ∧ sideSum ex ey f ≤ hi * sideWeight ex ey := by
  obtain ⟨hxlo, hxhi, hylo, hyhi, -, -⟩ := hok
  have hx := sum_bounds_if (l := lo * ey.ends) (u := hi * ey.ends) (p := 0 < ex.inner)
    (g := fun x => f x ey.index * ey.lo + f x ey.stop * ey.hi) (a := ex.index + 1) (b := ex.stop)
    (fun x hx => by
      have h1 := weighted_bounds (h x (by simp [hx]) ey.index (by simp)) (by omega : 0 ≤ ey.lo)
      have h2 := weighted_bounds (h x (by simp [hx]) ey.stop (by simp)) hyhi.1
      unfold Edges.ends
      constructor <;> linarith [h1.1, h1.2, h2.1, h2.2]) (by rw [Edges.inner_eq])
  have hy := sum_bounds_if (l := lo * ex.ends) (u := hi * ex.ends) (p := 0 < ey.inner)
    (g := fun y => f ex.index y * ex.lo + f ex.stop y * ex.hi) (a := ey.index + 1) (b := ey.stop)
    (fun y hy => by
      have h1 := weighted_bounds (h ex.index (by simp) y (by simp [hy])) (by omega : 0 ≤ ex.lo)
      have h2 := weighted_bounds (h ex.stop (by simp) y (by simp [hy])) hxhi.1
      unfold Edges.ends
      constructor <;> linarith [h1.1, h1.2, h2.1, h2.2]) (by rw [Edges.inner_eq])
  rw [Edges.inner_eq, ← Edges.between] at hx hy
  unfold sideSum sideWeight
  constructor <;> linarith [hx.1, hx.2, hy.1, hy.2]

omit hok in
theorem middleSum_bounds :
    lo * middleWeight ex ey ≤ middleSum ex ey f ∧ middleSum ex ey f ≤ hi * middleWeight ex ey := by
  unfold middleSum middleWeight
  by_cases hc : 0 < ex.inner ∧ 0 < ey.inner
  · have hrow : ∀ y ∈ span (ey.index + 1) ey.stop,
        lo * ex.between ≤ spanSum (ex.index + 1) ex.stop (fun x => f x y) ∧
        spanSum (ex.index + 1) ex.stop (fun x => f x y) ≤ hi * ex.between := by
      intro y hy
      have hsum := spanSum_bounds (a := ex.index + 1) (b := ex.stop) (f := fun x => f x y)
        fun x hx => h x (by simp [hx]) y (by simp [hy])
      rwa [Edges.inner_eq, ← Edges.between] at hsum
    have hall := spanSum_bounds hrow
    rw [Edges.inner_eq, ← Edges.between] at hall
    rw [if_pos hc]
    constructor <;> linarith [hall.1, hall.2]
  · have hz : ex.between * ey.between = 0 := by
      rw [mul_eq_zero]
      unfold Edges.between
      omega
    rw [if_neg hc, hz]
    simp

end Bounds

/-! Without overflow the steps of the code come to the exact sum and the whole area. -/

theorem slowSum_steps (bits : ℕ) (ex ey : Edges) (f : ℤ → ℤ → ℤ) : slowSum bits ex ey f =
    u32 (u32 (u32 (cornerSum ex ey f + 2 ^ (bits - 1)) / 2 ^ bits + (sideSum ex ey f + 2 ^ (bits - 1))) / 2 ^ bits +
      middleSum ex ey f) := by
  unfold slowSum sideSum
  simp only [cornerSum, middleSum, add_assoc]

theorem slowArea_steps (bits : ℕ) (ex ey : Edges) (corners : ℤ) : slowArea bits ex ey corners =
    u32 (u32 (u32 (corners + (2 ^ bits - 1)) / 2 ^ bits + (sideWeight ex ey + (2 ^ bits - 1))) / 2 ^ bits +
      middleWeight ex ey) := by
  have hone : ∀ (e : Edges) (v : ℤ), (if 0 < e.inner then e.inner * v else 0) = e.between * v := by
    intro e v
    unfold Edges.between
    split_ifs with h
    · rw [max_eq_left h.le]
    · rw [max_eq_right (by omega), zero_mul]
  have htwo : (if 0 < ex.inner ∧ 0 < ey.inner then ex.inner * ey.inner else 0) = ex.between * ey.between := by
    unfold Edges.between
    split_ifs with h
    · rw [max_eq_left h.1.le, max_eq_left h.2.le]
    · rw [eq_comm, mul_eq_zero]
      omega
  unfold slowArea
  simp only [hone, htwo]
  unfold sideWeight middleWeight Edges.ends
  simp only [add_assoc]

/-- Two roundings one after the other are one. -/
theorem two_roundings {B : ℤ} (hB : 0 < B) (C S M r : ℤ) :
    ((C + r) / B + (S + r)) / B + M = (C + S * B + M * (B * B) + (r + r * B)) / (B * B) := by
  rw [← Int.add_mul_ediv_right _ _ hB.ne', ← Int.add_mul_ediv_right _ _ hB.ne', ← Int.ediv_ediv_of_nonneg hB.le]
  have hinner : (C + S * B + M * (B * B) + (r + r * B)) / B = (C + r + (S + r) * B) / B + M * B := by
    rw [← Int.add_mul_ediv_right _ _ hB.ne']
    congr 1
    ring
  rw [hinner]

theorem u32_nonneg (x : ℤ) : 0 ≤ u32 x := Int.emod_nonneg x (by norm_num)

theorem u32_le {x : ℤ} (h : 0 ≤ x) : u32 x ≤ x := by
  unfold u32
  omega

theorem u32_le_sub {x : ℤ} (h : 4294967296 ≤ x) : u32 x ≤ x - 4294967296 := by
  unfold u32
  omega

section Steps

variable {B C S M r : ℤ} (hB : 0 < B) (hC : 0 ≤ C + r) (hS : 0 ≤ S + r) (hM : 0 ≤ M)

include hB hC hS hM

theorem u32_steps_le :
    u32 (u32 (u32 (C + r) / B + (S + r)) / B + M) ≤ (C + S * B + M * (B * B) + (r + r * B)) / (B * B) := by
  have h1 : 0 ≤ u32 (C + r) / B := Int.ediv_nonneg (u32_nonneg _) hB.le
  have h2 : 0 ≤ u32 (u32 (C + r) / B + (S + r)) / B := Int.ediv_nonneg (u32_nonneg _) hB.le
  rw [← two_roundings hB]
  calc u32 (u32 (u32 (C + r) / B + (S + r)) / B + M)
      ≤ u32 (u32 (C + r) / B + (S + r)) / B + M := u32_le (add_nonneg h2 hM)
    _ ≤ (u32 (C + r) / B + (S + r)) / B + M :=
        add_le_add (Int.ediv_le_ediv hB (u32_le (add_nonneg h1 hS))) le_rfl
    _ ≤ ((C + r) / B + (S + r)) / B + M :=
        add_le_add (Int.ediv_le_ediv hB (add_le_add (Int.ediv_le_ediv hB (u32_le hC)) le_rfl)) le_rfl

theorem u32_steps_eq (h1 : C + r < 4294967296) (h2 : C + r + (S + r) * B < 4294967296 * B)
    (h3 : ((C + r) / B + (S + r)) / B + M < 4294967296) :
    u32 (u32 (u32 (C + r) / B + (S + r)) / B + M) = (C + S * B + M * (B * B) + (r + r * B)) / (B * B) := by
  have hsides : (C + r) / B + (S + r) < 4294967296 := by
    rwa [← Int.add_mul_ediv_right _ _ hB.ne', Int.ediv_lt_iff_lt_mul hB]
  have hnonneg : 0 ≤ (C + r) / B + (S + r) := add_nonneg (Int.ediv_nonneg hC hB.le) hS
  rw [u32_of_lt ⟨hC, h1⟩, u32_of_lt ⟨hnonneg, hsides⟩, u32_of_lt ⟨add_nonneg (Int.ediv_nonneg hnonneg hB.le) hM, h3⟩,
    two_roundings hB]

omit hS in
/-- Where the sum at the sides overflows, at least `2 ^ 32` is lost. -/
theorem u32_steps_le_of_overflow {k : ℤ} (hk : k * B = 4294967296) (h1 : C + r < 4294967296)
    (h2 : 4294967296 * B ≤ C + r + (S + r) * B) :
    u32 (u32 (u32 (C + r) / B + (S + r)) / B + M) ≤
      (C + S * B + M * (B * B) + (r + r * B)) / (B * B) - k := by
  have hsides : 4294967296 ≤ (C + r) / B + (S + r) := by
    rwa [← Int.add_mul_ediv_right _ _ hB.ne', Int.le_ediv_iff_mul_le hB]
  have hnonneg : 0 ≤ u32 ((C + r) / B + (S + r)) / B := Int.ediv_nonneg (u32_nonneg _) hB.le
  have hlost : ((C + r) / B + (S + r) - 4294967296) / B = ((C + r) / B + (S + r)) / B - k := by
    rw [← hk, Int.sub_eq_add_neg, ← neg_mul, Int.add_mul_ediv_right _ _ hB.ne', ← Int.sub_eq_add_neg]
  rw [u32_of_lt ⟨hC, h1⟩, ← two_roundings hB]
  calc u32 (u32 ((C + r) / B + (S + r)) / B + M)
      ≤ u32 ((C + r) / B + (S + r)) / B + M := u32_le (add_nonneg hnonneg hM)
    _ ≤ ((C + r) / B + (S + r) - 4294967296) / B + M :=
        add_le_add (Int.ediv_le_ediv hB (u32_le_sub hsides)) le_rfl
    _ = ((C + r) / B + (S + r)) / B + M - k := by rw [hlost]; ring

end Steps

/-- The rounded quotient, for a sum between two multiples of the weight. -/
theorem roundedMean_le {A T F r Q c : ℤ} (hA : 0 < A) (hQ : 0 < Q) (hT : T ≤ A * Q) (hr : r < Q) (hc : 0 ≤ c)
    (h : F ≤ c * T) : ((F + r) / Q + A / 2) / A ≤ c := by
  have hF : F ≤ c * A * Q := le_trans h (by rw [mul_assoc]; exact mul_le_mul_of_nonneg_left hT hc)
  have hsum : (F + r) / Q < c * A + 1 := by
    rw [Int.ediv_lt_iff_lt_mul hQ, add_mul, one_mul]
    omega
  rw [← Int.lt_add_one_iff, Int.ediv_lt_iff_lt_mul hA, add_mul, one_mul]
  omega

theorem le_roundedMean_iff {A T F r Q c : ℤ} (hA : 0 < A) (hQ : 0 < Q) (h : F = c * T) :
    c ≤ ((F + r) / Q + A / 2) / A ↔ c * (A * Q - T) ≤ A / 2 * Q + r := by
  rw [Int.le_ediv_iff_mul_le hA, ← sub_le_iff_le_add, Int.le_ediv_iff_mul_le hQ, h, sub_mul, mul_sub, mul_assoc]
  constructor <;> intro hle <;> linarith

theorem roundedMean_mono {A F F' r Q : ℤ} (hA : 0 < A) (hQ : 0 < Q) (h : F ≤ F') :
    ((F + r) / Q + A / 2) / A ≤ ((F' + r) / Q + A / 2) / A := by
  have hsum : (F + r) / Q ≤ (F' + r) / Q := Int.ediv_le_ediv hQ (by omega)
  exact Int.ediv_le_ediv hA (by omega)

/-- The 32 bits hold what is summed at the sides. -/
def SidesFit (bits : ℕ) (ex ey : Edges) (c : ℤ) : Prop :=
  c * (cornerWeight ex ey + sideWeight ex ey * 2 ^ bits) + halves bits < 2 ^ bits * 4294967296

/-- The weight that is added by rounding up, times the level, is not more than the rounding of the quotient
    makes up for. -/
def KeepsLevel (bits : ℕ) (ex ey : Edges) (c : ℤ) : Prop :=
  c * (wholeArea bits ex ey * (2 ^ bits * 2 ^ bits) - ex.weight bits * ey.weight bits) ≤
    wholeArea bits ex ey / 2 * (2 ^ bits * 2 ^ bits) + halves bits

instance (bits : ℕ) (ex ey : Edges) (c : ℤ) : Decidable (SidesFit bits ex ey c) := Int.decLt _ _

instance (bits : ℕ) (ex ey : Edges) (c : ℤ) : Decidable (KeepsLevel bits ex ey c) := Int.decLe _ _

section Slow

variable {bits : ℕ} (hbits : bits = 7 ∨ bits = 8) (hok : Edges.Ok bits ex ey)

include hbits hok

omit hbits in
theorem weights_bounds : (1 ≤ cornerWeight ex ey ∧ cornerWeight ex ey ≤ 4 * (2 ^ bits * 2 ^ bits)) ∧
    (0 ≤ sideWeight ex ey ∧ sideWeight ex ey ≤ 8388612 * 2 ^ bits) ∧
    0 ≤ middleWeight ex ey ∧ middleWeight ex ey ≤ 8388608 := by
  obtain ⟨hxlo, hxhi, hylo, hyhi, hsides, hmiddle⟩ := hok
  have hB : (0 : ℤ) < 2 ^ bits := by positivity
  have hx0 : 0 ≤ ex.between := le_max_right _ _
  have hy0 : 0 ≤ ey.between := le_max_right _ _
  have hxe : 1 ≤ ex.ends ∧ ex.ends ≤ 2 * 2 ^ bits := by unfold Edges.ends; omega
  have hye : 1 ≤ ey.ends ∧ ey.ends ≤ 2 * 2 ^ bits := by unfold Edges.ends; omega
  have hx1 : 0 ≤ ex.ends := le_trans zero_le_one hxe.1
  have hy1 : 0 ≤ ey.ends := le_trans zero_le_one hye.1
  refine ⟨⟨one_le_mul_of_one_le_of_one_le hxe.1 hye.1, ?_⟩,
    ⟨add_nonneg (mul_nonneg hx0 hy1) (mul_nonneg hy0 hx1), ?_⟩, mul_nonneg hx0 hy0, hmiddle⟩
  · calc cornerWeight ex ey ≤ 2 * 2 ^ bits * (2 * 2 ^ bits) := mul_le_mul hxe.2 hye.2 hy1 (by positivity)
      _ = 4 * (2 ^ bits * 2 ^ bits) := by ring
  · calc sideWeight ex ey ≤ ex.between * (2 * 2 ^ bits) + ey.between * (2 * 2 ^ bits) :=
        add_le_add (mul_le_mul_of_nonneg_left hye.2 hx0) (mul_le_mul_of_nonneg_left hxe.2 hy0)
      _ = (ex.between + ey.between) * (2 * 2 ^ bits) := by ring
      _ ≤ 4194306 * (2 * 2 ^ bits) := mul_le_mul_of_nonneg_right hsides (by positivity)
      _ = 8388612 * 2 ^ bits := by ring

omit hbits in
/-- The whole area and its weight. -/
theorem wholeArea_bounds : 1 ≤ wholeArea bits ex ey ∧ wholeArea bits ex ey ≤ 16777225 ∧
    ex.weight bits * ey.weight bits ≤ wholeArea bits ex ey * (2 ^ bits * 2 ^ bits) := by
  obtain ⟨hc, hs, hm⟩ := weights_bounds hok
  have hB : (0 : ℤ) < 2 ^ bits := by positivity
  have hQ : (0 : ℤ) < 2 ^ bits * 2 ^ bits := by positivity
  have hsB := mul_le_mul_of_nonneg_right hs.2 hB.le
  have hmQ := mul_le_mul_of_nonneg_right hm.2 hQ.le
  have hsB0 := mul_nonneg hs.1 hB.le
  have hmQ0 := mul_nonneg hm.1 hQ.le
  unfold wholeArea
  rw [weight_mul_weight]
  refine ⟨?_, ?_, ?_⟩
  · rw [Int.le_ediv_iff_mul_le hQ]
    linarith only [hc.1, hsB0, hmQ0]
  · rw [← Int.lt_add_one_iff, Int.ediv_lt_iff_lt_mul hQ]
    linarith only [hc.2, hsB, hmQ, hQ]
  · have hlt := Int.lt_ediv_add_one_mul_self (cornerWeight ex ey + sideWeight ex ey * 2 ^ bits +
      middleWeight ex ey * (2 ^ bits * 2 ^ bits) + (2 ^ bits * 2 ^ bits - 1)) hQ
    rw [add_mul, one_mul] at hlt
    linarith only [hlt]

theorem slowArea_eq {corners : ℤ} (hcorners : 0 ≤ corners ∧ corners ≤ 262144)
    (h : (corners + (2 ^ bits - 1)) / 2 ^ bits = (cornerWeight ex ey + (2 ^ bits - 1)) / 2 ^ bits) :
    slowArea bits ex ey corners = wholeArea bits ex ey := by
  obtain ⟨hc, hs, hm⟩ := weights_bounds hok
  have hB : (128 : ℤ) ≤ 2 ^ bits ∧ (2 : ℤ) ^ bits ≤ 256 := by rcases hbits with rfl | rfl <;> norm_num
  have hBB : (2 : ℤ) ^ bits * 2 ^ bits ≤ 256 * 2 ^ bits := mul_le_mul_of_nonneg_right hB.2 (by omega)
  have hsB := mul_le_mul_of_nonneg_right hs.2 (by omega : (0 : ℤ) ≤ 2 ^ bits)
  have hone : wholeArea bits ex ey = ((cornerWeight ex ey + (2 ^ bits - 1)) / 2 ^ bits +
      (sideWeight ex ey + (2 ^ bits - 1))) / 2 ^ bits + middleWeight ex ey := by
    rw [two_roundings (by omega), wholeArea, weight_mul_weight]
    congr 1
    ring
  have harea := (wholeArea_bounds hok).2.1
  have hcorner : u32 (corners + (2 ^ bits - 1)) / 2 ^ bits = u32 (cornerWeight ex ey + (2 ^ bits - 1)) / 2 ^ bits := by
    rw [u32_of_lt (by omega), u32_of_lt (by omega), h]
  rw [slowArea_steps, hcorner, u32_steps_eq (by omega) (by omega) (by omega) hm.1 (by omega) (by linarith)
    (by omega), ← two_roundings (by omega), hone]

omit hbits in
/-- An overflow only makes the sum smaller. -/
theorem slowSum_le (h0 : 0 ≤ lo) (h : Between lo hi ex ey f) : 0 ≤ slowSum bits ex ey f ∧
    slowSum bits ex ey f ≤ (exactSum bits ex ey f + halves bits) / (2 ^ bits * 2 ^ bits) := by
  obtain ⟨hc, hs, hm⟩ := weights_bounds hok
  have hc1 := (cornerSum_bounds hok h).1
  have hs1 := (sideSum_bounds hok h).1
  have hm1 := (middleSum_bounds h).1
  have hc3 : 0 ≤ lo * cornerWeight ex ey := mul_nonneg h0 (by omega)
  have hs3 : 0 ≤ lo * sideWeight ex ey := mul_nonneg h0 hs.1
  have hm3 : 0 ≤ lo * middleWeight ex ey := mul_nonneg h0 hm.1
  have hr : (0 : ℤ) ≤ 2 ^ (bits - 1) := by positivity
  rw [slowSum_steps]
  exact ⟨u32_nonneg _, u32_steps_le (by positivity) (by omega) (by omega) (by omega)⟩

variable (hfit : SidesFit bits ex ey hi) (h0 : 0 ≤ lo) (h1 : hi ≤ 255) (h : Between lo hi ex ey f)

include hfit h0 h1 h

/-- If nothing overflows the sum is the exact one, rounded once. -/
theorem slowSum_eq : slowSum bits ex ey f = (exactSum bits ex ey f + halves bits) / (2 ^ bits * 2 ^ bits) ∧
    0 ≤ exactSum bits ex ey f := by
  obtain ⟨hc, hs, hm⟩ := weights_bounds hok
  obtain ⟨hc1, hc2⟩ := cornerSum_bounds hok h
  obtain ⟨hs1, hs2⟩ := sideSum_bounds hok h
  obtain ⟨hm1, hm2⟩ := middleSum_bounds h
  have hhi : 0 ≤ hi := by
    have := h ex.index (by simp) ey.index (by simp)
    omega
  have hc3 : 0 ≤ lo * cornerWeight ex ey := mul_nonneg h0 (by omega)
  have hs3 : 0 ≤ lo * sideWeight ex ey := mul_nonneg h0 hs.1
  have hm3 : 0 ≤ lo * middleWeight ex ey := mul_nonneg h0 hm.1
  have hc4 : hi * cornerWeight ex ey ≤ 255 * (4 * (2 ^ bits * 2 ^ bits)) :=
    mul_le_mul h1 hc.2 (by omega) (by norm_num)
  have hm4 : hi * middleWeight ex ey ≤ 255 * 8388608 := mul_le_mul h1 hm.2 hm.1 (by norm_num)
  have hsB := mul_le_mul_of_nonneg_right hs2 (by positivity : (0 : ℤ) ≤ 2 ^ bits)
  have hsB0 := mul_nonneg (le_trans hs3 hs1) (by positivity : (0 : ℤ) ≤ 2 ^ bits)
  have hmB0 := mul_nonneg (le_trans hm3 hm1) (by positivity : (0 : ℤ) ≤ 2 ^ bits * 2 ^ bits)
  unfold SidesFit halves at hfit
  rw [mul_add, ← mul_assoc] at hfit
  rw [slowSum_steps]
  refine ⟨?_, by unfold exactSum; omega⟩
  have hB : (128 : ℤ) ≤ 2 ^ bits ∧ (2 : ℤ) ^ bits ≤ 256 := by rcases hbits with rfl | rfl <;> norm_num
  have hr : (0 : ℤ) ≤ 2 ^ (bits - 1) ∧ (2 : ℤ) ^ (bits - 1) ≤ 128 := by rcases hbits with rfl | rfl <;> norm_num
  have hBB : (2 : ℤ) ^ bits * 2 ^ bits ≤ 256 * 256 := mul_le_mul hB.2 hB.2 (by omega) (by omega)
  have hfits : cornerSum ex ey f + 2 ^ (bits - 1) + (sideSum ex ey f + 2 ^ (bits - 1)) * 2 ^ bits <
      4294967296 * 2 ^ bits := by
    rw [add_mul]
    linarith
  -- the quotient of what is summed at the sides, and the middle, come to less than half of the range each
  have hquot : ((cornerSum ex ey f + 2 ^ (bits - 1)) / 2 ^ bits + (sideSum ex ey f + 2 ^ (bits - 1))) / 2 ^ bits <
      33554432 := by
    rw [Int.ediv_lt_iff_lt_mul (by omega)]
    have hlt : (cornerSum ex ey f + 2 ^ (bits - 1)) / 2 ^ bits + (sideSum ex ey f + 2 ^ (bits - 1)) < 4294967296 := by
      rwa [← Int.add_mul_ediv_right _ _ (by omega), Int.ediv_lt_iff_lt_mul (by omega)]
    omega
  exact u32_steps_eq (by omega) (by omega) (by omega) (by omega) (by omega) hfits (by omega)

omit hbits hfit h0 h1 in
theorem exactSum_bounds : lo * (ex.weight bits * ey.weight bits) ≤ exactSum bits ex ey f ∧
    exactSum bits ex ey f ≤ hi * (ex.weight bits * ey.weight bits) := by
  obtain ⟨hc1, hc2⟩ := cornerSum_bounds hok h
  obtain ⟨hs1, hs2⟩ := sideSum_bounds hok h
  obtain ⟨hm1, hm2⟩ := middleSum_bounds h
  have hB : (0 : ℤ) ≤ 2 ^ bits := by positivity
  have hBB : (0 : ℤ) ≤ 2 ^ bits * 2 ^ bits := by positivity
  rw [weight_mul_weight]
  unfold exactSum
  constructor
  · nlinarith [mul_le_mul_of_nonneg_right hs1 hB, mul_le_mul_of_nonneg_right hm1 hBB]
  · nlinarith [mul_le_mul_of_nonneg_right hs2 hB, mul_le_mul_of_nonneg_right hm2 hBB]

/-- The mean is the exact one, rounded once. -/
theorem slowMean_eq_rounded : areaMean (slowSum bits ex ey f) (wholeArea bits ex ey) =
    ((exactSum bits ex ey f + halves bits) / (2 ^ bits * 2 ^ bits) + wholeArea bits ex ey / 2) /
      wholeArea bits ex ey := by
  obtain ⟨hsum, hnonneg⟩ := slowSum_eq hbits hok hfit h0 h1 h
  obtain ⟨ha1, ha2, hT⟩ := wholeArea_bounds hok
  have hupper := (exactSum_bounds hok h).2
  have hhi : 0 ≤ hi := by
    have := h ex.index (by simp) ey.index (by simp)
    omega
  have hTle : hi * (ex.weight bits * ey.weight bits) ≤ 255 * (16777225 * (2 ^ bits * 2 ^ bits)) := by
    refine mul_le_mul h1 (le_trans hT ?_) ?_ (by norm_num)
    · exact mul_le_mul_of_nonneg_right ha2 (by positivity)
    · rw [weight_mul_weight]
      obtain ⟨hc, hs, hm⟩ := weights_bounds hok
      have h2 := mul_nonneg hs.1 (by positivity : (0 : ℤ) ≤ 2 ^ bits)
      have h3 := mul_nonneg hm.1 (by positivity : (0 : ℤ) ≤ 2 ^ bits * 2 ^ bits)
      omega
  unfold areaMean
  rw [hsum, u32_of_lt]
  unfold halves
  rcases hbits with rfl | rfl <;> norm_num at hTle ⊢ <;> omega

omit hfit h1 in
/-- The mean is not above the upper bound. -/
theorem slowMean_le : 0 ≤ areaMean (slowSum bits ex ey f) (wholeArea bits ex ey) ∧
    areaMean (slowSum bits ex ey f) (wholeArea bits ex ey) ≤ hi := by
  obtain ⟨ha1, ha2, hT⟩ := wholeArea_bounds hok
  obtain ⟨hlower, hupper⟩ := exactSum_bounds hok h
  obtain ⟨hsum0, hsum⟩ := slowSum_le hok h0 h
  have hr : halves bits < 2 ^ bits * 2 ^ bits := by
    unfold halves
    rcases hbits with rfl | rfl <;> norm_num
  have hhi : 0 ≤ hi := by
    have := h ex.index (by simp) ey.index (by simp)
    omega
  have hu : 0 ≤ u32 (slowSum bits ex ey f + wholeArea bits ex ey / 2) ∧
      u32 (slowSum bits ex ey f + wholeArea bits ex ey / 2) ≤ slowSum bits ex ey f + wholeArea bits ex ey / 2 := by
    unfold u32
    omega
  unfold areaMean
  refine ⟨Int.ediv_nonneg hu.1 (by omega), ?_⟩
  calc _ ≤ ((exactSum bits ex ey f + halves bits) / (2 ^ bits * 2 ^ bits) + wholeArea bits ex ey / 2) /
        wholeArea bits ex ey := Int.ediv_le_ediv (by omega) (by omega)
    _ ≤ hi := roundedMean_le (by omega) (by positivity) hT hr hhi hupper

/-- The mean is not below the lower bound if that is kept. -/
theorem le_slowMean (hkeeps : KeepsLevel bits ex ey lo) :
    lo ≤ areaMean (slowSum bits ex ey f) (wholeArea bits ex ey) := by
  have ha1 := (wholeArea_bounds hok).1
  have hQ : (0 : ℤ) < 2 ^ bits * 2 ^ bits := by positivity
  rw [slowMean_eq_rounded hbits hok hfit h0 h1 h]
  exact le_trans ((le_roundedMean_iff (by omega) hQ rfl).mpr hkeeps)
    (roundedMean_mono (by omega) hQ (exactSum_bounds hok h).1)

end Slow

/-- If the sum at the sides overflows, a constant is lowered. -/
theorem slowMean_lt_of_not_fit {bits : ℕ} (hbits : bits = 7 ∨ bits = 8) (hok : Edges.Ok bits ex ey) {c : ℤ}
    (hc : 0 ≤ c ∧ c ≤ 255) (h : Between c c ex ey f) (hfit : ¬ SidesFit bits ex ey c) :
    areaMean (slowSum bits ex ey f) (wholeArea bits ex ey) < c := by
  obtain ⟨ha1, ha2, hT⟩ := wholeArea_bounds hok
  obtain ⟨hcw, hsw, hmw⟩ := weights_bounds hok
  have hcorner : cornerSum ex ey f = c * cornerWeight ex ey :=
    le_antisymm (cornerSum_bounds hok h).2 (cornerSum_bounds hok h).1
  have hside : sideSum ex ey f = c * sideWeight ex ey := le_antisymm (sideSum_bounds hok h).2 (sideSum_bounds hok h).1
  have hmiddle : middleSum ex ey f = c * middleWeight ex ey := le_antisymm (middleSum_bounds h).2 (middleSum_bounds h).1
  have hcA := mul_le_mul_of_nonneg_left hT hc.1
  rw [weight_mul_weight, mul_add, mul_add, ← mul_assoc, ← mul_assoc c, ← mul_assoc c] at hcA
  have hc1 : 0 ≤ c * cornerWeight ex ey := mul_nonneg hc.1 (by omega)
  have hc2 : c * cornerWeight ex ey ≤ 255 * (4 * (2 ^ bits * 2 ^ bits)) :=
    mul_le_mul hc.2 hcw.2 (by omega) (by norm_num)
  have hs1 : 0 ≤ c * sideWeight ex ey := mul_nonneg hc.1 hsw.1
  have hm1 : 0 ≤ c * middleWeight ex ey := mul_nonneg hc.1 hmw.1
  have hm2 : c * middleWeight ex ey ≤ 255 * 8388608 := mul_le_mul hc.2 hmw.2 hmw.1 (by norm_num)
  unfold SidesFit halves at hfit
  rw [mul_add, ← mul_assoc] at hfit
  have hB : (128 : ℤ) ≤ 2 ^ bits ∧ (2 : ℤ) ^ bits ≤ 256 := by rcases hbits with rfl | rfl <;> norm_num
  have hr : (0 : ℤ) ≤ 2 ^ (bits - 1) ∧ (2 : ℤ) ^ (bits - 1) ≤ 128 := by rcases hbits with rfl | rfl <;> norm_num
  have hBB : (2 : ℤ) ^ bits * 2 ^ bits ≤ 256 * 256 := mul_le_mul hB.2 hB.2 (by omega) (by omega)
  obtain ⟨k, hk, hk1⟩ : ∃ k : ℤ, k * 2 ^ bits = 4294967296 ∧ 16777216 ≤ k := by
    rcases hbits with rfl | rfl
    · exact ⟨33554432, by norm_num⟩
    · exact ⟨16777216, by norm_num⟩
  -- at least 2^32 is lost, which is more than the rounding gives
  have hlost := u32_steps_le_of_overflow (C := c * cornerWeight ex ey) (S := c * sideWeight ex ey)
    (M := c * middleWeight ex ey) (r := 2 ^ (bits - 1)) (by omega) (by omega) hm1 hk (by omega)
    (by rw [add_mul]; linarith)
  have hround : (c * cornerWeight ex ey + c * sideWeight ex ey * 2 ^ bits +
      c * middleWeight ex ey * (2 ^ bits * 2 ^ bits) + (2 ^ (bits - 1) + 2 ^ (bits - 1) * 2 ^ bits)) /
        (2 ^ bits * 2 ^ bits) < c * wholeArea bits ex ey + 1 := by
    rw [Int.ediv_lt_iff_lt_mul (by positivity), add_mul, one_mul]
    have hhalves : (2 : ℤ) ^ (bits - 1) + 2 ^ (bits - 1) * 2 ^ bits < 2 ^ bits * 2 ^ bits := by
      rcases hbits with rfl | rfl <;> norm_num
    linarith
  unfold areaMean
  rw [Int.ediv_lt_iff_lt_mul (by omega), slowSum_steps, hcorner, hside, hmiddle]
  have hsum := u32_nonneg (u32 (u32 (c * cornerWeight ex ey + 2 ^ (bits - 1)) / 2 ^ bits +
    (c * sideWeight ex ey + 2 ^ (bits - 1))) / 2 ^ bits + c * middleWeight ex ey)
  refine lt_of_le_of_lt (u32_le (by omega)) ?_
  omega

/-- A constant is never raised, and it is kept exactly where the sides fit and the level is kept. -/
theorem slowMean_const {bits : ℕ} (hbits : bits = 7 ∨ bits = 8) (hok : Edges.Ok bits ex ey) {c : ℤ}
    (hc : 0 ≤ c ∧ c ≤ 255) (h : Between c c ex ey f) :
    areaMean (slowSum bits ex ey f) (wholeArea bits ex ey) ≤ c ∧
    (c ≤ areaMean (slowSum bits ex ey f) (wholeArea bits ex ey) ↔
      SidesFit bits ex ey c ∧ KeepsLevel bits ex ey c) := by
  refine ⟨(slowMean_le hbits hok hc.1 h).2, ?_⟩
  by_cases hfit : SidesFit bits ex ey c
  · obtain ⟨hlower, hupper⟩ := exactSum_bounds hok h
    rw [slowMean_eq_rounded hbits hok hfit hc.1 hc.2 h, and_iff_right hfit]
    exact le_roundedMean_iff (by have := (wholeArea_bounds hok).1; omega) (by positivity)
      (le_antisymm hupper hlower)
  · have hlt := slowMean_lt_of_not_fit hbits hok hc h hfit
    exact iff_of_false (not_le.mpr hlt) fun hk => hfit hk.1

end

/-! ### The edges of a column -/

/-- The slow algorithm reads columns of the source only. -/
structure EdgesInside (a : Axis) (acc : ℤ) : Prop where
  first : 0 ≤ acc
  size : 2 ≤ a.size

theorem edges_weights (bits : ℕ) (a : Axis) (acc : ℤ) :
    (1 ≤ (edges bits a acc).lo ∧ (edges bits a acc).lo ≤ 2 ^ bits) ∧
    0 ≤ (edges bits a acc).hi ∧ (edges bits a acc).hi ≤ 2 ^ bits := by
  have hB : (0 : ℤ) < 2 ^ bits := by positivity
  have h1 := Int.emod_nonneg (acc / 2 ^ (16 - bits)) hB.ne'
  have h2 := Int.emod_lt_of_pos (acc / 2 ^ (16 - bits)) hB
  have h3 := Int.emod_nonneg ((acc + a.frac) / 2 ^ (16 - bits)) hB.ne'
  have h4 := Int.emod_lt_of_pos ((acc + a.frac) / 2 ^ (16 - bits)) hB
  unfold edges
  simp only
  split_ifs <;> simp only <;> omega

theorem edges_between_le (bits : ℕ) {a : Axis} {acc : ℤ} (h : EdgesInside a acc) :
    (edges bits a acc).between ≤ a.size - 2 := by
  unfold Edges.between Edges.inner
  rw [edges_index, edges_stop]
  have := h.first
  have := h.size
  omega

/-- An image that is in memory has few enough columns and rows. -/
theorem edges_ok (bits : ℕ) {ax ay : Axis} {xa ya : ℤ} (hx : EdgesInside ax xa) (hy : EdgesInside ay ya)
    (hmem : ax.size * ay.size ≤ 8388608) : Edges.Ok bits (edges bits ax xa) (edges bits ay ya) := by
  obtain ⟨hxlo, hxhi⟩ := edges_weights bits ax xa
  obtain ⟨hylo, hyhi⟩ := edges_weights bits ay ya
  have hx1 := edges_between_le bits hx
  have hy1 := edges_between_le bits hy
  have hx0 : 0 ≤ (edges bits ax xa).between := le_max_right _ _
  have hy0 : 0 ≤ (edges bits ay ya).between := le_max_right _ _
  refine ⟨hxlo, hxhi, hylo, hyhi, ?_, ?_⟩
  · nlinarith [mul_nonneg (sub_nonneg.mpr hx.size) (sub_nonneg.mpr hy.size)]
  · have := mul_le_mul hx1 hy1 hy0 (by omega)
    nlinarith [hx.size, hy.size]

/-- The saturation of the corners for RGB565 is lost in the rounding. -/
theorem cornerArea_eq {bpp : Bpp} {ex ey : Edges} (h : Edges.Ok (weightBits bpp) ex ey) :
    (0 ≤ cornerArea bpp ex ey ∧ cornerArea bpp ex ey ≤ 262144) ∧
    (cornerArea bpp ex ey + (2 ^ weightBits bpp - 1)) / 2 ^ weightBits bpp =
      (cornerWeight ex ey + (2 ^ weightBits bpp - 1)) / 2 ^ weightBits bpp := by
  obtain ⟨hxlo, hxhi, hylo, hyhi, -, -⟩ := h
  by_cases hb : bpp = .rgb565
  · subst hb
    simp only [weightBits, cornerArea, cornerWeight, Edges.ends] at *
    norm_num at hxlo hxhi hylo hyhi ⊢
    rw [add_mul, ← mul_add, ← mul_add]
    generalize hrange : ey.lo + ey.hi = e
    by_cases he : e = 256
    · subst he
      omega
    · have h1 : 0 ≤ ex.lo * e := mul_nonneg (by omega) (by omega)
      have h2 : 0 ≤ ex.hi * e := mul_nonneg hxhi.1 (by omega)
      have h3 : ex.lo * e ≤ 128 * 255 := mul_le_mul hxlo.2 (by omega) (by omega) (by norm_num)
      have h4 : ex.hi * e ≤ 128 * 255 := mul_le_mul hxhi.2 (by omega) (by omega) (by norm_num)
      omega
  · have hbits : weightBits bpp = 8 := by
      cases bpp <;> first | rfl | exact absurd rfl hb
    have hcorner : cornerArea bpp ex ey = cornerWeight ex ey := by
      unfold cornerWeight Edges.ends
      cases bpp <;> first | exact absurd rfl hb | (simp only [cornerArea]; ring)
    rw [hbits] at hxlo hxhi hylo hyhi
    norm_num at hxlo hxhi hylo hyhi
    refine ⟨?_, by rw [hcorner]⟩
    rw [hcorner]
    unfold cornerWeight Edges.ends
    constructor <;> nlinarith

theorem weightBits_eq (bpp : Bpp) : weightBits bpp = 7 ∨ weightBits bpp = 8 := by
  cases bpp <;> simp [weightBits]

section

variable {bpp : Bpp} {ax ay : Axis} {xa ya lo hi : ℤ} {f : ℤ → ℤ → ℤ}

theorem slowMean_eq (hok : Edges.Ok (weightBits bpp) (edges (weightBits bpp) ax xa) (edges (weightBits bpp) ay ya)) :
    slowMean bpp ax ay xa ya f = areaMean
      (slowSum (weightBits bpp) (edges (weightBits bpp) ax xa) (edges (weightBits bpp) ay ya) f)
      (wholeArea (weightBits bpp) (edges (weightBits bpp) ax xa) (edges (weightBits bpp) ay ya)) := by
  obtain ⟨hcorners, hround⟩ := cornerArea_eq hok
  unfold slowMean
  simp only
  rw [slowArea_eq (weightBits_eq bpp) hok hcorners hround]

theorem between_of_taps (bits : ℕ)
    (h : ∀ x ∈ Algorithm.areaSlow.taps ax xa, ∀ y ∈ Algorithm.areaSlow.taps ay ya, lo ≤ f x y ∧ f x y ≤ hi) :
    Between lo hi (edges bits ax xa) (edges bits ay ya) f := by
  simpa [Between, Algorithm.taps] using h

end

end OpenMV.Draw
