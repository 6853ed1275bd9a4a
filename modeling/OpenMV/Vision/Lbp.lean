import OpenMV.Schemes.CheckedRun
import OpenMV.Schemes.Fetch
import OpenMV.Schemes.Histogram
import OpenMV.Vision.FindBlobs

/-! Local binary patterns | scheme:histogram | source:src/src/openmv/omv/img/lbp.c

    The patterns of a region of interest are counted in a grid of 7 x 7 histograms. The size of a cell of the grid is
    a truncated quotient, but the patterns of the whole region are visited, so what is left over on the right goes
    to the histogram of the cell below on the left, and what is left over at the bottom behind the array. -/

namespace OpenMV.Vision
open Schemes

/-! ### The code -/

def lbpHistSize : ℕ := 59
def lbpNumRegions : ℕ := 7
def lbpDescSize : ℕ := lbpNumRegions * lbpNumRegions * lbpHistSize

def uniformTbl : List ℕ := [
    0,   1,  2,  3,  4, 58,  5,  6,  7, 58, 58, 58,  8, 58,  9, 10,
    11, 58, 58, 58, 58, 58, 58, 58, 12, 58, 58, 58, 13, 58, 14, 15,
    16, 58, 58, 58, 58, 58, 58, 58, 58, 58, 58, 58, 58, 58, 58, 58,
    17, 58, 58, 58, 58, 58, 58, 58, 18, 58, 58, 58, 19, 58, 20, 21,
    22, 58, 58, 58, 58, 58, 58, 58, 58, 58, 58, 58, 58, 58, 58, 58,
    58, 58, 58, 58, 58, 58, 58, 58, 58, 58, 58, 58, 58, 58, 58, 58,
    23, 58, 58, 58, 58, 58, 58, 58, 58, 58, 58, 58, 58, 58, 58, 58,
    24, 58, 58, 58, 58, 58, 58, 58, 25, 58, 58, 58, 26, 58, 27, 28,
    29, 30, 58, 31, 58, 58, 58, 32, 58, 58, 58, 58, 58, 58, 58, 33,
    58, 58, 58, 58, 58, 58, 58, 58, 58, 58, 58, 58, 58, 58, 58, 34,
    58, 58, 58, 58, 58, 58, 58, 58, 58, 58, 58, 58, 58, 58, 58, 58,
    58, 58, 58, 58, 58, 58, 58, 58, 58, 58, 58, 58, 58, 58, 58, 35,
    36, 37, 58, 38, 58, 58, 58, 39, 58, 58, 58, 58, 58, 58, 58, 40,
    58, 58, 58, 58, 58, 58, 58, 58, 58, 58, 58, 58, 58, 58, 58, 41,
    42, 43, 58, 44, 58, 58, 58, 45, 58, 58, 58, 58, 58, 58, 58, 46,
    47, 48, 58, 49, 58, 58, 58, 50, 51, 52, 58, 53, 54, 55, 56, 57]

/-- `(data[a] >= p) << k`, with `p` at `c`. -/
def lbpBit (a c : ℤ) (k : ℕ) : Fetch ℕ :=
  ((Fetch.read a).zip (Fetch.read c)).map fun v => (if v.1 ≥ v.2 then 1 else 0) <<< k

/-- `lbp |= bit` -/
def lbpOr (lbp bit : Fetch ℕ) : Fetch ℕ := (lbp.zip bit).map fun v => v.1 ||| v.2

/-- The pattern at column `x` and row `y` of an image of width `s`. -/
def lbp (s x y : ℤ) : Fetch ℕ :=
  let p := (y + 1) * s + (x + 1)
  let bits := [
    lbpBit ((y + 0) * s + (x + 0)) p 0,
    lbpBit ((y + 0) * s + (x + 1)) p 1,
    lbpBit ((y + 0) * s + (x + 2)) p 2,
    lbpBit ((y + 1) * s + (x + 2)) p 3,
    lbpBit ((y + 2) * s + (x + 2)) p 4,
    lbpBit ((y + 2) * s + (x + 1)) p 5,
    lbpBit ((y + 2) * s + (x + 0)) p 6,
    lbpBit ((y + 1) * s + (x + 0)) p 7]
  bits.foldl lbpOr (Fetch.pure 0)

/-- The columns and rows that the two loops go through. -/
def lbpPositions (roi : Rectangle) : List (ℤ × ℤ) :=
  (List.range (roi.h - 3).toNat).flatMap fun (j : ℕ) =>
    (List.range (roi.w - 3).toNat).map fun (i : ℕ) => (roi.x + i, roi.y + j)

/-- The entry for the position `p`. There is no quotient by zero. -/
def lbpIndex (data : ℤ → ℕ) (s : ℤ) (roi : Rectangle) (p : ℤ × ℤ) : Option ℤ :=
  let RX := roi.w.tdiv lbpNumRegions
  let RY := roi.h.tdiv lbpNumRegions
  if RX = 0 ∨ RY = 0 then none
  else
    let yIdx := (p.2 - roi.y).tdiv RY * lbpNumRegions
    let histIdx := yIdx + (p.1 - roi.x).tdiv RX
    some (histIdx * lbpHistSize + uniformTbl.getD ((lbp s p.1 p.2).val data) 0)

/-- A round of the inner loop. There is nothing behind the array. -/
def lbpRound (data : ℤ → ℕ) (s : ℤ) (roi : Rectangle) (desc : ℕ → ℕ) (p : ℤ × ℤ) : Option (ℕ → ℕ) :=
  (lbpIndex data s roi p).bind fun i =>
    if 0 ≤ i ∧ i < lbpDescSize then some (incr 256 desc i.toNat) else none

def imlibLbpDesc (data : ℤ → ℕ) (s : ℤ) (roi : Rectangle) : Option (ℕ → ℕ) :=
  (lbpPositions roi).foldlM (lbpRound data s roi) fun _ => 0

/-! ### The pattern -/

section Pattern
variable {data : ℤ → ℕ} {s x y : ℤ}

/-- What holds of the reads of all bits holds of the reads of the pattern. -/
theorem forall_foldl_lbpOr {P : ℤ → Prop} : ∀ {bits : List (Fetch ℕ)} {acc : Fetch ℕ}, (∀ a ∈ acc.reads, P a) →
    (∀ b ∈ bits, ∀ a ∈ b.reads, P a) → ∀ a ∈ (bits.foldl lbpOr acc).reads, P a
  | [], _, hacc, _ => hacc
  | b :: bits, acc, hacc, hbits => by
      obtain ⟨hb, hrest⟩ := List.forall_mem_cons.mp hbits
      have hor : ∀ a ∈ (lbpOr acc b).reads, P a := Fetch.forall_zip hacc hb
      rw [List.foldl_cons]
      exact forall_foldl_lbpOr hor hrest

/-- The pattern is read from a square of 3 x 3 pixels. -/
theorem lbp_reads : ∀ a ∈ (lbp s x y).reads, ∃ i j : ℤ, (0 ≤ i ∧ i ≤ 2) ∧ (0 ≤ j ∧ j ≤ 2) ∧
    a = (y + j) * s + (x + i) := by
  refine forall_foldl_lbpOr (by simp) ?_
  have hbit : ∀ i j : ℤ, 0 ≤ i ∧ i ≤ 2 → 0 ≤ j ∧ j ≤ 2 → ∀ k, ∀ a ∈
      (lbpBit ((y + j) * s + (x + i)) ((y + 1) * s + (x + 1)) k).reads, ∃ i j : ℤ, (0 ≤ i ∧ i ≤ 2) ∧ (0 ≤ j ∧ j ≤ 2) ∧
        a = (y + j) * s + (x + i) := by
    intro i j hi hj k a ha
    simp only [lbpBit, Fetch.reads_map, Fetch.reads_zip, Fetch.reads_read, List.mem_append, List.mem_singleton] at ha
    rcases ha with rfl | rfl
    · exact ⟨i, j, hi, hj, rfl⟩
    · exact ⟨1, 1, by decide, by decide, rfl⟩
  simp only [List.forall_mem_cons]
  exact ⟨hbit 0 0 (by decide) (by decide) 0, hbit 1 0 (by decide) (by decide) 1, hbit 2 0 (by decide) (by decide) 2,
    hbit 2 1 (by decide) (by decide) 3, hbit 2 2 (by decide) (by decide) 4, hbit 1 2 (by decide) (by decide) 5,
    hbit 0 2 (by decide) (by decide) 6, hbit 0 1 (by decide) (by decide) 7, by simp⟩

theorem lbpBit_lt (a c : ℤ) {k : ℕ} (hk : k < 8) : (lbpBit a c k).val data < 2 ^ 8 := by
  have hpow : 2 ^ k < 2 ^ 8 := Nat.pow_lt_pow_right (by decide) hk
  simp only [lbpBit, Fetch.val_map, Nat.shiftLeft_eq]
  split_ifs
  · rwa [one_mul]
  · rw [zero_mul]
    exact Nat.two_pow_pos 8

theorem foldl_lbpOr_lt : ∀ {bits : List (Fetch ℕ)} {acc : Fetch ℕ}, acc.val data < 2 ^ 8 →
    (∀ b ∈ bits, b.val data < 2 ^ 8) → (bits.foldl lbpOr acc).val data < 2 ^ 8
  | [], _, hacc, _ => hacc
  | b :: bits, acc, hacc, hbits => by
      obtain ⟨hb, hrest⟩ := List.forall_mem_cons.mp hbits
      have hor : (lbpOr acc b).val data < 2 ^ 8 := Nat.or_lt_two_pow hacc hb
      rw [List.foldl_cons]
      exact foldl_lbpOr_lt hor hrest

/-- It is an index of the table. -/
theorem lbp_lt : (lbp s x y).val data < 256 := by
  refine foldl_lbpOr_lt (Nat.two_pow_pos 8) ?_
  simp only [List.forall_mem_cons]
  exact ⟨lbpBit_lt _ _ (by decide), lbpBit_lt _ _ (by decide), lbpBit_lt _ _ (by decide), lbpBit_lt _ _ (by decide),
    lbpBit_lt _ _ (by decide), lbpBit_lt _ _ (by decide), lbpBit_lt _ _ (by decide), lbpBit_lt _ _ (by decide), by simp⟩

theorem uniformTbl_lt : ∀ i < 256, uniformTbl.getD i 0 < lbpHistSize := by
  have hcodes : ∀ c ∈ uniformTbl, c < lbpHistSize := by decide +kernel
  have hlen : uniformTbl.length = 256 := by decide +kernel
  intro i hi
  rw [List.getD_eq_getElem?_getD, List.getElem?_eq_getElem (by rwa [hlen])]
  exact hcodes _ (List.getElem_mem _)

end Pattern

/-! ### The grid -/

section Grid
variable (data : ℤ → ℕ) (s : ℤ) (roi : Rectangle)

/-- The code of the pattern at `p`. -/
def lbpCode (p : ℤ × ℤ) : ℕ := uniformTbl.getD ((lbp s p.1 p.2).val data) 0

/-- The position is in column `cx` and row `cy` of the grid. -/
def InCell (cx cy : ℕ) (p : ℤ × ℤ) : Prop :=
  (cx * (roi.w / 7) ≤ p.1 - roi.x ∧ p.1 - roi.x < cx * (roi.w / 7) + roi.w / 7) ∧
    cy * (roi.h / 7) ≤ p.2 - roi.y ∧ p.2 - roi.y < cy * (roi.h / 7) + roi.h / 7

instance (cx cy : ℕ) (p : ℤ × ℤ) : Decidable (InCell roi cx cy p) :=
  inferInstanceAs (Decidable ((_ ∧ _) ∧ _ ∧ _))

/-- How many patterns with the code `k.2.2` are in the cell of column `k.1` and row `k.2.1`. -/
def lbpCount (k : ℕ × ℕ × ℕ) : ℕ :=
  (lbpPositions roi).countP fun p => InCell roi k.1 k.2.1 p ∧ lbpCode data s p = k.2.2

/-- The cells of the grid with the codes. -/
def gridCodes : Finset (ℕ × ℕ × ℕ) :=
  Finset.range lbpNumRegions ×ˢ Finset.range lbpNumRegions ×ˢ Finset.range lbpHistSize

/-- The pixels that are read are in the region, there is no quotient by zero and no store outside of the array, the
    counters count the patterns of their cells, and every pattern is in a cell. -/
def LbpDescOk : Prop :=
  (∀ p ∈ lbpPositions roi, ∀ a ∈ (lbp s p.1 p.2).reads, ∃ q, roi.Mem q ∧ a = q.2 * s + q.1) ∧
  ∃ desc, imlibLbpDesc data s roi = some desc ∧
    (∀ k ∈ gridCodes, desc ((k.2.1 * lbpNumRegions + k.1) * lbpHistSize + k.2.2) = lbpCount data s roi k % 256) ∧
    ∑ k ∈ gridCodes, lbpCount data s roi k = (lbpPositions roi).length

variable {data s roi}

theorem mem_lbpPositions {p : ℤ × ℤ} : p ∈ lbpPositions roi ↔
    (roi.x ≤ p.1 ∧ p.1 < roi.x + roi.w - 3) ∧ roi.y ≤ p.2 ∧ p.2 < roi.y + roi.h - 3 := by
  obtain ⟨x, y⟩ := p
  simp only [lbpPositions, List.mem_flatMap, List.mem_map, List.mem_range, Prod.mk.injEq]
  constructor
  · rintro ⟨j, hj, i, hi, rfl, rfl⟩
    exact ⟨⟨by omega, by omega⟩, by omega, by omega⟩
  · rintro ⟨⟨hx, hx'⟩, hy, hy'⟩
    exact ⟨(y - roi.y).toNat, by omega, (x - roi.x).toNat, by omega, by omega, by omega⟩

theorem reads_in_roi : ∀ p ∈ lbpPositions roi, ∀ a ∈ (lbp s p.1 p.2).reads, ∃ q, roi.Mem q ∧ a = q.2 * s + q.1 := by
  intro p hp a ha
  obtain ⟨⟨hx, hx'⟩, hy, hy'⟩ := mem_lbpPositions.mp hp
  obtain ⟨i, j, hi, hj, rfl⟩ := lbp_reads a ha
  exact ⟨(p.1 + i, p.2 + j), ⟨by omega, by omega, by omega, by omega⟩, rfl⟩

/-- The cell of a position, with the code of its pattern. -/
def lbpKey (data : ℤ → ℕ) (s : ℤ) (roi : Rectangle) (p : ℤ × ℤ) : ℕ × ℕ × ℕ :=
  (((p.1 - roi.x) / (roi.w / 7)).toNat, ((p.2 - roi.y) / (roi.h / 7)).toNat, lbpCode data s p)

variable (hw : 7 ≤ roi.w) (hh : 7 ≤ roi.h)
include hw hh

theorem inCell_iff {p : ℤ × ℤ} (hp : p ∈ lbpPositions roi) (k : ℕ × ℕ × ℕ) :
    (InCell roi k.1 k.2.1 p ∧ lbpCode data s p = k.2.2) ↔ lbpKey data s roi p = k := by
  obtain ⟨⟨hx, -⟩, hy, -⟩ := mem_lbpPositions.mp hp
  obtain ⟨cx, cy, c⟩ := k
  have hcx : ((p.1 - roi.x) / (roi.w / 7)).toNat = cx ↔ (p.1 - roi.x) / (roi.w / 7) = cx := by
    have hnn : 0 ≤ (p.1 - roi.x) / (roi.w / 7) := Int.ediv_nonneg (by omega) (by omega)
    omega
  have hcy : ((p.2 - roi.y) / (roi.h / 7)).toNat = cy ↔ (p.2 - roi.y) / (roi.h / 7) = cy := by
    have hnn : 0 ≤ (p.2 - roi.y) / (roi.h / 7) := Int.ediv_nonneg (by omega) (by omega)
    omega
  rw [lbpKey, Prod.mk.injEq, Prod.mk.injEq, hcx, hcy, Int.ediv_eq_iff_of_pos (by omega),
    Int.ediv_eq_iff_of_pos (by omega), ← and_assoc]
  rfl

theorem lbpCount_eq (k : ℕ × ℕ × ℕ) :
    lbpCount data s roi k = (lbpPositions roi).countP fun p => lbpKey data s roi p = k :=
  List.countP_congr fun p hp => by simpa using inCell_iff hw hh hp k

/-- All positions are in the grid exactly for these sizes. -/
theorem forall_mem_gridCodes_iff :
    (∀ p ∈ lbpPositions roi, lbpKey data s roi p ∈ gridCodes) ↔ roi.w % 7 ≤ 3 ∧ roi.h % 7 ≤ 3 := by
  have hmem : ∀ p ∈ lbpPositions roi, lbpKey data s roi p ∈ gridCodes ↔
      p.1 - roi.x < 7 * (roi.w / 7) ∧ p.2 - roi.y < 7 * (roi.h / 7) := by
    intro p hp
    have hcode : lbpCode data s p < lbpHistSize := uniformTbl_lt _ lbp_lt
    simp only [gridCodes, lbpKey, Finset.mem_product, Finset.mem_range, hcode, and_true, lbpNumRegions]
    rw [Int.toNat_lt_of_ne_zero (by decide), Int.toNat_lt_of_ne_zero (by decide),
      Int.ediv_lt_iff_lt_mul (by omega), Int.ediv_lt_iff_lt_mul (by omega)]
    rfl
  constructor
  · intro h
    have hlast : (roi.x + roi.w - 4, roi.y + roi.h - 4) ∈ lbpPositions roi :=
      mem_lbpPositions.mpr ⟨⟨by omega, by omega⟩, by omega, by omega⟩
    obtain ⟨h1, h2⟩ := (hmem _ hlast).mp (h _ hlast)
    omega
  · intro h p hp
    obtain ⟨⟨hx, hx'⟩, hy, hy'⟩ := mem_lbpPositions.mp hp
    exact (hmem p hp).mpr ⟨by omega, by omega⟩

/-- The counts add up to the number of patterns that are in the grid. -/
theorem sum_lbpCount : ∑ k ∈ gridCodes, lbpCount data s roi k =
    (lbpPositions roi).countP fun p => lbpKey data s roi p ∈ gridCodes := by
  simp only [lbpCount_eq hw hh]
  exact sum_countP_key gridCodes (lbpKey data s roi) (lbpPositions roi)

/-- In the grid the entry is the one of the cell and the code. -/
theorem lbpIndex_eq {p : ℤ × ℤ} (hp : p ∈ lbpPositions roi) : lbpIndex data s roi p = some
    ((((lbpKey data s roi p).2.1 * lbpNumRegions + (lbpKey data s roi p).1) * lbpHistSize +
      (lbpKey data s roi p).2.2 : ℕ) : ℤ) := by
  obtain ⟨⟨hx, -⟩, hy, -⟩ := mem_lbpPositions.mp hp
  have hRX : roi.w.tdiv lbpNumRegions = roi.w / 7 := Int.tdiv_eq_ediv_of_nonneg (by omega)
  have hRY : roi.h.tdiv lbpNumRegions = roi.h / 7 := Int.tdiv_eq_ediv_of_nonneg (by omega)
  have hcx : 0 ≤ (p.1 - roi.x) / (roi.w / 7) := Int.ediv_nonneg (by omega) (by omega)
  have hcy : 0 ≤ (p.2 - roi.y) / (roi.h / 7) := Int.ediv_nonneg (by omega) (by omega)
  rw [lbpIndex, hRX, hRY, if_neg (by omega), Int.tdiv_eq_ediv_of_nonneg (by omega),
    Int.tdiv_eq_ediv_of_nonneg (by omega)]
  simp only [lbpKey, lbpCode]
  push_cast
  rw [Int.toNat_of_nonneg hcx, Int.toNat_of_nonneg hcy]

theorem imlibLbpDesc_eq (hgrid : ∀ p ∈ lbpPositions roi, lbpKey data s roi p ∈ gridCodes) :
    imlibLbpDesc data s roi = some (tally 256 (fun p => ((lbpKey data s roi p).2.1 * lbpNumRegions +
      (lbpKey data s roi p).1) * lbpHistSize + (lbpKey data s roi p).2.2) (lbpPositions roi)) := by
  set bin : ℤ × ℤ → ℕ := fun p => ((lbpKey data s roi p).2.1 * lbpNumRegions + (lbpKey data s roi p).1) * lbpHistSize +
    (lbpKey data s roi p).2.2
  have hrun : ∃ desc, imlibLbpDesc data s roi = some desc ∧ desc = tally 256 bin (lbpPositions roi) := by
    refine exists_foldlM (fun (done : List (ℤ × ℤ)) desc => desc = tally 256 bin done) ?_ ?_
    · funext i
      simp [tally]
    · rintro p hp done _ rfl
      have hin : bin p < lbpDescSize := by
        have hk := hgrid p hp
        simp only [gridCodes, Finset.mem_product, Finset.mem_range] at hk
        obtain ⟨hcx, hcy, hc⟩ := hk
        simp only [bin, lbpDescSize, lbpNumRegions, lbpHistSize] at hcx hcy hc ⊢
        omega
      refine ⟨_, ?_, incr_tally_append 256 bin done p⟩
      rw [lbpRound, lbpIndex_eq hw hh hp, Option.bind_some, if_pos ⟨Int.natCast_nonneg _, by exact_mod_cast hin⟩,
        Int.toNat_natCast]
  obtain ⟨desc, hdesc, rfl⟩ := hrun
  exact hdesc

theorem forall_mem_of_lbpDescOk (hok : LbpDescOk data s roi) :
    ∀ p ∈ lbpPositions roi, lbpKey data s roi p ∈ gridCodes := by
  obtain ⟨-, desc, -, -, hsum⟩ := hok
  rw [sum_lbpCount hw hh, List.countP_eq_length] at hsum
  simpa using hsum

end Grid

/-- The patterns are counted where they are exactly in regions whose sizes leave a rest of at most 3. -/
theorem lbp_desc_iff (data : ℤ → ℕ) (s : ℤ) {roi : Rectangle} (hw : 7 ≤ roi.w) (hh : 7 ≤ roi.h) :
    LbpDescOk data s roi ↔ roi.w % 7 ≤ 3 ∧ roi.h % 7 ≤ 3 := by
  rw [← @forall_mem_gridCodes_iff data s roi hw hh]
  constructor
  · exact forall_mem_of_lbpDescOk hw hh
  · intro hgrid
    refine ⟨reads_in_roi, _, imlibLbpDesc_eq hw hh hgrid, fun k hk => ?_, ?_⟩
    · rw [lbpCount_eq hw hh, tally, Multiset.map_coe, Multiset.coe_count, List.count, List.countP_map]
      congr 1
      refine List.countP_congr fun p hp => ?_
      have hkp := hgrid p hp
      simp only [gridCodes, Finset.mem_product, Finset.mem_range, lbpNumRegions, lbpHistSize] at hk hkp
      simp only [Function.comp_apply, beq_iff_eq, decide_eq_true_eq, lbpNumRegions, lbpHistSize]
      constructor
      · intro heq
        exact Prod.ext (by omega) (Prod.ext (by omega) (by omega))
      · rintro rfl
        rfl
    · rw [sum_lbpCount hw hh, List.countP_eq_length]
      simpa using hgrid

/-- In a region of 14 x 17 pixels, -/
theorem lbp_desc_iff_even : LbpDescOk (fun _ => 0) 20 ⟨2, 1, 14, 17⟩ ↔ (14 : ℤ) % 7 ≤ 3 ∧ (17 : ℤ) % 7 ≤ 3 :=
  lbp_desc_iff (fun _ => 0) 20 (by decide) (by decide)

/-- and one of 13 x 13 pixels, where a store goes behind the array. -/
theorem lbp_desc_outside : ¬ LbpDescOk (fun _ => 0) 13 ⟨0, 0, 13, 13⟩ := by
  intro hok
  have hrest := (forall_mem_gridCodes_iff (by decide) (by decide)).mp
    (forall_mem_of_lbpDescOk (by decide) (by decide) hok)
  revert hrest
  decide

end OpenMV.Vision
