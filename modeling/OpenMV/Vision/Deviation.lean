import Mathlib.Algebra.Order.Chebyshev
import Mathlib.Tactic.Linarith
import Mathlib.Tactic.Ring
import OpenMV.Vision.Image

/-! One-pass deviation | scheme:fold | source:src/src/openmv/omv/img/imlib.c, src/src/openmv/omv/hal/k210/arm_math.h

    `imlib_image_std` adds up the pixels and their squares two at a time, the squares with a dual multiply and
    accumulate. The last round of an odd number of pixels takes in the byte behind the image, and the last pixel is
    added once more behind the loop. -/

namespace OpenMV.Vision

/-! ### The intrinsics -/

/-- `((q31_t)x << 16) >> 16` -/
def lowHalf (x : ℤ) : ℤ := int32 (int32 x * 65536) / 65536

/-- `((q31_t)x) >> 16` -/
def highHalf (x : ℤ) : ℤ := int32 x / 65536

/-- `__SMLAD`, a `uint32_t`. -/
def smlad (x y sum : ℤ) : ℤ := (lowHalf x * lowHalf y + highHalf x * highHalf y + int32 sum) % 4294967296

/-- `__PKHBT` of values that are not negative. -/
def pkhbt (arg1 arg2 arg3 : ℕ) : ℕ := ((arg1 <<< 0) &&& 0x0000FFFF) ||| ((arg2 <<< arg3) &&& 0xFFFF0000)

/-- The lower half is a signed value of 16 bits. -/
theorem lowHalf_eq (x : ℤ) : lowHalf x = int16 x := by
  unfold lowHalf int32 int16
  omega

theorem highHalf_of_mem {x : ℤ} (h1 : -2147483648 ≤ x) (h2 : x ≤ 2147483647) : highHalf x = x / 65536 := by
  rw [highHalf, int32_of_mem h1 h2]

theorem pkhbt_bytes {a b : ℕ} (ha : a < 256) (hb : b < 256) : pkhbt a b 16 = b * 65536 + a := by
  have hlow : (a <<< 0) &&& 0x0000FFFF = a := by
    rw [Nat.shiftLeft_zero]
    exact Nat.and_two_pow_sub_one_of_lt_two_pow (n := 16) (by omega)
  have hhigh : (b <<< 16) &&& 0xFFFF0000 = b <<< 16 := by
    have hmask : (0xFFFF0000 : ℕ) = 0xFFFF <<< 16 := by decide
    rw [hmask, ← Nat.shiftLeft_and_distrib]
    congr 1
    exact Nat.and_two_pow_sub_one_of_lt_two_pow (n := 16) (by omega)
  rw [pkhbt, hlow, hhigh, Nat.or_comm, ← Nat.shiftLeft_add_eq_or_of_lt (by omega), Nat.shiftLeft_eq]

/-- Both halves are bytes, so each is squared. -/
theorem smlad_pkhbt {a b : ℕ} (ha : a < 256) (hb : b < 256) (sum : ℤ) :
    smlad (pkhbt a b 16) (pkhbt a b 16) sum = ((a : ℤ) ^ 2 + (b : ℤ) ^ 2 + sum) % 4294967296 := by
  have hlow : lowHalf (pkhbt a b 16 : ℕ) = a := by
    rw [lowHalf_eq, pkhbt_bytes ha hb]
    unfold int16
    omega
  have hhigh : highHalf (pkhbt a b 16 : ℕ) = b := by
    rw [highHalf_of_mem (by omega) (by rw [pkhbt_bytes ha hb]; omega), pkhbt_bytes ha hb]
    omega
  rw [smlad, hlow, hhigh, ← pow_two, ← pow_two]
  unfold int32
  omega

/-! ### The code -/

/-- `s` and `sq`, and the indexes of the pixels that were read. -/
structure StdSums where
  s : ℤ
  sq : ℤ
  reads : List ℕ
deriving DecidableEq, Repr

section Code

variable (data : ℕ → UInt8)

/-- A round of the loop. -/
def stdPair (t : StdSums) (i : ℕ) : StdSums :=
  let tmp := pkhbt (data (i + 0)).toNat (data (i + 1)).toNat 16
  { s := (t.s + ((data (i + 0)).toNat + (data (i + 1)).toNat)) % 4294967296
    sq := smlad tmp tmp t.sq
    reads := t.reads ++ [i + 0, i + 1] }

/-- `for (int i=0; i<n; i+=2)` -/
def stdPairs (n : ℕ) : StdSums := ((List.range ((n + 1) / 2)).map (2 * ·)).foldl (stdPair data) ⟨0, 0, []⟩

def stdSums (n : ℕ) : StdSums :=
  let t := stdPairs data n
  if n % 2 ≠ 0 then
    { s := (t.s + (data (n - 1)).toNat) % 4294967296
      sq := (t.sq + (data (n - 1)).toNat * (data (n - 1)).toNat) % 4294967296
      reads := t.reads ++ [n - 1] }
  else t

/-- `v` -/
def stdVariance (n : ℕ) : ℤ :=
  let m := (stdSums data n).s / n
  ((stdSums data n).sq / n - m * m) % 4294967296

/-- `root v` is `fast_sqrtf(v)` as an `int`. -/
def imlibImageStd (root : ℤ → ℤ) (w h : ℕ) : ℤ := root (stdVariance data (w * h))

end Code

/-! ### The sums -/

/-- The sum of the first `n` values of `f` of a pixel. -/
def pixelSum (data : ℕ → UInt8) (f : ℤ → ℤ) (n : ℕ) : ℤ := ∑ i ∈ Finset.range n, f (data i).toNat

theorem pixelSum_add_two (data : ℕ → UInt8) (f : ℤ → ℤ) (n : ℕ) :
    pixelSum data f (n + 2) = pixelSum data f n + (f (data n).toNat + f (data (n + 1)).toNat) := by
  rw [pixelSum, Finset.sum_range_succ, Finset.sum_range_succ, add_assoc]
  rfl

variable (data : ℕ → UInt8)

/-- After `k` rounds the first `2 * k` bytes have been added up. -/
theorem foldl_stdPair : ∀ k : ℕ, ((List.range k).map (2 * ·)).foldl (stdPair data) ⟨0, 0, []⟩ =
    ⟨pixelSum data id (2 * k) % 4294967296, pixelSum data (· ^ 2) (2 * k) % 4294967296, List.range (2 * k)⟩
  | 0 => rfl
  | k + 1 => by
      have h1 := UInt8.toNat_lt (data (2 * k))
      have h2 := UInt8.toNat_lt (data (2 * k + 1))
      rw [List.range_succ, List.map_append, List.foldl_append, foldl_stdPair k]
      simp only [List.map_cons, List.map_nil, List.foldl_cons, List.foldl_nil, stdPair, Nat.add_zero]
      rw [smlad_pkhbt h1 h2, Nat.mul_add, Nat.mul_one, pixelSum_add_two, pixelSum_add_two]
      congr 1
      · simp only [id]
        omega
      · omega
      · rw [List.range_succ, List.range_succ, List.append_assoc]
        rfl

/-- An even number of pixels is added up exactly. -/
theorem stdSums_of_even {n : ℕ} (hn : n % 2 = 0) : stdSums data n =
    ⟨pixelSum data id n % 4294967296, pixelSum data (· ^ 2) n % 4294967296, List.range n⟩ := by
  have h2 : 2 * ((n + 1) / 2) = n := by omega
  rw [stdSums, if_neg (by omega), stdPairs, foldl_stdPair, h2]

theorem mem_reads_of_odd {n : ℕ} (hn : n % 2 = 1) : n ∈ (stdSums data n).reads := by
  have h2 : 2 * ((n + 1) / 2) = n + 1 := by omega
  rw [stdSums, if_pos (by omega), stdPairs, foldl_stdPair, h2]
  simp

theorem pixelSum_bounds (f : ℤ → ℤ) (top : ℤ) (hf : ∀ p, 0 ≤ p → p ≤ 255 → 0 ≤ f p ∧ f p ≤ top) (n : ℕ) :
    0 ≤ pixelSum data f n ∧ pixelSum data f n ≤ n * top := by
  have hpixel : ∀ i, 0 ≤ f (data i).toNat ∧ f (data i).toNat ≤ top := fun i =>
    hf _ (by omega) (by have := UInt8.toNat_lt (data i); omega)
  refine ⟨Finset.sum_nonneg fun i _ => (hpixel i).1, ?_⟩
  calc pixelSum data f n ≤ ∑ _i ∈ Finset.range n, top := Finset.sum_le_sum fun i _ => (hpixel i).2
    _ = n * top := by rw [Finset.sum_const, Finset.card_range, nsmul_eq_mul]

/-- The square of the mean is not above the mean of the squares, also when both are rounded down. -/
theorem sq_mean_le {n : ℕ} (hn : 0 < n) :
    (pixelSum data id n / n) * (pixelSum data id n / n) ≤ pixelSum data (· ^ 2) n / n := by
  have hn' : (0 : ℤ) < n := by exact_mod_cast hn
  have h0 := (pixelSum_bounds data id 255 (fun p h1 h2 => ⟨h1, h2⟩) n).1
  have hm0 : 0 ≤ pixelSum data id n / n := Int.ediv_nonneg h0 hn'.le
  have hmn : pixelSum data id n / n * n ≤ pixelSum data id n := Int.ediv_mul_le _ hn'.ne'
  have hcauchy : pixelSum data id n ^ 2 ≤ n * pixelSum data (· ^ 2) n := by
    have h := sq_sum_le_card_mul_sum_sq (s := Finset.range n) (f := fun i => ((data i).toNat : ℤ))
    rwa [Finset.card_range] at h
  rw [Int.le_ediv_iff_mul_le hn']
  have hsq : (pixelSum data id n / n * n) ^ 2 ≤ n * pixelSum data (· ^ 2) n :=
    (pow_le_pow_left₀ (mul_nonneg hm0 hn'.le) hmn 2).trans hcauchy
  refine le_of_mul_le_mul_left ?_ hn'
  calc (n : ℤ) * (pixelSum data id n / n * (pixelSum data id n / n) * n) = (pixelSum data id n / n * n) ^ 2 := by ring
    _ ≤ n * pixelSum data (· ^ 2) n := hsq

theorem stdVariance_of_even {n : ℕ} (hpos : 0 < n) (hmax : n ≤ 65536) (hn : n % 2 = 0) : stdVariance data n =
    pixelSum data (· ^ 2) n / n - (pixelSum data id n / n) ^ 2 := by
  have hn' : (0 : ℤ) < n := by exact_mod_cast hpos
  have hmax' : (n : ℤ) ≤ 65536 := by exact_mod_cast hmax
  obtain ⟨hs0, hs⟩ := pixelSum_bounds data id 255 (fun p h1 h2 => ⟨h1, h2⟩) n
  obtain ⟨hq0, hq⟩ := pixelSum_bounds data (· ^ 2) 65025
    (fun p h1 h2 => ⟨sq_nonneg p, by nlinarith⟩) n
  have hle := sq_mean_le data hpos
  have hquot : pixelSum data (· ^ 2) n / n ≤ 65025 := by
    rw [← Int.lt_add_one_iff, Int.ediv_lt_iff_lt_mul hn']
    linarith
  have hsq := mul_self_nonneg (pixelSum data id n / n)
  rw [stdVariance, stdSums_of_even data hn]
  dsimp only
  rw [Int.emod_eq_of_lt hs0 (by linarith), Int.emod_eq_of_lt hq0 (by linarith), pow_two,
    Int.emod_eq_of_lt (by linarith) (by linarith)]

/-- Only the pixels are read, and the root is taken of the mean of the squares less the square of the mean. -/
def OnePass (data : ℕ → UInt8) (w h : ℕ) : Prop :=
  (∀ i ∈ (stdSums data (w * h)).reads, i < w * h) ∧
    ∀ root, imlibImageStd data root w h =
      root (pixelSum data (· ^ 2) (w * h) / (w * h : ℕ) - (pixelSum data id (w * h) / (w * h : ℕ)) ^ 2)

/-- The pixels are read in pairs, which is right just for an even number of them. -/
theorem image_std_iff (data : ℕ → UInt8) (w h : ℕ) (hpos : 1 ≤ w * h) (hmax : w * h ≤ 2 ^ 16) :
    OnePass data w h ↔ w * h % 2 = 0 := by
  constructor
  · rintro ⟨hreads, -⟩
    by_contra hodd
    exact lt_irrefl _ (hreads _ (mem_reads_of_odd data (by omega)))
  · intro heven
    refine ⟨?_, fun root => ?_⟩
    · rw [stdSums_of_even data heven]
      exact fun i hi => List.mem_range.mp hi
    · rw [imlibImageStd, stdVariance_of_even data hpos hmax heven]

theorem image_std_of_two : OnePass (fun i => if i = 0 then 10 else 13) 2 1 :=
  (image_std_iff _ 2 1 (by decide) (by decide)).mpr rfl

/-- One pixel: the byte behind it is read, and the pixel is added twice. -/
theorem image_std_of_one : ¬ OnePass (fun _ => 10) 1 1 ∧ stdVariance (fun _ => 10) 1 = 4294966696 ∧
    (stdSums (fun _ => 10) 1).reads = [0, 1, 0] := by
  refine ⟨fun h => ?_, by decide, by decide⟩
  exact absurd (h.1 1 (by decide)) (by decide)

end OpenMV.Vision
