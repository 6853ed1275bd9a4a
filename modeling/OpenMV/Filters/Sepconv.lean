import Mathlib.Algebra.BigOperators.Fin
import OpenMV.Memory.FbAllocDetect
import OpenMV.Vision.Deviation

/-! Separable convolution | scheme:ring-buffer | source:src/src/openmv/omv/img/imlib.c,
    src/src/openmv/omv/hal/k210/arm_math.h

    `imlib_sepconv3` applies a kernel of three taps to the columns and then to the rows, in place: the sums of the
    columns for two rows are kept in a ring. Both passes add up with `__SMLAD`, which multiplies two halves of 16
    bits. A pixel has no upper half, but a sum of a column may have one, and so may a tap: its sign. -/

namespace OpenMV.Filters
open Vision FbAlloc

/-! ### Floats -/

/-- The integer nearest to `a / n`; of two the even one. -/
def roundHalfEven (a n : ℕ) : ℕ :=
  if 2 * (a % n) < n ∨ 2 * (a % n) = n ∧ a / n % 2 = 0 then a / n else a / n + 1

/-- The `float` nearest to an integer: it has 24 bits. -/
def float32 (z : ℤ) : ℤ :=
  let ulp := 2 ^ (z.natAbs.log2 - 23)
  z.sign * (roundHalfEven z.natAbs ulp * ulp : ℕ)

/-- `(int) x`, which stops at the ends of the range. -/
def floatToInt (z : ℤ) : ℤ := max (-2147483648) (min z 2147483647)

theorem float32_of_small {z : ℤ} (h : |z| < 2 ^ 24) : float32 z = z := by
  have hlog : z.natAbs.log2 - 23 = 0 := by
    rcases Nat.eq_zero_or_pos z.natAbs with h0 | hpos
    · rw [h0]
      rfl
    · rw [abs_lt] at h
      have hlt : z.natAbs < 2 ^ 24 := by omega
      have := (Nat.log2_lt hpos.ne').2 hlt
      omega
  have hround : roundHalfEven z.natAbs 1 = z.natAbs := by simp [roundHalfEven, Nat.mod_one]
  rw [float32, hlog, pow_zero, hround, Nat.mul_one]
  exact Int.sign_mul_natAbs z

/-! ### The code -/

/-- The pixels by column and row, and `buffer`. -/
structure SepState where
  pix : ℕ → ℕ → UInt8
  buffer : ℕ → ℤ

/-- Three calls of `__SMLAD`; a `const int8_t` is extended to 32 bits. -/
def sepTaps (krn : Fin 3 → Int8) (v0 v1 v2 : ℤ) : ℤ :=
  let acc := int32 (smlad (krn 0).toInt v0 0)
  let acc := int32 (smlad (krn 1).toInt v1 acc)
  int32 (smlad (krn 2).toInt v2 acc)

/-- `acc = (acc * m) + b`; each operation is rounded. -/
def sepScale (m b acc : ℤ) : ℤ := floatToInt (float32 (float32 (float32 acc * m) + float32 b))

section Code

variable (krn : Fin 3 → Int8) (m b : ℤ) (w : ℕ)

def sepColumn (y : ℕ) (t : SepState) (x : ℕ) : SepState :=
  let acc := sepTaps krn (t.pix x (y + 0)).toNat (t.pix x (y + 1)).toNat (t.pix x (y + 2)).toNat
  { t with buffer := Function.update t.buffer (y % 2 * w + x) acc }

def sepFlush (y : ℕ) (t : SepState) (x : ℕ) : SepState :=
  let row := (y - 1) % 2 * w
  let acc := sepTaps krn (t.buffer (row + (x + 0))) (t.buffer (row + (x + 1))) (t.buffer (row + (x + 2)))
  let acc := sepScale m b acc
  let acc := max (min acc 255) 0
  { t with pix := fun c r => if c = x + 1 ∧ r = y then UInt8.ofNat acc.toNat else t.pix c r }

def sepRow (t : SepState) (y : ℕ) : SepState :=
  let t := (List.range w).foldl (sepColumn krn w y) t
  if 0 < y then (List.range (w - 3)).foldl (sepFlush krn m b w y) t else t

def sepRows (h : ℕ) (pix : ℕ → ℕ → UInt8) : SepState :=
  (List.range (h - 3)).foldl (sepRow krn m b w) ⟨pix, fun _ => 0⟩

/-- `imlib_sepconv3`; `malloc` says whether there is memory for the buffer. -/
def imlibSepconv3 (s : State) (malloc : Bool) (h : ℕ) (pix : ℕ → ℕ → UInt8) : Call (ℕ → ℕ → UInt8) :=
  (fbAlloc s (w * 4 * 2 % 4294967296) malloc).andThen fun _ s => (.ok (sepRows krn m b w h pix).pix, fbFree s)

end Code

/-! ### What it is for -/

section Sums

variable (krn : Fin 3 → Int8) (pix : ℕ → ℕ → UInt8)

/-- The sum of a column, from row `y` on. -/
def columnSum (x y : ℕ) : ℤ := ∑ i : Fin 3, (krn i).toInt * (pix x (y + i)).toNat

/-- The two-dimensional convolution around a pixel. -/
def conv (x y : ℕ) : ℤ :=
  ∑ i : Fin 3, ∑ j : Fin 3, (krn i).toInt * (krn j).toInt * (pix (x - 1 + j) (y - 1 + i)).toNat

theorem conv_eq (x y : ℕ) : conv krn pix x y = ∑ j : Fin 3, (krn j).toInt * columnSum krn pix (x - 1 + j) (y - 1) := by
  simp only [conv, columnSum, Fin.sum_univ_three]
  ring

/-- What a call of `__SMLAD` adds. -/
def tapTerm (k u : ℤ) : ℤ := k * int16 u + k / 65536 * (u / 65536)

/-- How far that is from the product. -/
def tapError (k u : ℤ) : ℤ := -65536 * k * ((u + 32768) / 65536) + k / 65536 * (u / 65536)

/-- How far the code's sum is from the convolution. -/
def sepError (x y : ℕ) : ℤ := ∑ j : Fin 3, tapError (krn j).toInt (columnSum krn pix (x - 1 + j) (y - 1))

end Sums

/-- The pixels that are set. -/
def Inner (w h x y : ℕ) : Prop := 1 ≤ x ∧ x + 3 ≤ w ∧ 1 ≤ y ∧ y + 4 ≤ h

instance (w h x y : ℕ) : Decidable (Inner w h x y) := inferInstanceAs (Decidable (_ ∧ _))

/-- As the nearest value of a pixel. -/
def clampByte (v : ℤ) : UInt8 := UInt8.ofNat (max (min v 255) 0).toNat

/-! ### The taps -/

theorem tapTerm_eq (k u : ℤ) : tapTerm k u = k * u + tapError k u := by
  have h : int16 u = u - 65536 * ((u + 32768) / 65536) := by
    unfold int16
    omega
  rw [tapTerm, tapError, h]
  ring

theorem tapTerm_of_pixel (k : ℤ) {u : ℤ} (h0 : 0 ≤ u) (h1 : u < 32768) : tapTerm k u = k * u := by
  rw [tapTerm, int16_of_mem (by omega) (by omega), Int.ediv_eq_zero_of_lt h0 (by omega), mul_zero, add_zero]

theorem int8_bounds (k : Int8) : -128 ≤ k.toInt ∧ k.toInt ≤ 127 := ⟨k.le_toInt, Int.le_of_lt_add_one k.toInt_lt⟩

theorem tapTerm_bound (k : Int8) {u : ℤ} (hu : |u| ≤ 2147483647) : |tapTerm k.toInt u| ≤ 4227072 := by
  obtain ⟨hk1, hk2⟩ := int8_bounds k
  have hlow : |k.toInt * int16 u| ≤ 128 * 32768 := by
    rw [abs_mul]
    refine mul_le_mul (abs_le.2 ⟨by omega, by omega⟩) (abs_le.2 ?_) (abs_nonneg _) (by norm_num)
    unfold int16
    omega
  have hhigh : |k.toInt / 65536 * (u / 65536)| ≤ 1 * 32768 := by
    rw [abs_mul]
    rw [abs_le] at hu
    exact mul_le_mul (abs_le.2 ⟨by omega, by omega⟩) (abs_le.2 ⟨by omega, by omega⟩) (abs_nonneg _) (by norm_num)
  exact (abs_add_le _ _).trans (by linarith)

/-- A call of `__SMLAD`, as long as the sum fits. -/
theorem int32_smlad (k : Int8) {u acc : ℤ} (hu : |u| ≤ 2147483647) (hacc : |acc| ≤ 8454144) :
    int32 (smlad k.toInt u acc) = tapTerm k.toInt u + acc := by
  obtain ⟨hk1, hk2⟩ := int8_bounds k
  have hterm := abs_le.1 (tapTerm_bound k hu)
  rw [abs_le] at hu hacc
  rw [smlad, lowHalf_eq, lowHalf_eq, int16_of_mem (by omega) (by omega), highHalf_of_mem (by omega) (by omega),
    highHalf_of_mem (by omega) (by omega), int32_of_mem (x := acc) (by omega) (by omega), ← tapTerm]
  unfold int32
  omega

theorem sepTaps_eq (krn : Fin 3 → Int8) (u : Fin 3 → ℤ) (hu : ∀ j, |u j| ≤ 2147483647) :
    sepTaps krn (u 0) (u 1) (u 2) = ∑ j : Fin 3, tapTerm (krn j).toInt (u j) := by
  have h0 := tapTerm_bound (krn 0) (hu 0)
  have h1 := tapTerm_bound (krn 1) (hu 1)
  have h2 := abs_add_le (tapTerm (krn 1).toInt (u 1)) (tapTerm (krn 0).toInt (u 0))
  rw [sepTaps, int32_smlad _ (hu 0) (by norm_num), add_zero, int32_smlad _ (hu 1) (by omega),
    int32_smlad _ (hu 2) (by omega),
    Fin.sum_univ_three]
  ring

section Rows

variable (krn : Fin 3 → Int8) (pix : ℕ → ℕ → UInt8)

theorem sepTaps_pixels (x y : ℕ) :
    sepTaps krn (pix x (y + 0)).toNat (pix x (y + 1)).toNat (pix x (y + 2)).toNat = columnSum krn pix x y := by
  have hbyte : ∀ j : Fin 3, (0 : ℤ) ≤ (pix x (y + j)).toNat ∧ ((pix x (y + j)).toNat : ℤ) < 256 := fun j =>
    ⟨by omega, by exact_mod_cast UInt8.toNat_lt _⟩
  have h := sepTaps_eq krn (fun j => ((pix x (y + j)).toNat : ℤ)) fun j => by
    rw [abs_of_nonneg (hbyte j).1]
    have := (hbyte j).2
    omega
  refine h.trans (Finset.sum_congr rfl fun j _ => ?_)
  exact tapTerm_of_pixel _ (hbyte j).1 ((hbyte j).2.trans (by norm_num))

theorem columnSum_bound (x y : ℕ) : |columnSum krn pix x y| ≤ 97920 := by
  have hterm : ∀ j : Fin 3, |(krn j).toInt * ((pix x (y + j)).toNat : ℤ)| ≤ 128 * 255 := by
    intro j
    obtain ⟨hk1, hk2⟩ := int8_bounds (krn j)
    have hlt : ((pix x (y + j)).toNat : ℤ) < 256 := by exact_mod_cast UInt8.toNat_lt _
    rw [abs_mul, Nat.abs_cast]
    exact mul_le_mul (abs_le.2 ⟨by omega, by omega⟩) (by omega) (by omega) (by norm_num)
  calc |columnSum krn pix x y| ≤ ∑ j : Fin 3, |(krn j).toInt * ((pix x (y + j)).toNat : ℤ)| :=
        Finset.abs_sum_le_sum_abs _ _
    _ ≤ ∑ _j : Fin 3, 128 * 255 := Finset.sum_le_sum fun j _ => hterm j
    _ = 97920 := by norm_num

/-- The second pass, on the sums of the columns. -/
theorem sepTaps_columns (x y : ℕ) : sepTaps krn (columnSum krn pix (x + 0) (y - 1))
      (columnSum krn pix (x + 1) (y - 1)) (columnSum krn pix (x + 2) (y - 1)) =
    conv krn pix (x + 1) y + sepError krn pix (x + 1) y := by
  have h := sepTaps_eq krn (fun j => columnSum krn pix (x + j) (y - 1)) fun j =>
    (columnSum_bound krn pix _ _).trans (by norm_num)
  refine h.trans ?_
  rw [conv_eq, sepError, ← Finset.sum_add_distrib]
  exact Finset.sum_congr rfl fun j _ => tapTerm_eq _ _

end Rows

/-! ### The rows -/

section Run

variable (krn : Fin 3 → Int8) (m b : ℤ) (w : ℕ)

/-- The columns of row `y` of the ring. -/
theorem foldl_sepColumn (y : ℕ) (t : SepState) : ∀ n : ℕ, (List.range n).foldl (sepColumn krn w y) t =
    ⟨t.pix, fun i => if y % 2 * w ≤ i ∧ i < y % 2 * w + n then columnSum krn t.pix (i - y % 2 * w) y
      else t.buffer i⟩
  | 0 => by
      have hnone : ∀ i, ¬ (y % 2 * w ≤ i ∧ i < y % 2 * w + 0) := by omega
      simp only [hnone, if_false]
      rfl
  | n + 1 => by
      rw [List.range_succ, List.foldl_append, foldl_sepColumn y t n, List.foldl_cons, List.foldl_nil, sepColumn]
      dsimp only
      rw [sepTaps_pixels]
      congr 1
      funext i
      rw [Function.update_apply]
      split_ifs with h1 h2 h3 h4 h5
      · rw [h1, Nat.add_sub_cancel_left]
      · omega
      · rfl
      · omega
      · omega
      · rfl

/-- The pixels of row `y`, where the sums are those of a picture `p`. -/
theorem foldl_sepFlush {p : ℕ → ℕ → UInt8} {y : ℕ} {t : SepState}
    (hbuf : ∀ x < w, t.buffer ((y - 1) % 2 * w + x) = columnSum krn p x (y - 1)) : ∀ n ≤ w - 3,
    (List.range n).foldl (sepFlush krn m b w y) t =
      ⟨fun c r => if 1 ≤ c ∧ c ≤ n ∧ r = y then clampByte (sepScale m b (conv krn p c y + sepError krn p c y))
        else t.pix c r, t.buffer⟩
  | 0, _ => by
      have hnone : ∀ c r, ¬ (1 ≤ c ∧ c ≤ 0 ∧ r = y) := by omega
      simp only [hnone, if_false]
      rfl
  | n + 1, hn => by
      rw [List.range_succ, List.foldl_append, foldl_sepFlush hbuf n (by omega), List.foldl_cons, List.foldl_nil,
        sepFlush]
      dsimp only
      rw [hbuf _ (by omega), hbuf _ (by omega), hbuf _ (by omega), sepTaps_columns]
      congr 1
      funext c r
      split_ifs with h1 h2 h3 h4 h5
      · rw [h1.1]
        rfl
      · omega
      · rfl
      · omega
      · omega
      · rfl

/-- What the picture is to hold at the end. -/
def sepResult (p : ℕ → ℕ → UInt8) (rows x y : ℕ) : UInt8 :=
  if 1 ≤ x ∧ x + 3 ≤ w ∧ 1 ≤ y ∧ y < rows then clampByte (sepScale m b (conv krn p x y + sepError krn p x y))
  else p x y

/-- After `n` rows the pixels of the rows before are set, and the ring holds the sums of the last one. A row is set
    when no later row of the ring needs it. -/
theorem foldl_sepRow (p : ℕ → ℕ → UInt8) : ∀ n : ℕ,
    ((List.range n).foldl (sepRow krn m b w) ⟨p, fun _ => 0⟩).pix = sepResult krn m b w p n ∧
    ∀ x < w, 0 < n → ((List.range n).foldl (sepRow krn m b w) ⟨p, fun _ => 0⟩).buffer ((n - 1) % 2 * w + x) =
      columnSum krn p x (n - 1)
  | 0 => ⟨by
      funext x y
      rw [sepResult, if_neg (by omega)]
      rfl, fun _ _ h => absurd h (lt_irrefl 0)⟩
  | n + 1 => by
      obtain ⟨hpix, hbuf⟩ := foldl_sepRow p n
      rw [List.range_succ, List.foldl_append, List.foldl_cons, List.foldl_nil]
      generalize (List.range n).foldl (sepRow krn m b w) ⟨p, fun _ => 0⟩ = t at hpix hbuf ⊢
      have hsums : ∀ x, columnSum krn t.pix x n = columnSum krn p x n := by
        intro x
        refine Finset.sum_congr rfl fun i _ => ?_
        rw [hpix, sepResult, if_neg (by omega)]
      have hslot : ∀ x < w, n % 2 * w ≤ n % 2 * w + x ∧ n % 2 * w + x < n % 2 * w + w := by omega
      rw [sepRow, foldl_sepColumn]
      simp only [hsums]
      by_cases h0 : 0 < n
      · have hother : ∀ x < w, ¬ (n % 2 * w ≤ (n - 1) % 2 * w + x ∧ (n - 1) % 2 * w + x < n % 2 * w + w) := by
          intro x hx
          rcases Nat.mod_two_eq_zero_or_one n with h | h
          · rw [h, show (n - 1) % 2 = 1 by omega]
            omega
          · rw [h, show (n - 1) % 2 = 0 by omega]
            omega
        rw [if_pos h0, foldl_sepFlush krn m b w (fun x hx => by
          dsimp only
          rw [if_neg (hother x hx), hbuf x hx h0]) _ le_rfl]
        constructor
        · funext x y
          dsimp only
          rw [hpix, sepResult, sepResult]
          split_ifs with h1 h2 h3 h4 h5
          · rw [h1.2.2]
          · omega
          · rfl
          · omega
          · omega
          · rfl
        · intro x hx _
          dsimp only
          rw [Nat.add_sub_cancel, if_pos (hslot x hx), Nat.add_sub_cancel_left]
      · rw [if_neg h0]
        obtain rfl : n = 0 := by omega
        constructor
        · rw [hpix]
          funext x y
          rw [sepResult, sepResult, if_neg (by omega), if_neg (by omega)]
        · intro x hx _
          dsimp only
          rw [Nat.add_sub_cancel, if_pos (hslot x hx), Nat.add_sub_cancel_left]

theorem sepRows_pix (h : ℕ) (p : ℕ → ℕ → UInt8) (x y : ℕ) : (sepRows krn m b w h p).pix x y =
    if Inner w h x y then clampByte (sepScale m b (conv krn p x y + sepError krn p x y)) else p x y := by
  rw [sepRows, (foldl_sepRow krn m b w p _).1, sepResult]
  refine if_congr ?_ rfl rfl
  unfold Inner
  omega

end Run

/-! ### Against the convolution -/

/-- The buffer is released and no other block, and the picture is convolved. Blocks are released by their numbers,
    so no block in front may have the number the buffer gets. -/
def SepconvRight (krn : Fin 3 → Int8) (m b : ℤ) (w h : ℕ) (pix : ℕ → ℕ → UInt8) : Prop :=
  ∀ (ops : List Op) (malloc : Bool), Clear [inc16 (runOps ops).countMaxNow] (runOps ops).addr →
    ∀ pix' s', imlibSepconv3 krn m b w (runOps ops) malloc h pix = (.ok pix', s') → SameTable (runOps ops) s' ∧
      ∀ x y, pix' x y = if Inner w h x y then clampByte (m * conv krn pix x y + b) else pix x y

/-- Two values with the same nearest value of a pixel. -/
def SameByte (v e : ℤ) : Prop := v = e ∨ 255 ≤ v ∧ 255 ≤ e ∨ v ≤ 0 ∧ e ≤ 0

theorem clampByte_eq_iff (v e : ℤ) : clampByte v = clampByte e ↔ SameByte v e := by
  have hnat : ∀ z : ℤ, (clampByte z).toNat = (max (min z 255) 0).toNat := by
    intro z
    rw [clampByte, UInt8.toNat_ofNat', Nat.mod_eq_of_lt (by omega)]
  rw [← UInt8.toNat_inj, hnat, hnat, SameByte]
  omega

section Right

variable {krn : Fin 3 → Int8} {m b : ℤ} {w h : ℕ} {pix : ℕ → ℕ → UInt8}

theorem sepconv3_spec (hw : 0 < w) (hmax : w < 2 ^ 29) : SepconvRight krn m b w h pix ↔ ∀ x y, Inner w h x y →
    SameByte (sepScale m b (conv krn pix x y + sepError krn pix x y)) (m * conv krn pix x y + b) := by
  have hsize : w * 4 * 2 % 4294967296 ≠ 0 := by omega
  constructor
  · intro hright x y hin
    obtain ⟨p, t, halloc⟩ := @fbAlloc_succeeds (runOps []) (w * 4 * 2 % 4294967296) (Or.inr (by decide))
    have hrun : imlibSepconv3 krn m b w (runOps []) true h pix = (.ok (sepRows krn m b w h pix).pix, fbFree t) := by
      rw [imlibSepconv3, halloc, Call.andThen]
    have hpix := (hright [] true (by decide) _ _ hrun).2 x y
    rwa [sepRows_pix, if_pos hin, if_pos hin, clampByte_eq_iff] at hpix
  · intro hsame ops malloc hclear pix' s' hrun
    obtain ⟨p, t, halloc, hlast⟩ := andThen_ok hrun
    obtain ⟨hpix, rfl⟩ := Prod.mk.injEq .. ▸ hlast
    obtain rfl := (Except.ok.inj hpix).symm
    refine ⟨((free_of_alloc halloc hsize (ready_runOps ops) List.not_mem_nil).1 hclear).2, fun x y => ?_⟩
    rw [sepRows_pix]
    by_cases hin : Inner w h x y
    · rw [if_pos hin, if_pos hin, clampByte_eq_iff]
      exact hsame x y hin
    · rw [if_neg hin, if_neg hin]

/-- The `float`s on the way are exact. -/
def FloatExact (m b s : ℤ) : Prop := |s| < 2 ^ 24 ∧ |m * s| < 2 ^ 24 ∧ |b| < 2 ^ 24 ∧ |m * s + b| < 2 ^ 24

theorem sepScale_exact {s : ℤ} (hs : FloatExact m b s) : sepScale m b s = m * s + b := by
  obtain ⟨h1, h2, h3, h4⟩ := hs
  rw [sepScale, float32_of_small h1, mul_comm s, float32_of_small h2, float32_of_small h3, float32_of_small h4,
    floatToInt]
  rw [abs_lt] at h4
  omega

/-- Without a negative tap, and with taps that add up to at most 128, the sums of the columns have no upper half. -/
theorem sepError_eq_zero (hpos : ∀ j, 0 ≤ (krn j).toInt)
    (hsum : (krn 0).toInt + (krn 1).toInt + (krn 2).toInt ≤ 128) (x y : ℕ) : sepError krn pix x y = 0 := by
  refine Finset.sum_eq_zero fun j _ => ?_
  have hpixel : ∀ c r, (0 : ℤ) ≤ (pix c r).toNat ∧ ((pix c r).toNat : ℤ) ≤ 255 := by
    intro c r
    have hlt : ((pix c r).toNat : ℤ) < 256 := by exact_mod_cast UInt8.toNat_lt _
    exact ⟨by omega, by omega⟩
  have h0 : 0 ≤ columnSum krn pix (x - 1 + j) (y - 1) :=
    Finset.sum_nonneg fun i _ => mul_nonneg (hpos i) (hpixel _ _).1
  have h1 : columnSum krn pix (x - 1 + j) (y - 1) ≤ 32640 := by
    calc columnSum krn pix (x - 1 + j) (y - 1) ≤ ∑ i : Fin 3, (krn i).toInt * 255 :=
          Finset.sum_le_sum fun i _ => mul_le_mul_of_nonneg_left (hpixel _ _).2 (hpos i)
      _ ≤ 32640 := by
          rw [Fin.sum_univ_three]
          omega
  rw [tapError, Int.ediv_eq_zero_of_lt (by omega) (by omega), Int.ediv_eq_zero_of_lt h0 (by omega), mul_zero, mul_zero,
    add_zero]

/-- A picture with a single column that is not zero, where the second pass goes wrong. -/
theorem not_right_of_column {j : Fin 3} {u : ℤ} (hcol : ∀ x : ℕ, columnSum krn pix x 0 = if x = j then u else 0)
    (herr : tapError (krn j).toInt u ≠ 0) : FloatExact 1 (100 - (krn j).toInt * u) (conv krn pix 1 1) ∧
      ¬ SepconvRight krn 1 (100 - (krn j).toInt * u) 4 5 pix := by
  have hsum : ∀ f : ℤ → ℤ → ℤ, (∀ k, f k 0 = 0) → ∑ i : Fin 3, f (krn i).toInt (columnSum krn pix (0 + i) 0) =
      f (krn j).toInt u := by
    intro f hf
    rw [Finset.sum_eq_single_of_mem j (Finset.mem_univ j) fun i _ hij => by
      rw [hcol, if_neg (by rw [Nat.zero_add]; exact fun h => hij (Fin.ext h)), hf]]
    rw [hcol, if_pos (Nat.zero_add _)]
  have hconv : conv krn pix 1 1 = (krn j).toInt * u := by
    rw [conv_eq]
    exact hsum (fun k u => k * u) fun k => mul_zero k
  have herror : sepError krn pix 1 1 = tapError (krn j).toInt u :=
    hsum tapError fun k => by simp [tapError]
  have hu : |u| ≤ 97920 := by
    have h := columnSum_bound krn pix j 0
    rwa [hcol, if_pos rfl] at h
  have hprod : |(krn j).toInt * u| ≤ 128 * 97920 := by
    obtain ⟨hk1, hk2⟩ := int8_bounds (krn j)
    rw [abs_mul]
    exact mul_le_mul (abs_le.2 ⟨by omega, by omega⟩) hu (abs_nonneg _) (by norm_num)
  have hterm := tapTerm_bound (krn j) (u := u) (hu.trans (by norm_num))
  rw [tapTerm_eq] at hterm
  rw [abs_le] at hprod hterm
  refine ⟨?_, fun hright => herr ?_⟩
  · rw [hconv]
    refine ⟨?_, ?_, ?_, ?_⟩ <;> rw [abs_lt] <;> omega
  · have hsame := (sepconv3_spec (by decide) (by decide)).1 hright 1 1 (by decide)
    rw [hconv, herror, sepScale_exact (by refine ⟨?_, ?_, ?_, ?_⟩ <;> rw [abs_lt] <;> omega)] at hsame
    unfold SameByte at hsame
    omega

end Right

/-- A picture of a single point. -/
theorem columnSum_dot (krn : Fin 3 → Int8) (j : Fin 3) (x : ℕ) :
    columnSum krn (fun c r => if c = j ∧ r = j then 1 else 0) x 0 = if x = j then (krn j).toInt else 0 := by
  rw [columnSum, Finset.sum_eq_single_of_mem j (Finset.mem_univ j) fun i _ hij => by
    rw [if_neg (by rw [Nat.zero_add]; exact fun h => hij (Fin.ext h.2))]
    exact mul_zero _]
  by_cases hx : x = j
  · rw [if_pos ⟨hx, Nat.zero_add _⟩, if_pos hx]
    exact mul_one _
  · rw [if_neg fun h => hx h.1, if_neg hx]
    exact mul_zero _

/-- A picture of a single white column. -/
theorem columnSum_column (krn : Fin 3 → Int8) (j : Fin 3) (x : ℕ) :
    columnSum krn (fun c _ => if c = j then 255 else 0) x 0 =
      if x = j then 255 * ((krn 0).toInt + (krn 1).toInt + (krn 2).toInt) else 0 := by
  rw [columnSum, Fin.sum_univ_three]
  by_cases hx : x = j
  · simp only [if_pos hx]
    have h255 : ((255 : UInt8).toNat : ℤ) = 255 := rfl
    rw [h255]
    ring
  · simp only [if_neg hx]
    have h0 : ((0 : UInt8).toNat : ℤ) = 0 := rfl
    rw [h0, mul_zero, mul_zero, mul_zero, add_zero, add_zero]

/-- The convolution is right where the errors of the second pass and of the `float`s do not show; and for all
    pictures, multipliers and offsets with exact `float`s just if no tap is negative and the taps add up to at most
    128. -/
theorem sepconv3_iff (krn : Fin 3 → Int8) :
    (∀ (m b : ℤ) (w h : ℕ) (pix : ℕ → ℕ → UInt8), 0 < w → w < 2 ^ 29 →
      (SepconvRight krn m b w h pix ↔ ∀ x y, Inner w h x y →
        SameByte (sepScale m b (conv krn pix x y + sepError krn pix x y)) (m * conv krn pix x y + b))) ∧
    ((∀ (m b : ℤ) (w h : ℕ) (pix : ℕ → ℕ → UInt8), 0 < w → w < 2 ^ 29 →
        (∀ x y, Inner w h x y → FloatExact m b (conv krn pix x y)) → SepconvRight krn m b w h pix) ↔
      (∀ j, 0 ≤ (krn j).toInt) ∧ (krn 0).toInt + (krn 1).toInt + (krn 2).toInt ≤ 128) := by
  refine ⟨fun m b w h pix hw hmax => sepconv3_spec hw hmax, ?_, ?_⟩
  · intro hall
    have hcolumn : ∀ (j : Fin 3) (u : ℤ) (pix : ℕ → ℕ → UInt8),
        (∀ x : ℕ, columnSum krn pix x 0 = if x = j then u else 0) → tapError (krn j).toInt u = 0 := by
      intro j u pix hcol
      by_contra herr
      obtain ⟨hexact, hwrong⟩ := not_right_of_column hcol herr
      refine hwrong (hall _ _ 4 5 pix (by decide) (by decide) fun x y hin => ?_)
      obtain ⟨rfl, rfl⟩ : x = 1 ∧ y = 1 := by
        unfold Inner at hin
        omega
      exact hexact
    have hpos : ∀ j, 0 ≤ (krn j).toInt := by
      intro j
      by_contra hneg
      obtain ⟨hk1, -⟩ := int8_bounds (krn j)
      have h := hcolumn j _ _ (columnSum_dot krn j)
      have hdiv : (krn j).toInt / 65536 = -1 := by omega
      rw [tapError, hdiv, Int.ediv_eq_zero_of_lt (by omega) (by omega)] at h
      omega
    refine ⟨hpos, ?_⟩
    by_contra hbig
    obtain ⟨j, hj⟩ : ∃ j, 0 < (krn j).toInt := by
      by_contra hno
      have hle : ∀ j, (krn j).toInt ≤ 0 := fun j => not_lt.1 fun h => hno ⟨j, h⟩
      have := hle 0
      have := hle 1
      have := hle 2
      omega
    have h := hcolumn j _ _ (columnSum_column krn j)
    obtain ⟨-, h0⟩ := int8_bounds (krn 0)
    obtain ⟨-, h1⟩ := int8_bounds (krn 1)
    obtain ⟨-, h2⟩ := int8_bounds (krn 2)
    obtain ⟨-, hjmax⟩ := int8_bounds (krn j)
    have hone : (255 * ((krn 0).toInt + (krn 1).toInt + (krn 2).toInt) + 32768) / 65536 = 1 := by omega
    rw [tapError, hone, Int.ediv_eq_zero_of_lt hj.le (by omega)] at h
    omega
  · rintro ⟨hpos, hsum⟩ m b w h pix hw hmax hexact
    refine (sepconv3_spec hw hmax).2 fun x y hin => Or.inl ?_
    rw [sepError_eq_zero hpos hsum, add_zero]
    exact sepScale_exact (hexact x y hin)

/-- The taps -1, 0, 1: where the sum of a column is -100, the negative tap adds 1. -/
theorem sepconv3_of_negative_tap :
    ¬ SepconvRight ![-1, 0, 1] 1 0 4 5 (fun c r => if c = 0 ∧ r = 0 then 100 else 0) := by
  intro hright
  have hsame := (sepconv3_spec (by decide) (by decide)).1 hright 1 1 (by decide)
  have hconv : conv ![-1, 0, 1] (fun c r => if c = 0 ∧ r = 0 then 100 else 0) 1 1 = 100 := by decide
  have herror : sepError ![-1, 0, 1] (fun c r => if c = 0 ∧ r = 0 then 100 else 0) 1 1 = 1 := by decide
  rw [hconv, herror, sepScale_exact (by refine ⟨?_, ?_, ?_, ?_⟩ <;> norm_num)] at hsame
  revert hsame
  unfold SameByte
  omega

end OpenMV.Filters
