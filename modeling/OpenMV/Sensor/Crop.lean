import OpenMV.Sensor.Sensor
import Mathlib.NumberTheory.DiophantineApproximation.Basic
import Mathlib.Data.Rat.Floor

/-! The crop loop | scheme:termination | source:src/src/openmv/omv/sensor.c

    `sensor_check_buffsize` takes columns and rows off the window in a ratio near that of its sides until it fits
    the buffer. The ratio is that of the first multiple of the aspect ratio within 1/100 of a whole number, here
    in rational arithmetic. By Dirichlet's theorem there is one among the first hundred; and as it is the
    first, the two steps are not both even, so only after an even number of rounds both sides are even again. -/

namespace OpenMV.Sensor

/-! ### The ratio -/

def FLT_MAX : ℚ := 340282346638528859811704183484516925440

/-- The search for the ratio: `r` is `c` times the aspect ratio, and the best multiple so far is kept. -/
def ratioLoop (aspectRatio : ℚ) : ℕ → ℚ → ℤ → ℚ → ℚ → ℤ → ℚ × ℤ
  | 0, _, _, _, bestR, bestC => (bestR, bestC)
  | i + 1, r, c, bestErr, bestR, bestC =>
    let err := |r - round r|
    let best := if err ≤ bestErr then (err, r, c) else (bestErr, bestR, bestC)
    if best.1 ≤ 1 / 100 then (best.2.1, best.2.2)
    else ratioLoop aspectRatio i (r + aspectRatio) (c + 1) best.1 best.2.1 best.2.2

/-- `aspect_ratio`. -/
def aspect (windowW windowH : ℤ) : ℚ := (max windowW windowH : ℤ) / (min windowW windowH : ℤ)

/-- `u_sub` and `v_sub`. -/
def cropSub (windowW windowH : ℤ) : ℤ × ℤ :=
  let aspectRatio := aspect windowW windowH
  let best := ratioLoop aspectRatio 100 aspectRatio 1 FLT_MAX aspectRatio 1
  if windowW > windowH then (round best.1, best.2) else (best.2, round best.1)

/-- A multiple near a whole number. -/
def Close (α : ℚ) (k : ℕ) : Prop := 0 < k ∧ |k * α - round (k * α)| ≤ 1 / 100

instance (α : ℚ) : DecidablePred (Close α) := fun _ => inferInstanceAs (Decidable (_ ∧ _))

theorem exists_close (α : ℚ) : ∃ k ≤ 100, Close α k := by
  obtain ⟨k, hk, hle, h⟩ := Real.exists_nat_abs_mul_sub_round_le (α : ℝ) (n := 100) (by decide)
  have hcast : (k : ℝ) * (α : ℝ) = ((k * α : ℚ) : ℝ) := by push_cast; rfl
  rw [hcast, Rat.round_cast] at h
  have hrat : ((|k * α - round (k * α)| : ℚ) : ℝ) ≤ ((1 / 100 : ℚ) : ℝ) := by
    refine le_trans (le_of_eq ?_) (h.trans ?_)
    · push_cast
      rfl
    · norm_num
  exact ⟨k, hle, hk, Rat.cast_le.mp hrat⟩

/-- The first of them. -/
def firstClose (α : ℚ) : ℕ := Nat.find (p := Close α) (let ⟨k, _, h⟩ := exists_close α; ⟨k, h⟩)

theorem firstClose_close (α : ℚ) : Close α (firstClose α) := Nat.find_spec _

theorem not_close_of_lt {α : ℚ} {k : ℕ} (h : k < firstClose α) : ¬ Close α k := Nat.find_min _ h

theorem firstClose_le (α : ℚ) : firstClose α ≤ 100 := by
  obtain ⟨k, hle, hk⟩ := exists_close α
  exact (Nat.find_min' _ hk).trans hle

/-- The search finds the first one. -/
theorem ratioLoop_eq (α : ℚ) : ∀ (i c : ℕ) (bestErr bestR : ℚ) (bestC : ℤ), c + i = 101 → 1 ≤ c → c ≤ firstClose α →
    1 / 100 < bestErr →
    ratioLoop α i (c * α) c bestErr bestR bestC = (firstClose α * α, (firstClose α : ℤ)) := by
  intro i
  induction i with
  | zero =>
    intro c bestErr bestR bestC hc h1 hle herr
    have := firstClose_le α
    omega
  | succ i ih =>
    intro c bestErr bestR bestC hc h1 hle herr
    rcases Nat.lt_or_eq_of_le hle with hlt | rfl
    · have hfar : ¬ |c * α - round (c * α)| ≤ 1 / 100 := fun h => not_close_of_lt hlt ⟨h1, h⟩
      have hnext : (c : ℚ) * α + α = ((c + 1 : ℕ) : ℚ) * α := by push_cast; ring
      have hcast : (c : ℤ) + 1 = ((c + 1 : ℕ) : ℤ) := by push_cast; rfl
      rw [ratioLoop]
      split_ifs with hbetter h
      · rw [hnext, hcast]
        exact ih (c + 1) _ _ _ (by omega) (by omega) (by omega) (not_le.mp hfar)
      · exact absurd h (not_le.mpr herr)
      · rw [hnext, hcast]
        exact ih (c + 1) _ _ _ (by omega) (by omega) (by omega) herr
    · have hnear := (firstClose_close α).2
      rw [ratioLoop, if_pos (hnear.trans herr.le), if_pos hnear]

/-- The steps in the two directions, for the longer and for the shorter side. -/
theorem cropSub_eq (u v : ℤ) :
    let c := firstClose (aspect u v)
    let n := round (c * aspect u v)
    cropSub u v = if u > v then (n, (c : ℤ)) else ((c : ℤ), n) := by
  have hloop := ratioLoop_eq (aspect u v) 100 1 FLT_MAX (aspect u v) 1 rfl (by decide)
    (firstClose_close (aspect u v)).1 (by norm_num [FLT_MAX])
  rw [Nat.cast_one, one_mul, Nat.cast_one] at hloop
  intro c n
  rw [cropSub]
  simp only [hloop]
  rfl

/-- Both steps are positive, and one of them is odd. -/
theorem cropSub_spec {u v : ℤ} (hu : 0 < u) (hv : 0 < v) :
    0 < (cropSub u v).1 ∧ 0 < (cropSub u v).2 ∧ ¬ ((cropSub u v).1 % 2 = 0 ∧ (cropSub u v).2 % 2 = 0) := by
  set α := aspect u v with hα
  set c := firstClose α with hc
  set n := round (c * α) with hn
  obtain ⟨hcpos, hnear⟩ := firstClose_close α
  rw [← hc, ← hn] at hnear
  have hone : 1 ≤ α := by
    have hmin : (0 : ℚ) < (min u v : ℤ) := by exact_mod_cast lt_min hu hv
    rw [hα, aspect, le_div_iff₀ hmin, one_mul]
    exact_mod_cast min_le_max
  have hnpos : 0 < n := by
    have hc1 : (1 : ℚ) ≤ c := by exact_mod_cast hcpos
    have hle := (abs_le.mp hnear).2
    have : (0 : ℚ) < n := by nlinarith
    exact_mod_cast this
  have hodd : ¬ ((c : ℤ) % 2 = 0 ∧ n % 2 = 0) := by
    rintro ⟨hceven, hneven⟩
    obtain ⟨k, hk⟩ : ∃ k : ℕ, c = 2 * k := ⟨c / 2, by omega⟩
    obtain ⟨m, hm⟩ : ∃ m : ℤ, n = 2 * m := ⟨n / 2, by omega⟩
    -- half of it would be near a whole number too
    refine not_close_of_lt (α := α) (k := k) (by omega) ⟨by omega, (round_le (k * α) m).trans ?_⟩
    have hhalf : (c : ℚ) * α - n = 2 * (k * α - m) := by
      rw [hk, hm]
      push_cast
      ring
    rw [hhalf, abs_mul, abs_of_pos (by norm_num : (0 : ℚ) < 2)] at hnear
    have := abs_nonneg ((k : ℚ) * α - m)
    linarith
  have heq := cropSub_eq u v
  simp only [← hα, ← hc, ← hn] at heq
  rw [heq]
  split_ifs
  · exact ⟨hnpos, Int.natCast_pos.mpr hcpos, fun h => hodd ⟨h.2, h.1⟩⟩
  · exact ⟨Int.natCast_pos.mpr hcpos, hnpos, hodd⟩

/-! ### The loop -/

/-- The condition of the loop does not hold any more. -/
def Fits (bpp : ℤ) (size : ℕ) (u v : ℤ) : Prop := ¬ exceeds (u * v * bpp) size ∧ u % 2 = 0 ∧ v % 2 = 0

instance (bpp : ℤ) (size : ℕ) (u v : ℤ) : Decidable (Fits bpp size u v) := inferInstanceAs (Decidable (_ ∧ _))

section

variable {bpp : ℤ} {size : ℕ} {sub : ℤ × ℤ}

theorem cropLoop_succ (fuel : ℕ) (u v : ℤ) : cropLoop bpp size sub (fuel + 1) (u, v) =
    if Fits bpp size u v then some (u, v) else cropLoop bpp size sub fuel (u - sub.1, v - sub.2) := by
  rw [cropLoop]
  by_cases h : Fits bpp size u v
  · rw [if_pos h, if_neg (by rw [not_or, not_or, not_not, not_not]; exact h)]
  · rw [if_neg h, if_pos (by
      by_contra hno
      rw [not_or, not_or, not_not, not_not] at hno
      exact h hno)]

/-- The loop is left after the first round that fits. -/
theorem cropLoop_first : ∀ {k : ℕ} {u v : ℤ}, Fits bpp size (u - k * sub.1) (v - k * sub.2) →
    (∀ i < k, ¬ Fits bpp size (u - i * sub.1) (v - i * sub.2)) → ∀ fuel ≥ k + 1,
      cropLoop bpp size sub fuel (u, v) = some (u - k * sub.1, v - k * sub.2)
  | 0, u, v, hfits, _, fuel, hfuel => by
      obtain ⟨f, rfl⟩ := Nat.exists_eq_add_of_le' hfuel
      rw [Nat.cast_zero, zero_mul, zero_mul, sub_zero, sub_zero] at hfits ⊢
      rw [Nat.zero_add, cropLoop_succ, if_pos hfits]
  | k + 1, u, v, hfits, hgo, fuel, hfuel => by
      obtain ⟨f, rfl⟩ := Nat.exists_eq_add_of_le' hfuel
      have hshift : ∀ (i : ℕ) (x a : ℤ), x - a - i * a = x - (i + 1 : ℕ) * a := fun i x a => by push_cast; ring
      have hzero : ¬ Fits bpp size u v := by
        have := hgo 0 (Nat.succ_pos k)
        rwa [Nat.cast_zero, zero_mul, zero_mul, sub_zero, sub_zero] at this
      rw [← Nat.add_assoc, cropLoop_succ, if_neg hzero]
      have ih := cropLoop_first (k := k) (u := u - sub.1) (v := v - sub.2) (by rwa [hshift, hshift])
        (fun i hi => by rw [hshift, hshift]; exact hgo (i + 1) (by omega)) (f + (k + 1)) (by omega)
      rw [ih, hshift, hshift]

theorem cropLoop_some : ∀ {fuel : ℕ} {u v u' v' : ℤ}, cropLoop bpp size sub fuel (u, v) = some (u', v') →
    ∃ k : ℕ, u' = u - k * sub.1 ∧ v' = v - k * sub.2 ∧ Fits bpp size u' v'
  | 0, u, v, u', v', h => nomatch h
  | fuel + 1, u, v, u', v', h => by
      rw [cropLoop_succ] at h
      split_ifs at h with hfits
      · cases h
        exact ⟨0, by simp, by simp, hfits⟩
      · obtain ⟨k, hu, hv, hk⟩ := cropLoop_some h
        exact ⟨k + 1, by rw [hu]; push_cast; ring, by rw [hv]; push_cast; ring, hk⟩

end

/-- The new position, if as many columns are taken off on both sides. -/
theorem center_spec {x w u' m : ℤ} (hm : 1 ≤ m) (hu : u' = w - 2 * m) :
    x ≤ center x w u' ∧ center x w u' + u' ≤ x + w := by
  have hhalf : (w - u').tdiv 2 = m := by
    rw [hu, show w - (w - 2 * m) = m * 2 by ring]
    exact Int.mul_tdiv_cancel m (by decide)
  simp only [center, hhalf]
  split_ifs <;> omega

/-! ### The window -/

/-- The crop ends with a window that has an even number of columns and rows, fits the buffer and lies in the old
    one. -/
def CropsWell (s : State) (bpp : ℤ) : Prop :=
  ∃ n, ∀ fuel ≥ n, ∀ beyond, let fb := (crop ⟨beyond, cropSub, fuel⟩ s bpp).fb
    (crop ⟨beyond, cropSub, fuel⟩ s bpp).hung = false ∧ 0 < fb.u ∧ 0 < fb.v ∧ fb.u % 2 = 0 ∧ fb.v % 2 = 0 ∧
      fb.u * fb.v * bpp ≤ s.fb.bufsz ∧ (s.fb.x ≤ fb.x ∧ fb.x + fb.u ≤ s.fb.x + s.fb.u) ∧
      s.fb.y ≤ fb.y ∧ fb.y + fb.v ≤ s.fb.y + s.fb.v

/-- Some even number of rounds leaves columns and rows, and few enough of them. -/
def RoomLeft (s : State) (bpp : ℤ) : Prop :=
  ∃ j : ℕ, 0 < j ∧ 2 * j * (cropSub s.fb.u s.fb.v).1 < s.fb.u ∧ 2 * j * (cropSub s.fb.u s.fb.v).2 < s.fb.v ∧
    (s.fb.u - 2 * j * (cropSub s.fb.u s.fb.v).1) * (s.fb.v - 2 * j * (cropSub s.fb.u s.fb.v).2) * bpp ≤ s.fb.bufsz

section

variable {u v a b bpp : ℤ} {size : ℕ}

/-- With an odd step both sides are even after an even number of rounds only. -/
theorem even_of_fits (hu : u % 2 = 0) (hv : v % 2 = 0) (hab : ¬ (a % 2 = 0 ∧ b % 2 = 0)) {k : ℕ}
    (h : Fits bpp size (u - k * a) (v - k * b)) : ∃ j : ℕ, k = 2 * j := by
  obtain ⟨-, hku, hkv⟩ := h
  rcases Nat.even_or_odd' k with ⟨j, rfl | rfl⟩
  · exact ⟨j, rfl⟩
  · refine absurd ⟨?_, ?_⟩ hab
    · have : ((2 * j + 1 : ℕ) : ℤ) * a = 2 * (j * a) + a := by push_cast; ring
      omega
    · have : ((2 * j + 1 : ℕ) : ℤ) * b = 2 * (j * b) + b := by push_cast; ring
      omega

/-- A smaller window needs fewer bytes, so nothing wraps. -/
theorem not_exceeds_iff (hbpp : 0 < bpp) (hprod : u * v * bpp < 4294967296) {u' v' : ℤ} (hu : 0 < u' ∧ u' ≤ u)
    (hv : 0 < v' ∧ v' ≤ v) : ¬ exceeds (u' * v' * bpp) size ↔ u' * v' * bpp ≤ size := by
  have hle : u' * v' ≤ u * v := mul_le_mul hu.2 hv.2 hv.1.le (by omega)
  have hlt : u' * v' * bpp < 4294967296 := (mul_le_mul_of_nonneg_right hle hbpp.le).trans_lt hprod
  have hpos : 0 ≤ u' * v' * bpp := by
    have := mul_pos hu.1 hv.1
    positivity
  unfold exceeds
  rw [Int.emod_eq_of_lt hpos hlt, gt_iff_lt, not_lt]

theorem exists_first_round {K : ℕ} (h : Fits bpp size (u - K * a) (v - K * b)) :
    ∃ k ≤ K, Fits bpp size (u - k * a) (v - k * b) ∧ ∀ i < k, ¬ Fits bpp size (u - i * a) (v - i * b) := by
  have hex : ∃ k : ℕ, Fits bpp size (u - k * a) (v - k * b) := ⟨K, h⟩
  exact ⟨Nat.find hex, Nat.find_min' hex h, Nat.find_spec hex, fun i hi => Nat.find_min hex hi⟩

end

/-- The crop loop ends with a usable window exactly if there is room for an even number of rounds. -/
theorem crop_usable_iff (s : State) (hhung : s.hung = false) (bpp : ℤ) (hbpp : bpp = 1 ∨ bpp = 2)
    (hu : 8 ≤ s.fb.u ∧ s.fb.u % 2 = 0) (hv : 8 ≤ s.fb.v ∧ s.fb.v % 2 = 0)
    (hprod : s.fb.u * s.fb.v * bpp < 4294967296) (hbig : (s.fb.bufsz : ℤ) < s.fb.u * s.fb.v * bpp) :
    CropsWell s bpp ↔ RoomLeft s bpp := by
  obtain ⟨ha, hb, hodd⟩ := cropSub_spec (u := s.fb.u) (v := s.fb.v) (by omega) (by omega)
  have hbpos : 0 < bpp := by omega
  constructor
  · rintro ⟨n, hn⟩
    obtain ⟨hdone, hu', hv', hueven, hveven, hfit, -⟩ := hn n (Nat.le_refl n) fun _ => (0, 0)
    have hcrop : ∃ u' v', cropLoop bpp s.fb.bufsz (cropSub s.fb.u s.fb.v) n (s.fb.u, s.fb.v) = some (u', v') := by
      cases hl : cropLoop bpp s.fb.bufsz (cropSub s.fb.u s.fb.v) n (s.fb.u, s.fb.v) with
      | none => simp [crop, hl] at hdone
      | some r => exact ⟨r.1, r.2, rfl⟩
    obtain ⟨u', v', hl⟩ := hcrop
    simp only [crop, hl] at hu' hv' hfit
    obtain ⟨k, rfl, rfl, hfits⟩ := cropLoop_some hl
    obtain ⟨j, rfl⟩ := even_of_fits hu.2 hv.2 hodd hfits
    push_cast at hu' hv' hfit
    refine ⟨j, Nat.pos_of_ne_zero ?_, by linarith, by linarith, hfit⟩
    rintro rfl
    simp only [Nat.cast_zero, mul_zero, zero_mul, sub_zero] at hfit
    exact absurd hfit (not_le.mpr hbig)
  · rintro ⟨j, hj, hju, hjv, hfit⟩
    set a := (cropSub s.fb.u s.fb.v).1 with hadef
    set b := (cropSub s.fb.u s.fb.v).2 with hbdef
    have hja : 0 ≤ 2 * (j : ℤ) * a := by positivity
    have hjb : 0 ≤ 2 * (j : ℤ) * b := by positivity
    have hlast : Fits bpp s.fb.bufsz (s.fb.u - (2 * j : ℕ) * a) (s.fb.v - (2 * j : ℕ) * b) := by
      push_cast
      refine ⟨?_, ?_, ?_⟩
      · exact (not_exceeds_iff hbpos hprod ⟨by linarith, by linarith⟩ ⟨by linarith, by linarith⟩).mpr hfit
      · rw [mul_assoc]
        omega
      · rw [mul_assoc]
        omega
    -- the first round that fits comes no later
    obtain ⟨k, hkj, hk, hgo⟩ := exists_first_round hlast
    obtain ⟨m, rfl⟩ := even_of_fits hu.2 hv.2 hodd hk
    have hmj : (m : ℤ) ≤ j := by omega
    have hma : 0 ≤ 2 * (m : ℤ) * a ∧ 2 * (m : ℤ) * a ≤ 2 * j * a := ⟨by positivity, by gcongr⟩
    have hmb : 0 ≤ 2 * (m : ℤ) * b ∧ 2 * (m : ℤ) * b ≤ 2 * j * b := ⟨by positivity, by gcongr⟩
    have hu' : 0 < s.fb.u - (2 * m : ℕ) * a ∧ s.fb.u - (2 * m : ℕ) * a ≤ s.fb.u := by
      push_cast
      constructor <;> linarith
    have hv' : 0 < s.fb.v - (2 * m : ℕ) * b ∧ s.fb.v - (2 * m : ℕ) * b ≤ s.fb.v := by
      push_cast
      constructor <;> linarith
    have hfit' := (not_exceeds_iff hbpos hprod hu' hv').mp hk.1
    have hm : 1 ≤ (m : ℤ) := by
      by_contra hlt
      have h0 : m = 0 := by omega
      rw [h0, Nat.mul_zero, Nat.cast_zero, zero_mul, zero_mul, sub_zero, sub_zero] at hfit'
      exact absurd hfit' (not_le.mpr hbig)
    refine ⟨2 * m + 1, fun fuel hfuel beyond => ?_⟩
    have hloop := cropLoop_first hk hgo fuel hfuel
    simp only [crop, hloop, hhung]
    refine ⟨trivial, hu'.1, hv'.1, hk.2.1, hk.2.2, hfit', ?_, ?_⟩
    · exact center_spec (m := m * a) (one_le_mul_of_one_le_of_one_le hm ha) (by push_cast; ring)
    · exact center_spec (m := m * b) (one_le_mul_of_one_le_of_one_le hm hb) (by push_cast; ring)

/-- A VGA window is cropped to 400 x 300. -/
theorem crop_usable_vga : RoomLeft { boot with fb := ⟨0, 0, 640, 480, 640, 480, 1, 120000⟩ } 1 ∧
    CropsWell { boot with fb := ⟨0, 0, 640, 480, 640, 480, 1, 120000⟩ } 1 := by
  have hsub : cropSub 640 480 = (4, 3) := by decide +kernel
  have hroom : RoomLeft { boot with fb := ⟨0, 0, 640, 480, 640, 480, 1, 120000⟩ } 1 := by
    refine ⟨30, by decide, ?_⟩
    simp only [hsub]
    decide
  exact ⟨hroom, (crop_usable_iff _ rfl 1 (Or.inl rfl) (by decide) (by decide) (by decide) (by decide)).mpr hroom⟩

/-- A window of 10 x 8 pixels for a buffer of 64 bytes is cropped to nothing. -/
theorem crop_to_nothing : ¬ CropsWell { boot with fb := ⟨0, 0, 10, 8, 10, 8, 1, 64⟩ } 1 ∧
    ∀ fuel ≥ 3, cropLoop 1 64 (cropSub 10 8) fuel (10, 8) = some (0, 0) := by
  have hsub : cropSub 10 8 = (5, 4) := by decide +kernel
  have hloop : ∀ fuel ≥ 3, cropLoop 1 64 (cropSub 10 8) fuel (10, 8) = some (0, 0) := by
    intro fuel hfuel
    rw [hsub]
    exact cropLoop_first (k := 2) (by decide) (by decide) fuel hfuel
  refine ⟨?_, hloop⟩
  rintro ⟨n, hn⟩
  obtain ⟨-, hpos, -⟩ := hn (max n 3) (le_max_left n 3) fun _ => (0, 0)
  simp only [crop, hloop (max n 3) (le_max_right n 3)] at hpos
  exact Int.lt_irrefl 0 hpos

end OpenMV.Sensor
