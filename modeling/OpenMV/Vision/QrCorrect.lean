import OpenMV.Schemes.ErrorLocator
import OpenMV.Vision.Galois

/-! Error correction of QR codes | scheme:polynomials | source:src/src/openmv/omv/img/qrcode.c

    `correct_block` mends a block of the code stream: its bytes are the coefficients of a polynomial that should have
    the first powers of the base as roots. `correct_format` mends the fifteen bits of the format in the same way, in
    the smaller field. Both correct as many errors as half the number of roots. -/

namespace OpenMV.Vision
open Schemes

/-! ### The code -/

/-- `struct quirc_rs_params` -/
structure RsParams where
  bs : ℕ
  dw : ℕ
  ns : ℕ
deriving DecidableEq, Repr

section Code

/-- `s[i]` of a block. -/
def blockSyndrome (data : ℕ → BitVec 8) (bs i : ℕ) : BitVec 8 :=
  (List.range bs).foldl (fun s j =>
    let c := data (bs - j - 1)
    if c = 0#8 then s else s ^^^ gf256.exp ((gf256.log c + i * j) % gf256.p)) 0#8

/-- Whether one is not zero, and the array. -/
def blockSyndromes (data : ℕ → BitVec 8) (bs npar : ℕ) : Bool × Poly 8 :=
  ((List.range npar).any fun i => blockSyndrome data bs i != 0#8,
    fun i => if i < npar then blockSyndrome data bs i else 0#8)

/-- A round of the inner loop of `eloc_poly`. -/
def elocRound (a : BitVec 8) (s : Poly 8) (i : ℕ) (omega : Poly 8) (j : ℕ) : Poly 8 :=
  let b := s (j + 1)
  if b = 0#8 then omega
  else Function.update omega (i + j) (omega (i + j) ^^^ gf256.exp ((gf256.log a + gf256.log b) % gf256.p))

/-- The inner loop is left when `i + j` reaches `npar`. -/
def elocPoly (s sigma : Poly 8) (npar : ℕ) : Poly 8 :=
  (List.range npar).foldl (fun omega i =>
    if sigma i = 0#8 then omega
    else (List.range (min (maxPoly - 1) (npar - i))).foldl (elocRound (sigma i) s i) omega) fun _ => 0#8

/-- `sigma_deriv` -/
def sigmaDeriv (sigma : Poly 8) : Poly 8 := fun i => if i % 2 = 0 ∧ i + 1 < maxPoly then sigma (i + 1) else 0#8

/-- A round of the loop that looks for the errors. -/
def correctByte (sigma deriv omega : Poly 8) (bs : ℕ) (data : ℕ → BitVec 8) (i : ℕ) : ℕ → BitVec 8 :=
  let xinv := gf256.exp (255 - i)
  if polyEval gf256 sigma xinv = 0#8 then
    let sdX := polyEval gf256 deriv xinv
    let omegaX := polyEval gf256 omega xinv
    let error := gf256.exp ((255 - gf256.log sdX + gf256.log omegaX) % 255)
    Function.update data (bs - i - 1) (data (bs - i - 1) ^^^ error)
  else data

/-- Whether the block is right now, and the block. -/
def correctBlock (data : ℕ → BitVec 8) (ecc : RsParams) : Bool × (ℕ → BitVec 8) :=
  let npar := ecc.bs - ecc.dw
  let (nonzero, s) := blockSyndromes data ecc.bs npar
  if nonzero then
    let sigma := berlekampMassey gf256 s npar
    let omega := elocPoly s sigma (npar - 1)
    let data := (List.range ecc.bs).foldl (correctByte sigma (sigmaDeriv sigma) omega ecc.bs) data
    (!(blockSyndromes data ecc.bs npar).1, data)
  else (true, data)

def formatSyndrome (u : BitVec 16) (i : ℕ) : BitVec 4 :=
  (List.range 15).foldl (fun s j => if u.getLsbD j then s ^^^ gf16.exp ((i + 1) * j % 15) else s) 0#4

def formatSyndromes (u : BitVec 16) : Bool × Poly 4 :=
  ((List.range 6).any fun i => formatSyndrome u i != 0#4, fun i => if i < 6 then formatSyndrome u i else 0#4)

/-- The format, if it could be corrected. -/
def correctFormat (u : BitVec 16) : Option (BitVec 16) :=
  let (nonzero, s) := formatSyndromes u
  if nonzero then
    let sigma := berlekampMassey gf16 s 6
    let u := (List.range 15).foldl (fun u i =>
      if polyEval gf16 sigma (gf16.exp (15 - i)) = 0#4 then u ^^^ 1#16 <<< i else u) u
    if (formatSyndromes u).1 then none else some u
  else some u

end Code

/-! ### The places of the errors -/

open Polynomial

section Places
variable {w : ℕ} {gf : LogField w}

theorem base_ne_zero : gf.base ≠ 0 := fun h => gf.power_ne 1 (congrArg LogField.Elem.val h)

theorem base_pow_ne (i : ℕ) : gf.base ^ i ≠ 0 := pow_ne_zero i base_ne_zero

/-- Different powers of the base. -/
theorem base_pow_injOn : Set.InjOn (fun i : ℕ => gf.base ^ i) {i | i < gf.p} := by
  intro i hi j hj h
  have hval : gf.power i = gf.power j := by
    rw [← gf.val_base_pow, ← gf.val_base_pow]
    exact congrArg LogField.Elem.val h
  have := gf.log_power i
  rw [hval, gf.log_power, Nat.mod_eq_of_lt hj, Nat.mod_eq_of_lt hi] at this
  exact this.symm

/-- The table goes on to where it begins again. -/
theorem exp_sub_eq_inv (hend : gf.exp gf.p = 1#w) {i : ℕ} (hi : i < gf.p) :
    (⟨gf.exp (gf.p - i)⟩ : gf.Elem) = (gf.base ^ i)⁻¹ := by
  have hpow : (⟨gf.exp (gf.p - i)⟩ : gf.Elem) = gf.base ^ (gf.p - i) := by
    refine LogField.Elem.ext (Eq.trans ?_ (gf.val_base_pow _).symm)
    rcases Nat.eq_zero_or_pos i with rfl | hpos
    · rw [Nat.sub_zero, hend, LogField.power, Nat.mod_self, gf.exp_zero]
    · rw [LogField.power, Nat.mod_eq_of_lt (by omega)]
  have hone : gf.base ^ gf.p = 1 :=
    LogField.Elem.ext ((gf.val_base_pow _).trans (by rw [LogField.power, Nat.mod_self, gf.exp_zero]; rfl))
  rw [hpow]
  refine eq_inv_of_mul_eq_one_left ?_
  rw [← pow_add, Nat.sub_add_cancel hi.le, hone]

variable {E : Finset ℕ} (hE : ∀ k ∈ E, k < gf.p) {a : ℕ → gf.Elem} (ha : ∀ k ∈ E, a k ≠ 0)
include hE ha

/-- From sums of powers at few places, the locator of the places is found. -/
theorem sigma_eq_locator {s : Poly w} {N : ℕ} (hN : N < maxPoly) (hcard : 2 * E.card ≤ N)
    (hs : ∀ j < N, (⟨s j⟩ : gf.Elem) = ∑ k ∈ E, a k * (gf.base ^ k) ^ j) :
    polyOf gf (berlekampMassey gf s N) = locator (fun k => gf.base ^ k) E := by
  have hinj : Set.InjOn (fun k : ℕ => gf.base ^ k) E := base_pow_injOn.mono hE
  have hcoeff : ∀ j < N, (∑ i ∈ Finset.range N, monomial i (⟨s i⟩ : gf.Elem)).coeff j = ⟨s j⟩ := by
    intro j hj
    simp only [finsetSum_coeff, coeff_monomial, Finset.sum_ite_eq', Finset.mem_range, hj, if_true]
  exact berlekampMassey_eq hcoeff hN (locator_coeff_zero _ E) (degree_locator_le _ E) (degree_evaluator_lt _ a E)
    (key_equation _ a E fun j hj => (hcoeff j hj).trans (hs j hj))
    (isCoprime_locator (fun k _ => base_pow_ne k) hinj ha) hcard

/-- Some sum is not zero when there are errors. -/
theorem exists_syndrome_ne {N : ℕ} (hcard : 2 * E.card ≤ N) (hne : E.Nonempty) :
    ∃ j < N, ∑ k ∈ E, a k * (gf.base ^ k) ^ j ≠ 0 := by
  by_contra hall
  push Not at hall
  have hkey := key_equation (S := 0) (n := N) (fun k => gf.base ^ k) a E fun j hj => (hall j hj).symm
  rw [mul_zero, zero_sub, dvd_neg] at hkey
  have hcardN : E.card ≤ N := by omega
  have hzero : evaluator (fun k => gf.base ^ k) a E = 0 :=
    Massey.eq_zero_of_X_pow_dvd hkey ((degree_evaluator_lt _ a E).trans_le (by exact_mod_cast hcardN))
  obtain ⟨k, hk⟩ := hne
  have hinj : Set.InjOn (fun k : ℕ => gf.base ^ k) E := base_pow_injOn.mono hE
  have heval := eval_evaluator (a := a) (fun k _ => base_pow_ne k) hk
  rw [hzero, eval_zero] at heval
  exact mul_ne_zero (ha k hk) (eval_locator_erase_ne (fun k _ => base_pow_ne k) hinj hk) heval.symm

omit ha in
/-- Its roots are the inverse places. -/
theorem eval_locator_base {i : ℕ} (hi : i < gf.p) :
    (locator (fun k => gf.base ^ k) E).eval (gf.base ^ i)⁻¹ = 0 ↔ i ∈ E := by
  rw [eval_locator_inv _ _ (base_pow_ne i)]
  constructor
  · rintro ⟨k, hk, heq⟩
    rwa [← base_pow_injOn (hE k hk) hi heq]
  · exact fun hmem => ⟨i, hmem, rfl⟩

end Places

/-! ### Blocks -/

/-- The coefficients of a codeword: the first byte belongs to the highest power. -/
def CodeBlock (bs npar : ℕ) (data : ℕ → BitVec 8) : Prop :=
  ∀ i < npar, ∑ j ∈ Finset.range bs, (⟨data (bs - j - 1)⟩ : gf256.Elem) * (gf256.base ^ j) ^ i = 0

section Blocks
variable (data : ℕ → BitVec 8) (bs : ℕ)

theorem base_pow_pow (j i : ℕ) : ((gf256.base ^ j) ^ i).val = gf256.power (i * j) := by
  rw [← pow_mul, gf256.val_base_pow, Nat.mul_comm]

theorem blockSyndrome_eq (i : ℕ) : (⟨blockSyndrome data bs i⟩ : gf256.Elem) =
    ∑ j ∈ Finset.range bs, ⟨data (bs - j - 1)⟩ * (gf256.base ^ j) ^ i := by
  have hrun : ∀ n, (⟨(List.range n).foldl (fun s j =>
      let c := data (bs - j - 1)
      if c = 0#8 then s else s ^^^ gf256.exp ((gf256.log c + i * j) % gf256.p)) 0#8⟩ : gf256.Elem) =
      ∑ j ∈ Finset.range n, ⟨data (bs - j - 1)⟩ * (gf256.base ^ j) ^ i := by
    intro n
    induction n with
    | zero => rfl
    | succ n ih =>
      rw [List.range_succ, List.foldl_append, List.foldl_cons, List.foldl_nil, Finset.sum_range_succ, ← ih]
      dsimp only
      split
      case isTrue hc =>
        have hzero : (⟨data (bs - n - 1)⟩ : gf256.Elem) = 0 := LogField.Elem.ext hc
        rw [hzero, zero_mul, add_zero]
      case isFalse hc =>
        refine LogField.Elem.ext ((LogField.val_add ..).trans ?_).symm
        rw [LogField.val_mul, base_pow_pow]
        nth_rewrite 1 [← gf256.power_log hc]
        rw [gf256.times₂_power, LogField.power]
  exact hrun bs

theorem blockSyndromes_false_iff (npar : ℕ) : (blockSyndromes data bs npar).1 = false ↔ CodeBlock bs npar data := by
  simp only [blockSyndromes, List.any_eq_false, List.mem_range, bne_iff_ne, not_not, CodeBlock, ← blockSyndrome_eq]
  exact forall_congr' fun i => imp_congr_right fun _ => ⟨fun h => LogField.Elem.ext h, congrArg LogField.Elem.val⟩

/-- The bytes that are not those of the codeword, by the powers they belong to. -/
def errorPlaces (code : ℕ → BitVec 8) : Finset ℕ :=
  (Finset.range bs).filter fun j => data (bs - j - 1) ≠ code (bs - j - 1)

variable {data bs} {code : ℕ → BitVec 8}

theorem mem_errorPlaces {j : ℕ} : j ∈ errorPlaces data bs code ↔ j < bs ∧ data (bs - j - 1) ≠ code (bs - j - 1) := by
  rw [errorPlaces, Finset.mem_filter, Finset.mem_range]

/-- What has been added to a byte. -/
def errorAt (data code : ℕ → BitVec 8) (bs j : ℕ) : gf256.Elem := ⟨data (bs - j - 1) ^^^ code (bs - j - 1)⟩

theorem errorAt_ne {j : ℕ} (hj : j ∈ errorPlaces data bs code) : errorAt data code bs j ≠ 0 := fun h =>
  (mem_errorPlaces.mp hj).2 (BitVec.xor_eq_zero_iff.mp (congrArg LogField.Elem.val h))

/-- The syndromes are sums over the errors. -/
theorem syndrome_errors {npar : ℕ} (hcode : CodeBlock bs npar code) {i : ℕ} (hi : i < npar) :
    (⟨blockSyndrome data bs i⟩ : gf256.Elem) =
      ∑ j ∈ errorPlaces data bs code, errorAt data code bs j * (gf256.base ^ j) ^ i := by
  have hzero : ∀ j ∈ Finset.range bs, j ∉ errorPlaces data bs code →
      errorAt data code bs j * (gf256.base ^ j) ^ i = 0 := by
    intro j hj hnot
    have heq : data (bs - j - 1) = code (bs - j - 1) := by
      by_contra hne
      exact hnot (mem_errorPlaces.mpr ⟨Finset.mem_range.mp hj, hne⟩)
    have : errorAt data code bs j = 0 := LogField.Elem.ext (BitVec.xor_eq_zero_iff.mpr heq)
    rw [this, zero_mul]
  have hsub : errorPlaces data bs code ⊆ Finset.range bs := Finset.filter_subset ..
  rw [Finset.sum_subset hsub hzero, blockSyndrome_eq, ← add_zero (Finset.sum _ _), ← hcode i hi,
    ← Finset.sum_add_distrib]
  refine Finset.sum_congr rfl fun j _ => ?_
  rw [← add_mul]
  rfl

end Blocks

/-! ### The evaluator and the derivative -/

section Evaluator
variable (s sigma : Poly 8)

theorem foldl_elocRound {a : BitVec 8} (ha : a ≠ 0#8) (i n : ℕ) (omega : Poly 8) (k : ℕ) :
    (List.range n).foldl (elocRound a s i) omega k =
      omega k ^^^ if i ≤ k ∧ k < i + n then gf256.times₂ a (s (k - i + 1)) else 0#8 := by
  induction n with
  | zero => rw [List.range_zero, List.foldl_nil, if_neg (by omega), BitVec.xor_zero]
  | succ n ih =>
    rw [List.range_succ, List.foldl_append, List.foldl_cons, List.foldl_nil]
    generalize (List.range n).foldl (elocRound a s i) omega = omega' at ih
    rw [elocRound]
    by_cases hk : k = i + n
    · subst hk
      rw [if_neg (by omega), BitVec.xor_zero] at ih
      rw [if_pos (by omega : i ≤ i + n ∧ i + n < i + (n + 1)), Nat.add_sub_cancel_left]
      by_cases hb : s (n + 1) = 0#8
      · rw [if_pos hb, ih, hb, LogField.times₂_zero, BitVec.xor_zero]
      · rw [if_neg hb, Function.update_self, ih, exp_log_add gf256 ha hb]
    · have hiff : (i ≤ k ∧ k < i + (n + 1)) ↔ (i ≤ k ∧ k < i + n) := by omega
      simp only [hiff, ← ih]
      split
      · rfl
      · rw [Function.update_of_ne hk]

theorem elocPoly_eq {npar : ℕ} (hnpar : npar < maxPoly) (k : ℕ) : (⟨elocPoly s sigma npar k⟩ : gf256.Elem) =
    ∑ i ∈ Finset.range npar, if i ≤ k ∧ k < npar then ⟨sigma i⟩ * ⟨s (k - i + 1)⟩ else 0 := by
  have hrun : ∀ n ≤ npar, (⟨(List.range n).foldl (fun omega i =>
      if sigma i = 0#8 then omega
      else (List.range (min (maxPoly - 1) (npar - i))).foldl (elocRound (sigma i) s i) omega) (fun _ => 0#8) k⟩ :
        gf256.Elem) = ∑ i ∈ Finset.range n, if i ≤ k ∧ k < npar then ⟨sigma i⟩ * ⟨s (k - i + 1)⟩ else 0 := by
    intro n
    induction n with
    | zero => intro _; rfl
    | succ n ih =>
      intro hn
      rw [List.range_succ, List.foldl_append, List.foldl_cons, List.foldl_nil, Finset.sum_range_succ,
        ← ih (by omega)]
      split
      case isTrue ha =>
        have hzero : (⟨sigma n⟩ : gf256.Elem) = 0 := LogField.Elem.ext ha
        rw [hzero, zero_mul, ite_self, add_zero]
      case isFalse ha =>
        have hiff : (n ≤ k ∧ k < n + min (maxPoly - 1) (npar - n)) ↔ (n ≤ k ∧ k < npar) := by omega
        rw [foldl_elocRound s ha]
        simp only [hiff]
        split <;> rfl
  exact hrun npar le_rfl

/-- The polynomial is the product of the locator and the syndromes, cut off. -/
theorem polyOf_elocPoly {npar : ℕ} (hnpar : npar < maxPoly) {S Ω : gf256.Elem[X]}
    (hS : ∀ j < npar, S.coeff j = ⟨s (j + 1)⟩) (hkey : X ^ npar ∣ polyOf gf256 sigma * S - Ω)
    (hΩ : Ω.degree < (npar : WithBot ℕ)) : polyOf gf256 (elocPoly s sigma npar) = Ω := by
  ext1 k
  rw [coeff_polyOf, elocPoly_eq s sigma hnpar]
  by_cases hk : k < npar
  · have hcoeff := X_pow_dvd_iff.mp hkey k hk
    rw [coeff_sub, sub_eq_zero, coeff_mul, Finset.Nat.sum_antidiagonal_eq_sum_range_succ
      fun i j => (polyOf gf256 sigma).coeff i * S.coeff j] at hcoeff
    have hzero : ∀ i ∈ Finset.range npar, i ∉ Finset.range (k + 1) →
        (if i ≤ k ∧ k < npar then (⟨sigma i⟩ : gf256.Elem) * ⟨s (k - i + 1)⟩ else 0) = 0 := by
      intro i _ hi
      exact if_neg fun h => hi (Finset.mem_range.mpr (by omega))
    have hsub : Finset.range (k + 1) ⊆ Finset.range npar := by simpa using hk
    rw [if_pos (by omega), ← hcoeff, ← Finset.sum_subset hsub hzero]
    refine Finset.sum_congr rfl fun i hi => ?_
    have hi := Finset.mem_range.mp hi
    rw [if_pos ⟨by omega, hk⟩, coeff_polyOf, if_pos (by omega), hS _ (by omega)]
  · rw [coeff_eq_zero_of_degree_lt (hΩ.trans_le (by exact_mod_cast not_lt.mp hk))]
    have hzero : ∀ i ∈ Finset.range npar,
        (if i ≤ k ∧ k < npar then (⟨sigma i⟩ : gf256.Elem) * ⟨s (k - i + 1)⟩ else 0) = 0 :=
      fun i _ => if_neg fun h => hk h.2
    rw [Finset.sum_eq_zero hzero, ite_self]

/-- Odd numbers are 1 in the field, even ones 0. -/
theorem natCast_elem (n : ℕ) : (n : gf256.Elem) = if n % 2 = 0 then 0 else 1 := by
  induction n with
  | zero => simp
  | succ n ih =>
    rw [Nat.cast_succ, ih]
    rcases Nat.mod_two_eq_zero_or_one n with h | h
    · have : (n + 1) % 2 = 1 := by omega
      simp [h, this]
    · have : (n + 1) % 2 = 0 := by omega
      simp only [h, this, one_ne_zero, if_false, if_true]
      exact LogField.Elem.ext (BitVec.xor_self)

theorem polyOf_sigmaDeriv : polyOf gf256 (sigmaDeriv sigma) = derivative (polyOf gf256 sigma) := by
  ext1 k
  rw [coeff_derivative, coeff_polyOf, coeff_polyOf, sigmaDeriv, ← Nat.cast_succ, natCast_elem, Nat.succ_eq_add_one]
  by_cases hk : k + 1 < maxPoly
  · rcases Nat.mod_two_eq_zero_or_one k with h | h
    · have : (k + 1) % 2 = 1 := by omega
      simp [hk, h, this, show k < maxPoly by omega]
    · have : (k + 1) % 2 = 0 := by omega
      simp only [hk, h, this, show k < maxPoly by omega, one_ne_zero, false_and, if_false, if_true, mul_zero]
      rfl
  · simp only [hk, and_false, if_false, zero_mul]
    split <;> rfl

end Evaluator

/-! ### Correcting a block -/

/-- What is added to the byte of power `i`. -/
def fixAt (sigma deriv omega : Poly 8) (i : ℕ) : BitVec 8 :=
  if polyEval gf256 sigma (gf256.exp (255 - i)) = 0#8 then
    gf256.exp ((255 - gf256.log (polyEval gf256 deriv (gf256.exp (255 - i))) +
      gf256.log (polyEval gf256 omega (gf256.exp (255 - i)))) % 255)
  else 0#8

/-- Each byte is looked at once. -/
theorem foldl_correctByte (sigma deriv omega : Poly 8) {bs : ℕ} (data : ℕ → BitVec 8) (k : ℕ) : ∀ n ≤ bs,
    (List.range n).foldl (correctByte sigma deriv omega bs) data k =
      if bs - n ≤ k ∧ k < bs then data k ^^^ fixAt sigma deriv omega (bs - 1 - k) else data k := by
  intro n
  induction n with
  | zero =>
    intro _
    rw [List.range_zero, List.foldl_nil, if_neg (by omega)]
  | succ n ih =>
    intro hn
    have ih := ih (by omega)
    rw [List.range_succ, List.foldl_append, List.foldl_cons, List.foldl_nil]
    generalize (List.range n).foldl (correctByte sigma deriv omega bs) data = data' at ih
    by_cases hk : k = bs - n - 1
    · subst hk
      rw [if_neg (by omega)] at ih
      rw [if_pos (by omega), show bs - 1 - (bs - n - 1) = n by omega, fixAt, correctByte]
      dsimp only
      split
      · rw [Function.update_self, ih]
      · rw [ih, BitVec.xor_zero]
    · have hiff : (bs - (n + 1) ≤ k ∧ k < bs) ↔ (bs - n ≤ k ∧ k < bs) := by omega
      simp only [hiff, ← ih, correctByte]
      split
      · rw [Function.update_of_ne hk]
      · rfl

theorem lt_order {data code : ℕ → BitVec 8} {bs : ℕ} (hbs : bs ≤ 255) :
    ∀ k ∈ errorPlaces data bs code, k < gf256.p :=
  fun _ hk => (mem_errorPlaces.mp hk).1.trans_le hbs

section Correction
variable {data code : ℕ → BitVec 8} {bs npar : ℕ} (hcode : CodeBlock bs npar code) (hbs : bs ≤ 255)
  (hnpar : npar < maxPoly) (hcard : 2 * (errorPlaces data bs code).card ≤ npar)
include hcode hbs hnpar hcard

/-- The locator and, when there are errors, the evaluator. -/
theorem sigma_omega_eq {s : Poly 8} (hs : ∀ i < npar, s i = blockSyndrome data bs i) :
    polyOf gf256 (berlekampMassey gf256 s npar) = locator (fun k => gf256.base ^ k) (errorPlaces data bs code) ∧
      ((errorPlaces data bs code).Nonempty →
        polyOf gf256 (elocPoly s (berlekampMassey gf256 s npar) (npar - 1)) =
          evaluator (fun k => gf256.base ^ k) (fun k => errorAt data code bs k * gf256.base ^ k)
            (errorPlaces data bs code)) := by
  have hsigma := sigma_eq_locator (s := s) (lt_order hbs)
    (fun k hk => errorAt_ne hk) hnpar hcard fun j hj => by rw [hs j hj]; exact syndrome_errors hcode hj
  refine ⟨hsigma, fun hne => ?_⟩
  have hpos := hne.card_pos
  have hshift : ∀ j < npar - 1, (∑ i ∈ Finset.range npar, monomial i (⟨s (i + 1)⟩ : gf256.Elem)).coeff j =
      ⟨s (j + 1)⟩ := by
    intro j hj
    have hj' : j < npar := by omega
    simp only [finsetSum_coeff, coeff_monomial, Finset.sum_ite_eq', Finset.mem_range, hj', if_true]
  refine polyOf_elocPoly s _ (by omega) hshift ?_ ((degree_evaluator_lt _ _ _).trans_le ?_)
  · rw [hsigma]
    refine key_equation _ _ _ fun j hj => ?_
    rw [hshift j hj, hs _ (by omega), syndrome_errors hcode (by omega)]
    exact Finset.sum_congr rfl fun k _ => by rw [pow_succ']; ring
  · have hle : (errorPlaces data bs code).card ≤ npar - 1 := by omega
    exact_mod_cast hle

/-- What is added to a byte is what makes it the byte of the codeword. -/
theorem fixAt_eq {s : Poly 8} (hs : ∀ i < npar, s i = blockSyndrome data bs i) {i : ℕ} (hi : i < bs) :
    fixAt (berlekampMassey gf256 s npar) (sigmaDeriv (berlekampMassey gf256 s npar))
      (elocPoly s (berlekampMassey gf256 s npar) (npar - 1)) i = data (bs - i - 1) ^^^ code (bs - i - 1) := by
  have hE : ∀ k ∈ errorPlaces data bs code, k < gf256.p := lt_order hbs
  obtain ⟨hsigma, homega⟩ := sigma_omega_eq hcode hbs hnpar hcard hs
  have hxinv : (⟨gf256.exp (255 - i)⟩ : gf256.Elem) = (gf256.base ^ i)⁻¹ := exp_sub_eq_inv rfl (hi.trans_le hbs)
  have hroot : polyEval gf256 (berlekampMassey gf256 s npar) (gf256.exp (255 - i)) = 0#8 ↔
      i ∈ errorPlaces data bs code := by
    rw [← eval_locator_base hE (hi.trans_le hbs), ← hsigma, ← hxinv, ← polyEval_eq]
    exact ⟨fun h => LogField.Elem.ext h, congrArg LogField.Elem.val⟩
  rw [fixAt]
  by_cases hmem : i ∈ errorPlaces data bs code
  · rw [if_pos (hroot.mpr hmem)]
    have hinj : Set.InjOn (fun k : ℕ => gf256.base ^ k) (errorPlaces data bs code) := base_pow_injOn.mono hE
    have hx : ∀ k ∈ errorPlaces data bs code, gf256.base ^ k ≠ 0 := fun k _ => base_pow_ne k
    -- the values of the derivative and of the evaluator at the root
    have hsd := polyEval_eq gf256 (sigmaDeriv (berlekampMassey gf256 s npar)) (gf256.exp (255 - i))
    have hom := polyEval_eq gf256 (elocPoly s (berlekampMassey gf256 s npar) (npar - 1)) (gf256.exp (255 - i))
    rw [polyOf_sigmaDeriv, hsigma, hxinv] at hsd
    rw [homega ⟨i, hmem⟩, hxinv, eval_evaluator_eq hx hmem, ← hsd] at hom
    have hsd0 := eval_derivative_ne hx hinj hmem
    rw [← hsd] at hsd0
    generalize polyEval gf256 (sigmaDeriv (berlekampMassey gf256 s npar)) (gf256.exp (255 - i)) = sdX at hom hsd0 ⊢
    generalize polyEval gf256 (elocPoly s (berlekampMassey gf256 s npar) (npar - 1)) (gf256.exp (255 - i)) = omegaX
      at hom ⊢
    have hne : (⟨omegaX⟩ : gf256.Elem) ≠ 0 := by
      rw [hom]
      exact neg_ne_zero.mpr (mul_ne_zero (errorAt_ne hmem) hsd0)
    have hom0 : omegaX ≠ 0#8 := LogField.val_ne_zero hne
    have herror : errorAt data code bs i = ⟨gf256.times₂ (gf256.inverse sdX) omegaX⟩ := by
      have hmul : (⟨gf256.times₂ (gf256.inverse sdX) omegaX⟩ : gf256.Elem) = (⟨sdX⟩ : gf256.Elem)⁻¹ * ⟨omegaX⟩ := rfl
      rw [hmul, hom, neg_elem, mul_comm (errorAt data code bs i), inv_mul_cancel_left₀ hsd0]
    refine Eq.trans ?_ (congrArg LogField.Elem.val herror).symm
    have hsd0' : sdX ≠ 0#8 := LogField.val_ne_zero hsd0
    rw [LogField.inverse, if_neg hsd0']
    nth_rewrite 2 [← gf256.power_log hom0]
    rw [gf256.times₂_power]
    rfl
  · rw [if_neg fun h => hmem (hroot.mp h)]
    have heq : data (bs - i - 1) = code (bs - i - 1) := by
      by_contra hne
      exact hmem (mem_errorPlaces.mpr ⟨hi, hne⟩)
    rw [heq, BitVec.xor_self]

end Correction

theorem codeBlock_congr {data data' : ℕ → BitVec 8} {bs npar : ℕ} (h : ∀ k < bs, data' k = data k) :
    CodeBlock bs npar data' ↔ CodeBlock bs npar data := by
  refine forall_congr' fun i => imp_congr_right fun _ => ?_
  have hsum : ∀ j ∈ Finset.range bs, (⟨data' (bs - j - 1)⟩ : gf256.Elem) * (gf256.base ^ j) ^ i =
      ⟨data (bs - j - 1)⟩ * (gf256.base ^ j) ^ i := fun j hj => by
    rw [h _ (by have := Finset.mem_range.mp hj; omega)]
  rw [Finset.sum_congr rfl hsum]

/-- Check bytes can be put behind any data bytes. -/
theorem exists_codeBlock (data : ℕ → BitVec 8) {bs npar : ℕ} (hle : npar ≤ bs) :
    ∃ code, CodeBlock bs npar code ∧ ∀ k < bs - npar, code k = data k := by
  obtain ⟨c, hroots, hdata⟩ := exists_multiple (fun i => gf256.base ^ i)
    (fun j => (⟨data (bs - j - 1)⟩ : gf256.Elem)) hle
  refine ⟨fun k => (c (bs - 1 - k)).val, fun i hi => ?_, fun k hk => ?_⟩
  · refine Eq.trans (Finset.sum_congr rfl fun j hj => ?_) (hroots i hi)
    have hj := Finset.mem_range.mp hj
    have hback : bs - 1 - (bs - j - 1) = j := by omega
    rw [pow_right_comm]
    simp only [hback]
  · have hplace : bs - (bs - 1 - k) - 1 = k := by omega
    simp only [hdata (bs - 1 - k) (by omega) (by omega), hplace]

/-- A block with at most half as many wrong bytes as there are check bytes becomes the codeword. -/
theorem correctBlock_eq {data code : ℕ → BitVec 8} {ecc : RsParams} (hcode : CodeBlock ecc.bs (ecc.bs - ecc.dw) code)
    (hbs : ecc.bs ≤ 255) (hnpar : ecc.bs - ecc.dw < maxPoly)
    (hcard : 2 * (errorPlaces data ecc.bs code).card ≤ ecc.bs - ecc.dw) :
    (correctBlock data ecc).1 = true ∧ ∀ k,
      (correctBlock data ecc).2 k = if k < ecc.bs then code k else data k := by
  rw [correctBlock]
  dsimp only
  split
  case isTrue =>
    have hs : ∀ i < ecc.bs - ecc.dw, (blockSyndromes data ecc.bs (ecc.bs - ecc.dw)).2 i = blockSyndrome data ecc.bs i :=
      fun i hi => if_pos hi
    generalize (blockSyndromes data ecc.bs (ecc.bs - ecc.dw)).2 = s at hs ⊢
    have hdata : ∀ k, (List.range ecc.bs).foldl (correctByte (berlekampMassey gf256 s (ecc.bs - ecc.dw))
        (sigmaDeriv (berlekampMassey gf256 s (ecc.bs - ecc.dw)))
        (elocPoly s (berlekampMassey gf256 s (ecc.bs - ecc.dw)) (ecc.bs - ecc.dw - 1)) ecc.bs) data k =
          if k < ecc.bs then code k else data k := by
      intro k
      rw [foldl_correctByte _ _ _ data k ecc.bs le_rfl, Nat.sub_self]
      by_cases hk : k < ecc.bs
      · rw [if_pos ⟨k.zero_le, hk⟩, if_pos hk, fixAt_eq hcode hbs hnpar hcard hs (by omega),
          show ecc.bs - (ecc.bs - 1 - k) - 1 = k by omega, ← BitVec.xor_assoc, BitVec.xor_self, BitVec.zero_xor]
      · rw [if_neg fun h => hk h.2, if_neg hk]
    refine ⟨?_, hdata⟩
    rw [Bool.not_eq_true', blockSyndromes_false_iff]
    exact (codeBlock_congr fun k hk => by rw [hdata k, if_pos hk]).mpr hcode
  case isFalse hzero =>
    -- no syndrome tells of an error, and so there is none
    refine ⟨rfl, fun k => ?_⟩
    split
    case isTrue hk =>
      by_contra hne
      have hmem : ecc.bs - 1 - k ∈ errorPlaces data ecc.bs code := mem_errorPlaces.mpr
        ⟨by omega, by rwa [show ecc.bs - (ecc.bs - 1 - k) - 1 = k by omega]⟩
      obtain ⟨j, hj, hsum⟩ := exists_syndrome_ne (lt_order hbs) (fun k hk => errorAt_ne hk) hcard ⟨_, hmem⟩
      rw [← syndrome_errors hcode hj, blockSyndrome_eq] at hsum
      exact hsum ((blockSyndromes_false_iff ..).mp (Bool.eq_false_iff.mpr hzero) j hj)
    case isFalse => rfl

/-- Whatever comes in: a block that is reported to be right is a codeword. -/
theorem codeBlock_of_correctBlock {data : ℕ → BitVec 8} {ecc : RsParams} (h : (correctBlock data ecc).1 = true) :
    CodeBlock ecc.bs (ecc.bs - ecc.dw) (correctBlock data ecc).2 := by
  rw [correctBlock] at h ⊢
  dsimp only at h ⊢
  split at h
  case isTrue hnz =>
    rw [if_pos hnz]
    exact (blockSyndromes_false_iff ..).mp (by simpa using h)
  case isFalse hzero =>
    rw [if_neg hzero]
    exact (blockSyndromes_false_iff ..).mp (Bool.eq_false_iff.mpr hzero)

/-! ### The format -/

/-- The fifteen bits have the first six powers of the base as roots. -/
def FormatWord (u : BitVec 16) : Prop := ∀ i < 6, formatSyndrome u i = 0#4

instance (u : BitVec 16) : Decidable (FormatWord u) := by unfold FormatWord; infer_instance

theorem formatSyndrome_eq (u : BitVec 16) (i : ℕ) : (⟨formatSyndrome u i⟩ : gf16.Elem) =
    ∑ j ∈ Finset.range 15, if u.getLsbD j then (gf16.base ^ j) ^ (i + 1) else 0 := by
  have hrun : ∀ n, (⟨(List.range n).foldl (fun s j =>
      if u.getLsbD j then s ^^^ gf16.exp ((i + 1) * j % 15) else s) 0#4⟩ : gf16.Elem) =
      ∑ j ∈ Finset.range n, if u.getLsbD j then (gf16.base ^ j) ^ (i + 1) else 0 := by
    intro n
    induction n with
    | zero => rfl
    | succ n ih =>
      rw [List.range_succ, List.foldl_append, List.foldl_cons, List.foldl_nil, Finset.sum_range_succ, ← ih]
      by_cases h : u.getLsbD n
      · have hpow : ((gf16.base ^ n) ^ (i + 1)).val = gf16.exp ((i + 1) * n % 15) := by
          rw [← pow_mul, gf16.val_base_pow, Nat.mul_comm]
          rfl
        rw [if_pos h, if_pos h, ← hpow]
        rfl
      · rw [if_neg h, if_neg h, add_zero]
  exact hrun 15

theorem formatSyndromes_false_iff (u : BitVec 16) : (formatSyndromes u).1 = false ↔ FormatWord u := by
  simp only [formatSyndromes, List.any_eq_false, List.mem_range, bne_iff_ne, not_not, FormatWord]

/-- The bits that are not those of the codeword. -/
def formatErrors (u code : BitVec 16) : Finset ℕ := (Finset.range 15).filter fun j => u.getLsbD j ≠ code.getLsbD j

theorem mem_formatErrors {u code : BitVec 16} {j : ℕ} :
    j ∈ formatErrors u code ↔ j < 15 ∧ u.getLsbD j ≠ code.getLsbD j := by
  rw [formatErrors, Finset.mem_filter, Finset.mem_range]

theorem formatErrors_lt {u code : BitVec 16} : ∀ k ∈ formatErrors u code, k < gf16.p :=
  fun _ hk => (mem_formatErrors.mp hk).1

theorem formatSyndrome_errors {u code : BitVec 16} (hcode : FormatWord code) {i : ℕ} (hi : i < 6) :
    (⟨formatSyndrome u i⟩ : gf16.Elem) = ∑ j ∈ formatErrors u code, gf16.base ^ j * (gf16.base ^ j) ^ i := by
  have hzero : (∑ j ∈ Finset.range 15, if code.getLsbD j then (gf16.base ^ j) ^ (i + 1) else 0) = 0 := by
    rw [← formatSyndrome_eq]
    exact LogField.Elem.ext (hcode i hi)
  refine (formatSyndrome_eq u i).trans ?_
  refine (add_zero _).symm.trans ((congrArg _ hzero.symm).trans ?_)
  rw [← Finset.sum_add_distrib, formatErrors, Finset.sum_filter]
  refine Finset.sum_congr rfl fun j _ => ?_
  rw [pow_succ' (gf16.base ^ j)]
  have htwice : gf16.base ^ j * (gf16.base ^ j) ^ i + gf16.base ^ j * (gf16.base ^ j) ^ i = 0 :=
    LogField.Elem.ext BitVec.xor_self
  cases u.getLsbD j <;> cases code.getLsbD j <;> simp [htwice]

/-- The loop that turns the bits at the roots over. -/
theorem getLsbD_foldl_flip (p : ℕ → Prop) [DecidablePred p] (u : BitVec 16) (k : ℕ) : ∀ n ≤ 16,
    ((List.range n).foldl (fun u i => if p i then u ^^^ 1#16 <<< i else u) u).getLsbD k =
      (u.getLsbD k ^^ decide (k < n ∧ p k)) := by
  intro n
  induction n with
  | zero => intro _; simp
  | succ n ih =>
    intro hn
    have ih := ih (by omega)
    rw [List.range_succ, List.foldl_append, List.foldl_cons, List.foldl_nil]
    generalize (List.range n).foldl (fun u i => if p i then u ^^^ 1#16 <<< i else u) u = u' at ih
    have hbit : (1#16 <<< n).getLsbD k = decide (k = n) := by
      rw [← BitVec.twoPow_eq, BitVec.getLsbD_twoPow]
      have : n < 16 := by omega
      simp [this, eq_comm]
    by_cases hp : p n
    · rw [if_pos hp, BitVec.getLsbD_xor, ih, hbit]
      rcases lt_trichotomy k n with hk | rfl | hk
      · have : k < n + 1 := by omega
        simp [hk, hk.ne, this]
      · simp [hp]
      · have h1 : ¬ k < n := by omega
        have h2 : ¬ k < n + 1 := by omega
        simp [h1, h2, hk.ne']
    · rw [if_neg hp, ih]
      rcases lt_trichotomy k n with hk | rfl | hk
      · have : k < n + 1 := by omega
        simp [hk, this]
      · simp [hp]
      · have h1 : ¬ k < n := by omega
        have h2 : ¬ k < n + 1 := by omega
        simp [h1, h2]

/-- A format with at most three wrong bits becomes the codeword. -/
theorem correctFormat_eq {u code : BitVec 16} (hcode : FormatWord code) (hcard : (formatErrors u code).card ≤ 3)
    (htop : u.getLsbD 15 = code.getLsbD 15) : correctFormat u = some code := by
  have hne : ∀ k ∈ formatErrors u code, gf16.base ^ k ≠ 0 := fun k _ => base_pow_ne k
  have heq : formatErrors u code = ∅ → u = code := by
    intro hempty
    refine BitVec.eq_of_getLsbD_eq fun j hj => ?_
    rcases Nat.lt_succ_iff_lt_or_eq.mp hj with hj | rfl
    · by_contra h
      exact absurd (mem_formatErrors.mpr ⟨hj, h⟩) (by simp [hempty])
    · exact htop
  rw [correctFormat]
  dsimp only
  split
  case isTrue =>
    have hs : ∀ i < 6, (formatSyndromes u).2 i = formatSyndrome u i := fun i hi => if_pos hi
    generalize (formatSyndromes u).2 = s at hs ⊢
    have hsigma := sigma_eq_locator (s := s) formatErrors_lt hne (by decide : 6 < maxPoly) (by omega)
      fun j hj => by rw [hs j hj]; exact formatSyndrome_errors hcode hj
    have hroot : ∀ i < 15, polyEval gf16 (berlekampMassey gf16 s 6) (gf16.exp (15 - i)) = 0#4 ↔
        i ∈ formatErrors u code := by
      intro i hi
      have hxinv : (⟨gf16.exp (15 - i)⟩ : gf16.Elem) = (gf16.base ^ i)⁻¹ := exp_sub_eq_inv rfl hi
      rw [← eval_locator_base formatErrors_lt hi, ← hsigma, ← hxinv, ← polyEval_eq]
      exact ⟨fun h => LogField.Elem.ext h, congrArg LogField.Elem.val⟩
    have hfixed : (List.range 15).foldl (fun u i =>
        if polyEval gf16 (berlekampMassey gf16 s 6) (gf16.exp (15 - i)) = 0#4 then u ^^^ 1#16 <<< i else u) u =
          code := by
      refine BitVec.eq_of_getLsbD_eq fun j hj => ?_
      rw [getLsbD_foldl_flip (fun i => polyEval gf16 (berlekampMassey gf16 s 6) (gf16.exp (15 - i)) = 0#4) u j 15
        (by decide)]
      rcases Nat.lt_succ_iff_lt_or_eq.mp hj with hj | rfl
      · simp only [hj, hroot j hj, mem_formatErrors, true_and]
        cases u.getLsbD j <;> cases code.getLsbD j <;> rfl
      · simpa using htop
    have hright : (formatSyndromes code).1 = false := (formatSyndromes_false_iff code).mpr hcode
    rw [hfixed, hright]
    rfl
  case isFalse hzero =>
    refine congrArg some (heq ?_)
    by_contra hempty
    obtain ⟨j, hj, hsum⟩ := exists_syndrome_ne (N := 6) formatErrors_lt hne (by omega)
      (Finset.nonempty_iff_ne_empty.mpr hempty)
    rw [← formatSyndrome_errors hcode hj] at hsum
    exact hsum (LogField.Elem.ext ((formatSyndromes_false_iff u).mp (Bool.eq_false_iff.mpr hzero) j hj))

end OpenMV.Vision
