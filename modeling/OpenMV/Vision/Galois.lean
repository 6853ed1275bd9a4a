import Mathlib.Algebra.Polynomial.Eval.Degree
import OpenMV.Schemes.KeyEquation
import OpenMV.Schemes.LogField

/-! Polynomials over Galois fields | scheme:invariant | source:src/src/openmv/omv/img/qrcode.c

    The decoder of QR codes calculates in fields of 16 and of 256 elements, by tables of logarithms. Polynomials are
    arrays of `MAX_POLY` coefficients. `berlekamp_massey` finds the error locator from the syndromes. -/

namespace OpenMV.Vision
open Schemes

/-! ### The tables -/

def gf16Exp : List ℕ :=
  [0x01, 0x02, 0x04, 0x08, 0x03, 0x06, 0x0c, 0x0b, 0x05, 0x0a, 0x07, 0x0e, 0x0f, 0x0d, 0x09, 0x01]

def gf16Log : List ℕ :=
  [0x00, 0x0f, 0x01, 0x04, 0x02, 0x08, 0x05, 0x0a, 0x03, 0x0e, 0x09, 0x07, 0x06, 0x0d, 0x0b, 0x0c]

def gf256Exp : List ℕ :=
  [0x01, 0x02, 0x04, 0x08, 0x10, 0x20, 0x40, 0x80, 0x1d, 0x3a, 0x74, 0xe8, 0xcd, 0x87, 0x13, 0x26, 0x4c, 0x98,
   0x2d, 0x5a, 0xb4, 0x75, 0xea, 0xc9, 0x8f, 0x03, 0x06, 0x0c, 0x18, 0x30, 0x60, 0xc0, 0x9d, 0x27, 0x4e, 0x9c,
   0x25, 0x4a, 0x94, 0x35, 0x6a, 0xd4, 0xb5, 0x77, 0xee, 0xc1, 0x9f, 0x23, 0x46, 0x8c, 0x05, 0x0a, 0x14, 0x28,
   0x50, 0xa0, 0x5d, 0xba, 0x69, 0xd2, 0xb9, 0x6f, 0xde, 0xa1, 0x5f, 0xbe, 0x61, 0xc2, 0x99, 0x2f, 0x5e, 0xbc,
   0x65, 0xca, 0x89, 0x0f, 0x1e, 0x3c, 0x78, 0xf0, 0xfd, 0xe7, 0xd3, 0xbb, 0x6b, 0xd6, 0xb1, 0x7f, 0xfe, 0xe1,
   0xdf, 0xa3, 0x5b, 0xb6, 0x71, 0xe2, 0xd9, 0xaf, 0x43, 0x86, 0x11, 0x22, 0x44, 0x88, 0x0d, 0x1a, 0x34, 0x68,
   0xd0, 0xbd, 0x67, 0xce, 0x81, 0x1f, 0x3e, 0x7c, 0xf8, 0xed, 0xc7, 0x93, 0x3b, 0x76, 0xec, 0xc5, 0x97, 0x33,
   0x66, 0xcc, 0x85, 0x17, 0x2e, 0x5c, 0xb8, 0x6d, 0xda, 0xa9, 0x4f, 0x9e, 0x21, 0x42, 0x84, 0x15, 0x2a, 0x54,
   0xa8, 0x4d, 0x9a, 0x29, 0x52, 0xa4, 0x55, 0xaa, 0x49, 0x92, 0x39, 0x72, 0xe4, 0xd5, 0xb7, 0x73, 0xe6, 0xd1,
   0xbf, 0x63, 0xc6, 0x91, 0x3f, 0x7e, 0xfc, 0xe5, 0xd7, 0xb3, 0x7b, 0xf6, 0xf1, 0xff, 0xe3, 0xdb, 0xab, 0x4b,
   0x96, 0x31, 0x62, 0xc4, 0x95, 0x37, 0x6e, 0xdc, 0xa5, 0x57, 0xae, 0x41, 0x82, 0x19, 0x32, 0x64, 0xc8, 0x8d,
   0x07, 0x0e, 0x1c, 0x38, 0x70, 0xe0, 0xdd, 0xa7, 0x53, 0xa6, 0x51, 0xa2, 0x59, 0xb2, 0x79, 0xf2, 0xf9, 0xef,
   0xc3, 0x9b, 0x2b, 0x56, 0xac, 0x45, 0x8a, 0x09, 0x12, 0x24, 0x48, 0x90, 0x3d, 0x7a, 0xf4, 0xf5, 0xf7, 0xf3,
   0xfb, 0xeb, 0xcb, 0x8b, 0x0b, 0x16, 0x2c, 0x58, 0xb0, 0x7d, 0xfa, 0xe9, 0xcf, 0x83, 0x1b, 0x36, 0x6c, 0xd8,
   0xad, 0x47, 0x8e, 0x01]

def gf256Log : List ℕ :=
  [0x00, 0xff, 0x01, 0x19, 0x02, 0x32, 0x1a, 0xc6, 0x03, 0xdf, 0x33, 0xee, 0x1b, 0x68, 0xc7, 0x4b, 0x04, 0x64,
   0xe0, 0x0e, 0x34, 0x8d, 0xef, 0x81, 0x1c, 0xc1, 0x69, 0xf8, 0xc8, 0x08, 0x4c, 0x71, 0x05, 0x8a, 0x65, 0x2f,
   0xe1, 0x24, 0x0f, 0x21, 0x35, 0x93, 0x8e, 0xda, 0xf0, 0x12, 0x82, 0x45, 0x1d, 0xb5, 0xc2, 0x7d, 0x6a, 0x27,
   0xf9, 0xb9, 0xc9, 0x9a, 0x09, 0x78, 0x4d, 0xe4, 0x72, 0xa6, 0x06, 0xbf, 0x8b, 0x62, 0x66, 0xdd, 0x30, 0xfd,
   0xe2, 0x98, 0x25, 0xb3, 0x10, 0x91, 0x22, 0x88, 0x36, 0xd0, 0x94, 0xce, 0x8f, 0x96, 0xdb, 0xbd, 0xf1, 0xd2,
   0x13, 0x5c, 0x83, 0x38, 0x46, 0x40, 0x1e, 0x42, 0xb6, 0xa3, 0xc3, 0x48, 0x7e, 0x6e, 0x6b, 0x3a, 0x28, 0x54,
   0xfa, 0x85, 0xba, 0x3d, 0xca, 0x5e, 0x9b, 0x9f, 0x0a, 0x15, 0x79, 0x2b, 0x4e, 0xd4, 0xe5, 0xac, 0x73, 0xf3,
   0xa7, 0x57, 0x07, 0x70, 0xc0, 0xf7, 0x8c, 0x80, 0x63, 0x0d, 0x67, 0x4a, 0xde, 0xed, 0x31, 0xc5, 0xfe, 0x18,
   0xe3, 0xa5, 0x99, 0x77, 0x26, 0xb8, 0xb4, 0x7c, 0x11, 0x44, 0x92, 0xd9, 0x23, 0x20, 0x89, 0x2e, 0x37, 0x3f,
   0xd1, 0x5b, 0x95, 0xbc, 0xcf, 0xcd, 0x90, 0x87, 0x97, 0xb2, 0xdc, 0xfc, 0xbe, 0x61, 0xf2, 0x56, 0xd3, 0xab,
   0x14, 0x2a, 0x5d, 0x9e, 0x84, 0x3c, 0x39, 0x53, 0x47, 0x6d, 0x41, 0xa2, 0x1f, 0x2d, 0x43, 0xd8, 0xb7, 0x7b,
   0xa4, 0x76, 0xc4, 0x17, 0x49, 0xec, 0x7f, 0x0c, 0x6f, 0xf6, 0x6c, 0xa1, 0x3b, 0x52, 0x29, 0x9d, 0x55, 0xaa,
   0xfb, 0x60, 0x86, 0xb1, 0xbb, 0xcc, 0x3e, 0x5a, 0xcb, 0x59, 0x5f, 0xb0, 0x9c, 0xa9, 0xa0, 0x51, 0x0b, 0xf5,
   0x16, 0xeb, 0x7a, 0x75, 0x2c, 0xd7, 0x4f, 0xae, 0xd5, 0xe9, 0xe6, 0xe7, 0xad, 0xe8, 0x74, 0xd6, 0xf4, 0xea,
   0xa8, 0x50, 0x58, 0xaf]

/-- Multiplication by the base: a shift, and the generator polynomial when a bit falls out. -/
def shiftBy {w : ℕ} (generator a : BitVec w) : BitVec w := a <<< 1 ^^^ if a.msb then generator else 0#w

theorem shiftBy_xor {w : ℕ} (generator a b : BitVec w) :
    shiftBy generator (a ^^^ b) = shiftBy generator a ^^^ shiftBy generator b := by
  simp only [shiftBy, BitVec.shiftLeft_xor_distrib, BitVec.msb_xor]
  generalize a <<< 1 = x, b <<< 1 = y
  ext i hi
  cases a.msb <;> cases b.msb <;> cases hx : x[i] <;> cases hy : y[i] <;> cases hg : generator[i] <;> simp [hx, hy, hg]

/-- What has to be computed to know that two tables are inverse to each other, and that each entry of the one comes
    from the entry before it by a shift. -/
structure TablesOk (w p : ℕ) (generator : BitVec w) (exp log : ℕ → ℕ) : Prop where
  exp_ne : ∀ i < p, exp i ≠ 0
  exp_log : ∀ a < 2 ^ w, a ≠ 0 → exp (log a % p) = a
  log_exp : ∀ i < p, log (exp i) % p = i
  shift_exp : ∀ i < p, shiftBy generator (BitVec.ofNat w (exp i)) = BitVec.ofNat w (exp ((i + 1) % p))

/-- A field whose tables are packed for the computation. -/
def fieldOf {w : ℕ} (expTable logTable : List ℕ) (generator : BitVec w) (hw : 1 < 2 ^ w - 1)
    (hexp : ∀ a ∈ expTable, a < 2 ^ w) (hlog : ∀ a ∈ logTable, a < 2 ^ w) (hzero : expTable.getD 0 0 = 1)
    (hok : TablesOk w (2 ^ w - 1) generator (fun i => packTable w expTable / 2 ^ (w * i) % 2 ^ w)
      (fun i => packTable w logTable / 2 ^ (w * i) % 2 ^ w)) : LogField w where
  p := 2 ^ w - 1
  log a := logTable.getD a.toNat 0
  exp i := BitVec.ofNat w (expTable.getD i 0)
  times := shiftBy generator
  one_lt := hw
  log_le a := by
    rw [getD_eq_packed hlog]
    exact Nat.le_sub_one_of_lt (Nat.mod_lt _ (Nat.two_pow_pos w))
  exp_zero := by rw [hzero]
  exp_ne i hi h := by
    rw [getD_eq_packed hexp, ← BitVec.toNat_inj, BitVec.toNat_ofNat, Nat.mod_mod] at h
    exact hok.exp_ne i hi (h.trans (BitVec.toNat_ofNat ..))
  exp_log a ha := by
    have hne : a.toNat ≠ 0 := fun h => ha (BitVec.toNat_inj.mp h)
    rw [getD_eq_packed hexp, getD_eq_packed hlog, hok.exp_log a.toNat a.isLt hne, BitVec.ofNat_toNat,
      BitVec.setWidth_eq]
  log_exp i hi := by
    rw [getD_eq_packed hexp, getD_eq_packed hlog, BitVec.toNat_ofNat, Nat.mod_mod]
    exact hok.log_exp i hi
  times_exp i hi := by
    rw [getD_eq_packed hexp, getD_eq_packed hexp]
    exact hok.shift_exp i hi
  times_xor := shiftBy_xor generator

/-- `gf16`: the generator polynomial is `x^4 + x + 1`. -/
def gf16 : LogField 4 :=
  fieldOf gf16Exp gf16Log 3 (by decide) (by decide) (by decide) rfl
    ⟨by decide, by decide, by decide, by decide⟩

/-- `gf256`: the generator polynomial is `x^8 + x^4 + x^3 + x^2 + 1`. -/
def gf256 : LogField 8 :=
  fieldOf gf256Exp gf256Log 0x1d (by decide) (by decide +kernel) (by decide +kernel) rfl
    ⟨by decide +kernel, by decide +kernel, by decide +kernel, by decide +kernel⟩

/-! ### The code -/

def maxPoly : ℕ := 64

/-- An array of coefficients. -/
abbrev Poly (w : ℕ) := ℕ → BitVec w

section Code
variable {w : ℕ} (gf : LogField w)

/-- A round of the loop of `poly_add`. -/
def polyAddRound (src : Poly w) (logC shift : ℕ) (dst : Poly w) (i : ℕ) : Poly w :=
  let p := i + shift
  let v := src i
  if maxPoly ≤ p then dst
  else if v = 0#w then dst
  else Function.update dst p (dst p ^^^ gf.exp ((gf.log v + logC) % gf.p))

def polyAdd (dst src : Poly w) (c : BitVec w) (shift : ℕ) : Poly w :=
  if c = 0#w then dst else (List.range maxPoly).foldl (polyAddRound gf src (gf.log c) shift) dst

def polyEval (s : Poly w) (x : BitVec w) : BitVec w :=
  if x = 0#w then s 0
  else (List.range maxPoly).foldl (fun sum i =>
    if s i = 0#w then sum else sum ^^^ gf.exp ((gf.log (s i) + gf.log x * i) % gf.p)) 0#w

/-- The variables of `berlekamp_massey`. -/
structure MasseyState (w : ℕ) where
  C : Poly w
  B : Poly w
  L : ℕ
  m : ℕ
  b : BitVec w

/-- `d` of round `n`. -/
def masseyDiscrepancy (s C : Poly w) (L n : ℕ) : BitVec w :=
  (List.range L).foldl (fun d k =>
    let i := k + 1
    if C i ≠ 0#w ∧ s (n - i) ≠ 0#w then d ^^^ gf.exp ((gf.log (C i) + gf.log (s (n - i))) % gf.p) else d) (s n)

def masseyRound (s : Poly w) (st : MasseyState w) (n : ℕ) : MasseyState w :=
  let d := masseyDiscrepancy gf s st.C st.L n
  let mult := gf.exp ((gf.p - gf.log st.b + gf.log d) % gf.p)
  if d = 0#w then { st with m := st.m + 1 }
  else if st.L * 2 ≤ n then
    { C := polyAdd gf st.C st.B mult st.m, B := st.C, L := n + 1 - st.L, m := 1, b := d }
  else { st with C := polyAdd gf st.C st.B mult st.m, m := st.m + 1 }

def masseyStart : MasseyState w :=
  { C := fun i => if i = 0 then 1#w else 0#w, B := fun i => if i = 0 then 1#w else 0#w, L := 0, m := 1, b := 1#w }

/-- `sigma` -/
def berlekampMassey (s : Poly w) (N : ℕ) : Poly w := ((List.range N).foldl (masseyRound gf s) masseyStart).C

end Code

/-! ### What the operations compute -/

open Polynomial

section Operations
variable {w : ℕ} (gf : LogField w)

/-- A product by the tables, where both factors are not zero. -/
theorem exp_log_add {a b : BitVec w} (ha : a ≠ 0#w) (hb : b ≠ 0#w) :
    gf.exp ((gf.log a + gf.log b) % gf.p) = gf.times₂ a b := by
  rw [LogField.times₂, if_neg (by simp [ha, hb]), LogField.power]

theorem foldl_polyAddRound (src dst : Poly w) {c : BitVec w} (hc : c ≠ 0#w) (shift n k : ℕ) :
    (List.range n).foldl (polyAddRound gf src (gf.log c) shift) dst k =
      dst k ^^^ if shift ≤ k ∧ k < shift + n ∧ k < maxPoly then gf.times₂ (src (k - shift)) c else 0#w := by
  induction n with
  | zero => rw [List.range_zero, List.foldl_nil, if_neg (by omega), BitVec.xor_zero]
  | succ n ih =>
    rw [List.range_succ, List.foldl_append, List.foldl_cons, List.foldl_nil]
    generalize (List.range n).foldl (polyAddRound gf src (gf.log c) shift) dst = dst' at ih
    rw [polyAddRound]
    by_cases hk : k = n + shift
    · subst hk
      rw [if_neg (by omega), BitVec.xor_zero] at ih
      by_cases hlt : n + shift < maxPoly
      · have hin : shift ≤ n + shift ∧ n + shift < shift + (n + 1) ∧ n + shift < maxPoly := by omega
        rw [if_neg (by omega), if_pos hin, Nat.add_sub_cancel]
        by_cases hv : src n = 0#w
        · rw [if_pos hv, ih, hv, LogField.zero_times₂, BitVec.xor_zero]
        · rw [if_neg hv, Function.update_self, ih, exp_log_add gf hv hc]
      · rw [if_pos (by omega), if_neg (by omega), ih, BitVec.xor_zero]
    · have hiff : (shift ≤ k ∧ k < shift + (n + 1) ∧ k < maxPoly) ↔ (shift ≤ k ∧ k < shift + n ∧ k < maxPoly) := by
        omega
      simp only [hiff, ← ih]
      split
      · rfl
      · split
        · rfl
        · rw [Function.update_of_ne hk]

/-- `poly_add` adds a multiple of the source, moved up, as far as there is room. -/
theorem polyAdd_apply (dst src : Poly w) (c : BitVec w) (shift k : ℕ) :
    polyAdd gf dst src c shift k =
      dst k ^^^ if shift ≤ k ∧ k < maxPoly then gf.times₂ (src (k - shift)) c else 0#w := by
  rw [polyAdd]
  split
  case isTrue hc => simp [hc, LogField.times₂_zero]
  case isFalse hc =>
    rw [foldl_polyAddRound gf src dst hc]
    congr 1
    have hiff : (shift ≤ k ∧ k < shift + maxPoly ∧ k < maxPoly) ↔ (shift ≤ k ∧ k < maxPoly) := by omega
    simp only [hiff]

/-- The polynomial with these coefficients. -/
noncomputable def polyOf (s : Poly w) : gf.Elem[X] := ∑ i ∈ Finset.range maxPoly, monomial i ⟨s i⟩

theorem coeff_polyOf (s : Poly w) (k : ℕ) : (polyOf gf s).coeff k = if k < maxPoly then ⟨s k⟩ else 0 := by
  simp only [polyOf, finsetSum_coeff, coeff_monomial, Finset.sum_ite_eq', Finset.mem_range]

/-- With room for the degree nothing is cut off. -/
theorem polyOf_polyAdd (dst src : Poly w) (c : BitVec w) {shift : ℕ}
    (hdeg : (X ^ shift * polyOf gf src).degree < (maxPoly : WithBot ℕ)) :
    polyOf gf (polyAdd gf dst src c shift) = polyOf gf dst + C ⟨c⟩ * (X ^ shift * polyOf gf src) := by
  ext1 k
  rw [coeff_add, coeff_C_mul, coeff_polyOf, coeff_polyOf]
  by_cases hk : k < maxPoly
  · rw [if_pos hk, if_pos hk, coeff_X_pow_mul', coeff_polyOf, polyAdd_apply]
    by_cases hle : shift ≤ k
    · have hlt : k - shift < maxPoly := by omega
      simp only [hle, hk, hlt, and_self, if_true]
      exact LogField.Elem.ext (by rw [gf.times₂_comm]; rfl)
    · simp only [hle, false_and, if_false, BitVec.xor_zero, mul_zero, add_zero]
  · rw [if_neg hk, if_neg hk, coeff_eq_zero_of_degree_lt (hdeg.trans_le (by exact_mod_cast not_lt.mp hk)), mul_zero,
      add_zero]

/-- The powers of an element that is not zero. -/
theorem val_pow {x : BitVec w} (hx : x ≠ 0#w) (i : ℕ) : ((⟨x⟩ : gf.Elem) ^ i).val = gf.power (gf.log x * i) := by
  have hbase : (⟨x⟩ : gf.Elem) = gf.base ^ gf.log x :=
    LogField.Elem.ext (by rw [gf.val_base_pow, gf.power_log hx])
  rw [hbase, ← pow_mul, gf.val_base_pow]

theorem eval_polyOf (s : Poly w) (y : gf.Elem) :
    (polyOf gf s).eval y = ∑ i ∈ Finset.range maxPoly, ⟨s i⟩ * y ^ i := by
  simp only [polyOf, eval_finsetSum, eval_monomial]

/-- `poly_eval` is the value of the polynomial. -/
theorem polyEval_eq (s : Poly w) (x : BitVec w) : (⟨polyEval gf s x⟩ : gf.Elem) = (polyOf gf s).eval ⟨x⟩ := by
  rw [eval_polyOf, polyEval]
  split
  case isTrue hx =>
    have hzero : (⟨x⟩ : gf.Elem) = 0 := LogField.Elem.ext hx
    rw [hzero, Finset.sum_eq_single 0]
    · simp
    · intro i _ hi
      rw [zero_pow hi, mul_zero]
    · intro h
      exact absurd (Finset.mem_range.mpr (by decide)) h
  case isFalse hx =>
    induction maxPoly with
    | zero => rfl
    | succ n ih =>
      rw [List.range_succ, List.foldl_append, List.foldl_cons, List.foldl_nil, Finset.sum_range_succ, ← ih]
      split
      case isTrue hs =>
        have hzero : (⟨s n⟩ : gf.Elem) = 0 := LogField.Elem.ext hs
        rw [hzero, zero_mul, add_zero]
      case isFalse hs =>
        have hval : ((⟨s n⟩ : gf.Elem) * ⟨x⟩ ^ n).val = gf.exp ((gf.log (s n) + gf.log x * n) % gf.p) := by
          refine (LogField.val_mul ..).trans ?_
          rw [val_pow gf hx]
          nth_rewrite 1 [← gf.power_log hs]
          rw [gf.times₂_power, LogField.power]
        exact LogField.Elem.ext (by rw [← hval]; rfl)

theorem masseyDiscrepancy_eq (s A : Poly w) (L n : ℕ) : (⟨masseyDiscrepancy gf s A L n⟩ : gf.Elem) =
    ⟨s n⟩ + ∑ k ∈ Finset.range L, ⟨A (k + 1)⟩ * ⟨s (n - (k + 1))⟩ := by
  rw [masseyDiscrepancy]
  induction L with
  | zero => simp
  | succ L ih =>
    rw [List.range_succ, List.foldl_append, List.foldl_cons, List.foldl_nil, Finset.sum_range_succ, ← add_assoc, ← ih]
    by_cases h : A (L + 1) ≠ 0#w ∧ s (n - (L + 1)) ≠ 0#w
    · rw [if_pos h, exp_log_add gf h.1 h.2]
      rfl
    · have hzero : gf.times₂ (A (L + 1)) (s (n - (L + 1))) = 0#w := if_pos (by tauto)
      rw [if_neg h]
      refine LogField.Elem.ext ((BitVec.xor_zero).symm.trans ?_)
      rw [← hzero]
      rfl

/-! ### Berlekamp-Massey -/

variable {gf}

theorem neg_elem (a : gf.Elem) : -a = a := rfl

/-- Minus is plus. -/
theorem sub_C_mul (A B : gf.Elem[X]) (c : gf.Elem) : A - C c * B = A + C c * B := by
  rw [sub_eq_add_neg, ← neg_mul, ← C_neg, neg_elem]

variable {s : Poly w} {S : gf.Elem[X]} {N : ℕ} (hS : ∀ j < N, S.coeff j = ⟨s j⟩)
include hS

/-- What the code calls `d` is the discrepancy. -/
theorem discrepancy_eq {A : Poly w} {L n : ℕ} (hA0 : (polyOf gf A).coeff 0 = 1) (hdeg : (polyOf gf A).degree ≤ L)
    (hLn : L ≤ n) (hL : L < maxPoly) (hn : n < N) :
    Massey.discrepancy S (polyOf gf A) n = ⟨masseyDiscrepancy gf s A L n⟩ := by
  have hterms : ∀ k ∈ Finset.range (n + 1), k ∉ Finset.range (L + 1) →
      (polyOf gf A).coeff k * S.coeff (n - k) = 0 := by
    intro k _ hk
    have hlt : L < k := by simpa using hk
    rw [coeff_eq_zero_of_degree_lt (hdeg.trans_lt (by exact_mod_cast hlt)), zero_mul]
  rw [Massey.discrepancy, coeff_mul, Finset.Nat.sum_antidiagonal_eq_sum_range_succ
    fun i j => (polyOf gf A).coeff i * S.coeff j, ← Finset.sum_subset (by simpa using hLn) hterms,
    Finset.sum_range_succ', masseyDiscrepancy_eq, hA0, one_mul, Nat.sub_zero, hS n hn, add_comm]
  congr 1
  refine Finset.sum_congr rfl fun k hk => ?_
  have hk := Finset.mem_range.mp hk
  rw [coeff_polyOf, if_pos (by omega), hS _ (by omega)]

/-- A step keeps the pairs of polynomials. -/
theorem masseyRound_inv {n : ℕ} (hn : n < N) (hN : N < maxPoly) {st : MasseyState w} {P Q : gf.Elem[X]}
    (h : Massey S n st.L (polyOf gf st.C) P (X ^ st.m * polyOf gf st.B) Q ⟨st.b⟩) :
    ∃ P' Q', Massey S (n + 1) (masseyRound gf s st n).L (polyOf gf (masseyRound gf s st n).C) P'
      (X ^ (masseyRound gf s st n).m * polyOf gf (masseyRound gf s st n).B) Q' ⟨(masseyRound gf s st n).b⟩ := by
  have hle := h.le
  have hd := discrepancy_eq hS h.C_zero h.C_degree h.le (by omega) hn
  rw [masseyRound]
  generalize masseyDiscrepancy gf s st.C st.L n = d at hd ⊢
  have hmove : X * (X ^ st.m * polyOf gf st.B) = X ^ (st.m + 1) * polyOf gf st.B := by rw [pow_succ']; ring
  by_cases hd0 : d = 0#w
  · rw [if_pos hd0]
    refine ⟨P, X * Q, ?_⟩
    rw [← hmove]
    exact h.keep (hd.trans (LogField.Elem.ext hd0))
  · rw [if_neg hd0]
    have hb : st.b ≠ 0#w := LogField.val_ne_zero h.b_ne
    -- the quotient of the two discrepancies
    generalize hmult : gf.exp ((gf.p - gf.log st.b + gf.log d) % gf.p) = mult
    have hc : (⟨mult⟩ : gf.Elem) * ⟨st.b⟩ = Massey.discrepancy S (polyOf gf st.C) n := by
      have hlog := gf.log_le st.b
      rw [hd]
      refine LogField.Elem.ext ((LogField.val_mul ..).trans ?_)
      rw [← hmult, ← LogField.power]
      nth_rewrite 2 [← gf.power_log hb]
      rw [gf.times₂_power]
      nth_rewrite 2 [← gf.power_log hd0]
      refine gf.power_congr ?_
      rw [show gf.p - gf.log st.b + gf.log d + gf.log st.b = gf.log d + gf.p by omega, Nat.add_mod_right]
    have hmend : polyOf gf (polyAdd gf st.C st.B mult st.m) =
        polyOf gf st.C - C ⟨mult⟩ * (X ^ st.m * polyOf gf st.B) := by
      rw [sub_C_mul, polyOf_polyAdd]
      exact h.D_degree.trans_lt (by exact_mod_cast (by omega : n + 1 - st.L < maxPoly))
    by_cases hshort : st.L * 2 ≤ n
    · rw [if_pos hshort]
      refine ⟨P - C ⟨mult⟩ * Q, X * P, ?_⟩
      rw [hmend, pow_one, ← hd]
      exact h.lengthen hc (hd ▸ fun h0 => hd0 (congrArg LogField.Elem.val h0)) (by omega)
    · rw [if_neg hshort]
      refine ⟨P - C ⟨mult⟩ * Q, X * Q, ?_⟩
      rw [hmend, ← hmove]
      exact h.mend hc (by omega)

/-- After `n` rounds. -/
theorem massey_run (hN : N < maxPoly) : ∀ n ≤ N, ∃ P Q,
    Massey S n ((List.range n).foldl (masseyRound gf s) masseyStart).L
      (polyOf gf ((List.range n).foldl (masseyRound gf s) masseyStart).C) P
      (X ^ ((List.range n).foldl (masseyRound gf s) masseyStart).m *
        polyOf gf ((List.range n).foldl (masseyRound gf s) masseyStart).B) Q
      ⟨((List.range n).foldl (masseyRound gf s) masseyStart).b⟩ := by
  intro n
  induction n with
  | zero =>
    intro _
    have hone : polyOf gf (fun i => if i = 0 then 1#w else 0#w) = 1 := by
      ext1 k
      rw [coeff_polyOf, coeff_one]
      cases k with
      | zero => rfl
      | succ k => simp only [Nat.succ_ne_zero, if_false]; split <;> rfl
    refine ⟨0, -1, ?_⟩
    simp only [List.range_zero, List.foldl_nil, masseyStart, hone, pow_one, mul_one]
    exact Massey.start S
  | succ n ih =>
    intro hn
    obtain ⟨P, Q, h⟩ := ih (by omega)
    rw [List.range_succ, List.foldl_append, List.foldl_cons, List.foldl_nil]
    exact masseyRound_inv hS hn hN h

/-- The error locator is found. -/
theorem berlekampMassey_eq (hN : N < maxPoly) {Λ Ω : gf.Elem[X]} {v : ℕ} (hΛ : Λ.coeff 0 = 1) (hdeg : Λ.degree ≤ v)
    (hΩ : Ω.degree < v) (hkey : X ^ N ∣ Λ * S - Ω) (hcop : IsCoprime Λ Ω) (hv : 2 * v ≤ N) :
    polyOf gf (berlekampMassey gf s N) = Λ := by
  obtain ⟨P, Q, h⟩ := massey_run hS hN N le_rfl
  exact h.unique hΛ hdeg hΩ hkey hcop hv

end Operations

end OpenMV.Vision
