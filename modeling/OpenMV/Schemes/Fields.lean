import Mathlib.Data.Nat.Bitwise
import Mathlib.Data.Nat.Digits.Defs

/-! Words made of fields | scheme:encoding

    A word is a row of fields of `k` bits, its digits to the base `2 ^ k`. A bitwise operation acts on each field for
    itself; so does a shift to the right, when what it moves in from the next field is masked out, and a sum or a
    difference, when there is no carry. -/

namespace OpenMV.Schemes

/-- A bitwise operation acts on the lowest field and on the rest. -/
theorem bitwise_field {f : Bool → Bool → Bool} (hf : f false false = false) {k d e : ℕ} (x y : ℕ) (hd : d < 2 ^ k)
    (he : e < 2 ^ k) :
    Nat.bitwise f (d + 2 ^ k * x) (e + 2 ^ k * y) = Nat.bitwise f d e + 2 ^ k * Nat.bitwise f x y := by
  refine Nat.eq_of_testBit_eq fun j => ?_
  rw [Nat.add_comm d, Nat.add_comm e, Nat.add_comm (Nat.bitwise f d e), Nat.testBit_bitwise hf,
    Nat.testBit_two_pow_mul_add _ hd, Nat.testBit_two_pow_mul_add _ he,
    Nat.testBit_two_pow_mul_add _ (Nat.bitwise_lt_two_pow hd he)]
  split_ifs
  · rw [Nat.testBit_bitwise hf]
  · rw [Nat.testBit_bitwise hf]

/-- So does a shift, with a mask that leaves out what comes from the next field. -/
theorem shiftRight_and_field {k s d m : ℕ} (x y : ℕ) (hs : s ≤ k) (hd : d < 2 ^ k) (hm : m < 2 ^ (k - s)) :
    ((d + 2 ^ k * x) >>> s) &&& (m + 2 ^ k * y) = ((d >>> s) &&& m) + 2 ^ k * ((x >>> s) &&& y) := by
  have hm' : m < 2 ^ k := hm.trans_le (Nat.pow_le_pow_right (by decide) (Nat.sub_le k s))
  have hlow : (d >>> s) &&& m < 2 ^ k := Nat.and_lt_two_pow _ hm'
  refine Nat.eq_of_testBit_eq fun j => ?_
  rw [Nat.add_comm d, Nat.add_comm m, Nat.add_comm ((d >>> s) &&& m), Nat.testBit_and, Nat.testBit_shiftRight,
    Nat.testBit_two_pow_mul_add _ hd, Nat.testBit_two_pow_mul_add _ hm', Nat.testBit_two_pow_mul_add _ hlow]
  by_cases hj : j < k
  · rw [if_pos hj, if_pos hj, Nat.testBit_and, Nat.testBit_shiftRight]
    by_cases hsj : s + j < k
    · rw [if_pos hsj]
    · -- the bit comes from the next field
      have hzero : m.testBit j = false :=
        Nat.testBit_lt_two_pow (hm.trans_le (Nat.pow_le_pow_right (by decide) (by omega)))
      rw [hzero, Bool.and_false, Bool.and_false]
  · rw [if_neg hj, if_neg hj, if_neg (by omega), Nat.testBit_and, Nat.testBit_shiftRight]
    congr 2
    omega

section Words
variable {k : ℕ} {f g : ℕ → ℕ}

theorem ofDigits_bitwise {op : Bool → Bool → Bool} (hop : op false false = false) : ∀ {ds es : List ℕ},
    ds.length = es.length → (∀ d ∈ ds, d < 2 ^ k) → (∀ e ∈ es, e < 2 ^ k) →
    Nat.bitwise op (Nat.ofDigits (2 ^ k) ds) (Nat.ofDigits (2 ^ k) es) =
      Nat.ofDigits (2 ^ k) (List.zipWith (Nat.bitwise op) ds es)
  | [], [], _, _, _ => Nat.bitwise_zero
  | d :: ds, e :: es, hlen, hd, he => by
      obtain ⟨hd, hds⟩ := List.forall_mem_cons.mp hd
      obtain ⟨he, hes⟩ := List.forall_mem_cons.mp he
      rw [List.zipWith_cons_cons]
      simp only [Nat.ofDigits_cons]
      rw [bitwise_field hop _ _ hd he, ofDigits_bitwise hop (Nat.succ.inj hlen) hds hes]

theorem ofDigits_and {ds es : List ℕ} (hlen : ds.length = es.length) (hd : ∀ d ∈ ds, d < 2 ^ k)
    (he : ∀ e ∈ es, e < 2 ^ k) :
    Nat.ofDigits (2 ^ k) ds &&& Nat.ofDigits (2 ^ k) es = Nat.ofDigits (2 ^ k) (List.zipWith (· &&& ·) ds es) :=
  ofDigits_bitwise rfl hlen hd he

theorem ofDigits_xor {ds es : List ℕ} (hlen : ds.length = es.length) (hd : ∀ d ∈ ds, d < 2 ^ k)
    (he : ∀ e ∈ es, e < 2 ^ k) :
    Nat.ofDigits (2 ^ k) ds ^^^ Nat.ofDigits (2 ^ k) es = Nat.ofDigits (2 ^ k) (List.zipWith (· ^^^ ·) ds es) :=
  ofDigits_bitwise rfl hlen hd he

theorem ofDigits_or {ds : List ℕ} (hf : ∀ d ∈ ds, f d < 2 ^ k) (hg : ∀ d ∈ ds, g d < 2 ^ k) :
    Nat.ofDigits (2 ^ k) (ds.map f) ||| Nat.ofDigits (2 ^ k) (ds.map g) =
      Nat.ofDigits (2 ^ k) (ds.map fun d => f d ||| g d) := by
  have h : Nat.bitwise or (Nat.ofDigits (2 ^ k) (ds.map f)) (Nat.ofDigits (2 ^ k) (ds.map g)) = _ :=
    ofDigits_bitwise rfl (by simp) (List.forall_mem_map.mpr hf) (List.forall_mem_map.mpr hg)
  rw [List.zipWith_map, List.zipWith_self] at h
  exact h

/-- A shift that is masked. -/
theorem ofDigits_shiftRight_and {s m : ℕ} (hs : s ≤ k) (hm : m < 2 ^ (k - s)) : ∀ {ds : List ℕ},
    (∀ d ∈ ds, f d < 2 ^ k) → (Nat.ofDigits (2 ^ k) (ds.map f) >>> s) &&& Nat.ofDigits (2 ^ k) (ds.map fun _ => m) =
      Nat.ofDigits (2 ^ k) (ds.map fun d => (f d >>> s) &&& m)
  | [], _ => by simp
  | d :: ds, hf => by
      obtain ⟨hd, hds⟩ := List.forall_mem_cons.mp hf
      simp only [List.map_cons, Nat.ofDigits_cons]
      rw [shiftRight_and_field _ _ hs hd hm, ofDigits_shiftRight_and hs hm hds]

theorem ofDigits_and_mask {m : ℕ} (hm : m < 2 ^ k) {ds : List ℕ} (hf : ∀ d ∈ ds, f d < 2 ^ k) :
    Nat.ofDigits (2 ^ k) (ds.map f) &&& Nat.ofDigits (2 ^ k) (ds.map fun _ => m) =
      Nat.ofDigits (2 ^ k) (ds.map fun d => f d &&& m) :=
  ofDigits_shiftRight_and (Nat.zero_le k) hm hf

theorem ofDigits_add (b : ℕ) (f g : ℕ → ℕ) : ∀ ds : List ℕ,
    Nat.ofDigits b (ds.map f) + Nat.ofDigits b (ds.map g) = Nat.ofDigits b (ds.map fun d => f d + g d)
  | [] => rfl
  | d :: ds => by
      simp only [List.map_cons, Nat.ofDigits_cons, ← ofDigits_add b f g ds, Nat.mul_add]
      omega

theorem ofDigits_sub (b : ℕ) {ds : List ℕ} (h : ∀ d ∈ ds, g d ≤ f d) :
    Nat.ofDigits b (ds.map f) - Nat.ofDigits b (ds.map g) = Nat.ofDigits b (ds.map fun d => f d - g d) := by
  have hf : ds.map f = ds.map fun d => f d - g d + g d :=
    List.map_congr_left fun d hd => (Nat.sub_add_cancel (h d hd)).symm
  rw [hf, ← ofDigits_add b (fun d => f d - g d) g, Nat.add_sub_cancel]

end Words

end OpenMV.Schemes
