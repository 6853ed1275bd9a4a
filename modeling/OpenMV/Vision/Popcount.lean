import Mathlib.Algebra.BigOperators.Group.List.Basic
import Mathlib.Tactic.Ring
import OpenMV.Schemes.Fields

/-! Differing fields of two descriptors | scheme:encoding | source:src/src/openmv/omv/img/orb.c

    Two descriptors are compared as eight words each, whose exclusive or has a field of two bits for each of 128
    comparisons. The `popcount` of `orb.c` counts the fields that are not zero. It works on all four bytes of a word
    at once, so it is enough to check it for a byte. -/

namespace OpenMV.Vision
open Schemes

/-! ### The code -/

def popcount (i : UInt32) : UInt32 :=
  let i := i - ((i >>> 1) &&& (0x55555555 : UInt32))
  let i := ((i &&& 0xAAAAAAAA) >>> 1) ||| (i &&& 0x55555555)
  let i := (i &&& (0x33333333 : UInt32)) + ((i >>> 2) &&& (0x33333333 : UInt32))
  (((i + (i >>> 4)) &&& (0x0F0F0F0F : UInt32)) * 0x01010101) >>> 24

/-- `desc` -/
abbrev Desc := ℕ → UInt8

/-- `((uint32_t*) desc)[m]` -/
def descWord (desc : Desc) (m : ℕ) : UInt32 :=
  UInt32.ofNat (Nat.ofDigits 256 [(desc (4 * m)).toNat, (desc (4 * m + 1)).toNat, (desc (4 * m + 2)).toNat,
    (desc (4 * m + 3)).toNat])

def kdescSize : ℕ := 32

/-- The loop over the words of the two descriptors. -/
def descDist (desc1 desc2 : Desc) : ℕ :=
  (List.range (kdescSize / 4)).foldl (fun dist m =>
    dist + (popcount (descWord desc1 m ^^^ descWord desc2 m)).toNat) 0

/-! ### The bytes of a word -/

/-- The number of fields of two bits, of the first `n`, that are not zero. -/
def pairFields (n i : ℕ) : ℕ := (List.range n).countP fun k => i / 4 ^ k % 4 ≠ 0

theorem pairFields_le (n i : ℕ) : pairFields n i ≤ n :=
  List.countP_le_length.trans (List.length_range).le

/-- The steps of `popcount` for one byte. -/
def bytePairs (i : ℕ) : ℕ :=
  let i := i - ((i >>> 1) &&& 0x55)
  ((i >>> 1) &&& 0x55) ||| (i &&& 0x55)

def byteNibbles (i : ℕ) : ℕ := (bytePairs i &&& 0x33) + ((bytePairs i >>> 2) &&& 0x33)

theorem byte_steps : ∀ d < 256, (d >>> 1) &&& 0x55 ≤ d ∧ bytePairs d < 256 ∧
    byteNibbles d % 16 ≤ 2 ∧ byteNibbles d / 16 ≤ 2 ∧
    byteNibbles d % 16 + byteNibbles d / 16 = pairFields 4 d := by
  decide +kernel

theorem popcount_toNat (i : UInt32) :
    let a := i.toNat - ((i.toNat >>> 1) &&& 0x55555555)
    let b := ((a >>> 1) &&& 0x55555555) ||| (a &&& 0x55555555)
    let c := ((b &&& 0x33333333) + ((b >>> 2) &&& 0x33333333)) % 4294967296
    (popcount i).toNat = (((c + c >>> 4) % 4294967296 &&& 0x0F0F0F0F) * 0x01010101 % 4294967296) >>> 24 := by
  have hle : (i >>> 1) &&& 0x55555555 ≤ i := by
    rw [UInt32.le_iff_toNat_le, UInt32.toNat_and, UInt32.toNat_shiftRight]
    exact Nat.and_le_left.trans (Nat.shiftRight_le _ _)
  have hmask : ∀ n : ℕ, (n &&& 0xAAAAAAAA) >>> 1 = (n >>> 1) &&& 0x55555555 := fun n => by
    rw [Nat.shiftRight_and_distrib]
    rfl
  simp only [popcount, UInt32.toNat_shiftRight, UInt32.toNat_mul, UInt32.toNat_and, UInt32.toNat_add,
    UInt32.toNat_or, UInt32.toNat_sub_of_le _ _ hle, UInt32.reduceToNat, Nat.reduceMod, Nat.reducePow, hmask]

/-- The sum of the bytes of a word is the highest byte of its product with 0x01010101. -/
theorem sum_of_product {d0 d1 d2 d3 : ℕ} (h0 : d0 ≤ 4) (h1 : d1 ≤ 4) (h2 : d2 ≤ 4) (h3 : d3 ≤ 4) :
    (Nat.ofDigits 256 [d0, d1, d2, d3] * 0x01010101 % 4294967296) >>> 24 = d0 + d1 + d2 + d3 := by
  have hprod : Nat.ofDigits 256 [d0, d1, d2, d3] * 0x01010101 =
      (d0 + 256 * (d0 + d1) + 65536 * (d0 + d1 + d2) + 16777216 * (d0 + d1 + d2 + d3)) +
        4294967296 * (d1 + d2 + d3 + 256 * (d2 + d3) + 65536 * d3) := by
    simp only [Nat.ofDigits_cons, Nat.ofDigits_nil]
    ring
  rw [hprod, Nat.add_mul_mod_self_left, Nat.mod_eq_of_lt (by omega), Nat.shiftRight_eq_div_pow]
  omega

/-- The two halves of each byte are added up; there is no carry from one byte to the next. -/
theorem add_halves {l h : ℕ → ℕ} (hl : ∀ i, l i ≤ 2) (hh : ∀ i, h i ≤ 2) :
    let c := Nat.ofDigits 256 [l 0 + 16 * h 0, l 1 + 16 * h 1, l 2 + 16 * h 2, l 3 + 16 * h 3]
    (c + c >>> 4) % 4294967296 &&& 0x0F0F0F0F = Nat.ofDigits 256 [l 0 + h 0, l 1 + h 1, l 2 + h 2, l 3 + h 3] := by
  intro c
  obtain ⟨hl0, hl1, hl2, hl3⟩ := And.intro (hl 0) (And.intro (hl 1) (And.intro (hl 2) (hl 3)))
  obtain ⟨hh0, hh1, hh2, hh3⟩ := And.intro (hh 0) (And.intro (hh 1) (And.intro (hh 2) (hh 3)))
  have hc : c = l 0 + 16 * (h 0 + 16 * (l 1 + 16 * (h 1 + 16 * (l 2 + 16 * (h 2 + 16 * (l 3 + 16 * h 3)))))) := by
    simp only [c, Nat.ofDigits_cons, Nat.ofDigits_nil]
    ring
  have hsum : (c + c >>> 4) % 4294967296 = Nat.ofDigits (2 ^ 8) [l 0 + h 0 + 16 * (h 0 + l 1),
      l 1 + h 1 + 16 * (h 1 + l 2), l 2 + h 2 + 16 * (h 2 + l 3), l 3 + h 3 + 16 * h 3] := by
    rw [Nat.shiftRight_eq_div_pow, hc, Nat.add_mul_div_left _ _ (by decide), Nat.div_eq_of_lt (by omega), zero_add,
      Nat.mod_eq_of_lt (by omega)]
    simp only [Nat.ofDigits_cons, Nat.ofDigits_nil]
    ring
  have hmask : (0x0F0F0F0F : ℕ) = Nat.ofDigits (2 ^ 8) [15, 15, 15, 15] := by decide
  have hlow : ∀ x y : ℕ, x ≤ 4 → (x + 16 * y) &&& 15 = x := fun x y hx => by
    rw [Nat.and_two_pow_sub_one_eq_mod _ 4]
    omega
  have hsmall : ∀ d ∈ [l 0 + h 0 + 16 * (h 0 + l 1), l 1 + h 1 + 16 * (h 1 + l 2), l 2 + h 2 + 16 * (h 2 + l 3),
      l 3 + h 3 + 16 * h 3], d < 2 ^ 8 := by
    simp only [List.forall_mem_cons]
    exact ⟨by omega, by omega, by omega, by omega, by simp⟩
  rw [hsum, hmask, ofDigits_and (by rfl) hsmall (by decide)]
  simp only [List.zipWith_cons_cons, List.zipWith_nil_left]
  rw [hlow _ _ (by omega), hlow _ _ (by omega), hlow _ _ (by omega), hlow _ _ (by omega)]
  rfl

/-- The word made of four bytes, each changed by `f`. -/
def ofBytes (d : ℕ → ℕ) (f : ℕ → ℕ) : ℕ := Nat.ofDigits (2 ^ 8) ([d 0, d 1, d 2, d 3].map f)

section Bytes
variable {d : ℕ → ℕ} (hd : ∀ j, d j < 256)
include hd

theorem forall_bytes {P : ℕ → Prop} (h : ∀ e < 256, P e) : ∀ e ∈ [d 0, d 1, d 2, d 3], P e := by
  simp only [List.forall_mem_cons, List.not_mem_nil, false_imp_iff, implies_true, and_true]
  exact ⟨h _ (hd 0), h _ (hd 1), h _ (hd 2), h _ (hd 3)⟩

/-- The steps of `popcount` act on each byte. -/
theorem pairs_ofBytes : let a := ofBytes d id - ((ofBytes d id >>> 1) &&& 0x55555555)
    ((a >>> 1) &&& 0x55555555) ||| (a &&& 0x55555555) = ofBytes d bytePairs := by
  have hmask : (0x55555555 : ℕ) = ofBytes d fun _ => 0x55 := by
    show _ = Nat.ofDigits (2 ^ 8) [0x55, 0x55, 0x55, 0x55]
    decide
  have ha : ofBytes d id - ((ofBytes d id >>> 1) &&& 0x55555555) = ofBytes d fun e => e - ((e >>> 1) &&& 0x55) := by
    rw [hmask]
    unfold ofBytes
    rw [ofDigits_shiftRight_and (f := id) (by decide) (by decide) (forall_bytes hd fun _ h => h)]
    exact ofDigits_sub _ (f := id) (g := fun e => (e >>> 1) &&& 0x55) (forall_bytes hd fun e h => (byte_steps e h).1)
  have hlt : ∀ e ∈ [d 0, d 1, d 2, d 3], e - ((e >>> 1) &&& 0x55) < 2 ^ 8 :=
    forall_bytes hd fun e h => (Nat.sub_le _ _).trans_lt h
  intro a
  simp only [a, ha]
  rw [hmask]
  unfold ofBytes
  rw [ofDigits_shiftRight_and (by decide) (by decide) hlt, ofDigits_and_mask (by decide) hlt]
  exact ofDigits_or (forall_bytes hd fun _ _ => Nat.and_lt_two_pow _ (by decide))
    (forall_bytes hd fun _ _ => Nat.and_lt_two_pow _ (by decide))

theorem nibbles_ofBytes : (ofBytes d bytePairs &&& 0x33333333) + ((ofBytes d bytePairs >>> 2) &&& 0x33333333) =
    ofBytes d byteNibbles := by
  have hmask : (0x33333333 : ℕ) = ofBytes d fun _ => 0x33 := by
    show _ = Nat.ofDigits (2 ^ 8) [0x33, 0x33, 0x33, 0x33]
    decide
  have hlt : ∀ e ∈ [d 0, d 1, d 2, d 3], bytePairs e < 2 ^ 8 := forall_bytes hd fun e h => (byte_steps e h).2.1
  rw [hmask]
  unfold ofBytes
  rw [ofDigits_shiftRight_and (by decide) (by decide) hlt, ofDigits_and_mask (by decide) hlt]
  exact ofDigits_add _ (fun e => bytePairs e &&& 0x33) (fun e => (bytePairs e >>> 2) &&& 0x33) _

/-- The popcount of a word is the number of fields of its bytes that are not zero. -/
theorem popcount_ofBytes {i : UInt32} (hi : i.toNat = ofBytes d id) :
    (popcount i).toNat = pairFields 4 (d 0) + pairFields 4 (d 1) + pairFields 4 (d 2) + pairFields 4 (d 3) := by
  have hbyte : ∀ j, byteNibbles (d j) % 16 ≤ 2 ∧ byteNibbles (d j) / 16 ≤ 2 ∧
      byteNibbles (d j) % 16 + byteNibbles (d j) / 16 = pairFields 4 (d j) := fun j => (byte_steps _ (hd j)).2.2
  have hword : ofBytes d byteNibbles = Nat.ofDigits 256 [byteNibbles (d 0) % 16 + 16 * (byteNibbles (d 0) / 16),
      byteNibbles (d 1) % 16 + 16 * (byteNibbles (d 1) / 16), byteNibbles (d 2) % 16 + 16 * (byteNibbles (d 2) / 16),
      byteNibbles (d 3) % 16 + 16 * (byteNibbles (d 3) / 16)] := by
    simp only [Nat.mod_add_div]
    rfl
  have hlt : ofBytes d byteNibbles < 4294967296 := by
    rw [hword]
    have h0 := hbyte 0
    have h1 := hbyte 1
    have h2 := hbyte 2
    have h3 := hbyte 3
    simp only [Nat.ofDigits_cons, Nat.ofDigits_nil]
    omega
  rw [popcount_toNat, hi, pairs_ofBytes hd, nibbles_ofBytes hd, Nat.mod_eq_of_lt hlt, hword,
    add_halves (l := fun j => byteNibbles (d j) % 16) (h := fun j => byteNibbles (d j) / 16)
      (fun j => (hbyte j).1) fun j => (hbyte j).2.1]
  simp only [(hbyte _).2.2]
  exact sum_of_product (pairFields_le _ _) (pairFields_le _ _) (pairFields_le _ _) (pairFields_le _ _)

end Bytes

/-! ### The distance -/

/-- The `k`-th field of two bits. -/
def descField (desc : Desc) (k : ℕ) : ℕ := (desc (k / 4)).toNat / 4 ^ (k % 4) % 4

/-- The number of fields in which the descriptors differ. -/
def differingFields (desc1 desc2 : Desc) : ℕ :=
  (List.range (kdescSize * 4)).countP fun k => descField desc1 k ≠ descField desc2 k

theorem xor_field_ne_zero (x y k : ℕ) : (x ^^^ y) / 4 ^ k % 4 ≠ 0 ↔ x / 4 ^ k % 4 ≠ y / 4 ^ k % 4 := by
  have hpow : (4 : ℕ) ^ k = 2 ^ (2 * k) := (pow_mul 2 2 k).symm
  rw [hpow, ← Nat.shiftRight_eq_div_pow, ← Nat.shiftRight_eq_div_pow, ← Nat.shiftRight_eq_div_pow,
    Nat.shiftRight_xor_distrib, Nat.xor_mod_two_pow (n := 2), Ne, Nat.xor_eq_zero_iff]

theorem pairFields_xor (desc1 desc2 : Desc) (j : ℕ) :
    pairFields 4 ((desc1 j).toNat ^^^ (desc2 j).toNat) =
      (List.range 4).countP fun r => descField desc1 (4 * j + r) ≠ descField desc2 (4 * j + r) := by
  refine List.countP_congr fun r hr => ?_
  have hr4 : r < 4 := List.mem_range.mp hr
  have hdiv : (4 * j + r) / 4 = j := by omega
  have hmod : (4 * j + r) % 4 = r := by omega
  simp only [decide_eq_true_eq, descField, hdiv, hmod]
  exact xor_field_ne_zero _ _ _

theorem range_mul_four : ∀ n, List.range (n * 4) = (List.range n).flatMap fun q => (List.range 4).map fun r => 4 * q + r
  | 0 => rfl
  | n + 1 => by
      rw [Nat.succ_mul, List.range_add, range_mul_four n, List.range_succ (n := n), List.flatMap_append,
        List.flatMap_singleton, Nat.mul_comm n]

theorem descWord_toNat (desc : Desc) (m : ℕ) :
    (descWord desc m).toNat = ofBytes (fun j => (desc (4 * m + j)).toNat) id := by
  have hbyte : ∀ j, (desc j).toNat < 256 := fun j => (desc j).toNat_lt
  have hlt : Nat.ofDigits 256 [(desc (4 * m)).toNat, (desc (4 * m + 1)).toNat, (desc (4 * m + 2)).toNat,
      (desc (4 * m + 3)).toNat] < 2 ^ 32 := by
    have h0 := hbyte (4 * m)
    have h1 := hbyte (4 * m + 1)
    have h2 := hbyte (4 * m + 2)
    have h3 := hbyte (4 * m + 3)
    simp only [Nat.ofDigits_cons, Nat.ofDigits_nil]
    omega
  rw [descWord, UInt32.toNat_ofNat_of_lt' hlt]
  rfl

/-- The words are compared byte by byte. -/
theorem popcount_descWord (desc1 desc2 : Desc) (m : ℕ) :
    (popcount (descWord desc1 m ^^^ descWord desc2 m)).toNat = ((List.range 4).map fun j =>
      pairFields 4 ((desc1 (4 * m + j)).toNat ^^^ (desc2 (4 * m + j)).toNat)).sum := by
  have hbyte : ∀ (desc : Desc) (j : ℕ), (desc j).toNat < 256 := fun desc j => (desc j).toNat_lt
  have hxor : (descWord desc1 m ^^^ descWord desc2 m).toNat =
      ofBytes (fun j => (desc1 (4 * m + j)).toNat ^^^ (desc2 (4 * m + j)).toNat) id := by
    rw [UInt32.toNat_xor, descWord_toNat, descWord_toNat]
    unfold ofBytes
    simp only [List.map_id]
    rw [ofDigits_xor (by rfl) (by simp [hbyte]) (by simp [hbyte])]
    rfl
  rw [popcount_ofBytes (fun j => Nat.xor_lt_two_pow (n := 8) (hbyte _ _) (hbyte _ _)) hxor]
  simp only [show List.range 4 = [0, 1, 2, 3] from rfl, List.map_cons, List.map_nil, List.sum_cons, List.sum_nil]
  ring

/-- The distance through `popcount` is the number of fields in which the descriptors differ. -/
theorem descDist_eq (desc1 desc2 : Desc) : descDist desc1 desc2 = differingFields desc1 desc2 := by
  unfold differingFields descDist
  rw [range_mul_four, List.countP_flatMap]
  have hbytes : ((List.countP fun k => decide (descField desc1 k ≠ descField desc2 k)) ∘ fun q =>
      (List.range 4).map fun r => 4 * q + r) = fun q => pairFields 4 ((desc1 q).toNat ^^^ (desc2 q).toNat) := by
    funext q
    rw [pairFields_xor, Function.comp_apply, List.countP_map]
    rfl
  have hwords : List.range kdescSize =
      (List.range (kdescSize / 4)).flatMap fun q => (List.range 4).map fun r => 4 * q + r := range_mul_four 8
  rw [hbytes, hwords, List.map_flatMap, List.flatMap_def, List.sum_flatten, List.map_map,
    ← List.foldl_map (f := fun m => (popcount (descWord desc1 m ^^^ descWord desc2 m)).toNat) (g := (· + ·)),
    ← List.sum_eq_foldl_nat]
  congr 1
  refine List.map_congr_left fun m _ => ?_
  rw [popcount_descWord, Function.comp_apply, List.map_map]
  rfl

end OpenMV.Vision
