import Mathlib.Data.List.GetD
import Mathlib.Logic.Function.Basic
import Mathlib.Tactic.IntervalCases
import Mathlib.Tactic.NormNum
import OpenMV.Schemes.PrefixCode

/-! The bits of a row of bytes | scheme:codes

    The highest bit of a byte comes first. A list of bits is kept in the bytes when they hold its bits from the start
    and nothing after it, so that one more bit can be put behind them. -/

namespace OpenMV.Schemes

/-- Bit `k` of the bytes. -/
def byteBit (f : ℕ → BitVec 8) (k : ℕ) : Bool := (f (k / 8)).getLsbD (7 - k % 8)

theorem getLsbD_high : ∀ p < 8, ∀ q < 8, (0x80#8 >>> p).getLsbD (7 - q) = decide (q = p) := by decide

/-- What a bit that is put in changes. -/
theorem byteBit_set (f : ℕ → BitVec 8) (k i : ℕ) :
    byteBit (Function.update f (k / 8) (f (k / 8) ||| 0x80#8 >>> (k % 8))) i = (byteBit f i || decide (i = k)) := by
  rw [byteBit, byteBit]
  by_cases hbyte : i / 8 = k / 8
  · rw [hbyte, Function.update_self, BitVec.getLsbD_or,
      getLsbD_high _ (Nat.mod_lt k (by decide)) _ (Nat.mod_lt i (by decide))]
    congr 2
    exact propext (by omega)
  · rw [Function.update_of_ne hbyte]
    have hne : i ≠ k := fun h => hbyte (congrArg (· / 8) h)
    simp [hne]

/-- The bytes hold these bits, and zeros after them. -/
def Keeps (f : ℕ → BitVec 8) (bits : List Bool) : Prop := ∀ k, byteBit f k = bits.getD k false

theorem Keeps.nil : Keeps (fun _ => 0#8) [] := fun k => by simp [byteBit]

theorem Keeps.push {f : ℕ → BitVec 8} {bits : List Bool} (h : Keeps f bits) (v : Bool) :
    Keeps (if v then Function.update f (bits.length / 8) (f (bits.length / 8) ||| 0x80#8 >>> (bits.length % 8)) else f)
      (bits ++ [v]) := by
  intro k
  have hk := h k
  have hend : bits.length < k → (bits ++ [v]).length ≤ k := fun hlt => by
    rw [List.length_append, List.length_singleton]
    exact hlt
  cases v
  case true =>
    rw [if_pos rfl, byteBit_set, hk]
    rcases lt_trichotomy k bits.length with hlt | rfl | hlt
    · simp [List.getElem?_append_left hlt, hlt.ne]
    · simp
    · rw [List.getD_eq_default _ _ (hend hlt), List.getD_eq_default _ _ hlt.le]
      simp [hlt.ne']
  case false =>
    rw [if_neg Bool.false_ne_true, hk]
    rcases lt_trichotomy k bits.length with hlt | rfl | hlt
    · rw [List.getD_append _ _ _ _ hlt]
    · simp
    · rw [List.getD_eq_default _ _ (hend hlt), List.getD_eq_default _ _ hlt.le]

/-- The bytes are given by their bits. -/
theorem Keeps.eq {f g : ℕ → BitVec 8} {bits : List Bool} (hf : Keeps f bits) (hg : Keeps g bits) : f = g := by
  funext p
  refine BitVec.eq_of_getLsbD_eq fun j hj => ?_
  have h := (hf (8 * p + (7 - j))).trans (hg (8 * p + (7 - j))).symm
  have hbyte : (8 * p + (7 - j)) / 8 = p := by omega
  have hbit : 7 - (8 * p + (7 - j)) % 8 = j := by omega
  rwa [byteBit, byteBit, hbyte, hbit] at h

/-- Byte `p` of the bits. -/
def packBits (bits : List Bool) (p : ℕ) : BitVec 8 :=
  (List.range 8).foldl (fun b i => if bits.getD (8 * p + i) false then b ||| 0x80#8 >>> i else b) 0#8

theorem keeps_packBits (bits : List Bool) : Keeps (packBits bits) bits := by
  have hpack : ∀ v : ℕ → Bool, ∀ n ≤ 8, ∀ i < 8, ((List.range n).foldl
      (fun b i => if v i then b ||| 0x80#8 >>> i else b) 0#8).getLsbD (7 - i) = (decide (i < n) && v i) := by
    intro v n
    induction n with
    | zero => simp
    | succ n ih =>
      intro hn i hi
      have hih := ih (by omega) i hi
      rw [List.range_succ, List.foldl_append, List.foldl_cons, List.foldl_nil]
      split
      case isTrue hv =>
        rw [BitVec.getLsbD_or, hih, getLsbD_high n (by omega) i hi]
        rcases lt_trichotomy i n with h | rfl | h
        · simp [h, h.ne, Nat.lt_succ_of_lt h]
        · simp [hv]
        · have hlt : ¬ i < n + 1 := by omega
          simp [h.le, h.ne', hlt]
      case isFalse hv =>
        rw [hih]
        rcases lt_trichotomy i n with h | rfl | h
        · simp [h, Nat.lt_succ_of_lt h]
        · simp [hv]
        · have hlt : ¬ i < n + 1 := by omega
          simp [h.le, hlt]
  intro k
  rw [byteBit, packBits, hpack (fun i => bits.getD (8 * (k / 8) + i) false) 8 le_rfl _ (Nat.mod_lt k (by decide)),
    decide_eq_true (Nat.mod_lt k (by decide)), Bool.true_and]
  exact congrArg (bits.getD · false) (Nat.div_add_mod k 8)

/-- The bits from `a` on. -/
def bitsFrom (f : ℕ → BitVec 8) (a len : ℕ) : List Bool := (List.range' a len).map (byteBit f)

@[simp] theorem length_bitsFrom (f : ℕ → BitVec 8) (a len : ℕ) : (bitsFrom f a len).length = len := by simp [bitsFrom]

theorem bitsFrom_succ (f : ℕ → BitVec 8) (a len : ℕ) :
    bitsFrom f a (len + 1) = byteBit f a :: bitsFrom f (a + 1) len := by
  simp [bitsFrom, List.range'_succ]

theorem drop_bitsFrom (f : ℕ → BitVec 8) (a n len : ℕ) :
    (bitsFrom f a len).drop n = bitsFrom f (a + min n len) (len - n) := by
  rw [bitsFrom, bitsFrom, ← List.map_drop, List.drop_range']
  rcases Nat.le_total n len with h | h
  · rw [Nat.min_eq_left h, Nat.mul_one]
  · rw [Nat.sub_eq_zero_of_le h, List.range'_zero, List.range'_zero]

/-- Bytes behind which there is nothing come back from their bits. -/
theorem packBits_bitsFrom {f : ℕ → BitVec 8} {n : ℕ} (hend : ∀ p ≥ n, f p = 0#8) :
    packBits (bitsFrom f 0 (n * 8)) = f := by
  refine (keeps_packBits _).eq fun k => ?_
  rw [bitsFrom, List.getD_eq_getElem?_getD, List.getElem?_map]
  by_cases hk : k < n * 8
  · rw [List.getElem?_range' hk, Option.map_some, Option.getD_some]
    congr 1
    omega
  · rw [List.getElem?_eq_none (by rw [List.length_range']; omega), Option.map_none, Option.getD_none, byteBit,
      hend (k / 8) (by omega), BitVec.getLsbD_zero]

/-- A bit is taken out by shifting it to the highest place. -/
theorem shift_and_eq_byteBit (f : ℕ → BitVec 8) (k : ℕ) :
    (f (k / 8) <<< (k % 8) &&& 0x80#8 != 0#8) = byteBit f k := by
  have hbit : ∀ p < 8, ∀ b : BitVec 8, (b <<< p &&& 0x80#8 != 0#8) = b.getLsbD (7 - p) := by
    intro p hp
    interval_cases p <;> decide +kernel
  exact hbit _ (Nat.mod_lt k (by decide)) _

theorem bitsFrom_byte (f : ℕ → BitVec 8) (n : ℕ) : bitsFrom f (n * 8) 8 = bitsOf 8 (f n).toNat := by
  have hbit : ∀ i < 8, byteBit f (n * 8 + i) = (f n).toNat.testBit (7 - i) := by
    intro i hi
    have hbyte : (n * 8 + i) / 8 = n := by omega
    have hmod : (n * 8 + i) % 8 = i := by omega
    rw [byteBit, hbyte, hmod, BitVec.testBit_toNat]
  rw [bitsFrom, List.range'_eq_map_range, List.map_map]
  simpa [List.range_succ, hbit, bitsOf] using hbit 0 (by decide)

/-- Whole bytes are read as numbers of eight bits. -/
theorem bitsFrom_bytes (f : ℕ → BitVec 8) (n : ℕ) :
    bitsFrom f 0 (n * 8) = ((List.range n).map f).flatMap fun b => bitsOf 8 b.toNat := by
  induction n with
  | zero => simp [bitsFrom]
  | succ n ih =>
    have happend : bitsFrom f 0 (n * 8 + 8) = bitsFrom f 0 (n * 8) ++ bitsFrom f (n * 8) 8 := by
      rw [bitsFrom, bitsFrom, bitsFrom, ← List.map_append]
      congr 1
      simpa using (List.range'_append_1 (s := 0) (m := n * 8) (n := 8)).symm
    rw [Nat.succ_mul, happend, ih, bitsFrom_byte, List.range_succ]
    simp

end OpenMV.Schemes
