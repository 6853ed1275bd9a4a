import Mathlib.Data.Nat.Bitwise
import Mathlib.Tactic.Ring

/-! Bit strings and canonical prefix codes | scheme:codec

    Bits are written most significant first. A canonical prefix code is given by the number of code
    words of each length and the list of its symbols in the order of the code words; `decodeSym`
    reads one symbol with nothing but these two lists. Escaping puts a filler after every occurrence
    of one letter. -/

namespace OpenMV.Schemes

/-! ### Bit strings -/

/-- The lowest `len` bits of `n`. -/
def bitsOf : ℕ → ℕ → List Bool
  | 0, _ => []
  | len + 1, n => n.testBit len :: bitsOf len n

/-- The number a bit string stands for. -/
def ofBits (bs : List Bool) : ℕ := bs.foldl (fun a b => 2 * a + b.toNat) 0

@[simp] theorem length_bitsOf : ∀ len n : ℕ, (bitsOf len n).length = len
  | 0, _ => rfl
  | len + 1, n => by rw [bitsOf, List.length_cons, length_bitsOf len n]

theorem getD_bitsOf : ∀ (len n i : ℕ),
    (bitsOf len n).getD i false = (decide (i < len) && n.testBit (len - 1 - i))
  | 0, n, i => by simp [bitsOf]
  | len + 1, n, 0 => by simp [bitsOf]
  | len + 1, n, i + 1 => by
      rw [bitsOf, List.getD_cons_succ, getD_bitsOf len n i]
      simp [show len - 1 - i = len - (i + 1) by omega]

theorem foldl_bitsOf : ∀ (len n a : ℕ),
    (bitsOf len n).foldl (fun a b => 2 * a + b.toNat) a = a * 2 ^ len + n % 2 ^ len
  | 0, n, a => by simp [bitsOf, Nat.mod_one]
  | len + 1, n, a => by
      have hbit : (n.testBit len).toNat = n / 2 ^ len % 2 := by
        rw [Nat.testBit_eq_decide_div_mod_eq]
        rcases Nat.mod_two_eq_zero_or_one (n / 2 ^ len) with h | h <;> simp [h]
      rw [bitsOf, List.foldl_cons, foldl_bitsOf len n, hbit, Nat.mod_pow_succ]
      ring

theorem ofBits_bitsOf {len n : ℕ} (h : n < 2 ^ len) : ofBits (bitsOf len n) = n := by
  rw [ofBits, foldl_bitsOf, Nat.zero_mul, Nat.zero_add, Nat.mod_eq_of_lt h]

/-- Read a number of `len` bits. -/
def receive (len : ℕ) (bits : List Bool) : Option (ℕ × List Bool) :=
  if len ≤ bits.length then some (ofBits (bits.take len), bits.drop len) else none

theorem receive_bitsOf {len n : ℕ} (h : n < 2 ^ len) (rest : List Bool) :
    receive len (bitsOf len n ++ rest) = some (n, rest) := by
  have htake : (bitsOf len n ++ rest).take len = bitsOf len n := by
    rw [List.take_append_of_le_length (by simp), List.take_of_length_le (by simp)]
  have hdrop : (bitsOf len n ++ rest).drop len = rest := List.drop_left' (length_bitsOf len n)
  rw [receive, if_pos (by simp), htake, hdrop, ofBits_bitsOf h]

/-! ### Canonical codes -/

/-- One symbol of the code with `counts` words of the lengths 1, 2, ... and the symbols `values`.
    `first` is the first word of the current length; the symbols of shorter words are dropped on the
    way. -/
def decodeSym {α : Type*} : List α → List ℕ → ℕ → ℕ → List Bool → Option (α × List Bool)
  | _, [], _, _, _ => none
  | _, _ :: _, _, _, [] => none
  | values, n :: counts, code, first, b :: bits =>
    let code := code + b.toNat
    if code < first + n then values[code - first]?.map fun v => (v, bits)
    else decodeSym (values.drop n) counts (2 * code) (2 * (first + n)) bits

/-- What follows a code word does not matter. -/
theorem decodeSym_append {α : Type*} {more : List Bool} :
    ∀ {values : List α} {counts : List ℕ} {code first : ℕ} {bits rest : List Bool} {v : α},
      decodeSym values counts code first bits = some (v, rest) →
      decodeSym values counts code first (bits ++ more) = some (v, rest ++ more)
  | _, [], _, _, _, _, _, h => by simp [decodeSym] at h
  | _, _ :: _, _, _, [], _, _, h => by simp [decodeSym] at h
  | values, n :: counts, code, first, b :: bits, rest, v, h => by
      simp only [decodeSym, List.cons_append] at h ⊢
      split_ifs at h ⊢ with hlt
      · obtain ⟨w, hw, hv⟩ := Option.map_eq_some_iff.mp h
        rw [hw, Option.map_some]
        cases hv
        rfl
      · exact decodeSym_append h

/-! ### Escaping -/

section Escape

variable {α : Type*} [DecidableEq α] (e z : α)

/-- Put a `z` after every `e`. -/
def escape : List α → List α
  | [] => []
  | x :: xs => if x = e then x :: z :: escape xs else x :: escape xs

/-- Take a `z` after an `e` away. -/
def unescape : List α → List α
  | [] => []
  | [x] => [x]
  | x :: y :: xs => if x = e ∧ y = z then x :: unescape xs else x :: unescape (y :: xs)

/-- Every `e` is followed by a `z`. -/
def Escaped : List α → Prop
  | [] => True
  | x :: xs => (x = e → xs.head? = some z) ∧ Escaped xs

variable {e z}

theorem escape_append (xs ys : List α) : escape e z (xs ++ ys) = escape e z xs ++ escape e z ys := by
  induction xs with
  | nil => rfl
  | cons x xs ih =>
    simp only [List.cons_append, escape, ih]
    split_ifs <;> rfl

theorem unescape_escape (xs : List α) : unescape e z (escape e z xs) = xs := by
  induction xs with
  | nil => rfl
  | cons x xs ih =>
    by_cases hx : x = e
    · simp [escape, unescape, hx, ih]
    · rw [escape, if_neg hx]
      rcases hxs : escape e z xs with _ | ⟨y, ys⟩
      · rw [hxs] at ih
        rw [← ih]
        rfl
      · rw [unescape, if_neg (fun h => hx h.1), ← hxs, ih]

theorem escaped_escape (hez : z ≠ e) (xs : List α) : Escaped e z (escape e z xs) := by
  induction xs with
  | nil => trivial
  | cons x xs ih =>
    by_cases hx : x = e
    · simp [escape, hx, Escaped, hez, ih]
    · simp [escape, hx, Escaped, ih]

end Escape

end OpenMV.Schemes
