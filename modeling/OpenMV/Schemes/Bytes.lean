import Mathlib.Data.List.Basic
import Mathlib.Tactic.Ring

/-! Bytes in memory | scheme:encoding

    The firmware casts a byte buffer to words and copies blocks over it. A buffer is the list of its
    bytes; `poke` overwrites its first bytes, `le32` is a 32-bit word as the little-endian machine
    stores it and `rd32` reads one back. -/

namespace OpenMV.Schemes

/-- The buffer with the given bytes stored at its start. -/
def poke (buf bytes : List UInt8) : List UInt8 := bytes ++ buf.drop bytes.length

/-- The four bytes of a word, least significant first. -/
def le32 (n : ℕ) : List UInt8 :=
  [.ofNat n, .ofNat (n / 256), .ofNat (n / 65536), .ofNat (n / 16777216)]

/-- The two bytes of a half word, least significant first. -/
def le16 (n : ℕ) : List UInt8 := [.ofNat n, .ofNat (n / 256)]

/-- The half word at the start of the buffer. -/
def rd16 (buf : List UInt8) : ℕ := (buf.getD 0 0).toNat + 256 * (buf.getD 1 0).toNat

/-- The word at the start of the buffer; a byte past its end reads as zero. -/
def rd32 (buf : List UInt8) : ℕ :=
  (buf.getD 0 0).toNat + 256 * (buf.getD 1 0).toNat + 65536 * (buf.getD 2 0).toNat +
    16777216 * (buf.getD 3 0).toNat

@[simp] theorem length_le32 (n : ℕ) : (le32 n).length = 4 := rfl

theorem rd32_le32_append (n : ℕ) (r : List UInt8) : rd32 (le32 n ++ r) = n % 4294967296 := by
  simp only [rd32, le32, List.cons_append, List.getD_cons_zero, List.getD_cons_succ,
    UInt8.toNat_ofNat']
  omega

@[simp] theorem length_le16 (n : ℕ) : (le16 n).length = 2 := rfl

theorem rd16_le16 (n : ℕ) : rd16 (le16 n) = n % 65536 := by
  simp only [rd16, le16, List.getD_cons_zero, List.getD_cons_succ, UInt8.toNat_ofNat']
  omega

theorem rd16_take : ∀ buf : List UInt8, rd16 (buf.take 2) = rd16 buf
  | [] => rfl
  | [_] => rfl
  | _ :: _ :: _ => rfl

theorem rd32_take : ∀ buf : List UInt8, rd32 (buf.take 4) = rd32 buf
  | [] => rfl
  | [_] => rfl
  | [_, _] => rfl
  | [_, _, _] => rfl
  | _ :: _ :: _ :: _ :: _ => rfl

theorem rd16_lt (buf : List UInt8) : rd16 buf < 65536 := by
  have h0 := (buf.getD 0 0).toNat_lt
  have h1 := (buf.getD 1 0).toNat_lt
  unfold rd16
  omega

theorem take_poke {buf bytes : List UInt8} {n : ℕ} (h : n ≤ bytes.length) :
    (poke buf bytes).take n = bytes.take n := List.take_append_of_le_length h

theorem length_poke {buf bytes : List UInt8} (h : bytes.length ≤ buf.length) :
    (poke buf bytes).length = buf.length := by
  simp only [poke, List.length_append, List.length_drop]
  omega

end OpenMV.Schemes
