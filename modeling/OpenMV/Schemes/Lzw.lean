import Mathlib.Data.List.Basic
import Mathlib.Data.Nat.Notation
import Mathlib.Tactic.Ring

/-! LZW with growing codes | scheme:codec

    The decoder for symbols of `m` bits. Codes below `2 ^ m` are symbols; the next two clear the
    dictionary and end the data; those after them are strings that the decoder has put together itself,
    one for each code since the last clear, and a code takes one bit more when they run out. Symbols can
    go out as they are if the dictionary is cleared before that happens. -/

namespace OpenMV.Schemes.Lzw

/-! ### Bits -/

/-- The lowest `n` bits of a number, least significant first. -/
def bitsLSB : ℕ → ℕ → List Bool
  | 0, _ => []
  | n + 1, v => (v % 2 == 1) :: bitsLSB n (v / 2)

def ofBitsLSB : List Bool → ℕ
  | [] => 0
  | b :: bs => b.toNat + 2 * ofBitsLSB bs

@[simp] theorem length_bitsLSB : ∀ n v : ℕ, (bitsLSB n v).length = n
  | 0, _ => rfl
  | n + 1, v => by rw [bitsLSB, List.length_cons, length_bitsLSB n]

theorem ofBitsLSB_bitsLSB : ∀ {n v : ℕ}, v < 2 ^ n → ofBitsLSB (bitsLSB n v) = v
  | 0, v, h => by
    rw [Nat.pow_zero, Nat.lt_one_iff] at h
    rw [h]
    rfl
  | n + 1, v, h => by
    have hv : v / 2 < 2 ^ n := by
      rw [Nat.pow_succ] at h
      omega
    rw [bitsLSB, ofBitsLSB, ofBitsLSB_bitsLSB hv]
    rcases Nat.mod_two_eq_zero_or_one v with h0 | h1
    · rw [h0, show ((0 : ℕ) == 1) = false from rfl, Bool.toNat_false]
      omega
    · rw [h1, show ((1 : ℕ) == 1) = true from rfl, Bool.toNat_true]
      omega

/-! ### The decoder -/

/-- The strings of the codes from `2 ^ m + 2` on, and the string of the last code. -/
structure State where
  width : ℕ
  dict : List (List ℕ)
  prev : Option (List ℕ)
deriving DecidableEq, Repr

/-- After a clear code. -/
def reset (m : ℕ) : State := ⟨m + 1, [], none⟩

/-- The string of a code; the next free one stands for the last string and its own first symbol. -/
def lookup (m : ℕ) (s : State) (code : ℕ) : Option (List ℕ) :=
  if code < 2 ^ m then some [code]
  else if code < 2 ^ m + 2 then none
  else if code = 2 ^ m + 2 + s.dict.length then s.prev.map fun p => p ++ p.take 1
  else s.dict[code - (2 ^ m + 2)]?

/-- A string is added for the last code and the first symbol of this one. -/
def learn (m : ℕ) (s : State) (entry : List ℕ) : State :=
  match s.prev with
  | none => { s with prev := some entry }
  | some p =>
    if 2 ^ m + 2 + s.dict.length < 4096 then
      { width := if 2 ^ m + 2 + (s.dict.length + 1) = 2 ^ s.width ∧ s.width < 12 then s.width + 1
          else s.width
        dict := s.dict ++ [p ++ entry.take 1]
        prev := some entry }
    else { s with prev := some entry }

/-- The symbols up to the end code; `none` if the data ends before it or a code has no string. -/
def decode (m : ℕ) : ℕ → State → List Bool → Option (List ℕ)
  | 0, _, _ => none
  | fuel + 1, s, bits =>
    if bits.length < s.width then none
    else
      let code := ofBitsLSB (bits.take s.width)
      let rest := bits.drop s.width
      if code = 2 ^ m then decode m fuel (reset m) rest
      else if code = 2 ^ m + 1 then some []
      else
        match lookup m s code with
        | none => none
        | some entry => (decode m fuel (learn m s entry) rest).map (entry ++ ·)

/-! ### Symbols as they are -/

/-- `n` more symbols can come before a code takes more bits. -/
def Room (m n : ℕ) (s : State) : Prop :=
  s.width = m + 1 ∧
    match s.prev with
    | none => s.dict = [] ∧ n + 2 ≤ 2 ^ m
    | some _ => s.dict.length + 1 + n + 2 ≤ 2 ^ m

theorem Room.learn {m n : ℕ} {s : State} (h : Room m (n + 1) s) (entry : List ℕ) :
    Room m n (Lzw.learn m s entry) := by
  obtain ⟨width, dict, prev⟩ := s
  obtain ⟨hw, h⟩ := h
  cases prev with
  | none =>
    obtain ⟨hd, hn⟩ := h
    dsimp only at hw hd
    subst hd
    exact ⟨hw, by show 0 + 1 + n + 2 ≤ 2 ^ m; omega⟩
  | some p =>
    dsimp only at hw h
    unfold Lzw.learn
    dsimp only
    split_ifs with h1 h2
    · rw [hw, Nat.pow_succ] at h2
      omega
    · exact ⟨hw, by show (dict ++ [_]).length + 1 + n + 2 ≤ 2 ^ m; rw [List.length_append]; simp; omega⟩
    · exact ⟨hw, by show dict.length + 1 + n + 2 ≤ 2 ^ m; omega⟩

theorem Room.reset {m n : ℕ} (h : n + 2 ≤ 2 ^ m) : Room m n (Lzw.reset m) := ⟨rfl, rfl, h⟩

section
variable {m : ℕ} {s : State} {rest : List Bool}

/-- One code is taken off. -/
theorem decode_code (hw : s.width = m + 1) {code : ℕ} (hc : code < 2 ^ (m + 1)) (fuel : ℕ) :
    decode m (fuel + 1) s (bitsLSB (m + 1) code ++ rest) =
      if code = 2 ^ m then decode m fuel (reset m) rest
      else if code = 2 ^ m + 1 then some []
      else
        match lookup m s code with
        | none => none
        | some entry => (decode m fuel (learn m s entry) rest).map (entry ++ ·) := by
  have hlen : ¬ (bitsLSB (m + 1) code ++ rest).length < s.width := by
    rw [List.length_append, length_bitsLSB]
    omega
  rw [decode, if_neg hlen]
  simp only [hw, List.take_left' (length_bitsLSB (m + 1) code), List.drop_left' (length_bitsLSB (m + 1) code),
    ofBitsLSB_bitsLSB hc]

theorem decode_symbol (hw : s.width = m + 1) {code : ℕ} (hc : code < 2 ^ m) (fuel : ℕ) :
    decode m (fuel + 1) s (bitsLSB (m + 1) code ++ rest) =
      (decode m fuel (learn m s [code]) rest).map (code :: ·) := by
  have hpow : (2 : ℕ) ^ (m + 1) = 2 ^ m + 2 ^ m := by ring
  have hlookup : lookup m s code = some [code] := if_pos hc
  rw [decode_code hw (by omega), if_neg (by omega), if_neg (by omega), hlookup]
  rfl

theorem decode_symbols (rest : List Bool) : ∀ {codes : List ℕ} {s : State}, Room m codes.length s →
    (∀ c ∈ codes, c < 2 ^ m) → ∃ s', s'.width = m + 1 ∧ ∀ fuel,
      decode m (fuel + codes.length) s (codes.flatMap (bitsLSB (m + 1)) ++ rest) =
        (decode m fuel s' rest).map (codes ++ ·)
  | [], s, h, _ => ⟨s, h.1, fun fuel => by
      rw [List.flatMap_nil, List.nil_append]
      exact Option.map_id'.symm⟩
  | c :: codes, s, h, hc => by
    obtain ⟨s', hw, ih⟩ := decode_symbols rest (h.learn [c]) fun c hcs => hc c (.tail _ hcs)
    refine ⟨s', hw, fun fuel => ?_⟩
    rw [List.flatMap_cons, List.append_assoc, List.length_cons, ← Nat.add_assoc,
      decode_symbol h.1 (hc c (.head _)), ih fuel, Option.map_map]
    rfl

/-- Blocks that start with a clear code and are short enough come back as they are. -/
theorem decode_blocks : ∀ {blocks : List (List ℕ)} {s : State}, 1 ≤ m → s.width = m + 1 →
    (∀ b ∈ blocks, b.length + 2 ≤ 2 ^ m ∧ ∀ c ∈ b, c < 2 ^ m) → ∀ {fuel : ℕ},
    blocks.length + blocks.flatten.length < fuel →
    decode m fuel s (blocks.flatMap (fun b => bitsLSB (m + 1) (2 ^ m) ++ b.flatMap (bitsLSB (m + 1))) ++
      (bitsLSB (m + 1) (2 ^ m + 1) ++ rest)) = some blocks.flatten
  | [], s, hm, hw, _, fuel, hf => by
    obtain ⟨fuel, rfl⟩ := Nat.exists_eq_succ_of_ne_zero (show fuel ≠ 0 by omega)
    have hpow : (2 : ℕ) ^ (m + 1) = 2 ^ m + 2 ^ m := by ring
    have htwo : 2 ^ 1 ≤ 2 ^ m := Nat.pow_le_pow_right (by decide) hm
    rw [List.flatMap_nil, List.nil_append, decode_code hw (by omega), if_neg (by omega), if_pos rfl]
    rfl
  | b :: blocks, s, hm, hw, hb, fuel, hf => by
    obtain ⟨hlen, hc⟩ := hb b (.head _)
    rw [List.length_cons, List.flatten_cons, List.length_append] at hf
    obtain ⟨fuel, rfl⟩ := Nat.exists_eq_add_of_lt hf
    have hpow : (2 : ℕ) ^ (m + 1) = 2 ^ m + 2 ^ m := by ring
    have htwo : 2 ^ 1 ≤ 2 ^ m := Nat.pow_le_pow_right (by decide) hm
    obtain ⟨s', hw', hdec⟩ := decode_symbols (blocks.flatMap (fun b => bitsLSB (m + 1) (2 ^ m) ++
      b.flatMap (bitsLSB (m + 1))) ++ (bitsLSB (m + 1) (2 ^ m + 1) ++ rest)) (Room.reset hlen) hc
    rw [List.flatMap_cons, List.append_assoc, List.append_assoc,
      show blocks.length + 1 + (b.length + blocks.flatten.length) + fuel + 1 =
        (blocks.length + blocks.flatten.length + fuel + 1 + b.length) + 1 by omega,
      decode_code hw (by omega), if_pos rfl, hdec,
      decode_blocks hm hw' (fun b hbs => hb b (.tail _ hbs)) (by omega), List.flatten_cons]
    rfl

theorem length_flatMap_bitsLSB (k : ℕ) : ∀ codes : List ℕ,
    (codes.flatMap (bitsLSB k)).length = codes.length * k
  | [] => (Nat.zero_mul k).symm
  | c :: codes => by
    rw [List.flatMap_cons, List.length_append, length_bitsLSB, length_flatMap_bitsLSB k codes,
      List.length_cons]
    ring

/-- There are no more codes than bits. -/
theorem length_le_bits (m code : ℕ) : ∀ blocks : List (List ℕ), blocks.length + blocks.flatten.length ≤
    (blocks.flatMap fun b => bitsLSB (m + 1) code ++ b.flatMap (bitsLSB (m + 1))).length
  | [] => Nat.le_refl _
  | b :: blocks => by
    have ih := length_le_bits m code blocks
    have hb : b.length ≤ b.length * (m + 1) := Nat.le_mul_of_pos_right _ (Nat.succ_pos m)
    rw [List.flatMap_cons, List.length_append, List.length_append, length_bitsLSB, length_flatMap_bitsLSB,
      List.length_cons, List.flatten_cons, List.length_append]
    omega

end

end OpenMV.Schemes.Lzw
