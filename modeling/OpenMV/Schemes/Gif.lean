import OpenMV.Schemes.Bytes
import OpenMV.Schemes.Lzw

/-! GIF files | scheme:codec

    A GIF89a file is a header, a table of colours and blocks: extensions, images and the trailer. What a
    block carries is cut into pieces of at most 255 bytes, each behind its length, and an empty piece ends
    it. The pieces of an image are put together, read as bits from the lowest of each byte on, and decoded
    into one index for each pixel. -/

namespace OpenMV.Schemes.Gif

/-! ### Pieces -/

/-- The bytes of all pieces and what comes behind them. -/
def subBlocks : ℕ → List UInt8 → Option (List UInt8 × List UInt8)
  | 0, _ => none
  | _ + 1, [] => none
  | fuel + 1, n :: s =>
    if n = 0 then some ([], s)
    else if s.length < n.toNat then none
    else
      match subBlocks fuel (s.drop n.toNat) with
      | none => none
      | some (data, rest) => some (s.take n.toNat ++ data, rest)

/-- A piece behind its length. -/
def piece (data : List UInt8) : List UInt8 := .ofNat data.length :: data

theorem subBlocks_pieces (rest : List UInt8) : ∀ {ps : List (List UInt8)},
    (∀ p ∈ ps, 0 < p.length ∧ p.length < 256) → ∀ {fuel : ℕ}, ps.length < fuel →
    subBlocks fuel (ps.flatMap piece ++ 0 :: rest) = some (ps.flatten, rest)
  | [], _, fuel, hf => by
    obtain ⟨fuel, rfl⟩ := Nat.exists_eq_succ_of_ne_zero (show fuel ≠ 0 by omega)
    rfl
  | p :: ps, h, fuel, hf => by
    obtain ⟨fuel, rfl⟩ := Nat.exists_eq_succ_of_ne_zero (show fuel ≠ 0 by omega)
    obtain ⟨h0, h1⟩ := h p (.head _)
    have hn : (UInt8.ofNat p.length).toNat = p.length := by
      rw [UInt8.toNat_ofNat']
      omega
    have hne : UInt8.ofNat p.length ≠ 0 := by
      intro he
      rw [he] at hn
      exact h0.ne hn
    have ih := subBlocks_pieces rest (fun p hp => h p (.tail _ hp)) (Nat.lt_of_succ_lt_succ hf)
    rw [List.flatMap_cons, piece, List.cons_append, List.cons_append, List.append_assoc, subBlocks,
      if_neg hne, hn, List.length_append, if_neg (by omega), List.drop_left' rfl, ih,
      List.take_left' rfl]
    rfl

theorem length_le_flatMap_piece : ∀ ps : List (List UInt8), ps.length ≤ (ps.flatMap piece).length
  | [] => Nat.le_refl _
  | p :: ps => by
    have := length_le_flatMap_piece ps
    rw [List.flatMap_cons, List.length_append, piece, List.length_cons, List.length_cons]
    omega

/-! ### Images -/

structure Frame where
  left : ℕ
  top : ℕ
  width : ℕ
  height : ℕ
  indices : List ℕ
deriving DecidableEq, Repr

structure Movie where
  width : ℕ
  height : ℕ
  table : List UInt8
  frames : List Frame
deriving DecidableEq, Repr

/-- The bytes of the table of colours that the flags announce. -/
def tableSize (flags : UInt8) : ℕ := if flags &&& 0x80 = 0 then 0 else 3 * 2 ^ ((flags &&& 7).toNat + 1)

def bits (data : List UInt8) : List Bool := data.flatMap fun b => Lzw.bitsLSB 8 b.toNat

/-- An image behind its `0x2C`, and what comes behind it. Its lines are in order, it has an index for
    each pixel and it lies on the screen. -/
def image (width height : ℕ) (s : List UInt8) : Option (Frame × List UInt8) :=
  let flags := s.getD 8 0
  let codes := s.drop (9 + tableSize flags)
  let m := (codes.getD 0 0).toNat
  if codes = [] ∨ flags &&& 0x40 ≠ 0 ∨ m < 2 ∨ 8 < m then none
  else
    match subBlocks s.length (codes.drop 1) with
    | none => none
    | some (data, rest) =>
      match Lzw.decode m ((bits data).length + 1) (Lzw.reset m) (bits data) with
      | none => none
      | some indices =>
        let f : Frame := ⟨rd16 s, rd16 (s.drop 2), rd16 (s.drop 4), rd16 (s.drop 6), indices⟩
        if f.left + f.width ≤ width ∧ f.top + f.height ≤ height ∧ f.indices.length = f.width * f.height then
          some (f, rest)
        else none

/-- The images of the blocks up to the trailer. -/
def blocks (width height : ℕ) : ℕ → List UInt8 → Option (List Frame)
  | 0, _ => none
  | _ + 1, [] => none
  | fuel + 1, b :: s =>
    if b = 0x3B then if s = [] then some [] else none
    else if b = 0x21 then
      match subBlocks s.length (s.drop 1) with
      | none => none
      | some (_, rest) => blocks width height fuel rest
    else if b = 0x2C then
      match image width height s with
      | none => none
      | some (f, rest) => (blocks width height fuel rest).map (f :: ·)
    else none

def signature : List UInt8 := [0x47, 0x49, 0x46, 0x38, 0x39, 0x61]

def decode (s : List UInt8) : Option Movie :=
  let width := rd16 (s.drop 6)
  let height := rd16 (s.drop 8)
  let size := tableSize (s.getD 10 0)
  if s.take 6 ≠ signature ∨ s.length < 13 + size then none
  else
    (blocks width height s.length (s.drop (13 + size))).map
      (⟨width, height, (s.drop 13).take size, ·⟩)

/-! ### Reading back -/

/-- Codes of eight bits fill the bytes. -/
theorem bits_map_ofNat : ∀ {codes : List ℕ}, (∀ c ∈ codes, c < 256) →
    bits (codes.map UInt8.ofNat) = codes.flatMap (Lzw.bitsLSB 8)
  | [], _ => rfl
  | c :: codes, h => by
    have hc : (UInt8.ofNat c).toNat = c := by
      rw [UInt8.toNat_ofNat']
      exact Nat.mod_eq_of_lt (h c (.head _))
    have ih := bits_map_ofNat fun c hc => h c (.tail _ hc)
    unfold bits at ih
    rw [bits, List.map_cons, List.flatMap_cons, hc, ih, List.flatMap_cons]

theorem length_pieces_lt (ps : List (List UInt8)) (rest : List UInt8) :
    ps.length < (ps.flatMap piece ++ 0 :: rest).length := by
  have := length_le_flatMap_piece ps
  rw [List.length_append, List.length_cons]
  omega

/-- An extension is skipped. -/
theorem blocks_extension {ps : List (List UInt8)} (hps : ∀ p ∈ ps, 0 < p.length ∧ p.length < 256)
    (width height fuel : ℕ) (label : UInt8) (rest : List UInt8) :
    blocks width height (fuel + 1) (0x21 :: label :: (ps.flatMap piece ++ 0 :: rest)) =
      blocks width height fuel rest := by
  have hlen := length_pieces_lt ps rest
  rw [blocks, if_neg (by decide), if_pos rfl, List.drop_one, List.tail_cons,
    subBlocks_pieces rest hps (by rw [List.length_cons]; omega)]

/-- An image without a table of its own. -/
theorem blocks_image {ps : List (List UInt8)} (hps : ∀ p ∈ ps, 0 < p.length ∧ p.length < 256)
    {width height w h : ℕ} (hw : w < 65536) (hh : h < 65536) (hwidth : w ≤ width) (hheight : h ≤ height)
    {m : UInt8} (hm : 2 ≤ m.toNat ∧ m.toNat ≤ 8) {indices : List ℕ} (hlen : indices.length = w * h)
    (hdec : Lzw.decode m.toNat ((bits ps.flatten).length + 1) (Lzw.reset m.toNat) (bits ps.flatten) =
      some indices) (fuel : ℕ) (rest : List UInt8) :
    blocks width height (fuel + 1)
        (0x2C :: (le32 0 ++ le16 w ++ le16 h ++ [0, m] ++ (ps.flatMap piece ++ 0 :: rest))) =
      (blocks width height fuel rest).map (⟨0, 0, w, h, indices⟩ :: ·) := by
  have hpieces := length_pieces_lt ps rest
  have himage : image width height (le32 0 ++ le16 w ++ le16 h ++ [0, m] ++
      (ps.flatMap piece ++ 0 :: rest)) = some (⟨0, 0, w, h, indices⟩, rest) := by
    have hsub := subBlocks_pieces rest hps (show ps.length <
      (le32 0 ++ le16 w ++ le16 h ++ [0, m] ++ (ps.flatMap piece ++ 0 :: rest)).length by
        rw [List.length_append]; omega)
    generalize ps.flatMap piece ++ 0 :: rest = t at *
    have hsize : tableSize 0 = 0 := rfl
    have hrw : rd16 ((le16 w ++ le16 h ++ [0, m]) ++ t) = w :=
      (rd16_le16 w).trans (Nat.mod_eq_of_lt hw)
    have hrh : rd16 (le16 h ++ [0, m] ++ t) = h := (rd16_le16 h).trans (Nat.mod_eq_of_lt hh)
    unfold image
    dsimp only
    rw [show (le32 0 ++ le16 w ++ le16 h ++ [0, m] ++ t).getD 8 0 = 0 from rfl, hsize,
      show (le32 0 ++ le16 w ++ le16 h ++ [0, m] ++ t).drop (9 + 0) = m :: t from rfl,
      show (le32 0 ++ le16 w ++ le16 h ++ [0, m] ++ t).drop 4 = le16 w ++ le16 h ++ [0, m] ++ t from rfl,
      show (le32 0 ++ le16 w ++ le16 h ++ [0, m] ++ t).drop 6 = le16 h ++ [0, m] ++ t from rfl,
      List.getD_cons_zero, if_neg (by simp; omega), List.drop_one, List.tail_cons, hsub]
    dsimp only
    rw [hdec]
    dsimp only
    rw [hrw, hrh, if_pos ⟨by show 0 + w ≤ width; omega, by show 0 + h ≤ height; omega, hlen⟩]
    rfl
  rw [blocks, if_neg (by decide), if_neg (by decide), if_pos rfl, himage]

theorem decode_lt {s : List UInt8} {m : Movie} (h : decode s = some m) : m.width < 65536 ∧ m.height < 65536 := by
  unfold decode at h
  dsimp only at h
  split_ifs at h
  obtain ⟨frames, -, rfl⟩ := Option.map_eq_some_iff.1 h
  exact ⟨rd16_lt _, rd16_lt _⟩

theorem decode_header {flags : UInt8} {table : List UInt8} (htable : table.length = tableSize flags)
    (width height : ℕ) (a b : UInt8) (body : List UInt8) :
    decode (signature ++ le16 width ++ le16 height ++ [flags, a, b] ++ table ++ body) =
      (blocks (width % 65536) (height % 65536) (13 + table.length + body.length) body).map
        (⟨width % 65536, height % 65536, table, ·⟩) := by
  have hlen : (signature ++ le16 width ++ le16 height ++ [flags, a, b] ++ table ++ body).length =
      13 + table.length + body.length := by
    rw [List.length_append, List.length_append]
    rfl
  have hw : rd16 ((signature ++ le16 width ++ le16 height ++ [flags, a, b] ++ table ++ body).drop 6) =
      width % 65536 := rd16_le16 width
  have hh : rd16 ((signature ++ le16 width ++ le16 height ++ [flags, a, b] ++ table ++ body).drop 8) =
      height % 65536 := rd16_le16 height
  have h13 : (signature ++ le16 width ++ le16 height ++ [flags, a, b] ++ table ++ body).drop 13 =
      table ++ body := rfl
  have hbody : (signature ++ le16 width ++ le16 height ++ [flags, a, b] ++ table ++ body).drop
      (13 + table.length) = body := by
    rw [← List.drop_drop, h13, List.drop_left' rfl]
  unfold decode
  dsimp only
  rw [hw, hh, hlen, h13, show (signature ++ le16 width ++ le16 height ++ [flags, a, b] ++ table ++
    body).getD 10 0 = flags from rfl, ← htable, hbody, List.take_left' rfl,
    if_neg (by rintro (h | h); exacts [h rfl, by omega])]

end OpenMV.Schemes.Gif
