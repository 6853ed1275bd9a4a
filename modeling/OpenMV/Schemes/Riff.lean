import OpenMV.Schemes.Bytes

/-! RIFF files | scheme:codec

    A RIFF file is a sequence of chunks: a name of four bytes, a size, and that many bytes, filled up to
    an even number. The bytes of a chunk named `RIFF` or `LIST` are a type of four bytes and chunks
    again. The parser takes every byte for what its place says, and refuses bytes left over. -/

namespace OpenMV.Schemes.Riff

/-- Chunks one after the other. -/
inductive Chunks where
  | nil
  | leaf (id data : List UInt8) (rest : Chunks)
  | list (id type : List UInt8) (sub rest : Chunks)
deriving DecidableEq, Repr

/-- The names of chunks that are made of chunks. -/
def isList (id : List UInt8) : Prop := id = [0x52, 0x49, 0x46, 0x46] ∨ id = [0x4C, 0x49, 0x53, 0x54]

instance (id : List UInt8) : Decidable (isList id) := inferInstanceAs (Decidable (_ ∨ _))

/-- The chunks that fill exactly these bytes. -/
def parse : ℕ → List UInt8 → Option Chunks
  | 0, s => if s = [] then some .nil else none
  | fuel + 1, s =>
    if s = [] then some .nil
    else
      let id := s.take 4
      let size := rd32 (s.drop 4)
      let body := (s.drop 8).take size
      if s.length < 8 + size + size % 2 then none
      else
        match parse fuel (s.drop (8 + size + size % 2)) with
        | none => none
        | some rest =>
          if isList id then
            if size < 4 then none
            else
              match parse fuel (body.drop 4) with
              | none => none
              | some sub => some (.list id (body.take 4) sub rest)
          else some (.leaf id body rest)

/-- The bytes of chunks. -/
def encode : Chunks → List UInt8
  | .nil => []
  | .leaf id data rest =>
    id ++ le32 data.length ++ data ++ List.replicate (data.length % 2) 0 ++ encode rest
  | .list id type sub rest => id ++ le32 (4 + (encode sub).length) ++ type ++ encode sub ++ encode rest

/-- The names have four bytes, and are those of lists where there are chunks inside. -/
def Chunks.Ok : Chunks → Prop
  | .nil => True
  | .leaf id _ rest => id.length = 4 ∧ ¬ isList id ∧ rest.Ok
  | .list id type sub rest => id.length = 4 ∧ isList id ∧ type.length = 4 ∧ sub.Ok ∧ rest.Ok

theorem even_length_encode : ∀ {c : Chunks}, c.Ok → (encode c).length % 2 = 0
  | .nil, _ => rfl
  | .leaf id data rest, ⟨hid, _, hrest⟩ => by
    have := even_length_encode hrest
    simp only [encode, List.length_append, length_le32, List.length_replicate]
    omega
  | .list id type sub rest, ⟨hid, _, htype, hsub, hrest⟩ => by
    have h1 := even_length_encode hsub
    have h2 := even_length_encode hrest
    simp only [encode, List.length_append, length_le32]
    omega

/-- One chunk is taken off. -/
theorem parse_append {id body pad : List UInt8} (hid : id.length = 4) (hbody : body.length < 4294967296)
    (hpad : pad.length = body.length % 2) (s : List UInt8) (fuel : ℕ) :
    parse (fuel + 1) (id ++ le32 body.length ++ body ++ pad ++ s) =
      match parse fuel s with
      | none => none
      | some rest =>
        if isList id then
          if body.length < 4 then none
          else
            match parse fuel (body.drop 4) with
            | none => none
            | some sub => some (.list id (body.take 4) sub rest)
        else some (.leaf id body rest) := by
  have hne : id ++ le32 body.length ++ body ++ pad ++ s ≠ [] := by
    intro h
    have := congrArg List.length h
    simp only [List.length_append, length_le32, List.length_nil] at this
    omega
  have hsize : rd32 ((id ++ le32 body.length ++ body ++ pad ++ s).drop 4) = body.length := by
    rw [List.append_assoc, List.append_assoc, List.append_assoc, List.drop_left' hid,
      rd32_le32_append, Nat.mod_eq_of_lt hbody]
  have hhead : (id ++ le32 body.length).length = 8 := by
    rw [List.length_append, hid, length_le32]
  have htake : ((id ++ le32 body.length ++ body ++ pad ++ s).drop 8).take body.length = body := by
    rw [List.append_assoc, List.append_assoc, List.drop_left' hhead, List.take_left' rfl]
  have hrest : (id ++ le32 body.length ++ body ++ pad ++ s).drop
      (8 + body.length + body.length % 2) = s := by
    refine List.drop_left' ?_
    rw [List.length_append, List.length_append, hhead, hpad]
  have hid' : (id ++ le32 body.length ++ body ++ pad ++ s).take 4 = id := by
    rw [List.append_assoc, List.append_assoc, List.append_assoc, List.take_left' hid]
  have hlen : ¬ (id ++ le32 body.length ++ body ++ pad ++ s).length <
      8 + body.length + body.length % 2 := by
    rw [List.length_append, List.length_append, List.length_append, hhead, hpad]
    omega
  rw [parse, if_neg hne]
  simp only [hsize, if_neg hlen, htake, hrest, hid']

/-- The parser takes apart what was put together. -/
theorem parse_encode : ∀ {c : Chunks}, c.Ok → (encode c).length < 4294967296 →
    ∀ {fuel : ℕ}, (encode c).length ≤ fuel → parse fuel (encode c) = some c
  | .nil, _, _, fuel, _ => by cases fuel <;> rfl
  | .leaf id data rest, ⟨hid, hleaf, hrest⟩, hlt, fuel, hfuel => by
    simp only [encode, List.length_append, length_le32, List.length_replicate] at hlt hfuel
    obtain ⟨fuel, rfl⟩ := Nat.exists_eq_succ_of_ne_zero (show fuel ≠ 0 by omega)
    rw [encode, parse_append hid (by omega) List.length_replicate,
      parse_encode hrest (by omega) (by omega)]
    simp only [if_neg hleaf]
  | .list id type sub rest, ⟨hid, hlist, htype, hsub, hrest⟩, hlt, fuel, hfuel => by
    have heven := even_length_encode hsub
    simp only [encode, List.length_append, length_le32] at hlt hfuel
    obtain ⟨fuel, rfl⟩ := Nat.exists_eq_succ_of_ne_zero (show fuel ≠ 0 by omega)
    have hbody : (type ++ encode sub).length = 4 + (encode sub).length := by
      rw [List.length_append, htype]
    have happ := parse_append hid (show (type ++ encode sub).length < _ by omega)
      (show ([] : List UInt8).length = _ by rw [hbody, List.length_nil]; omega) (encode rest) fuel
    rw [hbody, List.append_nil, ← List.append_assoc, parse_encode hrest (by omega) (by omega),
      List.drop_left' htype, List.take_left' htype, parse_encode hsub (by omega) (by omega)] at happ
    rw [encode, happ]
    simp only [if_pos hlist, if_neg (show ¬ 4 + (encode sub).length < 4 by omega)]

end OpenMV.Schemes.Riff
