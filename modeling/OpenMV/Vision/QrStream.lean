import Mathlib.Tactic.Ring
import OpenMV.Vision.QrFormat

/-! The blocks of QR codes | scheme:polynomials | source:src/src/openmv/omv/img/qrcode.c

    The bytes that are read are those of all the blocks in turn: one byte of each block, and again. `codestream_ecc`
    puts the blocks together and mends them, so that their data bytes are in a row. -/

namespace OpenMV.Vision
open Schemes

/-! ### The code -/

def versionInfo (version : ℕ) : VersionInfo := quircVersionDb.getD version ⟨0, [], []⟩

/-- `sb_ecc` -/
def sbEcc (version level : ℕ) : RsParams := (versionInfo version).ecc.getD level ⟨0, 0, 0⟩

/-- `lb_count` -/
def lbCount (version level : ℕ) : ℕ :=
  let sb := sbEcc version level
  ((versionInfo version).dataBytes - sb.bs * sb.ns) / (sb.bs + 1)

/-- `bc` -/
def blockCount (version level : ℕ) : ℕ := lbCount version level + (sbEcc version level).ns

/-- `ecc_offset` -/
def eccOffset (version level : ℕ) : ℕ := (sbEcc version level).dw * blockCount version level + lbCount version level

/-- `ecc`, of a short or of a long block. -/
def blockEcc (version level i : ℕ) : RsParams :=
  let sb := sbEcc version level
  if i < sb.ns then sb else { sb with bs := sb.bs + 1, dw := sb.dw + 1 }

/-- The bytes of a block are put behind the data bytes that there are. -/
def fillBlock (version level : ℕ) (raw data : ℕ → BitVec 8) (dst i : ℕ) : ℕ → BitVec 8 :=
  let bc := blockCount version level
  let ecc := blockEcc version level i
  let numEc := ecc.bs - ecc.dw
  let data := (List.range ecc.dw).foldl (fun data j => Function.update data (dst + j) (raw (j * bc + i))) data
  (List.range numEc).foldl (fun data j =>
    Function.update data (dst + ecc.dw + j) (raw (eccOffset version level + j * bc + i))) data

/-- A round of `codestream_ecc`; the state is `dst_offset` and `data`. -/
def streamRound (version level : ℕ) (raw : ℕ → BitVec 8) (st : ℕ × (ℕ → BitVec 8)) (i : ℕ) :
    Except QuircError (ℕ × (ℕ → BitVec 8)) :=
  let (dst, data) := st
  let ecc := blockEcc version level i
  let data := fillBlock version level raw data dst i
  let (right, block) := correctBlock (fun k => data (dst + k)) ecc
  if right then .ok (dst + ecc.dw, fun k => if k < dst then data k else block (k - dst)) else .error .dataEcc

/-- `data_bits` and `data`. -/
def codestreamEcc (version level : ℕ) (raw : ℕ → BitVec 8) : Except QuircError (ℕ × (ℕ → BitVec 8)) :=
  match (List.range (blockCount version level)).foldlM (streamRound version level raw) (0, fun _ => 0#8) with
  | .error e => .error e
  | .ok (dst, data) => .ok (dst * 8, data)

/-! ### The table -/

/-- Short blocks and long blocks make up the bytes of a version; there are short ones always. -/
theorem versionDb_blocks : ∀ version ∈ List.range' 1 40, ∀ level < 4,
    (sbEcc version level).bs * (sbEcc version level).ns +
        lbCount version level * ((sbEcc version level).bs + 1) = (versionInfo version).dataBytes ∧
      0 < (sbEcc version level).ns ∧ (sbEcc version level).bs < 255 ∧
      (sbEcc version level).dw + 1 < (sbEcc version level).bs ∧
      (sbEcc version level).bs - (sbEcc version level).dw < maxPoly := by
  decide

theorem mem_versions {version : ℕ} (hversion : 1 ≤ version ∧ version ≤ quircMaxVersion) :
    version ∈ List.range' 1 40 := by
  have : version ≤ 40 := hversion.2
  simp only [List.mem_range'_1]
  omega

theorem dw_blockEcc (version level i : ℕ) : (blockEcc version level i).dw =
    (sbEcc version level).dw + if i < (sbEcc version level).ns then 0 else 1 := by
  rw [blockEcc]
  split <;> rfl

theorem bs_blockEcc (version level i : ℕ) : (blockEcc version level i).bs =
    (sbEcc version level).bs + if i < (sbEcc version level).ns then 0 else 1 := by
  rw [blockEcc]
  split <;> rfl

/-! ### One block -/

/-- Bytes in a row are filled one by one. -/
theorem foldl_fill (g : ℕ → BitVec 8) (data : ℕ → BitVec 8) (base n k : ℕ) :
    (List.range n).foldl (fun data j => Function.update data (base + j) (g j)) data k =
      if base ≤ k ∧ k < base + n then g (k - base) else data k := by
  induction n with
  | zero =>
    have hnone : ¬ (base ≤ k ∧ k < base + 0) := by omega
    rw [if_neg hnone]
    rfl
  | succ n ih =>
    rw [List.range_succ, List.foldl_append, List.foldl_cons, List.foldl_nil]
    by_cases hk : k = base + n
    · subst hk
      have hlast : base ≤ base + n ∧ base + n < base + (n + 1) := by omega
      rw [Function.update_self, if_pos hlast, Nat.add_sub_cancel_left]
    · have hiff : (base ≤ k ∧ k < base + (n + 1)) ↔ (base ≤ k ∧ k < base + n) := by omega
      rw [Function.update_of_ne hk, ih]
      simp only [hiff]

section Round
variable (version level : ℕ) (raw : ℕ → BitVec 8)

/-- Where the code takes byte `k` of block `i` from. -/
def takenPlace (i k : ℕ) : ℕ :=
  let bc := blockCount version level
  let dw := (blockEcc version level i).dw
  if k < dw then k * bc + i else eccOffset version level + (k - dw) * bc + i

def takenByte (i k : ℕ) : BitVec 8 := raw (takenPlace version level i k)

/-- The data bytes so far. -/
def dataRow (st : ℕ × (ℕ → BitVec 8)) : List (BitVec 8) := (List.range st.1).map st.2

variable {version level raw} {i : ℕ} {st st' : ℕ × (ℕ → BitVec 8)}

theorem fillBlock_of_lt {data : ℕ → BitVec 8} {dst k : ℕ} (hk : k < dst) :
    fillBlock version level raw data dst i k = data k := by
  have hnot : ∀ m n, ¬ (dst + m ≤ k ∧ k < dst + m + n) := by omega
  have hnot' : ∀ n, ¬ (dst ≤ k ∧ k < dst + n) := by omega
  rw [fillBlock]
  rw [foldl_fill fun j => raw (eccOffset version level + j * blockCount version level + i), if_neg (hnot _ _),
    foldl_fill fun j => raw (j * blockCount version level + i), if_neg (hnot' _)]

/-- The bytes that come to `correct_block`. -/
theorem fillBlock_eq {data : ℕ → BitVec 8} {dst k : ℕ} (hk : k < (blockEcc version level i).bs) :
    fillBlock version level raw data dst i (dst + k) = takenByte version level raw i k := by
  rw [fillBlock, takenByte, takenPlace]
  rw [foldl_fill fun j => raw (eccOffset version level + j * blockCount version level + i),
    foldl_fill fun j => raw (j * blockCount version level + i)]
  by_cases hdw : k < (blockEcc version level i).dw
  · rw [if_neg (by omega), if_pos (by omega), if_pos hdw, Nat.add_sub_cancel_left]
  · rw [if_pos (by omega), if_neg hdw, Nat.add_sub_add_left]

theorem dataRow_append {data data' block : ℕ → BitVec 8} {dst n : ℕ} (hkept : ∀ k < dst, data' k = data k)
    (hnew : ∀ k < n, data' (dst + k) = block k) :
    dataRow (dst + n, data') = dataRow (dst, data) ++ (List.range n).map block := by
  simp only [dataRow, List.range_add, List.map_append, List.map_map]
  congr 1
  · exact List.map_congr_left fun k hk => hkept k (List.mem_range.mp hk)
  · exact List.map_congr_left fun k hk => hnew k (List.mem_range.mp hk)

/-- A block with few enough wrong bytes adds the data bytes of the codeword. -/
theorem streamRound_of_few {code : ℕ → BitVec 8} {npar : ℕ} (hbs : (blockEcc version level i).bs ≤ 255)
    (hnpar : (blockEcc version level i).bs - (blockEcc version level i).dw = npar) (hmax : npar < maxPoly)
    (hdw : (blockEcc version level i).dw ≤ (blockEcc version level i).bs)
    (hcode : CodeBlock (blockEcc version level i).bs npar code)
    (hfew : 2 * (errorPlaces (takenByte version level raw i) (blockEcc version level i).bs code).card ≤ npar) :
    ∃ st', streamRound version level raw st i = .ok st' ∧
      dataRow st' = dataRow st ++ (List.range (blockEcc version level i).dw).map code := by
  obtain ⟨dst, data⟩ := st
  subst hnpar
  have hsame : errorPlaces (fun k => fillBlock version level raw data dst i (dst + k))
      (blockEcc version level i).bs code = errorPlaces (takenByte version level raw i)
      (blockEcc version level i).bs code := by
    refine Finset.filter_congr fun j hj => ?_
    have hk : (blockEcc version level i).bs - j - 1 < (blockEcc version level i).bs := by
      have := Finset.mem_range.mp hj
      omega
    simp only [fillBlock_eq hk]
  obtain ⟨hright, hblock⟩ := correctBlock_eq hcode hbs hmax (hsame ▸ hfew)
  rw [streamRound]
  dsimp only
  rw [hright, if_pos rfl]
  refine ⟨_, rfl, dataRow_append (fun k hk => ?_) fun k hk => ?_⟩
  · rw [if_pos hk, fillBlock_of_lt hk]
  · rw [if_neg (by omega), Nat.add_sub_cancel_left, hblock k, if_pos (hk.trans_le hdw)]

/-- What a block adds are data bytes of a codeword. -/
theorem codeBlock_of_streamRound (h : streamRound version level raw st i = .ok st') :
    ∃ code, CodeBlock (blockEcc version level i).bs
        ((blockEcc version level i).bs - (blockEcc version level i).dw) code ∧
      dataRow st' = dataRow st ++ (List.range (blockEcc version level i).dw).map code := by
  obtain ⟨dst, data⟩ := st
  rw [streamRound] at h
  dsimp only at h
  split at h
  case isTrue hright =>
    cases h
    refine ⟨_, codeBlock_of_correctBlock hright, dataRow_append (fun k hk => ?_) fun k hk => ?_⟩
    · rw [if_pos hk, fillBlock_of_lt hk]
    · rw [if_neg (by omega), Nat.add_sub_cancel_left]
  case isFalse => cases h

end Round

/-! ### All blocks -/

section Blocks
variable {version level : ℕ} {raw : ℕ → BitVec 8}

/-- The data bytes of the blocks, one block after the other. -/
def messageOf (version level n : ℕ) (code : ℕ → ℕ → BitVec 8) : List (BitVec 8) :=
  (List.range n).flatMap fun i => (List.range (blockEcc version level i).dw).map (code i)

theorem messageOf_succ (n : ℕ) (code : ℕ → ℕ → BitVec 8) : messageOf version level (n + 1) code =
    messageOf version level n code ++ (List.range (blockEcc version level n).dw).map (code n) := by
  simp [messageOf, List.range_succ]

theorem foldlM_streamRound {code : ℕ → ℕ → BitVec 8} (n : ℕ)
    (hround : ∀ i < n, ∀ st, ∃ st', streamRound version level raw st i = .ok st' ∧
      dataRow st' = dataRow st ++ (List.range (blockEcc version level i).dw).map (code i)) :
    ∃ st', (List.range n).foldlM (streamRound version level raw) (0, fun _ => 0#8) = .ok st' ∧
      dataRow st' = messageOf version level n code := by
  induction n with
  | zero => exact ⟨_, rfl, rfl⟩
  | succ n ih =>
    obtain ⟨st, hst, hrow⟩ := ih fun i hi => hround i (by omega)
    obtain ⟨st', hst', hrow'⟩ := hround n (Nat.lt_succ_self n) st
    refine ⟨st', ?_, by rw [hrow', hrow, messageOf_succ]⟩
    rw [List.range_succ, List.foldlM_append, hst]
    change (streamRound version level raw st n >>= pure) = _
    rw [hst']
    rfl

theorem codeBlocks_of_foldlM (n : ℕ) {st : ℕ × (ℕ → BitVec 8)}
    (h : (List.range n).foldlM (streamRound version level raw) (0, fun _ => 0#8) = .ok st) :
    ∃ code : ℕ → ℕ → BitVec 8,
      (∀ i < n, CodeBlock (blockEcc version level i).bs
        ((blockEcc version level i).bs - (blockEcc version level i).dw) (code i)) ∧
      dataRow st = messageOf version level n code := by
  induction n generalizing st with
  | zero =>
    cases h
    exact ⟨fun _ _ => 0#8, by simp, rfl⟩
  | succ n ih =>
    rw [List.range_succ, List.foldlM_append] at h
    cases hrun : (List.range n).foldlM (streamRound version level raw) (0, fun _ => 0#8) with
    | error e =>
      rw [hrun] at h
      cases h
    | ok st₁ =>
      rw [hrun] at h
      change (streamRound version level raw st₁ n >>= pure) = _ at h
      cases hlast : streamRound version level raw st₁ n with
      | error e =>
        rw [hlast] at h
        cases h
      | ok st₂ =>
        rw [hlast] at h
        cases h
        obtain ⟨code, hcode, hrow⟩ := ih hrun
        obtain ⟨block, hblock, hrow'⟩ := codeBlock_of_streamRound hlast
        refine ⟨Function.update code n block, fun i hi => ?_, ?_⟩
        · rcases Nat.lt_succ_iff_lt_or_eq.mp hi with hi | rfl
          · rw [Function.update_of_ne hi.ne]
            exact hcode i hi
          · rw [Function.update_self]
            exact hblock
        · rw [messageOf_succ, Function.update_self, hrow', hrow]
          congr 1
          refine List.flatMap_congr fun i hi => ?_
          rw [Function.update_of_ne (List.mem_range.mp hi).ne]

end Blocks

/-! ### The places of the bytes -/

section Places
variable (version level : ℕ)

/-- Where byte `k` of block `i` is drawn: the last data bytes of the long blocks are next to each other. -/
def streamPlace (i k : ℕ) : ℕ :=
  let sb := sbEcc version level
  let bc := blockCount version level
  let ecc := blockEcc version level i
  if k < sb.dw then k * bc + i
  else if k < ecc.dw then sb.dw * bc + (i - sb.ns)
  else eccOffset version level + (k - ecc.dw) * bc + i

/-- The bytes of a block that are not drawn as the codeword says. -/
def wrongBytes (raw code : ℕ → BitVec 8) (i : ℕ) : Finset ℕ :=
  (Finset.range (blockEcc version level i).bs).filter fun k => raw (streamPlace version level i k) ≠ code k

variable {version level} {raw : ℕ → BitVec 8}

/-- The code takes the bytes from where they are drawn, but for the last data bytes of the long blocks. -/
theorem card_errorPlaces_le (i : ℕ) (code : ℕ → BitVec 8) :
    (errorPlaces (takenByte version level raw i) (blockEcc version level i).bs code).card ≤
      (wrongBytes version level raw code i).card + if i < (sbEcc version level).ns then 0 else 1 := by
  have hsub : ∀ j ∈ errorPlaces (takenByte version level raw i) (blockEcc version level i).bs code,
      (blockEcc version level i).bs - j - 1 ∈ wrongBytes version level raw code i ∪
        if i < (sbEcc version level).ns then ∅ else {(sbEcc version level).dw} := by
    intro j hj
    obtain ⟨hlt, hne⟩ := mem_errorPlaces.mp hj
    generalize hk : (blockEcc version level i).bs - j - 1 = k at hne
    have hkbs : k < (blockEcc version level i).bs := by omega
    rw [takenByte] at hne
    by_cases hlast : ¬ i < (sbEcc version level).ns ∧ k = (sbEcc version level).dw
    · simp [hlast]
    · have hplace : takenPlace version level i k = streamPlace version level i k := by
        simp only [takenPlace, streamPlace]
        by_cases hshort : i < (sbEcc version level).ns
        · have hecc : (blockEcc version level i).dw = (sbEcc version level).dw := by
            rw [dw_blockEcc, if_pos hshort, Nat.add_zero]
          rw [hecc]
          split <;> rfl
        · have hecc : (blockEcc version level i).dw = (sbEcc version level).dw + 1 := by rw [dw_blockEcc, if_neg hshort]
          rw [hecc]
          have hne' : k ≠ (sbEcc version level).dw := fun h => hlast ⟨hshort, h⟩
          by_cases hlt : k < (sbEcc version level).dw
          · rw [if_pos hlt, if_pos (hlt.trans (Nat.lt_succ_self _))]
          · have hge : ¬ k < (sbEcc version level).dw + 1 := by omega
            rw [if_neg hlt, if_neg hge, if_neg hge]
      rw [hplace] at hne
      exact Finset.mem_union_left _ (Finset.mem_filter.mpr ⟨Finset.mem_range.mpr hkbs, hne⟩)
  calc (errorPlaces (takenByte version level raw i) (blockEcc version level i).bs code).card
      ≤ (wrongBytes version level raw code i ∪
          if i < (sbEcc version level).ns then ∅ else {(sbEcc version level).dw}).card := by
        refine Finset.card_le_card_of_injOn _ hsub fun j hj j' hj' heq => ?_
        have h1 := (mem_errorPlaces.mp hj).1
        have h2 := (mem_errorPlaces.mp hj').1
        omega
    _ ≤ (wrongBytes version level raw code i).card + _ := Finset.card_union_le _ _
    _ = _ := by
        congr 1
        split <;> rfl

theorem row_lt {q m bc i : ℕ} (hi : i < bc) (hq : q < m) : q * bc + i < m * bc :=
  calc q * bc + i < q * bc + bc := Nat.add_lt_add_left hi _
    _ = (q + 1) * bc := (Nat.succ_mul q bc).symm
    _ ≤ m * bc := Nat.mul_le_mul_right bc hq

theorem row_inj {q q' bc i i' : ℕ} (hi : i < bc) (hi' : i' < bc) (h : q * bc + i = q' * bc + i') : q = q' ∧ i = i' := by
  have hq : q = q' := by
    rcases lt_trichotomy q q' with hlt | heq | hlt
    · have := row_lt hi hlt
      omega
    · exact heq
    · have := row_lt hi' hlt
      omega
  subst hq
  exact ⟨rfl, Nat.add_left_cancel h⟩

theorem blockEcc_npar (i : ℕ) : (blockEcc version level i).bs - (blockEcc version level i).dw =
    (sbEcc version level).bs - (sbEcc version level).dw := by
  rw [bs_blockEcc, dw_blockEcc, Nat.add_sub_add_right]

/-- Data bytes that all blocks have, the last data bytes of the long blocks, check bytes. -/
theorem streamPlace_cases (version level i k : ℕ) :
    (k < (sbEcc version level).dw ∧ streamPlace version level i k = k * blockCount version level + i) ∨
    (k = (sbEcc version level).dw ∧ (sbEcc version level).ns ≤ i ∧ streamPlace version level i k =
      (sbEcc version level).dw * blockCount version level + (i - (sbEcc version level).ns)) ∨
    ((blockEcc version level i).dw ≤ k ∧ streamPlace version level i k =
      eccOffset version level + ((k - (blockEcc version level i).dw) * blockCount version level + i)) := by
  simp only [streamPlace]
  split
  case isTrue hlt => exact .inl ⟨hlt, rfl⟩
  case isFalse hge =>
    split
    case isTrue hlt =>
      refine .inr (.inl ?_)
      rw [dw_blockEcc] at hlt
      split at hlt
      · exact absurd hlt hge
      · exact ⟨by omega, by omega, rfl⟩
    case isFalse hge' => exact .inr (.inr ⟨by omega, Nat.add_assoc ..⟩)

/-- Different bytes are drawn at different places. -/
theorem streamPlace_inj {i k i' k' : ℕ} (hi : i < blockCount version level) (hk : k < (blockEcc version level i).bs)
    (hi' : i' < blockCount version level) (hk' : k' < (blockEcc version level i').bs)
    (h : streamPlace version level i k = streamPlace version level i' k') : i = i' ∧ k = k' := by
  have hbc : blockCount version level = lbCount version level + (sbEcc version level).ns := rfl
  have hoff : eccOffset version level =
    (sbEcc version level).dw * blockCount version level + lbCount version level := rfl
  rcases streamPlace_cases version level i k with ⟨hlt, hp⟩ | ⟨rfl, hlong, hp⟩ | ⟨hge, hp⟩ <;>
    rcases streamPlace_cases version level i' k' with ⟨hlt', hp'⟩ | ⟨hd', hlong', hp'⟩ | ⟨hge', hp'⟩ <;>
    rw [hp, hp'] at h
  · exact (row_inj hi hi' h).symm
  · have := row_lt hi hlt
    omega
  · have := row_lt hi hlt
    omega
  · have := row_lt hi' hlt'
    omega
  · omega
  · omega
  · have := row_lt hi' hlt'
    omega
  · omega
  · obtain ⟨hq, rfl⟩ := row_inj hi hi' (Nat.add_left_cancel h)
    omega

section Table
variable (hversion : version ∈ List.range' 1 40) (hlevel : level < 4)
include hversion hlevel

theorem dataBytes_eq : (versionInfo version).dataBytes =
    (sbEcc version level).bs * blockCount version level + lbCount version level := by
  obtain ⟨htotal, -⟩ := versionDb_blocks version hversion level hlevel
  rw [← htotal, blockCount]
  ring

/-- The check bytes come last. -/
theorem checkPlace_lt {i q : ℕ} (hi : i < blockCount version level)
    (hq : q < (sbEcc version level).bs - (sbEcc version level).dw) :
    eccOffset version level + q * blockCount version level + i < (versionInfo version).dataBytes := by
  rw [dataBytes_eq hversion hlevel, eccOffset]
  obtain ⟨m, hm⟩ : ∃ m, (sbEcc version level).bs = (sbEcc version level).dw + m :=
    ⟨(sbEcc version level).bs - (sbEcc version level).dw, by omega⟩
  rw [hm] at hq ⊢
  have := row_lt hi (show q < m by omega)
  rw [Nat.add_mul]
  omega

/-- The code reads within the bytes of the version. -/
theorem takenPlace_lt {i k : ℕ} (hi : i < blockCount version level) (hk : k < (blockEcc version level i).bs) :
    takenPlace version level i k < (versionInfo version).dataBytes := by
  obtain ⟨-, -, -, hdw, -⟩ := versionDb_blocks version hversion level hlevel
  have hnpar : (blockEcc version level i).bs - _ = _ := blockEcc_npar i
  have hle : (blockEcc version level i).dw ≤ (sbEcc version level).dw + 1 := by
    rw [dw_blockEcc]
    split <;> omega
  simp only [takenPlace]
  split
  case isTrue hlt =>
    have := row_lt hi (show k < (sbEcc version level).bs by omega)
    rw [dataBytes_eq hversion hlevel]
    omega
  case isFalse hge => exact checkPlace_lt hversion hlevel hi (by omega)

theorem streamPlace_lt {i k : ℕ} (hi : i < blockCount version level) (hk : k < (blockEcc version level i).bs) :
    streamPlace version level i k < (versionInfo version).dataBytes := by
  obtain ⟨-, -, -, hdw, -⟩ := versionDb_blocks version hversion level hlevel
  have hnpar : (blockEcc version level i).bs - _ = _ := blockEcc_npar i
  simp only [streamPlace]
  split
  case isTrue hlt =>
    have := row_lt hi (show k < (sbEcc version level).bs by omega)
    rw [dataBytes_eq hversion hlevel]
    omega
  case isFalse =>
    split
    case isTrue hlt =>
      have hlong : ¬ i < (sbEcc version level).ns := fun h => by
        rw [dw_blockEcc, if_pos h] at hlt
        omega
      have := row_lt (show i - (sbEcc version level).ns < blockCount version level by omega)
        (show (sbEcc version level).dw < (sbEcc version level).bs by omega)
      rw [dataBytes_eq hversion hlevel]
      omega
    case isFalse => exact checkPlace_lt hversion hlevel hi (by omega)

end Table

end Places

/-! ### The stream -/

section Stream
variable {version level : ℕ} {raw : ℕ → BitVec 8}

/-- The bytes of the blocks of a message, as they are to be drawn. -/
def CodeBlocks (version level : ℕ) (code : ℕ → ℕ → BitVec 8) : Prop :=
  ∀ i < blockCount version level, CodeBlock (blockEcc version level i).bs
    ((blockEcc version level i).bs - (blockEcc version level i).dw) (code i)

/-- Few enough bytes are wrong: a long block has one byte less to spare. -/
def FewWrong (version level : ℕ) (raw : ℕ → BitVec 8) (code : ℕ → ℕ → BitVec 8) : Prop :=
  ∀ i < blockCount version level,
    2 * ((wrongBytes version level raw (code i) i).card + if i < (sbEcc version level).ns then 0 else 1) ≤
      (blockEcc version level i).bs - (blockEcc version level i).dw

/-- The number of data bytes is where the check bytes begin. -/
theorem length_messageOf (code : ℕ → ℕ → BitVec 8) :
    (messageOf version level (blockCount version level) code).length = eccOffset version level := by
  have hrun : ∀ n, (messageOf version level n code).length =
      (sbEcc version level).dw * n + (n - (sbEcc version level).ns) := by
    intro n
    induction n with
    | zero => simp [messageOf]
    | succ n ih =>
      rw [messageOf_succ, List.length_append, ih, List.length_map, List.length_range, dw_blockEcc, Nat.mul_succ]
      split <;> omega
  rw [hrun, eccOffset, blockCount, Nat.add_sub_cancel_right]

theorem eq_eccOffset {dst : ℕ} {data : ℕ → BitVec 8} {code : ℕ → ℕ → BitVec 8}
    (h : dataRow (dst, data) = messageOf version level (blockCount version level) code) :
    dst = eccOffset version level := by
  have := congrArg List.length h
  rwa [length_messageOf, dataRow, List.length_map, List.length_range] at this

theorem codestreamEcc_of_few (hversion : version ∈ List.range' 1 40) (hlevel : level < 4) {code : ℕ → ℕ → BitVec 8}
    (hcode : CodeBlocks version level code) (hfew : FewWrong version level raw code) :
    ∃ data, codestreamEcc version level raw = .ok (eccOffset version level * 8, data) ∧
      (List.range (eccOffset version level)).map data =
        messageOf version level (blockCount version level) code := by
  obtain ⟨-, -, hbs, hdw, hmax⟩ := versionDb_blocks version hversion level hlevel
  have hround : ∀ i < blockCount version level, ∀ st, ∃ st', streamRound version level raw st i = .ok st' ∧
      dataRow st' = dataRow st ++ (List.range (blockEcc version level i).dw).map (code i) := by
    intro i hi st
    have hnpar : (blockEcc version level i).bs - _ = _ := blockEcc_npar i
    have hsize : (blockEcc version level i).bs ≤ (sbEcc version level).bs + 1 := by
      rw [bs_blockEcc]
      split <;> omega
    refine streamRound_of_few (by omega) rfl (by omega) (by omega) (hcode i hi) ?_
    exact (Nat.mul_le_mul_left 2 (card_errorPlaces_le i (code i))).trans (hfew i hi)
  obtain ⟨⟨dst, data⟩, hrun, hrow⟩ := foldlM_streamRound _ hround
  obtain rfl := eq_eccOffset hrow
  refine ⟨data, ?_, hrow⟩
  rw [codestreamEcc, hrun]

theorem codeBlocks_of_codestreamEcc {bits : ℕ} {data : ℕ → BitVec 8}
    (h : codestreamEcc version level raw = .ok (bits, data)) :
    bits = eccOffset version level * 8 ∧ ∃ code, CodeBlocks version level code ∧
      (List.range (eccOffset version level)).map data =
        messageOf version level (blockCount version level) code := by
  rw [codestreamEcc] at h
  split at h
  case h_1 => cases h
  case h_2 dst data' hrun =>
    cases h
    obtain ⟨code, hcode, hrow⟩ := codeBlocks_of_foldlM (blockCount version level) hrun
    obtain rfl := eq_eccOffset hrow
    exact ⟨rfl, code, hcode, hrow⟩

/-- The blocks are read within the bytes of the version, and what is drawn with few enough wrong bytes comes out as it
    was meant; whatever comes out are data bytes of codewords. -/
theorem codestream_ecc_corrects (hversion : 1 ≤ version ∧ version ≤ quircMaxVersion) (hlevel : level < 4)
    (raw : ℕ → BitVec 8) :
    (∀ i < blockCount version level, ∀ k < (blockEcc version level i).bs,
      takenPlace version level i k < (versionInfo version).dataBytes ∧
      streamPlace version level i k < (versionInfo version).dataBytes ∧
      ∀ i' < blockCount version level, ∀ k' < (blockEcc version level i').bs,
        streamPlace version level i k = streamPlace version level i' k' → i = i' ∧ k = k') ∧
    (∀ code, CodeBlocks version level code → FewWrong version level raw code →
      ∃ data, codestreamEcc version level raw = .ok (eccOffset version level * 8, data) ∧
        (List.range (eccOffset version level)).map data =
          messageOf version level (blockCount version level) code) ∧
    ∀ bits data, codestreamEcc version level raw = .ok (bits, data) →
      bits = eccOffset version level * 8 ∧ ∃ code, CodeBlocks version level code ∧
        (List.range (eccOffset version level)).map data =
          messageOf version level (blockCount version level) code := by
  have hmem := mem_versions hversion
  refine ⟨fun i hi k hk => ⟨takenPlace_lt hmem hlevel hi hk, streamPlace_lt hmem hlevel hi hk,
    fun i' hi' k' hk' => streamPlace_inj hi hk hi' hk'⟩, fun code => codestreamEcc_of_few hmem hlevel,
    fun bits data => codeBlocks_of_codestreamEcc⟩

end Stream

/-- Blocks of every version and level: any data bytes can be given check bytes, and half as many wrong bytes as there
    are check bytes are mended. What is reported to be right is a codeword, and no byte behind the block changes. -/
theorem correct_block_corrects {version level : ℕ} (hversion : 1 ≤ version ∧ version ≤ quircMaxVersion)
    (hlevel : level < 4) (i : ℕ) (data : ℕ → BitVec 8) :
    (∃ code, CodeBlock (blockEcc version level i).bs
        ((blockEcc version level i).bs - (blockEcc version level i).dw) code ∧
      ∀ k < (blockEcc version level i).dw, code k = data k) ∧
    (∀ code, CodeBlock (blockEcc version level i).bs
        ((blockEcc version level i).bs - (blockEcc version level i).dw) code →
      2 * (errorPlaces data (blockEcc version level i).bs code).card ≤
        (blockEcc version level i).bs - (blockEcc version level i).dw →
      (correctBlock data (blockEcc version level i)).1 = true ∧ ∀ k,
        (correctBlock data (blockEcc version level i)).2 k =
          if k < (blockEcc version level i).bs then code k else data k) ∧
    ((correctBlock data (blockEcc version level i)).1 = true →
      CodeBlock (blockEcc version level i).bs ((blockEcc version level i).bs - (blockEcc version level i).dw)
        (correctBlock data (blockEcc version level i)).2) := by
  obtain ⟨-, -, hbs, hdw, hmax⟩ := versionDb_blocks version (mem_versions hversion) level hlevel
  have hnpar : (blockEcc version level i).bs - _ = _ := blockEcc_npar i
  have hsize : (blockEcc version level i).bs ≤ 255 := by
    rw [bs_blockEcc]
    split <;> omega
  refine ⟨?_, fun code hcode hfew => correctBlock_eq hcode hsize (by omega) hfew, codeBlock_of_correctBlock⟩
  obtain ⟨code, hcode, hdata⟩ := exists_codeBlock data (Nat.sub_le (blockEcc version level i).bs _)
  exact ⟨code, hcode, fun k hk => hdata k (by omega)⟩

/-- Data bytes for a block. -/
def someData (i k : ℕ) : BitVec 8 := BitVec.ofNat 8 (37 * i + 11 * k + 64)

/-- A block with two bits turned over in each fifth byte. -/
def soiled (code : ℕ → BitVec 8) (k : ℕ) : BitVec 8 := if k % 5 = 1 then code k ^^^ 0x41#8 else code k

theorem soiled_ne {code : ℕ → BitVec 8} {k : ℕ} (h : soiled code k ≠ code k) : k % 5 = 1 := by
  by_contra hk
  exact h (if_neg hk)

theorem errorPlaces_soiled (code : ℕ → BitVec 8) : (errorPlaces (soiled code) 34 code).card ≤ 7 := by
  have hseven : ((Finset.range 34).filter fun j => (34 - j - 1) % 5 = 1).card ≤ 7 := by decide
  refine (Finset.card_le_card fun j hj => ?_).trans hseven
  obtain ⟨hlt, hne⟩ := mem_errorPlaces.mp hj
  exact Finset.mem_filter.mpr ⟨Finset.mem_range.mpr hlt, soiled_ne hne⟩

/-- A long block of version 5 and level Q, with seven wrong bytes. -/
theorem correct_block_corrects_soiled : ∃ code, (∀ k < 16, code k = someData 3 k) ∧
    (correctBlock (soiled code) (blockEcc 5 3 3)).1 = true ∧
    ∀ k < 34, (correctBlock (soiled code) (blockEcc 5 3 3)).2 k = code k := by
  have hecc : blockEcc 5 3 3 = ⟨34, 16, 2⟩ := by decide
  have hversion : 1 ≤ 5 ∧ 5 ≤ quircMaxVersion := by decide
  have hlevel : 3 < 4 := by decide
  obtain ⟨code, hcode, hdata⟩ := (correct_block_corrects hversion hlevel 3 (someData 3)).1
  have hfew : 2 * (errorPlaces (soiled code) (blockEcc 5 3 3).bs code).card ≤
      (blockEcc 5 3 3).bs - (blockEcc 5 3 3).dw := by
    have hseven := errorPlaces_soiled code
    rw [hecc]
    dsimp only
    omega
  obtain ⟨hok, hright⟩ := (correct_block_corrects hversion hlevel 3 (soiled code)).2.1 code hcode hfew
  rw [hecc] at hdata hright
  exact ⟨code, hdata, hok, fun k hk => (hright k).trans (if_pos hk)⟩

/-- The block of version 5 and level Q that a byte of the stream is drawn for, and its number there. -/
def drawnFor (p : ℕ) : ℕ × ℕ :=
  if p < 60 then (p % 4, p / 4)
  else if p < 62 then (p - 58, 15)
  else ((p - 62) % 4, (if (p - 62) % 4 < 2 then 15 else 16) + (p - 62) / 4)

def soiledStream (code : ℕ → ℕ → BitVec 8) (p : ℕ) : BitVec 8 := soiled (code (drawnFor p).1) (drawnFor p).2

theorem drawnFor_streamPlace :
    ∀ i < 4, ∀ k < (blockEcc 5 3 i).bs, drawnFor (streamPlace 5 3 i k) = (i, k) := by decide

theorem fewWrong_soiledStream (code : ℕ → ℕ → BitVec 8) : FewWrong 5 3 (soiledStream code) code := by
  have hcount : blockCount 5 3 = 4 := by decide
  have hseven : ∀ i < 4, 2 * (((Finset.range (blockEcc 5 3 i).bs).filter fun k => k % 5 = 1).card +
      if i < (sbEcc 5 3).ns then 0 else 1) ≤ (blockEcc 5 3 i).bs - (blockEcc 5 3 i).dw := by decide
  intro i hi
  rw [hcount] at hi
  refine le_trans ?_ (hseven i hi)
  gcongr
  intro k hk
  obtain ⟨hlt, hne⟩ := Finset.mem_filter.mp hk
  rw [soiledStream, drawnFor_streamPlace i hi k (Finset.mem_range.mp hlt)] at hne
  exact Finset.mem_filter.mpr ⟨hlt, soiled_ne hne⟩

/-- All four blocks of the symbol, with seven wrong bytes each. -/
theorem codestream_ecc_corrects_soiled : ∃ code : ℕ → ℕ → BitVec 8,
    (∀ i < 4, ∀ k < 15, code i k = someData i k) ∧
    ∃ data, codestreamEcc 5 3 (soiledStream code) = .ok (eccOffset 5 3 * 8, data) ∧
      (List.range (eccOffset 5 3)).map data = messageOf 5 3 (blockCount 5 3) code := by
  choose code hcode hdata using fun i => exists_codeBlock (someData i)
    (Nat.sub_le (blockEcc 5 3 i).bs (blockEcc 5 3 i).dw)
  have hdw : ∀ i < 4, ∀ k < 15, k < (blockEcc 5 3 i).bs - ((blockEcc 5 3 i).bs - (blockEcc 5 3 i).dw) := by
    decide
  have hversion : 1 ≤ 5 ∧ 5 ≤ quircMaxVersion := by decide
  have hlevel : 3 < 4 := by decide
  exact ⟨code, fun i hi k hk => hdata i k (hdw i hi k hk),
    (codestream_ecc_corrects hversion hlevel (soiledStream code)).2.1 code (fun i _ => hcode i)
      (fewWrong_soiledStream code)⟩

end OpenMV.Vision
