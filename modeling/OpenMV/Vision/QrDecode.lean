import OpenMV.Vision.QrSegments
import Mathlib.Tactic.IntervalCases

/-! Decoding QR codes | scheme:codec | source:src/src/openmv/omv/img/qrcode.c

    `quirc_decode` goes from the cells of a code to its payload: the format, the cells of the data, the blocks, the
    segments. What is drawn as the standard says comes out again, though some cells are wrong. -/

namespace OpenMV.Vision
open Schemes

/-- The data, unless there is something wrong with the code. -/
def quircDecode (code : QuircCode) (fuel : ℕ) : Option (Except QuircError QuircData) :=
  if (code.size - 17).tmod 4 ≠ 0 then some (.error .invalidGridSize)
  else
    let version := (code.size - 17).tdiv 4
    if version < 1 ∨ version > quircMaxVersion then some (.error .invalidVersion)
    else
      let version := version.toNat
      -- both places of the format are tried
      match (readFormat code false).tryCatch fun _ => readFormat code true with
      | .error err => some (.error err)
      | .ok (eccLevel, mask) =>
        match readData code version mask fuel with
        | none => none
        | some ds =>
          match codestreamEcc version eccLevel ds.raw with
          | .error err => some (.error err)
          | .ok (dataBits, data) =>
            decodePayload fuel ⟨version, eccLevel, mask, 0, [], 0⟩ ⟨data, dataBits, 0⟩

/-- There are no more rounds in any loop. -/
def decodeFuel : ℕ := 88 * 177 + 1

section Sizes
variable {code : QuircCode} {version : ℕ}

theorem readData_size (mask : ℕ) (hversion : version ≤ quircMaxVersion) (hsize : code.size = (version * 4 + 17 : ℕ)) :
    ∃ ds, readData code version mask decodeFuel = some ds ∧
      ds.raw = packBits (bitsAt code version mask (zigzag (version * 4 + 17))) := by
  have hle : version ≤ 40 := hversion
  have hfuel : (version * 4 + 17 - 1) / 2 * (version * 4 + 17) < decodeFuel :=
    Nat.lt_succ_of_le (Nat.mul_le_mul (by omega) (by omega))
  refine ⟨_, readData_eq version mask hsize (by omega) (by omega) hfuel, ?_⟩
  exact (foldl_readCell_keeps code version mask _).2.eq (keeps_packBits _)

theorem eccOffset_lt : ∀ version ∈ List.range' 1 40, ∀ level < 4, eccOffset version level < 2965 := by decide

end Sizes

/-! ### Symbols -/

/-- The cells show a format and blocks, up to a few wrong ones. -/
structure Drawn (code : QuircCode) (version level mask : ℕ) (blocks : ℕ → ℕ → BitVec 8) : Prop where
  size : code.size = (version * 4 + 17 : ℕ)
  /-- The second place counts if nothing can be read from the first one. -/
  format : (wrongCells code false (formatWord level mask)).card ≤ 3 ∨
    (∃ err, readFormat code false = .error err) ∧ (wrongCells code true (formatWord level mask)).card ≤ 3
  data : FewWrong version level (packBits (bitsAt code version mask (zigzag (version * 4 + 17)))) blocks

section Symbols
variable {code : QuircCode} {version level mask : ℕ}

theorem readFormat_drawn {blocks : ℕ → ℕ → BitVec 8} (hdrawn : Drawn code version level mask blocks)
    (hlevel : level < 4) (hmask : mask < 8) :
    ((readFormat code false).tryCatch fun _ => readFormat code true) = .ok (level, mask) := by
  rcases hdrawn.format with hfirst | ⟨⟨err, herr⟩, hsecond⟩
  · rw [readFormat_eq code hlevel hmask hfirst]
    rfl
  · rw [herr]
    exact readFormat_eq code hlevel hmask hsecond

theorem tryCatch_lt (h : ((readFormat code false).tryCatch fun _ => readFormat code true) = .ok (level, mask)) :
    level < 4 ∧ mask < 8 := by
  cases hfirst : readFormat code false with
  | error err =>
    rw [hfirst] at h
    exact readFormat_lt code h
  | ok format =>
    rw [hfirst] at h
    cases h
    exact readFormat_lt code hfirst

/-- From the size on, all that is left is to go through the parts. -/
theorem quircDecode_version (hversion : 1 ≤ version ∧ version ≤ quircMaxVersion)
    (hsize : code.size = (version * 4 + 17 : ℕ)) (fuel : ℕ) :
    quircDecode code fuel = match (readFormat code false).tryCatch fun _ => readFormat code true with
      | .error err => some (.error err)
      | .ok (eccLevel, mask) =>
        match readData code version mask fuel with
        | none => none
        | some ds =>
          match codestreamEcc version eccLevel ds.raw with
          | .error err => some (.error err)
          | .ok (dataBits, data) =>
            decodePayload fuel ⟨version, eccLevel, mask, 0, [], 0⟩ ⟨data, dataBits, 0⟩ := by
  have hgrid : code.size - 17 = (version : ℤ) * 4 := by omega
  have hmod : ¬ (code.size - 17).tmod 4 ≠ 0 := by rw [hgrid, Int.mul_tmod_left]; decide
  have hdiv : (code.size - 17).tdiv 4 = version := by rw [hgrid, Int.mul_tdiv_cancel _ (by decide)]
  have hrange : ¬ ((version : ℤ) < 1 ∨ (version : ℤ) > quircMaxVersion) := by
    obtain ⟨h1, h2⟩ := hversion
    omega
  rw [quircDecode, if_neg hmod]
  dsimp only
  rw [hdiv, if_neg hrange, Int.toNat_natCast]

end Symbols

/-- A symbol is decoded to the message that it was drawn for. -/
theorem quirc_decode_reads_symbol {version level mask : ℕ} (hversion : 1 ≤ version ∧ version ≤ quircMaxVersion)
    (hlevel : level < 4) (hmask : mask < 8) {segs : List Segment} (hfits : ∀ seg ∈ segs, seg.Fits version)
    {tail : List Bool} (hends : Ends tail) {blocks : ℕ → ℕ → BitVec 8} (hblocks : CodeBlocks version level blocks)
    (hmessage : byteBits (messageOf version level (blockCount version level) blocks) =
      segs.flatMap (Segment.bits version) ++ tail)
    {code : QuircCode} (hdrawn : Drawn code version level mask blocks) :
    ∃ data, quircDecode code decodeFuel = some (.ok data) ∧ data.version = version ∧ data.eccLevel = level ∧
      data.mask = mask ∧ data.payload = segs.flatMap Segment.text ∧
      data = segs.foldl Segment.apply ⟨version, level, mask, 0, [], 0⟩ := by
  have hmem := mem_versions hversion
  obtain ⟨ds, hread, hraw⟩ := readData_size mask hversion.2 hdrawn.size
  obtain ⟨data, hecc, hrow⟩ := codestreamEcc_of_few hmem hlevel hblocks hdrawn.data
  have hlen := eccOffset_lt version hmem level hlevel
  have hbits : (⟨data, eccOffset version level * 8, 0⟩ : Datastream).bits =
      segs.flatMap (Segment.bits version) ++ tail := by
    rw [← hmessage, ← hrow]
    exact bitsFrom_bytes data _
  have hremain : bitsRemaining ⟨data, eccOffset version level * 8, 0⟩ = eccOffset version level * 8 := rfl
  have hroom : 10 * ([] : List (BitVec 8)).length + 3 * (eccOffset version level * 8) < 10 * quircMaxPayload := by
    rw [quircMaxPayload, List.length_nil]
    omega
  have hpayload : decodePayload decodeFuel ⟨version, level, mask, 0, [], 0⟩ ⟨data, eccOffset version level * 8, 0⟩ =
      some (.ok (segs.foldl Segment.apply _)) :=
    decodePayload_segments segs hfits hbits hends (by rw [hremain]; exact hroom) (by rw [hremain, decodeFuel]; omega)
  obtain ⟨htext, hv, hl, hm⟩ := foldl_apply segs ⟨version, level, mask, 0, [], 0⟩
  refine ⟨_, ?_, hv, hl, hm, htext, rfl⟩
  rw [quircDecode_version hversion hdrawn.size, readFormat_drawn hdrawn hlevel hmask]
  dsimp only
  rw [hread]
  dsimp only
  rw [hraw, hecc]
  exact hpayload

/-- A code of version 1 with three wrong bytes and three wrong cells in the format. -/
def spottedCode : QuircCode where
  size := 21
  cellBitmap k := BitVec.ofNat 8
    (0xa9d0056e8014f401e4a017ca00a7d00358001c440172c1451897efc2be92f0b7250b003000000000000000700004000054000240001200
      >>> (8 * k))

theorem spotted_syndrome : ∀ i < 7, blockSyndrome spottedBlock 26 i = 0#8 := by
  intro i hi
  interval_cases i <;> decide +kernel

theorem spotted_blocks : CodeBlocks 1 1 fun _ => spottedBlock := by
  have hblock : (blockSyndromes spottedBlock 26 7).1 = false := by
    simp only [blockSyndromes, List.any_eq_false, List.mem_range, bne_iff_ne, not_not]
    exact spotted_syndrome
  intro i hi
  have hcount : blockCount 1 1 = 1 := by decide
  have hecc : blockEcc 1 1 0 = ⟨26, 19, 1⟩ := by decide
  rw [hcount, Nat.lt_one_iff] at hi
  rw [hi, hecc]
  exact (blockSyndromes_false_iff ..).mp hblock

/-- What is drawn for the block. -/
def drawnBlock (k : ℕ) : BitVec 8 :=
  spottedBlock k ^^^ if k = 0 then 0x10#8 else if k = 5 then 0xC0#8 else if k = 12 then 0x08#8 else 0#8

theorem packBits_spotted : packBits (bitsAt spottedCode 1 3 (zigzag 21)) = drawnBlock := by
  have hbits : bitsAt spottedCode 1 3 (zigzag 21) = bitsFrom drawnBlock 0 (26 * 8) := by decide +kernel
  rw [hbits]
  refine packBits_bitsFrom fun p hp => ?_
  have hblock : spottedBlock p = 0#8 := by
    rw [spottedBlock, List.getD_eq_getElem?_getD, List.getElem?_eq_none (by simpa using hp)]
    rfl
  rw [drawnBlock, hblock, if_neg (by omega), if_neg (by omega), if_neg (by omega), BitVec.xor_zero]

theorem fewWrong_drawnBlock : FewWrong 1 1 drawnBlock fun _ => spottedBlock := by
  unfold FewWrong
  decide

theorem spotted_few : FewWrong 1 1 (packBits (bitsAt spottedCode 1 3 (zigzag 21))) fun _ => spottedBlock := by
  rw [packBits_spotted]
  exact fewWrong_drawnBlock

theorem spotted_message : byteBits (messageOf 1 1 (blockCount 1 1) fun _ => spottedBlock) =
    spottedText.flatMap (Segment.bits 1) ++ bitsOf 93 0xec11ec11ec11ec11ec11ec := by decide

theorem spotted_format : (wrongCells spottedCode false (formatWord 1 3)).card ≤ 3 := by decide

theorem quirc_decode_reads_symbol_spotted :
    ∃ data, quircDecode spottedCode decodeFuel = some (.ok data) ∧ data.version = 1 ∧ data.eccLevel = 1 ∧
      data.mask = 3 ∧ data.payload = spottedText.flatMap Segment.text ∧
      data = spottedText.foldl Segment.apply ⟨1, 1, 3, 0, [], 0⟩ :=
  quirc_decode_reads_symbol (by decide) (by decide) (by decide) spotted_fits spotted_ends spotted_blocks
    spotted_message
    ⟨rfl, .inl spotted_format, spotted_few⟩

/-- Whatever the cells are: decoding comes to an end, and what it says about the code is so, with a payload that leaves
    room for the nul. -/
theorem quirc_decode_total (code : QuircCode) :
    ∃ r, quircDecode code decodeFuel = some r ∧ ∀ data, r = .ok data →
      1 ≤ data.version ∧ data.version ≤ quircMaxVersion ∧ code.size = (data.version * 4 + 17 : ℕ) ∧
      data.eccLevel < 4 ∧ data.mask < 8 ∧ data.payload.length < quircMaxPayload := by
  by_cases hgrid : (code.size - 17).tmod 4 ≠ 0
  · exact ⟨_, by rw [quircDecode, if_pos hgrid], fun data h => by cases h⟩
  by_cases hrange : (code.size - 17).tdiv 4 < 1 ∨ (code.size - 17).tdiv 4 > quircMaxVersion
  · exact ⟨_, by rw [quircDecode, if_neg hgrid]; exact if_pos hrange, fun data h => by cases h⟩
  obtain ⟨version, hversion⟩ : ∃ version : ℕ, (code.size - 17).tdiv 4 = version :=
    ⟨((code.size - 17).tdiv 4).toNat, by omega⟩
  have hsize : code.size = (version * 4 + 17 : ℕ) := by
    have := Int.tmod_add_mul_tdiv (code.size - 17) 4
    omega
  rw [hversion] at hrange
  have hone : 1 ≤ version ∧ version ≤ quircMaxVersion := by omega
  rw [quircDecode_version hone hsize]
  cases hformat : (readFormat code false).tryCatch fun _ => readFormat code true with
  | error err => exact ⟨_, rfl, fun data h => by cases h⟩
  | ok format =>
    obtain ⟨level, mask⟩ := format
    obtain ⟨hlevel, hmask⟩ := tryCatch_lt hformat
    obtain ⟨ds, hread, -⟩ := readData_size mask hone.2 hsize
    dsimp only
    rw [hread]
    dsimp only
    cases hecc : codestreamEcc version level ds.raw with
    | error err => exact ⟨_, rfl, fun data h => by cases h⟩
    | ok stream =>
      obtain ⟨dataBits, data⟩ := stream
      obtain ⟨rfl, -⟩ := codeBlocks_of_codestreamEcc hecc
      have hlen := eccOffset_lt version (mem_versions hone) level hlevel
      have hremain : bitsRemaining ⟨data, eccOffset version level * 8, 0⟩ = eccOffset version level * 8 := rfl
      have htotal : ∃ r, decodePayload decodeFuel ⟨version, level, mask, 0, [], 0⟩
          ⟨data, eccOffset version level * 8, 0⟩ = some r ∧ _ :=
        decodePayload_total (show 0 < quircMaxPayload by decide) (by rw [hremain, decodeFuel]; omega)
      obtain ⟨r, hr, hsound⟩ := htotal
      refine ⟨r, hr, fun data' h => ?_⟩
      obtain ⟨hsame, hpayload⟩ := hsound data' h
      simp only [QuircData.format, Prod.mk.injEq] at hsame
      obtain ⟨rfl, rfl, rfl⟩ := hsame
      exact ⟨hone.1, hone.2, hsize, hlevel, hmask, hpayload⟩

end OpenMV.Vision
