import OpenMV.Schemes.Nor

/-! The flash driver | scheme:memory | source:src/src/bsp/driver/drv_qspiflash.c

    Reading goes in pieces of 64 KiB, with the last odd bytes through a buffer of four. Writing goes sector
    by sector: the sector is read, erased if a bit would have to go from zero to one, and programmed as a
    whole. A pointer to bytes is the function from offsets to the bytes behind it. -/

namespace OpenMV.Driver
open Schemes Nor

def w25qxx_FLASH_PAGE_SIZE : ℕ := 256
def w25qxx_FLASH_SECTOR_SIZE : ℕ := 4096
def w25qxx_FLASH_PAGE_NUM_PER_SECTOR : ℕ := 16
def w25qxx_FLASH_BLOCK_32K_SIZE : ℕ := 32768
def w25qxx_FLASH_CHIP_SIZE : ℕ := 16777216

/-- What a `uint32_t` holds. -/
def u32 (n : ℕ) : ℕ := n % 4294967296

/-- Addresses go to the chip with 24 bits. -/
def chipAddr (addr : ℕ) : ℕ := addr % w25qxx_FLASH_CHIP_SIZE

/-- Stores at `off` and behind it. -/
def storeBytes (buf : ℕ → UInt8) (off : ℕ) (bytes : ℕ → UInt8) (n : ℕ) : ℕ → UInt8 := fun i =>
  if off ≤ i ∧ i < off + n then bytes (i - off) else buf i

/-! ### The chip's commands -/

def w25qxxSectorErase (c : Chip) (addr : ℕ) : Chip := erase w25qxx_FLASH_SECTOR_SIZE c (chipAddr addr)

def w25qxxBlock32kErase (c : Chip) (addr : ℕ) : Chip := erase w25qxx_FLASH_BLOCK_32K_SIZE c (chipAddr addr)

/-- The length of a page, which is all it is called with. -/
def w25qxxQuadPageProgram (c : Chip) (addr : ℕ) (dataBuf : ℕ → UInt8) : Chip :=
  programPage w25qxx_FLASH_PAGE_SIZE c (chipAddr addr) dataBuf

/-- The loop of `w25qxx_sector_program`, with the pages that are left. -/
def sectorProgramLoop : ℕ → Chip → ℕ → (ℕ → UInt8) → Chip
  | 0, c, _, _ => c
  | k + 1, c, addr, dataBuf =>
    sectorProgramLoop k (w25qxxQuadPageProgram c addr dataBuf) (u32 (addr + w25qxx_FLASH_PAGE_SIZE))
      fun i => dataBuf (i + w25qxx_FLASH_PAGE_SIZE)

def w25qxxSectorProgram (c : Chip) (addr : ℕ) (dataBuf : ℕ → UInt8) : Chip :=
  sectorProgramLoop w25qxx_FLASH_PAGE_NUM_PER_SECTOR c addr dataBuf

/-- `_w25qxx_read_data`: the chip goes on at its start behind its end. -/
def w25qxxReadRaw (c : Chip) (addr : ℕ) : ℕ → UInt8 := fun i => c (chipAddr (chipAddr addr + i))

/-! ### Reading -/

/-- The loop of `w25qxx_read_data`; `off` is how far `data_buf` has moved. Gives the address and the place
    behind the last piece, too. -/
def readLoop (c : Chip) : ℕ → ℕ → ℕ → ℕ → (ℕ → UInt8) → ℕ × ℕ × (ℕ → UInt8)
  | 0, addr, off, _, buf => (addr, off, buf)
  | fuel + 1, addr, off, length, buf =>
    if length = 0 then (addr, off, buf)
    else
      let len := if length ≥ 0x010000 then 0x010000 else length
      readLoop c fuel (u32 (addr + len)) (off + len) (length - len)
        (storeBytes buf off (w25qxxReadRaw c addr) len)

def w25qxxReadData (c : Chip) (addr length : ℕ) (dataBuf : ℕ → UInt8) : ℕ → UInt8 :=
  let vRemain := length % 4
  let length := if vRemain ≠ 0 then length / 4 * 4 else length
  let (addr, off, buf) := readLoop c length addr 0 length dataBuf
  if vRemain ≠ 0 then
    let vRecvBuf := storeBytes (fun _ => 0) 0 (w25qxxReadRaw c addr) 4
    storeBytes buf off vRecvBuf vRemain
  else buf

/-! ### Writing -/

/-- The loop that looks for a bit to be set again. -/
def needsErase (pwrite pread : ℕ → UInt8) (writeLen : ℕ) : Prop :=
  ∃ i < writeLen, pwrite i ≠ pwrite i &&& pread i

instance (pwrite pread : ℕ → UInt8) (writeLen : ℕ) : Decidable (needsErase pwrite pread writeLen) :=
  inferInstanceAs (Decidable (∃ i < writeLen, _))

/-- One round: a sector or a part of it. -/
def writeSector (c : Chip) (addr writeLen : ℕ) (dataBuf : ℕ → UInt8) : Chip :=
  let sectorAddr := addr / w25qxx_FLASH_SECTOR_SIZE * w25qxx_FLASH_SECTOR_SIZE
  let sectorOffset := addr % w25qxx_FLASH_SECTOR_SIZE
  let swapBuf := w25qxxReadData c sectorAddr w25qxx_FLASH_SECTOR_SIZE fun _ => 0
  let c := if needsErase dataBuf (fun i => swapBuf (sectorOffset + i)) writeLen then
      w25qxxSectorErase c sectorAddr else c
  if writeLen = w25qxx_FLASH_SECTOR_SIZE then w25qxxSectorProgram c sectorAddr dataBuf
  else w25qxxSectorProgram c sectorAddr (storeBytes swapBuf sectorOffset dataBuf writeLen)

def writeLoop : ℕ → Chip → ℕ → (ℕ → UInt8) → ℕ → Chip
  | 0, c, _, _, _ => c
  | fuel + 1, c, addr, dataBuf, length =>
    if length = 0 then c
    else
      let sectorRemain := w25qxx_FLASH_SECTOR_SIZE - addr % w25qxx_FLASH_SECTOR_SIZE
      let writeLen := if length < sectorRemain then length else sectorRemain
      writeLoop fuel (writeSector c addr writeLen dataBuf) (u32 (addr + writeLen))
        (fun i => dataBuf (i + writeLen)) (length - writeLen)

def w25qxxWriteData (c : Chip) (addr : ℕ) (dataBuf : ℕ → UInt8) (length : ℕ) : Chip :=
  writeLoop length c addr dataBuf length

/-! ### What reading gives -/

theorem chipAddr_u32 (n : ℕ) : chipAddr (u32 n) = chipAddr n := by
  unfold chipAddr u32 w25qxx_FLASH_CHIP_SIZE
  omega

theorem readRaw_apply (c : Chip) (addr i : ℕ) : w25qxxReadRaw c addr i = c (chipAddr (addr + i)) := by
  have : chipAddr (chipAddr addr + i) = chipAddr (addr + i) := Nat.mod_add_mod _ _ _
  rw [w25qxxReadRaw, this]

/-- The pieces follow on each other. -/
theorem readLoop_apply (c : Chip) : ∀ {fuel length : ℕ}, length ≤ fuel → ∀ (addr off : ℕ) (buf : ℕ → UInt8),
    chipAddr (readLoop c fuel addr off length buf).1 = chipAddr (addr + length) ∧
    (readLoop c fuel addr off length buf).2.1 = off + length ∧
    ∀ i, (readLoop c fuel addr off length buf).2.2 i =
      if off ≤ i ∧ i < off + length then c (chipAddr (addr + (i - off))) else buf i
  | 0, length, h, addr, off, buf => by
    obtain rfl := Nat.le_zero.1 h
    exact ⟨rfl, rfl, fun i => (if_neg (by omega)).symm⟩
  | fuel + 1, length, h, addr, off, buf => by
    rw [readLoop]
    by_cases h0 : length = 0
    · subst h0
      exact ⟨rfl, rfl, fun i => (if_neg (by omega)).symm⟩
    · rw [if_neg h0]
      dsimp only
      generalize hlen : (if length ≥ 0x010000 then 0x010000 else length) = len
      have hle : 0 < len ∧ len ≤ length := by
        split_ifs at hlen
        all_goals omega
      obtain ⟨h1, h2, h3⟩ := readLoop_apply c (show length - len ≤ fuel by omega) (u32 (addr + len)) (off + len)
        (storeBytes buf off (w25qxxReadRaw c addr) len)
      have hshift : ∀ k, chipAddr (u32 (addr + len) + k) = chipAddr (addr + (len + k)) := by
        intro k
        unfold chipAddr u32 w25qxx_FLASH_CHIP_SIZE
        omega
      refine ⟨?_, ?_, fun i => ?_⟩
      · rw [h1, hshift, show len + (length - len) = length by omega]
      · rw [h2]
        omega
      · rw [h3, storeBytes, readRaw_apply, hshift]
        by_cases hi1 : off ≤ i ∧ i < off + len
        · rw [if_neg (by omega), if_pos hi1, if_pos (by omega)]
        · by_cases hi2 : off + len ≤ i ∧ i < off + length
          · rw [if_pos (by omega), if_pos (by omega), show len + (i - (off + len)) = i - off by omega]
          · rw [if_neg (by omega), if_neg hi1, if_neg (by omega)]

/-- Whatever the length, reading stores the bytes that are asked for and no more. -/
theorem w25qxxReadData_apply (c : Chip) (addr length : ℕ) (dataBuf : ℕ → UInt8) (i : ℕ) :
    w25qxxReadData c addr length dataBuf i =
      if i < length then c (chipAddr (addr + i)) else dataBuf i := by
  unfold w25qxxReadData
  by_cases hr : length % 4 ≠ 0
  · obtain ⟨h1, h2, h3⟩ := readLoop_apply c (Nat.le_refl (length / 4 * 4)) addr 0 dataBuf
    dsimp only
    rw [if_pos hr, if_pos hr, h2, storeBytes, h3]
    by_cases hi1 : i < length / 4 * 4
    · rw [if_neg (by omega), if_pos (by omega), if_pos (by omega), Nat.sub_zero]
    · by_cases hi2 : i < length
      · have haddr : chipAddr ((readLoop c (length / 4 * 4) addr 0 (length / 4 * 4) dataBuf).1 +
            (i - (0 + length / 4 * 4))) = chipAddr (addr + i) := by
          unfold chipAddr at h1 ⊢
          rw [← Nat.mod_add_mod, h1, Nat.mod_add_mod]
          congr 1
          omega
        rw [if_pos (by omega), if_pos hi2, storeBytes, if_pos (by omega), Nat.sub_zero, readRaw_apply, haddr]
      · rw [if_neg (by omega), if_neg (by omega), if_neg hi2]
  · obtain ⟨-, -, h3⟩ := readLoop_apply c (Nat.le_refl length) addr 0 dataBuf
    dsimp only
    rw [if_neg hr, if_neg hr, h3, Nat.sub_zero]
    exact if_congr (by omega) rfl rfl

/-! ### What writing leaves -/

theorem sectorProgramLoop_eq : ∀ (k : ℕ) (c : Chip) {addr : ℕ} (dataBuf : ℕ → UInt8),
    addr + k * w25qxx_FLASH_PAGE_SIZE ≤ w25qxx_FLASH_CHIP_SIZE →
    sectorProgramLoop k c addr dataBuf = programPages w25qxx_FLASH_PAGE_SIZE k c addr dataBuf
  | 0, _, _, _, _ => rfl
  | k + 1, c, addr, dataBuf, h => by
    unfold w25qxx_FLASH_PAGE_SIZE w25qxx_FLASH_CHIP_SIZE at h
    have haddr : chipAddr addr = addr := Nat.mod_eq_of_lt (by unfold w25qxx_FLASH_CHIP_SIZE; omega)
    have hnext : u32 (addr + w25qxx_FLASH_PAGE_SIZE) = addr + w25qxx_FLASH_PAGE_SIZE :=
      Nat.mod_eq_of_lt (by unfold w25qxx_FLASH_PAGE_SIZE; omega)
    rw [sectorProgramLoop, programPages, w25qxxQuadPageProgram, haddr, hnext]
    exact sectorProgramLoop_eq k _ _ (by unfold w25qxx_FLASH_PAGE_SIZE w25qxx_FLASH_CHIP_SIZE; omega)

/-- A sector is programmed in one piece. -/
theorem w25qxxSectorProgram_apply (c : Chip) {addr : ℕ} (haddr : addr % 4096 = 0)
    (hin : addr + 4096 ≤ w25qxx_FLASH_CHIP_SIZE) (dataBuf : ℕ → UInt8) (x : ℕ) :
    w25qxxSectorProgram c addr dataBuf x =
      if addr ≤ x ∧ x < addr + 4096 then c x &&& dataBuf (x - addr) else c x := by
  rw [w25qxxSectorProgram, sectorProgramLoop_eq _ _ _ hin,
    programPages_apply (by decide) x _ _ (by unfold w25qxx_FLASH_PAGE_SIZE; omega)]
  rfl

theorem w25qxxSectorErase_apply (c : Chip) {addr : ℕ} (haddr : addr % 4096 = 0)
    (hin : addr + 4096 ≤ w25qxx_FLASH_CHIP_SIZE) (x : ℕ) :
    w25qxxSectorErase c addr x = if addr ≤ x ∧ x < addr + 4096 then 0xFF else c x := by
  have hchip : chipAddr addr = addr := Nat.mod_eq_of_lt (by omega)
  rw [w25qxxSectorErase, hchip]
  exact erase_apply (by decide) c haddr x

/-- One round stores its bytes and leaves the rest of the sector as it was, erased or not. -/
theorem writeSector_apply (c : Chip) {addr writeLen : ℕ} (dataBuf : ℕ → UInt8)
    (hlen : addr % 4096 + writeLen ≤ 4096) (hin : addr < w25qxx_FLASH_CHIP_SIZE) (x : ℕ) :
    writeSector c addr writeLen dataBuf x =
      if addr ≤ x ∧ x < addr + writeLen then dataBuf (x - addr) else c x := by
  unfold writeSector w25qxx_FLASH_SECTOR_SIZE
  generalize hbase : addr / 4096 * 4096 = base
  have hchip : base + 4096 ≤ w25qxx_FLASH_CHIP_SIZE := by
    unfold w25qxx_FLASH_CHIP_SIZE at hin ⊢
    omega
  have halign : base % 4096 = 0 := by omega
  have hswap : ∀ i, i < 4096 → w25qxxReadData c base 4096 (fun _ => 0) i = c (base + i) := by
    intro i hi
    rw [w25qxxReadData_apply, if_pos hi, chipAddr, Nat.mod_eq_of_lt (by omega)]
  generalize w25qxxReadData c base 4096 (fun _ => 0) = swapBuf at hswap ⊢
  -- what the sector is programmed with: the new bytes where they go, the old ones elsewhere
  obtain ⟨full, hfull, heq⟩ : ∃ full : ℕ → UInt8, (∀ x, base ≤ x → x < base + 4096 → full (x - base) =
      if addr ≤ x ∧ x < addr + writeLen then dataBuf (x - addr) else c x) ∧
      ∀ c, (if writeLen = 4096 then w25qxxSectorProgram c base dataBuf
        else w25qxxSectorProgram c base (storeBytes swapBuf (addr % 4096) dataBuf writeLen)) =
      w25qxxSectorProgram c base full := by
    by_cases hall : writeLen = 4096
    · refine ⟨dataBuf, fun x h1 h2 => ?_, fun c => if_pos hall⟩
      rw [if_pos (by omega), show addr = base by omega]
    · refine ⟨_, fun x h1 h2 => ?_, fun c => if_neg hall⟩
      rw [storeBytes]
      by_cases hx : addr ≤ x ∧ x < addr + writeLen
      · rw [if_pos (by omega), if_pos hx, show x - base - addr % 4096 = x - addr by omega]
      · rw [if_neg (by omega), if_neg hx, hswap _ (by omega), show base + (x - base) = x by omega]
  rw [heq, w25qxxSectorProgram_apply _ halign hchip]
  by_cases hx : base ≤ x ∧ x < base + 4096
  · rw [if_pos hx, hfull x hx.1 hx.2]
    split_ifs with herase hw
    · rw [w25qxxSectorErase_apply c halign hchip, if_pos hx, and_ones]
    · rw [w25qxxSectorErase_apply c halign hchip, if_pos hx, and_ones]
    · -- no bit has to be set again
      simp only [needsErase, not_exists, not_and, not_not] at herase
      have hbits := herase (x - addr) (by omega)
      rw [hswap _ (by omega), show base + (addr % 4096 + (x - addr)) = x by omega] at hbits
      rw [UInt8.and_comm, ← hbits]
    · exact UInt8.and_self
  · rw [if_neg hx, if_neg (show ¬ (addr ≤ x ∧ x < addr + writeLen) by omega)]
    split_ifs
    · rw [w25qxxSectorErase_apply c halign hchip, if_neg hx]
    · rfl

theorem writeLoop_apply (x : ℕ) : ∀ {fuel length : ℕ}, length ≤ fuel → ∀ (c : Chip) {addr : ℕ}
    (dataBuf : ℕ → UInt8), addr + length ≤ w25qxx_FLASH_CHIP_SIZE →
    writeLoop fuel c addr dataBuf length x =
      if addr ≤ x ∧ x < addr + length then dataBuf (x - addr) else c x
  | 0, length, h, c, addr, dataBuf, _ => by
    obtain rfl := Nat.le_zero.1 h
    exact (if_neg (by omega)).symm
  | fuel + 1, length, h, c, addr, dataBuf, hin => by
    rw [writeLoop]
    by_cases h0 : length = 0
    · subst h0
      exact (if_neg (by omega)).symm
    · rw [if_neg h0]
      generalize hlen : (if length < w25qxx_FLASH_SECTOR_SIZE - addr % w25qxx_FLASH_SECTOR_SIZE then length
        else w25qxx_FLASH_SECTOR_SIZE - addr % w25qxx_FLASH_SECTOR_SIZE) = writeLen
      have hle : 0 < writeLen ∧ writeLen ≤ length ∧ addr % 4096 + writeLen ≤ 4096 := by
        unfold w25qxx_FLASH_SECTOR_SIZE at hlen
        split_ifs at hlen
        all_goals omega
      have hu32 : u32 (addr + writeLen) = addr + writeLen :=
        Nat.mod_eq_of_lt (by unfold w25qxx_FLASH_CHIP_SIZE at hin; omega)
      rw [hu32, writeLoop_apply x (by omega) _ _ (by omega),
        writeSector_apply c dataBuf hle.2.2 (by omega)]
      by_cases hx1 : addr ≤ x ∧ x < addr + writeLen
      · rw [if_neg (by omega), if_pos hx1, if_pos (by omega)]
      · by_cases hx2 : addr + writeLen ≤ x ∧ x < addr + length
        · rw [if_pos (by omega), if_pos (by omega), show x - (addr + writeLen) + writeLen = x - addr by omega]
        · rw [if_neg (by omega), if_neg hx1, if_neg (by omega)]

theorem w25qxxWriteData_apply (c : Chip) {addr length : ℕ} (dataBuf : ℕ → UInt8)
    (hin : addr + length ≤ w25qxx_FLASH_CHIP_SIZE) (x : ℕ) :
    w25qxxWriteData c addr dataBuf length x =
      if addr ≤ x ∧ x < addr + length then dataBuf (x - addr) else c x :=
  writeLoop_apply x (Nat.le_refl length) c dataBuf hin

/-- What is written inside the chip is there and nothing else has changed; and what is read, of any length
    and from any address, are the bytes of the chip, with nothing stored behind them. -/
theorem w25qxx_write_then_read (c : Chip) (addr length : ℕ) (dataBuf : ℕ → UInt8)
    (hin : addr + length ≤ w25qxx_FLASH_CHIP_SIZE) :
    (∀ x, w25qxxWriteData c addr dataBuf length x =
      if addr ≤ x ∧ x < addr + length then dataBuf (x - addr) else c x) ∧
    ∀ (c : Chip) (addr length : ℕ) (buf : ℕ → UInt8) (i : ℕ), w25qxxReadData c addr length buf i =
      if i < length then c (chipAddr (addr + i)) else buf i :=
  ⟨w25qxxWriteData_apply c dataBuf hin, w25qxxReadData_apply⟩

/-- Two bytes over the end of a sector of zeros, both sectors erased on the way. -/
theorem w25qxx_write_over_sectors :
    w25qxxWriteData (fun _ => 0) 4095 (fun _ => 0xA5) 2 4096 = 0xA5 ∧
      w25qxxWriteData (fun _ => 0) 4095 (fun _ => 0xA5) 2 4097 = 0 := by
  have h := (w25qxx_write_then_read (fun _ => 0) 4095 2 (fun _ => 0xA5) (by decide)).1
  exact ⟨(h 4096).trans (if_pos (by decide)), (h 4097).trans (if_neg (by decide))⟩

end OpenMV.Driver
