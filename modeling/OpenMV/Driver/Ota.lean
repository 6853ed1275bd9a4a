import Mathlib.Data.List.GetD
import OpenMV.Driver.QspiFlash

/-! Firmware download | scheme:machine | source:src/src/bsp/driver/drv_qspiflash.c

    While a download is on, every write to the flash goes through a buffer of one sector that is programmed
    when the bytes so far are a whole number of sectors, or all there are. The flag that turns this on is
    cleared by the write that completes the download. -/

namespace OpenMV.Driver
open Schemes Nor

/-- `ymodem_ota_ext`: whether `enable` holds the magic number, and with `buff` how far it is behind
    `buff_bak` and the bytes there. -/
structure Ota where
  enable : Bool
  currentSize : ℕ
  totalSize : ℕ
  pos : ℕ
  buff : Option (ℕ → UInt8)

/-- The chip and the download; `outside` if a byte was stored behind the end of the buffer. -/
structure Flash where
  chip : Chip
  ota : Ota
  outside : Bool

/-- `ymodem_ota_ext_enable(1)`; `mem` is what `rt_malloc` leaves in the buffer. -/
def ymodemOtaExtEnable (f : Flash) (mem : ℕ → UInt8) : Flash :=
  { f with ota := { f.ota with enable := true, pos := 0, buff := some mem } }

/-- `ymodem_ota_ext_enable(0)` -/
def ymodemOtaExtDisable (f : Flash) : Flash :=
  { f with ota := { f.ota with enable := false, pos := 0, buff := none } }

/-- `k` blocks of 32 KiB from `addr` on, and the address behind them. -/
def block32kLoop : ℕ → Chip → ℕ → Chip × ℕ
  | 0, c, addr => (c, addr)
  | k + 1, c, addr => block32kLoop k (w25qxxBlock32kErase c addr) (u32 (addr + w25qxx_FLASH_BLOCK_32K_SIZE))

def ymodemOtaExtErase (f : Flash) (offset size : ℕ) : Flash :=
  if f.ota.enable then
    let (c, addr) := block32kLoop (size / w25qxx_FLASH_BLOCK_32K_SIZE) f.chip (u32 offset)
    let c := if size % w25qxx_FLASH_BLOCK_32K_SIZE ≠ 0 then w25qxxBlock32kErase c addr else c
    { f with chip := c, ota := { f.ota with totalSize := size, currentSize := 0 } }
  else f

/-- `addr - n` of a `uint32_t` -/
def subU32 (addr n : ℕ) : ℕ := u32 (addr + (4294967296 - u32 n))

/-- `none` if it returns 1, for the caller to write to the flash itself. -/
def ymodemOtaExtWrite (f : Flash) (offset : ℕ) (buf : ℕ → UInt8) (size : ℕ) : Option Flash :=
  if f.ota.enable then
    let b := storeBytes (f.ota.buff.getD fun _ => 0) f.ota.pos buf size
    let outside := f.outside || decide (w25qxx_FLASH_SECTOR_SIZE < f.ota.pos + size)
    let currentSize := f.ota.currentSize + size
    let pos := f.ota.pos + size
    let addr := u32 (offset + size)
    let full : Bool := currentSize % w25qxx_FLASH_SECTOR_SIZE = 0
    let addr := if full then subU32 addr w25qxx_FLASH_SECTOR_SIZE else addr
    let chip := if full then w25qxxSectorProgram f.chip addr b else f.chip
    let pos := if full then 0 else pos
    let f : Flash := ⟨chip, { f.ota with currentSize := currentSize, pos := pos, buff := some b }, outside⟩
    if currentSize ≥ f.ota.totalSize then
      let chip := if full then f.chip else w25qxxSectorProgram f.chip (subU32 addr pos) b
      some (ymodemOtaExtDisable { f with chip := chip })
    else some f
  else none

/-- `write` of the FAL device. -/
def falWrite (f : Flash) (offset : ℕ) (buf : ℕ → UInt8) (size : ℕ) : Flash :=
  match ymodemOtaExtWrite f offset buf size with
  | some f => f
  | none => { f with chip := w25qxxWriteData f.chip offset buf size }

/-- `erase` of the FAL device. -/
def falErase (f : Flash) (offset size : ℕ) : Flash := ymodemOtaExtErase f offset size

def bytesOf (data : List UInt8) : ℕ → UInt8 := fun i => data.getD i 0

/-- Consecutive writes. -/
def writeChunks : Flash → ℕ → List (List UInt8) → Flash
  | f, _, [] => f
  | f, offset, ch :: chunks =>
    writeChunks (falWrite f offset (bytesOf ch) ch.length) (offset + ch.length) chunks

/-- A download of the image in these pieces. -/
def download (f : Flash) (mem : ℕ → UInt8) (offset : ℕ) (chunks : List (List UInt8)) : Flash :=
  writeChunks (falErase (ymodemOtaExtEnable f mem) offset chunks.flatten.length) offset chunks

/-! ### Erasing -/

theorem block32kErase_apply (c : Chip) {addr : ℕ} (h : addr < w25qxx_FLASH_CHIP_SIZE) (x : ℕ) :
    w25qxxBlock32kErase c addr x = if x / 32768 = addr / 32768 then 0xFF else c x := by
  rw [w25qxxBlock32kErase, chipAddr, Nat.mod_eq_of_lt h]
  rfl

-- without the arguments, as the kernel compares these first
theorem block32kLoop_succ (k : ℕ) : block32kLoop (k + 1) = fun c addr =>
    block32kLoop k (w25qxxBlock32kErase c addr) (u32 (addr + w25qxx_FLASH_BLOCK_32K_SIZE)) := rfl

theorem block32kLoop_apply (x k : ℕ) (c : Chip) {addr : ℕ}
    (h : addr + k * 32768 < w25qxx_FLASH_CHIP_SIZE + 32768) :
    (block32kLoop k c addr).2 = addr + k * 32768 ∧ (block32kLoop k c addr).1 x =
      if addr / 32768 ≤ x / 32768 ∧ x / 32768 < addr / 32768 + k then 0xFF else c x := by
  induction k generalizing c addr with
  | zero => exact ⟨(Nat.add_eq_left.mpr (Nat.zero_mul _)).symm, (if_neg (by omega)).symm⟩
  | succ k ih =>
    unfold w25qxx_FLASH_CHIP_SIZE at h
    have hnext : u32 (addr + w25qxx_FLASH_BLOCK_32K_SIZE) = addr + 32768 :=
      Nat.mod_eq_of_lt (by unfold w25qxx_FLASH_BLOCK_32K_SIZE; omega)
    have hstep : block32kLoop (k + 1) c addr = block32kLoop k (w25qxxBlock32kErase c addr) (addr + 32768) := by
      rw [← hnext]
      exact congrFun (congrFun (block32kLoop_succ k) c) addr
    obtain ⟨h1, h2⟩ := ih (w25qxxBlock32kErase c addr)
      (show addr + 32768 + k * 32768 < _ by unfold w25qxx_FLASH_CHIP_SIZE; omega)
    rw [hstep, h1, h2, block32kErase_apply c (by unfold w25qxx_FLASH_CHIP_SIZE; omega)]
    refine ⟨by ring, ?_⟩
    by_cases hx : x / 32768 = addr / 32768
    · rw [if_pos hx, if_pos (show addr / 32768 ≤ x / 32768 ∧ _ by omega), ite_self]
    · rw [if_neg hx]
      exact if_congr (by omega) rfl rfl

/-- The blocks from the one with `offset` on, as many as the size asks for. -/
def erased (c : Chip) (offset size : ℕ) : Chip := fun x =>
  if offset / 32768 ≤ x / 32768 ∧ x / 32768 < offset / 32768 + (size + 32767) / 32768 then 0xFF else c x

theorem falErase_eq {f : Flash} (hf : f.ota.enable = true) {offset size : ℕ}
    (hin : offset + size ≤ w25qxx_FLASH_CHIP_SIZE) : falErase f offset size =
      { f with chip := erased f.chip offset size, ota := { f.ota with totalSize := size, currentSize := 0 } } := by
  have hoff : u32 offset = offset := Nat.mod_eq_of_lt (by unfold w25qxx_FLASH_CHIP_SIZE at hin; omega)
  have hloop := fun x => block32kLoop_apply x (size / 32768) f.chip
    (show offset + size / 32768 * 32768 < _ by omega)
  have hchip : (if size % w25qxx_FLASH_BLOCK_32K_SIZE ≠ 0 then
      w25qxxBlock32kErase (block32kLoop (size / 32768) f.chip offset).1
        (block32kLoop (size / 32768) f.chip offset).2
      else (block32kLoop (size / 32768) f.chip offset).1) = erased f.chip offset size := by
    funext x
    obtain ⟨h1, h2⟩ := hloop x
    unfold erased w25qxx_FLASH_BLOCK_32K_SIZE
    split_ifs with hrem hx hx
    · rw [h1, block32kErase_apply _ (by omega), h2]
      by_cases hlast : x / 32768 = (offset + size / 32768 * 32768) / 32768
      · rw [if_pos hlast]
      · rw [if_neg hlast, if_pos (by omega)]
    · rw [h1, block32kErase_apply _ (by omega), h2, if_neg (by omega), if_neg (by omega)]
    · rw [h2, if_pos (by omega)]
    · rw [h2, if_neg (by omega)]
  rw [falErase, ymodemOtaExtErase, if_pos hf, hoff]
  exact congrArg (fun c => { f with chip := c, ota := { f.ota with totalSize := size, currentSize := 0 } }) hchip

/-! ### The buffer -/

/-- The bytes of the last, unfinished sector are in front of the buffer; behind a finished one it still has
    all of it. -/
structure Buffered (image mem : ℕ → UInt8) (n : ℕ) (b : ℕ → UInt8) : Prop where
  part : ∀ k < n % 4096, b k = image (n / 4096 * 4096 + k)
  whole : n % 4096 = 0 → 0 < n → ∀ k < 4096, b k = image (n - 4096 + k)
  first : n = 0 → b = mem

theorem Buffered.store {image mem b : ℕ → UInt8} {n : ℕ} (h : Buffered image mem n b) {ch : ℕ → UInt8} {s : ℕ}
    (hch : ∀ k < s, ch k = image (n + k)) (hfit : n % 4096 + s ≤ 4096) :
    Buffered image mem (n + s) (storeBytes b (n % 4096) ch s) where
  part k hk := by
    unfold storeBytes
    split_ifs with hin
    · rw [hch _ (by omega)]
      exact congrArg image (by omega)
    · rw [h.part k (by omega)]
      exact congrArg image (by omega)
  whole h0 hpos k hk := by
    unfold storeBytes
    by_cases hs : s = 0
    · subst hs
      rw [if_neg (by omega), h.whole (by omega) (by omega) k hk, Nat.add_zero]
    · split_ifs with hin
      · rw [hch _ (by omega)]
        exact congrArg image (by omega)
      · rw [h.part k (by omega)]
        exact congrArg image (by omega)
  first h0 := by
    obtain ⟨rfl, rfl⟩ : n = 0 ∧ s = 0 := by omega
    funext k
    rw [storeBytes, if_neg (by omega), h.first rfl]

theorem subU32_eq {addr n : ℕ} (h : n ≤ addr) (haddr : addr < 4294967296) : subU32 addr n = addr - n := by
  unfold subU32 u32
  omega

/-- After `n` bytes the whole sectors are on the chip, on top of what was there. -/
structure Staged (offset total : ℕ) (image mem : ℕ → UInt8) (before : Chip) (n : ℕ) (f : Flash) : Prop where
  enable : f.ota.enable = true
  current : f.ota.currentSize = n
  total : f.ota.totalSize = total
  pos : f.ota.pos = n % 4096
  inside : f.outside = false
  chip : ∀ x, f.chip x =
    if offset ≤ x ∧ x < offset + n / 4096 * 4096 then before x &&& image (x - offset) else before x
  buff : ∃ b, f.ota.buff = some b ∧ Buffered image mem n b

/-- The download is over and the image is on the chip, on top of what was there. -/
structure Stored (offset total : ℕ) (image : ℕ → UInt8) (before : Chip) (f : Flash) : Prop where
  enable : f.ota.enable = false
  buff : f.ota.buff = none
  inside : f.outside = false
  chip : ∀ i < total, f.chip (offset + i) = before (offset + i) &&& image i

/-- An empty piece at the very start programs the sector before the image. -/
def primeStep (mem : ℕ → UInt8) (offset : ℕ) (before : Chip) : Chip :=
  w25qxxSectorProgram before (subU32 offset 4096) mem

section
variable {offset total n s : ℕ} {image mem ch : ℕ → UInt8} {before : Chip} {f : Flash}
  (h : Staged offset total image mem before n f) (hfit : n % 4096 + s ≤ 4096) (halign : offset % 4096 = 0)
  (hn : n + s ≤ total) (hin : offset + total ≤ w25qxx_FLASH_CHIP_SIZE)
include h hfit halign hn hin

/-- A sector that is complete goes to the chip. -/
theorem flush_apply {b : ℕ → UInt8} (hb : Buffered image mem (n + s) b) (hfull : (n + s) % 4096 = 0)
    (hpos : 0 < n + s) (x : ℕ) :
    w25qxxSectorProgram f.chip (subU32 (u32 (offset + n + s)) w25qxx_FLASH_SECTOR_SIZE) b x =
      if offset ≤ x ∧ x < offset + (n + s) / 4096 * 4096 then before x &&& image (x - offset)
      else before x := by
  unfold w25qxx_FLASH_CHIP_SIZE at hin
  have hu32 : u32 (offset + n + s) = offset + n + s := Nat.mod_eq_of_lt (by omega)
  rw [hu32, w25qxx_FLASH_SECTOR_SIZE, subU32_eq (by omega) (by omega),
    w25qxxSectorProgram_apply _ (by omega) (by unfold w25qxx_FLASH_CHIP_SIZE; omega), h.chip]
  by_cases hx : offset + n + s - 4096 ≤ x ∧ x < offset + n + s - 4096 + 4096
  · rw [if_pos hx, hb.whole hfull hpos _ (by omega),
      if_pos (show offset ≤ x ∧ x < offset + (n + s) / 4096 * 4096 by omega),
      show n + s - 4096 + (x - (offset + n + s - 4096)) = x - offset by omega]
    split_ifs with hold
    · -- it was there before: an empty piece
      rw [UInt8.and_assoc, UInt8.and_self]
    · rfl
  · rw [if_neg hx]
    exact if_congr (by omega) rfl rfl

theorem flush_rest_apply {b : ℕ → UInt8} (hb : Buffered image mem (n + s) b) (hfull : (n + s) % 4096 ≠ 0)
    {i : ℕ} (hi : i < n + s) :
    w25qxxSectorProgram f.chip (subU32 (u32 (offset + n + s)) (n % 4096 + s)) b (offset + i) =
      before (offset + i) &&& image i := by
  unfold w25qxx_FLASH_CHIP_SIZE at hin
  have hu32 : u32 (offset + n + s) = offset + n + s := Nat.mod_eq_of_lt (by omega)
  rw [hu32, subU32_eq (by omega) (by omega),
    w25qxxSectorProgram_apply _ (by omega) (by unfold w25qxx_FLASH_CHIP_SIZE; omega), h.chip]
  by_cases hx : i < n / 4096 * 4096
  · rw [if_neg (by omega), if_pos (by omega), Nat.add_sub_cancel_left]
  · rw [if_pos (by omega), if_neg (by omega), hb.part _ (by omega)]
    exact congrArg (before (offset + i) &&& image ·) (by omega)

omit halign hn hin in
/-- A piece that fits goes into the buffer. The piece that completes the image ends the download. -/
theorem falWrite_staged {b : ℕ → UInt8} (hb : f.ota.buff = some b) (ch : ℕ → UInt8) :
    let b' := storeBytes b (n % 4096) ch s
    let flushed := w25qxxSectorProgram f.chip (subU32 (u32 (offset + n + s)) w25qxx_FLASH_SECTOR_SIZE) b'
    falWrite f (offset + n) ch s =
      if total ≤ n + s then
        ⟨if (n + s) % 4096 = 0 then flushed
          else w25qxxSectorProgram f.chip (subU32 (u32 (offset + n + s)) (n % 4096 + s)) b',
        ⟨false, n + s, total, 0, none⟩, false⟩
      else if (n + s) % 4096 = 0 then ⟨flushed, ⟨true, n + s, total, 0, some b'⟩, false⟩
      else ⟨f.chip, ⟨true, n + s, total, n % 4096 + s, some b'⟩, false⟩ := by
  intro b' flushed
  have hout : (f.outside || decide (w25qxx_FLASH_SECTOR_SIZE < n % 4096 + s)) = false := by
    rw [h.inside, Bool.false_or]
    exact decide_eq_false (Nat.not_lt.2 hfit)
  unfold falWrite ymodemOtaExtWrite
  dsimp only
  rw [if_pos h.enable, h.current, h.total, h.pos, h.enable, hb, hout]
  dsimp only [Option.getD_some]
  by_cases hfull : (n + s) % 4096 = 0
  · have hdec : decide ((n + s) % w25qxx_FLASH_SECTOR_SIZE = 0) = true := decide_eq_true hfull
    rw [hdec, if_pos hfull, if_pos hfull]
    simp only [if_true, ymodemOtaExtDisable, ge_iff_le]
    split_ifs <;> rfl
  · have hdec : decide ((n + s) % w25qxx_FLASH_SECTOR_SIZE = 0) = false := decide_eq_false hfull
    rw [hdec, if_neg hfull, if_neg hfull]
    simp only [Bool.false_eq_true, if_false, ymodemOtaExtDisable, ge_iff_le]
    split_ifs <;> rfl

variable (hch : ∀ k < s, ch k = image (n + k))
include hch

theorem staged_write (hlt : n + s < total) :
    Staged offset total image mem (if n + s = 0 then primeStep mem offset before else before) (n + s)
      (falWrite f (offset + n) ch s) := by
  obtain ⟨b, hb, hbuf⟩ := h.buff
  have hbuf' := hbuf.store hch hfit
  rw [falWrite_staged h hfit hb, if_neg (Nat.not_le.2 hlt)]
  by_cases h0 : n + s = 0
  · -- nothing has come yet
    obtain ⟨rfl, rfl⟩ : n = 0 ∧ s = 0 := by omega
    have hu32 : u32 (offset + 0 + 0) = offset :=
      Nat.mod_eq_of_lt (by unfold w25qxx_FLASH_CHIP_SIZE at hin; omega)
    have hchip : f.chip = before := by
      funext x
      rw [h.chip x, if_neg (by omega)]
    rw [if_pos (by omega), if_pos h0]
    refine ⟨rfl, rfl, rfl, rfl, rfl, fun x => ?_, _, rfl, hbuf'⟩
    rw [if_neg (by omega), hu32, hbuf'.first rfl, hchip, primeStep, w25qxx_FLASH_SECTOR_SIZE]
  · rw [if_neg h0]
    split_ifs with hfull
    · exact ⟨rfl, rfl, rfl, hfull.symm, rfl, flush_apply h hfit halign hn hin hbuf' hfull (by omega), _, rfl, hbuf'⟩
    · refine ⟨rfl, rfl, rfl, ?_, rfl, fun x => ?_, _, rfl, hbuf'⟩
      · show n % 4096 + s = (n + s) % 4096
        omega
      · rw [h.chip x]
        exact if_congr (by omega) rfl rfl

theorem stored_write (hlast : n + s = total) :
    Stored offset total image before (falWrite f (offset + n) ch s) := by
  obtain ⟨b, hb, hbuf⟩ := h.buff
  have hbuf' := hbuf.store hch hfit
  rw [falWrite_staged h hfit hb, if_pos (ge_of_eq hlast)]
  refine ⟨rfl, rfl, rfl, fun i hi => ?_⟩
  dsimp only
  split_ifs with hfull
  · rw [flush_apply h hfit halign hn hin hbuf' hfull (by omega), if_pos (by omega), Nat.add_sub_cancel_left]
  · exact flush_rest_apply h hfit halign hn hin hbuf' hfull (by omega)

end

/-! ### All the pieces -/

/-- No piece reaches over the end of the buffer, `n` bytes having come before the first. -/
def Fits : ℕ → List (List UInt8) → Prop
  | _, [] => True
  | n, ch :: chunks => n % 4096 + ch.length ≤ 4096 ∧ Fits (n + ch.length) chunks

/-- The empty pieces in front of the image. -/
def primed (mem : ℕ → UInt8) (offset : ℕ) : List (List UInt8) → Chip → Chip
  | [] :: chunks, before => primed mem offset chunks (primeStep mem offset before)
  | _, before => before

theorem primed_of_ne_nil (mem : ℕ → UInt8) (offset : ℕ) {ch : List UInt8} (hch : 0 < ch.length)
    (chunks : List (List UInt8)) (before : Chip) : primed mem offset (ch :: chunks) before = before := by
  cases ch with
  | nil => exact absurd hch (Nat.lt_irrefl 0)
  | cons _ _ => rfl

theorem fits_of_flatten_nil : ∀ {chunks : List (List UInt8)} {n : ℕ}, chunks.flatten.length = 0 → Fits n chunks
  | [], _, _ => trivial
  | ch :: chunks, n, h => by
    rw [List.flatten_cons, List.length_append] at h
    exact ⟨by omega, fits_of_flatten_nil (by omega)⟩

theorem falWrite_off {f : Flash} (hf : f.ota.enable = false) (offset : ℕ) (buf : ℕ → UInt8) (size : ℕ) :
    falWrite f offset buf size = { f with chip := w25qxxWriteData f.chip offset buf size } := by
  rw [falWrite, ymodemOtaExtWrite, if_neg (by rw [hf]; exact Bool.false_ne_true)]

theorem falWrite_on_outside {f : Flash} (hf : f.ota.enable = true) (offset : ℕ) (buf : ℕ → UInt8) (size : ℕ) :
    (falWrite f offset buf size).outside =
      (f.outside || decide (w25qxx_FLASH_SECTOR_SIZE < f.ota.pos + size)) := by
  rw [falWrite, ymodemOtaExtWrite, if_pos hf]
  dsimp only
  by_cases hdone : f.ota.currentSize + size ≥ f.ota.totalSize
  · rw [if_pos hdone]
    rfl
  · rw [if_neg hdone]

theorem falWrite_outside {f : Flash} (hf : f.outside = true) (offset : ℕ) (buf : ℕ → UInt8) (size : ℕ) :
    (falWrite f offset buf size).outside = true := by
  by_cases hon : f.ota.enable = true
  · rw [falWrite_on_outside hon, hf, Bool.true_or]
  · rw [falWrite_off (Bool.eq_false_of_not_eq_true hon)]
    exact hf

/-- What comes behind the image is empty and leaves everything as it is. -/
theorem writeChunks_done : ∀ {chunks : List (List UInt8)} {f : Flash} {offset : ℕ},
    chunks.flatten.length = 0 → f.ota.enable = false → writeChunks f offset chunks = f
  | [], _, _, _, _ => rfl
  | ch :: chunks, f, offset, h, hf => by
    rw [List.flatten_cons, List.length_append] at h
    have hw : falWrite f offset (bytesOf ch) ch.length = f := by
      rw [falWrite_off hf, show ch.length = 0 by omega, w25qxxWriteData, writeLoop]
    rw [writeChunks, hw]
    exact writeChunks_done (by omega) hf

theorem writeChunks_outside : ∀ {chunks : List (List UInt8)} {f : Flash} {offset : ℕ},
    f.outside = true → (writeChunks f offset chunks).outside = true
  | [], _, _, hf => hf
  | ch :: chunks, f, offset, hf => by
    rw [writeChunks]
    exact writeChunks_outside (falWrite_outside hf offset (bytesOf ch) ch.length)

/-- A piece that does not fit is stored behind the end of the buffer. -/
theorem Staged.overrun {offset total n s : ℕ} {image mem : ℕ → UInt8} {before : Chip} {f : Flash}
    (h : Staged offset total image mem before n f) (hfit : ¬ n % 4096 + s ≤ 4096) (ch : ℕ → UInt8) :
    (falWrite f (offset + n) ch s).outside = true := by
  have hlt : decide (w25qxx_FLASH_SECTOR_SIZE < n % 4096 + s) = true := decide_eq_true (Nat.not_le.1 hfit)
  rw [falWrite_on_outside h.enable, h.pos, hlt, Bool.or_true]

section
variable {offset total : ℕ} {image mem : ℕ → UInt8} (halign : offset % 4096 = 0)
  (hin : offset + total ≤ w25qxx_FLASH_CHIP_SIZE)
include halign hin

/-- From a point of the download on, the pieces that are left store the rest of the image exactly if they
    fit. -/
theorem writeChunks_staged : ∀ {chunks : List (List UInt8)} {n : ℕ} {before : Chip} {f : Flash},
    Staged offset total image mem before n f → n + chunks.flatten.length = total →
    (∀ k < chunks.flatten.length, bytesOf chunks.flatten k = image (n + k)) → chunks ≠ [] →
    (Fits n chunks → Stored offset total image (if n = 0 then primed mem offset chunks before else before)
        (writeChunks f (offset + n) chunks)) ∧
      (¬ Fits n chunks → (writeChunks f (offset + n) chunks).outside = true)
  | [], _, _, _, _, _, _, hne => absurd rfl hne
  | ch :: chunks, n, before, f, h, htotal, himage, _ => by
    rw [List.flatten_cons, List.length_append] at htotal himage
    have hch : ∀ k < ch.length, bytesOf ch k = image (n + k) := by
      intro k hk
      rw [← himage k (by omega), bytesOf, bytesOf, List.getD_append _ _ _ _ hk]
    have hrest : ∀ k < chunks.flatten.length, bytesOf chunks.flatten k = image (n + ch.length + k) := by
      intro k hk
      rw [Nat.add_assoc, ← himage (ch.length + k) (by omega), bytesOf, bytesOf,
        List.getD_append_right _ _ _ _ (by omega), Nat.add_sub_cancel_left]
    rw [writeChunks]
    by_cases hfit : n % 4096 + ch.length ≤ 4096
    · rw [Nat.add_assoc offset]
      by_cases hlt : n + ch.length < total
      · have hnext := writeChunks_staged (staged_write h hfit halign (by omega) hin hch hlt) (by omega) hrest
          (fun hnil => by rw [hnil, List.flatten_nil, List.length_nil] at htotal; omega)
        refine ⟨fun hfits => ?_, fun hfits => hnext.2 fun h2 => hfits ⟨hfit, h2⟩⟩
        have hstored := hnext.1 hfits.2
        by_cases h0 : n = 0
        · cases ch with
          | nil =>
            rw [List.length_nil, Nat.add_zero, if_pos h0, if_pos h0] at hstored
            rw [if_pos h0]
            exact hstored
          | cons x ch =>
            rw [List.length_cons, if_neg (by omega), if_neg (by omega)] at hstored
            rw [if_pos h0]
            exact hstored
        · rw [if_neg (by omega), if_neg (by omega)] at hstored
          rw [if_neg h0]
          exact hstored
      · have hstored := stored_write h hfit halign (by omega) hin hch (by omega)
        rw [writeChunks_done (by omega) hstored.enable]
        refine ⟨fun _ => ?_, fun hfits => absurd ⟨hfit, fits_of_flatten_nil (by omega)⟩ hfits⟩
        by_cases h0 : n = 0 ∧ 0 < ch.length
        · rw [if_pos h0.1, primed_of_ne_nil mem offset h0.2]
          exact hstored
        · refine ⟨hstored.enable, hstored.buff, hstored.inside, fun i hi => ?_⟩
          rw [if_neg (by omega)]
          exact hstored.chip i hi
    · exact ⟨fun hfits => absurd hfits.1 hfit, fun _ => writeChunks_outside (h.overrun hfit _)⟩

end

/-! ### Empty pieces in front -/

theorem sectorProgramLoop_congr : ∀ (k : ℕ) (c : Chip) {addr addr' : ℕ} (dataBuf : ℕ → UInt8),
    chipAddr addr = chipAddr addr' → sectorProgramLoop k c addr dataBuf = sectorProgramLoop k c addr' dataBuf
  | 0, _, _, _, _, _ => rfl
  | k + 1, c, addr, addr', dataBuf, h => by
    rw [sectorProgramLoop, sectorProgramLoop, w25qxxQuadPageProgram, w25qxxQuadPageProgram, h]
    apply sectorProgramLoop_congr
    rw [chipAddr_u32, chipAddr_u32]
    unfold chipAddr at h ⊢
    rw [← Nat.mod_add_mod, h, Nat.mod_add_mod]

/-- Before the start of the chip there is its last sector. -/
theorem primeStep_zero (mem : ℕ → UInt8) (before : Chip) (x : ℕ) :
    primeStep mem 0 before x =
      if 16773120 ≤ x ∧ x < 16777216 then before x &&& mem (x - 16773120) else before x := by
  have haddr : w25qxxSectorProgram before (subU32 0 4096) mem = w25qxxSectorProgram before 16773120 mem :=
    sectorProgramLoop_congr _ _ _ (by decide)
  rw [primeStep, haddr, w25qxxSectorProgram_apply _ (by decide) (by decide)]

theorem primed_zero (mem : ℕ → UInt8) (x : ℕ) : ∀ (chunks : List (List UInt8)) (before : Chip),
    primed mem 0 chunks before x =
      if chunks.head? = some [] then primeStep mem 0 before x else before x
  | [], _ => rfl
  | (_ :: _) :: _, _ => (if_neg (by simp)).symm
  | [] :: chunks, before => by
    rw [primed, primed_zero mem x chunks, List.head?_cons, if_pos rfl]
    split_ifs
    · rw [primeStep_zero, primeStep_zero]
      split_ifs
      · rw [UInt8.and_assoc, UInt8.and_self]
      · rfl
    · rfl

/-- Further on it is the sector in front of the image. -/
theorem primed_pos (mem : ℕ → UInt8) {offset : ℕ} (halign : offset % 4096 = 0) (hpos : 0 < offset)
    (hin : offset ≤ w25qxx_FLASH_CHIP_SIZE) (i : ℕ) : ∀ (chunks : List (List UInt8)) (before : Chip),
    primed mem offset chunks before (offset + i) = before (offset + i)
  | [], _ => rfl
  | (_ :: _) :: _, _ => rfl
  | [] :: chunks, before => by
    have hlt : offset < 4294967296 := lt_of_le_of_lt hin (by decide)
    rw [primed, primed_pos mem halign hpos hin i chunks, primeStep, subU32_eq (by omega) hlt,
      w25qxxSectorProgram_apply _ (by omega) (by omega), if_neg (by omega)]

/-! ### The download -/

/-- The image is on the chip, the download is over, and no byte was stored outside the buffer. -/
structure Downloaded (offset : ℕ) (image : List UInt8) (f : Flash) : Prop where
  inside : f.outside = false
  chip : ∀ i < image.length, f.chip (offset + i) = bytesOf image i
  enable : f.ota.enable = false
  buff : f.ota.buff = none

/-- No piece reaches over the end of a sector; where the erasing stops before the image does, no bit has to be
    set again; and neither has one in the chip's last sector if an empty piece has programmed it. -/
structure Downloadable (c : Chip) (mem : ℕ → UInt8) (offset : ℕ) (chunks : List (List UInt8)) : Prop where
  some : chunks ≠ []
  fits : Fits 0 chunks
  blank : ∀ i < chunks.flatten.length,
    offset / 32768 + (chunks.flatten.length + 32767) / 32768 ≤ (offset + i) / 32768 →
    c (offset + i) &&& bytesOf chunks.flatten i = bytesOf chunks.flatten i
  last : offset = 0 → chunks.head? = Option.some [] → ∀ i < chunks.flatten.length, 16773120 ≤ i →
    mem (i - 16773120) &&& bytesOf chunks.flatten i = bytesOf chunks.flatten i

/-- What the image is programmed on top of. -/
theorem programmed_iff (c : Chip) (mem : ℕ → UInt8) {offset : ℕ} (halign : offset % 4096 = 0)
    (chunks : List (List UInt8)) (image : ℕ → UInt8) {total : ℕ} (hin : offset + total ≤ w25qxx_FLASH_CHIP_SIZE) :
    (∀ i < total, primed mem offset chunks (erased c offset total) (offset + i) &&& image i = image i) ↔
      (∀ i < total, offset / 32768 + (total + 32767) / 32768 ≤ (offset + i) / 32768 →
        c (offset + i) &&& image i = image i) ∧
      (offset = 0 → chunks.head? = some [] → ∀ i < total, 16773120 ≤ i →
        mem (i - 16773120) &&& image i = image i) := by
  unfold w25qxx_FLASH_CHIP_SIZE at hin
  rcases Nat.eq_zero_or_pos offset with rfl | hpos
  · -- the blocks that are erased are all the image has
    have hall : ∀ i < total, erased c 0 total (0 + i) = 0xFF := by
      intro i hi
      rw [erased, if_pos (by omega)]
    constructor
    · intro h
      refine ⟨fun i hi hfar => absurd hfar (by omega), fun _ hhead i hi hlast => ?_⟩
      have hi' := h i hi
      rw [primed_zero, if_pos hhead, primeStep_zero, if_pos (by omega), hall i hi, and_ones, Nat.zero_add] at hi'
      exact hi'
    · rintro ⟨-, hlast⟩ i hi
      rw [primed_zero]
      split_ifs with hhead
      · rw [primeStep_zero, hall i hi, and_ones, Nat.zero_add]
        split_ifs with hsec
        · exact hlast rfl hhead i hi hsec.1
        · exact and_ones _
      · rw [hall i hi, and_ones]
  · constructor
    · intro h
      refine ⟨fun i hi hfar => ?_, fun h0 => absurd h0 (by omega)⟩
      have hi' := h i hi
      rw [primed_pos mem halign hpos (by unfold w25qxx_FLASH_CHIP_SIZE; omega), erased, if_neg (by omega)] at hi'
      exact hi'
    · rintro ⟨hblank, -⟩ i hi
      rw [primed_pos mem halign hpos (by unfold w25qxx_FLASH_CHIP_SIZE; omega), erased]
      split_ifs with hnear
      · exact and_ones _
      · exact hblank i hi (by omega)

theorem staged_start (f : Flash) (hf : f.outside = false) (mem image : ℕ → UInt8) {offset total : ℕ}
    (hin : offset + total ≤ w25qxx_FLASH_CHIP_SIZE) :
    Staged offset total image mem (erased f.chip offset total) 0
      (falErase (ymodemOtaExtEnable f mem) offset total) := by
  rw [falErase_eq rfl hin]
  refine ⟨rfl, rfl, rfl, rfl, hf, fun x => ?_, mem, rfl, ?_⟩
  · rw [if_neg (by omega)]
    rfl
  · exact ⟨fun k hk => absurd hk (by omega), fun _ h0 => absurd h0 (Nat.lt_irrefl 0), fun _ => rfl⟩

/-- A download, into whatever the chip holds, with its pieces cut in any way. -/
theorem ota_download_iff (f : Flash) (hf : f.outside = false) (mem : ℕ → UInt8) {offset : ℕ}
    (halign : offset % 4096 = 0) (chunks : List (List UInt8))
    (hin : offset + chunks.flatten.length ≤ w25qxx_FLASH_CHIP_SIZE) :
    Downloaded offset chunks.flatten (download f mem offset chunks) ↔ Downloadable f.chip mem offset chunks := by
  have hstart := staged_start f hf mem (bytesOf chunks.flatten) hin
  by_cases hne : chunks = []
  · subst hne
    refine ⟨fun h => ?_, fun h => absurd rfl h.some⟩
    exact absurd (hstart.enable.symm.trans h.enable) (by decide)
  · obtain ⟨hfits, hover⟩ := writeChunks_staged halign hin hstart (Nat.zero_add _)
      (fun k _ => by rw [Nat.zero_add]) hne
    rw [Nat.add_zero, if_pos rfl] at hfits
    have hprog := programmed_iff f.chip mem halign chunks (bytesOf chunks.flatten) hin
    constructor
    · intro h
      have hfit : Fits 0 chunks := by
        by_contra hno
        exact absurd ((hover hno).symm.trans h.inside) (by decide)
      have hstored := hfits hfit
      obtain ⟨hblank, hlast⟩ := hprog.1 fun i hi => (hstored.chip i hi).symm.trans (h.chip i hi)
      exact ⟨hne, hfit, hblank, hlast⟩
    · intro h
      have hstored := hfits h.fits
      exact ⟨hstored.inside, fun i hi => (hstored.chip i hi).trans (hprog.2 ⟨h.blank, h.last⟩ i hi),
        hstored.enable, hstored.buff⟩

/-- Four long packets and a short one, which begins in the next sector. -/
def fivePackets : List (List UInt8) :=
  [.replicate 1024 0x5A, .replicate 1024 0x01, .replicate 1024 0xFF, .replicate 1024 0x00, .replicate 128 0xA5]

theorem fivePackets_length : fivePackets.flatten.length = 4224 := by
  simp only [fivePackets, List.flatten_cons, List.flatten_nil, List.length_append, List.length_replicate,
    List.length_nil]

/-- They are downloaded over a chip whose bits are all cleared. -/
theorem ota_download_packets :
    Downloaded 4096 fivePackets.flatten
      (download ⟨fun _ => 0, ⟨false, 0, 0, 0, none⟩, false⟩ (fun _ => 0) 4096 fivePackets) := by
  have hin : 4096 + fivePackets.flatten.length ≤ w25qxx_FLASH_CHIP_SIZE := by
    rw [fivePackets_length]
    decide
  refine (ota_download_iff _ rfl _ (by decide) fivePackets hin).2 ⟨List.cons_ne_nil _ _, ?_, ?_, ?_⟩
  · simp only [fivePackets, Fits, List.length_replicate]
    decide
  · intro i hi hfar
    rw [fivePackets_length] at hi hfar
    omega
  · intro h0
    exact absurd h0 (by decide)

/-- A short packet and then long ones: the fourth of these is stored over the end of the buffer. -/
theorem ota_short_packet_overruns :
    ¬ Downloaded 0 (List.replicate 128 0 :: List.replicate 4 (List.replicate 1024 0)).flatten
      (download ⟨fun _ => 0xFF, ⟨false, 0, 0, 0, none⟩, false⟩ (fun _ => 0) 0
        (List.replicate 128 0 :: List.replicate 4 (List.replicate 1024 0))) := by
  intro h
  have hshort : (List.replicate 128 (0 : UInt8)).length = 128 := List.length_replicate
  have hlong : (List.replicate 1024 (0 : UInt8)).length = 1024 := List.length_replicate
  generalize List.replicate 128 (0 : UInt8) = short at h hshort
  generalize List.replicate 1024 (0 : UInt8) = long at h hlong
  have hin : 0 + (short :: List.replicate 4 long).flatten.length ≤ w25qxx_FLASH_CHIP_SIZE := by
    simp [w25qxx_FLASH_CHIP_SIZE, hshort, hlong]
  have hfits : ¬ Fits 0 (short :: List.replicate 4 long) := by
    simp [Fits, List.replicate, hshort, hlong]
  have hstart := staged_start ⟨fun _ => 0xFF, ⟨false, 0, 0, 0, none⟩, false⟩ rfl (fun _ => 0)
    (bytesOf (short :: List.replicate 4 long).flatten) hin
  have hover := (writeChunks_staged (by decide) hin hstart (Nat.zero_add _)
    (fun k _ => by rw [Nat.zero_add]) (List.cons_ne_nil _ _)).2 hfits
  exact absurd (hover.symm.trans h.inside) (by decide)

end OpenMV.Driver
