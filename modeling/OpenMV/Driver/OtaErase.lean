import OpenMV.Driver.Ota

/-! Erasing for a download | scheme:machine | source:src/src/bsp/driver/drv_qspiflash.c

    The device declares blocks of 4 KiB, but while a download is on `erase` works with blocks of 32 KiB: it erases
    as many as the size asks for, from the block that holds the offset on. -/

namespace OpenMV.Driver
open Schemes Nor

/-- The bytes of the range are ones, and no others have changed. -/
def ErasesRange (f : Flash) (offset size : ℕ) : Prop := ∀ x,
  (offset ≤ x ∧ x < offset + size → (falErase f offset size).chip x = 0xFF) ∧
    (¬ (offset ≤ x ∧ x < offset + size) → (falErase f offset size).chip x = f.chip x)

/-- The address is in a block of 32 KiB that is erased. -/
def InBlocks (offset size x : ℕ) : Prop :=
  offset / 32768 ≤ x / 32768 ∧ x / 32768 < offset / 32768 + (size + 32767) / 32768

section

variable {f : Flash} (hf : f.ota.enable = true) {offset size : ℕ} (hin : offset + size ≤ w25qxx_FLASH_CHIP_SIZE)

include hf hin

theorem falErase_chip (x : ℕ) : (InBlocks offset size x → (falErase f offset size).chip x = 0xFF) ∧
    (¬ InBlocks offset size x → (falErase f offset size).chip x = f.chip x) := by
  rw [falErase_eq hf hin]
  exact ⟨fun h => if_pos h, fun h => if_neg h⟩

/-- What is in the range or in the blocks but not in both has to be erased already. -/
theorem erasesRange_iff_of_chip : ErasesRange f offset size ↔
    ∀ x, ¬ (InBlocks offset size x ↔ offset ≤ x ∧ x < offset + size) → f.chip x = 0xFF := by
  constructor
  · intro h x hx
    obtain ⟨hrange, hother⟩ := h x
    obtain ⟨hblocks, hrest⟩ := falErase_chip hf hin x
    by_cases hb : InBlocks offset size x
    · have hout : ¬ (offset ≤ x ∧ x < offset + size) := fun h => hx (iff_of_true hb h)
      rw [← hother hout, hblocks hb]
    · have hr : offset ≤ x ∧ x < offset + size := by
        by_contra hout
        exact hx (iff_of_false hb hout)
      rw [← hrest hb, hrange hr]
  · intro h x
    obtain ⟨hblocks, hrest⟩ := falErase_chip hf hin x
    by_cases hb : InBlocks offset size x
    · refine ⟨fun _ => hblocks hb, fun hout => ?_⟩
      rw [hblocks hb]
      exact (h x fun hiff => hout (hiff.1 hb)).symm
    · refine ⟨fun hr => ?_, fun _ => hrest hb⟩
      rw [hrest hb]
      exact h x fun hiff => hb (hiff.2 hr)

end

/-- The blocks are the range just if it is made of whole blocks. -/
theorem inBlocks_iff_range {offset size : ℕ} :
    (∀ x, InBlocks offset size x ↔ offset ≤ x ∧ x < offset + size) ↔ size = 0 ∨ 32768 ∣ offset ∧ 32768 ∣ size := by
  unfold InBlocks
  constructor
  · intro h
    rcases Nat.eq_zero_or_pos size with h0 | hpos
    · exact Or.inl h0
    · have hfirst := (h (offset / 32768 * 32768)).1 (by omega)
      have hlast := (h ((offset / 32768 + (size + 32767) / 32768) * 32768 - 1)).1 (by omega)
      right
      omega
  · intro h x
    omega

/-- Erasing touches its range alone on all chips just if the range is made of whole blocks of 32 KiB; on one chip, if
    what it erases too much or too little is ones already. -/
theorem ota_erase_iff (offset size : ℕ) (hin : offset + size ≤ w25qxx_FLASH_CHIP_SIZE) :
    (∀ f : Flash, f.ota.enable = true → (ErasesRange f offset size ↔
      ∀ x, ¬ (InBlocks offset size x ↔ offset ≤ x ∧ x < offset + size) → f.chip x = 0xFF)) ∧
    ((∀ f : Flash, f.ota.enable = true → ErasesRange f offset size) ↔
      size = 0 ∨ 32768 ∣ offset ∧ 32768 ∣ size) := by
  refine ⟨fun f hf => erasesRange_iff_of_chip hf hin, ?_⟩
  rw [← inBlocks_iff_range]
  constructor
  · intro h x
    by_contra hx
    have hzero : (0 : UInt8) = 0xFF := (erasesRange_iff_of_chip rfl hin).1
      (h ⟨fun _ => 0, ⟨true, 0, 0, 0, none⟩, false⟩ rfl) x hx
    exact absurd hzero (by decide)
  · exact fun h f hf => (erasesRange_iff_of_chip hf hin).2 fun x hx => absurd (h x) hx

theorem ota_erase_block : ErasesRange ⟨fun _ => 0, ⟨true, 0, 0, 0, none⟩, false⟩ 32768 65536 :=
  (ota_erase_iff 32768 65536 (by decide)).2.2 (Or.inr ⟨by decide, by decide⟩) _ rfl

/-- The block of 4 KiB at 4096: the bytes from 0 on go with it. -/
theorem ota_erase_neighbours : ¬ ErasesRange ⟨fun _ => 0, ⟨true, 0, 0, 0, none⟩, false⟩ 4096 4096 := by
  intro h
  have hzero : (0xFF : UInt8) = 0 :=
    ((falErase_chip rfl (by decide) 0).1 ⟨by decide, by decide⟩).symm.trans ((h 0).2 (by decide))
  exact absurd hzero (by decide)

end OpenMV.Driver
