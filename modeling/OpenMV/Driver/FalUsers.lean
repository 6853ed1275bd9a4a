import OpenMV.Driver.Ota
import OpenMV.Schemes.Run

/-! Users of the flash | scheme:machine | source:src/src/bsp/driver/drv_qspiflash.c

    The file system writes to the same device as a download. Their calls come in any order, and a download
    that the transfer gives up just makes no more calls. -/

namespace OpenMV.Driver
open Schemes Nor

/-- A call, of a download (`ymodem_ota_ext_do` or `http_ota_ext_do`, and the writes of its transfer) or of the
    file system. -/
inductive FalCall where
  | enable (mem : ℕ → UInt8)
  | erase (offset size : ℕ)
  | chunk (offset : ℕ) (data : List UInt8)
  | fsWrite (offset : ℕ) (data : List UInt8)

def falStep (f : Flash) : FalCall → Flash
  | .enable mem => ymodemOtaExtEnable f mem
  | .erase offset size => falErase f offset size
  | .chunk offset data => falWrite f offset (bytesOf data) data.length
  | .fsWrite offset data => falWrite f offset (bytesOf data) data.length

/-- A write of the file system has stored its bytes where it was told to, and done nothing else: the rest of
    the chip and all of the download are as before. -/
def Undisturbed (f : Flash) : FalCall → Prop
  | .fsWrite offset data =>
    falStep f (.fsWrite offset data) = { f with chip := storeBytes f.chip offset (bytesOf data) data.length }
  | _ => True

/-! ### Downloads as their calls tell -/

/-- Whether a download is on, what it has received and what it expects. -/
structure Session where
  isOn : Bool
  received : ℕ
  expected : ℕ

/-- The download is over with the last byte. -/
def Session.receive (s : Session) (n : ℕ) : Session :=
  if s.isOn then ⟨decide (s.received + n < s.expected), s.received + n, s.expected⟩ else s

/-- The file system's writes are not the download's business. -/
def sessionStep (s : Session) : FalCall → Session
  | .enable _ => { s with isOn := true }
  | .erase _ size => if s.isOn then { s with received := 0, expected := size } else s
  | .chunk _ data => s.receive data.length
  | .fsWrite _ _ => s

/-- No download is on when the file system writes. -/
def Apart (s : Session) : FalCall → Prop
  | .fsWrite _ _ => s.isOn = false
  | _ => True

def sessionOf (f : Flash) : Session := ⟨f.ota.enable, f.ota.currentSize, f.ota.totalSize⟩

theorem receive_on {s : Session} (h : s.isOn = true) (n : ℕ) :
    s.receive n = ⟨decide (s.received + n < s.expected), s.received + n, s.expected⟩ := if_pos h

theorem receive_off {s : Session} (h : s.isOn = false) (n : ℕ) : s.receive n = s :=
  if_neg (ne_true_of_eq_false h)

theorem sessionOf_falWrite (f : Flash) (offset : ℕ) (buf : ℕ → UInt8) (size : ℕ) :
    sessionOf (falWrite f offset buf size) = (sessionOf f).receive size := by
  by_cases hon : f.ota.enable = true
  · rw [receive_on hon, falWrite, ymodemOtaExtWrite, if_pos hon]
    dsimp only
    by_cases hdone : f.ota.currentSize + size ≥ f.ota.totalSize
    · have hdec : decide ((sessionOf f).received + size < (sessionOf f).expected) = false :=
        decide_eq_false (Nat.not_lt.2 hdone)
      rw [if_pos hdone, hdec]
      rfl
    · have hdec : decide ((sessionOf f).received + size < (sessionOf f).expected) = f.ota.enable :=
        (decide_eq_true (Nat.not_le.1 hdone)).trans hon.symm
      rw [if_neg hdone, hdec]
      rfl
  · have hoff := Bool.eq_false_of_not_eq_true hon
    rw [receive_off hoff, falWrite_off hoff]
    rfl

/-- The flag says what the calls tell, as long as the two keep apart. -/
theorem sessionOf_falStep {f : Flash} {e : FalCall} (h : Apart (sessionOf f) e) :
    sessionOf (falStep f e) = sessionStep (sessionOf f) e := by
  cases e with
  | enable mem => rfl
  | erase offset size =>
    rw [falStep, falErase, ymodemOtaExtErase, sessionStep]
    by_cases hon : f.ota.enable = true
    · rw [if_pos hon, if_pos (show (sessionOf f).isOn = true from hon)]
      rfl
    · rw [if_neg hon, if_neg (show ¬ (sessionOf f).isOn = true from hon)]
  | chunk offset data => exact sessionOf_falWrite f offset _ _
  | fsWrite offset data =>
    rw [falStep, sessionOf_falWrite, receive_off h, sessionStep]

/-! ### The file system's writes -/

theorem undisturbed_of_apart {f : Flash} {e : FalCall} (h : Apart (sessionOf f) e)
    (hin : ∀ offset data, e = .fsWrite offset data → offset + data.length ≤ w25qxx_FLASH_CHIP_SIZE) :
    Undisturbed f e := by
  cases e with
  | fsWrite offset data =>
    have hchip : w25qxxWriteData f.chip offset (bytesOf data) data.length =
        storeBytes f.chip offset (bytesOf data) data.length :=
      funext (w25qxxWriteData_apply f.chip (bytesOf data) (hin offset data rfl))
    rw [Undisturbed, falStep, falWrite_off h, hchip]
  | _ => trivial

/-- While a download is on, a write of the file system counts as a part of it. -/
theorem apart_of_undisturbed {f : Flash} {e : FalCall} (h : Undisturbed f e)
    (hsome : ∀ offset data, e = .fsWrite offset data → data ≠ []) : Apart (sessionOf f) e := by
  cases e with
  | fsWrite offset data =>
    by_contra hon
    have hlen := List.length_pos_iff.2 (hsome offset data rfl)
    have hs := congrArg sessionOf h
    rw [falStep, sessionOf_falWrite, receive_on (Bool.eq_true_of_not_eq_false hon)] at hs
    have hcount : f.ota.currentSize + data.length = f.ota.currentSize := congrArg Session.received hs
    omega
  | _ => trivial

/-- The calls of downloads, complete or given up, and of the file system, in any order: if no download is on
    when the file system writes, all its writes do what they should; and if one is, that write does not. -/
theorem fal_writes_apart (f : Flash) (calls : List FalCall)
    (hin : ∀ offset data, .fsWrite offset data ∈ calls → offset + data.length ≤ w25qxx_FLASH_CHIP_SIZE) :
    (StepsMeet sessionStep Apart (sessionOf f) calls → StepsMeet falStep Undisturbed f calls) ∧
    ((∀ offset data, .fsWrite offset data ∈ calls → data ≠ []) →
      StepsMeet falStep Undisturbed f calls → StepsMeet sessionStep Apart (sessionOf f) calls) := by
  induction calls generalizing f with
  | nil => exact ⟨fun _ => trivial, fun _ _ => trivial⟩
  | cons e calls ih =>
    have hrest := fun f => ih f fun offset data hmem => hin offset data (List.mem_cons_of_mem _ hmem)
    constructor
    · rintro ⟨hapart, hcalls⟩
      refine ⟨undisturbed_of_apart hapart fun offset data he => hin offset data (he ▸ List.mem_cons_self), ?_⟩
      rw [← sessionOf_falStep hapart] at hcalls
      exact (hrest _).1 hcalls
    · rintro hsome ⟨hund, hcalls⟩
      have hapart := apart_of_undisturbed hund fun offset data he =>
        hsome offset data (he ▸ List.mem_cons_self)
      refine ⟨hapart, ?_⟩
      rw [← sessionOf_falStep hapart]
      exact (hrest _).2 (fun offset data hmem => hsome offset data (List.mem_cons_of_mem _ hmem)) hcalls

/-- A file written before, and one after, a download of one byte. -/
theorem fal_writes_around_download :
    StepsMeet falStep Undisturbed ⟨fun _ => 0xFF, ⟨false, 0, 0, 0, none⟩, false⟩
      [.fsWrite 8192 [1], .enable fun _ => 0, .erase 4096 1, .chunk 4096 [0x5A], .fsWrite 8192 [2]] := by
  refine (fal_writes_apart _ _ fun offset data hmem => ?_).1 ⟨rfl, trivial, trivial, trivial, rfl, trivial⟩
  simp only [List.mem_cons, FalCall.fsWrite.injEq, reduceCtorEq, false_or, List.not_mem_nil, or_false] at hmem
  rcases hmem with ⟨rfl, rfl⟩ | ⟨rfl, rfl⟩
  all_goals decide

/-- A download that is given up at its start: the next byte the file system writes does not get to the chip. -/
theorem fs_write_after_abort :
    ¬ StepsMeet falStep Undisturbed ⟨fun _ => 0xFF, ⟨false, 0, 0, 0, none⟩, false⟩
      [.enable fun _ => 0, .erase 4096 2, .fsWrite 8192 [1]] := by
  rintro ⟨-, -, h, -⟩
  have hoff := apart_of_undisturbed h fun _ _ he => by cases he; exact List.cons_ne_nil _ _
  exact absurd (show true = false from hoff) (by decide)

end OpenMV.Driver
