import OpenMV.Schemes.Bytes
import OpenMV.Schemes.Reader

/-! Files | scheme:codec | source:src/src/openmv/omv/ff_wrapper.c

    The helpers the image readers and writers go through. A file that is read from start to end is the
    list of the bytes still ahead; one of the exceptions ends the reading. -/

namespace OpenMV.Io
open Schemes

/-- The exceptions raised by the helpers. -/
inductive FileError where
  /-- `ff_fail` -/
  | fail (res : ℕ)
  /-- Failed to read requested bytes! -/
  | readFail
  /-- Unexpected value read! -/
  | expectFail
  /-- Unsupported format! -/
  | unsupportedFormat
  /-- File corrupted! -/
  | fileCorrupted
  /-- Images not equal! -/
  | notEqual
  /-- Image is not BMP! -/
  | notBmp
  /-- Image is not PPM! -/
  | notPpm
  /-- Image is not PGM! -/
  | notPgm
  /-- Image is not BAYER! -/
  | notBayer
  /-- No intersection! -/
  | noIntersection
  /-- Not enough memory available! -/
  | noMemory
deriving DecidableEq, Repr

abbrev Fil := Reader FileError

export Reader (raiseIf)

/-- `omvhal_f_read` returns the number of bytes when it got some but not all, which is then not
    `FR_OK`. -/
def readData (size : ℕ) : Fil (List UInt8) := fun s =>
  if (s.take size).length = size then .ok (s.take size, s.drop size)
  else if (s.take size).length = 0 then .error .readFail
  else .error (.fail (s.take size).length)

def readByte : Fil UInt8 := do
  let data ← readData 1
  return data.getD 0 0

def readByteExpect (value : UInt8) : Fil Unit := do
  let compare ← readByte
  raiseIf (value ≠ compare) .expectFail

def readByteIgnore : Fil Unit := do
  let _ ← readByte
  return ()

def readWord : Fil ℕ := do
  let data ← readData 2
  return rd16 data

def readWordExpect (value : ℕ) : Fil Unit := do
  let compare ← readWord
  raiseIf (value ≠ compare) .expectFail

def readWordIgnore : Fil Unit := do
  let _ ← readWord
  return ()

def readLong : Fil ℕ := do
  let data ← readData 4
  return rd32 data

def readLongExpect (value : ℕ) : Fil Unit := do
  let compare ← readLong
  raiseIf (value ≠ compare) .expectFail

def readLongIgnore : Fil Unit := do
  let _ ← readLong
  return ()

/-! ### What the helpers take -/

theorem takes_readData (size : ℕ) : Takes (readData size) size id where
  ok s t hs := by
    unfold readData
    rw [List.take_left' hs, List.drop_left' hs, if_pos hs]
    rfl
  short s hs := by
    unfold readData
    rw [List.take_of_length_le hs.le, if_neg (by omega)]
    by_cases h0 : s.length = 0
    · exact ⟨_, if_pos h0⟩
    · exact ⟨_, if_neg h0⟩

theorem takes_readByte : Takes readByte 1 fun s => s.getD 0 0 := (takes_readData 1).map _
theorem takes_readWord : Takes readWord 2 rd16 := (takes_readData 2).map _
theorem takes_readLong : Takes readLong 4 rd32 := (takes_readData 4).map _
theorem takes_readByteIgnore : Takes readByteIgnore 1 fun _ => () := takes_readByte.map fun _ => ()
theorem takes_readWordIgnore : Takes readWordIgnore 2 fun _ => () := takes_readWord.map fun _ => ()
theorem takes_readLongIgnore : Takes readLongIgnore 4 fun _ => () := takes_readLong.map fun _ => ()

theorem expect_eq_ok {α : Type} [DecidableEq α] {x : Fil α} {n : ℕ} {g : List UInt8 → α}
    (hx : Takes x n g) {v : α} {s : List UInt8} {r : Unit × List UInt8} :
    (x >>= fun a => raiseIf (v ≠ a) FileError.expectFail) s = .ok r ↔
      n ≤ s.length ∧ v = g (s.take n) ∧ r = ((), s.drop n) := by
  rw [Reader.bind_eq_ok]
  constructor
  · rintro ⟨a, t, h1, h2⟩
    obtain ⟨hn, ha⟩ := hx.eq_ok_iff.1 h1
    obtain ⟨hv, hr⟩ := Reader.raiseIf_eq_ok.1 h2
    cases ha
    exact ⟨hn, not_not.1 hv, hr⟩
  · rintro ⟨hn, hv, hr⟩
    exact ⟨_, _, hx.eq_ok_iff.2 ⟨hn, rfl⟩, Reader.raiseIf_eq_ok.2 ⟨not_not.2 hv, hr⟩⟩

theorem readByteExpect_eq_ok {v : UInt8} {s : List UInt8} {r : Unit × List UInt8} :
    readByteExpect v s = .ok r ↔ 1 ≤ s.length ∧ v = (s.take 1).getD 0 0 ∧ r = ((), s.drop 1) :=
  expect_eq_ok takes_readByte

theorem readWordExpect_eq_ok {v : ℕ} {s : List UInt8} {r : Unit × List UInt8} :
    readWordExpect v s = .ok r ↔ 2 ≤ s.length ∧ v = rd16 (s.take 2) ∧ r = ((), s.drop 2) :=
  expect_eq_ok takes_readWord

theorem readByteExpect_cons (b : UInt8) (t : List UInt8) :
    readByteExpect b (b :: t) = .ok ((), t) := by
  unfold readByteExpect
  refine (Reader.bind_of_ok (takes_readByte.ok [b] t rfl) _).trans ?_
  exact Reader.raiseIf_of_not (by simp) _ _

theorem readWord_le16 (n : ℕ) (t : List UInt8) :
    readWord (le16 n ++ t) = .ok (n % 65536, t) := by
  rw [takes_readWord.ok _ _ (length_le16 n), rd16_le16]

theorem readLong_le32 (n : ℕ) (t : List UInt8) :
    readLong (le32 n ++ t) = .ok (n % 4294967296, t) := by
  rw [takes_readLong.ok _ _ (length_le32 n), ← rd32_le32_append n [], List.append_nil]

theorem readWordExpect_le16 {n : ℕ} (h : n < 65536) (t : List UInt8) :
    readWordExpect n (le16 n ++ t) = .ok ((), t) := by
  unfold readWordExpect
  rw [Reader.bind_of_ok (readWord_le16 n t)]
  exact Reader.raiseIf_of_not (by simp [Nat.mod_eq_of_lt h]) _ _

theorem readLongExpect_le32 {n : ℕ} (h : n < 4294967296) (t : List UInt8) :
    readLongExpect n (le32 n ++ t) = .ok ((), t) := by
  unfold readLongExpect
  rw [Reader.bind_of_ok (readLong_le32 n t)]
  exact Reader.raiseIf_of_not (by simp [Nat.mod_eq_of_lt h]) _ _

/-! ### Files open for writing -/

structure WFil where
  bytes : List UInt8
  pos : ℕ
deriving DecidableEq, Repr

/-- What is at the position is overwritten, and the file gets longer at its end. -/
def writeData (fp : WFil) (data : List UInt8) : WFil :=
  ⟨fp.bytes.take fp.pos ++ data ++ fp.bytes.drop (fp.pos + data.length), fp.pos + data.length⟩

def writeByte (fp : WFil) (value : ℕ) : WFil := writeData fp [.ofNat value]

def writeWord (fp : WFil) (value : ℕ) : WFil := writeData fp (le16 value)

def writeLong (fp : WFil) (value : ℕ) : WFil := writeData fp (le32 value)

def fileSeek (fp : WFil) (offset : ℕ) : WFil := { fp with pos := offset }

theorem writeData_atEnd {fp : WFil} (h : fp.pos = fp.bytes.length) (data : List UInt8) :
    writeData fp data = ⟨fp.bytes ++ data, (fp.bytes ++ data).length⟩ := by
  unfold writeData
  rw [h, List.take_length, List.drop_eq_nil_of_le (Nat.le_add_right _ _), List.append_nil,
    List.length_append]

theorem foldl_writeData_atEnd : ∀ {ds : List (List UInt8)} {fp : WFil}, fp.pos = fp.bytes.length →
    ds.foldl writeData fp = ⟨fp.bytes ++ ds.flatten, (fp.bytes ++ ds.flatten).length⟩
  | [], fp, h => by
    rw [List.flatten_nil, List.append_nil, ← h]
    rfl
  | d :: ds, fp, h => by
    rw [List.foldl_cons, writeData_atEnd h, foldl_writeData_atEnd rfl, List.flatten_cons,
      List.append_assoc]

/-- A file that was written from start to end. -/
def fileOf (bytes : List UInt8) : WFil := ⟨bytes, bytes.length⟩

section
variable (bytes : List UInt8)

@[simp] theorem writeData_fileOf (data : List UInt8) :
    writeData (fileOf bytes) data = fileOf (bytes ++ data) := writeData_atEnd rfl data

@[simp] theorem writeByte_fileOf (value : ℕ) :
    writeByte (fileOf bytes) value = fileOf (bytes ++ [.ofNat value]) := writeData_fileOf bytes _

@[simp] theorem writeWord_fileOf (value : ℕ) :
    writeWord (fileOf bytes) value = fileOf (bytes ++ le16 value) := writeData_fileOf bytes _

@[simp] theorem writeLong_fileOf (value : ℕ) :
    writeLong (fileOf bytes) value = fileOf (bytes ++ le32 value) := writeData_fileOf bytes _

end

/-- A loop that writes on. -/
theorem foldl_fileOf {ι : Type} {step : WFil → ι → WFil} {g : ι → List UInt8} : ∀ {l : List ι},
    (∀ bytes, ∀ i ∈ l, step (fileOf bytes) i = fileOf (bytes ++ g i)) → ∀ bytes : List UInt8,
    l.foldl step (fileOf bytes) = fileOf (bytes ++ l.flatMap g)
  | [], _, bytes => by rw [List.flatMap_nil, List.append_nil]; rfl
  | i :: l, h, bytes => by
    rw [List.foldl_cons, h bytes i (.head _), foldl_fileOf fun bytes i hi => h bytes i (.tail _ hi),
      List.flatMap_cons, List.append_assoc]

end OpenMV.Io
