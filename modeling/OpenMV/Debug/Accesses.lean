import Mathlib.Data.List.TakeWhile
import OpenMV.Schemes.Run
import OpenMV.Debug.UsbDbg

/-! Accesses of the debugger | scheme:invariant | source:src/src/openmv/omv/usbdbg.c,
    src/src/openmv/omv/rt_thread_dbg.c

    The host chooses the length of every request. The callbacks take it block by block, but they copy, store
    and read as their own counters say: from the JPEG buffer, and from and to the buffer of 64 bytes that
    `serial_dbg_dispatch` hands to all of them. -/

namespace OpenMV.Debug
open Schemes

/-! ### What is read and written -/

/-- Bytes from an offset on, of the dispatch buffer or of the JPEG buffer. -/
inductive Access where
  | buf (start : ℤ) (size : ℕ)
  | jpeg (start : ℤ) (size : ℕ)
deriving DecidableEq, Repr

def Access.Inside : Access → Prop
  | .buf start size => size = 0 ∨ 0 ≤ start ∧ start + size ≤ BUFFER_SIZE
  | .jpeg start size => size = 0 ∨ 0 ≤ start ∧ start + size ≤ OMV_JPEG_BUF_SIZE

instance : DecidablePred Access.Inside
  | .buf _ _ => inferInstanceAs (Decidable (_ ∨ _))
  | .jpeg _ _ => inferInstanceAs (Decidable (_ ∨ _))

def dataInAccesses (length : ℕ) (s : State) : List Access :=
  match s.cmd with
  | .fwVersion => [.buf 0 12]
  | .txBufLen => [.buf 0 4]
  | .sensorId => [.buf 0 4, .buf 0 (serialTxBufRead length s).1.length]
  | .txBuf => [.buf 0 (serialTxBufRead length s).1.length]
  | .frameSize => [.buf 0 12]
  | .frameDump => if s.xferBytes < s.xferLength then [.jpeg s.xferBytes length, .buf 0 length] else []
  | .archStr => [.buf 0 archStr.length]
  | .scriptRunning => [.buf 0 4]
  | _ => []

/-- The bytes of a path that begins behind the rectangle, up to the null that ends it; if the buffer has none,
    at least the byte behind it. -/
def pathSize (buf : List UInt8) : ℕ := ((buf.drop 8).takeWhile (· ≠ 0)).length + 1

/-- The cases `USBDBG_TEMPLATE_SAVE` and `USBDBG_DESCRIPTOR_SAVE`: the null is stored, then the rectangle and
    the path are read. -/
def saveAccesses (buf : List UInt8) (length : ℤ) : List Access :=
  let n := if length = 64 then 63 else length
  [.buf n 1, .buf 0 8, .buf 8 (pathSize (buf.set n.toNat 0))]

/-- `vstr_add_strn` gets a negative length as a `size_t`. -/
def dataOutAccesses (gcLocked : Bool) (buf : List UInt8) (length : ℕ) (s : State) : List Access :=
  match s.cmd with
  | .fbEnable => [.buf 0 4]
  | .scriptExec =>
    if !s.scriptRunning && !gcLocked then [.buf 0 (clampLength length s % 18446744073709551616).toNat] else []
  | .templateSave => saveAccesses buf (clampLength length s)
  | .descriptorSave => saveAccesses buf (clampLength length s)
  | .attrWrite => [.buf 0 8]
  | _ => []

/-- `USBDBG_ATTR_WRITE` reads behind the header. -/
def controlAccesses (request : UInt8) : List Access :=
  match Cmd.ofRequest request with
  | .attrWrite => [.buf 6 4]
  | _ => []

/-! ### The port -/

/-- What can happen: an event of the link, or anything the camera's thread does to the JPEG buffer and its
    lock. -/
inductive PortEvent where
  | link (e : Event)
  | camera (fb : JpegFb)

/-- One event; `serial_recv_block` delivers as many bytes as it is asked for. -/
def portStep (l : Link) : PortEvent → Link
  | .camera fb => { l with dbg := { l.dbg with fb := fb } }
  | .link e =>
    match e, l.phase with
    | .dataOut chunk _, .dataOut _ left => if chunk.length = blockSize left then l.step e else l
    | _, _ => l.step e

/-- All that is read or written in the course of it. -/
def accesses (l : Link) : PortEvent → List Access
  | .camera _ => []
  | .link e =>
    if l.halted then []
    else match e, l.phase with
      | .request h, .idle => .buf 0 6 :: if h.magic = 0x30 then controlAccesses h.request else []
      | .dataIn _, .dataIn _ left => dataInAccesses (blockSize left) l.dbg ++ [.buf 0 (blockSize left)]
      | .dataOut chunk gcLocked, .dataOut _ left =>
        if chunk.length = blockSize left then
          .buf 0 chunk.length :: dataOutAccesses gcLocked (poke l.buf chunk) chunk.length l.dbg
        else []
      | .timeout received, .idle => if received.length < 6 then [.buf 0 received.length] else []
      | .timeout received, .dataOut _ left =>
        if received.length < blockSize left then [.buf 0 received.length] else []
      | _, _ => []

/-- A frame that fits the JPEG buffer or is too long for an `int`, data that is not too long for an `int`, and
    paths that end inside the dispatch buffer. -/
def Bounded (l : Link) : PortEvent → Prop
  | .camera _ => True
  | .link e =>
    match e, l.phase with
    | .request h, .idle =>
      (Cmd.ofRequest h.request = .frameDump →
        h.length.toNat ≤ OMV_JPEG_BUF_SIZE ∨ 2147483648 ≤ h.length.toNat) ∧
      (Cmd.ofRequest h.request ∈ [Cmd.scriptExec, .templateSave, .descriptorSave] →
        h.length.toNat < 2147483648)
    | .dataOut chunk _, .dataOut _ _ =>
      l.dbg.cmd ∈ [Cmd.templateSave, .descriptorSave] →
        8 ≤ clampLength chunk.length l.dbg ∨ 0 ∈ (poke l.buf chunk).drop 8
    | _, _ => True

/-! ### The buffer keeps its size -/

theorem blockSize_le (left : ℕ) : blockSize left ≤ 64 := Nat.min_le_right _ _

theorem length_txBufCase {buf : List UInt8} {n : ℕ} {s : State} (hbuf : buf.length = 64) (hn : n ≤ 64) :
    (txBufCase buf n s).1.length = 64 := by
  have hread : (serialTxBufRead n s).1.length ≤ 64 := (List.length_take_le _ _).trans hn
  unfold txBufCase
  dsimp only
  split_ifs
  · exact hbuf
  · exact (length_poke (by omega)).trans hbuf
  · exact (length_poke (by omega)).trans hbuf

theorem length_dataIn {sensor : Option ℤ} {buf : List UInt8} {n : ℕ} {s : State} (hbuf : buf.length = 64)
    (hn : n ≤ 64) : (usbdbgDataIn sensor buf n s).1.length = 64 := by
  have hpoke : ∀ bytes : List UInt8, bytes.length ≤ 64 → (poke buf bytes).length = 64 := by
    intro bytes h
    exact (length_poke (by omega)).trans hbuf
  unfold usbdbgDataIn
  split
  · exact hpoke _ (by decide)
  · exact hpoke _ (by simp)
  · exact length_txBufCase (hpoke _ (by simp)) hn
  · exact length_txBufCase hbuf hn
  · unfold frameSizeCase
    dsimp only
    split_ifs
    · exact hpoke _ (by simp)
    · exact hpoke _ (by simp)
    · exact hpoke _ (by simp)
  · unfold frameDumpCase
    have hslice : (s.fb.slice s.xferBytes.toNat n).length = n := by
      rw [JpegFb.slice, List.length_map, List.length_range]
    by_cases hlt : s.xferBytes < s.xferLength
    · rw [if_pos hlt]
      exact hpoke _ (by omega)
    · rw [if_neg hlt]
      exact hbuf
  · exact hpoke _ (by decide)
  · exact hpoke _ (by simp)
  · exact hbuf

theorem length_onTimeout {l : Link} (hbuf : l.buf.length = 64) (received : List UInt8) :
    (l.onTimeout received).buf.length = 64 := by
  have hpoke : received.length ≤ 64 → (poke l.buf received).length = 64 := by
    intro h
    exact (length_poke (by omega)).trans hbuf
  unfold Link.onTimeout
  split
  · split_ifs with h
    · exact hpoke (by omega)
    · exact hbuf
  · split_ifs with h
    · exact hpoke (h.le.trans (blockSize_le _))
    · exact hbuf
  · exact hbuf

/-! ### The transfer keeps inside -/

/-- A frame that is sent ends inside the JPEG buffer, and data that is received does not run ahead of its
    length. -/
structure Safe (l : Link) : Prop where
  buf : l.buf.length = 64
  cmd : l.CmdOk
  dump : ∀ r left, l.phase = .dataIn r left → l.dbg.cmd = .frameDump → l.dbg.xferLength ≤ l.dbg.xferBytes ∨
    0 ≤ l.dbg.xferBytes ∧ l.dbg.xferBytes + left ≤ OMV_JPEG_BUF_SIZE
  out : ∀ r left, l.phase = .dataOut r left → l.dbg.cmd ∈ [Cmd.scriptExec, .templateSave, .descriptorSave] →
    l.dbg.xferBytes ≤ l.dbg.xferLength

theorem safe_init : Safe Link.init where
  buf := rfl
  cmd := cmdOk_idle rfl
  dump _ _ h := nomatch h
  out _ _ h := nomatch h

theorem toInt_neg {n : ℕ} (h1 : 2147483648 ≤ n) (h2 : n < 4294967296) : toInt n ≤ 0 := by
  unfold toInt
  split_ifs
  all_goals omega

theorem toInt_nonneg {n : ℕ} (h : n < 2147483648) : 0 ≤ toInt n := by
  rw [toInt, if_pos h]
  exact Int.natCast_nonneg n

/-- What a data phase is once it goes on. -/
theorem loop_dataIn {request r : UInt8} {n left : ℕ} (h : Phase.loop request n = .dataIn r left) :
    r = request ∧ left = n := by
  rcases loop_cases request n with ⟨hl, -⟩ | ⟨hl, -⟩ | ⟨hl, -⟩
  · exact nomatch hl.symm.trans h
  · cases hl.symm.trans h
    exact ⟨rfl, rfl⟩
  · exact nomatch hl.symm.trans h

/-- The commands with a transfer get it from `startXfer`. -/
theorem control_start {request : UInt8} {n : ℕ} {s s' : State} (h : usbdbgControl request n s = some s')
    {c : Cmd} (hc : c ∈ [Cmd.frameDump, .scriptExec, .templateSave, .descriptorSave]) (hcmd : s'.cmd = c) :
    Cmd.ofRequest request = c ∧ s'.xferBytes = 0 ∧ s'.xferLength = toInt n := by
  simp only [List.mem_cons, List.not_mem_nil, or_false] at hc
  rcases control_cases h with ⟨-, rfl⟩ | ⟨hr, rfl⟩ | ⟨-, rfl⟩ | ⟨-, rfl⟩ | ⟨-, rfl⟩
  · exact ⟨hcmd, rfl, rfl⟩
  · exact ⟨hr.trans hcmd, rfl, rfl⟩
  · rcases hc with rfl | rfl | rfl | rfl
    all_goals exact nomatch hcmd
  · rcases hc with rfl | rfl | rfl | rfl
    all_goals exact nomatch hcmd
  · rcases hc with rfl | rfl | rfl | rfl
    all_goals exact nomatch hcmd

theorem safe_request {l : Link} (hl : Safe l) (hph : l.phase = .idle) {h : Header}
    (hb : Bounded l (.link (.request h))) (hcmd : (l.onRequest h).CmdOk) : Safe (l.onRequest h) := by
  have hlen : (poke l.buf h.bytes).length = 64 :=
    (length_poke (by rw [hl.buf]; exact Nat.le_of_ble_eq_true rfl)).trans hl.buf
  have hbound : h.length.toNat < 4294967296 := h.length.toNat_lt
  simp only [Bounded, hph] at hb
  unfold Link.onRequest at hcmd ⊢
  dsimp only at hcmd ⊢
  by_cases hm : h.magic ≠ 0x30
  · rw [if_pos hm] at hcmd ⊢
    exact ⟨hlen, hcmd, fun _ _ hp => (nomatch hph.symm.trans hp), fun _ _ hp => (nomatch hph.symm.trans hp)⟩
  · rw [if_neg hm] at hcmd ⊢
    cases hctl : usbdbgControl h.request h.length.toNat l.dbg with
    | none =>
      rw [hctl] at hcmd
      exact ⟨hlen, hcmd, fun _ _ hp => (nomatch hph.symm.trans hp), fun _ _ hp => (nomatch hph.symm.trans hp)⟩
    | some s =>
      rw [hctl] at hcmd
      refine ⟨hlen, hcmd, fun r left hp hdump => ?_, fun r left hp hout => ?_⟩
      · obtain ⟨hreq, h1, h2⟩ := control_start hctl List.mem_cons_self hdump
        obtain ⟨-, rfl⟩ := loop_dataIn hp
        show s.xferLength ≤ s.xferBytes ∨ 0 ≤ s.xferBytes ∧ s.xferBytes + (h.length.toNat : ℤ) ≤ _
        rw [h1, h2]
        rcases hb.1 hreq with hfit | hlong
        · exact Or.inr ⟨Int.le_refl 0, by omega⟩
        · exact Or.inl (toInt_neg hlong hbound)
      · obtain ⟨hreq, h1, h2⟩ := control_start hctl (List.mem_cons_of_mem _ hout) rfl
        show s.xferBytes ≤ s.xferLength
        rw [h1, h2]
        exact toInt_nonneg (hb.2 (hreq ▸ hout))

/-- A block of a frame, if it is one. -/
theorem dataIn_dump {sensor : Option ℤ} {buf : List UInt8} {n : ℕ} {s : State}
    (h : (usbdbgDataIn sensor buf n s).2.cmd = .frameDump) : s.cmd = .frameDump ∧
      (usbdbgDataIn sensor buf n s).2.xferLength = s.xferLength ∧
      (usbdbgDataIn sensor buf n s).2.xferBytes = s.xferBytes + if s.xferBytes < s.xferLength then (n : ℤ) else 0 := by
  have hcmd : s.cmd = .frameDump := by
    rcases dataIn_cmd sensor buf n s with h' | h'
    · exact nomatch h.symm.trans h'
    · exact h'.symm.trans h
  have heq : usbdbgDataIn sensor buf n s = frameDumpCase buf n s := by
    unfold usbdbgDataIn
    rw [hcmd]
  refine ⟨hcmd, ?_⟩
  rw [heq, frameDumpCase]
  by_cases hlt : s.xferBytes < s.xferLength
  · rw [if_pos hlt, if_pos hlt]
    dsimp only
    split_ifs
    · exact ⟨rfl, rfl⟩
    · exact ⟨rfl, rfl⟩
  · rw [if_neg hlt, if_neg hlt, Int.add_zero]
    exact ⟨rfl, rfl⟩

theorem safe_dataIn {l : Link} (hl : Safe l) {request : UInt8} {left : ℕ} (hph : l.phase = .dataIn request left)
    (sensor : Option ℤ) (hcmd : (l.onDataIn request left sensor).CmdOk) :
    Safe (l.onDataIn request left sensor) := by
  refine ⟨length_dataIn hl.buf (blockSize_le left), hcmd, fun r k hp hdump => ?_, fun r k hp _ => ?_⟩
  · obtain ⟨-, rfl⟩ := loop_dataIn hp
    obtain ⟨hold, hlen, hbytes⟩ := dataIn_dump hdump
    have hle : blockSize left ≤ left := Nat.min_le_left _ _
    show (usbdbgDataIn sensor l.buf (blockSize left) l.dbg).2.xferLength ≤
        (usbdbgDataIn sensor l.buf (blockSize left) l.dbg).2.xferBytes ∨ _
    rcases hl.dump request left hph hold with hdone | ⟨h1, h2⟩
    · rw [hlen, hbytes, if_neg (by omega), Int.add_zero]
      exact Or.inl hdone
    · by_cases hlt : l.dbg.xferBytes < l.dbg.xferLength
      · refine Or.inr ?_
        show 0 ≤ (usbdbgDataIn sensor l.buf (blockSize left) l.dbg).2.xferBytes ∧
          (usbdbgDataIn sensor l.buf (blockSize left) l.dbg).2.xferBytes + ((left - blockSize left : ℕ) : ℤ) ≤ _
        rw [hbytes, if_pos hlt]
        omega
      · rw [hlen, hbytes, if_neg hlt, Int.add_zero]
        exact Or.inl (Int.not_lt.1 hlt)
  · -- the direction stays
    rcases loop_cases request (left - blockSize left) with ⟨hl', -⟩ | ⟨hl', -⟩ | ⟨-, -, hbit⟩
    · exact nomatch hl'.symm.trans hp
    · exact nomatch hl'.symm.trans hp
    · exact absurd hbit (hl.cmd.dataIn request left hph).1

theorem safe_dataOut {l : Link} (hl : Safe l) {request : UInt8} {left : ℕ} (hph : l.phase = .dataOut request left)
    {chunk : List UInt8} (hchunk : chunk.length = blockSize left) (gc : Bool)
    (hcmd : (l.onDataOut request left chunk gc).CmdOk) : Safe (l.onDataOut request left chunk gc) := by
  have hlen : (poke l.buf chunk).length = 64 :=
    (length_poke (by rw [hl.buf, hchunk]; exact blockSize_le left)).trans hl.buf
  unfold Link.onDataOut at hcmd ⊢
  cases hout : usbdbgDataOut gc (poke l.buf chunk) chunk.length l.dbg with
  | none =>
    rw [hout] at hcmd
    exact ⟨hlen, hcmd, hl.dump, hl.out⟩
  | some r =>
    rw [hout] at hcmd
    refine ⟨(length_dataOut hout).trans hlen, hcmd, fun r' k hp _ => ?_, fun r' k hp hc => ?_⟩
    · rcases loop_cases request (left - chunk.length) with ⟨hl', -⟩ | ⟨-, -, hbit⟩ | ⟨hl', -⟩
      · exact nomatch hl'.symm.trans hp
      · exact absurd (hl.cmd.dataOut request left hph).1 hbit
      · exact nomatch hl'.symm.trans hp
    · show r.2.xferBytes ≤ r.2.xferLength
      have hnone : ¬ Cmd.none ∈ [Cmd.scriptExec, .templateSave, .descriptorSave] := by decide
      rcases dataOut_cases hout with ⟨-, h⟩ | ⟨hexec, h⟩ | ⟨-, h | h⟩
      · exact absurd (show r.2.cmd ∈ _ from hc) (by rw [h]; exact hnone)
      · have hle := hl.out request left hph (by rw [hexec]; exact List.mem_cons_self)
        have hclamp : clampLength chunk.length l.dbg ≤ l.dbg.xferLength - l.dbg.xferBytes := by
          unfold clampLength
          split_ifs
          all_goals omega
        rcases scriptExec_cases h with ⟨-, h'⟩ | ⟨-, -, -, ⟨-, h'⟩ | ⟨-, h'⟩⟩
        · rw [h']
          exact hle
        · rw [h']
          show l.dbg.xferBytes + clampLength chunk.length l.dbg ≤ l.dbg.xferLength
          omega
        · rw [h']
          show l.dbg.xferBytes + clampLength chunk.length l.dbg ≤ l.dbg.xferLength
          omega
      · rw [h]
        exact hl.out request left hph (h ▸ hc)
      · exact absurd (show r.2.cmd ∈ _ from hc) (by rw [h]; exact hnone)

theorem safe_congr {l l' : Link} (hl : Safe l) (hbuf : l'.buf = l.buf) (hph : l'.phase = l.phase)
    (hcmd : l'.dbg.cmd = l.dbg.cmd)
    (hxfer : l'.dbg.xferBytes = l.dbg.xferBytes ∧ l'.dbg.xferLength = l.dbg.xferLength ∨
      l'.dbg.xferBytes = l'.dbg.xferLength) : Safe l' := by
  refine ⟨hbuf ▸ hl.buf, cmdOk_congr hl.cmd hph hcmd, fun r left hp hc => ?_, fun r left hp hc => ?_⟩
  · rcases hxfer with ⟨h1, h2⟩ | h
    · rw [h1, h2]
      exact hl.dump r left (hph ▸ hp) (hcmd ▸ hc)
    · exact Or.inl (Int.le_of_eq h.symm)
  · rcases hxfer with ⟨h1, h2⟩ | h
    · rw [h1, h2]
      exact hl.out r left (hph ▸ hp) (hcmd ▸ hc)
    · exact Int.le_of_eq h

theorem safe_link {l : Link} (hl : Safe l) {e : Event} (hb : Bounded l (.link e))
    (hchunk : ∀ chunk gc r left, e = .dataOut chunk gc → l.phase = .dataOut r left → chunk.length = blockSize left) :
    Safe (l.step e) := by
  have hcmd := cmdOk_step hl.cmd e
  unfold Link.step at hcmd ⊢
  by_cases hh : l.halted = true
  · rw [if_pos hh]
    exact hl
  · rw [if_neg hh] at hcmd ⊢
    cases e with
    | request h =>
      cases hph : l.phase with
      | idle =>
        simp only [hph] at hcmd ⊢
        exact safe_request hl hph hb hcmd
      | dataIn r left => exact hl
      | dataOut r left => exact hl
    | dataIn sensor =>
      cases hph : l.phase with
      | idle => exact hl
      | dataIn r left =>
        simp only [hph] at hcmd ⊢
        exact safe_dataIn hl hph sensor hcmd
      | dataOut r left => exact hl
    | dataOut chunk gc =>
      cases hph : l.phase with
      | idle => exact hl
      | dataIn r left => exact hl
      | dataOut r left =>
        simp only [hph] at hcmd ⊢
        split_ifs at hcmd ⊢
        · exact safe_dataOut hl hph (hchunk chunk gc r left rfl hph) gc hcmd
        · exact hl
    | timeout received =>
      have hlen := length_onTimeout hl.buf received
      rcases l.onTimeout_phase received with hph | hph
      · refine ⟨hlen, hcmd, fun r left hp hc => ?_, fun r left hp hc => ?_⟩
        · rw [l.onTimeout_dbg] at hc ⊢
          exact hl.dump r left (hph.symm.trans hp) hc
        · rw [l.onTimeout_dbg] at hc ⊢
          exact hl.out r left (hph.symm.trans hp) hc
      · exact ⟨hlen, hcmd, fun _ _ h => (nomatch hph.symm.trans h), fun _ _ h => (nomatch hph.symm.trans h)⟩
    | usbdbgInit => exact safe_congr hl rfl rfl rfl (Or.inr rfl)
    | usbdbgStopScript => exact safe_congr hl rfl rfl rfl (Or.inl ⟨rfl, rfl⟩)
    | setScriptRunning b => exact safe_congr hl rfl rfl rfl (Or.inl ⟨rfl, rfl⟩)
    | txBufWrite bytes =>
      exact safe_congr hl rfl rfl (serialTxBufWrite_cmd _ _)
        (Or.inl ⟨serialTxBufWrite_xferBytes _ _, serialTxBufWrite_xferLength _ _⟩)

theorem safe_step {l : Link} (hl : Safe l) {e : PortEvent} (hb : Bounded l e) : Safe (portStep l e) := by
  cases e with
  | camera fb => exact safe_congr hl rfl rfl rfl (Or.inl ⟨rfl, rfl⟩)
  | link e =>
    unfold portStep
    dsimp only
    split
    · next hph =>
      split_ifs with hchunk
      · refine safe_link hl hb fun chunk gc r left he hph' => ?_
        cases he
        cases hph.symm.trans hph'
        exact hchunk
      · exact hl
    · next hno =>
      exact safe_link hl hb fun chunk gc r left he hph => absurd hph (hno chunk gc r left he)

/-! ### All accesses -/

theorem inside_buf {n : ℕ} (h : n ≤ 64) : (Access.buf 0 n).Inside := by
  refine Or.inr ⟨Int.le_refl 0, ?_⟩
  unfold BUFFER_SIZE
  omega

theorem inside_dataIn {l : Link} (hl : Safe l) {request : UInt8} {left : ℕ} (hph : l.phase = .dataIn request left)
    {a : Access} (ha : a ∈ dataInAccesses (blockSize left) l.dbg) : a.Inside := by
  have hn := blockSize_le left
  have hread : (serialTxBufRead (blockSize left) l.dbg).1.length ≤ 64 := (List.length_take_le _ _).trans hn
  unfold dataInAccesses at ha
  split at ha
  · rw [List.mem_singleton.1 ha]
    exact inside_buf (by decide)
  · rw [List.mem_singleton.1 ha]
    exact inside_buf (by decide)
  · rcases List.mem_cons.1 ha with rfl | ha
    · exact inside_buf (by decide)
    · rw [List.mem_singleton.1 ha]
      exact inside_buf hread
  · rw [List.mem_singleton.1 ha]
    exact inside_buf hread
  · rw [List.mem_singleton.1 ha]
    exact inside_buf (by decide)
  · next hc =>
    split_ifs at ha with hlt
    · rcases List.mem_cons.1 ha with rfl | ha
      · rcases hl.dump request left hph hc with hdone | ⟨h1, h2⟩
        · exact absurd hlt (Int.not_lt.2 hdone)
        · have hle : blockSize left ≤ left := Nat.min_le_left _ _
          exact Or.inr ⟨h1, by omega⟩
      · rw [List.mem_singleton.1 ha]
        exact inside_buf hn
    · exact nomatch ha
  · rw [List.mem_singleton.1 ha]
    exact inside_buf (by decide)
  · rw [List.mem_singleton.1 ha]
    exact inside_buf (by decide)
  · exact nomatch ha

/-- The path ends in the buffer if there is a null behind the rectangle. -/
theorem pathSize_le {buf : List UInt8} (hlen : buf.length = 64) (h : 0 ∈ buf.drop 8) : 8 + pathSize buf ≤ 64 := by
  have hlt : ((buf.drop 8).takeWhile (· ≠ 0)).length < (buf.drop 8).length := by
    refine lt_of_le_of_ne (List.takeWhile_prefix _).length_le fun heq => ?_
    have hall := (List.takeWhile_prefix _).eq_of_length heq
    exact absurd (List.mem_takeWhile_imp (hall.symm ▸ h)) (by decide)
  rw [List.length_drop, hlen] at hlt
  unfold pathSize
  omega

theorem inside_save {buf : List UInt8} (hlen : buf.length = 64) {n : ℤ} (h0 : 0 ≤ n) (h64 : n ≤ 64)
    (hpath : 8 ≤ n ∨ 0 ∈ buf.drop 8) {a : Access} (ha : a ∈ saveAccesses buf n) : a.Inside := by
  unfold saveAccesses at ha
  dsimp only at ha
  generalize hm : (if n = 64 then 63 else n) = m at ha
  have hm1 : 0 ≤ m ∧ m ≤ 63 ∧ (8 ≤ n → 8 ≤ m) := by
    split_ifs at hm
    all_goals omega
  rcases List.mem_cons.1 ha with rfl | ha
  · exact Or.inr ⟨hm1.1, by unfold BUFFER_SIZE; omega⟩
  · rcases List.mem_cons.1 ha with rfl | ha
    · exact inside_buf (by decide)
    · rw [List.mem_singleton.1 ha]
      refine Or.inr ⟨by decide, ?_⟩
      have hnull : 0 ∈ (buf.set m.toNat 0).drop 8 := by
        rcases hpath with h8 | hnull
        · rw [List.mem_iff_getElem?]
          refine ⟨m.toNat - 8, ?_⟩
          rw [List.getElem?_drop, show 8 + (m.toNat - 8) = m.toNat by omega,
            List.getElem?_set_self (by omega)]
        · obtain ⟨i, hi⟩ := List.mem_iff_getElem?.1 hnull
          rw [List.getElem?_drop] at hi
          rw [List.mem_iff_getElem?]
          refine ⟨i, ?_⟩
          rw [List.getElem?_drop, List.getElem?_set]
          split_ifs with heq hin
          · rfl
          · exact absurd (List.getElem?_eq_some_iff.1 hi).1 (by omega)
          · exact hi
      have hsize := pathSize_le (by rw [List.length_set, hlen]) hnull
      unfold BUFFER_SIZE
      omega

theorem inside_dataOut {l : Link} (hl : Safe l) {request : UInt8} {left : ℕ} (hph : l.phase = .dataOut request left)
    {chunk : List UInt8} (hchunk : chunk.length = blockSize left) {gc : Bool}
    (hb : l.dbg.cmd ∈ [Cmd.templateSave, .descriptorSave] →
      8 ≤ clampLength chunk.length l.dbg ∨ 0 ∈ (poke l.buf chunk).drop 8)
    {a : Access} (ha : a ∈ dataOutAccesses gc (poke l.buf chunk) chunk.length l.dbg) : a.Inside := by
  have hn := blockSize_le left
  have hlen : (poke l.buf chunk).length = 64 := (length_poke (by rw [hl.buf, hchunk]; exact hn)).trans hl.buf
  have hclamp : l.dbg.cmd ∈ [Cmd.scriptExec, .templateSave, .descriptorSave] →
      0 ≤ clampLength chunk.length l.dbg ∧ clampLength chunk.length l.dbg ≤ 64 := by
    intro hc
    have hle := hl.out request left hph hc
    unfold clampLength
    split_ifs
    all_goals omega
  unfold dataOutAccesses at ha
  split at ha
  · rw [List.mem_singleton.1 ha]
    exact inside_buf (by decide)
  · next hc =>
    split_ifs at ha
    · rw [List.mem_singleton.1 ha]
      obtain ⟨h1, h2⟩ := hclamp (by rw [hc]; decide)
      exact inside_buf (by omega)
    · exact nomatch ha
  · next hc =>
    obtain ⟨h1, h2⟩ := hclamp (by rw [hc]; decide)
    exact inside_save hlen h1 h2 (hb (by rw [hc]; decide)) ha
  · next hc =>
    obtain ⟨h1, h2⟩ := hclamp (by rw [hc]; decide)
    exact inside_save hlen h1 h2 (hb (by rw [hc]; decide)) ha
  · rw [List.mem_singleton.1 ha]
    exact inside_buf (by decide)
  · exact nomatch ha

theorem inside_step {l : Link} (hl : Safe l) {e : PortEvent} (hb : Bounded l e) :
    ∀ a ∈ accesses l e, a.Inside := by
  intro a ha
  cases e with
  | camera fb => exact nomatch ha
  | link e =>
    unfold accesses at ha
    dsimp only at ha
    split_ifs at ha
    · exact nomatch ha
    · split at ha
      · rcases List.mem_cons.1 ha with rfl | ha
        · exact inside_buf (by decide)
        · split_ifs at ha
          · unfold controlAccesses at ha
            split at ha
            · rw [List.mem_singleton.1 ha]
              exact Or.inr (by decide)
            · exact nomatch ha
          · exact nomatch ha
      · next hph =>
        rcases List.mem_append.1 ha with ha | ha
        · exact inside_dataIn hl hph ha
        · rw [List.mem_singleton.1 ha]
          exact inside_buf (blockSize_le _)
      · next hph =>
        split_ifs at ha with hchunk
        · simp only [Bounded, hph] at hb
          rcases List.mem_cons.1 ha with rfl | ha
          · exact inside_buf (hchunk ▸ blockSize_le _)
          · exact inside_dataOut hl hph hchunk hb ha
        · exact nomatch ha
      · split_ifs at ha with hshort
        · rw [List.mem_singleton.1 ha]
          exact inside_buf (by omega)
        · exact nomatch ha
      · split_ifs at ha with hshort
        · rw [List.mem_singleton.1 ha]
          exact inside_buf (hshort.le.trans (blockSize_le _))
        · exact nomatch ha
      · exact nomatch ha

/-- Whatever the host asks for and whatever happens meanwhile to the JPEG buffer and its lock: while all requests
    are bounded, nothing outside the two buffers is read or written. -/
theorem dbg_accesses_inside (es : List PortEvent) (h : StepsMeet portStep Bounded Link.init es) :
    StepsMeet portStep (fun l e => ∀ a ∈ accesses l e, a.Inside) Link.init es := by
  rw [stepsMeet_iff_forall]
  intro pre e hpre
  have hpre' := (stepsMeet_concat Link.init pre e).1 (h.of_initial hpre)
  exact inside_step (run_inv Safe (fun l e hl hb => safe_step hl hb) safe_init hpre'.1) hpre'.2

/-- A short frame, and a template that is saved. -/
theorem dbg_accesses_of_frame_and_template :
    StepsMeet portStep (fun l e => ∀ a ∈ accesses l e, a.Inside) Link.init
      [.link (.request ⟨0x30, 0x82, 64⟩), .link (.dataIn none), .link (.request ⟨0x30, 0x08, 9⟩),
        .link (.dataOut (List.replicate 9 0x41) false)] :=
  dbg_accesses_inside _
    ⟨⟨fun _ => Or.inl (by decide), fun h => absurd h (by decide)⟩, trivial,
      ⟨fun h => absurd h (by decide), fun _ => by decide⟩, fun _ => Or.inl (by decide), trivial⟩

/-- The blocks of a frame that is longer than the JPEG buffer. -/
theorem frame_dump_blocks {n : UInt32} (hn : n.toNat < 2147483648) : ∀ k : ℕ, 64 * k < n.toNat →
    ∃ l, run portStep Link.init (.link (.request ⟨0x30, 0x82, n⟩) :: List.replicate k (.link (.dataIn none))) = l ∧
      l.halted = false ∧ l.phase = .dataIn 0x82 (n.toNat - 64 * k) ∧ l.dbg.cmd = .frameDump ∧
      l.dbg.xferBytes = 64 * k ∧ l.dbg.xferLength = n.toNat
  | 0, h => by
    refine ⟨_, rfl, rfl, ?_, rfl, rfl, ?_⟩
    · show Phase.loop 0x82 n.toNat = _
      rw [Phase.loop, if_neg (by omega), if_pos (by decide)]
      rfl
    · show toInt n.toNat = _
      rw [toInt, if_pos hn]
  | k + 1, h => by
    obtain ⟨l, hrun, hh, hph, hcmd, hbytes, hlen⟩ := frame_dump_blocks hn k (by omega)
    have hsize : blockSize (n.toNat - 64 * k) = 64 := Nat.min_eq_right (by unfold BUFFER_SIZE; omega)
    have hstep : portStep l (.link (.dataIn none)) = l.onDataIn 0x82 (n.toNat - 64 * k) none := by
      simp only [portStep, Link.step, hh, hph, Bool.false_eq_true, if_false]
    have hdata : usbdbgDataIn none l.buf 64 l.dbg =
        (poke l.buf (l.dbg.fb.slice l.dbg.xferBytes.toNat 64),
          { l.dbg with xferBytes := l.dbg.xferBytes + (64 : ℕ) }) := by
      unfold usbdbgDataIn
      rw [hcmd]
      dsimp only
      rw [frameDumpCase, if_pos (by omega)]
      dsimp only
      rw [if_neg (by omega)]
    refine ⟨_, rfl, ?_⟩
    rw [List.replicate_succ', ← List.cons_append, run_concat, hrun, hstep, Link.onDataIn, hsize, hdata]
    refine ⟨hh, ?_, hcmd, ?_, hlen⟩
    · show Phase.loop 0x82 _ = _
      rw [Phase.loop, if_neg (by omega), if_pos (by decide), Nat.sub_sub, Nat.mul_succ]
    · show l.dbg.xferBytes + ((64 : ℕ) : ℤ) = _
      rw [hbytes]
      push_cast
      ring

/-- One byte more than there is. -/
theorem frame_dump_leaks :
    ¬ StepsMeet portStep (fun l e => ∀ a ∈ accesses l e, a.Inside) Link.init
      (.link (.request ⟨0x30, 0x82, 32769⟩) :: List.replicate 513 (.link (.dataIn none))) := by
  intro h
  rw [List.replicate_succ', ← List.cons_append, stepsMeet_concat] at h
  obtain ⟨l, hrun, hh, hph, hcmd, hbytes, hlen⟩ := frame_dump_blocks (n := 32769) (by decide) 512 (by decide)
  have hin := h.2 (.jpeg 32768 1)
  rw [hrun] at hin
  have hmem : Access.jpeg 32768 1 ∈ accesses l (.link (.dataIn none)) := by
    have hbytes' : l.dbg.xferBytes = 32768 := hbytes
    have hlen' : l.dbg.xferLength = 32769 := hlen
    have hph' : l.phase = .dataIn 0x82 1 := hph
    simp only [accesses, hh, hph', Bool.false_eq_true, if_false, dataInAccesses, hcmd, hbytes', hlen']
    exact List.mem_cons_self
  exact absurd (hin hmem) (by decide)

end OpenMV.Debug
