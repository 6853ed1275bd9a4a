import OpenMV.Schemes.Run
import OpenMV.Debug.UsbDbg

/-! Terminal output | scheme:queue | source:src/src/openmv/omv/usbdbg.c,
    src/src/openmv/omv/rt_thread_dbg.c

    What scripts print goes through the ring `tx_rb` to the IDE, which asks for the number of bytes
    waiting (`TX_BUF_LEN`) and then for that many (`TX_BUF`). The replies in a row are what was
    written, as far as it was sent. The request that breaks this is `SENSOR_ID`: its case has no
    `break` and runs on into the one of `TX_BUF`, so that the reply is printed text, and the text is
    lost, whenever the ring is not empty. And a `TX_BUF` block that the ring cannot fill is sent with
    whatever the buffer held before. -/

namespace OpenMV.Debug
open Schemes

/-- The link, all bytes written to the ring, all bytes sent in reply to `TX_BUF`, and the number in the last
    `TX_BUF_LEN` reply. -/
structure Terminal where
  link : Link
  written : List UInt8
  replies : List UInt8
  announced : ℕ

def Terminal.init : Terminal := ⟨Link.init, [], [], 0⟩

/-- What the IDE receives in a block: part of the terminal output, or the number of bytes waiting. -/
def Terminal.onBlock (s : Terminal) (cmd : Cmd) (request : UInt8) (left : ℕ) : Terminal :=
  if request = 0x8F then { s with replies := s.replies ++ s.link.buf.take (blockSize left) }
  else if cmd = .txBufLen then { s with announced := rd32 s.link.buf }
  else s

def Terminal.step (s : Terminal) (e : Event) : Terminal :=
  let s' := { s with link := s.link.step e }
  if s.link.halted then s'
  else match e, s.link.phase with
    | .txBufWrite bytes, _ => { s' with written := s.written ++ bytes }
    | .dataIn _, .dataIn request left => s'.onBlock s.link.dbg.cmd request left
    | _, _ => s'

def runTerminal (es : List Event) : Terminal := Schemes.run Terminal.step Terminal.init es

/-- The runs considered: no `FW_VERSION` request, no overflow of the ring, and no `TX_BUF` request for
    more than the last `TX_BUF_LEN` reply says. -/
def Polite (s : Terminal) : Event → Prop
  | .request h => h.magic = 0x30 → s.link.phase = .idle →
      h.request ≠ 0x80 ∧ (h.request = 0x8F → h.length.toNat ≤ s.announced)
  | .txBufWrite bytes => s.link.dbg.txRb.length + bytes.length ≤ RB_LEN
  | _ => True

def Phase.sending : Phase → Bool
  | .dataIn _ _ => true
  | _ => false

/-- A `SENSOR_ID` reply is made up only while the ring is empty. -/
def SensorClear (s : Terminal) : Event → Prop
  | .dataIn _ => s.link.halted = false → s.link.phase.sending = true →
      s.link.dbg.cmd = .sensorId → s.link.dbg.txRb = []
  | _ => True

/-- The bytes of a `TX_BUF` reply still to be sent. -/
def Phase.pending : Phase → ℕ
  | .dataIn r left => if r = 0x8F then left else 0
  | _ => 0

/-- A block of a `TX_BUF` reply is made up only while the ring has as many bytes. -/
def TxBufFilled (s : Terminal) : Event → Prop
  | .dataIn _ => s.link.halted = false → blockSize s.link.phase.pending ≤ s.link.dbg.txRb.length
  | _ => True

/-- The block is one of a reply to `TX_BUF`. -/
def TxBufBlock (s : Terminal) : Event → Prop
  | .dataIn _ => ∃ left, s.link.phase = .dataIn 0x8F left
  | _ => False

/-- Nothing is lost or injected: the replies are a prefix of what was written, only a write or a
    block of a `TX_BUF` reply changes the ring, and a `SENSOR_ID` reply is the sensor id. -/
structure TerminalIntact (es : List Event) : Prop where
  replies : ∀ pre, pre <+: es → (runTerminal pre).replies <+: (runTerminal pre).written
  ring : ∀ pre e, pre ++ [e] <+: es → (∀ bytes, e ≠ .txBufWrite bytes) → ¬ TxBufBlock (runTerminal pre) e →
    (runTerminal (pre ++ [e])).link.dbg.txRb = (runTerminal pre).link.dbg.txRb
  sensor : ∀ pre sensor left, pre ++ [.dataIn sensor] <+: es → (runTerminal pre).link.halted = false →
    (runTerminal pre).link.phase = .dataIn 0x90 left → (runTerminal pre).link.dbg.cmd = .sensorId →
    ((runTerminal (pre ++ [.dataIn sensor])).link.buf.take (blockSize left)).take 4 =
      (le32 (toU32 (sensor.getD 0xFF))).take (blockSize left)

/-! ### What the calls do to the ring -/

theorem txBufCase_txRb (buf : List UInt8) (n : ℕ) (s : State) :
    (txBufCase buf n s).2.txRb = s.txRb.drop n := by
  unfold txBufCase serialTxBufRead
  dsimp only
  split <;> rfl

/-- Only the replies to `FW_VERSION`, `TX_BUF` and `SENSOR_ID` can change it. -/
theorem dataIn_txRb (sensor : Option ℤ) (buf : List UInt8) (n : ℕ) (s : State) :
    (usbdbgDataIn sensor buf n s).2.txRb =
      if s.cmd = .fwVersion then [] else if s.cmd = .txBuf ∨ s.cmd = .sensorId then s.txRb.drop n
      else s.txRb := by
  unfold usbdbgDataIn
  split <;> rename_i hc
  · rw [hc]; rfl
  · rw [hc]; rfl
  · rw [txBufCase_txRb, hc]; rfl
  · rw [txBufCase_txRb, hc]; rfl
  · rw [hc]
    unfold frameSizeCase
    dsimp only
    split
    · split <;> rfl
    · rfl
  · rw [hc]
    unfold frameDumpCase
    split
    · dsimp only
      split <;> rfl
    · rfl
  · rw [hc]; rfl
  · rw [hc]; rfl
  · rename_i hfw _ hid htx _ _ _
    rw [if_neg hfw, if_neg (by rintro (h | h); exacts [htx h, hid h])]

theorem dataOut_txRb {gc : Bool} {buf : List UInt8} {n : ℕ} {s : State} {r : List UInt8 × State}
    (h : usbdbgDataOut gc buf n s = some r) : r.2.txRb = s.txRb := by
  rcases dataOut_cases h with ⟨-, h⟩ | ⟨-, hx⟩ | ⟨-, h | h⟩
  · rw [h]; rfl
  · rcases scriptExec_cases hx with ⟨-, h⟩ | ⟨-, -, -, h | h⟩
    · rw [h]
    · rw [h.2]; rfl
    · rw [h.2]; rfl
  · rw [h]
  · rw [h]

theorem control_txRb {request : UInt8} {n : ℕ} {s s' : State}
    (h : usbdbgControl request n s = some s') : s'.txRb = s.txRb := by
  rcases control_cases h with ⟨-, rfl⟩ | ⟨-, rfl⟩ | ⟨-, rfl⟩ | ⟨-, rfl⟩ | ⟨-, rfl⟩ <;> rfl

/-! ### The buffer never shrinks -/

theorem le_length_poke (buf bytes : List UInt8) : buf.length ≤ (poke buf bytes).length := by
  simp only [poke, List.length_append, List.length_drop]
  omega

theorem le_length_txBufCase (buf : List UInt8) (n : ℕ) (s : State) :
    buf.length ≤ (txBufCase buf n s).1.length := by
  unfold txBufCase
  dsimp only
  split_ifs
  · exact le_rfl
  · exact le_length_poke _ _
  · exact le_length_poke _ _

theorem le_length_dataIn (sensor : Option ℤ) (buf : List UInt8) (n : ℕ) (s : State) :
    buf.length ≤ (usbdbgDataIn sensor buf n s).1.length := by
  unfold usbdbgDataIn
  split
  · exact le_length_poke _ _
  · exact le_length_poke _ _
  · exact (le_length_poke _ _).trans (le_length_txBufCase _ _ _)
  · exact le_length_txBufCase _ _ _
  · unfold frameSizeCase
    dsimp only
    split_ifs <;> exact le_length_poke _ _
  · unfold frameDumpCase
    split_ifs
    · exact le_length_poke _ _
    · exact le_rfl
  · exact le_length_poke _ _
  · exact le_length_poke _ _
  · exact le_rfl

theorem le_length_onTimeout (l : Link) (received : List UInt8) :
    l.buf.length ≤ (l.onTimeout received).buf.length := by
  unfold Link.onTimeout
  split
  · split_ifs
    · exact le_length_poke _ _
    · exact le_rfl
  · split_ifs
    · exact le_length_poke _ _
    · exact le_rfl
  · exact le_rfl

/-! ### The invariant -/

structure TermInv (s : Terminal) : Prop where
  cmd : s.link.CmdOk
  noFw : s.link.dbg.cmd ≠ .fwVersion
  ring : s.link.dbg.txRb.length ≤ RB_LEN
  split : s.written = s.replies ++ s.link.dbg.txRb
  announced : s.announced ≤ RB_LEN
  buf : BUFFER_SIZE ≤ s.link.buf.length
  reply : ∀ left, s.link.phase = .dataIn 0x8F left → s.link.dbg.cmd = .txBuf ∧
    (s.link.dbg.xferBytes + left = s.link.dbg.xferLength ∨
      s.link.dbg.xferLength ≤ s.link.dbg.xferBytes)

theorem termInv_init : TermInv Terminal.init where
  cmd := cmdOk_idle rfl
  noFw := by simp [Terminal.init, Link.init, State.init]
  ring := Nat.zero_le _
  split := rfl
  announced := Nat.zero_le _
  buf := le_refl _
  reply := by intro left h; exact absurd h (by simp [Terminal.init, Link.init])

/-- The phases that send no part of a `TX_BUF` reply. -/
def Phase.NotTxBuf (p : Phase) : Prop := ∀ left, p ≠ .dataIn 0x8F left

theorem Phase.NotTxBuf.pending {p : Phase} (h : p.NotTxBuf) : p.pending = 0 := by
  cases p with
  | idle | dataOut r left => rfl
  | dataIn r left =>
    refine if_neg ?_
    rintro rfl
    exact h left rfl

theorem notTxBuf_loop {r : UInt8} (h : r ≠ 0x8F) (n : ℕ) : (Phase.loop r n).NotTxBuf := by
  intro left hp
  rcases loop_cases r n with ⟨hl, -⟩ | ⟨hl, -⟩ | ⟨hl, -⟩ <;> rw [hl] at hp
  · exact absurd hp (by simp)
  · exact absurd (Phase.dataIn.inj hp).1 h
  · exact absurd hp (by simp)

/-- An event of another request: the ring and what was sent stay as they are. -/
theorem TermInv.quiet {s : Terminal} {l : Link} (h : TermInv s) (hok : l.CmdOk)
    (hfw : l.dbg.cmd ≠ .fwVersion) (hring : l.dbg.txRb = s.link.dbg.txRb)
    (hbuf : s.link.buf.length ≤ l.buf.length) (hph : l.phase.NotTxBuf) : TermInv { s with link := l } where
  cmd := hok
  noFw := hfw
  ring := by dsimp only; rw [hring]; exact h.ring
  split := by dsimp only; rw [hring]; exact h.split
  announced := h.announced
  buf := h.buf.trans hbuf
  reply := fun left hp => absurd hp (hph left)

/-- An event that leaves the phase and `cmd` alone, and does not bring the transfer to its end. -/
theorem TermInv.same {s : Terminal} {l : Link} (h : TermInv s) (hcmd : l.dbg.cmd = s.link.dbg.cmd)
    (hph : l.phase = s.link.phase) (hring : l.dbg.txRb = s.link.dbg.txRb) (hbuf : s.link.buf.length ≤ l.buf.length)
    (hx : (l.dbg.xferBytes = s.link.dbg.xferBytes ∧ l.dbg.xferLength = s.link.dbg.xferLength) ∨
      l.dbg.xferLength ≤ l.dbg.xferBytes) : TermInv { s with link := l } where
  cmd := cmdOk_congr h.cmd hph hcmd
  noFw := by dsimp only; rw [hcmd]; exact h.noFw
  ring := by dsimp only; rw [hring]; exact h.ring
  split := by dsimp only; rw [hring]; exact h.split
  announced := h.announced
  buf := h.buf.trans hbuf
  reply := by
    intro left hp
    dsimp only at hp ⊢
    rw [hph] at hp
    obtain ⟨hc, hr⟩ := h.reply left hp
    refine ⟨hcmd.trans hc, ?_⟩
    rcases hx with ⟨h1, h2⟩ | hx
    · rw [h1, h2]; exact hr
    · exact Or.inr hx

/-! ### Steps -/

theorem termInv_request {s : Terminal} (h : TermInv s) {hd : Header} (hl : s.link.halted = false)
    (hph : s.link.phase = .idle) (hp : Polite s (.request hd)) : TermInv (s.step (.request hd)) := by
  have hstep : s.link.step (.request hd) = s.link.onRequest hd := by simp [Link.step, hl, hph]
  have hok : (s.link.step (.request hd)).CmdOk := cmdOk_step h.cmd _
  have hidle : s.link.phase.NotTxBuf := by intro left hx; exact absurd (hph.symm.trans hx) (by simp)
  have hterm : s.step (.request hd) = { s with link := s.link.step (.request hd) } := by
    simp [Terminal.step]
  have hbuf := le_length_poke s.link.buf hd.bytes
  rw [hterm]
  by_cases hm : hd.magic = 0x30
  swap
  · rw [hstep, Link.onRequest, if_pos hm] at hok ⊢
    exact h.quiet hok h.noFw rfl hbuf hidle
  obtain ⟨hnofw, hsaid⟩ := hp hm hph
  by_cases hr : hd.request = 0x8F
  · -- the length is one that an `int` holds
    have hle := (hsaid hr).trans h.announced
    have hctl : usbdbgControl hd.request hd.length.toNat s.link.dbg =
        some (startXfer .txBuf hd.length.toNat s.link.dbg) := by rw [hr]; rfl
    have hrb : RB_LEN = 512 := rfl
    have hon : s.link.onRequest hd = { s.link with
        dbg := startXfer .txBuf hd.length.toNat s.link.dbg, buf := poke s.link.buf hd.bytes,
        phase := .loop 0x8F hd.length.toNat } := by
      rw [Link.onRequest, if_neg (not_not.mpr hm), hctl]
      simp only [hr]
    rw [hstep, hon] at hok ⊢
    refine ⟨hok, by simp [startXfer], h.ring, h.split, h.announced, h.buf.trans hbuf, fun left hx => ?_⟩
    rcases loop_cases 0x8F hd.length.toNat with ⟨hy, -⟩ | ⟨hy, -⟩ | ⟨hy, -⟩ <;> rw [hy] at hx
    · exact absurd hx (by simp)
    · refine ⟨rfl, Or.inl ?_⟩
      rw [← (Phase.dataIn.inj hx).2]
      simp only [startXfer, toInt]
      rw [if_pos (by omega)]; omega
    · exact absurd hx (by simp)
  · rw [hstep, Link.onRequest, if_neg (not_not.mpr hm)] at hok ⊢
    cases hctl : usbdbgControl hd.request hd.length.toNat s.link.dbg with
    | none =>
      rw [hctl] at hok
      exact h.quiet hok h.noFw rfl hbuf hidle
    | some t =>
      rw [hctl] at hok
      refine h.quiet hok ?_ (control_txRb hctl) hbuf (notTxBuf_loop hr _)
      rcases control_cmd hctl with hc | hc
      · dsimp only; rw [hc]; simp
      · intro hx
        exact hnofw (Cmd.code_ofRequest (hc.symm.trans hx) (by simp))

/-- A block of a `TX_BUF` reply: the next bytes of the ring, and `cmd` stays until the last block. -/
theorem txBuf_block {l : Link} {left : ℕ} (sensor : Option ℤ) (hc : l.dbg.cmd = .txBuf)
    (hpos : 0 < left) (hle : blockSize left ≤ l.dbg.txRb.length) :
    (l.onDataIn 0x8F left sensor).buf.take (blockSize left) = l.dbg.txRb.take (blockSize left) ∧
    (l.onDataIn 0x8F left sensor).dbg.txRb = l.dbg.txRb.drop (blockSize left) ∧
    (l.onDataIn 0x8F left sensor).dbg.xferBytes = l.dbg.xferBytes + blockSize left ∧
    (l.onDataIn 0x8F left sensor).dbg.xferLength = l.dbg.xferLength ∧
    (l.dbg.xferBytes + blockSize left ≠ l.dbg.xferLength →
      (l.onDataIn 0x8F left sensor).dbg.cmd = .txBuf) := by
  have hn0 : 0 < blockSize left := lt_min hpos (by decide)
  generalize hnn : blockSize left = n at *
  have hlen : (l.dbg.txRb.take n).length = n := by rw [List.length_take]; omega
  have hne : l.dbg.txRb.take n ≠ [] := by
    intro hx; rw [hx] at hlen; simp at hlen; omega
  simp only [Link.onDataIn, usbdbgDataIn, hc, txBufCase, serialTxBufRead, hnn, if_neg hne, hlen]
  refine ⟨?_, trivial, trivial, trivial, fun hx => if_neg hx⟩
  rw [take_poke (le_of_eq hlen.symm), List.take_take, Nat.min_self]

theorem termInv_txBuf {s : Terminal} (h : TermInv s) {left : ℕ} {sensor : Option ℤ}
    (hph : s.link.phase = .dataIn 0x8F left) (hfill : blockSize left ≤ s.link.dbg.txRb.length)
    (hok : (s.link.onDataIn 0x8F left sensor).CmdOk) :
    TermInv { s with link := s.link.onDataIn 0x8F left sensor,
                     replies := s.replies ++
                       (s.link.onDataIn 0x8F left sensor).buf.take (blockSize left) } := by
  obtain ⟨hc, hx⟩ := h.reply left hph
  have hpos := (h.cmd.dataIn _ _ hph).2.2
  have hring := h.ring
  have hn : blockSize left ≤ left := Nat.min_le_left _ _
  have hn0 : 0 < blockSize left := lt_min hpos (by decide)
  obtain ⟨hbuf, hrb, hxb, hxl, hcmd⟩ := txBuf_block sensor hc hpos hfill
  have hphase : (s.link.onDataIn 0x8F left sensor).phase = .loop 0x8F (left - blockSize left) := rfl
  refine ⟨hok, ?_, ?_, ?_, h.announced, h.buf.trans (le_length_dataIn _ _ _ _), ?_⟩
  · -- noFw
    rcases dataIn_cmd sensor s.link.buf (blockSize left) s.link.dbg with hd | hd
    · dsimp only [Link.onDataIn]; rw [hd]; simp
    · dsimp only [Link.onDataIn]; rw [hd]; exact h.noFw
  · -- ring
    dsimp only
    rw [hrb, List.length_drop]; omega
  · -- split
    dsimp only
    rw [hbuf, hrb, List.append_assoc, List.take_append_drop]; exact h.split
  · -- reply
    intro left' hp
    dsimp only at hp ⊢
    rw [hphase] at hp
    rcases loop_cases 0x8F (left - blockSize left) with ⟨hl, -⟩ | ⟨hl, hpos', -⟩ | ⟨hl, -⟩ <;> rw [hl] at hp
    · exact absurd hp (by simp)
    · obtain ⟨-, rfl⟩ := Phase.dataIn.inj hp
      refine ⟨hcmd (by omega), ?_⟩
      rw [hxb, hxl]
      omega
    · exact absurd hp (by simp)

/-- A block of any other reply leaves the ring alone, unless it is a `SENSOR_ID` reply. -/
theorem ring_of_other {s : Terminal} (h : TermInv s) {r : UInt8} {left : ℕ} {sensor : Option ℤ}
    (hl : s.link.halted = false) (hph : s.link.phase = .dataIn r left) (hr : r ≠ 0x8F)
    (hs : SensorClear s (.dataIn sensor)) :
    (s.link.onDataIn r left sensor).dbg.txRb = s.link.dbg.txRb := by
  dsimp only [Link.onDataIn]
  rw [dataIn_txRb, if_neg h.noFw]
  split
  · rename_i hc
    rcases hc with hc | hc
    · rcases (h.cmd.dataIn r left hph).2.1 with hx | hx
      · exact absurd (hc.symm.trans hx) (by simp)
      · exact absurd (Cmd.code_ofRequest (hx.symm.trans hc) (by simp)) hr
    · rw [hs hl (by rw [hph]; rfl) hc]; simp
  · rfl

theorem termInv_other {s : Terminal} (h : TermInv s) {r : UInt8} {left : ℕ} {sensor : Option ℤ}
    (hl : s.link.halted = false) (hph : s.link.phase = .dataIn r left) (hr : r ≠ 0x8F)
    (hs : SensorClear s (.dataIn sensor)) (hok : (s.link.onDataIn r left sensor).CmdOk) :
    TermInv { s with link := s.link.onDataIn r left sensor,
                     announced := if s.link.dbg.cmd = .txBufLen
                       then rd32 (s.link.onDataIn r left sensor).buf else s.announced } := by
  have hring := ring_of_other h hl hph hr hs
  have hfw : (s.link.onDataIn r left sensor).dbg.cmd ≠ .fwVersion := by
    rcases dataIn_cmd sensor s.link.buf (blockSize left) s.link.dbg with hd | hd
    · dsimp only [Link.onDataIn]; rw [hd]; simp
    · dsimp only [Link.onDataIn]; rw [hd]; exact h.noFw
  have hq := h.quiet hok hfw hring (le_length_dataIn _ _ _ _) (notTxBuf_loop hr _)
  refine ⟨hq.cmd, hq.noFw, hq.ring, hq.split, ?_, hq.buf, hq.reply⟩
  dsimp only
  split
  · rename_i hc
    have hbuf : (s.link.onDataIn r left sensor).buf = poke s.link.buf (le32 s.link.dbg.txRb.length) := by
      simp only [Link.onDataIn, usbdbgDataIn, hc]
    have hrb : RB_LEN = 512 := rfl
    have hlen := h.ring
    rw [hbuf, poke, rd32_le32_append, Nat.mod_eq_of_lt (by omega)]
    exact hlen
  · exact hq.announced

theorem termInv_dataIn {s : Terminal} (h : TermInv s) {r : UInt8} {left : ℕ} {sensor : Option ℤ}
    (hl : s.link.halted = false) (hph : s.link.phase = .dataIn r left) (hs : SensorClear s (.dataIn sensor))
    (hf : TxBufFilled s (.dataIn sensor)) : TermInv (s.step (.dataIn sensor)) := by
  have hstep : s.link.step (.dataIn sensor) = s.link.onDataIn r left sensor := by
    simp [Link.step, hl, hph]
  have hok : (s.link.onDataIn r left sensor).CmdOk := by rw [← hstep]; exact cmdOk_step h.cmd _
  have hterm : s.step (.dataIn sensor) =
      ({ s with link := s.link.onDataIn r left sensor } : Terminal).onBlock s.link.dbg.cmd r left := by
    simp [Terminal.step, hl, hph, hstep]
  rw [hterm, Terminal.onBlock]
  by_cases hr : r = 0x8F
  · subst hr
    rw [if_pos rfl]
    have hfill := hf hl
    rw [hph, Phase.pending, if_pos rfl] at hfill
    exact termInv_txBuf h hph hfill hok
  · rw [if_neg hr]
    have ho := termInv_other h hl hph hr hs hok
    by_cases hc : s.link.dbg.cmd = .txBufLen
    · rw [if_pos hc] at ho ⊢; exact ho
    · rw [if_neg hc] at ho ⊢; exact ho

theorem termInv_dataOut {s : Terminal} (h : TermInv s) {r : UInt8} {left : ℕ} {chunk : List UInt8}
    {gc : Bool} (hph : s.link.phase = .dataOut r left)
    (hok : (s.link.onDataOut r left chunk gc).CmdOk) :
    TermInv { s with link := s.link.onDataOut r left chunk gc } := by
  have hr : r ≠ 0x8F := by
    rintro rfl; exact absurd (h.cmd.dataOut _ _ hph).1 (by decide)
  have hnot : s.link.phase.NotTxBuf := by intro n hx; exact absurd (hph.symm.trans hx) (by simp)
  have hbuf := le_length_poke s.link.buf chunk
  unfold Link.onDataOut at hok ⊢
  cases hout : usbdbgDataOut gc (poke s.link.buf chunk) chunk.length s.link.dbg with
  | none =>
    rw [hout] at hok
    exact h.quiet hok h.noFw rfl hbuf hnot
  | some p =>
    rw [hout] at hok
    refine h.quiet hok ?_ (dataOut_txRb hout) (hbuf.trans (length_dataOut hout).ge) (notTxBuf_loop hr _)
    rcases dataOut_cmd hout with hc | hc
    · dsimp only; rw [hc]; simp
    · dsimp only; rw [hc]; exact h.noFw

/-- Without overflow a write appends to the ring. -/
theorem txRb_write {bytes : List UInt8} {s : State} (h : s.txRb.length + bytes.length ≤ RB_LEN) :
    (serialTxBufWrite bytes s).txRb = s.txRb ++ bytes := by
  unfold serialTxBufWrite
  dsimp only
  rw [List.length_append, Nat.sub_eq_zero_of_le h, List.drop_zero]

theorem termInv_write {s : Terminal} (h : TermInv s) {bytes : List UInt8}
    (hp : Polite s (.txBufWrite bytes)) :
    TermInv { s with link := { s.link with dbg := serialTxBufWrite bytes s.link.dbg },
                     written := s.written ++ bytes } := by
  have hrb := txRb_write hp
  refine ⟨cmdOk_congr h.cmd rfl (serialTxBufWrite_cmd _ _), ?_, ?_, ?_, h.announced, h.buf, ?_⟩
  · dsimp only; rw [serialTxBufWrite_cmd]; exact h.noFw
  · dsimp only; rw [hrb, List.length_append]; exact hp
  · dsimp only; rw [hrb, h.split, List.append_assoc]
  · intro left hx
    dsimp only
    rw [serialTxBufWrite_cmd, serialTxBufWrite_xferBytes, serialTxBufWrite_xferLength]
    exact h.reply left hx

/-- A time-out stores a part of a message, at most. -/
theorem termInv_timeout {s : Terminal} (h : TermInv s) (received : List UInt8) :
    TermInv { s with link := s.link.onTimeout received } := by
  have hdbg := s.link.onTimeout_dbg received
  have hbuf := le_length_onTimeout s.link received
  rcases s.link.onTimeout_phase received with hph | hph
  · exact h.same (congrArg State.cmd hdbg) hph (congrArg State.txRb hdbg) hbuf
      (Or.inl ⟨congrArg State.xferBytes hdbg, congrArg State.xferLength hdbg⟩)
  · refine h.quiet (cmdOk_idle hph) (by rw [hdbg]; exact h.noFw) (congrArg State.txRb hdbg) hbuf ?_
    intro n hx
    exact absurd (hph.symm.trans hx) (by simp)

theorem termInv_step {s : Terminal} (h : TermInv s) {e : Event} (hp : Polite s e)
    (hs : SensorClear s e) (hf : TxBufFilled s e) : TermInv (s.step e) := by
  have hsame : s.link.step e = s.link → s.step e = { s with link := s.link.step e } →
      TermInv (s.step e) := by
    intro h1 h2; rw [h2, h1]; exact h
  cases hl : s.link.halted with
  | true => exact hsame (by simp [Link.step, hl]) (by simp [Terminal.step, hl])
  | false =>
    have hok : (s.link.step e).CmdOk := cmdOk_step h.cmd e
    cases e with
    | request hd =>
      cases hph : s.link.phase with
      | idle => exact termInv_request h hl hph hp
      | dataIn r left => exact hsame (by simp [Link.step, hl, hph]) (by simp [Terminal.step])
      | dataOut r left => exact hsame (by simp [Link.step, hl, hph]) (by simp [Terminal.step])
    | dataIn sensor =>
      cases hph : s.link.phase with
      | idle => exact hsame (by simp [Link.step, hl, hph]) (by simp [Terminal.step, hph])
      | dataIn r left => exact termInv_dataIn h hl hph hs hf
      | dataOut r left => exact hsame (by simp [Link.step, hl, hph]) (by simp [Terminal.step, hph])
    | dataOut chunk gc =>
      cases hph : s.link.phase with
      | idle => exact hsame (by simp [Link.step, hl, hph]) (by simp [Terminal.step])
      | dataIn r left => exact hsame (by simp [Link.step, hl, hph]) (by simp [Terminal.step])
      | dataOut r left =>
        have hterm : s.step (.dataOut chunk gc) =
            { s with link := s.link.step (.dataOut chunk gc) } := by simp [Terminal.step]
        by_cases hch : 0 < chunk.length ∧ chunk.length ≤ left
        · have hstep : s.link.step (.dataOut chunk gc) = s.link.onDataOut r left chunk gc := by
            simp [Link.step, hl, hph, hch]
          rw [hterm]
          rw [hstep] at hok ⊢
          exact termInv_dataOut h hph hok
        · exact hsame (by simp [Link.step, hl, hph, hch]) hterm
    | timeout received =>
      have hterm : s.step (.timeout received) = { s with link := s.link.onTimeout received } := by
        simp [Terminal.step, Link.step, hl]
      rw [hterm]
      exact termInv_timeout h received
    | usbdbgInit =>
      have hterm : s.step .usbdbgInit =
          { s with link := { s.link with dbg := usbdbgInit s.link.dbg } } := by
        simp [Terminal.step, Link.step, hl]
      rw [hterm]
      exact h.same rfl rfl rfl le_rfl (Or.inr (le_refl _))
    | usbdbgStopScript =>
      have hterm : s.step .usbdbgStopScript =
          { s with link := { s.link with dbg := usbdbgStopScript s.link.dbg } } := by
        simp [Terminal.step, Link.step, hl]
      rw [hterm]
      exact h.same rfl rfl rfl le_rfl (Or.inl ⟨rfl, rfl⟩)
    | setScriptRunning b =>
      have hterm : s.step (.setScriptRunning b) =
          { s with link := { s.link with dbg := { s.link.dbg with scriptRunning := b } } } := by
        simp [Terminal.step, Link.step, hl]
      rw [hterm]
      exact h.same rfl rfl rfl le_rfl (Or.inl ⟨rfl, rfl⟩)
    | txBufWrite bytes =>
      have hterm : s.step (.txBufWrite bytes) =
          { s with link := { s.link with dbg := serialTxBufWrite bytes s.link.dbg },
                   written := s.written ++ bytes } := by
        simp [Terminal.step, Link.step, hl]
      rw [hterm]
      exact termInv_write h hp

/-! ### Runs -/

theorem step_link (s : Terminal) (e : Event) : (s.step e).link = s.link.step e := by
  unfold Terminal.step
  dsimp only
  split
  · rfl
  split
  · rfl
  · unfold Terminal.onBlock
    split
    · rfl
    · split <;> rfl
  · rfl

theorem termInv_run {es : List Event} (hp : StepsMeet Terminal.step Polite Terminal.init es)
    (hs : StepsMeet Terminal.step SensorClear Terminal.init es)
    (hf : StepsMeet Terminal.step TxBufFilled Terminal.init es) : TermInv (runTerminal es) := by
  unfold runTerminal
  exact run_inv TermInv (fun _ _ hi hc => termInv_step hi hc.1 hc.2.1 hc.2.2) termInv_init
    (stepsMeet_and.mpr ⟨hp, stepsMeet_and.mpr ⟨hs, hf⟩⟩)

theorem ring_step {s : Terminal} (h : TermInv s) {e : Event} (hs : SensorClear s e)
    (hw : ∀ bytes, e ≠ .txBufWrite bytes) (hb : ¬ TxBufBlock s e) :
    (s.link.step e).dbg.txRb = s.link.dbg.txRb := by
  unfold Link.step
  split
  · rfl
  rename_i hl
  split
  · unfold Link.onRequest
    dsimp only
    split
    · rfl
    · split
      · rfl
      · rename_i hc
        exact control_txRb hc
  · rename_i hph
    refine ring_of_other h (by simpa using hl) hph ?_ hs
    rintro rfl
    exact hb ⟨_, hph⟩
  · split
    · unfold Link.onDataOut
      split
      · rfl
      · rename_i hd
        exact dataOut_txRb hd
    · rfl
  · rw [Link.onTimeout_dbg]
  · rfl
  · rfl
  · rfl
  · exact absurd rfl (hw _)
  · rfl

theorem sensor_reply {l : Link} {left : ℕ} (sensor : Option ℤ) (hc : l.dbg.cmd = .sensorId)
    (hring : l.dbg.txRb = []) : ((l.onDataIn 0x90 left sensor).buf.take (blockSize left)).take 4 =
      (le32 (toU32 (sensor.getD 0xFF))).take (blockSize left) := by
  have hbuf : (l.onDataIn 0x90 left sensor).buf = poke l.buf (le32 (toU32 (sensor.getD 0xFF))) := by
    simp only [Link.onDataIn, usbdbgDataIn, hc, txBufCase, serialTxBufRead, hring, List.take_nil,
      if_true]
  rw [hbuf, List.take_take, take_poke (by rw [length_le32]; exact Nat.min_le_left _ _),
    Nat.min_comm, ← List.take_take]
  rfl

/-- A `SENSOR_ID` reply takes bytes out of a ring that is not empty. -/
theorem sensorClear_of_ring {s : Terminal} (hok : s.link.CmdOk) {sensor : Option ℤ}
    (hring : ¬ TxBufBlock s (.dataIn sensor) →
      (s.link.step (.dataIn sensor)).dbg.txRb = s.link.dbg.txRb) : SensorClear s (.dataIn sensor) := by
  intro hl hsend hc
  cases hph : s.link.phase with
  | idle | dataOut r left => rw [hph] at hsend; exact absurd hsend (by simp [Phase.sending])
  | dataIn r left =>
    obtain ⟨-, hx, hpos⟩ := hok.dataIn r left hph
    have hr : r = 0x90 := by
      rcases hx with hx | hx
      · exact absurd (hc.symm.trans hx) (by simp)
      · exact Cmd.code_ofRequest (hx.symm.trans hc) (by simp)
    have hnot : ¬ TxBufBlock s (.dataIn sensor) := by
      rintro ⟨left', hp⟩
      rw [hph, hr] at hp
      exact absurd (Phase.dataIn.inj hp).1 (by decide)
    have hstep : s.link.step (.dataIn sensor) = s.link.onDataIn r left sensor := by
      simp [Link.step, hl, hph]
    have hdrop := hring hnot
    rw [hstep] at hdrop
    dsimp only [Link.onDataIn] at hdrop
    rw [dataIn_txRb, hc, if_neg (by simp), if_pos (Or.inr rfl)] at hdrop
    have hlen := congrArg List.length hdrop
    have hn0 : 0 < blockSize left := lt_min hpos (by decide)
    rw [List.length_drop] at hlen
    exact List.length_eq_zero_iff.mp (by omega)

/-- A block that the ring does not fill makes the replies longer than what was written. -/
theorem txBufFilled_of_replies {s : Terminal} (h : TermInv s) {sensor : Option ℤ}
    (hrep : (s.step (.dataIn sensor)).replies <+: (s.step (.dataIn sensor)).written) :
    TxBufFilled s (.dataIn sensor) := by
  intro hl
  cases hph : s.link.phase with
  | idle | dataOut r left => exact Nat.zero_le _
  | dataIn r left =>
    by_cases hr : r = 0x8F
    swap
    · rw [Phase.pending, if_neg hr]; exact Nat.zero_le _
    have hstep : s.link.step (.dataIn sensor) = s.link.onDataIn r left sensor := by
      simp [Link.step, hl, hph]
    have hterm : s.step (.dataIn sensor) =
        { s with link := s.link.onDataIn r left sensor,
                 replies := s.replies ++ (s.link.onDataIn r left sensor).buf.take (blockSize left) } := by
      simp [Terminal.step, hl, hph, hstep, Terminal.onBlock, hr]
    have hbuf : BUFFER_SIZE ≤ (s.link.onDataIn r left sensor).buf.length :=
      h.buf.trans (le_length_dataIn _ _ _ _)
    have hn : blockSize left ≤ BUFFER_SIZE := Nat.min_le_right _ _
    rw [hterm] at hrep
    have hlen := hrep.length_le
    dsimp only at hlen
    rw [h.split, List.length_append, List.length_append, List.length_take] at hlen
    rw [Phase.pending, if_pos hr]
    omega

theorem TerminalIntact.of_initial {es : List Event} (h : TerminalIntact es) {pre : List Event} (hp : pre <+: es) :
    TerminalIntact pre where
  replies p hpre := h.replies p (hpre.trans hp)
  ring p e hpre := h.ring p e (hpre.trans hp)
  sensor p sensor left hpre := h.sensor p sensor left (hpre.trans hp)

theorem runTerminal_concat (pre : List Event) (e : Event) :
    runTerminal (pre ++ [e]) = (runTerminal pre).step e := run_concat _ _ _

theorem clear_filled_of_intact {es : List Event} (hp : StepsMeet Terminal.step Polite Terminal.init es)
    (h : TerminalIntact es) : StepsMeet Terminal.step SensorClear Terminal.init es ∧
      StepsMeet Terminal.step TxBufFilled Terminal.init es := by
  induction es using List.reverseRecOn with
  | nil => exact ⟨trivial, trivial⟩
  | append_singleton es e ih =>
    rw [stepsMeet_concat] at hp
    obtain ⟨hs, hf⟩ := ih hp.1 (h.of_initial (List.prefix_append _ _))
    have hinv := termInv_run hp.1 hs hf
    rw [stepsMeet_concat, stepsMeet_concat]
    cases e with
    | dataIn sensor =>
      have hrep := h.replies _ (List.prefix_refl _)
      rw [runTerminal_concat] at hrep
      refine ⟨⟨hs, sensorClear_of_ring hinv.cmd fun hnot => ?_⟩, hf, txBufFilled_of_replies hinv hrep⟩
      have hring := h.ring es _ (List.prefix_refl _) (by simp) hnot
      rw [runTerminal_concat, step_link] at hring
      exact hring
    | request _ | dataOut _ _ | timeout _ | usbdbgInit | usbdbgStopScript | setScriptRunning _
    | txBufWrite _ => exact ⟨⟨hs, trivial⟩, hf, trivial⟩

/-- In a run without `FW_VERSION` requests and overflow, whose `TX_BUF` requests ask for no more than was
    announced, nothing is lost or injected exactly when every `SENSOR_ID` reply is made up while the ring is
    empty and every block of a `TX_BUF` reply while the ring can fill it. -/
theorem terminal_intact_iff (es : List Event)
    (hp : StepsMeet Terminal.step Polite Terminal.init es) :
    TerminalIntact es ↔ StepsMeet Terminal.step SensorClear Terminal.init es ∧
      StepsMeet Terminal.step TxBufFilled Terminal.init es := by
  constructor
  · exact clear_filled_of_intact hp
  · rintro ⟨hs, hf⟩
    have hinv : ∀ pre, pre <+: es → TermInv (runTerminal pre) :=
      fun pre hpre => termInv_run (hp.of_initial hpre) (hs.of_initial hpre) (hf.of_initial hpre)
    have hclear := stepsMeet_iff_forall.mp hs
    refine ⟨?_, ?_, ?_⟩
    · intro pre hpre
      rw [(hinv pre hpre).split]; exact List.prefix_append _ _
    · intro pre e hpre hw hb
      rw [runTerminal_concat, step_link]
      exact ring_step (hinv pre ((List.prefix_append _ _).trans hpre)) (hclear pre e hpre) hw hb
    · intro pre sensor left hpre hl hph hc
      have hring := hclear pre _ hpre hl (by
        change (runTerminal pre).link.phase.sending = true
        rw [hph]; rfl) hc
      have hstep : (runTerminal pre).link.step (.dataIn sensor) =
          (runTerminal pre).link.onDataIn 0x90 left sensor := by simp [Link.step, hl, hph]
      rw [runTerminal_concat, step_link, hstep]
      exact sensor_reply sensor hc hring

instance (s : Terminal) : ∀ e, Decidable (Polite s e)
  | .request h => inferInstanceAs (Decidable (h.magic = 0x30 → s.link.phase = .idle →
      h.request ≠ 0x80 ∧ (h.request = 0x8F → h.length.toNat ≤ s.announced)))
  | .txBufWrite bytes => inferInstanceAs (Decidable (s.link.dbg.txRb.length + bytes.length ≤ RB_LEN))
  | .dataIn _ | .dataOut _ _ | .timeout _ | .usbdbgInit | .usbdbgStopScript
  | .setScriptRunning _ => .isTrue trivial

instance (s : Terminal) : ∀ e, Decidable (SensorClear s e)
  | .dataIn _ => inferInstanceAs (Decidable (s.link.halted = false → s.link.phase.sending = true →
      s.link.dbg.cmd = .sensorId → s.link.dbg.txRb = []))
  | .request _ | .dataOut _ _ | .timeout _ | .usbdbgInit | .usbdbgStopScript | .setScriptRunning _
  | .txBufWrite _ => .isTrue trivial

instance (s : Terminal) : ∀ e, Decidable (TxBufFilled s e)
  | .dataIn _ => inferInstanceAs (Decidable (s.link.halted = false →
      blockSize s.link.phase.pending ≤ s.link.dbg.txRb.length))
  | .request _ | .dataOut _ _ | .timeout _ | .usbdbgInit | .usbdbgStopScript | .setScriptRunning _
  | .txBufWrite _ => .isTrue trivial

/-- A printed text is fetched in two parts, and the sensor id after it. -/
theorem terminal_intact_fetch : TerminalIntact [.txBufWrite [72, 105], .request ⟨0x30, 0x8E, 4⟩,
    .dataIn none, .request ⟨0x30, 0x8F, 1⟩, .dataIn none, .request ⟨0x30, 0x8F, 1⟩, .dataIn none,
    .request ⟨0x30, 0x90, 4⟩, .dataIn none] :=
  (terminal_intact_iff _ (by decide)).mpr ⟨by decide, by decide⟩

/-- The sensor id asked for while text is waiting: the text comes back, and is gone. -/
theorem sensor_id_takes_text :
    StepsMeet Terminal.step Polite Terminal.init
      [.txBufWrite [72, 105], .request ⟨0x30, 0x90, 4⟩, .dataIn none] ∧
    ¬ TerminalIntact [.txBufWrite [72, 105], .request ⟨0x30, 0x90, 4⟩, .dataIn none] := by
  refine ⟨by decide, fun h => ?_⟩
  have hs := h.sensor [.txBufWrite [72, 105], .request ⟨0x30, 0x90, 4⟩] none 4 (List.prefix_refl _)
    (by decide) (by decide) (by decide)
  exact absurd hs (by decide)

end OpenMV.Debug
