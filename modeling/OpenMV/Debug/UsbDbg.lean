import OpenMV.Debug.Framebuffer

/-! USB debugger | scheme:machine | source:src/src/openmv/omv/usbdbg.c, src/src/openmv/omv/usbdbg.h,
    src/src/openmv/omv/rt_thread_dbg.c

    The IDE talks to the camera in requests of six bytes: a magic byte, the command and the length
    of the data phase. `serial_dbg_dispatch` hands the header to `usbdbg_control` and then moves the
    data in blocks through one static buffer, calling `usbdbg_data_in` before each block it sends
    and `usbdbg_data_out` after each block it receives. All commands share the variables `cmd`,
    `xfer_bytes` and `xfer_length`, which is where the results about this protocol come from.

    A call that does not come back (the reset, or one that would pass a negative size to a memory
    copy) has no next state. The effects on the sensor, the file system and the interpreter's pending
    exception are outside this model. -/

namespace OpenMV.Debug
open Schemes

/-! ### The state -/

/-- `enum usbdbg_cmd`. -/
inductive Cmd where
  | none
  | fwVersion
  | frameSize
  | frameDump
  | archStr
  | scriptExec
  | scriptStop
  | scriptSave
  | scriptRunning
  | templateSave
  | descriptorSave
  | attrRead
  | attrWrite
  | sysReset
  | fbEnable
  | txBufLen
  | txBuf
  | sensorId
  deriving DecidableEq, Repr

/-- The request byte of a command. -/
def Cmd.code : Cmd → UInt8
  | .none => 0x00
  | .fwVersion => 0x80
  | .frameSize => 0x81
  | .frameDump => 0x82
  | .archStr => 0x83
  | .scriptExec => 0x05
  | .scriptStop => 0x06
  | .scriptSave => 0x07
  | .scriptRunning => 0x87
  | .templateSave => 0x08
  | .descriptorSave => 0x09
  | .attrRead => 0x8A
  | .attrWrite => 0x0B
  | .sysReset => 0x0C
  | .fbEnable => 0x0D
  | .txBufLen => 0x8E
  | .txBuf => 0x8F
  | .sensorId => 0x90

def Cmd.all : List Cmd :=
  [.fwVersion, .frameSize, .frameDump, .archStr, .scriptExec, .scriptStop, .scriptSave,
    .scriptRunning, .templateSave, .descriptorSave, .attrRead, .attrWrite, .sysReset, .fbEnable,
    .txBufLen, .txBuf, .sensorId]

/-- `(enum usbdbg_cmd) request`; a number outside the enumeration acts as `USBDBG_NONE`. -/
def Cmd.ofRequest (request : UInt8) : Cmd :=
  (Cmd.all.find? (fun c => c.code == request)).getD .none

theorem Cmd.code_ofRequest {request : UInt8} {c : Cmd} (h : Cmd.ofRequest request = c)
    (hc : c ≠ .none) : request = c.code := by
  unfold Cmd.ofRequest at h
  cases hf : Cmd.all.find? (fun c => c.code == request) with
  | none => rw [hf] at h; exact absurd h.symm hc
  | some c' =>
    rw [hf] at h
    have hcode := List.find?_some hf
    rw [← h]
    exact (beq_iff_eq.mp hcode).symm

/-- The static variables of `usbdbg.c`, the ring `tx_rb` and the JPEG framebuffer. `scriptBuf` is
    the text in the `vstr`. -/
structure State where
  xferBytes : ℤ
  xferLength : ℤ
  cmd : Cmd
  scriptReady : Bool
  scriptRunning : Bool
  scriptBuf : List UInt8
  isToRunScript : Bool
  ideConnecting : Bool
  txRb : List UInt8
  fb : JpegFb

def State.init : State := ⟨0, 0, .none, false, false, [], false, false, [], JpegFb.init⟩

/-- A `uint32_t` stored in an `int`. -/
def toInt (n : ℕ) : ℤ := if n < 2147483648 then n else (n : ℤ) - 4294967296

/-- An `int` stored in a `uint32_t`. -/
def toU32 (z : ℤ) : ℕ := (z % 4294967296).toNat

/-- `usbdbg_init`; `vstr_init` leaves an empty text. -/
def usbdbgInit (s : State) : State :=
  { s with scriptReady := false, scriptRunning := false, xferBytes := 0, xferLength := 0,
           scriptBuf := [] }

/-- `usbdbg_stop_script`. -/
def usbdbgStopScript (s : State) : State :=
  { s with isToRunScript := false, scriptRunning := false, scriptReady := false }

/-! ### The terminal ring -/

def RB_LEN : ℕ := 512

/-- `serial_tx_buf_write`: `rt_ringbuffer_put_force` drops the oldest bytes when the ring is full. -/
def serialTxBufWrite (bytes : List UInt8) (s : State) : State :=
  { s with txRb := (s.txRb ++ bytes).drop ((s.txRb ++ bytes).length - RB_LEN) }

section Frame
variable (bytes : List UInt8) (s : State)

@[simp] theorem serialTxBufWrite_cmd : (serialTxBufWrite bytes s).cmd = s.cmd := by
  unfold serialTxBufWrite; rfl

@[simp] theorem serialTxBufWrite_fb : (serialTxBufWrite bytes s).fb = s.fb := by
  unfold serialTxBufWrite; rfl

@[simp] theorem serialTxBufWrite_xferBytes :
    (serialTxBufWrite bytes s).xferBytes = s.xferBytes := by
  unfold serialTxBufWrite; rfl

@[simp] theorem serialTxBufWrite_xferLength :
    (serialTxBufWrite bytes s).xferLength = s.xferLength := by
  unfold serialTxBufWrite; rfl

@[simp] theorem serialTxBufWrite_scriptReady :
    (serialTxBufWrite bytes s).scriptReady = s.scriptReady := by
  unfold serialTxBufWrite; rfl

@[simp] theorem serialTxBufWrite_scriptBuf :
    (serialTxBufWrite bytes s).scriptBuf = s.scriptBuf := by
  unfold serialTxBufWrite; rfl

end Frame

/-- `serial_tx_buf_read`: what it copies out, and the ring without it. -/
def serialTxBufRead (size : ℕ) (s : State) : List UInt8 × State :=
  (s.txRb.take size, { s with txRb := s.txRb.drop size })

/-! ### The callbacks -/

/-- The reply to `USBDBG_ARCH_STR`, as `snprintf` prints it. -/
def archStr : List UInt8 :=
  ("K210 [KD233:353832363436510F0041001E]".toList.map (fun c => UInt8.ofNat c.toNat)) ++ [0]

/-- The case `USBDBG_TX_BUF` of `usbdbg_data_in`. -/
def txBufCase (buf : List UInt8) (length : ℕ) (s : State) : List UInt8 × State :=
  let r := serialTxBufRead length s
  if r.1 = [] then (buf, { r.2 with cmd := .none })
  else
    let n := r.2.xferBytes + r.1.length
    (poke buf r.1, { r.2 with xferBytes := n, cmd := if n = r.2.xferLength then .none else r.2.cmd })

/-- The case `USBDBG_FRAME_SIZE`. -/
def frameSizeCase (buf : List UInt8) (s : State) : List UInt8 × State :=
  let s := { s with ideConnecting := false, cmd := .none }
  let r := mutexTryLock s.fb.lock MUTEX_TID_IDE
  if r.1 then
    if s.fb.size = 0 then
      (poke buf (le32 0), { s with fb := { s.fb with lock := mutexUnlock r.2 MUTEX_TID_IDE } })
    else
      (poke buf (le32 (toU32 s.fb.w) ++ le32 (toU32 s.fb.h) ++ le32 (toU32 s.fb.size)),
        { s with fb := { s.fb with lock := r.2 } })
  else (poke buf (le32 0), { s with fb := { s.fb with lock := r.2 } })

/-- The case `USBDBG_FRAME_DUMP`. -/
def frameDumpCase (buf : List UInt8) (length : ℕ) (s : State) : List UInt8 × State :=
  if s.xferBytes < s.xferLength then
    let n := s.xferBytes + length
    (poke buf (s.fb.slice s.xferBytes.toNat length),
      if n = s.xferLength then
        { s with xferBytes := n, cmd := .none,
                 fb := { s.fb with w := 0, h := 0, size := 0,
                                   lock := mutexUnlock s.fb.lock MUTEX_TID_IDE } }
      else { s with xferBytes := n })
  else (buf, s)

/-- `usbdbg_data_in(buffer, length)`: the buffer and the state after it. `sensor` is the sensor id,
    if one is detected. The case `USBDBG_SENSOR_ID` has no `break`. -/
def usbdbgDataIn (sensor : Option ℤ) (buf : List UInt8) (length : ℕ) (s : State) :
    List UInt8 × State :=
  match s.cmd with
  | .fwVersion => (poke buf (le32 3 ++ le32 8 ++ le32 0),
      { s with ideConnecting := true, txRb := [], cmd := .none })
  | .txBufLen => (poke buf (le32 s.txRb.length), { s with cmd := .none })
  | .sensorId => txBufCase (poke buf (le32 (toU32 (sensor.getD 0xFF)))) length { s with cmd := .none }
  | .txBuf => txBufCase buf length s
  | .frameSize => frameSizeCase buf s
  | .frameDump => frameDumpCase buf length s
  | .archStr => (poke buf archStr, { s with cmd := .none })
  | .scriptRunning => (poke buf (le32 (if s.scriptRunning then 1 else 0)), { s with cmd := .none })
  | _ => (buf, s)

/-- The case `USBDBG_SCRIPT_EXEC` of `usbdbg_data_out`; `vstr_add_strn` of a negative length does
    not come back. -/
def scriptExecCase (gcLocked : Bool) (buf : List UInt8) (length : ℤ) (s : State) :
    Option (List UInt8 × State) :=
  if !s.scriptRunning && !gcLocked then
    if length < 0 then none
    else
      let s := { s with scriptBuf := s.scriptBuf ++ buf.take length.toNat,
                        xferBytes := s.xferBytes + length }
      if s.xferBytes = s.xferLength then
        some (buf, { s with isToRunScript := true, scriptReady := true, scriptRunning := true })
      else some (buf, s)
  else some (buf, s)

/-- The cases `USBDBG_TEMPLATE_SAVE` and `USBDBG_DESCRIPTOR_SAVE`: the path is null terminated. -/
def saveCase (buf : List UInt8) (length : ℤ) (s : State) : Option (List UInt8 × State) :=
  let n := if length = 64 then 63 else length
  if n < 0 then none else some (buf.set n.toNat 0, s)

/-- `usbdbg_data_out(buffer, length)`. -/
def usbdbgDataOut (gcLocked : Bool) (buf : List UInt8) (length : ℕ) (s : State) :
    Option (List UInt8 × State) :=
  let length : ℤ := if s.xferLength - s.xferBytes < length then s.xferLength - s.xferBytes else length
  match s.cmd with
  | .fbEnable =>
    let enable := rd32 buf
    some (buf, { s with cmd := .none,
                        fb := { s.fb with enabled := enable,
                                          lock := if enable = 0 then mutexUnlock s.fb.lock MUTEX_TID_IDE
                                                  else s.fb.lock } })
  | .scriptExec => scriptExecCase gcLocked buf length s
  | .templateSave => saveCase buf length s
  | .descriptorSave => saveCase buf length s
  | .attrWrite => some (buf, { s with cmd := .none })
  | _ => some (buf, s)

/-- The commands for which `usbdbg_control` only starts the data phase. -/
def startXfer (cmd : Cmd) (length : ℕ) (s : State) : State :=
  { s with cmd := cmd, xferBytes := 0, xferLength := toInt length }

/-- `usbdbg_control(buffer, request, length)`. -/
def usbdbgControl (request : UInt8) (length : ℕ) (s : State) : Option State :=
  match Cmd.ofRequest request with
  | .scriptExec => some { startXfer .scriptExec length s with scriptBuf := [] }
  | .scriptStop => some { usbdbgStopScript s with cmd := .none }
  | .scriptSave => some { s with cmd := .scriptSave }
  | .attrWrite => some { s with cmd := .none }
  | .sysReset => none
  | .none => some { s with cmd := .none }
  | .attrRead => some { s with cmd := .none }
  | .fwVersion => some (startXfer .fwVersion length s)
  | .frameSize => some (startXfer .frameSize length s)
  | .frameDump => some (startXfer .frameDump length s)
  | .archStr => some (startXfer .archStr length s)
  | .scriptRunning => some (startXfer .scriptRunning length s)
  | .templateSave => some (startXfer .templateSave length s)
  | .descriptorSave => some (startXfer .descriptorSave length s)
  | .fbEnable => some (startXfer .fbEnable length s)
  | .txBuf => some (startXfer .txBuf length s)
  | .txBufLen => some (startXfer .txBufLen length s)
  | .sensorId => some (startXfer .sensorId length s)

/-! ### The link -/

def BUFFER_SIZE : ℕ := 64

/-- The six bytes of a request. -/
structure Header where
  magic : UInt8
  request : UInt8
  length : UInt32
  deriving DecidableEq

def Header.bytes (h : Header) : List UInt8 := h.magic :: h.request :: le32 h.length.toNat

/-- Where `serial_dbg_dispatch` stands: waiting for a header, or with `left` bytes of the data phase
    of a request to go. -/
inductive Phase where
  | idle
  | dataIn (request : UInt8) (left : ℕ)
  | dataOut (request : UInt8) (left : ℕ)
  deriving DecidableEq

/-- The loop condition and the test of the direction bit. -/
def Phase.loop (request : UInt8) (left : ℕ) : Phase :=
  if left = 0 then .idle else if request &&& 0x80 ≠ 0 then .dataIn request left
  else .dataOut request left

/-- The debugger's thread: its state, the static buffer `buf`, and whether a call did not return. -/
structure Link where
  dbg : State
  buf : List UInt8
  phase : Phase
  halted : Bool

def Link.init : Link := ⟨State.init, List.replicate BUFFER_SIZE 0, .idle, false⟩

/-- What can happen next: on the wire (a header, a block sent, a block received, a receive that times
    out), or in the interpreter's thread. A block received is not empty and may have any length up to
    what is left: the serial port delivers 64 bytes, the SPI port other sizes. A receive that times out
    may have stored a part of its header or block. -/
inductive Event where
  | request (h : Header)
  | dataIn (sensor : Option ℤ)
  | dataOut (chunk : List UInt8) (gcLocked : Bool)
  | timeout (received : List UInt8)
  | usbdbgInit
  | usbdbgStopScript
  | setScriptRunning (running : Bool)
  | txBufWrite (bytes : List UInt8)
  deriving DecidableEq

/-- The link after the header `h`. -/
def Link.onRequest (l : Link) (h : Header) : Link :=
  let buf := poke l.buf h.bytes
  if h.magic ≠ 0x30 then { l with buf := buf }
  else match usbdbgControl h.request h.length.toNat l.dbg with
    | none => { l with buf := buf, halted := true }
    | some s => { l with dbg := s, buf := buf, phase := .loop h.request h.length.toNat }

/-- The size of the next block. -/
def blockSize (left : ℕ) : ℕ := min left BUFFER_SIZE

/-- The link after one block sent. -/
def Link.onDataIn (l : Link) (request : UInt8) (left : ℕ) (sensor : Option ℤ) : Link :=
  let r := usbdbgDataIn sensor l.buf (blockSize left) l.dbg
  { l with dbg := r.2, buf := r.1, phase := .loop request (left - blockSize left) }

/-- The link after one block received. -/
def Link.onDataOut (l : Link) (request : UInt8) (left : ℕ) (chunk : List UInt8)
    (gcLocked : Bool) : Link :=
  match usbdbgDataOut gcLocked (poke l.buf chunk) chunk.length l.dbg with
  | none => { l with buf := poke l.buf chunk, halted := true }
  | some r => { l with dbg := r.2, buf := r.1, phase := .loop request (left - chunk.length) }

/-- The link after a receive that timed out: `serial_recv_block` has stored what came before that. -/
def Link.onTimeout (l : Link) (received : List UInt8) : Link :=
  match l.phase with
  | .idle => if received.length < 6 then { l with buf := poke l.buf received } else l
  | .dataOut _ left =>
    if received.length < blockSize left then { l with buf := poke l.buf received, phase := .idle } else l
  | .dataIn _ _ => l

/-- One event. An event the thread is not waiting for changes nothing. -/
def Link.step (l : Link) (e : Event) : Link :=
  if l.halted then l
  else match e, l.phase with
    | .request h, .idle => l.onRequest h
    | .dataIn sensor, .dataIn request left => l.onDataIn request left sensor
    | .dataOut chunk gcLocked, .dataOut request left =>
      if 0 < chunk.length ∧ chunk.length ≤ left then l.onDataOut request left chunk gcLocked else l
    | .timeout received, _ => l.onTimeout received
    | .usbdbgInit, _ => { l with dbg := Debug.usbdbgInit l.dbg }
    | .usbdbgStopScript, _ => { l with dbg := Debug.usbdbgStopScript l.dbg }
    | .setScriptRunning b, _ => { l with dbg := { l.dbg with scriptRunning := b } }
    | .txBufWrite bytes, _ => { l with dbg := serialTxBufWrite bytes l.dbg }
    | _, _ => l

@[simp] theorem Link.onTimeout_dbg (l : Link) (received : List UInt8) : (l.onTimeout received).dbg = l.dbg := by
  unfold Link.onTimeout
  split
  · split <;> rfl
  · split <;> rfl
  · rfl

theorem Link.onTimeout_phase (l : Link) (received : List UInt8) :
    (l.onTimeout received).phase = l.phase ∨ (l.onTimeout received).phase = .idle := by
  unfold Link.onTimeout
  split
  · split <;> exact Or.inl rfl
  · split
    · exact Or.inr rfl
    · exact Or.inl rfl
  · exact Or.inl rfl

/-! ### What a call can do -/

/-- All that `usbdbg_control` can do: start a data phase (emptying the script buffer first for an
    upload), stop the script, or only set `cmd`. -/
theorem control_cases {request : UInt8} {length : ℕ} {s s' : State}
    (h : usbdbgControl request length s = some s') :
    (Cmd.ofRequest request ≠ .scriptExec ∧ s' = startXfer (Cmd.ofRequest request) length s) ∨
    (Cmd.ofRequest request = .scriptExec ∧
      s' = { startXfer .scriptExec length s with scriptBuf := [] }) ∨
    (Cmd.ofRequest request = .scriptStop ∧ s' = { usbdbgStopScript s with cmd := .none }) ∨
    (Cmd.ofRequest request = .scriptSave ∧ s' = { s with cmd := .scriptSave }) ∨
    (Cmd.ofRequest request ≠ .scriptExec ∧ s' = { s with cmd := .none }) := by
  unfold usbdbgControl at h
  cases hc : Cmd.ofRequest request <;> simp only [hc, Option.some.injEq, reduceCtorEq] at h <;>
    simp [← h]

/-- The state after `usbdbg_data_out` added a block to the script. -/
def addChunk (buf : List UInt8) (length : ℤ) (s : State) : State :=
  { s with scriptBuf := s.scriptBuf ++ buf.take length.toNat, xferBytes := s.xferBytes + length }

/-- A block of an upload is dropped, or added; the script is ready when the transfer is complete. -/
theorem scriptExec_cases {gc : Bool} {buf : List UInt8} {n : ℤ} {s : State}
    {r : List UInt8 × State} (h : scriptExecCase gc buf n s = some r) :
    ((s.scriptRunning = true ∨ gc = true) ∧ r.2 = s) ∨
    (s.scriptRunning = false ∧ gc = false ∧ 0 ≤ n ∧
      ((s.xferBytes + n ≠ s.xferLength ∧ r.2 = addChunk buf n s) ∨
       (s.xferBytes + n = s.xferLength ∧
        r.2 = { addChunk buf n s with isToRunScript := true, scriptReady := true,
                                      scriptRunning := true }))) := by
  simp only [scriptExecCase] at h
  cases hr : s.scriptRunning <;> cases gc <;>
    simp only [hr, Bool.not_false, Bool.not_true, Bool.and_true, Bool.and_false, if_true,
      Bool.false_eq_true, if_false] at h
  · split at h
    · exact absurd h (by simp)
    · rename_i hn
      refine Or.inr ⟨rfl, rfl, by omega, ?_⟩
      split at h
      · rename_i hx
        exact Or.inr ⟨hx, by rw [← Option.some.inj h]; rfl⟩
      · rename_i hx
        exact Or.inl ⟨hx, by rw [← Option.some.inj h]; rw [addChunk, hr]⟩
  · exact Or.inl ⟨Or.inr rfl, by rw [← Option.some.inj h]⟩
  · exact Or.inl ⟨Or.inl rfl, by rw [← Option.some.inj h]⟩
  · exact Or.inl ⟨Or.inl rfl, by rw [← Option.some.inj h]⟩

/-- The length `usbdbg_data_out` works with. -/
def clampLength (length : ℕ) (s : State) : ℤ :=
  if s.xferLength - s.xferBytes < length then s.xferLength - s.xferBytes else length

/-- The state after the IDE set the enable flag to `enable`. -/
def setEnabled (enable : ℕ) (s : State) : State :=
  { s with cmd := .none,
           fb := { s.fb with enabled := enable,
                             lock := if enable = 0 then mutexUnlock s.fb.lock MUTEX_TID_IDE
                                     else s.fb.lock } }

/-- All that `usbdbg_data_out` can do. -/
theorem dataOut_cases {gc : Bool} {buf : List UInt8} {n : ℕ} {s : State} {r : List UInt8 × State}
    (h : usbdbgDataOut gc buf n s = some r) :
    (s.cmd = .fbEnable ∧ r.2 = setEnabled (rd32 buf) s) ∨
    (s.cmd = .scriptExec ∧ scriptExecCase gc buf (clampLength n s) s = some r) ∨
    (s.cmd ≠ .scriptExec ∧ (r.2 = s ∨ r.2 = { s with cmd := .none })) := by
  have hsave : ∀ m, saveCase buf m s = some r → r.2 = s := by
    intro m hm
    simp only [saveCase] at hm
    generalize (if m = 64 then 63 else m) = k at hm
    split at hm
    · exact absurd hm (by simp)
    · rw [← Option.some.inj hm]
  unfold usbdbgDataOut at h
  dsimp only at h
  split at h
  · rename_i hc
    exact Or.inl ⟨hc, by rw [← Option.some.inj h]; rfl⟩
  · rename_i hc
    exact Or.inr (Or.inl ⟨hc, h⟩)
  · rename_i hc
    exact Or.inr (Or.inr ⟨by rw [hc]; simp, Or.inl (hsave _ h)⟩)
  · rename_i hc
    exact Or.inr (Or.inr ⟨by rw [hc]; simp, Or.inl (hsave _ h)⟩)
  · rename_i hc
    exact Or.inr (Or.inr ⟨by rw [hc]; simp, Or.inr (by rw [← Option.some.inj h])⟩)
  · rename_i hc _ _ _
    exact Or.inr (Or.inr ⟨hc, Or.inl (by rw [← Option.some.inj h])⟩)

theorem length_dataOut {gc : Bool} {buf : List UInt8} {n : ℕ} {s : State} {r : List UInt8 × State}
    (h : usbdbgDataOut gc buf n s = some r) : r.1.length = buf.length := by
  have hsave : ∀ m, saveCase buf m s = some r → r.1.length = buf.length := by
    intro m hm
    simp only [saveCase] at hm
    generalize (if m = 64 then 63 else m) = k at hm
    split_ifs at hm
    rw [← Option.some.inj hm, List.length_set]
  have hexec : ∀ m, scriptExecCase gc buf m s = some r → r.1.length = buf.length := by
    intro m hm
    unfold scriptExecCase at hm
    dsimp only at hm
    split_ifs at hm
    all_goals rw [← Option.some.inj hm]
  unfold usbdbgDataOut at h
  dsimp only at h
  split at h
  · rw [← Option.some.inj h]
  · exact hexec _ h
  · exact hsave _ h
  · exact hsave _ h
  · rw [← Option.some.inj h]
  · rw [← Option.some.inj h]

/-! A data phase and the command it belongs to. -/

theorem loop_cases (request : UInt8) (n : ℕ) :
    (Phase.loop request n = .idle ∧ n = 0) ∨
    (Phase.loop request n = .dataIn request n ∧ 0 < n ∧ request &&& 0x80 ≠ 0) ∨
    (Phase.loop request n = .dataOut request n ∧ 0 < n ∧ request &&& 0x80 = 0) := by
  unfold Phase.loop
  by_cases hn : n = 0
  · exact Or.inl ⟨if_pos hn, hn⟩
  · rw [if_neg hn]
    by_cases hr : request &&& 0x80 = 0
    · exact Or.inr (Or.inr ⟨if_neg (not_not.mpr hr), by omega, hr⟩)
    · exact Or.inr (Or.inl ⟨if_pos hr, by omega, hr⟩)

theorem dataIn_cmd (sensor : Option ℤ) (buf : List UInt8) (n : ℕ) (s : State) :
    (usbdbgDataIn sensor buf n s).2.cmd = .none ∨ (usbdbgDataIn sensor buf n s).2.cmd = s.cmd := by
  have htx : ∀ b (t : State), (txBufCase b n t).2.cmd = .none ∨ (txBufCase b n t).2.cmd = t.cmd := by
    intro b t
    unfold txBufCase
    dsimp only
    split
    · exact Or.inl rfl
    · dsimp only
      split
      · exact Or.inl rfl
      · exact Or.inr rfl
  unfold usbdbgDataIn
  split
  · exact Or.inl rfl
  · exact Or.inl rfl
  · rcases htx (poke buf (le32 (toU32 (sensor.getD 0xFF)))) { s with cmd := .none } with h | h
    · exact Or.inl h
    · exact Or.inl h
  · exact htx buf s
  · refine Or.inl ?_
    unfold frameSizeCase
    dsimp only
    split
    · split <;> rfl
    · rfl
  · unfold frameDumpCase
    split
    · dsimp only
      split
      · exact Or.inl rfl
      · exact Or.inr rfl
    · exact Or.inr rfl
  · exact Or.inl rfl
  · exact Or.inl rfl
  · exact Or.inr rfl

theorem control_cmd {request : UInt8} {n : ℕ} {s s' : State}
    (h : usbdbgControl request n s = some s') : s'.cmd = .none ∨ s'.cmd = Cmd.ofRequest request := by
  rcases control_cases h with ⟨-, rfl⟩ | ⟨hc, rfl⟩ | ⟨-, rfl⟩ | ⟨hc, rfl⟩ | ⟨-, rfl⟩
  · exact Or.inr rfl
  · exact Or.inr hc.symm
  · exact Or.inl rfl
  · exact Or.inr hc.symm
  · exact Or.inl rfl

theorem dataOut_cmd {gc : Bool} {buf : List UInt8} {n : ℕ} {s : State} {r : List UInt8 × State}
    (h : usbdbgDataOut gc buf n s = some r) : r.2.cmd = .none ∨ r.2.cmd = s.cmd := by
  rcases dataOut_cases h with ⟨-, h⟩ | ⟨-, hx⟩ | ⟨-, h | h⟩
  · rw [h]; exact Or.inl rfl
  · rcases scriptExec_cases hx with ⟨-, h⟩ | ⟨-, -, -, h | h⟩
    · rw [h]; exact Or.inr rfl
    · rw [h.2]; exact Or.inr rfl
    · rw [h.2]; exact Or.inr rfl
  · rw [h]; exact Or.inr rfl
  · rw [h]; exact Or.inl rfl

/-- In a data phase the direction is the one of the request, and `cmd` is its command or none. -/
structure Link.CmdOk (l : Link) : Prop where
  dataIn : ∀ r left, l.phase = .dataIn r left →
    r &&& 0x80 ≠ 0 ∧ (l.dbg.cmd = .none ∨ l.dbg.cmd = Cmd.ofRequest r) ∧ 0 < left
  dataOut : ∀ r left, l.phase = .dataOut r left →
    r &&& 0x80 = 0 ∧ (l.dbg.cmd = .none ∨ l.dbg.cmd = Cmd.ofRequest r)

theorem cmdOk_idle {l : Link} (h : l.phase = .idle) : l.CmdOk :=
  ⟨fun _ _ hp => absurd (h.symm.trans hp) (by simp), fun _ _ hp => absurd (h.symm.trans hp) (by simp)⟩

theorem cmdOk_loop {l : Link} {r : UInt8} {n : ℕ} (h : l.phase = .loop r n)
    (hc : l.dbg.cmd = .none ∨ l.dbg.cmd = Cmd.ofRequest r) : l.CmdOk := by
  constructor
  · intro r' left hp
    rcases loop_cases r n with ⟨hl, -⟩ | ⟨hl, hpos, hb⟩ | ⟨hl, -⟩ <;> rw [h, hl] at hp
    · exact absurd hp (by simp)
    · obtain ⟨rfl, rfl⟩ := Phase.dataIn.inj hp
      exact ⟨hb, hc, hpos⟩
    · exact absurd hp (by simp)
  · intro r' left hp
    rcases loop_cases r n with ⟨hl, -⟩ | ⟨hl, -⟩ | ⟨hl, -, hb⟩ <;> rw [h, hl] at hp
    · exact absurd hp (by simp)
    · exact absurd hp (by simp)
    · exact (Phase.dataOut.inj hp).1 ▸ ⟨hb, hc⟩

theorem cmdOk_congr {l l' : Link} (h : l.CmdOk) (hp : l'.phase = l.phase)
    (hc : l'.dbg.cmd = l.dbg.cmd) : l'.CmdOk := by
  constructor
  · rw [hp, hc]; exact h.dataIn
  · rw [hp, hc]; exact h.dataOut

theorem cmdOk_step {l : Link} (h : l.CmdOk) (e : Event) : (l.step e).CmdOk := by
  unfold Link.step
  split
  · exact h
  split
  · rename_i hph
    unfold Link.onRequest
    dsimp only
    split
    · exact cmdOk_idle hph
    · split
      · exact cmdOk_idle hph
      · rename_i hc
        exact cmdOk_loop rfl (control_cmd hc)
  · rename_i hph
    refine cmdOk_loop rfl ?_
    rcases dataIn_cmd _ l.buf _ l.dbg with hc | hc
    · exact Or.inl hc
    · exact (h.dataIn _ _ hph).2.1.imp hc.trans hc.trans
  · split
    · rename_i hph _
      unfold Link.onDataOut
      split
      · exact cmdOk_congr h rfl rfl
      · rename_i hd
        refine cmdOk_loop rfl ?_
        rcases dataOut_cmd hd with hc | hc
        · exact Or.inl hc
        · exact (h.dataOut _ _ hph).2.imp hc.trans hc.trans
    · exact h
  · rcases l.onTimeout_phase _ with hph | hph
    · exact cmdOk_congr h hph (congrArg State.cmd (l.onTimeout_dbg _))
    · exact cmdOk_idle hph
  · exact cmdOk_congr h rfl rfl
  · exact cmdOk_congr h rfl rfl
  · exact cmdOk_congr h rfl rfl
  · exact cmdOk_congr h rfl (serialTxBufWrite_cmd _ _)
  · exact h

end OpenMV.Debug
