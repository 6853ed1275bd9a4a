import OpenMV.Schemes.Run
import OpenMV.Debug.UsbDbg

/-! Script upload | scheme:protocol | source:src/src/openmv/omv/usbdbg.c,
    src/src/openmv/omv/rt_thread_dbg.c, src/src/projects/app_k210/applications/omv_main.c

    An upload is a `SCRIPT_EXEC` header and the blocks of its data phase. A block is dropped while a
    script runs or the garbage collector is locked; then `xfer_bytes` stays behind and the script is
    not executed. What the interpreter's thread runs is the buffer, when `script_ready` says so.

    Two calls break this: the header of an upload empties the buffer even while it is ready, and
    `usbdbg_init`, called on the way back to the REPL, resets the transfer of an upload under way so
    that its next block counts as complete. In every run without them the ready buffer is the payload
    of the upload that made it ready. -/

namespace OpenMV.Debug
open Schemes

/-- An upload as the IDE sees it: the announced length, the bytes sent so far, and whether the
    garbage collector was locked for one of the blocks. -/
structure Upload where
  length : ℕ
  sent : List UInt8
  gcSeen : Bool
  deriving DecidableEq

/-- The link, the upload under way and the upload that set `script_ready` last. -/
structure Uploads where
  link : Link
  current : Upload
  readyBy : Upload

def Uploads.init : Uploads := ⟨Link.init, ⟨0, [], false⟩, ⟨0, [], false⟩⟩

/-- The upload under way after an event; a block whose call does not come back is not counted. -/
def Uploads.track (s : Uploads) (e : Event) : Upload :=
  if (s.link.step e).halted then s.current
  else match e, s.link.phase with
    | .request h, .idle =>
      if h.magic = 0x30 ∧ h.request = 0x05 then ⟨h.length.toNat, [], false⟩ else s.current
    | .dataOut chunk gc, .dataOut request left =>
      if request = 0x05 ∧ 0 < chunk.length ∧ chunk.length ≤ left then
        { s.current with sent := s.current.sent ++ chunk, gcSeen := s.current.gcSeen || gc }
      else s.current
    | _, _ => s.current

/-- A block received is what sets `script_ready`, together with `script_running`. -/
def Uploads.SetsReady (s : Uploads) : Event → Prop
  | .dataOut chunk gc => s.link.dbg.scriptRunning = false ∧
      (s.link.step (.dataOut chunk gc)).dbg.scriptRunning = true
  | _ => False

instance (s : Uploads) : ∀ e, Decidable (s.SetsReady e)
  | .dataOut _ _ => inferInstanceAs (Decidable (_ ∧ _))
  | .request _ | .dataIn _ | .timeout _ | .usbdbgInit | .usbdbgStopScript | .setScriptRunning _
  | .txBufWrite _ => .isFalse id

def Uploads.step (s : Uploads) (e : Event) : Uploads :=
  { link := s.link.step e
    current := s.track e
    readyBy := if s.SetsReady e then s.track e else s.readyBy }

def runUploads (es : List Event) : Uploads := Schemes.run Uploads.step Uploads.init es

/-- The ready buffer is the whole payload of the upload that made it ready, and the garbage collector
    was never locked during that upload. -/
def ReadyIntact (s : Uploads) : Prop :=
  s.link.dbg.scriptReady = true → s.link.dbg.scriptBuf = s.readyBy.sent ∧
    s.readyBy.sent.length = s.readyBy.length ∧ s.readyBy.gcSeen = false

/-- In every state of the run the ready buffer is intact, and no event that leaves it ready changes
    it. -/
def UploadsIntact (es : List Event) : Prop :=
  (∀ pre, pre <+: es → ReadyIntact (runUploads pre)) ∧
  ∀ pre e, pre ++ [e] <+: es → (runUploads pre).link.dbg.scriptReady = true →
    (runUploads (pre ++ [e])).link.dbg.scriptReady = true →
    (runUploads (pre ++ [e])).link.dbg.scriptBuf = (runUploads pre).link.dbg.scriptBuf

/-- An upload is under way. -/
def Phase.uploading : Phase → Bool
  | .dataOut r _ => r == 0x05
  | _ => false

/-- No upload starts while a script is ready, and `usbdbg_init` does not run during an upload. -/
def KeepsUpload (s : Uploads) : Event → Prop
  | .request h => h.magic = 0x30 → s.link.phase = .idle → h.request = 0x05 →
      s.link.dbg.scriptReady = false
  | .usbdbgInit => s.link.phase.uploading = false
  | _ => True

instance (s : Uploads) : ∀ e, Decidable (KeepsUpload s e)
  | .request h => inferInstanceAs (Decidable (h.magic = 0x30 → s.link.phase = .idle →
      h.request = 0x05 → s.link.dbg.scriptReady = false))
  | .usbdbgInit => inferInstanceAs (Decidable (s.link.phase.uploading = false))
  | .dataIn _ | .dataOut _ _ | .timeout _ | .usbdbgStopScript | .setScriptRunning _
  | .txBufWrite _ => .isTrue trivial

/-! ### What the calls do to the script -/

/-- `usbdbg_data_in` does not touch the script. -/
theorem dataIn_script (sensor : Option ℤ) (buf : List UInt8) (n : ℕ) (s : State) :
    (usbdbgDataIn sensor buf n s).2.scriptReady = s.scriptReady ∧
    (usbdbgDataIn sensor buf n s).2.scriptBuf = s.scriptBuf := by
  have htx : ∀ b (t : State), (txBufCase b n t).2.scriptReady = t.scriptReady ∧
      (txBufCase b n t).2.scriptBuf = t.scriptBuf := by
    intro b t
    unfold txBufCase
    dsimp only
    split <;> exact ⟨rfl, rfl⟩
  unfold usbdbgDataIn
  split
  · exact ⟨rfl, rfl⟩
  · exact ⟨rfl, rfl⟩
  · exact htx _ _
  · exact htx _ _
  · unfold frameSizeCase
    dsimp only
    split
    · split <;> exact ⟨rfl, rfl⟩
    · exact ⟨rfl, rfl⟩
  · unfold frameDumpCase
    split
    · dsimp only
      split <;> exact ⟨rfl, rfl⟩
    · exact ⟨rfl, rfl⟩
  · exact ⟨rfl, rfl⟩
  · exact ⟨rfl, rfl⟩
  · exact ⟨rfl, rfl⟩

/-! ### The invariant -/

/-- During an upload: the blocks not yet received are what is left of the announced length, and the
    buffer holds all blocks so far, or is behind for good. -/
structure Uploading (s : Uploads) (left : ℕ) : Prop where
  cmd : s.link.dbg.cmd = .scriptExec
  notReady : s.link.dbg.scriptReady = false
  total : s.current.sent.length + left = s.current.length
  bound : s.current.length < 4294967296
  xferLength : s.link.dbg.xferLength = toInt s.current.length
  xferBytes : s.link.dbg.xferBytes = s.link.dbg.scriptBuf.length
  buffer : (s.link.dbg.scriptBuf = s.current.sent ∧ s.current.gcSeen = false) ∨
    s.link.dbg.scriptBuf.length < s.current.sent.length

structure UpInv (s : Uploads) : Prop where
  cmd : s.link.CmdOk
  ready : ReadyIntact s
  uploading : ∀ left, s.link.phase = .dataOut 0x05 left → Uploading s left

theorem upInv_init : UpInv Uploads.init where
  cmd := cmdOk_idle rfl
  ready := by intro h; exact absurd h (by simp [Uploads.init, Link.init, State.init])
  uploading := by intro left h; exact absurd h (by simp [Uploads.init, Link.init])

/-- An event that changes neither the buffer nor the transfer of an upload under way. -/
theorem UpInv.quiet {s : Uploads} {e : Event} {l : Link} (h : UpInv s) (hlink : s.link.step e = l)
    (hcur : s.track e = s.current) (hset : ¬ s.SetsReady e)
    (hready : l.dbg.scriptReady = true → s.link.dbg.scriptReady = true)
    (hbuf : l.dbg.scriptBuf = s.link.dbg.scriptBuf)
    (hph : ∀ left, l.phase = .dataOut 0x05 left → s.link.phase = .dataOut 0x05 left ∧
      l.dbg.cmd = s.link.dbg.cmd ∧ l.dbg.xferLength = s.link.dbg.xferLength ∧
      l.dbg.xferBytes = s.link.dbg.xferBytes) : UpInv (s.step e) := by
  have heq : s.step e = ⟨l, s.current, s.readyBy⟩ := by
    rw [Uploads.step, hlink, hcur, if_neg hset]
  rw [heq]
  refine ⟨by rw [← hlink]; exact cmdOk_step h.cmd e, ?_, ?_⟩
  · intro hr
    dsimp only at hr ⊢
    rw [hbuf]; exact h.ready (hready hr)
  · intro left hp
    obtain ⟨hp', hcmd, hl, hb⟩ := hph left hp
    have hu := h.uploading left hp'
    refine ⟨hcmd.trans hu.cmd, ?_, hu.total, hu.bound, hl.trans hu.xferLength, ?_, ?_⟩
    · cases hr : l.dbg.scriptReady with
      | false => rfl
      | true => exact absurd (hready hr) (by rw [hu.notReady]; simp)
    · dsimp only; rw [hb, hbuf]; exact hu.xferBytes
    · dsimp only; rw [hbuf]; exact hu.buffer

theorem loop_dataOut {r r' : UInt8} {n left : ℕ} (h : Phase.loop r n = .dataOut r' left) :
    r' = r ∧ left = n := by
  rcases loop_cases r n with ⟨hl, -⟩ | ⟨hl, -⟩ | ⟨hl, -⟩ <;> rw [hl] at h
  · exact absurd h (by simp)
  · exact absurd h (by simp)
  · exact ⟨(Phase.dataOut.inj h).1.symm, (Phase.dataOut.inj h).2.symm⟩

/-! ### A header -/

theorem upInv_request {s : Uploads} (h : UpInv s) {hd : Header} (hl : s.link.halted = false)
    (hph : s.link.phase = .idle) (hc : KeepsUpload s (.request hd)) : UpInv (s.step (.request hd)) := by
  have hstep : s.link.step (.request hd) = s.link.onRequest hd := by simp [Link.step, hl, hph]
  have hidle : ∀ left, s.link.phase ≠ .dataOut 0x05 left := by simp [hph]
  have hcur : ¬ (hd.magic = 0x30 ∧ hd.request = 0x05) → s.track (.request hd) = s.current := by
    intro hne
    simp [Uploads.track, hph, hne]
  unfold Link.onRequest at hstep
  dsimp only at hstep
  by_cases hm : hd.magic = 0x30
  swap
  · rw [if_pos hm] at hstep
    exact h.quiet hstep (hcur (fun hx => hm hx.1)) id id rfl (fun left hp => absurd hp (hidle left))
  rw [if_neg (not_not.mpr hm)] at hstep
  cases hctl : usbdbgControl hd.request hd.length.toNat s.link.dbg with
  | none =>
    rw [hctl] at hstep
    have htrack : s.track (.request hd) = s.current := by simp [Uploads.track, hstep]
    exact h.quiet hstep htrack id id rfl (fun left hp => absurd hp (hidle left))
  | some t =>
    rw [hctl] at hstep
    -- a header that starts no upload leaves the buffer alone, and its data phase is not an upload
    have hother : hd.request ≠ 0x05 → t.scriptBuf = s.link.dbg.scriptBuf →
        (t.scriptReady = true → s.link.dbg.scriptReady = true) → UpInv (s.step (.request hd)) := by
      intro hne hbuf hready
      refine h.quiet hstep (hcur (fun hx => hne hx.2)) id hready hbuf ?_
      intro left hp
      exact absurd (loop_dataOut hp).1.symm hne
    have hne : Cmd.ofRequest hd.request ≠ .scriptExec → hd.request ≠ 0x05 := by
      intro hx heq; rw [heq] at hx; exact hx rfl
    rcases control_cases hctl with ⟨hx, rfl⟩ | ⟨hx, rfl⟩ | ⟨hx, rfl⟩ | ⟨hx, rfl⟩ | ⟨hx, rfl⟩
    · exact hother (hne hx) rfl id
    · -- the upload begins
      have hr : hd.request = 0x05 := Cmd.code_ofRequest hx (by simp)
      have hnot : s.link.dbg.scriptReady = false := hc hm hph hr
      have htrack : s.track (.request hd) = ⟨hd.length.toNat, [], false⟩ := by
        simp [Uploads.track, hstep, hl, hph, hm, hr]
      refine ⟨by rw [Uploads.step]; exact cmdOk_step h.cmd _, ?_, ?_⟩
      · intro hready
        simp only [Uploads.step, hstep, startXfer] at hready
        exact absurd hready (by rw [hnot]; simp)
      · intro left hp
        simp only [Uploads.step, hstep] at hp
        obtain ⟨-, rfl⟩ := loop_dataOut hp
        simp only [Uploads.step, hstep, htrack]
        exact ⟨rfl, hnot, by simp, hd.length.toNat_lt, rfl, rfl, Or.inl ⟨rfl, rfl⟩⟩
    · exact hother (hne (by rw [hx]; simp)) rfl (fun hr => absurd hr (by simp [usbdbgStopScript]))
    · exact hother (hne (by rw [hx]; simp)) rfl id
    · exact hother (hne hx) rfl id

/-! ### A block received -/

theorem toInt_cases {n : ℕ} (h : n < 4294967296) : (toInt n = n ∧ n < 2147483648) ∨ toInt n < 0 := by
  unfold toInt
  split <;> omega

/-- A block that is not dropped is added as a whole. -/
theorem Uploading.clamp {s : Uploads} {left : ℕ} (hu : Uploading s left) {n : ℕ} (hn : n ≤ left)
    (h0 : 0 ≤ clampLength n s.link.dbg) :
    clampLength n s.link.dbg = n ∧ s.link.dbg.xferLength = s.current.length := by
  have htot := hu.total
  have hb := hu.xferBytes
  have hle : s.link.dbg.scriptBuf.length ≤ s.current.sent.length := by
    rcases hu.buffer with ⟨h, -⟩ | h
    · rw [h]
    · exact le_of_lt h
  rcases toInt_cases hu.bound with ⟨hx, -⟩ | hx <;> rw [← hu.xferLength] at hx
  · refine ⟨if_neg ?_, hx⟩
    rw [hx, hb]; omega
  · unfold clampLength at h0
    split at h0 <;> omega

/-! The three ways a block of an upload can go. `t` is the state after the block, `u` the upload with
    the block counted in. -/

section Chunk
variable {s : Uploads} {chunk : List UInt8} {gc : Bool} {left : ℕ} {t : State} {buf : List UInt8}

/-- The link after a block of an upload. -/
def Link.afterChunk (l : Link) (t : State) (buf : List UInt8) (left : ℕ) : Link :=
  { l with dbg := t, buf := buf, phase := .loop 0x05 left }

theorem Uploading.total_after (hu : Uploading s left) (hch : chunk.length ≤ left) {left' : ℕ}
    (hp : Phase.loop 0x05 (left - chunk.length) = .dataOut 0x05 left') :
    (s.current.sent ++ chunk).length + left' = s.current.length := by
  have htot := hu.total
  rw [(loop_dataOut hp).2, List.length_append]; omega

theorem upInv_dropped (hu : Uploading s left) (hch : 0 < chunk.length ∧ chunk.length ≤ left)
    (hok : (s.link.afterChunk s.link.dbg buf (left - chunk.length)).CmdOk) :
    UpInv ⟨s.link.afterChunk s.link.dbg buf (left - chunk.length),
      ⟨s.current.length, s.current.sent ++ chunk, s.current.gcSeen || gc⟩, s.readyBy⟩ := by
  refine ⟨hok, fun hr => absurd (hu.notReady.symm.trans hr) (by simp), fun left' hp => ?_⟩
  refine ⟨hu.cmd, hu.notReady, hu.total_after hch.2 hp, hu.bound, hu.xferLength, hu.xferBytes,
    Or.inr ?_⟩
  simp only [Link.afterChunk, List.length_append]
  rcases hu.buffer with ⟨hb, -⟩ | hb
  · rw [hb]; omega
  · omega

theorem upInv_added (hu : Uploading s left) (hch : chunk.length ≤ left)
    (ht : t.scriptReady = false ∧ t.cmd = .scriptExec ∧ t.xferLength = s.link.dbg.xferLength ∧
      t.xferBytes = s.link.dbg.xferBytes + chunk.length ∧
      t.scriptBuf = s.link.dbg.scriptBuf ++ chunk)
    (hok : (s.link.afterChunk t buf (left - chunk.length)).CmdOk) :
    UpInv ⟨s.link.afterChunk t buf (left - chunk.length),
      ⟨s.current.length, s.current.sent ++ chunk, s.current.gcSeen || false⟩, s.readyBy⟩ := by
  obtain ⟨hready, hcmd, hxl, hxb, hbuf⟩ := ht
  refine ⟨hok, fun hr => absurd (hready.symm.trans hr) (by simp), fun left' hp => ?_⟩
  refine ⟨hcmd, hready, hu.total_after hch hp, hu.bound, hxl.trans hu.xferLength, ?_, ?_⟩
  · simp only [Link.afterChunk]
    rw [hxb, hbuf, List.length_append, hu.xferBytes]; push_cast; rfl
  · simp only [Link.afterChunk, hbuf]
    rcases hu.buffer with ⟨hb, hg⟩ | hb
    · exact Or.inl ⟨by rw [hb], by rw [hg]; rfl⟩
    · exact Or.inr (by simp only [List.length_append]; omega)

/-- The last block: nothing is missing, and no block is left. -/
theorem upInv_complete (hu : Uploading s left) (hch : chunk.length ≤ left)
    (hdone : s.link.dbg.xferBytes + chunk.length = s.current.length)
    (hbuf : t.scriptBuf = s.link.dbg.scriptBuf ++ chunk)
    (hok : (s.link.afterChunk t buf (left - chunk.length)).CmdOk) :
    UpInv ⟨s.link.afterChunk t buf (left - chunk.length),
      ⟨s.current.length, s.current.sent ++ chunk, s.current.gcSeen || false⟩,
      ⟨s.current.length, s.current.sent ++ chunk, s.current.gcSeen || false⟩⟩ := by
  have htot := hu.total
  have hbytes := hu.xferBytes
  have hsent : s.link.dbg.scriptBuf = s.current.sent ∧ s.current.gcSeen = false := by
    rcases hu.buffer with hb | hb
    · exact hb
    · omega
  have hlen := congrArg List.length hsent.1
  refine ⟨hok, fun _ => ⟨?_, ?_, by rw [hsent.2]; rfl⟩, fun left' hp => ?_⟩
  · simp only [Link.afterChunk, hbuf, hsent.1]
  · simp only [List.length_append]; omega
  · rcases loop_cases 0x05 (left - chunk.length) with ⟨hi, -⟩ | ⟨-, hpos, -⟩ | ⟨-, hpos, -⟩
    · exact absurd (hi.symm.trans hp) (by simp)
    · omega
    · omega

end Chunk

theorem upInv_chunk {s : Uploads} (h : UpInv s) {chunk : List UInt8} {gc : Bool} {left : ℕ}
    {p : List UInt8 × State} (hl : s.link.halted = false) (hph : s.link.phase = .dataOut 0x05 left)
    (hch : 0 < chunk.length ∧ chunk.length ≤ left)
    (hstep : s.link.step (.dataOut chunk gc) = s.link.afterChunk p.2 p.1 (left - chunk.length))
    (hcase : scriptExecCase gc (poke s.link.buf chunk) (clampLength chunk.length s.link.dbg)
      s.link.dbg = some p) : UpInv (s.step (.dataOut chunk gc)) := by
  have hu := h.uploading left hph
  have hok : (s.link.afterChunk p.2 p.1 (left - chunk.length)).CmdOk := by
    rw [← hstep]; exact cmdOk_step h.cmd _
  have htrack : s.track (.dataOut chunk gc) =
      ⟨s.current.length, s.current.sent ++ chunk, s.current.gcSeen || gc⟩ := by
    simp [Uploads.track, hstep, Link.afterChunk, hl, hph, hch]
  have hset : s.SetsReady (.dataOut chunk gc) ↔
      s.link.dbg.scriptRunning = false ∧ p.2.scriptRunning = true := by
    rw [Uploads.SetsReady, hstep]; rfl
  rw [Uploads.step, hstep, htrack]
  rcases scriptExec_cases hcase with ⟨-, hp⟩ | ⟨hrun, rfl, h0, hadd⟩
  · rw [if_neg, hp]
    · rw [hp] at hok
      exact upInv_dropped hu hch hok
    · rw [hset, hp]
      rintro ⟨h1, h2⟩
      exact absurd (h1.symm.trans h2) (by simp)
  obtain ⟨hn, hxl⟩ := hu.clamp hch.2 h0
  rw [hn] at hadd
  have hbuf : (addChunk (poke s.link.buf chunk) chunk.length s.link.dbg).scriptBuf =
      s.link.dbg.scriptBuf ++ chunk := by
    simp only [addChunk, Int.toNat_natCast, take_poke (le_refl _), List.take_length]
  rcases hadd with ⟨-, hp⟩ | ⟨hdone, hp⟩
  · rw [if_neg]
    · exact upInv_added hu hch.2 (by rw [hp]; exact ⟨hu.notReady, hu.cmd, rfl, rfl, hbuf⟩) hok
    · rw [hset, hp]
      rintro ⟨h1, h2⟩
      exact absurd (h1.symm.trans h2) (by simp)
  · rw [if_pos (hset.mpr ⟨hrun, by rw [hp]⟩)]
    exact upInv_complete hu hch.2 (hdone.trans hxl) (by rw [hp]; exact hbuf) hok

theorem upInv_dataOut {s : Uploads} (h : UpInv s) {chunk : List UInt8} {gc : Bool} {r : UInt8}
    {left : ℕ} (hl : s.link.halted = false) (hph : s.link.phase = .dataOut r left)
    (hch : 0 < chunk.length ∧ chunk.length ≤ left) : UpInv (s.step (.dataOut chunk gc)) := by
  have hstep : s.link.step (.dataOut chunk gc) = s.link.onDataOut r left chunk gc := by
    simp [Link.step, hl, hph, hch]
  unfold Link.onDataOut at hstep
  cases hout : usbdbgDataOut gc (poke s.link.buf chunk) chunk.length s.link.dbg with
  | none =>
    rw [hout] at hstep
    have htrack : s.track (.dataOut chunk gc) = s.current := by simp [Uploads.track, hstep]
    refine h.quiet hstep htrack ?_ id rfl (fun left hp => ⟨hp, rfl, rfl, rfl⟩)
    simp only [Uploads.SetsReady, hstep]
    rintro ⟨h1, h2⟩
    rw [h1] at h2; exact absurd h2 (by simp)
  | some p =>
    rw [hout] at hstep
    dsimp only at hstep
    -- a block of another request
    have hother : r ≠ 0x05 → p.2.scriptRunning = s.link.dbg.scriptRunning →
        p.2.scriptBuf = s.link.dbg.scriptBuf → p.2.scriptReady = s.link.dbg.scriptReady →
        UpInv (s.step (.dataOut chunk gc)) := by
      intro hne hrun hbuf hready
      refine h.quiet hstep (by simp [Uploads.track, hph, hne]) ?_ (fun hr => hready ▸ hr) hbuf ?_
      · simp only [Uploads.SetsReady, hstep, hrun]
        rintro ⟨h1, h2⟩
        rw [h1] at h2; exact absurd h2 (by simp)
      · intro left' hp
        exact absurd (loop_dataOut hp).1.symm hne
    have hne : s.link.dbg.cmd ≠ .scriptExec → r ≠ 0x05 := by
      rintro hx rfl
      exact hx (h.uploading left hph).cmd
    rcases dataOut_cases hout with ⟨hx, hp⟩ | ⟨hx, hcase⟩ | ⟨hx, hp | hp⟩
    · exact hother (hne (by rw [hx]; simp)) (by rw [hp]; rfl) (by rw [hp]; rfl) (by rw [hp]; rfl)
    · have hr : r = 0x05 := by
        rcases (h.cmd.dataOut r left hph).2 with hc | hc
        · exact absurd (hx.symm.trans hc) (by simp)
        · exact Cmd.code_ofRequest (hc.symm.trans hx) (by simp)
      subst hr
      exact upInv_chunk h hl hph hch hstep hcase
    · exact hother (hne hx) (by rw [hp]) (by rw [hp]) (by rw [hp])
    · exact hother (hne hx) (by rw [hp]) (by rw [hp]) (by rw [hp])

/-! ### Runs -/

/-- An event the thread is not waiting for. -/
theorem UpInv.stutter {s : Uploads} {e : Event} (h : UpInv s) (hstep : s.link.step e = s.link)
    (hcur : s.track e = s.current) : UpInv (s.step e) := by
  refine h.quiet hstep hcur ?_ id rfl (fun left hp => ⟨hp, rfl, rfl, rfl⟩)
  cases e <;> simp [Uploads.SetsReady, hstep]

theorem upInv_timeout {s : Uploads} (h : UpInv s) (hl : s.link.halted = false) (received : List UInt8) :
    UpInv (s.step (.timeout received)) := by
  have hstep : s.link.step (.timeout received) = s.link.onTimeout received := by simp [Link.step, hl]
  have hdbg := s.link.onTimeout_dbg received
  refine h.quiet hstep (by simp [Uploads.track]) id (fun hr => hdbg ▸ hr) (by rw [hdbg]) ?_
  intro left hp
  rcases s.link.onTimeout_phase received with hph | hph
  · exact ⟨hph.symm.trans hp, congrArg State.cmd hdbg, congrArg State.xferLength hdbg,
      congrArg State.xferBytes hdbg⟩
  · exact absurd (hph.symm.trans hp) (by simp)

theorem upInv_step {s : Uploads} (h : UpInv s) {e : Event} (hc : KeepsUpload s e) :
    UpInv (s.step e) := by
  cases hl : s.link.halted with
  | true =>
    have hstep : s.link.step e = s.link := by simp [Link.step, hl]
    exact h.stutter hstep (by simp [Uploads.track, hstep, hl])
  | false =>
    cases e with
    | request hd =>
      cases hph : s.link.phase with
      | idle => exact upInv_request h hl hph hc
      | dataIn r left => exact h.stutter (by simp [Link.step, hl, hph]) (by simp [Uploads.track, hph])
      | dataOut r left => exact h.stutter (by simp [Link.step, hl, hph]) (by simp [Uploads.track, hph])
    | dataIn sensor =>
      cases hph : s.link.phase with
      | idle => exact h.stutter (by simp [Link.step, hl, hph]) (by simp [Uploads.track])
      | dataOut r left => exact h.stutter (by simp [Link.step, hl, hph]) (by simp [Uploads.track])
      | dataIn r left =>
        have hstep : s.link.step (.dataIn sensor) = s.link.onDataIn r left sensor := by
          simp [Link.step, hl, hph]
        obtain ⟨hready, hbuf⟩ := dataIn_script sensor s.link.buf (blockSize left) s.link.dbg
        refine h.quiet hstep (by simp [Uploads.track]) id (fun hr => hready ▸ hr) hbuf ?_
        intro left' hp
        have hr := (loop_dataOut hp).1
        have hbit := (h.cmd.dataIn r left hph).1
        rw [← hr] at hbit; exact absurd hbit (by decide)
    | dataOut chunk gc =>
      cases hph : s.link.phase with
      | idle => exact h.stutter (by simp [Link.step, hl, hph]) (by simp [Uploads.track, hph])
      | dataIn r left => exact h.stutter (by simp [Link.step, hl, hph]) (by simp [Uploads.track, hph])
      | dataOut r left =>
        by_cases hch : 0 < chunk.length ∧ chunk.length ≤ left
        · exact upInv_dataOut h hl hph hch
        · exact h.stutter (by simp [Link.step, hl, hph, hch]) (by simp [Uploads.track, hph, hch])
    | timeout received => exact upInv_timeout h hl received
    | usbdbgInit =>
      have hstep : s.link.step .usbdbgInit = { s.link with dbg := usbdbgInit s.link.dbg } := by
        simp [Link.step, hl]
      -- the buffer is emptied with `script_ready`, and no upload is under way
      have heq : s.step .usbdbgInit =
          ⟨{ s.link with dbg := usbdbgInit s.link.dbg }, s.current, s.readyBy⟩ := by
        rw [Uploads.step, hstep, if_neg (show ¬ s.SetsReady .usbdbgInit from id)]
        simp [Uploads.track]
      rw [heq]
      refine ⟨cmdOk_congr h.cmd rfl rfl, fun hr => absurd hr (by simp [usbdbgInit]), ?_⟩
      intro left hp
      have hc' : s.link.phase.uploading = false := hc
      exact absurd hc' (by rw [show s.link.phase = .dataOut 0x05 left from hp]; simp [Phase.uploading])
    | usbdbgStopScript =>
      have hstep : s.link.step .usbdbgStopScript =
          { s.link with dbg := usbdbgStopScript s.link.dbg } := by simp [Link.step, hl]
      exact h.quiet hstep (by simp [Uploads.track]) id
        (fun hr => absurd hr (by simp [usbdbgStopScript])) rfl (fun left hp => ⟨hp, rfl, rfl, rfl⟩)
    | setScriptRunning b =>
      have hstep : s.link.step (.setScriptRunning b) =
          { s.link with dbg := { s.link.dbg with scriptRunning := b } } := by simp [Link.step, hl]
      exact h.quiet hstep (by simp [Uploads.track]) id id rfl (fun left hp => ⟨hp, rfl, rfl, rfl⟩)
    | txBufWrite bytes =>
      have hstep : s.link.step (.txBufWrite bytes) =
          { s.link with dbg := serialTxBufWrite bytes s.link.dbg } := by simp [Link.step, hl]
      exact h.quiet hstep (by simp [Uploads.track]) id
        (fun hr => (serialTxBufWrite_scriptReady bytes _).symm.trans hr)
        (serialTxBufWrite_scriptBuf bytes _)
        (fun left hp => ⟨hp, serialTxBufWrite_cmd _ _, serialTxBufWrite_xferLength _ _,
          serialTxBufWrite_xferBytes _ _⟩)

theorem upInv_run {es : List Event} (h : StepsMeet Uploads.step KeepsUpload Uploads.init es) :
    UpInv (runUploads es) := by
  unfold runUploads
  exact run_inv UpInv (fun _ _ hi hc => upInv_step hi hc) upInv_init h

/-- Only a block of an upload makes the script ready. -/
theorem uploading_of_setsReady {s : Uploads} (h : UpInv s) {e : Event} (hs : s.SetsReady e) :
    ∃ left, s.link.phase = .dataOut 0x05 left := by
  cases e with
  | dataOut chunk gc =>
    obtain ⟨hrun, hrun'⟩ := hs
    have hsame : ∀ b : Bool, b = s.link.dbg.scriptRunning → b ≠ true := by
      rintro b rfl; rw [hrun]; simp
    unfold Link.step at hrun'
    split at hrun'
    · exact absurd hrun' (hsame _ rfl)
    cases hph : s.link.phase with
    | idle => simp only [hph] at hrun'; exact absurd hrun' (hsame _ rfl)
    | dataIn r left => simp only [hph] at hrun'; exact absurd hrun' (hsame _ rfl)
    | dataOut r left =>
      simp only [hph] at hrun'
      split at hrun'
      · unfold Link.onDataOut at hrun'
        split at hrun'
        · exact absurd hrun' (hsame _ rfl)
        · rename_i hout
          rcases dataOut_cases hout with ⟨-, hp⟩ | ⟨hx, -⟩ | ⟨-, hp | hp⟩
          · rw [hp] at hrun'; exact absurd hrun' (hsame _ rfl)
          · rcases (h.cmd.dataOut r left hph).2 with hc | hc
            · exact absurd (hx.symm.trans hc) (by simp)
            · exact ⟨left, by rw [Cmd.code_ofRequest (hc.symm.trans hx) (by simp)]; rfl⟩
          · rw [hp] at hrun'; exact absurd hrun' (hsame _ rfl)
          · rw [hp] at hrun'; exact absurd hrun' (hsame _ rfl)
      · exact absurd hrun' (hsame _ rfl)
  | request _ | dataIn _ | timeout _ | usbdbgInit | usbdbgStopScript | setScriptRunning _
  | txBufWrite _ => exact absurd hs id

/-- While the script stays ready, no event of such a run changes the buffer. -/
theorem buffer_kept {s : Uploads} (h : UpInv s) {e : Event} (hc : KeepsUpload s e)
    (hr : s.link.dbg.scriptReady = true) (hr' : (s.step e).link.dbg.scriptReady = true) :
    (s.step e).link.dbg.scriptBuf = s.link.dbg.scriptBuf := by
  have hset : ¬ s.SetsReady e := by
    intro hs
    obtain ⟨left, hph⟩ := uploading_of_setsReady h hs
    exact absurd ((h.uploading left hph).notReady.symm.trans hr) (by simp)
  rw [((upInv_step h hc).ready hr').1, (h.ready hr).1, Uploads.step, if_neg hset]

/-- Runs in which no upload starts while a script is ready and `usbdbg_init` interrupts none: the
    ready buffer is always the complete payload of the upload that made it ready. -/
theorem script_upload_intact (es : List Event)
    (h : StepsMeet Uploads.step KeepsUpload Uploads.init es) : UploadsIntact es := by
  refine ⟨fun pre hpre => (upInv_run (h.of_initial hpre)).ready, ?_⟩
  intro pre e hpre hr hr'
  have hmeet := h.of_initial hpre
  rw [stepsMeet_concat] at hmeet
  rw [runUploads, run_concat] at hr' ⊢
  exact buffer_kept (upInv_run hmeet.1) hmeet.2 hr hr'

/-- Two uploads, the second after the first script was stopped; its first block meets a locked
    garbage collector, so that it never becomes ready. -/
def twoUploads : List Event :=
  [.request ⟨0x30, 0x05, 3⟩, .dataOut [97, 98] false, .dataOut [99] false, .usbdbgStopScript,
    .request ⟨0x30, 0x05, 2⟩, .dataOut [100] true, .dataOut [101] false]

theorem script_upload_intact_two :
    (runUploads (twoUploads.take 3)).link.dbg.scriptReady = true ∧ UploadsIntact twoUploads ∧
    (runUploads twoUploads).link.dbg.scriptReady = false :=
  ⟨by decide, script_upload_intact _ (by decide), by decide⟩

/-- The header of a second upload empties the buffer while the first script is ready; and after
    `usbdbg_init` in the middle of an upload the next block makes an empty buffer ready. -/
theorem script_upload_emptied :
    ¬ UploadsIntact [.request ⟨0x30, 0x05, 1⟩, .dataOut [97] false, .request ⟨0x30, 0x05, 1⟩] ∧
    ¬ UploadsIntact [.request ⟨0x30, 0x05, 2⟩, .usbdbgInit, .dataOut [97] false] := by
  constructor
  · rintro ⟨h, -⟩
    have hr := h _ (List.prefix_refl _) (by decide)
    exact absurd hr.1 (by decide)
  · rintro ⟨h, -⟩
    have hr := h _ (List.prefix_refl _) (by decide)
    exact absurd hr.1 (by decide)

end OpenMV.Debug
