import OpenMV.Schemes.Run
import OpenMV.Debug.UsbDbg

/-! IDE preview | scheme:protocol | source:src/src/openmv/omv/usbdbg.c,
    src/src/openmv/omv/framebuffer.c, src/src/openmv/omv/rt_thread_dbg.c

    Two parties share the JPEG framebuffer. The interpreter's thread (OMV) runs
    `fb_update_jpeg_buffer`: check the flags, try the lock, write, unlock. The debugger's thread
    answers the IDE, which first asks for the frame size and, when the reply is not empty, dumps the
    frame. A schedule is any list of steps of the two, one memory write or one callback at a time:

        OMV:  check ── lock ── w ── h ── size ── p₀ ── p₁ ── … ── unlock
        IDE:  request ── data_in ── request ── data_in ── data_in ── …

    The lock belongs to the side that writes or dumps; while the IDE has a nonempty reply in hand the
    lock is its own until the last block of the dump. -/

namespace OpenMV.Debug
open Schemes

/-! ### The two parties -/

/-- Where the interpreter's thread stands in `fb_update_jpeg_buffer`. -/
inductive Omv where
  | idle
  | checked (j : Job)
  | writing (j : Job) (rest : List Write)

/-- The three words of a reply to `USBDBG_FRAME_SIZE`. -/
structure Words where
  w : ℕ
  h : ℕ
  size : ℕ
  deriving DecidableEq

/-- The system. `await` is what the IDE has in hand: a reply whose first word is not zero, and the
    bytes dumped since. `dumps` lists its complete dumps, `stored` the frames of the updates that
    stored one. -/
structure Sys where
  link : Link
  omv : Omv
  overflowCount : ℕ
  stored : List Frame
  await : Option (Words × List UInt8)
  dumps : List (Words × List UInt8)

def Sys.init : Sys := ⟨Link.init, .idle, 0, [], none, []⟩

/-- The framebuffer the two share. -/
abbrev Sys.fb (s : Sys) : JpegFb := s.link.dbg.fb

def Sys.setFb (s : Sys) (fb : JpegFb) : Sys :=
  { s with link := { s.link with dbg := { s.link.dbg with fb := fb } } }

/-- A step of one of the two: an event of the debugger's thread, a call of `fb_update_jpeg_buffer`,
    or the next step of the call under way. -/
inductive Action where
  | ide (e : Event)
  | update (j : Job)
  | omv

/-- The three words at the start of the buffer. -/
def wordsOf (buf : List UInt8) : Words := ⟨rd32 buf, rd32 (buf.drop 4), rd32 (buf.drop 8)⟩

/-- What the IDE makes of a block it is sent: the reply to a size request, or the next part of the
    dump it is waiting for. -/
def Sys.onBlock (s : Sys) (cmd : Cmd) (request : UInt8) (left : ℕ) : Sys :=
  if cmd = .frameSize then
    { s with await := if (wordsOf s.link.buf).w ≠ 0 then some (wordsOf s.link.buf, []) else none }
  else match s.await with
    | some (words, got) =>
      if request = 0x82 then
        let got := got ++ s.link.buf.take (blockSize left)
        if s.link.phase = .idle then { s with await := none, dumps := s.dumps ++ [(words, got)] }
        else { s with await := some (words, got) }
      else s
    | none => s

/-- A step of the debugger's thread, with what the IDE sees of it. -/
def Sys.ideStep (s : Sys) (e : Event) : Sys :=
  let s' := { s with link := s.link.step e }
  if s.link.halted then s'
  else match e, s.link.phase with
    | .dataIn _, .dataIn request left => s'.onBlock s.link.dbg.cmd request left
    | _, _ => s'

/-- `fb_update_jpeg_buffer` step by step. -/
def Sys.omvStep (s : Sys) : Sys :=
  match s.omv with
  | .idle => s
  | .checked j =>
    let r := mutexTryLock s.fb.lock MUTEX_TID_OMV
    let s' := s.setFb { s.fb with lock := r.2 }
    if r.1 then
      { s' with omv := .writing j (updateWrites j s.fb.quality s.overflowCount),
                overflowCount := if 3 < j.bpp then s.overflowCount
                                 else (nextQuality j s.fb.quality s.overflowCount).2 }
    else { s' with omv := .idle }
  | .writing j (x :: rest) => { s.setFb (x.apply s.fb) with omv := .writing j rest }
  | .writing j [] =>
    { s.setFb { s.fb with lock := mutexUnlock s.fb.lock MUTEX_TID_OMV } with
      omv := .idle, stored := s.stored ++ j.frame.toList }

def Sys.step (s : Sys) : Action → Sys
  | .ide e => s.ideStep e
  | .update j => match s.omv with
    | .idle => if j.streamingEnabled ∧ s.fb.enabled ≠ 0 ∧ 0 ≤ j.bpp then { s with omv := .checked j } else s
    | _ => s
  | .omv => s.omvStep

/-- The schedules considered: an IDE that has a nonempty reply in hand sends no request but the dump
    of that size, and `usbdbg_init` (the return to the REPL) is not part of the exchange. -/
def Disciplined (s : Sys) : Action → Prop
  | .ide (.request h) => h.magic = 0x30 → s.link.phase = .idle →
      ∀ p ∈ s.await, h.request = 0x82 ∧ h.length.toNat = p.1.size
  | .ide .usbdbgInit => False
  | _ => True

instance (s : Sys) : ∀ a, Decidable (Disciplined s a)
  | .ide (.request h) => inferInstanceAs (Decidable (h.magic = 0x30 → s.link.phase = .idle →
      ∀ p ∈ s.await, h.request = 0x82 ∧ h.length.toNat = p.1.size))
  | .ide .usbdbgInit => .isFalse id
  | .ide (.dataIn _) | .ide (.dataOut _ _) | .ide (.timeout _) | .ide .usbdbgStopScript
  | .ide (.setScriptRunning _) | .ide (.txBufWrite _) | .update _ | .omv => .isTrue trivial

/-! ### What an update leaves behind -/

/-- The buffer holds the frame: its header, and its bytes from the first on. -/
structure Holds (fb : JpegFb) (f : Frame) : Prop where
  w : fb.w = f.w
  h : fb.h = f.h
  size : fb.size = f.bytes.length
  bytes : fb.slice 0 f.bytes.length = f.bytes
  fits : f.bytes.length ≤ CONSERVATIVE_JPEG_BUF_SIZE

/-- The buffer shows no frame, or one that a single update stored. -/
def Settled (stored : List Frame) (fb : JpegFb) : Prop :=
  toU32 fb.w = 0 ∨ fb.size = 0 ∨ ∃ f ∈ stored, Holds fb f

/-- What the update of `j` leaves: an empty header, or its frame. -/
def Final (j : Job) (fb : JpegFb) : Prop :=
  toU32 fb.w = 0 ∨ ∃ f, j.frame = some f ∧ Holds fb f

def applyAll (ws : List Write) (fb : JpegFb) : JpegFb := ws.foldl Write.apply fb

/-- The writes of the header come as a whole, and after the first of them no other starts. -/
def Shaped (ws : List Write) : Prop :=
  (∀ v, .w v ∉ ws) ∨ ∃ pre w h size post, ws = pre ++ .w w :: .h h :: .size size :: post ∧
    (∀ v, .w v ∉ pre) ∧ ∀ v, .w v ∉ post

theorem applyAll_append (ws ws' : List Write) (fb : JpegFb) :
    applyAll (ws ++ ws') fb = applyAll ws' (applyAll ws fb) := List.foldl_append

theorem Shaped.tail {x : Write} {ws : List Write} (h : Shaped (x :: ws)) : Shaped ws := by
  rcases h with h | ⟨pre, w, hh, size, post, heq, hpre, hpost⟩
  · exact Or.inl (fun v hv => h v (List.mem_cons_of_mem _ hv))
  · cases pre with
    | nil =>
      obtain ⟨-, rfl⟩ := List.cons.inj heq
      exact Or.inl (fun v hv => by simp_all)
    | cons p pre =>
      obtain ⟨-, rfl⟩ := List.cons.inj heq
      exact Or.inr ⟨pre, w, hh, size, post, rfl, fun v hv => hpre v (List.mem_cons_of_mem _ hv), hpost⟩

theorem mem_pixelWrites {x : Write} {bytes : List UInt8} (h : x ∈ pixelWrites bytes) :
    ∃ i b, x = .pixel i b := by
  obtain ⟨y, -, rfl⟩ := List.mem_map.mp h
  exact ⟨_, _, rfl⟩

theorem w_notMem_pixelWrites (v : ℤ) (bytes : List UInt8) : .w v ∉ pixelWrites bytes := by
  intro h
  obtain ⟨i, b, hx⟩ := mem_pixelWrites h
  exact absurd hx (by simp)

theorem shaped_updateWrites (j : Job) (q : ℤ) (c : ℕ) : Shaped (updateWrites j q c) := by
  unfold updateWrites
  split
  · split
    · exact Or.inr ⟨[], 0, 0, 0, [], rfl, by simp, by simp⟩
    · exact Or.inr ⟨[], j.w, j.h, j.bpp, pixelWrites j.pixels, rfl, by simp,
        fun v => w_notMem_pixelWrites v _⟩
  · refine Or.inr ⟨pixelWrites j.compressed ++ [.quality (nextQuality j q c).1],
      if j.overflow then 0 else j.w, if j.overflow then 0 else j.h,
      if j.overflow then 0 else j.compressed.length, [], ?_, ?_, by simp⟩
    · cases j.overflow <;> simp [headerWrites]
    · intro v hv
      rcases List.mem_append.mp hv with hv | hv
      · exact w_notMem_pixelWrites v _ hv
      · simp at hv

/-! Storing bytes one by one. -/

theorem applyAll_pixelWrites_from (bytes : List UInt8) (k : ℕ) (fb : JpegFb) :
    applyAll ((bytes.zipIdx k).map (fun x => .pixel x.2 x.1)) fb =
      { fb with pixels := fun i => if k ≤ i then (bytes[i - k]?).getD (fb.pixels i) else fb.pixels i } := by
  induction bytes generalizing k fb with
  | nil => simp [applyAll]
  | cons b bytes ih =>
    rw [List.zipIdx_cons, List.map_cons, applyAll, List.foldl_cons]
    refine (ih (k + 1) _).trans ?_
    simp only [Write.apply, JpegFb.mk.injEq, true_and]
    funext i
    rcases Nat.lt_trichotomy i k with hi | rfl | hi
    · rw [if_neg (by omega), if_neg (by omega), Function.update_of_ne (by omega)]
    · rw [if_neg (by omega), if_pos (le_refl _), Function.update_self]
      simp
    · rw [if_pos (by omega), if_pos (by omega), Function.update_of_ne (by omega)]
      rw [show i - k = (i - (k + 1)) + 1 by omega, List.getElem?_cons_succ]

theorem applyAll_pixelWrites (bytes : List UInt8) (fb : JpegFb) :
    applyAll (pixelWrites bytes) fb =
      { fb with pixels := fun i => (bytes[i]?).getD (fb.pixels i) } := by
  have h := applyAll_pixelWrites_from bytes 0 fb
  simpa [pixelWrites] using h

theorem slice_stored (bytes : List UInt8) (fb : JpegFb) (old : ℕ → UInt8)
    (h : fb.pixels = fun i => (bytes[i]?).getD (old i)) : fb.slice 0 bytes.length = bytes := by
  refine List.ext_getElem (by simp [JpegFb.slice]) (fun i h1 h2 => ?_)
  simp [JpegFb.slice, h, h2]

/-- An update that is left alone stores its frame, or an empty header. -/
theorem final_updateWrites (j : Job) (q : ℤ) (c : ℕ) (fb : JpegFb) :
    Final j (applyAll (updateWrites j q c) fb) := by
  unfold updateWrites Final Job.frame
  split
  · rename_i hbpp
    split
    · exact Or.inl rfl
    · rename_i hfit
      refine Or.inr ⟨_, rfl, ?_⟩
      rw [applyAll_append, applyAll_pixelWrites]
      have hlen := j.src hbpp
      exact ⟨rfl, rfl, hlen.symm, slice_stored _ _ _ rfl, by simp only; omega⟩
  · rw [applyAll_append, applyAll_pixelWrites]
    cases hov : j.overflow with
    | true => exact Or.inl rfl
    | false =>
      refine Or.inr ⟨⟨j.w, j.h, j.compressed⟩, by simp, ?_⟩
      exact ⟨rfl, rfl, rfl, slice_stored _ _ _ rfl, le_of_lt (j.fits hov)⟩

/-! ### What the debugger's thread does to the buffer -/

/-- All it can do: it never writes pixels, it keeps the header or clears it, and it moves the lock
    only by its own calls. -/
structure Touches (fb fb' : JpegFb) : Prop where
  pixels : fb'.pixels = fb.pixels
  header : (fb'.w = fb.w ∧ fb'.h = fb.h ∧ fb'.size = fb.size) ∨
    (fb'.w = 0 ∧ fb'.h = 0 ∧ fb'.size = 0)
  lock : fb'.lock = fb.lock ∨ fb'.lock = mutexUnlock fb.lock MUTEX_TID_IDE ∨
    fb'.lock = (mutexTryLock fb.lock MUTEX_TID_IDE).2 ∨
    fb'.lock = mutexUnlock (mutexTryLock fb.lock MUTEX_TID_IDE).2 MUTEX_TID_IDE

theorem Touches.refl (fb : JpegFb) : Touches fb fb :=
  ⟨rfl, Or.inl ⟨rfl, rfl, rfl⟩, Or.inl rfl⟩

theorem txBufCase_fb (buf : List UInt8) (n : ℕ) (s : State) : (txBufCase buf n s).2.fb = s.fb := by
  unfold txBufCase
  dsimp only
  split <;> rfl

theorem touches_frameSizeCase (buf : List UInt8) (s : State) :
    Touches s.fb (frameSizeCase buf s).2.fb := by
  unfold frameSizeCase
  dsimp only
  split
  · split
    · exact ⟨rfl, Or.inl ⟨rfl, rfl, rfl⟩, Or.inr (Or.inr (Or.inr rfl))⟩
    · exact ⟨rfl, Or.inl ⟨rfl, rfl, rfl⟩, Or.inr (Or.inr (Or.inl rfl))⟩
  · exact ⟨rfl, Or.inl ⟨rfl, rfl, rfl⟩, Or.inr (Or.inr (Or.inl rfl))⟩

theorem touches_dataIn (sensor : Option ℤ) (buf : List UInt8) (n : ℕ) (s : State) :
    Touches s.fb (usbdbgDataIn sensor buf n s).2.fb := by
  unfold usbdbgDataIn
  split
  · exact Touches.refl _
  · exact Touches.refl _
  · rw [txBufCase_fb]; exact Touches.refl _
  · rw [txBufCase_fb]; exact Touches.refl _
  · exact touches_frameSizeCase buf s
  · unfold frameDumpCase
    split
    · dsimp only
      split
      · exact ⟨rfl, Or.inr ⟨rfl, rfl, rfl⟩, Or.inr (Or.inl rfl)⟩
      · exact Touches.refl _
    · exact Touches.refl _
  · exact Touches.refl _
  · exact Touches.refl _
  · exact Touches.refl _

theorem touches_dataOut {gc : Bool} {buf : List UInt8} {n : ℕ} {s : State}
    {r : List UInt8 × State} (h : usbdbgDataOut gc buf n s = some r) : Touches s.fb r.2.fb := by
  rcases dataOut_cases h with ⟨-, h⟩ | ⟨-, hx⟩ | ⟨-, h | h⟩
  · rw [h]
    refine ⟨rfl, Or.inl ⟨rfl, rfl, rfl⟩, ?_⟩
    simp only [setEnabled]
    split
    · exact Or.inr (Or.inl rfl)
    · exact Or.inl rfl
  · rcases scriptExec_cases hx with ⟨-, h⟩ | ⟨-, -, -, h | h⟩
    · rw [h]; exact Touches.refl _
    · rw [h.2]; exact Touches.refl _
    · rw [h.2]; exact Touches.refl _
  · rw [h]; exact Touches.refl _
  · rw [h]; exact Touches.refl _

theorem control_fb {request : UInt8} {n : ℕ} {s s' : State}
    (h : usbdbgControl request n s = some s') : s'.fb = s.fb := by
  rcases control_cases h with ⟨-, rfl⟩ | ⟨-, rfl⟩ | ⟨-, rfl⟩ | ⟨-, rfl⟩ | ⟨-, rfl⟩ <;> rfl

theorem touches_link (l : Link) (e : Event) : Touches l.dbg.fb (l.step e).dbg.fb := by
  unfold Link.step
  split
  · exact Touches.refl _
  split
  · unfold Link.onRequest
    dsimp only
    split
    · exact Touches.refl _
    · split
      · exact Touches.refl _
      · rename_i hc
        rw [control_fb hc]; exact Touches.refl _
  · exact touches_dataIn _ _ _ _
  · split
    · unfold Link.onDataOut
      split
      · exact Touches.refl _
      · rename_i hd
        exact touches_dataOut hd
    · exact Touches.refl _
  · rw [l.onTimeout_dbg]; exact Touches.refl _
  · exact Touches.refl _
  · exact Touches.refl _
  · exact Touches.refl _
  · rw [serialTxBufWrite_fb]; exact Touches.refl _
  · exact Touches.refl _

/-! ### A clearing debugger does not tear a frame -/

/-- Two buffers that differ at most in what an update does not write. -/
structure Agree (fb fb' : JpegFb) : Prop where
  w : fb'.w = fb.w
  h : fb'.h = fb.h
  size : fb'.size = fb.size
  pixels : fb'.pixels = fb.pixels

theorem Agree.apply {fb fb' : JpegFb} (h : Agree fb fb') (x : Write) :
    Agree (x.apply fb) (x.apply fb') := by
  obtain ⟨h1, h2, h3, h4⟩ := h
  cases x <;> constructor <;> simp_all [Write.apply]

theorem Agree.applyAll {fb fb' : JpegFb} (h : Agree fb fb') (ws : List Write) :
    Agree (Debug.applyAll ws fb) (Debug.applyAll ws fb') := by
  induction ws generalizing fb fb' with
  | nil => exact h
  | cons x ws ih => exact ih (h.apply x)

theorem Agree.slice {fb fb' : JpegFb} (h : Agree fb fb') (i n : ℕ) : fb'.slice i n = fb.slice i n := by
  rw [JpegFb.slice, JpegFb.slice, h.pixels]

theorem Agree.holds {fb fb' : JpegFb} {f : Frame} (h : Agree fb fb') (hf : Holds fb f) :
    Holds fb' f :=
  ⟨h.w.trans hf.w, h.h.trans hf.h, h.size.trans hf.size, by rw [h.slice]; exact hf.bytes, hf.fits⟩

theorem Agree.final {fb fb' : JpegFb} {j : Job} (h : Agree fb fb') (hf : Final j fb) :
    Final j fb' := by
  rcases hf with hf | ⟨f, hj, hf⟩
  · exact Or.inl (by rw [h.w]; exact hf)
  · exact Or.inr ⟨f, hj, h.holds hf⟩

theorem Agree.settled {fb fb' : JpegFb} {st : List Frame} (h : Agree fb fb') (hf : Settled st fb) :
    Settled st fb' := by
  rcases hf with hf | hf | ⟨f, hj, hf⟩
  · exact Or.inl (by rw [h.w]; exact hf)
  · exact Or.inr (Or.inl (by rw [h.size]; exact hf))
  · exact Or.inr (Or.inr ⟨f, hj, h.holds hf⟩)

theorem pixels_applyAll {fb fb' : JpegFb} (h : fb'.pixels = fb.pixels) (ws : List Write) :
    (applyAll ws fb').pixels = (applyAll ws fb).pixels := by
  induction ws generalizing fb fb' with
  | nil => exact h
  | cons x ws ih =>
    refine ih ?_
    cases x <;> simp [Write.apply, h]

theorem w_applyAll {ws : List Write} (h : ∀ v, .w v ∉ ws) (fb : JpegFb) :
    (applyAll ws fb).w = fb.w := by
  induction ws generalizing fb with
  | nil => rfl
  | cons x ws ih =>
    refine (ih (fun v hv => h v (List.mem_cons_of_mem _ hv)) _).trans ?_
    cases x with
    | w v => exact absurd (List.mem_cons_self) (h v)
    | h v | size v | quality v | pixel i b => rfl

/-- Clearing the header in the middle of an update is either undone by the rest of the update or
    leaves the header empty. -/
theorem Touches.final {fb fb' : JpegFb} {j : Job} {rest : List Write} (ht : Touches fb fb')
    (hs : Shaped rest) (hf : Final j (applyAll rest fb)) : Final j (applyAll rest fb') := by
  rcases ht.header with ⟨h1, h2, h3⟩ | ⟨h1, -, -⟩
  · exact (Agree.applyAll ⟨h1, h2, h3, ht.pixels⟩ rest).final hf
  rcases hs with hs | ⟨pre, w, h, size, post, rfl, -, -⟩
  · refine Or.inl ?_
    rw [w_applyAll hs, h1]; rfl
  · refine Agree.final ?_ hf
    rw [applyAll_append, applyAll_append]
    have hp := pixels_applyAll ht.pixels pre
    have hh : Agree (applyAll (headerWrites w h size) (applyAll pre fb))
        (applyAll (headerWrites w h size) (applyAll pre fb')) := ⟨rfl, rfl, rfl, hp⟩
    exact hh.applyAll post

/-! ### The invariant -/

def Omv.Writing : Omv → Prop
  | .writing _ _ => True
  | _ => False

/-- The reply is in hand and no dump has begun. -/
def Link.Ready (l : Link) (got : List UInt8) : Prop :=
  got = [] ∧ (l.phase = .idle ∨
    ∃ r left, l.phase = .dataIn r left ∧ l.dbg.cmd = .none ∧ r ≠ 0x82 ∧ r &&& 0x80 ≠ 0)

/-- The dump is under way: `got` is the first part of the frame and `left` bytes are to come. -/
def Link.Dumping (l : Link) (words : Words) (got : List UInt8) : Prop :=
  ∃ left, l.phase = .dataIn 0x82 left ∧ 0 < left ∧ l.dbg.cmd = .frameDump ∧
    l.dbg.xferLength = words.size ∧ l.dbg.xferBytes = got.length ∧
    got.length + left = words.size ∧ got = l.dbg.fb.slice 0 got.length

/-- What holds while the IDE has a nonempty reply in hand. -/
structure Awaiting (l : Link) (stored : List Frame) (words : Words) (got : List UInt8) : Prop where
  lock : l.dbg.fb.lock = ⟨1, MUTEX_TID_IDE⟩
  frame : ∃ f ∈ stored, Holds l.dbg.fb f ∧ 0 < f.bytes.length ∧
    words = ⟨toU32 f.w, toU32 f.h, f.bytes.length⟩
  phase : l.Ready got ∨ l.Dumping words got

structure Inv (s : Sys) : Prop where
  lock : (s.omv.Writing ∧ s.fb.lock = ⟨1, MUTEX_TID_OMV⟩) ∨
    (¬ s.omv.Writing ∧ (s.fb.lock = ⟨0, 0⟩ ∨ s.fb.lock = ⟨1, MUTEX_TID_IDE⟩))
  settled : ¬ s.omv.Writing → Settled s.stored s.fb
  writing : ∀ j rest, s.omv = .writing j rest → Shaped rest ∧ Final j (applyAll rest s.fb)
  cmd : s.link.CmdOk
  host : ∀ words got, s.await = some (words, got) → Awaiting s.link s.stored words got
  dumps : ∀ d ∈ s.dumps, ∃ f ∈ s.stored, d = (⟨toU32 f.w, toU32 f.h, f.bytes.length⟩, f.bytes)

theorem inv_init : Inv Sys.init where
  lock := Or.inr ⟨id, Or.inl rfl⟩
  settled := fun _ => Or.inl rfl
  writing := by intro j rest h; exact absurd h (by simp [Sys.init])
  cmd := cmdOk_idle rfl
  host := by intro words got h; exact absurd h (by simp [Sys.init])
  dumps := by intro d hd; exact absurd hd (by simp [Sys.init])

theorem Touches.lock_omv {fb fb' : JpegFb} (ht : Touches fb fb')
    (h : fb.lock = ⟨1, MUTEX_TID_OMV⟩) : fb'.lock = ⟨1, MUTEX_TID_OMV⟩ := by
  rcases ht.lock with hl | hl | hl | hl <;> rw [hl, h] <;> rfl

theorem Touches.lock_ide {fb fb' : JpegFb} (ht : Touches fb fb')
    (h : fb.lock = ⟨0, 0⟩ ∨ fb.lock = ⟨1, MUTEX_TID_IDE⟩) :
    fb'.lock = ⟨0, 0⟩ ∨ fb'.lock = ⟨1, MUTEX_TID_IDE⟩ := by
  rcases h with h | h <;> rcases ht.lock with hl | hl | hl | hl <;> rw [hl, h] <;> decide

theorem Touches.settled {fb fb' : JpegFb} {st : List Frame} (ht : Touches fb fb')
    (h : Settled st fb) : Settled st fb' := by
  rcases ht.header with ⟨h1, h2, h3⟩ | ⟨h1, -, -⟩
  · exact Agree.settled ⟨h1, h2, h3, ht.pixels⟩ h
  · exact Or.inl (by rw [h1]; rfl)

theorem slice_append (fb : JpegFb) (a n : ℕ) : fb.slice 0 a ++ fb.slice a n = fb.slice 0 (a + n) := by
  simp [JpegFb.slice, List.range_add, List.map_append, Function.comp_def]

/-! ### Steps of the IDE -/

/-- The part of the link the exchange depends on. -/
structure SameXfer (l l' : Link) : Prop where
  fb : l'.dbg.fb = l.dbg.fb
  cmd : l'.dbg.cmd = l.dbg.cmd
  xferBytes : l'.dbg.xferBytes = l.dbg.xferBytes
  xferLength : l'.dbg.xferLength = l.dbg.xferLength
  phase : l'.phase = l.phase

theorem SameXfer.refl (l : Link) : SameXfer l l := ⟨rfl, rfl, rfl, rfl, rfl⟩

theorem Awaiting.same {l l' : Link} {st : List Frame} {words : Words} {got : List UInt8}
    (h : Awaiting l st words got) (hs : SameXfer l l') : Awaiting l' st words got := by
  obtain ⟨h1, h2, h3, h4, h5⟩ := hs
  refine ⟨by rw [h1]; exact h.lock, by rw [h1]; exact h.frame, ?_⟩
  simpa only [Link.Ready, Link.Dumping, h1, h2, h3, h4, h5] using h.phase

theorem Awaiting.phase_ne {l : Link} {st : List Frame} {words : Words} {got : List UInt8}
    (h : Awaiting l st words got) (r : UInt8) (n : ℕ) : l.phase ≠ .dataOut r n := by
  intro hp
  rcases h.phase with ⟨-, h | ⟨r, left, h, -⟩⟩ | ⟨left, h, -⟩ <;> exact absurd (hp.symm.trans h) (by simp)

/-- The debugger's thread is not waiting for a block of data. -/
theorem same_onTimeout {l : Link} {st : List Frame} {words : Words} {got : List UInt8}
    (h : Awaiting l st words got) (received : List UInt8) : SameXfer l (l.onTimeout received) := by
  have hdbg := l.onTimeout_dbg received
  refine ⟨congrArg State.fb hdbg, congrArg State.cmd hdbg, congrArg State.xferBytes hdbg,
    congrArg State.xferLength hdbg, ?_⟩
  unfold Link.onTimeout
  split
  · split <;> rfl
  · rename_i hp; exact absurd hp (h.phase_ne _ _)
  · rfl

/-- With a reply in hand, an event that moves no block and starts no request changes nothing that
    matters. -/
theorem same_of_quiet {l : Link} {st : List Frame} {words : Words} {got : List UInt8}
    (h : Awaiting l st words got) {e : Event} (hr : ∀ hd, e ≠ .request hd)
    (hd : ∀ sensor, e ≠ .dataIn sensor) (hi : e ≠ .usbdbgInit) : SameXfer l (l.step e) := by
  unfold Link.step
  split
  · exact SameXfer.refl _
  split
  · exact absurd rfl (hr _)
  · exact absurd rfl (hd _)
  · rename_i hp; exact absurd hp (h.phase_ne _ _)
  · exact same_onTimeout h _
  · exact absurd rfl hi
  · exact ⟨rfl, rfl, rfl, rfl, rfl⟩
  · exact ⟨rfl, rfl, rfl, rfl, rfl⟩
  · exact ⟨serialTxBufWrite_fb _ _, serialTxBufWrite_cmd _ _, serialTxBufWrite_xferBytes _ _,
      serialTxBufWrite_xferLength _ _, rfl⟩
  · exact SameXfer.refl _

theorem toInt_of_le {n : ℕ} (h : n ≤ CONSERVATIVE_JPEG_BUF_SIZE) : toInt n = n := by
  have hb : CONSERVATIVE_JPEG_BUF_SIZE = 32704 := rfl
  rw [toInt, if_pos (by omega)]

theorem toU32_natCast {n : ℕ} (h : n ≤ CONSERVATIVE_JPEG_BUF_SIZE) : toU32 (n : ℤ) = n := by
  have hb : CONSERVATIVE_JPEG_BUF_SIZE = 32704 := rfl
  rw [toU32]
  omega

/-- The dump request starts the dump. -/
theorem awaiting_request {l : Link} {st : List Frame} {words : Words} {got : List UInt8}
    (h : Awaiting l st words got) {hd : Header} (hph : l.phase = .idle)
    (hreq : hd.magic = 0x30 → hd.request = 0x82 ∧ hd.length.toNat = words.size) :
    Awaiting (l.onRequest hd) st words got := by
  unfold Link.onRequest
  dsimp only
  split
  · exact h.same ⟨rfl, rfl, rfl, rfl, rfl⟩
  · rename_i hm
    obtain ⟨hr, hlen⟩ := hreq (not_not.mp hm)
    obtain ⟨f, hf, hholds, hpos, hw⟩ := h.frame
    have hsize : words.size = f.bytes.length := by rw [hw]
    have hctl : usbdbgControl hd.request hd.length.toNat l.dbg =
        some (startXfer .frameDump words.size l.dbg) := by rw [hr, hlen]; rfl
    rw [hctl]
    have hgot : got = [] := by
      rcases h.phase with h | ⟨left, hp, -⟩
      · exact h.1
      · exact absurd (hph.symm.trans hp) (by simp)
    refine ⟨h.lock, h.frame, Or.inr ⟨words.size, ?_, by omega, rfl, ?_, by rw [hgot]; rfl,
      by rw [hgot, List.length_nil, Nat.zero_add], by rw [hgot]; rfl⟩⟩
    · simp only [hr, hlen, Phase.loop]
      rw [if_neg (by omega), if_pos (by decide)]
    · simp only [startXfer, hsize]
      exact toInt_of_le hholds.fits

theorem loop_sending {r : UInt8} (hr : r &&& 0x80 ≠ 0) (n : ℕ) :
    Phase.loop r n = .idle ∨ Phase.loop r n = .dataIn r n := by
  rcases loop_cases r n with ⟨h, -⟩ | ⟨h, -⟩ | ⟨-, -, hb⟩
  · exact Or.inl h
  · exact Or.inr h
  · exact absurd hb hr

theorem dataIn_none {sensor : Option ℤ} {buf : List UInt8} {n : ℕ} {s : State} (h : s.cmd = .none) :
    usbdbgDataIn sensor buf n s = (buf, s) := by
  unfold usbdbgDataIn; rw [h]

/-- The rest of the reply to the size request. -/
theorem awaiting_ready_block {l : Link} {st : List Frame} {words : Words} {got : List UInt8}
    (h : Awaiting l st words got) {r : UInt8} {left : ℕ} (hph : l.phase = .dataIn r left)
    (hr : r ≠ 0x82) (sensor : Option ℤ) : Awaiting (l.onDataIn r left sensor) st words got := by
  rcases h.phase with ⟨hgot, hidle | ⟨r', left', hp, hc, -, hbit⟩⟩ | ⟨left', hp, -⟩
  · exact absurd (hph.symm.trans hidle) (by simp)
  · refine ⟨?_, ?_, Or.inl ⟨hgot, ?_⟩⟩
    · simp only [Link.onDataIn, dataIn_none hc]; exact h.lock
    · simp only [Link.onDataIn, dataIn_none hc]; exact h.frame
    · simp only [Link.onDataIn, dataIn_none hc]
      rw [hph, Phase.dataIn.injEq] at hp
      obtain ⟨rfl, rfl⟩ := hp
      rcases loop_sending hbit (left - blockSize left) with hl | hl
      · exact Or.inl hl
      · exact Or.inr ⟨_, _, hl, hc, hr, hbit⟩
  · rw [hph, Phase.dataIn.injEq] at hp
    exact absurd hp.1 hr

theorem onDataIn_dump {l : Link} {words : Words} {got : List UInt8} (h : l.Dumping words got)
    {r : UInt8} {left : ℕ} (hph : l.phase = .dataIn r left) (sensor : Option ℤ) :
    let l' := l.onDataIn r left sensor
    l'.buf.take (blockSize left) = l.dbg.fb.slice got.length (blockSize left) ∧
    got ++ l'.buf.take (blockSize left) = l.dbg.fb.slice 0 (got.length + blockSize left) ∧
    ((blockSize left = left ∧ l'.phase = .idle ∧ l'.dbg.fb.lock = mutexUnlock l.dbg.fb.lock MUTEX_TID_IDE ∧
        l'.dbg.fb.size = 0) ∨
      (blockSize left < left ∧ l'.dbg.fb = l.dbg.fb ∧
        l'.Dumping words (got ++ l'.buf.take (blockSize left)))) := by
  obtain ⟨left', hp, hpos, hcmd, hlen, hbytes, hsum, hgot⟩ := h
  rw [hph, Phase.dataIn.injEq] at hp
  obtain ⟨rfl, rfl⟩ := hp
  have hn : blockSize left ≤ left := Nat.min_le_left _ _
  have hn0 : 0 < blockSize left := by
    have : blockSize left = min left 64 := rfl
    omega
  generalize hnn : blockSize left = n at *
  have hlt : l.dbg.xferBytes < l.dbg.xferLength := by omega
  have hslice : ∀ k, (l.dbg.fb.slice k n).length = n := by intro k; simp [JpegFb.slice]
  have htake : (poke l.buf (l.dbg.fb.slice got.length n)).take n = l.dbg.fb.slice got.length n := by
    rw [take_poke (by rw [hslice]), List.take_of_length_le (by rw [hslice])]
  have hk : l.dbg.xferBytes.toNat = got.length := by rw [hbytes]; rfl
  have hcat : got ++ l.dbg.fb.slice got.length n = l.dbg.fb.slice 0 (got.length + n) := by
    rw [← slice_append, ← hgot]
  simp only [Link.onDataIn, usbdbgDataIn, hcmd, frameDumpCase, hnn, if_pos hlt, hk]
  refine ⟨htake, by rw [htake, hcat], ?_⟩
  by_cases hend : n = left
  · left
    have heq : l.dbg.xferBytes + (n : ℤ) = l.dbg.xferLength := by omega
    rw [if_pos heq]
    refine ⟨hend, ?_, rfl, rfl⟩
    rw [hend, Nat.sub_self]; rfl
  · right
    have hne : ¬ l.dbg.xferBytes + (n : ℤ) = l.dbg.xferLength := by omega
    rw [if_neg hne]
    refine ⟨by omega, rfl, left - n, ?_, by omega, rfl, hlen, ?_, ?_, ?_⟩
    · simp only [Phase.loop]
      rw [if_neg (by omega), if_pos (by decide)]
    · rw [htake, List.length_append, hslice, hbytes]; push_cast; rfl
    · rw [htake, List.length_append, hslice]; omega
    · rw [htake, List.length_append, hslice, hcat]

theorem toU32_lt (z : ℤ) : toU32 z % 4294967296 = toU32 z := by
  unfold toU32
  omega

theorem wordsOf_reply (buf : List UInt8) (a b c : ℤ) :
    wordsOf (poke buf (le32 (toU32 a) ++ le32 (toU32 b) ++ le32 (toU32 c))) =
      ⟨toU32 a, toU32 b, toU32 c⟩ := by
  have h4 : ∀ n (x : List UInt8), (le32 n ++ x).drop 4 = x := fun _ _ => rfl
  have h8 : ∀ m n (x : List UInt8), (le32 m ++ (le32 n ++ x)).drop 8 = x := fun _ _ _ => rfl
  unfold wordsOf poke
  simp only [List.append_assoc, h4, h8, rd32_le32_append, toU32_lt]

theorem tryLock_taken {m : Mutex} {tid : ℕ} (h : (mutexTryLock m tid).1 = true) :
    m.lock = 0 ∧ (mutexTryLock m tid).2 = ⟨1, tid⟩ := by
  unfold mutexTryLock at h ⊢
  split at h
  · exact absurd h (by simp)
  · rename_i h1
    split at h
    · rename_i h2
      rw [if_neg h1, if_pos h2]; exact ⟨h2, rfl⟩
    · exact absurd h (by simp)

/-- A nonempty reply to the size request: the IDE has the lock, and the buffer shows the frame. -/
theorem awaiting_frameSize {l : Link} {st : List Frame} {r : UInt8} {left : ℕ} {sensor : Option ℤ}
    (hok : l.CmdOk) (hph : l.phase = .dataIn r left) (hcmd : l.dbg.cmd = .frameSize)
    (hlock : l.dbg.fb.lock ≠ ⟨1, MUTEX_TID_OMV⟩ → Settled st l.dbg.fb)
    (hw : (wordsOf (l.onDataIn r left sensor).buf).w ≠ 0) :
    Awaiting (l.onDataIn r left sensor) st (wordsOf (l.onDataIn r left sensor).buf) [] := by
  have hempty : ∀ b : List UInt8, (wordsOf (poke b (le32 0))).w = 0 := by
    intro b; rw [wordsOf, poke, rd32_le32_append]
  obtain ⟨hbit, hc, -⟩ := hok.dataIn _ _ hph
  have hr : r ≠ 0x82 := by
    rintro rfl
    rcases hc with hc | hc <;> rw [hcmd] at hc <;> exact absurd hc (by decide)
  simp only [Link.onDataIn, usbdbgDataIn, hcmd, frameSizeCase] at hw ⊢
  cases htry : (mutexTryLock l.dbg.fb.lock MUTEX_TID_IDE).1 with
  | false =>
    simp only [htry, Bool.false_eq_true, if_false] at hw
    exact absurd (hempty _) hw
  | true =>
    simp only [htry, if_true] at hw ⊢
    by_cases hsz : l.dbg.fb.size = 0
    · rw [if_pos hsz] at hw
      exact absurd (hempty _) hw
    rw [if_neg hsz] at hw ⊢
    rw [wordsOf_reply] at hw ⊢
    obtain ⟨hl, htaken⟩ := tryLock_taken htry
    have hset : Settled st l.dbg.fb := hlock (fun h => by rw [h] at hl; exact absurd hl (by decide))
    rcases hset with h0 | h0 | ⟨f, hf, hholds⟩
    · exact absurd h0 hw
    · exact absurd h0 hsz
    have hpos : 0 < f.bytes.length := by
      have := hholds.size
      omega
    refine ⟨htaken, ⟨f, hf, ⟨hholds.w, hholds.h, hholds.size, hholds.bytes, hholds.fits⟩, hpos, ?_⟩,
      Or.inl ⟨rfl, ?_⟩⟩
    · rw [hholds.w, hholds.h, hholds.size, toU32_natCast hholds.fits]
    · rcases loop_sending hbit (left - blockSize left) with hp | hp
      · exact Or.inl hp
      · exact Or.inr ⟨_, _, hp, rfl, hr, hbit⟩

/-- The parts of the invariant that follow from what a step of this thread can do to the buffer. -/
theorem Inv.touch {s s' : Sys} (h : Inv s) {e : Event} (hlink : s'.link = s.link.step e)
    (homv : s'.omv = s.omv) (hst : s'.stored = s.stored)
    (host : ∀ words got, s'.await = some (words, got) → Awaiting s'.link s.stored words got)
    (hdumps : ∀ d ∈ s'.dumps, d ∈ s.dumps ∨
      ∃ f ∈ s.stored, d = (⟨toU32 f.w, toU32 f.h, f.bytes.length⟩, f.bytes)) : Inv s' := by
  have ht : Touches s.fb s'.fb := by rw [Sys.fb, Sys.fb, hlink]; exact touches_link _ _
  refine ⟨?_, ?_, ?_, ?_, ?_, ?_⟩
  · -- lock
    rw [homv]
    rcases h.lock with ⟨hw, hl⟩ | ⟨hw, hl⟩
    · exact Or.inl ⟨hw, ht.lock_omv hl⟩
    · exact Or.inr ⟨hw, ht.lock_ide hl⟩
  · -- settled
    rw [homv, hst]; exact fun hw => ht.settled (h.settled hw)
  · -- writing
    rw [homv]
    intro j rest hj
    obtain ⟨hs, hf⟩ := h.writing j rest hj
    exact ⟨hs, ht.final hs hf⟩
  · -- cmd
    rw [hlink]; exact cmdOk_step h.cmd e
  · -- host
    rw [hst]; exact host
  · -- dumps
    rw [hst]
    intro d hd
    rcases hdumps d hd with hd | hd
    · exact h.dumps d hd
    · exact hd

theorem awaiting_nonblock {s : Sys} {words : Words} {got : List UInt8}
    (h : Awaiting s.link s.stored words got) (hw : s.await = some (words, got)) {e : Event}
    (hd : Disciplined s (.ide e)) (hl : s.link.halted = false)
    (hb : ∀ sensor r left, e = .dataIn sensor → s.link.phase ≠ .dataIn r left) :
    Awaiting (s.link.step e) s.stored words got := by
  cases e with
  | request hdr =>
    cases hp : s.link.phase with
    | idle =>
      have hstep : s.link.step (.request hdr) = s.link.onRequest hdr := by
        simp [Link.step, hl, hp]
      rw [hstep]
      exact awaiting_request h hp (fun hm => hd hm hp (words, got) hw)
    | dataIn r left => simpa [Link.step, hl, hp] using h
    | dataOut r left => simpa [Link.step, hl, hp] using h
  | dataIn sensor =>
    cases hp : s.link.phase with
    | dataIn r left => exact absurd hp (hb sensor r left rfl)
    | idle => simpa [Link.step, hl, hp] using h
    | dataOut r left => simpa [Link.step, hl, hp] using h
  | usbdbgInit => exact absurd hd id
  | dataOut chunk gc => exact h.same (same_of_quiet h (by simp) (by simp) (by simp))
  | timeout received => exact h.same (same_of_quiet h (by simp) (by simp) (by simp))
  | usbdbgStopScript => exact h.same (same_of_quiet h (by simp) (by simp) (by simp))
  | setScriptRunning b => exact h.same (same_of_quiet h (by simp) (by simp) (by simp))
  | txBufWrite bytes => exact h.same (same_of_quiet h (by simp) (by simp) (by simp))

/-- What one step of the debugger's thread keeps: the invariant; and a dump that ends leaves the lock
    free and the header empty. -/
def StepOk (s s' : Sys) : Prop :=
  Inv s' ∧ (s'.dumps = s.dumps ∨ (s'.fb.lock = ⟨0, 0⟩ ∧ s'.fb.size = 0))

theorem ide_block {s : Sys} (h : Inv s) {r : UInt8} {left : ℕ} (hph : s.link.phase = .dataIn r left)
    (hl : s.link.halted = false) (sensor : Option ℤ) :
    StepOk s (({ s with link := s.link.step (.dataIn sensor) } : Sys).onBlock s.link.dbg.cmd r left) := by
  have hstep : s.link.step (.dataIn sensor) = s.link.onDataIn r left sensor := by
    simp [Link.step, hl, hph]
  have hset : s.link.dbg.fb.lock ≠ ⟨1, MUTEX_TID_OMV⟩ → Settled s.stored s.link.dbg.fb := by
    intro hne
    rcases h.lock with ⟨-, hlk⟩ | ⟨hw, -⟩
    · exact absurd hlk hne
    · exact h.settled hw
  unfold Sys.onBlock
  by_cases hc : s.link.dbg.cmd = .frameSize
  · -- the reply to a size request
    rw [if_pos hc]
    refine ⟨h.touch rfl rfl rfl ?_ (fun d hd => Or.inl hd), Or.inl rfl⟩
    intro words got hw
    dsimp only at hw ⊢
    split at hw
    · rename_i hne
      obtain ⟨rfl, rfl⟩ := Prod.mk.inj (Option.some.inj hw)
      rw [hstep] at hne ⊢
      exact awaiting_frameSize h.cmd hph hc hset hne
    · exact absurd hw (by simp)
  rw [if_neg hc]
  cases ha : s.await with
  | none =>
    refine ⟨h.touch rfl rfl rfl (fun words got hw => ?_) (fun d hd => Or.inl hd), Or.inl rfl⟩
    exact absurd hw (by simp)
  | some p =>
    obtain ⟨words, got⟩ := p
    have hA := h.host words got ha
    dsimp only
    by_cases hr : r = 0x82
    · rw [if_pos hr]
      have hdump : s.link.Dumping words got := by
        rcases hA.phase with ⟨-, hi | ⟨r', left', hp, -, hne, -⟩⟩ | hdump
        · exact absurd (hph.symm.trans hi) (by simp)
        · rw [hph, Phase.dataIn.injEq] at hp
          exact absurd (hp.1 ▸ hr) hne
        · exact hdump
      obtain ⟨-, hcat, hend | ⟨hlt, hfb, hgo⟩⟩ := onDataIn_dump hdump hph sensor
      · -- the last block
        obtain ⟨hn, hidle, hunl, hsz⟩ := hend
        rw [hstep, if_pos hidle]
        obtain ⟨f, hf, hholds, -, hwords⟩ := hA.frame
        obtain ⟨left', hp, -, -, -, -, hsum, -⟩ := hdump
        rw [hph, Phase.dataIn.injEq] at hp
        have hgot : got ++ (s.link.onDataIn r left sensor).buf.take (blockSize left) = f.bytes := by
          rw [hcat, hn, hp.2, hsum, hwords]; exact hholds.bytes
        refine ⟨h.touch hstep.symm rfl rfl (fun w g hw => absurd hw (by simp)) ?_, Or.inr ⟨?_, hsz⟩⟩
        · intro d hd
          rcases List.mem_append.mp hd with hd | hd
          · exact Or.inl hd
          · refine Or.inr ⟨f, hf, ?_⟩
            rw [List.mem_singleton.mp hd, hgot, hwords]
        · rw [Sys.fb, hunl, hA.lock]; rfl
      · have hne : (s.link.onDataIn r left sensor).phase ≠ .idle := by
          obtain ⟨left', hp, -⟩ := hgo
          rw [hp]; simp
        rw [hstep, if_neg hne]
        refine ⟨h.touch hstep.symm rfl rfl ?_ (fun d hd => Or.inl hd), Or.inl rfl⟩
        intro w g hw
        obtain ⟨rfl, rfl⟩ := Prod.mk.inj (Option.some.inj hw)
        obtain ⟨f, hf, hholds, hrest⟩ := hA.frame
        refine ⟨by rw [hfb]; exact hA.lock, ⟨f, hf, by rw [hfb]; exact hholds, hrest⟩, Or.inr hgo⟩
    · rw [if_neg hr]
      refine ⟨h.touch rfl rfl rfl ?_ (fun d hd => Or.inl hd), Or.inl rfl⟩
      intro w g hw
      obtain ⟨rfl, rfl⟩ := Prod.mk.inj (Option.some.inj hw)
      dsimp only
      rw [hstep]
      exact awaiting_ready_block hA hph hr sensor

theorem ide_step {s : Sys} (h : Inv s) {e : Event} (hd : Disciplined s (.ide e)) :
    StepOk s (s.ideStep e) := by
  have hquiet : s.link.halted = true ∨ (s.link.halted = false ∧
      ∀ sensor r left, e = .dataIn sensor → s.link.phase ≠ .dataIn r left) →
      StepOk s { s with link := s.link.step e } := by
    intro hq
    refine ⟨h.touch rfl rfl rfl ?_ (fun d hd => Or.inl hd), Or.inl rfl⟩
    intro words got hw
    have hA := h.host words got hw
    rcases hq with hl | ⟨hl, hb⟩
    · simpa [Link.step, hl] using hA
    · exact awaiting_nonblock hA hw hd hl hb
  unfold Sys.ideStep
  dsimp only
  split
  · rename_i hl
    exact hquiet (Or.inl hl)
  · rename_i hl
    have hl' : s.link.halted = false := by simpa using hl
    split
    · rename_i hp
      exact ide_block h hp hl' _
    · rename_i hne
      exact hquiet (Or.inr ⟨hl', fun sensor r left he hp => hne sensor r left he hp⟩)

/-! ### Steps of the interpreter's thread -/

/-- While the IDE has a reply in hand, a step of this thread leaves the buffer as it is. -/
theorem omv_quiet {s : Sys} (h : Inv s) (ha : s.await ≠ none) : s.omvStep.fb = s.fb := by
  obtain ⟨⟨words, got⟩, hw⟩ := Option.ne_none_iff_exists'.mp ha
  have hlock := (h.host words got hw).lock
  unfold Sys.omvStep
  cases ho : s.omv with
  | idle => rfl
  | checked j =>
    have htry : mutexTryLock s.fb.lock MUTEX_TID_OMV = (false, s.fb.lock) := by
      rw [Sys.fb, hlock]; rfl
    simp only [htry, Bool.false_eq_true, if_false, Sys.setFb]
  | writing j rest =>
    rcases h.lock with ⟨-, hl⟩ | ⟨hn, -⟩
    · exact absurd (hlock.symm.trans hl) (by decide)
    · rw [ho] at hn; exact absurd trivial hn

theorem Final.settled {j : Job} {fb : JpegFb} (h : Final j fb) (st : List Frame) :
    Settled (st ++ j.frame.toList) fb := by
  rcases h with h | ⟨f, hf, hh⟩
  · exact Or.inl h
  · exact Or.inr (Or.inr ⟨f, by simp [hf], hh⟩)

theorem omv_step {s : Sys} (h : Inv s) : Inv s.omvStep := by
  have hcmd : ∀ fb, (s.setFb fb).link.CmdOk := fun fb => cmdOk_congr h.cmd rfl rfl
  unfold Sys.omvStep
  cases ho : s.omv with
  | idle => exact h
  | checked j =>
    dsimp only
    have hnw : ¬ s.omv.Writing := by rw [ho]; exact id
    have hset := h.settled hnw
    rcases h.lock with ⟨hw, -⟩ | ⟨-, hl | hl⟩
    · exact absurd hw hnw
    · -- the lock is free, so the IDE has nothing in hand
      have htry : mutexTryLock s.fb.lock MUTEX_TID_OMV = (true, ⟨1, MUTEX_TID_OMV⟩) := by rw [hl]; rfl
      rw [htry, if_pos rfl]
      refine ⟨Or.inl ⟨trivial, rfl⟩, fun hn => absurd trivial hn, ?_, hcmd _, ?_, h.dumps⟩
      · intro j' rest hj
        obtain ⟨rfl, rfl⟩ := Omv.writing.inj hj
        exact ⟨shaped_updateWrites _ _ _, final_updateWrites _ _ _ _⟩
      · intro words got hw
        exact absurd (hl.symm.trans (h.host words got hw).lock) (by decide)
    · have htry : mutexTryLock s.fb.lock MUTEX_TID_OMV = (false, s.fb.lock) := by rw [hl]; rfl
      rw [htry, if_neg (by simp)]
      exact ⟨Or.inr ⟨id, Or.inr hl⟩, fun _ => hset, by intro j' rest hj; exact absurd hj (by simp),
        hcmd _, h.host, h.dumps⟩
  | writing j rest =>
    have hlk : s.fb.lock = ⟨1, MUTEX_TID_OMV⟩ := by
      rcases h.lock with ⟨-, hl⟩ | ⟨hn, -⟩
      · exact hl
      · rw [ho] at hn; exact absurd trivial hn
    obtain ⟨hshape, hfinal⟩ := h.writing j rest ho
    have hnone : ∀ words got, s.await ≠ some (words, got) := fun words got hw =>
      absurd (hlk.symm.trans (h.host words got hw).lock) (by decide)
    cases rest with
    | nil =>
      refine ⟨Or.inr ⟨id, Or.inl ?_⟩, fun _ => ?_, by intro j' rest hj; exact absurd hj (by simp),
        hcmd _, fun words got hw => absurd hw (hnone words got), ?_⟩
      · simp only [Sys.fb, Sys.setFb]; rw [hlk]; rfl
      · have hsame : Agree s.fb { s.fb with lock := mutexUnlock s.fb.lock MUTEX_TID_OMV } :=
          ⟨rfl, rfl, rfl, rfl⟩
        exact hsame.settled (hfinal.settled s.stored)
      · intro d hd
        obtain ⟨f, hf, hd⟩ := h.dumps d hd
        exact ⟨f, List.mem_append_left _ hf, hd⟩
    | cons x rest =>
      refine ⟨Or.inl ⟨trivial, ?_⟩, fun hn => absurd trivial hn, ?_, hcmd _,
        fun words got hw => absurd hw (hnone words got), h.dumps⟩
      · cases x <;> exact hlk
      · intro j' rest' hj
        obtain ⟨rfl, rfl⟩ := Omv.writing.inj hj
        exact ⟨hshape.tail, hfinal⟩

theorem inv_step {s : Sys} (h : Inv s) {a : Action} (hd : Disciplined s a) : StepOk s (s.step a) := by
  cases a with
  | ide e => exact ide_step h hd
  | update j =>
    simp only [Sys.step]
    cases ho : s.omv with
    | idle =>
      dsimp only
      split
      · refine ⟨⟨?_, ?_, ?_, h.cmd, h.host, h.dumps⟩, Or.inl rfl⟩
        · have := h.lock
          rw [ho] at this; exact this
        · have := h.settled
          rw [ho] at this; exact this
        · intro j' rest hj; exact absurd hj (by simp)
      · exact ⟨h, Or.inl rfl⟩
    | checked j' => exact ⟨h, Or.inl rfl⟩
    | writing j' rest => exact ⟨h, Or.inl rfl⟩
  | omv =>
    refine ⟨omv_step h, Or.inl ?_⟩
    simp only [Sys.step, Sys.omvStep]
    split
    · rfl
    · split <;> rfl
    · rfl
    · rfl

/-! ### Schedules -/

/-- The system after a schedule. -/
def runSys (as : List Action) : Sys := Schemes.run Sys.step Sys.init as

theorem inv_run {as : List Action} (h : StepsMeet Sys.step Disciplined Sys.init as) :
    Inv (runSys as) := by
  unfold runSys
  exact run_inv Inv (fun _ _ hi hd => (inv_step hi hd).1) inv_init h

/-- The two steps the interpreter's thread makes. -/
def Action.IsOmv : Action → Prop
  | .ide _ => False
  | _ => True

theorem fb_of_omv {s : Sys} (h : Inv s) (ha : s.await ≠ none) {a : Action} (hom : a.IsOmv) :
    (s.step a).fb = s.fb := by
  cases a with
  | ide e => exact absurd hom id
  | update j =>
    simp only [Sys.step]
    cases ho : s.omv with
    | idle => dsimp only; split <;> rfl
    | checked j' => rfl
    | writing j' rest => rfl
  | omv => exact omv_quiet h ha

/-- In every schedule, whatever the interleaving: every complete dump is a frame that one update
    stored, with the size, width and height the IDE was told; from the reply to the end of the dump
    the interpreter's thread writes nothing to the buffer; and when a dump ends, the lock is free and
    the header empty. -/
theorem preview_no_torn_frame (as : List Action)
    (h : StepsMeet Sys.step Disciplined Sys.init as) :
    (∀ d ∈ (runSys as).dumps, ∃ f ∈ (runSys as).stored,
      d.1 = ⟨toU32 f.w, toU32 f.h, f.bytes.length⟩ ∧ d.2 = f.bytes) ∧
    (∀ pre a, pre ++ [a] <+: as → (runSys pre).await ≠ none → a.IsOmv →
      (runSys (pre ++ [a])).fb = (runSys pre).fb) ∧
    (∀ pre a, pre ++ [a] <+: as → (runSys (pre ++ [a])).dumps ≠ (runSys pre).dumps →
      (runSys (pre ++ [a])).fb.lock = ⟨0, 0⟩ ∧ (runSys (pre ++ [a])).fb.size = 0) := by
  refine ⟨?_, ?_, ?_⟩
  · intro d hd
    obtain ⟨f, hf, rfl⟩ := (inv_run h).dumps d hd
    exact ⟨f, hf, rfl, rfl⟩
  · intro pre a hpre ha hom
    have hi := inv_run (h.of_initial ((List.prefix_append _ _).trans hpre))
    rw [runSys, run_concat]
    exact fb_of_omv hi ha hom
  · intro pre a hpre hne
    have hmeet := h.of_initial hpre
    rw [stepsMeet_concat] at hmeet
    rw [runSys, run_concat] at hne ⊢
    rcases (inv_step (inv_run hmeet.1) hmeet.2).2 with heq | hend
    · exact absurd heq hne
    · exact hend

/-- A schedule with one whole exchange: the IDE enables the preview, an update stores five bytes while
    the IDE asks too early, and the next request gets the frame. -/
def exchange : List Action :=
  let request r n : Action := .ide (.request ⟨0x30, r, n⟩)
  let j : Job := ⟨true, 3, 2, 5, [1, 2, 3, 4, 5], 0, [], false, by decide, by decide⟩
  [request 0x0D 4, .ide (.dataOut [1, 0, 0, 0] false), .update j, .omv, .omv, .omv,
    request 0x81 12, .ide (.dataIn none), .omv, .omv, .omv, .omv, .omv, .omv, .omv,
    request 0x81 12, .ide (.dataIn none), .update j, .omv, request 0x82 5, .ide (.dataIn none)]

theorem preview_no_torn_frame_exchange :
    StepsMeet Sys.step Disciplined Sys.init exchange ∧
    (runSys exchange).dumps = [(⟨3, 2, 5⟩, [1, 2, 3, 4, 5])] ∧
    ∃ f ∈ (runSys exchange).stored, toU32 f.w = 3 ∧ toU32 f.h = 2 ∧ f.bytes = [1, 2, 3, 4, 5] := by
  have hmeet : StepsMeet Sys.step Disciplined Sys.init exchange := by decide
  have hdumps : (runSys exchange).dumps = [(⟨3, 2, 5⟩, [1, 2, 3, 4, 5])] := by decide
  obtain ⟨f, hf, h1, h2⟩ := (preview_no_torn_frame exchange hmeet).1 (⟨3, 2, 5⟩, [1, 2, 3, 4, 5])
    (by rw [hdumps]; exact List.mem_singleton_self _)
  have hwords := Words.mk.inj h1
  exact ⟨hmeet, hdumps, f, hf, hwords.1.symm, hwords.2.1.symm, h2.symm⟩

end OpenMV.Debug
