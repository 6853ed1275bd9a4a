import OpenMV.Io.Avi
import OpenMV.Io.Bmp
import OpenMV.Io.Gif
import OpenMV.Io.Ppm
import OpenMV.Jpeg.Geometry

/-! Saving over a file | scheme:refinement | source:src/src/openmv/omv/ff_wrapper.c,
    src/src/openmv/omv/hal/k210/omvhal-file.c, src/src/openmv/omv/img/imlib.c

    A file that is opened for writing may be there already. What a writer stores goes on top of it from the
    start, and where the writer ends, the old file goes on. -/

namespace OpenMV.Io
open Schemes Vision Jpeg

/-! ### Opening -/

def FA_WRITE : ℕ := 0x01
def FA_CREATE_ALWAYS : ℕ := 0x02
def FA_READ : ℕ := 0x04

/-- The flags of `open` in question. -/
inductive OFlag where
  | wronly
  | rdonly
  | creat
  | trunc
deriving DecidableEq, Repr

/-- `open(path, oflag)`, where `old` is what the file holds, if there is one. -/
def posixOpen (old : Option (List UInt8)) (oflag : List OFlag) : Option WFil :=
  match old with
  | none => if .creat ∈ oflag then some ⟨[], 0⟩ else none
  | some bytes => some ⟨if .trunc ∈ oflag then [] else bytes, 0⟩

def omvhalFOpen (old : Option (List UInt8)) (mode : ℕ) : Option WFil :=
  let oflag := if mode &&& FA_WRITE ≠ 0 then [OFlag.wronly] else []
  let oflag := if mode &&& FA_READ ≠ 0 then .rdonly :: oflag else oflag
  let oflag := if mode &&& FA_CREATE_ALWAYS ≠ 0 then .creat :: oflag else oflag
  posixOpen old oflag

/-- `ff_fail` gets -1. -/
def fileWriteOpen (old : Option (List UInt8)) : Except FileError WFil :=
  match omvhalFOpen old (FA_WRITE ||| FA_CREATE_ALWAYS) with
  | some fp => .ok fp
  | none => .error (.fail 4294967295)

theorem fileWriteOpen_eq : ∀ old, fileWriteOpen old = .ok ⟨old.getD [], 0⟩
  | none => rfl
  | some _ => rfl

/-! ### Saving -/

/-- What the writers find in memory: behind the header of a PPM file, under the pixels of an image that is not
    RGB565, and in the buffer for JPEG data and its tables. -/
structure Memory where
  stack : ℕ → UInt8
  words : ℤ → ℤ → ℕ
  tables : QuantTables
  size : ℕ
  mem : ℕ → UInt8

/-- `write_data(&fp, img->pixels, img->w * img->h)` -/
def rawWrite (img : Image) : List UInt8 := writePixels img 0 (uint32 (int32 (img.w * img.h)))

/-- The path that is opened and the bytes that are written there; `data` is the image as JPEG data, or what the
    encoder makes of its pixels. -/
def imlibSaveImage (m : Memory) (img : Image) (data : Saved) (path : List Char) (roi : Rectangle) (quality : ℕ) :
    Except FileError (List Char × List UInt8) :=
  match imblibParseExtension img.bpp path with
  | .error e => .error e
  | .ok .bmp => (bmpWriteSubimg m.words img roi).map (path, ·)
  | .ok .pnm => (ppmWriteSubimg m.stack m.words img roi).map (path, ·)
  | .ok .raw => .ok (path, rawWrite img)
  | .ok .jpg => (jpegWrite m.tables data quality m.size m.mem).map (path, ·)
  | .ok .dontCare =>
    if img.bpp = .jpeg then
      (jpegWrite m.tables data quality m.size m.mem).map (path ++ ['.', 'j', 'p', 'g'], ·)
    else if img.bpp = .bayer then .ok (path ++ ['.', 'r', 'a', 'w'], rawWrite img)
    else (bmpWriteSubimg m.words img roi).map (path ++ ['.', 'b', 'm', 'p'], ·)

/-- An image that is saved, or a recording. -/
inductive Save where
  | image (m : Memory) (img : Image) (data : Saved) (path : List Char) (roi : Rectangle) (quality : ℕ)
  | gif (width height : ℤ) (color loop : Bool) (frames : List (Image × UInt16))
  | mjpeg (tables : QuantTables) (width height : ℤ) (shots : List Shot) (fps : Fps)

/-- The writing, in a file that is open. -/
def Save.write (fp : WFil) : Save → Except FileError WFil
  | .image m img data path roi quality =>
    match imlibSaveImage m img data path roi quality with
    | .ok (_, bytes) => .ok (writeData fp bytes)
    | .error e => .error e
  | .gif width height color loop frames =>
    .ok (gifClose (frames.foldl (fun fp f => gifAddFrame fp f.1 f.2) (gifOpen fp width height color loop)))
  | .mjpeg tables width height shots fps =>
    match mjpegAddFrames ⟨mjpegOpen fp width height, 0, 0, tables⟩ shots with
    | .ok m => .ok (mjpegClose m fps)
    | .error e => .error e

/-- The file after it, if nothing was raised; `old` is what the file that is opened held before. -/
def Save.onto (s : Save) (old : Option (List UInt8)) : Except FileError (List UInt8) :=
  match fileWriteOpen old with
  | .error e => .error e
  | .ok fp =>
    match s.write fp with
    | .ok fp => .ok fp.bytes
    | .error e => .error e

/-! ### On top of the old file -/

/-- The same writing in a new file and in an old one: the new file, and behind it the rest of the old one. At
    least `n` bytes are written. -/
structure Over (old : List UInt8) (n : ℕ) (fresh top : WFil) : Prop where
  bytes : top.bytes = fresh.bytes ++ old.drop fresh.bytes.length
  pos : top.pos = fresh.pos
  inside : fresh.pos ≤ fresh.bytes.length
  length : n ≤ fresh.bytes.length

section
variable {old : List UInt8} {n : ℕ} {fresh top : WFil} (h : Over old n fresh top)
include h

theorem Over.writeData (data : List UInt8) : Over old n (writeData fresh data) (writeData top data) := by
  have hlen : (Io.writeData fresh data).bytes.length = max fresh.bytes.length (fresh.pos + data.length) := by
    have := h.inside
    simp only [Io.writeData, List.length_append, List.length_take, List.length_drop]
    omega
  refine ⟨?_, ?_, ?_, ?_⟩
  · rw [hlen]
    simp only [Io.writeData]
    rw [h.bytes, h.pos, List.take_append_of_le_length h.inside, List.append_assoc, List.append_assoc,
      List.append_assoc]
    congr 2
    rcases Nat.le_total (fresh.pos + data.length) fresh.bytes.length with hle | hle
    · rw [List.drop_append_of_le_length hle, Nat.max_eq_left hle]
    · rw [List.drop_append, List.drop_drop, Nat.max_eq_right hle, Nat.add_sub_cancel' hle]
  · show top.pos + data.length = fresh.pos + data.length
    rw [h.pos]
  · rw [hlen]
    exact Nat.le_max_right _ _
  · rw [hlen]
    exact h.length.trans (Nat.le_max_left _ _)

theorem Over.writeByte (value : ℕ) : Over old n (writeByte fresh value) (writeByte top value) := h.writeData _

theorem Over.writeWord (value : ℕ) : Over old n (writeWord fresh value) (writeWord top value) := h.writeData _

theorem Over.writeLong (value : ℕ) : Over old n (writeLong fresh value) (writeLong top value) := h.writeData _

theorem Over.fileSeek {k : ℕ} (hk : k ≤ n) : Over old n (fileSeek fresh k) (fileSeek top k) :=
  ⟨h.bytes, rfl, hk.trans h.length, h.length⟩

end

theorem Over.foldl {old : List UInt8} {n : ℕ} {ι : Type} {step : WFil → ι → WFil}
    (hstep : ∀ {fresh top : WFil}, Over old n fresh top → ∀ i, Over old n (step fresh i) (step top i)) :
    ∀ (l : List ι) {fresh top : WFil}, Over old n fresh top → Over old n (l.foldl step fresh) (l.foldl step top)
  | [], _, _, h => h
  | i :: l, _, _, h => Over.foldl hstep l (hstep h i)

theorem over_start (old : List UInt8) : Over old 0 ⟨[], 0⟩ ⟨old, 0⟩ :=
  ⟨(List.drop_zero).symm, rfl, Nat.le_refl 0, Nat.le_refl 0⟩

/-! ### Recordings -/

section
variable {old : List UInt8} {n : ℕ} {fresh top : WFil} (h : Over old n fresh top)
include h

theorem Over.gifOpen (width height : ℤ) (color loop : Bool) :
    Over old n (gifOpen fresh width height color loop) (gifOpen top width height color loop) := by
  have hcolors := Over.foldl (fun h i => h.writeData (gifColor color i)) (List.range 128)
    ((((h.writeData [0x47, 0x49, 0x46, 0x38, 0x39, 0x61]).writeWord (uint16 width)).writeWord
      (uint16 height)).writeData [0xF6, 0x00, 0x00])
  unfold Io.gifOpen
  cases loop with
  | false => exact hcolors
  | true => exact ((hcolors.writeData _).writeData _).writeData _

theorem Over.gifBlocks (bytes : ℤ) (index : ℤ → ℤ → ℕ) :
    Over old n (gifBlocks fresh bytes index) (gifBlocks top bytes index) := by
  unfold Io.gifBlocks
  refine Over.foldl (fun h (y : ℕ) => ?_) _ h
  exact Over.foldl (fun h (x : ℕ) => h.writeByte (index y x)) _ ((h.writeByte _).writeByte _)

theorem Over.gifAddFrame (img : Image) (delay : UInt16) :
    Over old n (gifAddFrame fresh img delay) (gifAddFrame top img delay) := by
  have hdelay : Over old n
      (if delay ≠ 0 then Io.writeWord (Io.writeWord (Io.writeData fresh [0x21, 0xF9, 0x04, 0x04]) delay.toNat) 0
        else fresh)
      (if delay ≠ 0 then Io.writeWord (Io.writeWord (Io.writeData top [0x21, 0xF9, 0x04, 0x04]) delay.toNat) 0
        else top) := by
    split_ifs
    · exact ((h.writeData _).writeWord _).writeWord _
    · exact h
  have hhead := ((((hdelay.writeByte 0x2C).writeLong 0).writeWord (uint16 img.w)).writeWord
    (uint16 img.h)).writeData [0x00, 0x07]
  unfold Io.gifAddFrame
  cases img.bpp with
  | grayscale => exact (hhead.gifBlocks _ _).writeData _
  | rgb565 => exact (hhead.gifBlocks _ _).writeData _
  | bayer => exact (hhead.gifBlocks _ _).writeData _
  | binary => exact hhead.writeData _
  | jpeg => exact hhead.writeData _

end

/-- The header is there when the fields in it are filled in. -/
theorem over_mjpegOpen (old : List UInt8) (width height : ℤ) :
    Over old 224 (mjpegOpen ⟨[], 0⟩ width height) (mjpegOpen ⟨old, 0⟩ width height) := by
  have hover := Over.foldl (fun h d => h.writeData d) (mjpegHeader width height) (over_start old)
  refine ⟨hover.bytes, hover.pos, hover.inside, ?_⟩
  rw [mjpegOpen, foldl_writeData_atEnd rfl]
  show 224 ≤ ([] ++ (mjpegHeader width height).flatten).length
  rw [List.nil_append, (words_mjpegHeader width height).length_flatten]
  exact Nat.le_refl 224

/-- The recordings have the same counters and tables. -/
structure OverMjpeg (old : List UInt8) (m m' : Mjpeg) : Prop where
  fp : Over old 224 m.fp m'.fp
  frames : m'.frames = m.frames
  bytes : m'.bytes = m.bytes
  tables : m'.tables = m.tables

theorem OverMjpeg.writeFrame {old : List UInt8} {m m' : Mjpeg} (h : OverMjpeg old m m') (bpp : ℕ)
    (mem : ℕ → UInt8) : OverMjpeg old (writeFrame m bpp mem) (writeFrame m' bpp mem) := by
  refine ⟨(h.fp.writeLong _).writeData _, h.frames, ?_, h.tables⟩
  simp only [Io.writeFrame, h.bytes]

/-- Both raise, or both go on. -/
theorem OverMjpeg.addFrame {old : List UInt8} {m m' : Mjpeg} (h : OverMjpeg old m m') (frame : Frame) (quality : ℕ)
    (past : ℕ → UInt8) :
    (∃ e, mjpegAddFrame m frame quality past = .error e ∧ mjpegAddFrame m' frame quality past = .error e) ∨
    ∃ r r', mjpegAddFrame m frame quality past = .ok r ∧ mjpegAddFrame m' frame quality past = .ok r' ∧
      OverMjpeg old r r' := by
  have hnext : OverMjpeg old
      { m with fp := writeData m.fp (fourcc '0' '0' 'd' 'c'), frames := (m.frames + 1) % 4294967296 }
      { m' with fp := writeData m'.fp (fourcc '0' '0' 'd' 'c'), frames := (m'.frames + 1) % 4294967296 } :=
    ⟨h.fp.writeData _, by simp only [h.frames], h.bytes, h.tables⟩
  unfold mjpegAddFrame
  cases frame with
  | jpeg data _ _ => exact Or.inr ⟨_, _, rfl, rfl, hnext.writeFrame _ _⟩
  | image src groups size _ =>
    dsimp only
    rw [h.tables]
    by_cases hmoved : (jpegCompress m.tables src groups size quality true).1.length ≠ size
    · rw [if_pos hmoved, if_pos hmoved]
      exact Or.inl ⟨_, rfl, rfl⟩
    · rw [if_neg hmoved, if_neg hmoved]
      refine Or.inr ⟨_, _, rfl, rfl, OverMjpeg.writeFrame ?_ _ _⟩
      exact ⟨hnext.fp, hnext.frames, hnext.bytes, rfl⟩

theorem OverMjpeg.addFrames {old : List UInt8} : ∀ (shots : List Shot) {m m' : Mjpeg}, OverMjpeg old m m' →
    (∃ e, mjpegAddFrames m shots = .error e ∧ mjpegAddFrames m' shots = .error e) ∨
    ∃ r r', mjpegAddFrames m shots = .ok r ∧ mjpegAddFrames m' shots = .ok r' ∧ OverMjpeg old r r'
  | [], m, m', h => Or.inr ⟨m, m', rfl, rfl, h⟩
  | s :: shots, m, m', h => by
    rw [mjpegAddFrames, mjpegAddFrames]
    rcases h.addFrame s.frame s.quality s.past with ⟨e, h1, h2⟩ | ⟨r, r', h1, h2, hover⟩
    · rw [h1, h2]
      exact Or.inl ⟨e, rfl, rfl⟩
    · rw [h1, h2]
      exact hover.addFrames shots

/-- The frames of a recording over an old file. -/
theorem overMjpeg_start (old : List UInt8) (width height : ℤ) (t : QuantTables) (shots : List Shot) :
    (∃ e, mjpegAddFrames ⟨mjpegOpen ⟨[], 0⟩ width height, 0, 0, t⟩ shots = .error e ∧
      mjpegAddFrames ⟨mjpegOpen ⟨old, 0⟩ width height, 0, 0, t⟩ shots = .error e) ∨
    ∃ r r', mjpegAddFrames ⟨mjpegOpen ⟨[], 0⟩ width height, 0, 0, t⟩ shots = .ok r ∧
      mjpegAddFrames ⟨mjpegOpen ⟨old, 0⟩ width height, 0, 0, t⟩ shots = .ok r' ∧ OverMjpeg old r r' := by
  have hopen := over_mjpegOpen old width height
  generalize mjpegOpen ⟨old, 0⟩ width height = fp' at hopen ⊢
  generalize mjpegOpen ⟨[], 0⟩ width height = fp at hopen ⊢
  exact OverMjpeg.addFrames shots ⟨hopen, rfl, rfl, rfl⟩

theorem OverMjpeg.close {old : List UInt8} {m m' : Mjpeg} (h : OverMjpeg old m m') (fps : Fps) :
    Over old 224 (mjpegClose m fps) (mjpegClose m' fps) := by
  unfold mjpegClose
  rw [h.frames, h.bytes]
  have h1 := (h.fp.fileSeek (k := 1 * 4) (by decide)).writeLong (216 + m.frames * 8 + m.bytes)
  have h2 := ((h1.fileSeek (k := 8 * 4) (by decide)).writeLong fps.microsField).writeLong
    (fps.perSecondField m.frames m.bytes)
  have h3 := (h2.fileSeek (k := 12 * 4) (by decide)).writeLong m.frames
  have h4 := (h3.fileSeek (k := 19 * 4) (by decide)).writeLong (uint32 fps.rate)
  have h5 := (h4.fileSeek (k := 21 * 4) (by decide)).writeLong (fps.lengthField m.frames)
  have h6 := (h5.fileSeek (k := 33 * 4) (by decide)).writeLong (uint32 fps.rate)
  have h7 := (h6.fileSeek (k := 35 * 4) (by decide)).writeLong (fps.lengthField m.frames)
  exact (h7.fileSeek (k := 54 * 4) (by decide)).writeLong _

/-! ### The file -/

/-- Every save leaves the new file and behind it the rest of the old one. -/
theorem Save.write_over (s : Save) (old : List UInt8) {top : WFil} (h : s.write ⟨old, 0⟩ = .ok top) :
    ∃ fresh, s.write ⟨[], 0⟩ = .ok fresh ∧ ∃ n, Over old n fresh top := by
  cases s with
  | image m img data path roi quality =>
    rw [Save.write] at h ⊢
    cases hsave : imlibSaveImage m img data path roi quality with
    | error e =>
      rw [hsave] at h
      exact nomatch h
    | ok r =>
      rw [hsave] at h
      cases h
      exact ⟨_, rfl, 0, (over_start old).writeData r.2⟩
  | gif width height color loop frames =>
    cases h
    refine ⟨_, rfl, 0, ?_⟩
    exact (Over.foldl (fun h f => h.gifAddFrame f.1 f.2) frames
      ((over_start old).gifOpen width height color loop)).writeByte 0x3B
  | mjpeg tables width height shots fps =>
    rw [Save.write] at h ⊢
    rcases overMjpeg_start old width height tables shots with ⟨e, -, h2⟩ | ⟨r, r', h1, h2, hover⟩
    · rw [h2] at h
      exact nomatch h
    · rw [h2] at h
      obtain rfl : mjpegClose r' fps = top := Except.ok.inj h
      rw [h1]
      exact ⟨mjpegClose r fps, rfl, 224, hover.close fps⟩

/-! ### The size that is read back -/

theorem readData_bytes {fp fp' : File} {n : ℕ} {data : List UInt8} (h : Jpeg.readData fp n = .ok (data, fp')) :
    fp'.bytes = fp.bytes := by
  unfold Jpeg.readData at h
  dsimp only at h
  split_ifs at h
  cases h
  rfl

theorem readWord_bytes {fp fp' : File} {v : ℕ} (h : Jpeg.readWord fp = .ok (v, fp')) : fp'.bytes = fp.bytes := by
  unfold Jpeg.readWord at h
  cases hd : Jpeg.readData fp 2 with
  | error e =>
    rw [hd] at h
    exact nomatch h
  | ok r =>
    rw [hd] at h
    cases h
    exact readData_bytes hd

theorem readFrame_size {fp : File} {g : Geometry} (h : readFrame fp = .ok g) : g.size = fp.bytes.length := by
  rw [readFrame] at h
  cases h1 : Jpeg.readData fp 1 with
  | error e =>
    rw [h1] at h
    cases h
  | ok r₁ =>
    rw [h1] at h
    cases h2 : Jpeg.readWord r₁.2 with
    | error e =>
      simp only [bind, Except.bind, h2] at h
      cases h
    | ok r₂ =>
      cases h3 : Jpeg.readWord r₂.2 with
      | error e =>
        simp only [bind, Except.bind, h2, h3] at h
        cases h
      | ok r₃ =>
        simp only [bind, Except.bind, h2, h3] at h
        cases h
        show r₃.2.bytes.length = fp.bytes.length
        rw [readWord_bytes h3, readWord_bytes h2, readData_bytes h1]

/-- `jpg_size` is the size of the file. -/
theorem jpegReadGeometry_size : ∀ (fuel : ℕ) {fp : File} {g : Geometry},
    jpegReadGeometry fuel fp = some (.ok g) → g.size = fp.bytes.length
  | 0, _, _, h => by cases h
  | fuel + 1, fp, g, h => by
    rw [jpegReadGeometry] at h
    cases hw : Jpeg.readWord fp with
    | error e =>
      rw [hw] at h
      cases h
    | ok r =>
      obtain ⟨header, fp₁⟩ := r
      rw [hw] at h
      dsimp only at h
      by_cases halone : isStandalone (rev16 header)
      · rw [if_pos halone] at h
        rw [jpegReadGeometry_size fuel h, readWord_bytes hw]
      · rw [if_neg halone] at h
        by_cases hseg : isSegment (rev16 header)
        · rw [if_pos hseg] at h
          cases hs : Jpeg.readWord fp₁ with
          | error e =>
            rw [hs] at h
            cases h
          | ok r =>
            obtain ⟨size, fp₂⟩ := r
            rw [hs] at h
            dsimp only at h
            by_cases hframe : isFrame (rev16 header)
            · rw [if_pos hframe] at h
              rw [readFrame_size (Option.some.inj h), readWord_bytes hs, readWord_bytes hw]
            · rw [if_neg hframe] at h
              rw [jpegReadGeometry_size fuel h]
              show fp₂.bytes.length = fp.bytes.length
              rw [readWord_bytes hs, readWord_bytes hw]
        · rw [if_neg hseg] at h
          cases h

/-! ### The result -/

/-- Saving over a file, or recording over it: it holds what was written, and `jpg_size` is read as the length of
    that, exactly if it was not longer before. -/
theorem save_replaces_iff (s : Save) (old : Option (List UInt8)) {file : List UInt8} (h : s.onto old = .ok file) :
    ∃ written, s.onto none = .ok written ∧ (file = written ↔ (old.getD []).length ≤ written.length) ∧
      ∀ g, ReadsGeometry ⟨file, 0⟩ g → (g.size = written.length ↔ (old.getD []).length ≤ written.length) := by
  unfold Save.onto at h ⊢
  rw [fileWriteOpen_eq] at h ⊢
  dsimp only [Option.getD_none] at h ⊢
  cases hw : s.write ⟨old.getD [], 0⟩ with
  | error e =>
    rw [hw] at h
    exact nomatch h
  | ok top =>
    rw [hw] at h
    cases h
    obtain ⟨fresh, hfresh, n, hover⟩ := s.write_over _ hw
    rw [hfresh]
    have hlen : top.bytes.length = fresh.bytes.length + ((old.getD []).length - fresh.bytes.length) := by
      rw [hover.bytes, List.length_append, List.length_drop]
    refine ⟨fresh.bytes, rfl, ⟨fun heq => ?_, fun hle => ?_⟩, fun g hg => ?_⟩
    · rw [heq] at hlen
      omega
    · rw [hover.bytes, List.drop_eq_nil_of_le hle, List.append_nil]
    · obtain ⟨k, hk⟩ := hg
      have hsize : g.size = top.bytes.length := jpegReadGeometry_size k (hk k (Nat.le_refl k))
      omega

/-- A raw image of one pixel. -/
def rawSave : Save :=
  .image ⟨fun _ => 0, fun _ _ => 0, ⟨0, List.replicate 64 1, List.replicate 64 1, rfl, rfl⟩, 0, fun _ => 0⟩
    ⟨1, 1, .bayer, fun _ _ => 5⟩ (.jpeg []) ['a', '.', 'r', 'a', 'w'] ⟨0, 0, 1, 1⟩ 50

/-- Over a file of one byte. -/
theorem save_replaces_byte : ∃ written, rawSave.onto none = .ok written ∧ [5] = written := by
  obtain ⟨written, hw, hiff, -⟩ := save_replaces_iff rawSave (some [1])
    (show rawSave.onto (some [1]) = .ok [5] from rfl)
  refine ⟨written, hw, hiff.2 ?_⟩
  cases hw
  decide

/-- Over a file of two bytes, of which the second stays. -/
theorem save_keeps_old_end : ¬ ∃ written, rawSave.onto none = .ok written ∧
    rawSave.onto (some [1, 2]) = .ok written := by
  rintro ⟨written, hnew, hold⟩
  have hnew' : rawSave.onto none = .ok [5] := rfl
  have hold' : rawSave.onto (some [1, 2]) = .ok [5, 2] := rfl
  exact absurd ((hnew'.symm.trans hnew).trans (hold.symm.trans hold')) (by decide)

/-! ### The chunks of a recording over a file -/

/-- Frames over `old`: the sizes in the header are those of the recording alone. -/
theorem mjpegClose_over (t : QuantTables) (width height : ℤ) (fps : Fps) (shots : List Shot)
    (hfit : AllFit t shots) (hlt : aviLength (streams t shots) < 4294967296) (old : List UInt8) :
    ∃ m, mjpegAddFrames ⟨mjpegOpen ⟨old, 0⟩ width height, 0, 0, t⟩ shots = .ok m ∧
      (mjpegClose m fps).bytes.length = max old.length (aviLength (streams t shots)) ∧
      (AviFile (streams t shots) (patches m fps) m.fp.bytes (mjpegClose m fps).bytes ↔
        old.length ≤ aviLength (streams t shots)) := by
  obtain ⟨r, hr, hlen, hfile⟩ := mjpegClose_fresh t width height fps hfit hlt
  rcases overMjpeg_start old width height t shots with ⟨e, h1, -⟩ | ⟨r₁, m, h1, h2, hover⟩
  · exact nomatch hr.symm.trans h1
  obtain rfl : r₁ = r := Except.ok.inj (h1.symm.trans hr)
  have hpatches : patches m fps = patches r₁ fps := by
    simp only [patches, hover.frames, hover.bytes]
  have hclose := (hover.close fps).bytes
  have hlength : (mjpegClose m fps).bytes.length = max old.length (aviLength (streams t shots)) := by
    rw [hclose, List.length_append, List.length_drop, hfile.length, hlen]
    omega
  refine ⟨m, h2, hlength, ?_⟩
  rw [hpatches, hclose, hover.fp.bytes, hfile.length, hlen]
  constructor
  · intro h
    have hsize : rd32 ((mjpegClose r₁ fps).bytes.drop 4) + 8 = aviLength (streams t shots) := by
      rw [hfile.size, hfile.length, hlen]
    have hsame := (h.filled (patches r₁ fps).head! (.head _)).trans
      (hfile.filled (patches r₁ fps).head! (.head _)).symm
    have htop := h.size
    simp only [patches, List.head!_cons, Nat.one_mul] at hsame
    rw [hsame, hsize, List.length_append, List.length_drop, hfile.length, hlen] at htop
    omega
  · intro hle
    rw [List.drop_eq_nil_of_le hle, List.append_nil, List.append_nil]
    exact hfile

/-- A recording is well formed exactly if the file was not longer before. -/
theorem mjpeg_file_consistent_iff (t : QuantTables) (width height : ℤ) (fps : Fps) (shots : List Shot)
    (hfit : AllFit t shots) (hlt : aviLength (streams t shots) < 4294967296) (old : Option (List UInt8)) :
    ∃ fp m, fileWriteOpen old = .ok fp ∧
      mjpegAddFrames ⟨mjpegOpen fp width height, 0, 0, t⟩ shots = .ok m ∧
      (AviFile (streams t shots) (patches m fps) m.fp.bytes (mjpegClose m fps).bytes ↔
        (old.getD []).length ≤ aviLength (streams t shots)) := by
  obtain ⟨m, hrun, -, hiff⟩ := mjpegClose_over t width height fps shots hfit hlt (old.getD [])
  exact ⟨⟨old.getD [], 0⟩, m, fileWriteOpen_eq old, hrun, hiff⟩

/-- Tables before `jpeg_init`. -/
def noTables : QuantTables := ⟨0, List.replicate 64 1, List.replicate 64 1, rfl, rfl⟩

/-- 30 frames a second; none is stored as the number of bytes a second. -/
def thirtyFps : Fps := ⟨30, 33333, fun _ _ => 0, 30000, fun _ => 67⟩

/-- Five bytes of JPEG data, and a gray block compressed into 1024 bytes. -/
def sampleShots : List Shot :=
  [⟨.jpeg [0xFF, 0xD8, 0, 0xFF, 0xD9] (by decide) (by decide), 50, fun _ => 0⟩,
   ⟨.image ⟨8, 8, 1⟩ [[(.y, List.replicate 64 0)]] 1024 (by decide), 50, fun _ => 0⟩]

/-- Recorded over a file of three bytes. -/
theorem mjpeg_file_consistent_sample : ∃ fp m, fileWriteOpen (some [1, 2, 3]) = .ok fp ∧
    mjpegAddFrames ⟨mjpegOpen fp 8 8, 0, 0, noTables⟩ sampleShots = .ok m ∧
    AviFile (streams noTables sampleShots) (patches m thirtyFps) m.fp.bytes (mjpegClose m thirtyFps).bytes := by
  have hfit : AllFit noTables sampleShots := by
    refine ⟨trivial, ?_, trivial⟩
    show (jpegCompress _ _ _ _ _ _).1.length = _
    decide +kernel
  have hlength : 3 ≤ aviLength (streams noTables sampleShots) ∧
      aviLength (streams noTables sampleShots) < 4294967296 := by decide +kernel
  obtain ⟨fp, m, hopen, hrun, hiff⟩ := mjpeg_file_consistent_iff noTables 8 8 thirtyFps sampleShots hfit
    hlength.2 (some [1, 2, 3])
  exact ⟨fp, m, hopen, hrun, hiff.2 hlength.1⟩

/-- A frame that is JPEG data. -/
def jpegShot : Shot := ⟨.jpeg [0xFF, 0xD8, 0, 0xFF, 0xD9] (by decide) (by decide), 50, fun _ => 0⟩

/-- One frame over a recording of two: the size in the header is not that of the file. -/
theorem mjpeg_over_longer_recording : ∃ longer fp m,
    (Save.mjpeg noTables 8 8 [jpegShot, jpegShot] thirtyFps).onto none = .ok longer ∧
    fileWriteOpen (some longer) = .ok fp ∧
    mjpegAddFrames ⟨mjpegOpen fp 8 8, 0, 0, noTables⟩ [jpegShot] = .ok m ∧
    ¬ AviFile (streams noTables [jpegShot]) (patches m thirtyFps) m.fp.bytes (mjpegClose m thirtyFps).bytes := by
  have hone : aviLength (streams noTables [jpegShot]) = 240 := by decide
  have htwo : aviLength (streams noTables [jpegShot, jpegShot]) = 256 := by decide
  obtain ⟨m₂, hrun₂, hlen₂, -⟩ := mjpegClose_over noTables 8 8 thirtyFps [jpegShot, jpegShot]
    ⟨trivial, trivial, trivial⟩ (by rw [htwo]; decide) []
  obtain ⟨m, hrun, -, hiff⟩ := mjpegClose_over noTables 8 8 thirtyFps [jpegShot]
    ⟨trivial, trivial⟩ (by rw [hone]; decide) (mjpegClose m₂ thirtyFps).bytes
  refine ⟨(mjpegClose m₂ thirtyFps).bytes, ⟨(mjpegClose m₂ thirtyFps).bytes, 0⟩, m, ?_, rfl, hrun, fun h => ?_⟩
  · simp only [Save.onto, Save.write, fileWriteOpen_eq, Option.getD_none, hrun₂]
  · have hle := hiff.mp h
    rw [hlen₂, hone, htwo] at hle
    exact absurd hle (by decide)

end OpenMV.Io
