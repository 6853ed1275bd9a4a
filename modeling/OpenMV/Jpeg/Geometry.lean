import OpenMV.Jpeg.Buffer

/-! JPEG geometry | scheme:codec | source:src/src/openmv/omv/img/jpeg.c

    `jpeg_read_geometry` walks over the marker segments of a file until it meets a frame header. The
    streams of `jpeg_compress` are sequences of such segments, with the lengths they ought to have; the
    two sizes in the frame header come height first, and are read width first. -/

namespace OpenMV.Jpeg
open Schemes

/-! ### The reader -/

structure File where
  bytes : List UInt8
  pos : ℕ
deriving DecidableEq, Repr

/-- The exceptions raised by the helpers of `ff_wrapper.c`. -/
inductive FileError where
  /-- `ff_fail` -/
  | fail (res : ℕ)
  /-- Failed to read requested bytes! -/
  | readFail
  /-- File corrupted! -/
  | fileCorrupted
deriving DecidableEq, Repr

/-- `omvhal_f_read` returns the number of bytes when it got some but not all, which is then not
    `FR_OK`. -/
def readData (fp : File) (size : ℕ) : Except FileError (List UInt8 × File) :=
  let data := (fp.bytes.drop fp.pos).take size
  if data.length = size then .ok (data, { fp with pos := fp.pos + size })
  else if data.length = 0 then .error .readFail
  else .error (.fail data.length)

/-- A word as it is in memory, least significant byte first. -/
def readWord (fp : File) : Except FileError (ℕ × File) :=
  (readData fp 2).map fun (data, fp) => ((data.getD 0 0).toNat + (data.getD 1 0).toNat * 256, fp)

def rev16 (n : ℕ) : ℕ := n % 256 * 256 + n / 256

/-- A position after the end of the file is no error. -/
def fileSeek (fp : File) (offset : ℕ) : File := { fp with pos := offset % 2 ^ 32 }

/-- What is set in the image and in the read settings. -/
structure Geometry where
  w : ℕ
  h : ℕ
  size : ℕ
deriving DecidableEq, Repr

/-- The body of the frame header branch. -/
def readFrame (fp : File) : Except FileError Geometry := do
  let (_, fp) ← readData fp 1
  let (width, fp) ← readWord fp
  let (height, fp) ← readWord fp
  return { w := rev16 width, h := rev16 height, size := fp.bytes.length }

def isStandalone (header : ℕ) : Prop := 0xFFD0 ≤ header ∧ header ≤ 0xFFD9

def isSegment (header : ℕ) : Prop :=
  (0xFFC0 ≤ header ∧ header ≤ 0xFFCF) ∨ (0xFFDA ≤ header ∧ header ≤ 0xFFDF) ∨
    (0xFFE0 ≤ header ∧ header ≤ 0xFFEF) ∨ (0xFFF0 ≤ header ∧ header ≤ 0xFFFE)

def isFrame (header : ℕ) : Prop :=
  (0xFFC0 ≤ header ∧ header ≤ 0xFFC3) ∨ (0xFFC5 ≤ header ∧ header ≤ 0xFFC7) ∨
    (0xFFC9 ≤ header ∧ header ≤ 0xFFCB) ∨ (0xFFCD ≤ header ∧ header ≤ 0xFFCF)

instance (header : ℕ) : Decidable (isStandalone header) := inferInstanceAs (Decidable (_ ∧ _))
instance (header : ℕ) : Decidable (isSegment header) := inferInstanceAs (Decidable (_ ∨ _))
instance (header : ℕ) : Decidable (isFrame header) := inferInstanceAs (Decidable (_ ∨ _))

/-- The loop, `none` if it is not left after `fuel` rounds. -/
def jpegReadGeometry : ℕ → File → Option (Except FileError Geometry)
  | 0, _ => none
  | fuel + 1, fp =>
    match readWord fp with
    | .error e => some (.error e)
    | .ok (header, fp) =>
      let header := rev16 header
      if isStandalone header then jpegReadGeometry fuel fp
      else if isSegment header then
        match readWord fp with
        | .error e => some (.error e)
        | .ok (size, fp) =>
          let size := rev16 size
          if isFrame header then some (readFrame fp)
          else jpegReadGeometry fuel (fileSeek fp (fp.pos + size - 2))
      else some (.error .fileCorrupted)

/-- The loop is left, with this geometry. -/
def ReadsGeometry (fp : File) (g : Geometry) : Prop :=
  ∃ n, ∀ fuel ≥ n, jpegReadGeometry fuel fp = some (.ok g)

theorem ReadsGeometry.unique {fp : File} {g g' : Geometry} (h : ReadsGeometry fp g)
    (h' : ReadsGeometry fp g') : g = g' := by
  obtain ⟨n, hn⟩ := h
  obtain ⟨n', hn'⟩ := h'
  have := (hn (max n n') (le_max_left _ _)).symm.trans (hn' (max n n') (le_max_right _ _))
  exact Except.ok.inj (Option.some.inj this)

/-! ### Marker segments -/

/-- The segments of a baseline stream. -/
inductive Segment where
  | app0 (data : List UInt8)
  | dqt (tables : List (UInt8 × List UInt8))
  | sof0 (bits : UInt8) (height width : ℕ) (comps : List (UInt8 × UInt8 × UInt8))
  | dht (tables : List (UInt8 × List UInt8 × List UInt8))
  | sos (comps : List (UInt8 × UInt8)) (spectral : UInt8 × UInt8 × UInt8)

namespace Segment

def marker : Segment → UInt8
  | app0 _ => 0xE0
  | dqt _ => 0xDB
  | sof0 .. => 0xC0
  | dht _ => 0xC4
  | sos .. => 0xDA

/-- What stands after the length. -/
def payload : Segment → List UInt8
  | app0 data => data
  | dqt tables => tables.flatMap fun (i, q) => i :: q
  | sof0 bits height width comps =>
    bits :: (word height ++ word width ++ [UInt8.ofNat comps.length]) ++
      comps.flatMap fun (i, hv, q) => [i, hv, q]
  | dht tables => tables.flatMap fun (i, counts, values) => i :: (counts ++ values)
  | sos comps (a, b, c) =>
    UInt8.ofNat comps.length :: (comps.flatMap fun (i, t) => [i, t]) ++ [a, b, c]

/-- The parts of the payload have their sizes, so that the payload ends where they say. -/
def Ok : Segment → Prop
  | app0 _ => True
  | dqt tables => ∀ t ∈ tables, t.2.length = 64
  | sof0 _ height width comps => height < 65536 ∧ width < 65536 ∧ comps.length < 256
  | dht tables => ∀ t ∈ tables, t.2.1.length = 16 ∧ t.2.2.length = (t.2.1.map UInt8.toNat).sum
  | sos comps _ => comps.length < 256

/-- The marker, the length (its own two bytes included) and the payload. -/
def bytes (s : Segment) : List UInt8 := [0xFF, s.marker] ++ word (s.payload.length + 2) ++ s.payload

end Segment

/-- A baseline stream: start, the header segments, entropy coded bytes without a marker, end. -/
def WellFormed (stream : List UInt8) : Prop :=
  ∃ (segs : List Segment) (scan : List UInt8),
    segs.map Segment.marker = [0xE0, 0xDB, 0xC0, 0xC4, 0xDA] ∧
    (∀ s ∈ segs, s.Ok ∧ s.payload.length + 2 < 65536) ∧ Escaped 255 0 scan ∧
    stream = [0xFF, 0xD8] ++ segs.flatMap Segment.bytes ++ scan ++ [0xFF, 0xD9]

/-! ### The segments that are written -/

theorem length_std : stdDcLuminanceNrcodes.length = 17 ∧ stdDcLuminanceValues.length = 12 ∧
    stdAcLuminanceNrcodes.length = 17 ∧ stdAcLuminanceValues.length = 162 ∧
    stdDcChrominanceNrcodes.length = 17 ∧ stdDcChrominanceValues.length = 12 ∧
    stdAcChrominanceNrcodes.length = 17 ∧ stdAcChrominanceValues.length = 162 := by decide +kernel

/-- There are as many symbols as code words. -/
theorem sum_std : (stdDcLuminanceNrcodes.map UInt8.toNat).tail.sum = 12 ∧
    (stdAcLuminanceNrcodes.map UInt8.toNat).tail.sum = 162 ∧
    (stdDcChrominanceNrcodes.map UInt8.toNat).tail.sum = 12 ∧
    (stdAcChrominanceNrcodes.map UInt8.toNat).tail.sum = 162 := by decide

section Header

variable (w h bpp : ℕ) (jpegSubsample : UInt8) (t : QuantTables)

def headerSegments : List Segment :=
  let nrComp := if bpp = 1 then 1 else 3
  [.app0 [74, 70, 73, 70, 0x00, 0x01, 0x01, 0x00, 0x00, 0x01, 0x00, 0x01, 0x00, 0x00],
   .dqt ((0, t.yTable) :: if bpp > 1 then [(1, t.uvTable)] else []),
   .sof0 0x08 h w ((List.range nrComp).map fun i =>
     (UInt8.ofNat (i + 1), if i = 0 ∧ bpp = 2 then jpegSubsample else 0x11, if i > 0 then 1 else 0)),
   .dht ((0x00, stdDcLuminanceNrcodes.drop 1, stdDcLuminanceValues) ::
     (0x10, stdAcLuminanceNrcodes.drop 1, stdAcLuminanceValues) ::
     if bpp > 1 then
       [(0x01, stdDcChrominanceNrcodes.drop 1, stdDcChrominanceValues),
        (0x11, stdAcChrominanceNrcodes.drop 1, stdAcChrominanceValues)]
     else []),
   .sos ((List.range nrComp).map fun i => (UInt8.ofNat (i + 1), if i = 0 then 0x00 else 0x11))
     (0x00, 0x3F, 0x00)]

/-- The lengths in the header are the sizes of the payloads. -/
theorem length_payload_headerSegments (hbpp : bpp = 1 ∨ bpp = 2) :
    (headerSegments w h bpp jpegSubsample t).map (·.payload.length + 2) =
      let nrComp := if bpp = 1 then 1 else 3
      [16, bpp * 65 + 2, nrComp * 3 + 8, bpp * 208 + 2, nrComp * 2 + 6] := by
  rcases hbpp with rfl | rfl
  · simp [headerSegments, Segment.payload, word, t.yTable_length, length_std]
  · simp [headerSegments, Segment.payload, word, t.yTable_length, t.uvTable_length, List.range_succ,
      length_std]

/-- What `jpeg_write_headers` writes, segment by segment. -/
theorem headerChunks_flatten (hbpp : bpp = 1 ∨ bpp = 2) : (headerChunks w h bpp jpegSubsample t).flatten =
    [0xFF, 0xD8] ++ (headerSegments w h bpp jpegSubsample t).flatMap Segment.bytes := by
  have hlen := length_payload_headerSegments w h bpp jpegSubsample t hbpp
  simp only [headerSegments, List.map_cons, List.map_nil, List.cons.injEq] at hlen
  obtain ⟨h1, h2, h3, h4, h5, -⟩ := hlen
  simp only [headerSegments, List.flatMap_cons, List.flatMap_nil, Segment.bytes, h1, h2, h3, h4, h5]
  rcases hbpp with rfl | rfl
  · simp [headerChunks, Segment.payload, Segment.marker, word]
  · simp [headerChunks, Segment.payload, Segment.marker, word, List.range_succ]

theorem headerSegments_ok (hbpp : bpp = 1 ∨ bpp = 2) (hw : w < 65536) (hh : h < 65536) :
    ∀ s ∈ headerSegments w h bpp jpegSubsample t, s.Ok := by
  simp only [headerSegments, List.forall_mem_cons, Segment.Ok, List.length_map, List.length_range]
  rcases hbpp with rfl | rfl
  · simp [hw, hh, t.yTable_length, length_std, sum_std]
  · simp [hw, hh, t.yTable_length, t.uvTable_length, length_std, sum_std]

end Header

/-! ### The stream of `jpeg_compress` -/

/-- When an early end was made the overflow flag is set. -/
theorem encodeGroups_overflow : ∀ {gs : List (List DataUnit)} {s s' : EncState},
    encodeGroups s gs = (s', false) → s'.buf.overflow = true
  | [], s, s', h => by cases h
  | g :: gs, s, s', h => by
      rw [encodeGroups] at h
      split_ifs at h with ho
      · cases h
        exact ho
      · exact encodeGroups_overflow h

/-- Without overflow the stream is the header, escaped bytes and the end marker. -/
theorem compress_buf {t : QuantTables} {src : Source} {groups : List (List DataUnit)} {length quality : ℕ}
    {realloc : Bool} (h : (jpegCompress t src groups length quality realloc).1.overflow = false) :
    ∃ bytes, (jpegCompress t src groups length quality realloc).1.buf =
      (headerOf t src quality).flatten ++ escape 255 0 bytes ++ [0xFF, 0xD9] := by
  rw [compress_eq] at h ⊢
  rcases hg : encodeGroups (afterHeaders t src length quality realloc) groups with ⟨s, _ | _⟩
  · rw [hg] at h
    exact absurd ((encodeGroups_overflow hg).symm.trans h) (by decide)
  · rw [hg] at h
    obtain ⟨h1, hend⟩ := putEnd_buf h
    obtain ⟨h2, bytes', hfill⟩ := foldl_writeBits_buf [fillBits] h1
    rw [encodeGroups_done hg, encodeUnits_buf] at h2
    obtain ⟨h3, bytes, hunits⟩ := foldl_writeBits_buf _ h2
    refine ⟨bytes ++ bytes', hend.trans ?_⟩
    rw [show jpegWriteBits s.buf fillBits = [fillBits].foldl jpegWriteBits s.buf from rfl, hfill,
      encodeGroups_done hg, encodeUnits_buf, hunits, afterHeaders_buf h3, escape_append]
    simp only [List.append_assoc]

theorem headerBpp_cases {bpp : ℕ} (h : bpp ≤ 3) : headerBpp bpp = 1 ∨ headerBpp bpp = 2 := by
  unfold headerBpp
  split_ifs <;> omega

theorem compress_wellFormed {t : QuantTables} {src : Source} {groups : List (List DataUnit)}
    {length quality : ℕ} {realloc : Bool} (hw : src.w ≤ 65535) (hh : src.h ≤ 65535) (hbpp : src.bpp ≤ 3)
    (ho : (jpegCompress t src groups length quality realloc).1.overflow = false) :
    WellFormed (jpegCompress t src groups length quality realloc).1.buf := by
  obtain ⟨bytes, hbuf⟩ := compress_buf ho
  have hb := headerBpp_cases hbpp
  refine ⟨headerSegments src.w src.h (headerBpp src.bpp) (subsample quality) (jpegInit t quality),
    escape 255 0 bytes, rfl, fun s hs => ⟨?_, ?_⟩, escaped_escape (by decide) bytes, ?_⟩
  · exact headerSegments_ok _ _ _ _ _ hb (by omega) (by omega) s hs
  · have hmem := List.mem_map_of_mem (f := fun s : Segment => s.payload.length + 2) hs
    rw [length_payload_headerSegments _ _ _ _ _ hb] at hmem
    rcases hb with hb | hb <;> rw [hb] at hmem <;> simp at hmem <;> omega
  · rw [hbuf, headerOf, headerChunks_flatten _ _ _ _ _ hb]

/-! ### Reading it -/

/-- A file that has been read up to the end of `pre`. -/
def fileAt (pre post : List UInt8) : File := ⟨pre ++ post, pre.length⟩

theorem fileAt_nil (bytes : List UInt8) : (⟨bytes, 0⟩ : File) = fileAt [] bytes := rfl

theorem readData_at (pre data post : List UInt8) :
    readData (fileAt pre (data ++ post)) data.length = .ok (data, fileAt (pre ++ data) post) := by
  simp [readData, fileAt]

theorem readWord_at (pre post : List UInt8) {n : ℕ} (hn : n < 65536) :
    readWord (fileAt pre (word n ++ post)) = .ok (rev16 n, fileAt (pre ++ word n) post) := by
  have h := readData_at pre (word n) post
  rw [show (word n).length = 2 from rfl] at h
  rw [readWord, h, Except.map]
  simp only [word, List.getD_cons_zero, List.getD_cons_succ, UInt8.toNat_ofNat', rev16]
  rw [Nat.mod_eq_of_lt (by omega), Nat.mod_mod_of_dvd _ (by decide), Nat.add_comm]

theorem rev16_rev16 {n : ℕ} (hn : n < 65536) : rev16 (rev16 n) = n := by
  unfold rev16
  omega

theorem marker_eq_word (m : UInt8) : [0xFF, m] = word (0xFF00 + m.toNat) := by
  have hm := m.toNat_lt
  rw [word, show (0xFF00 + m.toNat) / 256 = 255 by omega, show (0xFF00 + m.toNat) % 256 = m.toNat by omega,
    UInt8.ofNat_toNat]
  rfl

theorem readGeometry_standalone (fuel : ℕ) (pre post : List UInt8) {m : UInt8}
    (hm : isStandalone (0xFF00 + m.toNat)) :
    jpegReadGeometry (fuel + 1) (fileAt pre ([0xFF, m] ++ post)) =
      jpegReadGeometry fuel (fileAt (pre ++ [0xFF, m]) post) := by
  have hlt := m.toNat_lt
  rw [marker_eq_word, jpegReadGeometry, readWord_at _ _ (by omega)]
  dsimp only
  rw [rev16_rev16 (by omega), if_pos hm]

/-- Other segments than a frame header are passed over. -/
theorem readGeometry_segment (fuel : ℕ) (pre post : List UInt8) {s : Segment}
    (hm : isSegment (0xFF00 + s.marker.toNat) ∧ ¬isStandalone (0xFF00 + s.marker.toNat) ∧
      ¬isFrame (0xFF00 + s.marker.toNat))
    (hs : s.payload.length + 2 < 65536) (hpre : (pre ++ s.bytes).length < 2 ^ 32) :
    jpegReadGeometry (fuel + 1) (fileAt pre (s.bytes ++ post)) =
      jpegReadGeometry fuel (fileAt (pre ++ s.bytes) post) := by
  have hlt := s.marker.toNat_lt
  rw [Segment.bytes, marker_eq_word] at hpre ⊢
  simp only [List.append_assoc] at hpre ⊢
  rw [jpegReadGeometry, readWord_at _ _ (by omega)]
  dsimp only
  rw [rev16_rev16 (by omega), if_neg hm.2.1, if_pos hm.1, readWord_at _ _ hs]
  dsimp only
  rw [if_neg hm.2.2, rev16_rev16 hs]
  congr 1
  simp only [List.length_append] at hpre
  simp [fileSeek, fileAt, word] at hpre ⊢
  omega

/-- The frame header ends the loop. Its height is taken for the width and its width for the height. -/
theorem readGeometry_frame (fuel : ℕ) (pre post : List UInt8) {bits : UInt8} {height width : ℕ}
    {comps : List (UInt8 × UInt8 × UInt8)} (hs : (Segment.sof0 bits height width comps).payload.length + 2 < 65536)
    (hh : height < 65536) (hw : width < 65536) :
    jpegReadGeometry (fuel + 1) (fileAt pre ((Segment.sof0 bits height width comps).bytes ++ post)) =
      some (.ok ⟨height, width,
        (pre ++ ((Segment.sof0 bits height width comps).bytes ++ post)).length⟩) := by
  have hsof : isFrame 0xFFC0 ∧ isSegment 0xFFC0 ∧ ¬isStandalone 0xFFC0 := by decide
  obtain ⟨tail, hbytes⟩ : ∃ tail, (Segment.sof0 bits height width comps).bytes ++ post =
      word 0xFFC0 ++ (word ((Segment.sof0 bits height width comps).payload.length + 2) ++
        ([bits] ++ (word height ++ (word width ++ tail)))) :=
    ⟨UInt8.ofNat comps.length :: ((comps.flatMap fun (i, hv, q) => [i, hv, q]) ++ post), by
      rw [Segment.bytes, Segment.marker, marker_eq_word]
      simp [Segment.payload]⟩
  have hframe : ∀ pre, readFrame (fileAt pre ([bits] ++ (word height ++ (word width ++ tail)))) =
      .ok ⟨height, width, (pre ++ ([bits] ++ (word height ++ (word width ++ tail)))).length⟩ := by
    intro pre
    have hb := readData_at pre [bits] (word height ++ (word width ++ tail))
    rw [List.length_singleton] at hb
    simp only [readFrame, hb, bind, Except.bind, readWord_at _ _ hh, readWord_at _ _ hw, rev16_rev16 hh,
      rev16_rev16 hw, pure, Except.pure]
    simp [fileAt]
  rw [hbytes, jpegReadGeometry, readWord_at _ _ (by decide)]
  dsimp only
  rw [rev16_rev16 (by decide), if_neg hsof.2.2, if_pos hsof.2.1, readWord_at _ _ hs]
  dsimp only
  rw [if_pos hsof.1, hframe]
  simp

theorem Segment.length_bytes (s : Segment) : s.bytes.length = s.payload.length + 4 := by
  simp [Segment.bytes, word]

/-- The header of an image is read with the two sizes swapped, whatever comes behind it. -/
theorem header_readsGeometry {w h bpp : ℕ} {jpegSubsample : UInt8} {t : QuantTables}
    (hbpp : bpp = 1 ∨ bpp = 2) (hw : w < 65536) (hh : h < 65536) (post : List UInt8) :
    ReadsGeometry ⟨(headerChunks w h bpp jpegSubsample t).flatten ++ post, 0⟩
      ⟨h, w, ((headerChunks w h bpp jpegSubsample t).flatten ++ post).length⟩ := by
  have hlen := length_payload_headerSegments w h bpp jpegSubsample t hbpp
  rw [headerChunks_flatten _ _ _ _ _ hbpp]
  simp only [headerSegments, List.map_cons, List.cons.injEq] at hlen ⊢
  obtain ⟨h1, h2, h3, -⟩ := hlen
  have h2' : bpp * 65 + 2 ≤ 132 := by omega
  have h3' : (if bpp = 1 then 1 else 3) * 3 + 8 ≤ 17 := by split_ifs <;> omega
  refine ⟨4, fun fuel hfuel => ?_⟩
  obtain ⟨k, rfl⟩ : ∃ k, fuel = k + 4 := ⟨fuel - 4, by omega⟩
  simp only [List.flatMap_cons, List.append_assoc]
  have happ : isSegment 0xFFE0 ∧ ¬isStandalone 0xFFE0 ∧ ¬isFrame 0xFFE0 := by decide
  have hdqt : isSegment 0xFFDB ∧ ¬isStandalone 0xFFDB ∧ ¬isFrame 0xFFDB := by decide
  -- start of image, application data, quantisation tables, frame header
  rw [fileAt_nil, readGeometry_standalone (k + 3) _ _ (by decide),
    readGeometry_segment (k + 2) _ _ (s := .app0 _) happ (by omega),
    readGeometry_segment (k + 1) _ _ (s := .dqt _) hdqt (by omega), readGeometry_frame k _ _ (by omega) hh hw]
  · simp
  · simp only [List.length_append, Segment.length_bytes, List.length_cons, List.length_nil]
    omega
  · simp only [List.length_append, Segment.length_bytes, List.length_cons, List.length_nil]
    omega

theorem compress_readsGeometry {t : QuantTables} {src : Source} {groups : List (List DataUnit)}
    {length quality : ℕ} {realloc : Bool} (hw : src.w ≤ 65535) (hh : src.h ≤ 65535) (hbpp : src.bpp ≤ 3)
    (ho : (jpegCompress t src groups length quality realloc).1.overflow = false) :
    ReadsGeometry ⟨(jpegCompress t src groups length quality realloc).1.buf, 0⟩
      ⟨src.h, src.w, (jpegCompress t src groups length quality realloc).1.buf.length⟩ := by
  obtain ⟨bytes, hbuf⟩ := compress_buf ho
  rw [hbuf, headerOf, List.append_assoc]
  exact header_readsGeometry (headerBpp_cases hbpp) (by omega) (by omega) _

/-- The geometry comes back exactly when the image is square. -/
theorem jpeg_geometry_roundtrip_iff (t : QuantTables) (src : Source) (groups : List (List DataUnit))
    (length quality : ℕ) (realloc : Bool) (hw : 1 ≤ src.w ∧ src.w ≤ 65535)
    (hh : 1 ≤ src.h ∧ src.h ≤ 65535) (hbpp : src.bpp ≤ 3) (_hq : 1 ≤ quality ∧ quality ≤ 100)
    (ho : (jpegCompress t src groups length quality realloc).1.overflow = false) :
    (WellFormed (jpegCompress t src groups length quality realloc).1.buf ∧
      ∃ size, ReadsGeometry ⟨(jpegCompress t src groups length quality realloc).1.buf, 0⟩
        ⟨src.w, src.h, size⟩) ↔ src.w = src.h := by
  have hread := compress_readsGeometry hw.2 hh.2 hbpp ho
  constructor
  · rintro ⟨-, size, h⟩
    exact congrArg Geometry.w (h.unique hread)
  · intro heq
    rw [← heq] at hread ⊢
    exact ⟨compress_wellFormed hw.2 hh.2 hbpp ho, _, hread⟩

/-- The tables before the first image. -/
def zeroTables : QuantTables := ⟨0, List.replicate 64 0, List.replicate 64 0, rfl, rfl⟩

/-- A grey image whose pixels are all 128: one block of zeroes. -/
def greyBlock : List (List DataUnit) := [[(.y, List.replicate 64 0)]]

/-- Four grey blocks, of different levels and with an edge each. -/
def fourBlocks : List (List DataUnit) :=
  [-9, 4, 4, -9].map fun level => [(.y, [level, 2, 0, -1] ++ List.replicate 60 0)]

theorem jpeg_geometry_square :
    (jpegCompress zeroTables ⟨16, 16, 1⟩ fourBlocks 1024 90 false).1.overflow = false ∧
    WellFormed (jpegCompress zeroTables ⟨16, 16, 1⟩ fourBlocks 1024 90 false).1.buf ∧
    ∃ size, ReadsGeometry ⟨(jpegCompress zeroTables ⟨16, 16, 1⟩ fourBlocks 1024 90 false).1.buf, 0⟩
      ⟨16, 16, size⟩ := by
  have ho : (jpegCompress zeroTables ⟨16, 16, 1⟩ fourBlocks 1024 90 false).1.overflow = false := by
    decide +kernel
  exact ⟨ho, (jpeg_geometry_roundtrip_iff zeroTables ⟨16, 16, 1⟩ fourBlocks 1024 90 false (by decide)
    (by decide) (by decide) (by decide) ho).mpr rfl⟩

/-- An image of two pixels side by side is read as one of two pixels on top of each other. -/
theorem jpeg_geometry_two_by_one :
    (jpegCompress zeroTables ⟨2, 1, 1⟩ greyBlock 1024 50 false).1.overflow = false ∧
    ¬(WellFormed (jpegCompress zeroTables ⟨2, 1, 1⟩ greyBlock 1024 50 false).1.buf ∧
      ∃ size, ReadsGeometry ⟨(jpegCompress zeroTables ⟨2, 1, 1⟩ greyBlock 1024 50 false).1.buf, 0⟩
        ⟨2, 1, size⟩) := by
  have ho : (jpegCompress zeroTables ⟨2, 1, 1⟩ greyBlock 1024 50 false).1.overflow = false := by
    decide +kernel
  refine ⟨ho, fun ⟨_, size, h⟩ => ?_⟩
  have hread := h.unique (compress_readsGeometry (by decide) (by decide) (by decide) ho)
  exact absurd (show 2 = 1 from congrArg Geometry.w hread) (by decide)

end OpenMV.Jpeg
