import OpenMV.Io.Mjpeg
import OpenMV.Schemes.Riff

/-! The chunks of MJPEG files | scheme:codec | source:src/src/openmv/omv/img/mjpeg.c

    The header is a list of words of which some are replaced when the file is closed; what follows it is
    one chunk for each frame. So the file is the header with the final words and the chunks, and that is
    what the chunks of an AVI file are encoded as. -/

namespace OpenMV.Io
open Schemes Vision Jpeg

/-! ### Writing -/

/-- Words of four bytes each. -/
def Words (ws : List (List UInt8)) : Prop := ∀ w ∈ ws, w.length = 4

theorem Words.length_flatten : ∀ {ws : List (List UInt8)}, Words ws → ws.flatten.length = 4 * ws.length
  | [], _ => rfl
  | w :: ws, h => by
    rw [List.flatten_cons, List.length_append, h w (.head _), List.length_cons,
      Words.length_flatten fun w hw => h w (.tail _ hw)]
    omega

theorem Words.set {ws : List (List UInt8)} (h : Words ws) (i : ℕ) {x : List UInt8} (hx : x.length = 4) :
    Words (ws.set i x) := by
  intro w hw
  rcases List.mem_or_eq_of_mem_set hw with hw | rfl
  · exact h w hw
  · exact hx

/-- A word that is written over the header replaces one of its words. -/
theorem writeData_word {x : List UInt8} (hx : x.length = 4) (rest : List UInt8) :
    ∀ {ws : List (List UInt8)} {i : ℕ}, Words ws → i < ws.length →
    (ws.flatten ++ rest).take (i * 4) ++ x ++ (ws.flatten ++ rest).drop (i * 4 + x.length) =
      (ws.set i x).flatten ++ rest
  | w :: ws, 0, h, _ => by
    have hw := h w (.head _)
    rw [List.set_cons_zero, List.flatten_cons, List.flatten_cons, Nat.zero_mul, List.take_zero,
      List.nil_append, Nat.zero_add, List.append_assoc, List.append_assoc,
      List.drop_left' (hw.trans hx.symm)]
  | w :: ws, i + 1, h, hi => by
    have hw := h w (.head _)
    have hws : Words ws := fun w hw => h w (.tail _ hw)
    have ih := writeData_word hx rest hws (Nat.lt_of_succ_lt_succ hi)
    have htake : (i + 1) * 4 = w.length + i * 4 := by omega
    rw [List.set_cons_succ, List.flatten_cons, List.flatten_cons, List.append_assoc w, htake,
      List.take_length_add_append, Nat.add_assoc, List.drop_length_add_append, List.append_assoc,
      List.append_assoc w, List.append_assoc w, ← ih, List.append_assoc]

/-- The other bytes stay. -/
theorem getElem?_set_flatten {x : List UInt8} (hx : x.length = 4) (rest : List UInt8) :
    ∀ {ws : List (List UInt8)} {i k : ℕ}, Words ws → k / 4 ≠ i →
    ((ws.set i x).flatten ++ rest)[k]? = (ws.flatten ++ rest)[k]?
  | [], _, _, _, _ => rfl
  | w :: ws, 0, k, h, hk => by
    have hw := h w (.head _)
    rw [List.set_cons_zero, List.flatten_cons, List.flatten_cons, List.append_assoc, List.append_assoc,
      List.getElem?_append_right (show x.length ≤ k by omega),
      List.getElem?_append_right (show w.length ≤ k by omega), hw, hx]
  | w :: ws, i + 1, k, h, hk => by
    have hw := h w (.head _)
    rw [List.set_cons_succ, List.flatten_cons, List.flatten_cons, List.append_assoc, List.append_assoc]
    by_cases hlt : k < 4
    · rw [List.getElem?_append_left (by omega), List.getElem?_append_left (by omega)]
    · rw [List.getElem?_append_right (show w.length ≤ k by omega),
        List.getElem?_append_right (show w.length ≤ k by omega), hw]
      exact getElem?_set_flatten hx rest (fun w hw => h w (.tail _ hw)) (by omega)

/-- A word of the header is read from its place. -/
theorem rd32_word (rest : List UInt8) (n : ℕ) : ∀ {ws : List (List UInt8)} {i : ℕ}, Words ws →
    ws[i]? = some (le32 n) → rd32 ((ws.flatten ++ rest).drop (i * 4)) = n % 4294967296
  | w :: ws, 0, h, hi => by
    obtain rfl := Option.some.inj hi
    rw [Nat.zero_mul, List.drop_zero, List.flatten_cons, List.append_assoc, rd32_le32_append]
  | w :: ws, i + 1, h, hi => by
    have hw := h w (.head _)
    rw [List.flatten_cons, List.append_assoc, show (i + 1) * 4 = w.length + i * 4 by omega,
      List.drop_length_add_append]
    exact rd32_word rest n (fun w hw => h w (.tail _ hw)) hi

/-! ### Closing -/

/-- The words that are filled in, with their numbers. -/
def patches (m : Mjpeg) (fps : Fps) : List (ℕ × ℕ) :=
  [(1, 216 + m.frames * 8 + m.bytes), (8, fps.microsField), (9, fps.perSecondField m.frames m.bytes),
   (12, m.frames), (19, uint32 fps.rate), (21, fps.lengthField m.frames), (33, uint32 fps.rate),
   (35, fps.lengthField m.frames), (54, 4 + m.frames * 8 + m.bytes)]

def patch (ws : List (List UInt8)) (ps : List (ℕ × ℕ)) : List (List UInt8) :=
  ps.foldl (fun ws p => ws.set p.1 (le32 p.2)) ws

theorem Words.patch : ∀ {ws : List (List UInt8)}, Words ws → ∀ ps : List (ℕ × ℕ), Words (Io.patch ws ps)
  | _, h, [] => h
  | _, h, p :: ps => Words.patch (h.set p.1 (length_le32 p.2)) ps

theorem length_patch : ∀ (ps : List (ℕ × ℕ)) (ws : List (List UInt8)), (patch ws ps).length = ws.length
  | [], _ => rfl
  | _ :: ps, _ => (length_patch ps _).trans List.length_set

theorem getElem?_patch_flatten {rest : List UInt8} {k : ℕ} : ∀ {ps : List (ℕ × ℕ)}
    {ws : List (List UInt8)}, Words ws → k / 4 ∉ ps.map Prod.fst →
    ((patch ws ps).flatten ++ rest)[k]? = (ws.flatten ++ rest)[k]?
  | [], _, _, _ => rfl
  | p :: ps, ws, h, hk => by
    rw [List.map_cons, List.mem_cons, not_or] at hk
    have hset := h.set p.1 (length_le32 p.2)
    exact (getElem?_patch_flatten hset hk.2).trans (getElem?_set_flatten (length_le32 p.2) rest h hk.1)

theorem getElem?_patch_of_notMem {i : ℕ} : ∀ {ps : List (ℕ × ℕ)} {ws : List (List UInt8)},
    i ∉ ps.map Prod.fst → (patch ws ps)[i]? = ws[i]?
  | [], _, _ => rfl
  | p :: ps, ws, h => by
    rw [List.map_cons, List.mem_cons, not_or] at h
    exact (getElem?_patch_of_notMem h.2).trans (List.getElem?_set_ne (Ne.symm h.1))

theorem getElem?_patch_of_mem {p : ℕ × ℕ} : ∀ {ps : List (ℕ × ℕ)} {ws : List (List UInt8)},
    (ps.map Prod.fst).Nodup → p ∈ ps → p.1 < ws.length → (patch ws ps)[p.1]? = some (le32 p.2)
  | q :: ps, ws, hnd, hp, hlt => by
    rw [List.map_cons, List.nodup_cons] at hnd
    rcases List.mem_cons.1 hp with rfl | hp
    · exact (getElem?_patch_of_notMem hnd.1).trans (List.getElem?_set_self hlt)
    · show (patch (ws.set q.1 (le32 q.2)) ps)[p.1]? = _
      exact getElem?_patch_of_mem hnd.2 hp (by rw [List.length_set]; exact hlt)

theorem writeLong_word {ws : List (List UInt8)} {rest : List UInt8} {i : ℕ} (hws : Words ws)
    (hi : i < ws.length) (v : ℕ) :
    writeLong ⟨ws.flatten ++ rest, i * 4⟩ v = ⟨(ws.set i (le32 v)).flatten ++ rest, (i + 1) * 4⟩ := by
  unfold writeLong writeData
  rw [WFil.mk.injEq]
  exact ⟨writeData_word (length_le32 v) rest hws hi, by rw [length_le32]; ring⟩

/-- Closing fills in the words and changes nothing else. -/
theorem mjpegClose_bytes {m : Mjpeg} {ws : List (List UInt8)} {rest : List UInt8} (hws : Words ws)
    (hlen : ws.length = 56) (hfp : m.fp.bytes = ws.flatten ++ rest) (fps : Fps) :
    (mjpegClose m fps).bytes = (patch ws (patches m fps)).flatten ++ rest := by
  have hset : ∀ {ws : List (List UInt8)} (i v : ℕ), Words ws ∧ ws.length = 56 →
      Words (ws.set i (le32 v)) ∧ (ws.set i (le32 v)).length = 56 := fun i v h =>
    ⟨h.1.set i (length_le32 v), List.length_set.trans h.2⟩
  have h0 : Words ws ∧ ws.length = 56 := ⟨hws, hlen⟩
  have h1 := hset 1 (216 + m.frames * 8 + m.bytes) h0
  have h2 := hset 8 fps.microsField h1
  have h3 := hset 9 (fps.perSecondField m.frames m.bytes) h2
  have h4 := hset 12 m.frames h3
  have h5 := hset 19 (uint32 fps.rate) h4
  have h6 := hset 21 (fps.lengthField m.frames) h5
  have h7 := hset 33 (uint32 fps.rate) h6
  have h8 := hset 35 (fps.lengthField m.frames) h7
  unfold mjpegClose
  simp only [fileSeek, hfp]
  rw [writeLong_word h0.1 (by omega), writeLong_word h1.1 (by omega), writeLong_word h2.1 (by omega),
    writeLong_word h3.1 (by omega), writeLong_word h4.1 (by omega), writeLong_word h5.1 (by omega),
    writeLong_word h6.1 (by omega), writeLong_word h7.1 (by omega), writeLong_word h8.1 (by omega)]
  rfl

/-! ### Frames -/

/-- The size in the file of a frame of `n` bytes. -/
def frameSize (n : ℕ) : ℕ := uint32 (int32 (n + framePad n))

/-- It is filled up to words, also where the sum wraps around. -/
theorem frameSize_spec {n : ℕ} (hn : n < 2147483648) :
    frameSize n % 4 = 0 ∧ n ≤ frameSize n ∧ frameSize n ≤ n + 6 := by
  unfold frameSize framePad
  by_cases hlt : n ≤ 2147483644
  · have h1 : int32 ((n : ℤ) + 3) = n + 3 := int32_of_mem (by omega) (by omega)
    have h2 : int32 (((n : ℤ) + 3) / 4 * 4) = (n + 3) / 4 * 4 := int32_of_mem (by omega) (by omega)
    have h3 : int32 (((n : ℤ) + 3) / 4 * 4 - n) = (n + 3) / 4 * 4 - n :=
      int32_of_mem (by omega) (by omega)
    rw [h1, Int.tdiv_eq_ediv_of_nonneg (by omega), h2, h3, int32_of_mem (by omega) (by omega)]
    unfold uint32
    omega
  · have hcases : n = 2147483645 ∨ n = 2147483646 ∨ n = 2147483647 := by omega
    rcases hcases with rfl | rfl | rfl <;> decide

/-- The JPEG bytes of a frame. -/
def Shot.stream (t : QuantTables) (s : Shot) : List UInt8 :=
  match s.frame with
  | .jpeg data _ _ => data
  | .image src groups _ _ => completeStream t src groups.flatten s.quality

/-- The tables after it. -/
def Shot.tables (t : QuantTables) (s : Shot) : QuantTables :=
  match s.frame with
  | .jpeg _ _ _ => t
  | .image _ _ _ _ => jpegInit t s.quality

/-- The frame is JPEG data, or `jpeg_compress` has room for it without moving the buffer. -/
def Shot.Fits (t : QuantTables) (s : Shot) : Prop :=
  match s.frame with
  | .jpeg _ _ _ => True
  | .image src groups size _ => (jpegCompress t src groups size s.quality true).1.length = size

/-- The JPEG bytes of all frames. -/
def streams : QuantTables → List Shot → List (List UInt8)
  | _, [] => []
  | t, s :: ss => s.stream t :: streams (s.tables t) ss

def AllFit : QuantTables → List Shot → Prop
  | _, [] => True
  | t, s :: ss => s.Fits t ∧ AllFit (s.tables t) ss

/-- What is stored for a frame: its bytes, and others to fill them up. -/
def IsPayload (stream payload : List UInt8) : Prop := payload.length % 4 = 0 ∧ stream <+: payload

/-- The bytes of a chunk for a frame. -/
def frameBytes (payload : List UInt8) : List UInt8 :=
  fourcc '0' '0' 'd' 'c' ++ le32 payload.length ++ payload

theorem isPayload_range {stream : List UInt8} (hlt : stream.length < 2147483648) (past : ℕ → UInt8) :
    IsPayload stream ((List.range (frameSize stream.length)).map fun k => stream.getD k (past k)) := by
  obtain ⟨hmod, hle, -⟩ := frameSize_spec hlt
  refine ⟨by rw [List.length_map, List.length_range]; exact hmod, ?_⟩
  rw [List.prefix_iff_eq_take]
  apply List.ext_getElem
  · rw [List.length_take, List.length_map, List.length_range, Nat.min_eq_left hle]
  · intro k h1 h2
    rw [List.getElem_take, List.getElem_map, List.getElem_range, List.getD_eq_getElem _ _ h1]

theorem writeFrame_eq {m : Mjpeg} (hend : m.fp.pos = m.fp.bytes.length) (n : ℕ) (mem : ℕ → UInt8) :
    let payload := (List.range (frameSize n)).map mem
    let data := m.fp.bytes ++ (le32 payload.length ++ payload)
    writeFrame m n mem =
      { m with fp := ⟨data, data.length⟩, bytes := (m.bytes + payload.length) % 4294967296 } := by
  intro payload data
  have hlen : payload.length = frameSize n := by rw [List.length_map, List.length_range]
  unfold writeFrame
  dsimp only
  rw [writeLong, writeData_atEnd hend, writeData_atEnd rfl]
  simp only [data, hlen, List.append_assoc]
  rfl

/-- What a frame adds to the file. -/
structure Added (m : Mjpeg) (s : Shot) (payload : List UInt8) (m' : Mjpeg) : Prop where
  atEnd : m'.fp.pos = m'.fp.bytes.length
  file : m'.fp.bytes = m.fp.bytes ++ frameBytes payload
  frames : m'.frames = (m.frames + 1) % 4294967296
  bytes : m'.bytes = (m.bytes + payload.length) % 4294967296
  tables : m'.tables = s.tables m.tables
  length : payload.length = frameSize (s.stream m.tables).length
  payload : IsPayload (s.stream m.tables) payload

theorem mjpegAddFrame_ok {m : Mjpeg} {s : Shot} (hend : m.fp.pos = m.fp.bytes.length)
    (hfit : s.Fits m.tables) : ∃ payload m',
    mjpegAddFrame m s.frame s.quality s.past = .ok m' ∧ Added m s payload m' := by
  obtain ⟨frame, quality, past⟩ := s
  have hstart := writeData_atEnd hend (fourcc '0' '0' 'd' 'c')
  unfold mjpegAddFrame
  rw [hstart]
  cases frame with
  | jpeg data isJpeg isInt =>
    refine ⟨(List.range (frameSize data.length)).map fun k => data.getD k (past k), _, rfl, ?_⟩
    rw [writeFrame_eq rfl]
    refine ⟨rfl, ?_, rfl, rfl, rfl, by simp [Shot.stream], isPayload_range isInt past⟩
    rw [frameBytes, List.append_assoc, List.append_assoc]
  | image src groups size isInt =>
    obtain ⟨hset, hbuf, hle⟩ := compress_grows m.tables src groups size quality
    have hfit : (jpegCompress m.tables src groups size quality true).1.length = size := hfit
    have hlt := (hle hfit).trans_lt isInt
    rw [hbuf] at hlt
    refine ⟨(List.range (frameSize (completeStream m.tables src groups.flatten quality).length)).map
      fun k => (completeStream m.tables src groups.flatten quality).getD k (past k), _,
      if_neg (not_not.2 hfit), ?_⟩
    dsimp only
    rw [hset, if_pos rfl, hbuf, writeFrame_eq rfl]
    refine ⟨rfl, ?_, rfl, rfl, rfl, by simp [Shot.stream], isPayload_range hlt past⟩
    rw [frameBytes, List.append_assoc, List.append_assoc]

/-- What all frames add. -/
structure AddedAll (m : Mjpeg) (ss : List Shot) (payloads : List (List UInt8)) (m' : Mjpeg) : Prop where
  file : m'.fp.bytes = m.fp.bytes ++ payloads.flatMap frameBytes
  frames : m'.frames = (m.frames + ss.length) % 4294967296
  bytes : m'.bytes = (m.bytes + (payloads.map List.length).sum) % 4294967296
  lengths : payloads.map List.length = (streams m.tables ss).map fun f => frameSize f.length
  payloads : List.Forall₂ IsPayload (streams m.tables ss) payloads

theorem mjpegAddFrames_ok : ∀ {ss : List Shot} {m : Mjpeg}, m.fp.pos = m.fp.bytes.length →
    m.frames < 4294967296 → m.bytes < 4294967296 → AllFit m.tables ss →
    ∃ payloads m', mjpegAddFrames m ss = .ok m' ∧ AddedAll m ss payloads m'
  | [], m, _, hf, hb, _ => by
    refine ⟨[], m, rfl, ?_, ?_, ?_, by simp [streams], .nil⟩
    · rw [List.flatMap_nil, List.append_nil]
    · exact (Nat.mod_eq_of_lt hf).symm
    · exact (Nat.mod_eq_of_lt hb).symm
  | s :: ss, m, hend, _, _, hfit => by
    obtain ⟨payload, m1, hadd, h1⟩ := mjpegAddFrame_ok hend hfit.1
    obtain ⟨payloads, m2, hrest, h2⟩ := mjpegAddFrames_ok h1.atEnd
      (by rw [h1.frames]; exact Nat.mod_lt _ (by decide))
      (by rw [h1.bytes]; exact Nat.mod_lt _ (by decide)) (by rw [h1.tables]; exact hfit.2)
    refine ⟨payload :: payloads, m2, ?_, ?_, ?_, ?_, ?_, ?_⟩
    · rw [mjpegAddFrames, hadd]
      exact hrest
    · rw [h2.file, h1.file, List.flatMap_cons, List.append_assoc]
    · rw [h2.frames, h1.frames, List.length_cons, Nat.mod_add_mod]
      congr 1
      omega
    · rw [h2.bytes, h1.bytes, List.map_cons, List.sum_cons, Nat.mod_add_mod, Nat.add_assoc]
    · rw [List.map_cons, h2.lengths, h1.length, h1.tables, streams, List.map_cons]
    · have hp := h2.payloads
      rw [h1.tables] at hp
      exact .cons h1.payload hp

/-! ### The chunks -/

/-- One chunk for each frame. -/
def frameChunks : List (List UInt8) → Riff.Chunks
  | [] => .nil
  | p :: ps => .leaf (fourcc '0' '0' 'd' 'c') p (frameChunks ps)

/-- The chunks of an AVI file with one stream. -/
def aviChunks (avih strh strf : List UInt8) (payloads : List (List UInt8)) : Riff.Chunks :=
  .list (fourcc 'R' 'I' 'F' 'F') (fourcc 'A' 'V' 'I' ' ')
    (.list (fourcc 'L' 'I' 'S' 'T') (fourcc 'h' 'd' 'r' 'l')
      (.leaf (fourcc 'a' 'v' 'i' 'h') avih
        (.list (fourcc 'L' 'I' 'S' 'T') (fourcc 's' 't' 'r' 'l')
          (.leaf (fourcc 's' 't' 'r' 'h') strh (.leaf (fourcc 's' 't' 'r' 'f') strf .nil)) .nil))
      (.list (fourcc 'L' 'I' 'S' 'T') (fourcc 'm' 'o' 'v' 'i') (frameChunks payloads) .nil)) .nil

theorem frameChunks_ok : ∀ payloads, (frameChunks payloads).Ok
  | [] => trivial
  | _ :: ps => ⟨rfl, by decide, frameChunks_ok ps⟩

theorem aviChunks_ok (avih strh strf : List UInt8) (payloads : List (List UInt8)) :
    (aviChunks avih strh strf payloads).Ok := by
  refine ⟨rfl, by decide, rfl, ⟨rfl, by decide, rfl, ⟨rfl, by decide, ?_⟩, ?_⟩, trivial⟩
  · exact ⟨rfl, by decide, rfl, ⟨rfl, by decide, rfl, by decide, trivial⟩, trivial⟩
  · exact ⟨rfl, by decide, rfl, frameChunks_ok payloads, trivial⟩

theorem encode_frameChunks : ∀ {payloads : List (List UInt8)}, (∀ p ∈ payloads, p.length % 4 = 0) →
    Riff.encode (frameChunks payloads) = payloads.flatMap frameBytes
  | [], _ => rfl
  | p :: ps, h => by
    have hp := h p (.head _)
    rw [frameChunks, Riff.encode, encode_frameChunks fun p hp => h p (.tail _ hp), List.flatMap_cons,
      show p.length % 2 = 0 by omega, frameBytes, List.replicate_zero, List.append_nil]

theorem length_flatMap_frameBytes : ∀ payloads : List (List UInt8),
    (payloads.flatMap frameBytes).length = payloads.length * 8 + (payloads.map List.length).sum
  | [] => rfl
  | p :: ps => by
    have hp : (frameBytes p).length = 8 + p.length := by
      rw [frameBytes, List.length_append, List.length_append, length_le32]
      rfl
    rw [List.flatMap_cons, List.length_append, hp, length_flatMap_frameBytes ps, List.length_cons,
      List.map_cons, List.sum_cons]
    ring

/-- The bytes of the chunks, with their sizes. -/
theorem encode_aviChunks {avih strh strf : List UInt8} {payloads : List (List UInt8)} (h1 : avih.length = 56)
    (h2 : strh.length = 56) (h3 : strf.length = 40) (hp : ∀ p ∈ payloads, p.length % 4 = 0) :
    Riff.encode (aviChunks avih strh strf payloads) =
      [fourcc 'R' 'I' 'F' 'F', le32 (216 + payloads.length * 8 + (payloads.map List.length).sum),
        fourcc 'A' 'V' 'I' ' ', fourcc 'L' 'I' 'S' 'T', le32 192, fourcc 'h' 'd' 'r' 'l',
        fourcc 'a' 'v' 'i' 'h', le32 56, avih, fourcc 'L' 'I' 'S' 'T', le32 116, fourcc 's' 't' 'r' 'l',
        fourcc 's' 't' 'r' 'h', le32 56, strh, fourcc 's' 't' 'r' 'f', le32 40, strf,
        fourcc 'L' 'I' 'S' 'T', le32 (4 + payloads.length * 8 + (payloads.map List.length).sum),
        fourcc 'm' 'o' 'v' 'i'].flatten ++ payloads.flatMap frameBytes := by
  have hcc : ∀ a b c d, (fourcc a b c d).length = 4 := fun _ _ _ _ => rfl
  simp only [aviChunks, Riff.encode, encode_frameChunks hp, List.length_append, h1, h2, h3, hcc,
    length_le32, length_flatMap_frameBytes, Nat.reduceMod, List.replicate_zero, List.append_nil,
    ← Nat.add_assoc, Nat.reduceAdd, List.flatten_cons, List.flatten_nil, List.append_assoc]

/-! ### The file -/

/-- The data of `avih`, `strh` and `strf` in a closed file. -/
def avihWords (width height : ℤ) (m : Mjpeg) (fps : Fps) : List (List UInt8) :=
  [le32 fps.microsField, le32 (fps.perSecondField m.frames m.bytes), le32 4, le32 0, le32 m.frames, le32 0,
   le32 1, le32 0, le32 (uint32 width), le32 (uint32 height), le32 1000, le32 (uint32 fps.rate), le32 0,
   le32 (fps.lengthField m.frames)]

def strhWords (m : Mjpeg) (fps : Fps) : List (List UInt8) :=
  [fourcc 'v' 'i' 'd' 's', fourcc 'M' 'J' 'P' 'G', le32 0, le16 0 ++ le16 0, le32 0, le32 1000,
   le32 (uint32 fps.rate), le32 0, le32 (fps.lengthField m.frames), le32 0, le32 10000, le32 0,
   le16 0 ++ le16 0, le16 0 ++ le16 0]

def strfWords (width height : ℤ) : List (List UInt8) :=
  [le32 40, le32 (uint32 width), le32 (uint32 height), le16 1 ++ le16 24, fourcc 'M' 'J' 'P' 'G', le32 0,
   le32 0, le32 0, le32 0, le32 0]

theorem words_mjpegHeader (width height : ℤ) : Words (mjpegHeader width height) := by
  unfold Words mjpegHeader
  simp only [List.forall_mem_cons]
  simp [fourcc]

theorem patch_mjpegHeader (width height : ℤ) (m : Mjpeg) (fps : Fps) :
    (patch (mjpegHeader width height) (patches m fps)).flatten =
      [fourcc 'R' 'I' 'F' 'F', le32 (216 + m.frames * 8 + m.bytes), fourcc 'A' 'V' 'I' ' ',
        fourcc 'L' 'I' 'S' 'T', le32 192, fourcc 'h' 'd' 'r' 'l', fourcc 'a' 'v' 'i' 'h', le32 56,
        (avihWords width height m fps).flatten, fourcc 'L' 'I' 'S' 'T', le32 116, fourcc 's' 't' 'r' 'l',
        fourcc 's' 't' 'r' 'h', le32 56, (strhWords m fps).flatten, fourcc 's' 't' 'r' 'f', le32 40,
        (strfWords width height).flatten, fourcc 'L' 'I' 'S' 'T', le32 (4 + m.frames * 8 + m.bytes),
        fourcc 'm' 'o' 'v' 'i'].flatten := by
  have hwords : patch (mjpegHeader width height) (patches m fps) =
      [fourcc 'R' 'I' 'F' 'F', le32 (216 + m.frames * 8 + m.bytes), fourcc 'A' 'V' 'I' ' ',
        fourcc 'L' 'I' 'S' 'T', le32 192, fourcc 'h' 'd' 'r' 'l', fourcc 'a' 'v' 'i' 'h', le32 56] ++
      (avihWords width height m fps ++ ([fourcc 'L' 'I' 'S' 'T', le32 116, fourcc 's' 't' 'r' 'l',
        fourcc 's' 't' 'r' 'h', le32 56] ++ (strhWords m fps ++ ([fourcc 's' 't' 'r' 'f', le32 40] ++
      (strfWords width height ++ [fourcc 'L' 'I' 'S' 'T', le32 (4 + m.frames * 8 + m.bytes),
        fourcc 'm' 'o' 'v' 'i']))))) := rfl
  rw [hwords]
  simp only [List.flatten_append, List.flatten_cons, List.flatten_nil, List.append_assoc, List.append_nil]

/-- The file is well formed: the sizes are those of the bytes they stand for, the movie is one chunk for
    each frame, and closing has filled in the words `ps` and nothing else. -/
structure AviFile (frames : List (List UInt8)) (ps : List (ℕ × ℕ)) (before after : List UInt8) : Prop where
  size : rd32 (after.drop 4) + 8 = after.length
  chunks : ∃ avih strh strf payloads,
    Riff.parse after.length after = some (aviChunks avih strh strf payloads) ∧ avih.length = 56 ∧
      strh.length = 56 ∧ strf.length = 40 ∧ rd32 (avih.drop 16) = frames.length ∧
      List.Forall₂ IsPayload frames payloads
  length : after.length = before.length
  untouched : ∀ k, k / 4 ∉ ps.map Prod.fst → after[k]? = before[k]?
  filled : ∀ p ∈ ps, rd32 (after.drop (p.1 * 4)) = p.2 % 4294967296

theorem length_mod_of_isPayload : ∀ {fs ps : List (List UInt8)}, List.Forall₂ IsPayload fs ps →
    ∀ p ∈ ps, p.length % 4 = 0
  | _, _, .nil => fun _ h => nomatch h
  | _, _, .cons h hs => List.forall_mem_cons.2 ⟨h.1, length_mod_of_isPayload hs⟩

theorem length_streams : ∀ (t : QuantTables) (ss : List Shot), (streams t ss).length = ss.length
  | _, [] => rfl
  | t, s :: ss => by rw [streams, List.length_cons, length_streams, List.length_cons]

/-- The header with the words filled in and the frames behind it are the chunks of an AVI file. -/
theorem closed_eq_encode {width height : ℤ} {m : Mjpeg} {payloads : List (List UInt8)}
    (hframes : m.frames = payloads.length) (hbytes : m.bytes = (payloads.map List.length).sum)
    (hmod : ∀ p ∈ payloads, p.length % 4 = 0) (fps : Fps) :
    (patch (mjpegHeader width height) (patches m fps)).flatten ++ payloads.flatMap frameBytes =
      Riff.encode (aviChunks (avihWords width height m fps).flatten (strhWords m fps).flatten
        (strfWords width height).flatten payloads) := by
  rw [patch_mjpegHeader, encode_aviChunks rfl rfl rfl hmod, hframes, hbytes]

/-- The length of the header and of the chunks of the frames. -/
def aviLength (frames : List (List UInt8)) : ℕ := 224 + (frames.map fun f => 8 + frameSize f.length).sum

theorem aviLength_eq (frames : List (List UInt8)) :
    aviLength frames = 224 + (frames.length * 8 + (frames.map fun f => frameSize f.length).sum) := by
  unfold aviLength
  induction frames with
  | nil => rfl
  | cons f fs ih =>
    simp only [List.map_cons, List.sum_cons, List.length_cons]
    omega

/-- The words that `mjpeg_close` fills in are in the file. -/
theorem rd32_mjpegClose {m : Mjpeg} {ws : List (List UInt8)} {tail : List UInt8} {fps : Fps} (hws : Words ws)
    (hlen : ws.length = 56) (hclose : (mjpegClose m fps).bytes = (patch ws (patches m fps)).flatten ++ tail) :
    ∀ p ∈ patches m fps, rd32 ((mjpegClose m fps).bytes.drop (p.1 * 4)) = p.2 % 4294967296 := by
  intro p hp
  have hnd : ((patches m fps).map Prod.fst).Nodup :=
    show [1, 8, 9, 12, 19, 21, 33, 35, 54].Nodup by decide
  have hlt : ∀ i ∈ (patches m fps).map Prod.fst, i < 56 :=
    show ∀ i ∈ [1, 8, 9, 12, 19, 21, 33, 35, 54], i < 56 by decide
  rw [hclose]
  exact rd32_word _ _ (hws.patch _)
    (getElem?_patch_of_mem hnd hp (hlen ▸ hlt p.1 (List.mem_map_of_mem hp)))

/-- The number of frames is the fifth word of the header list. -/
theorem rd32_avihWords (width height : ℤ) (m : Mjpeg) (fps : Fps) :
    rd32 ((avihWords width height m fps).flatten.drop 16) = m.frames % 4294967296 := by
  have hwords : Words (avihWords width height m fps) := by
    unfold Words avihWords
    simp
  have h4 := rd32_word [] m.frames (i := 4) hwords rfl
  rwa [List.append_nil] at h4

/-- A new file is well formed, whatever the frames are. -/
theorem mjpegClose_fresh (t : QuantTables) (width height : ℤ) (fps : Fps) {shots : List Shot}
    (hfit : AllFit t shots) (hlt : aviLength (streams t shots) < 4294967296) : ∃ m,
    mjpegAddFrames ⟨mjpegOpen ⟨[], 0⟩ width height, 0, 0, t⟩ shots = .ok m ∧
      m.fp.bytes.length = aviLength (streams t shots) ∧
      AviFile (streams t shots) (patches m fps) m.fp.bytes (mjpegClose m fps).bytes := by
  have hws := words_mjpegHeader width height
  have hopen : mjpegOpen ⟨[], 0⟩ width height = ⟨(mjpegHeader width height).flatten, _⟩ :=
    foldl_writeData_atEnd rfl
  obtain ⟨payloads, m, hrun, hadd⟩ := mjpegAddFrames_ok
    (m := ⟨mjpegOpen ⟨[], 0⟩ width height, 0, 0, t⟩) (by rw [hopen]; rfl) (by norm_num) (by norm_num) hfit
  obtain ⟨hfile, hframes, hbytes, hlengths, hpay⟩ := hadd
  rw [hopen] at hfile
  dsimp only at hfile hpay hframes hbytes hlengths
  have hmod := length_mod_of_isPayload hpay
  have hn : payloads.length = shots.length := by rw [← hpay.length_eq, length_streams]
  have hlen : m.fp.bytes.length = 224 + (payloads.length * 8 + (payloads.map List.length).sum) := by
    rw [hfile, List.length_append, hws.length_flatten, length_flatMap_frameBytes]
    rfl
  have havi : m.fp.bytes.length = aviLength (streams t shots) := by
    rw [hlen, aviLength_eq, hlengths, hpay.length_eq]
  have hframes : m.frames = payloads.length := by
    rw [hframes, Nat.zero_add, hn]
    exact Nat.mod_eq_of_lt (by omega)
  have hbytes : m.bytes = (payloads.map List.length).sum := by
    rw [hbytes, Nat.zero_add]
    exact Nat.mod_eq_of_lt (by omega)
  have hclose := mjpegClose_bytes hws rfl hfile fps
  have hfilled := rd32_mjpegClose hws rfl hclose
  have hlength : (mjpegClose m fps).bytes.length = m.fp.bytes.length := by
    rw [hclose, hfile, List.length_append, List.length_append, (hws.patch _).length_flatten,
      length_patch, hws.length_flatten]
  refine ⟨m, hrun, havi, ?_, ⟨(avihWords width height m fps).flatten, (strhWords m fps).flatten,
    (strfWords width height).flatten, payloads, ?_, rfl, rfl, rfl, ?_, hpay⟩, hlength, ?_, hfilled⟩
  · have h1 := hfilled (1, 216 + m.frames * 8 + m.bytes) (.head _)
    rw [hlength, hlen]
    rw [hframes, hbytes] at h1
    dsimp only at h1
    rw [Nat.one_mul] at h1
    omega
  · have hlt' : (mjpegClose m fps).bytes.length < 4294967296 := by omega
    rw [hclose, closed_eq_encode hframes hbytes hmod] at hlt' ⊢
    exact Riff.parse_encode (aviChunks_ok _ _ _ _) hlt' le_rfl
  · refine (rd32_avihWords width height m fps).trans ?_
    rw [hframes, hn, length_streams]
    exact Nat.mod_eq_of_lt (by omega)
  · intro k hk
    rw [hclose, hfile]
    exact getElem?_patch_flatten hws hk

end OpenMV.Io
