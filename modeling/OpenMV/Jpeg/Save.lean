import OpenMV.Io.File
import OpenMV.Jpeg.Buffer

/-! Saving JPEG images | scheme:codec | source:src/src/openmv/omv/img/jpeg.c

    What `jpeg_compress` leaves in a buffer that may not grow, compared with the stream it produces when
    there is always room. A store that does not fit is dropped and later ones may still fit, so that what
    is in the buffer is the stream or shorter than it. `jpeg_write` does not look at the flag that tells
    the two apart. -/

namespace OpenMV.Jpeg
open Schemes

/-! ### The complete stream -/

/-- The bytes that go out for bit strings if there is always room. -/
def scanBytes (ws : List (ℕ × ℕ)) : List UInt8 := (ws.foldl jpegWriteBits ⟨[], 0, 0, 0, true, false⟩).buf

/-- The stream from SOI to EOI. -/
def completeStream (t : QuantTables) (src : Source) (units : List DataUnit) (quality : ℕ) : List UInt8 :=
  (headerOf t src quality).flatten ++ scanBytes (unitStrings (fun _ => 0) units ++ [fillBits]) ++
    [0xFF, 0xD9]

/-! ### The bounded buffer -/

/-- What a buffer of `L` bytes holds when `c` has been put into it: all of it, or less if the flag is
    set, and then `c` is too long. -/
structure Holds (L : ℕ) (realloc : Bool) (c : List UInt8) (b : JpegBuf) : Prop where
  same : b.realloc = realloc
  le_length : L ≤ b.length
  length : realloc = false → b.length = L
  inside : b.length = L → b.buf.length < L ∨ b.buf = []
  fit : b.overflow = false → b.buf = c
  lost : b.overflow = true → realloc = false ∧ L ≤ c.length

theorem Holds.putBytes {L : ℕ} {realloc : Bool} {c : List UInt8} {b : JpegBuf} (h : Holds L realloc c b)
    (data : List UInt8) : Holds L realloc (c ++ data) (jpegPutBytes b data) := by
  obtain ⟨hsame, hle, hlen, hin, hfit, hlost⟩ := h
  unfold jpegPutBytes
  split_ifs with hroom hre
  · -- the store is dropped
    have hre : realloc = false := hsame.symm.trans hre
    refine ⟨hsame, hle, hlen, hin, (nomatch ·), fun _ => ⟨hre, ?_⟩⟩
    rw [List.length_append]
    cases ho : b.overflow with
    | false => rw [← hfit ho, ← hlen hre]; exact hroom
    | true => exact (hlost ho).2.trans (Nat.le_add_right _ _)
  · -- the buffer is moved
    have hre : realloc ≠ false := fun h => hre (hsame.trans h)
    have hno : b.overflow = false := by
      by_contra ho
      exact hre (hlost (by simpa using ho)).1
    refine ⟨hsame, by dsimp only; omega, fun h => absurd h hre, fun h => ?_, fun _ => by rw [hfit hno],
      fun h => absurd h (by simp [hno])⟩
    dsimp only at h
    omega
  · refine ⟨hsame, hle, hlen, fun h => .inl ?_, fun h => by rw [hfit h], fun h => ⟨(hlost h).1, ?_⟩⟩
    · dsimp only at h ⊢
      rw [List.length_append]
      omega
    · rw [List.length_append]
      exact (hlost h).2.trans (Nat.le_add_right _ _)

theorem Holds.foldl_putBytes {L : ℕ} {realloc : Bool} : ∀ {c : List UInt8} {b : JpegBuf},
    Holds L realloc c b → ∀ ds : List (List UInt8),
      Holds L realloc (c ++ ds.flatten) (ds.foldl jpegPutBytes b)
  | c, b, h, [] => by rw [List.flatten_nil, List.append_nil]; exact h
  | c, b, h, d :: ds => by
    rw [List.flatten_cons, ← List.append_assoc]
    exact Holds.foldl_putBytes (h.putBytes d) ds

/-- Only the bits changed. -/
theorem Holds.bits {L : ℕ} {realloc : Bool} {c : List UInt8} {b : JpegBuf} (h : Holds L realloc c b)
    (bitc bitb : ℕ) : Holds L realloc c { b with bitc := bitc, bitb := bitb } :=
  ⟨h.same, h.le_length, h.length, h.inside, h.fit, h.lost⟩

theorem putBytes_of_grows {v : JpegBuf} (hg : v.realloc = true) (data : List UInt8) :
    (jpegPutBytes v data).realloc = true ∧ (jpegPutBytes v data).overflow = v.overflow ∧
      (jpegPutBytes v data).buf = v.buf ++ data := by
  unfold jpegPutBytes
  split_ifs with h1 h2
  · exact absurd (hg.symm.trans h2) (by decide)
  · exact ⟨hg, rfl, rfl⟩
  · exact ⟨hg, rfl, rfl⟩

/-- The buffer against one with the same bits that always has room, and that started when `base` had
    been put into the first one. -/
structure Tracks (L : ℕ) (realloc : Bool) (base : List UInt8) (b v : JpegBuf) : Prop where
  holds : Holds L realloc (base ++ v.buf) b
  bitc : b.bitc = v.bitc
  bitb : b.bitb = v.bitb
  grows : v.realloc = true
  kept : v.overflow = false

section
variable {L : ℕ} {realloc : Bool} {base : List UInt8} {b v : JpegBuf}

theorem Tracks.putBytes (h : Tracks L realloc base b v) (data : List UInt8) :
    Tracks L realloc base (jpegPutBytes b data) (jpegPutBytes v data) := by
  obtain ⟨hg, ho, hbuf⟩ := putBytes_of_grows h.grows data
  refine ⟨?_, ?_, ?_, hg, ho.trans h.kept⟩
  · rw [hbuf, ← List.append_assoc]
    exact h.holds.putBytes data
  · rw [putBytes_bitc, putBytes_bitc, h.bitc]
  · rw [putBytes_bitb, putBytes_bitb, h.bitb]

theorem Tracks.shiftOut (h : Tracks L realloc base b v) : Tracks L realloc base (jpegShiftOut b) (jpegShiftOut v) := by
  have h1 := h.putBytes [UInt8.ofNat ((v.bitb >>> 16) % 256)]
  simp only [jpegShiftOut, jpegPutChar, h.bitb]
  split_ifs
  · have h2 := h1.putBytes [0]
    exact ⟨h2.holds.bits _ _, congrArg (· - 8) h2.bitc, congrArg (fun n => (n <<< 8) % 2 ^ 32) h2.bitb,
      h2.grows, h2.kept⟩
  · exact ⟨h1.holds.bits _ _, congrArg (· - 8) h1.bitc, congrArg (fun n => (n <<< 8) % 2 ^ 32) h1.bitb,
      h1.grows, h1.kept⟩

theorem Tracks.shiftOutLoop : ∀ {n : ℕ} {b v : JpegBuf}, Tracks L realloc base b v →
    Tracks L realloc base (jpegShiftOutLoop n b) (jpegShiftOutLoop n v)
  | 0, _, _, h => h
  | n + 1, b, v, h => by
    simp only [jpegShiftOutLoop, h.bitc]
    split_ifs
    · exact Tracks.shiftOutLoop h.shiftOut
    · exact h

theorem Tracks.writeBits (h : Tracks L realloc base b v) (bs : ℕ × ℕ) :
    Tracks L realloc base (jpegWriteBits b bs) (jpegWriteBits v bs) := by
  have h' : Tracks L realloc base
      { b with bitc := b.bitc + bs.2, bitb := b.bitb ||| (bs.1 <<< (24 - (b.bitc + bs.2))) }
      { v with bitc := v.bitc + bs.2, bitb := v.bitb ||| (bs.1 <<< (24 - (v.bitc + bs.2))) } :=
    ⟨h.holds.bits _ _, congrArg (· + bs.2) h.bitc, by dsimp only; rw [h.bitb, h.bitc], h.grows, h.kept⟩
  have h2 := Tracks.shiftOutLoop (n := b.bitc + bs.2) h'
  unfold jpegWriteBits
  rw [h.bitc] at h2 ⊢
  exact h2

theorem Tracks.foldl_writeBits : ∀ (ws : List (ℕ × ℕ)) {b v : JpegBuf}, Tracks L realloc base b v →
    Tracks L realloc base (ws.foldl jpegWriteBits b) (ws.foldl jpegWriteBits v)
  | [], _, _, h => h
  | w :: ws, _, _, h => Tracks.foldl_writeBits ws (h.writeBits w)

end

/-! ### The whole stream -/

/-- If the end is not reached then the flag was found set after some of the units. -/
theorem encodeGroups_stopped : ∀ {gs : List (List DataUnit)} {s s' : EncState},
    encodeGroups s gs = (s', false) → ∃ us vs, gs.flatten = us ++ vs ∧ s' = encodeUnits s us ∧
      s'.buf.overflow = true
  | [], s, s', h => nomatch h
  | g :: gs, s, s', h => by
    rw [encodeGroups] at h
    split_ifs at h with ho
    · obtain ⟨rfl, -⟩ := Prod.mk.inj h
      exact ⟨g, gs.flatten, rfl, rfl, ho⟩
    · obtain ⟨us, vs, hus, hs, ho'⟩ := encodeGroups_stopped h
      refine ⟨g ++ us, vs, ?_, ?_, ho'⟩
      · rw [List.flatten_cons, hus, List.append_assoc]
      · rw [encodeUnits_append]
        exact hs

theorem unitStrings_append : ∀ (us vs : List DataUnit) (pred : Comp → ℤ), ∃ pred',
    unitStrings pred (us ++ vs) = unitStrings pred us ++ unitStrings pred' vs
  | [], vs, pred => ⟨pred, rfl⟩
  | u :: us, vs, pred => by
    obtain ⟨pred', h⟩ := unitStrings_append us vs (Function.update pred u.1 (u.2.getD 0 0))
    refine ⟨pred', ?_⟩
    rw [List.cons_append, unitStrings, h, unitStrings, List.append_assoc]

/-- More bit strings are at least as many bytes. -/
theorem length_scanBytes_append (ws vs : List (ℕ × ℕ)) :
    (scanBytes ws).length ≤ (scanBytes (ws ++ vs)).length := by
  have hv : Tracks 0 true [] ⟨[], 0, 0, 0, true, false⟩ ⟨[], 0, 0, 0, true, false⟩ :=
    ⟨⟨rfl, le_rfl, fun _ => rfl, fun _ => .inr rfl, fun _ => rfl, (nomatch ·)⟩, rfl, rfl, rfl, rfl⟩
  have hkept := (Tracks.foldl_writeBits (ws ++ vs) hv).kept
  unfold scanBytes
  rw [List.foldl_append] at hkept ⊢
  obtain ⟨-, bytes, hbuf⟩ := foldl_writeBits_buf vs hkept
  rw [hbuf, List.length_append]
  exact Nat.le_add_right _ _

section
variable {t : QuantTables} {src : Source} {groups : List (List DataUnit)} {length quality : ℕ}
  {realloc : Bool}

theorem tracks_afterHeaders (t : QuantTables) (src : Source) (length quality : ℕ) (realloc : Bool) :
    Tracks length realloc (headerOf t src quality).flatten (afterHeaders t src length quality realloc).buf
      ⟨[], 0, 0, 0, true, false⟩ := by
  have h0 : Holds length realloc [] ⟨[], length, 0, 0, realloc, false⟩ :=
    ⟨rfl, le_rfl, fun _ => rfl, fun _ => .inr rfl, fun _ => rfl, (nomatch ·)⟩
  obtain ⟨hc, hb⟩ := afterHeaders_bits t src length quality realloc
  refine ⟨?_, hc, hb, rfl, rfl⟩
  have h := h0.foldl_putBytes (headerOf t src quality)
  rw [List.nil_append] at h
  simpa only [afterHeaders, List.append_nil] using h

theorem tracks_encodeUnits (t : QuantTables) (src : Source) (length quality : ℕ) (realloc : Bool)
    (us : List DataUnit) :
    Tracks length realloc (headerOf t src quality).flatten
      (encodeUnits (afterHeaders t src length quality realloc) us).buf
      ((unitStrings (fun _ => 0) us).foldl jpegWriteBits ⟨[], 0, 0, 0, true, false⟩) := by
  rw [encodeUnits_buf, afterHeaders_pred]
  exact Tracks.foldl_writeBits _ (tracks_afterHeaders t src length quality realloc)

/-- Either the end is reached, with the stream put into the buffer, or the stream was already longer than
    the buffer before. -/
theorem compress_cases (t : QuantTables) (src : Source) (groups : List (List DataUnit))
    (length quality : ℕ) (realloc : Bool) :
    let r := jpegCompress t src groups length quality realloc
    (r.2 = true ∧ Holds length realloc (completeStream t src groups.flatten quality) r.1) ∨
    (r.2 = false ∧ r.1.overflow = true ∧
      ∃ c : List UInt8, c.length + 2 ≤ (completeStream t src groups.flatten quality).length ∧
        Holds length realloc c r.1) := by
  intro r
  have hr : r = _ := compress_eq t src groups length quality realloc
  cases hg : encodeGroups (afterHeaders t src length quality realloc) groups with
  | mk s done =>
    simp only [hg] at hr
    cases done with
    | true =>
      left
      rw [if_pos rfl] at hr
      have htrack := (tracks_encodeUnits t src length quality realloc groups.flatten).writeBits fillBits
      rw [← encodeGroups_done hg] at htrack
      have hholds := ((htrack.putBytes [0xFF]).putBytes [0xD9]).holds
      have hbuf : (jpegPutBytes (jpegPutBytes (jpegWriteBits ((unitStrings (fun _ => 0)
          groups.flatten).foldl jpegWriteBits ⟨[], 0, 0, 0, true, false⟩) fillBits) [0xFF]) [0xD9]).buf =
          scanBytes (unitStrings (fun _ => 0) groups.flatten ++ [fillBits]) ++ [0xFF, 0xD9] := by
        rw [(putBytes_of_grows (htrack.putBytes [0xFF]).grows [0xD9]).2.2,
          (putBytes_of_grows htrack.grows [0xFF]).2.2, List.append_assoc, scanBytes, List.foldl_append]
        rfl
      rw [hbuf, ← List.append_assoc] at hholds
      exact ⟨by rw [hr], by rw [hr]; exact hholds⟩
    | false =>
      right
      rw [if_neg (by decide)] at hr
      obtain ⟨us, vs, hus, rfl, ho⟩ := encodeGroups_stopped hg
      have htrack := tracks_encodeUnits t src length quality realloc us
      refine ⟨by rw [hr], by rw [hr]; exact ho, _, ?_, by rw [hr]; exact htrack.holds⟩
      obtain ⟨pred', hunits⟩ := unitStrings_append us vs fun _ => 0
      have hle := length_scanBytes_append (unitStrings (fun _ => 0) us)
        (unitStrings pred' vs ++ [fillBits])
      unfold completeStream
      rw [hus, hunits, List.append_assoc (unitStrings _ us)]
      simp only [List.length_append, List.length_cons, List.length_nil]
      unfold scanBytes at hle ⊢
      omega

theorem two_le_length_completeStream (t : QuantTables) (src : Source) (units : List DataUnit)
    (quality : ℕ) : 2 ≤ (completeStream t src units quality).length := by
  unfold completeStream
  simp only [List.length_append, List.length_cons, List.length_nil]
  omega

/-- With the flag clear, the buffer holds the stream; with the flag set, less, and the stream is too
    long for the buffer. -/
theorem compress_bounded (t : QuantTables) (src : Source) (groups : List (List DataUnit))
    (length quality : ℕ) :
    let r := jpegCompress t src groups length quality false
    let stream := completeStream t src groups.flatten quality
    r.1.buf.length ≤ length ∧
    (r.1.overflow = false → r.2 = true ∧ r.1.buf = stream ∧ stream.length < length) ∧
    (r.1.overflow = true → length ≤ stream.length ∧ r.1.buf.length < stream.length ∧
      (r.2 = false → length < stream.length)) := by
  intro r stream
  have htwo : 2 ≤ stream.length := two_le_length_completeStream t src groups.flatten quality
  have hin : ∀ {c}, Holds length false c r.1 → r.1.buf.length < length ∨ r.1.buf.length = 0 :=
    fun h => (h.inside (h.length rfl)).imp_right fun h => by rw [h]; rfl
  rcases compress_cases t src groups length quality false with ⟨hset, hh⟩ | ⟨hset, ho, c, hc, hh⟩
  · have hin := hin hh
    refine ⟨by omega, fun ho => ⟨hset, hh.fit ho, ?_⟩, fun ho => ?_⟩
    · have hfit : r.1.buf = stream := hh.fit ho
      rw [hfit] at hin
      omega
    · have hlost : length ≤ stream.length := (hh.lost ho).2
      exact ⟨hlost, by omega, fun h => absurd (hset.symm.trans h) (by decide)⟩
  · have hin := hin hh
    have hlost := (hh.lost ho).2
    have hc : c.length + 2 ≤ stream.length := hc
    refine ⟨by omega, fun h => absurd (ho.symm.trans h) (by decide), fun _ => ?_⟩
    exact ⟨by omega, by omega, fun _ => by omega⟩

/-- A buffer that may be moved gets the whole stream. -/
theorem compress_grows (t : QuantTables) (src : Source) (groups : List (List DataUnit))
    (length quality : ℕ) :
    let r := jpegCompress t src groups length quality true
    r.2 = true ∧ r.1.buf = completeStream t src groups.flatten quality ∧
      (r.1.length = length → r.1.buf.length ≤ length) := by
  intro r
  have hkept : ∀ {c}, Holds length true c r.1 → r.1.overflow = false := fun h => by
    by_contra ho
    exact nomatch (h.lost (by simpa using ho)).1
  rcases compress_cases t src groups length quality true with ⟨hset, hh⟩ | ⟨-, ho, c, -, hh⟩
  · refine ⟨hset, hh.fit (hkept hh), fun hlen => ?_⟩
    rcases hh.inside hlen with h | h
    · exact h.le
    · show r.1.buf.length ≤ length
      have h : r.1.buf = [] := h
      rw [h]
      exact Nat.zero_le _
  · exact absurd (ho.symm.trans (hkept hh)) (by decide)

end

/-! ### Saving -/

/-- An image: its JPEG data, or what `jpeg_compress` makes data units of. -/
inductive Saved where
  | jpeg (data : List UInt8)
  | raw (src : Source) (groups : List (List DataUnit))

/-- The bytes written to the file. `size` is that of the buffer from `fb_alloc_all` and `mem` what was in
    its memory before. `out.bpp` is still `size` if `jpeg_compress` did not set it. -/
def jpegWrite (t : QuantTables) (img : Saved) (quality size : ℕ) (mem : ℕ → UInt8) :
    Except Io.FileError (List UInt8) :=
  match img with
  | .jpeg data => .ok data
  | .raw src groups =>
    match jpegCompress t src groups size quality false with
    | (b, true) => .ok b.buf
    | (b, false) => .ok ((List.range size).map fun k => b.buf.getD k (mem k))

/-- The stream that belongs in the file. -/
def Saved.stream (t : QuantTables) (quality : ℕ) : Saved → List UInt8
  | .jpeg data => data
  | .raw src groups => completeStream t src groups.flatten quality

/-- `jpeg_compress` stores inside its buffer and reports every byte it drops, and the file gets the
    complete stream if no exception is raised. -/
structure SaveComplete (t : QuantTables) (img : Saved) (quality size : ℕ) (mem : ℕ → UInt8) : Prop where
  inside : ∀ src groups, img = .raw src groups → ∀ length,
    (jpegCompress t src groups length quality false).1.buf.length ≤ length
  complete : ∀ src groups, img = .raw src groups → ∀ length,
    (jpegCompress t src groups length quality false).1.overflow = false →
      (jpegCompress t src groups length quality false).2 = true ∧
      (jpegCompress t src groups length quality false).1.buf = img.stream t quality
  file : ∀ file, jpegWrite t img quality size mem = .ok file → file = img.stream t quality

theorem jpegWrite_raw_iff (t : QuantTables) (src : Source) (groups : List (List DataUnit))
    (quality size : ℕ) (mem : ℕ → UInt8) :
    jpegWrite t (.raw src groups) quality size mem =
        .ok (completeStream t src groups.flatten quality) ↔
      (completeStream t src groups.flatten quality).length < size := by
  obtain ⟨-, hfit, hlost⟩ := compress_bounded t src groups size quality
  simp only [jpegWrite]
  cases hr : jpegCompress t src groups size quality false with
  | mk b set =>
    rw [hr] at hfit hlost
    dsimp only at hfit hlost
    cases ho : b.overflow with
    | false =>
      obtain ⟨rfl, hbuf, hlt⟩ := hfit ho
      exact ⟨fun _ => hlt, fun _ => by dsimp only; rw [hbuf]⟩
    | true =>
      obtain ⟨hle, hshort, hstop⟩ := hlost ho
      refine ⟨fun h => ?_, fun h => absurd hle (not_le.2 h)⟩
      -- what is written is shorter than the stream
      cases set with
      | true =>
        rw [Except.ok.inj h] at hshort
        exact absurd hshort (lt_irrefl _)
      | false =>
        have hlen := congrArg List.length (Except.ok.inj h)
        rw [List.length_map, List.length_range] at hlen
        exact absurd hlen (hstop rfl).ne

theorem jpegWrite_ok (t : QuantTables) (img : Saved) (quality size : ℕ) (mem : ℕ → UInt8) :
    ∃ file, jpegWrite t img quality size mem = .ok file := by
  cases img with
  | jpeg data => exact ⟨data, rfl⟩
  | raw src groups =>
    simp only [jpegWrite]
    split
    · exact ⟨_, rfl⟩
    · exact ⟨_, rfl⟩

theorem not_saveComplete {t : QuantTables} {src : Source} {groups : List (List DataUnit)} {quality size : ℕ}
    {mem : ℕ → UInt8} (hlong : size ≤ (completeStream t src groups.flatten quality).length) :
    ¬ SaveComplete t (.raw src groups) quality size mem := by
  intro h
  obtain ⟨file, hfile⟩ := jpegWrite_ok t (.raw src groups) quality size mem
  rw [h.file file hfile] at hfile
  exact absurd hlong (not_le.2 ((jpegWrite_raw_iff t src groups quality size mem).1 hfile))

/-- Saving is complete for images that are JPEG data already, and for those whose stream is shorter than
    the buffer. -/
theorem jpeg_save_iff (t : QuantTables) (img : Saved) (quality size : ℕ) (mem : ℕ → UInt8) :
    SaveComplete t img quality size mem ↔
      (∃ data, img = .jpeg data) ∨ (img.stream t quality).length < size := by
  cases img with
  | jpeg data =>
    refine ⟨fun _ => .inl ⟨data, rfl⟩, fun _ => ⟨?_, ?_, ?_⟩⟩
    · rintro src groups ⟨⟩
    · rintro src groups ⟨⟩
    intro file h
    exact (Except.ok.inj h).symm
  | raw src groups =>
    constructor
    · intro h
      by_contra hno
      exact not_saveComplete (not_lt.1 fun hlt => hno (.inr hlt)) h
    · rintro (⟨data, h⟩ | h)
      · exact nomatch h
      · refine ⟨?_, ?_, ?_⟩
        · rintro src groups ⟨⟩ length
          exact (compress_bounded t src groups length quality).1
        · rintro src groups ⟨⟩ length ho
          obtain ⟨hset, hbuf, -⟩ := (compress_bounded t src groups length quality).2.1 ho
          exact ⟨hset, hbuf⟩
        · intro file' hfile'
          exact Except.ok.inj (hfile'.symm.trans ((jpegWrite_raw_iff t src groups quality size mem).2 h))

/-! ### An image too long for the buffer -/

/-- The bits that have come in are in the buffer or are still waiting. -/
theorem bits_shiftOutLoop : ∀ {n : ℕ} {v : JpegBuf}, v.realloc = true → v.bitc ≤ 8 * n + 7 →
    8 * v.buf.length + v.bitc ≤ 8 * (jpegShiftOutLoop n v).buf.length + (jpegShiftOutLoop n v).bitc ∧
      (jpegShiftOutLoop n v).bitc ≤ 7 ∧ (jpegShiftOutLoop n v).realloc = true
  | 0, v, hg, hn => ⟨le_rfl, hn, hg⟩
  | n + 1, v, hg, hn => by
    simp only [jpegShiftOutLoop]
    split_ifs with hc
    · have hout : (jpegShiftOut v).realloc = true ∧ v.buf.length + 1 ≤ (jpegShiftOut v).buf.length := by
        obtain ⟨h1, -, h2⟩ := putBytes_of_grows hg [UInt8.ofNat ((v.bitb >>> 16) % 256)]
        obtain ⟨h3, -, h4⟩ := putBytes_of_grows h1 [0]
        simp only [jpegShiftOut, jpegPutChar]
        split_ifs
        · simp [h3, h4, h2]
        · simp [h1, h2]
      have hbits := (shiftOut_bits v).1
      obtain ⟨hle, hrest⟩ := bits_shiftOutLoop (n := n) hout.1 (by omega)
      exact ⟨by omega, hrest⟩
    · exact ⟨le_rfl, by omega, hg⟩

theorem bits_foldl_writeBits : ∀ (ws : List (ℕ × ℕ)) {v : JpegBuf}, v.realloc = true → v.bitc ≤ 7 →
    8 * v.buf.length + v.bitc + (ws.map Prod.snd).sum ≤ 8 * (ws.foldl jpegWriteBits v).buf.length + 7
  | [], v, _, hc => by simpa using hc
  | w :: ws, v, hg, hc => by
    obtain ⟨hle, hc', hg'⟩ := bits_shiftOutLoop (n := v.bitc + w.2)
      (v := { v with bitc := v.bitc + w.2, bitb := v.bitb ||| (w.1 <<< (24 - (v.bitc + w.2))) }) hg
      (by dsimp only; omega)
    have hrest := bits_foldl_writeBits ws hg' hc'
    rw [List.map_cons, List.sum_cons]
    dsimp only at hle
    exact le_trans (by omega) hrest

/-- Eight bits are a byte. -/
theorem bits_le_scanBytes (ws : List (ℕ × ℕ)) : (ws.map Prod.snd).sum ≤ 8 * (scanBytes ws).length + 7 := by
  have h := bits_foldl_writeBits ws (v := ⟨[], 0, 0, 0, true, false⟩) rfl (Nat.zero_le _)
  simpa [scanBytes] using h

/-- The data units of black and white blocks at the quality 99, where the DC value is not divided. -/
def blackUnit : DataUnit := (.y, -1024 :: List.replicate 63 0)
def whiteUnit : DataUnit := (.y, 1016 :: List.replicate 63 0)

/-- Each of them takes 24 bits, when it comes after one of the other kind. -/
theorem bits_blackUnit {DC : ℤ} (h : DC = 0 ∨ DC = 1016) :
    ((duStrings blackUnit.2 DC Comp.y.HTDC Comp.y.HTAC).map Prod.snd).sum = 24 := by
  rcases h with rfl | rfl
  · decide +kernel
  · decide +kernel

theorem bits_whiteUnit : ((duStrings whiteUnit.2 (-1024) Comp.y.HTDC Comp.y.HTAC).map Prod.snd).sum = 24 := by
  decide +kernel

/-- Black and white blocks in turn. -/
theorem bits_stripes (us : List DataUnit) : ∀ (n : ℕ) (pred : Comp → ℤ), pred .y = 0 ∨ pred .y = 1016 →
    ∃ pred' : Comp → ℤ, (pred' .y = 0 ∨ pred' .y = 1016) ∧
      ((unitStrings pred ((List.replicate n [blackUnit, whiteUnit]).flatten ++ us)).map Prod.snd).sum =
        48 * n + ((unitStrings pred' us).map Prod.snd).sum
  | 0, pred, h => ⟨pred, h, by simp⟩
  | n + 1, pred, h => by
    obtain ⟨pred', h', hbits⟩ := bits_stripes us n
      (Function.update (Function.update pred .y (-1024)) .y 1016) (.inr (by simp))
    refine ⟨pred', h', ?_⟩
    have hblack := bits_blackUnit h
    have hwhite := bits_whiteUnit
    have hpred : Function.update pred .y (-1024) .y = -1024 := Function.update_self ..
    rw [List.replicate_succ, List.flatten_cons, List.append_assoc, List.cons_append, List.cons_append,
      List.nil_append, unitStrings, unitStrings, List.map_append, List.map_append, List.sum_append, List.sum_append]
    simp only [blackUnit, whiteUnit, List.getD_cons_zero] at hbits hblack hwhite ⊢
    rw [hblack, hpred, hwhite, hbits]
    omega

/-- 128 rows of 256 blocks. -/
def stripesImage : Saved :=
  .raw ⟨2048, 1024, 1⟩ (List.replicate 128 (List.replicate 128 [blackUnit, whiteUnit]).flatten)

theorem length_stripesImage (t : QuantTables) (quality : ℕ) : 98304 ≤ (stripesImage.stream t quality).length := by
  have hrows : ∀ (m : ℕ) {pred : Comp → ℤ}, pred .y = 0 ∨ pred .y = 1016 →
      ((unitStrings pred (List.replicate m (List.replicate 128 [blackUnit, whiteUnit]).flatten).flatten).map
        Prod.snd).sum = 6144 * m := by
    intro m
    induction m with
    | zero => exact fun _ => rfl
    | succ m ih =>
      intro pred h
      obtain ⟨pred', h', hbits⟩ := bits_stripes
        (List.replicate m (List.replicate 128 [blackUnit, whiteUnit]).flatten).flatten 128 _ h
      rw [List.replicate_succ, List.flatten_cons, hbits, ih h']
      omega
  have hbits := bits_le_scanBytes (unitStrings (fun _ => 0)
    (List.replicate 128 (List.replicate 128 [blackUnit, whiteUnit]).flatten).flatten ++ [fillBits])
  rw [List.map_append, List.sum_append, hrows 128 (.inl rfl), List.map_singleton, List.sum_singleton] at hbits
  simp only [Saved.stream, stripesImage, completeStream, List.length_append]
  have hfill : fillBits.2 = 7 := rfl
  omega

/-- Vertical stripes eight pixels wide: what is written is not the stream. -/
theorem jpeg_save_stripes :
    ¬ SaveComplete ⟨0, List.replicate 64 0, List.replicate 64 0, rfl, rfl⟩ stripesImage 99 98304 fun _ => 0 :=
  not_saveComplete (length_stripesImage _ _)

end OpenMV.Jpeg
