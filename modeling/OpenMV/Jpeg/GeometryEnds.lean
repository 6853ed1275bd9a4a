import OpenMV.Jpeg.Geometry
import OpenMV.Schemes.Walk
import OpenMV.Vision.Image
import Mathlib.Order.Interval.Finset.Nat

/-! The end of the walk over a JPEG file | scheme:termination | source:src/src/openmv/omv/img/jpeg.c,
    src/src/openmv/omv/ff_wrapper.c, src/src/openmv/omv/hal/k210/omvhal-file.c

    `jpeg_read_geometry` goes from segment to segment by the lengths it finds, and every round takes it at least
    two bytes on. This is so in the first 2 GiB of a file. `lseek` passes the position on as an `int`, so behind that
    it returns -1, also where the file is only asked for its position; the next offset is counted from there, and
    is one near the beginning of the file. -/

namespace OpenMV.Jpeg.Fat
open Schemes Relation Vision

/-! ### Positions -/

/-- `lseek` with `SEEK_SET`, down to `f_lseek`: a file that is only read is not extended. The position is
    kept in a `DWORD` and handed back in an `int`. -/
def lseek (fp : File) (offset : ℕ) : ℤ × File :=
  let fptr := min offset fp.bytes.length
  (if int32 fptr < 0 then -1 else offset, { fp with pos := fptr })

/-- `omvhal_f_tell`. -/
def omvhalFTell (fp : File) : ℕ := ((lseek fp fp.pos).1 % 4294967296).toNat

/-- `omvhal_f_lseek`: the `int` is compared with the `uint32_t`. -/
def omvhalFLseek (fp : File) (offset : ℕ) : ℤ × File :=
  let r := lseek fp offset
  let ret := int32 r.1
  (if ret % 4294967296 = offset then 0 else ret, r.2)

/-- `file_seek`. -/
def fileSeek (fp : File) (offset : ℕ) : Except FileError File :=
  let r := omvhalFLseek fp offset
  if r.1 ≠ 0 then .error (.fail (r.1 % 4294967296).toNat) else .ok r.2

/-- One round of the loop of `jpeg_read_geometry`: the position it goes on from, or the result. -/
def round (bytes : List UInt8) (pos : ℕ) : ℕ ⊕ Except FileError Geometry :=
  match readWord ⟨bytes, pos⟩ with
  | .error e => .inr (.error e)
  | .ok (header, fp) =>
    let header := rev16 header
    if isStandalone header then .inl fp.pos
    else if isSegment header then
      match readWord fp with
      | .error e => .inr (.error e)
      | .ok (size, fp) =>
        let size := rev16 size
        if isFrame header then .inr (readFrame fp)
        else match fileSeek fp ((omvhalFTell fp + size + 4294967294) % 4294967296) with
          | .ok fp => .inl fp.pos
          | .error e => .inr (.error e)
    else .inr (.error .fileCorrupted)

/-- `jpeg_read_geometry`, `none` if the loop is not left after `fuel` rounds. -/
def jpegReadGeometry (fuel : ℕ) (bytes : List UInt8) : Option (Except FileError Geometry) :=
  (walk (round bytes) fuel 0).getRight?

/-! ### One round -/

/-- A big-endian word of the file. -/
def wordAt (bytes : List UInt8) (p : ℕ) : ℕ := (bytes.getD p 0).toNat * 256 + (bytes.getD (p + 1) 0).toNat

/-- A segment that is skipped. -/
structure SkipAt (bytes : List UInt8) (p : ℕ) : Prop where
  inside : p + 4 ≤ bytes.length
  alone : ¬ isStandalone (wordAt bytes p)
  segment : isSegment (wordAt bytes p)
  frame : ¬ isFrame (wordAt bytes p)

/-- A segment whose length is counted from a wrong position. -/
structure SentBack (bytes : List UInt8) (p : ℕ) : Prop where
  skip : SkipAt bytes p
  far : 2147483648 ≤ p + 4
  size : 3 ≤ wordAt bytes (p + 2)

/-- A frame header, with what is taken from it. -/
structure FrameAt (bytes : List UInt8) (p : ℕ) (g : Geometry) : Prop where
  inside : p + 9 ≤ bytes.length
  frame : isFrame (wordAt bytes p)
  w : g.w = wordAt bytes (p + 5)
  h : g.h = wordAt bytes (p + 7)
  size : g.size = bytes.length

/-- Where a round goes on from. -/
inductive GoesOn (bytes : List UInt8) : ℕ → ℕ → Prop
  | standalone {p : ℕ} (hin : p + 2 ≤ bytes.length) (h : isStandalone (wordAt bytes p)) : GoesOn bytes p (p + 2)
  | skip {p : ℕ} (h : SkipAt bytes p) (hp : p + 4 < 2147483648)
      (hq : min (p + 2 + wordAt bytes (p + 2)) bytes.length < 2147483648) :
      GoesOn bytes p (min (p + 2 + wordAt bytes (p + 2)) bytes.length)
  | toEnd {p : ℕ} (h : SkipAt bytes p) (hp : 2147483648 ≤ p + 4) (hsize : wordAt bytes (p + 2) = 2) :
      GoesOn bytes p bytes.length
  | back {p : ℕ} (h : SentBack bytes p) : GoesOn bytes p (wordAt bytes (p + 2) - 3)

section

variable {bytes : List UInt8} {p : ℕ}

theorem wordAt_lt (bytes : List UInt8) (p : ℕ) : wordAt bytes p < 65536 := by
  have h1 := UInt8.toNat_lt (bytes.getD p 0)
  have h2 := UInt8.toNat_lt (bytes.getD (p + 1) 0)
  unfold wordAt
  omega

variable (bytes p) in
theorem readWord_of_le (h : p + 2 ≤ bytes.length) :
    ∃ n, readWord ⟨bytes, p⟩ = .ok (n, ⟨bytes, p + 2⟩) ∧ rev16 n = wordAt bytes p := by
  have h0 := UInt8.toNat_lt (bytes.getD p 0)
  have hdata : (bytes.drop p).take 2 = [bytes.getD p 0, bytes.getD (p + 1) 0] := by
    rw [List.drop_eq_getElem_cons (show p < bytes.length by omega),
      List.drop_eq_getElem_cons (show p + 1 < bytes.length by omega), List.take_succ_cons, List.take_succ_cons,
      List.take_zero, List.getD_eq_getElem _ _ (show p < bytes.length by omega),
      List.getD_eq_getElem _ _ (show p + 1 < bytes.length by omega)]
  refine ⟨(bytes.getD p 0).toNat + (bytes.getD (p + 1) 0).toNat * 256, ?_, ?_⟩
  · simp [readWord, readData, hdata, Except.map]
  · unfold rev16 wordAt
    omega

variable (bytes p) in
theorem readWord_short (h : bytes.length < p + 2) : ∃ e, readWord ⟨bytes, p⟩ = .error e := by
  have hlen : ((bytes.drop p).take 2).length ≠ 2 := by
    rw [List.length_take, List.length_drop]
    omega
  by_cases h0 : ((bytes.drop p).take 2).length = 0
  · exact ⟨.readFail, by simp only [readWord, readData, if_neg hlen, if_pos h0, Except.map]⟩
  · exact ⟨_, by simp only [readWord, readData, if_neg hlen, if_neg h0, Except.map]; rfl⟩

/-- The position, or 2^32 - 1 behind the first 2 GiB. -/
theorem omvhalFTell_eq (hp : p ≤ bytes.length) (hsize : bytes.length < 4294967296) :
    omvhalFTell ⟨bytes, p⟩ = if p < 2147483648 then p else 4294967295 := by
  have hmin : min p bytes.length = p := Nat.min_eq_left hp
  simp only [omvhalFTell, lseek, hmin, int32]
  split_ifs <;> omega

/-- Seeking behind the end goes to the end; there is an error only behind the first 2 GiB. -/
theorem fileSeek_eq {offset : ℕ} (hoff : offset < 4294967296) :
    fileSeek ⟨bytes, p⟩ offset =
      if min offset bytes.length < 2147483648 ∨ offset = 4294967295 then .ok ⟨bytes, min offset bytes.length⟩
      else .error (.fail 4294967295) := by
  have hle : min offset bytes.length ≤ offset := Nat.min_le_left _ _
  generalize hm : min offset bytes.length = m at hle
  by_cases hfar : m < 2147483648
  · have hneg : ¬ int32 m < 0 := by
      unfold int32
      omega
    have hret : int32 offset % 4294967296 = offset := by
      unfold int32
      omega
    simp [fileSeek, omvhalFLseek, lseek, hm, hneg, hret, hfar]
  · have hneg : int32 m < 0 := by
      unfold int32
      omega
    have hminus : int32 (-1) = -1 := by decide
    by_cases hall : offset = 4294967295
    · have hret : (offset : ℤ) = 4294967295 := by omega
      rw [if_pos (Or.inr hall)]
      simp [fileSeek, omvhalFLseek, lseek, hm, hneg, hminus, hret]
    · have hne : ¬ (4294967295 : ℤ) = offset := by omega
      rw [if_neg (not_or.mpr ⟨hfar, hall⟩)]
      simp [fileSeek, omvhalFLseek, lseek, hm, hneg, hminus, hne]

/-! What a round does in each case. -/

theorem round_short (h : bytes.length < p + 2) : ∃ e, round bytes p = .inr (.error e) := by
  obtain ⟨e, he⟩ := readWord_short _ _ h
  exact ⟨e, by simp only [round, he]⟩

theorem round_standalone (hin : p + 2 ≤ bytes.length) (h : isStandalone (wordAt bytes p)) :
    round bytes p = .inl (p + 2) := by
  obtain ⟨n, hn, hrev⟩ := readWord_of_le _ _ hin
  simp only [round, hn, hrev, if_pos h]

theorem round_corrupted (hin : p + 2 ≤ bytes.length) (halone : ¬ isStandalone (wordAt bytes p))
    (h : ¬ isSegment (wordAt bytes p)) : round bytes p = .inr (.error .fileCorrupted) := by
  obtain ⟨n, hn, hrev⟩ := readWord_of_le _ _ hin
  simp only [round, hn, hrev, if_neg halone, if_neg h]

theorem round_no_size (h2 : p + 2 ≤ bytes.length) (h4 : bytes.length < p + 4)
    (halone : ¬ isStandalone (wordAt bytes p)) : ∃ e, round bytes p = .inr (.error e) := by
  obtain ⟨n, hn, hrev⟩ := readWord_of_le _ _ h2
  obtain ⟨e, he⟩ := readWord_short bytes (p + 2) h4
  by_cases hseg : isSegment (wordAt bytes p)
  · exact ⟨e, by simp only [round, hn, hrev, if_neg halone, if_pos hseg, he]⟩
  · exact ⟨_, round_corrupted h2 halone hseg⟩

theorem round_frame (h4 : p + 4 ≤ bytes.length) (halone : ¬ isStandalone (wordAt bytes p))
    (hseg : isSegment (wordAt bytes p)) (hframe : isFrame (wordAt bytes p)) :
    round bytes p = .inr (readFrame ⟨bytes, p + 4⟩) := by
  obtain ⟨n, hn, hrev⟩ := readWord_of_le bytes p (by omega)
  obtain ⟨m, hm, -⟩ := readWord_of_le bytes (p + 2) h4
  simp only [round, hn, hrev, if_neg halone, if_pos hseg, hm, if_pos hframe]

theorem round_skip (h : SkipAt bytes p) :
    round bytes p = match fileSeek ⟨bytes, p + 4⟩
        ((omvhalFTell ⟨bytes, p + 4⟩ + wordAt bytes (p + 2) + 4294967294) % 4294967296) with
      | .ok fp => .inl fp.pos
      | .error e => .inr (.error e) := by
  have hin := h.inside
  obtain ⟨n, hn, hrev⟩ := readWord_of_le bytes p (by omega)
  obtain ⟨m, hm, hrev'⟩ := readWord_of_le bytes (p + 2) hin
  simp only [round, hn, hrev, if_neg h.alone, if_pos h.segment, hm, if_neg h.frame, hrev']

/-- All cases in which the loop goes on. -/
theorem leads_round_iff (hsize : bytes.length < 4294967296) {q : ℕ} :
    Leads (round bytes) p q ↔ GoesOn bytes p q := by
  constructor
  · intro h
    unfold Leads at h
    by_cases h2 : p + 2 ≤ bytes.length
    swap
    · obtain ⟨e, he⟩ := round_short (Nat.not_le.mp h2)
      exact nomatch he.symm.trans h
    by_cases halone : isStandalone (wordAt bytes p)
    · obtain rfl := Sum.inl.inj ((round_standalone h2 halone).symm.trans h)
      exact .standalone h2 halone
    by_cases h4 : p + 4 ≤ bytes.length
    swap
    · obtain ⟨e, he⟩ := round_no_size h2 (Nat.not_le.mp h4) halone
      exact nomatch he.symm.trans h
    by_cases hseg : isSegment (wordAt bytes p)
    swap
    · exact nomatch (round_corrupted h2 halone hseg).symm.trans h
    by_cases hframe : isFrame (wordAt bytes p)
    · exact nomatch (round_frame h4 halone hseg hframe).symm.trans h
    have hskip : SkipAt bytes p := ⟨h4, halone, hseg, hframe⟩
    have hlt := wordAt_lt bytes (p + 2)
    rw [round_skip hskip, omvhalFTell_eq h4 hsize, fileSeek_eq (Nat.mod_lt _ (by decide))] at h
    by_cases hp : p + 4 < 2147483648
    · have hoff : (p + 4 + wordAt bytes (p + 2) + 4294967294) % 4294967296 = p + 2 + wordAt bytes (p + 2) := by omega
      rw [if_pos hp, hoff] at h
      split_ifs at h with hok
      · obtain rfl := Sum.inl.inj h
        exact .skip hskip hp (hok.resolve_right (by omega))
    · rw [if_neg hp] at h
      have hcases : wordAt bytes (p + 2) < 2 ∨ wordAt bytes (p + 2) = 2 ∨ 3 ≤ wordAt bytes (p + 2) := by omega
      rcases hcases with hsmall | htwo | hlarge
      · rw [if_neg (by omega)] at h
        exact nomatch h
      · rw [if_pos (by omega)] at h
        obtain rfl := Sum.inl.inj h
        have hend : min ((4294967295 + wordAt bytes (p + 2) + 4294967294) % 4294967296) bytes.length =
            bytes.length := by
          omega
        rw [hend]
        exact .toEnd hskip (by omega) htwo
      · rw [if_pos (by omega)] at h
        obtain rfl := Sum.inl.inj h
        have hback : min ((4294967295 + wordAt bytes (p + 2) + 4294967294) % 4294967296) bytes.length =
            wordAt bytes (p + 2) - 3 := by omega
        rw [hback]
        exact .back ⟨hskip, by omega, hlarge⟩
  · intro h
    unfold Leads
    have hlt := wordAt_lt bytes (p + 2)
    cases h with
    | standalone hin h => exact round_standalone hin h
    | skip h hp hq =>
      have hoff : (p + 4 + wordAt bytes (p + 2) + 4294967294) % 4294967296 = p + 2 + wordAt bytes (p + 2) := by omega
      rw [round_skip h, omvhalFTell_eq h.inside hsize, if_pos hp, hoff, fileSeek_eq (by omega), if_pos (Or.inl hq)]
    | toEnd h hp htwo =>
      rw [round_skip h, omvhalFTell_eq h.inside hsize, if_neg (by omega), fileSeek_eq (Nat.mod_lt _ (by decide)),
        if_pos (by omega)]
      exact congrArg Sum.inl (show min _ bytes.length = bytes.length by omega)
    | back h =>
      have hin := h.skip.inside
      have hfar := h.far
      have hthree := h.size
      rw [round_skip h.skip, omvhalFTell_eq hin hsize, if_neg (by omega), fileSeek_eq (Nat.mod_lt _ (by decide)),
        if_pos (by omega)]
      exact congrArg Sum.inl (show min _ bytes.length = wordAt bytes (p + 2) - 3 by omega)

end

/-! ### The whole walk -/

section

variable {bytes : List UInt8} {p q : ℕ}

theorem leads_eq (hsize : bytes.length < 4294967296) : Leads (round bytes) = GoesOn bytes := by
  funext p q
  exact propext (leads_round_iff hsize)

/-- A round goes on in the file, and further down in it unless it is sent back. -/
theorem GoesOn.spec (h : GoesOn bytes p q) : q ≤ bytes.length ∧ (p < q ∨ SentBack bytes p) := by
  cases h with
  | standalone hin h => exact ⟨hin, Or.inl (by omega)⟩
  | skip h hp hq =>
    have hin := h.inside
    exact ⟨Nat.min_le_right _ _, Or.inl (by omega)⟩
  | toEnd h hp hsize =>
    have hin := h.inside
    exact ⟨Nat.le_refl _, Or.inl (by omega)⟩
  | back h =>
    have hlt := wordAt_lt bytes (p + 2)
    have hin := h.skip.inside
    have hfar := h.far
    exact ⟨by omega, Or.inr h⟩

theorem SentBack.step (h : SentBack bytes p) (hsize : bytes.length < 4294967296) (hq : Leads (round bytes) p q) :
    q ≤ p := by
  have hlt := wordAt_lt bytes (p + 2)
  have hfar := h.far
  have hback := (leads_round_iff hsize).mpr (GoesOn.back h)
  have heq := Sum.inl.inj (hq.symm.trans hback)
  omega

theorem frameAt_of_readFrame (hframe : isFrame (wordAt bytes p)) {g : Geometry}
    (h : readFrame ⟨bytes, p + 4⟩ = .ok g) : FrameAt bytes p g := by
  have hbyte : p + 5 ≤ bytes.length := by
    by_contra hshort
    have hlen : ((bytes.drop (p + 4)).take 1).length = 0 := by
      rw [List.length_take, List.length_drop]
      omega
    simp [readFrame, readData, hlen, bind, Except.bind] at h
  have hlen : ((bytes.drop (p + 4)).take 1).length = 1 := by
    rw [List.length_take, List.length_drop]
    omega
  have hb : readData ⟨bytes, p + 4⟩ 1 = .ok ((bytes.drop (p + 4)).take 1, ⟨bytes, p + 5⟩) := by
    simp only [readData, hlen, if_true]
  by_cases h7 : p + 7 ≤ bytes.length
  swap
  · obtain ⟨e, he⟩ := readWord_short bytes (p + 5) (by omega)
    simp [readFrame, hb, he, bind, Except.bind] at h
  by_cases h9 : p + 9 ≤ bytes.length
  swap
  · obtain ⟨n, hn, -⟩ := readWord_of_le bytes (p + 5) h7
    obtain ⟨e, he⟩ := readWord_short bytes (p + 7) (by omega)
    simp [readFrame, hb, hn, he, bind, Except.bind] at h
  obtain ⟨n, hn, hw⟩ := readWord_of_le bytes (p + 5) h7
  obtain ⟨m, hm, hh⟩ := readWord_of_le bytes (p + 7) h9
  simp [readFrame, hb, hn, hm, bind, Except.bind, pure, Except.pure] at h
  subst h
  exact ⟨h9, hframe, hw, hh, rfl⟩

theorem round_result {g : Geometry} (h : round bytes p = .inr (.ok g)) : FrameAt bytes p g := by
  by_cases h2 : p + 2 ≤ bytes.length
  swap
  · obtain ⟨e, he⟩ := round_short (Nat.not_le.mp h2)
    exact nomatch he.symm.trans h
  by_cases halone : isStandalone (wordAt bytes p)
  · exact nomatch (round_standalone h2 halone).symm.trans h
  by_cases h4 : p + 4 ≤ bytes.length
  swap
  · obtain ⟨e, he⟩ := round_no_size h2 (Nat.not_le.mp h4) halone
    exact nomatch he.symm.trans h
  by_cases hseg : isSegment (wordAt bytes p)
  swap
  · exact nomatch (round_corrupted h2 halone hseg).symm.trans h
  by_cases hframe : isFrame (wordAt bytes p)
  · exact frameAt_of_readFrame hframe (Sum.inr.inj ((round_frame h4 halone hseg hframe).symm.trans h))
  · rw [round_skip ⟨h4, halone, hseg, hframe⟩] at h
    split at h <;> simp at h

theorem walk_result {n : ℕ} {g : Geometry} : ∀ {p : ℕ}, walk (round bytes) n p = .inr (.ok g) →
    ∃ q, FrameAt bytes q g := by
  induction n with
  | zero => exact fun h => nomatch h
  | succ n ih =>
    intro p h
    rw [walk] at h
    cases hr : round bytes p with
    | inl q =>
      rw [hr] at h
      exact ih h
    | inr r =>
      rw [hr] at h
      obtain rfl := Sum.inr.inj h
      exact ⟨p, round_result hr⟩

end

/-- The loop is left, with the sizes of a frame header or an exception, and no position is behind the file. -/
def Ends (bytes : List UInt8) : Prop :=
  (∃ n r, jpegReadGeometry n bytes = some r ∧ ∀ g, r = .ok g → ∃ p, FrameAt bytes p g) ∧
    ∀ n p, walk (round bytes) n 0 = .inl p → p ≤ bytes.length

/-- The loop is left exactly if it comes to no segment twice from which it is sent back. -/
theorem jpegReadGeometry_ends_iff (bytes : List UInt8) (hsize : bytes.length < 4294967296) :
    Ends bytes ↔ ∀ p, SentBack bytes p → ReflTransGen (GoesOn bytes) 0 p → ¬ TransGen (GoesOn bytes) p p := by
  have hclosed : ∀ a ∈ Set.Iic bytes.length, ∀ b, Leads (round bytes) a b → b ∈ Set.Iic bytes.length :=
    fun a _ b hab => ((leads_round_iff hsize).mp hab).spec.1
  have hpos : ∀ n p, walk (round bytes) n 0 = .inl p → p ≤ bytes.length := by
    intro n p h
    have hreach := walk_reflTransGen h
    rcases ReflTransGen.cases_tail hreach with rfl | ⟨q, -, hq⟩
    · exact Nat.zero_le _
    · exact ((leads_round_iff hsize).mp hq).spec.1
  have hends : Ends bytes ↔ ∃ n r, walk (round bytes) n 0 = .inr r := by
    constructor
    · rintro ⟨⟨n, r, hr, -⟩, -⟩
      exact ⟨n, r, Sum.getRight?_eq_some_iff.mp hr⟩
    · rintro ⟨n, r, hr⟩
      exact ⟨⟨n, r, Sum.getRight?_eq_some_iff.mpr hr, fun g hg => walk_result (hg ▸ hr)⟩, hpos⟩
  rw [hends, walk_ends_iff (Set.finite_Iic bytes.length) hclosed id (Nat.zero_le _), leads_eq hsize]
  constructor
  · intro h p hback hreach hround
    obtain ⟨q, hq, hlt⟩ := h p hreach hround
    exact absurd hlt (Nat.not_lt.mpr (hback.step hsize ((leads_round_iff hsize).mpr hq)))
  · intro h p hreach hround
    obtain ⟨q, hpq, -⟩ := TransGen.head'_iff.mp hround
    refine ⟨q, hpq, (hpq.spec.2).resolve_right fun hback => h p hback hreach hround⟩

/-- In a file of less than 2 GiB nothing is sent back. -/
theorem not_sentBack {bytes : List UInt8} (hsize : bytes.length < 2147483648) (p : ℕ) : ¬ SentBack bytes p := by
  intro h
  have hin := h.skip.inside
  have hfar := h.far
  omega

/-- A segment with length 0, fill bytes and the end of the file. -/
theorem jpegReadGeometry_ends_malformed : Ends [0xFF, 0xD8, 0xFF, 0xE0, 0x00, 0x00, 0xFF, 0xFF] :=
  (jpegReadGeometry_ends_iff [0xFF, 0xD8, 0xFF, 0xE0, 0x00, 0x00, 0xFF, 0xFF] (by decide)).mpr
    fun p hback => absurd hback (not_sentBack (by decide) p)

/-! ### Small files -/

/-- Behind the end it does not matter where. -/
theorem readWord_behind {bytes : List UInt8} {p : ℕ} (h : bytes.length ≤ p) :
    readWord ⟨bytes, p⟩ = .error .readFail := by
  simp [readWord, readData, List.drop_eq_nil_of_le h, Except.map]

/-- Below 2 GiB this is the loop with positions that are plain numbers. -/
theorem jpegReadGeometry_eq {bytes : List UInt8} (hsize : bytes.length < 2147483648) : ∀ (fuel p : ℕ),
    Jpeg.jpegReadGeometry fuel ⟨bytes, p⟩ = (walk (round bytes) fuel (min p bytes.length)).getRight? := by
  intro fuel
  induction fuel with
  | zero => exact fun p => rfl
  | succ fuel ih =>
    intro p
    have hlt := wordAt_lt bytes (p + 2)
    rw [Jpeg.jpegReadGeometry]
    by_cases hend : bytes.length ≤ p
    · rw [Nat.min_eq_right hend, walk, round, readWord_behind hend, readWord_behind (Nat.le_refl _)]
      rfl
    rw [Nat.min_eq_left (by omega)]
    by_cases h2 : p + 2 ≤ bytes.length
    swap
    · obtain ⟨e, he⟩ := readWord_short bytes p (by omega)
      rw [walk, round, he]
      rfl
    obtain ⟨n, hn, hrev⟩ := readWord_of_le _ _ h2
    simp only [hn, hrev]
    by_cases halone : isStandalone (wordAt bytes p)
    · rw [if_pos halone, ih, Nat.min_eq_left h2, walk_succ_of_leads (round_standalone h2 halone)]
    rw [if_neg halone]
    by_cases hseg : isSegment (wordAt bytes p)
    swap
    · rw [if_neg hseg, walk, round_corrupted h2 halone hseg]
      rfl
    rw [if_pos hseg]
    by_cases h4 : p + 4 ≤ bytes.length
    swap
    · obtain ⟨e, he⟩ := readWord_short bytes (p + 2) (by omega)
      rw [walk, round]
      simp only [hn, hrev, if_neg halone, if_pos hseg, he]
      rfl
    obtain ⟨m, hm, hrev'⟩ := readWord_of_le bytes (p + 2) h4
    simp only [hm, hrev']
    by_cases hframe : isFrame (wordAt bytes p)
    · rw [if_pos hframe, walk, round_frame h4 halone hseg hframe]
      rfl
    · have hskip : SkipAt bytes p := ⟨h4, halone, hseg, hframe⟩
      have hgo := (leads_round_iff (by omega)).mpr (GoesOn.skip hskip (by omega) (by omega))
      have hpos : (p + 2 + 2 + wordAt bytes (p + 2) - 2) % 2 ^ 32 = p + 2 + wordAt bytes (p + 2) := by omega
      rw [if_neg hframe, Jpeg.fileSeek, hpos, ih, walk_succ_of_leads hgo]

/-! ### A file that is read for ever -/

/-- Segments of 65537 bytes, one of 32767 bytes, and one across the first 2 GiB with length 3. -/
def endlessByte (i : ℕ) : UInt8 :=
  if i < 2147450879 then [0xFF, 0xE0, 0xFF, 0xFF].getD (i % 65537) 0
  else if i < 2147483646 then [0xFF, 0xE0, 0x7F, 0xFD].getD (i - 2147450879) 0
  else [0xFF, 0xE0, 0x00, 0x03].getD (i - 2147483646) 0

section

variable {bytes : List UInt8} (hlen : bytes.length = 2147483650)
  (hbytes : ∀ i < 2147483650, bytes.getD i 0 = endlessByte i)

include hbytes

theorem endless_size {p : ℕ} (hp : p + 4 ≤ 2147483650) :
    wordAt bytes (p + 2) = (endlessByte (p + 2)).toNat * 256 + (endlessByte (p + 3)).toNat := by
  rw [wordAt, hbytes (p + 2) (by omega), hbytes (p + 2 + 1) (by omega)]

include hlen

theorem endless_skipAt {p : ℕ} (hp : p + 4 ≤ 2147483650) (h0 : endlessByte p = 0xFF) (h1 : endlessByte (p + 1) = 0xE0) :
    SkipAt bytes p := by
  have hword : wordAt bytes p = 0xFFE0 := by
    rw [wordAt, hbytes p (by omega), hbytes (p + 1) (by omega), h0, h1]
    rfl
  refine ⟨hlen ▸ hp, ?_, ?_, ?_⟩
  · rw [hword]
    decide
  · rw [hword]
    decide
  · rw [hword]
    decide

/-- The long segments, one after the other. -/
theorem endless_reach : ∀ k ≤ 32767, ReflTransGen (GoesOn bytes) 0 (65537 * k)
  | 0, _ => .refl
  | k + 1, hk => by
      refine (endless_reach k (by omega)).tail ?_
      have hbyte : ∀ j < 4, endlessByte (65537 * k + j) = [0xFF, 0xE0, 0xFF, 0xFF].getD j 0 := by
        intro j hj
        rw [endlessByte, if_pos (by omega), show (65537 * k + j) % 65537 = j by omega]
      have hskip := endless_skipAt hlen hbytes (p := 65537 * k) (by omega) (hbyte 0 (by decide)) (hbyte 1 (by decide))
      have hsize : wordAt bytes (65537 * k + 2) = 65535 := by
        rw [endless_size hbytes (by omega), hbyte 2 (by decide), hbyte 3 (by decide)]
        rfl
      have hmin : min (65537 * k + 2 + wordAt bytes (65537 * k + 2)) bytes.length = 65537 * (k + 1) := by
        rw [hsize, hlen]
        omega
      have hgo := GoesOn.skip hskip (by omega) (by rw [hmin]; omega)
      rwa [hmin] at hgo

theorem endless_not_ends : ¬ Ends bytes := by
  have hlast : GoesOn bytes 2147450879 2147483646 := by
    have hskip := endless_skipAt hlen hbytes (p := 2147450879) (by decide) (by decide) (by decide)
    have hsize : wordAt bytes (2147450879 + 2) = 32765 := by
      rw [endless_size hbytes (by decide)]
      decide
    have hmin : min (2147450879 + 2 + wordAt bytes (2147450879 + 2)) bytes.length = 2147483646 := by
      rw [hsize, hlen]
      decide
    have hgo := GoesOn.skip hskip (by decide) (by rw [hmin]; decide)
    rwa [hmin] at hgo
  have hback : SentBack bytes 2147483646 := by
    refine ⟨endless_skipAt hlen hbytes (by decide) (by decide) (by decide), by decide, ?_⟩
    rw [endless_size hbytes (by decide)]
    decide
  have hzero : GoesOn bytes 2147483646 0 := by
    have hgo := GoesOn.back hback
    rwa [endless_size hbytes (by decide)] at hgo
  have hreach : ReflTransGen (GoesOn bytes) 0 2147483646 := (endless_reach hlen hbytes 32767 (by decide)).tail hlast
  have hround : TransGen (Leads (round bytes)) 0 0 := by
    rw [leads_eq (by omega)]
    exact TransGen.tail' hreach hzero
  rintro ⟨⟨n, r, hr, -⟩, -⟩
  obtain ⟨c, hc⟩ := walk_of_cycle hround n
  rw [jpegReadGeometry, hc] at hr
  exact nomatch hr

end

/-- A file of 2 GiB and two bytes: the loop is never left. -/
theorem jpegReadGeometry_endless : ¬ Ends ((List.range 2147483650).map endlessByte) := by
  refine endless_not_ends ?_ fun i hi => ?_
  · rw [List.length_map, List.length_range]
  · rw [List.getD_eq_getElem?_getD, List.getElem?_map, List.getElem?_range hi]
    rfl

end OpenMV.Jpeg.Fat
