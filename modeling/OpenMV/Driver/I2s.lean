import Mathlib.Data.Nat.Bitwise
import Mathlib.Logic.Function.Basic

/-! Audio samples for the I2S | scheme:loop | source:src/src/bsp/driver/drv_i2s.c

    `ki2s_send` hands samples of 16 or 32 bits in two tracks to the DMA as they are; all others go through
    `voice_to16`, which makes frames of two 16-bit samples of them. The number of frames is the length over the
    bytes of one sample. Samples are in the order of the processor, the lowest byte first; of wider samples the lower
    16 bits are taken. -/

namespace OpenMV.Driver

/-! ### The code -/

/-- `j` and `buf`, the bytes of `pcm` that were read and the places of `buf` that were stored to. -/
structure Voice where
  j : ℕ
  buf : ℕ → ℕ
  reads : List ℕ
  writes : List ℕ

/-- `buf[2 * i]` and `buf[2 * i + 1]` -/
def Voice.put (s : Voice) (i left right : ℕ) (reads : List ℕ) : Voice :=
  { s with
    buf := Function.update (Function.update s.buf (2 * i) left) (2 * i + 1) right
    reads := s.reads ++ reads
    writes := s.writes ++ [2 * i, 2 * i + 1] }

section Code

variable (pcm : ℕ → UInt8)

def byteAt (o : ℕ) : ℕ := (pcm o).toNat

/-- `((uint16_t *)pcm)[i]` -/
def load16 (i : ℕ) : ℕ := byteAt pcm (2 * i) + 256 * byteAt pcm (2 * i + 1)

/-- `((uint32_t *)pcm)[i]` -/
def load32 (i : ℕ) : ℕ := byteAt pcm (4 * i) + 256 * byteAt pcm (4 * i + 1) + 65536 * byteAt pcm (4 * i + 2) +
  16777216 * byteAt pcm (4 * i + 3)

def frame16 (s : Voice) (i : ℕ) : Voice := s.put i (load16 pcm i) 0 [2 * i, 2 * i + 1]

def frame24 (trackNum : ℕ) (s : Voice) (i : ℕ) : Voice :=
  let left := 0 ||| byteAt pcm s.j ||| byteAt pcm (s.j + 1) <<< 8
  if trackNum = 2 then
    let right := 0 ||| byteAt pcm (s.j + 3) ||| byteAt pcm (s.j + 4) <<< 8
    { s.put i left right [s.j, s.j + 1, s.j + 3, s.j + 4] with j := s.j + 6 }
  else { s.put i left 0 [s.j, s.j + 1] with j := s.j + 3 }

def frame32 (s : Voice) (i : ℕ) : Voice :=
  s.put i (load32 pcm i % 65536) 0 [4 * i, 4 * i + 1, 4 * i + 2, 4 * i + 3]

/-- The number of frames. -/
def frameCount (length bps : ℕ) : ℕ :=
  match bps with
  | 16 => length / 2
  | 24 => length / 3
  | _ => length / 4

/-- A round of the loop. -/
def voiceFrame (trackNum bps : ℕ) : Voice → ℕ → Voice :=
  match bps with
  | 16 => frame16 pcm
  | 24 => frame24 pcm trackNum
  | _ => frame32 pcm

/-- `voice_to16`, with what is stored to `send_len`. -/
def voiceTo16 (length trackNum bps : ℕ) (buf : ℕ → ℕ) : Voice × ℕ :=
  ((List.range (frameCount length bps)).foldl (voiceFrame pcm trackNum bps) ⟨0, buf, [], []⟩,
    frameCount length bps * 2 * 2)

/-- What `ki2s_send` gives to the DMA. -/
inductive Sent where
  | asIs (len bps : ℕ)
  | converted (voice : Voice) (len : ℕ)

def ki2sSend (len trackNum bps : ℕ) (txBuf : ℕ → ℕ) : Sent :=
  if (bps = 16 ∨ bps = 32) ∧ trackNum = 2 then .asIs len bps
  else
    let r := voiceTo16 pcm len trackNum bps txBuf
    .converted r.1 r.2

end Code

/-! ### The loops -/

/-- What a loop leaves behind that stores the frames `left` and `right` and reads `reads` for each. -/
def framesDone (j : ℕ) (buf left right : ℕ → ℕ) (reads : ℕ → List ℕ) (n : ℕ) : Voice :=
  { j := j
    buf := fun k => if k < 2 * n then (if k % 2 = 0 then left (k / 2) else right (k / 2)) else buf k
    reads := (List.range n).flatMap reads
    writes := (List.range n).flatMap fun i => [2 * i, 2 * i + 1] }

theorem framesDone_put (j : ℕ) (buf left right : ℕ → ℕ) (reads : ℕ → List ℕ) (n : ℕ) :
    (framesDone j buf left right reads n).put n (left n) (right n) (reads n) =
      framesDone j buf left right reads (n + 1) := by
  unfold framesDone Voice.put
  congr 1
  · funext k
    dsimp only
    rw [Function.update_apply, Function.update_apply]
    rcases lt_or_ge k (2 * n) with hk | hk
    · rw [if_neg (by omega), if_neg (by omega), if_pos hk, if_pos (show k < 2 * (n + 1) by omega)]
    · by_cases h1 : k = 2 * n + 1
      · rw [if_pos h1, if_pos (show k < 2 * (n + 1) by omega), if_neg (by omega), show k / 2 = n by omega]
      · rw [if_neg h1]
        by_cases h0 : k = 2 * n
        · rw [if_pos h0, if_pos (show k < 2 * (n + 1) by omega), if_pos (by omega), show k / 2 = n by omega]
        · rw [if_neg h0, if_neg (by omega), if_neg (by omega)]
  · rw [List.range_succ, List.flatMap_append, List.flatMap_singleton]
  · rw [List.range_succ, List.flatMap_append, List.flatMap_singleton]

/-- A loop whose rounds read and store what does not depend on the rounds before. -/
theorem foldl_frames {step : Voice → ℕ → Voice} {left right : ℕ → ℕ} {reads : ℕ → List ℕ} (stride : ℕ) (buf : ℕ → ℕ)
    (hstep : ∀ s i, s.j = i * stride → step s i = { s.put i (left i) (right i) (reads i) with j := (i + 1) * stride }) :
    ∀ n, (List.range n).foldl step ⟨0, buf, [], []⟩ = framesDone (n * stride) buf left right reads n
  | 0 => by simp [framesDone]
  | n + 1 => by
      rw [List.range_succ, List.foldl_append, foldl_frames stride buf hstep n, List.foldl_cons, List.foldl_nil,
        hstep _ _ rfl]
      have h := framesDone_put (n * stride) buf left right reads n
      rw [h]
      rfl

/-! ### What the frames are to hold -/

section Spec

variable (pcm : ℕ → UInt8)

/-- The lower 16 bits of the sample at byte `o`. -/
def sampleAt (o : ℕ) : ℕ := byteAt pcm o + 256 * byteAt pcm (o + 1)

/-- The sample of a track of frame `i`, where samples are `bps` bits wide. -/
def trackSample (trackNum bps i track : ℕ) : ℕ := sampleAt pcm ((i * trackNum + track) * (bps / 8))

/-- Only the samples are read, only the frames are stored, and each holds an input frame, the one of its number. -/
structure VoiceRight (length trackNum bps : ℕ) (voice : Voice) (sendLen : ℕ) : Prop where
  reads : ∀ o ∈ voice.reads, o < length
  writes : ∀ k ∈ voice.writes, k < sendLen / 2
  frames : ∀ i < sendLen / 4, (i + 1) * (trackNum * (bps / 8)) ≤ length ∧
    voice.buf (2 * i) = trackSample pcm trackNum bps i 0 ∧
    voice.buf (2 * i + 1) = if trackNum = 2 then trackSample pcm trackNum bps i 1 else 0

end Spec

theorem byteAt_lt (pcm : ℕ → UInt8) (o : ℕ) : byteAt pcm o < 256 := UInt8.toNat_lt _

/-- The two bytes of a sample of 24 bits. -/
theorem or_bytes (pcm : ℕ → UInt8) (o : ℕ) : 0 ||| byteAt pcm o ||| byteAt pcm (o + 1) <<< 8 = sampleAt pcm o := by
  rw [Nat.zero_or, Nat.or_comm, ← Nat.shiftLeft_add_eq_or_of_lt (byteAt_lt pcm o), Nat.shiftLeft_eq, sampleAt]
  omega

section Run

variable (pcm : ℕ → UInt8) (buf : ℕ → ℕ)

theorem foldl_frame16 (n : ℕ) : (List.range n).foldl (frame16 pcm) ⟨0, buf, [], []⟩ =
    framesDone 0 buf (fun i => sampleAt pcm (i * 2)) (fun _ => 0) (fun i => [i * 2, i * 2 + 1]) n := by
  rw [foldl_frames 0 buf (fun s i hj => ?_), Nat.mul_zero]
  rw [frame16, load16, Nat.mul_comm 2 i, ← sampleAt]
  cases s
  simp_all [Voice.put]

theorem foldl_frame32 (n : ℕ) : (List.range n).foldl (frame32 pcm) ⟨0, buf, [], []⟩ =
    framesDone 0 buf (fun i => sampleAt pcm (i * 4)) (fun _ => 0)
      (fun i => [i * 4, i * 4 + 1, i * 4 + 2, i * 4 + 3]) n := by
  have hlow : ∀ i, load32 pcm i % 65536 = sampleAt pcm (i * 4) := by
    intro i
    have h0 := byteAt_lt pcm (i * 4)
    have h1 := byteAt_lt pcm (i * 4 + 1)
    rw [load32, sampleAt, Nat.mul_comm 4 i]
    omega
  rw [foldl_frames 0 buf (fun s i hj => ?_), Nat.mul_zero]
  rw [frame32, hlow, Nat.mul_comm 4 i]
  cases s
  simp_all [Voice.put]

theorem foldl_frame24_one (n : ℕ) : (List.range n).foldl (frame24 pcm 1) ⟨0, buf, [], []⟩ =
    framesDone (n * 3) buf (fun i => sampleAt pcm (i * 3)) (fun _ => 0) (fun i => [i * 3, i * 3 + 1]) n := by
  rw [foldl_frames 3 buf fun s i hj => ?_]
  rw [frame24, if_neg (by decide), or_bytes, hj, Nat.succ_mul]

theorem foldl_frame24_two (n : ℕ) : (List.range n).foldl (frame24 pcm 2) ⟨0, buf, [], []⟩ =
    framesDone (n * 6) buf (fun i => sampleAt pcm (i * 6)) (fun i => sampleAt pcm (i * 6 + 3))
      (fun i => [i * 6, i * 6 + 1, i * 6 + 3, i * 6 + 4]) n := by
  rw [foldl_frames 6 buf fun s i hj => ?_]
  rw [frame24, if_pos rfl, or_bytes, or_bytes, hj, Nat.succ_mul]

theorem framesDone_right {length trackNum bps j n : ℕ} {left right : ℕ → ℕ} {reads : ℕ → List ℕ}
    (hin : ∀ i < n, (i + 1) * (trackNum * (bps / 8)) ≤ length)
    (hreads : ∀ i < n, ∀ o ∈ reads i, o < (i + 1) * (trackNum * (bps / 8)))
    (hleft : ∀ i, left i = trackSample pcm trackNum bps i 0)
    (hright : ∀ i, right i = if trackNum = 2 then trackSample pcm trackNum bps i 1 else 0) :
    VoiceRight pcm length trackNum bps (framesDone j buf left right reads n) (n * 2 * 2) := by
  constructor
  · intro o ho
    obtain ⟨i, hi, ho⟩ := List.mem_flatMap.1 ho
    rw [List.mem_range] at hi
    exact (hreads i hi o ho).trans_le (hin i hi)
  · intro k hk
    obtain ⟨i, hi, hk⟩ := List.mem_flatMap.1 hk
    rw [List.mem_range] at hi
    simp only [List.mem_cons, List.not_mem_nil, or_false] at hk
    omega
  · intro i hi
    rw [← hleft, ← hright, framesDone]
    dsimp only
    rw [if_pos (by omega), if_pos (by omega), if_pos (by omega), if_neg (by omega)]
    exact ⟨hin i (by omega), congrArg left (by omega), congrArg right (by omega)⟩

end Run

/-- All is right but for samples of 24 bits in two tracks, of which as many frames are made as there are samples. -/
theorem voice_to16_iff (pcm : ℕ → UInt8) (buf : ℕ → ℕ) (length trackNum bps : ℕ) (htrack : trackNum = 1 ∨ trackNum = 2)
    (hbps : bps = 16 ∨ bps = 24 ∨ bps = 32) (voice : Voice) (sendLen : ℕ)
    (hsent : ki2sSend pcm length trackNum bps buf = .converted voice sendLen) :
    VoiceRight pcm length trackNum bps voice sendLen ↔ ¬ (bps = 24 ∧ trackNum = 2 ∧ 3 ≤ length) := by
  unfold ki2sSend at hsent
  split_ifs at hsent with hdirect
  obtain ⟨rfl, rfl⟩ := Sent.converted.inj hsent
  rcases hbps with rfl | rfl | rfl
  · obtain rfl : trackNum = 1 := htrack.resolve_right fun h => hdirect ⟨Or.inl rfl, h⟩
    refine iff_of_true ?_ (by omega)
    rw [voiceTo16, voiceFrame, frameCount, foldl_frame16]
    dsimp only
    refine framesDone_right pcm buf (fun i hi => ?_) (fun i _ o ho => ?_) (fun i => ?_) fun i => rfl
    · omega
    · simp only [List.mem_cons, List.not_mem_nil, or_false] at ho
      omega
    · simp [trackSample]
  · rcases htrack with rfl | rfl
    · refine iff_of_true ?_ (by omega)
      rw [voiceTo16, voiceFrame, frameCount, foldl_frame24_one]
      dsimp only
      refine framesDone_right pcm buf (fun i hi => ?_) (fun i _ o ho => ?_) (fun i => ?_) fun i => rfl
      · omega
      · simp only [List.mem_cons, List.not_mem_nil, or_false] at ho
        omega
      · simp [trackSample]
    · rw [voiceTo16, voiceFrame, frameCount, foldl_frame24_two]
      dsimp only
      constructor
      · rintro ⟨-, -, hframes⟩ ⟨-, -, hlen⟩
        have hlast := (hframes (length / 3 - 1) (by omega)).1
        omega
      · intro hshort
        refine framesDone_right pcm buf (fun i hi => ?_) (fun i _ o ho => ?_) (fun i => ?_) fun i => ?_
        · exact absurd ⟨rfl, rfl, by omega⟩ hshort
        · simp only [List.mem_cons, List.not_mem_nil, or_false] at ho
          omega
        · rw [trackSample, Nat.add_zero, Nat.mul_assoc]
        · rw [if_pos rfl, trackSample, Nat.add_mul, Nat.mul_assoc, Nat.one_mul]
  · obtain rfl : trackNum = 1 := htrack.resolve_right fun h => hdirect ⟨Or.inr rfl, h⟩
    refine iff_of_true ?_ (by omega)
    rw [voiceTo16, voiceFrame, frameCount, foldl_frame32]
    · dsimp only
      refine framesDone_right pcm buf (fun i hi => ?_) (fun i _ o ho => ?_) (fun i => ?_) fun i => rfl
      · omega
      · simp only [List.mem_cons, List.not_mem_nil, or_false] at ho
        omega
      · simp [trackSample]
    all_goals decide

/-- Three samples of 24 bits in one track. -/
theorem voice_to16_three_samples : ∃ voice, ki2sSend (fun o => .ofNat (17 * o + 5)) 9 1 24 (fun _ => 7) =
      .converted voice 12 ∧
    VoiceRight (fun o => .ofNat (17 * o + 5)) 9 1 24 voice 12 :=
  ⟨_, rfl, (voice_to16_iff _ _ 9 1 24 (Or.inl rfl) (Or.inr (Or.inl rfl)) _ _ rfl).2 (by decide)⟩

/-- One frame of two samples of 24 bits: bytes 6 to 10 are not there. -/
theorem voice_to16_past_the_end : ∃ voice sendLen,
    ki2sSend (fun _ => 0) 6 2 24 (fun _ => 0) = .converted voice sendLen ∧
      10 ∈ voice.reads ∧ ¬ VoiceRight (fun _ => 0) 6 2 24 voice sendLen := by
  refine ⟨_, _, rfl, by decide, fun h => ?_⟩
  exact absurd (h.reads 10 (by decide)) (by decide)

end OpenMV.Driver
