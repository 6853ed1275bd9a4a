import OpenMV.Draw.Area
import OpenMV.Draw.Cover

/-! Constant images | scheme:resampling | source:src/src/openmv/omv/img/draw.c

    Scaling is meant to keep a constant image constant, and to stay between the smallest and the largest
    value of each channel. That is so for all algorithms (bicubic overshoots, as it should) but the slow
    area one, where it depends on the level and on where each pixel lies in the source. -/

namespace OpenMV.Draw
open Vision Filters

/-! ### Channels -/

def channelsOf : Bpp → List Channel
  | .rgb565 => [⟨colorRgb565ToR5, 5⟩, ⟨colorRgb565ToG6, 6⟩, ⟨colorRgb565ToB5, 5⟩]
  | _ => [⟨id, 8⟩]

section

variable {bpp : Bpp} (hb : bpp = .grayscale ∨ bpp = .rgb565)

include hb

theorem channel_mem {p : ℤ} (hp : 0 ≤ p ∧ p < levels bpp) {ch : Channel} (hch : ch ∈ channelsOf bpp) :
    0 ≤ ch.get p ∧ ch.get p < 2 ^ ch.bits := by
  rcases hb with rfl | rfl
  · simp only [channelsOf, List.mem_singleton] at hch
    subst hch
    exact hp
  · simp only [channelsOf, List.mem_cons, List.not_mem_nil, or_false] at hch
    rcases hch with rfl | rfl | rfl <;>
      simp only [colorRgb565ToR5, colorRgb565ToG6, colorRgb565ToB5] <;> omega

theorem channel_bits {ch : Channel} (hch : ch ∈ channelsOf bpp) : (2 : ℤ) ^ ch.bits ≤ 256 := by
  rcases hb with rfl | rfl <;> simp only [channelsOf, List.mem_cons, List.not_mem_nil, or_false] at hch <;>
    rcases hch with rfl | rfl | rfl <;> norm_num

/-- A pixel put together from channels. -/
theorem perChannel_spec {k : Channel → ℤ} (h : ∀ ch ∈ channelsOf bpp, 0 ≤ k ch ∧ k ch < 2 ^ ch.bits) :
    (0 ≤ perChannel bpp k ∧ perChannel bpp k < levels bpp) ∧
      ∀ ch ∈ channelsOf bpp, ch.get (perChannel bpp k) = k ch := by
  rcases hb with rfl | rfl
  · simp only [channelsOf, List.mem_singleton, forall_eq] at h ⊢
    exact ⟨h, rfl⟩
  · simp only [channelsOf, List.forall_mem_cons, List.not_mem_nil, false_implies, implies_true, and_true] at h ⊢
    obtain ⟨h1, h2, h3⟩ := h
    norm_num at h1 h2 h3
    simp only [perChannel, colorR5G6B5ToRgb565_of_mem h1 h2 h3, levels, colorRgb565ToR5, colorRgb565ToG6,
      colorRgb565ToB5]
    omega

/-- A pixel is given by its channels. -/
theorem channels_ext {p q : ℤ} (hp : 0 ≤ p ∧ p < levels bpp) (hq : 0 ≤ q ∧ q < levels bpp)
    (h : ∀ ch ∈ channelsOf bpp, ch.get p = ch.get q) : p = q := by
  rcases hb with rfl | rfl
  · exact h ⟨id, 8⟩ (by simp [channelsOf])
  · simp only [channelsOf, List.forall_mem_cons, List.not_mem_nil, false_implies, implies_true, and_true,
      colorRgb565ToR5, colorRgb565ToG6, colorRgb565ToB5, levels] at h hp hq
    omega

end

/-! ### Bilinear -/

theorem mixGrayscale_bounds (acc : ℤ) {p q lo hi : ℤ} (hp : lo ≤ p ∧ p ≤ hi) (hq : lo ≤ q ∧ q ≤ hi) :
    lo ≤ mixGrayscale acc p q ∧ mixGrayscale acc p q ≤ hi := by
  unfold mixGrayscale
  simp only
  have hw : 0 ≤ acc / 256 % 256 ∧ acc / 256 % 256 < 256 := by omega
  generalize acc / 256 % 256 = w at hw
  have h1 := mul_le_mul_of_nonneg_left hp.1 (by omega : 0 ≤ 256 - w)
  have h2 := mul_le_mul_of_nonneg_left hp.2 (by omega : 0 ≤ 256 - w)
  have h3 := mul_le_mul_of_nonneg_left hq.1 hw.1
  have h4 := mul_le_mul_of_nonneg_left hq.2 hw.1
  have h5 : (256 - w) * lo + w * lo = 256 * lo := by ring
  have h6 : (256 - w) * hi + w * hi = 256 * hi := by ring
  omega

/-- One channel of the mix for RGB565. -/
def mixChannel (acc p q : ℤ) : ℤ :=
  let w := acc / 2048 % 32
  ((32 - w) * p + w * q + 16) / 32

theorem mixChannel_bounds (acc : ℤ) {p q lo hi : ℤ} (hp : lo ≤ p ∧ p ≤ hi) (hq : lo ≤ q ∧ q ≤ hi) :
    lo ≤ mixChannel acc p q ∧ mixChannel acc p q ≤ hi := by
  unfold mixChannel
  simp only
  have hw : 0 ≤ acc / 2048 % 32 ∧ acc / 2048 % 32 < 32 := by omega
  generalize acc / 2048 % 32 = w at hw
  have h1 := mul_le_mul_of_nonneg_left hp.1 (by omega : 0 ≤ 32 - w)
  have h2 := mul_le_mul_of_nonneg_left hp.2 (by omega : 0 ≤ 32 - w)
  have h3 := mul_le_mul_of_nonneg_left hq.1 hw.1
  have h4 := mul_le_mul_of_nonneg_left hq.2 hw.1
  have h5 : (32 - w) * lo + w * lo = 32 * lo := by ring
  have h6 : (32 - w) * hi + w * hi = 32 * hi := by ring
  omega

/-- Red and blue do not run into each other. -/
theorem mixRgb565_rb (acc : ℤ) {r r' b b' : ℤ} (hr : 0 ≤ r ∧ r ≤ 31) (hr' : 0 ≤ r' ∧ r' ≤ 31) (hb : 0 ≤ b ∧ b ≤ 31)
    (hb' : 0 ≤ b' ∧ b' ≤ 31) :
    mixRgb565 acc 0x4010 (r * 1024 + b) (r' * 1024 + b') / 1024 % 32 = mixChannel acc r r' ∧
    mixRgb565 acc 0x4010 (r * 1024 + b) (r' * 1024 + b') % 32 = mixChannel acc b b' := by
  have hmr := mixChannel_bounds acc hr hr'
  have hmb := mixChannel_bounds acc hb hb'
  unfold mixRgb565 mixChannel at *
  simp only at hmr hmb ⊢
  generalize acc / 2048 % 32 = w at *
  have hsplit : (32 - w) * (r * 1024 + b) + w * (r' * 1024 + b') =
      ((32 - w) * r + w * r') * 1024 + ((32 - w) * b + w * b') := by ring
  rw [hsplit]
  generalize (32 - w) * r + w * r' = R at *
  generalize (32 - w) * b + w * b' = C at *
  omega

theorem mixRgb565_g (acc : ℤ) {g g' : ℤ} (hg : 0 ≤ g ∧ g ≤ 63) (hg' : 0 ≤ g' ∧ g' ≤ 63) :
    maskG (mixRgb565 acc 0x200 (g * 32) (g' * 32)) = mixChannel acc g g' * 32 := by
  have hm := mixChannel_bounds acc hg hg'
  unfold maskG mixRgb565 mixChannel at *
  simp only at hm ⊢
  generalize acc / 2048 % 32 = w at *
  have hsplit : (32 - w) * (g * 32) + w * (g' * 32) = ((32 - w) * g + w * g') * 32 := by ring
  rw [hsplit]
  generalize (32 - w) * g + w * g' = G at *
  omega

/-! ### The range of a channel -/

/-- The value is put together from channels that are not below and not above what is read. -/
def RangeKept (bpp : Bpp) (alg : Algorithm) (ax ay : Axis) (xa ya : ℤ) (px : ℤ → ℤ → ℤ) : Prop :=
  ∃ k, (alg.resampler bpp ax ay px).sample xa ya = perChannel bpp k ∧
    ∀ ch ∈ channelsOf bpp, ∀ lo hi, 0 ≤ lo → hi < 2 ^ ch.bits →
      (∀ x ∈ alg.taps ax xa, ∀ y ∈ alg.taps ay ya, lo ≤ ch.get (px x y) ∧ ch.get (px x y) ≤ hi) →
      lo ≤ k ch ∧ k ch ≤ hi

section

variable {bpp : Bpp} (hb : bpp = .grayscale ∨ bpp = .rgb565) {ax ay : Axis} {xa ya : ℤ} {px : ℤ → ℤ → ℤ}
  (hpx : ∀ x y, 0 ≤ px x y ∧ px x y < levels bpp)

include hb hpx

theorem rangeKept_nearest {alg : Algorithm} (halg : alg = .copy ∨ alg = .nearest) :
    RangeKept bpp alg ax ay xa ya px := by
  refine ⟨fun ch => ch.get (px (xa / 65536) (ya / 65536)), ?_, fun ch _ lo hi _ _ h => ?_⟩
  · rw [sample_nearest halg]
    obtain ⟨hmem, hget⟩ := perChannel_spec hb fun ch hch => channel_mem hb (hpx (xa / 65536) (ya / 65536)) hch
    exact channels_ext hb (hpx _ _) hmem fun ch hch => (hget ch hch).symm
  · rcases halg with rfl | rfl <;> exact h _ (by simp [Algorithm.taps]) _ (by simp [Algorithm.taps])

end

/-- Bilinear with a mix of its own for each direction. -/
def bilinearMix (m : ℤ → ℤ → ℤ → ℤ) (ax ay : Axis) (xa ya : ℤ) (g : ℤ → ℤ → ℤ) : ℤ :=
  let c := tap2 ax.size (xa / 65536)
  let r := tap2 ay.size (ya / 65536)
  m xa (m ya (g c.1 r.1) (g c.1 r.2)) (m ya (g c.2 r.1) (g c.2 r.2))

theorem bilinearMix_bounds {m : ℤ → ℤ → ℤ → ℤ} {lo hi : ℤ}
    (hm : ∀ acc {p q}, lo ≤ p ∧ p ≤ hi → lo ≤ q ∧ q ≤ hi → lo ≤ m acc p q ∧ m acc p q ≤ hi) {ax ay : Axis}
    {xa ya : ℤ} {g : ℤ → ℤ → ℤ}
    (h : ∀ x ∈ Algorithm.bilinear.taps ax xa, ∀ y ∈ Algorithm.bilinear.taps ay ya, lo ≤ g x y ∧ g x y ≤ hi) :
    lo ≤ bilinearMix m ax ay xa ya g ∧ bilinearMix m ax ay xa ya g ≤ hi := by
  simp only [Algorithm.taps, List.forall_mem_cons, List.not_mem_nil, false_implies, implies_true, and_true] at h
  obtain ⟨⟨h1, h2⟩, h3, h4⟩ := h
  exact hm xa (hm ya h1 h2) (hm ya h3 h4)

/-- For RGB565 the channels are mixed one by one. -/
theorem bilinearRgb565_sample (ax ay : Axis) (xa ya : ℤ) (px : ℤ → ℤ → ℤ) :
    (Algorithm.bilinear.resampler .rgb565 ax ay px).sample xa ya =
      perChannel .rgb565 fun ch => bilinearMix mixChannel ax ay xa ya fun x y => ch.get (px x y) := by
  have hr : ∀ x y, 0 ≤ colorRgb565ToR5 (px x y) ∧ colorRgb565ToR5 (px x y) ≤ 31 := by
    intro x y
    unfold colorRgb565ToR5
    omega
  have hg : ∀ x y, 0 ≤ colorRgb565ToG6 (px x y) ∧ colorRgb565ToG6 (px x y) ≤ 63 := by
    intro x y
    unfold colorRgb565ToG6
    omega
  have hbl : ∀ x y, 0 ≤ colorRgb565ToB5 (px x y) ∧ colorRgb565ToB5 (px x y) ≤ 31 := by
    intro x y
    unfold colorRgb565ToB5
    omega
  have hmr := fun x y y' => mixChannel_bounds ya (hr x y) (hr x y')
  have hmg := fun x y y' => mixChannel_bounds ya (hg x y) (hg x y')
  have hmb := fun x y y' => mixChannel_bounds ya (hbl x y) (hbl x y')
  have hrb := fun x y y' => mixRgb565_rb ya (hr x y) (hr x y') (hbl x y) (hbl x y')
  have hgg := fun x y y' => mixRgb565_g ya (hg x y) (hg x y')
  simp only [Algorithm.resampler, Resampler.sample, bilinearResampler, bilinearRgb565, rbOf, gOf, maskRb, hrb, hgg,
    perChannel, bilinearMix]
  rw [(mixRgb565_rb xa (hmr _ _ _) (hmr _ _ _) (hmb _ _ _) (hmb _ _ _)).1,
    (mixRgb565_rb xa (hmr _ _ _) (hmr _ _ _) (hmb _ _ _) (hmb _ _ _)).2, mixRgb565_g xa (hmg _ _ _) (hmg _ _ _)]
  have h1 := mixChannel_bounds xa
    (hmr (tap2 ax.size (xa / 65536)).1 (tap2 ay.size (ya / 65536)).1 (tap2 ay.size (ya / 65536)).2)
    (hmr (tap2 ax.size (xa / 65536)).2 (tap2 ay.size (ya / 65536)).1 (tap2 ay.size (ya / 65536)).2)
  have h2 := mixChannel_bounds xa
    (hmg (tap2 ax.size (xa / 65536)).1 (tap2 ay.size (ya / 65536)).1 (tap2 ay.size (ya / 65536)).2)
    (hmg (tap2 ax.size (xa / 65536)).2 (tap2 ay.size (ya / 65536)).1 (tap2 ay.size (ya / 65536)).2)
  have h3 := mixChannel_bounds xa
    (hmb (tap2 ax.size (xa / 65536)).1 (tap2 ay.size (ya / 65536)).1 (tap2 ay.size (ya / 65536)).2)
    (hmb (tap2 ax.size (xa / 65536)).2 (tap2 ay.size (ya / 65536)).1 (tap2 ay.size (ya / 65536)).2)
  rw [colorR5G6B5ToRgb565_of_mem (by omega) (by omega) (by omega)]

section

variable {bpp : Bpp} (hb : bpp = .grayscale ∨ bpp = .rgb565) {ax ay : Axis} {xa ya : ℤ} {px : ℤ → ℤ → ℤ}

include hb

theorem rangeKept_bilinear : RangeKept bpp .bilinear ax ay xa ya px := by
  rcases hb with rfl | rfl
  · refine ⟨fun ch => bilinearMix mixGrayscale ax ay xa ya fun x y => ch.get (px x y), rfl, ?_⟩
    intro ch _ lo hi _ _ h
    exact bilinearMix_bounds (fun acc _ _ hp hq => mixGrayscale_bounds acc hp hq) h
  · refine ⟨_, bilinearRgb565_sample ax ay xa ya px, fun ch _ lo hi _ _ h => ?_⟩
    exact bilinearMix_bounds (fun acc _ _ hp hq => mixChannel_bounds acc hp hq) h

theorem rangeKept_areaFast (hx : 0 < boxSize ax xa) (hy : 0 < boxSize ay ya)
    (hfit : boxSize ax xa * boxSize ay ya ≤ 8388608) : RangeKept bpp .areaFast ax ay xa ya px := by
  refine ⟨fun ch => fastMean ax ay xa ya fun x y => ch.get (px x y), rfl, fun ch hch lo hi hlo hhi h => ?_⟩
  have hbits := channel_bits hb hch
  exact fastMean_bounds hx hy hfit hlo (by omega) h

end

section

variable {bpp : Bpp} (hb : bpp = .grayscale ∨ bpp = .rgb565) {alg : Algorithm} {ax ay : Axis} {xa ya : ℤ}
  {px : ℤ → ℤ → ℤ} (hpx : ∀ x y, 0 ≤ px x y ∧ px x y < levels bpp)

include hb hpx

/-- The value is a pixel, and each channel of it stays between the bounds. -/
theorem RangeKept.channel (h : RangeKept bpp alg ax ay xa ya px) :
    (0 ≤ (alg.resampler bpp ax ay px).sample xa ya ∧ (alg.resampler bpp ax ay px).sample xa ya < levels bpp) ∧
    ∀ ch ∈ channelsOf bpp, ∀ lo hi, 0 ≤ lo → hi < 2 ^ ch.bits →
      (∀ x ∈ alg.taps ax xa, ∀ y ∈ alg.taps ay ya, lo ≤ ch.get (px x y) ∧ ch.get (px x y) ≤ hi) →
      lo ≤ ch.get ((alg.resampler bpp ax ay px).sample xa ya) ∧
        ch.get ((alg.resampler bpp ax ay px).sample xa ya) ≤ hi := by
  obtain ⟨k, hk, hbounds⟩ := h
  have hrange : ∀ ch ∈ channelsOf bpp, 0 ≤ k ch ∧ k ch < 2 ^ ch.bits := by
    intro ch hch
    have := hbounds ch hch 0 (2 ^ ch.bits - 1) le_rfl (by omega) fun x _ y _ => by
      have := channel_mem hb (hpx x y) hch
      omega
    omega
  obtain ⟨hmem, hget⟩ := perChannel_spec hb hrange
  rw [hk]
  refine ⟨hmem, fun ch hch lo hi hlo hhi h => ?_⟩
  rw [hget ch hch]
  exact hbounds ch hch lo hi hlo hhi h

/-- A constant is kept. -/
theorem RangeKept.const (h : RangeKept bpp alg ax ay xa ya px) {c : ℤ} (hc : 0 ≤ c ∧ c < levels bpp)
    (hconst : ∀ x ∈ alg.taps ax xa, ∀ y ∈ alg.taps ay ya, px x y = c) :
    (alg.resampler bpp ax ay px).sample xa ya = c := by
  obtain ⟨hmem, hchannel⟩ := h.channel hb hpx
  refine channels_ext hb hmem hc fun ch hch => ?_
  have hcm := channel_mem hb hc hch
  have := hchannel ch hch (ch.get c) (ch.get c) hcm.1 hcm.2 fun x hx y hy => by rw [hconst x hx y hy]; omega
  omega

end

/-! ### Bicubic -/

theorem cubic_const (acc c : ℤ) : cubic acc c c c c = c * 65536 + 32768 := by
  unfold cubic
  simp only
  ring

theorem bicubic_sample_const {bpp : Bpp} (hb : bpp = .grayscale ∨ bpp = .rgb565) {ax ay : Axis} {xa ya : ℤ}
    {px : ℤ → ℤ → ℤ} {c : ℤ} (hc : 0 ≤ c ∧ c < levels bpp)
    (hconst : ∀ x ∈ Algorithm.bicubic.taps ax xa, ∀ y ∈ Algorithm.bicubic.taps ay ya, px x y = c) :
    (Algorithm.bicubic.resampler bpp ax ay px).sample xa ya = c := by
  have hsample : (Algorithm.bicubic.resampler bpp ax ay px).sample xa ya = perChannel bpp fun ch => ch.get c := by
    simp only [Algorithm.taps, List.forall_mem_cons, List.not_mem_nil, false_implies, implies_true,
      and_true] at hconst
    have hround : ∀ v : ℤ, (v * 65536 + 32768) / 65536 = v := by
      intro v
      omega
    have husat : ∀ ch ∈ channelsOf bpp, usatAsr (ch.get c * 65536 + 32768) ch.bits 16 = ch.get c := by
      intro ch hch
      have hcm := channel_mem hb hc hch
      unfold usatAsr
      norm_num [hround]
      omega
    simp only [Algorithm.resampler, Resampler.sample, bicubicResampler, cubicColumn, hconst, cubic_const, hround]
    rcases hb with rfl | rfl
    · exact husat ⟨id, 8⟩ (by simp [channelsOf])
    · simp only [perChannel]
      rw [husat ⟨colorRgb565ToR5, 5⟩ (by simp [channelsOf]), husat ⟨colorRgb565ToG6, 6⟩ (by simp [channelsOf]),
        husat ⟨colorRgb565ToB5, 5⟩ (by simp [channelsOf])]
  obtain ⟨hmem, hget⟩ := perChannel_spec hb fun ch hch => channel_mem hb hc hch
  rw [hsample]
  exact channels_ext hb hmem hc hget

/-! ### The slow area algorithm -/

/-- The level is kept where the loops are at the two accumulators. -/
def LevelKept (bits : ℕ) (ax ay : Axis) (xa ya c : ℤ) : Prop :=
  SidesFit bits (edges bits ax xa) (edges bits ay ya) c ∧ KeepsLevel bits (edges bits ax xa) (edges bits ay ya) c

instance (bits : ℕ) (ax ay : Axis) (xa ya c : ℤ) : Decidable (LevelKept bits ax ay xa ya c) :=
  inferInstanceAs (Decidable (_ ∧ _))

section

variable {bpp : Bpp} (hb : bpp = .grayscale ∨ bpp = .rgb565) {ax ay : Axis} {xa ya : ℤ} {px : ℤ → ℤ → ℤ}
  (hpx : ∀ x y, 0 ≤ px x y ∧ px x y < levels bpp) (hx : EdgesInside ax xa) (hy : EdgesInside ay ya)
  (hmem : ax.size * ay.size ≤ 8388608)

include hb hpx hx hy hmem

/-- The value is a pixel with the mean of each channel. -/
theorem slow_channel :
    (0 ≤ (Algorithm.areaSlow.resampler bpp ax ay px).sample xa ya ∧
      (Algorithm.areaSlow.resampler bpp ax ay px).sample xa ya < levels bpp) ∧
    ∀ ch ∈ channelsOf bpp, ch.get ((Algorithm.areaSlow.resampler bpp ax ay px).sample xa ya) =
      slowMean bpp ax ay xa ya fun x y => ch.get (px x y) := by
  refine perChannel_spec (k := fun ch => slowMean bpp ax ay xa ya fun x y => ch.get (px x y)) hb fun ch hch => ?_
  have hok := edges_ok (weightBits bpp) hx hy hmem
  have hbetween : Between 0 (2 ^ ch.bits - 1) (edges (weightBits bpp) ax xa) (edges (weightBits bpp) ay ya)
      fun x y => ch.get (px x y) := between_of_taps _ fun x _ y _ => by
    have := channel_mem hb (hpx x y) hch
    omega
  have hle := slowMean_le (weightBits_eq bpp) hok le_rfl hbetween
  rw [slowMean_eq hok]
  omega

/-- One channel that is constant: it is not raised, and kept if and only if the level is. -/
theorem slow_channel_const {ch : Channel} (hch : ch ∈ channelsOf bpp) {c : ℤ} (hc : 0 ≤ c ∧ c < 2 ^ ch.bits)
    (hconst : ∀ x ∈ Algorithm.areaSlow.taps ax xa, ∀ y ∈ Algorithm.areaSlow.taps ay ya, ch.get (px x y) = c) :
    ch.get ((Algorithm.areaSlow.resampler bpp ax ay px).sample xa ya) ≤ c ∧
    (c ≤ ch.get ((Algorithm.areaSlow.resampler bpp ax ay px).sample xa ya) ↔
      LevelKept (weightBits bpp) ax ay xa ya c) := by
  have hbits := channel_bits hb hch
  have hok := edges_ok (weightBits bpp) hx hy hmem
  rw [(slow_channel hb hpx hx hy hmem).2 ch hch, slowMean_eq hok]
  refine slowMean_const (weightBits_eq bpp) hok ⟨hc.1, by omega⟩ (between_of_taps _ fun x hx y hy => ?_)
  rw [hconst x hx y hy]
  omega

/-- A constant is kept if and only if the level of each channel is. -/
theorem slow_const_iff {c : ℤ} (hc : 0 ≤ c ∧ c < levels bpp)
    (hconst : ∀ x ∈ Algorithm.areaSlow.taps ax xa, ∀ y ∈ Algorithm.areaSlow.taps ay ya, px x y = c) :
    (Algorithm.areaSlow.resampler bpp ax ay px).sample xa ya = c ↔
      ∀ ch ∈ channelsOf bpp, LevelKept (weightBits bpp) ax ay xa ya (ch.get c) := by
  have hlevel := fun (ch : Channel) (hch : ch ∈ channelsOf bpp) => slow_channel_const hb hpx hx hy hmem hch
    (channel_mem hb hc hch) fun x hx y hy => by rw [hconst x hx y hy]
  constructor
  · intro h ch hch
    exact (hlevel ch hch).2.mp (by rw [h])
  · intro h
    refine channels_ext hb (slow_channel hb hpx hx hy hmem).1 hc fun ch hch => ?_
    exact le_antisymm (hlevel ch hch).1 ((hlevel ch hch).2.mpr (h ch hch))

/-- A channel stays between two bounds if the lower one is kept and the sides fit. -/
theorem slow_range {ch : Channel} (hch : ch ∈ channelsOf bpp) {lo hi : ℤ} (hlo : 0 ≤ lo) (hhi : hi < 2 ^ ch.bits)
    (hfit : SidesFit (weightBits bpp) (edges (weightBits bpp) ax xa) (edges (weightBits bpp) ay ya) hi)
    (hkept : LevelKept (weightBits bpp) ax ay xa ya lo)
    (h : ∀ x ∈ Algorithm.areaSlow.taps ax xa, ∀ y ∈ Algorithm.areaSlow.taps ay ya,
      lo ≤ ch.get (px x y) ∧ ch.get (px x y) ≤ hi) :
    lo ≤ ch.get ((Algorithm.areaSlow.resampler bpp ax ay px).sample xa ya) ∧
      ch.get ((Algorithm.areaSlow.resampler bpp ax ay px).sample xa ya) ≤ hi := by
  have hbits := channel_bits hb hch
  have hok := edges_ok (weightBits bpp) hx hy hmem
  have hbetween := between_of_taps (f := fun x y => ch.get (px x y)) (weightBits bpp) h
  rw [(slow_channel hb hpx hx hy hmem).2 ch hch, slowMean_eq hok]
  exact ⟨le_slowMean (weightBits_eq bpp) hok hfit hlo (by omega) hbetween hkept.2,
    (slowMean_le (weightBits_eq bpp) hok hlo hbetween).2⟩

end

/-! ### Where the loops are -/

/-- The accumulator when a drawn column is computed. -/
def Phase (dstSize size offset : ℤ) (scale : ℚ) (center halfPixel : Bool) (acc : ℤ) : Prop :=
  let scaled := scaledSize size scale
  let pos := posOf scaled offset center
  ∃ k, (0 ≤ k ∧ k < min (pos + scaled) dstSize - max pos 0) ∧
    acc = ⌊((cutOff dstSize scaled pos scale * 65536 : ℤ) : ℚ) / |scale|⌋ - (if halfPixel then 32768 else 0) +
      k * stepOf scale

theorem phase_iff {dstSize size offset : ℤ} {scale : ℚ} {center : Bool} {a : Axis}
    (h : setupAxis dstSize size 0 offset scale center = some a) (halfPixel : Bool) (acc : ℤ) :
    Phase dstSize size offset scale center halfPixel acc ↔
      ∃ x, (a.start ≤ x ∧ x < a.stop) ∧ (a.shift (if halfPixel then 32768 else 0)).accumAt x = acc := by
  obtain ⟨-, hfrac, hreset⟩ := setupAxis_values h
  have hδ := setupAxis_delta h
  have hcount : (a.count : ℤ) = a.stop - a.start ∧
      a.stop - a.start = min (posOf (scaledSize size scale) offset center + scaledSize size scale) dstSize -
        max (posOf (scaledSize size scale) offset center) 0 := by
    obtain ⟨hsize, p, hp, rfl⟩ := setupAxis_eq_some.mp h
    have hbounds := clip_bounds hp
    obtain ⟨-, rfl⟩ := (clip_eq_some_iff hsize).mp hp
    exact ⟨Int.toNat_of_nonneg (sub_nonneg.mpr hbounds.2.1.le), rfl⟩
  unfold Phase
  simp only
  rw [← hcount.2, ← hcount.1, ← hreset, ← hfrac]
  constructor
  · rintro ⟨k, hk, rfl⟩
    have hx : (a.reset + k * a.delta - a.reset) * a.delta = k := by
      rcases hδ with hδ | hδ <;> rw [hδ] <;> ring
    refine ⟨a.reset + k * a.delta, (Axis.reaches_iff hδ _).mp (by rw [hx]; exact hk), ?_⟩
    rw [Axis.shift_accumAt, Axis.accumAt, hx, Axis.accum]
    ring
  · rintro ⟨x, hx, rfl⟩
    refine ⟨_, (Axis.reaches_iff hδ x).mpr hx, ?_⟩
    rw [Axis.shift_accumAt, Axis.accumAt, Axis.accum]
    ring

/-- A direction as far as the edges of a column depend on it. -/
def stepAxis (size : ℤ) (scale : ℚ) : Axis := ⟨size, 0, 0, 1, 0, stepOf scale, 0⟩

theorem edges_stepAxis (bits : ℕ) {a : Axis} {scale : ℚ} (h : a.frac = stepOf scale) (acc : ℤ) :
    edges bits a acc = edges bits (stepAxis a.size scale) acc := by
  unfold edges Axis.fracSize stepAxis
  rw [h]

/-- No division by 0. -/
def Plan.Divides (plan : Plan) (bpp : Bpp) : Prop := ∀ q, plan.Covers q →
  let xa := plan.x.accumAt q.1
  let ya := plan.y.accumAt q.2
  (plan.algorithm = .areaFast → u32 (boxSize plan.x xa * boxSize plan.y ya) ≠ 0) ∧
  (plan.algorithm = .areaSlow →
    let ex := edges (weightBits bpp) plan.x xa
    let ey := edges (weightBits bpp) plan.y ya
    slowArea (weightBits bpp) ex ey (cornerArea bpp ex ey) ≠ 0)

section

variable {a : Axis} {dstSize d : ℤ} (h : a.Good dstSize) {x : ℤ} (hx : a.start ≤ x ∧ x < a.stop)

include h hx

theorem boxSize_zero (hd : 0 ≤ d) (hf : a.frac = 0) : boxSize (a.shift d) ((a.shift d).accumAt x) = 0 := by
  have hacc := h.accumAt_bounds hx
  unfold boxSize areaEnd
  rw [Axis.shift_accumAt, Axis.shift_size, Axis.shift_fracSize, (Axis.fracSize_eq_zero h.frac_nonneg).mpr hf]
  omega

theorem boxSize_pos (hd : 0 ≤ d ∧ d < 65536) (hf : a.frac ≠ 0) (hin : (a.shift d).Inside .areaFast) :
    0 < boxSize (a.shift d) ((a.shift d).accumAt x) ∧ boxSize (a.shift d) ((a.shift d).accumAt x) ≤ a.size := by
  have hacc := h.accumAt_bounds hx
  have hreset := ((h.inside_areaFast_iff hd).mp hin).resolve_left hf
  have hfs : 1 ≤ a.fracSize := by
    have := h.frac_nonneg
    unfold Axis.fracSize
    omega
  unfold boxSize areaEnd
  rw [Axis.shift_accumAt, Axis.shift_size, Axis.shift_fracSize]
  omega

theorem edgesInside_of_inside (hd : 0 ≤ d) (hsize : 2 ≤ a.size) (hin : (a.shift d).Inside .areaSlow) :
    EdgesInside (a.shift d) ((a.shift d).accumAt x) := by
  have hacc := h.accumAt_bounds hx
  have hreset := (h.inside_areaSlow_iff hd).mp hin
  refine ⟨?_, hsize⟩
  rw [Axis.shift_accumAt]
  split_ifs at hreset <;> omega

end

section

variable {ax ay : Axis} {dstW dstH d : ℤ} (hgx : ax.Good dstW) (hgy : ay.Good dstH) (hd : 0 ≤ d ∧ d < 65536)
  (hmem : ax.size * ay.size ≤ 8388608)

include hgx hgy hd hmem

/-- The boxes of the fast algorithm have pixels in them if the steps are not 0. -/
theorem fast_boxes {q : ℤ × ℤ} (hin : Plan.Inside ⟨ax.shift d, ay.shift d, .areaFast⟩)
    (hfrac : ax.frac ≠ 0 ∧ ay.frac ≠ 0) (hq : Plan.Covers ⟨ax.shift d, ay.shift d, .areaFast⟩ q) :
    (0 < boxSize (ax.shift d) ((ax.shift d).accumAt q.1) ∧ 0 < boxSize (ay.shift d) ((ay.shift d).accumAt q.2)) ∧
    boxSize (ax.shift d) ((ax.shift d).accumAt q.1) * boxSize (ay.shift d) ((ay.shift d).accumAt q.2) ≤ 8388608 := by
  obtain ⟨hx1, hx2⟩ := boxSize_pos hgx hq.1 hd hfrac.1 hin.1
  obtain ⟨hy1, hy2⟩ := boxSize_pos hgy hq.2 hd hfrac.2 hin.2
  refine ⟨⟨hx1, hy1⟩, le_trans ?_ hmem⟩
  exact mul_le_mul hx2 hy2 hy1.le (by omega)

theorem fast_divides_iff (bpp : Bpp) (hin : Plan.Inside ⟨ax.shift d, ay.shift d, .areaFast⟩) :
    Plan.Divides ⟨ax.shift d, ay.shift d, .areaFast⟩ bpp ↔ ax.frac ≠ 0 ∧ ay.frac ≠ 0 := by
  constructor
  · intro h
    have hfirst := (h (ax.reset, ay.reset) ⟨hgx.reset_mem, hgy.reset_mem⟩).1 rfl
    simp only at hfirst
    constructor
    · intro hf
      rw [boxSize_zero hgx hgx.reset_mem hd.1 hf] at hfirst
      exact hfirst (by simp [u32])
    · intro hf
      rw [boxSize_zero hgy hgy.reset_mem hd.1 hf] at hfirst
      exact hfirst (by simp [u32])
  · intro hfrac q hq
    refine ⟨fun _ => ?_, fun h => absurd h (by simp)⟩
    obtain ⟨⟨hx, hy⟩, hle⟩ := fast_boxes hgx hgy hd hmem hin hfrac hq
    have hpos := mul_pos hx hy
    simp only
    rw [u32_of_lt (by omega)]
    omega

/-- The slow algorithm never divides by 0. -/
theorem slow_edges (bpp : Bpp) (hsize : 2 ≤ ax.size ∧ 2 ≤ ay.size)
    (hin : Plan.Inside ⟨ax.shift d, ay.shift d, .areaSlow⟩) :
    Plan.Divides ⟨ax.shift d, ay.shift d, .areaSlow⟩ bpp ∧ ∀ q, Plan.Covers ⟨ax.shift d, ay.shift d, .areaSlow⟩ q →
      EdgesInside (ax.shift d) ((ax.shift d).accumAt q.1) ∧ EdgesInside (ay.shift d) ((ay.shift d).accumAt q.2) := by
  have hedges : ∀ q, Plan.Covers ⟨ax.shift d, ay.shift d, .areaSlow⟩ q →
      EdgesInside (ax.shift d) ((ax.shift d).accumAt q.1) ∧ EdgesInside (ay.shift d) ((ay.shift d).accumAt q.2) :=
    fun q hq => ⟨edgesInside_of_inside hgx hq.1 hd.1 hsize.1 hin.1, edgesInside_of_inside hgy hq.2 hd.1 hsize.2 hin.2⟩
  refine ⟨fun q hq => ⟨fun h => absurd h (by simp), fun _ => ?_⟩, hedges⟩
  have hok := edges_ok (weightBits bpp) (hedges q hq).1 (hedges q hq).2 hmem
  simp only
  rw [slowArea_eq (weightBits_eq bpp) hok (cornerArea_eq hok).1 (cornerArea_eq hok).2]
  have := (wholeArea_bounds hok).1
  omega

end

/-! ### The condition -/

/-- The accumulators when a drawn pixel is computed. -/
def Placement.Phases (p : Placement) (w h xa ya : ℤ) : Prop :=
  Phase p.dstW w p.x p.xScale p.hint.center (p.hint.bicubic || p.hint.bilinear) xa ∧
  Phase p.dstH h p.y p.yScale p.hint.center (p.hint.bicubic || p.hint.bilinear) ya

/-- The area algorithm is not used, or all it reads lies in the source and it is used in the fast way with
    steps that are not 0, or `kept` holds at each pixel. -/
def AreaKeeps (p : Placement) (w h : ℤ) (kept : ℤ → ℤ → Prop) : Prop :=
  usesArea p.hint w h p.xScale p.yScale → AreaInside p w h ∧
    if stepOf p.xScale % 65536 = 0 ∧ stepOf p.yScale % 65536 = 0 then |p.xScale| ≤ 65536 ∧ |p.yScale| ≤ 65536
    else ∀ xa ya, p.Phases w h xa ya → kept xa ya

/-- The half pixel that bicubic and bilinear take off. -/
def halfOf (hint : Hint) : ℤ := if hint.bicubic || hint.bilinear then 32768 else 0

theorem halfOf_bounds (hint : Hint) : 0 ≤ halfOf hint ∧ halfOf hint < 65536 := by
  unfold halfOf
  split_ifs <;> omega

/-- What the loops are. -/
theorem plan_shape {p : Placement} {w h : ℤ} {plan : Plan} (hplan : p.plan ⟨0, 0, w, h⟩ = some plan) :
    (¬ usesArea p.hint w h p.xScale p.yScale ∧ plan.algorithm ≠ .areaFast ∧ plan.algorithm ≠ .areaSlow) ∨
    (usesArea p.hint w h p.xScale p.yScale ∧ ∃ ax ay,
      setupAxis p.dstW w 0 p.x p.xScale p.hint.center = some ax ∧
      setupAxis p.dstH h 0 p.y p.yScale p.hint.center = some ay ∧
      plan = ⟨ax.shift (halfOf p.hint), ay.shift (halfOf p.hint),
        if stepOf p.xScale % 65536 = 0 ∧ stepOf p.yScale % 65536 = 0 then .areaFast else .areaSlow⟩) := by
  obtain ⟨ax, hax, ay, hay, rfl⟩ := Placement.plan_eq_some.mp hplan
  obtain ⟨hxsize, hxfrac, -⟩ := setupAxis_values hax
  obtain ⟨hysize, hyfrac, -⟩ := setupAxis_values hay
  have harea := normalize_area p.hint hxfrac hyfrac
  have hhalf := normalize_half p.hint ax ay p.xScale p.yScale
  rw [hxsize, hysize] at harea
  generalize normalize p.hint ax ay p.xScale p.yScale = f at harea hhalf ⊢
  by_cases hf : f.area
  · refine .inr ⟨harea.mp hf, ax, ay, hax, hay, ?_⟩
    rw [Flags.plan, hhalf hf, Flags.algorithm_area hf, hxfrac, hyfrac]
    rfl
  · refine .inl ⟨fun hu => hf (harea.mpr hu), ?_⟩
    rw [Bool.not_eq_true] at hf
    unfold Flags.plan
    simp only
    rcases f.algorithm_not_area hf ax ay with ⟨halg, -⟩ | halg | ⟨halg | halg, -⟩ <;> rw [halg] <;> decide

theorem plan_scales {p : Placement} {r : Rectangle} {plan : Plan} (h : p.plan r = some plan) :
    p.xScale ≠ 0 ∧ p.yScale ≠ 0 := by
  obtain ⟨ax, hax, ay, hay, -⟩ := Placement.plan_eq_some.mp h
  have hx := (setupAxis_eq_some.mp hax).1
  have hy := (setupAxis_eq_some.mp hay).1
  constructor
  · rintro h0
    simp [h0, scaledSize] at hx
  · rintro h0
    simp [h0, scaledSize] at hy

theorem plan_values {p : Placement} {w h : ℤ} {plan : Plan} (hplan : p.plan ⟨0, 0, w, h⟩ = some plan) :
    (plan.x.size = w ∧ plan.y.size = h) ∧ plan.x.frac = stepOf p.xScale ∧ plan.y.frac = stepOf p.yScale := by
  obtain ⟨ax, hax, ay, hay, rfl⟩ := Placement.plan_eq_some.mp hplan
  obtain ⟨hxsize, hxfrac, -⟩ := setupAxis_values hax
  obtain ⟨hysize, hyfrac, -⟩ := setupAxis_values hay
  exact ⟨⟨hxsize, hysize⟩, hxfrac, hyfrac⟩

section

variable {p : Placement} {w h : ℤ} {plan : Plan} (hmem : w * h ≤ 8388608)
  (hplan : p.plan ⟨0, 0, w, h⟩ = some plan) (bpp : Bpp)

include hmem hplan

/-- What the loops find at a pixel, if they do not leave the source and do not divide by 0. -/
theorem plan_area_facts (hin : plan.Inside) (hdiv : plan.Divides bpp) {q : ℤ × ℤ} (hq : plan.Covers q) :
    (plan.algorithm = .areaFast →
      (0 < boxSize plan.x (plan.x.accumAt q.1) ∧ 0 < boxSize plan.y (plan.y.accumAt q.2)) ∧
      boxSize plan.x (plan.x.accumAt q.1) * boxSize plan.y (plan.y.accumAt q.2) ≤ 8388608) ∧
    (plan.algorithm = .areaSlow →
      EdgesInside plan.x (plan.x.accumAt q.1) ∧ EdgesInside plan.y (plan.y.accumAt q.2)) := by
  obtain ⟨hx, hy⟩ := plan_scales hplan
  rcases plan_shape hplan with ⟨-, hnf, hns⟩ | ⟨huses, ax, ay, hax, hay, rfl⟩
  · exact ⟨fun h => absurd h hnf, fun h => absurd h hns⟩
  have hgx := setupAxis_good hx hax
  have hgy := setupAxis_good hy hay
  obtain ⟨hxsize, -⟩ := setupAxis_values hax
  obtain ⟨hysize, -⟩ := setupAxis_values hay
  have hmem' : ax.size * ay.size ≤ 8388608 := by rw [hxsize, hysize]; exact hmem
  constructor
  · intro h
    simp only at h
    rw [h] at hin hdiv hq
    exact fast_boxes hgx hgy (halfOf_bounds _) hmem' hin
      ((fast_divides_iff hgx hgy (halfOf_bounds _) hmem' bpp hin).mp hdiv) hq
  · intro h
    simp only at h
    rw [h] at hin hq
    have hsize : 2 ≤ ax.size ∧ 2 ≤ ay.size := by
      rw [hxsize, hysize]
      exact ⟨huses.2.1, huses.2.2.1⟩
    exact (slow_edges hgx hgy (halfOf_bounds _) hmem' bpp hsize hin).2 q hq

/-- The condition, said of the loops. -/
theorem plan_keeps_iff (kept : ℤ → ℤ → Prop) :
    AreaKeeps p w h kept ↔ plan.Inside ∧ plan.Divides bpp ∧
      (plan.algorithm = .areaSlow → ∀ q, plan.Covers q → kept (plan.x.accumAt q.1) (plan.y.accumAt q.2)) := by
  obtain ⟨hx, hy⟩ := plan_scales hplan
  have hinside := (plan_inside_iff ⟨rfl, rfl⟩ hx hy hplan).2
  unfold AreaKeeps
  rcases plan_shape hplan with ⟨huses, hnf, hns⟩ | ⟨huses, ax, ay, hax, hay, rfl⟩
  · refine iff_of_true (fun hu => absurd hu huses) ⟨hinside.mpr fun hu => absurd hu huses, ?_, fun h => absurd h hns⟩
    exact fun q _ => ⟨fun h => absurd h hnf, fun h => absurd h hns⟩
  have hgx := setupAxis_good hx hax
  have hgy := setupAxis_good hy hay
  obtain ⟨hxsize, hxfrac, -⟩ := setupAxis_values hax
  obtain ⟨hysize, hyfrac, -⟩ := setupAxis_values hay
  have hd := halfOf_bounds p.hint
  have hmem' : ax.size * ay.size ≤ 8388608 := by rw [hxsize, hysize]; exact hmem
  rw [forall_prop_of_true huses] at hinside ⊢
  rw [← hinside]
  refine and_congr_right fun hin => ?_
  by_cases hsteps : stepOf p.xScale % 65536 = 0 ∧ stepOf p.yScale % 65536 = 0
  · simp only [if_pos hsteps] at hin ⊢
    have hfrac : ax.frac ≠ 0 ∧ ay.frac ≠ 0 ↔ |p.xScale| ≤ 65536 ∧ |p.yScale| ≤ 65536 := by
      rw [hxfrac, hyfrac, ne_eq, ne_eq, stepOf_eq_zero_iff hx, stepOf_eq_zero_iff hy, not_lt, not_lt]
    rw [fast_divides_iff hgx hgy hd hmem' bpp hin, hfrac]
    exact (and_iff_left (fun h => by simp at h)).symm
  · simp only [if_neg hsteps, true_implies] at hin ⊢
    have hsize : 2 ≤ ax.size ∧ 2 ≤ ay.size := by
      rw [hxsize, hysize]
      exact ⟨huses.2.1, huses.2.2.1⟩
    rw [and_iff_right (slow_edges hgx hgy hd hmem' bpp hsize hin).1]
    unfold Placement.Phases
    simp only [phase_iff hax, phase_iff hay]
    constructor
    · rintro hkept q hq
      exact hkept _ _ ⟨⟨q.1, hq.1, rfl⟩, q.2, hq.2, rfl⟩
    · rintro hkept _ _ ⟨⟨u, hu, rfl⟩, v, hv, rfl⟩
      exact hkept (u, v) ⟨hu, hv⟩

end

/-! ### Whole images -/

/-- The source is drawn as a whole and in its own format, and it is in memory, of which there are 8 MB. -/
structure Plain (dst src : Image) (a : DrawArgs) : Prop where
  format : src.bpp = .grayscale ∨ src.bpp = .rgb565
  same : dst.bpp = src.bpp
  roi : a.roi = none
  palette : a.palette = none
  channel : src.bpp = .rgb565 → a.rgbChannel = none
  memory : src.w * src.h ≤ 8388608

/-- The value that is computed for a pixel. -/
def Plan.sampleAt (plan : Plan) (src : Image) (q : ℤ × ℤ) : ℤ :=
  (plan.algorithm.resampler src.bpp plan.x plan.y src.pixel).sample (plan.x.accumAt q.1) (plan.y.accumAt q.2)

/-- The level of one channel is kept where the accumulators are `xa` and `ya`. -/
def DrawArgs.keepsLevel (a : DrawArgs) (src : Image) (level xa ya : ℤ) : Prop :=
  LevelKept (weightBits src.bpp) (stepAxis src.w a.xScale) (stepAxis src.h a.yScale) xa ya level

instance (a : DrawArgs) (src : Image) (level xa ya : ℤ) : Decidable (a.keepsLevel src level xa ya) :=
  inferInstanceAs (Decidable (LevelKept _ _ _ _ _ _))

/-- The sums of the sides fit 32 bits if no pixel is above the level. -/
def DrawArgs.sidesFit (a : DrawArgs) (src : Image) (level xa ya : ℤ) : Prop :=
  SidesFit (weightBits src.bpp) (edges (weightBits src.bpp) (stepAxis src.w a.xScale) xa)
    (edges (weightBits src.bpp) (stepAxis src.h a.yScale) ya) level

section

variable {dst src : Image} {a : DrawArgs} (hplain : Plain dst src a)

include hplain

theorem Plain.loops_eq : a.loops false dst src = (a.placement dst).plan ⟨0, 0, src.w, src.h⟩ := by
  rw [DrawArgs.loops, hplain.roi]
  rfl

theorem Plain.not_extractsFirst : a.extractsFirst src = false := by
  rcases hplain.format with hb | hb
  · simp [DrawArgs.extractsFirst, hplain.palette, hb]
  · simp [DrawArgs.extractsFirst, hplain.palette, hplain.channel hb]

theorem Plain.blend_eq (v : ℤ) (old : ℕ) :
    getPixel dst.bpp (a.blend (opaqueRow dst.bpp) src src (putPixel src.bpp v) old) =
      getPixel src.bpp (putPixel src.bpp v) := by
  have hmem := getPixel_mem src.bpp (putPixel src.bpp v)
  have hrow : rowPixel src.bpp src.bpp a.rgbChannel none (getPixel src.bpp (putPixel src.bpp v)) =
      getPixel src.bpp (putPixel src.bpp v) := by
    rcases hplain.format with hb | hb
    · simp [hb, rowPixel, ofGray, grayOf]
    · simp [hb, rowPixel, hplain.channel hb]
  rw [DrawArgs.blend, hplain.not_extractsFirst, if_neg Bool.false_ne_true, hplain.palette, opaqueRow, hplain.same,
    hrow]
  exact getPixel_putPixel_of_mem hmem.1 hmem.2

variable {plan : Plan} (hplan : a.loops false dst src = some plan) {q : ℤ × ℤ} (hq : plan.Covers q)

include hplan hq

/-- The pixel that is drawn is the value that is computed. -/
theorem Plain.pixel_eq (junk : ℤ → ℤ → ℕ)
    (hmem : 0 ≤ plan.sampleAt src q ∧ plan.sampleAt src q < levels src.bpp) :
    (imlibDrawImage (opaqueRow dst.bpp) false junk dst src a).pixel q.1 q.2 = plan.sampleAt src q := by
  have hp := hplan
  rw [hplain.loops_eq] at hp
  have hroi : roiOf src.w src.h a.roi = ⟨0, 0, src.w, src.h⟩ := by rw [hplain.roi]; rfl
  have hextracts : a.source src ⟨0, 0, src.w, src.h⟩ junk = src := by
    rw [DrawArgs.source, hplain.not_extractsFirst, if_neg Bool.false_ne_true]
  have hdrawable : drawable src.bpp := by
    rcases hplain.format with hb | hb <;> rw [hb] <;> rfl
  have hbpp : (imlibDrawImage (opaqueRow dst.bpp) false junk dst src a).bpp = dst.bpp := by
    rw [imlibDrawImage_frame]
  rw [image_pixel, hbpp]
  unfold imlibDrawImage
  simp only [hroi, hp, hextracts, Bool.false_eq_true, if_false]
  rw [drawOn_data (plan_regular hp) hdrawable (by rw [hplain.same]; exact hdrawable), if_pos hq,
    hplain.blend_eq]
  exact getPixel_putPixel_of_mem hmem.1 hmem.2

variable (hin : plan.Inside)

include hin

theorem Plain.taps_inside (good : ℤ → Prop)
    (h : ∀ x y, (0 ≤ x ∧ x < src.w) ∧ 0 ≤ y ∧ y < src.h → good (src.pixel x y)) :
    ∀ x ∈ plan.algorithm.taps plan.x (plan.x.accumAt q.1), ∀ y ∈ plan.algorithm.taps plan.y (plan.y.accumAt q.2),
      good (src.pixel x y) := by
  rw [hplain.loops_eq] at hplan
  obtain ⟨⟨hw, hh⟩, -⟩ := plan_values hplan
  intro x hx y hy
  have hx' := hin.1 q.1 hq.1 x hx
  have hy' := hin.2 q.2 hq.2 y hy
  rw [hw] at hx'
  rw [hh] at hy'
  exact h x y ⟨hx', hy'⟩

variable (hdiv : plan.Divides src.bpp)

include hdiv

theorem Plain.rangeKept (hslow : plan.algorithm ≠ .areaSlow) (hcubic : plan.algorithm ≠ .bicubic) :
    RangeKept src.bpp plan.algorithm plan.x plan.y (plan.x.accumAt q.1) (plan.y.accumAt q.2) src.pixel := by
  rw [hplain.loops_eq] at hplan
  have hfast := (plan_area_facts hplain.memory hplan src.bpp hin hdiv hq).1
  cases halg : plan.algorithm with
  | areaSlow => exact absurd halg hslow
  | bicubic => exact absurd halg hcubic
  | areaFast =>
    obtain ⟨⟨hx, hy⟩, hle⟩ := hfast halg
    exact rangeKept_areaFast hplain.format hx hy hle
  | bilinear => exact rangeKept_bilinear hplain.format
  | copy => exact rangeKept_nearest hplain.format (pixel_mem src) (.inl rfl)
  | nearest => exact rangeKept_nearest hplain.format (pixel_mem src) (.inr rfl)

/-- What the slow algorithm knows of a pixel. -/
theorem Plain.slow_facts (hslow : plan.algorithm = .areaSlow) :
    (EdgesInside plan.x (plan.x.accumAt q.1) ∧ EdgesInside plan.y (plan.y.accumAt q.2)) ∧
    plan.x.size * plan.y.size ≤ 8388608 ∧
    edges (weightBits src.bpp) plan.x (plan.x.accumAt q.1) =
      edges (weightBits src.bpp) (stepAxis src.w a.xScale) (plan.x.accumAt q.1) ∧
    edges (weightBits src.bpp) plan.y (plan.y.accumAt q.2) =
      edges (weightBits src.bpp) (stepAxis src.h a.yScale) (plan.y.accumAt q.2) := by
  rw [hplain.loops_eq] at hplan
  obtain ⟨⟨hw, hh⟩, hx, hy⟩ := plan_values hplan
  refine ⟨(plan_area_facts hplain.memory hplan src.bpp hin hdiv hq).2 hslow, ?_, ?_, ?_⟩
  · rw [hw, hh]
    exact hplain.memory
  · rw [edges_stepAxis _ hx, hw]
    rfl
  · rw [edges_stepAxis _ hy, hh]
    rfl

/-- A pixel drawn from a constant image. -/
theorem Plain.const_iff (junk : ℤ → ℤ → ℕ) {c : ℤ} (hc : 0 ≤ c ∧ c < levels src.bpp)
    (hconst : ∀ x y, (0 ≤ x ∧ x < src.w) ∧ 0 ≤ y ∧ y < src.h → src.pixel x y = c) :
    (imlibDrawImage (opaqueRow dst.bpp) false junk dst src a).pixel q.1 q.2 = c ↔
      (plan.algorithm = .areaSlow → ∀ ch ∈ channelsOf src.bpp,
        a.keepsLevel src (ch.get c) (plan.x.accumAt q.1) (plan.y.accumAt q.2)) := by
  have htaps := hplain.taps_inside hplan hq hin (· = c) hconst
  by_cases hslow : plan.algorithm = .areaSlow
  · obtain ⟨⟨hx, hy⟩, hmem, hex, hey⟩ := hplain.slow_facts hplan hq hin hdiv hslow
    rw [hslow] at htaps
    have hmean := slow_channel hplain.format (pixel_mem src) hx hy hmem
    have hiff := slow_const_iff hplain.format (pixel_mem src) hx hy hmem hc htaps
    unfold LevelKept at hiff
    rw [hex, hey] at hiff
    rw [hplain.pixel_eq hplan hq junk (by rw [Plan.sampleAt, hslow]; exact hmean.1), Plan.sampleAt, hslow, hiff]
    exact ⟨fun h _ => h, fun h => h rfl⟩
  · have hsample : plan.sampleAt src q = c := by
      unfold Plan.sampleAt
      by_cases hcubic : plan.algorithm = .bicubic
      · rw [hcubic] at htaps ⊢
        exact bicubic_sample_const hplain.format hc htaps
      · exact (hplain.rangeKept hplan hq hin hdiv hslow hcubic).const hplain.format (pixel_mem src) hc htaps
    rw [hplain.pixel_eq hplan hq junk (by rw [hsample]; exact hc)]
    exact iff_of_true hsample fun h => absurd h hslow

/-- If a channel that is constant is not lowered, its level is kept. -/
theorem Plain.level_of_le (junk : ℤ → ℤ → ℕ) (hslow : plan.algorithm = .areaSlow) {ch : Channel}
    (hch : ch ∈ channelsOf src.bpp) {c : ℤ} (hc : 0 ≤ c ∧ c < 2 ^ ch.bits)
    (hconst : ∀ x y, (0 ≤ x ∧ x < src.w) ∧ 0 ≤ y ∧ y < src.h → ch.get (src.pixel x y) = c)
    (h : c ≤ ch.get ((imlibDrawImage (opaqueRow dst.bpp) false junk dst src a).pixel q.1 q.2)) :
    a.keepsLevel src c (plan.x.accumAt q.1) (plan.y.accumAt q.2) := by
  have htaps := hplain.taps_inside hplan hq hin (fun v => ch.get v = c) hconst
  obtain ⟨⟨hx, hy⟩, hmem, hex, hey⟩ := hplain.slow_facts hplan hq hin hdiv hslow
  rw [hslow] at htaps
  have hmean := slow_channel hplain.format (pixel_mem src) hx hy hmem
  have hiff := (slow_channel_const hplain.format (pixel_mem src) hx hy hmem hch hc htaps).2
  unfold LevelKept at hiff
  rw [hex, hey] at hiff
  rw [hplain.pixel_eq hplan hq junk (by rw [Plan.sampleAt, hslow]; exact hmean.1), Plan.sampleAt, hslow] at h
  exact hiff.mp h

/-- A channel of a pixel drawn from an image with bounds for that channel. -/
theorem Plain.range (junk : ℤ → ℤ → ℕ) (hcubic : plan.algorithm ≠ .bicubic) {ch : Channel}
    (hch : ch ∈ channelsOf src.bpp) {lo hi : ℤ} (hlo : 0 ≤ lo) (hhi : hi < 2 ^ ch.bits)
    (hrange : ∀ x y, (0 ≤ x ∧ x < src.w) ∧ 0 ≤ y ∧ y < src.h →
      lo ≤ ch.get (src.pixel x y) ∧ ch.get (src.pixel x y) ≤ hi)
    (hkept : plan.algorithm = .areaSlow → a.keepsLevel src lo (plan.x.accumAt q.1) (plan.y.accumAt q.2) ∧
      a.sidesFit src hi (plan.x.accumAt q.1) (plan.y.accumAt q.2)) :
    lo ≤ ch.get ((imlibDrawImage (opaqueRow dst.bpp) false junk dst src a).pixel q.1 q.2) ∧
      ch.get ((imlibDrawImage (opaqueRow dst.bpp) false junk dst src a).pixel q.1 q.2) ≤ hi := by
  have htaps := hplain.taps_inside hplan hq hin (fun v => lo ≤ ch.get v ∧ ch.get v ≤ hi) hrange
  by_cases hslow : plan.algorithm = .areaSlow
  · obtain ⟨⟨hx, hy⟩, hmem, hex, hey⟩ := hplain.slow_facts hplan hq hin hdiv hslow
    obtain ⟨hlevel, hfit⟩ := hkept hslow
    unfold DrawArgs.keepsLevel LevelKept at hlevel
    unfold DrawArgs.sidesFit at hfit
    rw [← hex, ← hey] at hlevel hfit
    rw [hslow] at htaps
    have hmean := slow_channel hplain.format (pixel_mem src) hx hy hmem
    rw [hplain.pixel_eq hplan hq junk (by rw [Plan.sampleAt, hslow]; exact hmean.1), Plan.sampleAt, hslow]
    exact slow_range hplain.format (pixel_mem src) hx hy hmem hch hlo hhi hfit hlevel htaps
  · have hkept := hplain.rangeKept hplan hq hin hdiv hslow hcubic
    obtain ⟨hmem, hbounds⟩ := hkept.channel hplain.format (pixel_mem src)
    rw [hplain.pixel_eq hplan hq junk hmem]
    exact hbounds ch hch lo hi hlo hhi htaps

end

/-- Every pixel of the image is good. -/
def AllPixels (img : Image) (good : ℤ → Prop) : Prop :=
  ∀ x y, (0 ≤ x ∧ x < img.w) ∧ 0 ≤ y ∧ y < img.h → good (img.pixel x y)

/-- The loops read nothing but the source and do not divide by 0, and every pixel they draw is good. -/
def Draws (junk : ℤ → ℤ → ℕ) (dst src : Image) (a : DrawArgs) (plan : Plan) (good : ℤ → Prop) : Prop :=
  plan.Inside ∧ plan.Divides src.bpp ∧ ∀ q, plan.Covers q →
    good ((imlibDrawImage (opaqueRow dst.bpp) false junk dst src a).pixel q.1 q.2)

def DrawsConstant (junk : ℤ → ℤ → ℕ) (dst src : Image) (a : DrawArgs) (c : ℤ) : Prop :=
  ∀ plan, a.loops false dst src = some plan → Draws junk dst src a plan (· = c)

/-- Whatever is in the source, if a channel of it is between two bounds, the drawn pixels are too; but for
    bicubic. -/
def DrawsRange (junk : ℤ → ℤ → ℕ) (dst src : Image) (a : DrawArgs) (ch : Channel) (lo hi : ℤ) : Prop :=
  ∀ data, AllPixels { src with data := data } (fun v => lo ≤ ch.get v ∧ ch.get v ≤ hi) →
    ∀ plan, a.loops false dst src = some plan → plan.algorithm ≠ .bicubic →
      Draws junk dst { src with data := data } a plan fun v => lo ≤ ch.get v ∧ ch.get v ≤ hi

section

variable {dst src : Image} {a : DrawArgs} (hplain : Plain dst src a) (junk : ℤ → ℤ → ℕ)

include hplain

theorem Plain.withData (data : ℤ → ℤ → ℕ) : Plain dst { src with data := data } a :=
  ⟨hplain.format, hplain.same, hplain.roi, hplain.palette, hplain.channel, hplain.memory⟩

/-- The rectangle is reported if and only if there are loops. -/
theorem Plain.visible_iff :
    (imlibDrawImageRectangle (a.placement dst) ⟨0, 0, src.w, src.h⟩ false).isSome ↔
      ∃ plan, a.loops false dst src = some plan := by
  rw [imlibDrawImageRectangle_eq, hplain.loops_eq, if_neg Bool.false_ne_true, Option.isSome_map,
    Option.isSome_iff_exists]

variable {plan : Plan} (hplan : a.loops false dst src = some plan)

include hplan

theorem Plain.draws_const_iff {c : ℤ} (hc : 0 ≤ c ∧ c < levels src.bpp) (hconst : AllPixels src (· = c)) :
    Draws junk dst src a plan (· = c) ↔ AreaKeeps (a.placement dst) src.w src.h fun xa ya =>
      ∀ ch ∈ channelsOf src.bpp, a.keepsLevel src (ch.get c) xa ya := by
  have hp := hplan
  rw [hplain.loops_eq] at hp
  rw [plan_keeps_iff hplain.memory hp src.bpp]
  refine and_congr_right fun hin => and_congr_right fun hdiv => ?_
  constructor
  · intro h hslow q hq
    exact (hplain.const_iff hplan hq hin hdiv junk hc hconst).mp (h q hq) hslow
  · intro h q hq
    exact (hplain.const_iff hplan hq hin hdiv junk hc hconst).mpr fun hslow => h hslow q hq

theorem Plain.draws_range (hcubic : plan.algorithm ≠ .bicubic) {ch : Channel} (hch : ch ∈ channelsOf src.bpp)
    {lo hi : ℤ} (hlo : 0 ≤ lo) (hhi : hi < 2 ^ ch.bits)
    (hrange : AllPixels src fun v => lo ≤ ch.get v ∧ ch.get v ≤ hi)
    (h : AreaKeeps (a.placement dst) src.w src.h fun xa ya =>
      a.keepsLevel src lo xa ya ∧ a.sidesFit src hi xa ya) :
    Draws junk dst src a plan fun v => lo ≤ ch.get v ∧ ch.get v ≤ hi := by
  have hp := hplan
  rw [hplain.loops_eq] at hp
  obtain ⟨hin, hdiv, hkept⟩ := (plan_keeps_iff hplain.memory hp src.bpp _).mp h
  exact ⟨hin, hdiv, fun q hq =>
    hplain.range hplan hq hin hdiv junk hcubic hch hlo hhi hrange fun hslow => hkept hslow q hq⟩

/-- The lower bound of a range is kept: the image may have this level everywhere. -/
theorem Plain.keeps_of_drawsRange {ch : Channel} (hch : ch ∈ channelsOf src.bpp) {lo hi : ℤ}
    (hlo : 0 ≤ lo ∧ lo ≤ hi) (hhi : hi < 2 ^ ch.bits) (h : DrawsRange junk dst src a ch lo hi) :
    AreaKeeps (a.placement dst) src.w src.h (a.keepsLevel src lo) := by
  by_cases huses : usesArea a.hint src.w src.h a.xScale a.yScale
  swap
  · exact fun hu => absurd hu huses
  have hp := hplan
  rw [hplain.loops_eq] at hp
  have hcubic : plan.algorithm ≠ .bicubic := by
    rcases plan_shape hp with ⟨hnot, -⟩ | ⟨-, ax, ay, -, -, rfl⟩
    · exact absurd huses hnot
    · simp only
      split_ifs <;> decide
  have hk : ∀ ch' ∈ channelsOf src.bpp,
      0 ≤ min lo (2 ^ ch'.bits - 1) ∧ min lo (2 ^ ch'.bits - 1) < 2 ^ ch'.bits := by
    intro ch' _
    have : (1 : ℤ) ≤ 2 ^ ch'.bits := one_le_pow₀ (by norm_num)
    omega
  obtain ⟨hc, hget⟩ := perChannel_spec hplain.format hk
  have hchannel := hget ch hch
  rw [min_eq_left (by omega)] at hchannel
  generalize perChannel src.bpp (fun ch' => min lo (2 ^ ch'.bits - 1)) = c at hc hchannel
  have hconst : ∀ x y, ch.get (({ src with data := fun _ _ => putPixel src.bpp c } : Image).pixel x y) = lo := by
    intro x y
    rw [image_pixel]
    simp only
    rw [getPixel_putPixel_of_mem hc.1 hc.2, hchannel]
  obtain ⟨hin, hdiv, hpixels⟩ := h (fun _ _ => putPixel src.bpp c)
    (fun x y _ => ⟨(hconst x y).ge, (hconst x y).trans_le hlo.2⟩) plan hplan hcubic
  refine (plan_keeps_iff hplain.memory hp src.bpp _).mpr ⟨hin, hdiv, fun hslow q hq => ?_⟩
  exact (hplain.withData fun _ _ => putPixel src.bpp c).level_of_le hplan hq hin hdiv junk hslow hch
    ⟨hlo.1, by omega⟩ (fun x y _ => hconst x y) (hpixels q hq).1

end

/-- A constant image is drawn as it is, wherever all pixels are computed from it, if and only if the area
    algorithm is not used, or in the fast way with steps that are not 0, or the level of each channel is kept
    at all accumulators that the loops go through. For the range of a channel the lower bound has to be kept;
    that is enough if the sums of the sides fit 32 bits at the upper one. -/
theorem drawImage_constant_iff (junk : ℤ → ℤ → ℕ) (dst src : Image) (a : DrawArgs) (hplain : Plain dst src a) :
    let p := a.placement dst
    let visible := (imlibDrawImageRectangle p ⟨0, 0, src.w, src.h⟩ false).isSome
    (∀ c : ℤ, 0 ≤ c ∧ c < levels src.bpp → AllPixels src (· = c) →
      (DrawsConstant junk dst src a c ↔ (visible → AreaKeeps p src.w src.h fun xa ya =>
        ∀ ch ∈ channelsOf src.bpp, a.keepsLevel src (ch.get c) xa ya))) ∧
    ∀ ch ∈ channelsOf src.bpp, ∀ lo hi, 0 ≤ lo ∧ lo ≤ hi → hi < 2 ^ ch.bits →
      (DrawsRange junk dst src a ch lo hi → visible → AreaKeeps p src.w src.h (a.keepsLevel src lo)) ∧
      ((visible → AreaKeeps p src.w src.h fun xa ya => a.keepsLevel src lo xa ya ∧ a.sidesFit src hi xa ya) →
        DrawsRange junk dst src a ch lo hi) := by
  intro p visible
  have hvisible : visible ↔ _ := hplain.visible_iff
  refine ⟨fun c hc hconst => ⟨fun h hv => ?_, fun h plan hplan => ?_⟩, fun ch hch lo hi hlo hhi => ⟨fun h hv => ?_, ?_⟩⟩
  · obtain ⟨plan, hplan⟩ := hvisible.mp hv
    exact (hplain.draws_const_iff junk hplan hc hconst).mp (h plan hplan)
  · exact (hplain.draws_const_iff junk hplan hc hconst).mpr (h (hvisible.mpr ⟨plan, hplan⟩))
  · obtain ⟨plan, hplan⟩ := hvisible.mp hv
    exact hplain.keeps_of_drawsRange junk hplan hch hlo hhi h
  · intro h data hrange plan hplan hcubic
    exact (hplain.withData data).draws_range junk hplan hcubic hch hlo.1 hhi hrange
      (h (hvisible.mpr ⟨plan, hplan⟩))

/-- Three by two pixels drawn as two by one: the columns share the one between them, and the level is kept. -/
theorem drawImage_constant_kept :
    let dst : Image := ⟨2, 1, .grayscale, fun _ _ => 0⟩
    let src : Image := ⟨3, 2, .grayscale, fun _ _ => 200⟩
    let a : DrawArgs := ⟨0, 0, 2 / 3, 1 / 2, none, none, none, ⟨true, false, false, false, false, false⟩⟩
    Plain dst src a ∧ DrawsConstant (fun _ _ => 0) dst src a 200 := by
  intro dst src a
  have hplain : Plain dst src a := ⟨.inl rfl, rfl, rfl, rfl, fun h => by (cases h), by decide⟩
  refine ⟨hplain, ((drawImage_constant_iff (fun _ _ => 0) dst src a hplain).1 200 (by decide)
    (fun _ _ _ => by rfl)).mpr fun _ _ => ⟨?_, ?_⟩⟩
  · norm_num [AreaInside, AreaReads, cutOff, posOf, scaledSize, DrawArgs.placement, a]
  · have hx : stepOf (2 / 3) = 98304 := by norm_num [stepOf, abs_of_pos]
    have hy : stepOf (1 / 2) = 131072 := by norm_num [stepOf, abs_of_pos]
    rw [if_neg (by simp only [DrawArgs.placement, a, hx, hy]; decide)]
    rintro _ _ ⟨⟨k, hk, rfl⟩, l, hl, rfl⟩ ch hch
    norm_num [cutOff, posOf, scaledSize, DrawArgs.placement, a] at hk hl
    obtain rfl : ch = ⟨id, 8⟩ := List.mem_singleton.mp hch
    obtain rfl : l = 0 := by omega
    obtain rfl | rfl : k = 0 ∨ k = 1 := by omega
    · decide +kernel
    · decide +kernel

/-- Three by three pixels of level 200 drawn as two by two. -/
theorem drawImage_not_constant :
    let dst : Image := ⟨2, 2, .grayscale, fun _ _ => 0⟩
    let src : Image := ⟨3, 3, .grayscale, fun _ _ => 200⟩
    let a : DrawArgs := ⟨0, 0, 2 / 3, 2 / 3, none, none, none, ⟨true, false, false, false, false, false⟩⟩
    (∀ x y, src.pixel x y = 200) ∧ InRectangle (imlibDrawImageRectangle (a.placement dst) ⟨0, 0, 3, 3⟩ false) 0 0 ∧
      (imlibDrawImage (opaqueRow .grayscale) false (fun _ _ => 0) dst src a).pixel 0 0 = 150 := by
  intro dst src a
  refine ⟨fun _ _ => rfl, ?_, ?_⟩ <;> decide +kernel

end OpenMV.Draw
