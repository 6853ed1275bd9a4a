import Mathlib.Data.Int.ConditionallyCompleteOrder
import Mathlib.Data.Int.Interval
import Mathlib.Data.Int.ModEq
import OpenMV.Vision.BlobComponents

/-! Second moments | scheme:fold | source:src/src/openmv/omv/img/blob.c, src/src/openmv/omv/img/stats.c

    The orientation of a blob and the line of a regression come from the sums of `(x-mx)^2`,
    `(x-mx)*(y-my)` and `(y-my)^2` over the pixels. The code moves the raw sums, two of them in an
    `int` and three in a `long long`, to the centroid with products in `int`, and keeps the result in
    an `int`. Whatever is lost on the way is a multiple of `2^32`, so the result is wrong exactly when
    the moment itself is too large. -/

namespace OpenMV.Vision
open Schemes Schemes.ScanFill

/-! ### Moving the sums to the centroid -/

/-- `mx`, `my`, `small_blob_a`, `small_blob_b` and `small_blob_c`. -/
structure SmallBlob where
  mx : ℤ
  my : ℤ
  a : ℤ
  b : ℤ
  c : ℤ
deriving DecidableEq, Repr

/-- `blob_a`, `blob_b` and `blob_c` are of type `long long`; what stands in parentheses is of type
    `int`. -/
def smallBlob (mx my pixels cx cy a b c : ℤ) : SmallBlob where
  mx := mx
  my := my
  a := int32 (a - int32 (int32 (mx * cx) + int32 (mx * cx)) + int32 (int32 (pixels * mx) * mx))
  b := int32 (b - int32 (int32 (mx * cy) + int32 (my * cx)) + int32 (int32 (pixels * mx) * my))
  c := int32 (c - int32 (int32 (my * cy) + int32 (my * cy)) + int32 (int32 (pixels * my) * my))

/-- The moments of a set of pixels about a point. -/
def momentA (S : Finset Cell) (mx : ℤ) : ℤ := ∑ p ∈ S, (p.1 - mx) ^ 2
def momentB (S : Finset Cell) (mx my : ℤ) : ℤ := ∑ p ∈ S, (p.1 - mx) * (p.2 - my)
def momentC (S : Finset Cell) (my : ℤ) : ℤ := ∑ p ∈ S, (p.2 - my) ^ 2

structure SmallBlob.Exact (m : SmallBlob) (S : Finset Cell) : Prop where
  a : m.a = momentA S m.mx
  b : m.b = momentB S m.mx m.my
  c : m.c = momentC S m.my

/-- The spread of the pixels about the point, across and down, fits an `int`. -/
structure Spread (S : Finset Cell) (mx my : ℤ) : Prop where
  across : momentA S mx < 2147483648
  down : momentC S my < 2147483648

theorem int32_modEq (x : ℤ) : int32 x ≡ x [ZMOD 4294967296] := by
  unfold int32
  calc (x + 2147483648) % 4294967296 - 2147483648
      ≡ x + 2147483648 - 2147483648 [ZMOD 4294967296] := (Int.mod_modEq _ _).sub_right _
    _ = x := by ring

theorem int32_congr {x y : ℤ} (h : x ≡ y [ZMOD 4294967296]) : int32 x = int32 y := by
  have hshift : (x + 2147483648) % 4294967296 = (y + 2147483648) % 4294967296 := h.add_right _
  unfold int32
  rw [hshift]

theorem int32_lt (x : ℤ) : int32 x < 2147483648 := by
  unfold int32
  omega

/-- A product of sums about a point, from the sums about the origin. -/
theorem sum_about {ι : Type*} (S : Finset ι) (f g : ι → ℤ) (u v : ℤ) :
    ∑ p ∈ S, (f p - u) * (g p - v) =
      ∑ p ∈ S, f p * g p - (u * ∑ p ∈ S, g p + v * ∑ p ∈ S, f p) + S.card * u * v := by
  have hterm : ∀ p, (f p - u) * (g p - v) = f p * g p - (u * g p + v * f p) + u * v := fun p => by ring
  simp only [hterm, Finset.sum_add_distrib, Finset.sum_sub_distrib, Finset.mul_sum, Finset.sum_const,
    nsmul_eq_mul, mul_assoc]

/-- The `int` arithmetic loses multiples of `2^32` only. -/
theorem smallMoment_congr (s x y n u v : ℤ) :
    int32 (s - int32 (int32 (u * y) + int32 (v * x)) + int32 (int32 (n * u) * v)) =
      int32 (s - (u * y + v * x) + n * u * v) := by
  have hprod : int32 (int32 (u * y) + int32 (v * x)) ≡ u * y + v * x [ZMOD 4294967296] :=
    (int32_modEq _).trans ((int32_modEq _).add (int32_modEq _))
  have hsq : int32 (int32 (n * u) * v) ≡ n * u * v [ZMOD 4294967296] :=
    (int32_modEq _).trans ((int32_modEq _).mul_right v)
  exact int32_congr (((Int.ModEq.refl s).sub hprod).add hsq)

/-- The raw sums of a set of pixels. -/
structure Totals (S : Finset Cell) (pixels cx cy a b c : ℤ) : Prop where
  pixels : pixels = S.card
  cx : cx = ∑ p ∈ S, p.1
  cy : cy = ∑ p ∈ S, p.2
  a : a = ∑ p ∈ S, p.1 * p.1
  b : b = ∑ p ∈ S, p.1 * p.2
  c : c = ∑ p ∈ S, p.2 * p.2

section About

variable {S : Finset Cell} {mx my pixels cx cy a b c : ℤ}

theorem momentA_nonneg (S : Finset Cell) (mx : ℤ) : 0 ≤ momentA S mx :=
  Finset.sum_nonneg fun _ _ => sq_nonneg _

theorem momentC_nonneg (S : Finset Cell) (my : ℤ) : 0 ≤ momentC S my :=
  Finset.sum_nonneg fun _ _ => sq_nonneg _

/-- The mixed moment is no larger than the mean of the other two. -/
theorem momentB_le (S : Finset Cell) (mx my : ℤ) : 2 * momentB S mx my ≤ momentA S mx + momentC S my ∧
    -(2 * momentB S mx my) ≤ momentA S mx + momentC S my := by
  unfold momentA momentB momentC
  rw [Finset.mul_sum, ← Finset.sum_add_distrib, ← Finset.sum_neg_distrib]
  refine ⟨Finset.sum_le_sum fun p _ => ?_, Finset.sum_le_sum fun p _ => ?_⟩
  · nlinarith [sq_nonneg ((p.1 - mx) - (p.2 - my))]
  · nlinarith [sq_nonneg ((p.1 - mx) + (p.2 - my))]

/-- The three results, modulo `2^32`. -/
theorem smallBlob_eq (h : Totals S pixels cx cy a b c) :
    smallBlob mx my pixels cx cy a b c =
      ⟨mx, my, int32 (momentA S mx), int32 (momentB S mx my), int32 (momentC S my)⟩ := by
  rw [h.pixels, h.cx, h.cy, h.a, h.b, h.c]
  simp only [smallBlob, smallMoment_congr, momentA, momentB, momentC, pow_two, sum_about]

/-- They are the moments themselves exactly if the two squares fit an `int`. -/
theorem smallBlob_exact_iff (h : Totals S pixels cx cy a b c) :
    (smallBlob mx my pixels cx cy a b c).Exact S ↔ Spread S mx my := by
  rw [smallBlob_eq h]
  constructor
  · rintro ⟨ha, -, hc⟩
    exact ⟨ha ▸ int32_lt _, hc ▸ int32_lt _⟩
  · rintro ⟨ha, hc⟩
    have h0 := momentA_nonneg S mx
    have h1 := momentC_nonneg S my
    obtain ⟨h2, h3⟩ := momentB_le S mx my
    exact ⟨int32_of_mem (by omega) (by omega), int32_of_mem (by omega) (by omega),
      int32_of_mem (by omega) (by omega)⟩

end About

/-! ### Sensor sizes -/

/-- The pixels lie in an image of at most 640 by 480. -/
def OnSensor (S : Finset Cell) : Prop := ∀ p ∈ S, 0 ≤ p.1 ∧ p.1 < 640 ∧ 0 ≤ p.2 ∧ p.2 < 480

theorem OnSensor.card_le {S : Finset Cell} (hS : OnSensor S) : S.card ≤ 307200 := by
  have hsub : S ⊆ Finset.Ico 0 640 ×ˢ Finset.Ico 0 480 := by
    intro p hp
    have hp := hS p hp
    simp only [Finset.mem_product, Finset.mem_Ico]
    omega
  calc S.card ≤ (Finset.Ico (0 : ℤ) 640 ×ˢ Finset.Ico (0 : ℤ) 480).card := Finset.card_le_card hsub
    _ = 640 * 480 := by rw [Finset.card_product, Int.card_Ico 0 640, Int.card_Ico 0 480]; rfl
    _ = 307200 := rfl

/-- A sum of coordinates fits an `int`. -/
theorem OnSensor.int32_sum {S : Finset Cell} (hS : OnSensor S) {f : Cell → ℤ}
    (hf : ∀ p ∈ S, 0 ≤ f p ∧ f p ≤ 640) : int32 (∑ p ∈ S, f p) = ∑ p ∈ S, f p := by
  have hcard := hS.card_le
  have h0 : 0 ≤ ∑ p ∈ S, f p := Finset.sum_nonneg fun p hp => (hf p hp).1
  have h1 : ∑ p ∈ S, f p ≤ S.card • 640 := Finset.sum_le_card_nsmul S f 640 fun p hp => (hf p hp).2
  rw [nsmul_eq_mul] at h1
  exact int32_of_mem (by omega) (by omega)

/-- The region of interest lies in the image. -/
structure Rectangle.Within (roi : Rectangle) (w h : ℤ) : Prop where
  x_nonneg : 0 ≤ roi.x
  y_nonneg : 0 ≤ roi.y
  right_le : roi.x + roi.w ≤ w
  bottom_le : roi.y + roi.h ≤ h

theorem Rectangle.Within.onSensor {roi : Rectangle} (hroi : roi.Within 640 480) {S : Finset Cell}
    (hS : ∀ p ∈ S, roi.Mem p) : OnSensor S := by
  intro p hp
  obtain ⟨h1, h2, h3, h4⟩ := hroi
  obtain ⟨h5, h6, h7, h8⟩ := hS p hp
  omega

/-! ### The sums of a blob -/

/-- Six times the sum of the squares of `n` columns from `l` on. -/
theorem sum_squares_mul_six (l : ℤ) (n : ℕ) :
    (∑ k ∈ Finset.range n, (l + k) * (l + k)) * 6 =
      (l + n - 1) * (l + n) * (2 * (l + n - 1) + 1) - l * (l - 1) * (2 * l - 1) := by
  induction n with
  | zero => simp only [Finset.range_zero, Finset.sum_empty, Nat.cast_zero]; ring
  | succ n ih =>
    rw [Finset.sum_range_succ, add_mul, ih]
    push_cast
    ring

theorem sum2MToN_eq {l r : ℤ} (h0 : 0 ≤ l) (h1 : l ≤ r) (h2 : r < 640) :
    sum2MToN l r = ∑ k ∈ Finset.range (r + 1 - l).toNat, (l + k) * (l + k) := by
  have hsum := sum_squares_mul_six l (r + 1 - l).toNat
  rw [show l + ((r + 1 - l).toNat : ℤ) - 1 = r by omega,
    show l + ((r + 1 - l).toNat : ℤ) = r + 1 by omega] at hsum
  have hlow : 0 ≤ ∑ k ∈ Finset.range (r + 1 - l).toNat, (l + (k : ℤ)) * (l + k) :=
    Finset.sum_nonneg fun k _ => mul_self_nonneg _
  have hhigh : ∑ k ∈ Finset.range (r + 1 - l).toNat, (l + (k : ℤ)) * (l + k) ≤ 640 * (640 * 640) := by
    refine (Finset.sum_le_card_nsmul _ _ (640 * 640) fun k hk => ?_).trans ?_
    · have := Finset.mem_range.mp hk
      exact mul_le_mul (by omega) (by omega) (by omega) (by omega)
    · rw [Finset.card_range, nsmul_eq_mul]
      omega
  unfold sum2MToN
  rw [int32_of_mem (by omega) (by omega), ← hsum, Int.mul_tdiv_cancel _ (by decide)]

section Fill

variable {lifoLen fuel : ℕ} {roi : Rectangle} {passes : Cell → Bool}

/-- The sums of the squares and products over the spans of the blob. -/
theorem blobFill_squares {vis : Cell → Bool} {seed : Cell} {t : BlobAcc} {s : State BlobAcc}
    (hx : (blobFill lifoLen roi passes).exec fuel (start vis seed t) = some s) :
    s.acc.a = s.marked.foldr (fun sp g => g + sum2MToN sp.l sp.r) t.a ∧
    s.acc.b = s.marked.foldr (fun sp g => g + int32 (sp.y * sumMToN sp.l sp.r)) t.b ∧
    s.acc.c = s.marked.foldr (fun sp g => g + int32 (sp.y * sp.y * (sp.r - sp.l + 1))) t.c :=
  ⟨exec_marked (π := BlobAcc.a) (blobFill_untouched fun _ _ => rfl) (fun g sp => g + sum2MToN sp.l sp.r)
      (fun _ _ => rfl) (fun _ _ => rfl) hx,
    exec_marked (π := BlobAcc.b) (blobFill_untouched fun _ _ => rfl)
      (fun g sp => g + int32 (sp.y * sumMToN sp.l sp.r)) (fun _ _ => rfl) (fun _ _ => rfl) hx,
    exec_marked (π := BlobAcc.c) (blobFill_untouched fun _ _ => rfl)
      (fun g sp => g + int32 (sp.y * sp.y * (sp.r - sp.l + 1))) (fun _ _ => rfl) (fun _ _ => rfl) hx⟩

/-- The span lies in an image of at most 640 by 480. -/
structure SensorSpan (sp : Span) : Prop where
  l_nonneg : 0 ≤ sp.l
  l_le : sp.l ≤ sp.r
  r_lt : sp.r < 640
  y_nonneg : 0 ≤ sp.y
  y_lt : sp.y < 480

/-- What a span adds to the three sums is what its pixels add. -/
theorem SensorSpan.squares {sp : Span} (h : SensorSpan sp) :
    sum2MToN sp.l sp.r = ∑ k ∈ Finset.range (sp.r + 1 - sp.l).toNat, (sp.l + k) * (sp.l + k) ∧
    int32 (sp.y * sumMToN sp.l sp.r) = ∑ k ∈ Finset.range (sp.r + 1 - sp.l).toNat, (sp.l + k) * sp.y ∧
    int32 (sp.y * sp.y * (sp.r - sp.l + 1)) =
      ∑ _k ∈ Finset.range (sp.r + 1 - sp.l).toNat, sp.y * sp.y := by
  obtain ⟨h0, h1, h2, h3, h4⟩ := h
  have hcard : (((sp.r + 1 - sp.l).toNat : ℕ) : ℤ) = sp.r - sp.l + 1 := by omega
  have hsum := sumMToN_eq h0 h1 (by omega)
  have hlow : 0 ≤ sumMToN sp.l sp.r := hsum ▸ Finset.sum_nonneg fun k _ => by omega
  have hhigh : sumMToN sp.l sp.r ≤ 640 * 640 := by
    rw [hsum]
    refine (Finset.sum_le_card_nsmul _ _ 640 fun k hk => ?_).trans ?_
    · have := Finset.mem_range.mp hk
      omega
    · rw [Finset.card_range, nsmul_eq_mul]
      omega
  refine ⟨sum2MToN_eq h0 h1 h2, ?_, ?_⟩
  · rw [← Finset.sum_mul, ← hsum, mul_comm, int32_of_mem] <;> nlinarith
  · rw [Finset.sum_const, Finset.card_range, nsmul_eq_mul, hcard, mul_comm, int32_of_mem]
    · nlinarith [mul_nonneg h3 h3]
    · calc (sp.r - sp.l + 1) * (sp.y * sp.y) ≤ 640 * (480 * 480) :=
            mul_le_mul (by omega) (mul_le_mul (by omega) (by omega) h3 (by omega))
              (mul_nonneg h3 h3) (by omega)
        _ ≤ 2147483647 := by norm_num

/-- The raw sums of a blob are those of the region its spans make up. -/
theorem fill_totals {vis : Cell → Bool} {seed : Cell} {xMax yMax : ℤ} {s : State BlobAcc}
    (hx : (blobFill lifoLen roi passes).exec fuel (start vis seed (BlobAcc.init xMax yMax)) = some s)
    (hapart : s.marked.Pairwise Span.Apart) (hin : ∀ sp ∈ s.marked, SensorSpan sp)
    (hS : OnSensor (region s.marked)) :
    Totals (region s.marked) s.acc.pixels s.acc.cx s.acc.cy s.acc.a s.acc.b s.acc.c := by
  have hsmall : ∀ sp ∈ s.marked, SmallSpan sp := fun sp hsp => by
    obtain ⟨h1, h2, h3, h4, h5⟩ := hin sp hsp
    exact ⟨h1, h2, by omega, h4, by omega⟩
  obtain ⟨hpix, hcx, hcy, -⟩ := blobFill_figures hx
  obtain ⟨hpix', hcx', hcy'⟩ := region_sums hapart hsmall
  obtain ⟨ha, hb, hc⟩ := blobFill_squares hx
  refine ⟨hpix.trans hpix', ?_, ?_, ?_, ?_, ?_⟩
  · rw [hcx.trans hcx', hS.int32_sum fun p hp => by have := hS p hp; omega]
  · rw [hcy.trans hcy', hS.int32_sum fun p hp => by have := hS p hp; omega]
  · rw [ha, sum_region _ hapart]
    refine (foldr_add _ _).trans (congrArg List.sum (List.map_congr_left fun sp hsp => ?_))
    exact (hin sp hsp).squares.1
  · rw [hb, sum_region _ hapart]
    refine (foldr_add _ _).trans (congrArg List.sum (List.map_congr_left fun sp hsp => ?_))
    exact (hin sp hsp).squares.2.1
  · rw [hc, sum_region _ hapart]
    refine (foldr_add _ _).trans (congrArg List.sum (List.map_congr_left fun sp hsp => ?_))
    exact (hin sp hsp).squares.2.2

/-- The last state of a fill, and the number of its threshold. -/
structure Filled where
  state : State BlobAcc
  code : ℕ

def Filled.blob (f : Filled) : Blob := f.state.acc.toBlob f.code

/-- The pixels that were marked. -/
def Filled.pixels (f : Filled) : Finset Cell := region f.state.marked

/-- The fill began at a pixel that passes and was not in the bitmap. -/
def Filled.From (lifoLen fuel : ℕ) (roi : Rectangle) (passes : Cell → Bool) (f : Filled) : Prop :=
  ∃ bmp p, p ∈ unclaimed roi passes bmp ∧ (blobFill lifoLen roi passes).exec fuel
    (start bmp p (BlobAcc.init (roi.x + roi.w - 1) (roi.y + roi.h - 1))) = some f.state

/-- What is known of the end of a fill. -/
structure Filled.Ok (roi : Rectangle) (f : Filled) : Prop where
  apart : f.state.marked.Pairwise Span.Apart
  chained : Chained f.state.marked
  ne_nil : f.state.marked ≠ []
  small : ∀ sp ∈ f.state.marked, SensorSpan sp
  mem : ∀ q ∈ f.pixels, roi.Mem q

/-- The fill from a pixel ends. -/
theorem blobFill_ends (lifoLen : ℕ) (hroi : roi.Within 640 480)
    (hfuel : 3 * (roi.w.toNat * roi.h.toNat) ≤ fuel) {bmp : Cell → Bool} {p : Cell}
    (hp : p ∈ unclaimed roi passes bmp) (code : ℕ) (t : BlobAcc) :
    ∃ f, (blobFill lifoLen roi passes).exec fuel (start bmp p t) = some f ∧
      (Filled.mk f code).Ok roi ∧ (∀ q, f.vis q = true ↔ bmp q = true ∨ q ∈ region f.marked) ∧
      ∀ q ∈ region f.marked, bmp q = false := by
  have hpack : ∀ c : Ctx, c.Fits (blobFill lifoLen roi passes).toGrid →
      (blobFill lifoLen roi passes).pack c = c := fun c hc => by
    obtain ⟨hr1, hr2, hr3, hr4⟩ := hroi
    exact xylr_of_fits (by simp [blobFill]; omega) (by simp [blobFill]; omega)
      (by simp [blobFill]; omega) (by simp [blobFill]; omega) hc
  obtain ⟨f, hx, -, hlr, hapart, hseed, hvis, hreach, -⟩ := fill_spec (M := blobFill lifoLen roi passes)
    hpack bmp p hp.1 hp.2.2 t (by simpa [blobFill] using hfuel)
  have hmem : ∀ q, f.Marked q → q ∈ unclaimed roi passes bmp := fun q hq =>
    comp_subset hp (blobFill_reach_iff.mp (hreach q hq))
  refine ⟨f, hx, ⟨hapart, exec_chained hpack hp.1 hp.2.2 t hx, ?_, fun sp hsp => ?_, fun q hq => ?_⟩,
    fun q => by rw [hvis, mem_region]; rfl, fun q hq => (hmem q (mem_region.mp hq)).2.2⟩
  · rintro h
    simp only at h
    simp [State.Marked, h] at hseed
  · obtain ⟨hr1, hr2, hr3, hr4⟩ := hroi
    have h1 := (hmem (sp.l, sp.y) ⟨sp, hsp, rfl, le_rfl, hlr sp hsp⟩).1
    have h2 := (hmem (sp.r, sp.y) ⟨sp, hsp, rfl, hlr sp hsp, le_rfl⟩).1
    simp only [Rectangle.Mem] at h1 h2
    exact ⟨by omega, hlr sp hsp, by omega, by omega, by omega⟩
  · exact (hmem q (mem_region.mp hq)).1

theorem Filled.From.ok (hroi : roi.Within 640 480) (hfuel : 3 * (roi.w.toNat * roi.h.toNat) ≤ fuel)
    {f : Filled} (h : f.From lifoLen fuel roi passes) : f.Ok roi := by
  obtain ⟨bmp, p, hp, hx⟩ := h
  obtain ⟨f', hx', hok, -⟩ := blobFill_ends lifoLen hroi hfuel hp f.code
    (BlobAcc.init (roi.x + roi.w - 1) (roi.y + roi.h - 1))
  obtain rfl : f.state = f' := Option.some.inj (hx.symm.trans hx')
  exact hok

theorem Filled.From.totals (hroi : roi.Within 640 480)
    (hfuel : 3 * (roi.w.toNat * roi.h.toNat) ≤ fuel) {f : Filled}
    (h : f.From lifoLen fuel roi passes) :
    Totals f.pixels f.blob.pixels f.blob.cx f.blob.cy f.blob.a f.blob.b f.blob.c := by
  have hok := h.ok hroi hfuel
  obtain ⟨bmp, p, hp, hx⟩ := h
  exact fill_totals hx hok.apart hok.small (hroi.onSensor hok.mem)

/-! ### Every blob comes from a fill -/

/-- The blobs found so far, with the fills they come from. -/
structure Recorded (V : Filled → Prop) (s : Search) (fills : List Filled) : Prop where
  out : s.out = fills.map Filled.blob
  valid : ∀ f ∈ fills, V f
  disjoint : fills.Pairwise fun f g => Disjoint f.pixels g.pixels
  bmp : ∀ f ∈ fills, ∀ q ∈ f.pixels, s.bmp q = true

variable (lifoLen passes) (opts : BlobOptions) {V : Filled → Prop}

theorem searchAt_recorded (hroi : roi.Within 640 480) (hfuel : 3 * (roi.w.toNat * roi.h.toNat) ≤ fuel)
    (code : ℕ) (hV : ∀ f : Filled, f.From lifoLen fuel roi passes → V f) {s : Search}
    {fills : List Filled} (h : Recorded V s fills) {p : Cell} (hp : roi.Mem p) :
    ∃ s' fills', searchAt lifoLen fuel roi opts passes code s p = some s' ∧ Recorded V s' fills' := by
  unfold searchAt
  split_ifs with hnew
  swap
  · exact ⟨s, fills, rfl, h⟩
  simp only [Bool.and_eq_true, Bool.not_eq_true'] at hnew
  have hp : p ∈ unclaimed roi passes s.bmp := ⟨hp, hnew.2, hnew.1⟩
  obtain ⟨f, hx, -, hvis, hclear⟩ := blobFill_ends lifoLen hroi hfuel hp code
    (BlobAcc.init (roi.x + roi.w - 1) (roi.y + roi.h - 1))
  have hbmp : ∀ g ∈ fills, ∀ q ∈ g.pixels, f.vis q = true := fun g hg q hq =>
    (hvis q).mpr (.inl (h.bmp g hg q hq))
  rw [hx]
  simp only [Option.bind_eq_bind, Option.bind_some]
  generalize (_ && _ : Bool) = add
  cases add
  · exact ⟨_, fills, rfl, h.out, h.valid, h.disjoint, hbmp⟩
  · refine ⟨_, fills ++ [⟨f, code⟩], rfl, ?_, ?_, ?_, ?_⟩
    · simp only [if_true, h.out, List.map_append, List.map_cons, List.map_nil]
      rfl
    · rintro g hg
      rcases List.mem_append.mp hg with hg | hg
      · exact h.valid g hg
      · obtain rfl := List.mem_singleton.mp hg
        exact hV _ ⟨s.bmp, p, hp, hx⟩
    · refine List.pairwise_append.mpr ⟨h.disjoint, List.pairwise_singleton _ _, fun g hg g' hg' => ?_⟩
      obtain rfl := List.mem_singleton.mp hg'
      refine Finset.disjoint_left.mpr fun q hq hq' => ?_
      have hset := h.bmp g hg q hq
      simp [hclear q hq'] at hset
    · intro g hg q hq
      rcases List.mem_append.mp hg with hg | hg
      · exact hbmp g hg q hq
      · obtain rfl := List.mem_singleton.mp hg
        exact (hvis q).mpr (.inr hq)

theorem searchCells_recorded (hroi : roi.Within 640 480)
    (hfuel : 3 * (roi.w.toNat * roi.h.toNat) ≤ fuel) (code : ℕ)
    (hV : ∀ f : Filled, f.From lifoLen fuel roi passes → V f) :
    ∀ (cells : List Cell) {s : Search} {fills : List Filled}, Recorded V s fills →
    (∀ p ∈ cells, roi.Mem p) →
    ∃ s' fills', cells.foldlM (searchAt lifoLen fuel roi opts passes code) s = some s' ∧
      Recorded V s' fills'
  | [], s, fills, h, _ => ⟨s, fills, rfl, h⟩
  | p :: cells, s, fills, h, hcells => by
      obtain ⟨hp, hrest⟩ := List.forall_mem_cons.mp hcells
      obtain ⟨s₁, fills₁, h1, hrec₁⟩ := searchAt_recorded lifoLen passes opts hroi hfuel code hV h hp
      obtain ⟨s₂, fills₂, h2, hrec₂⟩ := searchCells_recorded hroi hfuel code hV cells hrec₁ hrest
      exact ⟨s₂, fills₂, by rw [List.foldlM_cons, h1]; exact h2, hrec₂⟩

end Fill

theorem mem_strided {i stop x : ℤ} {stride : ℕ} (hs : 0 < stride) (hx : x ∈ strided i stop stride) :
    i ≤ x ∧ x < stop := by
  obtain ⟨k, hk, rfl⟩ := List.mem_map.mp hx
  have hk := List.mem_range.mp hk
  rw [Nat.lt_iff_add_one_le, Nat.le_div_iff_mul_le hs, add_mul] at hk
  have hpos : (0 : ℤ) ≤ stride * k := by positivity
  have hcomm : (k : ℤ) * stride = stride * k := mul_comm _ _
  constructor
  · omega
  · zify at hk
    omega

theorem rasterCells_mem {roi : Rectangle} {xStride yStride : ℕ} (hx : 0 < xStride) (hy : 0 < yStride)
    {p : Cell} (hp : p ∈ rasterCells roi xStride yStride) : roi.Mem p := by
  simp only [rasterCells, List.mem_flatMap, List.mem_map] at hp
  obtain ⟨y, hy', x, hx', rfl⟩ := hp
  obtain ⟨h1, h2⟩ := mem_strided hy hy'
  obtain ⟨h3, h4⟩ := mem_strided hx hx'
  have := Int.emod_nonneg y (Int.natCast_pos.mpr hx).ne'
  exact ⟨by dsimp; omega, h4, h1, h2⟩

/-- The loop over the thresholds. -/
theorem searchThresholds_recorded (lifoLen : ℕ) {fuel : ℕ} {roi : Rectangle} (opts : BlobOptions)
    (passes : ColorThresholds → Cell → Bool) (hroi : roi.Within 640 480)
    (hfuel : 3 * (roi.w.toNat * roi.h.toNat) ≤ fuel) (hx : 0 < opts.xStride) (hy : 0 < opts.yStride)
    {V : Filled → Prop} :
    ∀ (ts : List ColorThresholds) (code : ℕ) {s : Search} {fills : List Filled},
    (∀ t ∈ ts, ∀ f : Filled, f.From lifoLen fuel roi (passes t) → V f) → Recorded V s fills →
    ∃ s' fills', searchThresholds lifoLen fuel roi opts passes code ts s = some s' ∧
      Recorded V s' fills'
  | [], _, s, fills, _, h => ⟨s, fills, rfl, h⟩
  | t :: ts, code, s, fills, hV, h => by
      obtain ⟨hVt, hVts⟩ := List.forall_mem_cons.mp hV
      obtain ⟨s₁, fills₁, h1, hrec₁⟩ := searchCells_recorded lifoLen (passes t) opts hroi hfuel code hVt
        (rasterCells roi opts.xStride opts.yStride) h fun p hp => rasterCells_mem hx hy hp
      obtain ⟨s₂, fills₂, h2, hrec₂⟩ := searchThresholds_recorded lifoLen opts passes hroi hfuel hx hy
        ts (code + 1) hVts hrec₁
      exact ⟨s₂, fills₂, by simp only [searchThresholds, searchThreshold, h1]; exact h2, hrec₂⟩

/-- The whole search. -/
theorem imlibFindBlobs_recorded (lab : LabTable) {img : Image} (hw : img.w ≤ 640) (hh : img.h ≤ 480)
    {roi : Rectangle} (hroi : roi.Within img.w img.h) (invert : Bool) (lifoLen : ℕ) {fuel : ℕ}
    (hfuel : 3 * (roi.w.toNat * roi.h.toNat) ≤ fuel) {opts : BlobOptions} (hx : 0 < opts.xStride)
    (hy : 0 < opts.yStride) (thresholds : List ColorThresholds) :
    ∃ s fills, imlibFindBlobs lifoLen fuel roi opts lab img thresholds invert = some s ∧
      Recorded (fun f => ∃ t ∈ thresholds, f.From lifoLen fuel roi (pixelPasses lab img invert t)) s
        fills := by
  have hroi : roi.Within 640 480 := by
    obtain ⟨h1, h2, h3, h4⟩ := hroi
    exact ⟨h1, h2, by omega, by omega⟩
  have h0 : Recorded (fun f => ∃ t ∈ thresholds, f.From lifoLen fuel roi (pixelPasses lab img invert t))
      Search.init [] := ⟨rfl, by simp, List.Pairwise.nil, by simp⟩
  obtain ⟨s, fills, hs, hrec⟩ := searchThresholds_recorded lifoLen opts (pixelPasses lab img invert) hroi
    hfuel hx hy thresholds 0 (fun t ht f hf => ⟨t, ht, hf⟩) h0
  cases hbpp : img.bpp
  case bayer | jpeg => exact ⟨_, [], by simp only [imlibFindBlobs, hbpp], h0⟩
  all_goals exact ⟨s, fills, by simp only [imlibFindBlobs, hbpp]; exact hs, hrec⟩

/-! ### The least squares regression -/

/-- The variables of `imlib_get_regression` without `robust`. -/
structure LineAcc where
  x1 : ℤ
  y1 : ℤ
  x2 : ℤ
  y2 : ℤ
  pixels : ℤ
  cx : ℤ
  cy : ℤ
  a : ℤ
  b : ℤ
  c : ℤ

def LineAcc.init (roi : Rectangle) : LineAcc where
  x1 := roi.x + roi.w - 1
  y1 := roi.y + roi.h - 1
  x2 := roi.x
  y2 := roi.y
  pixels := 0
  cx := 0
  cy := 0
  a := 0
  b := 0
  c := 0

def LineAcc.add (t : LineAcc) (p : Cell) : LineAcc where
  x1 := min t.x1 p.1
  y1 := min t.y1 p.2
  x2 := max t.x2 p.1
  y2 := max t.y2 p.2
  pixels := int32 (t.pixels + 1)
  cx := int32 (t.cx + p.1)
  cy := int32 (t.cy + p.2)
  a := t.a + int32 (p.1 * p.1)
  b := t.b + int32 (p.1 * p.2)
  c := t.c + int32 (p.2 * p.2)

section

variable (roi : Rectangle) (xStride yStride : ℕ)

/-- The two loops over the pixels, for one threshold. -/
def LineAcc.collect (passes : Cell → Bool) (t : LineAcc) : LineAcc :=
  (rasterCells roi xStride yStride).foldl (fun t p => if passes p then t.add p else t) t

/-- The loop over the thresholds. Other formats have no case in the `switch`. -/
def regressionSums (lab : LabTable) (img : Image) (thresholds : List ColorThresholds) (invert : Bool) :
    LineAcc :=
  match img.bpp with
  | .binary | .grayscale | .rgb565 =>
    thresholds.foldl (fun t th => t.collect roi xStride yStride (pixelPasses lab img invert th))
      (LineAcc.init roi)
  | .bayer | .jpeg => LineAcc.init roi

/-- `imlib_get_regression` without `robust`, as far as the moments the line is computed from; `none`
    if the pixels are too few or lie too close together. -/
def imlibGetRegression (lab : LabTable) (img : Image) (thresholds : List ColorThresholds)
    (invert : Bool) (areaThreshold pixelsThreshold : ℕ) : Option SmallBlob :=
  let t := regressionSums roi xStride yStride lab img thresholds invert
  if t.pixels ≠ 0 ∧ (areaThreshold : ℤ) ≤ ((t.x2 - t.x1) * (t.y2 - t.y1)) % 2 ^ 32 ∧
      (pixelsThreshold : ℤ) ≤ t.pixels % 2 ^ 32 then
    some (smallBlob (t.cx.tdiv t.pixels) (t.cy.tdiv t.pixels) t.pixels t.cx t.cy t.a t.b t.c)
  else none

/-- The pixels a regression with one threshold selects. -/
def selected (passes : Cell → Bool) : Finset Cell :=
  ((rasterCells roi xStride yStride).filter passes).toFinset

end

theorem strided_nodup {i stop : ℤ} {stride : ℕ} (hs : 0 < stride) : (strided i stop stride).Nodup := by
  refine List.Nodup.map (fun k l hkl => ?_) List.nodup_range
  have : (stride : ℤ) * k = stride * l := by omega
  exact_mod_cast mul_left_cancel₀ (Int.natCast_pos.mpr hs).ne' this

/-- No pixel is visited twice. -/
theorem rasterCells_nodup (roi : Rectangle) {xStride yStride : ℕ} (hx : 0 < xStride)
    (hy : 0 < yStride) : (rasterCells roi xStride yStride).Nodup := by
  refine List.nodup_flatMap.mpr ⟨fun y _ => ?_, (strided_nodup hy).imp fun {y y'} hne => ?_⟩
  · exact (strided_nodup hx).map fun x x' h => (Prod.mk.inj h).1
  · intro p hp hp'
    obtain ⟨x, -, rfl⟩ := List.mem_map.mp hp
    obtain ⟨x', -, h⟩ := List.mem_map.mp hp'
    exact hne (Prod.mk.inj h).2.symm

theorem regressionSums_one (roi : Rectangle) (xStride yStride : ℕ) (lab : LabTable) (img : Image)
    (t : ColorThresholds) (invert : Bool)
    (hbpp : img.bpp = .binary ∨ img.bpp = .grayscale ∨ img.bpp = .rgb565) :
    regressionSums roi xStride yStride lab img [t] invert =
      (LineAcc.init roi).collect roi xStride yStride (pixelPasses lab img invert t) := by
  rcases hbpp with h | h | h <;> simp only [regressionSums, h, List.foldl_cons, List.foldl_nil]

/-- The sums after the pixels `cells`, up to wrapping. -/
theorem foldl_add_sums (roi : Rectangle) (passes : Cell → Bool) (cells : List Cell) :
    ∀ t, t = cells.foldl (fun t p => if passes p then t.add p else t) (LineAcc.init roi) →
      t.pixels = int32 ((cells.filter passes).map fun _ => (1 : ℤ)).sum ∧
      t.cx = int32 ((cells.filter passes).map Prod.fst).sum ∧
      t.cy = int32 ((cells.filter passes).map Prod.snd).sum ∧
      t.a = ((cells.filter passes).map fun p => int32 (p.1 * p.1)).sum ∧
      t.b = ((cells.filter passes).map fun p => int32 (p.1 * p.2)).sum ∧
      t.c = ((cells.filter passes).map fun p => int32 (p.2 * p.2)).sum := by
  induction cells using List.reverseRecOn with
  | nil => rintro t rfl; exact ⟨rfl, rfl, rfl, rfl, rfl, rfl⟩
  | append_singleton cells p ih =>
    rintro t rfl
    obtain ⟨h1, h2, h3, h4, h5, h6⟩ := ih _ rfl
    rw [List.foldl_append, List.foldl_cons, List.foldl_nil, List.filter_append]
    generalize cells.foldl (fun t p => if passes p then t.add p else t) (LineAcc.init roi) = u at *
    cases hp : passes p
    · simp only [List.filter_cons, hp, Bool.false_eq_true, if_false, List.filter_nil, List.append_nil]
      exact ⟨h1, h2, h3, h4, h5, h6⟩
    · simp only [List.filter_cons, hp, if_true, List.filter_nil, List.map_append, List.sum_append,
        List.map_cons, List.map_nil, List.sum_singleton]
      simp only [LineAcc.add, h1, h2, h3, h4, h5, h6, int32_add_left, and_self]

/-- The raw sums of a regression are those of the pixels selected. -/
theorem collect_totals {roi : Rectangle} (hroi : roi.Within 640 480) {xStride yStride : ℕ}
    (hx : 0 < xStride) (hy : 0 < yStride) (passes : Cell → Bool) {t : LineAcc}
    (ht : t = (LineAcc.init roi).collect roi xStride yStride passes) :
    Totals (selected roi xStride yStride passes) t.pixels t.cx t.cy t.a t.b t.c := by
  obtain ⟨h1, h2, h3, h4, h5, h6⟩ := foldl_add_sums roi passes (rasterCells roi xStride yStride) t ht
  have hnodup := (rasterCells_nodup roi hx hy).filter passes
  have hS : OnSensor (selected roi xStride yStride passes) := hroi.onSensor fun p hp =>
    rasterCells_mem hx hy (List.mem_filter.mp (List.mem_toFinset.mp hp)).1
  have hsq : ∀ {x y : ℤ}, 0 ≤ x → x < 640 → 0 ≤ y → y < 640 → int32 (x * y) = x * y := by
    intro x y hx0 hx1 hy0 hy1
    exact int32_of_mem (by nlinarith) (by nlinarith)
  have hprod : ∀ {f g : Cell → ℤ}, (∀ p, 0 ≤ p.1 ∧ p.1 < 640 ∧ 0 ≤ p.2 ∧ p.2 < 480 →
      (0 ≤ f p ∧ f p < 640) ∧ 0 ≤ g p ∧ g p < 640) →
      (((rasterCells roi xStride yStride).filter passes).map fun p => int32 (f p * g p)).sum =
        ∑ p ∈ selected roi xStride yStride passes, f p * g p := by
    intro f g hfg
    rw [← List.sum_toFinset _ hnodup]
    refine Finset.sum_congr rfl fun p hp => ?_
    obtain ⟨⟨hf0, hf1⟩, hg0, hg1⟩ := hfg p (hS p hp)
    exact hsq hf0 hf1 hg0 hg1
  refine ⟨?_, ?_, ?_, h4.trans (hprod fun p hp => by omega), h5.trans (hprod fun p hp => by omega),
    h6.trans (hprod fun p hp => by omega)⟩
  · rw [h1, ← List.sum_toFinset _ hnodup, Finset.card_eq_sum_ones, Nat.cast_sum]
    exact hS.int32_sum fun p _ => by omega
  · rw [h2, ← List.sum_toFinset _ hnodup]
    exact hS.int32_sum fun p hp => by have := hS p hp; omega
  · rw [h3, ← List.sum_toFinset _ hnodup]
    exact hS.int32_sum fun p hp => by have := hS p hp; omega

/-! ### Both -/

/-- The moments of a reported blob; `centroid cx pixels` is `fast_roundf(cx / ((float) pixels))`. -/
def Blob.smallBlob (centroid : ℤ → ℤ → ℤ) (b : Blob) : SmallBlob :=
  Vision.smallBlob (centroid b.cx b.pixels) (centroid b.cy b.pixels) b.pixels b.cx b.cy b.a b.b b.c

/-- In an image of at most 640 by 480 the moments of a blob, and those of a regression with one
    threshold, are exact if and only if the spread of the pixels about the centroid fits an `int`,
    across and down. -/
theorem small_blob_exact_iff (lab : LabTable) (img : Image) (hw : img.w ≤ 640) (hh : img.h ≤ 480)
    (roi : Rectangle) (hroi : roi.Within img.w img.h) (invert : Bool) (lifoLen fuel : ℕ)
    (hfuel : 3 * (roi.w.toNat * roi.h.toNat) ≤ fuel) (opts : BlobOptions) (hx : 0 < opts.xStride)
    (hy : 0 < opts.yStride) (thresholds : List ColorThresholds) (centroid : ℤ → ℤ → ℤ) :
    (∃ s, imlibFindBlobs lifoLen fuel roi opts lab img thresholds invert = some s ∧
      ∀ b ∈ s.out, ∃ t ∈ thresholds, ∃ f : Filled,
        f.From lifoLen fuel roi (pixelPasses lab img invert t) ∧ b = f.blob ∧
        ∀ S, S = f.pixels → ((b.smallBlob centroid).Exact S ↔
          Spread S (centroid (∑ p ∈ S, p.1) S.card) (centroid (∑ p ∈ S, p.2) S.card))) ∧
    ∀ t areaThreshold pixelsThreshold m,
      imlibGetRegression roi opts.xStride opts.yStride lab img [t] invert areaThreshold pixelsThreshold =
        some m →
      ∀ S, S = selected roi opts.xStride opts.yStride (pixelPasses lab img invert t) →
        (m.Exact S ↔ Spread S ((∑ p ∈ S, p.1) / S.card) ((∑ p ∈ S, p.2) / S.card)) := by
  have hroi' : roi.Within 640 480 := by
    obtain ⟨h1, h2, h3, h4⟩ := hroi
    exact ⟨h1, h2, by omega, by omega⟩
  constructor
  · obtain ⟨s, fills, hs, hrec⟩ := imlibFindBlobs_recorded lab hw hh hroi invert lifoLen hfuel hx hy
      thresholds
    refine ⟨s, hs, fun b hb => ?_⟩
    obtain ⟨f, hf, rfl⟩ := List.mem_map.mp (hrec.out ▸ hb)
    obtain ⟨t, ht, hfrom⟩ := hrec.valid f hf
    have htot := hfrom.totals hroi' hfuel
    refine ⟨t, ht, f, hfrom, rfl, ?_⟩
    rintro S rfl
    rw [← htot.cx, ← htot.cy, ← htot.pixels]
    exact smallBlob_exact_iff htot
  · rintro t areaThreshold pixelsThreshold m hm S rfl
    have hbpp : regressionSums roi opts.xStride opts.yStride lab img [t] invert =
        (LineAcc.init roi).collect roi opts.xStride opts.yStride (pixelPasses lab img invert t) ∨
        regressionSums roi opts.xStride opts.yStride lab img [t] invert = LineAcc.init roi := by
      cases hbpp : img.bpp
      case bayer | jpeg => exact .inr (by simp only [regressionSums, hbpp])
      all_goals exact .inl (regressionSums_one _ _ _ _ _ _ _ (by simp [hbpp]))
    rcases hbpp with h | h
    · have htot := collect_totals hroi' hx hy (pixelPasses lab img invert t) h
      simp only [imlibGetRegression] at hm
      split_ifs at hm
      obtain rfl := Option.some.inj hm
      rw [smallBlob_exact_iff htot, htot.cx, htot.cy, htot.pixels, Int.tdiv_eq_ediv_of_nonneg,
        Int.tdiv_eq_ediv_of_nonneg]
      all_goals
        refine Finset.sum_nonneg fun p hp => ?_
        have := (rasterCells_mem hx hy (List.mem_filter.mp (List.mem_toFinset.mp hp)).1)
        simp only [Rectangle.Mem] at this
        have h1 := hroi.x_nonneg
        have h2 := hroi.y_nonneg
        omega
    · simp [imlibGetRegression, h, LineAcc.init] at hm

/-- The ring of eight dark pixels. -/
theorem small_blob_exact_ring :
    (∃ s, imlibFindBlobs 8192 27 ⟨0, 0, 3, 3⟩ plainOptions (fun _ => (0, 0, 0)) ringImage
        [darkThreshold] false = some s ∧
      ∀ b ∈ s.out, ∃ S, (b.smallBlob fun x n => (2 * x + n) / (2 * n)).Exact S ↔
        Spread S ((2 * (∑ p ∈ S, p.1) + S.card) / (2 * S.card))
          ((2 * (∑ p ∈ S, p.2) + S.card) / (2 * S.card))) ∧
    imlibGetRegression ⟨0, 0, 3, 3⟩ 1 1 (fun _ => (0, 0, 0)) ringImage [darkThreshold] false 0 0 =
      some ⟨1, 1, 6, 0, 6⟩ ∧
    (SmallBlob.mk 1 1 6 0 6).Exact (selected ⟨0, 0, 3, 3⟩ 1 1
      (pixelPasses (fun _ => (0, 0, 0)) ringImage false darkThreshold)) := by
  have hm : imlibGetRegression ⟨0, 0, 3, 3⟩ 1 1 (fun _ => (0, 0, 0)) ringImage [darkThreshold] false
      0 0 = some ⟨1, 1, 6, 0, 6⟩ := by
    decide
  obtain ⟨⟨s, hs, hblobs⟩, hline⟩ := small_blob_exact_iff (fun _ => (0, 0, 0)) ringImage (by decide)
    (by decide) ⟨0, 0, 3, 3⟩ ⟨by decide, by decide, by decide, by decide⟩ false 8192 27 (by decide)
    plainOptions (by decide) (by decide) [darkThreshold] fun x n => (2 * x + n) / (2 * n)
  refine ⟨⟨s, hs, fun b hb => ?_⟩, hm, (hline _ 0 0 _ hm _ rfl).mpr ⟨?_, ?_⟩⟩
  · obtain ⟨-, -, f, -, -, hS⟩ := hblobs b hb
    exact ⟨f.pixels, hS _ rfl⟩
  · decide
  · decide

/-- A dark image of the largest size. -/
def darkImage : Image := ⟨640, 480, .grayscale, fun _ _ => 10⟩

theorem selected_darkImage : selected ⟨0, 0, 640, 480⟩ 1 1
    (pixelPasses (fun _ => (0, 0, 0)) darkImage false darkThreshold) =
      Finset.Ico 0 640 ×ˢ Finset.Ico 0 480 := by
  ext p
  have hdark : pixelPasses (fun _ => (0, 0, 0)) darkImage false darkThreshold p = true := rfl
  simp only [selected, List.mem_toFinset, List.mem_filter, mem_rasterCells, Rectangle.Mem, hdark,
    Finset.mem_product, Finset.mem_Ico, zero_add, and_true, and_assoc]

/-- A sum over its columns. -/
theorem sum_darkImage (f : ℤ → ℤ) :
    ∑ p ∈ (Finset.Ico 0 640 ×ˢ Finset.Ico 0 480 : Finset Cell), f p.1 = 480 * ∑ x ∈ Finset.Ico 0 640, f x := by
  rw [Finset.sum_product, Finset.mul_sum]
  refine Finset.sum_congr rfl fun x _ => ?_
  dsimp only
  rw [Finset.sum_const, Int.card_Ico, nsmul_eq_mul]
  rfl

/-- Its centroid is column 319, and `small_blob_a` should be 10485811200. -/
theorem small_blob_dark_overflows :
    ∃ m, imlibGetRegression ⟨0, 0, 640, 480⟩ 1 1 (fun _ => (0, 0, 0)) darkImage [darkThreshold] false
        0 0 = some m ∧
      m.a ≠ momentA (selected ⟨0, 0, 640, 480⟩ 1 1
        (pixelPasses (fun _ => (0, 0, 0)) darkImage false darkThreshold)) m.mx := by
  have hroi : Rectangle.Within ⟨0, 0, 640, 480⟩ 640 480 := ⟨by decide, by decide, by decide, by decide⟩
  obtain ⟨t, ht⟩ : ∃ t, t = (LineAcc.init ⟨0, 0, 640, 480⟩).collect ⟨0, 0, 640, 480⟩ 1 1
    (pixelPasses (fun _ => (0, 0, 0)) darkImage false darkThreshold) := ⟨_, rfl⟩
  have htot := collect_totals hroi one_pos one_pos _ ht
  rw [selected_darkImage] at htot ⊢
  have hpix : t.pixels = 307200 := by
    rw [htot.pixels, Finset.card_product, Int.card_Ico, Int.card_Ico]
    rfl
  have hcols : ∑ x ∈ Finset.Ico (0 : ℤ) 640, x = 204480 := by decide +kernel
  have hcx : t.cx = 98150400 := by
    rw [htot.cx, sum_darkImage fun x => x, hcols]
    rfl
  have hrun : regressionSums ⟨0, 0, 640, 480⟩ 1 1 (fun _ => (0, 0, 0)) darkImage [darkThreshold] false =
      t := (regressionSums_one _ _ _ _ _ _ _ (.inr (.inl rfl))).trans ht.symm
  have hguard : t.pixels ≠ 0 ∧ ((0 : ℕ) : ℤ) ≤ ((t.x2 - t.x1) * (t.y2 - t.y1)) % 2 ^ 32 ∧
      ((0 : ℕ) : ℤ) ≤ t.pixels % 2 ^ 32 :=
    ⟨by omega, Int.emod_nonneg _ (by decide), Int.emod_nonneg _ (by decide)⟩
  refine ⟨smallBlob (t.cx.tdiv t.pixels) (t.cy.tdiv t.pixels) t.pixels t.cx t.cy t.a t.b t.c, ?_, ?_⟩
  · simp only [imlibGetRegression, hrun]
    exact if_pos hguard
  · have hsq : ∑ x ∈ Finset.Ico (0 : ℤ) 640, (x - 319) ^ 2 = 21845440 := by decide +kernel
    have hmx : t.cx.tdiv t.pixels = 319 := by rw [hcx, hpix]; rfl
    have hA : momentA (Finset.Ico 0 640 ×ˢ Finset.Ico 0 480) 319 = 10485811200 := by
      rw [momentA, sum_darkImage fun x => (x - 319) ^ 2, hsq]
      rfl
    rw [smallBlob_eq htot, hmx, hA]
    exact (by decide : int32 10485811200 ≠ 10485811200)

end OpenMV.Vision
