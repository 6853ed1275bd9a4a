import Mathlib.Algebra.Order.BigOperators.Group.List
import Mathlib.Data.List.Perm.Subperm
import OpenMV.Io.Bmp

/-! Reading BMP files | scheme:codec | source:src/src/openmv/omv/img/bmp.c

    What `bmp_read` takes from a file and where it stores it. The sizes in the header are checked in
    wrapping arithmetic only, so a header can pass that describes an image larger than the lines the
    file has and than the memory allocated; the stores are inside the memory exactly if the products
    involved do not wrap. -/

namespace OpenMV.Io
open Schemes Vision

/-! ### The header -/

theorem four_dvd_rowBytes (w : ℤ) (bpp : ℕ) : 4 ∣ rowBytes w bpp := by
  unfold rowBytes uint32 int32
  omega

/-- What holds of a header that is accepted: the fields at their places in the file, and the checks. -/
structure BmpHeader (s : List UInt8) (img : Shape) (rs : BmpReadSettings) : Prop where
  w : rs.bmpW = int32 (rd32 (s.drop 18))
  h : rs.bmpH = int32 (rd32 (s.drop 22))
  bpp : rs.bmpBpp = rd16 (s.drop 28)
  shape : img = ⟨intAbs rs.bmpW, intAbs rs.bmpH, if rs.bmpBpp = 8 then .grayscale else .rgb565⟩
  row : rs.bmpRowBytes = rowBytes img.w rs.bmpBpp
  w_ne : rs.bmpW ≠ 0
  h_ne : rs.bmpH ≠ 0
  depth : rs.bmpBpp = 8 ∨ rs.bmpBpp = 16 ∨ rs.bmpBpp = 24
  room : rd32 (s.drop 10) < rd32 (s.drop 2)
  size : rd32 (s.drop 2) - rd32 (s.drop 10) = uint32 (rs.bmpRowBytes * img.h)

theorem bmpReadGeometry_inv {s t : List UInt8} {img : Shape} {rs : BmpReadSettings}
    (h : bmpReadGeometry s = .ok ((img, rs), t)) : BmpHeader s img rs := by
  simp only [bmpReadGeometry, Reader.bind_eq_ok, Reader.raiseIf_eq_ok, takes_readLong.eq_ok_iff,
    takes_readWord.eq_ok_iff, takes_readWordIgnore.eq_ok_iff, readByteExpect_eq_ok,
    readWordExpect_eq_ok, Reader.pure_run, Except.ok.injEq, Prod.mk.injEq] at h
  obtain ⟨-, s1, ⟨-, -, -, hs1⟩, -, s2, ⟨-, -, -, hs2⟩, fileSize, s3, ⟨-, hfile, hs3⟩, h⟩ := h
  obtain ⟨-, s4, ⟨-, -, hs4⟩, -, s5, ⟨-, -, hs5⟩, headerSize, s6, ⟨-, hheader, hs6⟩, h⟩ := h
  obtain ⟨-, s7, ⟨hsize, -, hs7⟩, -, s8, ⟨-, -, hs8⟩, h⟩ := h
  obtain ⟨headerType, s9, ⟨-, -, hs9⟩, -, s10, ⟨-, -, hs10⟩, h⟩ := h
  obtain ⟨w, s11, ⟨-, hw, hs11⟩, h', s12, ⟨-, hh, hs12⟩, h⟩ := h
  obtain ⟨-, s13, ⟨hne, -, hs13⟩, -, s14, ⟨-, -, -, hs14⟩, h⟩ := h
  obtain ⟨bpp, s15, ⟨-, hbpp, -⟩, -, s16, ⟨hdepth, -, -⟩, h⟩ := h
  obtain ⟨fmt, s17, -, -, s18, -, h⟩ := h
  obtain ⟨-, s19, -, -, s20, -, -, s21, -, h⟩ := h
  obtain ⟨-, s22, ⟨hdata, -, -⟩, ⟨himg, hrs⟩, -⟩ := h
  -- the fields stand at 2, 10, 18, 22 and 28
  have e2 : s2 = s.drop 2 := by
    rw [hs2, hs1]
    simp only [List.drop_drop]
  have e5 : s5 = s.drop 10 := by
    rw [hs5, hs4, hs3, e2]
    simp only [List.drop_drop]
  have e10 : s10 = s.drop 18 := by
    rw [hs10, hs9, hs8, hs7, hs6, e5]
    simp only [List.drop_drop]
  have e14 : s14 = s.drop 28 := by
    rw [hs14, hs13, hs12, hs11, e10]
    simp only [List.drop_drop]
  rw [e2, rd32_take] at hfile
  rw [e5, rd32_take] at hheader
  rw [e10, rd32_take] at hw
  rw [hs11, e10, rd32_take, List.drop_drop] at hh
  rw [e14, rd16_take] at hbpp
  rw [not_or] at hne
  subst himg hrs
  exact
    { w := by rw [hw]
      h := by rw [hh]
      bpp := hbpp
      shape := by simp only
      row := by simp only
      w_ne := hne.1
      h_ne := hne.2
      depth := by
        dsimp only
        omega
      room := by
        rw [← hfile, ← hheader]
        exact not_le.1 hsize
      size := by
        rw [← hfile, ← hheader]
        simpa only [ne_eq, not_not] using hdata }

/-! ### The pixels -/

/-- The bytes of a pixel in the file. -/
def bmpPixel (bmpBpp : ℕ) (s : List UInt8) : ℕ :=
  if bmpBpp = 8 then (s.getD 0 0).toNat
  else if bmpBpp = 16 then rd16 s
  else colorR8G8B8ToRgb565 (s.getD 2 0).toNat (s.getD 1 0).toNat (s.getD 0 0).toNat

/-- The columns of a line of the file. -/
def bmpCols (rs : BmpReadSettings) : ℕ := rs.bmpRowBytes / (rs.bmpBpp / 8)

/-- The value at column `j` of a line of the file. -/
def bmpValue (rs : BmpReadSettings) (s : List UInt8) (j : ℕ) : ℕ :=
  bmpPixel rs.bmpBpp ((s.drop (j * (rs.bmpBpp / 8))).take (rs.bmpBpp / 8))

/-- The stores for a line of the file. -/
def bmpLine (img : Shape) (rs : BmpReadSettings) (i : ℕ) (s : List UInt8) : Stores :=
  (List.range (bmpCols rs)).flatMap fun j => bmpPut img rs i (int32 (j : ℕ)) (bmpValue rs s j)

/-- Line `i` of the lines in the file. -/
def bmpLineBytes (rs : BmpReadSettings) (s : List UInt8) (i : ℕ) : List UInt8 :=
  (s.drop (i * rs.bmpRowBytes)).take rs.bmpRowBytes

theorem takes_readBgr : Takes readBgr 3 (bmpPixel 24) := by
  have h := takes_readByte.bind fun b => takes_readByte.bind fun g =>
    takes_readByte.map fun r => colorR8G8B8ToRgb565 r.toNat g.toNat b.toNat
  refine ⟨fun s t hs => (h.ok s t hs).trans ?_, h.short⟩
  match s, hs with
  | [_, _, _], _ => rfl

theorem takes_readBytesIgnore : ∀ n, Takes (readBytesIgnore n) n fun _ => ()
  | 0 => Takes.pure ()
  | n + 1 => by
    have h := takes_readByteIgnore.bind fun _ => takes_readBytesIgnore n
    rw [Nat.add_comm] at h
    exact h

theorem takes_bmpReadLine {pixel : Fil ℕ} {c : ℕ} {dec : List UInt8 → ℕ} (h : Takes pixel c dec)
    (img : Shape) (rs : BmpReadSettings) (cols i : ℕ) :
    Takes (bmpReadLine img rs pixel cols i) (cols * c) fun s =>
      (List.range cols).flatMap fun j =>
        bmpPut img rs i (int32 (j : ℕ)) (dec ((s.drop (j * c)).take c)) := by
  have h1 := (Takes.mapM_range (fun j : ℕ => h.map fun p => bmpPut img rs i (int32 j) p) cols).map
    List.flatten
  refine h1.congr fun s _ => ?_
  rw [List.flatMap_def]

theorem takes_bmpReadLines {line : ℕ → Fil Stores} {n : ℕ} {g : ℕ → List UInt8 → Stores}
    (h : ∀ i, Takes (line i) n (g i)) (nLines : ℤ) :
    Takes (bmpReadLines nLines line) (nLines.toNat * n) fun s =>
      (List.range nLines.toNat).flatMap fun i => g i ((s.drop (i * n)).take n) := by
  refine ((Takes.mapM_range h nLines.toNat).map List.flatten).congr fun s _ => ?_
  rw [List.flatMap_def]

/-- Every depth takes whole lines from the file. -/
theorem takes_bmpReadPixels {img : Shape} {rs : BmpReadSettings} (nLines : ℤ)
    (hdepth : rs.bmpBpp = 8 ∨ rs.bmpBpp = 16 ∨ rs.bmpBpp = 24) (hrow : 4 ∣ rs.bmpRowBytes)
    (hfast : ¬ bmpFast img rs) :
    Takes (bmpReadPixels img nLines rs) (nLines.toNat * rs.bmpRowBytes) fun s =>
      (List.range nLines.toNat).flatMap fun i => bmpLine img rs i (bmpLineBytes rs s i) := by
  unfold bmpReadPixels
  rw [if_neg hfast]
  rcases hdepth with h | h | h
  · rw [if_pos h]
    refine takes_bmpReadLines (fun i => ?_) nLines
    have hl := takes_bmpReadLine (takes_readByte.map UInt8.toNat) img rs rs.bmpRowBytes i
    rw [Nat.mul_one] at hl
    unfold bmpLine bmpCols bmpValue
    rw [h, Nat.div_one]
    exact hl
  · rw [if_neg (by omega), if_pos h]
    refine takes_bmpReadLines (fun i => ?_) nLines
    have hl := takes_bmpReadLine takes_readWord img rs (rs.bmpRowBytes / 2) i
    rw [Nat.div_mul_cancel (by omega)] at hl
    unfold bmpLine bmpCols bmpValue
    rw [h]
    exact hl
  · rw [if_neg (by omega), if_neg (by omega), if_pos h]
    refine takes_bmpReadLines (fun i => ?_) nLines
    have hl := (takes_bmpReadLine takes_readBgr img rs (rs.bmpRowBytes / 3) i).bind fun line =>
      (takes_readBytesIgnore (rs.bmpRowBytes % 3)).map fun _ => line
    rw [Nat.div_add_mod'] at hl
    refine hl.congr fun s _ => ?_
    unfold bmpLine bmpCols bmpValue
    rw [h]
    refine List.flatMap_congr fun j hj => ?_
    have hj := List.mem_range.1 hj
    -- the bytes of a pixel are not among those that are skipped
    rw [List.drop_take, List.take_take, Nat.min_eq_left (by omega)]

theorem takes_bmpReadPixels_fast {img : Shape} {rs : BmpReadSettings} (nLines : ℤ)
    (hfast : bmpFast img rs) :
    Takes (bmpReadPixels img nLines rs) (uint32 (nLines * img.w)) fun s =>
      s.mapIdx fun k b => ((k : ℤ), b.toNat) := by
  unfold bmpReadPixels
  rw [if_pos hfast]
  exact (takes_readData _).map fun data => data.mapIdx fun k b => ((k : ℤ), b.toNat)

/-! ### Where the pixels go -/

/-- The indices stored to for line `i` of the file. -/
def bmpLineIndices (img : Shape) (rs : BmpReadSettings) (i : ℕ) : List ℤ :=
  (List.range (bmpCols rs)).flatMap fun j =>
    if int32 (j : ℕ) < img.w then [bmpTarget img rs i (int32 (j : ℕ))] else []

def bmpIndices (img : Shape) (nLines : ℤ) (rs : BmpReadSettings) : List ℤ :=
  if bmpFast img rs then (List.range (uint32 (nLines * img.w))).map Nat.cast
  else (List.range nLines.toNat).flatMap (bmpLineIndices img rs)

/-- The bytes of the file that hold the lines. -/
def bmpDataBytes (img : Shape) (nLines : ℤ) (rs : BmpReadSettings) : ℕ :=
  if bmpFast img rs then uint32 (nLines * img.w) else nLines.toNat * rs.bmpRowBytes

theorem map_fst_bmpLine (img : Shape) (rs : BmpReadSettings) (i : ℕ) (s : List UInt8) :
    (bmpLine img rs i s).map Prod.fst = bmpLineIndices img rs i := by
  unfold bmpLine bmpLineIndices
  rw [List.map_flatMap]
  refine List.flatMap_congr fun j _ => ?_
  unfold bmpPut
  split <;> rfl

/-- Whether the pixels can be read is a question of the length of the file, and where they go does not
    depend on what is in it. -/
theorem bmpReadPixels_eq_ok (img : Shape) (nLines : ℤ) {rs : BmpReadSettings}
    (hdepth : rs.bmpBpp = 8 ∨ rs.bmpBpp = 16 ∨ rs.bmpBpp = 24) (hrow : 4 ∣ rs.bmpRowBytes)
    (s : List UInt8) :
    (bmpDataBytes img nLines rs ≤ s.length → ∃ stores t,
      bmpReadPixels img nLines rs s = .ok (stores, t) ∧
        stores.map Prod.fst = bmpIndices img nLines rs) ∧
    (s.length < bmpDataBytes img nLines rs → ∃ e, bmpReadPixels img nLines rs s = .error e) := by
  unfold bmpDataBytes bmpIndices
  by_cases hfast : bmpFast img rs
  · have h := takes_bmpReadPixels_fast nLines hfast
    rw [if_pos hfast, if_pos hfast]
    refine ⟨fun hlen => ⟨_, _, h.eq_ok_iff.2 ⟨hlen, rfl⟩, ?_⟩, h.short s⟩
    exact map_fst_mapIdx (by rw [List.length_take, Nat.min_eq_left hlen])
  · have h := takes_bmpReadPixels nLines hdepth hrow hfast
    rw [if_neg hfast, if_neg hfast]
    refine ⟨fun hlen => ⟨_, _, h.eq_ok_iff.2 ⟨hlen, rfl⟩, ?_⟩, h.short s⟩
    rw [List.map_flatMap]
    exact List.flatMap_congr fun i _ => map_fst_bmpLine img rs i _

/-! ### Stores inside the image -/

/-- The stores are inside the memory, and none of the pixels is left out or stored twice. -/
def StoresSafe (img : Shape) (alloc : ℕ) (indices : List ℤ) : Prop :=
  (∀ k ∈ indices, 0 ≤ k * bppNum img.bpp ∧ k * bppNum img.bpp + bppNum img.bpp ≤ alloc) ∧
    ∀ k, 0 ≤ k → k < img.w * img.h → indices.count k = 1

/-- The products of the sizes do not wrap around: a line of the file holds a line of the image, and the
    image has as many bytes as are allocated for it. -/
def BmpFits (img : Shape) (rs : BmpReadSettings) : Prop :=
  img.w ≤ bmpCols rs ∧ bmpCols rs ≤ 2147483648 ∧
    img.w * img.h * bppNum img.bpp < 4294967296 ∧ (img.w * img.h ≤ 2147483648 ∨ bmpFast img rs)

/-- The least `int` is no size that gets through. -/
theorem BmpHeader.pos {s : List UInt8} {img : Shape} {rs : BmpReadSettings} (hh : BmpHeader s img rs) :
    (0 < img.w ∧ img.w < 2147483648) ∧ (0 < img.h ∧ img.h < 2147483648) := by
  have hn := hh.size
  have hn0 := Nat.sub_pos_of_lt hh.room
  have hr := four_dvd_rowBytes img.w rs.bmpBpp
  have hw := hh.w
  have hh' := hh.h
  have hw0 := hh.w_ne
  have hh0 := hh.h_ne
  have hiw : img.w = intAbs rs.bmpW := by rw [hh.shape]
  have hih : img.h = intAbs rs.bmpH := by rw [hh.shape]
  rw [hh.row] at hn
  unfold int32 at hw hh'
  constructor
  · by_contra hneg
    have hmin : img.w = -2147483648 := by
      rw [hiw] at hneg ⊢
      unfold intAbs int32 at *
      omega
    have hrow : rowBytes img.w rs.bmpBpp = 0 := by
      rw [hmin]
      rcases hh.depth with h | h | h <;> rw [h] <;> decide
    rw [hrow] at hn
    simp [uint32] at hn
    omega
  · by_contra hneg
    have hmin : img.h = -2147483648 := by
      rw [hih] at hneg ⊢
      unfold intAbs int32 at *
      omega
    obtain ⟨q, hq⟩ := hr
    have hdvd : (4294967296 : ℤ) ∣ (rowBytes img.w rs.bmpBpp : ℤ) * -2147483648 :=
      ⟨-(2 * q), by rw [hq]; push_cast; ring⟩
    rw [hmin, uint32, Int.emod_eq_zero_of_dvd hdvd] at hn
    exact absurd hn hn0.ne'

/-- The column of the image for column `j` of the file. -/
def bmpX (img : Shape) (rs : BmpReadSettings) (j : ℕ) : ℤ := if rs.bmpW < 0 then img.w - j - 1 else j

/-- The line of the image for line `i` of the file. -/
def bmpY (img : Shape) (rs : BmpReadSettings) (i : ℕ) : ℤ := if rs.bmpH < 0 then i else img.h - i - 1

section
variable {img : Shape} {rs : BmpReadSettings}

theorem bmpX_mem {j : ℕ} (hj : (j : ℤ) < img.w) : 0 ≤ bmpX img rs j ∧ bmpX img rs j < img.w := by
  unfold bmpX
  split <;> omega

theorem bmpY_mem {i : ℕ} (hi : (i : ℤ) < img.h) : 0 ≤ bmpY img rs i ∧ bmpY img rs i < img.h := by
  unfold bmpY
  split <;> omega

theorem exists_bmpX (rs : BmpReadSettings) {x : ℤ} (hx : 0 ≤ x ∧ x < img.w) :
    ∃ j : ℕ, (j : ℤ) < img.w ∧ bmpX img rs j = x := by
  by_cases hw : rs.bmpW < 0
  · refine ⟨(img.w - x - 1).toNat, by omega, ?_⟩
    rw [bmpX, if_pos hw]
    omega
  · refine ⟨x.toNat, by omega, ?_⟩
    rw [bmpX, if_neg hw]
    omega

theorem exists_bmpY (rs : BmpReadSettings) {y : ℤ} (hy : 0 ≤ y ∧ y < img.h) :
    ∃ i : ℕ, (i : ℤ) < img.h ∧ bmpY img rs i = y := by
  by_cases hh : rs.bmpH < 0
  · refine ⟨y.toNat, by omega, ?_⟩
    rw [bmpY, if_pos hh]
    omega
  · refine ⟨(img.h - y - 1).toNat, by omega, ?_⟩
    rw [bmpY, if_neg hh]
    omega

theorem nodup_map_bmpX (n : ℕ) : ((List.range n).map (bmpX img rs)).Nodup := by
  refine List.nodup_range.map fun a b h => ?_
  unfold bmpX at h
  split at h <;> omega

theorem nodup_map_bmpY (n : ℕ) : ((List.range n).map (bmpY img rs)).Nodup := by
  refine List.nodup_range.map fun a b h => ?_
  unfold bmpY at h
  split at h <;> omega

theorem bmpTarget_eq (hw : img.w < 2147483648) {j : ℕ} (hj : (j : ℤ) < img.w) (i : ℕ) :
    bmpTarget img rs i j = pixelIndex img (bmpX img rs j) (bmpY img rs i) := by
  unfold bmpTarget bmpX bmpY
  rw [int32_of_mem (by omega) (by omega)]

theorem pixelIndex_eq (hT : img.w * img.h ≤ 2147483648) {x y : ℤ} (hx : 0 ≤ x ∧ x < img.w)
    (hy : 0 ≤ y ∧ y < img.h) : pixelIndex img x y = y * img.w + x := by
  have hk := rowMajor_mem hx hy
  have h0 : 0 ≤ y * img.w := mul_nonneg hy.1 (hx.1.trans hx.2.le)
  have hy' : int32 (y * img.w) = y * img.w := int32_of_mem (by omega) (by omega)
  unfold pixelIndex
  rw [hy', int32_of_mem (by omega) (by omega)]

/-- A line that is wide enough goes to a whole line of the image. -/
theorem bmpLineIndices_eq (hw : 0 < img.w ∧ img.w < 2147483648) (hcols : img.w ≤ bmpCols rs)
    (hmax : bmpCols rs ≤ 2147483648) (i : ℕ) :
    bmpLineIndices img rs i =
      (List.range img.w.toNat).map fun j => pixelIndex img (bmpX img rs j) (bmpY img rs i) := by
  have hpad := flatMap_range_pad (f := fun j => [pixelIndex img (bmpX img rs j) (bmpY img rs i)])
    (g := []) (show img.w.toNat ≤ bmpCols rs by omega)
  rw [List.flatMap_eq_nil_iff.2 fun _ _ => rfl, List.append_nil] at hpad
  rw [List.map_eq_flatMap, ← hpad]
  refine List.flatMap_congr fun j hj => ?_
  have hj := List.mem_range.1 hj
  rw [int32_of_mem (by omega) (by omega)]
  by_cases hjw : (j : ℤ) < img.w
  · rw [if_pos hjw, if_pos (by omega), bmpTarget_eq hw.2 hjw]
  · rw [if_neg hjw, if_neg (by omega)]

/-- The lines go to lines of the image, in row-major order. -/
theorem bmpLines_eq (hw : 0 < img.w ∧ img.w < 2147483648) (hcols : img.w ≤ bmpCols rs)
    (hmax : bmpCols rs ≤ 2147483648) (hT : img.w * img.h ≤ 2147483648) {n : ℕ} (hn : n ≤ img.h.toNat) :
    (List.range n).flatMap (bmpLineIndices img rs) =
      (List.range n).flatMap fun i =>
        (List.range img.w.toNat).map fun j => bmpY img rs i * img.w + bmpX img rs j := by
  refine List.flatMap_congr fun i hi => ?_
  rw [bmpLineIndices_eq hw hcols hmax]
  refine List.map_congr_left fun j hj => ?_
  have hi := List.mem_range.1 hi
  have hj := List.mem_range.1 hj
  exact pixelIndex_eq hT (bmpX_mem (by omega)) (bmpY_mem (by omega))

/-- If nothing wraps around then each pixel is stored exactly once. -/
theorem BmpFits.indices {s : List UInt8} (hh : BmpHeader s img rs) (hfit : BmpFits img rs) :
    (bmpIndices img img.h rs).Nodup ∧
      ∀ k, k ∈ bmpIndices img img.h rs ↔ 0 ≤ k ∧ k < img.w * img.h := by
  obtain ⟨hcols, hmax, hsize, hT⟩ := hfit
  obtain ⟨hw, hh'⟩ := hh.pos
  unfold bmpIndices
  by_cases hfast : bmpFast img rs
  · have hb : img.bpp = .grayscale := by rw [hh.shape, hfast.1]; rfl
    rw [hb, bppNum, mul_one] at hsize
    have hpos : 0 < img.w * img.h := mul_pos hw.1 hh'.1
    have hu : (uint32 (img.h * img.w) : ℤ) = img.w * img.h := by
      rw [mul_comm img.h]
      exact uint32_of_mem hpos.le hsize
    rw [if_pos hfast]
    refine ⟨List.nodup_range.map fun a b h => Int.ofNat.inj h, fun k => ?_⟩
    simp only [List.mem_map, List.mem_range]
    constructor
    · rintro ⟨a, ha, rfl⟩
      omega
    · rintro ⟨h0, hk⟩
      exact ⟨k.toNat, by omega, by omega⟩
  · have hT := hT.resolve_right hfast
    rw [if_neg hfast]
    rw [bmpLines_eq hw hcols hmax hT (le_refl _)]
    refine ⟨nodup_rowMajor (nodup_map_bmpY _) (nodup_map_bmpX _) fun j hj => ?_, fun k => ?_⟩
    · have hj := List.mem_range.1 hj
      exact bmpX_mem (by omega)
    · simp only [List.mem_flatMap, List.mem_map, List.mem_range]
      constructor
      · rintro ⟨i, hi, j, hj, rfl⟩
        exact rowMajor_mem (bmpX_mem (by omega)) (bmpY_mem (by omega))
      · intro hk
        obtain ⟨hx, hy, he⟩ := rowMajor_split hw.1 hk
        obtain ⟨i, hi, hiy⟩ := exists_bmpY rs hy
        obtain ⟨j, hj, hjx⟩ := exists_bmpX rs hx
        exact ⟨i, by omega, j, by omega, by rw [hiy, hjx, ← he]⟩

/-- The memory after the first `n` lines of the file were read into it: their pixels are at their
    places, and the rest is as before. -/
structure HoldsLines (img : Shape) (rs : BmpReadSettings) (n : ℕ) (s : List UInt8)
    (mem mem' : ℤ → ℕ) : Prop where
  line : ∀ i j : ℕ, i < n → (j : ℤ) < img.w →
    mem' (bmpY img rs i * img.w + bmpX img rs j) = bmpValue rs (bmpLineBytes rs s i) j
  rest : ∀ k, (∀ i j : ℕ, i < n → (j : ℤ) < img.w → k ≠ bmpY img rs i * img.w + bmpX img rs j) →
    mem' k = mem k

/-- The lines of a file that are laid out as in memory are read in one go. -/
theorem holdsLines_fast {s : List UInt8} {n : ℕ} (hfast : bmpFast img rs)
    (hw : 0 < img.w ∧ img.w < 2147483648) (hlen : n * rs.bmpRowBytes ≤ s.length) (mem : ℤ → ℕ) :
    HoldsLines img rs n s mem (storeAll mem
      ((s.take (n * rs.bmpRowBytes)).mapIdx fun k b => ((k : ℤ), b.toNat))) := by
  obtain ⟨h8, hneg, hpos, hR⟩ := hfast
  have hwR : (rs.bmpRowBytes : ℤ) = img.w := by
    rw [← hR]
    exact uint32_of_mem hw.1.le (by omega)
  have hidx : ∀ i j : ℕ, bmpY img rs i * img.w + bmpX img rs j =
      ((i * rs.bmpRowBytes + j : ℕ) : ℤ) := by
    intro i j
    rw [bmpX, bmpY, if_pos hneg, if_neg (not_lt.2 hpos), ← hwR]
    push_cast
    rfl
  have htake : (s.take (n * rs.bmpRowBytes)).length = n * rs.bmpRowBytes := by
    rw [List.length_take, Nat.min_eq_left hlen]
  refine ⟨fun i j hi hj => ?_, fun k hk => ?_⟩
  · have hrow : (i + 1) * rs.bmpRowBytes ≤ n * rs.bmpRowBytes := Nat.mul_le_mul_right _ hi
    rw [Nat.add_mul, Nat.one_mul] at hrow
    have hjR : j < rs.bmpRowBytes := by omega
    have hks : i * rs.bmpRowBytes + j < n * rs.bmpRowBytes := by omega
    rw [hidx, storeAll_bytes_of_lt _ _ (by omega)]
    simp [bmpValue, bmpPixel, bmpLineBytes, h8, hjR, hks]
  · refine storeAll_bytes_of_not _ _ fun hk' => ?_
    rw [htake] at hk'
    have hR0 : 0 < rs.bmpRowBytes := by omega
    have hmod := Nat.mod_lt k.toNat hR0
    refine hk (k.toNat / rs.bmpRowBytes) (k.toNat % rs.bmpRowBytes)
      ((Nat.div_lt_iff_lt_mul hR0).2 (by omega)) (by omega) ?_
    rw [hidx, Nat.div_add_mod', Int.toNat_of_nonneg hk'.1]

theorem holdsLines_lines {s : List UInt8} {n : ℕ} (hw : 0 < img.w ∧ img.w < 2147483648)
    (hcols : img.w ≤ bmpCols rs) (hmax : bmpCols rs ≤ 2147483648)
    (hT : img.w * img.h ≤ 2147483648) (hn : (n : ℤ) ≤ img.h) (mem : ℤ → ℕ) :
    HoldsLines img rs n s mem (storeAll mem
      ((List.range n).flatMap fun i => bmpLine img rs i (bmpLineBytes rs s i))) := by
  have hfst : ((List.range n).flatMap fun i => bmpLine img rs i (bmpLineBytes rs s i)).map Prod.fst =
      (List.range n).flatMap fun i =>
        (List.range img.w.toNat).map fun j => bmpY img rs i * img.w + bmpX img rs j := by
    rw [List.map_flatMap, ← bmpLines_eq hw hcols hmax hT (by omega)]
    exact List.flatMap_congr fun i _ => map_fst_bmpLine img rs i _
  refine ⟨fun i j hi hj => ?_, fun k hk => ?_⟩
  · refine storeAll_of_mem ?_ ?_
    · rw [hfst]
      refine nodup_rowMajor (nodup_map_bmpY _) (nodup_map_bmpX _) fun j hj => ?_
      have hj := List.mem_range.1 hj
      exact bmpX_mem (by omega)
    · refine List.mem_flatMap.2 ⟨i, List.mem_range.2 hi, ?_⟩
      refine List.mem_flatMap.2 ⟨j, List.mem_range.2 (by omega), ?_⟩
      rw [int32_of_mem (by omega) (by omega), bmpPut, if_pos hj, bmpTarget_eq hw.2 hj,
        pixelIndex_eq hT (bmpX_mem hj) (bmpY_mem (by omega))]
      exact List.mem_singleton.2 rfl
  · refine storeAll_of_notMem fun hmem => ?_
    rw [hfst] at hmem
    obtain ⟨i, hi, hmem⟩ := List.mem_flatMap.1 hmem
    obtain ⟨j, hj, rfl⟩ := List.mem_map.1 hmem
    have hj := List.mem_range.1 hj
    exact hk i j (List.mem_range.1 hi) (by omega) rfl

/-- The sizes for which reading lines is free of surprises. -/
structure BmpSized (img : Shape) (rs : BmpReadSettings) : Prop where
  depth : rs.bmpBpp = 8 ∨ rs.bmpBpp = 16 ∨ rs.bmpBpp = 24
  row : 4 ∣ rs.bmpRowBytes
  w : 0 < img.w ∧ img.w < 2147483648
  cols : img.w ≤ bmpCols rs
  max : bmpCols rs ≤ 2147483648
  area : img.w * img.h ≤ 2147483648

/-- Lines that are read in one go are as many bytes as lines that are read one by one. -/
theorem bmpDataBytes_eq (hsz : BmpSized img rs) {n : ℕ} (hn : (n : ℤ) ≤ img.h) :
    bmpDataBytes img n rs = n * rs.bmpRowBytes := by
  have hw := hsz.w
  unfold bmpDataBytes
  split_ifs with hfast
  · have hwR : (rs.bmpRowBytes : ℤ) = img.w := by
      rw [← hfast.2.2.2]
      exact uint32_of_mem hw.1.le (by omega)
    have h1 : (n : ℤ) * img.w ≤ img.h * img.w := mul_le_mul_of_nonneg_right hn hw.1.le
    have h2 := uint32_of_mem (x := n * img.w) (by have := hw.1; positivity) (by linarith [hsz.area])
    rw [← hwR] at h2
    rw [← hwR]
    exact_mod_cast h2
  · rw [Int.toNat_natCast]

/-- Reading lines takes their bytes, whether in one go or one by one, and puts them in place. -/
theorem bmpReadPixels_holds (hsz : BmpSized img rs) {n : ℕ} (hn : (n : ℤ) ≤ img.h) {s : List UInt8}
    (hlen : n * rs.bmpRowBytes ≤ s.length) : ∃ stores,
    bmpReadPixels img n rs s = .ok (stores, s.drop (n * rs.bmpRowBytes)) ∧
      ∀ mem, HoldsLines img rs n s mem (storeAll mem stores) := by
  have hw := hsz.w
  by_cases hfast : bmpFast img rs
  · have hsize := bmpDataBytes_eq hsz hn
    rw [bmpDataBytes, if_pos hfast] at hsize
    have h := takes_bmpReadPixels_fast n hfast
    rw [hsize] at h
    exact ⟨_, h.eq_ok_iff.2 ⟨hlen, rfl⟩, holdsLines_fast hfast hw hlen⟩
  · have h := takes_bmpReadPixels n hsz.depth hsz.row hfast
    rw [Int.toNat_natCast] at h
    refine ⟨_, h.eq_ok_iff.2 ⟨hlen, rfl⟩, fun mem => ?_⟩
    have hlines : ∀ i, i < n →
        bmpLineBytes rs (s.take (n * rs.bmpRowBytes)) i = bmpLineBytes rs s i := by
      intro i hi
      have : (i + 1) * rs.bmpRowBytes ≤ n * rs.bmpRowBytes := Nat.mul_le_mul_right _ hi
      rw [Nat.add_mul, Nat.one_mul] at this
      unfold bmpLineBytes
      rw [List.drop_take, List.take_take, Nat.min_eq_left (by omega)]
    rw [List.flatMap_congr fun i hi => by rw [hlines i (List.mem_range.1 hi)]]
    exact holdsLines_lines hw hsz.cols hsz.max hsz.area hn mem

theorem allocSize_eq (hb : img.bpp = .grayscale ∨ img.bpp = .rgb565) :
    (allocSize img : ℤ) = img.w * img.h * bppNum img.bpp % 4294967296 := by
  unfold allocSize uint32 int32
  generalize img.w * img.h = T
  rcases hb with hb | hb
  · rw [hb]
    simp only [bppNum]
    omega
  · rw [hb]
    simp only [bppNum]
    omega

theorem BmpHeader.bpp_cases {s : List UInt8} (hh : BmpHeader s img rs) :
    img.bpp = .grayscale ∨ img.bpp = .rgb565 := by
  rw [hh.shape]
  by_cases h : rs.bmpBpp = 8
  · exact .inl (if_pos h)
  · exact .inr (if_neg h)

theorem storesSafe_of_fits {s : List UInt8} (hh : BmpHeader s img rs) (hfit : BmpFits img rs) :
    StoresSafe img (allocSize img) (bmpIndices img img.h rs) := by
  obtain ⟨hnd, hmem⟩ := hfit.indices hh
  obtain ⟨hw, hh'⟩ := hh.pos
  have hpos : 0 < img.w * img.h := mul_pos hw.1 hh'.1
  have halloc := allocSize_eq hh.bpp_cases
  have hsize := hfit.2.2.1
  refine ⟨fun k hk => ?_, fun k h0 hk => List.count_eq_one_of_mem hnd ((hmem k).2 ⟨h0, hk⟩)⟩
  obtain ⟨h0, hk⟩ := (hmem k).1 hk
  rcases hh.bpp_cases with hb | hb
  · simp only [hb, bppNum] at *
    omega
  · simp only [hb, bppNum] at *
    omega

/-- Each pixel is one of the indices stored to. -/
theorem StoresSafe.mem {alloc : ℕ} {indices : List ℤ} (h : StoresSafe img alloc indices) {k : ℤ}
    (h0 : 0 ≤ k) (hk : k < img.w * img.h) : k ∈ indices := by
  refine List.count_pos_iff.1 ?_
  rw [h.2 k h0 hk]
  exact Nat.one_pos

/-- There are at least as many stores as pixels. -/
theorem StoresSafe.le_length {alloc : ℕ} {indices : List ℤ} (h : StoresSafe img alloc indices) :
    img.w * img.h ≤ indices.length := by
  have hnd : ((List.range (img.w * img.h).toNat).map (Nat.cast : ℕ → ℤ)).Nodup :=
    List.nodup_range.map fun a b hab => Int.ofNat.inj hab
  have hsub : (List.range (img.w * img.h).toNat).map (Nat.cast : ℕ → ℤ) ⊆ indices := by
    intro k hk
    obtain ⟨a, ha, rfl⟩ := List.mem_map.1 hk
    have ha := List.mem_range.1 ha
    exact h.mem (by omega) (by omega)
  have hlen := (hnd.subperm hsub).length_le
  rw [List.length_map, List.length_range] at hlen
  omega

theorem StoresSafe.size_lt {indices : List ℤ} (hb : img.bpp = .grayscale ∨ img.bpp = .rgb565)
    (hpos : 0 < img.w * img.h) (h : StoresSafe img (allocSize img) indices) :
    img.w * img.h * bppNum img.bpp < 4294967296 := by
  have hlast := (h.1 _ (h.mem (show 0 ≤ img.w * img.h - 1 by omega) (by omega))).2
  have halloc := allocSize_eq hb
  have hmod := Int.emod_lt_of_pos (img.w * img.h * bppNum img.bpp) (by norm_num : (0 : ℤ) < 4294967296)
  have hexp : (img.w * img.h - 1) * bppNum img.bpp + bppNum img.bpp =
      img.w * img.h * bppNum img.bpp := by ring
  omega

theorem length_flatMap_le {α β : Type} {f : α → List β} {n : ℕ} (h : ∀ a, (f a).length ≤ n)
    (l : List α) : (l.flatMap f).length ≤ l.length * n := by
  rw [List.length_flatMap]
  calc (l.map fun a => (f a).length).sum
      ≤ (l.map fun _ => n).sum := List.sum_le_sum fun a _ => h a
    _ = l.length * n := by simp

theorem length_bmpLineIndices_le (img : Shape) (rs : BmpReadSettings) (i : ℕ) :
    (bmpLineIndices img rs i).length ≤ bmpCols rs := by
  refine (length_flatMap_le (n := 1) (fun j => ?_) _).trans ?_
  · split <;> simp
  · rw [List.length_range, Nat.mul_one]

/-- Only bytes can make up a line of more than `2 ^ 31` pixels, and then the column turns negative. -/
theorem BmpHeader.exists_neg {s : List UInt8} (hh : BmpHeader s img rs)
    (hmax : 2147483648 < bmpCols rs) (hfast : ¬ bmpFast img rs) :
    ∃ k ∈ bmpIndices img img.h rs, k < 0 := by
  obtain ⟨hw, hh'⟩ := hh.pos
  obtain ⟨i, hi, hy⟩ := exists_bmpY rs (show 0 ≤ (0 : ℤ) ∧ 0 < img.h from ⟨le_refl _, hh'.1⟩)
  have hj : int32 (2147483648 : ℕ) = -2147483648 := by decide
  refine ⟨bmpTarget img rs i (-2147483648), ?_, ?_⟩
  · unfold bmpIndices
    rw [if_neg hfast, List.mem_flatMap]
    refine ⟨i, List.mem_range.2 (by omega), ?_⟩
    unfold bmpLineIndices
    rw [List.mem_flatMap]
    refine ⟨2147483648, List.mem_range.2 hmax, ?_⟩
    rw [hj, if_pos (by omega)]
    exact List.mem_singleton.2 rfl
  · unfold bmpY at hy
    unfold bmpTarget pixelIndex
    rw [hy, zero_mul]
    unfold int32
    split <;> omega

/-- If the stores are inside the memory then nothing wraps around. -/
theorem fits_of_storesSafe {s : List UInt8} (hh : BmpHeader s img rs)
    (hsafe : StoresSafe img (allocSize img) (bmpIndices img img.h rs)) : BmpFits img rs := by
  obtain ⟨hw, hh'⟩ := hh.pos
  have hpos : 0 < img.w * img.h := mul_pos hw.1 hh'.1
  have hsize := hsafe.size_lt hh.bpp_cases hpos
  have hneg : ∀ k ∈ bmpIndices img img.h rs, 0 ≤ k := by
    intro k hk
    have h0 := (hsafe.1 k hk).1
    rcases hh.bpp_cases with hb | hb <;> rw [hb, bppNum] at h0 <;> omega
  by_cases hfast : bmpFast img rs
  · have hcols : (bmpCols rs : ℤ) = img.w := by
      rw [bmpCols, hfast.1, ← hfast.2.2.2, Nat.div_one]
      exact uint32_of_mem hw.1.le (by omega)
    exact ⟨by omega, by omega, hsize, .inr hfast⟩
  · have hcols : img.w ≤ bmpCols rs := by
      have hle := hsafe.le_length
      have hlen := length_flatMap_le (length_bmpLineIndices_le img rs) (List.range img.h.toNat)
      rw [List.length_range] at hlen
      unfold bmpIndices at hle
      rw [if_neg hfast] at hle
      by_contra hlt
      have : (img.h.toNat * bmpCols rs : ℤ) < img.w * img.h := by
        rw [Int.toNat_of_nonneg hh'.1.le]
        nlinarith
      have hlen' : (((List.range img.h.toNat).flatMap (bmpLineIndices img rs)).length : ℤ) ≤
          img.h.toNat * bmpCols rs := by exact_mod_cast hlen
      omega
    have hmax : bmpCols rs ≤ 2147483648 := by
      by_contra hlt
      obtain ⟨k, hk, hk0⟩ := hh.exists_neg (not_le.1 hlt) hfast
      exact absurd (hneg k hk) (by omega)
    refine ⟨hcols, hmax, hsize, .inl ?_⟩
    -- the pixel number 2 ^ 31 would be stored to a negative index
    by_contra hT
    obtain ⟨hx, hy, he⟩ := rowMajor_split hw.1
      (show 0 ≤ (2147483648 : ℤ) ∧ 2147483648 < img.w * img.h by omega)
    obtain ⟨i, hi, hiy⟩ := exists_bmpY rs hy
    obtain ⟨j, hj, hjx⟩ := exists_bmpX rs hx
    have hk : pixelIndex img (bmpX img rs j) (bmpY img rs i) ∈ bmpIndices img img.h rs := by
      unfold bmpIndices
      rw [if_neg hfast, List.mem_flatMap]
      refine ⟨i, List.mem_range.2 (by omega), ?_⟩
      rw [bmpLineIndices_eq hw hcols hmax]
      exact List.mem_map.2 ⟨j, List.mem_range.2 (by omega), rfl⟩
    have h0 := hneg _ hk
    rw [hiy, hjx] at h0
    unfold pixelIndex int32 at h0
    omega

end

/-- The result of `bmp_read` is an exception, or a proper image whose pixels were stored, each of them
    once, inside the memory allocated for it. -/
def BmpReadSafe (r : Except FileError (Loaded × List UInt8)) : Prop :=
  ∀ l t, r = .ok (l, t) → l.alloc = allocSize l.shape ∧ 0 < l.shape.w ∧ 0 < l.shape.h ∧
    StoresSafe l.shape l.alloc (l.stores.map Prod.fst)

theorem bmpRead_of_ok {s t u : List UInt8} {img : Shape} {rs : BmpReadSettings} {stores : Stores}
    (hgeo : bmpReadGeometry s = .ok ((img, rs), t))
    (hpix : bmpReadPixels img img.h rs t = .ok (stores, u)) :
    bmpRead s = .ok (⟨img, allocSize img, stores⟩, u) := by
  unfold bmpRead
  rw [Reader.bind_of_ok hgeo]
  exact Reader.bind_of_ok hpix _

/-- Reading is safe for exactly the files whose header is refused, that end before their last line, or
    whose sizes do not wrap around. -/
theorem bmp_read_safe_iff (s : List UInt8) :
    BmpReadSafe (bmpRead s) ↔ ∀ img rs t, bmpReadGeometry s = .ok ((img, rs), t) →
      bmpDataBytes img img.h rs ≤ t.length → BmpFits img rs := by
  constructor
  · intro hsafe img rs t hgeo hlen
    have hh := bmpReadGeometry_inv hgeo
    obtain ⟨stores, t', hpix, hidx⟩ :=
      (bmpReadPixels_eq_ok img img.h hh.depth (hh.row ▸ four_dvd_rowBytes _ _) t).1 hlen
    have h := (hsafe _ _ (bmpRead_of_ok hgeo hpix)).2.2.2
    rw [hidx] at h
    exact fits_of_storesSafe hh h
  · intro hfits l t hread
    obtain ⟨⟨img, rs⟩, u, hgeo, hrest⟩ := Reader.bind_eq_ok.1 hread
    obtain ⟨stores, v, hpix, hl⟩ := Reader.bind_eq_ok.1 hrest
    obtain ⟨rfl, -⟩ := Prod.mk.inj (Except.ok.inj hl)
    have hh := bmpReadGeometry_inv hgeo
    have hspec := bmpReadPixels_eq_ok img img.h hh.depth (hh.row ▸ four_dvd_rowBytes _ _) u
    have hlen : bmpDataBytes img img.h rs ≤ u.length := by
      by_contra hlt
      obtain ⟨e, he⟩ := hspec.2 (not_le.1 hlt)
      exact nomatch hpix.symm.trans he
    obtain ⟨stores', t', hpix', hidx⟩ := hspec.1 hlen
    obtain ⟨rfl, -⟩ := Prod.mk.inj (Except.ok.inj (hpix.symm.trans hpix'))
    refine ⟨rfl, hh.pos.1.1, hh.pos.2.1, ?_⟩
    rw [hidx]
    exact storesSafe_of_fits hh (hfits img rs u hgeo hlen)

/-- A file of 98 bytes: sixteen bits per pixel, `2 ^ 28 + 2` pixels wide and 8 high. The bytes of a
    line wrap around to 4 and those of the image to 32. -/
def wideBmp : List UInt8 :=
  ([0x42, 0x4D] : List UInt8) ++ le32 98 ++ le16 0 ++ le16 0 ++ le32 66 ++ le32 40 ++ le32 268435458 ++
    le32 8 ++ le16 1 ++ le16 16 ++ le32 3 ++ le32 32 ++ le32 0 ++ le32 0 ++ le32 0 ++ le32 0 ++
    le32 (0x1F <<< 11) ++ le32 (0x3F <<< 5) ++ le32 0x1F ++ List.replicate 32 0

/-- The first pixel goes to index 1879048206 of an image of 32 bytes. -/
theorem bmp_read_wide : ¬ BmpReadSafe (bmpRead wideBmp) := by
  intro hsafe
  have h : ∃ r, bmpRead wideBmp = .ok r ∧ r.1.alloc = 32 ∧ r.1.shape.bpp = .rgb565 ∧
      1879048206 ∈ r.1.stores.map Prod.fst := by
    refine ⟨_, rfl, ?_, ?_, ?_⟩
    · decide
    · decide
    · decide
  obtain ⟨⟨l, t⟩, hread, halloc, hbpp, hmem⟩ := h
  have hk := ((hsafe l t hread).2.2.2.1 _ hmem).2
  rw [halloc, hbpp] at hk
  exact absurd hk (by decide)

end OpenMV.Io
