import OpenMV.Io.BmpRead

/-! Writing BMP files | scheme:codec | source:src/src/openmv/omv/img/bmp.c

    What `bmp_write_subimg` writes, `bmp_read` reads back: the same format and the pixels of the part
    that was cut out. This needs an image of a format the writer knows; the check of the file name lets
    binary images through as well, and those come back as something else. -/

namespace OpenMV.Io
open Schemes Vision

/-! ### The header -/

theorem forM_readLongExpect {e : ℕ → ℕ} (he : ∀ i, i < 256 → e i < 4294967296) (t : List UInt8) :
    ∀ xs : List ℕ, (∀ i ∈ xs, i < 256) →
      (xs.forM fun i => readLongExpect (e i)) ((xs.flatMap fun i => le32 (e i)) ++ t) = .ok ((), t)
  | [], _ => rfl
  | x :: xs, h => by
    rw [List.flatMap_cons, List.append_assoc]
    refine (Reader.bind_of_ok (readLongExpect_le32 (he x (h x (.head _))) _) _).trans ?_
    exact forM_readLongExpect he t xs fun i hi => h i (.tail _ hi)

theorem grayEntry_lt {i : ℕ} (hi : i < 256) : grayEntry i < 4294967296 := by
  have h1 : i <<< 16 < 2 ^ 32 := by rw [Nat.shiftLeft_eq]; omega
  have h2 : i <<< 8 < 2 ^ 32 := by rw [Nat.shiftLeft_eq]; omega
  exact Nat.or_lt_two_pow (Nat.or_lt_two_pow h1 h2) (by omega)

theorem bmpReadTables_colorTable (t : List UInt8) :
    bmpReadTables 40 8 0 (colorTable ++ t) = .ok ((), t) := by
  unfold bmpReadTables
  rw [if_pos rfl, Reader.bind_of_ok (Reader.raiseIf_of_not (by decide) _ _)]
  refine (Reader.bind_of_ok (a := ()) (t := colorTable ++ t) rfl _).trans ?_
  refine (Reader.bind_of_ok (a := ()) (t := colorTable ++ t) rfl _).trans ?_
  exact forM_readLongExpect (fun i hi => grayEntry_lt hi) t _ fun i hi => List.mem_range.1 hi

theorem bmpReadTables_bitMasks (t : List UInt8) :
    bmpReadTables 40 16 3 (bitMasks ++ t) = .ok ((), t) := by
  unfold bmpReadTables bitMasks
  rw [if_neg (by decide), if_pos rfl, List.append_assoc, List.append_assoc,
    Reader.bind_of_ok (Reader.raiseIf_of_not (by decide) _ _),
    Reader.bind_of_ok (readLongExpect_le32 (by decide) _),
    Reader.bind_of_ok (readLongExpect_le32 (by decide) _),
    Reader.bind_of_ok (readLongExpect_le32 (by decide) _)]
  rfl

/-- The two formats the writer has. -/
inductive WriterFormat : ℕ → ℕ → List UInt8 → Prop
  | gray : WriterFormat 8 0 colorTable
  | rgb565 : WriterFormat 16 3 bitMasks

theorem length_colorTable : colorTable.length = 1024 :=
  length_flatMap_range (fun _ => length_le32 _) 256

namespace WriterFormat
variable {bits fmt : ℕ} {table : List UInt8}

theorem tables (h : WriterFormat bits fmt table) (t : List UInt8) :
    bmpReadTables 40 bits fmt (table ++ t) = .ok ((), t) := by
  cases h with
  | gray => exact bmpReadTables_colorTable t
  | rgb565 => exact bmpReadTables_bitMasks t

theorem bits_cases (h : WriterFormat bits fmt table) : bits = 8 ∨ bits = 16 := by
  cases h with
  | gray => exact .inl rfl
  | rgb565 => exact .inr rfl

theorem fmt_cases (h : WriterFormat bits fmt table) : fmt = 0 ∨ fmt = 3 := by
  cases h with
  | gray => exact .inl rfl
  | rgb565 => exact .inr rfl

theorem length_le (h : WriterFormat bits fmt table) : table.length ≤ 1024 := by
  cases h with
  | gray => exact length_colorTable.le
  | rgb565 => decide

end WriterFormat

/-- For the sizes a rectangle can have the reader computes the same line length as the writer. -/
theorem rowBytes_eq {w : ℤ} {bits : ℕ} (hw : 0 < w ∧ w ≤ 32767) (hbits : bits = 8 ∨ bits = 16) :
    (rowBytes w bits : ℤ) = writeRowBytes w bits ∧
      0 < writeRowBytes w bits ∧ writeRowBytes w bits ≤ 65536 ∧ w * bits ≤ writeRowBytes w bits * 8 := by
  unfold rowBytes writeRowBytes
  rcases hbits with rfl | rfl
  · rw [int32_of_mem (x := w * (8 : ℕ)) (by omega) (by omega), int32_of_mem (x := _ + 31) (by omega)
      (by omega), Int.tdiv_eq_ediv_of_nonneg (by omega), int32_of_mem (by omega) (by omega),
      uint32_of_mem (by omega) (by omega)]
    omega
  · rw [int32_of_mem (x := w * (16 : ℕ)) (by omega) (by omega), int32_of_mem (x := _ + 31) (by omega)
      (by omega), Int.tdiv_eq_ediv_of_nonneg (by omega), int32_of_mem (by omega) (by omega),
      uint32_of_mem (by omega) (by omega)]
    omega

theorem readLongsIgnore_zeros (t : List UInt8) :
    readLongsIgnore 4 (le32 0 ++ (le32 0 ++ (le32 0 ++ (le32 0 ++ t)))) = .ok ((), t) := by
  simp only [readLongsIgnore, Reader.bind_run, takes_readLongIgnore.ok _ _ (length_le32 0),
    Reader.pure_run]

theorem int32_uint32 {x : ℤ} (h1 : -2147483648 ≤ x) (h2 : x ≤ 2147483647) :
    int32 (uint32 x % 4294967296 : ℕ) = x := by
  unfold int32 uint32
  omega

/-- What the reader makes of a header for this rectangle. -/
def writtenShape (rect : Rectangle) (bits : ℕ) : Shape :=
  ⟨rect.w, rect.h, if bits = 8 then .grayscale else .rgb565⟩

def writtenSettings (rect : Rectangle) (bits fmt : ℕ) : BmpReadSettings :=
  ⟨rect.w, -rect.h, bits, fmt, rowBytes rect.w bits⟩

/-- The reader accepts the header and gets the sizes out of it. -/
theorem bmpReadGeometry_bmpHeader {bits fmt : ℕ} {table : List UInt8} (hf : WriterFormat bits fmt table)
    {rect : Rectangle} (hw : 0 < rect.w ∧ rect.w ≤ 32767) (hh : 0 < rect.h ∧ rect.h ≤ 32767)
    (t : List UInt8) :
    bmpReadGeometry (bmpHeader rect bits fmt (writeRowBytes rect.w bits * rect.h) table ++ t) =
      .ok ((writtenShape rect bits, writtenSettings rect bits fmt), t) := by
  obtain ⟨hrow, hrow0, hrow1, -⟩ := rowBytes_eq hw hf.bits_cases
  have hlen := hf.length_le
  obtain ⟨n, hn⟩ : ∃ n : ℕ, writeRowBytes rect.w bits * rect.h = n :=
    ⟨_, (Int.toNat_of_nonneg (mul_nonneg hrow0.le hh.1.le)).symm⟩
  have hn0 : 0 < n := by
    have := mul_pos hrow0 hh.1
    omega
  have hn1 : n ≤ 65536 * 32767 := by
    have := mul_le_mul hrow1 hh.2 hh.1.le (by norm_num)
    omega
  have hn4 : n % 4 = 0 := by
    have : (n : ℤ) = (rect.w * bits + 31).tdiv 32 * rect.h * 4 := by
      rw [← hn]
      unfold writeRowBytes
      ring
    omega
  have hsum : uint32 (14 + 40 + table.length + n) % 4294967296 = 54 + table.length + n := by
    unfold uint32
    omega
  have hdata : uint32 (n : ℤ) = n := by
    unfold uint32
    omega
  rw [hn]
  unfold bmpReadGeometry bmpHeader
  simp only [List.append_assoc, List.cons_append, List.nil_append]
  rw [Reader.bind_of_ok (readByteExpect_cons _ _), Reader.bind_of_ok (readByteExpect_cons _ _),
    Reader.bind_of_ok (readLong_le32 _ _),
    Reader.bind_of_ok (takes_readWordIgnore.ok _ _ (length_le16 0)),
    Reader.bind_of_ok (takes_readWordIgnore.ok _ _ (length_le16 0)),
    Reader.bind_of_ok (readLong_le32 _ _), hsum, Nat.mod_eq_of_lt (by omega),
    Reader.bind_of_ok (Reader.raiseIf_of_not (by omega) _ _),
    Reader.bind_of_ok (Reader.raiseIf_of_not (by omega) _ _),
    Reader.bind_of_ok (readLong_le32 _ _),
    Reader.bind_of_ok (Reader.raiseIf_of_not (by decide) _ _),
    Reader.bind_of_ok (readLong_le32 _ _), Reader.bind_of_ok (readLong_le32 _ _),
    int32_uint32 (by omega) (by omega), int32_uint32 (by omega) (by omega),
    Reader.bind_of_ok (Reader.raiseIf_of_not (by omega) _ _),
    Reader.bind_of_ok (readWordExpect_le16 (by decide) _),
    Reader.bind_of_ok (readWord_le16 _ _), Nat.mod_eq_of_lt (by have := hf.bits_cases; omega),
    Reader.bind_of_ok (Reader.raiseIf_of_not (by have := hf.bits_cases; omega) _ _),
    Reader.bind_of_ok (readLong_le32 _ _), Nat.mod_eq_of_lt (by have := hf.fmt_cases; omega),
    Reader.bind_of_ok (Reader.raiseIf_of_not (by have := hf.fmt_cases; omega) _ _), hdata,
    show 54 + table.length + n - (14 + 40 + table.length) = n by omega,
    Reader.bind_of_ok (readLongExpect_le32 (by omega) _),
    Reader.bind_of_ok (readLongsIgnore_zeros _), Reader.bind_of_ok (hf.tables t)]
  have hiw : intAbs rect.w = rect.w := by
    unfold intAbs int32
    omega
  have hih : intAbs (-rect.h) = rect.h := by
    unfold intAbs int32
    omega
  rw [hiw, hih]
  exact Reader.bind_of_ok (Reader.raiseIf_of_not (by rw [hrow, hn, hdata]; simp) _ _) _

/-! ### The lines -/

/-- A pixel as it is written. -/
def encPixel (bits v : ℕ) : List UInt8 := if bits = 8 then [.ofNat v] else le16 v

/-- Line `i` with its padding. -/
def writtenLine (bits cols : ℕ) (w : ℤ) (val : ℕ → ℕ) : List UInt8 :=
  (List.range cols).flatMap fun j : ℕ => encPixel bits (if j < w.toNat then val j else 0)

theorem length_encPixel {bits : ℕ} (hbits : bits = 8 ∨ bits = 16) (v : ℕ) :
    (encPixel bits v).length = bits / 8 := by
  rcases hbits with rfl | rfl <;> rfl

theorem bmpPixel_encPixel {bits v : ℕ} (hbits : bits = 8 ∨ bits = 16) (hv : v < 2 ^ bits) :
    bmpPixel bits (encPixel bits v) = v := by
  rcases hbits with rfl | rfl
  · show (UInt8.ofNat v).toNat = v
    rw [UInt8.toNat_ofNat']
    omega
  · show rd16 (le16 v) = v
    rw [rd16_le16]
    omega

theorem length_writtenLine {bits cols : ℕ} (hbits : bits = 8 ∨ bits = 16) (w : ℤ) (val : ℕ → ℕ) :
    (writtenLine bits cols w val).length = cols * (bits / 8) :=
  length_flatMap_range (fun _ => length_encPixel hbits _) cols

section
variable {bits fmt : ℕ} {table : List UInt8} {rect : Rectangle}

/-- The sizes of a written file. -/
theorem bmpSized_written (hf : WriterFormat bits fmt table) (hw : 0 < rect.w ∧ rect.w ≤ 32767)
    (hh : 0 < rect.h ∧ rect.h ≤ 32767) :
    BmpSized (writtenShape rect bits) (writtenSettings rect bits fmt) := by
  obtain ⟨hrow, hrow0, hrow1, hle⟩ := rowBytes_eq hw hf.bits_cases
  have h4 := four_dvd_rowBytes rect.w bits
  have harea := mul_le_mul hw.2 hh.2 hh.1.le (by norm_num)
  unfold writtenShape writtenSettings
  refine ⟨?_, h4, ⟨hw.1, by dsimp only; omega⟩, ?_, ?_, by dsimp only; omega⟩
  · rcases hf.bits_cases with h | h
    · exact .inl h
    · exact .inr (.inl h)
  · unfold bmpCols
    rcases hf.bits_cases with rfl | rfl <;> dsimp only <;> omega
  · unfold bmpCols
    rcases hf.bits_cases with rfl | rfl <;> dsimp only <;> omega

/-- The lines of the file as they come after the header. -/
def writtenLines (rect : Rectangle) (bits cols : ℕ) (val : ℕ → ℕ → ℕ) : List UInt8 :=
  (List.range rect.h.toNat).flatMap fun i => writtenLine bits cols rect.w (val i)

/-- A pixel is found in its line, and the line among the lines. -/
theorem bmpValue_written (hbits : bits = 8 ∨ bits = 16) {val : ℕ → ℕ → ℕ}
    (hval : ∀ i j, val i j < 2 ^ bits) {cols : ℕ} (hcols : cols * (bits / 8) = rowBytes rect.w bits)
    (tail : List UInt8) {i j : ℕ} (hi : i < rect.h.toNat) (hj : j < rect.w.toNat) (hjc : j < cols) :
    bmpValue (writtenSettings rect bits fmt) (bmpLineBytes (writtenSettings rect bits fmt)
      (writtenLines rect bits cols val ++ tail) i) j = val i j := by
  have hline : ∀ i, (writtenLine bits cols rect.w (val i)).length = rowBytes rect.w bits := fun i => by
    rw [length_writtenLine hbits, hcols]
  have hdata : (writtenLines rect bits cols val).length = rect.h.toNat * rowBytes rect.w bits :=
    length_flatMap_range hline _
  have hrow : (i + 1) * rowBytes rect.w bits ≤ rect.h.toNat * rowBytes rect.w bits :=
    Nat.mul_le_mul_right _ hi
  rw [Nat.add_mul, Nat.one_mul] at hrow
  have hpiece : bmpLineBytes (writtenSettings rect bits fmt)
      (writtenLines rect bits cols val ++ tail) i = writtenLine bits cols rect.w (val i) := by
    show ((writtenLines rect bits cols val ++ tail).drop (i * rowBytes rect.w bits)).take
      (rowBytes rect.w bits) = _
    rw [List.drop_append_of_le_length (by omega), List.take_append_of_le_length
      (by rw [List.length_drop]; omega)]
    exact flatMap_range_piece hline hi
  rw [hpiece]
  unfold bmpValue writtenSettings writtenLine
  rw [flatMap_range_piece (fun _ => length_encPixel hbits _) hjc, if_pos hj,
    bmpPixel_encPixel hbits (hval i j)]

/-- What was written line by line is read back. -/
theorem bmpRead_written (hf : WriterFormat bits fmt table) (hw : 0 < rect.w ∧ rect.w ≤ 32767)
    (hh : 0 < rect.h ∧ rect.h ≤ 32767) {val : ℕ → ℕ → ℕ} (hval : ∀ i j, val i j < 2 ^ bits) {cols : ℕ}
    (hcols : cols * (bits / 8) = rowBytes rect.w bits) (tail : List UInt8) : ∃ l t,
    bmpRead (bmpHeader rect bits fmt (writeRowBytes rect.w bits * rect.h) table ++
      writtenLines rect bits cols val ++ tail) = .ok (l, t) ∧ l.shape = writtenShape rect bits ∧
    ∀ (mem : ℤ → ℕ) (x y : ℕ), (x : ℤ) < rect.w → (y : ℤ) < rect.h →
      storeAll mem l.stores (y * rect.w + x) = val y x := by
  have hbits := hf.bits_cases
  have hsz := bmpSized_written hf hw hh
  have hdata : (writtenLines rect bits cols val).length = rect.h.toNat * rowBytes rect.w bits :=
    length_flatMap_range (fun i => by rw [length_writtenLine hbits, hcols]) _
  obtain ⟨stores, hread, hholds⟩ := bmpReadPixels_holds hsz (n := rect.h.toNat)
    (s := writtenLines rect bits cols val ++ tail) (Int.toNat_of_nonneg hh.1.le).le
    (by rw [List.length_append, hdata]; exact Nat.le_add_right _ _)
  rw [Int.toNat_of_nonneg hh.1.le] at hread
  have hok := bmpRead_of_ok (bmpReadGeometry_bmpHeader hf hw hh _) hread
  rw [← List.append_assoc] at hok
  refine ⟨_, _, hok, rfl, ?_⟩
  intro mem x y hx hy
  have hy' : y < rect.h.toNat := by omega
  have h := (hholds mem).line y x hy' hx
  have hy1 : bmpY (writtenShape rect bits) (writtenSettings rect bits fmt) y = y :=
    if_pos (by unfold writtenSettings; dsimp only; omega)
  have hx1 : bmpX (writtenShape rect bits) (writtenSettings rect bits fmt) x = x :=
    if_neg (by unfold writtenSettings; dsimp only; omega)
  rw [hy1, hx1] at h
  have hxc : x < cols := by
    obtain ⟨hrow, -, -, hle⟩ := rowBytes_eq hw hbits
    rcases hbits with rfl | rfl <;> omega
  exact h.trans (bmpValue_written hbits hval hcols tail hy' (by omega) hxc)

end

/-! ### The writer -/

section
variable {img : Image} {r rect : Rectangle}

/-- The bytes of a row of the image are those of its pixels. -/
theorem writePixels_row {x y : ℤ} {n : ℕ} (hx : 0 ≤ x) (hn : x + n ≤ img.w) :
    writePixels img (y * img.w + x) n = (List.range n).map fun j : ℕ => .ofNat (img.data (x + j) y) := by
  refine List.map_congr_left fun j hj => ?_
  have hj := List.mem_range.1 hj
  have hw : 0 < img.w := by omega
  have hmod : (y * img.w + x + j) % img.w = x + j := by
    rw [add_assoc, Int.mul_add_emod_self_right, Int.emod_eq_of_lt (by omega) (by omega)]
  have hdiv : (y * img.w + x + j) / img.w = y := by
    rw [add_assoc, Int.mul_add_ediv_right _ _ hw.ne', Int.ediv_eq_zero_of_lt (by omega) (by omega),
      add_zero]
  unfold pixelByte
  rw [hmod, hdiv]

/-- The rectangle that is written lies in the image. -/
structure Inside (img : Image) (rect : Rectangle) : Prop where
  x : 0 ≤ rect.x ∧ rect.x + rect.w ≤ img.w
  y : 0 ≤ rect.y ∧ rect.y + rect.h ≤ img.h
  w : 0 < rect.w ∧ rect.w ≤ 32767
  h : 0 < rect.h ∧ rect.h ≤ 32767

theorem Inside.clip (hr : r.Ok) (hmeet : Meets img.w img.h r) : Inside img (r.clip img.w img.h) := by
  obtain ⟨hx, hy, hw, hh⟩ := hr
  obtain ⟨hmx, hmy⟩ := hmeet
  unfold Rectangle.clip
  constructor <;> dsimp only <;> omega

/-- The rows of a rectangle over the whole width lie one behind the other. -/
theorem writePixels_rows (hin : Inside img rect) (hx : rect.x = 0) (hw : rect.w = img.w) :
    writePixels img (rect.y * img.w) (uint32 (rect.w * rect.h)) =
      (List.range rect.h.toNat).flatMap fun i : ℕ =>
        writePixels img ((rect.y + i) * img.w + rect.x) rect.w.toNat := by
  have hw1 := hin.w
  have hh1 := hin.h
  have hsize : uint32 (rect.w * rect.h) = rect.h.toNat * rect.w.toNat := by
    have hle := mul_le_mul hw1.2 hh1.2 hh1.1.le (by norm_num)
    have hu := uint32_of_mem (x := rect.w * rect.h) (mul_nonneg hw1.1.le hh1.1.le) (by omega)
    zify
    rw [hu, Int.toNat_of_nonneg hw1.1.le, Int.toNat_of_nonneg hh1.1.le, mul_comm]
  unfold writePixels
  rw [hsize, map_range_mul]
  refine List.flatMap_congr fun i _ => List.map_congr_left fun j _ => ?_
  congr 1
  push_cast
  rw [hx, ← hw, Int.toNat_of_nonneg hw1.1.le]
  ring

theorem writtenLine_gray (hin : Inside img rect) (i : ℕ) :
    writePixels img ((rect.y + i) * img.w + rect.x) rect.w.toNat ++
      List.replicate (writeRowBytes rect.w 8 - rect.w).toNat 0 =
    writtenLine 8 (rowBytes rect.w 8) rect.w fun j => img.data (rect.x + j) (rect.y + i) % 256 := by
  obtain ⟨hx, hy, hw, hh⟩ := hin
  obtain ⟨hrow, -, -, hle⟩ := rowBytes_eq hw (.inl rfl)
  have hpad := flatMap_range_pad (f := fun j : ℕ => [UInt8.ofNat (img.data (rect.x + j) (rect.y + i))])
    (g := [0]) (show rect.w.toNat ≤ rowBytes rect.w 8 by omega)
  rw [writePixels_row hx.1 (by omega), List.map_eq_flatMap,
    show (writeRowBytes rect.w 8 - rect.w).toNat = rowBytes rect.w 8 - rect.w.toNat by omega]
  refine Eq.trans ?_ (hpad.symm.trans ?_)
  · rw [← List.map_eq_flatMap (f := fun _ => 0), List.map_const', List.length_range]
  · refine List.flatMap_congr fun j _ => ?_
    unfold encPixel
    rw [if_pos rfl]
    split
    · rw [← UInt8.ofNat_mod_size]
    · rfl

theorem writtenLine_rgb565 (hin : Inside img rect) (hbpp : img.bpp = .rgb565) (words : ℤ → ℤ → ℕ)
    (i : ℕ) :
    ((List.range rect.w.toNat).flatMap fun j : ℕ =>
        le16 (rgb565At words img (rect.x + j) (rect.y + i))) ++
      ((List.range (writeRowBytes rect.w 16 / 2 - rect.w).toNat).flatMap fun _ => le16 0) =
    writtenLine 16 (rowBytes rect.w 16 / 2) rect.w fun j =>
      img.data (rect.x + j) (rect.y + i) % 65536 := by
  obtain ⟨hrow, -, -, hle⟩ := rowBytes_eq hin.w (.inr rfl)
  have hw := hin.w
  rw [show (writeRowBytes rect.w 16 / 2 - rect.w).toNat = rowBytes rect.w 16 / 2 - rect.w.toNat by omega,
    ← flatMap_range_pad (show rect.w.toNat ≤ rowBytes rect.w 16 / 2 by omega)]
  refine List.flatMap_congr fun j _ => ?_
  unfold encPixel rgb565At
  rw [if_neg (show ¬ 16 = 8 by decide), if_pos hbpp]
  split <;> rfl

/-- Both paths of the writer for grayscale images write the same lines. -/
theorem bmpWriteSubimg_gray {words : ℤ → ℤ → ℕ} (hbpp : img.bpp = .grayscale)
    (hrect : rectangleSubimg img.w img.h r = some rect) (hin : Inside img rect) :
    bmpWriteSubimg words img r = .ok (bmpHeader rect 8 0 (writeRowBytes rect.w 8 * rect.h) colorTable ++
      writtenLines rect 8 (rowBytes rect.w 8) fun i j => img.data (rect.x + j) (rect.y + i) % 256) := by
  have hw := hin.w
  have hh := hin.h
  simp only [bmpWriteSubimg, hrect, if_pos hbpp]
  unfold writtenLines
  simp only [← writtenLine_gray hin]
  split_ifs with hfast
  · obtain ⟨hx0, hw0, hrow⟩ := hfast
    rw [writePixels_rows hin hx0 hw0, show (writeRowBytes rect.w 8 - rect.w).toNat = 0 by omega]
    simp only [List.replicate_zero, List.append_nil]
  · rw [show uint32 rect.w = rect.w.toNat by unfold uint32; omega]

theorem bmpWriteSubimg_rgb565 {words : ℤ → ℤ → ℕ} (hbpp : img.bpp = .rgb565)
    (hrect : rectangleSubimg img.w img.h r = some rect) (hin : Inside img rect) :
    bmpWriteSubimg words img r = .ok (bmpHeader rect 16 3 (writeRowBytes rect.w 16 * rect.h) bitMasks ++
      writtenLines rect 16 (rowBytes rect.w 16 / 2) fun i j =>
        img.data (rect.x + j) (rect.y + i) % 65536) := by
  have hne : ¬ img.bpp = .grayscale := by rw [hbpp]; decide
  simp only [bmpWriteSubimg, hrect, if_neg hne]
  unfold writtenLines
  simp only [← writtenLine_rgb565 hin hbpp words]

end

/-! ### Round trip -/

/-- The file that `bmp_write_subimg` writes, followed by whatever a longer file of that name had there,
    is read back as the part of the image in the rectangle. -/
def BmpRoundtrip (words : ℤ → ℤ → ℕ) (img : Image) (r : Rectangle) : Prop :=
  ∃ file, bmpWriteSubimg words img r = .ok file ∧ ∀ tail, ∃ l t, bmpRead (file ++ tail) = .ok (l, t) ∧
    ∀ mem, IsSubimage img (r.clip img.w img.h) (l.image mem)

/-- The header of a written file, as far as the reader looks at it. -/
theorem bmpHeader_fields (rect : Rectangle) (bits fmt : ℕ) (dataSize : ℤ) (table t : List UInt8) :
    let s := bmpHeader rect bits fmt dataSize table ++ t
    rd32 (s.drop 2) = uint32 (14 + 40 + table.length + dataSize) % 4294967296 ∧
    rd32 (s.drop 10) = (14 + 40 + table.length) % 4294967296 ∧
    rd32 (s.drop 18) = uint32 rect.w % 4294967296 ∧
    rd32 (s.drop 22) = uint32 (-rect.h) % 4294967296 ∧ rd16 (s.drop 28) = bits % 65536 := by
  intro s
  unfold s bmpHeader
  simp only [List.append_assoc]
  refine ⟨?_, ?_, ?_, ?_, ?_⟩
  · exact rd32_le32_append _ _
  · exact rd32_le32_append _ _
  · exact rd32_le32_append _ _
  · exact rd32_le32_append _ _
  · rw [← rd16_le16, ← rd16_take]
    rfl

/-- The line length of a width that came out negative is too small for the width the reader sees. -/
theorem writeRowBytes_neg {w : ℤ} {bits : ℕ} (hw : -32767 ≤ w ∧ w < 0) (hbits : bits = 8 ∨ bits = 16) :
    -writeRowBytes (-w) bits < writeRowBytes w bits ∧ writeRowBytes w bits ≤ 0 := by
  unfold writeRowBytes
  rcases hbits with rfl | rfl
  · rw [Int.tdiv_eq_ediv_of_nonneg (a := -w * (8 : ℕ) + 31) (by omega), Int.tdiv_eq_ediv]
    rw [show Int.sign 32 = 1 from rfl]
    split_ifs <;> omega
  · rw [Int.tdiv_eq_ediv_of_nonneg (a := -w * (16 : ℕ) + 31) (by omega), Int.tdiv_eq_ediv]
    rw [show Int.sign 32 = 1 from rfl]
    split_ifs <;> omega

theorem mul_natAbs_bound {R row : ℤ} (hR : -R ≤ row ∧ row ≤ R) (h : ℤ) :
    -(R * (h.natAbs : ℤ)) ≤ row * h ∧ row * h ≤ R * (h.natAbs : ℤ) := by
  rcases le_total 0 h with hh | hh
  · rw [Int.natAbs_of_nonneg hh]
    have h1 := mul_le_mul_of_nonneg_right hR.1 hh
    have h2 := mul_le_mul_of_nonneg_right hR.2 hh
    constructor <;> linarith
  · rw [show (h.natAbs : ℤ) = -h by omega]
    have h1 := mul_le_mul_of_nonneg_right hR.1 (neg_nonneg.2 hh)
    have h2 := mul_le_mul_of_nonneg_right hR.2 (neg_nonneg.2 hh)
    constructor <;> linarith

/-- The size the reader computes is the one in the file only if the signs of the row and of the height agree. -/
theorem row_of_size {R row h : ℤ} {n : ℕ} (hn : n ≤ 1024) (hR : 0 < R ∧ R ≤ 65536) (hrow : -R ≤ row ∧ row ≤ R)
    (hh : -32767 ≤ h ∧ h ≤ 32767) (h0 : h ≠ 0)
    (hroom : (14 + 40 + n) % 4294967296 < uint32 (14 + 40 + n + row * h) % 4294967296)
    (hsize : uint32 (14 + 40 + n + row * h) % 4294967296 - (14 + 40 + n) % 4294967296 = uint32 (R * h.natAbs)) :
    row = R ∧ 0 < h ∨ row = -R ∧ h < 0 := by
  have hP := mul_le_mul hR.2 (show (h.natAbs : ℤ) ≤ 32767 by omega) (by omega) (by norm_num)
  have hP0 : 0 < R * (h.natAbs : ℤ) := mul_pos hR.1 (by omega)
  have hD := mul_natAbs_bound hrow h
  have heq : row * h = R * (h.natAbs : ℤ) := by
    unfold uint32 at hsize hroom
    generalize row * h = D at *
    generalize R * (h.natAbs : ℤ) = P at *
    omega
  rcases lt_or_gt_of_ne h0 with hneg | hpos
  · refine Or.inr ⟨?_, hneg⟩
    rw [show (h.natAbs : ℤ) = -h by omega] at heq
    exact mul_right_cancel₀ h0 (by rw [heq, mul_neg, neg_mul])
  · refine Or.inl ⟨?_, hpos⟩
    rw [show (h.natAbs : ℤ) = h by omega] at heq
    exact mul_right_cancel₀ h0 heq

/-- The reader accepts only files of rectangles that are not turned over. -/
theorem pos_of_accepted {bits fmt : ℕ} {table t u : List UInt8} (hf : WriterFormat bits fmt table)
    {rect : Rectangle} (hw : -32767 ≤ rect.w ∧ rect.w ≤ 32767) (hh : -32767 ≤ rect.h ∧ rect.h ≤ 32767)
    {img : Shape} {rs : BmpReadSettings}
    (hgeo : bmpReadGeometry (bmpHeader rect bits fmt (writeRowBytes rect.w bits * rect.h) table ++ t) =
      .ok ((img, rs), u)) :
    img = writtenShape rect bits ∧ 0 < rect.w ∧ 0 < rect.h := by
  have hhd := bmpReadGeometry_inv hgeo
  have hlen := hf.length_le
  obtain ⟨f2, f10, f18, f22, f28⟩ :=
    bmpHeader_fields rect bits fmt (writeRowBytes rect.w bits * rect.h) table t
  have hbits : rs.bmpBpp = bits := by
    rw [hhd.bpp, f28]
    rcases hf.bits_cases with rfl | rfl <;> rfl
  have hbw : rs.bmpW = rect.w := by rw [hhd.w, f18, int32_uint32 (by omega) (by omega)]
  have hbh : rs.bmpH = -rect.h := by rw [hhd.h, f22, int32_uint32 (by omega) (by omega)]
  have hw0 := hhd.w_ne
  have hh0 := hhd.h_ne
  have hroom := hhd.room
  have hsize := hhd.size
  rw [f2, f10] at hroom hsize
  rw [hhd.row] at hsize
  have hshape := hhd.shape
  rw [hbw, hbh, hbits] at hshape
  have hiw : intAbs rect.w = rect.w.natAbs := by
    unfold intAbs int32
    omega
  have hih : intAbs (-rect.h) = rect.h.natAbs := by
    unfold intAbs int32
    omega
  rw [hiw, hih] at hshape
  rw [hshape, hbits] at hsize
  dsimp only at hsize
  rw [hbw] at hw0
  rw [hbh] at hh0
  obtain ⟨hrow, hrow0, hrow1, -⟩ := rowBytes_eq (w := rect.w.natAbs) (by omega) hf.bits_cases
  have hneg : rect.w < 0 → -(writeRowBytes rect.w.natAbs bits) < writeRowBytes rect.w bits ∧
      writeRowBytes rect.w bits ≤ 0 := by
    intro hlt
    rw [show (rect.w.natAbs : ℤ) = -rect.w by omega]
    exact writeRowBytes_neg ⟨hw.1, hlt⟩ hf.bits_cases
  have hpos : 0 < rect.w → writeRowBytes rect.w bits = writeRowBytes rect.w.natAbs bits := by
    intro hlt
    rw [show (rect.w.natAbs : ℤ) = rect.w by omega]
  rw [hrow] at hsize
  obtain ⟨hw1, hh1⟩ : 0 < rect.w ∧ 0 < rect.h := by
    rcases row_of_size hlen ⟨hrow0, hrow1⟩ (by omega) hh (neg_ne_zero.1 hh0) hroom hsize with ⟨hR, hh1⟩ | ⟨hR, -⟩
    · exact ⟨by omega, hh1⟩
    · omega
  refine ⟨?_, hw1, hh1⟩
  rw [hshape, writtenShape, Int.natAbs_of_nonneg hw1.le, Int.natAbs_of_nonneg hh1.le]

theorem ite_ne_of_ne {α : Type} {p : Prop} [Decidable p] {a b x : α} (ha : a ≠ x) (hb : b ≠ x) :
    (if p then a else b) ≠ x := by
  split
  · exact ha
  · exact hb

/-- The check of the file name leaves three formats. -/
theorem bpp_of_accepted {bpp : Bpp} {path : List Char} (h : imblibParseExtension bpp path = .ok .bmp) :
    bpp = .binary ∨ bpp = .grayscale ∨ bpp = .rgb565 := by
  have hne : ¬ (bpp = .jpeg ∨ bpp = .bayer) := by
    intro hraw
    unfold imblibParseExtension at h
    rw [if_pos hraw] at h
    -- no other extension leads to the writer
    refine absurd h (ite_ne_of_ne nofun (ite_ne_of_ne nofun (ite_ne_of_ne nofun ?_)))
    exact ite_ne_of_ne (ite_ne_of_ne nofun nofun) (ite_ne_of_ne (ite_ne_of_ne nofun nofun)
      (ite_ne_of_ne (ite_ne_of_ne nofun nofun) nofun))
  cases bpp with
  | binary => exact .inl rfl
  | grayscale => exact .inr (.inl rfl)
  | rgb565 => exact .inr (.inr rfl)
  | bayer => exact absurd (.inr rfl) hne
  | jpeg => exact absurd (.inl rfl) hne

/-- A file that is read back as the part in the rectangle belongs to an image in a format of the
    writer, with sizes that the rectangle can hold. -/
theorem fits_of_roundtrip {words : ℤ → ℤ → ℕ} {img : Image} {r : Rectangle} (hr : r.Ok)
    (h : BmpRoundtrip words img r) :
    (img.bpp = .grayscale ∨ img.bpp = .rgb565) ∧ SubimgFits img.w img.h r := by
  obtain ⟨file, hwrite, hread⟩ := h
  obtain ⟨l, t, hread, hsub⟩ := hread []
  have hsub := hsub fun _ => 0
  cases hrect : rectangleSubimg img.w img.h r with
  | none =>
    simp only [bmpWriteSubimg, hrect] at hwrite
    exact nomatch hwrite
  | some rect =>
    obtain ⟨hclip, hw, hh⟩ := rectangleSubimg_of_some hr hrect
    -- the file begins with the header of one of the two formats
    obtain ⟨bits, fmt, table, rest, hf, hfile, hbits⟩ : ∃ bits fmt table rest,
        WriterFormat bits fmt table ∧
        file = bmpHeader rect bits fmt (writeRowBytes rect.w bits * rect.h) table ++ rest ∧
        (bits = 8 ↔ img.bpp = .grayscale) := by
      simp only [bmpWriteSubimg, hrect] at hwrite
      split_ifs at hwrite with hgray
      · exact ⟨8, 0, colorTable, _, .gray, (Except.ok.inj hwrite).symm, by simp [hgray]⟩
      · exact ⟨8, 0, colorTable, _, .gray, (Except.ok.inj hwrite).symm, by simp [hgray]⟩
      · exact ⟨16, 3, bitMasks, _, .rgb565, (Except.ok.inj hwrite).symm, by simp [hgray]⟩
    rw [hfile, List.append_assoc] at hread
    obtain ⟨⟨shape, rs⟩, u, hgeo, hrest⟩ := Reader.bind_eq_ok.1 hread
    obtain ⟨stores, v, -, hl⟩ := Reader.bind_eq_ok.1 hrest
    obtain ⟨rfl, -⟩ := Prod.mk.inj (Except.ok.inj hl)
    obtain ⟨rfl, -, -⟩ := pos_of_accepted hf hw hh hgeo
    have hsw : rect.w = (r.clip img.w img.h).w := hsub.w
    have hsh : rect.h = (r.clip img.w img.h).h := hsub.h
    have hsb : (if bits = 8 then Bpp.grayscale else Bpp.rgb565) = img.bpp := hsub.bpp
    rw [hclip] at hsw hsh
    unfold Rectangle.clip at hsw hsh
    refine ⟨?_, by dsimp only at hsw; omega, by dsimp only at hsh; omega⟩
    split_ifs at hsb with h8
    · exact .inl (hbits.1 h8)
    · exact .inr hsb.symm

/-- Loaded pixels that are those of the image make up the part of it. -/
theorem isSubimage_of_values (bits : ℕ) {img : Image} {rect : Rectangle} {l : Loaded} {mem : ℤ → ℕ}
    (hshape : l.shape = writtenShape rect bits)
    (hbpp : (img.bpp = .grayscale ∧ bits = 8) ∨ (img.bpp = .rgb565 ∧ bits = 16))
    (hval : ∀ x y : ℕ, (x : ℤ) < rect.w → (y : ℤ) < rect.h →
      storeAll mem l.stores (y * rect.w + x) = img.data (rect.x + x) (rect.y + y) % 2 ^ bits) :
    IsSubimage img rect (l.image mem) := by
  have hw : l.shape.w = rect.w := by rw [hshape]; rfl
  have hb : l.shape.bpp = img.bpp := by
    rw [hshape]
    rcases hbpp with ⟨h, rfl⟩ | ⟨h, rfl⟩ <;> rw [h] <;> rfl
  refine ⟨hw, by rw [Loaded.image, hshape]; rfl, hb, fun x y hx0 hx hy0 hy => ?_⟩
  lift x to ℕ using hx0
  lift y to ℕ using hy0
  have hdata : (l.image mem).data x y = img.data (rect.x + x) (rect.y + y) % 2 ^ bits := by
    rw [Loaded.image, hw]
    exact hval x y hx hy
  unfold Image.pixel imageGetGrayscalePixel imageGetRgb565Pixel
  rw [show (l.image mem).bpp = img.bpp from hb, hdata]
  rcases hbpp with ⟨h, rfl⟩ | ⟨h, rfl⟩
  · rw [h]
    exact congrArg Nat.cast (Nat.mod_mod _ 256)
  · rw [h]
    exact congrArg Nat.cast (Nat.mod_mod _ 65536)

theorem roundtrip_of_fits {words : ℤ → ℤ → ℕ} {img : Image} {r : Rectangle} (hr : r.Ok)
    (hmeet : Meets img.w img.h r) (hfit : SubimgFits img.w img.h r)
    (hbpp : img.bpp = .grayscale ∨ img.bpp = .rgb565) : BmpRoundtrip words img r := by
  have hrect := rectangleSubimg_eq_clip hr hmeet hfit
  have hin := Inside.clip hr hmeet
  rcases hbpp with hb | hb
  · refine ⟨_, bmpWriteSubimg_gray hb hrect hin, fun tail => ?_⟩
    obtain ⟨l, t, hread, hshape, hval⟩ := bmpRead_written .gray hin.w hin.h
      (fun i j => Nat.mod_lt _ (by decide)) (Nat.mul_one _) tail
    exact ⟨l, t, hread, fun mem => isSubimage_of_values 8 hshape (.inl ⟨hb, rfl⟩) (hval mem)⟩
  · refine ⟨_, bmpWriteSubimg_rgb565 hb hrect hin, fun tail => ?_⟩
    have hcols : rowBytes (r.clip img.w img.h).w 16 / 2 * (16 / 8) =
        rowBytes (r.clip img.w img.h).w 16 := by
      have := four_dvd_rowBytes (r.clip img.w img.h).w 16
      omega
    obtain ⟨l, t, hread, hshape, hval⟩ := bmpRead_written .rgb565 hin.w hin.h
      (fun i j => Nat.mod_lt _ (by decide)) hcols tail
    exact ⟨l, t, hread, fun mem => isSubimage_of_values 16 hshape (.inr ⟨hb, rfl⟩) (hval mem)⟩

/-- Of the images that may be saved under the name of a BMP file, exactly the grayscale and the RGB565
    ones come back from it, as long as the rectangle can hold the sizes. -/
theorem bmp_roundtrip_iff (words : ℤ → ℤ → ℕ) (img : Image) (r : Rectangle) (path : List Char)
    (hpath : imblibParseExtension img.bpp path = .ok .bmp) (hr : r.Ok) (hmeet : Meets img.w img.h r) :
    BmpRoundtrip words img r ↔ img.bpp ≠ .binary ∧ SubimgFits img.w img.h r := by
  constructor
  · intro h
    obtain ⟨hb, hfit⟩ := fits_of_roundtrip hr h
    refine ⟨fun hbin => ?_, hfit⟩
    rw [hbin] at hb
    rcases hb with hb | hb <;> exact nomatch hb
  · rintro ⟨hb, hfit⟩
    exact roundtrip_of_fits hr hmeet hfit ((bpp_of_accepted hpath).resolve_left hb)

/-- A grayscale image of 3 x 2 pixels and the rectangle of its last two columns. -/
theorem bmp_roundtrip_gray_three :
    BmpRoundtrip (fun _ _ => 0) ⟨3, 2, .grayscale, fun x y => (10 * y + x).toNat⟩ ⟨1, 0, 5, 2⟩ := by
  refine (bmp_roundtrip_iff _ _ _ ['a', '.', 'b', 'm', 'p'] (by decide) ?_ ?_).2 ⟨by decide, ?_⟩
  · exact ⟨by decide, by decide, by decide, by decide⟩
  · exact ⟨by decide, by decide⟩
  · exact ⟨by decide, by decide⟩

/-- A binary image may be saved as a BMP file and does not come back. -/
theorem bmp_roundtrip_binary :
    imblibParseExtension .binary ['a', '.', 'b', 'm', 'p'] = .ok .bmp ∧
      ¬ BmpRoundtrip (fun _ _ => 0) ⟨8, 8, .binary, fun _ _ => 1⟩ ⟨0, 0, 8, 8⟩ := by
  refine ⟨by decide, fun h => ?_⟩
  obtain ⟨hb, -⟩ := fits_of_roundtrip ⟨by decide, by decide, by decide, by decide⟩ h
  exact absurd hb (by decide)

end OpenMV.Io
