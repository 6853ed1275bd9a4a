import OpenMV.Jpeg.Encoder
import OpenMV.Schemes.PrefixCode
import Mathlib.Logic.Function.Basic

/-! JPEG buffer | scheme:codec | source:src/src/openmv/omv/img/jpeg.c

    What the writers leave in the buffer. The overflow flag, once set, stays set; as long as it is not
    set everything has been stored, and a buffer with room for the headers and a byte for every bit
    does not set it. `jpeg_writeBits` is followed bit by bit: after any sequence of bit strings the
    buffer holds the whole bytes of their concatenation, escaped, and the bit buffer holds the rest. -/

namespace OpenMV.Jpeg
open Schemes

/-! ### What goes out -/

theorem putBytes_ok {b : JpegBuf} {data : List UInt8} (h : (jpegPutBytes b data).overflow = false) :
    b.overflow = false ∧ (jpegPutBytes b data).buf = b.buf ++ data := by
  unfold jpegPutBytes at h ⊢
  split_ifs at h ⊢ <;> simp_all

@[simp] theorem putBytes_bitc (b : JpegBuf) (data : List UInt8) :
    (jpegPutBytes b data).bitc = b.bitc := by
  unfold jpegPutBytes
  split_ifs <;> rfl

@[simp] theorem putBytes_bitb (b : JpegBuf) (data : List UInt8) :
    (jpegPutBytes b data).bitb = b.bitb := by
  unfold jpegPutBytes
  split_ifs <;> rfl

/-- The bytes that go out for eight bits `c`. -/
theorem shiftOut_buf {b : JpegBuf} (h : (jpegShiftOut b).overflow = false) :
    b.overflow = false ∧
    (jpegShiftOut b).buf = b.buf ++ escape 255 0 [UInt8.ofNat ((b.bitb >>> 16) % 256)] := by
  simp only [jpegShiftOut, jpegPutChar, escape] at h ⊢
  split_ifs at h ⊢
  · obtain ⟨h1, h2⟩ := putBytes_ok h
    obtain ⟨h3, h4⟩ := putBytes_ok h1
    exact ⟨h3, by rw [h2, h4, List.append_assoc]; rfl⟩
  · exact putBytes_ok h

theorem shiftOut_bits (b : JpegBuf) :
    (jpegShiftOut b).bitc = b.bitc - 8 ∧ (jpegShiftOut b).bitb = (b.bitb <<< 8) % 2 ^ 32 := by
  simp only [jpegShiftOut, jpegPutChar]
  split_ifs <;> simp

theorem shiftOutLoop_buf : ∀ {n : ℕ} {b : JpegBuf}, (jpegShiftOutLoop n b).overflow = false →
    b.overflow = false ∧ ∃ bytes, (jpegShiftOutLoop n b).buf = b.buf ++ escape 255 0 bytes
  | 0, b, h => ⟨h, [], by simp [jpegShiftOutLoop, escape]⟩
  | n + 1, b, h => by
      simp only [jpegShiftOutLoop] at h ⊢
      split_ifs at h ⊢
      · obtain ⟨h', bytes, hbuf⟩ := shiftOutLoop_buf h
        obtain ⟨h'', hbuf'⟩ := shiftOut_buf h'
        exact ⟨h'', [_] ++ bytes, by rw [hbuf, hbuf', List.append_assoc, ← escape_append]⟩
      · exact ⟨h, [], by simp [escape]⟩

/-- Whatever the bit strings are, the bytes that go out for them are escaped. -/
theorem foldl_writeBits_buf : ∀ (ws : List (ℕ × ℕ)) {b : JpegBuf},
    (ws.foldl jpegWriteBits b).overflow = false →
    b.overflow = false ∧ ∃ bytes, (ws.foldl jpegWriteBits b).buf = b.buf ++ escape 255 0 bytes
  | [], b, h => ⟨h, [], by simp [escape]⟩
  | w :: ws, b, h => by
      obtain ⟨h', bytes', hbuf'⟩ := foldl_writeBits_buf ws h
      obtain ⟨h'', bytes, hbuf⟩ := shiftOutLoop_buf h'
      refine ⟨h'', bytes ++ bytes', ?_⟩
      rw [List.foldl_cons, hbuf', escape_append, ← List.append_assoc]
      exact congrArg (· ++ _) hbuf

/-! ### Room -/

/-- `n` more bytes can be stored. -/
def Room (b : JpegBuf) (n : ℕ) : Prop := b.realloc = true ∨ b.buf.length + n < b.length

theorem Room.mono {b : JpegBuf} {m n : ℕ} (h : Room b n) (hmn : m ≤ n) : Room b m :=
  h.imp_right fun h => by omega

theorem Room.putBytes {b : JpegBuf} (data : List UInt8) {n : ℕ} (h : Room b (data.length + n)) :
    Room (jpegPutBytes b data) n ∧ (jpegPutBytes b data).overflow = b.overflow := by
  unfold jpegPutBytes
  rcases h with h | h
  · split_ifs with h1 h2
    · simp [h] at h2
    · exact ⟨.inl h, rfl⟩
    · exact ⟨.inl h, rfl⟩
  · rw [if_neg (by omega)]
    exact ⟨.inr (by rw [List.length_append]; dsimp only; omega), rfl⟩

theorem Room.shiftOut {b : JpegBuf} {n : ℕ} (h : Room b (2 + n)) :
    Room (jpegShiftOut b) n ∧ (jpegShiftOut b).overflow = b.overflow := by
  simp only [jpegShiftOut, jpegPutChar]
  obtain ⟨h1, ho1⟩ := Room.putBytes [UInt8.ofNat ((b.bitb >>> 16) % 256)] (n := 1 + n)
    (h.mono (by rw [List.length_singleton]; omega))
  split_ifs
  · obtain ⟨h2, ho2⟩ := Room.putBytes [0] h1
    exact ⟨h2, ho2.trans ho1⟩
  · exact ⟨h1.mono (by omega), ho1⟩

/-- A byte of room for every waiting bit is enough: two bytes at most go out for eight bits. -/
theorem Room.shiftOutLoop : ∀ {k : ℕ} {b : JpegBuf} {n : ℕ}, Room b (b.bitc + n) →
    Room (jpegShiftOutLoop k b) ((jpegShiftOutLoop k b).bitc + n) ∧
      (jpegShiftOutLoop k b).overflow = b.overflow
  | 0, _, _, h => ⟨h, rfl⟩
  | k + 1, b, n, h => by
      simp only [jpegShiftOutLoop]
      split_ifs with hc
      · obtain ⟨h1, ho1⟩ := Room.shiftOut (n := (jpegShiftOut b).bitc + n)
          (h.mono (by rw [(shiftOut_bits b).1]; omega))
        obtain ⟨h2, ho2⟩ := Room.shiftOutLoop (k := k) h1
        exact ⟨h2, ho2.trans ho1⟩
      · exact ⟨h, rfl⟩

theorem Room.foldl_writeBits : ∀ (ws : List (ℕ × ℕ)) {b : JpegBuf} {n : ℕ},
    Room b (b.bitc + ((ws.map Prod.snd).sum + n)) →
    Room (ws.foldl jpegWriteBits b) ((ws.foldl jpegWriteBits b).bitc + n) ∧
      (ws.foldl jpegWriteBits b).overflow = b.overflow
  | [], b, n, h => ⟨h.mono (by simp), rfl⟩
  | w :: ws, b, n, h => by
      rw [List.map_cons, List.sum_cons] at h
      obtain ⟨h1, ho1⟩ := Room.shiftOutLoop (k := b.bitc + w.2) (n := (ws.map Prod.snd).sum + n)
        (b := { b with bitc := b.bitc + w.2, bitb := b.bitb ||| (w.1 <<< (24 - (b.bitc + w.2))) })
        (h.mono (by dsimp only; omega))
      obtain ⟨h2, ho2⟩ := Room.foldl_writeBits ws h1
      exact ⟨h2, ho2.trans ho1⟩

/-! ### The bits -/

/-- The bits of a bit string given by its value and its length. -/
def strBits (w : ℕ × ℕ) : List Bool := bitsOf w.2 w.1

/-- A bit string that `jpeg_writeBits` can take. -/
def StrOk (w : ℕ × ℕ) : Prop := w.2 ≤ 16 ∧ w.1 < 2 ^ w.2

instance (w : ℕ × ℕ) : Decidable (StrOk w) := inferInstanceAs (Decidable (_ ∧ _))

/-- The bits waiting in the bit buffer are `p`: they are its highest of 24 bits. -/
structure Window (b : JpegBuf) (p : List Bool) : Prop where
  bitc : b.bitc = p.length
  le : p.length ≤ 24
  bit : ∀ i < 24, b.bitb.testBit (23 - i) = p.getD i false

theorem take_eight {p : List Bool} (h : 8 ≤ p.length) {n : ℕ}
    (hn : ∀ i < 8, n.testBit (7 - i) = p.getD i false) : bitsOf 8 n = p.take 8 := by
  refine List.ext_getElem (by simp [h]) fun i h1 h2 => ?_
  rw [length_bitsOf] at h1
  have h3 := getD_bitsOf 8 n i
  rw [List.getD_eq_getElem _ _ (by simpa using h1), decide_eq_true h1, Bool.true_and] at h3
  rw [h3, List.getElem_take, show 8 - 1 - i = 7 - i by omega, hn i h1,
    List.getD_eq_getElem _ _ (by omega)]

/-- Shifting out takes the first eight bits from the window. -/
theorem Window.shiftOut {b : JpegBuf} {p : List Bool} (hw : Window b p) (hp : 8 ≤ p.length) :
    Window (jpegShiftOut b) (p.drop 8) ∧
    bitsOf 8 (UInt8.ofNat ((b.bitb >>> 16) % 256)).toNat = p.take 8 := by
  obtain ⟨hc, hb⟩ := shiftOut_bits b
  refine ⟨⟨?_, ?_, fun i hi => ?_⟩, take_eight hp fun i hi => ?_⟩
  · rw [hc, hw.bitc, List.length_drop]
  · rw [List.length_drop]
    have := hw.le
    omega
  · rw [hb, Nat.testBit_mod_two_pow, Nat.testBit_shiftLeft, decide_eq_true (by omega : 23 - i < 32),
      Bool.true_and, List.getD_eq_getElem?_getD, List.getElem?_drop, ← List.getD_eq_getElem?_getD]
    by_cases h : i < 16
    · rw [decide_eq_true (by omega : 23 - i ≥ 8), Bool.true_and, show 23 - i - 8 = 23 - (8 + i) by omega]
      exact hw.bit (8 + i) (by omega)
    · have hle := hw.le
      rw [decide_eq_false (by omega : ¬23 - i ≥ 8), Bool.false_and,
        List.getD_eq_default _ _ (by omega)]
  · rw [UInt8.toNat_ofNat', Nat.mod_mod, show (256 : ℕ) = 2 ^ 8 from rfl, Nat.testBit_mod_two_pow,
      Nat.testBit_shiftRight,
      decide_eq_true (by omega : 7 - i < 8), Bool.true_and, show 16 + (7 - i) = 23 - i by omega]
    exact hw.bit i (by omega)

/-- The loop of `jpeg_writeBits` shifts whole bytes out until less than one is left. -/
theorem shiftOutLoop_spec : ∀ {n : ℕ} {b : JpegBuf} {p : List Bool}, Window b p → p.length ≤ 8 * n + 7 →
    (jpegShiftOutLoop n b).overflow = false → b.overflow = false ∧
      ∃ (bytes : List UInt8) (p' : List Bool), p = bytes.flatMap (bitsOf 8 ·.toNat) ++ p' ∧
        p'.length < 8 ∧ Window (jpegShiftOutLoop n b) p' ∧
        (jpegShiftOutLoop n b).buf = b.buf ++ escape 255 0 bytes
  | 0, b, p, hw, hp, ho => ⟨ho, [], p, rfl, by omega, hw, by simp [jpegShiftOutLoop, escape]⟩
  | n + 1, b, p, hw, hp, ho => by
      simp only [jpegShiftOutLoop] at ho ⊢
      by_cases hc : b.bitc > 7
      · rw [if_pos hc] at ho ⊢
        rw [hw.bitc] at hc
        obtain ⟨hw', hbits⟩ := hw.shiftOut (by omega)
        obtain ⟨ho', bytes, p', hp', hlt, hwin, hbuf⟩ :=
          shiftOutLoop_spec hw' (by rw [List.length_drop]; omega) ho
        obtain ⟨ho'', hbuf'⟩ := shiftOut_buf ho'
        refine ⟨ho'', UInt8.ofNat ((b.bitb >>> 16) % 256) :: bytes, p', ?_, hlt, hwin, ?_⟩
        · rw [List.flatMap_cons, hbits, List.append_assoc, ← hp', List.take_append_drop]
        · rw [hbuf, hbuf', List.append_assoc, ← escape_append, List.singleton_append]
      · rw [if_neg hc] at ho ⊢
        rw [hw.bitc] at hc
        exact ⟨ho, [], p, rfl, by omega, hw, by simp [escape]⟩

/-- Since `base` the bits `bits` have been written: whole bytes are in the buffer, escaped, the rest
    is in the bit buffer. -/
structure Written (base : List UInt8) (bits : List Bool) (b : JpegBuf) : Prop where
  state : ∃ (bytes : List UInt8) (p : List Bool), bits = bytes.flatMap (bitsOf 8 ·.toNat) ++ p ∧
    p.length < 8 ∧ Window b p ∧ b.buf = base ++ escape 255 0 bytes

/-- The bits of `bs` go behind those in the window. -/
theorem Window.append {b : JpegBuf} {p : List Bool} (hw : Window b p) {bs : ℕ × ℕ} (hbs : StrOk bs)
    (hp : p.length < 8) :
    Window { b with bitc := b.bitc + bs.2, bitb := b.bitb ||| (bs.1 <<< (24 - (b.bitc + bs.2))) }
      (p ++ strBits bs) := by
  obtain ⟨hlen, hlt⟩ := hbs
  refine ⟨?_, ?_, fun i hi => ?_⟩
  · simp [hw.bitc, strBits]
  · simp only [strBits, List.length_append, length_bitsOf]
    omega
  · rw [Nat.testBit_or, hw.bit i hi, Nat.testBit_shiftLeft, hw.bitc]
    by_cases h : i < p.length
    · -- an old bit: the new ones lie below it
      have hzero : bs.1.testBit (23 - i - (24 - (p.length + bs.2))) = false := by
        refine Nat.testBit_lt_two_pow (hlt.trans_le (Nat.pow_le_pow_right (by decide) ?_))
        omega
      rw [hzero, Bool.and_false, Bool.or_false, List.getD_append _ _ _ _ h]
    · rw [List.getD_eq_default _ _ (by omega), Bool.false_or, List.getD_append_right _ _ _ _ (by omega),
        strBits, getD_bitsOf]
      by_cases h' : i < p.length + bs.2
      · rw [decide_eq_true (by omega : 23 - i ≥ 24 - (p.length + bs.2)),
          decide_eq_true (by omega : i - p.length < bs.2),
          show 23 - i - (24 - (p.length + bs.2)) = bs.2 - 1 - (i - p.length) by omega]
      · rw [decide_eq_false (by omega : ¬23 - i ≥ 24 - (p.length + bs.2)),
          decide_eq_false (by omega : ¬i - p.length < bs.2), Bool.false_and, Bool.false_and]

/-- `jpeg_writeBits` writes its bits, unless the buffer overflows. -/
theorem Written.writeBits {base : List UInt8} {bits : List Bool} {b : JpegBuf} (h : Written base bits b)
    {bs : ℕ × ℕ} (hbs : StrOk bs) (ho : (jpegWriteBits b bs).overflow = false) :
    Written base (bits ++ strBits bs) (jpegWriteBits b bs) := by
  obtain ⟨bytes, p, rfl, hp, hw, hbuf⟩ := h.state
  have hw' := hw.append hbs hp
  have hle : (p ++ strBits bs).length ≤ 8 * (b.bitc + bs.2) + 7 := by
    rw [← hw'.bitc]
    dsimp only
    omega
  obtain ⟨-, bytes', p', heq, hlt, hwin, hbuf'⟩ := shiftOutLoop_spec hw' hle ho
  refine ⟨bytes ++ bytes', p', ?_, hlt, hwin, ?_⟩
  · rw [List.append_assoc, heq, List.flatMap_append, List.append_assoc]
  · rw [escape_append, ← List.append_assoc, ← hbuf]
    exact hbuf'

theorem Written.foldl {base : List UInt8} : ∀ {ws : List (ℕ × ℕ)} {bits : List Bool} {b : JpegBuf},
    Written base bits b → (∀ w ∈ ws, StrOk w) → (ws.foldl jpegWriteBits b).overflow = false →
    Written base (bits ++ ws.flatMap strBits) (ws.foldl jpegWriteBits b)
  | [], bits, b, h, _, ho => by simpa using h
  | w :: ws, bits, b, h, hws, ho => by
      obtain ⟨hw, hrest⟩ := List.forall_mem_cons.mp hws
      -- the flag, once set, stays set, so the first write went through as well
      have h1 := h.writeBits hw (foldl_writeBits_buf ws ho).1
      rw [List.flatMap_cons, ← List.append_assoc]
      exact h1.foldl hrest ho

theorem Written.nil {b : JpegBuf} (hc : b.bitc = 0) (hb : b.bitb = 0) : Written b.buf [] b :=
  ⟨[], [], rfl, by decide, ⟨hc, by decide, fun i _ => by simp [hb]⟩, by simp [escape]⟩

/-- The fill bits complete the last byte with ones, so that nothing of `bits` is left behind. -/
theorem Written.fillBits {base : List UInt8} {bits : List Bool} {b : JpegBuf} (h : Written base bits b)
    (ho : (jpegWriteBits b fillBits).overflow = false) :
    ∃ (bytes : List UInt8) (pad : List Bool), (jpegWriteBits b fillBits).buf = base ++ escape 255 0 bytes ∧
      bytes.flatMap (bitsOf 8 ·.toNat) = bits ++ pad ∧ pad.length < 8 ∧ ∀ x ∈ pad, x = true := by
  have hok : StrOk Jpeg.fillBits := by decide
  obtain ⟨bytes, p, heq, hp, -, hbuf⟩ := (h.writeBits hok ho).state
  have hones : strBits Jpeg.fillBits = List.replicate 7 true := by decide
  rw [hones] at heq
  rcases List.append_eq_append_iff.mp heq with ⟨pad, hpad, hp'⟩ | ⟨q, hq, hp'⟩
  · refine ⟨bytes, pad, hbuf, hpad, ?_, fun x hx => ?_⟩
    · have := congrArg List.length hp'
      rw [List.length_replicate, List.length_append] at this
      omega
    · exact List.eq_of_mem_replicate (hp' ▸ List.mem_append_left p hx)
  · -- all seven ones and a bit before them would have to be left
    have := congrArg List.length hp'
    rw [List.length_append, List.length_replicate] at this
    obtain rfl : q = [] := List.length_eq_zero_iff.mp (by omega)
    exact ⟨bytes, [], hbuf, by simp [hq], by decide, by simp⟩

/-! ### The headers -/

/-- What `jpeg_write_headers` stores, call by call. -/
def headerChunks (w h bpp : ℕ) (jpegSubsample : UInt8) (t : QuantTables) : List (List UInt8) :=
  let nrComp := if bpp = 1 then 1 else 3
  [[0xFF, 0xD8],
   [0xFF, 0xE0] ++ [0x00, 0x10, 74, 70, 73, 70, 0x00, 0x01, 0x01, 0x00, 0x00, 0x01, 0x00, 0x01, 0x00, 0x00],
   [0xFF, 0xDB] ++ word (bpp * 65 + 2), [0], t.yTable] ++
  (if bpp > 1 then [[1], t.uvTable] else []) ++
  [[0xFF, 0xC0] ++ word (nrComp * 3 + 8) ++ [0x08] ++ word h ++ word w ++ [UInt8.ofNat nrComp]] ++
  (List.range nrComp).map (fun i =>
    [UInt8.ofNat (i + 1), if i = 0 ∧ bpp = 2 then jpegSubsample else 0x11, if i > 0 then 1 else 0]) ++
  [[0xFF, 0xC4] ++ word (bpp * 208 + 2),
   [0x00], stdDcLuminanceNrcodes.drop 1, stdDcLuminanceValues,
   [0x10], stdAcLuminanceNrcodes.drop 1, stdAcLuminanceValues] ++
  (if bpp > 1 then
    [[0x01], stdDcChrominanceNrcodes.drop 1, stdDcChrominanceValues,
     [0x11], stdAcChrominanceNrcodes.drop 1, stdAcChrominanceValues]
   else []) ++
  [[0xFF, 0xDA] ++ word (nrComp * 2 + 6) ++ [UInt8.ofNat nrComp]] ++
  (List.range nrComp).map (fun i => [UInt8.ofNat (i + 1), if i = 0 then 0x00 else 0x11]) ++
  [[0x00, 0x3F, 0x00]]

theorem writeHeaders_eq (b : JpegBuf) (w h bpp : ℕ) (jpegSubsample : UInt8) (t : QuantTables) :
    jpegWriteHeaders b w h bpp jpegSubsample t =
      (headerChunks w h bpp jpegSubsample t).foldl jpegPutBytes b := by
  simp only [jpegWriteHeaders, headerChunks, List.foldl_append, List.foldl_cons, List.foldl_nil,
    List.foldl_map, jpegPutChar]
  by_cases hb : bpp > 1
  · simp only [if_pos hb, List.foldl_cons, List.foldl_nil]
  · simp only [if_neg hb, List.foldl_nil]

/-- The header segments of the stream that `jpeg_compress` makes of `src`. -/
def headerOf (t : QuantTables) (src : Source) (quality : ℕ) : List (List UInt8) :=
  headerChunks src.w src.h (headerBpp src.bpp) (subsample quality) (jpegInit t quality)

theorem foldl_putBytes_buf : ∀ (ds : List (List UInt8)) {b : JpegBuf},
    (ds.foldl jpegPutBytes b).overflow = false →
    b.overflow = false ∧ (ds.foldl jpegPutBytes b).buf = b.buf ++ ds.flatten
  | [], b, h => ⟨h, by simp⟩
  | d :: ds, b, h => by
      obtain ⟨h1, hbuf⟩ := foldl_putBytes_buf ds h
      obtain ⟨h2, hbuf'⟩ := putBytes_ok h1
      exact ⟨h2, by rw [List.foldl_cons, hbuf, hbuf', List.flatten_cons, List.append_assoc]⟩

theorem foldl_putBytes_bits : ∀ (ds : List (List UInt8)) (b : JpegBuf),
    (ds.foldl jpegPutBytes b).bitc = b.bitc ∧ (ds.foldl jpegPutBytes b).bitb = b.bitb
  | [], _ => ⟨rfl, rfl⟩
  | d :: ds, b => by
      obtain ⟨hc, hb⟩ := foldl_putBytes_bits ds (jpegPutBytes b d)
      exact ⟨hc.trans (putBytes_bitc b d), hb.trans (putBytes_bitb b d)⟩

theorem Room.foldl_putBytes : ∀ (ds : List (List UInt8)) {b : JpegBuf} {n : ℕ},
    Room b (ds.flatten.length + n) →
    Room (ds.foldl jpegPutBytes b) n ∧ (ds.foldl jpegPutBytes b).overflow = b.overflow
  | [], b, n, h => ⟨h.mono (by simp), rfl⟩
  | d :: ds, b, n, h => by
      rw [List.flatten_cons, List.length_append, Nat.add_assoc] at h
      obtain ⟨h1, ho1⟩ := Room.putBytes d h
      obtain ⟨h2, ho2⟩ := Room.foldl_putBytes ds h1
      exact ⟨h2, ho2.trans ho1⟩

/-! ### The data units -/

def Comp.HTDC : Comp → List (ℕ × ℕ)
  | .y => ydcHT
  | .u => uvdcHT
  | .v => uvdcHT

def Comp.HTAC : Comp → List (ℕ × ℕ)
  | .y => yacHT
  | .u => uvacHT
  | .v => uvacHT

/-- The last DC value of each component. -/
def EncState.pred (s : EncState) : Comp → ℤ
  | .y => s.DCY
  | .u => s.DCU
  | .v => s.DCV

/-- The bit strings for data units when `pred` are the last DC values. -/
def unitStrings (pred : Comp → ℤ) : List DataUnit → List (ℕ × ℕ)
  | [] => []
  | u :: us => duStrings u.2 (pred u.1) u.1.HTDC u.1.HTAC ++
      unitStrings (Function.update pred u.1 (u.2.getD 0 0)) us

theorem encodeUnit_eq (s : EncState) (u : DataUnit) :
    (encodeUnit s u).buf = (duStrings u.2 (s.pred u.1) u.1.HTDC u.1.HTAC).foldl jpegWriteBits s.buf ∧
    (encodeUnit s u).pred = Function.update s.pred u.1 (u.2.getD 0 0) := by
  obtain ⟨c, DUQ⟩ := u
  cases c <;> refine ⟨rfl, funext fun c => ?_⟩ <;> cases c <;> rfl

theorem encodeUnits_buf : ∀ (us : List DataUnit) (s : EncState),
    (encodeUnits s us).buf = (unitStrings s.pred us).foldl jpegWriteBits s.buf
  | [], s => rfl
  | u :: us, s => by
      obtain ⟨hbuf, hpred⟩ := encodeUnit_eq s u
      rw [unitStrings, List.foldl_append, ← hbuf, ← hpred]
      exact encodeUnits_buf us (encodeUnit s u)

theorem encodeUnits_append (s : EncState) (us vs : List DataUnit) :
    encodeUnits s (us ++ vs) = encodeUnits (encodeUnits s us) vs := List.foldl_append

/-- If the end is reached the groups make no difference. -/
theorem encodeGroups_done : ∀ {gs : List (List DataUnit)} {s s' : EncState},
    encodeGroups s gs = (s', true) → s' = encodeUnits s gs.flatten
  | [], s, s', h => by cases h; rfl
  | g :: gs, s, s', h => by
      rw [encodeGroups] at h
      split_ifs at h
      · cases h
      · rw [List.flatten_cons, encodeUnits_append]
        exact encodeGroups_done h

/-- The end is reached when the buffer does not overflow. -/
theorem encodeGroups_of_room : ∀ {gs : List (List DataUnit)} {s : EncState},
    (encodeUnits s gs.flatten).buf.overflow = false →
    encodeGroups s gs = (encodeUnits s gs.flatten, true)
  | [], _, _ => rfl
  | g :: gs, s, h => by
      rw [List.flatten_cons, encodeUnits_append] at h ⊢
      have hg : (encodeUnits s g).buf.overflow = false := by
        rw [encodeUnits_buf] at h
        exact (foldl_writeBits_buf _ h).1
      rw [encodeGroups, hg]
      exact encodeGroups_of_room h

/-! ### The stream -/

/-- The state in which the first data unit is encoded. -/
def afterHeaders (t : QuantTables) (src : Source) (length quality : ℕ) (realloc : Bool) : EncState :=
  ⟨(headerOf t src quality).foldl jpegPutBytes ⟨[], length, 0, 0, realloc, false⟩, 0, 0, 0⟩

theorem compress_eq (t : QuantTables) (src : Source) (groups : List (List DataUnit)) (length quality : ℕ)
    (realloc : Bool) : jpegCompress t src groups length quality realloc =
      let r := encodeGroups (afterHeaders t src length quality realloc) groups
      if r.2 then (jpegPutChar (jpegPutChar (jpegWriteBits r.1.buf fillBits) 0xFF) 0xD9, true)
      else (r.1.buf, false) := by
  have hstart : (⟨jpegWriteHeaders ⟨[], length, 0, 0, realloc, false⟩ src.w src.h (headerBpp src.bpp)
      (subsample quality) (jpegInit t quality), 0, 0, 0⟩ : EncState) =
      afterHeaders t src length quality realloc := by
    rw [writeHeaders_eq]
    rfl
  simp only [jpegCompress, hstart]
  rcases encodeGroups (afterHeaders t src length quality realloc) groups with ⟨s, _ | _⟩ <;> rfl

theorem afterHeaders_pred (t : QuantTables) (src : Source) (length quality : ℕ) (realloc : Bool) :
    (afterHeaders t src length quality realloc).pred = fun _ => 0 :=
  funext fun c => by cases c <;> rfl

theorem afterHeaders_bits (t : QuantTables) (src : Source) (length quality : ℕ) (realloc : Bool) :
    (afterHeaders t src length quality realloc).buf.bitc = 0 ∧
    (afterHeaders t src length quality realloc).buf.bitb = 0 :=
  foldl_putBytes_bits _ _

theorem afterHeaders_buf {t : QuantTables} {src : Source} {length quality : ℕ} {realloc : Bool}
    (h : (afterHeaders t src length quality realloc).buf.overflow = false) :
    (afterHeaders t src length quality realloc).buf.buf = (headerOf t src quality).flatten :=
  (foldl_putBytes_buf _ h).2

theorem afterHeaders_room {t : QuantTables} {src : Source} {length quality n : ℕ} (realloc : Bool)
    (h : (headerOf t src quality).flatten.length + n < length) :
    Room (afterHeaders t src length quality realloc).buf n ∧
    (afterHeaders t src length quality realloc).buf.overflow = false := by
  have hroom : Room ⟨[], length, 0, 0, realloc, false⟩ ((headerOf t src quality).flatten.length + n) :=
    .inr (by simpa using h)
  obtain ⟨h1, h2⟩ := Room.foldl_putBytes _ hroom
  simp only [afterHeaders]
  exact ⟨h1, by rw [h2]⟩

/-- The end marker goes behind what is there. -/
theorem putEnd_buf {b : JpegBuf} (h : (jpegPutChar (jpegPutChar b 0xFF) 0xD9).overflow = false) :
    b.overflow = false ∧ (jpegPutChar (jpegPutChar b 0xFF) 0xD9).buf = b.buf ++ [0xFF, 0xD9] := by
  obtain ⟨h1, hD9⟩ := putBytes_ok h
  obtain ⟨h2, hFF⟩ := putBytes_ok h1
  exact ⟨h2, by rw [jpegPutChar, hD9, jpegPutChar, hFF, List.append_assoc]; rfl⟩

end OpenMV.Jpeg
