import Mathlib.Data.Nat.Digits.Lemmas
import OpenMV.Io.BmpWrite
import OpenMV.Io.Ppm

/-! Reading PPM and PGM files | scheme:codec | source:src/src/openmv/omv/img/ppm.c

    A printed number is read back from behind any white space and comments, up to the character that
    ends it. From this follows that samples printed in decimal are read back, and that samples written
    as bytes start where the header ends. -/

namespace OpenMV.Io
open Schemes Vision

/-! ### Numbers -/

def isSpace (c : UInt8) : Prop := c = 0x20 ∨ (0x09 ≤ c.toNat ∧ c.toNat ≤ 0x0D)

/-- White space and comments. -/
inductive Sep : List UInt8 → Prop
  | nil : Sep []
  | space {c : UInt8} {s : List UInt8} : isSpace c → Sep s → Sep (c :: s)
  | comment {text : List UInt8} {e : UInt8} {s : List UInt8} :
      (∀ c ∈ text, c ≠ 0x0A ∧ c ≠ 0x0D) → (e = 0x0A ∨ e = 0x0D) → Sep s →
      Sep (0x23 :: (text ++ e :: s))

theorem not_isDigit_of_isSpace {c : UInt8} (hc : isSpace c) : ¬ isDigit c := by
  rintro ⟨h1, h2⟩
  rcases hc with rfl | ⟨h3, h4⟩
  · exact absurd h1 (by decide)
  · omega

theorem step_space {i : ℕ} {c : UInt8} (hc : isSpace c) :
    readIntStep .eatWhitespace i c = some (.eatWhitespace, i) := by
  have hhash : c ≠ 0x23 := by
    rintro rfl
    rcases hc with h | h <;> exact absurd h (by decide)
  rw [readIntStep, if_neg hhash, if_neg (not_isDigit_of_isSpace hc)]

theorem step_hash (i : ℕ) : readIntStep .eatWhitespace i 0x23 = some (.eatComment, i) := by
  rw [readIntStep, if_pos rfl]

theorem step_first {i : ℕ} {c : UInt8} (hc : isDigit c) :
    readIntStep .eatWhitespace i c = some (.eatNumber, c.toNat - 0x30) := by
  have hhash : c ≠ 0x23 := by
    rintro rfl
    exact absurd hc (by decide)
  rw [readIntStep, if_neg hhash, if_pos hc]

theorem step_text {i : ℕ} {c : UInt8} (hc : c ≠ 0x0A ∧ c ≠ 0x0D) :
    readIntStep .eatComment i c = some (.eatComment, i) := by
  rw [readIntStep, if_neg (not_or.2 hc)]

theorem step_eol {i : ℕ} {c : UInt8} (hc : c = 0x0A ∨ c = 0x0D) :
    readIntStep .eatComment i c = some (.eatWhitespace, i) := by
  rw [readIntStep, if_pos hc]

theorem step_digit {i : ℕ} {c : UInt8} (hc : isDigit c) :
    readIntStep .eatNumber i c = some (.eatNumber, (i * 10 + c.toNat - 0x30) % 4294967296) := by
  rw [readIntStep, if_pos hc]

theorem step_end {i : ℕ} {c : UInt8} (hc : ¬ isDigit c) : readIntStep .eatNumber i c = none := by
  rw [readIntStep, if_neg hc]

theorem readIntLoop_of_some {mode mode' : Mode} {i i' : ℕ} {c : UInt8}
    (h : readIntStep mode i c = some (mode', i')) (s : List UInt8) :
    readIntLoop mode i (c :: s) = readIntLoop mode' i' s := by
  rw [readIntLoop, h]

theorem readIntLoop_comment {i : ℕ} {e : UInt8} (he : e = 0x0A ∨ e = 0x0D) (s : List UInt8) :
    ∀ {text : List UInt8}, (∀ c ∈ text, c ≠ 0x0A ∧ c ≠ 0x0D) →
      readIntLoop .eatComment i (text ++ e :: s) = readIntLoop .eatWhitespace i s
  | [], _ => readIntLoop_of_some (step_eol he) s
  | c :: text, h => by
    rw [List.cons_append, readIntLoop_of_some (step_text (h c (.head _)))]
    exact readIntLoop_comment he s fun c hc => h c (.tail _ hc)

/-- White space and comments before a number are skipped. -/
theorem readIntLoop_sep {i : ℕ} (u : List UInt8) : ∀ {s : List UInt8}, Sep s →
    readIntLoop .eatWhitespace i (s ++ u) = readIntLoop .eatWhitespace i u
  | _, .nil => rfl
  | _, .space hc hs => by
    rw [List.cons_append, readIntLoop_of_some (step_space hc), readIntLoop_sep u hs]
  | _, .comment htext he hs => by
    rw [List.cons_append, readIntLoop_of_some (step_hash i), List.append_assoc, List.cons_append,
      readIntLoop_comment he _ htext, readIntLoop_sep u hs]

/-- What may follow a number: the end of the file, or a character that is not a digit. -/
def Ends (t : List UInt8) : Prop := ∀ c ∈ t.head?, ¬ isDigit c

theorem readIntLoop_ends {i : ℕ} : ∀ {t : List UInt8}, Ends t →
    readIntLoop .eatNumber i t = (i, t.head?, t.tail)
  | [], _ => rfl
  | c :: t, h => by
    rw [readIntLoop, step_end (h c rfl)]
    rfl

/-- The value of a string of decimal digits. -/
def digitsValue (i : ℕ) (ds : List ℕ) : ℕ := ds.foldl (fun i d => i * 10 + d) i

def digitChar (d : ℕ) : UInt8 := .ofNat (0x30 + d)

theorem isDigit_digitChar {d : ℕ} (hd : d < 10) : isDigit (digitChar d) := by
  unfold isDigit digitChar
  rw [UInt8.toNat_ofNat']
  omega

theorem toNat_digitChar {d : ℕ} (hd : d < 10) : (digitChar d).toNat = 0x30 + d := by
  unfold digitChar
  rw [UInt8.toNat_ofNat']
  omega

/-- Digits go on with the number, as long as it stays within a word. -/
theorem readIntLoop_digits {t : List UInt8} (ht : Ends t) : ∀ {ds : List ℕ} {i : ℕ}, (∀ d ∈ ds, d < 10) →
    digitsValue i ds < 4294967296 →
    readIntLoop .eatNumber i (ds.map digitChar ++ t) = (digitsValue i ds, t.head?, t.tail)
  | [], _, _, _ => readIntLoop_ends ht
  | d :: ds, i, hds, hlt => by
    have hd := hds d (.head _)
    have hle : i * 10 + d ≤ digitsValue (i * 10 + d) ds := le_digitsValue ds _
    have hval : (i * 10 + (digitChar d).toNat - 0x30) % 4294967296 = i * 10 + d := by
      rw [toNat_digitChar hd]
      have : digitsValue i (d :: ds) = digitsValue (i * 10 + d) ds := rfl
      omega
    rw [List.map_cons, List.cons_append, readIntLoop_of_some (step_digit (isDigit_digitChar hd)), hval]
    exact readIntLoop_digits ht (fun d hd => hds d (.tail _ hd)) hlt
where
  le_digitsValue : ∀ (ds : List ℕ) (i : ℕ), i ≤ digitsValue i ds
  | [], i => le_refl i
  | d :: ds, i => by
    have := le_digitsValue ds (i * 10 + d)
    show i ≤ digitsValue (i * 10 + d) ds
    omega

theorem digitsValue_reverse_digits (n : ℕ) : digitsValue 0 (Nat.digits 10 n).reverse = n := by
  unfold digitsValue
  rw [List.foldl_reverse]
  conv_rhs => rw [← Nat.ofDigits_digits 10 n, Nat.ofDigits_eq_foldr]
  congr 1
  funext d i
  push_cast
  ring

/-- The digits that are printed: at least one. -/
theorem decimalNat_eq (n : ℕ) : ∃ d ds, decimalNat n = (d :: ds).map digitChar ∧
    (∀ c ∈ d :: ds, c < 10) ∧ digitsValue 0 (d :: ds) = n := by
  unfold decimalNat
  by_cases h0 : n = 0
  · refine ⟨0, [], by rw [if_pos h0]; rfl, ?_, h0.symm⟩
    intro c hc
    rw [List.mem_singleton.1 hc]
    decide
  · cases hds : (Nat.digits 10 n).reverse with
    | nil => exact absurd (Nat.digits_eq_nil_iff_eq_zero.1 (List.reverse_eq_nil_iff.1 hds)) h0
    | cons d ds =>
      refine ⟨d, ds, by rw [if_neg h0]; rfl, fun c hc => ?_, by rw [← hds, digitsValue_reverse_digits]⟩
      rw [← hds, List.mem_reverse] at hc
      exact Nat.digits_lt_base (by decide) hc

/-- A printed number is read back, with the character behind it taken off the file. -/
theorem readIntLoop_decimalNat {n : ℕ} (hn : n < 4294967296) {t : List UInt8} (ht : Ends t) :
    readIntLoop .eatWhitespace 0 (decimalNat n ++ t) = (n, t.head?, t.tail) := by
  obtain ⟨d, ds, he, hlt, hval⟩ := decimalNat_eq n
  have hd := hlt d (.head _)
  have hval' : digitsValue d ds = n := by
    rw [← hval]
    show _ = digitsValue (0 * 10 + d) ds
    rw [Nat.zero_mul, Nat.zero_add]
  rw [he, List.map_cons, List.cons_append, readIntLoop_of_some (step_first (isDigit_digitChar hd)),
    toNat_digitChar hd, Nat.add_sub_cancel_left, readIntLoop_digits ht (fun c hc => hlt c (.tail _ hc))
    (by omega), hval']

/-- `read_int` gets a printed number from behind white space and comments; what follows the number is
    still to be read. -/
theorem readInt_decimalNat {c : Option UInt8} {s sep t : List UInt8} {n : ℕ} (hsep : Sep sep)
    (hn : n < 4294967296) (ht : Ends t) (hs : c.toList ++ s = sep ++ (decimalNat n ++ t)) :
    readInt c s = .ok ((n, t.head?), t.tail) := by
  unfold readInt
  rw [hs, readIntLoop_sep _ hsep, readIntLoop_decimalNat hn ht]

theorem head?_toList_append_tail : ∀ t : List UInt8, t.head?.toList ++ t.tail = t
  | [] => rfl
  | _ :: _ => rfl

/-! ### Printed samples -/

/-- Numbers in decimal, each behind white space or a comment, and then `u`. -/
inductive Tokens (u : List UInt8) : List ℕ → List UInt8 → Prop
  | done : Tokens u [] u
  | more {sep t : List UInt8} {n : ℕ} {ns : List ℕ} : Sep sep → sep ≠ [] → Tokens u ns t →
      Tokens u (n :: ns) (sep ++ (decimalNat n ++ t))

theorem Sep.ends {s : List UInt8} (h : Sep s) : Ends s := by
  cases h with
  | nil => exact fun c hc => nomatch hc
  | space hsp _ =>
    intro d hd
    cases hd
    exact not_isDigit_of_isSpace hsp
  | comment _ _ _ =>
    intro d hd
    cases hd
    decide

theorem Tokens.ends {u t : List UInt8} {ns : List ℕ} (hu : Ends u) (h : Tokens u ns t) : Ends t := by
  cases h with
  | done => exact hu
  | @more sep t n ns hs hne _ =>
    cases sep with
    | nil => exact absurd rfl hne
    | cons c sep => exact hs.ends

/-- The next number is read, and the others are still there. -/
theorem Tokens.readInt {u : List UInt8} (hu : Ends u) {n : ℕ} {ns : List ℕ} {c : Option UInt8}
    {s : List UInt8} (h : Tokens u (n :: ns) (c.toList ++ s)) (hn : n < 4294967296) :
    ∃ t, Io.readInt c s = .ok ((n, t.head?), t.tail) ∧ Tokens u ns t := by
  generalize hs : c.toList ++ s = t at h
  cases h with
  | @more sep t _ _ hsep _ hrest => exact ⟨t, readInt_decimalNat hsep hn (hrest.ends hu) hs, hrest⟩

/-- The same, for the next but one. -/
theorem Tokens.pending {u t : List UInt8} {ns : List ℕ} (h : Tokens u ns t) :
    Tokens u ns (t.head?.toList ++ t.tail) := by
  rw [head?_toList_append_tail]
  exact h

/-- The loop over the pixels, given what is left to be read before each of them. -/
theorem ppmReadLoop_ok (img : Shape) {pixel : Option UInt8 → Fil (ℕ × Option UInt8)}
    {val : ℤ × ℤ → ℕ} (Left : List (ℤ × ℤ) → Option UInt8 → List UInt8 → Prop)
    (hstep : ∀ p ps c s, Left (p :: ps) c s →
      ∃ c' s', pixel c s = .ok ((val p, c'), s') ∧ Left ps c' s') :
    ∀ {ps : List (ℤ × ℤ)} {c : Option UInt8} {s : List UInt8}, Left ps c s →
      ∃ c' s', ppmReadLoop img pixel ps c s =
        .ok ((ps.map fun p => (pixelIndex img p.1 p.2, val p), c'), s') ∧ Left [] c' s'
  | [], c, s, h => ⟨c, s, rfl, h⟩
  | p :: ps, c, s, h => by
    obtain ⟨c1, s1, hp, h1⟩ := hstep p ps c s h
    obtain ⟨c2, s2, hps, h2⟩ := ppmReadLoop_ok img Left hstep h1
    refine ⟨c2, s2, ?_, h2⟩
    rw [ppmReadLoop, Reader.bind_of_ok hp]
    exact Reader.bind_of_ok hps _

/-- The samples of a pixel: the gray, or red, green and blue with eight bits each. -/
def pixelSamples (img : Image) (p : ℤ × ℤ) : List ℕ :=
  if img.bpp = .grayscale then [img.data p.1 p.2 % 256]
  else
    let pixel := img.data p.1 p.2 % 65536
    [colorRgb565ToR8 pixel, colorRgb565ToG8 pixel, colorRgb565ToB8 pixel]

theorem colorRgb565ToR8_lt (pixel : ℕ) : colorRgb565ToR8 pixel < 2 ^ 8 := by
  have h : (pixel >>> 8) &&& 0xF8 < 2 ^ 8 := lt_of_le_of_lt Nat.and_le_right (by decide)
  exact Nat.or_lt_two_pow h (lt_of_le_of_lt (Nat.shiftRight_le _ _) h)

theorem colorRgb565ToG8_lt (pixel : ℕ) : colorRgb565ToG8 pixel < 2 ^ 8 := by
  have h : (pixel >>> 3) &&& 0xFC < 2 ^ 8 := lt_of_le_of_lt Nat.and_le_right (by decide)
  exact Nat.or_lt_two_pow h (lt_of_le_of_lt (Nat.shiftRight_le _ _) h)

theorem colorRgb565ToB8_lt (pixel : ℕ) : colorRgb565ToB8 pixel < 2 ^ 8 := by
  have h : (pixel <<< 3) &&& 0xF8 < 2 ^ 8 := lt_of_le_of_lt Nat.and_le_right (by decide)
  exact Nat.or_lt_two_pow h (lt_of_le_of_lt (Nat.shiftRight_le _ _) h)

section
variable {u : List UInt8} {img : Image}

theorem readGrayNumber_ok (hu : Ends u) (hb : img.bpp = .grayscale) (p : ℤ × ℤ) (ps : List (ℤ × ℤ))
    (c : Option UInt8) (s : List UInt8)
    (h : Tokens u ((p :: ps).flatMap (pixelSamples img)) (c.toList ++ s)) :
    ∃ c' s', readGrayNumber c s = .ok ((img.data p.1 p.2 % 256, c'), s') ∧
      Tokens u (ps.flatMap (pixelSamples img)) (c'.toList ++ s') := by
  rw [List.flatMap_cons, pixelSamples, if_pos hb] at h
  have hlt : img.data p.1 p.2 % 256 < 256 := Nat.mod_lt _ (by decide)
  obtain ⟨t, hr, ht⟩ := Tokens.readInt hu h (by omega)
  refine ⟨_, _, (Reader.bind_of_ok hr _).trans ?_, ht.pending⟩
  show Except.ok ((img.data p.1 p.2 % 256 % 256, _), _) = _
  rw [Nat.mod_mod]

theorem readRgbNumbers_ok (hu : Ends u) (hb : img.bpp = .rgb565) (p : ℤ × ℤ) (ps : List (ℤ × ℤ))
    (c : Option UInt8) (s : List UInt8)
    (h : Tokens u ((p :: ps).flatMap (pixelSamples img)) (c.toList ++ s)) :
    ∃ c' s', readRgbNumbers c s = .ok ((img.data p.1 p.2 % 65536, c'), s') ∧
      Tokens u (ps.flatMap (pixelSamples img)) (c'.toList ++ s') := by
  rw [List.flatMap_cons, pixelSamples, if_neg (by rw [hb]; decide)] at h
  generalize hpix : img.data p.1 p.2 % 65536 = pixel at h ⊢
  have hlt : pixel < 65536 := hpix ▸ Nat.mod_lt _ (by decide)
  have h1 := colorRgb565ToR8_lt pixel
  have h2 := colorRgb565ToG8_lt pixel
  have h3 := colorRgb565ToB8_lt pixel
  obtain ⟨t1, hr, ht⟩ := Tokens.readInt hu h (by omega)
  obtain ⟨t2, hg, ht⟩ := Tokens.readInt hu ht.pending (by omega)
  obtain ⟨t3, hb, ht⟩ := Tokens.readInt hu ht.pending (by omega)
  refine ⟨_, _, ?_, ht.pending⟩
  refine (Reader.bind_of_ok hr _).trans ?_
  refine (Reader.bind_of_ok hg _).trans ?_
  refine (Reader.bind_of_ok hb _).trans ?_
  show Except.ok ((colorR8G8B8ToRgb565 _ _ _ % 65536, _), _) = _
  rw [colorR8G8B8ToRgb565_of_rgb565 hlt, Nat.mod_eq_of_lt hlt]

end

/-! ### Samples as bytes -/

/-- Pixels as three bytes each. -/
def rgbBytes (words : ℤ × ℤ → ℕ) (ps : List (ℤ × ℤ)) : List UInt8 :=
  ps.flatMap fun p => [.ofNat (colorRgb565ToR8 (words p)), .ofNat (colorRgb565ToG8 (words p)),
    .ofNat (colorRgb565ToB8 (words p))]

theorem readRgbBytes_ok {words : ℤ × ℤ → ℕ} (hlt : ∀ p, words p < 65536) (tail : List UInt8) (p : ℤ × ℤ)
    (ps : List (ℤ × ℤ)) (c : Option UInt8) (s : List UInt8) (h : s = rgbBytes words (p :: ps) ++ tail) :
    ∃ c' s', readRgbBytes c s = .ok ((words p, c'), s') ∧ s' = rgbBytes words ps ++ tail := by
  refine ⟨c, _, ?_, rfl⟩
  rw [h, rgbBytes, List.flatMap_cons, List.append_assoc]
  unfold readRgbBytes
  refine (Reader.bind_of_ok (takes_readByte.ok [_] _ rfl) _).trans ?_
  refine (Reader.bind_of_ok (takes_readByte.ok [_] _ rfl) _).trans ?_
  refine (Reader.bind_of_ok (takes_readByte.ok [_] _ rfl) _).trans ?_
  have h1 := colorRgb565ToR8_lt (words p)
  have h2 := colorRgb565ToG8_lt (words p)
  have h3 := colorRgb565ToB8_lt (words p)
  have hback := colorR8G8B8ToRgb565_of_rgb565 (hlt p)
  simp only [List.getD_cons_zero, UInt8.toNat_ofNat', Reader.pure_run]
  rw [Nat.mod_eq_of_lt h1, Nat.mod_eq_of_lt h2, Nat.mod_eq_of_lt h3, hback]
  rfl

/-! ### The whole image -/

/-- The formats of the four kinds of file. -/
def ppmBpp (fmt : UInt8) : Bpp := if fmt = 0x32 ∨ fmt = 0x35 then .grayscale else .rgb565

theorem ppmReadGeometry_ok (fmt : UInt8) (hfmt : fmt ∈ [0x32, 0x33, 0x35, 0x36]) {u sep t : List UInt8}
    {w h : ℕ} {ns : List ℕ} (hu : Ends u) (hsep : Sep sep) (hw : 0 < w ∧ w < 2147483648)
    (hh : 0 < h ∧ h < 2147483648) (ht : Tokens u (h :: 255 :: ns) t) :
    ∃ t', Tokens u ns t' ∧ ppmReadGeometry (0x50 :: fmt :: (sep ++ (decimalNat w ++ t))) =
      .ok ((⟨w, h, ppmBpp fmt⟩, ⟨t'.head?, fmt⟩), t'.tail) := by
  have h1 : Io.readInt none (sep ++ (decimalNat w ++ t)) = .ok ((w, t.head?), t.tail) :=
    readInt_decimalNat hsep (by omega) (ht.ends hu) rfl
  obtain ⟨t2, h2, ht2⟩ := Tokens.readInt hu ht.pending (by omega)
  obtain ⟨t3, h3, ht3⟩ := Tokens.readInt hu ht2.pending (by decide)
  refine ⟨t3, ht3, ?_⟩
  have hne : ¬ (fmt ≠ 0x32 ∧ fmt ≠ 0x33 ∧ fmt ≠ 0x35 ∧ fmt ≠ 0x36) := by
    simp only [List.mem_cons, List.not_mem_nil, or_false] at hfmt
    tauto
  have hiw : int32 w = w := int32_of_mem (by omega) (by omega)
  have hih : int32 h = h := int32_of_mem (by omega) (by omega)
  unfold ppmReadGeometry
  rw [Reader.bind_of_ok (readByteExpect_cons _ _)]
  refine (Reader.bind_of_ok (takes_readByte.ok [fmt] _ rfl) _).trans ?_
  refine (Reader.bind_of_ok (Reader.raiseIf_of_not hne _ _) _).trans ?_
  refine (Reader.bind_of_ok h1 _).trans ?_
  refine (Reader.bind_of_ok h2 _).trans ?_
  dsimp only
  rw [hiw, hih]
  refine (Reader.bind_of_ok (Reader.raiseIf_of_not (by omega) _ _) _).trans ?_
  refine (Reader.bind_of_ok h3 _).trans ?_
  exact Reader.bind_of_ok (Reader.raiseIf_of_not (not_not.2 rfl) _ _) _

/-- The pixels of the first `n` lines are stored at their places, and nothing else. -/
theorem storeAll_linePixels (img : Shape) (hw : 0 < img.w) (hT : img.w * img.h ≤ 2147483648) {n : ℕ}
    (hn : (n : ℤ) ≤ img.h) (val : ℤ × ℤ → ℕ) (mem : ℤ → ℕ) :
    let stores := (linePixels img n).map fun p => (pixelIndex img p.1 p.2, val p)
    (∀ x y : ℕ, (x : ℤ) < img.w → y < n → storeAll mem stores (y * img.w + x) = val (x, y)) ∧
      ∀ k, (∀ x y : ℕ, (x : ℤ) < img.w → y < n → k ≠ y * img.w + x) → storeAll mem stores k = mem k := by
  intro stores
  have hidx : ∀ x y : ℕ, (x : ℤ) < img.w → y < n → pixelIndex img x y = y * img.w + x := fun x y hx hy =>
    pixelIndex_eq hT ⟨by omega, hx⟩ ⟨by omega, by omega⟩
  have hfst : stores.map Prod.fst = (List.range n).flatMap fun i : ℕ =>
      (List.range img.w.toNat).map fun j : ℕ => (i : ℤ) * img.w + j := by
    unfold stores linePixels
    rw [List.map_map, List.map_flatMap, Int.toNat_natCast]
    refine List.flatMap_congr fun i hi => ?_
    rw [List.map_map]
    refine List.map_congr_left fun j hj => ?_
    have hj := List.mem_range.1 hj
    exact hidx j i (by omega) (List.mem_range.1 hi)
  have hcast : ∀ m : ℕ, ((List.range m).map (Nat.cast : ℕ → ℤ)).Nodup := fun m =>
    List.nodup_range.map fun a b h => Int.ofNat.inj h
  refine ⟨fun x y hx hy => storeAll_of_mem ?_ ?_, fun k hk => storeAll_of_notMem fun hmem => ?_⟩
  · rw [hfst]
    refine nodup_rowMajor (hcast n) (hcast _) fun j hj => ?_
    have hj := List.mem_range.1 hj
    omega
  · rw [← hidx x y hx hy]
    refine List.mem_map.2 ⟨(x, y), ?_, rfl⟩
    unfold linePixels
    rw [Int.toNat_natCast]
    exact List.mem_flatMap.2 ⟨y, List.mem_range.2 hy, List.mem_map.2 ⟨x, List.mem_range.2 (by omega), rfl⟩⟩
  · rw [hfst] at hmem
    obtain ⟨i, hi, hmem⟩ := List.mem_flatMap.1 hmem
    obtain ⟨j, hj, rfl⟩ := List.mem_map.1 hmem
    have hj := List.mem_range.1 hj
    exact hk j i (by omega) (List.mem_range.1 hi) rfl

theorem ppmRead_of_ok {s t u : List UInt8} {img : Shape} {rs rs' : PpmReadSettings} {stores : Stores}
    (hgeo : ppmReadGeometry s = .ok ((img, rs), t))
    (hpix : ppmReadPixels img img.h rs t = .ok ((stores, rs'), u)) :
    ppmRead s = .ok (⟨img, allocSize img, stores⟩, u) := by
  unfold ppmRead
  rw [Reader.bind_of_ok hgeo]
  exact Reader.bind_of_ok hpix _

/-- There are pixels, and their number is an `int`. -/
structure Indexable (img : Image) : Prop where
  w : 0 < img.w
  h : 0 < img.h
  area : img.w * img.h ≤ 2147483647

theorem Indexable.lt {img : Image} (h : Indexable img) :
    img.w ≤ 2147483647 ∧ img.h ≤ 2147483647 := by
  obtain ⟨hw, hh, hT⟩ := h
  constructor <;> nlinarith

/-- The file is the image printed: the kind of file, width, height, the maximum and all samples in
    decimal, with white space and comments in between. -/
def PrintedAs (img : Image) (file : List UInt8) : Prop :=
  ∃ sep t u, Sep sep ∧ Sep u ∧
    Tokens u (img.h.toNat :: 255 ::
      (linePixels ⟨img.w, img.h, img.bpp⟩ img.h).flatMap (pixelSamples img)) t ∧
    file = 0x50 :: (if img.bpp = .grayscale then 0x32 else 0x33) :: (sep ++ (decimalNat img.w.toNat ++ t))

/-- The two kinds of files with printed samples: a reader for one pixel, and what it gets. -/
theorem ppmReadPixels_printed (shape : Shape) {img : Image} {u t : List UInt8} (hu : Ends u)
    (hbpp : img.bpp = .grayscale ∨ img.bpp = .rgb565)
    (ht : Tokens u ((linePixels shape shape.h).flatMap (pixelSamples img)) t) :
    ∃ c s, ppmReadPixels shape shape.h ⟨t.head?, if img.bpp = .grayscale then 0x32 else 0x33⟩ t.tail =
      .ok (((linePixels shape shape.h).map fun p => (pixelIndex shape p.1 p.2,
        if img.bpp = .grayscale then img.data p.1 p.2 % 256 else img.data p.1 p.2 % 65536), c), s) := by
  unfold ppmReadPixels
  rcases hbpp with hb | hb
  · obtain ⟨c, s, hloop, -⟩ := ppmReadLoop_ok shape (fun ps c s =>
      Tokens u (ps.flatMap (pixelSamples img)) (c.toList ++ s)) (readGrayNumber_ok hu hb) ht.pending
    simp only [if_pos hb]
    exact ⟨_, _, Reader.bind_of_ok hloop _⟩
  · obtain ⟨c, s, hloop, -⟩ := ppmReadLoop_ok shape (fun ps c s =>
      Tokens u (ps.flatMap (pixelSamples img)) (c.toList ++ s)) (readRgbNumbers_ok hu hb) ht.pending
    have hne : ¬ img.bpp = .grayscale := by rw [hb]; decide
    simp only [if_neg hne]
    exact ⟨_, _, Reader.bind_of_ok hloop _⟩

/-- A printed image is read back. -/
theorem ppmRead_printed {img : Image} {file : List UInt8} (hidx : Indexable img)
    (hbpp : img.bpp = .grayscale ∨ img.bpp = .rgb565) (hp : PrintedAs img file) :
    ∃ l t, ppmRead file = .ok (l, t) ∧ ∀ mem, IsSubimage img ⟨0, 0, img.w, img.h⟩ (l.image mem) := by
  obtain ⟨sep, t, u, hsep, hu, ht, rfl⟩ := hp
  obtain ⟨hwlt, hhlt⟩ := hidx.lt
  have hw := hidx.w
  have hh := hidx.h
  obtain ⟨t', ht', hgeo⟩ := ppmReadGeometry_ok
    (if img.bpp = .grayscale then 0x32 else 0x33) (by split <;> decide) hu.ends hsep
    (show 0 < img.w.toNat ∧ img.w.toNat < 2147483648 by omega) (by omega) ht
  rw [Int.toNat_of_nonneg hw.le, Int.toNat_of_nonneg hh.le] at hgeo
  obtain ⟨c, s, hpix⟩ := ppmReadPixels_printed
    ⟨img.w, img.h, ppmBpp (if img.bpp = .grayscale then 0x32 else 0x33)⟩ hu.ends hbpp ht'
  refine ⟨_, _, ppmRead_of_ok hgeo hpix, fun mem => ?_⟩
  obtain ⟨hval, -⟩ := storeAll_linePixels
    ⟨img.w, img.h, ppmBpp (if img.bpp = .grayscale then 0x32 else 0x33)⟩ (n := img.h.toNat) hw
    (by dsimp only; linarith [hidx.area]) (Int.toNat_of_nonneg hh.le).le
    (fun p => if img.bpp = .grayscale then img.data p.1 p.2 % 256 else img.data p.1 p.2 % 65536) mem
  rw [Int.toNat_of_nonneg hh.le] at hval
  rcases hbpp with hb | hb
  · refine isSubimage_of_values 8 ?_ (.inl ⟨hb, rfl⟩) fun x y hx hy => ?_
    · simp only [if_pos hb]
      rfl
    · rw [zero_add, zero_add]
      exact (hval x y hx (by dsimp only at hy; omega)).trans (if_pos hb)
  · have hne : ¬ img.bpp = .grayscale := by rw [hb]; decide
    refine isSubimage_of_values 16 ?_ (.inr ⟨hb, rfl⟩) fun x y hx hy => ?_
    · simp only [if_neg hne]
      rfl
    · rw [zero_add, zero_add]
      exact (hval x y hx (by dsimp only at hy; omega)).trans (if_neg hne)

/-! ### Round trip -/

/-- The file that `ppm_write_subimg` writes, followed by whatever a longer file of that name had there,
    is read back as the part of the image in the rectangle. -/
def PpmRoundtrip (stack : ℕ → UInt8) (words : ℤ → ℤ → ℕ) (img : Image) (r : Rectangle) : Prop :=
  ∃ file, ppmWriteSubimg stack words img r = .ok file ∧ ∀ tail, ∃ l t,
    ppmRead (file ++ tail) = .ok (l, t) ∧ ∀ mem, IsSubimage img (r.clip img.w img.h) (l.image mem)

theorem length_decimalNat_le {n : ℕ} (hn : n < 100000) : (decimalNat n).length ≤ 5 := by
  unfold decimalNat
  split
  · decide
  · rw [List.length_map, List.length_reverse]
    exact (Nat.digits_length_le_iff (by decide) n).2 hn

/-- The buffer is exactly big enough. -/
theorem writeBuffer_ppmHeader (stack : ℕ → UInt8) {rect : Rectangle} (hw : 0 < rect.w ∧ rect.w ≤ 32767)
    (hh : 0 < rect.h ∧ rect.h ≤ 32767) (fmt : UInt8) :
    writeBuffer stack (ppmHeader fmt rect) = ppmHeader fmt rect := by
  have hlen : (ppmHeader fmt rect).length ≤ 19 := by
    have h1 := length_decimalNat_le (show rect.w.natAbs < 100000 by omega)
    have h2 := length_decimalNat_le (show rect.h.natAbs < 100000 by omega)
    unfold ppmHeader decimal
    rw [if_neg (by omega), if_neg (by omega)]
    simp only [List.length_append, List.length_cons, List.length_nil]
    omega
  unfold writeBuffer
  apply List.ext_getElem
  · simp
  · intro k h1 h2
    rw [List.getElem_mapIdx, if_pos (by omega)]

/-- The header is read up to the last character, and that one is taken off the file. -/
theorem ppmReadGeometry_header (fmt : UInt8) (hfmt : fmt ∈ [0x32, 0x33, 0x35, 0x36]) {rect : Rectangle}
    (hw : 0 < rect.w ∧ rect.w ≤ 32767) (hh : 0 < rect.h ∧ rect.h ≤ 32767) (data : List UInt8) :
    ppmReadGeometry (ppmHeader fmt rect ++ data) =
      .ok ((⟨rect.w, rect.h, ppmBpp fmt⟩, ⟨some 0x0A, fmt⟩), data) := by
  have hsep : ∀ c, isSpace c → Sep [c] := fun c hc => .space hc .nil
  have hends : Ends (0x0A :: data) := by
    intro c hc
    cases hc
    decide
  have htok : Tokens (0x0A :: data) [rect.h.toNat, 255]
      ([0x20] ++ (decimalNat rect.h.toNat ++ ([0x0A] ++ (decimalNat 255 ++ 0x0A :: data)))) :=
    .more (hsep _ (.inl rfl)) (List.cons_ne_nil _ _)
      (.more (hsep _ (.inr (by decide))) (List.cons_ne_nil _ _) .done)
  obtain ⟨t, ht, hgeo⟩ := ppmReadGeometry_ok fmt hfmt hends (hsep 0x0A (.inr (by decide)))
    (show 0 < rect.w.toNat ∧ rect.w.toNat < 2147483648 by omega) (by omega) htok
  cases ht
  rw [Int.toNat_of_nonneg hw.1.le, Int.toNat_of_nonneg hh.1.le] at hgeo
  have h255 : decimalNat 255 = [0x32, 0x35, 0x35] := by decide
  have hdec : ∀ n : ℤ, 0 < n → decimal n = decimalNat n.toNat := by
    intro n hn
    unfold decimal
    rw [if_neg (by omega), show n.natAbs = n.toNat by omega]
  unfold ppmHeader
  rw [hdec _ hw.1, hdec _ hh.1]
  rw [h255] at hgeo
  simp only [List.append_assoc, List.cons_append, List.nil_append, List.head?_cons, List.tail_cons]
    at hgeo ⊢
  exact hgeo

section
variable {stack : ℕ → UInt8} {words : ℤ → ℤ → ℕ} {img : Image} {r rect : Rectangle}

/-- The rows of a grayscale image as they are written, on either path. -/
def grayRows (img : Image) (rect : Rectangle) : List UInt8 :=
  (List.range rect.h.toNat).flatMap fun i : ℕ => (List.range rect.w.toNat).map fun j : ℕ =>
    .ofNat (img.data (rect.x + j) (rect.y + i))

theorem ppmWriteSubimg_gray (hbpp : img.bpp = .grayscale)
    (hrect : rectangleSubimg img.w img.h r = some rect) (hin : Inside img rect) :
    ppmWriteSubimg stack words img r = .ok (ppmHeader 0x35 rect ++ grayRows img rect) := by
  have hrows : (List.range rect.h.toNat).flatMap (fun i : ℕ =>
      writePixels img ((rect.y + i) * img.w + rect.x) rect.w.toNat) = grayRows img rect := by
    have hw := hin.w
    exact List.flatMap_congr fun i _ => writePixels_row hin.x.1 (by have := hin.x.2; omega)
  have hw := hin.w
  simp only [ppmWriteSubimg, hrect, if_pos hbpp]
  rw [writeBuffer_ppmHeader stack hin.w hin.h, show uint32 rect.w = rect.w.toNat by unfold uint32; omega]
  split_ifs with hfast
  · rw [writePixels_rows hin hfast.1 hfast.2, hrows]
  · rw [hrows]

theorem ppmRead_gray (hin : Inside img rect) (hbpp : img.bpp = .grayscale) (tail : List UInt8) :
    ∃ l t, ppmRead (ppmHeader 0x35 rect ++ grayRows img rect ++ tail) = .ok (l, t) ∧
      ∀ mem, IsSubimage img rect (l.image mem) := by
  have hw := hin.w
  have hh := hin.h
  have hrow : ∀ i : ℕ, ((List.range rect.w.toNat).map fun j : ℕ =>
      UInt8.ofNat (img.data (rect.x + j) (rect.y + i))).length = rect.w.toNat := fun i => by
    rw [List.length_map, List.length_range]
  have hlen : (grayRows img rect).length = rect.h.toNat * rect.w.toNat := length_flatMap_range hrow _
  have hsize : uint32 (rect.h * rect.w) = (grayRows img rect).length := by
    have hle := mul_le_mul hh.2 hw.2 hw.1.le (by norm_num)
    have hu := uint32_of_mem (x := rect.h * rect.w) (mul_nonneg hh.1.le hw.1.le) (by omega)
    rw [hlen]
    zify
    rw [hu, Int.toNat_of_nonneg hw.1.le, Int.toNat_of_nonneg hh.1.le]
  have hpix : ppmReadPixels ⟨rect.w, rect.h, ppmBpp 0x35⟩ rect.h ⟨some 0x0A, 0x35⟩
      (grayRows img rect ++ tail) = .ok (((grayRows img rect).mapIdx fun k b => ((k : ℤ), b.toNat),
        ⟨some 0x0A, 0x35⟩), tail) := by
    unfold ppmReadPixels
    rw [if_neg (by decide), if_neg (by decide), if_pos rfl]
    exact Reader.bind_of_ok ((takes_readData _).ok _ _ hsize.symm) _
  have hgeo := ppmReadGeometry_header 0x35 (by decide) hw hh (grayRows img rect ++ tail)
  rw [← List.append_assoc] at hgeo
  refine ⟨_, _, ppmRead_of_ok hgeo hpix, fun mem => ?_⟩
  refine isSubimage_of_values 8 rfl (.inl ⟨hbpp, rfl⟩) fun x y hx hy => ?_
  have hx' : x < rect.w.toNat := by omega
  have hy' : y < rect.h.toNat := by omega
  have hk : (y * rect.w.toNat + x : ℕ) < (grayRows img rect).length := by
    have : (y + 1) * rect.w.toNat ≤ rect.h.toNat * rect.w.toNat := Nat.mul_le_mul_right _ hy'
    rw [Nat.add_mul] at this
    omega
  have hval := storeAll_bytes_of_lt (grayRows img rect) mem hk
  rw [show ((y * rect.w.toNat + x : ℕ) : ℤ) = y * rect.w + x by
    push_cast; rw [Int.toNat_of_nonneg hw.1.le]] at hval
  refine hval.trans ?_
  unfold grayRows
  rw [getD_flatMap_range hrow hy' hx']
  simp [hx']

/-- The pixels of an RGB565 image under the rectangle. -/
def wordsAt (img : Image) (rect : Rectangle) (p : ℤ × ℤ) : ℕ :=
  img.data (rect.x + p.1) (rect.y + p.2) % 65536

theorem ppmWriteSubimg_rgb565 (hbpp : img.bpp = .rgb565)
    (hrect : rectangleSubimg img.w img.h r = some rect) (hin : Inside img rect) (b : Bpp) :
    ppmWriteSubimg stack words img r = .ok (ppmHeader 0x36 rect ++
      rgbBytes (wordsAt img rect) (linePixels ⟨rect.w, rect.h, b⟩ rect.h)) := by
  have hne : ¬ img.bpp = .grayscale := by rw [hbpp]; decide
  simp only [ppmWriteSubimg, hrect, if_neg hne, rgb565At, if_pos hbpp]
  rw [writeBuffer_ppmHeader stack hin.w hin.h]
  congr 2
  unfold rgbBytes linePixels
  rw [List.flatMap_assoc]
  refine List.flatMap_congr fun i _ => ?_
  rw [List.flatMap_map]
  rfl

theorem ppmRead_rgb565 (hin : Inside img rect) (hbpp : img.bpp = .rgb565) (tail : List UInt8) :
    ∃ l t, ppmRead (ppmHeader 0x36 rect ++
      rgbBytes (wordsAt img rect) (linePixels ⟨rect.w, rect.h, ppmBpp 0x36⟩ rect.h) ++ tail) = .ok (l, t) ∧
      ∀ mem, IsSubimage img rect (l.image mem) := by
  have hw := hin.w
  have hh := hin.h
  obtain ⟨c, s, hloop, -⟩ := ppmReadLoop_ok ⟨rect.w, rect.h, ppmBpp 0x36⟩
    (fun ps _ s => s = rgbBytes (wordsAt img rect) ps ++ tail)
    (readRgbBytes_ok (fun p => Nat.mod_lt _ (by decide)) tail) (c := some 0x0A) rfl
  have hpix : ppmReadPixels ⟨rect.w, rect.h, ppmBpp 0x36⟩ rect.h ⟨some 0x0A, 0x36⟩ _ =
      .ok ((_, ⟨c, 0x36⟩), s) := Reader.bind_of_ok hloop _
  have hgeo := ppmReadGeometry_header 0x36 (by decide) hw hh
    (rgbBytes (wordsAt img rect) (linePixels ⟨rect.w, rect.h, ppmBpp 0x36⟩ rect.h) ++ tail)
  rw [← List.append_assoc] at hgeo
  refine ⟨_, _, ppmRead_of_ok hgeo hpix, fun mem => ?_⟩
  have harea := mul_le_mul hw.2 hh.2 hh.1.le (by norm_num)
  obtain ⟨hval, -⟩ := storeAll_linePixels ⟨rect.w, rect.h, ppmBpp 0x36⟩ (n := rect.h.toNat) hw.1
    (by dsimp only; omega) (Int.toNat_of_nonneg hh.1.le).le (wordsAt img rect) mem
  rw [Int.toNat_of_nonneg hh.1.le] at hval
  exact isSubimage_of_values 16 rfl (.inr ⟨hbpp, rfl⟩) fun x y hx hy => hval x y hx (by omega)

end

/-- An image that is written under sizes a rectangle can hold is read back from the file, and so is
    every image from a file it is printed to. -/
theorem ppm_roundtrip_and_grammar :
    (∀ (stack : ℕ → UInt8) (words : ℤ → ℤ → ℕ) (img : Image) (r : Rectangle),
      (img.bpp = .grayscale ∨ img.bpp = .rgb565) → r.Ok → Meets img.w img.h r →
      SubimgFits img.w img.h r → PpmRoundtrip stack words img r) ∧
    (∀ (img : Image) (file : List UInt8), (img.bpp = .grayscale ∨ img.bpp = .rgb565) → Indexable img →
      PrintedAs img file → ∃ l t, ppmRead file = .ok (l, t) ∧
        ∀ mem, IsSubimage img ⟨0, 0, img.w, img.h⟩ (l.image mem)) := by
  refine ⟨fun stack words img r hbpp hr hmeet hfit => ?_,
    fun img file hbpp hidx hp => ppmRead_printed hidx hbpp hp⟩
  have hrect := rectangleSubimg_eq_clip hr hmeet hfit
  have hin := Inside.clip hr hmeet
  rcases hbpp with hb | hb
  · exact ⟨_, ppmWriteSubimg_gray hb hrect hin, ppmRead_gray hin hb⟩
  · exact ⟨_, ppmWriteSubimg_rgb565 hb hrect hin (ppmBpp 0x36), ppmRead_rgb565 hin hb⟩

/-- Three by two grays. -/
def sixGrays : Image := ⟨3, 2, .grayscale, fun x y => (7 + 40 * x + 100 * y).toNat⟩

/-- They printed, with a comment behind the kind of file and one between the rows. -/
def sixGraysPrinted : List UInt8 :=
  [0x50, 0x32, 0x23, 0x61, 0x0A, 0x33, 0x20, 0x32, 0x0A, 0x32, 0x35, 0x35, 0x20, 0x37, 0x20, 0x34, 0x37,
    0x20, 0x38, 0x37, 0x0A, 0x23, 0x62, 0x0A, 0x31, 0x30, 0x37, 0x20, 0x31, 0x34, 0x37, 0x20, 0x31, 0x38,
    0x37, 0x0A]

theorem sixGrays_printedAs : PrintedAs sixGrays sixGraysPrinted := by
  have hblank : Sep [0x20] := .space (.inl rfl) .nil
  have hline : ∀ s, Sep s → Sep (0x0A :: s) := fun s hs => .space (.inr (by decide)) hs
  have hcomment : ∀ c : UInt8, c ≠ 0x0A ∧ c ≠ 0x0D → Sep [0x23, c, 0x0A] := fun c hc =>
    Sep.comment (by simpa using hc : ∀ d ∈ [c], d ≠ 0x0A ∧ d ≠ 0x0D) (.inl rfl) .nil
  have hne : ∀ (c : UInt8) (s : List UInt8), c :: s ≠ [] := List.cons_ne_nil
  have hsecond : Tokens [0x0A] [107, 147, 187] _ :=
    .more (hline _ (hcomment 0x62 (by decide))) (hne _ _) (.more hblank (hne _ _)
      (.more hblank (hne _ _) .done))
  have hfirst : Tokens [0x0A] [7, 47, 87, 107, 147, 187] _ :=
    .more hblank (hne _ _) (.more hblank (hne _ _) (.more hblank (hne _ _) hsecond))
  refine ⟨[0x23, 0x61, 0x0A], _, [0x0A], hcomment 0x61 (by decide), hline _ .nil,
    .more hblank (hne _ _) (.more (hline _ .nil) (hne _ _) hfirst), ?_⟩
  decide

/-- Two of the grays are written and read back, and all of them from the printed file. -/
theorem ppm_roundtrip_and_grammar_sample :
    PpmRoundtrip (fun _ => 0) (fun _ _ => 0) sixGrays ⟨1, 1, 7, 7⟩ ∧
      ∃ l t, ppmRead sixGraysPrinted = .ok (l, t) ∧
        ∀ mem, IsSubimage sixGrays ⟨0, 0, 3, 2⟩ (l.image mem) := by
  constructor
  · refine ppm_roundtrip_and_grammar.1 _ _ sixGrays ⟨1, 1, 7, 7⟩ (.inl rfl) ?_ ?_ ?_
    · exact ⟨by decide, by decide, by decide, by decide⟩
    · exact ⟨by decide, by decide⟩
    · exact ⟨by decide, by decide⟩
  · exact ppm_roundtrip_and_grammar.2 sixGrays sixGraysPrinted (.inl rfl)
      ⟨by decide, by decide, by decide⟩ sixGrays_printedAs

/-- An image one pixel wider than a rectangle can say is refused. -/
theorem ppm_wide_image :
    Rectangle.Ok ⟨0, 0, 1, 1⟩ ∧ Meets 32768 1 ⟨0, 0, 1, 1⟩ ∧
      ¬ PpmRoundtrip (fun _ => 0) (fun _ _ => 0) ⟨32768, 1, .grayscale, fun _ _ => 0⟩ ⟨0, 0, 1, 1⟩ := by
  refine ⟨⟨by decide, by decide, by decide, by decide⟩, ⟨by decide, by decide⟩, ?_⟩
  rintro ⟨file, hwrite, -⟩
  have hraise : ppmWriteSubimg (fun _ => 0) (fun _ _ => 0) ⟨32768, 1, .grayscale, fun _ _ => 0⟩
      ⟨0, 0, 1, 1⟩ = .error .noIntersection := rfl
  exact nomatch hraise.symm.trans hwrite

end OpenMV.Io
