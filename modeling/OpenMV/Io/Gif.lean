import OpenMV.Io.Pixels
import OpenMV.Schemes.Gif
import OpenMV.Schemes.Stores

/-! GIF files | scheme:codec | source:src/src/openmv/omv/img/gif.c

    The encoder does not compress: each pixel is a code of eight bits, and a clear code before every 126
    of them keeps the decoder from asking for nine. What the decoder gives back is therefore what was
    written, and the question left is which colour was written for a pixel. A Bayer pixel gets the colour
    of the row that its block of 126 begins in. -/

namespace OpenMV.Io
open Schemes Vision

/-- The value a `uint16_t` holds after `x` is stored in it. -/
def uint16 (x : ℤ) : ℕ := (x % 65536).toNat

/-! ### Colours -/

/-- `img->pixels[k]` -/
def pixelsAt (img : Image) (k : ℤ) : ℕ := img.data (k % img.w) (k / img.w)

def imGetRawPixel (img : Image) (x y : ℤ) : ℕ := img.data x y % 256

/-- `COLOR_BAYER_TO_RGB565` -/
def colorBayerToRgb565 (img : Image) (x y : ℤ) : ℕ × ℕ × ℕ :=
  let p := imGetRawPixel img
  let corners := (p (x - 1) (y - 1) + p (x + 1) (y - 1) + p (x - 1) (y + 1) + p (x + 1) (y + 1)) >>> 2
  let sides := (p x (y - 1) + p x (y + 1) + p (x - 1) y + p (x + 1) y) >>> 2
  let rows := (p x (y - 1) + p x (y + 1)) >>> 1
  let columns := (p (x - 1) y + p (x + 1) y) >>> 1
  let (r, g, b) :=
    if y % 2 = 0 then if x % 2 = 0 then (corners, sides, p x y) else (rows, p x y, columns)
    else if x % 2 = 0 then (columns, p x y, rows) else (p x y, sides, corners)
  (r >>> 3, g >>> 2, b >>> 3)

/-- `(red<<5) | (green<<2) | blue` -/
def packIndex (red green blue : ℕ) : ℕ := (red <<< 5) ||| (green <<< 2) ||| blue

/-- The table of colours. What is computed as a `double` is never a whole number. -/
def gifColor (color : Bool) (i : ℕ) : List UInt8 :=
  if color then
    let red := (2 * (((i &&& 0x60) >>> 5) * 255) + 3) / 6
    let green := (2 * (((i &&& 0x1C) >>> 2) * 255) + 7) / 14
    let blue := (2 * ((i &&& 0x3) * 255) + 3) / 6
    [.ofNat red, .ofNat green, .ofNat blue]
  else
    let gray := (2 * (i * 255) + 127) / 254
    [.ofNat gray, .ofNat gray, .ofNat gray]

/-! ### Writing -/

def gifOpen (fp : WFil) (width height : ℤ) (color loop : Bool) : WFil :=
  let fp := writeData fp [0x47, 0x49, 0x46, 0x38, 0x39, 0x61] -- GIF89a
  let fp := writeWord fp (uint16 width)
  let fp := writeWord fp (uint16 height)
  let fp := writeData fp [0xF6, 0x00, 0x00]
  let fp := (List.range 128).foldl (fun fp i => writeData fp (gifColor color i)) fp
  if loop then
    let fp := writeData fp [0x21, 0xFF, 0x0B]
    let fp := writeData fp [0x4E, 0x45, 0x54, 0x53, 0x43, 0x41, 0x50, 0x45, 0x32, 0x2E, 0x30] -- NETSCAPE2.0
    writeData fp [0x03, 0x01, 0x00, 0x00, 0x00]
  else fp

def blockSize : ℤ := 126

/-- `img->pixels[(y*BLOCK_SIZE)+x]>>1` -/
def gsIndex (img : Image) (y x : ℤ) : ℕ := (pixelsAt img (y * blockSize + x) % 256) >>> 1

def rgb565Index (img : Image) (y x : ℤ) : ℕ :=
  let pixel : ℤ := (pixelsAt img (y * blockSize + x) % 65536 : ℕ)
  let red := (colorRgb565ToR5 pixel).toNat >>> 3
  let green := (colorRgb565ToG6 pixel).toNat >>> 3
  let blue := (colorRgb565ToB5 pixel).toNat >>> 3
  packIndex red green blue

def bayerIndex (img : Image) (y x : ℤ) : ℕ :=
  let xOffs := (y * blockSize + x) % img.w
  let yOffs := (y * blockSize) / img.w
  let (r, g, b) :=
    if xOffs > 0 ∧ yOffs > 0 ∧ xOffs < img.w - 1 ∧ yOffs < img.h - 1 then colorBayerToRgb565 img xOffs yOffs
    else (0, 0, 0)
  packIndex (r >>> 3) (g >>> 3) (b >>> 3)

/-- The loop all formats have, over blocks of 126 pixels. -/
def gifBlocks (fp : WFil) (bytes : ℤ) (index : ℤ → ℤ → ℕ) : WFil :=
  let blocks := (int32 (bytes + blockSize - 1)).tdiv blockSize
  (List.range blocks.toNat).foldl (fun fp (y : ℕ) =>
    let size := min blockSize (bytes - y * blockSize)
    let fp := writeByte fp (1 + size).toNat
    let fp := writeByte fp 0x80 -- clear code
    (List.range size.toNat).foldl (fun fp (x : ℕ) => writeByte fp (index y x)) fp) fp

def gifAddFrame (fp : WFil) (img : Image) (delay : UInt16) : WFil :=
  let fp :=
    if delay ≠ 0 then
      let fp := writeData fp [0x21, 0xF9, 0x04, 0x04]
      let fp := writeWord fp delay.toNat
      writeWord fp 0 -- end
    else fp
  let fp := writeByte fp 0x2C
  let fp := writeLong fp 0
  let fp := writeWord fp (uint16 img.w)
  let fp := writeWord fp (uint16 img.h)
  let fp := writeData fp [0x00, 0x07] -- 7-bits
  let bytes := int32 (img.h * img.w)
  let fp :=
    match img.bpp with
    | .grayscale => gifBlocks fp bytes (gsIndex img)
    | .rgb565 => gifBlocks fp bytes (rgb565Index img)
    | .bayer => gifBlocks fp bytes (bayerIndex img)
    | .binary | .jpeg => fp
  writeData fp [0x01, 0x81, 0x00] -- end code

def gifClose (fp : WFil) : WFil := writeByte fp 0x3B

/-- The file of a movie: each frame with the delay it is added with. -/
def gifFile (width height : ℤ) (color loop : Bool) (frames : List (Image × UInt16)) : List UInt8 :=
  (gifClose (frames.foldl (fun fp f => gifAddFrame fp f.1 f.2)
    (gifOpen (fileOf []) width height color loop))).bytes

/-! ### The bytes -/

/-- The extension that makes a player begin again. -/
def loopBytes (loop : Bool) : List UInt8 :=
  if loop then
    0x21 :: 0xFF :: ([[0x4E, 0x45, 0x54, 0x53, 0x43, 0x41, 0x50, 0x45, 0x32, 0x2E, 0x30], [1, 0, 0]].flatMap
      Gif.piece ++ [0])
  else []

theorem gifOpen_fileOf (bytes : List UInt8) (width height : ℤ) (color loop : Bool) :
    gifOpen (fileOf bytes) width height color loop =
      fileOf (bytes ++ (Gif.signature ++ le16 (uint16 width) ++ le16 (uint16 height) ++ [0xF6, 0, 0] ++
        (List.range 128).flatMap (gifColor color) ++ loopBytes loop)) := by
  have hcolor : ∀ bytes, (List.range 128).foldl (fun fp i => writeData fp (gifColor color i))
      (fileOf bytes) = fileOf (bytes ++ (List.range 128).flatMap (gifColor color)) :=
    foldl_fileOf fun bytes i _ => writeData_fileOf bytes (gifColor color i)
  unfold gifOpen
  simp only [writeData_fileOf, writeWord_fileOf, hcolor]
  cases loop
  · rw [if_neg (by decide), loopBytes, if_neg (by decide), List.append_nil]
    simp only [List.append_assoc, Gif.signature]
  · rw [if_pos rfl, loopBytes, if_pos rfl]
    simp only [List.append_assoc, Gif.signature]
    rfl

/-- The indices of a block. -/
def blockIndices (n : ℕ) (index : ℤ → ℤ → ℕ) (y : ℕ) : List ℕ :=
  (List.range (min 126 (n - y * 126))).map fun x : ℕ => index y x

theorem gifBlocks_fileOf (bytes : List UInt8) {n : ℕ} (hn : n ≤ 6291456) (index : ℤ → ℤ → ℕ) :
    gifBlocks (fileOf bytes) n index = fileOf (bytes ++ ((List.range ((n + 125) / 126)).map fun y =>
      0x80 :: (blockIndices n index y).map UInt8.ofNat).flatMap Gif.piece) := by
  have hblocks : ((int32 (n + blockSize - 1)).tdiv blockSize).toNat = (n + 125) / 126 := by
    unfold blockSize
    rw [int32_of_mem (by omega) (by omega), Int.tdiv_eq_ediv_of_nonneg (by omega)]
    omega
  unfold gifBlocks
  dsimp only
  rw [hblocks, List.flatMap_map]
  refine foldl_fileOf (fun bytes y hy => ?_) bytes
  have hy := List.mem_range.1 hy
  have hsize : (min blockSize (n - y * blockSize)).toNat = min 126 (n - y * 126) := by
    unfold blockSize
    omega
  have hrow : ∀ bytes, (List.range (min 126 (n - y * 126))).foldl (fun fp (x : ℕ) => writeByte fp (index y x))
      (fileOf bytes) = fileOf (bytes ++ (List.range (min 126 (n - y * 126))).flatMap fun x : ℕ =>
        [UInt8.ofNat (index y x)]) := by
    refine foldl_fileOf ?_
    exact fun bytes x _ => writeByte_fileOf bytes (index y x)
  have hlen : (1 + min blockSize (n - y * blockSize)).toNat = min 126 (n - y * 126) + 1 := by
    unfold blockSize
    omega
  rw [hsize, hlen, writeByte_fileOf, writeByte_fileOf, hrow, ← List.map_eq_flatMap, Gif.piece,
    List.length_cons, blockIndices, List.map_map, List.length_map, List.length_range, List.append_assoc,
    List.append_assoc]
  rfl

/-- The extension with the delay. -/
def delayBytes (delay : UInt16) : List UInt8 :=
  if delay ≠ 0 then 0x21 :: 0xF9 :: ([0x04 :: (le16 delay.toNat ++ [0])].flatMap Gif.piece ++ [0]) else []

/-- The index the encoder writes for a pixel. -/
def writtenIndex (img : Image) : ℤ → ℤ → ℕ :=
  match img.bpp with
  | .grayscale => gsIndex img
  | .rgb565 => rgb565Index img
  | .bayer => bayerIndex img
  | .binary | .jpeg => fun _ _ => 0

/-- The pieces of an image: a clear code and at most 126 indices each, and the end code. -/
def framePieces (img : Image) (n : ℕ) : List (List UInt8) :=
  ((List.range ((n + 125) / 126)).map fun y =>
    0x80 :: (blockIndices n (writtenIndex img) y).map UInt8.ofNat) ++ [[0x81]]

def gifFrameBytes (img : Image) (delay : UInt16) (n : ℕ) : List UInt8 :=
  delayBytes delay ++ 0x2C :: (le32 0 ++ le16 (uint16 img.w) ++ le16 (uint16 img.h) ++ [0, 7] ++
    ((framePieces img n).flatMap Gif.piece ++ [0]))

theorem gifAddFrame_fileOf (bytes : List UInt8) {img : Image} {n : ℕ} (hn : img.h * img.w = n)
    (hram : n ≤ 6291456) (hb : img.bpp = .grayscale ∨ img.bpp = .rgb565 ∨ img.bpp = .bayer)
    (delay : UInt16) : gifAddFrame (fileOf bytes) img delay = fileOf (bytes ++ gifFrameBytes img delay n) := by
  have hint : int32 (img.h * img.w) = n := by
    rw [hn]
    exact int32_of_mem (by omega) (by omega)
  have hdelay : (if delay ≠ 0 then writeWord (writeWord (writeData (fileOf bytes) [0x21, 0xF9, 0x04, 0x04])
      delay.toNat) 0 else fileOf bytes) = fileOf (bytes ++ delayBytes delay) := by
    unfold delayBytes
    split_ifs with h
    · simp only [writeData_fileOf, writeWord_fileOf, List.append_assoc]
      rfl
    · rw [List.append_nil]
  have hpieces : ∀ bytes, (match img.bpp with
      | .grayscale => gifBlocks (fileOf bytes) n (gsIndex img)
      | .rgb565 => gifBlocks (fileOf bytes) n (rgb565Index img)
      | .bayer => gifBlocks (fileOf bytes) n (bayerIndex img)
      | .binary | .jpeg => fileOf bytes) = gifBlocks (fileOf bytes) n (writtenIndex img) := by
    intro bytes
    unfold writtenIndex
    rcases hb with hb | hb | hb <;> rw [hb]
  unfold gifAddFrame
  dsimp only
  rw [hdelay, hint]
  simp only [writeByte_fileOf, writeLong_fileOf, writeWord_fileOf, writeData_fileOf]
  rw [hpieces, gifBlocks_fileOf _ hram, writeData_fileOf]
  unfold gifFrameBytes framePieces
  rw [List.flatMap_append]
  simp only [List.append_assoc]
  rfl

/-! ### Decoding -/

/-- Two bits of red, three of green and two of blue. -/
theorem packIndex_eq {red green blue : ℕ} (hg : green < 8) (hb : blue < 4) :
    packIndex red green blue = red * 32 + green * 4 + blue := by
  have h1 : red <<< 5 ||| green <<< 2 = red <<< 5 + green <<< 2 :=
    (Nat.shiftLeft_add_eq_or_of_lt (by rw [Nat.shiftLeft_eq]; omega) red).symm
  have h2 : (red * 8 + green) <<< 2 = red <<< 5 + green <<< 2 := by
    simp only [Nat.shiftLeft_eq]
    ring
  rw [packIndex, h1, ← h2, ← Nat.shiftLeft_add_eq_or_of_lt (show blue < 2 ^ 2 from hb), Nat.shiftLeft_eq]
  ring

theorem packIndex_lt {red green blue : ℕ} (hr : red < 4) (hg : green < 8) (hb : blue < 4) :
    packIndex red green blue < 128 := by
  rw [packIndex_eq hg hb]
  omega

theorem imGetRawPixel_lt (img : Image) (x y : ℤ) : imGetRawPixel img x y < 256 :=
  Nat.mod_lt _ (by decide)

theorem mean_two_lt {a b : ℕ} (ha : a < 256) (hb : b < 256) : (a + b) >>> 1 < 256 := by
  rw [Nat.shiftRight_eq_div_pow]
  omega

theorem mean_four_lt {a b c d : ℕ} (ha : a < 256) (hb : b < 256) (hc : c < 256) (hd : d < 256) :
    (a + b + c + d) >>> 2 < 256 := by
  rw [Nat.shiftRight_eq_div_pow]
  omega

theorem shifted_lt {r g b : ℕ} (hr : r < 256) (hg : g < 256) (hb : b < 256) :
    r >>> 3 < 32 ∧ g >>> 2 < 64 ∧ b >>> 3 < 32 := by
  rw [Nat.shiftRight_eq_div_pow, Nat.shiftRight_eq_div_pow, Nat.shiftRight_eq_div_pow]
  omega

theorem colorBayerToRgb565_lt (img : Image) (x y : ℤ) : (colorBayerToRgb565 img x y).1 < 32 ∧
    (colorBayerToRgb565 img x y).2.1 < 64 ∧ (colorBayerToRgb565 img x y).2.2 < 32 := by
  have hp := imGetRawPixel_lt img
  have hcorners := mean_four_lt (hp (x - 1) (y - 1)) (hp (x + 1) (y - 1)) (hp (x - 1) (y + 1)) (hp (x + 1) (y + 1))
  have hsides := mean_four_lt (hp x (y - 1)) (hp x (y + 1)) (hp (x - 1) y) (hp (x + 1) y)
  have hrows := mean_two_lt (hp x (y - 1)) (hp x (y + 1))
  have hcolumns := mean_two_lt (hp (x - 1) y) (hp (x + 1) y)
  unfold colorBayerToRgb565
  dsimp only
  split_ifs
  · exact shifted_lt hcorners hsides (hp x y)
  · exact shifted_lt hrows (hp x y) hcolumns
  · exact shifted_lt hcolumns (hp x y) hrows
  · exact shifted_lt (hp x y) hsides hcorners

theorem gsIndex_lt (img : Image) (y x : ℤ) : gsIndex img y x < 128 := by
  unfold gsIndex
  rw [Nat.shiftRight_eq_div_pow]
  omega

theorem rgb565Index_lt (img : Image) (y x : ℤ) : rgb565Index img y x < 128 := by
  unfold rgb565Index colorRgb565ToR5 colorRgb565ToG6 colorRgb565ToB5
  dsimp only
  apply packIndex_lt <;> rw [Nat.shiftRight_eq_div_pow] <;> omega

theorem bayerIndex_lt (img : Image) (y x : ℤ) : bayerIndex img y x < 128 := by
  unfold bayerIndex
  dsimp only
  split_ifs
  · obtain ⟨hr, hg, hb⟩ := colorBayerToRgb565_lt img ((y * blockSize + x) % img.w) (y * blockSize / img.w)
    generalize colorBayerToRgb565 img ((y * blockSize + x) % img.w) (y * blockSize / img.w) = c at *
    obtain ⟨r, g, b⟩ := c
    dsimp only at hr hg hb ⊢
    apply packIndex_lt <;> rw [Nat.shiftRight_eq_div_pow] <;> omega
  · decide

theorem writtenIndex_lt (img : Image) (y x : ℤ) : writtenIndex img y x < 128 := by
  unfold writtenIndex
  cases img.bpp with
  | binary => exact Nat.succ_pos _
  | grayscale => exact gsIndex_lt img y x
  | rgb565 => exact rgb565Index_lt img y x
  | bayer => exact bayerIndex_lt img y x
  | jpeg => exact Nat.succ_pos _

theorem length_blockIndices (n : ℕ) (index : ℤ → ℤ → ℕ) (y : ℕ) :
    (blockIndices n index y).length = min 126 (n - y * 126) := by
  rw [blockIndices, List.length_map, List.length_range]

/-- The blocks, one after the other, are all pixels in order. -/
theorem flatMap_blockIndices (n : ℕ) (index : ℤ → ℤ → ℕ) : ∀ b : ℕ,
    (List.range b).flatMap (blockIndices n index) = (List.range (min n (b * 126))).map fun k : ℕ =>
      index (k / 126 : ℕ) (k % 126 : ℕ)
  | 0 => by rw [Nat.zero_mul, Nat.min_zero]; rfl
  | b + 1 => by
    have hmin : min n ((b + 1) * 126) = min n (b * 126) + min 126 (n - b * 126) := by omega
    rw [List.range_succ, List.flatMap_append, List.flatMap_singleton, flatMap_blockIndices n index b, hmin,
      List.range_add, List.map_append, List.map_map, blockIndices]
    congr 1
    refine List.map_congr_left fun x hx => ?_
    have hx := List.mem_range.1 hx
    rw [Function.comp_apply, show (min n (b * 126) + x) / 126 = b by omega,
      show (min n (b * 126) + x) % 126 = x by omega]

/-- The index written for the pixel with this number. -/
def writtenAt (img : Image) (k : ℕ) : ℕ := writtenIndex img (k / 126 : ℕ) (k % 126 : ℕ)

/-- The codes of an image. -/
def frameCodes (img : Image) (n : ℕ) : List ℕ :=
  ((List.range ((n + 125) / 126)).map (blockIndices n (writtenIndex img))).flatMap (128 :: ·) ++ [129]

theorem flatten_framePieces (img : Image) (n : ℕ) :
    (framePieces img n).flatten = (frameCodes img n).map UInt8.ofNat := by
  rw [framePieces, frameCodes, List.flatten_append, List.map_append, List.flatMap_map, List.map_flatMap,
    ← List.flatMap_def]
  rfl

theorem frameCodes_lt {img : Image} {n : ℕ} : ∀ c ∈ frameCodes img n, c < 256 := by
  intro c hc
  simp only [frameCodes, List.mem_append, List.mem_flatMap, List.mem_map, List.mem_cons,
    List.not_mem_nil, or_false] at hc
  rcases hc with ⟨b, ⟨y, -, rfl⟩, rfl | hc⟩ | rfl
  · decide
  · obtain ⟨x, -, rfl⟩ := List.mem_map.1 hc
    exact (writtenIndex_lt img y x).trans (by decide)
  · decide

theorem framePieces_decode (img : Image) (n : ℕ) :
    Lzw.decode 7 ((Gif.bits (framePieces img n).flatten).length + 1) (Lzw.reset 7)
      (Gif.bits (framePieces img n).flatten) = some ((List.range n).map (writtenAt img)) := by
  have hflat := flatMap_blockIndices n (writtenIndex img) ((n + 125) / 126)
  rw [show min n ((n + 125) / 126 * 126) = n by omega] at hflat
  have hbits : Gif.bits (framePieces img n).flatten =
      ((List.range ((n + 125) / 126)).map (blockIndices n (writtenIndex img))).flatMap (fun b =>
        Lzw.bitsLSB (7 + 1) (2 ^ 7) ++ b.flatMap (Lzw.bitsLSB (7 + 1))) ++
      (Lzw.bitsLSB (7 + 1) (2 ^ 7 + 1) ++ []) := by
    rw [flatten_framePieces, Gif.bits_map_ofNat frameCodes_lt, frameCodes, List.flatMap_append,
      List.flatMap_assoc]
    rfl
  have hfuel := Lzw.length_le_bits 7 (2 ^ 7)
    ((List.range ((n + 125) / 126)).map (blockIndices n (writtenIndex img)))
  rw [hbits, Lzw.decode_blocks (by decide) rfl ?_ (by rw [List.length_append]; omega), ← List.flatMap_def,
    hflat]
  · rfl
  · intro b hb
    obtain ⟨y, -, rfl⟩ := List.mem_map.1 hb
    refine ⟨by rw [length_blockIndices]; omega, fun c hc => ?_⟩
    obtain ⟨x, -, rfl⟩ := List.mem_map.1 hc
    exact writtenIndex_lt img y x

/-! ### What is decoded -/

/-- The index of the pixel at a place: its gray level without the lowest bit, the highest bits of its
    colour, or those of the colour its neighbourhood has. -/
def paletteIndex (img : Image) (x y : ℤ) : ℕ :=
  match img.bpp with
  | .grayscale => (imageGetGrayscalePixel img x y / 2).toNat
  | .rgb565 =>
    let pixel := imageGetRgb565Pixel img x y
    (colorRgb565ToR5 pixel / 8 * 32 + colorRgb565ToG6 pixel / 8 * 4 + colorRgb565ToB5 pixel / 8).toNat
  | .bayer =>
    if 0 < x ∧ x < img.w - 1 ∧ 0 < y ∧ y < img.h - 1 then
      let (r, g, b) := colorBayerToRgb565 img x y
      r / 8 * 32 + g / 8 * 4 + b / 8
    else 0
  | .binary | .jpeg => 0

/-- An image that a movie of this size takes, in memory. -/
structure IsFrame (width height : ℤ) (img : Image) : Prop where
  w : img.w = width
  h : img.h = height
  w_nonneg : 0 ≤ img.w
  h_nonneg : 0 ≤ img.h
  ram : img.w * img.h ≤ ramSize
  bpp : img.bpp = .grayscale ∨ img.bpp = .rgb565 ∨ img.bpp = .bayer

/-- The frame with the index of each pixel, row by row. -/
def quantised (img : Image) : Gif.Frame :=
  ⟨0, 0, img.w.toNat, img.h.toNat,
    (List.range (img.h * img.w).toNat).map fun k : ℕ => paletteIndex img (k % img.w) (k / img.w)⟩

/-- The file is a movie of this size with these images. -/
def IsMovie (width height : ℤ) (images : List Image) (file : List UInt8) : Prop :=
  ∃ m : Gif.Movie, Gif.decode file = some m ∧ (m.width : ℤ) = width ∧ (m.height : ℤ) = height ∧
    m.frames = images.map quantised

/-- The row whose colours the encoder uses for a Bayer pixel: the one its block of 126 begins in. -/
def blockRow (img : Image) (x y : ℤ) : ℤ := (y * img.w + x) / 126 * 126 / img.w

theorem writtenAt_grayscale {img : Image} (hb : img.bpp = .grayscale) (k : ℕ) :
    writtenAt img k = paletteIndex img (k % img.w) (k / img.w) := by
  have hk : ((k / 126 : ℕ) : ℤ) * blockSize + (k % 126 : ℕ) = k := by
    unfold blockSize
    omega
  rw [writtenAt, writtenIndex, paletteIndex, hb]
  dsimp only
  rw [gsIndex, hk, pixelsAt, Nat.shiftRight_eq_div_pow, imageGetGrayscalePixel]
  omega

theorem writtenAt_rgb565 {img : Image} (hb : img.bpp = .rgb565) (k : ℕ) :
    writtenAt img k = paletteIndex img (k % img.w) (k / img.w) := by
  have hk : ((k / 126 : ℕ) : ℤ) * blockSize + (k % 126 : ℕ) = k := by
    unfold blockSize
    omega
  rw [writtenAt, writtenIndex, paletteIndex, hb]
  dsimp only
  rw [rgb565Index, hk, pixelsAt, imageGetRgb565Pixel]
  generalize ((img.data (k % img.w) (k / img.w) % 65536 : ℕ) : ℤ) = pixel
  have hr : 0 ≤ colorRgb565ToR5 pixel ∧ colorRgb565ToR5 pixel < 32 := by unfold colorRgb565ToR5; omega
  have hg : 0 ≤ colorRgb565ToG6 pixel ∧ colorRgb565ToG6 pixel < 64 := by unfold colorRgb565ToG6; omega
  have hb : 0 ≤ colorRgb565ToB5 pixel ∧ colorRgb565ToB5 pixel < 32 := by unfold colorRgb565ToB5; omega
  generalize colorRgb565ToR5 pixel = r at *
  generalize colorRgb565ToG6 pixel = g at *
  generalize colorRgb565ToB5 pixel = b at *
  simp only [Nat.shiftRight_eq_div_pow]
  rw [packIndex_eq (by omega) (by omega)]
  omega

theorem writtenAt_bayer {img : Image} (hb : img.bpp = .bayer) (k : ℕ) :
    writtenAt img k = paletteIndex img (k % img.w) ((k : ℤ) / 126 * 126 / img.w) := by
  have hk : ((k / 126 : ℕ) : ℤ) * blockSize + (k % 126 : ℕ) = k := by
    unfold blockSize
    omega
  rw [writtenAt, writtenIndex, paletteIndex, hb]
  dsimp only
  rw [bayerIndex, hk, show ((k / 126 : ℕ) : ℤ) * blockSize = (k : ℤ) / 126 * 126 by unfold blockSize; omega]
  dsimp only
  generalize (k : ℤ) % img.w = x
  generalize (k : ℤ) / 126 * 126 / img.w = y
  obtain ⟨hr, hg, hb⟩ := colorBayerToRgb565_lt img x y
  generalize colorBayerToRgb565 img x y = c at *
  obtain ⟨r, g, b⟩ := c
  dsimp only at hr hg hb ⊢
  by_cases hin : 0 < x ∧ x < img.w - 1 ∧ 0 < y ∧ y < img.h - 1
  · rw [if_pos hin, if_pos ⟨hin.1, hin.2.2.1, hin.2.1, hin.2.2.2⟩]
    dsimp only
    simp only [Nat.shiftRight_eq_div_pow]
    rw [packIndex_eq (by omega) (by omega)]
  · rw [if_neg hin, if_neg fun h => hin ⟨h.1, h.2.2.1, h.2.1, h.2.2.2⟩]
    rfl

/-- The frame as it was written. -/
def written (img : Image) : Gif.Frame :=
  ⟨0, 0, img.w.toNat, img.h.toNat, (List.range (img.h * img.w).toNat).map (writtenAt img)⟩

theorem quantised_eq_written {img : Image} : quantised img = written img ↔
    ∀ k : ℕ, k < (img.h * img.w).toNat → paletteIndex img (k % img.w) (k / img.w) = writtenAt img k := by
  unfold quantised written
  rw [Gif.Frame.mk.injEq]
  simp only [true_and, List.map_inj_left, List.mem_range]

section
variable {width height : ℤ} {img : Image} (hf : IsFrame width height img)
include hf

/-- A frame comes back as it was written if and only if, in a Bayer image, the rows that the blocks begin
    in have the colours of the rows they go on to. -/
theorem written_iff : quantised img = written img ↔ (img.bpp = .bayer → ∀ x y, 0 ≤ x → x < img.w →
    0 ≤ y → y < img.h → paletteIndex img x (blockRow img x y) = paletteIndex img x y) := by
  rw [quantised_eq_written]
  rcases hf.bpp with hb | hb | hb
  · exact ⟨fun _ h => (by rw [hb] at h; cases h), fun _ k _ => (writtenAt_grayscale hb k).symm⟩
  · exact ⟨fun _ h => (by rw [hb] at h; cases h), fun _ k _ => (writtenAt_rgb565 hb k).symm⟩
  · constructor
    · intro h _ x y hx0 hx hy0 hy
      obtain ⟨hnn, hlt⟩ := rowMajor_mem ⟨hx0, hx⟩ ⟨hy0, hy⟩
      rw [mul_comm img.w] at hlt
      have hx' : (y * img.w + x) % img.w = x := by
        rw [Int.mul_add_emod_self_right, Int.emod_eq_of_lt hx0 hx]
      have hy' : (y * img.w + x) / img.w = y := by
        rw [add_comm, Int.add_mul_ediv_right _ _ (by omega), Int.ediv_eq_zero_of_lt hx0 hx, zero_add]
      have hk := h (y * img.w + x).toNat (by omega)
      rw [writtenAt_bayer hb, Int.toNat_of_nonneg hnn, hx', hy'] at hk
      exact hk.symm
    · intro h k hk
      have hw : 0 < img.w := by
        rcases hf.w_nonneg.lt_or_eq with hw | hw
        · exact hw
        · rw [← hw, mul_zero] at hk
          exact absurd hk (Nat.not_lt_zero k)
      obtain ⟨⟨hx0, hx⟩, ⟨hy0, hy⟩, hkk⟩ := rowMajor_split (h := img.h) hw
        ⟨Int.natCast_nonneg k, by rw [mul_comm]; omega⟩
      have hrow := h hb ((k : ℤ) % img.w) ((k : ℤ) / img.w) hx0 hx hy0 hy
      rw [writtenAt_bayer hb, ← hrow, blockRow, ← hkk]

theorem blocks_frame (hw : width < 65536) (hh : height < 65536) (delay : UInt16) (fuel : ℕ)
    (rest : List UInt8) : ∃ fuel', fuel ≤ fuel' ∧
    Gif.blocks width.toNat height.toNat (fuel + 2)
      (gifFrameBytes img delay (img.h * img.w).toNat ++ rest) =
    (Gif.blocks width.toNat height.toNat fuel' rest).map (written img :: ·) := by
  obtain ⟨rfl, rfl, hw0, hh0, hram, hb⟩ := hf
  have hpieces : ∀ p ∈ framePieces img (img.h * img.w).toNat, 0 < p.length ∧ p.length < 256 := by
    intro p hp
    rcases List.mem_append.1 hp with hp | hp
    · obtain ⟨y, -, rfl⟩ := List.mem_map.1 hp
      rw [List.length_cons, List.length_map, length_blockIndices]
      omega
    · rw [List.mem_singleton.1 hp]
      exact ⟨by decide, by decide⟩
  have huw : uint16 img.w = img.w.toNat := by
    unfold uint16
    omega
  have huh : uint16 img.h = img.h.toNat := by
    unfold uint16
    omega
  have himage := fun fuel => Gif.blocks_image hpieces (show img.w.toNat < 65536 by omega)
    (show img.h.toNat < 65536 by omega) le_rfl le_rfl (show 2 ≤ (7 : UInt8).toNat ∧ _ by decide)
    (by rw [List.length_map, List.length_range, mul_comm, Int.toNat_mul hw0 hh0])
    (framePieces_decode img (img.h * img.w).toNat) fuel rest
  have hbytes : ∀ s : List UInt8, s ++ 0x2C :: (le32 0 ++ le16 img.w.toNat ++ le16 img.h.toNat ++ [0, 7] ++
      ((framePieces img (img.h * img.w).toNat).flatMap Gif.piece ++ [0])) ++ rest =
      s ++ 0x2C :: (le32 0 ++ le16 img.w.toNat ++ le16 img.h.toNat ++ [0, 7] ++
      ((framePieces img (img.h * img.w).toNat).flatMap Gif.piece ++ 0 :: rest)) := by
    intro s
    simp only [List.append_assoc, List.cons_append, List.nil_append]
  rw [gifFrameBytes, huw, huh, hbytes, delayBytes]
  split_ifs with hd
  · refine ⟨fuel, Nat.le_refl _, ?_⟩
    have hext : ∀ p ∈ [(0x04 : UInt8) :: (le16 delay.toNat ++ [0])], 0 < p.length ∧ p.length < 256 := by
      intro p hp
      rw [List.mem_singleton.1 hp]
      exact ⟨Nat.succ_pos _, show 4 < 256 by decide⟩
    have hskip := Gif.blocks_extension hext img.w.toNat img.h.toNat (fuel + 1) 0xF9
    rw [List.cons_append, List.cons_append, List.append_assoc, List.cons_append, List.nil_append, hskip]
    exact himage fuel
  · exact ⟨fuel + 1, Nat.le_succ _, himage (fuel + 1)⟩

end

theorem blocks_frames {width height : ℤ} (hw : width < 65536) (hh : height < 65536) :
    ∀ {frames : List (Image × UInt16)}, (∀ f ∈ frames, IsFrame width height f.1) →
    ∀ {fuel : ℕ}, 2 * frames.length < fuel → Gif.blocks width.toNat height.toNat fuel
      (frames.flatMap (fun f => gifFrameBytes f.1 f.2 (f.1.h * f.1.w).toNat) ++ [0x3B]) =
        some (frames.map fun f => written f.1)
  | [], _, fuel, hfuel => by
    obtain ⟨fuel, rfl⟩ := Nat.exists_eq_succ_of_ne_zero (show fuel ≠ 0 by omega)
    rfl
  | f :: frames, hf, fuel, hfuel => by
    rw [List.length_cons] at hfuel
    obtain ⟨fuel, rfl⟩ := Nat.exists_eq_add_of_le' (show 2 ≤ fuel by omega)
    rw [List.flatMap_cons, List.append_assoc]
    obtain ⟨fuel', hle, hblocks⟩ := blocks_frame (hf f (.head _)) hw hh f.2 fuel
      (frames.flatMap (fun f => gifFrameBytes f.1 f.2 (f.1.h * f.1.w).toNat) ++ [0x3B])
    rw [hblocks, blocks_frames hw hh (fun f hm => hf f (.tail _ hm)) (by omega)]
    rfl

/-! ### The movie -/

theorem gifFile_eq {width height : ℤ} {frames : List (Image × UInt16)}
    (hframes : ∀ f ∈ frames, IsFrame width height f.1) (color loop : Bool) :
    gifFile width height color loop frames =
      Gif.signature ++ le16 (uint16 width) ++ le16 (uint16 height) ++ [0xF6, 0, 0] ++
        (List.range 128).flatMap (gifColor color) ++ (loopBytes loop ++
          (frames.flatMap (fun f => gifFrameBytes f.1 f.2 (f.1.h * f.1.w).toNat) ++ [0x3B])) := by
  have hadd : ∀ bytes, ∀ f ∈ frames, gifAddFrame (fileOf bytes) f.1 f.2 =
      fileOf (bytes ++ gifFrameBytes f.1 f.2 (f.1.h * f.1.w).toNat) := by
    intro bytes f hf
    obtain ⟨-, -, hw0, hh0, hram, hb⟩ := hframes f hf
    have hnn := mul_nonneg hh0 hw0
    rw [mul_comm, ramSize] at hram
    exact gifAddFrame_fileOf bytes (Int.toNat_of_nonneg hnn).symm (by omega) hb f.2
  rw [gifFile, gifOpen_fileOf, foldl_fileOf hadd, gifClose, writeByte_fileOf]
  simp only [fileOf, List.nil_append, List.append_assoc]
  rfl

theorem length_gifColor (color : Bool) (i : ℕ) : (gifColor color i).length = 3 := by
  unfold gifColor
  split_ifs <;> rfl

theorem length_frames_le : ∀ frames : List (Image × UInt16), 2 * frames.length ≤
    (frames.flatMap fun f => gifFrameBytes f.1 f.2 (f.1.h * f.1.w).toNat).length
  | [] => Nat.le_refl _
  | f :: frames => by
    have ih := length_frames_le frames
    have hf : 2 ≤ (gifFrameBytes f.1 f.2 (f.1.h * f.1.w).toNat).length := by
      rw [gifFrameBytes, List.length_append, List.length_cons, List.length_append, List.length_append,
        List.length_append, List.length_append, length_le32]
      omega
    rw [List.flatMap_cons, List.length_append, List.length_cons]
    omega

theorem blocks_loop (width height fuel : ℕ) (loop : Bool) (rest : List UInt8) : ∃ fuel', fuel ≤ fuel' ∧
    Gif.blocks width height (fuel + 1) (loopBytes loop ++ rest) = Gif.blocks width height fuel' rest := by
  cases loop
  · exact ⟨fuel + 1, Nat.le_succ _, rfl⟩
  · refine ⟨fuel, Nat.le_refl _, ?_⟩
    have hext : ∀ p ∈ ([[0x4E, 0x45, 0x54, 0x53, 0x43, 0x41, 0x50, 0x45, 0x32, 0x2E, 0x30], [1, 0, 0]] :
        List (List UInt8)), 0 < p.length ∧ p.length < 256 := by decide
    rw [← Gif.blocks_extension hext width height fuel 0xFF rest]
    rfl

/-- The decoder takes everything that was written. -/
theorem decode_gifFile {width height : ℤ} (hw0 : 0 ≤ width) (hw : width < 65536) (hh0 : 0 ≤ height)
    (hh : height < 65536) {frames : List (Image × UInt16)}
    (hframes : ∀ f ∈ frames, IsFrame width height f.1) (color loop : Bool) :
    Gif.decode (gifFile width height color loop frames) =
      some ⟨width.toNat, height.toNat, (List.range 128).flatMap (gifColor color),
        frames.map fun f => written f.1⟩ := by
  have htable : ((List.range 128).flatMap (gifColor color)).length = Gif.tableSize 0xF6 :=
    length_flatMap_range (length_gifColor color) 128
  have huw : uint16 width % 65536 = width.toNat := by
    unfold uint16
    omega
  have huh : uint16 height % 65536 = height.toNat := by
    unfold uint16
    omega
  have hlen := length_frames_le frames
  rw [gifFile_eq hframes, Gif.decode_header htable, huw, huh]
  generalize hbody : loopBytes loop ++ (frames.flatMap (fun f => gifFrameBytes f.1 f.2 (f.1.h * f.1.w).toNat) ++
    [0x3B]) = body
  have hbodyLen : 2 * frames.length < body.length := by
    rw [← hbody, List.length_append, List.length_append, List.length_singleton]
    omega
  obtain ⟨fuel', hle, hblocks⟩ := blocks_loop width.toNat height.toNat
    (12 + ((List.range 128).flatMap (gifColor color)).length + body.length) loop
    (frames.flatMap (fun f => gifFrameBytes f.1 f.2 (f.1.h * f.1.w).toNat) ++ [0x3B])
  rw [hbody, blocks_frames hw hh hframes (by omega)] at hblocks
  rw [show 13 + ((List.range 128).flatMap (gifColor color)).length + body.length =
    12 + ((List.range 128).flatMap (gifColor color)).length + body.length + 1 by omega, hblocks]
  rfl

/-- The file is the movie if and only if its size fits the sixteen bits there are for it and, in each
    Bayer image, the row that the block of a pixel begins in gives the colour of its own row. -/
theorem gif_file_iff (width height : ℤ) (color loop : Bool) (frames : List (Image × UInt16))
    (hframes : ∀ f ∈ frames, IsFrame width height f.1) :
    IsMovie width height (frames.map Prod.fst) (gifFile width height color loop frames) ↔
      (0 ≤ width ∧ width < 65536 ∧ 0 ≤ height ∧ height < 65536) ∧
      ∀ f ∈ frames, f.1.bpp = .bayer → ∀ x y, 0 ≤ x → x < f.1.w → 0 ≤ y → y < f.1.h →
        paletteIndex f.1 x (blockRow f.1 x y) = paletteIndex f.1 x y := by
  have hiff : ∀ f ∈ frames, (quantised f.1 = written f.1 ↔ (f.1.bpp = .bayer → ∀ x y, 0 ≤ x → x < f.1.w →
      0 ≤ y → y < f.1.h → paletteIndex f.1 x (blockRow f.1 x y) = paletteIndex f.1 x y)) :=
    fun f hf => written_iff (hframes f hf)
  constructor
  · rintro ⟨m, hdec, hw, hh, hm⟩
    obtain ⟨hw', hh'⟩ := Gif.decode_lt hdec
    have hsize : 0 ≤ width ∧ width < 65536 ∧ 0 ≤ height ∧ height < 65536 := by omega
    rw [decode_gifFile hsize.1 hsize.2.1 hsize.2.2.1 hsize.2.2.2 hframes] at hdec
    obtain rfl := Option.some.inj hdec
    dsimp only at hm
    rw [List.map_map, List.map_inj_left] at hm
    exact ⟨hsize, fun f hf => (hiff f hf).1 (hm f hf).symm⟩
  · rintro ⟨⟨hw0, hw, hh0, hh⟩, hrows⟩
    refine ⟨_, decode_gifFile hw0 hw hh0 hh hframes color loop, Int.toNat_of_nonneg hw0,
      Int.toNat_of_nonneg hh0, ?_⟩
    dsimp only
    rw [List.map_map, List.map_inj_left]
    exact fun f hf => ((hiff f hf).2 (hrows f hf)).symm

/-- Rows of whole blocks are written with their own colours. -/
theorem blockRow_of_dvd {img : Image} (hdvd : 126 ∣ img.w) {x y : ℤ} (hx0 : 0 ≤ x) (hx : x < img.w) :
    blockRow img x y = y := by
  obtain ⟨n, hn⟩ := hdvd
  have hblock : (y * img.w + x) / 126 * 126 = x / 126 * 126 + y * img.w := by
    have : y * img.w = y * n * 126 := by rw [hn]; ring
    omega
  rw [blockRow, hblock, Int.add_mul_ediv_right _ _ (by omega),
    Int.ediv_eq_zero_of_lt (by omega) (by omega), zero_add]

/-- A gray image of two pixels. -/
def grayPair : Image := ⟨2, 1, .grayscale, fun x _ => (200 * x).toNat⟩

theorem gif_file_gray_pair : IsMovie 2 1 [grayPair] (gifFile 2 1 false true [(grayPair, 10)]) := by
  refine (gif_file_iff 2 1 false true [(grayPair, 10)] fun f hf => ?_).2 ⟨by decide, fun f hf hb => ?_⟩
  · rw [List.mem_singleton.1 hf]
    exact ⟨rfl, rfl, by decide, by decide, by decide, .inl rfl⟩
  · rw [List.mem_singleton.1 hf] at hb
    cases hb

/-- A white Bayer image of nine pixels, all in one block. -/
def whiteBayer : Image := ⟨3, 3, .bayer, fun _ _ => 255⟩

/-- The pixel in the middle is written as black as the row the block begins in. -/
theorem gif_file_white_bayer : (∀ f ∈ [(whiteBayer, (10 : UInt16))], IsFrame 3 3 f.1) ∧
    ¬ IsMovie 3 3 [whiteBayer] (gifFile 3 3 true true [(whiteBayer, 10)]) := by
  have hframe : ∀ f ∈ [(whiteBayer, (10 : UInt16))], IsFrame 3 3 f.1 := by
    intro f hf
    rw [List.mem_singleton.1 hf]
    exact ⟨rfl, rfl, by decide, by decide, by decide, .inr (.inr rfl)⟩
  refine ⟨hframe, ?_⟩
  rintro ⟨m, hdec, -, -, hm⟩
  rw [decode_gifFile (by decide) (by decide) (by decide) (by decide) hframe] at hdec
  obtain rfl := Option.some.inj hdec
  have hne : ¬ [written whiteBayer] = [quantised whiteBayer] := by decide
  exact hne hm

end OpenMV.Io
