import Mathlib.Tactic.Ring
import OpenMV.Schemes.Stores
import OpenMV.Vision.Image

/-! Replacing an image | scheme:stores | source:src/src/openmv/omv/img/mathop.c

    `imlib_replace` puts the pixels of another image, mirrored, flipped or transposed, into the storage of an
    image. If the two share their storage the other one is copied first. Transposed pixels go where they are in an
    image with the two sizes exchanged; the header of the image itself is changed at the end. -/

namespace OpenMV.Filters
open Schemes Vision

/-! ### The code -/

/-- `image_t`; `data` is a pointer. -/
structure ImageT where
  w : ℕ
  h : ℕ
  bpp : Bpp
  data : ℕ
deriving DecidableEq, Repr

/-- What is at each pointer. The units are pixels; for a binary image they are the bits of its words. -/
abbrev Memory := ℕ → ℤ → ℕ

/-- The units of a line of `w` pixels. A line of a binary image takes whole words. -/
def lineLen (bpp : Bpp) (w : ℕ) : ℕ :=
  match bpp with
  | .binary => (w + 31) / 32 * 32
  | _ => w

/-- `image_size`, in units, of an image with pixels. -/
def ImageT.size (img : ImageT) : ℕ := lineLen img.bpp img.w * img.h

/-- `IM_EQUAL` -/
def imEqual (img other : ImageT) : Prop := img.w = other.w ∧ img.h = other.h ∧ img.bpp = other.bpp

instance (img other : ImageT) : Decidable (imEqual img other) := inferInstanceAs (Decidable (_ ∧ _))

/-- What `imlib_replace` takes the pixels from: `other` is `NULL` for a file and for a scalar. -/
inductive Source where
  | file (path : String)
  | other (img : ImageT)
  | scalar (value : ℤ)

/-- `imlib_replace_line_op_state_t` without the mask. -/
structure ReplaceOptions where
  hmirror : Bool
  vflip : Bool
  transpose : Bool
deriving DecidableEq, Repr

/-- `image_get_mask_pixel` of the mask, if there is one. The mask may be the image itself, so it can depend on what
    the storage holds by now. -/
abbrev Mask := Option ((ℤ → ℕ) → ℤ → ℤ → Bool)

/-- The argument `other`. -/
def Source.image : Source → Option ImageT
  | .other img => some img
  | .file _ | .scalar _ => none

/-- With the image, what is at the pointers, and the stores that were made. -/
inductive ReplaceOutcome where
  | nullOther
  | notEqual
  | done (img : ImageT) (mem : Memory) (stores : Stores)

/-- `flip ? (n - i - 1) : i` -/
def flipped (flip : Bool) (n i : ℕ) : ℤ := if flip then n - i - 1 else i

section Code

variable (o : ReplaceOptions) (mask : Mask) (img : ImageT) (data other : ℤ → ℕ)

/-- Where `IMAGE_PUT_…_PIXEL(&target, …)` stores the pixel of column `i` and row `v_line`. -/
def targetOffset (vLine i : ℤ) : ℤ :=
  if o.transpose then i * lineLen img.bpp img.h + vLine else vLine * lineLen img.bpp img.w + i

/-- One round of the loop in `imlib_replace_line_op`. `data` is what the image held at first. -/
def replacePixel (line : ℕ) (stores : Stores) (i : ℕ) : Stores :=
  let vLine := flipped o.vflip img.h line
  let hI := flipped o.hmirror img.w i
  if mask.all fun m => m (storeAll data stores) hI vLine then
    stores ++ [(targetOffset o img vLine i, other (line * lineLen img.bpp img.w + hI))]
  else stores

def replaceLine (stores : Stores) (line : ℕ) : Stores :=
  match img.bpp with
  | .binary | .grayscale | .rgb565 => (List.range img.w).foldl (replacePixel o mask img data other line) stores
  | .bayer | .jpeg => stores

/-- The lines of `imlib_image_operation`, for another image. -/
def replaceLines : Stores := (List.range img.h).foldl (replaceLine o mask img data other) []

end Code

/-- The header at the end. -/
def ImageT.turned (img : ImageT) (o : ReplaceOptions) : ImageT :=
  if o.transpose then { img with w := img.h, h := img.w } else img

/-- `img->data == other->data` is asked first. The pixels of the other image are the ones it has at first: if it
    shares the storage of the image they are read from the copy, and if not nothing is stored there. -/
def imlibReplace (mem : Memory) (img : ImageT) (src : Source) (o : ReplaceOptions) (mask : Mask) : ReplaceOutcome :=
  match src.image with
  | none => .nullOther
  | some other =>
    if imEqual img other then
      let stores := replaceLines o mask img (mem img.data) (mem other.data)
      .done (img.turned o) (Function.update mem img.data (storeAll (mem img.data) stores)) stores
    else .notEqual

/-! ### The stores -/

@[simp] theorem flipped_false (n i : ℕ) : flipped false n i = i := rfl

theorem flipped_mem (flip : Bool) {n i : ℕ} (hi : i < n) : 0 ≤ flipped flip n i ∧ flipped flip n i < n := by
  unfold flipped
  split_ifs <;> omega

theorem flipped_inj {flip : Bool} {n i j : ℕ} (h : flipped flip n i = flipped flip n j) : i = j := by
  unfold flipped at h
  split_ifs at h <;> omega

theorem exists_flipped (flip : Bool) {n i : ℕ} (hi : i < n) :
    ∃ j < n, flipped flip n i = j ∧ flipped flip n j = i := by
  cases flip with
  | false => exact ⟨i, hi, rfl, rfl⟩
  | true => exact ⟨n - 1 - i, by omega, by simp only [flipped, if_true]; omega, by simp only [flipped, if_true]; omega⟩

section Stores

variable (o : ReplaceOptions) (mask : Mask) (img : ImageT) (data other : ℤ → ℕ)

/-- The store for a pixel of the other image. -/
def storeOf (line i : ℕ) : ℤ × ℕ :=
  (targetOffset o img (flipped o.vflip img.h line) i,
    other (line * lineLen img.bpp img.w + flipped o.hmirror img.w i))

/-- The formats whose pixels are gone over. -/
def HasPixels (bpp : Bpp) : Prop := bpp = .binary ∨ bpp = .grayscale ∨ bpp = .rgb565

theorem foldl_replacePixel (line : ℕ) : ∀ (is : List ℕ) (stores : Stores),
    is.foldl (replacePixel o none img data other line) stores = stores ++ is.map (storeOf o img other line)
  | [], stores => by simp
  | i :: is, stores => by
      rw [List.foldl_cons, foldl_replacePixel line is, List.map_cons]
      simp [replacePixel, storeOf]

theorem replaceLine_of_hasPixels (hbpp : HasPixels img.bpp) (stores : Stores) (line : ℕ) :
    replaceLine o mask img data other stores line =
      (List.range img.w).foldl (replacePixel o mask img data other line) stores := by
  unfold replaceLine
  rcases hbpp with h | h | h <;> rw [h]

theorem replaceLine_of_not (hbpp : ¬ HasPixels img.bpp) (stores : Stores) (line : ℕ) :
    replaceLine o mask img data other stores line = stores := by
  unfold replaceLine
  unfold HasPixels at hbpp
  cases h : img.bpp <;> simp [h] at hbpp ⊢

/-- Without a mask all pixels are stored. -/
theorem replaceLines_none (hbpp : HasPixels img.bpp) : replaceLines o none img data other =
    (List.range img.h).flatMap fun line => (List.range img.w).map (storeOf o img other line) := by
  have hfold : ∀ (lines : List ℕ) (stores : Stores), lines.foldl (replaceLine o none img data other) stores =
      stores ++ lines.flatMap fun line => (List.range img.w).map (storeOf o img other line) := by
    intro lines
    induction lines with
    | nil => simp
    | cons line lines ih =>
      intro stores
      rw [List.foldl_cons, ih, replaceLine_of_hasPixels o none img data other hbpp, foldl_replacePixel,
        List.flatMap_cons, List.append_assoc]
  rw [replaceLines, hfold, List.nil_append]

theorem mem_replaceLines_none (hbpp : HasPixels img.bpp) {p : ℤ × ℕ} :
    p ∈ replaceLines o none img data other ↔ ∃ line < img.h, ∃ i < img.w, storeOf o img other line i = p := by
  rw [replaceLines_none o img data other hbpp]
  simp only [List.mem_flatMap, List.mem_map, List.mem_range]

/-- With a mask there are no others. -/
theorem mem_of_mem_replaceLines {p : ℤ × ℕ} (hp : p ∈ replaceLines o mask img data other) :
    HasPixels img.bpp ∧ ∃ line < img.h, ∃ i < img.w, storeOf o img other line i = p := by
  have hpixels : ∀ (line : ℕ) (is : List ℕ) (stores : Stores),
      p ∈ is.foldl (replacePixel o mask img data other line) stores →
        p ∈ stores ∨ ∃ i ∈ is, storeOf o img other line i = p := by
    intro line is
    induction is with
    | nil => exact fun stores h => Or.inl h
    | cons i is ih =>
      intro stores h
      rcases ih _ h with h | ⟨i', hi', heq⟩
      · unfold replacePixel at h
        simp only at h
        split_ifs at h
        · rcases List.mem_append.1 h with h | h
          · exact Or.inl h
          · exact Or.inr ⟨i, List.mem_cons_self, (List.mem_singleton.1 h).symm⟩
        · exact Or.inl h
      · exact Or.inr ⟨i', List.mem_cons_of_mem i hi', heq⟩
  have hlines : ∀ (lines : List ℕ) (stores : Stores), p ∈ lines.foldl (replaceLine o mask img data other) stores →
      p ∈ stores ∨ HasPixels img.bpp ∧ ∃ line ∈ lines, ∃ i < img.w, storeOf o img other line i = p := by
    intro lines
    induction lines with
    | nil => exact fun stores h => Or.inl h
    | cons line lines ih =>
      intro stores h
      rcases ih _ h with h | ⟨hbpp, line', hline', hi⟩
      · by_cases hbpp : HasPixels img.bpp
        · rw [replaceLine_of_hasPixels o mask img data other hbpp] at h
          rcases hpixels line _ stores h with h | ⟨i, hi, heq⟩
          · exact Or.inl h
          · exact Or.inr ⟨hbpp, line, List.mem_cons_self, i, List.mem_range.1 hi, heq⟩
        · rw [replaceLine_of_not o mask img data other hbpp] at h
          exact Or.inl h
      · exact Or.inr ⟨hbpp, line', List.mem_cons_of_mem line hline', hi⟩
  rcases hlines _ _ hp with h | ⟨hbpp, line, hline, hi⟩
  · exact absurd h List.not_mem_nil
  · exact ⟨hbpp, line, List.mem_range.1 hline, hi⟩

end Stores

/-! ### The transform -/

/-- The pixel of column `x` and row `y`, for the formats with a unit for each pixel. -/
def ImageT.pixel (img : ImageT) (mem : Memory) (x y : ℤ) : ℕ := mem img.data (y * img.w + x)

/-- Where the pixel of column `x` and row `y` comes from: the coordinates are exchanged back, then flipped back. -/
def comesFrom (o : ReplaceOptions) (img : ImageT) (x y : ℕ) : ℤ × ℤ :=
  if o.transpose then (flipped o.hmirror img.w y, flipped o.vflip img.h x)
  else (flipped o.hmirror img.w x, flipped o.vflip img.h y)

section Transform

variable {img : ImageT} (hbpp : img.bpp = .grayscale ∨ img.bpp = .rgb565) (o : ReplaceOptions) (data other : ℤ → ℕ)

theorem lineLen_of_unit {bpp : Bpp} (hbpp : bpp = .grayscale ∨ bpp = .rgb565) (w : ℕ) : lineLen bpp w = w := by
  rcases hbpp with rfl | rfl <;> rfl

include hbpp

/-- The pixels of the image as it is turned, whose offsets are all different. -/
theorem targetOffset_inj {line line' i i' : ℕ} (hl : line < img.h) (hl' : line' < img.h) (hi : i < img.w)
    (hi' : i' < img.w) (h : targetOffset o img (flipped o.vflip img.h line) i =
      targetOffset o img (flipped o.vflip img.h line') i') : line = line' ∧ i = i' := by
  unfold targetOffset at h
  simp only [lineLen_of_unit hbpp] at h
  split_ifs at h
  · obtain ⟨h1, h2⟩ := rowMajor_inj (flipped_mem _ hl) (flipped_mem _ hl') h
    exact ⟨flipped_inj h2, by omega⟩
  · obtain ⟨h1, h2⟩ := rowMajor_inj ⟨by omega, by omega⟩ ⟨by omega, by omega⟩ h
    exact ⟨flipped_inj h1, by omega⟩

theorem storeAll_replaceLines {line i : ℕ} (hl : line < img.h) (hi : i < img.w) :
    storeAll data (replaceLines o none img data other) (targetOffset o img (flipped o.vflip img.h line) i) =
      other (line * img.w + flipped o.hmirror img.w i) := by
  have hpixels : HasPixels img.bpp := Or.inr hbpp
  refine storeAll_of_unique ?_ fun v' hv' => ?_
  · refine (mem_replaceLines_none o img data other hpixels).2 ⟨line, hl, i, hi, ?_⟩
    rw [storeOf, lineLen_of_unit hbpp]
  · obtain ⟨line', hl', i', hi', heq⟩ := (mem_replaceLines_none o img data other hpixels).1 hv'
    rw [storeOf, lineLen_of_unit hbpp] at heq
    obtain ⟨h1, h2⟩ := Prod.mk.inj heq
    obtain ⟨rfl, rfl⟩ := targetOffset_inj hbpp o hl' hl hi' hi h1
    exact h2.symm

/-- The pixel of the image as it is turned. -/
theorem storeAll_turned {x y : ℕ} (hx : x < (img.turned o).w) (hy : y < (img.turned o).h) :
    storeAll data (replaceLines o none img data other) (y * (img.turned o).w + x) =
      other ((comesFrom o img x y).2 * img.w + (comesFrom o img x y).1) := by
  unfold ImageT.turned at hx hy ⊢
  unfold comesFrom
  by_cases ht : o.transpose
  · rw [if_pos ht] at hx hy ⊢
    rw [if_pos ht]
    obtain ⟨line, hl, hfrom, hto⟩ := exists_flipped o.vflip hx
    have h := storeAll_replaceLines hbpp o data other hl hy
    rw [targetOffset, if_pos ht, lineLen_of_unit hbpp, hto] at h
    rw [h, hfrom]
  · rw [if_neg ht] at hx hy ⊢
    rw [if_neg ht]
    obtain ⟨line, hl, hfrom, hto⟩ := exists_flipped o.vflip hy
    have h := storeAll_replaceLines hbpp o data other hl hx
    rw [targetOffset, if_neg ht, lineLen_of_unit hbpp, hto] at h
    rw [h, hfrom]

/-- Nothing is stored outside the image. -/
theorem storeAll_outside {k : ℤ} (hk : ¬ (0 ≤ k ∧ k < img.w * img.h)) :
    storeAll data (replaceLines o none img data other) k = data k := by
  refine storeAll_of_notMem fun hmem => hk ?_
  obtain ⟨p, hp, rfl⟩ := List.mem_map.1 hmem
  obtain ⟨line, hl, i, hi, rfl⟩ := (mem_replaceLines_none o img data other (Or.inr hbpp)).1 hp
  unfold storeOf targetOffset
  simp only [lineLen_of_unit hbpp]
  split_ifs
  · have h := rowMajor_mem (flipped_mem o.vflip hl) (show (0 : ℤ) ≤ i ∧ (i : ℤ) < img.w by omega)
    rwa [mul_comm (img.h : ℤ)] at h
  · exact rowMajor_mem (show (0 : ℤ) ≤ i ∧ (i : ℤ) < img.w by omega) (flipped_mem _ hl)

end Transform

theorem imlibReplace_self (mem : Memory) (img : ImageT) (o : ReplaceOptions) :
    imlibReplace mem img (.other img) o none = .done (img.turned o)
      (Function.update mem img.data
        (storeAll (mem img.data) (replaceLines o none img (mem img.data) (mem img.data))))
      (replaceLines o none img (mem img.data) (mem img.data)) := by
  rw [imlibReplace]
  simp [Source.image, imEqual]

/-- One of the two flips, or the transposition, alone. -/
def ReplaceOptions.Single (o : ReplaceOptions) : Prop :=
  o ∈ [⟨true, false, false⟩, ⟨false, true, false⟩, (⟨false, false, true⟩ : ReplaceOptions)]

theorem turned_turned (img : ImageT) (o : ReplaceOptions) : (img.turned o).turned o = img := by
  unfold ImageT.turned
  by_cases ht : o.transpose <;> simp [ht]

theorem turned_data (img : ImageT) (o : ReplaceOptions) : (img.turned o).data = img.data := by
  unfold ImageT.turned
  split_ifs <;> rfl

theorem turned_bpp (img : ImageT) (o : ReplaceOptions) : (img.turned o).bpp = img.bpp := by
  unfold ImageT.turned
  split_ifs <;> rfl

/-- Where a pixel comes from twice is where it is. -/
theorem comesFrom_comesFrom (img : ImageT) {o : ReplaceOptions} (ho : o.Single) {x y : ℕ} (hx : x < img.w)
    (hy : y < img.h) : ∃ x' < (img.turned o).w, ∃ y' < (img.turned o).h,
      comesFrom o (img.turned o) x y = ((x' : ℤ), (y' : ℤ)) ∧ comesFrom o img x' y' = ((x : ℤ), (y : ℤ)) := by
  simp only [ReplaceOptions.Single, List.mem_cons, List.not_mem_nil, or_false] at ho
  rcases ho with rfl | rfl | rfl
  · obtain ⟨x', hx', h1, h2⟩ := exists_flipped true hx
    exact ⟨x', hx', y, hy, by simp [comesFrom, ImageT.turned, h1], by simp [comesFrom, h2]⟩
  · obtain ⟨y', hy', h1, h2⟩ := exists_flipped true hy
    exact ⟨x, hx, y', hy', by simp [comesFrom, ImageT.turned, h1], by simp [comesFrom, h2]⟩
  · exact ⟨y, hy, x, hx, by simp [comesFrom], by simp [comesFrom]⟩

/-- `imlib_replace` with the image itself flips and transposes it, and each of the three alone undoes itself. -/
theorem imlib_replace_dihedral (mem : Memory) (img : ImageT) (hbpp : img.bpp = .grayscale ∨ img.bpp = .rgb565)
    (o : ReplaceOptions) : ∃ mem' stores,
      imlibReplace mem img (.other img) o none = .done (img.turned o) mem' stores ∧
      (∀ x < (img.turned o).w, ∀ y < (img.turned o).h, (img.turned o).pixel mem' x y =
        img.pixel mem (comesFrom o img x y).1 (comesFrom o img x y).2) ∧
      (o.Single → ∃ stores', imlibReplace mem' (img.turned o) (.other (img.turned o)) o none =
        .done img mem stores') := by
  have hbpp' : (img.turned o).bpp = .grayscale ∨ (img.turned o).bpp = .rgb565 := by rwa [turned_bpp]
  refine ⟨_, _, imlibReplace_self mem img o, ?_, fun ho => ?_⟩
  · intro x hx y hy
    rw [ImageT.pixel, turned_data, Function.update_self]
    exact storeAll_turned hbpp o _ _ hx hy
  · rw [imlibReplace_self, turned_turned, turned_data, Function.update_self, Function.update_idem]
    generalize hfirst : storeAll (mem img.data) (replaceLines o none img (mem img.data) (mem img.data)) = first
    have hback : storeAll first (replaceLines o none (img.turned o) first first) = mem img.data := by
      funext k
      by_cases hk : 0 ≤ k ∧ k < (img.w : ℤ) * img.h
      · have hw : (0 : ℤ) < img.w := by
          rcases Nat.eq_zero_or_pos img.w with h0 | hpos
          · rw [h0, Nat.cast_zero, zero_mul] at hk
            omega
          · exact_mod_cast hpos
        obtain ⟨hx, hy, hsplit⟩ := rowMajor_split hw hk
        obtain ⟨x, hx0⟩ := Int.eq_ofNat_of_zero_le hx.1
        obtain ⟨y, hy0⟩ := Int.eq_ofNat_of_zero_le hy.1
        rw [hx0, hy0] at hsplit
        obtain ⟨x', hx', y', hy', hto, hfrom⟩ :=
          comesFrom_comesFrom img ho (show x < img.w by omega) (show y < img.h by omega)
        have hsecond := storeAll_turned (x := x) (y := y) hbpp' o first first
          (by rw [turned_turned]; omega) (by rw [turned_turned]; omega)
        rw [turned_turned, hto] at hsecond
        rw [hsplit, hsecond, ← hfirst, storeAll_turned hbpp o _ _ hx' hy', hfrom]
      · have hk' : ¬ (0 ≤ k ∧ k < ((img.turned o).w : ℤ) * (img.turned o).h) := by
          unfold ImageT.turned
          split_ifs
          · rwa [mul_comm]
          · exact hk
        rw [storeAll_outside hbpp' o _ _ hk', ← hfirst, storeAll_outside hbpp o _ _ hk]
    rw [hback, Function.update_eq_self]
    exact ⟨_, rfl⟩

theorem imlib_replace_dihedral_two_by_one : ∃ mem' stores,
    imlibReplace (fun _ => fun k => if k = 0 then 7 else 9) ⟨2, 1, .grayscale, 4096⟩
      (.other ⟨2, 1, .grayscale, 4096⟩) ⟨true, false, false⟩ none = .done ⟨2, 1, .grayscale, 4096⟩ mem' stores ∧
    mem' 4096 0 = 9 ∧ mem' 4096 1 = 7 := by
  obtain ⟨mem', stores, hdone, hpixel, -⟩ := imlib_replace_dihedral (fun _ => fun k => if k = 0 then 7 else 9)
    ⟨2, 1, .grayscale, 4096⟩ (Or.inl rfl) ⟨true, false, false⟩
  exact ⟨mem', stores, hdone, hpixel 0 (by decide) 0 (by decide), hpixel 1 (by decide) 0 (by decide)⟩

/-! ### Staying inside -/

/-- Only valid images are looked at, and all stores are in the storage of the image. -/
def StaysInside (img : ImageT) : ReplaceOutcome → Prop
  | .nullOther => False
  | .notEqual => True
  | .done _ _ stores => ∀ p ∈ stores, 0 ≤ p.1 ∧ p.1 < img.size

/-- The offset of a store, where lines are `rows` units long, in an image of `n` lines. -/
theorem offset_inside {len n x y : ℤ} (hx : 0 ≤ x ∧ x < len) (hy : 0 ≤ y ∧ y < n) :
    0 ≤ y * len + x ∧ y * len + x < n * len := by
  rw [mul_comm n]
  exact rowMajor_mem hx hy

theorem le_lineLen (bpp : Bpp) (w : ℕ) : w ≤ lineLen bpp w := by
  unfold lineLen
  split
  · omega
  · exact le_rfl

/-- Only a transposed binary image can be larger than it was. -/
theorem turned_size_le {img : ImageT} {o : ReplaceOptions}
    (h : img.bpp = .binary → o.transpose = true → img.w * lineLen .binary img.h ≤ img.size) (hbpp : HasPixels img.bpp) :
    o.transpose = true → img.w * lineLen img.bpp img.h ≤ img.size := by
  intro ht
  rcases hbpp with hb | hunit
  · rw [hb]
    exact h hb ht
  · rw [ImageT.size, lineLen_of_unit hunit, lineLen_of_unit hunit]

theorem storeOf_inside {img : ImageT} {o : ReplaceOptions} {other : ℤ → ℕ}
    (h : o.transpose = true → img.w * lineLen img.bpp img.h ≤ img.size) {line i : ℕ} (hl : line < img.h)
    (hi : i < img.w) : 0 ≤ (storeOf o img other line i).1 ∧ (storeOf o img other line i).1 < img.size := by
  have hv := flipped_mem o.vflip hl
  have hw := le_lineLen img.bpp img.w
  have hh := le_lineLen img.bpp img.h
  unfold storeOf targetOffset
  by_cases ht : o.transpose
  · have hoff := @offset_inside (lineLen img.bpp img.h) img.w (flipped o.vflip img.h line) i
      ⟨hv.1, by omega⟩ (by omega)
    have hle : (img.w : ℤ) * lineLen img.bpp img.h ≤ img.size := by exact_mod_cast h ht
    rw [if_pos ht]
    exact ⟨hoff.1, hoff.2.trans_le hle⟩
  · have hoff := @offset_inside (lineLen img.bpp img.w) img.h i (flipped o.vflip img.h line) (by omega) hv
    have heq : (img.h : ℤ) * lineLen img.bpp img.w = img.size := by
      rw [ImageT.size, Nat.cast_mul, mul_comm]
    rw [if_neg ht]
    exact ⟨hoff.1, hoff.2.trans_le heq.le⟩

/-- The last pixel of a transposed binary image is in its last word. -/
theorem turned_size_le_of_stores {img : ImageT} {o : ReplaceOptions} {data other : ℤ → ℕ} (hb : img.bpp = .binary)
    (ht : o.transpose = true) (h : ∀ p ∈ replaceLines o none img data other, 0 ≤ p.1 ∧ p.1 < img.size) :
    img.w * lineLen .binary img.h ≤ img.size := by
  rcases Nat.eq_zero_or_pos img.w with hw | hw
  · rw [hw, Nat.zero_mul]
    exact Nat.zero_le _
  rcases Nat.eq_zero_or_pos img.h with hh | hh
  · rw [hh]
    exact Nat.zero_le _
  obtain ⟨line, hl, -, hto⟩ := exists_flipped o.vflip (show img.h - 1 < img.h by omega)
  have hlast := (h _ ((mem_replaceLines_none o img data other (Or.inl hb)).2
    ⟨line, hl, img.w - 1, by omega, rfl⟩)).2
  rw [storeOf, targetOffset, if_pos ht, hto, ImageT.size, hb] at hlast
  rw [ImageT.size, hb]
  unfold lineLen at hlast ⊢
  simp only at hlast ⊢
  obtain ⟨w, hw'⟩ : ∃ w, img.w = w + 1 := ⟨img.w - 1, by omega⟩
  generalize hc : (img.h + 31) / 32 = c at hlast ⊢
  generalize (img.w + 31) / 32 = d at hlast ⊢
  -- both sizes are whole words, and the last pixel is in the last word of its line
  have hwords : w * c + (c - 1) < d * img.h := by
    rw [hw', Nat.add_sub_cancel] at hlast
    have hunits : w * (c * 32) + (img.h - 1) < d * 32 * img.h := by exact_mod_cast hlast
    rw [show w * (c * 32) = 32 * (w * c) by ring, show d * 32 * img.h = 32 * (d * img.h) by ring] at hunits
    omega
  calc img.w * (c * 32) = (w * c + (c - 1) + 1) * 32 := by
        rw [hw', Nat.add_assoc, Nat.sub_add_cancel (by omega)]
        ring
    _ ≤ d * img.h * 32 := Nat.mul_le_mul_right 32 hwords
    _ = d * 32 * img.h := by ring

/-- Another image is needed. The transposed lines of a binary image must not take more words than its own. -/
theorem imlib_replace_inside_iff (mem : Memory) (img : ImageT) (src : Source) (o : ReplaceOptions) :
    (∀ mask, StaysInside img (imlibReplace mem img src o mask)) ↔
      ∃ other, src.image = some other ∧
        (imEqual img other → img.bpp = .binary → o.transpose = true → img.w * lineLen .binary img.h ≤ img.size) := by
  unfold imlibReplace
  cases hsrc : src.image with
  | none => simp [StaysInside]
  | some other =>
    simp only [Option.some.injEq, exists_eq_left']
    by_cases heq : imEqual img other
    · simp only [StaysInside, heq, forall_const]
      constructor
      · intro h hb ht
        exact turned_size_le_of_stores hb ht (h none)
      · intro h mask p hp
        obtain ⟨hbpp, line, hl, i, hi, rfl⟩ := mem_of_mem_replaceLines o mask img _ _ hp
        exact storeOf_inside (turned_size_le h hbpp) hl hi
    · simp [heq, StaysInside]

/-- A binary line of 32 pixels becomes 32 lines of one word each; and with a scalar there is no other image. -/
theorem imlib_replace_outside :
    (¬ ∃ mem : Memory, StaysInside ⟨32, 1, .binary, 4096⟩ (imlibReplace mem ⟨32, 1, .binary, 4096⟩
      (.other ⟨32, 1, .binary, 4096⟩) ⟨false, false, true⟩ none)) ∧
    ¬ ∃ mem : Memory, StaysInside ⟨2, 2, .grayscale, 4096⟩ (imlibReplace mem ⟨2, 2, .grayscale, 4096⟩ (.scalar 5)
      ⟨false, false, false⟩ none) := by
  refine ⟨?_, fun ⟨_, h⟩ => h⟩
  rintro ⟨mem, h⟩
  have hsize := turned_size_le_of_stores rfl rfl h
  exact absurd hsize (by decide)

end OpenMV.Filters
