import OpenMV.Filters.ErodeDilate
import OpenMV.Filters.Negate
import OpenMV.Schemes.Morphology
import Mathlib.Data.Finset.Card
import Mathlib.Tactic.Push

/-! Opening and closing | scheme:galois-connection | source:src/src/openmv/omv/img/binary.c

    `imlib_open` erodes and dilates, `imlib_close` dilates and erodes, so that with threshold zero a pixel
    is cleared when one of its window is clear, and set when one is set. As long as the counts fit in an
    `int` these are the erosion and the dilation by the relation "in the window of each other", which is
    mutual also where the window is cut off by the border, and the laws of openings and closings follow.
    With a larger kernel the count wraps, and an opening sets pixels. -/

namespace OpenMV.Filters
open Schemes Vision Io

/-- `bufE` and `bufD` are what the two buffer images hold before. -/
def imlibOpen (bufE bufD : ℤ → ℤ → ℕ) (img : Image) (ksize : ℕ) (threshold : ℤ) (mask : Option Image) :
    Image :=
  imlibDilate bufD (imlibErode bufE img ksize (int32 (int32 (kernelN ksize - 1) - threshold)) mask) ksize
    (int32 (0 + threshold)) mask

def imlibClose (bufE bufD : ℤ → ℤ → ℕ) (img : Image) (ksize : ℕ) (threshold : ℤ) (mask : Option Image) :
    Image :=
  imlibErode bufE (imlibDilate bufD img ksize (int32 (0 + threshold)) mask) ksize
    (int32 (int32 (kernelN ksize - 1) - threshold)) mask

/-! ### Pixels and windows -/

/-- The pixels of an image of a size. -/
structure Pixel (w h : ℤ) where
  x : ℤ
  y : ℤ
  mem : 0 ≤ x ∧ x < w ∧ 0 ≤ y ∧ y < h

/-- Pixels in the window of each other. -/
def sees (w h : ℤ) (ksize : ℕ) : SetRel (Pixel w h) (Pixel w h) :=
  {pq | (pq.1.x - ksize ≤ pq.2.x ∧ pq.2.x ≤ pq.1.x + ksize) ∧
    pq.1.y - ksize ≤ pq.2.y ∧ pq.2.y ≤ pq.1.y + ksize}

def setPixels (w h : ℤ) (img : Image) : Set (Pixel w h) := {p | img.pixel p.x p.y ≠ 0}

instance (w h : ℤ) (ksize : ℕ) : (sees w h ksize).IsSymm where
  symm p q hpq := by
    simp only [sees, Set.mem_ofPred_eq] at hpq ⊢
    omega

theorem sees_self {w h : ℤ} (ksize : ℕ) (p : Pixel w h) : (p, p) ∈ sees w h ksize := by
  simp only [sees, Set.mem_ofPred_eq]
  omega

/-- The clamped window has the pixels that are seen, and no others. -/
theorem mem_window_iff {img : Image} {ksize : ℕ} {p : Pixel img.w img.h} {v : ℤ} :
    v ∈ window img.pixel img.w img.h ksize p.x p.y ↔
      ∃ q, (p, q) ∈ sees img.w img.h ksize ∧ img.pixel q.x q.y = v := by
  obtain ⟨x, y, hx0, hxw, hy0, hyh⟩ := p
  dsimp only
  rw [window_eq_map, List.mem_map]
  constructor
  · rintro ⟨⟨c, r⟩, hc, rfl⟩
    have hcell := mem_squareCells.mp hc
    have hcw := clamp_lt (v := c) (n := img.w) (by omega)
    have hrh := clamp_lt (v := r) (n := img.h) (by omega)
    refine ⟨⟨clamp c img.w, clamp r img.h, hcw.1, hcw.2, hrh.1, hrh.2⟩, ?_, rfl⟩
    simp only [sees, Set.mem_ofPred_eq]
    unfold clamp
    omega
  · rintro ⟨⟨c, r, hc0, hcw, hr0, hrh⟩, hsee, rfl⟩
    refine ⟨(c, r), mem_squareCells.mpr hsee, ?_⟩
    rw [clamp_of_mem hc0 hcw, clamp_of_mem hr0 hrh]

theorem setCount_pos_iff {img : Image} {ksize : ℕ} (p : Pixel img.w img.h) :
    0 < setCount img ksize p.x p.y ↔
      ∃ q ∈ setPixels img.w img.h img, (p, q) ∈ sees img.w img.h ksize := by
  rw [setCount, List.countP_pos_iff]
  simp only [mem_window_iff, decide_eq_true_eq]
  constructor
  · rintro ⟨v, ⟨q, hsee, rfl⟩, hv⟩
    exact ⟨q, hv, hsee⟩
  · rintro ⟨q, hq, hsee⟩
    exact ⟨_, ⟨q, hsee, rfl⟩, hq⟩

theorem setCount_eq_iff {img : Image} {ksize : ℕ} (p : Pixel img.w img.h) :
    setCount img ksize p.x p.y = (2 * ksize + 1) ^ 2 ↔
      ∀ q, (p, q) ∈ sees img.w img.h ksize → q ∈ setPixels img.w img.h img := by
  rw [setCount, ← length_window img.pixel img.w img.h ksize p.x p.y, List.countP_eq_length]
  simp only [mem_window_iff, decide_eq_true_eq]
  constructor
  · rintro h q hsee
    exact h _ ⟨q, hsee, rfl⟩
  · rintro h v ⟨q, hsee, rfl⟩
    exact h q hsee

/-! ### Kernels that fit -/

section Fits

variable (bufE bufD : ℤ → ℤ → ℕ) {img : Image} (hb : img.bpp = .binary) {ksize : ℕ}
include hb

theorem binary_shape (buf : ℤ → ℤ → ℕ) (ksize : ℕ) (threshold : ℤ) (eOrD : Bool) :
    (imlibErodeDilate buf img ksize threshold eOrD none).w = img.w ∧
      (imlibErodeDilate buf img ksize threshold eOrD none).h = img.h ∧
      (imlibErodeDilate buf img ksize threshold eOrD none).bpp = .binary := by
  obtain ⟨hw, hh, hbpp⟩ := imlibErodeDilate_shape buf img ksize threshold eOrD none
  exact ⟨hw, hh, hbpp.trans hb⟩

/-- A dilation sets what sees a set pixel. -/
theorem setPixels_dilate (hk : ksize ≤ 23169) :
    setPixels img.w img.h (imlibDilate bufD img ksize 0 none) =
      (sees img.w img.h ksize).image (setPixels img.w img.h img) := by
  ext p
  have hm : img.Mem (p.x, p.y) := p.mem
  have hlt := setCount_lt hk img p.x p.y
  rw [mem_image_of_symm, ← setCount_pos_iff, setPixels, Set.mem_ofPred_eq,
    imlibDilate_pixel bufD (twoValued_of_binary hb) ksize 0 hm, int32_of_mem (by omega) (by omega)]
  constructor
  · intro h
    by_contra hpos
    rw [if_neg (by omega)] at h
    exact hpos ((setCount_pos_iff p).mpr ⟨p, h, sees_self ksize p⟩)
  · intro h
    rw [if_pos (by omega), hb]
    decide

/-- An erosion leaves what sees only set pixels. -/
theorem setPixels_erode (hk : ksize ≤ 23169) :
    setPixels img.w img.h (imlibErode bufE img ksize (int32 (int32 (kernelN ksize - 1) - 0)) none) =
      (sees img.w img.h ksize).core (setPixels img.w img.h img) := by
  ext p
  have hm : img.Mem (p.x, p.y) := p.mem
  have hlt := setCount_lt hk img p.x p.y
  have hle := setCount_le img ksize p.x p.y
  have hn : (2 * ksize + 1) ^ 2 ≤ (2 * 23169 + 1) ^ 2 := Nat.pow_le_pow_left (by omega) 2
  have hthr : int32 (int32 (kernelN ksize - 1) - 0) = ((2 * ksize + 1) ^ 2 : ℕ) - 1 := by
    have hn1 : int32 (((2 * ksize + 1) ^ 2 : ℕ) - 1) = ((2 * ksize + 1) ^ 2 : ℕ) - 1 :=
      int32_of_mem (by omega) (by omega)
    rw [kernelN_eq (by omega), hn1, sub_zero, hn1]
  rw [SetRel.mem_core, ← setCount_eq_iff, setPixels, Set.mem_ofPred_eq, hthr,
    imlibErode_pixel bufE (twoValued_of_binary hb) ksize _ hm, int32_of_mem (by omega) (by omega)]
  constructor
  · intro h
    by_contra hne
    rw [if_pos (by omega)] at h
    exact h rfl
  · intro h
    rw [if_neg (by omega)]
    exact (setCount_eq_iff p).mp h p (sees_self ksize p)

end Fits

/-! ### The laws -/

/-- Two images that look the same. -/
def SamePixels (a b : Image) : Prop :=
  (a.w = b.w ∧ a.h = b.h ∧ a.bpp = b.bpp) ∧ ∀ x y, a.Mem (x, y) → a.pixel x y = b.pixel x y

/-- What is set in the one is set in the other. -/
def SetBelow (a b : Image) : Prop :=
  (a.w = b.w ∧ a.h = b.h ∧ a.bpp = b.bpp) ∧ ∀ x y, a.Mem (x, y) → a.pixel x y ≠ 0 → b.pixel x y ≠ 0

/-- The laws of openings and closings, for the binary images; `bufs` are what buffer images hold. -/
structure OpenCloseLaws (ksize : ℕ) : Prop where
  open_open : ∀ b₁ b₂ b₃ b₄ img, img.bpp = .binary →
    SamePixels (imlibOpen b₃ b₄ (imlibOpen b₁ b₂ img ksize 0 none) ksize 0 none)
      (imlibOpen b₁ b₂ img ksize 0 none)
  open_below : ∀ b₁ b₂ img, img.bpp = .binary → SetBelow (imlibOpen b₁ b₂ img ksize 0 none) img
  open_mono : ∀ b₁ b₂ b₃ b₄ img img', img.bpp = .binary → SetBelow img img' →
    SetBelow (imlibOpen b₁ b₂ img ksize 0 none) (imlibOpen b₃ b₄ img' ksize 0 none)
  close_close : ∀ b₁ b₂ b₃ b₄ img, img.bpp = .binary →
    SamePixels (imlibClose b₃ b₄ (imlibClose b₁ b₂ img ksize 0 none) ksize 0 none)
      (imlibClose b₁ b₂ img ksize 0 none)
  below_close : ∀ b₁ b₂ img, img.bpp = .binary → SetBelow img (imlibClose b₁ b₂ img ksize 0 none)
  close_mono : ∀ b₁ b₂ b₃ b₄ img img', img.bpp = .binary → SetBelow img img' →
    SetBelow (imlibClose b₁ b₂ img ksize 0 none) (imlibClose b₃ b₄ img' ksize 0 none)
  close_negate : ∀ b₁ b₂ b₃ b₄ img, img.bpp = .binary →
    SamePixels (imlibClose b₁ b₂ (imlibNegate img) ksize 0 none)
      (imlibNegate (imlibOpen b₃ b₄ img ksize 0 none))

theorem binary_pixel {img : Image} (hb : img.bpp = .binary) (x y : ℤ) :
    img.pixel x y = 0 ∨ img.pixel x y = 1 := by
  have hp := pixel_mem img x y
  simp only [hb, levels] at hp
  omega

/-- A binary image is its size and its set pixels. -/
theorem samePixels_iff {a b : Image} {w h : ℤ} (ha : a.w = w ∧ a.h = h ∧ a.bpp = .binary)
    (hb : b.w = w ∧ b.h = h ∧ b.bpp = .binary) : SamePixels a b ↔ setPixels w h a = setPixels w h b := by
  obtain ⟨rfl, rfl, habpp⟩ := ha
  constructor
  · intro hs
    ext p
    simp only [setPixels, Set.mem_ofPred_eq, hs.2 p.x p.y p.mem]
  · intro hs
    refine ⟨⟨hb.1.symm, hb.2.1.symm, habpp.trans hb.2.2.symm⟩, fun x y hm => ?_⟩
    have hp := Set.ext_iff.mp hs ⟨x, y, hm⟩
    simp only [setPixels, Set.mem_ofPred_eq] at hp
    rcases binary_pixel habpp x y with h0 | h0 <;> rcases binary_pixel hb.2.2 x y with h1 | h1 <;> simp_all

theorem setBelow_iff {a b : Image} {w h : ℤ} (ha : a.w = w ∧ a.h = h ∧ a.bpp = .binary)
    (hb : b.w = w ∧ b.h = h ∧ b.bpp = .binary) : SetBelow a b ↔ setPixels w h a ⊆ setPixels w h b := by
  obtain ⟨rfl, rfl, habpp⟩ := ha
  constructor
  · intro hs p hp
    exact hs.2 p.x p.y p.mem hp
  · intro hs
    refine ⟨⟨hb.1.symm, hb.2.1.symm, habpp.trans hb.2.2.symm⟩, fun x y hm hne => ?_⟩
    exact hs (a := ⟨x, y, hm⟩) hne

section Binary

variable {img : Image} {w h : ℤ} (hs : img.w = w ∧ img.h = h ∧ img.bpp = .binary)
include hs

theorem imlibOpen_shape (b₁ b₂ : ℤ → ℤ → ℕ) (ksize : ℕ) : (imlibOpen b₁ b₂ img ksize 0 none).w = w ∧
    (imlibOpen b₁ b₂ img ksize 0 none).h = h ∧ (imlibOpen b₁ b₂ img ksize 0 none).bpp = .binary := by
  obtain ⟨rfl, rfl, hb⟩ := hs
  have he := binary_shape hb b₁ ksize (int32 (int32 (kernelN ksize - 1) - 0)) false
  have hd := binary_shape he.2.2 b₂ ksize (int32 (0 + 0)) true
  exact ⟨hd.1.trans he.1, hd.2.1.trans he.2.1, hd.2.2⟩

theorem imlibClose_shape (b₁ b₂ : ℤ → ℤ → ℕ) (ksize : ℕ) : (imlibClose b₁ b₂ img ksize 0 none).w = w ∧
    (imlibClose b₁ b₂ img ksize 0 none).h = h ∧ (imlibClose b₁ b₂ img ksize 0 none).bpp = .binary := by
  obtain ⟨rfl, rfl, hb⟩ := hs
  have hd := binary_shape hb b₂ ksize (int32 (0 + 0)) true
  have he := binary_shape hd.2.2 b₁ ksize (int32 (int32 (kernelN ksize - 1) - 0)) false
  exact ⟨he.1.trans hd.1, he.2.1.trans hd.2.1, he.2.2⟩

theorem imlibNegate_binary_shape :
    (imlibNegate img).w = w ∧ (imlibNegate img).h = h ∧ (imlibNegate img).bpp = .binary := by
  obtain ⟨hw, hh, hb⟩ := imlibNegate_shape img
  exact ⟨hw.trans hs.1, hh.trans hs.2.1, hb.trans hs.2.2⟩

theorem setPixels_open (b₁ b₂ : ℤ → ℤ → ℕ) {ksize : ℕ} (hk : ksize ≤ 23169) :
    setPixels w h (imlibOpen b₁ b₂ img ksize 0 none) = opening (sees w h ksize) (setPixels w h img) := by
  obtain ⟨rfl, rfl, hb⟩ := hs
  obtain ⟨hw, hh, hbpp⟩ := binary_shape hb b₁ ksize (int32 (int32 (kernelN ksize - 1) - 0)) false
  rw [opening, ← setPixels_erode b₁ hb hk]
  have hd := setPixels_dilate b₂ hbpp hk
  rw [hw, hh] at hd
  exact hd

theorem setPixels_close (b₁ b₂ : ℤ → ℤ → ℕ) {ksize : ℕ} (hk : ksize ≤ 23169) :
    setPixels w h (imlibClose b₁ b₂ img ksize 0 none) = closing (sees w h ksize) (setPixels w h img) := by
  obtain ⟨rfl, rfl, hb⟩ := hs
  obtain ⟨hw, hh, hbpp⟩ := binary_shape hb b₂ ksize (int32 (0 + 0)) true
  rw [closing, ← setPixels_dilate b₂ hb hk]
  have he := setPixels_erode b₁ hbpp hk
  rw [hw, hh] at he
  exact he

theorem setPixels_negate : setPixels w h (imlibNegate img) = (setPixels w h img)ᶜ := by
  obtain ⟨rfl, rfl, hb⟩ := hs
  ext p
  have hm : img.Mem (p.x, p.y) := p.mem
  simp only [setPixels, Set.mem_ofPred_eq, Set.mem_compl_iff, imlibNegate_pixel (.inl hb) hm]
  rcases binary_pixel hb p.x p.y with h0 | h0 <;> simp [h0, hb, levels]

end Binary

theorem openCloseLaws_of_le {ksize : ℕ} (hk : ksize ≤ 23169) : OpenCloseLaws ksize where
  open_open b₁ b₂ b₃ b₄ img hb := by
    have h1 := imlibOpen_shape ⟨rfl, rfl, hb⟩ b₁ b₂ ksize
    rw [samePixels_iff (imlibOpen_shape h1 b₃ b₄ ksize) h1, setPixels_open h1 b₃ b₄ hk,
      setPixels_open ⟨rfl, rfl, hb⟩ b₁ b₂ hk, opening_opening]
  open_below b₁ b₂ img hb := by
    rw [setBelow_iff (imlibOpen_shape ⟨rfl, rfl, hb⟩ b₁ b₂ ksize) ⟨rfl, rfl, hb⟩,
      setPixels_open ⟨rfl, rfl, hb⟩ b₁ b₂ hk]
    exact opening_subset _
  open_mono b₁ b₂ b₃ b₄ img img' hb hle := by
    have hs' : img'.w = img.w ∧ img'.h = img.h ∧ img'.bpp = .binary :=
      ⟨hle.1.1.symm, hle.1.2.1.symm, hle.1.2.2.symm.trans hb⟩
    rw [setBelow_iff (imlibOpen_shape ⟨rfl, rfl, hb⟩ b₁ b₂ ksize) (imlibOpen_shape hs' b₃ b₄ ksize),
      setPixels_open ⟨rfl, rfl, hb⟩ b₁ b₂ hk, setPixels_open hs' b₃ b₄ hk]
    exact opening_mono ((setBelow_iff ⟨rfl, rfl, hb⟩ hs').mp hle)
  close_close b₁ b₂ b₃ b₄ img hb := by
    have h1 := imlibClose_shape ⟨rfl, rfl, hb⟩ b₁ b₂ ksize
    rw [samePixels_iff (imlibClose_shape h1 b₃ b₄ ksize) h1, setPixels_close h1 b₃ b₄ hk,
      setPixels_close ⟨rfl, rfl, hb⟩ b₁ b₂ hk, closing_closing]
  below_close b₁ b₂ img hb := by
    rw [setBelow_iff ⟨rfl, rfl, hb⟩ (imlibClose_shape ⟨rfl, rfl, hb⟩ b₁ b₂ ksize),
      setPixels_close ⟨rfl, rfl, hb⟩ b₁ b₂ hk]
    exact subset_closing _
  close_mono b₁ b₂ b₃ b₄ img img' hb hle := by
    have hs' : img'.w = img.w ∧ img'.h = img.h ∧ img'.bpp = .binary :=
      ⟨hle.1.1.symm, hle.1.2.1.symm, hle.1.2.2.symm.trans hb⟩
    rw [setBelow_iff (imlibClose_shape ⟨rfl, rfl, hb⟩ b₁ b₂ ksize) (imlibClose_shape hs' b₃ b₄ ksize),
      setPixels_close ⟨rfl, rfl, hb⟩ b₁ b₂ hk, setPixels_close hs' b₃ b₄ hk]
    exact closing_mono ((setBelow_iff ⟨rfl, rfl, hb⟩ hs').mp hle)
  close_negate b₁ b₂ b₃ b₄ img hb := by
    have hn := imlibNegate_binary_shape ⟨rfl, rfl, hb⟩
    have ho := imlibOpen_shape ⟨rfl, rfl, hb⟩ b₃ b₄ ksize
    rw [samePixels_iff (imlibClose_shape hn b₁ b₂ ksize) (imlibNegate_binary_shape ho),
      setPixels_close hn b₁ b₂ hk, setPixels_negate ⟨rfl, rfl, hb⟩, setPixels_negate ho,
      setPixels_open ⟨rfl, rfl, hb⟩ b₃ b₄ hk, closing_compl]

/-! ### Larger kernels -/

theorem countP_le_card {α : Type*} [DecidableEq α] {l : List α} (hl : l.Nodup) {P : α → Bool} {X : Finset α}
    (h : ∀ a ∈ l, P a = true → a ∈ X) : l.countP P ≤ X.card := by
  rw [List.countP_eq_length_filter, ← List.toFinset_card_of_nodup (hl.filter P)]
  refine Finset.card_le_card fun a ha => ?_
  obtain ⟨hal, hPa⟩ := List.mem_filter.mp (List.mem_toFinset.mp ha)
  exact h a hal hPa

theorem card_le_countP {α : Type*} [DecidableEq α] {l : List α} {P : α → Bool} {X : Finset α}
    (h : ∀ a ∈ X, a ∈ l ∧ P a = true) : X.card ≤ l.countP P := by
  rw [List.countP_eq_length_filter]
  refine le_trans (Finset.card_le_card fun a ha => ?_) (List.toFinset_card_le _)
  exact List.mem_toFinset.mpr (List.mem_filter.mpr (h a ha))

/-- A pixel that the erosion leaves set ones around is set by the dilation. -/
theorem imlibOpen_pixel_ne_zero (b₁ b₂ : ℤ → ℤ → ℕ) {img : Image} (hb : img.bpp = .binary) {ksize : ℕ} {x y : ℤ}
    (hm : img.Mem (x, y)) {n : ℕ}
    (hn : setCount (imlibErode b₁ img ksize (int32 (int32 (kernelN ksize - 1) - 0)) none) ksize x y = n)
    (hpos : 0 < n) (hle : n ≤ 2147483647) : (imlibOpen b₁ b₂ img ksize 0 none).pixel x y ≠ 0 := by
  obtain ⟨hw, hh, hbpp⟩ := binary_shape hb b₁ ksize (int32 (int32 (kernelN ksize - 1) - 0)) false
  rw [← imlibErode] at hbpp
  have hm' : (imlibErode b₁ img ksize (int32 (int32 (kernelN ksize - 1) - 0)) none).Mem (x, y) := by
    rw [Image.Mem, imlibErode, hw, hh]
    exact hm
  have hzero : int32 (0 + 0) = 0 := rfl
  have hfit : int32 n = n := int32_of_mem (by omega) (by omega)
  rw [imlibOpen, imlibDilate_pixel b₂ (twoValued_of_binary hbpp) ksize _ hm', hn, hfit, hzero,
    if_pos (Int.natCast_pos.mpr hpos), hbpp]
  decide

/-- A window inside the image has each of its pixels once. -/
theorem setCount_of_inside {img : Image} {ksize : ℕ} {x y : ℤ} (hx : (ksize : ℤ) ≤ x ∧ x + ksize < img.w)
    (hy : (ksize : ℤ) ≤ y ∧ y + ksize < img.h) :
    setCount img ksize x y = (squareCells ksize x y).countP fun q => decide (img.pixel q.1 q.2 ≠ 0) := by
  rw [setCount, window_eq_map, List.countP_map]
  refine List.countP_congr fun q hq => ?_
  have hcell := mem_squareCells.mp hq
  simp only [Function.comp_def, clamp_of_mem (show 0 ≤ q.1 by omega) (show q.1 < img.w by omega),
    clamp_of_mem (show 0 ≤ q.2 by omega) (show q.2 < img.h by omega)]

theorem length_squareCells (k : ℕ) (x y : ℤ) : (squareCells k x y).length = (2 * k + 1) ^ 2 := by
  rw [← length_window (fun _ _ => ()) 0 0 k x y, window_eq_map, List.length_map]

/-- A picture of `4 * k + 1` by `4 * k + 1` pixels. -/
def ofSet (k : ℕ) (X : Finset (ℤ × ℤ)) : Image :=
  ⟨4 * k + 1, 4 * k + 1, .binary, fun c r => if (c, r) ∈ X then 1 else 0⟩

theorem ofSet_pixel (k : ℕ) (X : Finset (ℤ × ℤ)) (c r : ℤ) :
    (ofSet k X).pixel c r = if (c, r) ∈ X then 1 else 0 := by
  simp only [ofSet, Image.pixel, imageGetBinaryPixel]
  split <;> rfl

section Wrap

variable {k : ℕ} {X : Finset (ℤ × ℤ)}

/-- With `2 ^ 31` set pixels in its window the center is not cleared, whatever the threshold is. -/
theorem erode_keeps_center (buf : ℤ → ℤ → ℕ) (hX : X ⊆ (squareCells k (2 * k) (2 * k)).toFinset)
    (hcard : X.card = 2147483648) (hcenter : (2 * (k : ℤ), 2 * (k : ℤ)) ∈ X) (v : ℤ) :
    (imlibErode buf (ofSet k X) k (int32 v) none).pixel (2 * k) (2 * k) ≠ 0 := by
  have hm : (ofSet k X).Mem (2 * (k : ℤ), 2 * (k : ℤ)) := by
    simp only [Image.Mem, ofSet]
    omega
  have hcount : setCount (ofSet k X) k (2 * k) (2 * k) = 2147483648 := by
    rw [setCount_of_inside (by simp only [ofSet]; omega) (by simp only [ofSet]; omega)]
    refine le_antisymm ?_ ?_
    · rw [← hcard]
      refine countP_le_card (nodup_squareCells _ _ _) fun q _ hq => ?_
      by_contra hmem
      simp [ofSet_pixel, hmem] at hq
    · rw [← hcard]
      exact card_le_countP fun q hq => ⟨List.mem_toFinset.mp (hX hq), by simp [ofSet_pixel, hq]⟩
  rw [imlibErode_pixel buf (twoValued_of_binary rfl) k _ hm, hcount, ofSet_pixel, if_pos hcenter, if_neg]
  · decide
  · unfold int32
    omega

/-- No other window has all of a set with the center and two opposite corners. -/
theorem exists_notMem_squareCells {c r : ℤ} (hne : (c, r) ≠ (2 * (k : ℤ), 2 * (k : ℤ)))
    (h1 : ((k : ℤ), (k : ℤ)) ∈ X) (h2 : (3 * (k : ℤ), 3 * (k : ℤ)) ∈ X) :
    ∃ q ∈ X, q ∉ squareCells k c r := by
  by_contra hall
  push Not at hall
  have hlow := mem_squareCells.mp (hall _ h1)
  have hhigh := mem_squareCells.mp (hall _ h2)
  exact hne (Prod.ext (by dsimp only; omega) (by dsimp only; omega))

end Wrap

/-- A kernel that is too large opens some image to one with more set pixels. -/
theorem not_openCloseLaws {ksize : ℕ} (hk : ¬ ksize ≤ 23169) : ¬ OpenCloseLaws ksize := by
  intro hlaws
  have hpow : (2 * 23170 + 1) ^ 2 ≤ (2 * ksize + 1) ^ 2 := Nat.pow_le_pow_left (by omega) 2
  -- a set of 2 ^ 31 pixels in the window of the middle
  let points : Finset (ℤ × ℤ) := {(2 * (ksize : ℤ), 2 * (ksize : ℤ)), ((ksize : ℤ), (ksize : ℤ)),
    (3 * (ksize : ℤ), 3 * (ksize : ℤ))}
  have hall : (squareCells ksize (2 * ksize) (2 * ksize)).toFinset.card = (2 * ksize + 1) ^ 2 := by
    rw [List.toFinset_card_of_nodup (nodup_squareCells _ _ _), length_squareCells]
  have hpoints : points ⊆ (squareCells ksize (2 * ksize) (2 * ksize)).toFinset := by
    intro q hq
    simp only [points, Finset.mem_insert, Finset.mem_singleton] at hq
    rw [List.mem_toFinset]
    rcases hq with rfl | rfl | rfl <;> exact mem_squareCells.mpr (by omega)
  obtain ⟨X, hpX, hX, hcard⟩ := Finset.exists_subsuperset_card_eq hpoints
    (Finset.card_le_three.trans (by norm_num : 3 ≤ 2147483648)) (by omega)
  have hcenter : (2 * (ksize : ℤ), 2 * (ksize : ℤ)) ∈ X := hpX (by simp [points])
  -- a clear pixel of that window
  obtain ⟨⟨c, r⟩, hcell, hclear⟩ := Finset.exists_mem_notMem_of_card_lt_card (show X.card <
    (squareCells ksize (2 * ksize) (2 * ksize)).toFinset.card by omega)
  have hc := mem_squareCells.mp (List.mem_toFinset.mp hcell)
  have hm : (ofSet ksize X).Mem (c, r) := by
    simp only [Image.Mem, ofSet]
    omega
  obtain ⟨q, hq, hqnot⟩ := exists_notMem_squareCells (c := c) (r := r) (by rintro heq; exact hclear (heq ▸ hcenter))
    (hpX (by simp [points])) (hpX (by simp [points]))
  set e := imlibErode (fun _ _ => 0) (ofSet ksize X) ksize (int32 (int32 (kernelN ksize - 1) - 0)) none with he
  obtain ⟨hew, heh, heb⟩ : e.w = _ ∧ e.h = _ ∧ e.bpp = _ := binary_shape (show (ofSet ksize X).bpp = .binary from rfl)
    (fun _ _ => 0) ksize (int32 (int32 (kernelN ksize - 1) - 0)) false
  have hsub : ∀ a ∈ squareCells ksize c r, decide (e.pixel a.1 a.2 ≠ 0) = true → a ∈ X.erase q := by
    intro a ha hset
    have hac := mem_squareCells.mp ha
    have ham : (ofSet ksize X).Mem (a.1, a.2) := by
      simp only [Image.Mem, ofSet]
      omega
    refine Finset.mem_erase.mpr ⟨fun heq => hqnot (heq ▸ ha), ?_⟩
    by_contra hmem
    rw [he, imlibErode_pixel _ (twoValued_of_binary rfl) ksize _ ham, ofSet_pixel, if_neg hmem] at hset
    simp [colorBinaryMin] at hset
  have hcount : setCount e ksize c r = (squareCells ksize c r).countP fun a => decide (e.pixel a.1 a.2 ≠ 0) :=
    setCount_of_inside (by rw [hew]; simp only [ofSet]; omega) (by rw [heh]; simp only [ofSet]; omega)
  have hle : setCount e ksize c r ≤ 2147483647 := by
    have := countP_le_card (nodup_squareCells ksize c r) hsub
    rw [Finset.card_erase_of_mem hq, hcard] at this
    rwa [hcount]
  have hpos : 0 < setCount e ksize c r := by
    rw [hcount, List.countP_pos_iff]
    refine ⟨(2 * (ksize : ℤ), 2 * (ksize : ℤ)), mem_squareCells.mpr (by omega), decide_eq_true ?_⟩
    exact erode_keeps_center _ hX hcard hcenter _
  have hopen := imlibOpen_pixel_ne_zero (fun _ _ => 0) (fun _ _ => 0) rfl hm (n := setCount e ksize c r) rfl hpos hle
  have hbelow := hlaws.open_below (fun _ _ => 0) (fun _ _ => 0) (ofSet ksize X) rfl
  have hshape := imlibOpen_shape
    (show (ofSet ksize X).w = _ ∧ (ofSet ksize X).h = _ ∧ (ofSet ksize X).bpp = .binary from ⟨rfl, rfl, rfl⟩)
    (fun _ _ => 0) (fun _ _ => 0) ksize
  have hset := hbelow.2 c r (by rw [Image.Mem, hshape.1, hshape.2.1]; exact hm) hopen
  rw [ofSet_pixel, if_neg hclear] at hset
  exact hset rfl

/-- Two pixels, of which the left one is set. -/
def leftOfTwo : Image := ⟨2, 1, .binary, fun x _ => if x = 0 then 1 else 0⟩

/-- Where the right one of two pixels is clear, each row of a window has a clear pixel. -/
theorem setCount_of_two {img : Image} {k : ℕ} (hw : img.w = 2) (hh : img.h = 1) (hclear : img.pixel 1 0 = 0)
    {x : ℤ} (hx : 0 < x + k) : setCount img k x 0 ≤ (2 * k + 1) * (2 * k) := by
  have hrow : ∀ n ∈ (offsets k).map
      fun j => (windowRow img.pixel img.w img.h k x 0 j).countP fun p => decide (p ≠ 0), n ≤ 2 * k := by
    intro n hn
    obtain ⟨j, -, rfl⟩ := List.mem_map.mp hn
    have hlen : (windowRow img.pixel img.w img.h k x 0 j).length = 2 * k + 1 := by simp [windowRow]
    have hle := List.countP_le_length (p := fun p : ℤ => decide (p ≠ 0))
      (l := windowRow img.pixel img.w img.h k x 0 j)
    have hne : (windowRow img.pixel img.w img.h k x 0 j).countP (fun p => decide (p ≠ 0)) ≠
        (windowRow img.pixel img.w img.h k x 0 j).length := by
      rw [Ne, List.countP_eq_length]
      intro hall
      have hlast := hall (img.pixel (clamp (x + k) img.w) (clamp (0 + j) img.h))
        (List.mem_map.mpr ⟨k, mem_offsets.mpr ⟨by omega, le_rfl⟩, rfl⟩)
      have hx1 : clamp (x + k) img.w = 1 := by
        unfold clamp
        omega
      have hy0 : clamp (0 + j) img.h = 0 := by
        unfold clamp
        omega
      rw [hx1, hy0, hclear] at hlast
      exact absurd hlast (by decide)
    omega
  have hsum := List.sum_le_card_nsmul _ _ hrow
  rw [List.length_map, length_offsets, nsmul_eq_mul, Nat.cast_id] at hsum
  rwa [setCount, window, List.countP_flatMap]

end OpenMV.Filters
