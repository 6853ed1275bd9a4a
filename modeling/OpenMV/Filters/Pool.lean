import OpenMV.Filters.Mean
import OpenMV.Schemes.Tiles

/-! Pooling | scheme:loop | source:src/src/openmv/omv/img/pool.c

    `imlib_midpoint_pool` and `imlib_mean_pool` make one pixel of each block of the source. The loops are
    written out three times in each of them, once a format, with the same bounds but for one: the midpoint
    of a grayscale image has a row of the output for each row of the source. The sums and the number of
    pixels of a block are kept in an `int`. -/

namespace OpenMV.Filters
open Schemes Vision

/-! ### The code -/

/-- The macros do not check where they read. What is there outside the image is not defined. -/
def poolGet (img : Image) (x y : ℤ) : Option ℤ :=
  if 0 ≤ x ∧ x < img.w ∧ 0 ≤ y ∧ y < img.h then some (img.pixel x y) else none

section Code

variable (imgI imgO : Image) (xDiv yDiv : ℕ)

/-- The loops of one format: `yy` rows of the output, and the first `yyy` rows of the source are left out. The
    result is what is stored, in this order; there is nothing to store to outside the output. -/
def poolLoop {σ : Type} (yy yyy : ℤ) (step : σ → ℤ → σ) (start : σ) (value : σ → Option ℤ) :
    Option (List ((ℤ × ℤ) × ℕ)) :=
  storesAt (fun p => do
    let s ← foldBlock (poolGet imgI) step xDiv yDiv start (imgI.w % xDiv / 2 + p.1 * xDiv) (yyy + p.2 * yDiv)
    let v ← value s
    if 0 ≤ p.1 ∧ p.1 < imgO.w ∧ 0 ≤ p.2 ∧ p.2 < imgO.h then some (putPixel imgI.bpp v) else none)
    (blockCells 0 0 (imgI.w / xDiv).toNat yy.toNat)

/-- `min = IM_MIN(min, pixel); max = IM_MAX(max, pixel);` -/
def minMax (s : ℤ × ℤ) (pixel : ℤ) : ℤ × ℤ := (min s.1 pixel, max s.2 pixel)

/-- `((min*min_bias)+(max*max_bias))>>8`. -/
def blend (bias : ℤ) (s : ℤ × ℤ) : ℤ := (s.1 * (256 - bias) + s.2 * bias) / 256

/-- The same for the three channels. -/
def overChannels {σ : Type} (step : σ → ℤ → σ) (s : σ × σ × σ) (pixel : ℤ) : σ × σ × σ :=
  (step s.1 (colorRgb565ToR5 pixel), step s.2.1 (colorRgb565ToG6 pixel), step s.2.2 (colorRgb565ToB5 pixel))

def imlibMidpointPool (bias : ℤ) : Option (List ((ℤ × ℤ) × ℕ)) :=
  match imgI.bpp with
  | .binary => poolLoop imgI imgO xDiv yDiv (imgI.h / yDiv) (imgI.h % yDiv / 2) minMax (1, 0)
      fun s => some (blend bias s)
  -- the bound and the offset of the rows are not those of the other formats
  | .grayscale => poolLoop imgI imgO xDiv yDiv imgI.h (imgI.h % yDiv / 2 / yDiv) minMax (255, 0)
      fun s => some (blend bias s)
  | .rgb565 => poolLoop imgI imgO xDiv yDiv (imgI.h / yDiv) (imgI.h % yDiv / 2) (overChannels minMax)
      ((31, 0), (63, 0), (31, 0))
      fun s => some (colorR5G6B5ToRgb565 (blend bias s.1) (blend bias s.2.1) (blend bias s.2.2))
  | .bayer | .jpeg => some []

def accumulate (acc pixel : ℤ) : ℤ := int32 (acc + pixel)

/-- `acc / n`. -/
def quot (n acc : ℤ) : Option ℤ := if n = 0 then none else some (acc.tdiv n)

def quotRgb565 (n : ℤ) (s : ℤ × ℤ × ℤ) : Option ℤ := do
  let r ← quot n s.1
  let g ← quot n s.2.1
  let b ← quot n s.2.2
  some (colorR5G6B5ToRgb565 r g b)

def imlibMeanPool : Option (List ((ℤ × ℤ) × ℕ)) :=
  let n := int32 (xDiv * yDiv)
  match imgI.bpp with
  | .binary | .grayscale => poolLoop imgI imgO xDiv yDiv (imgI.h / yDiv) (imgI.h % yDiv / 2) accumulate 0 (quot n)
  | .rgb565 => poolLoop imgI imgO xDiv yDiv (imgI.h / yDiv) (imgI.h % yDiv / 2) (overChannels accumulate) (0, 0, 0)
      (quotRgb565 n)
  | .bayer | .jpeg => some []

end Code

/-! ### What pooling is for -/

/-- The block of the source that a pixel of the output stands for. -/
def sourceBlock (imgI : Image) (xDiv yDiv : ℕ) (p : ℤ × ℤ) : List (ℤ × ℤ) :=
  blockCells (imgI.w % xDiv / 2 + p.1 * xDiv) (imgI.h % yDiv / 2 + p.2 * yDiv) xDiv yDiv

/-- The values of a channel in a block. -/
def blockValues (imgI : Image) (xDiv yDiv : ℕ) (chan : ℤ → ℤ) (p : ℤ × ℤ) : List ℤ :=
  (sourceBlock imgI xDiv yDiv p).map fun q => chan (imgI.pixel q.1 q.2)

/-- Every pixel of the output is stored once and nothing else is, and each channel of it is made of the channel of
    the pixels of its block. -/
structure Pools (imgI imgO : Image) (xDiv yDiv : ℕ) (made : List ℤ → ℤ → Prop) (ws : List ((ℤ × ℤ) × ℕ)) : Prop where
  once : (ws.map Prod.fst).Nodup
  covers : ∀ p, p ∈ ws.map Prod.fst ↔ imgO.Mem p
  value : ∀ s ∈ ws, ∀ chan ∈ channels imgI.bpp,
    made (blockValues imgI xDiv yDiv chan s.1) (chan (getPixel imgI.bpp s.2))

def IsMidpoint (bias : ℤ) (l : List ℤ) (v : ℤ) : Prop :=
  ∃ a b, IsLeast {p | p ∈ l} a ∧ IsGreatest {p | p ∈ l} b ∧ v = (a * (256 - bias) + b * bias) / 256

def IsFloorMean (l : List ℤ) (v : ℤ) : Prop := v = l.sum / l.length

/-! ### The loops -/

section Loops

variable {imgI imgO : Image} {xDiv yDiv : ℕ}

/-- The sizes the callers check. -/
structure Divides (imgI imgO : Image) (xDiv yDiv : ℕ) : Prop where
  x : 1 ≤ xDiv ∧ xDiv ≤ imgI.w
  y : 1 ≤ yDiv ∧ yDiv ≤ imgI.h
  w : imgO.w = imgI.w / xDiv
  h : imgO.h = imgI.h / yDiv

/-- A block, after half of what is left over, ends before the other half. -/
theorem block_le {n x : ℤ} {d : ℕ} (hd : 1 ≤ d) (hx0 : 0 ≤ x) (hx : x < n / d) :
    0 ≤ n % d / 2 + x * d ∧ n % d / 2 + x * d + d ≤ n := by
  have hpos : (0 : ℤ) < d := by exact_mod_cast hd
  have hmod := Int.emod_nonneg n hpos.ne'
  have hsum := Int.mul_ediv_add_emod n d
  have hle : (x + 1) * d ≤ n / d * d := mul_le_mul_of_nonneg_right hx hpos.le
  have hx' : 0 ≤ x * d := mul_nonneg hx0 hpos.le
  rw [add_mul, one_mul] at hle
  rw [mul_comm] at hsum
  omega

theorem mem_of_sourceBlock (hd : Divides imgI imgO xDiv yDiv) {p q : ℤ × ℤ} (hp : imgO.Mem p)
    (hq : q ∈ sourceBlock imgI xDiv yDiv p) : imgI.Mem q := by
  obtain ⟨hx0, hxw, hy0, hyh⟩ := hp
  obtain ⟨c, r⟩ := q
  obtain ⟨hc, hr⟩ := mem_blockCells.mp hq
  have hx := block_le hd.x.1 hx0 (hd.w ▸ hxw)
  have hy := block_le hd.y.1 hy0 (hd.h ▸ hyh)
  refine ⟨?_, ?_, ?_, ?_⟩ <;> dsimp only <;> omega

theorem sourceBlock_ne_nil (hd : Divides imgI imgO xDiv yDiv) (p : ℤ × ℤ) : sourceBlock imgI xDiv yDiv p ≠ [] := by
  have hpos : 0 < yDiv * xDiv := Nat.mul_pos hd.y.1 hd.x.1
  intro hnil
  rw [← length_blockCells, List.length_pos_iff] at hpos
  exact hpos hnil

theorem mem_outCells (hd : Divides imgI imgO xDiv yDiv) (p : ℤ × ℤ) :
    p ∈ blockCells 0 0 (imgI.w / xDiv).toNat (imgI.h / yDiv).toNat ↔ imgO.Mem p := by
  obtain ⟨x, y⟩ := p
  rw [mem_blockCells, ← hd.w, ← hd.h, Image.Mem]
  dsimp only
  omega

section Loop

variable {σ : Type} {step : σ → ℤ → σ} {start : σ} {value : σ → Option ℤ}

/-- What is left of a block: the fold over its pixels. -/
def blockFold (imgI : Image) (xDiv yDiv : ℕ) (step : σ → ℤ → σ) (start : σ) (p : ℤ × ℤ) : σ :=
  ((sourceBlock imgI xDiv yDiv p).map fun q => imgI.pixel q.1 q.2).foldl step start

theorem foldBlock_source (hd : Divides imgI imgO xDiv yDiv) {p : ℤ × ℤ} (hp : imgO.Mem p) :
    foldBlock (poolGet imgI) step xDiv yDiv start (imgI.w % xDiv / 2 + p.1 * xDiv) (imgI.h % yDiv / 2 + p.2 * yDiv) =
      some (blockFold imgI xDiv yDiv step start p) :=
  foldBlock_eq step (fun _ hq => if_pos (mem_of_sourceBlock hd hp hq)) start

theorem poolLoop_of_some (hd : Divides imgI imgO xDiv yDiv) {v : ℤ × ℤ → ℤ}
    (hv : ∀ p, imgO.Mem p → value (blockFold imgI xDiv yDiv step start p) = some (v p)) :
    poolLoop imgI imgO xDiv yDiv (imgI.h / yDiv) (imgI.h % yDiv / 2) step start value =
      some ((blockCells 0 0 (imgI.w / xDiv).toNat (imgI.h / yDiv).toNat).map fun p =>
        (p, putPixel imgI.bpp (v p))) := by
  refine storesAt_of_some fun p hp => ?_
  have hm := (mem_outCells hd p).mp hp
  simp only [foldBlock_source hd hm, Option.bind_eq_bind, Option.bind_some, hv p hm]
  exact if_pos hm

theorem poolLoop_of_none (hd : Divides imgI imgO xDiv yDiv) {p : ℤ × ℤ} (hp : imgO.Mem p)
    (hv : value (blockFold imgI xDiv yDiv step start p) = none) :
    poolLoop imgI imgO xDiv yDiv (imgI.h / yDiv) (imgI.h % yDiv / 2) step start value = none := by
  refine storesAt_of_none ((mem_outCells hd p).mpr hp) ?_
  simp only [foldBlock_source hd hp, Option.bind_eq_bind, Option.bind_some, hv, Option.bind_none]

/-- The loop pools when each value is made of its block. -/
theorem poolLoop_pools (hd : Divides imgI imgO xDiv yDiv) {made : List ℤ → ℤ → Prop} {v : ℤ × ℤ → ℤ}
    (hv : ∀ p, imgO.Mem p → value (blockFold imgI xDiv yDiv step start p) = some (v p))
    (hmade : ∀ p, imgO.Mem p → ∀ chan ∈ channels imgI.bpp,
      made (blockValues imgI xDiv yDiv chan p) (chan (v p % levels imgI.bpp))) :
    ∃ ws, poolLoop imgI imgO xDiv yDiv (imgI.h / yDiv) (imgI.h % yDiv / 2) step start value = some ws ∧
      Pools imgI imgO xDiv yDiv made ws := by
  have hfst : ((blockCells 0 0 (imgI.w / xDiv).toNat (imgI.h / yDiv).toNat).map fun p =>
      (p, putPixel imgI.bpp (v p))).map Prod.fst = blockCells 0 0 (imgI.w / xDiv).toNat (imgI.h / yDiv).toNat := by
    rw [List.map_map]
    exact List.map_id _
  refine ⟨_, poolLoop_of_some hd hv, ⟨?_, fun p => ?_, ?_⟩⟩
  · rw [hfst]
    exact nodup_blockCells _ _ _ _
  · rw [hfst]
    exact mem_outCells hd p
  · intro s hs chan hc
    obtain ⟨p, hp, rfl⟩ := List.mem_map.mp hs
    rw [getPixel_putPixel]
    exact hmade p ((mem_outCells hd p).mp hp) chan hc

/-- A loop that pools has a value for each pixel. -/
theorem Pools.exists_value (hd : Divides imgI imgO xDiv yDiv) {made : List ℤ → ℤ → Prop} {ws : List ((ℤ × ℤ) × ℕ)}
    (hws : poolLoop imgI imgO xDiv yDiv (imgI.h / yDiv) (imgI.h % yDiv / 2) step start value = some ws)
    (hpools : Pools imgI imgO xDiv yDiv made ws) {p : ℤ × ℤ} (hp : imgO.Mem p) :
    ∃ v, value (blockFold imgI xDiv yDiv step start p) = some v ∧ ∀ chan ∈ channels imgI.bpp,
      made (blockValues imgI xDiv yDiv chan p) (chan (v % levels imgI.bpp)) := by
  have hsome : ∀ q, imgO.Mem q → ∃ v, value (blockFold imgI xDiv yDiv step start q) = some v := by
    intro q hq
    refine Option.ne_none_iff_exists'.mp fun hnone => ?_
    rw [poolLoop_of_none hd hq hnone] at hws
    exact Option.some_ne_none ws hws.symm
  have hv : ∀ q, imgO.Mem q → value (blockFold imgI xDiv yDiv step start q) =
      some ((value (blockFold imgI xDiv yDiv step start q)).getD 0) := by
    intro q hq
    obtain ⟨v, hv⟩ := hsome q hq
    rw [hv]
    rfl
  rw [poolLoop_of_some hd hv] at hws
  obtain rfl := Option.some.inj hws
  refine ⟨_, hv p hp, fun chan hc => ?_⟩
  have hmade := hpools.value _ (List.mem_map_of_mem ((mem_outCells hd p).mpr hp)) chan hc
  rwa [getPixel_putPixel] at hmade

end Loop

theorem foldl_overChannels {σ : Type} (step : σ → ℤ → σ) : ∀ (l : List ℤ) (s : σ × σ × σ),
    l.foldl (overChannels step) s = ((l.map colorRgb565ToR5).foldl step s.1,
      (l.map colorRgb565ToG6).foldl step s.2.1, (l.map colorRgb565ToB5).foldl step s.2.2)
  | [], _ => rfl
  | p :: l, s => by
      rw [List.foldl_cons, foldl_overChannels step l]
      rfl

/-- Three channels that fit are found again in what is stored. -/
theorem forall_channels_rgb565 {P : (ℤ → ℤ) → ℤ → Prop} {r g b : ℤ} (hr : 0 ≤ r ∧ r ≤ 31) (hg : 0 ≤ g ∧ g ≤ 63)
    (hb : 0 ≤ b ∧ b ≤ 31) (hR : P colorRgb565ToR5 r) (hG : P colorRgb565ToG6 g) (hB : P colorRgb565ToB5 b) :
    ∀ chan ∈ channels .rgb565, P chan (chan (colorR5G6B5ToRgb565 r g b % levels .rgb565)) := by
  obtain ⟨h0, h1⟩ := colorR5G6B5ToRgb565_lt r g b
  have hr' : 0 ≤ r ∧ r < 32 := by omega
  have hg' : 0 ≤ g ∧ g < 64 := by omega
  have hb' : 0 ≤ b ∧ b < 32 := by omega
  simp only [levels, Nat.cast_ofNat]
  rw [Int.emod_eq_of_lt h0 h1, colorR5G6B5ToRgb565_of_mem hr' hg' hb']
  intro chan hc
  simp only [channels, List.mem_cons, List.not_mem_nil, or_false] at hc
  rcases hc with rfl | rfl | rfl
  · rwa [red_of_parts hr' hg' hb']
  · rwa [green_of_parts hg' hb']
  · rwa [blue_of_parts hb']

end Loops

/-! ### Midpoints -/

/-- The smallest and the largest value so far, or where the loop started. -/
theorem foldl_minMax : ∀ (l : List ℤ) (s : ℤ × ℤ),
    ((l.foldl minMax s).1 ≤ s.1 ∧ (∀ p ∈ l, (l.foldl minMax s).1 ≤ p) ∧
      ((l.foldl minMax s).1 = s.1 ∨ (l.foldl minMax s).1 ∈ l)) ∧
    (s.2 ≤ (l.foldl minMax s).2 ∧ (∀ p ∈ l, p ≤ (l.foldl minMax s).2) ∧
      ((l.foldl minMax s).2 = s.2 ∨ (l.foldl minMax s).2 ∈ l))
  | [], s => ⟨⟨le_rfl, by simp, .inl rfl⟩, le_rfl, by simp, .inl rfl⟩
  | p :: l, s => by
      obtain ⟨⟨h1, h2, h3⟩, h4, h5, h6⟩ := foldl_minMax l (minMax s p)
      rw [List.foldl_cons]
      generalize l.foldl minMax (minMax s p) = r at *
      simp only [minMax] at h1 h3 h4 h6
      refine ⟨⟨h1.trans (min_le_left _ _), ?_, ?_⟩, (le_max_left _ _).trans h4, ?_, ?_⟩
      · exact List.forall_mem_cons.mpr ⟨h1.trans (min_le_right _ _), h2⟩
      · rcases h3 with h3 | h3
        · rcases min_choice s.1 p with h | h
          · exact .inl (h3.trans h)
          · exact .inr (List.mem_cons.mpr (.inl (h3.trans h)))
        · exact .inr (List.mem_cons_of_mem p h3)
      · exact List.forall_mem_cons.mpr ⟨(le_max_right _ _).trans h4, h5⟩
      · rcases h6 with h6 | h6
        · rcases max_choice s.2 p with h | h
          · exact .inl (h6.trans h)
          · exact .inr (List.mem_cons.mpr (.inl (h6.trans h)))
        · exact .inr (List.mem_cons_of_mem p h6)

/-- From the ends of the scale on, both are found. -/
theorem minMax_spec {top : ℤ} {l : List ℤ} (hl : l ≠ []) (h : ∀ p ∈ l, 0 ≤ p ∧ p ≤ top) :
    IsLeast {p | p ∈ l} (l.foldl minMax (top, 0)).1 ∧ IsGreatest {p | p ∈ l} (l.foldl minMax (top, 0)).2 := by
  obtain ⟨⟨h1, h2, h3⟩, h4, h5, h6⟩ := foldl_minMax l (top, 0)
  obtain ⟨p, hp⟩ := List.exists_mem_of_ne_nil l hl
  refine ⟨⟨h3.elim (fun heq => ?_) id, h2⟩, h6.elim (fun heq => ?_) id, h5⟩
  · have hle := h2 p hp
    rw [heq] at hle ⊢
    exact (le_antisymm (h p hp).2 hle) ▸ hp
  · have hle := h5 p hp
    rw [heq] at hle ⊢
    exact (le_antisymm hle (h p hp).1) ▸ hp

theorem blend_mem {bias top : ℤ} (hb : 0 ≤ bias ∧ bias ≤ 256) {s : ℤ × ℤ} (h1 : 0 ≤ s.1 ∧ s.1 ≤ top)
    (h2 : 0 ≤ s.2 ∧ s.2 ≤ top) : 0 ≤ blend bias s ∧ blend bias s ≤ top := by
  have hlow : 0 ≤ s.1 * (256 - bias) ∧ 0 ≤ s.2 * bias :=
    ⟨mul_nonneg h1.1 (by omega), mul_nonneg h2.1 hb.1⟩
  have hhigh : s.1 * (256 - bias) ≤ top * (256 - bias) ∧ s.2 * bias ≤ top * bias :=
    ⟨mul_le_mul_of_nonneg_right h1.2 (by omega), mul_le_mul_of_nonneg_right h2.2 hb.1⟩
  have hsum : top * (256 - bias) + top * bias = top * 256 := by ring
  unfold blend
  omega

section Midpoint

variable {imgI imgO : Image} {xDiv yDiv : ℕ} {bias : ℤ} {p : ℤ × ℤ} {chan : ℤ → ℤ} {top : ℤ}

/-- What the loop keeps of a channel is the midpoint of the block. -/
theorem midpoint_of_block (hd : Divides imgI imgO xDiv yDiv) (hb : 0 ≤ bias ∧ bias ≤ 256)
    (htop : ∀ x y, 0 ≤ chan (imgI.pixel x y) ∧ chan (imgI.pixel x y) ≤ top) (p : ℤ × ℤ) :
    IsMidpoint bias (blockValues imgI xDiv yDiv chan p)
      (blend bias ((blockValues imgI xDiv yDiv chan p).foldl minMax (top, 0))) ∧
    0 ≤ blend bias ((blockValues imgI xDiv yDiv chan p).foldl minMax (top, 0)) ∧
    blend bias ((blockValues imgI xDiv yDiv chan p).foldl minMax (top, 0)) ≤ top := by
  have hne : blockValues imgI xDiv yDiv chan p ≠ [] := fun h =>
    sourceBlock_ne_nil hd p (List.map_eq_nil_iff.mp h)
  have hall : ∀ v ∈ blockValues imgI xDiv yDiv chan p, 0 ≤ v ∧ v ≤ top := by
    intro v hv
    obtain ⟨q, -, rfl⟩ := List.mem_map.mp hv
    exact htop q.1 q.2
  obtain ⟨hmin, hmax⟩ := minMax_spec hne hall
  exact ⟨⟨_, _, hmin, hmax, rfl⟩, blend_mem hb (hall _ hmin.1) (hall _ hmax.1)⟩

theorem midpoint_pools_of_one (top : ℤ) (hd : Divides imgI imgO xDiv yDiv) (hb : 0 ≤ bias ∧ bias ≤ 256)
    (hchan : channels imgI.bpp = [id]) (htop : (levels imgI.bpp : ℤ) = top + 1) :
    ∃ ws, poolLoop imgI imgO xDiv yDiv (imgI.h / yDiv) (imgI.h % yDiv / 2) minMax (top, 0)
      (fun s => some (blend bias s)) = some ws ∧ Pools imgI imgO xDiv yDiv (IsMidpoint bias) ws := by
  refine poolLoop_pools hd (fun _ _ => rfl) fun p hp chan hc => ?_
  rw [hchan] at hc
  obtain rfl := List.mem_singleton.mp hc
  obtain ⟨hmid, h0, h1⟩ := midpoint_of_block hd hb (pixel_le rfl htop.le) p
  have hfold : blockFold imgI xDiv yDiv minMax (top, 0) p =
      (blockValues imgI xDiv yDiv id p).foldl minMax (top, 0) := rfl
  rw [hfold, Int.emod_eq_of_lt h0 (by rw [htop]; exact Int.lt_add_one_iff.mpr h1)]
  exact hmid

theorem midpoint_pools_rgb565 (hd : Divides imgI imgO xDiv yDiv) (hb : 0 ≤ bias ∧ bias ≤ 256)
    (hbpp : imgI.bpp = .rgb565) :
    ∃ ws, imlibMidpointPool imgI imgO xDiv yDiv bias = some ws ∧ Pools imgI imgO xDiv yDiv (IsMidpoint bias) ws := by
  simp only [imlibMidpointPool, hbpp]
  refine poolLoop_pools hd (fun p _ => by simp only [blockFold, foldl_overChannels, List.map_map]; rfl) fun p _ => ?_
  obtain ⟨hr1, hr2⟩ := midpoint_of_block hd hb (fun x y => red_mem (imgI.pixel x y)) p
  obtain ⟨hg1, hg2⟩ := midpoint_of_block hd hb (fun x y => green_mem (imgI.pixel x y)) p
  obtain ⟨hb1, hb2⟩ := midpoint_of_block hd hb (fun x y => blue_mem (imgI.pixel x y)) p
  rw [hbpp]
  exact forall_channels_rgb565 (P := fun chan v => IsMidpoint bias (blockValues imgI xDiv yDiv chan p) v)
    hr2 hg2 hb2 hr1 hg1 hb1

/-- With more rows in the source than in the output, the last row of the grayscale loop is in neither. -/
theorem midpoint_grayscale_none (hd : Divides imgI imgO xDiv yDiv) (hbpp : imgI.bpp = .grayscale) (hy : yDiv ≠ 1) :
    imlibMidpointPool imgI imgO xDiv yDiv bias = none := by
  simp only [imlibMidpointPool, hbpp]
  have hx := hd.x
  have hy' := hd.y
  have hlt : imgI.h / yDiv < imgI.h := Int.ediv_lt_self_of_pos_of_ne_one (by omega) (by exact_mod_cast hy)
  have hcell : ((0 : ℤ), imgI.h - 1) ∈ blockCells 0 0 (imgI.w / xDiv).toNat imgI.h.toNat := by
    have hpos : 1 ≤ imgI.w / xDiv := Int.le_ediv_of_mul_le (by omega) (by rw [one_mul]; exact hx.2)
    rw [mem_blockCells]
    omega
  refine storesAt_of_none hcell ?_
  have hout : ¬(0 ≤ (0 : ℤ) ∧ (0 : ℤ) < imgO.w ∧ 0 ≤ imgI.h - 1 ∧ imgI.h - 1 < imgO.h) := by
    rw [hd.h]
    omega
  dsimp only
  cases foldBlock (poolGet imgI) minMax xDiv yDiv (255, 0) (imgI.w % xDiv / 2 + 0 * xDiv)
      (imgI.h % yDiv / 2 / yDiv + (imgI.h - 1) * yDiv) with
  | none => rfl
  | some s => exact if_neg hout

end Midpoint

/-! ### Means -/

/-- The largest value of the widest channel. -/
def topOf : Bpp → ℕ
  | .binary => 1
  | .grayscale => 255
  | .rgb565 => 63
  | .bayer | .jpeg => 0

/-- A sum of `n` values up to `top` divided by `n` is right in an `int`. With values up to 1 there is one more: of
    2^31 ones the sum and the number are both -2^31. -/
def Fits (top n : ℕ) : Prop := top * n < 2147483648 ∨ top = 1 ∧ n = 2147483648

theorem quot_of_fits {top n s : ℕ} (htop : 1 ≤ top) (hn : 1 ≤ n) (h : Fits top n) (hs : s ≤ top * n) :
    quot (int32 n) (int32 s) = some ((s / n : ℕ) : ℤ) := by
  have hle : n ≤ top * n := Nat.le_mul_of_pos_left n htop
  rcases h with h | ⟨rfl, rfl⟩
  · rw [int32_of_mem (by omega) (by omega), int32_of_mem (by omega) (by omega), quot, if_neg (by omega),
      Int.ofNat_tdiv]
  · rcases hs.eq_or_lt with rfl | hs
    · decide
    · have hneg : int32 ((2147483648 : ℕ) : ℤ) = -2147483648 := by decide
      rw [hneg, int32_of_mem (by omega) (by omega), quot, if_neg (by decide), Int.tdiv_neg,
        Int.tdiv_eq_zero_of_lt (by omega) (by omega), Nat.div_eq_of_lt (by omega)]
      rfl

/-- The quotient of the sum `s` is right, as far as the format keeps it. -/
def QuotOk (top n s : ℕ) : Prop :=
  ∃ v, quot (int32 n) (int32 s) = some v ∧ v % (top + 1 : ℕ) = ((s / n : ℕ) : ℤ)

theorem quotOk_iff {top n s : ℕ} {a m : ℤ} (ha : int32 s = a) (hm : int32 n = m) :
    QuotOk top n s ↔ m ≠ 0 ∧ a.tdiv m % (top + 1 : ℕ) = ((s / n : ℕ) : ℤ) := by
  unfold QuotOk quot
  rw [ha, hm]
  split_ifs with h
  · simp [h]
  · simp [h]

/-- A number of pixels that is not kept: some sum gets a quotient of 1, -1 or 0 that is not its own. -/
theorem not_quotOk_of_large {top n : ℕ} (htop : top = 1 ∨ top = 63 ∨ top = 255) (hn : 2147483648 ≤ n)
    (h1 : ¬(top = 1 ∧ n = 2147483648)) : ∃ s ≤ top * n, ¬QuotOk top n s := by
  have hle : n ≤ top * n := Nat.le_mul_of_pos_left n (by omega)
  obtain ⟨m, hm⟩ : ∃ m, int32 n = m := ⟨_, rfl⟩
  have hrange : -2147483648 ≤ m ∧ m ≤ 2147483647 := by
    rw [← hm, int32]
    omega
  rcases lt_trichotomy m 0 with hneg | rfl | hpos
  · by_cases hmin : m = -2147483648
    · by_cases heq : n = 2147483648
      · have htop' : 2 * n ≤ top * n := Nat.mul_le_mul_right n (by omega)
        refine ⟨4294967296, by omega, fun h => ?_⟩
        obtain ⟨-, hq⟩ := (quotOk_iff (a := 0) (by decide) hm).mp h
        subst heq
        rw [Int.zero_tdiv, Int.zero_emod] at hq
        exact absurd hq (by decide)
      · refine ⟨2147483648, by omega, fun h => ?_⟩
        obtain ⟨-, hq⟩ := (quotOk_iff (a := -2147483648) (by decide) hm).mp h
        rw [hmin, Nat.div_eq_of_lt (by omega)] at hq
        rcases htop with rfl | rfl | rfl <;> exact absurd hq (by decide)
    · obtain ⟨k, hk⟩ := Int.eq_ofNat_of_zero_le (show 0 ≤ -m by omega)
      refine ⟨k, by omega, fun h => ?_⟩
      obtain ⟨-, hq⟩ := (quotOk_iff (a := -m) (by rw [← hk, int32_of_mem (by omega) (by omega)]) hm).mp h
      rw [Int.neg_tdiv, Int.tdiv_self (by omega), Nat.div_eq_of_lt (by omega)] at hq
      rcases htop with rfl | rfl | rfl <;> exact absurd hq (by decide)
  · exact ⟨0, Nat.zero_le _, fun h => ((quotOk_iff rfl hm).mp h).1 rfl⟩
  · obtain ⟨k, hk⟩ := Int.eq_ofNat_of_zero_le hpos.le
    refine ⟨k, by omega, fun h => ?_⟩
    obtain ⟨-, hq⟩ := (quotOk_iff (a := m) (by rw [← hk, int32_of_mem (by omega) (by omega)]) hm).mp h
    rw [Int.tdiv_self (by omega), Nat.div_eq_of_lt (by omega)] at hq
    rcases htop with rfl | rfl | rfl <;> exact absurd hq (by decide)

/-- A sum from 2^31 on is negative in an `int`. -/
theorem neg_of_quotOk {top n s r : ℕ} (hn : n < 2147483648) (hs : s + r = 4294967296) (hr : r ≤ 2147483648)
    (h : QuotOk top n s) : -((r / n : ℕ) : ℤ) % (top + 1 : ℕ) = ((s / n : ℕ) : ℤ) := by
  have hneg : int32 s = -(r : ℤ) := by
    unfold int32
    omega
  obtain ⟨-, hq⟩ := (quotOk_iff hneg (int32_of_mem (by omega) (by omega))).mp h
  rwa [Int.neg_tdiv, Int.ofNat_tdiv] at hq

/-- Sums that are not kept. The one of 2^31 gets the quotient -q for q, which is the same in `top + 1` values when q is
    half of them; then the first sum after it that has another quotient, or gets one, does not. -/
theorem not_quotOk_of_sum {top n : ℕ} (htop : top = 63 ∨ top = 255) (hn : n < 2147483648)
    (hsum : 2147483648 ≤ top * n) : ∃ s ≤ top * n, ¬QuotOk top n s := by
  obtain ⟨half, htop', hhalf⟩ : ∃ half, top + 1 = 2 * half ∧ (half = 32 ∨ half = 128) := by
    rcases htop with rfl | rfl
    · exact ⟨32, rfl, .inl rfl⟩
    · exact ⟨128, rfl, .inr rfl⟩
  have hn0 : 0 < n := by
    rcases Nat.eq_zero_or_pos n with rfl | h
    · omega
    · exact h
  by_cases hq : 2147483648 / n = half
  · have hle := Nat.div_mul_le_self 2147483648 n
    have hlt := Nat.lt_div_mul_add hn0 (a := 2147483648)
    rw [hq] at hle hlt
    have htopn : (half + 1) * n ≤ top * n := Nat.mul_le_mul_right n (by omega)
    rw [add_mul, one_mul] at htopn
    by_cases hfirst : 4294967297 < half * n + (half * n + n)
    · obtain ⟨s, hs⟩ := Nat.exists_eq_add_of_le (show half * n - 1 ≤ 4294967296 by omega)
      refine ⟨s, by omega, fun h => ?_⟩
      have hq' := neg_of_quotOk (r := half * n - 1) hn (by omega) (by omega) h
      have hpred : half * n = (half - 1) * n + n := by
        rw [Nat.sub_one_mul, Nat.sub_add_cancel (Nat.le_mul_of_pos_left n (by omega))]
      rw [Nat.div_eq_of_lt_le (k := half - 1) (by omega) (by rw [Nat.succ_mul]; omega),
        Nat.div_eq_of_lt_le (k := half) (by omega) (by rw [Nat.succ_mul]; omega)] at hq'
      rw [htop'] at hq'
      rcases hhalf with rfl | rfl <;> omega
    · -- 2^32 + 1 is no multiple of top + 2
      have hne : half * n + (half * n + n) ≠ 4294967297 := by
        rcases hhalf with rfl | rfl <;> omega
      refine ⟨half * n + n, htopn, fun h => ?_⟩
      have hq' := neg_of_quotOk (r := 4294967296 - (half * n + n)) hn (by omega) (by omega) h
      rw [Nat.div_eq_of_lt_le (k := half) (by omega) (by rw [Nat.succ_mul]; omega),
        Nat.div_eq_of_lt_le (k := half + 1) (by rw [add_mul]; omega) (by rw [Nat.succ_mul, add_mul]; omega),
        htop'] at hq'
      rcases hhalf with rfl | rfl <;> omega
  · refine ⟨2147483648, hsum, fun h => ?_⟩
    have hq' := neg_of_quotOk (r := 2147483648) hn rfl le_rfl h
    have h1 : 1 ≤ 2147483648 / n := (Nat.one_le_div_iff hn0).mpr hn.le
    have h2 : 2147483648 / n ≤ top := Nat.div_le_of_le_mul (by rw [mul_comm]; exact hsum)
    rw [htop'] at hq'
    rcases hhalf with rfl | rfl <;> omega

theorem forall_quotOk_iff {top n : ℕ} (htop : top = 1 ∨ top = 63 ∨ top = 255) (hn : 1 ≤ n) :
    (∀ s ≤ top * n, QuotOk top n s) ↔ Fits top n := by
  constructor
  · intro hall
    by_contra hfits
    have hnot : ¬(top * n < 2147483648) ∧ ¬(top = 1 ∧ n = 2147483648) := not_or.mp hfits
    obtain ⟨s, hs, hs'⟩ : ∃ s ≤ top * n, ¬QuotOk top n s := by
      rcases Nat.lt_or_ge n 2147483648 with hlt | hge
      · refine not_quotOk_of_sum ?_ hlt (by omega)
        rcases htop with rfl | htop
        · omega
        · exact htop
      · exact not_quotOk_of_large htop hge hnot.2
    exact hs' (hall s hs)
  · intro hfits s hs
    refine ⟨_, quot_of_fits (by omega) hn hfits hs, ?_⟩
    have hle : s / n ≤ top := Nat.div_le_of_le_mul (by rw [mul_comm]; exact hs)
    exact Int.emod_eq_of_lt (Int.natCast_nonneg _) (by exact_mod_cast Nat.lt_succ_of_le hle)

theorem foldl_accumulate : ∀ (l : List ℤ) (a : ℤ), l.foldl accumulate (int32 a) = int32 (a + l.sum)
  | [], a => by simp
  | p :: l, a => by
      rw [List.foldl_cons, accumulate, int32_add_left, foldl_accumulate l, List.sum_cons, add_assoc]

section Mean

variable {imgI imgO : Image} {xDiv yDiv : ℕ} {chan : ℤ → ℤ} {top : ℕ}

theorem foldl_blockValues (imgI : Image) (xDiv yDiv : ℕ) (chan : ℤ → ℤ) (p : ℤ × ℤ) :
    (blockValues imgI xDiv yDiv chan p).foldl accumulate 0 = int32 (blockValues imgI xDiv yDiv chan p).sum := by
  have hfold := foldl_accumulate (blockValues imgI xDiv yDiv chan p) 0
  rwa [zero_add] at hfold

theorem length_blockValues (imgI : Image) (xDiv yDiv : ℕ) (chan : ℤ → ℤ) (p : ℤ × ℤ) :
    (blockValues imgI xDiv yDiv chan p).length = xDiv * yDiv := by
  rw [blockValues, List.length_map, sourceBlock, length_blockCells, mul_comm]

theorem exists_sum (xDiv yDiv : ℕ) (htop : ∀ x y, 0 ≤ chan (imgI.pixel x y) ∧ chan (imgI.pixel x y) ≤ top) (p : ℤ × ℤ) :
    ∃ s : ℕ, (blockValues imgI xDiv yDiv chan p).sum = s ∧ s ≤ top * (xDiv * yDiv) := by
  have hall : ∀ v ∈ blockValues imgI xDiv yDiv chan p, 0 ≤ v ∧ v ≤ top := by
    intro v hv
    obtain ⟨q, -, rfl⟩ := List.mem_map.mp hv
    exact htop q.1 q.2
  have hle := List.sum_le_card_nsmul _ (top : ℤ) fun v hv => (hall v hv).2
  obtain ⟨s, hs⟩ := Int.eq_ofNat_of_zero_le (List.sum_nonneg fun v hv => (hall v hv).1)
  refine ⟨s, hs, ?_⟩
  rw [hs, length_blockValues, nsmul_eq_mul, mul_comm] at hle
  exact_mod_cast hle

/-- What the loop keeps of a channel is the mean of the block. -/
theorem mean_of_block (top : ℕ) (hd : Divides imgI imgO xDiv yDiv) (h1 : 1 ≤ top) (hfits : Fits top (xDiv * yDiv))
    (htop : ∀ x y, 0 ≤ chan (imgI.pixel x y) ∧ chan (imgI.pixel x y) ≤ top) (p : ℤ × ℤ) :
    ∃ v, quot (int32 (xDiv * yDiv)) ((blockValues imgI xDiv yDiv chan p).foldl accumulate 0) = some v ∧
      IsFloorMean (blockValues imgI xDiv yDiv chan p) v ∧ 0 ≤ v ∧ v ≤ top := by
  obtain ⟨s, hs, hle⟩ := exists_sum xDiv yDiv htop p
  have hquot := quot_of_fits h1 (Nat.mul_pos hd.x.1 hd.y.1) hfits hle
  rw [Nat.cast_mul] at hquot
  refine ⟨_, by rw [foldl_blockValues, hs]; exact hquot, ?_, Int.natCast_nonneg _, ?_⟩
  · rw [IsFloorMean, hs, length_blockValues, Int.natCast_ediv]
  · exact_mod_cast Nat.div_le_of_le_mul (by rw [mul_comm]; exact hle)

theorem imlibMeanPool_of_one (hb : imgI.bpp = .binary ∨ imgI.bpp = .grayscale) : imlibMeanPool imgI imgO xDiv yDiv =
    poolLoop imgI imgO xDiv yDiv (imgI.h / yDiv) (imgI.h % yDiv / 2) accumulate 0 (quot (int32 (xDiv * yDiv))) := by
  unfold imlibMeanPool
  rcases hb with hb | hb <;> rw [hb]

theorem imlibMeanPool_rgb565 (hb : imgI.bpp = .rgb565) : imlibMeanPool imgI imgO xDiv yDiv =
    poolLoop imgI imgO xDiv yDiv (imgI.h / yDiv) (imgI.h % yDiv / 2) (overChannels accumulate) (0, 0, 0)
      (quotRgb565 (int32 (xDiv * yDiv))) := by
  unfold imlibMeanPool
  rw [hb]

/-- The formats with one channel. -/
theorem channels_of_one {bpp : Bpp} (hb : bpp = .binary ∨ bpp = .grayscale) :
    channels bpp = [id] ∧ levels bpp = topOf bpp + 1 := by
  rcases hb with rfl | rfl <;> exact ⟨rfl, rfl⟩

theorem blockFold_accumulate_rgb565 (imgI : Image) (xDiv yDiv : ℕ) (p : ℤ × ℤ) :
    blockFold imgI xDiv yDiv (overChannels accumulate) (0, 0, 0) p =
      ((blockValues imgI xDiv yDiv colorRgb565ToR5 p).foldl accumulate 0,
        (blockValues imgI xDiv yDiv colorRgb565ToG6 p).foldl accumulate 0,
        (blockValues imgI xDiv yDiv colorRgb565ToB5 p).foldl accumulate 0) := by
  simp only [blockFold, foldl_overChannels, List.map_map]
  rfl

theorem mean_pools_of_one (hd : Divides imgI imgO xDiv yDiv) (hfits : Fits (topOf imgI.bpp) (xDiv * yDiv))
    (hb : imgI.bpp = .binary ∨ imgI.bpp = .grayscale) :
    ∃ ws, imlibMeanPool imgI imgO xDiv yDiv = some ws ∧ Pools imgI imgO xDiv yDiv IsFloorMean ws := by
  obtain ⟨hchan, hlevels⟩ := channels_of_one hb
  have h1 : 1 ≤ topOf imgI.bpp := by rcases hb with hb | hb <;> rw [hb] <;> decide
  have htop : (levels imgI.bpp : ℤ) = topOf imgI.bpp + 1 := by
    rw [hlevels]
    push_cast
    rfl
  rw [imlibMeanPool_of_one hb]
  choose v hv hmean h0 hle using mean_of_block (topOf imgI.bpp) hd h1 hfits fun x y => pixel_le rfl htop.le x y
  refine poolLoop_pools hd (fun p _ => hv p) fun p _ chan hc => ?_
  rw [hchan] at hc
  obtain rfl := List.mem_singleton.mp hc
  rw [Int.emod_eq_of_lt (h0 p) (by rw [htop]; exact Int.lt_add_one_iff.mpr (hle p))]
  exact hmean p

theorem mean_pools_rgb565 (hd : Divides imgI imgO xDiv yDiv) (hfits : Fits 63 (xDiv * yDiv))
    (hbpp : imgI.bpp = .rgb565) :
    ∃ ws, imlibMeanPool imgI imgO xDiv yDiv = some ws ∧ Pools imgI imgO xDiv yDiv IsFloorMean ws := by
  have hfits' : Fits 31 (xDiv * yDiv) := by
    rcases hfits with h | h
    · exact .inl (by omega)
    · exact absurd h.1 (by decide)
  choose r hr hmeanR hr0 hr1 using mean_of_block 31 hd (by decide) hfits' fun x y => red_mem (imgI.pixel x y)
  choose g hg hmeanG hg0 hg1 using mean_of_block 63 hd (by decide) hfits fun x y => green_mem (imgI.pixel x y)
  choose b hb hmeanB hb0 hb1 using mean_of_block 31 hd (by decide) hfits' fun x y => blue_mem (imgI.pixel x y)
  rw [imlibMeanPool_rgb565 hbpp]
  refine poolLoop_pools hd (v := fun p => colorR5G6B5ToRgb565 (r p) (g p) (b p)) (fun p _ => ?_) fun p _ => ?_
  · simp only [blockFold_accumulate_rgb565, quotRgb565, hr, hg, hb, Option.bind_eq_bind, Option.bind_some]
  · rw [hbpp]
    exact forall_channels_rgb565 (P := fun chan v => IsFloorMean (blockValues imgI xDiv yDiv chan p) v)
      ⟨hr0 p, hr1 p⟩ ⟨hg0 p, hg1 p⟩ ⟨hb0 p, hb1 p⟩ (hmeanR p) (hmeanG p) (hmeanB p)

/-! ### Any sum -/

/-- The storage unit with the value `v` in this channel and nothing in the others. -/
def unitOf (bpp : Bpp) (v : ℕ) : ℕ := if bpp = .rgb565 then v * 32 else v

/-- The first block of this image has the sum `s`. -/
def pouredData (imgI : Image) (xDiv yDiv s : ℕ) (x y : ℤ) : ℕ :=
  unitOf imgI.bpp (poured (topOf imgI.bpp) s
    (rank (imgI.w % xDiv / 2 + 0 * xDiv) (imgI.h % yDiv / 2 + 0 * yDiv) xDiv (x, y)).toNat)

theorem sum_pouredData (chan : ℤ → ℤ) {s : ℕ} (hs : s ≤ topOf imgI.bpp * (xDiv * yDiv))
    (hchan : ∀ v ≤ topOf imgI.bpp, chan (getPixel imgI.bpp (unitOf imgI.bpp v)) = v) :
    (blockValues { imgI with data := pouredData imgI xDiv yDiv s } xDiv yDiv chan (0, 0)).sum = s := by
  have hvalues : blockValues { imgI with data := pouredData imgI xDiv yDiv s } xDiv yDiv chan (0, 0) =
      (List.range (yDiv * xDiv)).map fun (k : ℕ) => ((poured (topOf imgI.bpp) s k : ℕ) : ℤ) := by
    have hcast : (List.range (yDiv * xDiv)).map (fun (k : ℕ) => ((poured (topOf imgI.bpp) s k : ℕ) : ℤ)) =
        ((List.range (yDiv * xDiv)).map fun (k : ℕ) => (k : ℤ)).map fun z =>
          ((poured (topOf imgI.bpp) s z.toNat : ℕ) : ℤ) := by
      rw [List.map_map]
      rfl
    rw [hcast, ← map_rank_blockCells (imgI.w % xDiv / 2 + 0 * xDiv) (imgI.h % yDiv / 2 + 0 * yDiv) xDiv yDiv,
      List.map_map]
    refine List.map_congr_left fun q _ => ?_
    rw [image_pixel]
    exact hchan _ (min_le_left _ _)
  have hsum := sum_poured (topOf imgI.bpp) s (yDiv * xDiv)
  rw [mul_comm yDiv, min_eq_left hs, mul_comm] at hsum
  have hcast := map_list_sum (Nat.castRingHom ℤ) ((List.range (yDiv * xDiv)).map (poured (topOf imgI.bpp) s))
  rw [hsum, List.map_map] at hcast
  rw [hvalues]
  exact hcast.symm

/-- When there is nothing red or blue, green is kept as far as it fits. -/
theorem green_of_green (g : ℤ) : colorRgb565ToG6 (colorR5G6B5ToRgb565 0 g 0 % 65536) = g % 64 := by
  have hpack : colorR5G6B5ToRgb565 0 g 0 = g * 32 % 65536 := by
    unfold colorR5G6B5ToRgb565
    simp only [zero_mul, Int.zero_emod, Int.toNat_zero, Nat.zero_or, Nat.or_zero]
    omega
  rw [hpack, colorRgb565ToG6]
  omega

theorem outMem_zero (hd : Divides imgI imgO xDiv yDiv) : imgO.Mem (0, 0) := by
  have hx := hd.x
  have hy := hd.y
  have hw : 1 ≤ imgI.w / xDiv := Int.le_ediv_of_mul_le (by omega) (by rw [one_mul]; exact hx.2)
  have hh : 1 ≤ imgI.h / yDiv := Int.le_ediv_of_mul_le (by omega) (by rw [one_mul]; exact hy.2)
  rw [← hd.w] at hw
  rw [← hd.h] at hh
  exact ⟨le_rfl, hw, le_rfl, hh⟩

theorem quotOk_of_one {s : ℕ} {ws : List ((ℤ × ℤ) × ℕ)} (hd : Divides imgI imgO xDiv yDiv)
    (hb : imgI.bpp = .binary ∨ imgI.bpp = .grayscale) (hsum : (blockValues imgI xDiv yDiv id (0, 0)).sum = s)
    (hws : imlibMeanPool imgI imgO xDiv yDiv = some ws) (hpools : Pools imgI imgO xDiv yDiv IsFloorMean ws) :
    QuotOk (topOf imgI.bpp) (xDiv * yDiv) s := by
  obtain ⟨hchan, hlevels⟩ := channels_of_one hb
  rw [imlibMeanPool_of_one hb] at hws
  obtain ⟨v, hv, hmade⟩ := Pools.exists_value hd hws hpools (outMem_zero hd)
  have hfold := foldl_blockValues imgI xDiv yDiv id (0, 0)
  have hmean := hmade id (hchan ▸ List.mem_singleton.mpr rfl)
  rw [hsum] at hfold
  rw [IsFloorMean, hsum, length_blockValues, ← Int.natCast_ediv, id, hlevels] at hmean
  refine ⟨v, ?_, hmean⟩
  rw [Nat.cast_mul, ← hfold]
  exact hv

theorem quotOk_of_rgb565 {s : ℕ} {ws : List ((ℤ × ℤ) × ℕ)} (hd : Divides imgI imgO xDiv yDiv)
    (hb : imgI.bpp = .rgb565) (hred : (blockValues imgI xDiv yDiv colorRgb565ToR5 (0, 0)).sum = 0)
    (hsum : (blockValues imgI xDiv yDiv colorRgb565ToG6 (0, 0)).sum = s)
    (hblue : (blockValues imgI xDiv yDiv colorRgb565ToB5 (0, 0)).sum = 0)
    (hws : imlibMeanPool imgI imgO xDiv yDiv = some ws) (hpools : Pools imgI imgO xDiv yDiv IsFloorMean ws) :
    QuotOk 63 (xDiv * yDiv) s := by
  rw [imlibMeanPool_rgb565 hb] at hws
  obtain ⟨v, hv, hmade⟩ := Pools.exists_value hd hws hpools (outMem_zero hd)
  have hmean := hmade colorRgb565ToG6 (by rw [hb]; simp [channels])
  rw [IsFloorMean, hsum, length_blockValues, ← Int.natCast_ediv, hb] at hmean
  rw [blockFold_accumulate_rgb565, foldl_blockValues, foldl_blockValues, foldl_blockValues, hred, hsum, hblue] at hv
  unfold QuotOk
  rw [Nat.cast_mul]
  simp only [quotRgb565, Option.bind_eq_bind] at hv
  by_cases hn : int32 (xDiv * yDiv) = 0
  · simp [quot, hn] at hv
  · have hzero : (int32 0).tdiv (int32 (xDiv * yDiv)) = 0 := Int.zero_tdiv _
    simp only [quot, if_neg hn, Option.bind_some, hzero] at hv
    obtain rfl := Option.some.inj hv
    have hgreen := green_of_green ((int32 s).tdiv (int32 (xDiv * yDiv)))
    exact ⟨_, if_neg hn, hgreen.symm.trans hmean⟩

end Mean

/-! ### Both -/

/-- The midpoint of each block, and the mean of each block. For every image and divisors the midpoints are stored,
    each pixel once and nothing else, unless it is a grayscale image and the rows are divided. For all images
    of a size the means are, as long as the sums fit. -/
theorem pooling_tiles_iff (imgI imgO : Image) (xDiv yDiv : ℕ)
    (hbpp : imgI.bpp = .binary ∨ imgI.bpp = .grayscale ∨ imgI.bpp = .rgb565) (hx : 1 ≤ xDiv ∧ xDiv ≤ imgI.w)
    (hy : 1 ≤ yDiv ∧ yDiv ≤ imgI.h) (hw : imgO.w = imgI.w / xDiv) (hh : imgO.h = imgI.h / yDiv) :
    (∀ bias : ℤ, 0 ≤ bias → bias ≤ 256 →
      ((∃ ws, imlibMidpointPool imgI imgO xDiv yDiv bias = some ws ∧
          Pools imgI imgO xDiv yDiv (IsMidpoint bias) ws) ↔ (imgI.bpp = .grayscale → yDiv = 1))) ∧
    ((∀ data, ∃ ws, imlibMeanPool { imgI with data := data } imgO xDiv yDiv = some ws ∧
        Pools { imgI with data := data } imgO xDiv yDiv IsFloorMean ws) ↔ Fits (topOf imgI.bpp) (xDiv * yDiv)) := by
  have hd : Divides imgI imgO xDiv yDiv := ⟨hx, hy, hw, hh⟩
  refine ⟨fun bias hb0 hb1 => ?_, ?_⟩
  · constructor
    · rintro ⟨ws, hws, -⟩ hgray
      by_contra hy1
      rw [midpoint_grayscale_none hd hgray hy1] at hws
      exact Option.some_ne_none ws hws.symm
    · intro hrows
      rcases hbpp with hb | hb | hb
      · have h := midpoint_pools_of_one 1 hd ⟨hb0, hb1⟩ (by rw [hb]; rfl) (by rw [hb]; rfl)
        simpa only [imlibMidpointPool, hb] using h
      · have h := midpoint_pools_of_one 255 hd ⟨hb0, hb1⟩ (by rw [hb]; rfl) (by rw [hb]; rfl)
        obtain rfl := hrows hb
        simpa [imlibMidpointPool, hb] using h
      · exact midpoint_pools_rgb565 hd ⟨hb0, hb1⟩ hb
  · constructor
    · intro hall
      have htop : topOf imgI.bpp = 1 ∨ topOf imgI.bpp = 63 ∨ topOf imgI.bpp = 255 := by
        rcases hbpp with hb | hb | hb <;> rw [hb] <;> decide
      refine (forall_quotOk_iff htop (Nat.mul_pos hx.1 hy.1)).mp fun s hs => ?_
      obtain ⟨ws, hws, hpools⟩ := hall (pouredData imgI xDiv yDiv s)
      have hd' : Divides { imgI with data := pouredData imgI xDiv yDiv s } imgO xDiv yDiv := ⟨hx, hy, hw, hh⟩
      have hone (hb : imgI.bpp = .binary ∨ imgI.bpp = .grayscale) : QuotOk (topOf imgI.bpp) (xDiv * yDiv) s := by
        have hunit : ∀ v ≤ topOf imgI.bpp, id (getPixel imgI.bpp (unitOf imgI.bpp v)) = v := by
          intro v hv
          have hlevels := (channels_of_one hb).2
          have hne : imgI.bpp ≠ .rgb565 := by rcases hb with hb | hb <;> rw [hb] <;> decide
          rw [unitOf, if_neg hne, id, getPixel, Nat.mod_eq_of_lt (by omega)]
        have hsum := sum_pouredData id hs hunit
        have hok := quotOk_of_one hd' hb hsum hws hpools
        exact hok
      rcases hbpp with hb | hb | hb
      · exact hone (.inl hb)
      · exact hone (.inr hb)
      · have hrest : ∀ chan : ℤ → ℤ, (∀ v ≤ topOf imgI.bpp, chan (getPixel imgI.bpp (unitOf imgI.bpp v)) = 0) →
            (blockValues { imgI with data := pouredData imgI xDiv yDiv s } xDiv yDiv chan (0, 0)).sum = 0 := by
          intro chan hchan
          refine List.sum_eq_zero fun v hv => ?_
          obtain ⟨q, -, rfl⟩ := List.mem_map.mp hv
          rw [image_pixel]
          exact hchan _ (min_le_left _ _)
        have hunit : ∀ v ≤ topOf imgI.bpp, getPixel imgI.bpp (unitOf imgI.bpp v) = 0 * 2048 + v * 32 + 0 ∧ v ≤ 63 := by
          intro v hv
          rw [hb] at hv ⊢
          simp only [topOf] at hv
          rw [unitOf, if_pos rfl, getPixel, levels]
          omega
        have hred := hrest colorRgb565ToR5 fun v hv => by
          rw [(hunit v hv).1, red_of_parts (by omega) (by have := hunit v hv; omega) (by omega)]
        have hgreen := sum_pouredData colorRgb565ToG6 hs fun v hv => by
          rw [(hunit v hv).1, green_of_parts (by have := hunit v hv; omega) (by omega)]
        have hblue := hrest colorRgb565ToB5 fun v hv => by
          rw [(hunit v hv).1, blue_of_parts (by omega)]
        rw [hb]
        exact quotOk_of_rgb565 hd' hb hred hgreen hblue hws hpools
    · intro hfits data
      have hd' : Divides { imgI with data := data } imgO xDiv yDiv := ⟨hx, hy, hw, hh⟩
      rcases hbpp with hb | hb | hb
      · exact mean_pools_of_one hd' hfits (.inl hb)
      · exact mean_pools_of_one hd' hfits (.inr hb)
      · exact mean_pools_rgb565 hd' (by rwa [hb] at hfits) hb

/-- An image of odd sizes. -/
theorem pooling_tiles_rgb565 :
    (∃ ws, imlibMidpointPool ⟨5, 3, .rgb565, fun _ _ => 7⟩ ⟨2, 1, .rgb565, fun _ _ => 0⟩ 2 2 128 = some ws ∧
      Pools ⟨5, 3, .rgb565, fun _ _ => 7⟩ ⟨2, 1, .rgb565, fun _ _ => 0⟩ 2 2 (IsMidpoint 128) ws) ∧
    ∃ ws, imlibMeanPool ⟨5, 3, .rgb565, fun _ _ => 7⟩ ⟨2, 1, .rgb565, fun _ _ => 0⟩ 2 2 = some ws ∧
      Pools ⟨5, 3, .rgb565, fun _ _ => 7⟩ ⟨2, 1, .rgb565, fun _ _ => 0⟩ 2 2 IsFloorMean ws := by
  have h := pooling_tiles_iff ⟨5, 3, .rgb565, fun _ _ => 7⟩ ⟨2, 1, .rgb565, fun _ _ => 0⟩ 2 2 (.inr (.inr rfl))
    (by decide) (by decide) (by decide) (by decide)
  exact ⟨(h.1 128 (by decide) (by decide)).mpr (by decide), h.2.mpr (.inl (by decide)) _⟩

/-- Two rows made into one. -/
theorem midpoint_pool_of_two_rows :
    ¬∃ ws, imlibMidpointPool ⟨1, 2, .grayscale, fun _ _ => 7⟩ ⟨1, 1, .grayscale, fun _ _ => 0⟩ 1 2 128 = some ws ∧
      Pools ⟨1, 2, .grayscale, fun _ _ => 7⟩ ⟨1, 1, .grayscale, fun _ _ => 0⟩ 1 2 (IsMidpoint 128) ws := by
  rintro ⟨ws, hws, -⟩
  rw [midpoint_grayscale_none ⟨by decide, by decide, by decide, by decide⟩ rfl (by decide)] at hws
  exact Option.some_ne_none ws hws.symm

end OpenMV.Filters
