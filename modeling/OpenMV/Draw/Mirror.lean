import OpenMV.Draw.Image

/-! Negative scales | scheme:geometry | source:src/src/openmv/omv/img/draw.c

    An image drawn with scale -1 is meant to be its mirror image, in the same place. The source column to
    begin with is the offset in the destination, cut to what is hidden; that is the right one unless the
    image hangs over the right edge and starts left of the left one, or is wider than the
    destination. -/

namespace OpenMV.Draw
open Vision Filters

/-! ### One direction at scale 1 or -1 -/

/-- The source column drawn at `x`. -/
def unitColumn (size : ℤ) (scale : ℚ) (p : Placed) (x : ℤ) : ℤ :=
  if scale < 0 then flipStart size p + (p.stop - 1 - x) else p.src + (x - p.start)

theorem unitIndex_eq {scale : ℚ} (hs : |scale| = 1) (size : ℤ) (p : Placed) (x : ℤ) :
    (p.axis size 0 scale).unitIndex x = unitColumn size scale p x := by
  rw [Placed.axis_unit hs]
  simp only [Axis.unitIndex, Axis.reset, hidden, unitColumn]
  split_ifs <;> simp_all

theorem unitColumn_mem {dstSize size offset : ℤ} {center : Bool} {p : Placed} (scale : ℚ)
    (h : clip dstSize size offset center = some p) {x : ℤ} (hx : p.start ≤ x ∧ x < p.stop) :
    0 ≤ unitColumn size scale p x ∧ unitColumn size scale p x < size := by
  obtain ⟨h1, h2, h3, h4, h5⟩ := clip_bounds h
  unfold unitColumn flipStart
  split_ifs <;> omega

/-- Either nothing is cut off at the left and the image is not wider than the destination, or nothing is
    cut off at the right. -/
def MirrorFits (dstSize size pos : ℤ) : Prop := if pos < 0 then pos + size ≤ dstSize else size ≤ dstSize

/-- The columns are those of the mirror image. -/
theorem unitColumn_mirrored_iff {dstSize size offset : ℤ} {center : Bool} (hsize : 1 ≤ size) {p : Placed}
    (h : clip dstSize size offset center = some p) :
    (∀ x, p.start ≤ x ∧ x < p.stop → unitColumn size (-1) p x = size - 1 - unitColumn size 1 p x) ↔
      MirrorFits dstSize size (posOf size offset center) := by
  obtain ⟨hv, rfl⟩ := (clip_eq_some_iff hsize).mp h
  obtain ⟨h1, h2, h3, h4⟩ := hv
  generalize posOf size offset center = pos at *
  have hneg : ((-1 : ℚ) < 0) = True := by norm_num
  have hpos : ((1 : ℚ) < 0) = False := by norm_num
  simp only [unitColumn, flipStart, hneg, hpos, if_true, if_false, MirrorFits]
  constructor
  · intro hx
    have hfirst := hx (max pos 0) (by omega)
    split_ifs <;> omega
  · intro hf x hx
    split_ifs at hf <;> omega

/-! ### The drawn image -/

def hmirror (img : Image) : Image := { img with data := fun x y => img.data (img.w - 1 - x) y }

def vmirror (img : Image) : Image := { img with data := fun x y => img.data x (img.h - 1 - y) }

theorem hmirror_pixel (img : Image) (x y : ℤ) : (hmirror img).pixel x y = img.pixel (img.w - 1 - x) y := by
  rw [image_pixel, image_pixel]
  rfl

theorem vmirror_pixel (img : Image) (x y : ℤ) : (vmirror img).pixel x y = img.pixel x (img.h - 1 - y) := by
  rw [image_pixel, image_pixel]
  rfl

section

variable (junk : ℤ → ℤ → ℕ) (dst src : Image) (x y : ℤ) (rgbChannel : Option RgbChannel) (hint : Hint)

/-- The call with the given scales, `alpha` 256, no region of interest and no palette. -/
def drawScaled (xScale yScale : ℚ) (dst src : Image) : Image :=
  imlibDrawImage (opaqueRow dst.bpp) false junk dst src ⟨x, y, xScale, yScale, none, rgbChannel, none, hint⟩

variable {junk dst src x y rgbChannel hint}

/-- Nothing is drawn if one of the directions is cut away. -/
theorem drawScaled_none {xScale yScale : ℚ} (hx : |xScale| = 1) (hy : |yScale| = 1)
    (h : ¬ (Visible dst.w src.w (posOf src.w x hint.center) ∧
      Visible dst.h src.h (posOf src.h y hint.center))) :
    drawScaled junk x y rgbChannel hint xScale yScale dst src = dst := by
  have hplan : Placement.plan ⟨dst.w, dst.h, x, y, xScale, yScale, hint⟩ ⟨0, 0, src.w, src.h⟩ = none := by
    rw [Option.eq_none_iff_forall_ne_some]
    intro plan hplan
    obtain ⟨ax, hax, ay, hay, -⟩ := Placement.plan_eq_some.mp hplan
    obtain ⟨h1, px, hpx, -⟩ := setupAxis_eq_some.mp hax
    obtain ⟨h2, py, hpy, -⟩ := setupAxis_eq_some.mp hay
    simp only [scaledSize_unit hx, scaledSize_unit hy] at h1 h2 hpx hpy
    exact h ⟨((clip_eq_some_iff h1).mp hpx).1, ((clip_eq_some_iff h2).mp hpy).1⟩
  exact imlibDrawImage_of_none (a := ⟨x, y, xScale, yScale, none, rgbChannel, none, hint⟩) hplan _ _ _

/-- Nor if the `switch` has no case for one of the formats. -/
theorem drawScaled_undrawable {xScale yScale : ℚ} (h : ¬ (drawable dst.bpp ∧ drawable src.bpp)) :
    drawScaled junk x y rgbChannel hint xScale yScale dst src = dst := by
  unfold drawScaled imlibDrawImage
  simp only [Bool.false_eq_true, if_false]
  split
  · rfl
  · rename_i plan _
    rw [drawOn, if_neg]
    intro hd
    simp only [Bool.and_eq_true] at hd
    refine h ⟨hd.2, ?_⟩
    -- the channel is taken out of an RGB565 image only
    by_contra hs
    have hsrc : src.bpp ≠ .rgb565 := fun hb => hs (by rw [hb]; rfl)
    simp [DrawArgs.source, DrawArgs.extractsFirst, hsrc, hs] at hd

/-- The plan for two visible directions. -/
theorem plan_of_clip {p : Placement} {r : Rectangle} (hx : |p.xScale| = 1) (hy : |p.yScale| = 1)
    (hr : r.x = 0 ∧ r.y = 0) (hw : 1 ≤ r.w) (hh : 1 ≤ r.h) {px py : Placed}
    (hpx : clip p.dstW r.w p.x p.hint.center = some px) (hpy : clip p.dstH r.h p.y p.hint.center = some py) :
    ∃ plan, p.plan r = some plan ∧ (plan.algorithm = .copy ∨ plan.algorithm = .nearest) ∧
      (∀ q, plan.Covers q ↔ (px.start ≤ q.1 ∧ q.1 < px.stop) ∧ py.start ≤ q.2 ∧ q.2 < py.stop) ∧
      (∀ u, plan.x.accumAt u / 65536 = unitColumn r.w p.xScale px u) ∧
      ∀ v, plan.y.accumAt v / 65536 = unitColumn r.h p.yScale py v := by
  have hax : p.xAxis r = some (px.axis r.w 0 p.xScale) := by
    rw [Placement.xAxis, setupAxis_eq_some, scaledSize_unit hx, hr.1]
    exact ⟨hw, px, hpx, rfl⟩
  have hay : p.yAxis r = some (py.axis r.h 0 p.yScale) := by
    rw [Placement.yAxis, setupAxis_eq_some, scaledSize_unit hy, hr.2]
    exact ⟨hh, py, hpy, rfl⟩
  have hplan := Placement.plan_eq_some.mpr ⟨_, hax, _, hay, rfl⟩
  obtain ⟨halg, hix, hiy⟩ := plan_unit hx hy hplan
  refine ⟨_, hplan, halg, fun q => Iff.rfl, fun u => ?_, fun v => ?_⟩
  · rw [hix]
    exact unitIndex_eq hx r.w px u
  · rw [hiy]
    exact unitIndex_eq hy r.h py v

/-- Otherwise every pixel of the rectangle comes from one pixel of the source. -/
theorem drawScaled_data (junk : ℤ → ℤ → ℕ) (rgbChannel : Option RgbChannel) (dst src : Image)
    {xScale yScale : ℚ} (hx : |xScale| = 1) (hy : |yScale| = 1) (hd : drawable dst.bpp)
    (hs : drawable src.bpp) (hw : 1 ≤ src.w) (hh : 1 ≤ src.h) {px py : Placed}
    (hpx : clip dst.w src.w x hint.center = some px) (hpy : clip dst.h src.h y hint.center = some py)
    (u v : ℤ) : (drawScaled junk x y rgbChannel hint xScale yScale dst src).data u v =
      if (px.start ≤ u ∧ u < px.stop) ∧ py.start ≤ v ∧ v < py.stop then
        unitOf dst.bpp src.bpp rgbChannel none
          (hint.extractRgbChannelFirst && src.bpp = .rgb565 && rgbChannel.isSome)
          (src.pixel (unitColumn src.w xScale px u) (unitColumn src.h yScale py v))
      else dst.data u v := by
  obtain ⟨plan, hplan, halg, hcovers, hix, hiy⟩ := plan_of_clip
    (p := ⟨dst.w, dst.h, x, y, xScale, yScale, hint⟩) (r := ⟨0, 0, src.w, src.h⟩) hx hy ⟨rfl, rfl⟩ hw hh hpx hpy
  unfold drawScaled imlibDrawImage
  simp only [DrawArgs.placement, roiOf, Option.getD_none, hplan, Bool.false_eq_true, if_false]
  rw [drawOn_data (plan_regular hplan) (source_drawable hs _ _) hd, sample_nearest halg, hix, hiy]
  refine ite_congr (propext (hcovers (u, v))) (fun hq => ?_) (fun _ => rfl)
  rw [blend_source hs (r := ⟨0, 0, src.w, src.h⟩) le_rfl le_rfl junk (unitColumn_mem xScale hpx hq.1)
    (unitColumn_mem yScale hpy hq.2)]
  simp [DrawArgs.extractsFirst]

theorem drawScaled_eq_iff {xScale yScale xScale' yScale' : ℚ} {src' : Image} :
    drawScaled junk x y rgbChannel hint xScale yScale dst src =
      drawScaled junk x y rgbChannel hint xScale' yScale' dst src' ↔
    ∀ u v, (drawScaled junk x y rgbChannel hint xScale yScale dst src).data u v =
      (drawScaled junk x y rgbChannel hint xScale' yScale' dst src').data u v := by
  constructor
  · intro h u v
    rw [h]
  · intro h
    unfold drawScaled at h ⊢
    rw [imlibDrawImage_frame, imlibDrawImage_frame _ _ _ _ src']
    exact congrArg _ (funext fun u => funext (h u))

/-- Two ways to choose the source pixels give the same for all contents only if they choose the same. -/
theorem forall_contents_iff {bpp : Bpp} {f : ℤ → ℕ} (hf : f (getPixel bpp 0) ≠ f (getPixel bpp (white bpp)))
    {C : ℤ → ℤ → Prop} [∀ u v, Decidable (C u v)] {I J K L : ℤ → ℤ} :
    (∀ dd sd : ℤ → ℤ → ℕ, ∀ u v,
      (if C u v then f (getPixel bpp (sd (I u) (J v))) else dd u v) =
        if C u v then f (getPixel bpp (sd (K u) (L v))) else dd u v) ↔
    ∀ u v, C u v → I u = K u ∧ J v = L v := by
  constructor
  · intro h u v hC
    by_contra hne
    have hsd := h (fun _ _ => 0) (fun i j => if i = I u ∧ j = J v then 0 else white bpp) u v
    have hne' : ¬ (K u = I u ∧ L v = J v) := fun h => hne ⟨h.1.symm, h.2.symm⟩
    rw [if_pos hC, if_pos hC, if_pos ⟨rfl, rfl⟩, if_neg hne'] at hsd
    exact hf hsd
  · intro h dd sd u v
    refine ite_congr rfl (fun hC => ?_) (fun _ => rfl)
    rw [(h u v hC).1, (h u v hC).2]

end

/-- A map of images that moves the pixels. -/
structure Moves (m : Image → Image) (A B : ℤ → ℤ → ℤ) : Prop where
  frame : ∀ s, m s = { s with data := (m s).data }
  pixel : ∀ s i j, (m s).pixel i j = s.pixel (A s.w i) (B s.h j)

theorem hmirror_moves : Moves hmirror (fun w i => w - 1 - i) (fun _ j => j) :=
  ⟨fun _ => rfl, hmirror_pixel⟩

theorem vmirror_moves : Moves vmirror (fun _ i => i) (fun h j => h - 1 - j) :=
  ⟨fun _ => rfl, vmirror_pixel⟩

section

variable {junk : ℤ → ℤ → ℕ} {dst src : Image} {x y : ℤ} {rgbChannel : Option RgbChannel} {hint : Hint}
  {xScale yScale : ℚ} {m : Image → Image} {A B : ℤ → ℤ → ℤ}

/-- Drawing with scales 1 or -1 is drawing the moved image with scale 1, for all contents, if and only if
    the same columns and rows are drawn everywhere. -/
theorem drawScaled_moved_iff (hd : drawable dst.bpp) (hs : drawable src.bpp) (hx : |xScale| = 1)
    (hy : |yScale| = 1) (hm : Moves m A B) (hw : 1 ≤ src.w) (hh : 1 ≤ src.h) {px py : Placed}
    (hpx : clip dst.w src.w x hint.center = some px) (hpy : clip dst.h src.h y hint.center = some py) :
    (∀ dd sd : ℤ → ℤ → ℕ,
      drawScaled junk x y rgbChannel hint xScale yScale { dst with data := dd } { src with data := sd } =
      drawScaled junk x y rgbChannel hint 1 1 { dst with data := dd } (m { src with data := sd })) ↔
    ∀ u v, (px.start ≤ u ∧ u < px.stop) ∧ py.start ≤ v ∧ v < py.stop →
      unitColumn src.w xScale px u = A src.w (unitColumn src.w 1 px u) ∧
      unitColumn src.h yScale py v = B src.h (unitColumn src.h 1 py v) := by
  have hf := unitOf_black_ne_white hd hs rgbChannel
    (hint.extractRgbChannelFirst && src.bpp = .rgb565 && rgbChannel.isSome)
  have hcontents := forall_contents_iff hf
    (C := fun u v => (px.start ≤ u ∧ u < px.stop) ∧ py.start ≤ v ∧ v < py.stop)
    (I := unitColumn src.w xScale px) (J := unitColumn src.h yScale py)
    (K := fun u => A src.w (unitColumn src.w 1 px u)) (L := fun v => B src.h (unitColumn src.h 1 py v))
  rw [← hcontents]
  refine forall₂_congr fun dd sd => drawScaled_eq_iff.trans (forall₂_congr fun u v => ?_)
  have hframe := hm.frame { src with data := sd }
  have hpixel := hm.pixel { src with data := sd }
  generalize m { src with data := sd } = s at hframe hpixel ⊢
  have hright := drawScaled_data junk rgbChannel { dst with data := dd } { src with data := s.data } abs_one abs_one
    hd hs hw hh hpx hpy u v
  rw [← hframe] at hright
  rw [drawScaled_data junk rgbChannel { dst with data := dd } { src with data := sd } hx hy hd hs hw hh hpx hpy,
    hright, hpixel, image_pixel, image_pixel, congrArg Image.bpp hframe, congrArg Image.w hframe,
    congrArg Image.h hframe]

/-- Where nothing is drawn the two are the same in any way. -/
theorem drawScaled_moved_of_eq (hleft : ∀ dd sd : ℤ → ℤ → ℕ, drawScaled junk x y rgbChannel hint xScale yScale
      { dst with data := dd } { src with data := sd } = { dst with data := dd })
    (hright : ∀ dd sd : ℤ → ℤ → ℕ, drawScaled junk x y rgbChannel hint 1 1
      { dst with data := dd } { src with data := sd } = { dst with data := dd })
    (hm : Moves m A B) (dd sd : ℤ → ℤ → ℕ) :
    drawScaled junk x y rgbChannel hint xScale yScale { dst with data := dd } { src with data := sd } =
      drawScaled junk x y rgbChannel hint 1 1 { dst with data := dd } (m { src with data := sd }) := by
  rw [hleft, hm.frame]
  exact (hright dd _).symm

end

section

variable (junk : ℤ → ℤ → ℕ) (dst src : Image) (x y : ℤ) (rgbChannel : Option RgbChannel) (hint : Hint)

/-- Something is drawn at all. -/
def Drawn : Prop :=
  (drawable dst.bpp ∧ drawable src.bpp) ∧
  Visible dst.w src.w (posOf src.w x hint.center) ∧ Visible dst.h src.h (posOf src.h y hint.center)

variable {junk dst src x y rgbChannel hint}

theorem drawScaled_of_not_drawn {xScale yScale : ℚ} (hx : |xScale| = 1) (hy : |yScale| = 1)
    (h : ¬ Drawn dst src x y hint) : drawScaled junk x y rgbChannel hint xScale yScale dst src = dst := by
  by_cases hf : drawable dst.bpp ∧ drawable src.bpp
  · exact drawScaled_none hx hy fun hv => h ⟨hf, hv⟩
  · exact drawScaled_undrawable hf

end

/-- Scale -1 draws the mirror image, for all contents of the images, if and only if nothing is drawn at
    all, or the image does not start left of the left edge and is not wider than the destination, or it
    does start there and does not hang over the right edge. The same holds for the rows. -/
theorem drawImage_mirrored_iff (junk : ℤ → ℤ → ℕ) (dst src : Image) (x y : ℤ)
    (rgbChannel : Option RgbChannel) (hint : Hint) :
    ((∀ dd sd : ℤ → ℤ → ℕ,
      drawScaled junk x y rgbChannel hint (-1) 1 { dst with data := dd } { src with data := sd } =
      drawScaled junk x y rgbChannel hint 1 1 { dst with data := dd } (hmirror { src with data := sd })) ↔
      (Drawn dst src x y hint → MirrorFits dst.w src.w (posOf src.w x hint.center))) ∧
    ((∀ dd sd : ℤ → ℤ → ℕ,
      drawScaled junk x y rgbChannel hint 1 (-1) { dst with data := dd } { src with data := sd } =
      drawScaled junk x y rgbChannel hint 1 1 { dst with data := dd } (vmirror { src with data := sd })) ↔
      (Drawn dst src x y hint → MirrorFits dst.h src.h (posOf src.h y hint.center))) := by
  have habs : |(-1 : ℚ)| = 1 := by norm_num
  by_cases hdrawn : Drawn dst src x y hint
  · obtain ⟨⟨hd, hs⟩, hvx, hvy⟩ := id hdrawn
    have hw : 1 ≤ src.w := hvx.1
    have hh : 1 ≤ src.h := hvy.1
    obtain ⟨px, hpx⟩ : ∃ px, clip dst.w src.w x hint.center = some px :=
      ⟨_, (clip_eq_some_iff hw).mpr ⟨hvx, rfl⟩⟩
    obtain ⟨py, hpy⟩ : ∃ py, clip dst.h src.h y hint.center = some py :=
      ⟨_, (clip_eq_some_iff hh).mpr ⟨hvy, rfl⟩⟩
    have hpx0 := clip_bounds hpx
    have hpy0 := clip_bounds hpy
    rw [drawScaled_moved_iff hd hs habs abs_one hmirror_moves hw hh hpx hpy,
      drawScaled_moved_iff hd hs abs_one habs vmirror_moves hw hh hpx hpy,
      ← unitColumn_mirrored_iff hw hpx, ← unitColumn_mirrored_iff hh hpy]
    refine ⟨⟨fun h _ u hu => ?_, fun h u v huv => ⟨h hdrawn u huv.1, rfl⟩⟩,
      ⟨fun h _ v hv => ?_, fun h u v huv => ⟨rfl, h hdrawn v huv.2⟩⟩⟩
    · exact (h u py.start ⟨hu, le_rfl, hpy0.2.1⟩).1
    · exact (h px.start v ⟨⟨le_rfl, hpx0.2.1⟩, hv⟩).2
  · -- neither the formats nor the place depend on the contents
    have hplain : ∀ dd sd : ℤ → ℤ → ℕ, drawScaled junk x y rgbChannel hint 1 1 { dst with data := dd }
        { src with data := sd } = { dst with data := dd } :=
      fun _ _ => drawScaled_of_not_drawn abs_one abs_one hdrawn
    refine ⟨iff_of_true (drawScaled_moved_of_eq (fun _ _ => ?_) hplain hmirror_moves) (fun h => absurd h hdrawn),
      iff_of_true (drawScaled_moved_of_eq (fun _ _ => ?_) hplain vmirror_moves) (fun h => absurd h hdrawn)⟩
    · exact drawScaled_of_not_drawn habs abs_one hdrawn
    · exact drawScaled_of_not_drawn abs_one habs hdrawn

/-- Two columns of which one is seen: scale -1 shows the first one, which is the last of the mirror
    image. -/
theorem drawImage_not_mirrored :
    let dst : Image := ⟨1, 1, .grayscale, fun _ _ => 0⟩
    let src : Image := ⟨2, 1, .grayscale, fun x _ => if x = 0 then 10 else 20⟩
    let hint : Hint := ⟨false, false, false, false, false, false⟩
    drawScaled (fun _ _ => 0) 0 0 none hint (-1) 1 dst src ≠
      drawScaled (fun _ _ => 0) 0 0 none hint 1 1 dst (hmirror src) := by
  intro dst src hint h
  have hpx : clip dst.w src.w 0 hint.center = some ⟨0, 1, 0⟩ := by decide
  have hpy : clip dst.h src.h 0 hint.center = some ⟨0, 1, 0⟩ := by decide
  have habs : |(-1 : ℚ)| = 1 := by norm_num
  have hneg : unitColumn 2 (-1) ⟨0, 1, 0⟩ 0 = 0 := by decide
  have hpixel := congrArg (fun img : Image => img.data 0 0) h
  simp only at hpixel
  rw [drawScaled_data _ _ dst src habs abs_one rfl rfl (by decide) (by decide) hpx hpy,
    drawScaled_data _ _ dst (hmirror src) abs_one abs_one rfl rfl (by decide) (by decide) hpx hpy,
    hmirror_pixel] at hpixel
  simp only [src, dst, hneg] at hpixel
  revert hpixel
  decide

end OpenMV.Draw
