import OpenMV.Vision.FindBlobs
import OpenMV.Vision.Integral

/-! Diamond search for a template | scheme:loop | source:src/src/openmv/omv/img/template.c

    `imlib_template_match_ds` looks at nine points around a center, goes on from the best one seen so far,
    and comes closer when that is the center itself. The best score goes up whenever the center
    moves on, and there are only so many scores; in the other rounds the step gets smaller. A score is an element
    of some total order, or nothing, as NaN is never greater than anything. -/

namespace OpenMV.Vision
open Schemes

variable {L : Type}

/-! ### The code -/

/-- A `point_t`. -/
def pointT (x y : ℤ) : ℤ × ℤ := (int16 x, int16 y)

/-- `set_dsp`. -/
def setDsp (cx cy : ℤ) (sdsp : Bool) (step : ℤ) : List (ℤ × ℤ) :=
  if sdsp then
    [pointT cx cy, pointT (cx + step.tdiv 2) cy, pointT cx (cy + step.tdiv 2), pointT (cx - step.tdiv 2) cy,
      pointT cx (cy - step.tdiv 2)]
  else
    [pointT cx cy, pointT (cx + step) cy, pointT (cx + step.tdiv 2) (cy + step.tdiv 2), pointT cx (cy + step),
      pointT (cx - step.tdiv 2) (cy + step.tdiv 2), pointT (cx - step) cy,
      pointT (cx - step.tdiv 2) (cy - step.tdiv 2), pointT cx (cy - step),
      pointT (cx + step.tdiv 2) (cy - step.tdiv 2)]

/-- The inner loop of `find_block_ncc`: `num` and `f_sumsq` go on with a pixel of the block. -/
def blockPixel (f t : Image) (tMean fMean u v : ℤ) (y : ℕ) (s : ℤ × ℤ) (x : ℕ) : Option (ℤ × ℤ) := do
  let p ← srcGet f ((v + y) * f.w + (u + x))
  let q ← srcGet t (y * t.w + x)
  let a := int32 (p - fMean)
  let b := int32 (q - tMean)
  some (int32 (s.1 + a * b), (s.2 + a * a) % 4294967296)

def blockSums (f t : Image) (tMean fMean u v : ℤ) (w h : ℕ) : Option (ℤ × ℤ) :=
  (List.range h).foldlM (fun s y => (List.range w).foldlM (blockPixel f t tMean fMean u v y) s) (0, 0)

/-- `find_block_ncc`. `xc u v num fSumsq tSumsq` is the quotient it returns. -/
def findBlockNcc (xc : ℤ → ℤ → ℤ → ℤ → ℤ → Option L) (f t : Image) (sum : IImage) (tMean tSumsq u v : ℤ) :
    Option (Option L) :=
  let u := if u < 0 then 0 else u
  let v := if v < 0 then 0 else v
  let w := if u + t.w ≥ f.w then f.w - u else t.w
  let h := if v + t.h ≥ f.h then f.h - v else t.h
  if w * h = 0 then none
  else do
    let fSum ← imlibIntegralLookup sum u v w h
    let s ← blockSums f t tMean (fSum / (w * h)) u v w.toNat h.toNat
    some (xc u v s.1 s.2 tSumsq)

/-- The loop of `imlib_image_mean` for a grayscale image. -/
def imlibImageMean (t : Image) : Option ℤ :=
  if t.w * t.h = 0 then none
  else do
    let s ← (List.range (t.w * t.h).toNat).foldlM (fun s (i : ℕ) => (srcGet t i).map fun p => int32 (s + p)) 0
    some (s.tdiv (t.w * t.h))

def templateSumsq (t : Image) (tMean : ℤ) : Option ℤ :=
  (List.range (t.w * t.h).toNat).foldlM
    (fun s (i : ℕ) => (srcGet t i).map fun p => (s + int32 (p - tMean) * int32 (p - tMean)) % 4294967296) 0

/-- The variables of the loop. -/
structure DsState (L : Type) where
  cx : ℤ
  cy : ℤ
  px : ℤ
  py : ℤ
  maxXc : L
  step : ℤ

variable [LinearOrder L]

/-- `blk_xc > max_xc`. -/
def beats (m : L) : Option L → Bool
  | none => false
  | some v => m < v

def searchPoint (block : ℤ → ℤ → Option (Option L)) (fw fh : ℤ) (s : DsState L) (p : ℤ × ℤ) :
    Option (DsState L) :=
  if p.1 ≥ fw ∨ p.2 ≥ fh then some s
  else (block p.1 p.2).map fun xc =>
    if beats s.maxXc xc then { s with px := p.1, py := p.2, maxXc := xc.getD s.maxXc } else s

def dsRound (block : ℤ → ℤ → Option (Option L)) (fw fh : ℤ) (s : DsState L) : Option (DsState L) := do
  let s ← (setDsp s.cx s.cy false s.step).foldlM (searchPoint block fw fh) s
  let step := if s.px = s.cx ∧ s.py = s.cy then s.step - 1 else s.step
  some { s with step := step, cx := s.px, cy := s.py }

/-- `while (step > 0)`. -/
def dsLoop (block : ℤ → ℤ → Option (Option L)) (fw fh : ℤ) : ℕ → DsState L → Option (DsState L)
  | 0, s => if s.step > 0 then none else some s
  | fuel + 1, s => if s.step > 0 then (dsRound block fw fh s).bind (dsLoop block fw fh fuel) else some s

/-- The rectangle that is stored at the end. -/
def dsRect (f t : Image) (s : DsState L) : Rectangle where
  x := if s.cx < 0 then 0 else int16 s.cx
  y := if s.cy < 0 then 0 else int16 s.cy
  w := if s.cx + t.w > f.w then int16 (f.w - s.cx) else int16 t.w
  h := if s.cy + t.h > f.h then int16 (f.h - s.cy) else int16 t.h

/-- `mem` is what the table for the integral image holds before, and `lowest` is `-FLT_MAX`. -/
def imlibTemplateMatchDs (fuel : ℕ) (xc : ℤ → ℤ → ℤ → ℤ → ℤ → Option L) (lowest : L) (mem : ℤ → ℤ)
    (f t : Image) : Option (L × Rectangle) := do
  let sum ← imlibIntegralImage f ⟨f.w.toNat, f.h.toNat, mem⟩
  let tMean ← imlibImageMean t
  let tSumsq ← templateSumsq t tMean
  let s ← dsLoop (findBlockNcc xc f t sum tMean tSumsq) f.w f.h fuel
    ⟨f.w / 2 - t.w / 2, f.h / 2 - t.h / 2, 0, 0, lowest, t.w⟩
  some (s.maxXc, dsRect f t s)

/-! ### Blocks -/

section Blocks

variable {xc : ℤ → ℤ → ℤ → ℤ → ℤ → Option L} {f t : Image} {sum : IImage}

theorem exists_srcGet (src : Image) {x y : ℤ} (hm : src.Mem (x, y)) : ∃ p, srcGet src (y * src.w + x) = some p := by
  obtain ⟨hx0, hxw, hy0, hyh⟩ : 0 ≤ x ∧ x < src.w ∧ 0 ≤ y ∧ y < src.h := hm
  exact ⟨_, if_pos (rowMajor_mem ⟨hx0, hxw⟩ ⟨hy0, hyh⟩)⟩

theorem exists_srcGet_index (src : Image) {i : ℕ} (hi : i < (src.w * src.h).toNat) :
    ∃ p, srcGet src i = some p :=
  ⟨_, if_pos ⟨Int.natCast_nonneg i, by omega⟩⟩

theorem exists_blockSums (tMean fMean : ℤ) {u v : ℤ} {w h : ℕ} (hu : 0 ≤ u) (hv : 0 ≤ v) (huw : u + w ≤ f.w)
    (hvh : v + h ≤ f.h) (hwt : (w : ℤ) ≤ t.w) (hht : (h : ℤ) ≤ t.h) :
    ∃ s, blockSums f t tMean fMean u v w h = some s := by
  refine foldlM_isSome _ (fun s y hy => foldlM_isSome _ (fun s x hx => ?_) s) _
  have hy' := List.mem_range.mp hy
  have hx' := List.mem_range.mp hx
  obtain ⟨p, hp⟩ := exists_srcGet f (x := u + x) (y := v + y)
    ⟨by dsimp only; omega, by dsimp only; omega, by dsimp only; omega, by dsimp only; omega⟩
  obtain ⟨q, hq⟩ := exists_srcGet t (x := x) (y := y)
    ⟨by dsimp only; omega, by dsimp only; omega, by dsimp only; omega, by dsimp only; omega⟩
  exact ⟨_, by rw [blockPixel, hp, hq]; rfl⟩

omit [LinearOrder L] in
/-- A block at a point above or left of the image is the one at its border. -/
theorem findBlockNcc_clamped (tMean tSumsq u v : ℤ) : findBlockNcc xc f t sum tMean tSumsq u v =
    findBlockNcc xc f t sum tMean tSumsq (if u < 0 then 0 else u) (if v < 0 then 0 else v) := by
  have hidem : ∀ z : ℤ, (if (if z < 0 then 0 else z) < 0 then 0 else if z < 0 then 0 else z) =
      if z < 0 then 0 else z := fun z => by split_ifs <;> omega
  rw [findBlockNcc, findBlockNcc, hidem, hidem]

omit [LinearOrder L] in
/-- A block that starts in the image, or above or left of it, is cut off at the image and is not empty. -/
theorem exists_findBlockNcc (hsum : Answers (pixels f) f.w.toNat f.h.toNat (some sum)) (htw : 0 < t.w)
    (hth : 0 < t.h) (tMean tSumsq : ℤ) {u v : ℤ} (hu : u < f.w) (hv : v < f.h) (hfw : 0 < f.w) (hfh : 0 < f.h) :
    ∃ r, findBlockNcc xc f t sum tMean tSumsq u v = some r := by
  have hu' : 0 ≤ (if u < 0 then 0 else u) ∧ (if u < 0 then 0 else u) < f.w := by split_ifs <;> omega
  have hv' : 0 ≤ (if v < 0 then 0 else v) ∧ (if v < 0 then 0 else v) < f.h := by split_ifs <;> omega
  unfold findBlockNcc
  generalize (if u < 0 then 0 else u) = u' at *
  generalize (if v < 0 then 0 else v) = v' at *
  have hw : 0 < (if u' + t.w ≥ f.w then f.w - u' else t.w) ∧
      u' + (if u' + t.w ≥ f.w then f.w - u' else t.w) ≤ f.w ∧
      (if u' + t.w ≥ f.w then f.w - u' else t.w) ≤ t.w := by split_ifs <;> omega
  have hh : 0 < (if v' + t.h ≥ f.h then f.h - v' else t.h) ∧
      v' + (if v' + t.h ≥ f.h then f.h - v' else t.h) ≤ f.h ∧
      (if v' + t.h ≥ f.h then f.h - v' else t.h) ≤ t.h := by split_ifs <;> omega
  dsimp only
  generalize (if u' + t.w ≥ f.w then f.w - u' else t.w) = w at *
  generalize (if v' + t.h ≥ f.h then f.h - v' else t.h) = h at *
  obtain ⟨t', ht', hlookup⟩ := hsum
  obtain rfl := Option.some.inj ht'
  obtain ⟨x, rfl⟩ := Int.eq_ofNat_of_zero_le hu'.1
  obtain ⟨y, rfl⟩ := Int.eq_ofNat_of_zero_le hv'.1
  obtain ⟨w, rfl⟩ := Int.eq_ofNat_of_zero_le hw.1.le
  obtain ⟨h, rfl⟩ := Int.eq_ofNat_of_zero_le hh.1.le
  have hl := hlookup x y w h (by omega) (by omega) (by omega) (by omega)
  obtain ⟨s, hs⟩ := exists_blockSums (f := f) (t := t) tMean ((∑ i ∈ Finset.range h,
    ∑ j ∈ Finset.range w, pixels f (y + i) (x + j)) % 4294967296 / ((w : ℤ) * h)) hu'.1 hv'.1 hw.2.1 hh.2.1
    hw.2.2 hh.2.2
  refine ⟨xc x y s.1 s.2 tSumsq, ?_⟩
  rw [if_neg (mul_pos hw.1 hh.1).ne', hl]
  simp only [Option.bind_eq_bind, Option.bind_some, Int.toNat_natCast, hs]

end Blocks

/-! ### Rounds -/

section Search

variable {block : ℤ → ℤ → Option (Option L)} {score : ℕ → ℕ → Option L} {fw fh : ℕ}

/-- Scores at the places of an image; a point above or left of it counts as the one at the border. -/
def Scores (block : ℤ → ℤ → Option (Option L)) (score : ℕ → ℕ → Option L) (fw fh : ℕ) : Prop :=
  ∀ x y : ℤ, x < fw → y < fh → block x y = some (score x.toNat y.toNat)

/-- The places with a score above `m`. -/
def higher (score : ℕ → ℕ → Option L) (fw fh : ℕ) (m : L) : ℕ :=
  ((Finset.range fw ×ˢ Finset.range fh).filter fun p => beats m (score p.1 p.2) = true).card

theorem higher_le (score : ℕ → ℕ → Option L) (fw fh : ℕ) (m : L) : higher score fw fh m ≤ fw * fh := by
  refine (Finset.card_filter_le _ _).trans ?_
  rw [Finset.card_product, Finset.card_range, Finset.card_range]

/-- When a score of the image is taken for the best one, there are fewer above it. -/
theorem higher_lt {m v : L} {x y : ℕ} (hx : x < fw) (hy : y < fh) (hv : score x y = some v) (hm : m < v) :
    higher score fw fh v < higher score fw fh m := by
  refine Finset.card_lt_card (Finset.ssubset_iff_of_subset ?_ |>.mpr ⟨(x, y), ?_, ?_⟩)
  · intro p hp
    obtain ⟨hmem, hbeats⟩ := Finset.mem_filter.mp hp
    refine Finset.mem_filter.mpr ⟨hmem, ?_⟩
    cases hs : score p.1 p.2 with
    | none => rw [hs] at hbeats; exact hbeats
    | some u =>
      rw [hs] at hbeats
      exact decide_eq_true (hm.trans (of_decide_eq_true hbeats))
  · refine Finset.mem_filter.mpr ⟨by simp [hx, hy], ?_⟩
    rw [hv]
    exact decide_eq_true hm
  · intro hp
    have hbeats := (Finset.mem_filter.mp hp).2
    rw [hv] at hbeats
    exact lt_irrefl v (of_decide_eq_true hbeats)

/-- The best point is left of the right border and above the lower one, and was kept in a `point_t`. -/
structure Placed (fw fh : ℕ) (s : DsState L) : Prop where
  x : s.px < fw ∧ s.px ≤ 32767
  y : s.py < fh ∧ s.py ≤ 32767

/-- From one state to another in a round: either nothing is better, or fewer scores are above the best. -/
structure Improves (score : ℕ → ℕ → Option L) (fw fh : ℕ) (s s' : DsState L) : Prop where
  cx : s'.cx = s.cx
  cy : s'.cy = s.cy
  step : s'.step = s.step
  better : (s'.px = s.px ∧ s'.py = s.py ∧ s'.maxXc = s.maxXc) ∨
    higher score fw fh s'.maxXc < higher score fw fh s.maxXc

theorem Improves.trans {s₁ s₂ s₃ : DsState L} (h : Improves score fw fh s₁ s₂) (h' : Improves score fw fh s₂ s₃) :
    Improves score fw fh s₁ s₃ where
  cx := h'.cx.trans h.cx
  cy := h'.cy.trans h.cy
  step := h'.step.trans h.step
  better := by
    rcases h.better with ⟨hx, hy, hm⟩ | hlt
    · rw [← hx, ← hy, ← hm]
      exact h'.better
    · rcases h'.better with ⟨-, -, hm⟩ | hlt'
      · rw [hm]
        exact .inr hlt
      · exact .inr (hlt'.trans hlt)

theorem searchPoint_spec (hfw : 0 < fw) (hfh : 0 < fh) (hb : Scores block score fw fh) {s : DsState L}
    (hs : Placed fw fh s) {p : ℤ × ℤ}
    (hp : p.1 ≤ 32767 ∧ p.2 ≤ 32767) : ∃ s', searchPoint block fw fh s p = some s' ∧
      Improves score fw fh s s' ∧ Placed fw fh s' := by
  unfold searchPoint
  split
  · exact ⟨s, rfl, ⟨rfl, rfl, rfl, .inl ⟨rfl, rfl, rfl⟩⟩, hs⟩
  · rename_i hin
    rw [hb p.1 p.2 (by omega) (by omega)]
    refine ⟨_, rfl, ?_⟩
    cases hv : score p.1.toNat p.2.toNat with
    | none => exact ⟨⟨rfl, rfl, rfl, .inl ⟨rfl, rfl, rfl⟩⟩, hs⟩
    | some v =>
      dsimp only
      split
      · rename_i hbeats
        have hlt : s.maxXc < v := of_decide_eq_true hbeats
        exact ⟨⟨rfl, rfl, rfl, .inr (higher_lt (by omega) (by omega) hv hlt)⟩,
          ⟨by dsimp only; omega, hp.1⟩, by dsimp only; omega, hp.2⟩
      · exact ⟨⟨rfl, rfl, rfl, .inl ⟨rfl, rfl, rfl⟩⟩, hs⟩

theorem foldlM_searchPoint (hfw : 0 < fw) (hfh : 0 < fh) (hb : Scores block score fw fh) {ps : List (ℤ × ℤ)}
    {s : DsState L} (hps : ∀ p ∈ ps, p.1 ≤ 32767 ∧ p.2 ≤ 32767) (hs : Placed fw fh s) :
    ∃ s', ps.foldlM (searchPoint block fw fh) s = some s' ∧ Improves score fw fh s s' ∧ Placed fw fh s' := by
  refine exists_foldlM (fun _ s' => Improves score fw fh s s' ∧ Placed fw fh s')
    ⟨⟨rfl, rfl, rfl, .inl ⟨rfl, rfl, rfl⟩⟩, hs⟩ fun p hp _ s₁ ⟨himp, hs₁⟩ => ?_
  obtain ⟨s', h1, himp', hs'⟩ := searchPoint_spec hfw hfh hb hs₁ (hps p hp)
  exact ⟨s', h1, himp.trans himp', hs'⟩

theorem le_of_mem_setDsp {cx cy step : ℤ} {sdsp : Bool} {p : ℤ × ℤ} (hp : p ∈ setDsp cx cy sdsp step) :
    p.1 ≤ 32767 ∧ p.2 ≤ 32767 := by
  have hpoint : ∀ x y, (pointT x y).1 ≤ 32767 ∧ (pointT x y).2 ≤ 32767 := by
    intro x y
    simp only [pointT, int16]
    omega
  unfold setDsp at hp
  split at hp <;> simp only [List.mem_cons, List.not_mem_nil, or_false] at hp
  · rcases hp with rfl | rfl | rfl | rfl | rfl <;> exact hpoint _ _
  · rcases hp with rfl | rfl | rfl | rfl | rfl | rfl | rfl | rfl | rfl <;> exact hpoint _ _

/-- A round puts the center on the best point. There are fewer scores above the best one, or the step gets
    smaller, or the center was not on the best point. -/
theorem dsRound_spec (hfw : 0 < fw) (hfh : 0 < fh) (hb : Scores block score fw fh) {s : DsState L}
    (hs : Placed fw fh s) :
    ∃ s', dsRound block fw fh s = some s' ∧ Placed fw fh s' ∧ (s'.cx = s'.px ∧ s'.cy = s'.py) ∧
      higher score fw fh s'.maxXc ≤ higher score fw fh s.maxXc ∧ (s'.step = s.step ∨ s'.step = s.step - 1) ∧
      (s.cx = s.px ∧ s.cy = s.py →
        higher score fw fh s'.maxXc + s'.step < higher score fw fh s.maxXc + s.step) := by
  have hpoints : ∀ p ∈ setDsp s.cx s.cy false s.step, p.1 ≤ 32767 ∧ p.2 ≤ 32767 := fun p hp => le_of_mem_setDsp hp
  obtain ⟨s₁, hfold, himp, hs₁⟩ := foldlM_searchPoint hfw hfh hb hpoints hs
  refine ⟨{ s₁ with step := if s₁.px = s₁.cx ∧ s₁.py = s₁.cy then s₁.step - 1 else s₁.step, cx := s₁.px, cy := s₁.py },
    by rw [dsRound, hfold]; rfl, ⟨hs₁.x, hs₁.y⟩, ⟨rfl, rfl⟩, ?_, ?_, ?_⟩
  · rcases himp.better with ⟨-, -, hm⟩ | hlt
    · exact le_of_eq (congrArg _ hm)
    · exact hlt.le
  · dsimp only
    rw [himp.step]
    split
    · exact .inr rfl
    · exact .inl rfl
  · rintro ⟨hcx, hcy⟩
    dsimp only
    rcases himp.better with ⟨hx, hy, hm⟩ | hlt
    · rw [if_pos ⟨by rw [hx, himp.cx, hcx], by rw [hy, himp.cy, hcy]⟩, hm, himp.step]
      omega
    · rw [himp.step]
      split <;> omega

/-- From a center on the best point there are no more rounds than scores above the best and steps. -/
theorem dsLoop_ends (hfw : 0 < fw) (hfh : 0 < fh) (hb : Scores block score fw fh) :
    ∀ {fuel : ℕ} {s : DsState L}, Placed fw fh s →
    s.cx = s.px ∧ s.cy = s.py → 0 ≤ s.step → higher score fw fh s.maxXc + s.step ≤ fuel →
    ∃ s', dsLoop block fw fh fuel s = some s' ∧ Placed fw fh s' ∧ s'.cx = s'.px ∧ s'.cy = s'.py
  | 0, s, hs, hc, hstep, hfuel => ⟨s, if_neg (by omega), hs, hc⟩
  | fuel + 1, s, hs, hc, hstep, hfuel => by
      rw [dsLoop]
      split
      · obtain ⟨s₁, hround, hs₁, hc₁, -, hstep₁, hless⟩ := dsRound_spec hfw hfh hb hs
        rw [hround, Option.bind_some]
        exact dsLoop_ends hfw hfh hb hs₁ hc₁ (by omega) (by have := hless hc; push_cast at hfuel; omega)
      · exact ⟨s, rfl, hs, hc⟩

end Search

/-! ### The search -/

/-- For every image, template and scores the search ends, after at most as many rounds as the image has
    pixels and the template columns, and one more; every block it looks at reads pixels of the two
    images only and has a size that can be divided by; and the rectangle it returns is inside the image. -/
theorem template_match_ds_ends (f t : Image) (hw : 1 ≤ t.w) (hh : 1 ≤ t.h) (hwf : t.w ≤ f.w) (hhf : t.h ≤ f.h)
    (hw16 : t.w ≤ 32767) (hh16 : t.h ≤ 32767) (xc : ℤ → ℤ → ℤ → ℤ → ℤ → Option L) (lowest : L) (mem : ℤ → ℤ)
    (fuel : ℕ) (hfuel : f.w * f.h + t.w + 1 ≤ fuel) :
    ∃ m r, imlibTemplateMatchDs fuel xc lowest mem f t = some (m, r) ∧ 0 ≤ r.x ∧ 0 ≤ r.y ∧ 1 ≤ r.w ∧ 1 ≤ r.h ∧
      r.x + r.w ≤ f.w ∧ r.y + r.h ≤ f.h := by
  obtain ⟨W, hW⟩ := Int.eq_ofNat_of_zero_le (show 0 ≤ f.w by omega)
  obtain ⟨H, hH⟩ := Int.eq_ofNat_of_zero_le (show 0 ≤ f.h by omega)
  obtain ⟨⟨sum, hsum, hlookup⟩, -⟩ := imlibIntegralImage_answers (t := ⟨f.w.toNat, f.h.toNat, mem⟩)
    (W := f.w.toNat) (H := f.h.toNat) (by omega) (show f.w = _ by omega) (show f.h = _ by omega) rfl rfl
  obtain ⟨mean, hmean⟩ : ∃ mean, imlibImageMean t = some mean := by
    obtain ⟨s, hs⟩ := foldlM_isSome (fun s (i : ℕ) => (srcGet t i).map fun p => int32 (s + p))
      (l := List.range (t.w * t.h).toNat) (fun s i hi => by
        obtain ⟨p, hp⟩ := exists_srcGet_index t (List.mem_range.mp hi)
        exact ⟨_, by rw [hp]; rfl⟩) 0
    exact ⟨_, by rw [imlibImageMean, if_neg (by nlinarith), hs]; rfl⟩
  obtain ⟨sumsq, hsumsq⟩ : ∃ sumsq, templateSumsq t mean = some sumsq :=
    foldlM_isSome _ (fun s i hi => by
      obtain ⟨p, hp⟩ := exists_srcGet_index t (List.mem_range.mp hi)
      exact ⟨_, by rw [hp]; rfl⟩) 0
  -- the score of a place is what its block gives
  have hblocks : ∀ u v : ℤ, u < f.w → v < f.h → ∃ r, findBlockNcc xc f t sum mean sumsq u v = some r :=
    fun u v hu hv => exists_findBlockNcc ⟨sum, rfl, hlookup⟩ (by omega) (by omega) mean sumsq hu hv (by omega)
      (by omega)
  have hscores : Scores (findBlockNcc xc f t sum mean sumsq)
      (fun x y => (findBlockNcc xc f t sum mean sumsq x y).getD none) W H := by
    intro u v hu hv
    obtain ⟨r, hr⟩ := hblocks u v (by omega) (by omega)
    have htoNat : ∀ z : ℤ, (z.toNat : ℤ) = if z < 0 then 0 else z := fun z => by split_ifs <;> omega
    dsimp only
    rw [htoNat, htoNat, ← findBlockNcc_clamped, hr]
    rfl
  have hW0 : 0 < W := by omega
  have hH0 : 0 < H := by omega
  have hprod : f.w * f.h = (W * H : ℕ) := by rw [hW, hH]; push_cast; rfl
  obtain ⟨n, rfl⟩ := Nat.exists_eq_add_of_le' (show 1 ≤ fuel by omega)
  -- the first round may leave the center where it is not the best point
  have hplaced : Placed W H ⟨f.w / 2 - t.w / 2, f.h / 2 - t.h / 2, 0, 0, lowest, t.w⟩ :=
    ⟨⟨by dsimp only; omega, by norm_num⟩, by dsimp only; omega, by norm_num⟩
  obtain ⟨s₁, hround, hs₁, hc₁, hhigher, hstep₁, -⟩ := dsRound_spec hW0 hH0 hscores hplaced
  have hle := higher_le (fun x y => (findBlockNcc xc f t sum mean sumsq x y).getD none) W H lowest
  have hfuel₁ : higher (fun x y => (findBlockNcc xc f t sum mean sumsq x y).getD none) W H s₁.maxXc + s₁.step ≤ n := by
    dsimp only at hhigher hstep₁
    omega
  obtain ⟨s, hloop, hs, hcx, hcy⟩ := dsLoop_ends hW0 hH0 hscores hs₁ hc₁ (by dsimp only at hstep₁; omega) hfuel₁
  rw [← hW, ← hH] at hround hloop
  refine ⟨s.maxXc, dsRect f t s, ?_, ?_⟩
  · have hall : dsLoop (findBlockNcc xc f t sum mean sumsq) f.w f.h (n + 1)
        ⟨f.w / 2 - t.w / 2, f.h / 2 - t.h / 2, 0, 0, lowest, t.w⟩ = some s := by
      rw [dsLoop, if_pos (by dsimp only; omega), hround, Option.bind_some, hloop]
    rw [imlibTemplateMatchDs, hsum]
    simp only [Option.bind_eq_bind, Option.bind_some, hmean, hsumsq, hall]
  · obtain ⟨hx1, hx2⟩ := hs.x
    obtain ⟨hy1, hy2⟩ := hs.y
    simp only [dsRect]
    rw [hcx, hcy]
    unfold int16
    split_ifs <;> omega

/-- A slope with two bright pixels on it, which are the upper row of the template. -/
def slope : Image :=
  ⟨6, 5, .grayscale, fun x y => if (x, y) = (0, 0) then 200 else if (x, y) = (1, 0) then 90 else (10 * x + 7 * y).toNat⟩

def brightPair : Image := ⟨2, 2, .grayscale, fun x y => if (x, y) = (0, 0) then 200 else if y = 0 then 90 else 20⟩

/-- The numerator, unless the denominator is zero: then the quotient is a NaN. -/
def numScore (_u _v num fSumsq tSumsq : ℤ) : Option ℤ := if fSumsq * tSumsq = 0 then none else some num

/-- From the middle, at column 2 and row 1, the search gets to the bright pixels. -/
theorem template_match_ds_ends_on_pair :
    ((imlibTemplateMatchDs 51 numScore (-1000000) (fun _ => 0) slope brightPair).map fun s => (s.2.x, s.2.y)) =
      some (0, 0) ∧
    ∃ m r, imlibTemplateMatchDs 51 numScore (-1000000) (fun _ => 0) slope brightPair = some (m, r) ∧
      0 ≤ r.x ∧ 0 ≤ r.y ∧ 1 ≤ r.w ∧ 1 ≤ r.h ∧ r.x + r.w ≤ 6 ∧ r.y + r.h ≤ 5 :=
  ⟨by decide +kernel, template_match_ds_ends slope brightPair (by decide) (by decide) (by decide) (by decide)
    (by decide) (by decide) _ _ _ 51 (by decide)⟩

end OpenMV.Vision
