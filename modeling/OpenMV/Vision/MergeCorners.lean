import OpenMV.Vision.MergeBlobs
import Mathlib.Analysis.SpecialFunctions.Trigonometric.Basic

/-! Corners of merged blobs | scheme:extremum | source:src/src/openmv/omv/img/blob.c

    Corner `i` of a blob is meant to be its point that lies furthest against the direction of angle
    `18 * i`. When two blobs are merged the corner of the one merged in is compared with both of its
    coordinates multiplied by the cosine, so it can be taken although it lies further in, or left
    although it lies further out. The tables are exact here. -/

namespace OpenMV.Vision
open Schemes.MergeLoop

noncomputable section

def exactDirections : Directions ℝ where
  cos := fun i => Real.cos (i * Real.pi / 10)
  sin := fun i => Real.sin (i * Real.pi / 10)

/-- How far the point lies in the direction of corner `i`. -/
def proj (i : Fin 20) (p : ℤ × ℤ) : ℝ := p.1 * exactDirections.cos i + p.2 * exactDirections.sin i

/-- What the merging takes for it. -/
def projSrc (i : Fin 20) (p : ℤ × ℤ) : ℝ := p.1 * exactDirections.cos i + p.2 * exactDirections.cos i

/-- The point minimises the projection over the pixels. -/
def Extreme (i : Fin 20) (c : ℤ × ℤ) (pixels : Set (ℤ × ℤ)) : Prop :=
  IsLeast (proj i '' pixels) (proj i c)

/-- The comparison with `projSrc` comes out as the one with `proj` may. -/
def ComparesRight (i : Fin 20) (dst src : ℤ × ℤ) : Prop :=
  (projSrc i src < proj i dst → proj i src ≤ proj i dst) ∧
  (proj i dst ≤ projSrc i src → proj i dst ≤ proj i src)

theorem proj_mergeCorner_iff (i : Fin 20) (dst src : ℤ × ℤ) :
    proj i (mergeCorner exactDirections i dst src) = min (proj i dst) (proj i src) ↔
      ComparesRight i dst src := by
  have hz : mergeCorner exactDirections i dst src =
      if projSrc i src < proj i dst then src else dst := rfl
  rw [hz, ComparesRight]
  split_ifs with h
  · have hn : ¬ proj i dst ≤ projSrc i src := not_le.mpr h
    simp [h, hn]
  · have hn : proj i dst ≤ projSrc i src := not_lt.mp h
    simp [h, hn]

theorem extreme_union_iff {i : Fin 20} {c d e : ℤ × ℤ} {S S' : Set (ℤ × ℤ)} (hc : Extreme i c S)
    (hd : Extreme i d S') : Extreme i e (S ∪ S') ↔ proj i e = min (proj i c) (proj i d) := by
  have h : IsLeast (proj i '' (S ∪ S')) (min (proj i c) (proj i d)) := by
    rw [Set.image_union]
    exact hc.union hd
  constructor
  · intro he
    exact he.unique h
  · intro he
    rwa [Extreme, he]

theorem extreme_mergeInto_iff {ρ : Type*} {mergeRest : LnkBlob ρ → LnkBlob ρ → ρ} (i : Fin 20)
    (a b : LnkBlob ρ) (S S' : Set (ℤ × ℤ)) (ha : Extreme i (a.corners i) S)
    (hb : Extreme i (b.corners i) S') :
    Extreme i ((mergeInto exactDirections mergeRest a b).corners i) (S ∪ S') ↔
      ComparesRight i (a.corners i) (b.corners i) :=
  (extreme_union_iff ha hb).trans (proj_mergeCorner_iff i _ _)

/-! ### The corners on the axes -/

theorem proj_zero (p : ℤ × ℤ) : proj 0 p = p.1 := by simp [proj, exactDirections]

theorem proj_five (p : ℤ × ℤ) : proj 5 p = p.2 := by
  have h : (5 : ℝ) * Real.pi / 10 = Real.pi / 2 := by ring
  simp [proj, exactDirections, h]

theorem proj_ten (p : ℤ × ℤ) : proj 10 p = -p.1 := by simp [proj, exactDirections]

theorem proj_fifteen (p : ℤ × ℤ) : proj 15 p = -p.2 := by
  have h : (15 : ℝ) * Real.pi / 10 = Real.pi / 2 + Real.pi := by ring
  simp [proj, exactDirections, h, Real.cos_add_pi, Real.sin_add_pi]

section Runs

variable {ρ σ : Type*} {mergeRest : LnkBlob ρ → LnkBlob ρ → ρ}

/-- The corners at 0, 90, 180 and 270 degrees lie on the sides of the rectangle. -/
structure CornersOnRect (b : LnkBlob ρ) : Prop where
  left : (b.corners 0).1 = b.rect.x
  top : (b.corners 5).2 = b.rect.y
  right : (b.corners 10).1 = b.rect.x + b.rect.w - 1
  bottom : (b.corners 15).2 = b.rect.y + b.rect.h - 1

theorem CornersOnRect.mergeInto {a b : LnkBlob ρ} {rs ss : List Rectangle} (hfar : Far 0 (rs ++ ss))
    (hra : a.rect.IsUnion rs) (hrb : b.rect.IsUnion ss) (ha : CornersOnRect a) (hb : CornersOnRect b)
    (h : ∀ i ∈ [0, 5, 10, 15], ComparesRight i (a.corners i) (b.corners i)) :
    CornersOnRect (mergeInto exactDirections mergeRest a b) := by
  obtain ⟨hx, hy, hr, hbt⟩ := IsUnion.sides (IsUnion.united hfar le_rfl hra hrb) hra hrb
  have h0 := (proj_mergeCorner_iff 0 _ _).mpr (h 0 (by simp))
  have h5 := (proj_mergeCorner_iff 5 _ _).mpr (h 5 (by simp))
  have h10 := (proj_mergeCorner_iff 10 _ _).mpr (h 10 (by simp))
  have h15 := (proj_mergeCorner_iff 15 _ _).mpr (h 15 (by simp))
  simp only [proj_zero, proj_five, proj_ten, proj_fifteen] at h0 h5 h10 h15
  norm_cast at h0 h5 h10 h15
  rw [ha.left, hb.left, ← hx] at h0
  rw [ha.top, hb.top, ← hy] at h5
  rw [min_neg_neg, neg_inj, ha.right, hb.right, max_sub_sub_right, ← hr] at h10
  rw [min_neg_neg, neg_inj, ha.bottom, hb.bottom, max_sub_sub_right, ← hbt] at h15
  exact ⟨h0, h5, h10, h15⟩

/-- The pixels of a group of blobs. -/
def groupPixels (g : List (LnkBlob ρ × Set (ℤ × ℤ))) : Set (ℤ × ℤ) := ⋃ q ∈ g, q.2

theorem groupPixels_append (g g' : List (LnkBlob ρ × Set (ℤ × ℤ))) :
    groupPixels (g ++ g') = groupPixels g ∪ groupPixels g' := by
  ext p
  simp [groupPixels, or_and_right, exists_or]

/-- Corner `i` is extreme in every blob at the start, and all the merging compares it rightly. -/
def CornerSafe (i : Fin 20) (bs : List (LnkBlob ρ × Set (ℤ × ℤ)))
    (log : List (LnkBlob ρ × LnkBlob ρ)) : Prop :=
  (∀ q ∈ bs, Extreme i (q.1.corners i) q.2) ∧
  ∀ p ∈ log, ComparesRight i (p.1.corners i) (p.2.corners i)

/-- The safe corners of the blob are extreme over the pixels of the group. -/
def ExtremeOver (bs : List (LnkBlob ρ × Set (ℤ × ℤ))) (log : List (LnkBlob ρ × LnkBlob ρ))
    (g : List (LnkBlob ρ × Set (ℤ × ℤ))) (b : LnkBlob ρ) : Prop :=
  ∀ i, CornerSafe i bs log → Extreme i (b.corners i) (groupPixels g)

variable {bs : List (LnkBlob ρ × Set (ℤ × ℤ))} {log : List (LnkBlob ρ × LnkBlob ρ)}
  {out : List (LnkBlob ρ)}

theorem grouped_extremeOver : Grouped (ExtremeOver bs log) bs (bs.map Prod.fst) := by
  refine grouped_map fun q hq i hi => ?_
  simpa [groupPixels] using hi.1 q hq

theorem ExtremeOver.mergeInto {g g' : List (LnkBlob ρ × Set (ℤ × ℤ))} {a b : LnkBlob ρ}
    (hab : (a, b) ∈ log) (ha : ExtremeOver bs log g a) (hb : ExtremeOver bs log g' b) :
    ExtremeOver bs log (g ++ g') (mergeInto exactDirections mergeRest a b) := by
  intro i hi
  rw [groupPixels_append]
  exact (extreme_mergeInto_iff i a b _ _ (ha i hi) (hb i hi)).mpr (hi.2 (a, b) hab)

theorem cornersOnRect_of_merges
    (m : Merges (mergeInto exactDirections mergeRest) (bs.map Prod.fst) log out)
    (hfar : Far 0 (bs.map fun q => q.1.rect)) (hon : ∀ q ∈ bs, CornersOnRect q.1)
    (hcmp : ∀ i ∈ [0, 5, 10, 15], ∀ p ∈ log, ComparesRight i (p.1.corners i) (p.2.corners i)) :
    ∀ b ∈ out, CornersOnRect b := by
  -- each rectangle is the union of those of its group, so the sides are the outermost ones
  have hstart : Grouped (fun (g : List (LnkBlob ρ × Set (ℤ × ℤ))) b =>
      g ⊆ bs ∧ b.rect.IsUnion (g.map fun q => q.1.rect) ∧ CornersOnRect b) bs (bs.map Prod.fst) :=
    grouped_map fun q hq => ⟨by simpa using hq, isUnion_singleton _, hon q hq⟩
  have hend := m.grouped hstart fun p hp g g' ⟨hg, hug, hcg⟩ ⟨hg', hug', hcg'⟩ => by
    have hsub : g ++ g' ⊆ bs := List.append_subset.mpr ⟨hg, hg'⟩
    have hfar' := hfar.subset (List.map_subset (fun q => q.1.rect) hsub)
    rw [List.map_append] at hfar' ⊢
    exact ⟨hsub, IsUnion.united hfar' le_rfl hug hug',
      hcg.mergeInto hfar' hug hug' hcg' fun i hi => hcmp i hi p hp⟩
  intro b hb
  obtain ⟨g, -, -, h⟩ := hend.exists_group b hb
  exact h

/-- A corner of two blobs that are merged stays extreme if and only if the comparison comes out right.
    In every run, a corner that is compared rightly each time is extreme over the pixels of the group
    its blob stands for, in what is left at the end and in every blob made on the way; and if the four
    corners on the axes are, they stay on the sides of the merged rectangles. -/
theorem mergeCorners_extreme_iff (mergeRest : LnkBlob ρ → LnkBlob ρ → ρ) :
    (∀ (i : Fin 20) (a b : LnkBlob ρ) (S S' : Set (ℤ × ℤ)),
      Extreme i (a.corners i) S → Extreme i (b.corners i) S' →
      (Extreme i ((mergeInto exactDirections mergeRest a b).corners i) (S ∪ S') ↔
        ComparesRight i (a.corners i) (b.corners i))) ∧
    ∀ (mergeCb : Option (σ → LnkBlob ρ → LnkBlob ρ → Bool × σ)) (margin : ℤ) (env : σ)
      (bs : List (LnkBlob ρ × Set (ℤ × ℤ))), ∃ s,
      (∀ fuel, bs.length < fuel →
        mergeBlobs exactDirections mergeRest mergeCb margin fuel env (bs.map Prod.fst) = some s) ∧
      (∃ groups : List (List (LnkBlob ρ × Set (ℤ × ℤ))), groups.flatten.Perm bs ∧
        List.Forall₂ (fun g b => ∀ i, CornerSafe i bs s.log → Extreme i (b.corners i) (groupPixels g))
          groups s.out) ∧
      (∀ p ∈ s.log, ∃ g : List (LnkBlob ρ × Set (ℤ × ℤ)), g.Subperm bs ∧
        ∀ i, CornerSafe i bs s.log →
          Extreme i ((mergeInto exactDirections mergeRest p.1 p.2).corners i) (groupPixels g)) ∧
      (Far 0 (bs.map fun q => q.1.rect) → (∀ q ∈ bs, CornersOnRect q.1) →
        (∀ i ∈ [0, 5, 10, 15], ∀ p ∈ s.log, ComparesRight i (p.1.corners i) (p.2.corners i)) →
        ∀ b ∈ s.out, CornersOnRect b) := by
  refine ⟨extreme_mergeInto_iff, fun mergeCb margin env bs => ?_⟩
  obtain ⟨s, hs, hm, -⟩ :=
    mergeBlobs_terminates exactDirections mergeRest mergeCb margin env (bs.map Prod.fst)
  rw [List.length_map] at hs
  have hjoin : ∀ p ∈ s.log, ∀ g g', ExtremeOver bs s.log g p.1 → ExtremeOver bs s.log g' p.2 →
      ExtremeOver bs s.log (g ++ g') (mergeInto exactDirections mergeRest p.1 p.2) :=
    fun p hp g g' ha hb => ha.mergeInto hp hb
  exact ⟨s, hs, hm.grouped grouped_extremeOver hjoin, hm.grouped_log grouped_extremeOver hjoin,
    cornersOnRect_of_merges hm⟩

/-- Two pixels that touch at a corner: the upper edge of the blob goes down to the lower pixel. -/
theorem mergeCorners_not_extreme :
    let a : LnkBlob Unit := ⟨fun _ => (5, 3), ⟨5, 3, 1, 1⟩, 1, 4, 1, 1, ()⟩
    let b : LnkBlob Unit := ⟨fun _ => (6, 4), ⟨6, 4, 1, 1⟩, 1, 4, 1, 1, ()⟩
    let m := mergeInto exactDirections (fun _ _ => ()) a b
    mergeBlobs exactDirections (fun _ _ => ()) none 1 3 () [a, b] =
      some ⟨[m], (), false, [(a, b)]⟩ ∧
    (∀ i, Extreme i (a.corners i) {(5, 3)}) ∧ (∀ i, Extreme i (b.corners i) {(6, 4)}) ∧
    CornersOnRect a ∧ CornersOnRect b ∧
    ¬ Extreme 5 (m.corners 5) ({(5, 3)} ∪ {(6, 4)}) ∧ (m.corners 5).2 ≠ m.rect.y := by
  intro a b m
  have ha : ∀ i, Extreme i (a.corners i) {(5, 3)} := by simp [Extreme, a]
  have hb : ∀ i, Extreme i (b.corners i) {(6, 4)} := by simp [Extreme, b]
  have hcos : exactDirections.cos 5 = 0 := by
    have h : (5 : ℝ) * Real.pi / 10 = Real.pi / 2 := by ring
    simp [exactDirections, h]
  have hcorner : m.corners 5 = (6, 4) := by
    have h : projSrc 5 (b.corners 5) < proj 5 (a.corners 5) := by
      rw [proj_five]
      simp [projSrc, hcos, a]
    exact if_pos h
  refine ⟨rfl, ha, hb, by constructor <;> rfl, by constructor <;> rfl, ?_, ?_⟩
  · rw [extreme_union_iff (ha 5) (hb 5), hcorner, proj_five, proj_five]
    norm_num [a, b]
  · rw [hcorner]
    decide

end Runs

end

end OpenMV.Vision
