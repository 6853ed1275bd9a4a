import OpenMV.Schemes.MergeLoop
import OpenMV.Vision.FindBlobs
import Mathlib.Data.BitVec
import Mathlib.Order.Bounds.Basic

/-! Merging of blobs | scheme:fixpoint | source:src/src/openmv/omv/img/blob.c

    The last part of `imlib_find_blobs`: blobs whose rectangles overlap, one of them grown by a margin,
    are made one, until no such pair is left. The corners are compared along the directions of two
    tables, which are parameters here; the `float` results and the histograms are one field `rest` with
    an unspecified merging. -/

namespace OpenMV.Vision
open Schemes.MergeLoop

/-! ### Rectangles -/

def rectangleOverlap (r s : Rectangle) : Bool :=
  r.x < s.x + s.w && r.y < s.y + s.h && s.x < r.x + r.w && s.y < r.y + r.h

def rectangleUnited (dst src : Rectangle) : Rectangle :=
  let leftX := min dst.x src.x
  let topY := min dst.y src.y
  let rightX := max (dst.x + dst.w) (src.x + src.w)
  let bottomY := max (dst.y + dst.h) (src.y + src.h)
  ⟨int16 leftX, int16 topY, int16 (rightX - leftX), int16 (bottomY - topY)⟩

/-- The rectangle `temp` of the merging loop. -/
def marginRect (margin : ℤ) (r : Rectangle) : Rectangle where
  x := max (min (int32 (r.x - margin)) 32767) (-32768)
  y := max (min (int32 (r.y - margin)) 32767) (-32768)
  w := max (min (int32 (r.w + int32 (margin * 2))) 32767) 0
  h := max (min (int32 (r.h + int32 (margin * 2))) 32767) 0

/-- The rectangle grown by the margin on all sides. -/
def Rectangle.grown (margin : ℤ) (r : Rectangle) : Rectangle :=
  ⟨r.x - margin, r.y - margin, r.w + margin * 2, r.h + margin * 2⟩

/-! ### Blobs -/

/-- The directions in which the corners of a blob are looked for. -/
structure Directions (K : Type*) where
  cos : Fin 20 → K
  sin : Fin 20 → K

/-- A `find_blobs_list_lnk_data_t`. -/
structure LnkBlob (ρ : Type*) where
  corners : Fin 20 → ℤ × ℤ
  rect : Rectangle
  pixels : BitVec 32
  perimeter : BitVec 32
  code : BitVec 32
  count : BitVec 32
  rest : ρ

section Loop

variable {K ρ σ : Type*} [CommRing K] [LinearOrder K] (T : Directions K)
  (mergeRest : LnkBlob ρ → LnkBlob ρ → ρ)

/-- Corner `i` after the merging. In `z_src` both coordinates are multiplied by the cosine. -/
def mergeCorner (i : Fin 20) (dst src : ℤ × ℤ) : ℤ × ℤ :=
  let zDst := (dst.1 : K) * T.cos i + (dst.2 : K) * T.sin i
  let zSrc := (src.1 : K) * T.cos i + (src.2 : K) * T.cos i
  if zSrc < zDst then src else dst

/-- The blob `b` is merged into `a`. -/
def mergeInto (a b : LnkBlob ρ) : LnkBlob ρ where
  corners := fun i => mergeCorner T i (a.corners i) (b.corners i)
  rect := rectangleUnited a.rect b.rect
  pixels := a.pixels + b.pixels
  perimeter := a.perimeter + b.perimeter
  code := a.code ||| b.code
  count := a.count + b.count
  rest := mergeRest a b

variable (mergeCb : Option (σ → LnkBlob ρ → LnkBlob ρ → Bool × σ)) (margin : ℤ)

/-- The callback is asked only for overlapping pairs, and only if there is one. -/
def blobMerger : Merger σ (LnkBlob ρ) where
  test := fun env a b =>
    if rectangleOverlap a.rect (marginRect margin b.rect) then
      match mergeCb with
      | none => (true, env)
      | some cb => cb env a b
    else (false, env)
  join := mergeInto T mergeRest

/-- The merging loop of `imlib_find_blobs`, with at most `fuel` passes. -/
def mergeBlobs (fuel : ℕ) (env : σ) (out : List (LnkBlob ρ)) : Option (State σ (LnkBlob ρ)) :=
  (blobMerger T mergeRest mergeCb margin).loop fuel ⟨out, env, false, []⟩

theorem mergeBlobs_terminates (env : σ) (bs : List (LnkBlob ρ)) : ∃ s,
    (∀ fuel, bs.length < fuel → mergeBlobs T mergeRest mergeCb margin fuel env bs = some s) ∧
    Merges (mergeInto T mergeRest) bs s.log s.out ∧
    s.out.Pairwise (Apart (blobMerger T mergeRest mergeCb margin)) := by
  obtain ⟨s, new, hs, hm, hlog⟩ := loop_terminates (M := blobMerger T mergeRest mergeCb margin)
    (bs.length + 1) ⟨bs, env, false, []⟩ (Nat.lt_succ_self _)
  refine ⟨s, fun fuel hfuel => loop_mono hs hfuel, ?_, loop_pairwise hs⟩
  rw [hlog]
  exact hm

/-! ### Totals -/

/-- The total of a counter over the list is kept as a 32-bit value, and exactly if it fits. -/
def TotalKept (f : LnkBlob ρ → BitVec 32) (bs out : List (LnkBlob ρ)) : Prop :=
  (out.map f).sum = (bs.map f).sum ∧
  ((bs.map fun b => (f b).toNat).sum < 2 ^ 32 →
    (out.map fun b => (f b).toNat).sum = (bs.map fun b => (f b).toNat).sum)

theorem toNat_sum {α : Type*} (f : α → BitVec 32) : ∀ l : List α,
    (l.map f).sum.toNat = (l.map fun b => (f b).toNat).sum % 2 ^ 32
  | [] => rfl
  | a :: l => by
      simp only [List.map_cons, List.sum_cons, BitVec.toNat_add, toNat_sum f l, Nat.add_mod_mod]

variable {T mergeRest}

theorem totalKept_of_merges {bs out : List (LnkBlob ρ)} {log : List (LnkBlob ρ × LnkBlob ρ)}
    (m : Merges (mergeInto T mergeRest) bs log out) (f : LnkBlob ρ → BitVec 32)
    (hf : ∀ a b, f (mergeInto T mergeRest a b) = f a + f b) : TotalKept f bs out := by
  have hsum : (out.map f).sum = (bs.map f).sum := m.foldr_eq 0 f hf
  refine ⟨hsum, fun hlt => ?_⟩
  have hmod := congrArg BitVec.toNat hsum
  rw [toNat_sum, toNat_sum, Nat.mod_eq_of_lt hlt] at hmod
  -- merging never makes the exact total larger
  have hle := m.sum_le (fun b => (f b).toNat) fun a b => by
    rw [hf, BitVec.toNat_add]
    exact Nat.mod_le _ _
  rw [← hmod, Nat.mod_eq_of_lt (lt_of_le_of_lt hle hlt)]

/-- The counters and the code of all blobs taken together. -/
structure TotalsKept (bs out : List (LnkBlob ρ)) : Prop where
  pixels : TotalKept LnkBlob.pixels bs out
  perimeter : TotalKept LnkBlob.perimeter bs out
  count : TotalKept LnkBlob.count bs out
  code : (out.map LnkBlob.code).foldr (· ||| ·) 0 = (bs.map LnkBlob.code).foldr (· ||| ·) 0

theorem totalsKept_of_merges {bs out : List (LnkBlob ρ)} {log : List (LnkBlob ρ × LnkBlob ρ)}
    (m : Merges (mergeInto T mergeRest) bs log out) : TotalsKept bs out where
  pixels := totalKept_of_merges m _ fun _ _ => rfl
  perimeter := totalKept_of_merges m _ fun _ _ => rfl
  count := totalKept_of_merges m _ fun _ _ => rfl
  code := m.foldr_eq 0 LnkBlob.code fun _ _ => rfl

end Loop

/-! ### Rectangles of groups -/

/-- The rectangle is the union of the others: each of its sides is the outermost of theirs. -/
structure Rectangle.IsUnion (r : Rectangle) (rs : List Rectangle) : Prop where
  left : IsLeast (Rectangle.x '' {q | q ∈ rs}) r.x
  top : IsLeast (Rectangle.y '' {q | q ∈ rs}) r.y
  right : IsGreatest ((fun q => q.x + q.w) '' {q | q ∈ rs}) (r.x + r.w)
  bottom : IsGreatest ((fun q => q.y + q.h) '' {q | q ∈ rs}) (r.y + r.h)

/-- Two spans of one axis are so far from the limits of `int16_t` that all they take in, grown by the
    margin, can be written down. -/
def AxisFar (margin x x' w' : ℤ) : Prop :=
  -32768 ≤ x - margin ∧ x ≤ 32767 ∧ -32768 ≤ w' ∧ 0 ≤ w' + margin * 2 ∧
    (x' + w' + margin) - (x - margin) ≤ 32767

def Far (margin : ℤ) (rs : List Rectangle) : Prop :=
  ∀ r ∈ rs, ∀ s ∈ rs, AxisFar margin r.x s.x s.w ∧ AxisFar margin r.y s.y s.h

/-- What the outermost sides of a group say about the span between them. -/
structure SpanFits (margin x w : ℤ) : Prop where
  left : -32768 ≤ x - margin
  left_le : x ≤ 32767
  size : -32768 ≤ w
  grown : 0 ≤ w + margin * 2
  grown_le : w + margin * 2 ≤ 32767

theorem spanFits_of_axisFar {α : Type*} {margin x w : ℤ} {S : Set α} {lo size : α → ℤ}
    (hfar : ∀ r ∈ S, ∀ s ∈ S, AxisFar margin (lo r) (lo s) (size s))
    (hlo : IsLeast (lo '' S) x) (hhi : IsGreatest ((fun q => lo q + size q) '' S) (x + w)) :
    SpanFits margin x w := by
  obtain ⟨r, hr, hrx⟩ := hlo.1
  obtain ⟨s, hs, hsw⟩ := hhi.1
  obtain ⟨h1, h2, h3, h4, h5⟩ := hfar r hr s hs
  have hx : x ≤ lo s := hlo.2 ⟨s, hs, rfl⟩
  simp only at hsw
  constructor <;> omega

theorem spanFits_union {α : Type*} {margin x w x' w' : ℤ} {S T : Set α} {lo size : α → ℤ}
    (hfar : ∀ r ∈ S ∪ T, ∀ s ∈ S ∪ T, AxisFar margin (lo r) (lo s) (size s))
    (hlo : IsLeast (lo '' S) x) (hhi : IsGreatest ((fun q => lo q + size q) '' S) (x + w))
    (hlo' : IsLeast (lo '' T) x') (hhi' : IsGreatest ((fun q => lo q + size q) '' T) (x' + w'))
    (hm : 0 ≤ margin) :
    IsLeast (lo '' (S ∪ T)) (int16 (min x x')) ∧
    IsGreatest ((fun q => lo q + size q) '' (S ∪ T))
      (int16 (min x x') + int16 (max (x + w) (x' + w') - min x x')) := by
  have h1 := hlo.union hlo'
  have h2 := hhi.union hhi'
  rw [← Set.image_union] at h1 h2
  have hfit := spanFits_of_axisFar (w := max (x + w) (x' + w') - min x x') hfar h1
    (by rwa [add_sub_cancel])
  obtain ⟨_, _, _, _, _⟩ := hfit
  rw [int16_of_mem (by omega) (by omega), int16_of_mem (by omega) (by omega), add_sub_cancel]
  exact ⟨h1, h2⟩

theorem IsUnion.united {margin : ℤ} {r s : Rectangle} {rs ss : List Rectangle}
    (hfar : Far margin (rs ++ ss)) (hm : 0 ≤ margin) (hr : r.IsUnion rs) (hs : s.IsUnion ss) :
    (rectangleUnited r s).IsUnion (rs ++ ss) := by
  have hset : {q | q ∈ rs ++ ss} = {q | q ∈ rs} ∪ {q | q ∈ ss} := by ext q; simp
  unfold Far at hfar
  simp only [List.mem_append] at hfar
  obtain ⟨hx, hx'⟩ := spanFits_union (fun r hr s hs => (hfar r hr s hs).1) hr.left hr.right
    hs.left hs.right hm
  obtain ⟨hy, hy'⟩ := spanFits_union (fun r hr s hs => (hfar r hr s hs).2) hr.top hr.bottom
    hs.top hs.bottom hm
  constructor <;> rw [hset] <;> assumption

theorem IsUnion.sides {r s u : Rectangle} {rs ss : List Rectangle} (hu : u.IsUnion (rs ++ ss))
    (hr : r.IsUnion rs) (hs : s.IsUnion ss) : u.x = min r.x s.x ∧ u.y = min r.y s.y ∧
    u.x + u.w = max (r.x + r.w) (s.x + s.w) ∧ u.y + u.h = max (r.y + r.h) (s.y + s.h) := by
  have hset : {q | q ∈ rs ++ ss} = {q | q ∈ rs} ∪ {q | q ∈ ss} := by ext q; simp
  obtain ⟨hx, hy, hx', hy'⟩ := hu
  rw [hset, Set.image_union] at hx hy hx' hy'
  exact ⟨hx.unique (hr.left.union hs.left), hy.unique (hr.top.union hs.top),
    hx'.unique (hr.right.union hs.right), hy'.unique (hr.bottom.union hs.bottom)⟩

theorem isUnion_singleton (r : Rectangle) : r.IsUnion [r] := by
  constructor <;> simp

/-- Far from the limits the clamps do not act. -/
theorem marginRect_eq_grown {margin : ℤ} {r : Rectangle} (hx : SpanFits margin r.x r.w)
    (hy : SpanFits margin r.y r.h) (hm : 0 ≤ margin) : marginRect margin r = r.grown margin := by
  obtain ⟨_, _, _, _, _⟩ := hx
  obtain ⟨_, _, _, _, _⟩ := hy
  unfold marginRect Rectangle.grown int32
  congr 1 <;> omega

theorem IsUnion.marginRect_eq {margin : ℤ} {r : Rectangle} {rs : List Rectangle}
    (hfar : Far margin rs) (hm : 0 ≤ margin) (hr : r.IsUnion rs) :
    marginRect margin r = r.grown margin :=
  marginRect_eq_grown (spanFits_of_axisFar (fun q hq s hs => (hfar q hq s hs).1) hr.left hr.right)
    (spanFits_of_axisFar (fun q hq s hs => (hfar q hq s hs).2) hr.top hr.bottom) hm

/-! ### The whole loop -/

section Result

variable {K ρ σ : Type*} [CommRing K] [LinearOrder K] {T : Directions K}
  {mergeRest : LnkBlob ρ → LnkBlob ρ → ρ} {margin : ℤ}

/-- The blob stands for the group `g` of the blobs `bs`. -/
def StandsFor (bs g : List (LnkBlob ρ)) (b : LnkBlob ρ) : Prop :=
  g ⊆ bs ∧ b.rect.IsUnion (g.map LnkBlob.rect)

theorem Far.subset {rs ss : List Rectangle} (h : Far margin rs) (hs : ss ⊆ rs) : Far margin ss :=
  fun r hr s hs' => h r (hs hr) s (hs hs')

theorem StandsFor.mergeInto {bs g g' : List (LnkBlob ρ)} {a b : LnkBlob ρ} (hm : 0 ≤ margin)
    (hfar : Far margin (bs.map LnkBlob.rect)) (ha : StandsFor bs g a) (hb : StandsFor bs g' b) :
    StandsFor bs (g ++ g') (mergeInto T mergeRest a b) := by
  have hsub : g ++ g' ⊆ bs := List.append_subset.mpr ⟨ha.1, hb.1⟩
  refine ⟨hsub, ?_⟩
  have hfar' := hfar.subset (List.map_subset LnkBlob.rect hsub)
  rw [List.map_append] at hfar' ⊢
  exact IsUnion.united hfar' hm ha.2 hb.2

theorem grouped_of_merges {bs out : List (LnkBlob ρ)} {log : List (LnkBlob ρ × LnkBlob ρ)}
    (m : Merges (mergeInto T mergeRest) bs log out) (hm : 0 ≤ margin)
    (hfar : Far margin (bs.map LnkBlob.rect)) : Grouped (StandsFor bs) bs out := by
  have hstart : Grouped (StandsFor bs) bs bs := by
    have h : Grouped (StandsFor bs) bs (bs.map id) :=
      grouped_map fun b hb => ⟨by simpa using hb, isUnion_singleton b.rect⟩
    rwa [List.map_id] at h
  exact m.grouped hstart fun _ _ _ _ ha hb => ha.mergeInto hm hfar hb

theorem rectangleOverlap_of_apart {a b : LnkBlob ρ}
    (h : Apart (blobMerger T mergeRest (none : Option (σ → _ → _ → Bool × σ)) margin) a b) :
    rectangleOverlap a.rect (marginRect margin b.rect) = false := by
  obtain ⟨env, h⟩ := h
  by_contra hc
  rw [Bool.not_eq_false] at hc
  simp [blobMerger, hc] at h

/-- The merging loop terminates and conserves the totals, whatever the callback answers. Without a
    callback, and with all rectangles far enough from the limits of their type, what is left are the
    unions of a partition of the blobs, and none of them overlaps a later one grown by the margin. -/
theorem mergeBlobs_conserves_separates (T : Directions K) (mergeRest : LnkBlob ρ → LnkBlob ρ → ρ)
    (mergeCb : Option (σ → LnkBlob ρ → LnkBlob ρ → Bool × σ)) (margin : ℤ) (env : σ)
    (bs : List (LnkBlob ρ)) : ∃ s,
    (∀ fuel, bs.length < fuel → mergeBlobs T mergeRest mergeCb margin fuel env bs = some s) ∧
    TotalsKept bs s.out ∧
    (mergeCb = none → 0 ≤ margin → Far margin (bs.map LnkBlob.rect) →
      (∃ groups : List (List (LnkBlob ρ)), groups.flatten.Perm bs ∧
        List.Forall₂ (fun g b => b.rect.IsUnion (g.map LnkBlob.rect)) groups s.out) ∧
      s.out.Pairwise fun a b => rectangleOverlap a.rect (b.rect.grown margin) = false) := by
  obtain ⟨s, hs, hm, hapart⟩ := mergeBlobs_terminates T mergeRest mergeCb margin env bs
  refine ⟨s, hs, totalsKept_of_merges hm, ?_⟩
  rintro rfl hmargin hfar
  have hgrouped := grouped_of_merges hm hmargin hfar
  refine ⟨hgrouped.imp fun _ _ h => h.2, ?_⟩
  refine hapart.imp_of_mem fun {a b} _ hb hab => ?_
  obtain ⟨g, hsub, hunion⟩ := hgrouped.exists_group b hb
  have hfar' := hfar.subset (List.map_subset LnkBlob.rect hsub)
  rw [← IsUnion.marginRect_eq hfar' hmargin hunion]
  exact rectangleOverlap_of_apart hab

/-- The outer blobs of a row are too far from each other, but the middle one joins them. -/
theorem mergeBlobs_row :
    let blob := fun x : ℤ => (⟨fun _ => (x, 0), ⟨x, 0, 4, 4⟩, 16, 12, 1, 1, ()⟩ : LnkBlob Unit)
    let T : Directions ℤ := ⟨fun _ => 1, fun _ => 0⟩
    let bs := [blob 0, blob 10, blob 5]
    (∃ s, (∀ fuel, 3 < fuel → mergeBlobs T (fun _ _ => ()) none 2 fuel () bs = some s) ∧
      TotalsKept bs s.out ∧
      s.out.Pairwise fun a b => rectangleOverlap a.rect (b.rect.grown 2) = false) ∧
    (mergeBlobs T (fun _ _ => ()) none 2 4 () bs).map (fun s => s.out.map LnkBlob.rect) =
      some [⟨0, 0, 14, 4⟩] := by
  intro blob T bs
  obtain ⟨s, hs, htotals, hrest⟩ :=
    mergeBlobs_conserves_separates T (fun _ _ => ()) (none : Option (Unit → _ → _ → _)) 2 () bs
  have hfar : Far 2 (bs.map LnkBlob.rect) := by
    unfold Far AxisFar
    decide
  exact ⟨⟨s, hs, htotals, (hrest rfl (by decide) hfar).2⟩, by decide⟩

end Result

end OpenMV.Vision
