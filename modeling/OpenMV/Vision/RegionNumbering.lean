import OpenMV.Schemes.Numbering
import OpenMV.Vision.Segmentation

/-! Numbering the segments | scheme:first-come table | source:src/src/openmv/omv/img/selective_search.c

    The pixels are gone through once more. The root of a pixel is looked up among those that have come before, and its
    number is written over the rank. The same loop collects the bounding box, the size and the histogram of each
    segment in arrays with one entry for each. -/

namespace OpenMV.Vision
open Schemes

/-! ### The code -/

structure Region where
  y : ℕ
  h : ℕ
  x : ℕ
  w : ℕ
deriving DecidableEq, Repr

/-- `regions`, `counts` and `histogram`, whose values are counts. -/
structure RegionArrays where
  regions : ℕ → Region
  counts : ℕ → ℕ
  histogram : ℕ → ℕ

/-- The arrays before the loop. -/
def emptyRegions (width height : ℕ) : RegionArrays where
  regions _ := { y := height % 65536, h := 0, x := width % 65536, w := 0 }
  counts _ := 0
  histogram _ := 0

/-- `histogram[i]++`, if there is such an entry. -/
def bumpHistogram (numCcs : ℤ) (histogram : ℕ → ℕ) (i : ℕ) : Option (ℕ → ℕ) :=
  if (i : ℤ) < numCcs * 75 then some (Function.update histogram i (histogram i + 1)) else none

def colorBin (c : ℕ) : ℕ := min c 240 / 10

def Region.addPixel (r : Region) (x y : ℕ) : Region where
  y := min r.y y % 65536
  h := max r.h y % 65536
  x := min r.x x % 65536
  w := max r.w x % 65536

/-- The part of the loop behind `universe_set_id`. -/
def countPixel (numCcs : ℤ) (img : Image) (q : ℕ × ℕ) (componentId : ℕ) (s : RegionArrays) : Option RegionArrays :=
  if (componentId : ℤ) < numCcs then do
    let p := rgb565Pixel img q.1 q.2
    let histogram ← bumpHistogram numCcs s.histogram (75 * componentId + 0 + colorBin (Io.colorRgb565ToR8 p))
    let histogram ← bumpHistogram numCcs histogram (75 * componentId + 25 + colorBin (Io.colorRgb565ToG8 p))
    let histogram ← bumpHistogram numCcs histogram (75 * componentId + 50 + colorBin (Io.colorRgb565ToB8 p))
    some
      { regions := Function.update s.regions componentId ((s.regions componentId).addPixel q.1 q.2)
        counts := Function.update s.counts componentId (s.counts componentId + 1)
        histogram := histogram }
  else none

/-- `components` with `next_component`, the universe and the arrays. -/
structure Numbering where
  u : Universe
  components : KeyTable ℕ
  arrays : RegionArrays

/-- A round of the loop. -/
def numberPixel (numCcs : ℤ) (img : Image) (width : ℕ) (s : Numbering) (q : ℕ × ℕ) : Option Numbering := do
  let (comp, u) ← universeFind s.u (q.2 * width + q.1)
  let (componentId, components) ← KeyTable.number numCcs s.components comp
  let u := universeSetId u (q.2 * width + q.1) componentId
  let arrays ← countPixel numCcs img q componentId s.arrays
  some ⟨u, components, arrays⟩

/-- The loop, with what the memory of `components` holds before. -/
def numberSegments (img : Image) (width height : ℕ) (u : Universe) (mem : ℕ → ℕ) : Option Numbering :=
  (scanPixels width height).foldlM (numberPixel u.num img width) ⟨u, ⟨0, mem⟩, emptyRegions width height⟩

/-! ### What the segments should be -/

/-- Each search ends at the label, and the labels give a partition as it should be. -/
structure Segmented (width height : ℕ) (minSize : ℤ) (u : Universe) (rep : ℕ → ℕ) : Prop where
  find : ∀ v < width * height, (universeFind u v).map Prod.fst = some (rep v)
  root : ∀ v < width * height, rep v < width * height ∧ u.p (rep v) = rep v
  size : ∀ v < width * height, u.size (rep v) = classCard (Finset.range (width * height)) rep (rep v)
  num : u.num = ((Finset.range (width * height)).image rep).card
  connected : Connected (Finset.range (width * height)) (Neighbours8 width) rep
  large : ∀ v < width * height, minSize ≤ classCard (Finset.range (width * height)) rep (rep v) ∨
    ∀ w < width * height, rep w = rep v

/-- Each segment has one of the numbers below `num`. -/
structure Numbered (width height : ℕ) (num : ℤ) (rep : ℕ → ℕ) (u : Universe) : Prop where
  lt : ∀ v < width * height, (universeGetId u v : ℤ) < num
  eq_iff : ∀ v < width * height, ∀ w < width * height, universeGetId u v = universeGetId u w ↔ rep v = rep w
  used : ∀ i : ℕ, (i : ℤ) < num → ∃ v < width * height, universeGetId u v = i

/-! ### The loop -/

section Arrays
variable {numCcs : ℤ} {i : ℕ}

theorem colorBin_le (c : ℕ) : colorBin c ≤ 24 := by
  unfold colorBin
  omega

/-- The entries of a segment with a number are in the histogram. -/
theorem bumpHistogram_spec (hi : (i : ℤ) < numCcs) (histogram : ℕ → ℕ) {k : ℕ} (hk : k ≤ 50) (c : ℕ) :
    ∃ histogram', bumpHistogram numCcs histogram (75 * i + k + colorBin c) = some histogram' := by
  have hbin := colorBin_le c
  exact ⟨_, if_pos (by push_cast; omega)⟩

theorem countPixel_spec (hi : (i : ℤ) < numCcs) (img : Image) (q : ℕ × ℕ) (s : RegionArrays) :
    ∃ s', countPixel numCcs img q i s = some s' ∧
      s'.regions = Function.update s.regions i ((s.regions i).addPixel q.1 q.2) ∧
      s'.counts = Function.update s.counts i (s.counts i + 1) := by
  obtain ⟨h1, hr⟩ :=
    bumpHistogram_spec hi s.histogram (by omega : 0 ≤ 50) (Io.colorRgb565ToR8 (rgb565Pixel img q.1 q.2))
  obtain ⟨h2, hg⟩ := bumpHistogram_spec hi h1 (by omega : 25 ≤ 50) (Io.colorRgb565ToG8 (rgb565Pixel img q.1 q.2))
  obtain ⟨h3, hb⟩ := bumpHistogram_spec hi h2 (by omega : 50 ≤ 50) (Io.colorRgb565ToB8 (rgb565Pixel img q.1 q.2))
  refine ⟨⟨Function.update s.regions i ((s.regions i).addPixel q.1 q.2),
    Function.update s.counts i (s.counts i + 1), h3⟩, ?_, rfl, rfl⟩
  simp only [countPixel, if_pos hi, hr, hg, hb, Option.bind_eq_bind, Option.bind_some]

end Arrays

section Loop
variable {width height : ℕ} {rep : ℕ → ℕ}

/-- The labels of the pixels gone through. -/
def seenLabels (width : ℕ) (rep : ℕ → ℕ) (done : List (ℕ × ℕ)) : Finset ℕ :=
  (done.map fun q => rep (q.2 * width + q.1)).toFinset

theorem seenLabels_append (q : ℕ × ℕ) (done : List (ℕ × ℕ)) :
    seenLabels width rep (done ++ [q]) = insert (rep (q.2 * width + q.1)) (seenLabels width rep done) := by
  rw [seenLabels, seenLabels, List.map_append, List.toFinset_append, Finset.union_comm]
  rfl

theorem seenLabels_subset {done : List (ℕ × ℕ)} (h : ∀ q ∈ done, q ∈ scanPixels width height) :
    seenLabels width rep done ⊆ (Finset.range (width * height)).image rep := by
  intro c hc
  obtain ⟨q, hq, rfl⟩ := List.mem_map.mp (List.mem_toFinset.mp hc)
  obtain ⟨hx, hy⟩ := mem_scanPixels.mp (h q hq)
  exact Finset.mem_image.mpr ⟨_, Finset.mem_range.mpr (pixel_lt hx hy), rfl⟩

/-- The whole picture has all labels. -/
theorem seenLabels_scanPixels :
    seenLabels width rep (scanPixels width height) = (Finset.range (width * height)).image rep := by
  refine Finset.Subset.antisymm (seenLabels_subset fun _ h => h) fun c hc => ?_
  obtain ⟨v, hv, rfl⟩ := Finset.mem_image.mp hc
  obtain ⟨hx, hy, heq⟩ := pixel_of_lt (Finset.mem_range.mp hv)
  refine List.mem_toFinset.mpr (List.mem_map.mpr ⟨(v % width, v / width), mem_scanPixels.mpr ⟨hx, hy⟩, ?_⟩)
  simp only [heq]

/-- The pixels gone through lead over their numbers to their labels. -/
structure PixelsNumbered (width height : ℕ) (rep : ℕ → ℕ) (done : List (ℕ × ℕ)) (s : Numbering) : Prop where
  stands : Stands (width * height) (Neighbours8 width) s.u rep
  table : s.components.Numbers (seenLabels width rep done)
  lt : ∀ q ∈ done, s.u.rank (q.2 * width + q.1) < s.components.next
  key : ∀ q ∈ done, s.components.keys (s.u.rank (q.2 * width + q.1)) = rep (q.2 * width + q.1)

/-- A number may be written over the rank. -/
theorem Stands.setId {n : ℕ} {adj : ℕ → ℕ → Prop} {u : Universe} (h : Stands n adj u rep) (x id : ℕ) :
    Stands n adj (universeSetId u x id) rep :=
  ⟨h.forest, h.num, h.connected⟩

theorem numberPixel_spec (hn : width * height ≤ 65535) {numCcs : ℤ}
    (hnum : numCcs = ((Finset.range (width * height)).image rep).card) (img : Image) {done : List (ℕ × ℕ)}
    {s : Numbering} (h : PixelsNumbered width height rep done s) {q : ℕ × ℕ}
    (hdone : ∀ p ∈ done ++ [q], p ∈ scanPixels width height) :
    ∃ s', numberPixel numCcs img width s q = some s' ∧ PixelsNumbered width height rep (done ++ [q]) s' := by
  obtain ⟨hx, hy⟩ := mem_scanPixels.mp (hdone q (by simp))
  have hv := pixel_lt hx hy
  obtain ⟨u, hfind, hu, -, hrank⟩ := universeFind_spec hn h.stands hv
  have hsub : (seenLabels width rep (done ++ [q])).card ≤ ((Finset.range (width * height)).image rep).card :=
    Finset.card_le_card (seenLabels_subset hdone)
  rw [seenLabels_append] at hsub
  have hroom : ((insert (rep (q.2 * width + q.1)) (seenLabels width rep done)).card : ℤ) ≤ numCcs := by
    rw [hnum]
    exact_mod_cast hsub
  obtain ⟨i, t, hnumber, ht, hi, hkey, hnext, hold⟩ := KeyTable.number_spec h.table hroom
  have hlt : t.next ≤ ((Finset.range (width * height)).image rep).card := by
    rw [← ht.card_eq]
    exact hsub
  have himage : ((Finset.range (width * height)).image rep).card ≤ width * height := by
    have hle := Finset.card_image_le (s := Finset.range (width * height)) (f := rep)
    rwa [Finset.card_range] at hle
  obtain ⟨arrays, harrays, -, -⟩ := countPixel_spec (by omega : (i : ℤ) < numCcs) img q s.arrays
  refine ⟨⟨universeSetId u (q.2 * width + q.1) i, t, arrays⟩, ?_, hu.setId _ _, ?_, ?_, ?_⟩
  · simp only [numberPixel, hfind, Option.bind_eq_bind, Option.bind_some, hnumber, harrays]
  · rwa [seenLabels_append]
  all_goals
    have hmod : i % 65536 = i := Nat.mod_eq_of_lt (by omega)
    intro p hp
    simp only [universeSetId, hmod, hrank, Function.update_apply]
    split_ifs with hpq
  · exact hi
  · obtain hp | hp := List.mem_append.mp hp
    · exact (h.lt p hp).trans_le hnext
    · exact absurd (by rw [List.mem_singleton.mp hp]) hpq
  · rw [hpq]
    exact hkey
  · obtain hp | hp := List.mem_append.mp hp
    · rw [hold _ (h.lt p hp)]
      exact h.key p hp
    · exact absurd (by rw [List.mem_singleton.mp hp]) hpq

/-- The loop goes through, and at its end every pixel has its number. -/
theorem numberSegments_run (hn : width * height ≤ 65535) {u : Universe}
    (h : Stands (width * height) (Neighbours8 width) u rep) (img : Image) (mem : ℕ → ℕ) :
    ∃ s, numberSegments img width height u mem = some s ∧
      PixelsNumbered width height rep (scanPixels width height) s := by
  have hstart : PixelsNumbered width height rep [] ⟨u, ⟨0, mem⟩, emptyRegions width height⟩ :=
    ⟨h, ⟨rfl, by simp⟩, by simp, by simp⟩
  refine exists_foldlM_split (PixelsNumbered width height rep) hstart _ fun done q rest hsplit s _ hs => ?_
  refine numberPixel_spec hn h.num img hs fun p hp => ?_
  rw [hsplit]
  rw [List.append_cons]
  exact List.mem_append_left _ hp

theorem PixelsNumbered.numbered {s : Numbering} (h : PixelsNumbered width height rep (scanPixels width height) s) :
    Numbered width height (((Finset.range (width * height)).image rep).card : ℕ) rep s.u := by
  have htable := h.table
  rw [seenLabels_scanPixels] at htable
  have hpixel : ∀ v < width * height, s.u.rank v < s.components.next ∧ s.components.keys (s.u.rank v) = rep v := by
    intro v hv
    obtain ⟨hx, hy, heq⟩ := pixel_of_lt hv
    have hmem : (v % width, v / width) ∈ scanPixels width height := mem_scanPixels.mpr ⟨hx, hy⟩
    have hlt := h.lt _ hmem
    have hkey := h.key _ hmem
    rw [heq] at hlt hkey
    exact ⟨hlt, hkey⟩
  have hinj : ∀ v < width * height, ∀ i < s.components.next, s.components.keys i = rep v → s.u.rank v = i := by
    intro v hv i hi hkey
    exact htable.inj _ (hpixel v hv).1 _ hi ((hpixel v hv).2.trans hkey.symm)
  rw [htable.card_eq]
  constructor
  · exact fun v hv => Int.ofNat_lt.mpr (hpixel v hv).1
  · intro v hv w hw
    constructor
    · intro heq
      rw [← (hpixel v hv).2, ← (hpixel w hw).2]
      exact congrArg _ heq
    · intro heq
      exact hinj v hv _ (hpixel w hw).1 ((hpixel w hw).2.trans heq.symm)
  · intro i hi
    have hlt := Int.ofNat_lt.mp hi
    obtain ⟨v, hv, hkey⟩ := Finset.mem_image.mp (htable.mem_iff.mpr ⟨i, hlt, rfl⟩)
    exact ⟨v, Finset.mem_range.mp hv, hinj v (Finset.mem_range.mp hv) i hlt hkey.symm⟩

end Loop

/-- What stands for settled segments is a segmentation. -/
theorem Stands.segmented {α : Type} {sqrtf : ℤ → α} {img : Image} {width height : ℕ} (hn : width * height ≤ 65535)
    {minSize : ℤ} {u : Universe} {rep : ℕ → ℕ} (h : Stands (width * height) (Neighbours8 width) u rep)
    (hsettled : ∀ e ∈ gridEdges sqrtf img width height, EdgeSettled (width * height) minSize rep e) :
    Segmented width height minSize u rep where
  find := by
    intro v hv
    obtain ⟨u', hfind, -⟩ := universeFind_spec hn h hv
    rw [hfind]
    rfl
  root := fun v hv => ⟨h.rep_lt hv, h.forest.root (Finset.mem_range.mpr hv)⟩
  size := fun v hv => h.size_eq hv
  num := h.num
  connected := h.connected
  large := fun v hv => large_or_only hn hsettled hv

/-- Segmentation gives a partition into connected segments of the least size or one for all, and each segment gets
    its number. -/
theorem imlib_selective_search_segments {α : Type} [LinearOrder α] [Add α] [Div α] [NatCast α]
    (qsort : (Edge α → Edge α → ℤ) → List (Edge α) → List (Edge α)) (hqsort : ∀ l, (qsort compEdge l).Perm l)
    (sqrtf : ℤ → α) (img : Image) (width height : ℕ) (hn : width * height ≤ 65535) (t : α) (minSize : ℤ)
    (mem : ℕ → ℕ) :
    ∃ u rep s, segmentation qsort sqrtf img width height t minSize = some u ∧
      Segmented width height minSize u rep ∧ numberSegments img width height u mem = some s ∧
      Numbered width height u.num rep s.u := by
  obtain ⟨u, rep, hrun, hu, hsettled⟩ := segmentation_stands hn hqsort sqrtf img t minSize
  obtain ⟨s, hs, hpixels⟩ := numberSegments_run hn hu img mem
  refine ⟨u, rep, s, hrun, hu.segmented hn hsettled, hs, ?_⟩
  rw [hu.num]
  exact hpixels.numbered

/-- A picture of four by three pixels, in two colours. -/
def twoColours : Image := ⟨4, 3, .rgb565, fun x _ => if x < 2 then 0 else 65535⟩

theorem imlib_selective_search_segments_two :
    ∃ u rep s, segmentation (fun comp l => l.mergeSort fun e f => comp e f ≤ 0)
        (fun n => (n.toNat.sqrt : ℚ)) twoColours 4 3 500 5 = some u ∧
      Segmented 4 3 5 u rep ∧ numberSegments twoColours 4 3 u (fun _ => 0) = some s ∧ Numbered 4 3 u.num rep s.u :=
  imlib_selective_search_segments _ (fun l => List.mergeSort_perm l _) _ twoColours 4 3 (by decide) 500 5 _

end OpenMV.Vision
