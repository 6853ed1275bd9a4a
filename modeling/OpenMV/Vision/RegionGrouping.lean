import Mathlib.Order.Bounds.Basic
import OpenMV.Vision.FindBlobs
import OpenMV.Vision.RegionAdjacency

/-! Grouping the regions | scheme:agglomeration | source:src/src/openmv/omv/img/selective_search.c

    The two most similar regions that touch are merged until one is left: the second is absorbed by the first, whose
    box, size and histogram are brought up to date, and the table of what touches is contracted in place. -/

namespace OpenMV.Vision
open Schemes

/-! ### The code -/

/-- The arrays of the grouping loop. -/
structure GroupState (F : Type) where
  regions : ℕ → Region
  counts : ℕ → ℕ
  histogram : ℕ → F
  adjacency : ℕ → ℕ → Bool
  similarityTable : ℕ → ℕ → F
  proposals : List Rectangle
  remaining : ℕ

/-- The loop that numbers the pixels, with the numbers known. -/
def Components.arrays (C : Components) (img : Image) : Option RegionArrays :=
  (scanPixels C.width C.height).foldlM (fun s q => countPixel C.numCcs img q (C.id (q.2 * C.width + q.1)) s)
    (emptyRegions C.width C.height)

section Code
variable {F : Type} [LinearOrder F] [Zero F] [One F] [Add F] [Sub F] [Mul F] [Div F] [NatCast F] [IntCast F]

def minf (a b : F) : F := if a < b then a else b

def colorSimilarity (hist1 hist2 : ℕ → F) : F :=
  (List.range 75).foldl (fun sim i => sim + minf (hist1 i) (hist2 i)) 0

def sizeSimilarity (a b size : ℤ) : F := 1 - ((a + b).tdiv size : ℤ)

def fillSimilarity (ra rb : Region) (a b size : ℤ) : F :=
  let width : ℤ := (max ra.w rb.w : ℕ) - (min ra.x rb.x : ℕ)
  let height : ℤ := (max ra.h rb.h : ℕ) - (min ra.y rb.y : ℕ)
  1 - ((width * height - a - b).tdiv size : ℤ)

/-- The similarity of two regions, from their entries of the arrays. -/
def similarity (a1 a2 a3 : F) (size : ℤ) (regions : ℕ → Region) (counts : ℕ → ℕ) (histogram : ℕ → F) (i j : ℕ) : F :=
  a1 * colorSimilarity (fun k => histogram (75 * i + k)) (fun k => histogram (75 * j + k)) +
    a2 * sizeSimilarity (counts i) (counts j) size +
    a3 * fillSimilarity (regions i) (regions j) (counts i) (counts j) size

/-- The histograms over their greatest entries. -/
def normalized (histogram : ℕ → ℕ) (k : ℕ) : F :=
  let i := k / 75
  (histogram k : F) / ((List.range 75).foldl (fun maxVal j => max maxVal (histogram (75 * i + j))) 0 : ℕ)

/-- What is there before the loop. -/
def Components.initial (C : Components) (a1 a2 a3 : F) (arrays : RegionArrays) : GroupState F where
  regions := arrays.regions
  counts := arrays.counts
  histogram := normalized arrays.histogram
  adjacency := C.adjacency
  similarityTable i j := similarity a1 a2 a3 (C.height * C.width) arrays.regions arrays.counts
    (normalized arrays.histogram) (min i j) (max i j)
  proposals := []
  remaining := C.numCcs

/-- The pairs `i`, `j` with `j` above `i`, in the order of the two loops. -/
def upperPairs (n : ℕ) : List (ℕ × ℕ) :=
  (List.range n).flatMap fun i => ((List.range n).filter fun j => i < j).map fun j => (i, j)

/-- A round of the search for the greatest similarity. -/
def betterPair (s : GroupState F) (best : Option (ℕ × ℕ) × F) (p : ℕ × ℕ) : Option (ℕ × ℕ) × F :=
  if s.adjacency p.1 p.2 = false then best
  else if s.similarityTable p.1 p.2 > best.2 then (some p, s.similarityTable p.1 p.2) else best

/-- `best_i` and `best_j`, if they are not -1. -/
def bestPair (numCcs : ℕ) (s : GroupState F) : Option (ℕ × ℕ) :=
  ((upperPairs numCcs).foldl (betterPair s) (none, 0)).1

def Region.join (a b : Region) : Region where
  y := min a.y b.y
  h := max a.h b.h
  x := min a.x b.x
  w := max a.w b.w

/-- The loop over the proposals, and `array_push_back` if the box is new. -/
def addProposal (proposals : List Rectangle) (r : Region) : List Rectangle :=
  if proposals.any fun p => (r.x : ℤ) = p.x ∧ (r.y : ℤ) = p.y ∧ (r.w : ℤ) = p.w ∧ (r.h : ℤ) = p.h then proposals
  else proposals ++ [⟨int16 r.x, int16 r.y, int16 r.w, int16 r.h⟩]

/-- The loop over the bins. -/
def mergeHistograms (counts : ℕ → ℕ) (bestI bestJ : ℕ) (histogram : ℕ → F) : ℕ → F :=
  (List.range 75).foldl (fun h i => Function.update h (75 * bestI + i)
    (((counts bestI : F) * h (75 * bestI + i) + (counts bestJ : F) * h (75 * bestJ + i)) /
      (counts bestI + counts bestJ : ℕ))) histogram

/-- The part of the loop behind the search. -/
def Components.mergePair (C : Components) (a1 a2 a3 : F) (s : GroupState F) (bestI bestJ : ℕ) : GroupState F :=
  let regions := Function.update s.regions bestI ((s.regions bestI).join (s.regions bestJ))
  let histogram := mergeHistograms s.counts bestI bestJ s.histogram
  let counts := Function.update s.counts bestI (s.counts bestI + s.counts bestJ)
  let adjacency := contract C.numCcs bestI bestJ s.adjacency
  { regions := regions
    counts := counts
    histogram := histogram
    adjacency := adjacency
    similarityTable := (List.range C.numCcs).foldl (fun table i =>
      if adjacency bestI i = false then table
      else
        let sim := similarity a1 a2 a3 (C.height * C.width) regions counts histogram i bestI
        setEntry (setEntry table i bestI sim) bestI i sim) s.similarityTable
    proposals := addProposal s.proposals (regions bestI)
    remaining := s.remaining - 1 }

/-- The loop; the message is left out. -/
def Components.groupLoop (C : Components) (a1 a2 a3 : F) : ℕ → GroupState F → Option (GroupState F)
  | 0, _ => none
  | fuel + 1, s =>
    if s.remaining > 1 then
      match bestPair C.numCcs s with
      | none => some s
      | some (bestI, bestJ) => groupLoop C a1 a2 a3 fuel (C.mergePair a1 a2 a3 s bestI bestJ)
    else some s

end Code

/-! ### What the merging should do -/

/-- The columns and the rows of a component. -/
def columnsOf (C : Components) (part : ℕ → ℕ) (i : ℕ) : Set ℕ :=
  {x | ∃ v < C.width * C.height, part v = i ∧ v % C.width = x}

def rowsOf (C : Components) (part : ℕ → ℕ) (i : ℕ) : Set ℕ :=
  {y | ∃ v < C.width * C.height, part v = i ∧ v / C.width = y}

structure BoundingBox (C : Components) (part : ℕ → ℕ) (i : ℕ) (r : Region) : Prop where
  x : IsLeast (columnsOf C part i) r.x
  w : IsGreatest (columnsOf C part i) r.w
  y : IsLeast (rowsOf C part i) r.y
  h : IsGreatest (rowsOf C part i) r.h

/-- The arrays are those of the partition. -/
structure GroupingOk {F : Type} (C : Components) (s : GroupState F) (part : ℕ → ℕ) : Prop where
  symm : ∀ i < C.numCcs, ∀ j < C.numCcs, s.adjacency i j = s.adjacency j i
  diag : ∀ i < C.numCcs, s.adjacency i i = false
  absorbed : ∀ i < C.numCcs, (∀ v < C.width * C.height, part v ≠ i) → ∀ j < C.numCcs,
    s.adjacency i j = false ∧ s.adjacency j i = false
  exact : ∀ i < C.numCcs, ∀ j < C.numCcs,
    s.adjacency i j = true ↔ Touching (Neighbours4 C.width C.height) part i j
  box : ∀ v < C.width * C.height, BoundingBox C part (part v) (s.regions (part v))
  count : ∀ v < C.width * C.height,
    s.counts (part v) = classCard (Finset.range (C.width * C.height)) part (part v)

section Spec
variable {F : Type} [LinearOrder F] [Zero F] [One F] [Add F] [Sub F] [Mul F] [Div F] [NatCast F] [IntCast F]

/-- The states of the loop, with the partition that the merges have led to. -/
inductive Components.Reaches (C : Components) (img : Image) (a1 a2 a3 : F) : GroupState F → (ℕ → ℕ) → Prop
  | start {arrays : RegionArrays} (h : C.arrays img = some arrays) :
      Reaches C img a1 a2 a3 (C.initial a1 a2 a3 arrays) C.id
  | merge {s : GroupState F} {part : ℕ → ℕ} {i j : ℕ} (h : Reaches C img a1 a2 a3 s part) (hrem : 1 < s.remaining)
      (hbest : bestPair C.numCcs s = some (i, j)) :
      Reaches C img a1 a2 a3 (C.mergePair a1 a2 a3 s i j) (relabel j i part)

/-- The table is exact, the arrays follow the merges, and if what touches is similar all becomes one region. -/
structure GroupingRight (C : Components) (img : Image) (a1 a2 a3 : F) : Prop where
  exact : ∀ i < C.numCcs, ∀ j < C.numCcs,
    C.adjacency i j = true ↔ Touching (Neighbours4 C.width C.height) C.id i j
  steps : ∀ s part, C.Reaches img a1 a2 a3 s part → GroupingOk C s part
  ends : (∀ s part, C.Reaches img a1 a2 a3 s part → ∀ i j, i < j → j < C.numCcs → s.adjacency i j = true →
      0 < s.similarityTable i j) →
    ∃ fuel s, ((C.arrays img).bind fun arrays => C.groupLoop a1 a2 a3 fuel (C.initial a1 a2 a3 arrays)) = some s ∧
      s.remaining = 1

end Spec

/-! ### The numbering loop -/

/-- Pixels in the order of the scan have their numbers in order. -/
theorem map_scanPixels (width height : ℕ) :
    (scanPixels width height).map (fun q => q.2 * width + q.1) = List.range (width * height) := by
  rw [scanPixels, List.map_flatMap]
  induction height with
  | zero => rfl
  | succ height ih =>
    rw [List.range_succ, List.flatMap_append, ih, Nat.mul_succ, List.range_add, List.flatMap_singleton, List.map_map,
      Nat.mul_comm width height]
    rfl

/-- The least so far: below all, and one of them unless it is still the first value. -/
def LeastSoFar (S : Set ℕ) (top m : ℕ) : Prop := (∀ x ∈ S, m ≤ x) ∧ (m = top ∨ m ∈ S)

def GreatestSoFar (S : Set ℕ) (m : ℕ) : Prop := (∀ x ∈ S, x ≤ m) ∧ (m = 0 ∨ m ∈ S)

theorem LeastSoFar.insert {S : Set ℕ} {top m : ℕ} (h : LeastSoFar S top m) (x : ℕ) :
    LeastSoFar (insert x S) top (min m x) := by
  constructor
  · rintro y (rfl | hy)
    · exact min_le_right m y
    · exact (min_le_left m x).trans (h.1 y hy)
  · rcases min_choice m x with hm | hx
    · rw [hm]
      exact h.2.imp_right (Set.mem_insert_of_mem x)
    · rw [hx]
      exact Or.inr (Set.mem_insert x S)

theorem GreatestSoFar.insert {S : Set ℕ} {m : ℕ} (h : GreatestSoFar S m) (x : ℕ) :
    GreatestSoFar (insert x S) (max m x) := by
  constructor
  · rintro y (rfl | hy)
    · exact le_max_right m y
    · exact (h.1 y hy).trans (le_max_left m x)
  · rcases max_choice m x with hm | hx
    · rw [hm]
      exact h.2.imp_right (Set.mem_insert_of_mem x)
    · rw [hx]
      exact Or.inr (Set.mem_insert x S)

theorem LeastSoFar.isLeast {S : Set ℕ} {top m x : ℕ} (h : LeastSoFar S top m) (hx : x ∈ S) (hlt : ∀ x ∈ S, x < top) :
    IsLeast S m := by
  refine ⟨?_, h.1⟩
  rcases h.2 with rfl | hm
  · exact absurd (h.1 x hx) (not_le.mpr (hlt x hx))
  · exact hm

theorem GreatestSoFar.isGreatest {S : Set ℕ} {m x : ℕ} (h : GreatestSoFar S m) (hx : x ∈ S) : IsGreatest S m := by
  refine ⟨?_, h.1⟩
  rcases h.2 with rfl | hm
  · have hzero := Nat.le_zero.mp (h.1 x hx)
    rwa [hzero] at hx
  · exact hm

/-- What the pixels of a component have of some kind. -/
def valuesOf (C : Components) (f : ℕ × ℕ → ℕ) (i : ℕ) (done : List (ℕ × ℕ)) : Set ℕ :=
  {x | ∃ q ∈ done, C.id (q.2 * C.width + q.1) = i ∧ f q = x}

section Arrays
variable {C : Components} {i : ℕ}

theorem valuesOf_append_self (f : ℕ × ℕ → ℕ) (done : List (ℕ × ℕ)) (q : ℕ × ℕ) :
    valuesOf C f (C.id (q.2 * C.width + q.1)) (done ++ [q]) =
      insert (f q) (valuesOf C f (C.id (q.2 * C.width + q.1)) done) := by
  ext x
  simp only [valuesOf, List.mem_append, List.mem_singleton, Set.mem_ofPred_eq, Set.mem_insert_iff]
  constructor
  · rintro ⟨p, hp | rfl, hid, rfl⟩
    · exact Or.inr ⟨p, hp, hid, rfl⟩
    · exact Or.inl rfl
  · rintro (rfl | ⟨p, hp, hid, rfl⟩)
    · exact ⟨q, Or.inr rfl, rfl, rfl⟩
    · exact ⟨p, Or.inl hp, hid, rfl⟩

theorem valuesOf_append_other (f : ℕ × ℕ → ℕ) (done : List (ℕ × ℕ)) {q : ℕ × ℕ}
    (hne : C.id (q.2 * C.width + q.1) ≠ i) : valuesOf C f i (done ++ [q]) = valuesOf C f i done := by
  ext x
  simp only [valuesOf, List.mem_append, List.mem_singleton, Set.mem_ofPred_eq]
  constructor
  · rintro ⟨p, hp | rfl, hid, rfl⟩
    · exact ⟨p, hp, hid, rfl⟩
    · exact absurd hid hne
  · rintro ⟨p, hp, hid, rfl⟩
    exact ⟨p, Or.inl hp, hid, rfl⟩

/-- The box of a component as far as the loop has come. -/
structure BoxSoFar (C : Components) (done : List (ℕ × ℕ)) (i : ℕ) (r : Region) : Prop where
  x : LeastSoFar (valuesOf C Prod.fst i done) C.width r.x
  w : GreatestSoFar (valuesOf C Prod.fst i done) r.w
  y : LeastSoFar (valuesOf C Prod.snd i done) C.height r.y
  h : GreatestSoFar (valuesOf C Prod.snd i done) r.h
  columns : r.x ≤ C.width ∧ r.w ≤ C.width
  rows : r.y ≤ C.height ∧ r.h ≤ C.height

theorem BoxSoFar.addPixel {done : List (ℕ × ℕ)} {r : Region} {q : ℕ × ℕ}
    (h : BoxSoFar C done (C.id (q.2 * C.width + q.1)) r) (hx : q.1 < C.width) (hy : q.2 < C.height) :
    BoxSoFar C (done ++ [q]) (C.id (q.2 * C.width + q.1)) (r.addPixel q.1 q.2) := by
  have hw := C.width_lt
  have hh := C.height_lt
  obtain ⟨hrx, hrw⟩ := h.columns
  obtain ⟨hry, hrh⟩ := h.rows
  have hr : r.addPixel q.1 q.2 = ⟨min r.y q.2, max r.h q.2, min r.x q.1, max r.w q.1⟩ := by
    rw [Region.addPixel, Nat.mod_eq_of_lt (by omega), Nat.mod_eq_of_lt (by omega), Nat.mod_eq_of_lt (by omega),
      Nat.mod_eq_of_lt (by omega)]
  rw [hr]
  constructor
  · rw [valuesOf_append_self]
    exact h.x.insert q.1
  · rw [valuesOf_append_self]
    exact h.w.insert q.1
  · rw [valuesOf_append_self]
    exact h.y.insert q.2
  · rw [valuesOf_append_self]
    exact h.h.insert q.2
  · simp only
    omega
  · simp only
    omega

theorem BoxSoFar.skip {done : List (ℕ × ℕ)} {r : Region} {q : ℕ × ℕ} (h : BoxSoFar C done i r)
    (hne : C.id (q.2 * C.width + q.1) ≠ i) : BoxSoFar C (done ++ [q]) i r where
  x := by rw [valuesOf_append_other _ _ hne]; exact h.x
  w := by rw [valuesOf_append_other _ _ hne]; exact h.w
  y := by rw [valuesOf_append_other _ _ hne]; exact h.y
  h := by rw [valuesOf_append_other _ _ hne]; exact h.h
  columns := h.columns
  rows := h.rows

/-- The boxes and the sizes as far as the loop has come. -/
structure RegionsCollected (C : Components) (done : List (ℕ × ℕ)) (s : RegionArrays) : Prop where
  box : ∀ i, BoxSoFar C done i (s.regions i)
  count : ∀ i, s.counts i = (done.map fun q => C.id (q.2 * C.width + q.1)).count i

theorem countPixel_collected (img : Image) {done : List (ℕ × ℕ)} {s : RegionArrays} (h : RegionsCollected C done s)
    {q : ℕ × ℕ} (hq : q ∈ scanPixels C.width C.height) :
    ∃ s', countPixel C.numCcs img q (C.id (q.2 * C.width + q.1)) s = some s' ∧ RegionsCollected C (done ++ [q]) s' := by
  obtain ⟨hx, hy⟩ := mem_scanPixels.mp hq
  have hlt := C.id_lt _ (pixel_lt hx hy)
  obtain ⟨s', hs', hregions, hcounts⟩ := countPixel_spec (Int.ofNat_lt.mpr hlt) img q s
  refine ⟨s', hs', ?_, ?_⟩
  · intro i
    rw [hregions]
    by_cases hi : C.id (q.2 * C.width + q.1) = i
    · subst hi
      rw [Function.update_self]
      exact (h.box _).addPixel hx hy
    · rw [Function.update_of_ne (Ne.symm hi)]
      exact (h.box i).skip hi
  · intro i
    rw [hcounts, List.map_append, List.count_append, List.map_singleton, ← h.count i]
    by_cases hi : C.id (q.2 * C.width + q.1) = i
    · subst hi
      rw [Function.update_self, List.count_singleton_self]
    · rw [Function.update_of_ne (Ne.symm hi), List.count_singleton, if_neg (by simpa using hi), Nat.add_zero]

theorem emptyRegions_collected (C : Components) : RegionsCollected C [] (emptyRegions C.width C.height) := by
  have hw := C.width_lt
  have hh := C.height_lt
  have hx : C.width % 65536 = C.width := Nat.mod_eq_of_lt hw
  have hy : C.height % 65536 = C.height := Nat.mod_eq_of_lt hh
  refine ⟨fun i => ?_, fun i => rfl⟩
  constructor
  · exact ⟨by rintro _ ⟨q, hq, -⟩; simp at hq, Or.inl hx⟩
  · exact ⟨by rintro _ ⟨q, hq, -⟩; simp at hq, Or.inl rfl⟩
  · exact ⟨by rintro _ ⟨q, hq, -⟩; simp at hq, Or.inl hy⟩
  · exact ⟨by rintro _ ⟨q, hq, -⟩; simp at hq, Or.inl rfl⟩
  · exact ⟨hx.le, Nat.zero_le _⟩
  · exact ⟨hy.le, Nat.zero_le _⟩

theorem valuesOf_scanPixels (f : ℕ × ℕ → ℕ) (i : ℕ) : valuesOf C f i (scanPixels C.width C.height) =
    {x | ∃ v < C.width * C.height, C.id v = i ∧ f (v % C.width, v / C.width) = x} := by
  ext x
  constructor
  · rintro ⟨q, hq, hid, rfl⟩
    obtain ⟨hx, hy⟩ := mem_scanPixels.mp hq
    exact ⟨_, pixel_lt hx hy, hid, by rw [pixel_mod hx, pixel_div hx]⟩
  · rintro ⟨v, hv, hid, rfl⟩
    obtain ⟨hx, hy, heq⟩ := pixel_of_lt hv
    exact ⟨(v % C.width, v / C.width), mem_scanPixels.mpr ⟨hx, hy⟩, by simp only [heq, hid], rfl⟩

theorem classCard_range (n : ℕ) (rep : ℕ → ℕ) (c : ℕ) :
    classCard (Finset.range n) rep c = ((List.range n).map rep).count c := by
  rw [classCard, List.count, List.countP_map, List.countP_eq_length_filter]
  rfl

/-- Behind the loop the boxes and the sizes are those of the components. -/
theorem Components.arrays_spec (C : Components) (img : Image) : ∃ arrays, C.arrays img = some arrays ∧
    (∀ v < C.width * C.height, BoundingBox C C.id (C.id v) (arrays.regions (C.id v))) ∧
    ∀ i, arrays.counts i = classCard (Finset.range (C.width * C.height)) C.id i := by
  obtain ⟨arrays, harrays, hall⟩ := exists_foldlM (RegionsCollected C) (emptyRegions_collected C)
    fun q hq _ _ h => countPixel_collected img h hq
  refine ⟨arrays, harrays, fun v hv => ?_, fun i => ?_⟩
  · obtain ⟨hx, hy, heq⟩ := pixel_of_lt hv
    have hbox := hall.box (C.id v)
    have hvx : v % C.width ∈ valuesOf C Prod.fst (C.id v) (scanPixels C.width C.height) := by
      rw [valuesOf_scanPixels]
      exact ⟨v, hv, rfl, rfl⟩
    have hvy : v / C.width ∈ valuesOf C Prod.snd (C.id v) (scanPixels C.width C.height) := by
      rw [valuesOf_scanPixels]
      exact ⟨v, hv, rfl, rfl⟩
    have hcolumns : valuesOf C Prod.fst (C.id v) (scanPixels C.width C.height) = columnsOf C C.id (C.id v) :=
      valuesOf_scanPixels _ _
    have hrows : valuesOf C Prod.snd (C.id v) (scanPixels C.width C.height) = rowsOf C C.id (C.id v) :=
      valuesOf_scanPixels _ _
    have hleast := hbox.x.isLeast hvx (by rintro _ ⟨q, hq, -, rfl⟩; exact (mem_scanPixels.mp hq).1)
    have hgreatest := hbox.w.isGreatest hvx
    have hleast' := hbox.y.isLeast hvy (by rintro _ ⟨q, hq, -, rfl⟩; exact (mem_scanPixels.mp hq).2)
    have hgreatest' := hbox.h.isGreatest hvy
    rw [hcolumns] at hleast hgreatest
    rw [hrows] at hleast' hgreatest'
    exact ⟨hleast, hgreatest, hleast', hgreatest'⟩
  · rw [hall.count, classCard_range, ← map_scanPixels, List.map_map]
    rfl

end Arrays

/-! ### The search -/

section Search
variable {F : Type} [LinearOrder F] [Zero F] {n : ℕ} {s : GroupState F}

theorem mem_upperPairs {p : ℕ × ℕ} : p ∈ upperPairs n ↔ p.1 < p.2 ∧ p.2 < n := by
  obtain ⟨i, j⟩ := p
  simp only [upperPairs, List.mem_flatMap, List.mem_range, List.mem_map, List.mem_filter, decide_eq_true_eq,
    Prod.mk.injEq]
  constructor
  · rintro ⟨_, _, _, ⟨hj, hlt⟩, rfl, rfl⟩
    exact ⟨hlt, hj⟩
  · rintro ⟨hlt, hj⟩
    exact ⟨i, by omega, j, ⟨hj, hlt⟩, rfl, rfl⟩

/-- The search has a pair that touches, or no pair so far is similar and touches. -/
structure SearchOk (s : GroupState F) (done : List (ℕ × ℕ)) (best : Option (ℕ × ℕ) × F) : Prop where
  found : ∀ p, best.1 = some p → p ∈ done ∧ s.adjacency p.1 p.2 = true
  none : best.1 = none → best.2 = 0 ∧ ∀ p ∈ done, s.adjacency p.1 p.2 = true → ¬ 0 < s.similarityTable p.1 p.2

theorem betterPair_ok {done : List (ℕ × ℕ)} {best : Option (ℕ × ℕ) × F} (h : SearchOk s done best) (p : ℕ × ℕ) :
    SearchOk s (done ++ [p]) (betterPair s best p) := by
  have hkeep : ∀ q, best.1 = some q → q ∈ done ++ [p] ∧ s.adjacency q.1 q.2 = true := fun q hq =>
    ⟨List.mem_append_left _ (h.found q hq).1, (h.found q hq).2⟩
  unfold betterPair
  split_ifs with hadj hbetter
  · refine ⟨hkeep, fun hnone => ⟨(h.none hnone).1, fun q hq hq' => ?_⟩⟩
    rcases List.mem_append.mp hq with hq | hq
    · exact (h.none hnone).2 q hq hq'
    · obtain rfl := List.mem_singleton.mp hq
      rw [hadj] at hq'
      exact absurd hq' (by decide)
  · refine ⟨fun q hq => ?_, fun hnone => absurd hnone (Option.some_ne_none p)⟩
    obtain rfl := Option.some.inj hq
    exact ⟨List.mem_append_right _ (List.mem_singleton_self _), by simpa using hadj⟩
  · refine ⟨hkeep, fun hnone => ⟨(h.none hnone).1, fun q hq hq' => ?_⟩⟩
    rcases List.mem_append.mp hq with hq | hq
    · exact (h.none hnone).2 q hq hq'
    · obtain rfl := List.mem_singleton.mp hq
      rwa [(h.none hnone).1] at hbetter

theorem search_ok (s : GroupState F) (l : List (ℕ × ℕ)) : SearchOk s l (l.foldl (betterPair s) (none, 0)) := by
  induction l using List.reverseRecOn with
  | nil => exact ⟨fun _ h => absurd h (by simp), fun _ => ⟨rfl, by simp⟩⟩
  | append_singleton l p ih =>
    rw [List.foldl_append]
    exact betterPair_ok ih p

theorem bestPair_spec {i j : ℕ} (h : bestPair n s = some (i, j)) : i < j ∧ j < n ∧ s.adjacency i j = true := by
  obtain ⟨hmem, hadj⟩ := (search_ok s (upperPairs n)).found _ h
  obtain ⟨hlt, hj⟩ := mem_upperPairs.mp hmem
  exact ⟨hlt, hj, hadj⟩

/-- Where two regions touch and are similar the search finds some. -/
theorem exists_bestPair {i j : ℕ} (hlt : i < j) (hj : j < n) (hadj : s.adjacency i j = true)
    (hpos : 0 < s.similarityTable i j) : ∃ i j, bestPair n s = some (i, j) := by
  rcases hbest : bestPair n s with _ | ⟨i', j'⟩
  · exact absurd hpos (((search_ok s (upperPairs n)).none hbest).2 (i, j) (mem_upperPairs.mpr ⟨hlt, hj⟩) hadj)
  · exact ⟨i', j', rfl⟩

end Search

/-! ### The merges -/

/-- The arrays of a partition from the three facts that say the most. -/
theorem GroupingOk.of_exact {F : Type} {C : Components} {s : GroupState F} {part : ℕ → ℕ}
    (hexact : ∀ i < C.numCcs, ∀ j < C.numCcs,
      s.adjacency i j = true ↔ Touching (Neighbours4 C.width C.height) part i j)
    (hbox : ∀ v < C.width * C.height, BoundingBox C part (part v) (s.regions (part v)))
    (hcount : ∀ v < C.width * C.height,
      s.counts (part v) = classCard (Finset.range (C.width * C.height)) part (part v)) : GroupingOk C s part where
  exact := hexact
  box := hbox
  count := hcount
  symm := by
    intro i hi j hj
    rw [Bool.eq_iff_iff, hexact i hi j hj, hexact j hj i hi]
    exact ⟨Touching.symm fun _ _ => Neighbours4.symm, Touching.symm fun _ _ => Neighbours4.symm⟩
  diag := by
    intro i hi
    rw [Bool.eq_false_iff]
    exact fun h => ((hexact i hi i hi).mp h).1 rfl
  absorbed := by
    intro i hi hnone j hj
    rw [Bool.eq_false_iff, Bool.eq_false_iff]
    constructor
    · intro h
      obtain ⟨-, v, w, hvw, hv, -⟩ := (hexact i hi j hj).mp h
      exact hnone v hvw.lt.1 hv
    · intro h
      obtain ⟨-, v, w, hvw, -, hw⟩ := (hexact j hj i hi).mp h
      exact hnone w hvw.lt.2 hw

section Merges
variable {F : Type} [LinearOrder F] [Zero F] [One F] [Add F] [Sub F] [Mul F] [Div F] [NatCast F] [IntCast F]
variable {C : Components} {s : GroupState F} {part : ℕ → ℕ}

/-- What the pixels of a region have of some kind, after a merge. -/
theorem valuesIn_relabel (i j n : ℕ) (f : ℕ → ℕ) :
    {x | ∃ v < n, relabel j i part v = i ∧ f v = x} =
      {x | ∃ v < n, part v = i ∧ f v = x} ∪ {x | ∃ v < n, part v = j ∧ f v = x} := by
  ext x
  constructor
  · rintro ⟨v, hv, hpart, rfl⟩
    rcases relabel_eq_self_iff.mp hpart with hj | hi
    · exact Or.inr ⟨v, hv, hj, rfl⟩
    · exact Or.inl ⟨v, hv, hi, rfl⟩
  · rintro (⟨v, hv, hi, rfl⟩ | ⟨v, hv, hj, rfl⟩)
    · exact ⟨v, hv, relabel_eq_self_iff.mpr (Or.inr hi), rfl⟩
    · exact ⟨v, hv, relabel_eq_self_iff.mpr (Or.inl hj), rfl⟩

theorem BoundingBox.join {i j : ℕ} {a b : Region} (ha : BoundingBox C part i a)
    (hb : BoundingBox C part j b) : BoundingBox C (relabel j i part) i (a.join b) := by
  have hcolumns : columnsOf C (relabel j i part) i = columnsOf C part i ∪ columnsOf C part j :=
    valuesIn_relabel i j _ _
  have hrows : rowsOf C (relabel j i part) i = rowsOf C part i ∪ rowsOf C part j := valuesIn_relabel i j _ _
  constructor
  · rw [hcolumns]
    exact ha.x.union hb.x
  · rw [hcolumns]
    exact ha.w.union hb.w
  · rw [hrows]
    exact ha.y.union hb.y
  · rw [hrows]
    exact ha.h.union hb.h

theorem BoundingBox.relabel_other {i j c : ℕ} (hci : c ≠ i) (hcj : c ≠ j) {r : Region} (h : BoundingBox C part c r) :
    BoundingBox C (relabel j i part) c r := by
  have hcolumns : columnsOf C (relabel j i part) c = columnsOf C part c := by
    simp only [columnsOf, relabel_eq_other_iff hcj hci]
  have hrows : rowsOf C (relabel j i part) c = rowsOf C part c := by
    simp only [rowsOf, relabel_eq_other_iff hcj hci]
  constructor
  · rw [hcolumns]
    exact h.x
  · rw [hcolumns]
    exact h.w
  · rw [hrows]
    exact h.y
  · rw [hrows]
    exact h.h

/-- A merge keeps the arrays in step with the partition. -/
theorem mergePair_ok {a1 a2 a3 : F} {i j : ℕ} (h : GroupingOk C s part) (hbest : bestPair C.numCcs s = some (i, j)) :
    GroupingOk C (C.mergePair a1 a2 a3 s i j) (relabel j i part) := by
  obtain ⟨hlt, hj, hadj⟩ := bestPair_spec hbest
  have hi : i < C.numCcs := by omega
  have hij : i ≠ j := Nat.ne_of_lt hlt
  obtain ⟨-, v, w, hvw, rfl, rfl⟩ := (h.exact i hi j hj).mp hadj
  obtain ⟨hv, hw⟩ := hvw.lt
  refine GroupingOk.of_exact (fun c hc d hd => ?_) (fun z hz => ?_) fun z hz => ?_
  · show contract C.numCcs (part v) (part w) s.adjacency c d = true ↔ _
    rw [contract_eq_true_iff hlt hj h.diag hc hd, touching_relabel hij]
    simp only [Absorbed, h.exact c hc d hd, h.exact _ hj d hd, h.exact c hc _ hj]
  · show BoundingBox C _ _ (Function.update s.regions (part v) _ _)
    by_cases hself : relabel (part w) (part v) part z = part v
    · rw [hself, Function.update_self]
      exact (h.box v hv).join (h.box w hw)
    · have hne : relabel (part w) (part v) part z ≠ part w := relabel_ne hij.symm z
      have hsame : relabel (part w) (part v) part z = part z :=
        ((relabel_eq_other_iff hne hself).mp rfl).symm
      rw [Function.update_of_ne hself]
      rw [hsame] at hself hne ⊢
      exact (h.box z hz).relabel_other hself hne
  · show Function.update s.counts (part v) _ _ = _
    by_cases hself : relabel (part w) (part v) part z = part v
    · rw [hself, Function.update_self, classCard_relabel_self hij.symm, h.count v hv, h.count w hw, Nat.add_comm]
    · have hne : relabel (part w) (part v) part z ≠ part w := relabel_ne hij.symm z
      have hsame : relabel (part w) (part v) part z = part z :=
        ((relabel_eq_other_iff hne hself).mp rfl).symm
      rw [Function.update_of_ne hself]
      rw [hsame] at hself hne ⊢
      rw [classCard_relabel_other hne hself]
      exact h.count z hz

/-- While there are two regions some touch. -/
theorem exists_touching {v w : ℕ} (hv : v < C.width * C.height) (hw : w < C.width * C.height) (hne : part v ≠ part w) :
    ∃ v w, Neighbours4 C.width C.height v w ∧ part v < part w := by
  by_contra hnone
  push Not at hnone
  have hsame : ∀ a b, NextTo C.width C.height a b → part a = part b := fun a b hab =>
    le_antisymm (hnone b a (Or.inr hab)) (hnone a b (Or.inl hab))
  refine hne (forall_of_grid (P := fun z => part v = part z) ?_ ?_ hv hw rfl)
  · intro x y hx hy
    rw [hsame _ _ ⟨x, y, by omega, hy, rfl, Or.inl ⟨hx, rfl⟩⟩]
    exact Iff.rfl
  · intro x y hx hy
    rw [hsame _ _ ⟨x, y, hx, by omega, rfl, Or.inr ⟨hy, rfl⟩⟩, Nat.succ_mul, Nat.add_right_comm]

/-- The number of regions that are left. -/
def partCount (C : Components) (part : ℕ → ℕ) : ℕ := ((Finset.range (C.width * C.height)).image part).card

theorem partCount_relabel {v w : ℕ} (hv : v < C.width * C.height) (hw : w < C.width * C.height)
    (hne : part v ≠ part w) : partCount C (relabel (part w) (part v) part) = partCount C part - 1 := by
  have hmem : ∀ z < C.width * C.height, part z ∈ (Finset.range (C.width * C.height)).image part := fun z hz =>
    Finset.mem_image_of_mem part (Finset.mem_range.mpr hz)
  rw [partCount, image_relabel hne.symm (hmem v hv), Finset.card_erase_of_mem (hmem w hw)]
  rfl

theorem partCount_id (C : Components) : partCount C C.id = C.numCcs := by
  have himage : (Finset.range (C.width * C.height)).image C.id = Finset.range C.numCcs := by
    ext i
    rw [Finset.mem_image, Finset.mem_range]
    constructor
    · rintro ⟨v, hv, rfl⟩
      exact C.id_lt v (Finset.mem_range.mp hv)
    · intro hi
      obtain ⟨v, hv, hid⟩ := C.used i hi
      exact ⟨v, Finset.mem_range.mpr hv, hid⟩
  rw [partCount, himage, Finset.card_range]

/-- In every state of the loop the arrays are those of the partition, and `remaining` counts its regions. -/
theorem Components.Reaches.ok {img : Image} {a1 a2 a3 : F} (hborder : C.BorderSeen)
    (h : C.Reaches img a1 a2 a3 s part) : GroupingOk C s part ∧ s.remaining = partCount C part := by
  induction h with
  | start harrays =>
    obtain ⟨arrays, hsome, hbox, hcount⟩ := C.arrays_spec img
    obtain rfl := Option.some.inj (hsome.symm.trans harrays)
    exact ⟨.of_exact (C.adjacency_exact_iff.mpr hborder) hbox fun v _ => hcount (C.id v), (partCount_id C).symm⟩
  | @merge s part i j _ _ hbest ih =>
    obtain ⟨hok, hremaining⟩ := ih
    refine ⟨mergePair_ok hok hbest, ?_⟩
    obtain ⟨hlt, hj, hadj⟩ := bestPair_spec hbest
    obtain ⟨hne, v, w, hvw, rfl, rfl⟩ := (hok.exact i (by omega) j hj).mp hadj
    rw [partCount_relabel hvw.lt.1 hvw.lt.2 hne, ← hremaining]
    rfl

/-- The labels are numbers of components. -/
theorem Components.Reaches.part_lt {img : Image} {a1 a2 a3 : F} (h : C.Reaches img a1 a2 a3 s part) :
    ∀ v < C.width * C.height, part v < C.numCcs := by
  induction h with
  | start _ => exact C.id_lt
  | merge _ _ hbest ih =>
    intro v hv
    obtain ⟨hlt, hj, -⟩ := bestPair_spec hbest
    unfold relabel
    split_ifs
    · omega
    · exact ih v hv

/-- From every state of the loop it ends with one region, if what touches is similar. -/
theorem Components.Reaches.ends {img : Image} {a1 a2 a3 : F} (hborder : C.BorderSeen)
    (hpos : ∀ s part, C.Reaches img a1 a2 a3 s part → ∀ i j, i < j → j < C.numCcs → s.adjacency i j = true →
      0 < s.similarityTable i j) :
    ∀ (k : ℕ) {s : GroupState F} {part : ℕ → ℕ}, C.Reaches img a1 a2 a3 s part → s.remaining = k + 1 →
      ∃ fuel s', C.groupLoop a1 a2 a3 fuel s = some s' ∧ s'.remaining = 1
  | 0, s, _, _, hone => ⟨1, s, by rw [groupLoop, if_neg (by omega)], hone⟩
  | k + 1, s, part, h, hrem => by
      obtain ⟨hok, hcount⟩ := h.ok hborder
      have htwo : 1 < ((Finset.range (C.width * C.height)).image part).card := by
        rw [partCount] at hcount
        omega
      obtain ⟨_, ha, _, hb, hne⟩ := Finset.one_lt_card.mp htwo
      obtain ⟨v, hv, rfl⟩ := Finset.mem_image.mp ha
      obtain ⟨w, hw, rfl⟩ := Finset.mem_image.mp hb
      obtain ⟨v, w, hvw, hlt⟩ := exists_touching (Finset.mem_range.mp hv) (Finset.mem_range.mp hw) hne
      have hw := h.part_lt w hvw.lt.2
      have hadj : s.adjacency (part v) (part w) = true :=
        (hok.exact _ (by omega) _ hw).mpr ⟨Nat.ne_of_lt hlt, v, w, hvw, rfl, rfl⟩
      obtain ⟨i, j, hbest⟩ := exists_bestPair hlt hw hadj (hpos s part h _ _ hlt hw hadj)
      have hmerged := Components.Reaches.merge h (by omega) hbest
      have hleft : (C.mergePair a1 a2 a3 s i j).remaining = k + 1 := by
        show s.remaining - 1 = k + 1
        omega
      obtain ⟨fuel, s', hs', hone⟩ := Components.Reaches.ends hborder hpos k hmerged hleft
      refine ⟨fuel + 1, s', ?_, hone⟩
      rw [groupLoop, if_pos (by omega), hbest]
      exact hs'

/-- The table is exact and the loop keeps it so and ends with one region if and only if there is a picture, and
    nothing is missed along its last row and its last column. -/
theorem imlib_selective_search_grouping_iff (C : Components) (img : Image) (a1 a2 a3 : F) :
    GroupingRight C img a1 a2 a3 ↔ 0 < C.width ∧ 0 < C.height ∧ C.BorderSeen := by
  obtain ⟨arrays, harrays, -⟩ := C.arrays_spec img
  constructor
  · intro h
    by_contra hno
    have hborder := C.adjacency_exact_iff.mp h.exact
    have hempty : C.width * C.height = 0 := by
      by_contra hpos
      have hpos := Nat.pos_of_ne_zero hpos
      exact hno ⟨Nat.pos_of_mul_pos_right hpos, Nat.pos_of_mul_pos_left hpos, hborder⟩
    have hnone : C.numCcs = 0 := by
      by_contra hsome
      obtain ⟨v, hv, -⟩ := C.used 0 (Nat.pos_of_ne_zero hsome)
      omega
    obtain ⟨fuel, s, hs, hone⟩ := h.ends fun s part _ i j _ hj => absurd hj (by omega)
    rw [harrays] at hs
    cases fuel with
    | zero => exact absurd hs (by simp [Components.groupLoop])
    | succ fuel =>
      have hzero : (C.initial a1 a2 a3 arrays).remaining = 0 := hnone
      rw [Option.bind_some, Components.groupLoop, if_neg (by omega)] at hs
      obtain rfl := Option.some.inj hs
      omega
  · rintro ⟨hwidth, hheight, hborder⟩
    refine ⟨C.adjacency_exact_iff.mpr hborder, fun s part h => (h.ok hborder).1, fun hpos => ?_⟩
    have hsome : 0 < C.numCcs := (Nat.zero_le _).trans_lt (C.id_lt 0 (Nat.mul_pos hwidth hheight))
    rw [harrays]
    refine Components.Reaches.ends hborder hpos (C.numCcs - 1) (.start harrays) ?_
    show C.numCcs = C.numCcs - 1 + 1
    omega

end Merges

/-- Two by two pixels, of which the last has a component of its own. -/
def cornerPixel : Components where
  width := 2
  height := 2
  numCcs := 2
  id v := if v = 3 then 1 else 0
  id_lt := by decide
  used := by decide
  width_lt := by decide
  height_lt := by decide

def cornerImage : Image := ⟨2, 2, .rgb565, fun x y => if x = 1 ∧ y = 1 then 65535 else 0⟩

/-- Its component touches the other one only along the last row and the last column, so the table is empty. -/
theorem corner_pixel_missed : ¬ GroupingRight cornerPixel cornerImage (1 : ℚ) 1 1 := by
  intro h
  have htouch : Touching (Neighbours4 2 2) cornerPixel.id 0 1 :=
    ⟨by decide, 1, 3, Or.inl ⟨1, 0, by decide, by decide, rfl, Or.inr ⟨by decide, rfl⟩⟩, rfl, rfl⟩
  have hadj := (h.exact 0 (by decide) 1 (by decide)).mpr htouch
  exact absurd hadj (by decide)

end OpenMV.Vision
