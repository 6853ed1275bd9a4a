import OpenMV.Io.Pixels
import OpenMV.Schemes.CheckedRun
import OpenMV.Schemes.DisjointSet

/-! Segmentation | scheme:union-find | source:src/src/openmv/omv/img/selective_search.c

    The edges of the grid are gone through twice in the order of their weights. First two segments are joined if the
    edge between them weighs little for both, then if one of them is small. Elements, parents and sizes are 16-bit
    numbers, which is enough for 65535 pixels. -/

namespace OpenMV.Vision
open Schemes

/-! ### The code -/

/-- `universe`, with each field of its `uni_elt`s as an array. -/
structure Universe where
  num : ℤ
  p : ℕ → ℕ
  rank : ℕ → ℕ
  size : ℕ → ℕ

def universeCreate (elements : ℕ) : Universe where
  num := elements
  p i := i % 65536
  rank _ := 0
  size _ := 1

/-- Parents are below 65536, so a loop that makes more rounds than that goes round for ever. -/
def universeFind (u : Universe) (x : ℕ) : Option (ℕ × Universe) := do
  let y ← climb u.p 65537 x
  some (y, { u with p := Function.update u.p x (y % 65536) })

def universeJoin (u : Universe) (x y : ℕ) : Universe :=
  if u.rank x > u.rank y then
    { u with
      num := u.num - 1
      p := Function.update u.p y (x % 65536)
      size := Function.update u.size x ((u.size x + u.size y) % 65536) }
  else
    { num := u.num - 1
      p := Function.update u.p x (y % 65536)
      rank := if u.rank x = u.rank y then Function.update u.rank y ((u.rank y + 1) % 65536) else u.rank
      size := Function.update u.size y ((u.size y + u.size x) % 65536) }

def universeGetId (u : Universe) (x : ℕ) : ℕ := u.rank x

def universeSetId (u : Universe) (x id : ℕ) : Universe := { u with rank := Function.update u.rank x (id % 65536) }

/-- `edge` -/
structure Edge (α : Type) where
  w : α
  a : ℕ
  b : ℕ

section Code
variable {α : Type}

/-- `IMAGE_GET_RGB565_PIXEL` -/
def rgb565Pixel (img : Image) (x y : ℕ) : ℕ := (imageGetRgb565Pixel img x y).toNat

def diff (sqrtf : ℤ → α) (img : Image) (x1 y1 x2 y2 : ℕ) : α :=
  let p1 := rgb565Pixel img x1 y1
  let p2 := rgb565Pixel img x2 y2
  let r : ℤ := Io.colorRgb565ToR8 p1 - Io.colorRgb565ToR8 p2
  let g : ℤ := Io.colorRgb565ToG8 p1 - Io.colorRgb565ToG8 p2
  let b : ℤ := Io.colorRgb565ToB8 p1 - Io.colorRgb565ToB8 p2
  sqrtf (r * r + g * g + b * b)

/-- The edges that one round of the inner loop stores: right, down, down right and up right. -/
def pixelEdges (sqrtf : ℤ → α) (img : Image) (width height : ℕ) (q : ℕ × ℕ) : List (Edge α) :=
  let x := q.1
  let y := q.2
  let a := (y * width + x) % 65536
  (if x + 1 < width then [⟨diff sqrtf img x y (x + 1) y, a, (y * width + (x + 1)) % 65536⟩] else []) ++
    (if y + 1 < height then [⟨diff sqrtf img x y x (y + 1), a, ((y + 1) * width + x) % 65536⟩] else []) ++
    (if x + 1 < width ∧ y + 1 < height then
      [⟨diff sqrtf img x y (x + 1) (y + 1), a, ((y + 1) * width + (x + 1)) % 65536⟩] else []) ++
    if x + 1 < width ∧ 0 < y then
      [⟨diff sqrtf img x y (x + 1) (y - 1), a, ((y - 1) * width + (x + 1)) % 65536⟩] else []

/-- The order of the two loops over the pixels. -/
def scanPixels (width height : ℕ) : List (ℕ × ℕ) :=
  (List.range height).flatMap fun y => (List.range width).map fun x => (x, y)

def gridEdges (sqrtf : ℤ → α) (img : Image) (width height : ℕ) : List (Edge α) :=
  (scanPixels width height).flatMap (pixelEdges sqrtf img width height)

/-- `comp`, for `qsort`. -/
def compEdge [LinearOrder α] (f s : Edge α) : ℤ := if f.w > s.w then 1 else if f.w < s.w then -1 else 0

/-- `THRESHOLD` -/
def edgeThreshold [Div α] [NatCast α] (size : ℕ) (c : α) : α := c / (size : α)

variable [LinearOrder α] [Add α] [Div α] [NatCast α]

/-- One round of `segment_graph`. -/
def segmentEdge (c : α) (s : Universe × (ℕ → α)) (e : Edge α) : Option (Universe × (ℕ → α)) := do
  let threshold := s.2
  let (a, u) ← universeFind s.1 e.a
  let (b, u) ← universeFind u e.b
  if a ≠ b ∧ e.w ≤ threshold a ∧ e.w ≤ threshold b then
    let (a, u) ← universeFind (universeJoin u a b) a
    some (u, Function.update threshold a (e.w + edgeThreshold (u.size a) c))
  else some (u, threshold)

/-- `segment_graph` behind the sorting. -/
def segmentGraph (u : Universe) (edges : List (Edge α)) (c : α) : Option Universe :=
  (edges.foldlM (segmentEdge c) (u, fun _ => edgeThreshold 1 c)).map Prod.fst

/-- One round of the loop that joins small segments. -/
def joinSmall (minSize : ℤ) (u : Universe) (e : Edge α) : Option Universe := do
  let (a, u) ← universeFind u e.a
  let (b, u) ← universeFind u e.b
  if a ≠ b ∧ ((u.size a : ℤ) < minSize ∨ (u.size b : ℤ) < minSize) then some (universeJoin u a b) else some u

/-- The part of `imlib_selective_search` from the edges to the number of segments. -/
def segmentation (qsort : (Edge α → Edge α → ℤ) → List (Edge α) → List (Edge α)) (sqrtf : ℤ → α) (img : Image)
    (width height : ℕ) (t : α) (minSize : ℤ) : Option Universe := do
  let edges := qsort compEdge (gridEdges sqrtf img width height)
  let u ← segmentGraph (universeCreate (width * height)) edges t
  edges.foldlM (joinSmall minSize) u

end Code

/-! ### Pixels and their numbers -/

/-- Pixels next to each other, the diagonals included, by their numbers. -/
def Neighbours8 (width u v : ℕ) : Prop :=
  (u % width ≤ v % width + 1 ∧ v % width ≤ u % width + 1) ∧ u / width ≤ v / width + 1 ∧ v / width ≤ u / width + 1

instance (width u v : ℕ) : Decidable (Neighbours8 width u v) := inferInstanceAs (Decidable (_ ∧ _))

theorem Neighbours8.symm {width u v : ℕ} (h : Neighbours8 width u v) : Neighbours8 width v u :=
  ⟨h.1.symm, h.2.symm⟩

section Grid
variable {width height x y : ℕ}

theorem pixel_mod (hx : x < width) : (y * width + x) % width = x := by
  rw [Nat.add_comm, Nat.add_mul_mod_self_right, Nat.mod_eq_of_lt hx]

theorem pixel_div (hx : x < width) : (y * width + x) / width = y := by
  rw [Nat.add_comm, Nat.add_mul_div_right _ _ (by omega), Nat.div_eq_of_lt hx, Nat.zero_add]

theorem pixel_lt (hx : x < width) (hy : y < height) : y * width + x < width * height := by
  have hrows : (y + 1) * width ≤ height * width := Nat.mul_le_mul_right width hy
  rw [Nat.mul_comm width height]
  rw [Nat.succ_mul] at hrows
  omega

theorem pixel_of_lt {v : ℕ} (hv : v < width * height) :
    v % width < width ∧ v / width < height ∧ v / width * width + v % width = v := by
  have hwidth : 0 < width := Nat.pos_of_mul_pos_right (Nat.zero_lt_of_lt hv)
  refine ⟨Nat.mod_lt _ hwidth, Nat.div_lt_of_lt_mul hv, ?_⟩
  rw [Nat.mul_comm]
  exact Nat.div_add_mod v width

theorem neighbours8_of_pixels {x' y' : ℕ} (hx : x < width) (hx' : x' < width) (h1 : x ≤ x' + 1) (h2 : x' ≤ x + 1)
    (h3 : y ≤ y' + 1) (h4 : y' ≤ y + 1) : Neighbours8 width (y * width + x) (y' * width + x') := by
  unfold Neighbours8
  rw [pixel_mod hx, pixel_mod hx', pixel_div hx, pixel_div hx']
  exact ⟨⟨h1, h2⟩, h3, h4⟩

theorem mem_scanPixels {q : ℕ × ℕ} : q ∈ scanPixels width height ↔ q.1 < width ∧ q.2 < height := by
  obtain ⟨x, y⟩ := q
  simp only [scanPixels, List.mem_flatMap, List.mem_range, List.mem_map, Prod.mk.injEq]
  constructor
  · rintro ⟨_, hy, _, hx, rfl, rfl⟩
    exact ⟨hx, hy⟩
  · rintro ⟨hx, hy⟩
    exact ⟨y, hy, x, hx, rfl, rfl⟩

/-- What is the same for pixels next to each other in a row or a column is the same everywhere. -/
theorem forall_of_grid {P : ℕ → Prop}
    (hright : ∀ x y, x + 1 < width → y < height → (P (y * width + x) ↔ P (y * width + (x + 1))))
    (hdown : ∀ x y, x < width → y + 1 < height → (P (y * width + x) ↔ P ((y + 1) * width + x))) {u v : ℕ}
    (hu : u < width * height) (hv : v < width * height) (h : P u) : P v := by
  have hrow : ∀ y x, x < width → y < height → (P (y * width + x) ↔ P (y * width + 0)) := by
    intro y x
    induction x with
    | zero => exact fun _ _ => Iff.rfl
    | succ x ih =>
      intro hx hy
      rw [← hright x y hx hy]
      exact ih (by omega) hy
  have hcolumn : ∀ y, 0 < width → y < height → (P (y * width + 0) ↔ P (0 * width + 0)) := by
    intro y
    induction y with
    | zero => exact fun _ _ => Iff.rfl
    | succ y ih =>
      intro hwidth hy
      rw [← hdown 0 y hwidth hy]
      exact ih hwidth (by omega)
  have hcorner : ∀ w, w < width * height → (P w ↔ P (0 * width + 0)) := by
    intro w hw
    obtain ⟨hx, hy, heq⟩ := pixel_of_lt hw
    conv_lhs => rw [← heq]
    rw [hrow _ _ hx hy]
    exact hcolumn _ (by omega) hy
  exact (hcorner v hv).mpr ((hcorner u hu).mp h)

end Grid

/-! ### Edges -/

/-- The ends are pixels of the grid and next to each other. -/
structure EdgeOk {α : Type} (width height : ℕ) (e : Edge α) : Prop where
  a_lt : e.a < width * height
  b_lt : e.b < width * height
  neighbours : Neighbours8 width e.a e.b

section Edges
variable {α : Type} {sqrtf : ℤ → α} {img : Image} {width height x y : ℕ}

theorem edgeOk_of_pixels (hn : width * height ≤ 65535) {w : α} {x' y' : ℕ} (hx : x < width) (hy : y < height)
    (hx' : x' < width) (hy' : y' < height) (h1 : x ≤ x' + 1) (h2 : x' ≤ x + 1) (h3 : y ≤ y' + 1) (h4 : y' ≤ y + 1) :
    EdgeOk width height ⟨w, (y * width + x) % 65536, (y' * width + x') % 65536⟩ := by
  have ha := pixel_lt hx hy
  have hb := pixel_lt hx' hy'
  have hadj := neighbours8_of_pixels hx hx' h1 h2 h3 h4
  rw [Nat.mod_eq_of_lt (by omega), Nat.mod_eq_of_lt (by omega)]
  exact ⟨ha, hb, hadj⟩

theorem edgeOk_of_mem (hn : width * height ≤ 65535) {e : Edge α} (he : e ∈ gridEdges sqrtf img width height) :
    EdgeOk width height e := by
  obtain ⟨⟨x, y⟩, hq, he⟩ := List.mem_flatMap.mp he
  obtain ⟨hx, hy⟩ := mem_scanPixels.mp hq
  simp only [pixelEdges, List.mem_append, List.mem_ite_nil_right, List.mem_singleton] at he hx hy
  rcases he with ((⟨h, rfl⟩ | ⟨h, rfl⟩) | ⟨⟨h, h'⟩, rfl⟩) | ⟨⟨h, h'⟩, rfl⟩
  · exact edgeOk_of_pixels hn hx hy h hy (by omega) (by omega) (by omega) (by omega)
  · exact edgeOk_of_pixels hn hx hy hx h (by omega) (by omega) (by omega) (by omega)
  · exact edgeOk_of_pixels hn hx hy h h' (by omega) (by omega) (by omega) (by omega)
  · exact edgeOk_of_pixels hn hx hy h (by omega) (by omega) (by omega) (by omega) (by omega)

variable (sqrtf img) in
theorem right_mem (hn : width * height ≤ 65535) (hx : x + 1 < width) (hy : y < height) :
    ∃ e ∈ gridEdges sqrtf img width height, e.a = y * width + x ∧ e.b = y * width + (x + 1) := by
  have ha := pixel_lt (by omega : x < width) hy
  have hb := pixel_lt hx hy
  refine ⟨⟨diff sqrtf img x y (x + 1) y, (y * width + x) % 65536, (y * width + (x + 1)) % 65536⟩,
    List.mem_flatMap.mpr ⟨(x, y), mem_scanPixels.mpr ⟨by omega, hy⟩, ?_⟩, Nat.mod_eq_of_lt (by omega),
    Nat.mod_eq_of_lt (by omega)⟩
  simp [pixelEdges, hx]

variable (sqrtf img) in
theorem down_mem (hn : width * height ≤ 65535) (hx : x < width) (hy : y + 1 < height) :
    ∃ e ∈ gridEdges sqrtf img width height, e.a = y * width + x ∧ e.b = (y + 1) * width + x := by
  have ha := pixel_lt hx (by omega : y < height)
  have hb := pixel_lt hx hy
  refine ⟨⟨diff sqrtf img x y x (y + 1), (y * width + x) % 65536, ((y + 1) * width + x) % 65536⟩,
    List.mem_flatMap.mpr ⟨(x, y), mem_scanPixels.mpr ⟨hx, by omega⟩, ?_⟩, Nat.mod_eq_of_lt (by omega),
    Nat.mod_eq_of_lt (by omega)⟩
  simp [pixelEdges, hy]

end Edges

/-! ### Segments -/

/-- The forest stands for the segments, which are connected, and `num` is how many there are. -/
structure Stands (n : ℕ) (adj : ℕ → ℕ → Prop) (u : Universe) (rep : ℕ → ℕ) : Prop where
  forest : Forest (Finset.range n) u.p u.size rep
  num : u.num = ((Finset.range n).image rep).card
  connected : Connected (Finset.range n) adj rep

section Stands
variable {n : ℕ} {adj : ℕ → ℕ → Prop} {u : Universe} {rep : ℕ → ℕ} {x y : ℕ}

theorem universeCreate_stands (hn : n ≤ 65535) : Stands n adj (universeCreate n) id where
  forest := Forest.singletons fun x hx => Nat.mod_eq_of_lt (by have hx := Finset.mem_range.mp hx; omega)
  num := by rw [Finset.image_id, Finset.card_range]; rfl
  connected := by
    intro a _ b _ hab
    obtain rfl : a = b := hab
    exact Relation.ReflTransGen.refl

theorem Stands.rep_lt (h : Stands n adj u rep) (hx : x < n) : rep x < n :=
  Finset.mem_range.mp (h.forest.mem x (Finset.mem_range.mpr hx))

theorem Stands.rep_rep (h : Stands n adj u rep) (hx : x < n) : rep (rep x) = rep x :=
  h.forest.rep_rep (Finset.mem_range.mpr hx)

theorem Stands.size_eq (h : Stands n adj u rep) (hx : x < n) :
    u.size (rep x) = classCard (Finset.range n) rep (rep x) :=
  h.forest.size_eq x (Finset.mem_range.mpr hx)

/-- A search ends at the label and changes a parent only. -/
theorem universeFind_spec (hn : n ≤ 65535) (h : Stands n adj u rep) (hx : x < n) :
    ∃ u', universeFind u x = some (rep x, u') ∧ Stands n adj u' rep ∧ u'.size = u.size ∧ u'.rank = u.rank := by
  have hmem := Finset.mem_range.mpr hx
  have hclimb : climb u.p 65537 x = some (rep x) := h.forest.climb hmem (by rw [Finset.card_range]; omega)
  have hlt := h.rep_lt hx
  have hmod : rep x % 65536 = rep x := Nat.mod_eq_of_lt (by omega)
  refine ⟨{ u with p := Function.update u.p x (rep x) }, ?_, ⟨h.forest.compress hmem, h.num, h.connected⟩, rfl, rfl⟩
  rw [universeFind, hclimb]
  show some (rep x, { u with p := Function.update u.p x (rep x % 65536) }) = _
  rw [hmod]

/-- A join hangs one of two roots below the other. -/
theorem Stands.link (h : Stands n adj u rep) (hsymm : ∀ a b, adj a b → adj b a) {a b : ℕ} (ha : a < n) (hb : b < n)
    (hadj : adj a b) (hax : rep a = x) (hby : rep b = y) (hxy : x ≠ y) {rank : ℕ → ℕ} :
    Stands n adj ⟨u.num - 1, Function.update u.p x y, rank, Function.update u.size y (u.size x + u.size y)⟩
      (relabel x y rep) where
  forest := by
    subst hax hby
    exact h.forest.link (Finset.mem_range.mpr (h.rep_lt ha)) (Finset.mem_range.mpr (h.rep_lt hb)) (h.rep_rep ha)
      (h.rep_rep hb) hxy
  num := by
    have hxmem : x ∈ (Finset.range n).image rep := Finset.mem_image.mpr ⟨a, Finset.mem_range.mpr ha, hax⟩
    have hymem : y ∈ (Finset.range n).image rep := Finset.mem_image.mpr ⟨b, Finset.mem_range.mpr hb, hby⟩
    have hpos := Finset.card_pos.mpr ⟨x, hxmem⟩
    show u.num - 1 = _
    rw [image_relabel hxy hymem, Finset.card_erase_of_mem hxmem, h.num]
    omega
  connected := h.connected.relabel hsymm hxy (Finset.mem_range.mpr ha) (Finset.mem_range.mpr hb) hadj hax hby

/-- The sizes of two segments add up to at most the number of pixels. -/
theorem Stands.size_add_le (h : Stands n adj u rep) {a b : ℕ} (ha : a < n) (hb : b < n) (hab : rep a ≠ rep b) :
    u.size (rep a) + u.size (rep b) ≤ n := by
  have hsum : classCard (Finset.range n) (relabel (rep a) (rep b) rep) (rep b) = _ := classCard_relabel_self hab
  have hle := classCard_le (Finset.range n) (relabel (rep a) (rep b) rep) (rep b)
  rw [Finset.card_range] at hle
  rw [h.size_eq ha, h.size_eq hb]
  omega

/-- Joining the roots above two neighbours joins their segments and no others. -/
theorem universeJoin_spec (hn : n ≤ 65535) (h : Stands n adj u rep) (hsymm : ∀ a b, adj a b → adj b a) {a b : ℕ}
    (ha : a < n) (hb : b < n) (hadj : adj a b) (hab : rep a ≠ rep b) :
    ∃ rep', Stands n adj (universeJoin u (rep a) (rep b)) rep' ∧ (∀ v w, rep v = rep w → rep' v = rep' w) ∧
      rep' a = rep' b := by
  have hlta := h.rep_lt ha
  have hltb := h.rep_lt hb
  have hsum := h.size_add_le ha hb hab
  have hmoda : rep a % 65536 = rep a := Nat.mod_eq_of_lt (by omega)
  have hmodb : rep b % 65536 = rep b := Nat.mod_eq_of_lt (by omega)
  have hsize : (u.size (rep a) + u.size (rep b)) % 65536 = u.size (rep a) + u.size (rep b) :=
    Nat.mod_eq_of_lt (by omega)
  unfold universeJoin
  split_ifs with hrank
  · refine ⟨relabel (rep b) (rep a) rep, ?_, fun v w => relabel_congr,
      (relabel_eq_iff hab.symm).mpr (Or.inr (Or.inr ⟨rfl, rfl⟩))⟩
    rw [hmoda, hsize, Nat.add_comm (u.size (rep a)) (u.size (rep b))]
    exact h.link hsymm hb ha (hsymm a b hadj) rfl rfl hab.symm
  all_goals
    refine ⟨relabel (rep a) (rep b) rep, ?_, fun v w => relabel_congr,
      (relabel_eq_iff hab).mpr (Or.inr (Or.inl ⟨rfl, rfl⟩))⟩
    rw [hmodb, Nat.add_comm (u.size (rep b)) (u.size (rep a)), hsize]
    exact h.link hsymm ha hb hadj rfl rfl hab

end Stands

/-! ### The two passes -/

/-- The ends of the edge are in one segment, or both segments are large. -/
def EdgeSettled {α : Type} (n : ℕ) (minSize : ℤ) (rep : ℕ → ℕ) (e : Edge α) : Prop :=
  rep e.a = rep e.b ∨ (minSize ≤ classCard (Finset.range n) rep (rep e.a) ∧
    minSize ≤ classCard (Finset.range n) rep (rep e.b))

/-- Segments only grow, so what is settled stays so. -/
theorem EdgeSettled.of_congr {α : Type} {n : ℕ} {minSize : ℤ} {rep rep' : ℕ → ℕ} {e : Edge α}
    (h : EdgeSettled n minSize rep e) (hcongr : ∀ v w, rep v = rep w → rep' v = rep' w) :
    EdgeSettled n minSize rep' e := by
  rcases h with heq | ⟨ha, hb⟩
  · exact Or.inl (hcongr _ _ heq)
  · have hgrows := classCard_le_of_congr (D := Finset.range n) hcongr
    exact Or.inr ⟨ha.trans (Int.ofNat_le.mpr (hgrows e.a)), hb.trans (Int.ofNat_le.mpr (hgrows e.b))⟩

section Passes
variable {α : Type} {width height : ℕ} {u : Universe} {rep : ℕ → ℕ} {e : Edge α}

theorem joinSmall_spec (hn : width * height ≤ 65535) (minSize : ℤ)
    (h : Stands (width * height) (Neighbours8 width) u rep) (he : EdgeOk width height e) :
    ∃ u' rep', joinSmall minSize u e = some u' ∧ Stands (width * height) (Neighbours8 width) u' rep' ∧
      (∀ v w, rep v = rep w → rep' v = rep' w) ∧ EdgeSettled (width * height) minSize rep' e := by
  obtain ⟨u₁, h1, hu₁, hsize₁, -⟩ := universeFind_spec hn h he.a_lt
  obtain ⟨u₂, h2, hu₂, hsize₂, -⟩ := universeFind_spec hn hu₁ he.b_lt
  have hrun : joinSmall minSize u e = if rep e.a ≠ rep e.b ∧
      ((u₂.size (rep e.a) : ℤ) < minSize ∨ (u₂.size (rep e.b) : ℤ) < minSize) then
        some (universeJoin u₂ (rep e.a) (rep e.b)) else some u₂ := by
    rw [joinSmall, h1]
    show (universeFind u₁ e.b).bind _ = _
    rw [h2]
    rfl
  rw [hrun, hu₂.size_eq he.a_lt, hu₂.size_eq he.b_lt]
  split_ifs with hjoin
  · obtain ⟨rep', hu', hcongr, hjoined⟩ :=
      universeJoin_spec hn hu₂ (fun a b => Neighbours8.symm) he.a_lt he.b_lt he.neighbours hjoin.1
    exact ⟨_, rep', rfl, hu', hcongr, Or.inl hjoined⟩
  · refine ⟨u₂, rep, rfl, hu₂, fun _ _ h => h, ?_⟩
    by_cases hab : rep e.a = rep e.b
    · exact Or.inl hab
    · have hlarge := not_or.mp (not_and.mp hjoin hab)
      exact Or.inr ⟨not_lt.mp hlarge.1, not_lt.mp hlarge.2⟩

/-- At the end of the second pass every edge is settled. -/
theorem joinSmall_run (hn : width * height ≤ 65535) (minSize : ℤ) {edges : List (Edge α)}
    (hedges : ∀ e ∈ edges, EdgeOk width height e) (h : Stands (width * height) (Neighbours8 width) u rep) :
    ∃ u', edges.foldlM (joinSmall minSize) u = some u' ∧ ∃ rep',
      Stands (width * height) (Neighbours8 width) u' rep' ∧
      ∀ e ∈ edges, EdgeSettled (width * height) minSize rep' e := by
  refine exists_foldlM (fun done u => ∃ rep, Stands (width * height) (Neighbours8 width) u rep ∧
    ∀ e ∈ done, EdgeSettled (width * height) minSize rep e) ⟨rep, h, by simp⟩ fun e he done u => ?_
  rintro ⟨rep, hu, hdone⟩
  obtain ⟨u', rep', hstep, hu', hcongr, hsettled⟩ := joinSmall_spec hn minSize hu (hedges e he)
  refine ⟨u', hstep, rep', hu', fun d hd => ?_⟩
  rcases List.mem_append.mp hd with hd | hd
  · exact (hdone d hd).of_congr hcongr
  · obtain rfl := List.mem_singleton.mp hd
    exact hsettled

variable [LinearOrder α] [Add α] [Div α] [NatCast α]

theorem segmentEdge_spec (hn : width * height ≤ 65535) (c : α) {threshold : ℕ → α}
    (h : Stands (width * height) (Neighbours8 width) u rep) (he : EdgeOk width height e) :
    ∃ s rep', segmentEdge c (u, threshold) e = some s ∧ Stands (width * height) (Neighbours8 width) s.1 rep' := by
  obtain ⟨u₁, h1, hu₁, -, -⟩ := universeFind_spec hn h he.a_lt
  obtain ⟨u₂, h2, hu₂, -, -⟩ := universeFind_spec hn hu₁ he.b_lt
  have hrun : segmentEdge c (u, threshold) e =
      if rep e.a ≠ rep e.b ∧ e.w ≤ threshold (rep e.a) ∧ e.w ≤ threshold (rep e.b) then
        (universeFind (universeJoin u₂ (rep e.a) (rep e.b)) (rep e.a)).bind fun r =>
          some (r.2, Function.update threshold r.1 (e.w + edgeThreshold (r.2.size r.1) c))
      else some (u₂, threshold) := by
    unfold segmentEdge
    show (universeFind u e.a).bind _ = _
    rw [h1]
    show (universeFind u₁ e.b).bind _ = _
    rw [h2]
    rfl
  rw [hrun]
  split_ifs with hjoin
  · obtain ⟨rep', hu', -, -⟩ :=
      universeJoin_spec hn hu₂ (fun a b => Neighbours8.symm) he.a_lt he.b_lt he.neighbours hjoin.1
    obtain ⟨u₃, h3, hu₃, -, -⟩ := universeFind_spec hn hu' (h.rep_lt he.a_lt)
    rw [h3]
    exact ⟨_, rep', rfl, hu₃⟩
  · exact ⟨_, rep, rfl, hu₂⟩

theorem segmentGraph_run (hn : width * height ≤ 65535) (c : α) {edges : List (Edge α)}
    (hedges : ∀ e ∈ edges, EdgeOk width height e) (h : Stands (width * height) (Neighbours8 width) u rep) :
    ∃ u' rep', segmentGraph u edges c = some u' ∧ Stands (width * height) (Neighbours8 width) u' rep' := by
  have hrun : ∃ s, edges.foldlM (segmentEdge c) (u, fun _ => edgeThreshold 1 c) = some s ∧
      ∃ rep, Stands (width * height) (Neighbours8 width) s.1 rep := by
    refine exists_foldlM (fun _ (s : Universe × (ℕ → α)) => ∃ rep, Stands (width * height) (Neighbours8 width) s.1 rep)
      ⟨rep, h⟩ fun e he _ s => ?_
    rintro ⟨rep, hs⟩
    obtain ⟨s', rep', hstep, hs'⟩ := segmentEdge_spec hn c hs (hedges e he)
    exact ⟨s', hstep, rep', hs'⟩
  obtain ⟨s, hs, rep', hstands⟩ := hrun
  exact ⟨s.1, rep', by rw [segmentGraph, hs]; rfl, hstands⟩

/-- Both passes, with the edges in any order. -/
theorem segmentation_stands (hn : width * height ≤ 65535)
    {qsort : (Edge α → Edge α → ℤ) → List (Edge α) → List (Edge α)} (hqsort : ∀ l, (qsort compEdge l).Perm l)
    (sqrtf : ℤ → α) (img : Image) (t : α) (minSize : ℤ) :
    ∃ u rep, segmentation qsort sqrtf img width height t minSize = some u ∧
      Stands (width * height) (Neighbours8 width) u rep ∧
      ∀ e ∈ gridEdges sqrtf img width height, EdgeSettled (width * height) minSize rep e := by
  have hperm := hqsort (gridEdges sqrtf img width height)
  have hedges : ∀ e ∈ qsort compEdge (gridEdges sqrtf img width height), EdgeOk width height e := fun e he =>
    edgeOk_of_mem hn (hperm.mem_iff.mp he)
  obtain ⟨u₁, rep₁, h1, hu₁⟩ := segmentGraph_run hn t hedges (universeCreate_stands hn)
  obtain ⟨u, h2, rep, hu, hsettled⟩ := joinSmall_run hn minSize hedges hu₁
  refine ⟨u, rep, ?_, hu, fun e he => hsettled e (hperm.mem_iff.mpr he)⟩
  rw [segmentation, h1]
  exact h2

end Passes

/-- If every edge is settled, a small segment is the only one. -/
theorem large_or_only {α : Type} {sqrtf : ℤ → α} {img : Image} {width height : ℕ} (hn : width * height ≤ 65535)
    {minSize : ℤ} {rep : ℕ → ℕ}
    (hsettled : ∀ e ∈ gridEdges sqrtf img width height, EdgeSettled (width * height) minSize rep e) {v : ℕ}
    (hv : v < width * height) :
    minSize ≤ classCard (Finset.range (width * height)) rep (rep v) ∨ ∀ w < width * height, rep w = rep v := by
  by_contra hno
  obtain ⟨hsmall, hother⟩ := not_or.mp hno
  refine hother fun w hw => ?_
  have hedge : ∀ e ∈ gridEdges sqrtf img width height, (rep e.a = rep v ↔ rep e.b = rep v) := by
    intro e he
    rcases hsettled e he with heq | ⟨ha, hb⟩
    · rw [heq]
    · constructor
      · intro hav
        exact absurd (hav ▸ ha) hsmall
      · intro hbv
        exact absurd (hbv ▸ hb) hsmall
  refine forall_of_grid (P := fun w => rep w = rep v) ?_ ?_ hv hw rfl
  · intro x y hx hy
    obtain ⟨e, he, ha, hb⟩ := right_mem sqrtf img hn hx hy
    rw [← ha, ← hb]
    exact hedge e he
  · intro x y hx hy
    obtain ⟨e, he, ha, hb⟩ := down_mem sqrtf img hn hx hy
    rw [← ha, ← hb]
    exact hedge e he

end OpenMV.Vision
