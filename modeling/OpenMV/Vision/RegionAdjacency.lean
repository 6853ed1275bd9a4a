import OpenMV.Schemes.Contraction
import OpenMV.Vision.RegionNumbering

/-! Which components touch | scheme:table | source:src/src/openmv/omv/img/selective_search.c

    The table is filled in one scan that compares a pixel with its right and its lower neighbour. It leaves out the
    last row and the last column as a whole, so two components that touch only along one of them are missed. -/

namespace OpenMV.Vision
open Schemes

/-! ### The code -/

/-- A picture cut into components: `id` is `universe_get_id` of a pixel. Coordinates fit the fields of `region`. -/
structure Components where
  width : ℕ
  height : ℕ
  numCcs : ℕ
  id : ℕ → ℕ
  id_lt : ∀ v < width * height, id v < numCcs
  used : ∀ i < numCcs, ∃ v < width * height, id v = i
  width_lt : width < 65536
  height_lt : height < 65536

/-- The components that the numbering of a segmentation leaves. -/
def Numbered.components {width height : ℕ} {num : ℤ} {rep : ℕ → ℕ} {u : Universe} (h : Numbered width height num rep u)
    (hw : width < 65536) (hh : height < 65536) : Components where
  width := width
  height := height
  numCcs := num.toNat
  id := universeGetId u
  id_lt := fun v hv => by have hlt := h.lt v hv; omega
  used := fun i hi => h.used i (by omega)
  width_lt := hw
  height_lt := hh

/-- One of the two tests. -/
def markPair (adjacency : ℕ → ℕ → Bool) (component1 component2 : ℕ) : ℕ → ℕ → Bool :=
  if component1 ≠ component2 then
    setEntry (setEntry adjacency component1 component2 true) component2 component1 true
  else adjacency

/-- One round of the inner loop. -/
def markPixel (width : ℕ) (id : ℕ → ℕ) (adjacency : ℕ → ℕ → Bool) (q : ℕ × ℕ) : ℕ → ℕ → Bool :=
  let component1 := id (q.2 * width + q.1)
  let component2 := id (q.2 * width + q.1 + 1)
  let component3 := id (q.2 * width + q.1 + width)
  markPair (markPair adjacency component1 component2) component1 component3

/-- `adjacency` behind the scan; the entry `i`, `j` is that at `i * num_ccs + j`. -/
def Components.adjacency (C : Components) : ℕ → ℕ → Bool :=
  (scanPixels (C.width - 1) (C.height - 1)).foldl (markPixel C.width C.id) fun _ _ => false

/-! ### What touches -/

/-- The second pixel is to the right of the first or below it. -/
def NextTo (width height v w : ℕ) : Prop :=
  ∃ x y, x < width ∧ y < height ∧ v = y * width + x ∧
    ((x + 1 < width ∧ w = y * width + x + 1) ∨ (y + 1 < height ∧ w = y * width + x + width))

/-- Horizontal or vertical neighbours. -/
def Neighbours4 (width height v w : ℕ) : Prop := NextTo width height v w ∨ NextTo width height w v

/-- The scan compares the two pixels. -/
def Compared (width height v w : ℕ) : Prop :=
  ∃ x y, x + 1 < width ∧ y + 1 < height ∧ v = y * width + x ∧ (w = y * width + x + 1 ∨ w = y * width + x + width)

/-- The scan compares two pixels of these components. -/
def Components.Seen (C : Components) (i j : ℕ) : Prop :=
  Touching (fun v w => Compared C.width C.height v w ∨ Compared C.width C.height w v) C.id i j

/-- Components that touch along the last row or the last column also touch where the scan compares. -/
structure Components.BorderSeen (C : Components) : Prop where
  row : ∀ x, x + 1 < C.width → 0 < C.height →
    C.id ((C.height - 1) * C.width + x) ≠ C.id ((C.height - 1) * C.width + x + 1) →
      C.Seen (C.id ((C.height - 1) * C.width + x)) (C.id ((C.height - 1) * C.width + x + 1))
  column : ∀ y, y + 1 < C.height → 0 < C.width →
    C.id (y * C.width + (C.width - 1)) ≠ C.id (y * C.width + (C.width - 1) + C.width) →
      C.Seen (C.id (y * C.width + (C.width - 1))) (C.id (y * C.width + (C.width - 1) + C.width))

/-! ### The scan -/

theorem markPair_iff {m : ℕ → ℕ → Bool} {c d i j : ℕ} : markPair m c d i j = true ↔
    m i j = true ∨ (c ≠ d ∧ ((i = c ∧ j = d) ∨ (i = d ∧ j = c))) := by
  unfold markPair
  split_ifs with hne
  · simp only [setEntry]
    split_ifs with h1 h2
    · exact iff_of_true rfl (Or.inr ⟨hne, Or.inr h1⟩)
    · exact iff_of_true rfl (Or.inr ⟨hne, Or.inl h2⟩)
    · simp [h1, h2]
  · simp [not_not.mp hne]

theorem foldl_markPixel_iff {width : ℕ} {id : ℕ → ℕ} {i j : ℕ} (l : List (ℕ × ℕ)) (m : ℕ → ℕ → Bool) :
    l.foldl (markPixel width id) m i j = true ↔
      m i j = true ∨ ∃ q ∈ l, markPixel width id (fun _ _ => false) q i j = true := by
  induction l generalizing m with
  | nil => simp
  | cons q l ih =>
    have hsplit : markPixel width id m q i j = true ↔
        m i j = true ∨ markPixel width id (fun _ _ => false) q i j = true := by
      simp only [markPixel, markPair_iff, Bool.false_eq_true, false_or, or_assoc]
    rw [List.foldl_cons, ih, hsplit, or_assoc]
    simp

section Scan
variable {C : Components} {i j : ℕ}

theorem mem_compared {q : ℕ × ℕ} (hq : q ∈ scanPixels (C.width - 1) (C.height - 1)) :
    q.1 + 1 < C.width ∧ q.2 + 1 < C.height := by
  obtain ⟨hx, hy⟩ := mem_scanPixels.mp hq
  omega

/-- The table has exactly what the scan compares. -/
theorem Components.adjacency_iff : C.adjacency i j = true ↔ C.Seen i j := by
  rw [Components.adjacency, foldl_markPixel_iff]
  simp only [markPixel, markPair_iff, Bool.false_eq_true, false_or]
  constructor
  · rintro ⟨⟨x, y⟩, hq, ⟨hne, ⟨rfl, rfl⟩ | ⟨rfl, rfl⟩⟩ | ⟨hne, ⟨rfl, rfl⟩ | ⟨rfl, rfl⟩⟩⟩
    all_goals obtain ⟨hx, hy⟩ := mem_compared hq
    · exact ⟨hne, _, _, Or.inl ⟨x, y, hx, hy, rfl, Or.inl rfl⟩, rfl, rfl⟩
    · exact ⟨hne.symm, _, _, Or.inr ⟨x, y, hx, hy, rfl, Or.inl rfl⟩, rfl, rfl⟩
    · exact ⟨hne, _, _, Or.inl ⟨x, y, hx, hy, rfl, Or.inr rfl⟩, rfl, rfl⟩
    · exact ⟨hne.symm, _, _, Or.inr ⟨x, y, hx, hy, rfl, Or.inr rfl⟩, rfl, rfl⟩
  · have hmem : ∀ x y, x + 1 < C.width → y + 1 < C.height → (x, y) ∈ scanPixels (C.width - 1) (C.height - 1) :=
      fun x y hx hy => mem_scanPixels.mpr ⟨by simp only; omega, by simp only; omega⟩
    rintro ⟨hne, v, w, ⟨x, y, hx, hy, rfl, rfl | rfl⟩ | ⟨x, y, hx, hy, rfl, rfl | rfl⟩, rfl, rfl⟩
    · exact ⟨(x, y), hmem x y hx hy, Or.inl ⟨hne, Or.inl ⟨rfl, rfl⟩⟩⟩
    · exact ⟨(x, y), hmem x y hx hy, Or.inr ⟨hne, Or.inl ⟨rfl, rfl⟩⟩⟩
    · exact ⟨(x, y), hmem x y hx hy, Or.inl ⟨hne.symm, Or.inr ⟨rfl, rfl⟩⟩⟩
    · exact ⟨(x, y), hmem x y hx hy, Or.inr ⟨hne.symm, Or.inr ⟨rfl, rfl⟩⟩⟩

theorem Compared.nextTo {width height v w : ℕ} (h : Compared width height v w) : NextTo width height v w := by
  obtain ⟨x, y, hx, hy, hv, hw | hw⟩ := h
  · exact ⟨x, y, by omega, by omega, hv, Or.inl ⟨hx, hw⟩⟩
  · exact ⟨x, y, by omega, by omega, hv, Or.inr ⟨hy, hw⟩⟩

theorem NextTo.lt {width height v w : ℕ} (h : NextTo width height v w) : v < width * height ∧ w < width * height := by
  obtain ⟨x, y, hx, hy, rfl, ⟨hx', rfl⟩ | ⟨hy', rfl⟩⟩ := h
  · exact ⟨pixel_lt hx hy, pixel_lt (x := x + 1) hx' hy⟩
  · have hlt := pixel_lt hx hy'
    rw [Nat.succ_mul] at hlt
    exact ⟨pixel_lt hx hy, by omega⟩

theorem Neighbours4.lt {width height v w : ℕ} (h : Neighbours4 width height v w) :
    v < width * height ∧ w < width * height := by
  rcases h with h | h
  · exact h.lt
  · exact h.lt.symm

theorem Neighbours4.symm {width height v w : ℕ} (h : Neighbours4 width height v w) : Neighbours4 width height w v :=
  Or.symm h

/-- What the scan sees touches. -/
theorem Components.Seen.touching (h : C.Seen i j) : Touching (Neighbours4 C.width C.height) C.id i j := by
  obtain ⟨hne, v, w, hvw, hv, hw⟩ := h
  exact ⟨hne, v, w, hvw.imp Compared.nextTo Compared.nextTo, hv, hw⟩

theorem Components.Seen.symm (h : C.Seen i j) : C.Seen j i := Touching.symm (fun _ _ => Or.symm) h

theorem Components.BorderSeen.seen (h : C.BorderSeen) {v w : ℕ} (hvw : NextTo C.width C.height v w)
    (hne : C.id v ≠ C.id w) : C.Seen (C.id v) (C.id w) := by
  obtain ⟨x, y, hx, hy, rfl, ⟨hx', rfl⟩ | ⟨hy', rfl⟩⟩ := hvw
  · by_cases hy' : y + 1 < C.height
    · exact ⟨hne, _, _, Or.inl ⟨x, y, hx', hy', rfl, Or.inl rfl⟩, rfl, rfl⟩
    · obtain rfl : y = C.height - 1 := by omega
      exact h.row x hx' (by omega) hne
  · by_cases hx' : x + 1 < C.width
    · exact ⟨hne, _, _, Or.inl ⟨x, y, hx', hy', rfl, Or.inr rfl⟩, rfl, rfl⟩
    · obtain rfl : x = C.width - 1 := by omega
      exact h.column y hy' (by omega) hne

/-- The table is exact if and only if nothing is missed along the last row and the last column. -/
theorem Components.adjacency_exact_iff : (∀ i < C.numCcs, ∀ j < C.numCcs,
    (C.adjacency i j = true ↔ Touching (Neighbours4 C.width C.height) C.id i j)) ↔ C.BorderSeen := by
  constructor
  · intro hexact
    have hseen : ∀ v w, NextTo C.width C.height v w → C.id v ≠ C.id w → C.Seen (C.id v) (C.id w) := by
      intro v w hvw hne
      refine C.adjacency_iff.mp ((hexact _ (C.id_lt v hvw.lt.1) _ (C.id_lt w hvw.lt.2)).mpr ?_)
      exact ⟨hne, v, w, Or.inl hvw, rfl, rfl⟩
    constructor
    · intro x hx hheight
      exact hseen _ _ ⟨x, _, by omega, by omega, rfl, Or.inl ⟨hx, rfl⟩⟩
    · intro y hy hwidth
      exact hseen _ _ ⟨_, y, by omega, by omega, rfl, Or.inr ⟨hy, rfl⟩⟩
  · intro h i _ j _
    rw [C.adjacency_iff]
    refine ⟨Components.Seen.touching, ?_⟩
    rintro ⟨hne, v, w, hvw | hvw, rfl, rfl⟩
    · exact h.seen hvw hne
    · exact (h.seen hvw hne.symm).symm

end Scan

end OpenMV.Vision
