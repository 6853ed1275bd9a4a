import Mathlib.Algebra.BigOperators.Ring.Finset
import Mathlib.Algebra.Order.BigOperators.Group.Finset
import Mathlib.Order.Bounds.Basic
import Mathlib.Tactic.Linarith
import Mathlib.Tactic.Ring
import OpenMV.Schemes.CheckedRun
import OpenMV.Schemes.Components
import OpenMV.Vision.FindBlobs

/-! Blobs are connected components | scheme:worklist | source:src/src/openmv/omv/img/blob.c

    In a region of interest that fits the `int16_t` coordinates, every blob reported for a threshold
    is a connected component of the pixels that pass it and were not claimed before, every such
    component is reported once, and the figures of the blob are those of the component. -/

namespace OpenMV.Vision
open Schemes Schemes.ScanFill

/-! ### The figures of a blob -/

/-- The figures reported for a set of pixels: its size, the sums of its coordinates in an `int`, and
    its bounding box. -/
structure Blob.Describes (b : Blob) (S : Finset Cell) : Prop where
  pixels : b.pixels = S.card
  cx : b.cx = int32 (∑ p ∈ S, p.1)
  cy : b.cy = int32 (∑ p ∈ S, p.2)
  left : IsLeast (Prod.fst '' (S : Set Cell)) b.rect.x
  top : IsLeast (Prod.snd '' (S : Set Cell)) b.rect.y
  right : IsGreatest (Prod.fst '' (S : Set Cell)) (b.rect.x + b.rect.w - 1)
  bottom : IsGreatest (Prod.snd '' (S : Set Cell)) (b.rect.y + b.rect.h - 1)

/-- Twice the sum of `n` columns from `l` on. -/
theorem sum_columns_mul_two (l : ℤ) (n : ℕ) :
    (∑ k ∈ Finset.range n, (l + k)) * 2 = (l + n - 1) * (l + n) - l * (l - 1) := by
  induction n with
  | zero => simp only [Finset.range_zero, Finset.sum_empty, Nat.cast_zero]; ring
  | succ n ih =>
    rw [Finset.sum_range_succ, add_mul, ih]
    push_cast
    ring

/-- The span lies where its coordinates fit an `int16_t`. -/
structure SmallSpan (sp : Span) : Prop where
  l_nonneg : 0 ≤ sp.l
  l_le : sp.l ≤ sp.r
  r_le : sp.r ≤ 32766
  y_nonneg : 0 ≤ sp.y
  y_le : sp.y ≤ 32767

theorem sumMToN_eq {l r : ℤ} (h0 : 0 ≤ l) (h1 : l ≤ r) (h2 : r ≤ 32766) :
    sumMToN l r = ∑ k ∈ Finset.range (r + 1 - l).toNat, (l + k) := by
  have hsum := sum_columns_mul_two l (r + 1 - l).toNat
  rw [show l + ((r + 1 - l).toNat : ℤ) - 1 = r by omega,
    show l + ((r + 1 - l).toNat : ℤ) = r + 1 by omega] at hsum
  have hlow : 0 ≤ ∑ k ∈ Finset.range (r + 1 - l).toNat, (l + (k : ℤ)) :=
    Finset.sum_nonneg fun k _ => by omega
  have hhigh : r * (r + 1) - l * (l - 1) ≤ 2147483647 := by nlinarith
  unfold sumMToN
  rw [int32_of_mem (by omega) hhigh, ← hsum, Int.mul_tdiv_cancel _ (by decide)]

section Figures

variable {lifoLen fuel : ℕ} {roi : Rectangle} {passes : Cell → Bool}

theorem blobFill_untouched {γ : Type*} {π : BlobAcc → γ} (hπ : ∀ t n, π (t.addPerimeter n) = π t) :
    Untouched (blobFill lifoLen roi passes) π where
  miss := fun t sp i v => by
    show π (if _ then _ else _) = _
    split_ifs
    · exact hπ t 1
    · rfl
  border := fun t sp => hπ t _
  full := fun t sp => hπ t _

/-- The fold of the client's value over the spans of the blob. -/
theorem blobFill_figures {vis : Cell → Bool} {seed : Cell} {t : BlobAcc} {s : State BlobAcc}
    (hx : (blobFill lifoLen roi passes).exec fuel (start vis seed t) = some s) :
    s.acc.pixels = s.marked.foldr (fun sp g => g + (sp.r - sp.l + 1)) t.pixels ∧
    s.acc.cx = s.marked.foldr (fun sp g => int32 (g + sumMToN sp.l sp.r)) t.cx ∧
    s.acc.cy = s.marked.foldr (fun sp g => int32 (g + int32 (sp.y * (sp.r - sp.l + 1)))) t.cy ∧
    ∀ i, s.acc.corners i =
      s.marked.foldr (fun sp k => k.add (cosTable.getD i 0) (sinTable.getD i 0) sp) (t.corners i) :=
  ⟨exec_marked (π := BlobAcc.pixels) (blobFill_untouched fun _ _ => rfl) (fun g sp => g + (sp.r - sp.l + 1))
      (fun _ _ => rfl) (fun _ _ => rfl) hx,
    exec_marked (π := BlobAcc.cx) (blobFill_untouched fun _ _ => rfl)
      (fun g sp => int32 (g + sumMToN sp.l sp.r)) (fun _ _ => rfl) (fun _ _ => rfl) hx,
    exec_marked (π := BlobAcc.cy) (blobFill_untouched fun _ _ => rfl)
      (fun g sp => int32 (g + int32 (sp.y * (sp.r - sp.l + 1)))) (fun _ _ => rfl) (fun _ _ => rfl) hx,
    fun i => exec_marked (π := fun t => t.corners i) (blobFill_untouched fun _ _ => rfl)
      (fun k sp => k.add (cosTable.getD i 0) (sinTable.getD i 0) sp) (fun _ _ => rfl) (fun _ _ => rfl) hx⟩

theorem foldr_int32 (f : Span → ℤ) : ∀ sps : List Span,
    sps.foldr (fun sp g => int32 (g + f sp)) 0 = int32 (sps.map f).sum
  | [] => rfl
  | sp :: sps => by
      rw [List.foldr_cons, foldr_int32 f sps, int32_add_left, List.map_cons, List.sum_cons, add_comm]

theorem foldr_add (f : Span → ℤ) : ∀ sps : List Span,
    sps.foldr (fun sp g => g + f sp) 0 = (sps.map f).sum
  | [] => rfl
  | sp :: sps => by rw [List.foldr_cons, foldr_add f sps, List.map_cons, List.sum_cons, add_comm]

/-! ### The corners on the axes -/

theorem cumulativeMovingAverage_self {v n : ℤ} (hn : 0 < n) : cumulativeMovingAverage v v n = v := by
  unfold cumulativeMovingAverage
  rw [show v + n * v = v * (n + 1) by ring, Int.mul_tdiv_cancel _ (by omega)]

/-- The corner holds the coordinate its accumulated value was computed from. -/
structure Tracks (coord : Corner → ℤ) (w : ℤ) (k : Corner) : Prop where
  n_pos : 0 < k.n
  acc_eq : k.acc = w * coord k

/-- At 0 and 180 degrees a corner compares the left, respectively the right end of the span. -/
theorem tracks_x {w : ℤ} (hw : w ≠ 0) {k : Corner} {sp : Span} (hsp : SmallSpan sp)
    (hk : Tracks Corner.x w k) : Tracks Corner.x w (k.add w 0 sp) ∧
      (k.add w 0 sp).acc = min k.acc (w * if w > 0 then sp.l else sp.r) := by
  obtain ⟨h1, h2, h3, -, -⟩ := hsp
  have hv : (if w > 0 then sp.l else if w = 0 then
      (sumMToN sp.l sp.r).tdiv (sp.r - sp.l + 1) else sp.r) = if w > 0 then sp.l else sp.r := by
    rw [if_neg hw]
  simp only [Corner.add, hv, mul_zero, add_zero]
  generalize hx : (if w > 0 then sp.l else sp.r) = x
  have hx16 : int16 x = x := int16_of_mem (by split_ifs at hx <;> omega) (by split_ifs at hx <;> omega)
  rw [mul_comm x w]
  split_ifs with hlt heq
  · exact ⟨⟨Int.one_pos, by dsimp; rw [hx16]⟩, (min_eq_right hlt.le).symm⟩
  · have hkx : k.x = x := by
      rw [hk.acc_eq] at heq
      exact (mul_left_cancel₀ hw heq).symm
    refine ⟨⟨by have := hk.n_pos; dsimp; omega, ?_⟩, by dsimp; omega⟩
    dsimp
    rw [hkx, cumulativeMovingAverage_self hk.n_pos, hx16, heq]
  · exact ⟨hk, by omega⟩

/-- At 90 and 270 degrees it compares the row of the span. -/
theorem tracks_y {w : ℤ} (hw : w ≠ 0) {k : Corner} {sp : Span} (hsp : SmallSpan sp)
    (hk : Tracks Corner.y w k) : Tracks Corner.y w (k.add 0 w sp) ∧
      (k.add 0 w sp).acc = min k.acc (w * sp.y) := by
  have hy16 : int16 sp.y = sp.y := int16_of_mem (by have := hsp.y_nonneg; omega) hsp.y_le
  simp only [Corner.add, mul_zero, zero_add, gt_iff_lt, lt_self_iff_false, if_false, if_true]
  rw [mul_comm sp.y w]
  split_ifs with hlt heq
  · exact ⟨⟨Int.one_pos, by dsimp; rw [hy16]⟩, (min_eq_right hlt.le).symm⟩
  · have hky : k.y = sp.y := by
      rw [hk.acc_eq] at heq
      exact (mul_left_cancel₀ hw heq).symm
    refine ⟨⟨by have := hk.n_pos; dsimp; omega, ?_⟩, by dsimp; omega⟩
    dsimp
    rw [hky, cumulativeMovingAverage_self hk.n_pos, hy16, heq]
  · exact ⟨hk, by omega⟩

/-- Over a list of spans a corner finds the least of its values. -/
theorem tracks_foldr {add : Corner → Span → Corner} {coord : Corner → ℤ} {w : ℤ} {v : Span → ℤ}
    (hadd : ∀ k sp, SmallSpan sp → Tracks coord w k →
      Tracks coord w (add k sp) ∧ (add k sp).acc = min k.acc (w * v sp)) {k : Corner}
    (hk : Tracks coord w k) : ∀ {sps : List Span}, (∀ sp ∈ sps, SmallSpan sp) →
      Tracks coord w (sps.foldr (fun sp k => add k sp) k) ∧
      (∀ sp ∈ sps, (sps.foldr (fun sp k => add k sp) k).acc ≤ w * v sp) ∧
      ((sps.foldr (fun sp k => add k sp) k).acc = k.acc ∨
        ∃ sp ∈ sps, (sps.foldr (fun sp k => add k sp) k).acc = w * v sp)
  | [], _ => ⟨hk, by simp, .inl rfl⟩
  | sp :: sps, hsmall => by
      obtain ⟨hsp, hsps⟩ := List.forall_mem_cons.mp hsmall
      obtain ⟨ih, hle, heq⟩ := tracks_foldr hadd hk hsps
      obtain ⟨htr, hmin⟩ := hadd _ sp hsp ih
      simp only [List.foldr_cons]
      refine ⟨htr, List.forall_mem_cons.mpr ⟨hmin ▸ min_le_right _ _, fun sp' h' => ?_⟩, ?_⟩
      · exact (hmin ▸ min_le_left _ _).trans (hle sp' h')
      · rcases min_choice (List.foldr (fun sp k => add k sp) k sps).acc (w * v sp) with h | h
        · rw [h] at hmin
          rcases heq with heq | ⟨sp', h', heq⟩
          · exact .inl (hmin.trans heq)
          · exact .inr ⟨sp', List.mem_cons_of_mem _ h', hmin.trans heq⟩
        · exact .inr ⟨sp, List.mem_cons_self, hmin.trans h⟩

/-- A corner that starts at the far side of the region finds the extreme of a nonempty list. -/
theorem tracks_extreme {add : Corner → Span → Corner} {coord : Corner → ℤ} {w : ℤ} {v : Span → ℤ}
    (hw : w ≠ 0) (hadd : ∀ k sp, SmallSpan sp → Tracks coord w k →
      Tracks coord w (add k sp) ∧ (add k sp).acc = min k.acc (w * v sp)) {k : Corner}
    (hk : Tracks coord w k) {sps : List Span} (hsmall : ∀ sp ∈ sps, SmallSpan sp) (hne : sps ≠ [])
    (hfar : ∀ sp ∈ sps, w * v sp ≤ k.acc) :
    (∀ sp ∈ sps, w * coord (sps.foldr (fun sp k => add k sp) k) ≤ w * v sp) ∧
      ∃ sp ∈ sps, coord (sps.foldr (fun sp k => add k sp) k) = v sp := by
  obtain ⟨htr, hle, heq⟩ := tracks_foldr hadd hk hsmall
  rw [htr.acc_eq] at hle heq
  refine ⟨hle, ?_⟩
  rcases heq with heq | ⟨sp, hsp, heq⟩
  · obtain ⟨sp, hsp⟩ := List.exists_mem_of_ne_nil _ hne
    exact ⟨sp, hsp, mul_left_cancel₀ hw (le_antisymm (hle sp hsp) (heq ▸ hfar sp hsp))⟩
  · exact ⟨sp, hsp, mul_left_cancel₀ hw heq⟩

/-- The extreme columns and rows of one span. -/
theorem span_extremes {sp : Span} (h : sp.l ≤ sp.r) :
    IsLeast (Prod.fst '' {p : Cell | p ∈ sp}) sp.l ∧ IsGreatest (Prod.fst '' {p : Cell | p ∈ sp}) sp.r ∧
    IsLeast (Prod.snd '' {p : Cell | p ∈ sp}) sp.y ∧ IsGreatest (Prod.snd '' {p : Cell | p ∈ sp}) sp.y := by
  have hl : (sp.l, sp.y) ∈ sp := ⟨rfl, le_rfl, h⟩
  refine ⟨⟨⟨_, hl, rfl⟩, ?_⟩, ⟨⟨(sp.r, sp.y), ⟨rfl, h, le_rfl⟩, rfl⟩, ?_⟩, ⟨⟨_, hl, rfl⟩, ?_⟩,
    ⟨⟨_, hl, rfl⟩, ?_⟩⟩ <;> rintro _ ⟨p, hp, rfl⟩
  · exact hp.2.1
  · exact hp.2.2
  · exact hp.1.ge
  · exact hp.1.le

/-- The extremes of a region are the extremes over its spans. -/
theorem isLeast_region {f : Cell → ℤ} {low : Span → ℤ} {sps : List Span} {x : ℤ}
    (hlow : ∀ sp ∈ sps, IsLeast (f '' {p : Cell | p ∈ sp}) (low sp)) (hle : ∀ sp ∈ sps, x ≤ low sp)
    (hat : ∃ sp ∈ sps, x = low sp) : IsLeast (f '' (region sps : Set Cell)) x := by
  obtain ⟨sp, hsp, rfl⟩ := hat
  obtain ⟨p, hp, hpf⟩ := (hlow sp hsp).1
  refine ⟨⟨p, mem_region.mpr ⟨sp, hsp, hp⟩, hpf⟩, ?_⟩
  rintro _ ⟨q, hq, rfl⟩
  obtain ⟨sp', hsp', hq'⟩ := mem_region.mp hq
  exact (hle sp' hsp').trans ((hlow sp' hsp').2 ⟨q, hq', rfl⟩)

theorem isGreatest_region {f : Cell → ℤ} {high : Span → ℤ} {sps : List Span} {x : ℤ}
    (hhigh : ∀ sp ∈ sps, IsGreatest (f '' {p : Cell | p ∈ sp}) (high sp))
    (hle : ∀ sp ∈ sps, high sp ≤ x) (hat : ∃ sp ∈ sps, x = high sp) :
    IsGreatest (f '' (region sps : Set Cell)) x := by
  obtain ⟨sp, hsp, rfl⟩ := hat
  obtain ⟨p, hp, hpf⟩ := (hhigh sp hsp).1
  refine ⟨⟨p, mem_region.mpr ⟨sp, hsp, hp⟩, hpf⟩, ?_⟩
  rintro _ ⟨q, hq, rfl⟩
  obtain ⟨sp', hsp', hq'⟩ := mem_region.mp hq
  exact ((hhigh sp' hsp').2 ⟨q, hq', rfl⟩).trans (hle sp' hsp')

/-- The sums that are added up span by span are those over the region. -/
theorem region_sums {sps : List Span} (hapart : sps.Pairwise Span.Apart)
    (hsmall : ∀ sp ∈ sps, SmallSpan sp) :
    sps.foldr (fun sp g => g + (sp.r - sp.l + 1)) (0 : ℤ) = (region sps).card ∧
    sps.foldr (fun sp g => int32 (g + sumMToN sp.l sp.r)) 0 = int32 (∑ p ∈ region sps, p.1) ∧
    sps.foldr (fun sp g => int32 (g + int32 (sp.y * (sp.r - sp.l + 1)))) 0 =
      int32 (∑ p ∈ region sps, p.2) := by
  have hcard : ∀ sp ∈ sps, ((sp.r + 1 - sp.l).toNat : ℤ) = sp.r - sp.l + 1 := fun sp hsp => by
    have := (hsmall sp hsp).l_le
    omega
  refine ⟨?_, ?_, ?_⟩
  · rw [foldr_add, Finset.card_eq_sum_ones, Nat.cast_sum, sum_region _ hapart]
    refine congrArg List.sum (List.map_congr_left fun sp hsp => ?_)
    rw [← hcard sp hsp]
    simp
  · rw [foldr_int32, sum_region _ hapart]
    refine congrArg (fun l => int32 (List.sum l)) (List.map_congr_left fun sp hsp => ?_)
    obtain ⟨h1, h2, h3, -, -⟩ := hsmall sp hsp
    exact sumMToN_eq h1 h2 h3
  · rw [foldr_int32, sum_region _ hapart]
    refine congrArg (fun l => int32 (List.sum l)) (List.map_congr_left fun sp hsp => ?_)
    obtain ⟨h1, h2, h3, h4, h5⟩ := hsmall sp hsp
    rw [Finset.sum_const, Finset.card_range, nsmul_eq_mul, hcard sp hsp, mul_comm, int32_of_mem] <;>
      nlinarith

/-- The four corners on the axes are the extreme ends and rows of the spans. -/
theorem axis_corners {xMax yMax : ℤ} (hxMax : xMax ≤ 32766) (hyMax : yMax ≤ 32767) {sps : List Span}
    (hne : sps ≠ [])
    (hin : ∀ sp ∈ sps, 0 ≤ sp.l ∧ sp.l ≤ sp.r ∧ sp.r ≤ xMax ∧ 0 ≤ sp.y ∧ sp.y ≤ yMax) {t : BlobAcc}
    (ht : ∀ i, t.corners i = sps.foldr (fun sp k => k.add (cosTable.getD i 0) (sinTable.getD i 0) sp)
      ((BlobAcc.init xMax yMax).corners i)) :
    ((∀ sp ∈ sps, (t.corners 0).x ≤ sp.l) ∧ ∃ sp ∈ sps, (t.corners 0).x = sp.l) ∧
    ((∀ sp ∈ sps, (t.corners 5).y ≤ sp.y) ∧ ∃ sp ∈ sps, (t.corners 5).y = sp.y) ∧
    ((∀ sp ∈ sps, sp.r ≤ (t.corners 10).x) ∧ ∃ sp ∈ sps, (t.corners 10).x = sp.r) ∧
    ((∀ sp ∈ sps, sp.y ≤ (t.corners 15).y) ∧ ∃ sp ∈ sps, (t.corners 15).y = sp.y) := by
  have hsmall : ∀ sp ∈ sps, SmallSpan sp := fun sp hsp => by
    obtain ⟨h1, h2, h3, h4, h5⟩ := hin sp hsp
    exact ⟨h1, h2, by omega, h4, by omega⟩
  have hM : 0 ≤ xMax ∧ 0 ≤ yMax := by
    obtain ⟨sp, hsp⟩ := List.exists_mem_of_ne_nil _ hne
    obtain ⟨h1, h2, h3, h4, h5⟩ := hin sp hsp
    omega
  have hx16 : int16 xMax = xMax := int16_of_mem (by omega) (by omega)
  have hy16 : int16 yMax = yMax := int16_of_mem (by omega) hyMax
  -- each corner starts at the far side of the region
  obtain ⟨hl, hl'⟩ := tracks_extreme (w := 1000000) (v := fun sp => sp.l)
    (k := Corner.init xMax yMax 1000000 0) (by decide) (fun k sp hsp hk => tracks_x (by decide) hsp hk)
    ⟨Int.one_pos, by simp [Corner.init, mul_comm]⟩ hsmall hne (fun sp hsp => by
      have := hin sp hsp
      simp [Corner.init, cornerStart, hM, hx16]
      omega)
  obtain ⟨hr, hr'⟩ := tracks_extreme (w := -1000000) (v := fun sp => sp.r)
    (k := Corner.init xMax yMax (-1000000) 0) (by decide)
    (fun k sp hsp hk => tracks_x (by decide) hsp hk)
    ⟨Int.one_pos, by simp [Corner.init, mul_comm]⟩ hsmall hne (fun sp hsp => by
      have := hin sp hsp
      simp [Corner.init, cornerStart, hM, int16]
      omega)
  obtain ⟨hu, hu'⟩ := tracks_extreme (w := 1000000) (v := fun sp => sp.y)
    (k := Corner.init xMax yMax 0 1000000) (by decide) (fun k sp hsp hk => tracks_y (by decide) hsp hk)
    ⟨Int.one_pos, by simp [Corner.init, mul_comm]⟩ hsmall hne (fun sp hsp => by
      have := hin sp hsp
      simp [Corner.init, cornerStart, hM, hy16]
      omega)
  obtain ⟨hd, hd'⟩ := tracks_extreme (w := -1000000) (v := fun sp => sp.y)
    (k := Corner.init xMax yMax 0 (-1000000)) (by decide)
    (fun k sp hsp hk => tracks_y (by decide) hsp hk)
    ⟨Int.one_pos, by simp [Corner.init, mul_comm]⟩ hsmall hne (fun sp hsp => by
      have := hin sp hsp
      simp [Corner.init, cornerStart, hM, int16]
      omega)
  have h0 : t.corners 0 = sps.foldr (fun sp k => k.add 1000000 0 sp)
      (Corner.init xMax yMax 1000000 0) := ht 0
  have h5 : t.corners 5 = sps.foldr (fun sp k => k.add 0 1000000 sp)
      (Corner.init xMax yMax 0 1000000) := ht 5
  have h10 : t.corners 10 = sps.foldr (fun sp k => k.add (-1000000) 0 sp)
      (Corner.init xMax yMax (-1000000) 0) := ht 10
  have h15 : t.corners 15 = sps.foldr (fun sp k => k.add 0 (-1000000) sp)
      (Corner.init xMax yMax 0 (-1000000)) := ht 15
  rw [h0, h5, h10, h15]
  exact ⟨⟨fun sp hsp => by have := hl sp hsp; omega, hl'⟩, ⟨fun sp hsp => by have := hu sp hsp; omega, hu'⟩,
    ⟨fun sp hsp => by have := hr sp hsp; omega, hr'⟩, fun sp hsp => by have := hd sp hsp; omega, hd'⟩

/-- The figures of a blob are those of the region its spans make up. -/
theorem toBlob_describes {vis : Cell → Bool} {seed : Cell} {s : State BlobAcc} {xMax yMax : ℤ}
    (hxMax : xMax ≤ 32766) (hyMax : yMax ≤ 32767)
    (hx : (blobFill lifoLen roi passes).exec fuel (start vis seed (BlobAcc.init xMax yMax)) = some s)
    (hne : s.marked ≠ []) (hapart : s.marked.Pairwise Span.Apart)
    (hin : ∀ sp ∈ s.marked, 0 ≤ sp.l ∧ sp.l ≤ sp.r ∧ sp.r ≤ xMax ∧ 0 ≤ sp.y ∧ sp.y ≤ yMax) (code : ℕ)
    (hh : ∀ sp ∈ s.marked, ∀ sp' ∈ s.marked, sp.y - sp'.y < 32767) :
    (s.acc.toBlob code).Describes (region s.marked) := by
  have hsmall : ∀ sp ∈ s.marked, SmallSpan sp := fun sp hsp => by
    obtain ⟨h1, h2, h3, h4, h5⟩ := hin sp hsp
    exact ⟨h1, h2, by omega, h4, by omega⟩
  obtain ⟨hpix, hcx, hcy, hcorners⟩ := blobFill_figures hx
  obtain ⟨hpix', hcx', hcy'⟩ := region_sums hapart hsmall
  obtain ⟨⟨hl, spl, hspl, hl'⟩, ⟨hu, spu, hspu, hu'⟩, ⟨hr, spr, hspr, hr'⟩, hd, spd, hspd, hd'⟩ :=
    axis_corners hxMax hyMax hne hin hcorners
  have hex : ∀ sp ∈ s.marked, _ := fun sp hsp => span_extremes (hsmall sp hsp).l_le
  have hw : s.acc.rect.x + s.acc.rect.w - 1 = (s.acc.corners 10).x := by
    have hx1 := hin spl hspl
    have hx2 := hin spr hspr
    have hx3 := hr spl hspl
    simp only [BlobAcc.rect]
    rw [int16_of_mem (by omega) (by omega)]
    omega
  have hh' : s.acc.rect.y + s.acc.rect.h - 1 = (s.acc.corners 15).y := by
    have hy1 := hin spu hspu
    have hy2 := hin spd hspd
    have hy3 := hd spu hspu
    have hy4 := hh spd hspd spu hspu
    simp only [BlobAcc.rect]
    rw [int16_of_mem (by omega) (by omega)]
    omega
  refine ⟨hpix.trans hpix', hcx.trans hcx', hcy.trans hcy',
    isLeast_region (fun sp hsp => (hex sp hsp).1) hl ⟨spl, hspl, hl'⟩,
    isLeast_region (fun sp hsp => (hex sp hsp).2.2.1) hu ⟨spu, hspu, hu'⟩, ?_, ?_⟩
  · show IsGreatest _ (s.acc.rect.x + s.acc.rect.w - 1)
    rw [hw]
    exact isGreatest_region (fun sp hsp => (hex sp hsp).2.1) hr ⟨spr, hspr, hr'⟩
  · show IsGreatest _ (s.acc.rect.y + s.acc.rect.h - 1)
    rw [hh']
    exact isGreatest_region (fun sp hsp => (hex sp hsp).2.2.2) hd ⟨spd, hspd, hd'⟩

end Figures

/-! ### One pixel of the search -/

theorem adj_symm (p q : Cell) (h : Adj p q) : Adj q p := by
  unfold Adj at h ⊢
  omega

/-- The pixels of the region of interest that pass and are not in the bitmap. -/
def unclaimed (roi : Rectangle) (passes : Cell → Bool) (bmp : Cell → Bool) : Set Cell :=
  {p | roi.Mem p ∧ passes p = true ∧ bmp p = false}

/-- Strides 1, no size thresholds and no callback. -/
def plainOptions : BlobOptions := ⟨1, 1, 0, 0, none⟩

/-- The region of interest in terms of the `int16_t` coordinates. -/
structure Rectangle.Small (roi : Rectangle) : Prop where
  x_nonneg : 0 ≤ roi.x
  y_nonneg : 0 ≤ roi.y
  right_le : roi.x + roi.w ≤ 32767
  bottom_le : roi.y + roi.h ≤ 32768
  h_le : roi.h ≤ 32767

section Search

variable {fuel : ℕ} {roi : Rectangle}

/-- The fill from a pixel covers what is connected to it. -/
theorem blobFill_reach_iff {lifoLen : ℕ} {passes bmp : Cell → Bool} {p q : Cell} :
    (blobFill lifoLen roi passes).Reach bmp p q ↔ q ∈ Comp Adj (unclaimed roi passes bmp) p := by
  have : (blobFill lifoLen roi passes).Link bmp =
      fun a b => Adj a b ∧ b ∈ unclaimed roi passes bmp := by
    funext a b
    simp only [Grid.Link, blobFill, Grid.Mem, unclaimed, Rectangle.Mem, Set.mem_ofPred_eq]
  rw [Grid.Reach, this]
  rfl

/-- A pixel that starts a blob: the blob describes a region of new pixels around it, the whole
    component unless the lifo ran full; and with a place for each row it does not do so when all pixels are new. -/
theorem searchAt_blob (lifoLen : ℕ) {passes : Cell → Bool} (code : ℕ) (hroi : roi.Small)
    (hfuel : 3 * (roi.w.toNat * roi.h.toNat) ≤ fuel) {s : Search} {p : Cell} (hp : p ∈ unclaimed roi passes s.bmp) :
    ∃ (S : Finset Cell) (blob : Blob) (full : Bool) (bmp : Cell → Bool),
      searchAt lifoLen fuel roi plainOptions passes code s p =
        some ⟨bmp, s.out ++ [blob], s.full || full⟩ ∧
      blob.Describes S ∧ blob.code = 2 ^ (code % 32) ∧
      (∀ q, bmp q = true ↔ s.bmp q = true ∨ q ∈ S) ∧
      (full = false → (S : Set Cell) = Comp Adj (unclaimed roi passes s.bmp) p) ∧
      ((∀ q, roi.Mem q → q ∈ unclaimed roi passes s.bmp) → roi.h.toNat ≤ lifoLen → full = false) := by
  obtain ⟨hmem, hpass, hbmp⟩ := hp
  obtain ⟨hr1, hr2, hr3, hr4, hr5⟩ := hroi
  have hpack : ∀ c : Ctx, c.Fits (blobFill lifoLen roi passes).toGrid → (blobFill lifoLen roi passes).pack c = c :=
    fun c hc => xylr_of_fits (by simp [blobFill]; omega) hr3 (by simp [blobFill]; omega) hr4 hc
  obtain ⟨f, hx, -, hlr, hapart, hseed, hvis, hreach, hall⟩ :=
    fill_spec hpack s.bmp p hmem hbmp (BlobAcc.init (roi.x + roi.w - 1) (roi.y + roi.h - 1))
      (by simpa [blobFill] using hfuel)
  have hp : p ∈ unclaimed roi passes s.bmp := ⟨hmem, hpass, hbmp⟩
  have hcomp : ∀ q, f.Marked q → q ∈ Comp Adj (unclaimed roi passes s.bmp) p := fun q hq =>
    blobFill_reach_iff.mp (hreach q hq)
  have hin : ∀ sp ∈ f.marked, 0 ≤ sp.l ∧ sp.l ≤ sp.r ∧ sp.r ≤ roi.x + roi.w - 1 ∧ 0 ≤ sp.y ∧
      sp.y ≤ roi.y + roi.h - 1 := by
    intro sp hsp
    have h1 := (comp_subset hp (hcomp (sp.l, sp.y) ⟨sp, hsp, rfl, le_rfl, hlr sp hsp⟩)).1
    have h2 := (comp_subset hp (hcomp (sp.r, sp.y) ⟨sp, hsp, rfl, hlr sp hsp, le_rfl⟩)).1
    have h3 := hlr sp hsp
    simp only [Rectangle.Mem] at h1 h2
    omega
  have hrows : ∀ sp ∈ f.marked, ∀ sp' ∈ f.marked, sp.y - sp'.y < 32767 := by
    intro sp hsp sp' hsp'
    have h1 := (comp_subset hp (hcomp (sp'.l, sp'.y) ⟨sp', hsp', rfl, le_rfl, hlr sp' hsp'⟩)).1
    have h2 := hin sp hsp
    simp only [Rectangle.Mem] at h1
    omega
  have hne : f.marked ≠ [] := fun h => by simp [State.Marked, h] at hseed
  refine ⟨region f.marked, f.acc.toBlob code, f.full, f.vis, ?_,
    toBlob_describes (by omega) (by omega) hx hne hapart hin code hrows, rfl, fun q => ?_, fun hf => ?_,
    fun hnew hcap => ?_⟩
  · have hbig : (0 : ℤ) ≤ (f.acc.toBlob code).pixels := by
      rw [(toBlob_describes (by omega) (by omega) hx hne hapart hin code hrows).pixels]
      exact Int.natCast_nonneg _
    have hmod : (0 : ℤ) ≤ ((f.acc.toBlob code).rect.w * (f.acc.toBlob code).rect.h) % 2 ^ 32 :=
      Int.emod_nonneg _ (by decide)
    simp only [searchAt, hbmp, hpass, Bool.not_false, Bool.and_self, if_true, hx, plainOptions,
      Option.bind_eq_bind, Option.bind_some, Nat.cast_zero, hbig, hmod, decide_true]
  · rw [hvis, mem_region]
    rfl
  · ext q
    rw [Finset.mem_coe, mem_region]
    exact ⟨fun hq => hcomp q hq, fun hq => hall hf q (blobFill_reach_iff.mpr hq)⟩
  · exact exec_not_full_open hpack hmem _ (fun q r _ hr => (hnew r hr).2.1) (fun q hq => (hnew q hq).2.2)
      (by simpa [blobFill] using hcap) hx

theorem searchAt_skip {lifoLen : ℕ} {passes : Cell → Bool} {code : ℕ} {s : Search} {p : Cell}
    (h : ¬(s.bmp p = false ∧ passes p = true)) :
    searchAt lifoLen fuel roi plainOptions passes code s p = some s := by
  unfold searchAt
  rw [if_neg (by simpa using h)]

/-! ### One threshold -/

/-- What has been collected for one threshold on top of `s₀`: components of `A`, pairwise disjoint,
    with a blob each. -/
def Collected (A : Set Cell) (code : ℕ) (s₀ s : Search) : Prop :=
  ∃ fs : List (Finset Cell × Blob), s.out = s₀.out ++ fs.map Prod.snd ∧
    (∀ f ∈ fs, IsComp Adj A f.1 ∧ f.2.Describes f.1 ∧ f.2.code = 2 ^ (code % 32)) ∧
    fs.Pairwise (fun f g => Disjoint f.1 g.1) ∧
    ∀ q, s.bmp q = true ↔ s₀.bmp q = true ∨ ∃ f ∈ fs, q ∈ f.1

/-- One pixel of the search adds the component of the pixel, if it is a new one. -/
theorem searchAt_collected (lifoLen : ℕ) (passes : Cell → Bool) (code : ℕ) (hroi : roi.Small)
    (hfuel : 3 * (roi.w.toNat * roi.h.toNat) ≤ fuel) (s₀ s : Search) {p : Cell} (hp : roi.Mem p) :
    ∃ s', searchAt lifoLen fuel roi plainOptions passes code s p = some s' ∧
      (s'.full = false → s.full = false) ∧ (∀ q, s.bmp q = true → s'.bmp q = true) ∧
      (s'.full = false → Collected (unclaimed roi passes s₀.bmp) code s₀ s →
        Collected (unclaimed roi passes s₀.bmp) code s₀ s' ∧
        (passes p = true → s'.bmp p = true)) := by
  by_cases hnew : s.bmp p = false ∧ passes p = true
  swap
  · refine ⟨s, searchAt_skip hnew, id, fun q hq => hq, fun _ hs => ⟨hs, fun hpass => ?_⟩⟩
    by_contra hb
    exact hnew ⟨by simpa using hb, hpass⟩
  obtain ⟨hbmp, hpass⟩ := hnew
  obtain ⟨S, blob, full, bmp, hs', hdesc, hcode, hvis, hS, -⟩ := searchAt_blob lifoLen code hroi
    hfuel (s := s) (p := p) ⟨hp, hpass, hbmp⟩
  refine ⟨_, hs', fun h => (Bool.or_eq_false_iff.mp h).1, fun q hq => (hvis q).mpr (.inl hq), ?_⟩
  rintro hfull ⟨fs, hout, hfs, hdisj, hcov⟩
  have hS := hS (Bool.or_eq_false_iff.mp hfull).2
  -- the pixels left are those of the threshold without the components collected before
  have hA : unclaimed roi passes s.bmp =
      unclaimed roi passes s₀.bmp \ {q | ∃ f ∈ fs, q ∈ f.1} := by
    ext q
    simp only [unclaimed, Set.mem_sdiff, Set.mem_ofPred_eq]
    have := hcov q
    cases h1 : s.bmp q <;> cases h0 : s₀.bmp q <;> simp [h1, h0] at this ⊢ <;> tauto
  have hpA : p ∈ unclaimed roi passes s₀.bmp \ {q | ∃ f ∈ fs, q ∈ f.1} :=
    hA ▸ (⟨hp, hpass, hbmp⟩ : p ∈ unclaimed roi passes s.bmp)
  have hSA : (S : Set Cell) = Comp Adj (unclaimed roi passes s₀.bmp) p := by
    rw [hS, hA]
    exact comp_diff adj_symm (fun u ⟨f, hf, hu⟩ => ⟨f.1, (hfs f hf).1, hu, fun v hv => ⟨f, hf, hv⟩⟩)
      hpA.1 hpA.2
  refine ⟨⟨fs ++ [(S, blob)], ?_, ?_, ?_, fun q => ?_⟩, fun _ => ?_⟩
  · simp [hout]
  · intro f hf
    rcases List.mem_append.mp hf with hf | hf
    · exact hfs f hf
    · obtain rfl := List.mem_singleton.mp hf
      exact ⟨⟨p, hpA.1, hSA⟩, hdesc, hcode⟩
  · -- disjoint: the new component has a pixel outside the old ones
    refine List.pairwise_append.mpr ⟨hdisj, List.pairwise_singleton _ _, fun f hf g hg => ?_⟩
    obtain rfl := List.mem_singleton.mp hg
    refine Finset.disjoint_left.mpr fun q hq hqS => hpA.2 ⟨f, hf, ?_⟩
    have hqS' : q ∈ Comp Adj (unclaimed roi passes s₀.bmp) p := hSA ▸ Finset.mem_coe.mpr hqS
    have hf' := (hfs f hf).1.eq_comp adj_symm (p := q) (Finset.mem_coe.mpr hq)
    exact Finset.mem_coe.mp (hf' ▸ comp_symm adj_symm hpA.1 hqS')
  · rw [hvis, hcov]
    simp [or_assoc]
  · exact (hvis p).mpr (.inr (Finset.mem_coe.mp (hSA ▸ mem_comp_self)))

/-- The search over a list of pixels. -/
theorem searchCells_collected (lifoLen : ℕ) (passes : Cell → Bool) (code : ℕ) (hroi : roi.Small)
    (hfuel : 3 * (roi.w.toNat * roi.h.toNat) ≤ fuel) (s₀ : Search) (cells : List Cell) (s : Search)
    (hcells : ∀ p ∈ cells, roi.Mem p) :
    ∃ s', cells.foldlM (searchAt lifoLen fuel roi plainOptions passes code) s = some s' ∧
      (s'.full = false → s.full = false) ∧ (∀ q, s.bmp q = true → s'.bmp q = true) ∧
      (s'.full = false → Collected (unclaimed roi passes s₀.bmp) code s₀ s →
        Collected (unclaimed roi passes s₀.bmp) code s₀ s' ∧
        ∀ p ∈ cells, passes p = true → s'.bmp p = true) := by
  refine exists_foldlM (fun done s' =>
    (s'.full = false → s.full = false) ∧ (∀ q, s.bmp q = true → s'.bmp q = true) ∧
      (s'.full = false → Collected (unclaimed roi passes s₀.bmp) code s₀ s →
        Collected (unclaimed roi passes s₀.bmp) code s₀ s' ∧ ∀ p ∈ done, passes p = true → s'.bmp p = true))
    ⟨id, fun q hq => hq, fun _ hs => ⟨hs, by simp⟩⟩ fun p hp done s₁ ⟨hfull₁, hmono₁, hcol₁⟩ => ?_
  obtain ⟨s₂, h2, hfull₂, hmono₂, hcol₂⟩ := searchAt_collected lifoLen passes code hroi hfuel s₀ s₁ (hcells p hp)
  refine ⟨s₂, h2, fun h => hfull₁ (hfull₂ h), fun q hq => hmono₂ q (hmono₁ q hq), fun hf hs => ?_⟩
  obtain ⟨hs₁, hdone⟩ := hcol₁ (hfull₂ hf) hs
  obtain ⟨hs₂, hp₂⟩ := hcol₂ hf hs₁
  refine ⟨hs₂, List.forall_mem_append.mpr ⟨fun q hq hpass => hmono₂ q (hdone q hq hpass), ?_⟩⟩
  simpa using hp₂

theorem mem_strided_one {i stop x : ℤ} : x ∈ strided i stop 1 ↔ i ≤ x ∧ x < stop := by
  simp only [strided, Nat.add_sub_cancel, Nat.div_one, List.mem_map, List.mem_range, Nat.cast_one,
    one_mul]
  constructor
  · rintro ⟨k, hk, rfl⟩
    omega
  · rintro ⟨h1, h2⟩
    exact ⟨(x - i).toNat, by omega, by omega⟩

theorem mem_rasterCells {p : Cell} : p ∈ rasterCells roi 1 1 ↔ roi.Mem p := by
  obtain ⟨x, y⟩ := p
  simp only [rasterCells, List.mem_flatMap, List.mem_map, mem_strided_one, Nat.cast_one,
    Int.emod_one, add_zero, Prod.mk.injEq, Rectangle.Mem]
  constructor
  · rintro ⟨y', hy, x', hx, rfl, rfl⟩
    exact ⟨hx.1, hx.2, hy.1, hy.2⟩
  · rintro ⟨h1, h2, h3, h4⟩
    exact ⟨y, ⟨h3, h4⟩, x, ⟨h1, h2⟩, rfl, rfl⟩

/-- One threshold: exactly the components of the pixels that pass and were not claimed before. -/
theorem searchThreshold_components (lifoLen : ℕ) (passes : Cell → Bool) (code : ℕ) (hroi : roi.Small)
    (hfuel : 3 * (roi.w.toNat * roi.h.toNat) ≤ fuel) (s : Search) :
    ∃ s', searchThreshold lifoLen fuel roi plainOptions passes code s = some s' ∧
      (s'.full = false → s.full = false) ∧
      (s'.full = false → Collected (unclaimed roi passes s.bmp) code s s' ∧
        ∀ p ∈ unclaimed roi passes s.bmp, s'.bmp p = true) := by
  obtain ⟨s', h1, h2, -, h4⟩ := searchCells_collected lifoLen passes code hroi hfuel s
    (rasterCells roi 1 1) s (fun p hp => mem_rasterCells.mp hp)
  refine ⟨s', h1, h2, fun hf => ?_⟩
  obtain ⟨hcol, hall⟩ := h4 hf ⟨[], by simp, by simp, List.Pairwise.nil, by simp⟩
  exact ⟨hcol, fun p hp => hall p (mem_rasterCells.mpr hp.1) hp.2.1⟩

/-! ### All thresholds -/

/-- A reported blob: the number of its threshold, its pixels and the record. -/
structure Found where
  k : ℕ
  pixels : Finset Cell
  blob : Blob

/-- The pixels left to threshold `k`: those that pass it and that no component of an earlier
    threshold has claimed. -/
def leftTo (roi : Rectangle) (passes : Cell → Bool) (found : List Found) (k : ℕ) : Set Cell :=
  {p | roi.Mem p ∧ passes p = true ∧ ∀ f ∈ found, f.k < k → p ∉ f.pixels}

/-- What the search has found after the thresholds `ts`. -/
structure Complete (roi : Rectangle) (passes : ColorThresholds → Cell → Bool)
    (ts : List ColorThresholds) (s : Search) (found : List Found) : Prop where
  out : s.out = found.map Found.blob
  figures : ∀ f ∈ found, f.k < ts.length ∧ f.blob.Describes f.pixels ∧ f.blob.code = 2 ^ (f.k % 32)
  disjoint : found.Pairwise fun f g => Disjoint f.pixels g.pixels
  bmp : ∀ q, s.bmp q = true ↔ ∃ f ∈ found, q ∈ f.pixels
  components : ∀ k t, ts[k]? = some t → ∀ S : Finset Cell,
    (∃ f ∈ found, f.k = k ∧ f.pixels = S) ↔ IsComp Adj (leftTo roi (passes t) found k) S

/-- One more threshold. -/
theorem Complete.concat {passes : ColorThresholds → Cell → Bool} {ts : List ColorThresholds}
    {s s' : Search} {found : List Found} (h : Complete roi passes ts s found) (t : ColorThresholds)
    (hcol : Collected (unclaimed roi (passes t) s.bmp) ts.length s s')
    (hall : ∀ p ∈ unclaimed roi (passes t) s.bmp, s'.bmp p = true) :
    ∃ new, Complete roi passes (ts ++ [t]) s' (found ++ new) := by
  obtain ⟨fs, hout, hfs, hdisj, hbmp⟩ := hcol
  set new : List Found := fs.map fun f => ⟨ts.length, f.1, f.2⟩ with hnew
  have hmem : ∀ g, g ∈ new ↔ ∃ f ∈ fs, g = ⟨ts.length, f.1, f.2⟩ := fun g => by
    simp only [hnew, List.mem_map, eq_comm]
  -- claims of the new threshold do not count against it or the earlier ones
  have hleft : ∀ k t', k ≤ ts.length →
      leftTo roi (passes t') (found ++ new) k = leftTo roi (passes t') found k := by
    intro k t' hk
    ext p
    refine and_congr_right fun _ => and_congr_right fun _ => ?_
    simp only [List.mem_append, hmem]
    constructor
    · exact fun hp f hf => hp f (.inl hf)
    · rintro hp f (hf | ⟨g, -, rfl⟩) hfk
      · exact hp f hf hfk
      · exact absurd hfk (by dsimp; omega)
  have hlast : leftTo roi (passes t) (found ++ new) ts.length = unclaimed roi (passes t) s.bmp := by
    rw [hleft _ _ le_rfl]
    ext p
    refine and_congr_right fun _ => and_congr_right fun _ => ?_
    have := h.bmp p
    constructor
    · intro hp
      by_contra hb
      obtain ⟨f, hf, hpf⟩ := this.mp (by simpa using hb)
      exact hp f hf (h.figures f hf).1 hpf
    · intro hb f hf _ hpf
      have := this.mpr ⟨f, hf, hpf⟩
      simp [hb] at this
  refine ⟨new, ?_, ?_, ?_, fun q => ?_, ?_⟩
  · rw [hout, h.out, List.map_append, hnew, List.map_map]
    rfl
  · intro f hf
    rw [List.length_append, List.length_singleton]
    rcases List.mem_append.mp hf with hf | hf
    · obtain ⟨h1, h2⟩ := h.figures f hf
      exact ⟨by omega, h2⟩
    · obtain ⟨g, hg, rfl⟩ := (hmem f).mp hf
      exact ⟨by dsimp; omega, (hfs g hg).2⟩
  · refine List.pairwise_append.mpr ⟨h.disjoint, List.pairwise_map.mpr hdisj, fun f hf g hg => ?_⟩
    obtain ⟨g', hg', rfl⟩ := (hmem g).mp hg
    refine Finset.disjoint_left.mpr fun q hqf hqg => ?_
    obtain ⟨p, hp, hS⟩ := (hfs g' hg').1
    have hq := (comp_subset hp (hS ▸ Finset.mem_coe.mpr hqg)).2.2
    have := (h.bmp q).mpr ⟨f, hf, hqf⟩
    simp [hq] at this
  · rw [hbmp, h.bmp]
    simp only [List.mem_append, hmem]
    constructor
    · rintro (⟨f, hf, hq⟩ | ⟨f, hf, hq⟩)
      · exact ⟨f, .inl hf, hq⟩
      · exact ⟨_, .inr ⟨f, hf, rfl⟩, hq⟩
    · rintro ⟨f, hf | ⟨g, hg, rfl⟩, hq⟩
      · exact .inl ⟨f, hf, hq⟩
      · exact .inr ⟨g, hg, hq⟩
  · intro k t' hk S
    rcases lt_or_ge k ts.length with hlt | hge
    · rw [List.getElem?_append_left hlt] at hk
      rw [hleft k t' hlt.le, ← h.components k t' hk S]
      simp only [List.mem_append, hmem]
      constructor
      · rintro ⟨f, hf | ⟨g, -, rfl⟩, hfk, hfS⟩
        · exact ⟨f, hf, hfk, hfS⟩
        · exact absurd hfk (by dsimp; omega)
      · rintro ⟨f, hf, hfk, hfS⟩
        exact ⟨f, .inl hf, hfk, hfS⟩
    · obtain ⟨rfl, rfl⟩ : k = ts.length ∧ t = t' := by
        have hlen := (List.getElem?_eq_some_iff.mp hk).1
        rw [List.length_append, List.length_singleton] at hlen
        obtain rfl : k = ts.length := by omega
        simpa using hk
      rw [hlast]
      constructor
      · rintro ⟨f, hf, hfk, rfl⟩
        rcases List.mem_append.mp hf with hf | hf
        · have := (h.figures f hf).1
          omega
        · obtain ⟨g, hg, rfl⟩ := (hmem f).mp hf
          exact (hfs g hg).1
      · -- a component has a pixel, which is in the bitmap at the end
        rintro ⟨p, hp, hS⟩
        rcases (hbmp p).mp (hall p hp) with hb | ⟨g, hg, hpg⟩
        · simp [hp.2.2] at hb
        · refine ⟨⟨ts.length, g.1, g.2⟩, List.mem_append_right _ ((hmem _).mpr ⟨g, hg, rfl⟩), rfl, ?_⟩
          exact Finset.coe_injective (((hfs g hg).1.eq_comp adj_symm (Finset.mem_coe.mpr hpg)).trans
            hS.symm)

/-- The loop over the thresholds ends, and unless the lifo ran full it finds all there is. -/
theorem searchThresholds_complete (lifoLen : ℕ) (passes : ColorThresholds → Cell → Bool)
    (hroi : roi.Small) (hfuel : 3 * (roi.w.toNat * roi.h.toNat) ≤ fuel) :
    ∀ (ts pre : List ColorThresholds) (s : Search),
      ∃ s', searchThresholds lifoLen fuel roi plainOptions passes pre.length ts s = some s' ∧
        (s'.full = false → s.full = false) ∧
        (s'.full = false → ∀ found, Complete roi passes pre s found →
          ∃ found', Complete roi passes (pre ++ ts) s' found')
  | [], pre, s => ⟨s, rfl, id, fun _ found h => ⟨found, by rwa [List.append_nil]⟩⟩
  | t :: ts, pre, s => by
      obtain ⟨s₁, h1, hfull₁, hcol⟩ := searchThreshold_components lifoLen (passes t) pre.length hroi
        hfuel s
      obtain ⟨s₂, h2, hfull₂, hall⟩ := searchThresholds_complete lifoLen passes hroi hfuel ts
        (pre ++ [t]) s₁
      rw [List.length_append, List.length_singleton] at h2
      refine ⟨s₂, by simp only [searchThresholds, h1]; exact h2, fun h => hfull₁ (hfull₂ h),
        fun hf found h => ?_⟩
      obtain ⟨hcol, hcover⟩ := hcol (hfull₂ hf)
      obtain ⟨new, hnew⟩ := h.concat t hcol hcover
      obtain ⟨found', h'⟩ := hall hf _ hnew
      exact ⟨found', by rwa [List.append_assoc, List.singleton_append] at h'⟩

end Search

/-- In a region of interest whose end fits the `int16_t` coordinates the search ends. Unless the lifo ran full,
    the blobs reported are, one for each, the 4-connected components
    of the pixels that pass a threshold and were not claimed by a component of an earlier one; they
    are pairwise disjoint, and the size, the coordinate sums (as an `int`) and the bounding box
    reported for a blob are those of the component. -/
theorem imlib_find_blobs_components (lab : LabTable) (img : Image)
    (hbpp : img.bpp = .binary ∨ img.bpp = .grayscale ∨ img.bpp = .rgb565) (roi : Rectangle)
    (hroi : roi.Small) (thresholds : List ColorThresholds) (invert : Bool)
    (lifoLen fuel : ℕ) (hfuel : 3 * (roi.w.toNat * roi.h.toNat) ≤ fuel) :
    ∃ s, imlibFindBlobs lifoLen fuel roi plainOptions lab img thresholds invert = some s ∧
      (s.full = false → ∃ found : List Found, s.out = found.map Found.blob ∧
        (found.map Found.pixels).Nodup ∧
        (found.Pairwise fun f g => Disjoint f.pixels g.pixels) ∧
        (∀ f ∈ found, f.k < thresholds.length ∧ f.blob.Describes f.pixels ∧
          f.blob.code = 2 ^ (f.k % 32)) ∧
        ∀ k t, thresholds[k]? = some t → ∀ S : Finset Cell,
          (∃ f ∈ found, f.k = k ∧ f.pixels = S) ↔
            IsComp Adj (leftTo roi (pixelPasses lab img invert t) found k) S) := by
  obtain ⟨s, hs, -, h⟩ := searchThresholds_complete lifoLen (pixelPasses lab img invert) hroi hfuel
    thresholds [] Search.init
  refine ⟨s, ?_, fun hf => ?_⟩
  · rcases hbpp with hb | hb | hb <;> simp only [imlibFindBlobs, hb] <;> exact hs
  · obtain ⟨found, hc⟩ := h hf [] ⟨rfl, by simp, List.Pairwise.nil, by simp [Search.init], by simp⟩
    refine ⟨found, hc.out, ?_, hc.disjoint, hc.figures, hc.components⟩
    rw [List.Nodup, List.pairwise_map]
    refine hc.disjoint.imp_of_mem fun {f g} hf hg hd heq => ?_
    -- disjoint from itself, though its leftmost pixel is in it
    obtain ⟨p, hp, -⟩ := (hc.figures f hf).2.1.left.1
    exact Finset.disjoint_left.mp hd hp (heq ▸ hp)

/-- Three rows: the dark pixels form a ring around a bright one. -/
def ringImage : Image := ⟨3, 3, .grayscale, fun x y => if x = 1 ∧ y = 1 then 200 else 10⟩

def darkThreshold : ColorThresholds := ⟨0, 50, 0, 0, 0, 0⟩
def anyThreshold : ColorThresholds := ⟨0, 255, 0, 0, 0, 0⟩

/-- The second threshold is left with the pixel in the middle. -/
theorem imlib_find_blobs_components_ring :
    ∃ s, imlibFindBlobs 8192 27 ⟨0, 0, 3, 3⟩ plainOptions (fun _ => (0, 0, 0)) ringImage
        [darkThreshold, anyThreshold] false = some s ∧ s.full = false ∧
      s.out.map (fun b => [b.rect.x, b.rect.y, b.rect.w, b.rect.h, b.pixels, b.cx, b.cy]) =
        [[0, 0, 3, 3, 8, 8, 8], [1, 1, 1, 1, 1, 1, 1]] ∧
      ∃ found : List Found, s.out = found.map Found.blob ∧ ∀ f ∈ found, f.blob.Describes f.pixels := by
  obtain ⟨s, hs, h⟩ := imlib_find_blobs_components (fun _ => (0, 0, 0)) ringImage (.inr (.inl rfl))
    ⟨0, 0, 3, 3⟩ ⟨by decide, by decide, by decide, by decide, by decide⟩ [darkThreshold, anyThreshold]
    false 8192 27 (by decide)
  have hrun : (imlibFindBlobs 8192 27 ⟨0, 0, 3, 3⟩ plainOptions (fun _ => (0, 0, 0)) ringImage
      [darkThreshold, anyThreshold] false).map
      (fun s => (s.full, s.out.map (fun b => [b.rect.x, b.rect.y, b.rect.w, b.rect.h, b.pixels, b.cx, b.cy]))) =
      some (false, [[0, 0, 3, 3, 8, 8, 8], [1, 1, 1, 1, 1, 1, 1]]) := by
    decide
  rw [hs, Option.map_some, Option.some.injEq, Prod.mk.injEq] at hrun
  obtain ⟨found, hout, -, -, hfig, -⟩ := h hrun.1
  exact ⟨s, hs, hrun.1, hrun.2, found, hout, fun f hf => (hfig f hf).2.1⟩

/-! ### A blob too large for its sums -/

section Whole

variable {fuel : ℕ} {roi : Rectangle}

/-- A rectangle is one piece. -/
theorem comp_rectangle {p : Cell} (hp : roi.Mem p) : Comp Adj {q | roi.Mem q} p = {q | roi.Mem q} := by
  have hright : ∀ (n : ℕ) (x y : ℤ), roi.Mem (x, y) → roi.Mem (x + n, y) →
      (x + n, y) ∈ Comp Adj {q | roi.Mem q} (x, y) := by
    intro n x y hx
    induction n with
    | zero => simpa using fun _ => mem_comp_self
    | succ n ih =>
      intro hn
      have hn' : roi.Mem (x + n, y) := ⟨by have := hx.1; dsimp at *; omega,
        by have := hn.2.1; dsimp at *; omega, hx.2.2⟩
      exact comp_step (ih hn') (.inl ⟨rfl, .inl (by push_cast; ring)⟩) hn
  have hdown : ∀ (n : ℕ) (x y : ℤ), roi.Mem (x, y) → roi.Mem (x, y + n) →
      (x, y + n) ∈ Comp Adj {q | roi.Mem q} (x, y) := by
    intro n x y hx
    induction n with
    | zero => simpa using fun _ => mem_comp_self
    | succ n ih =>
      intro hn
      have hn' : roi.Mem (x, y + n) := ⟨hx.1, hx.2.1, by have := hx.2.2.1; dsimp at *; omega,
        by have := hn.2.2.2; dsimp at *; omega⟩
      exact comp_step (ih hn') (.inr ⟨rfl, .inl (by push_cast; ring)⟩) hn
  have hcorner : ∀ q, roi.Mem q → q ∈ Comp Adj {q | roi.Mem q} (roi.x, roi.y) := by
    rintro ⟨x, y⟩ ⟨hx, hx', hy, hy'⟩
    dsimp only at hx hx' hy hy'
    have h1 := hright (x - roi.x).toNat roi.x roi.y ⟨le_rfl, by dsimp; omega, le_rfl, by dsimp; omega⟩
      ⟨by dsimp; omega, by dsimp; omega, le_rfl, by dsimp; omega⟩
    have h2 := hdown (y - roi.y).toNat x roi.y ⟨hx, hx', le_rfl, by dsimp; omega⟩
      ⟨hx, hx', by dsimp; omega, by dsimp; omega⟩
    rw [Int.toNat_of_nonneg (by omega), show roi.x + (x - roi.x) = x by ring] at h1
    rw [Int.toNat_of_nonneg (by omega), show roi.y + (y - roi.y) = y by ring] at h2
    exact Relation.ReflTransGen.trans h1 h2
  have hmem : roi.Mem (roi.x, roi.y) := by
    obtain ⟨hx, hx', hy, hy'⟩ := hp
    exact ⟨le_rfl, hx.trans_lt hx', le_rfl, hy.trans_lt hy'⟩
  refine Set.Subset.antisymm (comp_subset (show p ∈ {q | roi.Mem q} from hp)) fun q hq => ?_
  rw [comp_eq adj_symm hmem (hcorner p hp)]
  exact hcorner q hq

/-- If all pixels pass, the first one starts the only blob, and a lifo with a place for each row does not run
    full. -/
theorem searchThreshold_whole {lifoLen : ℕ} {passes : Cell → Bool} (code : ℕ) (hroi : roi.Small)
    (hfuel : 3 * (roi.w.toNat * roi.h.toNat) ≤ fuel) (hpass : ∀ q, roi.Mem q → passes q = true)
    (hcap : roi.h.toNat ≤ lifoLen) {s : Search} (hnew : ∀ q, s.bmp q = false) (hfull : s.full = false) :
    ∃ s', searchThreshold lifoLen fuel roi plainOptions passes code s = some s' ∧ s'.full = false := by
  suffices h : ∃ s', searchThreshold lifoLen fuel roi plainOptions passes code s = some s' ∧
      s'.full = false ∧ ((∀ q, s'.bmp q = false) ∨ ∀ q, roi.Mem q → s'.bmp q = true) by
    obtain ⟨s', hs', hfull', -⟩ := h
    exact ⟨s', hs', hfull'⟩
  refine exists_foldlM (fun _ (t : Search) => t.full = false ∧
    ((∀ q, t.bmp q = false) ∨ ∀ q, roi.Mem q → t.bmp q = true)) ⟨hfull, .inl hnew⟩ ?_
  rintro p hp - t ⟨hft, hbmp | hbmp⟩
  · have hun : unclaimed roi passes t.bmp = {q | roi.Mem q} := by
      ext q
      exact ⟨fun hq => hq.1, fun hq => ⟨hq, hpass q hq, hbmp q⟩⟩
    have hmem := mem_rasterCells.mp hp
    obtain ⟨S, blob, full, bmp, ht', -, -, hvis, hS, hroom⟩ := searchAt_blob lifoLen code hroi hfuel (s := t)
      (p := p) ⟨hmem, hpass p hmem, hbmp p⟩
    have hf := hroom (fun q hq => ⟨hq, hpass q hq, hbmp q⟩) hcap
    refine ⟨_, ht', by simp [hft, hf], .inr fun q hq => (hvis q).mpr (.inr ?_)⟩
    rw [← Finset.mem_coe, hS hf, hun, comp_rectangle hmem]
    exact hq
  · have hb := hbmp p (mem_rasterCells.mp hp)
    exact ⟨t, searchAt_skip (by simp [hb]), hft, .inr hbmp⟩

end Whole

/-- A large image with all its pixels set. -/
def whiteImage : Image := ⟨8000, 1000, .binary, fun _ _ => 1⟩

def setThreshold : ColorThresholds := ⟨1, 1, 0, 0, 0, 0⟩

def whiteCells : Finset Cell := (Finset.range 8000 ×ˢ Finset.range 1000).image fun c => ((c.1 : ℤ), (c.2 : ℤ))

theorem coe_whiteCells : (whiteCells : Set Cell) = {q | (⟨0, 0, 8000, 1000⟩ : Rectangle).Mem q} := by
  ext ⟨x, y⟩
  simp only [whiteCells, Finset.mem_coe, Set.mem_ofPred_eq, Rectangle.Mem, Finset.mem_image, Finset.mem_product,
    Finset.mem_range, Prod.mk.injEq, Prod.exists]
  constructor
  · rintro ⟨a, b, ⟨ha, hb⟩, rfl, rfl⟩
    omega
  · rintro ⟨h1, h2, h3, h4⟩
    exact ⟨x.toNat, y.toNat, by omega, by omega, by omega⟩

theorem sum_whiteCells : ∑ p ∈ whiteCells, p.1 = 31996000000 := by
  have hrow := sum_columns_mul_two 0 8000
  rw [whiteCells, Finset.sum_image fun a _ b _ h => by simpa [Prod.ext_iff] using h, Finset.sum_product]
  simp only [Finset.sum_const, Finset.card_range, nsmul_eq_mul, ← Finset.mul_sum, zero_add] at hrow ⊢
  push_cast at hrow ⊢
  omega

/-- The sum of the columns is more than an `int` holds. -/
theorem find_blobs_sum_overflows :
    ∃ s, imlibFindBlobs 8192 24000000 ⟨0, 0, 8000, 1000⟩ plainOptions (fun _ => (0, 0, 0)) whiteImage
        [setThreshold] false = some s ∧ s.full = false ∧
      ¬ ∃ found : List Found, s.out = found.map Found.blob ∧
        (∀ f ∈ found, f.blob.cx = ∑ p ∈ f.pixels, p.1) ∧
        ∀ S : Finset Cell, (∃ f ∈ found, f.k = 0 ∧ f.pixels = S) ↔
          IsComp Adj (leftTo ⟨0, 0, 8000, 1000⟩
            (pixelPasses (fun _ => (0, 0, 0)) whiteImage false setThreshold) found 0) S := by
  set roi : Rectangle := ⟨0, 0, 8000, 1000⟩ with hroi
  set passes := pixelPasses (fun _ => (0, 0, 0)) whiteImage false with hpasses
  have hpass : ∀ q, passes setThreshold q = true := fun q => by
    simp [hpasses, pixelPasses, colorThreshold, colorThresholdBinary, colorThresholdGrayscale, whiteImage,
      Image.pixel, imageGetBinaryPixel, setThreshold]
  have hsmall : roi.Small := ⟨by decide, by decide, by decide, by decide, by decide⟩
  have hfuel : 3 * (roi.w.toNat * roi.h.toNat) ≤ 24000000 := by decide
  have hcap : roi.h.toNat ≤ 8192 := by decide
  have hnew : ∀ q, Search.init.bmp q = false := fun _ => rfl
  obtain ⟨s, hs, hfull⟩ := searchThreshold_whole 0 hsmall hfuel (fun q _ => hpass q) hcap hnew rfl
  have hrun : imlibFindBlobs 8192 24000000 roi plainOptions (fun _ => (0, 0, 0)) whiteImage [setThreshold] false =
      some s := by
    simp only [imlibFindBlobs, whiteImage, searchThresholds]
    exact congrArg (Option.bind · some) hs
  refine ⟨s, hrun, hfull, ?_⟩
  rintro ⟨found, hout, hsum, hcomp⟩
  -- the whole image is a component of what is left to the first threshold
  have hleft : leftTo roi (passes setThreshold) found 0 = {q | roi.Mem q} := by
    ext q
    exact ⟨fun hq => hq.1, fun hq => ⟨hq, hpass q, fun f _ hf => absurd hf (Nat.not_lt_zero _)⟩⟩
  have hseed : roi.Mem (0, 0) := ⟨by decide, by decide, by decide, by decide⟩
  obtain ⟨f, hf, -, hpix⟩ := (hcomp whiteCells).mpr ⟨(0, 0), hleft ▸ hseed, by
    rw [hleft, comp_rectangle hseed, coe_whiteCells]⟩
  have hcx : f.blob.cx = 31996000000 := by rw [hsum f hf, hpix, sum_whiteCells]
  -- but what is reported is an `int`
  obtain ⟨s', hs', -, hall⟩ := searchThresholds_complete 8192 passes hsmall hfuel
    [setThreshold] [] Search.init
  obtain rfl : s' = s := Option.some.inj (hs'.symm.trans (congrArg (Option.bind · some) hs))
  obtain ⟨found', hc⟩ := hall hfull [] ⟨rfl, by simp, List.Pairwise.nil, by simp [Search.init], by simp⟩
  have hmem : f.blob ∈ found'.map Found.blob := by
    rw [← hc.out, hout]
    exact List.mem_map_of_mem hf
  obtain ⟨f', hf', hblob⟩ := List.mem_map.mp hmem
  have hint := (hc.figures f' hf').2.1.cx
  rw [hblob, hcx] at hint
  unfold int32 at hint
  omega

end OpenMV.Vision
