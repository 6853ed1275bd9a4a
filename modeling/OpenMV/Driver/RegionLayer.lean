import Mathlib.Data.List.Pairwise
import Mathlib.Data.List.Sort
import Mathlib.Data.Fintype.Pi
import Mathlib.Tactic.NormNum
import OpenMV.Schemes.Suppression

/-! The region layer | scheme:greedy | source:src/src/extmods/k210/region_layer.c, src/src/extmods/k210/py_kpu.c

    `forward_region_layer` decodes the anchors whose score is above a threshold into the rows of a table, up to the
    row where `row_idx` becomes `max_num`. `do_nms_sort` sorts the rows by their scores and sets those to zero that
    overlap a better one. A row has `crood_num` coordinates, the score and the landmarks; the boxes that are compared
    are the four floats at the start of a row. -/

namespace OpenMV.Driver
open Schemes

/-! ### The code -/

/-- `region_layer_t` as far as it is used here. -/
structure RegionLayer (F : Type) where
  croodNum : ℕ
  landmNum : ℕ
  clsNum : ℕ
  anchor : ℕ → F
  anchorNum : ℕ
  objThresh : F
  nmsThresh : F
  variances : ℕ → F
  bboxInput : ℕ → F
  landmInput : ℕ → F
  clsesInput : ℕ → F

/-- `box_info_t` as far as it is used here. -/
structure BoxInfo (F : Type) where
  maxNum : ℕ
  rowIdx : ℕ
  boxLen : ℕ
  clsNum : ℕ
  croodNum : ℕ
  nmsThresh : F
  box : ℕ → F

section Forward

variable {F : Type} [LinearOrder F] [Zero F] [Add F] [Sub F] [Mul F] [Div F] (expf : F → F)

def softmax (input : ℕ → F) (n : ℕ) : ℕ → F :=
  let largest := (List.range n).foldl (fun largest i => if largest < input i then input i else largest) (input 0)
  let e := fun i => expf (input i - largest)
  let sum := (List.range n).foldl (fun sum i => sum + e i) 0
  fun i => e i / sum

/-- `probs[1]` -/
def posProb (rl : RegionLayer F) (i : ℕ) : F := softmax expf (fun k => rl.clsesInput (i * 2 + k)) 2 1

/-- The floats that are stored for an anchor, by their place in the row. -/
def rowStores (rl : RegionLayer F) (i : ℕ) : List (ℕ × F) :=
  let predBox := fun k => rl.bboxInput (i * rl.croodNum + k)
  let landm := fun k => rl.landmInput (i * rl.landmNum * 2 + k)
  let anc := fun k => rl.anchor (i * rl.croodNum + k)
  [(0, anc 0 + predBox 0 * rl.variances 0 * anc 2),
   (1, anc 1 + predBox 1 * rl.variances 0 * anc 3),
   (2, anc 2 * expf (predBox 2 * rl.variances 1)),
   (3, anc 3 * expf (predBox 3 * rl.variances 1)),
   (4, posProb expf rl i)] ++
  (List.range rl.landmNum).flatMap fun j =>
    [(5 + j * 2, anc 0 + landm (j * 2) * rl.variances 0 * anc 2),
     (6 + j * 2, anc 1 + landm (j * 2 + 1) * rl.variances 0 * anc 3)]

def storeRow (rl : RegionLayer F) (i : ℕ) (bx : BoxInfo F) : BoxInfo F :=
  { bx with
    box := (rowStores expf rl i).foldl (fun box p => Function.update box (bx.rowIdx * bx.boxLen + p.1) p.2) bx.box
    rowIdx := bx.rowIdx + 1 }

/-- The loop, from anchor `i` on, with `n` anchors to go. -/
def forwardFrom (rl : RegionLayer F) : ℕ → ℕ → BoxInfo F → BoxInfo F
  | 0, _, bx => bx
  | n + 1, i, bx =>
    if rl.objThresh < posProb expf rl i then
      let bx := storeRow expf rl i bx
      if bx.rowIdx = bx.maxNum then bx else forwardFrom rl n (i + 1) bx
    else forwardFrom rl n (i + 1) bx

def forwardRegionLayer (rl : RegionLayer F) (bx : BoxInfo F) : BoxInfo F := forwardFrom expf rl rl.anchorNum 0 bx

/-- `boxes_info_init`, with what it returns: `m_malloc` gives `NULL` for no bytes, and raises for too many. -/
def boxesInfoInit (rl : RegionLayer F) (maxNum : ℕ) : ℤ × BoxInfo F :=
  let boxLen := rl.croodNum + 1 + rl.landmNum * 2
  (if boxLen * maxNum = 0 then -1 else 0,
    { maxNum := maxNum
      rowIdx := 0
      boxLen := boxLen
      clsNum := rl.clsNum
      croodNum := rl.croodNum
      nmsThresh := rl.nmsThresh
      box := fun _ => 0 })

end Forward

section Nms

variable {F : Type} [LinearOrder F] [Zero F] (boxIou : (Fin 4 → F) → (Fin 4 → F) → F)

/-- `(box_t *)&box[o]` -/
def boxAt (box : ℕ → F) (o : ℕ) : Fin 4 → F := fun i => box (o + i)

/-- `l` and `r` are the fields `idx`. -/
def nmsComparator (box : ℕ → F) (l r : ℕ) : ℤ := if box l < box r then 1 else if box r < box l then -1 else 0

/-- A round of the inner loop. -/
def suppressBox (len : ℕ) (thresh : F) (k : ℕ) (box : ℕ → F) (q : ℕ) : ℕ → F :=
  if thresh < boxIou (boxAt box (k / len * len)) (boxAt box (q / len * len)) then Function.update box q 0 else box

/-- The outer loop over the sorted indexes. -/
def nmsLoop (len : ℕ) (thresh : F) : List ℕ → (ℕ → F) → ℕ → F
  | [], box => box
  | k :: ks, box =>
    nmsLoop len thresh ks (if box k = 0 then box else ks.foldl (suppressBox boxIou len thresh k) box)

/-- The `idx` of the sorted array, before it is sorted. -/
def sortIdx (bx : BoxInfo F) (i : ℕ) : List ℕ :=
  (List.range bx.rowIdx).map fun j => bx.boxLen * j + bx.croodNum + i

def doNmsSort (qsort : (ℕ → ℕ → ℤ) → List ℕ → List ℕ) (bx : BoxInfo F) : BoxInfo F :=
  { bx with
    box := (List.range bx.clsNum).foldl
      (fun box i => nmsLoop boxIou bx.boxLen bx.nmsThresh (qsort (nmsComparator box) (sortIdx bx i)) box) bx.box }

end Nms

/-! ### What the suppression is for -/

/-- What is known of `qsort`: with a comparator that is an order it sorts. -/
def Sorts (qsort : (ℕ → ℕ → ℤ) → List ℕ → List ℕ) : Prop :=
  ∀ cmp : ℕ → ℕ → ℤ, (∀ a b, 0 < cmp a b ↔ cmp b a < 0) → (∀ a b c, cmp a b ≤ 0 → cmp b c ≤ 0 → cmp a c ≤ 0) →
    ∀ l, (qsort cmp l).Perm l ∧ (qsort cmp l).Pairwise fun a b => cmp a b ≤ 0

section Spec

variable {F : Type} [LinearOrder F] [Zero F]

def BoxInfo.score (bx : BoxInfo F) (j : ℕ) : F := bx.box (bx.boxLen * j + bx.croodNum)

/-- The box of a row. -/
def BoxInfo.boxT (bx : BoxInfo F) (j : ℕ) : Fin 4 → F := boxAt bx.box (bx.boxLen * j)

/-- The rows of `bx'` whose score is not zero are the ones kept of the rows of `bx`. -/
structure NmsRight (boxIou : (Fin 4 → F) → (Fin 4 → F) → F) (bx bx' : BoxInfo F) : Prop where
  apart : ∀ i < bx.rowIdx, ∀ j < bx.rowIdx, i ≠ j → bx'.score i ≠ 0 → bx'.score j ≠ 0 →
    boxIou (bx.boxT i) (bx.boxT j) ≤ bx.nmsThresh
  covered : ∀ i < bx.rowIdx, bx'.score i = 0 → ∃ j < bx.rowIdx, bx'.score j ≠ 0 ∧ bx.score i ≤ bx.score j ∧
    bx.nmsThresh < boxIou (bx.boxT i) (bx.boxT j)
  same : ∃ box, bx' = { bx with box := box } ∧
    ∀ o, box o = bx.box o ∨ box o = 0 ∧ ∃ j < bx.rowIdx, o = bx.boxLen * j + bx.croodNum

end Spec

/-- For tables of a layout, as `boxes_info_init` makes them. -/
def NmsCorrect (croodNum landmNum : ℕ) : Prop :=
  ∀ (F : Type) [LinearOrder F] [Zero F] (qsort : (ℕ → ℕ → ℤ) → List ℕ → List ℕ)
    (boxIou : (Fin 4 → F) → (Fin 4 → F) → F) (bx : BoxInfo F), Sorts qsort → (∀ a b, boxIou a b = boxIou b a) →
    bx.clsNum = 1 → bx.croodNum = croodNum → bx.boxLen = croodNum + 1 + landmNum * 2 →
    (∀ j < bx.rowIdx, 0 < bx.score j) → NmsRight boxIou bx (doNmsSort boxIou qsort bx)

/-! ### The suppression -/

section Loop

variable {F : Type} [LinearOrder F] [Zero F] {boxIou : (Fin 4 → F) → (Fin 4 → F) → F} {len c : ℕ} {thresh : F}
  {box₀ : ℕ → F}

/-- One box excludes another, as the boxes were at first. -/
def Excludes (boxIou : (Fin 4 → F) → (Fin 4 → F) → F) (len : ℕ) (thresh : F) (box₀ : ℕ → F) (k q : ℕ) : Prop :=
  thresh < boxIou (boxAt box₀ (k / len * len)) (boxAt box₀ (q / len * len))

instance : DecidableRel (Excludes boxIou len thresh box₀) := fun _ _ => inferInstanceAs (Decidable (_ < _))

/-- The boxes of the rows whose score is not zero are as they were at first. -/
def Intact (len c : ℕ) (box₀ box : ℕ → F) : Prop :=
  ∀ j, box (len * j + c) ≠ 0 → boxAt box (len * j) = boxAt box₀ (len * j)

omit [LinearOrder F] in
/-- A score of another row is not in the box of a row. -/
theorem Intact.update (hlen : 4 ≤ len + c) (hc : c < len) {box : ℕ → F} (h : Intact len c box₀ box) (j : ℕ) :
    Intact len c box₀ (Function.update box (len * j + c) 0) := by
  intro i hi
  have hij : i ≠ j := by
    rintro rfl
    exact hi (Function.update_self _ _ _)
  have hfar : ∀ k : Fin 4, len * i + k ≠ len * j + c := by
    intro k heq
    have hk := k.isLt
    rcases lt_or_gt_of_ne hij with hlt | hlt
    · have hmul : len * (i + 1) ≤ len * j := Nat.mul_le_mul_left len hlt
      rw [Nat.mul_add, Nat.mul_one] at hmul
      omega
    · have hmul : len * (j + 1) ≤ len * i := Nat.mul_le_mul_left len hlt
      rw [Nat.mul_add, Nat.mul_one] at hmul
      omega
  rw [Function.update_of_ne (by
    intro heq
    exact hij (Nat.eq_of_mul_eq_mul_left (by omega) (Nat.add_right_cancel heq)))] at hi
  rw [← h i hi]
  funext k
  exact Function.update_of_ne (hfar k) _ _

theorem row_of_score (hc : c < len) (j : ℕ) : (len * j + c) / len * len = len * j := by
  rw [Nat.mul_add_div (by omega), Nat.div_eq_of_lt hc, Nat.add_zero, Nat.mul_comm]

/-- What one box does, whose score is not zero, is decided by the boxes as they were at first. -/
theorem foldl_suppressBox (hlen : 4 ≤ len + c) (hc : c < len) (j : ℕ) : ∀ (ks : List ℕ) (box : ℕ → F),
    (∀ q ∈ ks, ∃ i, q = len * i + c) → len * j + c ∉ ks → Intact len c box₀ box → box (len * j + c) ≠ 0 →
    ks.foldl (suppressBox boxIou len thresh (len * j + c)) box =
      ks.foldl (suppress (Excludes boxIou len thresh box₀) (len * j + c)) box ∧
    Intact len c box₀ (ks.foldl (suppress (Excludes boxIou len thresh box₀) (len * j + c)) box)
  | [], _, _, _, h, _ => ⟨rfl, h⟩
  | q :: ks, box, hscores, hnot, h, hj => by
      rw [List.mem_cons, not_or] at hnot
      obtain ⟨i, rfl⟩ := hscores q List.mem_cons_self
      have hstep : suppressBox boxIou len thresh (len * j + c) box (len * i + c) =
          suppress (Excludes boxIou len thresh box₀) (len * j + c) box (len * i + c) := by
        by_cases hi : box (len * i + c) = 0
        · have hsame : Function.update box (len * i + c) 0 = box := by
            rw [← hi]
            exact Function.update_eq_self _ _
          rw [suppressBox, suppress, hsame, ite_self, ite_self]
        · rw [suppressBox, suppress, row_of_score hc, row_of_score hc, h j hj, h i hi]
          refine if_congr ?_ rfl rfl
          rw [Excludes, row_of_score hc, row_of_score hc]
      rw [List.foldl_cons, List.foldl_cons, hstep]
      refine foldl_suppressBox hlen hc j ks _ (fun q hq => hscores q (List.mem_cons_of_mem _ hq)) hnot.2 ?_ ?_
      · rw [suppress]
        split_ifs
        · exact h.update hlen hc i
        · exact h
      · rw [suppress]
        split_ifs
        · rwa [Function.update_of_ne hnot.1]
        · exact hj

theorem nmsLoop_eq (hlen : 4 ≤ len + c) (hc : c < len) : ∀ (ks : List ℕ) (box : ℕ → F),
    (∀ q ∈ ks, ∃ i, q = len * i + c) → ks.Nodup → Intact len c box₀ box →
    nmsLoop boxIou len thresh ks box = suppressAll (Excludes boxIou len thresh box₀) ks box
  | [], _, _, _, _ => rfl
  | k :: ks, box, hscores, hnd, h => by
      rw [List.nodup_cons] at hnd
      rw [List.forall_mem_cons] at hscores
      obtain ⟨⟨j, rfl⟩, hrest⟩ := hscores
      rw [nmsLoop, suppressAll]
      split_ifs with h0
      · exact nmsLoop_eq hlen hc ks box hrest hnd.2 h
      · obtain ⟨heq, hintact⟩ := foldl_suppressBox hlen hc j ks box hrest hnd.1 h h0
        rw [heq]
        exact nmsLoop_eq hlen hc ks _ hrest hnd.2 hintact

end Loop

section Sorted

variable {F : Type} [LinearOrder F] [Zero F]

omit [Zero F] in
theorem nmsComparator_nonpos (box : ℕ → F) (l r : ℕ) : nmsComparator box l r ≤ 0 ↔ box r ≤ box l := by
  unfold nmsComparator
  split_ifs with h1 h2
  · exact iff_of_false (by decide) h1.not_ge
  · exact iff_of_true (by decide) h2.le
  · exact iff_of_true le_rfl (not_lt.1 h1)

omit [Zero F] in
theorem nmsComparator_neg (box : ℕ → F) (l r : ℕ) : 0 < nmsComparator box l r ↔ nmsComparator box r l < 0 := by
  unfold nmsComparator
  rcases lt_trichotomy (box l) (box r) with h | h | h
  · simp [h, h.not_gt]
  · simp [h]
  · simp [h, h.not_gt]

omit [Zero F] in
/-- The scores in the order in which they are gone through. -/
theorem sorted_spec {qsort : (ℕ → ℕ → ℤ) → List ℕ → List ℕ} (hsort : Sorts qsort) (box : ℕ → F) (l : List ℕ) :
    (qsort (nmsComparator box) l).Perm l ∧ (qsort (nmsComparator box) l).Pairwise fun a b => box b ≤ box a := by
  obtain ⟨hperm, hpair⟩ := hsort (nmsComparator box) (nmsComparator_neg box) (fun a b c hab hbc => by
    rw [nmsComparator_nonpos] at hab hbc ⊢
    exact hbc.trans hab) l
  exact ⟨hperm, hpair.imp fun h => (nmsComparator_nonpos box _ _).1 h⟩

/-- If no score of another row is in a box, the suppression is right. -/
theorem doNmsSort_right {qsort : (ℕ → ℕ → ℤ) → List ℕ → List ℕ} (hsort : Sorts qsort)
    {boxIou : (Fin 4 → F) → (Fin 4 → F) → F} (hsymm : ∀ a b, boxIou a b = boxIou b a) {bx : BoxInfo F}
    (hcls : bx.clsNum = 1) (hlen : 4 ≤ bx.boxLen + bx.croodNum) (hc : bx.croodNum < bx.boxLen)
    (hpos : ∀ j < bx.rowIdx, 0 < bx.score j) : NmsRight boxIou bx (doNmsSort boxIou qsort bx) := by
  set order := qsort (nmsComparator bx.box) (sortIdx bx 0) with horder
  obtain ⟨hperm, hsorted⟩ := sorted_spec hsort bx.box (sortIdx bx 0)
  rw [← horder] at hperm hsorted
  have hmem : ∀ q, q ∈ order ↔ ∃ j < bx.rowIdx, bx.boxLen * j + bx.croodNum = q := by
    intro q
    rw [hperm.mem_iff, sortIdx, List.mem_map]
    simp only [List.mem_range, Nat.add_zero]
  have hinj : ∀ i j, bx.boxLen * i + bx.croodNum = bx.boxLen * j + bx.croodNum → i = j := fun i j h =>
    Nat.eq_of_mul_eq_mul_left (by omega) (Nat.add_right_cancel h)
  have hnd : order.Nodup := by
    rw [hperm.nodup_iff, sortIdx]
    exact (List.nodup_map_iff_inj_on List.nodup_range).2 fun i _ j _ h => hinj i j h
  have hrun : doNmsSort boxIou qsort bx = { bx with
      box := suppressAll (Excludes boxIou bx.boxLen bx.nmsThresh bx.box) order bx.box } := by
    rw [doNmsSort, hcls, List.range_one, List.foldl_cons, List.foldl_nil]
    rw [nmsLoop_eq hlen hc _ _ (fun q hq => ?_) hnd fun _ _ => rfl]
    obtain ⟨j, -, hj⟩ := (hmem q).1 hq
    exact ⟨j, hj.symm⟩
  obtain ⟨hvalues, hapart, hcovered⟩ := suppressAll_spec (R := Excludes boxIou bx.boxLen bx.nmsThresh bx.box) bx.box hnd
  have hexcludes : ∀ i j, Excludes boxIou bx.boxLen bx.nmsThresh bx.box (bx.boxLen * i + bx.croodNum)
      (bx.boxLen * j + bx.croodNum) ↔ bx.nmsThresh < boxIou (bx.boxT i) (bx.boxT j) := by
    intro i j
    rw [Excludes, row_of_score hc, row_of_score hc]
    rfl
  rw [hrun]
  refine ⟨fun i hi j hj hij hi0 hj0 => ?_, fun i hi h0 => ?_, ⟨_, rfl, fun o => ?_⟩⟩
  · by_contra hover
    rw [not_le] at hover
    have hsymm' : Std.Symm fun a b =>
        suppressAll (Excludes boxIou bx.boxLen bx.nmsThresh bx.box) order bx.box a ≠ 0 →
          suppressAll (Excludes boxIou bx.boxLen bx.nmsThresh bx.box) order bx.box b ≠ 0 →
            ¬ Excludes boxIou bx.boxLen bx.nmsThresh bx.box a b :=
      ⟨fun a b h hb ha hR => h ha hb (by rwa [Excludes, hsymm])⟩
    exact hapart.forall ((hmem _).2 ⟨i, hi, rfl⟩) ((hmem _).2 ⟨j, hj, rfl⟩) (fun h => hij (hinj i j h)) hi0 hj0
      ((hexcludes i j).2 hover)
  · obtain ⟨p, hp, hp0, hR, hle⟩ := hcovered _ hsorted _ ((hmem _).2 ⟨i, hi, rfl⟩) (hpos i hi).ne' h0
    obtain ⟨j, hj, rfl⟩ := (hmem p).1 hp
    refine ⟨j, hj, hp0, hle, ?_⟩
    rw [hsymm]
    exact (hexcludes j i).1 hR
  · rcases hvalues o with h | ⟨ho, h⟩
    · exact Or.inl h
    · obtain ⟨j, hj, heq⟩ := (hmem o).1 ho
      exact Or.inr ⟨h, j, hj, heq.symm⟩

end Sorted

/-! ### The rows -/

section Rows

variable {F : Type} [LinearOrder F] [Zero F] [Add F] [Sub F] [Mul F] [Div F] (expf : F → F) (rl : RegionLayer F)

theorem rowIdx_le_forwardFrom : ∀ (n i : ℕ) (bx : BoxInfo F), bx.rowIdx ≤ (forwardFrom expf rl n i bx).rowIdx
  | 0, _, _ => le_rfl
  | n + 1, i, bx => by
      rw [forwardFrom]
      dsimp only
      split_ifs
      · exact Nat.le_succ _
      · exact (Nat.le_succ _).trans (rowIdx_le_forwardFrom n (i + 1) (storeRow expf rl i bx))
      · exact rowIdx_le_forwardFrom n (i + 1) bx

theorem forwardFrom_of_room : ∀ (n i : ℕ) (bx : BoxInfo F), bx.rowIdx < bx.maxNum →
    (forwardFrom expf rl n i bx).rowIdx ≤ bx.maxNum
  | 0, _, _, h => h.le
  | n + 1, i, bx, h => by
      rw [forwardFrom]
      dsimp only
      split_ifs with h1 h2
      · exact h2.le
      · exact forwardFrom_of_room n (i + 1) (storeRow expf rl i bx) (lt_of_le_of_ne h h2)
      · exact forwardFrom_of_room n (i + 1) bx h

/-- Without room the table stays as it is only if no anchor is above the threshold. -/
theorem forwardFrom_of_full : ∀ (n i : ℕ) (bx : BoxInfo F), bx.maxNum ≤ bx.rowIdx →
    ((forwardFrom expf rl n i bx).rowIdx ≤ bx.maxNum ↔
      bx.rowIdx = bx.maxNum ∧ ∀ k < n, ¬ rl.objThresh < posProb expf rl (i + k))
  | 0, _, bx, h => by
      rw [forwardFrom]
      constructor
      · exact fun h' => ⟨le_antisymm h' h, fun k hk => absurd hk k.not_lt_zero⟩
      · exact fun h' => h'.1.le
  | n + 1, i, bx, h => by
      rw [forwardFrom]
      dsimp only
      by_cases h1 : rl.objThresh < posProb expf rl i
      · have hrow : bx.maxNum < (storeRow expf rl i bx).rowIdx := Nat.lt_succ_of_le h
        have hne : (storeRow expf rl i bx).rowIdx ≠ (storeRow expf rl i bx).maxNum := hrow.ne'
        rw [if_pos h1, if_neg hne]
        constructor
        · intro hle
          have := rowIdx_le_forwardFrom expf rl n (i + 1) (storeRow expf rl i bx)
          omega
        · exact fun hno => absurd h1 (hno.2 0 n.succ_pos)
      · rw [if_neg h1, forwardFrom_of_full n (i + 1) bx h]
        refine and_congr_right fun _ => ⟨fun hall k hk => ?_, fun hall k hk => ?_⟩
        · rcases k with _ | k
          · exact h1
          · have := hall k (Nat.lt_of_succ_lt_succ hk)
            rwa [Nat.add_right_comm, Nat.add_assoc] at this
        · have := hall (k + 1) (Nat.succ_lt_succ hk)
          rwa [← Nat.add_assoc, Nat.add_right_comm] at this

end Rows

/-! ### Layouts with a score of another row in a box -/

/-- A `qsort`. -/
def insertionQsort (cmp : ℕ → ℕ → ℤ) (l : List ℕ) : List ℕ := l.insertionSort fun a b => cmp a b ≤ 0

theorem sorts_insertionQsort : Sorts insertionQsort := by
  intro cmp hflip htrans l
  have htotal : Std.Total fun a b => cmp a b ≤ 0 := ⟨fun a b => by
    have := hflip a b
    omega⟩
  have htrans' : IsTrans ℕ fun a b => cmp a b ≤ 0 := ⟨htrans⟩
  exact ⟨List.perm_insertionSort _ l, List.pairwise_insertionSort _ l⟩

/-- Three rows with the scores 1, 2 and 3. -/
def threeRows (croodNum landmNum : ℕ) : BoxInfo ℤ :=
  let len := croodNum + 1 + landmNum * 2
  { maxNum := 3
    rowIdx := 3
    boxLen := len
    clsNum := 1
    croodNum := croodNum
    nmsThresh := 0
    box := fun o => if o = croodNum then 1 else if o = len + croodNum then 2 else if o = 2 * len + croodNum then 3
      else 10 + o }

/-- The last box overlaps the second one, and what the first one becomes when the second one is suppressed. -/
def lateIou (bx : BoxInfo ℤ) (a b : Fin 4 → ℤ) : ℤ :=
  let late := boxAt (Function.update bx.box (bx.boxLen + bx.croodNum) 0) 0
  if a = bx.boxT 2 ∧ (b = bx.boxT 1 ∨ b = late) ∨ b = bx.boxT 2 ∧ (a = bx.boxT 1 ∨ a = late) then 1 else 0

theorem lateIou_symm (bx : BoxInfo ℤ) (a b : Fin 4 → ℤ) : lateIou bx a b = lateIou bx b a := by
  unfold lateIou
  exact if_congr Or.comm rfl rfl

/-- The first row is suppressed, and nothing overlaps it. -/
theorem not_nmsCorrect {croodNum landmNum : ℕ} (h : croodNum + landmNum < 2) : ¬ NmsCorrect croodNum landmNum := by
  intro hcorrect
  have hpos : ∀ j < 3, 0 < (threeRows croodNum landmNum).score j ∧
      (doNmsSort (lateIou (threeRows croodNum landmNum)) insertionQsort (threeRows croodNum landmNum)).score 0 = 0 ∧
      ¬ ((doNmsSort (lateIou (threeRows croodNum landmNum)) insertionQsort
          (threeRows croodNum landmNum)).score j ≠ 0 ∧
        0 < lateIou (threeRows croodNum landmNum) ((threeRows croodNum landmNum).boxT 0)
          ((threeRows croodNum landmNum).boxT j)) := by
    obtain ⟨rfl, rfl⟩ | ⟨rfl, rfl⟩ | ⟨rfl, rfl⟩ : croodNum = 0 ∧ landmNum = 0 ∨ croodNum = 1 ∧ landmNum = 0 ∨
        croodNum = 0 ∧ landmNum = 1 := by omega
    · decide
    · decide
    · decide
  obtain ⟨-, hcovered, -⟩ := hcorrect ℤ insertionQsort (lateIou (threeRows croodNum landmNum))
    (threeRows croodNum landmNum) sorts_insertionQsort (lateIou_symm _) rfl rfl rfl fun j hj => (hpos j hj).1
  obtain ⟨j, hj, hleft, -, hover⟩ := hcovered 0 (show 0 < 3 by decide) (hpos 0 (by decide)).2.1
  exact (hpos j hj).2.2 ⟨hleft, hover⟩

/-- The suppression is right for the layouts where a box has no score of another row in it; and there are never more
    rows than `max_num` just if there is room for a row before the first, or nothing to store. -/
theorem region_layer_iff (croodNum landmNum : ℕ) {F : Type} [LinearOrder F] [Zero F] [Add F] [Sub F] [Mul F] [Div F]
    (expf : F → F) (rl : RegionLayer F) (bx : BoxInfo F) :
    (NmsCorrect croodNum landmNum ↔ 2 ≤ croodNum + landmNum) ∧
    ((forwardRegionLayer expf rl bx).rowIdx ≤ bx.maxNum ↔
      bx.rowIdx < bx.maxNum ∨ bx.rowIdx = bx.maxNum ∧ ∀ i < rl.anchorNum, ¬ rl.objThresh < posProb expf rl i) := by
  refine ⟨⟨fun h => ?_, ?_⟩, ?_⟩
  · by_contra hfew
    exact not_nmsCorrect (by omega) h
  · intro hlayout F _ _ qsort boxIou bx hsort hsymm hcls hcrood hlen hpos
    exact doNmsSort_right hsort hsymm hcls (by omega) (by omega) hpos
  · rcases lt_or_ge bx.rowIdx bx.maxNum with hroom | hfull
    · exact iff_of_true (forwardFrom_of_room expf rl _ _ bx hroom) (Or.inl hroom)
    · rw [forwardRegionLayer, forwardFrom_of_full expf rl _ _ bx hfull, or_iff_right hfull.not_gt]
      simp only [Nat.zero_add]

/-- A single anchor, whose probability is one half. -/
def oneAnchor : RegionLayer ℚ :=
  { croodNum := 4
    landmNum := 5
    clsNum := 1
    anchor := fun _ => 0
    anchorNum := 1
    objThresh := 1 / 4
    nmsThresh := 1 / 4
    variances := fun _ => 0
    bboxInput := fun _ => 0
    landmInput := fun _ => 0
    clsesInput := fun _ => 0 }

/-- A table for no rows is a null pointer, and a row is stored there. -/
theorem region_layer_no_room : (boxesInfoInit oneAnchor 0).1 = -1 ∧ (boxesInfoInit oneAnchor 0).2.maxNum = 0 ∧
    (forwardRegionLayer (fun _ => 1) oneAnchor (boxesInfoInit oneAnchor 0).2).rowIdx = 1 := by
  have hprob : posProb (fun _ => 1) oneAnchor 0 = 1 / 2 := by
    norm_num [posProb, softmax, List.range_succ]
  refine ⟨rfl, rfl, ?_⟩
  have hpass : oneAnchor.objThresh < posProb (fun _ => 1) oneAnchor 0 := by
    rw [hprob]
    norm_num [oneAnchor]
  rw [forwardRegionLayer, show oneAnchor.anchorNum = 0 + 1 from rfl, forwardFrom, if_pos hpass]
  rfl

end OpenMV.Driver
