import OpenMV.Filters.Kernel
import OpenMV.Schemes.Batch
import Mathlib.Algebra.BigOperators.Ring.Finset
import Mathlib.Algebra.Order.BigOperators.Group.Finset
import Mathlib.Tactic.Linarith

/-! Structural similarity | scheme:fold | source:src/src/openmv/omv/img/stats.c

    `imlib_get_similarity` compares two images in blocks of 8 by 8 pixels. It gets the lines one after the other
    and keeps five sums for each column of blocks; after every eighth line, and after the last, it makes the
    scores of a row of blocks of them. -/

namespace OpenMV.Vision
open Schemes

/-! ### The code -/

/-- The five arrays of buckets. -/
inductive Buckets where
  | sumBucketsOfX
  | sumBucketsOfY
  | sum2BucketsOfX
  | sum2BucketsOfY
  | sum2Buckets
deriving DecidableEq, Repr

/-- What is added to each of them. -/
def Buckets.term : Buckets → ℤ → ℤ → ℤ
  | .sumBucketsOfX, pixel, _ => pixel
  | .sumBucketsOfY, _, otherPixel => otherPixel
  | .sum2BucketsOfX, pixel, _ => pixel * pixel
  | .sum2BucketsOfY, _, otherPixel => otherPixel * otherPixel
  | .sum2Buckets, pixel, otherPixel => pixel * otherPixel

/-- `toL` is `COLOR_RGB565_TO_L`. -/
def similarityPixel (toL : ℤ → ℤ) (img : Image) (x y : ℤ) : ℤ :=
  match img.bpp with
  | .rgb565 => toL (imageGetRgb565Pixel img x y)
  | .binary | .grayscale | .bayer | .jpeg => img.pixel x y

/-- What the score of a block is computed from. -/
structure Block where
  size : ℤ
  sums : Buckets → ℤ

structure SimilarityState where
  buckets : ℕ → Buckets → ℤ
  blocks : List Block
  linesProcessed : ℕ

def addPixel (s : Buckets → ℤ) (pixel otherPixel : ℤ) : Buckets → ℤ :=
  fun b => int32 (s b + b.term pixel otherPixel)

section Code

variable (P Q : ℤ → ℤ → ℤ) (w h : ℤ)

/-- `(img->w + 7) / 8`. -/
def hBlocks : ℕ := ((w + 7) / 8).toNat

/-- The loops over a line. `P` and `Q` are the pixels of the two images. -/
def addLine (buckets : ℕ → Buckets → ℤ) (line : ℕ) : ℕ → Buckets → ℤ :=
  (List.range (hBlocks w)).foldl (fun buckets (x : ℕ) =>
    (List.range (min (w - x * 8) 8).toNat).foldl (fun buckets (i : ℕ) =>
      Function.update buckets x (addPixel (buckets x) (P (x + i) line) (Q (x + i) line))) buckets) buckets

/-- The loop over the buckets: the scores, and zeros in the buckets. -/
def makeScores (lines : ℕ) (buckets : ℕ → Buckets → ℤ) (blocks : List Block) :
    (ℕ → Buckets → ℤ) × List Block :=
  (List.range (hBlocks w)).foldl (fun (r : (ℕ → Buckets → ℤ) × List Block) (x : ℕ) =>
    (Function.update r.1 x fun _ => 0,
      r.2 ++ [⟨min (w - x * 8) 8 * min (h - (lines / 8 * 8 : ℕ)) 8, r.1 x⟩])) (buckets, blocks)

/-- `imlib_similarity_line_op`. -/
def similarityLineOp (s : SimilarityState) (line : ℕ) : SimilarityState :=
  let buckets := addLine P Q w s.buckets line
  if (s.linesProcessed : ℤ) + 1 = h ∨ (s.linesProcessed + 1) % 8 = 0 then
    let r := makeScores w h s.linesProcessed buckets s.blocks
    ⟨r.1, r.2, s.linesProcessed + 1⟩
  else ⟨buckets, s.blocks, s.linesProcessed + 1⟩

end Code

/-- The scores of `imlib_get_similarity`, when `imlib_image_operation` goes over the lines in some order. -/
def similarityBlocks (toL : ℤ → ℤ) (img other : Image) (line : ℕ → ℕ) : List Block :=
  (((List.range img.h.toNat).map line).foldl
    (similarityLineOp (similarityPixel toL img) (similarityPixel toL other) img.w img.h)
    ⟨fun _ _ => 0, [], 0⟩).blocks

/-! ### The blocks -/

/-- A sum over `cols` columns from `x₀` on of a line. -/
def lineSum (P Q : ℤ → ℤ → ℤ) (b : Buckets) (x₀ cols line : ℕ) : ℤ :=
  ∑ j ∈ Finset.range cols, b.term (P (x₀ + j) line) (Q (x₀ + j) line)

/-- The sums over the pixels of a block, and their number. -/
def blockAt (P Q : ℤ → ℤ → ℤ) (w h bx by' : ℕ) : Block where
  size := ((Finset.range (min (w - 8 * bx) 8) ×ˢ Finset.range (min (h - 8 * by') 8)).card : ℕ)
  sums b := ∑ i ∈ Finset.range (min (h - 8 * by') 8), lineSum P Q b (8 * bx) (min (w - 8 * bx) 8) (8 * by' + i)

/-- The blocks of an image, row by row. -/
def imageBlocks (P Q : ℤ → ℤ → ℤ) (w h : ℕ) : List Block :=
  (List.range ((h + 7) / 8)).flatMap fun by' => (List.range ((w + 7) / 8)).map fun bx => blockAt P Q w h bx by'

/-! ### A line -/

section Line

variable {σ : Type}

theorem foldl_update_same (g : σ → ℕ → σ) (x : ℕ) : ∀ (l : List ℕ) (f : ℕ → σ),
    l.foldl (fun f i => Function.update f x (g (f x) i)) f = Function.update f x (l.foldl g (f x))
  | [], f => (Function.update_eq_self x f).symm
  | i :: l, f => by
      rw [List.foldl_cons, foldl_update_same g x l, Function.update_self, Function.update_idem, List.foldl_cons]

theorem foldl_update_range (g : ℕ → σ → σ) (f : ℕ → σ) : ∀ n,
    (List.range n).foldl (fun f x => Function.update f x (g x (f x))) f = fun x => if x < n then g x (f x) else f x
  | 0 => by simp
  | n + 1 => by
      rw [List.range_succ, List.foldl_append, foldl_update_range g f n, List.foldl_cons, List.foldl_nil]
      funext x
      dsimp only
      rcases Nat.lt_trichotomy x n with hx | rfl | hx
      · rw [Function.update_of_ne hx.ne, if_pos hx, if_pos (by omega)]
      · rw [Function.update_self, if_neg (lt_irrefl x), if_pos (by omega)]
      · rw [Function.update_of_ne hx.ne', if_neg (by omega), if_neg (by omega)]

theorem foldl_addPixel (p q : ℕ → ℤ) (t : Buckets → ℤ) : ∀ n,
    (List.range n).foldl (fun s i => addPixel s (p i) (q i)) (fun b => int32 (t b)) =
      fun b => int32 (t b + ∑ j ∈ Finset.range n, b.term (p j) (q j))
  | 0 => by simp
  | n + 1 => by
      rw [List.range_succ, List.foldl_append, foldl_addPixel p q t n, List.foldl_cons, List.foldl_nil]
      funext b
      rw [addPixel, int32_add_left, Finset.sum_range_succ, add_assoc]

variable (P Q : ℤ → ℤ → ℤ) (w : ℕ)

theorem hBlocks_natCast : hBlocks w = (w + 7) / 8 := by
  unfold hBlocks
  omega

theorem cols_natCast (x : ℕ) : (min ((w : ℤ) - x * 8) 8).toNat = min (w - 8 * x) 8 := by omega

/-- Each bucket is filled on its own. -/
theorem addLine_apply (t : ℕ → Buckets → ℤ) (line : ℕ) :
    addLine P Q w t line = fun x => if x < hBlocks w then
      (List.range (min (w - 8 * x) 8)).foldl (fun s (i : ℕ) => addPixel s (P (x + i) line) (Q (x + i) line)) (t x)
      else t x := by
  have hblock : (fun (buckets : ℕ → Buckets → ℤ) (x : ℕ) => (List.range (min ((w : ℤ) - x * 8) 8).toNat).foldl
      (fun buckets (i : ℕ) => Function.update buckets x (addPixel (buckets x) (P (x + i) line) (Q (x + i) line)))
      buckets) = fun buckets x => Function.update buckets x ((List.range (min (w - 8 * x) 8)).foldl
        (fun s (i : ℕ) => addPixel s (P (x + i) line) (Q (x + i) line)) (buckets x)) := by
    funext buckets x
    rw [cols_natCast]
    exact foldl_update_same (fun s (i : ℕ) => addPixel s (P (x + i) line) (Q (x + i) line)) x _ buckets
  rw [addLine, hblock, foldl_update_range fun x s => (List.range (min (w - 8 * x) 8)).foldl
    (fun s (i : ℕ) => addPixel s (P (x + i) line) (Q (x + i) line)) s]

/-- A line adds its own sums to the buckets. -/
theorem addLine_eq (t : ℕ → Buckets → ℤ) (line : ℕ) :
    addLine P Q w (fun x b => if x < hBlocks w then int32 (t x b) else 0) line =
      fun x b => if x < hBlocks w then int32 (t x b + lineSum P Q b x (min (w - 8 * x) 8) line) else 0 := by
  rw [addLine_apply]
  funext x
  by_cases hx : x < hBlocks w
  · simp only [if_pos hx]
    exact foldl_addPixel (fun (i : ℕ) => P (x + i) line) (fun (i : ℕ) => Q (x + i) line) (t x) _
  · simp only [if_neg hx]

variable (h : ℕ)

/-- A row of blocks is made of the buckets, and they are cleared. -/
theorem makeScores_eq (lines : ℕ) (buckets : ℕ → Buckets → ℤ) (blocks : List Block) :
    makeScores w h lines buckets blocks =
      (fun x => if x < hBlocks w then fun _ => 0 else buckets x,
        blocks ++ (List.range (hBlocks w)).map fun (x : ℕ) =>
          ⟨min ((w : ℤ) - x * 8) 8 * min ((h : ℤ) - (lines / 8 * 8 : ℕ)) 8, buckets x⟩) := by
  have hrun : ∀ n, (List.range n).foldl (fun (r : (ℕ → Buckets → ℤ) × List Block) (x : ℕ) =>
      (Function.update r.1 x fun _ => 0,
        r.2 ++ [⟨min ((w : ℤ) - x * 8) 8 * min ((h : ℤ) - (lines / 8 * 8 : ℕ)) 8, r.1 x⟩])) (buckets, blocks) =
      (fun x => if x < n then fun _ => 0 else buckets x, blocks ++ (List.range n).map fun (x : ℕ) =>
        ⟨min ((w : ℤ) - x * 8) 8 * min ((h : ℤ) - (lines / 8 * 8 : ℕ)) 8, buckets x⟩) := by
    intro n
    induction n with
    | zero => simp
    | succ n ih =>
      rw [List.range_succ, List.foldl_append, ih, List.foldl_cons, List.foldl_nil, List.map_append,
        List.map_singleton, ← List.append_assoc]
      refine Prod.ext ?_ ?_
      · funext x
        dsimp only
        rcases Nat.lt_trichotomy x n with hx | rfl | hx
        · rw [Function.update_of_ne hx.ne, if_pos hx, if_pos (by omega)]
        · rw [Function.update_self, if_pos (by omega)]
        · rw [Function.update_of_ne hx.ne', if_neg (by omega), if_neg (by omega)]
      · simp only [if_neg (lt_irrefl n)]
  exact hrun _

end Line

/-! ### All lines -/

section Run

variable (P Q : ℤ → ℤ → ℤ) (w h : ℕ)

/-- The lines come in batches of eight. -/
def lineBatches : Batches (ℕ → Buckets → ℤ) ℕ Block where
  m := 8
  h := h
  add := addLine P Q w
  clear buckets := fun x => if x < hBlocks w then fun _ => 0 else buckets x
  hand g buckets := (List.range (hBlocks w)).map fun (x : ℕ) =>
    ⟨min ((w : ℤ) - x * 8) 8 * min ((h : ℤ) - (g * 8 : ℕ)) 8, buckets x⟩

theorem foldl_similarityLineOp : ∀ (lines : List ℕ) (s : SimilarityState),
    (lines.foldl (similarityLineOp P Q w h) s).blocks =
      (lines.foldl (lineBatches P Q w h).step ⟨s.buckets, s.blocks, s.linesProcessed⟩).out
  | [], _ => rfl
  | line :: lines, s => by
      rw [List.foldl_cons, List.foldl_cons, foldl_similarityLineOp lines]
      congr 1
      congr 1
      rw [similarityLineOp, Batches.step]
      have hiff : ((s.linesProcessed : ℤ) + 1 = h ∨ (s.linesProcessed + 1) % 8 = 0) ↔
          s.linesProcessed + 1 = (lineBatches P Q w h).h ∨ (s.linesProcessed + 1) % (lineBatches P Q w h).m = 0 := by
        rw [show (lineBatches P Q w h).h = h from rfl, show (lineBatches P Q w h).m = 8 from rfl]
        omega
      by_cases hend : (s.linesProcessed : ℤ) + 1 = h ∨ (s.linesProcessed + 1) % 8 = 0
      · rw [if_pos hend, if_pos (hiff.mp hend), makeScores_eq]
        rfl
      · rw [if_neg hend, if_neg fun hend' => hend (hiff.mpr hend')]
        rfl

/-- What a batch of lines leaves in the buckets. -/
theorem batch_eq (line : ℕ → ℕ) (g : ℕ) : ∀ n, (lineBatches P Q w h).batch (fun _ _ => 0) line g n =
    fun x b => if x < hBlocks w then
      int32 (∑ i ∈ Finset.range n, lineSum P Q b x (min (w - 8 * x) 8) (line (8 * g + i))) else 0
  | 0 => by
      funext x b
      simp [Batches.batch, int32]
  | n + 1 => by
      rw [Batches.batch_succ, batch_eq line g n]
      have hline : line (g * (lineBatches P Q w h).m + n) = line (8 * g + n) := by
        rw [show (lineBatches P Q w h).m = 8 from rfl, mul_comm]
      rw [hline]
      refine (addLine_eq P Q w _ _).trans ?_
      funext x b
      rw [Finset.sum_range_succ]

/-- What the scores of a block are made of: the lines of its batch, from column `bx` on. -/
def passedBlock (line : ℕ → ℕ) (bx by' : ℕ) : Block where
  size := (blockAt P Q w h bx by').size
  sums b := ∑ i ∈ Finset.range (min (h - 8 * by') 8), lineSum P Q b bx (min (w - 8 * bx) 8) (line (8 * by' + i))

theorem size_blockAt {bx by' : ℕ} (hx : bx < (w + 7) / 8) (hy : by' < (h + 7) / 8) :
    (blockAt P Q w h bx by').size = min ((w : ℤ) - bx * 8) 8 * min ((h : ℤ) - (by' * 8 : ℕ)) 8 := by
  have hcols : ((min (w - 8 * bx) 8 : ℕ) : ℤ) = min ((w : ℤ) - bx * 8) 8 := by omega
  have hrows : ((min (h - 8 * by') 8 : ℕ) : ℤ) = min ((h : ℤ) - (by' * 8 : ℕ)) 8 := by omega
  simp only [blockAt, Finset.card_product, Finset.card_range, Nat.cast_mul, hcols, hrows]

variable {P Q w h}

theorem sum_range_mem {c : ℤ} {f : ℕ → ℤ} {n : ℕ} (hn : n ≤ 8) (hc : 0 ≤ c) (hf : ∀ i, -c ≤ f i ∧ f i ≤ c) :
    -(8 * c) ≤ ∑ i ∈ Finset.range n, f i ∧ ∑ i ∈ Finset.range n, f i ≤ 8 * c := by
  have hlow := Finset.card_nsmul_le_sum (Finset.range n) f (-c) fun i _ => (hf i).1
  have hhigh := Finset.sum_le_card_nsmul (Finset.range n) f c fun i _ => (hf i).2
  rw [Finset.card_range, nsmul_eq_mul] at hlow hhigh
  have hle : (n : ℤ) * c ≤ 8 * c := mul_le_mul_of_nonneg_right (by omega) hc
  rw [mul_neg] at hlow
  constructor <;> linarith

/-- No sum of a block gets too large for an `int`. -/
theorem int32_passed (hP : ∀ x y, -128 ≤ P x y ∧ P x y ≤ 255) (hQ : ∀ x y, -128 ≤ Q x y ∧ Q x y ≤ 255)
    (b : Buckets) (line : ℕ → ℕ) (bx by' : ℕ) : int32 ((passedBlock P Q w h line bx by').sums b) =
      (passedBlock P Q w h line bx by').sums b := by
  have hterm : ∀ x y, -65025 ≤ b.term (P x y) (Q x y) ∧ b.term (P x y) (Q x y) ≤ 65025 := by
    intro x y
    obtain ⟨hp1, hp2⟩ := hP x y
    obtain ⟨hq1, hq2⟩ := hQ x y
    cases b <;> simp only [Buckets.term]
    · omega
    · omega
    · constructor <;> nlinarith
    · constructor <;> nlinarith
    · constructor <;> nlinarith
  have hline : ∀ l, -(8 * 65025) ≤ lineSum P Q b bx (min (w - 8 * bx) 8) l ∧
      lineSum P Q b bx (min (w - 8 * bx) 8) l ≤ 8 * 65025 := fun l =>
    sum_range_mem (min_le_right _ _) (by norm_num) fun j => hterm _ _
  obtain ⟨hlow, hhigh⟩ := sum_range_mem (f := fun i => lineSum P Q b bx (min (w - 8 * bx) 8) (line (8 * by' + i)))
    (min_le_right (h - 8 * by') 8) (by norm_num) fun i => hline _
  have hsum : (passedBlock P Q w h line bx by').sums b = ∑ i ∈ Finset.range (min (h - 8 * by') 8),
      lineSum P Q b bx (min (w - 8 * bx) 8) (line (8 * by' + i)) := rfl
  rw [hsum]
  exact int32_of_mem (by linarith) (by linarith)

/-- All blocks, with the lines in the order they come. -/
theorem passed_blocks (hP : ∀ x y, -128 ≤ P x y ∧ P x y ≤ 255) (hQ : ∀ x y, -128 ≤ Q x y ∧ Q x y ≤ 255)
    (line : ℕ → ℕ) :
    (((List.range h).map line).foldl (similarityLineOp P Q w h) ⟨fun _ _ => 0, [], 0⟩).blocks =
      (List.range ((h + 7) / 8)).flatMap fun by' => (List.range ((w + 7) / 8)).map fun bx =>
        passedBlock P Q w h line bx by' := by
  rw [foldl_similarityLineOp]
  refine (Batches.run_out (B := lineBatches P Q w h) (show 0 < 8 by decide)
    (fun t => ∀ x, hBlocks w ≤ x → t x = fun _ => 0) (fun _ _ => rfl) ?_ ?_).trans ?_
  · intro t line ht x hx
    have hx' : ¬x < hBlocks w := Nat.not_lt.mpr hx
    exact (congrFun (addLine_apply P Q w t line) x).trans ((if_neg hx').trans (ht x hx))
  · intro t ht
    funext x
    by_cases hx : x < hBlocks w
    · exact if_pos hx
    · exact (if_neg hx).trans (ht x (Nat.le_of_not_lt hx))
  · rw [Batches.handed, show (lineBatches P Q w h).h + ((lineBatches P Q w h).m - 1) = h + 7 from rfl]
    refine List.flatMap_congr fun by' hby => ?_
    rw [batch_eq]
    refine (congrArg (List.map _) (congrArg List.range (hBlocks_natCast w))).trans ?_
    refine List.map_congr_left fun bx hbx => ?_
    have hbx' := List.mem_range.mp hbx
    have hrows : min ((lineBatches P Q w h).h - by' * (lineBatches P Q w h).m) (lineBatches P Q w h).m =
        min (h - 8 * by') 8 := by
      rw [show (lineBatches P Q w h).h = h from rfl, show (lineBatches P Q w h).m = 8 from rfl, mul_comm]
    rw [hrows, ← size_blockAt P Q w h hbx' (List.mem_range.mp hby)]
    simp only [if_pos (show bx < hBlocks w from (hBlocks_natCast w).symm ▸ hbx')]
    rw [passedBlock]
    congr 1
    funext b
    exact int32_passed hP hQ b line bx by'

end Run

/-- Two lists of rows are equal when each block is. -/
theorem flatMap_range_eq_iff {f g : ℕ → ℕ → Block} {n : ℕ} : ∀ {m : ℕ},
    ((List.range m).flatMap fun y => (List.range n).map (f y)) =
      ((List.range m).flatMap fun y => (List.range n).map (g y)) ↔
      ∀ y < m, ∀ x < n, f y x = g y x
  | 0 => by simp
  | m + 1 => by
      have hrow : (List.range n).map (f m) = (List.range n).map (g m) ↔ ∀ x < n, f m x = g m x := by
        simp [List.map_inj_left]
      simp only [List.range_succ, List.flatMap_append, List.flatMap_singleton]
      constructor
      · intro h
        obtain ⟨h1, h2⟩ := List.append_inj' h (by simp)
        intro y hy
        rcases Nat.lt_succ_iff_lt_or_eq.mp hy with hy | rfl
        · exact flatMap_range_eq_iff.mp h1 y hy
        · exact hrow.mp h2
      · intro h
        rw [flatMap_range_eq_iff.mpr fun y hy => h y (by omega), hrow.mpr (h m (by omega))]

/-! ### When they are the blocks of the image -/

section Images

variable {toL : ℤ → ℤ} (hL : ∀ p, -128 ≤ toL p ∧ toL p ≤ 127)

include hL in
theorem similarityPixel_mem (img : Image) (x y : ℤ) :
    -128 ≤ similarityPixel toL img x y ∧ similarityPixel toL img x y ≤ 255 := by
  have hpixel := Filters.pixel_mem img x y
  unfold similarityPixel
  cases hb : img.bpp <;> simp only [hb, Filters.levels] at hpixel ⊢
  case rgb565 =>
    obtain ⟨h1, h2⟩ := hL (imageGetRgb565Pixel img x y)
    omega
  all_goals omega

variable {w h : ℕ} {line : ℕ → ℕ}

include hL in
/-- The blocks are right when the columns that are added have the sums of the columns of the block. -/
theorem similarityBlocks_eq_iff {img other : Image} (hw : img.w = w) (hh : img.h = h) :
    similarityBlocks toL img other line = imageBlocks (similarityPixel toL img) (similarityPixel toL other) w h ↔
      ∀ by' < (h + 7) / 8, ∀ bx < (w + 7) / 8, ∀ b,
        (passedBlock (similarityPixel toL img) (similarityPixel toL other) w h line bx by').sums b =
          (blockAt (similarityPixel toL img) (similarityPixel toL other) w h bx by').sums b := by
  rw [similarityBlocks, hw, hh, Int.toNat_natCast, imageBlocks,
    passed_blocks (similarityPixel_mem hL img) (similarityPixel_mem hL other), flatMap_range_eq_iff]
  refine forall₂_congr fun by' _ => forall₂_congr fun bx _ => ?_
  constructor
  · intro heq b
    rw [heq]
  · intro hsums
    exact congrArg₂ Block.mk rfl (funext hsums)

/-! ### The order of the lines -/

/-- Lines that stay in their batch are added in some order. -/
theorem sum_batch (hline : ∀ k < h, line k < h) (hinj : ∀ k < h, ∀ l < h, line k = line l → k = l)
    (horder : ∀ k < h, line k / 8 = k / 8) (f : ℕ → ℤ) (g : ℕ) :
    ∑ i ∈ Finset.range (min (h - 8 * g) 8), f (line (8 * g + i)) =
      ∑ i ∈ Finset.range (min (h - 8 * g) 8), f (8 * g + i) := by
  have hmem : ∀ i ∈ Finset.range (min (h - 8 * g) 8), 8 * g ≤ line (8 * g + i) ∧
      line (8 * g + i) - 8 * g ∈ Finset.range (min (h - 8 * g) 8) := by
    intro i hi
    have hi' := Finset.mem_range.mp hi
    have h1 := hline (8 * g + i) (by omega)
    have h2 := horder (8 * g + i) (by omega)
    exact ⟨by omega, Finset.mem_range.mpr (by omega)⟩
  have hinjOn : ∀ i ∈ Finset.range (min (h - 8 * g) 8), ∀ j ∈ Finset.range (min (h - 8 * g) 8),
      line (8 * g + i) - 8 * g = line (8 * g + j) - 8 * g → i = j := by
    intro i hi j hj hij
    have hi' := Finset.mem_range.mp hi
    have hj' := Finset.mem_range.mp hj
    have hgi := (hmem i hi).1
    have hgj := (hmem j hj).1
    have := hinj (8 * g + i) (by omega) (8 * g + j) (by omega) (by omega)
    omega
  have himage : (Finset.range (min (h - 8 * g) 8)).image (fun i => line (8 * g + i) - 8 * g) =
      Finset.range (min (h - 8 * g) 8) := by
    refine Finset.eq_of_subset_of_card_le (Finset.image_subset_iff.mpr fun i hi => (hmem i hi).2) ?_
    rw [Finset.card_image_of_injOn hinjOn]
  conv_rhs => rw [← himage]
  rw [Finset.sum_image hinjOn]
  refine Finset.sum_congr rfl fun i hi => ?_
  rw [Nat.add_sub_cancel' (hmem i hi).1]

/-! ### Contents that tell the columns and the lines apart -/

/-- The storage unit of a light pixel. -/
def lightUnit : Bpp → ℕ
  | .rgb565 => 65535
  | .binary | .grayscale | .bayer | .jpeg => 1

/-- An image that is light where `p` says so, and dark elsewhere. -/
def litImage (w h : ℕ) (bpp : Bpp) (p : ℤ → ℤ → Bool) : Image :=
  ⟨w, h, bpp, fun x y => if p x y then lightUnit bpp else 0⟩

theorem exists_litImage_pixel {bpp : Bpp} (hbpp : bpp = .binary ∨ bpp = .grayscale ∨ bpp = .rgb565)
    (hne : toL 0 ≠ toL 65535) : ∃ dark light, dark ≠ light ∧ ∀ (p : ℤ → ℤ → Bool) x y,
      similarityPixel toL (litImage w h bpp p) x y = if p x y then light else dark := by
  rcases hbpp with rfl | rfl | rfl
  · refine ⟨0, 1, by decide, fun p x y => ?_⟩
    cases hp : p x y <;> simp [similarityPixel, litImage, Image.pixel, imageGetBinaryPixel, lightUnit, hp]
  · refine ⟨0, 1, by decide, fun p x y => ?_⟩
    cases hp : p x y <;> simp [similarityPixel, litImage, Image.pixel, imageGetGrayscalePixel, lightUnit, hp]
  · refine ⟨toL 0, toL 65535, hne, fun p x y => ?_⟩
    cases hp : p x y <;> simp [similarityPixel, litImage, imageGetRgb565Pixel, lightUnit, hp]

/-- How many pixels of some columns of some lines are light. -/
def lit (p : ℤ → ℤ → Bool) (x₀ cols rows : ℕ) (l : ℕ → ℕ) : ℕ :=
  ∑ i ∈ Finset.range rows, ∑ j ∈ Finset.range cols, if p (x₀ + j) (l i) then 1 else 0

theorem sum_lit {P : ℤ → ℤ → ℤ} {p : ℤ → ℤ → Bool} {dark light : ℤ} (hP : ∀ x y, P x y = if p x y then light else dark)
    (Q : ℤ → ℤ → ℤ) (x₀ cols rows : ℕ) (l : ℕ → ℕ) :
    ∑ i ∈ Finset.range rows, lineSum P Q .sumBucketsOfX x₀ cols (l i) =
      rows * (cols * dark) + (light - dark) * lit p x₀ cols rows l := by
  have hline : ∀ i, lineSum P Q .sumBucketsOfX x₀ cols (l i) = cols * dark + (light - dark) *
      ((∑ j ∈ Finset.range cols, if p (x₀ + j) (l i) then 1 else 0 : ℕ) : ℤ) := by
    intro i
    have hterm : ∀ j, P (x₀ + j) (l i) = dark + (light - dark) * ((if p (x₀ + j) (l i) then 1 else 0 : ℕ) : ℤ) := by
      intro j
      rw [hP]
      split_ifs <;> simp
    simp only [lineSum, Buckets.term]
    rw [Finset.sum_congr rfl fun (j : ℕ) _ => hterm j, Finset.sum_add_distrib, ← Finset.mul_sum]
    simp
  rw [Finset.sum_congr rfl fun i _ => hline i, Finset.sum_add_distrib, Finset.sum_const, Finset.card_range,
    nsmul_eq_mul, lit, Nat.cast_sum, Finset.mul_sum]

theorem lit_pos {p : ℤ → ℤ → Bool} {x₀ cols rows : ℕ} {l : ℕ → ℕ} {i j : ℕ} (hi : i < rows) (hj : j < cols)
    (hp : p (x₀ + j) (l i) = true) : 0 < lit p x₀ cols rows l := by
  have hline : 0 < ∑ j ∈ Finset.range cols, if p (x₀ + j) (l i) then 1 else 0 :=
    Finset.sum_pos' (fun _ _ => Nat.zero_le _) ⟨j, Finset.mem_range.mpr hj, by rw [if_pos hp]; exact one_pos⟩
  exact Finset.sum_pos' (fun _ _ => Nat.zero_le _) ⟨i, Finset.mem_range.mpr hi, hline⟩

theorem lit_eq_zero {p : ℤ → ℤ → Bool} {x₀ cols rows : ℕ} {l : ℕ → ℕ}
    (hp : ∀ i < rows, ∀ j < cols, p (x₀ + j) (l i) = false) : lit p x₀ cols rows l = 0 :=
  Finset.sum_eq_zero fun i hi => Finset.sum_eq_zero fun j hj => by
    rw [hp i (Finset.mem_range.mp hi) j (Finset.mem_range.mp hj), if_neg Bool.false_ne_true]

include hL in
/-- When the blocks are right for every content, as many pixels are light in the added columns as in the block. -/
theorem lit_eq_of_forall {bpp : Bpp} (hbpp : bpp = .binary ∨ bpp = .grayscale ∨ bpp = .rgb565)
    (hne : toL 0 ≠ toL 65535)
    (hall : ∀ data data' : ℤ → ℤ → ℕ, similarityBlocks toL ⟨w, h, bpp, data⟩ ⟨w, h, bpp, data'⟩ line =
      imageBlocks (similarityPixel toL ⟨w, h, bpp, data⟩) (similarityPixel toL ⟨w, h, bpp, data'⟩) w h)
    (p : ℤ → ℤ → Bool) {bx by' : ℕ} (hx : bx < (w + 7) / 8) (hy : by' < (h + 7) / 8) :
    lit p bx (min (w - 8 * bx) 8) (min (h - 8 * by') 8) (fun i => line (8 * by' + i)) =
      lit p (8 * bx) (min (w - 8 * bx) 8) (min (h - 8 * by') 8) fun i => 8 * by' + i := by
  obtain ⟨dark, light, hdl, hpix⟩ := exists_litImage_pixel (w := w) (h := h) hbpp hne
  have hblocks := (similarityBlocks_eq_iff hL (show (litImage w h bpp p).w = w from rfl)
    (show (litImage w h bpp p).h = h from rfl)).mp
    (hall _ (litImage w h bpp p).data) by' hy bx hx .sumBucketsOfX
  simp only [passedBlock, blockAt] at hblocks
  rw [sum_lit (hpix p) _ bx _ _ fun i => line (8 * by' + i), sum_lit (hpix p) _ (8 * bx) _ _ fun i => 8 * by' + i]
    at hblocks
  have hmul := mul_left_cancel₀ (sub_ne_zero.mpr hdl.symm) (add_left_cancel hblocks)
  exact_mod_cast hmul

end Images

/-- For every two images, formats and order of the lines, the blocks are those of the images when in each of them the
    (up to) eight columns from the number of the block on have the sums of its own ones. For all images of a size
    they are when there is one block in a row and each line comes with its own batch. -/
theorem similarity_blocks_iff (toL : ℤ → ℤ) (hL : ∀ p, -128 ≤ toL p ∧ toL p ≤ 127) (hne : toL 0 ≠ toL 65535)
    (bpp : Bpp) (hbpp : bpp = .binary ∨ bpp = .grayscale ∨ bpp = .rgb565) (w h : ℕ) (hw : 1 ≤ w) (hh : 1 ≤ h)
    (line : ℕ → ℕ) (hline : ∀ k < h, line k < h) (hinj : ∀ k < h, ∀ l < h, line k = line l → k = l) :
    (∀ data data' : ℤ → ℤ → ℕ, similarityBlocks toL ⟨w, h, bpp, data⟩ ⟨w, h, bpp, data'⟩ line =
        imageBlocks (similarityPixel toL ⟨w, h, bpp, data⟩) (similarityPixel toL ⟨w, h, bpp, data'⟩) w h ↔
      ∀ by' < (h + 7) / 8, ∀ bx < (w + 7) / 8, ∀ b,
        ∑ i ∈ Finset.range (min (h - 8 * by') 8), lineSum (similarityPixel toL ⟨w, h, bpp, data⟩)
          (similarityPixel toL ⟨w, h, bpp, data'⟩) b bx (min (w - 8 * bx) 8) (line (8 * by' + i)) =
        ∑ i ∈ Finset.range (min (h - 8 * by') 8), lineSum (similarityPixel toL ⟨w, h, bpp, data⟩)
          (similarityPixel toL ⟨w, h, bpp, data'⟩) b (8 * bx) (min (w - 8 * bx) 8) (8 * by' + i)) ∧
    ((∀ data data' : ℤ → ℤ → ℕ, similarityBlocks toL ⟨w, h, bpp, data⟩ ⟨w, h, bpp, data'⟩ line =
        imageBlocks (similarityPixel toL ⟨w, h, bpp, data⟩) (similarityPixel toL ⟨w, h, bpp, data'⟩) w h) ↔
      w ≤ 8 ∧ ∀ k < h, line k / 8 = k / 8) := by
  refine ⟨fun data data' => similarityBlocks_eq_iff hL rfl rfl, ⟨fun hall => ?_, ?_⟩⟩
  · refine ⟨Nat.le_of_not_lt fun hlt => ?_, fun k hk => ?_⟩
    · -- the second block is given column 1
      have heq := lit_eq_of_forall hL hbpp hne hall (fun x _ => x = 1) (show 1 < _ by omega)
        (show 0 < _ by omega)
      have hpos : 0 < lit (fun x _ => x = 1) 1 (min (w - 8 * 1) 8) (min (h - 8 * 0) 8) fun i => line (8 * 0 + i) :=
        lit_pos (i := 0) (j := 0) (by omega) (by omega) (by decide)
      have hzero : lit (fun x _ => x = 1) (8 * 1) (min (w - 8 * 1) 8) (min (h - 8 * 0) 8) (fun i => 8 * 0 + i) = 0 :=
        lit_eq_zero fun i _ j _ => decide_eq_false (by omega)
      omega
    · by_contra hother
      have hlk := hline k hk
      have heq := lit_eq_of_forall hL hbpp hne hall (fun x y => x = 0 ∧ y = line k) (show 0 < _ by omega)
        (show line k / 8 < _ by omega)
      have hpos : 0 < lit (fun x y => x = 0 ∧ y = line k) (8 * 0) (min (w - 8 * 0) 8)
          (min (h - 8 * (line k / 8)) 8) (fun i => 8 * (line k / 8) + i) := by
        refine lit_pos (i := line k % 8) (j := 0) (by omega) (by omega) (decide_eq_true ⟨by norm_num, ?_⟩)
        rw [Nat.div_add_mod]
      have hzero : lit (fun x y => x = 0 ∧ y = line k) 0 (min (w - 8 * 0) 8)
          (min (h - 8 * (line k / 8)) 8) (fun i => line (8 * (line k / 8) + i)) = 0 := by
        refine lit_eq_zero fun i hi j _ => decide_eq_false fun hij => hother ?_
        have hline' : line (8 * (line k / 8) + i) = line k := by exact_mod_cast hij.2
        have := hinj _ (by omega) k hk hline'
        omega
      omega
  · rintro ⟨hw8, horder⟩ data data'
    refine (similarityBlocks_eq_iff hL rfl rfl).mpr fun by' _ bx hbx b => ?_
    obtain rfl : bx = 0 := by omega
    exact sum_batch hline hinj horder
      (fun l => lineSum (similarityPixel toL ⟨w, h, bpp, data⟩) (similarityPixel toL ⟨w, h, bpp, data'⟩) b 0
        (min (w - 8 * 0) 8) l) by'

/-- One column of blocks, from top to bottom. -/
theorem similarity_blocks_column :
    similarityBlocks (fun p => if p = 65535 then 100 else 0) ⟨8, 20, .grayscale, fun x y => (x * y).toNat⟩
      ⟨8, 20, .grayscale, fun x _ => x.toNat⟩ (fun k => k) =
    imageBlocks (similarityPixel (fun p => if p = 65535 then 100 else 0) ⟨8, 20, .grayscale, fun x y => (x * y).toNat⟩)
      (similarityPixel (fun p => if p = 65535 then 100 else 0) ⟨8, 20, .grayscale, fun x _ => x.toNat⟩) 8 20 :=
  (similarity_blocks_iff (fun p => if p = 65535 then 100 else 0) (fun p => by split_ifs <;> decide)
    (by decide) .grayscale (.inr (.inl rfl)) 8 20 (by decide) (by decide) (fun k => k) (fun _ hk => hk)
    (fun _ _ _ _ hkl => hkl)).2.mpr ⟨le_rfl, fun _ _ => rfl⟩ _ _

/-- Two blocks side by side, with one light pixel in column 9. -/
theorem similarity_blocks_of_two :
    ¬similarityBlocks (fun p => if p = 65535 then 100 else 0) ⟨16, 1, .grayscale, fun x _ => if x = 9 then 1 else 0⟩
      ⟨16, 1, .grayscale, fun x _ => if x = 9 then 1 else 0⟩ (fun k => k) =
    imageBlocks
      (similarityPixel (fun p => if p = 65535 then 100 else 0) ⟨16, 1, .grayscale, fun x _ => if x = 9 then 1 else 0⟩)
      (similarityPixel (fun p => if p = 65535 then 100 else 0) ⟨16, 1, .grayscale, fun x _ => if x = 9 then 1 else 0⟩)
      16 1 := by
  intro h
  have hsums := (similarityBlocks_eq_iff (fun p => by split_ifs <;> decide) rfl rfl).mp h 0 (by decide) 1
    (by decide) .sumBucketsOfX
  exact absurd hsums (by decide)

end OpenMV.Vision
