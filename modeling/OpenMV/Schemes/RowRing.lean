import Mathlib.Data.Int.ModEq
import Mathlib.Data.List.Range
import Mathlib.Tactic.Linarith

/-! Filters that work in place | scheme:ring-buffer

    A filter goes over a picture row by row and looks at the rows around the one it is at, so it may not
    overwrite a row before the last row that needs it is done. The new rows wait in a ring of `ksize + 1` rows
    and are copied back `ksize` rows later; what is left in the ring is copied at the end. Along a row
    the filter carries an accumulator from pixel to pixel.

    `run_img` says what the picture holds in the end, in terms of the accumulators of the run, and
    `accAt_ok` is the rule for what holds of these: the picture that a step sees is the original one as
    far up as the step may look. -/

namespace OpenMV.Schemes

variable {α σ : Type*}

/-- A filter: the rows it looks back, the size of the picture, the pixels it leaves alone, the
    accumulator at the start of a row and at a pixel, and the new pixel. -/
structure RowFilter (α σ : Type*) where
  ksize : ℕ
  w : ℤ
  h : ℤ
  skip : ℤ → ℤ → Bool
  start : σ → σ
  cell : (ℤ → ℤ → α) → ℤ → ℤ → σ → σ
  keep : α → α
  emit : σ → α → α

/-- The picture, the ring and the accumulator; pixels are by column and row. -/
structure RowState (α σ : Type*) where
  img : ℤ → ℤ → α
  buf : ℤ → ℤ → α
  acc : σ

def put (g : ℤ → ℤ → α) (x y : ℤ) (v : α) : ℤ → ℤ → α :=
  fun c r => if c = x ∧ r = y then v else g c r

def copyRow (dst : ℤ → ℤ → α) (y : ℤ) (src : ℤ → ℤ → α) (slot : ℤ) : ℤ → ℤ → α :=
  fun c r => if r = y then src c slot else dst c r

namespace RowFilter

variable (F : RowFilter α σ)

/-- Where a row is in the ring. -/
def slot (y : ℤ) : ℤ := y % ((F.ksize : ℤ) + 1)

def pixelStep (y : ℤ) (s : RowState α σ) (x : ℕ) : RowState α σ :=
  if F.skip x y then
    { s with buf := put s.buf x (F.slot y) (F.keep (s.img x y)) }
  else
    let acc := F.cell s.img x y s.acc
    { s with buf := put s.buf x (F.slot y) (F.emit acc (s.img x y)), acc := acc }

/-- The row as far as column `x`. -/
def within (s : RowState α σ) (y : ℤ) (x : ℕ) : RowState α σ :=
  (List.range x).foldl (F.pixelStep y) { s with acc := F.start s.acc }

def copyBack (s : RowState α σ) (y : ℤ) : RowState α σ :=
  { s with img := copyRow s.img y s.buf (F.slot y) }

def rowStep (s : RowState α σ) (y : ℕ) : RowState α σ :=
  let s := F.within s y F.w.toNat
  if F.ksize ≤ y then F.copyBack s ((y : ℤ) - F.ksize) else s

/-- The first `y` rows. -/
def before (s : RowState α σ) (y : ℕ) : RowState α σ := (List.range y).foldl F.rowStep s

/-- The rows that are in the ring when the loop is over. -/
def rest : List ℕ :=
  List.range' (max (F.h - F.ksize) 0).toNat (F.h.toNat - (max (F.h - F.ksize) 0).toNat)

def run (s : RowState α σ) : RowState α σ :=
  F.rest.foldl (fun s (y : ℕ) => F.copyBack s y) (F.before s F.h.toNat)

/-- The accumulator that a pixel is computed from. -/
def accAt (s : RowState α σ) (x y : ℕ) : σ := (F.within (F.before s y) y (x + 1)).acc

/-- What the run leaves at a pixel. -/
def out (s : RowState α σ) (x y : ℕ) : α :=
  if F.skip x y then F.keep (s.img x y) else F.emit (F.accAt s x y) (s.img x y)

variable {F}

theorem out_of_skip {s : RowState α σ} {x y : ℕ} (h : F.skip x y = true) : F.out s x y = F.keep (s.img x y) :=
  if_pos h

theorem out_of_not {s : RowState α σ} {x y : ℕ} (h : F.skip x y = false) :
    F.out s x y = F.emit (F.accAt s x y) (s.img x y) :=
  if_neg (Bool.eq_false_iff.mp h)

/-! ### A row -/

theorem within_succ (s : RowState α σ) (y : ℤ) (x : ℕ) :
    F.within s y (x + 1) = F.pixelStep y (F.within s y x) x := by
  rw [within, within, List.range_succ, List.foldl_append, List.foldl_cons, List.foldl_nil]

theorem before_succ (s : RowState α σ) (y : ℕ) : F.before s (y + 1) = F.rowStep (F.before s y) y := by
  rw [before, before, List.range_succ, List.foldl_append, List.foldl_cons, List.foldl_nil]

@[simp] theorem pixelStep_img (y : ℤ) (s : RowState α σ) (x : ℕ) : (F.pixelStep y s x).img = s.img := by
  unfold pixelStep
  split <;> rfl

@[simp] theorem within_img (s : RowState α σ) (y : ℤ) : ∀ x, (F.within s y x).img = s.img
  | 0 => rfl
  | x + 1 => by rw [within_succ, pixelStep_img, within_img s y x]

theorem pixelStep_buf_of_ne (y : ℤ) (s : RowState α σ) {x : ℕ} {c r : ℤ} (h : ¬ (c = x ∧ r = F.slot y)) :
    (F.pixelStep y s x).buf c r = s.buf c r := by
  unfold pixelStep
  split <;> exact if_neg h

theorem pixelStep_buf_self (y : ℤ) (s : RowState α σ) (x : ℕ) :
    (F.pixelStep y s x).buf x (F.slot y) =
      if F.skip x y then F.keep (s.img x y) else F.emit (F.pixelStep y s x).acc (s.img x y) := by
  unfold pixelStep
  split <;> exact if_pos ⟨rfl, rfl⟩

/-- The other rows of the ring are not touched. -/
theorem within_buf_of_ne (s : RowState α σ) {y r : ℤ} (h : r ≠ F.slot y) (c : ℤ) :
    ∀ x, (F.within s y x).buf c r = s.buf c r
  | 0 => rfl
  | x + 1 => by
      rw [within_succ, pixelStep_buf_of_ne y _ (fun hc => h hc.2), within_buf_of_ne s h c x]

theorem within_buf_of_lt (s : RowState α σ) (y : ℤ) {c : ℕ} : ∀ {x}, c < x →
    (F.within s y x).buf c (F.slot y) =
      if F.skip c y then F.keep (s.img c y) else F.emit (F.within s y (c + 1)).acc (s.img c y)
  | x + 1, h => by
      rcases Nat.lt_succ_iff_lt_or_eq.mp h with hlt | rfl
      · rw [within_succ, pixelStep_buf_of_ne y _ (fun hc => by omega), within_buf_of_lt s y hlt]
      · rw [within_succ, pixelStep_buf_self, within_img]

/-! ### The rows -/

theorem copyBack_img_of_ne (s : RowState α σ) {y r : ℤ} (h : r ≠ y) (c : ℤ) :
    (F.copyBack s y).img c r = s.img c r := if_neg h

theorem copyBack_img_self (s : RowState α σ) (y c : ℤ) : (F.copyBack s y).img c y = s.buf c (F.slot y) :=
  if_pos rfl

theorem rowStep_img_of_ne (s : RowState α σ) {y : ℕ} {r : ℤ} (h : r ≠ y - F.ksize) (c : ℤ) :
    (F.rowStep s y).img c r = s.img c r := by
  unfold rowStep
  split
  · rw [copyBack_img_of_ne _ h, within_img]
  · rw [within_img]

@[simp] theorem rowStep_buf (s : RowState α σ) (y : ℕ) :
    (F.rowStep s y).buf = (F.within s y F.w.toNat).buf := by
  unfold rowStep
  split <;> rfl

/-- The rows that a step may look at are the original ones. -/
theorem before_img (s : RowState α σ) (c : ℤ) {r : ℤ} : ∀ {y : ℕ}, (y : ℤ) - F.ksize ≤ r →
    (F.before s y).img c r = s.img c r
  | 0, _ => rfl
  | y + 1, h => by
      push_cast at h
      rw [before_succ, rowStep_img_of_ne _ (by omega), before_img s c (by omega)]

/-- Two rows less than `ksize + 1` apart have different places in the ring. -/
theorem slot_ne {r y : ℤ} (h1 : r < y) (h2 : y - r ≤ F.ksize) : F.slot r ≠ F.slot y := by
  unfold slot
  intro h
  obtain ⟨q, hq⟩ := Int.ModEq.dvd h
  rcases le_or_gt q 0 with hq0 | hq0
  · nlinarith
  · nlinarith

theorem before_buf (s : RowState α σ) {c r : ℕ} (hc : c < F.w.toNat) : ∀ {y : ℕ}, r < y →
    y ≤ r + F.ksize + 1 → (F.before s y).buf c (F.slot r) = F.out s c r
  | y + 1, h1, h2 => by
      rw [before_succ, rowStep_buf]
      rcases Nat.lt_succ_iff_lt_or_eq.mp h1 with hlt | rfl
      · rw [within_buf_of_ne _ (slot_ne (by omega) (by omega)), before_buf s hc hlt (by omega)]
      · rw [within_buf_of_lt _ _ hc, before_img s c (by omega)]
        rfl

theorem before_img_done (s : RowState α σ) {c r : ℕ} (hc : c < F.w.toNat) : ∀ {y : ℕ},
    r + F.ksize < y → (F.before s y).img c r = F.out s c r
  | y + 1, h => by
      rw [before_succ]
      rcases Nat.lt_succ_iff_lt_or_eq.mp h with hlt | heq
      · rw [rowStep_img_of_ne _ (by omega), before_img_done s hc hlt]
      · have hr : (y : ℤ) - F.ksize = r := by omega
        rw [← before_buf s hc (show r < y + 1 by omega) (by omega), before_succ, rowStep_buf]
        unfold rowStep
        rw [if_pos (by omega), hr, copyBack_img_self]

/-! ### The rows that are left in the ring -/

theorem foldl_copyBack_buf : ∀ (ys : List ℕ) (s : RowState α σ),
    (ys.foldl (fun s (y : ℕ) => F.copyBack s y) s).buf = s.buf
  | [], _ => rfl
  | y :: ys, s => by rw [List.foldl_cons, foldl_copyBack_buf ys]; rfl

theorem foldl_copyBack_img_of_notMem (c : ℤ) {r : ℕ} : ∀ (ys : List ℕ) (s : RowState α σ), r ∉ ys →
    (ys.foldl (fun s (y : ℕ) => F.copyBack s y) s).img c r = s.img c r
  | [], _, _ => rfl
  | y :: ys, s, h => by
      have hy : r ≠ y := List.ne_of_not_mem_cons h
      have hys : r ∉ ys := List.not_mem_of_not_mem_cons h
      rw [List.foldl_cons, foldl_copyBack_img_of_notMem c ys _ hys,
        copyBack_img_of_ne _ (by exact_mod_cast hy)]

theorem foldl_copyBack_img_of_mem (c : ℤ) {r : ℕ} : ∀ (ys : List ℕ) (s : RowState α σ), r ∈ ys →
    (ys.foldl (fun s (y : ℕ) => F.copyBack s y) s).img c r = s.buf c (F.slot r)
  | y :: ys, s, h => by
      rw [List.foldl_cons]
      by_cases hys : r ∈ ys
      · rw [foldl_copyBack_img_of_mem c ys _ hys]
        rfl
      · obtain rfl : r = y := (List.mem_cons.mp h).resolve_right hys
        rw [foldl_copyBack_img_of_notMem c ys _ hys, copyBack_img_self]

/-- Every pixel of the picture is in the end what its accumulator gives for the original pixel. -/
theorem run_img (s : RowState α σ) {x y : ℕ} (hx : (x : ℤ) < F.w) (hy : (y : ℤ) < F.h) :
    (F.run s).img x y = F.out s x y := by
  have hxw : x < F.w.toNat := by omega
  have hrest : y ∈ F.rest ↔ F.h - F.ksize ≤ y := by
    rw [rest, List.mem_range'_1]
    omega
  unfold run
  by_cases hmem : y ∈ F.rest
  · rw [foldl_copyBack_img_of_mem _ _ _ hmem]
    exact before_buf s hxw (by omega) (by have := hrest.mp hmem; omega)
  · rw [foldl_copyBack_img_of_notMem _ _ _ hmem]
    exact before_img_done s hxw (by have := mt hrest.mpr hmem; omega)

/-! ### The accumulators -/

theorem accAt_zero (s : RowState α σ) {y : ℕ} (hs : F.skip (0 : ℕ) y = false) :
    F.accAt s 0 y = F.cell (F.before s y).img (0 : ℕ) y (F.start (F.before s y).acc) := by
  rw [accAt, within_succ, pixelStep, if_neg (Bool.eq_false_iff.mp hs)]
  rfl

theorem accAt_succ (s : RowState α σ) {x y : ℕ} (hs : F.skip (x + 1 : ℕ) y = false) :
    F.accAt s (x + 1) y = F.cell (F.before s y).img (x + 1 : ℕ) y (F.accAt s x y) := by
  rw [accAt, within_succ, pixelStep, if_neg (Bool.eq_false_iff.mp hs), within_img]
  rfl

theorem accAt_zero_of_skip (s : RowState α σ) {y : ℕ} (hs : F.skip (0 : ℕ) y = true) :
    F.accAt s 0 y = F.start (F.before s y).acc := by
  rw [accAt, within_succ, pixelStep, if_pos hs]
  rfl

theorem accAt_succ_of_skip (s : RowState α σ) {x y : ℕ} (hs : F.skip (x + 1 : ℕ) y = true) :
    F.accAt s (x + 1) y = F.accAt s x y := by
  rw [accAt, within_succ, pixelStep, if_pos hs]
  rfl

/-- What holds at the start of a row, and is carried on by a pixel that is left alone as well as by one that
    is not, holds at every pixel. -/
theorem accAt_carried (s : RowState α σ) (Ok : ℤ → ℤ → σ → Prop) (hstart : ∀ y a, Ok (-1) y (F.start a))
    (hskip : ∀ x y a, 0 ≤ x → F.skip x y = true → Ok (x - 1) y a → Ok x y a)
    (hcell : ∀ img x y a, 0 ≤ x → x < F.w → 0 ≤ y → y < F.h → F.skip x y = false →
      (∀ c r, y - F.ksize ≤ r → img c r = s.img c r) → Ok (x - 1) y a → Ok x y (F.cell img x y a))
    {x y : ℕ} (hx : (x : ℤ) < F.w) (hy : (y : ℤ) < F.h) : Ok x y (F.accAt s x y) := by
  induction x with
  | zero =>
    cases hs : F.skip (0 : ℕ) y with
    | true =>
      rw [accAt_zero_of_skip s hs]
      exact hskip _ _ _ le_rfl hs (hstart _ _)
    | false =>
      rw [accAt_zero s hs]
      exact hcell _ _ _ _ le_rfl hx (Int.natCast_nonneg y) hy hs (fun c r hr => before_img s c hr)
        (hstart _ _)
  | succ x ih =>
    have hcast : ((x + 1 : ℕ) : ℤ) - 1 = x := by omega
    have hprev : Ok (((x + 1 : ℕ) : ℤ) - 1) y (F.accAt s x y) := by
      rw [hcast]
      exact ih (by omega)
    cases hs : F.skip (x + 1 : ℕ) y with
    | true =>
      rw [accAt_succ_of_skip s hs]
      exact hskip _ _ _ (Int.natCast_nonneg (x + 1)) hs hprev
    | false =>
      rw [accAt_succ s hs]
      exact hcell _ _ _ _ (Int.natCast_nonneg (x + 1)) hx (Int.natCast_nonneg y) hy hs
        (fun c r hr => before_img s c hr) hprev

/-- At every pixel that is not left alone the accumulator is as it should be, when a step makes it so
    from the original rows and from the pixel before in the row, if that was not left alone either. -/
theorem accAt_ok (s : RowState α σ) (Ok : ℤ → ℤ → σ → Prop)
    (hcell : ∀ img x y a, 0 ≤ x → x < F.w → 0 ≤ y → y < F.h → F.skip x y = false →
      (∀ c r, y - F.ksize ≤ r → img c r = s.img c r) →
      (0 < x → F.skip (x - 1) y = false → Ok (x - 1) y a) → Ok x y (F.cell img x y a))
    {x y : ℕ} (hx : (x : ℤ) < F.w) (hy : (y : ℤ) < F.h) (hs : F.skip x y = false) :
    Ok x y (F.accAt s x y) := by
  induction x with
  | zero =>
    rw [accAt_zero s hs]
    exact hcell _ _ _ _ le_rfl hx (Int.natCast_nonneg y) hy hs (fun c r hr => before_img s c hr)
      fun h => absurd h (lt_irrefl _)
  | succ x ih =>
    rw [accAt_succ s hs]
    have hcast : ((x + 1 : ℕ) : ℤ) - 1 = x := by omega
    refine hcell _ _ _ _ (Int.natCast_nonneg (x + 1)) hx (Int.natCast_nonneg y) hy hs
      (fun c r hr => before_img s c hr) fun _ hprev => ?_
    rw [hcast] at hprev ⊢
    exact ih (by omega) hprev

end RowFilter

end OpenMV.Schemes
