import Mathlib.Algebra.Order.Ring.Abs
import OpenMV.Filters.Kernel
import OpenMV.Schemes.DigitalLine

/-! Drawing a line | scheme:loop | source:src/src/openmv/omv/img/draw.c

    `imlib_draw_line` goes from one end point to the other until it meets it. The error term decides at each point
    whether the next one is a step further along each of the axes; along the longer one it always is, and along the
    shorter one the steps are those of a digital line. -/

namespace OpenMV.Draw
open Vision Filters Schemes

/-! ### The code -/

def imlibSetPixel (img : Image) (x y p : ℤ) : Image :=
  if 0 ≤ x ∧ x < img.w ∧ 0 ≤ y ∧ y < img.h then
    match img.bpp with
    | .binary | .grayscale | .rgb565 =>
      { img with data := fun c r => if c = x ∧ r = y then putPixel img.bpp p else img.data c r }
    | .bayer | .jpeg => img
  else img

/-- `for (int i = r0; i <= r1; i++)` -/
def upTo (r0 r1 : ℤ) : List ℤ := (List.range (r1 + 1 - r0).toNat).map (r0 + ·)

def pointFill (img : Image) (cx cy r0 r1 c : ℤ) : Image :=
  (upTo r0 r1).foldl (fun img y =>
    (upTo r0 r1).foldl (fun img x =>
      if int32 (int32 (x * x) + int32 (y * y)) ≤ int32 (r0 * r0) then
        imlibSetPixel img (int32 (cx + x)) (int32 (cy + y)) c
      else img) img) img

/-- `x0`, `y0` and `err`. -/
structure LineState where
  x : ℤ
  y : ℤ
  err : ℤ
deriving DecidableEq, Repr

/-- The end of a round. -/
def lineStep (dx dy sx sy : ℤ) (s : LineState) : LineState :=
  let e2 := s.err
  let s := if e2 > -dx then { s with err := int32 (s.err - dy), x := int32 (s.x + sx) } else s
  if e2 < dy then { s with err := int32 (s.err + dx), y := int32 (s.y + sy) } else s

section Loop

variable {α : Type} (fill : α → ℤ → ℤ → α)

/-- The loop, with what is done at each point. -/
def lineLoop (x1 y1 dx dy sx sy : ℤ) : ℕ → LineState → α → Option α
  | 0, _, _ => none
  | fuel + 1, s, a =>
    let a := fill a s.x s.y
    if s.x = x1 ∧ s.y = y1 then some a
    else lineLoop x1 y1 dx dy sx sy fuel (lineStep dx dy sx sy s) a

/-- `imlib_draw_line` when there is something to draw. -/
def walkLine (fuel : ℕ) (x0 y0 x1 y1 : ℤ) (a : α) : Option α :=
  let dx := |int32 (x1 - x0)|
  let sx := if x0 < x1 then 1 else -1
  let dy := |int32 (y1 - y0)|
  let sy := if y0 < y1 then 1 else -1
  let err := (if dx > dy then dx else -dy).tdiv 2
  lineLoop fill x1 y1 dx dy sx sy fuel ⟨x0, y0, err⟩ a

end Loop

def imlibDrawLine (fuel : ℕ) (img : Image) (x0 y0 x1 y1 c thickness : ℤ) : Option Image :=
  if thickness > 0 then
    let thickness0 := (thickness - 0).tdiv 2
    let thickness1 := (thickness - 1).tdiv 2
    walkLine (fun img x y => pointFill img x y (-thickness0) thickness1 c) fuel x0 y0 x1 y1 img
  else some img

/-! ### The points -/

/-- The points `p 0`, …, `p n` connect the end points. -/
structure Connects (x0 y0 x1 y1 : ℤ) (n : ℕ) (p : ℕ → ℤ × ℤ) : Prop where
  first : p 0 = (x0, y0)
  last : p n = (x1, y1)
  next : ∀ i < n, |(p (i + 1)).1 - (p i).1| ≤ 1 ∧ |(p (i + 1)).2 - (p i).2| ≤ 1
  along : ∀ i < n, (|y1 - y0| ≤ |x1 - x0| → |(p (i + 1)).1 - (p i).1| = 1) ∧
    (|x1 - x0| ≤ |y1 - y0| → |(p (i + 1)).2 - (p i).2| = 1)
  half : ∀ i ≤ n,
    (|y1 - y0| ≤ |x1 - x0| → 2 * |((p i).2 - y0) * (x1 - x0) - ((p i).1 - x0) * (y1 - y0)| ≤ |x1 - x0|) ∧
    (|x1 - x0| ≤ |y1 - y0| → 2 * |((p i).1 - x0) * (y1 - y0) - ((p i).2 - y0) * (x1 - x0)| ≤ |y1 - y0|)

/-- Exchanging the axes. -/
theorem Connects.swap {x0 y0 x1 y1 : ℤ} {n : ℕ} {p : ℕ → ℤ × ℤ} (h : Connects x0 y0 x1 y1 n p) :
    Connects y0 x0 y1 x1 n fun i => (p i).swap := by
  obtain ⟨hfirst, hlast, hnext, halong, hhalf⟩ := h
  refine ⟨?_, ?_, fun i hi => (hnext i hi).symm, fun i hi => (halong i hi).symm, fun i hi => (hhalf i hi).symm⟩
  · rw [hfirst]
    rfl
  · rw [hlast]
    rfl

/-- The sign of the way from `a` to `b`. -/
def signTo (a b : ℤ) : ℤ := if a < b then 1 else -1

theorem signTo_cases (a b : ℤ) : (signTo a b = 1 ∧ |b - a| = b - a) ∨ (signTo a b = -1 ∧ |b - a| = a - b) := by
  unfold signTo
  split_ifs with h
  · exact Or.inl ⟨rfl, abs_of_pos (by omega)⟩
  · refine Or.inr ⟨rfl, ?_⟩
    rw [abs_of_nonpos (by omega)]
    ring

theorem abs_mul_signTo (a b : ℤ) : |b - a| * signTo a b = b - a := by
  rcases signTo_cases a b with ⟨h1, h2⟩ | ⟨h1, h2⟩
  · rw [h1, h2, mul_one]
  · rw [h1, h2]
    ring

theorem abs_signTo (a b : ℤ) : |signTo a b| = 1 := by
  rcases signTo_cases a b with ⟨h, -⟩ | ⟨h, -⟩
  · rw [h, abs_one]
  · rw [h, abs_neg, abs_one]

/-- As many steps as lead to `b` are the difference. -/
theorem abs_sub_of_steps {a b : ℤ} {i : ℕ} (h : a + i * signTo a b = b) : |b - a| = i := by
  have hsub : b - a = i * signTo a b := by linarith
  rw [hsub, abs_mul, abs_signTo, mul_one, Nat.abs_cast]

theorem int32_sub {a b : ℤ} (h : |b - a| ≤ 2147483647) : int32 (b - a) = b - a := by
  obtain ⟨hlow, hhigh⟩ := abs_le.1 h
  exact int32_of_mem (by omega) hhigh

/-- The points in between are between the end points. -/
theorem int32_toward {a b k : ℤ} (ha : -2147483648 ≤ a ∧ a ≤ 2147483647) (hb : -2147483648 ≤ b ∧ b ≤ 2147483647)
    (h0 : 0 ≤ k) (hk : k ≤ |b - a|) : int32 (a + k * signTo a b) = a + k * signTo a b := by
  rcases signTo_cases a b with ⟨h1, h2⟩ | ⟨h1, h2⟩
  · rw [h1]
    exact int32_of_mem (by omega) (by omega)
  · rw [h1]
    exact int32_of_mem (by omega) (by omega)

/-- The points of a digital line, the first axis being the longer one. -/
def wideLine (x0 y0 x1 y1 : ℤ) (i : ℕ) : ℤ × ℤ :=
  (x0 + i * signTo x0 x1, y0 + (digitalLine |x1 - x0| |y1 - y0| i).2 * signTo y0 y1)

theorem connects_wideLine {x0 y0 x1 y1 : ℤ} (hwide : |y1 - y0| ≤ |x1 - x0|) {n : ℕ} (hn : |x1 - x0| = n)
    (hpos : 0 < n) : Connects x0 y0 x1 y1 n (wideLine x0 y0 x1 y1) := by
  have hM : (0 : ℤ) < |x1 - x0| := by
    rw [hn]
    exact_mod_cast hpos
  have hx := abs_mul_signTo x0 x1
  have hy := abs_mul_signTo y0 y1
  have hdiffx : ∀ i, (wideLine x0 y0 x1 y1 (i + 1)).1 - (wideLine x0 y0 x1 y1 i).1 = signTo x0 x1 := by
    intro i
    simp only [wideLine]
    push_cast
    ring
  have hdiffy : ∀ i, (wideLine x0 y0 x1 y1 (i + 1)).2 - (wideLine x0 y0 x1 y1 i).2 =
      ((digitalLine |x1 - x0| |y1 - y0| (i + 1)).2 - (digitalLine |x1 - x0| |y1 - y0| i).2) * signTo y0 y1 := by
    intro i
    simp only [wideLine]
    ring
  have hclose : ∀ i : ℕ, 2 * |((wideLine x0 y0 x1 y1 i).2 - y0) * (x1 - x0) -
      ((wideLine x0 y0 x1 y1 i).1 - x0) * (y1 - y0)| ≤ |x1 - x0| := by
    intro i
    have hnear := digitalLine_near (abs_nonneg _) hwide hM i
    have hprod : ((wideLine x0 y0 x1 y1 i).2 - y0) * (x1 - x0) - ((wideLine x0 y0 x1 y1 i).1 - x0) * (y1 - y0) =
        (|x1 - x0| * (digitalLine |x1 - x0| |y1 - y0| i).2 - i * |y1 - y0|) * (signTo x0 x1 * signTo y0 y1) := by
      calc ((wideLine x0 y0 x1 y1 i).2 - y0) * (x1 - x0) - ((wideLine x0 y0 x1 y1 i).1 - x0) * (y1 - y0) =
          ((wideLine x0 y0 x1 y1 i).2 - y0) * (|x1 - x0| * signTo x0 x1) -
            ((wideLine x0 y0 x1 y1 i).1 - x0) * (|y1 - y0| * signTo y0 y1) := by rw [hx, hy]
        _ = (|x1 - x0| * (digitalLine |x1 - x0| |y1 - y0| i).2 - i * |y1 - y0|) *
            (signTo x0 x1 * signTo y0 y1) := by
          simp only [wideLine]
          ring
    rwa [hprod, abs_mul, abs_mul, abs_signTo, abs_signTo, mul_one, mul_one]
  refine ⟨?_, ?_, fun i _ => ⟨?_, ?_⟩, fun i _ => ⟨fun _ => ?_, fun htall => ?_⟩, fun i _ => ⟨fun _ => hclose i, ?_⟩⟩
  · simp [wideLine, digitalLine]
  · have hlast := digitalLine_last (abs_nonneg (y1 - y0)) (hwide.trans hn.le) hpos
    rw [wideLine, hn, hlast, hy, ← hn, hx]
    simp
  · rw [hdiffx, abs_signTo]
  · rw [hdiffy, abs_mul, abs_signTo, mul_one]
    rcases digitalLine_step |x1 - x0| |y1 - y0| i with h | h <;> simp [h]
  · rw [hdiffx, abs_signTo]
  · have heq : |y1 - y0| = |x1 - x0| := le_antisymm hwide htall
    rw [hdiffy, heq, digitalLine_diagonal hM, digitalLine_diagonal hM, abs_mul, abs_signTo]
    simp
  · intro htall
    have heq : |y1 - y0| = |x1 - x0| := le_antisymm hwide htall
    rw [heq, abs_sub_comm]
    exact hclose i

/-! ### The loop -/

section Run

variable {α : Type} (fill : α → ℤ → ℤ → α) {x1 y1 dx dy sx sy : ℤ}

/-- A run through states that follow on each other, up to the first at the end point. -/
theorem lineLoop_run {q : ℕ → LineState} {n : ℕ} (hstep : ∀ i < n, lineStep dx dy sx sy (q i) = q (i + 1))
    (hgo : ∀ i < n, ¬ ((q i).x = x1 ∧ (q i).y = y1)) (hend : (q n).x = x1 ∧ (q n).y = y1) :
    ∀ (r i : ℕ), i + r = n → ∀ fuel, r < fuel → ∀ a, lineLoop fill x1 y1 dx dy sx sy fuel (q i) a =
      some ((List.range' i (r + 1)).foldl (fun a j => fill a (q j).x (q j).y) a)
  | 0, i, hi, fuel + 1, _, a => by
      obtain rfl : i = n := hi
      rw [lineLoop, if_pos hend]
      rfl
  | r + 1, i, hi, fuel + 1, hfuel, a => by
      rw [lineLoop, if_neg (hgo i (by omega)), hstep i (by omega),
        lineLoop_run hstep hgo hend r (i + 1) (by omega) fuel (Nat.lt_of_succ_lt_succ hfuel)]
      rfl

end Run

/-- The limits of an `int`. -/
def IsInt (x : ℤ) : Prop := -2147483648 ≤ x ∧ x ≤ 2147483647

instance (x : ℤ) : Decidable (IsInt x) := inferInstanceAs (Decidable (_ ∧ _))

section Steps

variable {x0 y0 x1 y1 : ℤ}

/-- The state at a point of the digital line, where the first axis is the longer one. -/
def wideState (x0 y0 x1 y1 : ℤ) (i : ℕ) : LineState :=
  ⟨(wideLine x0 y0 x1 y1 i).1, (wideLine x0 y0 x1 y1 i).2, (digitalLine |x1 - x0| |y1 - y0| i).1⟩

/-- The same with the axes exchanged. The error term has the other sign. -/
def tallState (x0 y0 x1 y1 : ℤ) (i : ℕ) : LineState :=
  ⟨(wideLine y0 x0 y1 x1 i).2, (wideLine y0 x0 y1 x1 i).1, -(digitalLine |y1 - y0| |x1 - x0| i).1⟩

theorem wideState_zero (x0 y0 x1 y1 : ℤ) : wideState x0 y0 x1 y1 0 = ⟨x0, y0, |x1 - x0| / 2⟩ := by
  simp [wideState, wideLine, digitalLine]

theorem tallState_zero (x0 y0 x1 y1 : ℤ) : tallState x0 y0 x1 y1 0 = ⟨x0, y0, -(|y1 - y0| / 2)⟩ := by
  simp [tallState, wideLine, digitalLine]

variable (hx0 : IsInt x0) (hy0 : IsInt y0) (hx1 : IsInt x1) (hy1 : IsInt y1)
include hx0 hy0 hx1 hy1

/-- A step along the longer axis fits an `int`, and one along the shorter axis, too. -/
theorem wideLine_fits (hwide : |y1 - y0| ≤ |x1 - x0|) {n : ℕ} (hn : |x1 - x0| = n) {i : ℕ} (hi : i < n) :
    int32 ((wideLine x0 y0 x1 y1 i).1 + signTo x0 x1) = (wideLine x0 y0 x1 y1 (i + 1)).1 ∧
    ((digitalLine |x1 - x0| |y1 - y0| i).1 < |y1 - y0| →
      int32 ((wideLine x0 y0 x1 y1 i).2 + signTo y0 y1) = (wideLine x0 y0 x1 y1 (i + 1)).2) ∧
    (¬ (digitalLine |x1 - x0| |y1 - y0| i).1 < |y1 - y0| →
      (wideLine x0 y0 x1 y1 i).2 = (wideLine x0 y0 x1 y1 (i + 1)).2) := by
  have hlast := digitalLine_last (abs_nonneg (y1 - y0)) (hwide.trans hn.le) (Nat.zero_lt_of_lt hi)
  have hmono := digitalLine_mono |x1 - x0| |y1 - y0| hi
  have hmono0 : 0 ≤ (digitalLine |x1 - x0| |y1 - y0| i).2 := digitalLine_mono |x1 - x0| |y1 - y0| (Nat.zero_le i)
  rw [← hn] at hlast
  rw [hlast, Nat.succ_eq_add_one, digitalLine_succ] at hmono
  refine ⟨?_, fun h => ?_, fun h => ?_⟩
  · have hfits := int32_toward (k := (i : ℤ) + 1) hx0 hx1 (by omega) (by omega)
    simp only [wideLine]
    push_cast
    rw [← hfits, add_mul, one_mul, add_assoc]
  · rw [if_pos h] at hmono
    have hfits := int32_toward hy0 hy1 (Int.add_nonneg hmono0 Int.one_nonneg) hmono
    simp only [wideLine, digitalLine_succ, if_pos h]
    rw [← hfits, add_mul, one_mul, add_assoc]
  · simp only [wideLine, digitalLine_succ, if_neg h]

variable (hfit : |x1 - x0| + |y1 - y0| ≤ 2147483647)
include hfit

theorem lineStep_wide (hwide : |y1 - y0| ≤ |x1 - x0|) {n : ℕ} (hn : |x1 - x0| = n) {i : ℕ} (hi : i < n) :
    lineStep |x1 - x0| |y1 - y0| (signTo x0 x1) (signTo y0 y1) (wideState x0 y0 x1 y1 i) =
      wideState x0 y0 x1 y1 (i + 1) := by
  obtain ⟨hx, hstep, hstay⟩ := wideLine_fits hx0 hy0 hx1 hy1 hwide hn hi
  obtain ⟨hlow, hhigh, -⟩ := digitalLine_spec (abs_nonneg _) hwide (by omega) i
  have hdy0 := abs_nonneg (y1 - y0)
  have hgo : (digitalLine |x1 - x0| |y1 - y0| i).1 > -|x1 - x0| := by omega
  have herr : int32 ((digitalLine |x1 - x0| |y1 - y0| i).1 - |y1 - y0|) =
      (digitalLine |x1 - x0| |y1 - y0| i).1 - |y1 - y0| := int32_of_mem (by omega) (by omega)
  by_cases h : (digitalLine |x1 - x0| |y1 - y0| i).1 < |y1 - y0|
  · have herr' : int32 ((digitalLine |x1 - x0| |y1 - y0| i).1 - |y1 - y0| + |x1 - x0|) =
        (digitalLine |x1 - x0| |y1 - y0| i).1 - |y1 - y0| + |x1 - x0| := int32_of_mem (by omega) (by omega)
    simp only [lineStep, wideState, if_pos hgo, if_pos h, hx, hstep h, herr, herr', digitalLine_succ]
  · simp only [lineStep, wideState, if_pos hgo, if_neg h, hx, hstay h, herr, digitalLine_succ]

theorem lineStep_tall (htall : |x1 - x0| ≤ |y1 - y0|) {n : ℕ} (hn : |y1 - y0| = n) {i : ℕ} (hi : i < n) :
    lineStep |x1 - x0| |y1 - y0| (signTo x0 x1) (signTo y0 y1) (tallState x0 y0 x1 y1 i) =
      tallState x0 y0 x1 y1 (i + 1) := by
  obtain ⟨hy, hstep, hstay⟩ := wideLine_fits hy0 hx0 hy1 hx1 htall hn hi
  obtain ⟨hlow, hhigh, -⟩ := digitalLine_spec (abs_nonneg _) htall (by omega) i
  have hdx0 := abs_nonneg (x1 - x0)
  have hgo : -(digitalLine |y1 - y0| |x1 - x0| i).1 < |y1 - y0| := by omega
  by_cases h : (digitalLine |y1 - y0| |x1 - x0| i).1 < |x1 - x0|
  · have h' : -(digitalLine |y1 - y0| |x1 - x0| i).1 > -|x1 - x0| := by omega
    have herr : int32 (-(digitalLine |y1 - y0| |x1 - x0| i).1 - |y1 - y0|) =
        -(digitalLine |y1 - y0| |x1 - x0| i).1 - |y1 - y0| := int32_of_mem (by omega) (by omega)
    have herr' : int32 (-(digitalLine |y1 - y0| |x1 - x0| i).1 - |y1 - y0| + |x1 - x0|) =
        -((digitalLine |y1 - y0| |x1 - x0| i).1 - |x1 - x0| + |y1 - y0|) := by
      rw [int32_of_mem (by omega) (by omega)]
      ring
    simp only [lineStep, tallState, if_pos hgo, if_pos h, if_pos h', hy, hstep h, herr, herr', digitalLine_succ]
  · have h' : ¬ -(digitalLine |y1 - y0| |x1 - x0| i).1 > -|x1 - x0| := by omega
    have herr : int32 (-(digitalLine |y1 - y0| |x1 - x0| i).1 + |x1 - x0|) =
        -((digitalLine |y1 - y0| |x1 - x0| i).1 - |x1 - x0|) := by
      rw [int32_of_mem (by omega) (by omega)]
      ring
    simp only [lineStep, tallState, if_pos hgo, if_neg h, if_neg h', hy, hstay h, herr, digitalLine_succ]

/-- The walk through the points of the line. -/
theorem walkLine_wide {α : Type} (fill : α → ℤ → ℤ → α) (hwide : |y1 - y0| < |x1 - x0|) {n : ℕ}
    (hn : |x1 - x0| = n) {fuel : ℕ} (hfuel : n < fuel) (a : α) : walkLine fill fuel x0 y0 x1 y1 a =
      some (((List.range (n + 1)).map (wideLine x0 y0 x1 y1)).foldl (fun a q => fill a q.1 q.2) a) := by
  have hdx0 := abs_nonneg (x1 - x0)
  have hdy0 := abs_nonneg (y1 - y0)
  have hlast := (connects_wideLine hwide.le hn (by omega)).last
  have hrun := lineLoop_run fill (q := wideState x0 y0 x1 y1)
    (fun i hi => lineStep_wide hx0 hy0 hx1 hy1 hfit hwide.le hn hi) (fun i hi hend => ?_)
    (Prod.ext_iff.1 hlast) n 0 (Nat.zero_add n) fuel hfuel a
  · rw [walkLine, int32_sub (by omega), int32_sub (by omega), if_pos hwide, Int.tdiv_eq_ediv_of_nonneg hdx0,
      List.foldl_map, List.range_eq_range']
    rw [wideState_zero] at hrun
    exact hrun
  · -- the last point is the first one with this coordinate
    have hx : x0 + i * signTo x0 x1 = x1 := hend.1
    have habs := abs_sub_of_steps hx
    omega

theorem walkLine_tall {α : Type} (fill : α → ℤ → ℤ → α) (htall : |x1 - x0| ≤ |y1 - y0|) {n : ℕ}
    (hn : |y1 - y0| = n) (hpos : 0 < n) {fuel : ℕ} (hfuel : n < fuel) (a : α) :
    walkLine fill fuel x0 y0 x1 y1 a = some (((List.range (n + 1)).map fun i =>
      (wideLine y0 x0 y1 x1 i).swap).foldl (fun a q => fill a q.1 q.2) a) := by
  have hdx0 := abs_nonneg (x1 - x0)
  have hdy0 := abs_nonneg (y1 - y0)
  have hlast := (connects_wideLine htall hn hpos).last
  have hrun := lineLoop_run fill (q := tallState x0 y0 x1 y1)
    (fun i hi => lineStep_tall hx0 hy0 hx1 hy1 hfit htall hn hi) (fun i hi hend => ?_)
    (Prod.ext_iff.1 hlast).symm n 0 (Nat.zero_add n) fuel hfuel a
  · rw [walkLine, int32_sub (by omega), int32_sub (by omega), if_neg (not_lt.2 htall), Int.neg_tdiv,
      Int.tdiv_eq_ediv_of_nonneg hdy0, List.foldl_map, List.range_eq_range']
    rw [tallState_zero] at hrun
    exact hrun
  · have hy : y0 + i * signTo y0 y1 = y1 := hend.2
    have habs := abs_sub_of_steps hy
    omega

/-- The points of the line, and the walk through them. -/
theorem exists_points : ∃ p, Connects x0 y0 x1 y1 (max |x1 - x0| |y1 - y0|).toNat p ∧
    ∀ {α : Type} (fill : α → ℤ → ℤ → α) (a : α) {fuel : ℕ}, (max |x1 - x0| |y1 - y0|).toNat < fuel →
      walkLine fill fuel x0 y0 x1 y1 a =
        some (((List.range ((max |x1 - x0| |y1 - y0|).toNat + 1)).map p).foldl (fun a q => fill a q.1 q.2) a) := by
  have hdx0 := abs_nonneg (x1 - x0)
  have hdy0 := abs_nonneg (y1 - y0)
  rcases lt_or_ge |y1 - y0| |x1 - x0| with hwide | htall
  · have hn : |x1 - x0| = ((max |x1 - x0| |y1 - y0|).toNat : ℤ) := by omega
    exact ⟨_, connects_wideLine hwide.le hn (by omega), fun fill a _ hfuel =>
      walkLine_wide hx0 hy0 hx1 hy1 hfit fill hwide hn hfuel a⟩
  have hn : |y1 - y0| = ((max |x1 - x0| |y1 - y0|).toNat : ℤ) := by omega
  rcases Nat.eq_zero_or_pos (max |x1 - x0| |y1 - y0|).toNat with hzero | hpos
  · -- one point
    have hx : x1 = x0 := by
      have : |x1 - x0| = 0 := by omega
      exact sub_eq_zero.1 (abs_eq_zero.1 this)
    have hy : y1 = y0 := by
      have : |y1 - y0| = 0 := by omega
      exact sub_eq_zero.1 (abs_eq_zero.1 this)
    rw [hzero]
    subst hx hy
    refine ⟨fun _ => (x1, y1), ⟨rfl, rfl, ?_, ?_, ?_⟩, fun fill a fuel hfuel => ?_⟩
    · intro i hi
      exact absurd hi (Nat.not_lt_zero i)
    · intro i hi
      exact absurd hi (Nat.not_lt_zero i)
    · intro i _
      simp
    · cases fuel with
      | zero => exact absurd hfuel (Nat.not_lt_zero 0)
      | succ fuel => simp [walkLine, lineLoop]
  · exact ⟨_, (connects_wideLine htall hn hpos).swap, fun fill a _ hfuel =>
      walkLine_tall hx0 hy0 hx1 hy1 hfit fill htall hn hpos hfuel a⟩

end Steps

/-- Drawing a line ends, after one point more than the longer difference. The points connect the end points, each is
    a neighbour of the one before, a step further along the longer axis, and at most half a pixel away from the
    line. -/
theorem draw_line_connects {x0 y0 x1 y1 : ℤ} (hx0 : IsInt x0) (hy0 : IsInt y0) (hx1 : IsInt x1) (hy1 : IsInt y1)
    (hfit : |x1 - x0| + |y1 - y0| ≤ 2147483647) :
    ∃ p, Connects x0 y0 x1 y1 (max |x1 - x0| |y1 - y0|).toNat p ∧
      (∀ {α : Type} (fill : α → ℤ → ℤ → α) (a : α) {fuel : ℕ}, (max |x1 - x0| |y1 - y0|).toNat < fuel →
        walkLine fill fuel x0 y0 x1 y1 a =
          some (((List.range ((max |x1 - x0| |y1 - y0|).toNat + 1)).map p).foldl (fun a q => fill a q.1 q.2) a)) ∧
      ∀ (img : Image) (c : ℤ) {thickness : ℤ} {fuel : ℕ}, 0 < thickness →
        (max |x1 - x0| |y1 - y0|).toNat < fuel → imlibDrawLine fuel img x0 y0 x1 y1 c thickness =
          some (((List.range ((max |x1 - x0| |y1 - y0|).toNat + 1)).map p).foldl (fun img q =>
            pointFill img q.1 q.2 (-thickness.tdiv 2) ((thickness - 1).tdiv 2) c) img) := by
  obtain ⟨p, hconn, hwalk⟩ := exists_points hx0 hy0 hx1 hy1 hfit
  refine ⟨p, hconn, hwalk, fun img c thickness fuel hthick hfuel => ?_⟩
  have hdraw := hwalk (fun img x y => pointFill img x y (-thickness.tdiv 2) ((thickness - 1).tdiv 2) c) img hfuel
  simpa only [imlibDrawLine, if_pos hthick, sub_zero] using hdraw

/-- Three points from (2, 1) to (0, 0). -/
theorem draw_line_connects_three : ∃ p, Connects 2 1 0 0 2 p ∧
    walkLine (fun l x y => l ++ [(x, y)]) 3 2 1 0 0 [] = some [p 0, p 1, p 2] := by
  have hint : ∀ x ∈ ([0, 1, 2] : List ℤ), IsInt x := by decide
  obtain ⟨p, hconn, hwalk, -⟩ := draw_line_connects (hint 2 (by decide)) (hint 1 (by decide)) (hint 0 (by decide))
    (hint 0 (by decide)) (by decide)
  exact ⟨p, hconn, hwalk (fun l x y => l ++ [(x, y)]) [] (by decide)⟩

end OpenMV.Draw
