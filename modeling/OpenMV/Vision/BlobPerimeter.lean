import Mathlib.Tactic.Ring
import OpenMV.Vision.Moments

/-! The perimeter of a blob | scheme:worklist | source:src/src/openmv/omv/img/blob.c

    Each span of a blob adds its two ends to the perimeter, and the pixels above and below it that
    fail the threshold (all of them at the border of the region of interest). The rows above and below
    are gone over from two cursors that are kept with the span while the fill is elsewhere. When the
    fill goes on downwards the upper cursor is kept where it was, although the row above has been
    counted to the end: it is counted again when the span is resumed. -/

namespace OpenMV.Vision
open Schemes Schemes.ScanFill

/-! ### What a span should add -/

section Count

variable (roi : Rectangle) (passes : Cell → Bool)

/-- The number of columns `a ≤ i < b` strictly inside the span that fail the threshold in row `y'`. -/
def failing (sp : Span) (y' a b : ℤ) : ℕ :=
  ((Finset.range (b - a).toNat).filter fun k : ℕ =>
    sp.l < a + k ∧ a + k < sp.r ∧ passes (a + k, y') = false).card

/-- What there is to count above the span from column `a` on. -/
def above (sp : Span) (a : ℤ) : ℕ :=
  if roi.y < sp.y then failing passes sp (sp.y - 1) a (sp.r + 1) else (sp.r - sp.l + 1).toNat

def below (sp : Span) (a : ℤ) : ℕ :=
  if sp.y < roi.y + roi.h - 1 then failing passes sp (sp.y + 1) a (sp.r + 1) else (sp.r - sp.l + 1).toNat

def spanPerimeter (sp : Span) : ℕ := 2 + above roi passes sp sp.l + below roi passes sp sp.l

/-- What a context has still to count. -/
def ctxLeft (c : Ctx) : ℤ := above roi passes c.span c.tl + below roi passes c.span c.bl

/-- What this round of the fill counts although it will be counted again: the fill goes on downwards. -/
def again (lifoLen : ℕ) (s : State BlobAcc) : ℕ :=
  match s.ctl with
  | .look c =>
    if ((blobFill lifoLen roi passes).lookUp s.vis c s.acc).1 = none ∧
        ((blobFill lifoLen roi passes).lookDown s.vis c s.acc).1 ≠ none then
      above roi passes c.span c.tl
    else 0
  | _ => 0

def surplus (lifoLen : ℕ) (rounds : List (State BlobAcc)) : ℕ :=
  (rounds.map (again roi passes lifoLen)).sum

end Count

theorem int32_int32 (x : ℤ) : int32 (int32 x) = int32 x := by
  unfold int32
  omega

section Fill

variable {lifoLen : ℕ} {roi : Rectangle} {passes : Cell → Bool}

theorem failing_self (sp : Span) (y' a : ℤ) : failing passes sp y' a a = 0 := by
  simp [failing]

theorem failing_succ (sp : Span) (y' : ℤ) {a b : ℤ} (hab : a < b) :
    failing passes sp y' a b = (if sp.l < a ∧ a < sp.r ∧ passes (a, y') = false then 1 else 0) +
      failing passes sp y' (a + 1) b := by
  have hlen : (b - a).toNat = (b - (a + 1)).toNat + 1 := by omega
  have hnext : ∀ k : ℕ, a + ((k + 1 : ℕ) : ℤ) = a + 1 + k := fun k => by
    push_cast
    ring
  unfold failing
  rw [hlen, Finset.card_filter, Finset.sum_range_succ', Finset.card_filter, add_comm]
  simp only [hnext, Nat.cast_zero, add_zero]

/-- Where the fill goes on there is nothing to count. -/
theorem failing_of_passes (sp : Span) {y' a b : ℤ} (hab : a < b) (h : passes (a, y') = true) :
    failing passes sp y' a b = failing passes sp y' (a + 1) b := by
  rw [failing_succ sp y' hab, if_neg (by simp [h]), zero_add]

theorem sweep_stop {vis : Cell → Bool} {sp : Span} {y' i : ℤ} (n : ℕ) (t : BlobAcc)
    (h : (!vis (i, y') && passes (i, y')) = true) :
    (blobFill lifoLen roi passes).sweep vis sp y' (n + 1) i t = (some i, t) := if_pos h

theorem sweep_next {vis : Cell → Bool} {sp : Span} {y' i : ℤ} (n : ℕ) (t : BlobAcc)
    (h : ¬(!vis (i, y') && passes (i, y')) = true) :
    (blobFill lifoLen roi passes).sweep vis sp y' (n + 1) i t =
      (blobFill lifoLen roi passes).sweep vis sp y' n (i + 1)
        (if !vis (i, y') && i ≠ sp.l && i ≠ sp.r then t.addPerimeter 1 else t) := if_neg h

/-- What is left to count behind the column where the fill goes on. -/
def leftAfter (count : ℤ → ℕ) : Option ℤ → ℕ
  | none => 0
  | some j => count (j + 1)

/-- A miss is counted if the pixel fails. -/
theorem miss_perimeter {vis : Cell → Bool} (hvis : ∀ q, vis q = true → passes q = true) {sp : Span}
    {y' i : ℤ} (hi : sp.l ≤ i ∧ i ≤ sp.r) {t : BlobAcc} (ht : int32 t.perimeter = t.perimeter)
    (h : ¬(!vis (i, y') && passes (i, y')) = true) :
    (if !vis (i, y') && i ≠ sp.l && i ≠ sp.r then t.addPerimeter 1 else t).perimeter =
      int32 (t.perimeter + (if sp.l < i ∧ i < sp.r ∧ passes (i, y') = false then 1 else 0 : ℕ)) := by
  have hfail : vis (i, y') = false ↔ passes (i, y') = false := by
    have := hvis (i, y')
    cases hv : vis (i, y') <;> cases hp : passes (i, y') <;> simp [hv, hp] at h this ⊢
  have hcond : (!vis (i, y') && i ≠ sp.l && i ≠ sp.r) = true ↔
      sp.l < i ∧ i < sp.r ∧ passes (i, y') = false := by
    simp only [Bool.and_eq_true, Bool.not_eq_true', hfail, decide_eq_true_eq]
    constructor
    · rintro ⟨⟨hp, h1⟩, h2⟩
      exact ⟨by omega, by omega, hp⟩
    · rintro ⟨h1, h2, hp⟩
      exact ⟨⟨hp, by omega⟩, by omega⟩
  by_cases hc : sp.l < i ∧ i < sp.r ∧ passes (i, y') = false
  · rw [if_pos (hcond.mpr hc), if_pos hc]
    rfl
  · rw [if_neg fun hb => hc (hcond.mp hb), if_neg hc, Nat.cast_zero, add_zero, ht]

/-- What a sweep along a row counts, and what is then left to its end. -/
theorem sweep_counts {vis : Cell → Bool} (hvis : ∀ q, vis q = true → passes q = true) (sp : Span)
    (y' : ℤ) : ∀ (n : ℕ) (i : ℤ) (t : BlobAcc), int32 t.perimeter = t.perimeter → sp.l ≤ i →
    i + n = sp.r + 1 → ∀ o t', (blobFill lifoLen roi passes).sweep vis sp y' n i t = (o, t') →
    ∃ d : ℕ, t'.perimeter = int32 (t.perimeter + d) ∧ failing passes sp y' i (sp.r + 1) =
      d + leftAfter (fun a => failing passes sp y' a (sp.r + 1)) o
  | 0, i, t, ht, _, hn, o, t', hs => by
      obtain ⟨rfl, rfl⟩ := Prod.mk.inj hs
      refine ⟨0, by simpa using ht.symm, ?_⟩
      rw [show sp.r + 1 = i by push_cast at hn; omega, failing_self]
      rfl
  | n + 1, i, t, ht, hi, hn, o, t', hs => by
      push_cast at hn
      by_cases hgo : (!vis (i, y') && passes (i, y')) = true
      · rw [sweep_stop n t hgo] at hs
        obtain ⟨rfl, rfl⟩ := Prod.mk.inj hs
        refine ⟨0, by simpa using ht.symm, ?_⟩
        simp only [Bool.and_eq_true, Bool.not_eq_true'] at hgo
        rw [failing_of_passes sp (by omega) hgo.2, zero_add]
        rfl
      · rw [sweep_next n t hgo] at hs
        have hmiss := miss_perimeter hvis ⟨hi, by omega⟩ ht hgo
        obtain ⟨d, hd, hleft⟩ := sweep_counts hvis sp y' n (i + 1) _ (by rw [hmiss, int32_int32])
          (by omega) (by omega) o t' hs
        refine ⟨(if sp.l < i ∧ i < sp.r ∧ passes (i, y') = false then 1 else 0) + d, ?_, ?_⟩
        · rw [hd, hmiss, int32_add_left]
          push_cast
          rw [add_assoc]
        · rw [failing_succ sp y' (by omega), hleft, add_assoc]

/-- What looking upwards counts. -/
theorem lookUp_counts {vis : Cell → Bool} (hvis : ∀ q, vis q = true → passes q = true) {c : Ctx}
    (hc : c.Fits (blobFill lifoLen roi passes).toGrid) {t : BlobAcc}
    (ht : int32 t.perimeter = t.perimeter) {o : Option ℤ} {t' : BlobAcc}
    (hl : (blobFill lifoLen roi passes).lookUp vis c t = (o, t')) :
    ∃ d : ℕ, t'.perimeter = int32 (t.perimeter + d) ∧
      above roi passes c.span c.tl = d + leftAfter (above roi passes c.span) o := by
  have hcols := hc.cols
  have htop := hc.top
  unfold Machine.lookUp at hl
  unfold above
  by_cases hrow : roi.y < c.y
  · rw [if_pos (show (blobFill lifoLen roi passes).y0 < c.y from hrow)] at hl
    have hspan : roi.y < c.span.y := hrow
    simp only [if_pos hspan]
    exact sweep_counts hvis c.span (c.y - 1) (c.r + 1 - c.tl).toNat c.tl t ht htop.1
      (by simp only [Ctx.span]; omega) o t' hl
  · rw [if_neg (show ¬(blobFill lifoLen roi passes).y0 < c.y from hrow)] at hl
    obtain ⟨rfl, rfl⟩ := Prod.mk.inj hl
    have hspan : ¬roi.y < c.span.y := hrow
    rw [if_neg hspan]
    refine ⟨(c.span.r - c.span.l + 1).toNat, ?_, rfl⟩
    simp only [blobFill, BlobAcc.addPerimeter, Ctx.span]
    rw [Int.toNat_of_nonneg (by omega)]

/-- What looking downwards counts. -/
theorem lookDown_counts {vis : Cell → Bool} (hvis : ∀ q, vis q = true → passes q = true) {c : Ctx}
    (hc : c.Fits (blobFill lifoLen roi passes).toGrid) {t : BlobAcc}
    (ht : int32 t.perimeter = t.perimeter) {o : Option ℤ} {t' : BlobAcc}
    (hl : (blobFill lifoLen roi passes).lookDown vis c t = (o, t')) :
    ∃ d : ℕ, t'.perimeter = int32 (t.perimeter + d) ∧
      below roi passes c.span c.bl = d + leftAfter (below roi passes c.span) o := by
  have hcols := hc.cols
  have hbot := hc.bot
  unfold Machine.lookDown at hl
  unfold below
  by_cases hrow : c.y < roi.y + roi.h - 1
  · rw [if_pos (show c.y < (blobFill lifoLen roi passes).y1 - 1 from hrow)] at hl
    have hspan : c.span.y < roi.y + roi.h - 1 := hrow
    simp only [if_pos hspan]
    exact sweep_counts hvis c.span (c.y + 1) (c.r + 1 - c.bl).toNat c.bl t ht hbot.1
      (by simp only [Ctx.span]; omega) o t' hl
  · rw [if_neg (show ¬c.y < (blobFill lifoLen roi passes).y1 - 1 from hrow)] at hl
    obtain ⟨rfl, rfl⟩ := Prod.mk.inj hl
    have hspan : ¬c.span.y < roi.y + roi.h - 1 := hrow
    rw [if_neg hspan]
    refine ⟨(c.span.r - c.span.l + 1).toNat, ?_, rfl⟩
    simp only [blobFill, BlobAcc.addPerimeter, Ctx.span]
    rw [Int.toNat_of_nonneg (by omega)]

/-! ### The balance of a run -/

variable (roi passes) in
/-- What the spans marked so far should add, without what is still to be counted of it. -/
def due (s : State BlobAcc) : ℤ :=
  (s.marked.map fun sp => (spanPerimeter roi passes sp : ℤ)).sum -
    (s.ctxs.map fun c => ctxLeft roi passes c).sum

variable (roi passes) in
/-- The perimeter so far; `extra` is what was counted again. -/
def Balanced (s : State BlobAcc) (extra : ℕ) : Prop :=
  s.acc.perimeter = int32 (due roi passes s + extra)

theorem sweep_fst_congr {vis : Cell → Bool} {sp : Span} {y' : ℤ} : ∀ (n : ℕ) (i : ℤ) (t t' : BlobAcc),
    ((blobFill lifoLen roi passes).sweep vis sp y' n i t).1 =
      ((blobFill lifoLen roi passes).sweep vis sp y' n i t').1
  | 0, _, _, _ => rfl
  | n + 1, i, t, t' => by
      by_cases hgo : (!vis (i, y') && passes (i, y')) = true
      · rw [sweep_stop n t hgo, sweep_stop n t' hgo]
      · rw [sweep_next n t hgo, sweep_next n t' hgo]
        exact sweep_fst_congr n (i + 1) _ _

/-- Where the fill goes on downwards does not depend on what was counted before. -/
theorem lookDown_fst_congr {vis : Cell → Bool} {c : Ctx} (t t' : BlobAcc) :
    ((blobFill lifoLen roi passes).lookDown vis c t).1 =
      ((blobFill lifoLen roi passes).lookDown vis c t').1 := by
  unfold Machine.lookDown
  split_ifs
  · exact sweep_fst_congr _ _ _ _
  · rfl

theorem Balanced.int32_perimeter {s : State BlobAcc} {extra : ℕ} (h : Balanced roi passes s extra) :
    int32 s.acc.perimeter = s.acc.perimeter := by
  rw [h, int32_int32]

/-- Only the row above a span from which the fill goes on downwards is counted too often. -/
theorem step_balanced {vis₀ : Cell → Bool} {seed : Cell} {s : State BlobAcc} {extra : ℕ}
    (hpack : ∀ c : Ctx, c.Fits (blobFill lifoLen roi passes).toGrid →
      (blobFill lifoLen roi passes).pack c = c)
    (h : Inv (blobFill lifoLen roi passes) vis₀ seed s) (hvis : ∀ q, s.vis q = true → passes q = true)
    (hb : Balanced roi passes s extra) (hf : ((blobFill lifoLen roi passes).step s).full = false) :
    Balanced roi passes ((blobFill lifoLen roi passes).step s) (extra + again roi passes lifoLen s) := by
  have hnorm := hb.int32_perimeter
  rcases hs : s.ctl with ⟨x, y⟩ | c | _
  · -- a new span
    obtain ⟨l, r, hstep, -⟩ := h.grow_spec hs
    have hagain : again roi passes lifoLen s = 0 := by simp only [again, hs]
    have hctxs : s.ctxs = s.stack := by simp [State.ctxs, hs]
    unfold Balanced due at hb
    unfold Balanced due
    rw [hctxs] at hb
    rw [hstep, hagain]
    simp only [State.ctxs, List.map_cons, List.sum_cons, ctxLeft, Ctx.span, spanPerimeter, blobFill,
      BlobAcc.add, hb, int32_add_left]
    congr 1
    push_cast
    ring
  · have hctxs : s.ctxs = c :: s.stack := by simp [State.ctxs, hs]
    have hc := h.fits c (hctxs ▸ List.mem_cons_self)
    by_cases hcap : s.stack.length < (blobFill lifoLen roi passes).cap
    swap
    · simp only [Machine.step, hs, if_neg hcap, full_close] at hf
      exact absurd hf (by simp)
    unfold Balanced due at hb
    unfold Balanced due
    rw [hctxs, List.map_cons, List.sum_cons, ctxLeft] at hb
    rcases hU : (blobFill lifoLen roi passes).lookUp s.vis c s.acc with ⟨_ | i, t⟩
    · obtain ⟨d, hd, hup⟩ := lookUp_counts hvis hc hnorm hU
      have hd2 := hd
      rw [hb, int32_add_left] at hd2
      rcases hD : (blobFill lifoLen roi passes).lookDown s.vis c t with ⟨_ | i, t'⟩
      · -- the span is finished
        obtain ⟨d', hd', hdown⟩ := lookDown_counts hvis hc (by rw [hd, int32_int32]) hD
        have hagain : again roi passes lifoLen s = 0 := by
          simp only [again, hs, hU, lookDown_fst_congr s.acc t, hD, ne_eq, not_true, and_false, if_false]
        have hstep : (blobFill lifoLen roi passes).step s = (blobFill lifoLen roi passes).close s c t' := by
          simp only [Machine.step, hs, if_pos hcap, hU, hD]
        have hacc : ((blobFill lifoLen roi passes).hooks.finish t' c.span).perimeter = t'.perimeter := rfl
        rw [hstep, close_marked, close_ctxs, close_acc, hacc, hd', hd2, hagain, int32_add_left, hup, hdown]
        congr 1
        simp only [leftAfter]
        push_cast
        ring
      · -- downwards
        obtain ⟨d', hd', hdown⟩ := lookDown_counts hvis hc (by rw [hd, int32_int32]) hD
        have hagain : again roi passes lifoLen s = above roi passes c.span c.tl := by
          simp only [again, hs, hU, lookDown_fst_congr s.acc t, hD, ne_eq, reduceCtorEq, not_false_eq_true,
            and_self, if_true]
        have hi := (lookDown_spec s.vis t hc).2 i (by rw [hD])
        have hstep : (blobFill lifoLen roi passes).step s =
            s.descend { c with bl := i + 1 } (i, c.y + 1) t' := by
          simp only [Machine.step, hs, if_pos hcap, hU, hD, hpack _ (hc.bot_behind hi.1 hi.2.1)]
          rfl
        have hleft : ctxLeft roi passes { c with bl := i + 1 } =
            above roi passes c.span c.tl + below roi passes c.span (i + 1) := rfl
        rw [hstep, hagain]
        simp only [State.descend, State.ctxs, List.map_cons, List.sum_cons, hleft]
        rw [hd', hd2, int32_add_left, hup, hdown]
        congr 1
        simp only [leftAfter]
        push_cast
        ring
    · -- upwards
      obtain ⟨d, hd, hup⟩ := lookUp_counts hvis hc hnorm hU
      have hagain : again roi passes lifoLen s = 0 := by
        simp only [again, hs, hU, reduceCtorEq, false_and, if_false]
      have hi := (lookUp_spec s.vis s.acc hc).2 i (by rw [hU])
      have hstep : (blobFill lifoLen roi passes).step s =
          s.descend { c with tl := i + 1 } (i, c.y - 1) t := by
        simp only [Machine.step, hs, if_pos hcap, hU, hpack _ (hc.top_behind hi.1 hi.2.1)]
        rfl
      have hleft : ctxLeft roi passes { c with tl := i + 1 } =
          above roi passes c.span (i + 1) + below roi passes c.span c.bl := rfl
      rw [hstep, hagain]
      simp only [State.descend, State.ctxs, List.map_cons, List.sum_cons, hleft]
      rw [hd, hb, int32_add_left, hup]
      congr 1
      simp only [leftAfter]
      push_cast
      ring
  · have hagain : again roi passes lifoLen s = 0 := by simp only [again, hs]
    rw [show (blobFill lifoLen roi passes).step s = s by simp only [Machine.step, hs], hagain]
    exact hb

section Run

variable {vis₀ : Cell → Bool} {seed : Cell} {s s' : State BlobAcc}
  {n : ℕ} (hpack : ∀ c : Ctx, c.Fits (blobFill lifoLen roi passes).toGrid →
    (blobFill lifoLen roi passes).pack c = c)

theorem Inv.passes_of_vis (h : Inv (blobFill lifoLen roi passes) vis₀ seed s)
    (h0 : ∀ q, vis₀ q = true → passes q = true) (hseed : seed ∈ unclaimed roi passes vis₀) :
    ∀ q, s.vis q = true → passes q = true := by
  intro q hq
  rcases (h.vis_iff q).mp hq with hq | hq
  · exact h0 q hq
  · exact (comp_subset hseed (blobFill_reach_iff.mp (h.marked_reach q hq))).2.1

include hpack in
/-- Over a run the surplus adds up. -/
theorem exec_balanced (h0 : ∀ q, vis₀ q = true → passes q = true)
    (hseed : seed ∈ unclaimed roi passes vis₀) : ∀ {n : ℕ} {s : State BlobAcc} {extra : ℕ},
    Inv (blobFill lifoLen roi passes) vis₀ seed s → Balanced roi passes s extra →
    (blobFill lifoLen roi passes).exec n s = some s' → s'.full = false →
    Balanced roi passes s' (extra +
      (((blobFill lifoLen roi passes).states n s).map (again roi passes lifoLen)).sum)
  | 0, s, extra, _, hb, hx, _ => by
      simp only [Machine.exec] at hx
      split_ifs at hx
      cases hx
      exact hb
  | n + 1, s, extra, h, hb, hx, hf => by
      simp only [Machine.exec] at hx
      simp only [Machine.states]
      split_ifs at hx ⊢ with hdone
      · cases hx
        exact hb
      · have hstep := step_balanced hpack h (Inv.passes_of_vis h h0 hseed) hb (full_of_exec hx hf)
        rw [List.map_cons, List.sum_cons, ← add_assoc]
        exact exec_balanced h0 hseed (h.step hpack) hstep hx hf

theorem failing_le (sp : Span) (y' a b : ℤ) : failing passes sp y' a b ≤ (b - a).toNat := by
  exact (Finset.card_filter_le _ _).trans (Finset.card_range _).le

theorem above_le {c : Ctx} (hc : c.Fits (blobFill lifoLen roi passes).toGrid) :
    above roi passes c.span c.tl ≤ roi.w.toNat := by
  obtain ⟨h1, h2, h3⟩ := hc.cols
  have htop := hc.top
  simp only [blobFill] at h1 h3
  unfold above
  by_cases hrow : roi.y < c.span.y
  · rw [if_pos hrow]
    refine (failing_le _ _ _ _).trans ?_
    simp only [Ctx.span]
    omega
  · rw [if_neg hrow]
    simp only [Ctx.span]
    omega

/-- The spans marked so far, and the one to be grown next. -/
def marks (s : State BlobAcc) : ℕ :=
  s.marked.length + match s.ctl with
    | .grow _ _ => 1
    | _ => 0

/-- Each time something is counted again a new span follows. -/
theorem step_marks (h : Inv (blobFill lifoLen roi passes) vis₀ seed s)
    (hf : ((blobFill lifoLen roi passes).step s).full = false) :
    again roi passes lifoLen s + roi.w.toNat * marks s ≤
      roi.w.toNat * marks ((blobFill lifoLen roi passes).step s) := by
  rcases hs : s.ctl with ⟨x, y⟩ | c | _
  · obtain ⟨l, r, hstep, -⟩ := h.grow_spec hs
    simp only [again, hs, marks, hstep, List.length_cons, zero_add, add_zero, le_refl]
  · have hc := h.fits c (by simp [State.ctxs, hs])
    have hmk := (step_look_marks (M := blobFill lifoLen roi passes) hs).2
    have hmarks : marks s = s.marked.length := by simp only [marks, hs, add_zero]
    by_cases hcond : ((blobFill lifoLen roi passes).lookUp s.vis c s.acc).1 = none ∧
        ((blobFill lifoLen roi passes).lookDown s.vis c s.acc).1 ≠ none
    · have hagain : again roi passes lifoLen s = above roi passes c.span c.tl := by
        simp only [again, hs, if_pos hcond]
      by_cases hcap : s.stack.length < (blobFill lifoLen roi passes).cap
      · rcases hU : (blobFill lifoLen roi passes).lookUp s.vis c s.acc with ⟨_ | i, t⟩
        · rcases hD : (blobFill lifoLen roi passes).lookDown s.vis c t with ⟨_ | i, t'⟩
          · rw [lookDown_fst_congr s.acc t, hD] at hcond
            exact absurd rfl hcond.2
          · have hnext : marks ((blobFill lifoLen roi passes).step s) = s.marked.length + 1 := by
              rw [marks, hmk]
              simp only [Machine.step, hs, if_pos hcap, hU, hD]
            rw [hagain, hnext, hmarks, Nat.mul_succ, add_comm]
            exact Nat.add_le_add_left (above_le hc) _
        · rw [hU] at hcond
          exact absurd hcond.1 (by simp)
      · simp only [Machine.step, hs, if_neg hcap, full_close] at hf
        exact absurd hf (by simp)
    · have hagain : again roi passes lifoLen s = 0 := by simp only [again, hs, if_neg hcond]
      rw [hagain, zero_add, hmarks, marks, hmk]
      exact Nat.mul_le_mul_left _ (Nat.le_add_right _ _)
  · simp only [again, hs, marks, Machine.step, zero_add, le_refl]

include hpack in
theorem exec_marks : ∀ {n : ℕ} {s : State BlobAcc}, Inv (blobFill lifoLen roi passes) vis₀ seed s →
    (blobFill lifoLen roi passes).exec n s = some s' → s'.full = false →
    (((blobFill lifoLen roi passes).states n s).map (again roi passes lifoLen)).sum +
      roi.w.toNat * marks s ≤ roi.w.toNat * marks s'
  | 0, s, _, hx, _ => by
      simp only [Machine.exec] at hx
      split_ifs at hx
      cases hx
      simp [Machine.states]
  | n + 1, s, h, hx, hf => by
      simp only [Machine.exec] at hx
      simp only [Machine.states]
      split_ifs at hx ⊢ with hdone
      · cases hx
        simp
      · have hstep := step_marks h (full_of_exec hx hf)
        have hrest := exec_marks (h.step hpack) hx hf
        rw [List.map_cons, List.sum_cons]
        omega

/-! ### The end of a fill -/

include hpack in
/-- At the end the perimeter is what the spans should add, with what was counted again. -/
theorem fill_perimeter (h0 : ∀ q, vis₀ q = true → passes q = true)
    (hseed : seed ∈ unclaimed roi passes vis₀) {t : BlobAcc} (ht : t.perimeter = 0)
    (hfuel : 3 * (roi.w.toNat * roi.h.toNat) ≤ n)
    (hx : (blobFill lifoLen roi passes).exec n (start vis₀ seed t) = some s') (hf : s'.full = false) :
    s'.acc.perimeter = int32 ((s'.marked.map fun sp => (spanPerimeter roi passes sp : ℤ)).sum +
      surplus roi passes lifoLen ((blobFill lifoLen roi passes).states n (start vis₀ seed t))) ∧
    surplus roi passes lifoLen ((blobFill lifoLen roi passes).states n (start vis₀ seed t)) ≤
      roi.w.toNat * (roi.w.toNat * roi.h.toNat) := by
  have hinv := inv_start (M := blobFill lifoLen roi passes) hseed.1 hseed.2.2 t
  have hwidth : (roi.x + roi.w - roi.x).toNat = roi.w.toNat := by omega
  have hheight : (roi.y + roi.h - roi.y).toNat = roi.h.toNat := by omega
  have hbal : Balanced roi passes (start vis₀ seed t) 0 := by
    simp only [Balanced, due, start, State.ctxs, List.map_nil, List.sum_nil, ht]
    rfl
  obtain ⟨s'', hx', hdone, hend⟩ := exec_halts hpack hinv ((fuel_start_le vis₀ seed t).trans
    (by simpa only [blobFill, hwidth, hheight] using hfuel))
  obtain rfl : s' = s'' := Option.some.inj (hx.symm.trans hx')
  constructor
  · have hctxs : s'.ctxs = [] := by simp [State.ctxs, hdone, hend.done_stack hdone]
    have hrun := exec_balanced hpack h0 hseed hinv hbal hx hf
    simp only [Balanced, due, hctxs, List.map_nil, List.sum_nil, sub_zero, zero_add] at hrun
    exact hrun
  · have hmarks := exec_marks hpack hinv hx hf
    have hlen := hend.length_marked_le hseed.1
    simp only [blobFill, hwidth, hheight] at hlen
    have hlast : marks s' = s'.marked.length := by simp only [marks, hdone, add_zero]
    rw [hlast] at hmarks
    exact (Nat.le_add_right _ _).trans (hmarks.trans (Nat.mul_le_mul_left _ hlen))

end Run

/-! ### The sum fits an `int` -/

/-- The rows at the border of the region of interest. -/
def borders (roi : Rectangle) (y : ℤ) : ℕ :=
  (if y = roi.y then 1 else 0) + if y = roi.y + roi.h - 1 then 1 else 0

theorem failing_le_inner (sp : Span) (y' a b : ℤ) :
    failing passes sp y' a b ≤ (sp.r - sp.l - 1).toNat := by
  rw [← Int.card_Ioo]
  refine Finset.card_le_card_of_injOn (fun k : ℕ => a + (k : ℤ)) (fun k hk => ?_) (fun k _ k' _ h => ?_)
  · obtain ⟨-, h1, h2, -⟩ := Finset.mem_filter.mp (Finset.mem_coe.mp hk)
    exact Finset.mem_coe.mpr (Finset.mem_Ioo.mpr ⟨h1, h2⟩)
  · simpa using h

/-- A span adds at most 2 for each of its pixels, and 1 more for each at a border. -/
theorem spanPerimeter_le {sp : Span} (hlr : sp.l ≤ sp.r) (h1 : roi.y ≤ sp.y)
    (h2 : sp.y ≤ roi.y + roi.h - 1) :
    spanPerimeter roi passes sp ≤ (sp.r + 1 - sp.l).toNat * (2 + borders roi sp.y) := by
  have hup : above roi passes sp sp.l ≤
      (sp.r - sp.l - 1).toNat + (sp.r + 1 - sp.l).toNat * if sp.y = roi.y then 1 else 0 := by
    unfold above
    split_ifs with hrow hborder
    · omega
    · exact (failing_le_inner sp _ _ _).trans (Nat.le_add_right _ _)
    · omega
    · omega
  have hdown : below roi passes sp sp.l ≤
      (sp.r - sp.l - 1).toNat + (sp.r + 1 - sp.l).toNat * if sp.y = roi.y + roi.h - 1 then 1 else 0 := by
    unfold below
    split_ifs with hrow hborder
    · omega
    · exact (failing_le_inner sp _ _ _).trans (Nat.le_add_right _ _)
    · omega
    · omega
  have hinner : 2 + 2 * (sp.r - sp.l - 1).toNat ≤ (sp.r + 1 - sp.l).toNat * 2 := by omega
  unfold spanPerimeter borders
  rw [mul_add, mul_add]
  omega

theorem sum_borders_le (roi : Rectangle) :
    ∑ y ∈ Finset.Ico roi.y (roi.y + roi.h), (2 + borders roi y) ≤ 2 * roi.h.toNat + 2 := by
  have hone : ∀ a : ℤ, ∑ y ∈ Finset.Ico roi.y (roi.y + roi.h), (if y = a then 1 else 0) ≤ 1 := by
    intro a
    rw [Finset.sum_ite_eq']
    split_ifs <;> simp
  have h1 := hone roi.y
  have h2 := hone (roi.y + roi.h - 1)
  simp only [borders, Finset.sum_add_distrib, Finset.sum_const, Int.card_Ico, smul_eq_mul]
  omega

/-- No more than that for the whole region of interest. -/
theorem sum_spanPerimeter_le {sps : List Span} (hne : ∀ sp ∈ sps, sp.l ≤ sp.r)
    (hapart : sps.Pairwise Span.Apart) (hmem : ∀ q ∈ region sps, roi.Mem q) :
    (sps.map (spanPerimeter roi passes)).sum ≤ roi.w.toNat * (2 * roi.h.toNat + 2) := by
  have hsub : region sps ⊆ Finset.Ico roi.x (roi.x + roi.w) ×ˢ Finset.Ico roi.y (roi.y + roi.h) := by
    intro q hq
    obtain ⟨h1, h2, h3, h4⟩ := hmem q hq
    simp only [Finset.mem_product, Finset.mem_Ico]
    exact ⟨⟨h1, h2⟩, h3, h4⟩
  have hspan : ∀ sp ∈ sps, spanPerimeter roi passes sp ≤
      ∑ k ∈ Finset.range (sp.r + 1 - sp.l).toNat, (2 + borders roi (sp.l + (k : ℤ), sp.y).2) := by
    intro sp hsp
    have hlr := hne sp hsp
    obtain ⟨-, -, h3, h4⟩ := hmem (sp.l, sp.y) (mem_region.mpr ⟨sp, hsp, rfl, le_rfl, hlr⟩)
    simp only [Finset.sum_const, Finset.card_range, smul_eq_mul]
    exact spanPerimeter_le hlr h3 (Int.le_sub_one_of_lt h4)
  calc (sps.map (spanPerimeter roi passes)).sum
      ≤ (sps.map fun sp => ∑ k ∈ Finset.range (sp.r + 1 - sp.l).toNat,
          (2 + borders roi (sp.l + (k : ℤ), sp.y).2)).sum := List.sum_le_sum hspan
    _ = ∑ p ∈ region sps, (2 + borders roi p.2) := (sum_region (fun p => 2 + borders roi p.2) hapart).symm
    _ ≤ ∑ p ∈ Finset.Ico roi.x (roi.x + roi.w) ×ˢ Finset.Ico roi.y (roi.y + roi.h), (2 + borders roi p.2) :=
        Finset.sum_le_sum_of_subset hsub
    _ = roi.w.toNat * ∑ y ∈ Finset.Ico roi.y (roi.y + roi.h), (2 + borders roi y) := by
        simp only [Finset.sum_product, Finset.sum_const, Int.card_Ico, smul_eq_mul, add_sub_cancel_left]
    _ ≤ roi.w.toNat * (2 * roi.h.toNat + 2) := Nat.mul_le_mul_left _ (sum_borders_le roi)

end Fill

/-! ### The blobs of a search -/

/-- The pixels that pass. -/
def passing (roi : Rectangle) (passes : Cell → Bool) : Set Cell := {q | roi.Mem q ∧ passes q = true}

/-- The bitmap is made of whole components. -/
def Settled (roi : Rectangle) (passes bmp : Cell → Bool) : Prop :=
  ∀ u, bmp u = true → ∃ S, IsComp Adj (passing roi passes) S ∧ u ∈ S ∧ ∀ v ∈ S, bmp v = true

/-- The fill of a whole component, in these rounds. -/
def Filled.Through (lifoLen fuel : ℕ) (roi : Rectangle) (passes : Cell → Bool) (f : Filled)
    (rounds : List (State BlobAcc)) : Prop :=
  ∃ bmp p, Settled roi passes bmp ∧ p ∈ unclaimed roi passes bmp ∧ f.state.full = false ∧
    (blobFill lifoLen roi passes).exec fuel
      (start bmp p (BlobAcc.init (roi.x + roi.w - 1) (roi.y + roi.h - 1))) = some f.state ∧
    rounds = (blobFill lifoLen roi passes).states fuel
      (start bmp p (BlobAcc.init (roi.x + roi.w - 1) (roi.y + roi.h - 1)))

section Search

variable {fuel : ℕ} {roi : Rectangle} {passes bmp : Cell → Bool}

theorem Settled.passes_of_mem (h : Settled roi passes bmp) {q : Cell} (hq : bmp q = true) : passes q = true := by
  obtain ⟨S, ⟨p, hp, rfl⟩, hqS, -⟩ := h q hq
  exact (comp_subset hp hqS).2

/-- What is left of a component that was not taken is all of it. -/
theorem Settled.comp_eq (h : Settled roi passes bmp) {p : Cell} (hp : p ∈ unclaimed roi passes bmp) :
    Comp Adj (unclaimed roi passes bmp) p = Comp Adj (passing roi passes) p := by
  have hleft : unclaimed roi passes bmp = passing roi passes \ {q | bmp q = true} := by
    ext q
    simp [unclaimed, passing, and_assoc]
  rw [hleft]
  exact comp_diff adj_symm h ⟨hp.1, hp.2.1⟩ (by simp [hp.2.2])

theorem Rectangle.Small.pack_eq (hroi : roi.Small) (lifoLen : ℕ) (passes : Cell → Bool) {c : Ctx}
    (hc : c.Fits (blobFill lifoLen roi passes).toGrid) : (blobFill lifoLen roi passes).pack c = c := by
  obtain ⟨hr1, hr2, hr3, hr4, -⟩ := hroi
  exact xylr_of_fits (by simp [blobFill]; omega) hr3 (by simp [blobFill]; omega) hr4 hc

/-- The fill from a pixel ends, and unless the lifo ran full it took the component of the pixel. -/
theorem blobFill_component (lifoLen : ℕ) (hroi : roi.Small)
    (hfuel : 3 * (roi.w.toNat * roi.h.toNat) ≤ fuel) {p : Cell} (hp : p ∈ unclaimed roi passes bmp)
    (t : BlobAcc) : ∃ s, (blobFill lifoLen roi passes).exec fuel (start bmp p t) = some s ∧
      (∀ q, s.vis q = true ↔ bmp q = true ∨ q ∈ region s.marked) ∧
      (s.full = false → Settled roi passes bmp →
        (region s.marked : Set Cell) = Comp Adj (passing roi passes) p) := by
  obtain ⟨s, hx, -, -, -, -, hvis, hreach, hall⟩ := fill_spec (M := blobFill lifoLen roi passes)
    (fun c hc => hroi.pack_eq lifoLen passes hc) bmp p hp.1 hp.2.2 t (by simpa [blobFill] using hfuel)
  refine ⟨s, hx, fun q => by rw [hvis, mem_region]; rfl, fun hf hset => ?_⟩
  rw [← hset.comp_eq hp]
  ext q
  rw [Finset.mem_coe, mem_region]
  exact ⟨fun hq => blobFill_reach_iff.mp (hreach q hq), fun hq => hall hf q (blobFill_reach_iff.mpr hq)⟩

/-- A taken component settles the bitmap again. -/
theorem Settled.add (h : Settled roi passes bmp) {vis : Cell → Bool} {S : Finset Cell}
    (hvis : ∀ q, vis q = true ↔ bmp q = true ∨ q ∈ S) (hS : IsComp Adj (passing roi passes) S) :
    Settled roi passes vis := by
  intro u hu
  rcases (hvis u).mp hu with hu | hu
  · obtain ⟨T, hT, huT, hall⟩ := h u hu
    exact ⟨T, hT, huT, fun v hv => (hvis v).mpr (.inl (hall v hv))⟩
  · exact ⟨S, hS, hu, fun v hv => (hvis v).mpr (.inr hv)⟩

/-- The blobs found so far are those of fills that took whole components. -/
structure Reported (lifoLen fuel : ℕ) (roi : Rectangle) (passes : Cell → Bool) (s : Search)
    (fills : List (Filled × List (State BlobAcc))) : Prop where
  out : s.out = fills.map fun f => f.1.blob
  through : ∀ f ∈ fills, f.1.Through lifoLen fuel roi passes f.2
  settled : Settled roi passes s.bmp

variable (passes) (lifoLen : ℕ) (opts : BlobOptions)

theorem searchAt_reported (hroi : roi.Small) (hfuel : 3 * (roi.w.toNat * roi.h.toNat) ≤ fuel)
    (code : ℕ) (s : Search) {p : Cell} (hp : roi.Mem p) :
    ∃ s', searchAt lifoLen fuel roi opts passes code s p = some s' ∧ (s'.full = false → s.full = false ∧
      ∀ fills, Reported lifoLen fuel roi passes s fills →
        ∃ fills', Reported lifoLen fuel roi passes s' fills') := by
  unfold searchAt
  split_ifs with hnew
  swap
  · exact ⟨s, rfl, fun hf => ⟨hf, fun fills h => ⟨fills, h⟩⟩⟩
  simp only [Bool.and_eq_true, Bool.not_eq_true'] at hnew
  have hp : p ∈ unclaimed roi passes s.bmp := ⟨hp, hnew.2, hnew.1⟩
  obtain ⟨f, hx, hvis, hcomp⟩ := blobFill_component lifoLen hroi hfuel hp
    (BlobAcc.init (roi.x + roi.w - 1) (roi.y + roi.h - 1))
  rw [hx]
  simp only [Option.bind_eq_bind, Option.bind_some]
  generalize (_ && _ : Bool) = add
  refine ⟨_, rfl, fun hf => ?_⟩
  obtain ⟨hsf, hff⟩ := Bool.or_eq_false_iff.mp hf
  refine ⟨hsf, fun fills h => ?_⟩
  have hset : Settled roi passes f.vis := h.settled.add hvis ⟨p, ⟨hp.1, hp.2.1⟩, hcomp hff h.settled⟩
  cases add
  · exact ⟨fills, h.out, h.through, hset⟩
  · refine ⟨fills ++ [(⟨f, code⟩, (blobFill lifoLen roi passes).states fuel
      (start s.bmp p (BlobAcc.init (roi.x + roi.w - 1) (roi.y + roi.h - 1))))], ?_, ?_, hset⟩
    · simp only [if_true, h.out, List.map_append, List.map_cons, List.map_nil]
      rfl
    · rintro g hg
      rcases List.mem_append.mp hg with hg | hg
      · exact h.through g hg
      · obtain rfl := List.mem_singleton.mp hg
        exact ⟨s.bmp, p, h.settled, hp, hff, hx, rfl⟩

theorem searchCells_reported (hroi : roi.Small) (hfuel : 3 * (roi.w.toNat * roi.h.toNat) ≤ fuel)
    (code : ℕ) (cells : List Cell) (s : Search) (hcells : ∀ p ∈ cells, roi.Mem p) :
    ∃ s', cells.foldlM (searchAt lifoLen fuel roi opts passes code) s = some s' ∧
      (s'.full = false → s.full = false ∧ ∀ fills, Reported lifoLen fuel roi passes s fills →
        ∃ fills', Reported lifoLen fuel roi passes s' fills') := by
  refine exists_foldlM (fun _ s' => s'.full = false → s.full = false ∧
    ∀ fills, Reported lifoLen fuel roi passes s fills → ∃ fills', Reported lifoLen fuel roi passes s' fills')
    (fun hf => ⟨hf, fun fills h => ⟨fills, h⟩⟩) fun p hp _ s₁ hrep₁ => ?_
  obtain ⟨s₂, h2, hrep₂⟩ := searchAt_reported passes lifoLen opts hroi hfuel code s₁ (hcells p hp)
  refine ⟨s₂, h2, fun hf => ?_⟩
  obtain ⟨hf₁, hnext⟩ := hrep₂ hf
  obtain ⟨hf₀, hfirst⟩ := hrep₁ hf₁
  refine ⟨hf₀, fun fills h => ?_⟩
  obtain ⟨fills₁, h₁⟩ := hfirst fills h
  exact hnext fills₁ h₁

/-- The whole search, for one threshold. -/
theorem imlibFindBlobs_reported (lab : LabTable) (img : Image) (hroi : roi.Small)
    (hfuel : 3 * (roi.w.toNat * roi.h.toNat) ≤ fuel) (t : ColorThresholds) (invert : Bool)
    (hx : 0 < opts.xStride) (hy : 0 < opts.yStride) :
    ∃ s, imlibFindBlobs lifoLen fuel roi opts lab img [t] invert = some s ∧ (s.full = false →
      ∃ fills, Reported lifoLen fuel roi (pixelPasses lab img invert t) s fills) := by
  have h0 : Reported lifoLen fuel roi (pixelPasses lab img invert t) Search.init [] :=
    ⟨rfl, by simp, fun u hu => by simp [Search.init] at hu⟩
  obtain ⟨s, hs, hrep⟩ := searchCells_reported (pixelPasses lab img invert t) lifoLen opts hroi
    hfuel 0 (rasterCells roi opts.xStride opts.yStride) Search.init fun p hp => rasterCells_mem hx hy hp
  have hrun : searchThresholds lifoLen fuel roi opts (pixelPasses lab img invert) 0 [t] Search.init =
      some s := by
    simp only [searchThresholds, searchThreshold, hs]
    rfl
  cases hbpp : img.bpp
  case bayer | jpeg => exact ⟨_, by simp only [imlibFindBlobs, hbpp], fun _ => ⟨[], h0⟩⟩
  all_goals exact ⟨s, by simp only [imlibFindBlobs, hbpp]; exact hrun, fun hf => (hrep hf).2 [] h0⟩

end Search

/-! ### The perimeter of a blob -/

section Perimeter

variable {lifoLen fuel : ℕ} {roi : Rectangle} {passes : Cell → Bool} {f : Filled}
  {rounds : List (State BlobAcc)}

theorem Filled.Through.isComp (h : f.Through lifoLen fuel roi passes rounds) (hroi : roi.Small)
    (hfuel : 3 * (roi.w.toNat * roi.h.toNat) ≤ fuel) : IsComp Adj (passing roi passes) f.pixels := by
  obtain ⟨bmp, p, hset, hp, hf, hx, -⟩ := h
  obtain ⟨s, hx', -, hcomp⟩ := blobFill_component lifoLen hroi hfuel hp
    (BlobAcc.init (roi.x + roi.w - 1) (roi.y + roi.h - 1))
  obtain rfl : f.state = s := Option.some.inj (hx.symm.trans hx')
  exact ⟨p, ⟨hp.1, hp.2.1⟩, hcomp hf hset⟩

/-- The perimeter reported, from the maximal spans of the pixels. -/
theorem Filled.Through.perimeter (h : f.Through lifoLen fuel roi passes rounds) (hroi : roi.Small)
    (hfuel : 3 * (roi.w.toNat * roi.h.toNat) ≤ fuel) :
    ∃ spans : Finset Span, (∀ sp, sp ∈ spans ↔ sp.MaximalIn f.pixels) ∧
      f.blob.perimeter = int32 ((∑ sp ∈ spans, spanPerimeter roi passes sp : ℕ) +
        surplus roi passes lifoLen rounds) ∧
      ∑ sp ∈ spans, spanPerimeter roi passes sp ≤ roi.w.toNat * (2 * roi.h.toNat + 2) ∧
      surplus roi passes lifoLen rounds ≤ roi.w.toNat * (roi.w.toNat * roi.h.toNat) := by
  have hcomp := h.isComp hroi hfuel
  obtain ⟨bmp, p, hset, hp, hf, hx, rfl⟩ := h
  have hpack : ∀ c : Ctx, c.Fits (blobFill lifoLen roi passes).toGrid →
      (blobFill lifoLen roi passes).pack c = c := fun c hc => hroi.pack_eq lifoLen passes hc
  have hinv := exec_inv (fun s => ScanFill.Inv (blobFill lifoLen roi passes) bmp p s)
    (fun s hs => hs.step hpack) hx (inv_start (M := blobFill lifoLen roi passes) hp.1 hp.2.2 _)
  have hrow : (blobFill lifoLen roi passes).RowOpen bmp p := fun a b _ hb _ =>
    (comp_subset hp (blobFill_reach_iff.mp hb)).2.1
  have hmax := exec_maximal hpack hrow hp.1 hp.2.2 _ hx
  have hnodup := nodup_of_apart hinv.nonempty hinv.apart
  have hmem : ∀ q ∈ f.pixels, roi.Mem q := fun q hq => by
    obtain ⟨r, hr, hS⟩ := hcomp
    exact (comp_subset hr (hS ▸ Finset.mem_coe.mpr hq)).1
  obtain ⟨hper, hsur⟩ := fill_perimeter hpack (fun q hq => hset.passes_of_mem hq) hp rfl hfuel hx hf
  refine ⟨f.state.marked.toFinset, fun sp => ?_, ?_, ?_, hsur⟩
  · rw [List.mem_toFinset]
    exact mem_iff_maximalIn hinv.nonempty hinv.apart hmax.apart
  · rw [List.sum_toFinset _ hnodup, Nat.cast_list_sum, List.map_map]
    exact hper
  · rw [List.sum_toFinset _ hnodup]
    exact sum_spanPerimeter_le hinv.nonempty hinv.apart hmem

theorem int32_add_eq_iff {a b : ℕ} (ha : a < 2147483648) :
    int32 ((a : ℤ) + b) = a ↔ 4294967296 ∣ b := by
  unfold int32
  omega

end Perimeter

/-- If the lifo does not run full, the perimeter of a blob counts each boundary position once if and
    only if what was counted again adds up to a multiple of `2^32`: in a region of interest that is not
    huge, if the fill goes on downwards only from spans above which nothing is left to count. -/
theorem blob_perimeter_iff (lab : LabTable) (img : Image) (roi : Rectangle) (hroi : roi.Small)
    (t : ColorThresholds) (invert : Bool) (lifoLen fuel : ℕ)
    (hfuel : 3 * (roi.w.toNat * roi.h.toNat) ≤ fuel) (opts : BlobOptions) (hx : 0 < opts.xStride)
    (hy : 0 < opts.yStride) :
    ∃ s, imlibFindBlobs lifoLen fuel roi opts lab img [t] invert = some s ∧ (s.full = false →
      ∃ fills : List (Filled × List (State BlobAcc)), (s.out = fills.map fun f => f.1.blob) ∧
        ∀ f ∈ fills, f.1.Through lifoLen fuel roi (pixelPasses lab img invert t) f.2 ∧
          IsComp Adj (passing roi (pixelPasses lab img invert t)) f.1.pixels ∧
          ∃ spans : Finset Span, (∀ sp, sp ∈ spans ↔ sp.MaximalIn f.1.pixels) ∧
            (f.1.blob.perimeter = (∑ sp ∈ spans, spanPerimeter roi (pixelPasses lab img invert t) sp : ℕ) ↔
              4294967296 ∣ surplus roi (pixelPasses lab img invert t) lifoLen f.2) ∧
            (roi.w.toNat * (roi.w.toNat * roi.h.toNat) < 4294967296 →
              (f.1.blob.perimeter = (∑ sp ∈ spans, spanPerimeter roi (pixelPasses lab img invert t) sp : ℕ) ↔
                ∀ u ∈ f.2, again roi (pixelPasses lab img invert t) lifoLen u = 0))) := by
  obtain ⟨s, hs, hrep⟩ := imlibFindBlobs_reported lifoLen opts lab img hroi hfuel t invert hx hy
  refine ⟨s, hs, fun hf => ?_⟩
  obtain ⟨fills, hfills⟩ := hrep hf
  refine ⟨fills, hfills.out, fun f hmem => ?_⟩
  have hthrough := hfills.through f hmem
  refine ⟨hthrough, hthrough.isComp hroi hfuel, ?_⟩
  obtain ⟨spans, hspans, hper, hsum, hsur⟩ := hthrough.perimeter hroi hfuel
  have hsmall : roi.w.toNat * (2 * roi.h.toNat + 2) < 2147483648 := by
    obtain ⟨hr1, -, hr3, -, hr5⟩ := hroi
    calc roi.w.toNat * (2 * roi.h.toNat + 2) ≤ 32767 * (2 * 32767 + 2) :=
          Nat.mul_le_mul (by omega) (by omega)
      _ < 2147483648 := by norm_num
  have hiff : f.1.blob.perimeter = (∑ sp ∈ spans, spanPerimeter roi (pixelPasses lab img invert t) sp : ℕ) ↔
      4294967296 ∣ surplus roi (pixelPasses lab img invert t) lifoLen f.2 := by
    rw [hper]
    exact int32_add_eq_iff (by omega)
  refine ⟨spans, hspans, hiff, fun hroom => hiff.trans ?_⟩
  constructor
  · intro hdvd u hu
    have hzero := Nat.eq_zero_of_dvd_of_lt hdvd (hsur.trans_lt hroom)
    exact List.sum_eq_zero_iff.mp hzero _ (List.mem_map_of_mem hu)
  · intro hnone
    have hzero : surplus roi (pixelPasses lab img invert t) lifoLen f.2 = 0 := by
      refine List.sum_eq_zero_iff.mpr fun v hv => ?_
      obtain ⟨u, hu, rfl⟩ := List.mem_map.mp hv
      exact hnone u hu
    rw [hzero]
    exact dvd_zero _

/-- The ring of eight dark pixels. -/
theorem blob_perimeter_ring :
    ∃ s, imlibFindBlobs 8192 27 ⟨0, 0, 3, 3⟩ plainOptions (fun _ => (0, 0, 0)) ringImage
        [darkThreshold] false = some s ∧ s.full = false ∧
      ∀ b ∈ s.out, ∃ (spans : Finset Span) (rounds : List (State BlobAcc)),
        (b.perimeter = (∑ sp ∈ spans, spanPerimeter ⟨0, 0, 3, 3⟩
            (pixelPasses (fun _ => (0, 0, 0)) ringImage false darkThreshold) sp : ℕ) ↔
          ∀ u ∈ rounds, again ⟨0, 0, 3, 3⟩
            (pixelPasses (fun _ => (0, 0, 0)) ringImage false darkThreshold) 8192 u = 0) := by
  obtain ⟨s, hs, h⟩ := blob_perimeter_iff (fun _ => (0, 0, 0)) ringImage ⟨0, 0, 3, 3⟩
    ⟨by decide, by decide, by decide, by decide, by decide⟩ darkThreshold false 8192 27 (by decide)
    plainOptions (by decide) (by decide)
  have hrun : (imlibFindBlobs 8192 27 ⟨0, 0, 3, 3⟩ plainOptions (fun _ => (0, 0, 0)) ringImage
      [darkThreshold] false).map Search.full = some false := by
    decide
  rw [hs, Option.map_some, Option.some.injEq] at hrun
  obtain ⟨fills, hout, hall⟩ := h hrun
  refine ⟨s, hs, hrun, fun b hb => ?_⟩
  obtain ⟨f, hf, rfl⟩ := List.mem_map.mp (hout ▸ hb)
  obtain ⟨-, -, spans, -, -, hnone⟩ := hall f hf
  exact ⟨spans, f.2, hnone (by decide)⟩

/-- Two dark pixels, one above the other. -/
def columnImage : Image := ⟨1, 2, .grayscale, fun _ _ => 10⟩

/-- The border above the upper one is counted twice: the perimeter reported is 7, not 6. -/
theorem blob_perimeter_column :
    ∃ s b, imlibFindBlobs 8192 6 ⟨0, 0, 1, 2⟩ plainOptions (fun _ => (0, 0, 0)) columnImage
        [darkThreshold] false = some s ∧ s.full = false ∧ s.out = [b] ∧ b.perimeter = 7 ∧
      ∀ (S : Finset Cell) (spans : Finset Span),
        IsComp Adj (passing ⟨0, 0, 1, 2⟩
          (pixelPasses (fun _ => (0, 0, 0)) columnImage false darkThreshold)) S →
        (∀ sp, sp ∈ spans ↔ sp.MaximalIn S) →
        ∑ sp ∈ spans, spanPerimeter ⟨0, 0, 1, 2⟩
          (pixelPasses (fun _ => (0, 0, 0)) columnImage false darkThreshold) sp = 6 := by
  have hrun : (imlibFindBlobs 8192 6 ⟨0, 0, 1, 2⟩ plainOptions (fun _ => (0, 0, 0)) columnImage
      [darkThreshold] false).map (fun s => (s.full, s.out.map Blob.perimeter)) = some (false, [7]) := by
    decide
  rcases hs : imlibFindBlobs 8192 6 ⟨0, 0, 1, 2⟩ plainOptions (fun _ => (0, 0, 0)) columnImage
      [darkThreshold] false with _ | s
  · simp [hs] at hrun
  rw [hs, Option.map_some, Option.some.injEq, Prod.mk.injEq] at hrun
  obtain ⟨b, hb, hper⟩ := List.map_eq_singleton_iff.mp hrun.2
  refine ⟨s, b, rfl, hrun.1, hb, hper, ?_⟩
  rintro S spans ⟨p, hp, hS⟩ hspans
  -- both pixels are in the one component
  have hpix : ∀ q : Cell, q ∈ S ↔ q.1 = 0 ∧ 0 ≤ q.2 ∧ q.2 < 2 := by
    intro q
    rw [← Finset.mem_coe, hS]
    constructor
    · intro hq
      obtain ⟨h1, h2, h3, h4⟩ := (comp_subset hp hq).1
      dsimp only at h1 h2 h3 h4
      omega
    · rintro ⟨h1, h2, h3⟩
      obtain ⟨h4, h5, h6, h7⟩ := hp.1
      dsimp only at h4 h5 h6 h7
      by_cases hqp : q = p
      · exact hqp ▸ mem_comp_self
      · have hne : q.2 ≠ p.2 := fun h => hqp (Prod.ext (by omega) h)
        exact comp_step mem_comp_self (.inr ⟨by omega, by omega⟩)
          ⟨⟨by dsimp only; omega, by dsimp only; omega, by dsimp only; omega, by dsimp only; omega⟩, rfl⟩
  have htwo : spans = {⟨0, 0, 0⟩, ⟨1, 0, 0⟩} := by
    ext ⟨y, l, r⟩
    rw [hspans]
    simp only [Finset.mem_insert, Finset.mem_singleton, Span.mk.injEq]
    constructor
    · rintro ⟨hlr, hall, -, -⟩
      have hl := (hpix _).mp (hall (l, y) ⟨rfl, le_rfl, hlr⟩)
      have hr := (hpix _).mp (hall (r, y) ⟨rfl, hlr, le_rfl⟩)
      dsimp only at hl hr
      omega
    · intro h
      refine ⟨by dsimp only; omega, ?_, ?_, ?_⟩
      · rintro ⟨x, y'⟩ ⟨hy, h1, h2⟩
        rw [hpix]
        dsimp only at hy h1 h2 ⊢
        omega
      · rw [hpix]
        dsimp only
        omega
      · rw [hpix]
        dsimp only
        omega
  rw [htwo]
  decide

end OpenMV.Vision
